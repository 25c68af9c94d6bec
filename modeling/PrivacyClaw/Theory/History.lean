import PrivacyClaw.Core.Calls
import PrivacyClaw.Theory.Kept

/-!
# The History of a Conversation

Calls of `store_request_messages` on one conversation, from any number of
connections, in any order of their steps. Every request sends a prefix of one
growing history.

A call counts what is stored and later appends the rest of its messages. If
the count is still right when it appends, the stored messages go on being a
prefix of the history, as long as the longest that a finished call has sent.
A call that has nothing to append does no harm whatever it counted. So each
message is stored once and in order as long as no call appends on a count that
is no longer right (`history_stored`).

Two calls that both count before either appends store their messages twice
(`history_stored_twice`).

## Main definitions

* `requestHistory`, `ofHistory`: The stored request messages, and a history.
* `messagesOf`, `sent`, `longest`: What the calls send.
* `miscounted`, `NotMiscounted`: An append on a count that is no longer right.
* `Growing`: What holds between the steps.

## Theorems

* `storeRequestMessages_map`, `records_spec`: What a call appends.
* `longest_set`: One call goes on.
* `Growing.count`: What a call counts.
* `Growing.step`: A step keeps it.
* `history_stored`: The stored messages are the longest history sent.
* `history_stored_in_turn`: Two requests in turn.
* `history_stored_twice`: Two calls that count at the same time.
-/

namespace PrivacyClaw

namespace Storage

/-- The request messages among stored ones, with what a request has of them. -/
def requestHistory (messages : List Message) : List (Option Str × Str) :=
  (messages.filter fun m => m.direction == lit "request").map fun m => (m.role, m.content)

/-- The messages of requests in the same form. -/
def ofHistory (messages : List PrivacyClaw.Message) : List (Option Str × Str) :=
  messages.map fun m => (some m.role, m.content)

theorem requestHistory_append (messages more : List Message) :
    requestHistory (messages ++ more) = requestHistory messages ++ requestHistory more := by
  rw [requestHistory, List.filter_append, List.map_append]
  rfl

theorem countP_requests (messages : List Message) :
    (messages.countP fun m => m.direction == lit "request") =
      (requestHistory messages).length := by
  rw [requestHistory, List.length_map, List.countP_eq_length_filter]

section Calls

variable (K : SerdeJson) (J : StoreJson) (D : ReadDir) (provider : Provider) (convId : Str)

/-- The messages of a call's request. -/
def messagesOf (call : StoreCall) : List PrivacyClaw.Message :=
  ((parseRequest K provider call.originalBody).map ParsedRequest.messages).getD []

/-- What a call stores are the messages behind those it counted. -/
theorem storeRequestMessages_map (call : StoreCall) (offset : Nat) :
    (storeRequestMessages K provider call.originalBody call.replacedBody offset).map
      (fun s => (some s.role, s.content)) = ofHistory ((messagesOf K provider call).drop offset) := by
  unfold storeRequestMessages messagesOf
  cases parseRequest K provider call.originalBody with
  | none =>
      rw [Option.map_none, Option.getD_none, List.drop_nil]
      rfl
  | some parsed =>
      dsimp only [Option.map_some, Option.getD_some]
      rw [List.map_map, ofHistory]
      have hfst : (parsed.messages.drop offset).map (fun m => (some m.role, m.content)) =
          ((parsed.messages.drop offset).zipIdx.map Prod.fst).map
            fun m => (some m.role, m.content) := by
        rw [List.zipIdx_map_fst]
      rw [hfst, List.map_map]
      rfl

/-- The records of a call are request messages of the conversation. -/
theorem records_spec (call : StoreCall) (offset : Nat) :
    (∀ m ∈ call.records K provider convId offset, m.conversationId = convId) ∧
      requestHistory (call.records K provider convId offset) =
        ofHistory ((messagesOf K provider call).drop offset) := by
  have hzip : ∀ (ids : List Str) (stored : List StoredMessage), ids.length = stored.length →
      (∀ m ∈ requestMessages convId call.ts call.piiProcessed ids stored,
        m.conversationId = convId) ∧
        requestHistory (requestMessages convId call.ts call.piiProcessed ids stored) =
          stored.map fun s => (some s.role, s.content) := by
    intro ids
    induction ids with
    | nil =>
        intro stored hlen
        rw [List.length_nil, eq_comm, List.length_eq_zero_iff] at hlen
        rw [hlen]
        exact ⟨fun m hm => absurd hm List.not_mem_nil, rfl⟩
    | cons id ids ih =>
        intro stored hlen
        cases stored with
        | nil => exact absurd hlen (by simp only [List.length_cons, List.length_nil]; omega)
        | cons s stored =>
            rcases ih stored (Nat.succ.inj hlen) with ⟨hconv, hhistory⟩
            refine ⟨List.forall_mem_cons.mpr ⟨rfl, hconv⟩, ?_⟩
            rw [List.map_cons, ← hhistory]
            rfl
  -- there are as many new ids as messages
  rw [← storeRequestMessages_map]
  refine hzip _ _ ?_
  rw [List.length_map, List.length_range]

/-- A call that counted all its messages appends none. -/
theorem records_eq_nil (call : StoreCall) (offset : Nat)
    (hle : (messagesOf K provider call).length ≤ offset) :
    call.records K provider convId offset = [] := by
  have hmap := storeRequestMessages_map K provider call offset
  rw [List.drop_eq_nil_of_le hle, ofHistory, List.map_nil, List.map_eq_nil_iff] at hmap
  rw [StoreCall.records, hmap]
  rfl

/-- How many messages a call that is back has sent. -/
def sent : StoreCall × StoreState → Nat
  | (call, .returned) => (messagesOf K provider call).length
  | _ => 0

/-- The length of the longest history that was sent, or of what was stored at
    the start. -/
def longest (start : Nat) (threads : List (StoreCall × StoreState)) : Nat :=
  threads.foldr (fun t n => max (sent K provider t) n) start

theorem longest_start (start : Nat) (calls : List StoreCall) :
    longest K provider start (calls.map fun call => (call, .start)) = start := by
  induction calls with
  | nil => rfl
  | cons call calls ih =>
      rw [List.map_cons, longest, List.foldr_cons]
      exact (Nat.zero_max _).trans ih

/-- A call that had sent nothing goes on. -/
theorem longest_set (start : Nat) (t' : StoreCall × StoreState) :
    ∀ (threads : List (StoreCall × StoreState)) (i : Nat) (t : StoreCall × StoreState),
      threads[i]? = some t → sent K provider t = 0 →
      longest K provider start (threads.set i t') =
        max (sent K provider t') (longest K provider start threads) := by
  intro threads
  induction threads with
  | nil =>
      intro i t ht
      exact absurd ht (by simp only [List.getElem?_nil, reduceCtorEq, not_false_eq_true])
  | cons u threads ih =>
      intro i t ht hzero
      cases i with
      | zero =>
          rw [List.getElem?_cons_zero, Option.some.injEq] at ht
          rw [List.set_cons_zero, longest, longest, List.foldr_cons, List.foldr_cons, ht, hzero,
            Nat.zero_max]
      | succ i =>
          rw [List.getElem?_cons_succ] at ht
          have hrest := ih i t ht hzero
          rw [List.set_cons_succ, longest, longest, List.foldr_cons, List.foldr_cons]
          rw [longest, longest] at hrest
          rw [hrest]
          exact Nat.max_left_comm _ _ _

/-- A call is about to append messages on a count that is no longer right. -/
def miscounted (p : Machine.Pool LogStore (StoreCall × StoreState)) (e : Nat × Unit) : Bool :=
  match p.threads[e.1]? with
  | some (call, .counted offset) =>
    offset != (p.shared.countRequestMessages J D convId).1 &&
      !(call.records K provider convId offset).isEmpty
  | _ => false

/-- The step is not an append on a wrong count. -/
def NotMiscounted (p : Machine.Pool LogStore (StoreCall × StoreState)) (e : Nat × Unit) : Prop :=
  miscounted K J D provider convId p e = false

instance (p : Machine.Pool LogStore (StoreCall × StoreState)) (e : Nat × Unit) :
    Decidable (NotMiscounted K J D provider convId p e) := inferInstanceAs (Decidable (_ = _))

variable {K J D provider convId}

theorem NotMiscounted.right {p : Machine.Pool LogStore (StoreCall × StoreState)} {i : Nat}
    (hnot : NotMiscounted K J D provider convId p (i, ())) {call : StoreCall} {offset : Nat}
    (ht : p.threads[i]? = some (call, .counted offset)) :
    offset = (p.shared.countRequestMessages J D convId).1 ∨
      call.records K provider convId offset = [] := by
  rw [NotMiscounted, miscounted, ht] at hnot
  dsimp only at hnot
  rw [Bool.and_eq_false_iff, bne_eq_false_iff_eq, Bool.not_eq_false', List.isEmpty_iff] at hnot
  exact hnot

/-- What a step of a call does. -/
theorem StoreCall.act_cases {i : Nat} {st st' : LogStore} {call call' : StoreCall}
    {s s' : StoreState} (hact : StoreCall.act K J D provider convId i () st (call, s) =
      some (st', (call', s'))) :
    call' = call ∧
      ((s = .start ∧ parseRequest K provider call.originalBody = none ∧ st' = st ∧
          s' = .returned) ∨
        (s = .start ∧ st' = (st.countRequestMessages J D convId).2 ∧
          s' = .counted (st.countRequestMessages J D convId).1) ∨
        (∃ offset, s = .counted offset ∧ s' = .returned ∧
          st' = (st.batchInsertMessages D (call.records K provider convId offset)).2)) := by
  cases s with
  | start =>
      rw [act] at hact
      by_cases hparse : parseRequest K provider call.originalBody = none
      · simp only [hparse, if_true, Option.some.injEq, Prod.mk.injEq] at hact
        rcases hact with ⟨rfl, rfl, rfl⟩
        exact ⟨rfl, Or.inl ⟨rfl, hparse, rfl, rfl⟩⟩
      · simp only [hparse, if_false, Option.some.injEq, Prod.mk.injEq] at hact
        rcases hact with ⟨rfl, rfl, rfl⟩
        exact ⟨rfl, Or.inr (Or.inl ⟨rfl, rfl, rfl⟩)⟩
  | counted offset =>
      simp only [act, Option.some.injEq, Prod.mk.injEq] at hact
      rcases hact with ⟨rfl, rfl, rfl⟩
      exact ⟨rfl, Or.inr (Or.inr ⟨offset, rfl, rfl, rfl⟩)⟩
  | returned => exact absurd hact (by simp only [act, reduceCtorEq, not_false_eq_true])

variable (K J provider convId) in
/-- Between the steps the stored request messages are as much of the history as
    the longest that was sent, and no call has counted more. -/
structure Growing (history : List PrivacyClaw.Message) (start : Nat) (calls : List StoreCall)
    (p : Machine.Pool LogStore (StoreCall × StoreState)) : Prop where
  calls : ∀ (i : Nat) (t : StoreCall × StoreState), p.threads[i]? = some t → t.1 ∈ calls
  bound : longest K provider start p.threads ≤ history.length
  stored : ∃ records, Holds J p.shared convId records ∧ (∀ r ∈ records, r.Reads J) ∧
    requestHistory (Kept.ofRecords records).messages =
      ofHistory (history.take (longest K provider start p.threads))
  counted : ∀ (i : Nat) (call : StoreCall) (offset : Nat),
    p.threads[i]? = some (call, .counted offset) → offset ≤ longest K provider start p.threads

/-- A prefix of the history behind what is stored of it. -/
theorem prefix_take_append {α : Type} {l history : List α} (hl : l <+: history) (n : Nat) :
    history.take n ++ l.drop n = history.take (max l.length n) := by
  by_cases hlen : l.length ≤ n
  · rw [List.drop_eq_nil_of_le hlen, List.append_nil, Nat.max_eq_right hlen]
  · have htake : l.take n = history.take n := by
      rw [List.prefix_iff_eq_take.mp hl, List.take_take, Nat.min_eq_left (by omega)]
    rw [← htake, List.take_append_drop, Nat.max_eq_left (by omega)]
    exact List.prefix_iff_eq_take.mp hl

variable {history : List PrivacyClaw.Message} {start : Nat} {calls : List StoreCall}
  {p : Machine.Pool LogStore (StoreCall × StoreState)}

/-- The count is that of the history. -/
theorem Growing.count (hp : Growing K J provider convId history start calls p) :
    p.shared.countRequestMessages J D convId =
      (longest K provider start p.threads, p.shared) := by
  rcases hp.stored with ⟨records, hholds, hreads, hstored⟩
  rw [hholds.countRequestMessages D hreads, countP_requests, hstored, ofHistory, List.length_map,
    List.length_take, Nat.min_eq_left hp.bound]

/-- A call goes on and has now sent what it had to, the store having the history
    that far. -/
theorem Growing.next (hp : Growing K J provider convId history start calls p) {i : Nat}
    {call : StoreCall} {s s' : StoreState} (ht : p.threads[i]? = some (call, s))
    (hs : s ≠ .returned) {st : LogStore}
    (hbound : sent K provider (call, s') ≤ history.length)
    (hstored : ∃ records, Holds J st convId records ∧ (∀ r ∈ records, r.Reads J) ∧
      requestHistory (Kept.ofRecords records).messages = ofHistory (history.take
        (max (sent K provider (call, s')) (longest K provider start p.threads))))
    (hcounted : ∀ offset, s' = .counted offset → offset ≤ longest K provider start p.threads) :
    Growing K J provider convId history start calls ⟨st, p.threads.set i (call, s')⟩ := by
  -- until it is back a call counts as having sent nothing
  have hzero : sent K provider (call, s) = 0 := by
    cases s with
    | returned => exact absurd rfl hs
    | _ => rfl
  have hlongest := longest_set K provider start (call, s') p.threads i _ ht hzero
  refine ⟨Machine.forall_set (hp.calls i (call, s) ht) fun j t _ => hp.calls j t, ?_, ?_,
    fun j c offset ht' => ?_⟩
  · rw [hlongest]
    exact Nat.max_le.mpr ⟨hbound, hp.bound⟩
  · rw [hlongest]
    exact hstored
  · rw [hlongest]
    rcases Machine.getElem?_set_cases _ _ _ _ _ ht' with ⟨_, he⟩ | ⟨_, ht'⟩
    · exact Nat.le_trans (hcounted offset (Prod.mk.inj he).2.symm) (Nat.le_max_right _ _)
    · exact Nat.le_trans (hp.counted j c offset ht') (Nat.le_max_right _ _)

/-- A step that meets the condition keeps it. -/
theorem Growing.step (hp : Growing K J provider convId history start calls p)
    (hpart : ∀ call ∈ calls, messagesOf K provider call <+: history)
    (hreads : ∀ call ∈ calls, ∀ offset, ∀ m ∈ call.records K provider convId offset,
      (Record.message m).Reads J)
    {e : Nat × Unit} (hnot : NotMiscounted K J D provider convId p e)
    {p' : Machine.Pool LogStore (StoreCall × StoreState)}
    (hstep : Machine.Pool.step (StoreCall.act K J D provider convId) e p = some p') :
    Growing K J provider convId history start calls p' := by
  rcases e with ⟨i, ⟨⟩⟩
  rcases (Machine.Pool.step_eq_some_iff _ _ _).mp hstep with
    ⟨⟨call, s⟩, st', ⟨call', s'⟩, ht, hact, rfl⟩
  have hcall : call ∈ calls := hp.calls i _ ht
  have hcount : p.shared.countRequestMessages J D convId = _ := hp.count
  have hlen := (hpart call hcall).length_le
  rcases StoreCall.act_cases hact with ⟨rfl, ⟨rfl, hparse, rfl, rfl⟩ | ⟨rfl, rfl, rfl⟩ |
    ⟨offset, rfl, rfl, rfl⟩⟩
  · -- nothing was sent
    have hnothing : sent K provider (call', .returned) = 0 := by
      rw [sent, messagesOf, hparse]
      rfl
    refine hp.next ht (by simp only [ne_eq, reduceCtorEq, not_false_eq_true]) ?_ ?_ ?_
    · rw [hnothing]
      exact Nat.zero_le _
    · rw [hnothing, Nat.zero_max]
      exact hp.stored
    · exact fun offset he => absurd he (by simp only [reduceCtorEq, not_false_eq_true])
  · rw [hcount]
    have hnothing : sent K provider (call', .counted (longest K provider start p.threads)) = 0 := rfl
    refine hp.next ht (by simp only [ne_eq, reduceCtorEq, not_false_eq_true]) (Nat.zero_le _) ?_ ?_
    · rw [hnothing, Nat.zero_max]
      exact hp.stored
    · intro offset he
      rw [StoreState.counted.injEq] at he
      exact Nat.le_of_eq he.symm
  · rcases records_spec K provider convId call' offset with ⟨hconv, hhistory⟩
    refine hp.next ht (by simp only [ne_eq, reduceCtorEq, not_false_eq_true]) hlen ?_
      (fun offset he => absurd he (by simp only [reduceCtorEq, not_false_eq_true]))
    rcases hp.stored with ⟨records, hholds, hrecords, hstored⟩
    have hsent : sent K provider (call', .returned) = (messagesOf K provider call').length := rfl
    rw [hsent, ← prefix_take_append (hpart call' hcall)]
    cases hnew : call'.records K provider convId offset with
    | nil =>
        -- nothing to append: all of it was counted, and more than that is stored
        have hdrop : (messagesOf K provider call').drop (longest K provider start p.threads) = [] := by
          rw [hnew] at hhistory
          have hshort := congrArg List.length hhistory
          have hmore := hp.counted i call' offset ht
          rw [ofHistory, List.length_map, List.length_drop, requestHistory, List.filter_nil,
            List.map_nil, List.length_nil] at hshort
          exact List.drop_eq_nil_of_le (by omega)
        rw [hdrop, List.append_nil]
        exact ⟨records, hholds, hrecords, hstored⟩
    | cons m ms =>
        have hoffset : offset = longest K provider start p.threads := by
          have hright := (hnot.right ht).resolve_right (by rw [hnew]; exact List.cons_ne_nil _ _)
          rw [hright, hcount]
        rw [hnew] at hconv hhistory
        rw [← hconv m List.mem_cons_self] at hholds
        rcases hholds.batchInsertMessages D m ms with ⟨st', happly, _, hholds'⟩
        rw [happly]
        refine ⟨_, hconv m List.mem_cons_self ▸ hholds', mem_reads_append hrecords fun r hr => ?_, ?_⟩
        · rcases List.mem_map.mp hr with ⟨m', hm', rfl⟩
          exact hreads call' hcall offset m' (hnew ▸ hm')
        · rw [Kept.ofRecords_messages, requestHistory_append, hstored, hhistory, hoffset, ofHistory,
            ofHistory, ofHistory, List.map_append]

/-- Each request message is stored once and in order. If no call appends on a
    count that is no longer right, then in every state the stored request messages
    are the history as far as the longest that the finished calls have sent, or
    that was stored before. -/
theorem history_stored (K : SerdeJson) (J : StoreJson) (D : ReadDir) (provider : Provider)
    (convId : Str) (history : List PrivacyClaw.Message) (calls : List StoreCall)
    (hpart : ∀ call ∈ calls, ∀ parsed, parseRequest K provider call.originalBody = some parsed →
      parsed.messages <+: history)
    (hreads : ∀ call ∈ calls, ∀ offset, ∀ m ∈ call.records K provider convId offset,
      (Record.message m).Reads J)
    (st : LogStore) (records : List Record) (hholds : Holds J st convId records)
    (hrecords : ∀ r ∈ records, r.Reads J) (start : Nat) (hstart : start ≤ history.length)
    (hstored : requestHistory (Kept.ofRecords records).messages = ofHistory (history.take start))
    (es : List (Nat × Unit)) (p : Machine.Pool LogStore (StoreCall × StoreState))
    (hok : Machine.Along (Machine.Pool.step (StoreCall.act K J D provider convId))
      (NotMiscounted K J D provider convId) es ⟨st, calls.map fun call => (call, .start)⟩)
    (hrun : Machine.run (Machine.Pool.step (StoreCall.act K J D provider convId)) es
      ⟨st, calls.map fun call => (call, .start)⟩ = some p) :
    ∃ stored, p.shared.getMessages J D convId = (some stored, p.shared) ∧
      requestHistory stored = ofHistory (history.take (longest K provider start p.threads)) := by
  have hpart : ∀ call ∈ calls, messagesOf K provider call <+: history := by
    intro call hcall
    unfold messagesOf
    cases hparse : parseRequest K provider call.originalBody with
    | none => exact List.nil_prefix
    | some parsed => exact hpart call hcall parsed hparse
  have hzero := longest_start K provider start calls
  have hp := Machine.run_invariant (Growing K J provider convId history start calls)
    (fun p e p' hp hnot hstep => hp.step hpart hreads hnot hstep) es _ p ⟨?_, ?_, ?_, ?_⟩ hok hrun
  · rcases hp.stored with ⟨records', hholds', hreads', hstored'⟩
    exact ⟨_, hholds'.getMessages D hreads', hstored'⟩
  · intro i t ht
    exact List.mem_of_getElem? (Machine.getElem?_start ht).1
  · rw [hzero]
    exact hstart
  · rw [hzero]
    exact ⟨records, hholds, hrecords, hstored⟩
  · intro i call offset ht
    exact absurd (Machine.getElem?_start ht).2 (by simp only [reduceCtorEq, not_false_eq_true])

end Calls

/-- A body with some texts of a user. -/
def chatOf (texts : List Str) : Value :=
  .object [(lit "messages", .array (texts.map fun t => .object [(lit "content", .string t),
    (lit "role", .string (lit "user"))])), (lit "model", .string (lit "m"))]

/-- A parser that knows a first request and the next one. -/
def chatJson : SerdeJson := .ofValues [chatOf [lit "a"], chatOf [lit "a", lit "b"]]

/-- The call for a request with some texts. -/
def chatCall (texts : List Str) (id : Str) : StoreCall :=
  ⟨(chatOf texts).compact, none, false, lit "t", fun n => id ++ decimal n⟩

/-- Two requests of one conversation. -/
def chatCalls : List StoreCall := [chatCall [lit "a"] (lit "x"), chatCall [lit "a", lit "b"] (lit "y")]

/-- The conversation. -/
def chatConversation : Conversation := ⟨lit "c", lit "t", lit "anthropic", none, none⟩

/-- The messages the calls can store. -/
def chatMessages : List Message :=
  (chatCall [lit "a"] (lit "x")).records chatJson .anthropic (lit "c") 0 ++
    (chatCall [lit "a", lit "b"] (lit "y")).records chatJson .anthropic (lit "c") 0 ++
    (chatCall [lit "a", lit "b"] (lit "y")).records chatJson .anthropic (lit "c") 1

/-- A parser that knows them. -/
def chatStoreJson : StoreJson := .ofRecords (chatMessages.map .message)

/-- The store with the conversation, and the calls before their first steps. -/
def chatStart : Machine.Pool LogStore (StoreCall × StoreState) :=
  ⟨LogStore.new.insertConversation monday chatConversation,
    chatCalls.map fun call => (call, .start)⟩

/-- The two requests in turn. -/
theorem history_stored_in_turn : ∃ p,
    Machine.run (Machine.Pool.step (StoreCall.act chatJson chatStoreJson .keys .anthropic (lit "c")))
      [(0, ()), (0, ()), (1, ()), (1, ())] chatStart = some p ∧
      ∃ stored, p.shared.getMessages chatStoreJson .keys (lit "c") = (some stored, p.shared) ∧
        requestHistory stored = ofHistory [⟨lit "user", lit "a"⟩, ⟨lit "user", lit "b"⟩] := by
  refine ⟨_, rfl, ?_⟩
  have hparse : ∀ call ∈ chatCalls, ∀ parsed,
      parseRequest chatJson .anthropic call.originalBody = some parsed →
        parsed.messages <+: [⟨lit "user", lit "a"⟩, ⟨lit "user", lit "b"⟩] := by
    intro call hcall parsed hq
    have ha : parseRequest chatJson .anthropic (chatOf [lit "a"]).compact =
        some ⟨lit "m", [⟨lit "user", lit "a"⟩]⟩ := by decide
    have hb : parseRequest chatJson .anthropic (chatOf [lit "a", lit "b"]).compact =
        some ⟨lit "m", [⟨lit "user", lit "a"⟩, ⟨lit "user", lit "b"⟩]⟩ := by decide
    rcases List.mem_pair.mp hcall with rfl | rfl
    · rw [chatCall, ha, Option.some.injEq] at hq
      rw [← hq]
      exact List.prefix_append [_] [_]
    · rw [chatCall, hb, Option.some.injEq] at hq
      rw [← hq]
  have hreads : ∀ call ∈ chatCalls, ∀ offset,
      ∀ m ∈ call.records chatJson .anthropic (lit "c") offset,
        (Record.message m).Reads chatStoreJson := by
    have hall := reads_ofRecords (chatMessages.map .message) (by decide) (by decide)
    have ha : (messagesOf chatJson .anthropic (chatCall [lit "a"] (lit "x"))).length ≤ 1 := by
      decide
    have hb : (messagesOf chatJson .anthropic (chatCall [lit "a", lit "b"] (lit "y"))).length ≤ 2 := by
      decide
    intro call hcall offset m hm
    refine hall _ (List.mem_map_of_mem ?_)
    rw [chatMessages, List.mem_append, List.mem_append]
    -- neither call has a third message
    rcases List.mem_pair.mp hcall with rfl | rfl
    · rcases offset with _ | offset
      · exact Or.inl (Or.inl hm)
      · rw [records_eq_nil _ _ _ _ _ (Nat.le_trans ha (Nat.le_add_left 1 offset))] at hm
        exact absurd hm List.not_mem_nil
    · rcases offset with _ | _ | offset
      · exact Or.inl (Or.inr hm)
      · exact Or.inr hm
      · rw [records_eq_nil _ _ _ _ _ (Nat.le_trans hb (Nat.le_add_left 2 offset))] at hm
        exact absurd hm List.not_mem_nil
  rcases history_stored chatJson chatStoreJson .keys .anthropic (lit "c")
    [⟨lit "user", lit "a"⟩, ⟨lit "user", lit "b"⟩] chatCalls hparse hreads
    (LogStore.new.insertConversation monday chatConversation) []
    (holds_insertConversation chatStoreJson monday chatConversation .new)
    (fun r hr => absurd hr List.not_mem_nil) 0 (Nat.zero_le _) rfl
    [(0, ()), (0, ()), (1, ()), (1, ())] _ (by decide +kernel) rfl with ⟨stored, hget, hstored⟩
  exact ⟨stored, hget, hstored.trans (by decide)⟩

/-- Both requests count before either appends: the first message is there
    twice. -/
theorem history_stored_twice : ∃ p,
    Machine.run (Machine.Pool.step (StoreCall.act chatJson chatStoreJson .keys .anthropic (lit "c")))
      [(0, ()), (1, ()), (0, ()), (1, ())] chatStart = some p ∧
      p.threads.map Prod.snd = [.returned, .returned] ∧
      ((p.shared.getMessages chatStoreJson .keys (lit "c")).1.map requestHistory) =
        some (ofHistory [⟨lit "user", lit "a"⟩, ⟨lit "user", lit "a"⟩, ⟨lit "user", lit "b"⟩]) := by
  exact ⟨_, rfl, by decide +kernel, by decide +kernel⟩

end Storage

end PrivacyClaw
