import PrivacyClaw.Core.Calls
import PrivacyClaw.Theory.Records

/-!
# One Conversation for a Fingerprint

Calls of `create_or_find_conversation` for one provider and one first message
on one day, in any order of their steps.

A lookup that finds nothing is followed by an insertion, and between the two
another call may look. As long as no call looks up while one that found nothing
has still to insert (`NotRacing`), at most one conversation with the
fingerprint is ever in the store, and every call returns its id
(`one_conversation`). Whichever order the directory is listed in, one file can
be found in one way only.

Where two calls both look before either inserts, each inserts its own
(`two_conversations`).

## Main definitions

* `withFingerprint`: The conversations of a day with a fingerprint.
* `racing`, `NotRacing`: No lookup while another call has still to insert.
* `Settled`: What holds between the steps.

## Theorems

* `findConversation_eq`: The lookup and the conversations that are there.
* `withFingerprint_insert`: An insertion where there is none.
* `Settled.step`: A step keeps it.
* `one_conversation`: Every call returns the one conversation.
* `one_conversation_in_turn`: Two calls in turn.
* `two_conversations`: Two calls that both find nothing.
-/

namespace PrivacyClaw

namespace Storage

section Fingerprints

variable (h : Hashes) (K : SerdeJson) (J : StoreJson) (D : ReadDir) (provider : Provider)
  (day fingerprint : Str)

/-- The file name is one of the day's. -/
def ofDay (name : Str) : Bool := day.isPrefixOf name && (lit ".ndjson").isSuffixOf name

/-- The header of a file, if it has the provider and the fingerprint. -/
def fingerprinted (st : LogStore) (name : Str) : Option Conversation :=
  (st.header J name).filter fun conv =>
    conv.provider == provider.asStr && conv.clientHint == some fingerprint

/-- The conversations of a day with a fingerprint. -/
def withFingerprint (st : LogStore) : List Conversation :=
  (st.files.keys.filter (ofDay day)).filterMap (fingerprinted J provider fingerprint st)

/-- The lookup finds the first of them in the order of the listing. -/
theorem findConversation_perm (now : Now) (hday : now.date = day) (st : LogStore) :
    ∃ convs : List Conversation, convs.Perm (withFingerprint J provider day fingerprint st) ∧
      st.findConversationByFingerprint J D now provider.asStr fingerprint =
        convs.head?.map Conversation.id := by
  refine ⟨((D.entries st.files).filter (ofDay day)).filterMap
    (fingerprinted J provider fingerprint st), ((D.perm st.files).filter _).filterMap _, ?_⟩
  rw [List.head?_filterMap, List.map_findSome?, ← hday]
  rfl

/-- Where there is at most one, the listing does not matter. -/
theorem findConversation_eq (now : Now) (hday : now.date = day) (st : LogStore)
    (hone : (withFingerprint J provider day fingerprint st).length ≤ 1) :
    st.findConversationByFingerprint J D now provider.asStr fingerprint =
      (withFingerprint J provider day fingerprint st).head?.map Conversation.id := by
  rcases findConversation_perm J D provider day fingerprint now hday st with ⟨convs, hperm, he⟩
  rw [he]
  have hsame : convs = withFingerprint J provider day fingerprint st := by
    cases hw : withFingerprint J provider day fingerprint st with
    | nil =>
        rw [hw] at hperm
        exact hperm.eq_nil
    | cons c cs =>
        rw [hw] at hperm hone
        cases cs with
        | nil => exact List.perm_singleton.mp hperm
        | cons c' cs => exact absurd hone (by simp only [List.length_cons]; omega)
  rw [hsame]

/-- An insertion where there is none with the fingerprint makes one. -/
theorem withFingerprint_insert (now : Now) (hday : now.date = day) (conv : Conversation)
    (hprovider : conv.provider = provider.asStr) (hhint : conv.clientHint = some fingerprint)
    (hreads : J.fromStr conv.line = some conv.toValue) (st : LogStore)
    (hnone : withFingerprint J provider day fingerprint st = []) :
    withFingerprint J provider day fingerprint (st.insertConversation now conv) = [conv] := by
  -- the new file
  have hofDay : ofDay day (newConvFilePath now conv.id) = true := by
    rw [ofDay, Bool.and_eq_true, List.isPrefixOf_iff_prefix, List.isSuffixOf_iff_suffix, ← hday,
      newConvFilePath]
    refine ⟨?_, List.suffix_append _ _⟩
    simp only [List.append_assoc]
    exact List.prefix_append _ _
  have hnew : fingerprinted J provider fingerprint (st.insertConversation now conv)
      (newConvFilePath now conv.id) = some conv := by
    have hheader : readConvHeader J (conv.line ++ lit "\n") = some conv := by
      rw [← logText_singleton]
      exact readConvHeader_text J conv [] hreads
    rw [fingerprinted, LogStore.header, LogStore.insertConversation, AList.lookup_insert,
      Option.bind_some, hheader, Option.filter_some, hprovider, hhint, beq_self_eq_true,
      beq_self_eq_true]
    rfl
  -- every other file is as it was
  have hkeys : ∃ rest, (st.insertConversation now conv).files.keys =
      newConvFilePath now conv.id :: rest ∧
        ∀ name ∈ rest, name ≠ newConvFilePath now conv.id ∧ name ∈ st.files.keys := by
    have hnodup := (st.insertConversation now conv).files.nodupKeys
    refine ⟨_, AList.keys_insert _, fun name hname => ⟨?_, ?_⟩⟩
    swap
    · exact @List.mem_of_mem_erase _ instBEqOfDecidableEq _ _ _ hname
    rintro rfl
    have hkeys : (st.insertConversation now conv).files.keys.Nodup := hnodup
    rw [LogStore.insertConversation, AList.keys_insert, List.nodup_cons] at hkeys
    exact hkeys.1 hname
  rcases hkeys with ⟨rest, hkeys, hrest⟩
  have hnothing : (rest.filter (ofDay day)).filterMap
      (fingerprinted J provider fingerprint (st.insertConversation now conv)) = [] := by
    rw [List.filterMap_eq_nil_iff]
    intro name hname
    rcases List.mem_filter.mp hname with ⟨hmem, hname⟩
    rcases hrest name hmem with ⟨hne, hmem⟩
    have hsame : fingerprinted J provider fingerprint (st.insertConversation now conv) name =
        fingerprinted J provider fingerprint st name := by
      rw [fingerprinted, fingerprinted, LogStore.header, LogStore.header,
        LogStore.insertConversation, AList.lookup_insert_ne hne]
    rw [hsame]
    exact List.filterMap_eq_nil_iff.mp hnone name (List.mem_filter.mpr ⟨hmem, hname⟩)
  rw [withFingerprint, hkeys, List.filter_cons_of_pos hofDay, List.filterMap_cons_some hnew,
    hnothing]

/-- The fingerprint is that of the first message. -/
theorem conversationFingerprint_first (messages : List PrivacyClaw.Message) :
    conversationFingerprint h messages = conversationFingerprint h messages.head?.toList := by
  cases messages <;> rfl

variable {h K J D provider} in
/-- What a step of a call does. -/
theorem FindCall.act_cases {i : Nat} {st st' : LogStore} {call call' : FindCall}
    {s s' : FindState} (hact : FindCall.act h K J D provider i () st (call, s) =
      some (st', (call', s'))) :
    call' = call ∧
      ((s = .start ∧ st' = st ∧ s' = .returned none) ∨
        (∃ parsed id, s = .start ∧ st' = st ∧ parseRequest K provider call.body = some parsed ∧
          st.findConversationByFingerprint J D call.lookedUp provider.asStr
            (conversationFingerprint h parsed.messages) = some id ∧ s' = .returned (some id)) ∨
        (∃ parsed, s = .start ∧ st' = st ∧ parseRequest K provider call.body = some parsed ∧
          st.findConversationByFingerprint J D call.lookedUp provider.asStr
            (conversationFingerprint h parsed.messages) = none ∧ s' = .missed parsed) ∨
        (∃ parsed, s = .missed parsed ∧ s' = .returned (some call.newId) ∧
          st' = st.insertConversation call.inserted (call.conversation h provider parsed))) := by
  cases s with
  | start =>
      rw [act] at hact
      cases hparse : parseRequest K provider call.body with
      | none =>
          simp only [hparse, Option.some.injEq, Prod.mk.injEq] at hact
          rcases hact with ⟨rfl, rfl, rfl⟩
          exact ⟨rfl, Or.inl ⟨rfl, rfl, rfl⟩⟩
      | some parsed =>
          simp only [hparse] at hact
          cases hfind : st.findConversationByFingerprint J D call.lookedUp provider.asStr
              (conversationFingerprint h parsed.messages) with
          | none =>
              simp only [hfind, Option.some.injEq, Prod.mk.injEq] at hact
              rcases hact with ⟨rfl, rfl, rfl⟩
              exact ⟨rfl, Or.inr (Or.inr (Or.inl ⟨parsed, rfl, rfl, rfl, hfind, rfl⟩))⟩
          | some id =>
              simp only [hfind, Option.some.injEq, Prod.mk.injEq] at hact
              rcases hact with ⟨rfl, rfl, rfl⟩
              exact ⟨rfl, Or.inr (Or.inl ⟨parsed, id, rfl, rfl, rfl, hfind, rfl⟩)⟩
  | missed parsed =>
      simp only [act, Option.some.injEq, Prod.mk.injEq] at hact
      rcases hact with ⟨rfl, rfl, rfl⟩
      exact ⟨rfl, Or.inr (Or.inr (Or.inr ⟨parsed, rfl, rfl, rfl⟩))⟩
  | returned id => exact absurd hact (by simp only [act, reduceCtorEq, not_false_eq_true])

/-- The call found nothing and has not inserted yet. -/
def FindState.isMissed : FindState → Bool
  | .missed _ => true
  | _ => false

/-- A call is about to look while another one has still to insert. -/
def racing (p : Machine.Pool LogStore (FindCall × FindState)) (e : Nat × Unit) : Bool :=
  match p.threads[e.1]? with
  | some (call, .start) =>
    (parseRequest K provider call.body).isSome && p.threads.any fun t => t.2.isMissed
  | _ => false

/-- No call looks while another one has still to insert. -/
def NotRacing (p : Machine.Pool LogStore (FindCall × FindState)) (e : Nat × Unit) : Prop :=
  racing K provider p e = false

instance (p : Machine.Pool LogStore (FindCall × FindState)) (e : Nat × Unit) :
    Decidable (NotRacing K provider p e) := inferInstanceAs (Decidable (_ = _))

variable {K provider} in
theorem NotRacing.alone {p : Machine.Pool LogStore (FindCall × FindState)} {i : Nat}
    (hnot : NotRacing K provider p (i, ())) {call : FindCall} {parsed : ParsedRequest}
    (ht : p.threads[i]? = some (call, .start))
    (hparse : parseRequest K provider call.body = some parsed) :
    ∀ t ∈ p.threads, t.2.isMissed = false := by
  rw [NotRacing, racing, ht] at hnot
  dsimp only at hnot
  rw [hparse, Option.isSome_some, Bool.true_and, List.any_eq_false] at hnot
  exact fun t ht => Bool.not_eq_true _ ▸ hnot t ht

/-- Between the steps there is at most one conversation with the fingerprint; if
    a call has still to insert there is none, and it is the only such call; a
    call that is back has the id of the one. -/
structure Settled (calls : List FindCall) (p : Machine.Pool LogStore (FindCall × FindState)) :
    Prop where
  one : (withFingerprint J provider day fingerprint p.shared).length ≤ 1
  calls : ∀ (i : Nat) (t : FindCall × FindState), p.threads[i]? = some t → t.1 ∈ calls
  missed : ∀ (i : Nat) (call : FindCall) (parsed : ParsedRequest),
    p.threads[i]? = some (call, .missed parsed) →
      parseRequest K provider call.body = some parsed ∧
        withFingerprint J provider day fingerprint p.shared = [] ∧
        ∀ (j : Nat) (t : FindCall × FindState), p.threads[j]? = some t → t.2.isMissed = true → j = i
  returned : ∀ (i : Nat) (call : FindCall) (id : Str),
    p.threads[i]? = some (call, .returned (some id)) →
      (withFingerprint J provider day fingerprint p.shared).map Conversation.id = [id]

variable {h K J D provider day fingerprint} {calls : List FindCall}
  {p : Machine.Pool LogStore (FindCall × FindState)}

/-- A call that has nothing to insert moved on, with the store as it is. -/
theorem Settled.stays (hp : Settled K J provider day fingerprint calls p) {i : Nat}
    {call : FindCall} {s : FindState} (hcall : call ∈ calls) (hs : s.isMissed = false)
    (hret : ∀ id, s = .returned (some id) →
      (withFingerprint J provider day fingerprint p.shared).map Conversation.id = [id]) :
    Settled K J provider day fingerprint calls ⟨p.shared, p.threads.set i (call, s)⟩ := by
  refine ⟨hp.one, Machine.forall_set hcall fun j t _ => hp.calls j t, fun j c parsed ht => ?_,
    fun j c id ht => ?_⟩
  · rcases Machine.getElem?_set_cases _ _ _ _ _ ht with ⟨_, he⟩ | ⟨_, ht⟩
    · rw [← (Prod.mk.inj he).2] at hs
      exact absurd hs (by simp only [FindState.isMissed, Bool.true_eq_false, not_false_eq_true])
    · rcases hp.missed j c parsed ht with ⟨hparse, hnone, halone⟩
      refine ⟨hparse, hnone, fun k t ht hmissed => ?_⟩
      rcases Machine.getElem?_set_cases _ _ _ _ _ ht with ⟨_, rfl⟩ | ⟨_, ht⟩
      · rw [hs] at hmissed
        exact absurd hmissed Bool.false_ne_true
      · exact halone k t ht hmissed
  · rcases Machine.getElem?_set_cases _ _ _ _ _ ht with ⟨_, he⟩ | ⟨_, ht⟩
    · exact hret id (Prod.mk.inj he).2.symm
    · exact hp.returned j c id ht

/-- The only entry of a list, by the first one. -/
theorem map_eq_of_head? {α β : Type} {f : α → β} {l : List α} {x : β} (hl : l.length ≤ 1)
    (h : l.head?.map f = some x) : l.map f = [x] := by
  rcases l with _ | ⟨a, _ | ⟨b, l⟩⟩
  · exact absurd h (by simp only [List.head?_nil, Option.map_none, reduceCtorEq,
      not_false_eq_true])
  · rw [List.head?_cons, Option.map_some, Option.some.injEq] at h
    rw [List.map_singleton, h]
  · exact absurd hl (by simp only [List.length_cons]; omega)

/-- A step that meets the condition keeps it. -/
theorem Settled.step (hp : Settled K J provider day fingerprint calls p)
    (hfingerprint : ∀ call ∈ calls, ∀ parsed, parseRequest K provider call.body = some parsed →
      conversationFingerprint h parsed.messages = fingerprint)
    (hday : ∀ call ∈ calls, call.lookedUp.date = day ∧ call.inserted.date = day)
    (hreads : ∀ call ∈ calls, ∀ parsed, parseRequest K provider call.body = some parsed →
      J.fromStr (call.conversation h provider parsed).line =
        some (call.conversation h provider parsed).toValue)
    {e : Nat × Unit} (hnot : NotRacing K provider p e)
    {p' : Machine.Pool LogStore (FindCall × FindState)}
    (hstep : Machine.Pool.step (FindCall.act h K J D provider) e p = some p') :
    Settled K J provider day fingerprint calls p' := by
  rcases e with ⟨i, ⟨⟩⟩
  rcases (Machine.Pool.step_eq_some_iff _ _ _).mp hstep with
    ⟨⟨call, s⟩, st', ⟨call', s'⟩, ht, hact, rfl⟩
  have hcall : call ∈ calls := hp.calls i _ ht
  have hlook := findConversation_eq J D provider day fingerprint call.lookedUp
    (hday call hcall).1 p.shared hp.one
  rcases FindCall.act_cases hact with ⟨rfl, ⟨_, rfl, rfl⟩ |
    ⟨parsed, id, _, rfl, hparse, hfind, rfl⟩ | ⟨parsed, rfl, rfl, hparse, hfind, rfl⟩ |
    ⟨parsed, rfl, rfl, rfl⟩⟩
  · exact hp.stays hcall rfl fun id he =>
      absurd he (by simp only [FindState.returned.injEq, reduceCtorEq, not_false_eq_true])
  · -- the one that was found is the only one
    refine hp.stays hcall rfl fun id' he => ?_
    rw [FindState.returned.injEq, Option.some.injEq] at he
    rw [hfingerprint _ hcall parsed hparse, hlook, he] at hfind
    exact map_eq_of_head? hp.one hfind
  · -- nothing was found, and nobody else is about to insert
    rw [hfingerprint _ hcall parsed hparse, hlook, Option.map_eq_none_iff,
      List.head?_eq_none_iff] at hfind
    have halone := hnot.alone ht hparse
    refine ⟨hp.one, Machine.forall_set hcall fun j t _ => hp.calls j t, fun j c q ht => ?_,
      fun j c id ht => ?_⟩
    · rcases Machine.getElem?_set_cases _ _ _ _ _ ht with ⟨rfl, he⟩ | ⟨_, ht⟩
      · simp only [Prod.mk.injEq, FindState.missed.injEq] at he
        rcases he with ⟨rfl, rfl⟩
        refine ⟨hparse, hfind, fun k t ht hmissed => ?_⟩
        rcases Machine.getElem?_set_cases _ _ _ _ _ ht with ⟨hk, _⟩ | ⟨_, ht⟩
        · exact hk
        · rw [halone t (List.mem_of_getElem? ht)] at hmissed
          exact absurd hmissed Bool.false_ne_true
      · exact absurd (halone _ (List.mem_of_getElem? ht)) (by simp only [FindState.isMissed,
          Bool.true_eq_false, not_false_eq_true])
    · rcases Machine.getElem?_set_cases _ _ _ _ _ ht with ⟨_, he⟩ | ⟨_, ht⟩
      · exact absurd (Prod.mk.inj he).2 (by simp only [reduceCtorEq, not_false_eq_true])
      · exact hp.returned j c id ht
  · -- the only call that has to insert does so
    rcases hp.missed i _ parsed ht with ⟨hparse, hnone, halone⟩
    have hnew := withFingerprint_insert J provider day fingerprint _ (hday _ hcall).2 _ rfl
      (congrArg some (hfingerprint _ hcall parsed hparse)) (hreads _ hcall parsed hparse) p.shared
      hnone
    refine ⟨by dsimp only; rw [hnew]; exact Nat.le_refl _,
      Machine.forall_set hcall fun j t _ => hp.calls j t, fun j c q ht => ?_, fun j c id ht => ?_⟩
    · rcases Machine.getElem?_set_cases _ _ _ _ _ ht with ⟨_, he⟩ | ⟨hne, ht⟩
      · exact absurd (Prod.mk.inj he).2 (by simp only [reduceCtorEq, not_false_eq_true])
      · exact absurd (halone j _ ht rfl) hne
    · rcases Machine.getElem?_set_cases _ _ _ _ _ ht with ⟨_, he⟩ | ⟨_, ht⟩
      · simp only [Prod.mk.injEq, FindState.returned.injEq, Option.some.injEq] at he
        dsimp only
        rw [hnew, he.2]
        rfl
      · have hreturned := hp.returned j c id ht
        rw [hnone] at hreturned
        exact absurd hreturned (by simp only [List.map_nil, List.nil_eq, reduceCtorEq,
          not_false_eq_true])

/-- One conversation for a provider, a first message and a day. If no call looks
    while one that found nothing has still to insert, then every call that has
    returned an id has returned that of the one conversation in the store. -/
theorem one_conversation (h : Hashes) (K : SerdeJson) (J : StoreJson) (D : ReadDir)
    (provider : Provider) (day : Str) (first : Option PrivacyClaw.Message) (calls : List FindCall)
    (hfirst : ∀ call ∈ calls, ∀ parsed, parseRequest K provider call.body = some parsed →
      parsed.messages.head? = first)
    (hday : ∀ call ∈ calls, call.lookedUp.date = day ∧ call.inserted.date = day)
    (hreads : ∀ call ∈ calls, ∀ parsed, parseRequest K provider call.body = some parsed →
      J.fromStr (call.conversation h provider parsed).line =
        some (call.conversation h provider parsed).toValue)
    (st : LogStore)
    (hone : (withFingerprint J provider day (conversationFingerprint h first.toList)
      st).length ≤ 1)
    (es : List (Nat × Unit)) (p : Machine.Pool LogStore (FindCall × FindState))
    (hok : Machine.Along (Machine.Pool.step (FindCall.act h K J D provider))
      (NotRacing K provider) es ⟨st, calls.map fun call => (call, .start)⟩)
    (hrun : Machine.run (Machine.Pool.step (FindCall.act h K J D provider)) es
      ⟨st, calls.map fun call => (call, .start)⟩ = some p) :
    (withFingerprint J provider day (conversationFingerprint h first.toList)
        p.shared).length ≤ 1 ∧
      ∀ t ∈ p.threads, ∀ id, t.2 = .returned (some id) →
        (withFingerprint J provider day (conversationFingerprint h first.toList)
          p.shared).map Conversation.id = [id] := by
  have hfingerprint : ∀ call ∈ calls, ∀ parsed, parseRequest K provider call.body = some parsed →
      conversationFingerprint h parsed.messages = conversationFingerprint h first.toList := by
    intro call hcall parsed hparse
    rw [conversationFingerprint_first, hfirst call hcall parsed hparse]
  have hp := Machine.run_invariant
    (Settled K J provider day (conversationFingerprint h first.toList) calls)
    (fun p e p' hp hnot hstep => hp.step hfingerprint hday hreads hnot hstep) es _ p
    ⟨hone, ?_, ?_, ?_⟩ hok hrun
  · refine ⟨hp.one, fun t ht id hid => ?_⟩
    rcases List.mem_iff_getElem?.mp ht with ⟨i, hi⟩
    exact hp.returned i t.1 id (by rw [hi, ← hid])
  · intro i t ht
    exact List.mem_of_getElem? (Machine.getElem?_start ht).1
  · intro i call parsed ht
    exact absurd (Machine.getElem?_start ht).2 (by simp only [reduceCtorEq, not_false_eq_true])
  · intro i call id ht
    exact absurd (Machine.getElem?_start ht).2 (by simp only [reduceCtorEq, not_false_eq_true])

end Fingerprints

/-- The body two sessions send, with one message. -/
def greetingBody : Value :=
  .object [(lit "messages", .array [.object [(lit "content", .string (lit "hi")),
    (lit "role", .string (lit "user"))]]), (lit "model", .string (lit "m"))]

/-- A parser that knows it. -/
def greetingJson : SerdeJson := .ofValues [greetingBody]

/-- A session's call with it. -/
def greetingCall (newId : Str) : FindCall :=
  ⟨greetingBody.compact, ⟨lit "2026-03-09", lit "1", rfl⟩, ⟨lit "2026-03-09", lit "2", rfl⟩, newId,
    lit "t"⟩

/-- The conversation the call would insert. -/
def greetingConversation (newId : Str) : Conversation :=
  newConversation newId (lit "t") (lit "anthropic") (lit "m")
    (conversationFingerprint sampleHashes [⟨lit "user", lit "hi"⟩])

/-- A parser that knows the conversations of two such calls. -/
def greetingStoreJson : StoreJson :=
  .ofValues [(greetingConversation (lit "a")).toValue, (greetingConversation (lit "b")).toValue]

/-- The calls of two sessions, before their first steps. -/
def greetingStart : Machine.Pool LogStore (FindCall × FindState) :=
  ⟨.new, [greetingCall (lit "a"), greetingCall (lit "b")].map fun call => (call, .start)⟩

set_option maxRecDepth 8000 in
/-- Two calls in turn return the conversation of the first. -/
theorem one_conversation_in_turn : ∃ p,
    Machine.run (Machine.Pool.step (FindCall.act sampleHashes greetingJson greetingStoreJson .keys
      .anthropic)) [(0, ()), (0, ()), (1, ())] greetingStart = some p ∧
      p.threads.map Prod.snd = [.returned (some (lit "a")), .returned (some (lit "a"))] ∧
      (withFingerprint greetingStoreJson .anthropic (lit "2026-03-09")
        (conversationFingerprint sampleHashes [⟨lit "user", lit "hi"⟩])
        p.shared).map Conversation.id = [lit "a"] := by
  have hparse : parseRequest greetingJson .anthropic greetingBody.compact =
      some ⟨lit "m", [⟨lit "user", lit "hi"⟩]⟩ := by decide
  refine ⟨_, rfl, by decide, ?_⟩
  refine (one_conversation sampleHashes greetingJson greetingStoreJson .keys .anthropic
    (lit "2026-03-09") (some ⟨lit "user", lit "hi"⟩) [greetingCall (lit "a"), greetingCall (lit "b")]
    ?_ ?_ ?_ .new (Nat.zero_le _) [(0, ()), (0, ()), (1, ())] _ (by decide) rfl).2 _
    List.mem_cons_self _ rfl
  · intro call hcall parsed hq
    rcases List.mem_pair.mp hcall with rfl | rfl
    · rw [greetingCall, hparse, Option.some.injEq] at hq
      rw [← hq]
      rfl
    · rw [greetingCall, hparse, Option.some.injEq] at hq
      rw [← hq]
      rfl
  · intro call hcall
    rcases List.mem_pair.mp hcall with rfl | rfl
    · exact ⟨rfl, rfl⟩
    · exact ⟨rfl, rfl⟩
  · intro call hcall parsed hq
    rcases List.mem_pair.mp hcall with rfl | rfl
    · rw [greetingCall, hparse, Option.some.injEq] at hq
      rw [← hq]
      rfl
    · rw [greetingCall, hparse, Option.some.injEq] at hq
      rw [← hq]
      rfl

/-- Both calls look before either inserts: each returns its own conversation, and
    the store has two. -/
theorem two_conversations : ∃ p,
    Machine.run (Machine.Pool.step (FindCall.act sampleHashes greetingJson greetingStoreJson .keys
      .anthropic)) [(0, ()), (1, ()), (0, ()), (1, ())] greetingStart = some p ∧
      p.threads.map Prod.snd = [.returned (some (lit "a")), .returned (some (lit "b"))] ∧
      (withFingerprint greetingStoreJson .anthropic (lit "2026-03-09")
        (conversationFingerprint sampleHashes [⟨lit "user", lit "hi"⟩])
        p.shared).map Conversation.id = [lit "b", lit "a"] := by
  exact ⟨_, rfl, by decide +kernel, by decide +kernel⟩

end Storage

end PrivacyClaw
