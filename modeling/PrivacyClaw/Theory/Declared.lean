import PrivacyClaw.Theory.Delivery
import PrivacyClaw.Theory.KeepAlive
import PrivacyClaw.Theory.Passthrough

/-!
# The Rewritten Body under its Headers

The headers of a response go to the client as they are, and then the events, each
as a chunk of its own, and the last chunk when the terminal event was among them.
The body the client gets is so always a chunked one, whatever the headers say,
and it has an end only if the event stream had one.

`CompleteBody` says what a body is under a declaration, independently of the
decoder in the proxy: chunks up to the last one and its trailers, a number of
bytes, or all bytes up to the end of the connection. `rewritten_complete_iff`
says for which responses the body is one and carries the restored events.

## Main definitions

* `lineSize`, `ChunkedBody`: A chunked body, by its grammar.
* `CompleteBody`: A complete body under a declaration.
* `Answer.restored`: The restored event stream.
* `clientBody`: What the client gets behind the headers.

## Theorems

* `lineSize_hexUpper`: The size line of a chunk that is written.
* `chunkedBody_written`: Written chunks at the front of a body.
* `handleU2c_blank`: When nothing is written behind a response.
* `rewritten_complete_iff`: When the client gets a complete body.
-/

namespace PrivacyClaw

open SseParser (scan)

section Chunks

/-- The number that hexadecimal digits spell, onto the value so far. -/
def hexNumber : Nat → Str → Option Nat
  | n, [] => some n
  | n, b :: s =>
    match digitValue b with
    | some d => if d < 16 then hexNumber (n * 16 + d) s else none
    | none => none

/-- The size in a size line, without the extension. -/
def lineSize (line : Str) : Option Nat :=
  if line.takeWhile (· ≠ 59) = [] then none else hexNumber 0 (line.takeWhile (· ≠ 59))

/-- A complete chunked body, and what it carries: chunks that are not empty, the
    last chunk, and trailer lines up to an empty one. -/
inductive ChunkedBody : Str → Str → Prop
  | last (line : Str) (trailers : List Str) (hline : ¬ crlf <:+: line)
      (hsize : lineSize line = some 0) (htrailers : ∀ t ∈ trailers, t ≠ [] ∧ ¬ crlf <:+: t) :
      ChunkedBody (line ++ (crlf ++ (ClientBody.trailerBytes trailers ++ crlf))) []
  | chunk (line data rest content : Str) (hline : ¬ crlf <:+: line)
      (hsize : lineSize line = some data.length) (hdata : data ≠ [])
      (h : ChunkedBody rest content) :
      ChunkedBody (line ++ (crlf ++ (data ++ (crlf ++ rest)))) (data ++ content)

theorem hexNumber_append (s t : Str) : ∀ n,
    hexNumber n (s ++ t) = (hexNumber n s).bind fun m => hexNumber m t := by
  induction s with
  | nil => exact fun _ => rfl
  | cons b s ih =>
    intro n
    rw [List.cons_append, hexNumber, hexNumber]
    cases digitValue b with
    | none => rfl
    | some d =>
      by_cases hd : d < 16
      · simp only [hd, if_true, ih]
      · simp only [hd, if_false, Option.bind_none]

/-- A digit of the `{:X}` form. -/
def hexDigit (k : Nat) : UInt8 := UInt8.ofNat (Nat.digitChar k).toUpper.toNat

theorem hexDigit_spec (k : Nat) (hk : k < 16) :
    digitValue (hexDigit k) = some k ∧ hexDigit k ≠ 59 ∧ hexDigit k ≠ 13 := by
  have hall : ∀ k : Fin 16, digitValue (hexDigit k) = some k.val ∧ hexDigit k ≠ 59 ∧
      hexDigit k ≠ 13 := by decide
  exact hall ⟨k, hk⟩

theorem hexUpper_eq (n : Nat) :
    hexUpper n = if n < 16 then [hexDigit n] else hexUpper (n / 16) ++ [hexDigit (n % 16)] := by
  unfold hexUpper
  rw [Nat.toDigits_eq_if (by decide)]
  by_cases hn : n < 16
  · rw [if_pos hn, if_pos hn]
    rfl
  · rw [if_neg hn, if_neg hn, List.map_append]
    rfl

/-- The digits spell the number, and are neither a semicolon nor a line end. -/
theorem hexUpper_spec (n : Nat) : hexNumber 0 (hexUpper n) = some n ∧ hexUpper n ≠ [] ∧
    ∀ b ∈ hexUpper n, b ≠ 59 ∧ b ≠ 13 := by
  induction n using Nat.strongRecOn with
  | ind n ih =>
    rw [hexUpper_eq]
    -- One digit, or the digits of `n / 16` and one more.
    by_cases hn : n < 16
    · rcases hexDigit_spec n hn with ⟨hval, hsep⟩
      rw [if_pos hn]
      refine ⟨?_, List.cons_ne_nil _ _, ?_⟩
      · simp only [hexNumber, hval, hn, if_true, Nat.zero_mul, Nat.zero_add]
      · intro b hb
        rw [List.mem_singleton.mp hb]
        exact hsep
    · have hmod : n % 16 < 16 := Nat.mod_lt _ (by decide)
      rcases hexDigit_spec (n % 16) hmod with ⟨hval, hsep⟩
      rcases ih (n / 16) (by omega) with ⟨hnum, _, hbytes⟩
      rw [if_neg hn]
      refine ⟨?_, List.append_ne_nil_of_right_ne_nil _ (List.cons_ne_nil _ _), ?_⟩
      · rw [hexNumber_append, hnum, Option.bind_some]
        simp only [hexNumber, hval, hmod, if_true, Option.some.injEq]
        omega
      · intro b hb
        rcases List.mem_append.mp hb with hb | hb
        · exact hbytes b hb
        · rw [List.mem_singleton.mp hb]
          exact hsep

theorem lineSize_hexUpper (n : Nat) : lineSize (hexUpper n) = some n := by
  rcases hexUpper_spec n with ⟨hnum, hne, hbytes⟩
  have hall : (hexUpper n).takeWhile (· ≠ 59) = hexUpper n := by
    refine List.takeWhile_eq_self_iff.mpr fun b hb => ?_
    exact decide_eq_true (hbytes b hb).1
  rw [lineSize, hall, if_neg hne, hnum]

theorem crlf_not_hexUpper (n : Nat) : ¬ crlf <:+: hexUpper n := by
  intro h
  exact ((hexUpper_spec n).2.2 13 (h.subset (by decide))).2 rfl

/-- A line ends at its first line end. -/
theorem line_cancel {line line' x y : Str} (hline : ¬ crlf <:+: line) (hline' : ¬ crlf <:+: line')
    (heq : line ++ (crlf ++ x) = line' ++ (crlf ++ y)) : line = line' ∧ x = y := by
  have hfind := find_crlf_line line x hline
  rw [heq, find_crlf_line line' y hline', Option.some.injEq] at hfind
  rcases List.append_inj heq hfind.symm with ⟨rfl, hrest⟩
  exact ⟨rfl, List.append_cancel_left hrest⟩

/-- Chunks that were written stand at the front of any chunked body that begins
    with them. -/
theorem chunkedBody_written : ∀ (datas : List Str), (∀ d ∈ datas, d ≠ []) → ∀ (y content : Str),
    ChunkedBody ((datas.map writeHttpChunk).flatten ++ y) content ↔
      ∃ more, ChunkedBody y more ∧ content = datas.flatten ++ more := by
  intro datas
  induction datas with
  | nil =>
    intro _ y content
    simp only [List.map_nil, List.flatten_nil, List.nil_append]
    exact ⟨fun h => ⟨content, h, rfl⟩, fun ⟨_, h, heq⟩ => heq ▸ h⟩
  | cons d datas ih =>
    intro hne y content
    have hd : d ≠ [] := hne d List.mem_cons_self
    have hrec := ih (fun x hx => hne x (List.mem_cons_of_mem _ hx)) y
    have hsplit : ((d :: datas).map writeHttpChunk).flatten ++ y = hexUpper d.length ++
        (crlf ++ (d ++ (crlf ++ ((datas.map writeHttpChunk).flatten ++ y)))) := by
      simp only [List.map_cons, List.flatten_cons, writeHttpChunk, List.append_assoc]
    rw [hsplit]
    constructor
    · intro h
      generalize hb : hexUpper d.length ++
        (crlf ++ (d ++ (crlf ++ ((datas.map writeHttpChunk).flatten ++ y)))) = b at h
      cases h with
      | last line trailers hline hsize htrailers =>
        -- The size of the chunk is not zero.
        rcases line_cancel (crlf_not_hexUpper _) hline hb with ⟨rfl, _⟩
        rw [lineSize_hexUpper, Option.some.injEq] at hsize
        exact absurd (List.length_eq_zero_iff.mp hsize) hd
      | chunk line data rest content hline hsize hdata h =>
        rcases line_cancel (crlf_not_hexUpper _) hline hb with ⟨rfl, hrest⟩
        rw [lineSize_hexUpper, Option.some.injEq] at hsize
        rcases List.append_inj hrest hsize with ⟨rfl, htail⟩
        rw [← List.append_cancel_left htail] at h
        rcases (hrec content).mp h with ⟨more, hmore, rfl⟩
        exact ⟨more, hmore, by rw [List.flatten_cons, List.append_assoc]⟩
    · rintro ⟨more, hmore, rfl⟩
      rw [List.flatten_cons, List.append_assoc]
      exact .chunk _ d _ _ (crlf_not_hexUpper _) (lineSize_hexUpper _) hd
        ((hrec _).mpr ⟨more, hmore, rfl⟩)

theorem not_chunkedBody_nil (content : Str) : ¬ ChunkedBody [] content := by
  intro h
  generalize hb : ([] : Str) = b at h
  have hcrlf : ∀ line x : Str, [] ≠ line ++ (crlf ++ x) := by
    intro line x heq
    have h := congrArg List.length heq
    rw [List.length_append, List.length_append, length_crlf, List.length_nil] at h
    omega
  cases h with
  | last => exact hcrlf _ _ hb
  | chunk => exact hcrlf _ _ hb

/-- The last chunk is a body exactly if nothing follows it. -/
theorem chunkedBody_lastChunk (y content : Str) :
    ChunkedBody (lastChunk ++ y) content ↔ y = [] ∧ content = [] := by
  have hlast : ∀ y, lastChunk ++ y = lit "0" ++ (crlf ++ (crlf ++ y)) := fun _ => rfl
  have hzero : ¬ crlf <:+: lit "0" := by decide
  constructor
  · intro h
    generalize hb : lastChunk ++ y = b at h
    rw [hlast] at hb
    cases h with
    | last line trailers hline hsize htrailers =>
      rcases line_cancel hzero hline hb with ⟨_, hrest⟩
      cases trailers with
      | nil =>
        refine ⟨?_, rfl⟩
        exact List.append_cancel_left (hrest.trans (List.append_nil _).symm)
      | cons t trailers =>
        -- A trailer is a line, and here is an empty one.
        have hempty : ([] : Str) ++ (crlf ++ y) = t ++ (crlf ++
            (ClientBody.trailerBytes trailers ++ crlf)) := by
          rw [List.nil_append, hrest, ClientBody.trailerBytes, List.map_cons, List.flatten_cons]
          simp only [List.append_assoc]
          rfl
        have htrailer := htrailers t List.mem_cons_self
        exact absurd (line_cancel (by decide) htrailer.2 hempty).1.symm htrailer.1
    | chunk line data rest content hline hsize hdata h =>
      rcases line_cancel hzero hline hb with ⟨rfl, _⟩
      have hsize0 : lineSize (lit "0") = some 0 := by decide
      rw [hsize0, Option.some.injEq] at hsize
      exact absurd (List.length_eq_zero_iff.mp hsize.symm) hdata
  · rintro ⟨rfl, rfl⟩
    exact .last (lit "0") [] hzero (by decide) fun t ht => absurd ht List.not_mem_nil

end Chunks

section Events

/-- The event of a write. -/
def ClientWrite.sent : ClientWrite → Option SseEvent
  | .event e => some e
  | .raw _ | .last => none

/-- Only events are written. -/
def OnlyEvents (writes : List ClientWrite) : Prop := ∀ w ∈ writes, ∃ e, w = .event e

theorem OnlyEvents.append {xs ys : List ClientWrite} (hx : OnlyEvents xs) (hy : OnlyEvents ys) :
    OnlyEvents (xs ++ ys) := by
  intro w hw
  rcases List.mem_append.mp hw with hw | hw
  · exact hx w hw
  · exact hy w hw

theorem onlyEvents_singleton (e : SseEvent) : OnlyEvents [.event e] :=
  fun _ hw => ⟨e, List.mem_singleton.mp hw⟩

/-- The bytes of the events, each as a chunk. -/
theorem OnlyEvents.writtenBytes_eq : ∀ {writes : List ClientWrite}, OnlyEvents writes →
    writtenBytes writes =
      (((writes.filterMap ClientWrite.sent).map reconstructSseEventBytes).map
        writeHttpChunk).flatten := by
  intro writes
  induction writes with
  | nil => exact fun _ => rfl
  | cons w writes ih =>
    intro h
    rcases h w List.mem_cons_self with ⟨e, rfl⟩
    rw [writtenBytes_cons, ih fun x hx => h x (List.mem_cons_of_mem _ hx)]
    rfl

variable (J : SerdeJson) (provider : Provider) (v : PiiVault)

theorem forwardEvent_writes (rb : Option ReplacementBuffer) (e : SseEvent) :
    ∃ e', (forwardEvent J provider v rb e).1 = [.event e'] := by
  unfold forwardEvent
  cases extractTextDelta J provider e.data with
  | none => exact ⟨e, rfl⟩
  | some text =>
    cases rb with
    | none => exact ⟨e, rfl⟩
    | some rb => exact ⟨_, rfl⟩

theorem flushRepBufRemainingAsChunk_writes (rb : Option ReplacementBuffer) :
    OnlyEvents (flushRepBufRemainingAsChunk J provider v rb).1 := by
  unfold flushRepBufRemainingAsChunk
  cases rb with
  | none => exact fun w hw => absurd hw List.not_mem_nil
  | some rb =>
    intro w hw
    rw [Option.mem_toList, Option.map_eq_some_iff] at hw
    rcases hw with ⟨e, _, rfl⟩
    exact ⟨e, rfl⟩

/-- An event gives events, and at least one. -/
theorem processEvent_writes (rb : Option ReplacementBuffer) (e : SseEvent) :
    OnlyEvents (processEvent J provider v rb e).1 ∧ (processEvent J provider v rb e).1 ≠ [] := by
  unfold processEvent
  split
  · exact ⟨onlyEvents_singleton e, List.cons_ne_nil _ _⟩
  split
  · exact ⟨(flushRepBufRemainingAsChunk_writes J provider v rb).append (onlyEvents_singleton e),
      List.append_ne_nil_of_right_ne_nil _ (List.cons_ne_nil _ _)⟩
  split
  · rcases forwardEvent_writes J provider v (flushRepBufRemainingAsChunk J provider v rb).2 e with
      ⟨e', he'⟩
    dsimp only
    rw [he']
    exact ⟨(flushRepBufRemainingAsChunk_writes J provider v rb).append (onlyEvents_singleton e'),
      List.append_ne_nil_of_right_ne_nil _ (List.cons_ne_nil _ _)⟩
  · rcases forwardEvent_writes J provider v rb e with ⟨e', he'⟩
    dsimp only
    rw [he']
    exact ⟨onlyEvents_singleton e', List.cons_ne_nil _ _⟩

theorem processEvents_writes : ∀ (es : List SseEvent) (rb : Option ReplacementBuffer),
    OnlyEvents (processEvents J provider v es rb).1 ∧
      ((processEvents J provider v es rb).1 = [] → es = []) := by
  intro es
  induction es with
  | nil => exact fun _ => ⟨fun w hw => absurd hw List.not_mem_nil, fun _ => rfl⟩
  | cons e es ih =>
    intro rb
    rcases processEvent_writes J provider v rb e with ⟨honly, hne⟩
    rw [processEvents]
    dsimp only
    split
    · exact ⟨honly, fun hnil => absurd hnil hne⟩
    · exact ⟨honly.append (ih _).1, fun hnil => absurd (List.append_eq_nil_iff.mp hnil).1 hne⟩

end Events

theorem reconstructSseEventBytes_ne_nil (e : SseEvent) : reconstructSseEventBytes e ≠ [] := by
  intro hnil
  rw [reconstructSseEventBytes] at hnil
  exact absurd (List.append_eq_nil_iff.mp hnil).2 (by decide)

namespace Answer

variable (env : U2cEnv) (a : Answer)

/-- The events that the client should get. -/
def restoredEvents : List SseEvent := (a.restoredWrites env).filterMap ClientWrite.sent

/-- The restored event stream. -/
def restored : Str := ((a.restoredEvents env).map reconstructSseEventBytes).flatten

theorem restoredWrites_onlyEvents : OnlyEvents (a.restoredWrites env) :=
  (processEvents_writes env.json env.provider env.vaultOr a.events _).1.append
    (flushRepBufRemainingAsChunk_writes env.json env.provider env.vaultOr _)

theorem restoredEvents_eq_nil (h : a.restoredEvents env = []) : a.events = [] := by
  have hnil : a.restoredWrites env = [] := by
    rw [List.eq_nil_iff_forall_not_mem]
    intro w hw
    rcases a.restoredWrites_onlyEvents env w hw with ⟨e, rfl⟩
    have hmem : e ∈ a.restoredEvents env := List.mem_filterMap.mpr ⟨_, hw, rfl⟩
    rw [h] at hmem
    exact List.not_mem_nil hmem
  rw [restoredWrites] at hnil
  exact (processEvents_writes env.json env.provider env.vaultOr a.events _).2
    (List.append_eq_nil_iff.mp hnil).1

theorem restoredWrites_nil (h : a.events = []) : a.restoredWrites env = [] := by
  rw [restoredWrites, h]
  cases env.vault <;> rfl

/-- The written chunks are longer than what they carry. -/
theorem length_restored_lt (h : a.events ≠ []) :
    (a.restored env).length < (writtenBytes (a.restoredWrites env)).length := by
  -- Each chunk is longer than its data by its size line and two line ends.
  have hlt : ∀ datas : List Str, datas ≠ [] →
      datas.flatten.length < ((datas.map writeHttpChunk).flatten).length := by
    intro datas
    induction datas with
    | nil => exact fun hne => absurd rfl hne
    | cons d datas ih =>
      intro _
      rw [List.map_cons, List.flatten_cons, List.flatten_cons, List.length_append,
        List.length_append, writeHttpChunk]
      simp only [List.length_append, length_crlf]
      cases datas with
      | nil =>
        simp only [List.map_nil, List.flatten_nil, List.length_nil]
        omega
      | cons d' datas =>
        have hrest := ih (List.cons_ne_nil _ _)
        omega
  rw [(a.restoredWrites_onlyEvents env).writtenBytes_eq, restored]
  refine hlt _ fun hnil => h (a.restoredEvents_eq_nil env ?_)
  exact List.map_eq_nil_iff.mp hnil

end Answer

section Behind

variable (env : U2cEnv)

/-- Until a blank line is read, bytes behind a response are kept; the first one
    sends what is there up to it. -/
theorem u2cRead_behind (p c : Str) :
    (findHeaderEnd (p ++ c) = none ∧
      u2cRead env c { U2cState.start with raw := p } = ([], { U2cState.start with raw := p ++ c })) ∨
    ∃ n, findHeaderEnd (p ++ c) = some n ∧ ∃ rest,
      (u2cRead env c { U2cState.start with raw := p }).1 = .raw ((p ++ c).take n) :: rest := by
  cases hend : findHeaderEnd (p ++ c) with
  | none =>
    refine Or.inl ⟨rfl, ?_⟩
    simp only [u2cRead, takeRead, U2cState.start, hend, Bool.false_eq_true, if_false, Bool.and_false]
  | some n =>
    refine Or.inr ⟨n, rfl, ?_⟩
    have htake : ∃ rest, (takeRead env c { U2cState.start with raw := p }).1 =
        .raw ((p ++ c).take n) :: rest := by
      simp only [takeRead, U2cState.start, hend, Bool.false_eq_true, if_false]
      split
      · exact ⟨_, rfl⟩
      · exact ⟨[], rfl⟩
    rcases htake with ⟨rest, hrest⟩
    -- the header block is written whether or not the read ends the response
    unfold u2cRead
    dsimp only
    split
    · rw [hrest]
      exact ⟨_, rfl⟩
    · exact ⟨rest, hrest⟩

/-- Nothing is written behind a response exactly if no blank line is read there. -/
theorem u2cReads_behind : ∀ (reads : List Str) (p : Str), findHeaderEnd p = none →
    (findHeaderEnd (p ++ reads.flatten) = none →
      u2cReads env reads { U2cState.start with raw := p } =
        ([], { U2cState.start with raw := p ++ reads.flatten })) ∧
    (writtenBytes (u2cReads env reads { U2cState.start with raw := p }).1 = [] →
      findHeaderEnd (p ++ reads.flatten) = none) := by
  -- The state behind a response is the start state with what was read: the induction
  -- is on the reads, with the bytes `p` that are kept.
  intro reads
  induction reads with
  | nil =>
    intro p hp
    rw [List.flatten_nil, List.append_nil]
    exact ⟨fun _ => rfl, fun _ => hp⟩
  | cons c reads ih =>
    intro p hp
    rw [List.flatten_cons, ← List.append_assoc]
    rcases u2cRead_behind env p c with ⟨hnone, hread⟩ | ⟨n, hsome, rest, hread⟩
    · rcases ih (p ++ c) hnone with ⟨hsilent, hback⟩
      simp only [u2cReads, hread, List.nil_append]
      exact ⟨hsilent, hback⟩
    · refine ⟨fun hnone => ?_, fun hnil => ?_⟩
      · rw [findHeaderEnd_append _ reads.flatten n hsome] at hnone
        exact absurd hnone (Option.some_ne_none n)
      · -- A header block is not empty.
        have hlen := findHeaderEnd_bounds _ n hsome
        simp only [u2cReads, hread, List.cons_append, writtenBytes_cons, ClientWrite.bytes] at hnil
        have hzero := congrArg List.length (List.append_eq_nil_iff.mp hnil).1
        rw [List.length_take, List.length_nil] at hzero
        omega

theorem handleU2c_blank (reads : List Str) :
    writtenBytes (handleU2c env reads) = [] ↔ findHeaderEnd reads.flatten = none := by
  have hbehind := u2cReads_behind env reads [] rfl
  rw [List.nil_append] at hbehind
  rw [handleU2c]
  constructor
  · intro hnil
    dsimp only at hnil
    rw [writtenBytes_append] at hnil
    exact hbehind.2 (List.append_eq_nil_iff.mp hnil).1
  · intro hnone
    have hrun := hbehind.1 hnone
    change u2cReads env reads U2cState.start = _ at hrun
    rw [hrun]
    rfl

end Behind

/-- The body `bytes` is complete under the declaration and carries `content`; without
    one, the end of the connection is the end of the body. -/
def CompleteBody (d : Declaration) (bytes content : Str) : Prop :=
  match d with
  | .length n => bytes.length = n ∧ content = bytes
  | .chunked => ChunkedBody bytes content
  | .none => content = bytes

/-- What the client gets behind the headers. -/
def clientBody (env : U2cEnv) (a : Answer) (reads : List Str) : Str :=
  (writtenBytes (handleU2c env reads)).drop a.header.length

namespace Answer

/-- The terminal event is among the events of the first bytes `p` of the response. -/
def Ended (env : U2cEnv) (a : Answer) (p : Str) : Prop :=
  (scan (unframe a.body.isChunked (p.drop a.header.length))).1.any (endsResponse env) = true

/-- The terminal event comes, and in the reads behind the one that completes it
    there is no blank line. -/
def EndsInTime (env : U2cEnv) (a : Answer) (reads : List Str) : Prop :=
  ∃ xs c ys, reads = xs ++ c :: ys ∧ ¬ a.Ended env xs.flatten ∧ a.Ended env (xs.flatten ++ c) ∧
    findHeaderEnd ys.flatten = none

end Answer

section Run

variable {env : U2cEnv} {a : Answer} (hr : env.piiReplace = true) (ha : a.Framed)
include hr ha

omit hr in
theorem Answer.Framed.ended_iff (p : Str) (hp : p <+: a.bytes) :
    a.Ended env p ↔ (position env a.header p).2.2 = true := by
  rcases prefix_cases p a.header a.body.bytes hp with ⟨r, hshort, hne⟩ | ⟨b, rfl⟩
  · have hdrop : p.drop a.header.length = [] := by
      refine List.drop_eq_nil_of_le ?_
      rw [hshort, List.length_append]
      exact Nat.le_add_right _ _
    have hun : unframe a.body.isChunked [] = [] := by
      cases a.body.isChunked <;> rfl
    rw [position_short p r hshort hne, Answer.Ended, hdrop, hun]
    exact ⟨fun h => Bool.noConfusion h, fun h => Bool.noConfusion h⟩
  · rw [position_body, Answer.Ended, List.drop_left]
    simp only [midway, ha.isChunkedResp]
    rw [processEvents_flag]

/-- What is behind the headers, if the terminal event comes. -/
theorem Answer.Framed.clientBody_done (xs ys : List Str) (c : Str)
    (hreads : (xs ++ c :: ys).flatten = a.bytes) (hw : Waiting env a.header xs.flatten)
    (hdone : (position env a.header (xs.flatten ++ c)).2.2 = true) :
    clientBody env a (xs ++ c :: ys) = writtenBytes (a.restoredWrites env) ++
      (lastChunk ++ writtenBytes (handleU2c env ys)) := by
  rw [clientBody, ha.run_done hr xs ys c hreads hw hdone]
  simp only [List.cons_append, writtenBytes_cons, writtenBytes_append, ClientWrite.bytes,
    List.drop_left]

/-- What is behind them, if it does not. -/
theorem Answer.Framed.clientBody_open (hes : a.events.any (endsResponse env) = false)
    (reads : List Str) (hreads : reads.flatten = a.bytes) :
    clientBody env a reads = writtenBytes (a.restoredWrites env) := by
  rw [clientBody, ha.run_open hr (fun x hx => ?_) reads hreads]
  · simp only [writtenBytes_cons, ClientWrite.bytes, List.drop_left]
  · have hx' := List.any_eq_false.mp hes x hx
    exact (Bool.not_eq_true _).mp hx'

omit hr in
/-- An event that has arrived is one of the response. -/
theorem Answer.Framed.any_of_ended {p : Str} (hp : p <+: a.bytes) (hended : a.Ended env p) :
    a.events.any (endsResponse env) = true := by
  rcases prefix_cases p a.header a.body.bytes hp with ⟨r, hshort, hne⟩ | ⟨b, rfl⟩
  · rw [ha.ended_iff p hp, position_short p r hshort hne] at hended
    exact Bool.noConfusion hended
  · rw [Answer.Ended, List.drop_left, List.any_eq_true] at hended
    rcases hended with ⟨e, he, hend⟩
    rw [Answer.bytes, List.prefix_append_right_inj] at hp
    exact List.any_eq_true.mpr ⟨e, (ha.events_prefix b hp).subset he, hend⟩

/-- Under chunked coding the client gets a complete body exactly if the terminal
    event comes and nothing is written behind it. -/
theorem Answer.Framed.chunkedBody_iff (reads : List Str) (hreads : reads.flatten = a.bytes) :
    ChunkedBody (clientBody env a reads) (a.restored env) ↔ a.EndsInTime env reads := by
  have hwritten := (a.restoredWrites_onlyEvents env).writtenBytes_eq
  have hne : ∀ d ∈ ((a.restoredWrites env).filterMap ClientWrite.sent).map reconstructSseEventBytes,
      d ≠ [] := by
    intro d hd
    rcases List.mem_map.mp hd with ⟨e, _, rfl⟩
    exact reconstructSseEventBytes_ne_nil e
  constructor
  · intro h
    cases hend : a.events.any (endsResponse env) with
    | false =>
      -- No last chunk was written.
      rw [ha.clientBody_open hr hend reads hreads, hwritten, ← List.append_nil (List.flatten _)] at h
      rcases (chunkedBody_written _ hne _ _).mp h with ⟨more, hmore, _⟩
      exact absurd hmore (not_chunkedBody_nil more)
    | true =>
      rcases ha.first_done hend reads [] hreads (ha.stream hr).waiting_nil with
        ⟨xs, c, ys, rfl, hw, hdone⟩
      rw [List.nil_append] at hw hdone
      have hpre : xs.flatten ++ c <+: a.bytes :=
        ⟨ys.flatten, by rw [← hreads, List.flatten_append, List.flatten_cons, List.append_assoc]⟩
      rw [ha.clientBody_done hr xs ys c hreads hw hdone, hwritten] at h
      rcases (chunkedBody_written _ hne _ _).mp h with ⟨more, hmore, _⟩
      refine ⟨xs, c, ys, rfl, fun hended => ?_, (ha.ended_iff _ hpre).mpr hdone,
        (handleU2c_blank env ys).mp ((chunkedBody_lastChunk _ _).mp hmore).1⟩
      -- The loop was still waiting for the terminal event.
      have hxs : xs.flatten <+: a.header ++ a.body.bytes := (List.prefix_append _ _).trans hpre
      rw [ha.ended_iff _ hxs] at hended
      rcases prefix_cases _ a.header a.body.bytes hxs with ⟨r, hshort, hne⟩ | ⟨b, hb⟩
      · rw [position_short _ r hshort hne] at hended
        exact Bool.noConfusion hended
      · rw [hb, position_body] at hended
        rw [(hw b hb).2] at hended
        exact Bool.noConfusion hended
  · rintro ⟨xs, c, ys, rfl, hnot, hended, hblank⟩
    have hpre : xs.flatten ++ c <+: a.bytes :=
      ⟨ys.flatten, by rw [← hreads, List.flatten_append, List.flatten_cons, List.append_assoc]⟩
    have hxs : xs.flatten <+: a.bytes := (List.prefix_append _ _).trans hpre
    have hend := ha.any_of_ended hpre hended
    have hopen : (position env a.header xs.flatten).2.2 = false := by
      rw [ha.ended_iff _ hxs, Bool.not_eq_true] at hnot
      exact hnot
    rw [ha.clientBody_done hr xs ys c hreads (ha.waiting_of_open hend _ hxs hopen)
      ((ha.ended_iff _ hpre).mp hended), hwritten, (handleU2c_blank env ys).mpr hblank]
    refine (chunkedBody_written _ hne _ _).mpr ⟨[], ?_, (List.append_nil _).symm⟩
    exact (chunkedBody_lastChunk _ _).mpr ⟨rfl, rfl⟩

/-- Without chunked coding the client gets the event stream exactly if that is
    empty. -/
theorem Answer.Framed.clientBody_eq_restored_iff (reads : List Str)
    (hreads : reads.flatten = a.bytes) :
    a.restored env = clientBody env a reads ↔ a.events = [] := by
  constructor
  · intro heq
    by_contra hne
    have hlt := a.length_restored_lt env hne
    -- The chunk framing alone makes the body longer than the event stream.
    have hle : (writtenBytes (a.restoredWrites env)).length ≤ (clientBody env a reads).length := by
      cases hend : a.events.any (endsResponse env) with
      | false => rw [ha.clientBody_open hr hend reads hreads]
      | true =>
        rcases ha.first_done hend reads [] hreads (ha.stream hr).waiting_nil with
          ⟨xs, c, ys, rfl, hw, hdone⟩
        rw [List.nil_append] at hw hdone
        rw [ha.clientBody_done hr xs ys c hreads hw hdone, List.length_append]
        exact Nat.le_add_right _ _
    rw [heq] at hlt
    omega
  · intro hnil
    rw [ha.clientBody_open hr (by rw [hnil]; rfl) reads hreads, Answer.restored,
      Answer.restoredEvents, a.restoredWrites_nil env hnil]
    rfl

end Run

/-- In replace mode the client gets a complete body with the restored event stream
    exactly in these cases: chunked, with a terminal event, and no blank line in
    the reads behind it; a length of zero; or no declaration and no event. -/
theorem rewritten_complete_iff (env : U2cEnv) (hr : env.piiReplace = true) (a : Answer)
    (ha : a.Framed) (hsized : ∀ n, declaration a.header = .length n → a.body.bytes.length = n)
    (reads : List Str) (hreads : reads.flatten = a.bytes) :
    CompleteBody (declaration a.header) (clientBody env a reads) (a.restored env) ↔
      match declaration a.header with
      | .length n => n = 0
      | .chunked => a.EndsInTime env reads
      | .none => a.events = [] := by
  have hplain := ha.clientBody_eq_restored_iff hr reads hreads
  cases hdecl : declaration a.header with
  | chunked => exact ha.chunkedBody_iff hr reads hreads
  | none => exact hplain
  -- The length is the upstream one: the rewritten body has it only where both are
  -- empty.
  | length n =>
    have hempty : a.events = [] → clientBody env a reads = [] := by
      intro hnil
      rw [← hplain.mpr hnil, Answer.restored, Answer.restoredEvents, a.restoredWrites_nil env hnil]
      rfl
    constructor
    · rintro ⟨hlen, heq⟩
      rw [← hlen, hempty (hplain.mp heq)]
      rfl
    · rintro rfl
      have hbytes := List.length_eq_zero_iff.mp (hsized 0 hdecl)
      have hchunked : a.body.isChunked = false := by
        rw [← ha.framing, declaration_eq_length hdecl]
        rfl
      have hnil : a.events = [] := by
        cases hbody : a.body with
        | chunks cs =>
          rw [hbody] at hchunked
          exact Bool.noConfusion hchunked
        | whole data =>
          rw [hbody, Body.bytes] at hbytes
          rw [Answer.events, hbody, Body.payload, hbytes]
          rfl
      exact ⟨by rw [hempty hnil]; rfl, hplain.mpr hnil⟩

/-- The answer with the name, as a response with a body in chunks. -/
def nameAnswer : Answer := ⟨nameReply.header, .chunks nameReply.chunks⟩

theorem nameAnswer_framed : nameAnswer.Framed where
  ends := nameReply_valid.ends
  sse := nameReply_valid.sse
  framing := by decide
  body := nameReply_valid.chunks

/-- The answer in two reads, of which the second brings the terminal event and the
    rest: the end comes in time, and the chunks the client gets are complete. -/
theorem rewritten_complete_name :
    nameAnswer.EndsInTime nameEnv [nameAnswer.bytes.take 100, nameAnswer.bytes.drop 100] ∧
      CompleteBody .chunked
        (clientBody nameEnv nameAnswer [nameAnswer.bytes.take 100, nameAnswer.bytes.drop 100])
        (nameAnswer.restored nameEnv) := by
  have hiff : CompleteBody .chunked
        (clientBody nameEnv nameAnswer [nameAnswer.bytes.take 100, nameAnswer.bytes.drop 100])
        (nameAnswer.restored nameEnv) ↔
      nameAnswer.EndsInTime nameEnv [nameAnswer.bytes.take 100, nameAnswer.bytes.drop 100] :=
    rewritten_complete_iff nameEnv rfl nameAnswer nameAnswer_framed (by
      intro n hn
      have hchunked : declaration nameAnswer.header = .chunked := by decide
      rw [hchunked] at hn
      exact Declaration.noConfusion hn) [nameAnswer.bytes.take 100, nameAnswer.bytes.drop 100] (by
      rw [List.flatten_cons, List.flatten_singleton, List.take_append_drop])
  have hends : nameAnswer.EndsInTime nameEnv
      [nameAnswer.bytes.take 100, nameAnswer.bytes.drop 100] := by
    refine ⟨[nameAnswer.bytes.take 100], nameAnswer.bytes.drop 100, [], rfl, ?_, ?_, rfl⟩
    · rw [Answer.Ended]
      decide +kernel
    · rw [Answer.Ended]
      decide +kernel
  exact ⟨hends, hiff.mpr hends⟩

/-- The answer with two blocks has a body up to the end of the connection; the
    client gets chunks. -/
theorem rewritten_not_declared :
    declaration twoBlocks.header = .none ∧
      ¬ ∀ (a : Answer) (reads : List Str), a.Framed →
        (∀ n, declaration a.header = .length n → a.body.bytes.length = n) →
        reads.flatten = a.bytes →
        CompleteBody (declaration a.header) (clientBody twoBlocksEnv a reads)
          (a.restored twoBlocksEnv) := by
  have hdecl : declaration twoBlocks.header = .none := by decide
  refine ⟨hdecl, fun hall => ?_⟩
  have h := hall twoBlocks [twoBlocks.bytes] twoBlocks_wellFormed.framed (by
    intro n hn
    rw [hdecl] at hn
    exact Declaration.noConfusion hn) (List.append_nil _)
  rw [hdecl] at h
  have heq : twoBlocks.restored twoBlocksEnv =
      clientBody twoBlocksEnv twoBlocks [twoBlocks.bytes] := h
  exact absurd heq (by decide +kernel)

end PrivacyClaw
