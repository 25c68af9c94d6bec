import PrivacyClaw.Theory.HoldBack
import PrivacyClaw.Theory.Response

/-!
# The Text of a Response

What text does the client read in the events it gets?

The text of an event is put through the replacement buffer and back into the
event, and the text that the buffer held back is sent in an event of its own. So
the text that the client reads is what the buffer gives for the text that upstream
sent. For Anthropic the buffer is flushed at the end of every content block, and
each block comes out as a stream of its own.

The client reads what `serde_json` prints. `RoundTrip` states what is needed of
the crate: what it prints it parses, and the strings are the same. That is asked
of the two kinds of value that the proxy prints, an event with another text in
it and the event for held-back text.

## Main definitions

* `Reparsed`, `SerdeJson.RoundTrip`: Printing and parsing.
* `textOf`: The text that the client reads.
* `stepDelta`: What an event does to the buffer.
* `isBlockStop`: The end of a content block.

## Theorems

* `pointer_setPointer`: A value that was put in is there.
* `extractTextDelta_replaceTextDelta`: So is a text.
* `forwardEvent_spec`, `processEvent_blockStop`: The text of one event.
* `processEvents_deltas`: The text of events without a block's end.
* `processEvents_blocks`: The text of content blocks.
-/

namespace PrivacyClaw

namespace Value

theorem lookupField_modifyField (key : Str) (f : Value → Value) (fields : List (Str × Value)) :
    lookupField key (modifyField key f fields) = (lookupField key fields).map f := by
  induction fields with
  | nil => rfl
  | cons kv fields ih =>
      rcases kv with ⟨k, w⟩
      by_cases h : k = key
      · simp only [modifyField, lookupField, if_pos h, Option.map_some]
      · simp only [modifyField, lookupField, if_neg h, ih]

theorem lookupField_modifyField_ne (key other : Str) (f : Value → Value)
    (fields : List (Str × Value)) (hne : other ≠ key) :
    lookupField other (modifyField key f fields) = lookupField other fields := by
  induction fields with
  | nil => rfl
  | cons kv fields ih =>
      rcases kv with ⟨k, w⟩
      unfold modifyField
      by_cases h : k = key
      · rw [if_pos h, lookupField, lookupField, if_neg (fun he => hne (he.symm.trans h)),
          if_neg (fun he => hne (he.symm.trans h))]
      · rw [if_neg h, lookupField, lookupField, ih]

/-- A value that was put in the place of another is there. -/
theorem pointer_setPointer (new : Value) : ∀ (path : List Str) (v w : Value),
    pointer path v = some w → pointer path (setPointer new path v) = some new := by
  intro path
  induction path with
  | nil => intro v w _; rfl
  | cons token path ih =>
      intro v w h
      cases v with
      | object fields =>
          simp only [pointer, setPointer] at h ⊢
          rcases Option.bind_eq_some_iff.mp h with ⟨x, hx, hpath⟩
          rw [lookupField_modifyField, hx]
          exact ih x w hpath
      | array items =>
          simp only [pointer, setPointer] at h ⊢
          rcases Option.bind_eq_some_iff.mp h with ⟨x, hx, hpath⟩
          rcases Option.bind_eq_some_iff.mp hx with ⟨i, hi, hget⟩
          rw [hi]
          simp only [pointer, hi, Option.bind_some, List.getElem?_modify_eq, hget]
          exact ih x w hpath
      | _ => simp only [pointer, reduceCtorEq] at h

/-- Below a field, other fields are not touched. -/
theorem pointer_setPointer_field (new : Value) (key other : Str) (path rest : List Str) (v : Value)
    (hne : other ≠ key) (hk : parseIndex key = none) :
    pointer (other :: rest) (setPointer new (key :: path) v) = pointer (other :: rest) v := by
  cases v with
  | object fields => simp only [setPointer, pointer, lookupField_modifyField_ne key other _ _ hne]
  | array items => simp only [setPointer, hk]
  | _ => rfl

/-- What is not touched in a field is not touched in the value. -/
theorem pointer_setPointer_below (new : Value) (key : Str) (path rest : List Str) (v : Value)
    (hk : parseIndex key = none)
    (hrest : ∀ x, pointer rest (setPointer new path x) = pointer rest x) :
    pointer (key :: rest) (setPointer new (key :: path) v) = pointer (key :: rest) v := by
  cases v with
  | object fields =>
      simp only [setPointer, pointer, lookupField_modifyField]
      cases lookupField key fields with
      | none => rfl
      | some x => exact hrest x
  | array items => simp only [setPointer, hk]
  | _ => rfl

end Value

/-- A value is printed so that its strings can be read again. -/
def Reparsed (J : SerdeJson) (w : Value) : Prop :=
  ∃ w', J.fromStr (J.toStr w) = some w' ∧ ∀ path, strAt w' path = strAt w path

/-- The values that the proxy prints are read again as they were, and `[DONE]` is
    not JSON. -/
structure SerdeJson.RoundTrip (J : SerdeJson) (provider : Provider) : Prop where
  done : ∀ data, trim data = lit "[DONE]" → J.fromStr data = none
  edited : ∀ data w path text, J.fromStr data = some w → textDeltaPointer provider = some path →
    Reparsed J (Value.setPointer (.string text) path w)
  trailing : ∀ text w, trailingData text provider = some w → Reparsed J w

section Text

variable {J : SerdeJson} {provider : Provider}

theorem SerdeJson.RoundTrip.not_done (hJ : J.RoundTrip provider) (e : SseEvent) (w : Value)
    (h : J.fromStr e.data = some w) : isDoneSentinel e = false := by
  cases hd : isDoneSentinel e with
  | false => rfl
  | true =>
      rw [hJ.done e.data (eq_of_beq hd)] at h
      exact absurd h (by simp only [reduceCtorEq, not_false_eq_true])

/-- A new text does not change what an Anthropic event is. -/
theorem isTextDelta_setPointer (new w : Value) (path : List Str)
    (hpath : textDeltaPointer provider = some path) :
    isTextDelta provider (Value.setPointer new path w) = isTextDelta provider w := by
  cases provider with
  | anthropic =>
      cases hpath
      have htype : strAt (Value.setPointer new [lit "delta", lit "text"] w) [lit "type"] =
          strAt w [lit "type"] := by
        rw [strAt, Value.pointer_setPointer_field _ _ _ _ _ _ (by decide) (by decide), strAt]
      have hkind : strAt (Value.setPointer new [lit "delta", lit "text"] w)
          [lit "delta", lit "type"] = strAt w [lit "delta", lit "type"] := by
        rw [strAt, Value.pointer_setPointer_below _ _ _ _ _ (by decide), strAt]
        intro x
        exact Value.pointer_setPointer_field _ _ _ _ _ _ (by decide) (by decide)
      simp only [isTextDelta, htype, hkind]
  | _ => rfl

theorem isTextDelta_congr {w w' : Value} (h : ∀ path, strAt w' path = strAt w path) :
    isTextDelta provider w' = isTextDelta provider w := by
  simp only [isTextDelta, h]

theorem extractTextDelta_eq_some {data text : Str} :
    extractTextDelta J provider data = some text ↔
      ∃ w path, J.fromStr data = some w ∧ isTextDelta provider w = true ∧
        textDeltaPointer provider = some path ∧ strAt w path = some text := by
  simp only [extractTextDelta, Option.bind_eq_bind, Option.bind_eq_some_iff,
    Option.ite_none_right_eq_some]
  constructor
  · rintro ⟨w, hw, hdelta, path, hpath, htext⟩
    exact ⟨w, path, hw, hdelta, hpath, htext⟩
  · rintro ⟨w, path, hw, hdelta, hpath, htext⟩
    exact ⟨w, hw, hdelta, path, hpath, htext⟩

/-- The text that was put into an event is its text. -/
theorem extractTextDelta_replaceTextDelta (hJ : J.RoundTrip provider) (data text new : Str)
    (h : extractTextDelta J provider data = some text) :
    extractTextDelta J provider (replaceTextDelta J provider data new) = some new := by
  rcases extractTextDelta_eq_some.mp h with ⟨w, path, hw, hdelta, hpath, htext⟩
  rcases hJ.edited data w path new hw hpath with ⟨w', hw', hsame⟩
  have hdata : replaceTextDelta J provider data new =
      J.toStr (Value.setPointer (.string new) path w) := by
    simp only [replaceTextDelta, hw, hpath]
  refine extractTextDelta_eq_some.mpr ⟨w', path, by rw [hdata, hw'], ?_, hpath, ?_⟩
  · rw [isTextDelta_congr hsame, isTextDelta_setPointer _ _ _ hpath, hdelta]
  · -- there was a text at the path, so there is one now
    rcases Option.bind_eq_some_iff.mp htext with ⟨x, hx, _⟩
    rw [hsame, strAt, Value.pointer_setPointer _ path w x hx]
    rfl

/-- The text of the event for held-back text. -/
theorem extractTextDelta_trailing (hJ : J.RoundTrip provider) (text : Str) (w : Value)
    (h : trailingData text provider = some w) :
    extractTextDelta J provider (J.toStr w) = some text := by
  rcases hJ.trailing text w h with ⟨w', hw', hsame⟩
  cases provider with
  | anthropic =>
      cases h
      refine extractTextDelta_eq_some.mpr ⟨w', _, hw', ?_, rfl, ?_⟩
      · rw [isTextDelta_congr hsame]
        rfl
      · rw [hsame]
        rfl
  | openAi =>
      cases h
      refine extractTextDelta_eq_some.mpr ⟨w', _, hw', rfl, rfl, ?_⟩
      rw [hsame]
      rfl
  | _ => exact absurd h (by simp only [trailingData, reduceCtorEq, not_false_eq_true])

end Text

/-- The text that the client reads in what is written to it. -/
def textOf (J : SerdeJson) (provider : Provider) : List ClientWrite → Str
  | [] => []
  | .event e :: writes => (extractTextDelta J provider e.data).getD [] ++ textOf J provider writes
  | _ :: writes => textOf J provider writes

/-- What an event does to the buffer, by the text that it carries. -/
def stepDelta (v : PiiVault) (b : ReplacementBuffer) : Option Str → Str × ReplacementBuffer
  | some text => b.processDelta v text
  | none => ([], b)

/-- The texts that events carry. -/
def deltasOf (J : SerdeJson) (provider : Provider) (events : List SseEvent) : List Str :=
  events.filterMap fun e => extractTextDelta J provider e.data

/-- The end of a content block. -/
def isBlockStop (provider : Provider) (e : SseEvent) : Bool :=
  provider = .anthropic && e.eventType = some (lit "content_block_stop")

/-- A write that does not end the response. -/
def goesOn (env : U2cEnv) : ClientWrite → Bool
  | .event e => !endsResponse env e
  | _ => true

namespace ReplacementBuffer

variable (v : PiiVault)

/-- The deltas from a given buffer on, and the flush. -/
def finish (b : ReplacementBuffer) (deltas : List Str) : Str :=
  (processDeltas v deltas b).1 ++ ((processDeltas v deltas b).2.flushRemaining v).1

/-- Two buffers that hold the same and know the vault. -/
structure Alike (b b' : ReplacementBuffer) : Prop where
  buffer : b.buffer = b'.buffer
  fresh : v.isEmpty = false → b.Fresh v ∧ b'.Fresh v

variable {v}

theorem processDelta_alike {b b' : ReplacementBuffer} (h : Alike v b b') (d : Str) :
    (b.processDelta v d).1 = (b'.processDelta v d).1 ∧
      Alike v (b.processDelta v d).2 (b'.processDelta v d).2 := by
  by_cases hd : d = []
  · rw [hd, processDelta_nil, processDelta_nil]
    exact ⟨rfl, h⟩
  · cases hv : v.isEmpty with
    | true =>
        -- everything is forwarded
        have hempty : d.isEmpty = false := by
          cases d with
          | nil => exact absurd rfl hd
          | cons c d => rfl
        have hbuf : ∀ b : ReplacementBuffer, (b.refresh v).buffer = b.buffer := by
          intro b
          unfold refresh
          split <;> rfl
        unfold processDelta
        simp only [hempty, Bool.false_eq_true, if_false, hv, if_true, hbuf, h.buffer]
        exact ⟨trivial, rfl, fun hne => absurd (hv.symm.trans hne) (by decide)⟩
    | false =>
        rcases h.fresh hv with ⟨hb, hb'⟩
        rcases processDelta_spec v hv b hb d hd with ⟨n, hn, hout, hkept, hfresh⟩
        rcases processDelta_spec v hv b' hb' d hd with ⟨n', hn', hout', hkept', hfresh'⟩
        rw [h.buffer] at hn hout hkept
        rw [hn.trans hn'.symm] at hout hkept
        exact ⟨hout.trans hout'.symm, hkept.trans hkept'.symm, fun _ => ⟨hfresh, hfresh'⟩⟩

theorem flushRemaining_alike {b b' : ReplacementBuffer} (h : b.buffer = b'.buffer) :
    (b.flushRemaining v).1 = (b'.flushRemaining v).1 := by
  unfold flushRemaining
  rw [h]
  split <;> rfl

/-- What buffers give depends on what they hold only. -/
theorem finish_alike : ∀ (deltas : List Str) {b b' : ReplacementBuffer}, Alike v b b' →
    finish v b deltas = finish v b' deltas := by
  intro deltas
  induction deltas with
  | nil =>
      intro b b' h
      exact flushRemaining_alike h.buffer
  | cons d ds ih =>
      intro b b' h
      rcases processDelta_alike h d with ⟨hout, hnext⟩
      have hrest := ih hnext
      simp only [finish, processDeltas, List.append_assoc] at hrest ⊢
      rw [hout, hrest]

/-- A buffer that was flushed is as good as a new one. -/
theorem finish_flushed (b : ReplacementBuffer) (hb : v.isEmpty = false → b.Fresh v)
    (deltas : List Str) : finish v (b.flushRemaining v).2 deltas = stream v deltas := by
  have halike : Alike v (b.flushRemaining v).2 new := by
    unfold flushRemaining
    split
    · next hempty =>
        exact ⟨List.isEmpty_iff.mp hempty, fun hv => ⟨hb hv, fresh_new v hv⟩⟩
    · exact ⟨rfl, fun hv => ⟨hb hv, fresh_new v hv⟩⟩
  exact finish_alike deltas halike

end ReplacementBuffer

section Events

variable {env : U2cEnv} {v : PiiVault} (hJ : env.json.RoundTrip env.provider)

theorem textOf_append (J : SerdeJson) (provider : Provider) (xs ys : List ClientWrite) :
    textOf J provider (xs ++ ys) = textOf J provider xs ++ textOf J provider ys := by
  induction xs with
  | nil => rfl
  | cons x xs ih =>
      rw [List.cons_append]
      cases x <;> simp only [textOf, ih, List.append_assoc]

theorem textOf_raw (J : SerdeJson) (provider : Provider) (bytes : Str) (ws : List ClientWrite) :
    textOf J provider (.raw bytes :: ws) = textOf J provider ws := rfl

include hJ

/-- An event that is forwarded: its text goes through the buffer, and it does not
    end the response. -/
theorem forwardEvent_spec (b : ReplacementBuffer) (e : SseEvent)
    (hend : endsResponse env e = false) :
    (forwardEvent env.json env.provider v (some b) e).2 =
        some (stepDelta v b (extractTextDelta env.json env.provider e.data)).2 ∧
      textOf env.json env.provider (forwardEvent env.json env.provider v (some b) e).1 =
        (stepDelta v b (extractTextDelta env.json env.provider e.data)).1 ∧
      ∀ w ∈ (forwardEvent env.json env.provider v (some b) e).1, goesOn env w = true := by
  cases htext : extractTextDelta env.json env.provider e.data with
  | none =>
      simp only [forwardEvent, htext, stepDelta, textOf, Option.getD_none, List.append_nil,
        List.mem_singleton, forall_eq, goesOn, hend, Bool.not_false, and_self]
  | some text =>
      have hnew := extractTextDelta_replaceTextDelta hJ e.data text (b.processDelta v text).1 htext
      rcases extractTextDelta_eq_some.mp hnew with ⟨w, _, hw, _, _, _⟩
      -- the event keeps its name, and its data is JSON
      have hgo : endsResponse env ⟨e.eventType, replaceTextDelta env.json env.provider e.data
          (b.processDelta v text).1⟩ = false := by
        simp only [endsResponse, Bool.or_eq_false_iff] at hend ⊢
        exact ⟨hJ.not_done _ w hw, hend.2⟩
      simp only [forwardEvent, htext, stepDelta, textOf, hnew, Option.getD_some, List.append_nil,
        List.mem_singleton, forall_eq, goesOn, hgo, Bool.not_false, and_self]

/-- What was held back is sent while the response goes on. -/
theorem flushRepBufRemainingAsChunk_spec (ha : env.provider = .anthropic)
    (b : ReplacementBuffer) :
    (flushRepBufRemainingAsChunk env.json env.provider v (some b)).2 =
        some (b.flushRemaining v).2 ∧
      textOf env.json env.provider
          (flushRepBufRemainingAsChunk env.json env.provider v (some b)).1 =
        (b.flushRemaining v).1 ∧
      ∀ w ∈ (flushRepBufRemainingAsChunk env.json env.provider v (some b)).1,
        goesOn env w = true := by
  have hdata : ∃ w, trailingData (b.flushRemaining v).1 env.provider = some w := by
    rw [ha]
    exact ⟨_, rfl⟩
  rcases hdata with ⟨w, hw⟩
  have htext := extractTextDelta_trailing hJ _ w hw
  rcases extractTextDelta_eq_some.mp htext with ⟨w', _, hw', _, _, _⟩
  have hgo : endsResponse env ⟨some (lit "content_block_delta"), env.json.toStr w⟩ = false := by
    rw [endsResponse, hJ.not_done _ w' hw', Bool.false_or]
    rw [decide_eq_false (by decide : ¬ some (lit "content_block_delta") = some (lit "message_stop")),
      Bool.and_false]
  -- An empty rest writes nothing, another one the event just looked at.
  simp only [flushRepBufRemainingAsChunk, makeTrailingTextEvent]
  cases hrem : (b.flushRemaining v).1 with
  | nil => simp only [List.isEmpty_nil, if_true, Option.map_none, Option.toList_none, textOf,
      List.not_mem_nil, false_implies, implies_true, and_self]
  | cons c rest =>
      rw [hrem] at hw htext
      simp only [List.isEmpty_cons, Bool.false_eq_true, if_false, hw, Option.map_some,
        Option.toList_some, textOf, htext, Option.getD_some, List.append_nil, List.mem_singleton,
        forall_eq, goesOn, hgo, Bool.not_false, and_self]

omit hJ in
theorem stepDelta_fresh {b : ReplacementBuffer} (hb : v.isEmpty = false → b.Fresh v)
    (text : Option Str) : v.isEmpty = false → (stepDelta v b text).2.Fresh v := by
  cases text with
  | none => exact hb
  | some d =>
      intro hv
      exact ((ReplacementBuffer.processDelta_alike
        ⟨rfl, fun h => ⟨hb h, hb h⟩⟩ d).2.fresh hv).1

omit hJ in
theorem processDeltas_cons (e : SseEvent) (es : List SseEvent) (b : ReplacementBuffer) :
    ReplacementBuffer.processDeltas v (deltasOf env.json env.provider (e :: es)) b =
      ((stepDelta v b (extractTextDelta env.json env.provider e.data)).1 ++
          (ReplacementBuffer.processDeltas v (deltasOf env.json env.provider es)
            (stepDelta v b (extractTextDelta env.json env.provider e.data)).2).1,
        (ReplacementBuffer.processDeltas v (deltasOf env.json env.provider es)
          (stepDelta v b (extractTextDelta env.json env.provider e.data)).2).2) := by
  unfold deltasOf
  rw [List.filterMap_cons]
  cases extractTextDelta env.json env.provider e.data with
  | none => rfl
  | some text => rfl

omit hJ in
/-- The events that are only forwarded. -/
theorem processEvent_forward (rb : Option ReplacementBuffer) (e : SseEvent)
    (hend : endsResponse env e = false) (hstop : isBlockStop env.provider e = false) :
    processEvent env.json env.provider v rb e =
      ((forwardEvent env.json env.provider v rb e).1,
        (forwardEvent env.json env.provider v rb e).2, false) := by
  have hflag := processEvent_flag env v rb e
  rw [hend] at hflag
  simp only [endsResponse, Bool.or_eq_false_iff] at hend
  have hmessage : ¬ (env.provider = .anthropic ∧ e.eventType = some (lit "message_stop")) := by
    simpa only [← Bool.decide_and, decide_eq_false_iff_not] using hend.2
  have hblock : ¬ (env.provider = .anthropic ∧
      e.eventType = some (lit "content_block_stop")) := by
    simpa only [isBlockStop, ← Bool.decide_and, decide_eq_false_iff_not] using hstop
  unfold processEvent
  rw [hend.1, if_neg Bool.false_ne_true, if_neg hmessage, if_neg hblock]

omit hJ in
/-- The end of a content block: the buffer is flushed first. -/
theorem processEvent_blockStop (rb : Option ReplacementBuffer) (e : SseEvent)
    (hend : endsResponse env e = false) (hstop : isBlockStop env.provider e = true) :
    processEvent env.json env.provider v rb e =
      ((flushRepBufRemainingAsChunk env.json env.provider v rb).1 ++
          (forwardEvent env.json env.provider v
            (flushRepBufRemainingAsChunk env.json env.provider v rb).2 e).1,
        (forwardEvent env.json env.provider v
          (flushRepBufRemainingAsChunk env.json env.provider v rb).2 e).2, false) := by
  simp only [endsResponse, Bool.or_eq_false_iff] at hend
  have hmessage : ¬ (env.provider = .anthropic ∧ e.eventType = some (lit "message_stop")) := by
    simpa only [← Bool.decide_and, decide_eq_false_iff_not] using hend.2
  have hblock : env.provider = .anthropic ∧ e.eventType = some (lit "content_block_stop") := by
    simpa only [isBlockStop, ← Bool.decide_and, decide_eq_true_eq] using hstop
  unfold processEvent
  rw [hend.1, if_neg Bool.false_ne_true, if_neg hmessage, if_pos hblock]

omit hJ in
theorem processEvents_cons (rb : Option ReplacementBuffer) (e : SseEvent) (es : List SseEvent)
    (hend : endsResponse env e = false) :
    processEvents env.json env.provider v (e :: es) rb =
      ((processEvent env.json env.provider v rb e).1 ++
          (processEvents env.json env.provider v es
            (processEvent env.json env.provider v rb e).2.1).1,
        (processEvents env.json env.provider v es
          (processEvent env.json env.provider v rb e).2.1).2) := by
  have hflag := processEvent_flag env v rb e
  rw [hend] at hflag
  rw [processEvents]
  simp only [hflag, Bool.false_eq_true, if_false]

/-- Events without the end of a block: their texts go through the buffer one
    after the other. -/
theorem processEvents_deltas : ∀ (es : List SseEvent) (b : ReplacementBuffer),
    (∀ e ∈ es, endsResponse env e = false) → (∀ e ∈ es, isBlockStop env.provider e = false) →
    (processEvents env.json env.provider v es (some b)).2.1 =
        some (ReplacementBuffer.processDeltas v (deltasOf env.json env.provider es) b).2 ∧
      textOf env.json env.provider (processEvents env.json env.provider v es (some b)).1 =
        (ReplacementBuffer.processDeltas v (deltasOf env.json env.provider es) b).1 ∧
      ∀ w ∈ (processEvents env.json env.provider v es (some b)).1, goesOn env w = true := by
  intro es
  induction es with
  | nil =>
      intro b _ _
      exact ⟨rfl, rfl, fun w hw => absurd hw List.not_mem_nil⟩
  | cons e es ih =>
      intro b hend hstop
      have he := hend e List.mem_cons_self
      rcases forwardEvent_spec (v := v) hJ b e he with ⟨hbuf, htext, hgo⟩
      rcases ih (stepDelta v b (extractTextDelta env.json env.provider e.data)).2
        (fun x hx => hend x (List.mem_cons_of_mem _ hx))
        (fun x hx => hstop x (List.mem_cons_of_mem _ hx)) with ⟨hbuf', htext', hgo'⟩
      -- one event is one delta, or none
      rw [processEvents_cons _ _ _ he, processEvent_forward _ _ he (hstop e List.mem_cons_self),
        processDeltas_cons]
      simp only [hbuf, textOf_append, htext, htext', hbuf', true_and]
      intro w hw
      rcases List.mem_append.mp hw with hw | hw
      · exact hgo w hw
      · exact hgo' w hw

/-- The events of content blocks: each block is a stream of its own, the first
    one from the buffer as it is. -/
theorem processEvents_blocks (ha : env.provider = .anthropic) :
    ∀ (es : List SseEvent) (b : ReplacementBuffer),
    (∀ e ∈ es, endsResponse env e = false) →
    (∀ e ∈ es, isBlockStop env.provider e = true →
      extractTextDelta env.json env.provider e.data = none) →
    (v.isEmpty = false → b.Fresh v) →
    ∃ b' block blocks, es.splitOnP (isBlockStop env.provider) = block :: blocks ∧
      (processEvents env.json env.provider v es (some b)).2.1 = some b' ∧
      textOf env.json env.provider (processEvents env.json env.provider v es (some b)).1 ++
          (b'.flushRemaining v).1 =
        ReplacementBuffer.finish v b (deltasOf env.json env.provider block) ++
          (blocks.map fun block =>
            ReplacementBuffer.stream v (deltasOf env.json env.provider block)).flatten ∧
      ∀ w ∈ (processEvents env.json env.provider v es (some b)).1, goesOn env w = true := by
  intro es
  induction es with
  | nil =>
      intro b _ _ _
      refine ⟨b, [], [], List.splitOnP_nil, rfl, ?_, fun w hw => absurd hw List.not_mem_nil⟩
      exact (List.append_nil _).symm
  | cons e es ih =>
      intro b hend hsilent hfresh
      have he := hend e List.mem_cons_self
      have hend' : ∀ x ∈ es, endsResponse env x = false :=
        fun x hx => hend x (List.mem_cons_of_mem _ hx)
      have hsilent' := fun x hx => hsilent x (List.mem_cons_of_mem e hx)
      cases hstop : isBlockStop env.provider e with
      | true =>
          -- A block stop has no text of its own: the buffer is flushed in front of it,
          -- and the blocks behind it start from a fresh one.
          have hnone := hsilent e List.mem_cons_self hstop
          rcases flushRepBufRemainingAsChunk_spec (v := v) hJ ha b with ⟨hflush, htext, hgo⟩
          rcases forwardEvent_spec (v := v) hJ (b.flushRemaining v).2 e he with
            ⟨hbuf, hquiet, hgo'⟩
          rw [hnone, stepDelta] at hbuf hquiet
          have hfresh' : v.isEmpty = false → (b.flushRemaining v).2.Fresh v := by
            unfold ReplacementBuffer.flushRemaining
            split
            · exact hfresh
            · exact hfresh
          rcases ih (b.flushRemaining v).2 hend' hsilent' hfresh' with
            ⟨b', block, blocks, hsplit, hb', hrest, hgo''⟩
          refine ⟨b', [], block :: blocks, ?_, ?_⟩
          · rw [List.splitOnP_cons_eq_if_modifyHead, if_pos hstop, hsplit]
          · rw [ReplacementBuffer.finish_flushed b hfresh] at hrest
            rw [processEvents_cons _ _ _ he, processEvent_blockStop _ _ he hstop]
            simp only [hflush, hbuf, textOf_append, htext, hquiet, List.append_nil, hb', true_and]
            refine ⟨?_, ?_⟩
            · rw [List.append_assoc, hrest]
              rfl
            · intro w hw
              simp only [List.mem_append] at hw
              rcases hw with (hw | hw) | hw
              · exact hgo w hw
              · exact hgo' w hw
              · exact hgo'' w hw
      | false =>
          -- Any other event joins the block that the rest starts with.
          rcases forwardEvent_spec (v := v) hJ b e he with ⟨hbuf, htext, hgo⟩
          rcases ih (stepDelta v b (extractTextDelta env.json env.provider e.data)).2 hend'
            hsilent' (stepDelta_fresh hfresh _) with ⟨b', block, blocks, hsplit, hb', hrest, hgo'⟩
          refine ⟨b', e :: block, blocks, ?_, ?_⟩
          · rw [List.splitOnP_cons_eq_if_modifyHead, if_neg (by rw [hstop]; exact Bool.false_ne_true),
              hsplit, List.modifyHead_cons]
          · rw [processEvents_cons _ _ _ he, processEvent_forward _ _ he hstop]
            simp only [hbuf, textOf_append, htext, hb', true_and, ReplacementBuffer.finish,
              processDeltas_cons, List.append_assoc] at hrest ⊢
            refine ⟨by rw [hrest], ?_⟩
            intro w hw
            rcases List.mem_append.mp hw with hw | hw
            · exact hgo w hw
            · exact hgo' w hw

end Events

end PrivacyClaw
