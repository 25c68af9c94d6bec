import PrivacyClaw.Core.Inject
import PrivacyClaw.Theory.Chaining
import PrivacyClaw.Theory.Coverage
import PrivacyClaw.Theory.Deltas
import PrivacyClaw.Theory.Exclusion
import PrivacyClaw.Theory.RoundTrip

/-!
# Rewritten Bodies

What replace mode may change in a request body. The pipeline writes back into the
places its texts were collected from, and the system instruction goes into one
place of its own; `Reworded` and `Instructed` are the two relations between a
value and what these steps leave of it. In both the messages keep their number
and order, and every field but the ones named keeps its value.

A body without messages takes another way through both steps. It is not
rewritten, but the instruction may still be added to it.

## Main definitions

* `RewordedPart`, `RewordedMessage`, `Reworded`: Another text in the places texts
  are collected from.
* `Instructed`: The system instruction in its place.
* `PiiPipeline.processValue`: The pipeline on parsed values.

## Theorems

* `writeBack_reworded`: Writing a collected text back.
* `processValue_reworded`: What the pipeline makes of a body.
* `injectSystemInstruction_instructed`: What the instruction does.
-/

namespace PrivacyClaw

namespace Value

theorem lookupField_insertField (key : Str) (v : Value) (fields : List (Str × Value)) :
    lookupField key (insertField key v fields) = some v := by
  induction fields with
  | nil => simp only [insertField, lookupField, if_true]
  | cons f fields ih =>
    rcases f with ⟨k, w⟩
    by_cases hk : k = key
    · simp only [insertField, hk, if_true, lookupField]
    · by_cases hlt : key < k
      · simp only [insertField, hk, if_false, hlt, if_true, lookupField]
      · simp only [insertField, hk, if_false, hlt, lookupField, ih]

theorem lookupField_insertField_ne (key other : Str) (v : Value) (fields : List (Str × Value))
    (hne : other ≠ key) : lookupField other (insertField key v fields) =
      lookupField other fields := by
  induction fields with
  | nil => simp only [insertField, lookupField, Ne.symm hne, if_false]
  | cons f fields ih =>
    rcases f with ⟨k, w⟩
    by_cases hk : k = key
    · simp only [insertField, hk, if_true, lookupField, Ne.symm hne, if_false]
    · by_cases hlt : key < k
      · simp only [insertField, hk, if_false, hlt, if_true, lookupField, Ne.symm hne]
      · simp only [insertField, hk, if_false, hlt, lookupField, ih]

/-- The second of two insertions stands. -/
theorem insertField_insertField (key : Str) (v w : Value) (fields : List (Str × Value)) :
    insertField key w (insertField key v fields) = insertField key w fields := by
  induction fields with
  | nil => simp only [insertField, if_true]
  | cons f fields ih =>
    rcases f with ⟨k, x⟩
    by_cases hk : k = key
    · simp only [insertField, hk, if_true]
    · by_cases hlt : key < k
      · simp only [insertField, hk, if_false, hlt, if_true]
      · simp only [insertField, hk, if_false, hlt, ih]

/-- The second of two assignments stands. -/
theorem modifyField_modifyField (key : Str) (v w : Value) (fields : List (Str × Value)) :
    modifyField key (fun _ => w) (modifyField key (fun _ => v) fields) =
      modifyField key (fun _ => w) fields := by
  induction fields with
  | nil => rfl
  | cons f fields ih =>
    rcases f with ⟨k, x⟩
    by_cases hk : k = key
    · simp only [modifyField, hk, if_true]
    · simp only [modifyField, hk, if_false, ih]

end Value

/-- A part of a message content, and the same with another text if it is a text
    part. -/
inductive RewordedPart : Value → Value → Prop
  | same (part : Value) : RewordedPart part part
  | text (fields : List (Str × Value)) (s : Str) (h : (textPart (.object fields)).isSome) :
      RewordedPart (.object fields) (.object (Value.insertField (lit "text") (.string s) fields))

/-- A message, and the same with another text for its content, or with other
    texts in the parts of it. -/
inductive RewordedMessage : Value → Value → Prop
  | same (msg : Value) : RewordedMessage msg msg
  | content (fields : List (Str × Value)) (old new : Str)
      (h : Value.lookupField (lit "content") fields = some (.string old)) :
      RewordedMessage (.object fields)
        (.object (Value.modifyField (lit "content") (fun _ => .string new) fields))
  | parts (fields : List (Str × Value)) (old new : List Value)
      (h : Value.lookupField (lit "content") fields = some (.array old))
      (hparts : List.Forall₂ RewordedPart old new) :
      RewordedMessage (.object fields)
        (.object (Value.modifyField (lit "content") (fun _ => .array new) fields))

/-- A body, and the same with other texts in its messages, which stand in `field`. -/
inductive Reworded (field : Str) : Value → Value → Prop
  | same (value : Value) : Reworded field value value
  | messages (fields : List (Str × Value)) (old new : List Value)
      (h : Value.lookupField field fields = some (.array old))
      (hmsgs : List.Forall₂ RewordedMessage old new) :
      Reworded field (.object fields)
        (.object (Value.modifyField field (fun _ => .array new) fields))

/-- A body, and what the system instruction may make of it: for Anthropic another
    top-level `system` text, for OpenAI another text in the first system message,
    or a system message at the front where there is none. -/
inductive Instructed : Provider → Value → Value → Prop
  | same (provider : Provider) (value : Value) : Instructed provider value value
  | systemField (fields : List (Str × Value)) (s : Str) :
      Instructed .anthropic (.object fields)
        (.object (Value.insertField (lit "system") (.string s) fields))
  | systemMessage (fields : List (Str × Value)) (msgs : List Value) (i : Nat)
      (msg : List (Str × Value)) (old new : Str)
      (h : Value.lookupField (lit "messages") fields = some (.array msgs))
      (hfirst : msgs.findIdx? isSystemMessage = some i) (hmsg : msgs[i]? = some (.object msg))
      (hold : Value.lookupField (lit "content") msg = some (.string old)) :
      Instructed .openAi (.object fields)
        (.object (Value.modifyField (lit "messages") (fun _ => .array (msgs.set i
          (.object (Value.insertField (lit "content") (.string new) msg)))) fields))
  | newMessage (fields : List (Str × Value)) (msgs : List Value)
      (h : Value.lookupField (lit "messages") fields = some (.array msgs))
      (hnone : msgs.findIdx? isSystemMessage = none) :
      Instructed .openAi (.object fields) (.object (Value.modifyField (lit "messages")
        (fun _ => .array (PrivacyClaw.systemMessage :: msgs)) fields))

/-- The place of a collected text in its message. -/
def InMessage (msg : Value) (partIdx : Option Nat) : Prop :=
  (partIdx = none ∧ ∃ s, msg.get (lit "content") = some (.string s)) ∨
    ∃ pi parts part, partIdx = some pi ∧ msg.get (lit "content") = some (.array parts) ∧
      parts[pi]? = some part ∧ (textPart part).isSome

theorem mem_collectMessage (i : Nat) (msg : Value) (e : MessageTextEntry)
    (he : e ∈ collectMessage i msg) : e.msgIdx = i ∧ InMessage msg e.partIdx := by
  refine ⟨collectMessage_msgIdx msg i e he, ?_⟩
  unfold collectMessage at he
  cases hc : msg.get (lit "content") with
  | none => simp only [hc, List.not_mem_nil] at he
  | some content =>
    cases content with
    | string s =>
      simp only [hc, Value.asStr, List.mem_singleton] at he
      exact Or.inl ⟨by rw [he], s, hc⟩
    | array parts =>
      simp only [hc, Value.asStr, Value.asArray, List.mem_filterMap, Option.map_eq_some_iff] at he
      rcases he with ⟨⟨part, pi⟩, hmem, s, hs, rfl⟩
      exact Or.inr ⟨pi, parts, part, rfl, hc, List.mk_mem_zipIdx_iff_getElem?.mp hmem,
        by rw [hs]; rfl⟩
    | _ => simp only [hc, Value.asStr, Value.asArray, List.not_mem_nil] at he

theorem mem_collectMessageTexts (value : Value) (field : Str) (e : MessageTextEntry)
    (he : e ∈ collectMessageTexts value field) :
    ∃ msgs msg, value.getArray field = some msgs ∧ msgs[e.msgIdx]? = some msg ∧
      InMessage msg e.partIdx := by
  unfold collectMessageTexts at he
  cases hm : value.getArray field with
  | none => simp only [hm, List.not_mem_nil] at he
  | some msgs =>
    simp only [hm] at he
    rcases (mem_zipIdx_flatMap _ _ _).mp he with ⟨i, msg, hi, he⟩
    rcases mem_collectMessage i msg e he with ⟨rfl, hin⟩
    exact ⟨msgs, msg, rfl, hi, hin⟩

/-- A text part that gets another text is still the part it was. -/
theorem RewordedPart.text_set {part fields : List (Str × Value)} {s : Str}
    (h : RewordedPart (.object part) (.object fields))
    (ht : (textPart (.object part)).isSome) :
    RewordedPart (.object part) (.object (Value.insertField (lit "text") (.string s) fields)) := by
  cases h with
  | same => exact .text part s ht
  | text _ old _ =>
    rw [Value.insertField_insertField]
    exact .text part s ht

/-- One message of a list of related ones may go on changing. -/
theorem forall₂_set {α : Type} {r : α → α → Prop} : ∀ {xs ys : List α} {i : Nat} {x y : α},
    List.Forall₂ r xs ys → xs[i]? = some x → r x y → List.Forall₂ r xs (ys.set i y) := by
  intro xs ys i x y h
  induction h generalizing i with
  | nil =>
    intro hx
    exact absurd hx (by simp only [List.getElem?_nil, reduceCtorEq, not_false_eq_true])
  | cons hr hrest ih =>
    intro hx hxy
    cases i with
    | zero =>
      rw [List.getElem?_cons_zero, Option.some.injEq] at hx
      subst hx
      exact .cons hxy hrest
    | succ i => exact .cons hr (ih hx hxy)

theorem forall₂_getElem? {α : Type} {r : α → α → Prop} : ∀ {xs ys : List α} {i : Nat} {x : α},
    List.Forall₂ r xs ys → xs[i]? = some x → ∃ y, ys[i]? = some y ∧ r x y := by
  intro xs ys i x h
  induction h generalizing i with
  | nil =>
    intro hx
    exact absurd hx (by simp only [List.getElem?_nil, reduceCtorEq, not_false_eq_true])
  | cons hr hrest ih =>
    intro hx
    cases i with
    | zero =>
      rw [List.getElem?_cons_zero, Option.some.injEq] at hx
      subst hx
      exact ⟨_, rfl, hr⟩
    | succ i => exact ih hx

/-- What a write-back does: it exchanges the content of one message, by the text
    or by the parts with one text exchanged. -/
theorem writeBack_cases (entry : MessageTextEntry) (finalText : Str) (msgs msgs' : List Value)
    (hrun : writeBack entry finalText msgs = some msgs') :
    ∃ fields content, msgs[entry.msgIdx]? = some (.object fields) ∧
      msgs' = msgs.set entry.msgIdx
        (.object (Value.modifyField (lit "content") (fun _ => content) fields)) ∧
      (entry.partIdx = none ∧ content = .string finalText ∨
        ∃ pi parts part, entry.partIdx = some pi ∧
          Value.lookupField (lit "content") fields = some (.array parts) ∧
          parts[pi]? = some (.object part) ∧
          content = .array (parts.set pi
            (.object (Value.insertField (lit "text") (.string finalText) part)))) := by
  unfold writeBack at hrun
  split at hrun
  -- The content is a text, or an array of which one part is an object; in the
  -- other cases nothing is written back.
  · rename_i fields hget
    split at hrun
    · exact absurd hrun.symm (Option.some_ne_none _)
    · rename_i hpart
      rw [Option.some.injEq] at hrun
      exact ⟨fields, _, hget, hrun.symm, Or.inl ⟨hpart, rfl⟩⟩
    · rename_i parts pi hcontent hpart
      split at hrun
      · rename_i part hp
        rw [Option.some.injEq] at hrun
        exact ⟨fields, _, hget, hrun.symm, Or.inr ⟨pi, parts, part, hpart, hcontent, hp, rfl⟩⟩
      · exact absurd hrun.symm (Option.some_ne_none _)
    · exact absurd hrun.symm (Option.some_ne_none _)
  · exact absurd hrun.symm (Option.some_ne_none _)

/-- A content that was exchanged once is exchanged again. -/
theorem RewordedMessage.exchange {msg : Value} {fields : List (Str × Value)}
    (h : RewordedMessage msg (.object fields)) :
    ∃ original, msg = .object original ∧ ∀ content,
      Value.modifyField (lit "content") (fun _ => content) fields =
        Value.modifyField (lit "content") (fun _ => content) original := by
  cases h with
  | same => exact ⟨fields, rfl, fun _ => rfl⟩
  | content original old new hc =>
    exact ⟨original, rfl, fun _ => Value.modifyField_modifyField _ _ _ _⟩
  | parts original old new hc hparts =>
    exact ⟨original, rfl, fun _ => Value.modifyField_modifyField _ _ _ _⟩

/-- The parts of a message that was reworded are the parts it had, reworded. -/
theorem RewordedMessage.array {original fields : List (Str × Value)} {old now : List Value}
    (h : RewordedMessage (.object original) (.object fields))
    (hold : Value.lookupField (lit "content") original = some (.array old))
    (hnow : Value.lookupField (lit "content") fields = some (.array now)) :
    List.Forall₂ RewordedPart old now := by
  cases h with
  | same =>
    rw [hold, Option.some.injEq, Value.array.injEq] at hnow
    rw [hnow]
    exact List.forall₂_same.mpr fun part _ => .same part
  | content _ t _ hc =>
    rw [hold, Option.some.injEq] at hc
    exact absurd hc Value.noConfusion
  | parts _ parts new hc hparts =>
    rw [hold, Option.some.injEq, Value.array.injEq] at hc
    rw [Value.lookupField_modifyField, hold, Option.map_some, Option.some.injEq,
      Value.array.injEq] at hnow
    rw [hc, ← hnow]
    exact hparts

/-- Writing a collected text back keeps everything else. -/
theorem writeBack_reworded (entry : MessageTextEntry) (finalText : Str)
    (original msgs msgs' : List Value) (msg : Value)
    (hrel : List.Forall₂ RewordedMessage original msgs)
    (hmsg : original[entry.msgIdx]? = some msg) (hin : InMessage msg entry.partIdx)
    (hrun : writeBack entry finalText msgs = some msgs') :
    List.Forall₂ RewordedMessage original msgs' := by
  rcases writeBack_cases entry finalText msgs msgs' hrun with ⟨fields, content, hget, rfl, hcontent⟩
  rcases forall₂_getElem? hrel hmsg with ⟨now, hnow, hr⟩
  rw [hget, Option.some.injEq] at hnow
  subst hnow
  rcases hr.exchange with ⟨fields', rfl, hexchange⟩
  refine forall₂_set hrel hmsg ?_
  rw [hexchange]
  -- the text goes back to the place it was read from: the content, or a part of it
  rcases hin with ⟨hnone, s, hs⟩ | ⟨pi, parts, part, hpi, hparts, hpart, htext⟩
  · rcases hcontent with ⟨-, rfl⟩ | ⟨_, _, _, hsome, -⟩
    · exact .content fields' s finalText hs
    · rw [hnone] at hsome
      exact absurd hsome.symm (Option.some_ne_none _)
  · rcases hcontent with ⟨hnone, -⟩ | ⟨pi', parts', part', hpi', hparts', hpart', rfl⟩
    · rw [hpi] at hnone
      exact absurd hnone (Option.some_ne_none _)
    · rw [hpi, Option.some.injEq] at hpi'
      subst hpi'
      have hall := hr.array hparts hparts'
      rcases forall₂_getElem? hall hpart with ⟨now, hnow, hrpart⟩
      rw [hpart', Option.some.injEq] at hnow
      subst hnow
      refine .parts fields' parts _ hparts (forall₂_set hall hpart ?_)
      cases part with
      | object part => exact hrpart.text_set htext
      | _ => simp only [textPart, Value.getStr, Value.get, Option.bind_none, ite_self,
          Option.isSome_none, Bool.false_eq_true, reduceCtorEq] at htext

section Pipeline

variable (R : Rand) (C : Chrono) (h : Hashes)

/-- Phase 3 for one text keeps everything but that text. -/
theorem phase3Step_reworded (convId : Str) (base : Nat) (locale : Locale)
    (entry : MessageTextEntry) (result : Option EntryResult) (s s' : Phase3State)
    (original : List Value) (msg : Value)
    (hrel : List.Forall₂ RewordedMessage original s.msgs)
    (hmsg : original[entry.msgIdx]? = some msg) (hin : InMessage msg entry.partIdx)
    (hrun : phase3Step R C h convId base locale entry result s = some s') :
    List.Forall₂ RewordedMessage original s'.msgs := by
  cases result with
  | none =>
    rw [phase3Step, Option.some.injEq] at hrun
    rw [← hrun]
    exact hrel
  | some r =>
    rw [phase3Step, Option.bind_eq_bind, Option.bind_eq_some_iff] at hrun
    rcases hrun with ⟨⟨out, dets, v⟩, -, hrun⟩
    dsimp only at hrun
    split at hrun
    · rw [Option.some.injEq] at hrun
      rw [← hrun]
      exact hrel
    · cases hw : writeBack entry out s.msgs with
      | none =>
        -- the place is not there: the messages stay as they are
        rw [hw, Option.some.injEq] at hrun
        rw [← hrun]
        exact hrel
      | some msgs =>
        rw [hw, Option.some.injEq] at hrun
        rw [← hrun]
        exact writeBack_reworded entry out original s.msgs msgs msg hrel hmsg hin hw

/-- Phase 3 keeps everything but the texts it is given. -/
theorem phase3_reworded (convId : Str) (base : Nat) (locale : Locale) (original : List Value) :
    ∀ (work : List (MessageTextEntry × Option EntryResult)) (s s' : Phase3State),
    (∀ w ∈ work, ∃ msg, original[w.1.msgIdx]? = some msg ∧ InMessage msg w.1.partIdx) →
    List.Forall₂ RewordedMessage original s.msgs →
    phase3 R C h convId base locale work s = some s' →
    List.Forall₂ RewordedMessage original s'.msgs := by
  intro work
  induction work with
  | nil =>
    intro s s' _ hrel hrun
    rw [phase3, Option.some.injEq] at hrun
    rw [← hrun]
    exact hrel
  | cons w work ih =>
    intro s s' hwork hrel hrun
    rcases w with ⟨entry, result⟩
    rw [phase3, Option.bind_eq_bind, Option.bind_eq_some_iff] at hrun
    rcases hrun with ⟨s₁, hstep, hrun⟩
    rcases hwork _ List.mem_cons_self with ⟨msg, hmsg, hin⟩
    exact ih s₁ s' (fun w hw => hwork w (List.mem_cons_of_mem _ hw))
      (phase3Step_reworded R C h convId base locale entry result s s₁ original msg hrel hmsg hin
        hstep) hrun

/-- `process_request_body_async` on the parsed body, before it is printed. -/
def PiiPipeline.processValue (p : PiiPipeline) (value : Value) (reads : Nat → Nat) (v : PiiVault)
    (provider : Provider) (locale : Locale) :
    Option (Option (Value × List PiiDetection) × PiiVault) :=
  let field := provider.messagesField
  let entries := collectMessageTexts value field
  if entries.isEmpty then some (none, v)
  else do
    let results ← p.phase2All h v.conversationId reads locale entries 0
    if results.all Option.isNone then some (none, v)
    else match value, value.getArray field with
      | .object fields, some msgs => do
        let s ← phase3 R C h v.conversationId v.mappingCount locale (entries.zip results)
          ⟨v, msgs, [], false⟩
        if s.anyReplaced then
          some (some (.object (Value.modifyField field (fun _ => .array s.msgs) fields),
            s.detections), s.vault)
        else some (none, s.vault)
      | _, _ => some (none, v)

variable (p : PiiPipeline) (J : SerdeJson) (body : List UInt8) (value : Value) (reads : Nat → Nat)
  (v : PiiVault) (provider : Provider) (locale : Locale)

/-- The pipeline on bytes is the pipeline on the value, printed. -/
theorem processRequestBodyAsync_eq (hval : J.fromSlice body = some value) :
    p.processRequestBodyAsync R C h J body reads v provider locale =
      (p.processValue R C h value reads v provider locale).map fun r =>
        (r.1.map fun x => (J.toStr x.1, x.2), r.2) := by
  unfold PiiPipeline.processRequestBodyAsync PiiPipeline.processValue
  rw [hval]
  dsimp only
  -- both sides stop at the same points, and go on with the same state
  by_cases he : (collectMessageTexts value provider.messagesField).isEmpty = true
  · rw [if_pos he, if_pos he]
    rfl
  rw [if_neg he, if_neg he]
  cases p.phase2All h v.conversationId reads locale
      (collectMessageTexts value provider.messagesField) 0 with
  | none => rfl
  | some results =>
    simp only [Option.bind_eq_bind, Option.bind_some]
    by_cases hall : results.all Option.isNone = true
    · rw [if_pos hall, if_pos hall]
      rfl
    rw [if_neg hall, if_neg hall]
    cases value with
    | object fields =>
      cases (Value.object fields).getArray provider.messagesField with
      | none => rfl
      | some msgs =>
        dsimp only
        cases phase3 R C h v.conversationId v.mappingCount locale
            ((collectMessageTexts (.object fields) provider.messagesField).zip results)
            ⟨v, msgs, [], false⟩ with
        | none => rfl
        | some s =>
          simp only [Option.bind_some]
          split <;> rfl
    | _ => rfl

/-- A messages array is the value of its field. -/
theorem lookupField_of_getArray {fields : List (Str × Value)} {field : Str} {msgs : List Value}
    (hmsgs : (Value.object fields).getArray field = some msgs) :
    Value.lookupField field fields = some (.array msgs) := by
  simp only [Value.getArray, Value.get, Option.bind_eq_some_iff] at hmsgs
  rcases hmsgs with ⟨w, hw, harr⟩
  cases w with
  | array items =>
    rw [Value.asArray, Option.some.injEq] at harr
    rw [hw, harr]
  | _ => simp only [Value.asArray, reduceCtorEq] at harr

theorem lookupField_of_getStr {fields : List (Str × Value)} {field s : Str}
    (hs : (Value.object fields).getStr field = some s) :
    Value.lookupField field fields = some (.string s) := by
  simp only [Value.getStr, Value.get, Option.bind_eq_some_iff] at hs
  rcases hs with ⟨w, hw, hstr⟩
  cases w with
  | string t =>
    rw [Value.asStr, Option.some.injEq] at hstr
    rw [hw, hstr]
  | _ => simp only [Value.asStr, reduceCtorEq] at hstr

/-- A body that the pipeline changed: Phase 3 ran over the collected texts. -/
theorem processValue_cases (value' : Value) (dets : List PiiDetection) (v' : PiiVault)
    (hrun : p.processValue R C h value reads v provider locale = some (some (value', dets), v')) :
    ∃ fields msgs results s, value = .object fields ∧
      Value.lookupField provider.messagesField fields = some (.array msgs) ∧
      phase3 R C h v.conversationId v.mappingCount locale
        ((collectMessageTexts value provider.messagesField).zip results) ⟨v, msgs, [], false⟩ =
          some s ∧
      value' = .object (Value.modifyField provider.messagesField (fun _ => .array s.msgs) fields) ∧
      dets = s.detections ∧ v' = s.vault := by
  unfold PiiPipeline.processValue at hrun
  dsimp only at hrun
  -- without a text, or without anything to replace, the body is not changed
  by_cases he : (collectMessageTexts value provider.messagesField).isEmpty = true
  · simp only [he, if_true, Option.some.injEq, Prod.mk.injEq, reduceCtorEq, false_and] at hrun
  rw [if_neg he, Option.bind_eq_bind, Option.bind_eq_some_iff] at hrun
  rcases hrun with ⟨results, -, hrun⟩
  by_cases hall : results.all Option.isNone = true
  · simp only [hall, if_true, Option.some.injEq, Prod.mk.injEq, reduceCtorEq, false_and] at hrun
  rw [if_neg hall] at hrun
  cases value with
  | object fields =>
    cases hmsgs : (Value.object fields).getArray provider.messagesField with
    | none => simp only [hmsgs, Option.some.injEq, Prod.mk.injEq, reduceCtorEq, false_and] at hrun
    | some msgs =>
      rw [hmsgs, Option.bind_eq_bind, Option.bind_eq_some_iff] at hrun
      rcases hrun with ⟨s, hphase3, hrun⟩
      refine ⟨fields, msgs, results, s, rfl, lookupField_of_getArray hmsgs, hphase3, ?_⟩
      cases hany : s.anyReplaced with
      | false =>
        simp only [hany, Bool.false_eq_true, if_false, Option.some.injEq, Prod.mk.injEq,
          reduceCtorEq, false_and] at hrun
      | true =>
        simp only [hany, if_true, Option.some.injEq, Prod.mk.injEq] at hrun
        exact ⟨hrun.1.1.symm, hrun.1.2.symm, hrun.2.symm⟩
  | _ => simp only [Option.some.injEq, Prod.mk.injEq, reduceCtorEq, false_and] at hrun

/-- The pipeline changes nothing but the collected texts. -/
theorem processValue_reworded (value' : Value) (dets : List PiiDetection) (v' : PiiVault)
    (hrun : p.processValue R C h value reads v provider locale = some (some (value', dets), v')) :
    Reworded provider.messagesField value value' := by
  rcases processValue_cases R C h p value reads v provider locale value' dets v' hrun with
    ⟨fields, msgs, results, s, rfl, hlookup, hphase3, rfl, -, -⟩
  refine .messages fields msgs s.msgs hlookup ?_
  refine phase3_reworded R C h _ _ locale msgs _ _ s ?_
    (List.forall₂_same.mpr fun msg _ => .same msg) hphase3
  rintro ⟨entry, result⟩ hw
  rcases mem_collectMessageTexts _ _ entry (List.of_mem_zip hw).1 with
    ⟨msgs', msg, hmsgs', hmsg, hin⟩
  have hsame := lookupField_of_getArray hmsgs'
  rw [hlookup, Option.some.injEq, Value.array.injEq] at hsame
  exact ⟨msg, by rw [hsame]; exact hmsg, hin⟩

end Pipeline

/-- The instruction changes nothing but its own place. -/
theorem injectSystemInstruction_instructed (value value' : Value) (provider : Provider)
    (hrun : injectSystemInstruction value provider = some (some value'))
    (hobj : ∃ fields, value = .object fields) : Instructed provider value value' := by
  rcases hobj with ⟨fields, rfl⟩
  cases provider with
  | anthropic =>
    unfold injectSystemInstruction at hrun
    dsimp only at hrun
    -- no system prompt, `null`, a text, or something else, which is left alone
    split at hrun
    · simp only [Value.assignKey, Option.map_some, Option.some.injEq] at hrun
      rw [← hrun]
      exact .systemField fields _
    · simp only [Value.assignKey, Option.map_some, Option.some.injEq] at hrun
      rw [← hrun]
      exact .systemField fields _
    · simp only [Value.assignKey, Option.map_some, Option.some.injEq] at hrun
      rw [← hrun]
      exact .systemField fields _
    · simp only [Option.some.injEq, reduceCtorEq] at hrun
  | openAi =>
    unfold injectSystemInstruction at hrun
    cases hmsgs : (Value.object fields).getArray (lit "messages") with
    | none => simp only [hmsgs, Option.some.injEq, reduceCtorEq] at hrun
    | some msgs =>
      simp only [hmsgs, Option.some.injEq, Option.map_eq_some_iff] at hrun
      rcases hrun with ⟨msgs', hinject, rfl⟩
      have hlookup := lookupField_of_getArray hmsgs
      unfold injectSystemMessage at hinject
      -- a new message in front, or the first system message that is there
      cases hfirst : msgs.findIdx? isSystemMessage with
      | none =>
        rw [hfirst, Option.some.injEq] at hinject
        rw [← hinject]
        exact .newMessage fields msgs hlookup hfirst
      | some i =>
        rw [hfirst] at hinject
        dsimp only at hinject
        cases hmsg : msgs[i]? with
        | none => simp only [hmsg, reduceCtorEq] at hinject
        | some msg =>
          cases msg with
          | object msg =>
            simp only [hmsg] at hinject
            cases hcontent : (Value.object msg).getStr (lit "content") with
            | none => simp only [hcontent, reduceCtorEq] at hinject
            | some content =>
              simp only [hcontent, Option.some.injEq] at hinject
              rw [← hinject]
              exact .systemMessage fields msgs i msg content _ hlookup hfirst hmsg
                (lookupField_of_getStr hcontent)
          | _ => simp only [hmsg, reduceCtorEq] at hinject
  | google => simp only [injectSystemInstruction, Option.some.injEq, reduceCtorEq] at hrun
  | unknown => simp only [injectSystemInstruction, Option.some.injEq, reduceCtorEq] at hrun

section Returns

variable (R : Rand) (C : Chrono) (h : Hashes) (p : PiiPipeline) (convId : Str) (base : Nat)
  (locale : Locale)

/-- The sidecar's reply to a text has valid spans, and so has what the detectors
    find in the text that Stage 1 leaves. -/
def SpansValid (call count : Nat) (text : Str) : Prop :=
  (∀ slm reps, p.slm = some slm → slm.replace call text convId count = some reps →
    ValidReplacements text reps) ∧
  ∀ working spans, p.runStage1 h call convId count text = some (working, spans) →
    ∀ s ∈ p.detectSpans call working locale, s.Aligned working ∧ Generates R C working locale s

/-- The result of Phase 2 for a text can be carried out. -/
def EntryResult.Fits (r : EntryResult) : Prop :=
  ∀ s ∈ r.stage2Spans, s.Aligned r.replacedText ∧ Generates R C r.replacedText locale s

variable {R C h p convId locale}

theorem phase2_returns {call count : Nat} {text : Str}
    (hv : SpansValid R C h p convId locale call count text) :
    ∃ result, p.phase2 h call convId count locale text = some result ∧
      ∀ r, result = some r → r.Fits R C locale := by
  have hstage1 : ∃ working spans, p.runStage1 h call convId count text = some (working, spans) := by
    unfold PiiPipeline.runStage1
    cases hslm : p.slm with
    | none => exact ⟨_, _, rfl⟩
    | some slm =>
      cases hreps : slm.replace call text convId count with
      | none => exact ⟨text, [], by simp only [hreps]⟩
      | some reps =>
        by_cases hempty : reps.isEmpty = true
        · exact ⟨text, [], by simp only [hreps, hempty, if_true]⟩
        · have hrun : ∃ x, stage1 h convId count text reps = some x :=
            ⟨_, stage1_valid h convId count text reps (hv.1 slm reps hslm hreps)⟩
          rcases hrun with ⟨⟨working, spans⟩, hrun⟩
          refine ⟨working, spans, ?_⟩
          simp only [hreps, hempty, Bool.false_eq_true, if_false]
          exact hrun
  rcases hstage1 with ⟨working, spans, hrun⟩
  simp only [PiiPipeline.phase2, hrun, Option.bind_eq_bind, Option.bind_some]
  split
  · exact ⟨none, rfl, fun r hr => absurd hr.symm (Option.some_ne_none r)⟩
  · refine ⟨_, rfl, ?_⟩
    intro r hr
    rw [Option.some.injEq] at hr
    subst hr
    intro s hs
    refine hv.2 working spans hrun s ?_
    -- exclusion zones only take spans away
    unfold detectSpansWithExclusions at hs
    split at hs
    · exact hs
    · exact (List.mem_filter.mp hs).1

theorem phase2All_returns (reads : Nat → Nat) : ∀ (entries : List MessageTextEntry) (i : Nat),
    (∀ k entry, entries[k]? = some entry →
      SpansValid R C h p convId locale (i + k) (reads (i + k)) entry.text) →
    ∃ results, p.phase2All h convId reads locale entries i = some results ∧
      ∀ result ∈ results, ∀ r, result = some r → r.Fits R C locale := by
  intro entries
  induction entries with
  | nil => exact fun _ _ => ⟨[], rfl, fun _ hr => absurd hr List.not_mem_nil⟩
  | cons entry entries ih =>
    intro i hall
    rcases phase2_returns (hall 0 entry rfl) with ⟨result, hresult, hfits⟩
    rcases ih (i + 1) (fun k e he => by
      have hk := hall (k + 1) e he
      rwa [show i + (k + 1) = i + 1 + k by omega] at hk) with ⟨results, hresults, hrest⟩
    refine ⟨result :: results, ?_, List.forall_mem_cons.mpr ⟨hfits, hrest⟩⟩
    rw [Nat.add_zero] at hresult
    simp only [PiiPipeline.phase2All, hresult, hresults, Option.bind_eq_bind, Option.bind_some]

theorem phase3Entry_returns (r : EntryResult) (hr : r.Fits R C locale) (v : PiiVault) :
    ∃ out dets v', phase3Entry R C h convId base locale r v = some (out, dets, v') := by
  rcases replaceSpansFrom_returns R C h r.replacedText locale convId
    (base + r.stage1Spans.length) r.stage2Spans 0 0 (insertStage1 h convId base r.stage1Spans 0 v)
    hr (Nat.zero_le _) (isCharBoundary_zero _) with ⟨out, replaced, v', hrun⟩
  refine ⟨out, stage1Detections r.stage1Spans ++ replaced.map Replaced.detection, v', ?_⟩
  simp only [phase3Entry, replaceWithSpansXml, hrun, Option.bind_eq_bind, Option.bind_some]

theorem phase3_returns : ∀ (work : List (MessageTextEntry × Option EntryResult))
    (s : Phase3State), (∀ w ∈ work, ∀ r, w.2 = some r → r.Fits R C locale) →
    ∃ s', phase3 R C h convId base locale work s = some s' := by
  intro work
  induction work with
  | nil => exact fun s _ => ⟨s, rfl⟩
  | cons w work ih =>
    intro s hwork
    rcases w with ⟨entry, result⟩
    have hstep : ∃ s₁, phase3Step R C h convId base locale entry result s = some s₁ := by
      cases result with
      | none => exact ⟨s, rfl⟩
      | some r =>
        rcases phase3Entry_returns base r (hwork _ List.mem_cons_self r rfl) s.vault with
          ⟨out, dets, v, hrun⟩
        rw [phase3Step, hrun, Option.bind_eq_bind, Option.bind_some]
        dsimp only
        -- the step returns whether the output is written back or not
        split
        · exact ⟨_, rfl⟩
        · split
          · exact ⟨_, rfl⟩
          · exact ⟨_, rfl⟩
    rcases hstep with ⟨s₁, hs₁⟩
    rcases ih s₁ (fun w hw => hwork w (List.mem_cons_of_mem _ hw)) with ⟨s', hs'⟩
    exact ⟨s', by rw [phase3, hs₁, Option.bind_eq_bind, Option.bind_some, hs']⟩

/-- With valid spans everywhere the pipeline does not panic. -/
theorem processValue_returns (value : Value) (reads : Nat → Nat) (v : PiiVault)
    (provider : Provider)
    (hall : ∀ i entry, (collectMessageTexts value provider.messagesField)[i]? = some entry →
      SpansValid R C h p v.conversationId locale i (reads i) entry.text) :
    ∃ result v', p.processValue R C h value reads v provider locale = some (result, v') := by
  unfold PiiPipeline.processValue
  dsimp only
  -- The three exits before anything is replaced return the body as it is.
  split
  · exact ⟨_, _, rfl⟩
  rcases phase2All_returns reads (collectMessageTexts value provider.messagesField) 0
    (fun k e he => by rw [Nat.zero_add]; exact hall k e he) with ⟨results, hresults, hfits⟩
  rw [hresults, Option.bind_eq_bind, Option.bind_some]
  split
  · exact ⟨_, _, rfl⟩
  cases value with
  | object fields =>
    cases (Value.object fields).getArray provider.messagesField with
    | none => exact ⟨_, _, rfl⟩
    | some msgs =>
      have hphase : ∃ s, phase3 R C h v.conversationId v.mappingCount locale
          ((collectMessageTexts (.object fields) provider.messagesField).zip results)
          ⟨v, msgs, [], false⟩ = some s :=
        phase3_returns v.mappingCount _ _ fun w hw r hr => hfits w.2 (List.of_mem_zip hw).2 r hr
      rcases hphase with ⟨s, hs⟩
      simp only [hs, Option.bind_eq_bind, Option.bind_some]
      split
      · exact ⟨_, _, rfl⟩
      · exact ⟨_, _, rfl⟩
  | _ => exact ⟨_, _, rfl⟩

end Returns

/-- On an object the instruction does not panic. -/
theorem injectSystemInstruction_returns (fields : List (Str × Value)) (provider : Provider) :
    ∃ injected, injectSystemInstruction (.object fields) provider = some injected := by
  cases provider with
  | anthropic =>
    unfold injectSystemInstruction
    dsimp only
    split <;> exact ⟨_, rfl⟩
  | openAi =>
    unfold injectSystemInstruction
    cases (Value.object fields).getArray (lit "messages") with
    | none => exact ⟨_, rfl⟩
    | some msgs => exact ⟨_, rfl⟩
  | google => exact ⟨_, rfl⟩
  | unknown => exact ⟨_, rfl⟩

section Forwarded

variable (R : Rand) (C : Chrono) (h : Hashes) (p : PiiPipeline) (J : SerdeJson)
  (body : List UInt8) (reads : Nat → Nat) (v : PiiVault) (provider : Provider) (locale : Locale)

/-- What is forwarded for a body that parses: the processed value or the client's
    own, with the instruction or without. -/
theorem forwardBody_cases (value : Value) (hval : J.fromSlice body = some value)
    (hJ : ∀ w dets v', p.processValue R C h value reads v provider locale =
      some (some (w, dets), v') → J.fromSlice (J.toStr w) = some w)
    (out : Str) (dets : List PiiDetection) (v' : PiiVault)
    (hrun : p.forwardBody R C h J body reads v provider locale = some (out, dets, v')) :
    ∃ processed working bytes injected,
      p.processValue R C h value reads v provider locale = some (processed, v') ∧
      (processed = none ∧ working = value ∧ bytes = body ∧ dets = [] ∨
        processed = some (working, dets) ∧ bytes = J.toStr working) ∧
      injectSystemInstruction working provider = some injected ∧
      out = (injected.map J.toStr).getD bytes := by
  unfold PiiPipeline.forwardBody at hrun
  rw [processRequestBodyAsync_eq R C h p J body value reads v provider locale hval] at hrun
  cases hproc : p.processValue R C h value reads v provider locale with
  | none => simp only [hproc, Option.map_none, Option.bind_eq_bind, Option.bind_none,
      reduceCtorEq] at hrun
  | some r =>
    rcases r with ⟨processed, w⟩
    simp only [hproc, Option.map_some, Option.bind_eq_bind, Option.bind_some,
      Option.bind_eq_some_iff] at hrun
    rcases hrun with ⟨injected, hinject, hrun⟩
    -- the instruction is put into the client's bytes, or into the printed value, which
    -- is parsed again for it
    cases processed with
    | none =>
      simp only [Option.map_none, Option.getD_none, Option.some.injEq, Prod.mk.injEq]
        at hinject hrun
      rcases hrun with ⟨hout, rfl, rfl⟩
      simp only [injectSystemInstructionIntoBody, hval, Option.map_eq_some_iff] at hinject
      rcases hinject with ⟨injected, hinject, rfl⟩
      exact ⟨none, value, body, injected, rfl, Or.inl ⟨rfl, rfl, rfl, rfl⟩, hinject, hout.symm⟩
    | some x =>
      rcases x with ⟨working, d⟩
      simp only [Option.map_some, Option.getD_some, Option.some.injEq, Prod.mk.injEq]
        at hinject hrun
      rcases hrun with ⟨hout, rfl, rfl⟩
      simp only [injectSystemInstructionIntoBody, hJ working d w hproc, Option.map_eq_some_iff]
        at hinject
      rcases hinject with ⟨injected, hinject, rfl⟩
      exact ⟨some (working, d), working, _, injected, rfl, Or.inr ⟨rfl, rfl⟩, hinject, hout.symm⟩

/-- The body that is forwarded for a JSON object is the client's value, changed in
    collected texts and in the place of the system instruction only. -/
theorem forwardBody_frame (fields : List (Str × Value))
    (hval : J.fromSlice body = some (.object fields))
    (hJ : ∀ w dets v', p.processValue R C h (.object fields) reads v provider locale =
      some (some (w, dets), v') → J.fromSlice (J.toStr w) = some w) :
    ((∀ i entry, (collectMessageTexts (.object fields) provider.messagesField)[i]? = some entry →
        SpansValid R C h p v.conversationId locale i (reads i) entry.text) →
      ∃ out dets v', p.forwardBody R C h J body reads v provider locale = some (out, dets, v')) ∧
    ∀ out dets v', p.forwardBody R C h J body reads v provider locale = some (out, dets, v') →
      ∃ reworded forwarded, Reworded provider.messagesField (.object fields) reworded ∧
        Instructed provider reworded forwarded ∧
        (out = body ∧ forwarded = .object fields ∨ out = J.toStr forwarded) := by
  -- What the pipeline gives is an object again, so the instruction finds its place.
  have hobject : ∀ w dets v', p.processValue R C h (.object fields) reads v provider locale =
      some (some (w, dets), v') → ∃ fs, w = .object fs := by
    intro w dets v' hrun
    rcases processValue_cases R C h p _ reads v provider locale w dets v' hrun with
      ⟨fs, msgs, results, s, -, -, -, rfl, -, -⟩
    exact ⟨_, rfl⟩
  refine ⟨fun hvalid => ?_, fun out dets v' hrun => ?_⟩
  · -- neither the pipeline nor the instruction panics
    rcases processValue_returns (.object fields) reads v provider hvalid with ⟨processed, v', hproc⟩
    unfold PiiPipeline.forwardBody
    rw [processRequestBodyAsync_eq R C h p J body _ reads v provider locale hval, hproc]
    cases processed with
    | none =>
      rcases injectSystemInstruction_returns fields provider with ⟨injected, hinject⟩
      refine ⟨(injected.map J.toStr).getD body, [], v', ?_⟩
      simp only [Option.map_some, Option.map_none, Option.getD_none, Option.bind_eq_bind,
        Option.bind_some, injectSystemInstructionIntoBody, hval, hinject]
    | some x =>
      rcases x with ⟨w, d⟩
      rcases hobject w d v' hproc with ⟨fs, rfl⟩
      rcases injectSystemInstruction_returns fs provider with ⟨injected, hinject⟩
      refine ⟨(injected.map J.toStr).getD (J.toStr (.object fs)), d, v', ?_⟩
      simp only [Option.map_some, Option.getD_some, Option.bind_eq_bind, Option.bind_some,
        injectSystemInstructionIntoBody, hJ _ d v' hproc, hinject]
  · rcases forwardBody_cases R C h p J body reads v provider locale _ hval hJ out dets v' hrun with
      ⟨processed, working, bytes, injected, hproc, hcases, hinject, rfl⟩
    -- Either nothing was replaced, or the bytes are those of the reworded value.
    have hwork : Reworded provider.messagesField (.object fields) working ∧
        ∃ fs, working = .object fs := by
      rcases hcases with ⟨-, rfl, -, -⟩ | ⟨rfl, -⟩
      · exact ⟨.same _, fields, rfl⟩
      · exact ⟨processValue_reworded R C h p _ reads v provider locale working dets v' hproc,
          hobject working dets v' hproc⟩
    cases injected with
    | none =>
      refine ⟨working, working, hwork.1, .same provider working, ?_⟩
      rcases hcases with ⟨-, rfl, rfl, -⟩ | ⟨-, rfl⟩
      · exact Or.inl ⟨rfl, rfl⟩
      · exact Or.inr rfl
    | some forwarded =>
      exact ⟨working, forwarded, hwork.1,
        injectSystemInstruction_instructed working forwarded provider hinject hwork.2, Or.inr rfl⟩

/-- The body is a JSON object with the provider's messages array. -/
def HoldsMessages : Prop :=
  ∃ fields msgs, J.fromSlice body = some (.object fields) ∧
    (Value.object fields).getArray provider.messagesField = some msgs

/-- Without a messages array there is nothing to replace. -/
theorem processRequestBodyAsync_not_chat (hnot : ¬ HoldsMessages J body provider) :
    p.processRequestBodyAsync R C h J body reads v provider locale = some (none, v) := by
  unfold PiiPipeline.processRequestBodyAsync
  cases hval : J.fromSlice body with
  | none => rfl
  | some value =>
    have hnone : value.getArray provider.messagesField = none := by
      cases value with
      | object fields =>
        cases hmsgs : (Value.object fields).getArray provider.messagesField with
        | none => rfl
        | some msgs => exact absurd ⟨fields, msgs, hval, hmsgs⟩ hnot
      | _ => rfl
    simp only [collectMessageTexts, hnone, List.isEmpty_nil, if_true]

/-- What is forwarded is then decided by the instruction alone. -/
theorem forwardBody_not_chat_eq (hnot : ¬ HoldsMessages J body provider) :
    p.forwardBody R C h J body reads v provider locale =
      (injectSystemInstructionIntoBody J body provider).map fun injected =>
        (injected.getD body, [], v) := by
  unfold PiiPipeline.forwardBody
  rw [processRequestBodyAsync_not_chat R C h p J body reads v provider locale hnot]
  simp only [Option.bind_eq_bind, Option.bind_some, Option.getD_none]
  cases injectSystemInstructionIntoBody J body provider <;> rfl

/-- A body that is no chat request is forwarded as it came, unless it is a JSON
    value for Anthropic. An object for Anthropic gets the instruction in its
    `system` field, where that is missing or a text, and is forwarded as it came
    where it is something else. -/
theorem forwardBody_not_chat (hnot : ¬ HoldsMessages J body provider) :
    ((provider ≠ .anthropic ∨ J.fromSlice body = none) →
      p.forwardBody R C h J body reads v provider locale = some (body, [], v)) ∧
    ∀ fields, provider = .anthropic → J.fromSlice body = some (.object fields) →
      p.forwardBody R C h J body reads v provider locale =
        some (match Value.lookupField (lit "system") fields with
          | none | some .null => J.toStr (.object
              (Value.insertField (lit "system") (.string systemReminderBlock) fields))
          | some (.string existing) => J.toStr (.object
              (Value.insertField (lit "system") (.string (withReminder existing)) fields))
          | some _ => body, [], v) := by
  rw [forwardBody_not_chat_eq R C h p J body reads v provider locale hnot]
  refine ⟨fun hcase => ?_, fun fields hprov hval => ?_⟩
  · -- there is no place for the instruction
    have hinject : injectSystemInstructionIntoBody J body provider = some none := by
      unfold injectSystemInstructionIntoBody
      cases hval : J.fromSlice body with
      | none => rfl
      | some value =>
        cases provider with
        | anthropic =>
          rcases hcase with hne | hnone
          · exact absurd rfl hne
          · rw [hval] at hnone
            exact absurd hnone (Option.some_ne_none _)
        -- the instruction goes into a messages array, and there is none
        | openAi =>
          cases value with
          | object fields =>
            cases hmsgs : (Value.object fields).getArray (lit "messages") with
            | none => simp only [injectSystemInstruction, hmsgs, Option.map_some, Option.map_none]
            | some msgs => exact absurd ⟨fields, msgs, hval, hmsgs⟩ hnot
          | _ => rfl
        | google => rfl
        | unknown => rfl
    rw [hinject]
    rfl
  · subst hprov
    simp only [injectSystemInstructionIntoBody, hval, injectSystemInstruction, Value.get]
    cases Value.lookupField (lit "system") fields with
    | none => rfl
    | some system => cases system <;> rfl

end Forwarded

/-- The token for the first name. -/
def johnToken : Str := xmlToken (generateTokenId sampleHashes (lit "c") 0) (lit "Alice")

/-- A parser for a request with one name, and for what becomes of it. -/
def johnJson : SerdeJson := SerdeJson.ofValues [chatBody [lit "John"], chatBody [johnToken]]

/-- A request with one name, for Anthropic: the token stands in the text's place,
    and the instruction beside the messages. -/
theorem forwardBody_frame_john :
    ∃ out dets v', sidecarNames.forwardBody Rand.least Chrono.none sampleHashes johnJson
        (chatBody [lit "John"]).compact (fun _ => 0) (PiiVault.new sampleHashes (lit "c"))
        .anthropic .enUs = some (out, dets, v') ∧
      ∃ reworded forwarded, Reworded (lit "messages") (chatBody [lit "John"]) reworded ∧
        Instructed .anthropic reworded forwarded ∧
        (out = (chatBody [lit "John"]).compact ∧ forwarded = chatBody [lit "John"] ∨
          out = johnJson.toStr forwarded) := by
  have hrun : ∃ dets v', sidecarNames.processValue Rand.least Chrono.none sampleHashes
      (chatBody [lit "John"]) (fun _ => 0) (PiiVault.new sampleHashes (lit "c")) .anthropic
      .enUs = some (some (chatBody [johnToken], dets), v') := ⟨_, _, rfl⟩
  rcases hrun with ⟨dets, v', hrun⟩
  have hframe := forwardBody_frame Rand.least Chrono.none sampleHashes sidecarNames johnJson
    (chatBody [lit "John"]).compact (fun _ => 0) (PiiVault.new sampleHashes (lit "c")) .anthropic
    .enUs _ (rfl : _ = some (chatBody [lit "John"])) (by
      intro w d u hw
      rw [chatBody] at hrun
      rw [hrun, Option.some.injEq, Prod.mk.injEq, Option.some.injEq, Prod.mk.injEq] at hw
      rw [← hw.1.1]
      rfl)
  rcases hframe.1 (by
    intro i entry hi
    have hone : collectMessageTexts (chatBody [lit "John"]) (lit "messages") =
        [⟨0, none, lit "John"⟩] := rfl
    change (collectMessageTexts (chatBody [lit "John"]) (lit "messages"))[i]? = some entry at hi
    rw [hone] at hi
    rcases i with _ | i
    · rw [List.getElem?_cons_zero, Option.some.injEq] at hi
      subst hi
      refine ⟨fun slm reps hslm hreps => ?_, fun working spans _ s hs => ?_⟩
      · rw [← Option.some.inj hslm] at hreps
        rw [← Option.some.inj hreps]
        exact ⟨by decide, by decide, by decide, by decide⟩
      · have hnone : sidecarNames.detectSpans 0 working .enUs = [] := rfl
        rw [hnone] at hs
        exact absurd hs List.not_mem_nil
    · simp only [List.getElem?_cons_succ, List.getElem?_nil, reduceCtorEq] at hi) with
    ⟨out, dets', w, hout⟩
  exact ⟨out, dets', w, hout, hframe.2 out dets' w hout⟩

/-- The empty object is no chat request. -/
theorem not_holdsMessages_empty (provider : Provider) :
    ¬ HoldsMessages (SerdeJson.ofValues [.object []]) (Value.object []).compact provider := by
  rintro ⟨fields, msgs, hval, hmsgs⟩
  have hempty : (SerdeJson.ofValues [.object []]).fromSlice (Value.object []).compact =
      some (.object []) := rfl
  rw [hempty, Option.some.injEq, Value.object.injEq] at hval
  rw [← hval] at hmsgs
  exact absurd hmsgs (Option.some_ne_none msgs).symm

/-- Bodies without messages: an empty object, for OpenAI and for Anthropic. -/
theorem forwardBody_not_chat_empty :
    sidecarNames.forwardBody Rand.least Chrono.none sampleHashes (SerdeJson.ofValues [.object []])
        (Value.object []).compact (fun _ => 0) (PiiVault.new sampleHashes (lit "c")) .openAi .enUs =
      some ((Value.object []).compact, [], PiiVault.new sampleHashes (lit "c")) ∧
    sidecarNames.forwardBody Rand.least Chrono.none sampleHashes (SerdeJson.ofValues [.object []])
        (Value.object []).compact (fun _ => 0) (PiiVault.new sampleHashes (lit "c")) .anthropic
        .enUs =
      some ((Value.object [(lit "system", .string systemReminderBlock)]).compact, [],
        PiiVault.new sampleHashes (lit "c")) :=
  ⟨(forwardBody_not_chat Rand.least Chrono.none sampleHashes sidecarNames _ _ (fun _ => 0) _
      .openAi .enUs (not_holdsMessages_empty .openAi)).1 (Or.inl (by decide)),
    (forwardBody_not_chat Rand.least Chrono.none sampleHashes sidecarNames _ _ (fun _ => 0) _
      .anthropic .enUs (not_holdsMessages_empty .anthropic)).2 [] rfl rfl⟩

/-- For Anthropic the empty object is not forwarded as it came. -/
theorem forwardBody_not_chat_changed :
    ∃ (J : SerdeJson) (body : List UInt8), ¬ HoldsMessages J body .anthropic ∧
      ∀ dets v', sidecarNames.forwardBody Rand.least Chrono.none sampleHashes J body (fun _ => 0)
        (PiiVault.new sampleHashes (lit "c")) .anthropic .enUs ≠ some (body, dets, v') := by
  refine ⟨_, _, not_holdsMessages_empty .anthropic, fun dets v' hrun => ?_⟩
  have hsystem : sidecarNames.forwardBody Rand.least Chrono.none sampleHashes
      (SerdeJson.ofValues [.object []]) (Value.object []).compact (fun _ => 0)
      (PiiVault.new sampleHashes (lit "c")) .anthropic .enUs =
        some ((Value.object [(lit "system", .string systemReminderBlock)]).compact, [],
          PiiVault.new sampleHashes (lit "c")) := rfl
  rw [hsystem, Option.some.injEq, Prod.mk.injEq] at hrun
  exact absurd hrun.1 (by decide)

end PrivacyClaw
