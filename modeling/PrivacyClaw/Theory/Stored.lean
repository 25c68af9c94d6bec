import PrivacyClaw.Core.C2u
import PrivacyClaw.Theory.Bodies

/-!
# Masked Texts in the Log

The log pairs each message of the client's body with the message of the same
index in the body that was forwarded. The pipeline keeps the number and the order
of the messages, so the masked body would pair up. What is parsed is the body
with the system instruction in it, though, and the parsers count a system prompt
as a message: an instruction that is inserted shifts every message behind it by
one, and an instruction that is appended to a system prompt is logged as part of
its masked text.

## Main definitions

* `parseValue`: The parsers, on the parsed body.
* `ReminderPlace`, `reminderPlace`, `placeReminder`: Where the instruction goes, in
  terms of the messages the parsers find.
* `MaskedBeside`: Every logged message has the masked text of its own.
* `Undisturbed`: The instruction leaves the messages that are logged alone.

## Theorems

* `parseValue_reworded`: The masked body has as many messages.
* `parseValue_injected`: The messages of a body with the instruction.
* `placeReminder_agrees`: When these are the ones of the body without it.
-/

namespace PrivacyClaw

/-- `parse_request`, on the parsed body. -/
def parseValue (J : SerdeJson) (provider : Provider) (v : Value) : Option ParsedRequest :=
  match provider with
  | .anthropic => Anthropic.parseRequest J v
  | .google => Google.parseRequest v
  | .openAi | .unknown => OpenAi.parseRequest v

theorem parseRequest_eq (J : SerdeJson) (provider : Provider) (body : List UInt8) :
    parseRequest J provider body = (J.fromSlice body).bind (parseValue J provider) := by
  unfold parseRequest
  cases provider <;> rfl

/-- The texts of the messages. -/
def ParsedRequest.contents (q : ParsedRequest) : List Str := q.messages.map Message.content

/-- The texts of the messages that are found in a body. -/
def contentsOf (J : SerdeJson) (provider : Provider) (body : List UInt8) : List Str :=
  ((parseRequest J provider body).map ParsedRequest.contents).getD []

/-- Where the system instruction goes. -/
inductive ReminderPlace where
  | nowhere
  | appended (i : Nat)
  | inserted
  deriving DecidableEq, Repr

/-- Where the system instruction goes in a body, counted in the messages that are
    found in it. -/
def reminderPlace (provider : Provider) (value : Value) : ReminderPlace :=
  match provider with
  | .anthropic =>
    match value.get (lit "system") with
    | none | some .null => .inserted
    | some (.string _) => .appended 0
    | some _ => .nowhere
  | .openAi =>
    match value.getArray (lit "messages") with
    | none => .nowhere
    | some msgs =>
      match msgs.findIdx? isSystemMessage with
      | none => .inserted
      | some i =>
        if (msgs[i]?.bind fun m => m.getStr (lit "content")).isSome then .appended i else .nowhere
  | .google | .unknown => .nowhere

/-- The messages' texts with the instruction in its place. -/
def placeReminder : ReminderPlace → List Str → List Str
  | .nowhere, contents => contents
  | .appended i, contents => contents.modify i withReminder
  | .inserted, contents => systemReminderBlock :: contents

/-- The instruction leaves the messages from `stored` on alone: it goes to none of
    them, and to none in front of them either unless their texts are all the same. -/
def Undisturbed (place : ReminderPlace) (contents : List Str) (stored : Nat) : Prop :=
  match place with
  | .nowhere => True
  | .appended i => i < stored ∨ contents.length ≤ i
  | .inserted => ∀ j, stored ≤ j → j < contents.length →
      (systemReminderBlock :: contents)[j]? = contents[j]?

/-- Every message that is logged has the text beside it that its own message has in
    the masked body. -/
def MaskedBeside (J : SerdeJson) (provider : Provider) (masked : List UInt8) (stored : Nat)
    (logged : List StoredMessage) : Prop :=
  ∀ i msg, logged[i]? = some msg → ∃ own, (contentsOf J provider masked)[stored + i]? = some own ∧
    msg.contentMasked = some own

theorem withReminder_ne (s : Str) : withReminder s ≠ s := by
  intro heq
  have hlen := congrArg List.length heq
  rw [withReminder, List.length_append, List.length_append] at hlen
  have hpos : 0 < (lit "\n\n").length := by decide
  omega

/-- The texts with the instruction are the texts without it, from `stored` on,
    exactly where it leaves them alone. -/
theorem placeReminder_agrees (place : ReminderPlace) (contents : List Str) (stored : Nat) :
    (∀ j, stored ≤ j → j < contents.length →
      (placeReminder place contents)[j]? = contents[j]?) ↔ Undisturbed place contents stored := by
  cases place with
  | nowhere => exact ⟨fun _ => trivial, fun _ _ _ _ => rfl⟩
  | appended i =>
    simp only [placeReminder, Undisturbed]
    constructor
    · intro hsame
      by_contra hno
      have hi : i < contents.length := by omega
      have h := hsame i (by omega) hi
      rw [List.getElem?_modify_eq, List.getElem?_eq_getElem hi, Option.map_eq_map,
        Option.map_some, Option.some.injEq] at h
      exact withReminder_ne _ h
    · intro hout j hstored hlt
      exact List.getElem?_modify_ne _ _ (by omega)
  | inserted => exact Iff.rfl

section Reworded

theorem RewordedMessage.role {msg msg' : Value} (h : RewordedMessage msg msg') :
    isSystemMessage msg' = isSystemMessage msg := by
  cases h with
  | same => rfl
  | content fields old new hc =>
    simp only [isSystemMessage, Value.getStr, Value.get,
      Value.lookupField_modifyField_ne (lit "content") (lit "role") _ _ (by decide)]
  | parts fields old new hc hparts =>
    simp only [isSystemMessage, Value.getStr, Value.get,
      Value.lookupField_modifyField_ne (lit "content") (lit "role") _ _ (by decide)]

/-- A message's content is a text exactly if it was one. -/
theorem RewordedMessage.isText {msg msg' : Value} (h : RewordedMessage msg msg') :
    (msg'.getStr (lit "content")).isSome = (msg.getStr (lit "content")).isSome := by
  cases h with
  | same => rfl
  | content fields old new hc =>
    simp only [Value.getStr, Value.get, Value.lookupField_modifyField, hc, Option.map_some,
      Option.bind_some, Value.asStr, Option.isSome_some]
  | parts fields old new hc hparts =>
    simp only [Value.getStr, Value.get, Value.lookupField_modifyField, hc, Option.map_some,
      Option.bind_some, Value.asStr, Option.isSome_none]

/-- The first system message keeps its place. -/
theorem findIdx?_reworded {msgs msgs' : List Value}
    (h : List.Forall₂ RewordedMessage msgs msgs') :
    msgs'.findIdx? isSystemMessage = msgs.findIdx? isSystemMessage := by
  induction h with
  | nil => rfl
  | cons hr _ ih => rw [List.findIdx?_cons, List.findIdx?_cons, hr.role, ih]

/-- A field beside the messages. -/
theorem Reworded.get {field other : Str} {value value' : Value} (h : Reworded field value value')
    (hne : other ≠ field) : value'.get other = value.get other := by
  cases h with
  | same => rfl
  | messages fields old new hm hall =>
    simp only [Value.get, Value.lookupField_modifyField_ne field other _ _ hne]

/-- The messages array. -/
theorem Reworded.getArray {field : Str} {value value' : Value} (h : Reworded field value value') :
    (value.getArray field = none ∧ value'.getArray field = none) ∨
      ∃ msgs msgs', value.getArray field = some msgs ∧ value'.getArray field = some msgs' ∧
        List.Forall₂ RewordedMessage msgs msgs' := by
  cases h with
  | same =>
    cases hm : value.getArray field with
    | none => exact Or.inl ⟨rfl, rfl⟩
    | some msgs =>
      exact Or.inr ⟨msgs, msgs, rfl, rfl, List.forall₂_same.mpr fun msg _ => .same msg⟩
  | messages fields old new hm hall =>
    refine Or.inr ⟨old, new, ?_, ?_, hall⟩
    · simp only [Value.getArray, Value.get, hm, Option.bind_some, Value.asArray]
    · simp only [Value.getArray, Value.get, Value.lookupField_modifyField, hm, Option.map_some,
        Option.bind_some, Value.asArray]

/-- The pipeline does not change where the instruction goes. -/
theorem reminderPlace_reworded {provider : Provider} {value value' : Value}
    (h : Reworded provider.messagesField value value') :
    reminderPlace provider value' = reminderPlace provider value := by
  cases provider with
  | anthropic =>
    simp only [reminderPlace]
    rw [h.get (by decide)]
  | openAi =>
    rcases h.getArray with ⟨hnone, hnone'⟩ | ⟨msgs, msgs', hsome, hsome', hall⟩
    · simp only [Provider.messagesField] at hnone hnone'
      simp only [reminderPlace, hnone, hnone']
    · simp only [Provider.messagesField] at hsome hsome'
      simp only [reminderPlace, hsome, hsome', findIdx?_reworded hall]
      cases hfirst : msgs.findIdx? isSystemMessage with
      | none => rfl
      | some i =>
        have hlt : i < msgs.length := List.findIdx?_eq_some_iff_findIdx_eq.mp hfirst |>.1
        rcases forall₂_getElem? hall (List.getElem?_eq_getElem hlt) with ⟨msg', hmsg', hr⟩
        simp only [hmsg', List.getElem?_eq_getElem hlt, Option.bind_some, hr.isText]
  | google => rfl
  | unknown => rfl

/-- The masked body is read as as many messages as the client's, or like it as
    none. -/
theorem parseValue_reworded (J : SerdeJson) {provider : Provider} {value value' : Value}
    (h : Reworded provider.messagesField value value') :
    (parseValue J provider value').map (fun q => q.contents.length) =
      (parseValue J provider value).map (fun q => q.contents.length) := by
  have hmodel : value'.getStr (lit "model") = value.getStr (lit "model") := by
    rw [Value.getStr, Value.getStr, h.get (by cases provider <;> decide)]
  have hsystem : value'.getStr (lit "system") = value.getStr (lit "system") := by
    rw [Value.getStr, Value.getStr, h.get (by cases provider <;> decide)]
  rcases h.getArray with ⟨hnone, hnone'⟩ | ⟨msgs, msgs', hsome, hsome', hall⟩
  · cases provider <;> simp only [Provider.messagesField] at hnone hnone' <;>
      simp only [parseValue, Anthropic.parseRequest, OpenAi.parseRequest, Google.parseRequest,
        hmodel, hsystem, hnone, hnone']
  · have hlen := hall.length_eq
    cases provider <;> simp only [Provider.messagesField] at hsome hsome' <;>
      simp only [parseValue, Anthropic.parseRequest, OpenAi.parseRequest, Google.parseRequest,
        hmodel, hsystem, hsome, hsome', Option.getD_some, Option.bind_eq_bind, Option.bind_some,
        ParsedRequest.contents, Option.map_some, List.length_map, hlen] <;>
      cases value.getStr (lit "model") <;>
      simp only [Option.bind_none, Option.bind_some, Option.map_none, Option.map_some,
        List.length_map, List.length_append, hlen]

end Reworded

section Injected

variable (J : SerdeJson) (fields : List (Str × Value)) (q : ParsedRequest)

/-- For Anthropic the instruction is in the first message, the system prompt. -/
theorem parseValue_injected_anthropic (injected : Option Value)
    (hparse : parseValue J .anthropic (.object fields) = some q)
    (hrun : injectSystemInstruction (.object fields) .anthropic = some injected) :
    ∃ q', parseValue J .anthropic (injected.getD (.object fields)) = some q' ∧
      q'.contents = placeReminder (reminderPlace .anthropic (.object fields)) q.contents := by
  -- with a text in the `system` field, the messages are that text and those of the array
  have hset : ∀ s, ∃ q', parseValue J .anthropic
      (.object (Value.insertField (lit "system") (.string s) fields)) = some q' ∧
      q'.contents = s :: (((Value.object fields).getArray (lit "messages")).getD []).map
        fun m => Anthropic.extractContent J (m.get (lit "content")) := by
    intro s
    simp only [parseValue, Anthropic.parseRequest, Value.getStr, Value.getArray, Value.get] at hparse ⊢
    rw [Value.lookupField_insertField, Value.lookupField_insertField_ne _ (lit "model") _ _ (by decide),
      Value.lookupField_insertField_ne _ (lit "messages") _ _ (by decide)]
    cases hmodel : (Value.lookupField (lit "model") fields).bind Value.asStr with
    | none => simp only [hmodel, Option.bind_eq_bind, Option.bind_none, reduceCtorEq] at hparse
    | some model =>
      refine ⟨_, rfl, ?_⟩
      simp only [ParsedRequest.contents, Option.bind_some, Value.asStr, List.map_cons,
        List.singleton_append, List.map_map, Function.comp_def]
  -- as they are before the instruction
  have hown : q.contents = ((Value.object fields).getStr (lit "system")).toList ++
      (((Value.object fields).getArray (lit "messages")).getD []).map
        fun m => Anthropic.extractContent J (m.get (lit "content")) := by
    simp only [parseValue, Anthropic.parseRequest, Option.bind_eq_bind,
      Option.bind_eq_some_iff, Option.some.injEq] at hparse
    rcases hparse with ⟨model, -, rfl⟩
    cases hsys : (Value.object fields).getStr (lit "system") with
    | none => simp only [ParsedRequest.contents, Option.toList_none, List.nil_append,
        List.map_map, Function.comp_def]
    | some s => simp only [ParsedRequest.contents, Option.toList_some, List.map_append,
        List.map_cons, List.map_nil, List.map_map, Function.comp_def]
  have hget : (Value.object fields).getStr (lit "system") =
      (Value.lookupField (lit "system") fields).bind Value.asStr := rfl
  simp only [injectSystemInstruction, Value.get] at hrun
  simp only [reminderPlace, Value.get]
  rw [hget] at hown
  cases hsys : Value.lookupField (lit "system") fields with
  | none =>
    simp only [hsys, Value.assignKey, Option.map_some, Option.some.injEq] at hrun
    rcases hset systemReminderBlock with ⟨q', hq', hcontents⟩
    refine ⟨q', by rw [← hrun]; exact hq', ?_⟩
    rw [hcontents, hown, hsys]
    rfl
  | some system =>
    rw [hsys, Option.bind_some] at hown
    cases system with
    | null =>
      simp only [hsys, Value.assignKey, Option.map_some, Option.some.injEq] at hrun
      rcases hset systemReminderBlock with ⟨q', hq', hcontents⟩
      refine ⟨q', by rw [← hrun]; exact hq', ?_⟩
      rw [hcontents, hown]
      rfl
    | string existing =>
      simp only [hsys, Value.assignKey, Option.map_some, Option.some.injEq] at hrun
      rcases hset (withReminder existing) with ⟨q', hq', hcontents⟩
      refine ⟨q', by rw [← hrun]; exact hq', ?_⟩
      rw [hcontents, hown]
      rfl
    | _ =>
      -- a system prompt in blocks is left alone
      simp only [hsys, Option.some.injEq] at hrun
      exact ⟨q, by rw [← hrun]; exact hparse, rfl⟩

/-- For OpenAI it is in the first system message, or in a new one. -/
theorem parseValue_injected_openAi (injected : Option Value)
    (hparse : parseValue J .openAi (.object fields) = some q)
    (hrun : injectSystemInstruction (.object fields) .openAi = some injected) :
    ∃ q', parseValue J .openAi (injected.getD (.object fields)) = some q' ∧
      q'.contents = placeReminder (reminderPlace .openAi (.object fields)) q.contents := by
  simp only [parseValue, OpenAi.parseRequest, Option.bind_eq_bind, Option.bind_eq_some_iff,
    Option.some.injEq] at hparse
  rcases hparse with ⟨model, hmodel, msgs, hmsgs, rfl⟩
  have hset : ∀ msgs', parseValue J .openAi (.object
      (Value.modifyField (lit "messages") (fun _ => .array msgs') fields)) = some ⟨model,
        msgs'.map fun m => ⟨messageRole m, OpenAi.extractContent (m.get (lit "content"))⟩⟩ := by
    intro msgs'
    have hlookup := lookupField_of_getArray hmsgs
    simp only [parseValue, OpenAi.parseRequest, Value.getStr, Value.getArray, Value.get] at hmodel ⊢
    rw [Value.lookupField_modifyField, hlookup,
      Value.lookupField_modifyField_ne (lit "messages") (lit "model") _ _ (by decide), hmodel]
    rfl
  simp only [injectSystemInstruction, hmsgs, Option.some.injEq] at hrun
  simp only [reminderPlace, hmsgs]
  unfold injectSystemMessage at hrun
  cases hfirst : msgs.findIdx? isSystemMessage with
  | none =>
    simp only [hfirst, Option.map_some] at hrun
    refine ⟨_, by rw [← hrun]; exact hset _, ?_⟩
    rfl
  | some i =>
    have hlt : i < msgs.length := (List.findIdx?_eq_some_iff_findIdx_eq.mp hfirst).1
    have hmsg : ∃ msg, msgs[i]? = some msg := ⟨_, List.getElem?_eq_getElem hlt⟩
    rcases hmsg with ⟨msg, hmsg⟩
    simp only [hfirst, hmsg, Option.bind_some] at hrun ⊢
    -- a system message whose content is not a text is left alone
    have hsame : injected = none → ∃ q', parseValue J .openAi (injected.getD (.object fields)) =
        some q' ∧ q' = ⟨model, msgs.map fun m =>
          ⟨messageRole m, OpenAi.extractContent (m.get (lit "content"))⟩⟩ := by
      rintro rfl
      refine ⟨_, ?_, rfl⟩
      simp only [Option.getD_none, parseValue, OpenAi.parseRequest, hmodel, hmsgs,
        Option.bind_eq_bind, Option.bind_some]
    cases msg with
    | object msg =>
      cases hcontent : (Value.object msg).getStr (lit "content") with
      | none =>
        simp only [hcontent, Option.map_none] at hrun
        rcases hsame hrun.symm with ⟨q', hq', rfl⟩
        exact ⟨_, hq', rfl⟩
      | some content =>
        simp only [hcontent, Option.map_some] at hrun
        refine ⟨_, by rw [← hrun]; exact hset _, ?_⟩
        -- the first system message has the instruction behind its own text
        have hold : OpenAi.extractContent ((Value.object msg).get (lit "content")) = content := by
          rw [Value.get, lookupField_of_getStr hcontent]
          rfl
        have hat : (msgs.map fun m => OpenAi.extractContent (m.get (lit "content")))[i]? =
            some content := by
          rw [List.getElem?_map, hmsg, Option.map_some, hold]
        simp only [Option.isSome_some, if_true, placeReminder, ParsedRequest.contents,
          List.map_map, Function.comp_def, List.map_set, Value.get,
          Value.lookupField_insertField]
        simp only [Value.get] at hat
        rw [List.modify_eq_set_getElem?, hat]
        rfl
    | _ =>
      rcases hsame hrun.symm with ⟨q', hq', rfl⟩
      exact ⟨_, hq', rfl⟩

/-- The messages of a body with the instruction are its own messages, with the
    instruction in its place. -/
theorem parseValue_injected (provider : Provider) (injected : Option Value)
    (hparse : parseValue J provider (.object fields) = some q)
    (hrun : injectSystemInstruction (.object fields) provider = some injected) :
    ∃ q', parseValue J provider (injected.getD (.object fields)) = some q' ∧
      q'.contents = placeReminder (reminderPlace provider (.object fields)) q.contents := by
  cases provider with
  | anthropic => exact parseValue_injected_anthropic J fields q injected hparse hrun
  | openAi => exact parseValue_injected_openAi J fields q injected hparse hrun
  | google =>
    rw [injectSystemInstruction, Option.some.injEq] at hrun
    exact ⟨q, by rw [← hrun]; exact hparse, rfl⟩
  | unknown =>
    rw [injectSystemInstruction, Option.some.injEq] at hrun
    exact ⟨q, by rw [← hrun]; exact hparse, rfl⟩

end Injected

/-- What is logged, with the contents of the forwarded body beside it. -/
theorem maskedBeside_iff (J : SerdeJson) (provider : Provider)
    (original forward masked : List UInt8) (stored : Nat)
    (hlen : (parseRequest J provider masked).map (fun q => q.contents.length) =
      (parseRequest J provider original).map (fun q => q.contents.length))
    (place : ReminderPlace)
    (hplace : ∀ q, parseRequest J provider masked = some q → ∃ q',
      parseRequest J provider forward = some q' ∧
      q'.contents = placeReminder place q.contents) :
    MaskedBeside J provider masked stored
        (storeRequestMessages J provider original (some forward) stored) ↔
      Undisturbed place (contentsOf J provider masked) stored := by
  rw [← placeReminder_agrees]
  unfold MaskedBeside storeRequestMessages contentsOf
  cases horig : parseRequest J provider original with
  | none =>
    cases hmasked : parseRequest J provider masked with
    | none =>
      simp only [Option.map_none, Option.getD_none, List.getElem?_nil, List.length_nil,
        Nat.not_lt_zero, reduceCtorEq, false_implies, implies_true]
    | some q => simp only [horig, hmasked, Option.map_some, Option.map_none, reduceCtorEq] at hlen
  | some parsed =>
    cases hmasked : parseRequest J provider masked with
    | none => simp only [horig, hmasked, Option.map_some, Option.map_none, reduceCtorEq] at hlen
    | some q =>
      rcases hplace q hmasked with ⟨q', hforward, hcontents⟩
      simp only [horig, hmasked, Option.map_some, Option.some.injEq] at hlen
      have hcount : parsed.messages.length = q.contents.length := by
        rw [hlen, ParsedRequest.contents, List.length_map]
      have hbeside : ∀ j : Nat, (q'.messages[j]?).map Message.content =
          (placeReminder place q.contents)[j]? := by
        intro j
        rw [← hcontents, ParsedRequest.contents, List.getElem?_map]
      simp only [Option.bind_some, hforward, Option.map_some, Option.getD_some]
      -- A logged message is one of the client's from `stored` on.
      have hlogged : ∀ i msg, ((parsed.messages.drop stored).zipIdx.map fun x =>
          (⟨x.1.role, x.1.content, q'.messages[stored + x.2]?.map Message.content⟩ :
            StoredMessage))[i]? = some msg ↔ ∃ m, parsed.messages[stored + i]? = some m ∧
              msg = ⟨m.role, m.content, (placeReminder place q.contents)[stored + i]?⟩ := by
        intro i msg
        simp only [List.getElem?_map, List.getElem?_zipIdx, List.getElem?_drop, Option.map_map,
          Option.map_eq_some_iff, Function.comp_def, Nat.zero_add, hbeside, eq_comm (b := msg)]
      constructor
      · intro hall j hstored hlt
        have hj : stored + (j - stored) = j := by omega
        have hm : parsed.messages[j]? = some (parsed.messages.get ⟨j, by omega⟩) :=
          List.getElem?_eq_getElem _
        rcases hall (j - stored) _ ((hlogged _ _).mpr ⟨_, by rw [hj]; exact hm, rfl⟩) with
          ⟨own, hown, hmask⟩
        rw [hj] at hown hmask
        rw [hown]
        exact hmask
      · intro hall i msg hmsg
        rcases (hlogged i msg).mp hmsg with ⟨m, hm, rfl⟩
        have hlt : stored + i < q.contents.length := by
          rw [← hcount]
          exact (List.getElem?_eq_some_iff.mp hm).1
        refine ⟨q.contents[stored + i], List.getElem?_eq_getElem hlt, ?_⟩
        rw [← List.getElem?_eq_getElem hlt]
        exact hall (stored + i) (Nat.le_add_right _ _) hlt

section Logged

variable (R : Rand) (C : Chrono) (h : Hashes) (p : PiiPipeline) (J : SerdeJson)

/-- The log gets every message's own masked text exactly if the instruction leaves
    the messages that are logged alone. -/
theorem loggedMessages_masked_iff (original : List UInt8) (value : Value) (reads : Nat → Nat)
    (v v' : PiiVault) (provider : Provider) (locale : Locale) (masked : Str)
    (dets : List PiiDetection) (stored : Nat)
    (hval : J.fromSlice original = some value)
    (hrun : p.processRequestBodyAsync R C h J original reads v provider locale =
      some (some (masked, dets), v'))
    (hdets : dets ≠ [])
    (hmasked : ∀ w d u, p.processValue R C h value reads v provider locale =
      some (some (w, d), u) → J.fromSlice (J.toStr w) = some w)
    (hinjected : ∀ w injected, J.fromSlice masked = some w →
      injectSystemInstruction w provider = some (some injected) →
        J.fromSlice (J.toStr injected) = some injected) :
    ∃ logged, p.loggedMessages R C h J original reads v provider locale stored = some logged ∧
      (MaskedBeside J provider masked stored logged ↔
        Undisturbed (reminderPlace provider value) (contentsOf J provider masked) stored) := by
  have hproc := hrun
  rw [processRequestBodyAsync_eq R C h p J original value reads v provider locale hval,
    Option.map_eq_some_iff] at hproc
  -- the masked body is the processed value, printed
  rcases hproc with ⟨⟨_ | ⟨working, d⟩, u⟩, hproc, heq⟩
  · simp only [Option.map_none, Prod.mk.injEq, reduceCtorEq, false_and] at heq
  simp only [Option.map_some, Prod.mk.injEq, Option.some.injEq] at heq
  rcases heq with ⟨⟨rfl, rfl⟩, rfl⟩
  rcases processValue_cases R C h p value reads v provider locale working d u hproc with
    ⟨_, _, _, _, -, -, -, hobject, -, -⟩
  have hreword := processValue_reworded R C h p value reads v provider locale working d u hproc
  have hread := hmasked working d u hproc
  rcases injectSystemInstruction_returns _ provider with ⟨injected, hinject⟩
  rw [← hobject] at hinject
  refine ⟨_, ?_, maskedBeside_iff J provider original ((injected.map J.toStr).getD (J.toStr working))
    (J.toStr working) stored ?_ (reminderPlace provider value) ?_⟩
  · simp only [PiiPipeline.loggedMessages, PiiPipeline.forwardBody, hrun, Option.bind_eq_bind,
      Option.bind_some, Option.getD_some, injectSystemInstructionIntoBody, hread, hinject,
      Option.map_some, List.isEmpty_iff, hdets, if_false]
  · rw [parseRequest_eq, parseRequest_eq, hread, hval]
    exact parseValue_reworded J hreword
  · -- the masked messages are read from the forwarded body, where the instruction is
    intro q hq
    rw [parseRequest_eq, hread, Option.bind_some] at hq
    have hforward : J.fromSlice ((injected.map J.toStr).getD (J.toStr working)) =
        some (injected.getD working) := by
      cases injected with
      | none => exact hread
      | some injected => exact hinjected working injected hread hinject
    rw [parseRequest_eq, hforward, Option.bind_some, ← reminderPlace_reworded hreword]
    rw [hobject] at hq hinject ⊢
    exact parseValue_injected J _ q provider injected hq hinject

end Logged

/-- A request with one message, and a system prompt or none. -/
def namedBody (system : Option Str) (text : Str) : Value :=
  .object ([(lit "messages", .array [.object [(lit "content", .string text)]]),
    (lit "model", .string (lit "m"))] ++ system.toList.map fun s => (lit "system", .string s))

/-- A parser for it with a name, with the token, and with the instruction. -/
def namedJson (system : Option Str) : SerdeJson :=
  SerdeJson.ofValues [namedBody system (lit "John"), namedBody system johnToken,
    namedBody (some ((system.map withReminder).getD systemReminderBlock)) johnToken]

set_option maxRecDepth 8000 in
/-- With the system prompt in the log already, the instruction leaves the message
    alone, and the message's own masked text is logged. -/
theorem loggedMessages_masked_john :
    Undisturbed (.appended 0) [lit "s", johnToken] 1 ∧
    ∃ logged, sidecarNames.loggedMessages Rand.least Chrono.none sampleHashes
        (namedJson (some (lit "s"))) (namedBody (some (lit "s")) (lit "John")).compact (fun _ => 0)
        (PiiVault.new sampleHashes (lit "c")) .anthropic .enUs 1 = some logged ∧
      logged.length = 1 ∧
      MaskedBeside (namedJson (some (lit "s"))) .anthropic
          (namedBody (some (lit "s")) johnToken).compact 1 logged := by
  have hproc : ∃ dets v', sidecarNames.processValue Rand.least Chrono.none sampleHashes
      (namedBody (some (lit "s")) (lit "John")) (fun _ => 0) (PiiVault.new sampleHashes (lit "c"))
      .anthropic .enUs = some (some (namedBody (some (lit "s")) johnToken, dets), v') ∧
      dets ≠ [] := ⟨_, _, rfl, List.cons_ne_nil _ _⟩
  rcases hproc with ⟨dets, v', hproc, hdets⟩
  have hval : (namedJson (some (lit "s"))).fromSlice
      (namedBody (some (lit "s")) (lit "John")).compact =
        some (namedBody (some (lit "s")) (lit "John")) := rfl
  have hmasked : (namedJson (some (lit "s"))).fromSlice
      (namedBody (some (lit "s")) johnToken).compact =
        some (namedBody (some (lit "s")) johnToken) := rfl
  have hundisturbed : Undisturbed (.appended 0) [lit "s", johnToken] 1 := Or.inl (by decide)
  -- The masked body goes upstream with the reminder behind its system text.
  have hboth := loggedMessages_masked_iff Rand.least Chrono.none sampleHashes sidecarNames
    (namedJson (some (lit "s"))) (namedBody (some (lit "s")) (lit "John")).compact _ (fun _ => 0)
    (PiiVault.new sampleHashes (lit "c")) v' .anthropic .enUs
    (namedBody (some (lit "s")) johnToken).compact dets 1 hval (by
      rw [processRequestBodyAsync_eq _ _ _ _ _ _ _ _ _ _ _ hval, hproc]
      rfl) hdets (by
      intro w d u hw
      rw [hproc, Option.some.injEq, Prod.mk.injEq, Option.some.injEq, Prod.mk.injEq] at hw
      rw [← hw.1.1]
      exact hmasked) (by
      intro w injected hw hinject
      rw [hmasked, Option.some.injEq] at hw
      subst hw
      have hsys : injectSystemInstruction (namedBody (some (lit "s")) johnToken) .anthropic =
          some (some (namedBody (some (withReminder (lit "s"))) johnToken)) := rfl
      rw [hsys, Option.some.injEq, Option.some.injEq] at hinject
      rw [← hinject]
      rfl)
  rcases hboth with ⟨logged, hlogged, hiff⟩
  have hlength : logged.length = 1 := by
    rw [← Option.some_inj, ← Option.map_some, ← hlogged]
    rfl
  exact ⟨hundisturbed, logged, hlogged, hlength, hiff.mpr hundisturbed⟩

set_option maxRecDepth 8000 in
/-- Without a system prompt the instruction is inserted: the one message is logged
    with the instruction for its masked text. -/
theorem loggedMessages_shifted :
    ∃ logged masked dets v', sidecarNames.processRequestBodyAsync Rand.least Chrono.none
        sampleHashes (namedJson none) (namedBody none (lit "John")).compact (fun _ => 0)
        (PiiVault.new sampleHashes (lit "c")) .anthropic .enUs = some (some (masked, dets), v') ∧
      dets ≠ [] ∧
      sidecarNames.loggedMessages Rand.least Chrono.none sampleHashes (namedJson none)
        (namedBody none (lit "John")).compact (fun _ => 0) (PiiVault.new sampleHashes (lit "c"))
        .anthropic .enUs 0 = some logged ∧
      logged = [⟨lit "user", lit "John", some systemReminderBlock⟩] ∧
      ¬ MaskedBeside (namedJson none) .anthropic masked 0 logged := by
  refine ⟨[⟨lit "user", lit "John", some systemReminderBlock⟩],
    (namedBody none johnToken).compact, _, _, rfl, List.cons_ne_nil _ _, rfl, rfl, fun hall => ?_⟩
  rcases hall 0 _ rfl with ⟨own, hown, heq⟩
  have hcontents : contentsOf (namedJson none) .anthropic (namedBody none johnToken).compact =
      [johnToken] := rfl
  rw [hcontents, List.getElem?_cons_zero] at hown
  rw [← hown] at heq
  exact absurd heq (by decide)

end PrivacyClaw
