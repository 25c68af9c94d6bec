import PrivacyClaw.Core.Pipeline

/-!
# The System Instruction

`inject_system_instruction` of `src/pii/mod.rs`, and its caller in
`src/proxy/intercept/c2u.rs`: in replace mode every request tells the model to
leave the tokens as they are. Anthropic has a field for that, OpenAI a message;
the other providers are left alone.

Assigning to a key of something that is neither an object nor null is a panic
of the `serde_json` crate; null becomes an object.

## Main definitions

* `SYSTEM_REMINDER`: The text.
* `injectSystemInstruction`: On a parsed body.
* `injectSystemInstructionIntoBody`: On the bytes.
* `PiiPipeline.forwardBody`: The body that goes upstream in replace mode.
-/

namespace PrivacyClaw

/-- `SYSTEM_REMINDER`. -/
def SYSTEM_REMINDER : Str := lit ("The user's message may contain privacy tokens of the form " ++
  "<pii id=\"TOKEN_ID\">DISPLAY_VALUE</pii> (e.g. <pii id=\"a3f9b2c1\">alice.brown@example.com" ++
  "</pii>). These tokens represent redacted personally identifiable information. You MUST treat " ++
  "<pii> elements as atomic, opaque units: do not interpret, expand, modify, or split them. " ++
  "When echoing or referencing content that contains <pii> elements, reproduce the entire " ++
  "element exactly as written, including the id attribute and closing tag.")

/-- The reminder in its tags. -/
def systemReminderBlock : Str :=
  lit "<system-reminder>\n" ++ SYSTEM_REMINDER ++ lit "\n</system-reminder>"

/-- A system text with the reminder behind it. -/
def withReminder (existing : Str) : Str := existing ++ (lit "\n\n" ++ systemReminderBlock)

namespace Value

/-- `v[key] = new`; `none` where it panics. -/
def assignKey (v : Value) (key : Str) (new : Value) : Option Value :=
  match v with
  | .null => some (.object [(key, new)])
  | .object fields => some (.object (insertField key new fields))
  | _ => none

end Value

/-- The message that is inserted where no system message stands. -/
def systemMessage : Value :=
  .object [(lit "content", .string systemReminderBlock), (lit "role", .string (lit "system"))]

/-- `m.get("role") == "system"`. -/
def isSystemMessage (m : Value) : Bool := m.getStr (lit "role") == some (lit "system")

/-- The OpenAI branch on the messages: `none` where nothing is changed. -/
def injectSystemMessage (msgs : List Value) : Option (List Value) :=
  match msgs.findIdx? isSystemMessage with
  | some i =>
    match msgs[i]? with
    | some (.object fields) =>
      match (Value.object fields).getStr (lit "content") with
      | some content =>
        some (msgs.set i (.object
          (Value.insertField (lit "content") (.string (withReminder content)) fields)))
      | none => none
    | _ => none
  | none => some (systemMessage :: msgs)

/-- `inject_system_instruction`: an outer `none` is a panic, an inner one says
    that the body was not modified. -/
def injectSystemInstruction (value : Value) (provider : Provider) : Option (Option Value) :=
  match provider with
  | .anthropic =>
    match value.get (lit "system") with
    | none | some .null =>
      (value.assignKey (lit "system") (.string systemReminderBlock)).map some
    | some (.string existing) =>
      (value.assignKey (lit "system") (.string (withReminder existing))).map some
    | some _ => some none
  | .openAi =>
    match value, value.getArray (lit "messages") with
    | .object fields, some msgs =>
      some ((injectSystemMessage msgs).map fun msgs =>
        .object (Value.modifyField (lit "messages") (fun _ => .array msgs) fields))
    | _, _ => some none
  | .google => some none
  | .unknown => some none

/-- `inject_system_instruction_into_body`. -/
def injectSystemInstructionIntoBody (J : SerdeJson) (body : List UInt8) (provider : Provider) :
    Option (Option Str) :=
  match J.fromSlice body with
  | none => some none
  | some value => (injectSystemInstruction value provider).map fun injected => injected.map J.toStr

section Forward

variable (R : Rand) (C : Chrono) (h : Hashes)

/-- What `handle_c2u_pii` makes of a body in replace mode: the body to forward,
    the detections, and the vault. `none` is a panic. -/
def PiiPipeline.forwardBody (p : PiiPipeline) (J : SerdeJson) (original : List UInt8)
    (reads : Nat → Nat) (v : PiiVault) (provider : Provider) (locale : Locale) :
    Option (Str × List PiiDetection × PiiVault) := do
  let (processed, v) ← p.processRequestBodyAsync R C h J original reads v provider locale
  let (workingBody, detections) := processed.getD (original, [])
  let injected ← injectSystemInstructionIntoBody J workingBody provider
  some (injected.getD workingBody, detections, v)

end Forward

end PrivacyClaw
