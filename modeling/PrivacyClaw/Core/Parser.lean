import PrivacyClaw.Core.Json

/-!
# Request Parsing

`src/parser`: how the dashboard's copy of a request is read out of its body.
Each provider has its own walker over the messages, and a message's content is
one string: the texts it finds, joined, with a label in front of what is not
plain text.

## Main definitions

* `Provider`: The provider, and the field its messages stand in.
* `fromSlice`: Parsing bytes that need not be UTF-8.
* `Anthropic.parseRequest`, `OpenAi.parseRequest`, `Google.parseRequest`: The
  walkers.
* `parseRequest`: The dispatch.
* `chatBody`: A request body made of texts.
-/

namespace PrivacyClaw

/-- `Provider`. -/
inductive Provider where
  | anthropic | openAi | google | unknown
  deriving DecidableEq, Repr

/-- The field that holds the messages, as the PII pipeline names it. -/
def Provider.messagesField : Provider → Str
  | .google => lit "contents"
  | _ => lit "messages"

/-- `Provider::as_str`. -/
def Provider.asStr : Provider → Str
  | .anthropic => lit "anthropic"
  | .openAi => lit "openai"
  | .google => lit "google"
  | .unknown => lit "unknown"

/-- `Message`. -/
structure Message where
  role : Str
  content : Str
  deriving DecidableEq, Repr

/-- `ParsedRequest`. -/
structure ParsedRequest where
  model : Str
  messages : List Message
  deriving DecidableEq, Repr

/-- `serde_json::from_slice`: a byte that is not UTF-8 is an error wherever it
    stands. -/
def SerdeJson.fromSlice (J : SerdeJson) (body : List UInt8) : Option Value :=
  if utf8Valid body then J.fromStr body else none

namespace Value

/-- `v.get(key).and_then(|x| x.as_str())`. -/
def getStr (v : Value) (key : Str) : Option Str := (v.get key).bind asStr

/-- `v.get(key).and_then(|x| x.as_array())`. -/
def getArray (v : Value) (key : Str) : Option (List Value) := (v.get key).bind asArray

end Value

/-- The role of a message element. -/
def messageRole (m : Value) : Str := (m.getStr (lit "role")).getD (lit "user")

/-- The text of a `{"type":"text","text":"..."}` part. -/
def textPart (p : Value) : Option Str :=
  if p.getStr (lit "type") = some (lit "text") then p.getStr (lit "text") else none

namespace Anthropic

/-- The text of a `tool_result` block. -/
def toolResultText (b : Value) : Option Str :=
  match b.get (lit "content") with
  | some (.string s) => some s
  | some (.array blocks) => some (blocks.filterMap textPart).flatten
  | _ => none

/-- `extract_block`. -/
def extractBlock (J : SerdeJson) (b : Value) : Option Str :=
  match b.getStr (lit "type") with
  | none => none
  | some t =>
    if t = lit "text" then (b.getStr (lit "text")).filter (· ≠ [])
    else if t = lit "thinking" then
      ((b.getStr (lit "thinking")).filter (· ≠ [])).map (lit "[thinking] " ++ ·)
    else if t = lit "tool_use" then
      let name := (b.getStr (lit "name")).getD (lit "unknown")
      let input := ((b.get (lit "input")).map J.toStr).getD []
      some (lit "[" ++ name ++ lit "] " ++ input)
    else if t = lit "tool_result" then
      ((toolResultText b).filter (· ≠ [])).map (lit "[result] " ++ ·)
    else none

/-- `extract_content`. -/
def extractContent (J : SerdeJson) : Option Value → Str
  | some (.string s) => s
  | some (.array blocks) => (blocks.filterMap (extractBlock J)).flatten
  | _ => []

/-- `anthropic::parse_request`, on the parsed body. -/
def parseRequest (J : SerdeJson) (v : Value) : Option ParsedRequest := do
  let model ← v.getStr (lit "model")
  let system := match v.getStr (lit "system") with
    | some s => [⟨lit "system", s⟩]
    | none => []
  let messages := ((v.getArray (lit "messages")).getD []).map fun m =>
    ⟨messageRole m, extractContent J (m.get (lit "content"))⟩
  some ⟨model, system ++ messages⟩

end Anthropic

namespace OpenAi

/-- `extract_content`. -/
def extractContent : Option Value → Str
  | some (.string s) => s
  | some (.array parts) => (parts.filterMap textPart).flatten
  | _ => []

/-- `openai::parse_request`, on the parsed body. -/
def parseRequest (v : Value) : Option ParsedRequest := do
  let model ← v.getStr (lit "model")
  let msgs ← v.getArray (lit "messages")
  some ⟨model, msgs.map fun m => ⟨messageRole m, extractContent (m.get (lit "content"))⟩⟩

end OpenAi

namespace Google

/-- The content of one element: the texts of its parts. -/
def extractContent (m : Value) : Str :=
  (((m.getArray (lit "parts")).getD []).filterMap (·.getStr (lit "text"))).flatten

/-- `google::parse_request`, on the parsed body; the model stands in the URL. -/
def parseRequest (v : Value) : Option ParsedRequest := do
  let model := (v.getStr (lit "model")).getD (lit "gemini")
  let msgs ← v.getArray (lit "contents")
  some ⟨model, msgs.map fun m => ⟨messageRole m, extractContent m⟩⟩

end Google

/-- `parse_request`. -/
def parseRequest (J : SerdeJson) (provider : Provider) (body : List UInt8) :
    Option ParsedRequest := do
  let v ← J.fromSlice body
  match provider with
  | .anthropic => Anthropic.parseRequest J v
  | .openAi => OpenAi.parseRequest v
  | .google => Google.parseRequest v
  | .unknown => OpenAi.parseRequest v

/-- The body of a chat request with the given message texts and nothing else. -/
def chatBody (texts : List Str) : Value :=
  .object [(lit "messages", .array (texts.map fun t => .object [(lit "content", .string t)]))]

end PrivacyClaw
