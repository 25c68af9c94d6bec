import PrivacyClaw.Core.Buffer
import PrivacyClaw.Core.Framing
import PrivacyClaw.Core.Parser
import PrivacyClaw.Core.Sse

/-!
# Restoring Events

`src/proxy/intercept/pii_sse.rs`: the events of a response are taken apart,
their text goes through the replacement buffer, and the event is written to the
client with the text that came out, each as a chunk of its own.

What reaches the client is a list of writes, so that one can ask for the bytes
as well as for the events. The copies made for the dashboard and for storage are
left out: nothing the client gets depends on them.

## Main definitions

* `ClientWrite`: What is written to the client.
* `textDeltaPointer`, `extractTextDelta`, `replaceTextDelta`: The text in an
  event.
* `makeTrailingTextEvent`: The event for text that was held back.
* `processEvent`: One event.
* `processSseChunkPii`: The events completed by a piece of the body.
-/

namespace PrivacyClaw

/-- A write to the client: bytes as they are, an event as a chunk, or the chunk
    that ends the response. -/
inductive ClientWrite where
  | raw (bytes : List UInt8)
  | event (e : SseEvent)
  | last
  deriving DecidableEq, Repr

/-- `reconstruct_sse_event_bytes`. -/
def reconstructSseEventBytes (e : SseEvent) : List UInt8 :=
  (match e.eventType with
    | some et => lit "event: " ++ et ++ lit "\n"
    | none => []) ++ lit "data: " ++ e.data ++ lit "\n\n"

/-- The bytes of a write. -/
def ClientWrite.bytes : ClientWrite → List UInt8
  | .raw bytes => bytes
  | .event e => writeHttpChunk (reconstructSseEventBytes e)
  | .last => lastChunk

/-- `text_delta_pointer`. -/
def textDeltaPointer : Provider → Option (List Str)
  | .anthropic => some [lit "delta", lit "text"]
  | .openAi => some [lit "choices", lit "0", lit "delta", lit "content"]
  | .google => some [lit "candidates", lit "0", lit "content", lit "parts", lit "0", lit "text"]
  | .unknown => none

/-- `v["a"]["b"].as_str()`. -/
def strAt (v : Value) (path : List Str) : Option Str := (v.pointer path).bind Value.asStr

/-- The guard before the text of an Anthropic event is read. -/
def isTextDelta (provider : Provider) (v : Value) : Bool :=
  provider ≠ .anthropic ||
    (strAt v [lit "type"] == some (lit "content_block_delta") &&
      strAt v [lit "delta", lit "type"] == some (lit "text_delta"))

/-- `extract_text_delta`. -/
def extractTextDelta (J : SerdeJson) (provider : Provider) (data : Str) : Option Str := do
  let v ← J.fromStr data
  if isTextDelta provider v then strAt v (← textDeltaPointer provider) else none

/-- `replace_text_delta`. -/
def replaceTextDelta (J : SerdeJson) (provider : Provider) (data newText : Str) : Str :=
  match J.fromStr data with
  | none => data
  | some v =>
    match textDeltaPointer provider with
    | some path => J.toStr (Value.setPointer (.string newText) path v)
    | none => J.toStr v

/-- The data of the event for held-back text; an object's fields are in the
    order of their names. -/
def trailingData (text : Str) : Provider → Option Value
  | .anthropic => some (.object [
      (lit "delta", .object [(lit "text", .string text), (lit "type", .string (lit "text_delta"))]),
      (lit "index", .number (lit "0")),
      (lit "type", .string (lit "content_block_delta"))])
  | .openAi => some (.object [
      (lit "choices", .array [.object [
        (lit "delta", .object [(lit "content", .string text)]),
        (lit "finish_reason", .null),
        (lit "index", .number (lit "0"))]]),
      (lit "id", .string (lit "trailing")),
      (lit "object", .string (lit "chat.completion.chunk"))])
  | _ => none

/-- `make_trailing_text_event`: there is none for Google. -/
def makeTrailingTextEvent (J : SerdeJson) (provider : Provider) (text : Str) : Option SseEvent :=
  if text.isEmpty then none
  else (trailingData text provider).map fun v => ⟨some (lit "content_block_delta"), J.toStr v⟩

section Events

variable (J : SerdeJson) (provider : Provider) (v : PiiVault)

/-- `flush_rep_buf_remaining_as_chunk`. -/
def flushRepBufRemainingAsChunk (repBuf : Option ReplacementBuffer) :
    List ClientWrite × Option ReplacementBuffer :=
  match repBuf with
  | none => ([], none)
  | some rb =>
    let (remaining, rb) := rb.flushRemaining v
    (((makeTrailingTextEvent J provider remaining).map ClientWrite.event).toList, some rb)

/-- An event that carries text goes through the buffer, if there is one; an
    event without text, or without a buffer, is forwarded. -/
def forwardEvent (repBuf : Option ReplacementBuffer) (event : SseEvent) :
    List ClientWrite × Option ReplacementBuffer :=
  match extractTextDelta J provider event.data, repBuf with
  | some text, some rb =>
    let (flushed, rb) := rb.processDelta v text
    ([.event ⟨event.eventType, replaceTextDelta J provider event.data flushed⟩], some rb)
  | _, _ => ([.event event], repBuf)

/-- One round of the loop of `process_sse_chunk_pii`; the flag says that the
    response is done. -/
def processEvent (repBuf : Option ReplacementBuffer) (event : SseEvent) :
    List ClientWrite × Option ReplacementBuffer × Bool :=
  if isDoneSentinel event then ([.event event], repBuf, true)
  else if provider = .anthropic ∧ event.eventType = some (lit "message_stop") then
    let (flushed, repBuf) := flushRepBufRemainingAsChunk J provider v repBuf
    (flushed ++ [.event event], repBuf, true)
  else if provider = .anthropic ∧ event.eventType = some (lit "content_block_stop") then
    let (flushed, repBuf) := flushRepBufRemainingAsChunk J provider v repBuf
    let (forwarded, repBuf) := forwardEvent J provider v repBuf event
    (flushed ++ forwarded, repBuf, false)
  else
    let (forwarded, repBuf) := forwardEvent J provider v repBuf event
    (forwarded, repBuf, false)

/-- The loop of `process_sse_chunk_pii`: what follows the end of the response
    is dropped. -/
def processEvents : List SseEvent → Option ReplacementBuffer →
    List ClientWrite × Option ReplacementBuffer × Bool
  | [], repBuf => ([], repBuf, false)
  | event :: events, repBuf =>
    let (writes, repBuf, done) := processEvent J provider v repBuf event
    if done then (writes, repBuf, true)
    else
      let (rest, repBuf, done) := processEvents events repBuf
      (writes ++ rest, repBuf, done)

/-- `process_sse_chunk_pii`. -/
def processSseChunkPii (chunk : List UInt8) (parser : SseParser)
    (repBuf : Option ReplacementBuffer) :
    List ClientWrite × SseParser × Option ReplacementBuffer × Bool :=
  let (events, parser) := parser.push chunk
  let (writes, repBuf, done) := processEvents J provider v events repBuf
  (writes, parser, repBuf, done)

end Events

end PrivacyClaw
