import PrivacyClaw.Core.U2c

/-!
# The Logged Answer

`src/proxy/intercept/u2c.rs`, `src/proxy/intercept/pii_sse.rs` and the
`extract_sse_delta` of `src/parser`: what the response loop keeps of an answer
for storage. The text of the events is collected up to a limit; when the loop
takes a response for complete, or the connection ends, the text collected so far
is handed over to be stored, and the next response starts with none.

Nothing of it decides what the loop does, so it stands beside the loop: a read
is the read of the loop, and the log of the read. The token counts, the
dashboard's events and the rest of the stored record are left out.

## Main definitions

* `extractSseDelta`: The text of an event, as it is logged.
* `Transcript`: The text collected for a response.
* `logResponseChunk`: A body piece that is forwarded as it is.
* `logSseChunkPii`: A body piece in replace mode.
* `logRead`: One read.
* `handleU2cLog`: What is handed over for storage, response by response.
-/

namespace PrivacyClaw

/-- `MAX_SSE_BUFFER`. -/
def maxSseBuffer : Nat := 10 * 1024 * 1024

namespace Anthropic

/-- `anthropic::extract_sse_delta`. -/
def extractSseDelta (J : SerdeJson) (event : SseEvent) : Option Str :=
  if event.eventType = some (lit "content_block_start") then do
    let v ← J.fromStr event.data
    let block ← v.get (lit "content_block")
    let blockType ← block.getStr (lit "type")
    if blockType = lit "tool_use" then
      let name ← block.get (lit "name")
      some (lit "\n[" ++ name.asStr.getD (lit "unknown") ++ lit "] ")
    else none
  else if event.eventType = some (lit "content_block_delta") then do
    let v ← J.fromStr event.data
    let delta ← v.get (lit "delta")
    let deltaType ← delta.getStr (lit "type")
    if deltaType = lit "text_delta" then delta.getStr (lit "text")
    else if deltaType = lit "input_json_delta" then delta.getStr (lit "partial_json")
    else if deltaType = lit "thinking_delta" then
      ((delta.getStr (lit "thinking")).filter (· ≠ [])).map (lit "[thinking] " ++ ·)
    else none
  else none

end Anthropic

namespace OpenAi

/-- `openai::extract_sse_delta`. -/
def extractSseDelta (J : SerdeJson) (event : SseEvent) : Option Str :=
  if isDoneSentinel event then none
  else do
    let v ← J.fromStr event.data
    let choice ← (← v.getArray (lit "choices")).head?
    (← choice.get (lit "delta")).getStr (lit "content")

end OpenAi

namespace Google

/-- `google::extract_sse_delta`. -/
def extractSseDelta (J : SerdeJson) (event : SseEvent) : Option Str := do
  let v ← J.fromStr event.data
  let candidate ← (← v.getArray (lit "candidates")).head?
  let part ← (← (← candidate.get (lit "content")).getArray (lit "parts")).head?
  part.getStr (lit "text")

end Google

/-- `extract_sse_delta`. -/
def extractSseDelta (J : SerdeJson) : Provider → SseEvent → Option Str
  | .anthropic => Anthropic.extractSseDelta J
  | .openAi => OpenAi.extractSseDelta J
  | .google => Google.extractSseDelta J
  | .unknown => OpenAi.extractSseDelta J

/-- What the loop collects of a response. -/
structure Transcript where
  accumulated : Str
  syntheticAccumulated : Str
  accumulationStopped : Bool
  deriving DecidableEq, Repr

namespace Transcript

/-- Before a response. -/
def new : Transcript := ⟨[], [], false⟩

/-- More text; the text that passes the limit is the last one. -/
def push (text : Str) (t : Transcript) : Transcript :=
  if t.accumulationStopped then t
  else
    let accumulated := t.accumulated ++ text
    { t with
      accumulated := accumulated
      accumulationStopped := maxSseBuffer < accumulated.length }

/-- More text, where the code does not look at the limit. -/
def pushUnchecked (text : Str) (t : Transcript) : Transcript :=
  if t.accumulationStopped then t else { t with accumulated := t.accumulated ++ text }

/-- More text as it was before the originals were put back. -/
def pushSynthetic (text : Str) (t : Transcript) : Transcript :=
  if t.accumulationStopped then t
  else { t with syntheticAccumulated := t.syntheticAccumulated ++ text }

end Transcript

section Loop

variable (env : U2cEnv)

/-- The event loop of `process_response_chunk`. -/
def logResponseEvents : List SseEvent → Transcript → Transcript
  | [], t => t
  | event :: events, t =>
    if endsResponse env event then t
    else match extractSseDelta env.json env.provider event with
      | some delta =>
        logResponseEvents events (if delta.isEmpty then t else t.push delta)
      | none => logResponseEvents events t

/-- `process_response_chunk`: what it adds to the transcript. -/
def logResponseChunk (chunk : List UInt8) (s : U2cState) (t : Transcript) : Transcript :=
  if s.isSse then logResponseEvents env (s.sseParser.push chunk).1 t else t

/-- `flush_rep_buf_remaining_as_chunk` and `flush_rep_buf_and_finalize`: the
    text that was held back. -/
def logFlush (repBuf : Option ReplacementBuffer) (t : Transcript) : Transcript :=
  match repBuf with
  | none => t
  | some rb =>
    let (remaining, _) := rb.flushRemaining env.vaultOr
    if remaining.isEmpty then t else t.pushUnchecked remaining

/-- `emit_text_delta` and `forward_non_pii_delta`: an event that carries text
    goes through the buffer, if there is one. -/
def logForward (repBuf : Option ReplacementBuffer) (event : SseEvent) (t : Transcript) :
    Transcript :=
  match extractTextDelta env.json env.provider event.data, repBuf with
  | some text, some rb =>
    let t := t.pushSynthetic text
    let (flushed, _) := rb.processDelta env.vaultOr text
    if flushed.isEmpty then t else t.push flushed
  | _, _ =>
    match extractSseDelta env.json env.provider event with
    | some delta => if delta.isEmpty then t else t.pushUnchecked delta
    | none => t

/-- One round of the loop of `process_sse_chunk_pii`. -/
def logEvent (repBuf : Option ReplacementBuffer) (event : SseEvent) (t : Transcript) :
    Transcript :=
  if isDoneSentinel event then t
  else if env.provider = .anthropic ∧ event.eventType = some (lit "message_stop") then
    logFlush env repBuf t
  else if env.provider = .anthropic ∧ event.eventType = some (lit "content_block_stop") then
    let (_, flushed) := flushRepBufRemainingAsChunk env.json env.provider env.vaultOr repBuf
    logForward env flushed event (logFlush env repBuf t)
  else logForward env repBuf event t

/-- The loop of `process_sse_chunk_pii`. -/
def logEvents : List SseEvent → Option ReplacementBuffer → Transcript → Transcript
  | [], _, t => t
  | event :: events, repBuf, t =>
    let (_, next, done) := processEvent env.json env.provider env.vaultOr repBuf event
    let t := logEvent env repBuf event t
    if done then t else logEvents events next t

/-- `process_sse_chunk_pii`: what it adds to the transcript. -/
def logSseChunkPii (chunk : List UInt8) (s : U2cState) (t : Transcript) : Transcript :=
  logEvents env (s.sseParser.push chunk).1 s.repBuf t

/-- A piece of the body. -/
def logPiece (chunk : List UInt8) (s : U2cState) (t : Transcript) : Transcript :=
  if env.piiReplace && s.isSse then
    let decoded := match s.chunkDecoder with
      | some cd => (cd.push chunk).1
      | none => chunk
    if decoded.isEmpty then t else logSseChunkPii env decoded s t
  else logResponseChunk env chunk s t

/-- A read up to the question whether the response is complete. -/
def logRead (chunk : List UInt8) (s : U2cState) (t : Transcript) : Transcript :=
  if s.headerDone then logPiece env chunk s t
  else
    let raw := s.raw ++ chunk
    match findHeaderEnd raw with
    | none => t
    | some hdrEnd =>
      if hdrEnd < raw.length then
        logPiece env (raw.drop hdrEnd) (headersDone env (raw.take hdrEnd) s) t
      else t

/-- The loop from a state and a transcript on: what `finalize_response` is
    handed for every response, and at the end of the connection. -/
def u2cLog : List (List UInt8) → U2cState → Transcript → List Transcript
  | [], s, t => [logFlush env s.repBuf t]
  | chunk :: chunks, s, t =>
    let (_, after, sseDone) := takeRead env chunk s
    let t := logRead env chunk s t
    let (_, next) := u2cRead env chunk s
    if responseComplete after sseDone && after.headerDone then
      logFlush env after.repBuf t :: u2cLog chunks next Transcript.new
    else u2cLog chunks next t

/-- `handle_u2c`: the transcripts of a connection. -/
def handleU2cLog (reads : List (List UInt8)) : List Transcript :=
  u2cLog env reads U2cState.start Transcript.new

end Loop

end PrivacyClaw
