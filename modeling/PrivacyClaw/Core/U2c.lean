import PrivacyClaw.Core.PiiSse

/-!
# Upstream to Client

`src/proxy/intercept/u2c.rs`: the loop that carries responses from the upstream
connection to the client. It reads what there is, looks for the end of the
headers, and from there on forwards the body, through the replacement buffer if
the body is an event stream and personal data is being replaced. When it takes a
response for complete it resets its state and waits for the next header block on
the same connection.

The state is what the loop keeps from one read to the next, without the copies
for the dashboard and for storage. The vault is behind a lock that the request
side shares; the environment holds it as it is while the responses are read. A
response starts without a buffer when no vault was there in time.

## Main definitions

* `U2cState`: What the loop keeps.
* `processResponseChunk`: A body piece that is forwarded as it is.
* `bodyPiece`: A body piece, on either path.
* `flushRepBufAndFinalize`: The end of a response.
* `u2cRead`: One read.
* `handleU2c`: All reads, and the end of the connection.
-/

namespace PrivacyClaw

/-- The environment of a connection: the provider, whether data is being
    replaced, and the vault. -/
structure U2cEnv where
  json : SerdeJson
  provider : Provider
  piiReplace : Bool
  vault : Option PiiVault

/-- The vault behind a buffer's handle. -/
def U2cEnv.vaultOr (env : U2cEnv) : PiiVault := env.vault.getD (PiiVault.empty [] 0)

/-- The per-response state of `handle_u2c`. -/
structure U2cState where
  raw : List UInt8
  headerDone : Bool
  isSse : Bool
  isChunkedResp : Bool
  sseParser : SseParser
  bodyBuf : List UInt8
  contentLength : Option Nat
  bodyReceived : Nat
  repBuf : Option ReplacementBuffer
  chunkDecoder : Option ChunkedDecoder
  deriving DecidableEq, Repr

namespace U2cState

/-- The state before a response. -/
def start : U2cState where
  raw := []
  headerDone := false
  isSse := false
  isChunkedResp := false
  sseParser := SseParser.new
  bodyBuf := []
  contentLength := none
  bodyReceived := 0
  repBuf := none
  chunkDecoder := none

end U2cState

section Loop

variable (env : U2cEnv)

/-- The event loop of `process_response_chunk`: whether the end is among the
    events. -/
def endsResponse (event : SseEvent) : Bool :=
  isDoneSentinel event ||
    (env.provider = .anthropic && event.eventType = some (lit "message_stop"))

/-- `process_response_chunk`, for a piece that was forwarded already. -/
def processResponseChunk (chunk : List UInt8) (s : U2cState) : U2cState × Bool :=
  if s.isSse then
    let (events, parser) := s.sseParser.push chunk
    ({ s with sseParser := parser }, events.any (endsResponse env))
  else ({ s with bodyBuf := s.bodyBuf ++ chunk }, false)

/-- A piece of the body: what is written, and whether the event stream is
    done. -/
def bodyPiece (chunk : List UInt8) (s : U2cState) : List ClientWrite × U2cState × Bool :=
  if env.piiReplace && s.isSse then
    let (decoded, chunkDecoder) := match s.chunkDecoder with
      | some cd =>
        let (decoded, cd) := cd.push chunk
        (decoded, some cd)
      | none => (chunk, none)
    let s := { s with chunkDecoder := chunkDecoder }
    -- A piece that holds only framing writes nothing.
    if decoded.isEmpty then ([], s, false)
    else
      let (writes, parser, repBuf, done) :=
        processSseChunkPii env.json env.provider env.vaultOr decoded s.sseParser s.repBuf
      (writes, { s with sseParser := parser, repBuf := repBuf }, done)
  else
    let (s, done) := processResponseChunk env chunk s
    ([.raw chunk], s, done)

/-- The state once the headers are complete. -/
def headersDone (headers : List UInt8) (s : U2cState) : U2cState :=
  let isSse := isEventStream headers
  let contentLength := parseContentLength headers
  let isChunkedResp := contentLength.isNone && isChunkedEncoding headers
  { s with
    raw := []
    headerDone := true
    isSse := isSse
    contentLength := contentLength
    isChunkedResp := isChunkedResp
    repBuf :=
      if env.piiReplace && isSse then env.vault.map fun _ => ReplacementBuffer.new else s.repBuf
    chunkDecoder :=
      if env.piiReplace && isSse && isChunkedResp then some ChunkedDecoder.new
      else s.chunkDecoder }

/-- A read up to the question whether the response is complete. -/
def takeRead (chunk : List UInt8) (s : U2cState) : List ClientWrite × U2cState × Bool :=
  if s.headerDone then
    bodyPiece env chunk { s with bodyReceived := s.bodyReceived + chunk.length }
  else
    let raw := s.raw ++ chunk
    match findHeaderEnd raw with
    | none => ([], { s with raw := raw }, false)
    | some hdrEnd =>
      let s := headersDone env (raw.take hdrEnd) s
      if hdrEnd < raw.length then
        let (writes, s, done) := bodyPiece env (raw.drop hdrEnd)
          { s with bodyReceived := s.bodyReceived + (raw.length - hdrEnd) }
        (.raw (raw.take hdrEnd) :: writes, s, done)
      else ([.raw (raw.take hdrEnd)], s, false)

/-- `flush_rep_buf_and_finalize`: what is written to the client. -/
def flushRepBufAndFinalize (repBuf : Option ReplacementBuffer) : List ClientWrite :=
  (flushRepBufRemainingAsChunk env.json env.provider env.vaultOr repBuf).1

/-- Whether the loop takes the response for complete. -/
def responseComplete (s : U2cState) (sseDone : Bool) : Bool :=
  sseDone ||
    (!s.isSse && (match s.contentLength with
      | some cl => cl ≤ s.bodyReceived
      | none => false)) ||
    (s.isChunkedResp && !s.isSse && (findChunkedBodyEnd s.bodyBuf).isSome)

/-- One read of the loop. -/
def u2cRead (chunk : List UInt8) (s : U2cState) : List ClientWrite × U2cState :=
  let (writes, s, sseDone) := takeRead env chunk s
  -- The state starts over for the next response of the connection.
  if responseComplete s sseDone && s.headerDone then
    (writes ++ flushRepBufAndFinalize env s.repBuf ++
      (if env.piiReplace && s.isSse then [.last] else []), { U2cState.start with raw := s.raw })
  else (writes, s)

/-- The loop over a list of reads. -/
def u2cReads : List (List UInt8) → U2cState → List ClientWrite × U2cState
  | [], s => ([], s)
  | chunk :: chunks, s =>
    let (writes, s) := u2cRead env chunk s
    let (rest, s) := u2cReads chunks s
    (writes ++ rest, s)

/-- `handle_u2c`: the reads until the connection ends, and the last flush. -/
def handleU2c (reads : List (List UInt8)) : List ClientWrite :=
  let (writes, s) := u2cReads env reads U2cState.start
  writes ++ flushRepBufAndFinalize env s.repBuf

end Loop

end PrivacyClaw
