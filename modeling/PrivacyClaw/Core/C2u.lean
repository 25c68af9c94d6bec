import PrivacyClaw.Core.Framing
import PrivacyClaw.Core.Inject

/-!
# Client to Upstream

`src/proxy/intercept/c2u.rs`: the two loops that carry requests from the client
to the upstream connection. Without personal data in play, bytes are forwarded
as they come and the request boundaries serve the log only; a chunked request is
held back and sent on with a length. In the PII mode every request is held back
until it is complete, and what is forwarded is made from its headers and its
decoded body.

A read is a non-empty list of bytes; after the last one the client is gone. The
upstream connection stays open: the loops' exits on a dead one are left out, and
so are the copies for the log. What is done with a body in the PII mode is a
parameter of the loop.

## Main definitions

* `HttpFramingState.parsed`: What the headers say.
* `needsMore`, `passTurn`, `handleC2uPassthrough`: The passthrough loop.
* `Taken`, `c2uPiiRead`, `takenRequests`: The requests the PII loop finds.
* `handleC2uPii`: What the PII loop writes.
* `storeRequestMessages`: The messages the log gets.
* `PiiPipeline.loggedMessages`: The same in replace mode, from the client's body.
-/

namespace PrivacyClaw

/-- The state once the header block is complete. -/
def HttpFramingState.parsed (raw : Str) (hdrEnd : Nat) (st : HttpFramingState) :
    HttpFramingState :=
  let contentLength := parseContentLength (raw.take hdrEnd)
  { st with
    headerDone := true
    bodyStart := hdrEnd
    contentLength := contentLength
    isChunked := contentLength.isNone && isChunkedEncoding (raw.take hdrEnd) }

/-- Whether the passthrough loop reads before its next turn. -/
def needsMore (raw : Str) (st : HttpFramingState) : Bool :=
  if !st.headerDone then (findHeaderEnd raw).isNone
  else match st.contentLength with
    | some cl => raw.length < st.bodyStart + cl
    | none =>
      if st.isChunked then (findChunkedBodyEnd (raw.drop st.bodyStart)).isNone
      -- The body goes on until the client is gone.
      else true

/-- The bytes that are forwarded at once, unless the request is chunked. -/
def forwardEagerly (raw : Str) (st : HttpFramingState) : List Str × HttpFramingState :=
  if !st.isChunked && st.forwarded < raw.length then
    ([raw.drop st.forwarded], { st with forwarded := raw.length })
  else ([], st)

/-- The end of a request: it is cut off the buffer and the state starts over. A
    chunked one is written now. `none` is a panic. -/
def passComplete (raw : Str) (st : HttpFramingState) :
    Option (List Str × Str × HttpFramingState) :=
  match st.contentLength with
  | some cl =>
    if st.bodyStart + cl ≤ raw.length then some ([], raw.drop (st.bodyStart + cl), {})
    else some ([], raw, st)
  | none =>
    if st.isChunked then
      match findChunkedBodyEnd (raw.drop st.bodyStart) with
      | some stop => do
        let decoded ← decodeChunkedBody ((raw.drop st.bodyStart).take stop)
        let forward := match decoded with
          | some body => rebuildRequestWithContentLength (raw.take st.bodyStart) body
          | none => raw.take (st.bodyStart + stop)
        some ([forward], raw.drop (st.bodyStart + stop), {})
      | none => some ([], raw, st)
    else some ([], raw, st)

/-- A turn of the passthrough loop on what has been read. -/
def passTurn (raw : Str) (st : HttpFramingState) : Option (List Str × Str × HttpFramingState) :=
  if st.headerDone then do
    let (eager, st) := forwardEagerly raw st
    let (writes, raw, st) ← passComplete raw st
    some (eager ++ writes, raw, st)
  else match findHeaderEnd raw with
    | none => some ([], raw, st)
    | some hdrEnd => do
      let (eager, st) := forwardEagerly raw (st.parsed raw hdrEnd)
      let (writes, raw, st) ← passComplete raw st
      some (eager ++ writes, raw, st)

/-- The passthrough loop; a turn without a read takes bytes off the buffer or
    completes a header block. -/
def passLoop : Nat → Str → HttpFramingState → List Str → List Str
  | 0, _, _, _ => []
  | fuel + 1, raw, st, reads =>
    if needsMore raw st then
      match reads with
      | [] => []
      | chunk :: reads =>
        match passTurn (raw ++ chunk) st with
        | none => []
        | some (writes, raw, st) => writes ++ passLoop fuel raw st reads
    else match passTurn raw st with
      | none => []
      | some (writes, raw, st) => writes ++ passLoop fuel raw st reads

/-- `handle_c2u_passthrough`: what is written upstream. -/
def handleC2uPassthrough (reads : List Str) : List Str :=
  passLoop (reads.flatten.length + 2 * reads.length + 2) [] {} reads

/-- A request as the PII loop takes it off its buffer: the header block, the
    decoded body, and how many bytes it took. -/
structure Taken where
  header : Str
  body : Str
  consumed : Nat
  deriving DecidableEq, Repr

/-- The state of the PII loop after a read. -/
def piiReceived (chunk raw : Str) (st : HttpFramingState) : HttpFramingState :=
  if st.headerDone then { st with bodyReceived := st.bodyReceived + chunk.length }
  else match findHeaderEnd raw with
    | some hdrEnd => { st.parsed raw hdrEnd with bodyReceived := raw.length - hdrEnd }
    | none => st

/-- The test for a complete body. -/
def bodyDone (raw : Str) (st : HttpFramingState) : Bool :=
  st.headerDone && match st.contentLength with
    | some cl => cl ≤ st.bodyReceived
    | none =>
      if st.isChunked then (findChunkedBodyEnd (raw.drop st.bodyStart)).isSome
      -- Without a declaration there is no body.
      else true

/-- The request that is complete: a chunked body is decoded, or kept as it is
    where that fails. `none` is a panic. -/
def takeRequest (raw : Str) (st : HttpFramingState) : Option Taken :=
  if st.isChunked then do
    let stop ← findChunkedBodyEnd (raw.drop st.bodyStart)
    let chunked := (raw.drop st.bodyStart).take stop
    let decoded ← decodeChunkedBody chunked
    some ⟨raw.take st.bodyStart, decoded.getD chunked, st.bodyStart + stop⟩
  else
    let cl := st.contentLength.getD st.bodyReceived
    some ⟨raw.take st.bodyStart, (raw.drop st.bodyStart).take cl, st.bodyStart + cl⟩

/-- A read of the PII loop. -/
def c2uPiiRead (chunk raw : Str) (st : HttpFramingState) :
    Option (Option Taken × Str × HttpFramingState) :=
  let raw := raw ++ chunk
  let st := piiReceived chunk raw st
  if bodyDone raw st then do
    let taken ← takeRequest raw st
    some (some taken, raw.drop (min taken.consumed raw.length), {})
  else some (none, raw, st)

/-- The requests the PII loop takes, over a list of reads. -/
def takenRequests : List Str → Str → HttpFramingState → List Taken
  | [], _, _ => []
  | chunk :: reads, raw, st =>
    match c2uPiiRead chunk raw st with
    | none => []
    | some (taken, raw, st) => taken.toList ++ takenRequests reads raw st

/-- The requests written upstream, with `process` what is done with a body;
    `none` is a panic. -/
def forwardAll {σ : Type} (process : Str → σ → Option (Str × σ)) : List Taken → σ → List Str
  | [], _ => []
  | taken :: rest, s =>
    match process taken.body s with
    | none => []
    | some (body, s) =>
      rebuildRequestWithContentLength taken.header body :: forwardAll process rest s

/-- `handle_c2u_pii`: what is written upstream. -/
def handleC2uPii {σ : Type} (process : Str → σ → Option (Str × σ)) (reads : List Str) (s : σ) :
    List Str :=
  forwardAll process (takenRequests reads [] {}) s

/-- The fields of a stored request message that come from the bodies. -/
structure StoredMessage where
  role : Str
  content : Str
  contentMasked : Option Str
  deriving DecidableEq, Repr

/-- `store_request_messages`, with `stored` messages of the conversation in the
    log already. -/
def storeRequestMessages (J : SerdeJson) (provider : Provider) (originalBody : List UInt8)
    (replacedBody : Option (List UInt8)) (stored : Nat) : List StoredMessage :=
  match parseRequest J provider originalBody with
  | none => []
  | some parsed =>
    let replaced := (replacedBody.bind (parseRequest J provider)).map ParsedRequest.messages
    (parsed.messages.drop stored).zipIdx.map fun (msg, i) =>
      ⟨msg.role, msg.content,
        replaced.bind fun rm => rm[stored + i]?.map Message.content⟩

section Logged

variable (R : Rand) (C : Chrono) (h : Hashes)

/-- Phase B of `handle_c2u_pii` in replace mode: the forwarded body is the masked
    one where something was detected. -/
def PiiPipeline.loggedMessages (p : PiiPipeline) (J : SerdeJson) (original : List UInt8)
    (reads : Nat → Nat) (v : PiiVault) (provider : Provider) (locale : Locale) (stored : Nat) :
    Option (List StoredMessage) := do
  let (forward, detections, _) ← p.forwardBody R C h J original reads v provider locale
  let replaced := if detections.isEmpty then none else some forward
  some (storeRequestMessages J provider original replaced stored)

end Logged

end PrivacyClaw
