import PrivacyClaw.Core.C2u

/-!
# Sums and Slices of the Request Loops

The request loops of `src/proxy/intercept/c2u.rs` once more, with every addition,
subtraction and slice as the code makes it: a sum that does not fit in 64 bits is
a panic, and so is a slice that the buffer does not have. What they do otherwise
is in `Core.C2u`.

The loops are machines here. A read brings at least one byte and leaves the buffer
within the largest allocation; at the end of the stream nothing more is read. The
passthrough loop also takes turns without a read.

## Main definitions

* `Checked.add`, `Checked.sub`, `Checked.sliceFrom`, `Checked.sliceBytes`: The
  operations that may panic.
* `Checked.passTurn`, `Checked.passEof`: The passthrough loop.
* `Checked.c2uPiiRead`: The PII loop.
* `LoopState`, `passStep`, `piiStep`: The loops as machines.
-/

namespace PrivacyClaw

namespace Checked

/-- `a + b`. -/
def add (a b : Nat) : Option Nat := if a + b < 2 ^ 64 then some (a + b) else none

/-- `a - b`. -/
def sub (a b : Nat) : Option Nat := if b ≤ a then some (a - b) else none

/-- `&s[a..]`, and what `s.drain(..a)` leaves. -/
def sliceFrom (s : Str) (a : Nat) : Option Str := if a ≤ s.length then some (s.drop a) else none

/-- `&s[a..b]` of a byte slice. -/
def sliceBytes (s : Str) (a b : Nat) : Option Str :=
  if a ≤ b ∧ b ≤ s.length then some ((s.take b).drop a) else none

/-- The state once the header block is complete. -/
def parsed (raw : Str) (hdrEnd : Nat) (st : HttpFramingState) : Option HttpFramingState := do
  let header ← sliceBytes raw 0 hdrEnd
  let contentLength := parseContentLength header
  some { st with
    headerDone := true
    bodyStart := hdrEnd
    contentLength := contentLength
    isChunked := contentLength.isNone && isChunkedEncoding header }

/-- Whether the passthrough loop reads before its next turn. -/
def needsMore (raw : Str) (st : HttpFramingState) : Option Bool :=
  if !st.headerDone then some (findHeaderEnd raw).isNone
  else match st.contentLength with
    | some cl => do
      let stop ← add st.bodyStart cl
      some (raw.length < stop)
    | none =>
      if st.isChunked then do
        let body ← sliceFrom raw st.bodyStart
        some (findChunkedBodyEnd body).isNone
      else some true

/-- What has not been forwarded. -/
def forwardRest (raw : Str) (st : HttpFramingState) : Option (List Str × HttpFramingState) := do
  let new ← sliceFrom raw st.forwarded
  some ([new], { st with forwarded := raw.length })

/-- The bytes that are forwarded at once. -/
def forwardEagerly (raw : Str) (st : HttpFramingState) : Option (List Str × HttpFramingState) :=
  if !st.isChunked && st.forwarded < raw.length then forwardRest raw st else some ([], st)

/-- The end of a request. -/
def passComplete (raw : Str) (st : HttpFramingState) :
    Option (List Str × Str × HttpFramingState) :=
  match st.contentLength with
  | some cl => do
    let stop ← add st.bodyStart cl
    if stop ≤ raw.length then
      -- the body for the log
      let _ ← sliceBytes raw st.bodyStart stop
      let rest ← sliceFrom raw stop
      some ([], rest, {})
    else some ([], raw, st)
  | none =>
    if st.isChunked then do
      let body ← sliceFrom raw st.bodyStart
      match findChunkedBodyEnd body with
      | some n => do
        let stop ← add st.bodyStart n
        let chunked ← sliceBytes raw st.bodyStart stop
        let decoded ← decodeChunkedBody chunked
        let forward ← match decoded with
          | some body => do
            let header ← sliceBytes raw 0 st.bodyStart
            some (rebuildRequestWithContentLength header body)
          | none => sliceBytes raw 0 stop
        let rest ← sliceFrom raw stop
        some ([forward], rest, {})
      | none => some ([], raw, st)
    else some ([], raw, st)

/-- A turn of the passthrough loop on what has been read. -/
def passTurn (raw : Str) (st : HttpFramingState) : Option (List Str × Str × HttpFramingState) :=
  if st.headerDone then do
    let (eager, st) ← forwardEagerly raw st
    let (writes, raw, st) ← passComplete raw st
    some (eager ++ writes, raw, st)
  else match findHeaderEnd raw with
    | none => some ([], raw, st)
    | some hdrEnd => do
      let st ← parsed raw hdrEnd st
      let (first, st) ← if !st.isChunked then forwardRest raw st else some ([], st)
      let (eager, st) ← forwardEagerly raw st
      let (writes, raw, st) ← passComplete raw st
      some (first ++ eager ++ writes, raw, st)

/-- Behind the passthrough loop: the body of a request that declares none. -/
def passEof (raw : Str) (st : HttpFramingState) : Option Str :=
  if st.headerDone && st.contentLength.isNone && !st.isChunked then sliceFrom raw st.bodyStart
  else some []

/-- The state of the PII loop after a read. -/
def piiReceived (chunk raw : Str) (st : HttpFramingState) : Option HttpFramingState :=
  if st.headerDone then do
    let received ← add st.bodyReceived chunk.length
    some { st with bodyReceived := received }
  else match findHeaderEnd raw with
    | some hdrEnd => do
      let st ← parsed raw hdrEnd st
      let received ← sub raw.length st.bodyStart
      some { st with bodyReceived := received }
    | none => some st

/-- The test for a complete body; its log line subtracts too. -/
def bodyDone (raw : Str) (st : HttpFramingState) : Option Bool :=
  if st.headerDone then
    match st.contentLength with
    | some cl => some (cl ≤ st.bodyReceived)
    | none =>
      if st.isChunked then do
        let body ← sliceFrom raw st.bodyStart
        let _ ← sub raw.length st.bodyStart
        some (findChunkedBodyEnd body).isSome
      else some true
  else some false

/-- The request that is complete. -/
def takeRequest (raw : Str) (st : HttpFramingState) : Option Taken :=
  if st.isChunked then do
    let body ← sliceFrom raw st.bodyStart
    let n ← findChunkedBodyEnd body
    let stop ← add st.bodyStart n
    let chunked ← sliceBytes raw st.bodyStart stop
    let decoded ← decodeChunkedBody chunked
    let header ← sliceBytes raw 0 st.bodyStart
    some ⟨header, decoded.getD chunked, stop⟩
  else do
    let stop ← add st.bodyStart (st.contentLength.getD st.bodyReceived)
    let body ← sliceBytes raw st.bodyStart stop
    let header ← sliceBytes raw 0 st.bodyStart
    some ⟨header, body, stop⟩

/-- A read of the PII loop. -/
def c2uPiiRead (chunk raw : Str) (st : HttpFramingState) :
    Option (Option Taken × Str × HttpFramingState) := do
  let st ← piiReceived chunk (raw ++ chunk) st
  let done ← bodyDone (raw ++ chunk) st
  if done then
    let taken ← takeRequest (raw ++ chunk) st
    let rest ← sliceFrom (raw ++ chunk) (min taken.consumed (raw ++ chunk).length)
    some (some taken, rest, {})
  else some (none, raw ++ chunk, st)

end Checked

/-- A request loop between two events. -/
inductive LoopState where
  | running (raw : Str) (st : HttpFramingState)
  | finished
  | panicked
  deriving DecidableEq, Repr

namespace LoopState

/-- A request loop that has read nothing. -/
def start : LoopState := .running [] {}

/-- The loop after a turn. -/
def after {α : Type} : Option (α × Str × HttpFramingState) → LoopState
  | none => .panicked
  | some (_, raw, st) => .running raw st

end LoopState

/-- What happens to the passthrough loop: a read, a turn without one, or the end
    of the stream. -/
inductive PassEvent where
  | read (chunk : Str)
  | turn
  | eof
  deriving DecidableEq, Repr

/-- Whether a read can bring `chunk`. -/
def CanRead (raw chunk : Str) : Prop := chunk ≠ [] ∧ (raw ++ chunk).length < 2 ^ 63

instance (raw chunk : Str) : Decidable (CanRead raw chunk) :=
  inferInstanceAs (Decidable (_ ∧ _))

/-- A step of the passthrough loop; `none` for what cannot happen. -/
def passStep (e : PassEvent) : LoopState → Option LoopState
  | .running raw st =>
    match Checked.needsMore raw st, e with
    | none, _ => some .panicked
    | some true, .read chunk =>
      if CanRead raw chunk then some (.after (Checked.passTurn (raw ++ chunk) st)) else none
    | some true, .eof =>
      match Checked.passEof raw st with
      | none => some .panicked
      | some _ => some .finished
    | some false, .turn => some (.after (Checked.passTurn raw st))
    | _, _ => none
  | .finished => none
  | .panicked => none

/-- A step of the PII loop: a read. -/
def piiStep (chunk : Str) : LoopState → Option LoopState
  | .running raw st =>
    if CanRead raw chunk then some (.after (Checked.c2uPiiRead chunk raw st)) else none
  | .finished => none
  | .panicked => none

end PrivacyClaw
