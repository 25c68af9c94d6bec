import PrivacyClaw.Core.Text

/-!
# Server-Sent Events

`src/parser/sse.rs`: the events of a response body that arrives in pieces. An
event is a block of lines that ends in a blank line; the parser keeps what
follows the last blank line and goes on with it when more arrives.

## Main definitions

* `SseEvent`: An event.
* `findDoubleNewline`: The first blank line.
* `parseEventBlock`: The event of a block.
* `SseParser`, `push`: The parser.
* `isDoneSentinel`: The `[DONE]` event.
-/

namespace PrivacyClaw

/-- `SseEvent`. -/
structure SseEvent where
  eventType : Option Str
  data : Str
  deriving DecidableEq, Repr

/-- `find_double_newline` from offset `i` on: where the separator starts and
    where it ends. -/
def findDoubleNewlineFrom : Nat → Str → Option (Nat × Nat)
  | _, [] => none
  | i, c :: s =>
    if (lit "\r\n\r\n").isPrefixOf (c :: s) then some (i, i + 4)
    else if (lit "\n\n").isPrefixOf (c :: s) then some (i, i + 2)
    else findDoubleNewlineFrom (i + 1) s

/-- `find_double_newline`. -/
def findDoubleNewline (buf : Str) : Option (Nat × Nat) := findDoubleNewlineFrom 0 buf

/-- The fields of an event block, line by line: the last event type and the
    data lines. -/
def eventFields : List Str → Option Str × List Str → Option Str × List Str
  | [], acc => acc
  | line :: rest, (eventType, parts) =>
    if (lit "event:").isPrefixOf line then
      eventFields rest (some (trim (line.drop 6)), parts)
    else if (lit "data:").isPrefixOf line then
      eventFields rest (eventType, parts ++ [trim (line.drop 5)])
    else eventFields rest (eventType, parts)

/-- `parse_event_block`: nothing for a block that is not UTF-8 or has no
    data. -/
def parseEventBlock (block : List UInt8) : Option SseEvent :=
  if utf8Valid block then
    match eventFields (lines block) (none, []) with
    | (_, []) => none
    | (eventType, parts) => some ⟨eventType, List.intercalate (lit "\n") parts⟩
  else none

/-- `SseParser`. -/
structure SseParser where
  buffer : List UInt8
  deriving DecidableEq, Repr

namespace SseParser

/-- `SseParser::new`. -/
def new : SseParser := ⟨[]⟩

/-- The loop of `push`: take the blocks that are complete, and leave the
    rest. Every round passes a separator, so the length is fuel enough. -/
def blocks : Nat → List UInt8 → List SseEvent × List UInt8
  | 0, buf => ([], buf)
  | fuel + 1, buf =>
    match findDoubleNewline buf with
    | none => ([], buf)
    | some (blockEnd, drainEnd) =>
      let (events, rest) := blocks fuel (buf.drop drainEnd)
      ((parseEventBlock (buf.take blockEnd)).toList ++ events, rest)

/-- `SseParser::push`. -/
def push (p : SseParser) (bytes : List UInt8) : List SseEvent × SseParser :=
  let buf := p.buffer ++ bytes
  let (events, rest) := blocks buf.length buf
  (events, ⟨rest⟩)

end SseParser

/-- `SseParser::is_done_sentinel`. -/
def isDoneSentinel (event : SseEvent) : Bool := trim event.data == lit "[DONE]"

end PrivacyClaw
