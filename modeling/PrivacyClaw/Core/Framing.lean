import PrivacyClaw.Core.Text

/-!
# HTTP Framing

`src/proxy/intercept/framing.rs`: where the headers end, what they say about the
body, the chunked transfer encoding in both directions, and the request that is
put together again from its headers and a decoded body.

## Main definitions

* `findHeaderEnd`: The end of the header block.
* `parseContentLength`, `isChunkedEncoding`, `isEventStream`: What the headers
  say.
* `findChunkedBodyEnd`: The end of a chunked body, in the usual form.
* `HttpFramingState`: What the request loops keep of a request.
* `writeHttpChunk`, `lastChunk`: Writing chunks.
* `ChunkedDecoder`, `push`: Reading chunks as they arrive.
* `decodeChunkedBody`: Reading the chunks of a complete body.
* `rebuildRequestWithContentLength`: Headers and body, with the length set.
-/

namespace PrivacyClaw

/-- The bytes that end a header line. -/
def crlf : Str := lit "\r\n"

/-- `find_header_end`: the offset behind the first blank line. -/
def findHeaderEnd (data : List UInt8) : Option Nat :=
  (Search.find (lit "\r\n\r\n") data).map (· + 4)

theorem findHeaderEnd_bounds (data : Str) (n : Nat) (h : findHeaderEnd data = some n) :
    4 ≤ n ∧ n ≤ data.length := by
  rcases Option.map_eq_some_iff.mp h with ⟨i, hi, rfl⟩
  have hocc := (Search.find_eq_some _ _ _ hi).1.length_le
  have hle := (Search.find_eq_some _ _ _ hi).2.1
  have hlen : (lit "\r\n\r\n").length = 4 := by decide
  rw [List.length_drop] at hocc
  omega

/-- A header block that has ended stays where it is. -/
theorem findHeaderEnd_append (data more : Str) (n : Nat) (h : findHeaderEnd data = some n) :
    findHeaderEnd (data ++ more) = some n := by
  rcases Option.map_eq_some_iff.mp h with ⟨i, hi, rfl⟩
  rw [findHeaderEnd, Search.find_append_of_some _ _ _ _ hi, Option.map_some]

/-- Without its last bytes a header block has not ended. -/
theorem findHeaderEnd_short (header p r : Str) (h : findHeaderEnd header = some header.length)
    (hp : header = p ++ r) (hr : r ≠ []) : findHeaderEnd p = none := by
  cases hj : findHeaderEnd p with
  | none => rfl
  | some n =>
      -- the blank line in `p` would be the one in the headers
      have hend := findHeaderEnd_append p r n hj
      have hle := (findHeaderEnd_bounds p n hj).2
      have hpos := List.length_pos_of_ne_nil hr
      rw [← hp, h, Option.some.injEq, hp, List.length_append] at hend
      omega

/-- The beginning of a message is a part of the headers, or all of them and a
    part of the body. -/
theorem prefix_cases (p header body : Str) (hp : p <+: header ++ body) :
    (∃ r, header = p ++ r ∧ r ≠ []) ∨ ∃ b, p = header ++ b := by
  by_cases hlen : p.length < header.length
  · rcases List.prefix_of_prefix_length_le hp (List.prefix_append header body)
      (Nat.le_of_lt hlen) with ⟨r, hr⟩
    refine .inl ⟨r, hr.symm, ?_⟩
    rintro rfl
    rw [List.append_nil] at hr
    rw [hr] at hlen
    omega
  · rcases List.prefix_of_prefix_length_le (List.prefix_append header body) hp
      (Nat.le_of_not_lt hlen) with ⟨b, hb⟩
    exact .inr ⟨b, hb.symm⟩

/-- `parse_content_length`: the first such header decides. -/
def parseContentLength (headers : List UInt8) : Option Nat :=
  if utf8Valid headers then
    match (lines headers).find? fun line =>
        (lit "content-length:").isPrefixOf (toLowercase line) with
    | some line => fromStrRadix 10 (trim ((toLowercase line).drop 15))
    | none => none
  else none

/-- Some header line starts with `name` and holds `value`; the comparison is in
    lower case. -/
def hasHeader (name value headers : Str) : Bool :=
  (lines headers).any fun line =>
    name.isPrefixOf (toLowercase line) && contains value (toLowercase line)

/-- `is_chunked_encoding`. -/
def isChunkedEncoding (headers : List UInt8) : Bool :=
  utf8Valid headers && hasHeader (lit "transfer-encoding:") (lit "chunked") headers

/-- The test for an event stream. The text is decoded with replacement
    characters first, which keeps every ASCII byte in its place. -/
def isEventStream (headers : List UInt8) : Bool := contains (lit "text/event-stream") headers

/-- `find_chunked_body_end`. -/
def findChunkedBodyEnd (body : List UInt8) : Option Nat :=
  match Search.find (lit "\r\n0\r\n\r\n") body with
  | some pos => some (pos + 7)
  | none => if (lit "0\r\n\r\n").isPrefixOf body then some 5 else none

/-- `HttpFramingState`, by default that of a request of which nothing is
    known. -/
structure HttpFramingState where
  headerDone : Bool := false
  contentLength : Option Nat := none
  isChunked : Bool := false
  bodyStart : Nat := 0
  forwarded : Nat := 0
  bodyReceived : Nat := 0
  deriving DecidableEq, Repr

/-- The `{:X}` form of an unsigned integer. -/
def hexUpper (n : Nat) : Str :=
  (Nat.toDigits 16 n).map fun c => UInt8.ofNat c.toUpper.toNat

/-- `write_http_chunk`: the bytes written. -/
def writeHttpChunk (data : Str) : Str := hexUpper data.length ++ crlf ++ data ++ crlf

/-- The chunk that ends a body. -/
def lastChunk : Str := lit "0\r\n\r\n"

/-- `ChunkDecoderState`. -/
inductive ChunkDecoderState where
  | readingSize | readingBody | bodyTrail
  deriving DecidableEq, Repr

/-- `ChunkedDecoder`. -/
structure ChunkedDecoder where
  buf : List UInt8
  chunkRemaining : Nat
  state : ChunkDecoderState
  deriving DecidableEq, Repr

namespace ChunkedDecoder

/-- `ChunkedDecoder::new`. -/
def new : ChunkedDecoder := ⟨[], 0, .readingSize⟩

/-- The size in a chunk's size line: extensions are cut off, and a line that
    is not UTF-8 counts as empty. -/
def chunkSize (line : List UInt8) : Option Nat :=
  fromStrRadix 16 (trim ((if utf8Valid line then line else []).takeWhile (· ≠ 59)))

/-- The loop of `push`. The flag says that it stopped at the last chunk, where
    the buffer is cleared, or at a line it cannot read as a size. -/
def drain : Nat → ChunkedDecoder → List UInt8 × ChunkedDecoder × Bool
  | 0, d => ([], d, false)
  | fuel + 1, d =>
    match d.state with
    | .readingSize =>
      match Search.find crlf d.buf with
      | none => ([], d, false)
      | some i =>
        match chunkSize (d.buf.take i) with
        -- the last chunk ends the body, whatever stands behind it
        | some 0 => ([], { d with buf := [] }, true)
        | some (n + 1) => drain fuel ⟨d.buf.drop (i + 2), n + 1, .readingBody⟩
        -- no number: the loop leaves, and would find the same line again
        | none => ([], d, true)
    | .readingBody =>
      let take := min d.chunkRemaining d.buf.length
      let rest := d.buf.drop take
      if d.chunkRemaining - take = 0 then
        let (out, d', stopped) := drain fuel ⟨rest, 0, .bodyTrail⟩
        (d.buf.take take ++ out, d', stopped)
      else (d.buf.take take, ⟨rest, d.chunkRemaining - take, .readingBody⟩, false)
    | .bodyTrail =>
      if d.buf.length < 2 then ([], d, false)
      else drain fuel ⟨d.buf.drop 2, d.chunkRemaining, .readingSize⟩

/-- `ChunkedDecoder::push`; a round that does not stop passes at least one byte
    in two rounds out of three. -/
def push (d : ChunkedDecoder) (raw : List UInt8) : List UInt8 × ChunkedDecoder :=
  let d' := { d with buf := d.buf ++ raw }
  let (out, d', _) := drain (d'.buf.length + 3) d'
  (out, d')

end ChunkedDecoder

/-- The loop of `decode_chunked_body` at offset `pos`, with `rest` what stands
    from there on. `none` is a panic: behind a chunk the loop goes on where its
    line end should have been, and the sum of offset and size may not fit. -/
def decodeChunksFrom : Nat → Nat → Str → Option (Option Str)
  | 0, _, _ => some none
  | fuel + 1, pos, rest =>
    match Search.find crlf rest with
    | none => some none
    | some i =>
      match ChunkedDecoder.chunkSize (rest.take i) with
      | none => some none
      | some 0 => some (some [])
      | some (n + 1) =>
        let data := rest.drop (i + 2)
        if 2 ^ 64 ≤ pos + (i + 2) + (n + 1) then none
        else if data.length < n + 1 then some none
        else if data.length < n + 1 + 2 then none
        else (decodeChunksFrom fuel (pos + (i + 2) + (n + 1 + 2)) (data.drop (n + 1 + 2))).map
          fun decoded => decoded.map (data.take (n + 1) ++ ·)

/-- `decode_chunked_body`; an inner `none` is its `None`. -/
def decodeChunkedBody (data : Str) : Option (Option Str) :=
  decodeChunksFrom (data.length + 1) 0 data

/-- The header lines that `rebuild_request_with_content_length` leaves out. -/
def omittedHeaders : List Str :=
  [lit "transfer-encoding:", lit "content-length:", lit "accept-encoding:"]

/-- The loop of `rebuild_request_with_content_length` over the header lines. -/
def rebuildHeaders (bodyLength : Nat) : Nat → Str → Str
  | 0, _ => []
  | fuel + 1, text =>
    if text.isEmpty then []
    else
      let lineEnd := (Search.find crlf text).getD text.length
      let line := text.take lineEnd
      let rest := text.drop (lineEnd + 2)
      if omittedHeaders.any fun name => name.isPrefixOf (toLowercase line) then
        rebuildHeaders bodyLength fuel rest
      else if line.isEmpty then
        lit "Content-Length: " ++ decimal bodyLength ++
          lit "\r\nAccept-Encoding: identity\r\n\r\n"
      else line ++ crlf ++ rebuildHeaders bodyLength fuel rest

/-- `rebuild_request_with_content_length`. -/
def rebuildRequestWithContentLength (rawHeaders body : Str) : Str :=
  if utf8Valid rawHeaders then rebuildHeaders body.length rawHeaders.length rawHeaders ++ body
  else rawHeaders ++ body

end PrivacyClaw
