import PrivacyClaw.Core.C2u
import PrivacyClaw.Theory.Incremental

/-!
# Requests of a Connection

What the PII loop takes off a connection that carries one request after the
other. A request is its header block and its body as the client means them; the
loop sees reads, which may end anywhere in a request and may hold several.

The loop looks at its buffer once after every read. A request that a read brought
along with the one before it is not looked at before the next read, and that may
never come; a request without a body takes whatever stands behind it; and the end
of a chunked body is the first place that looks like one. `InTurn` says that none
of this happens, and `handleC2uPii_framing` that then, and only then, the loop takes
the client's requests.

## Main definitions

* `ClientRequest`: A request, with its bytes and its payload.
* `Declaration`, `declaration`: What a header block says about the body.
* `InTurn`: Every request is there in time and ends where the loop looks.

## Theorems

* `decodeChunkedBody_encode`: A complete chunked body is decoded.
* `handleC2uPii_framing`: When the requests taken are the client's.
-/

namespace PrivacyClaw

open ChunkedDecoder (encode payload ValidChunk chunkSize)

/-- The body of a request, as the client sends it: nothing, bytes of a declared
    number, or chunks with the line of the last one and the trailer lines. -/
inductive ClientBody where
  | empty
  | sized (bytes : Str)
  | chunked (chunks : List (Str × Str)) (lastLine : Str) (trailers : List Str)

namespace ClientBody

/-- The trailer lines, each with its line end. -/
def trailerBytes (trailers : List Str) : Str := (trailers.map (· ++ crlf)).flatten

/-- The bytes on the wire. -/
def bytes : ClientBody → Str
  | .empty => []
  | .sized bytes => bytes
  | .chunked chunks lastLine trailers =>
    encode chunks ++ (lastLine ++ (crlf ++ (trailerBytes trailers ++ crlf)))

/-- What the body carries. -/
def content : ClientBody → Str
  | .empty => []
  | .sized bytes => bytes
  | .chunked chunks _ _ => payload chunks

/-- Chunks, the last line and trailers are lines where they should be, and the
    whole fits into memory. -/
def Valid : ClientBody → Prop
  | .chunked chunks lastLine trailers =>
    (∀ c ∈ chunks, ValidChunk c) ∧ ¬ crlf <:+: lastLine ∧ chunkSize lastLine = some 0 ∧
      (∀ t ∈ trailers, t ≠ [] ∧ ¬ crlf <:+: t) ∧
      (bytes (.chunked chunks lastLine trailers)).length < 2 ^ 64
  | _ => True

end ClientBody

/-- What a header block says about the body behind it. -/
inductive Declaration where
  | length (n : Nat)
  | chunked
  | none
  deriving DecidableEq, Repr

/-- The declaration as the loops read it. -/
def declaration (header : Str) : Declaration :=
  match parseContentLength header with
  | some n => .length n
  | .none => if isChunkedEncoding header then .chunked else .none

theorem declaration_eq_length {header : Str} {n : Nat} (h : declaration header = .length n) :
    parseContentLength header = some n := by
  unfold declaration at h
  cases hp : parseContentLength header with
  | some m => simpa only [hp, Declaration.length.injEq, Option.some.injEq] using h
  | none =>
    rw [hp] at h
    by_cases hc : isChunkedEncoding header = true
    · simp only [hc, if_true, reduceCtorEq] at h
    · simp only [hc, if_false, reduceCtorEq] at h

/-- Without a length, the transfer coding decides. -/
theorem declaration_unsized {header : Str} (h : ∀ n, declaration header ≠ .length n) :
    parseContentLength header = none ∧
      (isChunkedEncoding header = true ↔ declaration header = .chunked) := by
  cases hp : parseContentLength header with
  | some m => exact absurd (by simp only [declaration, hp]) (h m)
  | none =>
    refine ⟨rfl, ?_⟩
    by_cases hc : isChunkedEncoding header = true
    · simp only [declaration, hp, hc, if_true]
    · simp only [declaration, hp, hc, if_false, reduceCtorEq]

theorem declaration_chunked {header : Str} (h : declaration header = .chunked) :
    parseContentLength header = none ∧ isChunkedEncoding header = true := by
  have hun := declaration_unsized fun n => by
    rw [h]
    exact Declaration.noConfusion
  exact ⟨hun.1, hun.2.mpr h⟩

/-- The declaration a body needs. -/
def ClientBody.declared : ClientBody → Declaration
  | .empty => .none
  | .sized bytes => .length bytes.length
  | .chunked _ _ _ => .chunked

/-- A request. -/
structure ClientRequest where
  header : Str
  body : ClientBody

namespace ClientRequest

/-- The bytes on the wire. -/
def bytes (q : ClientRequest) : Str := q.header ++ q.body.bytes

/-- The request as the loop should take it. -/
def taken (q : ClientRequest) : Taken := ⟨q.header, q.body.content, q.bytes.length⟩

/-- A complete request: the header block ends with its blank line, declares the
    body (where it can be read as text), and the body is one. -/
structure WellFormed (q : ClientRequest) : Prop where
  ends : findHeaderEnd q.header = some q.header.length
  declares : utf8Valid q.header = true → declaration q.header = q.body.declared
  valid : q.body.Valid

/-- The part of a request that the loop waits for: without a declaration that
    can be read, the header block. -/
def needed (q : ClientRequest) : Str :=
  if declaration q.header = .none then q.header else q.bytes

/-- With the bytes `behind` it, the request ends where the loop takes it to
    end. -/
def EndsBefore (q : ClientRequest) (behind : Str) : Prop :=
  match declaration q.header with
  | .length _ => True
  | .chunked => findChunkedBodyEnd (q.body.bytes ++ behind) = some q.body.bytes.length
  | .none => behind = [] ∧ q.body.declared ≠ .chunked

end ClientRequest

open ClientRequest (bytes taken)

/-- Every request is there in time: `raw` has been read already, and with the
    first further read that completes the request it ends where it should. -/
def InTurn : List Str → List ClientRequest → Str → Prop
  | _, [], _ => True
  | [], _ :: _, _ => False
  | chunk :: reads, q :: qs, raw =>
    (¬ q.needed <+: raw ++ chunk → InTurn reads (q :: qs) (raw ++ chunk)) ∧
    (q.needed <+: raw ++ chunk → ∃ behind, raw ++ chunk = q.bytes ++ behind ∧
      q.EndsBefore behind ∧ InTurn reads qs behind)

section Chunked

/-- A line end behind a text without one is found there. -/
theorem find_crlf_line (line r : Str) (h : ¬ crlf <:+: line) :
    Search.find crlf (line ++ (crlf ++ r)) = some line.length :=
  Search.find_append_headOnly crlf line r (by decide) h

theorem length_crlf : crlf.length = 2 := by decide

/-- A size line, its chunk, and what follows the chunk. -/
theorem decodeChunksFrom_chunk (fuel pos : Nat) (line data r : Str)
    (hc : ValidChunk (line, data)) (hfit : pos + (line.length + 2) + data.length < 2 ^ 64) :
    decodeChunksFrom (fuel + 1) pos (line ++ (crlf ++ (data ++ (crlf ++ r)))) =
      (decodeChunksFrom fuel (pos + (line.length + 2) + (data.length + 2)) r).map
        fun decoded => decoded.map (data ++ ·) := by
  rcases hc with ⟨hline, hsize, hdata⟩
  dsimp only at hline hsize hdata
  rcases hlen : data.length with _ | n
  · exact absurd (List.length_eq_zero_iff.mp hlen) hdata
  rw [hlen] at hsize hfit
  have hdrop : (line ++ (crlf ++ (data ++ (crlf ++ r)))).drop (line.length + 2) =
      data ++ (crlf ++ r) := by
    rw [← List.append_assoc, List.drop_left' (by rw [List.length_append, length_crlf])]
  have hnext : (data ++ (crlf ++ r)).drop (n + 1 + 2) = r := by
    rw [← List.append_assoc, List.drop_left' (by rw [List.length_append, length_crlf, hlen])]
  have hall : (data ++ (crlf ++ r)).length = n + 1 + 2 + r.length := by
    rw [List.length_append, List.length_append, length_crlf, hlen, ← Nat.add_assoc]
  simp only [decodeChunksFrom, find_crlf_line line _ hline, List.take_left, hsize, hdrop, hnext,
    hall]
  rw [if_neg (by omega), if_neg (by omega), if_neg (by omega), List.take_left' hlen]

/-- The chunks of a body, and then its end. -/
theorem decodeChunksFrom_encode (lastLine r : Str) (hline : ¬ crlf <:+: lastLine)
    (hlast : chunkSize lastLine = some 0) : ∀ (chunks : List (Str × Str)) (fuel pos : Nat),
    (∀ c ∈ chunks, ValidChunk c) → chunks.length < fuel →
    pos + (encode chunks).length < 2 ^ 64 →
    decodeChunksFrom fuel pos (encode chunks ++ (lastLine ++ (crlf ++ r))) =
      some (some (payload chunks)) := by
  intro chunks
  induction chunks with
  | nil =>
    intro fuel pos _ hfuel _
    rcases fuel with _ | fuel
    · exact absurd hfuel (Nat.not_lt_zero _)
    · simp only [encode, List.nil_append, decodeChunksFrom, find_crlf_line lastLine r hline,
        List.take_left, hlast]
      rfl
  | cons c chunks ih =>
    intro fuel pos hall hfuel hfit
    rcases c with ⟨line, data⟩
    -- The offset stays below the length of the buffer, so the sums do not overflow.
    rcases fuel with _ | fuel
    · exact absurd hfuel (Nat.not_lt_zero _)
    have hlen : (encode ((line, data) :: chunks)).length =
        line.length + 2 + (data.length + 2) + (encode chunks).length := by
      simp only [encode, List.length_append, length_crlf]
      omega
    rw [hlen] at hfit
    rw [List.length_cons] at hfuel
    have hrec := ih fuel (pos + (line.length + 2) + (data.length + 2))
      (fun c hc => hall c (List.mem_cons_of_mem _ hc)) (by omega) (by omega)
    simp only [encode, List.append_assoc]
    rw [decodeChunksFrom_chunk fuel pos line data _ (hall _ List.mem_cons_self) (by omega), hrec]
    rfl

theorem length_le_encode (chunks : List (Str × Str)) : chunks.length ≤ (encode chunks).length := by
  induction chunks with
  | nil => exact Nat.le_refl _
  | cons c chunks ih =>
    rcases c with ⟨line, data⟩
    simp only [encode, List.length_append, List.length_cons, length_crlf]
    omega

variable {body : ClientBody} (hc : body.declared = .chunked)
include hc

theorem ClientBody.eq_chunked : ∃ chunks lastLine trailers,
    body = .chunked chunks lastLine trailers := by
  cases body with
  | chunked chunks lastLine trailers => exact ⟨chunks, lastLine, trailers, rfl⟩
  | empty => exact absurd hc (by decide)
  | sized bytes => simp only [ClientBody.declared, reduceCtorEq] at hc

/-- A complete chunked body is decoded. -/
theorem decodeChunkedBody_encode (hv : body.Valid) :
    decodeChunkedBody body.bytes = some (some body.content) := by
  rcases ClientBody.eq_chunked hc with ⟨chunks, lastLine, trailers, rfl⟩
  rcases hv with ⟨hchunks, hline, hlast, -, hfit⟩
  have hle := length_le_encode chunks
  have hlen : (encode chunks).length ≤
      (ClientBody.chunked chunks lastLine trailers).bytes.length := by
    simp only [ClientBody.bytes, List.length_append]
    omega
  exact decodeChunksFrom_encode lastLine _ hline hlast chunks _ 0 hchunks (by omega) (by omega)

omit hc in
theorem length_payload_le (chunks : List (Str × Str)) :
    (payload chunks).length ≤ (encode chunks).length := by
  induction chunks with
  | nil => exact Nat.le_refl _
  | cons c chunks ih =>
    rcases c with ⟨line, data⟩
    simp only [payload, List.map_cons, List.flatten_cons, encode, List.length_append] at ih ⊢
    omega

/-- A chunked body is longer than what it carries. -/
theorem length_content_lt : body.content.length < body.bytes.length := by
  rcases ClientBody.eq_chunked hc with ⟨chunks, lastLine, trailers, rfl⟩
  have hle := length_payload_le chunks
  simp only [ClientBody.bytes, ClientBody.content, List.length_append, length_crlf]
  omega

/-- A body that begins like an empty one is the empty one. -/
theorem bytes_eq_of_empty (hv : body.Valid) (h : lit "0\r\n\r\n" <+: body.bytes) :
    body.bytes = lit "0\r\n\r\n" := by
  rcases ClientBody.eq_chunked hc with ⟨chunks, lastLine, trailers, rfl⟩
  rcases hv with ⟨hchunks, hline, -, htrailers, -⟩
  have hlit : lit "0\r\n\r\n" = lit "0" ++ (crlf ++ crlf) := by decide
  rcases h with ⟨r, hr⟩
  rw [hlit, List.append_assoc, List.append_assoc] at hr
  have hzero := find_crlf_line (lit "0") (crlf ++ r) (by decide)
  -- The first line of the body is "0".
  have hfirst : ∀ line more : Str, ¬ crlf <:+: line →
      lit "0" ++ (crlf ++ (crlf ++ r)) = line ++ (crlf ++ more) →
      line = lit "0" ∧ more = crlf ++ r := by
    intro line more hl heq
    have hfind := find_crlf_line line more hl
    rw [← heq, hzero, Option.some.injEq] at hfind
    have hinj := List.append_inj heq hfind
    exact ⟨hinj.1.symm, ((List.append_right_inj _).mp hinj.2).symm⟩
  cases chunks with
  | cons c chunks =>
    rcases c with ⟨line, data⟩
    rcases hchunks _ List.mem_cons_self with ⟨hl, hsize, hdata⟩
    simp only [ClientBody.bytes, encode, List.append_assoc] at hr
    rcases hfirst line _ hl hr with ⟨rfl, -⟩
    have h0 : chunkSize (lit "0") = some 0 := by decide
    rw [h0, Option.some.injEq] at hsize
    exact absurd (List.length_eq_zero_iff.mp hsize.symm) hdata
  | nil =>
    simp only [ClientBody.bytes, encode, List.nil_append] at hr
    rcases hfirst lastLine _ hline hr with ⟨rfl, hmore⟩
    cases trailers with
    | nil =>
      rw [hlit]
      rfl
    | cons t trailers =>
      rcases htrailers t List.mem_cons_self with ⟨ht, hnl⟩
      simp only [ClientBody.trailerBytes, List.map_cons, List.flatten_cons,
        List.append_assoc] at hmore
      have hfind := find_crlf_line t ((trailers.map (· ++ crlf)).flatten ++ crlf) hnl
      rw [hmore, show crlf ++ r = [] ++ (crlf ++ r) from rfl,
        find_crlf_line [] r (by decide), Option.some.injEq] at hfind
      exact absurd (List.length_eq_zero_iff.mp hfind.symm) ht

omit hc in
/-- An end found behind a chunk stays where it is. -/
theorem findChunkedBodyEnd_append (a t : Str) (pos : Nat)
    (h : Search.find (lit "\r\n0\r\n\r\n") a = some pos) :
    findChunkedBodyEnd (a ++ t) = some (pos + 7) := by
  rw [findChunkedBodyEnd, Search.find_append_of_some _ _ _ _ h]

omit hc in
/-- Where an end has been found, one is found later. -/
theorem findChunkedBodyEnd_isSome_append (a t : Str) (h : (findChunkedBodyEnd a).isSome) :
    (findChunkedBodyEnd (a ++ t)).isSome := by
  cases hpos : Search.find (lit "\r\n0\r\n\r\n") a with
  | some pos =>
    rw [findChunkedBodyEnd_append a t pos hpos]
    rfl
  | none =>
    by_cases hpre : lit "0\r\n\r\n" <+: a
    · have hpre' := List.isPrefixOf_iff_prefix.mpr (hpre.trans (List.prefix_append a t))
      unfold findChunkedBodyEnd
      cases Search.find (lit "\r\n0\r\n\r\n") (a ++ t) with
      | some pos => rfl
      | none => simp only [hpre', if_true, Option.isSome_some]
    · have hpre' := mt List.isPrefixOf_iff_prefix.mp hpre
      simp only [findChunkedBodyEnd, hpos, hpre', Bool.false_eq_true, if_false,
        Option.isSome_none] at h

omit hc in
theorem findChunkedBodyEnd_le (a : Str) (e : Nat) (h : findChunkedBodyEnd a = some e) :
    e ≤ a.length := by
  unfold findChunkedBodyEnd at h
  cases hpos : Search.find (lit "\r\n0\r\n\r\n") a with
  | some pos =>
    have hocc := (Search.find_eq_some _ _ _ hpos).1.length_le
    have hle := (Search.find_eq_some _ _ _ hpos).2.1
    have hlen : (lit "\r\n0\r\n\r\n").length = 7 := by decide
    rw [List.length_drop] at hocc
    simp only [hpos, Option.some.injEq] at h
    omega
  | none =>
    by_cases hpre : (lit "0\r\n\r\n").isPrefixOf a = true
    · have hle := (List.isPrefixOf_iff_prefix.mp hpre).length_le
      have hlen : (lit "0\r\n\r\n").length = 5 := by decide
      simp only [hpos, hpre, if_true, Option.some.injEq] at h
      omega
    · simp only [hpos, hpre, Bool.false_eq_true, if_false, reduceCtorEq] at h

omit hc in
/-- An end found exactly where the text `a` ends is found in `a` alone. -/
theorem findChunkedBodyEnd_restrict (a t : Str)
    (h : findChunkedBodyEnd (a ++ t) = some a.length) : findChunkedBodyEnd a = some a.length := by
  unfold findChunkedBodyEnd at h
  -- Where the end is found depends on the bytes up to it only.
  cases hpos : Search.find (lit "\r\n0\r\n\r\n") (a ++ t) with
  | some pos =>
    simp only [hpos, Option.some.injEq] at h
    rcases Search.find_eq_some _ _ _ hpos with ⟨hocc, -, hfirst⟩
    have hlen : (lit "\r\n0\r\n\r\n").length = 7 := by decide
    rw [List.drop_append_of_le_length (by omega)] at hocc
    have hin : lit "\r\n0\r\n\r\n" <+: a.drop pos :=
      List.prefix_of_prefix_length_le hocc (List.prefix_append _ _)
        (by rw [List.length_drop]; omega)
    have hfind := Search.find_of_first _ a pos hin fun j hj hpre => hfirst j hj (by
      rw [List.drop_append_of_le_length (by omega)]
      exact hpre.trans (List.prefix_append _ _))
    simp only [findChunkedBodyEnd, hfind, h]
  | none =>
    have hnone : Search.find (lit "\r\n0\r\n\r\n") a = none := by
      rw [Search.find_eq_none_iff] at hpos ⊢
      exact fun hin => hpos (hin.trans (List.prefix_append a t).isInfix)
    by_cases hpre : (lit "0\r\n\r\n").isPrefixOf (a ++ t) = true
    · simp only [hpos, hpre, if_true, Option.some.injEq] at h
      have hlen : (lit "0\r\n\r\n").length = 5 := by decide
      have hin : lit "0\r\n\r\n" <+: a :=
        List.prefix_of_prefix_length_le (List.isPrefixOf_iff_prefix.mp hpre)
          (List.prefix_append _ _) (by omega)
      simp only [findChunkedBodyEnd, hnone, List.isPrefixOf_iff_prefix.mpr hin, if_true, h]
    · simp only [hpos, hpre, Bool.false_eq_true, if_false, reduceCtorEq] at h

omit hc in
/-- Where no end is found in a body and what stands behind it, more bytes do not
    make the body's own end be found. -/
theorem findChunkedBodyEnd_missed (body behind t : Str)
    (h : findChunkedBodyEnd (body ++ behind) = none) :
    findChunkedBodyEnd (body ++ (behind ++ t)) ≠ some body.length := by
  intro hfound
  have hown := findChunkedBodyEnd_restrict body _ hfound
  have hsome := findChunkedBodyEnd_isSome_append body behind (by rw [hown]; rfl)
  rw [h] at hsome
  exact absurd hsome (by decide)

/-- An end found before a body is complete is not the body's. -/
theorem findChunkedBodyEnd_early (hv : body.Valid) (x y t : Str) (hbody : body.bytes = x ++ y)
    (hy : y ≠ []) (hx : (findChunkedBodyEnd x).isSome) :
    findChunkedBodyEnd (body.bytes ++ t) ≠ some body.bytes.length := by
  intro hfound
  have hpos := List.length_pos_of_ne_nil hy
  have hlen := congrArg List.length hbody
  rw [List.length_append] at hlen
  cases hfind : Search.find (lit "\r\n0\r\n\r\n") x with
  | some pos =>
    have hle := findChunkedBodyEnd_le x (pos + 7) (by rw [findChunkedBodyEnd, hfind])
    rw [hbody, List.append_assoc, findChunkedBodyEnd_append x _ pos hfind, Option.some.injEq,
      ← hbody] at hfound
    omega
  | none =>
    by_cases hpre : lit "0\r\n\r\n" <+: x
    · -- Then the body is the empty one, and `x` is all of it.
      have hown := bytes_eq_of_empty hc hv (by rw [hbody]; exact hpre.trans (List.prefix_append x y))
      have hle := hpre.length_le
      rw [← hown] at hle
      omega
    · have hpre' := mt List.isPrefixOf_iff_prefix.mp hpre
      simp only [findChunkedBodyEnd, hfind, hpre', Bool.false_eq_true, if_false,
        Option.isSome_none] at hx

end Chunked

section Loop

/-- The state of the PII loop with the bytes `raw` of a request. -/
def piiState (raw : Str) : HttpFramingState := piiReceived [] raw {}

theorem piiReceived_start (chunk raw : Str) : piiReceived chunk raw {} = piiState raw := rfl

theorem piiState_short (raw : Str) (h : findHeaderEnd raw = none) : piiState raw = {} := by
  simp only [piiState, piiReceived, h, Bool.false_eq_true, if_false]

theorem piiState_header (header b : Str) (h : findHeaderEnd header = some header.length) :
    piiState (header ++ b) =
      { headerDone := true
        contentLength := parseContentLength header
        isChunked := (parseContentLength header).isNone && isChunkedEncoding header
        bodyStart := header.length
        bodyReceived := b.length } := by
  have hend := findHeaderEnd_append header b _ h
  simp only [piiState, piiReceived, hend, Bool.false_eq_true, if_false,
    HttpFramingState.parsed, List.take_left, List.length_append, Nat.add_sub_cancel_left]

/-- Reading on: the state depends on the bytes only, not on the reads they came
    in. -/
theorem piiReceived_state (raw chunk : Str) :
    piiReceived chunk (raw ++ chunk) (piiState raw) = piiState (raw ++ chunk) := by
  cases hend : findHeaderEnd raw with
  | none => rw [piiState_short raw hend, piiReceived_start]
  | some n =>
    have hle := (findHeaderEnd_bounds raw n hend).2
    have hmore := findHeaderEnd_append raw chunk n hend
    simp only [piiState, piiReceived, hend, hmore, HttpFramingState.parsed, if_true,
      Bool.false_eq_true, if_false, List.take_append_of_le_length hle, List.length_append,
      HttpFramingState.mk.injEq, true_and]
    omega

/-- What the loop finds in its buffer after a read: nothing that is complete, or
    a request. `none` is a panic. -/
def found (raw : Str) : Option (Option Taken) :=
  if bodyDone raw (piiState raw) then (takeRequest raw (piiState raw)).map some else some none

/-- The state belongs to the buffer, or a request was just taken off it. -/
def Tracks (raw : Str) (st : HttpFramingState) : Prop := st = {} ∨ st = piiState raw

theorem Tracks.received {raw : Str} {st : HttpFramingState} (h : Tracks raw st) (chunk : Str) :
    piiReceived chunk (raw ++ chunk) st = piiState (raw ++ chunk) := by
  rcases h with rfl | rfl
  · exact piiReceived_start chunk _
  · exact piiReceived_state raw chunk

section Run

variable {raw chunk : Str} {st : HttpFramingState} (h : Tracks raw st) (reads : List Str)
include h

theorem takenRequests_wait (hf : found (raw ++ chunk) = some none) :
    takenRequests (chunk :: reads) raw st =
      takenRequests reads (raw ++ chunk) (piiState (raw ++ chunk)) := by
  have hdone : bodyDone (raw ++ chunk) (piiState (raw ++ chunk)) = false := by
    by_contra hd
    rw [Bool.not_eq_false] at hd
    simp only [found, hd, if_true, Option.map_eq_some_iff, reduceCtorEq, and_false,
      exists_false] at hf
  simp only [takenRequests, c2uPiiRead, h.received chunk, hdone, Bool.false_eq_true, if_false,
    Option.toList_none, List.nil_append]

theorem takenRequests_take (t : Taken) (hf : found (raw ++ chunk) = some (some t)) :
    takenRequests (chunk :: reads) raw st =
      t :: takenRequests reads ((raw ++ chunk).drop (min t.consumed (raw ++ chunk).length)) {} := by
  by_cases hdone : bodyDone (raw ++ chunk) (piiState (raw ++ chunk)) = true
  · simp only [found, hdone, if_true, Option.map_eq_some_iff, Option.some.injEq] at hf
    rcases hf with ⟨t', ht, rfl⟩
    simp only [takenRequests, c2uPiiRead, h.received chunk, hdone, if_true, ht,
      Option.bind_eq_bind, Option.bind_some, Option.toList_some, List.singleton_append]
  · simp only [found, hdone, Bool.false_eq_true, if_false, Option.some.injEq, reduceCtorEq] at hf

theorem takenRequests_panic (hf : found (raw ++ chunk) = none) :
    takenRequests (chunk :: reads) raw st = [] := by
  by_cases hdone : bodyDone (raw ++ chunk) (piiState (raw ++ chunk)) = true
  · simp only [found, hdone, if_true, Option.map_eq_none_iff] at hf
    simp only [takenRequests, c2uPiiRead, h.received chunk, hdone, if_true, hf,
      Option.bind_eq_bind, Option.bind_none]
  · simp only [found, hdone, Bool.false_eq_true, if_false, reduceCtorEq] at hf

end Run

section Found

variable {q : ClientRequest} (hq : q.WellFormed)
include hq

/-- Nothing is found before the header block is complete. -/
theorem found_short (raw r : Str) (hr : q.header = raw ++ r) (hne : r ≠ []) :
    found raw = some none := by
  have hend := findHeaderEnd_short q.header raw r hq.ends hr hne
  simp only [found, piiState_short raw hend, bodyDone, Bool.false_and, Bool.false_eq_true,
    if_false]

/-- With a length, the request is found when that many bytes are there. -/
theorem found_length (b : Str) (n : Nat) (hd : declaration q.header = .length n) :
    found (q.header ++ b) =
      if n ≤ b.length then some (some ⟨q.header, b.take n, q.header.length + n⟩)
      else some none := by
  have hcl := declaration_eq_length hd
  by_cases hn : n ≤ b.length
  · simp only [found, piiState_header q.header b hq.ends, bodyDone, hcl, hn, decide_true,
      Bool.and_self, if_true, takeRequest, Option.isNone_some, Bool.false_and, Bool.false_eq_true,
      if_false, Option.getD_some, List.take_left, List.drop_left, Option.map_some]
  · simp only [found, piiState_header q.header b hq.ends, bodyDone, hcl, hn, decide_false,
      Bool.and_false, Bool.false_eq_true, if_false]

/-- Without a declaration everything that has arrived is taken. -/
theorem found_none (b : Str) (hd : declaration q.header = .none) :
    found (q.header ++ b) = some (some ⟨q.header, b, q.header.length + b.length⟩) := by
  have hcl := declaration_unsized fun n => by
    rw [hd]
    exact Declaration.noConfusion
  have hch : isChunkedEncoding q.header = false := by
    simpa only [hd, reduceCtorEq, iff_false, Bool.not_eq_true] using hcl.2
  simp only [found, piiState_header q.header b hq.ends, bodyDone, hcl.1, hch, Bool.and_false,
    Bool.false_eq_true, if_false, Bool.and_self, if_true, takeRequest, Option.getD_none,
    List.take_left, List.drop_left, List.take_length, Option.map_some]

/-- A chunked body is taken up to the first end that is found in it. -/
theorem found_chunked (b : Str) (hd : declaration q.header = .chunked) :
    found (q.header ++ b) =
      if (findChunkedBodyEnd b).isSome then
        (takeRequest (q.header ++ b) (piiState (q.header ++ b))).map some
      else some none := by
  have hcl := declaration_chunked hd
  simp only [found, piiState_header q.header b hq.ends, bodyDone, hcl.1, hcl.2, if_true,
    Option.isNone_none, Bool.and_self, List.drop_left, Bool.true_and]

theorem found_chunked_wait (b : Str) (hd : declaration q.header = .chunked)
    (hend : findChunkedBodyEnd b = none) : found (q.header ++ b) = some none := by
  simp only [found_chunked hq b hd, hend, Option.isSome_none, Bool.false_eq_true, if_false]

theorem found_chunked_stop (b : Str) (stop : Nat) (hd : declaration q.header = .chunked)
    (hend : findChunkedBodyEnd b = some stop) :
    found (q.header ++ b) = (decodeChunkedBody (b.take stop)).map fun decoded =>
      some ⟨q.header, decoded.getD (b.take stop), q.header.length + stop⟩ := by
  have hcl := declaration_chunked hd
  simp only [found_chunked hq b hd, hend, Option.isSome_some, if_true,
    piiState_header q.header b hq.ends, takeRequest, hcl.1, hcl.2,
    Option.isNone_none, Bool.and_self, if_true, List.drop_left, List.take_left,
    Option.bind_eq_bind, Option.bind_some]
  cases decodeChunkedBody (b.take stop) <;> rfl

omit hq in
theorem header_prefix_needed : q.header <+: q.needed := by
  unfold ClientRequest.needed
  by_cases hd : declaration q.header = .none
  · exact ⟨[], by rw [List.append_nil, if_pos hd]⟩
  · rw [if_neg hd]
    exact List.prefix_append _ _

/-- A declaration that is read is the one the body needs. -/
theorem ClientRequest.WellFormed.declared (hd : declaration q.header ≠ .none) :
    q.body.declared = declaration q.header := by
  refine (hq.declares ?_).symm
  by_contra h
  have hutf : utf8Valid q.header = false := by rwa [Bool.not_eq_true] at h
  have hpl : parseContentLength q.header = none := by
    simp only [parseContentLength, hutf, Bool.false_eq_true, if_false]
  have hch : isChunkedEncoding q.header = false := by
    simp only [isChunkedEncoding, hutf, Bool.false_and]
  refine hd ?_
  simp only [declaration, hpl, hch, Bool.false_eq_true, if_false]

/-- Once a chunked request was passed over, it is not taken as it is. -/
theorem takenRequests_missed (hd : declaration q.header = .chunked) (ts : List Taken) :
    ∀ (reads : List Str) (behind : Str) (st : HttpFramingState),
    Tracks (q.bytes ++ behind) st → findChunkedBodyEnd (q.body.bytes ++ behind) = none →
    takenRequests reads (q.bytes ++ behind) st ≠ q.taken :: ts := by
  intro reads
  induction reads with
  | nil => exact fun _ _ _ _ h => absurd h.symm (List.cons_ne_nil _ _)
  | cons chunk reads ih =>
    intro behind st hst hnone
    have hraw : q.bytes ++ behind ++ chunk = q.header ++ (q.body.bytes ++ (behind ++ chunk)) := by
      simp only [ClientRequest.bytes, List.append_assoc]
    -- With one more read the scan still finds nothing, or an end further behind.
    cases hend : findChunkedBodyEnd (q.body.bytes ++ (behind ++ chunk)) with
    | none =>
      have hfound := found_chunked_wait hq _ hd hend
      rw [← hraw] at hfound
      rw [takenRequests_wait hst reads hfound, List.append_assoc]
      exact ih (behind ++ chunk) _ (Or.inr rfl) hend
    | some stop =>
      have hfound := found_chunked_stop hq _ stop hd hend
      rw [← hraw] at hfound
      cases hdec : decodeChunkedBody ((q.body.bytes ++ (behind ++ chunk)).take stop) with
      | none =>
        rw [takenRequests_panic hst reads (by rw [hfound, hdec]; rfl)]
        exact (List.cons_ne_nil _ _).symm
      | some decoded =>
        rw [takenRequests_take hst reads _ (by rw [hfound, hdec]; rfl)]
        -- an end where the body ends would have been found before
        intro heq
        have hlen := congrArg Taken.consumed (List.cons.inj heq).1
        simp only [ClientRequest.taken, ClientRequest.bytes, List.length_append,
          Nat.add_right_inj] at hlen
        exact findChunkedBodyEnd_missed _ _ _ hnone (by rw [hend, hlen])

/-- A chunked request in which an end is found too early is not in turn. -/
theorem not_inTurn_early (hd : declaration q.header = .chunked) (qs : List ClientRequest)
    (x y : Str) (hbody : q.body.bytes = x ++ y) (hy : y ≠ [])
    (hx : (findChunkedBodyEnd x).isSome) : ∀ (reads : List Str) (raw : Str),
    ¬ InTurn reads (q :: qs) raw := by
  intro reads
  induction reads with
  | nil => exact fun _ h => h
  | cons chunk reads ih =>
    rintro raw ⟨hshort, hlong⟩
    by_cases hn : q.needed <+: raw ++ chunk
    · rcases hlong hn with ⟨behind, -, hends, -⟩
      have hdecl : q.body.declared = .chunked := (hq.declared (by rw [hd]; decide)).trans hd
      simp only [ClientRequest.EndsBefore, hd] at hends
      exact findChunkedBodyEnd_early hdecl hq.valid x y behind hbody hy hx hends
    · exact ih _ (hshort hn)

omit hq in
theorem needed_eq_bytes (hd : declaration q.header ≠ .none) : q.needed = q.bytes := by
  rw [ClientRequest.needed, if_neg hd]

omit hq in
theorem needed_prefix_bytes : q.needed <+: q.bytes := by
  by_cases hd : declaration q.header = .none
  · rw [ClientRequest.needed, if_pos hd]
    exact List.prefix_append _ _
  · exact ⟨[], by rw [List.append_nil, needed_eq_bytes hd]⟩

/-- A declared length is that of the body. -/
theorem ClientRequest.WellFormed.sized {n : Nat} (hd : declaration q.header = .length n) :
    q.body.bytes.length = n ∧ q.body.content = q.body.bytes := by
  have hdecl := hq.declared (by rw [hd]; exact Declaration.noConfusion)
  rw [hd] at hdecl
  cases hb : q.body with
  | empty => simp only [hb, ClientBody.declared, reduceCtorEq] at hdecl
  | chunked c l t => simp only [hb, ClientBody.declared, reduceCtorEq] at hdecl
  | sized bs =>
    simp only [hb, ClientBody.declared, Declaration.length.injEq] at hdecl
    exact ⟨hdecl, rfl⟩

/-- What is found in a buffer that begins with a complete request is that
    request exactly if it ends where the loop looks. -/
theorem found_own_iff (behind : Str) :
    found (q.bytes ++ behind) = some (some q.taken) ↔ q.EndsBefore behind := by
  have hraw : q.bytes ++ behind = q.header ++ (q.body.bytes ++ behind) := by
    rw [ClientRequest.bytes, List.append_assoc]
  rw [hraw]
  cases hd : declaration q.header with
  -- One case for each way to find the end of a body.
  | length n =>
    rcases hq.sized hd with ⟨hlen, hcontent⟩
    rw [found_length hq _ _ hd, if_pos (by rw [List.length_append, hlen]; omega),
      List.take_left' hlen]
    simp only [ClientRequest.EndsBefore, hd, ClientRequest.taken, ClientRequest.bytes, hcontent,
      List.length_append, hlen]
  | none =>
    rw [found_none hq _ hd]
    simp only [ClientRequest.EndsBefore, hd, ClientRequest.taken, ClientRequest.bytes,
      Option.some.injEq, Taken.mk.injEq, true_and, List.length_append]
    constructor
      -- everything in the buffer is consumed, so nothing may stand behind the body
    · rintro ⟨hbody, hlen⟩
      have hnil : behind = [] := List.length_eq_zero_iff.mp (by omega)
      refine ⟨hnil, fun hc => ?_⟩
      have hlt := length_content_lt hc
      rw [← hbody, List.length_append] at hlt
      omega
    · rintro ⟨rfl, hne⟩
      refine ⟨?_, rfl⟩
      rw [List.append_nil]
      cases hb : q.body with
      | chunked c l t => exact absurd (by rw [hb]; rfl) hne
      | empty => rfl
      | sized bs => rfl
  | chunked =>
    have hdecl : q.body.declared = .chunked :=
      (hq.declared (by rw [hd]; exact Declaration.noConfusion)).trans hd
    simp only [ClientRequest.EndsBefore, hd]
    constructor
    · intro hf
      cases hend : findChunkedBodyEnd (q.body.bytes ++ behind) with
      | none =>
        rw [found_chunked_wait hq _ hd hend, Option.some.injEq] at hf
        exact absurd hf.symm (Option.some_ne_none _)
      | some stop =>
        -- the scan stopped somewhere; what is consumed says that this is the end
        rw [found_chunked_stop hq _ stop hd hend, Option.map_eq_some_iff] at hf
        rcases hf with ⟨decoded, -, hf⟩
        have hlen := congrArg Taken.consumed (Option.some.inj hf)
        simp only [ClientRequest.taken, ClientRequest.bytes, List.length_append,
          Nat.add_right_inj] at hlen
        rw [hlen]
    · intro hend
      rw [found_chunked_stop hq _ _ hd hend, List.take_left,
        decodeChunkedBody_encode hdecl hq.valid]
      simp only [Option.map_some, Option.getD_some, ClientRequest.taken, ClientRequest.bytes,
        List.length_append]

/-- While a request is not complete, it is not what is found. -/
theorem found_incomplete (b r : Str) (hb : q.body.bytes = b ++ r) (hr : r ≠ []) (t : Taken)
    (hf : found (q.header ++ b) = some (some t)) : t ≠ q.taken := by
  have hpos := List.length_pos_of_ne_nil hr
  have hbody := congrArg List.length hb
  rw [List.length_append] at hbody
  -- Whatever is found, it ends inside the body.
  have hlt : t.consumed < q.bytes.length := by
    rw [ClientRequest.bytes, List.length_append]
    cases hd : declaration q.header with
    | length n =>
      rw [found_length hq b n hd] at hf
      by_cases hn : n ≤ b.length
      · simp only [hn, if_true, Option.some.injEq] at hf
        rw [← hf]
        dsimp only
        omega
      · simp only [hn, if_false, Option.some.injEq, reduceCtorEq] at hf
    | none =>
      rw [found_none hq b hd, Option.some.injEq, Option.some.injEq] at hf
      rw [← hf]
      dsimp only
      omega
    | chunked =>
      cases hend : findChunkedBodyEnd b with
      | none =>
        rw [found_chunked_wait hq b hd hend, Option.some.injEq] at hf
        exact absurd hf.symm (Option.some_ne_none _)
      | some stop =>
        have hle := findChunkedBodyEnd_le b stop hend
        rw [found_chunked_stop hq b stop hd hend, Option.map_eq_some_iff] at hf
        rcases hf with ⟨decoded, -, hf⟩
        rw [← Option.some.inj hf]
        dsimp only
        omega
  intro heq
  rw [heq] at hlt
  exact Nat.lt_irrefl _ hlt

end Found

section Turns

variable {q : ClientRequest} {qs : List ClientRequest} {raw chunk : Str} {reads : List Str}

theorem inTurn_wait (hn : ¬ q.needed <+: raw ++ chunk) :
    InTurn (chunk :: reads) (q :: qs) raw ↔ InTurn reads (q :: qs) (raw ++ chunk) := by
  simp only [InTurn, hn, not_false_eq_true, forall_const, false_implies, and_true]

theorem inTurn_take (behind : Str) (hraw : raw ++ chunk = q.bytes ++ behind) :
    InTurn (chunk :: reads) (q :: qs) raw ↔ q.EndsBefore behind ∧ InTurn reads qs behind := by
  have hn : q.needed <+: raw ++ chunk := by
    rw [hraw]
    exact needed_prefix_bytes.trans (List.prefix_append _ _)
  simp only [InTurn, hn, not_true_eq_false, false_implies, true_and, forall_const]
  constructor
  · rintro ⟨behind', hraw', h⟩
    rw [hraw, List.append_cancel_left_eq] at hraw'
    rwa [hraw']
  · exact fun h => ⟨behind, hraw, h⟩

theorem takenRequests_ne_of_found {st : HttpFramingState} (hst : Tracks raw st)
    (hne : found (raw ++ chunk) ≠ some none) (hown : found (raw ++ chunk) ≠ some (some q.taken))
    (ts : List Taken) : takenRequests (chunk :: reads) raw st ≠ q.taken :: ts := by
  cases hf : found (raw ++ chunk) with
  | none =>
    rw [takenRequests_panic hst reads hf]
    exact (List.cons_ne_nil _ _).symm
  | some o =>
    cases o with
    | none => exact absurd hf hne
    | some t =>
      rw [takenRequests_take hst reads t hf]
      exact fun h => hown (by rw [hf, (List.cons.inj h).1])

/-- A request in whose unfinished body something is found is not in turn. -/
theorem not_inTurn_unfinished (hq : q.WellFormed) (b r : Str) (hb : raw ++ chunk = q.header ++ b)
    (hr : q.body.bytes = b ++ r) (hne : r ≠ []) (hf : found (raw ++ chunk) ≠ some none) :
    ¬ InTurn (chunk :: reads) (q :: qs) raw := by
  intro hturn
  cases hd : declaration q.header with
  | none =>
    -- the body is looked at with the headers, but it is not there
    have hn : q.needed <+: raw ++ chunk := by
      rw [ClientRequest.needed, if_pos hd, hb]
      exact List.prefix_append _ _
    rcases hturn.2 hn with ⟨behind, hraw, -⟩
    have hlen := congrArg List.length (hb.symm.trans hraw)
    have hpos := List.length_pos_of_ne_nil hne
    rw [ClientRequest.bytes, hr] at hlen
    simp only [List.length_append] at hlen
    omega
  | length n =>
    have hlen := (hq.sized hd).1
    have hpos := List.length_pos_of_ne_nil hne
    rw [hr, List.length_append] at hlen
    rw [hb, found_length hq b n hd, if_neg (by omega)] at hf
    exact hf rfl
  | chunked =>
    cases hend : findChunkedBodyEnd b with
    | none => exact hf (by rw [hb, found_chunked_wait hq b hd hend])
    | some stop => exact not_inTurn_early hq hd qs b r hr hne (by rw [hend]; rfl) _ _ hturn

/-- A complete request that does not end where the loop looks is not taken as it
    is, now or later. -/
theorem takenRequests_ne_complete (hq : q.WellFormed) {st : HttpFramingState}
    (hst : Tracks raw st) (behind : Str) (hraw : raw ++ chunk = q.bytes ++ behind)
    (hends : ¬ q.EndsBefore behind) (ts : List Taken) :
    takenRequests (chunk :: reads) raw st ≠ q.taken :: ts := by
  have hown : found (raw ++ chunk) ≠ some (some q.taken) := by
    rw [hraw]
    exact mt (found_own_iff hq behind).mp hends
  -- Only a chunked request can make the loop wait once it is complete.
  by_cases hf : found (raw ++ chunk) = some none
  · rw [takenRequests_wait hst reads hf, hraw]
    have hb : q.bytes ++ behind = q.header ++ (q.body.bytes ++ behind) := by
      rw [ClientRequest.bytes, List.append_assoc]
    rw [hraw, hb] at hf
    cases hd : declaration q.header with
    | length n =>
      have hlen := (hq.sized hd).1
      rw [found_length hq _ n hd, if_pos (by rw [List.length_append]; omega),
        Option.some.injEq] at hf
      exact absurd hf (Option.some_ne_none _)
    | none =>
      rw [found_none hq _ hd, Option.some.injEq] at hf
      exact absurd hf (Option.some_ne_none _)
    | chunked =>
      refine takenRequests_missed hq hd _ reads behind _ (Or.inr rfl) ?_
      cases hend : findChunkedBodyEnd (q.body.bytes ++ behind) with
      | none => rfl
      | some stop =>
        rw [found_chunked_stop hq _ stop hd hend] at hf
        rcases Option.map_eq_some_iff.mp hf with ⟨decoded, -, h⟩
        exact absurd h (Option.some_ne_none _)
  · exact takenRequests_ne_of_found hst hf hown _

end Turns

/-- What the loop takes from some point on, and when that is right. -/
theorem takenRequests_iff_from : ∀ (reads : List Str) (requests : List ClientRequest) (raw : Str)
    (st : HttpFramingState), Tracks raw st → (∀ q ∈ requests, q.WellFormed) →
    raw ++ reads.flatten = (requests.map bytes).flatten →
    (takenRequests reads raw st = requests.map taken ↔ InTurn reads requests raw) := by
  intro reads
  induction reads with
  | nil =>
    intro requests raw st _ _ _
    cases requests with
    | nil => simp only [takenRequests, List.map_nil, InTurn]
    | cons q qs => simp only [takenRequests, List.map_cons, InTurn, reduceCtorEq]
  | cons chunk reads ih =>
    intro requests raw st hst hwf htotal
    rw [List.flatten_cons, ← List.append_assoc] at htotal
    cases requests with
    | nil =>
      have hnil := List.append_eq_nil_iff.mp htotal
      rw [takenRequests_wait hst reads (by rw [hnil.1]; rfl)]
      have h := ih [] (raw ++ chunk) _ (Or.inr rfl) hwf htotal
      simp only [InTurn, iff_true] at h ⊢
      exact h
    | cons q qs =>
      have hq := hwf q List.mem_cons_self
      have hqs : ∀ q ∈ qs, q.WellFormed := fun q h => hwf q (List.mem_cons_of_mem _ h)
      have hpre : raw ++ chunk <+: q.header ++ (q.body.bytes ++ (qs.map bytes).flatten) := by
        refine ⟨reads.flatten, ?_⟩
        rw [htotal, List.map_cons, List.flatten_cons, ClientRequest.bytes, List.append_assoc]
      -- Neither side changes while the loop waits.
      have hwait : found (raw ++ chunk) = some none → ¬ q.needed <+: raw ++ chunk →
          (takenRequests (chunk :: reads) raw st = (q :: qs).map taken ↔
            InTurn (chunk :: reads) (q :: qs) raw) := by
        intro hf hn
        rw [takenRequests_wait hst reads hf, inTurn_wait hn]
        exact ih (q :: qs) _ _ (Or.inr rfl) hwf htotal
      rcases prefix_cases _ _ _ hpre with ⟨r, hr, hne⟩ | ⟨b, hb⟩
      · -- The header block is not complete.
        refine hwait (found_short hq _ r hr hne) fun hn => ?_
        have hlen := (header_prefix_needed.trans hn).length_le
        have hpos := List.length_pos_of_ne_nil hne
        rw [hr, List.length_append] at hlen
        omega
      · rw [hb, List.prefix_append_right_inj] at hpre
        rcases prefix_cases _ _ _ hpre with ⟨r, hr, hne⟩ | ⟨behind, hbehind⟩
        · -- The body is not complete.
          have hbytes : ¬ q.bytes <+: raw ++ chunk := by
            intro hn
            have hlen := hn.length_le
            have hpos := List.length_pos_of_ne_nil hne
            rw [hb, ClientRequest.bytes, hr, List.length_append, List.length_append,
              List.length_append] at hlen
            omega
          by_cases hf : found (raw ++ chunk) = some none
          · refine hwait hf fun hn => ?_
            by_cases hd : declaration q.header = .none
            · rw [hb, found_none hq b hd, Option.some.injEq] at hf
              exact absurd hf (Option.some_ne_none _)
            · rw [needed_eq_bytes hd] at hn
              exact hbytes hn
          · have hown : found (raw ++ chunk) ≠ some (some q.taken) := by
              intro h
              rw [hb] at h
              exact found_incomplete hq b r hr hne _ h rfl
            exact iff_of_false (takenRequests_ne_of_found hst hf hown _)
              (not_inTurn_unfinished hq b r hb hr hne hf)
        · -- The request is complete.
          have hraw : raw ++ chunk = q.bytes ++ behind := by
            rw [hb, hbehind, ClientRequest.bytes, List.append_assoc]
          rw [inTurn_take behind hraw]
          by_cases hends : q.EndsBefore behind
          · have hf := (found_own_iff hq behind).mpr hends
            rw [← hraw] at hf
            have hdrop : (raw ++ chunk).drop (min q.taken.consumed (raw ++ chunk).length) =
                behind := by
              rw [hraw, Nat.min_eq_left (by rw [List.length_append]; exact Nat.le_add_right _ _)]
              exact List.drop_left
            have hrest : behind ++ reads.flatten = (qs.map bytes).flatten := by
              rw [hraw, List.map_cons, List.flatten_cons, List.append_assoc,
                List.append_cancel_left_eq] at htotal
              exact htotal
            rw [takenRequests_take hst reads _ hf, hdrop, List.map_cons, List.cons.injEq]
            simp only [true_and, hends]
            exact ih qs behind {} (Or.inl rfl) hqs hrest
          · -- The loop looks for the end of the request in another place.
            exact iff_of_false (takenRequests_ne_complete hq hst behind hraw hends _)
              fun h => hends h.1

end Loop

/-- The PII loop takes the requests the client sent, each with its own header
    block, its own payload and its own bytes, exactly if each is there in time
    and ends where the loop looks for its end; whatever is done with the bodies,
    it then writes what is made of these requests, in their order. -/
theorem handleC2uPii_framing (requests : List ClientRequest) (reads : List Str)
    (hwf : ∀ q ∈ requests, q.WellFormed)
    (hbytes : reads.flatten = (requests.map bytes).flatten) :
    (takenRequests reads [] {} = requests.map taken ↔ InTurn reads requests []) ∧
      (InTurn reads requests [] → ∀ (σ : Type) (process : Str → σ → Option (Str × σ)) (s : σ),
        handleC2uPii process reads s = forwardAll process (requests.map taken) s) := by
  have h := takenRequests_iff_from reads requests [] {} (Or.inl rfl) hwf hbytes
  refine ⟨h, fun hturn σ process s => ?_⟩
  rw [handleC2uPii, h.mpr hturn]

/-- A request with a body of two bytes. -/
def smallRequest : ClientRequest :=
  ⟨lit "POST / HTTP/1.1\r\nContent-Length: 2\r\n\r\n", .sized (lit "hi")⟩

/-- The same body in a chunk. -/
def smallChunked : ClientRequest :=
  ⟨lit "POST / HTTP/1.1\r\nTransfer-Encoding: chunked\r\n\r\n",
    .chunked [(lit "2", lit "hi")] (lit "0") []⟩

theorem smallRequest_wellFormed : smallRequest.WellFormed where
  ends := by decide
  declares := fun _ => by decide
  valid := trivial

theorem smallChunked_wellFormed : smallChunked.WellFormed where
  ends := by decide
  declares := fun _ => by decide
  valid := by
    refine ⟨by decide, by decide, by decide, by decide, by decide⟩

theorem smallRequests_wellFormed : ∀ q ∈ [smallChunked, smallRequest], q.WellFormed := by
  rintro q hq
  rcases List.mem_cons.mp hq with rfl | hq
  · exact smallChunked_wellFormed
  · rw [List.mem_singleton.mp hq]
    exact smallRequest_wellFormed

/-- Two requests, cut inside the chunk of the first and between the two: each is
    there in time, and the loop takes and forwards both. -/
theorem handleC2uPii_framing_small :
    InTurn [smallChunked.bytes.take 50, smallChunked.bytes.drop 50, smallRequest.bytes]
        [smallChunked, smallRequest] [] ∧
      takenRequests [smallChunked.bytes.take 50, smallChunked.bytes.drop 50, smallRequest.bytes]
        [] {} = [smallChunked.taken, smallRequest.taken] ∧
      ∀ (σ : Type) (process : Str → σ → Option (Str × σ)) (s : σ),
        handleC2uPii process
            [smallChunked.bytes.take 50, smallChunked.bytes.drop 50, smallRequest.bytes] s =
          forwardAll process [smallChunked.taken, smallRequest.taken] s := by
  have hboth := handleC2uPii_framing [smallChunked, smallRequest]
    [smallChunked.bytes.take 50, smallChunked.bytes.drop 50, smallRequest.bytes]
    smallRequests_wellFormed (by decide)
  have htaken : takenRequests
      [smallChunked.bytes.take 50, smallChunked.bytes.drop 50, smallRequest.bytes] [] {} =
      [smallChunked.taken, smallRequest.taken] := by decide +kernel
  have hturn := hboth.1.mp htaken
  exact ⟨hturn, htaken, hboth.2 hturn⟩

/-- A read that holds two requests: the second one stays in the buffer, and
    nothing looks at it before the connection ends. -/
theorem takenRequests_pipelined :
    ∃ (requests : List ClientRequest) (reads : List Str), (∀ q ∈ requests, q.WellFormed) ∧
      reads.flatten = (requests.map bytes).flatten ∧
      takenRequests reads [] {} ≠ requests.map taken :=
  ⟨[smallChunked, smallRequest], [smallChunked.bytes ++ smallRequest.bytes],
    smallRequests_wellFormed, by decide, by decide⟩

end PrivacyClaw
