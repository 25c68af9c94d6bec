import PrivacyClaw.Lib.Pieces
import PrivacyClaw.Theory.Declared
import PrivacyClaw.Theory.Trimming

/-!
# Chunked Bodies, Searched and Walked

Three functions read the chunked coding. The batch decoder walks a complete
body, the incremental one does the same as the bytes arrive, and the end of a
body is not walked to but searched for, as the first place that looks like one.

Both decoders pass the two bytes behind a chunk without a look at them, so
`Chunks` is what they walk. Up to the size line that ends the body they agree,
and where that is the end of the message, what is still to come when the
incremental decoder has stopped is a part of a line end, and gives nothing.

The search is fooled by a chunk in which the end of a body stands, whatever the
size lines say, and by nothing else, as long as there is a chunk. An empty body
is found at its own end only if nothing behind it looks like the end of another.

## Main definitions

* `Chunks`: Chunks as the decoders walk them.
* `EndsWithTerminalChunk`: A message that ends where its walk ends.
* `bodyEnd`: What the search looks for.
* `FoundAtEnd`: Where the end of a body is found.

## Theorems

* `decode_chunks`: The incremental decoder on chunks.
* `decodeChunksFrom_spec`: What the batch decoder accepts.
* `feed_decoded`: The two decoders agree.
* `validChunk_written`: The size in hexadecimal digits is a size line.
* `bodyEnd_infix_iff`: Where a body looks like its end.
* `chunked_delimited_iff`: When a body is delimited and decoded exactly.
-/

namespace PrivacyClaw

namespace ChunkedDecoder

/-- Chunks as the decoders walk them, and what they carry: a size line, as many
    bytes as it says, and two bytes that are passed unread. -/
inductive Chunks : Str → Str → Prop
  | nil : Chunks [] []
  | cons (line data trail text content : Str) (hchunk : ValidChunk (line, data))
      (htrail : trail.length = 2) (hrest : Chunks text content) :
      Chunks (line ++ (crlf ++ (data ++ (trail ++ text)))) (data ++ content)

/-- Chunks are decoded, and then what follows them. -/
theorem decode_chunks {text content : Str} (h : Chunks text content) (y : Str) :
    decode ⟨text ++ y, 0, .readingSize⟩ = (content ++ (decode ⟨y, 0, .readingSize⟩).1,
      (decode ⟨y, 0, .readingSize⟩).2) := by
  induction h with
  | nil => rfl
  | cons line data trail text content hchunk htrail _ ih =>
      have hassoc : line ++ (crlf ++ (data ++ (trail ++ text))) ++ y =
          line ++ (crlf ++ (data ++ (trail ++ (text ++ y)))) := by
        simp only [List.append_assoc]
      rw [hassoc, decode_chunk_size line data _ hchunk,
        decode_body _ _ (by rw [List.length_append]; omega), List.take_left, List.drop_left,
        decode_trail _ _ (by rw [List.length_append]; omega), List.drop_left' htrail, ih,
        List.append_assoc]

/-- A round of the batch decoder, behind a size line. -/
def decodeRound (fuel pos : Nat) (line y : Str) : Option (Option Str) :=
  match chunkSize line with
  | none => some none
  | some 0 => some (some [])
  | some (n + 1) =>
    if 2 ^ 64 ≤ pos + (line.length + 2) + (n + 1) then none
    else if y.length < n + 1 then some none
    else if y.length < n + 1 + 2 then none
    else (decodeChunksFrom fuel (pos + (line.length + 2) + (n + 1 + 2)) (y.drop (n + 1 + 2))).map
      fun decoded => decoded.map (y.take (n + 1) ++ ·)

theorem decodeChunksFrom_line (fuel pos : Nat) (line y : Str) (hline : ¬ crlf <:+: line) :
    decodeChunksFrom (fuel + 1) pos (line ++ (crlf ++ y)) = decodeRound fuel pos line y := by
  have hdrop : (line ++ (crlf ++ y)).drop (line.length + 2) = y := by
    rw [← List.append_assoc, List.drop_left' (by rw [List.length_append, length_crlf])]
  rw [decodeChunksFrom, find_crlf_line line y hline]
  dsimp only
  rw [List.take_left, hdrop]
  rfl

/-- Behind a chunk that is there the batch decoder goes on. -/
theorem decodeRound_chunk (fuel pos : Nat) (line data trail y : Str)
    (hchunk : ValidChunk (line, data)) (htrail : trail.length = 2)
    (hfit : pos + (line.length + 2) + data.length < 2 ^ 64) :
    decodeRound fuel pos line (data ++ (trail ++ y)) =
      (decodeChunksFrom fuel (pos + (line.length + 2) + (data.length + 2)) y).map
        fun decoded => decoded.map (data ++ ·) := by
  rcases hchunk with ⟨_, hsize, hdata⟩
  dsimp only at hsize hdata
  cases hn : data.length with
  | zero => exact absurd (List.length_eq_zero_iff.mp hn) hdata
  | succ n =>
      rw [hn] at hsize hfit
      have hnext : (data ++ (trail ++ y)).drop (n + 1 + 2) = y := by
        rw [← List.append_assoc, List.drop_left' (by rw [List.length_append, htrail, hn])]
      have hall : (data ++ (trail ++ y)).length = n + 1 + 2 + y.length := by
        rw [List.length_append, List.length_append, htrail, hn]
        omega
      simp only [decodeRound, hsize, hnext, hall]
      rw [if_neg (by omega), if_neg (by omega), if_neg (by omega), List.take_left' hn]

/-- A chunk that is there with two bytes behind it. -/
theorem validChunk_split {line y : Str} {n : Nat} (hline : ¬ crlf <:+: line)
    (hsize : chunkSize line = some (n + 1)) (hlen : n + 1 + 2 ≤ y.length) :
    ∃ data trail rest, ValidChunk (line, data) ∧ data.length = n + 1 ∧ trail.length = 2 ∧
      y = data ++ (trail ++ rest) := by
  have hdata : (y.take (n + 1)).length = n + 1 := List.length_take_of_le (by omega)
  refine ⟨y.take (n + 1), (y.drop (n + 1)).take 2, y.drop (n + 1 + 2), ⟨hline, ?_, ?_⟩, hdata,
    ?_, ?_⟩
  · rw [hdata]
    exact hsize
  · exact List.ne_nil_of_length_pos (by rw [hdata]; exact Nat.succ_pos n)
  · rw [List.length_take_of_le]
    rw [List.length_drop]
    omega
  · rw [← List.drop_drop (i := 2), List.take_append_drop, List.take_append_drop]

/-- What a round can do: it ends at a size line that gives no size or zero, panics
    where the sum does not fit or the bytes behind the chunk are missing, rejects a
    chunk that is not complete, or passes a chunk. -/
theorem decodeRound_cases (fuel pos : Nat) (line y : Str) (hline : ¬ crlf <:+: line) :
    (chunkSize line = none ∧ decodeRound fuel pos line y = some none) ∨
    (chunkSize line = some 0 ∧ decodeRound fuel pos line y = some (some [])) ∨
    ∃ n, chunkSize line = some (n + 1) ∧
      (2 ^ 64 ≤ pos + (line.length + 2) + (n + 1) ∧ decodeRound fuel pos line y = none ∨
      pos + (line.length + 2) + (n + 1) < 2 ^ 64 ∧
        (y.length < n + 1 ∧ decodeRound fuel pos line y = some none ∨
        n + 1 ≤ y.length ∧ y.length < n + 1 + 2 ∧ decodeRound fuel pos line y = none ∨
        ∃ data trail rest, ValidChunk (line, data) ∧ data.length = n + 1 ∧ trail.length = 2 ∧
          y = data ++ (trail ++ rest) ∧ decodeRound fuel pos line y =
            (decodeChunksFrom fuel (pos + (line.length + 2) + (data.length + 2)) rest).map
              fun decoded => decoded.map (data ++ ·))) := by
  cases hs : chunkSize line with
  | none => exact .inl ⟨rfl, by rw [decodeRound, hs]⟩
  | some k =>
      cases k with
      | zero => exact .inr (.inl ⟨rfl, by rw [decodeRound, hs]⟩)
      | succ n =>
          refine .inr (.inr ⟨n, rfl, ?_⟩)
          by_cases hfit : 2 ^ 64 ≤ pos + (line.length + 2) + (n + 1)
          · refine .inl ⟨hfit, ?_⟩
            rw [decodeRound, hs]
            exact if_pos hfit
          · refine .inr ⟨Nat.lt_of_not_le hfit, ?_⟩
            by_cases hshort : y.length < n + 1
            · refine .inl ⟨hshort, ?_⟩
              rw [decodeRound, hs]
              dsimp only
              rw [if_neg hfit, if_pos hshort]
            · by_cases htrail : y.length < n + 1 + 2
              · refine .inr (.inl ⟨Nat.le_of_not_lt hshort, htrail, ?_⟩)
                rw [decodeRound, hs]
                dsimp only
                rw [if_neg hfit, if_neg hshort, if_pos htrail]
              · rcases validChunk_split hline hs (Nat.le_of_not_lt htrail) with
                  ⟨data, trail, rest, hchunk, hdata, htwo, rfl⟩
                refine .inr (.inr ⟨data, trail, rest, hchunk, hdata, htwo, rfl, ?_⟩)
                refine decodeRound_chunk fuel pos line data trail rest hchunk htwo ?_
                rw [hdata]
                exact Nat.lt_of_not_le hfit

/-- A round that goes on has passed a chunk. -/
theorem decodeRound_some (fuel pos : Nat) (line y content : Str) (hline : ¬ crlf <:+: line)
    (h : decodeRound fuel pos line y = some (some content)) :
    (chunkSize line = some 0 ∧ content = []) ∨
      ∃ data trail rest more, ValidChunk (line, data) ∧ trail.length = 2 ∧
        y = data ++ (trail ++ rest) ∧ content = data ++ more ∧
        pos + (line.length + 2) + data.length < 2 ^ 64 ∧
        decodeChunksFrom fuel (pos + (line.length + 2) + (data.length + 2)) rest =
          some (some more) := by
  rcases decodeRound_cases fuel pos line y hline with
    ⟨_, he⟩ | ⟨hs, he⟩ | ⟨n, _, ⟨_, he⟩ | ⟨hfit, ⟨_, he⟩ | ⟨_, _, he⟩ |
      ⟨data, trail, rest, hchunk, hlen, htrail, hy, he⟩⟩⟩
  · rw [he, Option.some.injEq] at h
    exact absurd h.symm (Option.some_ne_none content)
  · rw [he, Option.some.injEq, Option.some.injEq] at h
    exact .inl ⟨hs, h.symm⟩
  · rw [he] at h
    exact absurd h.symm (Option.some_ne_none _)
  · rw [he, Option.some.injEq] at h
    exact absurd h.symm (Option.some_ne_none content)
  · rw [he] at h
    exact absurd h.symm (Option.some_ne_none _)
  · rw [he, Option.map_eq_some_iff] at h
    rcases h with ⟨decoded, hrec, hmap⟩
    rcases Option.map_eq_some_iff.mp hmap with ⟨more, rfl, hcontent⟩
    rw [← hlen] at hfit
    exact .inr ⟨data, trail, rest, more, hchunk, htrail, hy, hcontent.symm, hfit, hrec⟩

/-- What the batch decoder accepts: chunks and a size line that says zero.
    Whatever stands behind that line, the answer is the same. -/
theorem decodeChunksFrom_spec : ∀ (fuel pos : Nat) (rest content : Str),
    decodeChunksFrom fuel pos rest = some (some content) →
    ∃ text line tail, rest = text ++ (line ++ (crlf ++ tail)) ∧ Chunks text content ∧
      ¬ crlf <:+: line ∧ chunkSize line = some 0 ∧
      ∀ (tail' : Str) (fuel' : Nat), text.length < fuel' →
        decodeChunksFrom fuel' pos (text ++ (line ++ (crlf ++ tail'))) = some (some content) := by
  intro fuel
  induction fuel with
  | zero =>
      intro pos rest content h
      rw [decodeChunksFrom, Option.some.injEq] at h
      exact absurd h.symm (Option.some_ne_none content)
  | succ fuel ih =>
      intro pos rest content h
      cases hf : Search.find crlf rest with
      | none =>
          simp only [decodeChunksFrom, hf, Option.some.injEq] at h
          exact absurd h.symm (Option.some_ne_none content)
      | some i =>
          rcases Search.find_split crlf rest i (by decide) hf with ⟨line, y, rfl, _, hline⟩
          rw [decodeChunksFrom_line fuel pos line y hline] at h
          rcases decodeRound_some fuel pos line y content hline h with
            ⟨hzero, rfl⟩ | ⟨data, trail, rest, more, hchunk, htrail, rfl, rfl, hfit, hrec⟩
          · -- the size line of the last chunk
            refine ⟨[], line, y, rfl, .nil, hline, hzero, fun tail' fuel' hfuel => ?_⟩
            rcases fuel' with _ | fuel'
            · exact absurd hfuel (Nat.not_lt_zero _)
            · rw [List.nil_append, decodeChunksFrom_line fuel' pos line tail' hline, decodeRound,
                hzero]
          · rcases ih _ rest more hrec with ⟨text, last, tail, rfl, hchunks, hlast, hsize, hagain⟩
            refine ⟨line ++ (crlf ++ (data ++ (trail ++ text))), last, tail, ?_,
              .cons line data trail text more hchunk htrail hchunks, hlast, hsize,
              fun tail' fuel' hfuel => ?_⟩
            · simp only [List.append_assoc]
            · rcases fuel' with _ | fuel'
              · exact absurd hfuel (Nat.not_lt_zero _)
              · simp only [List.length_append, length_crlf, htrail] at hfuel
                simp only [List.append_assoc]
                rw [decodeChunksFrom_line fuel' pos line _ hline,
                  decodeRound_chunk fuel' pos line data trail _ hchunk htrail hfit,
                  hagain tail' fuel' (by omega)]
                rfl

/-- A message that ends with the chunk `0`, where the walk over it ends, and not
    before. -/
def EndsWithTerminalChunk (data : Str) : Prop :=
  ∃ pre, data = pre ++ lastChunk ∧ ∀ content, decodeChunkedBody pre ≠ some (some content)

/-- Behind the size line that ends the walk there is a part of a line end at
    most. -/
theorem EndsWithTerminalChunk.tail {text line tail content : Str}
    (hends : EndsWithTerminalChunk (text ++ (line ++ (crlf ++ tail))))
    (hagain : ∀ (tail' : Str) (fuel' : Nat), text.length < fuel' →
      decodeChunksFrom fuel' 0 (text ++ (line ++ (crlf ++ tail'))) = some (some content)) :
    tail <:+ crlf := by
  rcases hends with ⟨pre, hpre, hnot⟩
  have h5 : lastChunk.length = 5 := by decide
  have hassoc : text ++ (line ++ (crlf ++ tail)) = (text ++ (line ++ crlf)) ++ tail := by
    simp only [List.append_assoc]
  rw [hassoc] at hpre
  rcases List.append_eq_append_iff.mp hpre with ⟨r, hr, htail⟩ | ⟨r, hr, htail⟩
  · -- the walk would end within the text before the last chunk
    refine absurd ?_ (hnot content)
    have hrest : pre = text ++ (line ++ (crlf ++ r)) := by
      rw [hr]
      simp only [List.append_assoc]
    rw [hrest]
    exact hagain r _ (by rw [List.length_append]; omega)
  · -- the line end of the size line is one of the two in the last chunk
    have hcrlf : crlf <:+ pre ++ r := by
      rw [← hr, ← List.append_assoc]
      exact List.suffix_append _ _
    have hlast : lastChunk = [48, 13, 10, 13, 10] := by decide
    have hc : crlf = [13, 10] := by decide
    have hend : ∀ (q : Str) (b : UInt8), crlf <:+ q ++ [b] → b = 10 := by
      intro q b hz
      have hb := hz.getLast (by decide : crlf ≠ [])
      rw [List.getLast_concat] at hb
      exact hb.symm
    -- a part of the last chunk that ends elsewhere is none of a line end
    rw [hlast] at htail
    rcases r with _ | ⟨b1, _ | ⟨b2, _ | ⟨b3, r⟩⟩⟩
    · rw [List.nil_append] at htail
      refine absurd ?_ (hnot content)
      rw [List.append_nil] at hr
      rw [← hr, ← List.append_nil crlf]
      exact hagain [] _ (by rw [List.length_append]; omega)
    · rw [List.cons_append, List.cons.injEq] at htail
      rw [← htail.1] at hcrlf
      exact absurd (hend pre 48 hcrlf) (by decide)
    · rw [List.cons_append, List.cons.injEq, List.cons_append, List.cons.injEq] at htail
      rw [← htail.1, ← htail.2.1,
        show pre ++ [48, 13] = (pre ++ [48]) ++ [13] by rw [List.append_assoc]; rfl] at hcrlf
      exact absurd (hend _ 13 hcrlf) (by decide)
    · simp only [List.cons_append, List.cons.injEq] at htail
      rw [hc, htail.2.2.2]
      exact List.suffix_append _ _

/-- A part of a line end gives nothing, and stays in the buffer. -/
theorem decode_lineEnd (b : Str) (remaining : Nat) (hb : b <:+: crlf) :
    (decode ⟨b, remaining, .readingSize⟩).1 = [] ∧
      (decode ⟨b, remaining, .readingSize⟩).2.1 = ⟨b, remaining, .readingSize⟩ := by
  cases hf : Search.find crlf b with
  | none =>
      rw [decode_wait b remaining hf]
      exact ⟨rfl, rfl⟩
  | some i =>
      have hbound := find_crlf_bound b i hf
      have hlen := hb.length_le
      rw [length_crlf] at hlen
      have hi : i = 0 := by omega
      rw [decode_bad b remaining i hf (by rw [hi, List.take_zero]; decide)]
      exact ⟨rfl, rfl⟩

/-- What a decoder still has to give, with `x` still to come of the message
    `data` that carries `content`: it runs and has given a part, or it has
    stopped and only a part of a line end comes. -/
def Left (data content : Str) (d : ChunkedDecoder) (x o : Str) : Prop :=
  (∃ p, p ++ x = data ∧ (decode ⟨p, 0, .readingSize⟩).2 = (d, false) ∧
    (decode ⟨p, 0, .readingSize⟩).1 ++ o = content) ∨
  (o = [] ∧ ∃ b remaining, d = ⟨b, remaining, .readingSize⟩ ∧ b ++ x <:+ crlf)

section Agreement

variable {text line tail content : Str} (hchunks : Chunks text content)
  (hline : ¬ crlf <:+: line) (hzero : chunkSize line = some 0) (htail : tail <:+ crlf)
include hchunks hline hzero

/-- Behind the last size line the decoder has stopped. -/
theorem decode_stopped (t : Str) : decode ⟨text ++ (line ++ (crlf ++ t)), 0, .readingSize⟩ =
    (content, ⟨[], 0, .readingSize⟩, true) := by
  rw [decode_chunks hchunks, decode_last _ 0 line.length (find_crlf_line line t hline)
    (by rw [List.take_left]; exact hzero), List.append_nil]

omit hzero in
/-- Before the end of it the decoder runs. -/
theorem decode_running (p : Str) (hp : p <+: text ++ (line ++ [13])) :
    (decode ⟨p, 0, .readingSize⟩).2.2 = false := by
  rcases hp with ⟨r, hr⟩
  have hnone : Search.find crlf (line ++ [13]) = none := by
    rw [Search.find_eq_none_iff]
    -- across the seam a line end would end in a carriage return
    refine Search.not_infix_append hline (by decide) fun l₁ l₂ heq h1 h2 _ hpre => ?_
    rcases l₁ with _ | ⟨a, l₁⟩
    · exact h1 rfl
    · have hc : crlf = [13, 10] := by decide
      rw [hc, List.cons_append, List.cons.injEq] at heq
      rcases l₂ with _ | ⟨c, l₂⟩
      · exact h2 rfl
      · have h13 := (List.cons_prefix_cons.mp hpre).1
        have hmem : (13 : UInt8) ∈ [10] := by
          rw [heq.2, h13]
          exact List.mem_append_right _ List.mem_cons_self
        exact absurd hmem (by decide)
  have hwhole : (decode ⟨p ++ r, 0, .readingSize⟩).2.2 = false := by
    rw [hr, decode_chunks hchunks, decode_wait _ 0 hnone]
  exact running_of_append ⟨p, 0, .readingSize⟩ r hwhole

include htail

/-- A push gives its part of what is missing. -/
theorem Left.push (d : ChunkedDecoder) (x y o : Str)
    (h : Left (text ++ (line ++ (crlf ++ tail))) content d (x ++ y) o) :
    ∃ o', o = (d.push x).1 ++ o' ∧
      Left (text ++ (line ++ (crlf ++ tail))) content (d.push x).2 y o' := by
  rw [push_fst, push_snd]
  rcases h with ⟨p, hp, hd, hout⟩ | ⟨rfl, b, remaining, rfl, hb⟩
  · have happ := decode_append ⟨p, 0, .readingSize⟩ x (by rw [hd])
    rw [hd] at happ
    dsimp only at happ
    have hfst := congrArg Prod.fst happ
    have hsnd := congrArg Prod.snd happ
    cases hrun : (decode ⟨p ++ x, 0, .readingSize⟩).2.2 with
    | false =>
        -- it runs on, and what the rest of the message gives is missing
        have hrest := decode_append ⟨p ++ x, 0, .readingSize⟩ y hrun
        have hall := decode_stopped hchunks hline hzero tail
        dsimp only at hrest
        rw [List.append_assoc, hp, hall, Prod.mk.injEq] at hrest
        refine ⟨_, ?_, .inl ⟨p ++ x, by rw [List.append_assoc]; exact hp, ?_, hrest.1.symm⟩⟩
        · have hcontent := hrest.1
          rw [hfst, List.append_assoc, ← hout] at hcontent
          exact List.append_cancel_left hcontent
        · rw [hsnd] at hrun ⊢
          exact Prod.ext rfl hrun
    | true =>
        -- it has stopped, so the size line was complete
        have hsplit : (p ++ x) ++ y = (text ++ (line ++ [13])) ++ (10 :: tail) := by
          rw [List.append_assoc, hp]
          simp only [List.append_assoc]
          rfl
        rcases List.append_eq_append_iff.mp hsplit with ⟨r, hr, _⟩ | ⟨r, hr, hr'⟩
        · have hgoes := decode_running hchunks hline (p ++ x) ⟨r, hr.symm⟩
          rw [hrun] at hgoes
          exact absurd hgoes (by decide)
        · rcases r with _ | ⟨b, r⟩
          · -- only the carriage return of its line end is there
            rw [List.append_nil] at hr
            have hgoes := decode_running hchunks hline (p ++ x) ⟨[], by rw [hr, List.append_nil]⟩
            rw [hrun] at hgoes
            exact absurd hgoes (by decide)
          · rw [List.cons_append, List.cons.injEq] at hr'
            have hpx : p ++ x = text ++ (line ++ (crlf ++ r)) := by
              rw [hr, ← hr'.1]
              simp only [List.append_assoc]
              rfl
            have hstop := decode_stopped hchunks hline hzero r
            rw [hpx, hstop, ← hout] at hfst
            rw [hpx, hstop] at hsnd
            refine ⟨[], ?_, .inr ⟨rfl, [], 0, (congrArg Prod.fst hsnd).symm, ?_⟩⟩
            · rw [List.append_nil]
              exact List.append_cancel_left hfst
            · refine List.IsSuffix.trans ?_ htail
              rw [hr'.2]
              exact List.suffix_append _ _
  · -- it had stopped before
    have hin : b ++ x <:+: crlf :=
      ((List.prefix_append (b ++ x) y).isInfix).trans
        (by rw [List.append_assoc]; exact hb.isInfix)
    have hdec := decode_lineEnd (b ++ x) remaining hin
    refine ⟨[], by rw [hdec.1]; rfl, .inr ⟨rfl, b ++ x, remaining, hdec.2, ?_⟩⟩
    rw [List.append_assoc]
    exact hb

omit htail in
/-- Behind the whole message nothing is missing. -/
theorem Left.done (d : ChunkedDecoder) (o : Str)
    (h : Left (text ++ (line ++ (crlf ++ tail))) content d [] o) : o = [] := by
  rcases h with ⟨p, hp, hd, _⟩ | ⟨ho, _⟩
  · rw [List.append_nil] at hp
    rw [hp, decode_stopped hchunks hline hzero, Prod.mk.injEq] at hd
    exact absurd hd.2 (by decide)
  · exact ho

end Agreement

/-- However a message is cut that the batch decoder accepts and that ends with
    its last chunk, the incremental decoder gives the same payload. -/
theorem feed_decoded (data content : Str) (pieces : List Str)
    (haccept : decodeChunkedBody data = some (some content)) (hends : EndsWithTerminalChunk data)
    (hpieces : pieces.flatten = data) : (Pieces.feed push new pieces).1 = content := by
  rcases decodeChunksFrom_spec _ 0 data content haccept with
    ⟨text, line, tail, rfl, hchunks, hline, hzero, hagain⟩
  have htail := hends.tail hagain
  refine Pieces.feed_expected (Left (text ++ (line ++ (crlf ++ tail))) content)
    (fun d x y o h => h.push hchunks hline hzero htail d x y o)
    (fun d o h => h.done hchunks hline hzero d o) pieces new content ?_
  exact .inl ⟨[], by rw [hpieces]; rfl, rfl, rfl⟩

/-- A chunk, cut within its size line, its data, the line ends and the last
    chunk. -/
theorem feed_decoded_cut : (Pieces.feed push new
    [lit "3;x", lit "=1\r", lit "\na", lit "bc\r", lit "\n0\r\n", lit "\r", lit "\n"]).1 =
      lit "abc" :=
  feed_decoded (lit "3;x=1\r\nabc\r\n0\r\n\r\n") (lit "abc") _ (by decide)
    ⟨lit "3;x=1\r\nabc\r\n", by decide, fun content h => by
      rw [show decodeChunkedBody (lit "3;x=1\r\nabc\r\n") = some none by decide,
        Option.some.injEq] at h
      exact Option.some_ne_none content h.symm⟩
    (by decide)

end ChunkedDecoder

open ChunkedDecoder (encode payload ValidChunk chunkSize)

section Written

/-- A digit is no sign, no white space and an ASCII character. -/
theorem digitValue_isSome (b : UInt8) (h : (digitValue b).isSome) :
    b ≠ 43 ∧ b ∉ whitespace.flatten ∧ b < 0x80 := by
  have hnot : ∀ w ∈ 43 :: whitespace.flatten, digitValue w = none :=
    List.forall_iff_forall_mem.mp (by decide)
  have hmem : b ∉ 43 :: whitespace.flatten := fun hb => by
    rw [hnot b hb] at h
    exact absurd h (by decide)
  rw [List.mem_cons, not_or] at hmem
  refine ⟨hmem.1, hmem.2, ?_⟩
  unfold digitValue at h
  rw [UInt8.lt_iff_toNat_lt]
  simp only [UInt8.le_iff_toNat_le] at h
  change b.toNat < 128
  by_cases h1 : (48 : UInt8).toNat ≤ b.toNat ∧ b.toNat ≤ (57 : UInt8).toNat
  · exact Nat.lt_of_le_of_lt h1.2 (by decide)
  · by_cases h2 : (97 : UInt8).toNat ≤ b.toNat ∧ b.toNat ≤ (122 : UInt8).toNat
    · exact Nat.lt_of_le_of_lt h2.2 (by decide)
    · by_cases h3 : (65 : UInt8).toNat ≤ b.toNat ∧ b.toNat ≤ (90 : UInt8).toNat
      · exact Nat.lt_of_le_of_lt h3.2 (by decide)
      · rw [if_neg h1, if_neg h2, if_neg h3] at h
        exact absurd h (by decide)

/-- Digits of a number that fits are read without overflow. -/
theorem digitsFrom_of_hexNumber : ∀ (s : Str) (a n : Nat), hexNumber a s = some n → n < 2 ^ 64 →
    digitsFrom 16 a s = some n ∧ a ≤ n ∧ ∀ b ∈ s, (digitValue b).isSome := by
  intro s
  induction s with
  | nil =>
      intro a n h _
      rw [hexNumber, Option.some.injEq] at h
      exact ⟨by rw [digitsFrom, h], Nat.le_of_eq h, fun b hb => absurd hb List.not_mem_nil⟩
  | cons b s ih =>
      intro a n h hn
      rw [hexNumber] at h
      cases hd : digitValue b with
      | none =>
          rw [hd] at h
          exact absurd h (by simp only [reduceCtorEq, not_false_eq_true])
      | some d =>
          rw [hd] at h
          dsimp only at h
          by_cases h16 : d < 16
          · rw [if_pos h16] at h
            rcases ih (a * 16 + d) n h hn with ⟨hrec, hle, hall⟩
            refine ⟨?_, by omega, List.forall_mem_cons.mpr ⟨by rw [hd]; rfl, hall⟩⟩
            rw [digitsFrom, hd]
            dsimp only
            rw [if_pos ⟨h16, by omega⟩]
            exact hrec
          · rw [if_neg h16] at h
            exact absurd h (by simp only [reduceCtorEq, not_false_eq_true])

/-- The size of a chunk in hexadecimal digits, of either case and with leading
    zeros or without, is a size line. -/
theorem validChunk_written (line data : Str) (hline : line ≠ [])
    (hnum : hexNumber 0 line = some data.length) (hne : data ≠ [])
    (hfit : data.length < 2 ^ 64) : ValidChunk (line, data) := by
  rcases digitsFrom_of_hexNumber _ 0 _ hnum hfit with ⟨hdigits, _, hall⟩
  -- digits only: no separator, no white space and no sign
  have hsep : ∀ b ∈ line, digitValue b ≠ none := fun b hb h => by
    have hsome := hall b hb
    rw [h] at hsome
    exact absurd hsome (by decide)
  have hvalid := utf8Valid_of_ascii line fun b hb => (digitValue_isSome b (hall b hb)).2.2
  have hwhole : line.takeWhile (· ≠ 59) = line :=
    List.takeWhile_eq_self_iff.mpr fun b hb => decide_eq_true fun he =>
      hsep b hb (by rw [he]; decide)
  have htrim := trim_eq_self _ (trimmed_of_forall line fun b hb =>
    (digitValue_isSome b (hall b hb)).2.1)
  refine ⟨fun h => hsep 13 (h.subset (by decide)) (by decide), ?_, hne⟩
  dsimp only
  rw [chunkSize, if_pos hvalid, hwhole, htrim]
  cases line with
  | nil => exact absurd rfl hline
  | cons b s =>
      have hsign := (digitValue_isSome b (hall b List.mem_cons_self)).1
      rw [fromStrRadix]
      · exact hdigits
      · exact List.cons_ne_nil b s
      · exact fun h => hsign (List.cons.inj h).1
      · exact fun _ h => hsign (List.cons.inj h).1

end Written

section Delimited

/-- What `find_chunked_body_end` looks for: the end of a chunk, and the last
    chunk. -/
def bodyEnd : Str := crlf ++ lastChunk

theorem bodyEnd_eq : bodyEnd = [13, 10, 48, 13, 10, 13, 10] := by decide

/-- Where the pattern may be cut behind a line end. -/
theorem bodyEnd_cut (x y : Str) (h : bodyEnd = x ++ y) (hx : x ≠ []) (hy : y ≠ [])
    (z : Str) (hz : x <:+ z ++ crlf) : y = lastChunk ∨ y = crlf := by
  have hlast : x.getLast? = some 10 := by
    have hb := hz.getLast hx
    rw [List.getLast_append_of_ne_nil _ (by decide : crlf ≠ [])] at hb
    rw [List.getLast?_eq_some_getLast hx, hb]
    rfl
  have htake : x = bodyEnd.take x.length := by rw [h, List.take_left]
  have hdrop : y = bodyEnd.drop x.length := by rw [h, List.drop_left]
  have hlen := congrArg List.length h
  have hpos := List.length_pos_of_ne_nil hx
  have hposy := List.length_pos_of_ne_nil hy
  rw [List.length_append, show bodyEnd.length = 7 by decide] at hlen
  generalize x.length = n at *
  rw [htake] at hlast
  -- behind one of its two line ends, or between the line ends of the last chunk
  have hn : n = 1 ∨ n = 2 ∨ n = 3 ∨ n = 4 ∨ n = 5 ∨ n = 6 := by omega
  rcases hn with rfl | rfl | rfl | rfl | rfl | rfl
  · exact absurd hlast (by decide)
  · exact .inl (by rw [hdrop]; decide)
  · exact absurd hlast (by decide)
  · exact absurd hlast (by decide)
  · exact .inr (by rw [hdrop]; decide)
  · exact absurd hlast (by decide)

/-- Nothing looks like the end of a body in a size line, nor in the seams around
    it and behind the chunk, unless what follows begins like that end. -/
theorem bodyEnd_infix_chunk (line data y : Str) (hline : ¬ crlf <:+: line)
    (hy : ¬ crlf <+: y) (hlast : ¬ lastChunk <+: y) :
    bodyEnd <:+: line ++ (crlf ++ data ++ crlf ++ y) ↔
      bodyEnd <:+: crlf ++ data ++ crlf ∨ bodyEnd <:+: y := by
  have hstart : crlf <+: bodyEnd := List.prefix_append _ _
  constructor
  · intro h
    rcases List.infix_append_iff_ne_nil.mp h with h | h | ⟨x, z, hx, hz, heq, hsuf, hpre⟩
    · exact absurd (hstart.isInfix.trans h) hline
    · -- within the chunk, behind it, or across the seam
      rcases List.infix_append_iff_ne_nil.mp h with h | h | ⟨x, z, hx, hz, heq, hsuf, hpre⟩
      · exact .inl h
      · exact .inr h
      · rcases bodyEnd_cut x z heq hx hz (crlf ++ data) hsuf with rfl | rfl
        · exact absurd hpre hlast
        · exact absurd hpre hy
    · -- the pattern would begin within the size line, with a whole line end or half of one
      exfalso
      rcases x with _ | ⟨a, _ | ⟨b, x⟩⟩
      · exact hx rfl
      · rw [bodyEnd_eq, List.cons_append, List.cons.injEq, List.nil_append] at heq
        rw [← heq.2, show crlf = 13 :: [10] by decide, List.cons_append, List.cons_append,
          List.cons_append] at hpre
        exact absurd (List.cons_prefix_cons.mp hpre).1 (by decide)
      · rw [bodyEnd_eq, List.cons_append, List.cons.injEq, List.cons_append, List.cons.injEq] at heq
        refine hline (List.IsInfix.trans ?_ hsuf.isInfix)
        rw [← heq.1, ← heq.2.1, show crlf = [13, 10] by decide]
        exact (List.prefix_append [13, 10] x).isInfix
  · rintro (h | h)
    · exact (h.trans (List.prefix_append _ y).isInfix).trans (List.suffix_append line _).isInfix
    · exact (h.trans (List.suffix_append (crlf ++ data ++ crlf) y).isInfix).trans
        (List.suffix_append line _).isInfix

/-- A chunk begins with its size line: neither with a line end nor like the last
    chunk. -/
theorem encode_cons_start (c : Str × Str) (chunks : List (Str × Str)) (hc : ValidChunk c)
    (r : Str) :
    ¬ crlf <+: encode (c :: chunks) ++ r ∧ ¬ lastChunk <+: encode (c :: chunks) ++ r := by
  rcases c with ⟨line, data⟩
  rcases hc with ⟨hline, hsize, hdata⟩
  dsimp only at hline hsize hdata
  have hassoc : encode ((line, data) :: chunks) ++ r =
      line ++ (crlf ++ (data ++ (crlf ++ (encode chunks ++ r)))) := by
    simp only [encode, List.append_assoc]
  rw [hassoc]
  constructor
  · -- the size line would be empty
    rintro ⟨z, hz⟩
    have hcancel := @line_cancel [] _ _ _ (by decide) hline hz
    rw [← hcancel.1, show chunkSize [] = none by decide] at hsize
    exact absurd hsize.symm (Option.some_ne_none _)
  · -- the size line would be a zero
    rintro ⟨z, hz⟩
    have hcancel := @line_cancel (lit "0") _ (crlf ++ z) _ (by decide) hline (by
      rw [← hz, show lastChunk = lit "0" ++ (crlf ++ crlf) by decide]
      simp only [List.append_assoc])
    rw [← hcancel.1, show chunkSize (lit "0") = some 0 by decide, Option.some.injEq] at hsize
    exact hdata (List.length_eq_zero_iff.mp hsize.symm)

/-- The chunks of a body look like its end exactly in the data of a chunk, with
    the line ends around it. -/
theorem bodyEnd_infix_iff : ∀ (chunks : List (Str × Str)), (∀ c ∈ chunks, ValidChunk c) →
    (bodyEnd <:+: encode chunks ++ lastChunk.dropLast ↔
      ∃ c ∈ chunks, bodyEnd <:+: crlf ++ c.2 ++ crlf) := by
  intro chunks
  induction chunks with
  | nil =>
      intro _
      -- the last chunk without its last byte is too short
      constructor
      · intro h
        have hlen := h.length_le
        exact absurd hlen (by decide)
      · rintro ⟨c, hc, _⟩
        exact absurd hc List.not_mem_nil
  | cons c chunks ih =>
      intro hall
      rcases c with ⟨line, data⟩
      rw [List.forall_mem_cons] at hall
      have hstart : ¬ crlf <+: encode chunks ++ lastChunk.dropLast ∧
          ¬ lastChunk <+: encode chunks ++ lastChunk.dropLast := by
        cases chunks with
        | nil => exact ⟨by decide, fun h => absurd h.length_le (by decide)⟩
        | cons c' chunks => exact encode_cons_start c' chunks (hall.2 c' List.mem_cons_self) _
      have hassoc : encode ((line, data) :: chunks) ++ lastChunk.dropLast =
          line ++ (crlf ++ data ++ crlf ++ (encode chunks ++ lastChunk.dropLast)) := by
        simp only [encode, List.append_assoc]
      rw [hassoc, bodyEnd_infix_chunk line data _ hall.1.1 hstart.1 hstart.2, ih hall.2]
      constructor
      · rintro (h | ⟨c, hc, h⟩)
        · exact ⟨(line, data), List.mem_cons_self, h⟩
        · exact ⟨c, List.mem_cons_of_mem _ hc, h⟩
      · rintro ⟨c, hc, h⟩
        rcases List.mem_cons.mp hc with rfl | hc
        · exact .inl h
        · exact .inr ⟨c, hc, h⟩

/-- Where the end of a body is found: with chunks, none of them looks like it;
    without, nothing behind the body does. -/
def FoundAtEnd (chunks : List (Str × Str)) (rest : Str) : Prop :=
  if chunks = [] then ¬ bodyEnd <:+: lastChunk ++ rest
  else ∀ c ∈ chunks, ¬ bodyEnd <:+: crlf ++ c.2 ++ crlf

theorem findChunkedBodyEnd_empty (rest : Str) :
    findChunkedBodyEnd (lastChunk ++ rest) = some lastChunk.length ↔
      ¬ bodyEnd <:+: lastChunk ++ rest := by
  have hpre : (lit "0\r\n\r\n").isPrefixOf (lastChunk ++ rest) = true :=
    List.isPrefixOf_iff_prefix.mpr (List.prefix_append _ _)
  rw [findChunkedBodyEnd, ← Search.find_eq_none_iff, show lit "\r\n0\r\n\r\n" = bodyEnd by decide]
  cases hf : Search.find bodyEnd (lastChunk ++ rest) with
  | none =>
      dsimp only
      rw [if_pos hpre]
      exact ⟨fun _ => rfl, fun _ => by decide⟩
  | some pos =>
      have h5 : lastChunk.length = 5 := by decide
      simp only [Option.some.injEq, h5, reduceCtorEq, iff_false]
      omega

theorem findChunkedBodyEnd_chunks (chunks : List (Str × Str)) (hne : chunks ≠ [])
    (hall : ∀ c ∈ chunks, ValidChunk c) (rest : Str) :
    findChunkedBodyEnd (encode chunks ++ lastChunk ++ rest) =
        some (encode chunks ++ lastChunk).length ↔
      ∀ c ∈ chunks, ¬ bodyEnd <:+: crlf ++ c.2 ++ crlf := by
  -- the chunks end with a line end, and with it begins what is searched for
  have hsplit : ∃ body, encode chunks = body ++ crlf := by
    rcases List.eq_nil_or_concat chunks with rfl | ⟨cs, c, rfl⟩
    · exact absurd rfl hne
    · rcases c with ⟨line, data⟩
      refine ⟨ChunkedDecoder.encode cs ++ (line ++ (crlf ++ data)), ?_⟩
      rw [List.concat_eq_append, ChunkedDecoder.encode_append]
      simp only [encode, List.append_assoc, List.append_nil]
  rcases hsplit with ⟨body, hbody⟩
  have htext : encode chunks ++ lastChunk ++ rest = body ++ (bodyEnd ++ rest) := by
    rw [hbody, bodyEnd]
    simp only [List.append_assoc]
  have hlast : body ++ bodyEnd.dropLast = encode chunks ++ lastChunk.dropLast := by
    rw [hbody, bodyEnd, List.dropLast_append_of_ne_nil (by decide), List.append_assoc]
  have hlen : (encode chunks ++ lastChunk).length = body.length + 7 := by
    rw [hbody, List.length_append, List.length_append]
    rfl
  have hiff := Search.find_append_iff bodyEnd body rest (by decide)
  rw [hlast, bodyEnd_infix_iff chunks hall] at hiff
  rw [htext, findChunkedBodyEnd, show lit "\r\n0\r\n\r\n" = bodyEnd by decide, hlen]
  cases hf : Search.find bodyEnd (body ++ (bodyEnd ++ rest)) with
  | none =>
      rw [Search.find_eq_none_iff] at hf
      exact absurd ⟨body, rest, List.append_assoc _ _ _⟩ hf
  | some pos =>
      rw [hf, Option.some.injEq] at hiff
      simp only [Option.some.injEq, Nat.add_right_cancel_iff]
      rw [hiff]
      constructor
      · exact fun h c hc hin => h ⟨c, hc, hin⟩
      · rintro h ⟨c, hc, hin⟩
        exact h c hc hin

/-- A chunked body, with a size line for each chunk that gives its size, is
    delimited and decoded exactly if and only if nothing else looks like its
    end. -/
theorem chunked_delimited_iff (chunks : List (Str × Str)) (rest : Str)
    (hall : ∀ c ∈ chunks, ValidChunk c) (hfit : (encode chunks ++ lastChunk).length < 2 ^ 64) :
    (findChunkedBodyEnd (encode chunks ++ lastChunk ++ rest) =
        some (encode chunks ++ lastChunk).length ∧
      decodeChunkedBody (encode chunks ++ lastChunk) = some (some (payload chunks))) ↔
      FoundAtEnd chunks rest := by
  have hdecode : decodeChunkedBody (encode chunks ++ lastChunk) = some (some (payload chunks)) := by
    rw [List.length_append] at hfit
    have hle := length_le_encode chunks
    have hlast : encode chunks ++ lastChunk = encode chunks ++ (lit "0" ++ (crlf ++ crlf)) := by
      rw [show lastChunk = lit "0" ++ (crlf ++ crlf) by decide]
    rw [decodeChunkedBody, hlast]
    refine decodeChunksFrom_encode (lit "0") crlf (by decide) (by decide) chunks _ 0 hall ?_ ?_
    · rw [List.length_append]
      omega
    · omega
  rw [and_iff_left hdecode, FoundAtEnd]
  by_cases hnil : chunks = []
  · rw [if_pos hnil, hnil]
    exact findChunkedBodyEnd_empty rest
  · rw [if_neg hnil]
    exact findChunkedBodyEnd_chunks chunks hnil hall rest

/-- Two chunks; the second begins and ends like the end of a body. -/
def twoChunks : List (Str × Str) := [(lit "2", lit "ab"), (lit "004", lit "0\r\n\r")]

/-- No chunk of them holds the end of a body between its line breaks: they are
    found, with a request behind them, and decoded. -/
theorem chunked_delimited_iff_two :
    FoundAtEnd twoChunks (lit "GET") ∧
      findChunkedBodyEnd (encode twoChunks ++ lastChunk ++ lit "GET") =
        some (encode twoChunks ++ lastChunk).length ∧
      decodeChunkedBody (encode twoChunks ++ lastChunk) = some (some (payload twoChunks)) := by
  have hiff := chunked_delimited_iff twoChunks (lit "GET") (by decide) (by decide)
  have hfound : FoundAtEnd twoChunks (lit "GET") := by
    rw [FoundAtEnd, if_neg (by decide)]
    decide
  exact ⟨hfound, hiff.mpr hfound⟩

/-- The end of a body within a chunk: it is found there, and what is cut off does
    not decode. -/
theorem chunked_delimited_within :
    ValidChunk (lit "9", lit "a\r\n0\r\n\r\nb") ∧
      findChunkedBodyEnd (encode [(lit "9", lit "a\r\n0\r\n\r\nb")] ++ lastChunk) = some 11 ∧
      (encode [(lit "9", lit "a\r\n0\r\n\r\nb")] ++ lastChunk).length = 19 ∧
      decodeChunkedBody ((encode [(lit "9", lit "a\r\n0\r\n\r\nb")] ++ lastChunk).take 11) =
        some none := by
  decide

end Delimited

end PrivacyClaw
