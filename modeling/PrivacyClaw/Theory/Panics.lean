import PrivacyClaw.Core.Checked
import PrivacyClaw.Lib.Machine
import PrivacyClaw.Theory.ChunkedBodies

/-!
# Panics of the Request Loops

The sizes in a request come from the client. The batch decoder adds a chunk's size
to its position before it compares, and steps over two bytes behind a chunk that
need not be there; the passthrough loop adds the declared length to the length of
the headers.

Those are the only sums and slices of the request loops that can fail. Where a
chunk fits and is followed by two bytes or not complete, the decoder returns, and
where no chunked body that is found and no declared length breaks that rule, the
loops never panic.

## Main definitions

* `ChunksInRange`: A text that the decoder can walk.
* `LengthFits`, `ChunksFit`, `PassInRange`, `PiiInRange`: The conditions on a turn.
* `PassReady`, `PiiReady`: What holds between two turns.

## Theorems

* `inRangeFrom_chunk`: Behind a chunk the rest is to be checked.
* `decodeChunkedBody_returns_iff`: When the decoder returns.
* `Checked.passTurn_eq_none_iff`, `Checked.passTurn_eq_passTurn`: When a turn of the
  passthrough loop panics, and what it does otherwise.
* `Checked.c2uPiiRead_spec`: The same for a read of the PII loop.
* `passStep_spec`, `piiStep_spec`: The steps of the machines.
* `framing_returns_iff`: When the decoder and the loops return.
-/

namespace PrivacyClaw

/-- A text in which every chunk that the decoder gets to fits, and has two bytes
    behind it if its data are there. -/
def ChunksInRange (data : Str) : Prop :=
  ∀ text content line rest n, ChunkedDecoder.Chunks text content →
    data = text ++ (line ++ (crlf ++ rest)) → ¬ crlf <:+: line →
    ChunkedDecoder.chunkSize line = some (n + 1) →
    text.length + (line.length + 2) + (n + 1) < 2 ^ 64 ∧
      (n + 1 ≤ rest.length → n + 1 + 2 ≤ rest.length)

namespace ChunkedDecoder

/-- The same from offset `pos` on. -/
def InRangeFrom (pos : Nat) (data : Str) : Prop :=
  ∀ text content line rest n, Chunks text content → data = text ++ (line ++ (crlf ++ rest)) →
    ¬ crlf <:+: line → chunkSize line = some (n + 1) →
    pos + text.length + (line.length + 2) + (n + 1) < 2 ^ 64 ∧
      (n + 1 ≤ rest.length → n + 1 + 2 ≤ rest.length)

/-- The chunks in front of a line are none, or begin with the first line. -/
theorem chunks_cases {text content line y line' rest : Str} (h : Chunks text content)
    (hline : ¬ crlf <:+: line) (hline' : ¬ crlf <:+: line')
    (he : line ++ (crlf ++ y) = text ++ (line' ++ (crlf ++ rest))) :
    (text = [] ∧ line = line' ∧ y = rest) ∨
      ∃ data trail text' content', ValidChunk (line, data) ∧ trail.length = 2 ∧
        Chunks text' content' ∧ text = line ++ (crlf ++ (data ++ (trail ++ text'))) ∧
        y = data ++ (trail ++ (text' ++ (line' ++ (crlf ++ rest)))) := by
  cases h with
  | nil => exact .inl ⟨rfl, line_cancel hline hline' he⟩
  | cons l data trail text' content' hchunk htrail hrest =>
      have hassoc : l ++ (crlf ++ (data ++ (trail ++ text'))) ++ (line' ++ (crlf ++ rest)) =
          l ++ (crlf ++ (data ++ (trail ++ (text' ++ (line' ++ (crlf ++ rest)))))) := by
        simp only [List.append_assoc]
      rw [hassoc] at he
      rcases line_cancel hline hchunk.1 he with ⟨rfl, hy⟩
      exact .inr ⟨data, trail, text', content', hchunk, htrail, hrest, rfl, hy⟩

/-- Where the first line is no size of a chunk there is no chunk to check. -/
theorem inRangeFrom_of_size {line y : Str} (pos : Nat) (hline : ¬ crlf <:+: line)
    (hsize : ∀ n, chunkSize line ≠ some (n + 1)) : InRangeFrom pos (line ++ (crlf ++ y)) := by
  intro text content line' rest n h he hline' hn
  -- a chunk in front would have this line as its size line
  rcases chunks_cases h hline hline' he with
    ⟨_, rfl, _⟩ | ⟨data, trail, text', content', hchunk, _⟩
  · exact absurd hn (hsize n)
  · cases hlen : data.length with
    | zero => exact absurd (List.length_eq_zero_iff.mp hlen) hchunk.2.2
    | succ k =>
        have hk := hchunk.2.1
        dsimp only at hk
        rw [hlen] at hk
        exact absurd hk (hsize k)

/-- A chunk that is not complete is the only one to check. -/
theorem inRangeFrom_of_short {line y : Str} {pos n : Nat} (hline : ¬ crlf <:+: line)
    (hsize : chunkSize line = some (n + 1)) (hfit : pos + (line.length + 2) + (n + 1) < 2 ^ 64)
    (hshort : y.length < n + 1) : InRangeFrom pos (line ++ (crlf ++ y)) := by
  intro text content line' rest m h he hline' hm
  rcases chunks_cases h hline hline' he with
    ⟨rfl, rfl, rfl⟩ | ⟨data, trail, text', content', hchunk, _, _, _, rfl⟩
  · rw [hsize, Option.some.injEq] at hm
    rw [List.length_nil]
    omega
  · -- a chunk in front would have more data than there are
    have hk := hchunk.2.1
    dsimp only at hk
    rw [hsize, Option.some.injEq] at hk
    rw [List.length_append] at hshort
    omega

/-- Behind a chunk that is there the rest is to be checked. -/
theorem inRangeFrom_chunk {line data trail y : Str} (pos : Nat) (hchunk : ValidChunk (line, data))
    (htrail : trail.length = 2) (hfit : pos + (line.length + 2) + data.length < 2 ^ 64) :
    InRangeFrom pos (line ++ (crlf ++ (data ++ (trail ++ y)))) ↔
      InRangeFrom (pos + (line.length + 2) + (data.length + 2)) y := by
  have hline : ¬ crlf <:+: line := hchunk.1
  constructor
  · intro h text content line' rest n hchunks he hline' hn
    have hall := h _ _ line' rest n (.cons line data trail text content hchunk htrail hchunks)
      (by rw [he]; simp only [List.append_assoc]) hline' hn
    simp only [List.length_append, length_crlf, htrail] at hall
    refine ⟨?_, hall.2⟩
    have h1 := hall.1
    omega
  · intro h text content line' rest n hchunks he hline' hn
    rcases chunks_cases hchunks hline hline' he with
      ⟨rfl, rfl, rfl⟩ | ⟨data', trail', text', content', hchunk', htrail', hrest, rfl, hy⟩
    · -- the chunk that is there is in range
      have hsize := hchunk.2.1
      dsimp only at hsize
      rw [hn, Option.some.injEq] at hsize
      rw [List.length_nil, List.length_append, List.length_append, htrail]
      omega
    · -- the chunk in front is the one that is there
      have hsize := hchunk.2.1
      have hsize' := hchunk'.2.1
      dsimp only at hsize hsize'
      rw [hsize, Option.some.injEq] at hsize'
      rcases List.append_inj hy hsize' with ⟨rfl, hbehind⟩
      rcases List.append_inj hbehind (htrail.trans htrail'.symm) with ⟨rfl, hrest'⟩
      have hall := h text' content' line' rest n hrest hrest' hline' hn
      simp only [List.length_append, length_crlf, htrail]
      refine ⟨?_, hall.2⟩
      have h1 := hall.1
      omega

/-- The batch decoder returns exactly on what it can walk. -/
theorem decodeChunksFrom_returns_iff : ∀ (fuel pos : Nat) (rest : Str), rest.length < fuel →
    (decodeChunksFrom fuel pos rest ≠ none ↔ InRangeFrom pos rest) := by
  intro fuel
  induction fuel with
  | zero => exact fun _ _ hfuel => absurd hfuel (Nat.not_lt_zero _)
  | succ fuel ih =>
      intro pos rest hfuel
      cases hf : Search.find crlf rest with
      | none =>
          -- without a line there is no chunk
          refine iff_of_true ?_ ?_
          · rw [decodeChunksFrom, hf]
            exact Option.some_ne_none _
          · intro text content line y n _ he _ _
            refine absurd ?_ ((Search.find_eq_none_iff _ _).mp hf)
            rw [he]
            exact ⟨text ++ line, y, by simp only [List.append_assoc]⟩
      | some i =>
          rcases Search.find_split crlf rest i (by decide) hf with ⟨line, y, rfl, _, hline⟩
          have hhere : ∀ n, chunkSize line = some (n + 1) → InRangeFrom pos (line ++ (crlf ++ y)) →
              pos + (line.length + 2) + (n + 1) < 2 ^ 64 ∧
                (n + 1 ≤ y.length → n + 1 + 2 ≤ y.length) := fun n hs h =>
            h [] [] line y n .nil rfl hline hs
          rw [decodeChunksFrom_line fuel pos line y hline]
          -- no size, the last chunk, a sum that is too large, a chunk that is not complete,
          -- one without its two bytes, and one that is passed
          rcases decodeRound_cases fuel pos line y hline with
            ⟨hs, he⟩ | ⟨hs, he⟩ | ⟨n, hs, ⟨hbig, he⟩ | ⟨hfit, ⟨hshort, he⟩ | ⟨hdata, hmiss, he⟩ |
              ⟨data, trail, r, hchunk, hlen, htrail, rfl, he⟩⟩⟩
          · rw [he]
            refine iff_of_true (Option.some_ne_none _) (inRangeFrom_of_size pos hline fun n => ?_)
            rw [hs]
            exact (Option.some_ne_none _).symm
          · rw [he]
            refine iff_of_true (Option.some_ne_none _)
              (inRangeFrom_of_size pos hline fun n hn => ?_)
            rw [hs, Option.some.injEq] at hn
            exact absurd hn (Nat.succ_ne_zero n).symm
          · rw [he]
            exact iff_of_false (fun h => h rfl) fun h =>
              absurd (hhere n hs h).1 (Nat.not_lt.mpr hbig)
          · rw [he]
            exact iff_of_true (Option.some_ne_none _) (inRangeFrom_of_short hline hs hfit hshort)
          · rw [he]
            exact iff_of_false (fun h => h rfl) fun h =>
              absurd ((hhere n hs h).2 hdata) (Nat.not_le_of_lt hmiss)
          · -- the rest is shorter, so the fuel lasts
            have hshorter : r.length < fuel := by
              simp only [List.length_append, length_crlf, htrail] at hfuel
              omega
            rw [← hlen] at hfit
            rw [he, Ne, Option.map_eq_none_iff, inRangeFrom_chunk pos hchunk htrail hfit]
            exact ih _ r hshorter

end ChunkedDecoder

/-- The batch decoder returns exactly on what it can walk. -/
theorem decodeChunkedBody_returns_iff (data : Str) :
    decodeChunkedBody data ≠ none ↔ ChunksInRange data := by
  rw [decodeChunkedBody, ChunkedDecoder.decodeChunksFrom_returns_iff _ 0 data (Nat.lt_succ_self _)]
  unfold ChunkedDecoder.InRangeFrom ChunksInRange
  simp only [Nat.zero_add]

/-- The end of the declared body is a number of 64 bits. -/
def LengthFits (st : HttpFramingState) : Prop :=
  ∀ cl, st.contentLength = some cl → st.bodyStart + cl < 2 ^ 64

/-- A chunked body that is complete can be walked. -/
def ChunksFit (raw : Str) (st : HttpFramingState) : Prop :=
  st.contentLength = none → st.isChunked = true → ∀ stop,
    findChunkedBodyEnd (raw.drop st.bodyStart) = some stop →
      ChunksInRange ((raw.drop st.bodyStart).take stop)

/-- The state in which a turn looks for the end of the request. -/
def headersRead (raw : Str) (st : HttpFramingState) : HttpFramingState :=
  if st.headerDone then st
  else match findHeaderEnd raw with
    | some hdrEnd => st.parsed raw hdrEnd
    | none => st

namespace Checked

theorem add_eq {a b : Nat} (h : a + b < 2 ^ 64) : add a b = some (a + b) := if_pos h

theorem sliceFrom_eq {s : Str} {a : Nat} (h : a ≤ s.length) : sliceFrom s a = some (s.drop a) :=
  if_pos h

theorem sliceBytes_eq {s : Str} {a b : Nat} (hab : a ≤ b) (hb : b ≤ s.length) :
    sliceBytes s a b = some ((s.take b).drop a) := if_pos ⟨hab, hb⟩

/-- A slice from the front. -/
theorem sliceBytes_zero {s : Str} {b : Nat} (hb : b ≤ s.length) :
    sliceBytes s 0 b = some (s.take b) := sliceBytes_eq (Nat.zero_le b) hb

/-- A slice in the middle, by its length. -/
theorem sliceBytes_add {s : Str} {a n : Nat} (h : a + n ≤ s.length) :
    sliceBytes s a (a + n) = some ((s.drop a).take n) := by
  rw [sliceBytes_eq (Nat.le_add_right a n) h, List.drop_take, Nat.add_sub_cancel_left]

theorem parsed_eq {raw : Str} {hdrEnd : Nat} (st : HttpFramingState)
    (h : findHeaderEnd raw = some hdrEnd) : parsed raw hdrEnd st = some (st.parsed raw hdrEnd) := by
  rw [parsed, sliceBytes_zero (findHeaderEnd_bounds raw hdrEnd h).2]
  rfl

theorem forwardEagerly_eq (raw : Str) (st : HttpFramingState) :
    forwardEagerly raw st = some (PrivacyClaw.forwardEagerly raw st) := by
  rw [forwardEagerly, PrivacyClaw.forwardEagerly]
  by_cases h : (!st.isChunked && decide (st.forwarded < raw.length)) = true
  · have hlt := of_decide_eq_true (Bool.and_eq_true_iff.mp h).2
    rw [if_pos h, if_pos h, forwardRest, sliceFrom_eq (Nat.le_of_lt hlt)]
    rfl
  · rw [if_neg h, if_neg h]

/-- Where the declared end fits, the end of a request is as in `Core.C2u`. -/
theorem passComplete_eq {raw : Str} {st : HttpFramingState} (hraw : raw.length < 2 ^ 63)
    (hstart : st.bodyStart ≤ raw.length) (hfit : LengthFits st) :
    passComplete raw st = PrivacyClaw.passComplete raw st := by
  rw [passComplete, PrivacyClaw.passComplete]
  cases hcl : st.contentLength with
  | some cl =>
      -- the body for the log and what is left are both within the buffer
      dsimp only
      rw [add_eq (hfit cl hcl), Option.bind_eq_bind, Option.bind_some]
      by_cases hstop : st.bodyStart + cl ≤ raw.length
      · rw [if_pos hstop, if_pos hstop, sliceBytes_add hstop, Option.bind_eq_bind, Option.bind_some,
          sliceFrom_eq hstop]
        rfl
      · rw [if_neg hstop, if_neg hstop]
  | none =>
      dsimp only
      by_cases hch : st.isChunked = true
      · rw [if_pos hch, if_pos hch, sliceFrom_eq hstart, Option.bind_eq_bind, Option.bind_some]
        cases hf : findChunkedBodyEnd (raw.drop st.bodyStart) with
        | none => rfl
        | some n =>
            have hn := findChunkedBodyEnd_le _ n hf
            rw [List.length_drop] at hn
            have hstop : st.bodyStart + n ≤ raw.length := by omega
            dsimp only
            rw [add_eq (by omega), Option.bind_eq_bind, Option.bind_some, sliceBytes_add hstop,
              Option.bind_some]
            -- the two differ in their slices only, which are all there
            cases decodeChunkedBody ((raw.drop st.bodyStart).take n) with
            | none => rfl
            | some decoded =>
                rw [Option.bind_eq_bind, Option.bind_some, Option.bind_some]
                cases decoded with
                | none =>
                    dsimp only
                    rw [sliceBytes_zero hstop, Option.bind_some, sliceFrom_eq hstop]
                    rfl
                | some body =>
                    dsimp only
                    rw [sliceBytes_zero hstart, Option.bind_some, Option.bind_some,
                      sliceFrom_eq hstop]
                    rfl
      · rw [if_neg hch, if_neg hch]

/-- Where it does not, the sum panics. -/
theorem passComplete_overflow {raw : Str} {st : HttpFramingState} (hfit : ¬ LengthFits st) :
    passComplete raw st = none := by
  rcases not_forall.mp hfit with ⟨cl, hcl⟩
  rcases Classical.not_imp.mp hcl with ⟨hcl, hover⟩
  rw [passComplete, hcl]
  dsimp only
  rw [add, if_neg hover]
  rfl

end Checked

/-- The slice that is decoded decides. -/
theorem decode_eq_none_iff {raw : Str} {st : HttpFramingState} {n : Nat}
    (hcl : st.contentLength = none) (hch : st.isChunked = true)
    (hf : findChunkedBodyEnd (raw.drop st.bodyStart) = some n) :
    decodeChunkedBody ((raw.drop st.bodyStart).take n) = none ↔ ¬ ChunksFit raw st := by
  have hfit : ChunksFit raw st ↔ ChunksInRange ((raw.drop st.bodyStart).take n) := by
    constructor
    · exact fun h => h hcl hch n hf
    · intro h _ _ stop hstop
      rw [hf, Option.some.injEq] at hstop
      rw [← hstop]
      exact h
  rw [hfit, ← decodeChunkedBody_returns_iff, not_not]

/-- The end of a request panics where its body cannot be walked. -/
theorem passComplete_eq_none_iff (raw : Str) (st : HttpFramingState) :
    passComplete raw st = none ↔ ¬ ChunksFit raw st := by
  rw [passComplete]
  cases hcl : st.contentLength with
  | some cl =>
      refine iff_of_false ?_ fun h => h fun hnone => ?_
      · dsimp only
        split
        · exact Option.some_ne_none _
        · exact Option.some_ne_none _
      · rw [hcl] at hnone
        exact absurd hnone (Option.some_ne_none cl)
  | none =>
      dsimp only
      by_cases hch : st.isChunked = true
      · rw [if_pos hch]
        cases hf : findChunkedBodyEnd (raw.drop st.bodyStart) with
        | none =>
            refine iff_of_false (Option.some_ne_none _) fun h => h fun _ _ stop hstop => ?_
            rw [hf] at hstop
            exact absurd hstop.symm (Option.some_ne_none stop)
        | some n =>
            rw [← decode_eq_none_iff hcl hch hf]
            dsimp only
            cases decodeChunkedBody ((raw.drop st.bodyStart).take n) with
            | none => exact iff_of_true rfl rfl
            | some decoded => exact iff_of_false (Option.some_ne_none _) (Option.some_ne_none _)
      · rw [if_neg hch]
        exact iff_of_false (Option.some_ne_none _) fun h => h fun _ h' => absurd h' hch

/-- The end of a request starts over or leaves everything as it is. -/
theorem passComplete_cases {raw : Str} {st : HttpFramingState} {w : List Str} {raw' : Str}
    {st' : HttpFramingState} (h : passComplete raw st = some (w, raw', st')) :
    (raw' = raw ∧ st' = st) ∨ (raw'.length ≤ raw.length ∧ st' = {}) := by
  have hdrop : ∀ k, (raw.drop k).length ≤ raw.length := fun k => by
    rw [List.length_drop]
    exact Nat.sub_le _ _
  rw [passComplete] at h
  cases hcl : st.contentLength with
  | some cl =>
      simp only [hcl] at h
      split at h
      · simp only [Option.some.injEq, Prod.mk.injEq] at h
        rw [← h.2.1]
        exact .inr ⟨hdrop _, h.2.2.symm⟩
      · simp only [Option.some.injEq, Prod.mk.injEq] at h
        exact .inl ⟨h.2.1.symm, h.2.2.symm⟩
  | none =>
      simp only [hcl] at h
      split at h
      · split at h
        · rcases Option.bind_eq_some_iff.mp h with ⟨decoded, _, h⟩
          simp only [Option.some.injEq, Prod.mk.injEq] at h
          rw [← h.2.1]
          exact .inr ⟨hdrop _, h.2.2.symm⟩
        · simp only [Option.some.injEq, Prod.mk.injEq] at h
          exact .inl ⟨h.2.1.symm, h.2.2.symm⟩
      · simp only [Option.some.injEq, Prod.mk.injEq] at h
        exact .inl ⟨h.2.1.symm, h.2.2.symm⟩

/-- Forwarding leaves what the end of a request looks at. -/
theorem forwardEagerly_cases (raw : Str) (st : HttpFramingState) :
    (forwardEagerly raw st).2 = st ∨
      (forwardEagerly raw st).2 = { st with forwarded := raw.length } := by
  rw [forwardEagerly]
  split
  · exact .inr rfl
  · exact .inl rfl

theorem forwardEagerly_fits (raw : Str) (st : HttpFramingState) :
    (forwardEagerly raw st).2.bodyStart = st.bodyStart ∧
      (LengthFits (forwardEagerly raw st).2 ↔ LengthFits st) ∧
      (ChunksFit raw (forwardEagerly raw st).2 ↔ ChunksFit raw st) := by
  rcases forwardEagerly_cases raw st with h | h
  · rw [h]
    exact ⟨rfl, Iff.rfl, Iff.rfl⟩
  · rw [h]
    exact ⟨rfl, Iff.rfl, Iff.rfl⟩

/-- What holds of the passthrough loop between two turns. -/
structure PassReady (raw : Str) (st : HttpFramingState) : Prop where
  short : raw.length < 2 ^ 63
  fresh : st.headerDone = false → st = {}
  started : st.headerDone = true → st.bodyStart ≤ raw.length ∧ LengthFits st

/-- A request of which nothing is known has nothing that could fail. -/
theorem fits_default (raw : Str) : LengthFits {} ∧ ChunksFit raw {} :=
  ⟨fun _ h => absurd h.symm (Option.some_ne_none _), fun _ h => absurd h Bool.false_ne_true⟩

theorem headersRead_start {raw : Str} {st : HttpFramingState}
    (hdone : st.headerDone = true → st.bodyStart ≤ raw.length)
    (hfresh : st.headerDone = false → st = {}) :
    (headersRead raw st).bodyStart ≤ raw.length := by
  rw [headersRead]
  cases hd : st.headerDone with
  | true => exact hdone hd
  | false =>
      rw [if_neg Bool.false_ne_true]
      cases hf : findHeaderEnd raw with
      | none =>
          dsimp only
          rw [hfresh hd]
          exact Nat.zero_le _
      | some hdrEnd => exact (findHeaderEnd_bounds raw hdrEnd hf).2

/-- What is forwarded in front of what the end of a request writes. -/
theorem bind_writes (eager : List Str) (o : Option (List Str × Str × HttpFramingState)) :
    (o >>= fun r => some (eager ++ r.1, r.2.1, r.2.2)) = o.map fun r => (eager ++ r.1, r.2) := by
  cases o with
  | none => rfl
  | some r => rfl

/-- What is forwarded once the headers are there leaves nothing to forward. -/
theorem Checked.forwardFirst_eq {raw : Str} {p : HttpFramingState} (hraw : 0 < raw.length)
    (hzero : p.forwarded = 0) (hch : p.isChunked = false) :
    Checked.forwardRest raw p = some (PrivacyClaw.forwardEagerly raw p) ∧
      PrivacyClaw.forwardEagerly raw (PrivacyClaw.forwardEagerly raw p).2 =
        ([], (PrivacyClaw.forwardEagerly raw p).2) := by
  have hfirst : PrivacyClaw.forwardEagerly raw p = ([raw], { p with forwarded := raw.length }) := by
    rw [PrivacyClaw.forwardEagerly, hch, hzero, if_pos (by simpa using hraw), List.drop_zero]
  rw [hfirst]
  constructor
  · rw [Checked.forwardRest, hzero, Checked.sliceFrom_eq (Nat.zero_le _)]
    rfl
  · rw [PrivacyClaw.forwardEagerly, if_neg]
    simp only [Nat.lt_irrefl, decide_false, Bool.and_false, Bool.false_eq_true, not_false_eq_true]

/-- A turn of the passthrough loop: the headers are read, and if they are there, the
    rest is forwarded and the end is looked for. -/
theorem Checked.passTurn_eq {raw : Str} {st : HttpFramingState} (h : PassReady raw st) :
    Checked.passTurn raw st =
      if st.headerDone = false ∧ findHeaderEnd raw = none then some ([], raw, st)
      else (Checked.passComplete raw (PrivacyClaw.forwardEagerly raw (headersRead raw st)).2).map
        fun r => ((PrivacyClaw.forwardEagerly raw (headersRead raw st)).1 ++ r.1, r.2) := by
  rw [Checked.passTurn, headersRead]
  cases hd : st.headerDone with
  | true =>
      -- the headers were read in an earlier turn
      have hno : ¬ (true = false ∧ findHeaderEnd raw = none) := fun hf => absurd hf.1.symm
        Bool.false_ne_true
      rw [if_pos rfl, if_pos rfl, if_neg hno, Checked.forwardEagerly_eq]
      exact bind_writes _ _
  | false =>
      rw [if_neg Bool.false_ne_true, if_neg Bool.false_ne_true]
      cases hf : findHeaderEnd raw with
      | none => rw [if_pos ⟨rfl, rfl⟩]
      | some hdrEnd =>
          have hno : ¬ (false = false ∧ some hdrEnd = none) := fun hf =>
            Option.some_ne_none hdrEnd hf.2
          have hpos : 0 < raw.length := by
            have := findHeaderEnd_bounds raw hdrEnd hf
            omega
          have hzero : (st.parsed raw hdrEnd).forwarded = 0 := by
            rw [h.fresh hd]
            rfl
          rw [if_neg hno]
          dsimp only
          rw [Checked.parsed_eq st hf, Option.bind_eq_bind, Option.bind_some]
          generalize st.parsed raw hdrEnd = p at hzero
          cases hch : p.isChunked with
          | true =>
              rw [if_neg (by decide), Option.bind_eq_bind, Option.bind_some]
              dsimp only
              rw [Checked.forwardEagerly_eq]
              exact bind_writes _ _
          | false =>
              rcases Checked.forwardFirst_eq hpos hzero hch with ⟨hrest, hagain⟩
              rw [if_pos (by decide), hrest, Option.bind_eq_bind, Option.bind_some,
                Checked.forwardEagerly_eq, hagain, Option.bind_some]
              dsimp only
              rw [List.append_nil]
              exact bind_writes _ _

/-- Where the headers are not there yet, nothing is known. -/
theorem headersRead_waiting {raw : Str} {st : HttpFramingState}
    (h : st.headerDone = false ∧ findHeaderEnd raw = none) : headersRead raw st = st := by
  rw [headersRead, if_neg (by rw [h.1]; exact Bool.false_ne_true), h.2]

theorem headersRead_done {raw : Str} {st : HttpFramingState}
    (h : ¬ (st.headerDone = false ∧ findHeaderEnd raw = none)) :
    (headersRead raw st).headerDone = true := by
  rw [headersRead]
  cases hd : st.headerDone with
  | true => exact hd
  | false =>
      rw [if_neg Bool.false_ne_true]
      cases hf : findHeaderEnd raw with
      | none => exact absurd ⟨hd, hf⟩ h
      | some hdrEnd => rfl

section PassTurn

variable {raw : Str} {st : HttpFramingState} (h : PassReady raw st)
include h

/-- A turn panics exactly where the declared end does not fit or the chunked body
    cannot be walked. -/
theorem Checked.passTurn_eq_none_iff : Checked.passTurn raw st = none ↔
    ¬ (LengthFits (headersRead raw st) ∧ ChunksFit raw (headersRead raw st)) := by
  have hfits := forwardEagerly_fits raw (headersRead raw st)
  have hstart := @headersRead_start raw _ (fun hd => (h.started hd).1) h.fresh
  rw [Checked.passTurn_eq h]
  by_cases hwait : st.headerDone = false ∧ findHeaderEnd raw = none
  · rw [if_pos hwait, headersRead_waiting hwait, h.fresh hwait.1]
    exact iff_of_false (Option.some_ne_none _) fun hn => hn (fits_default raw)
  · -- the sum comes first, then the decoder
    rw [if_neg hwait, Option.map_eq_none_iff]
    by_cases hlen : LengthFits (headersRead raw st)
    · rw [Checked.passComplete_eq h.short (hfits.1 ▸ hstart) (hfits.2.1.mpr hlen),
        passComplete_eq_none_iff, hfits.2.2]
      exact ⟨fun hn hc => hn hc.2, fun hn hc => hn ⟨hlen, hc⟩⟩
    · rw [Checked.passComplete_overflow fun hc => hlen (hfits.2.1.mp hc)]
      exact iff_of_true rfl fun hc => hlen hc.1

/-- A turn that returns does what `Core.C2u` says. -/
theorem Checked.passTurn_eq_passTurn (hlen : LengthFits (headersRead raw st)) :
    Checked.passTurn raw st = PrivacyClaw.passTurn raw st := by
  have hfits := forwardEagerly_fits raw (headersRead raw st)
  have hstart := @headersRead_start raw _ (fun hd => (h.started hd).1) h.fresh
  rw [Checked.passTurn_eq h, PrivacyClaw.passTurn]
  by_cases hwait : st.headerDone = false ∧ findHeaderEnd raw = none
  · rw [if_pos hwait, hwait.1, hwait.2]
    rfl
  · rw [if_neg hwait, Checked.passComplete_eq h.short (hfits.1 ▸ hstart) (hfits.2.1.mpr hlen),
      headersRead]
    cases hd : st.headerDone with
    | true =>
        rw [if_pos rfl, if_pos rfl]
        exact (bind_writes _ _).symm
    | false =>
        rw [if_neg Bool.false_ne_true, if_neg Bool.false_ne_true]
        cases hf : findHeaderEnd raw with
        | none => exact absurd ⟨hd, hf⟩ hwait
        | some hdrEnd => exact (bind_writes _ _).symm

/-- A turn that returns leaves the loop ready for the next one. -/
theorem PassReady.passTurn {w : List Str} {raw' : Str} {st' : HttpFramingState}
    (hturn : Checked.passTurn raw st = some (w, raw', st')) : PassReady raw' st' := by
  have hfits := forwardEagerly_fits raw (headersRead raw st)
  have hstart := @headersRead_start raw _ (fun hd => (h.started hd).1) h.fresh
  rw [Checked.passTurn_eq h] at hturn
  by_cases hwait : st.headerDone = false ∧ findHeaderEnd raw = none
  · rw [if_pos hwait, Option.some.injEq, Prod.mk.injEq, Prod.mk.injEq] at hturn
    rw [← hturn.2.1, ← hturn.2.2]
    exact h
  · rw [if_neg hwait] at hturn
    rcases Option.map_eq_some_iff.mp hturn with ⟨⟨w0, raw0, st0⟩, hcomplete, he⟩
    simp only [Prod.mk.injEq] at he
    rw [← he.2.1, ← he.2.2]
    by_cases hlen : LengthFits (headersRead raw st)
    · rw [Checked.passComplete_eq h.short (hfits.1 ▸ hstart) (hfits.2.1.mpr hlen)] at hcomplete
      -- the request is not complete, or the loop starts over
      rcases passComplete_cases hcomplete with ⟨rfl, rfl⟩ | ⟨hle, rfl⟩
      · have hdone : (forwardEagerly raw0 (headersRead raw0 st)).2.headerDone = true := by
          rcases forwardEagerly_cases raw0 (headersRead raw0 st) with hf | hf
          · rw [hf]
            exact headersRead_done hwait
          · rw [hf]
            exact headersRead_done hwait
        refine ⟨h.short, fun hd => ?_, fun _ => ⟨hfits.1 ▸ hstart, hfits.2.1.mpr hlen⟩⟩
        rw [hdone] at hd
        exact absurd hd.symm Bool.false_ne_true
      · exact ⟨Nat.lt_of_le_of_lt hle h.short, fun _ => rfl, fun hd => absurd hd Bool.false_ne_true⟩
    · rw [Checked.passComplete_overflow fun hc => hlen (hfits.2.1.mp hc)] at hcomplete
      exact absurd hcomplete.symm (Option.some_ne_none _)

end PassTurn

/-- A loop that has not panicked. -/
def LoopState.NotPanicked (s : LoopState) : Prop := s ≠ .panicked

instance (s : LoopState) : Decidable s.NotPanicked := inferInstanceAs (Decidable (¬ _))

/-- What is asked of a turn of the passthrough loop. -/
def PassInRange : LoopState → PassEvent → Prop
  | .running raw st, .read chunk => LengthFits (headersRead (raw ++ chunk) st) ∧
      ChunksFit (raw ++ chunk) (headersRead (raw ++ chunk) st)
  | .running raw st, .turn => LengthFits (headersRead raw st) ∧ ChunksFit raw (headersRead raw st)
  | _, _ => True

/-- The invariant of the passthrough loop. -/
def LoopState.PassReady : LoopState → Prop
  | .running raw st => PrivacyClaw.PassReady raw st
  | _ => True

/-- A read leaves the loop ready. -/
theorem PassReady.read {raw : Str} {st : HttpFramingState} (h : PassReady raw st) (chunk : Str)
    (hread : CanRead raw chunk) : PassReady (raw ++ chunk) st where
  short := hread.2
  fresh := h.fresh
  started hd := by
    rw [List.length_append]
    exact ⟨Nat.le_trans (h.started hd).1 (Nat.le_add_right _ _), (h.started hd).2⟩

/-- The sums and slices in front of a turn are in range. -/
theorem Checked.needsMore_ne_none {raw : Str} {st : HttpFramingState} (h : PassReady raw st) :
    Checked.needsMore raw st ≠ none := by
  rw [Checked.needsMore]
  cases hd : st.headerDone with
  | false => exact Option.some_ne_none _
  | true =>
      rw [if_neg (by decide)]
      cases hcl : st.contentLength with
      | some cl =>
          dsimp only
          rw [Checked.add_eq ((h.started hd).2 cl hcl)]
          exact Option.some_ne_none _
      | none =>
          dsimp only
          split
          · rw [Checked.sliceFrom_eq (h.started hd).1]
            exact Option.some_ne_none _
          · exact Option.some_ne_none _

/-- The slice behind the loop is in range. -/
theorem Checked.passEof_ne_none {raw : Str} {st : HttpFramingState} (h : PassReady raw st) :
    Checked.passEof raw st ≠ none := by
  rw [Checked.passEof]
  split
  · next hd =>
      rw [Bool.and_eq_true, Bool.and_eq_true] at hd
      rw [Checked.sliceFrom_eq (h.started hd.1.1).1]
      exact Option.some_ne_none _
  · exact Option.some_ne_none _

/-- A turn that panics exactly without `P`, as the machine sees it. -/
theorem LoopState.after_spec {α : Type} {o : Option (α × Str × HttpFramingState)}
    {Inv : LoopState → Prop} {P : Prop} (hpanic : Inv .panicked)
    (hrun : ∀ a raw st, o = some (a, raw, st) → Inv (.running raw st)) (hnone : o = none ↔ ¬ P) :
    Inv (after o) ∧ ((after o).NotPanicked ↔ P) := by
  cases o with
  | none => exact ⟨hpanic, iff_of_false (fun hn => hn rfl) (hnone.mp rfl)⟩
  | some r =>
      refine ⟨hrun r.1 r.2.1 r.2.2 rfl, iff_of_true LoopState.noConfusion ?_⟩
      by_contra hn
      exact Option.some_ne_none _ (hnone.mpr hn)

theorem after_passTurn {raw : Str} {st : HttpFramingState} (h : PassReady raw st) :
    (LoopState.after (Checked.passTurn raw st)).PassReady ∧
      ((LoopState.after (Checked.passTurn raw st)).NotPanicked ↔
        LengthFits (headersRead raw st) ∧ ChunksFit raw (headersRead raw st)) :=
  @LoopState.after_spec _ _ LoopState.PassReady _ trivial (fun _ _ _ => h.passTurn)
    (Checked.passTurn_eq_none_iff h)

/-- A step of the passthrough loop keeps the invariant, and panics exactly where
    its turn is out of range. -/
theorem passStep_spec (s : LoopState) (e : PassEvent) (s' : LoopState) (hs : s.PassReady)
    (hstep : passStep e s = some s') : s'.PassReady ∧ (s'.NotPanicked ↔ PassInRange s e) := by
  cases s with
  | finished => exact absurd hstep.symm (Option.some_ne_none _)
  | panicked => exact absurd hstep.symm (Option.some_ne_none _)
  | running raw st =>
      unfold passStep at hstep
      dsimp only at hstep
      -- a read and the end of the stream where more is needed, a turn where not
      cases hmore : Checked.needsMore raw st with
      | none => exact absurd hmore (Checked.needsMore_ne_none hs)
      | some more =>
          rw [hmore] at hstep
          cases e with
          | read chunk =>
              cases more with
              | false => exact absurd hstep.symm (Option.some_ne_none _)
              | true =>
                  dsimp only at hstep
                  rcases Option.ite_none_right_eq_some.mp hstep with ⟨hread, he⟩
                  rw [← Option.some.inj he]
                  exact after_passTurn (hs.read chunk hread)
          | turn =>
              cases more with
              | true => exact absurd hstep.symm (Option.some_ne_none _)
              | false =>
                  rw [← Option.some.inj hstep]
                  exact after_passTurn hs
          | eof =>
              cases more with
              | false => exact absurd hstep.symm (Option.some_ne_none _)
              | true =>
                  dsimp only at hstep
                  cases heof : Checked.passEof raw st with
                  | none => exact absurd heof (Checked.passEof_ne_none hs)
                  | some body =>
                      rw [heof] at hstep
                      rw [← Option.some.inj hstep]
                      exact ⟨trivial, iff_of_true (by decide) trivial⟩

/-- What holds of the PII loop between two reads. -/
structure PiiReady (raw : Str) (st : HttpFramingState) : Prop where
  short : raw.length < 2 ^ 63
  fresh : st.headerDone = false → st = {}
  started : st.headerDone = true → st.bodyStart ≤ raw.length ∧
    st.bodyReceived = raw.length - st.bodyStart ∧ (st.isChunked = true → st.contentLength = none)

/-- The state of the PII loop behind a read: the headers are read, and what is
    behind them is counted. -/
theorem Checked.piiReceived_eq {raw chunk : Str} {st : HttpFramingState} (h : PiiReady raw st)
    (hread : CanRead raw chunk) : ∃ st', Checked.piiReceived chunk (raw ++ chunk) st = some st' ∧
      PrivacyClaw.piiReceived chunk (raw ++ chunk) st = st' ∧ PiiReady (raw ++ chunk) st' ∧
      (ChunksFit (raw ++ chunk) st' ↔
        ChunksFit (raw ++ chunk) (headersRead (raw ++ chunk) st)) := by
  have hlen : (raw ++ chunk).length = raw.length + chunk.length := List.length_append
  have hshort := hread.2
  rw [Checked.piiReceived, PrivacyClaw.piiReceived, headersRead]
  cases hd : st.headerDone with
  | true =>
      rcases h.started hd with ⟨hstart, hcount, hch⟩
      -- what was received is never more than the buffer
      rw [if_pos rfl, if_pos rfl, if_pos rfl, Checked.add_eq (by omega)]
      refine ⟨_, rfl, rfl, ⟨hshort, fun hf => ?_, fun _ => ⟨?_, ?_, hch⟩⟩, Iff.rfl⟩
      · exact absurd hf.symm Bool.false_ne_true
      · dsimp only
        omega
      · dsimp only
        omega
  | false =>
      rw [if_neg Bool.false_ne_true, if_neg Bool.false_ne_true, if_neg Bool.false_ne_true]
      cases hf : findHeaderEnd (raw ++ chunk) with
      | none =>
          refine ⟨st, rfl, rfl, ⟨hshort, h.fresh, fun ht => ?_⟩, Iff.rfl⟩
          exact absurd (hd.symm.trans ht) Bool.false_ne_true
      | some hdrEnd =>
          have hle := (findHeaderEnd_bounds _ hdrEnd hf).2
          have hsub : Checked.sub (raw ++ chunk).length
              (st.parsed (raw ++ chunk) hdrEnd).bodyStart = some ((raw ++ chunk).length - hdrEnd) :=
            if_pos hle
          dsimp only
          rw [Checked.parsed_eq st hf, Option.bind_eq_bind, Option.bind_some, hsub]
          refine ⟨_, rfl, rfl, ⟨hshort, fun hf => absurd hf.symm Bool.false_ne_true, fun _ =>
            ⟨hle, rfl, fun hch => ?_⟩⟩, Iff.rfl⟩
          exact Option.isNone_iff_eq_none.mp (Bool.and_eq_true_iff.mp hch).1

section PiiTurn

variable {raw : Str} {st : HttpFramingState} (h : PiiReady raw st)
include h

theorem Checked.bodyDone_eq : Checked.bodyDone raw st = some (PrivacyClaw.bodyDone raw st) := by
  rw [Checked.bodyDone, PrivacyClaw.bodyDone]
  cases hd : st.headerDone with
  | false => rfl
  | true =>
      rw [if_pos rfl, Bool.true_and]
      cases st.contentLength with
      | some cl => rfl
      | none =>
          have hstart := (h.started hd).1
          dsimp only
          by_cases hch : st.isChunked = true
          · rw [if_pos hch, if_pos hch, Checked.sliceFrom_eq hstart, Option.bind_eq_bind,
              Option.bind_some, Checked.sub, if_pos hstart]
            rfl
          · rw [if_neg hch, if_neg hch]

/-- A body that is not complete has nothing that could fail. -/
theorem chunksFit_of_not_done (hdone : bodyDone raw st = false) : ChunksFit raw st := by
  intro hcl hch stop hstop
  rw [bodyDone, hcl] at hdone
  dsimp only at hdone
  rw [if_pos hch, hstop, Option.isSome_some, Bool.and_true] at hdone
  have hst := h.fresh hdone
  rw [hst] at hch
  exact absurd hch Bool.false_ne_true

/-- The request that is complete is there, and its body is decoded where it can be
    walked. -/
theorem Checked.takeRequest_spec (hdone : PrivacyClaw.bodyDone raw st = true) :
    Checked.takeRequest raw st = PrivacyClaw.takeRequest raw st ∧
      (PrivacyClaw.takeRequest raw st = none ↔ ¬ ChunksFit raw st) := by
  rw [PrivacyClaw.bodyDone, Bool.and_eq_true] at hdone
  rcases h.started hdone.1 with ⟨hstart, hcount, hnone⟩
  have hshort := h.short
  rw [Checked.takeRequest, PrivacyClaw.takeRequest]
  simp only [Option.bind_eq_bind]
  by_cases hch : st.isChunked = true
  · -- where the end was found for the test, it is found again
    have hcl := hnone hch
    have hfound := hdone.2
    rw [hcl] at hfound
    dsimp only at hfound
    rw [if_pos hch] at hfound
    rcases Option.isSome_iff_exists.mp hfound with ⟨n, hn⟩
    have hle := findChunkedBodyEnd_le _ n hn
    rw [List.length_drop] at hle
    have hstop : st.bodyStart + n ≤ raw.length := by omega
    rw [if_pos hch, if_pos hch, Checked.sliceFrom_eq hstart, Option.bind_some, hn,
      Option.bind_some, Checked.add_eq (by omega), Option.bind_some,
      Checked.sliceBytes_add hstop, Option.bind_some, Option.bind_some,
      Checked.sliceBytes_zero hstart]
    refine ⟨rfl, ?_⟩
    rw [← decode_eq_none_iff hcl hch hn]
    cases decodeChunkedBody ((raw.drop st.bodyStart).take n) with
    | none => exact iff_of_true rfl rfl
    | some decoded => exact iff_of_false (Option.some_ne_none _) (Option.some_ne_none _)
  · -- the declared length is at most what was received, which is what is there
    have hle : st.bodyStart + st.contentLength.getD st.bodyReceived ≤ raw.length := by
      have hdone := hdone.2
      cases hcl : st.contentLength with
      | none =>
          rw [Option.getD_none]
          omega
      | some cl =>
          rw [hcl] at hdone
          have := of_decide_eq_true hdone
          rw [Option.getD_some]
          omega
    rw [if_neg hch, if_neg hch, Checked.add_eq (by omega), Option.bind_some,
      Checked.sliceBytes_add hle, Option.bind_some, Checked.sliceBytes_zero hstart]
    refine ⟨rfl, iff_of_false (Option.some_ne_none _) fun hn => hn fun _ h' => absurd h' hch⟩

end PiiTurn

section PiiRead

variable {raw chunk : Str} {st : HttpFramingState} (h : PiiReady raw st)
  (hread : CanRead raw chunk)
include h hread

/-- A read of the PII loop is as in `Core.C2u`: it panics where the body that it
    completes cannot be walked, and leaves the loop ready where it returns. -/
theorem Checked.c2uPiiRead_spec :
    Checked.c2uPiiRead chunk raw st = PrivacyClaw.c2uPiiRead chunk raw st ∧
      (PrivacyClaw.c2uPiiRead chunk raw st = none ↔
        ¬ ChunksFit (raw ++ chunk) (headersRead (raw ++ chunk) st)) ∧
      ∀ taken raw' st', PrivacyClaw.c2uPiiRead chunk raw st = some (taken, raw', st') →
        PiiReady raw' st' := by
  rcases Checked.piiReceived_eq h hread with ⟨st1, hchecked, hplain, hready, hfit⟩
  rw [← hfit, Checked.c2uPiiRead, PrivacyClaw.c2uPiiRead, hchecked]
  simp only [Option.bind_eq_bind]
  rw [Option.bind_some, Checked.bodyDone_eq hready, Option.bind_some, hplain]
  cases hdone : PrivacyClaw.bodyDone (raw ++ chunk) st1 with
  | false =>
      rw [if_neg Bool.false_ne_true, if_neg Bool.false_ne_true]
      refine ⟨rfl, iff_of_false (Option.some_ne_none _)
        fun hn => hn (chunksFit_of_not_done hready hdone), ?_⟩
      intro taken raw' st' hsome
      simp only [Option.some.injEq, Prod.mk.injEq] at hsome
      rw [← hsome.2.1, ← hsome.2.2]
      exact hready
  | true =>
      have htake := Checked.takeRequest_spec hready hdone
      rw [if_pos rfl, if_pos rfl, htake.1, ← htake.2]
      cases ht : PrivacyClaw.takeRequest (raw ++ chunk) st1 with
      | none =>
          refine ⟨rfl, iff_of_true rfl rfl, fun _ _ _ hsome => ?_⟩
          exact absurd hsome.symm (Option.some_ne_none _)
      | some taken =>
          -- the loop starts over with what is behind the request
          rw [Option.bind_some, Checked.sliceFrom_eq (Nat.min_le_right _ _)]
          refine ⟨rfl, iff_of_false (Option.some_ne_none _) (Option.some_ne_none _), ?_⟩
          intro taken' raw' st' hsome
          simp only [Option.bind_some, Option.some.injEq, Prod.mk.injEq] at hsome
          rw [← hsome.2.1, ← hsome.2.2]
          refine ⟨?_, fun _ => rfl, fun hd => absurd hd Bool.false_ne_true⟩
          rw [List.length_drop]
          exact Nat.lt_of_le_of_lt (Nat.sub_le _ _) hready.short

end PiiRead

/-- What is asked of a read of the PII loop. -/
def PiiInRange : LoopState → Str → Prop
  | .running raw st, chunk => ChunksFit (raw ++ chunk) (headersRead (raw ++ chunk) st)
  | _, _ => True

/-- The invariant of the PII loop. -/
def LoopState.PiiReady : LoopState → Prop
  | .running raw st => PrivacyClaw.PiiReady raw st
  | _ => True

/-- A step of the PII loop keeps the invariant, and panics exactly where the read
    is out of range. -/
theorem piiStep_spec (s : LoopState) (chunk : Str) (s' : LoopState) (hs : s.PiiReady)
    (hstep : piiStep chunk s = some s') : s'.PiiReady ∧ (s'.NotPanicked ↔ PiiInRange s chunk) := by
  cases s with
  | finished => exact absurd hstep.symm (Option.some_ne_none _)
  | panicked => exact absurd hstep.symm (Option.some_ne_none _)
  | running raw st =>
      rw [piiStep] at hstep
      rcases Option.ite_none_right_eq_some.mp hstep with ⟨hread, he⟩
      rcases Checked.c2uPiiRead_spec hs hread with ⟨heq, hnone, hready⟩
      rw [← Option.some.inj he, heq]
      exact @LoopState.after_spec _ _ LoopState.PiiReady _ trivial hready hnone

/-- The decoder returns exactly where every chunk is in range; and in every run of
    a request loop, nothing panics exactly if every turn is in range. -/
theorem framing_returns_iff (data : Str) (events : List PassEvent) (reads : List Str)
    (s t : LoopState) (hevents : Machine.run passStep events .start = some s)
    (hreads : Machine.run piiStep reads .start = some t) :
    (decodeChunkedBody data ≠ none ↔ ChunksInRange data) ∧
      (Machine.Always passStep LoopState.NotPanicked events .start ↔
        Machine.Along passStep PassInRange events .start) ∧
      (Machine.Always piiStep LoopState.NotPanicked reads .start ↔
        Machine.Along piiStep PiiInRange reads .start) := by
  refine ⟨decodeChunkedBody_returns_iff data, ?_, ?_⟩
  · refine Machine.always_iff_along_of_run LoopState.PassReady _
      (fun s e s' hs hstep => (passStep_spec s e s' hs hstep).1)
      (fun s e s' hs _ hstep => (passStep_spec s e s' hs hstep).2) events _ s ?_ ?_ hevents
    · exact ⟨by decide, fun _ => rfl, fun hd => absurd hd Bool.false_ne_true⟩
    · exact LoopState.noConfusion
  · refine Machine.always_iff_along_of_run LoopState.PiiReady _
      (fun s e s' hs hstep => (piiStep_spec s e s' hs hstep).1)
      (fun s e s' hs _ hstep => (piiStep_spec s e s' hs hstep).2) reads _ t ?_ ?_ hreads
    · exact ⟨by decide, fun _ => rfl, fun hd => absurd hd Bool.false_ne_true⟩
    · exact LoopState.noConfusion

/-- A chunked body in two chunks, and a request that declares two bytes: everything
    is in range, and nothing panics. -/
theorem framing_returns_iff_two :
    (ChunksInRange (lit "1\r\na\r\n0\r\n\r\n") ∧
      decodeChunkedBody (lit "1\r\na\r\n0\r\n\r\n") ≠ none) ∧
      (Machine.Along passStep PassInRange
          [.read (lit "POST / HTTP/1.1\r\nContent-Length: 2\r\n\r\nhi"), .eof] .start ∧
        Machine.Always passStep LoopState.NotPanicked
          [.read (lit "POST / HTTP/1.1\r\nContent-Length: 2\r\n\r\nhi"), .eof] .start) ∧
      (Machine.Along piiStep PiiInRange
          [lit "POST / HTTP/1.1\r\nContent-Length: 2\r\n\r\nhi"] .start ∧
        Machine.Always piiStep LoopState.NotPanicked
          [lit "POST / HTTP/1.1\r\nContent-Length: 2\r\n\r\nhi"] .start) := by
  have hall := framing_returns_iff (lit "1\r\na\r\n0\r\n\r\n")
    [.read (lit "POST / HTTP/1.1\r\nContent-Length: 2\r\n\r\nhi"), .eof]
    [lit "POST / HTTP/1.1\r\nContent-Length: 2\r\n\r\nhi"]
    .finished (.running [] {}) (by decide) (by decide)
  have hdecode : decodeChunkedBody (lit "1\r\na\r\n0\r\n\r\n") ≠ none := by decide
  have hpass : Machine.Always passStep LoopState.NotPanicked
      [.read (lit "POST / HTTP/1.1\r\nContent-Length: 2\r\n\r\nhi"), .eof] .start := by decide
  have hpii : Machine.Always piiStep LoopState.NotPanicked
      [lit "POST / HTTP/1.1\r\nContent-Length: 2\r\n\r\nhi"] .start := by decide
  exact ⟨⟨hall.1.mp hdecode, hdecode⟩, ⟨hall.2.1.mp hpass, hpass⟩, hall.2.2.mp hpii, hpii⟩

/-- A chunk without its line break, a declared length at the top of the range, and a
    chunk that is longer than what is behind it. -/
theorem framing_panics :
    decodeChunkedBody (lit "1\r\na") = none ∧
      Machine.run passStep
        [.read (lit "POST / HTTP/1.1\r\nContent-Length: 18446744073709551615\r\n\r\nhi")]
        .start = some .panicked ∧
      Machine.run piiStep
        [lit "POST / HTTP/1.1\r\nTransfer-Encoding: chunked\r\n\r\n9\r\nab\r\n0\r\n\r\n"]
        .start = some .panicked := by
  decide

end PrivacyClaw
