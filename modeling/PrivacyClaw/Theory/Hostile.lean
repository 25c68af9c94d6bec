import PrivacyClaw.Theory.Exclusion

/-!
# Stage 1 on an Arbitrary Reply

What Stage 1 does with whatever the sidecar sends.

The loop works from right to left and skips a span that is inverted or ends
behind the text. It compares the end with the text as rewritten so far, and it
slices that text without asking whether the offsets stand between characters.
Both are harmless as long as every span it accepts lies in the part of the
text that no token has touched yet: there the offsets of the old text are
still good. `Orderly` follows the loop and asks for exactly this, with the
length of the rewritten text as the only thing it has to remember.

`stage1_splices_iff` says that nothing less will do. A reply that is not
orderly makes the loop panic, or makes it cut into a token that it has written
itself and record a piece of that token as the user's text.

## Main definitions

* `writtenEdit`: The edit of the text that a recorded tuple stands for.
* `Splices`: The text with the recorded spans exchanged for their tokens.
* `Exchanged`: The text with some disjoint spans exchanged for tokens.
* `Orderly`: Every span the loop accepts lies before the tokens it has written,
  between two characters.

## Theorems

* `isCharBoundary_seam_iff`: Boundaries of the untouched part.
* `substitute_ordered_iff`: The loop returns disjoint spans exactly on an orderly
  rest.
* `substitute_woven`: Disjoint spans are exchanged and nothing else.
* `Splices.exchanged`: What Stage 1 splices is the text but for the tokens.
* `stage1_splices_iff`: When Stage 1 splices.
* `stage1_breaks`: A span inside a character, and two that overlap.
-/

namespace PrivacyClaw

variable (h : Hashes) (convId : Str) (baseIndex : Nat) (sorted : List ReplaceReplacement)

/-- A recorded tuple as an edit: where its text stood, and the token for it. -/
def writtenEdit (s : Stage1Span) : Splice.Edit UInt8 :=
  ⟨s.start, s.start + s.originalText.length,
    stage1Token h convId baseIndex sorted ⟨s.start, s.stop, s.displayValue, s.piiType⟩⟩

/-- The recorded spans are disjoint spans of the text, and the output is the
    text with a token in the place of each. -/
structure Splices (text out : Str) (spans : List Stage1Span) : Prop where
  disjoint : Splice.Ordered 0 text.length
    (spans.reverse.map (writtenEdit h convId baseIndex sorted))
  woven : out = Splice.weave text 0 text.length
    (spans.reverse.map (writtenEdit h convId baseIndex sorted))

/-- The output is the text with some disjoint spans of it exchanged, each for
    one token of the reply. -/
def Exchanged (text out : Str) : Prop :=
  ∃ edits : List (Splice.Edit UInt8), Splice.Ordered 0 text.length edits ∧
    (∀ e ∈ edits, ∃ r ∈ sorted, e.new = stage1Token h convId baseIndex sorted r) ∧
    out = Splice.weave text 0 text.length edits

/-- The spans from right to left, when `limit` is where the first token
    written so far starts and `len` is the length of the rewritten text. -/
def Orderly (text : Str) : Nat → Nat → List ReplaceReplacement → Prop
  | _, _, [] => True
  | limit, len, r :: rest =>
    if r.stop < r.start ∨ len < r.stop then Orderly text limit len rest
    else r.stop ≤ limit ∧ isCharBoundary text r.start ∧ isCharBoundary text r.stop ∧
      Orderly text r.start
        (len - (r.stop - r.start) + (stage1Token h convId baseIndex sorted r).length) rest

instance decidableOrderly (text : Str) : ∀ (limit len : Nat) (rs : List ReplaceReplacement),
    Decidable (Orderly h convId baseIndex sorted text limit len rs)
  | _, _, [] => isTrue trivial
  | limit, len, r :: rest =>
    if hskip : r.stop < r.start ∨ len < r.stop then
      have := decidableOrderly text limit len rest
      decidable_of_iff (Orderly h convId baseIndex sorted text limit len rest)
        (by simp only [Orderly, if_pos hskip])
    else
      have := decidableOrderly text r.start
        (len - (r.stop - r.start) + (stage1Token h convId baseIndex sorted r).length) rest
      decidable_of_iff (r.stop ≤ limit ∧ isCharBoundary text r.start ∧
          isCharBoundary text r.stop ∧ Orderly h convId baseIndex sorted text r.start
            (len - (r.stop - r.start) + (stage1Token h convId baseIndex sorted r).length) rest)
        (by simp only [Orderly, if_neg hskip])

/-- Up to a seam that is a boundary, the boundaries are those of the text. -/
theorem isCharBoundary_seam_iff (text tail : Str) (hi i : Nat) (hhi : hi ≤ text.length)
    (hi' : i ≤ hi) (hseam : Seam tail) (hb : isCharBoundary text hi) :
    isCharBoundary (text.take hi ++ tail) i ↔ isCharBoundary text i := by
  constructor
  · intro hcut
    rcases Nat.lt_or_eq_of_le hi' with hlt | rfl
    · have hlen : (text.take hi).length = hi := by rw [List.length_take]; omega
      rw [isCharBoundary_append_left _ _ _ (by omega)] at hcut
      rw [← List.take_append_drop hi text, isCharBoundary_append_left _ _ _ (by omega)]
      exact hcut
    · exact hb
  · exact isCharBoundary_seam text tail hi i hhi hi' hseam

/-- The text after a span has been exchanged. -/
theorem length_apply (e : Splice.Edit UInt8) (t : Str) (hle : e.start ≤ e.stop)
    (hstop : e.stop ≤ t.length) :
    (e.apply t).length = t.length - (e.stop - e.start) + e.new.length := by
  unfold Splice.Edit.apply
  simp only [List.length_append, List.length_take, List.length_drop]
  omega

/-- A span of the untouched part is recorded with its own text, which stands
    there for the edit. -/
theorem writtenEdit_recordedSpan (t : Str) (r : ReplaceReplacement) (hle : r.start ≤ r.stop)
    (hstop : r.stop ≤ t.length) :
    writtenEdit h convId baseIndex sorted
        (recordedSpan (stage1Token h convId baseIndex sorted) t r) =
      tokenEdit (stage1Token h convId baseIndex sorted) r := by
  have hlen : r.start + (spanText t r).length = r.stop := by
    rw [spanText, Splice.length_gap t r.start r.stop hstop]
    omega
  simp only [writtenEdit, recordedSpan, tokenEdit, hlen, stage1Token]

/-- The loop returns with disjoint spans before the first token exactly when
    the rest is orderly. -/
theorem substitute_ordered_iff (text : Str) : ∀ (rs : List ReplaceReplacement) (hi : Nat)
    (tail : Str), hi ≤ text.length → Seam tail → isCharBoundary text hi →
    ((∃ out spans, substitute h convId baseIndex sorted rs (text.take hi ++ tail) =
        some (out, spans) ∧
      Splice.Ordered 0 hi (spans.reverse.map (writtenEdit h convId baseIndex sorted))) ↔
      Orderly h convId baseIndex sorted text hi (text.take hi ++ tail).length rs) := by
  intro rs
  induction rs with
  | nil =>
      intro hi tail _ _ _
      simp only [Orderly, iff_true]
      exact ⟨_, _, rfl, Nat.zero_le _⟩
  | cons r rest ih =>
      intro hi tail hhi hseam hbhi
      simp only [substitute_cons_iff, Orderly]
      by_cases hskip : r.stop < r.start ∨ (text.take hi ++ tail).length < r.stop
      · simp only [if_pos hskip]
        exact ih hi tail hhi hseam hbhi
      · simp only [if_neg hskip]
        have hle : r.start ≤ r.stop := by omega
        have hlen : r.stop ≤ (text.take hi ++ tail).length := by omega
        have hedit := writtenEdit_recordedSpan h convId baseIndex sorted (text.take hi ++ tail) r
          hle hlen
        have hgrown := length_apply (tokenEdit (stage1Token h convId baseIndex sorted) r)
          (text.take hi ++ tail) hle hlen
        change _ = _ - (r.stop - r.start) + (stage1Token h convId baseIndex sorted r).length
          at hgrown
        rw [← hgrown]
        -- while the span lies before the seam, the loop goes on with a seam further left
        have hnext : r.stop ≤ hi → isCharBoundary text r.start →
            ((∃ out later, substitute h convId baseIndex sorted rest
                ((tokenEdit (stage1Token h convId baseIndex sorted) r).apply
                  (text.take hi ++ tail)) = some (out, later) ∧
              Splice.Ordered 0 r.start
                (later.reverse.map (writtenEdit h convId baseIndex sorted))) ↔
              Orderly h convId baseIndex sorted text r.start
                ((tokenEdit (stage1Token h convId baseIndex sorted) r).apply
                  (text.take hi ++ tail)).length rest) := by
          intro hstop hb
          rw [(tokenEdit (stage1Token h convId baseIndex sorted) r).apply_take_append text tail hi
            hhi hle hstop]
          exact ih r.start _ (Nat.le_trans hle (Nat.le_trans hstop hhi))
            (seam_token h convId baseIndex sorted r _) hb
        constructor
        · rintro ⟨out, spans, ⟨hb1, hb2, later, rfl, hrun⟩, hord⟩
          rw [List.reverse_cons, List.map_append, List.map_singleton, hedit,
            Splice.ordered_append_singleton] at hord
          rcases hord with ⟨hord, _, hstop⟩
          change r.stop ≤ hi at hstop
          have hb1' := (isCharBoundary_seam_iff text tail hi r.start hhi (by omega) hseam
            hbhi).mp hb1
          have hb2' := (isCharBoundary_seam_iff text tail hi r.stop hhi hstop hseam hbhi).mp hb2
          exact ⟨hstop, hb1', hb2', (hnext hstop hb1').mp ⟨out, later, hrun, hord⟩⟩
        · rintro ⟨hstop, hb1, hb2, hrest⟩
          rcases (hnext hstop hb1).mpr hrest with ⟨out, later, hrun, hord⟩
          refine ⟨out, _, ⟨?_, ?_, later, rfl, hrun⟩, ?_⟩
          · exact isCharBoundary_seam text tail hi r.start hhi (by omega) hseam hb1
          · exact isCharBoundary_seam text tail hi r.stop hhi hstop hseam hb2
          · rw [List.reverse_cons, List.map_append, List.map_singleton, hedit,
              Splice.ordered_append_singleton]
            exact ⟨hord, hle, hstop⟩

/-- Disjoint spans are exchanged, and what was there before stays behind
    them. -/
theorem substitute_woven (text : Str) : ∀ (rs : List ReplaceReplacement) (hi : Nat)
    (tail out : Str) (spans : List Stage1Span), hi ≤ text.length →
    substitute h convId baseIndex sorted rs (text.take hi ++ tail) = some (out, spans) →
    Splice.Ordered 0 hi (spans.reverse.map (writtenEdit h convId baseIndex sorted)) →
    out = Splice.weave text 0 hi (spans.reverse.map (writtenEdit h convId baseIndex sorted)) ++
      tail := by
  intro rs
  induction rs with
  | nil =>
      intro hi tail out spans _ hrun _
      simp only [substitute, Option.some.injEq, Prod.mk.injEq] at hrun
      rcases hrun with ⟨rfl, rfl⟩
      rfl
  | cons r rest ih =>
      intro hi tail out spans hhi hrun hord
      rw [substitute_cons_iff] at hrun
      by_cases hskip : r.stop < r.start ∨ (text.take hi ++ tail).length < r.stop
      · rw [if_pos hskip] at hrun
        exact ih hi tail out spans hhi hrun hord
      · rw [if_neg hskip] at hrun
        rcases hrun with ⟨_, _, later, rfl, hrun⟩
        rw [List.reverse_cons, List.map_append, List.map_singleton,
          writtenEdit_recordedSpan h convId baseIndex sorted (text.take hi ++ tail) r (by omega)
            (by omega)] at hord ⊢
        -- The edit lies below `hi`, so it leaves the tail and the next round stays below
        -- the edit's start.
        rcases (Splice.ordered_append_singleton _ _ _ _).mp hord with ⟨hord, hle, hstop⟩
        rw [Splice.Edit.apply_take_append _ text tail hi hhi hle hstop] at hrun
        rw [ih _ _ out later (Nat.le_trans hle (Nat.le_trans hstop hhi)) hrun hord,
          Splice.weave_append_singleton]
        simp only [List.append_assoc]

/-- The loop records replacements of its list only. -/
theorem substitute_recorded : ∀ (rs : List ReplaceReplacement) (t out : Str)
    (spans : List Stage1Span), substitute h convId baseIndex sorted rs t = some (out, spans) →
    ∀ s ∈ spans, ∃ r ∈ rs, s.start = r.start ∧ s.displayValue = r.displayValue := by
  intro rs
  induction rs with
  | nil =>
      intro t out spans hrun s hs
      simp only [substitute, Option.some.injEq, Prod.mk.injEq] at hrun
      rw [← hrun.2] at hs
      exact absurd hs List.not_mem_nil
  | cons r rest ih =>
      intro t out spans hrun s hs
      rw [substitute_cons_iff] at hrun
      -- A replacement out of range is passed over and leaves no span.
      by_cases hskip : r.stop < r.start ∨ t.length < r.stop
      · rw [if_pos hskip] at hrun
        rcases ih t out spans hrun s hs with ⟨d, hd, he⟩
        exact ⟨d, List.mem_cons_of_mem _ hd, he⟩
      · rw [if_neg hskip] at hrun
        rcases hrun with ⟨_, _, later, rfl, hrun⟩
        rcases List.mem_cons.mp hs with rfl | hs
        · exact ⟨r, List.mem_cons_self, rfl, rfl⟩
        · rcases ih _ out later hrun s hs with ⟨d, hd, he⟩
          exact ⟨d, List.mem_cons_of_mem _ hd, he⟩

/-- What Stage 1 splices is the text with disjoint spans exchanged for tokens
    of the reply. -/
theorem Splices.exchanged (text out : Str) (reps : List ReplaceReplacement)
    (spans : List Stage1Span) (hrun : stage1 h convId baseIndex text reps = some (out, spans))
    (hs : Splices h convId baseIndex (sortReplacements reps) text out spans) :
    Exchanged h convId baseIndex (sortReplacements reps) text out := by
  refine ⟨_, hs.disjoint, ?_, hs.woven⟩
  intro e he
  rcases List.mem_map.mp he with ⟨s, hmem, rfl⟩
  rcases substitute_recorded h convId baseIndex _ _ text out spans hrun s
    (List.mem_reverse.mp hmem) with ⟨r, hr, hstart, hdisplay⟩
  refine ⟨r, List.mem_reverse.mp hr, ?_⟩
  simp only [writtenEdit, stage1Token, hstart, hdisplay]

/-- Stage 1 returns, with disjoint spans of the text exchanged for tokens and
    those spans recorded, exactly when every span it accepts lies between
    characters before the tokens written so far. -/
theorem stage1_splices_iff (text : Str) (reps : List ReplaceReplacement) :
    (∃ out spans, stage1 h convId baseIndex text reps = some (out, spans) ∧
      Exchanged h convId baseIndex (sortReplacements reps) text out ∧
      Splices h convId baseIndex (sortReplacements reps) text out spans) ↔
    Orderly h convId baseIndex (sortReplacements reps) text text.length text.length
      (sortReplacements reps).reverse := by
  -- at the start nothing is rewritten: the seam is the end of the text
  have hseam : Seam [] := by
    intro b hb
    exact absurd hb (by simp only [List.head?_nil, Option.mem_def, reduceCtorEq,
      not_false_eq_true])
  have hloop := substitute_ordered_iff h convId baseIndex (sortReplacements reps) text
    (sortReplacements reps).reverse text.length [] (Nat.le_refl _) hseam
    (isCharBoundary_length text)
  have hwoven := substitute_woven h convId baseIndex (sortReplacements reps) text
    (sortReplacements reps).reverse text.length []
  rw [List.take_length, List.append_nil] at hloop hwoven
  rw [← hloop]
  constructor
  · rintro ⟨out, spans, hrun, _, hsplice⟩
    exact ⟨out, spans, hrun, hsplice.disjoint⟩
  · rintro ⟨out, spans, hrun, hord⟩
    have hw := hwoven out spans (Nat.le_refl _) hrun hord
    rw [List.append_nil] at hw
    have hsplice : Splices h convId baseIndex (sortReplacements reps) text out spans := ⟨hord, hw⟩
    exact ⟨out, spans, hrun, hsplice.exchanged h convId baseIndex text out reps spans hrun,
      hsplice⟩

/-- With replacements of one length, a woven list is a number of them longer
    than what it keeps. -/
theorem length_weave (s : Str) (hi n : Nat) (hhi : hi ≤ s.length) :
    ∀ (es : List (Splice.Edit UInt8)) (lo : Nat), Splice.Ordered lo hi es →
      (∀ e ∈ es, e.new.length = n) →
      ∃ k m, m ≤ hi - lo ∧ (Splice.weave s lo hi es).length = n * k + m := by
  intro es
  induction es with
  | nil =>
      intro lo _ _
      refine ⟨0, hi - lo, Nat.le_refl _, ?_⟩
      rw [Splice.weave, Splice.length_gap s lo hi hhi]
      omega
  | cons e es ih =>
      intro lo hord hnew
      rcases hord with ⟨hlo, hle, hrest⟩
      have hstop := Splice.Ordered.le _ _ _ hrest
      rcases ih e.stop hrest (fun d hd => hnew d (List.mem_cons_of_mem _ hd)) with ⟨k, m, hm, hlen⟩
      refine ⟨k + 1, (e.start - lo) + m, by omega, ?_⟩
      rw [Splice.weave, List.length_append, List.length_append,
        Splice.length_gap s lo e.start (by omega), hnew e List.mem_cons_self, hlen, Nat.mul_succ]
      omega

/-- An offset inside a character makes Stage 1 panic. Two overlapping spans
    leave the second half of a token behind the first, which is no exchange
    of spans. -/
theorem stage1_breaks :
    stage1 sampleHashes (lit "c") 0 (lit "é") [⟨1, 2, lit "X", lit "PERSON_NAME"⟩] = none ∧
    stage1 sampleHashes (lit "c") 0 (lit "ab")
        [⟨0, 2, lit "X", lit "PERSON_NAME"⟩, ⟨1, 2, lit "Y", lit "PERSON_NAME"⟩] =
        some (lit "<pii id=\"Kx2OwnsW\">X</pii>pii id=\"cuDWRYIb\">Y</pii>",
          [⟨1, 27, lit "Y", lit "PERSON_NAME", lit "b"⟩,
            ⟨0, 26, lit "X", lit "PERSON_NAME", lit "a<"⟩]) ∧
    ¬ Exchanged sampleHashes (lit "c") 0
      [⟨0, 2, lit "X", lit "PERSON_NAME"⟩, ⟨1, 2, lit "Y", lit "PERSON_NAME"⟩] (lit "ab")
      (lit "<pii id=\"Kx2OwnsW\">X</pii>pii id=\"cuDWRYIb\">Y</pii>") := by
  refine ⟨by decide, by decide, ?_⟩
  rintro ⟨edits, hord, htok, hout⟩
  -- Every token has 26 bytes, so no exchange gives a text of 51 bytes.
  have hnew : ∀ e ∈ edits, e.new.length = 26 := by
    intro e he
    rcases htok e he with ⟨r, hr, hr'⟩
    rw [hr']
    clear hr'
    revert r
    decide
  rcases length_weave _ _ 26 (Nat.le_refl _) edits 0 hord hnew with ⟨k, m, hm, hlen⟩
  rw [← hout] at hlen
  have h2 : (lit "ab").length = 2 := by decide
  have h51 : (lit "<pii id=\"Kx2OwnsW\">X</pii>pii id=\"cuDWRYIb\">Y</pii>").length = 51 := by
    decide
  omega

end PrivacyClaw
