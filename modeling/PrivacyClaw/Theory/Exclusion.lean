import PrivacyClaw.Core.Pipeline
import PrivacyClaw.Lib.Splice

/-!
# Stage 1 and the Exclusion Zones

What Stage 1 does with a reply whose spans are sound: non-empty, inside the
text, between characters and disjoint.

Working from right to left, it writes the text with every span exchanged for
its token, so the result is a splice of the text (`stage1_valid`). The zones
it reports are recorded while it works, at the offsets of the old text. They
are the places of the tokens in the new text as long as nothing to the left
of a token changes its length afterwards, and `exclusionZones_exact_iff` says
that this is the only case.

## Main definitions

* `ValidReplacements`: A reply whose spans are sound for a text.
* `tokenEdit`: A replacement as an edit of the text.
* `emittedRanges`: Where the tokens stand in the Stage-1 output.
* `recordedSpan`: The tuple recorded for a replacement.

## Theorems

* `ordered_sortReplacements`: Sorted, the spans stand from left to right.
* `substitute_cons_iff`: One round of the loop.
* `substitute_valid`: The loop makes the edits and records the spans.
* `stage1_valid`: Stage 1 returns, with the spliced text.
* `emittedRanges_select`: The emitted ranges hold the tokens.
* `exclusionZones_exact_iff`: The zones are the token ranges exactly when every
  span but the last is as long as its token.
* `exclusionZones_two_adjacent`: Two one-byte spans side by side.
-/

namespace PrivacyClaw

/-- The spans of a reply are non-empty, in range, between characters and
    pairwise disjoint; their order is free. -/
structure ValidReplacements (text : Str) (reps : List ReplaceReplacement) : Prop where
  nonempty : ∀ r ∈ reps, r.start < r.stop
  inRange : ∀ r ∈ reps, r.stop ≤ text.length
  aligned : ∀ r ∈ reps, isCharBoundary text r.start ∧ isCharBoundary text r.stop
  disjoint : reps.Pairwise (fun a b => a.stop ≤ b.start ∨ b.stop ≤ a.start)

/-- The text a replacement stands for. -/
def spanText (text : Str) (r : ReplaceReplacement) : Str := (text.take r.stop).drop r.start

/-- A replacement as an edit: the span, and the token for it. -/
def tokenEdit (tok : ReplaceReplacement → Str) (r : ReplaceReplacement) : Splice.Edit UInt8 :=
  ⟨r.start, r.stop, tok r⟩

/-- The tuple recorded for a replacement. -/
def recordedSpan (tok : ReplaceReplacement → Str) (text : Str) (r : ReplaceReplacement) :
    Stage1Span :=
  ⟨r.start, r.start + (tok r).length, r.displayValue, r.piiType, spanText text r⟩

/-- Where the tokens stand in the Stage-1 output, from left to right. -/
def emittedRanges (h : Hashes) (convId : Str) (baseIndex : Nat)
    (reps : List ReplaceReplacement) : List (Nat × Nat) :=
  let sorted := sortReplacements reps
  Splice.ranges 0 0 (sorted.map (tokenEdit (stage1Token h convId baseIndex sorted)))

theorem ValidReplacements.sort (text : Str) (reps : List ReplaceReplacement)
    (hv : ValidReplacements text reps) : ValidReplacements text (sortReplacements reps) := by
  have hperm : (sortReplacements reps).Perm reps := List.perm_insertionSort _ _
  refine ⟨?_, ?_, ?_, ?_⟩
  · exact fun r hr => hv.nonempty r (hperm.mem_iff.mp hr)
  · exact fun r hr => hv.inRange r (hperm.mem_iff.mp hr)
  · exact fun r hr => hv.aligned r (hperm.mem_iff.mp hr)
  · exact (hperm.pairwise_iff (fun hab => hab.symm)).mpr hv.disjoint

/-- Sorted by start, a disjoint reply stands from left to right. -/
theorem sortReplacements_pairwise (text : Str) (reps : List ReplaceReplacement)
    (hv : ValidReplacements text reps) :
    (sortReplacements reps).Pairwise (fun a b => a.stop ≤ b.start) := by
  have hstarts : (sortReplacements reps).Pairwise (fun a b => a.start ≤ b.start) := by
    have : IsTrans ReplaceReplacement (fun a b => a.start ≤ b.start) := ⟨fun _ _ _ => Nat.le_trans⟩
    have : Std.Total (fun a b : ReplaceReplacement => a.start ≤ b.start) :=
      ⟨fun a b => Nat.le_total a.start b.start⟩
    exact List.pairwise_insertionSort _ _
  have hsort := hv.sort
  refine (hstarts.and hsort.disjoint).imp_of_mem ?_
  rintro a b ha hb ⟨hle, hab | hba⟩
  · exact hab
  · have h1 := hsort.nonempty b hb
    omega

/-- Spans from left to right are ordered edits. -/
theorem ordered_of_pairwise (tok : ReplaceReplacement → Str) (hi : Nat) :
    ∀ (rs : List ReplaceReplacement) (lo : Nat), lo ≤ hi → (∀ r ∈ rs, lo ≤ r.start) →
      (∀ r ∈ rs, r.start < r.stop ∧ r.stop ≤ hi) → rs.Pairwise (fun a b => a.stop ≤ b.start) →
      Splice.Ordered lo hi (rs.map (tokenEdit tok)) := by
  intro rs
  induction rs with
  | nil => intro lo hlo _ _ _; exact hlo
  | cons r rs ih =>
      intro lo hlo hge hrange hpair
      rw [List.pairwise_cons] at hpair
      have hr := hrange r List.mem_cons_self
      refine ⟨hge r List.mem_cons_self, Nat.le_of_lt hr.1, ih r.stop hr.2 ?_ ?_ hpair.2⟩
      · exact hpair.1
      · exact fun d hd => hrange d (List.mem_cons_of_mem _ hd)

theorem ordered_sortReplacements (tok : ReplaceReplacement → Str) (text : Str)
    (reps : List ReplaceReplacement) (hv : ValidReplacements text reps) :
    Splice.Ordered 0 text.length ((sortReplacements reps).map (tokenEdit tok)) := by
  have hsort := hv.sort
  exact ordered_of_pairwise tok text.length _ 0 (Nat.zero_le _) (fun _ _ => Nat.zero_le _)
    (fun r hr => ⟨hsort.nonempty r hr, hsort.inRange r hr⟩) (sortReplacements_pairwise text reps hv)

/-- What follows the untouched part starts with a character of its own. -/
def Seam (tail : Str) : Prop := ∀ b ∈ tail.head?, b < 0x80

/-- Offsets up to the seam are boundaries where they were in the text. -/
theorem isCharBoundary_seam (text tail : Str) (hi i : Nat) (hhi : hi ≤ text.length)
    (hi' : i ≤ hi) (hseam : Seam tail) (hb : isCharBoundary text i) :
    isCharBoundary (text.take hi ++ tail) i := by
  have hlen : (text.take hi).length = hi := by rw [List.length_take]; omega
  rcases Nat.lt_or_eq_of_le hi' with hlt | rfl
  · rw [isCharBoundary_append_left _ _ _ (by omega)]
    have : isCharBoundary (text.take hi ++ text.drop hi) i = isCharBoundary (text.take hi) i :=
      isCharBoundary_append_left _ _ _ (by omega)
    rwa [List.take_append_drop, hb, eq_comm] at this
  · cases tail with
    | nil =>
        have := isCharBoundary_length (text.take i)
        rw [hlen] at this
        rwa [List.append_nil]
    | cons b tail =>
        have hlt : b < 0x80 := hseam b (by simp only [List.head?_cons, Option.mem_def])
        unfold isCharBoundary
        by_cases h0 : i = 0
        · rw [if_pos h0]
        · rw [if_neg h0, List.getElem?_append_right (by omega), hlen, Nat.sub_self]
          simp only [List.getElem?_cons_zero, hlt, decide_true, Bool.true_or]

theorem xmlToken_cons (tokenId d : Str) : ∃ rest, xmlToken tokenId d = 60 :: rest := by
  refine ⟨lit "pii id=\"" ++ tokenId ++ lit "\">" ++ d ++ lit "</pii>", ?_⟩
  have h : lit "<pii id=\"" = 60 :: lit "pii id=\"" := by decide
  simp only [xmlToken, h, List.cons_append]

theorem seam_token (h : Hashes) (convId : Str) (baseIndex : Nat)
    (sorted : List ReplaceReplacement) (r : ReplaceReplacement) (tail : Str) :
    Seam (stage1Token h convId baseIndex sorted r ++ tail) := by
  rcases xmlToken_cons (generateTokenId h convId (baseIndex + positionOf sorted r.start))
    r.displayValue with ⟨rest, hrest⟩
  intro b hb
  rw [stage1Token, hrest, List.cons_append, List.head?_cons, Option.mem_def,
    Option.some.injEq] at hb
  subst hb
  decide

/-- One round: the span is skipped, or it stands between characters of the
    text so far, is recorded and exchanged. -/
theorem substitute_cons_iff (h : Hashes) (convId : Str) (baseIndex : Nat)
    (sorted rest : List ReplaceReplacement) (r : ReplaceReplacement) (t out : Str)
    (spans : List Stage1Span) :
    substitute h convId baseIndex sorted (r :: rest) t = some (out, spans) ↔
      if r.stop < r.start ∨ t.length < r.stop then
        substitute h convId baseIndex sorted rest t = some (out, spans)
      else isCharBoundary t r.start ∧ isCharBoundary t r.stop ∧
        ∃ later, spans = recordedSpan (stage1Token h convId baseIndex sorted) t r :: later ∧
          substitute h convId baseIndex sorted rest
            ((tokenEdit (stage1Token h convId baseIndex sorted) r).apply t) = some (out, later) := by
  by_cases hskip : r.stop < r.start ∨ t.length < r.stop
  · simp only [substitute, if_pos hskip]
  · rw [if_neg hskip]
    have hle : r.start ≤ r.stop := by omega
    have hlen : r.stop ≤ t.length := by omega
    -- Within the text only the boundaries decide: slicing and replacing need both.
    by_cases hb : isCharBoundary t r.start ∧ isCharBoundary t r.stop
    · have hbound := And.intro hle (And.intro hlen hb)
      have hslice : slice t r.start r.stop = some (spanText t r) := by
        rw [slice, if_pos hbound, spanText]
      have hreplace : replaceRange t r.start r.stop (stage1Token h convId baseIndex sorted r) =
          some ((tokenEdit (stage1Token h convId baseIndex sorted) r).apply t) := by
        rw [replaceRange, if_pos hbound]
        rfl
      simp only [substitute, if_neg hskip, hslice, hreplace, Option.bind_eq_bind,
        Option.bind_some, Option.bind_eq_some_iff, Option.some.injEq, Prod.mk.injEq, hb, true_and]
      constructor
      · rintro ⟨⟨out', later⟩, hrest, rfl, rfl⟩
        exact ⟨later, rfl, hrest⟩
      · rintro ⟨later, rfl, hrest⟩
        exact ⟨(out, later), hrest, rfl, rfl⟩
    · have hslice : slice t r.start r.stop = none := by
        rw [slice, if_neg (fun hbound => hb hbound.2.2)]
      simp only [substitute, if_neg hskip, hslice, Option.bind_eq_bind, Option.bind_none,
        reduceCtorEq, false_iff]
      exact fun hround => hb ⟨hround.1, hround.2.1⟩

/-- Over sound spans the loop makes the edits, last one first, and records a
    span for each. -/
theorem substitute_valid (h : Hashes) (convId : Str) (baseIndex : Nat)
    (sorted : List ReplaceReplacement) (text : Str) :
    ∀ (rs : List ReplaceReplacement) (hi : Nat) (tail : Str),
      Splice.Ordered 0 hi (rs.map (tokenEdit (stage1Token h convId baseIndex sorted))) →
      hi ≤ text.length → Seam tail →
      (∀ r ∈ rs, isCharBoundary text r.start ∧ isCharBoundary text r.stop) →
      substitute h convId baseIndex sorted rs.reverse (text.take hi ++ tail) =
        some ((rs.map (tokenEdit (stage1Token h convId baseIndex sorted))).reverse.foldl
            (fun t e => e.apply t) (text.take hi ++ tail),
          rs.reverse.map (recordedSpan (stage1Token h convId baseIndex sorted) text)) := by
  intro rs
  induction rs using List.reverseRecOn with
  | nil => intro hi tail _ _ _ _; rfl
  | append_singleton rs r ih =>
      intro hi tail hord hhi hseam haligned
      set tok := stage1Token h convId baseIndex sorted with htok
      rw [List.map_append, List.map_singleton] at hord ⊢
      rcases (Splice.ordered_append_singleton (tokenEdit tok r) hi _ 0).mp hord with
        ⟨hrs, hle, hstop⟩
      change r.start ≤ r.stop at hle
      change r.stop ≤ hi at hstop
      have hr := haligned r (List.mem_append_right _ List.mem_cons_self)
      have hlen : (text.take hi).length = hi := by rw [List.length_take]; omega
      -- the span still stands at its own offsets
      have hbound : r.start ≤ r.stop ∧ r.stop ≤ (text.take hi ++ tail).length ∧
          isCharBoundary (text.take hi ++ tail) r.start ∧
          isCharBoundary (text.take hi ++ tail) r.stop := by
        refine ⟨hle, ?_, ?_, ?_⟩
        · rw [List.length_append, hlen]
          exact Nat.le_add_right_of_le hstop
        · exact isCharBoundary_seam text tail hi _ hhi (Nat.le_trans hle hstop) hseam hr.1
        · exact isCharBoundary_seam text tail hi _ hhi hstop hseam hr.2
      have hspan : recordedSpan tok (text.take hi ++ tail) r = recordedSpan tok text r := by
        rw [recordedSpan, recordedSpan, spanText, spanText,
          List.take_append_of_le_length (by rw [hlen]; exact hstop), List.take_take,
          Nat.min_eq_left hstop]
      have happly := (tokenEdit tok r).apply_take_append text tail hi hhi hle hstop
      have hnext := ih r.start (tok r ++ ((text.take hi).drop r.stop ++ tail)) hrs
        (Nat.le_trans hle (Nat.le_trans hstop hhi)) (seam_token h convId baseIndex sorted r _)
        (fun d hd => haligned d (List.mem_append_left _ hd))
      change (tokenEdit tok r).apply (text.take hi ++ tail) =
        text.take r.start ++ (tok r ++ ((text.take hi).drop r.stop ++ tail)) at happly
      have hcond : ¬(r.stop < r.start ∨ (text.take hi ++ tail).length < r.stop) := by
        have h1 := hbound.1
        have h2 := hbound.2.1
        omega
      rw [List.reverse_append, List.reverse_singleton, List.singleton_append,
        List.reverse_append, List.reverse_singleton, List.singleton_append, List.foldl_cons,
        List.map_cons]
      rw [← happly] at hnext
      rw [substitute_cons_iff, if_neg hcond]
      exact ⟨hbound.2.2.1, hbound.2.2.2, _, by rw [hspan], hnext⟩

/-- On a sound reply Stage 1 returns: the text is spliced from left to right,
    the spans are recorded from right to left. -/
theorem stage1_valid (h : Hashes) (convId : Str) (baseIndex : Nat) (text : Str)
    (reps : List ReplaceReplacement) (hv : ValidReplacements text reps) :
    stage1 h convId baseIndex text reps =
      some (Splice.weave text 0 text.length
          ((sortReplacements reps).map
            (tokenEdit (stage1Token h convId baseIndex (sortReplacements reps)))),
        (sortReplacements reps).reverse.map
          (recordedSpan (stage1Token h convId baseIndex (sortReplacements reps)) text)) := by
  have hord := ordered_sortReplacements
    (stage1Token h convId baseIndex (sortReplacements reps)) text reps hv
  have := substitute_valid h convId baseIndex (sortReplacements reps) text (sortReplacements reps)
    text.length [] hord (Nat.le_refl _)
    (fun b hb => absurd hb (by simp only [List.head?_nil, Option.mem_def, reduceCtorEq,
      not_false_eq_true])) hv.sort.aligned
  rw [List.take_length, List.append_nil, Splice.apply_reverse_eq_weave _ _ hord] at this
  exact this

/-- The emitted ranges hold the tokens, one for each replacement in order. -/
theorem emittedRanges_select (h : Hashes) (convId : Str) (baseIndex : Nat) (text out : Str)
    (spans : List Stage1Span) (reps : List ReplaceReplacement) (hv : ValidReplacements text reps)
    (hrun : stage1 h convId baseIndex text reps = some (out, spans)) :
    List.Forall₂ (fun (z : Nat × Nat) r => (out.take z.2).drop z.1 =
        stage1Token h convId baseIndex (sortReplacements reps) r)
      (emittedRanges h convId baseIndex reps) (sortReplacements reps) := by
  rw [stage1_valid h convId baseIndex text reps hv, Option.some.injEq, Prod.mk.injEq] at hrun
  rcases hrun with ⟨rfl, _⟩
  have hsel := Splice.ranges_select text text.length (Nat.le_refl _) _ 0 []
    (ordered_sortReplacements (stage1Token h convId baseIndex (sortReplacements reps)) text reps hv)
  rw [List.forall₂_map_right_iff] at hsel
  exact hsel

/-- A span is kept exactly when it touches no zone. -/
theorem mem_detectSpansWithExclusions (all : List PiiSpan) (zones : List (Nat × Nat))
    (span : PiiSpan) : span ∈ detectSpansWithExclusions all zones ↔
      span ∈ all ∧ ∀ z ∈ zones, span.stop ≤ z.1 ∨ z.2 ≤ span.start := by
  unfold detectSpansWithExclusions
  cases zones with
  | nil => simp only [List.isEmpty_nil, if_true, List.not_mem_nil, false_imp_iff, implies_true,
      and_true]
  | cons z zones =>
      simp only [List.isEmpty_cons, Bool.false_eq_true, if_false, List.mem_filter,
        List.all_eq_true, Bool.or_eq_true, decide_eq_true_eq]

/-- In a list with rising starts every element but the last is followed by a
    larger start. -/
theorem mem_dropLast_iff (rs : List ReplaceReplacement) :
    rs.Pairwise (fun a b => a.start < b.start) → ∀ r,
      r ∈ rs.dropLast ↔ r ∈ rs ∧ ∃ d ∈ rs, r.start < d.start := by
  induction rs with
  | nil =>
      intro _ r
      simp only [List.dropLast_nil, List.not_mem_nil, false_and, exists_false, and_self]
  | cons a rs ih =>
      intro hpair r
      rw [List.pairwise_cons] at hpair
      cases rs with
      | nil =>
          simp only [List.dropLast_singleton, List.not_mem_nil, List.mem_singleton, false_iff]
          rintro ⟨rfl, d, rfl, hlt⟩
          exact Nat.lt_irrefl _ hlt
      | cons b rs =>
          -- The head is in front of its neighbour, so it is never the last.
          rw [List.dropLast_cons_cons, List.mem_cons, ih hpair.2]
          constructor
          · rintro (rfl | ⟨hr, d, hd, hlt⟩)
            · exact ⟨List.mem_cons_self, b, List.mem_cons_of_mem _ List.mem_cons_self,
                hpair.1 b List.mem_cons_self⟩
            · exact ⟨List.mem_cons_of_mem _ hr, d, List.mem_cons_of_mem _ hd, hlt⟩
          · rintro ⟨hr, d, hd, hlt⟩
            rcases List.mem_cons.mp hr with rfl | hr'
            · exact Or.inl rfl
            · -- the larger start belongs to the tail, since the head's is the smallest
              refine Or.inr ⟨hr', d, ?_, hlt⟩
              rcases List.mem_cons.mp hd with rfl | hd
              · exact absurd (hpair.1 r hr') (Nat.lt_asymm hlt)
              · exact hd

/-- The zones, read from left to right, and the emitted ranges are the same
    list exactly when no span but the last changes its length. -/
theorem zones_eq_ranges_iff (h : Hashes) (convId : Str) (baseIndex : Nat) (text : Str)
    (reps : List ReplaceReplacement) (hv : ValidReplacements text reps) :
    emittedRanges h convId baseIndex reps =
        ((sortReplacements reps).map (fun r => (r.start, r.start + (r.displayValue.length + 25)))) ↔
      ∀ r ∈ reps, (∃ d ∈ reps, r.start < d.start) →
        r.stop = r.start + (r.displayValue.length + 25) := by
  set tok := stage1Token h convId baseIndex (sortReplacements reps) with htok
  have hlen : ∀ r, (tok r).length = r.displayValue.length + 25 := fun r =>
    xmlToken_length _ _ (generateTokenId_length h convId _)
  have hord := ordered_sortReplacements tok text reps hv
  have hmem : ∀ r, r ∈ sortReplacements reps ↔ r ∈ reps := fun r =>
    (List.perm_insertionSort _ _).mem_iff
  have hstarts : (sortReplacements reps).Pairwise (fun a b => a.start < b.start) :=
    (sortReplacements_pairwise text reps hv).imp_of_mem fun ha _ hab =>
      Nat.lt_of_lt_of_le (hv.sort.nonempty _ ha) hab
  have hiff := Splice.ranges_eq_iff text.length _ 0 0 hord
  simp only [List.map_map, or_true, true_and, ← List.map_dropLast, List.mem_map,
    forall_exists_index, and_imp, forall_apply_eq_imp_iff₂] at hiff
  have hmap : List.map ((fun e : Splice.Edit UInt8 => (e.start, e.start + e.new.length)) ∘
      tokenEdit tok) (sortReplacements reps) =
      (sortReplacements reps).map (fun r => (r.start, r.start + (r.displayValue.length + 25))) := by
    refine List.map_congr_left ?_
    intro r _
    change (r.start, r.start + (tok r).length) = _
    rw [hlen]
  rw [hmap] at hiff
  -- In the sorted list, all but the last stand in front of another one.
  refine hiff.trans ⟨?_, ?_⟩
  · rintro hall r hr ⟨d, hd, hlt⟩
    have := hall r ((mem_dropLast_iff _ hstarts r).mpr
      ⟨(hmem r).mpr hr, d, (hmem d).mpr hd, hlt⟩)
    change r.start + (tok r).length = r.stop at this
    rw [hlen] at this
    exact this.symm
  · intro hall r hr
    rcases (mem_dropLast_iff _ hstarts r).mp hr with ⟨hr, d, hd, hlt⟩
    have := hall r ((hmem r).mp hr) ⟨d, (hmem d).mp hd, hlt⟩
    change r.start + (tok r).length = r.stop
    rw [hlen]
    exact this.symm

/-- The zones handed to Stage 2 are the ranges of the emitted tokens, and the
    filter keeps what touches no token, exactly when every span in front of
    another one is as long as the token that replaces it. -/
theorem exclusionZones_exact_iff (h : Hashes) (convId : Str) (baseIndex : Nat) (text : Str)
    (reps : List ReplaceReplacement) (hv : ValidReplacements text reps) :
    ∃ out spans, stage1 h convId baseIndex text reps = some (out, spans) ∧
      List.Forall₂ (fun (z : Nat × Nat) r => (out.take z.2).drop z.1 =
          stage1Token h convId baseIndex (sortReplacements reps) r)
        (emittedRanges h convId baseIndex reps) (sortReplacements reps) ∧
      (((∀ z, z ∈ exclusionZones spans ↔ z ∈ emittedRanges h convId baseIndex reps) ∧
          ∀ (all : List PiiSpan) (span : PiiSpan),
            span ∈ detectSpansWithExclusions all (exclusionZones spans) ↔
              span ∈ all ∧ ∀ z ∈ emittedRanges h convId baseIndex reps,
                span.stop ≤ z.1 ∨ z.2 ≤ span.start) ↔
        ∀ r ∈ reps, (∃ d ∈ reps, r.start < d.start) →
          r.stop = r.start + (r.displayValue.length + 25)) := by
  set tok := stage1Token h convId baseIndex (sortReplacements reps) with htok
  have hlen : ∀ r, (tok r).length = r.displayValue.length + 25 := fun r =>
    xmlToken_length _ _ (generateTokenId_length h convId _)
  have hrun := stage1_valid h convId baseIndex text reps hv
  refine ⟨_, _, hrun, emittedRanges_select h convId baseIndex text _ _ reps hv hrun, ?_⟩
  rw [← zones_eq_ranges_iff h convId baseIndex text reps hv]
  set zones := (sortReplacements reps).map
    (fun r => (r.start, r.start + (r.displayValue.length + 25))) with hzones
  -- the recorded zones are these, from right to left
  have hrec : exclusionZones ((sortReplacements reps).reverse.map (recordedSpan tok text)) =
      zones.reverse := by
    rw [exclusionZones, List.map_map, hzones, ← List.map_reverse]
    refine List.map_congr_left ?_
    intro r _
    change (r.start, r.start + (tok r).length) = _
    rw [hlen]
  rw [hrec]
  have hsorted : zones.Pairwise (fun a b => a.1 < b.1) := by
    rw [hzones, List.pairwise_map]
    exact (sortReplacements_pairwise text reps hv).imp_of_mem fun ha _ hab =>
      Nat.lt_of_lt_of_le (hv.sort.nonempty _ ha) hab
  have hranges : (emittedRanges h convId baseIndex reps).Pairwise (fun a b => a.1 < b.1) := by
    refine (Splice.ranges_starts text.length _ 0 0 (ordered_sortReplacements tok text reps hv)
      ?_).1
    intro e he
    rcases List.mem_map.mp he with ⟨r, _, rfl⟩
    refine List.length_pos_iff.mp ?_
    change 0 < (tok r).length
    rw [hlen]
    omega
  constructor
  · rintro ⟨hmem, _⟩
    refine Splice.eq_of_mem_iff _ _ hranges hsorted ?_
    intro z
    rw [← hmem, List.mem_reverse]
  · intro heq
    have hmem : ∀ z, z ∈ zones.reverse ↔ z ∈ emittedRanges h convId baseIndex reps := by
      intro z
      rw [heq, List.mem_reverse]
    refine ⟨hmem, ?_⟩
    intro all span
    rw [mem_detectSpansWithExclusions]
    simp only [hmem]

/-- A span of 26 bytes in front of a span of one byte, both disguised in one
    byte: the first is as long as its token. -/
def alignedReply : List ReplaceReplacement :=
  [⟨0, 26, lit "X", lit "PERSON_NAME"⟩, ⟨26, 27, lit "Y", lit "PERSON_NAME"⟩]

/-- Of two spans the first is as long as the token that replaces it; both zones
    are exact, and so is the filter. -/
theorem exclusionZones_exact_aligned :
    ValidReplacements (lit "Wolfeschlegelsteinhausens!a") alignedReply ∧
    (∀ r ∈ alignedReply, (∃ d ∈ alignedReply, r.start < d.start) →
      r.stop = r.start + (r.displayValue.length + 25)) ∧
    ∃ out spans, stage1 sampleHashes (lit "c") 0 (lit "Wolfeschlegelsteinhausens!a")
        alignedReply = some (out, spans) ∧
      List.Forall₂ (fun (z : Nat × Nat) r => (out.take z.2).drop z.1 =
          stage1Token sampleHashes (lit "c") 0 (sortReplacements alignedReply) r)
        (emittedRanges sampleHashes (lit "c") 0 alignedReply) (sortReplacements alignedReply) ∧
      (∀ z, z ∈ exclusionZones spans ↔ z ∈ emittedRanges sampleHashes (lit "c") 0 alignedReply) ∧
      ∀ (all : List PiiSpan) (span : PiiSpan),
        span ∈ detectSpansWithExclusions all (exclusionZones spans) ↔
          span ∈ all ∧ ∀ z ∈ emittedRanges sampleHashes (lit "c") 0 alignedReply,
            span.stop ≤ z.1 ∨ z.2 ≤ span.start := by
  have hv : ValidReplacements (lit "Wolfeschlegelsteinhausens!a") alignedReply :=
    ⟨by decide, by decide, by decide, by decide⟩
  have hlong : ∀ r ∈ alignedReply, (∃ d ∈ alignedReply, r.start < d.start) →
      r.stop = r.start + (r.displayValue.length + 25) := by decide
  rcases exclusionZones_exact_iff sampleHashes (lit "c") 0 (lit "Wolfeschlegelsteinhausens!a") _
    hv with ⟨out, spans, hrun, htokens, hiff⟩
  exact ⟨hv, hlong, out, spans, hrun, htokens, hiff.mpr hlong⟩

/-- Two one-byte spans side by side: the second token stands behind the first,
    26 bytes further than its zone says. -/
theorem exclusionZones_two_adjacent :
    ValidReplacements (lit "ab")
      [⟨0, 1, lit "X", lit "PERSON_NAME"⟩, ⟨1, 2, lit "Y", lit "PERSON_NAME"⟩] ∧
    ∃ out spans, stage1 sampleHashes (lit "c") 0 (lit "ab")
        [⟨0, 1, lit "X", lit "PERSON_NAME"⟩, ⟨1, 2, lit "Y", lit "PERSON_NAME"⟩] =
        some (out, spans) ∧
      exclusionZones spans = [(1, 27), (0, 26)] ∧
      emittedRanges sampleHashes (lit "c") 0
        [⟨0, 1, lit "X", lit "PERSON_NAME"⟩, ⟨1, 2, lit "Y", lit "PERSON_NAME"⟩] =
        [(0, 26), (26, 52)] ∧
      ¬ ∀ z, z ∈ exclusionZones spans ↔ z ∈ emittedRanges sampleHashes (lit "c") 0
        [⟨0, 1, lit "X", lit "PERSON_NAME"⟩, ⟨1, 2, lit "Y", lit "PERSON_NAME"⟩] := by
  refine ⟨⟨by decide, by decide, by decide, by decide⟩, _, _, rfl, by decide, by decide, ?_⟩
  intro hall
  exact absurd ((hall (1, 27)).mp (by decide)) (by decide)

end PrivacyClaw
