import PrivacyClaw.Core.Tier1
import PrivacyClaw.Lib.Greedy

/-!
# Merged Spans

The detectors of both tiers select greedily: a span is taken unless it overlaps
one that was taken before. The pattern detector goes through the patterns, the
merge through the spans of both tiers, the most confident first.

A pattern is as confident as it gets, and the sort is stable, so the merge begins
with the spans of the patterns, which do not overlap, and takes them all.

## Main definitions

* `PiiSpan.overlaps`, `PiiSpan.Disjoint`: Two spans overlap, or do not.
* `sampleDetector`: A detector with one pattern.

## Theorems

* `collect_eq_select`, `mergeSpans_eq_select`: Both are greedy selections.
* `exists_findAll`, `detect_confidence`, `detect_disjoint`: The spans of the patterns.
* `sortByConfidence_certain`: Certain spans stay in front.
* `sortByConfidence_pairwise`: The sort goes from more confident to less.
* `mergeSpans_detect`: The merge is sound and loses no span of a pattern.
-/

namespace PrivacyClaw

/-- The overlap test for two spans. -/
def PiiSpan.overlaps (s t : PiiSpan) : Bool := s.start < t.stop && t.start < s.stop

theorem PiiSpan.overlaps_comm (s t : PiiSpan) : s.overlaps t = t.overlaps s :=
  Bool.and_comm _ _

/-- Two spans that do not overlap. -/
def PiiSpan.Disjoint (s t : PiiSpan) : Prop := s.overlaps t = false

theorem PiiSpan.Disjoint.symm {s t : PiiSpan} (h : s.Disjoint t) : t.Disjoint s :=
  (PiiSpan.overlaps_comm t s).trans h

theorem sortSpans_perm (spans : List PiiSpan) : (sortSpans spans).Perm spans :=
  List.perm_insertionSort _ _

theorem sortSpans_pairwise (spans : List PiiSpan) :
    (sortSpans spans).Pairwise fun a b => a.start ≤ b.start := by
  have : Std.Total fun a b : PiiSpan => a.start ≤ b.start := ⟨fun a b => Nat.le_total _ _⟩
  have : IsTrans PiiSpan fun a b => a.start ≤ b.start := ⟨fun _ _ _ => Nat.le_trans⟩
  exact List.pairwise_insertionSort _ _

/-- Spans that do not overlap do not overlap in another order either. -/
theorem disjoint_of_perm {l m : List PiiSpan} (hperm : l.Perm m)
    (h : m.Pairwise PiiSpan.Disjoint) : l.Pairwise PiiSpan.Disjoint :=
  (hperm.pairwise_iff fun hst => hst.symm).mpr h

theorem mergeSpans_eq_select (a b : List PiiSpan) : mergeSpans a b =
    sortSpans (Greedy.select PiiSpan.overlaps [] (sortByConfidence (a ++ b))) := rfl

namespace Tier1Detector

/-- The loop over the patterns selects among the spans of all of them. -/
theorem collect_eq_select (text : Str) (patterns : List PatternSet) : ∀ spans : List PiiSpan,
    collect text patterns spans =
      Greedy.select PiiSpan.overlaps spans (patterns.flatMap (·.findAll text)) := by
  induction patterns with
  | nil => exact fun _ => rfl
  | cons pat patterns ih =>
      intro spans
      rw [List.flatMap_cons, Greedy.select_append, ← ih]
      rfl

/-- A pattern is certain of what it matches. -/
theorem findAll_confidence (pat : PatternSet) (text : Str) :
    ∀ s ∈ pat.findAll text, s.confidence = F32.one := by
  intro s hs
  rcases List.mem_filterMap.mp hs with ⟨m, _, hm⟩
  cases m with
  | none => exact absurd hm (by simp only [reduceCtorEq, not_false_eq_true])
  | some p =>
      rcases p with ⟨start, stop⟩
      rw [← Option.some.inj (Option.ite_none_right_eq_some.mp hm).2]

variable (d : Tier1Detector) (text : Str) (locale : Locale)

theorem detect_disjoint : (d.detect text locale).Pairwise PiiSpan.Disjoint := by
  refine disjoint_of_perm (sortSpans_perm _) ?_
  rw [collect_eq_select, collect_eq_select, ← Greedy.select_append]
  exact Greedy.pairwise_select _ [] .nil

/-- A span of the detector is one of a pattern. -/
theorem exists_findAll : ∀ s ∈ d.detect text locale,
    ∃ pat ∈ d.universalPatterns ++ d.localePatterns locale, s ∈ pat.findAll text := by
  intro s hs
  have hmem := (sortSpans_perm _).mem_iff.mp hs
  rw [collect_eq_select, collect_eq_select, ← Greedy.select_append] at hmem
  -- what is taken is among the spans of the patterns
  rcases @Greedy.select_kept _ PiiSpan.overlaps (fun _ _ => True) _ []
    (List.pairwise_of_forall fun _ _ => trivial) with ⟨kept, dropped, hsel, hperm, _⟩
  rw [hsel, List.nil_append] at hmem
  have hall := hperm.mem_iff.mpr (List.mem_append_left dropped hmem)
  rwa [← List.flatMap_append, List.mem_flatMap] at hall

theorem detect_confidence : ∀ s ∈ d.detect text locale, s.confidence = F32.one := by
  intro s hs
  rcases d.exists_findAll text locale s hs with ⟨pat, _, hpat⟩
  exact findAll_confidence pat text s hpat

end Tier1Detector

/-- Between numbers the sort compares ranks. -/
theorem partialCmp_ne_gt_iff {x y : F32} (hx : x.isNan = false) (hy : y.isNan = false) :
    (y.partialCmp x).getD .eq ≠ .gt ↔ y.rank ≤ x.rank := by
  rw [F32.partialCmp, hx, hy, Bool.or_self, if_neg Bool.false_ne_true, Option.getD_some]
  exact compare_le_iff_le

/-- Spans that are certain stay in front of spans that are not more than that. -/
theorem sortByConfidence_certain (t1 t2 : List PiiSpan)
    (h1 : ∀ s ∈ t1, s.confidence = F32.one)
    (h2 : ∀ s ∈ t2, F32.one.ge s.confidence = true) :
    sortByConfidence (t1 ++ t2) = t1 ++ sortByConfidence t2 := by
  induction t1 with
  | nil => rfl
  | cons a t1 ih =>
      rw [List.forall_mem_cons] at h1
      rw [List.cons_append, List.cons_append, ← ih h1.2]
      -- the insertion stops at once, as nothing behind it is more confident
      refine List.insertionSort_cons_of_forall_rel _ fun b hb => ?_
      have hge : F32.one.ge b.confidence = true := by
        rcases List.mem_append.mp hb with hb | hb
        · rw [h1.2 b hb]
          decide
        · exact h2 b hb
      rw [F32.ge, Bool.and_eq_true, Bool.and_eq_true, Bool.not_eq_true', Bool.not_eq_true',
        decide_eq_true_eq] at hge
      rw [h1.1, partialCmp_ne_gt_iff hge.1.1 hge.1.2]
      exact hge.2

/-- Spans whose confidence is a number are sorted from more confident to less. -/
theorem sortByConfidence_pairwise (l : List PiiSpan)
    (hl : ∀ s ∈ l, s.confidence.isNan = false) :
    (sortByConfidence l).Pairwise fun x y => x.confidence.ge y.confidence = true := by
  have : Std.Total fun x y : PiiSpan => y.confidence.rank ≤ x.confidence.rank :=
    ⟨fun _ _ => Int.le_total _ _⟩
  have : IsTrans PiiSpan fun x y => y.confidence.rank ≤ x.confidence.rank :=
    ⟨fun _ _ _ hab hbc => Int.le_trans hbc hab⟩
  -- without a NaN the comparison is total, and the sort is one by rank
  have hsort : sortByConfidence l =
      l.insertionSort fun x y => y.confidence.rank ≤ x.confidence.rank := by
    have h := List.map_insertionSort
      (fun x y : PiiSpan => (y.confidence.partialCmp x.confidence).getD .eq ≠ .gt)
      (fun x y : PiiSpan => y.confidence.rank ≤ x.confidence.rank) id l
      fun x hx y hy => partialCmp_ne_gt_iff (hl x hx) (hl y hy)
    rw [List.map_id, List.map_id] at h
    exact h
  have hmem : ∀ {x}, x ∈ sortByConfidence l → x.confidence.isNan = false := fun hx =>
    hl _ ((List.mem_insertionSort _).mp hx)
  have hrank : (sortByConfidence l).Pairwise fun x y =>
      y.confidence.rank ≤ x.confidence.rank := by
    rw [hsort]
    exact List.pairwise_insertionSort _ l
  refine hrank.imp_of_mem fun hx hy h => ?_
  rw [F32.ge, hmem hx, hmem hy, decide_eq_true h]
  rfl

/-- The merge of the spans of the patterns with spans that are at most certain is
    sorted, its spans do not overlap, it has every span of a pattern, and a span
    that it leaves out overlaps one that it has and that is as confident. -/
theorem mergeSpans_detect (d : Tier1Detector) (text : Str) (locale : Locale)
    (t2 : List PiiSpan) (ht2 : ∀ s ∈ t2, F32.one.ge s.confidence = true) :
    ((mergeSpans (d.detect text locale) t2).Pairwise fun a b => a.start ≤ b.start) ∧
      (mergeSpans (d.detect text locale) t2).Pairwise PiiSpan.Disjoint ∧
      ∃ kept dropped, (mergeSpans (d.detect text locale) t2).Perm
          (d.detect text locale ++ kept) ∧ t2.Perm (kept ++ dropped) ∧
        ∀ x ∈ dropped, ∃ y ∈ mergeSpans (d.detect text locale) t2,
          y.overlaps x = true ∧ y.confidence.ge x.confidence = true := by
  have hone := d.detect_confidence text locale
  have hdisj := d.detect_disjoint text locale
  generalize d.detect text locale = t1 at hone hdisj
  have hnum : ∀ s ∈ t1 ++ t2, s.confidence.isNan = false := by
    intro s hs
    rcases List.mem_append.mp hs with hs | hs
    · rw [hone s hs]
      decide
    · have h := ht2 s hs
      rw [F32.ge, Bool.and_eq_true, Bool.and_eq_true, Bool.not_eq_true', Bool.not_eq_true'] at h
      exact h.1.2
  have hsort := sortByConfidence_certain t1 t2 hone ht2
  have horder := sortByConfidence_pairwise (t1 ++ t2) hnum
  -- the merge goes through the patterns' spans first, and takes them all
  have hall : Greedy.select PiiSpan.overlaps [] t1 = t1 := Greedy.select_of_pairwise t1 [] hdisj
  have hsel : mergeSpans t1 t2 =
      sortSpans (Greedy.select PiiSpan.overlaps t1 (sortByConfidence t2)) := by
    rw [mergeSpans_eq_select, hsort, Greedy.select_append, hall]
  rw [hsort] at horder
  rcases @Greedy.select_kept _ PiiSpan.overlaps _ _ t1 horder with
    ⟨kept, dropped, hkept, hperm, hwhy⟩
  have hmem : ∀ y, y ∈ mergeSpans t1 t2 ↔
      y ∈ Greedy.select PiiSpan.overlaps t1 (sortByConfidence t2) := fun y => by
    rw [hsel]
    exact (sortSpans_perm _).mem_iff
  refine ⟨?_, ?_, kept, dropped, ?_, ?_, ?_⟩
  · exact sortSpans_pairwise _
  · rw [hsel]
    exact disjoint_of_perm (sortSpans_perm _) (Greedy.pairwise_select _ t1 hdisj)
  · rw [hsel, ← hkept]
    exact sortSpans_perm _
  · exact (List.perm_insertionSort _ t2).symm.trans hperm
  · intro x hx
    rcases hwhy x hx with ⟨y, hy, hover, hge⟩
    exact ⟨y, (hmem y).mpr hy, hover, hge⟩

/-- The pattern for addresses, on one text. -/
def sampleDetector : Tier1Detector where
  universalPatterns :=
    [⟨.email, fun text => if text = lit "to a@b.io" then [some (3, 9)] else [], none⟩]
  localePatterns _ := []

/-- A name that overlaps the address, and one that does not. -/
def sampleNames : List PiiSpan :=
  [⟨5, 9, .personName, ⟨0x3F000000⟩, 2⟩, ⟨0, 2, .personName, ⟨0x3F000000⟩, 2⟩]

/-- The merge has the address and the second name, and leaves the first out. -/
theorem mergeSpans_detect_names :
    mergeSpans (sampleDetector.detect (lit "to a@b.io") .enUs) sampleNames =
        [⟨0, 2, .personName, ⟨0x3F000000⟩, 2⟩, ⟨3, 9, .email, F32.one, 1⟩] ∧
      ((mergeSpans (sampleDetector.detect (lit "to a@b.io") .enUs) sampleNames).Pairwise
        fun a b => a.start ≤ b.start) ∧
      (mergeSpans (sampleDetector.detect (lit "to a@b.io") .enUs) sampleNames).Pairwise
        PiiSpan.Disjoint ∧
      ∃ kept dropped, (mergeSpans (sampleDetector.detect (lit "to a@b.io") .enUs) sampleNames).Perm
          (sampleDetector.detect (lit "to a@b.io") .enUs ++ kept) ∧
        sampleNames.Perm (kept ++ dropped) ∧
        ∀ x ∈ dropped, ∃ y ∈ mergeSpans (sampleDetector.detect (lit "to a@b.io") .enUs) sampleNames,
          y.overlaps x = true ∧ y.confidence.ge x.confidence = true :=
  ⟨by decide +kernel, mergeSpans_detect sampleDetector (lit "to a@b.io") .enUs sampleNames
    (by decide)⟩

end PrivacyClaw
