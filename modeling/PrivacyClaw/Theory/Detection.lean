import PrivacyClaw.Core.Tier2
import PrivacyClaw.Theory.Masking
import PrivacyClaw.Theory.SpanMerge

/-!
# Detection

What the three tiers make of a text together, whatever the two models answer.

The scores of the entity model select greedily, as the merge does, so its spans
do not overlap and a candidate is left out for one that is as good. Each span is
what two tokens of the prompt cover, moved to the text.

The language model is asked about uncertain spans only. A pattern is certain,
hence never asked about, unless the threshold is above one. What comes back may
name a span twice; the loop that replaces the spans passes over the second one.
So the only answers that can cost a match are those to a question about it
(`patterns_kept_iff`).

## Main definitions

* `PiiPipeline.withDetectors`: The pipeline with its two detectors.
* `Tier2Detector.Logistic`: Its scores lie between zero and one.
* `mergedSpans`: What the two detectors say of a text, merged.
* `PiiSpan.OnceBefore`: One span ends before the other, or is it.

## Theorems

* `mem_candidates`, `candidate_spec`: The candidates of the entity model.
* `decodeSpans_exact`: What is decoded from scores.
* `mergedSpans_inside`: The merged spans are inside the text.
* `detectSpans_onceBefore`: The spans do not overlap, but one may come twice.
* `detectSpans_keeps`: What is not asked about stays.
* `patterns_kept_iff`: When no answer can cost a match.
-/

namespace PrivacyClaw

section Scores

variable (t : Tier2Detector) (logits : Tensor) (tokenOffsets : List (Nat × Nat))
  (offset textLen : Nat) (labels : List Str)

/-- A candidate is the span of two tokens, at most fifty apart, and a label. -/
theorem mem_candidates (s : PiiSpan) :
    s ∈ t.candidates logits tokenOffsets offset textLen labels ↔
      ∃ d0 d1 d2 d3 label i j, logits.shape = [d0, d1, d2, d3] ∧ label < labels.length ∧
        label < d3 ∧ i ≤ j ∧ j < d1 ∧ j < i + 50 ∧
        t.spanAt logits tokenOffsets offset textLen labels label i j = some s := by
  unfold Tier2Detector.candidates
  split
  · rename_i d0 d1 d2 d3 hshape
    simp only [List.mem_flatMap, List.mem_filterMap, List.mem_range, List.mem_range'_1]
    constructor
    · rintro ⟨label, hlabel, i, hi, j, hj, hs⟩
      exact ⟨d0, d1, d2, d3, label, i, j, hshape, by omega, by omega, hj.1, by omega, by omega, hs⟩
    · rintro ⟨e0, e1, e2, e3, label, i, j, hshape', hl, hd, hij, hj, hfifty, hs⟩
      rw [hshape, List.cons.injEq, List.cons.injEq, List.cons.injEq, List.cons.injEq] at hshape'
      rcases hshape' with ⟨-, rfl, -, rfl, -⟩
      exact ⟨label, by omega, i, by omega, j, ⟨hij, by omega⟩, hs⟩
  · rename_i hother
    constructor
    · exact fun h => absurd h List.not_mem_nil
    · rintro ⟨d0, d1, d2, d3, _, _, _, hshape, _⟩
      exact absurd hshape (hother d0 d1 d2 d3)

/-- Where a raw range lies in the text. -/
theorem mapTokenOffset_eq_some (rawStart rawEnd a b : Nat) :
    mapTokenOffset rawStart rawEnd offset textLen = some (a, b) ↔
      rawStart = offset + a ∧ rawEnd = offset + b ∧ a < b ∧ b ≤ textLen := by
  unfold mapTokenOffset
  by_cases hout : rawStart < offset ∨ rawEnd ≤ offset
  · rw [if_pos hout]
    constructor
    · exact fun h => absurd h.symm (Option.some_ne_none _)
    · omega
  · rw [if_neg hout]
    by_cases hin : rawStart - offset < rawEnd - offset ∧ rawEnd - offset ≤ textLen
    · rw [if_pos hin, Option.some.injEq, Prod.mk.injEq]
      omega
    · rw [if_neg hin]
      constructor
      · exact fun h => absurd h.symm (Option.some_ne_none _)
      · omega

/-- A span has its score, and its ends are those of its tokens. A token without an
    offset would be at zero, which is in front of the text. -/
theorem spanAt_eq_some (label i j : Nat) (s : PiiSpan) (hoffset : 0 < offset)
    (h : t.spanAt logits tokenOffsets offset textLen labels label i j = some s) :
    s.confidence.ge t.confidenceThreshold = true ∧
      s.entityType = .custom (labels.getD label []) ∧
      s.confidence = t.probability logits label i j ∧ s.tier = 2 ∧
      s.start < s.stop ∧ s.stop ≤ textLen ∧
      ∃ p q, tokenOffsets[i]? = some p ∧ tokenOffsets[j]? = some q ∧
        p.1 = offset + s.start ∧ q.2 = offset + s.stop := by
  unfold Tier2Detector.spanAt at h
  rcases Option.ite_none_right_eq_some.mp h with ⟨hgood, h⟩
  rcases Option.map_eq_some_iff.mp h with ⟨⟨a, b⟩, hab, rfl⟩
  rcases (mapTokenOffset_eq_some offset textLen _ _ a b).mp hab with ⟨hstart, hend, hlt, hle⟩
  refine ⟨hgood, rfl, rfl, rfl, hlt, hle, ?_⟩
  cases hp : tokenOffsets[i]? with
  | none =>
      rw [hp, Option.map_none, Option.getD_none] at hstart
      omega
  | some p =>
      cases hq : tokenOffsets[j]? with
      | none =>
          rw [hq, Option.map_none, Option.getD_none] at hend
          omega
      | some q =>
          rw [hp, Option.map_some, Option.getD_some] at hstart
          rw [hq, Option.map_some, Option.getD_some] at hend
          exact ⟨p, q, rfl, rfl, hstart, hend⟩

end Scores

theorem textByteOffset_pos (labels : List Str) : 0 < textByteOffset labels := by
  have hsep : labelSeparator.length = 7 := by decide
  rw [textByteOffset, hsep]
  exact Nat.succ_pos _

/-- Behind its label part the prompt is the text. -/
theorem nerPrompt_drop (labels : List Str) (text : Str) (a b : Nat) :
    ((nerPrompt labels text).take (textByteOffset labels + b)).drop (textByteOffset labels + a) =
      (text.take b).drop a := by
  have hlen : textByteOffset labels = (joinLabels labels ++ labelSeparator).length := by
    rw [List.length_append, textByteOffset]
  rw [nerPrompt, hlen, List.take_length_add_append, List.drop_length_add_append]

theorem decodeSpans_eq_select (t : Tier2Detector) (logits : Tensor) (text : Str)
    (labels : List Str) (tokenOffsets : List (Nat × Nat)) (offset : Nat) :
    t.decodeSpans logits text labels tokenOffsets offset =
      sortSpans (Greedy.select PiiSpan.overlaps []
        (sortByConfidence (t.candidates logits tokenOffsets offset text.length labels))) := rfl

/-- A score that passes the threshold is a number. -/
theorem isNan_of_ge {x y : F32} (h : x.ge y = true) : x.isNan = false := by
  rw [F32.ge, Bool.and_eq_true, Bool.and_eq_true, Bool.not_eq_true', Bool.not_eq_true'] at h
  exact h.1.1

/-- A candidate is a part of the text that is not empty, with the very bytes that its tokens
    cover in the prompt, and its score passes the threshold. -/
theorem candidate_spec (t : Tier2Detector) (logits : Tensor) (text : Str) (labels : List Str)
    (tokenOffsets : List (Nat × Nat)) :
    ∀ s ∈ t.candidates logits tokenOffsets (textByteOffset labels) text.length labels,
      s.start < s.stop ∧ s.stop ≤ text.length ∧ s.confidence.ge t.confidenceThreshold = true ∧
        ∃ i j p q, i ≤ j ∧ j < i + 50 ∧ tokenOffsets[i]? = some p ∧ tokenOffsets[j]? = some q ∧
          s.textIn text = ((nerPrompt labels text).take q.2).drop p.1 := by
  intro s hs
  rcases (mem_candidates t logits tokenOffsets _ _ labels s).mp hs with
    ⟨_, _, _, _, label, i, j, _, _, _, hij, _, hfifty, hspan⟩
  rcases spanAt_eq_some t logits tokenOffsets _ _ labels label i j s
    (textByteOffset_pos labels) hspan with
    ⟨hgood, _, _, _, hlt, hle, p, q, hp, hq, hstart, hstop⟩
  refine ⟨hlt, hle, hgood, i, j, p, q, hij, hfifty, hp, hq, ?_⟩
  rw [hstart, hstop, nerPrompt_drop, PiiSpan.textIn]

/-- What is decoded is among the candidates. -/
theorem mem_candidates_of_decodeSpans (t : Tier2Detector) (logits : Tensor) (text : Str)
    (labels : List Str) (tokenOffsets : List (Nat × Nat)) (offset : Nat) (s : PiiSpan)
    (hs : s ∈ t.decodeSpans logits text labels tokenOffsets offset) :
    s ∈ t.candidates logits tokenOffsets offset text.length labels := by
  rw [decodeSpans_eq_select, (sortSpans_perm _).mem_iff] at hs
  rcases @Greedy.select_sublist _ PiiSpan.overlaps
    (sortByConfidence (t.candidates logits tokenOffsets offset text.length labels)) [] with
    ⟨kept, hsel, hsub⟩
  rw [hsel, List.nil_append] at hs
  exact (List.mem_insertionSort _).mp (hsub.subset hs)

/-- What is decoded from the scores of a text, whatever tensor and offsets the
    model returns: spans in order that do not overlap; each of them a candidate,
    inside the text and not empty, with the very bytes that its tokens cover in the
    prompt; and a candidate that is missing overlaps one that is there and has at
    least its score. -/
theorem decodeSpans_exact (t : Tier2Detector) (logits : Tensor) (text : Str) (labels : List Str)
    (tokenOffsets : List (Nat × Nat)) :
    let spans := t.decodeSpans logits text labels tokenOffsets (textByteOffset labels)
    let candidates := t.candidates logits tokenOffsets (textByteOffset labels) text.length labels
    (spans.Pairwise fun a b => a.stop ≤ b.start) ∧
      (∀ s ∈ spans, s ∈ candidates ∧ s.start < s.stop ∧ s.stop ≤ text.length ∧
        s.confidence.ge t.confidenceThreshold = true ∧
        ∃ i j p q, i ≤ j ∧ j < i + 50 ∧ tokenOffsets[i]? = some p ∧ tokenOffsets[j]? = some q ∧
          s.textIn text = ((nerPrompt labels text).take q.2).drop p.1) ∧
      ∀ c ∈ candidates, c ∈ spans ∨
        ∃ s ∈ spans, s.overlaps c = true ∧ s.confidence.ge c.confidence = true := by
  dsimp only
  have hcand := candidate_spec t logits text labels tokenOffsets
  generalize hall : t.candidates logits tokenOffsets (textByteOffset labels) text.length labels =
    candidates at hcand
  have hspans : t.decodeSpans logits text labels tokenOffsets (textByteOffset labels) =
      sortSpans (Greedy.select PiiSpan.overlaps [] (sortByConfidence candidates)) := by
    rw [decodeSpans_eq_select, hall]
  -- the scores of the candidates are numbers
  have horder := sortByConfidence_pairwise candidates fun s hs => isNan_of_ge (hcand s hs).2.2.1
  rcases @Greedy.select_kept _ PiiSpan.overlaps _ (sortByConfidence candidates) [] horder with
    ⟨kept, dropped, hsel, hperm, hwhy⟩
  rw [List.nil_append] at hsel
  have hmem : ∀ s, s ∈ sortSpans (Greedy.select PiiSpan.overlaps []
      (sortByConfidence candidates)) ↔ s ∈ kept := fun s => by
    rw [(sortSpans_perm _).mem_iff, hsel]
  have hall' : candidates.Perm (kept ++ dropped) :=
    (List.perm_insertionSort _ candidates).symm.trans hperm
  have hfrom : ∀ s, s ∈ candidates ↔ s ∈ kept ∨ s ∈ dropped := fun s => by
    rw [hall'.mem_iff, List.mem_append]
  rw [hspans]
  refine ⟨?_, fun s hs => ?_, fun c hc => ?_⟩
  · -- in order, and none reaches into the next, as none is empty
    have hdisj := disjoint_of_perm (sortSpans_perm (Greedy.select PiiSpan.overlaps []
      (sortByConfidence candidates))) (Greedy.pairwise_select _ [] .nil)
    refine ((sortSpans_pairwise _).and hdisj).imp_of_mem fun {a b} _ hb hab => ?_
    have hb := (hcand b ((hfrom b).mpr (.inl ((hmem b).mp hb)))).1
    have hno := hab.2
    rw [PiiSpan.Disjoint, PiiSpan.overlaps, Bool.and_eq_false_iff, decide_eq_false_iff_not,
      decide_eq_false_iff_not] at hno
    omega
  · have hs := (hfrom s).mpr (.inl ((hmem s).mp hs))
    exact ⟨hs, hcand s hs⟩
  · rcases (hfrom c).mp hc with hkept | hdropped
    · exact .inl ((hmem c).mpr hkept)
    · rcases hwhy c hdropped with ⟨s, hs, hover, hge⟩
      rw [hsel] at hs
      exact .inr ⟨s, (hmem s).mpr hs, hover, hge⟩

/-- The pipeline with the pattern detector and the entity detector. -/
def PiiPipeline.withDetectors (d : Tier1Detector) (t : Option Tier2Detector)
    (slm : Option SlmSidecar) (threshold : F32) : PiiPipeline where
  tier1 := d.detect
  tier2 := t.map fun t => t.detect
  slm := slm
  slmConfidenceThreshold := threshold

/-- The logistic function is at most one, or no number. -/
def Tier2Detector.Logistic (t : Tier2Detector) : Prop :=
  ∀ x, (t.model.sigmoid x).isNan = true ∨ F32.one.ge (t.model.sigmoid x) = true

/-- The spans of a text are those decoded from scores, or there are none. -/
theorem Tier2Detector.detect_cases (t : Tier2Detector) (call : Nat) (text : Str) :
    t.detect call text = [] ∨ ∃ logits tokenOffsets,
      t.model.offsets call (nerPrompt nerLabels text) = some tokenOffsets ∧
      t.detect call text =
        t.decodeSpans logits text nerLabels tokenOffsets (textByteOffset nerLabels) := by
  unfold Tier2Detector.detect Tier2Detector.detectBatch
  rw [List.isEmpty_cons, if_neg Bool.false_ne_true]
  have hfew : ¬ batchSize < [text].length := by
    rw [List.length_singleton, batchSize]
    omega
  rw [if_neg hfew]
  cases t.model.timesOut call with
  | true => exact .inl rfl
  | false =>
      rw [if_neg Bool.false_ne_true, Tier2Detector.runInference, List.mapM_cons, List.mapM_nil]
      cases hinfer : t.inferText call nerLabels text with
      | none => exact .inl rfl
      | some spans =>
          rw [Tier2Detector.inferText, Option.bind_eq_bind, Option.bind_eq_some_iff] at hinfer
          rcases hinfer with ⟨tokenOffsets, hoff, hinfer⟩
          rw [Option.bind_eq_bind, Option.bind_eq_some_iff] at hinfer
          rcases hinfer with ⟨logits, _, hinfer⟩
          exact .inr ⟨logits, tokenOffsets, hoff, (Option.some.inj hinfer).symm⟩

/-- The scores are at most certain. -/
theorem Tier2Detector.detect_confidence (t : Tier2Detector) (ht : t.Logistic) (call : Nat)
    (text : Str) : ∀ s ∈ t.detect call text, F32.one.ge s.confidence = true := by
  intro s hs
  rcases t.detect_cases call text with hnone | ⟨logits, tokenOffsets, _, hdec⟩
  · rw [hnone] at hs
    exact absurd hs List.not_mem_nil
  · rw [hdec] at hs
    have hcand := mem_candidates_of_decodeSpans t logits text nerLabels tokenOffsets _ s hs
    rcases (mem_candidates t logits tokenOffsets _ _ nerLabels s).mp hcand with
      ⟨_, _, _, _, label, i, j, _, _, _, _, _, _, hspan⟩
    rcases spanAt_eq_some t logits tokenOffsets _ _ nerLabels label i j s
      (textByteOffset_pos nerLabels) hspan with ⟨hgood, _, hconf, _⟩
    rcases ht ((logits.get [0, i, j, label]).getD F32.negInfinity) with hnan | hone
    · have hnum := isNan_of_ge hgood
      rw [hconf, Tier2Detector.probability, hnan] at hnum
      exact Bool.noConfusion hnum
    · rw [hconf]
      exact hone

section Tiers

variable (d : Tier1Detector) (t : Option Tier2Detector) (slm : Option SlmSidecar) (threshold : F32)

/-- The spans of the two detectors, merged. -/
def mergedSpans (call : Nat) (text : Str) (locale : Locale) : List PiiSpan :=
  mergeSpans (d.detect text locale) ((t.map fun t => t.detect call text).getD [])

theorem detectSpans_none (call : Nat) (text : Str) (locale : Locale) :
    (PiiPipeline.withDetectors d t none threshold).detectSpans call text locale =
      mergedSpans d t call text locale := by
  cases t with
  | none => rfl
  | some t => rfl

theorem detectSpans_some (slm : SlmSidecar) (call : Nat) (text : Str) (locale : Locale) :
    (PiiPipeline.withDetectors d t (some slm) threshold).detectSpans call text locale =
      sortSpans (((mergedSpans d t call text locale).filter fun s => s.confidence.ge threshold) ++
        slm.disambiguate call text ((mergedSpans d t call text locale).filter fun s =>
          !s.confidence.ge threshold)) := by
  cases t with
  | none => rw [PiiPipeline.detectSpans]; simp only [PiiPipeline.withDetectors,
      List.partition_eq_filter_filter]; rfl
  | some t => rw [PiiPipeline.detectSpans]; simp only [PiiPipeline.withDetectors,
      List.partition_eq_filter_filter]; rfl

/-- What a disambiguation gives back was asked about. -/
theorem mem_disambiguate (slm : SlmSidecar) (call : Nat) (text : Str) (low : List PiiSpan) :
    ∀ s ∈ slm.disambiguate call text low, s ∈ low := by
  intro s hs
  unfold SlmSidecar.disambiguate at hs
  split at hs
  · exact absurd hs List.not_mem_nil
  · split at hs
    · exact hs
    · rcases List.mem_filterMap.mp hs with ⟨i, _, hi⟩
      exact List.mem_of_getElem? hi

/-- A merge with spans that are certain and do not overlap has all of them, and
    otherwise spans of the other list. -/
theorem mergeSpans_certain (t1 t2 : List PiiSpan) (h1 : ∀ s ∈ t1, s.confidence = F32.one)
    (hdisj : t1.Pairwise PiiSpan.Disjoint) (h2 : ∀ s ∈ t2, F32.one.ge s.confidence = true) :
    (mergeSpans t1 t2).Pairwise PiiSpan.Disjoint ∧ (∀ s ∈ t1, s ∈ mergeSpans t1 t2) ∧
      ∀ s ∈ mergeSpans t1 t2, s ∈ t1 ∨ s ∈ t2 := by
  have hall : Greedy.select PiiSpan.overlaps [] t1 = t1 := Greedy.select_of_pairwise t1 [] hdisj
  have hsel : mergeSpans t1 t2 =
      sortSpans (Greedy.select PiiSpan.overlaps t1 (sortByConfidence t2)) := by
    rw [mergeSpans_eq_select, sortByConfidence_certain t1 t2 h1 h2, Greedy.select_append, hall]
  have hkeep : ∃ kept, Greedy.select PiiSpan.overlaps t1 (sortByConfidence t2) = t1 ++ kept ∧
      kept.Sublist (sortByConfidence t2) := Greedy.select_sublist (sortByConfidence t2) t1
  rcases hkeep with ⟨kept, hkept, hsub⟩
  have hmem : ∀ s, s ∈ mergeSpans t1 t2 ↔ s ∈ t1 ∨ s ∈ kept := fun s => by
    rw [hsel, (sortSpans_perm _).mem_iff, hkept, List.mem_append]
  refine ⟨?_, fun s hs => (hmem s).mpr (.inl hs), fun s hs => ?_⟩
  · rw [hsel]
    exact disjoint_of_perm (sortSpans_perm _) (Greedy.pairwise_select _ t1 hdisj)
  · rcases (hmem s).mp hs with hs | hs
    · exact .inl hs
    · exact .inr ((List.mem_insertionSort _).mp (hsub.subset hs))

/-- Spans of one list that do not overlap there are the same or do not overlap. -/
theorem eq_or_disjoint {l : List PiiSpan} (hl : l.Pairwise PiiSpan.Disjoint) {a b : PiiSpan}
    (ha : a ∈ l) (hb : b ∈ l) : a = b ∨ a.Disjoint b := by
  by_cases hab : a = b
  · exact .inl hab
  · have : Std.Symm PiiSpan.Disjoint := ⟨fun _ _ h => h.symm⟩
    exact .inr (hl.forall ha hb hab)

/-- Behind one another in a list of spans: the next begins where this one ends, or
    it is this one again. -/
def PiiSpan.OnceBefore (a b : PiiSpan) : Prop := a.stop ≤ b.start ∨ a = b

/-- The spans of the merge may be picked and sorted again, some of them twice. -/
theorem sortSpans_onceBefore {l m : List PiiSpan} (hl : l.Pairwise PiiSpan.Disjoint)
    (hne : ∀ s ∈ l, s.start < s.stop) (hm : ∀ s ∈ m, s ∈ l) :
    (sortSpans m).Pairwise PiiSpan.OnceBefore := by
  have hmem : ∀ s ∈ sortSpans m, s ∈ l := fun s hs => hm s ((sortSpans_perm m).mem_iff.mp hs)
  refine (sortSpans_pairwise m).imp_of_mem fun {a b} ha hb hab => ?_
  rcases eq_or_disjoint hl (hmem a ha) (hmem b hb) with heq | hno
  · exact .inr heq
  · have hb := hne b (hmem b hb)
    rw [PiiSpan.Disjoint, PiiSpan.overlaps, Bool.and_eq_false_iff, decide_eq_false_iff_not,
      decide_eq_false_iff_not] at hno
    exact .inl (by omega)

/-- The merged spans do not overlap, and are those of the patterns with some of the
    entity model. -/
theorem mergedSpans_spec (ht : ∀ t', t = some t' → t'.Logistic) (call : Nat) (text : Str)
    (locale : Locale) :
    (mergedSpans d t call text locale).Pairwise PiiSpan.Disjoint ∧
      (∀ s ∈ d.detect text locale, s ∈ mergedSpans d t call text locale) ∧
      ∀ s ∈ mergedSpans d t call text locale, s ∈ d.detect text locale ∨
        ∃ t', t = some t' ∧ s ∈ t'.detect call text := by
  have hconf : ∀ s ∈ (t.map fun t => t.detect call text).getD [],
      F32.one.ge s.confidence = true := by
    cases t with
    | none => exact fun s hs => absurd hs List.not_mem_nil
    | some t => exact t.detect_confidence (ht t rfl) call text
  rcases mergeSpans_certain _ _ (d.detect_confidence text locale) (d.detect_disjoint text locale)
    hconf with ⟨hdisj, hkeeps, hfrom⟩
  refine ⟨hdisj, hkeeps, fun s hs => ?_⟩
  rcases hfrom s hs with hs | hs
  · exact .inl hs
  · cases t with
    | none => exact absurd hs List.not_mem_nil
    | some t => exact .inr ⟨t, rfl, hs⟩

/-- A span of the merge is not empty and ends in the text, if this is so of every match of a
    pattern. -/
theorem mergedSpans_inside (ht : ∀ t', t = some t' → t'.Logistic) (call : Nat) (text : Str)
    (locale : Locale)
    (hd : ∀ s ∈ d.detect text locale, s.start < s.stop ∧ s.stop ≤ text.length) :
    ∀ s ∈ mergedSpans d t call text locale, s.start < s.stop ∧ s.stop ≤ text.length := by
  intro s hs
  rcases (mergedSpans_spec d t ht call text locale).2.2 s hs with hs | ⟨t', _, hs⟩
  · exact hd s hs
  · rcases t'.detect_cases call text with hnone | ⟨logits, tokenOffsets, _, hdec⟩
    · rw [hnone] at hs
      exact absurd hs List.not_mem_nil
    · rw [hdec] at hs
      have hcand := candidate_spec t' logits text nerLabels tokenOffsets s
        (mem_candidates_of_decodeSpans t' logits text nerLabels tokenOffsets _ s hs)
      exact ⟨hcand.1, hcand.2.1⟩

/-- The spans of all tiers come from the merge. -/
theorem mem_detectSpans (call : Nat) (text : Str) (locale : Locale) :
    ∀ s ∈ (PiiPipeline.withDetectors d t slm threshold).detectSpans call text locale,
      s ∈ mergedSpans d t call text locale := by
  intro s hs
  cases slm with
  | none =>
      rw [detectSpans_none] at hs
      exact hs
  | some slm =>
      rw [detectSpans_some] at hs
      rcases List.mem_append.mp ((sortSpans_perm _).mem_iff.mp hs) with hs | hs
      · exact List.mem_of_mem_filter hs
      · exact List.mem_of_mem_filter (mem_disambiguate slm call text _ s hs)

/-- The spans of all tiers, in order: they do not overlap, though one may be there
    twice. -/
theorem detectSpans_onceBefore (ht : ∀ t', t = some t' → t'.Logistic) (call : Nat) (text : Str)
    (locale : Locale)
    (hd : ∀ s ∈ d.detect text locale, s.start < s.stop ∧ s.stop ≤ text.length) :
    ((PiiPipeline.withDetectors d t slm threshold).detectSpans call text locale).Pairwise
      PiiSpan.OnceBefore := by
  have hdisj := (mergedSpans_spec d t ht call text locale).1
  have hnonempty := fun s hs => (mergedSpans_inside d t ht call text locale hd s hs).1
  have hmem := mem_detectSpans d t slm threshold call text locale
  cases slm with
  | none =>
      rw [detectSpans_none] at hmem ⊢
      -- the merge is sorted already
      rw [mergedSpans, mergeSpans_eq_select] at hdisj hnonempty ⊢
      exact sortSpans_onceBefore hdisj hnonempty fun s hs => (sortSpans_perm _).mem_iff.mpr hs
  | some slm =>
      rw [detectSpans_some] at hmem ⊢
      exact sortSpans_onceBefore hdisj hnonempty fun s hs =>
        hmem s ((sortSpans_perm _).mem_iff.mpr hs)

/-- A match of a pattern is among the spans of all tiers, if it is never put up for
    disambiguation. -/
theorem detectSpans_keeps (ht : ∀ t', t = some t' → t'.Logistic)
    (hone : slm = none ∨ F32.one.ge threshold = true) (call : Nat) (text : Str)
    (locale : Locale) : ∀ s ∈ d.detect text locale,
    s ∈ (PiiPipeline.withDetectors d t slm threshold).detectSpans call text locale := by
  intro s hs
  have hin := (mergedSpans_spec d t ht call text locale).2.1 s hs
  cases slm with
  | none =>
      rw [detectSpans_none]
      exact hin
  | some slm =>
      rw [detectSpans_some, (sortSpans_perm _).mem_iff]
      refine List.mem_append_left _ (List.mem_filter.mpr ⟨hin, ?_⟩)
      rw [d.detect_confidence text locale s hs]
      exact hone.resolve_left (Option.some_ne_none _)

/-- Matches of the patterns are never lost, whatever the language model confirms, if
    and only if the threshold is at most one. -/
theorem patterns_kept_iff (ht : ∀ t', t = some t' → t'.Logistic) (call : Nat) (text : Str)
    (locale : Locale) (hsome : d.detect text locale ≠ []) :
    (∀ slm, ∀ s ∈ d.detect text locale,
      s ∈ (PiiPipeline.withDetectors d t (some slm) threshold).detectSpans call text locale) ↔
      F32.one.ge threshold = true := by
  constructor
  · intro hkept
    rcases List.exists_mem_of_ne_nil _ hsome with ⟨s, hs⟩
    -- a model that confirms nothing leaves what is above the threshold
    have hs' := hkept ⟨fun _ _ _ _ => none, fun _ _ _ => some []⟩ s hs
    rw [detectSpans_some] at hs'
    have hnothing : ∀ low, (SlmSidecar.mk (fun _ _ _ _ => none)
        fun _ _ _ => some []).disambiguate call text low = [] := fun low => by
      unfold SlmSidecar.disambiguate
      split
      · rfl
      · rfl
    rw [hnothing, List.append_nil, (sortSpans_perm _).mem_iff, List.mem_filter,
      d.detect_confidence text locale s hs] at hs'
    exact hs'.2
  · intro hone slm
    exact detectSpans_keeps d t (some slm) threshold ht (.inr hone) call text locale

end Tiers

/-- A language model that confirms nothing. -/
def deafSlm : SlmSidecar where
  replace _ _ _ _ := none
  confirm _ _ _ := some []

/-- An entity model that takes the first two bytes of a text for a name, and is not sure. -/
def firstWordTagger : Tier2Detector where
  model :=
    { offsets := fun _ _ => some [(textByteOffset nerLabels, textByteOffset nerLabels + 2)]
      run := fun _ _ => some ⟨[1, 1, 1, 5], fun i => if i = [0, 0, 0, 0] then some F32.one else none⟩
      timesOut := fun _ => false
      sigmoid := fun x => if x = F32.one then ⟨0x3F19999A⟩ else ⟨0⟩ }
  confidenceThreshold := ⟨0x3F000000⟩

theorem firstWordTagger_logistic : firstWordTagger.Logistic := by
  intro x
  by_cases hx : x = F32.one
  · exact .inr (by rw [hx]; decide)
  · refine .inr ?_
    change F32.one.ge (if x = F32.one then _ else _) = true
    rw [if_neg hx]
    decide

/-- With the threshold of the default configuration, an address is not lost on any language
    model; the name, which is below it, is lost on one that confirms nothing. -/
theorem patterns_kept_address :
    F32.one.ge ⟨0x3F333333⟩ = true ∧
      (∀ slm, ∀ s ∈ sampleDetector.detect (lit "to a@b.io") .enUs,
        s ∈ (PiiPipeline.withDetectors sampleDetector (some firstWordTagger) (some slm)
          ⟨0x3F333333⟩).detectSpans 0 (lit "to a@b.io") .enUs) ∧
      mergedSpans sampleDetector (some firstWordTagger) 0 (lit "to a@b.io") .enUs =
        [⟨0, 2, .custom (lit "person name"), ⟨0x3F19999A⟩, 2⟩, ⟨3, 9, .email, F32.one, 1⟩] ∧
      (PiiPipeline.withDetectors sampleDetector (some firstWordTagger) (some deafSlm)
        ⟨0x3F333333⟩).detectSpans 0 (lit "to a@b.io") .enUs =
          [⟨3, 9, .email, F32.one, 1⟩] := by
  refine ⟨by decide, ?_, by decide +kernel, by decide +kernel⟩
  exact (patterns_kept_iff sampleDetector (some firstWordTagger) ⟨0x3F333333⟩
    (fun _ ht => Option.some.inj ht ▸ firstWordTagger_logistic) 0 (lit "to a@b.io") .enUs
    (by decide)).mpr (by decide)

end PrivacyClaw
