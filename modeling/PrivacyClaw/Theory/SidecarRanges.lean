import Mathlib.Data.List.Infix
import PrivacyClaw.Lib.Greedy
import PrivacyClaw.Theory.Offsets

/-!
# Ranges of the Sidecar

Which parts of a text the sidecar replaces.

The overlap test asks only whether an end of a candidate lies inside a taken
range. A range strictly inside the candidate would pass, but then it would be
shorter, and shorter strings come later. So the two loops select greedily from
the matches, longest first, by a test that sees every overlap
(`disjoint_of_not_touches`), and what they return is disjoint.

A match of the list stands if every match of a string before it that it
overlaps yields, and yields if it overlaps one that stands (`Greedy.Stands`).
What the loops return are the matches that stand (`results_stand`).

Not every occurrence is among the matches. One that overlaps a match of the
same string on its left is stepped over. When that match yields to one that
ends in front of the occurrence, nothing looks at the occurrence again, and
whether a range overlaps it depends on what else is listed
(`resolveReplacements_covers_iff`). A string that overlaps itself nowhere has
no such occurrence.

## Main definitions

* `matchRange`, `touching`: The range of a match, and the test for two.
* `Selected`: The loop state as a greedy selection.
* `IsMatch`, `Blocks`: The matches of a text, and which keeps which out.

## Theorems

* `Selected.addMatch`, `selected_resolve`: The step and the run.
* `resolveReplacements_disjoint`: The ranges that are returned.
* `blocks_iff`: What a match touches in front of it.
* `results_stand`: What is returned, by the overlaps of the matches.
* `covered_iff`, `covers_iff`: One occurrence, and all of them.
* `covers_of_borderless`: Strings that do not overlap themselves.
* `resolveReplacements_covers_iff`: When every occurrence is covered.
-/

namespace PrivacyClaw

/-- The range of a match. -/
def matchRange (m : PyStr × Nat) : Nat × Nat := (m.2, m.2 + m.1.length)

/-- The overlap test for two matches. -/
def touching (d m : PyStr × Nat) : Bool := overlapping [matchRange d] m.2 (m.2 + m.1.length)

/-- The state after some matches, when `out` was selected of them. -/
structure Selected (out : List (PyStr × Nat)) (st : Resolver) : Prop where
  covered : st.covered = out.map matchRange
  results : st.results.map (fun r => (r.original, r.start)) = out
  stop : ∀ r ∈ st.results, r.stop = r.start + r.original.length

theorem overlapping_map (out : List (PyStr × Nat)) (m : PyStr × Nat) :
    overlapping (out.map matchRange) m.2 (m.2 + m.1.length) =
      out.any fun d => touching d m := by
  unfold touching overlapping
  rw [List.any_map]
  refine congrArg out.any ?_
  funext d
  rw [List.any_cons, List.any_nil, Bool.or_false]
  rfl

theorem touching_iff (d m : PyStr × Nat) : touching d m = true ↔
    (d.2 ≤ m.2 ∧ m.2 < d.2 + d.1.length) ∨
      (d.2 < m.2 + m.1.length ∧ m.2 + m.1.length ≤ d.2 + d.1.length) := by
  simp only [touching, overlapping, matchRange, List.any_cons, List.any_nil, Bool.or_false,
    Bool.or_eq_true, Bool.and_eq_true, decide_eq_true_eq]

/-- Against a match that is not shorter the test sees every overlap. -/
theorem disjoint_of_not_touches (d m : PyStr × Nat) (hlen : m.1.length ≤ d.1.length)
    (h : touching d m = false) :
    d.2 + d.1.length ≤ m.2 ∨ m.2 + m.1.length ≤ d.2 := by
  rw [← Bool.not_eq_true, touching_iff] at h
  omega

variable (env : SidecarEnv)

/-- One match is taken unless it touches one that was. -/
theorem Selected.addMatch (out : List (PyStr × Nat)) (st : Resolver) (m : PyStr × Nat)
    (hst : Selected out st) :
    Selected (Greedy.select touching out [m]) (addMatch env m.1 st m.2) := by
  unfold PrivacyClaw.addMatch
  dsimp only
  rw [hst.covered, overlapping_map]
  by_cases h : (out.any fun d => touching d m) = true
  · rw [Greedy.select_cons_of_clash touching out [] m (List.any_eq_true.mp h)]
    rw [if_pos h]
    exact hst
  · have hfree : ∀ d ∈ out, touching d m = false := by
      rw [Bool.not_eq_true, List.any_eq_false] at h
      exact fun d hd => Bool.eq_false_iff.mpr (h d hd)
    rw [Greedy.select_cons_of_free touching out [] m hfree]
    rw [if_neg h]
    refine ⟨by rw [Greedy.select, List.foldl_nil, List.map_append]; rfl, ?_, ?_⟩
    · rw [List.map_append, hst.results]
      rfl
    · intro r hr
      rcases List.mem_append.mp hr with hr | hr
      · exact hst.stop r hr
      · rw [List.mem_singleton.mp hr]

theorem selected_foldl (ms : List (PyStr × Nat)) :
    ∀ (out : List (PyStr × Nat)) (st : Resolver), Selected out st →
      Selected (Greedy.select touching out ms)
        (ms.foldl (fun st m => addMatch env m.1 st m.2) st) := by
  induction ms with
  | nil => exact fun _ _ hst => hst
  | cons m ms ih =>
      intro out st hst
      have h := ih _ _ (hst.addMatch env out st m)
      rw [← Greedy.select_append] at h
      exact h

/-- The loops select greedily from the matches. -/
theorem selected_resolve (text : PyStr) (piiStrings : List PyStr) :
    Selected (Greedy.select touching [] (allMatches env text piiStrings))
      (resolve env text piiStrings) := by
  rw [resolve_eq_foldl]
  exact selected_foldl env _ [] ⟨[], []⟩
    ⟨rfl, rfl, fun r hr => absurd hr List.not_mem_nil⟩

/-- The matches of longer strings come first. -/
theorem allMatches_pairwise (text : PyStr) (piiStrings : List PyStr) :
    (allMatches env text piiStrings).Pairwise (fun d m => m.1.length ≤ d.1.length) := by
  have hstring : ∀ p, ∀ m ∈ stringMatches text p, m.1 = p := by
    intro p m hm
    unfold stringMatches at hm
    by_cases hp : p.isEmpty
    · rw [if_pos hp] at hm
      exact absurd hm List.not_mem_nil
    · rw [if_neg hp, List.mem_map] at hm
      rcases hm with ⟨s, _, rfl⟩
      rfl
  have htotal : Std.Total (fun a b : PyStr => b.length ≤ a.length) :=
    ⟨fun a b => Nat.le_total b.length a.length⟩
  have htrans : IsTrans PyStr (fun a b => b.length ≤ a.length) :=
    ⟨fun _ _ _ hab hbc => Nat.le_trans hbc hab⟩
  rw [allMatches, List.pairwise_flatMap]
  constructor
  · intro p _
    refine List.pairwise_of_forall_mem_list ?_
    intro d hd m hm
    rw [hstring p d hd, hstring p m hm]
  · refine (List.pairwise_insertionSort _ _).imp ?_
    intro p q hpq d hd m hm
    rw [hstring p d hd, hstring q m hm]
    exact hpq

/-- What is returned is sorted, disjoint and not empty, and every entry
    records what stands in its range. -/
theorem resolveReplacements_disjoint (text : PyStr) (piiStrings : List PyStr) :
    (resolveReplacements env text piiStrings).Pairwise
      (fun a b => a.start ≤ b.start ∧ a.stop ≤ b.start) ∧
    ∀ r ∈ resolveReplacements env text piiStrings,
      r.start < r.stop ∧ r.stop ≤ text.length ∧ (text.take r.stop).drop r.start = r.original := by
  have hentry : ∀ r ∈ resolveReplacements env text piiStrings,
      r.start < r.stop ∧ r.stop ≤ text.length ∧
        (text.take r.stop).drop r.start = r.original := by
    intro r hr
    rcases mem_resolveReplacements env text piiStrings r hr with ⟨_, hne, hscan, hstop⟩
    have hpos := List.length_pos_iff.mpr hne
    have hocc := Search.mem_scan r.original text r.start hscan
    have hle := hocc.length_le
    rw [List.length_drop] at hle
    refine ⟨by omega, by omega, ?_⟩
    rw [List.drop_take, hstop, Nat.add_sub_cancel_left]
    exact (List.prefix_iff_eq_take.mp hocc).symm
  refine ⟨?_, hentry⟩
  -- In the order of the loops, a later match is not longer and touches none.
  have hsel := selected_resolve env text piiStrings
  rcases @Greedy.select_sublist _ touching (allMatches env text piiStrings) [] with
    ⟨kept, hkept, hsub⟩
  rw [List.nil_append] at hkept
  have hfree := @Greedy.pairwise_select _ touching (allMatches env text piiStrings) []
    List.Pairwise.nil
  rw [hkept] at hfree hsel
  have hmatches : kept.Pairwise fun d m =>
      d.2 + d.1.length ≤ m.2 ∨ m.2 + m.1.length ≤ d.2 :=
    (hfree.and ((allMatches_pairwise env text piiStrings).sublist hsub)).imp
      fun h => disjoint_of_not_touches _ _ h.2 h.1
  have hresults : (resolve env text piiStrings).results.Pairwise fun a b =>
      a.stop ≤ b.start ∨ b.stop ≤ a.start := by
    rw [← hsel.results, List.pairwise_map] at hmatches
    refine hmatches.imp_of_mem ?_
    intro a b ha hb hab
    rw [hsel.stop a ha, hsel.stop b hb]
    exact hab
  -- Sorting keeps that, and puts the ranges in order.
  have htotal : Std.Total (fun a b : Replacement => a.start ≤ b.start) :=
    ⟨fun a b => Nat.le_total a.start b.start⟩
  have htrans : IsTrans Replacement (fun a b => a.start ≤ b.start) :=
    ⟨fun _ _ _ hab hbc => Nat.le_trans hab hbc⟩
  have hsorted : (resolveReplacements env text piiStrings).Pairwise
      (fun a b => a.start ≤ b.start) := List.pairwise_insertionSort _ _
  have hdisjoint : (resolveReplacements env text piiStrings).Pairwise fun a b =>
      a.stop ≤ b.start ∨ b.stop ≤ a.start :=
    hresults.perm (List.perm_insertionSort _ _).symm fun h => h.symm
  refine (hsorted.and hdisjoint).imp_of_mem ?_
  intro a b _ hb hab
  have := (hentry b hb).1
  exact ⟨hab.1, by omega⟩

/-- Two strings, each at its place in the text, have a character in common. -/
def Overlap (x m : PyStr × Nat) : Prop := x.2 < m.2 + m.1.length ∧ m.2 < x.2 + x.1.length

/-- A match of a listed string, as `re.finditer` goes through the text. -/
def IsMatch (text : PyStr) (piiStrings : List PyStr) (m : PyStr × Nat) : Prop :=
  m.1 ∈ piiStrings ∧ m.1 ≠ [] ∧ m.2 ∈ Search.scan m.1 text

/-- The first string comes before the second: it is longer, or as long and sorted before. -/
def Before (piiStrings : List PyStr) (q p : PyStr) : Prop :=
  (uniquePii env piiStrings).idxOf q < (uniquePii env piiStrings).idxOf p

/-- A match of a string that comes before, and overlaps. -/
def Blocks (text : PyStr) (piiStrings : List PyStr) (x m : PyStr × Nat) : Prop :=
  IsMatch text piiStrings x ∧ Before env piiStrings x.1 m.1 ∧ Overlap x m

theorem uniquePii_before (piiStrings : List PyStr) :
    (uniquePii env piiStrings).Pairwise (Before env piiStrings) := by
  have hnodup : (uniquePii env piiStrings).Nodup :=
    (((List.perm_insertionSort _ _).trans (env.set.perm piiStrings)).nodup_iff).mpr
      (List.nodup_dedup piiStrings)
  unfold Before
  rw [List.pairwise_iff_getElem]
  intro i j hi hj hij
  rw [hnodup.idxOf_getElem i hi, hnodup.idxOf_getElem j hj]
  exact hij

/-- The matches of one string do not touch each other. -/
theorem stringMatches_pairwise (text p : PyStr) :
    (stringMatches text p).Pairwise fun d m => touching d m = false := by
  unfold stringMatches
  by_cases hp : p.isEmpty
  · rw [if_pos hp]
    exact List.Pairwise.nil
  · have hne : p ≠ [] := fun h => hp (List.isEmpty_iff.mpr h)
    have hpos := List.length_pos_iff.mpr hne
    rw [if_neg hp, List.pairwise_map]
    refine (Search.scan_pairwise p text hne).imp ?_
    intro i j hij
    rw [← Bool.not_eq_true, touching_iff]
    dsimp only
    omega

/-- Matches of one string do not touch; of two strings one comes before. -/
theorem allMatches_before (text : PyStr) (piiStrings : List PyStr) :
    (allMatches env text piiStrings).Pairwise fun d m =>
      touching d m = false ∧ d.1 = m.1 ∨ Before env piiStrings d.1 m.1 := by
  have hfst : ∀ p, ∀ m ∈ stringMatches text p, m.1 = p := by
    intro p m hm
    unfold stringMatches at hm
    by_cases hp : p.isEmpty
    · rw [if_pos hp] at hm
      exact absurd hm List.not_mem_nil
    · rw [if_neg hp, List.mem_map] at hm
      rcases hm with ⟨s, _, rfl⟩
      rfl
  rw [allMatches, List.pairwise_flatMap]
  constructor
  · intro p _
    refine (stringMatches_pairwise text p).imp_of_mem ?_
    intro d m hd hm hfree
    exact .inl ⟨hfree, (hfst p d hd).trans (hfst p m hm).symm⟩
  · refine (uniquePii_before env piiStrings).imp ?_
    intro p q hpq d hd m hm
    rw [hfst p d hd, hfst q m hm]
    exact .inr hpq

/-- In the order of the loops, a match is blocked by what it touches in front of it. -/
theorem blocks_iff (text : PyStr) (piiStrings : List PyStr) (l₁ : List (PyStr × Nat))
    (x : PyStr × Nat) (l₂ : List (PyStr × Nat))
    (hl : allMatches env text piiStrings = l₁ ++ x :: l₂) (y : PyStr × Nat) :
    Blocks env text piiStrings y x ↔ y ∈ l₁ ∧ touching y x = true := by
  have hbefore := allMatches_before env text piiStrings
  have hlength := allMatches_pairwise env text piiStrings
  have hmatch : ∀ m ∈ allMatches env text piiStrings, IsMatch text piiStrings m := fun m hm =>
    (mem_allMatches env text piiStrings m.1 m.2).mp hm
  have hx : x ∈ allMatches env text piiStrings := by
    rw [hl]
    exact List.mem_append_right _ List.mem_cons_self
  have hpos := List.length_pos_iff.mpr (hmatch x hx).2.1
  rw [hl] at hbefore hlength
  rcases List.pairwise_append.mp hbefore with ⟨_, hbehind, hfront⟩
  constructor
  · rintro ⟨hy, hyx, hover⟩
    have hin := (mem_allMatches env text piiStrings y.1 y.2).mpr hy
    rw [hl] at hin
    have hfirst : y ∈ l₁ := by
      rcases List.mem_append.mp hin with hin | hin
      · exact hin
      · -- not itself, nor behind it
        unfold Before at hyx
        rcases List.mem_cons.mp hin with rfl | hin
        · exact absurd hyx (Nat.lt_irrefl _)
        · rcases (List.pairwise_cons.mp hbehind).1 y hin with ⟨_, he⟩ | hlt
          · rw [he] at hyx
            exact absurd hyx (Nat.lt_irrefl _)
          · exact absurd hyx (Nat.lt_asymm hlt)
    refine ⟨hfirst, ?_⟩
    by_contra hfree
    have := disjoint_of_not_touches y x
      ((List.pairwise_append.mp hlength).2.2 y hfirst x List.mem_cons_self)
      (Bool.eq_false_iff.mpr hfree)
    unfold Overlap at hover
    omega
  · rintro ⟨hy, htouch⟩
    have hyall : y ∈ allMatches env text piiStrings := by
      rw [hl]
      exact List.mem_append_left _ hy
    have hypos := List.length_pos_iff.mpr (hmatch y hyall).2.1
    refine ⟨hmatch y hyall, ?_, ?_⟩
    · rcases hfront y hy x List.mem_cons_self with ⟨hfree, _⟩ | hlt
      · rw [htouch] at hfree
        exact absurd hfree (by decide)
      · exact hlt
    · rw [touching_iff] at htouch
      unfold Overlap
      omega

/-- What is returned are the matches that stand, and every other one yields. -/
theorem results_stand (text : PyStr) (piiStrings : List PyStr) (m : PyStr × Nat)
    (hm : IsMatch text piiStrings m) :
    ((∃ r ∈ resolveReplacements env text piiStrings, (r.original, r.start) = m) ↔
      Greedy.Stands (Blocks env text piiStrings) m) ∧
    (Greedy.Stands (Blocks env text piiStrings) m ∨
      Greedy.Yields (Blocks env text piiStrings) m) := by
  have hin := (mem_allMatches env text piiStrings m.1 m.2).mpr hm
  have hnodup : (allMatches env text piiStrings).Nodup := by
    refine (allMatches_before env text piiStrings).imp_of_mem ?_
    rintro a b ha _ hab rfl
    have hpos := List.length_pos_iff.mpr
      ((mem_allMatches env text piiStrings a.1 a.2).mp ha).2.1
    rcases hab with ⟨hfree, _⟩ | hlt
    · have htouch : touching a a = true := (touching_iff a a).mpr (by omega)
      rw [htouch] at hfree
      exact absurd hfree (by decide)
    · exact absurd hlt (Nat.lt_irrefl _)
  have hresults : (∃ r ∈ resolveReplacements env text piiStrings, (r.original, r.start) = m) ↔
      m ∈ Greedy.select touching [] (allMatches env text piiStrings) := by
    rw [← (selected_resolve env text piiStrings).results, List.mem_map]
    refine exists_congr fun r => and_congr_left fun _ => ?_
    rw [resolveReplacements, List.mem_insertionSort]
  rw [hresults]
  rcases @Greedy.select_stands _ touching (allMatches env text piiStrings) hnodup
    (Blocks env text piiStrings) (blocks_iff env text piiStrings) m hin with
    ⟨hkept, hstands, _⟩ | ⟨hout, hyields, hnot⟩
  · exact ⟨iff_of_true hkept hstands, .inl hstands⟩
  · exact ⟨iff_of_false hout hnot, .inr hyields⟩

/-- A result that overlaps an occurrence is a match that stands. -/
theorem covered_iff (text : PyStr) (piiStrings : List PyStr) (p : PyStr) (i : Nat) :
    (∃ r ∈ resolveReplacements env text piiStrings, r.start < i + p.length ∧ i < r.stop) ↔
      ∃ y, IsMatch text piiStrings y ∧ Overlap y (p, i) ∧
        Greedy.Stands (Blocks env text piiStrings) y := by
  constructor
  · rintro ⟨r, hr, hover⟩
    rcases mem_resolveReplacements env text piiStrings r hr with ⟨hp, hne, hscan, hstop⟩
    rw [hstop] at hover
    have hm : IsMatch text piiStrings (r.original, r.start) := ⟨hp, hne, hscan⟩
    exact ⟨_, hm, hover, (results_stand env text piiStrings _ hm).1.mp ⟨r, hr, rfl⟩⟩
  · rintro ⟨y, hy, hover, hstands⟩
    rcases (results_stand env text piiStrings y hy).1.mpr hstands with ⟨r, hr, rfl⟩
    refine ⟨r, hr, ?_⟩
    rw [(mem_resolveReplacements env text piiStrings r hr).2.2.2]
    exact hover

/-- An occurrence that is no match lies behind a match of its string; where that one yields to
    one that ends in front of the occurrence, it has to overlap another that stands. -/
theorem covers_iff (text : PyStr) (piiStrings : List PyStr) :
    (∀ p ∈ piiStrings, p ≠ [] → ∀ i, p <+: text.drop i →
      ∃ r ∈ resolveReplacements env text piiStrings, r.start < i + p.length ∧ i < r.stop) ↔
    ∀ p j i, IsMatch text piiStrings (p, j) → p <+: text.drop i → j < i → i < j + p.length →
      (∃ x, Blocks env text piiStrings x (p, j) ∧
        Greedy.Stands (Blocks env text piiStrings) x ∧ x.2 + x.1.length ≤ i) →
      ∃ y, IsMatch text piiStrings y ∧ Overlap y (p, i) ∧
        Greedy.Stands (Blocks env text piiStrings) y := by
  constructor
  · intro hall p j i hm hocc _ _ _
    exact (covered_iff env text piiStrings p i).mp (hall p hm.1 hm.2.1 i hocc)
  · intro hcond p hp hne i hocc
    rw [covered_iff]
    rcases Search.scan_cover p text i hne hocc with ⟨j, hj, hji, hij⟩
    have hm : IsMatch text piiStrings (p, j) := ⟨hp, hne, hj⟩
    have hself : Overlap (p, j) (p, i) := by
      unfold Overlap
      dsimp only
      omega
    rcases (results_stand env text piiStrings (p, j) hm).2 with hstands | hyields
    · exact ⟨(p, j), hm, hself, hstands⟩
    · rcases hyields with ⟨_, x, hblocks, hstands⟩
      by_cases hend : x.2 + x.1.length ≤ i
      · -- the match yields to one in front of the occurrence
        have hlt : j < i := by
          have := hblocks.2.2.2
          dsimp only at this
          omega
        exact hcond p j i hm hocc hlt hij ⟨x, hblocks, hstands, hend⟩
      · refine ⟨x, hblocks.1, ?_, hstands⟩
        have := hblocks.2.2.1
        unfold Overlap
        dsimp only at this ⊢
        omega

/-- Strings that overlap themselves nowhere leave no occurrence uncovered. -/
theorem covers_of_borderless (text : PyStr) (piiStrings : List PyStr)
    (hborder : ∀ p ∈ piiStrings, ∀ d, 0 < d → d < p.length → ¬ p.drop d <+: p) :
    ∀ p ∈ piiStrings, p ≠ [] → ∀ i, p <+: text.drop i →
      ∃ r ∈ resolveReplacements env text piiStrings, r.start < i + p.length ∧ i < r.stop := by
  refine (covers_iff env text piiStrings).mpr ?_
  intro p j i hm hocc hji hij _
  -- both occurrences cover the characters from `i` on
  have hdrop : p.drop (i - j) <+: text.drop i := by
    have h := (Search.mem_scan p text j hm.2.2).drop (i - j)
    rwa [List.drop_drop, Nat.add_sub_cancel' (Nat.le_of_lt hji)] at h
  refine absurd (List.prefix_of_prefix_length_le hdrop hocc ?_)
    (hborder p hm.1 (i - j) (by omega) (by omega))
  rw [List.length_drop]
  omega

/-- Every occurrence of every listed string overlaps a result exactly if this holds: where a
    string occurs again inside its own match, and the match yields to one that ends in front
    of the second occurrence, a match that stands overlaps that occurrence. It holds where no
    listed string overlaps itself. -/
theorem resolveReplacements_covers_iff (text : PyStr) (piiStrings : List PyStr) :
    ((∀ p ∈ piiStrings, p ≠ [] → ∀ i, p <+: text.drop i →
        ∃ r ∈ resolveReplacements env text piiStrings, r.start < i + p.length ∧ i < r.stop) ↔
      ∀ p j i, IsMatch text piiStrings (p, j) → p <+: text.drop i → j < i → i < j + p.length →
        (∃ x, Blocks env text piiStrings x (p, j) ∧
          Greedy.Stands (Blocks env text piiStrings) x ∧ x.2 + x.1.length ≤ i) →
        ∃ y, IsMatch text piiStrings y ∧ Overlap y (p, i) ∧
          Greedy.Stands (Blocks env text piiStrings) y) ∧
    ((∀ p ∈ piiStrings, ∀ d, 0 < d → d < p.length → ¬ p.drop d <+: p) →
      ∀ p ∈ piiStrings, p ≠ [] → ∀ i, p <+: text.drop i →
        ∃ r ∈ resolveReplacements env text piiStrings, r.start < i + p.length ∧ i < r.stop) :=
  ⟨covers_iff env text piiStrings, covers_of_borderless env text piiStrings⟩

/-- A longer string takes the head of a run of digits; the shorter one is found
    there and skipped, and the rest of the run is never looked at. -/
theorem resolveReplacements_not_covers :
    (resolveReplacements sampleSidecar "No. 7171717".toList
      ["No. 71".toList, "7171".toList]).map (fun r => (r.start, r.stop)) = [(0, 6)] ∧
    ¬ ∀ (env : SidecarEnv) (text : PyStr) (piiStrings : List PyStr),
      ∀ p ∈ piiStrings, p ≠ [] → ∀ i, p <+: text.drop i →
        ∃ r ∈ resolveReplacements env text piiStrings, r.start < i + p.length ∧ i < r.stop := by
  have hrun : (resolveReplacements sampleSidecar "No. 7171717".toList
      ["No. 71".toList, "7171".toList]).map (fun r => (r.start, r.stop)) = [(0, 6)] := by
    decide
  refine ⟨hrun, ?_⟩
  intro hall
  rcases hall sampleSidecar "No. 7171717".toList ["No. 71".toList, "7171".toList] "7171".toList
    (by decide) (by decide) 6 (by decide) with ⟨r, hr, _, hlt⟩
  have hmem := @List.mem_map_of_mem _ _ _ _ (fun r : Replacement => (r.start, r.stop)) hr
  rw [hrun, List.mem_singleton, Prod.mk.injEq] at hmem
  omega

end PrivacyClaw
