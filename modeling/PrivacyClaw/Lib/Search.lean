import Mathlib.Data.List.Basic

/-!
# Subsequence Search

First-occurrence search in a list, and the facts about occurrences that a
scanner needs.

`find` returns the offset of the first occurrence of a pattern. A scanner
that looks for fixed delimiters asks two questions about a concatenation: is
the first occurrence of the delimiter the one that was put there, and can an
occurrence straddle the seam. Both have a short answer when the first symbol
of the delimiter does not come back inside it, which `HeadOnly` says: an
occurrence that started earlier would have to show that symbol a second time.

## Main definitions

* `find`, `rfind`: The offset of the first and of the last occurrence of a
  pattern.
* `HeadOnly`: The first symbol of the pattern occurs nowhere else in it.

## Theorems

* `find_eq_none_iff`: Nothing is found exactly when the pattern is no infix.
* `find_eq_some`: What is found is an occurrence, and no earlier one exists.
* `find_of_first`: An occurrence with none before it is the one found.
* `find_split`: What is found splits the list.
* `find_append_of_some`: It stays the first occurrence when the list goes on.
* `rfind_eq_some`, `rfind_of_last`: The same for the last occurrence.
* `headOnly_not_straddle`: No occurrence runs from a list into the pattern.
* `not_infix_append`: A seam without straddling occurrences adds none.
* `infix_separated`: A symbol outside the pattern separates.
* `find_append_headOnly`: The pattern put after a clean prefix is found there.
* `find_append_iff`: When a pattern is found where it was put.
-/

namespace Search

variable {α : Type*} [DecidableEq α]

/-- The offset of the first occurrence of `pat`, or `none`. -/
def find (pat : List α) : List α → Option Nat
  | [] => if pat = [] then some 0 else none
  | c :: s => if pat.isPrefixOf (c :: s) then some 0 else (find pat s).map (· + 1)

/-- The offset of the last occurrence of `pat`, or `none`. -/
def rfind (pat : List α) : List α → Option Nat
  | [] => if pat = [] then some 0 else none
  | c :: s =>
    match rfind pat s with
    | some i => some (i + 1)
    | none => if pat.isPrefixOf (c :: s) then some 0 else none

theorem find_eq_none_iff (pat : List α) : ∀ s, find pat s = none ↔ ¬ pat <:+: s := by
  intro s
  induction s with
  | nil =>
      simp only [find, List.infix_nil]
      by_cases h : pat = []
      · simp only [h, if_true, reduceCtorEq, not_true_eq_false]
      · simp only [h, if_false, not_false_eq_true]
  | cons c s ih =>
      simp only [find, List.isPrefixOf_iff_prefix, List.infix_cons_iff]
      by_cases h : pat <+: c :: s
      · simp only [h, if_true, reduceCtorEq, true_or, not_true_eq_false]
      · simp only [h, if_false, Option.map_eq_none_iff, ih, false_or]

theorem rfind_eq_none_iff (pat : List α) : ∀ s, rfind pat s = none ↔ ¬ pat <:+: s := by
  intro s
  induction s with
  | nil =>
      simp only [rfind, List.infix_nil]
      by_cases h : pat = []
      · simp only [h, if_true, reduceCtorEq, not_true_eq_false]
      · simp only [h, if_false, not_false_eq_true]
  | cons c s ih =>
      rw [rfind, List.infix_cons_iff]
      cases hs : rfind pat s with
      | some k =>
          rw [hs] at ih
          simp only [reduceCtorEq, false_iff, not_not] at ih ⊢
          exact Or.inr ih
      | none =>
          have hin := ih.mp hs
          simp only [List.isPrefixOf_iff_prefix]
          by_cases hp : pat <+: c :: s
          · simp only [hp, if_true, reduceCtorEq, true_or, not_true_eq_false]
          · simp only [hp, if_false, hin, or_self, not_false_eq_true]

/-- What `find` returns is an occurrence, and no occurrence starts before it. -/
theorem find_eq_some (pat : List α) : ∀ s i, find pat s = some i →
    pat <+: s.drop i ∧ i ≤ s.length ∧ ∀ j, j < i → ¬ pat <+: s.drop j := by
  intro s
  induction s with
  | nil =>
      intro i h
      simp only [find] at h
      by_cases hp : pat = []
      · simp only [hp, if_true, Option.some.injEq] at h
        subst h
        exact ⟨by rw [hp]; exact List.nil_prefix, Nat.le_refl _, fun j hj => absurd hj (by omega)⟩
      · simp only [hp, if_false, reduceCtorEq] at h
  | cons c s ih =>
      intro i h
      simp only [find, List.isPrefixOf_iff_prefix] at h
      by_cases hp : pat <+: c :: s
      · simp only [hp, if_true, Option.some.injEq] at h
        subst h
        exact ⟨hp, Nat.zero_le _, fun j hj => absurd hj (by omega)⟩
      · simp only [hp, if_false, Option.map_eq_some_iff] at h
        rcases h with ⟨k, hk, rfl⟩
        rcases ih k hk with ⟨h1, h2, h3⟩
        refine ⟨h1, by simp only [List.length_cons]; omega, fun j hj => ?_⟩
        cases j with
        | zero => exact hp
        | succ j => exact h3 j (by omega)

/-- An occurrence with none before it is the one `find` returns. -/
theorem find_of_first (pat s : List α) (i : Nat) (hi : pat <+: s.drop i)
    (hfirst : ∀ j, j < i → ¬ pat <+: s.drop j) : find pat s = some i := by
  cases h : find pat s with
  | none =>
      refine absurd ?_ ((find_eq_none_iff pat s).mp h)
      exact hi.isInfix.trans (List.drop_suffix i s).isInfix
  | some k =>
      rcases find_eq_some pat s k h with ⟨hk, _, hkfirst⟩
      have h1 : ¬ k < i := fun hlt => hfirst k hlt hk
      have h2 : ¬ i < k := fun hlt => hkfirst i hlt hi
      rw [Option.some.injEq]
      omega

/-- What is found splits the list, and the part before it does not hold the
    pattern. -/
theorem find_split (pat s : List α) (i : Nat) (hne : pat ≠ []) (h : find pat s = some i) :
    ∃ g r, s = g ++ (pat ++ r) ∧ g.length = i ∧ ¬ pat <:+: g := by
  rcases find_eq_some pat s i h with ⟨⟨r, hr⟩, hi, hfirst⟩
  refine ⟨s.take i, r, by rw [hr, List.take_append_drop], List.length_take_of_le hi, ?_⟩
  rintro ⟨a, b, hab⟩
  have hlen := congrArg List.length hab
  simp only [List.length_append, List.length_take] at hlen
  have hpos := List.length_pos_of_ne_nil hne
  refine hfirst a.length (by omega) ?_
  have hs : s = a ++ (pat ++ (b ++ s.drop i)) := by
    rw [← List.append_assoc, ← List.append_assoc, hab, List.take_append_drop]
  rw [hs, List.drop_left]
  exact List.prefix_append _ _

/-- What is found stays the first occurrence when the list goes on. -/
theorem find_append_of_some (pat s t : List α) (i : Nat) (h : find pat s = some i) :
    find pat (s ++ t) = some i := by
  rcases find_eq_some pat s i h with ⟨hocc, hi, hfirst⟩
  have hlen := hocc.length_le
  rw [List.length_drop] at hlen
  refine find_of_first pat _ i ?_ (fun j hj hpre => hfirst j hj ?_)
  · rw [List.drop_append_of_le_length hi]
    exact hocc.trans (List.prefix_append _ _)
  · rw [List.drop_append_of_le_length (by omega)] at hpre
    refine List.prefix_of_prefix_length_le hpre (List.prefix_append _ _) ?_
    rw [List.length_drop]
    omega

/-- What `rfind` returns is an occurrence, and none starts behind it. -/
theorem rfind_eq_some (pat : List α) (hne : pat ≠ []) : ∀ s i, rfind pat s = some i →
    pat <+: s.drop i ∧ ∀ j, i < j → ¬ pat <+: s.drop j := by
  intro s
  induction s with
  | nil =>
      intro i h
      rw [rfind, if_neg hne] at h
      exact absurd h (by simp only [reduceCtorEq, not_false_eq_true])
  | cons c s ih =>
      intro i h
      rw [rfind] at h
      -- An occurrence in the tail is further behind than one at the front.
      cases hs : rfind pat s with
      | some k =>
          rw [hs, Option.some.injEq] at h
          rcases ih k hs with ⟨h1, h2⟩
          rw [← h]
          refine ⟨h1, fun j hj => ?_⟩
          cases j with
          | zero => omega
          | succ j => exact h2 j (by omega)
      | none =>
          simp only [hs, List.isPrefixOf_iff_prefix] at h
          by_cases hp : pat <+: c :: s
          · rw [if_pos hp, Option.some.injEq] at h
            rw [← h]
            refine ⟨hp, fun j hj => ?_⟩
            cases j with
            | zero => omega
            | succ j =>
                intro hpre
                have hin : pat <:+: s := hpre.isInfix.trans (List.drop_suffix j s).isInfix
                exact (rfind_eq_none_iff pat s).mp hs hin
          · rw [if_neg hp] at h
            exact absurd h (by simp only [reduceCtorEq, not_false_eq_true])

/-- An occurrence with none behind it is the one `rfind` returns. -/
theorem rfind_of_last (pat s : List α) (i : Nat) (hne : pat ≠ []) (hi : pat <+: s.drop i)
    (hlast : ∀ j, i < j → ¬ pat <+: s.drop j) : rfind pat s = some i := by
  cases h : rfind pat s with
  | none =>
      refine absurd ?_ ((rfind_eq_none_iff pat s).mp h)
      exact hi.isInfix.trans (List.drop_suffix i s).isInfix
  | some k =>
      rcases rfind_eq_some pat hne s k h with ⟨hk, hklast⟩
      have h1 : ¬ i < k := fun hlt => hlast k hlt hk
      have h2 : ¬ k < i := fun hlt => hklast i hlt hi
      rw [Option.some.injEq]
      omega

/-- The first symbol of the pattern does not occur again inside it. -/
def HeadOnly : List α → Prop
  | [] => False
  | c :: t => c ∉ t

instance (pat : List α) : Decidable (HeadOnly pat) :=
  match pat with
  | [] => inferInstanceAs (Decidable False)
  | c :: t => inferInstanceAs (Decidable (c ∉ t))

omit [DecidableEq α] in
theorem HeadOnly.ne_nil {pat : List α} (h : HeadOnly pat) : pat ≠ [] := by
  rintro rfl
  exact h

omit [DecidableEq α] in
/-- No occurrence of a head-only pattern starts inside `a` and runs on into a
    list that begins with the pattern's first symbol. -/
theorem headOnly_not_straddle {pat l₁ l₂ : List α} {c : α} {t r : List α} (hp : HeadOnly pat)
    (hc : pat = c :: t) (heq : pat = l₁ ++ l₂) (h1 : l₁ ≠ []) (h2 : l₂ ≠ []) :
    ¬ l₂ <+: c :: r := by
  rintro ⟨z, hz⟩
  cases l₂ with
  | nil => exact h2 rfl
  | cons d l₂ =>
      have hdc : d = c := by
        simp only [List.cons_append, List.cons.injEq] at hz
        exact hz.1
      cases l₁ with
      | nil => exact h1 rfl
      | cons e l₁ =>
          rw [hc] at heq hp
          simp only [List.cons_append, List.cons.injEq] at heq
          refine hp ?_
          rw [heq.2, hdc]
          exact List.mem_append_right _ List.mem_cons_self

omit [DecidableEq α] in
/-- If neither side holds the pattern and no occurrence straddles the seam,
    the concatenation does not hold it either. -/
theorem not_infix_append {pat a b : List α} (ha : ¬ pat <:+: a) (hb : ¬ pat <:+: b)
    (hs : ∀ l₁ l₂, pat = l₁ ++ l₂ → l₁ ≠ [] → l₂ ≠ [] → l₁ <:+ a → ¬ l₂ <+: b) :
    ¬ pat <:+: a ++ b := by
  intro h
  rcases List.infix_append_iff_ne_nil.mp h with h | h | ⟨l₁, l₂, h1, h2, heq, hsa, hpb⟩
  · exact ha h
  · exact hb h
  · exact hs l₁ l₂ heq h1 h2 hsa hpb

omit [DecidableEq α] in
/-- A symbol that is not in the pattern separates: an occurrence lies on one
    side of it. -/
theorem infix_separated {pat a b : List α} {c : α} (hc : c ∉ pat) (h : pat <:+: a ++ c :: b) :
    pat <:+: a ∨ pat <:+: b := by
  rcases List.infix_append_iff_ne_nil.mp h with h | h | ⟨l₁, l₂, _, h2, heq, _, hpre⟩
  · exact Or.inl h
  · rcases List.infix_cons_iff.mp h with h | h
    · cases pat with
      | nil => exact Or.inl List.nil_infix
      | cons d t =>
          rcases h with ⟨z, hz⟩
          rw [List.cons_append, List.cons.injEq] at hz
          exact absurd (hz.1 ▸ List.mem_cons_self) hc
    · exact Or.inr h
  · -- a straddling occurrence would have to show the separator
    cases l₂ with
    | nil => exact absurd rfl h2
    | cons d l₂ =>
        rcases hpre with ⟨z, hz⟩
        rw [List.cons_append, List.cons.injEq] at hz
        refine absurd ?_ hc
        rw [heq, ← hz.1]
        exact List.mem_append_right _ List.mem_cons_self

/-- A head-only pattern put after a prefix that does not hold it is found
    exactly there. -/
theorem find_append_headOnly (pat g r : List α) (hp : HeadOnly pat) (hg : ¬ pat <:+: g) :
    find pat (g ++ (pat ++ r)) = some g.length := by
  refine find_of_first pat _ _ ?_ ?_
  · rw [List.drop_left]
    exact List.prefix_append pat r
  · intro j hj hpre
    rw [List.drop_append_of_le_length (by omega)] at hpre
    -- An earlier occurrence lies inside `g` or shows the head symbol twice.
    cases hpc : pat with
    | nil => exact hp.ne_nil hpc
    | cons c t =>
        by_cases hlen : pat.length ≤ (g.drop j).length
        · have hpg : pat <+: g.drop j :=
            List.prefix_of_prefix_length_le hpre (List.prefix_append _ _) hlen
          exact hg (hpg.isInfix.trans (List.drop_suffix j g).isInfix)
        · -- The occurrence covers `g.drop j` and goes on into the pattern.
          have hgp : g.drop j <+: pat :=
            List.prefix_of_prefix_length_le (List.prefix_append _ _) hpre (by omega)
          rcases hgp with ⟨l₂, hl₂⟩
          have hne1 : g.drop j ≠ [] := by
            intro hnil
            have := congrArg List.length hnil
            simp only [List.length_drop, List.length_nil] at this
            omega
          have hne2 : l₂ ≠ [] := by
            rintro rfl
            rw [List.append_nil] at hl₂
            rw [← hl₂] at hlen
            exact hlen (Nat.le_refl _)
          have hpre2 : l₂ <+: pat ++ r := by
            rw [← hl₂, List.prefix_append_right_inj, hl₂] at hpre
            exact hpre
          rw [hpc, List.cons_append] at hpre2
          exact headOnly_not_straddle hp hpc hl₂.symm hne1 hne2 hpre2

/-- A pattern is found where it was put exactly when, without its last symbol,
    it and what stands in front of it do not hold the pattern. -/
theorem find_append_iff (pat g r : List α) (hne : pat ≠ []) :
    find pat (g ++ (pat ++ r)) = some g.length ↔ ¬ pat <:+: g ++ pat.dropLast := by
  have hpos := List.length_pos_of_ne_nil hne
  have hlen : (g ++ pat.dropLast).length + 1 = g.length + pat.length := by
    rw [List.length_append, List.length_dropLast]
    omega
  have hpre : g ++ pat.dropLast <+: g ++ (pat ++ r) :=
    (List.prefix_append_right_inj g).mpr ((List.dropLast_prefix pat).trans (List.prefix_append _ _))
  rcases hpre with ⟨z, hz⟩
  constructor
  · rintro hfind ⟨a, b, hab⟩
    have hlab := congrArg List.length hab
    rw [List.length_append, List.length_append] at hlab
    refine (find_eq_some _ _ _ hfind).2.2 a.length (by omega) ?_
    rw [← hz, ← hab, List.append_assoc, List.append_assoc, List.drop_left]
    exact List.prefix_append _ _
  · intro hno
    refine find_of_first _ _ _ (by rw [List.drop_left]; exact List.prefix_append _ _) ?_
    intro j hj hocc
    rw [← hz, List.drop_append_of_le_length (by omega)] at hocc
    have hin := List.prefix_of_prefix_length_le hocc (List.prefix_append _ _)
      (by rw [List.length_drop]; omega)
    exact hno (hin.isInfix.trans (List.drop_suffix j _).isInfix)

end Search
