import Mathlib.Data.List.Pairwise

/-!
# Scanning for a Pattern

Every occurrence of a pattern that a scanner from the left reports, when it
goes on behind each occurrence it has found.

Two reported occurrences never overlap, so not every occurrence is reported.
But one that is left out overlaps a reported one that starts before it, and
that is the reason it was left out: `scan_cover`.

## Main definitions

* `scan`: The offsets of the reported occurrences.

## Theorems

* `mem_scan`: What is reported is an occurrence.
* `scan_pairwise`: The reported occurrences are disjoint, from left to right.
* `scan_disjoint`: The same for two of them.
* `scan_cover`: Every occurrence starts inside a reported one.
-/

namespace Search

variable {α : Type*} [DecidableEq α]

/-- The occurrences from offset `pos` on, after `skip` symbols that belong to
    the last one. -/
def scanFrom (pat : List α) : Nat → Nat → List α → List Nat
  | _, _, [] => []
  | skip + 1, pos, _ :: s => scanFrom pat skip (pos + 1) s
  | 0, pos, c :: s =>
    if pat.isPrefixOf (c :: s) then pos :: scanFrom pat (pat.length - 1) (pos + 1) s
    else scanFrom pat 0 (pos + 1) s

/-- The offsets of the occurrences of `pat`, each behind the one before. -/
def scan (pat s : List α) : List Nat := scanFrom pat 0 0 s

theorem mem_scanFrom (pat : List α) : ∀ (s : List α) (skip pos i : Nat),
    i ∈ scanFrom pat skip pos s → ∃ d, i = pos + d ∧ skip ≤ d ∧ pat <+: s.drop d := by
  intro s
  induction s with
  | nil => intro skip pos i hi; exact absurd hi (by simp only [scanFrom, List.not_mem_nil,
      not_false_eq_true])
  | cons c s ih =>
      intro skip pos i hi
      -- While positions are skipped, nothing is an occurrence.
      cases skip with
      | succ skip =>
          rcases ih skip (pos + 1) i hi with ⟨d, rfl, hd, hocc⟩
          exact ⟨d + 1, by omega, by omega, hocc⟩
      | zero =>
          simp only [scanFrom, List.isPrefixOf_iff_prefix] at hi
          by_cases hp : pat <+: c :: s
          · rw [if_pos hp, List.mem_cons] at hi
            rcases hi with rfl | hi
            · exact ⟨0, rfl, Nat.le_refl _, hp⟩
            · rcases ih _ (pos + 1) i hi with ⟨d, rfl, _, hocc⟩
              exact ⟨d + 1, by omega, Nat.zero_le _, hocc⟩
          · rw [if_neg hp] at hi
            rcases ih _ (pos + 1) i hi with ⟨d, rfl, _, hocc⟩
            exact ⟨d + 1, by omega, Nat.zero_le _, hocc⟩

/-- What is reported is an occurrence. -/
theorem mem_scan (pat s : List α) (i : Nat) (hi : i ∈ scan pat s) : pat <+: s.drop i := by
  rcases mem_scanFrom pat s 0 0 i hi with ⟨d, rfl, _, hocc⟩
  rwa [Nat.zero_add]

theorem scanFrom_pairwise (pat : List α) (hne : pat ≠ []) : ∀ (s : List α) (skip pos : Nat),
    (scanFrom pat skip pos s).Pairwise (fun i j => i + pat.length ≤ j) := by
  intro s
  induction s with
  | nil => intro skip pos; exact List.Pairwise.nil
  | cons c s ih =>
      intro skip pos
      cases skip with
      | succ skip => exact ih skip (pos + 1)
      | zero =>
          simp only [scanFrom]
          split
          · -- the next one starts behind the symbols of this one
            refine List.Pairwise.cons ?_ (ih _ _)
            intro j hj
            rcases mem_scanFrom pat s _ _ j hj with ⟨d, rfl, hd, _⟩
            have hpos := List.length_pos_iff.mpr hne
            omega
          · exact ih 0 (pos + 1)

/-- The reported occurrences are disjoint, from left to right. -/
theorem scan_pairwise (pat s : List α) (hne : pat ≠ []) :
    (scan pat s).Pairwise (fun i j => i + pat.length ≤ j) := scanFrom_pairwise pat hne s 0 0

/-- Of two reported occurrences one ends before the other starts. -/
theorem scan_disjoint (pat s : List α) (i j : Nat) (hne : pat ≠ []) (hi : i ∈ scan pat s)
    (hj : j ∈ scan pat s) (hij : i < j) : i + pat.length ≤ j := by
  have hpair : (scan pat s).Pairwise
      (fun a b => (a < b → a + pat.length ≤ b) ∧ (b < a → b + pat.length ≤ a)) := by
    refine (scan_pairwise pat s hne).imp ?_
    intro a b hab
    exact ⟨fun _ => hab, fun hba => by omega⟩
  have hsymm : Std.Symm (fun a b : Nat => (a < b → a + pat.length ≤ b) ∧
      (b < a → b + pat.length ≤ a)) := ⟨fun _ _ hab => ⟨hab.2, hab.1⟩⟩
  have hall := hpair.forall_of_forall (fun a _ => ⟨fun h => absurd h (Nat.lt_irrefl _),
    fun h => absurd h (Nat.lt_irrefl _)⟩)
  exact (hall hi hj).1 hij

theorem scanFrom_cover (pat : List α) (hne : pat ≠ []) :
    ∀ (s : List α) (skip pos d : Nat), skip ≤ d → pat <+: s.drop d →
      ∃ j ∈ scanFrom pat skip pos s, j ≤ pos + d ∧ pos + d < j + pat.length := by
  intro s
  induction s with
  | nil =>
      intro skip pos d _ hocc
      rw [List.drop_nil] at hocc
      exact absurd (List.prefix_nil.mp hocc) hne
  | cons c s ih =>
      intro skip pos d hd hocc
      cases skip with
      | succ skip =>
          cases d with
          | zero => omega
          | succ d =>
              rcases ih skip (pos + 1) d (by omega) hocc with ⟨j, hj, h1, h2⟩
              exact ⟨j, hj, by omega, by omega⟩
      | zero =>
          simp only [scanFrom, List.isPrefixOf_iff_prefix]
          by_cases hp : pat <+: c :: s
          · rw [if_pos hp]
            -- either the occurrence starts inside this one, or it is looked for behind it
            by_cases hlt : d < pat.length
            · exact ⟨pos, List.mem_cons_self, by omega, by omega⟩
            · cases d with
              | zero => exact absurd (List.length_pos_iff.mpr hne) (by omega)
              | succ d =>
                  rcases ih (pat.length - 1) (pos + 1) d (by omega) hocc with ⟨j, hj, h1, h2⟩
                  exact ⟨j, List.mem_cons_of_mem _ hj, by omega, by omega⟩
          · rw [if_neg hp]
            cases d with
            | zero => exact absurd hocc hp
            | succ d =>
                rcases ih 0 (pos + 1) d (Nat.zero_le _) hocc with ⟨j, hj, h1, h2⟩
                exact ⟨j, hj, by omega, by omega⟩

/-- Every occurrence starts inside a reported one. -/
theorem scan_cover (pat s : List α) (i : Nat) (hne : pat ≠ []) (hocc : pat <+: s.drop i) :
    ∃ j ∈ scan pat s, j ≤ i ∧ i < j + pat.length := by
  rcases scanFrom_cover pat hne s 0 0 i (Nat.zero_le _) hocc with ⟨j, hj, h1, h2⟩
  exact ⟨j, hj, by omega, by omega⟩

end Search
