import Mathlib.Data.List.Induction
import Mathlib.Data.List.Sort

/-!
# Splicing Ranges of a List

Replacing several ranges of a list, and where the replacements end up.

An edit names a range by offsets into the list it was made for. Edits that do
not overlap can be carried out one after the other, provided the rightmost
comes first: what an edit changes then lies behind every offset still to be
used. The result is the list read from left to right with each range
exchanged, which is what `weave` says, and `ranges` computes where each
replacement stands in it. An edit that changes the length moves everything
behind it, so these places are the edits' own offsets only under a condition,
`ranges_eq_iff`.

## Main definitions

* `Edit`: A range and what goes in its place.
* `Edit.apply`: One edit.
* `Ordered`: Edits from left to right without overlap, between two offsets.
* `weave`: The part between two offsets with the edits made.
* `ranges`: Where the replacements stand in it.

## Theorems

* `Edit.apply_take_append`: What an edit of the untouched part leaves.
* `weave_append_singleton`: The last edit of a list is made at its end.
* `apply_reverse_eq_weave`: Right-to-left application gives the woven list.
* `ranges_select`: Each range selects its replacement from the woven list.
* `ranges_eq_iff`: When the ranges start at the edits' own offsets.
* `ranges_starts`: The starts rise.
* `eq_of_mem_iff`: Two lists of ranges with rising starts and the same members
  are equal.
-/

namespace Splice

variable {α : Type*}

/-- The range from `start` to `stop`, and what goes in its place. -/
structure Edit (α : Type*) where
  start : Nat
  stop : Nat
  new : List α

/-- One edit, made at its own offsets. -/
def Edit.apply (e : Edit α) (s : List α) : List α := s.take e.start ++ e.new ++ s.drop e.stop

/-- The edits stand from left to right, without overlap, between `lo` and
    `hi`. -/
def Ordered : Nat → Nat → List (Edit α) → Prop
  | lo, hi, [] => lo ≤ hi
  | lo, hi, e :: es => lo ≤ e.start ∧ e.start ≤ e.stop ∧ Ordered e.stop hi es

/-- What stands between `lo` and `hi` after the edits. -/
def weave (s : List α) : Nat → Nat → List (Edit α) → List α
  | lo, hi, [] => (s.take hi).drop lo
  | lo, hi, e :: es => (s.take e.start).drop lo ++ e.new ++ weave s e.stop hi es

/-- Where the replacements stand in the woven list, when the offset `lo` of
    the old list is the offset `pos` of the new one. -/
def ranges : Nat → Nat → List (Edit α) → List (Nat × Nat)
  | _, _, [] => []
  | lo, pos, e :: es =>
    let a := pos + (e.start - lo)
    (a, a + e.new.length) :: ranges e.stop (a + e.new.length) es

theorem Ordered.le : ∀ (lo hi : Nat) (es : List (Edit α)), Ordered lo hi es → lo ≤ hi := by
  intro lo hi es
  induction es generalizing lo with
  | nil => intro h; exact h
  | cons e es ih =>
      intro h
      have := ih e.stop h.2.2
      have h1 := h.1
      have h2 := h.2.1
      omega

theorem ordered_append_singleton (e : Edit α) (hi : Nat) : ∀ (es : List (Edit α)) (lo : Nat),
    Ordered lo hi (es ++ [e]) ↔ Ordered lo e.start es ∧ e.start ≤ e.stop ∧ e.stop ≤ hi := by
  intro es
  induction es with
  | nil => intro lo; exact Iff.rfl
  | cons d es ih =>
      intro lo
      simp only [List.cons_append, Ordered, ih, and_assoc]

theorem weave_append_singleton (s : List α) (e : Edit α) (hi : Nat) :
    ∀ (es : List (Edit α)) (lo : Nat), weave s lo hi (es ++ [e]) =
      weave s lo e.start es ++ e.new ++ (s.take hi).drop e.stop := by
  intro es
  induction es with
  | nil => intro lo; rfl
  | cons d es ih =>
      intro lo
      simp only [List.cons_append, weave, ih, List.append_assoc]

/-- An edit of the untouched part leaves what stands before it untouched and
    the rest as a tail. -/
theorem Edit.apply_take_append (e : Edit α) (s tail : List α) (hi : Nat) (hhi : hi ≤ s.length)
    (hle : e.start ≤ e.stop) (hstop : e.stop ≤ hi) :
    e.apply (s.take hi ++ tail) =
      s.take e.start ++ (e.new ++ ((s.take hi).drop e.stop ++ tail)) := by
  have hlen : (s.take hi).length = hi := by rw [List.length_take]; omega
  unfold Edit.apply
  rw [List.take_append_of_le_length (by omega), List.take_take,
    Nat.min_eq_left (by omega), List.drop_append_of_le_length (by omega), List.append_assoc]

/-- Made from right to left, each edit finds its own offsets still in place.
    The tail stands for what the edits further right have left behind. -/
theorem apply_reverse_append (s : List α) : ∀ (es : List (Edit α)) (hi : Nat) (tail : List α),
    Ordered 0 hi es → hi ≤ s.length →
    es.reverse.foldl (fun t e => e.apply t) (s.take hi ++ tail) = weave s 0 hi es ++ tail := by
  intro es
  induction es using List.reverseRecOn with
  | nil =>
      intro hi tail _ _
      rfl
  | append_singleton es e ih =>
      intro hi tail hord hhi
      rcases (ordered_append_singleton e hi es 0).mp hord with ⟨hes, hle, hstop⟩
      rw [List.reverse_append, List.reverse_singleton, List.singleton_append, List.foldl_cons,
        e.apply_take_append s tail hi hhi hle hstop, ih e.start _ hes (by omega), weave_append_singleton]
      simp only [List.append_assoc]

/-- Carrying the edits out from right to left gives the woven list. -/
theorem apply_reverse_eq_weave (s : List α) (es : List (Edit α)) (h : Ordered 0 s.length es) :
    es.reverse.foldl (fun t e => e.apply t) s = weave s 0 s.length es := by
  have := apply_reverse_append s es s.length [] h (Nat.le_refl _)
  rwa [List.take_length, List.append_nil, List.append_nil] at this

theorem length_gap (s : List α) (lo hi : Nat) (hhi : hi ≤ s.length) :
    ((s.take hi).drop lo).length = hi - lo := by
  rw [List.length_drop, List.length_take, Nat.min_eq_left hhi]

/-- Every range selects its replacement, for any prefix of length `pos` in
    front of the woven list. -/
theorem ranges_select (s : List α) (hi : Nat) (hhi : hi ≤ s.length) :
    ∀ (es : List (Edit α)) (lo : Nat) (pre : List α), Ordered lo hi es →
      List.Forall₂ (fun (r : Nat × Nat) e =>
        ((pre ++ weave s lo hi es).take r.2).drop r.1 = e.new) (ranges lo pre.length es) es := by
  intro es
  induction es with
  | nil => intro lo pre _; exact List.Forall₂.nil
  | cons e es ih =>
      intro lo pre hord
      rcases hord with ⟨hlo, hle, hrest⟩
      have hstop := Ordered.le _ _ _ hrest
      have hgap := length_gap s lo e.start (by omega)
      -- the prefix of the remaining edits is everything up to this replacement
      have hpre : (pre ++ ((s.take e.start).drop lo ++ e.new)).length =
          pre.length + (e.start - lo) + e.new.length := by
        simp only [List.length_append, hgap]
        omega
      have htail := ih e.stop (pre ++ ((s.take e.start).drop lo ++ e.new)) hrest
      rw [hpre] at htail
      have hsplit : pre ++ weave s lo hi (e :: es) =
          (pre ++ ((s.take e.start).drop lo ++ e.new)) ++ weave s e.stop hi es := by
        simp only [weave, List.append_assoc]
      simp only [ranges]
      refine List.Forall₂.cons ?_ ?_
      · rw [hsplit, List.take_append_of_le_length (by omega), ← hpre, List.take_length,
          ← List.append_assoc, List.drop_append_of_le_length (by
            simp only [List.length_append, hgap]; omega)]
        have : (pre ++ (s.take e.start).drop lo).length = pre.length + (e.start - lo) := by
          simp only [List.length_append, hgap]
        rw [← this, List.drop_length, List.nil_append]
      · rw [hsplit]
        exact htail

/-- The ranges are at the edits' own offsets exactly when no edit but the last
    changes a length. -/
theorem ranges_eq_iff (hi : Nat) : ∀ (es : List (Edit α)) (lo pos : Nat), Ordered lo hi es →
    (ranges lo pos es = es.map (fun e => (e.start, e.start + e.new.length)) ↔
      (es = [] ∨ pos = lo) ∧ ∀ e ∈ es.dropLast, e.start + e.new.length = e.stop) := by
  intro es
  induction es with
  | nil =>
      intro lo pos _
      simp only [ranges, List.map_nil, true_or, List.dropLast_nil, List.not_mem_nil,
        false_imp_iff, implies_true, and_self]
  | cons e es ih =>
      intro lo pos hord
      rcases hord with ⟨hlo, hle, hrest⟩
      simp only [ranges, List.map_cons, List.cons.injEq, Prod.mk.injEq, reduceCtorEq, false_or]
      have hpos : pos + (e.start - lo) = e.start ↔ pos = lo := by omega
      -- The tail's ranges start where this edit's new text ends, so the tail agrees
      -- exactly when the edit ends there as well.
      constructor
      · rintro ⟨⟨h1, _⟩, h2⟩
        rw [h1] at h2
        rcases (ih e.stop _ hrest).mp h2 with ⟨hseam, htail⟩
        refine ⟨hpos.mp h1, ?_⟩
        intro d hd
        cases es with
        | nil => simp only [List.dropLast_singleton, List.not_mem_nil] at hd
        | cons c es =>
            rw [List.dropLast_cons_cons, List.mem_cons] at hd
            rcases hd with rfl | hd
            · rcases hseam with hseam | hseam
              · exact absurd hseam (by simp only [reduceCtorEq, not_false_eq_true])
              · exact hseam
            · exact htail d hd
      · rintro ⟨h1, h2⟩
        have h1' := hpos.mpr h1
        rw [h1']
        refine ⟨⟨rfl, rfl⟩, (ih e.stop _ hrest).mpr ⟨?_, ?_⟩⟩
        · cases es with
          | nil => exact Or.inl rfl
          | cons c es => exact Or.inr (h2 e (by rw [List.dropLast_cons_cons]; exact List.mem_cons_self))
        · intro d hd
          cases es with
          | nil => simp only [List.dropLast_nil, List.not_mem_nil] at hd
          | cons c es => exact h2 d (by rw [List.dropLast_cons_cons]; exact List.mem_cons_of_mem _ hd)

/-- The ranges of replacements that are not empty start one behind the other. -/
theorem ranges_starts (hi : Nat) : ∀ (es : List (Edit α)) (lo pos : Nat), Ordered lo hi es →
    (∀ e ∈ es, e.new ≠ []) →
    (ranges lo pos es).Pairwise (fun a b => a.1 < b.1) ∧ ∀ r ∈ ranges lo pos es, pos ≤ r.1 := by
  intro es
  induction es with
  | nil =>
      intro lo pos _ _
      exact ⟨List.Pairwise.nil, fun r hr => absurd hr (by simp only [ranges, List.not_mem_nil,
        not_false_eq_true])⟩
  | cons e es ih =>
      intro lo pos hord hne
      rcases hord with ⟨hlo, hle, hrest⟩
      -- What is put in is not empty, so the next edit starts further to the right.
      have hpos := List.length_pos_iff.mpr (hne e List.mem_cons_self)
      rcases ih e.stop (pos + (e.start - lo) + e.new.length) hrest
        (fun d hd => hne d (List.mem_cons_of_mem _ hd)) with ⟨hpair, hge⟩
      simp only [ranges, List.pairwise_cons, List.mem_cons]
      refine ⟨⟨fun r hr => ?_, hpair⟩, ?_⟩
      · have := hge r hr
        omega
      · rintro r (rfl | hr)
        · exact Nat.le_add_right _ _
        · have := hge r hr
          omega

/-- Two lists of ranges with rising starts and the same members are equal. -/
theorem eq_of_mem_iff (l m : List (Nat × Nat)) (hl : l.Pairwise (fun a b => a.1 < b.1))
    (hm : m.Pairwise (fun a b => a.1 < b.1)) (h : ∀ z, z ∈ l ↔ z ∈ m) : l = m := by
  have hnodup : ∀ k : List (Nat × Nat), k.Pairwise (fun a b => a.1 < b.1) → k.Nodup :=
    fun k hk => List.Pairwise.imp (fun {a b} (hab : a.1 < b.1) (he : a = b) => by
      rw [he] at hab; exact Nat.lt_irrefl _ hab) hk
  have hperm := (List.perm_ext_iff_of_nodup (hnodup l hl) (hnodup m hm)).mpr h
  refine List.Perm.eq_of_pairwise ?_ hl hm hperm
  intro a b _ _ hab hba
  exact absurd (Nat.lt_trans hab hba) (Nat.lt_irrefl _)

end Splice
