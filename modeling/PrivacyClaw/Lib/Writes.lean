import Mathlib.Data.List.AList

/-!
# Sequences of Map Writes

A map that was written several times over, and what it answers afterwards.

A later write to a key hides an earlier one, so in general the order of the
writes decides. Two cases need no look at the order: a key that is not written
keeps its old answer, and a key that is always written with one value answers
with it.

## Main definitions

* `all`: The map after a list of writes.
* `Consistent`: No key is written with two values.

## Theorems

* `all_append`: Writes one list after the other.
* `mem_all`: The keys of a written map.
* `lookup_all_of_not_mem`: A key that is not written.
* `lookup_all_of_unique`: A key written with one value only.
* `lookup_all_cases`: An answer is an old one or was written.
-/

namespace Writes

variable {α β : Type*} [DecidableEq α]

/-- The map after the writes, first to last. -/
def all (m : AList (fun _ : α => β)) (writes : List (α × β)) : AList (fun _ : α => β) :=
  writes.foldl (fun m w => m.insert w.1 w.2) m

/-- No key is written with two values. -/
def Consistent (writes : List (α × β)) : Prop :=
  ∀ k x y, (k, x) ∈ writes → (k, y) ∈ writes → x = y

instance [DecidableEq β] (writes : List (α × β)) : Decidable (Consistent writes) :=
  decidable_of_iff (∀ a ∈ writes, ∀ b ∈ writes, a.1 = b.1 → a.2 = b.2)
    ⟨fun h k x y hx hy => h (k, x) hx (k, y) hy rfl,
      fun h a ha b hb he => h a.1 a.2 b.2 ha (by rw [he]; exact hb)⟩

theorem all_append (m : AList (fun _ : α => β)) (l₁ l₂ : List (α × β)) :
    all m (l₁ ++ l₂) = all (all m l₁) l₂ := by
  simp only [all, List.foldl_append]

theorem all_cons (m : AList (fun _ : α => β)) (w : α × β) (l : List (α × β)) :
    all m (w :: l) = all (m.insert w.1 w.2) l := rfl

/-- The keys of a written map are the old ones and those written. -/
theorem mem_all (k : α) : ∀ (l : List (α × β)) (m : AList (fun _ : α => β)),
    k ∈ all m l ↔ k ∈ m ∨ k ∈ l.map Prod.fst := by
  intro l
  induction l with
  | nil =>
      intro m
      simp only [all, List.foldl_nil, List.map_nil, List.not_mem_nil, or_false]
  | cons w l ih =>
      intro m
      rw [all_cons, ih, AList.mem_insert, List.map_cons, List.mem_cons]
      constructor
      · rintro ((he | hm) | hl)
        · exact Or.inr (Or.inl he)
        · exact Or.inl hm
        · exact Or.inr (Or.inr hl)
      · rintro (hm | he | hl)
        · exact Or.inl (Or.inr hm)
        · exact Or.inl (Or.inl he)
        · exact Or.inr hl

/-- A key that is not written keeps its answer. -/
theorem lookup_all_of_not_mem (k : α) : ∀ (l : List (α × β)) (m : AList (fun _ : α => β)),
    (∀ x, (k, x) ∉ l) → (all m l).lookup k = m.lookup k := by
  intro l
  induction l with
  | nil => intro m _; rfl
  | cons w l ih =>
      intro m hk
      have hne : k ≠ w.1 := fun he => hk w.2 (by rw [he]; exact List.mem_cons_self)
      rw [all_cons, ih _ (fun x hx => hk x (List.mem_cons_of_mem _ hx)), AList.lookup_insert_ne hne]

/-- A key that is written, and always with the same value, answers with it. -/
theorem lookup_all_of_unique (k : α) (x : β) : ∀ (l : List (α × β)) (m : AList (fun _ : α => β)),
    (k, x) ∈ l → (∀ y, (k, y) ∈ l → y = x) → (all m l).lookup k = some x := by
  intro l
  induction l with
  | nil => intro m hk _; exact absurd hk List.not_mem_nil
  | cons w l ih =>
      intro m hk huniq
      rw [all_cons]
      by_cases hl : (k, x) ∈ l
      · exact ih _ hl (fun y hy => huniq y (List.mem_cons_of_mem _ hy))
      · have hw : w = (k, x) := ((List.mem_cons.mp hk).resolve_right hl).symm
        have hnot : ∀ y, (k, y) ∉ l := fun y hy =>
          hl (huniq y (List.mem_cons_of_mem _ hy) ▸ hy)
        rw [lookup_all_of_not_mem k l _ hnot, hw, AList.lookup_insert]

/-- An answer is an old one or was written. -/
theorem lookup_all_cases (k : α) (x : β) : ∀ (l : List (α × β)) (m : AList (fun _ : α => β)),
    (all m l).lookup k = some x → m.lookup k = some x ∨ (k, x) ∈ l := by
  intro l
  induction l with
  | nil => intro m hx; exact Or.inl hx
  | cons w l ih =>
      intro m hx
      rw [all_cons] at hx
      rcases ih _ hx with hx | hx
      · by_cases hk : k = w.1
        · subst hk
          rw [AList.lookup_insert, Option.some.injEq] at hx
          refine Or.inr ?_
          rw [← hx]
          exact List.mem_cons_self
        · rw [AList.lookup_insert_ne hk] at hx
          exact Or.inl hx
      · exact Or.inr (List.mem_cons_of_mem _ hx)

end Writes
