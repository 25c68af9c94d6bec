import Mathlib.Data.List.Induction

/-!
# Greedy Selection

A list is gone through from the front, and an item is taken unless it clashes
with one that was taken before. What is taken does not clash; what is not taken
clashes with something in front of it that was. In a list that goes from better
to worse, nothing is left out for a worse item.

## Main definitions

* `select`: The items taken, behind those that were taken before.
* `Stands`, `Yields`: The same, item by item: an item yields to one in front of it that
  clashes with it and stands.

## Theorems

* `select_of_pairwise`: Items that do not clash are all taken.
* `pairwise_select`: The items taken do not clash.
* `select_append`: A list in two parts.
* `select_sublist`: What is taken keeps its order.
* `select_stands`: What is taken is what stands.
* `select_kept`: What is taken, what is left out, and why.
-/

namespace Greedy

variable {α : Type*} (clash : α → α → Bool)

/-- The items of a list that are taken, behind those in `out`. -/
def select (out l : List α) : List α :=
  l.foldl (fun out x => if out.any fun y => clash y x then out else out ++ [x]) out

theorem select_cons_of_clash (out l : List α) (x : α) (h : ∃ y ∈ out, clash y x = true) :
    select clash out (x :: l) = select clash out l := by
  rw [select, List.foldl_cons, if_pos (List.any_eq_true.mpr h)]
  rfl

theorem select_cons_of_free (out l : List α) (x : α) (h : ∀ y ∈ out, clash y x = false) :
    select clash out (x :: l) = select clash (out ++ [x]) l := by
  have hno : ¬ (out.any fun y => clash y x) = true := by
    rw [List.any_eq_true]
    rintro ⟨y, hy, hc⟩
    rw [h y hy] at hc
    exact Bool.false_ne_true hc
  rw [select, List.foldl_cons, if_neg hno]
  rfl

/-- An item clashes with one that was taken, or with none. -/
theorem clash_cases (out : List α) (x : α) :
    (∃ y ∈ out, clash y x = true) ∨ ∀ y ∈ out, clash y x = false := by
  by_cases h : ∃ y ∈ out, clash y x = true
  · exact .inl h
  · exact .inr fun y hy => Bool.eq_false_iff.mpr fun hc => h ⟨y, hy, hc⟩

theorem select_append (out l m : List α) :
    select clash out (l ++ m) = select clash (select clash out l) m :=
  List.foldl_append

variable {clash}

theorem pairwise_snoc {out : List α} {x : α}
    (hout : out.Pairwise fun x y => clash x y = false) (hx : ∀ y ∈ out, clash y x = false) :
    (out ++ [x]).Pairwise fun x y => clash x y = false := by
  rw [List.pairwise_append]
  refine ⟨hout, List.pairwise_singleton _ _, fun y hy z hz => ?_⟩
  rw [List.mem_singleton.mp hz]
  exact hx y hy

/-- The items taken do not clash. -/
theorem pairwise_select (l : List α) : ∀ out : List α,
    (out.Pairwise fun x y => clash x y = false) →
      (select clash out l).Pairwise fun x y => clash x y = false := by
  induction l with
  | nil => exact fun _ hout => hout
  | cons x l ih =>
      intro out hout
      rcases clash_cases clash out x with h | h
      · rw [select_cons_of_clash clash out l x h]
        exact ih out hout
      · rw [select_cons_of_free clash out l x h]
        exact ih _ (pairwise_snoc hout h)

/-- Items that do not clash are all taken. -/
theorem select_of_pairwise (l : List α) : ∀ out : List α,
    ((out ++ l).Pairwise fun x y => clash x y = false) → select clash out l = out ++ l := by
  induction l with
  | nil => exact fun out _ => (List.append_nil out).symm
  | cons x l ih =>
      intro out h
      have hx : ∀ y ∈ out, clash y x = false := fun y hy =>
        (List.pairwise_append.mp h).2.2 y hy x List.mem_cons_self
      rw [select_cons_of_free clash out l x hx]
      rw [List.append_cons] at h
      exact (ih _ h).trans (List.append_cons out x l).symm

/-- What is taken stands in the order of the list. -/
theorem select_sublist (l : List α) : ∀ out : List α,
    ∃ kept, select clash out l = out ++ kept ∧ kept.Sublist l := by
  induction l with
  | nil => exact fun out => ⟨[], (List.append_nil out).symm, List.nil_sublist _⟩
  | cons x l ih =>
      intro out
      rcases clash_cases clash out x with h | h
      · rcases ih out with ⟨kept, hsel, hsub⟩
        exact ⟨kept, by rw [select_cons_of_clash clash out l x h, hsel], hsub.cons x⟩
      · rcases ih (out ++ [x]) with ⟨kept, hsel, hsub⟩
        refine ⟨x :: kept, ?_, hsub.cons_cons x⟩
        rw [select_cons_of_free clash out l x h, hsel, ← List.append_cons]

mutual

/-- An item stands if everything that could keep it out yields. -/
inductive Stands (blocks : α → α → Prop) : α → Prop
  | intro (x : α) (h : ∀ y, blocks y x → Yields blocks y) : Stands blocks x

/-- An item yields to one that stands. -/
inductive Yields (blocks : α → α → Prop) : α → Prop
  | intro (x y : α) (hb : blocks y x) (hy : Stands blocks y) : Yields blocks x

end

/-- What is taken is what stands, and the rest yields. It is known which items block one:
    those in front of it that clash with it. -/
theorem select_stands (l : List α) (hnodup : l.Nodup) (blocks : α → α → Prop)
    (hblocks : ∀ l₁ x l₂, l = l₁ ++ x :: l₂ → ∀ y, blocks y x ↔ y ∈ l₁ ∧ clash y x = true) :
    ∀ x ∈ l, x ∈ select clash [] l ∧ Stands blocks x ∧ ¬ Yields blocks x ∨
      x ∉ select clash [] l ∧ Yields blocks x ∧ ¬ Stands blocks x := by
  have hpre : ∀ l₁ l₂, l = l₁ ++ l₂ → ∀ x ∈ l₁,
      x ∈ select clash [] l₁ ∧ Stands blocks x ∧ ¬ Yields blocks x ∨
        x ∉ select clash [] l₁ ∧ Yields blocks x ∧ ¬ Stands blocks x := by
    intro l₁
    induction l₁ using List.reverseRecOn with
    | nil => exact fun _ _ x hx => absurd hx List.not_mem_nil
    | append_singleton l₁ a ih =>
        intro l₂ hl x hx
        have hl' : l = l₁ ++ a :: l₂ := by rw [hl, List.append_assoc]; rfl
        have hih := ih (a :: l₂) hl'
        have hnew : a ∉ l₁ := by
          rw [hl'] at hnodup
          exact fun ha => (List.nodup_append.mp hnodup).2.2 a ha a List.mem_cons_self rfl
        have hsub : ∀ y ∈ select clash [] l₁, y ∈ l₁ := by
          intro y hy
          rcases @select_sublist _ clash l₁ [] with ⟨kept, hkept, hsub⟩
          rw [hkept, List.nil_append] at hy
          exact hsub.subset hy
        rcases clash_cases clash (select clash [] l₁) a with hc | hfree
        · -- the item clashes with one that was taken
          have hsel : select clash [] (l₁ ++ [a]) = select clash [] l₁ := by
            rw [select_append, select_cons_of_clash clash _ [] a hc]
            rfl
          rw [hsel]
          rcases List.mem_append.mp hx with hx | hx
          · exact hih x hx
          · rw [List.mem_singleton.mp hx]
            rcases hc with ⟨y, hy, hya⟩
            have hb := (hblocks l₁ a l₂ hl' y).mpr ⟨hsub y hy, hya⟩
            rcases hih y (hsub y hy) with ⟨_, hstands, hnot⟩ | ⟨hout, _⟩
            · exact .inr ⟨fun ha => hnew (hsub a ha), ⟨a, y, hb, hstands⟩,
                fun ⟨_, h⟩ => hnot (h y hb)⟩
            · exact absurd hy hout
        · have hsel : select clash [] (l₁ ++ [a]) = select clash [] l₁ ++ [a] := by
            rw [select_append, select_cons_of_free clash _ [] a hfree]
            rfl
          rw [hsel]
          rcases List.mem_append.mp hx with hx | hx
          · have hxa : x ∉ [a] := fun h => hnew (List.mem_singleton.mp h ▸ hx)
            rw [List.mem_append, or_iff_left hxa]
            exact hih x hx
          · rw [List.mem_singleton.mp hx]
            refine .inl ⟨List.mem_append_right _ List.mem_cons_self, ⟨a, fun y hb => ?_⟩, ?_⟩
            · -- what clashes with it was not taken
              rcases (hblocks l₁ a l₂ hl' y).mp hb with ⟨hy, hya⟩
              rcases hih y hy with ⟨hin, _⟩ | ⟨_, hyields, _⟩
              · exact absurd hya (Bool.eq_false_iff.mp (hfree y hin))
              · exact hyields
            · rintro ⟨_, y, hb, hstands⟩
              rcases (hblocks l₁ a l₂ hl' y).mp hb with ⟨hy, hya⟩
              rcases hih y hy with ⟨hin, _⟩ | ⟨_, _, hnot⟩
              · exact Bool.eq_false_iff.mp (hfree y hin) hya
              · exact hnot hstands
  exact hpre l [] (List.append_nil l).symm

/-- What is taken and what is left out make up the list, and what is left out
    clashes with an item taken that stands in front of it. -/
theorem select_kept {r : α → α → Prop} (l : List α) : ∀ out : List α, (out ++ l).Pairwise r →
    ∃ kept dropped, select clash out l = out ++ kept ∧ l.Perm (kept ++ dropped) ∧
      ∀ x ∈ dropped, ∃ y ∈ select clash out l, clash y x = true ∧ r y x := by
  induction l with
  | nil =>
      exact fun out _ => ⟨[], [], (List.append_nil out).symm, .refl _, fun _ hx =>
        absurd hx List.not_mem_nil⟩
  | cons x l ih =>
      intro out h
      rcases clash_cases clash out x with hc | hc
      · -- left out for an item taken before
        rw [select_cons_of_clash clash out l x hc]
        rcases ih out (h.sublist ((List.sublist_cons_self x l).append_left out)) with
          ⟨kept, dropped, hsel, hperm, hwhy⟩
        refine ⟨kept, x :: dropped, hsel, (hperm.cons x).trans List.perm_middle.symm,
          List.forall_mem_cons.mpr ⟨?_, hwhy⟩⟩
        rcases hc with ⟨y, hy, hyx⟩
        refine ⟨y, ?_, hyx, (List.pairwise_append.mp h).2.2 y hy x List.mem_cons_self⟩
        rw [hsel]
        exact List.mem_append_left _ hy
      · -- taken
        rw [select_cons_of_free clash out l x hc]
        rw [List.append_cons] at h
        rcases ih (out ++ [x]) h with ⟨kept, dropped, hsel, hperm, hwhy⟩
        refine ⟨x :: kept, dropped, ?_, hperm.cons x, hwhy⟩
        rw [hsel, ← List.append_cons]

end Greedy
