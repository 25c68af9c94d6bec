import Mathlib.Data.List.Infix

/-!
# Parts of a Structure

A lens shows a part of a structure, which may be missing, and puts something
else in its place.

A lawful lens shows what was put, does nothing when what it shows is put back,
keeps the last of two things that were put, and puts nothing where the part is
missing. Lawful lenses compose, one for each step of a path into the structure.
Two lenses are apart if putting through the one does not change what the other
shows; paths are apart from where they part, if different steps are.

## Main definitions

* `Lens`: A part that may be missing.
* `Lens.Lawful`: The laws.
* `Lens.comp`, `Lens.along`: A part of a part, and a path of parts.
* `Lens.Apart`: Parts that do not touch.

## Theorems

* `Lens.Lawful.comp`, `Lens.Lawful.along`: Paths of lawful lenses are lawful.
* `Lens.Apart.comp`, `Lens.Apart.below`: Parts below.
* `Lens.Apart.along`: Paths that part are apart.
-/

/-- A part of a structure: how it looks, and how to exchange it. -/
structure Lens (σ α : Type*) where
  get : σ → Option α
  put : α → σ → σ

namespace Lens

variable {σ α β γ ι : Type*}

/-- The laws. -/
structure Lawful (l : Lens σ α) : Prop where
  get_put : ∀ {s a} (b : α), l.get s = some a → l.get (l.put b s) = some b
  put_get : ∀ {s a}, l.get s = some a → l.put a s = s
  put_put : ∀ (s : σ) (b c : α), l.put c (l.put b s) = l.put c s
  missing : ∀ {s} (b : α), l.get s = none → l.put b s = s

/-- A part of a part. -/
def comp (l : Lens σ α) (m : Lens α β) : Lens σ β where
  get s := (l.get s).bind m.get
  put b s :=
    match l.get s with
    | some a => l.put (m.put b a) s
    | none => s

/-- The whole. -/
def whole : Lens σ σ where
  get := some
  put b _ := b

/-- The part at the end of a path, with a lens for each step. -/
def along (step : ι → Lens σ σ) : List ι → Lens σ σ
  | [] => whole
  | i :: path => (step i).comp (along step path)

/-- Putting through the first does not change what the second shows. -/
def Apart (l : Lens σ α) (m : Lens σ β) : Prop := ∀ a s, m.get (l.put a s) = m.get s

theorem whole_lawful : (whole : Lens σ σ).Lawful where
  get_put _ _ := rfl
  put_get h := Option.some.inj h.symm
  put_put _ _ _ := rfl
  missing _ h := absurd h (Option.some_ne_none _)

theorem get_comp (l : Lens σ α) (m : Lens α β) (s : σ) :
    (l.comp m).get s = (l.get s).bind m.get := rfl

theorem put_comp_some (l : Lens σ α) (m : Lens α β) {s : σ} {a : α} (h : l.get s = some a)
    (b : β) : (l.comp m).put b s = l.put (m.put b a) s := by
  simp only [comp, h]

theorem put_comp_none (l : Lens σ α) (m : Lens α β) {s : σ} (h : l.get s = none) (b : β) :
    (l.comp m).put b s = s := by
  simp only [comp, h]

/-- A part of a part is a part. -/
theorem Lawful.comp {l : Lens σ α} {m : Lens α β} (hl : l.Lawful) (hm : m.Lawful) :
    (l.comp m).Lawful where
  get_put := by
    intro s a b h
    rcases Option.bind_eq_some_iff.mp h with ⟨x, hx, hget⟩
    rw [put_comp_some l m hx, get_comp, hl.get_put _ hx]
    exact hm.get_put b hget
  put_get := by
    intro s a h
    rcases Option.bind_eq_some_iff.mp h with ⟨x, hx, hget⟩
    rw [put_comp_some l m hx, hm.put_get hget, hl.put_get hx]
  put_put := by
    intro s b c
    cases hx : l.get s with
    | none => rw [put_comp_none l m hx, put_comp_none l m hx]
    | some x =>
        -- the second put finds what the first one put
        rw [put_comp_some l m hx, put_comp_some l m (hl.get_put _ hx), put_comp_some l m hx,
          hl.put_put, hm.put_put]
  missing := by
    intro s b h
    cases hx : l.get s with
    | none => exact put_comp_none l m hx b
    | some x =>
        rw [get_comp, hx, Option.bind_some] at h
        rw [put_comp_some l m hx, hm.missing b h, hl.put_get hx]

/-- Along a path of lawful steps. -/
theorem Lawful.along {step : ι → Lens σ σ} (h : ∀ i, (step i).Lawful) :
    ∀ path, (Lens.along step path).Lawful := by
  intro path
  induction path with
  | nil => exact whole_lawful
  | cons i path ih => exact (h i).comp ih

/-- What is apart from a part is apart from what is below it. -/
theorem Apart.comp {l : Lens σ α} {m : Lens σ β} (h : Apart l m) (k : Lens α γ) (n : Lens β ι) :
    Apart (l.comp k) (m.comp n) := by
  intro a s
  rw [get_comp, get_comp]
  cases hx : l.get s with
  | none => rw [put_comp_none l k hx]
  | some x => rw [put_comp_some l k hx, h]

/-- Parts of one part that are apart in it. -/
theorem Apart.below {l : Lens σ α} (hl : l.Lawful) {m : Lens α β} {n : Lens α γ}
    (h : Apart m n) : Apart (l.comp m) (l.comp n) := by
  intro b s
  rw [get_comp, get_comp]
  cases hx : l.get s with
  | none => rw [put_comp_none l m hx, hx]
  | some x => rw [put_comp_some l m hx, hl.get_put _ hx, Option.bind_some, Option.bind_some, h]

/-- Paths of which neither goes on from the other are apart. -/
theorem Apart.along {step : ι → Lens σ σ} (hlawful : ∀ i, (step i).Lawful)
    (hstep : ∀ i j, i ≠ j → Apart (step i) (step j)) : ∀ p q : List ι, ¬ p <+: q → ¬ q <+: p →
      Apart (Lens.along step p) (Lens.along step q) := by
  intro p
  induction p with
  | nil => intro q hp _; exact absurd List.nil_prefix hp
  | cons i p ih =>
      intro q hp hq
      cases q with
      | nil => exact absurd List.nil_prefix hq
      | cons j q =>
          -- on the same step the paths part below it
          by_cases hij : i = j
          · subst hij
            refine Apart.below (hlawful i) (ih q (fun h => hp ?_) (fun h => hq ?_))
            · exact List.cons_prefix_cons.mpr ⟨rfl, h⟩
            · exact List.cons_prefix_cons.mpr ⟨rfl, h⟩
          · exact (hstep i j hij).comp _ _

end Lens
