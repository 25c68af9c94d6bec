import Mathlib.Data.List.Basic
import PrivacyClaw.Lib.Binary

/-!
# Trees of JSON Values

Values as a parser hands them out, where a number is an integer or a double and
the two are never equal.

A key or a string is of any type. An object is its list of entries, and a value
that comes from a parser has every key once (`Distinct`). A path is a list of
keys. What a value says about a path is what stands there, and a value that is
meant as a change of another one also says something about the paths behind its
leaves.

## Main definitions

* `Number`, `Json`: The values.
* `Json.eq`: Their equality, which is not structural: the zeros are equal.
* `Json.atPath`: What stands at a path.
* `Json.LeafAt`: A path to something that is no object.
* `Json.Mentions`: A path that a value says something about.
* `Json.nested`: A value at a path.
* `Json.Distinct`: Every key stands once.
* `entry`, `setField`: An entry of an object, and one changed or added.

## Theorems

* `Json.eq_refl`: A value is equal to itself.
* `lookup_setField`: The entries after a change.
* `Json.Distinct.entry`, `Json.distinct_object`: Values in a value with distinct keys.
-/

namespace JsonTree

open Binary

/-- A number that is not negative, one that is, or a double. -/
inductive Number where
  | posInt (n : UInt64)
  | negInt (n : Int64)
  | float (x : Double)
  deriving DecidableEq

def Number.eq : Number → Number → Bool
  | .posInt a, .posInt b => a == b
  | .negInt a, .negInt b => a == b
  | .float x, .float y => x.eq y
  | _, _ => false

inductive Json (κ : Type) where
  | null
  | bool (b : Bool)
  | number (n : Number)
  | string (s : κ)
  | array (items : List (Json κ))
  | object (fields : List (κ × Json κ))

variable {κ : Type} [DecidableEq κ]

namespace Json

mutual

/-- Equality of values; objects are compared in the order of their entries. -/
def eq : Json κ → Json κ → Bool
  | .null, .null => true
  | .bool a, .bool b => a == b
  | .number a, .number b => a.eq b
  | .string a, .string b => a == b
  | .array a, .array b => eqItems a b
  | .object a, .object b => eqFields a b
  | _, _ => false

def eqItems : List (Json κ) → List (Json κ) → Bool
  | [], [] => true
  | a :: as, b :: bs => eq a b && eqItems as bs
  | _, _ => false

def eqFields : List (κ × Json κ) → List (κ × Json κ) → Bool
  | [], [] => true
  | (k, a) :: as, (l, b) :: bs => k == l && eq a b && eqFields as bs
  | _, _ => false

end

def isObject : Json κ → Bool
  | .object _ => true
  | _ => false

/-- What stands at a path. -/
def atPath : Json κ → List κ → Option (Json κ)
  | v, [] => some v
  | .object m, k :: q => (m.lookup k).bind fun v => atPath v q
  | _, _ :: _ => none

/-- At a path stands something that is no object. -/
def LeafAt (p : Json κ) (q : List κ) : Prop := ∃ v, p.atPath q = some v ∧ v.isObject = false

/-- As a change, the value says something about the path. -/
def Mentions : Json κ → List κ → Prop
  | _, [] => True
  | .object m, k :: q => ∃ v, m.lookup k = some v ∧ Mentions v q
  | _, _ :: _ => True

/-- A value at the end of a path, with nothing beside it. -/
def nested : List κ → Json κ → Json κ
  | [], v => v
  | k :: q, v => .object [(k, nested q v)]

/-- No object has a key twice. -/
def Distinct (p : Json κ) : Prop :=
  ∀ q m, p.atPath q = some (.object m) → (m.map Prod.fst).Nodup

end Json

/-- What a key has; a key that is not there has null. -/
def entry (m : List (κ × Json κ)) (k : κ) : Json κ := (m.lookup k).getD .null

/-- An entry changed, or added where the key is new. -/
def setField (k : κ) (v : Json κ) : List (κ × Json κ) → List (κ × Json κ)
  | [] => [(k, v)]
  | (l, w) :: m => if l = k then (l, v) :: m else (l, w) :: setField k v m

theorem Number.eq_refl (n : Number) : n.eq n = true := by
  cases n with
  | posInt n => exact beq_self_eq_true n
  | negInt n => exact beq_self_eq_true n
  | float x => exact Double.eq_refl x

namespace Json

mutual

/-- A value is equal to itself: there are only finite doubles. -/
theorem eq_refl (v : Json κ) : v.eq v = true := by
  cases v with
  | null => rfl
  | bool b => exact beq_self_eq_true b
  | number n => exact Number.eq_refl n
  | string s => exact beq_self_eq_true s
  | array items => exact eqItems_refl items
  | object fields => exact eqFields_refl fields

theorem eqItems_refl (items : List (Json κ)) : eqItems items items = true := by
  cases items with
  | nil => rfl
  | cons v items => rw [eqItems, eq_refl v, eqItems_refl items, Bool.true_and]

theorem eqFields_refl (fields : List (κ × Json κ)) : eqFields fields fields = true := by
  cases fields with
  | nil => rfl
  | cons e fields =>
      rw [eqFields, eq_refl e.2, eqFields_refl fields, beq_self_eq_true, Bool.true_and,
        Bool.true_and]

end

/-- Only null is equal to null. -/
theorem null_eq_iff (v : Json κ) : (null : Json κ).eq v = true ↔ v = null := by
  cases v with
  | null => exact iff_of_true rfl rfl
  | _ => exact iff_of_false Bool.false_ne_true (by simp only [reduceCtorEq, not_false_eq_true])

theorem eq_object_of_not {v : Json κ} (hv : v.isObject = false) (m : List (κ × Json κ)) :
    v.eq (object m) = false := by
  cases v with
  | object n => exact absurd hv.symm Bool.false_ne_true
  | _ => rfl

theorem object_eq_of_not {v : Json κ} (hv : v.isObject = false) (m : List (κ × Json κ)) :
    (object m).eq v = false := by
  cases v with
  | object n => exact absurd hv.symm Bool.false_ne_true
  | _ => rfl

end Json

theorem entry_of_some {m : List (κ × Json κ)} {k : κ} {v : Json κ} (h : m.lookup k = some v) :
    entry m k = v := by
  rw [entry, h, Option.getD_some]

theorem entry_of_none {m : List (κ × Json κ)} {k : κ} (h : m.lookup k = none) :
    entry m k = .null := by
  rw [entry, h, Option.getD_none]

theorem lookup_setField (k l : κ) (v : Json κ) (m : List (κ × Json κ)) :
    (setField k v m).lookup l = if l = k then some v else m.lookup l := by
  induction m with
  | nil =>
      rw [setField, List.lookup_cons]
      by_cases h : l = k
      · rw [if_pos h, beq_iff_eq.mpr h]
      · rw [if_neg h, beq_eq_false_iff_ne.mpr h]
  | cons e m ih =>
      rcases e with ⟨j, w⟩
      rw [setField]
      by_cases hj : j = k
      · rw [if_pos hj, List.lookup_cons, List.lookup_cons, hj]
        by_cases h : l = k
        · rw [if_pos h, beq_iff_eq.mpr h]
        · rw [if_neg h, beq_eq_false_iff_ne.mpr h]
      · rw [if_neg hj, List.lookup_cons, List.lookup_cons, ih]
        by_cases h : l = j
        · rw [beq_iff_eq.mpr h]
          exact (if_neg fun hk => hj (h.symm.trans hk)).symm
        · rw [beq_eq_false_iff_ne.mpr h]

/-- The other entries are left as they were. -/
theorem entry_setField_of_ne {k l : κ} (h : l ≠ k) (v : Json κ) (m : List (κ × Json κ)) :
    entry (setField k v m) l = entry m l := by
  rw [entry, entry, lookup_setField, if_neg h]

theorem mem_of_lookup {m : List (κ × Json κ)} {k : κ} {v : Json κ} (h : m.lookup k = some v) :
    (k, v) ∈ m := by
  rcases List.lookup_eq_some_iff.mp h with ⟨l₁, l₂, hm, _⟩
  rw [hm]
  exact List.mem_append_right _ List.mem_cons_self

theorem key_mem_of_lookup {m : List (κ × Json κ)} {k : κ} {v : Json κ} (h : m.lookup k = some v) :
    k ∈ m.map Prod.fst :=
  List.mem_map.mpr ⟨(k, v), mem_of_lookup h, rfl⟩

namespace Json

theorem Distinct.nodup {m : List (κ × Json κ)} (h : (object m).Distinct) :
    (m.map Prod.fst).Nodup :=
  h [] m rfl

/-- The values in an object. -/
theorem Distinct.entry {m : List (κ × Json κ)} (h : (object m).Distinct) {k : κ} {v : Json κ}
    (hv : m.lookup k = some v) : v.Distinct := by
  intro q n hq
  refine h (k :: q) n ?_
  rw [atPath, hv]
  exact hq

theorem distinct_object {m : List (κ × Json κ)} (hm : (m.map Prod.fst).Nodup)
    (h : ∀ e ∈ m, e.2.Distinct) : (object m).Distinct := by
  intro q n hq
  cases q with
  | nil =>
      rw [← Json.object.inj (Option.some.inj hq)]
      exact hm
  | cons k q =>
      rcases Option.bind_eq_some_iff.mp hq with ⟨v, hv, hq⟩
      exact h (k, v) (mem_of_lookup hv) q n hq

theorem atPath_cons_of_not {v : Json κ} (hv : v.isObject = false) (k : κ) (q : List κ) :
    v.atPath (k :: q) = none := by
  cases v with
  | object m => exact absurd hv.symm Bool.false_ne_true
  | _ => rfl

theorem distinct_of_not {v : Json κ} (hv : v.isObject = false) : v.Distinct := by
  intro q m hq
  cases q with
  | nil =>
      rw [Json.atPath, Option.some.injEq] at hq
      rw [hq] at hv
      exact absurd hv.symm Bool.false_ne_true
  | cons k q =>
      rw [atPath_cons_of_not hv] at hq
      exact absurd hq (by simp only [reduceCtorEq, not_false_eq_true])

theorem distinct_nested {v : Json κ} (hv : v.Distinct) (q : List κ) : (nested q v).Distinct := by
  induction q with
  | nil => exact hv
  | cons k q ih =>
      refine distinct_object (List.pairwise_singleton _ k) fun e he => ?_
      rw [List.mem_singleton.mp he]
      exact ih

theorem mentions_of_not {v : Json κ} (hv : v.isObject = false) (q : List κ) : v.Mentions q := by
  cases q with
  | nil => cases v <;> trivial
  | cons k q =>
      cases v with
      | object m => exact absurd hv.symm Bool.false_ne_true
      | _ => trivial

end Json

end JsonTree
