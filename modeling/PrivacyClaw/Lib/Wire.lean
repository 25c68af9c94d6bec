import Mathlib.Algebra.GroupWithZero.Nat
import Mathlib.Data.List.Basic

/-!
# Fields on the Wire

Numbers and texts at the offsets of a byte string.

A format is written as one piece after the other and read at offsets. What a
reader finds at an offset is decided by what is left of the string there, so
each rule says what is read where the rest begins with some piece, and what is
left behind it (`Left.skip`). The offset of a rest lies in the string or at its
end, which is where a reader finds nothing more.

## Main definitions

* `be16`, `be24`: Numbers with the highest byte first.
* `ofBe16`, `ofBe24`: The numbers of such bytes.
* `u16At`, `range`: A number, and the bytes between two offsets.
* `Left`: What is left of a string at an offset.

## Theorems

* `ofBe16_be16`, `ofBe24_be24`: Numbers are read back.
* `Left.skip`, `Left.length_eq`: Moving on, and how much is left.
* `Left.getElem?_eq`, `Left.u16At_eq`, `Left.range_eq`: What is read.
* `Left.getElem?_end`, `Left.u16At_end`: Nothing is read at the end.
-/

namespace Wire

/-- A number in two bytes, the higher one first. -/
def be16 (n : Nat) : List UInt8 := [UInt8.ofNat (n / 256), UInt8.ofNat (n % 256)]

/-- A number in three bytes. -/
def be24 (n : Nat) : List UInt8 :=
  [UInt8.ofNat (n / 65536), UInt8.ofNat (n / 256 % 256), UInt8.ofNat (n % 256)]

/-- The number of two bytes. -/
def ofBe16 (a b : UInt8) : Nat := a.toNat * 256 + b.toNat

/-- The number of three bytes, put together by shifts. -/
def ofBe24 (a b c : UInt8) : Nat := a.toNat <<< 16 ||| b.toNat <<< 8 ||| c.toNat

/-- The number at an offset. -/
def u16At (s : List UInt8) (pos : Nat) : Option Nat := do
  let a ← s[pos]?
  let b ← s[pos + 1]?
  some (ofBe16 a b)

/-- The part between two offsets. -/
def range {α : Type*} (s : List α) (start stop : Nat) : Option (List α) :=
  if start ≤ stop ∧ stop ≤ s.length then some ((s.take stop).drop start) else none

theorem toNat_ofNat (n : Nat) (hn : n < 256) : (UInt8.ofNat n).toNat = n := by
  rw [UInt8.toNat_ofNat', Nat.mod_eq_of_lt (by omega)]

theorem ofBe16_be16 (n : Nat) (hn : n < 2 ^ 16) :
    ofBe16 (UInt8.ofNat (n / 256)) (UInt8.ofNat (n % 256)) = n := by
  rw [ofBe16, toNat_ofNat _ (by omega), toNat_ofNat _ (by omega)]
  omega

theorem ofBe24_be24 (n : Nat) (hn : n < 2 ^ 24) :
    ofBe24 (UInt8.ofNat (n / 65536)) (UInt8.ofNat (n / 256 % 256)) (UInt8.ofNat (n % 256)) = n := by
  rw [ofBe24, toNat_ofNat _ (by omega), toNat_ofNat _ (by omega), toNat_ofNat _ (by omega),
    Nat.or_assoc, ← Nat.shiftLeft_add_eq_or_of_lt (i := 8) (by omega),
    ← Nat.shiftLeft_add_eq_or_of_lt (i := 16) (by rw [Nat.shiftLeft_eq]; omega), Nat.shiftLeft_eq,
    Nat.shiftLeft_eq]
  omega

theorem length_be16 (n : Nat) : (be16 n).length = 2 := rfl

section Rest

variable {α : Type*}

/-- What is left of a string at an offset. -/
def Left (s : List α) (pos : Nat) (r : List α) : Prop := ∃ front, front.length = pos ∧ front ++ r = s

theorem Left.zero (s : List α) : Left s 0 s := ⟨[], rfl, rfl⟩

/-- Behind a piece the rest is left. -/
theorem Left.skip {s t r : List α} {pos : Nat} (h : Left s pos (t ++ r)) :
    Left s (pos + t.length) r := by
  rcases h with ⟨front, hlen, hs⟩
  exact ⟨front ++ t, by rw [List.length_append, hlen], by rw [List.append_assoc, hs]⟩

theorem Left.skip_cons {s r : List α} {x : α} {pos : Nat} (h : Left s pos (x :: r)) :
    Left s (pos + 1) r := Left.skip (t := [x]) h

theorem Left.length_eq {s r : List α} {pos : Nat} (h : Left s pos r) :
    pos + r.length = s.length := by
  rcases h with ⟨front, hlen, hs⟩
  rw [← hs, List.length_append, hlen]

theorem Left.getElem?_eq {s r : List α} {x : α} {pos : Nat} (h : Left s pos (x :: r)) :
    s[pos]? = some x := by
  rcases h with ⟨front, rfl, rfl⟩
  rw [List.getElem?_append_right (Nat.le_refl _), Nat.sub_self, List.getElem?_cons_zero]

theorem Left.getElem?_end {s : List α} {pos : Nat} (h : Left s pos []) : s[pos]? = none :=
  List.getElem?_eq_none (Nat.le_of_eq h.length_eq.symm)

theorem Left.range_eq {s t r : List α} {pos : Nat} (h : Left s pos (t ++ r)) :
    range s pos (pos + t.length) = some t := by
  have hlen := h.length_eq
  rw [List.length_append] at hlen
  rcases h with ⟨front, rfl, rfl⟩
  rw [range, if_pos ⟨Nat.le_add_right _ _, by omega⟩, List.take_length_add_append, List.drop_left,
    List.take_left]

end Rest

theorem Left.u16At_eq {s r : List UInt8} {n pos : Nat} (h : Left s pos (be16 n ++ r))
    (hn : n < 2 ^ 16) : u16At s pos = some n := by
  have h0 : s[pos]? = some (UInt8.ofNat (n / 256)) := Left.getElem?_eq h
  have h1 : s[pos + 1]? = some (UInt8.ofNat (n % 256)) := (Left.skip_cons h).getElem?_eq
  simp only [u16At, h0, h1, Option.bind_eq_bind, Option.bind_some, ofBe16_be16 n hn]

theorem Left.u16At_end {s : List UInt8} {pos : Nat} (h : Left s pos []) : u16At s pos = none := by
  rw [u16At, h.getElem?_end]
  rfl

end Wire
