import Mathlib.Algebra.GroupWithZero.Nat
import Mathlib.Data.Nat.Log

/-!
# Single and Double Precision

The two binary interchange formats of 32 and 64 bits, by their magnitudes: the
bits without the sign, read as a number.

A magnitude is an exponent, and behind it a fraction with a leading one that is
not written unless the exponent is zero. The unit of a double with exponent `e`
is `2 ^ (e - 1075)`, that of a single `2 ^ (e - 150)`, where the exponent zero
counts as one. Widening is exact. Narrowing rounds to the nearest single, and to
the even one of two, and what is too large becomes infinite. Where the rounding
carries into the exponent the magnitude is right as it is, which is why the two
are simply added.

## Main definitions

* `exponent`, `significand`: The parts of a magnitude.
* `roundShift`: Division by a power of two, rounded to even.
* `singleOf`: The single nearest to a number.
* `narrow`, `widen`: From double to single and back.
* `Double`: A finite double.

## Theorems

* `roundShift_mul`: A number that needs no rounding.
* `narrow_widen`: A single is not changed by a detour.
* `widen_lt`: A finite single is a finite double.
-/

namespace Binary

/-- The exponent of a magnitude with `p` bits of fraction, where zero counts as
    one. -/
def exponent (p m : Nat) : Nat := max (m / 2 ^ p) 1

/-- The fraction, with its leading one. -/
def significand (p m : Nat) : Nat := m % 2 ^ p + if m / 2 ^ p = 0 then 0 else 2 ^ p

/-- `n / 2 ^ s`, rounded to the nearest number and to the even one of two. -/
def roundShift (n s : Nat) : Nat :=
  if 2 ^ s < 2 * (n % 2 ^ s) ∨ 2 * (n % 2 ^ s) = 2 ^ s ∧ n / 2 ^ s % 2 = 1 then n / 2 ^ s + 1
  else n / 2 ^ s

/-- The single nearest to `sig` times the unit of a double with the exponent `e`. -/
def singleOf (sig e : Nat) : Nat :=
  if sig = 0 then 0
  else
    -- the exponent of the single, less one
    let t := Nat.log2 sig + e - 949
    min (t * 2 ^ 23 + roundShift sig (t + 926 - e)) (255 * 2 ^ 23)

/-- A double as a single. -/
def narrow (m : Nat) : Nat := singleOf (significand 52 m) (exponent 52 m)

/-- A finite single as a double. -/
def widen (m : Nat) : Nat :=
  let sig := significand 23 m
  if sig = 0 then 0
  else (Nat.log2 sig + exponent 23 m + 872) * 2 ^ 52 + sig * 2 ^ (52 - Nat.log2 sig)

/-- A finite double. -/
structure Double where
  negative : Bool
  magnitude : Nat
  finite : magnitude < 2047 * 2 ^ 52
  deriving DecidableEq

/-- Equality of numbers: the zeros are equal. -/
def Double.eq (x y : Double) : Bool := x = y || x.magnitude == 0 && y.magnitude == 0

theorem Double.eq_refl (x : Double) : x.eq x = true := by
  rw [Double.eq, decide_eq_true rfl, Bool.true_or]

theorem roundShift_mul (n s : Nat) : roundShift (n * 2 ^ s) s = n := by
  have hpos : 0 < 2 ^ s := Nat.two_pow_pos s
  rw [roundShift, Nat.mul_mod_left, Nat.mul_div_cancel _ hpos, if_neg]
  omega

/-- The leading bit of a significand moved to the place of that of a double. -/
theorem normalized {sig : Nat} (hne : sig ≠ 0) (hlt : sig < 2 ^ 24) :
    Nat.log2 sig ≤ 23 ∧ 2 ^ 52 ≤ sig * 2 ^ (52 - Nat.log2 sig) ∧
      sig * 2 ^ (52 - Nat.log2 sig) < 2 ^ 53 := by
  have hlog : Nat.log2 sig ≤ 23 := Nat.le_of_lt_succ ((Nat.log2_lt hne).mpr hlt)
  have hlow : 2 ^ Nat.log2 sig ≤ sig := Nat.log2_self_le hne
  have hhigh : sig < 2 ^ (Nat.log2 sig + 1) := Nat.lt_log2_self
  have hsum : 2 ^ Nat.log2 sig * 2 ^ (52 - Nat.log2 sig) = 2 ^ 52 := by
    rw [← Nat.pow_add, Nat.add_sub_cancel' (by omega)]
  have hpos : 0 < 2 ^ (52 - Nat.log2 sig) := Nat.two_pow_pos _
  refine ⟨hlog, ?_, ?_⟩
  · rw [← hsum]
    exact Nat.mul_le_mul_right _ hlow
  · calc sig * 2 ^ (52 - Nat.log2 sig)
        < 2 ^ (Nat.log2 sig + 1) * 2 ^ (52 - Nat.log2 sig) := Nat.mul_lt_mul_of_pos_right hhigh hpos
      _ = 2 * 2 ^ 52 := by rw [Nat.pow_succ, Nat.mul_right_comm, hsum, Nat.mul_comm]
      _ = 2 ^ 53 := by decide

theorem significand_lt (m : Nat) : significand 23 m < 2 ^ 24 := by
  have hmod := Nat.mod_lt m (Nat.two_pow_pos 23)
  unfold significand
  split <;> omega

/-- A finite single as a double, taken apart. -/
theorem widen_parts {m : Nat} (hne : significand 23 m ≠ 0) :
    significand 52 (widen m) = significand 23 m * 2 ^ (52 - Nat.log2 (significand 23 m)) ∧
      exponent 52 (widen m) = Nat.log2 (significand 23 m) + exponent 23 m + 873 := by
  rcases normalized hne (significand_lt m) with ⟨_, hlow, hhigh⟩
  have hw : widen m = (Nat.log2 (significand 23 m) + exponent 23 m + 872) * 2 ^ 52 +
      significand 23 m * 2 ^ (52 - Nat.log2 (significand 23 m)) := by
    rw [widen, if_neg hne]
  rw [significand, exponent, hw]
  generalize significand 23 m * 2 ^ (52 - Nat.log2 (significand 23 m)) = s at hlow hhigh
  generalize Nat.log2 (significand 23 m) + exponent 23 m = k
  have hdiv : ((k + 872) * 2 ^ 52 + s) / 2 ^ 52 = k + 873 := by omega
  have hmod : ((k + 872) * 2 ^ 52 + s) % 2 ^ 52 = s - 2 ^ 52 := by omega
  rw [hdiv, hmod, if_neg (by omega)]
  omega

/-- Widening loses nothing. -/
theorem narrow_widen {m : Nat} (hm : m < 255 * 2 ^ 23) : narrow (widen m) = m := by
  by_cases hne : significand 23 m = 0
  · have hzero : m = 0 := by
      unfold significand at hne
      split at hne <;> omega
    rw [hzero]
    rfl
  rcases widen_parts hne with ⟨hsig, hexp⟩
  rcases normalized hne (significand_lt m) with ⟨hlog, hlow, hhigh⟩
  have hbits : Nat.log2 (significand 23 m * 2 ^ (52 - Nat.log2 (significand 23 m))) = 52 :=
    (Nat.log2_eq_iff (by omega)).mpr ⟨hlow, hhigh⟩
  have hround := roundShift_mul (significand 23 m) (52 - Nat.log2 (significand 23 m))
  rw [narrow, hsig, hexp, singleOf, if_neg (by omega), hbits]
  dsimp only
  -- the exponent comes out as it was, and the shift is undone
  have hparts : (52 + (Nat.log2 (significand 23 m) + exponent 23 m + 873) - 949) * 2 ^ 23 +
      significand 23 m = m ∧
      52 + (Nat.log2 (significand 23 m) + exponent 23 m + 873) - 949 + 926 -
        (Nat.log2 (significand 23 m) + exponent 23 m + 873) = 52 - Nat.log2 (significand 23 m) := by
    have hmod := Nat.mod_lt m (Nat.two_pow_pos 23)
    by_cases he : m / 2 ^ 23 = 0
    · -- no leading one: the unit is that of the smallest single
      have hsmall : significand 23 m = m := by
        rw [significand, if_pos he]
        omega
      have hlog' : Nat.log2 m < 23 := by
        rw [hsmall] at hne
        exact (Nat.log2_lt hne).mpr (by omega)
      have hone : exponent 23 m = 1 := by
        rw [exponent, he]
        rfl
      rw [hsmall, hone]
      omega
    · have hsig' : significand 23 m = m % 2 ^ 23 + 2 ^ 23 := by rw [significand, if_neg he]
      have hlog' : Nat.log2 (significand 23 m) = 23 :=
        (Nat.log2_eq_iff hne).mpr (by omega)
      have hexp' : exponent 23 m = m / 2 ^ 23 := by
        unfold exponent
        omega
      rw [hlog', hexp', hsig']
      omega
  rw [hparts.2, hround, hparts.1]
  omega

theorem widen_lt {m : Nat} (hm : m < 255 * 2 ^ 23) : widen m < 2047 * 2 ^ 52 := by
  by_cases hne : significand 23 m = 0
  · rw [widen, if_pos hne]
    decide
  rcases normalized hne (significand_lt m) with ⟨hlog, _, hhigh⟩
  have hexp : exponent 23 m ≤ 254 := by
    unfold exponent
    omega
  rw [widen, if_neg hne]
  omega

end Binary
