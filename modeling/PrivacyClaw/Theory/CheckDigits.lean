import Mathlib.Data.List.GetD
import Mathlib.Tactic.IntervalCases
import PrivacyClaw.Core.Patterns
import PrivacyClaw.Theory.Draws

/-!
# Check Digits

Whether the numbers that are made up pass the tests that found the real ones.

For the Luhn sum the two loops begin with opposite phase, and the check digit
stands between them: behind it the validator is where the generator starts. So
a digit completes a number exactly when it is the generated one
(`luhnValid_insert_iff`).

The second digit of a CPF number is taken over ten digits by the validator and
over nine by the generator, which leaves twice the first check digit out. What
is lost is a multiple of eleven only when that digit is zero; apart from this
the two agree where both remainders fall into the pair that gives a zero
(`genCpf_valid_iff`).

## Main definitions

* `cpfSum1`, `cpfSum2`: The weighted sums of the first nine digits.
* `SecondDigitAgrees`: When the missing summand does not show.

## Theorems

* `luhnSum_shift`: The Luhn loop from another sum.
* `luhnValid_insert_iff`, `luhnValid_checkDigit`: The digit that completes a number.
* `luhnValid_genCreditCard`: Generated card numbers pass.
* `cpfValid_digits`: The validator on a number from its digits.
* `genCpf_valid_iff`: When a generated number passes.
-/

namespace PrivacyClaw

/-- One turn of the two Luhn loops, with the value of the digit. -/
def luhnStep (acc : Nat × Bool) (d : Nat) : Nat × Bool :=
  (acc.1 + (if acc.2 then (if d * 2 > 9 then d * 2 - 9 else d * 2) else d), !acc.2)

/-- What is summed up does not depend on the sum so far. -/
theorem luhnSum_shift (ds : List Nat) : ∀ (n : Nat) (b : Bool),
    (ds.foldl luhnStep (n, b)).1 = n + (ds.foldl luhnStep (0, b)).1 := by
  induction ds with
  | nil => exact fun n b => (Nat.add_zero n).symm
  | cons d ds ih =>
      intro n b
      have h := ih (luhnStep (n, b) d).1 (!b)
      have h0 := ih (luhnStep (0, b) d).1 (!b)
      simp only [luhnStep, Nat.zero_add] at h h0
      simp only [List.foldl_cons, luhnStep, Nat.zero_add]
      rw [h, h0, Nat.add_assoc]

/-- The generator's loop over a digit string, in values. -/
theorem luhnCheckDigit_eq (s : Str) (hs : ∀ b ∈ s, isAsciiDigit b = true) :
    luhnCheckDigit s = (10 - ((asciiDigits s).reverse.foldl luhnStep (0, true)).1 % 10) % 10 := by
  have hfold : ∀ (r : Str), (∀ b ∈ r, isAsciiDigit b = true) → ∀ acc : Nat × Bool,
      r.foldl (fun (acc : Nat × Bool) c =>
        let d := if isAsciiDigit c then (c - 48).toNat else 0
        let d := if acc.2 then (if d * 2 > 9 then d * 2 - 9 else d * 2) else d
        (acc.1 + d, !acc.2)) acc =
      (r.map fun c => (c - 48).toNat).foldl luhnStep acc := by
    intro r
    induction r with
    | nil => exact fun _ _ => rfl
    | cons c r ih =>
        intro hr acc
        simp only [List.foldl_cons, List.map_cons]
        rw [ih (fun b hb => hr b (List.mem_cons_of_mem _ hb))]
        simp only [luhnStep, if_pos (hr c List.mem_cons_self)]
  have hdigits : asciiDigits s = s.map fun c => (c - 48).toNat := by
    rw [asciiDigits, List.filter_eq_self.mpr hs]
  rw [hdigits, ← List.map_reverse]
  unfold luhnCheckDigit
  simp only
  rw [hfold _ (fun b hb => hs b (List.mem_reverse.mp hb))]

theorem luhnCheckDigit_lt (s : Str) : luhnCheckDigit s < 10 := Nat.mod_lt _ (by decide)

/-- The validator's loop is the same loop. -/
theorem luhnValid_eq (s : Str) :
    luhnValid s = (decide (13 ≤ (asciiDigits s).length ∧ (asciiDigits s).length ≤ 19) &&
      (((asciiDigits s).reverse.foldl luhnStep (0, false)).1 % 10 == 0)) := by
  unfold luhnValid
  by_cases h : (asciiDigits s).length < 13 ∨ (asciiDigits s).length > 19
  · rw [if_pos h, decide_eq_false (by omega), Bool.false_and]
  · rw [if_neg h, decide_eq_true (by omega), Bool.true_and]
    rfl

/-- A digit behind a digit string of 12 to 18 completes it exactly when it is
    the check digit; anything that is no digit may stand between. -/
theorem luhnValid_append_iff (s t : Str) (c : UInt8) (hs : ∀ b ∈ s, isAsciiDigit b = true)
    (hlo : 12 ≤ s.length) (hhi : s.length ≤ 18) (hc : isAsciiDigit c = true)
    (ht : t.filter isAsciiDigit = s ++ [c]) :
    luhnValid t = true ↔ c = UInt8.ofNat (48 + luhnCheckDigit s) := by
  have hdigits : asciiDigits t = asciiDigits s ++ [(c - 48).toNat] := by
    rw [asciiDigits, asciiDigits, ht, List.filter_eq_self.mpr hs, List.map_append,
      List.map_singleton]
  have hlen : (asciiDigits s).length = s.length := by
    rw [asciiDigits, List.filter_eq_self.mpr hs, List.length_map]
  have hsize : 13 ≤ (asciiDigits t).length ∧ (asciiDigits t).length ≤ 19 := by
    rw [hdigits, List.length_append, List.length_singleton]
    omega
  -- The validator takes the last digit as it is and goes on like the generator.
  have hsum : ((asciiDigits t).reverse.foldl luhnStep (0, false)).1 =
      (c - 48).toNat + ((asciiDigits s).reverse.foldl luhnStep (0, true)).1 := by
    rw [hdigits, List.reverse_append, List.reverse_singleton, List.singleton_append,
      List.foldl_cons, ← luhnSum_shift]
    simp only [luhnStep, Nat.zero_add, Bool.false_eq_true, if_false, Bool.not_false]
  rw [luhnValid_eq, decide_eq_true hsize, Bool.true_and, hsum, beq_iff_eq, luhnCheckDigit_eq s hs]
  generalize ((asciiDigits s).reverse.foldl luhnStep (0, true)).1 = n
  rcases digit_eq c hc with ⟨hlt, heq⟩
  -- ten digits, ten remainders
  have hinj : ∀ i < 10, ∀ j < 10, UInt8.ofNat (48 + i) = UInt8.ofNat (48 + j) → i = j := by decide
  constructor
  · intro hmod
    rw [heq, show (10 - n % 10) % 10 = (c - 48).toNat by omega]
  · intro h
    have h' := hinj _ hlt ((10 - n % 10) % 10) (Nat.mod_lt _ (by decide)) (heq.symm.trans h)
    omega

/-- A digit behind a digit string of 12 to 18 completes it exactly when it is
    the generated one, with spaces and dashes anywhere. -/
theorem luhnValid_insert_iff (s : Str) (hs : ∀ b ∈ s, isAsciiDigit b = true)
    (hlo : 12 ≤ s.length) (hhi : s.length ≤ 18) :
    ∀ c, isAsciiDigit c = true → ∀ t : Str, t.filter (fun b => b != 32 && b != 45) = s ++ [c] →
      (luhnValid t = true ↔ [c] = decimal (luhnCheckDigit s)) := by
  intro c hc t ht
  have hfilter : t.filter isAsciiDigit = s ++ [c] := by
    have hsub : t.filter isAsciiDigit =
        (t.filter fun b => b != 32 && b != 45).filter isAsciiDigit := by
      rw [List.filter_filter]
      refine List.filter_congr ?_
      intro b _
      cases hb : isAsciiDigit b with
      | false => rw [Bool.false_and]
      | true =>
          have h1 : b ≠ 32 := fun h => absurd (h ▸ hb) (by decide)
          have h2 : b ≠ 45 := fun h => absurd (h ▸ hb) (by decide)
          rw [bne_iff_ne.mpr h1, bne_iff_ne.mpr h2, Bool.and_true, Bool.and_true]
    rw [hsub, ht]
    refine List.filter_eq_self.mpr ?_
    intro b hb
    rcases List.mem_append.mp hb with hb | hb
    · exact hs b hb
    · rw [List.mem_singleton.mp hb]
      exact hc
  rw [luhnValid_append_iff s t c hs hlo hhi hc hfilter, decimal_single _ (luhnCheckDigit_lt s),
    List.cons.injEq, and_iff_left rfl]

/-- Generator and validator agree: a digit string of 12 to 18 is accepted with
    its check digit and rejected with every other digit behind it. -/
theorem luhnValid_checkDigit (s : Str) (hs : ∀ b ∈ s, isAsciiDigit b = true)
    (hlo : 12 ≤ s.length) (hhi : s.length ≤ 18) :
    (∀ t : Str, t.filter (fun b => b != 32 && b != 45) = s ++ decimal (luhnCheckDigit s) →
      luhnValid t = true) ∧
    ∀ c, isAsciiDigit c = true → [c] ≠ decimal (luhnCheckDigit s) →
      ∀ t : Str, t.filter (fun b => b != 32 && b != 45) = s ++ [c] → luhnValid t = false := by
  constructor
  · intro t ht
    have hlt := luhnCheckDigit_lt s
    have hdigit : ∀ d < 10, isAsciiDigit (UInt8.ofNat (48 + d)) = true := by decide
    rw [decimal_single _ hlt] at ht
    refine (luhnValid_insert_iff s hs hlo hhi _ (hdigit _ hlt) t ht).mpr ?_
    rw [decimal_single _ hlt]
  · intro c hc hne t ht
    rw [← Bool.not_eq_true, luhnValid_insert_iff s hs hlo hhi c hc t ht]
    exact hne

/-- A card number in groups of four, and the same number misread. -/
theorem luhnValid_checkDigit_visa : luhnValid (lit "4111 1111-1111 1111") = true ∧
    luhnValid (lit "4111 1111-1111 1112") = false := by
  have h := luhnValid_checkDigit (lit "411111111111111") (List.forall_iff_forall_mem.mp (by decide))
    (by decide) (by decide)
  exact ⟨h.1 _ (by decide), h.2 50 (by decide) (by decide) _ (by decide)⟩

/-- A generated card number passes the validator. -/
theorem luhnValid_genCreditCard (R : Rand) (original : Str) (s : R.State) :
    luhnValid (genCreditCard R original s) = true := by
  unfold genCreditCard
  dsimp only
  set digits := (original.find? isAsciiDigit).getD 52 ::
    (drawMany R (R.genRange .u32 0 9) 14 s).1.map fun d => UInt8.ofNat (48 + d) with hdef
  have hdigit : ∀ d ≤ 9, isAsciiDigit (UInt8.ofNat (48 + d)) = true := by decide
  have hlen : digits.length = 15 := by
    rw [hdef, List.length_cons, List.length_map, length_drawMany]
  have hs : ∀ b ∈ digits, isAsciiDigit b = true := by
    intro b hb
    rcases List.mem_cons.mp hb with rfl | hb
    · cases hf : original.find? isAsciiDigit with
      | none => rfl
      | some c => exact List.find?_some hf
    · rcases List.mem_map.mp hb with ⟨d, hd, rfl⟩
      exact hdigit d (drawMany_mem R _ (· ≤ 9)
        (fun s => (R.genRange_mem .u32 0 9 s (Nat.zero_le 9)).2) 14 s d hd)
  have hcheck := luhnCheckDigit_lt digits
  rw [decimal_single _ hcheck]
  refine (luhnValid_append_iff digits _ _ hs (by omega) (by omega) (hdigit _ (by omega)) ?_).mpr rfl
  refine List.filter_eq_self.mpr ?_
  intro b hb
  rcases List.mem_append.mp hb with hb | hb
  · exact hs b hb
  · rw [List.mem_singleton.mp hb]
    exact hdigit _ (by omega)

/-- The weighted sum behind the first check digit. -/
def cpfSum1 (d : List Nat) : Nat := (d.zipIdx.map fun (p : Nat × Nat) => p.1 * (10 - p.2)).sum

/-- The part of the nine digits in the weighted sum behind the second. -/
def cpfSum2 (d : List Nat) : Nat := (d.zipIdx.map fun (p : Nat × Nat) => p.1 * (11 - p.2)).sum

/-- The check digit for a weighted sum. -/
def checkMod11 (n : Nat) : Nat := if n % 11 < 2 then 0 else 11 - n % 11

/-- Twice the first check digit is not missed: it is zero, or both remainders
    give the digit zero. -/
def SecondDigitAgrees (d : List Nat) : Prop :=
  cpfSum1 d % 11 < 2 ∨ cpfSum1 d % 11 = 6 ∧ cpfSum2 d % 11 = 1 ∨
    cpfSum1 d % 11 = 5 ∧ cpfSum2 d % 11 = 0

instance (d : List Nat) : Decidable (SecondDigitAgrees d) :=
  inferInstanceAs (Decidable (_ ∨ _ ∧ _ ∨ _ ∧ _))

theorem cpfCheckDigit_ten (d : List Nat) : cpfCheckDigit d 10 = checkMod11 (cpfSum1 d) := rfl

theorem cpfCheckDigit_eleven (d : List Nat) : cpfCheckDigit d 11 = checkMod11 (cpfSum2 d) := rfl

theorem checkMod11_lt (n : Nat) : checkMod11 n < 10 := by
  unfold checkMod11
  split
  · decide
  · omega

/-- The digit forgets the remainder only where it is zero. -/
theorem checkMod11_eq_iff (m n : Nat) :
    checkMod11 m = checkMod11 n ↔ m % 11 = n % 11 ∨ m % 11 < 2 ∧ n % 11 < 2 := by
  unfold checkMod11
  split <;> split <;> omega

theorem asciiDigits_append (s t : Str) : asciiDigits (s ++ t) = asciiDigits s ++ asciiDigits t := by
  rw [asciiDigits, List.filter_append, List.map_append]
  rfl

/-- A printed digit is read back. -/
theorem asciiDigits_decimal (n : Nat) (hn : n < 10) : asciiDigits (decimal n) = [n] := by
  have hall : ∀ n < 10, asciiDigits [UInt8.ofNat (48 + n)] = [n] := by decide
  rw [decimal_single n hn]
  exact hall n hn

/-- The validator on nine digits that are not all the same, and two more. -/
theorem cpfValid_digits (s : Str) (d : List Nat) (c1 c2 : Nat) (hlen : d.length = 9)
    (hne : ∃ a ∈ d, ∃ b ∈ d, a ≠ b) (hs : asciiDigits s = d ++ [c1, c2]) :
    cpfValid s = true ↔ c1 = checkMod11 (cpfSum1 d) ∧ c2 = checkMod11 (cpfSum2 d + c1 * 2) := by
  have hall : ¬ (d ++ [c1, c2]).all (fun x => x == (d ++ [c1, c2]).getD 0 0) = true := by
    intro hall
    rcases hne with ⟨a, ha, b, hb, hab⟩
    have h := List.all_eq_true.mp hall
    have h1 := beq_iff_eq.mp (h a (List.mem_append_left _ ha))
    have h2 := beq_iff_eq.mp (h b (List.mem_append_left _ hb))
    exact hab (h1.trans h2.symm)
  have htake9 : (d ++ [c1, c2]).take 9 = d := List.take_left' hlen
  have htake10 : (d ++ [c1, c2]).take 10 = d ++ [c1] := by
    rw [show d ++ [c1, c2] = (d ++ [c1]) ++ [c2] by rw [List.append_assoc]; rfl]
    exact List.take_left' (by rw [List.length_append, hlen]; rfl)
  have hget9 : (d ++ [c1, c2]).getD 9 0 = c1 := by
    rw [List.getD_append_right _ _ _ _ (by omega), hlen]
    rfl
  have hget10 : (d ++ [c1, c2]).getD 10 0 = c2 := by
    rw [List.getD_append_right _ _ _ _ (by omega), hlen]
    rfl
  -- the tenth digit enters the second sum with weight two
  have hsum : ((d ++ [c1]).zipIdx.map fun (p : Nat × Nat) => p.1 * (11 - p.2)).sum =
      cpfSum2 d + c1 * 2 := by
    rw [List.zipIdx_append, List.map_append, List.sum_append, hlen]
    rfl
  unfold cpfValid
  have heleven : ¬ (d ++ [c1, c2]).length ≠ 11 := by
    rw [List.length_append, hlen]
    exact not_not.mpr rfl
  rw [hs, if_neg heleven, if_neg hall, htake9, htake10, hget9,
    hget10, hsum]
  change (if c1 ≠ checkMod11 (cpfSum1 d) then false
    else c2 == checkMod11 (cpfSum2 d + c1 * 2)) = true ↔ _
  by_cases h : c1 = checkMod11 (cpfSum1 d)
  · rw [if_neg (not_not.mpr h), beq_iff_eq]
    exact (and_iff_right h).symm
  · rw [if_pos h]
    exact ⟨fun hf => absurd hf Bool.false_ne_true, fun hc => absurd hc.1 h⟩

/-- The digits of a generated number: the nine that were drawn and the two
    check digits. -/
theorem asciiDigits_genCpf (R : Rand) (s : R.State) (d : List Nat)
    (hd : (drawMany R (R.genRange .u8 0 9) 9 s).1 = d) :
    asciiDigits (genCpf R s) = d ++ [checkMod11 (cpfSum1 d), checkMod11 (cpfSum2 d)] := by
  have hlen : d.length = 9 := hd ▸ length_drawMany R _ 9 s
  have hlt : ∀ x ∈ d, x < 10 := by
    intro x hx
    have := drawMany_mem R (R.genRange .u8 0 9) (· ≤ 9)
      (fun s => (R.genRange_mem .u8 0 9 s (Nat.zero_le 9)).2) 9 s x (hd ▸ hx)
    omega
  have hdigit : ∀ i, asciiDigits (decimal (d.getD i 0)) = [d.getD i 0] := by
    intro i
    refine asciiDigits_decimal _ ?_
    by_cases hi : i < d.length
    · rw [List.getD_eq_getElem _ _ hi]
      exact hlt _ (List.getElem_mem hi)
    · rw [List.getD_eq_default _ _ (Nat.le_of_not_lt hi)]
      decide
  -- the digits are printed one at a time, by index
  have hnine : d = (List.range 9).map fun i => d.getD i 0 := by
    refine List.ext_getElem (by rw [hlen, List.length_map, List.length_range]) ?_
    intro i h1 h2
    rw [List.getElem_map, List.getElem_range, List.getD_eq_getElem _ _ h1]
  have hsep : asciiDigits (lit ".") = [] ∧ asciiDigits (lit "-") = [] := by decide
  unfold genCpf
  simp only [hd, cpfCheckDigit_ten, cpfCheckDigit_eleven, asciiDigits_append, hdigit, hsep.1,
    hsep.2, asciiDigits_decimal _ (checkMod11_lt _)]
  generalize checkMod11 (cpfSum1 d) = c1
  generalize checkMod11 (cpfSum2 d) = c2
  conv_rhs => rw [hnine]
  rfl

/-- A generated number passes exactly when the missing summand does not
    show. -/
theorem genCpf_valid_iff (R : Rand) (s : R.State) (d : List Nat)
    (hd : (drawMany R (R.genRange .u8 0 9) 9 s).1 = d) (hne : ∃ a ∈ d, ∃ b ∈ d, a ≠ b) :
    cpfValid (genCpf R s) = true ↔ SecondDigitAgrees d := by
  rw [cpfValid_digits _ d _ _ (hd ▸ length_drawMany R _ 9 s) hne (asciiDigits_genCpf R s d hd),
    and_iff_right rfl]
  rw [checkMod11_eq_iff]
  unfold SecondDigitAgrees checkMod11
  generalize cpfSum2 d = n2
  -- one first remainder at a time, the second is linear
  have hlt : cpfSum1 d % 11 < 11 := Nat.mod_lt _ (by decide)
  generalize cpfSum1 d % 11 = r at hlt ⊢
  interval_cases r <;> norm_num <;> omega

/-- Digits whose first check digit is zero. -/
theorem genCpf_valid_iff_nine : cpfValid (genCpf (Rand.replay []) [1, 2, 3, 4, 5, 6, 7, 8, 9]) = true :=
  (genCpf_valid_iff (Rand.replay []) [1, 2, 3, 4, 5, 6, 7, 8, 9] [1, 2, 3, 4, 5, 6, 7, 8, 9]
    (by decide) ⟨1, by decide, 2, by decide, by decide⟩).mpr (by decide)

/-- A number that a real person may have, and what is generated from its nine
    digits. -/
theorem genCpf_not_valid : cpfValid (lit "529.982.247-25") = true ∧
    genCpf (Rand.replay []) [5, 2, 9, 9, 8, 2, 2, 4, 7] ≠ lit "529.982.247-25" ∧
    ¬ ∀ (R : Rand) (s : R.State),
      (∃ a ∈ (drawMany R (R.genRange .u8 0 9) 9 s).1,
        ∃ b ∈ (drawMany R (R.genRange .u8 0 9) 9 s).1, a ≠ b) → cpfValid (genCpf R s) = true := by
  refine ⟨by decide, by decide, ?_⟩
  intro hall
  have h := hall (Rand.replay []) [5, 2, 9, 9, 8, 2, 2, 4, 7]
    ⟨5, by decide, 2, by decide, by decide⟩
  exact absurd h (by decide)

end PrivacyClaw
