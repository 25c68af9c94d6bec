import PrivacyClaw.Core.Synth

/-!
# What Is Drawn

The draws of the generators and the forms of the numbers they print.

A generator is a few draws and a way to write them down. What it makes is
known as soon as each draw is known to lie in its table or range and each
number to be printed in as many characters as the format says.

## Theorems

* `pick_mem`, `drawMany_mem`, `length_drawMany`: What is drawn from a table, and
  how much.
* `digit_eq`: A digit and its value.
* `decimal_single`, `decimal_two`, `decimal_three`, `length_decimal_le`,
  `length_hexLower_le`: Numbers of few digits.
* `length_zeroPad`, `zeroPad_digit`, `zeroPad_zeros`: A number printed at a fixed
  width.
* `numeral_toDigits`, `decimal_inj`, `zeroPad_decimal_inj`, `zeroPad_hexLower_inj`: A printed
  number can be read back.
-/

namespace PrivacyClaw

section Tables

variable (R : Rand)

/-- A draw from a table is one of its entries. -/
theorem pick_mem {β : Type} [Inhabited β] (table : List β) (hne : table ≠ []) (s : R.State) :
    (pick R table s).1 ∈ table := by
  have hpos := List.length_pos_of_ne_nil hne
  have hidx := (R.genRange_mem .usize 0 (table.length - 1) s (Nat.zero_le _)).2
  have hlt : (R.genRange .usize 0 (table.length - 1) s).1 < table.length := by omega
  unfold pick
  dsimp only
  rw [List.getD_eq_getElem?_getD, List.getElem?_eq_getElem hlt, Option.getD_some]
  exact List.getElem_mem hlt

theorem drawMany_mem {β : Type} (draw : R.State → β × R.State) (P : β → Prop)
    (hP : ∀ s, P (draw s).1) : ∀ n s, ∀ x ∈ (drawMany R draw n s).1, P x := by
  intro n
  induction n with
  | zero => intro s x hx; exact absurd hx List.not_mem_nil
  | succ n ih =>
      intro s x hx
      simp only [drawMany, List.mem_cons] at hx
      rcases hx with rfl | hx
      · exact hP s
      · exact ih _ x hx

theorem length_drawMany {β : Type} (draw : R.State → β × R.State) :
    ∀ n s, (drawMany R draw n s).1.length = n := by
  intro n
  induction n with
  | zero => exact fun _ => rfl
  | succ n ih =>
      intro s
      simp only [drawMany, List.length_cons, ih]

end Tables

/-- A digit is 48 and its value. -/
theorem digit_eq (c : UInt8) (hc : isAsciiDigit c = true) :
    (c - 48).toNat < 10 ∧ c = UInt8.ofNat (48 + (c - 48).toNat) := by
  simp only [isAsciiDigit, Bool.and_eq_true, decide_eq_true_eq, UInt8.le_iff_toNat_le] at hc
  have h48 : (48 : UInt8).toNat = 48 := rfl
  have h57 : (57 : UInt8).toNat = 57 := rfl
  have hsub : (c - 48).toNat = c.toNat - 48 :=
    UInt8.toNat_sub_of_le _ _ (UInt8.le_iff_toNat_le.mpr hc.1)
  refine ⟨by omega, ?_⟩
  rw [hsub, show 48 + (c.toNat - 48) = c.toNat by omega, UInt8.ofNat_toNat]

/-- A number below ten is printed as one digit. -/
theorem decimal_single (n : Nat) (hn : n < 10) : decimal n = [UInt8.ofNat (48 + n)] := by
  rw [decimal_eq, if_pos hn]

/-- A number below a power of ten has at most as many digits. -/
theorem length_decimal_le (w n : Nat) (hw : 0 < w) (hn : n < 10 ^ w) : (decimal n).length ≤ w := by
  rw [decimal, List.length_map]
  exact (Nat.length_toDigits_le_iff (by decide) hw).mpr hn

theorem length_hexLower_le (w n : Nat) (hw : 0 < w) (hn : n < 16 ^ w) :
    (hexLower n).length ≤ w := by
  rw [hexLower, List.length_map]
  exact (Nat.length_toDigits_le_iff (by decide) hw).mpr hn

theorem length_zeroPad (w : Nat) (s : Str) (hs : s.length ≤ w) : (zeroPad w s).length = w := by
  rw [zeroPad, List.length_append, List.length_replicate]
  omega

/-- Padding adds zeros only. -/
theorem zeroPad_digit (w n : Nat) : ∀ b ∈ zeroPad w (decimal n), 48 ≤ b ∧ b ≤ 57 := by
  intro b hb
  rcases List.mem_append.mp hb with hb | hb
  · rw [(List.mem_replicate.mp hb).2]
    decide
  · exact decimal_digit n b hb

theorem digit_ascii (b : UInt8) (hb : 48 ≤ b ∧ b ≤ 57) : b < 0x80 :=
  UInt8.lt_of_le_of_lt hb.2 (by decide)

/-- Only zero is printed with zeros alone. -/
theorem zeroPad_zeros (k n : Nat) (h : zeroPad k (decimal n) = List.replicate k 48) : n = 0 := by
  have hzeros : ∀ n, (∀ b ∈ decimal n, b = 48) → n = 0 := by
    have hdigit : ∀ d < 10, UInt8.ofNat (48 + d) = 48 → d = 0 := by decide
    intro n
    induction n using Nat.strongRecOn with
    | ind n ih =>
        intro hall
        rw [decimal_eq] at hall
        by_cases hn : n < 10
        · rw [if_pos hn] at hall
          exact hdigit n hn (hall _ (List.mem_singleton_self _))
        · rw [if_neg hn, List.forall_mem_append, List.forall_mem_singleton] at hall
          have := ih (n / 10) (by omega) hall.1
          omega
  refine hzeros n fun b hb => ?_
  have hmem : b ∈ zeroPad k (decimal n) := List.mem_append_right _ hb
  rw [h] at hmem
  exact (List.mem_replicate.mp hmem).2

theorem decimal_two (n : Nat) (hlo : 10 ≤ n) (hhi : n < 100) :
    decimal n = [UInt8.ofNat (48 + n / 10), UInt8.ofNat (48 + n % 10)] := by
  rw [decimal_eq, if_neg (by omega), decimal_single (n / 10) (by omega)]
  rfl

theorem decimal_three (n : Nat) (hlo : 100 ≤ n) (hhi : n < 1000) : decimal n =
    [UInt8.ofNat (48 + n / 100), UInt8.ofNat (48 + n / 10 % 10), UInt8.ofNat (48 + n % 10)] := by
  rw [decimal_eq, if_neg (by omega), decimal_two (n / 10) (by omega) (by omega), Nat.div_div_eq_div_mul]
  rfl

/-- The number that a text of digits spells. -/
def numeral (radix : Nat) (s : Str) : Nat :=
  s.foldl (fun n b => n * radix + (digitValue b).getD 0) 0

/-- Zeros in front do not count. -/
theorem numeral_zeroPad (radix w : Nat) (s : Str) : numeral radix (zeroPad w s) = numeral radix s := by
  unfold zeroPad numeral
  rw [List.foldl_append]
  generalize w - s.length = k
  congr 1
  induction k with
  | zero => rfl
  | succ k ih =>
      rw [List.replicate_succ', List.foldl_append, ih]
      simp only [List.foldl_cons, List.foldl_nil, Nat.zero_mul]
      decide

theorem numeral_toDigits (radix : Nat) (hlo : 1 < radix) (hhi : radix ≤ 16) (n : Nat) :
    numeral radix ((Nat.toDigits radix n).map fun c => UInt8.ofNat c.toNat) = n := by
  have hdigit : ∀ k < 16, (digitValue (UInt8.ofNat (Nat.digitChar k).toNat)).getD 0 = k := by
    decide
  induction n using Nat.strongRecOn with
  | ind n ih =>
      rw [Nat.toDigits_eq_if hlo]
      by_cases hn : n < radix
      · rw [if_pos hn]
        simp only [numeral, List.map_cons, List.map_nil, List.foldl_cons, List.foldl_nil,
          Nat.zero_mul, Nat.zero_add]
        exact hdigit n (by omega)
      · have hrec := ih (n / radix) (Nat.div_lt_self (by omega) hlo)
        unfold numeral at hrec ⊢
        rw [if_neg hn, List.map_append, List.foldl_append, hrec]
        simp only [List.map_cons, List.map_nil, List.foldl_cons, List.foldl_nil]
        rw [hdigit (n % radix) (Nat.lt_of_lt_of_le (Nat.mod_lt _ (by omega)) hhi)]
        exact Nat.div_add_mod' n radix

theorem decimal_inj {a b : Nat} (h : decimal a = decimal b) : a = b := by
  rw [← numeral_toDigits 10 (by decide) (by decide) a, ← numeral_toDigits 10 (by decide) (by decide) b]
  exact congrArg (numeral 10) h

theorem zeroPad_decimal_inj {w a b : Nat}
    (h : zeroPad w (decimal a) = zeroPad w (decimal b)) : a = b := by
  have hval := congrArg (numeral 10) h
  rw [numeral_zeroPad, numeral_zeroPad] at hval
  rw [← numeral_toDigits 10 (by decide) (by decide) a, ← numeral_toDigits 10 (by decide) (by decide) b]
  exact hval

theorem zeroPad_hexLower_inj {w a b : Nat}
    (h : zeroPad w (hexLower a) = zeroPad w (hexLower b)) : a = b := by
  have hval := congrArg (numeral 16) h
  rw [numeral_zeroPad, numeral_zeroPad] at hval
  rw [← numeral_toDigits 16 (by decide) (by decide) a, ← numeral_toDigits 16 (by decide) (by decide) b]
  exact hval

end PrivacyClaw
