import PrivacyClaw.Core.CheckedSynth
import PrivacyClaw.Core.Patterns
import PrivacyClaw.Theory.Characters
import PrivacyClaw.Theory.Draws

/-!
# Panics of the Generators

Which originals the generators do not survive.

Most generators index tables with draws from their range, print digits, and cut
an original where something ASCII was found, which is between characters. Two do
more. A phone number with a plus is cut up to three bytes behind it: the search
for the end of the country code looks for a character, but one byte is added for
it, and where nothing is found three bytes are taken for granted. A birth date is
moved on by up to 97 days, and the calendar of the date crate has an end
(`generate_returns_iff`).

## Main definitions

* `Calendar`: The days of the date crate, by number.
* `CodeCut`: A country code that can be cut out.
* `GeneratorReturns`: The condition on an original.

## Theorems

* `Checked.pick_eq`, `Checked.drawMany_eq`: Draws return.
* `Checked.luhnCheckDigit_eq`, `Checked.cpfCheckDigit_eq`: Sums fit.
* `Checked.genDbConnection_eq`, `Checked.genUrlWithCreds_eq`: Slices at what was
  found.
* `Checked.generate_eq`: Apart from the two the generators return.
* `genPhone_isSome_iff`, `genDob_isSome_iff`: When the two return.
* `generate_returns_iff`: When a generator returns, and the lock is released.
-/

namespace PrivacyClaw

namespace Checked

section Generators

variable (R : Rand)

theorem pick_eq {β : Type} [Inhabited β] (table : List β) (hne : table ≠ []) (s : R.State) :
    pick R table s = some (PrivacyClaw.pick R table s) := by
  have hpos := List.length_pos_of_ne_nil hne
  have hidx := (R.genRange_mem .usize 0 (table.length - 1) s (Nat.zero_le _)).2
  have hlt : (R.genRange .usize 0 (table.length - 1) s).1 < table.length := by omega
  unfold pick PrivacyClaw.pick index
  dsimp only
  rw [List.getElem?_eq_getElem hlt, List.getD_eq_getElem?_getD, List.getElem?_eq_getElem hlt]
  rfl

theorem drawMany_eq {β : Type} (draw : R.State → Option (β × R.State))
    (draw' : R.State → β × R.State) (h : ∀ s, draw s = some (draw' s)) :
    ∀ n s, drawMany R draw n s = some (PrivacyClaw.drawMany R draw' n s) := by
  intro n
  induction n with
  | zero => exact fun _ => rfl
  | succ n ih =>
      intro s
      rw [drawMany, h]
      simp only [Option.bind_eq_bind, Option.bind_some, ih, PrivacyClaw.drawMany]

/-- Draws that are written down at once, or afterwards. -/
theorem drawMany_map {β γ : Type} (draw : R.State → β × R.State) (f : β → γ) : ∀ n s,
    (PrivacyClaw.drawMany R (fun s => (f (draw s).1, (draw s).2)) n s).1 =
      (PrivacyClaw.drawMany R draw n s).1.map f := by
  intro n
  induction n with
  | zero => exact fun _ => rfl
  | succ n ih =>
      intro s
      simp only [PrivacyClaw.drawMany, List.map_cons, ih]

theorem doubled_eq (b : Bool) (d : Nat) (hd : d ≤ 9) : ∃ t, t ≤ 9 ∧ doubled b d = some t ∧
    t = if b then (if d * 2 > 9 then d * 2 - 9 else d * 2) else d := by
  refine ⟨_, ?_, ?_, rfl⟩
  · split
    · split <;> omega
    · exact hd
  · unfold doubled sub32
    split
    · split
      · rw [if_pos (by omega)]
      · rfl
    · rfl

/-- The sum of a short digit string fits. -/
theorem luhnCheckDigit_eq (digits : Str) (hlen : digits.length ≤ 15) :
    luhnCheckDigit digits = some (PrivacyClaw.luhnCheckDigit digits) := by
  have hdigit : ∀ c : UInt8, (if isAsciiDigit c then (c - 48).toNat else 0) ≤ 9 := by
    intro c
    by_cases hc : isAsciiDigit c = true
    · have := (digit_eq c hc).1
      rw [if_pos hc]
      omega
    · rw [if_neg hc]
      omega
  -- each turn adds nine at most
  have hfold : ∀ (r : Str) (acc : Nat × Bool), acc.1 + 9 * r.length < 2 ^ 32 →
      r.foldlM (fun (acc : Nat × Bool) c => do
        let d ← doubled acc.2 (if isAsciiDigit c then (c - 48).toNat else 0)
        let sum ← add32 acc.1 d
        some (sum, !acc.2)) acc =
      some (r.foldl (fun (acc : Nat × Bool) c =>
        let d := if isAsciiDigit c then (c - 48).toNat else 0
        let d := if acc.2 then (if d * 2 > 9 then d * 2 - 9 else d * 2) else d
        (acc.1 + d, !acc.2)) acc) := by
    intro r
    induction r with
    | nil => exact fun _ _ => rfl
    | cons c r ih =>
        rintro ⟨sum, b⟩ hacc
        rw [List.length_cons] at hacc
        rcases doubled_eq b _ (hdigit c) with ⟨t, ht, heq, hplain⟩
        rw [List.foldlM_cons, List.foldl_cons]
        dsimp only at hacc ⊢
        rw [heq, ← hplain]
        simp only [Option.bind_eq_bind, Option.bind_some]
        rw [add32, if_pos (by omega), Option.bind_some]
        exact ih (sum + t, !b) (by dsimp only; omega)
  unfold luhnCheckDigit PrivacyClaw.luhnCheckDigit
  rw [hfold _ _ (by rw [List.length_reverse]; dsimp only; omega)]
  simp only [Option.bind_eq_bind, Option.bind_some, sub32]
  rw [if_pos (by omega)]
  rfl

/-- So does the weighted sum of nine digits. -/
theorem cpfCheckDigit_eq (d : List Nat) (k : Nat) (hlen : d.length ≤ 9) (hd : ∀ x ∈ d, x ≤ 9)
    (hk : 9 ≤ k) (hk' : k ≤ 11) : cpfCheckDigit d k = some (PrivacyClaw.cpfCheckDigit d k) := by
  have hfold : ∀ (l : List (Nat × Nat)) (sum : Nat), (∀ p ∈ l, p.1 ≤ 9 ∧ p.2 ≤ k) →
      sum + 99 * l.length < 2 ^ 32 →
      l.foldlM (fun (sum : Nat) (p : Nat × Nat) => do
        let w ← sub32 k p.2
        add32 sum (p.1 * w)) sum = some (sum + (l.map fun p => p.1 * (k - p.2)).sum) := by
    intro l
    induction l with
    | nil => exact fun _ _ _ => rfl
    | cons p l ih =>
        intro sum hl hsum
        rw [List.forall_mem_cons] at hl
        rw [List.length_cons] at hsum
        -- no summand is above 99
        have hprod : p.1 * (k - p.2) ≤ 9 * 11 := Nat.mul_le_mul hl.1.1 (by omega)
        rw [List.foldlM_cons, sub32, if_pos hl.1.2]
        simp only [Option.bind_eq_bind, Option.bind_some]
        rw [add32, if_pos (by omega), Option.bind_some, List.map_cons, List.sum_cons,
          ← Nat.add_assoc]
        exact ih _ hl.2 (by omega)
  have hzip : ∀ p ∈ d.zipIdx, p.1 ≤ 9 ∧ p.2 ≤ k := by
    rintro ⟨x, i⟩ hp
    have hi := List.snd_lt_of_mem_zipIdx hp
    exact ⟨hd x (List.fst_mem_of_mem_zipIdx hp), by dsimp only at hi ⊢; omega⟩
  unfold cpfCheckDigit
  rw [hfold _ 0 hzip (by rw [List.length_zipIdx]; omega), Nat.zero_add]
  simp only [Option.bind_eq_bind, Option.bind_some]
  change (if (d.zipIdx.map fun p => p.1 * (k - p.2)).sum % 11 < 2 then some 0
    else sub32 11 ((d.zipIdx.map fun p => p.1 * (k - p.2)).sum % 11)) = some
      (if (d.zipIdx.map fun p => p.1 * (k - p.2)).sum % 11 < 2 then 0
        else 11 - (d.zipIdx.map fun p => p.1 * (k - p.2)).sum % 11)
  split
  · rfl
  · rw [sub32, if_pos (by omega)]

theorem genEmail_eq (s : R.State) : genEmail R s = some (PrivacyClaw.genEmail R s) := by
  unfold genEmail PrivacyClaw.genEmail
  simp only [pick_eq R firstNames (by decide), pick_eq R lastNames (by decide),
    Option.bind_eq_bind, Option.bind_some]

theorem genPersonName_eq (s : R.State) :
    genPersonName R s = some (PrivacyClaw.genPersonName R s) := by
  unfold genPersonName PrivacyClaw.genPersonName
  simp only [pick_eq R firstNames (by decide), pick_eq R lastNames (by decide),
    Option.bind_eq_bind, Option.bind_some]

theorem genOrgName_eq (s : R.State) : genOrgName R s = some (PrivacyClaw.genOrgName R s) := by
  unfold genOrgName PrivacyClaw.genOrgName
  simp only [pick_eq R orgNames (by decide), Option.bind_eq_bind, Option.bind_some]

theorem genAddress_eq (s : R.State) : genAddress R s = some (PrivacyClaw.genAddress R s) := by
  unfold genAddress PrivacyClaw.genAddress
  simp only [pick_eq R streetNames (by decide), pick_eq R streetSuffixes (by decide),
    Option.bind_eq_bind, Option.bind_some]

theorem genRandomAlphanumeric_eq (len : Nat) (s : R.State) :
    genRandomAlphanumeric R len s = some (PrivacyClaw.genRandomAlphanumeric R len s) := by
  unfold genRandomAlphanumeric PrivacyClaw.genRandomAlphanumeric
  rw [drawMany_eq R _ _ (pick_eq R alphanumericChars (by decide))]
  rfl

theorem genRandomUppercase_eq (len : Nat) (s : R.State) :
    genRandomUppercase R len s = some (PrivacyClaw.genRandomUppercase R len s) := by
  unfold genRandomUppercase PrivacyClaw.genRandomUppercase
  rw [drawMany_eq R _ _ (pick_eq R uppercaseChars (by decide))]
  rfl

theorem genApiKey_eq (pre : Str) (n : Nat) (s : R.State) :
    genApiKey R pre n s = some (PrivacyClaw.genApiKey R pre n s) := by
  rw [genApiKey, genRandomAlphanumeric_eq]
  rfl

theorem genAwsAccessKey_eq (s : R.State) :
    genAwsAccessKey R s = some (PrivacyClaw.genAwsAccessKey R s) := by
  rw [genAwsAccessKey, genRandomUppercase_eq]
  rfl

theorem genCreditCard_eq (original : Str) (s : R.State) :
    genCreditCard R original s = some (PrivacyClaw.genCreditCard R original s) := by
  unfold genCreditCard PrivacyClaw.genCreditCard
  rw [drawMany_eq R _ (fun s => (UInt8.ofNat (48 + (R.genRange .u32 0 9 s).1),
    (R.genRange .u32 0 9 s).2)) fun s => by
      have hle := (R.genRange_mem .u32 0 9 s (Nat.zero_le 9)).2
      simp only [fromDigit, if_pos (Nat.lt_succ_of_le hle), Option.bind_eq_bind, Option.bind_some]]
  simp only [Option.bind_eq_bind, Option.bind_some]
  rw [drawMany_map R (R.genRange .u32 0 9) (fun d => UInt8.ofNat (48 + d)),
    luhnCheckDigit_eq _ (by rw [List.length_cons, List.length_map, length_drawMany])]
  rfl

theorem genCpf_eq (s : R.State) : genCpf R s = some (PrivacyClaw.genCpf R s) := by
  have hlen := length_drawMany R (R.genRange .u8 0 9) 9 s
  have hle := drawMany_mem R (R.genRange .u8 0 9) (· ≤ 9)
    (fun s => (R.genRange_mem .u8 0 9 s (Nat.zero_le 9)).2) 9 s
  unfold genCpf PrivacyClaw.genCpf
  dsimp only
  generalize (PrivacyClaw.drawMany R (R.genRange .u8 0 9) 9 s).1 = d at hlen hle
  -- the nine digits that are printed are there
  have hindex : ∀ i < 9, (index d i).map decimal = some (decimal (d.getD i 0)) := by
    intro i hi
    rw [index, List.getD_eq_getElem?_getD, List.getElem?_eq_getElem (by omega)]
    rfl
  simp only [cpfCheckDigit_eq d 10 (by omega) hle (by decide) (by decide),
    cpfCheckDigit_eq d 11 (by omega) hle (by decide) (by decide), Option.bind_eq_bind,
    Option.bind_some, hindex, Nat.reduceLT]

/-- An offset that was found is a boundary. -/
theorem slice_eq (s : Str) (a b : Nat) (hab : a ≤ b) (hb : b ≤ s.length)
    (ha : utf8Valid (s.drop a) = true) (hb' : utf8Valid (s.drop b) = true) :
    slice s a b = some ((s.take b).drop a) := by
  rw [slice_eq_some_iff]
  exact ⟨⟨hab, hb, isCharBoundary_of_head s a (by omega) (head_of_utf8Valid _ ha),
    isCharBoundary_of_head s b hb (head_of_utf8Valid _ hb')⟩, rfl⟩

theorem schemeEnd_spec (original : Str) (hv : utf8Valid original = true) :
    schemeEnd original ≤ original.length ∧
      utf8Valid (original.drop (schemeEnd original)) = true := by
  unfold schemeEnd
  cases hf : Search.find (lit "://") original with
  | none => exact ⟨Nat.zero_le _, hv⟩
  | some i =>
      have hlen : (lit "://").length = 3 := by decide
      have hcut := (utf8Valid_find _ _ i (by decide) (by decide) hv hf).2.2
      rcases Search.find_split _ _ i (by decide) hf with ⟨g, r, hs, hg, _⟩
      rw [hlen] at hcut
      refine ⟨?_, hcut⟩
      dsimp only
      rw [hs, List.length_append, List.length_append, hg, hlen]
      omega

theorem genDbConnection_eq (original : Str) (hv : utf8Valid original = true) :
    genDbConnection original = some (PrivacyClaw.genDbConnection original) := by
  rcases schemeEnd_spec original hv with ⟨hle, hcut⟩
  rw [genDbConnection, slice_eq original 0 _ (Nat.zero_le _) hle hv hcut]
  rfl

theorem genUrlWithCreds_eq (original : Str) (hv : utf8Valid original = true) :
    genUrlWithCreds original = some (PrivacyClaw.genUrlWithCreds original) := by
  rcases schemeEnd_spec original hv with ⟨hle, hcut⟩
  have hend : utf8Valid (original.drop original.length) = true := by
    rw [List.drop_length]
    rfl
  unfold genUrlWithCreds PrivacyClaw.genUrlWithCreds
  dsimp only
  rw [slice_eq original 0 _ (Nat.zero_le _) hle hv hcut,
    slice_eq original _ original.length hle (Nat.le_refl _) hcut hend, List.take_length]
  simp only [Option.bind_eq_bind, Option.bind_some]
  cases hf : Search.find (lit "@") (original.drop (schemeEnd original)) with
  | none =>
      dsimp only
      rw [slice_eq original _ original.length hle (Nat.le_refl _) hcut hend, List.take_length]
      rfl
  | some i =>
      have hlen : (lit "@").length = 1 := by decide
      have hat := (utf8Valid_find _ _ i (by decide) (by decide) hcut hf).2.2
      rcases Search.find_split _ _ i (by decide) hf with ⟨g, r, hs, hg, _⟩
      have hsize := congrArg List.length hs
      rw [List.length_drop, List.length_append, List.length_append, hg, hlen] at hsize
      rw [hlen, List.drop_drop, ← Nat.add_assoc] at hat
      dsimp only
      rw [slice_eq original _ original.length (by omega) (Nat.le_refl _) hat hend, List.take_length]
      rfl

/-- Apart from the phone numbers and the dates, every generator returns. -/
theorem generate_eq (C : Chrono) (ty : PiiType) (original : Str) (locale : Locale) (s : R.State)
    (hv : utf8Valid original = true) :
    generate R C ty original locale s = PrivacyClaw.generate R C ty original locale s := by
  cases ty with
  | email => exact genEmail_eq R s
  | creditCard => exact genCreditCard_eq R original s
  | openAiApiKey | gitHubPat => exact genApiKey_eq R _ _ s
  | awsAccessKey => exact genAwsAccessKey_eq R s
  | dbConnectionString => exact genDbConnection_eq original hv
  | urlWithCreds => exact genUrlWithCreds_eq original hv
  | personName => exact genPersonName_eq R s
  | orgName => exact genOrgName_eq R s
  | address => exact genAddress_eq R s
  | cpfNumber => exact genCpf_eq R s
  | phone | ssn | ipV4 | ipV6 | sshPrivateKey | dateOfBirth | aadhaarNumber => rfl
  | _ => exact genRandomAlphanumeric_eq R _ s

end Generators

end Checked

/-- A country code that can be cut out: three digits, or fewer digits and an ASCII
    character that ends them. -/
def CodeCut (afterPlus : Str) : Prop :=
  (3 ≤ afterPlus.length ∧ ∀ b ∈ afterPlus.take 3, isAsciiDigit b = true) ∨
    ∃ i b, i < 3 ∧ (afterPlus)[i]? = some b ∧ isAsciiDigit b = false ∧ b < 0x80 ∧
      ∀ c ∈ afterPlus.take i, isAsciiDigit c = true

/-- The days of the date crate: a date may be moved on up to the last one. -/
structure Calendar (C : Chrono) where
  day : C.Date → Nat
  lastDay : Nat
  addDays_isSome : ∀ d n, (C.addDays d n).isSome = true ↔ day d + n ≤ lastDay

/-- What must hold of an original for its generator to return. -/
def GeneratorReturns (R : Rand) {C : Chrono} (cal : Calendar C) (ty : PiiType) (original : Str)
    (s : R.State) : Prop :=
  match ty with
  | .phone => ∀ afterPlus, original = 43 :: afterPlus → CodeCut afterPlus
  | .dateOfBirth => ∀ d, C.parse original = some d →
      cal.day d + (R.genRange .i64 7 97 s).1 ≤ cal.lastDay
  | _ => True

theorem digit_lt (b : UInt8) (hb : isAsciiDigit b = true) : b < 0x80 := by
  simp only [isAsciiDigit, Bool.and_eq_true, decide_eq_true_eq] at hb
  exact UInt8.lt_of_le_of_lt hb.2 (by decide)

/-- Behind digits a character begins. -/
theorem utf8Valid_behind_digits (t : Str) (i : Nat) (hv : utf8Valid t = true)
    (hdigits : ∀ b ∈ t.take i, isAsciiDigit b = true) : utf8Valid (t.drop i) = true := by
  rw [← List.take_append_drop i t] at hv
  rwa [utf8Valid_append _ _ (utf8Valid_of_ascii _ fun b hb => digit_lt b (hdigits b hb))] at hv

/-- A character of several bytes is continued. -/
theorem isCont_of_wide (b : UInt8) (r : Str) (hv : utf8Valid (b :: r) = true) (hb : ¬ b < 0x80) :
    ∃ c ∈ r.head?, isCont c = true := by
  rcases utf8Valid_cons b r hv with ⟨w, t, hwt, hw, _⟩
  rcases w with _ | ⟨d, _ | ⟨c, w⟩⟩
  · exact absurd rfl (IsChar.tail hw).1
  · -- one byte would be an ASCII character
    rw [List.singleton_append, List.cons.injEq] at hwt
    rw [hwt.1] at hb
    exact absurd (of_decide_eq_true hw) hb
  · rw [List.cons_append, List.cons_append, List.cons.injEq] at hwt
    rw [hwt.2]
    exact ⟨c, rfl, (IsChar.tail hw).2.2 c List.mem_cons_self⟩

/-- Where the country code is cut, before the bound of three. -/
def codeEnd (afterPlus : Str) : Nat :=
  match afterPlus.findIdx? fun b => !isAsciiDigit b with
  | some i => i + 1
  | none => 3

/-- The slice behind the plus, for each way the search for the end of the code
    may come out. -/
theorem slice_code_isSome_iff (t : Str) (hv : utf8Valid t = true) :
    (slice t 0 (min (codeEnd t) 3)).isSome = true ↔ CodeCut t := by
  have hslice : ∀ n, (slice t 0 n).isSome = true ↔ n ≤ t.length ∧ isCharBoundary t n = true := by
    intro n
    unfold slice
    by_cases h : n ≤ t.length ∧ isCharBoundary t n = true
    · rw [if_pos ⟨Nat.zero_le _, h.1, isCharBoundary_zero t, h.2⟩]
      exact iff_of_true rfl h
    · rw [if_neg fun hc => h ⟨hc.2.1, hc.2.2.2⟩]
      exact iff_of_false Bool.false_ne_true h
  -- behind three digits a character ends
  have hthree : 3 ≤ t.length → (∀ b ∈ t.take 3, isAsciiDigit b = true) →
      isCharBoundary t 3 = true := fun hlen hdigits =>
    isCharBoundary_of_head t 3 hlen (head_of_utf8Valid _ (utf8Valid_behind_digits t 3 hv hdigits))
  unfold codeEnd
  cases hf : t.findIdx? fun b => !isAsciiDigit b with
  | none =>
      -- nothing but digits, of which three are taken for granted
      have hall : ∀ b ∈ t, isAsciiDigit b = true := by
        intro b hb
        have := List.findIdx?_eq_none_iff.mp hf b hb
        simpa only [Bool.not_eq_false'] using this
      rw [hslice]
      constructor
      · rintro ⟨hlen, _⟩
        exact Or.inl ⟨hlen, fun b hb => hall b (List.mem_of_mem_take hb)⟩
      · rintro (⟨hlen, hdigits⟩ | ⟨i, b, _, hb, hno, _⟩)
        · exact ⟨hlen, hthree hlen hdigits⟩
        · rw [hall b (List.mem_of_getElem? hb)] at hno
          exact absurd hno.symm Bool.false_ne_true
  | some i =>
      rcases List.findIdx?_eq_some_iff_getElem.mp hf with ⟨hi, hno, hbefore⟩
      have hno' : isAsciiDigit t[i] = false := by simpa only [Bool.not_eq_true'] using hno
      have hdigits : ∀ b ∈ t.take i, isAsciiDigit b = true := by
        intro b hb
        rcases List.mem_take_iff_getElem.mp hb with ⟨j, hj, rfl⟩
        have := hbefore j (by omega)
        simpa only [Bool.not_eq_true', Bool.not_eq_false] using this
      -- the end of the code is looked for in the whole text, but at most three bytes are cut
      by_cases hlong : 3 ≤ i
      · have htake : ∀ b ∈ t.take 3, isAsciiDigit b = true := fun b hb =>
          hdigits b ((List.take_subset_take_left t hlong) hb)
        rw [show min (i + 1) 3 = 3 by omega, hslice]
        exact iff_of_true ⟨by omega, hthree (by omega) htake⟩ (Or.inl ⟨by omega, htake⟩)
      · rw [show min (i + 1) 3 = i + 1 by omega, hslice]
        have hdrop : t.drop i = t[i] :: t.drop (i + 1) := List.drop_eq_getElem_cons hi
        have hrest := utf8Valid_behind_digits t i hv hdigits
        rw [hdrop] at hrest
        constructor
        · rintro ⟨_, hbound⟩
          refine Or.inr ⟨i, t[i], by omega, List.getElem?_eq_getElem hi, hno', ?_, hdigits⟩
          by_contra hwide
          -- the cut would be inside this character
          rcases isCont_of_wide _ _ hrest hwide with ⟨c, hc, hcont⟩
          rw [head_of_isCharBoundary t (i + 1) (Nat.succ_ne_zero i) hbound c hc] at hcont
          exact Bool.false_ne_true hcont
        · rintro (⟨_, hthree⟩ | ⟨j, b, hj, hb, hnob, hlt, hfront⟩)
          · have hmem : t[i] ∈ t.take 3 := List.mem_take_iff_getElem.mpr ⟨i, by omega, rfl⟩
            rw [hthree _ hmem] at hno'
            exact absurd hno'.symm Bool.false_ne_true
          · -- both are the first character that is no digit
            have hij : j = i := by
              rcases List.getElem?_eq_some_iff.mp hb with ⟨hjlen, hjb⟩
              rcases Nat.lt_trichotomy j i with h | h | h
              · have := hdigits t[j] (List.mem_take_iff_getElem.mpr ⟨j, by omega, rfl⟩)
                rw [hjb, hnob] at this
                exact absurd this Bool.false_ne_true
              · exact h
              · have := hfront t[i] (List.mem_take_iff_getElem.mpr ⟨i, by omega, rfl⟩)
                rw [hno'] at this
                exact absurd this Bool.false_ne_true
            subst hij
            rw [List.getElem?_eq_getElem hi, Option.some.injEq] at hb
            rw [hb, utf8Valid_ascii b _ hlt] at hrest
            exact ⟨hi, isCharBoundary_of_head t (j + 1) hi (head_of_utf8Valid _ hrest)⟩

theorem genPhone_isSome_iff (R : Rand) (original : Str) (s : R.State)
    (hv : utf8Valid original = true) :
    (genPhone R original s).isSome = true ↔
      ∀ afterPlus, original = 43 :: afterPlus → CodeCut afterPlus := by
  by_cases h : ∃ t, original = 43 :: t
  · rcases h with ⟨t, rfl⟩
    rw [utf8Valid_ascii 43 t (by decide)] at hv
    have hphone : (genPhone R (43 :: t) s).isSome = (slice t 0 (min (codeEnd t) 3)).isSome := by
      unfold genPhone
      dsimp only
      split
      next t' heq =>
        rw [← (List.cons.inj heq).2]
        change ((slice t 0 (min (codeEnd t) 3)).bind _).isSome = _
        cases slice t 0 (min (codeEnd t) 3) with
        | none => rfl
        | some code => rfl
      next hno => exact absurd rfl (hno t)
    rw [hphone, slice_code_isSome_iff t hv]
    constructor
    · intro hcut afterPlus heq
      rw [List.cons.injEq] at heq
      rw [← heq.2]
      exact hcut
    · exact fun hall => hall t rfl
  · -- without a plus nothing is cut
    refine iff_of_true ?_ fun t ht => absurd ⟨t, ht⟩ h
    cases original with
    | nil => rfl
    | cons b r =>
        have hb : b ≠ 43 := fun hb => h ⟨r, by rw [hb]⟩
        unfold genPhone
        dsimp only
        split
        next heq => exact absurd (List.cons.inj heq).1 hb
        next => rfl

theorem genDob_isSome_iff (R : Rand) {C : Chrono} (cal : Calendar C) (original : Str)
    (s : R.State) : (genDob R C original s).isSome = true ↔
      ∀ d, C.parse original = some d → cal.day d + (R.genRange .i64 7 97 s).1 ≤ cal.lastDay := by
  unfold genDob
  dsimp only
  cases hp : C.parse original with
  | none =>
      refine iff_of_true rfl fun d hd => absurd hd ?_
      simp only [reduceCtorEq, not_false_eq_true]
  | some d =>
      dsimp only
      rw [Option.isSome_map, cal.addDays_isSome]
      simp only [Option.some.injEq, forall_eq']

theorem generate_isSome_iff (R : Rand) {C : Chrono} (cal : Calendar C) (ty : PiiType)
    (original : Str) (locale : Locale) (s : R.State) (hv : utf8Valid original = true) :
    (Checked.generate R C ty original locale s).isSome = true ↔
      GeneratorReturns R cal ty original s := by
  rw [Checked.generate_eq R C ty original locale s hv]
  cases ty with
  | phone => exact genPhone_isSome_iff R original s hv
  | dateOfBirth => exact genDob_isSome_iff R cal original s
  | _ => exact iff_of_true rfl trivial

/-- A generator returns exactly when the country code can be cut out and the
    date can be moved on; and the call that holds the lock of the vault returns
    exactly when the original is known or its generator does. -/
theorem generate_returns_iff (R : Rand) {C : Chrono} (cal : Calendar C) (ty : PiiType)
    (original : Str) (locale : Locale) (hv : utf8Valid original = true) :
    (∀ s, (Checked.generate R C ty original locale s).isSome = true ↔
      GeneratorReturns R cal ty original s) ∧
    ∀ (v : PiiVault) (tier : UInt8) (confidence : F32),
      (Checked.getOrCreate R C v original ty locale tier confidence).isSome = true ↔
        (v.getSynthetic original).isSome = true ∨ GeneratorReturns R cal ty original
          (R.seedFromU64 (v.rngSeed + UInt64.ofNat v.mappingCount)) := by
  have hgen := fun s => generate_isSome_iff R cal ty original locale s hv
  refine ⟨hgen, fun v tier confidence => ?_⟩
  unfold Checked.getOrCreate
  cases hs : v.getSynthetic original with
  | some existing => exact iff_of_true rfl (Or.inl rfl)
  | none =>
      rw [← hgen, Option.isSome_none]
      simp only [Bool.false_eq_true, false_or]
      cases Checked.generate R C ty original locale
          (R.seedFromU64 (v.rngSeed + UInt64.ofNat v.mappingCount)) with
      | none => exact Iff.rfl
      | some d => exact iff_of_true rfl rfl

/-- A calendar without dates. -/
def Calendar.none : Calendar Chrono.none := ⟨fun d => d.elim, 0, fun d => d.elim⟩

/-- An ordinary phone number. -/
theorem generate_returns_iff_phone : (Checked.generate Rand.least Chrono.none .phone
    (lit "+1 555-123-4567") .enUs ()).isSome = true := by
  refine ((generate_returns_iff Rand.least Calendar.none .phone (lit "+1 555-123-4567") .enUs
    (by decide)).1 ()).mpr ?_
  intro t ht
  have h : lit "+1 555-123-4567" = 43 :: lit "1 555-123-4567" := by decide +kernel
  rw [h, List.cons.injEq] at ht
  rw [← ht.2]
  exact Or.inr ⟨1, 32, by decide, by decide, by decide, by decide, by decide +kernel⟩

/-- Behind the country code a space that does not break, which the pattern takes
    for white space; and a plus with too little behind it, as a model may name
    it. -/
theorem generate_panics :
    Regex.Matches (Pattern.phone .ascii) [] "+1\u00A0555-123-4567".toList [] ∧
    Checked.generate Rand.least Chrono.none .phone (lit "+1\u00A0555-123-4567") .enUs () = none ∧
    Checked.generate Rand.least Chrono.none .phone (lit "+12") .enUs () = none ∧
    ¬ ∀ (R : Rand) (C : Chrono) (ty : PiiType) (original : Str) (locale : Locale) (s : R.State),
      utf8Valid original = true → Checked.generate R C ty original locale s ≠ none := by
  have hnone : Checked.generate Rand.least Chrono.none .phone (lit "+1\u00A0555-123-4567") .enUs () =
      none := by decide +kernel
  refine ⟨by decide, hnone, by decide, fun hall => ?_⟩
  exact hall Rand.least Chrono.none .phone _ .enUs () (by decide) hnone

end PrivacyClaw
