import PrivacyClaw.Core.Buffer
import PrivacyClaw.Theory.Draws

/-!
# Synthetics and the Token Markup

A token is cut out of a text at its first closing tag, so a display value that
held one would be cut short. Generated values never do, as long as the
original does not: most generators use letters, digits and a few signs, and the
ones that copy from the original put a symbol of their own between what they
copy.

## Main definitions

* `NoAngle`: A text without `<`.

## Theorems

* `noAngle_decimal`, `noAngle_hexLower`: Printed numbers.
* `noClose_genPhone`, `noClose_genDbConnection`, `noClose_genUrlWithCreds`: The
  generators that copy from the original.
* `generate_noClose`: A generated synthetic holds no closing tag.
* `getOrCreate_noClose`: Neither does one that is looked up or created.
-/

namespace PrivacyClaw

/-- The text holds no `<`. -/
def NoAngle (s : Str) : Prop := 60 ∉ s

instance (s : Str) : Decidable (NoAngle s) := inferInstanceAs (Decidable (60 ∉ s))

theorem NoAngle.append {s t : Str} (hs : NoAngle s) (ht : NoAngle t) : NoAngle (s ++ t) :=
  fun h => (List.mem_append.mp h).elim hs ht

/-- A closing tag starts with an angle. -/
theorem NoAngle.noClose {s : Str} (hs : NoAngle s) : ¬ xmlTokenClose <:+: s := by
  intro h
  exact hs (h.subset (by decide))

theorem noAngle_decimal (n : Nat) : NoAngle (decimal n) := fun h =>
  absurd (decimal_digit n _ h) (by decide)

theorem noAngle_hexLower (n : Nat) : NoAngle (hexLower n) := by
  intro h
  rcases List.mem_map.mp h with ⟨c, hc, he⟩
  rcases toDigits_mem 16 (by decide) n c hc with ⟨k, hk, rfl⟩
  revert he
  have : ∀ k < 16, UInt8.ofNat (Nat.digitChar k).toNat ≠ 60 := by decide
  exact this k hk

theorem noAngle_zeroPad (w : Nat) (s : Str) (hs : NoAngle s) : NoAngle (zeroPad w s) := by
  refine NoAngle.append ?_ hs
  intro h
  exact absurd (List.eq_of_mem_replicate h) (by decide)

section Generators

variable (R : Rand) (C : Chrono)

theorem noAngle_alphanumeric (len : Nat) (s : R.State) :
    NoAngle (genRandomAlphanumeric R len s) := by
  intro h
  have := drawMany_mem R (pick R alphanumericChars) (· ∈ alphanumericChars)
    (pick_mem R alphanumericChars (by decide)) len s 60 h
  exact absurd this (by decide)

theorem noAngle_uppercase (len : Nat) (s : R.State) : NoAngle (genRandomUppercase R len s) := by
  intro h
  have := drawMany_mem R (pick R uppercaseChars) (· ∈ uppercaseChars)
    (pick_mem R uppercaseChars (by decide)) len s 60 h
  exact absurd this (by decide)

theorem noAngle_genEmail (s : R.State) : NoAngle (genEmail R s) := by
  have hfirst : ∀ t ∈ firstNames, NoAngle (asciiLower t) := by decide
  have hlast : ∀ t ∈ lastNames, NoAngle (asciiLower t) := by decide
  unfold genEmail
  dsimp only
  refine (((hfirst _ (pick_mem R _ (by decide) _)).append ?_).append
    (hlast _ (pick_mem R _ (by decide) _))).append (by decide)
  split
  · decide
  · exact List.not_mem_nil

theorem noAngle_genSsn (s : R.State) : NoAngle (genSsn R s) := by
  unfold genSsn
  exact (((((noAngle_zeroPad _ _ (noAngle_decimal _)).append (by decide)).append
    (noAngle_zeroPad _ _ (noAngle_decimal _))).append (by decide)).append
    (noAngle_zeroPad _ _ (noAngle_decimal _)))

theorem noAngle_genCreditCard (original : Str) (s : R.State) :
    NoAngle (genCreditCard R original s) := by
  unfold genCreditCard
  dsimp only
  refine NoAngle.append ?_ (noAngle_decimal _)
  intro h
  rcases List.mem_cons.mp h with h | h
  · -- the first digit of the original, or a four
    cases hf : original.find? isAsciiDigit with
    | none =>
        rw [hf, Option.getD_none] at h
        exact absurd h (by decide)
    | some b =>
        rw [hf, Option.getD_some] at h
        have hd := List.find?_some hf
        rw [← h] at hd
        exact absurd hd (by decide)
  · rcases List.mem_map.mp h with ⟨d, hd, he⟩
    have hle := drawMany_mem R (R.genRange .u32 0 9) (· ≤ 9)
      (fun s => (R.genRange_mem .u32 0 9 s (by omega)).2) 14 s d hd
    have hall : ∀ d ≤ 9, UInt8.ofNat (48 + d) ≠ 60 := by decide
    exact hall d hle he

theorem noAngle_genIpv4 (s : R.State) : NoAngle (genIpv4 R s) := by
  unfold genIpv4
  exact ((((((by decide : NoAngle (lit "10.")).append (noAngle_decimal _)).append
    (by decide)).append (noAngle_decimal _)).append (by decide)).append (noAngle_decimal _))

theorem noAngle_genIpv6 (s : R.State) : NoAngle (genIpv6 R s) := by
  unfold genIpv6
  exact (((((by decide : NoAngle (lit "fd")).append
    (noAngle_zeroPad _ _ (noAngle_hexLower _))).append (by decide)).append
    (noAngle_zeroPad _ _ (noAngle_hexLower _))).append (by decide))

theorem noAngle_genPersonName (s : R.State) : NoAngle (genPersonName R s) := by
  have hfirst : ∀ t ∈ firstNames, NoAngle t := by decide
  have hlast : ∀ t ∈ lastNames, NoAngle t := by decide
  unfold genPersonName
  exact ((hfirst _ (pick_mem R _ (by decide) _)).append (by decide)).append
    (hlast _ (pick_mem R _ (by decide) _))

theorem noAngle_genOrgName (s : R.State) : NoAngle (genOrgName R s) := by
  have horg : ∀ t ∈ orgNames, NoAngle t := by decide
  exact horg _ (pick_mem R _ (by decide) _)

theorem noAngle_genAddress (s : R.State) : NoAngle (genAddress R s) := by
  have hstreet : ∀ t ∈ streetNames, NoAngle t := by decide
  have hsuffix : ∀ t ∈ streetSuffixes, NoAngle t := by decide
  unfold genAddress
  exact ((((noAngle_decimal _).append (by decide)).append
    (hstreet _ (pick_mem R _ (by decide) _))).append (by decide)).append
    (hsuffix _ (pick_mem R _ (by decide) _))

theorem noAngle_genDob (original d : Str) (s : R.State) (hd : genDob R C original s = some d) :
    NoAngle d := by
  unfold genDob at hd
  dsimp only at hd
  split at hd
  · rcases Option.map_eq_some_iff.mp hd with ⟨date, _, rfl⟩
    intro h
    exact absurd (C.format_mem date 60 h) (by decide)
  · rw [Option.some.injEq] at hd
    rw [← hd]
    exact ((((noAngle_decimal _).append (by decide)).append
      (noAngle_zeroPad _ _ (noAngle_decimal _))).append (by decide)).append
      (noAngle_zeroPad _ _ (noAngle_decimal _))

theorem noAngle_genAadhaar (s : R.State) : NoAngle (genAadhaar R s) := by
  unfold genAadhaar
  exact ((((noAngle_decimal _).append (by decide)).append
    (noAngle_zeroPad _ _ (noAngle_decimal _))).append (by decide)).append
    (noAngle_zeroPad _ _ (noAngle_decimal _))

theorem noAngle_genCpf (s : R.State) : NoAngle (genCpf R s) := by
  unfold genCpf
  dsimp only
  repeat' refine NoAngle.append ?_ ?_
  all_goals first
    | exact noAngle_decimal _
    | decide

/-- The country code that is copied is three bytes at most, too short for a
    tag. -/
theorem noClose_genPhone (original d : Str) (s : R.State) (hd : genPhone R original s = some d) :
    ¬ xmlTokenClose <:+: d := by
  unfold genPhone at hd
  simp only [Option.bind_eq_bind] at hd
  have hnum : NoAngle (lit "555-" ++
      zeroPad 4 (decimal (R.genRange .u32 0 9999 s).1) ++ lit "-" ++
      zeroPad 4 (decimal (R.genRange .u32 0 9999 (R.genRange .u32 0 9999 s).2).1)) :=
    (((by decide : NoAngle (lit "555-")).append
      (noAngle_zeroPad _ _ (noAngle_decimal _))).append (by decide)).append
      (noAngle_zeroPad _ _ (noAngle_decimal _))
  split at hd
  · rcases Option.bind_eq_some_iff.mp hd with ⟨code, hcode, hd⟩
    rw [Option.bind_some, Option.some.injEq] at hd
    rw [slice_eq_some_iff] at hcode
    have hlen : code.length ≤ 3 := by
      rw [hcode.2, List.length_drop, List.length_take]
      omega
    intro h
    -- the plus and the blank stand on both sides of the code
    have hsplit : d = [] ++ 43 :: (code ++ 32 :: (lit "555-" ++
          zeroPad 4 (decimal (R.genRange .u32 0 9999 s).1) ++ lit "-" ++
          zeroPad 4 (decimal (R.genRange .u32 0 9999 (R.genRange .u32 0 9999 s).2).1))) := by
      rw [← hd]
      simp only [show lit "+" = [43] by decide, show lit " " = [32] by decide, List.append_assoc,
        List.cons_append, List.nil_append]
    rw [hsplit] at h
    rcases Search.infix_separated (by decide) h with h | h
    · exact absurd h (by decide)
    · rcases Search.infix_separated (by decide) h with h | h
      · have hle := h.length_le
        have : xmlTokenClose.length = 6 := by decide
        omega
      · exact hnum.noClose h
  · rw [Option.bind_some, Option.some.injEq] at hd
    rw [← hd, List.nil_append]
    exact hnum.noClose

/-- Only the scheme is copied, and it is followed by another symbol. -/
theorem noClose_genDbConnection (original : Str) (ho : ¬ xmlTokenClose <:+: original) :
    ¬ xmlTokenClose <:+: genDbConnection original := by
  intro h
  have hcons : lit "synthetic:synthetic@localhost/db" =
      115 :: lit "ynthetic:synthetic@localhost/db" := by decide
  rw [genDbConnection, hcons] at h
  rcases Search.infix_separated (by decide) h with h | h
  · exact ho (h.trans (List.take_prefix _ _).isInfix)
  · exact absurd h (by decide)

/-- The scheme and the host are copied, with other symbols between them. -/
theorem noClose_genUrlWithCreds (original : Str) (ho : ¬ xmlTokenClose <:+: original) :
    ¬ xmlTokenClose <:+: genUrlWithCreds original := by
  intro h
  have hcons : lit "user:password@" = 117 :: (lit "ser:password" ++ [64]) := by decide
  unfold genUrlWithCreds at h
  dsimp only at h
  rw [hcons, List.append_assoc, List.cons_append] at h
  rcases Search.infix_separated (by decide) h with h | h
  · exact ho (h.trans (List.take_prefix _ _).isInfix)
  · rw [List.append_assoc, List.singleton_append] at h
    rcases Search.infix_separated (by decide) h with h | h
    · exact absurd h (by decide)
    · exact ho (h.trans (List.drop_suffix _ _).isInfix)

/-- A generated synthetic holds no closing tag, unless the original does. -/
theorem generate_noClose (ty : PiiType) (original d : Str) (locale : Locale) (s : R.State)
    (ho : ¬ xmlTokenClose <:+: original) (hd : generate R C ty original locale s = some d) :
    ¬ xmlTokenClose <:+: d := by
  -- Phone numbers and connection strings keep parts of the original; the other
  -- generators write no bracket at all, however the numbers fall.
  cases ty with
  | phone => exact noClose_genPhone R original d s hd
  | dateOfBirth => exact (noAngle_genDob R C original d s hd).noClose
  | dbConnectionString =>
      rw [← Option.some.inj hd]
      exact noClose_genDbConnection original ho
  | urlWithCreds =>
      rw [← Option.some.inj hd]
      exact noClose_genUrlWithCreds original ho
  | email => rw [← Option.some.inj hd]; exact (noAngle_genEmail R s).noClose
  | ssn => rw [← Option.some.inj hd]; exact (noAngle_genSsn R s).noClose
  | creditCard => rw [← Option.some.inj hd]; exact (noAngle_genCreditCard R original s).noClose
  | ipV4 => rw [← Option.some.inj hd]; exact (noAngle_genIpv4 R s).noClose
  | ipV6 => rw [← Option.some.inj hd]; exact (noAngle_genIpv6 R s).noClose
  | openAiApiKey | gitHubPat =>
      rw [← Option.some.inj hd]
      exact (NoAngle.append (by decide) (noAngle_alphanumeric R _ s)).noClose
  | awsAccessKey =>
      rw [← Option.some.inj hd]
      exact (NoAngle.append (by decide) (noAngle_uppercase R _ s)).noClose
  | sshPrivateKey => rw [← Option.some.inj hd]; decide
  | personName => rw [← Option.some.inj hd]; exact (noAngle_genPersonName R s).noClose
  | orgName => rw [← Option.some.inj hd]; exact (noAngle_genOrgName R s).noClose
  | address => rw [← Option.some.inj hd]; exact (noAngle_genAddress R s).noClose
  | aadhaarNumber => rw [← Option.some.inj hd]; exact (noAngle_genAadhaar R s).noClose
  | cpfNumber => rw [← Option.some.inj hd]; exact (noAngle_genCpf R s).noClose
  | awsSecretKey | bearerToken | medicalRecord | passportNumber | driversLicense
  | financialAccount | custom _ =>
      rw [← Option.some.inj hd]
      exact (noAngle_alphanumeric R _ s).noClose

/-- A display value that is looked up or created holds no closing tag, when
    neither the stored synthetics nor the original do; the stored ones still
    do not afterwards. -/
theorem getOrCreate_noClose (v v' : PiiVault) (o d : Str) (ty : PiiType) (locale : Locale)
    (tier : UInt8) (conf : F32) (ho : ¬ xmlTokenClose <:+: o)
    (hv : ∀ p s, v.getSynthetic p = some s → ¬ xmlTokenClose <:+: s)
    (hrun : getOrCreate R C v o ty locale tier conf = some (d, v')) :
    ¬ xmlTokenClose <:+: d ∧ v'.getSynthetic o = some d ∧
      ∀ p s, v'.getSynthetic p = some s → ¬ xmlTokenClose <:+: s := by
  rcases getOrCreate_cases R C v v' o d ty locale tier conf hrun with
    ⟨hs, rfl⟩ | ⟨hs, hfresh, rfl⟩
  · exact ⟨hv o d hs, hs, hv⟩
  · have hd := generate_noClose R C ty o d locale _ ho hfresh
    have hnew : o ∉ v.originalToSynthetic := AList.lookup_eq_none.mp hs
    have hmap : (v.addMapping o d ty tier conf).originalToSynthetic =
        v.originalToSynthetic.insert o d := by
      rw [PiiVault.addMapping, if_neg hnew]
      rfl
    refine ⟨hd, by rw [PiiVault.getSynthetic, hmap, AList.lookup_insert], ?_⟩
    -- the new value is for `o` alone
    intro p s hp
    rw [PiiVault.getSynthetic, hmap] at hp
    by_cases hpo : p = o
    · rw [hpo, AList.lookup_insert, Option.some.injEq] at hp
      rw [← hp]
      exact hd
    · rw [AList.lookup_insert_ne hpo] at hp
      exact hv p s hp

end Generators

end PrivacyClaw
