import PrivacyClaw.Theory.Draws

/-!
# What a Synthetic Is Made Of

When two generated values are the same text.

A generator makes its value of what it draws and of what it keeps of the
original. The recipe of a value records both. From the text the recipe can be
told again: which generator made it, by the signs the others do not use
(`looksLike`), and then each ingredient, by its width or by the sign behind it.
So two generated values are equal exactly when they have one recipe
(`Recipe.text_inj`), and for a pair of types that share no form they never are.

Some recipes draw little or nothing. Every private key has the same one. A
connection string has only its scheme, a URL its scheme and what stands behind
the first `@`, a name two draws from short tables. Card numbers, bearer tokens
and AWS keys have one form, so values of these types may meet.

## Main definitions

* `Recipe`, `Recipe.text`: The ingredients of a value, and the value.
* `recipe`: What a generator draws and keeps.
* `Recipe.Sound`: What holds of the ingredients of a generated value.
* `looksLike`: The form of a value, by its signs.
* `Recipe.Clash`: Two recipes make one text.

## Theorems

* `generate_eq_recipe`: A generator writes its recipe down.
* `recipe_sound`: What is drawn and kept is in range.
* `looksLike_text`: The form can be told from the text.
* `Recipe.text_inj`, `Recipe.text_eq_iff`: When two values are equal.
-/

namespace PrivacyClaw

/-- What is drawn for a value and kept of its original. -/
inductive Recipe where
  | email (first last : Nat) (dot : Bool)
  | phone (code : Option Str) (a b : Nat)
  | ssn (area group serial : Nat)
  | ipV4 (second third fourth : Nat)
  | ipV6 (g h : Nat)
  | openAiApiKey (chars : Str)
  | gitHubPat (chars : Str)
  | word (chars : Str)
  | sshPrivateKey
  | dbConnectionString (scheme : Str)
  | urlWithCreds (scheme rest : Str)
  | personName (first last : Nat)
  | orgName (i : Nat)
  | address (num street suffix : Nat)
  | dateOfBirth (y m d : Nat)
  | aadhaarNumber (a b c : Nat)
  | cpfNumber (d : List Nat)
  | given (text : Str)
  deriving DecidableEq

/-- The digits of a CPF number, with its check digits. -/
def cpfText (d : List Nat) : Str :=
  let digit (i : Nat) := decimal (d.getD i 0)
  digit 0 ++ digit 1 ++ digit 2 ++ lit "." ++ digit 3 ++ digit 4 ++ digit 5 ++ lit "." ++
    digit 6 ++ digit 7 ++ digit 8 ++ lit "-" ++
    decimal (cpfCheckDigit d 10) ++ decimal (cpfCheckDigit d 11)

/-- The country code of a phone number, with the signs around it. -/
def codeText : Option Str → Str
  | none => []
  | some code => lit "+" ++ code ++ lit " "

/-- The value that is made of the ingredients. -/
def Recipe.text : Recipe → Str
  | .email first last dot =>
    asciiLower (firstNames.getD first default) ++ (if dot then lit "." else []) ++
      asciiLower (lastNames.getD last default) ++ lit "@example.com"
  | .phone code a b =>
    codeText code ++ lit "555-" ++ zeroPad 4 (decimal a) ++ lit "-" ++ zeroPad 4 (decimal b)
  | .ssn area group serial =>
    zeroPad 3 (decimal area) ++ lit "-" ++ zeroPad 2 (decimal group) ++ lit "-" ++
      zeroPad 4 (decimal serial)
  | .ipV4 second third fourth =>
    lit "10." ++ decimal second ++ lit "." ++ decimal third ++ lit "." ++ decimal fourth
  | .ipV6 g h =>
    lit "fd" ++ zeroPad 4 (hexLower g) ++ lit ":" ++ zeroPad 4 (hexLower h) ++ lit "::1"
  | .openAiApiKey chars => lit "sk-" ++ chars
  | .gitHubPat chars => lit "ghp_" ++ chars
  | .word chars => chars
  | .sshPrivateKey => lit "[REDACTED_PRIVATE_KEY]"
  | .dbConnectionString scheme => scheme ++ lit "synthetic:synthetic@localhost/db"
  | .urlWithCreds scheme rest => scheme ++ lit "user:password@" ++ rest
  | .personName first last =>
    firstNames.getD first default ++ lit " " ++ lastNames.getD last default
  | .orgName i => orgNames.getD i default
  | .address num street suffix =>
    decimal num ++ lit " " ++ streetNames.getD street default ++ lit " " ++
      streetSuffixes.getD suffix default
  | .dateOfBirth y m d =>
    decimal y ++ lit "-" ++ zeroPad 2 (decimal m) ++ lit "-" ++ zeroPad 2 (decimal d)
  | .aadhaarNumber a b c =>
    decimal a ++ lit " " ++ zeroPad 4 (decimal b) ++ lit " " ++ zeroPad 4 (decimal c)
  | .cpfNumber d => cpfText d
  | .given text => text

section Draws

variable (R : Rand) (C : Chrono)

/-- The country code that a phone number keeps: none without a plus, and no result where the
    cut is not possible. -/
def countryCode : Str → Option (Option Str)
  | 43 :: afterPlus =>
    let codeEnd := match afterPlus.findIdx? (fun b => !isAsciiDigit b) with
      | some i => i + 1
      | none => 3
    (slice afterPlus 0 (min codeEnd 3)).map some
  | _ => some none

/-- Where a URL is kept from: behind the first `@` after the scheme. -/
def hostStart (original : Str) : Nat :=
  match Search.find (lit "@") (original.drop (schemeEnd original)) with
  | some i => schemeEnd original + i + 1
  | none => schemeEnd original

/-- What the generator of a type draws and keeps; a date of the calendar is given by the
    original and the days it is moved on. -/
def recipe (piiType : PiiType) (original : Str) (s : R.State) : Option Recipe :=
  match piiType with
  | .email =>
    let (first, s) := R.genRange .usize 0 25 s
    let (last, s) := R.genRange .usize 0 24 s
    let (dot, _) := R.genBool s
    some (.email first last dot)
  | .phone =>
    let (a, t) := R.genRange .u32 0 9999 s
    let (b, _) := R.genRange .u32 0 9999 t
    (countryCode original).map fun code => .phone code a b
  | .ssn =>
    let (area, s) := R.genRange .u32 100 665 s
    let (group, s) := R.genRange .u32 1 99 s
    let (serial, _) := R.genRange .u32 1 9999 s
    some (.ssn area group serial)
  | .creditCard => some (.word (genCreditCard R original s))
  | .ipV4 =>
    let (second, s) := R.genRange .u8 0 255 s
    let (third, s) := R.genRange .u8 0 255 s
    let (fourth, _) := R.genRange .u8 1 254 s
    some (.ipV4 second third fourth)
  | .ipV6 =>
    let (g, s) := R.genRange .u16 0 0xffff s
    let (h, _) := R.genRange .u16 0 0xffff s
    some (.ipV6 g h)
  | .openAiApiKey => some (.openAiApiKey (genRandomAlphanumeric R (max (original.length - 3) 32) s))
  | .awsAccessKey => some (.word (genAwsAccessKey R s))
  | .awsSecretKey => some (.word (genRandomAlphanumeric R 40 s))
  | .gitHubPat => some (.gitHubPat (genRandomAlphanumeric R (max (original.length - 4) 32) s))
  | .bearerToken => some (.word (genRandomAlphanumeric R (max original.length 32) s))
  | .sshPrivateKey => some .sshPrivateKey
  | .dbConnectionString => some (.dbConnectionString (original.take (schemeEnd original)))
  | .urlWithCreds =>
    some (.urlWithCreds (original.take (schemeEnd original)) (original.drop (hostStart original)))
  | .personName =>
    let (first, s) := R.genRange .usize 0 25 s
    let (last, _) := R.genRange .usize 0 24 s
    some (.personName first last)
  | .orgName => some (.orgName (R.genRange .usize 0 11 s).1)
  | .address =>
    let (num, s) := R.genRange .u32 1 9999 s
    let (street, s) := R.genRange .usize 0 13 s
    let (suffix, _) := R.genRange .usize 0 9 s
    some (.address num street suffix)
  | .dateOfBirth =>
    let (offsetDays, s) := R.genRange .i64 7 97 s
    match C.parse original with
    | some dt => (C.addDays dt offsetDays).map fun date => .given (C.format date)
    | none =>
      let (y, s) := R.genRange .u32 1950 2005 s
      let (m, s) := R.genRange .u32 1 12 s
      let (d, _) := R.genRange .u32 1 28 s
      some (.dateOfBirth y m d)
  | .aadhaarNumber =>
    let (a, s) := R.genRange .u32 2000 9999 s
    let (b, s) := R.genRange .u32 0 9999 s
    let (c, _) := R.genRange .u32 0 9999 s
    some (.aadhaarNumber a b c)
  | .cpfNumber => some (.cpfNumber (drawMany R (R.genRange .u8 0 9) 9 s).1)
  | _ => some (.word (genRandomAlphanumeric R (max original.length 8) s))

/-- A generator writes down what it draws and keeps. -/
theorem generate_eq_recipe (piiType : PiiType) (original : Str) (locale : Locale) (s : R.State) :
    generate R C piiType original locale s =
      (recipe R C piiType original s).map Recipe.text := by
  cases piiType with
  | phone =>
      change genPhone R original s = ((countryCode original).map _).map _
      by_cases hplus : ∃ afterPlus, original = 43 :: afterPlus
      · rcases hplus with ⟨afterPlus, rfl⟩
        simp only [genPhone, countryCode]
        generalize slice afterPlus 0 (min _ 3) = code
        cases code <;> rfl
      · have hnone : countryCode original = some none := by
          unfold countryCode
          split
          · exact absurd ⟨_, rfl⟩ hplus
          · rfl
        rw [hnone]
        unfold genPhone
        dsimp only
        split
        · exact absurd ⟨_, rfl⟩ hplus
        · rfl
  | dateOfBirth =>
      change genDob R C original s = _
      simp only [genDob, recipe]
      cases hparse : C.parse original with
      | none => rfl
      | some dt =>
          dsimp only
          rw [Option.map_map]
          rfl
  | _ => rfl

end Draws

/-- What holds of the ingredients of a generated value. -/
def Recipe.Sound : Recipe → Prop
  | .email first last _ => first < 26 ∧ last < 25
  | .phone code a b => (∀ c, code = some c → c.length ≤ 3) ∧ a < 10000 ∧ b < 10000
  | .ssn area group serial => area < 1000 ∧ group < 100 ∧ serial < 10000
  | .ipV6 g h => g < 65536 ∧ h < 65536
  | .openAiApiKey chars => (∀ b ∈ chars, b ∈ alphanumericChars) ∧ 32 ≤ chars.length
  | .gitHubPat chars => ∀ b ∈ chars, b ∈ alphanumericChars
  | .word chars => (∀ b ∈ chars, b ∈ alphanumericChars) ∧ 8 ≤ chars.length
  | .dbConnectionString scheme =>
    schemeEnd (scheme ++ lit "synthetic:synthetic@localhost/db") = scheme.length
  | .urlWithCreds scheme rest =>
    schemeEnd (scheme ++ lit "user:password@" ++ rest) = scheme.length
  | .personName first last => first < 26 ∧ last < 25
  | .orgName i => i < 12
  | .address _ street suffix => street < 14 ∧ suffix < 10
  | .dateOfBirth y m d => 1000 ≤ y ∧ y < 10000 ∧ m < 100 ∧ d < 100
  | .cpfNumber d => d.length = 9 ∧ ∀ x ∈ d, x < 10
  | _ => True

/-- The scheme that is kept ends where that of the original does, unless what stands behind
    it brings one along. -/
theorem schemeEnd_take (o tail : Str) (h : schemeEnd o = 0 → ¬ lit "://" <:+: tail) :
    schemeEnd (o.take (schemeEnd o) ++ tail) = (o.take (schemeEnd o)).length := by
  unfold schemeEnd at h ⊢
  cases hfind : Search.find (lit "://") o with
  | none =>
      rw [hfind] at h
      dsimp only
      rw [List.take_zero, List.nil_append, (Search.find_eq_none_iff _ _).mpr (h rfl)]
      rfl
  | some i =>
      dsimp only
      rcases Search.find_split _ _ _ (by decide) hfind with ⟨g, r, rfl, rfl, hg⟩
      have htake : (g ++ (lit "://" ++ r)).take (g.length + 3) = g ++ lit "://" := by
        rw [← List.append_assoc]
        exact List.take_left' (List.length_append)
      rw [htake, List.append_assoc, Search.find_append_headOnly _ _ _ (by decide) hg,
        List.length_append]
      rfl

/-- A URL without a scheme keeps a part without one. -/
theorem no_scheme_kept (o : Str) (h : schemeEnd o = 0) (n : Nat) :
    ¬ lit "://" <:+: lit "user:password@" ++ o.drop n := by
  have ho : ¬ lit "://" <:+: o := by
    unfold schemeEnd at h
    cases hfind : Search.find (lit "://") o with
    | none => exact (Search.find_eq_none_iff _ _).mp hfind
    | some i =>
        rw [hfind] at h
        exact absurd h (Nat.succ_ne_zero _)
  intro hin
  have hsplit : lit "user:password@" ++ o.drop n = lit "user:password" ++ 64 :: o.drop n := rfl
  rw [hsplit] at hin
  rcases Search.infix_separated (by decide) hin with hin | hin
  · exact absurd hin (by decide)
  · exact ho (hin.trans (List.drop_suffix n o).isInfix)

section Draws

variable (R : Rand) (C : Chrono)

theorem genRandomAlphanumeric_chars (n : Nat) (s : R.State) :
    (∀ b ∈ genRandomAlphanumeric R n s, b ∈ alphanumericChars) ∧
      (genRandomAlphanumeric R n s).length = n :=
  ⟨drawMany_mem R _ (fun b => b ∈ alphanumericChars)
    (fun s => pick_mem R alphanumericChars (by decide) s) n s, length_drawMany R _ n s⟩

theorem genAwsAccessKey_chars (s : R.State) :
    (∀ b ∈ genAwsAccessKey R s, b ∈ alphanumericChars) ∧ 8 ≤ (genAwsAccessKey R s).length := by
  have hupper : ∀ b ∈ uppercaseChars, b ∈ alphanumericChars := by decide +kernel
  refine ⟨List.forall_mem_append.mpr ⟨by decide +kernel, fun b hb => hupper b ?_⟩, ?_⟩
  · exact drawMany_mem R _ (fun b => b ∈ uppercaseChars)
      (fun s => pick_mem R uppercaseChars (by decide) s) 12 s b hb
  · rw [genAwsAccessKey, List.length_append]
    have h13 : (lit "AKIAIOSFODNN7").length = 13 := by decide
    omega

theorem genCreditCard_chars (o : Str) (s : R.State) :
    (∀ b ∈ genCreditCard R o s, b ∈ alphanumericChars) ∧ 8 ≤ (genCreditCard R o s).length := by
  have hdigit : ∀ k < 10, UInt8.ofNat (48 + k) ∈ alphanumericChars := by decide
  have hfirst : (o.find? isAsciiDigit).getD 52 ∈ alphanumericChars := by
    cases hfind : o.find? isAsciiDigit with
    | none => decide
    | some c =>
        rcases digit_eq c (List.find?_some hfind) with ⟨hlt, he⟩
        rw [Option.getD_some, he]
        exact hdigit _ hlt
  have hdraws : ∀ d ∈ (drawMany R (R.genRange .u32 0 9) 14 s).1, d ≤ 9 :=
    drawMany_mem R _ (fun d => d ≤ 9) (fun s => (R.genRange_mem .u32 0 9 s (by decide)).2) 14 s
  have hlen := length_drawMany R (R.genRange .u32 0 9) 14 s
  unfold genCreditCard
  dsimp only
  constructor
  · refine List.forall_mem_append.mpr ⟨List.forall_mem_cons.mpr ⟨hfirst, fun b hb => ?_⟩, ?_⟩
    · rcases List.mem_map.mp hb with ⟨d, hd, rfl⟩
      exact hdigit d (by have := hdraws d hd; omega)
    · have hluhn : ∀ ds, luhnCheckDigit ds < 10 := fun ds => Nat.mod_lt _ (by decide)
      rw [decimal_single _ (hluhn _)]
      exact fun b hb => List.mem_singleton.mp hb ▸ hdigit _ (hluhn _)
  · rw [List.length_append, List.length_cons, List.length_map, hlen]
    omega

/-- What a generator draws and keeps is in range. -/
theorem recipe_sound (piiType : PiiType) (o : Str) (s : R.State) (r : Recipe)
    (hr : recipe R C piiType o s = some r) : r.Sound := by
  have hle : ∀ k lo hi s, lo ≤ hi → (R.genRange k lo hi s).1 < hi + 1 := fun k lo hi s h =>
    Nat.lt_succ_of_le (R.genRange_mem k lo hi s h).2
  have hchars := genRandomAlphanumeric_chars R
  cases piiType with
  | email =>
      rcases Option.some.inj hr with rfl
      exact ⟨hle _ _ _ _ (by decide), hle _ _ _ _ (by decide)⟩
  | phone =>
      rcases Option.map_eq_some_iff.mp hr with ⟨code, hcode, rfl⟩
      refine ⟨fun c hc => ?_, hle _ _ _ _ (by decide), hle _ _ _ _ (by decide)⟩
      -- the cut is at three bytes
      unfold countryCode at hcode
      split at hcode
      · rcases Option.map_eq_some_iff.mp hcode with ⟨c', hslice, he⟩
        rw [hc, Option.some.injEq] at he
        rw [← he, ((slice_eq_some_iff _ _ _ _).mp hslice).2, List.drop_zero]
        exact Nat.le_trans (List.length_take_le _ _) (Nat.min_le_right _ _)
      · rw [hc] at hcode
        exact absurd hcode (by simp only [Option.some.injEq, reduceCtorEq, not_false_eq_true])
  | ssn =>
      rcases Option.some.inj hr with rfl
      exact ⟨Nat.lt_trans (hle _ _ _ _ (by decide)) (by decide), hle _ _ _ _ (by decide),
        hle _ _ _ _ (by decide)⟩
  | creditCard =>
      rcases Option.some.inj hr with rfl
      exact genCreditCard_chars R o s
  | ipV4 =>
      rcases Option.some.inj hr with rfl
      trivial
  | ipV6 =>
      rcases Option.some.inj hr with rfl
      exact ⟨hle _ _ _ _ (by decide), hle _ _ _ _ (by decide)⟩
  | openAiApiKey =>
      rcases Option.some.inj hr with rfl
      refine ⟨(hchars _ s).1, ?_⟩
      rw [(hchars _ s).2]
      exact Nat.le_max_right _ _
  | awsAccessKey =>
      rcases Option.some.inj hr with rfl
      exact genAwsAccessKey_chars R s
  | awsSecretKey =>
      rcases Option.some.inj hr with rfl
      refine ⟨(hchars _ s).1, ?_⟩
      rw [(hchars _ s).2]
      decide
  | gitHubPat =>
      rcases Option.some.inj hr with rfl
      exact (hchars _ s).1
  | bearerToken =>
      rcases Option.some.inj hr with rfl
      refine ⟨(hchars _ s).1, ?_⟩
      rw [(hchars _ s).2]
      omega
  | sshPrivateKey =>
      rcases Option.some.inj hr with rfl
      trivial
  | dbConnectionString =>
      rcases Option.some.inj hr with rfl
      exact schemeEnd_take o _ fun _ => by decide
  | urlWithCreds =>
      rcases Option.some.inj hr with rfl
      unfold Recipe.Sound
      dsimp only
      rw [List.append_assoc]
      exact schemeEnd_take o _ fun h => no_scheme_kept o h _
  | personName =>
      rcases Option.some.inj hr with rfl
      exact ⟨hle _ _ _ _ (by decide), hle _ _ _ _ (by decide)⟩
  | orgName =>
      rcases Option.some.inj hr with rfl
      exact hle _ _ _ _ (by decide)
  | address =>
      rcases Option.some.inj hr with rfl
      exact ⟨hle _ _ _ _ (by decide), hle _ _ _ _ (by decide)⟩
  | dateOfBirth =>
      simp only [recipe] at hr
      cases hparse : C.parse o with
      | some dt =>
          rw [hparse] at hr
          rcases Option.map_eq_some_iff.mp hr with ⟨date, _, rfl⟩
          trivial
      | none =>
          rw [hparse] at hr
          rcases Option.some.inj hr with rfl
          refine ⟨?_, Nat.lt_trans (hle _ _ _ _ (by decide)) (by decide),
            Nat.lt_trans (hle _ _ _ _ (by decide)) (by decide),
            Nat.lt_trans (hle _ _ _ _ (by decide)) (by decide)⟩
          exact Nat.le_trans (by decide) (R.genRange_mem _ _ _ _ (by decide)).1
  | aadhaarNumber =>
      rcases Option.some.inj hr with rfl
      trivial
  | cpfNumber =>
      rcases Option.some.inj hr with rfl
      exact ⟨length_drawMany R _ 9 s, drawMany_mem R _ (fun d => d < 10)
        (fun s => hle _ _ _ s (by decide)) 9 s⟩
  | _ =>
      rcases Option.some.inj hr with rfl
      refine ⟨(hchars _ s).1, ?_⟩
      rw [(hchars _ s).2]
      exact Nat.le_max_right _ _

end Draws

/-- The form of a value without an `@`, a plus or brackets. -/
def plainLook (s : Str) : PiiType :=
  if 58 ∈ s then .ipV6
  else if 32 ∈ s then
    if s.head?.any isAsciiDigit then
      if s.all (fun b => isAsciiDigit b || b == 32) then .aadhaarNumber else .address
    else if s ∈ orgNames then .orgName else .personName
  else if 46 ∈ s then if 45 ∈ s then .cpfNumber else .ipV4
  else if 95 ∈ s then .gitHubPat
  else if 45 ∈ s then
    if s.length = 10 then .dateOfBirth
    else if s.length = 11 then .ssn
    else if s.length = 13 then .phone
    else .openAiApiKey
  else if s.length < 8 then .orgName
  else .bearerToken

/-- The form of a value, by the signs in it. -/
def looksLike (s : Str) : PiiType :=
  if s = lit "[REDACTED_PRIVATE_KEY]" then .sshPrivateKey
  else if s.head? = some 43 ∧ s.length ≤ 18 ∧ s.getLast?.any isAsciiDigit then .phone
  else if 64 ∈ s then
    if 58 ∈ s then
      if lit "user" <+: s.drop (schemeEnd s) then .urlWithCreds else .dbConnectionString
    else .email
  else plainLook s

/-- The form of a recipe. -/
def Recipe.looks : Recipe → PiiType
  | .email .. => .email
  | .phone .. => .phone
  | .ssn .. => .ssn
  | .ipV4 .. => .ipV4
  | .ipV6 .. => .ipV6
  | .openAiApiKey .. => .openAiApiKey
  | .gitHubPat .. => .gitHubPat
  | .word .. => .bearerToken
  | .sshPrivateKey => .sshPrivateKey
  | .dbConnectionString .. => .dbConnectionString
  | .urlWithCreds .. => .urlWithCreds
  | .personName .. => .personName
  | .orgName .. => .orgName
  | .address .. => .address
  | .dateOfBirth .. => .dateOfBirth
  | .aadhaarNumber .. => .aadhaarNumber
  | .cpfNumber .. => .cpfNumber
  | .given text => looksLike text

theorem looksLike_plain (s : Str) (h91 : 91 ∉ s) (h43 : 43 ∉ s) (h64 : 64 ∉ s) :
    looksLike s = plainLook s := by
  have hkey : s ≠ lit "[REDACTED_PRIVATE_KEY]" := by
    rintro rfl
    exact h91 (by decide)
  have hplus : ¬ (s.head? = some 43 ∧ s.length ≤ 18 ∧ s.getLast?.any isAsciiDigit) :=
    fun h => h43 (List.mem_of_head? h.1)
  rw [looksLike, if_neg hkey, if_neg hplus, if_neg h64]

/-- Digits and the given signs. -/
def Numeric (signs s : Str) : Prop := ∀ b ∈ s, (48 ≤ b ∧ b ≤ 57) ∨ b ∈ signs

namespace Numeric

variable {signs s t : Str}

theorem append (hs : Numeric signs s) (ht : Numeric signs t) : Numeric signs (s ++ t) :=
  List.forall_mem_append.mpr ⟨hs, ht⟩

theorem decimal (n : Nat) : Numeric signs (decimal n) := fun b hb => .inl (decimal_digit n b hb)

theorem zeroPad (w n : Nat) : Numeric signs (zeroPad w (PrivacyClaw.decimal n)) :=
  fun b hb => .inl (zeroPad_digit w n b hb)

theorem not_mem (hs : Numeric signs s) {b : UInt8} (hb : ¬ (48 ≤ b ∧ b ≤ 57)) (hsign : b ∉ signs) :
    b ∉ s := fun h => (hs b h).elim hb hsign

end Numeric

theorem decimal_ne_nil (n : Nat) : decimal n ≠ [] := by
  rw [decimal_eq]
  split
  · exact List.cons_ne_nil _ _
  · exact List.append_ne_nil_of_right_ne_nil _ (List.cons_ne_nil _ _)

theorem head_decimal (n : Nat) : (decimal n).head?.any isAsciiDigit := by
  rw [List.head?_eq_some_head (decimal_ne_nil n), Option.any_some, isAsciiDigit, Bool.and_eq_true,
    decide_eq_true_eq, decide_eq_true_eq]
  exact decimal_digit n _ (List.head_mem _)

theorem hexLower_mem (n : Nat) : ∀ b ∈ hexLower n, b ∈ lit "0123456789abcdef" := by
  have hdigit : ∀ k < 16, UInt8.ofNat (Nat.digitChar k).toNat ∈ lit "0123456789abcdef" := by decide
  intro b hb
  rcases List.mem_map.mp hb with ⟨c, hc, rfl⟩
  rcases toDigits_mem 16 (by decide) n c hc with ⟨k, hk, rfl⟩
  exact hdigit k hk

theorem length_zeroPad_decimal (w n : Nat) (hw : 0 < w) (hn : n < 10 ^ w) :
    (zeroPad w (decimal n)).length = w :=
  length_zeroPad w _ (length_decimal_le w n hw hn)

/-- A value of digits and signs looks like its plain form. -/
theorem Numeric.looksLike {signs s : Str} (hs : Numeric signs s)
    (hsigns : 91 ∉ signs ∧ 43 ∉ signs ∧ 64 ∉ signs) : looksLike s = plainLook s :=
  looksLike_plain s (hs.not_mem (by decide) hsigns.1) (hs.not_mem (by decide) hsigns.2.1)
    (hs.not_mem (by decide) hsigns.2.2)

/-- Digits and dashes: which form it is shows in the length. -/
theorem Numeric.plainLook_dashes {s : Str} (hs : Numeric (lit "-") s) (hdash : 45 ∈ s) :
    plainLook s = if s.length = 10 then .dateOfBirth else if s.length = 11 then .ssn
      else if s.length = 13 then .phone else .openAiApiKey := by
  rw [plainLook, if_neg (hs.not_mem (by decide) (by decide)),
    if_neg (hs.not_mem (by decide) (by decide)), if_neg (hs.not_mem (by decide) (by decide)),
    if_neg (hs.not_mem (by decide) (by decide)), if_pos hdash]

theorem looksLike_ssn (area group serial : Nat) (h : (Recipe.ssn area group serial).Sound) :
    looksLike (Recipe.ssn area group serial).text = .ssn := by
  have hs : Numeric (lit "-") (Recipe.ssn area group serial).text :=
    (((Numeric.zeroPad 3 area).append fun _ => .inr).append (Numeric.zeroPad 2 group)).append
      (fun _ => .inr) |>.append (Numeric.zeroPad 4 serial)
  have hlen : (Recipe.ssn area group serial).text.length = 11 := by
    simp only [Recipe.text, List.length_append, length_zeroPad_decimal 3 area (by decide) h.1,
      length_zeroPad_decimal 2 group (by decide) h.2.1,
      length_zeroPad_decimal 4 serial (by decide) h.2.2]
    decide
  rw [hs.looksLike (by decide), hs.plainLook_dashes ?_, hlen]
  · rfl
  · simp only [Recipe.text, List.mem_append]
    exact .inl (.inr (by decide))

theorem looksLike_dateOfBirth (y m d : Nat) (h : (Recipe.dateOfBirth y m d).Sound) :
    looksLike (Recipe.dateOfBirth y m d).text = .dateOfBirth := by
  have hs : Numeric (lit "-") (Recipe.dateOfBirth y m d).text :=
    (((Numeric.decimal y).append fun _ => .inr).append (Numeric.zeroPad 2 m)).append
      (fun _ => .inr) |>.append (Numeric.zeroPad 2 d)
  have hyear : (decimal y).length = 4 := by
    have hle := length_decimal_le 4 y (by decide) h.2.1
    have hge : ¬ (decimal y).length ≤ 3 := by
      rw [decimal, List.length_map, Nat.length_toDigits_le_iff (by decide) (by decide)]
      have := h.1
      omega
    omega
  have hlen : (Recipe.dateOfBirth y m d).text.length = 10 := by
    simp only [Recipe.text, List.length_append, hyear,
      length_zeroPad_decimal 2 m (by decide) h.2.2.1, length_zeroPad_decimal 2 d (by decide) h.2.2.2]
    decide
  rw [hs.looksLike (by decide), hs.plainLook_dashes ?_, hlen]
  · rfl
  · simp only [Recipe.text, List.mem_append]
    exact .inl (.inr (by decide))

/-- A phone number's last characters are digits and dashes. -/
theorem looksLike_phone (code : Option Str) (a b : Nat) (h : (Recipe.phone code a b).Sound) :
    looksLike (Recipe.phone code a b).text = .phone := by
  rcases h with ⟨hcode, ha, hb⟩
  have hna := length_zeroPad_decimal 4 a (by decide) ha
  have hnb := length_zeroPad_decimal 4 b (by decide) hb
  cases code with
  | none =>
      have hfront : Numeric (lit "-") (codeText none ++ lit "555-") := by
        unfold Numeric
        decide +kernel
      have hs : Numeric (lit "-") (Recipe.phone none a b).text :=
        ((hfront.append (Numeric.zeroPad 4 a)).append fun _ => .inr).append (Numeric.zeroPad 4 b)
      have hlen : (Recipe.phone none a b).text.length = 13 := by
        simp only [Recipe.text, List.length_append, hna, hnb]
        decide
      rw [hs.looksLike (by decide), hs.plainLook_dashes ?_, hlen]
      · rfl
      · simp only [Recipe.text, List.mem_append]
        exact .inl (.inr (by decide))
  | some code =>
      have hlen : (Recipe.phone (some code) a b).text.length ≤ 18 := by
        have := hcode code rfl
        have h1 : (lit "+").length = 1 := rfl
        have h2 : (lit " ").length = 1 := rfl
        have h3 : (lit "555-").length = 4 := rfl
        have h4 : (lit "-").length = 1 := rfl
        simp only [Recipe.text, codeText, List.length_append, hna, hnb]
        omega
      -- it ends in a digit
      have hlast : (Recipe.phone (some code) a b).text.getLast?.any isAsciiDigit := by
        have hne : zeroPad 4 (decimal b) ≠ [] := by
          intro hnil
          rw [hnil] at hnb
          exact absurd hnb (by decide)
        rw [Recipe.text, List.getLast?_append_of_ne_nil _ hne, List.getLast?_eq_some_getLast hne,
          Option.any_some, isAsciiDigit, Bool.and_eq_true, decide_eq_true_eq, decide_eq_true_eq]
        exact zeroPad_digit 4 b _ (List.getLast_mem hne)
      have hkey : (Recipe.phone (some code) a b).text ≠ lit "[REDACTED_PRIVATE_KEY]" := by
        intro he
        rw [he] at hlen
        exact absurd hlen (by decide)
      rw [looksLike, if_neg hkey, if_pos ⟨rfl, hlen, hlast⟩]

theorem looksLike_ipV4 (second third fourth : Nat) :
    looksLike (Recipe.ipV4 second third fourth).text = .ipV4 := by
  have hten : Numeric (lit ".") (lit "10.") := by
    unfold Numeric
    decide +kernel
  have hs : Numeric (lit ".") (Recipe.ipV4 second third fourth).text :=
    ((((hten.append (Numeric.decimal second)).append fun _ => .inr).append
      (Numeric.decimal third)).append fun _ => .inr).append (Numeric.decimal fourth)
  have hdot : 46 ∈ (Recipe.ipV4 second third fourth).text := by
    simp only [Recipe.text, List.mem_append]
    exact .inl (.inr (by decide))
  rw [hs.looksLike (by decide), plainLook, if_neg (hs.not_mem (by decide) (by decide)),
    if_neg (hs.not_mem (by decide) (by decide)), if_pos hdot,
    if_neg (hs.not_mem (by decide) (by decide))]

theorem looksLike_ipV6 (g h : Nat) : looksLike (Recipe.ipV6 g h).text = .ipV6 := by
  have hpad : ∀ n, ∀ b ∈ zeroPad 4 (hexLower n), b ∈ lit "0123456789abcdef" := by
    intro n b hb
    rcases List.mem_append.mp hb with hb | hb
    · rw [(List.mem_replicate.mp hb).2]
      decide
    · exact hexLower_mem n b hb
  have hall : ∀ b ∈ (Recipe.ipV6 g h).text, b ∈ lit "0123456789abcdef:" := by
    have hsub : ∀ b ∈ lit "0123456789abcdef", b ∈ lit "0123456789abcdef:" := by decide +kernel
    simp only [Recipe.text, List.forall_mem_append]
    exact ⟨⟨⟨⟨by decide +kernel, fun b hb => hsub b (hpad g b hb)⟩, by decide +kernel⟩,
      fun b hb => hsub b (hpad h b hb)⟩, by decide +kernel⟩
  have hcolon : 58 ∈ (Recipe.ipV6 g h).text := by
    simp only [Recipe.text, List.mem_append]
    exact .inr (by decide)
  rw [looksLike_plain _ (fun hb => absurd (hall _ hb) (by decide))
    (fun hb => absurd (hall _ hb) (by decide)) (fun hb => absurd (hall _ hb) (by decide)),
    plainLook, if_pos hcolon]

theorem looksLike_aadhaarNumber (a b c : Nat) :
    looksLike (Recipe.aadhaarNumber a b c).text = .aadhaarNumber := by
  have hs : Numeric (lit " ") (Recipe.aadhaarNumber a b c).text :=
    (((Numeric.decimal a).append fun _ => .inr).append (Numeric.zeroPad 4 b)).append
      (fun _ => .inr) |>.append (Numeric.zeroPad 4 c)
  have hspace : 32 ∈ (Recipe.aadhaarNumber a b c).text := by
    simp only [Recipe.text, List.mem_append]
    exact .inl (.inr (by decide))
  have hhead : (Recipe.aadhaarNumber a b c).text.head?.any isAsciiDigit := by
    simp only [Recipe.text, List.append_assoc]
    rw [List.head?_append_of_ne_nil _ (decimal_ne_nil a)]
    exact head_decimal a
  have hall : (Recipe.aadhaarNumber a b c).text.all (fun b => isAsciiDigit b || b == 32) = true := by
    rw [List.all_eq_true]
    intro x hx
    rcases hs x hx with hx | hx
    · simp only [isAsciiDigit, Bool.or_eq_true, Bool.and_eq_true, decide_eq_true_eq]
      exact .inl hx
    · rw [List.mem_singleton.mp hx]
      decide
  rw [hs.looksLike (by decide), plainLook, if_neg (hs.not_mem (by decide) (by decide)),
    if_pos hspace, if_pos hhead, if_pos hall]

theorem looksLike_cpfNumber (d : List Nat) : looksLike (Recipe.cpfNumber d).text = .cpfNumber := by
  have hsign : ∀ b ∈ lit ".-", Numeric (lit ".-") [b] := fun b hb x hx => by
    rw [List.mem_singleton.mp hx]
    exact .inr hb
  have hs : Numeric (lit ".-") (Recipe.cpfNumber d).text := by
    simp only [Recipe.text, cpfText]
    repeat' apply Numeric.append
    all_goals first | exact Numeric.decimal _ | exact hsign _ (by decide)
  have hdot : 46 ∈ (Recipe.cpfNumber d).text := by
    simp only [Recipe.text, cpfText, List.mem_append]
    have : (46 : UInt8) ∈ lit "." := by decide
    simp only [this, true_or, or_true]
  have hdash : 45 ∈ (Recipe.cpfNumber d).text := by
    simp only [Recipe.text, cpfText, List.mem_append]
    have : (45 : UInt8) ∈ lit "-" := by decide
    simp only [this, true_or, or_true]
  rw [hs.looksLike (by decide), plainLook, if_neg (hs.not_mem (by decide) (by decide)),
    if_neg (hs.not_mem (by decide) (by decide)), if_pos hdot, if_pos hdash]

/-- Letters and digits behind a fixed text. -/
theorem not_mem_chars (pre chars : Str) (hchars : ∀ b ∈ chars, b ∈ alphanumericChars) (b : UInt8)
    (hpre : b ∉ pre) (hb : b ∉ alphanumericChars) : b ∉ pre ++ chars := fun h =>
  (List.mem_append.mp h).elim hpre fun h => hb (hchars b h)

theorem looksLike_openAiApiKey (chars : Str) (h : (Recipe.openAiApiKey chars).Sound) :
    looksLike (Recipe.openAiApiKey chars).text = .openAiApiKey := by
  have hno := not_mem_chars (lit "sk-") chars h.1
  have hlen : 35 ≤ (lit "sk-" ++ chars).length := by
    have h3 : (lit "sk-").length = 3 := rfl
    have := h.2
    rw [List.length_append]
    omega
  have hdash : 45 ∈ lit "sk-" ++ chars := List.mem_append_left _ (by decide)
  rw [Recipe.text, looksLike_plain _ (hno _ (by decide) (by decide)) (hno _ (by decide) (by decide))
    (hno _ (by decide) (by decide)), plainLook, if_neg (hno _ (by decide) (by decide)),
    if_neg (hno _ (by decide) (by decide)), if_neg (hno _ (by decide) (by decide)),
    if_neg (hno _ (by decide) (by decide)), if_pos hdash, if_neg (by omega), if_neg (by omega),
    if_neg (by omega)]

theorem looksLike_gitHubPat (chars : Str) (h : (Recipe.gitHubPat chars).Sound) :
    looksLike (Recipe.gitHubPat chars).text = .gitHubPat := by
  have hno := not_mem_chars (lit "ghp_") chars h
  have hline : 95 ∈ lit "ghp_" ++ chars := List.mem_append_left _ (by decide)
  rw [Recipe.text, looksLike_plain _ (hno _ (by decide) (by decide)) (hno _ (by decide) (by decide))
    (hno _ (by decide) (by decide)), plainLook, if_neg (hno _ (by decide) (by decide)),
    if_neg (hno _ (by decide) (by decide)), if_neg (hno _ (by decide) (by decide)), if_pos hline]

theorem looksLike_word (chars : Str) (h : (Recipe.word chars).Sound) :
    looksLike (Recipe.word chars).text = .bearerToken := by
  have hno : ∀ b, b ∉ alphanumericChars → b ∉ chars := fun b hb hc => hb (h.1 b hc)
  rw [Recipe.text, looksLike_plain _ (hno _ (by decide)) (hno _ (by decide)) (hno _ (by decide)),
    plainLook, if_neg (hno _ (by decide)), if_neg (hno _ (by decide)), if_neg (hno _ (by decide)),
    if_neg (hno _ (by decide)), if_neg (hno _ (by decide)), if_neg (Nat.not_lt.mpr h.2)]

theorem looksLike_email (first last : Nat) (dot : Bool) (h : (Recipe.email first last dot).Sound) :
    looksLike (Recipe.email first last dot).text = .email := by
  have hfirst : ∀ i < 26, asciiLower (firstNames.getD i default) ≠ [] ∧
      ∀ b ∈ asciiLower (firstNames.getD i default), b ≠ 43 ∧ b ≠ 58 := by decide +kernel
  have hlast : ∀ i < 25, ∀ b ∈ asciiLower (lastNames.getD i default), b ≠ 58 := by decide +kernel
  have hat : 64 ∈ (Recipe.email first last dot).text := List.mem_append_right _ (by decide)
  have hcolon : 58 ∉ (Recipe.email first last dot).text := by
    simp only [Recipe.text, List.mem_append, not_or]
    refine ⟨⟨⟨fun hb => ((hfirst first h.1).2 58 hb).2 rfl, ?_⟩,
      fun hb => hlast last h.2 58 hb rfl⟩, by decide⟩
    cases dot <;> decide
  have hkey : (Recipe.email first last dot).text ≠ lit "[REDACTED_PRIVATE_KEY]" := by
    intro he
    rw [he] at hat
    exact absurd hat (by decide)
  have hplus : (Recipe.email first last dot).text.head? ≠ some 43 := by
    simp only [Recipe.text, List.append_assoc]
    rw [List.head?_append_of_ne_nil _ (hfirst first h.1).1]
    exact fun hhead => ((hfirst first h.1).2 43 (List.mem_of_head? hhead)).1 rfl
  rw [looksLike, if_neg hkey, if_neg (fun hphone => hplus hphone.1), if_pos hat, if_neg hcolon]

theorem looksLike_personName (first last : Nat) (h : (Recipe.personName first last).Sound) :
    looksLike (Recipe.personName first last).text = .personName := by
  have hfirst : ∀ i < 26, firstNames.getD i default ≠ [] ∧
      ∀ b ∈ firstNames.getD i default, b ∉ [91, 43, 64, 58] ∧ isAsciiDigit b = false := by
    decide +kernel
  have hlast : ∀ i < 25, ∀ b ∈ lastNames.getD i default, b ∉ [91, 43, 64, 58] := by decide +kernel
  have horg : ∀ o ∈ orgNames, ∀ i < 26, ¬ firstNames.getD i default ++ lit " " <+: o := by decide
  have hno : ∀ b ∈ [91, 43, 64, 58], b ∉ (Recipe.personName first last).text := by
    intro b hb
    simp only [Recipe.text, List.mem_append, not_or]
    have hspace : ∀ b ∈ [91, 43, 64, 58], b ∉ lit " " := by decide +kernel
    exact ⟨⟨fun hmem => ((hfirst first h.1).2 b hmem).1 hb, hspace b hb⟩,
      fun hmem => hlast last h.2 b hmem hb⟩
  have hspace : 32 ∈ (Recipe.personName first last).text :=
    List.mem_append_left _ (List.mem_append_right _ (by decide))
  have hhead : ¬ (Recipe.personName first last).text.head?.any isAsciiDigit := by
    simp only [Recipe.text, List.append_assoc]
    rw [List.head?_append_of_ne_nil _ (hfirst first h.1).1,
      List.head?_eq_some_head (hfirst first h.1).1, Option.any_some,
      ((hfirst first h.1).2 _ (List.head_mem _)).2]
    exact Bool.false_ne_true
  have hnotOrg : (Recipe.personName first last).text ∉ orgNames := fun hmem =>
    horg _ hmem first h.1 (List.prefix_append _ _)
  rw [looksLike_plain _ (hno _ (by decide)) (hno _ (by decide)) (hno _ (by decide)), plainLook,
    if_neg (hno _ (by decide)), if_pos hspace, if_neg hhead, if_neg hnotOrg]

theorem looksLike_orgName (i : Nat) (h : (Recipe.orgName i).Sound) :
    looksLike (Recipe.orgName i).text = .orgName := by
  have hall : ∀ i < 12, looksLike (Recipe.orgName i).text = .orgName := by decide +kernel
  exact hall i h

theorem looksLike_address (num street suffix : Nat) (h : (Recipe.address num street suffix).Sound) :
    looksLike (Recipe.address num street suffix).text = .address := by
  have htail : ∀ i < 14, ∀ j < 10, ∀ b ∈ [91, 43, 64, 58],
      b ∉ lit " " ++ streetNames.getD i default ++ lit " " ++ streetSuffixes.getD j default := by
    decide +kernel
  have hletter : ∀ i < 14, ∃ b ∈ streetNames.getD i default,
      (isAsciiDigit b || b == 32) = false := by decide +kernel
  have hsplit : (Recipe.address num street suffix).text = decimal num ++
      (lit " " ++ streetNames.getD street default ++ lit " " ++
        streetSuffixes.getD suffix default) := by
    simp only [Recipe.text, List.append_assoc]
  have hno : ∀ b ∈ [91, 43, 64, 58], b ∉ (Recipe.address num street suffix).text := by
    intro b hb hmem
    rw [hsplit] at hmem
    rcases List.mem_append.mp hmem with hd | ht
    · have hsigns : ∀ b ∈ [91, 43, 64, 58], ¬ ((48 : UInt8) ≤ b ∧ b ≤ 57) := by decide +kernel
      exact hsigns b hb (decimal_digit num b hd)
    · exact htail street h.1 suffix h.2 b hb ht
  have hspace : 32 ∈ (Recipe.address num street suffix).text := by
    simp only [Recipe.text, List.mem_append]
    exact .inl (.inr (by decide))
  have hhead : (Recipe.address num street suffix).text.head?.any isAsciiDigit := by
    rw [hsplit, List.head?_append_of_ne_nil _ (decimal_ne_nil num)]
    exact head_decimal num
  have hall : ¬ (Recipe.address num street suffix).text.all
      (fun b => isAsciiDigit b || b == 32) = true := by
    rw [List.all_eq_true]
    intro hall
    rcases hletter street h.1 with ⟨b, hb, hno⟩
    have hmem : b ∈ (Recipe.address num street suffix).text := by
      simp only [Recipe.text, List.mem_append]
      exact .inl (.inl (.inr hb))
    rw [hall b hmem] at hno
    exact Bool.noConfusion hno
  rw [looksLike_plain _ (hno _ (by decide)) (hno _ (by decide)) (hno _ (by decide)), plainLook,
    if_neg (hno _ (by decide)), if_pos hspace, if_pos hhead, if_neg hall]

theorem looksLike_dbConnectionString (scheme : Str)
    (h : (Recipe.dbConnectionString scheme).Sound) :
    looksLike (Recipe.dbConnectionString scheme).text = .dbConnectionString := by
  have hmem : ∀ b ∈ lit "synthetic:synthetic@localhost/db",
      b ∈ (Recipe.dbConnectionString scheme).text := fun b hb => List.mem_append_right _ hb
  have hkey : (Recipe.dbConnectionString scheme).text ≠ lit "[REDACTED_PRIVATE_KEY]" := by
    intro he
    have := hmem 64 (by decide)
    rw [he] at this
    exact absurd this (by decide)
  have hlen : ¬ (Recipe.dbConnectionString scheme).text.length ≤ 18 := by
    have h32 : (lit "synthetic:synthetic@localhost/db").length = 32 := by decide
    rw [Recipe.text, List.length_append]
    omega
  have hrest : (Recipe.dbConnectionString scheme).text.drop
      (schemeEnd (Recipe.dbConnectionString scheme).text) =
        lit "synthetic:synthetic@localhost/db" := by
    rw [Recipe.text, show schemeEnd _ = _ from h, List.drop_left]
  rw [looksLike, if_neg hkey, if_neg (fun hphone => hlen hphone.2.1), if_pos (hmem 64 (by decide)),
    if_pos (hmem 58 (by decide)), hrest, if_neg (by decide)]

/-- A URL is no phone number: one with a plus in front and so few characters ends in the
    sign behind the credentials. -/
theorem url_not_phone (scheme rest : Str)
    (h : schemeEnd (scheme ++ lit "user:password@" ++ rest) = scheme.length) :
    ¬ ((scheme ++ lit "user:password@" ++ rest).head? = some 43 ∧
      (scheme ++ lit "user:password@" ++ rest).length ≤ 18 ∧
      (scheme ++ lit "user:password@" ++ rest).getLast?.any isAsciiDigit) := by
  rintro ⟨hhead, hlen, hlast⟩
  have h14 : (lit "user:password@").length = 14 := by decide
  rw [List.length_append, List.length_append, h14] at hlen
  unfold schemeEnd at h
  cases hfind : Search.find (lit "://") (scheme ++ lit "user:password@" ++ rest) with
  | none =>
      rw [hfind] at h
      rw [List.length_eq_zero_iff.mp h.symm, List.nil_append,
        List.head?_append_of_ne_nil _ (by decide)] at hhead
      exact absurd hhead (by decide)
  | some i =>
      rw [hfind] at h
      dsimp only at h
      have hat := (Search.find_eq_some _ _ i hfind).1
      cases i with
      | zero =>
          -- the text begins with a colon
          rw [List.drop_zero] at hat
          rcases hat with ⟨t, ht⟩
          rw [← ht, List.head?_append_of_ne_nil _ (by decide)] at hhead
          exact absurd hhead (by decide)
      | succ i =>
          have hrest : rest = [] := List.length_eq_zero_iff.mp (by omega)
          rw [hrest, List.append_nil, List.getLast?_append_of_ne_nil _ (by decide)] at hlast
          exact absurd hlast (by decide)

theorem looksLike_urlWithCreds (scheme rest : Str)
    (h : schemeEnd (scheme ++ lit "user:password@" ++ rest) = scheme.length) :
    looksLike (scheme ++ lit "user:password@" ++ rest) = .urlWithCreds := by
  have hmem : ∀ b ∈ lit "user:password@", b ∈ scheme ++ lit "user:password@" ++ rest :=
    fun b hb => List.mem_append_left _ (List.mem_append_right _ hb)
  have hkey : scheme ++ lit "user:password@" ++ rest ≠ lit "[REDACTED_PRIVATE_KEY]" := by
    intro he
    have := hmem 64 (by decide)
    rw [he] at this
    exact absurd this (by decide)
  have hrest : (scheme ++ lit "user:password@" ++ rest).drop
      (schemeEnd (scheme ++ lit "user:password@" ++ rest)) = lit "user:password@" ++ rest := by
    rw [h, List.append_assoc, List.drop_left]
  have huser : lit "user" <+: lit "user:password@" ++ rest :=
    List.IsPrefix.trans (by decide) (List.prefix_append _ _)
  rw [looksLike, if_neg hkey, if_neg (url_not_phone scheme rest h), if_pos (hmem 64 (by decide)),
    if_pos (hmem 58 (by decide)), hrest, if_pos huser]

/-- The form of a value can be told from its text. -/
theorem looksLike_text (r : Recipe) (h : r.Sound) : looksLike r.text = r.looks := by
  cases r with
  | email first last dot => exact looksLike_email first last dot h
  | phone code a b => exact looksLike_phone code a b h
  | ssn area group serial => exact looksLike_ssn area group serial h
  | ipV4 second third fourth => exact looksLike_ipV4 second third fourth
  | ipV6 g h' => exact looksLike_ipV6 g h'
  | openAiApiKey chars => exact looksLike_openAiApiKey chars h
  | gitHubPat chars => exact looksLike_gitHubPat chars h
  | word chars => exact looksLike_word chars h
  | sshPrivateKey => rfl
  | dbConnectionString scheme => exact looksLike_dbConnectionString scheme h
  | urlWithCreds scheme rest => exact looksLike_urlWithCreds scheme rest h
  | personName first last => exact looksLike_personName first last h
  | orgName i => exact looksLike_orgName i h
  | address num street suffix => exact looksLike_address num street suffix h
  | dateOfBirth y m d => exact looksLike_dateOfBirth y m d h
  | aadhaarNumber a b c => exact looksLike_aadhaarNumber a b c
  | cpfNumber d => exact looksLike_cpfNumber d
  | given text => rfl

/-- A sign that does not occur in front of it cuts a text in one way. -/
theorem cut_inj {x : UInt8} (a : Str) : ∀ {c b d : Str}, x ∉ a → x ∉ c →
    a ++ x :: b = c ++ x :: d → a = c ∧ b = d := by
  induction a with
  | nil =>
      intro c b d _ hc h
      cases c with
      | nil => exact ⟨rfl, (List.cons.inj h).2⟩
      | cons y c => exact absurd ((List.cons.inj h).1 ▸ List.mem_cons_self) hc
  | cons y a ih =>
      intro c b d ha hc h
      cases c with
      | nil => exact absurd ((List.cons.inj h).1 ▸ List.mem_cons_self) ha
      | cons z c =>
          rcases List.cons.inj h with ⟨rfl, hrest⟩
          rcases ih (fun hx => ha (List.mem_cons_of_mem _ hx))
            (fun hx => hc (List.mem_cons_of_mem _ hx)) hrest with ⟨rfl, rfl⟩
          exact ⟨rfl, rfl⟩

/-- Texts of a table that begin differently can be told apart in front of any other. -/
theorem table_inj {f : Nat → Str} {n : Nat} (hne : ∀ i < n, f i ≠ [])
    (hheads : ∀ i < n, ∀ j < n, (f i).head? = (f j).head? → i = j) {i j : Nat}
    (hi : i < n) (hj : j < n) {s t : Str} (h : f i ++ s = f j ++ t) : i = j ∧ s = t := by
  have hhead := congrArg List.head? h
  rw [List.head?_append_of_ne_nil _ (hne i hi), List.head?_append_of_ne_nil _ (hne j hj)] at hhead
  have hij := hheads i hi j hj hhead
  subst hij
  exact ⟨rfl, List.append_cancel_left h⟩

theorem not_mem_decimal (n : Nat) (b : UInt8) (hb : ¬ (48 ≤ b ∧ b ≤ 57)) : b ∉ decimal n :=
  fun h => hb (decimal_digit n b h)

theorem not_mem_zeroPad (w n : Nat) (b : UInt8) (hb : ¬ (48 ≤ b ∧ b ≤ 57)) :
    b ∉ zeroPad w (decimal n) := fun h => hb (zeroPad_digit w n b h)

/-- Three numbers with one sign between them. -/
theorem three_inj (x : UInt8) (a b c a' b' c' : Str) (ha : x ∉ a) (ha' : x ∉ a') (hb : x ∉ b)
    (hb' : x ∉ b') (h : a ++ [x] ++ b ++ [x] ++ c = a' ++ [x] ++ b' ++ [x] ++ c') :
    a = a' ∧ b = b' ∧ c = c' := by
  simp only [List.append_assoc, List.cons_append, List.nil_append] at h
  rcases cut_inj a ha ha' h with ⟨h₁, h⟩
  rcases cut_inj b hb hb' h with ⟨h₂, h₃⟩
  exact ⟨h₁, h₂, h₃⟩

namespace Recipe

theorem email_inj (first last first' last' : Nat) (dot dot' : Bool)
    (h : (email first last dot).Sound) (h' : (email first' last' dot').Sound)
    (he : (email first last dot).text = (email first' last' dot').text) :
    email first last dot = email first' last' dot' := by
  have hne : ∀ i < 26, asciiLower (firstNames.getD i default) ≠ [] := by decide
  have hfirst : ∀ i < 26, ∀ j < 26, (asciiLower (firstNames.getD i default)).head? =
      (asciiLower (firstNames.getD j default)).head? → i = j := by decide
  have hlast : ∀ i < 25, ∀ j < 25, (asciiLower (lastNames.getD i default)).take 2 =
      (asciiLower (lastNames.getD j default)).take 2 → i = j := by decide
  have hdot : ∀ i < 25, (asciiLower (lastNames.getD i default)).head? ≠ some 46 := by decide
  have hnames := List.append_cancel_right he
  rw [List.append_assoc, List.append_assoc] at hnames
  rcases table_inj (f := fun i => asciiLower (firstNames.getD i default)) hne hfirst h.1 h'.1
    hnames with ⟨rfl, hrest⟩
  -- a last name does not begin with the sign between the names
  cases dot with
  | false =>
      cases dot' with
      | false => rw [hlast last h.2 last' h'.2 (congrArg (List.take 2) hrest)]
      | true => exact absurd (congrArg List.head? hrest) (hdot last h.2)
  | true =>
      cases dot' with
      | false => exact absurd (congrArg List.head? hrest).symm (hdot last' h'.2)
      | true =>
          have htail := List.append_cancel_left hrest
          rw [hlast last h.2 last' h'.2 (congrArg (List.take 2) htail)]

theorem personName_inj (first last first' last' : Nat)
    (h : (personName first last).Sound) (h' : (personName first' last').Sound)
    (he : (personName first last).text = (personName first' last').text) :
    personName first last = personName first' last' := by
  have hne : ∀ i < 26, firstNames.getD i default ≠ [] := by decide
  have hfirst : ∀ i < 26, ∀ j < 26, (firstNames.getD i default).head? =
      (firstNames.getD j default).head? → i = j := by decide
  have hlast : ∀ i < 25, ∀ j < 25, (lastNames.getD i default).take 2 =
      (lastNames.getD j default).take 2 → i = j := by decide
  simp only [text, List.append_assoc] at he
  rcases table_inj (f := fun i => firstNames.getD i default) hne hfirst h.1 h'.1 he with
    ⟨rfl, hrest⟩
  rw [hlast last h.2 last' h'.2 (congrArg (List.take 2) (List.append_cancel_left hrest))]

theorem phone_inj (code code' : Option Str) (a b a' b' : Nat) (h : (phone code a b).Sound)
    (h' : (phone code' a' b').Sound) (he : (phone code a b).text = (phone code' a' b').text) :
    phone code a b = phone code' a' b' := by
  have hlen : ∀ n, n < 10000 → (zeroPad 4 (decimal n)).length = 4 := fun n hn =>
    length_zeroPad_decimal 4 n (by decide) hn
  rcases List.append_inj' he (by rw [hlen b h.2.2, hlen b' h'.2.2]) with ⟨he, hb⟩
  rcases List.append_inj' (List.append_cancel_right he) (by rw [hlen a h.2.1, hlen a' h'.2.1])
    with ⟨he, ha⟩
  have he := List.append_cancel_right he
  rw [zeroPad_decimal_inj ha, zeroPad_decimal_inj hb]
  congr 1
  -- a plus stands in front of a country code only
  cases code with
  | none =>
      cases code' with
      | none => rfl
      | some c' => exact absurd he (by simp only [codeText, lit]; exact List.cons_ne_nil _ _ ∘ Eq.symm)
  | some c =>
      cases code' with
      | none => exact absurd he (by simp only [codeText, lit]; exact List.cons_ne_nil _ _)
      | some c' => rw [List.append_cancel_left (List.append_cancel_right he)]

theorem address_inj (num street suffix num' street' suffix' : Nat)
    (h : (address num street suffix).Sound) (h' : (address num' street' suffix').Sound)
    (he : (address num street suffix).text = (address num' street' suffix').text) :
    address num street suffix = address num' street' suffix' := by
  have hspace : ∀ i < 14, 32 ∉ streetNames.getD i default := by decide
  have hstreet : ∀ i < 14, ∀ j < 14, streetNames.getD i default = streetNames.getD j default →
      i = j := by decide
  have hsuffix : ∀ i < 10, ∀ j < 10,
      streetSuffixes.getD i default = streetSuffixes.getD j default → i = j := by decide
  rcases three_inj 32 _ _ _ _ _ _ (not_mem_decimal num _ (by decide))
    (not_mem_decimal num' _ (by decide)) (hspace street h.1) (hspace street' h'.1) he with
    ⟨hn, hs, ht⟩
  rw [decimal_inj hn, hstreet street h.1 street' h'.1 hs, hsuffix suffix h.2 suffix' h'.2 ht]

theorem ipV6_inj (g k g' k' : Nat) (h : (ipV6 g k).Sound) (h' : (ipV6 g' k').Sound)
    (he : (ipV6 g k).text = (ipV6 g' k').text) : ipV6 g k = ipV6 g' k' := by
  have hlen : ∀ n, n < 65536 → (zeroPad 4 (hexLower n)).length = 4 := fun n hn =>
    length_zeroPad 4 _ (length_hexLower_le 4 n (by decide) hn)
  rcases List.append_inj' (List.append_cancel_right he) (by rw [hlen k h.2, hlen k' h'.2]) with
    ⟨he, hk⟩
  rw [zeroPad_hexLower_inj (List.append_cancel_left (List.append_cancel_right he)),
    zeroPad_hexLower_inj hk]

theorem cpfNumber_inj (d d' : List Nat) (h : (cpfNumber d).Sound) (h' : (cpfNumber d').Sound)
    (he : (cpfNumber d).text = (cpfNumber d').text) : cpfNumber d = cpfNumber d' := by
  have hdigit : ∀ a < 10, ∀ b < 10, UInt8.ofNat (48 + a) = UInt8.ofNat (48 + b) → a = b := by decide
  -- nine digits at fixed places
  have hnine : ∀ l : List Nat, l.length = 9 → ∃ a b c e f g i j k, l = [a, b, c, e, f, g, i, j, k] := by
    intro l hl
    match l, hl with
    | [a, b, c, e, f, g, i, j, k], _ => exact ⟨a, b, c, e, f, g, i, j, k, rfl⟩
  rcases hnine d h.1 with ⟨a, b, c, e, f, g, i, j, k, rfl⟩
  rcases hnine d' h'.1 with ⟨a', b', c', e', f', g', i', j', k', rfl⟩
  have hlt := h.2
  have hlt' := h'.2
  simp only [List.forall_mem_cons] at hlt hlt'
  rcases hlt with ⟨ha, hb, hc, hd, hf, hg, hi, hj, hk, -⟩
  rcases hlt' with ⟨ha', hb', hc', hd', hf', hg', hi', hj', hk', -⟩
  have hsigns : lit "." = [46] ∧ lit "-" = [45] := by decide
  simp only [text, cpfText, List.getD_cons_zero, List.getD_cons_succ, decimal_single, ha, hb, hc,
    hd, hf, hg, hi, hj, hk, ha', hb', hc', hd', hf', hg', hi', hj', hk', hsigns.1, hsigns.2,
    List.cons_append, List.nil_append, List.cons.injEq, true_and] at he
  rcases he with ⟨h₁, h₂, h₃, h₄, h₅, h₆, h₇, h₈, h₉, -⟩
  rw [hdigit a ha a' ha' h₁, hdigit b hb b' hb' h₂, hdigit c hc c' hc' h₃, hdigit e hd e' hd' h₄,
    hdigit f hf f' hf' h₅, hdigit g hg g' hg' h₆, hdigit i hi i' hi' h₇, hdigit j hj j' hj' h₈,
    hdigit k hk k' hk' h₉]

/-- A value has one recipe. -/
theorem text_inj {r r' : Recipe} (hr : r.Sound) (hr' : r'.Sound) (hnot : ∀ t, r ≠ given t)
    (hnot' : ∀ t, r' ≠ given t) (he : r.text = r'.text) : r = r' := by
  -- values of one text have one form
  have hlooks : r.looks = r'.looks := by
    rw [← looksLike_text r hr, ← looksLike_text r' hr', he]
  cases r with
  | email first last dot =>
      cases r' with
      | email first' last' dot' => exact email_inj _ _ _ _ _ _ hr hr' he
      | given t => exact absurd rfl (hnot' t)
      | _ => exact PiiType.noConfusion hlooks
  | phone code a b =>
      cases r' with
      | phone code' a' b' => exact phone_inj _ _ _ _ _ _ hr hr' he
      | given t => exact absurd rfl (hnot' t)
      | _ => exact PiiType.noConfusion hlooks
  | ssn area group serial =>
      cases r' with
      | ssn area' group' serial' =>
          rcases three_inj 45 _ _ _ _ _ _ (not_mem_zeroPad 3 area _ (by decide))
            (not_mem_zeroPad 3 area' _ (by decide)) (not_mem_zeroPad 2 group _ (by decide))
            (not_mem_zeroPad 2 group' _ (by decide)) he with ⟨h₁, h₂, h₃⟩
          rw [zeroPad_decimal_inj h₁, zeroPad_decimal_inj h₂, zeroPad_decimal_inj h₃]
      | given t => exact absurd rfl (hnot' t)
      | _ => exact PiiType.noConfusion hlooks
  | ipV4 second third fourth =>
      cases r' with
      | ipV4 second' third' fourth' =>
          simp only [text, List.append_assoc] at he
          have he := List.append_cancel_left he
          simp only [← List.append_assoc] at he
          rcases three_inj 46 _ _ _ _ _ _ (not_mem_decimal second _ (by decide))
            (not_mem_decimal second' _ (by decide)) (not_mem_decimal third _ (by decide))
            (not_mem_decimal third' _ (by decide)) he with ⟨h₁, h₂, h₃⟩
          rw [decimal_inj h₁, decimal_inj h₂, decimal_inj h₃]
      | given t => exact absurd rfl (hnot' t)
      | _ => exact PiiType.noConfusion hlooks
  | ipV6 g k =>
      cases r' with
      | ipV6 g' k' => exact ipV6_inj _ _ _ _ hr hr' he
      | given t => exact absurd rfl (hnot' t)
      | _ => exact PiiType.noConfusion hlooks
  | openAiApiKey chars =>
      cases r' with
      | openAiApiKey chars' => rw [List.append_cancel_left he]
      | given t => exact absurd rfl (hnot' t)
      | _ => exact PiiType.noConfusion hlooks
  | gitHubPat chars =>
      cases r' with
      | gitHubPat chars' => rw [List.append_cancel_left he]
      | given t => exact absurd rfl (hnot' t)
      | _ => exact PiiType.noConfusion hlooks
  | word chars =>
      cases r' with
      | word chars' => exact congrArg word he
      | given t => exact absurd rfl (hnot' t)
      | _ => exact PiiType.noConfusion hlooks
  | sshPrivateKey =>
      cases r' with
      | sshPrivateKey => rfl
      | given t => exact absurd rfl (hnot' t)
      | _ => exact PiiType.noConfusion hlooks
  | dbConnectionString scheme =>
      cases r' with
      | dbConnectionString scheme' => rw [List.append_cancel_right he]
      | given t => exact absurd rfl (hnot' t)
      | _ => exact PiiType.noConfusion hlooks
  | urlWithCreds scheme rest =>
      cases r' with
      | urlWithCreds scheme' rest' =>
          -- the scheme ends where the first sign for it does
          have hlen : scheme.length = scheme'.length :=
            hr.symm.trans ((congrArg schemeEnd he).trans hr')
          simp only [text, List.append_assoc] at he
          rcases List.append_inj he hlen with ⟨rfl, hrest⟩
          rw [List.append_cancel_left hrest]
      | given t => exact absurd rfl (hnot' t)
      | _ => exact PiiType.noConfusion hlooks
  | personName first last =>
      cases r' with
      | personName first' last' => exact personName_inj _ _ _ _ hr hr' he
      | given t => exact absurd rfl (hnot' t)
      | _ => exact PiiType.noConfusion hlooks
  | orgName i =>
      cases r' with
      | orgName i' =>
          have horg : ∀ i < 12, ∀ j < 12, orgNames.getD i default = orgNames.getD j default →
              i = j := by decide
          rw [horg i hr i' hr' he]
      | given t => exact absurd rfl (hnot' t)
      | _ => exact PiiType.noConfusion hlooks
  | address num street suffix =>
      cases r' with
      | address num' street' suffix' => exact address_inj _ _ _ _ _ _ hr hr' he
      | given t => exact absurd rfl (hnot' t)
      | _ => exact PiiType.noConfusion hlooks
  | dateOfBirth y m d =>
      cases r' with
      | dateOfBirth y' m' d' =>
          rcases three_inj 45 _ _ _ _ _ _ (not_mem_decimal y _ (by decide))
            (not_mem_decimal y' _ (by decide)) (not_mem_zeroPad 2 m _ (by decide))
            (not_mem_zeroPad 2 m' _ (by decide)) he with ⟨h₁, h₂, h₃⟩
          rw [decimal_inj h₁, zeroPad_decimal_inj h₂, zeroPad_decimal_inj h₃]
      | given t => exact absurd rfl (hnot' t)
      | _ => exact PiiType.noConfusion hlooks
  | aadhaarNumber a b c =>
      cases r' with
      | aadhaarNumber a' b' c' =>
          rcases three_inj 32 _ _ _ _ _ _ (not_mem_decimal a _ (by decide))
            (not_mem_decimal a' _ (by decide)) (not_mem_zeroPad 4 b _ (by decide))
            (not_mem_zeroPad 4 b' _ (by decide)) he with ⟨h₁, h₂, h₃⟩
          rw [decimal_inj h₁, zeroPad_decimal_inj h₂, zeroPad_decimal_inj h₃]
      | given t => exact absurd rfl (hnot' t)
      | _ => exact PiiType.noConfusion hlooks
  | cpfNumber d =>
      cases r' with
      | cpfNumber d' => exact cpfNumber_inj _ _ hr hr' he
      | given t => exact absurd rfl (hnot' t)
      | _ => exact PiiType.noConfusion hlooks
  | given t => exact absurd rfl (hnot t)

/-- Two recipes make one text: a given text is compared as it is, and of generated values
    everything that was drawn or kept is the same. -/
def Clash : Recipe → Recipe → Prop
  | .given t, r => t = r.text
  | r, .given t => r.text = t
  | r, r' => r = r'

instance (r r' : Recipe) : Decidable (r.Clash r') := by
  unfold Clash
  split <;> infer_instance

theorem text_eq_iff (r r' : Recipe) (hr : r.Sound) (hr' : r'.Sound) :
    r.text = r'.text ↔ r.Clash r' := by
  unfold Clash
  split
  · exact Iff.rfl
  · exact Iff.rfl
  · rename_i r r' hnot hnot'
    exact ⟨text_inj hr hr' (fun t he => hnot t he) (fun t he => hnot' t he), congrArg text⟩

end Recipe

end PrivacyClaw
