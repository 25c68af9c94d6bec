import Mathlib.Algebra.GroupWithZero.Nat
import PrivacyClaw.Core.Vault

/-!
# Synthetic Values

`src/pii/synth.rs`: the value that stands in for an original.

Every generator draws from a random source seeded with the vault's seed plus
its mapping count. The source is the `rand` crate and dates are the `chrono`
crate; both are parameters, with the little the code relies on as fields: a
draw lies in its range, and a formatted date has no other characters than
digits and signs. A generator may abort, when it slices the original at an
offset that is not there or when a date leaves the calendar, so `generate`
returns an `Option`.

## Main definitions

* `Rand`, `Chrono`: What is used of the two crates.
* `generate`: The generator for each type.
* `getOrCreate`: The stored synthetic, or a new one that is stored.
* `Rand.least`, `Rand.replay`, `Chrono.none`: Simple sources.

## Theorems

* `getOrCreate_cases`: What looking up or creating a synthetic does.
-/

namespace PrivacyClaw

/-- The integer type a range is drawn from; the stream of a seed depends on
    it. -/
inductive IntKind where
  | u8 | u16 | u32 | i64 | usize
  deriving DecidableEq, Repr

/-- `SmallRng`: `gen_range` with inclusive bounds and `gen_bool(0.5)`. -/
structure Rand where
  State : Type
  seedFromU64 : UInt64 → State
  genRange : IntKind → Nat → Nat → State → Nat × State
  genBool : State → Bool × State
  genRange_mem : ∀ k lo hi s, lo ≤ hi →
    lo ≤ (genRange k lo hi s).1 ∧ (genRange k lo hi s).1 ≤ hi

/-- `NaiveDate` with the format `%Y-%m-%d`; adding days aborts at the end of
    the calendar. -/
structure Chrono where
  Date : Type
  parse : Str → Option Date
  addDays : Date → Nat → Option Date
  format : Date → Str
  format_mem : ∀ d, ∀ b ∈ format d, b ∈ lit "0123456789+-"

/-- `Locale`. -/
inductive Locale where
  | enUs | enGb | deDe | frFr | inIn | koKr | brBr
  deriving DecidableEq, Repr

/-- `{:0w}` of a digit string. -/
def zeroPad (w : Nat) (s : Str) : Str := List.replicate (w - s.length) 48 ++ s

/-- The `{:x}` form of an unsigned integer. -/
def hexLower (n : Nat) : Str := (Nat.toDigits 16 n).map (fun c => UInt8.ofNat c.toNat)

/-- `to_lowercase` on the ASCII word lists below. -/
def asciiLower (s : Str) : Str := s.map fun b => if 65 ≤ b ∧ b ≤ 90 then b + 32 else b

def isAsciiDigit (b : UInt8) : Bool := 48 ≤ b && b ≤ 57

def firstNames : List Str :=
  ["Alice", "Bob", "Carol", "David", "Eve", "Frank", "Grace", "Henry",
    "Iris", "Jack", "Karen", "Liam", "Mia", "Noah", "Olivia", "Paul",
    "Quinn", "Rachel", "Sam", "Tara", "Uma", "Victor", "Wendy", "Xander",
    "Yara", "Zoe"].map lit

def lastNames : List Str :=
  ["Brown", "Chen", "Davis", "Evans", "Foster", "Garcia", "Harris", "Ibarra",
    "Johnson", "Kim", "Lee", "Martin", "Nguyen", "O'Brien", "Patel", "Quinn",
    "Roberts", "Smith", "Taylor", "Ueda", "Vargas", "Walker", "Xu", "Young",
    "Zhang"].map lit

def orgNames : List Str :=
  ["Acme Corp", "Initech", "Globex Corporation", "Umbrella Corp",
    "Soylent Corp", "Vandelay Industries", "Bluth Company", "Dunder Mifflin",
    "Hooli", "Pied Piper", "Sterling Cooper", "Wonka Industries"].map lit

def streetNames : List Str :=
  ["Main", "Oak", "Maple", "Cedar", "Pine", "Elm", "Walnut", "Birch",
    "Washington", "Lincoln", "Jefferson", "Madison", "Monroe", "Adams"].map lit

def streetSuffixes : List Str :=
  ["St", "Ave", "Blvd", "Dr", "Ln", "Rd", "Way", "Ct", "Pl", "Ter"].map lit

def alphanumericChars : Str :=
  lit "ABCDEFGHIJKLMNOPQRSTUVWXYZabcdefghijklmnopqrstuvwxyz0123456789"

def uppercaseChars : Str := lit "ABCDEFGHIJKLMNOPQRSTUVWXYZ0123456789"

/-- `luhn_check_digit`: from the right, every second digit doubled. -/
def luhnCheckDigit (digits : Str) : Nat :=
  let go := digits.reverse.foldl (fun (acc : Nat × Bool) c =>
    let d := if isAsciiDigit c then (c - 48).toNat else 0
    let d := if acc.2 then (if d * 2 > 9 then d * 2 - 9 else d * 2) else d
    (acc.1 + d, !acc.2)) (0, true)
  (10 - go.1 % 10) % 10

/-- `cpf_check_digit`. -/
def cpfCheckDigit (digits : List Nat) (multiplierStart : Nat) : Nat :=
  let sum := (digits.zipIdx.map fun (d, i) => d * (multiplierStart - i)).sum
  let rem := sum % 11
  if rem < 2 then 0 else 11 - rem

section Generators

variable (R : Rand) (C : Chrono)

/-- `table[rng.gen_range(0..table.len())]`. -/
def pick {β : Type} [Inhabited β] (table : List β) (s : R.State) : β × R.State :=
  let (i, s) := R.genRange .usize 0 (table.length - 1) s
  (table.getD i default, s)

/-- `n` draws of the same kind, in order. -/
def drawMany {β : Type} (draw : R.State → β × R.State) : Nat → R.State → List β × R.State
  | 0, s => ([], s)
  | n + 1, s =>
    let (x, s) := draw s
    let (xs, s) := drawMany draw n s
    (x :: xs, s)

def genEmail (s : R.State) : Str :=
  let (first, s) := pick R firstNames s
  let (last, s) := pick R lastNames s
  let (dot, _) := R.genBool s
  let sep := if dot then lit "." else []
  asciiLower first ++ sep ++ asciiLower last ++ lit "@example.com"

/-- Keeps a country code: the digits after the plus and the character that
    ends them, cut to three bytes. The slice aborts when fewer bytes follow
    the plus or the cut falls inside a character. -/
def genPhone (original : Str) (s : R.State) : Option Str := do
  let pre ← match original with
    | 43 :: afterPlus => do
      let codeEnd := match afterPlus.findIdx? (fun b => !isAsciiDigit b) with
        | some i => i + 1
        | none => 3
      let code ← slice afterPlus 0 (min codeEnd 3)
      some (lit "+" ++ code ++ lit " ")
    | _ => some []
  let (a, s) := R.genRange .u32 0 9999 s
  let (b, _) := R.genRange .u32 0 9999 s
  some (pre ++ lit "555-" ++ zeroPad 4 (decimal a) ++ lit "-" ++ zeroPad 4 (decimal b))

def genSsn (s : R.State) : Str :=
  let (area, s) := R.genRange .u32 100 665 s
  let (group, s) := R.genRange .u32 1 99 s
  let (serial, _) := R.genRange .u32 1 9999 s
  zeroPad 3 (decimal area) ++ lit "-" ++ zeroPad 2 (decimal group) ++ lit "-" ++
    zeroPad 4 (decimal serial)

def genCreditCard (original : Str) (s : R.State) : Str :=
  let first := (original.find? isAsciiDigit).getD 52
  let (ds, _) := drawMany R (R.genRange .u32 0 9) 14 s
  let digits := first :: ds.map fun d => UInt8.ofNat (48 + d)
  digits ++ decimal (luhnCheckDigit digits)

def genIpv4 (s : R.State) : Str :=
  let (second, s) := R.genRange .u8 0 255 s
  let (third, s) := R.genRange .u8 0 255 s
  let (fourth, _) := R.genRange .u8 1 254 s
  lit "10." ++ decimal second ++ lit "." ++ decimal third ++ lit "." ++ decimal fourth

def genIpv6 (s : R.State) : Str :=
  let (g1, s) := R.genRange .u16 0 0xffff s
  let (g2, _) := R.genRange .u16 0 0xffff s
  lit "fd" ++ zeroPad 4 (hexLower g1) ++ lit ":" ++ zeroPad 4 (hexLower g2) ++ lit "::1"

def genRandomAlphanumeric (len : Nat) (s : R.State) : Str :=
  (drawMany R (pick R alphanumericChars) len s).1

def genRandomUppercase (len : Nat) (s : R.State) : Str :=
  (drawMany R (pick R uppercaseChars) len s).1

def genApiKey (pre : Str) (originalLen : Nat) (s : R.State) : Str :=
  pre ++ genRandomAlphanumeric R (max (originalLen - pre.length) 32) s

def genAwsAccessKey (s : R.State) : Str := lit "AKIAIOSFODNN7" ++ genRandomUppercase R 12 s

/-- The offset behind `://`, or zero. -/
def schemeEnd (original : Str) : Nat :=
  match Search.find (lit "://") original with
  | some i => i + 3
  | none => 0

/-- Keeps the scheme only. -/
def genDbConnection (original : Str) : Str :=
  original.take (schemeEnd original) ++ lit "synthetic:synthetic@localhost/db"

/-- Keeps the scheme and everything behind the first `@` after it. -/
def genUrlWithCreds (original : Str) : Str :=
  let schemeEnd := schemeEnd original
  let hostStart := match Search.find (lit "@") (original.drop schemeEnd) with
    | some i => schemeEnd + i + 1
    | none => schemeEnd
  original.take schemeEnd ++ lit "user:password@" ++ original.drop hostStart

def genPersonName (s : R.State) : Str :=
  let (first, s) := pick R firstNames s
  let (last, _) := pick R lastNames s
  first ++ lit " " ++ last

def genOrgName (s : R.State) : Str := (pick R orgNames s).1

def genAddress (s : R.State) : Str :=
  let (num, s) := R.genRange .u32 1 9999 s
  let (street, s) := pick R streetNames s
  let (suffix, _) := pick R streetSuffixes s
  decimal num ++ lit " " ++ street ++ lit " " ++ suffix

/-- A parsed date is shifted; anything else becomes a fixed-range date. -/
def genDob (original : Str) (s : R.State) : Option Str :=
  let (offsetDays, s) := R.genRange .i64 7 97 s
  match C.parse original with
  | some dt => (C.addDays dt offsetDays).map C.format
  | none =>
    let (y, s) := R.genRange .u32 1950 2005 s
    let (m, s) := R.genRange .u32 1 12 s
    let (d, _) := R.genRange .u32 1 28 s
    some (decimal y ++ lit "-" ++ zeroPad 2 (decimal m) ++ lit "-" ++ zeroPad 2 (decimal d))

def genAadhaar (s : R.State) : Str :=
  let (a, s) := R.genRange .u32 2000 9999 s
  let (b, s) := R.genRange .u32 0 9999 s
  let (c, _) := R.genRange .u32 0 9999 s
  decimal a ++ lit " " ++ zeroPad 4 (decimal b) ++ lit " " ++ zeroPad 4 (decimal c)

def genCpf (s : R.State) : Str :=
  let (d, _) := drawMany R (R.genRange .u8 0 9) 9 s
  let digit (i : Nat) := decimal (d.getD i 0)
  digit 0 ++ digit 1 ++ digit 2 ++ lit "." ++ digit 3 ++ digit 4 ++ digit 5 ++ lit "." ++
    digit 6 ++ digit 7 ++ digit 8 ++ lit "-" ++
    decimal (cpfCheckDigit d 10) ++ decimal (cpfCheckDigit d 11)

/-- `SyntheticGenerator::generate`, from a freshly seeded state. -/
def generate (piiType : PiiType) (original : Str) (_locale : Locale) (s : R.State) : Option Str :=
  match piiType with
  | .email => some (genEmail R s)
  | .phone => genPhone R original s
  | .ssn => some (genSsn R s)
  | .creditCard => some (genCreditCard R original s)
  | .ipV4 => some (genIpv4 R s)
  | .ipV6 => some (genIpv6 R s)
  | .openAiApiKey => some (genApiKey R (lit "sk-") original.length s)
  | .awsAccessKey => some (genAwsAccessKey R s)
  | .awsSecretKey => some (genRandomAlphanumeric R 40 s)
  | .gitHubPat => some (genApiKey R (lit "ghp_") original.length s)
  | .bearerToken => some (genRandomAlphanumeric R (max original.length 32) s)
  | .sshPrivateKey => some (lit "[REDACTED_PRIVATE_KEY]")
  | .dbConnectionString => some (genDbConnection original)
  | .urlWithCreds => some (genUrlWithCreds original)
  | .personName => some (genPersonName R s)
  | .orgName => some (genOrgName R s)
  | .address => some (genAddress R s)
  | .dateOfBirth => genDob R C original s
  | .aadhaarNumber => some (genAadhaar R s)
  | .cpfNumber => some (genCpf R s)
  | _ => some (genRandomAlphanumeric R (max original.length 8) s)

/-- The value `get_or_create` would generate for a new original. -/
def freshSynthetic (v : PiiVault) (original : Str) (piiType : PiiType) (locale : Locale) :
    Option Str :=
  generate R C piiType original locale
    (R.seedFromU64 (v.rngSeed + UInt64.ofNat v.mappingCount))

/-- `SyntheticGenerator::get_or_create`; `none` where the generator aborts. -/
def getOrCreate (v : PiiVault) (original : Str) (piiType : PiiType) (locale : Locale)
    (tier : UInt8) (confidence : F32) : Option (Str × PiiVault) :=
  match v.getSynthetic original with
  | some existing => some (existing, v)
  | none => do
    let synthetic ← freshSynthetic R C v original piiType locale
    some (synthetic, v.addMapping original synthetic piiType tier confidence)

/-- A known original keeps its synthetic and the vault; a new one is entered
    with the generated value. -/
theorem getOrCreate_cases (v v' : PiiVault) (o d : Str) (ty : PiiType) (locale : Locale)
    (tier : UInt8) (conf : F32) (hrun : getOrCreate R C v o ty locale tier conf = some (d, v')) :
    v.getSynthetic o = some d ∧ v' = v ∨
      v.getSynthetic o = none ∧ freshSynthetic R C v o ty locale = some d ∧
        v' = v.addMapping o d ty tier conf := by
  unfold getOrCreate at hrun
  cases hs : v.getSynthetic o with
  | some existing =>
      rw [hs, Option.some.injEq, Prod.mk.injEq] at hrun
      exact Or.inl ⟨by rw [hrun.1], hrun.2.symm⟩
  | none =>
      rw [hs] at hrun
      simp only [Option.bind_eq_bind, Option.bind_eq_some_iff, Option.some.injEq,
        Prod.mk.injEq] at hrun
      rcases hrun with ⟨t, ht, rfl, rfl⟩
      exact Or.inr ⟨rfl, ht, rfl⟩

end Generators

/-- A source that always draws the lower bound, for instances whose generators
    draw nothing. -/
def Rand.least : Rand where
  State := Unit
  seedFromU64 _ := ()
  genRange _ lo _ s := (lo, s)
  genBool s := (false, s)
  genRange_mem _ lo _ _ hle := ⟨Nat.le_refl lo, hle⟩

/-- A source that draws the given numbers in turn, each moved into its range,
    and the lower bound when they are used up. -/
def Rand.replay (draws : List Nat) : Rand where
  State := List Nat
  seedFromU64 _ := draws
  genRange _ lo hi s := (max lo (min (s.headD lo) hi), s.tail)
  genBool s := (s.headD 0 != 0, s.tail)
  genRange_mem _ _ _ _ hle := ⟨Nat.le_max_left _ _, Nat.max_le.mpr ⟨hle, Nat.min_le_right _ _⟩⟩

/-- A calendar without dates, for instances that parse none. -/
def Chrono.none : Chrono where
  Date := Empty
  parse _ := Option.none
  addDays d _ := some d
  format d := d.elim
  format_mem d := d.elim

end PrivacyClaw
