import PrivacyClaw.Core.Checked
import PrivacyClaw.Core.Synth

/-!
# Indices and Slices of the Generators

The generators of `src/pii/synth.rs` once more, with every operation that may
panic as the code makes it: an index into a table, an unwrapped digit, a slice of
the original, a 32-bit sum or difference, and the date that is moved on. What they
do otherwise is in `Core.Synth`.

## Main definitions

* `Checked.index`, `Checked.fromDigit`, `Checked.add32`, `Checked.sub32`: The
  operations.
* `Checked.pick`, `Checked.drawMany`: Draws.
* `Checked.doubled`, `Checked.luhnCheckDigit`, `Checked.cpfCheckDigit`: The check
  digits.
* `Checked.generate`, `Checked.getOrCreate`: The dispatch, and the caller that
  holds the lock of the vault.
-/

namespace PrivacyClaw

namespace Checked

/-- `table[i]`. -/
def index {β : Type} (table : List β) (i : Nat) : Option β := table[i]?

/-- `char::from_digit(d, 10).unwrap()`. -/
def fromDigit (d : Nat) : Option UInt8 := if d < 10 then some (UInt8.ofNat (48 + d)) else none

/-- `a + b` of 32 bits. -/
def add32 (a b : Nat) : Option Nat := if a + b < 2 ^ 32 then some (a + b) else none

/-- `a - b` of 32 bits. -/
def sub32 (a b : Nat) : Option Nat := if b ≤ a then some (a - b) else none

/-- `if double { d *= 2; if d > 9 { d -= 9; } }` -/
def doubled (double : Bool) (d : Nat) : Option Nat :=
  if double then (if d * 2 > 9 then sub32 (d * 2) 9 else some (d * 2)) else some d

/-- `luhn_check_digit`. -/
def luhnCheckDigit (digits : Str) : Option Nat := do
  let go ← digits.reverse.foldlM (fun (acc : Nat × Bool) c => do
    let d ← doubled acc.2 (if isAsciiDigit c then (c - 48).toNat else 0)
    let sum ← add32 acc.1 d
    some (sum, !acc.2)) (0, true)
  let rest ← sub32 10 (go.1 % 10)
  some (rest % 10)

/-- `cpf_check_digit`. -/
def cpfCheckDigit (digits : List Nat) (multiplierStart : Nat) : Option Nat := do
  let sum ← digits.zipIdx.foldlM (fun (sum : Nat) (p : Nat × Nat) => do
    let w ← sub32 multiplierStart p.2
    add32 sum (p.1 * w)) 0
  let rem := sum % 11
  if rem < 2 then some 0 else sub32 11 rem

section Generators

variable (R : Rand) (C : Chrono)

/-- `table[rng.gen_range(0..table.len())]`. -/
def pick {β : Type} (table : List β) (s : R.State) : Option (β × R.State) := do
  let (i, s) := R.genRange .usize 0 (table.length - 1) s
  let x ← index table i
  some (x, s)

/-- `n` draws of the same kind, in order. -/
def drawMany {β : Type} (draw : R.State → Option (β × R.State)) :
    Nat → R.State → Option (List β × R.State)
  | 0, s => some ([], s)
  | n + 1, s => do
    let (x, s) ← draw s
    let (xs, s) ← drawMany draw n s
    some (x :: xs, s)

def genEmail (s : R.State) : Option Str := do
  let (first, s) ← pick R firstNames s
  let (last, s) ← pick R lastNames s
  let (dot, _) := R.genBool s
  let sep := if dot then lit "." else []
  some (asciiLower first ++ sep ++ asciiLower last ++ lit "@example.com")

def genCreditCard (original : Str) (s : R.State) : Option Str := do
  let first := (original.find? isAsciiDigit).getD 52
  let (ds, _) ← drawMany R (fun s => do
    let (d, s) := R.genRange .u32 0 9 s
    let c ← fromDigit d
    some (c, s)) 14 s
  let digits := first :: ds
  let check ← luhnCheckDigit digits
  some (digits ++ decimal check)

def genRandomAlphanumeric (len : Nat) (s : R.State) : Option Str := do
  let (cs, _) ← drawMany R (pick R alphanumericChars) len s
  some cs

def genRandomUppercase (len : Nat) (s : R.State) : Option Str := do
  let (cs, _) ← drawMany R (pick R uppercaseChars) len s
  some cs

def genApiKey (pre : Str) (originalLen : Nat) (s : R.State) : Option Str := do
  let suffix ← genRandomAlphanumeric R (max (originalLen - pre.length) 32) s
  some (pre ++ suffix)

def genAwsAccessKey (s : R.State) : Option Str := do
  let suffix ← genRandomUppercase R 12 s
  some (lit "AKIAIOSFODNN7" ++ suffix)

def genDbConnection (original : Str) : Option Str := do
  let scheme ← slice original 0 (schemeEnd original)
  some (scheme ++ lit "synthetic:synthetic@localhost/db")

def genUrlWithCreds (original : Str) : Option Str := do
  let schemeEnd := schemeEnd original
  let scheme ← slice original 0 schemeEnd
  let behind ← slice original schemeEnd original.length
  let hostStart := match Search.find (lit "@") behind with
    | some i => schemeEnd + i + 1
    | none => schemeEnd
  let host ← slice original hostStart original.length
  some (scheme ++ lit "user:password@" ++ host)

def genPersonName (s : R.State) : Option Str := do
  let (first, s) ← pick R firstNames s
  let (last, _) ← pick R lastNames s
  some (first ++ lit " " ++ last)

def genOrgName (s : R.State) : Option Str := do
  let (name, _) ← pick R orgNames s
  some name

def genAddress (s : R.State) : Option Str := do
  let (num, s) := R.genRange .u32 1 9999 s
  let (street, s) ← pick R streetNames s
  let (suffix, _) ← pick R streetSuffixes s
  some (decimal num ++ lit " " ++ street ++ lit " " ++ suffix)

def genCpf (s : R.State) : Option Str := do
  let (d, _) := PrivacyClaw.drawMany R (R.genRange .u8 0 9) 9 s
  let d10 ← cpfCheckDigit d 10
  let d11 ← cpfCheckDigit d 11
  let digit (i : Nat) : Option Str := (index d i).map decimal
  let a ← digit 0; let b ← digit 1; let c ← digit 2
  let e ← digit 3; let f ← digit 4; let g ← digit 5
  let h ← digit 6; let i ← digit 7; let j ← digit 8
  some (a ++ b ++ c ++ lit "." ++ e ++ f ++ g ++ lit "." ++ h ++ i ++ j ++ lit "-" ++
    decimal d10 ++ decimal d11)

/-- `SyntheticGenerator::generate`. The generators that only print their draws
    are those of the plain model. -/
def generate (piiType : PiiType) (original : Str) (_locale : Locale) (s : R.State) : Option Str :=
  match piiType with
  | .email => genEmail R s
  | .phone => genPhone R original s
  | .ssn => some (genSsn R s)
  | .creditCard => genCreditCard R original s
  | .ipV4 => some (genIpv4 R s)
  | .ipV6 => some (genIpv6 R s)
  | .openAiApiKey => genApiKey R (lit "sk-") original.length s
  | .awsAccessKey => genAwsAccessKey R s
  | .awsSecretKey => genRandomAlphanumeric R 40 s
  | .gitHubPat => genApiKey R (lit "ghp_") original.length s
  | .bearerToken => genRandomAlphanumeric R (max original.length 32) s
  | .sshPrivateKey => some (lit "[REDACTED_PRIVATE_KEY]")
  | .dbConnectionString => genDbConnection original
  | .urlWithCreds => genUrlWithCreds original
  | .personName => genPersonName R s
  | .orgName => genOrgName R s
  | .address => genAddress R s
  | .dateOfBirth => genDob R C original s
  | .aadhaarNumber => some (genAadhaar R s)
  | .cpfNumber => genCpf R s
  | _ => genRandomAlphanumeric R (max original.length 8) s

/-- `SyntheticGenerator::get_or_create`, called with the lock of the vault held;
    `none` leaves it poisoned. -/
def getOrCreate (v : PiiVault) (original : Str) (piiType : PiiType) (locale : Locale)
    (tier : UInt8) (confidence : F32) : Option (Str × PiiVault) :=
  match v.getSynthetic original with
  | some existing => some (existing, v)
  | none => do
    let synthetic ← generate R C piiType original locale
      (R.seedFromU64 (v.rngSeed + UInt64.ofNat v.mappingCount))
    some (synthetic, v.addMapping original synthetic piiType tier confidence)

end Generators

end Checked

end PrivacyClaw
