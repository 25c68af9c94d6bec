import PrivacyClaw.Core.Synth
import PrivacyClaw.Core.Tier1
import PrivacyClaw.Lib.Regex
import PrivacyClaw.Lib.Utf8

/-!
# The Patterns

`src/pii/tier1.rs`: the pattern tables and the functions that look at a match
once more.

A pattern is a backtracking regular expression over characters, and what it
finds is handed on in byte offsets. Inside a pattern `\s` is white space in the
sense of Unicode; which characters are `\d` and `\w` is a parameter, of which
only the part below 128 is fixed. A class of letters without regard to case holds
two characters more than one sees, the long s and the Kelvin sign.

A validator reads the ASCII digits of a match and passes over everything else,
so the separators that a pattern allows do not matter to it.

## Main definitions

* `asciiDigits`: The values of the digits of a text.
* `ipv6Valid`, `luhnValid`, `cpfValid`: The validators.
* `UnicodeClasses`, `isUnicodeSpace`: Classes of characters.
* `universalTable`, `localeTable`: The patterns.
* `regexSet`: A pattern as the detector runs it.
* `tier1Detector`: The detector with these tables.
-/

namespace PrivacyClaw

/-- The values of the ASCII digits of a text, in order. -/
def asciiDigits (s : Str) : List Nat := (s.filter isAsciiDigit).map fun c => (c - 48).toNat

/-- `ipv6_valid`: two colons at least, and no segment between them of more
    than four bytes. -/
def ipv6Valid (s : Str) : Bool :=
  if s.countP (· == 58) < 2 then false
  else ((s.splitOn 58).filter fun seg => !seg.isEmpty).all fun seg => seg.length ≤ 4

/-- `luhn_valid`: from the right, every second digit doubled, beginning with the
    last but one. -/
def luhnValid (s : Str) : Bool :=
  let digits := asciiDigits s
  if digits.length < 13 ∨ digits.length > 19 then false
  else
    let go := digits.reverse.foldl (fun (acc : Nat × Bool) d =>
      let val := if acc.2 then (if d * 2 > 9 then d * 2 - 9 else d * 2) else d
      (acc.1 + val, !acc.2)) (0, false)
    go.1 % 10 == 0

/-- `cpf_valid`: eleven digits, not all the same, the last two of them check
    digits of those before. -/
def cpfValid (s : Str) : Bool :=
  let digits := asciiDigits s
  if digits.length ≠ 11 then false
  else if digits.all (fun d => d == digits.getD 0 0) then false
  else
    let sum1 := ((digits.take 9).zipIdx.map fun (p : Nat × Nat) => p.1 * (10 - p.2)).sum
    let r1 := sum1 % 11
    let check1 := if r1 < 2 then 0 else 11 - r1
    if digits.getD 9 0 ≠ check1 then false
    else
      let sum2 := ((digits.take 10).zipIdx.map fun (p : Nat × Nat) => p.1 * (11 - p.2)).sum
      let r2 := sum2 % 11
      let check2 := if r2 < 2 then 0 else 11 - r2
      digits.getD 10 0 == check2

/-- The classes `\d` and `\w`. -/
structure UnicodeClasses where
  digit : Char → Bool
  word : Char → Bool
  digit_ascii : ∀ c, Utf8.Ascii c → digit c = c.isDigit
  word_ascii : ∀ c, Utf8.Ascii c → word c = (c.isAlphanum || c == '_')

/-- The class `\s`. -/
def isUnicodeSpace (c : Char) : Bool :=
  let n := c.toNat
  (9 ≤ n && n ≤ 13) || n == 0x20 || n == 0x85 || n == 0xA0 || n == 0x1680 ||
    (0x2000 ≤ n && n ≤ 0x200A) || n == 0x2028 || n == 0x2029 || n == 0x202F || n == 0x205F ||
    n == 0x3000

/-- The classes of ASCII text. -/
def UnicodeClasses.ascii : UnicodeClasses where
  digit := Char.isDigit
  word c := c.isAlphanum || c == '_'
  digit_ascii _ _ := rfl
  word_ascii _ _ := rfl

/-- One of the given characters. -/
def oneOf (s : String) (c : Char) : Bool := s.toList.contains c

/-- A lower-case letter, without regard to case. -/
def foldsTo (a c : Char) : Bool :=
  c == a || c == a.toUpper || (a == 's' && c == 'ſ') || (a == 'k' && c.toNat == 0x212A)

/-- `(?i)[a-z]`. -/
def foldedLetter (c : Char) : Bool := c.isAlpha || c == 'ſ' || c.toNat == 0x212A

def isHex (c : Char) : Bool := c.isDigit || oneOf "abcdefABCDEF" c

namespace Pattern

open Regex

/-- A literal text. -/
def word (s : String) : Regex Char := text s.toList

/-- A literal text of lower-case letters, without regard to case. -/
def foldedWord (s : String) : Regex Char := concat (s.toList.map fun a => cls (foldsTo a))

/-- Exactly `n` characters of a class. -/
def exactly (n : Nat) (c : Char → Bool) : Regex Char := rep (cls c) n (some n)

/-- The first expression that matches. -/
def choice : List (Regex Char) → Regex Char
  | [] => notAhead eps
  | [r] => r
  | r :: rs => alt r (choice rs)

variable (U : UnicodeClasses)

/-- `://[^:\s]+:[^@\s]+@[^\s]+` -/
def credentials : Regex Char :=
  concat [word "://", rep (cls fun c => c != ':' && !isUnicodeSpace c) 1 none, word ":",
    rep (cls fun c => c != '@' && !isUnicodeSpace c) 1 none, word "@",
    rep (cls fun c => !isUnicodeSpace c) 1 none]

/-- `(?i)(?:postgres|postgresql|mysql|mariadb|mongodb|redis|amqp)://…` -/
def dbConnectionString : Regex Char :=
  concat [choice (["postgres", "postgresql", "mysql", "mariadb", "mongodb", "redis",
    "amqp"].map foldedWord), credentials]

/-- `https?://[^:\s]+:[^@\s]+@[^\s]+` -/
def urlWithCreds : Regex Char := concat [word "http", opt (word "s"), credentials]

/-- `-----BEGIN (?:RSA|EC|OPENSSH|DSA|PGP) PRIVATE KEY-----` -/
def sshPrivateKey : Regex Char :=
  concat [word "-----BEGIN ", choice (["RSA", "EC", "OPENSSH", "DSA", "PGP"].map word),
    word " PRIVATE KEY-----"]

/-- `Bearer [A-Za-z0-9._~+/=\-]{20,}` -/
def bearerToken : Regex Char :=
  concat [word "Bearer ", rep (cls fun c => c.isAlphanum || oneOf "._~+/=-" c) 20 none]

/-- `ghp_[A-Za-z0-9]{36}|github_pat_[A-Za-z0-9_]{82}` -/
def gitHubPat : Regex Char :=
  alt (concat [word "ghp_", exactly 36 Char.isAlphanum])
    (concat [word "github_pat_", exactly 82 fun c => c.isAlphanum || c == '_'])

/-- `(?i)aws.{0,20}secret.{0,10}[=:\s]['"]?([A-Za-z0-9/+]{40})` -/
def awsSecretKey : Regex Char :=
  concat [foldedWord "aws", rep (cls (· != '\n')) 0 (some 20), foldedWord "secret",
    rep (cls (· != '\n')) 0 (some 10), cls fun c => oneOf "=:" c || isUnicodeSpace c,
    opt (cls (oneOf "'\"")), exactly 40 fun c => foldedLetter c || c.isDigit || oneOf "/+" c]

/-- `AKIA[0-9A-Z]{16}` -/
def awsAccessKey : Regex Char := concat [word "AKIA", exactly 16 fun c => c.isDigit || c.isUpper]

/-- `sk-[A-Za-z0-9]{20,100}` -/
def openAiApiKey : Regex Char := concat [word "sk-", rep (cls Char.isAlphanum) 20 (some 100)]

/-- `[:\w]` -/
def colonOrWord (c : Char) : Bool := c == ':' || U.word c

/-- `[0-9a-fA-F]{1,4}:` -/
def hexGroup : Regex Char := concat [rep (cls isHex) 1 (some 4), word ":"]

/-- `[0-9a-fA-F:]*` -/
def hexRest : Regex Char := rep (cls fun c => isHex c || c == ':') 0 none

/-- All eight groups; groups and a double colon; a double colon in front. -/
def ipV6 : Regex Char :=
  alt (concat [notBehind (colonOrWord U), rep hexGroup 7 (some 7), rep (cls isHex) 1 (some 4),
    notAhead (cls (colonOrWord U))])
    (alt (concat [notBehind (colonOrWord U), rep hexGroup 1 (some 7), word ":", hexRest,
      notAhead (cls (colonOrWord U))])
      (concat [notBehind (colonOrWord U), word "::", hexRest, notAhead (cls (colonOrWord U))]))

/-- `25[0-5]|2[0-4]\d|[01]?\d\d?` -/
def octet : Regex Char :=
  choice [concat [word "25", cls (oneOf "012345")], concat [word "2", cls (oneOf "01234"), cls U.digit],
    concat [opt (cls (oneOf "01")), cls U.digit, opt (cls U.digit)]]

/-- `(?<!\d)(?:(?:25[0-5]|2[0-4]\d|[01]?\d\d?)\.){3}(?:25[0-5]|2[0-4]\d|[01]?\d\d?)(?!\d)` -/
def ipV4 : Regex Char :=
  concat [notBehind U.digit, rep (concat [octet U, word "."]) 3 (some 3), octet U,
    notAhead (cls U.digit)]

/-- `[\s\-]` -/
def spaceOrDash (c : Char) : Bool := isUnicodeSpace c || c == '-'

/-- `(?<!\d)(?:4\d{3}|5[1-5]\d{2}|3[47]\d{2}|6011|65\d{2})` and three groups of four with
    `[\s\-]?` in front of each, then `(?:\d{3})?(?!\d)`. -/
def creditCard : Regex Char :=
  concat [notBehind U.digit,
    choice [concat [word "4", exactly 3 U.digit],
      concat [word "5", cls (oneOf "12345"), exactly 2 U.digit],
      concat [word "3", cls (oneOf "47"), exactly 2 U.digit], word "6011",
      concat [word "65", exactly 2 U.digit]],
    opt (cls spaceOrDash), exactly 4 U.digit, opt (cls spaceOrDash), exactly 4 U.digit,
    opt (cls spaceOrDash), exactly 4 U.digit, opt (exactly 3 U.digit), notAhead (cls U.digit)]

/-- `(?<!\d)(?!000|666|9\d\d)\d{3}[-\s](?!00)\d{2}[-\s](?!0000)\d{4}(?!\d)` -/
def ssn : Regex Char :=
  concat [notBehind U.digit,
    notAhead (choice [word "000", word "666", concat [word "9", cls U.digit, cls U.digit]]),
    exactly 3 U.digit, cls spaceOrDash, notAhead (word "00"), exactly 2 U.digit, cls spaceOrDash,
    notAhead (word "0000"), exactly 4 U.digit, notAhead (cls U.digit)]

/-- `[\s\-.]` -/
def separator (c : Char) : Bool := isUnicodeSpace c || oneOf "-." c

/-- `(?:\+1[\s\-.]?)?\(?\d{3}\)?[\s\-.](?:\d{3})[\s\-.](\d{4})` -/
def phone : Regex Char :=
  concat [opt (concat [word "+1", opt (cls separator)]), opt (word "("), exactly 3 U.digit,
    opt (word ")"), cls separator, exactly 3 U.digit, cls separator, exactly 4 U.digit]

/-- `(?i)[a-z0-9._%+\-]+@[a-z0-9.\-]+\.[a-z]{2,}` -/
def email : Regex Char :=
  concat [rep (cls fun c => foldedLetter c || c.isDigit || oneOf "._%+-" c) 1 none, word "@",
    rep (cls fun c => foldedLetter c || c.isDigit || oneOf ".-" c) 1 none, word ".",
    rep (cls foldedLetter) 2 none]

end Pattern

open Pattern in
/-- `universal_patterns`, in its order: the type, the expression and the
    validator. -/
def universalTable (U : UnicodeClasses) :
    List (PiiType × Regex Char × Option (Str → Bool)) :=
  [(.dbConnectionString, dbConnectionString, none), (.urlWithCreds, urlWithCreds, none),
    (.sshPrivateKey, sshPrivateKey, none), (.bearerToken, bearerToken, none),
    (.gitHubPat, gitHubPat, none), (.awsSecretKey, awsSecretKey, none),
    (.awsAccessKey, awsAccessKey, none), (.openAiApiKey, openAiApiKey, none),
    (.ipV6, ipV6 U, some ipv6Valid), (.ipV4, ipV4 U, none),
    (.creditCard, creditCard U, some luhnValid), (.ssn, ssn U, none), (.phone, phone U, none),
    (.email, email, none)]

open Pattern Regex in
/-- `locale_patterns`. -/
def localeTable (U : UnicodeClasses) : Locale → List (PiiType × Regex Char × Option (Str → Bool))
  | .enGb => [(.custom (lit "UK_NIN"),
      concat [exactly 2 fun c => "abceghjklmnoprstwxyz".toList.any fun a => foldsTo a c,
        opt (cls isUnicodeSpace), exactly 2 U.digit, opt (cls isUnicodeSpace), exactly 2 U.digit,
        opt (cls isUnicodeSpace), exactly 2 U.digit, opt (cls isUnicodeSpace),
        cls (oneOf "abcdABCD")], none)]
  | .deDe => [(.custom (lit "DE_STEUER_ID"),
      concat [notBehind U.digit, cls (oneOf "123456789"), exactly 10 U.digit,
        notAhead (cls U.digit)], none)]
  | .frFr => [(.custom (lit "FR_INSEE"),
      concat [notBehind U.digit, cls (oneOf "12"), exactly 12 U.digit, notAhead (cls U.digit)],
      none)]
  | .inIn => [(.aadhaarNumber,
      concat [exactly 4 U.digit, cls isUnicodeSpace, exactly 4 U.digit, cls isUnicodeSpace,
        exactly 4 U.digit], none),
      (.custom (lit "IN_PAN"),
        concat [exactly 5 Char.isUpper, exactly 4 Char.isDigit, cls Char.isUpper], none)]
  | .koKr => [(.custom (lit "KO_RRN"),
      concat [exactly 6 U.digit, word "-", cls (oneOf "1234"), exactly 6 U.digit], none),
      (.custom (lit "KO_BRN"),
        concat [exactly 3 U.digit, word "-", exactly 2 U.digit, word "-", exactly 5 U.digit], none)]
  | .brBr => [(.cpfNumber,
      concat [exactly 3 U.digit, word ".", exactly 3 U.digit, word ".", exactly 3 U.digit, word "-",
        exactly 2 U.digit], some cpfValid),
      (.custom (lit "BR_CNPJ"),
        concat [exactly 2 U.digit, word ".", exactly 3 U.digit, word ".", exactly 3 U.digit,
          word "/", exactly 4 U.digit, word "-", exactly 2 U.digit], none)]
  | .enUs => []

/-- A pattern as the detector runs it, with byte offsets. -/
def regexSet (e : PiiType × Regex Char × Option (Str → Bool)) : PatternSet where
  entityType := e.1
  findIter s :=
    match Utf8.decode s with
    | some cs => (Regex.findIter e.2.1 cs).map fun m =>
        some ((Utf8.encode m.1.1.reverse).length, (Utf8.encode m.2.1.reverse).length)
    | none => []
  validate := e.2.2

/-- The detector with the tables of the source. -/
def tier1Detector (U : UnicodeClasses) : Tier1Detector where
  universalPatterns := (universalTable U).map regexSet
  localePatterns l := (localeTable U l).map regexSet

end PrivacyClaw
