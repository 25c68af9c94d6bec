import PrivacyClaw.Core.Pipeline
import PrivacyClaw.Lib.Scan
import PrivacyClaw.Lib.Utf8

/-!
# The Sidecar

`packaging/privacyclaw-slm-sidecar`: from the strings a language model has
named to the spans of a `/replace` reply.

The sidecar is a Python program, so its texts are sequences of characters and
its offsets count characters. The strings are looked for one by one, longest
first, and an occurrence that touches a range taken before is left out. What
is only passed on (the display value and the type label) is kept in the bytes
that go over the wire.

The classification of a string rests on Unicode classes of regular expressions
and is a parameter, as are the hash and the order in which a set is read out.

## Main definitions

* `PyStr`: A Python string.
* `SidecarType`, `generateSynthetic`: The types of the sidecar and their display
  values.
* `SetOrder`: The order of a Python set.
* `Resolver`, `addMatch`, `addString`: The loops.
* `resolveReplacements`: The spans of the named strings.
* `Replacement.reply`: What goes into the reply.
-/

namespace PrivacyClaw

/-- A Python `str`: its characters. -/
abbrev PyStr := List Char

/-- The values of `pii_type`. -/
inductive SidecarType where
  | email | ssn | creditCard | phone | apiKey | personName | address | password | otherPii
  deriving DecidableEq, Repr

/-- The label that goes into the reply. -/
def SidecarType.label : SidecarType → Str
  | .email => lit "email"
  | .ssn => lit "ssn"
  | .creditCard => lit "credit_card"
  | .phone => lit "phone"
  | .apiKey => lit "api_key"
  | .personName => lit "person_name"
  | .address => lit "address"
  | .password => lit "password"
  | .otherPii => lit "other_pii"

/-- `NAMES`. -/
def namePool : List Str :=
  ["Maria Jensen", "Omar Hassan", "Yuki Tanaka", "Sofia Rossi", "James Okafor", "Priya Nair",
    "Lena Müller", "Carlos Reyes", "Amara Diallo", "Ethan Kowalski", "Fatima Rashida",
    "Noah Bergström", "Aisha Mensah", "Lucas Ferreira", "Meiling Chen", "David Adeyemi",
    "Sara Lindqvist", "Ahmed Khalil", "Elena Petrov", "Marcus Williams", "Nadia Bouchard",
    "Ravi Sharma", "Ingrid Halvorsen", "Kofi Asante", "Valentina Cruz", "Hiroshi Nakamura",
    "Amelia Tremblay", "Yusuf Ibrahim", "Clara Bergmann", "Samuel Okonkwo", "Layla Aziz",
    "Andrei Volkov", "Chioma Eze", "Emil Johansson", "Hana Suzuki", "Roberto Morales",
    "Zara Ahmed", "Mikael Saarinen", "Blessing Adaora", "Tomas Novak", "Sana Malik",
    "Patrick Dubois", "Nia Owusu", "Aleksei Morozov", "Isabel Gutierrez", "Kwame Boateng",
    "Astrid Eriksson", "Jabari Washington", "Leila Nazari", "Bruno Carvalho"].map lit

/-- `int(h, 16)` of the hex digits of some bytes. -/
def hexValue (bytes : List UInt8) : Nat := bytes.foldl (fun n b => n * 256 + b.toNat) 0

/-- The hex digits of some bytes. -/
def hexDigest (bytes : List UInt8) : Str := bytes.flatMap fun b => zeroPad 2 (hexLower b.toNat)

/-- `generate_synthetic`. -/
def generateSynthetic (h : Hashes) (piiStr : PyStr) (piiType : SidecarType) : Str :=
  let digest := (h.sha256 (Utf8.encode piiStr)).toList
  let four := zeroPad 4 (decimal (hexValue (digest.take 2) % 10000))
  match piiType with
  | .personName => (namePool[hexValue digest % 50]?).getD []
  | .email => lit "redacted" ++ hexDigest (digest.take 2) ++ lit "@example.com"
  | .phone => lit "555-000-" ++ four
  | .address => decimal (hexValue (digest.take 1) % 90 + 10) ++ lit " Redacted St, Anytown"
  | .ssn => lit "000-00-" ++ four
  | .creditCard => lit "4000-0000-0000-" ++ four
  | .apiKey => lit "[REDACTED-KEY-" ++ hexDigest (digest.take 3) ++ lit "]"
  | .password => lit "[REDACTED-PASSWORD]"
  | .otherPii => lit "[REDACTED]"

/-- `Replacement`; the token id is never filled in. -/
structure Replacement where
  original : PyStr
  displayValue : Str
  piiType : SidecarType
  tokenId : Str
  start : Nat
  stop : Nat
  deriving DecidableEq, Repr

/-- The order in which the elements of `set(l)` are read out. -/
structure SetOrder where
  toList : List PyStr → List PyStr
  perm : ∀ l, (toList l).Perm l.dedup

/-- What the sidecar is run with. -/
structure SidecarEnv where
  hashes : Hashes
  classifyPiiType : PyStr → SidecarType
  set : SetOrder

/-- `sorted(set(pii_strings), key=len, reverse=True)`: a stable sort. -/
def uniquePii (env : SidecarEnv) (piiStrings : List PyStr) : List PyStr :=
  (env.set.toList piiStrings).insertionSort (fun a b => b.length ≤ a.length)

/-- The ranges taken so far and the results. -/
structure Resolver where
  covered : List (Nat × Nat)
  results : List Replacement

/-- The overlap test. -/
def overlapping (covered : List (Nat × Nat)) (s e : Nat) : Bool :=
  covered.any fun (cs, ce) => (cs ≤ s && s < ce) || (cs < e && e ≤ ce)

/-- One match of a string, at offset `s`. -/
def addMatch (env : SidecarEnv) (piiStr : PyStr) (st : Resolver) (s : Nat) : Resolver :=
  let piiType := env.classifyPiiType piiStr
  let e := s + piiStr.length
  if overlapping st.covered s e then st
  else ⟨st.covered ++ [(s, e)], st.results ++
    [⟨piiStr, generateSynthetic env.hashes piiStr piiType, piiType, [], s, e⟩]⟩

/-- One string: every match of `re.finditer(re.escape(pii_str), text)`. -/
def addString (env : SidecarEnv) (text : PyStr) (st : Resolver) (piiStr : PyStr) : Resolver :=
  if piiStr.isEmpty then st
  else (Search.scan piiStr text).foldl (addMatch env piiStr) st

/-- The state behind the loop over the strings. -/
def resolve (env : SidecarEnv) (text : PyStr) (piiStrings : List PyStr) : Resolver :=
  (uniquePii env piiStrings).foldl (addString env text) ⟨[], []⟩

/-- `resolve_replacements`. -/
def resolveReplacements (env : SidecarEnv) (text : PyStr) (piiStrings : List PyStr) :
    List Replacement :=
  (resolve env text piiStrings).results.insertionSort (fun a b => a.start ≤ b.start)

/-- What the proxy reads of an entry. -/
def Replacement.reply (r : Replacement) : ReplaceReplacement :=
  ⟨r.start, r.stop, r.displayValue, r.piiType.label⟩

end PrivacyClaw
