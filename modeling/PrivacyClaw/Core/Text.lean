import Mathlib.Algebra.GroupWithZero.Nat
import Mathlib.Data.List.AList
import PrivacyClaw.Lib.Search

/-!
# Rust Strings

A `String` or `&str` of the program is the list of its UTF-8 bytes. The
proxy addresses text by byte offset throughout: spans, tokens, match
positions and the hold-back window are all byte counts, so the bytes are the
right level, and a character only matters where an offset has to fall between
two of them.

Slicing is the one operation that can abort. `str::index` panics when an
offset is out of range or inside a character, so `slice` returns `none` there
and every function that slices at an offset it was handed threads the
`Option`. Offsets that come out of a search for a non-empty needle are always
between characters, and the functions that only use those are total.

## Main definitions

* `Str`: The bytes of a Rust string.
* `lit`: The bytes of a string literal.
* `isCharBoundary`: `str::is_char_boundary`.
* `slice`: `&s[a..b]`, `none` where it panics.
* `replaceRange`: `String::replace_range`, `none` where it panics.
* `utf8Valid`: The validity test of `str::from_utf8`.
* `contains`, `lines`, `trim`, `trimStart`, `toLowercase`: The `str` methods of that
  name.
* `fromStrRadix`: Reading an unsigned integer.
* `decimal`: The `{}` form of an unsigned integer.
* `StrMap`: A `HashMap<String, String>`.

## Theorems

* `toDigits_mem`, `decimal_digit`, `decimal_eq`: The characters of a printed
  number.
* `slice_eq_some_iff`: When a slice is taken, and what it is.
* `take_slice_drop`, `slice_append_drop`: A slice and what stands around it.
* `isCharBoundary_append_left`: Boundaries inside a prefix.
* `StrMap.size_insert`: An insertion grows the map exactly on a new key.
-/

namespace PrivacyClaw

/-- The bytes of a Rust `String` or `&str`. -/
abbrev Str := List UInt8

/-- The bytes of a string literal. -/
def lit (s : String) : Str := s.toUTF8.data.toList

/-- `str::is_char_boundary`: the ends, and every byte that does not continue
    a character. -/
def isCharBoundary (s : Str) (i : Nat) : Bool :=
  if i = 0 then true
  else match s[i]? with
    | some b => b < 0x80 || 0xC0 ≤ b
    | none => i == s.length

/-- `&s[a..b]`; `none` where the index panics. -/
def slice (s : Str) (a b : Nat) : Option Str :=
  if a ≤ b ∧ b ≤ s.length ∧ isCharBoundary s a ∧ isCharBoundary s b then
    some ((s.take b).drop a)
  else none

/-- `s.replace_range(a..b, new)`; `none` where it panics. -/
def replaceRange (s : Str) (a b : Nat) (new : Str) : Option Str :=
  if a ≤ b ∧ b ≤ s.length ∧ isCharBoundary s a ∧ isCharBoundary s b then
    some (s.take a ++ new ++ s.drop b)
  else none

/-- A continuation byte of a multi-byte character. -/
def isCont (b : UInt8) : Bool := 0x80 ≤ b && b ≤ 0xBF

/-- The validity test of `str::from_utf8`. -/
def utf8Valid : List UInt8 → Bool
  | [] => true
  | a :: s =>
    if a < 0x80 then utf8Valid s
    else match s with
      | [] => false
      | b :: s =>
        if 0xC2 ≤ a ∧ a ≤ 0xDF then isCont b && utf8Valid s
        else match s with
          | [] => false
          | c :: s =>
            if 0xE0 ≤ a ∧ a ≤ 0xEF then
              -- no overlong form, no surrogate
              isCont b && isCont c && (a != 0xE0 || 0xA0 ≤ b) && (a != 0xED || b ≤ 0x9F) &&
                utf8Valid s
            else match s with
              | [] => false
              | d :: s =>
                0xF0 ≤ a && a ≤ 0xF4 && isCont b && isCont c && isCont d &&
                  (a != 0xF0 || 0x90 ≤ b) && (a != 0xF4 || b ≤ 0x8F) && utf8Valid s

/-- `str::contains` with a string pattern. -/
def contains (needle s : Str) : Bool := (Search.find needle s).isSome

/-- The pieces of `str::lines`, the current one in `acc`: a line ends at a line
    feed, with a carriage return before it or without. -/
def linesFrom : Str → Str → List Str
  | acc, [] => if acc = [] then [] else [acc]
  | acc, c :: s =>
    if c = 10 then
      (if acc.getLast? = some 13 then acc.dropLast else acc) :: linesFrom [] s
    else linesFrom (acc ++ [c]) s

/-- `str::lines`. -/
def lines (s : Str) : List Str := linesFrom [] s

/-- The characters `char::is_whitespace` accepts, in UTF-8. -/
def whitespace : List Str :=
  [[9], [10], [11], [12], [13], [32], [0xC2, 0x85], [0xC2, 0xA0], [0xE1, 0x9A, 0x80],
    [0xE2, 0x80, 0x80], [0xE2, 0x80, 0x81], [0xE2, 0x80, 0x82], [0xE2, 0x80, 0x83],
    [0xE2, 0x80, 0x84], [0xE2, 0x80, 0x85], [0xE2, 0x80, 0x86], [0xE2, 0x80, 0x87],
    [0xE2, 0x80, 0x88], [0xE2, 0x80, 0x89], [0xE2, 0x80, 0x8A], [0xE2, 0x80, 0xA8],
    [0xE2, 0x80, 0xA9], [0xE2, 0x80, 0xAF], [0xE2, 0x81, 0x9F], [0xE3, 0x80, 0x80]]

/-- Drop the given pieces from the front as long as there are any. -/
def stripAll (pieces : List Str) : Nat → Str → Str
  | 0, s => s
  | fuel + 1, s =>
    match pieces.find? (fun w => w.isPrefixOf s) with
    | some w => stripAll pieces fuel (s.drop w.length)
    | none => s

/-- `str::trim_start`. -/
def trimStart (s : Str) : Str := stripAll whitespace s.length s

/-- `str::trim`. -/
def trim (s : Str) : Str :=
  let front := stripAll whitespace s.length s
  (stripAll (whitespace.map List.reverse) front.length front.reverse).reverse

/-- `str::to_lowercase`, as far as its result is ASCII. The two letters outside
    ASCII whose lower case is an ASCII letter are the Kelvin sign and the dotted
    capital I; every other one stays outside, so that a test for an ASCII text
    cannot tell what it becomes. -/
def toLowercase : Str → Str
  | [] => []
  | 0xE2 :: 0x84 :: 0xAA :: s => 107 :: toLowercase s
  | 0xC4 :: 0xB0 :: s => 105 :: 0xCC :: 0x87 :: toLowercase s
  | c :: s => (if 65 ≤ c ∧ c ≤ 90 then c + 32 else c) :: toLowercase s

/-- The value of a digit. -/
def digitValue (b : UInt8) : Option Nat :=
  if 48 ≤ b ∧ b ≤ 57 then some (b.toNat - 48)
  else if 97 ≤ b ∧ b ≤ 122 then some (b.toNat - 87)
  else if 65 ≤ b ∧ b ≤ 90 then some (b.toNat - 55)
  else none

/-- The digits of a number, onto the value so far; `none` for another character
    and on overflow. -/
def digitsFrom (radix : Nat) : Nat → Str → Option Nat
  | n, [] => some n
  | n, b :: s =>
    match digitValue b with
    | none => none
    | some d =>
      if d < radix ∧ n * radix + d < 2 ^ 64 then digitsFrom radix (n * radix + d) s else none

/-- `usize::from_str_radix`: a plus sign is accepted, an empty text is not. -/
def fromStrRadix (radix : Nat) (s : Str) : Option Nat :=
  match s with
  | [] => none
  | [43] => none
  | 43 :: digits => digitsFrom radix 0 digits
  | digits => digitsFrom radix 0 digits

/-- The `{}` form of an unsigned integer. -/
def decimal (n : Nat) : Str := (Nat.toDigits 10 n).map (fun c => UInt8.ofNat c.toNat)

theorem toDigits_mem (b : Nat) (hb : 1 < b) : ∀ n, ∀ c ∈ Nat.toDigits b n,
    ∃ k, k < b ∧ c = Nat.digitChar k := by
  intro n
  induction n using Nat.strongRecOn with
  | ind n ih =>
      intro c hc
      rw [Nat.toDigits_eq_if hb] at hc
      by_cases hn : n < b
      · rw [if_pos hn, List.mem_singleton] at hc
        exact ⟨n, hn, hc⟩
      · rw [if_neg hn, List.mem_append, List.mem_singleton] at hc
        rcases hc with hc | hc
        · exact ih (n / b) (Nat.div_lt_self (by omega) hb) c hc
        · exact ⟨n % b, Nat.mod_lt _ (by omega), hc⟩

/-- A printed number is made of digits. -/
theorem decimal_digit (n : Nat) : ∀ b ∈ decimal n, 48 ≤ b ∧ b ≤ 57 := by
  have hdigit : ∀ k < 10, 48 ≤ UInt8.ofNat (Nat.digitChar k).toNat ∧
      UInt8.ofNat (Nat.digitChar k).toNat ≤ 57 := by decide
  intro b hb
  rcases List.mem_map.mp hb with ⟨c, hc, rfl⟩
  rcases toDigits_mem 10 (by decide) n c hc with ⟨k, hk, rfl⟩
  exact hdigit k hk

/-- A printed number is the printed number without its last digit, and that digit. -/
theorem decimal_eq (n : Nat) : decimal n =
    if n < 10 then [UInt8.ofNat (48 + n)] else decimal (n / 10) ++ [UInt8.ofNat (48 + n % 10)] := by
  have hdigit : ∀ k < 10, UInt8.ofNat (Nat.digitChar k).toNat = UInt8.ofNat (48 + k) := by decide
  unfold decimal
  rw [Nat.toDigits_eq_if (by decide)]
  by_cases hn : n < 10
  · rw [if_pos hn, if_pos hn, List.map_singleton, hdigit n hn]
  · rw [if_neg hn, if_neg hn, List.map_append, List.map_singleton,
      hdigit _ (Nat.mod_lt _ (by decide))]

theorem slice_eq_some_iff (s r : Str) (a b : Nat) :
    slice s a b = some r ↔ (a ≤ b ∧ b ≤ s.length ∧ isCharBoundary s a ∧ isCharBoundary s b) ∧
      r = (s.take b).drop a := by
  unfold slice
  by_cases h : a ≤ b ∧ b ≤ s.length ∧ isCharBoundary s a ∧ isCharBoundary s b
  · rw [if_pos h, Option.some.injEq]
    exact ⟨fun he => ⟨h, he.symm⟩, fun he => he.2.symm⟩
  · rw [if_neg h]
    exact ⟨fun he => absurd he (by simp only [reduceCtorEq, not_false_eq_true]),
      fun he => absurd he.1 h⟩

/-- Around a slice the text is what stands before it, the slice, and what
    stands after it. -/
theorem take_slice_drop (s : Str) (a b : Nat) (hab : a ≤ b) :
    s.take a ++ (s.take b).drop a ++ s.drop b = s := by
  have h : s.take a ++ (s.take b).drop a = s.take b := by
    rw [show s.take a = (s.take b).take a by rw [List.take_take, Nat.min_eq_left hab],
      List.take_append_drop]
  rw [h, List.take_append_drop]

/-- A slice followed by what stands behind it. -/
theorem slice_append_drop (s : Str) (a b : Nat) (hab : a ≤ b) :
    (s.take b).drop a ++ s.drop b = s.drop a := by
  have h := take_slice_drop s a b hab
  rw [List.append_assoc] at h
  exact List.append_cancel_left (h.trans (List.take_append_drop a s).symm)

/-- Where a text is joined from two parts at `i`, the boundary test before
    `i` only reads the first part. -/
theorem isCharBoundary_append_left (s t : Str) (i : Nat) (hi : i < s.length) :
    isCharBoundary (s ++ t) i = isCharBoundary s i := by
  unfold isCharBoundary
  rw [List.getElem?_append_left hi, List.getElem?_eq_getElem hi]

theorem isCharBoundary_zero (s : Str) : isCharBoundary s 0 = true := by
  simp only [isCharBoundary, if_true]

theorem isCharBoundary_length (s : Str) : isCharBoundary s s.length = true := by
  unfold isCharBoundary
  by_cases h : s.length = 0
  · rw [if_pos h]
  · rw [if_neg h, List.getElem?_eq_none (Nat.le_refl _)]
    simp only [beq_self_eq_true]

/-- A `HashMap<String, String>`: the iteration order is never observed. -/
abbrev StrMap := AList (fun _ : Str => Str)

/-- `HashMap::len`. -/
def StrMap.size (m : StrMap) : Nat := m.entries.length

/-- An insertion grows the map exactly when the key is new. -/
theorem StrMap.size_insert (m : StrMap) (k v : Str) :
    StrMap.size (m.insert k v) = if k ∈ m then StrMap.size m else StrMap.size m + 1 := by
  have hkeys : ∀ m : StrMap, StrMap.size m = m.keys.length := fun m => by
    simp only [StrMap.size, AList.keys, List.keys, List.length_map]
  rw [hkeys, hkeys, AList.keys_insert, List.length_cons]
  by_cases h : k ∈ m
  · have herase := @List.length_erase_of_mem _ instBEqOfDecidableEq _ _ _ (AList.mem_keys.mp h)
    have hpos := List.length_pos_of_mem (AList.mem_keys.mp h)
    rw [if_pos h, herase]
    omega
  · have herase := @List.erase_of_not_mem _ instBEqOfDecidableEq _ _ _
      (fun hc => h (AList.mem_keys.mpr hc))
    rw [if_neg h, herase]

theorem StrMap.size_ne_zero_of_mem (m : StrMap) (k : Str) (h : k ∈ m) : StrMap.size m ≠ 0 := by
  intro hz
  have hkeys : m.keys = [] := by
    rw [AList.keys, List.keys, List.length_eq_zero_iff.mp hz, List.map_nil]
  have hmem : k ∈ m.keys := AList.mem_keys.mp h
  rw [hkeys] at hmem
  exact List.not_mem_nil hmem

theorem StrMap.size_insert_ne_zero (m : StrMap) (k v : Str) : StrMap.size (m.insert k v) ≠ 0 :=
  StrMap.size_ne_zero_of_mem _ k ((AList.mem_insert _).mpr (Or.inl rfl))

end PrivacyClaw
