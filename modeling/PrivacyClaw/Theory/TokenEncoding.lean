import Mathlib.Data.Nat.Digits.Defs
import PrivacyClaw.Core.Vault

/-!
# The Encoding of Token Ids

Whether two token ids can be equal without equal digests.

An id is the last eight digits of a number in base 62, and the number is six
bytes of a digest read in base 256. Six bytes are told apart by their number, and
reading the digits gives back the number up to `62 ^ 8`. That is less than
`2 ^ 48`, but more than half of it: a number that does not fit is written like the
one that is less by `62 ^ 8`, and no other two numbers are written alike
(`tokenId_encoding_iff`).

## Main definitions

* `base62Value`: The number a text in base 62 stands for.
* `tokenDigest`: The bytes of the digest that go into an id.

## Theorems

* `base62Value_encode`: Reading the digits of a number.
* `base62Encode_eq_iff`: The numbers with the same digits.
* `fromBeBytes_lt`, `fromBeBytes_injective`: Numbers and their bytes.
* `base62Encode6Bytes_eq_iff`: Values of 48 bits that are written alike.
* `tokenId_encoding_iff`: When ids are equal only with their bytes.
-/

namespace PrivacyClaw

/-- The number a text in base 62 stands for. -/
def base62Value (s : Str) : Nat := s.foldl (fun n b => n * 62 + base62.idxOf b) 0

/-- Every digit is found where it stands in the alphabet. -/
theorem idxOf_base62 (d : Nat) (hd : d < 62) : base62.idxOf (base62.getD d 0) = d := by
  have hnodup : base62.Nodup := by decide
  have hlen : d < base62.length := hd.trans_eq (by decide)
  rw [List.getD_eq_getElem?_getD, List.getElem?_eq_getElem hlen, Option.getD_some]
  exact hnodup.idxOf_getElem d hlen

/-- The last digits of a number are read as what is left of it. -/
theorem base62Value_encode (n : Nat) : ∀ val, base62Value (base62Encode n val) = val % 62 ^ n := by
  induction n with
  | zero => exact fun val => (Nat.mod_one val).symm
  | succ n ih =>
      intro val
      have hread := ih (val / 62)
      unfold base62Value at hread ⊢
      rw [base62Encode, List.foldl_append, hread, List.foldl_cons, List.foldl_nil,
        idxOf_base62 _ (Nat.mod_lt _ (by decide)), Nat.pow_succ, Nat.mul_comm (62 ^ n) 62,
        Nat.mod_mul]
      omega

/-- Numbers have the same last digits when the same is left of them. -/
theorem base62Encode_eq_iff (n : Nat) : ∀ a b,
    base62Encode n a = base62Encode n b ↔ a % 62 ^ n = b % 62 ^ n := by
  have hread : ∀ a b, base62Encode n a = base62Encode n b → a % 62 ^ n = b % 62 ^ n := by
    intro a b h
    rw [← base62Value_encode, h, base62Value_encode]
  have hwrite : ∀ a, base62Encode n a = base62Encode n (a % 62 ^ n) := by
    clear hread
    induction n with
    | zero => exact fun a => rfl
    | succ n ih =>
        intro a
        -- the last digit is that of what is left, and so are the others
        have hlast : a % 62 ^ (n + 1) % 62 = a % 62 :=
          Nat.mod_mod_of_dvd a (Dvd.intro_left (62 ^ n) rfl)
        have hrest : a % 62 ^ (n + 1) / 62 = a / 62 % 62 ^ n := by
          rw [Nat.pow_succ, Nat.mul_comm, Nat.mod_mul_right_div_self]
        rw [base62Encode, base62Encode, hlast, hrest, ih (a / 62)]
  intro a b
  exact ⟨hread a b, fun h => by rw [hwrite a, h, ← hwrite b]⟩

/-- A byte sequence by the digits of its number. -/
theorem fromBeBytes_eq_ofDigits (s : List UInt8) :
    fromBeBytes s = Nat.ofDigits 256 (s.reverse.map UInt8.toNat) := by
  rw [Nat.ofDigits_eq_foldr, List.foldr_map, List.foldr_reverse, fromBeBytes]
  refine congrArg (fun f => s.foldl f 0) (funext fun n => funext fun b => ?_)
  rw [Nat.cast_id, Nat.add_comm, Nat.mul_comm]

theorem digits_lt (s : List UInt8) : ∀ d ∈ s.reverse.map UInt8.toNat, d < 256 := by
  intro d hd
  rcases List.mem_map.mp hd with ⟨b, _, rfl⟩
  exact b.toNat_lt

theorem fromBeBytes_lt (s : List UInt8) : fromBeBytes s < 256 ^ s.length := by
  have h := Nat.ofDigits_lt_base_pow_length (by decide) (digits_lt s)
  rw [List.length_map, List.length_reverse] at h
  rw [fromBeBytes_eq_ofDigits]
  exact h

/-- As many bytes with the same number are the same. -/
theorem fromBeBytes_injective (s t : List UInt8) (hlen : s.length = t.length)
    (h : fromBeBytes s = fromBeBytes t) : s = t := by
  rw [fromBeBytes_eq_ofDigits, fromBeBytes_eq_ofDigits] at h
  have hdigits := Nat.ofDigits_inj_of_len_eq (by decide)
    (by rw [List.length_map, List.length_map, List.length_reverse, List.length_reverse, hlen])
    (digits_lt s) (digits_lt t) h
  exact List.reverse_injective (List.map_injective_iff.mpr
    (fun _ _ => UInt8.toNat_inj.mp) hdigits)

/-- The first six bytes of the digest behind an id. -/
def tokenDigest (h : Hashes) (conversationId : Str) (entityIndex : Nat) : List UInt8 :=
  (h.sha256 (conversationId ++ lit ":" ++ decimal entityIndex)).toList.take 6

theorem tokenDigest_length (h : Hashes) (conv : Str) (i : Nat) :
    (tokenDigest h conv i).length = 6 := by
  rw [tokenDigest, List.length_take, Vector.length_toList]
  rfl

/-- Two zero bytes behind the number, shifted out again. -/
theorem fromBeBytes_pad (s : List UInt8) : fromBeBytes (s ++ [0, 0]) >>> 16 = fromBeBytes s := by
  have hpad : fromBeBytes (s ++ [0, 0]) = (fromBeBytes s * 256 + 0) * 256 + 0 :=
    List.foldl_append
  rw [hpad, Nat.add_zero, Nat.add_zero, Nat.mul_assoc, Nat.shiftRight_eq_div_pow]
  exact Nat.mul_div_cancel _ (by decide)

/-- An id is the encoding of these bytes. -/
theorem generateTokenId_eq (h : Hashes) (conv : Str) (i : Nat) :
    generateTokenId h conv i = base62Encode6Bytes (fromBeBytes (tokenDigest h conv i)) := by
  rw [generateTokenId, tokenDigest]
  generalize h.sha256 _ = digest
  have htake : digest.toList.take 6 =
      [digest[0], digest[1], digest[2], digest[3], digest[4], digest[5]] := by
    refine List.ext_getElem (by rw [List.length_take, Vector.length_toList]; rfl) fun k hk hk' => ?_
    rw [List.getElem_take, Vector.getElem_toList]
    have hlt : k < 6 := hk'
    have hsix : k = 0 ∨ k = 1 ∨ k = 2 ∨ k = 3 ∨ k = 4 ∨ k = 5 := by omega
    rcases hsix with rfl | rfl | rfl | rfl | rfl | rfl <;> rfl
  have hpad := fromBeBytes_pad
    [digest[0], digest[1], digest[2], digest[3], digest[4], digest[5]]
  rw [htake, ← hpad]
  rfl

/-- Below twice `62 ^ 8` two numbers have one encoding only if they are equal or
    differ by `62 ^ 8`. -/
theorem base62Encode6Bytes_eq_iff (a b : Nat) (ha : a < 2 ^ 48) (hb : b < 2 ^ 48) :
    (base62Encode6Bytes a = base62Encode6Bytes b ↔ a = b) ↔ a + 62 ^ 8 ≠ b ∧ b + 62 ^ 8 ≠ a := by
  have hfit : 2 ^ 48 < 2 * 62 ^ 8 := by decide
  have hpos : 0 < 62 ^ 8 := by decide
  rw [base62Encode6Bytes, base62Encode6Bytes, base62Encode_eq_iff]
  generalize 62 ^ 8 = m at hfit hpos
  generalize 2 ^ 48 = n at ha hb hfit
  constructor
  · intro h
    constructor
    · intro hab
      have heq := h.mp (by rw [← hab, Nat.add_mod_right])
      omega
    · intro hba
      have heq := h.mp (by rw [← hba, Nat.add_mod_right])
      omega
  · rintro ⟨hab, hba⟩
    refine ⟨fun h => ?_, congrArg (· % m)⟩
    -- the quotients are zero or one
    have hqa : a / m < 2 := Nat.div_lt_of_lt_mul (by omega)
    have hqb : b / m < 2 := Nat.div_lt_of_lt_mul (by omega)
    have hsa := Nat.div_add_mod a m
    have hsb := Nat.div_add_mod b m
    rw [h] at hsa
    generalize a / m = p at hqa hsa
    generalize b / m = q at hqb hsb
    have hp : p = 0 ∨ p = 1 := by omega
    have hq : q = 0 ∨ q = 1 := by omega
    rcases hp with rfl | rfl <;> rcases hq with rfl | rfl <;> omega

theorem tokenDigest_lt (h : Hashes) (conv : Str) (i : Nat) :
    fromBeBytes (tokenDigest h conv i) < 2 ^ 48 := by
  have hsix := fromBeBytes_lt (tokenDigest h conv i)
  rw [tokenDigest_length] at hsix
  exact hsix

/-- Two numbers of 48 bits have different encodings unless they differ by
    `62 ^ 8`, and two ids of a conversation are equal only with the first six bytes of
    their digests, unless the numbers of these do. -/
theorem tokenId_encoding_iff (a b : Nat) (ha : a < 2 ^ 48) (hb : b < 2 ^ 48) (h : Hashes)
    (conv : Str) (i j : Nat) :
    ((base62Encode6Bytes a = base62Encode6Bytes b ↔ a = b) ↔
      a + 62 ^ 8 ≠ b ∧ b + 62 ^ 8 ≠ a) ∧
    ((generateTokenId h conv i = generateTokenId h conv j ↔
        tokenDigest h conv i = tokenDigest h conv j) ↔
      fromBeBytes (tokenDigest h conv i) + 62 ^ 8 ≠ fromBeBytes (tokenDigest h conv j) ∧
        fromBeBytes (tokenDigest h conv j) + 62 ^ 8 ≠ fromBeBytes (tokenDigest h conv i)) := by
  refine ⟨base62Encode6Bytes_eq_iff a b ha hb, ?_⟩
  rw [← base62Encode6Bytes_eq_iff _ _ (tokenDigest_lt h conv i) (tokenDigest_lt h conv j),
    generateTokenId_eq, generateTokenId_eq]
  refine iff_congr Iff.rfl ⟨congrArg fromBeBytes, fromBeBytes_injective _ _ ?_⟩
  rw [tokenDigest_length, tokenDigest_length]

/-- The two largest values, and the first two ids of a conversation: the numbers are
    not `62 ^ 8` apart, and the encodings and the ids are as different as they are. -/
theorem tokenId_encoding_top :
    ((281474976710655 + 62 ^ 8 ≠ 281474976710654 ∧ 281474976710654 + 62 ^ 8 ≠ 281474976710655) ∧
      (base62Encode6Bytes 281474976710655 = base62Encode6Bytes 281474976710654 ↔
        281474976710655 = 281474976710654)) ∧
    (fromBeBytes (tokenDigest sampleHashes (lit "c") 0) + 62 ^ 8 ≠
        fromBeBytes (tokenDigest sampleHashes (lit "c") 1) ∧
      fromBeBytes (tokenDigest sampleHashes (lit "c") 1) + 62 ^ 8 ≠
        fromBeBytes (tokenDigest sampleHashes (lit "c") 0)) ∧
    (generateTokenId sampleHashes (lit "c") 0 = generateTokenId sampleHashes (lit "c") 1 ↔
      tokenDigest sampleHashes (lit "c") 0 = tokenDigest sampleHashes (lit "c") 1) := by
  have hboth := tokenId_encoding_iff 281474976710655 281474976710654 (by decide) (by decide)
    sampleHashes (lit "c") 0 1
  have hfar : fromBeBytes (tokenDigest sampleHashes (lit "c") 0) + 62 ^ 8 ≠
        fromBeBytes (tokenDigest sampleHashes (lit "c") 1) ∧
      fromBeBytes (tokenDigest sampleHashes (lit "c") 1) + 62 ^ 8 ≠
        fromBeBytes (tokenDigest sampleHashes (lit "c") 0) := by decide
  exact ⟨⟨by decide, hboth.1.mpr (by decide)⟩, hfar, hboth.2.mpr hfar⟩

/-- Eight digits are too few: the first number that does not fit is written like
    zero. -/
theorem tokenId_encoding_clash :
    base62Encode6Bytes 218340105584896 = lit "00000000" ∧
    ¬ ((∀ a < 2 ^ 48, ∀ b < 2 ^ 48, base62Encode6Bytes a = base62Encode6Bytes b → a = b) ∧
      ∀ (h : Hashes) (conv : Str) (i j : Nat), generateTokenId h conv i = generateTokenId h conv j →
        tokenDigest h conv i = tokenDigest h conv j) := by
  refine ⟨by decide, fun hall => ?_⟩
  have h := hall.1 218340105584896 (by decide) 0 (by decide) (by decide)
  exact absurd h (by decide)

end PrivacyClaw
