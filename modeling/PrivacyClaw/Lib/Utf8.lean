import Mathlib.Data.List.Basic
import Mathlib.Logic.Function.Defs

/-!
# Characters and Their Bytes

Offsets into a text, counted in characters and counted in bytes.

The bytes of a text are the encodings of its characters, one after the other.
A character below 128 is its own byte and every other one takes several, all
of them from 128 on, so a text is as long in bytes as in characters exactly
when every character is below 128. For the same reason bytes below 128 can
only come from characters that stand for themselves: where such bytes are
found in an encoded text, the characters are found too, at the character that
starts there.

## Main definitions

* `encode`, `decode`: The bytes of a text, and the text of some bytes.
* `Ascii`, `ofAscii`: A character that is its own byte, and the text of such
  bytes.

## Theorems

* `decode_encode`, `encode_injective`: Bytes are read back.
* `encodeChar_ascii`, `encodeChar_wide`: The two kinds of characters.
* `length_encode_eq_iff`: When bytes and characters are as many.
* `mem_encode_iff`: Bytes below 128 come from their characters.
* `head_encode`: A text does not start in the middle of a character.
* `prefix_of_encode_prefix`: Bytes below 128 at the front are characters.
* `index_of_encode_prefix`, `suffix_of_encode_suffix`: The same at any byte
  offset, and at the end.
-/

namespace Utf8

/-- The bytes of a text. -/
def encode (s : List Char) : List UInt8 := s.flatMap String.utf8EncodeChar

/-- The text of some bytes, if they are the bytes of one. -/
def decode (s : List UInt8) : Option (List Char) := s.toByteArray.utf8Decode?.map Array.toList

theorem decode_encode (s : List Char) : decode (encode s) = some s := by
  change (s.utf8Encode.utf8Decode?).map Array.toList = some s
  rw [List.utf8Decode?_utf8Encode]
  rfl

theorem encode_injective : Function.Injective encode := by
  intro s t h
  have hdec := congrArg decode h
  rwa [decode_encode, decode_encode, Option.some.injEq] at hdec

/-- What is read has the bytes. -/
theorem encode_of_decode {s : List UInt8} {cs : List Char} (h : decode s = some cs) :
    encode cs = s := by
  rcases Option.map_eq_some_iff.mp h with ⟨a, ha, rfl⟩
  have hsome : s.toByteArray.utf8Decode?.isSome = true := by rw [ha]; rfl
  have hget : s.toByteArray.utf8Decode?.get hsome = a := Option.get_of_eq_some hsome ha
  have henc := ByteArray.utf8Encode_get_utf8Decode? (b := s.toByteArray) (h := hsome)
  rw [hget] at henc
  have hbytes : (encode a.toList).toByteArray = s.toByteArray := henc
  exact List.toByteArray_inj.mp hbytes

/-- A character that is its own byte. -/
def Ascii (c : Char) : Prop := c.toNat < 128

instance (c : Char) : Decidable (Ascii c) := inferInstanceAs (Decidable (c.toNat < 128))

theorem encode_nil : encode [] = [] := rfl

theorem encode_cons (c : Char) (s : List Char) :
    encode (c :: s) = String.utf8EncodeChar c ++ encode s := List.flatMap_cons

theorem encode_append (s t : List Char) : encode (s ++ t) = encode s ++ encode t :=
  List.flatMap_append

/-- A character below 128 is its own byte. -/
theorem encodeChar_ascii (c : Char) (hc : Ascii c) :
    String.utf8EncodeChar c = [UInt8.ofNat c.toNat] := by
  have hle : c.val.toNat ≤ 0x7f := Nat.le_of_lt_succ hc
  simp only [String.utf8EncodeChar, if_pos hle]
  rfl

/-- Every other character is a leading byte and at least one byte that
    continues it. -/
theorem encodeChar_wide (c : Char) (hc : ¬ Ascii c) :
    ∃ b bs, String.utf8EncodeChar c = b :: bs ∧ 0xC0 ≤ b ∧ bs ≠ [] ∧ ∀ x ∈ bs, 0x80 ≤ x := by
  have hgt : ¬ c.val.toNat ≤ 0x7f := fun h => hc (Nat.lt_succ_of_le h)
  have hlead : ∀ n k : Nat, 0xC0 ≤ k → n + k < 256 → (0xC0 : UInt8) ≤ UInt8.ofNat (n + k) := by
    intro n k hk hlt
    rw [UInt8.le_iff_toNat_le, UInt8.toNat_ofNat', Nat.mod_eq_of_lt (by omega)]
    exact Nat.le_trans hk (Nat.le_add_left _ _)
  have hcont : ∀ n : Nat, (0x80 : UInt8) ≤ UInt8.ofNat (n % 0x40 + 0x80) := by
    intro n
    rw [UInt8.le_iff_toNat_le, UInt8.toNat_ofNat', Nat.mod_eq_of_lt (by omega)]
    exact Nat.le_add_left _ _
  -- Two, three or four bytes.
  simp only [String.utf8EncodeChar, if_neg hgt]
  split
  · refine ⟨_, _, rfl, hlead _ _ (by omega) (by omega), List.cons_ne_nil _ _, ?_⟩
    simp only [List.mem_cons, List.not_mem_nil, or_false, forall_eq]
    exact hcont _
  · split
    · refine ⟨_, _, rfl, hlead _ _ (by omega) (by omega), List.cons_ne_nil _ _, ?_⟩
      simp only [List.mem_cons, List.not_mem_nil, or_false, forall_eq_or_imp, forall_eq]
      exact ⟨hcont _, hcont _⟩
    · refine ⟨_, _, rfl, hlead _ _ (by omega) (by omega), List.cons_ne_nil _ _, ?_⟩
      simp only [List.mem_cons, List.not_mem_nil, or_false, forall_eq_or_imp, forall_eq]
      exact ⟨hcont _, hcont _, hcont _⟩

theorem length_le_encode (s : List Char) : s.length ≤ (encode s).length := by
  induction s with
  | nil => exact Nat.le_refl _
  | cons c s ih =>
      have hpos := List.length_pos_iff.mpr (String.utf8EncodeChar_ne_nil (c := c))
      rw [encode_cons, List.length_append, List.length_cons]
      omega

/-- The characters of bytes below 128. -/
def ofAscii (s : List UInt8) : List Char := s.map fun b => Char.ofNat b.toNat

theorem ofAscii_append (s t : List UInt8) : ofAscii (s ++ t) = ofAscii s ++ ofAscii t :=
  List.map_append

theorem toNat_ofAscii : ∀ b : UInt8, b < 0x80 → (Char.ofNat b.toNat).toNat = b.toNat := by
  have hall : ∀ n < 128, (Char.ofNat n).toNat = n := by decide
  exact fun b hb => hall b.toNat (UInt8.lt_iff_toNat_lt.mp hb)

theorem encode_ofAscii (s : List UInt8) (hs : ∀ b ∈ s, b < 0x80) : encode (ofAscii s) = s := by
  induction s with
  | nil => rfl
  | cons b s ih =>
      rw [List.forall_mem_cons] at hs
      have hb := toNat_ofAscii b hs.1
      have hlt : b.toNat < 128 := UInt8.lt_iff_toNat_lt.mp hs.1
      rw [ofAscii, List.map_cons, encode_cons, encodeChar_ascii _ (by rw [Ascii, hb]; exact hlt), hb,
        UInt8.ofNat_toNat, List.singleton_append]
      exact congrArg (b :: ·) (ih hs.2)

theorem length_ofAscii (s : List UInt8) : (ofAscii s).length = s.length := List.length_map ..

theorem ofAscii_injective {s t : List UInt8} (hs : ∀ b ∈ s, b < 0x80) (ht : ∀ b ∈ t, b < 0x80)
    (h : ofAscii s = ofAscii t) : s = t := by
  rw [← encode_ofAscii s hs, h, encode_ofAscii t ht]

/-- Bytes and characters are as many exactly when every character is its own
    byte. -/
theorem length_encode_eq_iff (s : List Char) :
    (encode s).length = s.length ↔ ∀ c ∈ s, Ascii c := by
  induction s with
  | nil => simp only [encode_nil, List.length_nil, List.not_mem_nil, false_imp_iff, implies_true]
  | cons c s ih =>
      have hle := length_le_encode s
      rw [encode_cons, List.length_append, List.length_cons, List.forall_mem_cons, ← ih]
      by_cases hc : Ascii c
      · rw [encodeChar_ascii c hc, List.length_singleton]
        simp only [hc, true_and]
        omega
      · rcases encodeChar_wide c hc with ⟨b, bs, he, _, hbs, _⟩
        have hpos := List.length_pos_iff.mpr hbs
        rw [he, List.length_cons]
        simp only [hc, false_and, iff_false]
        omega

/-- The byte of a character below 128 is its number. -/
theorem toNat_asciiByte (c : Char) (hc : Ascii c) : (UInt8.ofNat c.toNat).toNat = c.toNat := by
  unfold Ascii at hc
  rw [UInt8.toNat_ofNat', Nat.mod_eq_of_lt (by omega)]

/-- A byte below 128 is there exactly when its character is. -/
theorem mem_encode_iff (c : Char) (hc : Ascii c) (s : List Char) :
    UInt8.ofNat c.toNat ∈ encode s ↔ c ∈ s := by
  constructor
  · intro h
    rcases List.mem_flatMap.mp h with ⟨d, hd, hbyte⟩
    by_cases had : Ascii d
    · rw [encodeChar_ascii d had, List.mem_singleton] at hbyte
      have heq := congrArg UInt8.toNat hbyte
      rw [toNat_asciiByte c hc, toNat_asciiByte d had] at heq
      rwa [Char.toNat_inj.mp heq]
    · rcases encodeChar_wide d had with ⟨b, bs, he, hb, _, hbs⟩
      have hlt : UInt8.ofNat c.toNat < 0x80 := by
        rw [UInt8.lt_iff_toNat_lt, toNat_asciiByte c hc]
        exact hc
      rw [he, List.mem_cons] at hbyte
      rcases hbyte with hbyte | hbyte
      · rw [hbyte, UInt8.lt_iff_toNat_lt] at hlt
        exact absurd (UInt8.le_iff_toNat_le.mp hb) (Nat.not_le.mpr (Nat.lt_of_lt_of_le hlt (by decide)))
      · exact absurd hlt (UInt8.not_lt.mpr (hbs _ hbyte))
  · intro h
    refine List.mem_flatMap.mpr ⟨c, h, ?_⟩
    rw [encodeChar_ascii c hc]
    exact List.mem_singleton_self _

/-- The first byte of a text does not continue a character. -/
theorem head_encode (s : List Char) : ∀ b ∈ (encode s).head?, b < 0x80 ∨ 0xC0 ≤ b := by
  intro b hb
  cases s with
  | nil => exact absurd hb (by simp only [encode_nil, List.head?_nil, Option.mem_def,
      reduceCtorEq, not_false_eq_true])
  | cons c s =>
      rw [encode_cons] at hb
      by_cases hc : Ascii c
      · rw [encodeChar_ascii c hc, List.singleton_append, List.head?_cons, Option.mem_def,
          Option.some.injEq] at hb
        refine Or.inl ?_
        rw [← hb, UInt8.lt_iff_toNat_lt, toNat_asciiByte c hc]
        exact hc
      · rcases encodeChar_wide c hc with ⟨d, bs, he, hd, _, _⟩
        rw [he, List.cons_append, List.head?_cons, Option.mem_def, Option.some.injEq] at hb
        rw [← hb]
        exact Or.inr hd

/-- Bytes below 128 at the front of a text are its characters. -/
theorem prefix_of_encode_prefix : ∀ (p s : List Char), (∀ c ∈ p, Ascii c) →
    encode p <+: encode s → p <+: s := by
  intro p
  induction p with
  | nil => intro s _ _; exact List.nil_prefix
  | cons a p ih =>
      intro s hp hpre
      rw [List.forall_mem_cons] at hp
      rw [encode_cons, encodeChar_ascii a hp.1] at hpre
      cases s with
      | nil => exact absurd (List.prefix_nil.mp hpre) (List.cons_ne_nil _ _)
      | cons c s =>
          rw [encode_cons] at hpre
          by_cases hc : Ascii c
          · rw [encodeChar_ascii c hc, List.singleton_append, List.singleton_append,
              List.cons_prefix_cons] at hpre
            have hac := congrArg UInt8.toNat hpre.1
            rw [toNat_asciiByte a hp.1, toNat_asciiByte c hc] at hac
            rw [Char.toNat_inj.mp hac, List.cons_prefix_cons]
            exact ⟨rfl, ih s hp.2 hpre.2⟩
          · -- a leading byte is no character of its own
            rcases encodeChar_wide c hc with ⟨b, bs, he, hb, _, _⟩
            rw [he, List.singleton_append, List.cons_append, List.cons_prefix_cons] at hpre
            rw [← hpre.1, UInt8.le_iff_toNat_le, toNat_asciiByte a hp.1] at hb
            have ha : a.toNat < 128 := hp.1
            exact absurd hb (by change ¬ 192 ≤ a.toNat; omega)

/-- Bytes below 128 inside a text stand where the same characters stand. -/
theorem index_of_encode_prefix (p : List Char) (hp : ∀ c ∈ p, Ascii c) (hne : p ≠ []) :
    ∀ (s : List Char) (n : Nat), encode p <+: (encode s).drop n →
      ∃ k, k ≤ s.length ∧ (encode (s.take k)).length = n ∧ p <+: s.drop k := by
  intro s
  induction s with
  | nil =>
      intro n hpre
      rw [encode_nil, List.drop_nil] at hpre
      have hlen := length_le_encode p
      rw [List.prefix_nil.mp hpre, List.length_nil] at hlen
      exact absurd (List.length_eq_zero_iff.mp (Nat.le_zero.mp hlen)) hne
  | cons c s ih =>
      intro n hpre
      rw [encode_cons] at hpre
      by_cases hn : (String.utf8EncodeChar c).length ≤ n
      · -- the bytes start behind this character
        rw [List.drop_append, List.drop_eq_nil_of_le hn, List.nil_append] at hpre
        rcases ih _ hpre with ⟨k, hk, hlen, hocc⟩
        refine ⟨k + 1, Nat.succ_le_succ hk, ?_, hocc⟩
        rw [List.take_succ_cons, encode_cons, List.length_append, hlen]
        omega
      · cases n with
        | zero =>
            refine ⟨0, Nat.zero_le _, rfl, ?_⟩
            rw [List.drop_zero, ← encode_cons] at hpre
            exact prefix_of_encode_prefix p (c :: s) hp hpre
        | succ n =>
            -- inside a character there is no byte below 128
            by_cases hc : Ascii c
            · rw [encodeChar_ascii c hc, List.length_singleton] at hn
              omega
            · rcases encodeChar_wide c hc with ⟨b, bs, he, _, _, hbs⟩
              rw [he, List.length_cons] at hn
              rw [he, List.cons_append, List.drop_succ_cons,
                List.drop_append_of_le_length (by omega)] at hpre
              cases p with
              | nil => exact absurd rfl hne
              | cons a p =>
                  have ha : a.toNat < 128 := hp a List.mem_cons_self
                  rw [encode_cons, encodeChar_ascii a ha] at hpre
                  have hdrop : bs.drop n = bs.get ⟨n, by omega⟩ :: bs.drop (n + 1) :=
                    List.drop_eq_getElem_cons (by omega)
                  rw [hdrop, List.singleton_append, List.cons_append, List.cons_prefix_cons] at hpre
                  have hge := hbs _ (List.get_mem bs ⟨n, by omega⟩)
                  rw [← hpre.1, UInt8.le_iff_toNat_le, toNat_asciiByte a ha] at hge
                  exact absurd hge (by change ¬ 128 ≤ a.toNat; omega)

/-- Bytes below 128 at the end of a text are its characters. -/
theorem suffix_of_encode_suffix (p s : List Char) (hp : ∀ c ∈ p, Ascii c)
    (hsuf : encode p <:+ encode s) : p <:+ s := by
  by_cases hne : p = []
  · rw [hne]
    exact List.nil_suffix
  rcases hsuf with ⟨t, ht⟩
  have hdrop : (encode s).drop t.length = encode p := by rw [← ht, List.drop_left]
  have hpre : encode p <+: (encode s).drop t.length := hdrop ▸ List.prefix_rfl
  rcases index_of_encode_prefix p hp hne s t.length hpre with ⟨k, _, hlen, r, hr⟩
  -- no byte is left for what stands behind
  have hsplit : encode (s.take k) ++ (encode p ++ encode r) = t ++ encode p := by
    rw [← encode_append, hr, ← encode_append, List.take_append_drop, ht]
  have hlens := congrArg List.length hsplit
  simp only [List.length_append, hlen] at hlens
  have hrest := length_le_encode r
  have hnil : r = [] := List.length_eq_zero_iff.mp (by omega)
  rw [hnil, List.append_nil] at hr
  exact ⟨s.take k, by rw [hr, List.take_append_drop]⟩

end Utf8
