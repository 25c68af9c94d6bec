import PrivacyClaw.Core.Patterns
import PrivacyClaw.Theory.Draws

/-!
# Printed Numbers

Numbers that are printed where a pattern asks for digits.

The generators print numbers at a fixed width or as they are, with dashes and
dots between them. A number of a fixed width is what a class of digits repeated
so often takes, and it is not one of the numbers that must not stand there
(`ssnText_first`). Without a fixed width the pattern of an octet has several ways
to take the same digits; between dots there is one way to split them, so that
the whole is taken whichever way is tried first (`ipV4Text_first`).

## Main definitions

* `ssnText`: The form of a social security number.
* `dotted`: Four texts with dots between them.

## Theorems

* `digit_ofAscii`, `first_digits`: Printed digits, and a number of fixed width.
* `not_word_ahead`, `not_area_ahead`: Numbers that do not stand there.
* `octet_matches`, `octet_digit`: What an octet is.
* `ipV4_parts`, `ipV4_matches`, `digits_dot_inj`: Addresses by their octets.
* `ssnText_first`, `ipV4Text_first`: Both forms are preferred matches.
-/

namespace PrivacyClaw

open Regex Pattern Utf8

variable (U : UnicodeClasses)

/-- The digits of a printed number are digits of the patterns. -/
theorem digit_ofAscii (g : Str) (hg : ∀ b ∈ g, 48 ≤ b ∧ b ≤ 57) :
    ∀ c ∈ ofAscii g, U.digit c = true := by
  have hall : ∀ n < 10, (Char.ofNat (48 + n)).isDigit = true ∧ Ascii (Char.ofNat (48 + n)) := by
    decide
  intro c hc
  rcases List.mem_map.mp hc with ⟨b, hb, rfl⟩
  have hle := hg b hb
  rw [UInt8.le_iff_toNat_le, UInt8.le_iff_toNat_le] at hle
  have h48 : (48 : UInt8).toNat = 48 := rfl
  have h57 : (57 : UInt8).toNat = 57 := rfl
  have h := hall (b.toNat - 48) (by omega)
  rw [show 48 + (b.toNat - 48) = b.toNat by omega] at h
  rw [U.digit_ascii _ h.2, h.1]

/-- A number printed at a fixed width, where so many digits are asked for. -/
theorem first_digits (k n : Nat) (hk : 0 < k) (hn : n < 10 ^ k) (b a : List Char) :
    First (exactly k U.digit) b (ofAscii (zeroPad k (decimal n))) a := by
  have hlen : (ofAscii (zeroPad k (decimal n))).length = k := by
    rw [length_ofAscii, length_zeroPad k _ (length_decimal_le k n hk hn)]
  exact First.rep_cls_exact (digit_ofAscii U _ (zeroPad_digit k n)) hlen

/-- The same at the end of a text, where no digit may follow. -/
theorem first_digits_end (k n : Nat) (hk : 0 < k) (hn : n < 10 ^ k) (b : List Char) :
    First (concat [exactly k U.digit, notAhead (cls U.digit)]) b
      (ofAscii (zeroPad k (decimal n))) [] := by
  have hend := First.concat_cons (first_digits U k n hk hn b ([] ++ []))
    (First.concat_single (First.notAhead (ends_nil_of_least (cls U.digit) (Nat.lt_succ_self 0) _)))
  rwa [List.append_nil] at hend

/-- The text of a printed number does not begin with other digits of its width. -/
theorem not_word_ahead (k n : Nat) (hk : 0 < k) (hn : n < 10 ^ k) (b rest : List Char)
    (hne : n ≠ 0) : ends (word (String.ofList (List.replicate k '0')))
      (b, ofAscii (zeroPad k (decimal n)) ++ rest) = [] := by
  refine ends_nil_of_not_matches fun u v heq hm => hne ?_
  rw [word, matches_text, String.toList_ofList] at hm
  rw [hm] at heq
  have hlen := length_zeroPad k _ (length_decimal_le k n hk hn)
  -- so the printed number would be all zeros
  have hfront := (List.append_inj heq (by rw [length_ofAscii, hlen, List.length_replicate])).1
  refine zeroPad_zeros k n (ofAscii_injective (fun b hb => digit_ascii b (zeroPad_digit k n b hb))
    (fun b hb => ?_) ?_)
  · rw [(List.mem_replicate.mp hb).2]
    decide
  · rw [hfront, ofAscii, List.map_replicate]
    rfl

/-- Three digits do not begin with another number, or with another first digit. -/
theorem not_area_ahead (area : Nat) (hlo : 100 ≤ area) (hhi : area ≤ 665) (b rest : List Char) :
    ends (choice [word "000", word "666", concat [word "9", cls U.digit, cls U.digit]])
      (b, ofAscii (zeroPad 3 (decimal area)) ++ rest) = [] := by
  have hdigit : ∀ d < 10, ∀ e < 10, Char.ofNat (UInt8.ofNat (48 + d)).toNat =
      Char.ofNat (UInt8.ofNat (48 + e)).toNat → d = e := by decide
  have hthree : zeroPad 3 (decimal area) = [UInt8.ofNat (48 + area / 100),
      UInt8.ofNat (48 + area / 10 % 10), UInt8.ofNat (48 + area % 10)] := by
    rw [decimal_three area hlo (by omega)]
    rfl
  refine ends_nil_of_not_matches fun u v heq hm => ?_
  rw [hthree] at heq
  simp only [ofAscii, List.map_cons, List.map_nil, List.cons_append, List.nil_append] at heq
  simp only [choice, word, matches_alt, matches_concat_cons, matches_text] at hm
  -- the first digit is 1 to 6, and 666 is above the bound
  rcases hm with rfl | rfl | ⟨_, t, rfl, rfl, _⟩
  · have h1 := hdigit _ (by omega) 0 (by decide) (List.cons.inj heq).1
    omega
  · rcases List.cons.inj heq with ⟨h1, heq⟩
    rcases List.cons.inj heq with ⟨h2, heq⟩
    have h1 := hdigit _ (by omega) 6 (by decide) h1
    have h2 := hdigit _ (by omega) 6 (by decide) h2
    have h3 := hdigit _ (by omega) 6 (by decide) (List.cons.inj heq).1
    omega
  · have h1 := hdigit _ (by omega) 9 (by decide) (List.cons.inj heq).1
    omega

/-- The form of a social security number. -/
def ssnText (area group serial : Nat) : Str :=
  zeroPad 3 (decimal area) ++ lit "-" ++ zeroPad 2 (decimal group) ++ lit "-" ++
    zeroPad 4 (decimal serial)

theorem ssnText_first (area group serial : Nat) (harea : 100 ≤ area ∧ area ≤ 665)
    (hgroup : 1 ≤ group ∧ group ≤ 99) (hserial : 1 ≤ serial ∧ serial ≤ 9999) :
    First (ssn U) [] (ofAscii (ssnText area group serial)) [] := by
  have hdash : ofAscii (lit "-") = ['-'] := by decide
  have hserial' : ∀ b, First (concat [notAhead (word "0000"), exactly 4 U.digit,
      notAhead (cls U.digit)]) b (ofAscii (zeroPad 4 (decimal serial))) [] := by
    intro b
    refine First.concat_look (First.notAhead ?_) ?_
    · exact not_word_ahead 4 serial (by decide) (by omega) _ _ (by omega)
    · exact first_digits_end U 4 serial (by decide) (by omega) b
  have hgroup' : ∀ b, First (concat [notAhead (word "00"), exactly 2 U.digit, cls spaceOrDash,
      notAhead (word "0000"), exactly 4 U.digit, notAhead (cls U.digit)]) b
      (ofAscii (zeroPad 2 (decimal group)) ++ (['-'] ++ ofAscii (zeroPad 4 (decimal serial)))) [] := by
    intro b
    refine First.concat_look (First.notAhead ?_) (First.concat_cons ?_
      (First.concat_cons (First.cls rfl) (hserial' _)))
    · rw [List.append_nil]
      exact not_word_ahead 2 group (by decide) (by omega) _ _ (by omega)
    · exact first_digits U 2 group (by decide) (by omega) _ _
  have hall : First (ssn U) [] (ofAscii (zeroPad 3 (decimal area)) ++ (['-'] ++
      (ofAscii (zeroPad 2 (decimal group)) ++ (['-'] ++
        ofAscii (zeroPad 4 (decimal serial)))))) [] := by
    refine First.concat_look (First.notBehind rfl) (First.concat_look (First.notAhead ?_)
      (First.concat_cons ?_ (First.concat_cons (First.cls rfl) (hgroup' _))))
    · rw [List.append_nil]
      exact not_area_ahead U area harea.1 harea.2 _ _
    · exact first_digits U 3 area (by decide) (by omega) _ _
  rw [ssnText, ofAscii_append, ofAscii_append, ofAscii_append, ofAscii_append, hdash]
  simp only [List.append_assoc]
  exact hall

/-- A number up to 255 is an octet. -/
theorem octet_matches (n : Nat) (hn : n ≤ 255) (b a : List Char) :
    Matches (octet U) b (ofAscii (decimal n)) a := by
  have hdigit : ∀ d < 10, U.digit (Char.ofNat (UInt8.ofNat (48 + d)).toNat) = true := fun d hd =>
    digit_ofAscii U [UInt8.ofNat (48 + d)] (fun b hb => decimal_digit d b (by
      rwa [decimal_single d hd])) _ List.mem_cons_self
  -- one or two digits, with a one in front or not
  have hsmall : ∀ p x q, (p = [] ∨ ∃ y, p = [y] ∧ oneOf "01" y = true) → U.digit x = true →
      (q = [] ∨ ∃ z, q = [z] ∧ U.digit z = true) → Matches (octet U) b (p ++ ([x] ++ q)) a := by
    intro p x q hp hx hq
    refine (matches_alt ..).mpr (Or.inr ((matches_alt ..).mpr (Or.inr ?_)))
    exact Matches.concat_cons ((matches_opt_cls ..).mpr hp) (Matches.concat_cons
      ((matches_cls ..).mpr ⟨x, rfl, hx⟩) (Matches.concat_single ((matches_opt_cls ..).mpr hq)))
  by_cases h1 : n < 10
  · rw [decimal_single n h1]
    exact hsmall [] _ [] (Or.inl rfl) (hdigit n h1) (Or.inl rfl)
  by_cases h2 : n < 100
  · rw [decimal_two n (by omega) h2]
    exact hsmall [] _ [_] (Or.inl rfl) (hdigit _ (by omega))
      (Or.inr ⟨_, rfl, hdigit _ (Nat.mod_lt _ (by decide))⟩)
  rw [decimal_three n (by omega) (by omega)]
  by_cases h3 : n < 200
  · rw [show n / 100 = 1 by omega]
    exact hsmall [_] _ [_] (Or.inr ⟨_, rfl, by decide⟩) (hdigit _ (Nat.mod_lt _ (by decide)))
      (Or.inr ⟨_, rfl, hdigit _ (Nat.mod_lt _ (by decide))⟩)
  rw [show n / 100 = 2 by omega]
  by_cases h4 : n < 250
  · have hclass : ∀ d < 5, oneOf "01234" (Char.ofNat (UInt8.ofNat (48 + d)).toNat) = true := by
      decide
    refine (matches_alt ..).mpr (Or.inr ((matches_alt ..).mpr (Or.inl ?_)))
    exact Matches.concat_cons (u := ['2']) ((matches_text ..).mpr rfl) (Matches.concat_cons (u := [_])
      ((matches_cls ..).mpr ⟨_, rfl, hclass _ (by omega)⟩) (Matches.concat_single
        ((matches_cls ..).mpr ⟨_, rfl, hdigit _ (Nat.mod_lt _ (by decide))⟩)))
  · have hclass : ∀ d < 6, oneOf "012345" (Char.ofNat (UInt8.ofNat (48 + d)).toNat) = true := by
      decide
    rw [show n / 10 % 10 = 5 by omega]
    refine (matches_alt ..).mpr (Or.inl ?_)
    exact Matches.concat_cons (u := ['2', '5']) ((matches_text ..).mpr rfl) (Matches.concat_single
      ((matches_cls ..).mpr ⟨_, rfl, hclass _ (by omega)⟩))

/-- An octet is made of digits. -/
theorem octet_digit {b w a : List Char} (h : Matches (octet U) b w a) :
    ∀ x ∈ w, U.digit x = true := by
  have hascii : ∀ x ∈ "0123456789".toList, U.digit x = true := fun x hx => by
    have hx' := List.forall_iff_forall_mem.mp (by decide :
      "0123456789".toList.Forall fun c => Ascii c ∧ c.isDigit = true) x hx
    rw [U.digit_ascii x hx'.1, hx'.2]
  have hsub : ∀ (t : String) x, oneOf t x = true → t.toList ⊆ "0123456789".toList →
      U.digit x = true := fun t x hx ht => hascii x (ht (List.contains_iff_mem.mp hx))
  have hopt : ∀ {c b w a}, Matches (opt (cls c)) b w a → (∀ x, c x = true → U.digit x = true) →
      ∀ x ∈ w, U.digit x = true := by
    intro c b w a hm hc x hx
    rcases (matches_opt_cls ..).mp hm with rfl | ⟨y, rfl, hy⟩
    · exact absurd hx List.not_mem_nil
    · rw [List.mem_singleton.mp hx]
      exact hc y hy
  simp only [octet, choice, word, matches_alt, matches_concat_cons, matches_concat_nil,
    matches_text, matches_cls] at h
  rcases h with ⟨_, _, rfl, rfl, _, _, rfl, ⟨x, rfl, hx⟩, rfl⟩ |
    ⟨_, _, rfl, rfl, _, _, rfl, ⟨x, rfl, hx⟩, _, _, rfl, ⟨y, rfl, hy⟩, rfl⟩ |
    ⟨p, _, rfl, hp, _, _, rfl, ⟨x, rfl, hx⟩, q, _, rfl, hq, rfl⟩
  · simp only [List.append_nil, List.forall_mem_append, List.forall_mem_singleton]
    exact ⟨fun c hc => hascii c ((by decide : "25".toList ⊆ "0123456789".toList) hc),
      hsub _ x hx (by decide)⟩
  · simp only [List.append_nil, List.forall_mem_append, List.forall_mem_singleton]
    exact ⟨fun c hc => hascii c ((by decide : "2".toList ⊆ "0123456789".toList) hc),
      hsub _ x hx (by decide), hy⟩
  · simp only [List.append_nil, List.forall_mem_append, List.forall_mem_singleton]
    exact ⟨hopt hp fun c hc => hsub _ c hc (by decide), hx, hopt hq fun c hc => hc⟩

/-- Four texts of digits with dots between them. -/
def dotted (o₁ o₂ o₃ o₄ : List Char) : List Char :=
  o₁ ++ '.' :: (o₂ ++ '.' :: (o₃ ++ '.' :: o₄))

/-- The parts of what the pattern matches. -/
theorem ipV4_parts {b w a : List Char} : Matches (ipV4 U) b w a →
    ∃ o₁ o₂ o₃ o₄, w = dotted o₁ o₂ o₃ o₄ ∧ a.head?.any U.digit = false ∧
      ∀ o ∈ [o₁, o₂, o₃, o₄], ∀ x ∈ o, U.digit x = true := by
  intro h
  have hdot : ".".toList = ['.'] := rfl
  simp only [ipV4, matches_concat_cons, matches_concat_nil, matches_notBehind, matches_notAhead,
    matches_rep_exact, List.replicate, word, matches_text] at h
  rcases h with ⟨_, _, rfl, ⟨rfl, _⟩, _, _, rfl, ⟨_, _, rfl, ⟨o₁, _, rfl, h1, _, _, rfl, rfl, rfl⟩,
    _, _, rfl, ⟨o₂, _, rfl, h2, _, _, rfl, rfl, rfl⟩, _, _, rfl,
    ⟨o₃, _, rfl, h3, _, _, rfl, rfl, rfl⟩, rfl⟩, o₄, _, rfl, h4, _, _, rfl, ⟨rfl, hend⟩, rfl⟩
  refine ⟨o₁, o₂, o₃, o₄, ?_, ?_, ?_⟩
  · simp only [dotted, hdot, List.nil_append, List.append_nil, List.append_assoc, List.cons_append]
  · cases a with
    | nil => rfl
    | cons x a =>
        by_cases hx : U.digit x = true
        · simp only [ends, List.nil_append, hx, if_true, reduceCtorEq] at hend
        · simpa only [List.head?_cons, Option.any_some, Bool.not_eq_true] using hx
  · simp only [List.forall_mem_cons, List.not_mem_nil, false_imp_iff, implies_true, and_true]
    exact ⟨octet_digit U h1, octet_digit U h2, octet_digit U h3, octet_digit U h4⟩

theorem ipV4_matches {o₁ o₂ o₃ o₄ : List Char}
    (h : ∀ o ∈ [o₁, o₂, o₃, o₄], ∀ b a, Matches (octet U) b o a) :
    Matches (ipV4 U) [] (dotted o₁ o₂ o₃ o₄) [] := by
  simp only [List.forall_mem_cons, List.not_mem_nil, false_imp_iff, implies_true, and_true] at h
  have hpart : ∀ o b a, (∀ b a, Matches (octet U) b o a) →
      Matches (concat [octet U, word "."]) b (o ++ ['.']) a := fun o b a ho =>
    Matches.concat_cons (ho _ _) (Matches.concat_single ((matches_text ..).mpr rfl))
  have hall : Matches (ipV4 U) [] ([] ++ (((o₁ ++ ['.']) ++ ((o₂ ++ ['.']) ++ (o₃ ++ ['.']))) ++
      (o₄ ++ []))) [] := by
    refine Matches.concat_cons ((matches_notBehind ..).mpr ⟨rfl, rfl⟩) (Matches.concat_cons
      ((matches_rep_exact ..).mpr ?_) (Matches.concat_cons (h.2.2.2 _ _) (Matches.concat_single
        ((matches_notAhead ..).mpr ⟨rfl, rfl⟩))))
    exact Matches.concat_cons (hpart _ _ _ h.1) (Matches.concat_cons (hpart _ _ _ h.2.1)
      (Matches.concat_single (hpart _ _ _ h.2.2.1)))
  simpa only [dotted, List.nil_append, List.append_nil, List.append_assoc,
    List.cons_append] using hall

/-- Digits in front of a dot are split off in one way only. -/
theorem digits_dot_inj {x y u v : List Char} (hx : ∀ c ∈ x, U.digit c = true)
    (hy : ∀ c ∈ y, U.digit c = true) (h : x ++ '.' :: u = y ++ '.' :: v) : x = y ∧ u = v := by
  have hdot : ¬ U.digit '.' = true := by
    rw [U.digit_ascii '.' (by decide)]
    decide
  -- a dot is no digit, so the digits in front of it are a maximal run
  have hfront := congrArg (List.takeWhile U.digit) h
  rw [List.takeWhile_append_of_pos hx, List.takeWhile_append_of_pos hy,
    List.takeWhile_cons_of_neg hdot, List.takeWhile_cons_of_neg hdot, List.append_nil,
    List.append_nil] at hfront
  rw [hfront, List.append_cancel_left_eq, List.cons.injEq] at h
  exact ⟨hfront, h.2⟩

theorem ipV4Text_first {o₁ o₂ o₃ o₄ : List Char}
    (h : ∀ o ∈ [o₁, o₂, o₃, o₄], ∀ b a, Matches (octet U) b o a) :
    First (ipV4 U) [] (dotted o₁ o₂ o₃ o₄) [] := by
  refine first_of_unique (ipV4_matches U h) fun w v hv hm => ?_
  rcases ipV4_parts U hm with ⟨u₁, u₂, u₃, u₄, rfl, hend, hu⟩
  simp only [List.forall_mem_cons, List.not_mem_nil, false_imp_iff, implies_true, and_true] at h hu
  have ho : ∀ {o}, (∀ b a, Matches (octet U) b o a) → ∀ x ∈ o, U.digit x = true := fun ho =>
    octet_digit U (ho [] [])
  simp only [dotted, List.append_assoc, List.cons_append, List.append_nil] at hv
  rcases digits_dot_inj U hu.1 (ho h.1) hv with ⟨h1, hv₂⟩
  rcases digits_dot_inj U hu.2.1 (ho h.2.1) hv₂ with ⟨h2, hv₃⟩
  rcases digits_dot_inj U hu.2.2.1 (ho h.2.2.1) hv₃ with ⟨h3, hv₄⟩
  rw [h1, h2, h3]
  -- behind the last one no digit is left
  cases v with
  | nil =>
      rw [List.append_nil] at hv₄
      rw [hv₄]
  | cons x v =>
      have hx := ho h.2.2.2 x (by rw [← hv₄]; exact List.mem_append_right _ List.mem_cons_self)
      rw [List.head?_cons, Option.any_some, hx] at hend
      exact absurd hend (by decide)

end PrivacyClaw
