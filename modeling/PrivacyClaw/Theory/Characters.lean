import Mathlib.Data.List.Infix
import PrivacyClaw.Theory.Resync

/-!
# The Characters of a Text

A Rust string is valid UTF-8, and the proxy cuts strings where a search for an
ASCII text ends or where `is_char_boundary` says so. A valid text is a list of
characters, each with a byte that leads it and at most three that continue it.
So a cut that no continuing byte follows leaves two valid texts, two valid texts
make one, and a cut that does not hit a boundary is at most three bytes behind
one.

## Main definitions

* `IsChar`: The bytes of one character.

## Theorems

* `utf8Valid_iff`: A valid text is a list of characters.
* `utf8Valid_append`: A valid text in front of another.
* `utf8Valid_left`, `utf8Valid_right`: The two sides of a cut.
* `utf8Valid_cut`, `utf8Valid_find`: A cut at a boundary, and at what is found.
* `isCharBoundary_near`: A boundary is at most three bytes away.
-/

namespace PrivacyClaw

/-- The bytes of one character: one that leads it, and those that continue it. -/
def IsChar : Str → Bool
  | [a] => a < 0x80
  | [a, b] => 0xC2 ≤ a && a ≤ 0xDF && isCont b
  | [a, b, c] => 0xE0 ≤ a && a ≤ 0xEF && isCont b && isCont c && (a != 0xE0 || 0xA0 ≤ b) &&
      (a != 0xED || b ≤ 0x9F)
  | [a, b, c, d] => 0xF0 ≤ a && a ≤ 0xF4 && isCont b && isCont c && isCont d &&
      (a != 0xF0 || 0x90 ≤ b) && (a != 0xF4 || b ≤ 0x8F)
  | _ => false

/-- A byte that leads a character of several bytes. -/
theorem not_ascii_of_le {a k : UInt8} (hk : 0x80 ≤ k) (h : k ≤ a) : ¬ a < 0x80 := by
  rw [UInt8.le_iff_toNat_le] at hk h
  rw [UInt8.lt_iff_toNat_lt]
  omega

theorem not_between {a k : UInt8} (lo hi : UInt8) (hk : hi < k) (h : k ≤ a) :
    ¬ (lo ≤ a ∧ a ≤ hi) := by
  rw [UInt8.lt_iff_toNat_lt] at hk
  rw [UInt8.le_iff_toNat_le] at h
  rintro ⟨_, hle⟩
  rw [UInt8.le_iff_toNat_le] at hle
  omega

/-- One character more at the front. -/
theorem utf8Valid_char (w s : Str) (hw : IsChar w = true) :
    utf8Valid (w ++ s) = utf8Valid s := by
  -- each length is told from the shorter ones by the byte that leads
  match w, hw with
  | [a], h =>
      exact utf8Valid_ascii a s (of_decide_eq_true h)
  | [a, b], h =>
      simp only [IsChar, Bool.and_eq_true, decide_eq_true_eq] at h
      rw [List.cons_append, List.cons_append, utf8Valid.eq_def]
      simp only [if_neg (not_ascii_of_le (by decide) h.1.1), if_pos h.1, h.2, Bool.true_and,
        List.nil_append]
  | [a, b, c], h =>
      simp only [IsChar, Bool.and_eq_true, decide_eq_true_eq] at h
      rw [List.cons_append, List.cons_append, List.cons_append, utf8Valid.eq_def]
      simp only [if_neg (not_ascii_of_le (by decide) h.1.1.1.1.1),
        if_neg (not_between 0xC2 0xDF (by decide) h.1.1.1.1.1), if_pos h.1.1.1.1, h.1.1.1.2,
        h.1.1.2, h.1.2, h.2, Bool.true_and, List.nil_append]
  | [a, b, c, d], h =>
      simp only [IsChar, Bool.and_eq_true, decide_eq_true_eq] at h
      rw [List.cons_append, List.cons_append, List.cons_append, List.cons_append, utf8Valid.eq_def]
      have h1 := h.1.1.1.1.1.1
      simp only [if_neg (not_ascii_of_le (by decide) h1),
        if_neg (not_between 0xC2 0xDF (by decide) h1),
        if_neg (not_between 0xE0 0xEF (by decide) h1), h1, h.1.1.1.1.1.2, h.1.1.1.1.2,
        h.1.1.1.2, h.1.1.2, h.1.2, h.2, decide_true, Bool.true_and, List.nil_append]

/-- A valid text begins with a character. -/
theorem utf8Valid_cons (a : UInt8) (s : Str) (h : utf8Valid (a :: s) = true) :
    ∃ w t, a :: s = w ++ t ∧ IsChar w = true ∧ utf8Valid t = true := by
  rw [utf8Valid.eq_def] at h
  dsimp only at h
  -- the leading byte says how many bytes the character has
  by_cases ha : a < 0x80
  · rw [if_pos ha] at h
    exact ⟨[a], s, rfl, decide_eq_true ha, h⟩
  · rw [if_neg ha] at h
    cases s with
    | nil => exact absurd h Bool.noConfusion
    | cons b s =>
        dsimp only at h
        by_cases h2 : 0xC2 ≤ a ∧ a ≤ 0xDF
        · rw [if_pos h2, Bool.and_eq_true] at h
          refine ⟨[a, b], s, rfl, ?_, h.2⟩
          simp only [IsChar, Bool.and_eq_true, decide_eq_true_eq]
          exact ⟨h2, h.1⟩
        · rw [if_neg h2] at h
          cases s with
          | nil => exact absurd h Bool.noConfusion
          | cons c s =>
              dsimp only at h
              by_cases h3 : 0xE0 ≤ a ∧ a ≤ 0xEF
              · rw [if_pos h3, Bool.and_eq_true] at h
                refine ⟨[a, b, c], s, rfl, ?_, h.2⟩
                have h1 := h.1
                simp only [Bool.and_eq_true] at h1
                simp only [IsChar, Bool.and_eq_true, decide_eq_true_eq]
                exact ⟨⟨⟨⟨h3, h1.1.1.1⟩, h1.1.1.2⟩, h1.1.2⟩, h1.2⟩
              · rw [if_neg h3] at h
                cases s with
                | nil => exact absurd h Bool.noConfusion
                | cons d s =>
                    dsimp only at h
                    rw [Bool.and_eq_true] at h
                    refine ⟨[a, b, c, d], s, rfl, ?_, h.2⟩
                    rw [IsChar]
                    exact h.1

/-- A valid text is a list of characters. -/
theorem utf8Valid_iff (s : Str) :
    utf8Valid s = true ↔ ∃ ws : List Str, (∀ w ∈ ws, IsChar w = true) ∧ s = ws.flatten := by
  constructor
  · intro h
    induction hlen : s.length using Nat.strongRecOn generalizing s with
    | ind len ih =>
        cases s with
        | nil => exact ⟨[], fun w hw => absurd hw List.not_mem_nil, rfl⟩
        | cons a s =>
            rcases utf8Valid_cons a s h with ⟨w, t, hs, hw, ht⟩
            -- a character has a byte, so the rest is shorter
            have hpos : 0 < w.length := by
              cases w with
              | nil => exact absurd hw Bool.noConfusion
              | cons x w => exact Nat.succ_pos _
            rcases ih t.length (by rw [← hlen, hs, List.length_append]; omega) t ht rfl with
              ⟨ws, hws, rfl⟩
            exact ⟨w :: ws, List.forall_mem_cons.mpr ⟨hw, hws⟩, by rw [hs, List.flatten_cons]⟩
  · rintro ⟨ws, hws, rfl⟩
    induction ws with
    | nil => rfl
    | cons w ws ih =>
        rw [List.forall_mem_cons] at hws
        rw [List.flatten_cons, utf8Valid_char w _ hws.1]
        exact ih hws.2

/-- A valid text in front of another. -/
theorem utf8Valid_append (s t : Str) (hs : utf8Valid s = true) :
    utf8Valid (s ++ t) = utf8Valid t := by
  rcases (utf8Valid_iff s).mp hs with ⟨ws, hws, rfl⟩
  induction ws with
  | nil => rfl
  | cons w ws ih =>
      rw [List.forall_mem_cons] at hws
      rw [List.flatten_cons, List.append_assoc, utf8Valid_char w _ hws.1]
      exact ih hws.2 ((utf8Valid_iff _).mpr ⟨ws, hws.2, rfl⟩)

/-- Behind the first byte of a character every byte continues it. -/
theorem IsChar.tail {w : Str} (hw : IsChar w = true) :
    w ≠ [] ∧ w.length ≤ 4 ∧ ∀ b ∈ w.tail, isCont b = true := by
  match w, hw with
  | [a], _ =>
      exact ⟨List.cons_ne_nil _ _, Nat.le_of_ble_eq_true rfl,
        fun b hb => absurd hb List.not_mem_nil⟩
  | [a, b], h =>
      simp only [IsChar, Bool.and_eq_true, decide_eq_true_eq] at h
      refine ⟨List.cons_ne_nil _ _, by simp only [List.length_cons, List.length_nil]; omega, ?_⟩
      simp only [List.tail_cons, List.mem_cons, List.not_mem_nil, or_false, forall_eq]
      exact h.2
  | [a, b, c], h =>
      simp only [IsChar, Bool.and_eq_true, decide_eq_true_eq] at h
      refine ⟨List.cons_ne_nil _ _, by simp only [List.length_cons, List.length_nil]; omega, ?_⟩
      simp only [List.tail_cons, List.mem_cons, List.not_mem_nil, or_false, forall_eq_or_imp,
        forall_eq]
      exact ⟨h.1.1.1.2, h.1.1.2⟩
  | [a, b, c, d], h =>
      simp only [IsChar, Bool.and_eq_true, decide_eq_true_eq] at h
      refine ⟨List.cons_ne_nil _ _, by simp only [List.length_cons, List.length_nil]; omega, ?_⟩
      simp only [List.tail_cons, List.mem_cons, List.not_mem_nil, or_false, forall_eq_or_imp,
        forall_eq]
      exact ⟨h.1.1.1.1.2, h.1.1.1.2, h.1.1.2⟩

/-- The first byte of a character does not continue one. -/
theorem IsChar.head {a : UInt8} {w : Str} (hw : IsChar (a :: w) = true) : isCont a = false := by
  -- the bytes that lead several are all above those that continue
  have hcont : ∀ {k : UInt8}, 0xC0 ≤ k → k ≤ a → isCont a = false := by
    intro k hk h
    rw [UInt8.le_iff_toNat_le] at hk h
    rw [isCont, Bool.and_eq_false_iff, decide_eq_false_iff_not, decide_eq_false_iff_not]
    refine .inr fun hle => ?_
    rw [UInt8.le_iff_toNat_le] at hle
    have h1 : (0xC0 : UInt8).toNat = 192 := rfl
    have h2 : (0xBF : UInt8).toNat = 191 := rfl
    omega
  match w, hw with
  | [], h =>
      have hlt := of_decide_eq_true h
      rw [isCont, Bool.and_eq_false_iff, decide_eq_false_iff_not]
      exact .inl fun hle => not_ascii_of_le (by decide) hle hlt
  | [b], h =>
      simp only [IsChar, Bool.and_eq_true, decide_eq_true_eq] at h
      exact hcont (by decide) h.1.1
  | [b, c], h =>
      simp only [IsChar, Bool.and_eq_true, decide_eq_true_eq] at h
      exact hcont (by decide) h.1.1.1.1.1
  | [b, c, d], h =>
      simp only [IsChar, Bool.and_eq_true, decide_eq_true_eq] at h
      exact hcont (by decide) h.1.1.1.1.1.1

/-- In front of a byte that continues no character a valid text may be cut. -/
theorem utf8Valid_left (s t : Str) (h : utf8Valid (s ++ t) = true)
    (ht : ∀ b ∈ t.head?, isCont b = false) : utf8Valid s = true := by
  rcases (utf8Valid_iff _).mp h with ⟨ws, hws, hflat⟩
  induction ws generalizing s with
  | nil =>
      rw [List.flatten_nil] at hflat
      rw [(List.append_eq_nil_iff.mp hflat).1]
      rfl
  | cons w ws ih =>
      rw [List.forall_mem_cons] at hws
      rw [List.flatten_cons] at hflat
      rcases List.append_eq_append_iff.mp hflat with ⟨r, hw, hr⟩ | ⟨r, hs, hr⟩
      · -- the cut is inside the first character, so it is at one of its ends
        cases s with
        | nil => rfl
        | cons a s =>
            cases r with
            | nil =>
                rw [List.append_nil] at hw
                rw [← hw, ← List.append_nil w, utf8Valid_char w [] hws.1]
                rfl
            | cons b r =>
                -- within the character the next byte would continue it
                have hb := (IsChar.tail hws.1).2.2 b (by
                  rw [hw, List.cons_append, List.tail_cons]
                  exact List.mem_append_right _ List.mem_cons_self)
                rw [ht b (by rw [hr, List.cons_append, List.head?_cons, Option.mem_def])] at hb
                exact absurd hb Bool.noConfusion
      · -- the cut is behind the first character
        rw [hs, utf8Valid_char w _ hws.1]
        refine ih r ?_ hws.2 hr.symm
        rw [← hr]
        exact (utf8Valid_iff _).mpr ⟨ws, hws.2, rfl⟩

/-- Both sides of such a cut are valid. -/
theorem utf8Valid_right (s t : Str) (h : utf8Valid (s ++ t) = true)
    (ht : ∀ b ∈ t.head?, isCont b = false) : utf8Valid t = true := by
  rw [← utf8Valid_append s t (utf8Valid_left s t h ht)]
  exact h

theorem isCont_eq_false_iff (b : UInt8) : isCont b = false ↔ b < 0x80 ∨ 0xC0 ≤ b := by
  have h1 : (0xBF : UInt8).toNat = 191 := rfl
  have h2 : (0xC0 : UInt8).toNat = 192 := rfl
  rw [isCont, Bool.and_eq_false_iff, decide_eq_false_iff_not, decide_eq_false_iff_not,
    UInt8.le_iff_toNat_le, UInt8.lt_iff_toNat_lt, UInt8.le_iff_toNat_le, UInt8.le_iff_toNat_le]
  omega

/-- Where no character is continued there is a boundary. -/
theorem isCharBoundary_of_head (s : Str) (i : Nat) (hi : i ≤ s.length)
    (h : ∀ b ∈ (s.drop i).head?, isCont b = false) : isCharBoundary s i = true := by
  unfold isCharBoundary
  by_cases h0 : i = 0
  · rw [if_pos h0]
  · rw [if_neg h0]
    cases hb : s[i]? with
    -- the end of the text
    | none => exact beq_iff_eq.mpr (Nat.le_antisymm hi (List.getElem?_eq_none_iff.mp hb))
    | some b =>
        have hcont := h b (by rw [List.head?_drop, hb, Option.mem_def])
        dsimp only
        rw [Bool.or_eq_true, decide_eq_true_eq, decide_eq_true_eq]
        exact (isCont_eq_false_iff b).mp hcont

/-- Behind a boundary no character is continued. -/
theorem head_of_isCharBoundary (s : Str) (i : Nat) (h0 : i ≠ 0) (h : isCharBoundary s i = true) :
    ∀ b ∈ (s.drop i).head?, isCont b = false := by
  intro b hb
  rw [List.head?_drop, Option.mem_def] at hb
  rw [isCharBoundary, if_neg h0, hb] at h
  dsimp only at h
  rw [Bool.or_eq_true, decide_eq_true_eq, decide_eq_true_eq] at h
  exact (isCont_eq_false_iff b).mpr h

/-- A valid text cut at a boundary. -/
theorem utf8Valid_cut (s : Str) (i : Nat) (hs : utf8Valid s = true)
    (h : isCharBoundary s i = true) :
    utf8Valid (s.take i) = true ∧ utf8Valid (s.drop i) = true := by
  by_cases h0 : i = 0
  · rw [h0, List.take_zero, List.drop_zero]
    exact ⟨rfl, hs⟩
  · have hhead := head_of_isCharBoundary s i h0 h
    rw [← List.take_append_drop i s] at hs
    exact ⟨utf8Valid_left _ _ hs hhead, utf8Valid_right _ _ hs hhead⟩

theorem utf8Valid_of_ascii : ∀ (s : Str), (∀ b ∈ s, b < 0x80) → utf8Valid s = true := by
  intro s
  induction s with
  | nil => intro _; rfl
  | cons b s ih =>
      intro h
      rw [List.forall_mem_cons] at h
      rw [utf8Valid_ascii b s h.1]
      exact ih h.2

/-- A valid text does not begin inside a character. -/
theorem head_of_utf8Valid (s : Str) (hs : utf8Valid s = true) :
    ∀ b ∈ s.head?, isCont b = false := by
  intro b hb
  cases s with
  | nil => exact absurd hb (by simp only [List.head?_nil, Option.mem_def, reduceCtorEq,
      not_false_eq_true])
  | cons a s =>
      rcases utf8Valid_cons a s hs with ⟨w, t, hsplit, hw, _⟩
      rw [List.head?_cons, Option.mem_def, Option.some.injEq] at hb
      cases w with
      | nil => exact absurd hw Bool.noConfusion
      | cons c w =>
          rw [List.cons_append, List.cons.injEq] at hsplit
          rw [← hb, hsplit.1]
          exact IsChar.head hw

/-- A valid text may be cut in front of what is found in it and behind it. -/
theorem utf8Valid_find (pat s : Str) (i : Nat) (hpat : utf8Valid pat = true) (hne : pat ≠ [])
    (hs : utf8Valid s = true) (h : Search.find pat s = some i) :
    (utf8Valid (s.take i) = true ∧ utf8Valid (s.drop i) = true) ∧
      utf8Valid (s.take (i + pat.length)) = true ∧ utf8Valid (s.drop (i + pat.length)) = true := by
  rcases Search.find_split pat s i hne h with ⟨g, r, rfl, rfl, _⟩
  have hhead : ∀ b ∈ (pat ++ r).head?, isCont b = false := by
    intro b hb
    refine head_of_utf8Valid pat hpat b ?_
    rcases List.exists_cons_of_ne_nil hne with ⟨c, t, rfl⟩
    exact hb
  have hg := utf8Valid_left g _ hs hhead
  have hr := utf8Valid_right g _ hs hhead
  rw [List.take_left, List.drop_left, ← List.length_append, ← List.append_assoc, List.take_left,
    List.drop_left, utf8Valid_append g pat hg]
  rw [utf8Valid_append pat r hpat] at hr
  refine ⟨⟨hg, ?_⟩, hpat, hr⟩
  rw [utf8Valid_append pat r hpat]
  exact hr

/-- Every offset is at most three bytes behind a boundary. -/
theorem isCharBoundary_near (s : Str) (hs : utf8Valid s = true) (i : Nat) (hi : i ≤ s.length) :
    ∃ j, j ≤ i ∧ i ≤ j + 3 ∧ isCharBoundary s j = true := by
  rcases (utf8Valid_iff s).mp hs with ⟨ws, hws, rfl⟩
  clear hs
  induction ws generalizing i with
  | nil => exact ⟨0, Nat.zero_le _, Nat.le_trans hi (Nat.zero_le _), rfl⟩
  | cons w ws ih =>
      rw [List.forall_mem_cons] at hws
      rw [List.flatten_cons, List.length_append] at hi
      rw [List.flatten_cons]
      have hlen := (IsChar.tail hws.1).2.1
      have hrest : utf8Valid ws.flatten = true := (utf8Valid_iff _).mpr ⟨ws, hws.2, rfl⟩
      by_cases hin : i < w.length
      · -- the offset is in the first character, which has at most four bytes
        exact ⟨0, Nat.zero_le _, by omega, isCharBoundary_zero _⟩
      · -- the offset is in the rest, whose first byte is behind a boundary too
        rcases ih (i - w.length) hws.2 (by omega) with ⟨j, hji, hij, hj⟩
        refine ⟨w.length + j, by omega, by omega, isCharBoundary_of_head _ _ ?_ ?_⟩
        · rw [List.length_append]
          omega
        · rw [List.drop_append, List.drop_eq_nil_of_le (Nat.le_add_right _ _), List.nil_append,
            Nat.add_sub_cancel_left]
          by_cases h0 : j = 0
          · rw [h0, List.drop_zero]
            exact head_of_utf8Valid _ hrest
          · exact head_of_isCharBoundary _ j h0 hj

end PrivacyClaw
