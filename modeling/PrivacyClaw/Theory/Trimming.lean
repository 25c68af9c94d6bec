import PrivacyClaw.Theory.Characters

/-!
# Trimmed Texts and Lines

`str::trim` takes whole characters off both ends and `str::lines` cuts at line
feeds, so what they give of a valid text is valid. What has been trimmed has no
white space at its ends, and trimming leaves it alone; a blank in front of it is
all that is taken off again.

## Main definitions

* `Trimmed`: No white space at either end.

## Theorems

* `stripAll_spec`: What is taken off the front.
* `trim_spec`: What is taken off both ends.
* `trim_eq_self`, `trim_space`: A trimmed text, and one behind a blank.
* `trimmed_braces`, `trim_prefix_of_brace`: Texts that start with a brace.
* `trimmed_of_forall`: A text without a byte of white space.
* `utf8Valid_trim`, `utf8Valid_lines`: Valid pieces of a valid text.
* `lines_single`, `linesFrom_part`: Lines hold no line feed and are parts of the
  text.
-/

namespace PrivacyClaw

/-- No white space at either end. -/
structure Trimmed (s : Str) : Prop where
  front : ∀ w ∈ whitespace, ¬ w <+: s
  back : ∀ w ∈ whitespace, ¬ w <:+ s

theorem stripAll_eq_self (pieces : List Str) (fuel : Nat) (s : Str)
    (h : ∀ w ∈ pieces, ¬ w <+: s) : stripAll pieces fuel s = s := by
  cases fuel with
  | zero => rfl
  | succ fuel =>
      rw [stripAll, List.find?_eq_none.mpr]
      intro w hw
      rw [List.isPrefixOf_iff_prefix]
      exact h w hw

/-- Pieces are taken off the front until there is none. -/
theorem stripAll_spec (pieces : List Str) (hne : ∀ w ∈ pieces, w ≠ []) :
    ∀ (fuel : Nat) (s : Str), s.length ≤ fuel →
      (∃ ws : List Str, (∀ w ∈ ws, w ∈ pieces) ∧ s = ws.flatten ++ stripAll pieces fuel s) ∧
        ∀ w ∈ pieces, ¬ w <+: stripAll pieces fuel s := by
  intro fuel
  induction fuel with
  | zero =>
      intro s hs
      have hnil := List.length_eq_zero_iff.mp (Nat.le_zero.mp hs)
      rw [hnil]
      exact ⟨⟨[], fun w hw => absurd hw List.not_mem_nil, rfl⟩,
        fun w hw hp => hne w hw (List.prefix_nil.mp hp)⟩
  | succ fuel ih =>
      intro s hs
      rw [stripAll]
      cases hf : pieces.find? fun w => w.isPrefixOf s with
      | none =>
          rw [List.find?_eq_none] at hf
          refine ⟨⟨[], fun w hw => absurd hw List.not_mem_nil, rfl⟩, fun w hw hp => hf w hw ?_⟩
          exact List.isPrefixOf_iff_prefix.mpr hp
      | some u =>
          -- the piece that is found is taken off, and the rest is shorter
          have hu := List.mem_of_find?_eq_some hf
          have hp : u.isPrefixOf s = true := List.find?_some (p := fun w : Str => w.isPrefixOf s) hf
          rcases List.isPrefixOf_iff_prefix.mp hp with ⟨t, ht⟩
          have hpos := List.length_pos_of_ne_nil (hne u hu)
          have hdrop : s.drop u.length = t := by rw [← ht, List.drop_left]
          dsimp only
          rw [hdrop]
          rcases ih t (by rw [← ht, List.length_append] at hs; omega) with ⟨⟨ws, hws, hsplit⟩, hno⟩
          refine ⟨⟨u :: ws, List.forall_mem_cons.mpr ⟨hu, hws⟩, ?_⟩, hno⟩
          rw [List.flatten_cons, List.append_assoc, ← hsplit, ht]

theorem whitespace_ne_nil : ∀ w ∈ whitespace, w ≠ [] := by decide

/-- White space is taken off both ends until there is none. -/
theorem trim_spec (s : Str) : ∃ ws us : List Str, (∀ w ∈ ws, w ∈ whitespace) ∧
    (∀ u ∈ us, u ∈ whitespace) ∧ s = ws.flatten ++ (trim s ++ us.flatten) ∧
      Trimmed (trim s) := by
  have hrevne : ∀ w ∈ whitespace.map List.reverse, w ≠ [] := by decide
  have hmem : ∀ w, w.reverse ∈ whitespace → w ∈ whitespace.map List.reverse := fun w hw =>
    List.mem_map.mpr ⟨w.reverse, hw, List.reverse_reverse w⟩
  rcases stripAll_spec whitespace whitespace_ne_nil s.length s (Nat.le_refl _) with
    ⟨⟨ws, hws, hfront⟩, hnofront⟩
  rw [trim]
  generalize stripAll whitespace s.length s = f at hfront hnofront ⊢
  rcases stripAll_spec (whitespace.map List.reverse) hrevne f.length f.reverse
    (Nat.le_of_eq List.length_reverse) with ⟨⟨us, hus, hback⟩, hnoback⟩
  generalize stripAll (whitespace.map List.reverse) f.length f.reverse = r at hback hnoback ⊢
  -- what is taken off the reversed text stands behind the rest, in reverse
  have hf : f = r.reverse ++ us.flatten.reverse := by
    rw [← List.reverse_append, ← hback, List.reverse_reverse]
  refine ⟨ws, (us.map List.reverse).reverse, hws, fun u hu => ?_, ?_, fun w hw hp => ?_,
    fun w hw hp => ?_⟩
  · rcases List.mem_map.mp (List.mem_reverse.mp hu) with ⟨x, hx, rfl⟩
    rcases List.mem_map.mp (hus x hx) with ⟨y, hy, rfl⟩
    rw [List.reverse_reverse]
    exact hy
  · rw [← List.reverse_flatten, ← hf]
    exact hfront
  · refine hnofront w hw (hp.trans ?_)
    rw [hf]
    exact List.prefix_append _ _
  · refine hnoback w.reverse (hmem _ (by rw [List.reverse_reverse]; exact hw)) ?_
    rw [← List.reverse_suffix, List.reverse_reverse]
    exact hp

theorem trim_within (s : Str) : trim s <:+: s := by
  rcases trim_spec s with ⟨ws, us, _, _, hs, _⟩
  exact ⟨ws.flatten, us.flatten, by rw [List.append_assoc]; exact hs.symm⟩

theorem trimmed_trim (s : Str) : Trimmed (trim s) := by
  rcases trim_spec s with ⟨_, _, _, _, _, h⟩
  exact h

theorem stripAll_back (s : Str) (h : Trimmed s) (fuel : Nat) :
    stripAll (whitespace.map List.reverse) fuel s.reverse = s.reverse := by
  refine stripAll_eq_self _ _ _ fun w hw hp => ?_
  rcases List.mem_map.mp hw with ⟨u, hu, rfl⟩
  exact h.back u hu (List.reverse_prefix.mp hp)

theorem trim_eq_self (s : Str) (h : Trimmed s) : trim s = s := by
  rw [trim, stripAll_eq_self _ _ _ h.front, stripAll_back s h, List.reverse_reverse]

/-- No piece begins with `c`. -/
theorem not_prefix_of_head (pieces : List Str) (c : UInt8) (r : Str)
    (hpieces : ∀ w ∈ pieces, w.head?.any (· != c) = true) : ∀ w ∈ pieces, ¬ w <+: c :: r := by
  intro w hw hp
  have hhead := hpieces w hw
  cases w with
  | nil => exact absurd hhead Bool.false_ne_true
  | cons d w =>
      rw [(List.cons_prefix_cons.mp hp).1, List.head?_cons, Option.any_some, bne_self_eq_false]
        at hhead
      exact absurd hhead Bool.false_ne_true

/-- An object has nothing to trim. -/
theorem trimmed_braces (s : Str) : Trimmed (123 :: (s ++ [125])) where
  front := not_prefix_of_head _ 123 _ (by decide)
  back w hw hp := by
    refine not_prefix_of_head (whitespace.map List.reverse) 125 (s.reverse ++ [123]) (by decide)
      w.reverse (List.mem_map_of_mem hw) ?_
    rw [← List.reverse_prefix, List.reverse_cons, List.reverse_append] at hp
    exact hp

/-- What trimming leaves of a text that starts with a brace starts with it too. -/
theorem trim_prefix_of_brace (s : Str) : trim (123 :: s) <+: 123 :: s := by
  rcases trim_spec (123 :: s) with ⟨ws, us, hws, _, hs, _⟩
  cases ws with
  | nil => exact ⟨us.flatten, hs.symm⟩
  | cons w ws =>
      -- white space at the front would begin with the brace
      have hno := not_prefix_of_head whitespace 123 s (by decide) w (hws w List.mem_cons_self)
      refine absurd ?_ hno
      rw [hs, List.flatten_cons, List.append_assoc]
      exact List.prefix_append _ _

/-- The only white space that starts with a blank is a blank. -/
theorem whitespace_blank : ∀ w ∈ whitespace, w.head? = some 32 → w = [32] := by decide

theorem trim_space (s : Str) (h : Trimmed s) : trim (32 :: s) = s := by
  have hfront : stripAll whitespace (32 :: s).length (32 :: s) = s := by
    rw [List.length_cons, stripAll]
    cases hf : whitespace.find? fun w => w.isPrefixOf (32 :: s) with
    | none =>
        -- the blank itself is found
        rw [List.find?_eq_none] at hf
        exact absurd (List.isPrefixOf_iff_prefix.mpr (List.prefix_append [32] s))
          (hf [32] (by decide))
    | some w =>
        have hw := List.mem_of_find?_eq_some hf
        have hp := List.isPrefixOf_iff_prefix.mp
          (List.find?_some (p := fun w : Str => w.isPrefixOf (32 :: s)) hf)
        have hblank : w = [32] := by
          refine whitespace_blank w hw ?_
          cases w with
          | nil => exact absurd rfl (whitespace_ne_nil [] hw)
          | cons c w => rw [(List.cons_prefix_cons.mp hp).1, List.head?_cons]
        dsimp only
        rw [hblank]
        exact stripAll_eq_self _ _ _ h.front
  rw [trim, hfront, stripAll_back s h, List.reverse_reverse]

/-- Without a byte of white space there is nothing to trim. -/
theorem trimmed_of_forall (s : Str) (h : ∀ b ∈ s, b ∉ whitespace.flatten) : Trimmed s := by
  have hno : ∀ w ∈ whitespace, ¬ w <:+: s := by
    intro w hw hin
    cases w with
    | nil => exact whitespace_ne_nil [] hw rfl
    | cons c w =>
        refine h c (hin.subset List.mem_cons_self) ?_
        exact List.mem_flatten.mpr ⟨c :: w, hw, List.mem_cons_self⟩
  exact ⟨fun w hw hp => hno w hw hp.isInfix, fun w hw hp => hno w hw hp.isInfix⟩

theorem isChar_whitespace : ∀ w ∈ whitespace, IsChar w = true := by decide

/-- Trimming takes off whole characters. -/
theorem utf8Valid_trim (s : Str) (h : utf8Valid s = true) : utf8Valid (trim s) = true := by
  rcases trim_spec s with ⟨ws, us, hws, hus, hs, _⟩
  have hvalid : ∀ vs : List Str, (∀ v ∈ vs, v ∈ whitespace) → utf8Valid vs.flatten = true :=
    fun vs hvs => (utf8Valid_iff _).mpr ⟨vs, fun v hv => isChar_whitespace v (hvs v hv), rfl⟩
  rw [hs, utf8Valid_append _ _ (hvalid ws hws)] at h
  exact utf8Valid_left _ _ h (head_of_utf8Valid _ (hvalid us hus))

/-- Lines hold no line feed. -/
theorem linesFrom_single : ∀ (s acc : Str), 10 ∉ acc → ∀ l ∈ linesFrom acc s, 10 ∉ l := by
  intro s
  induction s with
  | nil =>
      intro acc hacc l hl
      rw [linesFrom] at hl
      split at hl
      · exact absurd hl List.not_mem_nil
      · rw [List.mem_singleton.mp hl]
        exact hacc
  | cons c s ih =>
      intro acc hacc l hl
      rw [linesFrom] at hl
      by_cases hc : c = 10
      · rw [if_pos hc] at hl
        rcases List.mem_cons.mp hl with rfl | hl
        · -- without its carriage return, if it has one
          split
          · exact fun h => hacc ((List.dropLast_sublist acc).subset h)
          · exact hacc
        · exact ih [] List.not_mem_nil l hl
      · rw [if_neg hc] at hl
        refine ih (acc ++ [c]) ?_ l hl
        rw [List.mem_append, List.mem_singleton, not_or]
        exact ⟨hacc, fun h => hc h.symm⟩

theorem lines_single (s : Str) : ∀ l ∈ lines s, 10 ∉ l := linesFrom_single s [] List.not_mem_nil

/-- A line of a text is part of it. -/
theorem linesFrom_part : ∀ (s acc : Str), ∀ l ∈ linesFrom acc s, l <:+: acc ++ s := by
  intro s
  induction s with
  | nil =>
      intro acc l hl
      rw [linesFrom] at hl
      split at hl
      · exact absurd hl List.not_mem_nil
      · rw [List.mem_singleton.mp hl, List.append_nil]
  | cons c s ih =>
      intro acc l hl
      rw [linesFrom] at hl
      by_cases hc : c = 10
      · rw [if_pos hc, List.mem_cons] at hl
        rcases hl with rfl | hl
        · split
          · exact (acc.dropLast_prefix.trans (List.prefix_append _ _)).isInfix
          · exact (List.prefix_append _ _).isInfix
        · exact (ih [] l hl).trans ⟨acc ++ [c], [], by simp only [List.append_assoc,
            List.cons_append, List.nil_append, List.append_nil]⟩
      · rw [if_neg hc] at hl
        have hin := ih (acc ++ [c]) l hl
        rw [List.append_assoc] at hin
        exact hin

/-- Lines end in front of characters. -/
theorem utf8Valid_linesFrom : ∀ (s acc : Str), utf8Valid (acc ++ s) = true →
    ∀ l ∈ linesFrom acc s, utf8Valid l = true := by
  have hcut : ∀ (c : UInt8) (a b : Str), isCont c = false → utf8Valid (a ++ c :: b) = true →
      utf8Valid a = true := fun c a b hc h =>
    utf8Valid_left a (c :: b) h fun x hx => by
      rw [List.head?_cons, Option.mem_def, Option.some.injEq] at hx
      rw [← hx]
      exact hc
  intro s
  induction s with
  | nil =>
      intro acc h l hl
      rw [List.append_nil] at h
      rw [linesFrom] at hl
      split at hl
      · exact absurd hl List.not_mem_nil
      · rw [List.mem_singleton.mp hl]
        exact h
  | cons c s ih =>
      intro acc h l hl
      rw [linesFrom] at hl
      by_cases hc : c = 10
      · rw [if_pos hc] at hl
        rw [hc] at h
        have hacc := hcut 10 acc s (by decide) h
        rcases List.mem_cons.mp hl with rfl | hl
        · split
          · next hlast =>
              -- the carriage return is a character of its own
              rcases List.getLast?_eq_some_iff.mp hlast with ⟨ys, rfl⟩
              rw [List.dropLast_concat]
              exact hcut 13 ys [] (by decide) hacc
          · exact hacc
        · -- the line and its line feed are valid, so what is behind them is
          refine ih [] ?_ l hl
          rw [utf8Valid_append acc _ hacc, utf8Valid_ascii 10 s (by decide)] at h
          exact h
      · rw [if_neg hc] at hl
        refine ih (acc ++ [c]) ?_ l hl
        rw [List.append_assoc]
        exact h

theorem utf8Valid_lines (s : Str) (h : utf8Valid s = true) : ∀ l ∈ lines s, utf8Valid l = true :=
  utf8Valid_linesFrom s [] h

end PrivacyClaw
