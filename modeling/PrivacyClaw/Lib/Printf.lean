import Mathlib.Data.List.Basic
import PrivacyClaw.Lib.Transducer

/-!
# The Format of `printf`

What the POSIX utility `printf` writes when it is called with a format and no
arguments.

The format is not written as it is. A backslash begins an escape sequence and a
percent sign a conversion, which converts the empty text or the number zero
where there is no argument. Sequences that the standard does not define, or
leaves open, have no reading here: unknown escapes, octal numbers that are no
byte, conversions that are cut off, the ones for floating point and for a single
character.

So a format without the two marks is written as it is. A format with one of
them never is (`format_eq_self_iff`), also not by chance: an escape costs a
backslash and gives one byte, and if it gives a backslash again, it had four
bytes; a conversion costs a percent sign, which only two of them give back. What
comes out has fewer marks, or the same marks and less text.

## Main definitions

* `Spec`, `Spec.convert`: A conversion, and what it writes.
* `Mode`, `step`, `finish`: The reader.
* `format`, `utility`: What is written.
* `marks`: The marks of a text, a backslash counted twice.

## Theorems

* `Spec.convert_marks`: A conversion writes fewer marks than it has.
* `run_shrinks`: What a mode and a text come to.
* `format_eq_self_iff`, `utility_eq_self_iff`: The texts that are written as they
  are.
-/

namespace Printf

open Transducer

abbrev Bytes := List UInt8

/-- A conversion as far as it is read: the flags, the width, the precision. -/
structure Spec where
  left : Bool
  plus : Bool
  space : Bool
  alt : Bool
  zero : Bool
  width : Option Nat
  precision : Option Nat
  deriving DecidableEq, Repr

/-- Nothing behind the percent sign yet. -/
def Spec.empty : Spec := ⟨false, false, false, false, false, none, none⟩

/-- A value with spaces up to the width. -/
def Spec.pad (sp : Spec) (s : Bytes) : Bytes :=
  let fill := List.replicate (sp.width.getD 0 - s.length) 32
  if sp.left then s ++ fill else fill ++ s

/-- The digits of zero: as many as the precision asks for, and one of them for an
    octal number in its other form. -/
def Spec.digits (sp : Spec) (octal : Bool) : Bytes :=
  if sp.precision = some 0 ∧ octal = true ∧ sp.alt = true then [48]
  else List.replicate (sp.precision.getD 1) 48

/-- The sign of zero in a signed conversion. -/
def Spec.sign (sp : Spec) : Bytes :=
  if sp.plus then [43] else if sp.space then [32] else []

/-- Zero, with its sign, up to the width. -/
def Spec.zeroNumber (sp : Spec) (sign digits : Bytes) : Bytes :=
  if sp.zero ∧ sp.left = false ∧ sp.precision = none then
    sign ++ List.replicate (sp.width.getD 0 - (sign ++ digits).length) 48 ++ digits
  else sp.pad (sign ++ digits)

/-- What a conversion without an argument writes. -/
def Spec.convert (sp : Spec) (c : UInt8) : Option Bytes :=
  -- `%%`, and nothing between the signs
  if c = 37 then (if sp = Spec.empty then some [37] else none)
  -- `s` and `b`, the empty text
  else if c = 115 ∨ c = 98 then (if sp.alt ∨ sp.zero then none else some (sp.pad []))
  -- `d` and `i`
  else if c = 100 ∨ c = 105 then
    (if sp.alt then none else some (sp.zeroNumber sp.sign (sp.digits false)))
  -- `u`
  else if c = 117 then (if sp.alt then none else some (sp.zeroNumber [] (sp.digits false)))
  -- `o`
  else if c = 111 then some (sp.zeroNumber [] (sp.digits true))
  -- `x` and `X`
  else if c = 120 ∨ c = 88 then some (sp.zeroNumber [] (sp.digits false))
  else none

/-- A flag, set. -/
def Spec.flag (sp : Spec) (c : UInt8) : Option Spec :=
  if c = 45 then some { sp with left := true }
  else if c = 43 then some { sp with plus := true }
  else if c = 32 then some { sp with space := true }
  else if c = 35 then some { sp with alt := true }
  else if c = 48 then some { sp with zero := true }
  else none

/-- The value of a digit below the base. -/
def digit (base : Nat) (c : UInt8) : Option Nat :=
  if 48 ≤ c.toNat ∧ c.toNat < 48 + base then some (c.toNat - 48) else none

/-- What is being read: text, what stands behind a backslash, some octal digits
    and their value, or a part of a conversion. -/
inductive Mode where
  | text
  | escape
  | octal (n value : Nat)
  | flags (sp : Spec)
  | width (sp : Spec) (n : Nat)
  | precision (sp : Spec) (n : Nat)
  deriving DecidableEq, Repr

/-- The escapes of one letter. -/
def escapeByte (c : UInt8) : Option UInt8 :=
  if c = 92 then some 92
  else if c = 97 then some 7
  else if c = 98 then some 8
  else if c = 102 then some 12
  else if c = 110 then some 10
  else if c = 114 then some 13
  else if c = 116 then some 9
  else if c = 118 then some 11
  else none

/-- A byte in the text. -/
def textStep (c : UInt8) : Bytes × Mode :=
  if c = 92 then ([], .escape)
  else if c = 37 then ([], .flags Spec.empty)
  else ([c], .text)

/-- The byte that octal digits stand for. -/
def octalByte (value : Nat) : Option UInt8 :=
  if value < 256 then some (UInt8.ofNat value) else none

/-- What ends a conversion. -/
def convertStep (sp : Spec) (c : UInt8) : Option (Bytes × Mode) :=
  (sp.convert c).map fun out => (out, .text)

/-- One byte of a format. -/
def step : Mode → UInt8 → Option (Bytes × Mode)
  | .text, c => some (textStep c)
  | .escape, c =>
    match digit 8 c with
    | some d => some ([], .octal 1 d)
    | none => (escapeByte c).map fun b => ([b], .text)
  | .octal n value, c =>
    match digit 8 c with
    | some d =>
      if n < 3 then some ([], .octal (n + 1) (value * 8 + d))
      else (octalByte value).map fun b => (b :: (textStep c).1, (textStep c).2)
    | none => (octalByte value).map fun b => (b :: (textStep c).1, (textStep c).2)
  | .flags sp, c =>
    match sp.flag c with
    | some sp => some ([], .flags sp)
    | none =>
      match digit 10 c with
      | some d => some ([], .width sp d)
      | none => if c = 46 then some ([], .precision sp 0) else convertStep sp c
  | .width sp n, c =>
    match digit 10 c with
    | some d => some ([], .width sp (n * 10 + d))
    | none =>
      let sp := { sp with width := some n }
      if c = 46 then some ([], .precision sp 0) else convertStep sp c
  | .precision sp n, c =>
    match digit 10 c with
    | some d => some ([], .precision sp (n * 10 + d))
    | none => convertStep { sp with precision := some n } c

/-- The end of a format. -/
def finish : Mode → Option Bytes
  | .text => some []
  | .octal _ value => (octalByte value).map fun b => [b]
  | _ => none

/-- What a format without arguments writes. -/
def format (s : Bytes) : Option Bytes := run step finish s .text

/-- What the utility writes for its arguments. A first one that begins with a
    hyphen may be taken for options and has no reading here. -/
def utility : List Bytes → Option Bytes
  | [s] => if s.head? = some 45 then none else format s
  | [dashes, s] => if dashes = [45, 45] then format s else none
  | _ => none

/-- The marks of a text; a backslash counts twice. -/
def marks (s : Bytes) : Nat := 2 * s.count 92 + s.count 37

theorem marks_append (s t : Bytes) : marks (s ++ t) = marks s + marks t := by
  simp only [marks, List.count_append]
  omega

theorem marks_cons (c : UInt8) (s : Bytes) : marks (c :: s) = marks [c] + marks s :=
  marks_append [c] s

theorem marks_eq_zero_iff (s : Bytes) : marks s = 0 ↔ 92 ∉ s ∧ 37 ∉ s := by
  rw [← List.count_eq_zero, ← List.count_eq_zero, marks]
  omega

theorem marks_single_le (c : UInt8) : marks [c] ≤ 2 := by
  simp only [marks, List.count_singleton]
  by_cases h : c = 92
  · rw [h]
    decide
  · rw [if_neg (by rwa [beq_iff_eq])]
    split <;> omega

theorem marks_single {c : UInt8} (h : c ≠ 92) (h' : c ≠ 37) : marks [c] = 0 := by
  refine (marks_eq_zero_iff [c]).mpr ⟨fun hm => h ?_, fun hm => h' ?_⟩
  · exact (List.mem_singleton.mp hm).symm
  · exact (List.mem_singleton.mp hm).symm

/-- Spaces, plus signs and zeros. -/
def Filler (s : Bytes) : Prop := ∀ b ∈ s, b = 32 ∨ b = 43 ∨ b = 48

theorem Filler.marks {s : Bytes} (h : Filler s) : marks s = 0 := by
  refine (marks_eq_zero_iff s).mpr ⟨fun hm => ?_, fun hm => ?_⟩
  · exact absurd (h 92 hm) (by decide)
  · exact absurd (h 37 hm) (by decide)

theorem Filler.append {s t : Bytes} (hs : Filler s) (ht : Filler t) : Filler (s ++ t) :=
  fun b hb => (List.mem_append.mp hb).elim (hs b) (ht b)

theorem Filler.replicate {b : UInt8} (n : Nat) (hb : b = 32 ∨ b = 43 ∨ b = 48) :
    Filler (List.replicate n b) := fun c hc => by
  rw [(List.mem_replicate.mp hc).2]
  exact hb

namespace Spec

variable (sp : Spec)

theorem pad_filler {s : Bytes} (hs : Filler s) : Filler (sp.pad s) := by
  have hfill : Filler (List.replicate (sp.width.getD 0 - s.length) 32) :=
    Filler.replicate _ (Or.inl rfl)
  unfold pad
  dsimp only
  split
  · exact hs.append hfill
  · exact hfill.append hs

theorem digits_filler (octal : Bool) : Filler (sp.digits octal) := by
  unfold digits
  split
  · exact Filler.replicate 1 (Or.inr (Or.inr rfl))
  · exact Filler.replicate _ (Or.inr (Or.inr rfl))

theorem sign_filler : Filler sp.sign := by
  unfold sign
  split
  · exact Filler.replicate 1 (Or.inr (Or.inl rfl))
  · split
    · exact Filler.replicate 1 (Or.inl rfl)
    · exact Filler.replicate 0 (Or.inl rfl)

theorem zeroNumber_filler {sign digits : Bytes} (hs : Filler sign) (hd : Filler digits) :
    Filler (sp.zeroNumber sign digits) := by
  unfold zeroNumber
  split
  · exact (hs.append (Filler.replicate _ (Or.inr (Or.inr rfl)))).append hd
  · exact sp.pad_filler (hs.append hd)

/-- A conversion writes fewer marks than it has: those of its last byte at
    most. -/
theorem convert_marks {c : UInt8} {out : Bytes} (h : sp.convert c = some out) :
    marks out ≤ marks [c] := by
  have hnil : Filler [] := fun b hb => absurd hb List.not_mem_nil
  have hzero : ∀ {s : Bytes}, Filler s → some s = some out → marks out ≤ marks [c] := by
    intro s hs heq
    rw [← Option.some.inj heq, hs.marks]
    exact Nat.zero_le _
  unfold convert at h
  split at h
  next hc =>
    split at h
    · exact Nat.le_of_eq (by rw [← Option.some.inj h, hc])
    · exact absurd h (by simp only [reduceCtorEq, not_false_eq_true])
  next =>
    split at h
    · split at h
      · exact absurd h (by simp only [reduceCtorEq, not_false_eq_true])
      · exact hzero (sp.pad_filler hnil) h
    split at h
    · split at h
      · exact absurd h (by simp only [reduceCtorEq, not_false_eq_true])
      · exact hzero (sp.zeroNumber_filler sp.sign_filler (sp.digits_filler false)) h
    split at h
    · split at h
      · exact absurd h (by simp only [reduceCtorEq, not_false_eq_true])
      · exact hzero (sp.zeroNumber_filler hnil (sp.digits_filler false)) h
    split at h
    · exact hzero (sp.zeroNumber_filler hnil (sp.digits_filler true)) h
    split at h
    · exact hzero (sp.zeroNumber_filler hnil (sp.digits_filler false)) h
    · exact absurd h (by simp only [reduceCtorEq, not_false_eq_true])

/-- A flag is no mark. -/
theorem flag_marks {c : UInt8} {sp' : Spec} (h : sp.flag c = some sp') : marks [c] = 0 := by
  have h92 : sp.flag 92 = none := rfl
  have h37 : sp.flag 37 = none := rfl
  refine marks_single (fun hc => ?_) (fun hc => ?_)
  · rw [hc, h92] at h
    exact absurd h (by simp only [reduceCtorEq, not_false_eq_true])
  · rw [hc, h37] at h
    exact absurd h (by simp only [reduceCtorEq, not_false_eq_true])

end Spec

/-- A digit is no mark. -/
theorem digit_marks {base : Nat} {c : UInt8} {d : Nat} (hbase : base ≤ 10)
    (h : digit base c = some d) : marks [c] = 0 := by
  have hrange : 48 ≤ c.toNat ∧ c.toNat < 48 + base := by
    by_contra hno
    rw [digit, if_neg hno] at h
    exact absurd h (by simp only [reduceCtorEq, not_false_eq_true])
  refine marks_single (fun hc => ?_) (fun hc => ?_)
  · rw [hc, show (92 : UInt8).toNat = 92 from rfl] at hrange
    omega
  · rw [hc, show (37 : UInt8).toNat = 37 from rfl] at hrange
    omega

/-- Only a backslash gives a backslash. -/
theorem escapeByte_marks {c b : UInt8} (h : escapeByte c = some b) : marks [b] ≤ marks [c] := by
  unfold escapeByte at h
  split at h
  next hc => exact Nat.le_of_eq (by rw [← Option.some.inj h, hc])
  next =>
    have hb : b ∈ [7, 8, 12, 10, 13, 9, 11] := by
      repeat' split at h
      all_goals first
        | exact absurd h (by simp only [reduceCtorEq, not_false_eq_true])
        | (rw [← Option.some.inj h]; decide)
    have hzero : ∀ b ∈ [(7 : UInt8), 8, 12, 10, 13, 9, 11], marks [b] = 0 :=
      List.forall_iff_forall_mem.mp (by decide)
    rw [hzero b hb]
    exact Nat.zero_le _

/-- Fewer marks, or as many and less text; `k` and `l` are what the mode adds
    to them. -/
def Smaller (k l : Nat) (s out : Bytes) : Prop :=
  marks out < marks s + k ∨ marks out = marks s + k ∧ out.length < s.length + l

/-- What comes of a text in a mode. -/
def Shrinks : Mode → Bytes → Bytes → Prop
  | .text, s, out => out = s ∧ marks s = 0 ∨ Smaller 0 0 s out
  | .escape, s, out => Smaller 2 1 s out
  | .octal n _, s, out => 0 < n → Smaller 2 (n + 1) s out
  | _, s, out => marks out < marks s + 1

theorem Shrinks.le {s out : Bytes} (h : Shrinks .text s out) :
    marks out < marks s ∨ marks out = marks s ∧ out.length ≤ s.length := by
  rcases h with ⟨rfl, _⟩ | h | ⟨h, hlen⟩
  · exact Or.inr ⟨rfl, Nat.le_refl _⟩
  · exact Or.inl h
  · exact Or.inr ⟨h, Nat.le_of_lt hlen⟩

/-- A byte of the text, with what comes of the rest in the mode behind it. -/
theorem shrinks_text {c : UInt8} {s out : Bytes}
    (ih : ∀ m out, run step finish s m = some out → Shrinks m s out)
    (h : run step finish (c :: s) .text = some out) : Shrinks .text (c :: s) out := by
  rw [run_cons, step, Option.bind_some, Option.map_eq_some_iff] at h
  rcases h with ⟨rest, hrest, rfl⟩
  have hmarks := marks_cons c s
  unfold textStep at hrest ⊢
  by_cases h92 : c = 92
  · rw [if_pos h92] at hrest ⊢
    have hmark : marks [c] = 2 := by rw [h92]; rfl
    rw [List.nil_append]
    refine Or.inr ?_
    rcases ih _ _ hrest with hlt | ⟨heq, hlen⟩
    · exact Or.inl (by omega)
    · exact Or.inr ⟨by omega, by rw [List.length_cons]; omega⟩
  rw [if_neg h92] at hrest ⊢
  by_cases h37 : c = 37
  · rw [if_pos h37] at hrest ⊢
    have hmark : marks [c] = 1 := by rw [h37]; rfl
    have hlt : marks rest < marks s + 1 := ih _ _ hrest
    rw [List.nil_append]
    exact Or.inr (Or.inl (by omega))
  rw [if_neg h37] at hrest ⊢
  have hzero := marks_single h92 h37
  rw [List.singleton_append]
  have hout := marks_cons c rest
  rcases ih _ _ hrest with ⟨rfl, hs⟩ | hlt | ⟨heq, hlen⟩
  · exact Or.inl ⟨rfl, by omega⟩
  · exact Or.inr (Or.inl (by omega))
  · exact Or.inr (Or.inr ⟨by omega, by rw [List.length_cons, List.length_cons]; omega⟩)

/-- A byte that was given by an escape, in front of what comes of the text. -/
theorem shrinks_byte (b : UInt8) {n : Nat} {s rest : Bytes} (hn : 0 < n)
    (h : Shrinks .text s rest) : Smaller 2 (n + 1) s (b :: rest) := by
  have hb := marks_single_le b
  have hout := marks_cons b rest
  rcases h.le with hlt | ⟨heq, hlen⟩
  · exact Or.inl (by omega)
  · by_cases htwo : marks [b] = 2
    · exact Or.inr ⟨by omega, by rw [List.length_cons]; omega⟩
    · exact Or.inl (by omega)

/-- Where octal digits end the text goes on. -/
theorem octal_end {value : Nat} {c : UInt8} {s out : Bytes}
    (h : ((octalByte value).map fun b => (b :: (textStep c).1, (textStep c).2)).bind
      (fun p => (run step finish s p.2).map fun rest => p.1 ++ rest) = some out) :
    ∃ b rest, out = b :: rest ∧ run step finish (c :: s) .text = some rest := by
  rw [Option.bind_map, Option.bind_eq_some_iff] at h
  rcases h with ⟨b, _, h⟩
  rcases Option.map_eq_some_iff.mp h with ⟨rest, hrest, rfl⟩
  refine ⟨b, (textStep c).1 ++ rest, rfl, ?_⟩
  rw [run_cons, step, Option.bind_some, hrest]
  rfl

/-- What ends a conversion, and the text behind it. -/
theorem shrinks_convert {sp : Spec} {c : UInt8} {s out : Bytes}
    (ih : ∀ m out, run step finish s m = some out → Shrinks m s out)
    (h : ((convertStep sp c).bind fun p => (run step finish s p.2).map fun rest => p.1 ++ rest) =
      some out) : marks out < marks (c :: s) + 1 := by
  rw [convertStep, Option.bind_map, Option.bind_eq_some_iff] at h
  rcases h with ⟨w, hw, h⟩
  rcases Option.map_eq_some_iff.mp h with ⟨rest, hrest, rfl⟩
  have hconvert := sp.convert_marks hw
  have hmarks := marks_cons c s
  have hle := (ih _ _ hrest).le
  dsimp only
  rw [marks_append]
  omega

/-- What comes of a text in every mode, by induction on the text. -/
theorem run_shrinks (s : Bytes) : ∀ (m : Mode) (out : Bytes),
    run step finish s m = some out → Shrinks m s out := by
  induction s with
  | nil =>
      intro m out h
      rw [run_nil] at h
      cases m with
      | text => exact Or.inl ⟨(Option.some.inj h).symm, rfl⟩
      | octal n value =>
          intro hn
          rcases Option.map_eq_some_iff.mp h with ⟨b, _, rfl⟩
          exact shrinks_byte b hn (Or.inl ⟨rfl, rfl⟩)
      | _ => exact absurd h (by simp only [finish, reduceCtorEq, not_false_eq_true])
  | cons c s ih =>
      intro m out h
      have hmarks := marks_cons c s
      -- one more byte of a conversion that goes on
      have hmore : ∀ m' : Mode, marks [c] = 0 →
          (∀ out, Shrinks m' s out → marks out < marks s + 1) →
          ((some (([] : Bytes), m')).bind fun p =>
            (run step finish s p.2).map fun rest => p.1 ++ rest) = some out →
          marks out < marks (c :: s) + 1 := by
        intro m' hzero hm' h
        rw [Option.bind_some, Option.map_eq_some_iff] at h
        rcases h with ⟨rest, hrest, rfl⟩
        have hlt := hm' _ (ih _ _ hrest)
        rw [List.nil_append]
        omega
      cases m with
      | text => exact shrinks_text ih h
      | escape =>
          rw [run_cons, step] at h
          cases hd : digit 8 c with
          | some d =>
              rw [hd] at h
              have hzero := digit_marks (by decide) hd
              rcases Option.map_eq_some_iff.mp h with ⟨rest, hrest, rfl⟩
              rw [List.nil_append]
              rcases ih _ _ hrest Nat.one_pos with hlt | ⟨heq, hlen⟩
              · exact Or.inl (by omega)
              · exact Or.inr ⟨by omega, by rw [List.length_cons]; omega⟩
          | none =>
              rw [hd, Option.bind_map, Option.bind_eq_some_iff] at h
              rcases h with ⟨b, hb, h⟩
              rcases Option.map_eq_some_iff.mp h with ⟨rest, hrest, rfl⟩
              have hle := (ih _ _ hrest).le
              have hout := marks_cons b rest
              -- only a backslash gives a backslash, and it had two of them
              have hbyte : marks [b] ≤ marks [c] := escapeByte_marks hb
              refine Or.inl ?_
              change marks (b :: rest) < _
              omega
      | octal n value =>
          intro hn
          rw [run_cons, step] at h
          have hend : ((octalByte value).map fun b => (b :: (textStep c).1, (textStep c).2)).bind
              (fun p => (run step finish s p.2).map fun rest => p.1 ++ rest) = some out →
              Smaller 2 (n + 1) (c :: s) out := by
            intro h
            rcases octal_end h with ⟨b, rest, rfl, hrest⟩
            exact shrinks_byte b hn (shrinks_text ih hrest)
          cases hd : digit 8 c with
          | none =>
              rw [hd] at h
              exact hend h
          | some d =>
              rw [hd] at h
              dsimp only at h
              by_cases hlt : n < 3
              · rw [if_pos hlt, Option.bind_some, Option.map_eq_some_iff] at h
                have hzero := digit_marks (by decide) hd
                rcases h with ⟨rest, hrest, rfl⟩
                rw [List.nil_append]
                rcases ih _ _ hrest (Nat.succ_pos n) with hless | ⟨heq, hlen⟩
                · exact Or.inl (by omega)
                · exact Or.inr ⟨by omega, by rw [List.length_cons]; omega⟩
              · rw [if_neg hlt] at h
                exact hend h
      | flags sp =>
          rw [run_cons, step] at h
          cases hf : sp.flag c with
          | some sp' =>
              rw [hf] at h
              exact hmore (.flags sp') (sp.flag_marks hf) (fun _ h => h) h
          | none =>
              rw [hf] at h
              cases hd : digit 10 c with
              | some d =>
                  rw [hd] at h
                  exact hmore (.width sp d) (digit_marks (Nat.le_refl _) hd) (fun _ h => h) h
              | none =>
                  rw [hd] at h
                  dsimp only at h
                  by_cases hdot : c = 46
                  · rw [if_pos hdot] at h
                    exact hmore (.precision sp 0) (by rw [hdot]; rfl) (fun _ h => h) h
                  · rw [if_neg hdot] at h
                    exact shrinks_convert ih h
      | width sp n =>
          rw [run_cons, step] at h
          cases hd : digit 10 c with
          | some d =>
              rw [hd] at h
              exact hmore (.width sp (n * 10 + d)) (digit_marks (Nat.le_refl _) hd) (fun _ h => h) h
          | none =>
              rw [hd] at h
              dsimp only at h
              by_cases hdot : c = 46
              · rw [if_pos hdot] at h
                exact hmore (.precision { sp with width := some n } 0) (by rw [hdot]; rfl)
                  (fun _ h => h) h
              · rw [if_neg hdot] at h
                exact shrinks_convert ih h
      | precision sp n =>
          rw [run_cons, step] at h
          cases hd : digit 10 c with
          | some d =>
              rw [hd] at h
              exact hmore (.precision sp (n * 10 + d)) (digit_marks (Nat.le_refl _) hd)
                (fun _ h => h) h
          | none =>
              rw [hd] at h
              exact shrinks_convert ih h

/-- A text without marks is copied. -/
theorem format_of_no_marks (s : Bytes) (h : 92 ∉ s) (h' : 37 ∉ s) : format s = some s := by
  induction s with
  | nil => rfl
  | cons c s ih =>
      rw [List.mem_cons, not_or] at h h'
      have hrest := ih h.2 h'.2
      unfold format at hrest ⊢
      rw [run_cons, step, textStep, if_neg (Ne.symm h.1), if_neg (Ne.symm h'.1), Option.bind_some,
        hrest]
      rfl

/-- The formats that are written as they are. -/
theorem format_eq_self_iff (s : Bytes) : format s = some s ↔ 92 ∉ s ∧ 37 ∉ s := by
  constructor
  · intro h
    rw [← marks_eq_zero_iff]
    rcases run_shrinks s .text s h with ⟨_, hs⟩ | hlt | ⟨_, hlen⟩
    · exact hs
    · exact absurd hlt (Nat.lt_irrefl _)
    · exact absurd hlen (Nat.lt_irrefl _)
  · exact fun h => format_of_no_marks s h.1 h.2

/-- The texts that the utility writes as they are. -/
theorem utility_eq_self_iff (s : Bytes) :
    utility [s] = some s ↔ 92 ∉ s ∧ 37 ∉ s ∧ s.head? ≠ some 45 := by
  rw [utility]
  by_cases hs : s.head? = some 45
  · rw [if_pos hs]
    exact iff_of_false (by simp only [reduceCtorEq, not_false_eq_true]) fun h => h.2.2 hs
  · rw [if_neg hs, format_eq_self_iff]
    exact ⟨fun h => ⟨h.1, h.2, hs⟩, fun h => ⟨h.1, h.2.1⟩⟩

end Printf
