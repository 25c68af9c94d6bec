import Mathlib.Data.List.Infix
import PrivacyClaw.Theory.Incremental

/-!
# Events among Other Lines

What becomes of the events of a text if foreign lines are put into it anywhere,
between two bytes? The parser may lose or change the event that is hit, but it
does not lose its place: behind the end of the event it is back in step.

The end of an event survives, because a foreign line ends in a line end itself.
The parser may find the end a byte or two early; what is left over are line ends
then, and line ends in front of an event do not matter. So the events of the
whole are the events of the parts, each read for itself.

## Main definitions

* `Marked`: A text with what is put in front of its bytes.
* `Marked.framed`, `Marked.plain`: With it, and without.
* `Marked.parts`: The text, cut behind each event.
* `SseParser.Blank`: Line ends that may be left over.

## Theorems

* `SseParser.scan_blank`: Line ends in front do not matter.
* `SseParser.scan_leftover`: What is left behind the end of an event.
* `Marked.scan_parts`: The events of the whole.
-/

namespace PrivacyClaw

theorem findDoubleNewlineFrom_eq_map : ∀ (s : Str) (i : Nat),
    findDoubleNewlineFrom i s = (findDoubleNewline s).map fun p => (p.1 + i, p.2 + i) := by
  intro s
  induction s with
  | nil => intro i; rfl
  | cons c s ih =>
      intro i
      rw [findDoubleNewline, findDoubleNewlineFrom, findDoubleNewlineFrom, ih (i + 1),
        ih (0 + 1)]
      split
      · simp only [Option.map_some, Nat.zero_add, Nat.add_comm i]
      · split
        · simp only [Option.map_some, Nat.zero_add, Nat.add_comm i]
        · rw [Option.map_map]
          congr 1
          funext p
          simp only [Function.comp_apply, Prod.mk.injEq]
          omega

/-- Without a separator at the first byte the rest decides. -/
theorem findDoubleNewline_cons (c : UInt8) (s : Str) (h4 : ¬ lit "\r\n\r\n" <+: c :: s)
    (h2 : ¬ lit "\n\n" <+: c :: s) :
    findDoubleNewline (c :: s) = (findDoubleNewline s).map fun p => (p.1 + 1, p.2 + 1) := by
  simp only [← List.isPrefixOf_iff_prefix] at h4 h2
  rw [findDoubleNewline, findDoubleNewlineFrom, if_neg h4, if_neg h2, findDoubleNewlineFrom_eq_map]

/-- Where no separator is found there is none. -/
theorem findDoubleNewline_none (s : Str) (h : findDoubleNewline s = none) :
    ¬ lit "\n\n" <:+: s ∧ ¬ lit "\r\n\r\n" <:+: s := by
  induction s with
  | nil => exact ⟨by decide, by decide⟩
  | cons c s ih =>
      rw [findDoubleNewline, findDoubleNewlineFrom] at h
      simp only [List.isPrefixOf_iff_prefix] at h
      split at h
      · exact absurd h (Option.some_ne_none _)
      · next h4 =>
          split at h
          · exact absurd h (Option.some_ne_none _)
          · next h2 =>
              rw [findDoubleNewlineFrom_eq_map, Option.map_eq_none_iff] at h
              rw [List.infix_cons_iff, List.infix_cons_iff]
              exact ⟨not_or.mpr ⟨h2, (ih h).1⟩, not_or.mpr ⟨h4, (ih h).2⟩⟩

/-- What is found is a separator. -/
theorem findDoubleNewline_take (s : Str) : ∀ (a b : Nat), findDoubleNewline s = some (a, b) →
    s.take b = s.take a ++ lit "\r\n\r\n" ∨ s.take b = s.take a ++ lit "\n\n" := by
  induction s with
  | nil => intro a b h; exact absurd h (Option.some_ne_none _).symm
  | cons c s ih =>
      intro a b h
      rw [findDoubleNewline, findDoubleNewlineFrom] at h
      split at h
      · next hp =>
          rw [Option.some.injEq, Prod.mk.injEq] at h
          rw [← h.1, ← h.2]
          exact .inl (List.prefix_iff_eq_take.mp (List.isPrefixOf_iff_prefix.mp hp)).symm
      · split at h
        · next hp =>
            rw [Option.some.injEq, Prod.mk.injEq] at h
            rw [← h.1, ← h.2]
            exact .inr (List.prefix_iff_eq_take.mp (List.isPrefixOf_iff_prefix.mp hp)).symm
        -- no separator starts here: one position further
        · rw [findDoubleNewlineFrom_eq_map, Option.map_eq_some_iff] at h
          rcases h with ⟨⟨a', b'⟩, hfind, heq⟩
          rw [Prod.mk.injEq] at heq
          rw [← heq.1, ← heq.2, List.take_succ_cons, List.take_succ_cons]
          rcases ih a' b' hfind with h' | h'
          · exact .inl (congrArg (c :: ·) h')
          · exact .inr (congrArg (c :: ·) h')

theorem utf8Valid_ascii (c : UInt8) (s : Str) (hc : c < 0x80) :
    utf8Valid (c :: s) = utf8Valid s := by
  rw [utf8Valid.eq_def]
  exact if_pos hc

/-- A line end in front of a block is an empty line. -/
theorem parseEventBlock_lf (block : Str) :
    parseEventBlock (10 :: block) = parseEventBlock block := by
  unfold parseEventBlock
  rw [utf8Valid_ascii 10 block (by decide)]
  rfl

theorem parseEventBlock_crlf (block : Str) :
    parseEventBlock (13 :: 10 :: block) = parseEventBlock block := by
  unfold parseEventBlock
  rw [utf8Valid_ascii 13 _ (by decide), utf8Valid_ascii 10 _ (by decide)]
  rfl

namespace SseParser

theorem scan_lf (x : Str) : (scan (10 :: x)).1 = (scan x).1 := by
  induction x with
  | nil => rfl
  | cons c x ih =>
      by_cases hc : c = 10
      · -- two line feeds end a block without data
        subst hc
        rw [ih, scan_some (10 :: 10 :: x) 0 2 rfl]
        rfl
      · have h4 : ¬ lit "\r\n\r\n" <+: 10 :: c :: x := fun h =>
          absurd (List.cons_prefix_cons.mp h).1 (by decide)
        have h2 : ¬ lit "\n\n" <+: 10 :: c :: x := fun h =>
          hc (List.cons_prefix_cons.mp (List.cons_prefix_cons.mp h).2).1.symm
        have hfind := findDoubleNewline_cons 10 (c :: x) h4 h2
        cases h : findDoubleNewline (c :: x) with
        | none =>
            rw [h] at hfind
            rw [scan_none _ h, scan_none _ hfind]
        | some p =>
            rw [h] at hfind
            rw [scan_some _ _ _ h, scan_some _ _ _ hfind, List.take_succ_cons, parseEventBlock_lf,
              List.drop_succ_cons]

theorem scan_crlf (x : Str) : (scan (13 :: 10 :: x)).1 = (scan x).1 := by
  induction hlen : x.length using Nat.strongRecOn generalizing x with
  | ind len ih =>
      -- By the length of the rest: `\r\n\r\n` is a block of its own, and behind it
      -- there may be the next.
      have h2 : ¬ lit "\n\n" <+: 13 :: 10 :: x := fun h =>
        absurd (List.cons_prefix_cons.mp h).1 (by decide)
      by_cases hcrlf : ∃ y, x = 13 :: 10 :: y
      · rcases hcrlf with ⟨y, rfl⟩
        rw [scan_some (13 :: 10 :: 13 :: 10 :: y) 0 4 rfl,
          ih y.length (by rw [← hlen, List.length_cons, List.length_cons]; omega) y rfl]
        rfl
      · have h4 : ¬ lit "\r\n\r\n" <+: 13 :: 10 :: x := by
          rintro ⟨z, hz⟩
          exact hcrlf ⟨z, (List.cons.inj (List.cons.inj hz).2).2.symm⟩
        have hfind := findDoubleNewline_cons 13 (10 :: x) h4 h2
        by_cases hlf : ∃ y, x = 10 :: y
        · -- the separator starts behind the carriage return
          rcases hlf with ⟨y, rfl⟩
          rw [scan_lf y, scan_some (13 :: 10 :: 10 :: y) 1 3 (hfind.trans rfl)]
          rfl
        · have h4' : ¬ lit "\r\n\r\n" <+: 10 :: x := fun h =>
            absurd (List.cons_prefix_cons.mp h).1 (by decide)
          have h2' : ¬ lit "\n\n" <+: 10 :: x := by
            rintro ⟨z, hz⟩
            exact hlf ⟨z, (List.cons.inj hz).2.symm⟩
          rw [findDoubleNewline_cons 10 x h4' h2', Option.map_map] at hfind
          cases h : findDoubleNewline x with
          | none =>
              rw [h] at hfind
              rw [scan_none _ h, scan_none _ hfind]
          | some p =>
              rw [h] at hfind
              rw [scan_some _ _ _ h, scan_some _ _ _ hfind]
              simp only [List.take_succ_cons, List.drop_succ_cons, parseEventBlock_crlf]

/-- What may be left over in front of an event. -/
def Blank (r : Str) : Prop := r ∈ [[], lit "\n", crlf, lit "\n" ++ crlf]

/-- Line ends in front do not matter. -/
theorem scan_blank (r x : Str) (hr : Blank r) : (scan (r ++ x)).1 = (scan x).1 := by
  simp only [Blank, List.mem_cons, List.not_mem_nil, or_false] at hr
  rcases hr with rfl | rfl | rfl | rfl
  · rfl
  · exact scan_lf x
  · exact scan_crlf x
  · exact (scan_lf (crlf ++ x)).trans (scan_crlf x)

theorem scan_suffix (s : Str) : (scan s).2 <:+ s := by
  induction hlen : s.length using Nat.strongRecOn generalizing s with
  | ind len ih =>
      cases h : findDoubleNewline s with
      | none => rw [scan_none s h]
      | some p =>
          have hb := findDoubleNewlineFrom_bounds s 0 p.1 p.2 h
          rw [scan_some s p.1 p.2 h]
          exact (ih (s.drop p.2).length (by rw [List.length_drop]; omega) _ rfl).trans
            (List.drop_suffix _ _)

/-- What is left holds no separator. -/
theorem findDoubleNewline_rest (s : Str) : findDoubleNewline (scan s).2 = none := by
  cases h : findDoubleNewline (scan s).2 with
  | none => rfl
  | some p =>
      -- the separator would have been taken
      have hb := findDoubleNewlineFrom_bounds (scan s).2 0 p.1 p.2 h
      have hrest := congrArg Prod.snd (scan_rest s)
      rw [scan_some _ p.1 p.2 h] at hrest
      have hle := (scan_suffix ((scan s).2.drop p.2)).length_le
      dsimp only at hrest
      rw [hrest, List.length_drop] at hle
      omega

/-- What is left behind the end of an event. -/
theorem scan_leftover (s t : Str)
    (ht : t ∈ [lit "\n\n", lit "\r\n\r\n", lit "\n\n" ++ crlf]) : Blank (scan (s ++ t)).2 := by
  have hnone := findDoubleNewline_none _ (findDoubleNewline_rest (s ++ t))
  have hsuf := scan_suffix (s ++ t)
  by_cases hlen : t.length ≤ (scan (s ++ t)).2.length
  · -- it would hold a separator
    have hin := (List.suffix_of_suffix_length_le (List.suffix_append s t) hsuf hlen).isInfix
    simp only [List.mem_cons, List.not_mem_nil, or_false] at ht
    rcases ht with rfl | rfl | rfl
    · exact absurd hin hnone.1
    · exact absurd hin hnone.2
    · exact absurd ((List.prefix_append _ _).isInfix.trans hin) hnone.1
  · have hshort : (scan (s ++ t)).2 <:+ t :=
      List.suffix_of_suffix_length_le hsuf (List.suffix_append s t) (by omega)
    have hall : ∀ t ∈ [lit "\n\n", lit "\r\n\r\n", lit "\n\n" ++ crlf], ∀ r ∈ t.tails,
        r.length < t.length → r ∈ [[], lit "\n", crlf, lit "\n" ++ crlf] := by decide
    exact hall t ht _ ((List.mem_tails _ _).mpr hshort) (by omega)

end SseParser

open SseParser (scan scan_append scan_blank scan_leftover Blank)

/-- The bytes of a text, each with what is put in front of it. -/
abbrev Marked := List (Str × UInt8)

namespace Marked

/-- The text. -/
def plain (m : Marked) : Str := m.map Prod.snd

/-- The text with what is put into it. -/
def framed (m : Marked) : Str := m.flatMap fun p => p.1 ++ [p.2]

/-- What is put into the text ends in a line end. -/
def Lines (m : Marked) : Prop := ∀ p ∈ m, p.1 = [] ∨ ∃ line, p.1 = line ++ crlf

/-- The text with nothing put into it. -/
def bare (m : Marked) : Marked := m.map fun p => ([], p.2)

/-- The text, cut behind each event, and what follows the last one. -/
def partsFrom : Nat → Marked → List Marked × Marked
  | 0, m => ([], m)
  | fuel + 1, m =>
    match findDoubleNewline m.plain with
    | none => ([], m)
    | some (_, drainEnd) =>
      let (parts, rest) := partsFrom fuel (m.drop drainEnd)
      (m.take drainEnd :: parts, rest)

/-- The text, cut behind each event; a cut passes a separator. -/
def parts (m : Marked) : List Marked × Marked := m.partsFrom m.length

theorem framed_append (m n : Marked) : (m ++ n).framed = m.framed ++ n.framed :=
  List.flatMap_append

theorem framed_bare (m : Marked) : m.bare.framed = m.plain := by
  induction m with
  | nil => rfl
  | cons p m ih => exact congrArg (p.2 :: ·) ih

theorem plain_bare (m : Marked) : m.bare.plain = m.plain := by
  rw [plain, bare, List.map_map]
  rfl

theorem bare_lines (m : Marked) : m.bare.Lines := by
  intro p hp
  rcases List.mem_map.mp hp with ⟨q, _, rfl⟩
  exact .inl rfl

theorem Lines.of_subset {m n : Marked} (hm : m.Lines) (h : n ⊆ m) : n.Lines :=
  fun p hp => hm p (h hp)

/-- The end of an event survives. -/
theorem Lines.ends {m : Marked} (hm : m.Lines) (x : Str)
    (h : m.plain = x ++ lit "\r\n\r\n" ∨ m.plain = x ++ lit "\n\n") :
    ∃ s, ∃ t ∈ [lit "\n\n", lit "\r\n\r\n", lit "\n\n" ++ crlf], m.framed = s ++ t := by
  rcases h with h | h
  · rcases List.map_eq_append_iff.mp h with ⟨m₀, n, rfl, -, hn⟩
    rcases List.map_eq_cons_iff.mp hn with ⟨p₁, n₁, rfl, hb₁, hn₁⟩
    rcases List.map_eq_cons_iff.mp hn₁ with ⟨p₂, n₂, rfl, hb₂, hn₂⟩
    rcases List.map_eq_cons_iff.mp hn₂ with ⟨p₃, n₃, rfl, hb₃, hn₃⟩
    rcases List.map_eq_cons_iff.mp hn₃ with ⟨p₄, n₄, rfl, hb₄, hn₄⟩
    rw [List.map_eq_nil_iff.mp hn₄] at hm ⊢
    have hframed : framed (m₀ ++ [p₁, p₂, p₃, p₄]) = framed m₀ ++ p₁.1 ++ [13] ++ p₂.1 ++ [10] ++
        p₃.1 ++ [13] ++ p₄.1 ++ [10] := by
      rw [framed_append]
      simp only [framed, List.flatMap_cons, List.flatMap_nil, hb₁, hb₂, hb₃, hb₄,
        List.append_assoc, List.append_nil]
      rfl
    have hline : ∀ p ∈ [p₁, p₂, p₃, p₄], p.1 = [] ∨ ∃ line, p.1 = line ++ crlf :=
      fun p hp => hm p (List.mem_append_right _ hp)
    simp only [List.forall_mem_cons] at hline
    rcases hline with ⟨-, h₂, h₃, h₄, -⟩
    rw [hframed]
    -- the last line put into the separator decides how it ends
    rcases h₄ with h₄ | ⟨l₄, h₄⟩
    · rcases h₃ with h₃ | ⟨l₃, h₃⟩
      · rcases h₂ with h₂ | ⟨l₂, h₂⟩
        · refine ⟨framed m₀ ++ p₁.1, lit "\r\n\r\n", by decide, ?_⟩
          simp only [h₂, h₃, h₄, List.append_nil, List.append_assoc]
          rfl
        · refine ⟨framed m₀ ++ p₁.1 ++ [13] ++ l₂ ++ [13], lit "\n\n" ++ crlf, by decide, ?_⟩
          simp only [h₂, h₃, h₄, List.append_nil, List.append_assoc]
          rfl
      · refine ⟨framed m₀ ++ p₁.1 ++ [13] ++ p₂.1 ++ [10] ++ l₃, lit "\r\n\r\n", by decide, ?_⟩
        simp only [h₃, h₄, List.append_nil, List.append_assoc]
        rfl
    · refine ⟨framed m₀ ++ p₁.1 ++ [13] ++ p₂.1 ++ [10] ++ p₃.1 ++ [13] ++ l₄ ++ [13],
        lit "\n\n", by decide, ?_⟩
      simp only [h₄, List.append_assoc]
      rfl
  · rcases List.map_eq_append_iff.mp h with ⟨m₀, n, rfl, -, hn⟩
    rcases List.map_eq_cons_iff.mp hn with ⟨p₁, n₁, rfl, hb₁, hn₁⟩
    rcases List.map_eq_cons_iff.mp hn₁ with ⟨p₂, n₂, rfl, hb₂, hn₂⟩
    rw [List.map_eq_nil_iff.mp hn₂] at hm ⊢
    have hframed : framed (m₀ ++ [p₁, p₂]) = framed m₀ ++ p₁.1 ++ [10] ++ p₂.1 ++ [10] := by
      rw [framed_append]
      simp only [framed, List.flatMap_cons, List.flatMap_nil, hb₁, hb₂, List.append_assoc,
        List.append_nil]
      rfl
    rw [hframed]
    rcases hm p₂ (List.mem_append_right _ (List.mem_cons_of_mem _ List.mem_cons_self)) with
      h₂ | ⟨l₂, h₂⟩
    · refine ⟨framed m₀ ++ p₁.1, lit "\n\n", by decide, ?_⟩
      simp only [h₂, List.append_nil, List.append_assoc]
      rfl
    · refine ⟨framed m₀ ++ p₁.1 ++ [10] ++ l₂ ++ [13], lit "\n\n", by decide, ?_⟩
      simp only [h₂, List.append_assoc]
      rfl

/-- What is left behind an event is blank, wherever the lines are. -/
theorem Lines.blank {m : Marked} (hm : m.Lines) (a b : Nat)
    (h : findDoubleNewline m.plain = some (a, b)) : Blank (scan (framed (m.take b))).2 := by
  have hsub : Lines (m.take b) := hm.of_subset (List.take_subset _ _)
  have hplain : plain (m.take b) = m.plain.take b := List.map_take
  rcases hsub.ends (m.plain.take a) (by rw [hplain]; exact findDoubleNewline_take _ a b h) with
    ⟨s, t, ht, hframed⟩
  rw [hframed]
  exact scan_leftover s t ht

theorem scan_partsFrom : ∀ (fuel : Nat) (m : Marked), m.length ≤ fuel → m.Lines → ∀ (z : Str),
    (scan (m.framed ++ z)).1 =
      ((m.partsFrom fuel).1.flatMap fun part => (scan (framed part)).1) ++
        (scan ((m.partsFrom fuel).2.framed ++ z)).1 := by
  intro fuel
  induction fuel with
  | zero =>
      intro m _ _ z
      rfl
  | succ fuel ih =>
      intro m hlen hm z
      rw [partsFrom]
      cases h : findDoubleNewline m.plain with
      | none => rfl
      | some p =>
          rcases p with ⟨a, b⟩
          have hb := findDoubleNewlineFrom_bounds m.plain 0 a b h
          have hrest := ih (m.drop b) (by rw [List.length_drop]; omega)
            (hm.of_subset (List.drop_subset _ _)) z
          have hsplit : m.framed ++ z = framed (m.take b) ++ (framed (m.drop b) ++ z) := by
            rw [← List.append_assoc, ← framed_append, List.take_append_drop]
          -- what is left behind this event does not matter for the next one
          rw [hsplit, scan_append, scan_blank _ _ (hm.blank a b h), hrest]
          simp only [List.flatMap_cons, List.append_assoc]

/-- The events of a text with lines put into it are those of its parts. -/
theorem scan_parts (m : Marked) (hm : m.Lines) (z : Str) :
    (scan (m.framed ++ z)).1 =
      (m.parts.1.flatMap fun part => (scan (framed part)).1) ++
        (scan (m.parts.2.framed ++ z)).1 :=
  scan_partsFrom m.length m (Nat.le_refl _) hm z

theorem partsFrom_bare : ∀ (fuel : Nat) (m : Marked),
    m.bare.partsFrom fuel = ((m.partsFrom fuel).1.map bare, (m.partsFrom fuel).2.bare) := by
  intro fuel
  induction fuel with
  | zero => intro m; rfl
  | succ fuel ih =>
      intro m
      rw [partsFrom, partsFrom, plain_bare]
      cases h : findDoubleNewline m.plain with
      | none => rfl
      | some p =>
          have hdrop : m.bare.drop p.2 = bare (m.drop p.2) := List.map_drop.symm
          have htake : m.bare.take p.2 = bare (m.take p.2) := List.map_take.symm
          simp only [hdrop, htake, ih, List.map_cons]

/-- The part behind the last event has none. -/
theorem partsFrom_rest : ∀ (fuel : Nat) (m : Marked), m.length ≤ fuel →
    findDoubleNewline (m.partsFrom fuel).2.plain = none := by
  intro fuel
  induction fuel with
  | zero =>
      intro m hlen
      rw [List.length_eq_zero_iff.mp (Nat.le_zero.mp hlen)]
      rfl
  | succ fuel ih =>
      intro m hlen
      rw [partsFrom]
      cases h : findDoubleNewline m.plain with
      | none => exact h
      | some p =>
          have hb := findDoubleNewlineFrom_bounds m.plain 0 p.1 p.2 h
          exact ih (m.drop p.2) (by rw [List.length_drop]; omega)

theorem parts_rest (m : Marked) : findDoubleNewline m.parts.2.plain = none :=
  partsFrom_rest m.length m (Nat.le_refl _)

/-- The events of the text itself. -/
theorem scan_plain (m : Marked) :
    (scan m.plain).1 = m.parts.1.flatMap fun part => (scan (plain part)).1 := by
  have h := scan_parts m.bare m.bare_lines []
  have hparts : m.bare.parts = (m.parts.1.map bare, m.parts.2.bare) := by
    rw [parts, parts, bare, List.length_map]
    exact partsFrom_bare m.length m
  rw [hparts] at h
  simp only [List.append_nil, framed_bare, List.flatMap_map] at h
  rw [h, SseParser.scan_none _ m.parts_rest, List.append_nil]

end Marked

end PrivacyClaw
