import Mathlib.Data.List.Basic

/-!
# Backtracking Regular Expressions

Regular expressions that are searched by trying alternatives in order.

What a matcher of this kind finds depends on the order of its choices: the first
branch of an alternative is preferred to the second, and a repetition to its own
end. So an expression denotes, for each position of a text, the list of the
positions where a match may end, the preferred one first, and a search takes
the head of the first list that has one.

A position is what stands before it, from right to left, and what stands after
it. That is enough to look around from it, and every position a match may end at
is reached by moving symbols over (`ends_moves`). The rules below turn
membership in the lists into statements about the parts of the matched text
(`Matches`), and being the head into statements about the first choices
(`First`).

## Main definitions

* `Regex`: Expressions over any symbols.
* `ends`: The positions a match may end at, in order of preference.
* `search`, `findIter`: The leftmost match, and all matches without overlaps.
* `Matches`, `First`: A text that is matched where it stands, and one that is
  the preferred match.
* `least`: How many symbols a match has at least.

## Theorems

* `ends_moves`: A match moves over a part of the text.
* `matches_cls`, `matches_seq`, `matches_alt`, `matches_rep_cls_imp`,
  `matches_rep_cls_exact`: The parts of what is matched.
* `Matches.rep_head`: What a repetition begins with.
* `First.seq`, `First.concat_cons`, `First.rep_cls`, `First.rep_cls_seq`: The
  preferred match from preferred parts.
* `first_of_unique`: The only match is the preferred one.
* `ends_nil_of_least`: Nothing is matched where too little is left.
* `search_moves`, `findFrom_moves`, `findIter_part`: What is found is a part of the text.
* `findIter_whole`: A text that is its own preferred match.
-/

/-- Expressions over a type of symbols. -/
inductive Regex (α : Type*) where
  | eps
  | cls (p : α → Bool)
  | seq (r s : Regex α)
  | alt (r s : Regex α)
  | rep (r : Regex α) (least : Nat) (most : Option Nat)
  | notBehind (p : α → Bool)
  | notAhead (r : Regex α)

namespace Regex

variable {α : Type*}

/-- What stands before a position, from right to left, and what after it. -/
abbrev Pos (α : Type*) := List α × List α

/-- Exactly `n` turns. -/
def times (f : Pos α → List (Pos α)) : Nat → Pos α → List (Pos α)
  | 0, p => [p]
  | n + 1, p => (f p).flatMap (times f n)

/-- At most `n` turns, as many as possible, each of which moves on. -/
def upTo (f : Pos α → List (Pos α)) : Nat → Pos α → List (Pos α)
  | 0, p => [p]
  | n + 1, p => ((f p).filter fun q => q.2.length < p.2.length).flatMap (upTo f n) ++ [p]

/-- The turns a repetition may go on for when the required ones are done. -/
def turns (least : Nat) (most : Option Nat) (p : Pos α) : Nat :=
  match most with
  | some n => n - least
  | none => p.2.length

/-- The positions a match may end at, in order of preference. -/
def ends : Regex α → Pos α → List (Pos α)
  | eps, p => [p]
  | cls c, p =>
    match p.2 with
    | x :: s => if c x then [(x :: p.1, s)] else []
    | [] => []
  | seq r s, p => (ends r p).flatMap (ends s)
  | alt r s, p => ends r p ++ ends s p
  -- a required turn may be empty, a further one has to move on
  | rep r least most, p =>
    (times (ends r) least p).flatMap fun q => upTo (ends r) (turns least most q) q
  | notBehind c, p => if p.1.head?.any c then [] else [p]
  | notAhead r, p => if (ends r p).isEmpty then [p] else []

/-- Expressions one after the other. -/
def concat : List (Regex α) → Regex α
  | [] => eps
  | r :: rs => seq r (concat rs)

/-- A fixed text. -/
def text [DecidableEq α] (s : List α) : Regex α := concat (s.map fun x => cls (· == x))

/-- An optional part, preferably there. -/
def opt (r : Regex α) : Regex α := rep r 0 (some 1)

/-- The leftmost match from a position on: where it starts and ends. -/
def search (r : Regex α) : List α → List α → Option (Pos α × Pos α)
  | b, [] => (ends r (b, [])).head?.map fun q => ((b, []), q)
  | b, x :: s =>
    match (ends r (b, x :: s)).head? with
    | some q => some ((b, x :: s), q)
    | none => search r (x :: b) s

/-- The matches from a position on, each behind the one before. An empty match is
    passed over. -/
def findFrom (r : Regex α) : Nat → Pos α → List (Pos α × Pos α)
  | 0, _ => []
  | fuel + 1, p =>
    match search r p.1 p.2 with
    | none => []
    | some (p, q) =>
      if q.2.length < p.2.length then (p, q) :: findFrom r fuel q
      -- behind an empty match the search goes on one symbol later
      else match q.2 with
        | [] => []
        | x :: s => findFrom r fuel (x :: q.1, s)

/-- All matches in a text, from left to right. -/
def findIter (r : Regex α) (s : List α) : List (Pos α × Pos α) := findFrom r (s.length + 1) ([], s)

/-- How many symbols a match has at least. -/
def least : Regex α → Nat
  | eps => 0
  | cls _ => 1
  | seq r s => r.least + s.least
  | alt r s => min r.least s.least
  | rep r n _ => n * r.least
  | notBehind _ => 0
  | notAhead _ => 0

/-- The text `w`, where it stands between `b` and `a`, is matched. -/
def Matches (r : Regex α) (b w a : List α) : Prop := (w.reverse ++ b, a) ∈ ends r (b, w ++ a)

/-- It is what the matcher prefers there. -/
def First (r : Regex α) (b w a : List α) : Prop :=
  (ends r (b, w ++ a)).head? = some (w.reverse ++ b, a)

instance [DecidableEq α] (r : Regex α) (b w a : List α) : Decidable (Matches r b w a) :=
  inferInstanceAs (Decidable (_ ∈ _))

-- a repetition prefers to go on
example : ends (rep (cls (· == 1)) 0 none) ([], [1, 1, 2]) =
    [([1, 1], [2]), ([1], [1, 2]), ([], [1, 1, 2])] := by
  simp [ends, times, upTo, turns]

/-- A position that is reached by moving over a part of the text. -/
def Moves (p q : Pos α) : Prop := ∃ w, p.2 = w ++ q.2 ∧ q.1 = w.reverse ++ p.1

theorem Moves.refl (p : Pos α) : Moves p p := ⟨[], rfl, rfl⟩

theorem Moves.trans {p q u : Pos α} (h : Moves p q) (h' : Moves q u) : Moves p u := by
  rcases h with ⟨w, hw, hb⟩
  rcases h' with ⟨w', hw', hb'⟩
  refine ⟨w ++ w', ?_, ?_⟩
  · rw [hw, hw', List.append_assoc]
  · rw [hb', hb, List.reverse_append, List.append_assoc]

theorem times_moves (f : Pos α → List (Pos α)) (hf : ∀ p, ∀ q ∈ f p, Moves p q) :
    ∀ n p, ∀ q ∈ times f n p, Moves p q := by
  intro n
  induction n with
  | zero =>
      intro p q hq
      rw [List.mem_singleton.mp hq]
      exact Moves.refl p
  | succ n ih =>
      intro p q hq
      rcases List.mem_flatMap.mp hq with ⟨u, hu, hq⟩
      exact (hf p u hu).trans (ih u q hq)

theorem upTo_moves (f : Pos α → List (Pos α)) (hf : ∀ p, ∀ q ∈ f p, Moves p q) :
    ∀ n p, ∀ q ∈ upTo f n p, Moves p q := by
  intro n
  induction n with
  | zero =>
      intro p q hq
      rw [List.mem_singleton.mp hq]
      exact Moves.refl p
  | succ n ih =>
      intro p q hq
      rcases List.mem_append.mp hq with hq | hq
      · rcases List.mem_flatMap.mp hq with ⟨u, hu, hq⟩
        exact (hf p u (List.mem_filter.mp hu).1).trans (ih u q hq)
      · rw [List.mem_singleton.mp hq]
        exact Moves.refl p

/-- A match moves over a part of the text. -/
theorem ends_moves (r : Regex α) : ∀ p, ∀ q ∈ ends r p, Moves p q := by
  induction r with
  | eps =>
      intro p q hq
      rw [List.mem_singleton.mp hq]
      exact Moves.refl p
  | cls c =>
      rintro ⟨b, s⟩ q hq
      cases s with
      | nil => exact absurd hq List.not_mem_nil
      | cons x s =>
          simp only [ends] at hq
          split at hq
          · rw [List.mem_singleton.mp hq]
            exact ⟨[x], rfl, rfl⟩
          · exact absurd hq List.not_mem_nil
  | seq r s ihr ihs =>
      intro p q hq
      rcases List.mem_flatMap.mp hq with ⟨u, hu, hq⟩
      exact (ihr p u hu).trans (ihs u q hq)
  | alt r s ihr ihs =>
      intro p q hq
      exact (List.mem_append.mp hq).elim (ihr p q) (ihs p q)
  | rep r n m ih =>
      intro p q hq
      rcases List.mem_flatMap.mp hq with ⟨u, hu, hq⟩
      exact (times_moves _ ih n p u hu).trans (upTo_moves _ ih _ u q hq)
  | notBehind c =>
      intro p q hq
      simp only [ends] at hq
      split at hq
      · exact absurd hq List.not_mem_nil
      · rw [List.mem_singleton.mp hq]
        exact Moves.refl p
  | notAhead r _ =>
      intro p q hq
      simp only [ends] at hq
      split at hq
      · rw [List.mem_singleton.mp hq]
        exact Moves.refl p
      · exact absurd hq List.not_mem_nil

/-- Two ways to write where a match ends. -/
theorem moves_iff (b w a : List α) (q : Pos α) (h : Moves (b, w ++ a) q) (h' : Moves q
    (w.reverse ++ b, a)) : ∃ u v, w = u ++ v ∧ q = (u.reverse ++ b, v ++ a) := by
  rcases h with ⟨u, hu, hb⟩
  rcases h' with ⟨v, hv, _⟩
  refine ⟨u, v, ?_, ?_⟩
  · rw [hv, ← List.append_assoc] at hu
    exact List.append_cancel_right hu
  · rw [← hb, ← hv]

/-- Only the empty text ends where it starts. -/
theorem stays_iff (b w a : List α) : (w.reverse ++ b, a) = (b, w ++ a) ↔ w = [] := by
  constructor
  · intro h
    have hlen := congrArg (fun p : Pos α => p.2.length) h
    simp only [List.length_append] at hlen
    exact List.length_eq_zero_iff.mp (by omega)
  · rintro rfl
    rfl

@[simp]
theorem matches_eps (b w a : List α) : Matches eps b w a ↔ w = [] := by
  rw [Matches, ends, List.mem_singleton, stays_iff]

@[simp]
theorem matches_cls (c : α → Bool) (b w a : List α) :
    Matches (cls c) b w a ↔ ∃ x, w = [x] ∧ c x = true := by
  constructor
  · -- what is left behind the match tells how much it took
    intro h
    rcases ends_moves _ _ _ h with ⟨v, hv, _⟩
    rw [List.append_cancel_right_eq] at hv
    subst hv
    unfold Matches at h
    cases w with
    | nil =>
        cases a with
        | nil => exact absurd h List.not_mem_nil
        | cons x a =>
            simp only [ends, List.nil_append] at h
            split at h
            · exact absurd (congrArg (fun p : Pos α => p.2.length) (List.mem_singleton.mp h))
                (by simp only [List.length_cons]; omega)
            · exact absurd h List.not_mem_nil
    | cons x w =>
        simp only [ends, List.cons_append] at h
        split at h
        next hx =>
          have hlen := congrArg (fun p : Pos α => p.2.length) (List.mem_singleton.mp h)
          simp only [List.length_append] at hlen
          have hw : w = [] := List.length_eq_zero_iff.mp (by omega)
          exact ⟨x, by rw [hw], hx⟩
        next => exact absurd h List.not_mem_nil
  · rintro ⟨x, rfl, hx⟩
    simp only [Matches, ends, List.singleton_append, hx, if_true, List.mem_singleton,
      List.reverse_singleton]

@[simp]
theorem matches_seq (r s : Regex α) (b w a : List α) : Matches (seq r s) b w a ↔
    ∃ u v, w = u ++ v ∧ Matches r b u (v ++ a) ∧ Matches s (u.reverse ++ b) v a := by
  constructor
  · intro h
    rcases List.mem_flatMap.mp h with ⟨q, hq, hend⟩
    rcases moves_iff b w a q (ends_moves r _ _ hq) (ends_moves s _ _ hend) with ⟨u, v, rfl, rfl⟩
    refine ⟨u, v, rfl, ?_, ?_⟩
    · rw [List.append_assoc] at hq
      exact hq
    · rw [List.reverse_append, List.append_assoc] at hend
      exact hend
  · rintro ⟨u, v, rfl, hr, hs⟩
    refine List.mem_flatMap.mpr ⟨(u.reverse ++ b, v ++ a), ?_, ?_⟩
    · rw [List.append_assoc]
      exact hr
    · rw [List.reverse_append, List.append_assoc]
      exact hs

@[simp]
theorem matches_alt (r s : Regex α) (b w a : List α) :
    Matches (alt r s) b w a ↔ Matches r b w a ∨ Matches s b w a := List.mem_append

@[simp]
theorem matches_notBehind (c : α → Bool) (b w a : List α) :
    Matches (notBehind c) b w a ↔ w = [] ∧ b.head?.any c = false := by
  unfold Matches ends
  by_cases hb : b.head?.any c = true
  · simp only [hb, if_true, List.not_mem_nil, Bool.true_eq_false, and_false]
  · simp only [hb, Bool.false_eq_true, if_false, List.mem_singleton, stays_iff, and_true]

@[simp]
theorem matches_notAhead (r : Regex α) (b w a : List α) :
    Matches (notAhead r) b w a ↔ w = [] ∧ ends r (b, a) = [] := by
  unfold Matches
  simp only [ends, List.isEmpty_iff]
  constructor
  · intro h
    split at h
    next he =>
      have hw : w = [] := (stays_iff b w a).mp (List.mem_singleton.mp h)
      subst hw
      exact ⟨rfl, he⟩
    next => exact absurd h List.not_mem_nil
  · rintro ⟨rfl, he⟩
    rw [List.nil_append, if_pos he]
    exact List.mem_singleton_self _

@[simp]
theorem matches_concat_nil (b w a : List α) : Matches (concat []) b w a ↔ w = [] :=
  matches_eps b w a

@[simp]
theorem matches_concat_cons (r : Regex α) (rs : List (Regex α)) (b w a : List α) :
    Matches (concat (r :: rs)) b w a ↔
      ∃ u v, w = u ++ v ∧ Matches r b u (v ++ a) ∧ Matches (concat rs) (u.reverse ++ b) v a :=
  matches_seq r (concat rs) b w a

@[simp]
theorem matches_text [DecidableEq α] (s : List α) : ∀ b w a : List α,
    Matches (text s) b w a ↔ w = s := by
  induction s with
  | nil => exact matches_concat_nil
  | cons x s ih =>
      intro b w a
      change Matches (seq (cls (· == x)) (text s)) b w a ↔ _
      simp only [matches_seq, matches_cls, beq_iff_eq, exists_eq_right, ih]
      constructor
      · rintro ⟨u, v, rfl, rfl, rfl⟩
        rfl
      · rintro rfl
        exact ⟨[x], s, rfl, rfl, rfl⟩

/-- The parts of a concatenation, one after the other. -/
theorem Matches.concat_cons {r : Regex α} {rs : List (Regex α)} {b u v a : List α}
    (hr : Matches r b u (v ++ a)) (hs : Matches (concat rs) (u.reverse ++ b) v a) :
    Matches (concat (r :: rs)) b (u ++ v) a := (matches_concat_cons ..).mpr ⟨u, v, rfl, hr, hs⟩

theorem Matches.concat_single {r : Regex α} {b w a : List α} (h : Matches r b w a) :
    Matches (concat [r]) b w a := by
  have hcons : Matches (concat [r]) b (w ++ []) a :=
    Matches.concat_cons h ((matches_concat_nil ..).mpr rfl)
  rwa [List.append_nil] at hcons

/-- A symbol of a class, taken in turn. -/
theorem times_cls (c : α → Bool) : ∀ (w : List α) (b a : List α), (∀ x ∈ w, c x = true) →
    times (ends (cls c)) w.length (b, w ++ a) = [(w.reverse ++ b, a)] := by
  intro w
  induction w with
  | nil => exact fun _ _ _ => rfl
  | cons x w ih =>
      intro b a hw
      rw [List.forall_mem_cons] at hw
      have hx : ends (cls c) (b, x :: w ++ a) = [(x :: b, w ++ a)] := by
        simp only [ends, List.cons_append, hw.1, if_true]
      rw [List.length_cons, times, hx, List.flatMap_singleton, ih _ _ hw.2, List.reverse_cons,
        List.append_assoc]
      rfl

/-- The required turns, at the front of a longer run. -/
theorem times_cls_take (c : α → Bool) (m : Nat) (w b a : List α) (hw : ∀ x ∈ w, c x = true)
    (hm : m ≤ w.length) : times (ends (cls c)) m (b, w ++ a) =
      [((w.take m).reverse ++ b, w.drop m ++ a)] := by
  have h := times_cls c (w.take m) b (w.drop m ++ a) fun x hx => hw x (List.mem_of_mem_take hx)
  rw [List.length_take, Nat.min_eq_left hm, ← List.append_assoc, List.take_append_drop] at h
  exact h

theorem mem_times_cls (c : α → Bool) : ∀ (n : Nat) (p q : Pos α), q ∈ times (ends (cls c)) n p →
    ∃ w, p.2 = w ++ q.2 ∧ q.1 = w.reverse ++ p.1 ∧ w.length = n ∧ ∀ x ∈ w, c x = true := by
  intro n
  induction n with
  | zero =>
      intro p q hq
      rw [List.mem_singleton.mp hq]
      exact ⟨[], rfl, rfl, rfl, fun x hx => absurd hx List.not_mem_nil⟩
  | succ n ih =>
      rintro ⟨b, s⟩ q hq
      rcases List.mem_flatMap.mp hq with ⟨u, hu, hturns⟩
      cases s with
      | nil => exact absurd hu List.not_mem_nil
      | cons x s =>
          simp only [ends] at hu
          split at hu
          next hx =>
            rw [List.mem_singleton.mp hu] at hturns
            rcases ih _ q hturns with ⟨w, h1, h2, hlen, hw⟩
            refine ⟨x :: w, ?_, ?_, ?_, List.forall_mem_cons.mpr ⟨hx, hw⟩⟩
            · exact congrArg (x :: ·) h1
            · rw [h2, List.reverse_cons, List.append_assoc]
              rfl
            · rw [List.length_cons, hlen]
          next => exact absurd hu List.not_mem_nil

theorem mem_upTo_cls (c : α → Bool) : ∀ (n : Nat) (p q : Pos α), q ∈ upTo (ends (cls c)) n p →
    ∃ w, p.2 = w ++ q.2 ∧ q.1 = w.reverse ++ p.1 ∧ w.length ≤ n ∧ ∀ x ∈ w, c x = true := by
  intro n
  induction n with
  | zero =>
      intro p q hq
      rw [List.mem_singleton.mp hq]
      exact ⟨[], rfl, rfl, Nat.le_refl _, fun x hx => absurd hx List.not_mem_nil⟩
  | succ n ih =>
      rintro ⟨b, s⟩ q hq
      rcases List.mem_append.mp hq with hq | hq
      · -- one more turn is a single required one
        rcases List.mem_flatMap.mp hq with ⟨u, hu, hq⟩
        rcases mem_times_cls c 1 (b, s) u (by
          rw [times]
          exact List.mem_flatMap.mpr ⟨u, (List.mem_filter.mp hu).1, List.mem_singleton_self u⟩)
          with ⟨v, hv1, hv2, hlen, hv⟩
        rcases ih u q hq with ⟨w, hw1, hw2, hwlen, hw⟩
        refine ⟨v ++ w, ?_, ?_, ?_, ?_⟩
        · rw [hv1, hw1, List.append_assoc]
        · rw [hw2, hv2, List.reverse_append, List.append_assoc]
        · rw [List.length_append]
          omega
        · intro x hx
          exact (List.mem_append.mp hx).elim (hv x) (hw x)
      · rw [List.mem_singleton.mp hq]
        exact ⟨[], rfl, rfl, Nat.zero_le _, fun x hx => absurd hx List.not_mem_nil⟩

/-- A turn of a class moves over one symbol, or the repetition ends here. -/
theorem upTo_cls_cons (c : α → Bool) (n : Nat) (b s : List α) (x : α) (hx : c x = true) :
    upTo (ends (cls c)) (n + 1) (b, x :: s) =
      upTo (ends (cls c)) n (x :: b, s) ++ [(b, x :: s)] := by
  have hends : ends (cls c) (b, x :: s) = [(x :: b, s)] := by
    simp only [ends, hx, if_true]
  have hkeep : ([(x :: b, s)].filter fun q : Pos α => q.2.length < (x :: s).length) =
      [(x :: b, s)] := by
    refine List.filter_eq_self.mpr ?_
    intro q hq
    rw [List.mem_singleton.mp hq, List.length_cons, decide_eq_true_eq]
    exact Nat.lt_succ_self _
  rw [upTo, hends, hkeep, List.flatMap_singleton]

/-- Where no symbol of the class follows there are no more turns. -/
theorem upTo_cls_stop (c : α → Bool) (n : Nat) (b a : List α) (hstop : a.head?.any c = false) :
    upTo (ends (cls c)) n (b, a) = [(b, a)] := by
  cases n with
  | zero => rfl
  | succ n =>
      have hnone : ends (cls c) (b, a) = [] := by
        cases a with
        | nil => rfl
        | cons x a =>
            have hx : c x = false := hstop
            simp only [ends, hx, Bool.false_eq_true, if_false]
      rw [upTo, hnone]
      rfl

/-- Greedily a class takes all there is, up to its bound. -/
theorem head_upTo_cls (c : α → Bool) : ∀ (w : List α) (n : Nat) (b a : List α),
    (∀ x ∈ w, c x = true) → w.length ≤ n → (w.length = n ∨ a.head?.any c = false) →
      (upTo (ends (cls c)) n (b, w ++ a)).head? = some (w.reverse ++ b, a) := by
  intro w
  induction w with
  | nil =>
      intro n b a _ _ hstop
      rcases hstop with hn | hstop
      · rw [← hn]
        rfl
      · rw [List.nil_append, upTo_cls_stop c n b a hstop]
        rfl
  | cons x w ih =>
      intro n b a hw hlen hstop
      rw [List.forall_mem_cons] at hw
      rw [List.length_cons] at hlen hstop
      cases n with
      | zero => exact absurd hlen (Nat.not_succ_le_zero _)
      | succ n =>
          -- the longer run stands in front in the list
          have htail := ih n (x :: b) a hw.2 (by omega) (hstop.imp_left fun h => by omega)
          rw [List.cons_append, upTo_cls_cons c n b _ x hw.1, List.head?_append, htail,
            List.reverse_cons, List.append_assoc]
          rfl

/-- What a class may give back, when nothing goes on from any place before. -/
theorem flatMap_upTo_cls (c : α → Bool) (f : Pos α → List (Pos α)) (z : List α)
    (hz : z.head?.any c = false) : ∀ (t : List α) (n : Nat) (b : List α), (∀ x ∈ t, c x = true) →
      t.length ≤ n →
      (∀ t₁ t₂, t = t₁ ++ t₂ → t₁ ≠ [] → f (t₁.reverse ++ b, t₂ ++ z) = []) →
      (upTo (ends (cls c)) n (b, t ++ z)).flatMap f = f (b, t ++ z) := by
  intro t
  induction t with
  | nil =>
      intro n b _ _ _
      rw [List.nil_append, upTo_cls_stop c n b z hz, List.flatMap_singleton]
  | cons x t ih =>
      intro n b ht hlen hback
      rw [List.forall_mem_cons] at ht
      rw [List.length_cons] at hlen
      cases n with
      | zero => exact absurd hlen (Nat.not_succ_le_zero _)
      | succ n =>
          -- places behind this symbol are places behind it in the shorter run
          have hnext : ∀ t₁ t₂, t = t₁ ++ t₂ → f (t₁.reverse ++ (x :: b), t₂ ++ z) = [] := by
            intro t₁ t₂ heq
            have h := hback (x :: t₁) t₂ (by rw [heq, List.cons_append]) (List.cons_ne_nil _ _)
            rwa [List.reverse_cons, List.append_assoc] at h
          rw [List.cons_append, upTo_cls_cons c n b _ x ht.1, List.flatMap_append,
            ih n (x :: b) ht.2 (by omega) fun t₁ t₂ heq _ => hnext t₁ t₂ heq, List.flatMap_singleton,
            show f (x :: b, t ++ z) = [] from hnext [] t rfl, List.nil_append]

/-- What a class keeps is no choice when it goes on behind it. -/
theorem head_flatMap_upTo_cls (c : α → Bool) (f : Pos α → List (Pos α)) (y : Pos α) :
    ∀ (u : List α) (n : Nat) (b s : List α), (∀ x ∈ u, c x = true) →
      ((upTo (ends (cls c)) n (u.reverse ++ b, s)).flatMap f).head? = some y →
      ((upTo (ends (cls c)) (u.length + n) (b, u ++ s)).flatMap f).head? = some y := by
  intro u
  induction u with
  | nil =>
      intro n b s _ h
      rw [List.length_nil, Nat.zero_add]
      exact h
  | cons x u ih =>
      intro n b s hu h
      rw [List.forall_mem_cons] at hu
      rw [List.reverse_cons, List.append_assoc] at h
      rw [List.length_cons, Nat.add_right_comm, List.cons_append,
        upTo_cls_cons c _ b _ x hu.1, List.flatMap_append, List.head?_append,
        ih n (x :: b) s hu.2 h, Option.some_or]

/-- What a repeated class matches, up to the number of turns. -/
theorem matches_rep_cls_imp (c : α → Bool) (m : Nat) (most : Option Nat) (b w a : List α)
    (h : Matches (rep (cls c) m most) b w a) :
    m ≤ w.length ∧ (∀ n, most = some n → w.length ≤ m + (n - m)) ∧ ∀ x ∈ w, c x = true := by
  rcases List.mem_flatMap.mp h with ⟨q, hq, hend⟩
  rcases mem_times_cls c m _ q hq with ⟨u, hu, hub, hlen, hcu⟩
  rcases mem_upTo_cls c _ q _ hend with ⟨v, hv, _, hmore, hcv⟩
  -- the required symbols and the further ones
  have hw : w = u ++ v := by
    dsimp only at hu hv
    rw [hv, ← List.append_assoc] at hu
    exact List.append_cancel_right hu
  refine ⟨by rw [hw, List.length_append]; omega, ?_, ?_⟩
  · rintro n rfl
    rw [hw, List.length_append]
    unfold turns at hmore
    dsimp only at hmore
    omega
  · intro x hx
    rw [hw] at hx
    exact (List.mem_append.mp hx).elim (hcu x) (hcv x)

/-- A fixed number of symbols of a class. -/
theorem matches_rep_cls_exact {c : α → Bool} {n : Nat} {b w a : List α}
    (h : Matches (rep (cls c) n (some n)) b w a) : w.length = n ∧ ∀ x ∈ w, c x = true := by
  rcases matches_rep_cls_imp c n (some n) b w a h with ⟨hlo, hhi, hw⟩
  have hmost := hhi n rfl
  exact ⟨by omega, hw⟩

theorem First.matches {r : Regex α} {b w a : List α} (h : First r b w a) : Matches r b w a :=
  List.mem_of_mem_head? h

theorem First.cls {c : α → Bool} {b a : List α} {x : α} (hx : c x = true) :
    First (cls c) b [x] a := by
  simp only [First, ends, List.singleton_append, hx, if_true, List.head?_cons,
    List.reverse_singleton]

/-- Preferred parts make up the preferred match. -/
theorem First.seq {r s : Regex α} {b u v a : List α} (hr : First r b u (v ++ a))
    (hs : First s (u.reverse ++ b) v a) : First (seq r s) b (u ++ v) a := by
  unfold First at hr hs ⊢
  rw [ends, List.append_assoc]
  cases h : ends r (b, u ++ (v ++ a)) with
  | nil =>
      rw [h] at hr
      exact absurd hr (by simp only [List.head?_nil, reduceCtorEq, not_false_eq_true])
  | cons q qs =>
      rw [h, List.head?_cons, Option.some.injEq] at hr
      rw [List.flatMap_cons, List.head?_append, hr, hs, Option.some_or, List.reverse_append,
        List.append_assoc]

/-- The parts of a concatenation, one after the other. -/
theorem First.concat_cons {r : Regex α} {rs : List (Regex α)} {b u v a : List α}
    (hr : First r b u (v ++ a)) (hs : First (concat rs) (u.reverse ++ b) v a) :
    First (concat (r :: rs)) b (u ++ v) a := First.seq hr hs

/-- A part that only looks around. -/
theorem First.concat_look {r : Regex α} {rs : List (Regex α)} {b w a : List α}
    (hr : First r b [] (w ++ a)) (hs : First (concat rs) b w a) :
    First (concat (r :: rs)) b w a := First.concat_cons hr hs

theorem First.concat_single {r : Regex α} {b w a : List α} (h : First r b w a) :
    First (concat [r]) b w a := by
  have hseq : First (concat [r]) b (w ++ []) a := First.concat_cons h rfl
  rwa [List.append_nil] at hseq

/-- The first branch is preferred. -/
theorem First.alt_left {r s : Regex α} {b w a : List α} (h : First r b w a) :
    First (alt r s) b w a := by
  unfold First at h ⊢
  rw [ends, List.head?_append, h, Option.some_or]

/-- A repeated class takes all there is, up to its bound. -/
theorem First.rep_cls {c : α → Bool} {m : Nat} {most : Option Nat} {b w a : List α}
    (hw : ∀ x ∈ w, c x = true) (hm : m ≤ w.length) (hmost : ∀ n, most = some n → w.length ≤ n)
    (hstop : most = some w.length ∨ a.head?.any c = false) :
    First (rep (Regex.cls c) m most) b w a := by
  have hsplit : w = w.take m ++ w.drop m := (List.take_append_drop m w).symm
  unfold First
  rw [ends, times_cls_take c m w b a hw hm, List.flatMap_singleton, head_upTo_cls c (w.drop m) _ _ a
    (fun x hx => hw x (List.mem_of_mem_drop hx)), ← List.append_assoc, ← List.reverse_append,
    ← hsplit]
  · rw [List.length_drop]
    cases most with
    | none =>
        change _ ≤ (w.drop m ++ a).length
        rw [List.length_append, List.length_drop]
        omega
    | some n =>
        have := hmost n rfl
        change _ ≤ n - m
        omega
  · refine hstop.imp_left ?_
    rintro rfl
    rw [List.length_drop]
    rfl

theorem First.rep_cls_exact {c : α → Bool} {n : Nat} {b w a : List α}
    (hw : ∀ x ∈ w, c x = true) (hlen : w.length = n) :
    First (rep (Regex.cls c) n (some n)) b w a := by
  refine First.rep_cls hw (Nat.le_of_eq hlen.symm) ?_ (Or.inl (by rw [hlen]))
  intro m hm
  rw [← Option.some.inj hm]
  exact Nat.le_of_eq hlen

/-- A repeated class gives back as little as lets the rest go on. -/
theorem First.rep_cls_seq {c : α → Bool} {m : Nat} {s : Regex α} {b u t z v a : List α}
    (hu : ∀ x ∈ u, c x = true) (hm : m ≤ u.length) (ht : ∀ x ∈ t, c x = true)
    (hz : z.head?.any c = false) (hv : v ++ a = t ++ z)
    (hback : ∀ t₁ t₂, t = t₁ ++ t₂ → t₁ ≠ [] →
      ends s (t₁.reverse ++ (u.reverse ++ b), t₂ ++ z) = [])
    (hs : First s (u.reverse ++ b) v a) :
    First (Regex.seq (rep (Regex.cls c) m none) s) b (u ++ v) a := by
  have hrest : (u.drop m).reverse ++ ((u.take m).reverse ++ b) = u.reverse ++ b := by
    rw [← List.append_assoc, ← List.reverse_append, List.take_append_drop]
  have hturns : turns m none ((u.take m).reverse ++ b, u.drop m ++ (v ++ a)) =
      (u.drop m).length + (t ++ z).length := by
    rw [turns, hv, List.length_append]
  -- of the run `t` behind `u` the class gives everything back
  have hgive := flatMap_upTo_cls c (ends s) z hz t (t ++ z).length (u.reverse ++ b) ht
    (by rw [List.length_append]; omega) hback
  unfold First at hs ⊢
  rw [ends, ends, List.append_assoc, times_cls_take c m u b _ hu hm, List.flatMap_singleton, hturns,
    head_flatMap_upTo_cls c (ends s) (v.reverse ++ (u.reverse ++ b), a) (u.drop m) _ _ _
      (fun x hx => hu x (List.mem_of_mem_drop hx)), List.reverse_append, List.append_assoc]
  rw [hrest, hv, hgive, ← hv]
  exact hs

/-- The only match is the preferred one. -/
theorem first_of_unique {r : Regex α} {b w a : List α} (h : Matches r b w a)
    (huniq : ∀ u v, u ++ v = w ++ a → Matches r b u v → u = w) : First r b w a := by
  unfold First
  cases he : ends r (b, w ++ a) with
  | nil =>
      rw [Matches, he] at h
      exact absurd h List.not_mem_nil
  | cons q qs =>
      have hq : q ∈ ends r (b, w ++ a) := he ▸ List.mem_cons_self
      rcases ends_moves r _ q hq with ⟨u, hu, hb⟩
      dsimp only at hu hb
      have hmatch : Matches r b u q.2 := by
        rw [Matches, ← hb, ← hu]
        exact hq
      have hw := huniq u q.2 hu.symm hmatch
      subst hw
      rw [List.head?_cons, Option.some.injEq, ← hb, List.append_cancel_left hu]

/-- A look around that succeeds takes nothing. -/
theorem First.notBehind {c : α → Bool} {b a : List α} (hb : b.head?.any c = false) :
    First (notBehind c) b [] a := by
  simp only [First, ends, List.nil_append, hb, Bool.false_eq_true, if_false, List.head?_cons,
    List.reverse_nil]

/-- Nothing ends where nothing that follows is matched. -/
theorem ends_nil_of_not_matches {r : Regex α} {b s : List α}
    (h : ∀ u v, s = u ++ v → ¬ Matches r b u v) : ends r (b, s) = [] := by
  refine List.eq_nil_iff_forall_not_mem.mpr fun q hq => ?_
  rcases ends_moves r _ q hq with ⟨u, hu, hb⟩
  dsimp only at hu hb
  refine h u q.2 hu ?_
  rw [Matches, ← hb, ← hu]
  exact hq

/-- Nothing of the kind follows. -/
theorem First.notAhead {r : Regex α} {b a : List α} (h : ends r (b, a) = []) :
    First (notAhead r) b [] a := by
  simp only [First, ends, List.nil_append, h, List.isEmpty_nil, if_true, List.head?_cons,
    List.reverse_nil]

theorem First.text [DecidableEq α] (s : List α) : ∀ b a : List α, First (text s) b s a := by
  induction s with
  | nil => exact fun _ _ => rfl
  | cons x s ih => exact fun b a => First.seq (First.cls (beq_self_eq_true x)) (ih (x :: b) a)

theorem matches_opt_cls (c : α → Bool) (b w a : List α) :
    Matches (opt (cls c)) b w a ↔ w = [] ∨ ∃ x, w = [x] ∧ c x = true := by
  constructor
  · intro h
    rcases matches_rep_cls_imp c 0 (some 1) b w a h with ⟨_, hmost, hw⟩
    have hlen := hmost 1 rfl
    rcases w with _ | ⟨x, _ | ⟨y, w⟩⟩
    · exact Or.inl rfl
    · exact Or.inr ⟨x, rfl, hw x List.mem_cons_self⟩
    · simp only [List.length_cons] at hlen
      omega
  · intro h
    have hends : ends (opt (cls c)) (b, w ++ a) = upTo (ends (cls c)) 1 (b, w ++ a) := by
      rw [opt, ends, times, List.flatMap_singleton, turns, Nat.sub_zero]
    rw [Matches, hends]
    rcases h with rfl | ⟨x, rfl, hx⟩
    · exact List.mem_append_right _ (List.mem_singleton_self _)
    · rw [List.singleton_append, upTo_cls_cons c 0 b a x hx]
      exact List.mem_append_left _ (List.mem_singleton_self _)

/-- What a repetition that is required begins with. -/
theorem Matches.rep_head {r : Regex α} {m : Nat} {most : Option Nat} {b w a : List α}
    (h : Matches (rep r (m + 1) most) b w a) : ∃ u v, w = u ++ v ∧ Matches r b u (v ++ a) := by
  rcases List.mem_flatMap.mp h with ⟨q, hq, hend⟩
  rcases List.mem_flatMap.mp hq with ⟨t, ht, hq⟩
  have hrest := (times_moves _ (ends_moves r) m t q hq).trans
    (upTo_moves _ (ends_moves r) _ q _ hend)
  rcases moves_iff b w a t (ends_moves r _ t ht) hrest with ⟨u, v, rfl, rfl⟩
  refine ⟨u, v, rfl, ?_⟩
  rw [List.append_assoc] at ht
  exact ht

theorem times_eq_concat (r : Regex α) : ∀ n p,
    times (ends r) n p = ends (concat (List.replicate n r)) p := by
  intro n
  induction n with
  | zero => exact fun _ => rfl
  | succ n ih =>
      intro p
      rw [times, List.replicate_succ, concat, ends]
      exact congrArg (fun f => (ends r p).flatMap f) (funext ih)

/-- A fixed number of turns is so many parts. -/
theorem matches_rep_exact (r : Regex α) (n : Nat) (b w a : List α) :
    Matches (rep r n (some n)) b w a ↔ Matches (concat (List.replicate n r)) b w a := by
  -- no turns are left when the required ones are done
  have hzero : ∀ q : Pos α, upTo (ends r) (turns n (some n) q) q = [q] := by
    intro q
    rw [turns, Nat.sub_self]
    rfl
  unfold Matches
  rw [ends, ← times_eq_concat, List.mem_flatMap]
  simp only [hzero, List.mem_singleton, exists_eq_right']

/-- A match leaves less than there was, by what it has at least. -/
theorem length_add_least_le (r : Regex α) : ∀ p, ∀ q ∈ ends r p,
    q.2.length + r.least ≤ p.2.length := by
  have hmove : ∀ {p q : Pos α}, Moves p q → q.2.length ≤ p.2.length := by
    rintro p q ⟨w, hw, _⟩
    rw [hw, List.length_append]
    omega
  induction r with
  | eps => exact fun p q hq => hmove (ends_moves _ p q hq)
  | notBehind c => exact fun p q hq => hmove (ends_moves _ p q hq)
  | notAhead r _ => exact fun p q hq => hmove (ends_moves _ p q hq)
  | cls c =>
      rintro ⟨b, s⟩ q hq
      cases s with
      | nil => exact absurd hq List.not_mem_nil
      | cons x s =>
          simp only [ends] at hq
          split at hq
          · rw [List.mem_singleton.mp hq]
            exact Nat.le_refl _
          · exact absurd hq List.not_mem_nil
  | seq r s ihr ihs =>
      intro p q hq
      rcases List.mem_flatMap.mp hq with ⟨u, hu, hq⟩
      have h1 := ihr p u hu
      have h2 := ihs u q hq
      rw [least]
      omega
  | alt r s ihr ihs =>
      intro p q hq
      rw [least]
      rcases List.mem_append.mp hq with hq | hq
      · have := ihr p q hq
        omega
      · have := ihs p q hq
        omega
  | rep r n m ih =>
      -- each required turn takes its share
      have htimes : ∀ n p, ∀ q ∈ times (ends r) n p,
          q.2.length + n * r.least ≤ p.2.length := by
        intro n
        induction n with
        | zero =>
            intro p q hq
            rw [List.mem_singleton.mp hq, Nat.zero_mul]
            exact Nat.le_refl _
        | succ n ihn =>
            intro p q hq
            rcases List.mem_flatMap.mp hq with ⟨u, hu, hq⟩
            have h1 := ih p u hu
            have h2 := ihn u q hq
            rw [Nat.succ_mul]
            omega
      intro p q hq
      rcases List.mem_flatMap.mp hq with ⟨u, hu, hq⟩
      have h1 := htimes n p u hu
      have h2 := hmove (upTo_moves _ (ends_moves r) _ u q hq)
      rw [least]
      omega

/-- Nothing is matched where nothing is left. -/
theorem ends_nil_of_least (r : Regex α) (hr : 0 < r.least) (b : List α) : ends r (b, []) = [] := by
  refine List.eq_nil_iff_forall_not_mem.mpr fun q hq => ?_
  have := length_add_least_le r (b, []) q hq
  rw [List.length_nil] at this
  omega

theorem search_of_first {r : Regex α} {b w a : List α} (h : First r b w a) :
    search r b (w ++ a) = some ((b, w ++ a), (w.reverse ++ b, a)) := by
  unfold First at h
  cases hs : w ++ a with
  | nil =>
      rw [hs] at h
      rw [search, h, Option.map_some]
  | cons x s =>
      rw [hs] at h
      rw [search, h]

/-- A search goes forward to where its match begins. -/
theorem search_moves (r : Regex α) : ∀ (s b : List α) (p q : Pos α), search r b s = some (p, q) →
    Moves (b, s) p ∧ q ∈ ends r p := by
  intro s
  induction s with
  | nil =>
      intro b p q h
      rw [search, Option.map_eq_some_iff] at h
      rcases h with ⟨u, hu, he⟩
      rcases Prod.mk.inj he with ⟨rfl, rfl⟩
      exact ⟨Moves.refl _, List.mem_of_head? hu⟩
  | cons x s ih =>
      intro b p q h
      rw [search] at h
      cases hhead : (ends r (b, x :: s)).head? with
      | some u =>
          rw [hhead] at h
          rcases Prod.mk.inj (Option.some.inj h) with ⟨rfl, rfl⟩
          exact ⟨Moves.refl _, List.mem_of_head? hhead⟩
      | none =>
          rw [hhead] at h
          rcases ih (x :: b) p q h with ⟨hmove, hq⟩
          exact ⟨Moves.trans ⟨[x], rfl, rfl⟩ hmove, hq⟩

/-- So does every further one. -/
theorem findFrom_moves (r : Regex α) : ∀ (fuel : Nat) (p : Pos α), ∀ m ∈ findFrom r fuel p,
    Moves p m.1 ∧ m.2 ∈ ends r m.1 := by
  intro fuel
  induction fuel with
  | zero => exact fun _ _ hm => absurd hm List.not_mem_nil
  | succ fuel ih =>
      intro p m hm
      rw [findFrom] at hm
      cases hs : search r p.1 p.2 with
      | none =>
          rw [hs] at hm
          exact absurd hm List.not_mem_nil
      | some pq =>
          rcases pq with ⟨u, q⟩
          rcases search_moves r p.2 p.1 u q hs with ⟨hmove, hq⟩
          have hend := hmove.trans (ends_moves r u q hq)
          rw [hs] at hm
          dsimp only at hm
          split at hm
          · rcases List.mem_cons.mp hm with rfl | hm
            · exact ⟨hmove, hq⟩
            · exact ⟨hend.trans (ih q m hm).1, (ih q m hm).2⟩
          · split at hm
            · exact absurd hm List.not_mem_nil
            · rename_i x s hrest
              have hstep : Moves q (x :: q.1, s) := ⟨[x], hrest, rfl⟩
              exact ⟨(hend.trans hstep).trans (ih _ m hm).1, (ih _ m hm).2⟩

/-- What is found in a text is a part of it, of the least length at least. -/
theorem findIter_part (r : Regex α) (s : List α) : ∀ m ∈ findIter r s, ∃ b w a,
    s = b ++ w ++ a ∧ m.1.1.reverse = b ∧ m.2.1.reverse = b ++ w ∧ r.least ≤ w.length := by
  rintro ⟨p, q⟩ hm
  rcases findFrom_moves r _ _ _ hm with ⟨⟨b, hs, hb⟩, hq⟩
  have hleast := length_add_least_le r p q hq
  rcases ends_moves r p q hq with ⟨w, hw, hback⟩
  have hbefore : p.1.reverse = b := by
    rw [hb, List.append_nil, List.reverse_reverse]
  refine ⟨b, w, q.2, ?_, hbefore, ?_, ?_⟩
  · rw [List.append_assoc, ← hw]
    exact hs
  · rw [hback, List.reverse_append, List.reverse_reverse, hbefore]
  · rw [hw, List.length_append] at hleast
    omega

/-- A text that is its own preferred match is the only match in it. -/
theorem findIter_whole (r : Regex α) (w : List α) (hr : 0 < r.least) (h : First r [] w []) :
    findIter r w = [(([], w), (w.reverse, []))] := by
  have hw : 0 < w.length := by
    have := length_add_least_le r _ _ h.matches
    simp only [List.append_nil, List.length_nil] at this
    omega
  have hsearch := search_of_first h
  rw [List.append_nil, List.append_nil] at hsearch
  -- behind the text there is no second match
  have hnone : search r w.reverse [] = none := by
    rw [search, ends_nil_of_least r hr]
    rfl
  rw [findIter, findFrom, hsearch]
  dsimp only
  rw [if_pos (by rw [List.length_nil]; exact hw)]
  congr 1
  rcases List.exists_cons_of_length_pos hw with ⟨x, s, rfl⟩
  rw [List.length_cons, findFrom, hnone]

end Regex
