import Mathlib.Data.List.Nodup

/-!
# Leftmost-Longest Replacement

Multi-pattern search with leftmost-longest semantics, and replacement of what
it finds.

A search automaton built for this match kind reports non-overlapping matches
from left to right: at the leftmost position where some key matches it takes
the longest key, the first listed among equals, and goes on after the match.
`pieces` is that list of reports, interleaved with the symbols no match
covers, so a text is read once and every later question is asked of the
pieces. An empty key matches at every position except directly behind
another match, which is the convention automaton libraries follow.

The results that carry the streaming arguments are about cuts. However a text
is cut in two, the first part ends in at most one unfinished match
(`pieces_cut`), and up to there the scan of the whole and the scan of the
part agree. A text in which no key occurs is its own replacement
(`replaceAll_eq_self`).

## Main definitions

* `longestAt`: The longest key matching at the front of a list.
* `Piece`: An uncovered symbol, or a match given by its key's index.
* `pieces`: The matches of a text and the symbols between them.
* `replaceAll`: The text with every match replaced.
* `Piece.source`, `cuts`: What a piece stands for, and where the matches are.
* `overhang`: The part of a text under a match that runs over its end.

## Theorems

* `longestAt_eq_none_iff`: No key stands at the front.
* `longestAt_eq_some`: The key reported stands at the front and is longest.
* `longestAt_of_first`: A longest key is reported at its first place.
* `source_pieces`: The pieces stand for the text.
* `pieces_lit`, `pieces_hit`: The scanner's two moves.
* `pieces_induction`: Induction along the scan.
* `pieces_append_left`: Symbols at which no key starts pass through.
* `pieces_cut`: Cutting a text splits its scan into a finished part and the
  beginning of at most one match.
* `eq_of_pieces_lit`: A scan without matches has passed the text itself.
* `replaceAll_eq_self_of_hits`, `hits_of_replaceAll_eq_self`: A text is left
  alone when its matches stand for themselves, and only then if none of them
  shrinks.
* `replaceAll_eq_self`: A text holding no key is left alone.
* `pieces_key`, `replaceAll_key`: A key is replaced by the value of its first
  place.
-/

namespace Leftmost

variable {α : Type*} [DecidableEq α]

/-- The index and length of the longest key at the front of `s`, counting
    keys from `i`; the first listed wins among equals. -/
def longestFrom : Nat → List (List α) → List α → Option (Nat × Nat)
  | _, [], _ => none
  | i, k :: ks, s =>
    match longestFrom (i + 1) ks s with
    | some (j, n) => if k.isPrefixOf s ∧ n ≤ k.length then some (i, k.length) else some (j, n)
    | none => if k.isPrefixOf s then some (i, k.length) else none

/-- The index and length of the longest key at the front of `s`. -/
def longestAt (keys : List (List α)) (s : List α) : Option (Nat × Nat) :=
  longestFrom 0 keys s

theorem longestFrom_eq_none_iff (keys : List (List α)) (s : List α) : ∀ i,
    longestFrom i keys s = none ↔ ∀ k ∈ keys, ¬ k <+: s := by
  induction keys with
  | nil => intro i; simp only [longestFrom, List.not_mem_nil, false_imp_iff, implies_true]
  | cons k ks ih =>
      intro i
      simp only [longestFrom, List.isPrefixOf_iff_prefix, List.mem_cons, forall_eq_or_imp]
      cases h : longestFrom (i + 1) ks s with
      | none =>
          have hks := (ih (i + 1)).mp h
          by_cases hk : k <+: s
          · simp only [hk, if_true, reduceCtorEq, not_true_eq_false, false_and]
          · simp only [hk, if_false, not_false_eq_true, true_and]
            exact ⟨fun _ => hks, fun _ => trivial⟩
      -- A key further on matches, so neither side says none.
      | some p =>
          have hks : ¬ ∀ k ∈ ks, ¬ k <+: s := by
            intro hall
            rw [(ih (i + 1)).mpr hall] at h
            simp only [reduceCtorEq] at h
          simp only []
          split
          · simp only [reduceCtorEq, false_iff]
            exact fun hall => hks hall.2
          · simp only [reduceCtorEq, false_iff]
            exact fun hall => hks hall.2

/-- A reported key is listed, stands at the front, is at least as long as any
    other key there, and is the first of its length. -/
theorem longestFrom_eq_some (keys : List (List α)) (s : List α) : ∀ i j n,
    longestFrom i keys s = some (j, n) →
    ∃ m k, j = i + m ∧ keys[m]? = some k ∧ k.length = n ∧ k <+: s ∧
      (∀ k' ∈ keys, k' <+: s → k'.length ≤ n) ∧
      ∀ m' k', m' < m → keys[m']? = some k' → k' <+: s → k'.length < n := by
  induction keys with
  | nil => intro i j n h; simp only [longestFrom, reduceCtorEq] at h
  | cons k ks ih =>
      intro i j n h
      simp only [longestFrom, List.isPrefixOf_iff_prefix] at h
      cases hrest : longestFrom (i + 1) ks s with
      | none =>
          -- No later key fits, so the first one is reported if it fits.
          have hks := (longestFrom_eq_none_iff ks s (i + 1)).mp hrest
          rw [hrest] at h
          by_cases hk : k <+: s
          · simp only [hk, if_true, Option.some.injEq, Prod.mk.injEq] at h
            refine ⟨0, k, by omega, rfl, h.2, hk, ?_, fun m' _ hm' => absurd hm' (by omega)⟩
            intro k' hk' hpre
            rcases List.mem_cons.mp hk' with rfl | hmem
            · omega
            · exact absurd hpre (hks k' hmem)
          · simp only [hk, if_false, reduceCtorEq] at h
      | some p =>
          rcases p with ⟨j', n'⟩
          rcases ih (i + 1) j' n' hrest with ⟨m, k₀, hj', hget, hlen, hpre₀, hmax, hfirst⟩
          rw [hrest] at h
          simp only [] at h
          -- The first key wins over an equally long later one.
          by_cases hk : k <+: s ∧ n' ≤ k.length
          · simp only [hk, and_self, if_true, Option.some.injEq, Prod.mk.injEq] at h
            refine ⟨0, k, by omega, rfl, h.2, hk.1, ?_, fun m' _ hm' => absurd hm' (by omega)⟩
            intro k' hk' hpre
            rcases List.mem_cons.mp hk' with rfl | hmem
            · omega
            · have := hmax k' hmem hpre
              omega
          · rw [if_neg hk] at h
            simp only [Option.some.injEq, Prod.mk.injEq] at h
            refine ⟨m + 1, k₀, by omega, by simpa only [List.getElem?_cons_succ] using hget,
              by omega, hpre₀, ?_, ?_⟩
            · intro k' hk' hpre
              rcases List.mem_cons.mp hk' with rfl | hmem
              · by_contra hc
                exact hk ⟨hpre, by omega⟩
              · have := hmax k' hmem hpre
                omega
            · intro m' k' hm' hget' hpre
              cases m' with
              | zero =>
                  simp only [List.getElem?_cons_zero, Option.some.injEq] at hget'
                  subst hget'
                  by_contra hc
                  exact hk ⟨hpre, by omega⟩
              | succ m' =>
                  simp only [List.getElem?_cons_succ] at hget'
                  have := hfirst m' k' (by omega) hget' hpre
                  omega

theorem longestAt_eq_none_iff (keys : List (List α)) (s : List α) :
    longestAt keys s = none ↔ ∀ k ∈ keys, ¬ k <+: s :=
  longestFrom_eq_none_iff keys s 0

/-- A reported key is listed, stands at the front and is longest there. -/
theorem longestAt_eq_some (keys : List (List α)) (s : List α) (i n : Nat)
    (h : longestAt keys s = some (i, n)) :
    ∃ k, keys[i]? = some k ∧ k.length = n ∧ k <+: s ∧
      ∀ k' ∈ keys, k' <+: s → k'.length ≤ n := by
  rcases longestFrom_eq_some keys s 0 i n h with ⟨m, k, hj, hget, hlen, hpre, hmax, -⟩
  refine ⟨k, ?_, hlen, hpre, hmax⟩
  rw [hj, Nat.zero_add]
  exact hget

/-- A key standing at the front, longest there and not listed earlier, is the
    one reported. -/
theorem longestAt_of_first (keys : List (List α)) (s k : List α) (i : Nat)
    (hget : keys[i]? = some k) (hpre : k <+: s)
    (hmax : ∀ k' ∈ keys, k' <+: s → k'.length ≤ k.length)
    (hfirst : ∀ j, j < i → keys[j]? ≠ some k) : longestAt keys s = some (i, k.length) := by
  have hmem : k ∈ keys := List.mem_of_getElem? hget
  cases h : longestAt keys s with
  | none => exact absurd hpre ((longestAt_eq_none_iff keys s).mp h k hmem)
  | some p =>
      rcases p with ⟨j, n⟩
      rcases longestFrom_eq_some keys s 0 j n h with ⟨m, k', hj, hget', hlen', hpre', hmax', hfst'⟩
      have hle : k'.length ≤ k.length := hmax k' (List.mem_of_getElem? hget') hpre'
      have hge : k.length ≤ k'.length := by rw [hlen']; exact hmax' k hmem hpre
      -- Two prefixes of one list with equal length are equal.
      have hkk : k' = k :=
        (List.prefix_of_prefix_length_le hpre' hpre hle).eq_of_length (by omega)
      subst hkk
      -- Both are the first place of that key.
      have h1 : ¬ i < m := fun hlt => by
        have := hfst' i k' hlt hget hpre
        omega
      have h2 : ¬ m < i := fun hlt => hfirst m hlt hget'
      rw [Option.some.injEq, Prod.mk.injEq]
      omega

/-- An uncovered symbol, or a match given by the index of its key. -/
inductive Piece (α : Type*) where
  | lit (c : α)
  | hit (i : Nat)
  deriving DecidableEq, Repr

/-- The scan: `skip` symbols of the current match are still to be passed, and
    `after` says that a match ended at this very position. -/
def piecesFrom (keys : List (List α)) : Nat → Bool → List α → List (Piece α)
  | _, after, [] =>
    match longestAt keys [] with
    | some (i, _) => if after then [] else [.hit i]
    | none => []
  | skip + 1, _, _ :: s => piecesFrom keys skip true s
  | 0, after, c :: s =>
    match longestAt keys (c :: s) with
    | some (i, n + 1) => .hit i :: piecesFrom keys n true s
    | some (i, 0) =>
      if after then .lit c :: piecesFrom keys 0 false s
      else .hit i :: .lit c :: piecesFrom keys 0 false s
    | none => .lit c :: piecesFrom keys 0 false s

/-- The matches of a text and the symbols between them, in order. -/
def pieces (keys : List (List α)) (s : List α) : List (Piece α) :=
  piecesFrom keys 0 false s

/-- What a piece contributes when match `i` is replaced by `val i`. -/
def Piece.render (val : Nat → List α) : Piece α → List α
  | .lit c => [c]
  | .hit i => val i

/-- The text with every match of `keys` replaced by its value. -/
def replaceAll (keys : List (List α)) (val : Nat → List α) (s : List α) : List α :=
  (pieces keys s).flatMap (Piece.render val)

/-- The text that a piece stands for. -/
def Piece.source (keys : List (List α)) : Piece α → List α
  | .lit c => [c]
  | .hit i => keys.getD i []

/-- Where the matches among the pieces begin and end, for pieces from `pos` on. -/
def cuts (keys : List (List α)) : Nat → List (Piece α) → List Nat
  | _, [] => []
  | pos, .lit _ :: ps => cuts keys (pos + 1) ps
  | pos, .hit i :: ps =>
    pos :: (pos + (keys.getD i []).length) :: cuts keys (pos + (keys.getD i []).length) ps

/-- The search for what hangs over: `skip` symbols of the current match are
    still to be passed. -/
def overhangFrom (keys : List (List α)) : Nat → List α → List α → List α
  | _, [], _ => []
  | skip + 1, _ :: y, r => overhangFrom keys skip y r
  | 0, c :: y, r =>
    match longestAt keys (c :: (y ++ r)) with
    | some (_, n + 1) => if n ≤ y.length then overhangFrom keys n y r else c :: y
    | _ => overhangFrom keys 0 y r

/-- The part of `y` under the match of `y ++ r` that runs over the seam. -/
def overhang (keys : List (List α)) (y r : List α) : List α := overhangFrom keys 0 y r

-- the longer of two keys with a common beginning, and a match that runs over a seam
example : pieces [[1], [1, 2]] [0, 1, 2] = [.lit 0, .hit 1] := by
  simp [pieces, piecesFrom, longestAt, longestFrom]

example : overhang [[1, 2]] [0, 1] [2] = [1] := by
  simp [overhang, overhangFrom, longestAt, longestFrom]

/-- The reported key is what stands at the front. -/
theorem getD_of_longestAt (keys : List (List α)) (s : List α) (i n : Nat)
    (h : longestAt keys s = some (i, n)) : keys.getD i [] = s.take n ∧ n ≤ s.length := by
  rcases longestAt_eq_some keys s i n h with ⟨k, hget, rfl, hpre, -⟩
  rw [List.getD_eq_getElem?_getD, hget, Option.getD_some]
  exact ⟨List.prefix_iff_eq_take.mp hpre, hpre.length_le⟩

theorem source_piecesFrom (keys : List (List α)) : ∀ (s : List α) (skip : Nat) (after : Bool),
    skip ≤ s.length → (piecesFrom keys skip after s).flatMap (Piece.source keys) = s.drop skip := by
  intro s
  induction s with
  | nil =>
      intro skip after hskip
      rw [piecesFrom, List.drop_nil]
      cases h : longestAt keys ([] : List α) with
      | none => rfl
      | some p =>
          have hkey := (getD_of_longestAt keys [] p.1 p.2 h).1
          dsimp only
          cases after with
          | true => rfl
          | false =>
              rw [if_neg Bool.false_ne_true, List.flatMap_cons, List.flatMap_nil, List.append_nil,
                Piece.source, hkey, List.take_nil]
  | cons c s ih =>
      intro skip after hskip
      cases skip with
      | succ skip =>
          rw [piecesFrom, List.drop_succ_cons]
          exact ih skip true (Nat.le_of_succ_le_succ hskip)
      | zero =>
          have hrest := ih 0 false (Nat.zero_le _)
          rw [List.drop_zero] at hrest
          rw [piecesFrom, List.drop_zero]
          cases h : longestAt keys (c :: s) with
          | none =>
              dsimp only
              rw [List.flatMap_cons, hrest]
              rfl
          | some p =>
              rcases p with ⟨i, n⟩
              have hkey := getD_of_longestAt keys _ i n h
              cases n with
              | succ n =>
                  dsimp only
                  rw [List.flatMap_cons, ih n true (Nat.le_of_succ_le_succ hkey.2), Piece.source,
                    hkey.1, List.take_succ_cons, List.cons_append, List.take_append_drop]
              | zero =>
                  -- an empty match stands for nothing, and the symbol passes
                  have hlit : (Piece.lit c :: piecesFrom keys 0 false s).flatMap
                      (Piece.source keys) = c :: s := by
                    rw [List.flatMap_cons, hrest]
                    rfl
                  dsimp only
                  split
                  · exact hlit
                  · rw [List.flatMap_cons, hlit, Piece.source, hkey.1, List.take_zero,
                      List.nil_append]

/-- The pieces stand for the text. -/
theorem source_pieces (keys : List (List α)) (s : List α) :
    (pieces keys s).flatMap (Piece.source keys) = s :=
  source_piecesFrom keys s 0 false (Nat.zero_le _)

section NonemptyKeys

variable {keys : List (List α)} (hne : ∀ k ∈ keys, k ≠ [])
include hne

theorem longestAt_nil : longestAt keys [] = none := by
  rw [longestAt_eq_none_iff]
  intro k hk hpre
  exact hne k hk (List.prefix_nil.mp hpre)

theorem longestAt_pos {s : List α} {i n : Nat} (h : longestAt keys s = some (i, n)) : 0 < n := by
  rcases longestAt_eq_some keys s i n h with ⟨k, hget, hlen, -, -⟩
  have := List.length_pos_of_ne_nil (hne k (List.mem_of_getElem? hget))
  omega

/-- Without an empty key it does not matter whether a match has just ended. -/
theorem piecesFrom_after (s : List α) : piecesFrom keys 0 true s = piecesFrom keys 0 false s := by
  cases s with
  | nil => simp only [piecesFrom, longestAt_nil hne]
  | cons c s =>
      simp only [piecesFrom]
      cases h : longestAt keys (c :: s) with
      | none => rfl
      | some p =>
          rcases p with ⟨i, n⟩
          cases n with
          | zero => exact absurd (longestAt_pos hne h) (by omega)
          | succ n => rfl

theorem piecesFrom_skip : ∀ (n : Nat) (s : List α), n ≤ s.length →
    piecesFrom keys n true s = pieces keys (s.drop n) := by
  intro n
  induction n with
  | zero => intro s _; exact piecesFrom_after hne s
  | succ n ih =>
      intro s hs
      cases s with
      | nil => simp only [List.length_nil] at hs; omega
      | cons c s =>
          simp only [List.length_cons] at hs
          simp only [piecesFrom, List.drop_succ_cons]
          exact ih s (by omega)

theorem pieces_nil : pieces keys [] = [] := by
  simp only [pieces, piecesFrom, longestAt_nil hne]

omit hne in
/-- Where no key matches the scan passes one symbol. -/
theorem pieces_lit (c : α) (s : List α) (h : longestAt keys (c :: s) = none) :
    pieces keys (c :: s) = .lit c :: pieces keys s := by
  simp only [pieces, piecesFrom, h]

/-- Where a key matches the scan reports it and goes on behind it. -/
theorem pieces_hit (s : List α) (i n : Nat) (h : longestAt keys s = some (i, n)) :
    pieces keys s = .hit i :: pieces keys (s.drop n) := by
  have hpos := longestAt_pos hne h
  rcases longestAt_eq_some keys s i n h with ⟨k, -, hlen, hpre, -⟩
  have hle : n ≤ s.length := by rw [← hlen]; exact hpre.length_le
  cases s with
  | nil => simp only [List.length_nil] at hle; omega
  | cons c s =>
      cases n with
      | zero => omega
      | succ n =>
          simp only [List.length_cons] at hle
          simp only [pieces, piecesFrom, h, List.drop_succ_cons]
          exact congrArg _ (piecesFrom_skip hne n s (by omega))

/-- Induction along the scan: one case per move. -/
theorem pieces_induction {P : List α → Prop} (hnil : P [])
    (hlit : ∀ c s, longestAt keys (c :: s) = none → P s → P (c :: s))
    (hhit : ∀ s i n, longestAt keys s = some (i, n) → P (s.drop n) → P s) (s : List α) : P s := by
  induction hlen : s.length using Nat.strongRecOn generalizing s with
  | ind len ih =>
      cases s with
      | nil => exact hnil
      | cons c s =>
          simp only [List.length_cons] at hlen
          cases h : longestAt keys (c :: s) with
          | none => exact hlit c s h (ih s.length (by omega) s rfl)
          | some p =>
              rcases p with ⟨i, n⟩
              have hpos := longestAt_pos hne h
              refine hhit _ i n h (ih _ ?_ _ rfl)
              simp only [List.length_drop, List.length_cons]
              omega

omit hne in
/-- Symbols at which no key starts pass through the scan. -/
theorem pieces_append_left : ∀ (u s : List α),
    (∀ q, q < u.length → ∀ k ∈ keys, ¬ k <+: (u ++ s).drop q) →
    pieces keys (u ++ s) = u.map .lit ++ pieces keys s := by
  intro u
  induction u with
  | nil => intro s _; rfl
  | cons c u ih =>
      intro s h
      have hnone : longestAt keys (c :: (u ++ s)) = none := by
        rw [longestAt_eq_none_iff]
        exact h 0 (by simp only [List.length_cons]; omega)
      have hrec := ih s (fun q hq => h (q + 1) (by simp only [List.length_cons]; omega))
      simp only [List.cons_append, List.map_cons]
      rw [pieces_lit c _ hnone, hrec]

/-- A text in which no key occurs has no matches. -/
theorem pieces_of_not_infix (s : List α) (h : ∀ k ∈ keys, ¬ k <:+: s) :
    pieces keys s = s.map .lit := by
  have hs := pieces_append_left s [] (fun q _ k hk hpre => by
    rw [List.append_nil] at hpre
    exact h k hk (hpre.isInfix.trans (List.drop_suffix q s).isInfix))
  rw [List.append_nil, pieces_nil hne, List.append_nil] at hs
  exact hs

omit hne in
/-- A key reported for `y ++ r` that ends inside `y` is reported for `y`. -/
theorem longestAt_of_append (y r : List α) (i n : Nat)
    (h : longestAt keys (y ++ r) = some (i, n)) (hn : n ≤ y.length) :
    longestAt keys y = some (i, n) := by
  rcases longestFrom_eq_some keys _ 0 i n h with ⟨m, k, hi, hget, hlen, hpre, hmax, hfirst⟩
  have hky : k <+: y :=
    List.prefix_of_prefix_length_le hpre (List.prefix_append _ _) (by omega)
  have hmem : k ∈ keys := List.mem_of_getElem? hget
  cases hy : longestAt keys y with
  | none => exact absurd hky ((longestAt_eq_none_iff keys y).mp hy k hmem)
  | some p =>
      rcases p with ⟨j, n'⟩
      rcases longestFrom_eq_some keys y 0 j n' hy with ⟨m', k', hj, hget', hlen', hpre', hmax', hfirst'⟩
      have h1 : n ≤ n' := by rw [← hlen]; exact hmax' k hmem hky
      have h2 : n' ≤ n := by
        rw [← hlen']
        exact hmax k' (List.mem_of_getElem? hget') (hpre'.trans (List.prefix_append _ _))
      -- Both scans take the first key of that length, so the indices agree.
      have h3 : ¬ m < m' := fun hlt => by have := hfirst' m k hlt hget hky; omega
      have h4 : ¬ m' < m := fun hlt => by
        have := hfirst m' k' hlt hget' (hpre'.trans (List.prefix_append _ _))
        omega
      rw [Option.some.injEq, Prod.mk.injEq]
      omega

omit hne in
theorem longestAt_none_of_append (y r : List α) (h : longestAt keys (y ++ r) = none) :
    longestAt keys y = none := by
  rw [longestAt_eq_none_iff] at h ⊢
  exact fun k hk hpre => h k hk (hpre.trans (List.prefix_append _ _))

omit hne in
theorem overhangFrom_skip : ∀ (n : Nat) (y r : List α), n ≤ y.length →
    overhangFrom keys n y r = overhang keys (y.drop n) r := by
  intro n
  induction n with
  | zero => intro y r _; rfl
  | succ n ih =>
      intro y r hn
      cases y with
      | nil => simp only [List.length_nil] at hn; omega
      | cons c y =>
          simp only [List.length_cons] at hn
          rw [overhangFrom, List.drop_succ_cons]
          exact ih y r (by omega)

omit hne in
theorem overhang_lit (c : α) (y r : List α) (h : longestAt keys (c :: (y ++ r)) = none) :
    overhang keys (c :: y) r = overhang keys y r := by
  rw [overhang, overhangFrom, h]
  rfl

/-- A match that ends inside is passed. -/
theorem overhang_hit (y r : List α) (i n : Nat) (h : longestAt keys (y ++ r) = some (i, n))
    (hn : n ≤ y.length) : overhang keys y r = overhang keys (y.drop n) r := by
  have hpos := longestAt_pos hne h
  cases y with
  | nil => simp only [List.length_nil] at hn; omega
  | cons c y =>
      cases n with
      | zero => omega
      | succ n =>
          simp only [List.length_cons] at hn
          rw [List.cons_append] at h
          rw [overhang, overhangFrom, h]
          simp only [if_pos (by omega : n ≤ y.length), List.drop_succ_cons]
          exact overhangFrom_skip n y r (by omega)

omit hne in
/-- A match that runs over the seam is what hangs over. -/
theorem overhang_over (y r : List α) (i n : Nat) (h : longestAt keys (y ++ r) = some (i, n))
    (hn : y.length < n) : overhang keys y r = y := by
  cases y with
  | nil => rfl
  | cons c y =>
      cases n with
      | zero => omega
      | succ n =>
          simp only [List.length_cons] at hn
          rw [List.cons_append] at h
          rw [overhang, overhangFrom, h]
          simp only [if_neg (by omega : ¬ n ≤ y.length)]

/-- Where a text is cut, the scan of the whole is the scan of a finished part
    and the scan of what is left: nothing, or a match that the cut runs
    through. -/
theorem pieces_cut : ∀ (y r : List α), ∃ y₁, y = y₁ ++ overhang keys y r ∧
    pieces keys (y ++ r) = pieces keys y₁ ++ pieces keys (overhang keys y r ++ r) ∧
    pieces keys y = pieces keys y₁ ++ pieces keys (overhang keys y r) ∧
    (overhang keys y r = [] ∨ ∃ i n, longestAt keys (overhang keys y r ++ r) = some (i, n) ∧
      (overhang keys y r).length < n) := by
  intro y
  induction hlen : y.length using Nat.strongRecOn generalizing y with
  | ind len ih =>
      intro r
      cases y with
      | nil => exact ⟨[], rfl, by simp only [overhang, overhangFrom, pieces_nil hne, List.nil_append],
          by simp only [overhang, overhangFrom, pieces_nil hne, List.nil_append], Or.inl rfl⟩
      | cons c y =>
          simp only [List.length_cons] at hlen
          cases h : longestAt keys (c :: y ++ r) with
          | none =>
              -- No match here: the letter is passed, with and without what follows.
              have hy := longestAt_none_of_append (c :: y) r h
              rcases ih y.length (by omega) y rfl r with ⟨y₁, hsplit, hp, hpy, hend⟩
              rw [List.cons_append] at h
              rw [overhang_lit c y r h]
              have hc : longestAt keys (c :: y₁) = none := by
                rw [hsplit, ← List.cons_append] at hy
                exact longestAt_none_of_append (c :: y₁) _ hy
              refine ⟨c :: y₁, by rw [List.cons_append, ← hsplit], ?_, ?_, hend⟩
              · rw [List.cons_append, pieces_lit c _ h, hp, pieces_lit c _ hc, List.cons_append]
              · rw [pieces_lit c _ hy, hpy, pieces_lit c _ hc, List.cons_append]
          | some p =>
              rcases p with ⟨i, n⟩
              by_cases hn : n ≤ (c :: y).length
              · -- The match ends inside `y`: report it and go on behind it.
                have hpos := longestAt_pos hne h
                have hy := longestAt_of_append (c :: y) r i n h hn
                rw [overhang_hit hne _ r i n h hn]
                rcases ih ((c :: y).drop n).length
                  (by simp only [List.length_drop, List.length_cons]; omega)
                  ((c :: y).drop n) rfl r with ⟨y₁, hsplit, hp, hpy, hend⟩
                generalize overhang keys ((c :: y).drop n) r = pend at hsplit hp hpy hend ⊢
                have hfull : c :: y = (c :: y).take n ++ y₁ ++ pend := by
                  rw [List.append_assoc, ← hsplit, List.take_append_drop]
                have hfront : longestAt keys ((c :: y).take n ++ y₁) = some (i, n) := by
                  refine longestAt_of_append _ pend i n ?_ ?_
                  · rw [← hfull]
                    exact hy
                  · simp only [List.length_append, List.length_take]
                    omega
                have hdrop : ((c :: y).take n ++ y₁).drop n = y₁ := by
                  rw [List.drop_append_of_le_length (by rw [List.length_take]; omega),
                    List.drop_take_self, List.nil_append]
                refine ⟨(c :: y).take n ++ y₁, hfull, ?_, ?_, hend⟩
                · rw [pieces_hit hne _ i n h, List.drop_append_of_le_length hn, hp,
                    pieces_hit hne _ i n hfront, hdrop, List.cons_append]
                · rw [pieces_hit hne _ i n hy, hpy, pieces_hit hne _ i n hfront, hdrop,
                    List.cons_append]
              -- The match runs through the cut, so nothing of `y` is finished.
              · rw [overhang_over _ r i n h (by omega)]
                exact ⟨[], rfl, by simp only [pieces_nil hne, List.nil_append],
                  by simp only [pieces_nil hne, List.nil_append],
                  Or.inr ⟨i, n, h, by omega⟩⟩

/-- A scan without matches has passed the text itself. -/
theorem eq_of_pieces_lit (s : List α) : ∀ y, pieces keys s = y.map .lit → s = y := by
  induction s using pieces_induction hne with
  | hnil =>
      intro y h
      rw [pieces_nil hne] at h
      exact (List.map_eq_nil_iff.mp h.symm).symm
  | hlit c s hnone ih =>
      intro y h
      rw [pieces_lit c s hnone] at h
      cases y with
      | nil => exact absurd h (by simp only [List.map_nil, reduceCtorEq, not_false_eq_true])
      | cons d y =>
          simp only [List.map_cons, List.cons.injEq, Piece.lit.injEq] at h
          rw [h.1, ih y h.2]
  | hhit s i n hlong _ =>
      intro y h
      rw [pieces_hit hne s i n hlong] at h
      cases y with
      | nil => exact absurd h (by simp only [List.map_nil, reduceCtorEq, not_false_eq_true])
      | cons d y =>
          simp only [List.map_cons, List.cons.injEq, reduceCtorEq, false_and] at h

omit hne in
theorem replaceAll_lit (val : Nat → List α) (c : α) (s : List α)
    (h : longestAt keys (c :: s) = none) :
    replaceAll keys val (c :: s) = c :: replaceAll keys val s := by
  rw [replaceAll, pieces_lit c s h]
  rfl

theorem replaceAll_hit (val : Nat → List α) (s : List α) (i n : Nat)
    (h : longestAt keys s = some (i, n)) :
    replaceAll keys val s = val i ++ replaceAll keys val (s.drop n) := by
  rw [replaceAll, pieces_hit hne s i n h]
  rfl

/-- A text whose matches are replaced by their own keys is left alone. -/
theorem replaceAll_eq_self_of_hits (val : Nat → List α) (s : List α)
    (h : ∀ i k, .hit i ∈ pieces keys s → keys[i]? = some k → val i = k) :
    replaceAll keys val s = s := by
  induction s using pieces_induction hne with
  | hnil => rw [replaceAll, pieces_nil hne]; rfl
  | hlit c s hnone ih =>
      rw [replaceAll_lit val c s hnone, ih]
      intro i k hi
      refine h i k ?_
      rw [pieces_lit c s hnone]
      exact List.mem_cons_of_mem _ hi
  | hhit s i n hlong ih =>
      rcases longestAt_eq_some keys s i n hlong with ⟨k, hget, hlen, hpre, _⟩
      rw [pieces_hit hne s i n hlong] at h
      rw [replaceAll_hit hne val s i n hlong, ih fun j l hj => h j l (List.mem_cons_of_mem _ hj),
        h i k List.mem_cons_self hget, ← hlen]
      exact List.prefix_iff_eq_append.mp hpre

/-- Matches whose values are no shorter than their keys do not shorten the
    text. -/
theorem length_le_replaceAll (val : Nat → List α) (s : List α)
    (hgrow : ∀ i k, .hit i ∈ pieces keys s → keys[i]? = some k → k.length ≤ (val i).length) :
    s.length ≤ (replaceAll keys val s).length := by
  induction s using pieces_induction hne with
  | hnil => exact Nat.zero_le _
  | hlit c s hnone ih =>
      rw [pieces_lit c s hnone] at hgrow
      rw [replaceAll_lit val c s hnone, List.length_cons, List.length_cons]
      exact Nat.succ_le_succ (ih fun j l hj => hgrow j l (List.mem_cons_of_mem _ hj))
  | hhit s i n hlong ih =>
      rcases longestAt_eq_some keys s i n hlong with ⟨k, hget, hlen, _⟩
      rw [pieces_hit hne s i n hlong] at hgrow
      have hrest := ih fun j l hj => hgrow j l (List.mem_cons_of_mem _ hj)
      have hhead := hgrow i k List.mem_cons_self hget
      rw [List.length_drop] at hrest
      rw [replaceAll_hit hne val s i n hlong, List.length_append]
      omega

/-- Where no match shortens the text, a text that is left alone has its
    matches replaced by their own keys. -/
theorem hits_of_replaceAll_eq_self (val : Nat → List α) (s : List α)
    (hgrow : ∀ i k, .hit i ∈ pieces keys s → keys[i]? = some k → k.length ≤ (val i).length)
    (hself : replaceAll keys val s = s) :
    ∀ i k, .hit i ∈ pieces keys s → keys[i]? = some k → val i = k := by
  induction s using pieces_induction hne with
  | hnil =>
      intro i k hi
      rw [pieces_nil hne] at hi
      exact absurd hi List.not_mem_nil
  | hlit c s hnone ih =>
      rw [replaceAll_lit val c s hnone, List.cons.injEq] at hself
      rw [pieces_lit c s hnone] at hgrow ⊢
      intro i k hi
      rcases List.mem_cons.mp hi with hi | hi
      · exact absurd hi (by simp only [reduceCtorEq, not_false_eq_true])
      · exact ih (fun j l hj => hgrow j l (List.mem_cons_of_mem _ hj)) hself.2 i k hi
  | hhit s i n hlong ih =>
      rcases longestAt_eq_some keys s i n hlong with ⟨k, hget, hlen, hpre, _⟩
      rw [pieces_hit hne s i n hlong] at hgrow ⊢
      rw [replaceAll_hit hne val s i n hlong] at hself
      have hrest := fun j l hj => hgrow j l (List.mem_cons_of_mem _ hj)
      -- the rest does not shrink, so this match cannot grow, and both stand in place
      have hsplit : k ++ s.drop n = s := by
        rw [← hlen]
        exact List.prefix_iff_eq_append.mp hpre
      have hhead : val i = k ∧ replaceAll keys val (s.drop n) = s.drop n := by
        have hle := hgrow i k List.mem_cons_self hget
        have hge := length_le_replaceAll hne val (s.drop n) hrest
        rw [← hsplit, ← hlen, List.drop_left] at hself
        rw [← hlen] at hge ⊢
        have hl := congrArg List.length hself
        rw [List.length_append, List.length_append] at hl
        exact List.append_inj hself (by omega)
      intro j l hj hl
      rcases List.mem_cons.mp hj with hj | hj
      · rw [Piece.hit.injEq] at hj
        rw [hj, hget, Option.some.injEq] at hl
        rw [hj, hhead.1, hl]
      · exact ih hrest hhead.2 j l hj hl

end NonemptyKeys

omit [DecidableEq α] in
theorem flatMap_render_lit (val : Nat → List α) (s : List α) :
    (s.map Piece.lit).flatMap (Piece.render val) = s := by
  induction s with
  | nil => rfl
  | cons c s ih => rw [List.map_cons, List.flatMap_cons, ih]; rfl

/-- A text in which no key occurs is its own replacement. -/
theorem replaceAll_eq_self {keys : List (List α)} (val : Nat → List α) (s : List α)
    (h : ∀ k ∈ keys, ¬ k <:+: s) : replaceAll keys val s = s := by
  have hne : ∀ k ∈ keys, k ≠ [] := by
    rintro k hk rfl
    exact h [] hk List.nil_infix
  rw [replaceAll, pieces_of_not_infix hne s h, flatMap_render_lit]

/-- A key is one match, of its first place, also beside an empty key. -/
theorem pieces_key {keys : List (List α)} (k : List α) (i : Nat)
    (hget : keys[i]? = some k) (hfirst : ∀ j, j < i → keys[j]? ≠ some k) :
    pieces keys k = [.hit i] := by
  have hlong : longestAt keys k = some (i, k.length) :=
    longestAt_of_first keys k k i hget (List.prefix_refl k) (fun k' _ h => h.length_le) hfirst
  have hskip : ∀ s : List α, piecesFrom keys s.length true s = [] := by
    intro s
    induction s with
    | nil =>
        simp only [piecesFrom]
        split <;> rfl
    | cons c s ih => simpa only [List.length_cons, piecesFrom] using ih
  cases k with
  | nil => simp only [pieces, piecesFrom, hlong, Bool.false_eq_true, if_false]
  | cons c s =>
      simp only [pieces, piecesFrom, hlong, List.length_cons]
      rw [hskip s]

/-- A key is replaced by the value of its first place. -/
theorem replaceAll_key {keys : List (List α)} (val : Nat → List α) (k : List α) (i : Nat)
    (hget : keys[i]? = some k) (hfirst : ∀ j, j < i → keys[j]? ≠ some k) :
    replaceAll keys val k = val i := by
  rw [replaceAll, pieces_key k i hget hfirst]
  simp only [List.flatMap_cons, List.flatMap_nil, List.append_nil, Piece.render]

end Leftmost
