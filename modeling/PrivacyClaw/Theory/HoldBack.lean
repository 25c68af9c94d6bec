import PrivacyClaw.Theory.Cascade
import PrivacyClaw.Lib.Feed

/-!
# What the Buffer Holds Back

One delta, said once: the buffer and the delta are restored together, and the
result is cut at `computeSafeFlushLen`, rounded down to a character. What is
in front of the cut is sent, what is behind it is kept.

The cut is never behind the beginning of a synthetic that may still grow, and
never inside a token that is open.

## Main definitions

* `ReplacementBuffer.Fresh`: The trigger prefixes belong to the vault.

## Theorems

* `findCharBoundary_le`, `findCharBoundary_of_boundary`: Rounding down.
* `hasPrefixMatch_of_suffix`: The beginning of a key triggers.
* `computeSafeFlushLen_unfinished`: The beginning of a key is held back.
* `computeSafeFlushLen_open`: An open token is held back.
* `processDelta_spec`: One delta.
-/

namespace PrivacyClaw

theorem boundaryBelow_le (s : Str) : ∀ p, boundaryBelow s p ≤ p := by
  intro p
  induction p with
  | zero => exact Nat.le_refl 0
  | succ p ih =>
      rw [boundaryBelow]
      split
      · exact Nat.le_refl _
      · omega

theorem isCharBoundary_boundaryBelow (s : Str) : ∀ p, isCharBoundary s (boundaryBelow s p) = true := by
  intro p
  induction p with
  | zero => exact isCharBoundary_zero s
  | succ p ih =>
      rw [boundaryBelow]
      split
      · next h => exact h
      · exact ih

theorem findCharBoundary_le (s : Str) (pos : Nat) : findCharBoundary s pos ≤ pos := by
  have := boundaryBelow_le s (min pos s.length)
  rw [findCharBoundary]
  omega

theorem findCharBoundary_le_length (s : Str) (pos : Nat) : findCharBoundary s pos ≤ s.length := by
  have := boundaryBelow_le s (min pos s.length)
  rw [findCharBoundary]
  omega

theorem isCharBoundary_findCharBoundary (s : Str) (pos : Nat) :
    isCharBoundary s (findCharBoundary s pos) = true :=
  isCharBoundary_boundaryBelow s _

/-- Between characters nothing is rounded. -/
theorem findCharBoundary_of_boundary (s : Str) (pos : Nat) (hle : pos ≤ s.length)
    (h : isCharBoundary s pos = true) : findCharBoundary s pos = pos := by
  rw [findCharBoundary, Nat.min_eq_left hle]
  cases pos with
  | zero => rfl
  | succ p => rw [boundaryBelow, if_pos h]

/-- A tag starts between characters. -/
theorem isCharBoundary_open (s p : Str) (hp : xmlTokenOpen <+: p) :
    isCharBoundary (s ++ p) s.length = true := by
  rcases hp with ⟨t, rfl⟩
  unfold isCharBoundary
  split
  · rfl
  · rw [List.getElem?_append_right (Nat.le_refl _), Nat.sub_self,
      show (xmlTokenOpen ++ t)[0]? = some 60 from rfl]
    rfl

theorem hasPrefixMatch_append (prefixes : List (UInt8 × UInt8)) (t : Str) (hne : t ≠ [])
    (ht : hasPrefixMatch prefixes t = true) : ∀ s, hasPrefixMatch prefixes (s ++ t) = true := by
  intro s
  induction s with
  | nil => exact ht
  | cons a s ih =>
      cases hst : s ++ t with
      | nil => exact absurd (List.append_eq_nil_iff.mp hst).2 hne
      | cons b r =>
          rw [hst] at ih
          rw [List.cons_append, hst, hasPrefixMatch, ih, Bool.or_true]

/-- The beginning of a key at the end of a text triggers. -/
theorem hasPrefixMatch_of_suffix (v : PiiVault) (k x s : Str) (hk : k ∈ v.syntheticKeys)
    (hxk : x <+: k) (hlt : x.length < k.length) (hx : x ≠ []) (hs : x <:+ s) :
    hasPrefixMatch v.syntheticKeyPrefixes s = true := by
  rcases hs with ⟨r, rfl⟩
  refine hasPrefixMatch_append _ x hx ?_ r
  -- the key has two bytes, and they are among the prefixes
  have hmem : ∀ a b rest, k = a :: b :: rest → (a, b) ∈ v.syntheticKeyPrefixes := by
    intro a b rest he
    refine List.mem_filterMap.mpr ⟨k, hk, ?_⟩
    rw [he]
  rcases hxk with ⟨t, rfl⟩
  match x with
  | [] => exact absurd rfl hx
  | [a] =>
      cases t with
      | nil => simp only [List.append_nil, Nat.lt_irrefl] at hlt
      | cons b t =>
          rw [hasPrefixMatch, List.any_eq_true]
          exact ⟨(a, b), hmem a b t rfl, by simp only [beq_self_eq_true]⟩
  | a :: b :: x =>
      rw [hasPrefixMatch, List.contains_iff_mem.mpr (hmem a b (x ++ t) rfl), Bool.true_or]

/-- The beginning of a key at the end of a text is held back. -/
theorem computeSafeFlushLen_unfinished (v : PiiVault)
    (hmax : ∀ k ∈ v.syntheticKeys, k.length ≤ v.maxSyntheticKeyLen) (text x : Str)
    (hx : x <:+ text) (hopen : ¬ xmlTokenOpen <:+: x)
    (hkey : ∃ k ∈ v.syntheticKeys, x <+: k ∧ x.length < k.length) (hne : x ≠ []) :
    computeSafeFlushLen text v.maxSyntheticKeyLen v.syntheticKeyPrefixes ≤
      text.length - x.length := by
  rcases hkey with ⟨k, hk, hxk, hlt⟩
  have hlen := hmax k hk
  have hle := hx.length_le
  have htrigger : ∀ n, n ≤ text.length - x.length →
      hasPrefixMatch v.syntheticKeyPrefixes (text.drop n) = true := by
    intro n hn
    refine hasPrefixMatch_of_suffix v k x _ hk hxk hlt hne ?_
    refine List.suffix_of_suffix_length_le hx (List.drop_suffix n text) ?_
    rw [List.length_drop]
    omega
  unfold computeSafeFlushLen
  cases hpos : xmlTokenHoldbackPos text with
  | some pos =>
      -- an opening tag behind the start of `x` would be inside it
      have hocc : xmlTokenOpen <+: text.drop pos := by
        unfold xmlTokenHoldbackPos at hpos
        cases hr : Search.rfind xmlTokenOpen text with
        | none => simp only [hr, reduceCtorEq] at hpos
        | some i =>
            simp only [hr] at hpos
            split at hpos
            · exact absurd hpos (by simp only [reduceCtorEq, not_false_eq_true])
            · rw [Option.some.injEq] at hpos
              rw [← hpos]
              exact (Search.rfind_eq_some _ headOnly_xmlTokenOpen.ne_nil _ _ hr).1
      by_contra hc
      refine hopen (hocc.isInfix.trans ?_)
      refine (List.suffix_of_suffix_length_le (List.drop_suffix pos text) hx ?_).isInfix
      rw [List.length_drop]
      simp only [] at hc
      omega
  | none =>
      dsimp only
      by_cases hshort : v.maxSyntheticKeyLen < text.length
      · have hround := findCharBoundary_le text (text.length - v.maxSyntheticKeyLen)
        rw [if_pos hshort, if_pos (htrigger _ (by omega))]
        omega
      · have hzero := htrigger 0 (Nat.zero_le _)
        rw [List.drop_zero] at hzero
        rw [if_neg hshort, if_pos hzero]
        exact Nat.zero_le _

/-- A token that is open is held back from its tag on. -/
theorem computeSafeFlushLen_open (maxKeyLen : Nat) (prefixes : List (UInt8 × UInt8)) (s p : Str)
    (hp : OpenToken p) (hlast : ∀ j, 0 < j → ¬ xmlTokenOpen <+: p.drop j) :
    computeSafeFlushLen (s ++ p) maxKeyLen prefixes = s.length := by
  have hr : Search.rfind xmlTokenOpen (s ++ p) = some s.length := by
    refine Search.rfind_of_last _ _ _ headOnly_xmlTokenOpen.ne_nil ?_ ?_
    · rw [List.drop_left]
      exact hp.opens
    · intro j hj
      rw [List.drop_append, List.drop_eq_nil_of_le (by omega), List.nil_append]
      exact hlast _ (by omega)
  have hpos : xmlTokenHoldbackPos (s ++ p) = some s.length := by
    unfold xmlTokenHoldbackPos
    simp only [hr]
    rw [List.drop_left, (Search.find_eq_none_iff _ _).mpr hp.unclosed]
  rw [computeSafeFlushLen, hpos]

namespace ReplacementBuffer

/-- Once the vault has been seen, the trigger prefixes are its own. -/
def Fresh (b : ReplacementBuffer) (v : PiiVault) : Prop :=
  b.cachedMappingCount = v.mappingCount → b.triggerPrefixes = v.syntheticKeyPrefixes

variable (v : PiiVault)

theorem fresh_new (hv : v.isEmpty = false) : Fresh new v := by
  intro hc
  rw [PiiVault.isEmpty, ← hc] at hv
  exact absurd hv (by decide)

/-- One delta that is not empty, with a vault that is not. -/
theorem processDelta_spec (hv : v.isEmpty = false) (b : ReplacementBuffer) (hb : b.Fresh v)
    (d : Str) (hd : d ≠ []) :
    ∃ n, n = findCharBoundary (applyXmlTokenCascade (b.buffer ++ d) v)
        (computeSafeFlushLen (applyXmlTokenCascade (b.buffer ++ d) v) v.maxSyntheticKeyLen
          v.syntheticKeyPrefixes) ∧
      (b.processDelta v d).1 = (applyXmlTokenCascade (b.buffer ++ d) v).take n ∧
      (b.processDelta v d).2.buffer = (applyXmlTokenCascade (b.buffer ++ d) v).drop n ∧
      (b.processDelta v d).2.Fresh v := by
  -- Fresh or refreshed, the prefixes are the vault's.
  have hrefresh : ({ b with buffer := b.buffer ++ d }.refresh v).triggerPrefixes =
      v.syntheticKeyPrefixes ∧ ({ b with buffer := b.buffer ++ d }.refresh v).buffer =
      b.buffer ++ d := by
    unfold refresh
    split
    · next he => exact ⟨hb he.symm, rfl⟩
    · exact ⟨rfl, rfl⟩
  have hempty : d.isEmpty = false := by
    cases d with
    | nil => exact absurd rfl hd
    | cons c d => rfl
  unfold processDelta
  simp only [hempty, Bool.false_eq_true, if_false, hv, hrefresh.1, hrefresh.2]
  generalize applyXmlTokenCascade (b.buffer ++ d) v = processed
  refine ⟨_, rfl, ?_⟩
  -- With nothing safe the whole result is kept, which is the cut at zero.
  by_cases hzero : computeSafeFlushLen processed v.maxSyntheticKeyLen v.syntheticKeyPrefixes = 0
  · have hn := findCharBoundary_le processed 0
    rw [if_pos hzero, hzero, Nat.le_zero.mp hn]
    exact ⟨rfl, rfl, fun _ => rfl⟩
  · rw [if_neg hzero, if_pos (isCharBoundary_findCharBoundary _ _)]
    exact ⟨rfl, rfl, fun _ => rfl⟩

theorem processDelta_nil (b : ReplacementBuffer) : b.processDelta v [] = ([], b) := rfl

end ReplacementBuffer

end PrivacyClaw
