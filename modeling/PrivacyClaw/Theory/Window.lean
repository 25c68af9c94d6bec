import PrivacyClaw.Theory.Characters
import PrivacyClaw.Theory.HoldBack

/-!
# The Hold-Back Window

How much the buffer keeps, and that it keeps enough. It keeps an open token from
its tag on, or the last bytes of what was restored, as many as the longest
synthetic has, from the character boundary in front of them.

That a boundary is near is a fact about valid texts. Restoring gives a valid text
as long as its slices do not panic: what it puts together are slices between
characters and originals. No slice panics if no synthetic is empty; an empty one
matches inside characters too.

## Main definitions

* `ReplacementBuffer.processed`: The text that a delta is cut from.
* `ReplacementBuffer.Window`: What holds of the buffer in every state.

## Theorems

* `utf8Valid_render`: Pieces between boundaries, replaced by valid texts.
* `utf8Valid_applyXmlTokenCascade`: A valid text is restored to one.
* `findCharBoundary_near`: Rounding down takes at most three bytes.
* `open_of_holdback`, `held_open_or_short`: What is behind the cut.
* `Window.processDelta`, `Window.processDeltas`: One delta, and any number.
* `processDeltasReturn_of_keys`: Without an empty synthetic every delta returns.
* `held_window`: Never too much, never too little.
-/

namespace PrivacyClaw

/-- Pieces between boundaries of a valid text, with valid texts for the matches,
    are a valid text. In front of the pieces stand `t`, which is not cut off
    yet, and `pre`, which is. -/
theorem utf8Valid_render (keys : List Str) (val : Nat → Str)
    (hval : ∀ i, utf8Valid (val i) = true) : ∀ (ps : List (Leftmost.Piece UInt8)) (pre t : Str),
    utf8Valid pre = true →
    utf8Valid (pre ++ t ++ ps.flatMap (Leftmost.Piece.source keys)) = true →
    (∀ c ∈ Leftmost.cuts keys (pre ++ t).length ps,
      isCharBoundary (pre ++ t ++ ps.flatMap (Leftmost.Piece.source keys)) c = true) →
    utf8Valid (t ++ ps.flatMap (Leftmost.Piece.render val)) = true := by
  intro ps
  induction ps with
  | nil =>
      intro pre t hpre htext _
      rw [List.flatMap_nil, List.append_nil, utf8Valid_append _ _ hpre] at htext
      rw [List.flatMap_nil, List.append_nil]
      exact htext
  | cons p ps ih =>
      intro pre t hpre htext hcuts
      cases p with
      -- a byte that stays is not cut off yet
      | lit c =>
          have hassoc : ∀ r : Str, pre ++ t ++ c :: r = pre ++ (t ++ [c]) ++ r := fun r => by
            simp only [List.append_assoc, List.cons_append, List.nil_append]
          have hlen : (pre ++ t).length + 1 = (pre ++ (t ++ [c])).length := by
            simp only [List.length_append, List.length_cons, List.length_nil, Nat.add_assoc]
          have hrec := ih pre (t ++ [c]) hpre
          rw [← hlen, ← hassoc] at hrec
          have h := hrec htext hcuts
          rw [List.append_assoc] at h
          exact h
      | hit i =>
          rw [List.flatMap_cons, Leftmost.Piece.source] at htext hcuts
          rw [Leftmost.cuts, List.forall_mem_cons, List.forall_mem_cons] at hcuts
          rcases hcuts with ⟨hbegin, hend, hrest⟩
          generalize keys.getD i [] = k at htext hbegin hend hrest
          -- the cut in front of the match and the one behind it
          have ht : utf8Valid t = true := by
            have h := (utf8Valid_cut _ _ htext hbegin).1
            rw [List.take_left, utf8Valid_append _ _ hpre] at h
            exact h
          rw [← List.append_assoc, ← List.length_append] at hend
          rw [← List.append_assoc, ← List.length_append] at hrest
          rw [← List.append_assoc] at htext
          have hpre' : utf8Valid (pre ++ t ++ k) = true := by
            have h := (utf8Valid_cut _ _ htext hend).1
            rw [List.take_left] at h
            exact h
          have hrec := ih (pre ++ t ++ k) [] hpre'
          rw [List.append_nil] at hrec
          rw [List.flatMap_cons, Leftmost.Piece.render, utf8Valid_append _ _ ht,
            utf8Valid_append _ _ (hval i)]
          exact hrec htext hrest

/-- In a valid text the matches of keys that are valid and not empty begin and end
    between characters. -/
theorem isCharBoundary_cuts (keys : List Str) (hne : ∀ k ∈ keys, k ≠ [])
    (hkeys : ∀ k ∈ keys, utf8Valid k = true) (s : Str) : ∀ pre : Str,
    utf8Valid (pre ++ s) = true → ∀ c ∈ Leftmost.cuts keys pre.length (Leftmost.pieces keys s),
      isCharBoundary (pre ++ s) c = true := by
  induction s using Leftmost.pieces_induction hne with
  | hnil =>
      intro pre _ c hc
      rw [Leftmost.pieces_nil hne] at hc
      exact absurd hc List.not_mem_nil
  | hlit a s hnone ih =>
      intro pre hvalid
      have hassoc : pre ++ a :: s = (pre ++ [a]) ++ s := by rw [List.append_assoc]; rfl
      rw [Leftmost.pieces_lit a s hnone, Leftmost.cuts, hassoc]
      rw [hassoc] at hvalid
      have h := ih (pre ++ [a]) hvalid
      rw [List.length_append] at h
      exact h
  | hhit s i n hsome ih =>
      intro pre hvalid
      rcases Leftmost.longestAt_eq_some keys s i n hsome with ⟨k, hget, rfl, ⟨r, rfl⟩, -⟩
      have hmem := List.mem_of_getElem? hget
      have hk := hkeys k hmem
      have hdrop : (k ++ r).drop k.length = r := List.drop_left
      rw [Leftmost.pieces_hit hne _ i _ hsome, Leftmost.cuts, List.getD_eq_getElem?_getD, hget,
        Option.getD_some, hdrop]
      rw [hdrop] at ih
      -- the key leads with a character, so the match begins between characters
      have hhead : ∀ b ∈ (k ++ r).head?, isCont b = false := by
        have h := head_of_utf8Valid k hk
        cases k with
        | nil => exact absurd rfl (hne [] hmem)
        | cons a k => exact h
      have hsplit := utf8Valid_right pre (k ++ r) hvalid hhead
      rw [utf8Valid_append _ _ hk] at hsplit
      rw [List.forall_mem_cons, List.forall_mem_cons]
      refine ⟨?_, ?_, ?_⟩
      · refine isCharBoundary_of_head _ _ ?_ ?_
        · rw [List.length_append]
          exact Nat.le_add_right _ _
        · rw [List.drop_left]
          exact hhead
      · rw [← List.append_assoc, ← List.length_append]
        refine isCharBoundary_of_head _ _ ?_ ?_
        · rw [@List.length_append _ (pre ++ k)]
          exact Nat.le_add_right _ _
        · rw [List.drop_left]
          exact head_of_utf8Valid r hsplit
      · have h := ih (pre ++ k)
        rw [List.append_assoc, List.length_append] at h
        exact h hvalid

theorem utf8Valid_open : utf8Valid xmlTokenOpen = true ∧ xmlTokenOpen ≠ [] := by decide

theorem utf8Valid_close : utf8Valid xmlTokenClose = true ∧ xmlTokenClose ≠ [] := by decide

section Restoring

variable {v : PiiVault} (hv : v.WellFormed)
include hv

omit hv in
/-- Where no slice panics, restoring gives a valid text. -/
theorem utf8Valid_replaceSynthetics (horig : ∀ o ∈ v.originalValues, utf8Valid o = true) (s : Str)
    (hs : utf8Valid s = true) (hret : v.replaceReturns s = true) :
    utf8Valid (v.replaceSynthetics s).1 = true := by
  have hval : ∀ i, utf8Valid (v.originalValues.getD i []) = true := by
    intro i
    rw [List.getD_eq_getElem?_getD]
    cases h : v.originalValues[i]? with
    | none => rfl
    | some o => exact horig o (List.mem_of_getElem? h)
  rw [PiiVault.replaceReturns] at hret
  rw [PiiVault.replaceSynthetics]
  cases hkeys : v.reverseAutomaton with
  -- without keys nothing is replaced
  | none => exact hs
  | some keys =>
      rw [hkeys] at hret
      have h := utf8Valid_render keys _ hval (Leftmost.pieces keys s) [] [] rfl
      simp only [List.nil_append, Leftmost.source_pieces] at h
      exact h hs (List.all_eq_true.mp hret)

/-- What the vault gives for a token is an original. -/
theorem utf8Valid_restoreToken (horig : ∀ o ∈ v.originalValues, utf8Valid o = true) (token : Str)
    (htoken : utf8Valid token = true) : utf8Valid (restoreToken v token) = true := by
  have hstored : ∀ o, o ∈ v.originalToSynthetic → utf8Valid o = true := fun o ho =>
    horig o ((hv.mem_originals_iff o).mpr ho)
  -- by the whole token, its id or its display value, or not at all
  unfold restoreToken
  split
  · next o ho => exact hstored o (hv.fullStored _ o ho)
  · split
    · exact htoken
    · split
      · next o ho => exact hstored o (hv.idStored _ o ho)
      · split
        · next o ho =>
            rcases Option.bind_eq_some_iff.mp ho with ⟨d, _, hd⟩
            exact hstored o (hv.displayStored d o hd)
        · exact htoken

theorem utf8Valid_cascadeFrom (horig : ∀ o ∈ v.originalValues, utf8Valid o = true) :
    ∀ (fuel : Nat) (s : Str), utf8Valid s = true → cascadeReturns v fuel s = true →
      utf8Valid (cascadeFrom v fuel s) = true := by
  intro fuel
  induction fuel with
  | zero => intro s _ _; rfl
  | succ fuel ih =>
      intro s hs hret
      cases s with
      | nil => rfl
      | cons c s =>
          rw [cascadeReturns] at hret
          rw [cascadeFrom]
          cases hopen : Search.find xmlTokenOpen (c :: s) with
          | none =>
              rw [hopen] at hret
              exact utf8Valid_replaceSynthetics horig _ hs hret
          | some i =>
              rw [hopen] at hret
              dsimp only at hret ⊢
              rw [Bool.and_eq_true, Bool.or_eq_true, beq_iff_eq] at hret
              have hcut := (utf8Valid_find _ _ i utf8Valid_open.1 utf8Valid_open.2 hs hopen).1
              have hbefore : utf8Valid
                  (if i = 0 then [] else (v.replaceSynthetics ((c :: s).take i)).1) = true := by
                by_cases h0 : i = 0
                · rw [if_pos h0]
                  rfl
                · rw [if_neg h0]
                  exact utf8Valid_replaceSynthetics horig _ hcut.1 (hret.1.resolve_left h0)
              cases hclose : Search.find xmlTokenClose ((c :: s).drop i) with
              | none =>
                  -- the open token is kept as it is
                  dsimp only
                  rw [utf8Valid_append _ _ hbefore]
                  exact hcut.2
              | some j =>
                  rw [hclose] at hret
                  have htoken :=
                    (utf8Valid_find _ _ j utf8Valid_close.1 utf8Valid_close.2 hcut.2 hclose).2
                  dsimp only
                  rw [List.append_assoc, utf8Valid_append _ _ hbefore,
                    utf8Valid_append _ _ (utf8Valid_restoreToken hv horig _ htoken.1)]
                  exact ih _ htoken.2 hret.2

/-- A valid text is restored to one. -/
theorem utf8Valid_applyXmlTokenCascade (horig : ∀ o ∈ v.originalValues, utf8Valid o = true)
    (s : Str) (hs : utf8Valid s = true) (hret : applyReturns s v = true) :
    utf8Valid (applyXmlTokenCascade s v) = true := by
  unfold applyReturns at hret
  unfold applyXmlTokenCascade
  cases h : Search.find xmlTokenOpen s with
  | none =>
      rw [h] at hret
      exact utf8Valid_replaceSynthetics horig s hs hret
  | some i =>
      rw [h] at hret
      exact utf8Valid_cascadeFrom hv horig _ s hs hret

section Keys

variable (hne : ∀ k ∈ v.syntheticKeys, k ≠ []) (hkeys : ∀ k ∈ v.syntheticKeys, utf8Valid k = true)
include hne hkeys

theorem replaceReturns_of_keys (s : Str) (hs : utf8Valid s = true) :
    v.replaceReturns s = true := by
  rw [PiiVault.replaceReturns, hv.automaton]
  by_cases hnil : v.syntheticKeys = []
  · rw [if_pos hnil]
  · rw [if_neg hnil]
    exact List.all_eq_true.mpr (isCharBoundary_cuts _ hne hkeys s [] hs)

theorem cascadeReturns_of_keys : ∀ (fuel : Nat) (s : Str), utf8Valid s = true →
    cascadeReturns v fuel s = true := by
  intro fuel
  induction fuel with
  | zero => intro s _; rfl
  | succ fuel ih =>
      intro s hs
      cases s with
      | nil => rfl
      | cons c s =>
          rw [cascadeReturns]
          cases hopen : Search.find xmlTokenOpen (c :: s) with
          | none => exact replaceReturns_of_keys hv hne hkeys _ hs
          | some i =>
              have hcut := (utf8Valid_find _ _ i utf8Valid_open.1 utf8Valid_open.2 hs hopen).1
              dsimp only
              rw [replaceReturns_of_keys hv hne hkeys _ hcut.1, Bool.or_true, Bool.true_and]
              cases hclose : Search.find xmlTokenClose ((c :: s).drop i) with
              | none => rfl
              | some j =>
                  exact ih _ (utf8Valid_find _ _ j utf8Valid_close.1 utf8Valid_close.2 hcut.2
                    hclose).2.2

/-- Without an empty synthetic no slice panics. -/
theorem applyReturns_of_keys (s : Str) (hs : utf8Valid s = true) : applyReturns s v = true := by
  unfold applyReturns
  split
  · exact replaceReturns_of_keys hv hne hkeys s hs
  · exact cascadeReturns_of_keys hv hne hkeys _ s hs

end Keys

end Restoring

/-- Rounding down goes back to the last boundary. -/
theorem le_boundaryBelow (s : Str) (j : Nat) (hj : isCharBoundary s j = true) :
    ∀ p, j ≤ p → j ≤ boundaryBelow s p := by
  intro p
  induction p with
  | zero => exact id
  | succ p ih =>
      intro hle
      rw [boundaryBelow]
      by_cases hp : isCharBoundary s (p + 1) = true
      · rw [if_pos hp]
        exact hle
      · rw [if_neg hp]
        refine ih (Nat.le_of_lt_succ (Nat.lt_of_le_of_ne hle ?_))
        rintro rfl
        exact hp hj

/-- Rounding down takes at most three bytes. -/
theorem findCharBoundary_near (s : Str) (hs : utf8Valid s = true) (pos : Nat)
    (hpos : pos ≤ s.length) : pos ≤ findCharBoundary s pos + 3 := by
  rcases isCharBoundary_near s hs pos hpos with ⟨j, hle, hnear, hj⟩
  rw [findCharBoundary, Nat.min_eq_left hpos]
  have := le_boundaryBelow s j hj pos hle
  omega

/-- The last tag is held back from its first byte on, which leads a character. -/
theorem open_of_holdback (text : Str) (pos : Nat) (h : xmlTokenHoldbackPos text = some pos) :
    OpenToken (text.drop pos) ∧ findCharBoundary text pos = pos := by
  unfold xmlTokenHoldbackPos at h
  cases hr : Search.rfind xmlTokenOpen text with
  | none =>
      rw [hr] at h
      exact absurd h (by simp only [reduceCtorEq, not_false_eq_true])
  | some i =>
      rw [hr] at h
      dsimp only at h
      cases hc : Search.find xmlTokenClose (text.drop i) with
      | some j =>
          rw [hc] at h
          exact absurd h (by simp only [reduceCtorEq, not_false_eq_true])
      | none =>
          rw [hc, Option.some.injEq] at h
          have hocc := (Search.rfind_eq_some _ headOnly_xmlTokenOpen.ne_nil _ _ hr).1
          have hle : i ≤ text.length := by
            have := hocc.length_le
            rw [List.length_drop, show xmlTokenOpen.length = 4 by decide] at this
            omega
          have hb := isCharBoundary_open (text.take i) _ hocc
          rw [List.take_append_drop, List.length_take_of_le hle] at hb
          rw [← h]
          exact ⟨⟨hocc, (Search.find_eq_none_iff _ _).mp hc⟩,
            findCharBoundary_of_boundary _ _ hle hb⟩

/-- What is behind the cut: an open token, or at most as many bytes as the longest
    key has and three. -/
theorem held_open_or_short (text : Str) (htext : utf8Valid text = true) (maxKeyLen n : Nat)
    (prefixes : List (UInt8 × UInt8))
    (hn : n = findCharBoundary text (computeSafeFlushLen text maxKeyLen prefixes)) :
    OpenToken (text.drop n) ∨ (text.drop n).length ≤ maxKeyLen + 3 := by
  have hall : ∀ m, m = findCharBoundary text text.length → (text.drop m).length = 0 := by
    rintro m rfl
    rw [findCharBoundary_of_boundary _ _ (Nat.le_refl _) (isCharBoundary_length _),
      List.drop_length]
    rfl
  rw [computeSafeFlushLen] at hn
  cases hhold : xmlTokenHoldbackPos text with
  | some pos =>
      -- everything from the last tag on is held back
      rcases open_of_holdback text pos hhold with ⟨hopen, hround⟩
      rw [hhold] at hn
      rw [hn]
      dsimp only
      rw [hround]
      exact .inl hopen
  | none =>
      -- the last bytes are held back if a key may begin in them
      rw [hhold] at hn
      refine .inr ?_
      dsimp only at hn
      by_cases hlong : maxKeyLen < text.length
      · rw [if_pos hlong] at hn
        split at hn
        · have hnear := findCharBoundary_near text htext (text.length - maxKeyLen) (by omega)
          rw [findCharBoundary_of_boundary _ _ (findCharBoundary_le_length _ _)
            (isCharBoundary_findCharBoundary _ _)] at hn
          rw [hn, List.length_drop]
          omega
        · rw [hall n hn]
          exact Nat.zero_le _
      · rw [if_neg hlong] at hn
        split at hn
        · rw [List.length_drop]
          omega
        · rw [hall n hn]
          exact Nat.zero_le _

namespace ReplacementBuffer

/-- The text that `process_delta` cuts: what was held back and the delta, restored
    unless there is nothing to restore. -/
def processed (b : ReplacementBuffer) (v : PiiVault) (incoming : Str) : Str :=
  if incoming.isEmpty then b.buffer
  else if v.isEmpty then b.buffer ++ incoming
  else applyXmlTokenCascade (b.buffer ++ incoming) v

/-- What holds of the buffer in every state. -/
structure Window (v : PiiVault) (b : ReplacementBuffer) : Prop where
  valid : utf8Valid b.buffer = true
  fresh : b.Fresh v
  bounded : OpenToken b.buffer ∨ b.buffer.length ≤ v.maxSyntheticKeyLen + 3

variable {v : PiiVault}

/-- With no mapping nothing is held back. -/
theorem processDelta_isEmpty (hv : v.isEmpty = true) (b : ReplacementBuffer) (hb : b.Fresh v)
    (d : Str) (hd : d ≠ []) :
    (b.processDelta v d).2.buffer = [] ∧ (b.processDelta v d).2.Fresh v := by
  have hempty : d.isEmpty = false := by
    rw [List.isEmpty_eq_false_iff]
    exact hd
  unfold processDelta
  rw [if_neg (by rw [hempty]; exact Bool.false_ne_true), if_pos hv]
  refine ⟨rfl, ?_⟩
  unfold refresh
  split
  · exact hb
  · exact fun _ => rfl

theorem Window.new (hv : v.WellFormed) : Window v ReplacementBuffer.new where
  valid := rfl
  fresh hc := by
    have hcount := hv.count
    rw [← hc] at hcount
    rw [PiiVault.syntheticKeyPrefixes, List.length_eq_zero_iff.mp hcount.symm]
    rfl
  bounded := .inr (Nat.zero_le _)

section Step

variable (hv : v.WellFormed) (horig : ∀ o ∈ v.originalValues, utf8Valid o = true)
include hv horig

/-- One delta keeps the window. -/
theorem Window.processDelta {b : ReplacementBuffer} (hb : Window v b) (d : Str)
    (hd : utf8Valid d = true)
    (hret : (d.isEmpty || v.isEmpty || applyReturns (b.buffer ++ d) v) = true) :
    Window v (b.processDelta v d).2 := by
  by_cases hnil : d = []
  · rw [hnil, processDelta_nil]
    exact hb
  · cases hempty : v.isEmpty with
    | true =>
        rcases processDelta_isEmpty hempty b hb.fresh d hnil with ⟨hbuf, hfresh⟩
        exact ⟨by rw [hbuf]; rfl, hfresh, .inr (by rw [hbuf]; exact Nat.zero_le _)⟩
    | false =>
        rcases processDelta_spec v hempty b hb.fresh d hnil with ⟨n, hn, _, hbuf, hfresh⟩
        -- a valid text is restored to one, and cut at a boundary
        have hjoin : utf8Valid (b.buffer ++ d) = true := by
          rw [utf8Valid_append _ _ hb.valid]
          exact hd
        have happly : applyReturns (b.buffer ++ d) v = true := by
          rw [hempty, Bool.or_false, Bool.or_eq_true, List.isEmpty_iff] at hret
          exact hret.resolve_left hnil
        have htext := utf8Valid_applyXmlTokenCascade hv horig _ hjoin happly
        refine ⟨?_, hfresh, ?_⟩
        · rw [hbuf, hn]
          exact (utf8Valid_cut _ _ htext (isCharBoundary_findCharBoundary _ _)).2
        · rw [hbuf]
          exact held_open_or_short _ htext _ n _ hn

/-- So does any number of them. -/
theorem Window.processDeltas : ∀ (ds : List Str) (b : ReplacementBuffer), Window v b →
    (∀ d ∈ ds, utf8Valid d = true) → processDeltasReturn v ds b = true →
      Window v (ReplacementBuffer.processDeltas v ds b).2 := by
  intro ds
  induction ds with
  | nil => intro b hb _ _; exact hb
  | cons d ds ih =>
      intro b hb hds hret
      rw [List.forall_mem_cons] at hds
      rw [processDeltasReturn, Bool.and_eq_true] at hret
      exact ih _ (hb.processDelta hv horig d hds.1 hret.1) hds.2 hret.2

/-- Without an empty synthetic every delta returns. -/
theorem processDeltasReturn_of_keys (hne : ∀ k ∈ v.syntheticKeys, k ≠ [])
    (hkeys : ∀ k ∈ v.syntheticKeys, utf8Valid k = true) : ∀ (ds : List Str)
    (b : ReplacementBuffer), Window v b → (∀ d ∈ ds, utf8Valid d = true) →
      processDeltasReturn v ds b = true := by
  intro ds
  induction ds with
  | nil => intro b _ _; rfl
  | cons d ds ih =>
      intro b hb hds
      rw [List.forall_mem_cons] at hds
      have hret : applyReturns (b.buffer ++ d) v = true := by
        refine applyReturns_of_keys hv hne hkeys _ ?_
        rw [utf8Valid_append _ _ hb.valid]
        exact hds.1
      rw [processDeltasReturn, hret, Bool.or_true, Bool.true_and]
      exact ih _ (hb.processDelta hv horig d hds.1 (by rw [hret, Bool.or_true])) hds.2

end Step

theorem processDeltas_append (ds : List Str) (d : Str) : ∀ b : ReplacementBuffer,
    (processDeltas v (ds ++ [d]) b).2 = ((processDeltas v ds b).2.processDelta v d).2 := by
  induction ds with
  | nil => intro b; rfl
  | cons x ds ih => intro b; exact ih _

theorem processDeltasReturn_append (ds : List Str) (d : Str) : ∀ b : ReplacementBuffer,
    processDeltasReturn v (ds ++ [d]) b = (processDeltasReturn v ds b &&
      (d.isEmpty || v.isEmpty || applyReturns ((processDeltas v ds b).2.buffer ++ d) v)) := by
  induction ds with
  | nil =>
      intro b
      rw [List.nil_append, processDeltasReturn, processDeltasReturn, processDeltasReturn,
        Bool.and_true, Bool.true_and]
      rfl
  | cons x ds ih =>
      intro b
      rw [List.cons_append, processDeltasReturn, processDeltasReturn, ih, Bool.and_assoc]
      rfl

/-- The beginning of a key at the end of what was processed is behind the cut. -/
theorem held_unfinished (hv : v.WellFormed) {b : ReplacementBuffer} (hb : b.Fresh v) (d x k : Str)
    (hk : k ∈ v.syntheticKeys) (hxk : x <+: k) (hlt : x.length < k.length) (hne : x ≠ [])
    (hopen : ¬ xmlTokenOpen <:+: b.processed v d) (hx : x <:+ b.processed v d) :
    x <:+ (b.processDelta v d).2.buffer := by
  by_cases hnil : d = []
  · rw [hnil] at hx ⊢
    rw [processDelta_nil]
    exact hx
  · have hempty : v.isEmpty = false := by
      rw [PiiVault.isEmpty, hv.count, beq_eq_false_iff_ne]
      exact Nat.ne_of_gt (List.length_pos_of_mem hk)
    have hdne : d.isEmpty = false := List.isEmpty_eq_false_iff.mpr hnil
    rcases processDelta_spec v hempty b hb d hnil with ⟨n, hn, _, hbuf, _⟩
    rw [processed, hdne, hempty, if_neg Bool.false_ne_true, if_neg Bool.false_ne_true] at hopen hx
    generalize applyXmlTokenCascade (b.buffer ++ d) v = text at hn hbuf hopen hx
    have hsafe := computeSafeFlushLen_unfinished v hv.maxLen text x hx
      (fun h => hopen (h.trans hx.isInfix)) ⟨k, hk, hxk, hlt⟩ hne
    -- the cut is in front of the beginning, and rounding does not move it forward
    have hround := findCharBoundary_le text
      (computeSafeFlushLen text v.maxSyntheticKeyLen v.syntheticKeyPrefixes)
    have hle := hx.length_le
    rw [hbuf]
    refine List.suffix_of_suffix_length_le hx (List.drop_suffix n text) ?_
    rw [List.length_drop]
    omega

/-- After every delta the buffer holds an open token, or no more than the longest
    synthetic and three bytes, and the beginning of a synthetic at the end of the
    text is all in it. The originals and the deltas are strings, and every call
    returns. -/
theorem held_window (hv : v.WellFormed) (horig : ∀ o ∈ v.originalValues, utf8Valid o = true)
    (ds : List Str) (d : Str) (hds : ∀ x ∈ ds ++ [d], utf8Valid x = true)
    (hret : processDeltasReturn v (ds ++ [d]) ReplacementBuffer.new = true) :
    (OpenToken (processDeltas v (ds ++ [d]) ReplacementBuffer.new).2.buffer ∨
      (processDeltas v (ds ++ [d]) ReplacementBuffer.new).2.buffer.length ≤
        v.maxSyntheticKeyLen + 3) ∧
    ∀ x, ∀ k ∈ v.syntheticKeys, x <+: k → x.length < k.length → x ≠ [] →
      ¬ xmlTokenOpen <:+: (processDeltas v ds ReplacementBuffer.new).2.processed v d →
      x <:+ (processDeltas v ds ReplacementBuffer.new).2.processed v d →
        x <:+ (processDeltas v (ds ++ [d]) ReplacementBuffer.new).2.buffer := by
  rw [processDeltasReturn_append, Bool.and_eq_true] at hret
  have hbefore := Window.processDeltas hv horig ds _ (Window.new hv)
    (fun x hx => hds x (List.mem_append_left _ hx)) hret.1
  rw [processDeltas_append]
  refine ⟨(hbefore.processDelta hv horig d ?_ hret.2).bounded, ?_⟩
  · exact hds d (List.mem_append_right _ List.mem_cons_self)
  · intro x k hk hxk hlt hne hopen hx
    exact held_unfinished hv hbefore.fresh d x k hk hxk hlt hne hopen hx

/-- A delta that ends with the first two bytes of the only synthetic. -/
theorem held_window_beginning :
    lit "bo" <:+ (processDeltas ((PiiVault.empty (lit "c") 0).addMapping (lit "ann") (lit "bob")
      .personName 1 F32.one) ([lit "hi "] ++ [lit "bo"]) ReplacementBuffer.new).2.buffer :=
  (held_window ((PiiVault.WellFormed.empty (lit "c") 0).addMapping (lit "ann") (lit "bob")
    .personName 1 F32.one) (by decide) [lit "hi "] (lit "bo") (by decide) (by decide)).2
    (lit "bo") (lit "bob") (by decide) (by decide) (by decide) (by decide) (by decide) (by decide)

end ReplacementBuffer

end PrivacyClaw
