import PrivacyClaw.Core.Pipeline
import PrivacyClaw.Lib.Writes

/-!
# What Phase 3 Writes

The vault side of the replacement loops, said once.

Each token that Phase 3 enters into the vault is an `Issue`: an index, a
display value and an original. `Indexed` says that the three index maps of a
vault came about by writing a list of issues, in order. Both loops are
characterised this way, so that every later statement about the maps is a
statement about a list of writes.

## Main definitions

* `Issue`: One token entered into the vault.
* `Indexed`: The index maps after a list of issues.
* `stage1Issues`, `stage2Issues`: The issues of the two loops.
* `reachedFrom`: The spans that the second loop comes to.

## Theorems

* `Indexed.lookup_byId`, `Indexed.lookup_full`: What an issue's id and token
  resolve to.
* `getOrCreate_indexed`: Generating a synthetic leaves the index maps.
* `replaceSpansFrom_cases`: What one round of the loop can do.
* `replaceSpansFrom_invariant`: What the loop keeps.
* `replaceSpansFrom_positions`: The numbers and originals of what is replaced.
* `replaceSpansFrom_keys`, `insertStage1_keys`: The loops only add keys.
* `replaceSpansFrom_reached`: What is replaced of what is reached.
* `replaceSpansFrom_indexed`, `insertStage1_indexed`: The two loops.
* `phase3Entry_cases`, `phase3Step_vault`: One text.
* `processRequestBodyAsync_cases`: A whole request.
-/

namespace PrivacyClaw

/-- A token entered into the vault. -/
structure Issue where
  index : Nat
  displayValue : Str
  original : Str
  deriving DecidableEq, Repr

namespace Issue

variable (h : Hashes) (convId : Str)

/-- The id the token carries. -/
def tokenId (i : Issue) : Str := generateTokenId h convId i.index

/-- The token. -/
def token (i : Issue) : Str := xmlToken (i.tokenId h convId) i.displayValue

end Issue

/-- The index maps of `v'` are those of `v` after the issues, in order. -/
structure Indexed (h : Hashes) (convId : Str) (v : PiiVault) (issues : List Issue)
    (v' : PiiVault) : Prop where
  full : v'.fullTokenToOriginal =
    Writes.all v.fullTokenToOriginal (issues.map fun i => (i.token h convId, i.original))
  byId : v'.tokenIdToOriginal =
    Writes.all v.tokenIdToOriginal (issues.map fun i => (i.tokenId h convId, i.original))
  byDisplay : v'.displayValueToOriginal =
    Writes.all v.displayValueToOriginal (issues.map fun i => (i.displayValue, i.original))
  conversationId : v'.conversationId = v.conversationId

namespace Indexed

variable {h : Hashes} {convId : Str} {v v' v'' : PiiVault} {l l' : List Issue}

theorem refl (v : PiiVault) : Indexed h convId v [] v := ⟨rfl, rfl, rfl, rfl⟩

theorem trans (h₁ : Indexed h convId v l v') (h₂ : Indexed h convId v' l' v'') :
    Indexed h convId v (l ++ l') v'' := by
  refine ⟨?_, ?_, ?_, h₂.conversationId.trans h₁.conversationId⟩
  · rw [h₂.full, h₁.full, List.map_append, Writes.all_append]
  · rw [h₂.byId, h₁.byId, List.map_append, Writes.all_append]
  · rw [h₂.byDisplay, h₁.byDisplay, List.map_append, Writes.all_append]

/-- An id that one issue alone carries resolves to that issue's original. -/
theorem lookup_byId (hidx : Indexed h convId v l v') (i : Issue) (hi : i ∈ l)
    (huniq : ∀ j ∈ l, j.tokenId h convId = i.tokenId h convId → j.original = i.original) :
    v'.tokenIdToOriginal.lookup (i.tokenId h convId) = some i.original := by
  rw [hidx.byId]
  refine Writes.lookup_all_of_unique _ _ _ _ (List.mem_map.mpr ⟨i, hi, rfl⟩) ?_
  intro y hy
  rcases List.mem_map.mp hy with ⟨j, hj, he⟩
  rw [Prod.mk.injEq] at he
  rw [← he.2]
  exact huniq j hj he.1

/-- With the id of an issue, the token resolves as issued when the display
    value is the issue's, and as before otherwise. -/
theorem lookup_full (hidx : Indexed h convId v l v') (i : Issue) (hi : i ∈ l)
    (huniq : ∀ j ∈ l, j.tokenId h convId = i.tokenId h convId → j = i) (d : Str) :
    v'.fullTokenToOriginal.lookup (xmlToken (i.tokenId h convId) d) =
      if d = i.displayValue then some i.original
      else v.fullTokenToOriginal.lookup (xmlToken (i.tokenId h convId) d) := by
  -- a write to this token comes from this issue, with its display value
  have hkey : ∀ y, (xmlToken (i.tokenId h convId) d, y) ∈
      l.map (fun j => (j.token h convId, j.original)) → d = i.displayValue ∧ y = i.original := by
    intro y hy
    rcases List.mem_map.mp hy with ⟨j, hj, he⟩
    rw [Prod.mk.injEq] at he
    have hlen : (j.tokenId h convId).length = (i.tokenId h convId).length := by
      rw [Issue.tokenId, Issue.tokenId, generateTokenId_length, generateTokenId_length]
    rcases xmlToken_inj _ _ _ _ hlen he.1 with ⟨hid, hd⟩
    have hji := huniq j hj hid
    exact ⟨by rw [← hd, hji], by rw [← he.2, hji]⟩
  rw [hidx.full]
  by_cases hd : d = i.displayValue
  · rw [if_pos hd]
    refine Writes.lookup_all_of_unique _ _ _ _ (List.mem_map.mpr ⟨i, hi, ?_⟩)
      (fun y hy => (hkey y hy).2)
    rw [hd]
    rfl
  · rw [if_neg hd]
    exact Writes.lookup_all_of_not_mem _ _ _ (fun y hy => hd (hkey y hy).1)

end Indexed

theorem addMapping_indexed (h : Hashes) (convId : Str) (v : PiiVault) (o s : Str) (ty : PiiType)
    (tier : UInt8) (conf : F32) : Indexed h convId v [] (v.addMapping o s ty tier conf) := by
  unfold PiiVault.addMapping
  split
  · exact Indexed.refl v
  · exact ⟨rfl, rfl, rfl, rfl⟩

theorem addMappingWithTokenId_indexed (h : Hashes) (convId : Str) (v : PiiVault) (i : Issue)
    (ty : PiiType) (tier : UInt8) (conf : F32) :
    Indexed h convId v [i]
      (v.addMappingWithTokenId i.original i.displayValue (i.tokenId h convId) ty tier conf) := by
  unfold PiiVault.addMappingWithTokenId
  split
  · exact ⟨rfl, rfl, rfl, rfl⟩
  · exact ⟨rfl, rfl, rfl, rfl⟩

section Loops

variable (R : Rand) (C : Chrono) (h : Hashes)

/-- A synthetic that is looked up or generated leaves the index maps alone. -/
theorem getOrCreate_indexed (convId : Str) (v v' : PiiVault) (o s : Str) (ty : PiiType)
    (locale : Locale) (tier : UInt8) (conf : F32)
    (hrun : getOrCreate R C v o ty locale tier conf = some (s, v')) :
    Indexed h convId v [] v' := by
  rcases getOrCreate_cases R C v v' o s ty locale tier conf hrun with ⟨_, rfl⟩ | ⟨_, _, rfl⟩
  · exact Indexed.refl _
  · exact addMapping_indexed h convId v o s ty tier conf

/-- What one round of the loop can do: skip the span, copy a text that is a
    synthetic already, or write a token and enter it into the vault. -/
theorem replaceSpansFrom_cases (text : Str) (locale : Locale) (convId : Str) (base : Nat)
    (span : PiiSpan) (spans : List PiiSpan) (i last : Nat) (v v' : PiiVault) (out : Str)
    (replaced : List Replaced)
    (hrun : replaceSpansFrom R C h text locale convId base (span :: spans) i last v =
      some (out, replaced, v')) :
    (span.start < last ∨ text.length < span.stop) ∧
      replaceSpansFrom R C h text locale convId base spans (i + 1) last v =
        some (out, replaced, v') ∨
    ¬(span.start < last ∨ text.length < span.stop) ∧
      ∃ gap original, slice text last span.start = some gap ∧
        slice text span.start span.stop = some original ∧
        (v.isSynthetic original = true ∧
          (∃ out', replaceSpansFrom R C h text locale convId base spans (i + 1) span.stop v =
              some (out', replaced, v') ∧ out = gap ++ original ++ out') ∨
        v.isSynthetic original = false ∧
          ∃ d v₁ out' replaced',
            getOrCreate R C v original span.entityType locale span.tier span.confidence =
              some (d, v₁) ∧
            replaceSpansFrom R C h text locale convId base spans (i + 1) span.stop
                (v₁.addMappingWithTokenId original d (generateTokenId h convId (base + i))
                  span.entityType span.tier span.confidence) = some (out', replaced', v') ∧
            out = gap ++ xmlToken (generateTokenId h convId (base + i)) d ++ out' ∧
            replaced = ⟨i, span, original, d⟩ :: replaced') := by
  rw [replaceSpansFrom] at hrun
  by_cases hskip : span.start < last ∨ text.length < span.stop
  · rw [if_pos hskip] at hrun
    exact Or.inl ⟨hskip, hrun⟩
  · rw [if_neg hskip] at hrun
    refine Or.inr ⟨hskip, ?_⟩
    rw [Option.bind_eq_bind, Option.bind_eq_some_iff] at hrun
    rcases hrun with ⟨gap, hgap, hrun⟩
    rw [Option.bind_eq_some_iff] at hrun
    rcases hrun with ⟨original, horig, hrun⟩
    refine ⟨gap, original, hgap, horig, ?_⟩
    -- A synthetic of the vault stays as it is; anything else is tokenized.
    cases hsyn : v.isSynthetic original with
    | true =>
        rw [hsyn, if_pos rfl, Option.bind_eq_bind, Option.bind_eq_some_iff] at hrun
        rcases hrun with ⟨⟨out', replaced', w⟩, hrest, hrun⟩
        simp only [Option.some.injEq, Prod.mk.injEq] at hrun
        rcases hrun with ⟨rfl, rfl, rfl⟩
        exact Or.inl ⟨rfl, out', hrest, rfl⟩
    | false =>
        rw [hsyn, if_neg (by decide), Option.bind_eq_bind, Option.bind_eq_some_iff] at hrun
        rcases hrun with ⟨⟨d, v₁⟩, hcreate, hrun⟩
        simp only [Option.bind_eq_bind, Option.bind_eq_some_iff] at hrun
        rcases hrun with ⟨⟨out', replaced', w⟩, hrest, hrun⟩
        simp only [Option.some.injEq, Prod.mk.injEq] at hrun
        rcases hrun with ⟨rfl, rfl, rfl⟩
        exact Or.inr ⟨rfl, d, v₁, out', replaced', hcreate, hrest, rfl, rfl⟩

/-- What looking up, creating and entering keep, the span loop keeps. -/
theorem replaceSpansFrom_invariant (text : Str) (locale : Locale) (convId : Str) (base : Nat)
    (P : PiiVault → Prop)
    (hcreate : ∀ v v' o d ty tier conf,
      getOrCreate R C v o ty locale tier conf = some (d, v') → P v → P v')
    (hadd : ∀ (v : PiiVault) o d tokenId ty tier conf, P v →
      P (v.addMappingWithTokenId o d tokenId ty tier conf)) :
    ∀ (spans : List PiiSpan) (i last : Nat) (v v' : PiiVault) (out : Str)
      (replaced : List Replaced),
      replaceSpansFrom R C h text locale convId base spans i last v = some (out, replaced, v') →
      P v → P v' := by
  intro spans
  induction spans with
  | nil =>
      intro i last v v' out replaced hrun hv
      rw [replaceSpansFrom, Option.bind_eq_bind, Option.bind_eq_some_iff] at hrun
      rcases hrun with ⟨tail, _, hrun⟩
      simp only [Option.some.injEq, Prod.mk.injEq] at hrun
      rw [← hrun.2.2]
      exact hv
  | cons span spans ih =>
      intro i last v v' out replaced hrun hv
      rcases replaceSpansFrom_cases R C h text locale convId base span spans i last v v' out replaced
        hrun with ⟨_, hrest⟩ | ⟨_, gap, original, _, _, hround⟩
      · exact ih _ _ _ _ _ _ hrest hv
      -- Either there is nothing to replace, or a value is made and its token entered.
      · rcases hround with ⟨_, out', hrest, _⟩ | ⟨_, d, v₁, out', replaced', hnew, hrest, _, _⟩
        · exact ih _ _ _ _ _ _ hrest hv
        · exact ih _ _ _ _ _ _ hrest (hadd _ _ _ _ _ _ _ (hcreate _ _ _ _ _ _ _ hnew hv))

/-- The issues of the span loop. -/
def stage2Issues (base : Nat) (replaced : List Replaced) : List Issue :=
  replaced.map fun r => ⟨base + r.position, r.displayValue, r.original⟩

/-- The issues of the Stage-1 inserts: numbered in the order of recording. -/
def stage1Issues (base : Nat) : List Stage1Span → Nat → List Issue
  | [], _ => []
  | s :: spans, j => ⟨base + j, s.displayValue, s.originalText⟩ :: stage1Issues base spans (j + 1)

theorem mem_stage1Issues (base : Nat) (i : Issue) : ∀ (spans : List Stage1Span) (j : Nat),
    i ∈ stage1Issues base spans j ↔
      ∃ k s, spans[k]? = some s ∧ i = ⟨base + (j + k), s.displayValue, s.originalText⟩ := by
  intro spans
  induction spans with
  | nil =>
      intro j
      simp only [stage1Issues, List.not_mem_nil, List.getElem?_nil, reduceCtorEq, false_and,
        exists_false]
  | cons s spans ih =>
      intro j
      rw [stage1Issues, List.mem_cons, ih]
      constructor
      · rintro (rfl | ⟨k, s', hk, rfl⟩)
        · exact ⟨0, s, rfl, rfl⟩
        · exact ⟨k + 1, s', hk, by rw [show j + 1 + k = j + (k + 1) by omega]⟩
      · rintro ⟨k, s', hk, rfl⟩
        cases k with
        | zero =>
            rw [List.getElem?_cons_zero, Option.some.injEq] at hk
            rw [← hk]
            exact Or.inl rfl
        | succ k =>
            rw [List.getElem?_cons_succ] at hk
            exact Or.inr ⟨k, s', hk, by rw [show j + 1 + k = j + (k + 1) by omega]⟩

/-- What is replaced carries the numbers of the spans, each at most once and
    in order, and the text that stood there. -/
theorem replaceSpansFrom_positions (text : Str) (locale : Locale) (convId : Str) (base : Nat) :
    ∀ (spans : List PiiSpan) (i last : Nat) (v v' : PiiVault) (out : Str)
      (replaced : List Replaced),
      replaceSpansFrom R C h text locale convId base spans i last v = some (out, replaced, v') →
      replaced.Pairwise (fun a b => a.position < b.position) ∧
        ∀ r ∈ replaced, i ≤ r.position ∧ spans[r.position - i]? = some r.span ∧
          slice text r.span.start r.span.stop = some r.original := by
  intro spans
  induction spans with
  | nil =>
      intro i last v v' out replaced hrun
      rw [replaceSpansFrom, Option.bind_eq_bind, Option.bind_eq_some_iff] at hrun
      rcases hrun with ⟨tail, _, hrun⟩
      simp only [Option.some.injEq, Prod.mk.injEq] at hrun
      rcases hrun with ⟨_, rfl, _⟩
      exact ⟨List.Pairwise.nil, fun r hr => absurd hr List.not_mem_nil⟩
  | cons span spans ih =>
      intro i last v v' out replaced hrun
      -- a span further on has its number shifted by one
      have hshift : ∀ rs : List Replaced, (∀ r ∈ rs, i + 1 ≤ r.position ∧
            spans[r.position - (i + 1)]? = some r.span ∧
            slice text r.span.start r.span.stop = some r.original) →
          ∀ r ∈ rs, i ≤ r.position ∧ (span :: spans)[r.position - i]? = some r.span ∧
            slice text r.span.start r.span.stop = some r.original := by
        intro rs hrs r hr
        rcases hrs r hr with ⟨h1, h2, h3⟩
        refine ⟨by omega, ?_, h3⟩
        rw [show r.position - i = r.position - (i + 1) + 1 by omega, List.getElem?_cons_succ]
        exact h2
      rcases replaceSpansFrom_cases R C h text locale convId base span spans i last v v' out replaced
        hrun with ⟨_, hrest⟩ | ⟨_, gap, original, _, horig, hround⟩
      · rcases ih _ _ _ _ _ _ hrest with ⟨hpair, hmem⟩
        exact ⟨hpair, hshift replaced hmem⟩
      · rcases hround with ⟨_, out', hrest, _⟩ | ⟨_, d, v₁, out', replaced', _, hrest, _, rfl⟩
        · rcases ih _ _ _ _ _ _ hrest with ⟨hpair, hmem⟩
          exact ⟨hpair, hshift replaced hmem⟩
        · rcases ih _ _ _ _ _ _ hrest with ⟨hpair, hmem⟩
          refine ⟨List.pairwise_cons.mpr ⟨fun r hr => (hmem r hr).1, hpair⟩, ?_⟩
          intro r hr
          rcases List.mem_cons.mp hr with rfl | hr
          · exact ⟨Nat.le_refl _, by rw [Nat.sub_self]; rfl, horig⟩
          · exact hshift replaced' hmem r hr

theorem PiiVault.isSynthetic_iff (v : PiiVault) (s : Str) :
    v.isSynthetic s = true ↔ s ∈ v.syntheticKeys := by
  simp only [isSynthetic, List.any_eq_true, beq_iff_eq, exists_eq_right]

/-- The spans that the loop comes to, with their numbers. One that begins in front of the
    end of the last, or ends behind the text, is passed over. -/
def reachedFrom (n : Nat) : List PiiSpan → Nat → Nat → List (Nat × PiiSpan)
  | [], _, _ => []
  | span :: spans, i, last =>
    if span.start < last ∨ n < span.stop then reachedFrom n spans (i + 1) last
    else (i, span) :: reachedFrom n spans (i + 1) span.stop

theorem getOrCreate_keys (locale : Locale) (v v' : PiiVault) (o d : Str) (ty : PiiType)
    (tier : UInt8) (conf : F32) (hrun : getOrCreate R C v o ty locale tier conf = some (d, v')) :
    v.syntheticKeys ⊆ v'.syntheticKeys := by
  rcases getOrCreate_cases R C v v' o d ty locale tier conf hrun with ⟨_, rfl⟩ | ⟨_, _, rfl⟩
  · exact List.Subset.refl _
  · unfold PiiVault.addMapping
    split
    · exact List.Subset.refl _
    · exact List.subset_append_left _ _

theorem addMappingWithTokenId_keys (v : PiiVault) (o d tokenId : Str) (ty : PiiType) (tier : UInt8)
    (conf : F32) :
    v.syntheticKeys ⊆ (v.addMappingWithTokenId o d tokenId ty tier conf).syntheticKeys := by
  unfold PiiVault.addMappingWithTokenId
  dsimp only
  split
  · exact List.Subset.refl _
  · exact List.subset_append_left _ _

theorem insertStage1_keys (convId : Str) (base : Nat) :
    ∀ (spans : List Stage1Span) (j : Nat) (v : PiiVault),
      v.syntheticKeys ⊆ (insertStage1 h convId base spans j v).syntheticKeys := by
  intro spans
  induction spans with
  | nil => exact fun _ _ => List.Subset.refl _
  | cons s spans ih =>
      exact fun j v => List.Subset.trans (addMappingWithTokenId_keys v _ _ _ _ _ _) (ih (j + 1) _)

/-- Masking only adds keys. -/
theorem replaceSpansFrom_keys (text : Str) (locale : Locale) (convId : Str) (base : Nat)
    (spans : List PiiSpan) (i last : Nat) (v v' : PiiVault) (out : Str) (replaced : List Replaced)
    (hrun : replaceSpansFrom R C h text locale convId base spans i last v =
      some (out, replaced, v')) : v.syntheticKeys ⊆ v'.syntheticKeys := by
  refine replaceSpansFrom_invariant R C h text locale convId base
    (fun w => v.syntheticKeys ⊆ w.syntheticKeys) ?_ ?_ spans i last v v' out replaced hrun
    (List.Subset.refl _)
  · intro w w' o d ty tier conf hcreate hw
    exact List.Subset.trans hw (getOrCreate_keys R C locale w w' o d ty tier conf hcreate)
  · exact fun w o d tokenId ty tier conf hw =>
      List.Subset.trans hw (addMappingWithTokenId_keys w o d tokenId ty tier conf)

/-- What is replaced was reached, and is no synthetic of the vault. What was reached is
    replaced unless it is a synthetic by the end. -/
theorem replaceSpansFrom_reached (text : Str) (locale : Locale) (convId : Str) (base : Nat) :
    ∀ (spans : List PiiSpan) (i last : Nat) (v v' : PiiVault) (out : Str)
      (replaced : List Replaced),
      replaceSpansFrom R C h text locale convId base spans i last v = some (out, replaced, v') →
      (∀ r ∈ replaced, (r.position, r.span) ∈ reachedFrom text.length spans i last ∧
        slice text r.span.start r.span.stop = some r.original ∧ r.original ∉ v.syntheticKeys) ∧
      ∀ k span o, (k, span) ∈ reachedFrom text.length spans i last →
        slice text span.start span.stop = some o → o ∉ v'.syntheticKeys →
        ∃ r ∈ replaced, r.position = k ∧ r.original = o := by
  intro spans
  induction spans with
  | nil =>
      intro i last v v' out replaced hrun
      rw [replaceSpansFrom, Option.bind_eq_bind, Option.bind_eq_some_iff] at hrun
      rcases hrun with ⟨tail, _, hrun⟩
      simp only [Option.some.injEq, Prod.mk.injEq] at hrun
      rcases hrun with ⟨_, rfl, _⟩
      exact ⟨fun r hr => absurd hr List.not_mem_nil, fun _ _ _ hk => absurd hk List.not_mem_nil⟩
  | cons span spans ih =>
      intro i last v v' out replaced hrun
      rw [reachedFrom]
      rcases replaceSpansFrom_cases R C h text locale convId base span spans i last v v' out replaced
        hrun with ⟨hskip, hrest⟩ | ⟨hskip, gap, original, _, horig, hround⟩
      · rw [if_pos hskip]
        exact ih _ _ _ _ _ _ hrest
      · rw [if_neg hskip]
        rcases hround with ⟨hknown, out', hrest, _⟩ | ⟨hnew, d, v₁, out', replaced', hcreate, hrest, _,
          rfl⟩
        · -- the text is a synthetic, and stays one
          have hkey := replaceSpansFrom_keys R C h text locale convId base _ _ _ _ _ _ _ hrest
            ((v.isSynthetic_iff original).mp hknown)
          rcases ih _ _ _ _ _ _ hrest with ⟨hin, hout⟩
          refine ⟨fun r hr => ⟨List.mem_cons_of_mem _ (hin r hr).1, (hin r hr).2⟩, ?_⟩
          intro k s o hk hslice ho
          rcases List.mem_cons.mp hk with he | hk
          · rw [Prod.mk.injEq] at he
            rw [he.2, horig, Option.some.injEq] at hslice
            exact absurd (hslice ▸ hkey) ho
          · exact hout k s o hk hslice ho
        · rcases ih _ _ _ _ _ _ hrest with ⟨hin, hout⟩
          have hgrow : v.syntheticKeys ⊆ _ := List.Subset.trans
            (getOrCreate_keys R C locale v v₁ original d _ _ _ hcreate)
            (addMappingWithTokenId_keys v₁ original d (generateTokenId h convId (base + i))
              span.entityType span.tier span.confidence)
          constructor
          · intro r hr
            rcases List.mem_cons.mp hr with rfl | hr
            · refine ⟨List.mem_cons_self, horig, fun hk => ?_⟩
              rw [(v.isSynthetic_iff original).mpr hk] at hnew
              exact Bool.noConfusion hnew
            · exact ⟨List.mem_cons_of_mem _ (hin r hr).1, (hin r hr).2.1,
                fun hk => (hin r hr).2.2 (hgrow hk)⟩
          · intro k s o hk hslice ho
            rcases List.mem_cons.mp hk with he | hk
            · rw [Prod.mk.injEq] at he
              rw [he.2, horig, Option.some.injEq] at hslice
              exact ⟨_, List.mem_cons_self, he.1.symm, hslice⟩
            · rcases hout k s o hk hslice ho with ⟨r, hr, hr'⟩
              exact ⟨r, List.mem_cons_of_mem _ hr, hr'⟩

/-- What the span loop does to the vault, by the spans it replaces: only these
    change it, each by a synthetic and an index entry. -/
theorem replaceSpansFrom_induction (text : Str) (locale : Locale) (convId : Str) (base : Nat)
    (motive : List Replaced → PiiVault → PiiVault → Prop) (hnil : ∀ v, motive [] v v)
    (hcons : ∀ (i : Nat) (span : PiiSpan) (original d : Str) (v v₁ v' : PiiVault)
      (replaced : List Replaced),
      getOrCreate R C v original span.entityType locale span.tier span.confidence = some (d, v₁) →
      motive replaced (v₁.addMappingWithTokenId original d (generateTokenId h convId (base + i))
        span.entityType span.tier span.confidence) v' →
      motive (⟨i, span, original, d⟩ :: replaced) v v') :
    ∀ (spans : List PiiSpan) (i last : Nat) (v v' : PiiVault) (out : Str)
      (replaced : List Replaced),
      replaceSpansFrom R C h text locale convId base spans i last v = some (out, replaced, v') →
      motive replaced v v' := by
  intro spans
  induction spans with
  | nil =>
      intro i last v v' out replaced hrun
      rw [replaceSpansFrom, Option.bind_eq_bind, Option.bind_eq_some_iff] at hrun
      rcases hrun with ⟨tail, _, hrun⟩
      simp only [Option.some.injEq, Prod.mk.injEq] at hrun
      rcases hrun with ⟨_, rfl, rfl⟩
      exact hnil v
  | cons span spans ih =>
      intro i last v v' out replaced hrun
      rcases replaceSpansFrom_cases R C h text locale convId base span spans i last v v' out replaced
        hrun with ⟨_, hrest⟩ | ⟨_, gap, original, _, _, hround⟩
      -- An overlapping span and one without text are passed over.
      · exact ih _ _ _ _ _ _ hrest
      · rcases hround with ⟨_, out', hrest, _⟩ | ⟨_, d, v₁, out', replaced', hcreate, hrest, _, rfl⟩
        · exact ih _ _ _ _ _ _ hrest
        · exact hcons i span original d v v₁ v' replaced' hcreate (ih _ _ _ _ _ _ hrest)

/-- The span loop writes its issues. -/
theorem replaceSpansFrom_indexed (text : Str) (locale : Locale) (convId : Str) (base : Nat) :
    ∀ (spans : List PiiSpan) (i last : Nat) (v v' : PiiVault) (out : Str)
      (replaced : List Replaced),
      replaceSpansFrom R C h text locale convId base spans i last v = some (out, replaced, v') →
      Indexed h convId v (stage2Issues base replaced) v' := by
  refine replaceSpansFrom_induction R C h text locale convId base
    (fun replaced v v' => Indexed h convId v (stage2Issues base replaced) v') Indexed.refl ?_
  intro i span original d v v₁ v' replaced hcreate hrest
  have h1 := getOrCreate_indexed R C h convId v v₁ original d _ _ _ _ hcreate
  have h2 := addMappingWithTokenId_indexed h convId v₁ ⟨base + i, d, original⟩
    span.entityType span.tier span.confidence
  exact (h1.trans h2).trans hrest

/-- The Stage-1 inserts write their issues. -/
theorem insertStage1_indexed (convId : Str) (base : Nat) :
    ∀ (spans : List Stage1Span) (j : Nat) (v : PiiVault),
      Indexed h convId v (stage1Issues base spans j) (insertStage1 h convId base spans j v) := by
  intro spans
  induction spans with
  | nil => intro j v; exact Indexed.refl v
  | cons s spans ih =>
      intro j v
      exact (addMappingWithTokenId_indexed h convId v ⟨base + j, s.displayValue, s.originalText⟩
        (.custom s.piiType) 3 F32.one).trans (ih (j + 1) _)

/-- Phase 3 for one text is the Stage-1 inserts and the span loop after them. -/
theorem phase3Entry_cases (convId : Str) (base : Nat) (locale : Locale) (result : EntryResult)
    (v v' : PiiVault) (out : Str) (dets : List PiiDetection)
    (hrun : phase3Entry R C h convId base locale result v = some (out, dets, v')) :
    ∃ replaced, replaceSpansFrom R C h result.replacedText locale convId
        (base + result.stage1Spans.length) result.stage2Spans 0 0
        (insertStage1 h convId base result.stage1Spans 0 v) = some (out, replaced, v') ∧
      dets = stage1Detections result.stage1Spans ++ replaced.map Replaced.detection := by
  simp only [phase3Entry, replaceWithSpansXml, Option.bind_eq_bind, Option.bind_eq_some_iff]
    at hrun
  rcases hrun with ⟨⟨out', dets', w⟩, ⟨⟨out'', replaced, w'⟩, hloop, hmid⟩, hrun⟩
  simp only [Option.some.injEq, Prod.mk.injEq] at hmid hrun
  rcases hmid with ⟨rfl, rfl, rfl⟩
  rcases hrun with ⟨rfl, rfl, rfl⟩
  exact ⟨replaced, hloop, rfl⟩

/-- Phase 3 for one collected text: without a result nothing happens, with one
    the vault is that of `phase3Entry`. -/
theorem phase3Step_vault (convId : Str) (base : Nat) (locale : Locale) (entry : MessageTextEntry)
    (result : Option EntryResult) (s s' : Phase3State)
    (hrun : phase3Step R C h convId base locale entry result s = some s') :
    result = none ∧ s'.vault = s.vault ∨
      ∃ r out dets, result = some r ∧
        phase3Entry R C h convId base locale r s.vault = some (out, dets, s'.vault) := by
  cases result with
  | none =>
      rw [phase3Step, Option.some.injEq] at hrun
      exact Or.inl ⟨rfl, by rw [hrun]⟩
  | some r =>
      rw [phase3Step, Option.bind_eq_bind, Option.bind_eq_some_iff] at hrun
      rcases hrun with ⟨⟨out, dets, w⟩, hentry, hrun⟩
      refine Or.inr ⟨r, out, dets, rfl, ?_⟩
      -- The texts that go back into the body do not touch the vault.
      dsimp only at hrun
      split at hrun
      · rw [Option.some.injEq] at hrun
        rw [← hrun]
        exact hentry
      · split at hrun
        · rw [Option.some.injEq] at hrun
          rw [← hrun]
          exact hentry
        · rw [Option.some.injEq] at hrun
          rw [← hrun]
          exact hentry

/-- A run over a body with message texts: Phase 2 gave a result for each, and
    either nothing was found or Phase 3 ran from the locked vault. -/
theorem processRequestBodyAsync_cases (p : PiiPipeline) (J : SerdeJson) (body : List UInt8)
    (reads : Nat → Nat) (v v' : PiiVault) (provider : Provider) (locale : Locale) (value : Value)
    (res : Option (Str × List PiiDetection)) (hval : J.fromSlice body = some value)
    (hne : collectMessageTexts value provider.messagesField ≠ [])
    (hrun : p.processRequestBodyAsync R C h J body reads v provider locale = some (res, v')) :
    ∃ results, p.phase2All h v.conversationId reads locale
        (collectMessageTexts value provider.messagesField) 0 = some results ∧
      (results.all Option.isNone = true ∧ v' = v ∨
        ∃ msgs s, phase3 R C h v.conversationId v.mappingCount locale
            ((collectMessageTexts value provider.messagesField).zip results)
            ⟨v, msgs, [], false⟩ = some s ∧ v' = s.vault) := by
  have hempty : (collectMessageTexts value provider.messagesField).isEmpty = false := by
    rw [← Bool.not_eq_true, List.isEmpty_iff]
    exact hne
  -- texts were collected, so the messages array is there
  have hmsgs : ∃ fields msgs, value = .object fields ∧
      value.getArray provider.messagesField = some msgs := by
    cases hg : value.getArray provider.messagesField with
    | none =>
        refine absurd ?_ hne
        rw [collectMessageTexts, hg]
    | some msgs =>
        cases value with
        | object fields => exact ⟨fields, msgs, rfl, rfl⟩
        | _ => exact absurd hg (by simp only [Value.getArray, Value.get, Option.bind_none,
            reduceCtorEq, not_false_eq_true])
  rcases hmsgs with ⟨fields, msgs, rfl, harray⟩
  simp only [PiiPipeline.processRequestBodyAsync, hval, hempty, Bool.false_eq_true, if_false,
    Option.bind_eq_bind, Option.bind_eq_some_iff] at hrun
  rcases hrun with ⟨results, hphase2, hrun⟩
  refine ⟨results, hphase2, ?_⟩
  cases hall : results.all Option.isNone with
  | true =>
      rw [hall, if_pos rfl, Option.some.injEq, Prod.mk.injEq] at hrun
      exact Or.inl ⟨rfl, hrun.2.symm⟩
  | false =>
      simp only [hall, Bool.false_eq_true, if_false, harray, Option.bind_eq_some_iff] at hrun
      rcases hrun with ⟨s, hphase3, hrun⟩
      refine Or.inr ⟨msgs, s, hphase3, ?_⟩
      split at hrun
      · rw [Option.some.injEq, Prod.mk.injEq] at hrun
        exact hrun.2.symm
      · rw [Option.some.injEq, Prod.mk.injEq] at hrun
        exact hrun.2.symm

end Loops

end PrivacyClaw
