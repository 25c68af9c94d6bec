import Mathlib.Data.List.Zip
import PrivacyClaw.Core.Synth

/-!
# The Vault's Invariant

What holds of every vault: its two directions hold the same pairs, the derived
fields follow the pairs, and the token indexes only name stored originals.

There are two ways to insert, and both come down to one insertion of a new
original (`WellFormed.insert`) and to writing the index maps, so the invariant
is proved for these and the operations inherit it.

## Main definitions

* `PiiVault.WellFormed`: The invariant.
* `PiiVault.firstOriginal`: The original at the first place of a key.
* `PiiVault.Reverses`: A synthetic is restored to an original.
* `PiiVault.Searchable`: The part of it that restoring relies on.

## Theorems

* `WellFormed.empty`, `WellFormed.new`: It holds at the start.
* `WellFormed.insert`: A new original keeps it.
* `WellFormed.addMapping`, `WellFormed.addMappingWithTokenId`,
  `WellFormed.getOrCreate`: The operations keep it.
* `Searchable.insert`, `Searchable.fromRecords`: What restoring relies on holds
  of a vault restored from any rows too.
* `Searchable.replaceSynthetics_eq_self`: Text without a key is left alone.
* `WellFormed.mem_syntheticKeys`: A stored synthetic is a key.
* `WellFormed.replaceSynthetics_firstOriginal`, `WellFormed.reverses_iff`: A key
  is restored to the original at its first place.
* `WellFormed.replaceSynthetics_key`: A key that stands for one original is
  restored to it.
-/

namespace PrivacyClaw

namespace PiiVault

/-- The original at the first place of a key. -/
def firstOriginal (v : PiiVault) (s : Str) : Option Str :=
  (v.syntheticKeys.zip v.originalValues).lookup s

/-- The synthetic `s`, standing alone, is restored to `o`. -/
def Reverses (v : PiiVault) (s o : Str) : Prop :=
  s ∈ v.syntheticKeys ∧ v.replaceSynthetics s = (o, true)

/-- The representation invariant. -/
structure WellFormed (v : PiiVault) : Prop where
  lengthOriginals : v.originalValues.length = v.syntheticKeys.length
  lengthLabels : v.piiTypeLabels.length = v.syntheticKeys.length
  lengthTiers : v.tiers.length = v.syntheticKeys.length
  lengthConfidences : v.confidences.length = v.syntheticKeys.length
  lengthTokenIds : v.tokenIds.length = v.syntheticKeys.length
  nodup : v.originalValues.Nodup
  mapping : ∀ o s, v.originalToSynthetic.lookup o = some s ↔
    (o, s) ∈ v.originalValues.zip v.syntheticKeys
  count : v.mappingCount = v.syntheticKeys.length
  maxLen : ∀ k ∈ v.syntheticKeys, k.length ≤ v.maxSyntheticKeyLen
  maxLenAttained : v.maxSyntheticKeyLen = 0 ∨
    ∃ k ∈ v.syntheticKeys, k.length = v.maxSyntheticKeyLen
  automaton : v.reverseAutomaton = if v.syntheticKeys = [] then none else some v.syntheticKeys
  fullStored : ∀ k o, v.fullTokenToOriginal.lookup k = some o → o ∈ v.originalToSynthetic
  idStored : ∀ k o, v.tokenIdToOriginal.lookup k = some o → o ∈ v.originalToSynthetic
  displayStored : ∀ k o, v.displayValueToOriginal.lookup k = some o → o ∈ v.originalToSynthetic

/-- The longest length stays a bound when a key is added. -/
theorem maxLen_append {keys : List Str} {m : Nat} (hmax : ∀ k ∈ keys, k.length ≤ m) (s : Str) :
    ∀ k ∈ keys ++ [s], k.length ≤ if m < s.length then s.length else m := by
  intro k hk
  rcases List.mem_append.mp hk with hk | hk
  · have := hmax k hk
    split <;> omega
  · rw [List.mem_singleton.mp hk]
    split <;> omega

namespace WellFormed

theorem empty (convId : Str) (seed : UInt64) : WellFormed (PiiVault.empty convId seed) where
  lengthOriginals := rfl
  lengthLabels := rfl
  lengthTiers := rfl
  lengthConfidences := rfl
  lengthTokenIds := rfl
  nodup := List.nodup_nil
  mapping o s := by
    simp only [PiiVault.empty, AList.lookup_empty, List.zip_nil_left, List.not_mem_nil,
      reduceCtorEq]
  count := rfl
  maxLen k hk := absurd hk List.not_mem_nil
  maxLenAttained := Or.inl rfl
  automaton := rfl
  fullStored k o h := absurd h (by simp only [PiiVault.empty, AList.lookup_empty, reduceCtorEq,
    not_false_eq_true])
  idStored k o h := absurd h (by simp only [PiiVault.empty, AList.lookup_empty, reduceCtorEq,
    not_false_eq_true])
  displayStored k o h := absurd h (by simp only [PiiVault.empty, AList.lookup_empty, reduceCtorEq,
    not_false_eq_true])

theorem new (h : Hashes) (convId : Str) : WellFormed (PiiVault.new h convId) :=
  empty convId _

variable {v : PiiVault}

theorem mem_originals_iff (hv : WellFormed v) (o : Str) :
    o ∈ v.originalValues ↔ o ∈ v.originalToSynthetic := by
  rw [← AList.lookup_isSome, Option.isSome_iff_exists]
  constructor
  · intro ho
    rcases List.mem_iff_getElem.mp ho with ⟨i, hi, rfl⟩
    have hi' : i < v.syntheticKeys.length := by rw [← hv.lengthOriginals]; exact hi
    have hz : i < (v.originalValues.zip v.syntheticKeys).length := by
      rw [List.length_zip]
      omega
    refine ⟨v.syntheticKeys[i], (hv.mapping _ _).mpr ?_⟩
    rw [← List.getElem_zip (h := hz)]
    exact List.getElem_mem hz
  · rintro ⟨s, hs⟩
    exact (List.of_mem_zip ((hv.mapping o s).mp hs)).1

/-- A stored synthetic is one of the keys. -/
theorem mem_syntheticKeys (hv : WellFormed v) (o s : Str) (hs : v.getSynthetic o = some s) :
    s ∈ v.syntheticKeys :=
  (List.of_mem_zip ((hv.mapping o s).mp hs)).2

/-- Inserting a new original and rebuilding the automaton keeps the
    invariant. -/
theorem insert (hv : WellFormed v) (o s label : Str) (tier : UInt8) (conf : F32) (tokenId : Str)
    (hnew : o ∉ v.originalToSynthetic) :
    WellFormed
      (v.insertMappingRawWithTokenId o s label tier conf tokenId).rebuildAutomaton := by
  have hlen : ∀ {β : Type} (l : List β) (x : β), l.length = v.syntheticKeys.length →
      (l ++ [x]).length = (v.syntheticKeys ++ [s]).length := fun l x hl => by
    rw [List.length_append, List.length_append, hl]
    rfl
  -- an original stored before is still stored
  have hkeep : ∀ p, p ∈ v.originalToSynthetic → p ∈ v.originalToSynthetic.insert o s :=
    fun p hp => (AList.mem_insert _).mpr (Or.inr hp)
  refine
    { lengthOriginals := hlen _ _ hv.lengthOriginals
      lengthLabels := hlen _ _ hv.lengthLabels
      lengthTiers := hlen _ _ hv.lengthTiers
      lengthConfidences := hlen _ _ hv.lengthConfidences
      lengthTokenIds := hlen _ _ hv.lengthTokenIds
      nodup := ?_, mapping := ?_, count := ?_, maxLen := ?_, maxLenAttained := ?_
      automaton := rfl
      fullStored := fun k p hp => hkeep p (hv.fullStored k p hp)
      idStored := fun k p hp => hkeep p (hv.idStored k p hp)
      displayStored := fun k p hp => hkeep p (hv.displayStored k p hp) }
  · refine List.nodup_append.mpr ⟨hv.nodup, List.nodup_singleton o, ?_⟩
    intro p hp q hq he
    rw [List.mem_singleton] at hq
    rw [he, hq] at hp
    exact hnew ((hv.mem_originals_iff o).mp hp)
  · intro p t
    change (v.originalToSynthetic.insert o s).lookup p = some t ↔
      (p, t) ∈ (v.originalValues ++ [o]).zip (v.syntheticKeys ++ [s])
    rw [List.zip_append hv.lengthOriginals, List.mem_append, ← hv.mapping]
    have hsingle : (p, t) ∈ [o].zip [s] ↔ p = o ∧ t = s := by
      simp only [List.zip_cons_cons, List.zip_nil_left, List.mem_singleton, Prod.mk.injEq]
    rw [hsingle]
    by_cases hp : p = o
    · subst hp
      have hnone : v.originalToSynthetic.lookup p = none := AList.lookup_eq_none.mpr hnew
      rw [AList.lookup_insert, hnone, Option.some.injEq]
      simp only [reduceCtorEq, true_and, false_or]
      exact eq_comm
    · rw [AList.lookup_insert_ne hp]
      simp only [hp, false_and, or_false]
  · change StrMap.size (v.originalToSynthetic.insert o s) = (v.syntheticKeys ++ [s]).length
    have hc := hv.count
    rw [mappingCount] at hc
    rw [StrMap.size_insert, if_neg hnew, hc, List.length_append]
    rfl
  · exact maxLen_append hv.maxLen s
  · change (if v.maxSyntheticKeyLen < s.length then s.length else v.maxSyntheticKeyLen) = 0 ∨
      ∃ k ∈ v.syntheticKeys ++ [s],
        k.length = if v.maxSyntheticKeyLen < s.length then s.length else v.maxSyntheticKeyLen
    split
    · exact Or.inr ⟨s, List.mem_append_right _ List.mem_cons_self, rfl⟩
    · rcases hv.maxLenAttained with hz | ⟨k, hk, he⟩
      · exact Or.inl hz
      · exact Or.inr ⟨k, List.mem_append_left _ hk, he⟩

theorem addMapping (hv : WellFormed v) (o s : Str) (ty : PiiType) (tier : UInt8) (conf : F32) :
    WellFormed (v.addMapping o s ty tier conf) := by
  unfold PiiVault.addMapping
  split
  · exact hv
  · next hnew => exact hv.insert o s _ tier conf [] hnew

/-- Writing the index maps for a stored original keeps the invariant. -/
theorem index (hv : WellFormed v) (o full tokenId display : Str)
    (ho : o ∈ v.originalToSynthetic) :
    WellFormed { v with
      fullTokenToOriginal := v.fullTokenToOriginal.insert full o
      tokenIdToOriginal := v.tokenIdToOriginal.insert tokenId o
      displayValueToOriginal := v.displayValueToOriginal.insert display o } := by
  have hinsert : ∀ (m : StrMap) (key : Str),
      (∀ k p, m.lookup k = some p → p ∈ v.originalToSynthetic) →
      ∀ k p, (m.insert key o).lookup k = some p → p ∈ v.originalToSynthetic := by
    intro m key hm k p hp
    by_cases hk : k = key
    · rw [hk, AList.lookup_insert, Option.some.injEq] at hp
      rw [← hp]
      exact ho
    · rw [AList.lookup_insert_ne hk] at hp
      exact hm k p hp
  exact
    { hv with
      fullStored := hinsert _ _ hv.fullStored
      idStored := hinsert _ _ hv.idStored
      displayStored := hinsert _ _ hv.displayStored }

theorem addMappingWithTokenId (hv : WellFormed v) (o d tokenId : Str) (ty : PiiType)
    (tier : UInt8) (conf : F32) :
    WellFormed (v.addMappingWithTokenId o d tokenId ty tier conf) := by
  unfold PiiVault.addMappingWithTokenId
  by_cases ho : o ∈ v.originalToSynthetic
  · simp only [ho, if_true]
    exact hv.index o _ _ _ ho
  · simp only [ho, if_false]
    exact (hv.insert o d _ tier conf tokenId ho).index o _ _ _ ((AList.mem_insert _).mpr (Or.inl rfl))

theorem getOrCreate (hv : WellFormed v) (R : Rand) (C : Chrono) (o s : Str) (ty : PiiType)
    (locale : Locale) (tier : UInt8) (conf : F32) (v' : PiiVault)
    (hrun : PrivacyClaw.getOrCreate R C v o ty locale tier conf = some (s, v')) :
    WellFormed v' := by
  rcases getOrCreate_cases R C v v' o s ty locale tier conf hrun with ⟨_, rfl⟩ | ⟨_, _, rfl⟩
  · exact hv
  · exact hv.addMapping o s ty tier conf

/-- Every key has a first place. -/
theorem firstOriginal_isSome (hv : WellFormed v) (s : Str) (hs : s ∈ v.syntheticKeys) :
    ∃ o, v.firstOriginal s = some o := by
  rw [← Option.isSome_iff_exists, firstOriginal, List.lookup_isSome_iff]
  have hfst : (v.syntheticKeys.zip v.originalValues).map Prod.fst = v.syntheticKeys :=
    List.map_fst_zip (by rw [hv.lengthOriginals])
  rw [← hfst] at hs
  rcases List.mem_map.mp hs with ⟨p, hp, rfl⟩
  exact ⟨p, hp, beq_self_eq_true _⟩

/-- A key that has a first place is a key, and its original stands there. -/
theorem mem_of_firstOriginal (hv : WellFormed v) (s o : Str) (h : v.firstOriginal s = some o) :
    s ∈ v.syntheticKeys ∧ v.getSynthetic o = some s := by
  have hmem : (s, o) ∈ v.syntheticKeys.zip v.originalValues := by
    rcases List.lookup_eq_some_iff.mp h with ⟨l₁, l₂, he, _⟩
    rw [he]
    exact List.mem_append_right _ List.mem_cons_self
  refine ⟨(List.of_mem_zip hmem).1, (hv.mapping o s).mpr ?_⟩
  rw [← List.zip_swap]
  exact List.mem_map.mpr ⟨(s, o), hmem, rfl⟩

/-- A key is restored to the original at its first place. -/
theorem replaceSynthetics_firstOriginal (hv : WellFormed v) (s o : Str)
    (h : v.firstOriginal s = some o) : v.replaceSynthetics s = (o, true) := by
  rcases List.lookup_eq_some_iff.mp h with ⟨l₁, l₂, hzip, hbefore⟩
  have hlen := hv.lengthOriginals
  -- the keys and the originals, each split at that place
  have hkeys : v.syntheticKeys = l₁.map Prod.fst ++ s :: l₂.map Prod.fst := by
    have hfst : (v.syntheticKeys.zip v.originalValues).map Prod.fst = v.syntheticKeys :=
      List.map_fst_zip (by omega)
    rw [← hfst, hzip, List.map_append, List.map_cons]
  have hvals : v.originalValues = l₁.map Prod.snd ++ o :: l₂.map Prod.snd := by
    have hsnd : (v.syntheticKeys.zip v.originalValues).map Prod.snd = v.originalValues :=
      List.map_snd_zip (by omega)
    rw [← hsnd, hzip, List.map_append, List.map_cons]
  have hget : v.syntheticKeys[l₁.length]? = some s := by
    rw [hkeys, List.getElem?_append_right (by rw [List.length_map]), List.length_map, Nat.sub_self]
    rfl
  have hval : v.originalValues.getD l₁.length [] = o := by
    rw [List.getD_eq_getElem?_getD, hvals, List.getElem?_append_right (by rw [List.length_map]),
      List.length_map, Nat.sub_self]
    rfl
  have hfirst : ∀ j, j < l₁.length → v.syntheticKeys[j]? ≠ some s := by
    intro j hj hc
    rw [hkeys, List.getElem?_append_left (by rw [List.length_map]; exact hj)] at hc
    rcases List.mem_map.mp (List.mem_of_getElem? hc) with ⟨p, hp, he⟩
    have hne := hbefore p hp
    rw [he, bne_self_eq_false] at hne
    exact Bool.false_ne_true hne
  have hne : v.syntheticKeys ≠ [] := by
    rw [hkeys]
    exact List.append_ne_nil_of_right_ne_nil _ (List.cons_ne_nil _ _)
  unfold PiiVault.replaceSynthetics
  rw [hv.automaton, if_neg hne]
  dsimp only
  rw [Leftmost.replaceAll_key _ s _ hget hfirst, hval, Leftmost.pieces_key s _ hget hfirst]
  rfl

/-- A key is restored to an original exactly when that stands at its first
    place. -/
theorem reverses_iff (hv : WellFormed v) (s o : Str) :
    v.Reverses s o ↔ v.firstOriginal s = some o := by
  constructor
  · rintro ⟨hs, hrep⟩
    rcases hv.firstOriginal_isSome s hs with ⟨p, hp⟩
    rw [hv.replaceSynthetics_firstOriginal s p hp, Prod.mk.injEq] at hrep
    rw [hp, hrep.1]
  · intro hfirst
    exact ⟨(hv.mem_of_firstOriginal s o hfirst).1, hv.replaceSynthetics_firstOriginal s o hfirst⟩

/-- What is not a key has no place. -/
theorem firstOriginal_eq_none (hv : WellFormed v) (s : Str) (hs : s ∉ v.syntheticKeys) :
    v.firstOriginal s = none := by
  by_contra hne
  rcases Option.ne_none_iff_exists'.mp hne with ⟨o, ho⟩
  exact hs (hv.mem_of_firstOriginal s o ho).1

/-- A key that stands for one original only is restored to it. -/
theorem replaceSynthetics_key (hv : WellFormed v)
    (hinj : ∀ o o' s, v.getSynthetic o = some s → v.getSynthetic o' = some s → o = o')
    (o s : Str) (hs : v.getSynthetic o = some s) : v.replaceSynthetics s = (o, true) := by
  rcases hv.firstOriginal_isSome s (hv.mem_syntheticKeys o s hs) with ⟨p, hp⟩
  have hpo := hinj p o s (hv.mem_of_firstOriginal s p hp).2 hs
  rw [hpo] at hp
  exact hv.replaceSynthetics_firstOriginal s o hp

end WellFormed

/-- The part of the invariant that restoring relies on. It asks nothing of
    the originals, so that it also holds of a vault restored from arbitrary
    rows. -/
structure Searchable (v : PiiVault) : Prop where
  stored : ∀ o s, v.getSynthetic o = some s → s ∈ v.syntheticKeys
  maxLen : ∀ k ∈ v.syntheticKeys, k.length ≤ v.maxSyntheticKeyLen
  automaton : v.reverseAutomaton = if v.syntheticKeys = [] then none else some v.syntheticKeys
  unfilled : v.mappingCount = 0 → v.syntheticKeys = [] ∧
    ∀ t, v.fullTokenToOriginal.lookup t = none ∧ v.tokenIdToOriginal.lookup t = none ∧
      v.displayValueToOriginal.lookup t = none

theorem WellFormed.searchable {v : PiiVault} (hv : WellFormed v) : Searchable v where
  stored := hv.mem_syntheticKeys
  maxLen := hv.maxLen
  automaton := hv.automaton
  unfilled hz := by
    have hkeys : v.syntheticKeys = [] := List.length_eq_zero_iff.mp (hv.count.symm.trans hz)
    have hnil : v.originalValues = [] := by
      rw [← List.length_eq_zero_iff, hv.lengthOriginals, hkeys]
      rfl
    -- an index map that named an original would name a stored one
    have hnone : ∀ m : StrMap, (∀ k o, m.lookup k = some o → o ∈ v.originalToSynthetic) →
        ∀ t, m.lookup t = none := by
      intro m hm t
      by_contra hne
      rcases Option.ne_none_iff_exists'.mp hne with ⟨o, ho⟩
      have hmem := (hv.mem_originals_iff o).mpr (hm t o ho)
      rw [hnil] at hmem
      exact List.not_mem_nil hmem
    exact ⟨hkeys, fun t => ⟨hnone _ hv.fullStored t, hnone _ hv.idStored t,
      hnone _ hv.displayStored t⟩⟩

namespace Searchable

variable {v : PiiVault}

/-- A mapping entered and the automaton rebuilt, whatever the index maps are
    afterwards. -/
theorem insert (hv : Searchable v) (o s label : Str) (tier : UInt8) (conf : F32) (tokenId : Str) :
    Searchable (v.insertMappingRawWithTokenId o s label tier conf tokenId).rebuildAutomaton where
  stored p t hp := by
    change (v.originalToSynthetic.insert o s).lookup p = some t at hp
    change t ∈ v.syntheticKeys ++ [s]
    by_cases hpo : p = o
    · rw [hpo, AList.lookup_insert, Option.some.injEq] at hp
      rw [← hp]
      exact List.mem_append_right _ List.mem_cons_self
    · rw [AList.lookup_insert_ne hpo] at hp
      exact List.mem_append_left _ (hv.stored p t hp)
  maxLen := maxLen_append hv.maxLen s
  automaton := rfl
  unfilled hz := absurd hz (StrMap.size_insert_ne_zero _ o s)

/-- A vault that holds a mapping may index what it likes. -/
theorem index (hv : Searchable v) (full byId byDisplay : StrMap) (hne : v.mappingCount ≠ 0) :
    Searchable { v with
      fullTokenToOriginal := full
      tokenIdToOriginal := byId
      displayValueToOriginal := byDisplay } :=
  { hv with unfilled := fun hz => absurd hz hne }

theorem addMapping (hv : Searchable v) (o s : Str) (ty : PiiType) (tier : UInt8) (conf : F32) :
    Searchable (v.addMapping o s ty tier conf) := by
  unfold PiiVault.addMapping
  split
  · exact hv
  · exact hv.insert o s _ tier conf []

theorem addMappingWithTokenId (hv : Searchable v) (o d tokenId : Str) (ty : PiiType)
    (tier : UInt8) (conf : F32) :
    Searchable (v.addMappingWithTokenId o d tokenId ty tier conf) := by
  unfold PiiVault.addMappingWithTokenId
  by_cases ho : o ∈ v.originalToSynthetic
  · simp only [ho, if_true]
    exact hv.index _ _ _ (StrMap.size_ne_zero_of_mem _ o ho)
  · simp only [ho, if_false]
    exact (hv.insert o d _ tier conf tokenId).index _ _ _ (StrMap.size_insert_ne_zero _ o d)

theorem getOrCreate (hv : Searchable v) (R : Rand) (C : Chrono) (o s : Str) (ty : PiiType)
    (locale : Locale) (tier : UInt8) (conf : F32) (v' : PiiVault)
    (hrun : PrivacyClaw.getOrCreate R C v o ty locale tier conf = some (s, v')) :
    Searchable v' := by
  rcases getOrCreate_cases R C v v' o s ty locale tier conf hrun with ⟨_, rfl⟩ | ⟨_, _, rfl⟩
  · exact hv
  · exact hv.addMapping o s ty tier conf

/-- Rows are entered without rebuilding, so what is kept along them is that a
    rebuild would be enough. -/
theorem insertRecord (hv : Searchable v.rebuildAutomaton) (r : VaultRecord) :
    Searchable (v.insertRecord r).rebuildAutomaton := by
  have hins := hv.insert r.original r.synthetic r.piiType.label r.tier r.confidence r.tokenId
  unfold PiiVault.insertRecord
  dsimp only
  split
  · exact hins
  · exact hins.index _ _ _ (StrMap.size_insert_ne_zero _ r.original r.synthetic)

theorem fromRecords (convId : Str) (seed : UInt64) (records : List VaultRecord) :
    Searchable (PiiVault.fromRecords convId seed records) := by
  have hrows : ∀ (rows : List VaultRecord) (w : PiiVault), Searchable w.rebuildAutomaton →
      Searchable (rows.foldl PiiVault.insertRecord w).rebuildAutomaton := by
    intro rows
    induction rows with
    | nil => intro w hw; exact hw
    | cons r rows ih => intro w hw; exact ih _ (hw.insertRecord r)
  exact hrows records _ (WellFormed.empty convId seed).searchable

/-- Restoring replaces the keys by the originals at their places. -/
theorem replaceSynthetics_fst (hv : Searchable v) (text : Str) :
    (v.replaceSynthetics text).1 =
      Leftmost.replaceAll v.syntheticKeys (fun i => v.originalValues.getD i []) text := by
  unfold PiiVault.replaceSynthetics
  rw [hv.automaton]
  by_cases hkeys : v.syntheticKeys = []
  · rw [if_pos hkeys, Leftmost.replaceAll_eq_self]
    intro k hk
    rw [hkeys] at hk
    exact absurd hk List.not_mem_nil
  · rw [if_neg hkeys]

/-- A text in which no key occurs is restored to itself. -/
theorem replaceSynthetics_eq_self (hv : Searchable v) (text : Str)
    (h : ∀ k ∈ v.syntheticKeys, ¬ k <:+: text) : (v.replaceSynthetics text).1 = text := by
  rw [hv.replaceSynthetics_fst]
  exact Leftmost.replaceAll_eq_self _ text h

end Searchable

end PiiVault

end PrivacyClaw
