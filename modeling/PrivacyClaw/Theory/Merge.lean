import PrivacyClaw.Theory.Service

/-!
# What a Merge Keeps

`merge_into` moves the mappings of one vault into another, and what can still
be restored afterwards.

The index maps are united, and where the two vaults do not contradict each
other nothing in them is lost. The mappings are skipped by original while they
are looked up by synthetic: if both vaults know an original, the synthetic that
the moved vault had for it is dropped, and unless the target happens to have
that synthetic too, a text that carries it is not restored any more. That is
the only loss (`mergeInto_keeps_iff`).

## Main definitions

* `LosesNothing`: What two vaults restored, a third restores.
* `Service.mergeTarget`: The vault that is merged into.

## Theorems

* `firstOriginal_mergeFrom`: The first places of a merged vault.
* `mergeFrom_losesNothing_iff`: A merge of two vaults.
* `rekey_losesNothing`: A handle that is only moved.
* `Reachable.valid`: Every registered handle has a vault.
* `mergeInto_cases`: The vault under the target key afterwards.
* `mergeInto_keeps_iff`: When `merge_into` loses nothing.
* `mergeInto_keeps_other_names`, `mergeInto_drops_synthetic`: Two names, and
  one name twice.
-/

namespace PrivacyClaw

/-- What one of two vaults restores or resolves, and the other does not resolve
    otherwise, the third one does. -/
structure LosesNothing (f t m : PiiVault) : Prop where
  synthetics : ∀ syn o, f.Reverses syn o ∨ t.Reverses syn o →
    (∀ a b, f.Reverses syn a → t.Reverses syn b → a = b) → m.Reverses syn o
  tokens : ∀ k o, f.fullTokenToOriginal.lookup k = some o ∨
      t.fullTokenToOriginal.lookup k = some o →
    (∀ a b, f.fullTokenToOriginal.lookup k = some a → t.fullTokenToOriginal.lookup k = some b →
      a = b) → m.fullTokenToOriginal.lookup k = some o
  ids : ∀ k o, f.tokenIdToOriginal.lookup k = some o ∨ t.tokenIdToOriginal.lookup k = some o →
    (∀ a b, f.tokenIdToOriginal.lookup k = some a → t.tokenIdToOriginal.lookup k = some b →
      a = b) → m.tokenIdToOriginal.lookup k = some o

namespace PiiVault

variable {t f : PiiVault}

/-- The pairs of a vault, read off its quints. -/
theorem WellFormed.quints_pairs (hf : f.WellFormed) :
    f.quints.map (fun q => (q.2.1, q.1)) = f.syntheticKeys.zip f.originalValues := by
  have h1 := hf.lengthOriginals
  have h2 := hf.lengthLabels
  have h3 := hf.lengthTiers
  have h4 := hf.lengthConfidences
  refine List.ext_getElem ?_ fun i hi hi' => ?_
  · simp only [quints, List.length_map, List.length_zip]
    omega
  · simp only [quints, List.getElem_map, List.getElem_zip]

/-- In a merged vault the target's places come first, then those of the other
    vault whose original is new. -/
theorem WellFormed.firstOriginal_mergeFrom (ht : t.WellFormed) (hf : f.WellFormed) (syn : Str) :
    (t.mergeFrom f).firstOriginal syn = (t.firstOriginal syn).or
      (((f.syntheticKeys.zip f.originalValues).filter
        fun p => decide (p.2 ∉ t.originalToSynthetic)).lookup syn) := by
  have hm := ht.merged hf
  have hnew : ((newRows t f.quints).map (·.synthetic)).zip ((newRows t f.quints).map (·.original)) =
      (f.syntheticKeys.zip f.originalValues).filter
        fun p => decide (p.2 ∉ t.originalToSynthetic) := by
    rw [List.zip_map', newRows, List.map_map, ← hf.quints_pairs, List.filter_map]
    rfl
  rw [firstOriginal, hm.keys, hm.originals, List.zip_append ht.lengthOriginals.symm,
    List.lookup_append, hnew]
  rfl

end PiiVault

/-- United index maps lose nothing on which the two sides agree. -/
theorem lookup_union_of_agree (m m' : StrMap) (k o : Str)
    (h : m'.lookup k = some o ∨ m.lookup k = some o)
    (hagree : ∀ a b, m'.lookup k = some a → m.lookup k = some b → a = b) :
    (m ∪ m').lookup k = some o := by
  rw [AList.lookup_union_eq_some]
  cases hk : m.lookup k with
  | none =>
      rw [hk] at h
      refine Or.inr ⟨AList.lookup_eq_none.mp hk, h.resolve_right ?_⟩
      simp only [reduceCtorEq, not_false_eq_true]
  | some b =>
      refine Or.inl ?_
      rcases h with h | h
      · rw [hagree o b h hk]
      · rw [hk] at h
        exact h

/-- A merge loses nothing exactly when every synthetic that the moved vault
    restored to an original of the target is one of the target's too. -/
theorem mergeFrom_losesNothing_iff (t f : PiiVault) (ht : t.WellFormed) (hf : f.WellFormed) :
    LosesNothing f t (t.mergeFrom f) ↔
      ∀ syn o, f.Reverses syn o → o ∈ t.originalToSynthetic → syn ∈ t.syntheticKeys := by
  have hmwf := ht.mergeFrom hf
  have hm := ht.merged hf
  have hfirst := fun syn => ht.firstOriginal_mergeFrom hf syn
  -- a synthetic the target does not have leaves the choice to the moved rows
  have hnone := fun syn (hmem : syn ∉ t.syntheticKeys) => ht.firstOriginal_eq_none syn hmem
  constructor
  · intro hkeeps syn o hrev ho
    by_contra hmem
    have hm' := hkeeps.synthetics syn o (Or.inl hrev)
      (fun a b _ hb => absurd hb.1 hmem)
    rw [hmwf.reverses_iff, hfirst, hnone syn hmem, Option.none_or] at hm'
    rcases List.lookup_eq_some_iff.mp hm' with ⟨l₁, l₂, he, _⟩
    have hin := List.mem_append_right l₁ (List.mem_cons_self (a := (syn, o)) (l := l₂))
    rw [← he] at hin
    have hnot := (List.mem_filter.mp hin).2
    rw [decide_eq_true_eq] at hnot
    exact hnot ho
  · intro hcond
    refine ⟨?_, ?_, ?_⟩
    · intro syn o hrev hagree
      rw [hmwf.reverses_iff, hfirst]
      by_cases hmem : syn ∈ t.syntheticKeys
      · -- the target has the synthetic, so its answer counts
        rcases ht.firstOriginal_isSome syn hmem with ⟨b, hb⟩
        rw [hb, Option.some_or]
        rcases hrev with hrev | hrev
        · rw [hagree o b hrev ((ht.reverses_iff syn b).mpr hb)]
        · rw [ht.reverses_iff] at hrev
          rw [← hb, hrev]
      · rw [hnone syn hmem, Option.none_or]
        have hrev := hrev.resolve_right fun hr => hmem hr.1
        have ho : o ∉ t.originalToSynthetic := fun ho => hmem (hcond syn o hrev ho)
        rw [hf.reverses_iff] at hrev
        rcases List.lookup_eq_some_iff.mp hrev with ⟨l₁, l₂, he, hbefore⟩
        rw [he, List.filter_append, List.filter_cons_of_pos (by rw [decide_eq_true_eq]; exact ho)]
        exact List.lookup_eq_some_iff.mpr
          ⟨_, _, rfl, fun p hp => hbefore p (List.mem_filter.mp hp).1⟩
    · intro k o hk hagree
      rw [hm.full]
      exact lookup_union_of_agree _ _ k o hk hagree
    · intro k o hk hagree
      rw [hm.byId]
      exact lookup_union_of_agree _ _ k o hk hagree

/-- A vault put in the place of an empty one loses nothing. -/
theorem rekey_losesNothing (t f : PiiVault) (ht : t.WellFormed) (hempty : t.isEmpty = true) :
    LosesNothing f t f ∧
      ∀ syn o, f.Reverses syn o → o ∈ t.originalToSynthetic → syn ∈ t.syntheticKeys := by
  have hcount : t.mappingCount = 0 := by
    rw [PiiVault.isEmpty, beq_iff_eq] at hempty
    exact hempty
  rcases ht.searchable.unfilled hcount with ⟨hkeys, hmaps⟩
  have hnone : ∀ {k o : Str} {m : StrMap}, m.lookup k = none → m.lookup k = some o → False := by
    intro k o m h1 h2
    rw [h1] at h2
    exact absurd h2 (by simp only [reduceCtorEq, not_false_eq_true])
  refine ⟨⟨?_, ?_, ?_⟩, ?_⟩
  · intro syn o hrev _
    refine hrev.resolve_right fun hr => ?_
    have := hr.1
    rw [hkeys] at this
    exact List.not_mem_nil this
  · exact fun k o hk _ => hk.resolve_right (hnone (hmaps k).1)
  · exact fun k o hk _ => hk.resolve_right (hnone (hmaps k).2.1)
  · intro syn o _ ho
    exact absurd hcount (StrMap.size_ne_zero_of_mem _ o ho)

section Registry

variable (R : Rand) (C : Chrono) (h : Hashes)

/-- The vault that `merge_into` merges into: the one in memory, or the one the
    store has, or a new one. -/
def Service.mergeTarget (s : Service) (fromKey intoKey : Str) : Option PiiVault :=
  match (s.registry.vaults.erase fromKey).lookup intoKey with
  | some i => s.registry.handles[i]?
  | none => some (loadOrCreate h intoKey (s.load intoKey))

/-- Every registered handle is one that was handed out. -/
def VaultRegistry.Valid (g : VaultRegistry) : Prop :=
  ∀ k i, g.vaults.lookup k = some i → i < g.handles.length

namespace VaultRegistry.Valid

variable {g : VaultRegistry}

theorem erase (hg : g.Valid) (key : Str) : Valid ⟨g.handles, g.vaults.erase key⟩ := by
  intro k i hk
  change (g.vaults.erase key).lookup k = some i at hk
  by_cases he : k = key
  · rw [he, AList.lookup_erase] at hk
    exact absurd hk (by simp only [reduceCtorEq, not_false_eq_true])
  · rw [AList.lookup_erase_ne he] at hk
    exact hg k i hk

theorem insert (hg : g.Valid) (key : Str) (j : Nat) (hj : j < g.handles.length) :
    Valid ⟨g.handles, g.vaults.insert key j⟩ := by
  intro k i hk
  change (g.vaults.insert key j).lookup k = some i at hk
  by_cases he : k = key
  · rw [he, AList.lookup_insert, Option.some.injEq] at hk
    rw [← hk]
    exact hj
  · rw [AList.lookup_insert_ne he] at hk
    exact hg k i hk

/-- Handles are never taken back. -/
theorem mono (hg : g.Valid) (handles : List PiiVault) (hle : g.handles.length ≤ handles.length) :
    Valid ⟨handles, g.vaults⟩ := fun k i hk =>
  Nat.lt_of_lt_of_le (hg k i hk) hle

theorem insertNew (hg : g.Valid) (key : Str) (v : PiiVault) : (g.insertNew key v).Valid := by
  have hlen : (g.handles ++ [v]).length = g.handles.length + 1 := List.length_append
  exact (hg.mono (g.handles ++ [v]) (by omega)).insert key g.handles.length
    (by change g.handles.length < (g.handles ++ [v]).length; omega)

theorem mergeInto (hg : g.Valid) (fromKey intoKey : Str)
    (loaded : Option (Option (UInt64 × List StoredVaultRecord))) :
    (g.mergeInto h fromKey intoKey loaded).Valid := by
  unfold VaultRegistry.mergeInto
  cases hfrom : g.vaults.lookup fromKey with
  | none => exact hg
  | some i =>
      dsimp only
      cases g.handles[i]? with
      | none => exact hg
      | some w =>
          dsimp only
          cases (g.vaults.erase fromKey).lookup intoKey with
          | some j =>
              dsimp only
              exact (hg.erase fromKey).mono _ (by rw [List.length_modify])
          | none =>
              dsimp only
              split
              · exact (hg.erase fromKey).insert intoKey i (hg fromKey i hfrom)
              · exact (hg.erase fromKey).insertNew intoKey _

end VaultRegistry.Valid

/-- In every state of every run. -/
theorem Reachable.valid {s : Service} (hrun : Reachable R C h s) : s.registry.Valid := by
  induction hrun with
  | start =>
      intro k i hk
      change (∅ : AList (fun _ : Str => Nat)).lookup k = some i at hk
      rw [AList.lookup_empty] at hk
      exact absurd hk (by simp only [reduceCtorEq, not_false_eq_true])
  | @step s s' op _ _ hstep ih =>
      -- Only new entries, a merge and an eviction touch the keys.
      rcases op.apply_cases R C h s s' hstep with rfl | ⟨i, _, _, w', _, _, _, rfl⟩ |
        ⟨_, _, _, _, _, rfl⟩ | ⟨convId, _, rfl⟩ | ⟨fromKey, intoKey, _, rfl⟩ | ⟨expired, _, rfl⟩
      · exact ih
      · exact ih.mono _ (by rw [List.length_set])
      · exact ih
      · change (s.registry.getOrCreateWithStore h convId (s.load convId)).Valid
        unfold VaultRegistry.getOrCreateWithStore
        split
        · exact ih
        · exact ih.insertNew convId _
      · exact ih.mergeInto h fromKey intoKey _
      · have herase : ∀ (keys : List Str) (g : VaultRegistry), g.Valid →
            (g.evictExpired keys).Valid := by
          intro keys
          induction keys with
          | nil => intro g hg; exact hg
          | cons k keys ihk => intro g hg; exact ihk _ (hg.erase k)
        exact herase expired s.registry ih

/-- What is registered under the target key after `merge_into`: the merge of
    the two vaults, or the moved vault itself in the place of an empty one. -/
theorem mergeInto_cases (s : Service) (hvalid : s.registry.Valid) (fromKey intoKey : Str)
    (f : PiiVault) (hf : s.registry.vault fromKey = some f) :
    ∃ t, s.mergeTarget h fromKey intoKey = some t ∧
      (t ∈ s.registry.handles ∨ t = loadOrCreate h intoKey (s.load intoKey)) ∧
      ((s.registry.mergeInto h fromKey intoKey (s.load intoKey)).vault intoKey =
          some (t.mergeFrom f) ∨
        t.isEmpty = true ∧
          (s.registry.mergeInto h fromKey intoKey (s.load intoKey)).vault intoKey = some f) := by
  rw [VaultRegistry.vault, Option.bind_eq_some_iff] at hf
  rcases hf with ⟨i, hi, hif⟩
  unfold Service.mergeTarget VaultRegistry.mergeInto
  rw [hi]
  dsimp only
  rw [hif]
  dsimp only
  cases hinto : (s.registry.vaults.erase fromKey).lookup intoKey with
  | some j =>
      -- both in memory
      have hj := hvalid.erase fromKey intoKey j hinto
      have hget : s.registry.handles[j]? = some s.registry.handles[j] :=
        List.getElem?_eq_getElem hj
      refine ⟨_, hget, Or.inl (List.getElem_mem hj), Or.inl ?_⟩
      dsimp only [VaultRegistry.vault]
      rw [hinto, Option.bind_some, List.getElem?_modify, hget]
      simp only [Option.map_eq_map, Option.map_some, if_true]
  | none =>
      refine ⟨_, rfl, Or.inr rfl, ?_⟩
      dsimp only
      by_cases hempty : (loadOrCreate h intoKey (s.load intoKey)).isEmpty = true
      · refine Or.inr ⟨hempty, ?_⟩
        rw [if_pos hempty, VaultRegistry.vault, AList.lookup_insert, Option.bind_some]
        exact hif
      · refine Or.inl ?_
        rw [if_neg hempty, VaultRegistry.vault, VaultRegistry.insertNew]
        dsimp only
        rw [AList.lookup_insert, Option.bind_some, List.getElem?_append_right (Nat.le_refl _),
          Nat.sub_self]
        rfl

/-- In every state and for every pair of keys, `merge_into` loses nothing of
    the two vaults exactly when every synthetic that the moved vault restores
    to an original of the target is a synthetic of the target too. -/
theorem mergeInto_keeps_iff {s : Service} (hrun : Reachable R C h s) (fromKey intoKey : Str)
    (f : PiiVault) (hf : s.registry.vault fromKey = some f) :
    ∃ t m, s.mergeTarget h fromKey intoKey = some t ∧
      (s.registry.mergeInto h fromKey intoKey (s.load intoKey)).vault intoKey = some m ∧
      (LosesNothing f t m ↔
        ∀ syn o, f.Reverses syn o → o ∈ t.originalToSynthetic → syn ∈ t.syntheticKeys) := by
  have hwf := Reachable.wellFormed R C h hrun
  have hfwf := hwf.1 f (s.registry.mem_handles fromKey f hf)
  rcases mergeInto_cases h s (Reachable.valid R C h hrun) fromKey intoKey f hf with
    ⟨t, htarget, hfrom, hcase⟩
  -- The target was there, or it was loaded or created for the merge.
  have htwf : t.WellFormed := by
    rcases hfrom with hmem | rfl
    · exact hwf.1 t hmem
    · rcases loadOrCreate_load h s intoKey with he | ⟨v, hv, he⟩
      · rw [he]
        exact PiiVault.WellFormed.new h intoKey
      · rw [he]
        exact (hwf.2 intoKey v hv).restored intoKey v.rngSeed
  rcases hcase with hmerged | ⟨hempty, hmoved⟩
  · exact ⟨t, _, htarget, hmerged, mergeFrom_losesNothing_iff t f htwf hfwf⟩
  -- An empty target is replaced by the source as a whole.
  · rcases rekey_losesNothing t f htwf hempty with ⟨hkeeps, hcond⟩
    exact ⟨t, f, htarget, hmoved, fun _ => hcond, fun _ => hkeeps⟩

end Registry

/-- A session in which one name was replaced, and a conversation with another
    mapping. -/
def sessionAndConversation (original synthetic : Str) : List ServiceOp :=
  [.getOrCreateWithStore (lit "u"),
    .vaultOp 0 (.addMapping (lit "John Smith") (lit "Alice") .personName 1 F32.one),
    .getOrCreateWithStore (lit "c"),
    .vaultOp 1 (.addMapping original synthetic .personName 1 F32.one)]

/-- The conversation has replaced another name: the merged vault restores
    both. -/
theorem mergeInto_keeps_other_names :
    ∃ s f t m, ServiceOp.run Rand.least Chrono.none sampleHashes
        (sessionAndConversation (lit "Jane Roe") (lit "Bob")) Service.new = some s ∧
      s.registry.vault (lit "u") = some f ∧
      s.mergeTarget sampleHashes (lit "u") (lit "c") = some t ∧
      (s.registry.mergeInto sampleHashes (lit "u") (lit "c") (s.load (lit "c"))).vault (lit "c") =
        some m ∧ LosesNothing f t m := by
  have hdata : ((ServiceOp.run Rand.least Chrono.none sampleHashes
      (sessionAndConversation (lit "Jane Roe") (lit "Bob")) Service.new).bind fun s =>
        (s.registry.vault (lit "u")).bind fun f =>
          (s.mergeTarget sampleHashes (lit "u") (lit "c")).map fun t =>
            (f.syntheticKeys, f.replaceSynthetics (lit "Alice"), t.originalToSynthetic.keys)) =
      some ([lit "Alice"], (lit "John Smith", true), [lit "Jane Roe"]) := by decide
  simp only [Option.bind_eq_some_iff, Option.map_eq_some_iff, Prod.mk.injEq] at hdata
  rcases hdata with ⟨s, hrun, f, hf, t, ht, hkeys, hrep, hstored⟩
  rcases mergeInto_keeps_iff Rand.least Chrono.none sampleHashes
      (Reachable.run _ _ _ _ _ s Runs.start hrun) (lit "u") (lit "c") f hf with
    ⟨t', m, ht', hm, hiff⟩
  rw [ht, Option.some.injEq] at ht'
  subst ht'
  refine ⟨s, f, t, m, hrun, hf, ht, hm, hiff.mpr ?_⟩
  rintro syn o ⟨hsyn, hrev⟩ ho
  rw [hkeys, List.mem_singleton] at hsyn
  rw [hsyn, hrep, Prod.mk.injEq] at hrev
  rw [AList.mem_keys, hstored, List.mem_singleton, ← hrev.1] at ho
  exact absurd ho (by decide)

/-- The conversation has replaced the same name by another synthetic: the
    session's synthetic is not restored any more. -/
theorem mergeInto_drops_synthetic :
    ∃ s f t m, ServiceOp.run Rand.least Chrono.none sampleHashes
        (sessionAndConversation (lit "John Smith") (lit "Bob")) Service.new = some s ∧
      s.registry.vault (lit "u") = some f ∧
      s.mergeTarget sampleHashes (lit "u") (lit "c") = some t ∧
      (s.registry.mergeInto sampleHashes (lit "u") (lit "c") (s.load (lit "c"))).vault (lit "c") =
        some m ∧
      f.replaceSynthetics (lit "Alice") = (lit "John Smith", true) ∧
      m.replaceSynthetics (lit "Alice") = (lit "Alice", false) ∧ ¬ LosesNothing f t m := by
  have hdata : ((ServiceOp.run Rand.least Chrono.none sampleHashes
      (sessionAndConversation (lit "John Smith") (lit "Bob")) Service.new).bind fun s =>
        (s.registry.vault (lit "u")).bind fun f =>
          (s.mergeTarget sampleHashes (lit "u") (lit "c")).bind fun t =>
            ((s.registry.mergeInto sampleHashes (lit "u") (lit "c") (s.load (lit "c"))).vault
              (lit "c")).map fun m =>
                (f.syntheticKeys, f.replaceSynthetics (lit "Alice"), t.syntheticKeys,
                  m.replaceSynthetics (lit "Alice"))) =
      some ([lit "Alice"], (lit "John Smith", true), [lit "Bob"], (lit "Alice", false)) := by
    decide
  simp only [Option.bind_eq_some_iff, Option.map_eq_some_iff, Prod.mk.injEq] at hdata
  rcases hdata with ⟨s, hrun, f, hf, t, ht, m, hm, hkeys, hrep, htkeys, hmrep⟩
  refine ⟨s, f, t, m, hrun, hf, ht, hm, hrep, hmrep, fun hkeeps => ?_⟩
  have hrev : f.Reverses (lit "Alice") (lit "John Smith") :=
    ⟨by rw [hkeys]; exact List.mem_cons_self, hrep⟩
  have hlost := hkeeps.synthetics _ _ (Or.inl hrev) fun a b _ hb => by
    have hmem := hb.1
    rw [htkeys] at hmem
    exact absurd hmem (by decide)
  have hlost := hlost.2
  rw [hmrep, Prod.mk.injEq] at hlost
  exact absurd hlost.2 (by decide)

end PrivacyClaw
