import PrivacyClaw.Theory.OneToOne
import PrivacyClaw.Theory.Rows

/-!
# The Vaults of a Running Service

All the vaults a running proxy has, and what can happen to them: a
conversation's vault is opened or restored, a request works on a handle, two
vaults are merged, a vault is saved, entries expire.

A handle outlives its entry, so the state keeps every vault ever handed out
and an invariant is about all of them. What a step can do to the vaults is
said once (`apply_handles`): a vault is as before, new, restored from a saved
one, one operation further, or a merge of two. An invariant of the vaults
follows from these cases (`Runs.invariant`), under a condition on the steps if
it needs one.

The logs are represented by what was saved last for each conversation.

## Main definitions

* `Service`, `ServiceOp`, `ServiceOp.apply`: The state, and its steps.
* `Service.mergePair`: The two vaults that `merge_into` merges.
* `Runs`: Runs whose steps meet a condition.
* `Reachable`: The states of any run.

## Theorems

* `ServiceOp.apply_cases`: What a step can do.
* `mergeInto_handles`: The vaults after `merge_into`.
* `apply_handles`, `apply_saved`: What a step does to the vaults.
* `Runs.invariant`: What the cases keep holds in every state.
* `Reachable.wellFormed`, `vaults_represented`: The representation invariant of
  every vault.
* `vaults_represented_merged`: A merge of two vaults.
-/

namespace PrivacyClaw

/-- The registry, and the vault last saved for each conversation. -/
structure Service where
  registry : VaultRegistry
  saved : AList (fun _ : Str => PiiVault)

/-- A step of the service. A handle is the number of its vault. -/
inductive ServiceOp where
  | getOrCreateWithStore (convId : Str)
  | vaultOp (handle : Nat) (op : VaultOp)
  | mergeInto (fromKey intoKey : Str)
  | saveVault (handle : Nat) (convId : Str)
  | evictExpired (expired : List Str)

namespace Service

/-- At the start there are no vaults. -/
def new : Service := ⟨VaultRegistry.new, ∅⟩

/-- What the store answers for a conversation: the rows of the vault saved
    last. -/
def load (s : Service) (convId : Str) : Option (Option (UInt64 × List StoredVaultRecord)) :=
  some ((s.saved.lookup convId).map fun v => (v.rngSeed, v.toRecords.map VaultRecord.stored))

end Service

/-- A registered vault is one behind the handles. -/
theorem VaultRegistry.mem_handles (g : VaultRegistry) (key : Str) (v : PiiVault)
    (hv : g.vault key = some v) : v ∈ g.handles := by
  rw [VaultRegistry.vault, Option.bind_eq_some_iff] at hv
  rcases hv with ⟨i, _, hi⟩
  exact List.mem_of_getElem? hi

section Steps

variable (R : Rand) (C : Chrono) (h : Hashes)

/-- The pair that `merge_into` merges, target first; none where it does nothing
    or only moves a handle. -/
def Service.mergePair (s : Service) (fromKey intoKey : Str) : Option (PiiVault × PiiVault) :=
  (s.registry.vault fromKey).bind fun fromVault =>
    match (s.registry.vaults.erase fromKey).lookup intoKey with
    | some i => (s.registry.handles[i]?).map fun v => (v, fromVault)
    | none =>
      let persisted := loadOrCreate h intoKey (s.load intoKey)
      if persisted.isEmpty then none else some (persisted, fromVault)

/-- The service after a step; `none` where a generator aborts. -/
def ServiceOp.apply : ServiceOp → Service → Option Service
  | .getOrCreateWithStore convId, s =>
    some { s with registry := s.registry.getOrCreateWithStore h convId (s.load convId) }
  | .vaultOp i op, s =>
    match s.registry.handles[i]? with
    | none => some s
    | some v => (op.apply R C v).map fun v' =>
      { s with registry := { s.registry with handles := s.registry.handles.set i v' } }
  | .mergeInto fromKey intoKey, s =>
    some { s with registry := s.registry.mergeInto h fromKey intoKey (s.load intoKey) }
  | .saveVault i convId, s =>
    match s.registry.handles[i]? with
    | none => some s
    | some v => some { s with saved := s.saved.insert convId v }
  | .evictExpired expired, s => some { s with registry := s.registry.evictExpired expired }

/-- What a step can do: nothing, where there is no such handle, or one of the
    five things it is named for. -/
theorem ServiceOp.apply_cases (op : ServiceOp) (s s' : Service)
    (hstep : op.apply R C h s = some s') :
    s' = s ∨
    (∃ i vop v v', op = .vaultOp i vop ∧ s.registry.handles[i]? = some v ∧
      vop.apply R C v = some v' ∧
      s' = { s with registry := { s.registry with handles := s.registry.handles.set i v' } }) ∨
    (∃ i convId v, op = .saveVault i convId ∧ s.registry.handles[i]? = some v ∧
      s' = { s with saved := s.saved.insert convId v }) ∨
    (∃ convId, op = .getOrCreateWithStore convId ∧
      s' = { s with registry := s.registry.getOrCreateWithStore h convId (s.load convId) }) ∨
    (∃ fromKey intoKey, op = .mergeInto fromKey intoKey ∧
      s' = { s with registry := s.registry.mergeInto h fromKey intoKey (s.load intoKey) }) ∨
    ∃ expired, op = .evictExpired expired ∧
      s' = { s with registry := s.registry.evictExpired expired } := by
  cases op with
  | getOrCreateWithStore convId =>
      rw [ServiceOp.apply, Option.some.injEq] at hstep
      exact Or.inr (Or.inr (Or.inr (Or.inl ⟨convId, rfl, hstep.symm⟩)))
  | vaultOp i vop =>
      simp only [ServiceOp.apply] at hstep
      cases hv : s.registry.handles[i]? with
      | none =>
          rw [hv, Option.some.injEq] at hstep
          exact Or.inl hstep.symm
      | some v =>
          rw [hv] at hstep
          rcases Option.map_eq_some_iff.mp hstep with ⟨v', hv', he⟩
          exact Or.inr (Or.inl ⟨i, vop, v, v', rfl, hv, hv', he.symm⟩)
  | mergeInto fromKey intoKey =>
      rw [ServiceOp.apply, Option.some.injEq] at hstep
      exact Or.inr (Or.inr (Or.inr (Or.inr (Or.inl ⟨fromKey, intoKey, rfl, hstep.symm⟩))))
  | saveVault i convId =>
      simp only [ServiceOp.apply] at hstep
      cases hv : s.registry.handles[i]? with
      | none =>
          rw [hv, Option.some.injEq] at hstep
          exact Or.inl hstep.symm
      | some v =>
          rw [hv, Option.some.injEq] at hstep
          exact Or.inr (Or.inr (Or.inl ⟨i, convId, v, rfl, hv, hstep.symm⟩))
  | evictExpired expired =>
      rw [ServiceOp.apply, Option.some.injEq] at hstep
      exact Or.inr (Or.inr (Or.inr (Or.inr (Or.inr ⟨expired, rfl, hstep.symm⟩))))

/-- A vault loaded from the store is new or restored from a saved one. -/
theorem loadOrCreate_load (s : Service) (convId : Str) :
    loadOrCreate h convId (s.load convId) = PiiVault.new h convId ∨
      ∃ v, s.saved.lookup convId = some v ∧ loadOrCreate h convId (s.load convId) =
        PiiVault.fromRecords convId v.rngSeed v.toRecords := by
  unfold Service.load
  cases hv : s.saved.lookup convId with
  | none => exact Or.inl rfl
  | some v =>
      refine Or.inr ⟨v, rfl, ?_⟩
      rw [Option.map_some, loadOrCreate, PiiVault.record_stored]

/-- The vaults after `merge_into`: those before, and the merged one. -/
theorem mergeInto_handles (s : Service) (fromKey intoKey : Str) (v : PiiVault)
    (hv : v ∈ (s.registry.mergeInto h fromKey intoKey (s.load intoKey)).handles) :
    v ∈ s.registry.handles ∨
      ∃ a b, s.mergePair h fromKey intoKey = some (a, b) ∧ v = a.mergeFrom b ∧
        b ∈ s.registry.handles ∧
        (a ∈ s.registry.handles ∨ a = loadOrCreate h intoKey (s.load intoKey)) := by
  unfold VaultRegistry.mergeInto at hv
  unfold Service.mergePair VaultRegistry.vault
  cases hfrom : s.registry.vaults.lookup fromKey with
  | none =>
      rw [hfrom] at hv
      exact Or.inl hv
  | some i =>
      rw [hfrom] at hv
      rw [Option.bind_some]
      dsimp only at hv
      cases hw : s.registry.handles[i]? with
      | none =>
          rw [hw] at hv
          exact Or.inl hv
      | some w =>
          rw [hw] at hv
          rw [Option.bind_some]
          dsimp only at hv
          have hwmem : w ∈ s.registry.handles := List.mem_of_getElem? hw
          cases hinto : (s.registry.vaults.erase fromKey).lookup intoKey with
          | some j =>
              rw [hinto] at hv
              dsimp only at hv ⊢
              -- the target's place is the only one that changes
              rcases List.mem_iff_getElem?.mp hv with ⟨k, hk⟩
              rw [List.getElem?_modify, Option.map_eq_map, Option.map_eq_some_iff] at hk
              rcases hk with ⟨a, ha, rfl⟩
              by_cases hjk : j = k
              · rw [if_pos hjk]
                refine Or.inr ⟨a, w, ?_, rfl, hwmem, Or.inl (List.mem_of_getElem? ha)⟩
                rw [hjk, ha, Option.map_some]
              · rw [if_neg hjk]
                exact Or.inl (List.mem_of_getElem? ha)
          | none =>
              rw [hinto] at hv
              dsimp only at hv ⊢
              by_cases hempty : (loadOrCreate h intoKey (s.load intoKey)).isEmpty = true
              · rw [if_pos hempty] at hv
                exact Or.inl hv
              · rw [if_neg hempty] at hv ⊢
                rcases List.mem_append.mp hv with hv | hv
                · exact Or.inl hv
                · exact Or.inr ⟨_, w, rfl, List.mem_singleton.mp hv, hwmem, Or.inr rfl⟩

/-- Where the vaults after a step come from. -/
theorem apply_handles (op : ServiceOp) (s s' : Service) (hstep : op.apply R C h s = some s')
    (v : PiiVault) (hv : v ∈ s'.registry.handles) :
    v ∈ s.registry.handles ∨
      (∃ convId, v = loadOrCreate h convId (s.load convId)) ∨
      (∃ i vop w, op = .vaultOp i vop ∧ s.registry.handles[i]? = some w ∧
        vop.apply R C w = some v) ∨
      ∃ fromKey intoKey a b, op = .mergeInto fromKey intoKey ∧
        s.mergePair h fromKey intoKey = some (a, b) ∧ v = a.mergeFrom b ∧
        b ∈ s.registry.handles ∧
        (a ∈ s.registry.handles ∨ a = loadOrCreate h intoKey (s.load intoKey)) := by
  -- One case a step, in the order of `apply_cases`: saving and evicting leave
  -- the handles alone.
  rcases op.apply_cases R C h s s' hstep with rfl | ⟨i, vop, w, w', rfl, hw, hw', rfl⟩ |
    ⟨_, _, _, _, _, rfl⟩ | ⟨convId, rfl, rfl⟩ | ⟨fromKey, intoKey, rfl, rfl⟩ | ⟨_, rfl, rfl⟩
  · exact Or.inl hv
  · rcases List.mem_or_eq_of_mem_set hv with hv | rfl
    · exact Or.inl hv
    · exact Or.inr (Or.inr (Or.inl ⟨i, vop, w, rfl, hw, hw'⟩))
  · exact Or.inl hv
  · change v ∈ (s.registry.getOrCreateWithStore h convId (s.load convId)).handles at hv
    unfold VaultRegistry.getOrCreateWithStore at hv
    by_cases hmem : convId ∈ s.registry.vaults
    · rw [if_pos hmem] at hv
      exact Or.inl hv
    · rw [if_neg hmem] at hv
      rcases List.mem_append.mp hv with hv | hv
      · exact Or.inl hv
      · exact Or.inr (Or.inl ⟨convId, List.mem_singleton.mp hv⟩)
  · rcases mergeInto_handles h s fromKey intoKey v hv with hv | ⟨a, b, hpair, hcase⟩
    · exact Or.inl hv
    · exact Or.inr (Or.inr (Or.inr ⟨fromKey, intoKey, a, b, rfl, hpair, hcase⟩))
  · exact Or.inl hv

/-- What is saved after a step was saved before or is a vault of the service. -/
theorem apply_saved (op : ServiceOp) (s s' : Service) (hstep : op.apply R C h s = some s')
    (convId : Str) (v : PiiVault) (hv : s'.saved.lookup convId = some v) :
    s.saved.lookup convId = some v ∨ v ∈ s.registry.handles := by
  rcases op.apply_cases R C h s s' hstep with rfl | ⟨_, _, _, _, _, _, _, rfl⟩ |
    ⟨i, c, w, _, hw, rfl⟩ | ⟨_, _, rfl⟩ | ⟨_, _, _, rfl⟩ | ⟨_, _, rfl⟩
  · exact Or.inl hv
  · exact Or.inl hv
  · change (s.saved.insert c w).lookup convId = some v at hv
    by_cases hc : convId = c
    · rw [hc, AList.lookup_insert, Option.some.injEq] at hv
      rw [← hv]
      exact Or.inr (List.mem_of_getElem? hw)
    · rw [AList.lookup_insert_ne hc] at hv
      exact Or.inl hv
  · exact Or.inl hv
  · exact Or.inl hv
  · exact Or.inl hv

/-- Runs from the start whose steps all meet a condition on the state before
    the step. -/
inductive Runs (ok : Service → ServiceOp → Prop) : Service → Prop where
  | start : Runs ok Service.new
  | step {s s' : Service} (op : ServiceOp) : Runs ok s → ok s op → op.apply R C h s = some s' →
      Runs ok s'

/-- The states of any run. -/
def Reachable (s : Service) : Prop := Runs R C h (fun _ _ => True) s

/-- The service after a sequence of steps. -/
def ServiceOp.run : List ServiceOp → Service → Option Service
  | [], s => some s
  | op :: ops, s => (op.apply R C h s).bind (run ops)

/-- A sequence of steps from a reachable state ends in one. -/
theorem Reachable.run : ∀ (ops : List ServiceOp) (s s' : Service), Reachable R C h s →
    ServiceOp.run R C h ops s = some s' → Reachable R C h s' := by
  intro ops
  induction ops with
  | nil =>
      intro s s' hs hrun
      rw [ServiceOp.run, Option.some.injEq] at hrun
      rw [← hrun]
      exact hs
  | cons op ops ih =>
      intro s s' hs hrun
      rw [ServiceOp.run, Option.bind_eq_some_iff] at hrun
      rcases hrun with ⟨s₁, hstep, hrest⟩
      exact ih s₁ s' (Runs.step op hs trivial hstep) hrest

/-- A property of vaults that new and restored vaults have, and that operations
    and merges keep where the condition holds, holds of every vault. -/
theorem Runs.invariant {ok : Service → ServiceOp → Prop} (P : PiiVault → Prop)
    (hnew : ∀ convId, P (PiiVault.new h convId))
    (hrestore : ∀ convId v, P v → P (PiiVault.fromRecords convId v.rngSeed v.toRecords))
    (hop : ∀ s i op v v', ok s (.vaultOp i op) → s.registry.handles[i]? = some v → P v →
      op.apply R C v = some v' → P v')
    (hmerge : ∀ s fromKey intoKey v w, ok s (.mergeInto fromKey intoKey) →
      s.mergePair h fromKey intoKey = some (v, w) → P v → P w → P (v.mergeFrom w))
    {s : Service} (hrun : Runs R C h ok s) :
    (∀ v ∈ s.registry.handles, P v) ∧ ∀ convId v, s.saved.lookup convId = some v → P v := by
  induction hrun with
  | start =>
      refine ⟨fun v hv => absurd hv List.not_mem_nil, fun convId v hv => ?_⟩
      change (∅ : AList (fun _ : Str => PiiVault)).lookup convId = some v at hv
      rw [AList.lookup_empty] at hv
      exact absurd hv (by simp only [reduceCtorEq, not_false_eq_true])
  | @step s s' op _ hok hstep ih =>
      -- What is loaded is new, or restored from a vault that was saved.
      have hload : ∀ convId, P (loadOrCreate h convId (s.load convId)) := by
        intro convId
        rcases loadOrCreate_load h s convId with he | ⟨v, hv, he⟩
        · rw [he]
          exact hnew convId
        · rw [he]
          exact hrestore convId v (ih.2 convId v hv)
      constructor
      · intro v hv
        rcases apply_handles R C h op s s' hstep v hv with
          hold | ⟨convId, rfl⟩ | ⟨i, vop, w, rfl, hw, happ⟩ |
            ⟨fromKey, intoKey, a, b, rfl, hpair, rfl, hb, ha⟩
        · exact ih.1 v hold
        · exact hload convId
        · exact hop s i vop w v hok hw (ih.1 w (List.mem_of_getElem? hw)) happ
        · refine hmerge s fromKey intoKey a b hok hpair ?_ (ih.1 b hb)
          rcases ha with ha | rfl
          · exact ih.1 a ha
          · exact hload intoKey
      · intro convId v hv
        rcases apply_saved R C h op s s' hstep convId v hv with hold | hnow
        · exact ih.2 convId v hold
        · exact ih.1 v hnow

/-- Every vault a service has is well-formed, and so is every vault that was
    saved. -/
theorem Reachable.wellFormed {s : Service} (hrun : Reachable R C h s) :
    (∀ v ∈ s.registry.handles, v.WellFormed) ∧
      ∀ convId v, s.saved.lookup convId = some v → v.WellFormed :=
  Runs.invariant R C h PiiVault.WellFormed (PiiVault.WellFormed.new h)
    (fun convId v hv => hv.restored convId v.rngSeed)
    (fun _ _ op v v' _ _ hv happ => op.apply_wellFormed R C v v' hv happ)
    (fun _ _ _ _ _ _ _ hv hw => hv.mergeFrom hw) hrun

/-- The representation invariant: in every state of every run, the lists of
    every vault are parallel and its originals different, the map holds exactly
    the pairs of the lists, the count, the longest key and the automaton are
    those of the keys, and the index maps name stored originals. -/
theorem vaults_represented {s : Service} (hrun : Reachable R C h s) (v : PiiVault)
    (hv : v ∈ s.registry.handles) :
    (v.originalValues.length = v.syntheticKeys.length ∧
      v.piiTypeLabels.length = v.syntheticKeys.length ∧
      v.tiers.length = v.syntheticKeys.length ∧
      v.confidences.length = v.syntheticKeys.length ∧
      v.tokenIds.length = v.syntheticKeys.length) ∧
    v.originalValues.Nodup ∧
    (∀ o s, v.originalToSynthetic.lookup o = some s ↔
      ∃ i : Nat, v.originalValues[i]? = some o ∧ v.syntheticKeys[i]? = some s) ∧
    v.mappingCount = v.syntheticKeys.length ∧
    ((∀ k ∈ v.syntheticKeys, k.length ≤ v.maxSyntheticKeyLen) ∧
      (v.syntheticKeys = [] → v.maxSyntheticKeyLen = 0) ∧
      (v.syntheticKeys ≠ [] → ∃ k ∈ v.syntheticKeys, k.length = v.maxSyntheticKeyLen)) ∧
    v.reverseAutomaton = (if v.syntheticKeys = [] then none else some v.syntheticKeys) ∧
    ∀ m ∈ [v.fullTokenToOriginal, v.tokenIdToOriginal, v.displayValueToOriginal],
      ∀ k o, m.lookup k = some o → o ∈ v.originalValues := by
  have hwf := (Reachable.wellFormed R C h hrun).1 v hv
  refine ⟨⟨hwf.lengthOriginals, hwf.lengthLabels, hwf.lengthTiers, hwf.lengthConfidences,
    hwf.lengthTokenIds⟩, hwf.nodup, ?_, hwf.count, ⟨hwf.maxLen, ?_, ?_⟩, hwf.automaton, ?_⟩
  · intro o t
    rw [hwf.mapping, List.mem_iff_getElem?]
    refine exists_congr fun i => ?_
    rw [List.getElem?_zip_eq_some]
  -- The bound is kept as zero, or as the length of some key.
  · intro hnil
    rcases hwf.maxLenAttained with hz | ⟨k, hk, _⟩
    · exact hz
    · rw [hnil] at hk
      exact absurd hk List.not_mem_nil
  · intro hne
    rcases hwf.maxLenAttained with hz | hatt
    · -- all keys are empty, any of them will do
      rcases List.exists_mem_of_ne_nil _ hne with ⟨k, hk⟩
      have := hwf.maxLen k hk
      exact ⟨k, hk, by omega⟩
    · exact hatt
  · intro m hm k o hk
    rw [hwf.mem_originals_iff]
    simp only [List.mem_cons, List.not_mem_nil, or_false] at hm
    rcases hm with rfl | rfl | rfl
    · exact hwf.fullStored k o hk
    · exact hwf.idStored k o hk
    · exact hwf.displayStored k o hk

end Steps

/-- A session's vault and a conversation's, each with a mapping, then merged. -/
def mergedSession : List ServiceOp :=
  [.getOrCreateWithStore (lit "u"),
    .vaultOp 0 (.addMappingWithTokenId (lit "John Smith") (lit "Alice") (lit "id000001")
      .personName 3 F32.one),
    .getOrCreateWithStore (lit "c"),
    .vaultOp 1 (.addMapping (lit "Acme") (lit "Initech") .orgName 2 F32.one),
    .mergeInto (lit "u") (lit "c")]

/-- The conversation's vault after the merge holds both mappings, and its index
    maps name stored originals. -/
theorem vaults_represented_merged :
    ∃ s v, ServiceOp.run Rand.least Chrono.none sampleHashes mergedSession Service.new = some s ∧
      s.registry.vault (lit "c") = some v ∧ v.syntheticKeys = [lit "Initech", lit "Alice"] ∧
      v.originalValues.Nodup ∧
      ∀ m ∈ [v.fullTokenToOriginal, v.tokenIdToOriginal, v.displayValueToOriginal],
        ∀ k o, m.lookup k = some o → o ∈ v.originalValues := by
  have hkeys : ((ServiceOp.run Rand.least Chrono.none sampleHashes mergedSession Service.new).bind
      fun s => (s.registry.vault (lit "c")).map fun v => v.syntheticKeys) =
      some [lit "Initech", lit "Alice"] := by decide
  rw [Option.bind_eq_some_iff] at hkeys
  rcases hkeys with ⟨s, hrun, hkeys⟩
  rcases Option.map_eq_some_iff.mp hkeys with ⟨v, hv, hkeys⟩
  have hrep := vaults_represented Rand.least Chrono.none sampleHashes
    (Reachable.run _ _ _ mergedSession _ s Runs.start hrun) v
    (VaultRegistry.mem_handles s.registry (lit "c") v hv)
  exact ⟨s, v, hrun, hv, hkeys, hrep.2.1, hrep.2.2.2.2.2.2⟩

end PrivacyClaw
