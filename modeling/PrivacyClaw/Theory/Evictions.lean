import PrivacyClaw.Lib.Machine
import PrivacyClaw.Theory.Display
import PrivacyClaw.Theory.Merge

/-!
# What an Eviction Forgets

The synthetics of a conversation, over any run of a service whose registry
entries expire.

An entry that is evicted is only a handle. The next request of the conversation
loads the vault from the log, as it was saved last, so whatever was entered after
that is gone. A vault is saved at the end of a response; a request whose response
does not end leaves its mappings in memory alone. The handle may still be used by
the connection that has it, and a save through it overwrites what the log has. And
`merge_into` takes the entry of the session away like an eviction does.

Nothing else loses a mapping. So the conversation keeps its synthetics along a run
exactly when each of these three finds everything saved that it leaves to the log
(`synthetics_recalled_iff`).

## Main definitions

* `Service.recall`: The vault a request of a conversation gets.
* `PiiVault.Within`: One vault has the mappings of another.
* `SavedFirst`: The condition on the steps.
* `Recalls`: A step that loses nothing.

## Theorems

* `within_mergeFrom`: A merge loses no mapping of its target.
* `getSynthetic_load`: What is loaded.
* `recall_within`: An entry that stays.
* `getOrCreateWithStore_recall`: What a request gets.
* `recall_getOrCreateWithStore`, `recall_vaultOp`, `recall_mergeInto`,
  `recall_saveVault`, `recall_evictExpired`: One step.
* `recall_step_iff`: When a step loses nothing.
* `synthetics_recalled_iff`: When a run loses nothing.
* `synthetics_recalled_saved`: An eviction behind a save.
-/

namespace PrivacyClaw

/-- Every mapping of the first vault is one of the second. -/
def PiiVault.Within (v w : PiiVault) : Prop :=
  ∀ o d, v.getSynthetic o = some d → w.getSynthetic o = some d

namespace PiiVault.Within

theorem refl (v : PiiVault) : v.Within v := fun _ _ h => h

theorem trans {u v w : PiiVault} (huv : u.Within v) (hvw : v.Within w) : u.Within w :=
  fun o d h => hvw o d (huv o d h)

/-- Vaults with the same mappings can stand for each other. -/
theorem congr_right {v w w' : PiiVault} (h : ∀ o, w.getSynthetic o = w'.getSynthetic o) :
    v.Within w ↔ v.Within w' :=
  forall_congr' fun o => forall_congr' fun d => imp_congr_right fun _ => by rw [h o]

/-- A vault without mappings has nothing to lose. -/
theorem of_isEmpty {v : PiiVault} (hv : v.WellFormed) (hempty : v.isEmpty = true)
    (w : PiiVault) : v.Within w := by
  intro o d ho
  have hcount : v.mappingCount = 0 := by
    rw [PiiVault.isEmpty, beq_iff_eq] at hempty
    exact hempty
  have hkeys : v.syntheticKeys = [] := List.length_eq_zero_iff.mp (hv.count ▸ hcount)
  rw [PiiVault.getSynthetic, hv.mapping, hkeys, List.zip_nil_right] at ho
  exact absurd ho List.not_mem_nil

end PiiVault.Within

/-- A merge loses no mapping of its target. -/
theorem within_mergeFrom {v w : PiiVault} (hv : v.WellFormed) (hw : w.WellFormed) :
    v.Within (v.mergeFrom w) := by
  intro o d ho
  have hnot : ∀ x, (o, x) ∉
      (PiiVault.newRows v w.quints).map fun r => (r.original, r.synthetic) := by
    intro x hmem
    rcases List.mem_map.mp hmem with ⟨r, hr, he⟩
    rcases List.mem_map.mp hr with ⟨q, hq, rfl⟩
    have hnew := of_decide_eq_true (List.mem_filter.mp hq).2
    have ho' : q.1 = o := congrArg Prod.fst he
    rw [ho', ← AList.lookup_eq_none] at hnew
    rw [PiiVault.getSynthetic, hnew] at ho
    exact absurd ho.symm (Option.some_ne_none d)
  rw [PiiVault.getSynthetic, (hv.merged hw).mapping, Writes.lookup_all_of_not_mem o _ _ hnot]
  exact ho

section Evictions

variable (R : Rand) (C : Chrono) (h : Hashes)

/-- The vault that a request of a conversation gets. -/
def Service.recall (s : Service) (c : Str) : PiiVault :=
  (s.registry.vault c).getD (loadOrCreate h c (s.load c))

/-- An entry is only given up, and a log only overwritten behind an entry's back, when
    nothing is lost by it. -/
def SavedFirst (c : Str) (s : Service) : ServiceOp → Prop
  | .evictExpired expired => c ∈ expired →
    ∀ v, s.registry.vault c = some v → v.Within (loadOrCreate h c (s.load c))
  | .mergeInto fromKey _ => fromKey = c →
    ∀ v, s.registry.vault c = some v → v.Within (loadOrCreate h c (s.load c))
  | .saveVault i convId => convId = c → s.registry.vault c = none →
    ∀ w, s.registry.handles[i]? = some w → (loadOrCreate h c (s.load c)).Within w
  | .getOrCreateWithStore _ | .vaultOp _ _ => True

variable {R C h} {s : Service} {c : Str}

/-- A registered handle has a vault. -/
theorem exists_handle {g : VaultRegistry} (hg : g.Valid) {i : Nat}
    (hi : g.vaults.lookup c = some i) : ∃ v, g.handles[i]? = some v :=
  ⟨_, List.getElem?_eq_getElem (hg c i hi)⟩

/-- Without a vault there is no entry. -/
theorem lookup_of_vault_eq_none {g : VaultRegistry} (hg : g.Valid) (hnone : g.vault c = none) :
    g.vaults.lookup c = none := by
  cases hi : g.vaults.lookup c with
  | none => rfl
  | some i =>
      rcases exists_handle hg hi with ⟨v, hv⟩
      rw [VaultRegistry.vault, hi, Option.bind_some, hv] at hnone
      exact absurd hnone (Option.some_ne_none v)

/-- What is loaded has the mappings that were saved. -/
theorem getSynthetic_load {w : PiiVault} (hw : w.WellFormed) (hsaved : s.saved.lookup c = some w)
    (o : Str) : (loadOrCreate h c (s.load c)).getSynthetic o = w.getSynthetic o := by
  rw [Service.load, hsaved, Option.map_some, loadOrCreate, PiiVault.record_stored]
  exact (hw.sameRows_restored c).getSynthetic_eq hw (hw.restored c w.rngSeed) o

theorem loadOrCreate_wellFormed (hrun : Reachable R C h s) (convId : Str) :
    (loadOrCreate h convId (s.load convId)).WellFormed := by
  rcases loadOrCreate_load h s convId with he | ⟨v, hv, he⟩
  · rw [he]
    exact PiiVault.WellFormed.new h convId
  · rw [he]
    exact ((Reachable.wellFormed R C h hrun).2 convId v hv).restored convId v.rngSeed

/-- What is recalled is in the log exactly when the registered vault is. -/
theorem recall_within_load_iff :
    (s.recall h c).Within (loadOrCreate h c (s.load c)) ↔
      ∀ v, s.registry.vault c = some v → v.Within (loadOrCreate h c (s.load c)) := by
  unfold Service.recall
  cases s.registry.vault c with
  | none =>
      exact ⟨fun _ v hv => absurd hv.symm (Option.some_ne_none v), fun _ => PiiVault.Within.refl _⟩
  | some w =>
      constructor
      · intro hw v hv
        rw [Option.some.injEq] at hv
        rw [← hv]
        exact hw
      · exact fun hw => hw w rfl

theorem recall_of_vault {g : VaultRegistry} {v : PiiVault} (hv : g.vault c = some v) :
    Service.recall h { s with registry := g } c = v := by
  rw [Service.recall, hv, Option.getD_some]

/-- Without an entry the log is read. -/
theorem recall_of_given_up {s' : Service} (hkey : s'.registry.vaults.lookup c = none)
    (hsaved : s'.saved = s.saved) : s'.recall h c = loadOrCreate h c (s.load c) := by
  rw [Service.recall, VaultRegistry.vault, hkey, Service.load, Service.load, hsaved]
  rfl

/-- An entry that stays, and a handle that only grows. -/
theorem recall_within {s' : Service} (hg : s.registry.Valid)
    (hkey : s'.registry.vaults.lookup c = s.registry.vaults.lookup c)
    (hsaved : s'.saved.lookup c = s.saved.lookup c)
    (hhandles : ∀ (i : Nat) v, s.registry.handles[i]? = some v →
      ∃ v', s'.registry.handles[i]? = some v' ∧ v.Within v') :
    (s.recall h c).Within (s'.recall h c) := by
  unfold Service.recall VaultRegistry.vault
  rw [hkey]
  cases hc : s.registry.vaults.lookup c with
  | none =>
      rw [Service.load, Service.load, hsaved]
      exact PiiVault.Within.refl _
  | some i =>
      rcases exists_handle hg hc with ⟨v, hv⟩
      rcases hhandles i v hv with ⟨v', hv', hwithin⟩
      rw [Option.bind_some, Option.bind_some, hv, hv']
      exact hwithin

/-- What a request gets is what is recalled. -/
theorem getOrCreateWithStore_recall (hg : s.registry.Valid) :
    (s.registry.getOrCreateWithStore h c (s.load c)).vault c = some (s.recall h c) := by
  unfold VaultRegistry.getOrCreateWithStore Service.recall
  cases hc : s.registry.vaults.lookup c with
  | none =>
      rw [if_neg (AList.lookup_eq_none.mp hc), VaultRegistry.vault, VaultRegistry.vault, hc,
        VaultRegistry.insertNew, AList.lookup_insert, Option.bind_some,
        List.getElem?_append_right (Nat.le_refl _), Nat.sub_self]
      rfl
  | some i =>
      have hmem : c ∈ s.registry.vaults := AList.lookup_isSome.mp (by rw [hc]; rfl)
      rcases exists_handle hg hc with ⟨v, hv⟩
      rw [if_pos hmem, VaultRegistry.vault, hc, Option.bind_some, hv, Option.getD_some]

/-- Opening a vault loses nothing. -/
theorem recall_getOrCreateWithStore (hg : s.registry.Valid) (convId : Str) :
    (s.recall h c).Within (Service.recall h { s with
      registry := s.registry.getOrCreateWithStore h convId (s.load convId) } c) := by
  by_cases hc : convId = c
  · subst hc
    rw [recall_of_vault (getOrCreateWithStore_recall hg)]
    exact PiiVault.Within.refl _
  · unfold VaultRegistry.getOrCreateWithStore
    by_cases hmem : convId ∈ s.registry.vaults
    · rw [if_pos hmem]
      exact PiiVault.Within.refl _
    · rw [if_neg hmem]
      refine recall_within hg (AList.lookup_insert_ne fun he => hc he.symm) rfl ?_
      intro i v hv
      exact ⟨v, (List.getElem?_append_left (List.getElem?_eq_some_iff.mp hv).1).trans hv,
        PiiVault.Within.refl v⟩

/-- A request only enters mappings. -/
theorem recall_vaultOp (hg : s.registry.Valid) (i : Nat) (vop : VaultOp) (w w' : PiiVault)
    (hw : s.registry.handles[i]? = some w) (happ : vop.apply R C w = some w') :
    (s.recall h c).Within (Service.recall h { s with
      registry := { s.registry with handles := s.registry.handles.set i w' } } c) := by
  refine recall_within hg rfl rfl fun j v hv => ?_
  by_cases hij : i = j
  · subst hij
    rw [hw, Option.some.injEq] at hv
    subst hv
    exact ⟨w', List.getElem?_set_self (List.getElem?_eq_some_iff.mp hw).1,
      fun o d ho => getSynthetic_apply R C vop w w' happ o d ho⟩
  · exact ⟨v, (List.getElem?_set_ne hij).trans hv, PiiVault.Within.refl v⟩

section Merge

variable {fromKey intoKey : Str}

/-- The source's entry is given up. -/
theorem mergeInto_lookup_from {g : VaultRegistry} (hg : g.Valid) (hne : fromKey ≠ intoKey)
    (loaded : Option (Option (UInt64 × List StoredVaultRecord))) :
    (g.mergeInto h fromKey intoKey loaded).vaults.lookup fromKey = none := by
  unfold VaultRegistry.mergeInto
  cases hfrom : g.vaults.lookup fromKey with
  | none => exact hfrom
  | some i =>
      rcases exists_handle hg hfrom with ⟨f, hf⟩
      dsimp only
      rw [hf]
      dsimp only
      cases (g.vaults.erase fromKey).lookup intoKey with
      | some j => exact AList.lookup_erase fromKey g.vaults
      | none =>
          dsimp only
          by_cases hempty : (loadOrCreate h intoKey loaded).isEmpty = true
          · rw [if_pos hempty]
            exact (AList.lookup_insert_ne hne).trans (AList.lookup_erase fromKey g.vaults)
          · rw [if_neg hempty]
            exact (AList.lookup_insert_ne hne).trans (AList.lookup_erase fromKey g.vaults)

/-- Where the target is another conversation's, its handle grows. -/
theorem mergeInto_others (hrun : Reachable R C h s) (hfrom : fromKey ≠ c) (hinto : intoKey ≠ c) :
    (s.recall h c).Within (Service.recall h { s with
      registry := s.registry.mergeInto h fromKey intoKey (s.load intoKey) } c) := by
  have hg := Reachable.valid R C h hrun
  have hwf := (Reachable.wellFormed R C h hrun).1
  have herase := AList.lookup_erase_ne (s := s.registry.vaults) (Ne.symm hfrom)
  have hinsert : ∀ i : Nat, ((s.registry.vaults.erase fromKey).insert intoKey i).lookup c =
      s.registry.vaults.lookup c := fun i => (AList.lookup_insert_ne (Ne.symm hinto)).trans herase
  unfold VaultRegistry.mergeInto
  cases hi : s.registry.vaults.lookup fromKey with
  | none => exact PiiVault.Within.refl _
  | some i =>
      rcases exists_handle hg hi with ⟨f, hf⟩
      dsimp only
      rw [hf]
      dsimp only
      cases (s.registry.vaults.erase fromKey).lookup intoKey with
      | some j =>
          refine recall_within hg herase rfl fun k v hv => ?_
          dsimp only
          rw [List.getElem?_modify, hv, Option.map_eq_map, Option.map_some]
          refine ⟨_, rfl, ?_⟩
          by_cases hjk : j = k
          · rw [if_pos hjk]
            exact within_mergeFrom (hwf v (List.mem_of_getElem? hv))
              (hwf f (List.mem_of_getElem? hf))
          · rw [if_neg hjk]
            exact PiiVault.Within.refl v
      | none =>
          dsimp only
          by_cases hempty : (loadOrCreate h intoKey (s.load intoKey)).isEmpty = true
          · rw [if_pos hempty]
            exact recall_within hg (hinsert i) rfl fun k v hv => ⟨v, hv, PiiVault.Within.refl v⟩
          · rw [if_neg hempty]
            refine recall_within hg (hinsert _) rfl fun k v hv => ⟨v, ?_, PiiVault.Within.refl v⟩
            exact (List.getElem?_append_left (List.getElem?_eq_some_iff.mp hv).1).trans hv

/-- What is merged into is what a request of the target gets. -/
theorem mergeTarget_recall (hg : s.registry.Valid) (hne : fromKey ≠ intoKey) :
    s.mergeTarget h fromKey intoKey = some (s.recall h intoKey) := by
  unfold Service.mergeTarget Service.recall VaultRegistry.vault
  rw [AList.lookup_erase_ne (Ne.symm hne)]
  cases hi : s.registry.vaults.lookup intoKey with
  | none => rfl
  | some i =>
      rcases exists_handle hg hi with ⟨v, hv⟩
      dsimp only
      rw [Option.bind_some, hv, Option.getD_some]

/-- The target keeps its mappings. -/
theorem mergeInto_target (hrun : Reachable R C h s) (hne : fromKey ≠ intoKey) :
    (s.recall h intoKey).Within (Service.recall h { s with
      registry := s.registry.mergeInto h fromKey intoKey (s.load intoKey) } intoKey) := by
  have hg := Reachable.valid R C h hrun
  have hwf := Reachable.wellFormed R C h hrun
  cases hf : s.registry.vault fromKey with
  | none =>
      unfold VaultRegistry.mergeInto
      rw [lookup_of_vault_eq_none hg hf]
      exact PiiVault.Within.refl _
  | some f =>
      have hfwf := hwf.1 f (s.registry.mem_handles fromKey f hf)
      rcases mergeInto_cases h s hg fromKey intoKey f hf with ⟨t, htarget, hfrom, hcase⟩
      have htwf : t.WellFormed := by
        rcases hfrom with hmem | rfl
        · exact hwf.1 t hmem
        · exact loadOrCreate_wellFormed hrun intoKey
      rw [mergeTarget_recall hg hne, Option.some.injEq] at htarget
      rw [htarget]
      rcases hcase with hmerged | ⟨hempty, hmoved⟩
      · rw [recall_of_vault hmerged]
        exact within_mergeFrom htwf hfwf
      · exact PiiVault.Within.of_isEmpty htwf hempty _

end Merge

theorem lookup_evictExpired (expired : List Str) (g : VaultRegistry) :
    (g.evictExpired expired).vaults.lookup c =
      if c ∈ expired then none else g.vaults.lookup c := by
  induction expired generalizing g with
  | nil => rfl
  | cons k keys ih =>
      have hstep := ih ⟨g.handles, g.vaults.erase k⟩
      change ((g.evictExpired (k :: keys)).vaults.lookup c) = _ at hstep
      rw [hstep]
      by_cases hk : c = k
      · subst hk
        rw [AList.lookup_erase, ite_self, if_pos List.mem_cons_self]
      · rw [AList.lookup_erase_ne hk]
        by_cases hmem : c ∈ keys
        · rw [if_pos hmem, if_pos (List.mem_cons_of_mem k hmem)]
        · rw [if_neg hmem, if_neg]
          exact fun hor => (List.mem_cons.mp hor).elim hk hmem

/-- An eviction loses what is not saved. -/
theorem recall_evictExpired (hg : s.registry.Valid) (expired : List Str) :
    (s.recall h c).Within
        (Service.recall h { s with registry := s.registry.evictExpired expired } c) ↔
      SavedFirst h c s (.evictExpired expired) := by
  have hkey := lookup_evictExpired (c := c) expired s.registry
  rw [SavedFirst]
  by_cases hc : c ∈ expired
  · rw [if_pos hc] at hkey
    have hload : Service.recall h { s with registry := s.registry.evictExpired expired } c =
        loadOrCreate h c (s.load c) := recall_of_given_up hkey rfl
    rw [hload, recall_within_load_iff]
    exact ⟨fun hall _ => hall, fun hall => hall hc⟩
  · rw [if_neg hc] at hkey
    refine ⟨fun _ hmem => absurd hmem hc, fun _ => ?_⟩
    exact recall_within hg hkey rfl fun i v hv => ⟨v, hv, PiiVault.Within.refl v⟩

/-- A merge loses what the source has not saved. -/
theorem recall_mergeInto (hrun : Reachable R C h s) {fromKey intoKey : Str}
    (hne : fromKey ≠ intoKey) :
    (s.recall h c).Within (Service.recall h { s with
        registry := s.registry.mergeInto h fromKey intoKey (s.load intoKey) } c) ↔
      SavedFirst h c s (.mergeInto fromKey intoKey) := by
  rw [SavedFirst]
  by_cases hfrom : fromKey = c
  · subst hfrom
    have hload : Service.recall h { s with
        registry := s.registry.mergeInto h fromKey intoKey (s.load intoKey) } fromKey =
          loadOrCreate h fromKey (s.load fromKey) :=
      recall_of_given_up (mergeInto_lookup_from (Reachable.valid R C h hrun) hne _) rfl
    rw [hload, recall_within_load_iff]
    exact ⟨fun hall _ => hall, fun hall => hall rfl⟩
  · refine ⟨fun _ he => absurd he hfrom, fun _ => ?_⟩
    by_cases hinto : intoKey = c
    · subst hinto
      exact mergeInto_target hrun hne
    · exact mergeInto_others hrun hfrom hinto

/-- A save loses what only the log had. -/
theorem recall_saveVault (hrun : Reachable R C h s) (i : Nat) (convId : Str) (w : PiiVault)
    (hw : s.registry.handles[i]? = some w) :
    (s.recall h c).Within (Service.recall h { s with saved := s.saved.insert convId w } c) ↔
      SavedFirst h c s (.saveVault i convId) := by
  have hwf := (Reachable.wellFormed R C h hrun).1 w (List.mem_of_getElem? hw)
  rw [SavedFirst]
  by_cases hc : convId = c
  · subst hc
    cases hv : s.registry.vault convId with
    | some v =>
        -- the entry stays, whatever the log has
        refine ⟨fun _ _ hnone => absurd hnone (Option.some_ne_none v), fun _ => ?_⟩
        rw [Service.recall, Service.recall, hv]
        exact PiiVault.Within.refl v
    | none =>
        have hload := getSynthetic_load (h := h)
          (s := { s with saved := s.saved.insert convId w }) hwf
          (AList.lookup_insert s.saved)
        rw [Service.recall, Service.recall, hv, Option.getD_none, Option.getD_none,
          PiiVault.Within.congr_right hload]
        constructor
        · intro hwithin _ _ w' hw'
          rw [hw, Option.some.injEq] at hw'
          rw [← hw']
          exact hwithin
        · exact fun hall => hall rfl rfl w hw
  · refine ⟨fun _ he => absurd he hc, fun _ => ?_⟩
    exact recall_within (Reachable.valid R C h hrun) rfl (AList.lookup_insert_ne (Ne.symm hc))
      fun k v hv => ⟨v, hv, PiiVault.Within.refl v⟩

/-- A step loses nothing exactly when everything it leaves to the log is saved. -/
theorem recall_step_iff (hrun : Reachable R C h s) (op : ServiceOp)
    (hmerge : ∀ f i, op = .mergeInto f i → f ≠ i) (s' : Service)
    (hstep : op.apply R C h s = some s') :
    (s.recall h c).Within (s'.recall h c) ↔ SavedFirst h c s op := by
  have hg := Reachable.valid R C h hrun
  cases op with
  | getOrCreateWithStore convId =>
      rw [ServiceOp.apply, Option.some.injEq] at hstep
      rw [← hstep]
      exact ⟨fun _ => trivial, fun _ => recall_getOrCreateWithStore hg convId⟩
  | vaultOp i vop =>
      refine ⟨fun _ => trivial, fun _ => ?_⟩
      rw [ServiceOp.apply] at hstep
      cases hw : s.registry.handles[i]? with
      | none =>
          rw [hw, Option.some.injEq] at hstep
          rw [← hstep]
          exact PiiVault.Within.refl _
      | some w =>
          rw [hw] at hstep
          rcases Option.map_eq_some_iff.mp hstep with ⟨w', happ, rfl⟩
          exact recall_vaultOp hg i vop w w' hw happ
  | mergeInto fromKey intoKey =>
      rw [ServiceOp.apply, Option.some.injEq] at hstep
      rw [← hstep]
      exact recall_mergeInto hrun (hmerge fromKey intoKey rfl)
  | saveVault i convId =>
      rw [ServiceOp.apply] at hstep
      cases hw : s.registry.handles[i]? with
      | none =>
          rw [hw, Option.some.injEq] at hstep
          rw [← hstep]
          refine ⟨fun _ _ _ w hw' => ?_, fun _ => PiiVault.Within.refl _⟩
          rw [hw] at hw'
          exact absurd hw'.symm (Option.some_ne_none w)
      | some w =>
          rw [hw, Option.some.injEq] at hstep
          rw [← hstep]
          exact recall_saveVault hrun i convId w hw
  | evictExpired expired =>
      rw [ServiceOp.apply, Option.some.injEq] at hstep
      rw [← hstep]
      exact recall_evictExpired hg expired

variable (R C h)

/-- A step after which a request of the conversation gets every mapping that it would have
    got before. -/
def Recalls (c : Str) (s : Service) (op : ServiceOp) : Prop :=
  ∀ s' ∈ op.apply R C h s, (s.recall h c).Within (s'.recall h c)

/-- From every reachable state and along every run without a merge of a key into itself, no
    step loses a synthetic of a conversation exactly when every eviction, every merge that
    takes the entry away and every save without an entry finds saved what it leaves to the
    log. Then the next request gets every synthetic that a request would have got at the
    start. -/
theorem synthetics_recalled_iff {s t : Service} (hrun : Reachable R C h s) (c : Str)
    (ops : List ServiceOp) (hmerges : ∀ f i, ServiceOp.mergeInto f i ∈ ops → f ≠ i)
    (hops : Machine.run (fun op s => op.apply R C h s) ops s = some t) :
    (Machine.Along (fun op s => op.apply R C h s) (Recalls R C h c) ops s ↔
        Machine.Along (fun op s => op.apply R C h s) (SavedFirst h c) ops s) ∧
      (Machine.Along (fun op s => op.apply R C h s) (SavedFirst h c) ops s →
        ∃ v, (t.registry.getOrCreateWithStore h c (t.load c)).vault c = some v ∧
          (s.recall h c).Within v) := by
  have hreach : ∀ s op s', Reachable R C h s → ServiceOp.apply R C h op s = some s' →
      Reachable R C h s' := fun _ op _ hs hstep => Runs.step op hs trivial hstep
  have hagree : Machine.Along (fun op s => op.apply R C h s) (Recalls R C h c) ops s ↔
      Machine.Along (fun op s => op.apply R C h s) (SavedFirst h c) ops s := by
    refine Machine.along_iff_of_run (Reachable R C h) hreach ops ?_ s t hrun hops
    intro op hop u u' hu hstep
    have hmerge : ∀ f i, op = .mergeInto f i → f ≠ i := fun f i he => hmerges f i (he ▸ hop)
    rw [← recall_step_iff hu op hmerge u' hstep, Recalls]
    constructor
    · exact fun hall => hall u' hstep
    · intro hwithin u'' hu''
      rw [Option.mem_def, hstep, Option.some.injEq] at hu''
      rw [← hu'']
      exact hwithin
  refine ⟨hagree, fun hsaved => ?_⟩
  -- What was recalled at the start stays recalled.
  have hend := Machine.run_invariant
    (fun u => Reachable R C h u ∧ (s.recall h c).Within (u.recall h c))
    (fun u op u' hu hok hstep =>
      ⟨hreach u op u' hu.1 hstep, hu.2.trans (hok u' hstep)⟩)
    ops s t ⟨hrun, PiiVault.Within.refl _⟩ (hagree.mpr hsaved) hops
  exact ⟨_, getOrCreateWithStore_recall (Reachable.valid R C h hend.1), hend.2⟩

end Evictions

/-- A conversation that saves its vault before it is evicted: afterwards the next request
    still has the synthetic of the name. -/
theorem synthetics_recalled_saved :
    ∃ s t v, ServiceOp.run Rand.least Chrono.none sampleHashes
        [.getOrCreateWithStore (lit "u"),
          .vaultOp 0 (.addMapping (lit "John Smith") (lit "Alice") .personName 1 F32.one)]
        Service.new = some s ∧
      Machine.run (fun op s => op.apply Rand.least Chrono.none sampleHashes s)
        [ServiceOp.saveVault 0 (lit "u"), .evictExpired [lit "u"]] s = some t ∧
      t.registry.vault (lit "u") = none ∧
      (t.registry.getOrCreateWithStore sampleHashes (lit "u") (t.load (lit "u"))).vault (lit "u") =
        some v ∧ v.getSynthetic (lit "John Smith") = some (lit "Alice") := by
  have hdata : ((ServiceOp.run Rand.least Chrono.none sampleHashes
        [.getOrCreateWithStore (lit "u"),
          .vaultOp 0 (.addMapping (lit "John Smith") (lit "Alice") .personName 1 F32.one)]
        Service.new).map fun s => (s.registry.vaults.lookup (lit "u"),
          (s.registry.vault (lit "u")).bind fun v => v.getSynthetic (lit "John Smith"))) =
      some (some 0, some (lit "Alice")) := by decide
  simp only [Option.map_eq_some_iff, Prod.mk.injEq, Option.bind_eq_some_iff] at hdata
  rcases hdata with ⟨s, hrun, hkey, w, hw, hname⟩
  have hreach := Reachable.run _ _ _ _ _ s Runs.start hrun
  have hhandle : s.registry.handles[0]? = some w := by
    rw [VaultRegistry.vault, hkey, Option.bind_some] at hw
    exact hw
  have hwf := (Reachable.wellFormed _ _ _ hreach).1 w (List.mem_of_getElem? hhandle)
  -- the vault is saved while it has an entry, and given up after that
  have hsave : ServiceOp.apply Rand.least Chrono.none sampleHashes (.saveVault 0 (lit "u")) s =
      some { s with saved := s.saved.insert (lit "u") w } := by
    rw [ServiceOp.apply, hhandle]
  have hops : Machine.run (fun op s => op.apply Rand.least Chrono.none sampleHashes s)
      [ServiceOp.saveVault 0 (lit "u"), .evictExpired [lit "u"]] s =
        some ⟨s.registry.evictExpired [lit "u"], s.saved.insert (lit "u") w⟩ := by
    rw [Machine.run, hsave]
    rfl
  have hok : Machine.Along (fun op s => op.apply Rand.least Chrono.none sampleHashes s)
      (SavedFirst sampleHashes (lit "u"))
      [ServiceOp.saveVault 0 (lit "u"), .evictExpired [lit "u"]] s := by
    refine ⟨fun _ hnone => ?_, fun u hu => ⟨fun _ v hv => ?_, fun _ _ => trivial⟩⟩
    · rw [hw] at hnone
      exact absurd hnone (Option.some_ne_none w)
    · have he := Option.some.inj (hsave.symm.trans hu)
      subst he
      rw [hw, Option.some.injEq] at hv
      subst hv
      exact (PiiVault.Within.congr_right
        (getSynthetic_load hwf (AList.lookup_insert s.saved))).mpr (PiiVault.Within.refl w)
  rcases (synthetics_recalled_iff Rand.least Chrono.none sampleHashes hreach (lit "u")
    [.saveVault 0 (lit "u"), .evictExpired [lit "u"]] (by simp) hops).2 hok with
    ⟨v, hv, hwithin⟩
  refine ⟨s, _, v, hrun, hops, ?_, hv, hwithin _ _ ?_⟩
  · rw [VaultRegistry.vault, lookup_evictExpired, if_pos List.mem_cons_self]
    rfl
  · rw [Service.recall, hw]
    exact hname

end PrivacyClaw
