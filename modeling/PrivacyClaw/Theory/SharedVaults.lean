import PrivacyClaw.Core.Registry
import PrivacyClaw.Lib.Machine

/-!
# One Vault for a Conversation

Calls of `get_or_create_with_store` and `merge_into` from any number of
sessions, in any order of their steps.

A lookup that misses loads the vault with the lock released, and several
callers may do so for one conversation. The lock is taken again before the new
handle is registered, and a handle that is there by then wins. A merge holds
the lock throughout.

So an entry is only ever made where there is none, and only a merge takes one
away, under the key it merges from. A handle that was returned for any other
key is therefore the one registered under it from then on
(`handles_shared`). A caller that is still loading has no handle yet, which is
why nothing has to be said about it.

## Main definitions

* `RegistryCall`, `CallState`, `RegistryCall.act`: The calls and their steps.

## Theorems

* `getOrCreateWithStore_alone`: A call that is not interrupted.
* `mergeInto_lookup`: A merge leaves the entries of other keys.
* `handles_shared`: The handles returned for a key.
* `handles_shared_race`: Two callers that load at the same time, and a merge.
-/

namespace PrivacyClaw

/-- What the store answers for a vault. -/
abbrev LoadedVault := Option (Option (UInt64 × List StoredVaultRecord))

/-- A call of the registry. -/
inductive RegistryCall where
  | getOrCreate (convId : Str)
  | mergeInto (fromKey intoKey : Str)
  deriving DecidableEq

/-- Where a call stands: not begun, behind a miss, with a vault in hand that is
    not registered, or back at its caller with a handle or without. -/
inductive CallState where
  | start
  | missed
  | loaded (v : PiiVault)
  | returned (handle : Nat)
  | done

section SharedVaults

variable (h : Hashes)

/-- A step of a call; the input is what the store answers if it is asked. -/
def RegistryCall.act (_ : Nat) (loaded : LoadedVault) (g : VaultRegistry) :
    RegistryCall × CallState → Option (VaultRegistry × (RegistryCall × CallState))
  | (.getOrCreate c, .start) =>
    match g.vaults.lookup c with
    | some n => some (g, .getOrCreate c, .returned n)
    | none => some (g, .getOrCreate c, .missed)
  | (.getOrCreate c, .missed) =>
    some (g, .getOrCreate c, .loaded (loadOrCreate h c loaded))
  | (.getOrCreate c, .loaded v) =>
    -- another caller may have won while this one loaded
    match g.vaults.lookup c with
    | some n => some (g, .getOrCreate c, .returned n)
    | none => some (g.insertNew c v, .getOrCreate c, .returned g.handles.length)
  | (.mergeInto f i, .start) => some (g.mergeInto h f i loaded, .mergeInto f i, .done)
  | _ => none

/-- A call that is not interrupted is `getOrCreateWithStore`, and returns the
    handle registered then. -/
theorem getOrCreateWithStore_alone (g : VaultRegistry) (c : Str) (loaded : LoadedVault) :
    ∃ es n, Machine.run (Machine.Pool.step (RegistryCall.act h)) es
        ⟨g, [(.getOrCreate c, .start)]⟩ =
      some ⟨g.getOrCreateWithStore h c loaded, [(.getOrCreate c, .returned n)]⟩ ∧
      (g.getOrCreateWithStore h c loaded).vaults.lookup c = some n := by
  unfold VaultRegistry.getOrCreateWithStore
  cases hc : g.vaults.lookup c with
  | some n =>
      rw [if_pos (AList.lookup_isSome.mp (by rw [hc]; rfl))]
      refine ⟨[(0, loaded)], n, ?_, hc⟩
      simp only [Machine.run, Machine.Pool.step, List.getElem?_cons_zero, RegistryCall.act, hc,
        Option.map_some, Option.bind_some, List.set_cons_zero]
  | none =>
      rw [if_neg (AList.lookup_eq_none.mp hc)]
      refine ⟨[(0, loaded), (0, loaded), (0, loaded)], g.handles.length, ?_, ?_⟩
      · simp only [Machine.run, Machine.Pool.step, List.getElem?_cons_zero, RegistryCall.act, hc,
          Option.map_some, Option.bind_some, List.set_cons_zero]
      · exact AList.lookup_insert _

/-- A merge leaves the entry of a key alone that it does not merge from. -/
theorem mergeInto_lookup (g : VaultRegistry) (f i c : Str) (loaded : LoadedVault) (n : Nat)
    (hne : c ≠ f) (hc : g.vaults.lookup c = some n) :
    (g.mergeInto h f i loaded).vaults.lookup c = some n := by
  have herase : (g.vaults.erase f).lookup c = some n := by rw [AList.lookup_erase_ne hne, hc]
  -- a new entry under `i` is only made where there is none
  have hinsert : ∀ m, (g.vaults.erase f).lookup i = none →
      ((g.vaults.erase f).insert i m).lookup c = some n := by
    intro m hi
    by_cases hci : c = i
    · rw [hci, hi] at herase
      exact absurd herase (by simp only [reduceCtorEq, not_false_eq_true])
    · rw [AList.lookup_insert_ne hci, herase]
  unfold VaultRegistry.mergeInto
  cases hfrom : g.vaults.lookup f with
  | none => exact hc
  | some fromHandle =>
      dsimp only
      cases hhandle : g.handles[fromHandle]? with
      | none => exact hc
      | some fromVault =>
          dsimp only
          cases hi : (g.vaults.erase f).lookup i with
          | some intoHandle => exact herase
          | none =>
              dsimp only
              by_cases hempty : (loadOrCreate h i loaded).isEmpty = true
              · rw [if_pos hempty]
                exact hinsert _ hi
              · rw [if_neg hempty]
                exact hinsert _ hi

/-- What a step of a call can do: return the handle registered for its
    conversation or register a new one, move on without a handle, or merge. -/
theorem RegistryCall.act_cases (k : Nat) (loaded : LoadedVault) (g g' : VaultRegistry)
    (t t' : RegistryCall × CallState) (hact : RegistryCall.act h k loaded g t = some (g', t')) :
    (∃ d n, t.1 = .getOrCreate d ∧ t' = (.getOrCreate d, .returned n) ∧
      ((g' = g ∧ g.vaults.lookup d = some n) ∨
        ∃ v, g.vaults.lookup d = none ∧ g' = g.insertNew d v ∧ n = g.handles.length)) ∨
    (g' = g ∧ t'.1 = t.1 ∧ ∀ n, t'.2 ≠ .returned n) ∨
    ∃ f i, t = (.mergeInto f i, .start) ∧ t' = (.mergeInto f i, .done) ∧
      g' = g.mergeInto h f i loaded := by
  rcases t with ⟨d | ⟨f, i⟩, _ | _ | v | m | _⟩
  case getOrCreate.start =>
    cases hd : g.vaults.lookup d with
    | some n =>
        simp only [RegistryCall.act, hd, Option.some.injEq, Prod.mk.injEq] at hact
        rcases hact with ⟨rfl, rfl⟩
        exact Or.inl ⟨d, n, rfl, rfl, Or.inl ⟨rfl, hd⟩⟩
    | none =>
        simp only [RegistryCall.act, hd, Option.some.injEq, Prod.mk.injEq] at hact
        rcases hact with ⟨rfl, rfl⟩
        exact Or.inr (Or.inl ⟨rfl, rfl, fun n he => by simp only [reduceCtorEq] at he⟩)
  case getOrCreate.missed =>
    simp only [RegistryCall.act, Option.some.injEq, Prod.mk.injEq] at hact
    rcases hact with ⟨rfl, rfl⟩
    exact Or.inr (Or.inl ⟨rfl, rfl, fun n he => by simp only [reduceCtorEq] at he⟩)
  case getOrCreate.loaded =>
    cases hd : g.vaults.lookup d with
    | some n =>
        simp only [RegistryCall.act, hd, Option.some.injEq, Prod.mk.injEq] at hact
        rcases hact with ⟨rfl, rfl⟩
        exact Or.inl ⟨d, n, rfl, rfl, Or.inl ⟨rfl, hd⟩⟩
    | none =>
        simp only [RegistryCall.act, hd, Option.some.injEq, Prod.mk.injEq] at hact
        rcases hact with ⟨rfl, rfl⟩
        exact Or.inl ⟨d, _, rfl, rfl, Or.inr ⟨v, hd, rfl, rfl⟩⟩
  case mergeInto.start =>
    simp only [RegistryCall.act, Option.some.injEq, Prod.mk.injEq] at hact
    rcases hact with ⟨rfl, rfl⟩
    exact Or.inr (Or.inr ⟨f, i, rfl, rfl, rfl⟩)
  -- a call that has returned takes no more steps, and a merge has only one
  all_goals exact absurd hact (by simp only [RegistryCall.act, reduceCtorEq, not_false_eq_true])

/-- What is known of a call: it does not merge from `c`, and a handle it
    returned for `c` is registered. -/
def Shares (c : Str) (g : VaultRegistry) (t : RegistryCall × CallState) : Prop :=
  (∀ i, t.1 ≠ .mergeInto c i) ∧
    ∀ n, t = (.getOrCreate c, .returned n) → g.vaults.lookup c = some n

/-- An entry of `c` stays as it is. -/
def KeepsEntry (c : Str) (g g' : VaultRegistry) : Prop :=
  ∀ n, g.vaults.lookup c = some n → g'.vaults.lookup c = some n

/-- A call that does not merge from `c` keeps its entry, and what it returns
    for `c` is registered. -/
theorem RegistryCall.act_shares (k : Nat) (loaded : LoadedVault) (g g' : VaultRegistry) (c : Str)
    (t t' : RegistryCall × CallState) (ht : Shares c g t)
    (hact : RegistryCall.act h k loaded g t = some (g', t')) :
    Shares c g' t' ∧ KeepsEntry c g g' := by
  rcases RegistryCall.act_cases h k loaded g g' t t' hact with
    ⟨d, n, hd, rfl, hcase⟩ | ⟨rfl, hcall, hstate⟩ | ⟨f, i, rfl, rfl, rfl⟩
  · have hnot : ∀ j, RegistryCall.getOrCreate d ≠ .mergeInto c j := fun j he => by
      simp only [reduceCtorEq] at he
    rcases hcase with ⟨rfl, hlookup⟩ | ⟨v, hnone, rfl, rfl⟩
    · refine ⟨⟨hnot, fun m he => ?_⟩, fun _ hm => hm⟩
      simp only [Prod.mk.injEq, RegistryCall.getOrCreate.injEq, CallState.returned.injEq] at he
      rw [← he.1, ← he.2]
      exact hlookup
    · constructor
      · refine ⟨hnot, fun m he => ?_⟩
        simp only [Prod.mk.injEq, RegistryCall.getOrCreate.injEq, CallState.returned.injEq] at he
        rw [← he.1, ← he.2]
        exact AList.lookup_insert _
      · intro m hm
        by_cases hcd : c = d
        · rw [← hcd, hm] at hnone
          exact absurd hnone (by simp only [reduceCtorEq, not_false_eq_true])
        · exact (AList.lookup_insert_ne hcd).trans hm
  · refine ⟨⟨by rw [hcall]; exact ht.1, fun m he => ?_⟩, fun _ hm => hm⟩
    exact absurd (congrArg Prod.snd he) (hstate m)
  · have hne : c ≠ f := fun he => ht.1 i (by rw [he])
    refine ⟨⟨ht.1, fun m he => ?_⟩, fun m hm => mergeInto_lookup h g f i c loaded m hne hm⟩
    exact absurd (congrArg Prod.fst he) (by simp only [reduceCtorEq, not_false_eq_true])

/-- All sessions share one vault per conversation. In every state of every run
    of calls, each handle that was returned for a key nobody merges from is the
    one registered under it. -/
theorem handles_shared (g : VaultRegistry) (calls : List RegistryCall) (c : Str)
    (hsource : ∀ i, RegistryCall.mergeInto c i ∉ calls) (es : List (Nat × LoadedVault))
    (q : Machine.Pool VaultRegistry (RegistryCall × CallState))
    (hrun : Machine.run (Machine.Pool.step (RegistryCall.act h)) es
      ⟨g, calls.map fun call => (call, .start)⟩ = some q)
    (k n : Nat) (hret : q.threads[k]? = some (.getOrCreate c, .returned n)) :
    q.shared.vaults.lookup c = some n := by
  have hinv : True ∧ ∀ (k : Nat) t, q.threads[k]? = some t → Shares c q.shared t := by
    refine Machine.Pool.invariant (fun _ => True) (fun _ g t => Shares c g t) ?_ ?_ es _ q
      ⟨trivial, fun i t ht => ?_⟩ (Machine.along_true es _) hrun
    · intro p i a t s' t' _ _ _ ht hact _
      exact ⟨trivial, (RegistryCall.act_shares h i a p.shared s' c t t' ht hact).1⟩
    · intro p i a t s' t' j u _ _ _ ht hact _ _ hu
      have hkept := (RegistryCall.act_shares h i a p.shared s' c t t' ht hact).2
      exact ⟨hu.1, fun m he => hkept m (hu.2 m he)⟩
    · -- no call has returned at the start
      rcases Machine.getElem?_start ht with ⟨hcall, hs⟩
      refine ⟨fun j he => hsource j (he ▸ List.mem_of_getElem? hcall), fun m he => ?_⟩
      exact absurd (hs.symm.trans (congrArg Prod.snd he)) (by simp only [reduceCtorEq,
        not_false_eq_true])
  exact (hinv.2 k _ hret).2 n rfl

end SharedVaults

/-- Two sessions that open a conversation, and a third that merges its own
    vault into it. -/
def racingCalls : List RegistryCall :=
  [.getOrCreate (lit "c"), .getOrCreate (lit "c"), .getOrCreate (lit "u"),
    .mergeInto (lit "u") (lit "c")]

/-- The first two both miss and load, and the merge comes before either is
    back. -/
def racingSteps : List (Nat × LoadedVault) :=
  [(2, none), (2, none), (2, none), (0, none), (1, none), (0, none), (1, none), (3, none),
    (1, none), (0, none)]

/-- Both get the handle that the third one brought. -/
theorem handles_shared_race : ∃ q,
    Machine.run (Machine.Pool.step (RegistryCall.act sampleHashes)) racingSteps
      ⟨VaultRegistry.new, racingCalls.map fun call => (call, .start)⟩ = some q ∧
      q.threads[0]? = some (.getOrCreate (lit "c"), .returned 0) ∧
      q.threads[1]? = some (.getOrCreate (lit "c"), .returned 0) ∧
      q.shared.vaults.lookup (lit "c") = some 0 := by
  have hsource : ∀ i, RegistryCall.mergeInto (lit "c") i ∉ racingCalls := by
    intro i hmem
    simp only [racingCalls, List.mem_cons, List.not_mem_nil, or_false, reduceCtorEq, false_or,
      RegistryCall.mergeInto.injEq] at hmem
    exact absurd hmem.1 (by decide)
  exact ⟨_, rfl, rfl, rfl, handles_shared sampleHashes VaultRegistry.new racingCalls (lit "c")
    hsource racingSteps _ rfl 0 0 rfl⟩

end PrivacyClaw
