import PrivacyClaw.Core.CertGen

/-!
# One Certificate for a Domain

Calls of `get_or_create` and `get_or_create_key` from any number of
connections, in any order of their steps.

Whichever way a connection came, it is shown the certificate in the key cache.
A key is put there only after a look that missed, and the lock is kept from the
look to the end, so no entry is ever replaced: two keys generated for one domain
would need two threads with the lock. The first cache only repeats what the
second one has.

The second lock is taken with the first one held, and never the other way
round, so the calls cannot block one another for good (`certs_agree`).

## Main definitions

* `CertThread.held`, `CertThread.cost`: The locks a call has, and its steps.
* `CertThread.presented`: The certificate a call has returned.
* `CertCache.Sound`, `CertThread.Backed`, `CertInv`: The invariant.
* `CertCall`, `certStart`: The calls, and the state before them.

## Theorems

* `certCode_acquire`, `certCode_release`, `certCode_act`: What a call does next.
* `certCode_disciplined`, `certCode_decreasing`: Locks are taken upwards, for a
  while.
* `getOrCreate_alone`, `getOrCreateKey_alone`: A call that is not interrupted.
* `CertInv.step`: Every step keeps the invariant.
* `certs_agree`: What the calls return.
* `certs_agree_three`: Three calls at the same time, one of which fails.
-/

namespace PrivacyClaw

section Certificates

variable {ι : Type} {issue : Str → Str → ι → Option (Str × Str)} {ca : CaBundle}

/-- A call that takes a lock. -/
theorem certCode_acquire {t t' : CertThread} {l : CertLock}
    (h : certCode issue ca t = .acquire l t') :
    ∃ d, (t = .connect d ∧ l = .acceptor ∧ t' = .acceptorLocked d) ∨
      (t = .acceptorMissed d ∧ l = .key ∧ t' = .inner d .getOrCreate .locked) ∨
      (t = .network d ∧ l = .key ∧ t' = .inner d .getOrCreateKey .locked) := by
  unfold certCode at h
  split at h <;> cases h
  · exact ⟨_, .inl ⟨rfl, rfl, rfl⟩⟩
  · exact ⟨_, .inr (.inl ⟨rfl, rfl, rfl⟩)⟩
  · exact ⟨_, .inr (.inr ⟨rfl, rfl, rfl⟩)⟩

/-- A call that gives a lock back. -/
theorem certCode_release {t t' : CertThread} {l : CertLock}
    (h : certCode issue ca t = .release l t') :
    ∃ d, (∃ r, t = .inner d .getOrCreateKey (.found r) ∧ l = .key ∧ t' = .served d r) ∨
      (∃ r, t = .inner d .getOrCreate (.found r) ∧ l = .key ∧ t' = .keyReturned d r) ∨
      ∃ r, t = .acceptorDone d r ∧ l = .acceptor ∧ t' = .accepted d r := by
  unfold certCode at h
  split at h <;> cases h
  · exact ⟨_, .inl ⟨_, rfl, rfl, rfl⟩⟩
  · exact ⟨_, .inr (.inl ⟨_, rfl, rfl, rfl⟩)⟩
  · exact ⟨_, .inr (.inr ⟨_, rfl, rfl, rfl⟩)⟩

/-- A call that looks into a cache, generates a key or puts something into a
    cache. -/
theorem certCode_act {t : CertThread} {f : ι → CertCache → CertCache × CertThread}
    (h : certCode issue ca t = .act f) (a : ι) (c : CertCache) : ∃ d,
    (t = .acceptorLocked d ∧
      ((∃ cfg, c.acceptorCache.lookup d = some cfg ∧ f a c = (c, .acceptorDone d (some cfg))) ∨
        f a c = (c, .acceptorMissed d))) ∨
    (∃ caller, t = .inner d caller .locked ∧
      ((∃ ck, c.keyCache.lookup d = some ck ∧ f a c = (c, .inner d caller (.found (some ck)))) ∨
        (c.keyCache.lookup d = none ∧ f a c = (c, .inner d caller .missed)))) ∨
    (∃ caller, t = .inner d caller .missed ∧
      ((buildCertifiedKey issue ca d a = none ∧ f a c = (c, .inner d caller (.found none))) ∨
        ∃ ck, buildCertifiedKey issue ca d a = some ck ∧
          f a c = ({ c with keyCache := c.keyCache.insert d ck },
            .inner d caller (.found (some ck))))) ∨
    (t = .keyReturned d none ∧ f a c = (c, .acceptorDone d none)) ∨
    ∃ ck, t = .keyReturned d (some ck) ∧
      f a c = ({ c with acceptorCache := c.acceptorCache.insert d (serverConfig ck) },
        .acceptorDone d (some (serverConfig ck))) := by
  unfold certCode at h
  split at h <;> cases h
  · rename_i d
    refine ⟨d, .inl ⟨rfl, ?_⟩⟩
    cases hd : c.acceptorCache.lookup d with
    | some cfg => exact .inl ⟨cfg, rfl, by simp only [hd]⟩
    | none => exact .inr (by simp only [hd])
  · rename_i d caller
    refine ⟨d, .inr (.inl ⟨caller, rfl, ?_⟩)⟩
    cases hd : c.keyCache.lookup d with
    | some ck => exact .inl ⟨ck, rfl, by simp only [hd]⟩
    | none => exact .inr ⟨rfl, by simp only [hd]⟩
  · rename_i d caller
    refine ⟨d, .inr (.inr (.inl ⟨caller, rfl, ?_⟩))⟩
    cases hb : buildCertifiedKey issue ca d a with
    | none => exact .inl ⟨rfl, by simp only [hb]⟩
    | some ck => exact .inr ⟨ck, rfl, by simp only [hb]⟩
  · rename_i d r
    cases r with
    | none => exact ⟨d, .inr (.inr (.inr (.inl ⟨rfl, rfl⟩)))⟩
    | some ck => exact ⟨d, .inr (.inr (.inr (.inr ⟨ck, rfl, rfl⟩)))⟩

/-- The locks a call has, the last one first. -/
def CertThread.held : CertThread → List CertLock
  | .acceptorLocked _ | .acceptorMissed _ | .keyReturned _ _ | .acceptorDone _ _ => [.acceptor]
  | .inner _ .getOrCreate _ => [.key, .acceptor]
  | .inner _ .getOrCreateKey _ => [.key]
  | .connect _ | .network _ | .accepted _ _ | .served _ _ => []

/-- How many steps a call has before it, at most. -/
def CertThread.cost : CertThread → Nat
  | .connect _ => 8
  | .acceptorLocked _ => 7
  | .acceptorMissed _ => 6
  | .inner _ caller phase =>
    (match caller with
      | .getOrCreate => 2
      | .getOrCreateKey => 0) +
    match phase with
      | .locked => 3
      | .missed => 2
      | .found _ => 1
  | .keyReturned _ _ => 2
  | .acceptorDone _ _ => 1
  | .network _ => 4
  | .accepted _ _ | .served _ _ => 0

/-- Locks are taken upwards. -/
theorem certCode_disciplined : Locks.Disciplined (certCode issue ca) CertThread.held where
  ordered t := by
    have hpair : [CertLock.key, .acceptor].Pairwise fun a b => b < a := by
      rw [List.pairwise_cons]
      refine ⟨fun b hb => ?_, List.pairwise_singleton _ _⟩
      rw [List.mem_singleton.mp hb]
      exact Nat.zero_lt_one
    unfold CertThread.held
    split
    · exact List.pairwise_singleton _ _
    · exact List.pairwise_singleton _ _
    · exact List.pairwise_singleton _ _
    · exact List.pairwise_singleton _ _
    · exact hpair
    · exact List.pairwise_singleton _ _
    · exact List.Pairwise.nil
    · exact List.Pairwise.nil
    · exact List.Pairwise.nil
    · exact List.Pairwise.nil
  acquire t l next h := by
    rcases certCode_acquire h with ⟨d, ⟨rfl, rfl, rfl⟩ | ⟨rfl, rfl, rfl⟩ | ⟨rfl, rfl, rfl⟩⟩
    · rfl
    · rfl
    · rfl
  release t l next h := by
    rcases certCode_release h with
      ⟨d, ⟨r, rfl, rfl, rfl⟩ | ⟨r, rfl, rfl, rfl⟩ | ⟨r, rfl, rfl, rfl⟩⟩
    · rfl
    · rfl
    · rfl
  act t f a c h := by
    rcases certCode_act h a c with ⟨d, ⟨rfl, ⟨_, _, hf⟩ | hf⟩ |
      ⟨caller, rfl, ⟨_, _, hf⟩ | ⟨_, hf⟩⟩ | ⟨caller, rfl, ⟨_, hf⟩ | ⟨_, _, hf⟩⟩ | ⟨rfl, hf⟩ |
      ⟨_, rfl, hf⟩⟩ <;> rw [hf]
    · rfl
    · rfl
    · cases caller <;> rfl
    · cases caller <;> rfl
    · cases caller <;> rfl
    · cases caller <;> rfl
    · rfl
    · rfl
  done t h := by
    unfold certCode at h
    split at h <;> cases h
    · rfl
    · rfl

/-- A call takes at most eight steps. -/
theorem certCode_decreasing : Locks.Decreasing (certCode issue ca) CertThread.cost where
  acquire t l next h := by
    rcases certCode_acquire h with ⟨d, ⟨rfl, rfl, rfl⟩ | ⟨rfl, rfl, rfl⟩ | ⟨rfl, rfl, rfl⟩⟩
    · exact Nat.lt_succ_self 7
    · exact Nat.lt_succ_self 5
    · exact Nat.lt_succ_self 3
  release t l next h := by
    rcases certCode_release h with
      ⟨d, ⟨r, rfl, rfl, rfl⟩ | ⟨r, rfl, rfl, rfl⟩ | ⟨r, rfl, rfl, rfl⟩⟩
    · exact Nat.lt_succ_self 0
    · exact Nat.lt_succ_self 2
    · exact Nat.lt_succ_self 0
  act t f a c h := by
    rcases certCode_act h a c with ⟨d, ⟨rfl, ⟨_, _, hf⟩ | hf⟩ |
      ⟨caller, rfl, ⟨_, _, hf⟩ | ⟨_, hf⟩⟩ | ⟨caller, rfl, ⟨_, hf⟩ | ⟨_, _, hf⟩⟩ | ⟨rfl, hf⟩ |
      ⟨_, rfl, hf⟩⟩ <;> rw [hf]
    · simp only [CertThread.cost]
      omega
    · exact Nat.lt_succ_self 6
    · simp only [CertThread.cost]
      omega
    · simp only [CertThread.cost]
      omega
    · simp only [CertThread.cost]
      omega
    · simp only [CertThread.cost]
      omega
    · exact Nat.lt_succ_self 1
    · exact Nat.lt_succ_self 1

/-- A lock that is taken and given back. -/
theorem update_update_none (owner : CertLock → Option Nat) (l : CertLock) (i : Option Nat)
    (h : owner l = none) : Function.update (Function.update owner l i) l none = owner := by
  rw [Function.update_idem, ← h, Function.update_eq_self]

/-- A call of `get_or_create_key` that is not interrupted. -/
theorem getOrCreateKey_alone (c : CertCache) (d : Str) (drawn : ι) : ∃ es,
    Machine.run (Machine.Pool.step (Locks.act (certCode issue ca))) es
        ⟨⟨fun _ => none, c⟩, [.network d]⟩ =
      some ⟨⟨fun _ => none, (c.getOrCreateKey issue ca d drawn).1⟩,
        [.served d (c.getOrCreateKey issue ca d drawn).2]⟩ := by
  unfold CertCache.getOrCreateKey CertCache.getOrCreateKeyInner
  cases hd : c.keyCache.lookup d with
  | some ck =>
      refine ⟨List.replicate 3 (0, drawn), ?_⟩
      simp only [List.replicate, Machine.run, Machine.Pool.step, List.getElem?_cons_zero,
        Locks.act, certCode, hd, Option.map_some, Option.bind_some, List.set_cons_zero,
        update_update_none]
  | none =>
      refine ⟨List.replicate 4 (0, drawn), ?_⟩
      cases hb : buildCertifiedKey issue ca d drawn with
      | none =>
          simp only [List.replicate, Machine.run, Machine.Pool.step, List.getElem?_cons_zero,
            Locks.act, certCode, hd, hb, Option.map_some, Option.bind_some, List.set_cons_zero,
            update_update_none]
      | some ck =>
          simp only [List.replicate, Machine.run, Machine.Pool.step, List.getElem?_cons_zero,
            Locks.act, certCode, hd, hb, Option.map_some, Option.bind_some, List.set_cons_zero,
            update_update_none]

/-- A call of `get_or_create` that is not interrupted. -/
theorem getOrCreate_alone (c : CertCache) (d : Str) (drawn : ι) : ∃ es,
    Machine.run (Machine.Pool.step (Locks.act (certCode issue ca))) es
        ⟨⟨fun _ => none, c⟩, [.connect d]⟩ =
      some ⟨⟨fun _ => none, (c.getOrCreate issue ca d drawn).1⟩,
        [.accepted d (c.getOrCreate issue ca d drawn).2]⟩ := by
  unfold CertCache.getOrCreate CertCache.getOrCreateKeyInner
  cases ha : c.acceptorCache.lookup d with
  | some cfg =>
      refine ⟨List.replicate 3 (0, drawn), ?_⟩
      simp only [List.replicate, Machine.run, Machine.Pool.step, List.getElem?_cons_zero,
        Locks.act, certCode, ha, Option.map_some, Option.bind_some, List.set_cons_zero,
        update_update_none]
  | none =>
      cases hd : c.keyCache.lookup d with
      | some ck =>
          refine ⟨List.replicate 7 (0, drawn), ?_⟩
          simp only [List.replicate, Machine.run, Machine.Pool.step, List.getElem?_cons_zero,
            Locks.act, certCode, ha, hd, Option.map_some, Option.bind_some, List.set_cons_zero,
            update_update_none, Function.update_of_ne, ne_eq, reduceCtorEq, not_false_eq_true]
      | none =>
          refine ⟨List.replicate 8 (0, drawn), ?_⟩
          cases hb : buildCertifiedKey issue ca d drawn with
          | none =>
              simp only [List.replicate, Machine.run, Machine.Pool.step,
                List.getElem?_cons_zero, Locks.act, certCode, ha, hd, hb, Option.map_some,
                Option.bind_some, List.set_cons_zero, update_update_none,
                Function.update_of_ne, ne_eq, reduceCtorEq, not_false_eq_true]
          | some ck =>
              simp only [List.replicate, Machine.run, Machine.Pool.step,
                List.getElem?_cons_zero, Locks.act, certCode, ha, hd, hb, Option.map_some,
                Option.bind_some, List.set_cons_zero, update_update_none,
                Function.update_of_ne, ne_eq, reduceCtorEq, not_false_eq_true]

/-- Every configuration is made from the key in the key cache, and every key was
    built for its domain. -/
def CertCache.Sound (issue : Str → Str → ι → Option (Str × Str)) (ca : CaBundle)
    (c : CertCache) : Prop :=
  (∀ d cfg, c.acceptorCache.lookup d = some cfg →
    cfg = serverConfig cfg.resolver ∧ c.keyCache.lookup d = some cfg.resolver) ∧
  ∀ d ck, c.keyCache.lookup d = some ck → ∃ drawn, buildCertifiedKey issue ca d drawn = some ck

/-- A key in hand is the one in the cache, and without one it could not be
    built. -/
def KeyBacked (issue : Str → Str → ι → Option (Str × Str)) (ca : CaBundle) (own : ι → Prop)
    (c : CertCache) (d : Str) : Option CertifiedKey → Prop
  | some ck => c.keyCache.lookup d = some ck
  | none => ∃ drawn, own drawn ∧ buildCertifiedKey issue ca d drawn = none

/-- What a call relies on between its steps. -/
def CertThread.Backed (issue : Str → Str → ι → Option (Str × Str)) (ca : CaBundle)
    (own : ι → Prop) (c : CertCache) : CertThread → Prop
  | .inner d _ .missed => c.keyCache.lookup d = none
  | .inner d _ (.found r) | .keyReturned d r | .served d r => KeyBacked issue ca own c d r
  | .acceptorDone d r | .accepted d r =>
    KeyBacked issue ca own c d (r.map ServerConfig.resolver) ∧
      ∀ cfg ∈ r, cfg = serverConfig cfg.resolver
  | .connect _ | .acceptorLocked _ | .acceptorMissed _ | .inner _ _ .locked | .network _ => True

/-- A call has come no further than its miss. -/
def CertThread.Missed : CertThread → Prop
  | .inner _ _ .missed => True
  | _ => False

/-- Between a miss and its end a call has the key cache's lock. -/
theorem CertThread.Missed.key_mem {t : CertThread} (h : t.Missed) : CertLock.key ∈ t.held := by
  unfold Missed at h
  split at h
  · rename_i d caller
    cases caller
    · exact List.mem_cons_self
    · exact List.mem_cons_self
  · exact absurd h not_false

/-- What a call relies on stays when keys are added, as long as none is added
    behind a miss. -/
theorem CertThread.Backed.mono {own : ι → Prop} {c c' : CertCache} {t : CertThread}
    (h : t.Backed issue ca own c) (hmissed : t.Missed → c'.keyCache = c.keyCache)
    (hgrown : ∀ d ck, c.keyCache.lookup d = some ck → c'.keyCache.lookup d = some ck) :
    t.Backed issue ca own c' := by
  have hkey : ∀ d r, KeyBacked issue ca own c d r → KeyBacked issue ca own c' d r := by
    intro d r hr
    cases r with
    | none => exact hr
    | some ck => exact hgrown d ck hr
  unfold Backed at h ⊢
  split at h
  · exact (congrArg (AList.lookup _) (hmissed trivial)).trans h
  · exact hkey _ _ h
  · exact hkey _ _ h
  · exact hkey _ _ h
  · exact ⟨hkey _ _ h.1, h.2⟩
  · exact ⟨hkey _ _ h.1, h.2⟩
  · trivial
  · trivial
  · trivial
  · trivial
  · trivial

/-- What holds between the steps of a run with the given events. -/
structure CertInv (issue : Str → Str → ι → Option (Str × Str)) (ca : CaBundle)
    (es : List (Nat × ι)) (p : Machine.Pool (Locks.Guarded CertLock CertCache) CertThread) :
    Prop where
  owned : Locks.Owned CertThread.held p
  sound : p.shared.data.Sound issue ca
  backed : ∀ (i : Nat) (t : CertThread), p.threads[i]? = some t →
    t.Backed issue ca (fun drawn => (i, drawn) ∈ es) p.shared.data

/-- What a step does to the caches, and to the call that takes it. -/
theorem certStep_data {own : ι → Prop} {c : CertCache} (hc : c.Sound issue ca) {t : CertThread}
    (ht : t.Backed issue ca own c) {f : ι → CertCache → CertCache × CertThread}
    (h : certCode issue ca t = .act f) (a : ι) (ha : own a) :
    (f a c).1.Sound issue ca ∧ (f a c).2.Backed issue ca own (f a c).1 ∧
      (∀ d ck, c.keyCache.lookup d = some ck → (f a c).1.keyCache.lookup d = some ck) ∧
      ((f a c).1.keyCache = c.keyCache ∨ t.Missed) := by
  rcases certCode_act h a c with ⟨d, ⟨rfl, ⟨cfg, hd, hf⟩ | hf⟩ |
    ⟨caller, rfl, ⟨ck, hd, hf⟩ | ⟨hd, hf⟩⟩ | ⟨caller, rfl, ⟨hb, hf⟩ | ⟨ck, hb, hf⟩⟩ |
    ⟨rfl, hf⟩ | ⟨ck, rfl, hf⟩⟩ <;> rw [hf]
  · -- a configuration is found
    refine ⟨hc, ⟨(hc.1 d cfg hd).2, fun cfg' h' => ?_⟩, fun _ _ h => h, .inl rfl⟩
    rw [← Option.some.inj h']
    exact (hc.1 d cfg hd).1
  · exact ⟨hc, trivial, fun _ _ h => h, .inl rfl⟩
  · exact ⟨hc, hd, fun _ _ h => h, .inl rfl⟩
  · exact ⟨hc, hd, fun _ _ h => h, .inl rfl⟩
  · exact ⟨hc, ⟨a, ha, hb⟩, fun _ _ h => h, .inl rfl⟩
  · -- a new key, where there was none
    have hnone : c.keyCache.lookup d = none := ht
    have hgrown : ∀ d' ck', c.keyCache.lookup d' = some ck' →
        (c.keyCache.insert d ck).lookup d' = some ck' := by
      intro d' ck' h'
      by_cases hdd : d' = d
      · rw [hdd, hnone] at h'
        exact absurd h'.symm (Option.some_ne_none ck')
      · rw [AList.lookup_insert_ne hdd, h']
    refine ⟨⟨fun d' cfg h' => ⟨(hc.1 d' cfg h').1, hgrown d' _ (hc.1 d' cfg h').2⟩,
      fun d' ck' h' => ?_⟩, AList.lookup_insert _, hgrown, .inr trivial⟩
    by_cases hdd : d' = d
    · rw [hdd] at h' ⊢
      rw [AList.lookup_insert, Option.some.injEq] at h'
      exact ⟨a, by rw [hb, h']⟩
    · rw [AList.lookup_insert_ne hdd] at h'
      exact hc.2 d' ck' h'
  · exact ⟨hc, ⟨ht, fun _ h' => absurd h' (Option.not_mem_none _)⟩, fun _ _ h => h, .inl rfl⟩
  · -- a configuration for the key in hand
    have hck : c.keyCache.lookup d = some ck := ht
    refine ⟨⟨fun d' cfg h' => ?_, hc.2⟩, ⟨hck, fun cfg h' => ?_⟩, fun _ _ h => h, .inl rfl⟩
    · by_cases hdd : d' = d
      · rw [hdd] at h' ⊢
        rw [AList.lookup_insert, Option.some.injEq] at h'
        rw [← h']
        exact ⟨rfl, hck⟩
      · rw [AList.lookup_insert_ne hdd] at h'
        exact hc.1 d' cfg h'
    · rw [← Option.some.inj h']
      rfl

/-- Every step keeps the invariant. -/
theorem CertInv.step {es : List (Nat × ι)}
    {p p' : Machine.Pool (Locks.Guarded CertLock CertCache) CertThread}
    (hp : CertInv issue ca es p) (e : Nat × ι) (he : e ∈ es)
    (hstep : Machine.Pool.step (Locks.act (certCode issue ca)) e p = some p') :
    CertInv issue ca es p' := by
  have howned := certCode_disciplined.owned_step e p p' hp.owned hstep
  rcases (Machine.Pool.step_eq_some_iff e p p').mp hstep with ⟨t, s', t', ht, hact, rfl⟩
  have hback := hp.backed e.1 t ht
  rcases Locks.act_eq_some hact with ⟨l, hc, -, rfl⟩ | ⟨l, hc, rfl⟩ | ⟨f, hc, rfl, rfl⟩
  · -- a lock is taken
    refine ⟨howned, hp.sound, Machine.forall_set ?_ fun j u _ hu => hp.backed j u hu⟩
    rcases certCode_acquire hc with ⟨d, ⟨rfl, -, rfl⟩ | ⟨rfl, -, rfl⟩ | ⟨rfl, -, rfl⟩⟩
    · trivial
    · trivial
    · trivial
  · -- a lock is given back
    refine ⟨howned, hp.sound, Machine.forall_set ?_ fun j u _ hu => hp.backed j u hu⟩
    rcases certCode_release hc with ⟨d, ⟨r, rfl, -, rfl⟩ | ⟨r, rfl, -, rfl⟩ | ⟨r, rfl, -, rfl⟩⟩
    · exact hback
    · exact hback
    · exact hback
  · -- the caches
    rcases certStep_data hp.sound hback hc e.2 he with ⟨hsound, hnew, hgrown, hkeys⟩
    refine ⟨howned, hsound, Machine.forall_set hnew fun j u hne hu => ?_⟩
    refine (hp.backed j u hu).mono (fun hmissed => ?_) hgrown
    rcases hkeys with hkeys | hown
    · exact hkeys
    · exact absurd (hp.owned.exclusive hu ht hmissed.key_mem hown.key_mem) hne

/-- A call: by CONNECT, or by the network proxy. -/
inductive CertCall where
  | getOrCreate (domain : Str)
  | getOrCreateKey (domain : Str)
  deriving DecidableEq

/-- A call that has not begun. -/
def CertCall.start : CertCall → CertThread
  | .getOrCreate d => .connect d
  | .getOrCreateKey d => .network d

/-- The caches, and calls that have not begun. -/
def certStart (calls : List CertCall) :
    Machine.Pool (Locks.Guarded CertLock CertCache) CertThread :=
  ⟨⟨fun _ => none, CertCache.new⟩, calls.map CertCall.start⟩

/-- The certificate a call has returned, and for which domain. -/
def CertThread.presented : CertThread → Option (Str × CertifiedKey)
  | .accepted d r => r.map fun cfg => (d, cfg.resolver)
  | .served d r => r.map fun ck => (d, ck)
  | _ => none

/-- A call that has returned an error. -/
def CertThread.Failed (d : Str) : CertThread → Prop
  | .accepted d' none | .served d' none => d = d'
  | _ => False

/-- A call that has returned. -/
def CertThread.returned : CertThread → Bool
  | .accepted _ _ | .served _ _ => true
  | _ => false

/-- The invariant holds at the start. -/
theorem CertInv.start (calls : List CertCall) (es : List (Nat × ι)) :
    CertInv issue ca es (certStart calls) where
  owned l i := by
    constructor
    · exact fun h => absurd h.symm (Option.some_ne_none i)
    · rintro ⟨t, ht, hl⟩
      rw [certStart, List.getElem?_map, Option.map_eq_some_iff] at ht
      rcases ht with ⟨call, -, rfl⟩
      cases call
      · exact absurd hl List.not_mem_nil
      · exact absurd hl List.not_mem_nil
  sound := ⟨fun _ _ h => absurd h.symm (Option.some_ne_none _),
    fun _ _ h => absurd h.symm (Option.some_ne_none _)⟩
  backed i t ht := by
    rw [certStart, List.getElem?_map, Option.map_eq_some_iff] at ht
    rcases ht with ⟨call, -, rfl⟩
    cases call
    · trivial
    · trivial

/-- A certificate that was returned is the one in the cache. -/
theorem CertThread.Backed.presented {own : ι → Prop} {c : CertCache} {t : CertThread}
    (h : t.Backed issue ca own c) {d : Str} {ck : CertifiedKey}
    (hp : t.presented = some (d, ck)) : c.keyCache.lookup d = some ck := by
  unfold CertThread.presented at hp
  split at hp
  · rename_i d' r
    rcases Option.map_eq_some_iff.mp hp with ⟨cfg, rfl, heq⟩
    rw [← (Prod.mk.inj heq).1, ← (Prod.mk.inj heq).2]
    exact h.1
  · rename_i d' r
    rcases Option.map_eq_some_iff.mp hp with ⟨ck', rfl, heq⟩
    rw [← (Prod.mk.inj heq).1, ← (Prod.mk.inj heq).2]
    exact h
  · exact absurd hp.symm (Option.some_ne_none _)

/-- A call that failed could not build a key. -/
theorem CertThread.Backed.failed {own : ι → Prop} {c : CertCache} {t : CertThread}
    (h : t.Backed issue ca own c) {d : Str} (hf : t.Failed d) :
    ∃ drawn, own drawn ∧ buildCertifiedKey issue ca d drawn = none := by
  unfold CertThread.Failed at hf
  split at hf
  · rw [hf]
    exact h.1
  · rw [hf]
    exact h
  · exact absurd hf not_false

/-- Calls of both kinds for one domain return one certificate, and one that was
    built for it; a call fails only if it could not build one. A run has at most
    eight steps for each call, and one that cannot go on has all calls returned. -/
theorem certs_agree [Nonempty ι] (calls : List CertCall) (es : List (Nat × ι))
    (p : Machine.Pool (Locks.Guarded CertLock CertCache) CertThread)
    (hrun : Machine.run (Machine.Pool.step (Locks.act (certCode issue ca))) es
      (certStart calls) = some p) :
    (∀ t ∈ p.threads, ∀ u ∈ p.threads, ∀ d ck ck', t.presented = some (d, ck) →
      u.presented = some (d, ck') → ck = ck') ∧
    (∀ t ∈ p.threads, ∀ d ck, t.presented = some (d, ck) →
      ∃ drawn, buildCertifiedKey issue ca d drawn = some ck) ∧
    (∀ (i : Nat) (t : CertThread) (d : Str), p.threads[i]? = some t → t.Failed d →
      ∃ drawn, (i, drawn) ∈ es ∧ buildCertifiedKey issue ca d drawn = none) ∧
    es.length ≤ 8 * calls.length ∧
    ((∀ e, Machine.Pool.step (Locks.act (certCode issue ca)) e p = none) ↔
      ∀ t ∈ p.threads, t.returned = true) := by
  have hinv : CertInv issue ca es p :=
    Machine.run_invariant (CertInv issue ca es)
      (fun _ e _ hp he hstep => hp.step e he hstep) es _ p (CertInv.start calls es)
      (Machine.along_of_forall es (fun _ he => he) _) hrun
  have hcached : ∀ t ∈ p.threads, ∀ d ck, t.presented = some (d, ck) →
      p.shared.data.keyCache.lookup d = some ck := by
    intro t ht d ck hck
    rcases List.getElem?_of_mem ht with ⟨i, hi⟩
    exact (hinv.backed i t hi).presented hck
  refine ⟨fun t ht u hu d ck ck' hck hck' => ?_, fun t ht d ck hck => ?_,
    fun i t d ht hf => (hinv.backed i t ht).failed hf, ?_, ?_⟩
  · have h := hcached t ht d ck hck
    rw [hcached u hu d ck' hck'] at h
    exact (Option.some.inj h).symm
  · exact hinv.sound.2 d ck (hcached t ht d ck hck)
  · have hle := certCode_decreasing.run_length_le es _ p hrun
    have hcost : ∀ cs : List CertCall,
        ((cs.map CertCall.start).map CertThread.cost).sum ≤ 8 * cs.length := by
      intro cs
      induction cs with
      | nil => exact Nat.le_refl 0
      | cons call cs ih =>
          have hcall : call.start.cost ≤ 8 := by
            cases call
            · exact Nat.le_refl 8
            · simp only [CertCall.start, CertThread.cost]
              omega
          rw [List.map_cons, List.map_cons, List.sum_cons, List.length_cons]
          omega
    exact hle.trans (hcost calls)
  · rw [certCode_disciplined.stuck_iff p hinv.owned]
    have hdone : ∀ t : CertThread, certCode issue ca t = .done ↔ t.returned = true := by
      intro t
      constructor
      · intro h
        unfold certCode at h
        split at h <;> cases h
        · rfl
        · rfl
      · intro h
        unfold CertThread.returned at h
        split at h
        · rfl
        · rfl
        · exact absurd h Bool.false_ne_true
    exact forall_congr' fun t => imp_congr_right fun _ => hdone t

end Certificates

/-- A certificate authority that draws numbers. -/
def numberedLeaf (_ domain : Str) (n : Nat) : Option (Str × Str) :=
  if n = 0 then none else some (domain, [n.toUInt8])

/-- Three calls for one domain. -/
def threeCalls : List CertCall :=
  [.getOrCreateKey (lit "a"), .getOrCreate (lit "a"), .getOrCreateKey (lit "a")]

/-- An order of their steps, with what is drawn. -/
def threeCallsOrder : List (Nat × Nat) :=
  [(0, 0), (1, 5), (0, 0), (1, 5), (0, 0), (0, 0), (2, 7), (2, 7), (2, 7), (2, 7), (1, 9), (1, 9),
    (1, 9), (1, 9), (1, 9)]

/-- The first call fails, and the second one, which had missed before, gets the key
    that the third one drew. -/
theorem certs_agree_three : ∃ p,
    Machine.run (Machine.Pool.step (Locks.act (certCode numberedLeaf ⟨lit "k", lit "c"⟩)))
      threeCallsOrder (certStart threeCalls) = some p ∧
    (∀ t ∈ p.threads, ∀ u ∈ p.threads, ∀ d ck ck', t.presented = some (d, ck) →
      u.presented = some (d, ck') → ck = ck') ∧
    p.threads.filterMap CertThread.presented =
      [(lit "a", ⟨[lit "a", lit "c"], [7]⟩), (lit "a", ⟨[lit "a", lit "c"], [7]⟩)] :=
  ⟨_, rfl, (@certs_agree Nat numberedLeaf ⟨lit "k", lit "c"⟩ _ threeCalls threeCallsOrder _ rfl).1,
    rfl⟩

end PrivacyClaw
