import Mathlib.Algebra.GroupWithZero.Nat
import Mathlib.Data.Set.Finite.List
import Mathlib.Order.Preorder.Finite
import PrivacyClaw.Lib.Machine

/-!
# Locks

A pool of threads whose shared state is guarded by locks.

A thread is where its code stands. The code says what comes next: take a lock,
give one back, or do something to the data. Taking a lock waits while another
thread has it, and nothing else ever waits.

The locks a thread has are a stack, because guards go out of scope in the
reverse order. If every lock that is taken lies above those the thread has
already, a thread that waits for a lock waits for one whose thread waits, if at
all, for a higher one. There are finitely many threads, so not all of them can
wait (`Disciplined.exists_step`). If each step also has a cost that goes down,
a pool comes to an end with every thread done, whatever the order.

## Main definitions

* `Guarded`: Locks and the data behind them.
* `Move`: What a thread does next.
* `Disciplined`: Locks are taken upwards.
* `Owned`: Each lock is with the thread that has it.
* `act`: The step of a thread.
* `Decreasing`: Every move goes down in cost.

## Theorems

* `Owned.exclusive`: A lock has one thread.
* `Disciplined.owned_step`: What a lock says of its thread.
* `Disciplined.exists_step`: Somebody can go on.
* `Disciplined.stuck_iff`: A pool stops when every thread is done.
* `Decreasing.run_length_le`: A run has so many steps at most.
-/

namespace Locks

variable {L ι σ τ : Type*}

/-- Locks and the data behind them. -/
structure Guarded (L σ : Type*) where
  owner : L → Option Nat
  data : σ

/-- What a thread does next. -/
inductive Move (L ι σ τ : Type*) where
  | acquire (l : L) (next : τ)
  | release (l : L) (next : τ)
  | act (f : ι → σ → σ × τ)
  | done

variable (code : τ → Move L ι σ τ)

/-- Locks are given back in the reverse order, and taken upwards. -/
structure Disciplined [Preorder L] (held : τ → List L) : Prop where
  ordered : ∀ t, (held t).Pairwise fun a b => b < a
  acquire : ∀ t l next, code t = .acquire l next → held next = l :: held t
  release : ∀ t l next, code t = .release l next → held t = l :: held next
  act : ∀ t f a s, code t = .act f → held (f a s).2 = held t
  done : ∀ t, code t = .done → held t = []

/-- Each lock is with the thread that has it. -/
def Owned (held : τ → List L) (p : Machine.Pool (Guarded L σ) τ) : Prop :=
  ∀ l i, p.shared.owner l = some i ↔ ∃ t, p.threads[i]? = some t ∧ l ∈ held t

/-- A lock has one thread. -/
theorem Owned.exclusive {held : τ → List L} {p : Machine.Pool (Guarded L σ) τ}
    (hp : Owned held p) {i j : Nat} {t u : τ} {l : L} (hi : p.threads[i]? = some t)
    (hj : p.threads[j]? = some u) (ht : l ∈ held t) (hu : l ∈ held u) : i = j := by
  have h := (hp l i).mpr ⟨t, hi, ht⟩
  rw [(hp l j).mpr ⟨u, hj, hu⟩] at h
  exact (Option.some.inj h).symm

variable {code} in
/-- A lock that is given back was taken once. -/
theorem Disciplined.not_mem_of_release [Preorder L] {held : τ → List L}
    (hd : Disciplined code held) {t next : τ} {l : L} (h : code t = .release l next) :
    l ∉ held next := by
  intro hl
  have hord := hd.ordered t
  rw [hd.release t l next h] at hord
  exact lt_irrefl l (List.rel_of_pairwise_cons hord hl)

variable [DecidableEq L]

/-- A step of a thread; `none` while it waits and when it is done. -/
def act (i : Nat) (a : ι) (s : Guarded L σ) (t : τ) : Option (Guarded L σ × τ) :=
  match code t with
  | .acquire l next =>
    match s.owner l with
    | some _ => none
    | none => some (⟨Function.update s.owner l (some i), s.data⟩, next)
  | .release l next => some (⟨Function.update s.owner l none, s.data⟩, next)
  | .act f => some (⟨s.owner, (f a s.data).1⟩, (f a s.data).2)
  | .done => none

variable {code}

/-- What a step of a thread can be. -/
theorem act_eq_some {i : Nat} {a : ι} {s s' : Guarded L σ} {t t' : τ}
    (h : act code i a s t = some (s', t')) :
    (∃ l, code t = .acquire l t' ∧ s.owner l = none ∧
        s' = ⟨Function.update s.owner l (some i), s.data⟩) ∨
      (∃ l, code t = .release l t' ∧ s' = ⟨Function.update s.owner l none, s.data⟩) ∨
      ∃ f, code t = .act f ∧ s' = ⟨s.owner, (f a s.data).1⟩ ∧ t' = (f a s.data).2 := by
  unfold act at h
  cases hc : code t with
  | acquire l next =>
      rw [hc] at h
      dsimp only at h
      cases ho : s.owner l with
      | some _ =>
          rw [ho] at h
          exact absurd h.symm (Option.some_ne_none _)
      | none =>
          rw [ho, Option.some.injEq, Prod.mk.injEq] at h
          rcases h with ⟨rfl, rfl⟩
          exact .inl ⟨l, rfl, ho, rfl⟩
  | release l next =>
      rw [hc, Option.some.injEq, Prod.mk.injEq] at h
      rcases h with ⟨rfl, rfl⟩
      exact .inr (.inl ⟨l, rfl, rfl⟩)
  | act f =>
      rw [hc, Option.some.injEq, Prod.mk.injEq] at h
      rcases h with ⟨rfl, rfl⟩
      exact .inr (.inr ⟨f, rfl, rfl, rfl⟩)
  | done =>
      rw [hc] at h
      exact absurd h.symm (Option.some_ne_none _)

namespace Disciplined

variable [Preorder L] {held : τ → List L} (hd : Disciplined code held)

include hd

/-- A step keeps each lock with its thread. -/
theorem owned_step (e : Nat × ι) (p p' : Machine.Pool (Guarded L σ) τ) (hp : Owned held p)
    (hstep : Machine.Pool.step (Locks.act code) e p = some p') : Owned held p' := by
  rcases (Machine.Pool.step_eq_some_iff e p p').mp hstep with ⟨t, s', t', ht, hact, rfl⟩
  have hlt : e.1 < p.threads.length := (List.getElem?_eq_some_iff.mp ht).1
  have hself : (p.threads.set e.1 t')[e.1]? = some t' := by
    rw [List.getElem?_set_self hlt]
  have hother : ∀ j, j ≠ e.1 → (p.threads.set e.1 t')[j]? = p.threads[j]? :=
    fun j hj => List.getElem?_set_ne hj.symm
  -- who has a lock is read off the thread that moved and the old threads
  have hread : ∀ k j, (∃ u, (p.threads.set e.1 t')[j]? = some u ∧ k ∈ held u) ↔
      if j = e.1 then k ∈ held t' else p.shared.owner k = some j := by
    intro k j
    by_cases hj : j = e.1
    · rw [if_pos hj, hj, hself]
      constructor
      · rintro ⟨u, hu, hk⟩
        rw [Option.some.inj hu]
        exact hk
      · exact fun hk => ⟨t', rfl, hk⟩
    · rw [if_neg hj, hother j hj, hp k j]
  have hold : ∀ k, p.shared.owner k = some e.1 ↔ k ∈ held t := by
    intro k
    rw [hp k e.1, ht]
    constructor
    · rintro ⟨u, hu, hk⟩
      rw [Option.some.inj hu]
      exact hk
    · exact fun hk => ⟨t, rfl, hk⟩
  intro k j
  rw [hread k j]
  rcases act_eq_some hact with ⟨l, hc, ho, rfl⟩ | ⟨l, hc, rfl⟩ | ⟨f, hc, rfl, rfl⟩
  · -- a lock is taken
    rw [hd.acquire t l t' hc]
    dsimp only
    by_cases hk : k = l
    · rw [hk, Function.update_self, ho]
      by_cases hj : j = e.1
      · rw [if_pos hj, hj]
        exact ⟨fun _ => List.mem_cons_self, fun _ => rfl⟩
      · rw [if_neg hj]
        constructor
        · exact fun h => absurd (Option.some.inj h).symm hj
        · exact fun h => absurd h.symm (Option.some_ne_none j)
    · rw [Function.update_of_ne hk]
      by_cases hj : j = e.1
      · rw [if_pos hj, hj, hold k, List.mem_cons]
        exact ⟨Or.inr, fun h => h.resolve_left hk⟩
      · rw [if_neg hj]
  · -- a lock is given back
    have hheld := hd.release t l t' hc
    dsimp only
    by_cases hk : k = l
    · rw [hk, Function.update_self]
      have hl : p.shared.owner l = some e.1 := (hold l).mpr (hheld ▸ List.mem_cons_self)
      by_cases hj : j = e.1
      · rw [if_pos hj]
        constructor
        · exact fun h => absurd h.symm (Option.some_ne_none j)
        · exact fun h => absurd h (hd.not_mem_of_release hc)
      · rw [if_neg hj, hl]
        constructor
        · exact fun h => absurd h.symm (Option.some_ne_none j)
        · exact fun h => absurd (Option.some.inj h).symm hj
    · rw [Function.update_of_ne hk]
      by_cases hj : j = e.1
      · rw [if_pos hj, hj, hold k, hheld, List.mem_cons]
        exact ⟨fun h => h.resolve_left hk, Or.inr⟩
      · rw [if_neg hj]
  · -- the data alone
    rw [hd.act t f e.2 p.shared.data hc]
    dsimp only
    by_cases hj : j = e.1
    · rw [if_pos hj, hj]
      exact hold k
    · rw [if_neg hj]

/-- Somebody can go on unless every thread is done. -/
theorem exists_step (p : Machine.Pool (Guarded L σ) τ) (hp : Owned held p) (a : ι)
    (hnot : ∃ t ∈ p.threads, code t ≠ .done) :
    ∃ i p', Machine.Pool.step (Locks.act code) (i, a) p = some p' := by
  by_contra hstuck
  -- a thread that is not done waits for a lock that somebody has
  have hwaits : ∀ (i : Nat) (t : τ), p.threads[i]? = some t → code t ≠ .done →
      ∃ l next j, code t = .acquire l next ∧ p.shared.owner l = some j := by
    intro i t ht hc
    have hno : ∀ r, Locks.act code i a p.shared t ≠ some r := by
      intro r hr
      exact hstuck ⟨i, _, (Machine.Pool.step_eq_some_iff (i, a) p _).mpr ⟨t, r.1, r.2, ht, hr, rfl⟩⟩
    unfold Locks.act at hno
    cases hmove : code t with
    | acquire l next =>
        rw [hmove] at hno
        dsimp only at hno
        cases ho : p.shared.owner l with
        | some j => exact ⟨l, next, j, rfl, ho⟩
        | none =>
            rw [ho] at hno
            exact absurd rfl (hno _)
    | release l next =>
        rw [hmove] at hno
        exact absurd rfl (hno _)
    | act f =>
        rw [hmove] at hno
        exact absurd rfl (hno _)
    | done => exact absurd hmove hc
  let waited : Set L := {l | ∃ t ∈ p.threads, ∃ next, code t = .acquire l next}
  -- who has the lock waits for a higher one
  have hhigher : ∀ l ∈ waited, ∃ m ∈ waited, l < m := by
    rintro l ⟨t, ht, next, hc⟩
    rcases List.getElem?_of_mem ht with ⟨i, hi⟩
    have hbusy : code t ≠ .done := by simp only [hc, ne_eq, reduceCtorEq, not_false_eq_true]
    rcases hwaits i t hi hbusy with ⟨l', next', j, hc', ho⟩
    rw [hc] at hc'
    cases hc'
    rcases (hp l j).mp ho with ⟨u, hu, hl⟩
    have hbusy : code u ≠ .done := by
      intro hdone
      rw [hd.done u hdone] at hl
      exact absurd hl List.not_mem_nil
    rcases hwaits j u hu hbusy with ⟨m, next'', _, hm, _⟩
    have hord := hd.ordered next''
    rw [hd.acquire u m next'' hm] at hord
    exact ⟨m, ⟨u, List.mem_of_getElem? hu, next'', hm⟩, List.rel_of_pairwise_cons hord hl⟩
  have hfinite : waited.Finite := by
    have hsub : waited ⊆ {l | l ∈ p.threads.filterMap fun t =>
        match code t with
        | .acquire l _ => some l
        | _ => none} := by
      rintro l ⟨t, ht, next, hc⟩
      exact List.mem_filterMap.mpr ⟨t, ht, by rw [hc]⟩
    exact (List.finite_toSet _).subset hsub
  have hsome : waited.Nonempty := by
    rcases hnot with ⟨t, ht, hc⟩
    rcases List.getElem?_of_mem ht with ⟨i, hi⟩
    rcases hwaits i t hi hc with ⟨l, next, _, hl, _⟩
    exact ⟨l, t, ht, next, hl⟩
  rcases hfinite.exists_maximal hsome with ⟨l, hl, hmax⟩
  rcases hhigher l hl with ⟨m, hm, hlt⟩
  exact absurd (hmax hm hlt.le) (not_le_of_gt hlt)

/-- A pool stops when every thread is done. -/
theorem stuck_iff [Nonempty ι] (p : Machine.Pool (Guarded L σ) τ) (hp : Owned held p) :
    (∀ e, Machine.Pool.step (Locks.act code) e p = none) ↔ ∀ t ∈ p.threads, code t = .done := by
  constructor
  · intro hstuck t ht
    by_contra hc
    rcases ‹Nonempty ι› with ⟨a⟩
    rcases hd.exists_step p hp a ⟨t, ht, hc⟩ with ⟨i, p', hstep⟩
    rw [hstuck] at hstep
    exact absurd hstep.symm (Option.some_ne_none p')
  · intro hdone e
    unfold Machine.Pool.step
    cases ht : p.threads[e.1]? with
    | none => rfl
    | some t =>
        dsimp only
        unfold Locks.act
        rw [hdone t (List.mem_of_getElem? ht)]
        rfl

end Disciplined

/-- Every move goes down in cost. -/
structure Decreasing (code : τ → Move L ι σ τ) (cost : τ → Nat) : Prop where
  acquire : ∀ t l next, code t = .acquire l next → cost next < cost t
  release : ∀ t l next, code t = .release l next → cost next < cost t
  act : ∀ t f a s, code t = .act f → cost (f a s).2 < cost t

/-- The sum over a list with one entry changed. -/
theorem sum_map_set (cost : τ → Nat) (ts : List τ) (i : Nat) (t t' : τ) (h : ts[i]? = some t) :
    ((ts.set i t').map cost).sum + cost t = (ts.map cost).sum + cost t' := by
  induction ts generalizing i with
  | nil => exact absurd h.symm (Option.some_ne_none t)
  | cons u us ih =>
      cases i with
      | zero =>
          rw [List.getElem?_cons_zero, Option.some.injEq] at h
          rw [List.set_cons_zero, List.map_cons, List.sum_cons, List.map_cons, List.sum_cons, h]
          omega
      | succ i =>
          rw [List.getElem?_cons_succ] at h
          have := ih i h
          rw [List.set_cons_succ, List.map_cons, List.sum_cons, List.map_cons, List.sum_cons]
          omega

/-- A run has at most as many steps as its threads cost together. -/
theorem Decreasing.run_length_le {cost : τ → Nat} (hdec : Decreasing code cost)
    (es : List (Nat × ι)) (p q : Machine.Pool (Guarded L σ) τ)
    (hrun : Machine.run (Machine.Pool.step (Locks.act code)) es p = some q) :
    es.length ≤ (p.threads.map cost).sum := by
  induction es generalizing p with
  | nil => exact Nat.zero_le _
  | cons e es ih =>
      rcases (Machine.run_cons_eq_some_iff e es p q).mp hrun with ⟨p', hstep, hrest⟩
      have hle := ih p' hrest
      rcases (Machine.Pool.step_eq_some_iff e p p').mp hstep with ⟨t, s', t', ht, hact, rfl⟩
      have hcost : cost t' < cost t := by
        rcases act_eq_some hact with ⟨l, hc, _⟩ | ⟨l, hc, _⟩ | ⟨f, hc, _, rfl⟩
        · exact hdec.acquire t l t' hc
        · exact hdec.release t l t' hc
        · exact hdec.act t f e.2 p.shared.data hc
      have hsum := sum_map_set cost p.threads e.1 t t' ht
      dsimp only at hle
      rw [List.length_cons]
      omega

end Locks
