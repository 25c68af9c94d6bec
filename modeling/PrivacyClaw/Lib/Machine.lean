import Mathlib.Data.List.Basic

/-!
# Runs and Interleavings

A machine that takes one event at a time, and a pool of threads over a shared
state, in which any thread may take the next step.

A run is the list of the events that happened. An event that cannot happen in
a state has no successor there, so a list of events is a run exactly when
`run` answers. A condition on the steps is a predicate on the state before a
step and the event; `Along` says that every step of a list of events meets it.
An invariant that a conforming step keeps holds at the end of every conforming
run, and every prefix of a run is a run, so it holds in every state.

The rule for a pool is the one of Owicki and Gries. Each thread has an
assertion about the shared state and its own. A step has to establish the
assertion of the thread that takes it and must not spoil that of any other.

## Main definitions

* `run`, `Along`: Runs, and the condition on their steps.
* `Always`: A property of every state of a run.
* `Pool`, `Pool.step`: Threads over a shared state.

## Theorems

* `run_append`: A run cut in two.
* `along_cons_of_step`: The condition behind a step.
* `along_congr`: Conditions that agree on every step.
* `along_true`, `along_of_forall`: No condition, and one on the events alone.
* `run_invariant`: What conforming steps keep holds at the end of a run.
* `along_of_invariant`: What an invariant says of the steps.
* `along_iff_of_run`: Conditions that agree on the steps of a run.
* `always_iff_along_of_run`, `always_iff_along`: A property that exactly the
  conforming steps keep.
* `run_backwards`, `run_iff_along`: The same for one that is never regained.
* `getElem?_set_cases`, `forall_set`: The entries after an update.
* `getElem?_start`: The threads at the start.
* `Pool.step_eq_some_iff`: A step of a pool is one of a thread's.
* `Pool.invariant`: The rule for a pool.
* `Pool.length_step`, `Pool.run_length`: A pool keeps its threads.
-/

namespace Machine

section Runs

variable {σ ε : Type*} (step : ε → σ → Option σ)

/-- The state after a list of events; `none` if one of them cannot happen. -/
def run : List ε → σ → Option σ
  | [], s => some s
  | e :: es, s => (step e s).bind (run es)

/-- Every event that happens meets the condition in the state before it. -/
def Along (ok : σ → ε → Prop) : List ε → σ → Prop
  | [], _ => True
  | e :: es, s => ok s e ∧ ∀ s' ∈ step e s, Along ok es s'

/-- A property of every state of a run. -/
def Always (P : σ → Prop) : List ε → σ → Prop
  | [], s => P s
  | e :: es, s => P s ∧ ∀ s' ∈ step e s, Always P es s'

instance Along.decidable (ok : σ → ε → Prop) [∀ s e, Decidable (ok s e)] :
    ∀ es s, Decidable (Along step ok es s)
  | [], _ => isTrue trivial
  | e :: es, s =>
    have (s' : σ) : Decidable (Along step ok es s') := Along.decidable ok es s'
    inferInstanceAs (Decidable (ok s e ∧ ∀ s' ∈ step e s, Along step ok es s'))

instance Always.decidable (P : σ → Prop) [∀ s, Decidable (P s)] :
    ∀ es s, Decidable (Always step P es s)
  | [], s => inferInstanceAs (Decidable (P s))
  | e :: es, s =>
    have (s' : σ) : Decidable (Always step P es s') := Always.decidable P es s'
    inferInstanceAs (Decidable (P s ∧ ∀ s' ∈ step e s, Always step P es s'))

variable {step}

theorem run_cons_eq_some_iff (e : ε) (es : List ε) (s t : σ) :
    run step (e :: es) s = some t ↔ ∃ s', step e s = some s' ∧ run step es s' = some t := by
  rw [run, Option.bind_eq_some_iff]

theorem run_append (es fs : List ε) (s : σ) :
    run step (es ++ fs) s = (run step es s).bind (run step fs) := by
  induction es generalizing s with
  | nil => rfl
  | cons e es ih =>
      rw [List.cons_append, run, run, Option.bind_assoc]
      exact congrArg (step e s).bind (funext ih)

/-- The condition behind a step that happens. -/
theorem along_cons_of_step {ok : σ → ε → Prop} {e : ε} {s s' : σ} (hstep : step e s = some s')
    (es : List ε) : Along step ok (e :: es) s ↔ ok s e ∧ Along step ok es s' := by
  rw [Along, hstep]
  refine and_congr_right fun _ => ⟨fun h => h s' rfl, fun h u hu => ?_⟩
  rw [← Option.some.inj hu]
  exact h

/-- Conditions that agree on every step agree along every list of events. -/
theorem along_congr {ok ok' : σ → ε → Prop} (h : ∀ s e, ok s e ↔ ok' s e) (es : List ε) (s : σ) :
    Along step ok es s ↔ Along step ok' es s := by
  have : ok = ok' := funext fun s => funext fun e => propext (h s e)
  rw [this]

/-- Without a condition every list of events conforms. -/
theorem along_true (es : List ε) (s : σ) : Along step (fun _ _ => True) es s := by
  induction es generalizing s with
  | nil => trivial
  | cons e es ih => exact ⟨trivial, fun s' _ => ih s'⟩

/-- A condition on the events alone. -/
theorem along_of_forall {ok : ε → Prop} (es : List ε) (h : ∀ e ∈ es, ok e) (s : σ) :
    Along step (fun _ e => ok e) es s := by
  induction es generalizing s with
  | nil => trivial
  | cons e es ih =>
      exact ⟨h e List.mem_cons_self, fun s' _ =>
        ih (fun e' he => h e' (List.mem_cons_of_mem e he)) s'⟩

/-- What a conforming step keeps holds at the end of a conforming run. -/
theorem run_invariant {ok : σ → ε → Prop} (Inv : σ → Prop)
    (hstep : ∀ s e s', Inv s → ok s e → step e s = some s' → Inv s')
    (es : List ε) (s t : σ) (hs : Inv s) (hok : Along step ok es s)
    (hrun : run step es s = some t) : Inv t := by
  induction es generalizing s with
  | nil =>
      rw [run, Option.some.injEq] at hrun
      rw [← hrun]
      exact hs
  | cons e es ih =>
      rcases (run_cons_eq_some_iff e es s t).mp hrun with ⟨s', hs', ht⟩
      exact ih s' (hstep s e s' hs hok.1 hs') (hok.2 s' hs') ht

/-- Steps from states of which an invariant holds conform if it says so. -/
theorem along_of_invariant {ok : σ → ε → Prop} (Inv : σ → Prop)
    (hstep : ∀ s e s', Inv s → step e s = some s' → Inv s') (hok : ∀ s e, Inv s → ok s e)
    (es : List ε) (s : σ) (hs : Inv s) : Along step ok es s := by
  induction es generalizing s with
  | nil => trivial
  | cons e es ih => exact ⟨hok s e hs, fun s' hs' => ih s' (hstep s e s' hs hs')⟩

/-- Conditions that agree on the steps of a run agree along it. The steps are taken in
    states of which an invariant holds. -/
theorem along_iff_of_run {ok ok' : σ → ε → Prop} (Inv : σ → Prop)
    (hinv : ∀ s e s', Inv s → step e s = some s' → Inv s') (es : List ε)
    (hiff : ∀ e ∈ es, ∀ s s', Inv s → step e s = some s' → (ok s e ↔ ok' s e)) (s t : σ)
    (hs : Inv s) (hrun : run step es s = some t) :
    Along step ok es s ↔ Along step ok' es s := by
  induction es generalizing s with
  | nil => exact Iff.rfl
  | cons e es ih =>
      rcases (run_cons_eq_some_iff e es s t).mp hrun with ⟨s', hs', hrest⟩
      have hnext := ih (fun e' he => hiff e' (List.mem_cons_of_mem e he)) s' (hinv s e s' hs hs')
        hrest
      rw [along_cons_of_step hs', along_cons_of_step hs', hnext,
        hiff e List.mem_cons_self s s' hs hs']

/-- A property that a step keeps exactly when it meets the condition holds in
    every state of a run exactly when every step meets the condition. The steps
    are taken in states of which an invariant holds. -/
theorem always_iff_along_of_run {ok : σ → ε → Prop} (Inv P : σ → Prop)
    (hinv : ∀ s e s', Inv s → step e s = some s' → Inv s')
    (hstep : ∀ s e s', Inv s → P s → step e s = some s' → (P s' ↔ ok s e))
    (es : List ε) (s t : σ) (hI : Inv s) (hs : P s) (hrun : run step es s = some t) :
    Always step P es s ↔ Along step ok es s := by
  induction es generalizing s with
  | nil => exact ⟨fun _ => trivial, fun _ => hs⟩
  | cons e es ih =>
      rcases (run_cons_eq_some_iff e es s t).mp hrun with ⟨s', hs', hrest⟩
      have hI' := hinv s e s' hI hs'
      rw [along_cons_of_step hs']
      constructor
      · rintro ⟨_, hall⟩
        have hnext := hall s' hs'
        have hP : P s' := by
          cases es with
          | nil => exact hnext
          | cons _ _ => exact hnext.1
        exact ⟨(hstep s e s' hI hs hs').mp hP, (ih s' hI' hP hrest).mp hnext⟩
      · rintro ⟨hok, hall⟩
        have hP := (hstep s e s' hI hs hs').mpr hok
        refine ⟨hs, fun u hu => ?_⟩
        rw [Option.mem_def, hs', Option.some.injEq] at hu
        rw [← hu]
        exact (ih s' hI' hP hrest).mpr hall

/-- A property that is never regained holds at the start of a run if at its end. -/
theorem run_backwards (Inv P : σ → Prop)
    (hinv : ∀ s e s', Inv s → step e s = some s' → Inv s')
    (hback : ∀ s e s', Inv s → step e s = some s' → P s' → P s)
    (es : List ε) (s t : σ) (hI : Inv s) (hrun : run step es s = some t) (ht : P t) : P s := by
  induction es generalizing s with
  | nil =>
      rw [run, Option.some.injEq] at hrun
      rw [hrun]
      exact ht
  | cons e es ih =>
      rcases (run_cons_eq_some_iff e es s t).mp hrun with ⟨s', hs', hrest⟩
      exact hback s e s' hI hs' (ih s' (hinv s e s' hI hs') hrest)

/-- A property that is never regained, and that a step keeps exactly when it meets the
    condition, holds at the end of a run exactly when every step meets the condition. -/
theorem run_iff_along {ok : σ → ε → Prop} (Inv P : σ → Prop)
    (hinv : ∀ s e s', Inv s → step e s = some s' → Inv s')
    (hback : ∀ s e s', Inv s → step e s = some s' → P s' → P s)
    (hstep : ∀ s e s', Inv s → P s → step e s = some s' → (P s' ↔ ok s e))
    (es : List ε) (s t : σ) (hI : Inv s) (hs : P s) (hrun : run step es s = some t) :
    P t ↔ Along step ok es s := by
  induction es generalizing s with
  | nil =>
      rw [run, Option.some.injEq] at hrun
      rw [← hrun]
      exact ⟨fun _ => trivial, fun _ => hs⟩
  | cons e es ih =>
      rcases (run_cons_eq_some_iff e es s t).mp hrun with ⟨s', hs', hrest⟩
      have hI' := hinv s e s' hI hs'
      rw [along_cons_of_step hs']
      constructor
      · intro ht
        -- the property goes back from the end to the state behind this step
        have hP : P s' := run_backwards Inv P hinv hback es s' t hI' hrest ht
        exact ⟨(hstep s e s' hI hs hs').mp hP, (ih s' hI' hP hrest).mp ht⟩
      · rintro ⟨hok, hall⟩
        exact (ih s' hI' ((hstep s e s' hI hs hs').mpr hok) hrest).mpr hall

/-- Where every event can happen, every list of events is a run. -/
theorem run_of_total (htotal : ∀ e s, ∃ s', step e s = some s') (es : List ε) (s : σ) :
    ∃ t, run step es s = some t := by
  induction es generalizing s with
  | nil => exact ⟨s, rfl⟩
  | cons e es ih =>
      rcases htotal e s with ⟨s', hs'⟩
      rcases ih s' with ⟨t, ht⟩
      exact ⟨t, (run_cons_eq_some_iff e es s t).mpr ⟨s', hs', ht⟩⟩

/-- The same for a machine in which every event can happen. -/
theorem always_iff_along {ok : σ → ε → Prop} (P : σ → Prop)
    (htotal : ∀ e s, ∃ s', step e s = some s')
    (hstep : ∀ s e s', P s → step e s = some s' → (P s' ↔ ok s e)) (es : List ε) (s : σ)
    (hs : P s) : Always step P es s ↔ Along step ok es s := by
  rcases run_of_total htotal es s with ⟨t, hrun⟩
  exact always_iff_along_of_run (fun _ => True) P (fun _ _ _ _ _ => trivial)
    (fun s e s' _ => hstep s e s') es s t trivial hs hrun

end Runs

/-- An entry after an update: the new one, or one as it was. -/
theorem getElem?_set_cases {τ : Type*} (threads : List τ) (i j : Nat) (t' u : τ)
    (h : (threads.set i t')[j]? = some u) :
    (j = i ∧ u = t') ∨ (j ≠ i ∧ threads[j]? = some u) := by
  by_cases hij : i = j
  · rw [hij, List.getElem?_set_self'] at h
    rcases Option.map_eq_some_iff.mp h with ⟨_, _, hu⟩
    exact Or.inl ⟨hij.symm, hu.symm⟩
  · rw [List.getElem?_set_ne hij] at h
    exact Or.inr ⟨fun he => hij he.symm, h⟩

/-- What holds of every entry after an update. -/
theorem forall_set {τ : Type*} {P : Nat → τ → Prop} {threads : List τ} {i : Nat} {t' : τ}
    (hnew : P i t') (hold : ∀ j u, j ≠ i → threads[j]? = some u → P j u) :
    ∀ j u, (threads.set i t')[j]? = some u → P j u := by
  intro j u hu
  rcases getElem?_set_cases threads i j t' u hu with ⟨rfl, rfl⟩ | ⟨hne, hu⟩
  · exact hnew
  · exact hold j u hne hu

/-- A thread that has taken no step yet. -/
theorem getElem?_start {κ φ : Type*} {calls : List κ} {s : φ} {i : Nat} {t : κ × φ}
    (h : (calls.map fun call => (call, s))[i]? = some t) : calls[i]? = some t.1 ∧ t.2 = s := by
  rw [List.getElem?_map, Option.map_eq_some_iff] at h
  rcases h with ⟨call, hcall, rfl⟩
  exact ⟨hcall, rfl⟩

/-- Threads with a shared state. -/
structure Pool (σ τ : Type*) where
  shared : σ
  threads : List τ

namespace Pool

variable {σ τ ι : Type*} (act : Nat → ι → σ → τ → Option (σ × τ))

/-- A step of the pool: the thread with the given number takes a step on the
    given input. -/
def step (e : Nat × ι) (p : Pool σ τ) : Option (Pool σ τ) :=
  match p.threads[e.1]? with
  | none => none
  | some t => (act e.1 e.2 p.shared t).map fun r => ⟨r.1, p.threads.set e.1 r.2⟩

variable {act}

/-- A step of a pool is a step of one thread, and leaves the others alone. -/
theorem step_eq_some_iff (e : Nat × ι) (p p' : Pool σ τ) :
    step act e p = some p' ↔ ∃ t s' t', p.threads[e.1]? = some t ∧
      act e.1 e.2 p.shared t = some (s', t') ∧ p' = ⟨s', p.threads.set e.1 t'⟩ := by
  unfold step
  cases ht : p.threads[e.1]? with
  | none =>
      constructor
      · intro h
        exact absurd h (by simp only [reduceCtorEq, not_false_eq_true])
      · rintro ⟨t, _, _, h, _⟩
        exact absurd h (by simp only [reduceCtorEq, not_false_eq_true])
  | some t =>
      dsimp only
      rw [Option.map_eq_some_iff]
      constructor
      · rintro ⟨r, hr, he⟩
        exact ⟨t, r.1, r.2, rfl, hr, he.symm⟩
      · rintro ⟨u, s', t', hu, hact, he⟩
        rw [Option.some.injEq] at hu
        rw [← hu] at hact
        exact ⟨(s', t'), hact, he.symm⟩

/-- A pool keeps its threads. -/
theorem length_step (e : Nat × ι) (p p' : Pool σ τ) (h : step act e p = some p') :
    p'.threads.length = p.threads.length := by
  rcases (step_eq_some_iff e p p').mp h with ⟨t, s', t', _, _, rfl⟩
  exact List.length_set

/-- The rule for a pool. `Shared` is about the shared state, `Own` is each
    thread's assertion. A step keeps the first, establishes the second for the
    thread that takes it and does not spoil it for another one. -/
theorem invariant {ok : Pool σ τ → Nat × ι → Prop} (Shared : σ → Prop) (Own : Nat → σ → τ → Prop)
    (hown : ∀ p i a t s' t', ok p (i, a) → Shared p.shared → p.threads[i]? = some t →
      Own i p.shared t → act i a p.shared t = some (s', t') →
      (∀ j u, p.threads[j]? = some u → Own j p.shared u) → Shared s' ∧ Own i s' t')
    (hother : ∀ p i a t s' t' j u, ok p (i, a) → Shared p.shared → p.threads[i]? = some t →
      Own i p.shared t → act i a p.shared t = some (s', t') →
      j ≠ i → p.threads[j]? = some u → Own j p.shared u → Own j s' u)
    (es : List (Nat × ι)) (p q : Pool σ τ)
    (hp : Shared p.shared ∧ ∀ i t, p.threads[i]? = some t → Own i p.shared t)
    (hok : Machine.Along (step act) ok es p) (hrun : Machine.run (step act) es p = some q) :
    Shared q.shared ∧ ∀ i t, q.threads[i]? = some t → Own i q.shared t := by
  refine Machine.run_invariant
    (fun p => Shared p.shared ∧ ∀ i t, p.threads[i]? = some t → Own i p.shared t)
    ?_ es p q hp hok hrun
  rintro p ⟨i, a⟩ p' ⟨hshared, howns⟩ hstepOk hstep
  rcases (step_eq_some_iff (i, a) p p').mp hstep with ⟨t, s', t', ht, hact, rfl⟩
  have hnew := hown p i a t s' t' hstepOk hshared ht (howns i t ht) hact howns
  -- the thread that moved, and those that must not notice
  exact ⟨hnew.1, Machine.forall_set hnew.2 fun j u hne hu =>
    hother p i a t s' t' j u hstepOk hshared ht (howns i t ht) hact hne hu (howns j u hu)⟩

/-- A pool keeps its threads over a whole run. -/
theorem run_length (es : List (Nat × ι)) (p q : Pool σ τ)
    (hrun : Machine.run (step act) es p = some q) : q.threads.length = p.threads.length := by
  induction es generalizing p with
  | nil =>
      rw [Machine.run, Option.some.injEq] at hrun
      rw [hrun]
  | cons e es ih =>
      rcases (Machine.run_cons_eq_some_iff e es p q).mp hrun with ⟨p', hp', hq⟩
      rw [ih p' hq, length_step e p p' hp']

end Pool

end Machine
