import Mathlib.Data.List.Induction
import PrivacyClaw.Core.Models
import PrivacyClaw.Lib.Machine

/-!
# Interleavings of Downloads

Dashboard requests and download tasks, in any order of their steps.

A request to start a download is answered in two steps: it looks whether the
model is being downloaded, and then registers the download and starts its
task. The tracker's lock is taken for each of them but not in between. A task
ends by itself or sees its sender dropped, and in both cases removes the
registration of its model's id, whoever's it is.

Either of these can hit another download. A second request that has passed the
look replaces the sender of the first. A task whose download was cancelled
removes the registration of the download that was started after it. Where
neither happens (`DownloadsSeparate`), no download is aborted without a request to
cancel it, and the tracker answers for the downloads there are
(`downloads_undisturbed`).

A task keeps a record of whether its cancellation was requested after it was
registered, which no step looks at.

## Main definitions

* `Phase`, `Task`, `Dashboard`: The state.
* `DashboardEvent`, `Dashboard.step`: The steps.
* `DownloadsSeparate`: The condition on the steps.
* `Dashboard.Agrees`, `Dashboard.CancelledSince`: What the tracker should be, and
  what an aborted download should have met.
* `Dashboard.Inv`: The invariant.

## Theorems

* `Dashboard.Inv.step`: Every conforming step keeps the invariant.
* `downloads_undisturbed`: The tracker and the downloads along a run.
* `downloads_undisturbed_restart`: A run with a cancellation and a restart.
* `downloads_disturbed`: A run that does not conform.
-/

namespace PrivacyClaw

/-- Where a download's task stands: its transfer runs, `select!` has answered,
    the registration is removed, the files are cleaned up. -/
inductive Phase where
  | running
  | resolved
  | completed
  | cleaned
  deriving DecidableEq

/-- A registered download and its task. -/
structure Task where
  id : Str
  phase : Phase
  aborted : Bool
  cancelRequested : Bool
  deriving DecidableEq

/-- The download has not finished: its task has not removed the
    registration. -/
def Task.unfinished (t : Task) : Bool := t.phase = .running ∨ t.phase = .resolved

/-- The tracker, the downloads in the order of their registration, and the
    requests between the look and the registration. -/
structure Dashboard where
  tracker : DownloadTracker
  tasks : List Task
  accepted : List Str

/-- A step of a request or a task. A task is known by its number, and so is an
    accepted request; whether the model is downloaded is up to the disk. -/
inductive DashboardEvent where
  | post (id : Str) (downloaded : Bool)
  | start (k : Nat)
  | delete (id : Str)
  | observeCancel (n : Nat)
  | transferEnds (n : Nat)
  | complete (n : Nat)
  | cleanUp (n : Nat)

namespace Dashboard

/-- No downloads. -/
def new : Dashboard := ⟨.new, [], []⟩

/-- A task with the given number, if it is in the given phase. -/
def taskIn (s : Dashboard) (n : Nat) (phase : Phase) : Option Task :=
  (s.tasks[n]?).filter fun t => t.phase = phase

/-- The state after a step; `none` where it cannot be taken. -/
def step : DashboardEvent → Dashboard → Option Dashboard
  | .post id downloaded, s =>
    -- answered with 409 where it is downloaded or being downloaded
    if downloaded || s.tracker.isDownloading id then some s
    else some { s with accepted := s.accepted ++ [id] }
  | .start k, s => (s.accepted[k]?).map fun id =>
    { tracker := s.tracker.register id s.tasks.length
      tasks := s.tasks ++ [⟨id, .running, false, false⟩]
      accepted := s.accepted.eraseIdx k }
  | .delete id, s => some { s with
      tracker := s.tracker.cancel id
      tasks := s.tasks.map fun t => { t with cancelRequested := t.cancelRequested || t.id == id } }
  | .observeCancel n, s =>
    -- the receiver resolves once its sender is gone
    ((s.taskIn n .running).filter fun t => s.tracker.inner.lookup t.id ≠ some n).map fun t =>
      { s with tasks := s.tasks.set n { t with phase := .resolved, aborted := true } }
  | .transferEnds n, s => (s.taskIn n .running).map fun t =>
      { s with tasks := s.tasks.set n { t with phase := .resolved } }
  | .complete n, s => (s.taskIn n .resolved).map fun t =>
      { s with
        tracker := s.tracker.complete t.id
        tasks := s.tasks.set n { t with phase := .completed } }
  | .cleanUp n, s => (s.taskIn n .completed).map fun t =>
      { s with tasks := s.tasks.set n { t with phase := .cleaned } }

/-- What the tracker should be: a download is only aborted on request, and one
    is being downloaded exactly while a download that was not cancelled has not
    finished. -/
def Agrees (s : Dashboard) : Prop :=
  (∀ t ∈ s.tasks, t.aborted = true → t.cancelRequested = true) ∧
  ∀ id, s.tracker.isDownloading id = true ↔
    ∃ t ∈ s.tasks, t.id = id ∧ t.cancelRequested = false ∧ t.unfinished = true

/-- A request to cancel the id is among the steps, made when the download with
    the number was registered already. -/
def CancelledSince (es : List DashboardEvent) (n : Nat) (id : Str) : Prop :=
  ∃ before after s₀, es = before ++ .delete id :: after ∧
    Machine.run step before new = some s₀ ∧ n < s₀.tasks.length

end Dashboard

/-- No download is disturbed by another one: a registration replaces no other,
    and a task that completes finds its own registration or none. -/
def DownloadsSeparate (s : Dashboard) : DashboardEvent → Prop
  | .start k => ∀ id ∈ s.accepted[k]?, s.tracker.isDownloading id = false
  | .complete n => ∀ t ∈ s.tasks[n]?,
      s.tracker.inner.lookup t.id = none ∨ s.tracker.inner.lookup t.id = some n
  | _ => True

instance (s : Dashboard) : ∀ e, Decidable (DownloadsSeparate s e)
  | .start k => inferInstanceAs (Decidable (∀ id ∈ s.accepted[k]?, _))
  | .complete n => inferInstanceAs (Decidable (∀ t ∈ s.tasks[n]?, _ ∨ _))
  | .post _ _ | .delete _ | .observeCancel _ | .transferEnds _ | .cleanUp _ => isTrue trivial

namespace Dashboard

/-- The invariant: the sender registered under an id is that of the one
    download of the id that is neither cancelled nor finished. -/
structure Inv (s : Dashboard) : Prop where
  aborted : ∀ (n : Nat) (t : Task), s.tasks[n]? = some t → t.aborted = true → t.cancelRequested = true
  registered : ∀ id n, s.tracker.inner.lookup id = some n ↔
    ∃ t, s.tasks[n]? = some t ∧ t.id = id ∧ t.cancelRequested = false ∧ t.unfinished = true

theorem taskIn_eq_some_iff (s : Dashboard) (n : Nat) (phase : Phase) (t : Task) :
    s.taskIn n phase = some t ↔ s.tasks[n]? = some t ∧ t.phase = phase := by
  rw [taskIn, Option.filter_eq_some_iff, decide_eq_true_eq]

theorem isDownloading_iff (s : Dashboard) (id : Str) :
    s.tracker.isDownloading id = true ↔ ∃ n, s.tracker.inner.lookup id = some n := by
  rw [DownloadTracker.isDownloading, decide_eq_true_eq, ← AList.lookup_isSome,
    Option.isSome_iff_exists]

/-- The invariant says what the tracker is. -/
theorem Inv.agrees {s : Dashboard} (h : s.Inv) : s.Agrees := by
  constructor
  · intro t ht
    rcases List.mem_iff_getElem?.mp ht with ⟨n, hn⟩
    exact h.aborted n t hn
  · intro id
    rw [isDownloading_iff]
    constructor
    · rintro ⟨n, hn⟩
      rcases (h.registered id n).mp hn with ⟨t, ht, hcase⟩
      exact ⟨t, List.mem_of_getElem? ht, hcase⟩
    · rintro ⟨t, ht, hcase⟩
      rcases List.mem_iff_getElem?.mp ht with ⟨n, hn⟩
      exact ⟨n, (h.registered id n).mpr ⟨t, hn, hcase⟩⟩

theorem Inv.new : new.Inv := by
  refine ⟨fun n t ht => ?_, fun id n => ?_⟩
  · exact absurd ht (by simp only [Dashboard.new, List.getElem?_nil, reduceCtorEq,
      not_false_eq_true])
  · simp only [Dashboard.new, DownloadTracker.new, AList.lookup_empty, List.getElem?_nil,
      reduceCtorEq, false_and, exists_false]

/-- A task that moves on without finishing, or after it has finished. -/
theorem Inv.setTask {s : Dashboard} (h : s.Inv) (n : Nat) (t t' : Task)
    (ht : s.tasks[n]? = some t) (hid : t'.id = t.id)
    (hcancel : t'.cancelRequested = t.cancelRequested)
    (hunfinished : t'.unfinished = t.unfinished)
    (haborted : t'.aborted = true → t'.cancelRequested = true) :
    Inv { s with tasks := s.tasks.set n t' } := by
  constructor
  · exact Machine.forall_set haborted fun m u _ => h.aborted m u
  · intro id m
    rw [show ({ s with tasks := s.tasks.set n t' } : Dashboard).tracker = s.tracker from rfl,
      h.registered id m]
    change _ ↔ ∃ u, (s.tasks.set n t')[m]? = some u ∧ _
    by_cases hnm : n = m
    · subst hnm
      have hlt : n < s.tasks.length := (List.getElem?_eq_some_iff.mp ht).1
      rw [List.getElem?_set_self hlt, ht]
      constructor
      · rintro ⟨u, hu, h1, h2, h3⟩
        rw [Option.some.injEq] at hu
        subst hu
        exact ⟨t', rfl, by rw [hid, h1], by rw [hcancel, h2], by rw [hunfinished, h3]⟩
      · rintro ⟨u, hu, h1, h2, h3⟩
        rw [Option.some.injEq] at hu
        subst hu
        exact ⟨t, rfl, by rw [← hid, h1], by rw [← hcancel, h2], by rw [← hunfinished, h3]⟩
    · rw [List.getElem?_set_ne hnm]

/-- A registration under an id that has none. -/
theorem Inv.start {s : Dashboard} (h : s.Inv) (k : Nat) (id : Str)
    (hfree : s.tracker.isDownloading id = false) :
    Inv { tracker := s.tracker.register id s.tasks.length
          tasks := s.tasks ++ [⟨id, .running, false, false⟩]
          accepted := s.accepted.eraseIdx k } := by
  have hnone : s.tracker.inner.lookup id = none := by
    rw [DownloadTracker.isDownloading, decide_eq_false_iff_not] at hfree
    exact AList.lookup_eq_none.mpr hfree
  -- the new task is the last one
  have hget : ∀ m u, (s.tasks ++ [⟨id, .running, false, false⟩])[m]? = some u ↔
      s.tasks[m]? = some u ∨ (m = s.tasks.length ∧ u = ⟨id, .running, false, false⟩) := by
    intro m u
    rcases Nat.lt_trichotomy m s.tasks.length with hm | rfl | hm
    · rw [List.getElem?_append_left hm]
      refine ⟨Or.inl, ?_⟩
      rintro (hu | ⟨he, _⟩)
      · exact hu
      · omega
    · rw [List.getElem?_append_right (Nat.le_refl _), Nat.sub_self, List.getElem?_cons_zero,
        List.getElem?_eq_none (Nat.le_refl _), Option.some.injEq]
      simp only [reduceCtorEq, false_or, true_and, eq_comm]
    · rw [List.getElem?_eq_none (by rw [List.length_append, List.length_singleton]; omega),
        List.getElem?_eq_none (by omega)]
      simp only [reduceCtorEq, false_or, false_iff, not_and]
      intro he
      omega
  constructor
  · intro m u hu
    rcases (hget m u).mp hu with hu | ⟨_, rfl⟩
    · exact h.aborted m u hu
    · intro ha
      exact absurd ha (by simp only [Bool.false_eq_true, not_false_eq_true])
  · intro id' m
    simp only [hget, DownloadTracker.register]
    by_cases hid : id' = id
    · subst hid
      rw [AList.lookup_insert, Option.some.injEq]
      constructor
      · rintro rfl
        exact ⟨_, Or.inr ⟨rfl, rfl⟩, rfl, rfl, rfl⟩
      · rintro ⟨u, hu | ⟨he, _⟩, hcase⟩
        · -- an older one would have been registered
          rw [(h.registered id' m).mpr ⟨u, hu, hcase⟩] at hnone
          exact absurd hnone (by simp only [reduceCtorEq, not_false_eq_true])
        · exact he.symm
    · rw [AList.lookup_insert_ne hid, h.registered id' m]
      constructor
      · rintro ⟨u, hu, hcase⟩
        exact ⟨u, Or.inl hu, hcase⟩
      · rintro ⟨u, hu | ⟨_, rfl⟩, hcase⟩
        · exact ⟨u, hu, hcase⟩
        · exact absurd hcase.1.symm hid

/-- A cancellation reaches every download of its id. -/
theorem Inv.delete {s : Dashboard} (h : s.Inv) (id : Str) :
    Inv { s with
      tracker := s.tracker.cancel id
      tasks := s.tasks.map fun t =>
        { t with cancelRequested := t.cancelRequested || t.id == id } } := by
  constructor
  · intro m u hu ha
    rw [List.getElem?_map, Option.map_eq_some_iff] at hu
    rcases hu with ⟨t, ht, rfl⟩
    change (t.cancelRequested || t.id == id) = true
    rw [h.aborted m t ht ha, Bool.true_or]
  · intro id' m
    simp only [DownloadTracker.cancel, List.getElem?_map, Option.map_eq_some_iff,
      exists_exists_and_eq_and]
    by_cases hid : id' = id
    · subst hid
      rw [AList.lookup_erase]
      simp only [reduceCtorEq, false_iff, not_exists, not_and]
      intro t _ he
      rw [he, beq_self_eq_true, Bool.or_true]
      intro hc
      exact absurd hc (by simp only [Bool.true_eq_false, not_false_eq_true])
    · rw [AList.lookup_erase_ne hid, h.registered id' m]
      refine exists_congr fun t => and_congr_right fun _ => and_congr_right fun he => ?_
      have hne : (t.id == id) = false := beq_eq_false_iff_ne.mpr (by rw [he]; exact hid)
      change _ ↔ (t.cancelRequested || t.id == id) = false ∧ t.unfinished = true
      rw [hne, Bool.or_false]

/-- A task that completes and finds its own registration or none. -/
theorem Inv.complete {s : Dashboard} (h : s.Inv) (n : Nat) (t : Task)
    (ht : s.tasks[n]? = some t)
    (hown : s.tracker.inner.lookup t.id = none ∨ s.tracker.inner.lookup t.id = some n) :
    Inv { s with
      tracker := s.tracker.complete t.id
      tasks := s.tasks.set n { t with phase := .completed } } := by
  constructor
  · exact Machine.forall_set (h.aborted n t ht) fun m u _ => h.aborted m u
  · intro id m
    simp only [DownloadTracker.complete]
    by_cases hid : id = t.id
    · subst hid
      rw [AList.lookup_erase]
      simp only [reduceCtorEq, false_iff, not_exists, not_and]
      intro u hu he hc hunf
      rcases Machine.getElem?_set_cases s.tasks n m _ u hu with ⟨_, rfl⟩ | ⟨hne, hu⟩
      · exact absurd hunf (by simp only [Task.unfinished, reduceCtorEq, or_self, decide_false,
          Bool.false_eq_true, not_false_eq_true])
      · -- another one that is not finished would be the registered one
        have hreg := (h.registered t.id m).mpr ⟨u, hu, he, hc, hunf⟩
        rcases hown with hnone | hsome
        · rw [hreg] at hnone
          exact absurd hnone (by simp only [reduceCtorEq, not_false_eq_true])
        · rw [hreg, Option.some.injEq] at hsome
          exact hne hsome
    · rw [AList.lookup_erase_ne hid, h.registered id m]
      refine exists_congr fun u => ?_
      by_cases hnm : n = m
      · -- the task that completes has another id
        subst hnm
        rw [List.getElem?_set_self (List.getElem?_eq_some_iff.mp ht).1, ht]
        constructor
        · rintro ⟨hu, he, _⟩
          rw [Option.some.injEq] at hu
          rw [← hu] at he
          exact absurd he.symm hid
        · rintro ⟨hu, he, _⟩
          rw [Option.some.injEq] at hu
          rw [← hu] at he
          exact absurd he.symm hid
      · rw [List.getElem?_set_ne hnm]

/-- Every conforming step keeps the invariant. -/
theorem Inv.step (s : Dashboard) (e : DashboardEvent) (s' : Dashboard) (h : s.Inv)
    (hok : DownloadsSeparate s e) (hstep : Dashboard.step e s = some s') : s'.Inv := by
  cases e with
  | post id downloaded =>
      simp only [Dashboard.step] at hstep
      by_cases hrefused : (downloaded || s.tracker.isDownloading id) = true
      · rw [if_pos hrefused, Option.some.injEq] at hstep
        rw [← hstep]
        exact h
      · rw [if_neg hrefused, Option.some.injEq] at hstep
        rw [← hstep]
        exact ⟨h.aborted, h.registered⟩
  | start k =>
      rcases Option.map_eq_some_iff.mp hstep with ⟨id, hid, rfl⟩
      exact h.start k id (hok id hid)
  | delete id =>
      rw [Dashboard.step, Option.some.injEq] at hstep
      rw [← hstep]
      exact h.delete id
  | observeCancel n =>
      rcases Option.map_eq_some_iff.mp hstep with ⟨t, ht, rfl⟩
      rcases Option.filter_eq_some_iff.mp ht with ⟨ht, hgone⟩
      rcases (taskIn_eq_some_iff s n .running t).mp ht with ⟨ht, hphase⟩
      have hunf : t.unfinished = true := by
        simp only [Task.unfinished, hphase, true_or, decide_true]
      refine h.setTask n t _ ht rfl rfl ?_ fun _ => ?_
      · rw [hunf]
        rfl
      · -- its sender is gone although it has not finished
        rw [decide_eq_true_eq] at hgone
        by_contra hc
        rw [Bool.not_eq_true] at hc
        exact hgone ((h.registered t.id n).mpr ⟨t, ht, rfl, hc, hunf⟩)
  | transferEnds n =>
      rcases Option.map_eq_some_iff.mp hstep with ⟨t, ht, rfl⟩
      rcases (taskIn_eq_some_iff s n .running t).mp ht with ⟨ht, hphase⟩
      refine h.setTask n t _ ht rfl rfl ?_ (h.aborted n t ht)
      simp only [Task.unfinished, hphase, reduceCtorEq, or_true, or_false]
  | complete n =>
      rcases Option.map_eq_some_iff.mp hstep with ⟨t, ht, rfl⟩
      rcases (taskIn_eq_some_iff s n .resolved t).mp ht with ⟨ht, _⟩
      exact h.complete n t ht (hok t ht)
  | cleanUp n =>
      rcases Option.map_eq_some_iff.mp hstep with ⟨t, ht, rfl⟩
      rcases (taskIn_eq_some_iff s n .completed t).mp ht with ⟨ht, hphase⟩
      refine h.setTask n t _ ht rfl rfl ?_ (h.aborted n t ht)
      simp only [Task.unfinished, hphase, reduceCtorEq, or_self]

/-- A step never changes the id of a task, and it marks one as cancelled only
    by a request to cancel its id. -/
theorem step_marks (e : DashboardEvent) (s s' : Dashboard) (hstep : Dashboard.step e s = some s')
    (n : Nat) (t' : Task) (ht' : s'.tasks[n]? = some t') (hc : t'.cancelRequested = true) :
    (∃ t, s.tasks[n]? = some t ∧ t.id = t'.id ∧ t.cancelRequested = true) ∨
      (e = .delete t'.id ∧ n < s.tasks.length) := by
  -- the steps of a task: the record is the old one
  have hset : ∀ (m : Nat) (t t'' : Task), s.tasks[m]? = some t → t''.id = t.id →
      t''.cancelRequested = t.cancelRequested → (s.tasks.set m t'')[n]? = some t' →
      ∃ t, s.tasks[n]? = some t ∧ t.id = t'.id ∧ t.cancelRequested = true := by
    intro m t t'' ht hid hcancel hn
    rcases Machine.getElem?_set_cases s.tasks m n t'' t' hn with ⟨rfl, rfl⟩ | ⟨_, hn⟩
    · exact ⟨t, ht, hid.symm, by rw [← hcancel, hc]⟩
    · exact ⟨t', hn, rfl, hc⟩
  cases e with
  | post id downloaded =>
      simp only [Dashboard.step] at hstep
      by_cases hrefused : (downloaded || s.tracker.isDownloading id) = true
      · rw [if_pos hrefused, Option.some.injEq] at hstep
        rw [← hstep] at ht'
        exact Or.inl ⟨t', ht', rfl, hc⟩
      · rw [if_neg hrefused, Option.some.injEq] at hstep
        rw [← hstep] at ht'
        exact Or.inl ⟨t', ht', rfl, hc⟩
  | start k =>
      rcases Option.map_eq_some_iff.mp hstep with ⟨id, _, rfl⟩
      rcases Nat.lt_or_ge n s.tasks.length with hn | hn
      · rw [List.getElem?_append_left hn] at ht'
        exact Or.inl ⟨t', ht', rfl, hc⟩
      · -- the new task is not marked
        rw [List.getElem?_append_right hn] at ht'
        rw [List.mem_singleton.mp (List.mem_of_getElem? ht')] at hc
        exact absurd hc (by simp only [Bool.false_eq_true, not_false_eq_true])
  | delete id =>
      rw [Dashboard.step, Option.some.injEq] at hstep
      rw [← hstep, List.getElem?_map, Option.map_eq_some_iff] at ht'
      rcases ht' with ⟨t, ht, rfl⟩
      rcases Bool.or_eq_true_iff.mp hc with hold | hnow
      · exact Or.inl ⟨t, ht, rfl, hold⟩
      · refine Or.inr ⟨?_, (List.getElem?_eq_some_iff.mp ht).1⟩
        rw [eq_of_beq hnow]
  | observeCancel m =>
      rcases Option.map_eq_some_iff.mp hstep with ⟨t, ht, rfl⟩
      have ht := ((taskIn_eq_some_iff s m .running t).mp (Option.filter_eq_some_iff.mp ht).1).1
      refine Or.inl (hset m t _ ht ?_ ?_ ht') <;> rfl
  | transferEnds m =>
      rcases Option.map_eq_some_iff.mp hstep with ⟨t, ht, rfl⟩
      refine Or.inl (hset m t _ ((taskIn_eq_some_iff s m .running t).mp ht).1 ?_ ?_ ht') <;> rfl
  | complete m =>
      rcases Option.map_eq_some_iff.mp hstep with ⟨t, ht, rfl⟩
      refine Or.inl (hset m t _ ((taskIn_eq_some_iff s m .resolved t).mp ht).1 ?_ ?_ ht') <;> rfl
  | cleanUp m =>
      rcases Option.map_eq_some_iff.mp hstep with ⟨t, ht, rfl⟩
      refine Or.inl (hset m t _ ((taskIn_eq_some_iff s m .completed t).mp ht).1 ?_ ?_ ht') <;> rfl

/-- What the record says: a task is marked as cancelled by a request to cancel
    its id that was made after it was registered. -/
theorem cancelRequested_delete (es : List DashboardEvent) : ∀ s,
    Machine.run Dashboard.step es Dashboard.new = some s → ∀ n t, s.tasks[n]? = some t →
      t.cancelRequested = true → CancelledSince es n t.id := by
  induction es using List.reverseRecOn with
  | nil =>
      intro s hrun n t ht _
      rw [Machine.run, Option.some.injEq] at hrun
      rw [← hrun] at ht
      exact absurd ht (by simp only [Dashboard.new, List.getElem?_nil, reduceCtorEq,
        not_false_eq_true])
  | append_singleton es e ih =>
      intro s hrun n t ht hc
      rw [Machine.run_append, Option.bind_eq_some_iff] at hrun
      rcases hrun with ⟨s₁, hrun₁, hlast⟩
      rcases (Machine.run_cons_eq_some_iff e [] s₁ s).mp hlast with ⟨s₂, hs₂, he⟩
      rw [Machine.run, Option.some.injEq] at he
      subst he
      rcases step_marks e s₁ s₂ hs₂ n t ht hc with ⟨t₁, ht₁, hid, hc₁⟩ | ⟨rfl, hn⟩
      · rcases ih s₁ hrun₁ n t₁ ht₁ hc₁ with ⟨before, after, s₀, rfl, hrun₀, hn⟩
        exact ⟨before, after ++ [e], s₀, by rw [hid, List.append_assoc, List.cons_append],
          hrun₀, hn⟩
      · exact ⟨es, [], s₁, rfl, hrun₁, hn⟩

end Dashboard

/-- In every state of a run whose steps are undisturbed, no download was
    aborted without a request to cancel it made after it was registered, and
    the tracker says of an id that it is being downloaded exactly while some
    download of it is registered, not cancelled and not finished. -/
theorem downloads_undisturbed (es : List DashboardEvent) (s : Dashboard)
    (hok : Machine.Along Dashboard.step DownloadsSeparate es Dashboard.new)
    (hrun : Machine.run Dashboard.step es Dashboard.new = some s) :
    s.Agrees ∧ ∀ n t, s.tasks[n]? = some t → t.aborted = true →
      Dashboard.CancelledSince es n t.id := by
  have hinv := Machine.run_invariant Dashboard.Inv Dashboard.Inv.step es Dashboard.new s
    Dashboard.Inv.new hok hrun
  exact ⟨hinv.agrees, fun n t ht haborted =>
    Dashboard.cancelRequested_delete es s hrun n t ht (hinv.aborted n t ht haborted)⟩

/-- A download that is cancelled, its task gone before the next one starts. -/
def restarted : List DashboardEvent :=
  [.post (lit "m") false, .start 0, .delete (lit "m"), .observeCancel 0, .complete 0,
    .post (lit "m") false, .start 0, .cleanUp 0]

/-- The first download was aborted, the second is being downloaded. -/
theorem downloads_undisturbed_restart : ∃ s,
    Machine.run Dashboard.step restarted Dashboard.new = some s ∧
      s.tracker.isDownloading (lit "m") = true ∧ s.Agrees := by
  have hrun : ((Machine.run Dashboard.step restarted Dashboard.new).map fun s =>
      s.tracker.isDownloading (lit "m")) = some true := by decide
  rcases Option.map_eq_some_iff.mp hrun with ⟨s, hs, hm⟩
  exact ⟨s, hs, hm, (downloads_undisturbed restarted s (by decide) hs).1⟩

/-- The same with the task of the cancelled download completing late: it takes
    the registration of the second download with it, which is then aborted. -/
theorem downloads_disturbed : ∃ s,
    Machine.run Dashboard.step [.post (lit "m") false, .start 0, .delete (lit "m"),
      .observeCancel 0, .post (lit "m") false, .start 0, .complete 0, .observeCancel 1]
      Dashboard.new = some s ∧ ¬ s.Agrees := by
  refine ⟨_, rfl, fun h => ?_⟩
  exact absurd (h.1 ⟨lit "m", .resolved, true, false⟩ (by decide) rfl)
    (by simp only [Bool.false_eq_true, not_false_eq_true])

end PrivacyClaw
