import PrivacyClaw.Core.Store
import PrivacyClaw.Lib.Machine

/-!
# The Path Cache over a Run

Whether the path of a conversation leads to a file, after any operations of
the store and over any change of days.

The cache is filled when a conversation is inserted and when the directory was
searched, in both cases with a file that is there. Every other operation
leaves files where they are, but `rotate_old` deletes those of earlier days
and does not look at the cache. So the cache is right exactly as long as no
cached file is deleted (`cache_fresh_iff`), which the daily rotation does to
every conversation of the day before.

## Main definitions

* `WriteOp`, `StoreOp`: The operations, as data.
* `CacheFresh`: Every path the store finds leads to a file.
* `KeepsCached`: A rotation deletes no file that is cached.

## Theorems

* `cacheFresh_iff`: It is enough to look at the cache.
* `Grows`: What every operation but the rotation does.
* `mem_rotateOld`: What the rotation leaves.
* `cache_fresh_iff`: When the cache is right over a run.
* `cache_stale_overnight`: A rotation on the next day.
-/

namespace PrivacyClaw

namespace Storage

/-- An operation that writes. -/
inductive WriteOp where
  | insertConversation (now : Now) (conv : Conversation)
  | batchInsertMessages (messages : List Message)
  | insertDetections (convId : Str) (detections : List MessageDetection)
  | saveVault (convId : Str) (rngSeed : UInt64) (records : List VaultRecord)

/-- An operation of the store. -/
inductive StoreOp where
  | write (op : WriteOp)
  | getMessages (convId : Str)
  | loadDetections (convId : Str) (messageId : Option Str)
  | loadVault (convId : Str)
  | countRequestMessages (convId : Str)
  | getConversationById (convId : Str)
  | findConversationByFingerprint (now : Now) (provider fingerprint : Str)
  | listConversations (limit : Nat)
  | exportAll
  | rotateOld (now : Now)

section PathCache

variable (J : StoreJson) (D : ReadDir)

/-- The store after a write, whether it failed or not. -/
def WriteOp.apply : WriteOp → LogStore → LogStore
  | .insertConversation now conv, st => st.insertConversation now conv
  | .batchInsertMessages messages, st => (st.batchInsertMessages D messages).2
  | .insertDetections c ds, st => (st.insertDetections J D c ds).2
  | .saveVault c seed records, st => (st.saveVault J D c seed records).2

/-- The store after an operation; the last three reads do not change it. -/
def StoreOp.apply : StoreOp → LogStore → LogStore
  | .write op, st => op.apply J D st
  | .getMessages c, st => (st.getMessages J D c).2
  | .loadDetections c mid, st => (st.loadDetections J D c mid).2
  | .loadVault c, st => (st.loadVault J D c).2
  | .countRequestMessages c, st => (st.countRequestMessages J D c).2
  | .getConversationById c, st => (st.getConversationById J D c).2
  | .findConversationByFingerprint .., st | .listConversations _, st | .exportAll, st => st
  | .rotateOld now, st => (st.rotateOld D now).2

/-- The operations, as steps. -/
def storeStep (op : StoreOp) (st : LogStore) : Option LogStore := some (op.apply J D st)

/-- Whenever `conv_file_path` returns a path, there is a file at it. -/
def CacheFresh (st : LogStore) : Prop :=
  ∀ convId path, (st.convFilePath D convId).1 = some path → path ∈ st.files

/-- A rotation deletes no file whose path is cached. -/
def KeepsCached (st : LogStore) : StoreOp → Prop
  | .rotateOld now => ∀ convId path, st.pathCache.lookup convId = some path →
      LogStore.isOld now path = false
  | _ => True

/-- What looking a path up does: the answer was cached, or it is a file that was
    found and is cached now, or there is none. -/
theorem convFilePath_cases (st : LogStore) (convId : Str) :
    (∃ path, st.pathCache.lookup convId = some path ∧
      st.convFilePath D convId = (some path, st)) ∨
    (∃ path, path ∈ st.files ∧ (fileSuffix convId).isSuffixOf path = true ∧
      st.pathCache.lookup convId = none ∧ st.convFilePath D convId =
        (some path, { st with pathCache := st.pathCache.insert convId path })) ∨
    ((∀ path ∈ st.files, (fileSuffix convId).isSuffixOf path = false) ∧
      st.pathCache.lookup convId = none ∧ st.convFilePath D convId = (none, st)) := by
  unfold LogStore.convFilePath
  cases hc : st.pathCache.lookup convId with
  | some path => exact Or.inl ⟨path, rfl, rfl⟩
  | none =>
      dsimp only
      cases hf : (D.entries st.files).find? (fileSuffix convId).isSuffixOf with
      | some path =>
          have hmem := (D.perm st.files).mem_iff.mp (List.mem_of_find?_eq_some hf)
          exact Or.inr (Or.inl ⟨path, AList.mem_keys.mpr hmem, List.find?_some hf, rfl, rfl⟩)
      | none =>
          refine Or.inr (Or.inr ⟨fun path hpath => ?_, rfl, rfl⟩)
          have hmem := (D.perm st.files).mem_iff.mpr (AList.mem_keys.mp hpath)
          have hnot := List.find?_eq_none.mp hf path hmem
          rw [Bool.not_eq_true] at hnot
          exact hnot

/-- It is enough to look at the cache: what is found in the directory is
    there. -/
theorem cacheFresh_iff (st : LogStore) :
    CacheFresh D st ↔
      ∀ convId path, st.pathCache.lookup convId = some path → path ∈ st.files := by
  constructor
  · intro h convId path hc
    refine h convId path ?_
    rw [LogStore.convFilePath, hc]
  · intro h convId path hpath
    rcases convFilePath_cases D st convId with
      ⟨p, hc, he⟩ | ⟨p, hp, _, _, he⟩ | ⟨_, _, he⟩
    · rw [he, Option.some.injEq] at hpath
      exact h convId path (hpath ▸ hc)
    · rw [he, Option.some.injEq] at hpath
      exact hpath ▸ hp
    · rw [he] at hpath
      exact absurd hpath (by simp only [reduceCtorEq, not_false_eq_true])

/-- What every operation but the rotation does: no file goes, and what is new
    in the cache is a file. -/
structure Grows (st st' : LogStore) : Prop where
  files : ∀ name ∈ st.files, name ∈ st'.files
  cache : ∀ convId path, st'.pathCache.lookup convId = some path →
    st.pathCache.lookup convId = some path ∨ path ∈ st'.files

namespace Grows

theorem refl (st : LogStore) : Grows st st := ⟨fun _ h => h, fun _ _ h => Or.inl h⟩

theorem trans {st₁ st₂ st₃ : LogStore} (h₁ : Grows st₁ st₂) (h₂ : Grows st₂ st₃) :
    Grows st₁ st₃ := by
  refine ⟨fun name h => h₂.files name (h₁.files name h), fun convId path h => ?_⟩
  rcases h₂.cache convId path h with h | h
  · rcases h₁.cache convId path h with h | h
    · exact Or.inl h
    · exact Or.inr (h₂.files path h)
  · exact Or.inr h

theorem convFilePath (st : LogStore) (convId : Str) : Grows st (st.convFilePath D convId).2 := by
  rcases convFilePath_cases D st convId with ⟨p, _, he⟩ | ⟨p, hp, _, _, he⟩ | ⟨_, _, he⟩
  · rw [he]
    exact refl st
  · rw [he]
    refine ⟨fun _ h => h, fun c path h => ?_⟩
    by_cases hc : c = convId
    · rw [hc] at h
      rw [show path = p from (Option.some.inj ((AList.lookup_insert _).symm.trans h)).symm]
      exact Or.inr hp
    · exact Or.inl ((AList.lookup_insert_ne hc).symm.trans h)
  · rw [he]
    exact refl st

/-- A file that is written, new or not. -/
theorem setFile (st : LogStore) (path content : Str) :
    Grows st { st with files := st.files.insert path content } :=
  ⟨fun _ h => (AList.mem_insert _).mpr (Or.inr h), fun _ _ h => Or.inl h⟩

theorem append (st : LogStore) (path buf : Str) : Grows st (st.append path buf).2 := by
  unfold LogStore.append
  split
  · exact refl st
  · exact setFile st path _

theorem readFile {β : Type} (read : Str → β) (missing : β) (convId : Str) (st : LogStore) :
    Grows st (LogStore.readFile D read missing convId st).2 := by
  have h := convFilePath D st convId
  unfold LogStore.readFile
  rcases hc : st.convFilePath D convId with ⟨_ | path, st'⟩
  · rw [hc] at h
    exact h
  · rw [hc] at h
    exact h

theorem insertConversation (now : Now) (conv : Conversation) (st : LogStore) :
    Grows st (st.insertConversation now conv) := by
  refine ⟨fun _ h => (AList.mem_insert _).mpr (Or.inr h), fun c path h => ?_⟩
  by_cases hc : c = conv.id
  · rw [hc] at h
    rw [show path = newConvFilePath now conv.id from
      (Option.some.inj ((AList.lookup_insert _).symm.trans h)).symm]
    exact Or.inr ((AList.mem_insert _).mpr (Or.inl rfl))
  · exact Or.inl ((AList.lookup_insert_ne hc).symm.trans h)

end Grows

/-- A write only adds files. -/
theorem WriteOp.grows (op : WriteOp) (st : LogStore) : Grows st (op.apply J D st) := by
  cases op with
  | insertConversation now conv => exact Grows.insertConversation now conv st
  | batchInsertMessages messages =>
      cases messages with
      | nil => exact Grows.refl st
      | cons m ms =>
          have h := Grows.convFilePath D st m.conversationId
          simp only [WriteOp.apply, LogStore.batchInsertMessages]
          rcases hc : st.convFilePath D m.conversationId with ⟨_ | path, st'⟩
          · rw [hc] at h
            exact h
          · rw [hc] at h
            exact h.trans (Grows.append st' path _)
  | insertDetections c ds =>
      simp only [WriteOp.apply, LogStore.insertDetections]
      split
      · exact Grows.refl st
      · have h := Grows.convFilePath D st c
        rcases hc : st.convFilePath D c with ⟨_ | path, st'⟩
        · rw [hc] at h
          exact h
        · rw [hc] at h
          exact h.trans (Grows.append st' path _)
  | saveVault c seed records =>
      have h := Grows.convFilePath D st c
      simp only [WriteOp.apply, LogStore.saveVault]
      rcases hc : st.convFilePath D c with ⟨_ | path, st'⟩
      · rw [hc] at h
        exact h
      · rw [hc] at h
        dsimp only
        split
        · exact h
        · exact h.trans (Grows.setFile st' path _)

theorem mem_foldl_erase (name : Str) : ∀ (old : List Str) (files : StrMap),
    name ∈ old.foldl (fun files n => files.erase n) files ↔ name ∉ old ∧ name ∈ files := by
  intro old
  induction old with
  | nil => intro files; simp only [List.foldl_nil, List.not_mem_nil, not_false_eq_true, true_and]
  | cons n old ih =>
      intro files
      rw [List.foldl_cons, ih, AList.mem_erase, List.mem_cons, not_or]
      exact ⟨fun ⟨h1, h2, h3⟩ => ⟨⟨h2, h1⟩, h3⟩, fun ⟨⟨h2, h1⟩, h3⟩ => ⟨h1, h2, h3⟩⟩

/-- What the rotation leaves. -/
theorem mem_rotateOld (now : Now) (st : LogStore) (name : Str) :
    name ∈ (st.rotateOld D now).2.files ↔ name ∈ st.files ∧ LogStore.isOld now name = false := by
  rw [LogStore.rotateOld, mem_foldl_erase, List.mem_filter, (D.perm st.files).mem_iff,
    ← AList.mem_keys]
  constructor
  · rintro ⟨hnot, hmem⟩
    refine ⟨hmem, ?_⟩
    rw [← Bool.not_eq_true]
    exact fun hold => hnot ⟨hmem, hold⟩
  · rintro ⟨hmem, hnew⟩
    refine ⟨fun hold => ?_, hmem⟩
    rw [hold.2] at hnew
    exact absurd hnew (by simp only [Bool.true_eq_false, not_false_eq_true])

/-- One operation keeps the cache right exactly if it is not a rotation that
    deletes a cached file. -/
theorem cacheFresh_apply_iff (st : LogStore) (op : StoreOp) (h : CacheFresh D st) :
    CacheFresh D (op.apply J D st) ↔ KeepsCached st op := by
  have hcached := (cacheFresh_iff D st).mp h
  have hgrows : ∀ st', Grows st st' → CacheFresh D st' := by
    intro st' hg
    refine (cacheFresh_iff D st').mpr fun c path hc => ?_
    rcases hg.cache c path hc with hold | hnew
    · exact hg.files path (hcached c path hold)
    · exact hnew
  cases op with
  | write op => exact iff_of_true (hgrows _ (op.grows J D st)) trivial
  | getMessages c => exact iff_of_true (hgrows _ (Grows.readFile D _ _ c st)) trivial
  | loadDetections c mid => exact iff_of_true (hgrows _ (Grows.readFile D _ _ c st)) trivial
  | loadVault c => exact iff_of_true (hgrows _ (Grows.readFile D _ _ c st)) trivial
  | countRequestMessages c => exact iff_of_true (hgrows _ (Grows.readFile D _ _ c st)) trivial
  | getConversationById c =>
      exact iff_of_true (hgrows _ (Grows.readFile D (readConvHeader J) none c st)) trivial
  | findConversationByFingerprint now provider fp => exact iff_of_true h trivial
  | listConversations limit => exact iff_of_true h trivial
  | exportAll => exact iff_of_true h trivial
  | rotateOld now =>
      rw [cacheFresh_iff]
      constructor
      · intro hafter c path hc
        exact ((mem_rotateOld D now st path).mp (hafter c path hc)).2
      · intro hkeep c path hc
        exact (mem_rotateOld D now st path).mpr ⟨hcached c path hc, hkeep c path hc⟩

/-- From a store opened on any directory, whenever `conv_file_path` returns a
    path there is a file at it, exactly if no rotation deletes a file whose path
    is cached. -/
theorem cache_fresh_iff (files : StrMap) (ops : List StoreOp) :
    Machine.Always (storeStep J D) (CacheFresh D) ops ⟨files, ∅⟩ ↔
      Machine.Along (storeStep J D) KeepsCached ops ⟨files, ∅⟩ := by
  refine Machine.always_iff_along (CacheFresh D) (fun op st => ⟨_, rfl⟩) ?_ ops _ ?_
  · intro st op st' h hstep
    rw [← Option.some.inj hstep]
    exact cacheFresh_apply_iff J D st op h
  · refine (cacheFresh_iff D _).mpr fun c path hc => ?_
    exact absurd hc (by simp only [AList.lookup_empty, reduceCtorEq, not_false_eq_true])

end PathCache

/-- A conversation of one day. -/
def mondayConversation : Conversation :=
  ⟨lit "0d9f2d60-5f3a-4c1e-9a43-0c2a54f7e5b1", lit "2026-03-02T23:59:00Z", lit "anthropic",
    some (lit "m"), some (lit "f")⟩

/-- The first of two days. -/
def monday : Now := ⟨lit "2026-03-02", lit "235900", rfl⟩

/-- The second of two days. -/
def tuesday : Now := ⟨lit "2026-03-03", lit "000000", rfl⟩

/-- A rotation on the next day deletes its file, and the cache still leads to
    it. -/
theorem cache_stale_overnight :
    ¬ Machine.Always (storeStep (.ofValues []) .keys) (CacheFresh .keys)
      [.write (.insertConversation monday mondayConversation), .rotateOld tuesday] ⟨∅, ∅⟩ := by
  rintro ⟨_, hall⟩
  rcases hall _ rfl with ⟨_, hall⟩
  exact absurd (hall _ rfl mondayConversation.id (newConvFilePath monday mondayConversation.id)
    (by decide)) (by decide)

end Storage

end PrivacyClaw
