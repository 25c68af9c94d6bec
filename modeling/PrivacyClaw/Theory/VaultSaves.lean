import PrivacyClaw.Core.Calls
import PrivacyClaw.Theory.Records

/-!
# Overlapping Writes to One Log

Any number of vault saves and appends on the file of one conversation, in any
order of their steps.

The write lock makes the locked sections follow one another, and the order in
which they write is recorded. A save decides under the lock whether to replace
a line or to append one. If it saw a vault line before it had the lock it reads
the file again and is right. If it saw none it does not, and it is right as
long as no other save has put one there in between (`NotOvertaken`). Then the
file is what the calls make of it one after the other in the recorded order
(`saves_serialized`), with one vault line, that of the last save, and with
every line that was appended (`saves_kept`).

Without the condition two first saves of a conversation append a vault line
each, and the first one stays the one that is loaded (`saves_overtaken`).

## Main definitions

* `LogCall.records`, `LogCall.effect`, `serial`: The calls one after the other.
* `Moved`: The steps of a call.
* `overtaken`, `NotOvertaken`: No vault line has appeared before a save that saw
  none.
* `KeptLog`: What the file holds in the end.

## Theorems

* `LogCall.act_moved`: What a step does.
* `writeVault_decided`: What a save writes is what it would write alone.
* `saves_serialized`: The file after a run.
* `serial_spec`: The vault and the other records.
* `saves_kept`: Nothing is lost.
* `saves_kept_two`: Two saves and an append.
* `saves_overtaken`: Two first saves.
-/

namespace PrivacyClaw

namespace Storage

namespace LogCall

/-- The vault of a save. -/
def asSave : LogCall → Option (UInt64 × List VaultRecord)
  | .saveVault rngSeed vs => some (rngSeed, vs)
  | _ => none

/-- The records that an append adds. -/
def records : LogCall → List Record
  | .batchInsertMessages messages => messages.map .message
  | .insertDetections detections => detections.map .detection
  | .saveVault _ _ => []

/-- What a call does to the records when it is alone. -/
def effect : LogCall → List Record → List Record
  | .saveVault rngSeed vs, rs => saveRecord (.vault rngSeed vs) rs
  | call, rs => rs ++ call.records

theorem effect_append {call : LogCall} (h : call.asSave = none) (rs : List Record) :
    call.effect rs = rs ++ call.records := by
  cases call with
  | saveVault _ _ => exact absurd h (by simp only [asSave, reduceCtorEq, not_false_eq_true])
  | _ => rfl

end LogCall

theorem appendText_eq (J : StoreJson) (call : LogCall) :
    appendText J call = logText (call.records.map (Record.line J)) := by
  cases call with
  | batchInsertMessages messages =>
      rw [LogCall.records, logText, List.map_map, List.flatMap_map]
      rfl
  | insertDetections detections =>
      rw [LogCall.records, logText, List.map_map, List.flatMap_map]
      rfl
  | saveVault _ _ => rfl

/-- An append of nothing has no records. -/
theorem appendText_eq_nil {J : StoreJson} {call : LogCall} (h : appendText J call = []) :
    call.records = [] := by
  rw [appendText_eq] at h
  cases hr : call.records with
  | nil => rfl
  | cons r rs =>
      rw [hr, List.map_cons, logText_cons] at h
      exact absurd h (by simp only [List.append_eq_nil_iff, reduceCtorEq, and_false,
        not_false_eq_true])

section Steps

variable (J : StoreJson) (i : Nat) (f : SharedLog)

/-- The steps of call `i`. -/
inductive Moved : LogCall → LogState → SharedLog → LogState → Prop where
  | preRead (rngSeed : UInt64) (vs : List VaultRecord) :
      Moved (.saveVault rngSeed vs) .start f (.preRead f.content)
  | nothing (call : LogCall) : call.asSave = none → appendText J call = [] →
      Moved call .start f .returned
  | decide (rngSeed : UInt64) (vs : List VaultRecord) (pre : Str) :
      Moved (.saveVault rngSeed vs) (.locked pre) f
        (.decided (if contains vaultMarker pre then f.content else pre))
  | acquire (call : LogCall) (s : LogState) (pre : Str) : f.lock = none →
      s = .start ∨ s = .preRead pre → Moved call s { f with lock := some i } (.locked pre)
  | save (rngSeed : UInt64) (vs : List VaultRecord) (content : Str) :
      Moved (.saveVault rngSeed vs) (.decided content)
        (f.write i (writeVault f.content content (vaultLine J rngSeed vs ++ lit "\n"))) .written
  | append (call : LogCall) (pre : Str) : call.asSave = none →
      Moved call (.locked pre) (f.write i (f.content ++ appendText J call)) .written
  | unlock (call : LogCall) : Moved call .written { f with lock := none } .returned

variable {J i f}

/-- Taking the lock is possible when nobody has it. -/
theorem acquire_eq_some {f' : SharedLog} (h : f.acquire i = some f') :
    f.lock = none ∧ f' = { f with lock := some i } := by
  unfold SharedLog.acquire at h
  by_cases hlock : f.lock = none
  · rw [if_pos hlock, Option.some.injEq] at h
    exact ⟨hlock, h.symm⟩
  · rw [if_neg hlock] at h
    exact absurd h (by simp only [reduceCtorEq, not_false_eq_true])

/-- What a step does. -/
theorem LogCall.act_moved {call call' : LogCall} {s s' : LogState} {f' : SharedLog}
    (h : LogCall.act J i () f (call, s) = some (f', (call', s'))) :
    call' = call ∧ Moved J i f call s f' s' := by
  -- an append behaves the same whichever records it has
  have happend : ∀ call : LogCall, call.asSave = none →
      (s = .start → (if appendText J call = [] then some (f, (call, LogState.returned))
        else (f.acquire i).map fun f => (f, (call, .locked []))) = some (f', (call', s')) →
        call' = call ∧ Moved J i f call s f' s') := by
    intro call hcall hs h
    by_cases hnil : appendText J call = []
    · rw [if_pos hnil] at h
      simp only [Option.some.injEq, Prod.mk.injEq] at h
      rcases h with ⟨rfl, rfl, rfl⟩
      exact ⟨rfl, hs ▸ .nothing call hcall hnil⟩
    · rw [if_neg hnil, Option.map_eq_some_iff] at h
      rcases h with ⟨f₁, hf₁, he⟩
      simp only [Prod.mk.injEq] at he
      rcases he with ⟨rfl, rfl, rfl⟩
      rcases acquire_eq_some hf₁ with ⟨hlock, rfl⟩
      exact ⟨rfl, .acquire call s [] hlock (Or.inl hs)⟩
  cases call with
  | saveVault seed vs =>
      cases s with
      | start =>
          simp only [act, Option.some.injEq, Prod.mk.injEq] at h
          rcases h with ⟨rfl, rfl, rfl⟩
          exact ⟨rfl, .preRead seed vs⟩
      | preRead pre =>
          simp only [act, Option.map_eq_some_iff, Prod.mk.injEq] at h
          rcases h with ⟨f₁, hf₁, rfl, rfl, rfl⟩
          rcases acquire_eq_some hf₁ with ⟨hlock, rfl⟩
          exact ⟨rfl, .acquire _ _ pre hlock (Or.inr rfl)⟩
      | locked pre =>
          simp only [act, Option.some.injEq, Prod.mk.injEq] at h
          rcases h with ⟨rfl, rfl, rfl⟩
          exact ⟨rfl, .decide seed vs pre⟩
      | decided content =>
          simp only [act, Option.some.injEq, Prod.mk.injEq] at h
          rcases h with ⟨rfl, rfl, rfl⟩
          exact ⟨rfl, .save seed vs content⟩
      | written =>
          simp only [act, Option.some.injEq, Prod.mk.injEq] at h
          rcases h with ⟨rfl, rfl, rfl⟩
          exact ⟨rfl, .unlock _⟩
      | returned => exact absurd h (by simp only [act, reduceCtorEq, not_false_eq_true])
  | _ =>
      cases s with
      | start => exact happend _ rfl rfl h
      | locked pre =>
          simp only [act, Option.some.injEq, Prod.mk.injEq] at h
          rcases h with ⟨rfl, rfl, rfl⟩
          exact ⟨rfl, .append _ pre rfl⟩
      | written =>
          simp only [act, Option.some.injEq, Prod.mk.injEq] at h
          rcases h with ⟨rfl, rfl, rfl⟩
          exact ⟨rfl, .unlock _⟩
      | preRead _ => exact absurd h (by simp only [act, reduceCtorEq, not_false_eq_true])
      | decided _ => exact absurd h (by simp only [act, reduceCtorEq, not_false_eq_true])
      | returned => exact absurd h (by simp only [act, reduceCtorEq, not_false_eq_true])

/-- A text without a vault line has none among its lines. -/
theorem findIdx?_unmarked {s : Str} (h : contains vaultMarker s = false) :
    (lines s).findIdx? (contains vaultMarker) = none := by
  rw [List.findIdx?_eq_none_iff]
  intro l hl
  rw [contains, Option.isSome_eq_false_iff, Option.isNone_iff_eq_none,
    Search.find_eq_none_iff] at h ⊢
  exact fun hin => h (hin.trans (linesFrom_part s [] l hl))

/-- What a save writes is what it would write alone, if it saw no vault line only
    where there is none. -/
theorem writeVault_decided {file pre : Str} (line : Str)
    (h : contains vaultMarker pre = true ∨ contains vaultMarker file = false) :
    writeVault file (if contains vaultMarker pre then file else pre) line =
      replaceVaultLine file line := by
  by_cases hpre : contains vaultMarker pre = true
  · rw [if_pos hpre]
    rfl
  · rw [if_neg hpre]
    have hfile := findIdx?_unmarked (h.resolve_left hpre)
    rw [Bool.not_eq_true] at hpre
    rw [writeVault, replaceVaultLine, findIdx?_unmarked hpre, hfile]

end Steps

section Serial

variable (J : StoreJson) (conv : Conversation) (records₀ : List Record) (calls : List LogCall)

/-- The records after the calls of the given numbers, one after the other. -/
def serial (wrote : List Nat) (rs : List Record) : List Record :=
  wrote.foldl (fun rs i => ((calls[i]?).map fun call => call.effect rs).getD rs) rs

/-- A save that saw no vault line is about to decide, and there is one now. -/
def overtaken (p : Machine.Pool SharedLog (LogCall × LogState)) (e : Nat × Unit) : Bool :=
  match p.threads[e.1]? with
  | some (.saveVault _ _, .locked pre) =>
    !contains vaultMarker pre && contains vaultMarker p.shared.content
  | _ => false

/-- The step is not the one of a save that was overtaken. -/
def NotOvertaken (p : Machine.Pool SharedLog (LogCall × LogState)) (e : Nat × Unit) : Prop :=
  overtaken p e = false

instance (p : Machine.Pool SharedLog (LogCall × LogState)) (e : Nat × Unit) :
    Decidable (NotOvertaken p e) := inferInstanceAs (Decidable (_ = _))

theorem NotOvertaken.decides {p : Machine.Pool SharedLog (LogCall × LogState)} {i : Nat}
    (h : NotOvertaken p (i, ())) {rngSeed : UInt64} {vs : List VaultRecord} {pre : Str}
    (ht : p.threads[i]? = some (.saveVault rngSeed vs, .locked pre)) :
    contains vaultMarker pre = true ∨ contains vaultMarker p.shared.content = false := by
  rw [NotOvertaken, overtaken, ht] at h
  dsimp only at h
  rw [Bool.and_eq_false_iff, Bool.not_eq_false'] at h
  exact h

/-- Where a call stands, what it knows of the lock, the file and its write. -/
def Stage (i : Nat) (f : SharedLog) (call : LogCall) : LogState → Prop
  | .start => i ∉ f.wrote
  | .preRead _ => i ∉ f.wrote
  | .locked _ => f.lock = some i ∧ i ∉ f.wrote
  | .decided content => f.lock = some i ∧ i ∉ f.wrote ∧
      ∀ line, writeVault f.content content line = replaceVaultLine f.content line
  | .written => f.lock = some i ∧ i ∈ f.wrote
  | .returned => i ∈ f.wrote ∨ (call.asSave = none ∧ call.records = [])

/-- The file is what the calls that have written make of it in their order. -/
structure Serialized (f : SharedLog) : Prop where
  nodup : f.wrote.Nodup
  content : f.content = convText J conv (serial calls f.wrote records₀)

variable {J conv records₀ calls} {i : Nat} {f f' : SharedLog} {call : LogCall} {s s' : LogState}

/-- A write of a call that has not written yet. -/
theorem Serialized.write (h : Serialized J conv records₀ calls f) (hcall : calls[i]? = some call)
    (hnew : i ∉ f.wrote) {content : Str}
    (hcontent : content = convText J conv (call.effect (serial calls f.wrote records₀))) :
    Serialized J conv records₀ calls (f.write i content) := by
  refine ⟨List.nodup_append.mpr ⟨h.nodup, List.nodup_singleton i, ?_⟩, ?_⟩
  · intro a ha b hb he
    rw [List.mem_singleton] at hb
    exact hnew (hb ▸ he ▸ ha)
  · rw [SharedLog.write, serial, List.foldl_append]
    dsimp only [List.foldl_cons, List.foldl_nil]
    rw [hcall]
    exact hcontent

/-- A step keeps the file in order and takes the call to its next stage. -/
theorem Moved.serialized (hmoved : Moved J i f call s f' s')
    (h : Serialized J conv records₀ calls f) (hcall : calls[i]? = some call)
    (hstage : Stage i f call s)
    (hok : ∀ rngSeed vs pre, call = .saveVault rngSeed vs → s = .locked pre →
      contains vaultMarker pre = true ∨ contains vaultMarker f.content = false) :
    Serialized J conv records₀ calls f' ∧ Stage i f' call s' := by
  cases hmoved with
  | preRead seed vs => exact ⟨h, hstage⟩
  | nothing call hsave hnil => exact ⟨h, Or.inr ⟨hsave, appendText_eq_nil hnil⟩⟩
  | decide seed vs pre =>
      refine ⟨h, hstage.1, hstage.2, fun line => ?_⟩
      exact writeVault_decided line (hok seed vs pre rfl rfl)
  | acquire call s pre hlock hs =>
      have hnew : i ∉ f.wrote := by
        rcases hs with rfl | rfl
        · exact hstage
        · exact hstage
      exact ⟨⟨h.nodup, h.content⟩, rfl, hnew⟩
  | save seed vs content =>
      rcases hstage with ⟨hlock, hnew, hdecided⟩
      refine ⟨h.write hcall hnew ?_, hlock, List.mem_append_right _ List.mem_cons_self⟩
      rw [hdecided, h.content, replaceVaultLine_text]
      rfl
  | append call pre hsave =>
      rcases hstage with ⟨hlock, hnew⟩
      refine ⟨h.write hcall hnew ?_, hlock, List.mem_append_right _ List.mem_cons_self⟩
      rw [call.effect_append hsave, convText_append, ← appendText_eq, h.content]
  | unlock call => exact ⟨⟨h.nodup, h.content⟩, Or.inl hstage.2⟩

/-- A step of one call leaves the stage of another one as it is: what the other
    one knows of the lock keeps this one from writing. -/
theorem Moved.stage_other (hmoved : Moved J i f call s f' s') (hstage : Stage i f call s)
    {j : Nat} (hne : j ≠ i) {other : LogCall} {so : LogState} (hother : Stage j f other so) :
    Stage j f' other so := by
  -- a call that has the lock shuts out every other one
  have hshut : ∀ content, f.lock = some i → Stage j (f.write i content) other so := by
    intro content hlock
    have hnot : f.lock ≠ some j := by
      rw [hlock]
      exact fun he => hne (Option.some.inj he).symm
    have hwrote : j ∉ f.wrote → j ∉ f.wrote ++ [i] := by
      intro hj hmem
      rcases List.mem_append.mp hmem with hmem | hmem
      · exact hj hmem
      · exact hne (List.mem_singleton.mp hmem)
    cases so with
    | start => exact hwrote hother
    | preRead _ => exact hwrote hother
    | locked _ => exact absurd hother.1 hnot
    | decided _ => exact absurd hother.1 hnot
    | written => exact absurd hother.1 hnot
    | returned => exact hother.imp_left (List.mem_append_left _)
  cases hmoved with
  | preRead _ _ => exact hother
  | nothing _ _ _ => exact hother
  | decide _ _ _ => exact hother
  | acquire call s pre hlock hs =>
      have hnot : f.lock ≠ some j := by
        rw [hlock]
        exact fun he => absurd he (by simp only [reduceCtorEq, not_false_eq_true])
      cases so with
      | locked _ => exact absurd hother.1 hnot
      | decided _ => exact absurd hother.1 hnot
      | written => exact absurd hother.1 hnot
      | _ => exact hother
  | save _ _ content => exact hshut _ hstage.1
  | append call pre hsave => exact hshut _ hstage.1
  | unlock call =>
      have hnot : f.lock ≠ some j := by
        rw [hstage.1]
        exact fun he => hne (Option.some.inj he).symm
      cases so with
      | locked _ => exact absurd hother.1 hnot
      | decided _ => exact absurd hother.1 hnot
      | written => exact absurd hother.1 hnot
      | _ => exact hother

/-- After a conforming run the file is what the calls that have written make of
    it in their order, and every call is at its stage. -/
theorem saves_serialized (es : List (Nat × Unit)) (p : Machine.Pool SharedLog (LogCall × LogState))
    (hok : Machine.Along (Machine.Pool.step (LogCall.act J)) NotOvertaken es
      ⟨⟨convText J conv records₀, none, []⟩, calls.map fun call => (call, .start)⟩)
    (hrun : Machine.run (Machine.Pool.step (LogCall.act J)) es
      ⟨⟨convText J conv records₀, none, []⟩, calls.map fun call => (call, .start)⟩ = some p) :
    Serialized J conv records₀ calls p.shared ∧
      ∀ i t, p.threads[i]? = some t → calls[i]? = some t.1 ∧ Stage i p.shared t.1 t.2 := by
  refine Machine.Pool.invariant (Serialized J conv records₀ calls)
    (fun i f t => calls[i]? = some t.1 ∧ Stage i f t.1 t.2) ?_ ?_ es _ p ⟨?_, ?_⟩ hok hrun
  · rintro p i ⟨⟩ ⟨call, s⟩ f' ⟨call', s'⟩ hfresh hshared ht ⟨hcall, hstage⟩ hact _
    rcases LogCall.act_moved hact with ⟨rfl, hmoved⟩
    have hnext := hmoved.serialized hshared hcall hstage fun seed vs pre hc hs =>
      hfresh.decides (by rw [ht, hc, hs])
    exact ⟨hnext.1, hcall, hnext.2⟩
  · rintro p i ⟨⟩ ⟨call, s⟩ f' ⟨call', s'⟩ j ⟨other, so⟩ _ _ _ ⟨_, hstage⟩ hact hne _ ⟨hcall, hother⟩
    rcases LogCall.act_moved hact with ⟨rfl, hmoved⟩
    exact ⟨hcall, hmoved.stage_other hstage hne hother⟩
  · exact ⟨List.nodup_nil, rfl⟩
  · intro i t ht
    rcases Machine.getElem?_start ht with ⟨hcall, hs⟩
    refine ⟨hcall, ?_⟩
    rw [hs]
    exact List.not_mem_nil

end Serial

section Outcome

variable (calls : List LogCall)

/-- The vault of the save that wrote last. -/
def lastSave (wrote : List Nat) : Option (UInt64 × List VaultRecord) :=
  (wrote.filterMap fun i => (calls[i]?).bind LogCall.asSave).getLast?

/-- The records that were appended, in the order of the writes. -/
def appended (wrote : List Nat) : List Record :=
  wrote.flatMap fun i => ((calls[i]?).map LogCall.records).getD []

/-- The records that are no vault. -/
def others (records : List Record) : List Record := records.filter fun r => !r.asVault.isSome

/-- How many vault records there are. -/
def vaults (records : List Record) : Nat := records.countP fun r => r.asVault.isSome

theorem others_saveRecord (r : Record) (hr : r.asVault.isSome = true) :
    ∀ records, others (saveRecord r records) = others records := by
  intro records
  induction records with
  | nil =>
      rw [saveRecord, others, List.filter_cons_of_neg (by rw [hr]; exact Bool.false_ne_true)]
      rfl
  | cons r' records ih =>
      unfold others at ih ⊢
      rw [saveRecord]
      by_cases hr' : r'.asVault.isSome = true
      · rw [if_pos hr', List.filter_cons_of_neg (by rw [hr]; exact Bool.false_ne_true),
          List.filter_cons_of_neg (by rw [hr']; exact Bool.false_ne_true)]
      · rw [if_neg hr', List.filter_cons, List.filter_cons, ih]

theorem vaults_cons (r : Record) (records : List Record) :
    vaults (r :: records) = vaults records + if r.asVault.isSome = true then 1 else 0 :=
  List.countP_cons

theorem vaults_saveRecord (r : Record) (hr : r.asVault.isSome = true) :
    ∀ records, vaults records ≤ 1 → vaults (saveRecord r records) = 1 := by
  intro records
  induction records with
  | nil =>
      intro _
      rw [saveRecord, vaults_cons, if_pos hr]
      rfl
  | cons r' records ih =>
      intro hle
      rw [vaults_cons] at hle
      rw [saveRecord]
      by_cases hr' : r'.asVault.isSome = true
      · rw [if_pos hr'] at hle
        rw [if_pos hr', vaults_cons, if_pos hr]
        omega
      · rw [if_neg hr'] at hle
        rw [if_neg hr', vaults_cons, if_neg hr', ih hle]

/-- An append adds its records, none of which is a vault. -/
theorem LogCall.records_unmarked (call : LogCall) : ∀ r ∈ call.records, r.asVault = none := by
  intro r hr
  cases call with
  | batchInsertMessages messages =>
      rcases List.mem_map.mp hr with ⟨m, _, rfl⟩
      rfl
  | insertDetections detections =>
      rcases List.mem_map.mp hr with ⟨d, _, rfl⟩
      rfl
  | saveVault _ _ => exact absurd hr List.not_mem_nil

/-- What a call leaves of the vault, of the count and of the other records. -/
theorem LogCall.effect_spec (call : LogCall) (rs : List Record) (hle : vaults rs ≤ 1) :
    vaults (call.effect rs) ≤ 1 ∧
      (call.effect rs).findSome? Record.asVault = call.asSave.or (rs.findSome? Record.asVault) ∧
      others (call.effect rs) = others rs ++ call.records := by
  cases hsave : call.asSave with
  | none =>
      have hnone := call.records_unmarked
      have hcount : vaults call.records = 0 := List.countP_eq_zero.mpr fun r hr => by
        rw [hnone r hr]
        exact Bool.false_ne_true
      have hall : others call.records = call.records := List.filter_eq_self.mpr fun r hr => by
        rw [hnone r hr]
        rfl
      rw [call.effect_append hsave, List.findSome?_append, List.findSome?_eq_none_iff.mpr hnone,
        Option.or_none, Option.none_or]
      refine ⟨?_, rfl, ?_⟩
      · have hadd : vaults (rs ++ call.records) = vaults rs + vaults call.records :=
          List.countP_append
        omega
      · have hadd : others (rs ++ call.records) = others rs ++ others call.records :=
          List.filter_append ..
        rw [hadd, hall]
  | some p =>
      cases call with
      | saveVault seed vs =>
          have hr : (Record.vault seed vs).asVault.isSome = true := rfl
          refine ⟨Nat.le_of_eq (vaults_saveRecord _ hr rs hle), ?_, ?_⟩
          · rw [← hsave]
            exact findSome?_saveRecord _ hr rs
          · exact (others_saveRecord _ hr rs).trans (List.append_nil _).symm
      | _ => exact absurd hsave (by simp only [asSave, reduceCtorEq, not_false_eq_true])

theorem lastSave_cons (i : Nat) (wrote : List Nat) :
    lastSave calls (i :: wrote) =
      (lastSave calls wrote).or ((calls[i]?).bind LogCall.asSave) := by
  unfold lastSave
  cases hsave : (calls[i]?).bind LogCall.asSave with
  | none => simp only [List.filterMap_cons, hsave, Option.or_none]
  | some p =>
      simp only [List.filterMap_cons, hsave, List.getLast?_cons]
      cases (wrote.filterMap fun i => (calls[i]?).bind LogCall.asSave).getLast? <;> rfl

/-- What the calls leave, one after the other: at most one vault, that of the
    last save, and every record that was appended. -/
theorem serial_spec : ∀ (wrote : List Nat) (rs : List Record), vaults rs ≤ 1 →
    vaults (serial calls wrote rs) ≤ 1 ∧
      (serial calls wrote rs).findSome? Record.asVault =
        (lastSave calls wrote).or (rs.findSome? Record.asVault) ∧
      others (serial calls wrote rs) = others rs ++ appended calls wrote := by
  intro wrote
  induction wrote with
  | nil => exact fun rs hle => ⟨hle, rfl, (List.append_nil _).symm⟩
  | cons i wrote ih =>
      intro rs hle
      -- one call, if there is one of that number
      have hone : ∃ rs', serial calls (i :: wrote) rs = serial calls wrote rs' ∧
          vaults rs' ≤ 1 ∧ rs'.findSome? Record.asVault =
            ((calls[i]?).bind LogCall.asSave).or (rs.findSome? Record.asVault) ∧
          others rs' = others rs ++ ((calls[i]?).map LogCall.records).getD [] := by
        refine ⟨((calls[i]?).map fun call => call.effect rs).getD rs, rfl, ?_⟩
        cases calls[i]? with
        | none => exact ⟨hle, rfl, (List.append_nil _).symm⟩
        | some call => exact call.effect_spec rs hle
      rcases hone with ⟨rs', hserial, hle', hvault, hothers⟩
      rcases ih rs' hle' with ⟨hcount, hlast, hrest⟩
      rw [hserial, lastSave_cons, Option.or_assoc, ← hvault]
      refine ⟨hcount, hlast, ?_⟩
      rw [hrest, hothers, List.append_assoc]
      rfl

/-- A vault record is one that is counted. -/
theorem vaults_eq_zero_iff (rs : List Record) :
    vaults rs = 0 ↔ rs.findSome? Record.asVault = none := by
  rw [vaults, List.countP_eq_zero, List.findSome?_eq_none_iff]
  simp only [Bool.not_eq_true, Option.isSome_eq_false_iff, Option.isNone_iff_eq_none]

/-- What the file holds once all calls are back. -/
structure KeptLog (J : StoreJson) (conv : Conversation) (records₀ : List Record)
    (f : SharedLog) : Prop where
  /-- Every call that has something to write has written once. -/
  once : f.wrote.Nodup ∧ ∀ i call, calls[i]? = some call →
    i ∈ f.wrote ∨ (call.asSave = none ∧ call.records = [])
  /-- There is one line of a vault. -/
  oneVault : (lines f.content).countP (contains vaultMarker) = 1
  /-- It is that of the save that wrote last. -/
  lastVault : ∃ rngSeed vs, lastSave calls f.wrote = some (rngSeed, vs) ∧
    readVault J f.content = some (rngSeed, vs.map VaultRecord.stored)
  /-- The other lines are those that were there and those that were appended. -/
  kept : (lines f.content).filter (fun l => !contains vaultMarker l) =
    conv.line :: ((others records₀ ++ appended calls f.wrote).map (Record.line J))

variable {calls} {J : StoreJson} {conv : Conversation} {records₀ : List Record}

/-- The lines of a log, with and without the vault. -/
theorem lines_vaults (J : StoreJson) (conv : Conversation) (rs : List Record) :
    (lines (convText J conv rs)).countP (contains vaultMarker) = vaults rs ∧
      (lines (convText J conv rs)).filter (fun l => !contains vaultMarker l) =
        conv.line :: (others rs).map (Record.line J) := by
  have hheader : contains vaultMarker conv.line = false := by
    rw [vaultMarker_eq]
    exact header_unmarked conv plain_vault
  have hmarker : contains vaultMarker ∘ Record.line J = fun r => r.asVault.isSome :=
    funext fun r => r.contains_vaultMarker J
  have hother : (fun l => !contains vaultMarker l) ∘ Record.line J =
      fun r => !r.asVault.isSome := funext fun r => by
    rw [Function.comp_apply, r.contains_vaultMarker J]
  rw [lines_convText]
  constructor
  · rw [List.countP_cons_of_neg (by rw [hheader]; exact Bool.false_ne_true), List.countP_map,
      hmarker]
    rfl
  · rw [List.filter_cons_of_pos (by rw [hheader]; rfl), List.filter_map, hother]
    rfl

/-- A save that has written is one that could be the last. -/
theorem lastSave_isSome {wrote : List Nat} {i : Nat} (hi : i ∈ wrote) {call : LogCall}
    (hcall : calls[i]? = some call) (hsave : call.asSave.isSome = true) :
    ∃ p, lastSave calls wrote = some p ∧ ∃ call ∈ calls, call.asSave = some p := by
  rcases Option.isSome_iff_exists.mp hsave with ⟨q, hq⟩
  have hmem : q ∈ wrote.filterMap fun i => (calls[i]?).bind LogCall.asSave :=
    List.mem_filterMap.mpr ⟨i, hi, by rw [hcall, Option.bind_some, hq]⟩
  cases hlast : lastSave calls wrote with
  | none =>
      rw [lastSave, List.getLast?_eq_none_iff] at hlast
      rw [hlast] at hmem
      exact absurd hmem List.not_mem_nil
  | some p =>
      rcases List.mem_filterMap.mp (List.mem_of_getLast? hlast) with ⟨j, _, hj⟩
      rcases Option.bind_eq_some_iff.mp hj with ⟨call', hcall', hp⟩
      exact ⟨p, rfl, call', List.mem_of_getElem? hcall', hp⟩

/-- Overlapping saves and appends on a log with at most one vault line: if no
    save that saw no vault line finds one when it decides, then in the end there
    is one vault line, that of the last save, and nothing that was appended is
    lost. -/
theorem saves_kept (J : StoreJson) (conv : Conversation) (records₀ : List Record)
    (calls : List LogCall) (hvaults : vaults records₀ ≤ 1)
    (hsave : ∃ call ∈ calls, call.asSave.isSome = true)
    (hreads : ∀ call ∈ calls, ∀ p, call.asSave = some p → (Record.vault p.1 p.2).Reads J)
    (es : List (Nat × Unit)) (p : Machine.Pool SharedLog (LogCall × LogState))
    (hok : Machine.Along (Machine.Pool.step (LogCall.act J)) NotOvertaken es
      ⟨⟨convText J conv records₀, none, []⟩, calls.map fun call => (call, .start)⟩)
    (hrun : Machine.run (Machine.Pool.step (LogCall.act J)) es
      ⟨⟨convText J conv records₀, none, []⟩, calls.map fun call => (call, .start)⟩ = some p)
    (hreturned : ∀ t ∈ p.threads, t.2 = .returned) :
    KeptLog calls J conv records₀ p.shared := by
  rcases saves_serialized es p hok hrun with ⟨⟨hnodup, hcontent⟩, hstage⟩
  have honce : ∀ i call, calls[i]? = some call →
      i ∈ p.shared.wrote ∨ (call.asSave = none ∧ call.records = []) := by
    intro i call hcall
    have hlen := Machine.Pool.run_length es _ p hrun
    rw [List.length_map] at hlen
    rcases List.getElem?_eq_some_iff.mp hcall with ⟨hi, _⟩
    have ht : p.threads[i]? = some p.threads[i] := List.getElem?_eq_getElem (by omega)
    rcases hstage i _ ht with ⟨hcall', hst⟩
    rw [hcall, Option.some.injEq] at hcall'
    rw [hreturned _ (List.mem_of_getElem? ht), ← hcall'] at hst
    exact hst
  rcases hsave with ⟨call, hcall, hsave⟩
  rcases List.mem_iff_getElem?.mp hcall with ⟨i, hi⟩
  have hwrote : i ∈ p.shared.wrote := (honce i call hi).resolve_right fun h => by
    rw [h.1] at hsave
    exact absurd hsave Bool.false_ne_true
  rcases lastSave_isSome hwrote hi hsave with ⟨⟨seed, vs⟩, hlast, call', hcall', hp⟩
  have hread : (Record.vault seed vs).Reads J := hreads call' hcall' (seed, vs) hp
  rcases serial_spec calls p.shared.wrote records₀ hvaults with ⟨hcount, hvault, hothers⟩
  rw [hlast, Option.some_or] at hvault
  have hlines := lines_vaults J conv (serial calls p.shared.wrote records₀)
  rw [← hcontent] at hlines
  refine ⟨⟨hnodup, honce⟩, ?_, ⟨seed, vs, hlast, ?_⟩, ?_⟩
  · have hsome : vaults (serial calls p.shared.wrote records₀) ≠ 0 := by
      rw [ne_eq, vaults_eq_zero_iff, hvault]
      exact Option.some_ne_none _
    rw [hlines.1]
    omega
  · rw [hcontent, readVault_text, hvault]
    · rfl
    · intro seed' vs' h
      rw [hvault, Option.some.injEq, Prod.mk.injEq] at h
      rcases h with ⟨rfl, rfl⟩
      exact hread
  · rw [hlines.2, hothers]

end Outcome

/-- A save, a message and a second save on a conversation that was just
    inserted. -/
def overlappingCalls : List LogCall :=
  [.saveVault 1 [], .batchInsertMessages [⟨lit "m1", lit "c", lit "request", lit "t", none,
    lit "hi", none, none, none, none⟩], .saveVault 2 []]

/-- A conversation. -/
def overlappingConversation : Conversation := ⟨lit "c", lit "t", lit "p", none, none⟩

/-- A parser that knows the two vaults. -/
def overlappingJson : StoreJson := .ofRecords [.vault 1 [], .vault 2 []]

/-- The file and the calls before the first step. -/
def overlappingStart : Machine.Pool SharedLog (LogCall × LogState) :=
  ⟨⟨convText overlappingJson overlappingConversation [], none, []⟩,
    overlappingCalls.map fun call => (call, .start)⟩

/-- The message comes between the first save's read and its write, and the
    second save reads while the first one still has the lock. -/
def overlappingSteps : List (Nat × Unit) :=
  [0, 1, 1, 1, 0, 0, 0, 2, 0, 2, 2, 2, 2].map fun i => (i, ())

/-- Both saves read the file before either has written. -/
def overtakenSteps : List (Nat × Unit) :=
  [0, 2, 1, 1, 1, 0, 0, 0, 0, 2, 2, 2, 2].map fun i => (i, ())

/-- In the one order nothing is lost. -/
theorem saves_kept_two : ∃ p,
    Machine.run (Machine.Pool.step (LogCall.act overlappingJson)) overlappingSteps
      overlappingStart = some p ∧
      KeptLog overlappingCalls overlappingJson overlappingConversation [] p.shared := by
  refine ⟨_, rfl, ?_⟩
  have hreads := reads_ofRecords [.vault 1 [], .vault 2 []] (by decide) (by decide)
  refine saves_kept overlappingJson overlappingConversation [] overlappingCalls (by decide)
    ⟨_, List.mem_cons_self, rfl⟩ ?_ overlappingSteps _ (by decide +kernel) rfl (by decide)
  intro call hcall q hq
  simp only [overlappingCalls, List.mem_cons, List.not_mem_nil, or_false] at hcall
  rcases hcall with rfl | rfl | rfl
  · rw [LogCall.asSave, Option.some.injEq] at hq
    rw [← hq]
    exact hreads _ List.mem_cons_self
  · exact absurd hq (by simp only [LogCall.asSave, reduceCtorEq, not_false_eq_true])
  · rw [LogCall.asSave, Option.some.injEq] at hq
    rw [← hq]
    exact hreads _ (List.mem_cons_of_mem _ List.mem_cons_self)

/-- In the other order there are two vault lines, and the vault that is loaded is
    not that of the last save. -/
theorem saves_overtaken : ∃ p,
    Machine.run (Machine.Pool.step (LogCall.act overlappingJson)) overtakenSteps
      overlappingStart = some p ∧
      (∀ t ∈ p.threads, t.2 = .returned) ∧
      (lines p.shared.content).countP (contains vaultMarker) = 2 ∧
      lastSave overlappingCalls p.shared.wrote = some (2, []) ∧
      readVault overlappingJson p.shared.content = some (1, []) ∧
      ¬ KeptLog overlappingCalls overlappingJson overlappingConversation [] p.shared := by
  refine ⟨_, rfl, by decide, by decide +kernel, rfl, by decide +kernel, fun h => ?_⟩
  exact absurd h.oneVault (by decide +kernel)

end Storage

end PrivacyClaw
