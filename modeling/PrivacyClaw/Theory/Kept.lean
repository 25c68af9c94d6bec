import PrivacyClaw.Theory.Records
import PrivacyClaw.Theory.PathCache

/-!
# What the Store Keeps

The store of log files against what it is for: a map from conversations to
their messages, their detections and their last saved vault.

A log that was written by the store is the header and a list of records
(`Holds`). Appending adds to the list and saving a vault changes it in one
place, and a file belongs to the one conversation whose id its name ends with,
ids being of one length. So after any writes every log holds what the map has
for its conversation (`Represents`), and the readers return it
(`store_refines`).

## Main definitions

* `Kept`, `WriteOp.specify`: The map and what a write does to it.
* `WriteOp.Allowed`, `InOrder`: A conversation is inserted once and first.
* `Holds`, `Absent`: What is on disk for a conversation.
* `Represents`: The store on disk has what the map has.

## Theorems

* `Holds.getMessages`, `Holds.loadDetections`, `Holds.loadVault`,
  `Holds.countRequestMessages`: What the readers return.
* `Holds.append`, `Holds.saveVault`: What the writers do.
* `Represents.apply`: A write, on both sides.
* `store_refines`: The readers after any writes.
* `store_refines_markers`: Texts with line feeds, quotes and markers.
-/

namespace PrivacyClaw

namespace Storage

/-- What is kept of a conversation. -/
structure Kept where
  messages : List Message
  detections : List MessageDetection
  vault : Option (UInt64 × List VaultRecord)

/-- A conversation that was just inserted. -/
def Kept.empty : Kept := ⟨[], [], none⟩

/-- What the records of a log amount to. -/
def Kept.ofRecords (records : List Record) : Kept where
  messages := records.filterMap Record.asMessage
  detections := records.filterMap Record.asDetection
  vault := records.findSome? Record.asVault

theorem Kept.ofRecords_messages (records : List Record) (ms : List Message) :
    Kept.ofRecords (records ++ ms.map .message) =
      { ofRecords records with messages := (ofRecords records).messages ++ ms } := by
  have hms : (ms.map Record.message).filterMap Record.asMessage = ms :=
    List.filterMap_map.trans List.filterMap_some
  have hds : (ms.map Record.message).filterMap Record.asDetection = [] := by
    rw [List.filterMap_map]
    exact List.filterMap_eq_nil_iff.mpr fun _ _ => rfl
  have hvault : (ms.map Record.message).findSome? Record.asVault = none := by
    rw [List.findSome?_map]
    exact List.findSome?_eq_none_iff.mpr fun _ _ => rfl
  simp only [ofRecords, List.filterMap_append, hms, hds, List.append_nil,
    List.findSome?_append, hvault, Option.or_none]

theorem Kept.ofRecords_detections (records : List Record) (ds : List MessageDetection) :
    Kept.ofRecords (records ++ ds.map .detection) =
      { ofRecords records with detections := (ofRecords records).detections ++ ds } := by
  have hds : (ds.map Record.detection).filterMap Record.asDetection = ds :=
    List.filterMap_map.trans List.filterMap_some
  have hms : (ds.map Record.detection).filterMap Record.asMessage = [] := by
    rw [List.filterMap_map]
    exact List.filterMap_eq_nil_iff.mpr fun _ _ => rfl
  have hvault : (ds.map Record.detection).findSome? Record.asVault = none := by
    rw [List.findSome?_map]
    exact List.findSome?_eq_none_iff.mpr fun _ _ => rfl
  simp only [ofRecords, List.filterMap_append, hms, hds, List.append_nil,
    List.findSome?_append, hvault, Option.or_none]

theorem Kept.ofRecords_saveRecord (records : List Record) (rngSeed : UInt64)
    (vs : List VaultRecord) :
    Kept.ofRecords (saveRecord (.vault rngSeed vs) records) =
      { ofRecords records with vault := some (rngSeed, vs) } := by
  have hmessage : ∀ r : Record, r.asVault.isSome = true → r.asMessage = none := fun r hr => by
    cases r <;> first | rfl | exact absurd hr Bool.false_ne_true
  have hdetection : ∀ r : Record, r.asVault.isSome = true → r.asDetection = none := fun r hr => by
    cases r <;> first | rfl | exact absurd hr Bool.false_ne_true
  have hr : (Record.vault rngSeed vs).asVault.isSome = true := rfl
  simp only [ofRecords, filterMap_saveRecord _ hmessage _ hr,
    filterMap_saveRecord _ hdetection _ hr, findSome?_saveRecord _ hr]
  rfl

namespace WriteOp

/-- What a write is for, in the map: a new conversation is empty, a message
    goes to its conversation, and a vault takes the place of the last one. -/
def specify (A : Str → Kept) : WriteOp → Str → Kept
  | .insertConversation _ conv => Function.update A conv.id .empty
  | .batchInsertMessages messages => fun c =>
    { A c with messages := (A c).messages ++ messages.filter (·.conversationId == c) }
  | .insertDetections c ds =>
    Function.update A c { A c with detections := (A c).detections ++ ds }
  | .saveVault c rngSeed vs => Function.update A c { A c with vault := some (rngSeed, vs) }

/-- The records a write prints. -/
def records : WriteOp → List Record
  | .insertConversation _ _ => []
  | .batchInsertMessages messages => messages.map .message
  | .insertDetections _ ds => ds.map .detection
  | .saveVault _ rngSeed vs => [.vault rngSeed vs]

/-- The conversations that are inserted after a write. -/
def inserted (before : List Str) : WriteOp → List Str
  | .insertConversation _ conv => conv.id :: before
  | _ => before

/-- A new conversation, or a write to one of the inserted ones. Ids are UUIDs,
    which have 36 characters. -/
def Allowed (before : List Str) : WriteOp → Prop
  | .insertConversation _ conv => conv.id.length = 36 ∧ conv.id ∉ before
  | .batchInsertMessages messages =>
    ∀ m ∈ messages, m.conversationId ∈ before ∧
      ∀ m' ∈ messages, m'.conversationId = m.conversationId
  | .insertDetections c _ => c ∈ before
  | .saveVault c _ _ => c ∈ before

instance (before : List Str) : ∀ op, Decidable (Allowed before op)
  | .insertConversation _ _ => inferInstanceAs (Decidable (_ ∧ _))
  | .batchInsertMessages _ => inferInstanceAs (Decidable (∀ _ ∈ _, _ ∧ ∀ _ ∈ _, _ = _))
  | .insertDetections _ _ => inferInstanceAs (Decidable (_ ∈ _))
  | .saveVault _ _ _ => inferInstanceAs (Decidable (_ ∈ _))

end WriteOp

/-- The writes in a possible order: a conversation is inserted once and before
    anything else is written to it. -/
def InOrder : List Str → List WriteOp → Prop
  | _, [] => True
  | before, op :: ops => op.Allowed before ∧ InOrder (op.inserted before) ops

instance : ∀ ops before, Decidable (InOrder before ops)
  | [], _ => .isTrue trivial
  | op :: ops, before =>
    have := instDecidableInOrder ops (op.inserted before)
    inferInstanceAs (Decidable (_ ∧ _))

section Files

/-- What is on disk for a conversation: a file of that name, known to the cache,
    with these records behind a header. -/
def Holds (J : StoreJson) (st : LogStore) (convId : Str) (records : List Record) : Prop :=
  ∃ path conv, st.pathCache.lookup convId = some path ∧ fileSuffix convId <:+ path ∧
    st.files.lookup path = some (convText J conv records)

/-- There is no file for a conversation. -/
structure Absent (st : LogStore) (convId : Str) : Prop where
  cache : st.pathCache.lookup convId = none
  files : ∀ path ∈ st.files, ¬ fileSuffix convId <:+ path

/-- The name of a file ends with one id of a given length. -/
theorem fileSuffix_injective {c c' path : Str} (hlen : c.length = c'.length)
    (hc : fileSuffix c <:+ path) (hc' : fileSuffix c' <:+ path) : c = c' := by
  have hlength : (fileSuffix c).length = (fileSuffix c').length := by
    simp only [fileSuffix, List.length_append, hlen]
  have heq := (List.suffix_of_suffix_length_le hc hc' (Nat.le_of_eq hlength)).eq_of_length hlength
  exact List.append_cancel_left (List.append_cancel_right heq)

theorem newConvFilePath_suffix (now : Now) (convId : Str) :
    fileSuffix convId <:+ newConvFilePath now convId := by
  refine ⟨now.date ++ lit "T" ++ now.time ++ lit "Z", ?_⟩
  have hsplit : lit "Z_" = lit "Z" ++ lit "_" := by decide
  rw [newConvFilePath, fileSuffix, hsplit]
  simp only [List.append_assoc]

variable {J : StoreJson} (D : ReadDir) {st : LogStore} {c : Str} {records : List Record}

/-- The path of a held conversation is cached. -/
theorem convFilePath_cached {path : Str} (h : st.pathCache.lookup c = some path) :
    st.convFilePath D c = (some path, st) := by
  rw [LogStore.convFilePath, h]

theorem Absent.convFilePath (h : Absent st c) : st.convFilePath D c = (none, st) := by
  rcases convFilePath_cases D st c with ⟨path, hp, _⟩ | ⟨path, hmem, hsuffix, _⟩ | ⟨_, _, he⟩
  · rw [h.cache] at hp
    exact absurd hp (by simp only [reduceCtorEq, not_false_eq_true])
  · exact absurd (List.isSuffixOf_iff_suffix.mp hsuffix) (h.files path hmem)
  · exact he

theorem Absent.readFile (h : Absent st c) {β : Type} (read : Str → β) (missing : β) :
    st.readFile D read missing c = (some missing, st) := by
  rw [LogStore.readFile, h.convFilePath]

theorem Holds.readFile (h : Holds J st c records) {β : Type} {read : Str → β} {missing x : β}
    (hread : ∀ conv, read (convText J conv records) = x) :
    st.readFile D read missing c = (some x, st) := by
  rcases h with ⟨path, conv, hcache, _, hfile⟩
  rw [LogStore.readFile, convFilePath_cached D hcache]
  dsimp only
  rw [hfile, Option.map_some, hread]

section Readers

variable (h : Holds J st c records) (hrecords : ∀ r ∈ records, r.Reads J)

include h hrecords

theorem Holds.getMessages :
    st.getMessages J D c = (some (Kept.ofRecords records).messages, st) :=
  h.readFile D fun conv => readMessages_text J conv records hrecords

theorem Holds.loadDetections (messageId : Option Str) :
    st.loadDetections J D c messageId =
      (some ((Kept.ofRecords records).detections.filter fun d =>
        messageId.all fun mid => d.messageId == mid), st) :=
  h.readFile D fun conv => readDetections_text J conv records hrecords messageId

theorem Holds.loadVault :
    st.loadVault J D c =
      (some ((Kept.ofRecords records).vault.map fun p => (p.1, p.2.map VaultRecord.stored)), st) :=
  h.readFile D fun conv => readVault_text J conv records fun _ _ hvault =>
    hrecords _ (mem_of_findSome?_asVault records hvault)

theorem Holds.countRequestMessages :
    st.countRequestMessages J D c =
      ((Kept.ofRecords records).messages.countP fun m => m.direction == lit "request", st) := by
  rw [LogStore.countRequestMessages,
    h.readFile D fun conv => countRequests_text J conv records hrecords]
  rfl

end Readers

/-- One file of the conversation was written, and nothing else. -/
def WritesOne (st st' : LogStore) (convId : Str) : Prop :=
  ∃ path content, fileSuffix convId <:+ path ∧
    st' = ⟨st.files.insert path content, st.pathCache⟩

/-- Another conversation has what it had. -/
theorem Holds.other {c' : Str} {st' : LogStore} (h : Holds J st c records)
    (hlen : c.length = c'.length) (hne : c ≠ c') (hone : WritesOne st st' c') :
    Holds J st' c records := by
  rcases h with ⟨path, conv, hcache, hsuffix, hfile⟩
  rcases hone with ⟨path', content, hpath, rfl⟩
  refine ⟨path, conv, hcache, hsuffix, ?_⟩
  rw [AList.lookup_insert_ne, hfile]
  rintro rfl
  exact hne (fileSuffix_injective hlen hsuffix hpath)

theorem Absent.other {c' : Str} {st' : LogStore} (h : Absent st c)
    (hlen : c.length = c'.length) (hne : c ≠ c') (hone : WritesOne st st' c') : Absent st' c := by
  rcases hone with ⟨path', content, hpath, rfl⟩
  refine ⟨h.cache, fun path hmem hsuffix => ?_⟩
  rcases (AList.mem_insert st.files).mp hmem with rfl | hmem
  · exact hne (fileSuffix_injective hlen hsuffix hpath)
  · exact h.files path hmem hsuffix

/-- A path in the cache changes nothing for a conversation it is not the path
    of. -/
theorem Holds.cached {c' : Str} (h : Holds J st c records) (hne : c ≠ c') (path : Str) :
    Holds J ⟨st.files, st.pathCache.insert c' path⟩ c records := by
  rcases h with ⟨path', conv, hcache, hsuffix, hfile⟩
  exact ⟨path', conv, by rw [AList.lookup_insert_ne hne, hcache], hsuffix, hfile⟩

theorem Absent.cached {c' : Str} (h : Absent st c) (hne : c ≠ c') (path : Str) :
    Absent ⟨st.files, st.pathCache.insert c' path⟩ c :=
  ⟨by rw [AList.lookup_insert_ne hne, h.cache], h.files⟩

/-- Inserting a conversation is writing its file, and then the cache. -/
theorem insertConversation_writes (now : Now) (conv : Conversation) (st : LogStore) :
    ∃ st', WritesOne st st' conv.id ∧ st.insertConversation now conv =
      ⟨st'.files, st'.pathCache.insert conv.id (newConvFilePath now conv.id)⟩ :=
  ⟨_, ⟨_, _, newConvFilePath_suffix now conv.id, rfl⟩, rfl⟩

variable (J) in
theorem holds_insertConversation (now : Now) (conv : Conversation) (st : LogStore) :
    Holds J (st.insertConversation now conv) conv.id [] := by
  refine ⟨newConvFilePath now conv.id, conv, AList.lookup_insert _, newConvFilePath_suffix now _, ?_⟩
  rw [convText, List.map_nil, logText_singleton]
  exact AList.lookup_insert _

/-- Lines appended to the log of a conversation. -/
theorem Holds.append (h : Holds J st c records) (more : List Record) :
    ∃ path st', st.pathCache.lookup c = some path ∧ WritesOne st st' c ∧
      st.append path (logText (more.map (Record.line J))) = (some (), st') ∧
      Holds J st' c (records ++ more) := by
  rcases h with ⟨path, conv, hcache, hsuffix, hfile⟩
  refine ⟨path, _, hcache, ⟨path, _, hsuffix, rfl⟩, ?_, path, conv, hcache, hsuffix,
    AList.lookup_insert _⟩
  rw [LogStore.append, hfile, convText_append]

/-- Messages appended: the conversation is that of the first one. -/
theorem Holds.batchInsertMessages (m : Message) (ms : List Message)
    (h : Holds J st m.conversationId records) :
    ∃ st', st.batchInsertMessages D (m :: ms) = (some (), st') ∧
      WritesOne st st' m.conversationId ∧
      Holds J st' m.conversationId (records ++ (m :: ms).map .message) := by
  rcases h.append ((m :: ms).map .message) with ⟨path, st', hcache, hone, happend, hholds⟩
  refine ⟨st', ?_, hone, hholds⟩
  rw [logText, List.map_map, List.flatMap_map] at happend
  rw [LogStore.batchInsertMessages, convFilePath_cached D hcache]
  exact happend

theorem Holds.insertDetections {ds : List MessageDetection} (hds : ds ≠ [])
    (h : Holds J st c records) :
    ∃ st', st.insertDetections J D c ds = (some (), st') ∧ WritesOne st st' c ∧
      Holds J st' c (records ++ ds.map .detection) := by
  rcases h.append (ds.map .detection) with ⟨path, st', hcache, hone, happend, hholds⟩
  refine ⟨st', ?_, hone, hholds⟩
  rw [logText, List.map_map, List.flatMap_map] at happend
  rw [LogStore.insertDetections, List.isEmpty_eq_false_iff.mpr hds, if_neg Bool.false_ne_true,
    convFilePath_cached D hcache]
  exact happend

theorem Holds.saveVault (rngSeed : UInt64) (vs : List VaultRecord) (h : Holds J st c records) :
    ∃ st', st.saveVault J D c rngSeed vs = (some (), st') ∧ WritesOne st st' c ∧
      Holds J st' c (saveRecord (.vault rngSeed vs) records) := by
  rcases h with ⟨path, conv, hcache, hsuffix, hfile⟩
  refine ⟨_, ?_, ⟨path, _, hsuffix, rfl⟩, path, conv, hcache, hsuffix, AList.lookup_insert _⟩
  rw [LogStore.saveVault, convFilePath_cached D hcache]
  dsimp only
  rw [hfile]
  dsimp only
  rw [replaceVaultLine_text]

end Files

section Refinement

variable (J : StoreJson) (D : ReadDir)

/-- The store on disk has what the map has, for every id that was inserted, and
    nothing for the others. -/
def Represents (st : LogStore) (A : Str → Kept) (inserted : List Str) : Prop :=
  ∀ c, c.length = 36 →
    (c ∈ inserted ∧ ∃ records, Holds J st c records ∧ (∀ r ∈ records, r.Reads J) ∧
      A c = .ofRecords records) ∨
    (c ∉ inserted ∧ Absent st c ∧ A c = .empty)

/-- At the start there is nothing. -/
theorem represents_new : Represents J LogStore.new (fun _ => .empty) [] := fun _ _ =>
  Or.inr ⟨List.not_mem_nil, ⟨rfl, fun path hmem => absurd hmem (AList.notMem_empty path)⟩, rfl⟩

variable {J} {st : LogStore} {A : Str → Kept} {inserted : List Str}

/-- The records of an inserted conversation. -/
theorem Represents.records (h : Represents J st A inserted) {c : Str} (hlen : c.length = 36)
    (hc : c ∈ inserted) : ∃ records, Holds J st c records ∧ (∀ r ∈ records, r.Reads J) ∧
      A c = .ofRecords records :=
  (h c hlen).elim (·.2) fun h => absurd hc h.1

/-- One conversation written, on both sides. -/
theorem Represents.write (h : Represents J st A inserted) {c : Str} (hlen : c.length = 36)
    (hc : c ∈ inserted) {st' : LogStore} (hone : WritesOne st st' c) {records : List Record}
    (hholds : Holds J st' c records) (hreads : ∀ r ∈ records, r.Reads J) {A' : Str → Kept}
    (hkept : A' c = .ofRecords records) (hother : ∀ c', c' ≠ c → A' c' = A c') :
    Represents J st' A' inserted := by
  intro c' hlen'
  by_cases he : c' = c
  · subst he
    exact Or.inl ⟨hc, records, hholds, hreads, hkept⟩
  · rcases h c' hlen' with ⟨hmem, records', hholds', hreads', hkept'⟩ | ⟨hmem, habsent, hkept'⟩
    · exact Or.inl ⟨hmem, records', hholds'.other (hlen'.trans hlen.symm) he hone, hreads',
        by rw [hother c' he, hkept']⟩
    · exact Or.inr ⟨hmem, habsent.other (hlen'.trans hlen.symm) he hone,
        by rw [hother c' he, hkept']⟩

theorem mem_reads_append {records more : List Record} (h : ∀ r ∈ records, r.Reads J)
    (hmore : ∀ r ∈ more, r.Reads J) : ∀ r ∈ records ++ more, r.Reads J :=
  List.forall_mem_append.mpr ⟨h, hmore⟩

/-- A new conversation, on both sides. -/
theorem Represents.insert (h : Represents J st A inserted) (now : Now) (conv : Conversation)
    (hlen : conv.id.length = 36) :
    Represents J (st.insertConversation now conv)
      (WriteOp.specify A (.insertConversation now conv)) (conv.id :: inserted) := by
  intro c hlen'
  by_cases he : c = conv.id
  · subst he
    refine Or.inl ⟨List.mem_cons_self, [], holds_insertConversation J now conv st,
      fun r hr => absurd hr List.not_mem_nil, ?_⟩
    rw [WriteOp.specify, Function.update_self]
    rfl
  · -- the others lose nothing, as the new path goes into the cache for the new id
    rcases insertConversation_writes now conv st with ⟨st', hone, happly⟩
    have hkept : WriteOp.specify A (.insertConversation now conv) c = A c :=
      Function.update_of_ne he _ _
    rw [happly, hkept]
    rcases h c hlen' with ⟨hmem, records, hholds, hreads, hA⟩ | ⟨hmem, habsent, hA⟩
    · have hholds' := (hholds.other (hlen'.trans hlen.symm) he hone).cached he
        (newConvFilePath now conv.id)
      exact Or.inl ⟨List.mem_cons_of_mem _ hmem, records, hholds', hreads, hA⟩
    · have habsent' := (habsent.other (hlen'.trans hlen.symm) he hone).cached he
        (newConvFilePath now conv.id)
      refine Or.inr ⟨fun hin => ?_, habsent', hA⟩
      exact (List.mem_cons.mp hin).elim he hmem

/-- A write, on both sides. -/
theorem Represents.apply (h : Represents J st A inserted)
    (hids : ∀ c ∈ inserted, c.length = 36) (op : WriteOp) (hop : op.Allowed inserted)
    (hreads : ∀ r ∈ op.records, r.Reads J) :
    Represents J (op.apply J D st) (op.specify A) (op.inserted inserted) := by
  cases op with
  | insertConversation now conv => exact h.insert now conv hop.1
  | batchInsertMessages messages =>
      cases messages with
      | nil =>
          -- `Ok(())` before anything is looked up
          have hsame : WriteOp.specify A (.batchInsertMessages []) = A := funext fun c => by
            dsimp only [WriteOp.specify]
            rw [List.filter_nil, List.append_nil]
          rw [hsame]
          exact h
      | cons m ms =>
          rcases hop m List.mem_cons_self with ⟨hc, hsame⟩
          rcases h.records (hids _ hc) hc with ⟨records, hholds, hrecords, hkept⟩
          rcases hholds.batchInsertMessages D m ms with ⟨st', happly, hone, hholds'⟩
          rw [WriteOp.apply, happly]
          refine h.write (hids _ hc) hc hone hholds' (mem_reads_append hrecords hreads) ?_ ?_
          · have hall : (m :: ms).filter (·.conversationId == m.conversationId) = m :: ms :=
              List.filter_eq_self.mpr fun m' hm' => beq_iff_eq.mpr (hsame m' hm')
            dsimp only [WriteOp.specify]
            rw [hall, hkept, Kept.ofRecords_messages]
          · intro c' hne
            have hnone : (m :: ms).filter (·.conversationId == c') = [] :=
              List.filter_eq_nil_iff.mpr fun m' hm' he =>
                hne ((beq_iff_eq.mp he).symm.trans (hsame m' hm'))
            dsimp only [WriteOp.specify]
            rw [hnone, List.append_nil]
  | insertDetections c ds =>
      rcases h.records (hids _ hop) hop with ⟨records, hholds, hrecords, hkept⟩
      by_cases hds : ds = []
      · have hsame : WriteOp.specify A (.insertDetections c ds) = A := by
          rw [WriteOp.specify, hds, List.append_nil]
          exact Function.update_eq_self c A
        rw [hsame, hds]
        exact h
      · rcases hholds.insertDetections D hds with ⟨st', happly, hone, hholds'⟩
        rw [WriteOp.apply, happly]
        refine h.write (hids _ hop) hop hone hholds' (mem_reads_append hrecords hreads) ?_
          fun c' hne => Function.update_of_ne hne _ _
        rw [WriteOp.specify, Function.update_self, hkept, Kept.ofRecords_detections]
  | saveVault c seed vs =>
      rcases h.records (hids _ hop) hop with ⟨records, hholds, hrecords, hkept⟩
      rcases hholds.saveVault D seed vs with ⟨st', happly, hone, hholds'⟩
      rw [WriteOp.apply, happly]
      refine h.write (hids _ hop) hop hone hholds' (fun r hr => ?_) ?_
        fun c' hne => Function.update_of_ne hne _ _
      · rcases mem_saveRecord _ records r hr with rfl | hr
        · exact hreads _ List.mem_cons_self
        · exact hrecords r hr
      · rw [WriteOp.specify, Function.update_self, hkept, Kept.ofRecords_saveRecord]

/-- The ids of inserted conversations are of one length. -/
theorem WriteOp.Allowed.ids {op : WriteOp} (hop : op.Allowed inserted)
    (hids : ∀ c ∈ inserted, c.length = 36) : ∀ c ∈ op.inserted inserted, c.length = 36 := by
  cases op with
  | insertConversation now conv => exact List.forall_mem_cons.mpr ⟨hop.1, hids⟩
  | _ => exact hids

/-- Any writes in order, on both sides. -/
theorem Represents.run : ∀ (ops : List WriteOp) (st : LogStore) (A : Str → Kept)
    (inserted : List Str), Represents J st A inserted → (∀ c ∈ inserted, c.length = 36) →
    InOrder inserted ops → (∀ op ∈ ops, ∀ r ∈ op.records, r.Reads J) →
    ∃ inserted', Represents J (ops.foldl (fun st op => op.apply J D st) st)
      (ops.foldl WriteOp.specify A) inserted' := by
  intro ops
  induction ops with
  | nil => exact fun st A inserted h _ _ _ => ⟨inserted, h⟩
  | cons op ops ih =>
      intro st A inserted h hids horder hreads
      rcases horder with ⟨hop, horder⟩
      exact ih _ _ _ (h.apply D hids op hop (hreads op List.mem_cons_self)) (hop.ids hids) horder
        fun o ho => hreads o (List.mem_cons_of_mem _ ho)

variable (J)

/-- The store after writes into a new directory. -/
def LogStore.after (ops : List WriteOp) : LogStore :=
  ops.foldl (fun st op => op.apply J D st) .new

/-- The map after the same writes. -/
def Kept.after (ops : List WriteOp) : Str → Kept := ops.foldl WriteOp.specify fun _ => .empty

/-- The readers return what is kept of a conversation, and a vault in the form
    it is stored in. -/
structure Answers (st : LogStore) (convId : Str) (kept : Kept) : Prop where
  messages : st.getMessages J D convId = (some kept.messages, st)
  detections : ∀ messageId, st.loadDetections J D convId messageId =
    (some (kept.detections.filter fun d => messageId.all fun mid => d.messageId == mid), st)
  vault : st.loadVault J D convId =
    (some (kept.vault.map fun p => (p.1, p.2.map VaultRecord.stored)), st)
  requests : st.countRequestMessages J D convId =
    (kept.messages.countP fun m => m.direction == lit "request", st)

/-- After any writes in order, whatever their texts, the readers return what the
    map has, as long as the parser reads back what was printed. -/
theorem store_refines (ops : List WriteOp) (horder : InOrder [] ops)
    (hreads : ∀ op ∈ ops, ∀ r ∈ op.records, r.Reads J) (convId : Str)
    (hid : convId.length = 36) :
    Answers J D (LogStore.after J D ops) convId (Kept.after ops convId) := by
  rcases (represents_new J).run D ops _ _ _ (fun c hc => absurd hc List.not_mem_nil) horder
    hreads with ⟨inserted, h⟩
  have h : Represents J (LogStore.after J D ops) (Kept.after ops) inserted := h
  rcases h convId hid with ⟨_, records, hholds, hrecords, hkept⟩ | ⟨_, habsent, hkept⟩
  · rw [hkept]
    exact ⟨hholds.getMessages D hrecords, hholds.loadDetections D hrecords,
      hholds.loadVault D hrecords, hholds.countRequestMessages D hrecords⟩
  · rw [hkept]
    refine ⟨habsent.readFile D _ _, fun _ => habsent.readFile D _ _, habsent.readFile D _ _, ?_⟩
    rw [LogStore.countRequestMessages, habsent.readFile]
    rfl

end Refinement

/-- A message whose text has a line feed and the vault's marker. -/
def markedMessage : Message where
  id := lit "m1"
  conversationId := mondayConversation.id
  direction := lit "request"
  timestamp := lit "t"
  role := some (lit "user")
  content := lit "a\n\"type\":\"vault\""
  tokensIn := none
  tokensOut := some 7
  contentMasked := none
  piiProcessed := some true

/-- A detection whose text has the marker of detections in it. -/
def markedDetection : MessageDetection :=
  ⟨lit "m1", lit "name", lit "\"type\":\"detection\"", lit "s", 1, F32.one⟩

/-- A mapping whose original is the vault's marker. -/
def markedRecord : VaultRecord where
  original := vaultMarker
  synthetic := lit "s"
  piiType := .custom (lit "name")
  tier := 1
  confidence := F32.one
  tokenId := []
  displayValue := lit "s"

/-- The writes of a conversation whose texts have markers in them. -/
def markedWrites : List WriteOp :=
  [.insertConversation monday mondayConversation, .batchInsertMessages [markedMessage],
    .saveVault mondayConversation.id 7 [], .insertDetections mondayConversation.id [markedDetection],
    .saveVault mondayConversation.id 7 [markedRecord]]

/-- Texts with line feeds, quotes and markers are found for what they are. -/
theorem store_refines_markers :
    Answers (.ofRecords (markedWrites.flatMap WriteOp.records)) .keys
      (LogStore.after (.ofRecords (markedWrites.flatMap WriteOp.records)) .keys markedWrites)
      mondayConversation.id ⟨[markedMessage], [markedDetection], some (7, [markedRecord])⟩ := by
  have hreads := reads_ofRecords (markedWrites.flatMap WriteOp.records) (by decide) (by decide)
  exact store_refines _ .keys markedWrites (by decide) (fun op hop r hr =>
    hreads r (List.mem_flatMap.mpr ⟨op, hop, hr⟩)) mondayConversation.id (by decide)

end Storage

end PrivacyClaw
