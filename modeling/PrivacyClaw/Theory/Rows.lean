import PrivacyClaw.Core.Registry
import PrivacyClaw.Lib.Writes
import PrivacyClaw.Theory.VaultInvariant

/-!
# A Vault's Rows

What restoring and merging do to a vault, row by row.

Both come down to entering rows one after the other without rebuilding the
automaton. A merge enters the rows of the other vault whose original is not
known, with their token ids left out, so it is an entering of rows like any
other (`foldl_mergeQuint_eq`), and one description of what rows add
(`Entered`) serves both.

A well-formed vault is determined by its rows as far as its mappings go: two
vaults with the same rows answer alike (`SameRows`).

## Main definitions

* `VaultRecord.shown`, `VaultRecord.indexed`: How a row enters the index maps.
* `PiiVault.Entered`: What entering rows does to a vault.
* `PiiVault.newRows`: The rows a merge enters.
* `PiiVault.Merged`: What a merge makes of the target.
* `PiiVault.SameRows`: Two vaults with the same rows.

## Theorems

* `entered_foldl`: Entering rows one by one.
* `WellFormed.fromRecords`: Rows with different originals give a well-formed
  vault.
* `foldl_mergeQuint_eq`: A merge enters the new rows.
* `WellFormed.mergeFrom`: Merging well-formed vaults.
* `WellFormed.restored`, `WellFormed.sameRows_restored`: A vault comes back
  well-formed with the same rows.
* `SameRows.getSynthetic_eq`, `SameRows.replaceSynthetics_eq`,
  `SameRows.maxSyntheticKeyLen_eq`, `SameRows.getOrCreate_eq`: The same rows
  give the same answers.
* `record_stored`: Rows survive the way to the disk and back.
-/

namespace PrivacyClaw

/-- The display value a row is indexed with. -/
def VaultRecord.shown (r : VaultRecord) : Str :=
  if r.displayValue.isEmpty then r.synthetic else r.displayValue

/-- The rows that enter the index maps: those with a token id. -/
def VaultRecord.indexed (rows : List VaultRecord) : List VaultRecord :=
  rows.filter fun r => !r.tokenId.isEmpty

namespace PiiVault

/-- `v'` is `v` with the rows entered; the automaton is not looked at. -/
structure Entered (v : PiiVault) (rows : List VaultRecord) (v' : PiiVault) : Prop where
  keys : v'.syntheticKeys = v.syntheticKeys ++ rows.map (·.synthetic)
  originals : v'.originalValues = v.originalValues ++ rows.map (·.original)
  labels : v'.piiTypeLabels = v.piiTypeLabels ++ rows.map (·.piiType.label)
  tiers : v'.tiers = v.tiers ++ rows.map (·.tier)
  confidences : v'.confidences = v.confidences ++ rows.map (·.confidence)
  tokenIds : v'.tokenIds = v.tokenIds ++ rows.map (·.tokenId)
  mapping : v'.originalToSynthetic =
    Writes.all v.originalToSynthetic (rows.map fun r => (r.original, r.synthetic))
  full : v'.fullTokenToOriginal = Writes.all v.fullTokenToOriginal
    ((VaultRecord.indexed rows).map fun r => (xmlToken r.tokenId r.shown, r.original))
  byId : v'.tokenIdToOriginal = Writes.all v.tokenIdToOriginal
    ((VaultRecord.indexed rows).map fun r => (r.tokenId, r.original))
  byDisplay : v'.displayValueToOriginal = Writes.all v.displayValueToOriginal
    ((VaultRecord.indexed rows).map fun r => (r.shown, r.original))
  seed : v'.rngSeed = v.rngSeed

namespace Entered

variable {v v' v'' : PiiVault} {rows rows' : List VaultRecord}

theorem refl (v : PiiVault) : Entered v [] v := by
  constructor <;>
    simp only [List.map_nil, List.append_nil, VaultRecord.indexed, List.filter_nil, Writes.all,
      List.foldl_nil]

theorem trans (h₁ : Entered v rows v') (h₂ : Entered v' rows' v'') :
    Entered v (rows ++ rows') v'' where
  keys := by rw [h₂.keys, h₁.keys, List.map_append, List.append_assoc]
  originals := by rw [h₂.originals, h₁.originals, List.map_append, List.append_assoc]
  labels := by rw [h₂.labels, h₁.labels, List.map_append, List.append_assoc]
  tiers := by rw [h₂.tiers, h₁.tiers, List.map_append, List.append_assoc]
  confidences := by rw [h₂.confidences, h₁.confidences, List.map_append, List.append_assoc]
  tokenIds := by rw [h₂.tokenIds, h₁.tokenIds, List.map_append, List.append_assoc]
  mapping := by rw [h₂.mapping, h₁.mapping, List.map_append, Writes.all_append]
  full := by
    rw [h₂.full, h₁.full, VaultRecord.indexed, VaultRecord.indexed, VaultRecord.indexed,
      List.filter_append, List.map_append, Writes.all_append]
  byId := by
    rw [h₂.byId, h₁.byId, VaultRecord.indexed, VaultRecord.indexed, VaultRecord.indexed,
      List.filter_append, List.map_append, Writes.all_append]
  byDisplay := by
    rw [h₂.byDisplay, h₁.byDisplay, VaultRecord.indexed, VaultRecord.indexed,
      VaultRecord.indexed, List.filter_append, List.map_append, Writes.all_append]
  seed := h₂.seed.trans h₁.seed

end Entered

/-- One row. -/
theorem entered_insertRecord (v : PiiVault) (r : VaultRecord) :
    Entered v [r] (v.insertRecord r) := by
  cases hid : r.tokenId.isEmpty with
  | true =>
      -- no token id: the index maps stay
      have hskip : VaultRecord.indexed [r] = [] := by
        simp only [VaultRecord.indexed, List.filter_cons, hid, Bool.not_true, Bool.false_eq_true,
          if_false, List.filter_nil]
      unfold insertRecord
      rw [hid]
      constructor <;> first | rfl | rw [hskip]; rfl
  | false =>
      have hkeep : VaultRecord.indexed [r] = [r] := by
        simp only [VaultRecord.indexed, List.filter_cons, hid, Bool.not_false, if_true,
          List.filter_nil]
      unfold insertRecord
      rw [hid]
      constructor <;> first | rfl | rw [hkeep]; rfl

/-- Rows entered one by one. -/
theorem entered_foldl : ∀ (rows : List VaultRecord) (v : PiiVault),
    Entered v rows (rows.foldl insertRecord v) := by
  intro rows
  induction rows with
  | nil => intro v; exact Entered.refl v
  | cons r rows ih => intro v; exact (entered_insertRecord v r).trans (ih _)

/-- Restoring enters the rows into an empty vault. -/
theorem entered_fromRecords (convId : Str) (seed : UInt64) (rows : List VaultRecord) :
    Entered (PiiVault.empty convId seed) rows (fromRecords convId seed rows) :=
  { entered_foldl rows (PiiVault.empty convId seed) with }

/-- A row of a merge, as a record without a token id. -/
def quintRecord (q : Str × Str × Str × UInt8 × F32) : VaultRecord :=
  ⟨q.1, q.2.1, .custom q.2.2.1, q.2.2.2.1, q.2.2.2.2, [], []⟩

/-- The rows a merge enters: those whose original is not known. -/
def newRows (v : PiiVault) (qs : List (Str × Str × Str × UInt8 × F32)) : List VaultRecord :=
  (qs.filter fun q => decide (q.1 ∉ v.originalToSynthetic)).map quintRecord

/-- Merging rows with different originals enters those that are new. -/
theorem foldl_mergeQuint_eq : ∀ (qs : List (Str × Str × Str × UInt8 × F32)) (v : PiiVault),
    (qs.map Prod.fst).Nodup → qs.foldl mergeQuint v = (newRows v qs).foldl insertRecord v := by
  intro qs
  induction qs with
  | nil => intro v _; rfl
  | cons q qs ih =>
      intro v hnodup
      rw [List.map_cons, List.nodup_cons] at hnodup
      rw [List.foldl_cons, ih _ hnodup.2]
      by_cases hq : q.1 ∈ v.originalToSynthetic
      · have hstep : mergeQuint v q = v := by rw [mergeQuint, if_pos hq]
        have hrows : newRows v (q :: qs) = newRows v qs := by
          simp only [newRows, List.filter_cons, hq, not_true_eq_false, decide_false,
            Bool.false_eq_true, if_false]
        rw [hstep, hrows]
      · have hstep : mergeQuint v q = v.insertRecord (quintRecord q) := by
          rw [mergeQuint, if_neg hq]
          rfl
        have hrows : newRows v (q :: qs) = quintRecord q :: newRows v qs := by
          simp only [newRows, List.filter_cons, hq, not_false_eq_true, decide_true, if_true,
            List.map_cons]
        -- the row just entered is none of the later ones
        have hlater : newRows (v.insertRecord (quintRecord q)) qs = newRows v qs := by
          unfold newRows
          refine congrArg _ (List.filter_congr fun q' hq' => ?_)
          have hne : q'.1 ≠ q.1 := fun he =>
            hnodup.1 (by rw [← he]; exact List.mem_map.mpr ⟨q', hq', rfl⟩)
          change decide (q'.1 ∉ v.originalToSynthetic.insert q.1 q.2.1) = _
          rw [decide_eq_decide, AList.mem_insert]
          exact ⟨fun hn hm => hn (Or.inr hm), fun hn hm => hm.elim hne hn⟩
        rw [hstep, hrows, List.foldl_cons, hlater]

/-- Merged rows carry no token id, so none of them is indexed. -/
theorem indexed_newRows (v : PiiVault) (qs : List (Str × Str × Str × UInt8 × F32)) :
    VaultRecord.indexed (newRows v qs) = [] := by
  refine List.filter_eq_nil_iff.mpr fun r hr => ?_
  rcases List.mem_map.mp hr with ⟨q, _, rfl⟩
  simp only [quintRecord, List.isEmpty_nil, Bool.not_true, Bool.false_eq_true, not_false_eq_true]

/-- What a merge makes of the target: rows behind its own, and united index
    maps. -/
structure Merged (v w v' : PiiVault) : Prop where
  keys : v'.syntheticKeys = v.syntheticKeys ++ (newRows v w.quints).map (·.synthetic)
  originals : v'.originalValues = v.originalValues ++ (newRows v w.quints).map (·.original)
  tokenIds : v'.tokenIds = v.tokenIds ++ (newRows v w.quints).map (·.tokenId)
  mapping : v'.originalToSynthetic = Writes.all v.originalToSynthetic
    ((newRows v w.quints).map fun r => (r.original, r.synthetic))
  full : v'.fullTokenToOriginal = v.fullTokenToOriginal ∪ w.fullTokenToOriginal
  byId : v'.tokenIdToOriginal = v.tokenIdToOriginal ∪ w.tokenIdToOriginal
  byDisplay : v'.displayValueToOriginal = v.displayValueToOriginal ∪ w.displayValueToOriginal

namespace WellFormed

variable {v : PiiVault}

/-- The index maps may be any that name stored originals. -/
theorem withIndex (hv : WellFormed v) (full byId byDisplay : StrMap)
    (hfull : ∀ k o, full.lookup k = some o → o ∈ v.originalToSynthetic)
    (hid : ∀ k o, byId.lookup k = some o → o ∈ v.originalToSynthetic)
    (hdisplay : ∀ k o, byDisplay.lookup k = some o → o ∈ v.originalToSynthetic) :
    WellFormed { v with
      fullTokenToOriginal := full
      tokenIdToOriginal := byId
      displayValueToOriginal := byDisplay } :=
  { hv with fullStored := hfull, idStored := hid, displayStored := hdisplay }

/-- Rebuilding the automaton of a well-formed vault changes nothing. -/
theorem rebuildAutomaton_eq (hv : WellFormed v) : v.rebuildAutomaton = v := by
  rw [PiiVault.rebuildAutomaton, ← hv.automaton]

/-- A row with a new original; as the automaton is rebuilt at the end only,
    what is kept is that a rebuild would be enough. -/
theorem insertRecord (hv : WellFormed v.rebuildAutomaton) (r : VaultRecord)
    (hnew : r.original ∉ v.originalToSynthetic) :
    WellFormed (v.insertRecord r).rebuildAutomaton := by
  have hins := hv.insert r.original r.synthetic r.piiType.label r.tier r.confidence r.tokenId hnew
  unfold PiiVault.insertRecord
  dsimp only
  split
  · exact hins
  · exact hins.index r.original _ _ _ ((AList.mem_insert _).mpr (Or.inl rfl))

/-- Rows with different originals, none of them known. -/
theorem foldl_insertRecord : ∀ (rows : List VaultRecord) (v : PiiVault),
    WellFormed v.rebuildAutomaton → (rows.map (·.original)).Nodup →
    (∀ r ∈ rows, r.original ∉ v.originalToSynthetic) →
    WellFormed (rows.foldl PiiVault.insertRecord v).rebuildAutomaton := by
  intro rows
  induction rows with
  | nil => intro v hv _ _; exact hv
  | cons r rows ih =>
      intro v hv hnodup hnew
      rw [List.map_cons, List.nodup_cons] at hnodup
      refine ih _ (hv.insertRecord r (hnew r List.mem_cons_self)) hnodup.2 ?_
      intro r' hr' hmem
      rw [(entered_insertRecord v r).mapping] at hmem
      rcases (AList.mem_insert _).mp hmem with he | hold
      · have he : r'.original = r.original := he
        exact hnodup.1 (by rw [← he]; exact List.mem_map.mpr ⟨r', hr', rfl⟩)
      · exact hnew r' (List.mem_cons_of_mem _ hr') hold

theorem fromRecords (convId : Str) (seed : UInt64) (rows : List VaultRecord)
    (hnodup : (rows.map (·.original)).Nodup) :
    WellFormed (PiiVault.fromRecords convId seed rows) :=
  foldl_insertRecord rows _ (empty convId seed) hnodup
    (fun r _ hmem => absurd (AList.lookup_isSome.mpr hmem) (by
      simp only [PiiVault.empty, AList.lookup_empty, Option.isSome_none, Bool.false_eq_true,
        not_false_eq_true]))

/-- The rows of a vault are its lists, side by side. -/
theorem toRecords_map (hv : WellFormed v) :
    v.toRecords.map (·.synthetic) = v.syntheticKeys ∧
      v.toRecords.map (·.original) = v.originalValues ∧
      v.toRecords.map (·.piiType.label) = v.piiTypeLabels ∧
      v.toRecords.map (·.tier) = v.tiers ∧ v.toRecords.map (·.confidence) = v.confidences ∧
      v.toRecords.map (·.tokenId) = v.tokenIds := by
  have h1 := hv.lengthOriginals
  have h2 := hv.lengthLabels
  have h3 := hv.lengthTiers
  have h4 := hv.lengthConfidences
  have h5 := hv.lengthTokenIds
  have hlen : v.toRecords.length = v.syntheticKeys.length := by
    simp only [toRecords, List.length_map, List.length_zip]
    omega
  -- a column of the zipped lists, place by place
  have hcol : ∀ {β : Type} (f : VaultRecord → β) (l : List β), l.length = v.syntheticKeys.length →
      (∀ (i : Nat) (hi : i < v.toRecords.length) (hl : i < l.length), f v.toRecords[i] = l[i]) →
      v.toRecords.map f = l := by
    intro β f l hl hget
    refine List.ext_getElem (by rw [List.length_map]; omega) fun i hi hi' => ?_
    rw [List.getElem_map]
    exact hget i _ hi'
  refine ⟨hcol _ _ rfl ?_, hcol _ _ h1 ?_, hcol _ _ h2 ?_, hcol _ _ h3 ?_, hcol _ _ h4 ?_,
    hcol _ _ h5 ?_⟩
  all_goals
    intro i hi hl
    simp only [toRecords, List.getElem_map, List.getElem_zip, PiiType.label]

/-- The originals of the quints are all of them. -/
theorem quints_map (hv : WellFormed v) : v.quints.map Prod.fst = v.originalValues := by
  have h1 := hv.lengthOriginals
  have h2 := hv.lengthLabels
  have h3 := hv.lengthTiers
  have h4 := hv.lengthConfidences
  refine List.ext_getElem ?_ fun i hi hi' => ?_
  · simp only [quints, List.length_map, List.length_zip]
    omega
  · simp only [quints, List.getElem_map, List.getElem_zip]

/-- A vault comes back from its rows well-formed. -/
theorem restored (hv : WellFormed v) (convId : Str) (seed : UInt64) :
    WellFormed (PiiVault.fromRecords convId seed v.toRecords) :=
  fromRecords convId seed _ (by rw [hv.toRecords_map.2.1]; exact hv.nodup)

/-- A vault that holds nothing has no rows. -/
theorem quints_eq_nil (hv : WellFormed v) (hempty : v.isEmpty = true) : v.quints = [] := by
  have hcount : v.mappingCount = 0 := by
    rw [isEmpty, beq_iff_eq] at hempty
    exact hempty
  have hkeys : v.syntheticKeys.length = 0 := by rw [← hv.count]; exact hcount
  have hmap := hv.quints_map
  rw [List.length_eq_zero_iff.mp (hv.lengthOriginals.trans hkeys), List.map_eq_nil_iff] at hmap
  exact hmap

/-- A merge in one form: enter the new rows, unite the index maps, rebuild. -/
theorem mergeFrom_eq {w : PiiVault} (hv : WellFormed v) (hw : WellFormed w) :
    v.mergeFrom w = (((newRows v w.quints).foldl PiiVault.insertRecord v).mergeIndexMapsFrom
      w).rebuildAutomaton := by
  have hrows := foldl_mergeQuint_eq w.quints v (by rw [hw.quints_map]; exact hw.nodup)
  unfold PiiVault.mergeFrom
  rw [← hrows]
  cases hempty : w.isEmpty with
  | false => rfl
  | true =>
      -- no rows: the automaton was up to date
      rw [hw.quints_eq_nil hempty, List.foldl_nil]
      change v.mergeIndexMapsFrom w = (v.rebuildAutomaton).mergeIndexMapsFrom w
      rw [hv.rebuildAutomaton_eq]

theorem merged {w : PiiVault} (hv : WellFormed v) (hw : WellFormed w) :
    Merged v w (v.mergeFrom w) := by
  have hrows := entered_foldl (newRows v w.quints) v
  have hfull := hrows.full
  have hid := hrows.byId
  have hdisplay := hrows.byDisplay
  rw [indexed_newRows] at hfull hid hdisplay
  rw [hv.mergeFrom_eq hw]
  -- what the rows make of the vault matters no further
  generalize (newRows v w.quints).foldl PiiVault.insertRecord v = u at *
  exact
    { keys := hrows.keys
      originals := hrows.originals
      tokenIds := hrows.tokenIds
      mapping := hrows.mapping
      full := congrArg (· ∪ w.fullTokenToOriginal) hfull
      byId := congrArg (· ∪ w.tokenIdToOriginal) hid
      byDisplay := congrArg (· ∪ w.displayValueToOriginal) hdisplay }

/-- The originals of both vaults are stored in the merged one. -/
theorem mem_mergeFrom {w : PiiVault} (hv : WellFormed v) (hw : WellFormed w) (o : Str)
    (ho : o ∈ v.originalToSynthetic ∨ o ∈ w.originalToSynthetic) :
    o ∈ (v.mergeFrom w).originalToSynthetic := by
  rw [(hv.merged hw).mapping, Writes.mem_all]
  by_cases hvo : o ∈ v.originalToSynthetic
  · exact Or.inl hvo
  · have how := (hw.mem_originals_iff o).mpr (ho.resolve_left hvo)
    rw [← hw.quints_map] at how
    rcases List.mem_map.mp how with ⟨q, hq, rfl⟩
    refine Or.inr ?_
    rw [List.map_map]
    refine List.mem_map.mpr ⟨quintRecord q, List.mem_map.mpr ⟨q, ?_, rfl⟩, rfl⟩
    exact List.mem_filter.mpr ⟨hq, by rw [decide_eq_true_eq]; exact hvo⟩

theorem mergeFrom {w : PiiVault} (hv : WellFormed v) (hw : WellFormed w) :
    WellFormed (v.mergeFrom w) := by
  have hnodup : ((newRows v w.quints).map (·.original)).Nodup := by
    rw [newRows, List.map_map]
    have hsub : ((w.quints.filter fun q => decide (q.1 ∉ v.originalToSynthetic)).map
        Prod.fst).Sublist (w.quints.map Prod.fst) :=
      List.Sublist.map _ List.filter_sublist
    rw [hw.quints_map] at hsub
    exact hsub.nodup hw.nodup
  have hnew : ∀ r ∈ newRows v w.quints, r.original ∉ v.originalToSynthetic := by
    intro r hr
    rcases List.mem_map.mp hr with ⟨q, hq, rfl⟩
    have := (List.mem_filter.mp hq).2
    rw [decide_eq_true_eq] at this
    exact this
  have hrows := foldl_insertRecord (newRows v w.quints) v
    (by rw [hv.rebuildAutomaton_eq]; exact hv) hnodup hnew
  have hmerged := hv.merged hw
  -- an entry of either side names an original that is stored now
  have hunion : ∀ m m' : StrMap, (∀ k o, m.lookup k = some o → o ∈ v.originalToSynthetic) →
      (∀ k o, m'.lookup k = some o → o ∈ w.originalToSynthetic) →
      ∀ k o, (m ∪ m').lookup k = some o → o ∈ (v.mergeFrom w).originalToSynthetic := by
    intro m m' hm hm' k o hk
    rcases AList.lookup_union_eq_some.mp hk with hk | ⟨_, hk⟩
    · exact hv.mem_mergeFrom hw o (Or.inl (hm k o hk))
    · exact hv.mem_mergeFrom hw o (Or.inr (hm' k o hk))
  have hfull := hunion _ _ hv.fullStored hw.fullStored
  have hid := hunion _ _ hv.idStored hw.idStored
  have hdisplay := hunion _ _ hv.displayStored hw.displayStored
  rw [← hmerged.full] at hfull
  rw [← hmerged.byId] at hid
  rw [← hmerged.byDisplay] at hdisplay
  rw [hv.mergeFrom_eq hw] at hfull hid hdisplay ⊢
  exact hrows.withIndex _ _ _ hfull hid hdisplay

end WellFormed

/-- Two vaults with the same rows and the same seed. -/
structure SameRows (v w : PiiVault) : Prop where
  keys : w.syntheticKeys = v.syntheticKeys
  originals : w.originalValues = v.originalValues
  labels : w.piiTypeLabels = v.piiTypeLabels
  tiers : w.tiers = v.tiers
  confidences : w.confidences = v.confidences
  tokenIds : w.tokenIds = v.tokenIds
  seed : w.rngSeed = v.rngSeed

/-- A vault restored from its rows and its seed has the same rows. -/
theorem WellFormed.sameRows_restored {v : PiiVault} (hv : WellFormed v) (convId : Str) :
    SameRows v (PiiVault.fromRecords convId v.rngSeed v.toRecords) := by
  have hent := entered_fromRecords convId v.rngSeed v.toRecords
  rcases hv.toRecords_map with ⟨h1, h2, h3, h4, h5, h6⟩
  exact
    { keys := hent.keys.trans h1
      originals := hent.originals.trans h2
      labels := hent.labels.trans h3
      tiers := hent.tiers.trans h4
      confidences := hent.confidences.trans h5
      tokenIds := hent.tokenIds.trans h6
      seed := hent.seed }

namespace SameRows

variable {v w : PiiVault}

theorem getSynthetic_eq (h : SameRows v w) (hv : WellFormed v) (hw : WellFormed w) (o : Str) :
    w.getSynthetic o = v.getSynthetic o := by
  refine Option.ext fun s => ?_
  rw [getSynthetic, getSynthetic, hw.mapping, hv.mapping, h.keys, h.originals]

theorem quints_eq (h : SameRows v w) : w.quints = v.quints := by
  rw [quints, quints, h.keys, h.originals, h.labels, h.tiers, h.confidences]

theorem toRecords_eq (h : SameRows v w) : w.toRecords = v.toRecords := by
  rw [toRecords, toRecords, h.keys, h.originals, h.labels, h.tiers, h.confidences, h.tokenIds]

theorem replaceSynthetics_eq (h : SameRows v w) (hv : WellFormed v) (hw : WellFormed w)
    (text : Str) : w.replaceSynthetics text = v.replaceSynthetics text := by
  rw [replaceSynthetics, replaceSynthetics, hw.automaton, hv.automaton, h.keys, h.originals]

/-- The longest key is the longest key on both sides. -/
theorem maxSyntheticKeyLen_eq (h : SameRows v w) (hv : WellFormed v) (hw : WellFormed w) :
    w.maxSyntheticKeyLen = v.maxSyntheticKeyLen := by
  have hle : ∀ {a b : PiiVault}, a.syntheticKeys = b.syntheticKeys → WellFormed a →
      WellFormed b → a.maxSyntheticKeyLen ≤ b.maxSyntheticKeyLen := by
    intro a b he ha hb
    rcases ha.maxLenAttained with hz | ⟨k, hk, hlen⟩
    · omega
    · rw [he] at hk
      have := hb.maxLen k hk
      omega
  exact Nat.le_antisymm (hle h.keys hw hv) (hle h.keys.symm hv hw)

theorem mappingCount_eq (h : SameRows v w) (hv : WellFormed v) (hw : WellFormed w) :
    w.mappingCount = v.mappingCount := by
  rw [hw.count, hv.count, h.keys]

/-- The seed and the count decide what is generated. -/
theorem getOrCreate_eq (h : SameRows v w) (hv : WellFormed v) (hw : WellFormed w) (R : Rand)
    (C : Chrono) (o : Str) (ty : PiiType) (locale : Locale) (tier : UInt8) (conf : F32) :
    (PrivacyClaw.getOrCreate R C w o ty locale tier conf).map Prod.fst =
      (PrivacyClaw.getOrCreate R C v o ty locale tier conf).map Prod.fst := by
  unfold PrivacyClaw.getOrCreate
  rw [h.getSynthetic_eq hv hw, freshSynthetic, freshSynthetic, h.seed, h.mappingCount_eq hv hw]
  cases v.getSynthetic o with
  | some s => rfl
  | none =>
      dsimp only
      cases generate R C ty o locale
        (R.seedFromU64 (v.rngSeed + UInt64.ofNat v.mappingCount)) <;> rfl

end SameRows

/-- A row survives the way to the disk and back. -/
theorem record_stored (v : PiiVault) : (v.toRecords.map VaultRecord.stored).map
    StoredVaultRecord.record = v.toRecords := by
  have hor : ∀ s : Str, (nonEmpty s).getD [] = s := by
    intro s
    cases s <;> rfl
  rw [List.map_map]
  refine (List.map_congr_left fun r hr => ?_).trans (List.map_id _)
  rcases List.mem_map.mp hr with ⟨row, _, rfl⟩
  simp only [Function.comp, VaultRecord.stored, StoredVaultRecord.record, hor, Option.getD_some,
    PiiType.label, id]

end PiiVault

end PrivacyClaw
