import PrivacyClaw.Theory.Service

/-!
# Vaults Survive the Log

A vault that is saved into the log of its conversation and loaded again
answers like before: the same synthetics, rows and restored texts, and the
same values for new originals.

The log is text. Every writer ends what it writes with a line feed, so the log
is a sequence of lines whatever was written (`LogFile.lines_eq`), and saving
keeps it one. The line of the vault is found by searching for a marker. Which
lines have it does not matter: the line that is replaced is the first with the
marker, so the new one is, and where there is none the new one is the only
one (`find_vaultLine`).

The crate's parser is trusted with one thing, that it reads back what was
printed.

## Main definitions

* `logText`: A log with the given lines.
* `LogFile`: What the store's writers make of a log.
* `PiiVault.persisted`: The form a vault is saved in.
* `VaultJson.ofVault`, `sampleLog`: A parser for one vault, and a log.

## Theorems

* `lines_logText`: The lines of a log.
* `toStr_line`, `toStr_marker`: A saved vault is one line, with the marker.
* `LogFile.text`: A log is always whole lines.
* `find_vaultLine`: The vault line is found after it was written.
* `saveVault_loadVault`: Saving and loading.
* `core_survives`: A vault comes back with its mappings.
* `core_survives_earlier_line`: A log that holds an earlier vault.
-/

namespace PrivacyClaw

/-- The text of a log with the given lines. -/
def logText (ls : List Str) : Str := ls.flatMap fun l => l ++ lit "\n"

/-- A line as `lines` hands it out, without a carriage return at its end. -/
def stripCr (l : Str) : Str := if l.getLast? = some 13 then l.dropLast else l

theorem logText_cons (l : Str) (ls : List Str) : logText (l :: ls) = l ++ 10 :: logText ls := by
  rw [logText, List.flatMap_cons, List.append_assoc]
  rfl

theorem logText_append (ls ls' : List Str) : logText (ls ++ ls') = logText ls ++ logText ls' :=
  List.flatMap_append

theorem logText_singleton (l : Str) : logText [l] = l ++ lit "\n" := by
  rw [logText, List.flatMap_cons, List.flatMap_nil, List.append_nil]

/-- The first line break ends the current line. -/
theorem linesFrom_line : ∀ (l acc s : Str), 10 ∉ l →
    linesFrom acc (l ++ 10 :: s) = stripCr (acc ++ l) :: linesFrom [] s := by
  intro l
  induction l with
  | nil =>
      intro acc s _
      rw [List.nil_append, linesFrom, if_pos rfl, List.append_nil]
      rfl
  | cons c l ih =>
      intro acc s hl
      have hc : c ≠ 10 := fun he => hl (by rw [he]; exact List.mem_cons_self)
      rw [List.cons_append, linesFrom, if_neg hc, ih _ _ (fun h => hl (List.mem_cons_of_mem _ h)),
        List.append_assoc]
      rfl

theorem lines_logText : ∀ ls : List Str, (∀ l ∈ ls, 10 ∉ l) →
    lines (logText ls) = ls.map stripCr := by
  intro ls
  induction ls with
  | nil => intro _; rfl
  | cons l ls ih =>
      intro hls
      have hrest := ih fun l' hl' => hls l' (List.mem_cons_of_mem _ hl')
      unfold lines at hrest ⊢
      rw [logText_cons, linesFrom_line l [] _ (hls l List.mem_cons_self), hrest]
      rfl

theorem stripCr_front (l : Str) : stripCr l <+: l := by
  unfold stripCr
  split
  · exact List.dropLast_prefix l
  · exact List.prefix_refl l

/-- Lines joined by line feeds, with one at the end, are a log. -/
theorem intercalate_logText : ∀ ls : List Str, ls ≠ [] →
    List.intercalate (lit "\n") ls ++ lit "\n" = logText ls := by
  intro ls
  induction ls with
  | nil => intro hne; exact absurd rfl hne
  | cons l ls ih =>
      intro _
      cases ls with
      | nil =>
          rw [logText_singleton, List.intercalate, List.intersperse_singleton, List.flatten_cons,
            List.flatten_nil, List.append_nil]
      | cons l' ls =>
          rw [logText_cons, ← ih (List.cons_ne_nil _ _), List.intercalate,
            List.intersperse_cons_cons, List.flatten_cons, List.flatten_cons, List.append_assoc,
            List.append_assoc]
          rfl

/-- A text in which no line feed stands loses exactly the one put behind it. -/
theorem trimEndMatches_line (l : Str) (hl : 10 ∉ l) : trimEndMatches 10 (l ++ lit "\n") = l := by
  have hrev : (l ++ lit "\n").reverse = 10 :: l.reverse := by
    rw [List.reverse_append]
    rfl
  have hdrop : (10 :: l.reverse).dropWhile (· == (10 : UInt8)) = l.reverse := by
    rw [List.dropWhile_cons_of_pos (by decide)]
    cases hr : l.reverse with
    | nil => rfl
    | cons c r =>
        have hmem : c ∈ l := by
          rw [← List.mem_reverse, hr]
          exact List.mem_cons_self
        have hc : (c == (10 : UInt8)) = false := by
          rw [beq_eq_false_iff_ne]
          intro he
          exact hl (he ▸ hmem)
        rw [List.dropWhile_cons_of_neg (by rw [hc]; exact Bool.false_ne_true)]
  rw [trimEndMatches, hrev, hdrop, List.reverse_reverse]

/-- A printed string has no line feed: it is escaped. -/
theorem quoted_line (s : Str) : 10 ∉ Value.quoted s := by
  -- one character at a time
  have hone : ∀ n : Fin 256, 10 ∉ Value.quoted [UInt8.ofNat n] := by decide +kernel
  intro hmem
  unfold Value.quoted at hmem hone
  simp only [List.mem_append, List.mem_flatMap] at hmem
  rcases hmem with (hq | ⟨b, _, hb⟩) | hq
  · exact absurd hq (by decide)
  · have h1 := hone ⟨b.toNat, b.toNat_lt⟩
    simp only [UInt8.ofNat_toNat, List.mem_append, List.flatMap_cons, List.flatMap_nil,
      List.append_nil, not_or] at h1
    exact h1.1.2 hb
  · exact absurd hq (by decide)

theorem decimal_line (n : Nat) : 10 ∉ decimal n := fun h =>
  absurd (decimal_digit n _ h) (by decide)

theorem compactItems_line : ∀ vs : List Value, (∀ v ∈ vs, 10 ∉ v.compact) →
    10 ∉ Value.compactItems vs := by
  intro vs
  induction vs with
  | nil => intro _; exact List.not_mem_nil
  | cons v vs ih =>
      intro hvs hmem
      have hv := hvs v List.mem_cons_self
      cases vs with
      | nil =>
          rw [Value.compactItems] at hmem
          exact hv hmem
      | cons w vs =>
          rw [Value.compactItems] at hmem
          simp only [List.mem_append] at hmem
          rcases hmem with (hmem | hmem) | hmem
          · exact hv hmem
          · exact absurd hmem (by decide)
          · exact ih (fun x hx => hvs x (List.mem_cons_of_mem _ hx)) hmem

theorem compactFields_line : ∀ fs : List (Str × Value), (∀ f ∈ fs, 10 ∉ f.2.compact) →
    10 ∉ Value.compactFields fs := by
  intro fs
  induction fs with
  | nil => intro _; exact List.not_mem_nil
  | cons f fs ih =>
      intro hfs hmem
      rcases f with ⟨k, v⟩
      have hv : 10 ∉ v.compact := hfs (k, v) List.mem_cons_self
      have hk := quoted_line k
      -- The last field has no comma behind it.
      cases fs with
      | nil =>
          rw [Value.compactFields] at hmem
          simp only [List.mem_append] at hmem
          rcases hmem with (hmem | hmem) | hmem
          · exact hk hmem
          · exact absurd hmem (by decide)
          · exact hv hmem
      | cons g fs =>
          rw [Value.compactFields] at hmem
          simp only [List.mem_append] at hmem
          rcases hmem with (((hmem | hmem) | hmem) | hmem) | hmem
          · exact hk hmem
          · exact absurd hmem (by decide)
          · exact hv hmem
          · exact absurd hmem (by decide)
          · exact ih (fun x hx => hfs x (List.mem_cons_of_mem _ hx)) hmem

theorem object_line (fs : List (Str × Value)) (hfs : ∀ f ∈ fs, 10 ∉ f.2.compact) :
    10 ∉ (Value.object fs).compact := by
  intro hmem
  rw [Value.compact] at hmem
  simp only [List.mem_append] at hmem
  rcases hmem with (hmem | hmem) | hmem
  · exact absurd hmem (by decide)
  · exact compactFields_line fs hfs hmem
  · exact absurd hmem (by decide)

namespace VaultJson

variable (j : VaultJson)

/-- A printed row has no line feed. -/
theorem rowValue_line (r : StoredVaultRecord) : 10 ∉ (j.rowValue r).compact := by
  have hstring : ∀ s, 10 ∉ (Value.string s).compact := fun s => by
    rw [Value.compact]
    exact quoted_line s
  refine object_line _ fun f hf => ?_
  simp only [optional, List.mem_append, List.mem_cons, List.not_mem_nil, or_false, List.mem_map,
    Option.mem_toList] at hf
  rcases hf with ((((rfl | rfl | rfl) | ⟨t, _, rfl⟩) | ⟨c, _, rfl⟩) | ⟨t, _, rfl⟩) | ⟨d, _, rfl⟩
  · exact hstring _
  · exact hstring _
  · exact hstring _
  · rw [Value.compact]
    exact decimal_line _
  · rw [Value.compact]
    exact j.formatF32_line c
  · exact hstring t
  · exact hstring d

/-- A saved vault is printed on one line. -/
theorem toStr_line (p : PersistedVault) : 10 ∉ j.toStr p := by
  refine object_line _ fun f hf => ?_
  simp only [List.mem_cons, List.not_mem_nil, or_false] at hf
  rcases hf with rfl | rfl | rfl
  · rw [Value.compact]
    exact quoted_line _
  · rw [Value.compact]
    exact decimal_line _
  · intro hmem
    rw [Value.compact] at hmem
    simp only [List.mem_append] at hmem
    rcases hmem with (hmem | hmem) | hmem
    · exact absurd hmem (by decide)
    · refine compactItems_line _ (fun v hv => ?_) hmem
      rcases List.mem_map.mp hv with ⟨r, _, rfl⟩
      exact j.rowValue_line r
    · exact absurd hmem (by decide)

/-- The printed vault starts with its type, so it has the marker, and it ends
    with a brace. -/
theorem toStr_marker (p : PersistedVault) (hp : p.recordType = lit "vault") :
    contains vaultMarker (j.toStr p) = true ∧ stripCr (j.toStr p) = j.toStr p := by
  have hshape : ∃ rest, j.toStr p = lit "\x7b" ++ vaultMarker ++ rest ++ lit "\x7d" := by
    have htype : Value.quoted (lit "type") ++ lit ":" ++ Value.quoted (lit "vault") =
        vaultMarker := by decide
    refine ⟨lit "," ++ Value.compactFields [(lit "rng_seed", .number (decimal p.rngSeed.toNat)),
      (lit "mappings", .array (p.mappings.map j.rowValue))], ?_⟩
    rw [toStr, Value.compact, Value.compactFields, Value.compact, hp, htype]
    simp only [List.append_assoc]
  rcases hshape with ⟨rest, hshape⟩
  constructor
  · rw [contains, Option.isSome_iff_ne_none, ne_eq, Search.find_eq_none_iff, not_not, hshape]
    exact ⟨lit "\x7b", rest ++ lit "\x7d", by simp only [List.append_assoc]⟩
  · rw [stripCr, if_neg ?_]
    have hlast : (lit "\x7d").getLast? = some 125 := by decide
    rw [hshape, List.getLast?_append, hlast, Option.some_or]
    decide

end VaultJson

/-- What the store's writers make of a log: a conversation starts it, messages
    and detections are appended as lines, and the vault is saved. -/
inductive LogFile (j : VaultJson) : Str → Prop where
  | created (line : Str) : 10 ∉ line → LogFile j (line ++ lit "\n")
  | appended (content line : Str) : LogFile j content → 10 ∉ line →
      LogFile j (content ++ (line ++ lit "\n"))
  | saved (content : Str) (p : PersistedVault) : LogFile j content →
      LogFile j (replaceVaultLine content (j.toStr p ++ lit "\n"))

/-- In a log of whole lines the vault line replaces one of them or comes
    last. Before it stand lines without the marker. -/
theorem replaceVaultLine_cases (ls : List Str) (hls : ∀ l ∈ ls, 10 ∉ l) (line : Str)
    (hline : 10 ∉ line) :
    ∃ before after, replaceVaultLine (logText ls) (line ++ lit "\n") =
        logText (before ++ line :: after) ∧ (∀ l ∈ before ++ line :: after, 10 ∉ l) ∧
      ∀ l ∈ before, contains vaultMarker (stripCr l) = false := by
  have hstrip : ∀ l, 10 ∉ l → 10 ∉ stripCr l := fun l hl hmem =>
    hl ((stripCr_front l).subset hmem)
  -- a prefix has the marker only if the line has it
  have hprefix : ∀ l, contains vaultMarker l = false → contains vaultMarker (stripCr l) = false := by
    intro l hl
    rw [contains, Option.isSome_eq_false_iff, Option.isNone_iff_eq_none,
      Search.find_eq_none_iff] at hl ⊢
    exact fun hin => hl (hin.trans (stripCr_front l).isInfix)
  unfold replaceVaultLine
  rw [lines_logText ls hls]
  dsimp only
  have hall : ∀ l ∈ ls.map stripCr, 10 ∉ l := by
    intro l hl
    rcases List.mem_map.mp hl with ⟨l', hl', rfl⟩
    exact hstrip l' (hls l' hl')
  cases hidx : (ls.map stripCr).findIdx? (contains vaultMarker) with
  | none =>
      refine ⟨ls, [], ?_, ?_, ?_⟩
      · rw [logText_append, logText_singleton]
      · intro l hl
        rcases List.mem_append.mp hl with hl | hl
        · exact hls l hl
        · rw [List.mem_singleton.mp hl]
          exact hline
      · intro l hl
        rw [List.findIdx?_eq_none_iff] at hidx
        exact hidx _ (List.mem_map.mpr ⟨l, hl, rfl⟩)
  | some i =>
      rw [List.findIdx?_eq_some_iff_getElem] at hidx
      rcases hidx with ⟨hi, _, hfirst⟩
      refine ⟨(ls.map stripCr).take i, (ls.map stripCr).drop (i + 1), ?_, ?_, ?_⟩
      · dsimp only
        rw [trimEndMatches_line line hline, List.set_eq_take_append_cons_drop, if_pos hi,
          intercalate_logText _ (by simp only [ne_eq, List.append_eq_nil_iff, reduceCtorEq,
            and_false, not_false_eq_true])]
      · intro l hl
        rcases List.mem_append.mp hl with hl | hl
        · exact hall l (List.mem_of_mem_take hl)
        · rcases List.mem_cons.mp hl with rfl | hl
          · exact hline
          · exact hall l (List.mem_of_mem_drop hl)
      · intro l hl
        rcases List.mem_iff_getElem.mp hl with ⟨k, hk, rfl⟩
        rw [List.length_take] at hk
        rw [List.getElem_take]
        refine hprefix _ ?_
        have := hfirst k (by omega)
        rw [Bool.not_eq_true] at this
        exact this

/-- A log is always a sequence of whole lines. -/
theorem LogFile.text {j : VaultJson} {content : Str} (hlog : LogFile j content) :
    ∃ ls, content = logText ls ∧ ∀ l ∈ ls, 10 ∉ l := by
  induction hlog with
  | created line hline =>
      refine ⟨[line], (logText_singleton line).symm, fun l hl => ?_⟩
      rw [List.mem_singleton.mp hl]
      exact hline
  | appended content line _ hline ih =>
      rcases ih with ⟨ls, rfl, hls⟩
      refine ⟨ls ++ [line], by rw [logText_append, logText_singleton], fun l hl => ?_⟩
      rcases List.mem_append.mp hl with hl | hl
      · exact hls l hl
      · rw [List.mem_singleton.mp hl]
        exact hline
  | saved content p _ ih =>
      rcases ih with ⟨ls, rfl, hls⟩
      rcases replaceVaultLine_cases ls hls _ (j.toStr_line p) with ⟨before, after, htext, hnone, _⟩
      exact ⟨_, htext, hnone⟩

/-- After a vault was written into a log, its line is the one that is found. -/
theorem find_vaultLine (j : VaultJson) (content : Str) (hlog : LogFile j content)
    (p : PersistedVault) (hp : p.recordType = lit "vault") :
    (lines (replaceVaultLine content (j.toStr p ++ lit "\n"))).find? (contains vaultMarker) =
      some (j.toStr p) := by
  rcases hlog.text with ⟨ls, rfl, hls⟩
  rcases replaceVaultLine_cases ls hls _ (j.toStr_line p) with
    ⟨before, after, htext, hnone, hbefore⟩
  rcases j.toStr_marker p hp with ⟨hmarker, hstrip⟩
  rw [htext, lines_logText _ hnone, List.map_append, List.map_cons, List.find?_append, hstrip,
    List.find?_cons_of_pos hmarker, List.find?_eq_none.mpr, Option.none_or]
  intro l hl
  rcases List.mem_map.mp hl with ⟨l', hl', rfl⟩
  rw [hbefore l' hl']
  exact Bool.false_ne_true

/-- The form a vault is saved in. -/
def PiiVault.persisted (v : PiiVault) : PersistedVault :=
  ⟨lit "vault", v.rngSeed, v.toRecords.map VaultRecord.stored⟩

/-- A vault saved into a log is what is loaded from it. -/
theorem saveVault_loadVault (j : VaultJson) (st : Store) (convId path content : Str)
    (hpath : st.convFilePath convId = some path) (hfile : st.files.lookup path = some content)
    (hlog : LogFile j content) (v : PiiVault)
    (hround : j.fromStr (j.toStr v.persisted) = some v.persisted) :
    ∃ st', st.saveVault j convId v.rngSeed v.toRecords = some st' ∧
      st'.loadVault j convId =
        some (some (v.rngSeed, v.toRecords.map VaultRecord.stored)) := by
  refine ⟨⟨st.convFilePath, st.files.insert path
    (replaceVaultLine content (j.toStr v.persisted ++ lit "\n"))⟩, ?_, ?_⟩
  · unfold Store.saveVault
    rw [hpath]
    dsimp only
    rw [hfile]
    rfl
  -- The line that was written is the one that is found.
  · unfold Store.loadVault
    dsimp only
    rw [hpath]
    dsimp only
    rw [AList.lookup_insert]
    simp only [Option.bind_eq_bind, Option.bind_some,
      find_vaultLine j content hlog v.persisted rfl, hround, Option.map_some]
    rfl

section Survival

variable (R : Rand) (C : Chrono) (h : Hashes)

/-- Any vault of any run, saved into the log of a conversation and loaded from
    it, gives a vault with the same synthetics, the same rows, the same
    restored texts and the same longest key, and the generator goes on with the
    same values. -/
theorem core_survives {s : Service} (hrun : Reachable R C h s) (v : PiiVault)
    (hv : v ∈ s.registry.handles) (j : VaultJson) (st : Store) (convId path content : Str)
    (hpath : st.convFilePath convId = some path) (hfile : st.files.lookup path = some content)
    (hlog : LogFile j content) (hround : j.fromStr (j.toStr v.persisted) = some v.persisted) :
    ∃ st' seed rows w, st.saveVault j convId v.rngSeed v.toRecords = some st' ∧
      st'.loadVault j convId = some (some (seed, rows)) ∧
      w = PiiVault.fromRecords convId seed (rows.map StoredVaultRecord.record) ∧
      (∀ o, w.getSynthetic o = v.getSynthetic o) ∧ w.quints = v.quints ∧
      (∀ text, w.replaceSynthetics text = v.replaceSynthetics text) ∧
      w.maxSyntheticKeyLen = v.maxSyntheticKeyLen ∧
      ∀ o ty locale tier conf, (getOrCreate R C w o ty locale tier conf).map Prod.fst =
        (getOrCreate R C v o ty locale tier conf).map Prod.fst := by
  have hwf := (Reachable.wellFormed R C h hrun).1 v hv
  rcases saveVault_loadVault j st convId path content hpath hfile hlog v hround with
    ⟨st', hsave, hload⟩
  have hsame := hwf.sameRows_restored convId
  have hwf' := hwf.restored convId v.rngSeed
  rw [← v.record_stored] at hsame hwf'
  exact ⟨st', v.rngSeed, _, _, hsave, hload, rfl, hsame.getSynthetic_eq hwf hwf', hsame.quints_eq,
    hsame.replaceSynthetics_eq hwf hwf', hsame.maxSyntheticKeyLen_eq hwf hwf',
    hsame.getOrCreate_eq hwf hwf' R C⟩

end Survival

/-- A parser that knows one vault by its printed form only. The confidence it
    prints is the one of the first and the third tier. -/
def VaultJson.ofVault (p : PersistedVault) : VaultJson :=
  let format : F32 → Str := fun x => if x = F32.one then lit "1.0" else lit "null"
  have hformat : ∀ x, 10 ∉ format x := fun x => by
    unfold format
    split
    · decide
    · decide
  ⟨format, hformat, fun line => if line = toStr ⟨format, hformat, fun _ => none⟩ p then some p
    else none⟩

theorem VaultJson.ofVault_round (p : PersistedVault) :
    (ofVault p).fromStr ((ofVault p).toStr p) = some p :=
  if_pos rfl

/-- A conversation's line, an earlier vault without mappings, and a message. -/
def sampleLog (j : VaultJson) : Str :=
  replaceVaultLine (lit "\x7b\"id\":\"c\"\x7d" ++ lit "\n")
      (j.toStr ⟨lit "vault", 7, []⟩ ++ lit "\n") ++
    (lit "\x7b\"role\":\"user\"\x7d" ++ lit "\n")

/-- The merged vault of a conversation replaces an earlier one in the log, and
    comes back. -/
theorem core_survives_earlier_line :
    ∃ s v st' seed rows w,
      ServiceOp.run Rand.least Chrono.none sampleHashes mergedSession Service.new = some s ∧
      s.registry.vault (lit "c") = some v ∧
      Store.saveVault (.ofVault v.persisted)
        ⟨fun _ => some (lit "c.ndjson"),
          (∅ : StrMap).insert (lit "c.ndjson") (sampleLog (.ofVault v.persisted))⟩
        (lit "c") v.rngSeed v.toRecords = some st' ∧
      st'.loadVault (.ofVault v.persisted) (lit "c") = some (some (seed, rows)) ∧
      w = PiiVault.fromRecords (lit "c") seed (rows.map StoredVaultRecord.record) ∧
      w.quints = v.quints ∧ w.getSynthetic (lit "John Smith") = some (lit "Alice") := by
  have hget : ((ServiceOp.run Rand.least Chrono.none sampleHashes mergedSession Service.new).bind
      fun s => (s.registry.vault (lit "c")).map fun v => v.getSynthetic (lit "John Smith")) =
      some (some (lit "Alice")) := by decide
  rw [Option.bind_eq_some_iff] at hget
  rcases hget with ⟨s, hrun, hget⟩
  rcases Option.map_eq_some_iff.mp hget with ⟨v, hv, hget⟩
  have hlog : LogFile (.ofVault v.persisted) (sampleLog (.ofVault v.persisted)) :=
    .appended _ _ (.saved _ _ (.created _ (by decide))) (by decide)
  rcases core_survives Rand.least Chrono.none sampleHashes
      (Reachable.run _ _ _ mergedSession _ s Runs.start hrun) v
      (VaultRegistry.mem_handles s.registry (lit "c") v hv) (.ofVault v.persisted)
      ⟨fun _ => some (lit "c.ndjson"),
        (∅ : StrMap).insert (lit "c.ndjson") (sampleLog (.ofVault v.persisted))⟩
      (lit "c") (lit "c.ndjson") _ rfl (AList.lookup_insert _) hlog
      (VaultJson.ofVault_round v.persisted) with
    ⟨st', seed, rows, w, hsave, hload, hw, hsyn, hquints, _⟩
  exact ⟨s, v, st', seed, rows, w, hrun, hv, hsave, hload, hw, hquints, by rw [hsyn, hget]⟩

end PrivacyClaw
