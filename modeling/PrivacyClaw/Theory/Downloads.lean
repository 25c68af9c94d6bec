import PrivacyClaw.Core.Models
import PrivacyClaw.Lib.Machine

/-!
# The Model Directory across Downloads

What a sequence of background downloads leaves in the directory.

A download that fails should leave the directory with the files it had, and
one that succeeds should leave its model downloaded. Neither is what happens
in general: the file that is written bears the name in the URL, and what is
removed after a failure and looked for after a success bears the id. A partial
file is left behind, a model that was there under its id is removed, and a
finished download is not found.

So the directory comes out right by coincidence only, and
`downloadConsistent_iff` says when. A failed download must have found its
file there already, if it came to creating it, and no file under the id. A
successful one must have found a file under the id.

## Main definitions

* `downloadStep`: Downloads one after the other.
* `DownloadConsistent`: The directory comes out right.
* `Checked`: The response passes the check of its digest.
* `DownloadHarmless`: What has to be there before the download.

## Theorems

* `startBackgroundDownload_before`, `startBackgroundDownload_during`,
  `startBackgroundDownload_complete`: What a download does.
* `downloadConsistent_iff`: When one download leaves the directory right.
* `downloads_consistent_iff`: When every one of a sequence does.
* `downloads_consistent_twice`: A sequence that does.
* `downloads_inconsistent`: One that does not.
-/

namespace PrivacyClaw

section Downloads

variable (h : Hashes) (resolve : Str → Str)

/-- Downloads one after the other: the id and what happens to the transfer. -/
def downloadStep (d : Str × Outcome) (files : StrMap) : Option StrMap :=
  some (startBackgroundDownload h resolve d.1 d.2 files).2

/-- A failed download leaves the files there were, and after a successful one
    the model is downloaded. -/
def DownloadConsistent (files : StrMap) (d : Str × Outcome) : Prop :=
  ((startBackgroundDownload h resolve d.1 d.2 files).1 = .ok () →
    isDownloaded resolve (startBackgroundDownload h resolve d.1 d.2 files).2 d.1) ∧
  ∀ e, (startBackgroundDownload h resolve d.1 d.2 files).1 = .error e →
    ∀ name, name ∈ (startBackgroundDownload h resolve d.1 d.2 files).2 ↔ name ∈ files

/-- A response that passes the check of its digest. -/
def Checked (info : ModelInfo) (chunks : List Str) : Prop :=
  info.sha256 = [] ∨ hexDigest (h.sha256 chunks.flatten).toList = info.sha256

instance (info : ModelInfo) (chunks : List Str) : Decidable (Checked h info chunks) :=
  inferInstanceAs (Decidable (_ ∨ _))

/-- What has to be there before a download: no file under the id, and if the
    file comes to be created, that file; before a download whose response
    passes the check, a file under the id. -/
def DownloadHarmless (files : StrMap) (d : Str × Outcome) : Prop :=
  match catalogEntry d.1, d.2 with
  | none, _ => isDownloaded resolve files d.1 = false
  | some _, .before _ => isDownloaded resolve files d.1 = false
  | some info, .during _ _ =>
    resolve (urlFilename info.url d.1) ∈ files ∧ isDownloaded resolve files d.1 = false
  | some info, .complete chunks =>
    if Checked h info chunks then isDownloaded resolve files d.1 = true
    else resolve (urlFilename info.url d.1) ∈ files ∧ isDownloaded resolve files d.1 = false

instance (files : StrMap) (d : Str × Outcome) : Decidable (DownloadHarmless h resolve files d) := by
  unfold DownloadHarmless
  split <;> infer_instance

/-- The file system tells the file a URL names from the two files of its id. -/
def Distinguishes : Prop :=
  ∀ info ∈ catalog, resolve (urlFilename info.url info.id) ≠ resolve (ggufName info.id) ∧
    resolve (urlFilename info.url info.id) ≠ resolve (onnxName info.id)

/-- The files without the two of an id. -/
def withoutModel (files : StrMap) (id : Str) : StrMap :=
  (files.erase (resolve (ggufName id))).erase (resolve (onnxName id))

theorem catalogEntry_mem (modelId : Str) (info : ModelInfo)
    (hentry : catalogEntry modelId = some info) : info ∈ catalog ∧ info.id = modelId := by
  have hid := List.find?_some hentry
  exact ⟨List.mem_of_find?_eq_some hentry, eq_of_beq hid⟩

/-- Every entry of the catalog has a URL. -/
theorem catalog_url : ∀ info ∈ catalog, info.url.isEmpty = false := by decide

/-- A download that does not come to creating its file only cleans up. -/
theorem startBackgroundDownload_before (modelId : Str) (outcome : Outcome) (files : StrMap)
    (hout : catalogEntry modelId = none ∨ ∃ i, outcome = .before i) :
    ∃ e, startBackgroundDownload h resolve modelId outcome files =
      (.error e, withoutModel resolve files modelId) := by
  unfold startBackgroundDownload downloadWithProgress
  cases hentry : catalogEntry modelId with
  | none => exact ⟨_, rfl⟩
  | some info =>
      have hurl := catalog_url info (catalogEntry_mem modelId info hentry).1
      rcases hout with hnone | ⟨i, rfl⟩
      · rw [hentry] at hnone
        exact absurd hnone (by simp only [reduceCtorEq, not_false_eq_true])
      · simp only [hurl, Bool.false_eq_true, if_false]
        exact ⟨_, rfl⟩

/-- A download that fails behind some chunks cleans up next to its file. -/
theorem startBackgroundDownload_during (modelId : Str) (info : ModelInfo) (chunks : List Str)
    (i : Interruption) (files : StrMap) (hentry : catalogEntry modelId = some info) :
    ∃ e, startBackgroundDownload h resolve modelId (.during chunks i) files = (.error e,
      withoutModel resolve
        (files.insert (resolve (urlFilename info.url modelId)) chunks.flatten) modelId) := by
  have hurl := catalog_url info (catalogEntry_mem modelId info hentry).1
  unfold startBackgroundDownload downloadWithProgress
  simp only [hentry, hurl, Bool.false_eq_true, if_false]
  exact ⟨_, rfl⟩

/-- A download whose response ends succeeds or fails with its digest. -/
theorem startBackgroundDownload_complete (modelId : Str) (info : ModelInfo) (chunks : List Str)
    (files : StrMap) (hentry : catalogEntry modelId = some info) :
    (Checked h info chunks ∧ startBackgroundDownload h resolve modelId (.complete chunks) files =
      (.ok (), files.insert (resolve (urlFilename info.url modelId)) chunks.flatten)) ∨
    (¬ Checked h info chunks ∧
      ∃ e, startBackgroundDownload h resolve modelId (.complete chunks) files = (.error e,
        withoutModel resolve
          (files.insert (resolve (urlFilename info.url modelId)) chunks.flatten) modelId)) := by
  have hurl := catalog_url info (catalogEntry_mem modelId info hentry).1
  have hiff : (!info.sha256.isEmpty &&
      hexDigest (h.sha256 chunks.flatten).toList != info.sha256) = true ↔
      ¬ Checked h info chunks := by
    rw [Bool.and_eq_true, Bool.not_eq_true', bne_iff_ne, Checked, not_or,
      ← List.isEmpty_iff, Bool.not_eq_true]
  unfold startBackgroundDownload downloadWithProgress
  simp only [hentry, hurl, Bool.false_eq_true, if_false]
  by_cases hc : Checked h info chunks
  · rw [if_neg (mt hiff.mp (not_not.mpr hc))]
    exact Or.inl ⟨hc, rfl⟩
  · rw [if_pos (hiff.mpr hc)]
    exact Or.inr ⟨hc, _, rfl⟩

theorem mem_withoutModel (files : StrMap) (id name : Str) :
    name ∈ withoutModel resolve files id ↔
      name ≠ resolve (onnxName id) ∧ name ≠ resolve (ggufName id) ∧ name ∈ files := by
  rw [withoutModel, AList.mem_erase, AList.mem_erase]

theorem isDownloaded_eq_false_iff (files : StrMap) (id : Str) :
    isDownloaded resolve files id = false ↔
      resolve (ggufName id) ∉ files ∧ resolve (onnxName id) ∉ files := by
  rw [isDownloaded, Bool.or_eq_false_iff, decide_eq_false_iff_not, decide_eq_false_iff_not]

/-- Removing the files of an id changes nothing exactly when there are none. -/
theorem withoutModel_same_iff (files : StrMap) (id : Str) :
    (∀ name, name ∈ withoutModel resolve files id ↔ name ∈ files) ↔
      isDownloaded resolve files id = false := by
  rw [isDownloaded_eq_false_iff]
  constructor
  · intro hsame
    constructor
    · intro hmem
      exact ((mem_withoutModel resolve files id _).mp ((hsame _).mpr hmem)).2.1 rfl
    · intro hmem
      exact ((mem_withoutModel resolve files id _).mp ((hsame _).mpr hmem)).1 rfl
  · rintro ⟨hgguf, honnx⟩ name
    rw [mem_withoutModel]
    refine ⟨fun hm => hm.2.2, fun hm => ⟨?_, ?_, hm⟩⟩
    · rintro rfl
      exact honnx hm
    · rintro rfl
      exact hgguf hm

/-- With the file of the URL written, removing the files of the id leaves the
    files there were exactly when that file was there and those were not. -/
theorem withoutModel_insert_same_iff (hresolve : Distinguishes resolve) (files : StrMap)
    (id content : Str) (info : ModelInfo) (hentry : catalogEntry id = some info) :
    (∀ name, name ∈ withoutModel resolve
        (files.insert (resolve (urlFilename info.url id)) content) id ↔ name ∈ files) ↔
      resolve (urlFilename info.url id) ∈ files ∧ isDownloaded resolve files id = false := by
  rcases catalogEntry_mem id info hentry with ⟨hinfo, rfl⟩
  rcases hresolve info hinfo with ⟨hne1, hne2⟩
  rw [← withoutModel_same_iff]
  have hmem : ∀ name, name ∈ withoutModel resolve
      (files.insert (resolve (urlFilename info.url info.id)) content) info.id ↔
      name = resolve (urlFilename info.url info.id) ∨
        name ∈ withoutModel resolve files info.id := by
    intro name
    rw [mem_withoutModel, mem_withoutModel, AList.mem_insert]
    constructor
    · rintro ⟨h1, h2, h3 | h3⟩
      · exact Or.inl h3
      · exact Or.inr ⟨h1, h2, h3⟩
    · rintro (rfl | ⟨h1, h2, h3⟩)
      · exact ⟨hne2, hne1, Or.inl rfl⟩
      · exact ⟨h1, h2, Or.inr h3⟩
  simp only [hmem]
  -- the file of the URL is one of those that are left
  constructor
  · intro hsame
    have hdest := (hsame _).mp (Or.inl rfl)
    refine ⟨hdest, fun name => ⟨fun hm => (hsame name).mp (Or.inr hm), fun hm => ?_⟩⟩
    rcases (hsame name).mpr hm with rfl | hm
    · exact (mem_withoutModel resolve files info.id _).mpr ⟨hne2, hne1, hdest⟩
    · exact hm
  · rintro ⟨hdest, hsame⟩ name
    refine ⟨?_, fun hm => Or.inr ((hsame name).mpr hm)⟩
    rintro (rfl | hm)
    · exact hdest
    · exact (hsame name).mp hm

/-- Writing the file of the URL does not make the model downloaded. -/
theorem isDownloaded_insert (hresolve : Distinguishes resolve) (files : StrMap)
    (id content : Str) (info : ModelInfo) (hentry : catalogEntry id = some info) :
    isDownloaded resolve (files.insert (resolve (urlFilename info.url id)) content) id =
      isDownloaded resolve files id := by
  rcases catalogEntry_mem id info hentry with ⟨hinfo, rfl⟩
  rcases hresolve info hinfo with ⟨hne1, hne2⟩
  unfold isDownloaded
  simp only [AList.mem_insert, hne1.symm, hne2.symm, false_or]

/-- The property of a download that fails, with the files it leaves. -/
theorem downloadConsistent_error (files files' : StrMap) (d : Str × Outcome) (e : Str)
    (heq : startBackgroundDownload h resolve d.1 d.2 files = (.error e, files')) :
    DownloadConsistent h resolve files d ↔ ∀ name, name ∈ files' ↔ name ∈ files := by
  unfold DownloadConsistent
  rw [heq]
  constructor
  · intro hall
    exact hall.2 e rfl
  · intro hsame
    exact ⟨fun hok => absurd hok (by simp only [reduceCtorEq, not_false_eq_true]),
      fun _ _ => hsame⟩

/-- One download leaves the directory right exactly when it finds what
    `DownloadHarmless` says. -/
theorem downloadConsistent_iff (hresolve : Distinguishes resolve) (files : StrMap)
    (d : Str × Outcome) :
    DownloadConsistent h resolve files d ↔ DownloadHarmless h resolve files d := by
  rcases d with ⟨id, outcome⟩
  cases hentry : catalogEntry id with
  | none =>
      rcases startBackgroundDownload_before h resolve id outcome files (Or.inl hentry) with ⟨e, he⟩
      rw [downloadConsistent_error h resolve files _ _ e he, withoutModel_same_iff]
      simp only [DownloadHarmless, hentry]
  | some info =>
      simp only [DownloadHarmless, hentry]
      cases outcome with
      | before i =>
          rcases startBackgroundDownload_before h resolve id (.before i) files
            (Or.inr ⟨i, rfl⟩) with ⟨e, he⟩
          rw [downloadConsistent_error h resolve files _ _ e he, withoutModel_same_iff]
      | during chunks i =>
          rcases startBackgroundDownload_during h resolve id info chunks i files hentry with ⟨e, he⟩
          rw [downloadConsistent_error h resolve files _ _ e he,
            withoutModel_insert_same_iff resolve hresolve files id _ info hentry]
      | complete chunks =>
          dsimp only
          rcases startBackgroundDownload_complete h resolve id info chunks files hentry with
            ⟨hc, he⟩ | ⟨hc, e, he⟩
          · -- what is looked for is not what was written
            rw [if_pos hc, DownloadConsistent, he,
              isDownloaded_insert resolve hresolve files id _ info hentry]
            constructor
            · intro hall
              exact hall.1 rfl
            · intro hd
              exact ⟨fun _ => hd, fun e he => absurd he
                (by simp only [reduceCtorEq, not_false_eq_true])⟩
          · rw [if_neg hc, downloadConsistent_error h resolve files _ _ e he,
              withoutModel_insert_same_iff resolve hresolve files id _ info hentry]

/-- Every download of a sequence leaves the directory right exactly when every
    one finds what `DownloadHarmless` says. -/
theorem downloads_consistent_iff (hresolve : Distinguishes resolve) (ds : List (Str × Outcome))
    (files : StrMap) :
    Machine.Along (downloadStep h resolve) (DownloadConsistent h resolve) ds files ↔
      Machine.Along (downloadStep h resolve) (DownloadHarmless h resolve) ds files :=
  Machine.along_congr (downloadConsistent_iff h resolve hresolve) ds files

end Downloads

/-- A file left by an earlier attempt, and two downloads that fail as well. -/
theorem downloads_consistent_twice :
    Machine.Along (downloadStep sampleHashes id) (DownloadConsistent sampleHashes id)
      [(lit "smollm2-135m", .during [lit "GGUF"] .cancelled),
        (lit "smollm2-135m", .complete [lit "GGUF", lit "!"])]
      ((∅ : StrMap).insert (lit "SmolLM2-135M-Instruct-Q4_K_M.gguf") (lit "GG")) := by
  refine (downloads_consistent_iff sampleHashes id (by unfold Distinguishes; decide) _ _).mpr
    ⟨by decide, fun files hfiles => ?_⟩
  rw [Option.mem_def, downloadStep, Option.some.injEq] at hfiles
  refine ⟨?_, fun _ _ => trivial⟩
  rw [← hfiles]
  decide

/-- From an empty directory: a download that is cancelled behind the first chunk
    leaves the file with the chunk. -/
theorem downloads_inconsistent :
    ¬ Machine.Along (downloadStep sampleHashes id) (DownloadConsistent sampleHashes id)
      [(lit "smollm2-135m", .during [lit "GGUF"] .cancelled)] ∅ := by
  rintro ⟨⟨_, hsame⟩, _⟩
  have hnew := (hsame _ rfl (lit "SmolLM2-135M-Instruct-Q4_K_M.gguf")).mp (by decide)
  exact absurd hnew (by decide)

end PrivacyClaw
