import Mathlib.Data.List.AList
import PrivacyClaw.Core.Sidecar

/-!
# Model Downloads

The catalog of language models, their background download and the tracker of
running downloads, from `src/models/mod.rs`.

Three places name a model's file. The download writes under the last segment
of the URL; the cleanup after a failure and the test for a downloaded model go
by the id. All three are kept as they are.

What happens to a transfer is decided outside the program: it may be
interrupted before the file is created or behind any chunk, by an error or by
cancellation, or run to the end of the response. The directory is the map of
the files it has. What a file name means is the file system's, which may take
two spellings for one file, so it is a parameter. Progress events are left out.

A registration in the tracker is the sender of a channel whose receiver the
task of the download holds; a sender is known by the number of its download.
Dropping a sender is what the receiver sees.

## Main definitions

* `ModelInfo`, `catalog`: The catalog.
* `isDownloaded`: The test for a downloaded model.
* `Interruption`, `Outcome`: What can happen to a transfer.
* `downloadWithProgress`, `startBackgroundDownload`: The download, and the task
  around it.
* `DownloadTracker`: The running downloads.
-/

namespace PrivacyClaw

/-- `ModelInfo`, with the fields a download uses. -/
structure ModelInfo where
  id : Str
  url : Str
  sha256 : Str
  deriving DecidableEq

/-- `catalog`. -/
def catalog : List ModelInfo :=
  [{ id := lit "smollm2-135m"
     url := lit ("https://huggingface.co/bartowski/SmolLM2-135M-Instruct-GGUF/resolve/main/" ++
       "SmolLM2-135M-Instruct-Q4_K_M.gguf")
     sha256 := lit "2e8040ceae7815abe0dcb3540b9995eaa1fa0d2ca9e797d0a635ae4433c68c2d" },
   { id := lit "qwen2.5-0.5b"
     url := lit ("https://huggingface.co/Qwen/Qwen2.5-0.5B-Instruct-GGUF/resolve/main/" ++
       "qwen2.5-0.5b-instruct-q4_k_m.gguf")
     sha256 := lit "a0ee18ee2bcb22c2b6c95360b292c2c40a2d7a03" },
   { id := lit "llama-3.2-1b"
     url := lit ("https://huggingface.co/bartowski/Llama-3.2-1B-Instruct-GGUF/resolve/main/" ++
       "Llama-3.2-1B-Instruct-Q4_K_M.gguf")
     sha256 := lit "ca7732416a22ac248814aadae1fb22505e475a92" },
   { id := lit "phi-3-mini-3.8b"
     url := lit ("https://huggingface.co/microsoft/Phi-3-mini-4k-instruct-gguf/resolve/main/" ++
       "Phi-3-mini-4k-instruct-q4.gguf")
     sha256 := lit "c72c1922442b8e09192da8d5e497a2738dec9d1b" }]

/-- The entry of an id. -/
def catalogEntry (modelId : Str) : Option ModelInfo := catalog.find? fun m => m.id == modelId

/-- The last segment of a URL, or the id where that is empty. -/
def urlFilename (url modelId : Str) : Str :=
  let segment := (url.reverse.takeWhile (· != 47)).reverse
  if segment.isEmpty then modelId else segment

/-- The GGUF file of an id. -/
def ggufName (id : Str) : Str := id ++ lit ".gguf"

/-- The ONNX file of an id. -/
def onnxName (id : Str) : Str := id ++ lit ".onnx"

/-- What keeps a transfer from its end. -/
inductive Interruption where
  | network (e : Str)
  | status (s : Str)
  | reading (e : Str)
  | io (e : Str)
  | cancelled

/-- The text of the error. -/
def Interruption.message : Interruption → Str
  | .network e => lit "Network error: " ++ e
  | .status s => lit "Server returned " ++ s
  | .reading e => lit "Error reading response: " ++ e
  | .io e => e
  | .cancelled => lit "download cancelled by user"

/-- What happens to a transfer: it is interrupted before its file is created,
    or behind some chunks, or the response ends. -/
inductive Outcome where
  | before (i : Interruption)
  | during (chunks : List Str) (i : Interruption)
  | complete (chunks : List Str)

section Download

variable (h : Hashes) (resolve : Str → Str)

/-- `is_downloaded`. -/
def isDownloaded (files : StrMap) (id : Str) : Bool :=
  resolve (ggufName id) ∈ files || resolve (onnxName id) ∈ files

/-- `download_with_progress`: its result and the files afterwards. Creating the
    file empties one that is there. -/
def downloadWithProgress (modelId : Str) (outcome : Outcome) (files : StrMap) :
    Except Str Unit × StrMap :=
  match catalogEntry modelId with
  | none => (.error (lit "Model '" ++ modelId ++ lit "' not found in catalog"), files)
  | some info =>
    if info.url.isEmpty then
      (.error (lit "Model '" ++ modelId ++ lit "' has no download URL configured"), files)
    else
      let dest := resolve (urlFilename info.url modelId)
      match outcome with
      | .before i => (.error i.message, files)
      | .during chunks i => (.error i.message, files.insert dest chunks.flatten)
      | .complete chunks =>
        let actual := hexDigest (h.sha256 chunks.flatten).toList
        if !info.sha256.isEmpty && actual != info.sha256 then
          (.error (lit "Checksum mismatch: expected " ++ info.sha256 ++ lit ", got " ++ actual),
            files.insert dest chunks.flatten)
        else (.ok (), files.insert dest chunks.flatten)

/-- The task of `start_background_download`: the files of the id are removed
    after an error. -/
def startBackgroundDownload (modelId : Str) (outcome : Outcome) (files : StrMap) :
    Except Str Unit × StrMap :=
  match downloadWithProgress h resolve modelId outcome files with
  | (.ok (), files) => (.ok (), files)
  | (.error e, files) =>
    (.error e, (files.erase (resolve (ggufName modelId))).erase (resolve (onnxName modelId)))

end Download

/-- `DownloadTracker`: the number of the sender registered under each id. -/
structure DownloadTracker where
  inner : AList (fun _ : Str => Nat)

namespace DownloadTracker

/-- `DownloadTracker::new`. -/
def new : DownloadTracker := ⟨∅⟩

/-- `register`: a sender registered before is dropped. -/
def register (t : DownloadTracker) (id : Str) (tx : Nat) : DownloadTracker :=
  ⟨t.inner.insert id tx⟩

/-- `cancel`: the sender is dropped. -/
def cancel (t : DownloadTracker) (id : Str) : DownloadTracker := ⟨t.inner.erase id⟩

/-- `is_downloading`. -/
def isDownloading (t : DownloadTracker) (id : Str) : Bool := id ∈ t.inner

/-- `complete`: as `cancel`, the registration is removed. -/
def complete (t : DownloadTracker) (id : Str) : DownloadTracker := ⟨t.inner.erase id⟩

end DownloadTracker

end PrivacyClaw
