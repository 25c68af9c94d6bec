import PrivacyClaw.Core.Pipeline

/-!
# The Entity Detector

`src/pii/tier2.rs` as it is with the `ort-ner` feature: a text is put behind a
list of labels, a model gives a score to each pair of tokens and each label, and
the pairs with a good score become spans.

The tokenizer and the model are parameters. What they return is not trusted with
anything: the tensor may have any shape and any numbers, and an offset may point
anywhere. The logistic function is a parameter as well, since it is computed in
floating point.

## Main definitions

* `Tensor`, `NerModel`: What the two crates return.
* `mapTokenOffset`: An offset in the prompt, as an offset in the text.
* `Tier2Detector`, `decodeSpans`: From scores to spans.
* `Tier2Detector.runInference`, `detectBatch`, `detect`: The detector.
-/

namespace PrivacyClaw

/-- `NER_LABELS` of `src/pii/mod.rs`. -/
def nerLabels : List Str :=
  ["person name", "organization", "location", "date of birth", "address"].map lit

/-- `BATCH_SIZE`. -/
def batchSize : Nat := 8

/-- `LABEL_SEPARATOR`. -/
def labelSeparator : Str := lit " << >> "

/-- `entity_labels.join(" ")`. -/
def joinLabels (labels : List Str) : Str := (lit " ").intercalate labels

/-- `text_byte_offset`: where the text begins in the prompt. -/
def textByteOffset (labels : List Str) : Nat :=
  (joinLabels labels).length + labelSeparator.length

/-- The prompt for a text. -/
def nerPrompt (labels : List Str) (text : Str) : Str :=
  joinLabels labels ++ labelSeparator ++ text

/-- `map_token_offset`. -/
def mapTokenOffset (rawStart rawEnd textByteOffset textLen : Nat) : Option (Nat × Nat) :=
  if rawStart < textByteOffset ∨ rawEnd ≤ textByteOffset then none
  else
    let start := rawStart - textByteOffset
    let stop := rawEnd - textByteOffset
    if start < stop ∧ stop ≤ textLen then some (start, stop) else none

/-- The tensor of a session: its shape, and the number at an index. -/
structure Tensor where
  shape : List Nat
  get : List Nat → Option F32

/-- The tokenizer and the session. The first argument numbers the calls: `none`
    is an error, and an inference may take longer than the timeout. -/
structure NerModel where
  offsets : Nat → Str → Option (List (Nat × Nat))
  run : Nat → Str → Option Tensor
  timesOut : Nat → Bool
  sigmoid : F32 → F32

/-- `f32::NEG_INFINITY`. -/
def F32.negInfinity : F32 := ⟨0xFF800000⟩

/-- `Tier2Detector`. -/
structure Tier2Detector where
  model : NerModel
  confidenceThreshold : F32

namespace Tier2Detector

variable (t : Tier2Detector)

/-- The score of two tokens for a label. -/
def probability (logits : Tensor) (label startTok endTok : Nat) : F32 :=
  t.model.sigmoid ((logits.get [0, startTok, endTok, label]).getD F32.negInfinity)

/-- The span of two tokens with a good score; a token without an offset is at
    zero. -/
def spanAt (logits : Tensor) (tokenOffsets : List (Nat × Nat)) (offset textLen : Nat)
    (labels : List Str) (label startTok endTok : Nat) : Option PiiSpan :=
  let prob := t.probability logits label startTok endTok
  if prob.ge t.confidenceThreshold then
    let rawStart := (tokenOffsets[startTok]?.map Prod.fst).getD 0
    let rawEnd := (tokenOffsets[endTok]?.map Prod.snd).getD 0
    (mapTokenOffset rawStart rawEnd offset textLen).map fun r =>
      ⟨r.1, r.2, .custom (labels.getD label []), prob, 2⟩
  else none

/-- The three loops over labels, first tokens and last tokens: a span has at most
    fifty tokens, and another layout of the tensor has none. -/
def candidates (logits : Tensor) (tokenOffsets : List (Nat × Nat)) (offset textLen : Nat)
    (labels : List Str) : List PiiSpan :=
  match logits.shape with
  | [_, d1, _, d3] =>
    (List.range (min labels.length d3)).flatMap fun label =>
      (List.range d1).flatMap fun startTok =>
        (List.range' startTok (min d1 (startTok + 50) - startTok)).filterMap fun endTok =>
          t.spanAt logits tokenOffsets offset textLen labels label startTok endTok
  | _ => []

/-- `decode_spans`: of spans that overlap, the one with the best score. -/
def decodeSpans (logits : Tensor) (text : Str) (labels : List Str)
    (tokenOffsets : List (Nat × Nat)) (offset : Nat) : List PiiSpan :=
  sortSpans ((sortByConfidence (t.candidates logits tokenOffsets offset text.length labels)).foldl
    (fun deduped span => if spansOverlap deduped span then deduped else deduped ++ [span]) [])

/-- A text of `run_inference`. -/
def inferText (call : Nat) (labels : List Str) (text : Str) : Option (List PiiSpan) := do
  let prompt := nerPrompt labels text
  let tokenOffsets ← t.model.offsets call prompt
  let logits ← t.model.run call prompt
  some (t.decodeSpans logits text labels tokenOffsets (textByteOffset labels))

/-- `run_inference`: the first error ends it. -/
def runInference (call : Nat) (texts labels : List Str) : Option (List (List PiiSpan)) :=
  texts.mapM (t.inferText call labels)

/-- `detect_batch`: with too many texts, the first ones. -/
def detectBatch (call : Nat) (texts labels : List Str) : Option (List (List PiiSpan)) :=
  if texts.isEmpty then some []
  else
    let texts := if batchSize < texts.length then texts.take batchSize else texts
    if t.model.timesOut call then some (texts.map fun _ => [])
    else t.runInference call texts labels

/-- `detect`, with what the pipeline makes of an error: no spans. -/
def detect (call : Nat) (text : Str) : List PiiSpan :=
  (((t.detectBatch call [text] nerLabels).map fun results => results.headD []).getD [])

end Tier2Detector

end PrivacyClaw
