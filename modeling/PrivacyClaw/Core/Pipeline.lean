import Mathlib.Data.List.Sort
import PrivacyClaw.Core.Parser
import PrivacyClaw.Core.Synth

/-!
# The Request Pipeline

`process_request_body_async` of `src/pii/mod.rs`: from a request body to the
body that goes upstream.

Phase 1 collects the message texts. Phase 2 looks at each of them without the
vault lock: Stage 1 lets the sidecar name replacements and writes their tokens
into the text, Stage 2 detects spans in the result and drops those that touch
a zone Stage 1 reported. Phase 3 holds the lock: for every text it enters the
Stage-1 replacements into the vault, replaces the Stage-2 spans by tokens and
writes the text back.

The detectors and the sidecar are parameters, and since a service may answer
one question differently the next time, they see the number of the call. The
vault may be written by others between the phases, so the mapping count that
Phase 2 reads for each text is an input of its own. An outer `none` is a
panic.

## Main definitions

* `collectMessageTexts`: Phase 1.
* `stage1`: The sidecar's replacements, written right to left.
* `detectSpansWithExclusions`, `mergeSpans`, `detectSpans`: Stage 2.
* `replaceWithSpansXml`: Spans to tokens, with the vault.
* `phase2`, `phase3Entry`, `phase3`: The phases.
* `processRequestBodyAsync`: The whole.
-/

namespace PrivacyClaw

/-- `MessageTextEntry`: a text, by message and part. -/
structure MessageTextEntry where
  msgIdx : Nat
  partIdx : Option Nat
  text : Str
  deriving DecidableEq, Repr

/-- The texts of one message element. -/
def collectMessage (msgIdx : Nat) (msg : Value) : List MessageTextEntry :=
  match msg.get (lit "content") with
  | none => []
  | some content =>
    match content.asStr with
    | some s => [⟨msgIdx, none, s⟩]
    | none =>
      match content.asArray with
      | some parts => parts.zipIdx.filterMap fun (part, partIdx) =>
          (textPart part).map fun s => ⟨msgIdx, some partIdx, s⟩
      | none => []

/-- `collect_message_texts`. -/
def collectMessageTexts (value : Value) (messagesField : Str) : List MessageTextEntry :=
  match value.getArray messagesField with
  | none => []
  | some msgs => msgs.zipIdx.flatMap fun (msg, msgIdx) => collectMessage msgIdx msg

/-- `ReplaceReplacement`: one entry of the sidecar's reply. -/
structure ReplaceReplacement where
  start : Nat
  stop : Nat
  displayValue : Str
  piiType : Str
  deriving DecidableEq, Repr

/-- The tuple Stage 1 records for a replacement. -/
structure Stage1Span where
  start : Nat
  stop : Nat
  displayValue : Str
  piiType : Str
  originalText : Str
  deriving DecidableEq, Repr

/-- `sorted.sort_by_key(|r| r.start)`: a stable sort. -/
def sortReplacements (rs : List ReplaceReplacement) : List ReplaceReplacement :=
  rs.insertionSort (fun a b => a.start ≤ b.start)

/-- `sorted.iter().position(|x| x.start == r.start).unwrap_or(0)`. -/
def positionOf (sorted : List ReplaceReplacement) (start : Nat) : Nat :=
  (sorted.findIdx? (fun x => x.start == start)).getD 0

/-- The token Stage 1 writes for a replacement. -/
def stage1Token (h : Hashes) (convId : Str) (baseIndex : Nat) (sorted : List ReplaceReplacement)
    (r : ReplaceReplacement) : Str :=
  xmlToken (generateTokenId h convId (baseIndex + positionOf sorted r.start)) r.displayValue

/-- The substitution loop over the replacements, last one first. -/
def substitute (h : Hashes) (convId : Str) (baseIndex : Nat) (sorted : List ReplaceReplacement) :
    List ReplaceReplacement → Str → Option (Str × List Stage1Span)
  | [], text => some (text, [])
  | r :: rest, text =>
    -- A span the text does not have is passed over and not recorded.
    if r.stop < r.start ∨ text.length < r.stop then
      substitute h convId baseIndex sorted rest text
    else do
      let originalText ← slice text r.start r.stop
      let xml := stage1Token h convId baseIndex sorted r
      let text ← replaceRange text r.start r.stop xml
      let (text, spans) ← substitute h convId baseIndex sorted rest text
      some (text,
        ⟨r.start, r.start + xml.length, r.displayValue, r.piiType, originalText⟩ :: spans)

/-- The zones handed to Stage 2, in the order the spans were recorded. -/
def exclusionZones (spans : List Stage1Span) : List (Nat × Nat) :=
  spans.map fun s => (s.start, s.stop)

/-- Stage 1 on a non-empty reply: the rewritten text and the recorded spans. -/
def stage1 (h : Hashes) (convId : Str) (baseIndex : Nat) (text : Str)
    (replacements : List ReplaceReplacement) : Option (Str × List Stage1Span) :=
  let sorted := sortReplacements replacements
  substitute h convId baseIndex sorted sorted.reverse text

/-- `detect_spans_with_exclusions`. -/
def detectSpansWithExclusions (spans : List PiiSpan) (zones : List (Nat × Nat)) : List PiiSpan :=
  if zones.isEmpty then spans
  else spans.filter fun span => zones.all fun (s, e) => span.stop ≤ s || e ≤ span.start

namespace F32

def isNan (x : F32) : Bool := 0x7F800000 < x.bits &&& 0x7FFFFFFF

/-- The place of a number in the order of floats; both zeros are zero. -/
def rank (x : F32) : Int :=
  let magnitude : Int := (x.bits &&& 0x7FFFFFFF).toNat
  if x.bits < 0x80000000 then magnitude else -magnitude

/-- `f32::partial_cmp`. -/
def partialCmp (x y : F32) : Option Ordering :=
  if x.isNan || y.isNan then none else some (compare x.rank y.rank)

/-- `x >= y`. -/
def ge (x y : F32) : Bool := !x.isNan && !y.isNan && decide (y.rank ≤ x.rank)

end F32

/-- `out.sort_by_key(|s| s.start)`: a stable sort. -/
def sortSpans (spans : List PiiSpan) : List PiiSpan :=
  spans.insertionSort (fun a b => a.start ≤ b.start)

/-- The sort of `merge_spans`, highest confidence first. -/
def sortByConfidence (spans : List PiiSpan) : List PiiSpan :=
  spans.insertionSort fun x y =>
    (y.confidence.partialCmp x.confidence).getD .eq ≠ .gt

/-- The overlap test of the detectors. -/
def spansOverlap (existing : List PiiSpan) (candidate : PiiSpan) : Bool :=
  existing.any fun s => s.start < candidate.stop && candidate.start < s.stop

/-- `merge_spans`. -/
def mergeSpans (a b : List PiiSpan) : List PiiSpan :=
  sortSpans ((sortByConfidence (a ++ b)).foldl
    (fun out span => if spansOverlap out span then out else out ++ [span]) [])

/-- The sidecar: the replies to `/replace`, and the indices a disambiguation
    confirms (`none` for a failed call or an unreadable answer). The first
    argument numbers the calls. -/
structure SlmSidecar where
  replace : Nat → Str → Str → Nat → Option (List ReplaceReplacement)
  confirm : Nat → Str → List PiiSpan → Option (List Nat)

/-- `SlmSidecar::disambiguate`. -/
def SlmSidecar.disambiguate (slm : SlmSidecar) (call : Nat) (text : Str)
    (candidates : List PiiSpan) : List PiiSpan :=
  if candidates.isEmpty then []
  else match slm.confirm call text candidates with
    | none => candidates
    | some indices => indices.filterMap (candidates[·]?)

/-- `PiiPipeline`, with the two detectors. -/
structure PiiPipeline where
  tier1 : Str → Locale → List PiiSpan
  tier2 : Option (Nat → Str → List PiiSpan)
  slm : Option SlmSidecar
  slmConfidenceThreshold : F32

/-- `detect_spans`. -/
def PiiPipeline.detectSpans (p : PiiPipeline) (call : Nat) (text : Str) (locale : Locale) :
    List PiiSpan :=
  let t1 := p.tier1 text locale
  let t2 := match p.tier2 with
    | some ner => ner call text
    | none => []
  let merged := mergeSpans t1 t2
  match p.slm with
  | none => merged
  | some slm =>
    let (high, low) := merged.partition fun s => s.confidence.ge p.slmConfidenceThreshold
    sortSpans (high ++ slm.disambiguate call text low)

/-- `PiiDetection`. -/
structure PiiDetection where
  entityType : Str
  original : Str
  synthetic : Str
  tier : UInt8
  confidence : F32
  deriving DecidableEq, Repr

/-- A span that was replaced: its number in the span list and what stood
    there. -/
structure Replaced where
  position : Nat
  span : PiiSpan
  original : Str
  displayValue : Str
  deriving DecidableEq, Repr

/-- The detection reported for a replaced span. -/
def Replaced.detection (r : Replaced) : PiiDetection :=
  ⟨r.span.entityType.label, r.original, r.displayValue, r.span.tier, r.span.confidence⟩

section Replace

variable (R : Rand) (C : Chrono) (h : Hashes)

/-- The loop of `replace_with_spans_xml` from span number `i` on; it returns
    the output from offset `last` on. A skipped span uses up its number. -/
def replaceSpansFrom (text : Str) (locale : Locale) (convId : Str) (baseIndex : Nat) :
    List PiiSpan → Nat → Nat → PiiVault → Option (Str × List Replaced × PiiVault)
  | [], _, last, v => do
    let tail ← slice text last text.length
    some (tail, [], v)
  | span :: spans, i, last, v =>
    if span.start < last ∨ text.length < span.stop then
      replaceSpansFrom text locale convId baseIndex spans (i + 1) last v
    else do
      let gap ← slice text last span.start
      let original ← slice text span.start span.stop
      -- What is a synthetic already is copied, and its number is used up too.
      if v.isSynthetic original then
        let (out, replaced, v) ←
          replaceSpansFrom text locale convId baseIndex spans (i + 1) span.stop v
        some (gap ++ original ++ out, replaced, v)
      else
        let (displayValue, v) ←
          getOrCreate R C v original span.entityType locale span.tier span.confidence
        let tokenId := generateTokenId h convId (baseIndex + i)
        let v := v.addMappingWithTokenId original displayValue tokenId span.entityType span.tier
          span.confidence
        let (out, replaced, v) ←
          replaceSpansFrom text locale convId baseIndex spans (i + 1) span.stop v
        some (gap ++ xmlToken tokenId displayValue ++ out,
          ⟨i, span, original, displayValue⟩ :: replaced, v)

/-- `replace_with_spans_xml`. -/
def replaceWithSpansXml (text : Str) (spans : List PiiSpan) (locale : Locale) (v : PiiVault)
    (convId : Str) (baseIndex : Nat) : Option (Str × List PiiDetection × PiiVault) := do
  let (out, replaced, v) ← replaceSpansFrom R C h text locale convId baseIndex spans 0 0 v
  some (out, replaced.map Replaced.detection, v)

/-- `EntryResult`. -/
structure EntryResult where
  replacedText : Str
  stage1Spans : List Stage1Span
  stage2Spans : List PiiSpan

/-- Stage 1 for a text: nothing without a sidecar, on a failed call or on an
    empty reply. -/
def PiiPipeline.runStage1 (p : PiiPipeline) (call : Nat) (convId : Str) (baseIndex : Nat)
    (text : Str) : Option (Str × List Stage1Span) :=
  match p.slm with
  | none => some (text, [])
  | some slm =>
    match slm.replace call text convId baseIndex with
    | none => some (text, [])
    | some replacements =>
      if replacements.isEmpty then some (text, [])
      else stage1 h convId baseIndex text replacements

/-- Phase 2 for one text; an inner `none` says that nothing was found. -/
def PiiPipeline.phase2 (p : PiiPipeline) (call : Nat) (convId : Str) (baseIndex : Nat)
    (locale : Locale) (text : Str) : Option (Option EntryResult) := do
  let (workingText, stage1Spans) ← p.runStage1 h call convId baseIndex text
  let allSpans := p.detectSpans call workingText locale
  let stage2Spans := detectSpansWithExclusions allSpans (exclusionZones stage1Spans)
  if stage1Spans.isEmpty && stage2Spans.isEmpty then some none
  else some (some ⟨workingText, stage1Spans, stage2Spans⟩)

/-- The vault writes for the Stage-1 spans, numbered from `j` in the order
    they were recorded. -/
def insertStage1 (convId : Str) (baseIndex : Nat) : List Stage1Span → Nat → PiiVault → PiiVault
  | [], _, v => v
  | s :: rest, j, v =>
    insertStage1 convId baseIndex rest (j + 1)
      (v.addMappingWithTokenId s.originalText s.displayValue
        (generateTokenId h convId (baseIndex + j)) (.custom s.piiType) 3 F32.one)

/-- The detections for the Stage-1 spans. -/
def stage1Detections (spans : List Stage1Span) : List PiiDetection :=
  spans.map fun s => ⟨s.piiType, s.originalText, s.displayValue, 3, F32.one⟩

/-- Phase 3 for one text, up to the write-back. -/
def phase3Entry (convId : Str) (baseIndex : Nat) (locale : Locale) (result : EntryResult)
    (v : PiiVault) : Option (Str × List PiiDetection × PiiVault) := do
  let v := insertStage1 h convId baseIndex result.stage1Spans 0 v
  let stage2Base := baseIndex + result.stage1Spans.length
  let (finalText, dets, v) ←
    replaceWithSpansXml R C h result.replacedText result.stage2Spans locale v convId stage2Base
  some (finalText, stage1Detections result.stage1Spans ++ dets, v)

/-- Writing a text back into its message; `none` where the walk ends early and
    nothing is written. -/
def writeBack (entry : MessageTextEntry) (finalText : Str) (msgs : List Value) :
    Option (List Value) :=
  match msgs[entry.msgIdx]? with
  | some (.object fields) =>
    -- A plain content is exchanged, in an array only the part's `text` field.
    match Value.lookupField (lit "content") fields, entry.partIdx with
    | none, _ => none
    | some _, none =>
      some (msgs.set entry.msgIdx
        (.object (Value.modifyField (lit "content") (fun _ => .string finalText) fields)))
    | some (.array parts), some pi =>
      match parts[pi]? with
      | some (.object part) =>
        let part := Value.object (Value.insertField (lit "text") (.string finalText) part)
        some (msgs.set entry.msgIdx
          (.object (Value.modifyField (lit "content") (fun _ => .array (parts.set pi part))
            fields)))
      | _ => none
    | some _, some _ => none
  | _ => none

/-- What Phase 3 carries from text to text. -/
structure Phase3State where
  vault : PiiVault
  msgs : List Value
  detections : List PiiDetection
  anyReplaced : Bool

/-- Phase 3 for one collected text. -/
def phase3Step (convId : Str) (baseIndex : Nat) (locale : Locale)
    (entry : MessageTextEntry) (result : Option EntryResult) (s : Phase3State) :
    Option Phase3State :=
  match result with
  | none => some s
  | some result => do
    let (finalText, dets, v) ← phase3Entry R C h convId baseIndex locale result s.vault
    let s := { s with vault := v, detections := s.detections ++ dets }
    -- The detections stay even where the text is not written back.
    if finalText = entry.text ∧ result.stage1Spans = [] then some s
    else match writeBack entry finalText s.msgs with
      | none => some s
      | some msgs => some { s with msgs := msgs, anyReplaced := true }

/-- The Phase-3 loop. -/
def phase3 (convId : Str) (baseIndex : Nat) (locale : Locale) :
    List (MessageTextEntry × Option EntryResult) → Phase3State → Option Phase3State
  | [], s => some s
  | (entry, result) :: rest, s => do
    let s ← phase3Step R C h convId baseIndex locale entry result s
    phase3 convId baseIndex locale rest s

/-- Phase 2 over all texts; `reads` gives the mapping count found for each. -/
def PiiPipeline.phase2All (p : PiiPipeline) (convId : Str) (reads : Nat → Nat) (locale : Locale) :
    List MessageTextEntry → Nat → Option (List (Option EntryResult))
  | [], _ => some []
  | entry :: rest, i => do
    let result ← p.phase2 h i convId (reads i) locale entry.text
    let results ← p.phase2All convId reads locale rest (i + 1)
    some (result :: results)

/-- `process_request_body_async`: `reads` are the mapping counts seen in
    Phase 2, `v` is the vault that Phase 3 locks. An outer `none` is a panic,
    an inner one leaves the body as it is. -/
def PiiPipeline.processRequestBodyAsync (p : PiiPipeline) (J : SerdeJson) (body : List UInt8)
    (reads : Nat → Nat) (v : PiiVault) (provider : Provider) (locale : Locale) :
    Option (Option (Str × List PiiDetection) × PiiVault) :=
  match J.fromSlice body with
  | none => some (none, v)
  | some value =>
    let field := provider.messagesField
    let entries := collectMessageTexts value field
    if entries.isEmpty then some (none, v)
    else do
      let convId := v.conversationId
      let results ← p.phase2All h convId reads locale entries 0
      -- Nothing found in any text: the body goes out as it came.
      if results.all Option.isNone then some (none, v)
      else match value, value.getArray field with
        | .object fields, some msgs => do
          let s ← phase3 R C h convId v.mappingCount locale (entries.zip results)
            ⟨v, msgs, [], false⟩
          if s.anyReplaced then
            let value := Value.object (Value.modifyField field (fun _ => .array s.msgs) fields)
            some (some (J.toStr value, s.detections), s.vault)
          else some (none, s.vault)
        | _, _ => some (none, v)

end Replace

end PrivacyClaw
