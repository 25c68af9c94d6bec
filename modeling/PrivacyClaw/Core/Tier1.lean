import PrivacyClaw.Core.Pipeline

/-!
# The Pattern Detector

`src/pii/tier1.rs`: the spans that the patterns match, with those left out that
overlap one found before.

The regular expressions are run by the `fancy_regex` crate, so a pattern set is
its entity type, what the crate reports for a text, and its validator. A match may
be an error, which is passed over.

## Main definitions

* `PatternSet`, `findAll`: A pattern and its spans in a text.
* `collect`: The loop over the patterns.
* `Tier1Detector`, `detect`: The detector.
-/

namespace PrivacyClaw

/-- `PatternSet`: `findIter` is `Regex::find_iter`, with the offsets of each
    match, or `none` for an error. -/
structure PatternSet where
  entityType : PiiType
  findIter : Str → List (Option (Nat × Nat))
  validate : Option (Str → Bool)

/-- `PatternSet::find_all`. -/
def PatternSet.findAll (pat : PatternSet) (text : Str) : List PiiSpan :=
  (pat.findIter text).filterMap fun
    | none => none
    | some (start, stop) =>
      let valid := match pat.validate with
        | some f => f ((text.take stop).drop start)
        | none => true
      if valid then some ⟨start, stop, pat.entityType, F32.one, 1⟩ else none

/-- `Tier1Detector`, with its pattern tables. -/
structure Tier1Detector where
  universalPatterns : List PatternSet
  localePatterns : Locale → List PatternSet

namespace Tier1Detector

/-- The loop over a pattern table: a span that overlaps one found before is
    skipped. -/
def collect (text : Str) (patterns : List PatternSet) (spans : List PiiSpan) : List PiiSpan :=
  patterns.foldl (fun spans pat => (pat.findAll text).foldl
    (fun spans span => if spansOverlap spans span then spans else spans ++ [span]) spans) spans

/-- `Tier1Detector::detect`. -/
def detect (d : Tier1Detector) (text : Str) (locale : Locale) : List PiiSpan :=
  sortSpans (collect text (d.localePatterns locale) (collect text d.universalPatterns []))

end Tier1Detector

end PrivacyClaw
