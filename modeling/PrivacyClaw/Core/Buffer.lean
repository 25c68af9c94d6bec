import PrivacyClaw.Core.Vault

/-!
# The Replacement Buffer

`src/pii/buffer.rs`: restoring originals in a response that arrives in
pieces.

The cascade restores one text. It looks for complete tokens, resolves each of
them by the whole token, by its id or by its display value, and hands the text
between tokens to `replaceSynthetics`. The buffer runs the cascade over what
it holds plus the new delta, and flushes the result up to a point behind
which a synthetic may still be growing; what it keeps is text that was
restored already.

The vault is shared with the request side, so each call gets the vault as it
is at that time. Every offset the functions slice at comes from a search for
an ASCII needle or from `findCharBoundary`, so they are total on bytes, except
where the automaton matches inside a character, which an empty synthetic does.
The functions whose names end in `Returns` say that this does not happen.

## Main definitions

* `xmlTokenOpen`, `xmlTokenClose`: The delimiters.
* `extractXmlAttr`, `extractXmlInner`: Reading a token.
* `restoreToken`: Levels 1 to 4 for one token.
* `applyXmlTokenCascade`: The cascade.
* `xmlTokenHoldbackPos`, `hasPrefixMatch`, `findCharBoundary`,
  `computeSafeFlushLen`: What may be flushed.
* `ReplacementBuffer`, `processDelta`, `flushRemaining`: The buffer.
* `processDeltas`: A whole response.
* `cascadeReturns`, `applyReturns`, `processDeltasReturn`: No slice panics.
-/

namespace PrivacyClaw

/-- `XML_TOKEN_OPEN`. -/
def xmlTokenOpen : Str := lit "<pii"

/-- `XML_TOKEN_CLOSE`. -/
def xmlTokenClose : Str := lit "</pii>"

/-- `extract_xml_attr`: what stands between `attr="` and the next quote. -/
def extractXmlAttr (token attr : Str) : Option Str := do
  let search := attr ++ lit "=\""
  let start ← Search.find search token
  let value := token.drop (start + search.length)
  let stop ← Search.find (lit "\"") value
  some (value.take stop)

/-- `extract_xml_inner`: what stands between the first `>` and the last
    `</`. -/
def extractXmlInner (token : Str) : Option Str := do
  let openEnd ← Search.find (lit ">") token
  let innerStart := openEnd + 1
  let closeStart ← Search.rfind (lit "</") token
  if closeStart < innerStart then none
  else some ((token.take closeStart).drop innerStart)

/-- Levels 1 to 4 for a complete token. The display value is only tried for a
    token that has an id. -/
def restoreToken (v : PiiVault) (token : Str) : Str :=
  match v.fullTokenToOriginal.lookup token with
  | some original => original
  | none =>
    match extractXmlAttr token (lit "id") with
    | none => token
    | some tokenId =>
      match v.getByTokenId tokenId with
      | some original => original
      | none =>
        match (extractXmlInner token).bind v.getByDisplayValue with
        | some original => original
        | none => token

/-- The loop of the cascade over the rest of the text. -/
def cascadeFrom (v : PiiVault) : Nat → Str → Str
  | 0, _ => []
  | _ + 1, [] => []
  | fuel + 1, c :: s =>
    let text := c :: s
    match Search.find xmlTokenOpen text with
    | none => (v.replaceSynthetics text).1
    | some openPos =>
      let before := if openPos = 0 then [] else (v.replaceSynthetics (text.take openPos)).1
      let fromOpen := text.drop openPos
      -- An opening tag that is never closed ends the loop: the rest stays as it is.
      match Search.find xmlTokenClose fromOpen with
      | none => before ++ fromOpen
      | some closePos =>
        let tokenEnd := closePos + xmlTokenClose.length
        before ++ restoreToken v (fromOpen.take tokenEnd) ++
          cascadeFrom v fuel (fromOpen.drop tokenEnd)

/-- `apply_xml_token_cascade`; every round of the loop passes a whole token, so
    the length of the text is fuel enough. -/
def applyXmlTokenCascade (text : Str) (v : PiiVault) : Str :=
  match Search.find xmlTokenOpen text with
  | none => (v.replaceSynthetics text).1
  | some _ => cascadeFrom v (text.length + 1) text

/-- Whether the loop of the cascade returns. -/
def cascadeReturns (v : PiiVault) : Nat → Str → Bool
  | 0, _ => true
  | _ + 1, [] => true
  | fuel + 1, c :: s =>
    let text := c :: s
    match Search.find xmlTokenOpen text with
    | none => v.replaceReturns text
    | some openPos =>
      let fromOpen := text.drop openPos
      (openPos == 0 || v.replaceReturns (text.take openPos)) &&
        match Search.find xmlTokenClose fromOpen with
        | none => true
        | some closePos => cascadeReturns v fuel (fromOpen.drop (closePos + xmlTokenClose.length))

/-- Whether `apply_xml_token_cascade` returns. -/
def applyReturns (text : Str) (v : PiiVault) : Bool :=
  match Search.find xmlTokenOpen text with
  | none => v.replaceReturns text
  | some _ => cascadeReturns v (text.length + 1) text

/-- `xml_token_holdback_pos`: the last `<pii`, if no `</pii>` follows it. -/
def xmlTokenHoldbackPos (text : Str) : Option Nat :=
  match Search.rfind xmlTokenOpen text with
  | none => none
  | some lastOpen =>
    match Search.find xmlTokenClose (text.drop lastOpen) with
    | some _ => none
    | none => some lastOpen

/-- `has_prefix_match`: a pair of adjacent bytes is a prefix, or the last byte
    starts one. -/
def hasPrefixMatch (prefixes : List (UInt8 × UInt8)) : Str → Bool
  | [] => false
  | [a] => prefixes.any fun p => p.1 == a
  | a :: b :: s => prefixes.contains (a, b) || hasPrefixMatch prefixes (b :: s)

/-- The loop of `find_char_boundary`. -/
def boundaryBelow (s : Str) : Nat → Nat
  | 0 => 0
  | p + 1 => if isCharBoundary s (p + 1) then p + 1 else boundaryBelow s p

/-- `find_char_boundary`. -/
def findCharBoundary (s : Str) (pos : Nat) : Nat := boundaryBelow s (min pos s.length)

/-- `compute_safe_flush_len`. -/
def computeSafeFlushLen (text : Str) (maxKeyLen : Nat) (prefixes : List (UInt8 × UInt8)) : Nat :=
  match xmlTokenHoldbackPos text with
  | some pos => pos
  | none =>
    if maxKeyLen < text.length then
      let tailStart := findCharBoundary text (text.length - maxKeyLen)
      -- Only the tail could still grow into a key.
      if hasPrefixMatch prefixes (text.drop tailStart) then tailStart else text.length
    else if hasPrefixMatch prefixes text then 0 else text.length

/-- `ReplacementBuffer`, without the vault handle. -/
structure ReplacementBuffer where
  buffer : Str
  triggerPrefixes : List (UInt8 × UInt8)
  cachedMappingCount : Nat
  deriving DecidableEq, Repr

namespace ReplacementBuffer

/-- `ReplacementBuffer::new`. -/
def new : ReplacementBuffer := ⟨[], [], 0⟩

/-- The refresh of the trigger prefixes: only when the mapping count moved. -/
def refresh (b : ReplacementBuffer) (v : PiiVault) : ReplacementBuffer :=
  if v.mappingCount = b.cachedMappingCount then b
  else { b with triggerPrefixes := v.syntheticKeyPrefixes, cachedMappingCount := v.mappingCount }

/-- `process_delta`: the text to forward, and the buffer after it. -/
def processDelta (b : ReplacementBuffer) (v : PiiVault) (incoming : Str) :
    Str × ReplacementBuffer :=
  if incoming.isEmpty then ([], b)
  else
    let b := { b with buffer := b.buffer ++ incoming }.refresh v
    -- With no mapping there is nothing to hold back for.
    if v.isEmpty then (b.buffer, { b with buffer := [] })
    else
      let processed := applyXmlTokenCascade b.buffer v
      let safeLen := computeSafeFlushLen processed v.maxSyntheticKeyLen b.triggerPrefixes
      if safeLen = 0 then ([], { b with buffer := processed })
      else
        let flushTo := findCharBoundary processed safeLen
        if isCharBoundary processed flushTo then
          (processed.take flushTo, { b with buffer := processed.drop flushTo })
        else ([], { b with buffer := processed })

/-- `flush_remaining`. -/
def flushRemaining (b : ReplacementBuffer) (v : PiiVault) : Str × ReplacementBuffer :=
  if b.buffer.isEmpty then ([], b)
  else (applyXmlTokenCascade b.buffer v, { b with buffer := [] })

/-- The texts forwarded for a sequence of deltas, joined, and the buffer after
    them. -/
def processDeltas (v : PiiVault) : List Str → ReplacementBuffer → Str × ReplacementBuffer
  | [], b => ([], b)
  | d :: ds, b =>
    let (out, b) := b.processDelta v d
    let (rest, b) := processDeltas v ds b
    (out ++ rest, b)

/-- Whether `process_delta` returns for each of the deltas. -/
def processDeltasReturn (v : PiiVault) : List Str → ReplacementBuffer → Bool
  | [], _ => true
  | d :: ds, b =>
    (d.isEmpty || v.isEmpty || applyReturns (b.buffer ++ d) v) &&
      processDeltasReturn v ds (b.processDelta v d).2

/-- A whole response: the deltas, then the flush. -/
def stream (v : PiiVault) (deltas : List Str) : Str :=
  let (out, b) := processDeltas v deltas new
  out ++ (b.flushRemaining v).1

end ReplacementBuffer

end PrivacyClaw
