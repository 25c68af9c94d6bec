import PrivacyClaw.Core.Json
import PrivacyClaw.Core.Vault

/-!
# Persistence and the Vault Registry

How a vault leaves memory and comes back, and how two vaults become one:
`to_records` and the merge helpers of `src/pii/vault.rs`, `save_vault` and
`load_vault` of `src/storage/mod.rs`, and the registry.

A conversation's log is a file of lines, one JSON document each. The vault is
one of them, recognised by a marker that is searched for in the text of the
line. Saving rewrites the first line with the marker or appends a new one;
loading reads the first line with the marker. The struct that is written there
is printed here field by field; parsing it is the `serde_json` crate's and a
parameter, as is the printed form of a confidence.

A registry entry is a handle, an `Arc`, and a request or a response may go on
using a vault after its entry is gone. So the registry keeps the vaults behind
the handles in one list and the map points into it. Only the storing of vaults
reads the log, and nothing else writes to it while it does.

## Main definitions

* `PiiVault.toRecords`, `PiiVault.quints`: A vault's rows.
* `PiiVault.mergeFrom`: The rows and the index maps of another vault.
* `StoredVaultRecord`, `PersistedVault`, `VaultJson`: The persisted form.
* `Store`, `saveVault`, `loadVault`: The conversation logs.
* `loadOrCreate`: A vault from the store, or a new one.
* `VaultRegistry`, `getOrCreateWithStore`, `mergeInto`, `evictExpired`: The
  registry.
-/

namespace PrivacyClaw

namespace PiiVault

/-- `to_records`: the labels come back as custom types, and the synthetic is
    the display value. -/
def toRecords (v : PiiVault) : List VaultRecord :=
  (((((v.syntheticKeys.zip v.originalValues).zip v.piiTypeLabels).zip v.tiers).zip
    v.confidences).zip v.tokenIds).map fun (((((syn, orig), label), tier), conf), tid) =>
      { original := orig
        synthetic := syn
        piiType := .custom label
        tier := tier
        confidence := conf
        tokenId := tid
        displayValue := syn }

/-- `quints`. -/
def quints (v : PiiVault) : List (Str × Str × Str × UInt8 × F32) :=
  ((((v.originalValues.zip v.syntheticKeys).zip v.piiTypeLabels).zip v.tiers).zip
    v.confidences).map fun ((((o, s), label), tier), conf) => (o, s, label, tier, conf)

/-- `merge_index_maps_from`: entries already present are kept. -/
def mergeIndexMapsFrom (v other : PiiVault) : PiiVault :=
  { v with
    fullTokenToOriginal := v.fullTokenToOriginal ∪ other.fullTokenToOriginal
    tokenIdToOriginal := v.tokenIdToOriginal ∪ other.tokenIdToOriginal
    displayValueToOriginal := v.displayValueToOriginal ∪ other.displayValueToOriginal }

/-- One row of a merge: a known original keeps its mapping. -/
def mergeQuint (v : PiiVault) (q : Str × Str × Str × UInt8 × F32) : PiiVault :=
  if q.1 ∈ v.originalToSynthetic then v
  else v.insertMappingRaw q.1 q.2.1 q.2.2.1 q.2.2.2.1 q.2.2.2.2

/-- The merge of two vaults, which `merge_into` has twice. -/
def mergeFrom (intoVault fromVault : PiiVault) : PiiVault :=
  let merged := (fromVault.quints.foldl mergeQuint intoVault).mergeIndexMapsFrom fromVault
  if fromVault.isEmpty then merged else merged.rebuildAutomaton

end PiiVault

/-- The literal `0.0`. -/
def F32.zero : F32 := ⟨0⟩

/-- `StoredVaultRecord`, a row on disk. -/
structure StoredVaultRecord where
  original : Str
  synthetic : Str
  piiType : Str
  tier : Option UInt8
  confidence : Option F32
  tokenId : Option Str
  displayValue : Option Str
  deriving DecidableEq

/-- `None` for an empty text. -/
def nonEmpty (s : Str) : Option Str := if s.isEmpty then none else some s

/-- The row that the end of a response and `save_vault` make of a record. -/
def VaultRecord.stored (r : VaultRecord) : StoredVaultRecord where
  original := r.original
  synthetic := r.synthetic
  piiType := r.piiType.label
  tier := some r.tier
  confidence := some r.confidence
  tokenId := nonEmpty r.tokenId
  displayValue := nonEmpty r.displayValue

/-- The record `load_or_create` makes of a row. -/
def StoredVaultRecord.record (r : StoredVaultRecord) : VaultRecord where
  original := r.original
  synthetic := r.synthetic
  piiType := .custom r.piiType
  tier := r.tier.getD 0
  confidence := r.confidence.getD F32.zero
  tokenId := r.tokenId.getD []
  displayValue := r.displayValue.getD []

/-- `PersistedVault`. -/
structure PersistedVault where
  recordType : Str
  rngSeed : UInt64
  mappings : List StoredVaultRecord
  deriving DecidableEq

/-- What is used of `serde_json` for the vault line: the printed form of an
    `f32`, and the parser of the struct. -/
structure VaultJson where
  formatF32 : F32 → Str
  formatF32_line : ∀ x, 10 ∉ formatF32 x
  fromStr : Str → Option PersistedVault

namespace VaultJson

variable (j : VaultJson)

/-- A field that is skipped when it is `None`. -/
def optional {β : Type} (key : Str) (value : β → Value) (x : Option β) : List (Str × Value) :=
  x.toList.map fun y => (key, value y)

/-- A row as `Serialize` writes it, in the order of the struct's fields. -/
def rowValue (r : StoredVaultRecord) : Value :=
  .object ([(lit "original", .string r.original), (lit "synthetic", .string r.synthetic),
      (lit "pii_type", .string r.piiType)] ++
    optional (lit "tier") (fun t => .number (decimal t.toNat)) r.tier ++
    optional (lit "confidence") (fun c => .number (j.formatF32 c)) r.confidence ++
    optional (lit "token_id") Value.string r.tokenId ++
    optional (lit "display_value") Value.string r.displayValue)

/-- `serde_json::to_string` of a persisted vault. -/
def toStr (p : PersistedVault) : Str :=
  Value.compact (.object [(lit "type", .string p.recordType),
    (lit "rng_seed", .number (decimal p.rngSeed.toNat)),
    (lit "mappings", .array (p.mappings.map j.rowValue))])

end VaultJson

/-- `str::trim_end_matches` with a character. -/
def trimEndMatches (c : UInt8) (s : Str) : Str := (s.reverse.dropWhile (· == c)).reverse

/-- The text a vault line is recognised by. -/
def vaultMarker : Str := lit "\"type\":\"vault\""

/-- `Store`: the path of a conversation's log, and the contents of the files.
    The cache and the scan of the directory find one path. -/
structure Store where
  convFilePath : Str → Option Str
  files : StrMap

/-- What `save_vault` writes: the line in the place of the first vault line, or
    behind everything. -/
def replaceVaultLine (content vaultLine : Str) : Str :=
  let ls := lines content
  match ls.findIdx? (contains vaultMarker) with
  | some idx =>
    List.intercalate (lit "\n") (ls.set idx (trimEndMatches 10 vaultLine)) ++ lit "\n"
  | none => content ++ vaultLine

namespace Store

variable (j : VaultJson)

/-- `save_vault`; `none` where it returns an error. -/
def saveVault (st : Store) (convId : Str) (rngSeed : UInt64) (records : List VaultRecord) :
    Option Store :=
  match st.convFilePath convId with
  | none => some st
  | some path => do
    let vaultLine := j.toStr ⟨lit "vault", rngSeed, records.map VaultRecord.stored⟩ ++ lit "\n"
    let content ← st.files.lookup path
    some { st with files := st.files.insert path (replaceVaultLine content vaultLine) }

/-- `load_vault`; the outer `none` is an error. A vault line that does not
    parse counts as none. -/
def loadVault (st : Store) (convId : Str) : Option (Option (UInt64 × List StoredVaultRecord)) :=
  match st.convFilePath convId with
  | none => some none
  | some path => do
    let content ← st.files.lookup path
    match (lines content).find? (contains vaultMarker) with
    | none => some none
    | some line => some ((j.fromStr line).map fun p => (p.rngSeed, p.mappings))

end Store

section Registry

variable (h : Hashes)

/-- `load_or_create`, from what the store answers for the conversation. -/
def loadOrCreate (convId : Str) (loaded : Option (Option (UInt64 × List StoredVaultRecord))) :
    PiiVault :=
  match loaded with
  | some (some (seed, records)) =>
    PiiVault.fromRecords convId seed (records.map StoredVaultRecord.record)
  | _ => PiiVault.new h convId

/-- `VaultRegistry`: the vaults behind the handles, and the handle of each key.
    The access times are left out. -/
structure VaultRegistry where
  handles : List PiiVault
  vaults : AList (fun _ : Str => Nat)

namespace VaultRegistry

/-- `VaultRegistry::new`. -/
def new : VaultRegistry := ⟨[], ∅⟩

/-- The vault registered under a key. -/
def vault (g : VaultRegistry) (key : Str) : Option PiiVault :=
  (g.vaults.lookup key).bind fun i => g.handles[i]?

/-- A new handle, registered under a key. -/
def insertNew (g : VaultRegistry) (key : Str) (v : PiiVault) : VaultRegistry :=
  ⟨g.handles ++ [v], g.vaults.insert key g.handles.length⟩

/-- `get_or_create_with_store`: the registry afterwards. -/
def getOrCreateWithStore (g : VaultRegistry) (convId : Str)
    (loaded : Option (Option (UInt64 × List StoredVaultRecord))) : VaultRegistry :=
  if convId ∈ g.vaults then g else g.insertNew convId (loadOrCreate h convId loaded)

/-- `merge_into`; `loaded` is what the store answers for `intoKey`. -/
def mergeInto (g : VaultRegistry) (fromKey intoKey : Str)
    (loaded : Option (Option (UInt64 × List StoredVaultRecord))) : VaultRegistry :=
  match g.vaults.lookup fromKey with
  | none => g
  | some fromHandle =>
    match g.handles[fromHandle]? with
    | none => g
    | some fromVault =>
      let vaults := g.vaults.erase fromKey
      match vaults.lookup intoKey with
      | some intoHandle =>
        -- both in memory: the target's handle gets the merged vault
        ⟨g.handles.modify intoHandle fun v => v.mergeFrom fromVault, vaults⟩
      | none =>
        let persisted := loadOrCreate h intoKey loaded
        if persisted.isEmpty then ⟨g.handles, vaults.insert intoKey fromHandle⟩
        else VaultRegistry.insertNew ⟨g.handles, vaults⟩ intoKey (persisted.mergeFrom fromVault)

/-- `evict_expired`, for the keys whose time is over. -/
def evictExpired (g : VaultRegistry) (expired : List Str) : VaultRegistry :=
  { g with vaults := expired.foldl (fun m k => m.erase k) g.vaults }

end VaultRegistry

end Registry

end PrivacyClaw
