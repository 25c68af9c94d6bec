import PrivacyClaw.Core.Registry

/-!
# The Conversation Store

`src/storage/mod.rs`: a directory of log files, one for each conversation.

The first line of a file is the conversation, every other line is a message, a
detection or the vault, each a JSON document. Messages are the lines that parse
as messages; detections and the vault are found by a marker in the text of the
line. Lines are printed here field by field as the derived serializers do it,
detections by `json!`, whose fields come out sorted. Parsing a line is the
`serde_json` crate's and a parameter; what the derived deserializers make of a
value is written out, for objects, which is all the writers leave.

A file is found by the end of its name, and the path that was found is kept in
a cache. The order of a directory listing is the file system's. The clock is
an input of the operations that read it.

An operation returns its result and the store afterwards; a result of `none`
is an error.

## Main definitions

* `Conversation`, `Message`, `MessageDetection`: The records.
* `StoreJson`: What is used of `serde_json`.
* `StoreJson.ofValues`, `ReadDir.keys`: A parser for given values, and a listing.
* `toValue`, `ofValue`: Serializing and deserializing.
* `Now`, `ReadDir`: The clock and the directory listing.
* `LogStore`: The files and the cache, with the operations of the source.
-/

namespace PrivacyClaw

namespace Storage

/-- `Conversation`. -/
structure Conversation where
  id : Str
  startedAt : Str
  provider : Str
  model : Option Str
  clientHint : Option Str
  deriving DecidableEq

/-- `Message`. -/
structure Message where
  id : Str
  conversationId : Str
  direction : Str
  timestamp : Str
  role : Option Str
  content : Str
  tokensIn : Option Int64
  tokensOut : Option Int64
  contentMasked : Option Str
  piiProcessed : Option Bool
  deriving DecidableEq

/-- `MessageDetection`. -/
structure MessageDetection where
  messageId : Str
  entityType : Str
  originalMasked : Str
  synthetic : Str
  tier : UInt8
  confidence : F32
  deriving DecidableEq

/-- What is used of `serde_json` for the lines of a log: the parser, the
    printed form of an `f32` and of one that `json!` has widened, and the
    `f32` that a number is read as. -/
structure StoreJson where
  fromStr : Str → Option Value
  formatF32 : F32 → Str
  formatF64 : F32 → Str
  readF32 : Str → Option F32
  formatF32_plain : ∀ x, ∀ b ∈ formatF32 x, b ≠ 10 ∧ b ≠ 34
  formatF64_plain : ∀ x, ∀ b ∈ formatF64 x, b ≠ 10 ∧ b ≠ 34

/-- A parser that knows the given values by their compact form only, and the
    confidence of the first tier by its number. -/
def StoreJson.ofValues (values : List Value) : StoreJson :=
  let format : F32 → Str := fun x => if x = F32.one then lit "1.0" else lit "null"
  have hformat : ∀ x, ∀ b ∈ format x, b ≠ 10 ∧ b ≠ 34 := fun x => by
    unfold format
    split
    · exact List.forall_iff_forall_mem.mp (by decide)
    · exact List.forall_iff_forall_mem.mp (by decide)
  { fromStr s := values.find? fun v => v.compact == s
    formatF32 := format
    formatF64 := format
    readF32 lexeme := if lexeme = lit "1.0" then some F32.one else none
    formatF32_plain := hformat
    formatF64_plain := hformat }

/-- The `{}` form of a signed integer. -/
def decimalInt (n : Int) : Str := if n < 0 then 45 :: decimal n.natAbs else decimal n.natAbs

/-- A number read as an `i64`. -/
def readI64 : Str → Option Int64
  | 45 :: digits => (fromStrRadix 10 digits).bind fun n =>
    if 0 < n ∧ n ≤ 2 ^ 63 then some (Int64.ofInt (-n)) else none
  | digits => (fromStrRadix 10 digits).bind fun n =>
    if n < 2 ^ 63 then some (Int64.ofInt n) else none

/-- A field that is `null` when it is `None`. -/
def nullable {β : Type} (value : β → Value) : Option β → Value
  | none => .null
  | some x => value x

/-- A string field that has to be there. -/
def stringField (key : String) (fields : List (Str × Value)) : Option Str :=
  (Value.lookupField (lit key) fields).bind Value.asStr

/-- A field of type `Option`: missing and `null` are `None`. -/
def optionField {β : Type} (key : String) (read : Value → Option β)
    (fields : List (Str × Value)) : Option (Option β) :=
  match Value.lookupField (lit key) fields with
  | none => some none
  | some .null => some none
  | some v => (read v).map some

/-- A value read as a number, by its text. -/
def asNumber {β : Type} (read : Str → Option β) : Value → Option β
  | .number lexeme => read lexeme
  | _ => none

/-- A value read as a `bool`. -/
def asBool : Value → Option Bool
  | .bool b => some b
  | _ => none

/-- A number read as a `u8`. -/
def readU8 (lexeme : Str) : Option UInt8 :=
  (fromStrRadix 10 lexeme).bind fun n => if n < 256 then some (UInt8.ofNat n) else none

/-- A number read as a `u64`. -/
def readU64 (lexeme : Str) : Option UInt64 := (fromStrRadix 10 lexeme).map UInt64.ofNat

namespace Conversation

/-- The fields of `Conversation`, as `Serialize` writes them. -/
def toValue (c : Conversation) : Value :=
  .object [(lit "id", .string c.id), (lit "started_at", .string c.startedAt),
    (lit "provider", .string c.provider), (lit "model", nullable .string c.model),
    (lit "client_hint", nullable .string c.clientHint)]

/-- `Deserialize` for `Conversation`. -/
def ofValue : Value → Option Conversation
  | .object fields => do
    let id ← stringField "id" fields
    let startedAt ← stringField "started_at" fields
    let provider ← stringField "provider" fields
    let model ← optionField "model" Value.asStr fields
    let clientHint ← optionField "client_hint" Value.asStr fields
    some ⟨id, startedAt, provider, model, clientHint⟩
  | _ => none

end Conversation

namespace Message

/-- The fields of `Message`; the last two are left out when they are `None`. -/
def toValue (m : Message) : Value :=
  .object ([(lit "id", .string m.id), (lit "conversation_id", .string m.conversationId),
      (lit "direction", .string m.direction), (lit "timestamp", .string m.timestamp),
      (lit "role", nullable .string m.role), (lit "content", .string m.content),
      (lit "tokens_in", nullable (fun n => .number (decimalInt n.toInt)) m.tokensIn),
      (lit "tokens_out", nullable (fun n => .number (decimalInt n.toInt)) m.tokensOut)] ++
    VaultJson.optional (lit "content_masked") Value.string m.contentMasked ++
    VaultJson.optional (lit "pii_processed") Value.bool m.piiProcessed)

/-- `Deserialize` for `Message`. -/
def ofValue : Value → Option Message
  | .object fields => do
    let id ← stringField "id" fields
    let conversationId ← stringField "conversation_id" fields
    let direction ← stringField "direction" fields
    let timestamp ← stringField "timestamp" fields
    let role ← optionField "role" Value.asStr fields
    let content ← stringField "content" fields
    let tokensIn ← optionField "tokens_in" (asNumber readI64) fields
    let tokensOut ← optionField "tokens_out" (asNumber readI64) fields
    let contentMasked ← optionField "content_masked" Value.asStr fields
    let piiProcessed ← optionField "pii_processed" asBool fields
    some ⟨id, conversationId, direction, timestamp, role, content, tokensIn, tokensOut,
      contentMasked, piiProcessed⟩
  | _ => none

end Message

section Json

variable (J : StoreJson)

namespace MessageDetection

/-- The value `insert_detections` builds with `json!`. -/
def toValue (d : MessageDetection) : Value :=
  .object [(lit "confidence", .number (J.formatF64 d.confidence)),
    (lit "entity_type", .string d.entityType), (lit "message_id", .string d.messageId),
    (lit "original_masked", .string d.originalMasked), (lit "synthetic", .string d.synthetic),
    (lit "tier", .number (decimal d.tier.toNat)), (lit "type", .string (lit "detection"))]

/-- `Deserialize` for `MessageDetection`. -/
def ofValue : Value → Option MessageDetection
  | .object fields => do
    let messageId ← stringField "message_id" fields
    let entityType ← stringField "entity_type" fields
    let originalMasked ← stringField "original_masked" fields
    let synthetic ← stringField "synthetic" fields
    let tier ← (Value.lookupField (lit "tier") fields).bind (asNumber readU8)
    let confidence ← (Value.lookupField (lit "confidence") fields).bind (asNumber J.readF32)
    some ⟨messageId, entityType, originalMasked, synthetic, tier, confidence⟩
  | _ => none

end MessageDetection

/-- `Deserialize` for `StoredVaultRecord`. -/
def rowOfValue : Value → Option StoredVaultRecord
  | .object fields => do
    let original ← stringField "original" fields
    let synthetic ← stringField "synthetic" fields
    let piiType ← stringField "pii_type" fields
    let tier ← optionField "tier" (asNumber readU8) fields
    let confidence ← optionField "confidence" (asNumber J.readF32) fields
    let tokenId ← optionField "token_id" Value.asStr fields
    let displayValue ← optionField "display_value" Value.asStr fields
    some ⟨original, synthetic, piiType, tier, confidence, tokenId, displayValue⟩
  | _ => none

/-- `Deserialize` for `PersistedVault`. -/
def vaultOfValue : Value → Option PersistedVault
  | .object fields => do
    let recordType ← stringField "type" fields
    let rngSeed ← (Value.lookupField (lit "rng_seed") fields).bind (asNumber readU64)
    let rows ← (Value.lookupField (lit "mappings") fields).bind Value.asArray
    let mappings ← rows.mapM (rowOfValue J)
    some ⟨recordType, rngSeed, mappings⟩
  | _ => none

/-- The part of the crate that the vault line needs. -/
def StoreJson.vaultJson : VaultJson where
  formatF32 := J.formatF32
  formatF32_line x hx := (J.formatF32_plain x 10 hx).1 rfl
  fromStr line := (J.fromStr line).bind (vaultOfValue J)

/-- The line of a conversation. -/
def Conversation.line (c : Conversation) : Str := c.toValue.compact

/-- The line of a message. -/
def Message.line (m : Message) : Str := m.toValue.compact

/-- The line of a detection. -/
def MessageDetection.line (d : MessageDetection) : Str := (d.toValue J).compact

/-- The line `save_vault` writes. -/
def vaultLine (rngSeed : UInt64) (records : List VaultRecord) : Str :=
  J.vaultJson.toStr ⟨lit "vault", rngSeed, records.map VaultRecord.stored⟩

/-- `read_conv_header`, from the contents of the file. -/
def readConvHeader (content : Str) : Option Conversation :=
  (J.fromStr (trim (content.takeWhile (· != 10)))).bind Conversation.ofValue

/-- A line read as a message. -/
def parseMessage (line : Str) : Option Message := (J.fromStr line).bind Message.ofValue

/-- A line read as a detection. -/
def parseDetection (line : Str) : Option MessageDetection :=
  (J.fromStr line).bind (MessageDetection.ofValue J)

/-- `read_messages`, from the contents of the file: not the first line, no
    blank lines, and none that does not parse. -/
def readMessages (content : Str) : List Message :=
  ((lines content).drop 1).filterMap fun line =>
    if (trim line).isEmpty then none else parseMessage J line

/-- The text a detection line is recognised by. -/
def detectionMarker : Str := lit "\"type\":\"detection\""

/-- The loop of `load_detections`, over the contents of the file. -/
def readDetections (messageId : Option Str) (content : Str) : List MessageDetection :=
  ((lines content).filter (contains detectionMarker)).filterMap fun line =>
    (parseDetection J line).filter fun d => messageId.all fun mid => d.messageId == mid

/-- The loop of `load_vault`: the first line with the marker decides. -/
def readVault (content : Str) : Option (UInt64 × List StoredVaultRecord) :=
  ((lines content).find? (contains vaultMarker)).bind fun line =>
    (J.vaultJson.fromStr line).map fun p => (p.rngSeed, p.mappings)

/-- The count of `count_request_messages`, over the contents of the file. -/
def countRequests (content : Str) : Nat :=
  ((lines content).drop 1).countP fun line =>
    (parseMessage J line).any fun m => m.direction == lit "request"

end Json

/-- `Utc::now`, as the store prints it: the date and the time of a file name. -/
structure Now where
  date : Str
  time : Str
  date_length : date.length = 10

/-- `read_dir`: the file names of the directory in some order. -/
structure ReadDir where
  entries : StrMap → List Str
  perm : ∀ files, (entries files).Perm files.keys

/-- A directory listed in the order of the map. -/
def ReadDir.keys : ReadDir := ⟨fun files => files.keys, fun _ => .refl _⟩

/-- `Store`: the files of the directory and the path cache. -/
structure LogStore where
  files : StrMap
  pathCache : StrMap

/-- `new_conv_file_path`. -/
def newConvFilePath (now : Now) (convId : Str) : Str :=
  now.date ++ lit "T" ++ now.time ++ lit "Z_" ++ convId ++ lit ".ndjson"

/-- How the name of a conversation's file ends. -/
def fileSuffix (convId : Str) : Str := lit "_" ++ convId ++ lit ".ndjson"

/-- The file name has the extension of a log. -/
def hasLogExtension (name : Str) : Bool :=
  (lit ".ndjson").isSuffixOf name && name != lit ".ndjson"

namespace LogStore

variable (J : StoreJson) (D : ReadDir)

/-- `Store::open` on a new directory. -/
def new : LogStore := ⟨∅, ∅⟩

/-- `conv_file_path`: from the cache, else from the directory into the cache. -/
def convFilePath (st : LogStore) (convId : Str) : Option Str × LogStore :=
  match st.pathCache.lookup convId with
  | some path => (some path, st)
  | none =>
    match (D.entries st.files).find? (fileSuffix convId).isSuffixOf with
    | some path => (some path, { st with pathCache := st.pathCache.insert convId path })
    | none => (none, st)

/-- An append to a file that is there. -/
def append (st : LogStore) (path buf : Str) : Option Unit × LogStore :=
  match st.files.lookup path with
  | none => (none, st)
  | some content => (some (), { st with files := st.files.insert path (content ++ buf) })

/-- What a read of a conversation's file makes of its contents, and a default
    where there is no file for the conversation. -/
def readFile {β : Type} (read : Str → β) (missing : β) (convId : Str) (st : LogStore) :
    Option β × LogStore :=
  match st.convFilePath D convId with
  | (none, st) => (some missing, st)
  | (some path, st) => ((st.files.lookup path).map read, st)

/-- `insert_conversation`. -/
def insertConversation (now : Now) (conv : Conversation) (st : LogStore) : LogStore :=
  let path := newConvFilePath now conv.id
  { files := st.files.insert path (conv.line ++ lit "\n")
    pathCache := st.pathCache.insert conv.id path }

/-- `batch_insert_messages`: the conversation is that of the first message. -/
def batchInsertMessages (messages : List Message) (st : LogStore) : Option Unit × LogStore :=
  match messages with
  | [] => (some (), st)
  | m :: _ =>
    match st.convFilePath D m.conversationId with
    | (none, st) => (some (), st)
    | (some path, st) => st.append path (messages.flatMap fun m => m.line ++ lit "\n")

/-- `insert_message`. -/
def insertMessage (m : Message) (st : LogStore) : Option Unit × LogStore :=
  st.batchInsertMessages D [m]

/-- `insert_detections`. -/
def insertDetections (convId : Str) (detections : List MessageDetection) (st : LogStore) :
    Option Unit × LogStore :=
  if detections.isEmpty then (some (), st)
  else match st.convFilePath D convId with
    | (none, st) => (some (), st)
    | (some path, st) => st.append path (detections.flatMap fun d => d.line J ++ lit "\n")

/-- `save_vault`. -/
def saveVault (convId : Str) (rngSeed : UInt64) (records : List VaultRecord) (st : LogStore) :
    Option Unit × LogStore :=
  match st.convFilePath D convId with
  | (none, st) => (some (), st)
  | (some path, st) =>
    match st.files.lookup path with
    | none => (none, st)
    | some content =>
      let newContent := replaceVaultLine content (vaultLine J rngSeed records ++ lit "\n")
      (some (), { st with files := st.files.insert path newContent })

/-- `get_messages`. -/
def getMessages (convId : Str) : LogStore → Option (List Message) × LogStore :=
  readFile D (readMessages J) [] convId

/-- `load_detections`. -/
def loadDetections (convId : Str) (messageId : Option Str) :
    LogStore → Option (List MessageDetection) × LogStore :=
  readFile D (readDetections J messageId) [] convId

/-- `load_vault`. -/
def loadVault (convId : Str) :
    LogStore → Option (Option (UInt64 × List StoredVaultRecord)) × LogStore :=
  readFile D (readVault J) none convId

/-- `count_request_messages`: a file that cannot be opened counts as empty. -/
def countRequestMessages (convId : Str) (st : LogStore) : Nat × LogStore :=
  let r := readFile D (countRequests J) 0 convId st
  (r.1.getD 0, r.2)

/-- `get_conversation_by_id`. -/
def getConversationById (convId : Str) (st : LogStore) : Option Conversation × LogStore :=
  let r := readFile D (readConvHeader J) none convId st
  (r.1.join, r.2)

/-- The header of a file of the directory. -/
def header (st : LogStore) (name : Str) : Option Conversation :=
  (st.files.lookup name).bind (readConvHeader J)

/-- `find_conversation_by_fingerprint`, among the files of today. -/
def findConversationByFingerprint (now : Now) (provider fingerprint : Str) (st : LogStore) :
    Option Str :=
  ((D.entries st.files).filter fun name =>
    now.date.isPrefixOf name && (lit ".ndjson").isSuffixOf name).findSome? fun name =>
      ((st.header J name).filter fun conv =>
        conv.provider == provider && conv.clientHint == some fingerprint).map Conversation.id

/-- `list_conversations`: the last file names first. -/
def listConversations (limit : Nat) (st : LogStore) : List Conversation :=
  ((((D.entries st.files).filter hasLogExtension).mergeSort fun a b => b ≤ a).take limit).filterMap
    (st.header J)

/-- `export_all`: the conversations with their messages. -/
def exportAll (st : LogStore) : List (Conversation × List Message) :=
  ((D.entries st.files).filter hasLogExtension).filterMap fun name =>
    (st.header J name).map fun conv =>
      (conv, ((st.files.lookup name).map (readMessages J)).getD [])

/-- A file that `rotate_old` deletes. -/
def isOld (now : Now) (name : Str) : Bool :=
  (lit ".ndjson").isSuffixOf name && !now.date.isPrefixOf name

/-- `rotate_old`: the number of files deleted. -/
def rotateOld (now : Now) (st : LogStore) : Nat × LogStore :=
  let old := (D.entries st.files).filter (isOld now)
  (old.length, { st with files := old.foldl (fun files name => files.erase name) st.files })

end LogStore

end Storage

end PrivacyClaw
