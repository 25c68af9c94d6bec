import PrivacyClaw.Core.Logging
import PrivacyClaw.Lib.Machine

/-!
# Store Calls of Several Connections

The calls of `src/storage/mod.rs` and `src/proxy/intercept/c2u.rs` that take
more than one step on the store, step by step, so that the calls of other
connections can come in between.

`save_vault` reads the file before it takes the write lock, and again under the
lock only where it saw a vault line. The appends take the lock for the write
alone. `create_or_find_conversation` looks for a conversation and then inserts
one, `store_request_messages` counts what is stored and then appends, both
without a lock across the two steps.

A step is a partial function of what is shared and of the call: a call that
waits for the lock has no step.

## Main definitions

* `SharedLog`, `LogCall`, `LogCall.act`: The writers of one file.
* `FindCall`, `FindCall.act`: `create_or_find_conversation`.
* `StoreCall`, `StoreCall.act`: `store_request_messages`.
-/

namespace PrivacyClaw

namespace Storage

/-- A conversation's file, and the call that has `write_lock`. The calls that
    have written are listed in their order, for the statements. -/
structure SharedLog where
  content : Str
  lock : Option Nat
  wrote : List Nat
  deriving DecidableEq

/-- A call that writes to the file. -/
inductive LogCall where
  | batchInsertMessages (messages : List Message)
  | insertDetections (detections : List MessageDetection)
  | saveVault (rngSeed : UInt64) (records : List VaultRecord)

/-- Where the call stands: behind the first read, under the lock, with the
    contents it decides on, or behind its write. -/
inductive LogState where
  | start
  | preRead (preContent : Str)
  | locked (preContent : Str)
  | decided (content : Str)
  | written
  | returned
  deriving DecidableEq

/-- The write of `save_vault`, decided on `content`: the whole file, or an
    append to it. -/
def writeVault (file content vaultLine : Str) : Str :=
  let ls := lines content
  match ls.findIdx? (contains vaultMarker) with
  | some idx =>
    List.intercalate (lit "\n") (ls.set idx (trimEndMatches 10 vaultLine)) ++ lit "\n"
  | none => file ++ vaultLine

/-- Taking `write_lock`. -/
def SharedLog.acquire (f : SharedLog) (i : Nat) : Option SharedLog :=
  if f.lock = none then some { f with lock := some i } else none

/-- The file after a write of call `i`. -/
def SharedLog.write (f : SharedLog) (i : Nat) (content : Str) : SharedLog :=
  { f with content := content, wrote := f.wrote ++ [i] }

/-- The text an append writes. -/
def appendText (J : StoreJson) : LogCall → Str
  | .batchInsertMessages messages => messages.flatMap fun m => m.line ++ lit "\n"
  | .insertDetections detections => detections.flatMap fun d => d.line J ++ lit "\n"
  | .saveVault _ _ => []

/-- A step of call `i`. An append of nothing returns at once. -/
def LogCall.act (J : StoreJson) (i : Nat) (_ : Unit) (f : SharedLog) :
    LogCall × LogState → Option (SharedLog × (LogCall × LogState))
  | (.saveVault seed vs, .start) => some (f, (.saveVault seed vs, .preRead f.content))
  | (.saveVault seed vs, .preRead pre) =>
    (f.acquire i).map fun f => (f, (.saveVault seed vs, .locked pre))
  | (.saveVault seed vs, .locked pre) =>
    let content := if contains vaultMarker pre then f.content else pre
    some (f, (.saveVault seed vs, .decided content))
  | (.saveVault seed vs, .decided content) =>
    let new := writeVault f.content content (vaultLine J seed vs ++ lit "\n")
    some (f.write i new, (.saveVault seed vs, .written))
  | (call, .start) =>
    if appendText J call = [] then some (f, (call, .returned))
    else (f.acquire i).map fun f => (f, (call, .locked []))
  | (call, .locked _) => some (f.write i (f.content ++ appendText J call), (call, .written))
  | (call, .written) => some ({ f with lock := none }, (call, .returned))
  | _ => none

/-- A call of `create_or_find_conversation`: the body, and what `Utc::now` and
    `new_uuid` return in it. -/
structure FindCall where
  body : List UInt8
  lookedUp : Now
  inserted : Now
  newId : Str
  ts : Str

/-- Where the call stands: behind a lookup that found nothing, or back at its
    caller. -/
inductive FindState where
  | start
  | missed (parsed : ParsedRequest)
  | returned (convId : Option Str)
  deriving DecidableEq

section Calls

variable (h : Hashes) (K : SerdeJson) (J : StoreJson) (D : ReadDir) (provider : Provider)

/-- The conversation the call inserts if it finds none. -/
def FindCall.conversation (call : FindCall) (parsed : ParsedRequest) : Conversation :=
  newConversation call.newId call.ts provider.asStr parsed.model
    (conversationFingerprint h parsed.messages)

/-- A step of the call. -/
def FindCall.act (_ : Nat) (_ : Unit) (st : LogStore) :
    FindCall × FindState → Option (LogStore × (FindCall × FindState))
  | (call, .start) =>
    match parseRequest K provider call.body with
    | none => some (st, (call, .returned none))
    | some parsed =>
      match st.findConversationByFingerprint J D call.lookedUp provider.asStr
        (conversationFingerprint h parsed.messages) with
      | some existingId => some (st, (call, .returned (some existingId)))
      | none => some (st, (call, .missed parsed))
  | (call, .missed parsed) =>
    some (st.insertConversation call.inserted (call.conversation h provider parsed),
      (call, .returned (some call.newId)))
  | (_, .returned _) => none

/-- A call of `store_request_messages`: the bodies, and what `now_iso8601` and
    `new_uuid` return in it. -/
structure StoreCall where
  originalBody : List UInt8
  replacedBody : Option (List UInt8)
  piiProcessed : Bool
  ts : Str
  newId : Nat → Str

/-- Where the call stands: behind its count, or back at its caller. -/
inductive StoreState where
  | start
  | counted (msgOffset : Nat)
  | returned
  deriving DecidableEq

/-- The records the call appends if it counted so many messages. -/
def StoreCall.records (convId : Str) (call : StoreCall) (msgOffset : Nat) : List Message :=
  let stored := storeRequestMessages K provider call.originalBody call.replacedBody msgOffset
  requestMessages convId call.ts call.piiProcessed ((List.range stored.length).map call.newId) stored

/-- A step of the call; a body that does not parse stores nothing. -/
def StoreCall.act (convId : Str) (_ : Nat) (_ : Unit) (st : LogStore) :
    StoreCall × StoreState → Option (LogStore × (StoreCall × StoreState))
  | (call, .start) =>
    if parseRequest K provider call.originalBody = none then some (st, (call, .returned))
    else
      let counted := st.countRequestMessages J D convId
      some (counted.2, (call, .counted counted.1))
  | (call, .counted msgOffset) =>
    some ((st.batchInsertMessages D (call.records K provider convId msgOffset)).2, (call, .returned))
  | (_, .returned) => none

end Calls

end Storage

end PrivacyClaw
