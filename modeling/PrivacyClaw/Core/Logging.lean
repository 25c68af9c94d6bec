import PrivacyClaw.Core.C2u
import PrivacyClaw.Core.Sidecar
import PrivacyClaw.Core.Store

/-!
# What the Proxy Logs

The records that the request and the response side of a connection put into
the store, from `src/proxy/intercept/c2u.rs` and `u2c.rs`: the conversation of
a request, its messages and the message of a response. New ids and the time
are inputs.

## Main definitions

* `conversationFingerprint`, `newConversation`: The conversation of a request.
* `requestMessages`: The messages of a request.
* `responseMessage`: The message of a response.
-/

namespace PrivacyClaw

/-- `conversation_fingerprint`: the digest of the first message. -/
def conversationFingerprint (h : Hashes) (messages : List Message) : Str :=
  match messages with
  | [] => hexDigest (h.sha1 []).toList
  | first :: _ => hexDigest (h.sha1 (first.role ++ lit ":" ++ first.content)).toList

/-- The conversation `create_or_find_conversation` inserts. -/
def newConversation (newId ts provider model fingerprint : Str) : Storage.Conversation where
  id := newId
  startedAt := ts
  provider := provider
  model := some model
  clientHint := some fingerprint

/-- The records `store_request_messages` makes of the messages that are not
    stored yet. -/
def requestMessages (convId ts : Str) (piiProcessed : Bool) (ids : List Str)
    (messages : List StoredMessage) : List Storage.Message :=
  List.zipWith (fun newId (m : StoredMessage) =>
    { id := newId
      conversationId := convId
      direction := lit "request"
      timestamp := ts
      role := some m.role
      content := m.content
      tokensIn := none
      tokensOut := none
      contentMasked := m.contentMasked
      piiProcessed := some piiProcessed }) ids messages

/-- The text of a response as its end finds it: what was restored, what was
    received, and the counts of tokens. -/
structure Accumulated where
  content : Str
  synthetic : Str
  tokensIn : Option Int64
  tokensOut : Option Int64
  deriving DecidableEq

/-- The message `finalize_response` stores. -/
def responseMessage (newId ts convId : Str) (a : Accumulated) : Storage.Message where
  id := newId
  conversationId := convId
  direction := lit "response"
  timestamp := ts
  role := some (lit "assistant")
  content := a.content
  tokensIn := a.tokensIn
  tokensOut := a.tokensOut
  contentMasked := nonEmpty a.synthetic
  piiProcessed := none

end PrivacyClaw
