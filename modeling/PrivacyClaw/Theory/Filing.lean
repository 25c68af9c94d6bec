import PrivacyClaw.Core.Logging
import PrivacyClaw.Lib.Machine

/-!
# Where a Response Is Filed

The two sides of a keep-alive connection and the two cells between them.

The request side puts the conversation of a request into one cell and its
vault into the other, and then forwards the request. At the end of a response
the response side reads the first cell, stores the message, reads the second
and saves the vault. The client has the terminal event by then and may have
sent its next request, whose conversation and vault overwrite the cells.

So a response is filed under the conversation of the latest request that
reached the cells. It is the right one if no request overwrites a cell that
the end of an earlier response has still to read, unless with the same
conversation (`response_filed`).

A request whose body does not parse has no conversation of its own and stays
with that of the request before. The registry gives every conversation one
handle (`handles_shared`), so handles are a function of the conversation here.

## Main definitions

* `Exchange`, `conversationOf`: Requests with their responses, and the
  conversation each belongs to.
* `Connection`, `Connection.step`: The two sides and the cells.
* `CellsFree`: The condition on the request side's steps.
* `Filing.Right`: A record filed under the right conversation.

## Theorems

* `Connection.Inv.step`: Every conforming step keeps the invariant.
* `response_filed`: Everything filed along a run.
* `response_filed_two`: Two conversations in turn.
* `response_misfiled`: The next request comes too early.
-/

namespace PrivacyClaw

/-- A request and its response: what `create_or_find_conversation` returns for
    the one, and what the other amounts to. -/
structure Exchange where
  conv : Option Str
  response : Accumulated

/-- The conversation in the cell after the first `j` requests. -/
def convBefore (exchanges : List Exchange) (j : Nat) : Option Str :=
  ((exchanges.take j).filterMap Exchange.conv).getLast?

/-- The conversation of request `n`. -/
def conversationOf (exchanges : List Exchange) (n : Nat) : Option Str :=
  convBefore exchanges (n + 1)

/-- The text of response `n`. -/
def contentOf (exchanges : List Exchange) (n : Nat) : Str :=
  ((exchanges[n]?).map fun x => x.response.content).getD []

/-- What a response leaves in the store: its message, or the vault behind a
    handle. -/
inductive Filing where
  | message (n : Nat) (msg : Storage.Message)
  | vault (n : Nat) (convId : Str) (handle : Nat) (rngSeed : UInt64) (records : List VaultRecord)

/-- The next step of the request side. -/
inductive RequestStep where
  | setConv
  | setVault (piiCid : Str)
  | forward
  deriving DecidableEq

/-- The next step of the response side. -/
inductive ResponseStep where
  | waiting
  | readConv
  | insertMessage (cid : Str)
  | readVault (cid : Str)
  | saveVault (cid : Str) (handle : Nat)
  deriving DecidableEq

/-- The two cells, the two sides with the number of their request and response,
    and what was filed. -/
structure Connection where
  convCell : Option Str
  vaultCell : Option Nat
  reqNo : Nat
  reqAt : RequestStep
  respNo : Nat
  respAt : ResponseStep
  filed : List Filing

/-- A step of one of the sides. What is random or elsewhere is an input: ids,
    the time, and the vault behind a handle. -/
inductive ConnectionEvent where
  | setConv
  | setVault
  | forward
  | finalize
  | readConv
  | insertMessage (newId ts : Str)
  | readVault
  | saveVault (v : PiiVault)

namespace Connection

/-- Before the first request. -/
def new : Connection := ⟨none, none, 0, .setConv, 0, .waiting, []⟩

/-- The response side goes on to the next response. -/
def nextResponse (s : Connection) : Connection :=
  { s with respNo := s.respNo + 1, respAt := .waiting }

section Step

variable (handleOf : Str → Nat) (sessionUuid : Str) (piiReplace : Bool)
  (exchanges : List Exchange)

/-- A step of the request side; `none` where it is not its turn. -/
def requestStep : ConnectionEvent → RequestStep → Connection → Option Connection
  | .setConv, .setConv, s => (exchanges[s.reqNo]?).map fun x =>
    let cell := x.conv.or s.convCell
    { s with convCell := cell, reqAt := .setVault (cell.getD sessionUuid) }
  | .setVault, .setVault piiCid, s =>
    some { s with vaultCell := some (handleOf piiCid), reqAt := .forward }
  | .forward, .forward, s => some { s with reqNo := s.reqNo + 1, reqAt := .setConv }
  | _, _, _ => none

/-- A step of the response side; `none` where it is not its turn. -/
def responseStep : ConnectionEvent → ResponseStep → Connection → Option Connection
  | .finalize, .waiting, s =>
    -- the terminal event answers a request that was forwarded
    if s.respNo < s.reqNo then some { s with respAt := .readConv } else none
  | .readConv, .readConv, s =>
    match s.convCell with
    | none => some s.nextResponse
    | some cid =>
      if contentOf exchanges s.respNo = [] then some s.nextResponse
      else some { s with respAt := .insertMessage cid }
  | .insertMessage newId ts, .insertMessage cid, s => (exchanges[s.respNo]?).map fun x =>
    let filed := s.filed ++ [.message s.respNo (responseMessage newId ts cid x.response)]
    if piiReplace then { s with filed := filed, respAt := .readVault cid }
    else { s.nextResponse with filed := filed }
  | .readVault, .readVault cid, s =>
    match s.vaultCell with
    | none => some s.nextResponse
    | some handle => some { s with respAt := .saveVault cid handle }
  | .saveVault v, .saveVault cid handle, s =>
    -- an empty vault is not saved
    if v.isEmpty then some s.nextResponse
    else some { s.nextResponse with filed :=
      s.filed ++ [.vault s.respNo cid handle v.rngSeed v.toRecords] }
  | _, _, _ => none

/-- The state after a step. -/
def step (e : ConnectionEvent) (s : Connection) : Option Connection :=
  match e with
  | .setConv | .setVault | .forward => requestStep handleOf sessionUuid exchanges e s.reqAt s
  | _ => responseStep piiReplace exchanges e s.respAt s

/-- The number of responses that have read the first cell. -/
def convRead (s : Connection) : Nat :=
  match s.respAt with
  | .waiting | .readConv => s.respNo
  | _ => s.respNo + 1

/-- The number of responses that have read the second cell. -/
def vaultRead (s : Connection) : Nat :=
  match s.respAt with
  | .saveVault _ _ => s.respNo + 1
  | _ => s.respNo

/-- The end of response `m` has still to read the first cell. -/
def NeedsConv (s : Connection) (m : Nat) : Prop :=
  contentOf exchanges m ≠ [] ∧ s.convRead ≤ m

/-- The end of response `m` has still to read the second cell. -/
def NeedsVault (s : Connection) (m : Nat) : Prop :=
  piiReplace = true ∧ contentOf exchanges m ≠ [] ∧ s.vaultRead ≤ m

instance (s : Connection) (m : Nat) : Decidable (s.NeedsConv exchanges m) :=
  inferInstanceAs (Decidable (_ ∧ _))

instance (s : Connection) (m : Nat) : Decidable (s.NeedsVault piiReplace exchanges m) :=
  inferInstanceAs (Decidable (_ ∧ _ ∧ _))

end Step

end Connection

/-- No request overwrites a cell that the end of an earlier response has still
    to read, unless both belong to one conversation. -/
def CellsFree (piiReplace : Bool) (exchanges : List Exchange) (s : Connection) :
    ConnectionEvent → Prop
  | .setConv => ∀ m < s.reqNo, s.NeedsConv exchanges m →
    conversationOf exchanges m = conversationOf exchanges s.reqNo
  | .setVault => ∀ m < s.reqNo, s.NeedsVault piiReplace exchanges m →
    conversationOf exchanges m = conversationOf exchanges s.reqNo
  | _ => True

instance (piiReplace : Bool) (exchanges : List Exchange) (s : Connection) :
    ∀ e, Decidable (CellsFree piiReplace exchanges s e)
  | .setConv => inferInstanceAs (Decidable (∀ m < s.reqNo, _ → _))
  | .setVault => inferInstanceAs (Decidable (∀ m < s.reqNo, _ → _))
  | .forward | .finalize | .readConv | .insertMessage _ _ | .readVault | .saveVault _ =>
    isTrue trivial

/-- A record is filed under the conversation of the request that the response
    answers, and a vault is that conversation's. -/
def Filing.Right (handleOf : Str → Nat) (exchanges : List Exchange) : Filing → Prop
  | .message n msg => conversationOf exchanges n = some msg.conversationId
  | .vault n convId handle _ _ =>
    conversationOf exchanges n = some convId ∧ handle = handleOf convId

instance (handleOf : Str → Nat) (exchanges : List Exchange) :
    ∀ f : Filing, Decidable (f.Right handleOf exchanges)
  | .message _ _ => inferInstanceAs (Decidable (_ = _))
  | .vault _ _ _ _ _ => inferInstanceAs (Decidable (_ = _ ∧ _ = _))

namespace Connection

section Invariant

variable (handleOf : Str → Nat) (sessionUuid : Str) (piiReplace : Bool)
  (exchanges : List Exchange)

/-- The number of requests that have set the first cell. -/
def convSet (s : Connection) : Nat := if s.reqAt = .setConv then s.reqNo else s.reqNo + 1

/-- The number of requests that have set the second cell. -/
def vaultSet (s : Connection) : Nat := if s.reqAt = .forward then s.reqNo + 1 else s.reqNo

/-- The conversation the response side has in hand. -/
def inHand (s : Connection) : Option Str :=
  match s.respAt with
  | .insertMessage cid | .readVault cid | .saveVault cid _ => some cid
  | _ => none

/-- The number of responses whose message is stored, where they have one. -/
def stored (s : Connection) : Nat :=
  match s.respAt with
  | .readVault _ | .saveVault _ _ => s.respNo + 1
  | _ => s.respNo

/-- The invariant. The first cell holds the conversation of the latest request
    that set it. Both cells hold what every response needs that has still to
    read them and whose request has set them. What the response side has in hand
    and what was filed is right, and nothing with a conversation and a text was
    left out. -/
structure Inv (s : Connection) : Prop where
  cell : s.convCell = convBefore exchanges s.convSet
  piiCid : ∀ piiCid, s.reqAt = .setVault piiCid →
    piiCid = (conversationOf exchanges s.reqNo).getD sessionUuid
  conv : ∀ m < s.convSet, s.NeedsConv exchanges m → s.convCell = conversationOf exchanges m
  vault : ∀ m < s.vaultSet, s.NeedsVault piiReplace exchanges m →
    s.vaultCell = some (handleOf ((conversationOf exchanges m).getD sessionUuid))
  order : s.respNo ≤ s.reqNo ∧ (s.respAt ≠ .waiting → s.respNo < s.reqNo)
  hand : ∀ cid, s.inHand = some cid →
    conversationOf exchanges s.respNo = some cid ∧ contentOf exchanges s.respNo ≠ []
  handle : ∀ cid handle, s.respAt = .saveVault cid handle → handle = handleOf cid
  replaces : ∀ cid, s.respAt = .readVault cid → piiReplace = true
  right : ∀ f ∈ s.filed, f.Right handleOf exchanges
  complete : ∀ n < s.stored, ∀ c, conversationOf exchanges n = some c →
    contentOf exchanges n ≠ [] → ∃ msg, Filing.message n msg ∈ s.filed

variable {handleOf sessionUuid piiReplace exchanges}

/-- What the first cell holds after one more request. -/
theorem convBefore_succ (j : Nat) (x : Exchange) (hx : exchanges[j]? = some x) :
    convBefore exchanges (j + 1) = x.conv.or (convBefore exchanges j) := by
  unfold convBefore
  rw [List.take_add_one, hx, Option.toList_some, List.filterMap_append, List.getLast?_append]
  cases hc : x.conv with
  | none => rw [List.filterMap_cons_none hc, List.filterMap_nil, List.getLast?_nil]
  | some c => rw [List.filterMap_cons_some hc, List.filterMap_nil, List.getLast?_singleton]

theorem reqNo_le_convSet (s : Connection) : s.reqNo ≤ s.convSet := by
  unfold convSet
  split <;> omega

theorem reqNo_le_vaultSet (s : Connection) : s.reqNo ≤ s.vaultSet := by
  unfold vaultSet
  split <;> omega

theorem Inv.new : (new : Connection).Inv handleOf sessionUuid piiReplace exchanges where
  cell := rfl
  piiCid := fun _ h => absurd h (by simp only [Connection.new, reduceCtorEq, not_false_eq_true])
  conv := fun m hm => absurd hm (Nat.not_lt_zero m)
  vault := fun m hm => absurd hm (Nat.not_lt_zero m)
  order := ⟨Nat.le_refl _, fun h => absurd rfl h⟩
  hand := fun _ h => absurd h (by simp only [inHand, Connection.new, reduceCtorEq,
    not_false_eq_true])
  handle := fun _ _ h => absurd h (by simp only [Connection.new, reduceCtorEq, not_false_eq_true])
  replaces := fun _ h => absurd h (by simp only [Connection.new, reduceCtorEq, not_false_eq_true])
  right := fun _ h => absurd h List.not_mem_nil
  complete := fun n hn => absurd hn (Nat.not_lt_zero n)

/-- A step of the request side keeps what is about the response side. -/
theorem Inv.request {s : Connection} (h : s.Inv handleOf sessionUuid piiReplace exchanges)
    (convCell : Option Str) (vaultCell : Option Nat) (reqNo : Nat) (reqAt : RequestStep)
    (hreq : s.reqNo ≤ reqNo)
    (hcell : convCell = convBefore exchanges (if reqAt = .setConv then reqNo else reqNo + 1))
    (hcid : ∀ piiCid, reqAt = .setVault piiCid →
      piiCid = (conversationOf exchanges reqNo).getD sessionUuid)
    (hconv : ∀ m < if reqAt = .setConv then reqNo else reqNo + 1, s.NeedsConv exchanges m →
      convCell = conversationOf exchanges m)
    (hvault : ∀ m < if reqAt = .forward then reqNo + 1 else reqNo,
      s.NeedsVault piiReplace exchanges m →
      vaultCell = some (handleOf ((conversationOf exchanges m).getD sessionUuid))) :
    Inv handleOf sessionUuid piiReplace exchanges
      { s with convCell := convCell, vaultCell := vaultCell, reqNo := reqNo, reqAt := reqAt } where
  cell := hcell
  piiCid := hcid
  conv := hconv
  vault := hvault
  order := ⟨Nat.le_trans h.order.1 hreq, fun hw => Nat.lt_of_lt_of_le (h.order.2 hw) hreq⟩
  hand := h.hand
  handle := h.handle
  replaces := h.replaces
  right := h.right
  complete := h.complete

/-- A step of the response side keeps what is about the cells: it never has to
    read again what it has read. -/
theorem Inv.respond {s : Connection} (h : s.Inv handleOf sessionUuid piiReplace exchanges)
    (s' : Connection) (hsame : s'.convCell = s.convCell ∧ s'.vaultCell = s.vaultCell ∧
      s'.reqNo = s.reqNo ∧ s'.reqAt = s.reqAt)
    (hconv : s.convRead ≤ s'.convRead) (hvault : s.vaultRead ≤ s'.vaultRead)
    (horder : s'.respNo ≤ s.reqNo ∧ (s'.respAt ≠ .waiting → s'.respNo < s.reqNo))
    (hhand : ∀ cid, s'.inHand = some cid →
      conversationOf exchanges s'.respNo = some cid ∧ contentOf exchanges s'.respNo ≠ [])
    (hhandle : ∀ cid handle, s'.respAt = .saveVault cid handle → handle = handleOf cid)
    (hreplaces : ∀ cid, s'.respAt = .readVault cid → piiReplace = true)
    (hright : ∀ f ∈ s'.filed, f.Right handleOf exchanges)
    (hcomplete : ∀ n < s'.stored, ∀ c, conversationOf exchanges n = some c →
      contentOf exchanges n ≠ [] → ∃ msg, Filing.message n msg ∈ s'.filed) :
    s'.Inv handleOf sessionUuid piiReplace exchanges := by
  rcases hsame with ⟨hc, hv, hn, hat⟩
  -- the request side is where it was, so as many requests have set the cells
  have hcs : s'.convSet = s.convSet := by rw [convSet, hat, hn, ← convSet]
  have hvs : s'.vaultSet = s.vaultSet := by rw [vaultSet, hat, hn, ← vaultSet]
  refine ⟨?_, ?_, ?_, ?_, by rw [hn]; exact horder, hhand, hhandle, hreplaces, hright, hcomplete⟩
  · rw [hc, hcs]
    exact h.cell
  · rw [hat, hn]
    exact h.piiCid
  · rw [hc, hcs]
    exact fun m hm hneed => h.conv m hm ⟨hneed.1, Nat.le_trans hconv hneed.2⟩
  · rw [hv, hvs]
    exact fun m hm hneed =>
      h.vault m hm ⟨hneed.1, hneed.2.1, Nat.le_trans hvault hneed.2.2⟩

/-- The steps of the request side keep the invariant. -/
theorem Inv.requestStep {s s' : Connection} (e : ConnectionEvent)
    (h : s.Inv handleOf sessionUuid piiReplace exchanges)
    (hok : CellsFree piiReplace exchanges s e)
    (hstep : Connection.requestStep handleOf sessionUuid exchanges e s.reqAt s = some s') :
    s'.Inv handleOf sessionUuid piiReplace exchanges := by
  cases hat : s.reqAt with
  | setConv =>
      rw [hat] at hstep
      cases e with
      | setConv =>
          rcases Option.map_eq_some_iff.mp hstep with ⟨x, hx, rfl⟩
          have hset : s.convSet = s.reqNo := if_pos hat
          -- a body that does not parse leaves the conversation of the request before
          have hcell : x.conv.or s.convCell = conversationOf exchanges s.reqNo := by
            rw [conversationOf, convBefore_succ s.reqNo x hx, h.cell, hset]
          refine h.request _ _ _ _ (Nat.le_refl _) hcell ?_ ?_ ?_
          · rintro _ he
            rw [RequestStep.setVault.injEq] at he
            rw [← he, hcell]
          · intro m hm hneed
            rw [if_neg (by simp only [reduceCtorEq, not_false_eq_true])] at hm
            rcases Nat.lt_succ_iff_lt_or_eq.mp hm with hm | rfl
            · rw [hcell]
              exact (hok m hm hneed).symm
            · exact hcell
          · intro m hm
            rw [if_neg (by simp only [reduceCtorEq, not_false_eq_true])] at hm
            refine h.vault m ?_
            have := reqNo_le_vaultSet s
            omega
      | _ => exact absurd hstep (by simp only [Connection.requestStep, reduceCtorEq,
          not_false_eq_true])
  | setVault piiCid =>
      rw [hat] at hstep
      cases e with
      | setVault =>
          rw [Connection.requestStep, Option.some.injEq] at hstep
          rw [← hstep]
          have hset : s.convSet = s.reqNo + 1 :=
            if_neg (by rw [hat]; simp only [reduceCtorEq, not_false_eq_true])
          refine h.request _ _ _ _ (Nat.le_refl _) ?_ ?_ ?_ ?_
          · rw [h.cell, hset]
            rfl
          · intro _ he
            exact absurd he (by simp only [reduceCtorEq, not_false_eq_true])
          · intro m hm
            exact h.conv m (by rw [hset]; exact hm)
          · intro m hm hneed
            rw [h.piiCid piiCid hat]
            rcases Nat.lt_succ_iff_lt_or_eq.mp hm with hm | rfl
            · rw [hok m hm hneed]
            · rfl
      | _ => exact absurd hstep (by simp only [Connection.requestStep, reduceCtorEq,
          not_false_eq_true])
  | forward =>
      rw [hat] at hstep
      cases e with
      | forward =>
          rw [Connection.requestStep, Option.some.injEq] at hstep
          rw [← hstep]
          have hset : s.convSet = s.reqNo + 1 :=
            if_neg (by rw [hat]; simp only [reduceCtorEq, not_false_eq_true])
          refine h.request _ _ _ _ (Nat.le_succ _) ?_ ?_ ?_ ?_
          · rw [h.cell, hset]
            rfl
          · intro _ he
            exact absurd he (by simp only [reduceCtorEq, not_false_eq_true])
          · intro m hm
            exact h.conv m (by rw [hset]; exact hm)
          · intro m hm
            refine h.vault m ?_
            rw [vaultSet, if_pos hat]
            exact hm
      | _ => exact absurd hstep (by simp only [Connection.requestStep, reduceCtorEq,
          not_false_eq_true])

/-- The response side goes on to the next response, having stored what there
    was to store. -/
theorem Inv.nextResponse {s : Connection} (h : s.Inv handleOf sessionUuid piiReplace exchanges)
    (filed : List Filing) (hbusy : s.respAt ≠ .waiting)
    (hright : ∀ f ∈ filed, f.Right handleOf exchanges) (hkept : ∀ f ∈ s.filed, f ∈ filed)
    (hstored : ∀ c, conversationOf exchanges s.respNo = some c →
      contentOf exchanges s.respNo ≠ [] → ∃ msg, Filing.message s.respNo msg ∈ filed) :
    Inv handleOf sessionUuid piiReplace exchanges { s.nextResponse with filed := filed } := by
  have hreads : s.convRead ≤ s.respNo + 1 ∧ s.vaultRead ≤ s.respNo + 1 ∧
      s.respNo ≤ s.stored := by
    unfold convRead vaultRead stored
    cases s.respAt <;> exact ⟨by dsimp only; omega, by dsimp only; omega, by dsimp only; omega⟩
  refine h.respond _ ⟨rfl, rfl, rfl, rfl⟩ hreads.1 hreads.2.1 ?_ ?_ ?_ ?_ hright ?_
  · exact ⟨h.order.2 hbusy, fun hw => absurd rfl hw⟩
  · exact fun _ he => absurd he (by simp only [inHand, Connection.nextResponse, reduceCtorEq,
      not_false_eq_true])
  · exact fun _ _ he => absurd he (by simp only [Connection.nextResponse, reduceCtorEq,
      not_false_eq_true])
  · exact fun _ he => absurd he (by simp only [Connection.nextResponse, reduceCtorEq,
      not_false_eq_true])
  · intro n hn c hc hne
    change n < s.respNo + 1 at hn
    rcases Nat.lt_succ_iff_lt_or_eq.mp hn with hn | rfl
    · rcases h.complete n (by omega) c hc hne with ⟨msg, hmsg⟩
      exact ⟨msg, hkept _ hmsg⟩
    · exact hstored c hc hne

/-- The response side goes on in the same response without storing. -/
theorem Inv.goOn {s : Connection} (h : s.Inv handleOf sessionUuid piiReplace exchanges)
    (respAt : ResponseStep) (hlt : s.respNo < s.reqNo)
    (hreads : s.convRead ≤ convRead { s with respAt := respAt } ∧
      s.vaultRead ≤ vaultRead { s with respAt := respAt } ∧
      stored { s with respAt := respAt } = s.stored)
    (hhand : ∀ cid, inHand { s with respAt := respAt } = some cid →
      conversationOf exchanges s.respNo = some cid ∧ contentOf exchanges s.respNo ≠ [])
    (hhandle : ∀ cid handle, respAt = .saveVault cid handle → handle = handleOf cid)
    (hreplaces : ∀ cid, respAt = .readVault cid → piiReplace = true) :
    Inv handleOf sessionUuid piiReplace exchanges { s with respAt := respAt } := by
  refine h.respond _ ⟨rfl, rfl, rfl, rfl⟩ hreads.1 hreads.2.1 ⟨h.order.1, fun _ => hlt⟩ hhand
    hhandle hreplaces h.right fun n hn => h.complete n ?_
  rw [← hreads.2.2]
  exact hn

/-- The response side reads the first cell. -/
theorem Inv.readConv {s s' : Connection} (h : s.Inv handleOf sessionUuid piiReplace exchanges)
    (hat : s.respAt = .readConv)
    (hstep : Connection.responseStep piiReplace exchanges .readConv s.respAt s = some s') :
    s'.Inv handleOf sessionUuid piiReplace exchanges := by
  have hbusy : s.respAt ≠ .waiting := by rw [hat]; simp only [ne_eq, reduceCtorEq,
    not_false_eq_true]
  have hlt := h.order.2 hbusy
  -- the cell holds what this response needs
  have hneeds : contentOf exchanges s.respNo ≠ [] →
      s.convCell = conversationOf exchanges s.respNo := by
    intro hne
    refine h.conv s.respNo (Nat.lt_of_lt_of_le hlt (reqNo_le_convSet s)) ⟨hne, ?_⟩
    rw [convRead, hat]
  rw [hat] at hstep
  simp only [Connection.responseStep] at hstep
  cases hcell : s.convCell with
  | none =>
      rw [hcell, Option.some.injEq] at hstep
      rw [← hstep]
      refine h.nextResponse s.filed hbusy h.right (fun _ hf => hf) fun c hc hne => ?_
      rw [← hneeds hne, hcell] at hc
      exact absurd hc (by simp only [reduceCtorEq, not_false_eq_true])
  | some cid =>
      rw [hcell] at hstep
      dsimp only at hstep
      by_cases hne : contentOf exchanges s.respNo = []
      · rw [if_pos hne, Option.some.injEq] at hstep
        rw [← hstep]
        exact h.nextResponse s.filed hbusy h.right (fun _ hf => hf)
          fun c _ hne' => absurd hne hne'
      · rw [if_neg hne, Option.some.injEq] at hstep
        rw [← hstep, ← hcell]
        refine h.goOn (.insertMessage cid) hlt ?_ (fun c hc => ?_) ?_ ?_
        · simp only [convRead, vaultRead, stored, hat, and_true]
          omega
        · rw [← hneeds hne, hcell]
          exact ⟨hc, hne⟩
        · exact fun _ _ he => absurd he (by simp only [reduceCtorEq, not_false_eq_true])
        · exact fun _ he => absurd he (by simp only [reduceCtorEq, not_false_eq_true])

/-- The response side stores the message. -/
theorem Inv.insertMessage {s s' : Connection} (newId ts cid : Str)
    (h : s.Inv handleOf sessionUuid piiReplace exchanges) (hat : s.respAt = .insertMessage cid)
    (hstep : Connection.responseStep piiReplace exchanges (.insertMessage newId ts) s.respAt s =
      some s') : s'.Inv handleOf sessionUuid piiReplace exchanges := by
  have hbusy : s.respAt ≠ .waiting := by rw [hat]; simp only [ne_eq, reduceCtorEq,
    not_false_eq_true]
  have hhand := h.hand cid (by rw [inHand, hat])
  rw [hat] at hstep
  rcases Option.map_eq_some_iff.mp hstep with ⟨x, _, rfl⟩
  have hright : ∀ f ∈ s.filed ++ [.message s.respNo (responseMessage newId ts cid x.response)],
      f.Right handleOf exchanges := by
    intro f hf
    rcases List.mem_append.mp hf with hf | hf
    · exact h.right f hf
    · rw [List.mem_singleton.mp hf]
      exact hhand.1
  have hnow : Filing.message s.respNo (responseMessage newId ts cid x.response) ∈
      s.filed ++ [.message s.respNo (responseMessage newId ts cid x.response)] :=
    List.mem_append_right _ List.mem_cons_self
  cases hreplace : piiReplace with
  | false =>
      rw [if_neg Bool.false_ne_true]
      rw [hreplace] at h
      exact h.nextResponse _ hbusy hright (fun f hf => List.mem_append_left _ hf)
        fun _ _ _ => ⟨_, hnow⟩
  | true =>
      rw [if_pos rfl]
      rw [hreplace] at h
      refine h.respond _ ⟨rfl, rfl, rfl, rfl⟩ ?_ ?_ ⟨h.order.1, fun _ => h.order.2 hbusy⟩ ?_ ?_ ?_
        hright ?_
      · simp only [convRead, hat]
        omega
      · simp only [vaultRead, hat]
        omega
      · intro c hc
        rw [← hc]
        exact hhand
      · exact fun _ _ he => absurd he (by simp only [reduceCtorEq, not_false_eq_true])
      · exact fun _ _ => rfl
      · intro n hn c hc hne
        rcases Nat.lt_succ_iff_lt_or_eq.mp hn with hn | rfl
        · rcases h.complete n (by simp only [stored, hat]; exact hn) c hc hne with ⟨msg, hmsg⟩
          exact ⟨msg, List.mem_append_left _ hmsg⟩
        · exact ⟨_, hnow⟩

/-- The response side reads the second cell. -/
theorem Inv.readVault {s s' : Connection} (cid : Str)
    (h : s.Inv handleOf sessionUuid piiReplace exchanges) (hat : s.respAt = .readVault cid)
    (hstep : Connection.responseStep piiReplace exchanges .readVault s.respAt s = some s') :
    s'.Inv handleOf sessionUuid piiReplace exchanges := by
  have hbusy : s.respAt ≠ .waiting := by rw [hat]; simp only [ne_eq, reduceCtorEq,
    not_false_eq_true]
  have hlt := h.order.2 hbusy
  have hhand := h.hand cid (by rw [inHand, hat])
  -- the cell holds the handle of this response's conversation
  have hcell := h.vault s.respNo (Nat.lt_of_lt_of_le hlt (reqNo_le_vaultSet s))
    ⟨h.replaces cid hat, hhand.2, by rw [vaultRead, hat]⟩
  rw [hhand.1, Option.getD_some] at hcell
  rw [hat] at hstep
  simp only [Connection.responseStep, hcell, Option.some.injEq] at hstep
  rw [← hstep, ← hcell]
  refine h.goOn (.saveVault cid (handleOf cid)) hlt ?_ (fun c hc => ?_) ?_ ?_
  · simp only [convRead, vaultRead, stored, hat, and_true]
    omega
  · rw [← hc]
    exact hhand
  · intro c handle he
    rw [ResponseStep.saveVault.injEq] at he
    rw [← he.1, ← he.2]
  · exact fun _ he => absurd he (by simp only [reduceCtorEq, not_false_eq_true])

/-- The response side saves the vault. -/
theorem Inv.saveVault {s s' : Connection} (v : PiiVault) (cid : Str) (handle : Nat)
    (h : s.Inv handleOf sessionUuid piiReplace exchanges) (hat : s.respAt = .saveVault cid handle)
    (hstep : Connection.responseStep piiReplace exchanges (.saveVault v) s.respAt s = some s') :
    s'.Inv handleOf sessionUuid piiReplace exchanges := by
  have hbusy : s.respAt ≠ .waiting := by rw [hat]; simp only [ne_eq, reduceCtorEq,
    not_false_eq_true]
  have hhand := h.hand cid (by rw [inHand, hat])
  have hstored := h.complete s.respNo (by simp only [stored, hat]; omega)
  rw [hat] at hstep
  simp only [Connection.responseStep] at hstep
  by_cases hempty : v.isEmpty = true
  · rw [if_pos hempty, Option.some.injEq] at hstep
    rw [← hstep]
    exact h.nextResponse s.filed hbusy h.right (fun _ hf => hf) hstored
  · rw [if_neg hempty, Option.some.injEq] at hstep
    rw [← hstep]
    refine h.nextResponse _ hbusy (fun f hf => ?_) (fun f hf => List.mem_append_left _ hf)
      fun c hc hne => ?_
    · rcases List.mem_append.mp hf with hf | hf
      · exact h.right f hf
      · rw [List.mem_singleton.mp hf]
        exact ⟨hhand.1, h.handle cid handle hat⟩
    · rcases hstored c hc hne with ⟨msg, hmsg⟩
      exact ⟨msg, List.mem_append_left _ hmsg⟩

/-- The steps of the response side keep the invariant. -/
theorem Inv.responseStep {s s' : Connection} (e : ConnectionEvent)
    (h : s.Inv handleOf sessionUuid piiReplace exchanges)
    (hstep : Connection.responseStep piiReplace exchanges e s.respAt s = some s') :
    s'.Inv handleOf sessionUuid piiReplace exchanges := by
  have hother : ∀ at', s.respAt = at' →
      Connection.responseStep piiReplace exchanges e at' s = none → False := by
    intro at' hat hnone
    rw [hat, hnone] at hstep
    exact absurd hstep (by simp only [reduceCtorEq, not_false_eq_true])
  cases hat : s.respAt with
  | waiting =>
      cases e with
      | finalize =>
          rw [hat] at hstep
          simp only [Connection.responseStep] at hstep
          by_cases hlt : s.respNo < s.reqNo
          · rw [if_pos hlt, Option.some.injEq] at hstep
            rw [← hstep]
            refine h.goOn .readConv hlt ?_ (fun _ he => ?_) ?_ ?_
            · simp only [convRead, vaultRead, stored, hat, and_true]
              omega
            · exact absurd he (by simp only [inHand, reduceCtorEq, not_false_eq_true])
            · exact fun _ _ he => absurd he (by simp only [reduceCtorEq, not_false_eq_true])
            · exact fun _ he => absurd he (by simp only [reduceCtorEq, not_false_eq_true])
          · rw [if_neg hlt] at hstep
            exact absurd hstep (by simp only [reduceCtorEq, not_false_eq_true])
      | _ => exact (hother _ hat rfl).elim
  | readConv =>
      cases e with
      | readConv => exact h.readConv hat hstep
      | _ => exact (hother _ hat rfl).elim
  | insertMessage cid =>
      cases e with
      | insertMessage newId ts => exact h.insertMessage newId ts cid hat hstep
      | _ => exact (hother _ hat rfl).elim
  | readVault cid =>
      cases e with
      | readVault => exact h.readVault cid hat hstep
      | _ => exact (hother _ hat rfl).elim
  | saveVault cid handle =>
      cases e with
      | saveVault v => exact h.saveVault v cid handle hat hstep
      | _ => exact (hother _ hat rfl).elim

/-- Every conforming step keeps the invariant. -/
theorem Inv.step (s : Connection) (e : ConnectionEvent) (s' : Connection)
    (h : s.Inv handleOf sessionUuid piiReplace exchanges)
    (hok : CellsFree piiReplace exchanges s e)
    (hstep : Connection.step handleOf sessionUuid piiReplace exchanges e s = some s') :
    s'.Inv handleOf sessionUuid piiReplace exchanges := by
  cases e with
  | setConv => exact h.requestStep .setConv hok hstep
  | setVault => exact h.requestStep .setVault hok hstep
  | forward => exact h.requestStep .forward hok hstep
  | finalize => exact h.responseStep .finalize hstep
  | readConv => exact h.responseStep .readConv hstep
  | insertMessage newId ts => exact h.responseStep (.insertMessage newId ts) hstep
  | readVault => exact h.responseStep .readVault hstep
  | saveVault v => exact h.responseStep (.saveVault v) hstep

end Invariant

end Connection

/-- A response is filed under the conversation it answers. In every state of a
    run in which no request overwrites a cell that is still needed, every
    message stored and every vault saved for a response went to the
    conversation of its request, the vault being that conversation's; and the
    message was stored for every response that is over and has one. -/
theorem response_filed (handleOf : Str → Nat) (sessionUuid : Str) (piiReplace : Bool)
    (exchanges : List Exchange) (es : List ConnectionEvent) (s : Connection)
    (hok : Machine.Along (Connection.step handleOf sessionUuid piiReplace exchanges)
      (CellsFree piiReplace exchanges) es .new)
    (hrun : Machine.run (Connection.step handleOf sessionUuid piiReplace exchanges) es .new =
      some s) :
    (∀ f ∈ s.filed, f.Right handleOf exchanges) ∧
      ∀ n < s.respNo, ∀ c, conversationOf exchanges n = some c → contentOf exchanges n ≠ [] →
        ∃ msg, Filing.message n msg ∈ s.filed := by
  have hinv := Machine.run_invariant
    (Connection.Inv handleOf sessionUuid piiReplace exchanges) Connection.Inv.step es .new s
    Connection.Inv.new hok hrun
  refine ⟨hinv.right, fun n hn => hinv.complete n ?_⟩
  have : s.respNo ≤ s.stored := by
    unfold Connection.stored
    cases s.respAt <;> simp only [Nat.le_refl, Nat.le_add_right]
  omega

/-- Two requests of different conversations, each with a response. -/
def twoExchanges : List Exchange :=
  [⟨some (lit "a"), ⟨lit "one", [], none, none⟩⟩, ⟨some (lit "b"), ⟨lit "two", [], none, none⟩⟩]

/-- Handles for the two conversations. -/
def twoHandles (c : Str) : Nat := if c = lit "a" then 0 else 1

/-- A vault with a mapping. -/
def oneMapping (c : Str) : PiiVault :=
  (PiiVault.new sampleHashes c).addMapping (lit "John") (lit "Alice") .personName 1 F32.one

/-- The second request comes while the first vault is being saved. -/
def oneAfterTheOther : List ConnectionEvent :=
  [.setConv, .setVault, .forward, .finalize, .readConv, .insertMessage (lit "m0") (lit "t"),
    .readVault, .setConv, .saveVault (oneMapping (lit "a")), .setVault, .forward, .finalize,
    .readConv, .insertMessage (lit "m1") (lit "t"), .readVault, .saveVault (oneMapping (lit "b"))]

/-- Both responses are filed, each with its vault. -/
theorem response_filed_two : ∃ s,
    Machine.run (Connection.step twoHandles (lit "session") true twoExchanges) oneAfterTheOther
      .new = some s ∧ s.filed.length = 4 ∧ ∀ f ∈ s.filed, f.Right twoHandles twoExchanges := by
  refine ⟨_, rfl, by decide, ?_⟩
  exact (response_filed twoHandles (lit "session") true twoExchanges oneAfterTheOther _ (by decide)
    rfl).1

/-- The client sends its second request on the terminal event of the first
    response, and the request side is through before that response is
    finalized: its message and a vault go to the second conversation. -/
theorem response_misfiled : ∃ s,
    Machine.run (Connection.step twoHandles (lit "session") true twoExchanges)
      [.setConv, .setVault, .forward, .finalize, .setConv, .setVault, .readConv,
        .insertMessage (lit "m0") (lit "t"), .readVault, .saveVault (oneMapping (lit "b"))]
      .new = some s ∧ ¬ ∀ f ∈ s.filed, f.Right twoHandles twoExchanges := by
  exact ⟨_, rfl, by decide⟩

end PrivacyClaw
