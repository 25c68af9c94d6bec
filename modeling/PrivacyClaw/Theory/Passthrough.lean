import PrivacyClaw.Theory.Requests
import PrivacyClaw.Theory.KeepAlive

/-!
# Transparent Forwarding

Outside replace mode the response loop forwards what it reads. It still guesses
where responses end, and starts its state over there; the bytes do not depend on
the guesses, because nothing of the body is ever kept and the header buffer is
cleared only after it was written.

The request loop forwards what it reads as well, but it counts how much of its
buffer is out, and forgets the count at the end of a request. Bytes of the next
request that came with the same read are still in the buffer, and go out once
more. So the client's bytes arrive as they are exactly if every request ends
where a read ends.

## Main definitions

* `Transparent`: What was written and what is kept make up what was read.
* `Aligned`: Every request ends where a read ends.
* `Relayed`: What the request loop writes from a state on, against what is due.

## Theorems

* `u2cRead_transparent`: One read of the response loop.
* `u2cReads_transparent`: All reads.
* `handleU2c_transparent`: The whole connection.
* `passLoop_relayed`: The request loop, from any state.
* `handleC2uPassthrough_iff`: When the client's bytes are written.
-/

namespace PrivacyClaw

/-- The bytes of a list of writes. -/
def writtenBytes (writes : List ClientWrite) : Str := (writes.map ClientWrite.bytes).flatten

@[simp] theorem writtenBytes_nil : writtenBytes [] = [] := rfl

@[simp] theorem writtenBytes_cons (w : ClientWrite) (ws : List ClientWrite) :
    writtenBytes (w :: ws) = w.bytes ++ writtenBytes ws := rfl

@[simp] theorem writtenBytes_append (xs ys : List ClientWrite) :
    writtenBytes (xs ++ ys) = writtenBytes xs ++ writtenBytes ys := by
  simp only [writtenBytes, List.map_append, List.flatten_append]

/-- The state outside replace mode: no buffer, and only an unfinished header
    block is kept. -/
structure U2cState.Transparent (s : U2cState) : Prop where
  repBuf : s.repBuf = none
  unfinished : findHeaderEnd s.raw = none
  body : s.headerDone = true → s.raw = []

theorem U2cState.start_transparent : U2cState.start.Transparent where
  repBuf := rfl
  unfinished := rfl
  body := fun h => absurd h (by decide)

section Loop

variable {env : U2cEnv} (hoff : env.piiReplace = false)
include hoff

/-- Nothing but the parser and the body copy is touched by a body piece, and the
    piece itself is written. -/
theorem bodyPiece_transparent (chunk : Str) (s : U2cState) :
    (bodyPiece env chunk s).1 = [.raw chunk] ∧
      (bodyPiece env chunk s).2.1.repBuf = s.repBuf ∧
      (bodyPiece env chunk s).2.1.raw = s.raw := by
  unfold bodyPiece
  simp only [hoff, Bool.false_and, Bool.false_eq_true, if_false]
  refine ⟨trivial, ?_⟩
  by_cases hs : s.isSse = true
  · simp only [processResponseChunk, hs, if_true, and_self]
  · simp only [processResponseChunk, hs, Bool.false_eq_true, if_false, and_self]

theorem takeRead_transparent (chunk : Str) (s : U2cState) (hs : s.Transparent) :
    (takeRead env chunk s).2.1.Transparent ∧
      writtenBytes (takeRead env chunk s).1 ++ (takeRead env chunk s).2.1.raw = s.raw ++ chunk := by
  unfold takeRead
  by_cases hdone : s.headerDone = true
  · -- A body piece: nothing was kept, and nothing is.
    obtain ⟨hw, hrep, hraw⟩ := bodyPiece_transparent hoff chunk
      { s with bodyReceived := s.bodyReceived + chunk.length }
    have hnil : s.raw = [] := hs.body hdone
    rw [if_pos hdone]
    refine ⟨⟨hrep.trans hs.repBuf, ?_, fun _ => hraw.trans hnil⟩, ?_⟩
    · rw [hraw]
      exact hs.unfinished
    · rw [hw, hraw]
      simp only [hnil, writtenBytes_cons, writtenBytes_nil, ClientWrite.bytes, List.append_nil,
        List.nil_append]
  · rw [if_neg hdone]
    dsimp only
    cases hend : findHeaderEnd (s.raw ++ chunk) with
    | none =>
      rw [writtenBytes_nil, List.nil_append]
      exact ⟨⟨hs.repBuf, hend, fun h => absurd h hdone⟩, rfl⟩
    | some hdrEnd =>
      -- The headers go out, and behind them what is left of the read.
      have hrep : (headersDone env ((s.raw ++ chunk).take hdrEnd) s).repBuf = none := by
        simp only [headersDone, hoff, Bool.false_and, Bool.false_eq_true, if_false, hs.repBuf]
      by_cases hlt : hdrEnd < (s.raw ++ chunk).length
      · simp only [hlt, if_true]
        obtain ⟨hw, hrep', hraw⟩ := bodyPiece_transparent hoff ((s.raw ++ chunk).drop hdrEnd)
          { headersDone env ((s.raw ++ chunk).take hdrEnd) s with
            bodyReceived := (headersDone env ((s.raw ++ chunk).take hdrEnd) s).bodyReceived +
              ((s.raw ++ chunk).length - hdrEnd) }
        refine ⟨⟨hrep'.trans hrep, ?_, fun _ => hraw⟩, ?_⟩
        · rw [hraw]
          rfl
        · rw [hw, hraw]
          simp only [headersDone, writtenBytes_cons, writtenBytes_nil, ClientWrite.bytes,
            List.append_nil, List.take_append_drop]
      · simp only [hlt, if_false]
        refine ⟨⟨hrep, rfl, fun _ => rfl⟩, ?_⟩
        have hall : (s.raw ++ chunk).take hdrEnd = s.raw ++ chunk :=
          List.take_of_length_le (by omega)
        simp only [headersDone, writtenBytes_cons, writtenBytes_nil, ClientWrite.bytes,
          List.append_nil, hall]

/-- Starting over loses nothing: where it happens the headers are out and the
    buffer is empty. -/
theorem u2cRead_transparent (chunk : Str) (s : U2cState) (hs : s.Transparent) :
    (u2cRead env chunk s).2.Transparent ∧
      writtenBytes (u2cRead env chunk s).1 ++ (u2cRead env chunk s).2.raw = s.raw ++ chunk := by
  obtain ⟨ht, hbytes⟩ := takeRead_transparent hoff chunk s hs
  unfold u2cRead
  by_cases hdone : (responseComplete (takeRead env chunk s).2.1 (takeRead env chunk s).2.2 &&
      (takeRead env chunk s).2.1.headerDone) = true
  · simp only [hdone, if_true]
    refine ⟨⟨rfl, ht.unfinished, fun h => absurd h Bool.false_ne_true⟩, ?_⟩
    simp only [ht.repBuf, flushRepBufAndFinalize, flushRepBufRemainingAsChunk, hoff,
      Bool.false_and, Bool.false_eq_true, if_false, List.append_nil]
    exact hbytes
  · simp only [hdone, Bool.false_eq_true, if_false]
    exact ⟨ht, hbytes⟩

theorem u2cReads_transparent : ∀ (reads : List Str) (s : U2cState), s.Transparent →
    (u2cReads env reads s).2.Transparent ∧
      writtenBytes (u2cReads env reads s).1 ++ (u2cReads env reads s).2.raw =
        s.raw ++ reads.flatten := by
  intro reads
  induction reads with
  | nil => exact fun s hs => ⟨hs, by simp only [u2cReads, writtenBytes_nil, List.nil_append,
      List.flatten_nil, List.append_nil]⟩
  | cons chunk chunks ih =>
    intro s hs
    obtain ⟨ht, hbytes⟩ := u2cRead_transparent hoff chunk s hs
    obtain ⟨ht', hbytes'⟩ := ih (u2cRead env chunk s).2 ht
    refine ⟨ht', ?_⟩
    simp only [u2cReads, writtenBytes_append, List.append_assoc]
    rw [hbytes', ← List.append_assoc, hbytes, List.append_assoc, List.flatten_cons]

end Loop

/-- Outside replace mode, what the client has after any list of reads is what
    was read, but for a header block that has not ended; the end of the
    connection adds nothing. -/
theorem handleU2c_transparent (env : U2cEnv) (hoff : env.piiReplace = false) (reads : List Str) :
    writtenBytes (handleU2c env reads) = writtenBytes (u2cReads env reads U2cState.start).1 ∧
      ∃ rest, writtenBytes (handleU2c env reads) ++ rest = reads.flatten ∧
        findHeaderEnd rest = none := by
  obtain ⟨ht, hbytes⟩ := u2cReads_transparent hoff reads U2cState.start U2cState.start_transparent
  have hflush : handleU2c env reads = (u2cReads env reads U2cState.start).1 := by
    simp only [handleU2c, ht.repBuf, flushRepBufAndFinalize, flushRepBufRemainingAsChunk,
      List.append_nil]
  rw [hflush]
  exact ⟨rfl, _, hbytes, ht.unfinished⟩

/-- A read with a whole response and the beginning of the next header block. -/
theorem handleU2c_transparent_cut :
    writtenBytes (handleU2c { nameEnv with piiReplace := false } [nameReply.bytes ++ lit "HTTP/1.1"])
        = writtenBytes (u2cReads { nameEnv with piiReplace := false }
          [nameReply.bytes ++ lit "HTTP/1.1"] U2cState.start).1 ∧
      ∃ rest, writtenBytes (handleU2c { nameEnv with piiReplace := false }
          [nameReply.bytes ++ lit "HTTP/1.1"]) ++ rest =
            [nameReply.bytes ++ lit "HTTP/1.1"].flatten ∧
        findHeaderEnd rest = none :=
  handleU2c_transparent _ rfl _

open ClientRequest (bytes taken)

/-- Every request before the first whose header block is not text ends where a
    read ends, with `raw` read before. -/
def Aligned (raw : Str) (reads : List Str) (requests : List ClientRequest) : Prop :=
  ∀ done later, requests = done ++ later → done ≠ [] → (∀ q ∈ done, utf8Valid q.header = true) →
    ∃ first rest, reads = first ++ rest ∧ raw ++ first.flatten = (done.map bytes).flatten

section Aligned

variable {q : ClientRequest} {qs : List ClientRequest} {raw chunk : Str} {reads : List Str}

/-- While the first request is not complete, a read changes nothing. -/
theorem aligned_read (h : raw.length < q.bytes.length) :
    Aligned raw (chunk :: reads) (q :: qs) ↔ Aligned (raw ++ chunk) reads (q :: qs) := by
  constructor
  · intro hal done later hsplit hne hutf
    obtain ⟨first, rest, hreads, hfirst⟩ := hal done later hsplit hne hutf
    cases first with
    | nil =>
      -- Then `raw` alone would hold the first request.
      exfalso
      obtain ⟨d, ds, rfl⟩ := List.exists_cons_of_ne_nil hne
      obtain ⟨rfl, -⟩ := List.cons.inj hsplit
      have hlen := congrArg List.length hfirst
      simp only [List.flatten_nil, List.append_nil, List.map_cons, List.flatten_cons,
        List.length_append] at hlen
      omega
    | cons c first =>
      obtain ⟨rfl, hrest⟩ := List.cons.inj hreads
      exact ⟨first, rest, hrest, by rw [List.append_assoc]; exact hfirst⟩
  · intro hal done later hsplit hne hutf
    obtain ⟨first, rest, hreads, hfirst⟩ := hal done later hsplit hne hutf
    refine ⟨chunk :: first, rest, by rw [hreads]; rfl, ?_⟩
    rw [List.flatten_cons, ← List.append_assoc, hfirst]

/-- A complete request must be all there is. -/
theorem aligned_done (hutf : utf8Valid q.header = true) (behind : Str) :
    Aligned (q.bytes ++ behind) reads (q :: qs) ↔ behind = [] ∧ Aligned [] reads qs := by
  constructor
  · intro hal
    -- The first request alone must end between two reads: nothing is behind it.
    have hnil : behind = [] := by
      obtain ⟨first, rest, -, hfirst⟩ := hal [q] qs rfl (List.cons_ne_nil _ _) (by
        intro d hd
        rwa [List.mem_singleton.mp hd])
      have hlen := congrArg List.length hfirst
      simp only [List.map_cons, List.map_nil, List.flatten_cons, List.flatten_nil,
        List.length_append, List.append_nil] at hlen
      exact List.length_eq_zero_iff.mp (by omega)
    subst hnil
    refine ⟨rfl, fun done later hsplit hne hall => ?_⟩
    obtain ⟨first, rest, hreads, hfirst⟩ := hal (q :: done) later (by rw [hsplit]; rfl)
      (List.cons_ne_nil _ _) (List.forall_mem_cons.mpr ⟨hutf, hall⟩)
    refine ⟨first, rest, hreads, ?_⟩
    rw [List.append_nil, List.map_cons, List.flatten_cons, List.append_cancel_left_eq] at hfirst
    exact hfirst
  · rintro ⟨rfl, hal⟩ done later hsplit hne hall
    obtain ⟨d, ds, rfl⟩ := List.exists_cons_of_ne_nil hne
    obtain ⟨rfl, hqs⟩ := List.cons.inj hsplit
    cases ds with
    | nil => exact ⟨[], reads, rfl, by simp only [List.flatten_nil, List.append_nil, List.map_cons,
        List.map_nil, List.flatten_cons]⟩
    | cons d ds =>
      obtain ⟨first, rest, hreads, hfirst⟩ := hal (d :: ds) later hqs (List.cons_ne_nil _ _)
        fun p hp => hall p (List.mem_cons_of_mem _ hp)
      refine ⟨first, rest, hreads, ?_⟩
      rw [List.append_nil, List.map_cons, List.flatten_cons, ← hfirst, List.nil_append]

theorem aligned_nil : Aligned raw reads [] := by
  intro done later hsplit hne
  exact absurd (List.append_eq_nil_iff.mp hsplit.symm).1 hne

/-- Behind a header block that is not text nothing is asked. -/
theorem aligned_unread (hutf : utf8Valid q.header = false) : Aligned raw reads (q :: qs) := by
  intro done later hsplit hne hall
  obtain ⟨d, ds, rfl⟩ := List.exists_cons_of_ne_nil hne
  obtain ⟨rfl, -⟩ := List.cons.inj hsplit
  exact absurd (hall q List.mem_cons_self) (by rw [hutf]; decide)

end Aligned

section Requests

/-- A complete request whose body has a declared length. -/
structure ClientRequest.Sized (q : ClientRequest) : Prop extends q.WellFormed where
  sized : q.body.declared = .length q.body.bytes.length

theorem ClientRequest.Sized.length {q : ClientRequest} (hq : q.Sized)
    (hutf : utf8Valid q.header = true) :
    parseContentLength q.header = some q.body.bytes.length :=
  declaration_eq_length ((hq.declares hutf).trans hq.sized)

/-- The loop's state with the header block of a request complete and `sent` bytes
    of the buffer written. -/
def serving (q : ClientRequest) (sent : Nat) : HttpFramingState where
  headerDone := true
  contentLength := parseContentLength q.header
  isChunked := (parseContentLength q.header).isNone && isChunkedEncoding q.header
  bodyStart := q.header.length
  forwarded := sent

theorem forwardEagerly_spec (raw : Str) (st : HttpFramingState) (hc : st.isChunked = false)
    (hle : st.forwarded ≤ raw.length) :
    (forwardEagerly raw st).1.flatten = raw.drop st.forwarded ∧
      (forwardEagerly raw st).2 = { st with forwarded := raw.length } := by
  by_cases hlt : st.forwarded < raw.length
  · simp only [forwardEagerly, hc, hlt, Bool.not_false, decide_true, Bool.and_self, if_true,
      List.flatten_cons, List.flatten_nil, List.append_nil, and_self]
  · have heq : st.forwarded = raw.length := by omega
    have hnone : forwardEagerly raw st = ([], st) := by
      rw [forwardEagerly, if_neg (by simp only [hlt, decide_false, Bool.and_false,
        Bool.false_eq_true, not_false_eq_true])]
    rw [hnone, heq, List.drop_length]
    exact ⟨rfl, by rw [← heq]⟩

theorem needsMore_serving (q : ClientRequest) (sent n : Nat) (b : Str)
    (hlen : parseContentLength q.header = some n) :
    needsMore (q.header ++ b) (serving q sent) = decide (b.length < n) := by
  simp only [needsMore, serving, hlen, Bool.not_true, Bool.false_eq_true, if_false,
    List.length_append]
  exact decide_eq_decide.mpr (by omega)

variable {q : ClientRequest} (hq : q.Sized)
include hq

/-- With the header block there, a turn from the start is one of the request. -/
theorem passTurn_start (b : Str) :
    passTurn (q.header ++ b) {} = passTurn (q.header ++ b) (serving q 0) := by
  have hend := findHeaderEnd_append q.header b _ hq.ends
  simp only [passTurn, hend, Bool.false_eq_true, if_false, HttpFramingState.parsed, List.take_left,
    serving, if_true]

omit hq in
/-- Nothing happens before the header block is complete. -/
theorem passTurn_short (raw : Str) (h : findHeaderEnd raw = none) :
    passTurn raw {} = some ([], raw, {}) := by
  simp only [passTurn, h, Bool.false_eq_true, if_false]

section Text

variable (hutf : utf8Valid q.header = true)
include hutf

/-- A turn before the body is complete. -/
theorem passTurn_waiting (b : Str) (sent : Nat) (hsent : sent ≤ (q.header ++ b).length)
    (hb : b.length < q.body.bytes.length) :
    ∃ writes, passTurn (q.header ++ b) (serving q sent) =
        some (writes, q.header ++ b, serving q (q.header ++ b).length) ∧
      writes.flatten = (q.header ++ b).drop sent := by
  have hlen := hq.length hutf
  have hspec := forwardEagerly_spec (q.header ++ b) (serving q sent)
    (by simp only [serving, hlen, Option.isNone_some, Bool.false_and]) hsent
  refine ⟨_, ?_, hspec.1⟩
  have hshort : ¬ q.header.length + q.body.bytes.length ≤ (q.header ++ b).length := by
    rw [List.length_append]
    omega
  simp only [passTurn, hspec.2]
  simp only [serving, if_true, passComplete, hlen, hshort, if_false, Option.bind_eq_bind,
    Option.bind_some, List.append_nil]

/-- The turn that completes the request. -/
theorem passTurn_complete (behind : Str) (sent : Nat) (hsent : sent ≤ (q.bytes ++ behind).length) :
    ∃ writes, passTurn (q.bytes ++ behind) (serving q sent) = some (writes, behind, {}) ∧
      writes.flatten = (q.bytes ++ behind).drop sent := by
  have hlen := hq.length hutf
  have hspec := forwardEagerly_spec (q.bytes ++ behind) (serving q sent)
    (by simp only [serving, hlen, Option.isNone_some, Bool.false_and]) hsent
  refine ⟨_, ?_, hspec.1⟩
  have hall : q.header.length + q.body.bytes.length ≤ (q.bytes ++ behind).length := by
    rw [ClientRequest.bytes, List.length_append, List.length_append]
    omega
  have hdrop : (q.bytes ++ behind).drop (q.header.length + q.body.bytes.length) = behind := by
    rw [List.drop_left' (by rw [ClientRequest.bytes, List.length_append])]
  simp only [passTurn, hspec.2]
  simp only [serving, if_true, passComplete, hlen, hall, hdrop, Option.bind_eq_bind,
    Option.bind_some, List.append_nil]

end Text

omit hq in
/-- A turn behind a header block that is not text: all of it is forwarded, until
    the client is gone. -/
theorem passTurn_unread (hutf : utf8Valid q.header = false) (b : Str) (sent : Nat)
    (hsent : sent ≤ (q.header ++ b).length) :
    ∃ writes, passTurn (q.header ++ b) (serving q sent) =
        some (writes, q.header ++ b, serving q (q.header ++ b).length) ∧
      writes.flatten = (q.header ++ b).drop sent := by
  have hnone : parseContentLength q.header = none := by
    simp only [parseContentLength, hutf, Bool.false_eq_true, if_false]
  have hch : isChunkedEncoding q.header = false := by
    simp only [isChunkedEncoding, hutf, Bool.false_and]
  have hspec := forwardEagerly_spec (q.header ++ b) (serving q sent)
    (by simp only [serving, hch, Bool.and_false]) hsent
  refine ⟨_, ?_, hspec.1⟩
  simp only [passTurn, hspec.2]
  simp only [serving, if_true, passComplete, hnone, hch, Bool.and_false, Bool.false_eq_true,
    if_false, Option.bind_eq_bind, Option.bind_some, List.append_nil]

omit hq in
/-- From there on everything that is read is written. -/
theorem passLoop_unread (hutf : utf8Valid q.header = false) : ∀ (reads : List Str) (fuel : Nat)
    (b : Str), reads.length < fuel →
    (passLoop fuel (q.header ++ b) (serving q (q.header ++ b).length) reads).flatten =
      reads.flatten := by
  -- No length and no chunks are declared, so the loop never takes it for complete.
  have hmore : ∀ b sent, needsMore (q.header ++ b) (serving q sent) = true := by
    intro b sent
    simp only [needsMore, serving, parseContentLength, isChunkedEncoding, hutf, Bool.not_true,
      Bool.false_eq_true, if_false, Bool.false_and, Bool.and_false]
  intro reads
  induction reads with
  | nil =>
    intro fuel b hfuel
    obtain ⟨fuel, rfl⟩ := Nat.exists_eq_succ_of_ne_zero (Nat.ne_of_gt hfuel)
    simp only [passLoop, hmore, if_true]
  | cons chunk reads ih =>
    intro fuel b hfuel
    obtain ⟨fuel, rfl⟩ := Nat.exists_eq_succ_of_ne_zero (Nat.ne_of_gt (Nat.lt_of_le_of_lt
      (Nat.zero_le _) hfuel))
    rw [List.length_cons] at hfuel
    obtain ⟨writes, hturn, hwrites⟩ := passTurn_unread hutf (b ++ chunk) (q.header ++ b).length
      (by simp only [List.length_append]; omega)
    rw [← List.append_assoc] at hturn hwrites
    simp only [passLoop, hmore, if_true, hturn, List.flatten_append, hwrites, List.flatten_cons,
      List.drop_left]
    rw [List.append_assoc, ih fuel (b ++ chunk) (by omega)]

end Requests

/-- What the loop writes from a state on, where `raw` is the buffer and `sent`
    bytes of it are out: at least the rest, and the rest exactly if the requests
    are aligned. -/
structure Relayed (raw : Str) (sent : Nat) (reads : List Str) (requests : List ClientRequest)
    (written : Str) : Prop where
  bound : (raw.drop sent ++ reads.flatten).length ≤ written.length
  exact : written = raw.drop sent ++ reads.flatten ↔ Aligned raw reads requests

/-- A read while the first request is not complete. -/
theorem Relayed.read {q : ClientRequest} {qs : List ClientRequest} {raw chunk : Str} {sent : Nat}
    {reads : List Str} {written : Str} (h : Relayed (raw ++ chunk) sent reads (q :: qs) written)
    (hsent : sent ≤ raw.length) (hlt : raw.length < q.bytes.length) :
    Relayed raw sent (chunk :: reads) (q :: qs) written := by
  have hdue : raw.drop sent ++ (chunk :: reads).flatten =
      (raw ++ chunk).drop sent ++ reads.flatten := by
    rw [List.flatten_cons, ← List.append_assoc, List.drop_append_of_le_length hsent]
  refine ⟨?_, ?_⟩
  · rw [hdue]
    exact h.bound
  · rw [hdue, aligned_read hlt]
    exact h.exact

/-- Writing what is due. -/
theorem Relayed.write {raw : Str} {reads : List Str} {requests : List ClientRequest}
    {written : Str} (h : Relayed raw raw.length reads requests written) (sent : Nat) :
    Relayed raw sent reads requests (raw.drop sent ++ written) := by
  have hbound := h.bound
  have hexact := h.exact
  rw [List.drop_length, List.nil_append] at hbound hexact
  refine ⟨?_, ?_⟩
  · simp only [List.length_append] at hbound ⊢
    omega
  · rw [List.append_cancel_left_eq]
    exact hexact

/-- Going on with the next request: bytes of it that are in the buffer are written
    twice. -/
theorem Relayed.next {q : ClientRequest} {qs : List ClientRequest} {behind : Str}
    {reads : List Str} {written : Str} (h : Relayed behind 0 reads qs written)
    (hutf : utf8Valid q.header = true) (sent : Nat) :
    Relayed (q.bytes ++ behind) sent reads (q :: qs)
      ((q.bytes ++ behind).drop sent ++ written) := by
  have hbound := h.bound
  have hexact := h.exact
  rw [List.drop_zero] at hbound hexact
  refine ⟨?_, ?_⟩
  · simp only [List.length_append] at hbound ⊢
    omega
  · rw [List.append_cancel_left_eq, aligned_done hutf]
    constructor
    · intro hw
      have hnil : behind = [] := by
        rw [hw, List.length_append] at hbound
        exact List.length_eq_zero_iff.mp (by omega)
      subst hnil
      exact ⟨rfl, hexact.mp (by rw [hw, List.nil_append])⟩
    · rintro ⟨rfl, hal⟩
      rw [hexact.mpr hal, List.nil_append]

/-- The states of the loop at its head: before the header block of a request was
    looked at, or with its body incomplete. -/
def AtHead (raw : Str) (st : HttpFramingState) : List ClientRequest → Prop
  | [] => st = {}
  | q :: _ => st = {} ∨ (utf8Valid q.header = true ∧ st = serving q raw.length ∧
      ∃ b, raw = q.header ++ b ∧ b.length < q.body.bytes.length)

/-- How long the loop can go on. -/
def turnsLeft (raw : Str) (st : HttpFramingState) (reads : List Str) : Nat :=
  raw.length + reads.flatten.length + 2 * reads.length + (if st.headerDone then 0 else 1)

section Turn

variable {q : ClientRequest} {qs : List ClientRequest} (hq : q.Sized) (fuel : Nat)
  (reads : List Str) (raw : Str)
  (hrec : ∀ (requests : List ClientRequest) (raw' : Str) (st' : HttpFramingState),
    (requests = q :: qs ∨ requests = qs) → AtHead raw' st' requests →
    raw' ++ reads.flatten = (requests.map bytes).flatten → turnsLeft raw' st' reads < fuel →
    Relayed raw' st'.forwarded reads requests (passLoop fuel raw' st' reads).flatten)
  (htotal : raw ++ reads.flatten = ((q :: qs).map bytes).flatten)
  (hfuel : raw.length + reads.flatten.length + 2 * reads.length < fuel)
include hq hrec htotal hfuel

/-- A turn with the header block of the request in the buffer, and the rest of the
    loop by induction. -/
theorem turn_relayed (b : Str) (hb : raw = q.header ++ b) (sent : Nat) (hsent : sent ≤ raw.length) :
    ∃ writes raw' st', passTurn raw (serving q sent) = some (writes, raw', st') ∧
      Relayed raw sent reads (q :: qs) (writes ++ passLoop fuel raw' st' reads).flatten := by
  have hpre : b <+: q.body.bytes ++ (qs.map bytes).flatten := by
    rw [← List.prefix_append_right_inj q.header, ← hb]
    refine ⟨reads.flatten, ?_⟩
    rw [htotal, List.map_cons, List.flatten_cons, ClientRequest.bytes, List.append_assoc]
  by_cases hutf : utf8Valid q.header = true
  · rcases prefix_cases _ _ _ hpre with ⟨r, hr, hne⟩ | ⟨behind, hbehind⟩
    · -- The body is not complete: the loop reads on.
      have hlt : b.length < q.body.bytes.length := by
        have hpos := List.length_pos_of_ne_nil hne
        rw [hr, List.length_append]
        omega
      rw [hb] at hsent
      obtain ⟨writes, hturn, hwrites⟩ := passTurn_waiting hq hutf b sent hsent hlt
      rw [← hb] at hturn hwrites
      have h := hrec (q :: qs) raw (serving q raw.length) (Or.inl rfl)
        (Or.inr ⟨hutf, rfl, b, hb, hlt⟩) htotal (by simp only [turnsLeft, serving, if_true]; omega)
      refine ⟨writes, raw, _, hturn, ?_⟩
      rw [List.flatten_append, hwrites]
      exact h.write sent
    · -- The request is complete, with the bytes `behind` left.
      have hraw : raw = q.bytes ++ behind := by
        rw [hb, hbehind, ClientRequest.bytes, List.append_assoc]
      have hhead := (findHeaderEnd_bounds _ _ hq.ends).1
      have hlen : raw.length = q.header.length + q.body.bytes.length + behind.length := by
        rw [hraw, ClientRequest.bytes, List.length_append, List.length_append]
      rw [hraw] at hsent
      obtain ⟨writes, hturn, hwrites⟩ := passTurn_complete hq hutf behind sent hsent
      have hrest : behind ++ reads.flatten = (qs.map bytes).flatten := by
        rw [hraw, List.map_cons, List.flatten_cons, List.append_assoc,
          List.append_cancel_left_eq] at htotal
        exact htotal
      have hhd : AtHead behind {} qs := by
        cases qs with
        | nil => rfl
        | cons p ps => exact Or.inl rfl
      have h := hrec qs behind {} (Or.inr rfl) hhd hrest (by
        simp only [turnsLeft, Bool.false_eq_true, if_false]
        omega)
      refine ⟨writes, behind, {}, by rw [hraw]; exact hturn, ?_⟩
      rw [List.flatten_append, hwrites, hraw]
      exact h.next hutf sent
  -- A header block that is not UTF-8 declares nothing: the loop relays from here on
  -- what it reads.
  · rw [Bool.not_eq_true] at hutf
    rw [hb] at hsent
    obtain ⟨writes, hturn, hwrites⟩ := passTurn_unread hutf b sent hsent
    have hout := passLoop_unread hutf reads fuel b (by omega)
    refine ⟨writes, _, _, by rw [hb]; exact hturn, ?_⟩
    rw [List.flatten_append, hwrites, hout, ← hb]
    exact ⟨Nat.le_refl _, iff_of_true rfl (aligned_unread hutf)⟩

/-- The same at the head of the loop, where the state may be a new one. -/
theorem turn_relayed_head (b : Str) (hb : raw = q.header ++ b) (st : HttpFramingState)
    (hst : st = {} ∨ ∃ sent, sent ≤ raw.length ∧ st = serving q sent) :
    ∃ writes raw' st', passTurn raw st = some (writes, raw', st') ∧
      Relayed raw st.forwarded reads (q :: qs) (writes ++ passLoop fuel raw' st' reads).flatten := by
  rcases hst with rfl | ⟨sent, hsent, rfl⟩
  · have h := turn_relayed hq fuel reads raw hrec htotal hfuel b hb 0 (Nat.zero_le _)
    rw [hb, passTurn_start hq, ← hb]
    exact h
  · exact turn_relayed hq fuel reads raw hrec htotal hfuel b hb sent hsent

end Turn

/-- Nothing more is out than there is. -/
theorem AtHead.sent {raw : Str} {st : HttpFramingState} {q : ClientRequest}
    {qs : List ClientRequest} (hst : AtHead raw st (q :: qs)) :
    st = {} ∨ ∃ sent, sent ≤ raw.length ∧ st = serving q sent := by
  rcases hst with rfl | ⟨-, rfl, -⟩
  · exact Or.inl rfl
  · exact Or.inr ⟨raw.length, Nat.le_refl _, rfl⟩

/-- Where the loop reads, the request is not complete. -/
theorem AtHead.incomplete {raw rest : Str} {st : HttpFramingState} {q : ClientRequest}
    {qs : List ClientRequest} (hst : AtHead raw st (q :: qs)) (hq : q.Sized)
    (hpre : raw <+: q.header ++ rest) (hmore : needsMore raw st = true) :
    raw.length < q.bytes.length := by
  rcases hst with rfl | ⟨-, -, b, rfl, hb⟩
  · rcases prefix_cases _ _ _ hpre with ⟨r, hr, hne⟩ | ⟨b, rfl⟩
    · have hpos := List.length_pos_of_ne_nil hne
      have hlen := congrArg List.length hr
      rw [List.length_append] at hlen
      rw [ClientRequest.bytes, List.length_append]
      omega
    · simp only [needsMore, findHeaderEnd_append q.header b _ hq.ends, Bool.not_false,
        if_true, Option.isNone_some, Bool.false_eq_true] at hmore
  · rw [ClientRequest.bytes, List.length_append, List.length_append]
    omega

/-- A read, and the turn behind it. -/
theorem read_relayed {q : ClientRequest} {qs : List ClientRequest} (hq : q.Sized) (fuel : Nat)
    (reads : List Str) (raw chunk : Str) (st : HttpFramingState)
    (hrec : ∀ (requests : List ClientRequest) (raw' : Str) (st' : HttpFramingState),
      (requests = q :: qs ∨ requests = qs) → AtHead raw' st' requests →
      raw' ++ reads.flatten = (requests.map bytes).flatten → turnsLeft raw' st' reads < fuel →
      Relayed raw' st'.forwarded reads requests (passLoop fuel raw' st' reads).flatten)
    (hst : AtHead raw st (q :: qs))
    (htotal : raw ++ chunk ++ reads.flatten = ((q :: qs).map bytes).flatten)
    (hfuel : (raw ++ chunk).length + reads.flatten.length + 2 * reads.length + 1 < fuel) :
    ∃ writes raw' st', passTurn (raw ++ chunk) st = some (writes, raw', st') ∧
      Relayed (raw ++ chunk) st.forwarded reads (q :: qs)
        (writes ++ passLoop fuel raw' st' reads).flatten := by
  have hpre : raw ++ chunk <+: q.header ++ (q.body.bytes ++ (qs.map bytes).flatten) := by
    refine ⟨reads.flatten, ?_⟩
    rw [htotal, List.map_cons, List.flatten_cons, ClientRequest.bytes, List.append_assoc]
  rcases prefix_cases _ _ _ hpre with ⟨r, hr, hne⟩ | ⟨b, hb⟩
  · -- The header block is not complete.
    have hstart : st = {} := by
      rcases hst with rfl | ⟨-, -, b, rfl, -⟩
      · rfl
      · have hpos := List.length_pos_of_ne_nil hne
        have hlen := congrArg List.length hr
        simp only [List.length_append] at hlen
        omega
    have hturn := passTurn_short _ (findHeaderEnd_short q.header _ r hq.ends hr hne)
    have hrel := hrec (q :: qs) (raw ++ chunk) {} (Or.inl rfl) (Or.inl rfl) htotal
      (by simp only [turnsLeft, Bool.false_eq_true, if_false]; omega)
    rw [hstart]
    exact ⟨_, _, _, hturn, hrel⟩
  · refine turn_relayed_head hq fuel reads (raw ++ chunk) hrec htotal (by omega) b hb st ?_
    rcases hst.sent with rfl | ⟨sent, hle, rfl⟩
    · exact Or.inl rfl
    · exact Or.inr ⟨sent, by rw [List.length_append]; omega, rfl⟩

/-- After the last request nothing is written. -/
theorem passLoop_empty : ∀ (fuel : Nat) (reads : List Str), reads.flatten = [] →
    passLoop fuel [] {} reads = [] := by
  intro fuel
  induction fuel with
  | zero => exact fun _ _ => rfl
  | succ fuel ih =>
    intro reads hflat
    cases reads with
    | nil => rfl
    | cons chunk reads =>
      obtain ⟨rfl, hrest⟩ := List.append_eq_nil_iff.mp hflat
      exact ih reads hrest

/-- The loop from any state at its head. -/
theorem passLoop_relayed : ∀ (fuel : Nat) (reads : List Str) (requests : List ClientRequest)
    (raw : Str) (st : HttpFramingState), (∀ q ∈ requests, q.Sized) → AtHead raw st requests →
    raw ++ reads.flatten = (requests.map bytes).flatten → turnsLeft raw st reads < fuel →
    Relayed raw st.forwarded reads requests (passLoop fuel raw st reads).flatten := by
  intro fuel
  induction fuel with
  | zero => exact fun _ _ _ _ _ _ _ h => absurd h (Nat.not_lt_zero _)
  | succ fuel ih =>
    -- Induction on the turns that are left: a turn takes a request, or waits for one
    -- more read, and `turnsLeft` counts both.
    intro reads requests raw st hall hst htotal hfuel
    cases requests with
    | nil =>
      obtain ⟨rfl, hflat⟩ := List.append_eq_nil_iff.mp htotal
      rw [show st = {} from hst, passLoop_empty _ _ hflat]
      exact ⟨by rw [hflat]; exact Nat.le_refl _, iff_of_true (by rw [hflat]; rfl) aligned_nil⟩
    | cons q qs =>
      have hq := hall q List.mem_cons_self
      have hrec : ∀ reads, ∀ (requests : List ClientRequest) (raw' : Str)
          (st' : HttpFramingState), (requests = q :: qs ∨ requests = qs) →
          AtHead raw' st' requests → raw' ++ reads.flatten = (requests.map bytes).flatten →
          turnsLeft raw' st' reads < fuel →
          Relayed raw' st'.forwarded reads requests (passLoop fuel raw' st' reads).flatten := by
        intro reads requests raw' st' hreq
        refine ih reads requests raw' st' ?_
        rcases hreq with rfl | rfl
        · exact hall
        · exact fun p hp => hall p (List.mem_cons_of_mem _ hp)
      have hpre : raw <+: q.header ++ (q.body.bytes ++ (qs.map bytes).flatten) := by
        refine ⟨reads.flatten, ?_⟩
        rw [htotal, List.map_cons, List.flatten_cons, ClientRequest.bytes, List.append_assoc]
      by_cases hmore : needsMore raw st = true
      · -- A read comes first.
        have hlt := hst.incomplete hq hpre hmore
        have hsent : st.forwarded ≤ raw.length := by
          rcases hst.sent with rfl | ⟨sent, hsent, rfl⟩
          · exact Nat.zero_le _
          · exact hsent
        cases reads with
        | nil =>
          have hlen := congrArg List.length htotal
          rw [List.flatten_nil, List.append_nil, List.map_cons, List.flatten_cons,
            List.length_append] at hlen
          omega
        | cons chunk reads =>
          rw [List.flatten_cons, ← List.append_assoc] at htotal
          have hleft : (raw ++ chunk).length + reads.flatten.length + 2 * reads.length + 1 <
              fuel := by
            simp only [turnsLeft, List.length_cons, List.flatten_cons, List.length_append]
              at hfuel ⊢
            split at hfuel <;> omega
          obtain ⟨writes, raw', st', hturn, hrel⟩ := read_relayed hq fuel reads raw chunk st
            (hrec reads) hst htotal hleft
          simp only [passLoop, hmore, if_true, hturn]
          exact hrel.read hsent hlt
      · -- The header block is in the buffer already.
        rcases hst with rfl | ⟨hutf, rfl, b, rfl, hb⟩
        · rcases prefix_cases _ _ _ hpre with ⟨r, hr, hne⟩ | ⟨b, hb⟩
          · have hend := findHeaderEnd_short q.header raw r hq.ends hr hne
            simp only [needsMore, hend, Bool.not_false, if_true, Option.isNone_none,
              not_true_eq_false] at hmore
          · have hleft : raw.length + reads.flatten.length + 2 * reads.length < fuel := by
              simp only [turnsLeft, Bool.false_eq_true, if_false] at hfuel
              omega
            obtain ⟨writes, raw', st', hturn, hrel⟩ := turn_relayed_head hq fuel reads raw
              (hrec reads) htotal hleft b hb {} (Or.inl rfl)
            simp only [passLoop, hmore, Bool.false_eq_true, if_false, hturn]
            exact hrel
        · rw [needsMore_serving q _ _ b (hq.length hutf)] at hmore
          exact absurd (decide_eq_true hb) hmore

/-- The bytes written upstream are the client's, each once and in order, exactly
    if no request ends inside a read, up to a header block that is not text. -/
theorem handleC2uPassthrough_iff (requests : List ClientRequest) (reads : List Str)
    (hall : ∀ q ∈ requests, q.Sized) (hbytes : reads.flatten = (requests.map bytes).flatten) :
    (handleC2uPassthrough reads).flatten = reads.flatten ↔
      ∀ done later, requests = done ++ later → (∀ q ∈ done, utf8Valid q.header = true) →
        ∃ first rest, reads = first ++ rest ∧ first.flatten = (done.map bytes).flatten := by
  have hhead : AtHead [] {} requests := by
    cases requests with
    | nil => rfl
    | cons q qs => exact Or.inl rfl
  have h := (passLoop_relayed _ reads requests [] {} hall hhead hbytes
    (by simp only [turnsLeft, List.length_nil, Bool.false_eq_true, if_false]; omega :
      _ < reads.flatten.length + 2 * reads.length + 2)).exact
  rw [List.drop_nil, List.nil_append] at h
  refine h.trans ⟨fun hal done later hsplit hutf => ?_, fun hal done later hsplit _ hutf => ?_⟩
  · by_cases hne : done = []
    · exact ⟨[], reads, rfl, by rw [hne]; rfl⟩
    · exact hal done later hsplit hne hutf
  · exact hal done later hsplit hutf

theorem smallRequest_sized : smallRequest.Sized where
  toWellFormed := smallRequest_wellFormed
  sized := rfl

theorem smallRequests_sized : ∀ q ∈ [smallRequest, smallRequest], q.Sized := by
  rintro q hq
  rcases List.mem_cons.mp hq with rfl | hq
  · exact smallRequest_sized
  · rw [List.mem_singleton.mp hq]
    exact smallRequest_sized

/-- Two requests, cut in the middle of the first and between the two: no request
    ends inside a read, and each byte is written once. -/
theorem handleC2uPassthrough_small :
    (∀ done later, [smallRequest, smallRequest] = done ++ later →
      (∀ q ∈ done, utf8Valid q.header = true) →
      ∃ first rest,
        [smallRequest.bytes.take 20, smallRequest.bytes.drop 20, smallRequest.bytes] =
          first ++ rest ∧ first.flatten = (done.map bytes).flatten) ∧
      (handleC2uPassthrough
          [smallRequest.bytes.take 20, smallRequest.bytes.drop 20, smallRequest.bytes]).flatten =
        [smallRequest.bytes.take 20, smallRequest.bytes.drop 20, smallRequest.bytes].flatten := by
  have hiff := handleC2uPassthrough_iff [smallRequest, smallRequest]
    [smallRequest.bytes.take 20, smallRequest.bytes.drop 20, smallRequest.bytes]
    smallRequests_sized (by decide)
  have hsame : (handleC2uPassthrough
      [smallRequest.bytes.take 20, smallRequest.bytes.drop 20, smallRequest.bytes]).flatten =
      [smallRequest.bytes.take 20, smallRequest.bytes.drop 20, smallRequest.bytes].flatten := by
    decide +kernel
  exact ⟨hiff.mp hsame, hsame⟩

/-- Two requests in one read: the second one is written twice. -/
theorem handleC2uPassthrough_repeats :
    ∃ (requests : List ClientRequest) (reads : List Str), (∀ q ∈ requests, q.Sized) ∧
      reads.flatten = (requests.map bytes).flatten ∧
      (handleC2uPassthrough reads).flatten ≠ reads.flatten :=
  ⟨[smallRequest, smallRequest], [smallRequest.bytes ++ smallRequest.bytes],
    smallRequests_sized, by decide, by decide⟩

end PrivacyClaw
