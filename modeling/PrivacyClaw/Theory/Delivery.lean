import Mathlib.Data.List.Infix
import Mathlib.Data.List.TakeWhile
import PrivacyClaw.Theory.Deltas
import PrivacyClaw.Theory.BareStream
import PrivacyClaw.Theory.Trimming

/-!
# Text before the End

Does the client get all text before the event that ends the stream?

For Anthropic it does: the buffer is flushed at the end of each content block and
once more at `message_stop`, before the event goes out. The text is then what
the buffer gives for each content block. OpenAI's `[DONE]` goes out before the
flush, and for Google there is no event that could carry held-back text. For
these two the text is complete if nothing is held back after the last delta.

The reads do not matter for any of this. What the loop does with bytes behind the
terminal event depends on the reads, but the text is out by then.

## Main definitions

* `Answer`: A response with an event stream.
* `Answer.WellFormed`: One that is complete.
* `Answer.spoken`: Its events before the terminal event.
* `beforeEnd`: What the client gets before the terminal event.

## Theorems

* `Answer.Framed.run_terminal`: A response that ends with an event.
* `Answer.Framed.run_open`: A response that ends with the stream.
* `text_before_end`: The text before the end.
-/

namespace PrivacyClaw

open SseParser (scan)
open ChunkedDecoder (decode encode)

/-- A response whose body is an event stream. -/
structure Answer where
  header : Str
  body : Body

/-- The events that end a stream; Google's has none. -/
def Terminator : Provider → List SseEvent → Prop
  | .anthropic, tail => ∃ e, tail = [e] ∧ e.eventType = some (lit "message_stop")
  | .openAi, tail => ∃ e, tail = [e] ∧ isDoneSentinel e = true
  | .google, tail => tail = []
  | .unknown, _ => False

/-- The data of an event is JSON and has the event's name as its type. -/
def NamedByType (J : SerdeJson) (e : SseEvent) : Prop :=
  ∃ w, J.fromStr e.data = some w ∧ strAt w [lit "type"] = e.eventType

namespace Answer

/-- The headers are complete, announce an event stream and say how the body is
    framed. -/
structure Framed (a : Answer) : Prop where
  ends : findHeaderEnd a.header = some a.header.length
  sse : isEventStream a.header = true
  framing : ((parseContentLength a.header).isNone && isChunkedEncoding a.header) =
    a.body.isChunked
  body : a.body.Valid

/-- The bytes that upstream sends. -/
def bytes (a : Answer) : Str := a.header ++ a.body.bytes

/-- The events of the response. -/
def events (a : Answer) : List SseEvent := (scan a.body.payload).1

/-- The events before the terminal one. -/
def spoken (env : U2cEnv) (a : Answer) : List SseEvent :=
  a.events.takeWhile fun e => !endsResponse env e

/-- The headers are complete, announce an event stream and say how the body is
    framed; the last event is the terminal one. Anthropic names its events by
    their type. -/
structure WellFormed (env : U2cEnv) (a : Answer) : Prop where
  ends : findHeaderEnd a.header = some a.header.length
  sse : isEventStream a.header = true
  framing : ((parseContentLength a.header).isNone && isChunkedEncoding a.header) =
    a.body.isChunked
  body : a.body.Valid
  named : env.provider = .anthropic → ∀ e ∈ a.events, NamedByType env.json e
  terminal : ∃ es tail, a.events = es ++ tail ∧ (∀ e ∈ es, endsResponse env e = false) ∧
    Terminator env.provider tail

theorem WellFormed.framed {env : U2cEnv} {a : Answer} (ha : a.WellFormed env) : a.Framed :=
  ⟨ha.ends, ha.sse, ha.framing, ha.body⟩

/-- The buffer's run over the events of the response, with what was held back at
    the end. -/
def restoredWrites (env : U2cEnv) (a : Answer) : List ClientWrite :=
  let r := processEvents env.json env.provider env.vaultOr a.events
    (env.vault.map fun _ => ReplacementBuffer.new)
  r.1 ++ flushRepBufAndFinalize env r.2.1

end Answer

/-- What the client gets before an event that ends the response. -/
def beforeEnd (env : U2cEnv) (writes : List ClientWrite) : List ClientWrite :=
  writes.takeWhile (goesOn env)

namespace ChunkedDecoder

/-- The beginning of the last chunk carries nothing, and with its first line the
    decoder stops. -/
theorem decode_lastChunk_prefix (t : Str) (h : t <+: lastChunk) :
    (decode ⟨t, 0, .readingSize⟩).1 = [] ∧
      ((decode ⟨t, 0, .readingSize⟩).2.2 = true →
        (decode ⟨t, 0, .readingSize⟩).2.1 = ⟨[], 0, .readingSize⟩ ∧ 3 ≤ t.length) := by
  have hall : ∀ t ∈ lastChunk.inits, (decode ⟨t, 0, .readingSize⟩).1 = [] ∧
      ((decode ⟨t, 0, .readingSize⟩).2.2 = true →
        (decode ⟨t, 0, .readingSize⟩).2.1 = ⟨[], 0, .readingSize⟩ ∧ 3 ≤ t.length) := by decide
  exact hall t ((List.mem_inits _ _).mpr h)

/-- A part of a line end carries nothing and stays in the buffer. -/
theorem decode_crlf (t u : Str) (ht : t <+: u) (hu : u <:+ crlf) :
    (decode ⟨t, 0, .readingSize⟩).1 = [] ∧
      (decode ⟨t, 0, .readingSize⟩).2.1 = ⟨t, 0, .readingSize⟩ := by
  have hall : ∀ u ∈ crlf.tails, ∀ t ∈ u.inits, (decode ⟨t, 0, .readingSize⟩).1 = [] ∧
      (decode ⟨t, 0, .readingSize⟩).2.1 = ⟨t, 0, .readingSize⟩ := by decide
  exact hall u ((List.mem_tails _ _).mpr hu) t ((List.mem_inits _ _).mpr ht)

end ChunkedDecoder

theorem Body.Valid.unframe_bytes {body : Body} (hv : body.Valid) :
    unframe body.isChunked body.bytes = body.payload := by
  cases body with
  | whole data => rfl
  | chunks cs =>
      rw [Body.isChunked, unframe, if_pos rfl, Body.bytes, ChunkedDecoder.decode_encode cs hv,
        ChunkedDecoder.decode_lastChunk, List.append_nil, Body.payload]

/-- The beginning of a body: the decoder is running, or the whole payload is
    there and the rest of the body is a part of a line end. -/
theorem Body.Valid.prefix_cases {body : Body} (hv : body.Valid) (b rest : Str)
    (hb : b ++ rest = body.bytes) :
    unframe body.isChunked b <+: body.payload ∧
      (Running body.isChunked b ∨
        unframe body.isChunked b = body.payload ∧ rest <:+ crlf ∧
          decoderAt body.isChunked b = some ⟨[], 0, .readingSize⟩) := by
  cases body with
  | whole data =>
      refine ⟨⟨rest, hb⟩, .inl ?_⟩
      intro h
      exact Bool.noConfusion h
  -- Either the decoder is inside the chunks, or it has begun the last one.
  | chunks cs =>
      simp only [Body.bytes, Body.isChunked, Body.payload, unframe, decoderAt, if_true] at hb ⊢
      by_cases hlen : b.length ≤ (encode cs).length
      · have hpre : b <+: encode cs :=
          List.prefix_of_prefix_length_le ⟨rest, hb⟩ (List.prefix_append _ _) hlen
        have hdec := ChunkedDecoder.decode_prefix cs hv b hpre
        exact ⟨hdec.2, .inl fun _ => hdec.1⟩
      · -- all chunks are there, and a part of the last one
        have hpre : encode cs <+: b :=
          List.prefix_of_prefix_length_le (List.prefix_append _ lastChunk) ⟨rest, hb⟩ (by omega)
        rcases hpre with ⟨t, rfl⟩
        rw [List.append_assoc, List.append_cancel_left_eq] at hb
        rcases ChunkedDecoder.decode_lastChunk_prefix t ⟨rest, hb⟩ with ⟨hnone, hstop⟩
        have hdec := ChunkedDecoder.decode_encode cs hv t
        rw [hnone, List.append_nil] at hdec
        rw [hdec]
        refine ⟨List.prefix_refl _, ?_⟩
        cases hflag : (decode ⟨t, 0, .readingSize⟩).2.2 with
        | false => exact .inl fun _ => by rw [hdec, hflag]
        | true =>
            rcases hstop hflag with ⟨hempty, hlong⟩
            refine .inr ⟨rfl, ?_, by rw [hempty]⟩
            have hrest : rest = lastChunk.drop t.length := by rw [← hb, List.drop_left]
            have hcrlf : lastChunk.drop 3 = crlf := by decide
            rw [hrest, ← hcrlf, ← Nat.sub_add_cancel hlong, Nat.add_comm, ← List.drop_drop]
            exact List.drop_suffix _ _

section Runs

variable {env : U2cEnv} {a : Answer}

theorem Answer.Framed.stream (hr : env.piiReplace = true) (ha : a.Framed) :
    Stream env a.header :=
  ⟨hr, ha.ends, ha.sse⟩

theorem Answer.Framed.isChunkedResp (ha : a.Framed) :
    (opened env a.header).isChunkedResp = a.body.isChunked :=
  ha.framing

theorem Answer.Framed.repBuf (hr : env.piiReplace = true) (ha : a.Framed) :
    (opened env a.header).repBuf = env.vault.map fun _ => ReplacementBuffer.new := by
  simp only [opened, headersDone, hr, ha.sse, Bool.and_self, if_true]

/-- The events of the beginning of a response are the first ones of it. -/
theorem Answer.Framed.events_prefix (ha : a.Framed) (b : Str)
    (hb : b <+: a.body.bytes) : (scan (unframe a.body.isChunked b)).1 <+: a.events := by
  rcases hb with ⟨rest, hrest⟩
  rcases (ha.body.prefix_cases b rest hrest).1 with ⟨r, hr⟩
  rw [Answer.events, ← hr, SseParser.scan_append]
  exact List.prefix_append _ _

section Terminal

variable (hend : a.events.any (endsResponse env) = true)
include hend

/-- With the whole payload the response is complete. -/
theorem Answer.Framed.payload_done (ha : a.Framed) (b : Str)
    (hb : unframe a.body.isChunked b = a.body.payload) : (midway env a.header b).2.2 = true := by
  simp only [midway, ha.isChunkedResp, hb]
  rw [processEvents_flag, ← Answer.events, hend]

/-- Until then the loop waits. -/
theorem Answer.Framed.waiting_of_open (ha : a.Framed) (p : Str)
    (hp : p <+: a.bytes) (hopen : (position env a.header p).2.2 = false) :
    Waiting env a.header p := by
  rintro b rfl
  rw [position_body] at hopen
  refine ⟨?_, hopen⟩
  rcases hp with ⟨rest, hrest⟩
  rw [Answer.bytes, List.append_assoc, List.append_cancel_left_eq] at hrest
  rw [ha.isChunkedResp]
  rcases (ha.body.prefix_cases b rest hrest).2 with hrun | ⟨hall, _, _⟩
  · exact hrun
  · rw [ha.payload_done hend b hall] at hopen
    exact absurd hopen (by decide)

/-- Some read completes the response. -/
theorem Answer.Framed.first_done (ha : a.Framed) : ∀ (reads : List Str) (p : Str),
    p ++ reads.flatten = a.bytes → Waiting env a.header p →
    ∃ xs c ys, reads = xs ++ c :: ys ∧ Waiting env a.header (p ++ xs.flatten) ∧
      (position env a.header (p ++ xs.flatten ++ c)).2.2 = true := by
  intro reads
  induction reads with
  | nil =>
      intro p hp hw
      rw [List.flatten_nil, List.append_nil] at hp
      -- nothing is left to read, but the response is complete
      have hdone := ha.payload_done hend _ ha.body.unframe_bytes
      rw [(hw a.body.bytes hp).2] at hdone
      exact absurd hdone (by decide)
  | cons c reads ih =>
      intro p hp hw
      rw [List.flatten_cons, ← List.append_assoc] at hp
      cases hdone : (position env a.header (p ++ c)).2.2 with
      | true =>
          refine ⟨[], c, reads, rfl, ?_, ?_⟩
          · rw [List.flatten_nil, List.append_nil]
            exact hw
          · rw [List.flatten_nil, List.append_nil]
            exact hdone
      | false =>
          have hw' := ha.waiting_of_open hend (p ++ c) ⟨_, hp⟩ hdone
          rcases ih (p ++ c) hp hw' with ⟨xs, d, ys, rfl, hwait, hdone'⟩
          refine ⟨c :: xs, d, ys, rfl, ?_, ?_⟩
          · rw [List.flatten_cons, ← List.append_assoc]
            exact hwait
          · rw [List.flatten_cons, ← List.append_assoc]
            exact hdone'

end Terminal

/-- Before the first byte the loop waits. -/
theorem Stream.waiting_nil {header : Str} (hst : Stream env header) : Waiting env header [] := by
  intro b hb
  exact absurd (List.append_eq_nil_iff.mp hb.symm).1 hst.header_ne_nil

/-- The read that completes the response: the client has got the headers and the
    restored events, and the loop starts over with the reads behind it. -/
theorem Answer.Framed.run_done (hr : env.piiReplace = true) (ha : a.Framed) (xs ys : List Str)
    (c : Str) (hreads : (xs ++ c :: ys).flatten = a.bytes)
    (hw : Waiting env a.header xs.flatten)
    (hdone : (position env a.header (xs.flatten ++ c)).2.2 = true) :
    handleU2c env (xs ++ c :: ys) =
      .raw a.header :: a.restoredWrites env ++ .last :: handleU2c env ys := by
  have hpre : xs.flatten ++ c <+: a.header ++ a.body.bytes := by
    refine ⟨ys.flatten, ?_⟩
    rw [← Answer.bytes, ← hreads, List.flatten_append, List.flatten_cons, List.append_assoc]
  have hrun := u2cReads_response (ha.stream hr) a.body.bytes xs c hpre hw hdone
  -- what follows the terminal event changes nothing
  have hpos : (position env a.header (xs.flatten ++ c)).1 ++
      flushRepBufAndFinalize env (position env a.header (xs.flatten ++ c)).2.1.repBuf =
        .raw a.header :: a.restoredWrites env := by
    rcases prefix_cases _ a.header a.body.bytes hpre with ⟨r, hshort, hne⟩ | ⟨b, hb⟩
    · rw [position_short _ r hshort hne] at hdone
      exact Bool.noConfusion hdone
    · rw [hb, position_body] at hdone ⊢
      rw [hb, List.prefix_append_right_inj] at hpre
      rcases ha.events_prefix b hpre with ⟨later, hlater⟩
      simp only [midway, ha.isChunkedResp, ha.repBuf hr] at hdone ⊢
      rw [Answer.restoredWrites, ← hlater, processEvents_done _ _ _ _ _ _ hdone]
      rfl
  have hsplit : xs ++ c :: ys = (xs ++ [c]) ++ ys := by
    rw [List.append_assoc, List.singleton_append]
  rw [handleU2c, hsplit, u2cReads_append, hrun, hpos, handleU2c]
  simp only [List.append_assoc, List.cons_append, List.nil_append]

/-- A response that ends with an event: whatever the reads are, the client gets
    the headers and the restored events up to the end, and then the rest. -/
theorem Answer.Framed.run_terminal (hr : env.piiReplace = true) (ha : a.Framed)
    (hend : a.events.any (endsResponse env) = true) (reads : List Str)
    (hreads : reads.flatten = a.bytes) :
    ∃ rest, handleU2c env reads =
      .raw a.header :: (processEvents env.json env.provider env.vaultOr a.events
        (env.vault.map fun _ => ReplacementBuffer.new)).1 ++ rest := by
  rcases ha.first_done hend reads [] hreads (ha.stream hr).waiting_nil with
    ⟨xs, c, ys, rfl, hw, hdone⟩
  rw [List.nil_append] at hw hdone
  have hrun := ha.run_done hr xs ys c hreads hw hdone
  rw [Answer.restoredWrites, List.cons_append, List.append_assoc, ← List.cons_append] at hrun
  exact ⟨_, hrun⟩

/-- A state behind the payload of a chunked body: what is still to come is a part
    of a line end. -/
structure Spent (s : U2cState) (rest : Str) : Prop where
  headerDone : s.headerDone = true
  isSse : s.isSse = true
  scanned : scan s.sseParser.buffer = ([], s.sseParser.buffer)
  decoder : ∃ buf, s.chunkDecoder = some ⟨buf, 0, .readingSize⟩ ∧ buf ++ rest <:+ crlf

/-- Nothing is written for it. -/
theorem u2cRead_spent (hr : env.piiReplace = true) (s : U2cState) (c rest : Str)
    (hs : Spent s (c ++ rest)) :
    (u2cRead env c s).1 = [] ∧ (u2cRead env c s).2.repBuf = s.repBuf ∧
      Spent (u2cRead env c s).2 rest := by
  rcases hs.decoder with ⟨buf, hbuf, hsuf⟩
  rw [← List.append_assoc] at hsuf
  -- A part of the final line end decodes to nothing and leaves the decoder waiting.
  have hdec := ChunkedDecoder.decode_crlf (buf ++ c) _ (List.prefix_append _ _) hsuf
  have hpush : unframePush s.chunkDecoder c = ([], some ⟨buf ++ c, 0, .readingSize⟩) := by
    rw [hbuf, unframePush, ChunkedDecoder.push_fst, ChunkedDecoder.push_snd, hdec.1, hdec.2]
  have hpiece := bodyPiece_stream env hr { s with bodyReceived := s.bodyReceived + c.length }
    hs.isSse hs.scanned c [] _ hpush
  rw [List.append_nil, hs.scanned] at hpiece
  have htake : takeRead env c s = ([], { s with
      bodyReceived := s.bodyReceived + c.length
      chunkDecoder := some ⟨buf ++ c, 0, .readingSize⟩ }, false) := by
    unfold takeRead
    rw [if_pos hs.headerDone, hpiece]
    rfl
  have hread : u2cRead env c s = ([], { s with
      bodyReceived := s.bodyReceived + c.length
      chunkDecoder := some ⟨buf ++ c, 0, .readingSize⟩ }) := by
    unfold u2cRead
    simp only [htake, responseComplete, hs.isSse, Bool.not_true, Bool.false_and, Bool.and_false,
      Bool.or_self, Bool.false_eq_true, if_false]
  rw [hread]
  exact ⟨rfl, rfl, hs.headerDone, hs.isSse, hs.scanned, _, rfl, hsuf⟩

theorem u2cReads_spent (hr : env.piiReplace = true) : ∀ (reads : List Str) (s : U2cState),
    Spent s reads.flatten →
    (u2cReads env reads s).1 = [] ∧ (u2cReads env reads s).2.repBuf = s.repBuf := by
  intro reads
  induction reads with
  | nil => intro s _; exact ⟨rfl, rfl⟩
  | cons c reads ih =>
      intro s hs
      rcases u2cRead_spent hr s c reads.flatten hs with ⟨hnone, hbuf, hs'⟩
      rcases ih _ hs' with ⟨hnone', hbuf'⟩
      simp only [u2cReads, hnone, hnone', hbuf', hbuf, List.append_nil, and_self]

/-- Without a terminal event the response is never complete. -/
theorem Answer.Framed.midway_open (ha : a.Framed)
    (hes : ∀ x ∈ a.events, endsResponse env x = false) (b : Str) (hb : b <+: a.body.bytes) :
    (midway env a.header b).2.2 = false := by
  have hfew := ha.events_prefix b hb
  simp only [midway, ha.isChunkedResp]
  exact processEvents_open _ _ _ _ fun x hx => hes x (hfew.subset hx)

/-- A response without a terminal event: the loop gets through all of it. -/
theorem Answer.Framed.run_open_from (hr : env.piiReplace = true) (ha : a.Framed)
    (hes : ∀ x ∈ a.events, endsResponse env x = false) : ∀ (reads : List Str) (p : Str),
    p ++ reads.flatten = a.bytes → Waiting env a.header p →
    (position env a.header p).1 ++ (u2cReads env reads (position env a.header p).2.1).1 =
        (position env a.header a.bytes).1 ∧
      (u2cReads env reads (position env a.header p).2.1).2.repBuf =
        (position env a.header a.bytes).2.1.repBuf := by
  have hst := ha.stream hr
  intro reads
  induction reads with
  | nil =>
      intro p hp _
      rw [List.flatten_nil, List.append_nil] at hp
      rw [hp]
      exact ⟨List.append_nil _, rfl⟩
  | cons c reads ih =>
      intro p hp hw
      rw [List.flatten_cons, ← List.append_assoc] at hp
      have hpre : p ++ c <+: a.header ++ a.body.bytes := ⟨_, hp⟩
      have hopen : (position env a.header (p ++ c)).2.2 = false := by
        rcases prefix_cases _ a.header a.body.bytes hpre with ⟨r, hshort, hne⟩ | ⟨b, hb⟩
        · rw [position_short _ r hshort hne]
        · rw [hb, List.prefix_append_right_inj] at hpre
          rw [hb, position_body]
          exact ha.midway_open hes b hpre
      -- This read brings the loop from the position at `p` to that at `p ++ c`.
      rcases u2cRead_waiting hst a.body.bytes p c hpre hw hopen with ⟨hstate, hwrites⟩
      simp only [u2cReads]
      rw [hstate, ← List.append_assoc, hwrites]
      rcases prefix_cases _ a.header a.body.bytes hpre with ⟨r, hshort, hne⟩ | ⟨b, hb⟩
      -- The header is not complete yet.
      · refine ih (p ++ c) hp ?_
        intro b hb
        rw [hshort, List.append_assoc] at hb
        exact absurd (List.append_eq_nil_iff.mp (List.append_right_eq_self.mp hb.symm)).1 hne
      · have hrest : b ++ reads.flatten = a.body.bytes := by
          rw [hb, Answer.bytes, List.append_assoc, List.append_cancel_left_eq] at hp
          exact hp
        rcases (ha.body.prefix_cases b _ hrest).2 with hrun | ⟨hall, hsuf, hdec⟩
        -- The decoder waits for more, so the next read goes on from here.
        · refine ih (p ++ c) hp ?_
          intro b' hb'
          rw [hb, List.append_cancel_left_eq] at hb'
          rw [← hb', ha.isChunkedResp]
          exact ⟨hrun, ha.midway_open hes b ⟨_, hrest⟩⟩
        · -- the payload is complete: what follows changes nothing
          have hspent : Spent (midway env a.header b).2.1 reads.flatten :=
            ⟨rfl, ha.sse, SseParser.scan_rest _, [], by
              simp only [midway, ha.isChunkedResp, hdec], hsuf⟩
          rcases u2cReads_spent hr reads _ hspent with ⟨hnone, hbuf⟩
          rw [hb, Answer.bytes, position_body, position_body, hnone, hbuf, List.append_nil]
          simp only [midway, ha.isChunkedResp, hall, ha.body.unframe_bytes, and_self]

/-- What the client gets of a response that ends with the stream. -/
theorem Answer.Framed.run_open (hr : env.piiReplace = true) (ha : a.Framed)
    (hes : ∀ x ∈ a.events, endsResponse env x = false) (reads : List Str)
    (hreads : reads.flatten = a.bytes) :
    handleU2c env reads =
      .raw a.header :: a.restoredWrites env := by
  have hst := ha.stream hr
  have hrun := ha.run_open_from hr hes reads [] hreads hst.waiting_nil
  rw [position_nil hst, List.nil_append, Answer.bytes, position_body] at hrun
  simp only [midway, ha.isChunkedResp, ha.body.unframe_bytes, ha.repBuf hr] at hrun
  rw [handleU2c]
  simp only [hrun.1, hrun.2]
  rfl

theorem Answer.spoken_eq {es tail : List SseEvent} (hevents : a.events = es ++ tail)
    (hes : ∀ x ∈ es, endsResponse env x = false)
    (htail : ∀ x ∈ tail, endsResponse env x = true) : a.spoken env = es := by
  rw [Answer.spoken, hevents, List.takeWhile_append_of_pos]
  · cases tail with
    | nil => exact List.append_nil es
    | cons e tail =>
        rw [List.takeWhile_cons_of_neg, List.append_nil]
        rw [htail e List.mem_cons_self]
        exact Bool.false_ne_true
  · intro x hx
    rw [hes x hx]
    rfl

theorem beforeEnd_eq (header : Str) (writes rest : List ClientWrite) (e : SseEvent)
    (hgo : ∀ w ∈ writes, goesOn env w = true) (he : endsResponse env e = true) :
    beforeEnd env (.raw header :: writes ++ .event e :: rest) = .raw header :: writes := by
  rw [beforeEnd, List.cons_append, List.takeWhile_cons_of_pos rfl, List.takeWhile_append_of_pos hgo,
    List.takeWhile_cons_of_neg, List.append_nil]
  rw [goesOn, he]
  exact Bool.false_ne_true

theorem any_concat {es : List SseEvent} {e : SseEvent} (he : endsResponse env e = true) :
    (es ++ [e]).any (endsResponse env) = true :=
  List.any_eq_true.mpr ⟨e, List.mem_append_right _ List.mem_cons_self, he⟩

theorem processEvents_singleton (v : PiiVault) (rb : Option ReplacementBuffer) (e : SseEvent) :
    (processEvents env.json env.provider v [e] rb).1 =
      (processEvent env.json env.provider v rb e).1 := by
  simp only [processEvents]
  by_cases h : (processEvent env.json env.provider v rb e).2.2 = true
  · rw [if_pos h]
  · rw [if_neg h]
    exact List.append_nil _

/-- An event that ends a content block has no text. -/
theorem NamedByType.silent {J : SerdeJson} {e : SseEvent} (he : NamedByType J e)
    (hstop : isBlockStop .anthropic e = true) : extractTextDelta J .anthropic e.data = none := by
  rcases he with ⟨w, hw, htype⟩
  rw [isBlockStop, decide_eq_true rfl, Bool.true_and, decide_eq_true_eq] at hstop
  cases htext : extractTextDelta J .anthropic e.data with
  | none => rfl
  | some text =>
      rcases extractTextDelta_eq_some.mp htext with ⟨w', _, hw', hdelta, _, _⟩
      rw [hw, Option.some.injEq] at hw'
      have hne : (some (lit "content_block_stop") == some (lit "content_block_delta")) = false := by
        decide
      rw [← hw', isTextDelta, htype, hstop, hne, Bool.false_and, Bool.or_false] at hdelta
      exact absurd hdelta (by decide)

section Text

variable {v : PiiVault} (hr : env.piiReplace = true) (hvault : env.vault = some v)
  (hJ : env.json.RoundTrip env.provider) (ha : a.WellFormed env) (reads : List (List UInt8))
  (hreads : reads.flatten = a.bytes)
include hr hvault hJ ha hreads

/-- Anthropic: every content block comes out as a stream of its own. -/
theorem text_blocks (hp : env.provider = .anthropic) :
    textOf env.json env.provider (beforeEnd env (handleU2c env reads)) =
      (((a.spoken env).splitOnP (isBlockStop env.provider)).map fun block =>
        ReplacementBuffer.stream v (deltasOf env.json env.provider block)).flatten := by
  rcases ha.terminal with ⟨es, tail, hevents, hes, hterm⟩
  rw [hp] at hterm
  rcases hterm with ⟨e, rfl, hname⟩
  have he : endsResponse env e = true := by
    rw [endsResponse, decide_eq_true hp, decide_eq_true hname, Bool.and_self, Bool.or_true]
  have hspoken : a.spoken env = es :=
    Answer.spoken_eq hevents hes (fun x hx => by rw [List.mem_singleton.mp hx, he])
  have hnamed := ha.named hp
  rw [hevents] at hnamed
  have hsilent : ∀ x ∈ es, isBlockStop env.provider x = true →
      extractTextDelta env.json env.provider x.data = none := by
    intro x hx
    rw [hp]
    exact (hnamed x (List.mem_append_left _ hx)).silent
  have hvaultOr := U2cEnv.vaultOr_some hvault
  rcases processEvents_blocks hJ hp es ReplacementBuffer.new hes hsilent
    (ReplacementBuffer.fresh_new v) with ⟨b, block, blocks, hsplit, hb, htext, hgo⟩
  -- the flush at `message_stop`
  rcases flushRepBufRemainingAsChunk_spec (v := v) hJ hp b with ⟨_, hflush, hgo'⟩
  have hdone : isDoneSentinel e = false := by
    rcases hnamed e (List.mem_append_right _ List.mem_cons_self) with ⟨w, hw, _⟩
    exact hJ.not_done e w hw
  have hlast : (processEvent env.json env.provider v (some b) e).1 =
      (flushRepBufRemainingAsChunk env.json env.provider v (some b)).1 ++ [.event e] := by
    unfold processEvent
    rw [hdone, if_neg Bool.false_ne_true, if_pos ⟨hp, hname⟩]
  have hopen := processEvents_open env v es (some .new) hes
  rcases ha.framed.run_terminal hr (by rw [hevents]; exact any_concat he) reads hreads with
    ⟨rest, hrun⟩
  rw [hevents, hvaultOr, hvault, Option.map_some, processEvents_append _ _ _ _ _ _ hopen,
    processEvents_singleton, hb, hlast, ← List.append_assoc, ← List.cons_append, List.append_assoc,
    List.singleton_append] at hrun
  rw [hrun, beforeEnd_eq _ _ _ _ ?_ he, textOf_raw, textOf_append, hflush, htext, hspoken, hsplit]
  · rfl
  · intro w hw
    rcases List.mem_append.mp hw with hw | hw
    · exact hgo w hw
    · exact hgo' w hw

/-- OpenAI and Google: the text is the stream if nothing is left for the flush. -/
theorem text_deltas (hp : env.provider ≠ .anthropic)
    (hnone : ((ReplacementBuffer.processDeltas v
      (deltasOf env.json env.provider (a.spoken env)) .new).2.flushRemaining v).1 = []) :
    textOf env.json env.provider (beforeEnd env (handleU2c env reads)) =
      ReplacementBuffer.stream v (deltasOf env.json env.provider (a.spoken env)) := by
  rcases ha.terminal with ⟨es, tail, hevents, hes, hterm⟩
  have hstop : ∀ x ∈ es, isBlockStop env.provider x = false := by
    intro x _
    rw [isBlockStop, decide_eq_false hp, Bool.false_and]
  have hvaultOr := U2cEnv.vaultOr_some hvault
  have hopen := processEvents_open env v es (some .new) hes
  rcases processEvents_deltas (v := v) hJ es .new hes hstop with ⟨hbuf, htext, hgo⟩
  have hstream : a.spoken env = es →
      textOf env.json env.provider (processEvents env.json env.provider v es (some .new)).1 =
        ReplacementBuffer.stream v (deltasOf env.json env.provider (a.spoken env)) := by
    intro hspoken
    rw [hspoken] at hnone ⊢
    rw [htext, ReplacementBuffer.stream]
    simp only [hnone, List.append_nil]
  cases hprov : env.provider with
  | anthropic => exact absurd hprov hp
  | unknown =>
      rw [hprov] at hterm
      exact hterm.elim
  | openAi =>
      rw [hprov] at hterm
      rcases hterm with ⟨e, rfl, hdone⟩
      have he : endsResponse env e = true := by rw [endsResponse, hdone, Bool.true_or]
      have hspoken : a.spoken env = es :=
        Answer.spoken_eq hevents hes (fun x hx => by rw [List.mem_singleton.mp hx, he])
      have hlast : ∀ rb, (processEvent env.json env.provider v rb e).1 = [.event e] := by
        intro rb
        unfold processEvent
        rw [if_pos hdone]
      rcases ha.framed.run_terminal hr (by rw [hevents]; exact any_concat he) reads hreads with
        ⟨rest, hrun⟩
      rw [hevents, hvaultOr, hvault, Option.map_some, processEvents_append _ _ _ _ _ _ hopen,
        processEvents_singleton, hlast, ← List.cons_append, List.append_assoc,
        List.singleton_append] at hrun
      rw [← hprov, hrun, beforeEnd_eq _ _ _ _ hgo he, textOf_raw, hstream hspoken]
  | google =>
      rw [hprov] at hterm
      have hspoken : a.spoken env = es :=
        Answer.spoken_eq hevents hes (fun x hx => by rw [hterm] at hx; exact absurd hx List.not_mem_nil)
      rw [hterm, List.append_nil] at hevents
      have hrun := ha.framed.run_open hr (by rw [hevents]; exact hes) reads hreads
      -- no event can carry held-back text
      have hflush : ∀ rb, flushRepBufAndFinalize env rb = [] := by
        intro rb
        cases rb with
        | none => rfl
        | some b =>
            simp only [flushRepBufAndFinalize, flushRepBufRemainingAsChunk, makeTrailingTextEvent,
              hprov, trailingData, Option.map_none, ite_self, Option.toList_none]
      rw [Answer.restoredWrites, hvaultOr, hvault, Option.map_some, hevents, hflush,
        List.append_nil] at hrun
      have hall : beforeEnd env (handleU2c env reads) = handleU2c env reads := by
        rw [beforeEnd, hrun, List.takeWhile_cons_of_pos rfl, List.takeWhile_eq_self_iff.mpr hgo]
      rw [← hprov, hall, hrun, textOf_raw, hstream hspoken]

end Text

/-- The text that the client gets before the end of the stream. For Anthropic it
    is what the buffer gives for each content block; for the others it is what
    the buffer gives for the whole text, if nothing is left for the flush. -/
theorem text_before_end (env : U2cEnv) (hr : env.piiReplace = true) (v : PiiVault)
    (hvault : env.vault = some v) (hJ : env.json.RoundTrip env.provider) (a : Answer)
    (ha : a.WellFormed env) (reads : List (List UInt8)) (hreads : reads.flatten = a.bytes) :
    (env.provider = .anthropic →
      textOf env.json env.provider (beforeEnd env (handleU2c env reads)) =
        (((a.spoken env).splitOnP (isBlockStop env.provider)).map fun block =>
          ReplacementBuffer.stream v (deltasOf env.json env.provider block)).flatten) ∧
    (env.provider ≠ .anthropic →
      ((ReplacementBuffer.processDeltas v
        (deltasOf env.json env.provider (a.spoken env)) .new).2.flushRemaining v).1 = [] →
      textOf env.json env.provider (beforeEnd env (handleU2c env reads)) =
        ReplacementBuffer.stream v (deltasOf env.json env.provider (a.spoken env))) :=
  ⟨text_blocks hr hvault hJ ha reads hreads, text_deltas hr hvault hJ ha reads hreads⟩

end Runs

section Example

/-- What stands before and behind the text in the data of a text event. -/
def textHead : Str := lit "\x7b\"delta\":\x7b\"text\":\""

def textTail : Str :=
  lit "\",\"type\":\"text_delta\"\x7d,\"index\":0,\"type\":\"content_block_delta\"\x7d"

/-- The data of a text event. -/
def textDelta (text : Str) : Value := .object [
  (lit "delta", .object [(lit "text", .string text), (lit "type", .string (lit "text_delta"))]),
  (lit "index", .number (lit "0")),
  (lit "type", .string (lit "content_block_delta"))]

/-- The data of an event that has only its type. -/
def bareEvent (name : Str) : Value := .object [(lit "type", .string name)]

/-- A parser and printer for text events with plain text, in which nothing has to
    be escaped, and for the events that end a block and the message. -/
def plainJson : SerdeJson where
  fromStr s :=
    if textHead <+: s ∧ textTail <:+ s.drop textHead.length then
      some (textDelta ((s.drop textHead.length).take
        (s.length - textHead.length - textTail.length)))
    else [bareEvent (lit "content_block_stop"), bareEvent (lit "message_stop")].find? fun w =>
      w.compact == s
  toStr w :=
    match strAt w [lit "delta", lit "text"] with
    | some text => textHead ++ (text ++ textTail)
    | none => w.compact

theorem plainJson_text (text : Str) :
    plainJson.fromStr (textHead ++ (text ++ textTail)) = some (textDelta text) := by
  have hlen : (textHead ++ (text ++ textTail)).length - textHead.length - textTail.length =
      text.length := by
    rw [List.length_append, List.length_append]
    omega
  simp only [plainJson]
  rw [List.drop_left, if_pos ⟨List.prefix_append _ _, List.suffix_append _ _⟩, hlen, List.take_left]

/-- The two bare events, found by their printed form. -/
theorem bareEvents_find (data : Str) (w : Value)
    (h : ([bareEvent (lit "content_block_stop"), bareEvent (lit "message_stop")].find? fun w =>
      w.compact == data) = some w) :
    data.head? = some 123 ∧
      (w = bareEvent (lit "content_block_stop") ∨ w = bareEvent (lit "message_stop")) := by
  have hmem := List.mem_of_find?_eq_some h
  have hbeq := List.find?_some h
  have hdata : w.compact = data := eq_of_beq hbeq
  rw [← hdata]
  simp only [List.mem_cons, List.not_mem_nil, or_false] at hmem
  rcases hmem with rfl | rfl
  · exact ⟨rfl, .inl rfl⟩
  · exact ⟨rfl, .inr rfl⟩

/-- It reads text events and the two bare ones. -/
theorem plainJson_cases (data : Str) (w : Value) (h : plainJson.fromStr data = some w) :
    data.head? = some 123 ∧
      ((∃ text, w = textDelta text) ∨ w = bareEvent (lit "content_block_stop") ∨
        w = bareEvent (lit "message_stop")) := by
  simp only [plainJson] at h
  split at h
  · next hs =>
      rcases hs.1 with ⟨r, rfl⟩
      exact ⟨rfl, .inl ⟨_, (Option.some.inj h).symm⟩⟩
  · exact ⟨(bareEvents_find data w h).1, .inr (bareEvents_find data w h).2⟩

/-- An object is not `[DONE]`. -/
theorem trim_object (data : Str) (h : data.head? = some 123) : trim data ≠ lit "[DONE]" := by
  cases data with
  | nil => exact absurd h (by decide)
  | cons c s =>
      rw [List.head?_cons, Option.some.injEq] at h
      subst h
      have hpre := trim_prefix_of_brace s
      intro hdone
      rw [hdone] at hpre
      exact absurd (List.cons_prefix_cons.mp hpre).1 (by decide)

theorem plainJson_roundTrip : plainJson.RoundTrip .anthropic where
  done data hdone := by
    cases h : plainJson.fromStr data with
    | none => rfl
    | some w => exact absurd hdone (trim_object data (plainJson_cases data w h).1)
  edited data w path text hw hpath := by
    cases hpath
    rcases (plainJson_cases data w hw).2 with ⟨t, rfl⟩ | rfl | rfl
    · exact ⟨textDelta text, plainJson_text text, fun _ => rfl⟩
    · exact ⟨bareEvent (lit "content_block_stop"), rfl, fun _ => rfl⟩
    · exact ⟨bareEvent (lit "message_stop"), rfl, fun _ => rfl⟩
  trailing text w h := by
    cases h
    exact ⟨textDelta text, plainJson_text text, fun _ => rfl⟩

/-- An answer with two content blocks; the name is half in one and half in the
    other. -/
def twoBlocks : Answer where
  header := lit "HTTP/1.1 200 OK\r\ncontent-type: text/event-stream\r\n\r\n"
  body := .whole (
    reconstructSseEventBytes
      ⟨some (lit "content_block_delta"), textHead ++ (lit "Alice" ++ textTail)⟩ ++
    reconstructSseEventBytes
      ⟨some (lit "content_block_stop"), (bareEvent (lit "content_block_stop")).compact⟩ ++
    reconstructSseEventBytes
      ⟨some (lit "content_block_delta"), textHead ++ (lit " Brown" ++ textTail)⟩ ++
    reconstructSseEventBytes
      ⟨some (lit "message_stop"), (bareEvent (lit "message_stop")).compact⟩)

def twoBlocksEnv : U2cEnv where
  json := plainJson
  provider := .anthropic
  piiReplace := true
  vault := some ReplacementBuffer.oneName

/-- The events of that answer before the last. -/
def twoBlocksEvents : List SseEvent :=
  [⟨some (lit "content_block_delta"), textHead ++ (lit "Alice" ++ textTail)⟩,
    ⟨some (lit "content_block_stop"), (bareEvent (lit "content_block_stop")).compact⟩,
    ⟨some (lit "content_block_delta"), textHead ++ (lit " Brown" ++ textTail)⟩]

theorem twoBlocks_events : twoBlocks.events = twoBlocksEvents ++
    [⟨some (lit "message_stop"), (bareEvent (lit "message_stop")).compact⟩] := by decide +kernel

theorem twoBlocks_wellFormed : twoBlocks.WellFormed twoBlocksEnv where
  ends := by decide
  sse := by decide
  framing := by decide
  body := trivial
  named _ e he := by
    rw [twoBlocks_events] at he
    simp only [twoBlocksEvents, List.cons_append, List.nil_append, List.mem_cons,
      List.not_mem_nil, or_false] at he
    rcases he with rfl | rfl | rfl | rfl
    · exact ⟨_, plainJson_text _, rfl⟩
    · exact ⟨bareEvent (lit "content_block_stop"), rfl, rfl⟩
    · exact ⟨_, plainJson_text _, rfl⟩
    · exact ⟨bareEvent (lit "message_stop"), rfl, rfl⟩
  terminal := ⟨_, _, twoBlocks_events, by decide, _, rfl, rfl⟩

/-- What stands before and behind the text in the data of an OpenAI chunk. -/
def chunkHead : Str := lit "\x7b\"choices\":[\x7b\"delta\":\x7b\"content\":\""

def chunkTail : Str := lit ("\"\x7d,\"finish_reason\":null,\"index\":0\x7d],\"id\":\"trailing\"" ++
  ",\"object\":\"chat.completion.chunk\"\x7d")

/-- The data of an OpenAI chunk. -/
def textChunk (text : Str) : Value := .object [
  (lit "choices", .array [.object [
    (lit "delta", .object [(lit "content", .string text)]),
    (lit "finish_reason", .null),
    (lit "index", .number (lit "0"))]]),
  (lit "id", .string (lit "trailing")),
  (lit "object", .string (lit "chat.completion.chunk"))]

/-- A parser and printer for such chunks with plain text. -/
def chunkJson : SerdeJson where
  fromStr s :=
    if chunkHead <+: s ∧ chunkTail <:+ s.drop chunkHead.length then
      some (textChunk ((s.drop chunkHead.length).take
        (s.length - chunkHead.length - chunkTail.length)))
    else none
  toStr w := chunkHead ++
    ((strAt w [lit "choices", lit "0", lit "delta", lit "content"]).getD [] ++ chunkTail)

theorem chunkJson_text (text : Str) :
    chunkJson.fromStr (chunkHead ++ (text ++ chunkTail)) = some (textChunk text) := by
  have hlen : (chunkHead ++ (text ++ chunkTail)).length - chunkHead.length - chunkTail.length =
      text.length := by
    rw [List.length_append, List.length_append]
    omega
  simp only [chunkJson]
  rw [List.drop_left, if_pos ⟨List.prefix_append _ _, List.suffix_append _ _⟩, hlen, List.take_left]

theorem chunkJson_cases (data : Str) (w : Value) (h : chunkJson.fromStr data = some w) :
    data.head? = some 123 ∧ ∃ text, w = textChunk text := by
  simp only [chunkJson] at h
  split at h
  · next hs =>
      rcases hs.1 with ⟨r, rfl⟩
      exact ⟨rfl, _, (Option.some.inj h).symm⟩
  · exact absurd h (Option.some_ne_none w).symm

theorem chunkJson_roundTrip : chunkJson.RoundTrip .openAi where
  done data hdone := by
    cases h : chunkJson.fromStr data with
    | none => rfl
    | some w => exact absurd hdone (trim_object data (chunkJson_cases data w h).1)
  edited data w path text hw hpath := by
    cases hpath
    rcases (chunkJson_cases data w hw).2 with ⟨t, rfl⟩
    exact ⟨textChunk text, chunkJson_text text, fun _ => rfl⟩
  trailing text w h := by
    cases h
    exact ⟨textChunk text, chunkJson_text text, fun _ => rfl⟩

/-- An OpenAI answer in two chunks, with the name half in one and half in the
    other. -/
def twoChunksAnswer : Answer where
  header := lit "HTTP/1.1 200 OK\r\ncontent-type: text/event-stream\r\n\r\n"
  body := .whole (
    reconstructSseEventBytes ⟨none, chunkHead ++ (lit "Hi Alice" ++ chunkTail)⟩ ++
    reconstructSseEventBytes ⟨none, chunkHead ++ (lit " Brown!" ++ chunkTail)⟩ ++
    reconstructSseEventBytes ⟨none, lit "[DONE]"⟩)

def twoChunksEnv : U2cEnv where
  json := chunkJson
  provider := .openAi
  piiReplace := true
  vault := some ReplacementBuffer.oneName

theorem twoChunksAnswer_wellFormed : twoChunksAnswer.WellFormed twoChunksEnv where
  ends := by decide
  sse := by decide
  framing := by decide
  body := trivial
  named h := absurd h (by decide)
  terminal := ⟨[⟨none, chunkHead ++ (lit "Hi Alice" ++ chunkTail)⟩,
    ⟨none, chunkHead ++ (lit " Brown!" ++ chunkTail)⟩], [⟨none, lit "[DONE]"⟩], by decide +kernel,
    by decide +kernel, _, rfl, by decide⟩

/-- The two blocks, in reads that are cut inside an event: the name is cut between
    the blocks, and is not restored. The two chunks, in one read: nothing is held
    back at the end, and the name is restored. -/
theorem text_before_end_two_answers :
    textOf plainJson .anthropic (beforeEnd twoBlocksEnv (handleU2c twoBlocksEnv
        [twoBlocks.bytes.take 100, twoBlocks.bytes.drop 100])) = lit "Alice Brown" ∧
      textOf chunkJson .openAi (beforeEnd twoChunksEnv (handleU2c twoChunksEnv
        [twoChunksAnswer.bytes])) = lit "Hi John Smith!" := by
  have hblocks := (text_before_end twoBlocksEnv rfl ReplacementBuffer.oneName rfl
    plainJson_roundTrip twoBlocks twoBlocks_wellFormed
    [twoBlocks.bytes.take 100, twoBlocks.bytes.drop 100]
    (by rw [List.flatten_cons, List.flatten_singleton, List.take_append_drop])).1 rfl
  have hchunks := (text_before_end twoChunksEnv rfl ReplacementBuffer.oneName rfl
    chunkJson_roundTrip twoChunksAnswer twoChunksAnswer_wellFormed [twoChunksAnswer.bytes]
    (List.append_nil _)).2 (by decide) (by decide +kernel)
  exact ⟨hblocks.trans (by decide +kernel), hchunks.trans (by decide +kernel)⟩

/-- The name is not restored, although the buffer would restore it in the text of
    the whole answer. -/
theorem text_before_end_cut_name :
    deltasOf plainJson .anthropic (twoBlocks.spoken twoBlocksEnv) = [lit "Alice", lit " Brown"] ∧
      ReplacementBuffer.stream ReplacementBuffer.oneName [lit "Alice", lit " Brown"] =
        lit "John Smith" ∧
      textOf plainJson .anthropic (beforeEnd twoBlocksEnv
        (handleU2c twoBlocksEnv [twoBlocks.bytes])) = lit "Alice Brown" ∧
      ¬ ∀ (a : Answer) (reads : List (List UInt8)), a.WellFormed twoBlocksEnv →
        reads.flatten = a.bytes →
        textOf plainJson .anthropic (beforeEnd twoBlocksEnv (handleU2c twoBlocksEnv reads)) =
          ReplacementBuffer.stream ReplacementBuffer.oneName
            (deltasOf plainJson .anthropic (a.spoken twoBlocksEnv)) := by
  refine ⟨by decide +kernel, by decide, by decide +kernel, ?_⟩
  intro hall
  exact absurd (hall twoBlocks [twoBlocks.bytes] twoBlocks_wellFormed (List.append_nil _))
    (by decide +kernel)

end Example

end PrivacyClaw
