import PrivacyClaw.Core.U2c
import PrivacyClaw.Theory.Incremental

/-!
# One Response

Where the loop stands in a response depends on the bytes read so far and not on
the reads that brought them. `position` computes it from the bytes alone, and
the theorems below say that a read moves the loop from the position of some
bytes to the position of more bytes.

This holds until the loop takes the response for complete. It does so when the
terminal event is complete, which is before the end of the response: the end of
the chunk that holds the event, and the last chunk, are still to come. What
happens to them is not decided by the bytes alone.

## Main definitions

* `Body`: The body of a response, as it is or in chunks.
* `unframe`, `decoderAt`: The payload in the beginning of a body, and the
  decoder behind it.
* `midway`: Where the loop is in the body.
* `position`: Where the loop is in the response.
* `Waiting`: The response is not complete yet.

## Theorems

* `processEvents_append`, `processEvents_done`: Events that arrive in two
  parts.
* `processEvents_flag`: When events end the response.
* `bodyPiece_stream`: What a piece of a body does.
* `takeRead_position`: A read moves the loop to the next position.
* `u2cRead_waiting`, `u2cRead_done`: The same for the whole read.
* `u2cReads_waiting`: Any number of reads in a response.
* `u2cReads_response`: The reads of a whole response.
-/

namespace PrivacyClaw

open SseParser (scan)
open ChunkedDecoder (decode encode)

section Events

variable (J : SerdeJson) (provider : Provider) (v : PiiVault)

/-- Events that arrive in two parts, where the first part is not the end. -/
theorem processEvents_append : ∀ (es fs : List SseEvent) (rb : Option ReplacementBuffer),
    (processEvents J provider v es rb).2.2 = false →
    processEvents J provider v (es ++ fs) rb =
      ((processEvents J provider v es rb).1 ++
          (processEvents J provider v fs (processEvents J provider v es rb).2.1).1,
        (processEvents J provider v fs (processEvents J provider v es rb).2.1).2) := by
  intro es
  induction es with
  | nil => intro fs rb _; rfl
  | cons e es ih =>
      intro fs rb h
      rw [List.cons_append]
      simp only [processEvents] at h ⊢
      cases hd : (processEvent J provider v rb e).2.2 with
      | true =>
          simp only [hd, if_true] at h
          exact absurd h (by decide)
      | false =>
          simp only [hd, Bool.false_eq_true, if_false] at h ⊢
          rw [ih fs _ h, List.append_assoc]

/-- Nothing is done with events behind the end. -/
theorem processEvents_done : ∀ (es fs : List SseEvent) (rb : Option ReplacementBuffer),
    (processEvents J provider v es rb).2.2 = true →
    processEvents J provider v (es ++ fs) rb = processEvents J provider v es rb := by
  intro es
  induction es with
  | nil => intro fs rb h; exact absurd h (by simp only [processEvents, Bool.false_eq_true,
      not_false_eq_true])
  | cons e es ih =>
      intro fs rb h
      rw [List.cons_append]
      simp only [processEvents] at h ⊢
      cases hd : (processEvent J provider v rb e).2.2 with
      | true => simp only [if_true]
      | false =>
          simp only [hd, Bool.false_eq_true, if_false] at h ⊢
          rw [ih fs _ h]

end Events

/-- The events that end a response. -/
theorem processEvent_flag (env : U2cEnv) (v : PiiVault) (rb : Option ReplacementBuffer)
    (e : SseEvent) :
    (processEvent env.json env.provider v rb e).2.2 = endsResponse env e := by
  unfold processEvent endsResponse
  by_cases hd : isDoneSentinel e = true
  · rw [if_pos hd, hd, Bool.true_or]
  · rw [if_neg hd, (Bool.not_eq_true _).mp hd, Bool.false_or]
    by_cases hm : env.provider = .anthropic ∧ e.eventType = some (lit "message_stop")
    · rw [if_pos hm, decide_eq_true hm.1, decide_eq_true hm.2]
      rfl
    · rw [if_neg hm, ← Bool.decide_and, decide_eq_false hm]
      split <;> rfl

theorem processEvents_flag (env : U2cEnv) (v : PiiVault) :
    ∀ (es : List SseEvent) (rb : Option ReplacementBuffer),
    (processEvents env.json env.provider v es rb).2.2 = es.any (endsResponse env) := by
  intro es
  induction es with
  | nil => intro rb; rfl
  | cons e es ih =>
      intro rb
      rw [List.any_cons, processEvents, ← processEvent_flag env v rb e]
      cases hd : (processEvent env.json env.provider v rb e).2.2 with
      | true => simp only [hd, if_true, Bool.true_or]
      | false => simp only [hd, Bool.false_eq_true, if_false, Bool.false_or, ih]

/-- Events that do not end a response. -/
theorem processEvents_open (env : U2cEnv) (v : PiiVault) (es : List SseEvent)
    (rb : Option ReplacementBuffer) (hes : ∀ e ∈ es, endsResponse env e = false) :
    (processEvents env.json env.provider v es rb).2.2 = false := by
  rw [processEvents_flag, List.any_eq_false]
  intro e he
  rw [hes e he]
  exact Bool.false_ne_true

theorem U2cEnv.vaultOr_some {env : U2cEnv} {v : PiiVault} (hvault : env.vault = some v) :
    env.vaultOr = v := by
  rw [U2cEnv.vaultOr, hvault, Option.getD_some]

/-- The body of a response: as it is, or in chunks. -/
inductive Body where
  | whole (data : Str)
  | chunks (cs : List (Str × Str))

namespace Body

/-- The bytes of a body. -/
def bytes : Body → Str
  | .whole data => data
  | .chunks cs => encode cs ++ lastChunk

/-- What a body carries. -/
def payload : Body → Str
  | .whole data => data
  | .chunks cs => ChunkedDecoder.payload cs

def isChunked : Body → Bool
  | .whole _ => false
  | .chunks _ => true

/-- The chunks are well formed, if there are any. -/
def Valid : Body → Prop
  | .whole _ => True
  | .chunks cs => ∀ c ∈ cs, ChunkedDecoder.ValidChunk c

end Body

/-- The payload in the beginning of a body. -/
def unframe (chunked : Bool) (b : Str) : Str :=
  if chunked then (decode ⟨b, 0, .readingSize⟩).1 else b

/-- The decoder behind the beginning of a body. -/
def decoderAt (chunked : Bool) (b : Str) : Option ChunkedDecoder :=
  if chunked then some (decode ⟨b, 0, .readingSize⟩).2.1 else none

/-- The decoder has not met the last chunk. -/
def Running (chunked : Bool) (b : Str) : Prop :=
  chunked = true → (decode ⟨b, 0, .readingSize⟩).2.2 = false

/-- What a piece of a body adds to the payload, and the decoder behind it. -/
def unframePush : Option ChunkedDecoder → Str → Str × Option ChunkedDecoder
  | some cd, c => ((cd.push c).1, some (cd.push c).2)
  | none, c => (c, none)

theorem unframePush_decoderAt (chunked : Bool) (b c : Str) (hrun : Running chunked b) :
    unframe chunked (b ++ c) = unframe chunked b ++ (unframePush (decoderAt chunked b) c).1 ∧
      (unframePush (decoderAt chunked b) c).2 = decoderAt chunked (b ++ c) := by
  cases chunked with
  | false => exact ⟨rfl, rfl⟩
  | true =>
      have h := ChunkedDecoder.decode_append ⟨b, 0, .readingSize⟩ c (hrun rfl)
      dsimp only at h
      simp only [unframe, decoderAt, unframePush, if_true, ChunkedDecoder.push_fst,
        ChunkedDecoder.push_snd, h, and_self]

theorem Running.of_append {chunked : Bool} {b : Str} (c : Str) (h : Running chunked (b ++ c)) :
    Running chunked b :=
  fun hc => ChunkedDecoder.running_of_append ⟨b, 0, .readingSize⟩ c (h hc)

section Loop

variable (env : U2cEnv)

/-- A piece of an event stream: the payload that it adds goes to the parser,
    and the events that are complete then go to the client. -/
theorem bodyPiece_stream (hr : env.piiReplace = true) (s : U2cState) (hs : s.isSse = true)
    (hrest : scan s.sseParser.buffer = ([], s.sseParser.buffer)) (c : Str) (d : Str)
    (cd : Option ChunkedDecoder) (hd : unframePush s.chunkDecoder c = (d, cd)) :
    bodyPiece env c s =
      ((processEvents env.json env.provider env.vaultOr (scan (s.sseParser.buffer ++ d)).1
          s.repBuf).1,
        { s with
          chunkDecoder := cd
          sseParser := ⟨(scan (s.sseParser.buffer ++ d)).2⟩
          repBuf := (processEvents env.json env.provider env.vaultOr
            (scan (s.sseParser.buffer ++ d)).1 s.repBuf).2.1 },
        (processEvents env.json env.provider env.vaultOr (scan (s.sseParser.buffer ++ d)).1
          s.repBuf).2.2) := by
  have hbody : bodyPiece env c s =
      if d.isEmpty then ([], { s with chunkDecoder := cd }, false)
      else
        let r := processSseChunkPii env.json env.provider env.vaultOr d s.sseParser s.repBuf
        (r.1, { s with chunkDecoder := cd, sseParser := r.2.1, repBuf := r.2.2.1 }, r.2.2.2) := by
    unfold bodyPiece
    rw [hr, hs, Bool.and_self, if_pos rfl]
    cases h : s.chunkDecoder with
    | none => rw [h] at hd; cases hd; rfl
    | some x => rw [h] at hd; cases hd; rfl
  rw [hbody]
  cases d with
  | nil =>
      -- no payload: the parser would find nothing new
      simp only [List.isEmpty_nil, if_true, List.append_nil, hrest, processEvents]
  | cons x d =>
      simp only [List.isEmpty_cons, Bool.false_eq_true, if_false, processSseChunkPii,
        SseParser.push_eq]

variable (header : Str)

/-- The state behind the headers. -/
def opened : U2cState := headersDone env header U2cState.start

/-- Where the loop is after the headers and the bytes `b` of the body: what it
    wrote of the body, its state, and whether the end was met. -/
def midway (b : Str) : List ClientWrite × U2cState × Bool :=
  let s := opened env header
  let (events, rest) := scan (unframe s.isChunkedResp b)
  let (writes, repBuf, done) :=
    processEvents env.json env.provider env.vaultOr events s.repBuf
  (writes,
    { s with
      bodyReceived := b.length
      sseParser := ⟨rest⟩
      repBuf := repBuf
      chunkDecoder := decoderAt s.isChunkedResp b }, done)

/-- A response that the loop restores: headers that end where they should and
    announce an event stream. -/
structure Stream : Prop where
  replace : env.piiReplace = true
  ends : findHeaderEnd header = some header.length
  sse : isEventStream header = true

variable {env header}

/-- Reading on in the body. -/
theorem takeRead_midway (hst : Stream env header) (b c : Str)
    (hrun : Running (opened env header).isChunkedResp b)
    (hopen : (midway env header b).2.2 = false) :
    (takeRead env c (midway env header b).2.1).2 = (midway env header (b ++ c)).2 ∧
      (midway env header b).1 ++ (takeRead env c (midway env header b).2.1).1 =
        (midway env header (b ++ c)).1 := by
  have hs : (opened env header).isSse = true := hst.sse
  have hdone : (opened env header).headerDone = true := rfl
  rcases unframePush_decoderAt _ b c hrun with ⟨hun, hdec⟩
  rcases hd : unframePush (decoderAt (opened env header).isChunkedResp b) c with ⟨d, cd⟩
  rw [hd] at hun hdec
  have hpiece := bodyPiece_stream env hst.replace
    { (midway env header b).2.1 with bodyReceived := b.length + c.length } hs
    (SseParser.scan_rest _) c d cd hd
  have htake : takeRead env c (midway env header b).2.1 =
      bodyPiece env c { (midway env header b).2.1 with bodyReceived := b.length + c.length } := by
    unfold takeRead
    simp only [midway, hdone, if_true]
  -- Decoder, parser and buffer each go on where the read before left them.
  rw [htake, hpiece]
  simp only [midway] at hopen ⊢
  rw [hun, SseParser.scan_append (unframe (opened env header).isChunkedResp b) d,
    processEvents_append _ _ _ _ _ _ hopen, List.length_append, ← hdec]
  exact ⟨rfl, rfl⟩

theorem midway_nil (hst : Stream env header) :
    midway env header [] = ([], opened env header, false) := by
  have hdec : decoderAt (opened env header).isChunkedResp [] = (opened env header).chunkDecoder := by
    have hs : isEventStream header = true := hst.sse
    simp only [opened, headersDone, hst.replace, hs, Bool.and_self, Bool.true_and]
    cases (parseContentLength header).isNone && isChunkedEncoding header <;> rfl
  have hun : unframe (opened env header).isChunkedResp [] = [] := by
    cases (opened env header).isChunkedResp <;> rfl
  have hscan : scan [] = ([], []) := rfl
  simp only [midway, hun, hscan, processEvents, hdec]
  rfl

/-- The headers of a response are complete when their last byte is there. -/
theorem Stream.findHeaderEnd_append (hst : Stream env header) (b : Str) :
    findHeaderEnd (header ++ b) = some header.length :=
  PrivacyClaw.findHeaderEnd_append header b _ hst.ends

theorem Stream.findHeaderEnd_short (hst : Stream env header) (p r : Str)
    (hp : header = p ++ r) (hr : r ≠ []) : findHeaderEnd p = none :=
  PrivacyClaw.findHeaderEnd_short header p r hst.ends hp hr

theorem Stream.header_ne_nil (hst : Stream env header) : header ≠ [] := by
  intro hnil
  have h := hst.ends
  rw [hnil] at h
  exact absurd h (by decide)

variable (env header) in
/-- Where the loop is after the bytes `p` of the response: what it wrote, its
    state, and whether the end was met. -/
def position (p : Str) : List ClientWrite × U2cState × Bool :=
  if p.length < header.length then ([], { U2cState.start with raw := p }, false)
  else
    let (writes, s, done) := midway env header (p.drop header.length)
    (.raw header :: writes, s, done)

variable (env header) in
/-- The response is not complete after the bytes `p`. -/
def Waiting (p : Str) : Prop :=
  ∀ b, p = header ++ b →
    Running (opened env header).isChunkedResp b ∧ (midway env header b).2.2 = false

theorem position_short (p r : Str) (hp : header = p ++ r) (hr : r ≠ []) :
    position env header p = ([], { U2cState.start with raw := p }, false) := by
  have hpos := List.length_pos_of_ne_nil hr
  rw [position, if_pos (by rw [hp, List.length_append]; omega)]

theorem position_body (b : Str) :
    position env header (header ++ b) =
      (.raw header :: (midway env header b).1, (midway env header b).2) := by
  rw [position, if_neg (by rw [List.length_append]; omega), List.drop_left]

theorem position_nil (hst : Stream env header) :
    position env header [] = ([], U2cState.start, false) :=
  position_short [] header rfl hst.header_ne_nil

/-- The read that completes the headers forwards them and goes on with the
    body. -/
theorem takeRead_headers (hst : Stream env header) (p c b : Str) (hb : p ++ c = header ++ b) :
    takeRead env c { U2cState.start with raw := p } =
      (.raw header :: (takeRead env b (opened env header)).1,
        (takeRead env b (opened env header)).2) := by
  have hread : takeRead env b (opened env header) =
      bodyPiece env b { opened env header with bodyReceived := 0 + b.length } := rfl
  have hlen : (header ++ b).length - header.length = b.length := by
    rw [List.length_append]
    omega
  have hstart : takeRead env c { U2cState.start with raw := p } =
      if header.length < (header ++ b).length then
        (.raw header :: (bodyPiece env b { opened env header with
            bodyReceived := 0 + ((header ++ b).length - header.length) }).1,
          (bodyPiece env b { opened env header with
            bodyReceived := 0 + ((header ++ b).length - header.length) }).2)
      else ([.raw header], opened env header, false) := by
    have hends := hst.findHeaderEnd_append b
    have htake : (header ++ b).take header.length = header := List.take_left
    have hdrop : (header ++ b).drop header.length = b := List.drop_left
    rw [← hb] at hends htake hdrop ⊢
    unfold takeRead
    simp only [U2cState.start, Bool.false_eq_true, if_false, hends, htake, hdrop]
    rfl
  rw [hstart, hread, hlen]
  split
  · rfl
  · next hnot =>
      -- nothing of the body is there, and reading nothing writes nothing
      rw [List.length_append] at hnot
      have hnil : b = [] := List.length_eq_zero_iff.mp (by omega)
      have hmid := takeRead_midway hst [] [] (fun _ => rfl) (by rw [midway_nil hst])
      rw [List.nil_append, midway_nil hst, List.nil_append] at hmid
      dsimp only at hmid
      rw [← hread, hnil, hmid.1, hmid.2]

/-- A read moves the loop to the next position. -/
theorem takeRead_position (hst : Stream env header) (body p c : Str)
    (hpc : p ++ c <+: header ++ body) (hw : Waiting env header p) :
    (takeRead env c (position env header p).2.1).2 = (position env header (p ++ c)).2 ∧
      (position env header p).1 ++ (takeRead env c (position env header p).2.1).1 =
        (position env header (p ++ c)).1 := by
  rcases prefix_cases p header body ((List.prefix_append p c).trans hpc) with ⟨r, hr, hne⟩ | ⟨b, rfl⟩
  · rw [position_short p r hr hne]
    rcases prefix_cases (p ++ c) header body hpc with ⟨r', hr', hne'⟩ | ⟨b, hb⟩
    · -- still in the headers
      rw [position_short _ r' hr' hne']
      unfold takeRead
      simp only [U2cState.start, Bool.false_eq_true, if_false,
        hst.findHeaderEnd_short _ _ hr' hne', List.append_nil, and_self]
    · -- the headers are complete, and `b` is there of the body
      have hmid := takeRead_midway hst [] b (fun _ => rfl) (by rw [midway_nil hst])
      rw [midway_nil hst, List.nil_append, List.nil_append] at hmid
      rw [hb, position_body, takeRead_headers hst p c b hb]
      exact ⟨hmid.1, congrArg (ClientWrite.raw header :: ·) hmid.2⟩
  · rcases hw b rfl with ⟨hrun, hopen⟩
    rcases takeRead_midway hst b c hrun hopen with ⟨hstate, hwrites⟩
    rw [List.append_assoc, position_body, position_body]
    exact ⟨hstate, congrArg _ hwrites⟩

theorem Waiting.of_append {p : Str} (c : Str) (h : Waiting env header (p ++ c)) :
    Waiting env header p := by
  rintro b rfl
  rcases h (b ++ c) (List.append_assoc _ _ _) with ⟨hrun, hopen⟩
  have hrun' := Running.of_append c hrun
  refine ⟨hrun', ?_⟩
  cases hdone : (midway env header b).2.2 with
  | false => rfl
  | true =>
      -- the events of the longer body begin with those of the shorter one
      rw [← hopen]
      simp only [midway] at hdone ⊢
      rw [(unframePush_decoderAt _ b c hrun').1, SseParser.scan_append,
        processEvents_done _ _ _ _ _ _ hdone, hdone]

theorem position_responseComplete (hst : Stream env header) (p : Str) :
    (responseComplete (position env header p).2.1 (position env header p).2.2 &&
      (position env header p).2.1.headerDone) = (position env header p).2.2 := by
  have hs : (opened env header).isSse = true := hst.sse
  have hdone : (opened env header).headerDone = true := rfl
  unfold position
  split
  · simp only [U2cState.start, Bool.and_false]
  · simp only [midway, responseComplete, hs, hdone, Bool.not_true, Bool.false_and, Bool.or_false,
      Bool.and_false, Bool.and_true]

/-- A read before the end of a response. -/
theorem u2cRead_waiting (hst : Stream env header) (body p c : Str)
    (hpc : p ++ c <+: header ++ body) (hw : Waiting env header p)
    (hopen : (position env header (p ++ c)).2.2 = false) :
    (u2cRead env c (position env header p).2.1).2 = (position env header (p ++ c)).2.1 ∧
      (position env header p).1 ++ (u2cRead env c (position env header p).2.1).1 =
        (position env header (p ++ c)).1 := by
  rcases takeRead_position hst body p c hpc hw with ⟨hstate, hwrites⟩
  have hcomplete := position_responseComplete hst (p ++ c)
  rw [hopen] at hcomplete
  unfold u2cRead
  simp only [hstate, hopen, hcomplete, Bool.false_eq_true, if_false]
  exact ⟨trivial, hwrites⟩

/-- The read that completes a response: what was held back is flushed, the
    response is closed, and the loop starts again. -/
theorem u2cRead_done (hst : Stream env header) (body p c : Str)
    (hpc : p ++ c <+: header ++ body) (hw : Waiting env header p)
    (hdone : (position env header (p ++ c)).2.2 = true) :
    (u2cRead env c (position env header p).2.1).2 = U2cState.start ∧
      (position env header p).1 ++ (u2cRead env c (position env header p).2.1).1 =
        (position env header (p ++ c)).1 ++
          flushRepBufAndFinalize env (position env header (p ++ c)).2.1.repBuf ++ [.last] := by
  rcases takeRead_position hst body p c hpc hw with ⟨hstate, hwrites⟩
  have hcomplete := position_responseComplete hst (p ++ c)
  have hsse : (position env header (p ++ c)).2.1.isSse = true ∧
      (position env header (p ++ c)).2.1.raw = [] := by
    unfold position at hdone ⊢
    split
    · next h => simp only [h, if_true, Bool.false_eq_true] at hdone
    · exact ⟨hst.sse, rfl⟩
  rw [hdone] at hcomplete
  unfold u2cRead
  simp only [hstate, hdone, hcomplete, if_true, hst.replace, hsse.1, hsse.2, Bool.and_self]
  refine ⟨rfl, ?_⟩
  rw [← hwrites]
  simp only [List.append_assoc]

theorem u2cReads_append (xs ys : List (List UInt8)) (s : U2cState) :
    u2cReads env (xs ++ ys) s =
      ((u2cReads env xs s).1 ++ (u2cReads env ys (u2cReads env xs s).2).1,
        (u2cReads env ys (u2cReads env xs s).2).2) := by
  induction xs generalizing s with
  | nil => rfl
  | cons c xs ih =>
      rw [List.cons_append]
      simp only [u2cReads, ih, List.append_assoc]

/-- Reads before the end of a response: only their bytes matter. -/
theorem u2cReads_waiting (hst : Stream env header) (body : Str) : ∀ (reads : List Str) (p : Str),
    p ++ reads.flatten <+: header ++ body → Waiting env header (p ++ reads.flatten) →
    (u2cReads env reads (position env header p).2.1).2 =
        (position env header (p ++ reads.flatten)).2.1 ∧
      (position env header p).1 ++ (u2cReads env reads (position env header p).2.1).1 =
        (position env header (p ++ reads.flatten)).1 := by
  intro reads
  induction reads with
  | nil =>
      intro p _ _
      rw [List.flatten_nil, List.append_nil]
      exact ⟨rfl, List.append_nil _⟩
  | cons c reads ih =>
      intro p hp hw
      rw [List.flatten_cons, ← List.append_assoc] at hp hw ⊢
      have hpc : p ++ c <+: header ++ body := (List.prefix_append _ _).trans hp
      have hw' := hw.of_append
      -- A read before the last one does not end the response.
      have hopen : (position env header (p ++ c)).2.2 = false := by
        rcases prefix_cases _ header body hpc with ⟨r, hr, hne⟩ | ⟨b, hb⟩
        · rw [position_short _ r hr hne]
        · rw [hb, position_body]
          exact (hw' b hb).2
      rcases u2cRead_waiting hst body p c hpc hw'.of_append hopen with ⟨hstate, hwrites⟩
      rcases ih (p ++ c) hp hw with ⟨hstate', hwrites'⟩
      simp only [u2cReads]
      rw [hstate, ← List.append_assoc, hwrites]
      exact ⟨hstate', hwrites'⟩

/-- The reads of a response whose terminal event is complete with the last one
    of them, and not before. -/
theorem u2cReads_response (hst : Stream env header) (body : Str) (reads : List Str) (c : Str)
    (hbytes : reads.flatten ++ c <+: header ++ body) (hw : Waiting env header reads.flatten)
    (hdone : (position env header (reads.flatten ++ c)).2.2 = true) :
    u2cReads env (reads ++ [c]) U2cState.start =
      ((position env header (reads.flatten ++ c)).1 ++
        flushRepBufAndFinalize env (position env header (reads.flatten ++ c)).2.1.repBuf ++ [.last],
        U2cState.start) := by
  have hreads := u2cReads_waiting hst body reads [] ((List.prefix_append _ _).trans hbytes) hw
  rw [position_nil hst, List.nil_append, List.nil_append] at hreads
  have hlast := u2cRead_done hst body reads.flatten c hbytes hw hdone
  rw [u2cReads_append, hreads.1, hreads.2]
  simp only [u2cReads, List.append_nil]
  rw [hlast.1, hlast.2]

end Loop

end PrivacyClaw
