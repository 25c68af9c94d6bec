import PrivacyClaw.Core.Transcript
import PrivacyClaw.Theory.Delivery
import PrivacyClaw.Theory.KeepAlive
import PrivacyClaw.Theory.Resync

/-!
# The Stored Answer

Outside replace mode the body of an answer goes to the event parser as it comes,
and the framing of a chunked body with it. So the text that is stored is that of
the events the parser finds in the framed bytes; the reads do not matter, but the
chunks do.

A size line that falls into an event spoils this one and no other, so the stored
text is right if no event with text is spoiled. This is also necessary, unless
the framing makes up text.

## Main definitions

* `loggedDeltas`: The texts of a list of events.
* `heard`: The texts up to the end of the response.
* `WithinLimit`: No text is left out for its length.
* `Answer.seen`: The events with the framing and without it, part by part.
* `Undamaged`: No text is lost to the framing.
* `LoggedInFull`: What is to be stored.

## Theorems

* `logResponseEvents_eq`: The event loop.
* `handleU2cLog_head`: A response, whatever the reads are.
* `loggedInFull_iff`: When the stored text is right.
-/

namespace PrivacyClaw

open SseParser (scan)
open ChunkedDecoder (encode)

section Events

variable (env : U2cEnv)

/-- The texts that are logged for a list of events, none of them empty. -/
def loggedDeltas (events : List SseEvent) : List Str :=
  (events.filterMap (extractSseDelta env.json env.provider)).filter (· ≠ [])

/-- The texts up to the event that ends the response. -/
def heard (events : List SseEvent) : List Str :=
  loggedDeltas env (events.takeWhile fun e => !endsResponse env e)

/-- A list of texts, one after the other. -/
def Transcript.pushAll (texts : List Str) (t : Transcript) : Transcript :=
  texts.foldl (fun t text => t.push text) t

variable {env}

theorem loggedDeltas_append (es fs : List SseEvent) :
    loggedDeltas env (es ++ fs) = loggedDeltas env es ++ loggedDeltas env fs := by
  simp only [loggedDeltas, List.filterMap_append, List.filter_append]

theorem loggedDeltas_flatten (es : List SseEvent) :
    (loggedDeltas env es).flatten =
      (es.filterMap (extractSseDelta env.json env.provider)).flatten :=
  List.flatten_filter_ne_nil

theorem loggedDeltas_flatMap (parts : List (List SseEvent × List SseEvent)) :
    loggedDeltas env (parts.flatMap Prod.snd) =
      parts.flatMap fun part => loggedDeltas env part.2 := by
  induction parts with
  | nil => rfl
  | cons part parts ih => rw [List.flatMap_cons, List.flatMap_cons, loggedDeltas_append, ih]

theorem loggedDeltas_ne_nil (es : List SseEvent) : ∀ d ∈ loggedDeltas env es, d ≠ [] := by
  intro d hd
  exact of_decide_eq_true (List.mem_filter.mp hd).2

/-- Texts of no length are none. -/
theorem loggedDeltas_eq_nil (es : List SseEvent)
    (h : (loggedDeltas env es).flatten.length = 0) : loggedDeltas env es = [] := by
  rw [List.length_eq_zero_iff, List.flatten_eq_nil_iff] at h
  refine List.eq_nil_iff_forall_not_mem.mpr ?_
  intro d hd
  exact loggedDeltas_ne_nil es d hd (h d hd)

theorem heard_end (e : SseEvent) (es : List SseEvent) (he : endsResponse env e = true) :
    heard env (e :: es) = [] := by
  rw [heard, List.takeWhile_cons, he]
  rfl

theorem heard_cons (e : SseEvent) (es : List SseEvent) (he : endsResponse env e = false) :
    heard env (e :: es) = loggedDeltas env [e] ++ heard env es := by
  rw [heard, List.takeWhile_cons, he, heard, ← loggedDeltas_append]
  rfl

theorem heard_append (es fs : List SseEvent) :
    heard env (es ++ fs) =
      heard env es ++ if es.any (endsResponse env) then [] else heard env fs := by
  induction es with
  | nil => rfl
  | cons e es ih =>
      rw [List.any_cons, List.cons_append]
      cases he : endsResponse env e with
      | true => rw [heard_end e _ he, heard_end e _ he, Bool.true_or, if_pos rfl, List.append_nil]
      | false => rw [heard_cons e _ he, heard_cons e _ he, ih, Bool.false_or, List.append_assoc]

namespace Transcript

theorem pushAll_append (xs ys : List Str) (t : Transcript) :
    t.pushAll (xs ++ ys) = (t.pushAll xs).pushAll ys :=
  List.foldl_append

end Transcript

/-- The event loop collects what is heard. -/
theorem logResponseEvents_eq (es : List SseEvent) (t : Transcript) :
    logResponseEvents env es t = t.pushAll (heard env es) := by
  induction es generalizing t with
  | nil => rfl
  | cons e es ih =>
      rw [logResponseEvents]
      cases he : endsResponse env e with
      | true =>
          rw [heard_end e es he]
          rfl
      | false =>
          rw [heard_cons e es he, Transcript.pushAll_append]
          simp only [Bool.false_eq_true, if_false, ih]
          rw [loggedDeltas, List.filterMap_cons]
          cases hd : extractSseDelta env.json env.provider e with
          | none => rfl
          | some delta => cases delta with
            | nil => rfl
            | cons c delta => rfl

end Events

/-- Before the last of some texts the limit is not passed. -/
def WithinLimit : Nat → List Str → Prop
  | _, [] => True
  | n, text :: texts => n ≤ maxSseBuffer ∧ WithinLimit (n + text.length) texts

instance WithinLimit.decidable : ∀ (n : Nat) (texts : List Str), Decidable (WithinLimit n texts)
  | _, [] => isTrue trivial
  | n, text :: texts =>
    have := WithinLimit.decidable (n + text.length) texts
    inferInstanceAs (Decidable (n ≤ maxSseBuffer ∧ WithinLimit (n + text.length) texts))

namespace Transcript

/-- The flag says whether the limit is passed. -/
def Sound (t : Transcript) : Prop :=
  t.accumulationStopped = decide (maxSseBuffer < t.accumulated.length)

theorem new_sound : new.Sound := rfl

/-- Behind the limit nothing is collected. -/
theorem pushAll_stopped (t : Transcript) (hs : t.accumulationStopped = true) :
    ∀ (texts : List Str), t.pushAll texts = t := by
  intro texts
  induction texts with
  | nil => rfl
  | cons text texts ih =>
      change (t.push text).pushAll texts = t
      rw [push, if_pos hs, ih]

/-- Up to it everything is. -/
theorem pushAll_open (text : Str) (texts : List Str) (t : Transcript)
    (hs : t.accumulationStopped = false) :
    ∃ u : Transcript, u.Sound ∧ u.accumulated = t.accumulated ++ text ∧
      t.pushAll (text :: texts) = u.pushAll texts := by
  refine ⟨t.push text, ?_, ?_, rfl⟩
  · rw [push, hs]
    rfl
  · rw [push, hs]
    rfl

/-- Text is only ever left out at the end. -/
theorem pushAll_prefix : ∀ (texts : List Str) (t : Transcript),
    (t.pushAll texts).accumulated <+: t.accumulated ++ texts.flatten := by
  intro texts
  induction texts with
  | nil => intro t; exact List.prefix_append _ _
  | cons text texts ih =>
      intro t
      rw [List.flatten_cons, ← List.append_assoc]
      cases hs : t.accumulationStopped with
      | true =>
          rw [t.pushAll_stopped hs, List.append_assoc]
          exact List.prefix_append _ _
      | false =>
          rcases t.pushAll_open text texts hs with ⟨u, _, hu, hall⟩
          rw [hall, ← hu]
          exact ih u

/-- Nothing is left out exactly if the limit is not passed before the end. -/
theorem pushAll_eq_iff : ∀ (texts : List Str) (t : Transcript), t.Sound →
    (∀ text ∈ texts, text ≠ []) →
    ((t.pushAll texts).accumulated = t.accumulated ++ texts.flatten ↔
      WithinLimit t.accumulated.length texts) := by
  intro texts
  induction texts with
  | nil =>
      intro t _ _
      exact ⟨fun _ => trivial, fun _ => (List.append_nil _).symm⟩
  | cons text texts ih =>
      intro t ht hne
      rw [WithinLimit]
      cases hs : t.accumulationStopped with
      -- Once the limit is passed every further text is lost, and there is one.
      | true =>
          rw [Sound, hs] at ht
          have hlimit := of_decide_eq_true ht.symm
          rw [t.pushAll_stopped hs]
          constructor
          · intro h
            have hnil := List.append_right_eq_self.mp h.symm
            rw [List.flatten_cons, List.append_eq_nil_iff] at hnil
            exact absurd hnil.1 (hne text List.mem_cons_self)
          · intro h
            omega
      | false =>
          rw [Sound, hs] at ht
          have hlimit := of_decide_eq_false ht.symm
          rcases t.pushAll_open text texts hs with ⟨u, hu, hacc, hall⟩
          have hrec := ih u hu fun x hx => hne x (List.mem_cons_of_mem _ hx)
          rw [hacc, List.length_append] at hrec
          rw [hall, List.flatten_cons, ← List.append_assoc, hrec]
          exact ⟨fun h => ⟨by omega, h⟩, fun h => h.2⟩

end Transcript

section Loop

variable {env : U2cEnv} (hoff : env.piiReplace = false)

/-- The state behind the bytes `b` of a body. -/
structure Hearing (b : Str) (s : U2cState) : Prop where
  headerDone : s.headerDone = true
  isSse : s.isSse = true
  sseParser : s.sseParser = ⟨(scan b).2⟩
  repBuf : s.repBuf = none

/-- An event stream is complete with its terminal event only. -/
theorem responseComplete_sse (s : U2cState) (hs : s.isSse = true) (done : Bool) :
    responseComplete s done = done := by
  simp only [responseComplete, hs, Bool.not_true, Bool.false_and, Bool.and_false, Bool.or_false]

include hoff

theorem Hearing.piece {b : Str} {s : U2cState} (hs : Hearing b s) (c : Str) (t : Transcript) :
    Hearing (b ++ c) (bodyPiece env c s).2.1 ∧
      (bodyPiece env c s).2.2 = (scan ((scan b).2 ++ c)).1.any (endsResponse env) ∧
      logPiece env c s t = logResponseEvents env (scan ((scan b).2 ++ c)).1 t := by
  have hpush : s.sseParser.push c = ((scan ((scan b).2 ++ c)).1, ⟨(scan ((scan b).2 ++ c)).2⟩) := by
    rw [hs.sseParser, SseParser.push_eq]
  simp only [bodyPiece, logPiece, logResponseChunk, hoff, Bool.false_and, Bool.false_eq_true,
    if_false, processResponseChunk, hs.isSse, if_true, hpush, and_true]
  refine ⟨hs.headerDone, rfl, ?_, hs.repBuf⟩
  rw [SseParser.scan_append b c]

/-- A read, once the headers are complete. -/
theorem Hearing.read {b : Str} {s : U2cState} (hs : Hearing b s) (c : Str) (t : Transcript) :
    Hearing (b ++ c) (takeRead env c s).2.1 ∧
      (takeRead env c s).2.2 = (scan ((scan b).2 ++ c)).1.any (endsResponse env) ∧
      logRead env c s t = logResponseEvents env (scan ((scan b).2 ++ c)).1 t := by
  rw [takeRead, logRead, if_pos hs.headerDone, if_pos hs.headerDone]
  have hs' : Hearing b { s with bodyReceived := s.bodyReceived + c.length } :=
    ⟨hs.headerDone, hs.isSse, hs.sseParser, hs.repBuf⟩
  exact ⟨(hs'.piece hoff c t).1, (hs'.piece hoff c t).2.1, (hs.piece hoff c t).2.2⟩

/-- The read that completes the headers, with the beginning `b` of the body. -/
theorem Answer.Framed.hearing {a : Answer} (ha : a.Framed) (p c b : Str)
    (hb : p ++ c = a.header ++ b) (t : Transcript) :
    Hearing b (takeRead env c { U2cState.start with raw := p }).2.1 ∧
      (takeRead env c { U2cState.start with raw := p }).2.2 =
        (scan b).1.any (endsResponse env) ∧
      logRead env c { U2cState.start with raw := p } t = logResponseEvents env (scan b).1 t := by
  have hend := findHeaderEnd_append a.header b _ ha.ends
  have hs : ∀ n, Hearing [] { headersDone env a.header { U2cState.start with raw := p } with
      bodyReceived := n } := fun n => ⟨rfl, ha.sse, rfl, by
    simp only [headersDone, hoff, Bool.false_and, Bool.false_eq_true, if_false, U2cState.start]⟩
  simp only [takeRead, logRead, show U2cState.start.headerDone = false from rfl,
    Bool.false_eq_true, if_false, hb, hend, List.take_left, List.drop_left]
  -- The read may end with the headers, or bring some of the body.
  cases b with
  | nil =>
      rw [List.append_nil, if_neg (Nat.lt_irrefl _), if_neg (Nat.lt_irrefl _)]
      exact ⟨hs 0, rfl, rfl⟩
  | cons x b =>
      have hlt : a.header.length < (a.header ++ x :: b).length := by
        rw [List.length_append, List.length_cons]
        omega
      rw [if_pos hlt, if_pos hlt]
      exact ⟨((hs _).piece hoff (x :: b) t).1, ((hs _).piece hoff (x :: b) t).2.1,
        ((hs 0).piece hoff (x :: b) t).2.2⟩

omit hoff in
/-- A read with a part of the body. -/
theorem u2cLog_hearing (b c : Str) (chunks : List Str) (s : U2cState) (t : Transcript)
    (hs : Hearing b (takeRead env c s).2.1) :
    (u2cLog env (c :: chunks) s t).head? =
      if (takeRead env c s).2.2 then some (logRead env c s t)
      else (u2cLog env chunks (takeRead env c s).2.1 (logRead env c s t)).head? := by
  simp only [u2cLog, u2cRead, responseComplete_sse _ hs.isSse, hs.headerDone, Bool.and_true]
  cases (takeRead env c s).2.2 with
  | true =>
      simp only [if_true, List.head?_cons, hs.repBuf]
      rfl
  | false => rfl

/-- From a state in the body on, only the bytes matter. -/
theorem Hearing.log_head : ∀ (reads : List Str) (b : Str) (s : U2cState), Hearing b s →
    (scan b).1.any (endsResponse env) = false →
    (u2cLog env reads s (logResponseEvents env (scan b).1 Transcript.new)).head? =
      some (logResponseEvents env (scan (b ++ reads.flatten)).1 Transcript.new) := by
  intro reads
  induction reads with
  | nil =>
      intro b s hs _
      rw [u2cLog, hs.repBuf, List.flatten_nil, List.append_nil]
      rfl
  | cons c reads ih =>
      intro b s hs hopen
      rcases hs.read hoff c (logResponseEvents env (scan b).1 Transcript.new) with
        ⟨hs', hdone, hlog⟩
      have hscan : (scan (b ++ c)).1 = (scan b).1 ++ (scan ((scan b).2 ++ c)).1 := by
        rw [SseParser.scan_append]
      have hany : (scan (b ++ c)).1.any (endsResponse env) = (takeRead env c s).2.2 := by
        rw [hscan, List.any_append, hopen, Bool.false_or, hdone]
      have hcollect : logRead env c s (logResponseEvents env (scan b).1 Transcript.new) =
          logResponseEvents env (scan (b ++ c)).1 Transcript.new := by
        rw [hlog, hscan, logResponseEvents_eq, logResponseEvents_eq, logResponseEvents_eq,
          heard_append, hopen, ← Transcript.pushAll_append]
        rfl
      rw [u2cLog_hearing (b ++ c) c reads s _ hs', hcollect, List.flatten_cons, ← List.append_assoc]
      cases hd : (takeRead env c s).2.2 with
      | true =>
          -- what follows the terminal event is not heard
          rw [if_pos rfl, SseParser.scan_append (b ++ c), logResponseEvents_eq,
            logResponseEvents_eq, heard_append, hany, hd, if_pos rfl, List.append_nil]
      | false =>
          rw [if_neg (by decide)]
          exact ih (b ++ c) _ hs' (hany.trans hd)

/-- A response, whatever the reads are: its transcript is that of the events the
    parser finds in the framed bytes. -/
theorem Answer.Framed.log_head {a : Answer} (ha : a.Framed) : ∀ (reads : List Str) (p : Str),
    p ++ reads.flatten = a.bytes → findHeaderEnd p = none →
    (u2cLog env reads { U2cState.start with raw := p } Transcript.new).head? =
      some (logResponseEvents env (scan a.body.bytes).1 Transcript.new) := by
  intro reads
  induction reads with
  | nil =>
      intro p hp hshort
      rw [List.flatten_nil, List.append_nil] at hp
      have hend := findHeaderEnd_append a.header a.body.bytes _ ha.ends
      rw [← Answer.bytes, ← hp, hshort] at hend
      exact absurd hend.symm (Option.some_ne_none _)
  | cons c reads ih =>
      intro p hp hshort
      rw [List.flatten_cons, ← List.append_assoc] at hp
      rcases prefix_cases (p ++ c) a.header a.body.bytes ⟨_, hp⟩ with ⟨r, hr, hne⟩ | ⟨b, hb⟩
      · -- the headers go on
        have hshort' := findHeaderEnd_short a.header (p ++ c) r ha.ends hr hne
        have hstep : u2cLog env (c :: reads) { U2cState.start with raw := p } Transcript.new =
            u2cLog env reads { U2cState.start with raw := p ++ c } Transcript.new := by
          simp only [u2cLog, u2cRead, takeRead, logRead,
            show U2cState.start.headerDone = false from rfl, Bool.false_eq_true, if_false, hshort',
            Bool.and_false]
        rw [hstep]
        exact ih (p ++ c) hp hshort'
      · rcases ha.hearing hoff p c b hb Transcript.new with ⟨hs, hdone, hlog⟩
        rw [hb, Answer.bytes, List.append_assoc, List.append_cancel_left_eq] at hp
        rw [u2cLog_hearing b c reads _ _ hs, hdone, hlog]
        -- The response may end in the read that completes the headers.
        cases hd : (scan b).1.any (endsResponse env) with
        | true =>
            rw [if_pos rfl, ← hp, SseParser.scan_append b, logResponseEvents_eq,
              logResponseEvents_eq, heard_append, hd, if_pos rfl, List.append_nil]
        | false =>
            rw [if_neg (by decide), ← hp]
            exact Hearing.log_head hoff reads b _ hs hd

/-- The transcript of a response. -/
theorem handleU2cLog_head {a : Answer} (ha : a.Framed) (reads : List Str)
    (hreads : reads.flatten = a.bytes) :
    (handleU2cLog env reads).head?.map Transcript.accumulated =
      some (Transcript.new.pushAll (heard env (scan a.body.bytes).1)).accumulated := by
  rw [handleU2cLog, show U2cState.start = { U2cState.start with raw := [] } from rfl,
    ha.log_head hoff reads [] hreads rfl, Option.map_some, logResponseEvents_eq]

end Loop

/-- A chunk's data, with `line` in front. -/
def markData (line : Str) : Str → Marked
  | [] => []
  | b :: data => (line, b) :: data.map fun b => ([], b)

/-- The payload of chunks, with the size lines where they stand; `before` is what
    stands in front of the first one. -/
def markChunks : Str → List (Str × Str) → Marked
  | _, [] => []
  | before, (line, data) :: chunks =>
    markData (before ++ (line ++ crlf)) data ++ markChunks crlf chunks

/-- The payload of a body, with its framing. -/
def Body.marked : Body → Marked
  | .whole data => markData [] data
  | .chunks cs => markChunks [] cs

/-- The framing behind the payload. -/
def Body.close : Body → Str
  | .whole _ => []
  | .chunks cs => (if cs.isEmpty then [] else crlf) ++ lastChunk

theorem markData_framed (line data : Str) (hne : data ≠ []) :
    (markData line data).framed = line ++ data := by
  cases data with
  | nil => exact absurd rfl hne
  | cons b data =>
      have hrest : Marked.framed (data.map fun b => (([] : Str), b)) = data := by
        induction data with
        | nil => rfl
        | cons c data ih => exact congrArg (c :: ·) (ih (List.cons_ne_nil _ _))
      rw [markData, Marked.framed, List.flatMap_cons, ← Marked.framed, hrest, List.append_assoc,
        List.singleton_append]

theorem markData_plain (line data : Str) : (markData line data).plain = data := by
  cases data with
  | nil => rfl
  | cons b data =>
      rw [markData, Marked.plain, List.map_cons, List.map_map]
      exact congrArg (b :: ·) (List.map_id data)

theorem markData_lines (line data : Str) (hline : line = [] ∨ ∃ l, line = l ++ crlf) :
    (markData line data).Lines := by
  intro p hp
  cases data with
  | nil => exact absurd hp List.not_mem_nil
  | cons b data =>
      rw [markData, List.mem_cons, List.mem_map] at hp
      rcases hp with rfl | ⟨c, _, rfl⟩
      · exact hline
      · exact .inl rfl

theorem markChunks_framed : ∀ (cs : List (Str × Str)) (before : Str), cs ≠ [] →
    (∀ c ∈ cs, ChunkedDecoder.ValidChunk c) →
    before ++ encode cs = (markChunks before cs).framed ++ crlf := by
  intro cs
  induction cs with
  | nil => intro before h _; exact absurd rfl h
  | cons c cs ih =>
      rcases c with ⟨line, data⟩
      intro before _ hall
      rw [markChunks, Marked.framed_append,
        markData_framed _ _ (hall _ List.mem_cons_self).2.2, encode]
      cases cs with
      | nil => simp only [encode, markChunks, Marked.framed, List.flatMap_nil, List.append_nil,
          List.append_assoc]
      | cons d cs =>
          have hrec := ih crlf (List.cons_ne_nil _ _) fun x hx => hall x (List.mem_cons_of_mem _ hx)
          rw [hrec]
          simp only [List.append_assoc]

theorem markChunks_plain : ∀ (cs : List (Str × Str)) (before : Str),
    (markChunks before cs).plain = ChunkedDecoder.payload cs := by
  intro cs
  induction cs with
  | nil => intro before; rfl
  | cons c cs ih =>
      rcases c with ⟨line, data⟩
      intro before
      have happ : ∀ m n : Marked, Marked.plain (m ++ n) = m.plain ++ n.plain :=
        fun m n => List.map_append
      rw [markChunks, happ, markData_plain, ih]
      rfl

theorem markChunks_lines : ∀ (cs : List (Str × Str)) (before : Str),
    (markChunks before cs).Lines := by
  intro cs
  induction cs with
  | nil => intro before p hp; exact absurd hp List.not_mem_nil
  | cons c cs ih =>
      intro before p hp
      rcases List.mem_append.mp hp with hp | hp
      · exact markData_lines _ _ (.inr ⟨before ++ c.1, (List.append_assoc _ _ _).symm⟩) p hp
      · exact ih crlf p hp

/-- The bytes of a body. -/
theorem Body.Valid.bytes_eq {body : Body} (hv : body.Valid) :
    body.bytes = body.marked.framed ++ body.close := by
  cases body with
  | whole data =>
      cases data with
      | nil => rfl
      | cons b data =>
          rw [marked, markData_framed [] (b :: data) (List.cons_ne_nil _ _)]
          exact (List.append_nil _).symm
  | chunks cs =>
      cases cs with
      | nil => rfl
      | cons c cs =>
          have h := markChunks_framed (c :: cs) [] (List.cons_ne_nil _ _) hv
          rw [bytes, ← List.nil_append (encode _), h, List.append_assoc]
          rfl

theorem Body.marked_plain (body : Body) : body.marked.plain = body.payload := by
  cases body with
  | whole data => exact markData_plain [] data
  | chunks cs => exact markChunks_plain cs []

theorem Body.marked_lines (body : Body) : body.marked.Lines := by
  cases body with
  | whole data => exact markData_lines [] data (.inl rfl)
  | chunks cs => exact markChunks_lines cs []

/-- Part by part, the events that the parser finds in a body with its framing,
    and those of the payload. -/
def Answer.seen (a : Answer) : List (List SseEvent × List SseEvent) :=
  a.body.marked.parts.1.map (fun part =>
    ((scan (Marked.framed part)).1, (scan (Marked.plain part)).1)) ++
    [((scan (a.body.marked.parts.2.framed ++ a.body.close)).1, [])]

theorem Answer.Framed.seen_fst {a : Answer} (ha : a.Framed) :
    a.seen.flatMap Prod.fst = (scan a.body.bytes).1 := by
  rw [ha.body.bytes_eq, Marked.scan_parts _ a.body.marked_lines, Answer.seen, List.flatMap_append,
    List.flatMap_map]
  simp only [List.flatMap_cons, List.flatMap_nil, List.append_nil]

theorem Answer.seen_snd (a : Answer) : a.seen.flatMap Prod.snd = a.events := by
  rw [Answer.events, ← Body.marked_plain, Marked.scan_plain, Answer.seen, List.flatMap_append,
    List.flatMap_map]
  simp only [List.flatMap_cons, List.flatMap_nil, List.append_nil]

section Damage

variable (env : U2cEnv)

/-- Every part is heard as it was sent, up to the end of the response; behind it
    there is no text. -/
def Undamaged : List (List SseEvent × List SseEvent) → Prop
  | [] => True
  | (found, sent) :: parts =>
    heard env found = loggedDeltas env sent ∧
      if found.any (endsResponse env) then ∀ part ∈ parts, loggedDeltas env part.2 = []
      else Undamaged parts

instance Undamaged.decidable : ∀ (parts : List (List SseEvent × List SseEvent)),
    Decidable (Undamaged env parts)
  | [] => isTrue trivial
  | (found, sent) :: parts =>
    have := Undamaged.decidable parts
    inferInstanceAs (Decidable (heard env found = loggedDeltas env sent ∧
      if found.any (endsResponse env) then ∀ part ∈ parts, loggedDeltas env part.2 = []
      else Undamaged env parts))

/-- What the framing does to the text of a part is to lose it, if anything. -/
def OnlyLosses (parts : List (List SseEvent × List SseEvent)) : Prop :=
  ∀ part ∈ parts, heard env part.1 = [] ∨ heard env part.1 = loggedDeltas env part.2

instance OnlyLosses.decidable (parts : List (List SseEvent × List SseEvent)) :
    Decidable (OnlyLosses env parts) :=
  List.decidableBAll _ parts

/-- Whatever the reads are, what is handed over for storage is the text of the
    events of the body. -/
def LoggedInFull (a : Answer) : Prop :=
  ∀ reads : List (List UInt8), reads.flatten = a.bytes →
    (handleU2cLog env reads).head?.map Transcript.accumulated =
      some (a.events.filterMap (extractSseDelta env.json env.provider)).flatten

variable {env}

theorem Undamaged.heard_eq : ∀ {parts : List (List SseEvent × List SseEvent)},
    Undamaged env parts →
    heard env (parts.flatMap Prod.fst) = loggedDeltas env (parts.flatMap Prod.snd) := by
  intro parts
  induction parts with
  | nil => intro _; rfl
  | cons part parts ih =>
      rcases part with ⟨found, sent⟩
      intro h
      rw [List.flatMap_cons, List.flatMap_cons, heard_append, loggedDeltas_append, h.1]
      cases hend : found.any (endsResponse env) with
      | true =>
          have hrest := h.2
          rw [hend, if_pos rfl] at hrest
          rw [if_pos rfl, loggedDeltas_flatMap, List.flatMap_eq_nil_iff.mpr hrest]
      | false =>
          have hrest := h.2
          rw [hend, if_neg (by decide)] at hrest
          rw [if_neg (by decide), ih hrest]

/-- If text is only lost, there is not more of it than was sent, and as much only
    without damage. -/
theorem OnlyLosses.length_le : ∀ {parts : List (List SseEvent × List SseEvent)},
    OnlyLosses env parts →
    (heard env (parts.flatMap Prod.fst)).flatten.length ≤
        (loggedDeltas env (parts.flatMap Prod.snd)).flatten.length ∧
      ((loggedDeltas env (parts.flatMap Prod.snd)).flatten.length ≤
          (heard env (parts.flatMap Prod.fst)).flatten.length → Undamaged env parts) := by
  intro parts
  induction parts with
  | nil => intro _; exact ⟨Nat.le_refl _, fun _ => trivial⟩
  | cons part parts ih =>
      rcases part with ⟨found, sent⟩
      intro h
      rcases ih fun x hx => h x (List.mem_cons_of_mem _ hx) with ⟨hle, hfull⟩
      -- The lengths decide: a lost part with text makes the sum smaller for good.
      have hpart : (heard env found).flatten.length ≤ (loggedDeltas env sent).flatten.length ∧
          ((loggedDeltas env sent).flatten.length ≤ (heard env found).flatten.length →
            heard env found = loggedDeltas env sent) := by
        rcases h (found, sent) List.mem_cons_self with hlost | hsame
        · dsimp only at hlost
          rw [hlost, List.flatten_nil, List.length_nil]
          refine ⟨Nat.zero_le _, fun hzero => ?_⟩
          exact (loggedDeltas_eq_nil sent (Nat.le_zero.mp hzero)).symm
        · dsimp only at hsame
          rw [hsame]
          exact ⟨Nat.le_refl _, fun _ => rfl⟩
      rw [Undamaged, List.flatMap_cons, List.flatMap_cons, heard_append, loggedDeltas_append,
        List.flatten_append, List.flatten_append, List.length_append, List.length_append]
      dsimp only
      cases hend : found.any (endsResponse env) with
      | true =>
          rw [if_pos rfl, if_pos rfl, List.flatten_nil, List.length_nil]
          refine ⟨by omega, fun hge => ⟨hpart.2 (by omega), ?_⟩⟩
          have hnil : loggedDeltas env (parts.flatMap Prod.snd) = [] :=
            loggedDeltas_eq_nil (parts.flatMap Prod.snd) (by omega)
          rw [loggedDeltas_flatMap] at hnil
          exact List.flatMap_eq_nil_iff.mp hnil
      | false =>
          rw [if_neg (by decide), if_neg (by decide)]
          exact ⟨by omega, fun hge => ⟨hpart.2 (by omega), hfull (by omega)⟩⟩

/-- Outside replace mode, the text of the events of the body is stored, whatever
    the reads are, if no event with text is damaged by the framing and the limit is
    not passed; and only then, if the framing does nothing worse to text than to
    lose it. -/
theorem loggedInFull_iff (env : U2cEnv) (hoff : env.piiReplace = false) (a : Answer)
    (ha : a.Framed) :
    (Undamaged env a.seen ∧ WithinLimit 0 (loggedDeltas env a.events) → LoggedInFull env a) ∧
      (OnlyLosses env a.seen →
        (LoggedInFull env a ↔
          Undamaged env a.seen ∧ WithinLimit 0 (loggedDeltas env a.events))) := by
  have hrun : LoggedInFull env a ↔
      (Transcript.new.pushAll (heard env (a.seen.flatMap Prod.fst))).accumulated =
        (loggedDeltas env a.events).flatten := by
    rw [ha.seen_fst, loggedDeltas_flatten]
    constructor
    · intro h
      have hone := h [a.bytes] (List.append_nil _)
      rw [handleU2cLog_head hoff ha [a.bytes] (List.append_nil _)] at hone
      exact Option.some.inj hone
    · intro h reads hreads
      rw [handleU2cLog_head hoff ha reads hreads, h]
  have hlimit := Transcript.pushAll_eq_iff (loggedDeltas env a.events) Transcript.new
    Transcript.new_sound (loggedDeltas_ne_nil a.events)
  have hsound : Undamaged env a.seen ∧ WithinLimit 0 (loggedDeltas env a.events) →
      LoggedInFull env a := by
    rintro ⟨hdamage, hwithin⟩
    rw [hrun, hdamage.heard_eq, a.seen_snd]
    exact hlimit.mpr hwithin
  refine ⟨hsound, fun hloss => ⟨fun hfull => ?_, hsound⟩⟩
  rw [hrun] at hfull
  -- nothing may be missing from the transcript, so nothing was missing from what was heard
  have hle := (Transcript.pushAll_prefix (heard env (a.seen.flatMap Prod.fst))
    Transcript.new).length_le
  rw [hfull, ← a.seen_snd] at hle
  have hdamage := hloss.length_le.2 hle
  rw [hdamage.heard_eq, a.seen_snd] at hfull
  exact ⟨hdamage, hlimit.mp hfull⟩

end Damage

/-- The event of a short text, as it is sent. -/
def textBlock : Str := lit "data: " ++ (textEvent (lit "Alice Brown!")).compact ++ lit "\n\n"

/-- An answer with that event, sent in two chunks. -/
def cutAnswer (n : Nat) : Answer where
  header := nameReply.header
  body := .chunks [sizedChunk (textBlock.take n), sizedChunk (textBlock.drop n),
    sizedChunk (lit "data: [DONE]\n\n")]

/-- A connection on which nothing is replaced. -/
def passEnv : U2cEnv := { nameEnv with piiReplace := false, vault := none }

theorem cutAnswer_framed (n : Nat) (hn : n = 2 ∨ n = 57) : (cutAnswer n).Framed := by
  rcases hn with rfl | rfl
  · exact ⟨by decide, by decide, by decide, by
      simp only [cutAnswer, Body.Valid]
      decide⟩
  · exact ⟨by decide, by decide, by decide, by
      simp only [cutAnswer, Body.Valid]
      decide⟩

/-- Between the two line feeds behind the event a cut does no harm; inside the
    field name it does. -/
theorem loggedInFull_cut :
    LoggedInFull passEnv (cutAnswer 57) ∧ ¬ LoggedInFull passEnv (cutAnswer 2) :=
  ⟨(loggedInFull_iff passEnv rfl (cutAnswer 57) (cutAnswer_framed 57 (.inr rfl))).1
      (by decide),
    fun h => absurd (((loggedInFull_iff passEnv rfl (cutAnswer 2)
      (cutAnswer_framed 2 (.inl rfl))).2 (by decide)).mp h) (by decide)⟩

/-- In one read: the text is sent, and none is stored. -/
theorem not_loggedInFull_name :
    (cutAnswer 2).events.filterMap (extractSseDelta passEnv.json passEnv.provider) =
        [lit "Alice Brown!"] ∧
      handleU2cLog passEnv [(cutAnswer 2).bytes] = [Transcript.new, Transcript.new] ∧
      ¬ ∀ a : Answer, a.Framed → LoggedInFull passEnv a := by
  have htext : (cutAnswer 2).events.filterMap
      (extractSseDelta passEnv.json passEnv.provider) = [lit "Alice Brown!"] := by decide
  have hlog : handleU2cLog passEnv [(cutAnswer 2).bytes] = [Transcript.new, Transcript.new] := by
    decide +kernel
  refine ⟨htext, hlog, fun hall => ?_⟩
  have h := hall (cutAnswer 2) (cutAnswer_framed 2 (.inl rfl)) [(cutAnswer 2).bytes]
    (List.append_nil _)
  rw [htext, hlog] at h
  exact absurd h (by decide)

end PrivacyClaw
