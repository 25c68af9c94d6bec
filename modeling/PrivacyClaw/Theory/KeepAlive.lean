import PrivacyClaw.Theory.Response
import PrivacyClaw.Theory.BareStream

/-!
# Responses on One Connection

Upstream sends its responses one after the other on one connection. What does
the client get of them, and does it depend on the reads?

The loop starts over when the terminal event of a response is complete. The
chunk that holds the event and the response itself are not complete then: a line
end and the last chunk follow. If they are in the same read they are dropped with
the rest of the read. If they are not, the loop takes them for the headers of the
next response. And if the next response is in the same read, it is dropped as
well. So the reads do matter, and `InStep` says which ones do no harm: the last
read of a response is the one that completes its terminal event, and it ends
where the response ends.

## Main definitions

* `Reply`: A response in chunks.
* `Reply.Valid`: One that ends with its terminal event.
* `Reply.delivered`: What the client should get of it.
* `InStep`: Reads that end with the responses.

## Theorems

* `Reply.Valid.waiting`: Before the last byte of the terminal event the loop
  waits.
* `u2cReads_reply`: The reads of one response.
* `u2cReads_replies`: The reads of all responses.
* `handleU2c_replies`: What the client gets.
-/

namespace PrivacyClaw

open SseParser (scan)
open ChunkedDecoder (decode encode payload ValidChunk)

theorem SseParser.scan_prefix (s t : Str) (h : s <+: t) : (scan s).1 <+: (scan t).1 := by
  rcases h with ⟨r, rfl⟩
  rw [SseParser.scan_append]
  exact List.prefix_append _ _

/-- A response whose body is an event stream in chunks. -/
structure Reply where
  header : Str
  chunks : List (Str × Str)

namespace Reply

/-- The bytes that upstream sends. -/
def bytes (r : Reply) : Str := r.header ++ (encode r.chunks ++ lastChunk)

/-- The events of the response. -/
def events (r : Reply) : List SseEvent := (scan (payload r.chunks)).1

/-- The headers are complete and announce an event stream in chunks, the chunks
    are well formed, and the terminal event is the last one and ends with the
    payload. -/
structure Valid (env : U2cEnv) (r : Reply) : Prop where
  ends : findHeaderEnd r.header = some r.header.length
  sse : isEventStream r.header = true
  unsized : parseContentLength r.header = none
  chunked : isChunkedEncoding r.header = true
  chunks : ∀ c ∈ r.chunks, ValidChunk c
  terminal : ∃ es e, r.events = es ++ [e] ∧ endsResponse env e = true ∧
    (∀ e ∈ es, endsResponse env e = false) ∧ (scan (payload r.chunks).dropLast).1 = es

/-- The buffer's run over the events of a response. -/
def restored (env : U2cEnv) (r : Reply) : List ClientWrite × Option ReplacementBuffer × Bool :=
  processEvents env.json env.provider env.vaultOr r.events
    (env.vault.map fun _ => ReplacementBuffer.new)

/-- What the client should get: the headers, the restored events with what was
    held back, and the end. -/
def delivered (env : U2cEnv) (r : Reply) : List ClientWrite :=
  .raw r.header :: (r.restored env).1 ++ flushRepBufAndFinalize env (r.restored env).2.1 ++ [.last]

/-- The reads of one response: together they are the response, and all but the
    last end before the last byte of the terminal event, which is the third
    byte from the end of the chunks. -/
def Reads (r : Reply) (group : List Str) : Prop :=
  group.flatten = r.bytes ∧
    group.dropLast.flatten.length + 2 < r.header.length + (encode r.chunks).length

end Reply

/-- No read has bytes of two responses, and the read that completes the terminal
    event of a response also has the rest of it. -/
def InStep : List Reply → List Str → Prop
  | [], reads => reads = []
  | r :: rs, reads => ∃ group rest, reads = group ++ rest ∧ r.Reads group ∧ InStep rs rest

theorem InStep.flatten_eq : ∀ {rs : List Reply} {reads : List Str}, InStep rs reads →
    reads.flatten = (rs.map Reply.bytes).flatten := by
  intro rs
  induction rs with
  | nil =>
      intro reads hstep
      rw [InStep] at hstep
      rw [hstep]
      rfl
  | cons r rs ih =>
      intro reads hstep
      rcases hstep with ⟨group, rest, rfl, hg, hrest⟩
      rw [List.flatten_append, hg.1, ih hrest, List.map_cons, List.flatten_cons]

section

variable {env : U2cEnv} (hr : env.piiReplace = true)
include hr

theorem Reply.Valid.stream {r : Reply} (hv : r.Valid env) : Stream env r.header :=
  ⟨hr, hv.ends, hv.sse⟩

omit hr in
theorem Reply.Valid.isChunkedResp {r : Reply} (hv : r.Valid env) :
    (opened env r.header).isChunkedResp = true := by
  simp only [opened, headersDone, hv.unsized, hv.chunked, Option.isNone_none, Bool.and_self]

omit hr in
/-- Before the last byte of the terminal event the loop waits. -/
theorem Reply.Valid.waiting {r : Reply} (hv : r.Valid env) (p : Str) (hp : p <+: r.bytes)
    (hlen : p.length + 2 < r.header.length + (encode r.chunks).length) :
    Waiting env r.header p := by
  rintro b rfl
  rw [Reply.bytes] at hp
  rw [List.length_append] at hlen
  have hb : b <+: encode r.chunks :=
    List.prefix_of_prefix_length_le ((List.prefix_append_right_inj _).mp hp)
      (List.prefix_append _ _) (by omega)
  have hpre := ChunkedDecoder.decode_prefix r.chunks hv.chunks b hb
  have hshort := ChunkedDecoder.decode_short r.chunks hv.chunks b hb (by omega)
  rcases hv.terminal with ⟨es, e, _, _, hes, hfront⟩
  refine ⟨fun _ => hpre.1, ?_⟩
  -- without the last byte of the payload, only the events before the last are there
  have hfew : (scan (decode ⟨b, 0, .readingSize⟩).1).1 <+: es := by
    rw [← hfront]
    refine SseParser.scan_prefix _ _ ?_
    refine List.prefix_of_prefix_length_le hpre.2 (List.dropLast_prefix _) ?_
    rw [List.length_dropLast]
    omega
  simp only [midway, hv.isChunkedResp, unframe, if_true]
  exact processEvents_open _ _ _ _ fun x hx => hes x (hfew.subset hx)

/-- Where the loop is after all bytes of a response. -/
theorem Reply.Valid.position_bytes {r : Reply} (hv : r.Valid env) :
    (position env r.header r.bytes).1 = .raw r.header :: (r.restored env).1 ∧
      (position env r.header r.bytes).2.1.repBuf = (r.restored env).2.1 ∧
      (position env r.header r.bytes).2.2 = true := by
  have hbuf : (opened env r.header).repBuf = env.vault.map fun _ => ReplacementBuffer.new := by
    simp only [opened, headersDone, hr, hv.sse, Bool.and_self, if_true]
  have hpay : unframe true (encode r.chunks ++ lastChunk) = payload r.chunks := by
    rw [unframe, if_pos rfl, ChunkedDecoder.decode_encode r.chunks hv.chunks,
      ChunkedDecoder.decode_lastChunk, List.append_nil]
  rcases hv.terminal with ⟨es, e, hevents, he, _, _⟩
  rw [Reply.bytes, position_body]
  simp only [midway, hv.isChunkedResp, hpay, hbuf]
  refine ⟨rfl, rfl, ?_⟩
  rw [processEvents_flag]
  refine List.any_eq_true.mpr ⟨e, ?_, he⟩
  rw [← Reply.events, hevents]
  exact List.mem_append_right _ List.mem_cons_self

/-- The reads of one response give what they should, and leave the loop where it
    started. -/
theorem u2cReads_reply {r : Reply} (hv : r.Valid env) (group : List Str) (hg : r.Reads group) :
    u2cReads env group U2cState.start = (r.delivered env, U2cState.start) := by
  rcases hg with ⟨hbytes, hlast⟩
  rcases List.eq_nil_or_concat group with rfl | ⟨reads, c, rfl⟩
  · -- a response is not empty
    have hne := (hv.stream hr).header_ne_nil
    rw [List.flatten_nil, Reply.bytes] at hbytes
    exact absurd (List.append_eq_nil_iff.mp hbytes.symm).1 hne
  · rw [List.concat_eq_append] at hbytes hlast ⊢
    rw [List.dropLast_concat] at hlast
    rw [List.flatten_append, List.flatten_singleton] at hbytes
    have hpre : reads.flatten <+: r.bytes := ⟨c, hbytes⟩
    have hend := hv.position_bytes hr
    rw [← hbytes] at hend
    rw [u2cReads_response (hv.stream hr) (encode r.chunks ++ lastChunk) reads c
      (by rw [hbytes]; exact List.prefix_refl _) (hv.waiting _ hpre hlast) hend.2.2, hend.1, hend.2.1]
    rfl

theorem u2cReads_replies : ∀ (rs : List Reply) (reads : List Str), (∀ r ∈ rs, r.Valid env) →
    InStep rs reads →
    u2cReads env reads U2cState.start =
      ((rs.map (Reply.delivered env)).flatten, U2cState.start) := by
  intro rs
  induction rs with
  | nil =>
      intro reads _ hstep
      rw [InStep] at hstep
      rw [hstep]
      rfl
  | cons r rs ih =>
      intro reads hv hstep
      rcases hstep with ⟨group, rest, rfl, hg, hrest⟩
      rw [u2cReads_append, u2cReads_reply hr (hv r List.mem_cons_self) group hg,
        ih rest (fun x hx => hv x (List.mem_cons_of_mem _ hx)) hrest, List.map_cons,
        List.flatten_cons]

/-- If the reads end with the responses, the client gets each response as it
    should, and nothing else. -/
theorem handleU2c_replies (rs : List Reply) (hv : ∀ r ∈ rs, r.Valid env)
    (reads : List (List UInt8)) (hstep : InStep rs reads) :
    reads.flatten = (rs.map Reply.bytes).flatten ∧
      handleU2c env reads = (rs.map (Reply.delivered env)).flatten := by
  refine ⟨hstep.flatten_eq, ?_⟩
  rw [handleU2c, u2cReads_replies hr rs reads hv hstep]
  exact List.append_nil _

end

/-- The data of a text event. -/
def textEvent (text : Str) : Value :=
  .object [(lit "choices",
    .array [.object [(lit "delta", .object [(lit "content", .string text)])]])]

/-- A chunk with its size line. -/
def sizedChunk (data : Str) : Str × Str := (hexUpper data.length, data)

/-- A short answer that has a synthetic name in it. -/
def nameReply : Reply where
  header := lit "HTTP/1.1 200 OK\r\ncontent-type: text/event-stream\r\ntransfer-encoding: chunked\r\n\r\n"
  chunks := [sizedChunk (lit "data: " ++ (textEvent (lit "Alice Brown!")).compact ++ lit "\n\n"),
    sizedChunk (lit "data: [DONE]\n\n")]

/-- A connection on which that name is restored. -/
def nameEnv : U2cEnv where
  json := SerdeJson.ofValues [textEvent (lit "Alice Brown!")]
  provider := .openAi
  piiReplace := true
  vault := some ReplacementBuffer.oneName

theorem nameReply_valid : nameReply.Valid nameEnv where
  ends := by decide
  sse := by decide
  unsized := by decide
  chunked := by decide
  chunks := by decide
  terminal := ⟨[⟨none, (textEvent (lit "Alice Brown!")).compact⟩], ⟨none, lit "[DONE]"⟩,
    by decide, by decide, by decide, by decide⟩

theorem nameReplies_valid : ∀ r ∈ [nameReply, nameReply], r.Valid nameEnv := by
  intro r hmem
  have hr : r = nameReply := by
    simpa only [List.mem_cons, List.not_mem_nil, or_false, or_self] using hmem
  rw [hr]
  exact nameReply_valid

/-- Two answers, the first in three reads that are cut inside its headers and
    inside its text, the second in one. -/
theorem handleU2c_two_replies :
    InStep [nameReply, nameReply]
        [nameReply.bytes.take 20, (nameReply.bytes.drop 20).take 100, nameReply.bytes.drop 120,
          nameReply.bytes] ∧
      handleU2c nameEnv
          [nameReply.bytes.take 20, (nameReply.bytes.drop 20).take 100, nameReply.bytes.drop 120,
            nameReply.bytes] =
        nameReply.delivered nameEnv ++ nameReply.delivered nameEnv ∧
      nameReply.delivered nameEnv =
        [.raw nameReply.header, .event ⟨none, (textEvent (lit "John Smith!")).compact⟩,
          .event ⟨none, lit "[DONE]"⟩, .last] := by
  have hstep : InStep [nameReply, nameReply]
      [nameReply.bytes.take 20, (nameReply.bytes.drop 20).take 100, nameReply.bytes.drop 120,
        nameReply.bytes] :=
    ⟨[nameReply.bytes.take 20, (nameReply.bytes.drop 20).take 100, nameReply.bytes.drop 120],
      [nameReply.bytes], rfl, ⟨by decide +kernel, by decide +kernel⟩,
      [nameReply.bytes], [], rfl, ⟨by decide +kernel, by decide⟩, rfl⟩
  refine ⟨hstep, ?_, by decide⟩
  rw [(handleU2c_replies rfl _ nameReplies_valid _ hstep).2]
  exact congrArg (nameReply.delivered nameEnv ++ ·) (List.append_nil _)

/-- The end of the first answer comes in a read of its own: it is forwarded as
    if it were the headers of a response, and the second answer as if it were
    the body, with the synthetic name in it. -/
theorem handleU2c_late_end :
    nameReply.Valid nameEnv ∧
      nameReply.bytes.drop 161 = lit "\r\n0\r\n\r\n" ∧
      handleU2c nameEnv
          [nameReply.bytes.take 161, nameReply.bytes.drop 161, nameReply.bytes] =
        nameReply.delivered nameEnv ++ [.raw (lit "\r\n0\r\n\r\n"), .raw nameReply.bytes] ∧
      ¬ ∀ (rs : List Reply) (reads : List (List UInt8)), (∀ r ∈ rs, r.Valid nameEnv) →
        reads.flatten = (rs.map Reply.bytes).flatten →
        handleU2c nameEnv reads = (rs.map (Reply.delivered nameEnv)).flatten := by
  refine ⟨nameReply_valid, by decide +kernel, by decide +kernel, ?_⟩
  intro hall
  refine absurd (hall [nameReply, nameReply]
    [nameReply.bytes.take 161, nameReply.bytes.drop 161, nameReply.bytes] nameReplies_valid ?_)
    (by decide +kernel)
  rw [List.flatten_cons, List.flatten_cons, ← List.append_assoc, List.take_append_drop]
  rfl

end PrivacyClaw
