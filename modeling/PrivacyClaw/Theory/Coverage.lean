import PrivacyClaw.Core.Pipeline

/-!
# What the Scanner Sees of a Request

Two walkers read the same request: `parseRequest` for the dashboard, and
`collectMessageTexts` for the detectors. A text that only the first one reads
is shown as an ordinary message but never scanned.

To compare them, a message's content is taken apart again: `contentParts`
lists the labels and the texts that make it up, each text with the JSON path
it was read from, and `parseRequest_render` says that joining them gives the
content back. The scanner's texts have paths of their own. The walkers agree
for OpenAI. For Anthropic they agree on bodies without thinking text and
without tool results, and for Google on bodies without part texts.

## Main definitions

* `ContentPart`: A label, or a text and the path it stands at.
* `Anthropic.contentParts`, `OpenAi.contentParts`, `Google.contentParts`: The
  parts of a message's content.
* `messageParts`, `TakenText`: The parts of all messages, and the texts among
  them.
* `Scanned`: A text the detectors get.
* `OnlyTextBlocks`, `NoPartTexts`: The conditions for agreement.

## Theorems

* `parseRequest_render`: The parts make up the parsed contents.
* `Anthropic.scanned_iff_onlyText`, `Google.scanned_iff_noPartTexts`: One
  message.
* `takenText_scanned_iff`: When every text taken is scanned.
* `takenText_scanned_plain`: A body where it is.
* `takenText_google_unscanned`: A Google text is not.
-/

namespace PrivacyClaw

/-- A piece of a message's content: a label the parser puts there, or a text
    read at a path inside the message. -/
inductive ContentPart where
  | label (s : Str)
  | text (path : List Value.Step) (s : Str)

/-- What a part adds to the content. -/
def ContentPart.render : ContentPart → Str
  | .label s => s
  | .text _ s => s

/-- The text parts of a `text` part list, read at `path`. -/
def textParts (path : List Value.Step) (parts : List Value) : List ContentPart :=
  parts.zipIdx.flatMap fun (p, i) =>
    ((textPart p).map fun s => ContentPart.text (path ++ [.idx i, .key (lit "text")]) s).toList

namespace Anthropic

/-- The parts of one content block, `extract_block` with paths. -/
def blockParts (J : SerdeJson) (path : List Value.Step) (b : Value) : List ContentPart :=
  match b.getStr (lit "type") with
  | none => []
  | some t =>
    if t = lit "text" then
      (((b.getStr (lit "text")).filter (· ≠ [])).map fun s =>
        ContentPart.text (path ++ [.key (lit "text")]) s).toList
    else if t = lit "thinking" then
      match (b.getStr (lit "thinking")).filter (· ≠ []) with
      | some s => [.label (lit "[thinking] "), .text (path ++ [.key (lit "thinking")]) s]
      | none => []
    else if t = lit "tool_use" then
      let name := (b.getStr (lit "name")).getD (lit "unknown")
      let input := ((b.get (lit "input")).map J.toStr).getD []
      [.label (lit "[" ++ name ++ lit "] " ++ input)]
    else if t = lit "tool_result" then
      match (toolResultText b).filter (· ≠ []), b.get (lit "content") with
      | some _, some (.string s) => [.label (lit "[result] "), .text (path ++ [.key (lit "content")]) s]
      | some _, some (.array blocks) =>
        .label (lit "[result] ") :: textParts (path ++ [.key (lit "content")]) blocks
      | _, _ => []
    else []

/-- The parts of a message's content. -/
def contentParts (J : SerdeJson) (m : Value) : List ContentPart :=
  match m.get (lit "content") with
  | some (.string s) => [.text [.key (lit "content")] s]
  | some (.array blocks) => blocks.zipIdx.flatMap fun (b, i) =>
      blockParts J [.key (lit "content"), .idx i] b
  | _ => []

end Anthropic

namespace OpenAi

/-- The parts of a message's content. -/
def contentParts (m : Value) : List ContentPart :=
  match m.get (lit "content") with
  | some (.string s) => [.text [.key (lit "content")] s]
  | some (.array parts) => textParts [.key (lit "content")] parts
  | _ => []

end OpenAi

namespace Google

/-- The parts of an element's content. -/
def contentParts (m : Value) : List ContentPart :=
  ((m.getArray (lit "parts")).getD []).zipIdx.flatMap fun (p, i) =>
    ((p.getStr (lit "text")).map fun s =>
      ContentPart.text [.key (lit "parts"), .idx i, .key (lit "text")] s).toList

end Google

/-- The parts of the content of one element of the messages array. -/
def messageParts (J : SerdeJson) : Provider → Value → List ContentPart
  | .anthropic, m => Anthropic.contentParts J m
  | .openAi, m => OpenAi.contentParts m
  | .google, m => Google.contentParts m
  | .unknown, m => OpenAi.contentParts m

/-- The parser takes the text `s` at `path` of message `i` into the message's
    content. -/
def TakenText (J : SerdeJson) (provider : Provider) (value : Value) (i : Nat)
    (path : List Value.Step) (s : Str) : Prop :=
  ∃ msgs m, value.getArray provider.messagesField = some msgs ∧ msgs[i]? = some m ∧
    ContentPart.text path s ∈ messageParts J provider m

/-- The place of a collected text inside its message. -/
def MessageTextEntry.path (e : MessageTextEntry) : List Value.Step :=
  match e.partIdx with
  | none => [.key (lit "content")]
  | some i => [.key (lit "content"), .idx i, .key (lit "text")]

/-- The detectors get the text `s` at `path` of message `i`. -/
def Scanned (provider : Provider) (value : Value) (i : Nat) (path : List Value.Step) (s : Str) :
    Prop :=
  ∃ e ∈ collectMessageTexts value provider.messagesField,
    e.msgIdx = i ∧ e.path = path ∧ e.text = s

/-- No block of a message has thinking text or a tool result with text. -/
def OnlyTextBlocks (m : Value) : Prop :=
  ∀ blocks, m.get (lit "content") = some (.array blocks) → ∀ b ∈ blocks,
    (b.getStr (lit "type") = some (lit "thinking") →
      (b.getStr (lit "thinking")).filter (· ≠ []) = none) ∧
    (b.getStr (lit "type") = some (lit "tool_result") →
      (Anthropic.toolResultText b).filter (· ≠ []) = none)

/-- No part of an element has text. -/
def NoPartTexts (m : Value) : Prop :=
  ∀ parts, m.getArray (lit "parts") = some parts → ∀ p ∈ parts, p.getStr (lit "text") = none

section Render

theorem flatMap_zipIdx {β γ : Type} (f : β → List γ) (l : List β) :
    l.zipIdx.flatMap (fun p => f p.1) = l.flatMap f := by
  have hfst : l.zipIdx.map Prod.fst = l := List.zipIdx_map_fst 0 l
  conv_rhs => rw [← hfst, List.flatMap_map]

theorem flatten_filterMap {β γ : Type} (f : β → Option (List γ)) (l : List β) :
    (l.filterMap f).flatten = l.flatMap fun b => (f b).getD [] := by
  induction l with
  | nil => rfl
  | cons b l ih =>
      cases hb : f b with
      | none => rw [List.filterMap_cons_none hb, ih, List.flatMap_cons, hb, Option.getD_none,
          List.nil_append]
      | some s => rw [List.filterMap_cons_some hb, List.flatten_cons, ih, List.flatMap_cons, hb,
          Option.getD_some]

theorem textParts_render (path : List Value.Step) (parts : List Value) :
    (textParts path parts).flatMap ContentPart.render = (parts.filterMap textPart).flatten := by
  rw [textParts, List.flatMap_assoc, flatten_filterMap,
    ← flatMap_zipIdx (fun b => (textPart b).getD []) parts]
  refine List.flatMap_congr ?_
  intro q _
  dsimp only
  cases textPart q.1 with
  | none => rfl
  | some s => exact List.append_nil s

/-- A tool result is written after its label, from its string or from the texts
    of its array. -/
theorem Anthropic.toolResult_render (J : SerdeJson) (path : List Value.Step) (b : Value)
    (htype : b.getStr (lit "type") = some (lit "tool_result")) :
    (blockParts J path b).flatMap ContentPart.render = (extractBlock J b).getD [] := by
  unfold blockParts extractBlock
  rw [htype]
  dsimp only
  rw [if_neg (by decide), if_neg (by decide), if_neg (by decide), if_pos rfl,
    if_neg (by decide), if_neg (by decide), if_neg (by decide), if_pos rfl]
  cases hres : (toolResultText b).filter (· ≠ []) with
  | none => rfl
  | some r =>
      have hr : toolResultText b = some r := (Option.filter_eq_some_iff.mp hres).1
      rw [Option.map_some, Option.getD_some]
      unfold toolResultText at hr
      -- Only a text and an array give a result.
      cases hc : b.get (lit "content") with
      | none =>
          rw [hc] at hr
          exact absurd hr (by simp only [reduceCtorEq, not_false_eq_true])
      | some c =>
          rw [hc] at hr
          cases c with
          | string s =>
              rw [Option.some.injEq] at hr
              change lit "[result] " ++ (s ++ []) = lit "[result] " ++ r
              rw [List.append_nil, hr]
          | array blocks =>
              rw [Option.some.injEq] at hr
              dsimp only
              rw [List.flatMap_cons, textParts_render, hr]
              rfl
          | _ => exact absurd hr (by simp only [reduceCtorEq, not_false_eq_true])

theorem Anthropic.blockParts_render (J : SerdeJson) (path : List Value.Step) (b : Value) :
    (blockParts J path b).flatMap ContentPart.render = (extractBlock J b).getD [] := by
  by_cases hresult : b.getStr (lit "type") = some (lit "tool_result")
  · exact toolResult_render J path b hresult
  unfold blockParts extractBlock
  cases htype : b.getStr (lit "type") with
  | none => rfl
  | some t =>
      dsimp only
      -- Both functions go through the block types in the same order.
      by_cases ht : t = lit "text"
      · rw [if_pos ht, if_pos ht]
        cases (b.getStr (lit "text")).filter (· ≠ []) with
        | none => rfl
        | some s => exact List.append_nil s
      rw [if_neg ht, if_neg ht]
      by_cases ht : t = lit "thinking"
      · rw [if_pos ht, if_pos ht]
        cases (b.getStr (lit "thinking")).filter (· ≠ []) with
        | none => rfl
        | some s =>
            change lit "[thinking] " ++ (s ++ []) = lit "[thinking] " ++ s
            rw [List.append_nil]
      rw [if_neg ht, if_neg ht]
      by_cases ht : t = lit "tool_use"
      · rw [if_pos ht, if_pos ht]
        exact List.append_nil _
      -- Any other type: no part, no text.
      have hother : t ≠ lit "tool_result" := fun h => hresult (by rw [htype, h])
      rw [if_neg ht, if_neg ht, if_neg hother, if_neg hother]
      rfl

theorem Anthropic.contentParts_render (J : SerdeJson) (m : Value) :
    (contentParts J m).flatMap ContentPart.render = extractContent J (m.get (lit "content")) := by
  unfold contentParts extractContent
  cases m.get (lit "content") with
  | none => rfl
  | some c =>
      cases c with
      | string s => exact List.append_nil s
      | array blocks =>
          dsimp only
          rw [List.flatMap_assoc, flatten_filterMap,
            ← flatMap_zipIdx (fun b => (extractBlock J b).getD []) blocks]
          refine List.flatMap_congr ?_
          intro q _
          exact blockParts_render J _ q.1
      | _ => rfl

theorem OpenAi.contentParts_render (m : Value) :
    (contentParts m).flatMap ContentPart.render = extractContent (m.get (lit "content")) := by
  unfold contentParts extractContent
  cases m.get (lit "content") with
  | none => rfl
  | some c =>
      cases c with
      | string s => exact List.append_nil s
      | array parts => exact textParts_render _ parts
      | _ => rfl

theorem Google.contentParts_render (m : Value) :
    (contentParts m).flatMap ContentPart.render = extractContent m := by
  unfold contentParts extractContent
  rw [List.flatMap_assoc, flatten_filterMap,
    ← flatMap_zipIdx (fun p => (Value.getStr p (lit "text")).getD []) _]
  refine List.flatMap_congr ?_
  intro q _
  dsimp only
  cases q.1.getStr (lit "text") with
  | none => rfl
  | some s => exact List.append_nil s

/-- The contents of the parsed messages are their parts, joined; in front of
    them the Anthropic parser may put the system prompt. -/
theorem parseRequest_render (J : SerdeJson) (provider : Provider) (body : List UInt8)
    (value : Value) (req : ParsedRequest) (hval : J.fromSlice body = some value)
    (hparse : parseRequest J provider body = some req) :
    ∃ system : List Str, req.messages.map Message.content = system ++
      ((value.getArray provider.messagesField).getD []).map fun m =>
        (messageParts J provider m).flatMap ContentPart.render := by
  rw [parseRequest, hval, Option.bind_eq_bind, Option.bind_some] at hparse
  have hopen : ∀ r, OpenAi.parseRequest value = some r → ∃ system : List Str,
      r.messages.map Message.content = system ++
        ((value.getArray (lit "messages")).getD []).map fun m =>
          (OpenAi.contentParts m).flatMap ContentPart.render := by
    intro r hr
    simp only [OpenAi.parseRequest, Option.bind_eq_bind, Option.bind_eq_some_iff] at hr
    rcases hr with ⟨model, _, msgs, hmsgs, hr⟩
    rw [Option.some.injEq] at hr
    refine ⟨[], ?_⟩
    rw [← hr, hmsgs, Option.getD_some, List.map_map, List.nil_append]
    exact List.map_congr_left fun m _ => (OpenAi.contentParts_render m).symm
  cases provider with
  | anthropic =>
      -- The system prompt, where there is one, comes first.
      simp only [Anthropic.parseRequest, Option.bind_eq_bind, Option.bind_eq_some_iff] at hparse
      rcases hparse with ⟨model, _, hr⟩
      rw [Option.some.injEq] at hr
      rw [← hr, List.map_append, List.map_map]
      refine ⟨_, congrArg _ ?_⟩
      exact List.map_congr_left fun m _ => (Anthropic.contentParts_render J m).symm
  | openAi => exact hopen req hparse
  | google =>
      simp only [Google.parseRequest, Option.bind_eq_bind, Option.bind_eq_some_iff] at hparse
      rcases hparse with ⟨msgs, hmsgs, hr⟩
      rw [Option.some.injEq] at hr
      refine ⟨[], ?_⟩
      rw [← hr, List.nil_append, show Provider.messagesField .google = lit "contents" from rfl,
        hmsgs, Option.getD_some, List.map_map]
      exact List.map_congr_left fun m _ => (Google.contentParts_render m).symm
  | unknown => exact hopen req hparse

end Render

theorem mem_zipIdx_flatMap {β γ : Type} (f : β × Nat → List γ) (l : List β) (x : γ) :
    x ∈ l.zipIdx.flatMap f ↔ ∃ k b, l[k]? = some b ∧ x ∈ f (b, k) := by
  rw [List.mem_flatMap]
  constructor
  · rintro ⟨⟨b, k⟩, hmem, hx⟩
    exact ⟨k, b, List.mk_mem_zipIdx_iff_getElem?.mp hmem, hx⟩
  · rintro ⟨k, b, hk, hx⟩
    exact ⟨(b, k), List.mk_mem_zipIdx_iff_getElem?.mpr hk, hx⟩

theorem mem_textParts (base path : List Value.Step) (parts : List Value) (s : Str) :
    ContentPart.text path s ∈ textParts base parts ↔
      ∃ k p, parts[k]? = some p ∧ textPart p = some s ∧
        path = base ++ [.idx k, .key (lit "text")] := by
  rw [textParts, mem_zipIdx_flatMap]
  simp only [Option.mem_toList, Option.map_eq_some_iff, ContentPart.text.injEq]
  constructor
  · rintro ⟨k, p, hk, a, ha, rfl, rfl⟩
    exact ⟨k, p, hk, ha, rfl⟩
  · rintro ⟨k, p, hk, ha, rfl⟩
    exact ⟨k, p, hk, s, ha, rfl, rfl⟩

/-- The texts of a message that the detectors get: its string content, or the
    `text` parts of an array. -/
def ScannedIn (m : Value) (path : List Value.Step) (s : Str) : Prop :=
  m.get (lit "content") = some (.string s) ∧ path = [.key (lit "content")] ∨
    ∃ parts k p, m.get (lit "content") = some (.array parts) ∧ parts[k]? = some p ∧
      textPart p = some s ∧ path = [.key (lit "content"), .idx k, .key (lit "text")]

theorem scannedIn_iff_collect (m : Value) (i : Nat) (path : List Value.Step) (s : Str) :
    ScannedIn m path s ↔ ∃ e ∈ collectMessage i m, e.path = path ∧ e.text = s := by
  unfold ScannedIn collectMessage
  cases m.get (lit "content") with
  | none =>
      simp only [reduceCtorEq, false_and, exists_false, or_self, List.not_mem_nil]
  | some c =>
      cases c with
      | string t =>
          -- A string is one entry without a part index.
          simp only [Option.some.injEq, Value.string.injEq, reduceCtorEq, false_and, exists_false,
            or_false, Value.asStr, List.mem_singleton, exists_eq_left, MessageTextEntry.path]
          constructor
          · rintro ⟨rfl, rfl⟩
            exact ⟨rfl, rfl⟩
          · rintro ⟨rfl, rfl⟩
            exact ⟨rfl, rfl⟩
      | array parts =>
          -- An array has an entry for each `text` part, with the part's index.
          simp only [Option.some.injEq, reduceCtorEq, false_and, Value.array.injEq, false_or,
            Value.asStr, Value.asArray, List.mem_filterMap, Option.map_eq_some_iff, Prod.exists,
            List.mk_mem_zipIdx_iff_getElem?]
          constructor
          · rintro ⟨_, k, p, rfl, hk, hp, rfl⟩
            exact ⟨_, ⟨p, k, hk, s, hp, rfl⟩, rfl, rfl⟩
          · rintro ⟨e, ⟨p, k, hk, t, ht, rfl⟩, rfl, rfl⟩
            exact ⟨parts, k, p, rfl, hk, ht, rfl⟩
      | _ =>
          simp only [Option.some.injEq, reduceCtorEq, false_and, exists_false, or_self,
            Value.asStr, Value.asArray, List.not_mem_nil]

theorem collectMessage_msgIdx (m : Value) (i : Nat) : ∀ e ∈ collectMessage i m, e.msgIdx = i := by
  intro e he
  unfold collectMessage at he
  split at he
  · exact absurd he List.not_mem_nil
  · split at he
    · rw [List.mem_singleton] at he
      rw [he]
    · split at he
      · rw [List.mem_filterMap] at he
        rcases he with ⟨q, _, hq⟩
        rcases Option.map_eq_some_iff.mp hq with ⟨t, _, rfl⟩
        rfl
      · exact absurd he List.not_mem_nil

theorem scanned_iff (provider : Provider) (value : Value) (i : Nat) (path : List Value.Step)
    (s : Str) : Scanned provider value i path s ↔ ∃ msgs m,
      value.getArray provider.messagesField = some msgs ∧ msgs[i]? = some m ∧
        ScannedIn m path s := by
  unfold Scanned collectMessageTexts
  cases value.getArray provider.messagesField with
  | none => simp only [List.not_mem_nil, false_and, exists_false, reduceCtorEq]
  | some msgs =>
      simp only [Option.some.injEq, mem_zipIdx_flatMap]
      constructor
      · rintro ⟨e, ⟨k, m, hk, he⟩, rfl, hpath, htext⟩
        rw [collectMessage_msgIdx m k e he]
        exact ⟨msgs, m, rfl, hk, (scannedIn_iff_collect m k path s).mpr ⟨e, he, hpath, htext⟩⟩
      · rintro ⟨_, m, rfl, hk, hin⟩
        rcases (scannedIn_iff_collect m i path s).mp hin with ⟨e, he, hpath, htext⟩
        exact ⟨e, ⟨i, m, hk, he⟩, collectMessage_msgIdx m i e he, hpath, htext⟩

theorem OpenAi.mem_contentParts (m : Value) (path : List Value.Step) (s : Str) :
    ContentPart.text path s ∈ contentParts m ↔ ScannedIn m path s := by
  unfold contentParts ScannedIn
  cases m.get (lit "content") with
  | none => simp only [List.not_mem_nil, reduceCtorEq, false_and, exists_false, or_self]
  | some c =>
      cases c with
      | string t =>
          simp only [List.mem_singleton, ContentPart.text.injEq, Option.some.injEq,
            Value.string.injEq, reduceCtorEq, false_and, exists_false, or_false]
          exact ⟨fun he => ⟨he.2.symm, he.1⟩, fun he => ⟨he.2, he.1.symm⟩⟩
      | array parts =>
          rw [mem_textParts]
          simp only [Option.some.injEq, reduceCtorEq, false_and, Value.array.injEq, false_or]
          constructor
          · rintro ⟨k, p, hk, hp, rfl⟩
            exact ⟨parts, k, p, rfl, hk, hp, rfl⟩
          · rintro ⟨_, k, p, rfl, hk, hp, rfl⟩
            exact ⟨k, p, hk, hp, rfl⟩
      | _ => simp only [List.not_mem_nil, Option.some.injEq, reduceCtorEq, false_and,
          exists_false, or_self]

/-- A block without thinking text and without a tool result only gives the text
    of a `text` block. -/
theorem Anthropic.mem_blockParts_text (J : SerdeJson) (base path : List Value.Step) (b : Value)
    (s : Str)
    (hthink : b.getStr (lit "type") = some (lit "thinking") →
      (b.getStr (lit "thinking")).filter (· ≠ []) = none)
    (hresult : b.getStr (lit "type") = some (lit "tool_result") →
      (toolResultText b).filter (· ≠ []) = none)
    (hmem : ContentPart.text path s ∈ blockParts J base b) :
    textPart b = some s ∧ path = base ++ [.key (lit "text")] := by
  unfold blockParts at hmem
  cases htype : b.getStr (lit "type") with
  | none =>
      rw [htype] at hmem
      exact absurd hmem List.not_mem_nil
  | some t =>
      rw [htype, Option.some.injEq] at hthink hresult
      rw [htype] at hmem
      dsimp only at hmem
      -- The types in the order of the source; only the first gives a text here.
      by_cases ht : t = lit "text"
      · rw [if_pos ht, Option.mem_toList, Option.map_eq_some_iff] at hmem
        rcases hmem with ⟨a, ha, he⟩
        rw [ContentPart.text.injEq] at he
        rcases he with ⟨rfl, rfl⟩
        refine ⟨?_, rfl⟩
        rw [textPart, htype, ht, if_pos rfl]
        exact (Option.filter_eq_some_iff.mp ha).1
      rw [if_neg ht] at hmem
      by_cases ht : t = lit "thinking"
      · rw [if_pos ht, hthink ht] at hmem
        exact absurd hmem List.not_mem_nil
      rw [if_neg ht] at hmem
      by_cases ht : t = lit "tool_use"
      · rw [if_pos ht, List.mem_singleton] at hmem
        exact absurd hmem (by simp only [reduceCtorEq, not_false_eq_true])
      rw [if_neg ht] at hmem
      by_cases ht : t = lit "tool_result"
      · rw [if_pos ht, hresult ht] at hmem
        exact absurd hmem List.not_mem_nil
      rw [if_neg ht] at hmem
      exact absurd hmem List.not_mem_nil

/-- A thinking block with text gives a text at its `thinking` field. -/
theorem Anthropic.blockParts_thinking (J : SerdeJson) (base : List Value.Step) (b : Value) (s : Str)
    (htype : b.getStr (lit "type") = some (lit "thinking"))
    (hs : (b.getStr (lit "thinking")).filter (· ≠ []) = some s) :
    ContentPart.text (base ++ [.key (lit "thinking")]) s ∈ blockParts J base b := by
  unfold blockParts
  rw [htype]
  dsimp only
  rw [if_neg (by decide), if_pos rfl, hs]
  exact List.mem_cons_of_mem _ List.mem_cons_self

/-- A tool result with text gives a text at or below its `content` field. -/
theorem Anthropic.blockParts_toolResult (J : SerdeJson) (base : List Value.Step) (b : Value)
    (r : Str) (htype : b.getStr (lit "type") = some (lit "tool_result"))
    (hr : (toolResultText b).filter (· ≠ []) = some r) :
    ∃ rest s, ContentPart.text (base ++ .key (lit "content") :: rest) s ∈ blockParts J base b := by
  rcases Option.filter_eq_some_iff.mp hr with ⟨htext, hne⟩
  unfold blockParts
  rw [htype]
  dsimp only
  rw [if_neg (by decide), if_neg (by decide), if_neg (by decide), if_pos rfl, hr]
  unfold toolResultText at htext
  cases hc : b.get (lit "content") with
  | none =>
      rw [hc] at htext
      exact absurd htext (by simp only [reduceCtorEq, not_false_eq_true])
  | some c =>
      rw [hc] at htext
      cases c with
      | string s => exact ⟨[], s, List.mem_cons_of_mem _ List.mem_cons_self⟩
      | array blocks =>
          -- the joined text is not empty, so some block has text
          rw [Option.some.injEq] at htext
          have hsome : blocks.filterMap textPart ≠ [] := by
            intro he
            rw [he] at htext
            exact absurd hne (by rw [← htext]; decide)
          rcases List.exists_mem_of_ne_nil _ hsome with ⟨s, hs⟩
          rcases List.mem_filterMap.mp hs with ⟨q, hq, hqs⟩
          rcases List.mem_iff_getElem?.mp hq with ⟨k, hk⟩
          refine ⟨[.idx k, .key (lit "text")], s, List.mem_cons_of_mem _ ?_⟩
          rw [mem_textParts]
          exact ⟨k, q, hk, hqs, by rw [List.append_assoc]; rfl⟩
      | _ => exact absurd htext (by simp only [reduceCtorEq, not_false_eq_true])

/-- Where all texts of an array are scanned, those of a block lie at a block's
    `text` field, for no other place in an array is scanned. -/
theorem Anthropic.path_of_scanned (J : SerdeJson) (m : Value) (blocks : List Value)
    (hblocks : m.get (lit "content") = some (.array blocks)) (k : Nat) (b : Value)
    (hk : blocks[k]? = some b)
    (hall : ∀ path s, ContentPart.text path s ∈ contentParts J m → ScannedIn m path s)
    (path : List Value.Step) (s : Str)
    (hmem : ContentPart.text path s ∈ blockParts J [.key (lit "content"), .idx k] b) :
    ∃ i, path = [.key (lit "content"), .idx i, .key (lit "text")] := by
  have hthis : ContentPart.text path s ∈ contentParts J m := by
    rw [contentParts, hblocks]
    exact (mem_zipIdx_flatMap _ blocks _).mpr ⟨k, b, hk, hmem⟩
  rcases hall path s hthis with ⟨hc, _⟩ | ⟨_, i, _, _, _, _, hpath⟩
  · rw [hblocks, Option.some.injEq] at hc
    exact absurd hc (by simp only [reduceCtorEq, not_false_eq_true])
  · exact ⟨i, hpath⟩

theorem Anthropic.onlyText_of_scanned (J : SerdeJson) (m : Value)
    (hall : ∀ path s, ContentPart.text path s ∈ contentParts J m → ScannedIn m path s) :
    OnlyTextBlocks m := by
  intro blocks hblocks b hb
  rcases List.mem_iff_getElem?.mp hb with ⟨k, hk⟩
  have hin := path_of_scanned J m blocks hblocks k b hk hall
  constructor
  · -- A thinking text would lie at `thinking`.
    intro htype
    cases hs : (b.getStr (lit "thinking")).filter (· ≠ []) with
    | none => rfl
    | some s =>
        rcases hin _ s (blockParts_thinking J _ b s htype hs) with ⟨i, hpath⟩
        simp only [List.cons_append, List.nil_append, List.cons.injEq, Value.Step.key.injEq,
          and_true] at hpath
        exact absurd hpath.2.2 (by decide)
  · -- A tool result would lie at `content`, or below it.
    intro htype
    cases hr : (toolResultText b).filter (· ≠ []) with
    | none => rfl
    | some r =>
        rcases blockParts_toolResult J [.key (lit "content"), .idx k] b r htype hr with
          ⟨rest, s, hmem⟩
        rcases hin _ s hmem with ⟨i, hpath⟩
        simp only [List.cons_append, List.nil_append, List.cons.injEq,
          Value.Step.key.injEq] at hpath
        exact absurd hpath.2.2.1 (by decide)

theorem Anthropic.scanned_of_onlyText (J : SerdeJson) (m : Value) (honly : OnlyTextBlocks m)
    (path : List Value.Step) (s : Str) (hmem : ContentPart.text path s ∈ contentParts J m) :
    ScannedIn m path s := by
  unfold contentParts at hmem
  cases hc : m.get (lit "content") with
  | none =>
      rw [hc] at hmem
      exact absurd hmem List.not_mem_nil
  | some c =>
      rw [hc] at hmem
      cases c with
      | string t =>
          rw [List.mem_singleton, ContentPart.text.injEq] at hmem
          exact Or.inl ⟨by rw [hc, hmem.2], hmem.1⟩
      | array blocks =>
          rcases (mem_zipIdx_flatMap _ blocks _).mp hmem with ⟨k, b, hk, hb⟩
          rcases honly blocks hc b (List.mem_of_getElem? hk) with ⟨hthink, hresult⟩
          rcases mem_blockParts_text J _ path b s hthink hresult hb with ⟨htext, hpath⟩
          exact Or.inr ⟨blocks, k, b, hc, hk, htext, hpath⟩
      | _ => exact absurd hmem List.not_mem_nil

/-- In an Anthropic message every text taken is scanned exactly when no block
    has thinking text or a tool result. -/
theorem Anthropic.scanned_iff_onlyText (J : SerdeJson) (m : Value) :
    (∀ path s, ContentPart.text path s ∈ contentParts J m → ScannedIn m path s) ↔
      OnlyTextBlocks m :=
  ⟨onlyText_of_scanned J m, fun honly path s => scanned_of_onlyText J m honly path s⟩

/-- The texts of a Google element are the `text` fields of its parts. -/
theorem Google.mem_contentParts (m : Value) (path : List Value.Step) (s : Str) :
    ContentPart.text path s ∈ contentParts m ↔
      ∃ parts k p, m.getArray (lit "parts") = some parts ∧ parts[k]? = some p ∧
        p.getStr (lit "text") = some s ∧
        path = [.key (lit "parts"), .idx k, .key (lit "text")] := by
  rw [contentParts, mem_zipIdx_flatMap]
  simp only [Option.mem_toList, Option.map_eq_some_iff, ContentPart.text.injEq]
  cases m.getArray (lit "parts") with
  | none => simp only [Option.getD_none, List.getElem?_nil, reduceCtorEq, false_and,
      exists_false]
  | some parts =>
      simp only [Option.getD_some, Option.some.injEq]
      constructor
      · rintro ⟨k, p, hk, a, ha, rfl, rfl⟩
        exact ⟨parts, k, p, rfl, hk, ha, rfl⟩
      · rintro ⟨_, k, p, rfl, hk, ha, rfl⟩
        exact ⟨k, p, hk, s, ha, rfl, rfl⟩

/-- In a Google element no text taken is scanned, so all are exactly when there
    is none. -/
theorem Google.scanned_iff_noPartTexts (m : Value) :
    (∀ path s, ContentPart.text path s ∈ contentParts m → ScannedIn m path s) ↔
      NoPartTexts m := by
  constructor
  · intro hall parts hparts p hp
    rcases List.mem_iff_getElem?.mp hp with ⟨k, hk⟩
    cases hs : p.getStr (lit "text") with
    | none => rfl
    | some s =>
        -- What is scanned lies under `content`, this text under `parts`.
        rcases hall _ s ((mem_contentParts m _ s).mpr ⟨parts, k, p, hparts, hk, hs, rfl⟩) with
          ⟨_, hpath⟩ | ⟨_, _, _, _, _, _, hpath⟩
        · exact absurd hpath (by simp only [List.cons.injEq, reduceCtorEq, and_false,
            not_false_eq_true])
        · simp only [List.cons.injEq, Value.Step.key.injEq] at hpath
          exact absurd hpath.1 (by decide)
  · intro hno path s hin
    rcases (mem_contentParts m path s).mp hin with ⟨parts, k, p, hparts, hk, hs, _⟩
    rw [hno parts hparts p (List.mem_of_getElem? hk)] at hs
    exact absurd hs (by simp only [reduceCtorEq, not_false_eq_true])

/-- The condition on one message under which nothing is missed. -/
def FullyScanned : Provider → Value → Prop
  | .anthropic, m => OnlyTextBlocks m
  | .google, m => NoPartTexts m
  | _, _ => True

/-- Of a body the parser accepts, the parsed contents are made up of the parts,
    and every text among them is scanned exactly when the messages meet their
    provider's condition: always for OpenAI, without thinking text and tool
    results for Anthropic, without part texts for Google. -/
theorem takenText_scanned_iff (J : SerdeJson) (provider : Provider) (body : List UInt8)
    (value : Value) (req : ParsedRequest) (hval : J.fromSlice body = some value)
    (hparse : parseRequest J provider body = some req) :
    (∃ system : List Str, req.messages.map Message.content = system ++
        ((value.getArray provider.messagesField).getD []).map fun m =>
          (messageParts J provider m).flatMap ContentPart.render) ∧
      ((∀ i path s, TakenText J provider value i path s → Scanned provider value i path s) ↔
        ∀ msgs, value.getArray provider.messagesField = some msgs →
          ∀ m ∈ msgs, FullyScanned provider m) := by
  refine ⟨parseRequest_render J provider body value req hval hparse, ?_⟩
  -- the question is about each message alone
  have hmsg : (∀ i path s, TakenText J provider value i path s →
      Scanned provider value i path s) ↔
      ∀ msgs, value.getArray provider.messagesField = some msgs → ∀ m ∈ msgs,
        ∀ path s, ContentPart.text path s ∈ messageParts J provider m → ScannedIn m path s := by
    constructor
    · intro hall msgs hmsgs m hm path s hin
      rcases List.mem_iff_getElem?.mp hm with ⟨i, hi⟩
      rcases (scanned_iff provider value i path s).mp (hall i path s ⟨msgs, m, hmsgs, hi, hin⟩)
        with ⟨msgs', m', hmsgs', hi', hs⟩
      rw [hmsgs, Option.some.injEq] at hmsgs'
      subst hmsgs'
      rw [hi, Option.some.injEq] at hi'
      rw [hi']
      exact hs
    · rintro hall i path s ⟨msgs, m, hmsgs, hi, hin⟩
      exact (scanned_iff provider value i path s).mpr
        ⟨msgs, m, hmsgs, hi, hall msgs hmsgs m (List.mem_of_getElem? hi) path s hin⟩
  have hone : ∀ m, (∀ path s, ContentPart.text path s ∈ messageParts J provider m →
      ScannedIn m path s) ↔ FullyScanned provider m := by
    intro m
    cases provider with
    | anthropic => exact Anthropic.scanned_iff_onlyText J m
    | openAi => exact ⟨fun _ => trivial, fun _ path s => (OpenAi.mem_contentParts m path s).mp⟩
    | google => exact Google.scanned_iff_noPartTexts m
    | unknown => exact ⟨fun _ => trivial, fun _ path s => (OpenAi.mem_contentParts m path s).mp⟩
  rw [hmsg]
  exact ⟨fun hall msgs hmsgs m hm => (hone m).mp (hall msgs hmsgs m hm),
    fun hall msgs hmsgs m hm => (hone m).mpr (hall msgs hmsgs m hm)⟩

/-- An Anthropic request with one plain message. -/
def plainRequest : Value :=
  .object [(lit "messages", .array [.object [(lit "content", .string (lit "hi"))]]),
    (lit "model", .string (lit "m"))]

/-- The text of a plain Anthropic message is scanned. -/
theorem takenText_scanned_plain :
    ∃ req, parseRequest (SerdeJson.ofValues [plainRequest]) .anthropic plainRequest.compact =
        some req ∧
      ∀ i path s, TakenText (SerdeJson.ofValues [plainRequest]) .anthropic plainRequest i path s →
        Scanned .anthropic plainRequest i path s := by
  refine ⟨_, rfl, ?_⟩
  refine (takenText_scanned_iff (SerdeJson.ofValues [plainRequest]) .anthropic
    plainRequest.compact plainRequest _ rfl rfl).2.mpr ?_
  intro msgs hmsgs m hm blocks hblocks
  rcases Option.some.inj hmsgs with rfl
  rcases List.mem_singleton.mp hm with rfl
  exact absurd (Option.some.inj hblocks) (by simp only [reduceCtorEq, not_false_eq_true])

/-- A Google request with one text part. -/
def googleRequest : Value :=
  .object [(lit "contents", .array [.object [(lit "parts",
    .array [.object [(lit "text", .string (lit "jane@acme.com"))]])]])]

/-- The text of a Google request is parsed and stored, and never scanned. -/
theorem takenText_google_unscanned :
    (∃ req, parseRequest (SerdeJson.ofValues [googleRequest]) .google googleRequest.compact =
      some req ∧ req.messages.map Message.content = [lit "jane@acme.com"]) ∧
    collectMessageTexts googleRequest (Provider.messagesField .google) = [] ∧
    ¬ ∀ i path s, TakenText (SerdeJson.ofValues [googleRequest]) .google googleRequest i path s →
      Scanned .google googleRequest i path s := by
  refine ⟨⟨_, rfl, rfl⟩, rfl, ?_⟩
  intro hall
  rcases hall 0 [.key (lit "parts"), .idx 0, .key (lit "text")] (lit "jane@acme.com")
    ⟨_, _, rfl, rfl, List.mem_cons_self⟩ with ⟨e, he, _⟩
  exact absurd he List.not_mem_nil

end PrivacyClaw
