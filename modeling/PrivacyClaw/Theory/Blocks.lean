import PrivacyClaw.Theory.Declared

/-!
# Text under an Index

An Anthropic stream has content blocks and an OpenAI stream has choices, and each
text carries the index of its own. There is one replacement buffer for all of
them. What it holds back comes out with the next text, under that text's index,
or in an event of its own, which always says index 0; and of an OpenAI event only
the first choice is looked at.

A text stays under its index as long as nothing is held back where the index
changes, only text of index 0 is held back where the buffer is flushed, and no
other choice has text (`Apart`). The buffer then does for each index what a
buffer of its own would do.

## Main definitions

* `indexedTexts`: The texts of an event with their indices, as a client reads them.
* `Sole`: Only the text the proxy looks at is there.
* `incoming`, `Apart`: Nothing that is held back crosses over.
* `SerdeJson.Exact`: What is printed is read again.
* `ReplacementBuffer.own`: The buffer that stands for an index.
* `response`: What the client gets of a response.

## Theorems

* `forwardEvent_indexed`: The restored text has the index of the text.
* `finish_own_delta`, `finish_own_flush`: What a text and a flush do for each index.
* `processEvents_apart`: The texts of a stream under each index.
* `text_under_index`: The same for what the client gets.
-/

namespace PrivacyClaw

/-- The number at a path, as it is written. -/
def numberAt (v : Value) (path : List Str) : Option Str :=
  (v.pointer path).bind fun w =>
    match w with
    | .number lexeme => some lexeme
    | _ => none

/-- The text of an Anthropic event, with the index of its block. -/
def blockTexts (w : Value) : List (Option Str × Str) :=
  if isTextDelta .anthropic w then
    (strAt w [lit "delta", lit "text"]).toList.map fun text => (numberAt w [lit "index"], text)
  else []

/-- The texts of an OpenAI event, each with the index of its choice. -/
def choiceTexts (w : Value) : List (Option Str × Str) :=
  ((w.getArray (lit "choices")).getD []).filterMap fun choice =>
    (strAt choice [lit "delta", lit "content"]).map fun text =>
      (numberAt choice [lit "index"], text)

/-- The texts of an event with their indices. -/
def indexedTexts (J : SerdeJson) (provider : Provider) (e : SseEvent) : List (Option Str × Str) :=
  match J.fromStr e.data with
  | none => []
  | some w =>
    match provider with
    | .anthropic => blockTexts w
    | .openAi => choiceTexts w
    | .google | .unknown => []

/-- The index that goes with the text the proxy looks at. -/
def indexPointer : Provider → List Str
  | .openAi => [lit "choices", lit "0", lit "index"]
  | .anthropic | .google | .unknown => [lit "index"]

/-- The index of an event. -/
def indexOf (J : SerdeJson) (provider : Provider) (e : SseEvent) : Option Str :=
  (J.fromStr e.data).bind fun w => numberAt w (indexPointer provider)

/-- The event has the text the proxy looks at and no other. -/
def Sole (J : SerdeJson) (provider : Provider) (e : SseEvent) : Prop :=
  indexedTexts J provider e = (extractTextDelta J provider e.data).toList.map fun text =>
    (indexOf J provider e, text)

/-- The texts under an index. -/
def under (i : Str) (pieces : List (Option Str × Str)) : List Str :=
  pieces.filterMap fun p => if p.1 = some i then some p.2 else none

/-- The texts of events, with their indices. -/
def indexedDeltas (J : SerdeJson) (provider : Provider) (es : List SseEvent) :
    List (Option Str × Str) :=
  es.flatMap (indexedTexts J provider)

/-- The texts of the events among the writes. -/
def piecesOf (J : SerdeJson) (provider : Provider) (writes : List ClientWrite) :
    List (Option Str × Str) :=
  indexedDeltas J provider (writes.filterMap ClientWrite.sent)

/-- The text of an event that goes into the buffer. -/
def incoming (J : SerdeJson) (provider : Provider) (e : SseEvent) : Str :=
  (extractTextDelta J provider e.data).getD []

/-- Nothing that is held back gets under another index: `owner` is the index of the
    text that went into the buffer last. At the end of a block, text of index 0 may
    be held back if no more of it follows. -/
def Apart (env : U2cEnv) (v : PiiVault) :
    Option Str → ReplacementBuffer → List SseEvent → Prop
  | owner, b, [] => b.buffer = [] ∨ owner = some (lit "0")
  | owner, b, e :: es =>
    if isBlockStop env.provider e then
      (b.buffer = [] ∨ owner = some (lit "0") ∧
        under (lit "0") (indexedDeltas env.json env.provider es) = []) ∧
      Apart env v owner (b.flushRemaining v).2 es
    -- An empty text does not go into the buffer.
    else if incoming env.json env.provider e = [] then
      Sole env.json env.provider e ∧ Apart env v owner b es
    else
      Sole env.json env.provider e ∧
      (b.buffer = [] ∨ owner = indexOf env.json env.provider e) ∧
      Apart env v (indexOf env.json env.provider e)
        (b.processDelta v (incoming env.json env.provider e)).2 es

instance (J : SerdeJson) (provider : Provider) (e : SseEvent) : Decidable (Sole J provider e) :=
  inferInstanceAs (Decidable (_ = _))

instance Apart.decidable (env : U2cEnv) (v : PiiVault) : ∀ (owner : Option Str)
    (b : ReplacementBuffer) (es : List SseEvent), Decidable (Apart env v owner b es)
  | owner, b, [] => inferInstanceAs (Decidable (b.buffer = [] ∨ owner = some (lit "0")))
  | owner, b, e :: es =>
    if hstop : isBlockStop env.provider e then
      have := Apart.decidable env v owner (b.flushRemaining v).2 es
      decidable_of_iff ((b.buffer = [] ∨ owner = some (lit "0") ∧
        under (lit "0") (indexedDeltas env.json env.provider es) = []) ∧
        Apart env v owner (b.flushRemaining v).2 es) (by rw [Apart, if_pos hstop])
    else if hempty : incoming env.json env.provider e = [] then
      have := Apart.decidable env v owner b es
      decidable_of_iff (Sole env.json env.provider e ∧ Apart env v owner b es)
        (by rw [Apart, if_neg hstop, if_pos hempty])
    else
      have := Apart.decidable env v (indexOf env.json env.provider e)
        (b.processDelta v (incoming env.json env.provider e)).2 es
      decidable_of_iff (Sole env.json env.provider e ∧
        (b.buffer = [] ∨ owner = indexOf env.json env.provider e) ∧
        Apart env v (indexOf env.json env.provider e)
          (b.processDelta v (incoming env.json env.provider e)).2 es)
        (by rw [Apart, if_neg hstop, if_neg hempty])

/-- The values that the proxy prints are read again, and `[DONE]` is not JSON. -/
structure SerdeJson.Exact (J : SerdeJson) (provider : Provider) : Prop where
  done : ∀ data, trim data = lit "[DONE]" → J.fromStr data = none
  edited : ∀ data w path text, J.fromStr data = some w → textDeltaPointer provider = some path →
    J.fromStr (J.toStr (Value.setPointer (.string text) path w)) =
      some (Value.setPointer (.string text) path w)
  trailing : ∀ text w, trailingData text provider = some w → J.fromStr (J.toStr w) = some w

theorem SerdeJson.Exact.roundTrip {J : SerdeJson} {provider : Provider} (hJ : J.Exact provider) :
    J.RoundTrip provider where
  done := hJ.done
  edited data w path text hw hpath := ⟨_, hJ.edited data w path text hw hpath, fun _ => rfl⟩
  trailing text w hw := ⟨w, hJ.trailing text w hw, fun _ => rfl⟩

section Pieces

theorem under_append (i : Str) (xs ys : List (Option Str × Str)) :
    under i (xs ++ ys) = under i xs ++ under i ys :=
  List.filterMap_append

theorem under_singleton (i s : Str) (index : Option Str) :
    under i [(index, s)] = if index = some i then [s] else [] := by
  by_cases hi : index = some i
  · simp only [under, hi, if_true, List.filterMap_cons, List.filterMap_nil]
  · simp only [under, hi, if_false, List.filterMap_cons, List.filterMap_nil]

theorem piecesOf_append (J : SerdeJson) (provider : Provider) (xs ys : List ClientWrite) :
    piecesOf J provider (xs ++ ys) = piecesOf J provider xs ++ piecesOf J provider ys := by
  rw [piecesOf, List.filterMap_append, indexedDeltas, List.flatMap_append]
  rfl

theorem piecesOf_event (J : SerdeJson) (provider : Provider) (e : SseEvent) :
    piecesOf J provider [.event e] = indexedTexts J provider e :=
  List.flatMap_singleton _ _

/-- The number beside a field that is set. -/
theorem numberAt_setPointer (new : Value) (key other : Str) (path rest : List Str) (v : Value)
    (hne : other ≠ key) (hk : Value.parseIndex key = none) :
    numberAt (Value.setPointer new (key :: path) v) (other :: rest) =
      numberAt v (other :: rest) := by
  rw [numberAt, Value.pointer_setPointer_field new key other path rest v hne hk, numberAt]

/-- A new text of an Anthropic event has the block's index. -/
theorem blockTexts_setPointer (new text : Str) (w : Value)
    (hdelta : isTextDelta .anthropic w = true)
    (htext : strAt w [lit "delta", lit "text"] = some text) :
    blockTexts (Value.setPointer (.string new) [lit "delta", lit "text"] w) =
      [(numberAt w [lit "index"], new)] := by
  rcases Option.bind_eq_some_iff.mp htext with ⟨x, hx, _⟩
  have hnew : strAt (Value.setPointer (.string new) [lit "delta", lit "text"] w)
      [lit "delta", lit "text"] = some new := by
    rw [strAt, Value.pointer_setPointer _ _ w x hx]
    rfl
  have hkind : isTextDelta .anthropic
      (Value.setPointer (.string new) [lit "delta", lit "text"] w) = isTextDelta .anthropic w :=
    isTextDelta_setPointer _ w _ rfl
  rw [blockTexts, hkind, if_pos hdelta, hnew,
    numberAt_setPointer _ _ _ _ _ _ (by decide) (by decide)]
  rfl

/-- A new text of the first choice has the choice's index, and is the only text if
    the old one was. -/
theorem choiceTexts_setPointer (new text : Str) (w : Value)
    (htext : strAt w [lit "choices", lit "0", lit "delta", lit "content"] = some text)
    (hsole : choiceTexts w = [(numberAt w [lit "choices", lit "0", lit "index"], text)]) :
    choiceTexts (Value.setPointer (.string new)
        [lit "choices", lit "0", lit "delta", lit "content"] w) =
      [(numberAt w [lit "choices", lit "0", lit "index"], new)] := by
  have hzero : Value.parseIndex (lit "0") = some 0 := by decide
  rcases Option.bind_eq_some_iff.mp htext with ⟨x, hx, hstr⟩
  cases w with
  | object fields =>
    rcases Option.bind_eq_some_iff.mp hx with ⟨choices, hchoices, hpath⟩
    cases choices with
    | array items =>
      rw [Value.pointer, hzero, Option.bind_some] at hpath
      rcases Option.bind_eq_some_iff.mp hpath with ⟨first, hfirst, hcontent⟩
      cases items with
      | nil => exact absurd hfirst.symm (Option.some_ne_none _)
      | cons choice rest =>
        rw [List.getElem?_cons_zero, Option.some.injEq] at hfirst
        subst hfirst
        have hindex : numberAt (.object fields) [lit "choices", lit "0", lit "index"] =
            numberAt choice [lit "index"] := by
          simp only [numberAt, Value.pointer, hchoices, hzero, Option.bind_some,
            List.getElem?_cons_zero]
        have hold : strAt choice [lit "delta", lit "content"] = some text := by
          rw [strAt, hcontent]
          exact hstr
        have hnew : strAt (Value.setPointer (.string new) [lit "delta", lit "content"] choice)
            [lit "delta", lit "content"] = some new := by
          rw [strAt, Value.pointer_setPointer _ _ choice x hcontent]
          rfl
        have hset : (Value.setPointer (.string new)
            [lit "choices", lit "0", lit "delta", lit "content"] (.object fields)).getArray
              (lit "choices") =
            some (Value.setPointer (.string new) [lit "delta", lit "content"] choice :: rest) := by
          simp only [Value.setPointer, Value.getArray, Value.get, Value.lookupField_modifyField,
            hchoices, Option.map_some, Option.bind_some, Value.asArray, hzero]
          rfl
        have hget : (Value.object fields).getArray (lit "choices") = some (choice :: rest) := by
          rw [Value.getArray, Value.get, hchoices]
          rfl
        rw [choiceTexts, hget, Option.getD_some, List.filterMap_cons, hold, hindex] at hsole
        rw [choiceTexts, hset, Option.getD_some, List.filterMap_cons, hnew, hindex,
          numberAt_setPointer _ _ _ _ _ _ (by decide) (by decide)]
        have hrest := (List.cons.inj hsole).2
        rw [Option.map_some]
        dsimp only
        rw [hrest]
    | object inner =>
      -- Choices that are no array are no choices.
      have hget : (Value.object fields).getArray (lit "choices") = none := by
        rw [Value.getArray, Value.get, hchoices]
        rfl
      rw [choiceTexts, hget] at hsole
      exact absurd hsole (List.cons_ne_nil _ _).symm
    | _ => exact absurd hpath.symm (Option.some_ne_none _)
  | array items =>
    have hnone : Value.parseIndex (lit "choices") = none := by decide
    rw [Value.pointer, hnone] at hx
    exact absurd hx.symm (Option.some_ne_none _)
  | _ => exact absurd hx.symm (Option.some_ne_none _)

end Pieces

section Events

variable {env : U2cEnv} {v : PiiVault} (hJ : env.json.Exact env.provider)
  (hp : env.provider = .anthropic ∨ env.provider = .openAi)

/-- An Anthropic event has at most the text the proxy looks at. -/
theorem sole_anthropic (J : SerdeJson) (e : SseEvent) : Sole J .anthropic e := by
  unfold Sole indexedTexts indexOf
  cases hw : J.fromStr e.data with
  | none => simp only [extractTextDelta, hw, Option.bind_eq_bind, Option.bind_none,
      Option.toList_none, List.map_nil]
  | some w =>
    dsimp only
    rw [blockTexts]
    by_cases hdelta : isTextDelta .anthropic w = true
    · simp only [extractTextDelta, hw, hdelta, if_true, textDeltaPointer, indexPointer,
        Option.bind_eq_bind, Option.bind_some]
    · simp only [extractTextDelta, hw, hdelta, Bool.false_eq_true, if_false, Option.bind_eq_bind,
        Option.bind_some, Option.toList_none, List.map_nil]

include hJ hp

/-- The text that an event is given has the index of the text that was there. -/
theorem indexedTexts_replaceTextDelta (e : SseEvent) (text new : Str)
    (htext : extractTextDelta env.json env.provider e.data = some text)
    (hsole : Sole env.json env.provider e) :
    indexedTexts env.json env.provider
        ⟨e.eventType, replaceTextDelta env.json env.provider e.data new⟩ =
      [(indexOf env.json env.provider e, new)] := by
  rcases extractTextDelta_eq_some.mp htext with ⟨w, path, hw, hdelta, hpath, hstr⟩
  have hread : env.json.fromStr (replaceTextDelta env.json env.provider e.data new) =
      some (Value.setPointer (.string new) path w) := by
    simp only [replaceTextDelta, hw, hpath]
    exact hJ.edited e.data w path new hw hpath
  simp only [Sole, htext, indexedTexts, indexOf, hw, hread, Option.bind_some, Option.toList_some,
    List.map_cons, List.map_nil] at hsole ⊢
  rcases hp with hp | hp <;> rw [hp] at hdelta hpath hsole ⊢ <;>
    rw [textDeltaPointer, Option.some.injEq] at hpath <;> subst hpath
  · exact blockTexts_setPointer new text w hdelta hstr
  · exact choiceTexts_setPointer new text w hstr hsole

/-- What an event that is forwarded gives, under each index. -/
theorem forwardEvent_indexed (b : ReplacementBuffer) (e : SseEvent)
    (hsole : Sole env.json env.provider e) :
    (forwardEvent env.json env.provider v (some b) e).2 =
        some (stepDelta v b (extractTextDelta env.json env.provider e.data)).2 ∧
      piecesOf env.json env.provider (forwardEvent env.json env.provider v (some b) e).1 =
        (extractTextDelta env.json env.provider e.data).toList.map fun text =>
          (indexOf env.json env.provider e, (stepDelta v b (some text)).1) := by
  cases htext : extractTextDelta env.json env.provider e.data with
  | none =>
    have hnone := hsole
    rw [Sole, htext] at hnone
    simp only [forwardEvent, htext, stepDelta, piecesOf_event, hnone, Option.toList_none,
      List.map_nil, and_self]
  | some text =>
    simp only [forwardEvent, htext, stepDelta, piecesOf_event, Option.toList_some, List.map_cons,
      List.map_nil, indexedTexts_replaceTextDelta hJ hp e text _ htext hsole, and_self]

/-- The event for held-back text says index 0. -/
theorem flush_indexed (b : ReplacementBuffer) (i : Str) :
    (under i (piecesOf env.json env.provider
        (flushRepBufRemainingAsChunk env.json env.provider v (some b)).1)).flatten =
      if i = lit "0" then (b.flushRemaining v).1 else [] := by
  have htrailing : ∃ w, trailingData (b.flushRemaining v).1 env.provider = some w := by
    rcases hp with hp | hp <;> rw [hp] <;> exact ⟨_, rfl⟩
  rcases htrailing with ⟨w, hw⟩
  have hread := hJ.trailing _ w hw
  have htexts : indexedTexts env.json env.provider
      ⟨some (lit "content_block_delta"), env.json.toStr w⟩ =
        [(some (lit "0"), (b.flushRemaining v).1)] := by
    simp only [indexedTexts, hread]
    rcases hp with hp | hp <;> rw [hp] at hw ⊢ <;> cases hw <;> rfl
  simp only [flushRepBufRemainingAsChunk, makeTrailingTextEvent]
  -- Without text no event is made.
  cases hrem : (b.flushRemaining v).1 with
  | nil =>
    simp only [List.isEmpty_nil, if_true, Option.map_none, Option.toList_none, ite_self]
    rfl
  | cons c rest =>
    rw [hrem] at hw htexts
    simp only [List.isEmpty_cons, Bool.false_eq_true, if_false, hw, Option.map_some,
      Option.toList_some, piecesOf_event, htexts, under, List.filterMap_cons, List.filterMap_nil,
      Option.some.injEq, eq_comm (a := lit "0")]
    by_cases hi : i = lit "0"
    · simp only [hi, if_true, List.flatten_cons, List.flatten_nil, List.append_nil]
    · simp only [hi, if_false, List.flatten_nil]

end Events

namespace ReplacementBuffer

variable {v : PiiVault}

theorem finish_cons (b : ReplacementBuffer) (d : Str) (ds : List Str) :
    finish v b (d :: ds) = (b.processDelta v d).1 ++ finish v (b.processDelta v d).2 ds := by
  simp only [finish, processDeltas, List.append_assoc]

theorem finish_nil_cons (b : ReplacementBuffer) (ds : List Str) :
    finish v b ([] :: ds) = finish v b ds := by
  rw [finish_cons, processDelta_nil, List.nil_append]

/-- A buffer that holds nothing is as good as a new one. -/
theorem finish_empty (b : ReplacementBuffer) (hb : v.isEmpty = false → b.Fresh v)
    (hempty : b.buffer = []) (ds : List Str) : finish v b ds = finish v new ds :=
  finish_alike ds ⟨hempty, fun hv => ⟨hb hv, fresh_new v hv⟩⟩

/-- The buffer that stands for the index `i`: the shared one for the index it holds
    text of, and a new one for the others. -/
def own (owner : Option Str) (b : ReplacementBuffer) (i : Str) : ReplacementBuffer :=
  if owner = some i then b else new

theorem finish_own_empty (owner : Option Str) (b : ReplacementBuffer) (i : Str)
    (hb : v.isEmpty = false → b.Fresh v) (hempty : b.buffer = []) (ds : List Str) :
    finish v (own owner b i) ds = finish v new ds := by
  unfold own
  split
  · exact finish_empty b hb hempty ds
  · rfl

/-- A text goes into the shared buffer: its index gets what the buffer gives, and
    for the others nothing changes. -/
theorem finish_own_delta (owner index : Option Str) (b : ReplacementBuffer) (i d : Str)
    (hb : v.isEmpty = false → b.Fresh v) (hclear : b.buffer = [] ∨ owner = index)
    (ds : List Str) :
    finish v (own owner b i) (if index = some i then d :: ds else ds) =
      (if index = some i then (b.processDelta v d).1 else []) ++
        finish v (own index (b.processDelta v d).2 i) ds := by
  by_cases hi : index = some i
  · rw [if_pos hi, if_pos hi]
    have hown : finish v (own owner b i) (d :: ds) = finish v b (d :: ds) := by
      unfold own
      split
      · rfl
      · next hne =>
          rcases hclear with hempty | heq
          · exact (finish_empty b hb hempty _).symm
          · exact absurd (heq.trans hi) hne
    rw [hown, finish_cons, own, if_pos hi]
  · rw [if_neg hi, if_neg hi, List.nil_append]
    have hother : finish v (own index (b.processDelta v d).2 i) ds = finish v new ds := by
      rw [own, if_neg hi]
    rw [hother]
    -- The index `i` has no text in the buffer, before the step and after it.
    rcases hclear with hempty | heq
    · exact finish_own_empty owner b i hb hempty ds
    · rw [own, if_neg (by rw [heq]; exact hi)]

theorem flushRemaining_fresh (b : ReplacementBuffer) (hb : v.isEmpty = false → b.Fresh v) :
    v.isEmpty = false → (b.flushRemaining v).2.Fresh v := by
  unfold flushRemaining
  split <;> exact hb

theorem flushRemaining_empty (b : ReplacementBuffer) : (b.flushRemaining v).2.buffer = [] := by
  unfold flushRemaining
  split
  · next hempty => exact List.isEmpty_iff.mp hempty
  · rfl

/-- A flush between two texts: the index whose text is held back has no more of it,
    and for the others nothing changes. -/
theorem finish_own_flush (owner : Option Str) (b : ReplacementBuffer) (i : Str)
    (hb : v.isEmpty = false → b.Fresh v) (ds : List Str)
    (hclear : b.buffer = [] ∨ owner = some (lit "0") ∧ (i = lit "0" → ds = [])) :
    finish v (own owner b i) ds = (if i = lit "0" then (b.flushRemaining v).1 else []) ++
      finish v (own owner (b.flushRemaining v).2 i) ds := by
  have hafter := finish_own_empty owner (b.flushRemaining v).2 i (flushRemaining_fresh b hb)
    (flushRemaining_empty b) ds
  rw [hafter]
  rcases hclear with hempty | ⟨rfl, hlast⟩
  · have hnone : (b.flushRemaining v).1 = [] := by
      rw [flushRemaining, hempty]
      rfl
    rw [finish_own_empty owner b i hb hempty, hnone, ite_self, List.nil_append]
  · by_cases hi : i = lit "0"
    · rw [hlast hi, hi, own, if_pos rfl, if_pos rfl]
      have hnew : finish v new [] = [] := rfl
      rw [hnew, List.append_nil]
      rfl
    · rw [own, if_neg (fun h => hi (Option.some.inj h).symm), if_neg hi, List.nil_append]

end ReplacementBuffer

section Run

variable {env : U2cEnv} {v : PiiVault} (hJ : env.json.Exact env.provider)
  (hp : env.provider = .anthropic ∨ env.provider = .openAi)
include hJ hp

open ReplacementBuffer (own finish_own_delta finish_own_flush flushRemaining_fresh)

variable (env v) in
/-- Under each index the events come out as from a buffer of their own, up to what
    the shared one still holds. -/
def ComesApart (owner : Option Str) (b : ReplacementBuffer) (es : List SseEvent) : Prop :=
  ∃ b', (processEvents env.json env.provider v es (some b)).2.1 = some b' ∧
    ∀ i, (under i (piecesOf env.json env.provider
        (processEvents env.json env.provider v es (some b)).1)).flatten ++
          (if i = lit "0" then (b'.flushRemaining v).1 else []) =
      ReplacementBuffer.finish v (own owner b i)
        (under i (indexedDeltas env.json env.provider es))

omit hJ hp in
theorem indexedDeltas_cons (e : SseEvent) (es : List SseEvent) (i : Str) :
    under i (indexedDeltas env.json env.provider (e :: es)) =
      under i (indexedTexts env.json env.provider e) ++
        under i (indexedDeltas env.json env.provider es) :=
  under_append i _ _

omit hJ hp in
/-- Behind the last event, what is held back is flushed. -/
theorem comesApart_nil (owner : Option Str) (b : ReplacementBuffer)
    (hfresh : v.isEmpty = false → b.Fresh v)
    (hclear : b.buffer = [] ∨ owner = some (lit "0")) : ComesApart env v owner b [] := by
  refine ⟨b, rfl, fun i => ?_⟩
  have hend := finish_own_flush owner b i hfresh [] (hclear.imp_right fun h => ⟨h, fun _ => rfl⟩)
  have hnone : ∀ c : ReplacementBuffer, c.buffer = [] → ReplacementBuffer.finish v c [] = [] := by
    intro c hc
    simp only [ReplacementBuffer.finish, ReplacementBuffer.processDeltas,
      ReplacementBuffer.flushRemaining, hc, List.isEmpty_nil, if_true, List.append_nil]
  have hrest : ReplacementBuffer.finish v (own owner (b.flushRemaining v).2 i) [] = [] := by
    refine hnone _ ?_
    unfold own
    split
    · exact ReplacementBuffer.flushRemaining_empty b
    · rfl
  rw [hrest, List.append_nil] at hend
  exact hend.symm

/-- The end of a block: what is held back comes out under index 0. -/
theorem comesApart_blockStop (e : SseEvent) (es : List SseEvent) (owner : Option Str)
    (b : ReplacementBuffer) (he : endsResponse env e = false)
    (hstop : isBlockStop env.provider e = true)
    (hnone : extractTextDelta env.json env.provider e.data = none)
    (hfresh : v.isEmpty = false → b.Fresh v)
    (hclear : b.buffer = [] ∨ owner = some (lit "0") ∧
      under (lit "0") (indexedDeltas env.json env.provider es) = [])
    (hrest : ComesApart env v owner (b.flushRemaining v).2 es) :
    ComesApart env v owner b (e :: es) := by
  -- The two flushes of one event: the text that is held, then the event itself.
  have hsole : Sole env.json env.provider e := by
    have hprov : env.provider = .anthropic := by
      rw [isBlockStop, Bool.and_eq_true, decide_eq_true_eq] at hstop
      exact hstop.1
    rw [hprov]
    exact sole_anthropic env.json e
  have hquiet := hsole
  rw [Sole, hnone, Option.toList_none, List.map_nil] at hquiet
  rcases forwardEvent_indexed (v := v) hJ hp (b.flushRemaining v).2 e hsole with ⟨hbuf, hpieces⟩
  rw [hnone] at hbuf hpieces
  rcases hrest with ⟨b', hb', htexts⟩
  have hflush : (flushRepBufRemainingAsChunk env.json env.provider v (some b)).2 =
      some (b.flushRemaining v).2 := rfl
  rw [ComesApart, processEvents_cons _ _ _ he, processEvent_blockStop _ _ he hstop]
  simp only [hflush, hbuf, stepDelta]
  refine ⟨b', hb', fun i => ?_⟩
  have hheld := flush_indexed (v := v) hJ hp b i
  simp only [piecesOf_append, under_append, List.flatten_append, hheld, hpieces,
    Option.toList_none, List.map_nil, List.append_assoc]
  rw [htexts i, indexedDeltas_cons e es i, hquiet]
  refine (finish_own_flush owner b i hfresh _ (hclear.imp_right fun h => ⟨h.1, ?_⟩)).symm
  rintro rfl
  exact h.2

/-- An event without text, or with an empty one, leaves the buffer as it is. -/
theorem comesApart_silent (e : SseEvent) (es : List SseEvent) (owner : Option Str)
    (b : ReplacementBuffer) (he : endsResponse env e = false)
    (hstop : isBlockStop env.provider e = false) (hsole : Sole env.json env.provider e)
    (hin : incoming env.json env.provider e = []) (hrest : ComesApart env v owner b es) :
    ComesApart env v owner b (e :: es) := by
  rcases forwardEvent_indexed (v := v) hJ hp b e hsole with ⟨hbuf, hpieces⟩
  rw [Sole] at hsole
  rcases hrest with ⟨b', hb', htexts⟩
  rw [ComesApart, processEvents_cons _ _ _ he, processEvent_forward _ _ he hstop]
  cases htext : extractTextDelta env.json env.provider e.data with
  | none =>
    rw [htext] at hbuf hpieces hsole
    simp only [hbuf, stepDelta, piecesOf_append, hpieces, Option.toList_none, List.map_nil,
      List.nil_append]
    refine ⟨b', hb', fun i => ?_⟩
    rw [htexts i, indexedDeltas_cons e es i, hsole]
    rfl
  | some text =>
    rw [incoming, htext, Option.getD_some] at hin
    subst hin
    rw [htext] at hbuf hpieces hsole
    simp only [hbuf, stepDelta, ReplacementBuffer.processDelta_nil, piecesOf_append, hpieces,
      Option.toList_some, List.map_cons, List.map_nil, under_append, under_singleton]
    refine ⟨b', hb', fun i => ?_⟩
    rw [indexedDeltas_cons e es i, hsole, Option.toList_some, List.map_cons, List.map_nil,
      under_singleton]
    -- the empty text adds nothing, under its index or under another
    by_cases hi : indexOf env.json env.provider e = some i
    · simp only [hi, if_true, List.cons_append, List.nil_append, List.flatten_cons,
        ReplacementBuffer.finish_nil_cons]
      exact htexts i
    · simp only [hi, if_false, List.nil_append]
      exact htexts i

/-- A text goes into the buffer, which holds nothing of another index. -/
theorem comesApart_text (e : SseEvent) (es : List SseEvent) (owner : Option Str)
    (b : ReplacementBuffer) (text : Str) (he : endsResponse env e = false)
    (hstop : isBlockStop env.provider e = false) (hsole : Sole env.json env.provider e)
    (htext : extractTextDelta env.json env.provider e.data = some text)
    (hfresh : v.isEmpty = false → b.Fresh v)
    (hclear : b.buffer = [] ∨ owner = indexOf env.json env.provider e)
    (hrest : ComesApart env v (indexOf env.json env.provider e) (b.processDelta v text).2 es) :
    ComesApart env v owner b (e :: es) := by
  rcases forwardEvent_indexed (v := v) hJ hp b e hsole with ⟨hbuf, hpieces⟩
  rw [Sole] at hsole
  rw [htext] at hbuf hpieces hsole
  rcases hrest with ⟨b', hb', htexts⟩
  rw [ComesApart, processEvents_cons _ _ _ he, processEvent_forward _ _ he hstop]
  simp only [hbuf, stepDelta, piecesOf_append, hpieces, Option.toList_some, List.map_cons,
    List.map_nil, under_append, under_singleton]
  refine ⟨b', hb', fun i => ?_⟩
  have hstep := finish_own_delta owner (indexOf env.json env.provider e) b i text hfresh
    hclear (under i (indexedDeltas env.json env.provider es))
  rw [indexedDeltas_cons e es i, hsole, Option.toList_some, List.map_cons, List.map_nil,
    under_singleton]
  by_cases hi : indexOf env.json env.provider e = some i
  · simp only [hi, if_true, List.cons_append, List.nil_append, List.flatten_cons,
      List.append_assoc] at hstep htexts ⊢
    rw [htexts i, hstep]
  · simp only [hi, if_false, List.nil_append] at hstep htexts ⊢
    rw [htexts i, hstep]

/-- Events of which nothing gets under another index come out apart. -/
theorem processEvents_apart : ∀ (es : List SseEvent) (owner : Option Str) (b : ReplacementBuffer),
    (∀ e ∈ es, endsResponse env e = false) →
    (∀ e ∈ es, isBlockStop env.provider e = true →
      extractTextDelta env.json env.provider e.data = none) →
    (v.isEmpty = false → b.Fresh v) → Apart env v owner b es → ComesApart env v owner b es := by
  intro es
  induction es with
  | nil =>
    intro owner b _ _ hfresh hapart
    exact comesApart_nil owner b hfresh hapart
  | cons e es ih =>
    intro owner b hend hsilent hfresh hapart
    have he := hend e List.mem_cons_self
    have hend' : ∀ x ∈ es, endsResponse env x = false :=
      fun x hx => hend x (List.mem_cons_of_mem _ hx)
    have hsilent' := fun x hx => hsilent x (List.mem_cons_of_mem e hx)
    rw [Apart] at hapart
    cases hstop : isBlockStop env.provider e with
    | true =>
      rw [if_pos hstop] at hapart
      have hrest := ih owner _ hend' hsilent' (flushRemaining_fresh b hfresh) hapart.2
      exact comesApart_blockStop hJ hp e es owner b he hstop (hsilent e List.mem_cons_self hstop)
        hfresh hapart.1 hrest
    | false =>
      rw [hstop, if_neg Bool.false_ne_true] at hapart
      -- `Apart` asks for the index only where there is text.
      by_cases hin : incoming env.json env.provider e = []
      · rw [if_pos hin] at hapart
        exact comesApart_silent hJ hp e es owner b he hstop hapart.1 hin
          (ih owner b hend' hsilent' hfresh hapart.2)
      · rw [if_neg hin] at hapart
        rcases hapart with ⟨hsole, hclear, hapart⟩
        cases htext : extractTextDelta env.json env.provider e.data with
        | none => exact absurd (by rw [incoming, htext, Option.getD_none]) hin
        | some text =>
          rw [incoming, htext, Option.getD_some] at hapart
          exact comesApart_text hJ hp e es owner b text he hstop hsole htext hfresh hclear
            (ih _ _ hend' hsilent' (stepDelta_fresh hfresh (some text)) hapart)

/-- The terminal event has no text; what is held back comes out before it or behind
    it, under index 0. -/
theorem restoredWrites_indexed {a : Answer} (ha : a.WellFormed env) (hvault : env.vault = some v)
    (b : ReplacementBuffer)
    (hb : (processEvents env.json env.provider v (a.spoken env) (some .new)).2.1 = some b) (i : Str) :
    (under i (piecesOf env.json env.provider (a.restoredWrites env))).flatten =
      (under i (piecesOf env.json env.provider
        (processEvents env.json env.provider v (a.spoken env) (some .new)).1)).flatten ++
        (if i = lit "0" then (b.flushRemaining v).1 else []) := by
  rcases ha.terminal with ⟨es, tail, hevents, hes, hterm⟩
  have hvaultOr := U2cEnv.vaultOr_some hvault
  have hopen := processEvents_open env v es (some .new) hes
  -- A single event behind the others, which ends the response.
  have hwrites : ∀ e, tail = [e] → endsResponse env e = true → a.restoredWrites env =
      (processEvents env.json env.provider v (a.spoken env) (some .new)).1 ++
        (processEvent env.json env.provider v (some b) e).1 ++
        (flushRepBufRemainingAsChunk env.json env.provider v
          (processEvent env.json env.provider v (some b) e).2.1).1 := by
    rintro e rfl he
    have hspoken : a.spoken env = es :=
      Answer.spoken_eq hevents hes fun x hx => by rw [List.mem_singleton.mp hx, he]
    rw [hspoken] at hb ⊢
    have hone : processEvents env.json env.provider v [e] (some b) =
        processEvent env.json env.provider v (some b) e := by
      have hflag := processEvent_flag env v (some b) e
      rw [he] at hflag
      simp only [processEvents, hflag, if_true]
      rw [← hflag]
    rw [Answer.restoredWrites, flushRepBufAndFinalize, hvaultOr, hvault, Option.map_some, hevents,
      processEvents_append _ _ _ _ _ _ hopen, hb, hone]
  have hprov := hp
  rcases hprov with hp' | hp'
  -- `message_stop` flushes before itself, so that the second flush gives nothing;
  -- `[DONE]` leaves the text to the second flush.
  · rw [hp'] at hterm
    rcases hterm with ⟨e, rfl, hname⟩
    rcases ha.named hp' e (by rw [hevents]; exact List.mem_append_right _ List.mem_cons_self) with
      ⟨w, hw, htype⟩
    have he : endsResponse env e = true := by
      rw [endsResponse, decide_eq_true hp', decide_eq_true hname, Bool.and_self, Bool.or_true]
    have hsilent : indexedTexts env.json env.provider e = [] := by
      simp only [indexedTexts, hw, hp', blockTexts, isTextDelta, htype, hname]
      rfl
    have hround : processEvent env.json env.provider v (some b) e =
        ((flushRepBufRemainingAsChunk env.json env.provider v (some b)).1 ++ [.event e],
          some (b.flushRemaining v).2, true) := by
      unfold processEvent
      rw [hJ.roundTrip.not_done e w hw, if_neg Bool.false_ne_true, if_pos ⟨hp', hname⟩]
      rfl
    have hnone : ((b.flushRemaining v).2.flushRemaining v).1 = [] := by
      rw [ReplacementBuffer.flushRemaining, ReplacementBuffer.flushRemaining_empty]
      rfl
    rw [hwrites e rfl he, hround]
    simp only [piecesOf_append, piecesOf_event, hsilent, under_append, List.flatten_append,
      flush_indexed hJ hp, hnone, ite_self, List.append_nil]
  · rw [hp'] at hterm
    rcases hterm with ⟨e, rfl, hdone⟩
    have he : endsResponse env e = true := by rw [endsResponse, hdone, Bool.true_or]
    have hsilent : indexedTexts env.json env.provider e = [] := by
      rw [indexedTexts, hJ.done e.data (eq_of_beq hdone)]
    have hround : processEvent env.json env.provider v (some b) e = ([.event e], some b, true) := by
      unfold processEvent
      rw [if_pos hdone]
    rw [hwrites e rfl he, hround]
    simp only [piecesOf_append, piecesOf_event, hsilent, under_append, List.flatten_append,
      flush_indexed hJ hp, List.append_nil]

end Run

/-- What the client gets of a response: the writes up to the last chunk. -/
def response (writes : List ClientWrite) : List ClientWrite := writes.takeWhile (· ≠ .last)

/-- If nothing that is held back crosses over, the client gets under each index the
    restored text of the deltas with that index. -/
theorem text_under_index (env : U2cEnv) (hr : env.piiReplace = true) (v : PiiVault)
    (hvault : env.vault = some v) (hp : env.provider = .anthropic ∨ env.provider = .openAi)
    (hJ : env.json.Exact env.provider) (a : Answer) (ha : a.WellFormed env)
    (reads : List (List UInt8)) (hreads : reads.flatten = a.bytes)
    (hapart : Apart env v none .new (a.spoken env)) (i : Str) :
    (under i (piecesOf env.json env.provider (response (handleU2c env reads)))).flatten =
      ReplacementBuffer.stream v (under i (indexedDeltas env.json env.provider (a.spoken env))) := by
  rcases ha.terminal with ⟨es, tail, hevents, hes, hterm⟩
  have htail : ∃ e, tail = [e] ∧ endsResponse env e = true := by
    rcases hp with hp | hp <;> rw [hp] at hterm <;> rcases hterm with ⟨e, rfl, he⟩
    · refine ⟨e, rfl, ?_⟩
      rw [endsResponse, decide_eq_true hp, decide_eq_true he, Bool.and_self, Bool.or_true]
    · exact ⟨e, rfl, by rw [endsResponse, he, Bool.true_or]⟩
  rcases htail with ⟨e, rfl, he⟩
  have hspoken : a.spoken env = es :=
    Answer.spoken_eq hevents hes fun x hx => by rw [List.mem_singleton.mp hx, he]
  have hst := ha.framed.stream hr
  -- The read that completes the terminal event is the last one whose text counts.
  rcases ha.framed.first_done (by rw [hevents]; exact any_concat he) reads [] hreads
    hst.waiting_nil with ⟨xs, c, ys, rfl, hw, hdone⟩
  have hgot : response (handleU2c env (xs ++ c :: ys)) =
      .raw a.header :: a.restoredWrites env := by
    rw [ha.framed.run_done hr xs ys c hreads hw hdone, response, List.takeWhile_append_of_pos,
      List.takeWhile_cons_of_neg (by simp only [ne_eq, not_true_eq_false, decide_false,
        Bool.false_eq_true, not_false_eq_true]), List.append_nil]
    intro w hw
    rcases List.mem_cons.mp hw with rfl | hw
    · rfl
    · rcases a.restoredWrites_onlyEvents env w hw with ⟨e', rfl⟩
      rfl
  -- The end of a block has no text of its own: Anthropic names it in the data, too.
  have hsilent : ∀ x ∈ a.spoken env, isBlockStop env.provider x = true →
      extractTextDelta env.json env.provider x.data = none := by
    intro x hx hstop
    have hprov : env.provider = .anthropic := by
      rw [isBlockStop, Bool.and_eq_true, decide_eq_true_eq] at hstop
      exact hstop.1
    rw [hspoken] at hx
    have hnamed := ha.named hprov x (by rw [hevents]; exact List.mem_append_left _ hx)
    rw [hprov] at hstop ⊢
    exact hnamed.silent hstop
  rcases processEvents_apart hJ hp (a.spoken env) none .new (by rw [hspoken]; exact hes) hsilent
    (ReplacementBuffer.fresh_new v) hapart with ⟨b, hb, htexts⟩
  rw [hgot]
  have hraw : piecesOf env.json env.provider (.raw a.header :: a.restoredWrites env) =
      piecesOf env.json env.provider (a.restoredWrites env) := rfl
  rw [hraw, restoredWrites_indexed hJ hp ha hvault b hb i, htexts i]
  rfl

section Example

/-- What stands behind the text in the data of a text event of the block `index`. -/
def blockTail (index : Str) : Str :=
  lit "\",\"type\":\"text_delta\"\x7d,\"index\":" ++ index ++
    lit ",\"type\":\"content_block_delta\"\x7d"

/-- The data of a text event of the block `index`. -/
def blockDelta (index text : Str) : Value := .object [
  (lit "delta", .object [(lit "text", .string text), (lit "type", .string (lit "text_delta"))]),
  (lit "index", .number index),
  (lit "type", .string (lit "content_block_delta"))]

/-- A parser and printer for text events of two blocks with plain text, and for the
    events that end a block and the message. -/
def blocksJson : SerdeJson where
  fromStr s :=
    match [lit "0", lit "1"].find? fun index =>
        textHead <+: s ∧ blockTail index <:+ s.drop textHead.length with
    | some index => some (blockDelta index ((s.drop textHead.length).take
        (s.length - textHead.length - (blockTail index).length)))
    | none => [bareEvent (lit "content_block_stop"), bareEvent (lit "message_stop")].find? fun w =>
        w.compact == s
  toStr w :=
    match strAt w [lit "delta", lit "text"], numberAt w [lit "index"] with
    | some text, some index => textHead ++ (text ++ blockTail index)
    | _, _ => w.compact

theorem blocksJson_text (index text : Str) (hindex : index = lit "0" ∨ index = lit "1") :
    blocksJson.fromStr (textHead ++ (text ++ blockTail index)) = some (blockDelta index text) := by
  have hother : ¬ blockTail (lit "0") <:+ text ++ blockTail (lit "1") := by
    intro h
    -- Of two ends of one length only one can be there.
    have hsuf := List.suffix_of_suffix_length_le h (List.suffix_append text _) (by decide)
    exact absurd hsuf (by decide)
  have hfind : [lit "0", lit "1"].find? (fun i =>
      textHead <+: textHead ++ (text ++ blockTail index) ∧
        blockTail i <:+ (textHead ++ (text ++ blockTail index)).drop textHead.length) =
      some index := by
    rw [List.drop_left]
    rcases hindex with rfl | rfl
    · rw [List.find?_cons_of_pos]
      exact decide_eq_true ⟨List.prefix_append _ _, List.suffix_append _ _⟩
    · rw [List.find?_cons_of_neg, List.find?_cons_of_pos]
      · exact decide_eq_true ⟨List.prefix_append _ _, List.suffix_append _ _⟩
      · rw [decide_eq_true_eq]
        exact fun h => hother h.2
  have hlen : (textHead ++ (text ++ blockTail index)).length - textHead.length -
      (blockTail index).length = text.length := by
    rw [List.length_append, List.length_append]
    omega
  simp only [blocksJson]
  rw [hfind]
  dsimp only
  rw [List.drop_left, hlen, List.take_left]

/-- It reads text events and the two bare ones. -/
theorem blocksJson_cases (data : Str) (w : Value) (h : blocksJson.fromStr data = some w) :
    data.head? = some 123 ∧
      ((∃ index text, (index = lit "0" ∨ index = lit "1") ∧ w = blockDelta index text) ∨
        w = bareEvent (lit "content_block_stop") ∨ w = bareEvent (lit "message_stop")) := by
  simp only [blocksJson] at h
  split at h
  · next index hfind =>
      have hmem := List.mem_of_find?_eq_some hfind
      have hpos := List.find?_some hfind
      rw [decide_eq_true_eq] at hpos
      rcases hpos.1 with ⟨r, rfl⟩
      simp only [List.mem_cons, List.not_mem_nil, or_false] at hmem
      exact ⟨rfl, .inl ⟨index, _, hmem, (Option.some.inj h).symm⟩⟩
  · exact ⟨(bareEvents_find data w h).1, .inr (bareEvents_find data w h).2⟩

theorem blocksJson_exact : blocksJson.Exact .anthropic where
  done data hdone := by
    cases h : blocksJson.fromStr data with
    | none => rfl
    | some w => exact absurd hdone (trim_object data (blocksJson_cases data w h).1)
  edited data w path text hw hpath := by
    cases hpath
    rcases (blocksJson_cases data w hw).2 with ⟨index, t, hindex, rfl⟩ | rfl | rfl
    · exact blocksJson_text index text hindex
    · rfl
    · rfl
  trailing text w h := by
    cases h
    exact blocksJson_text (lit "0") text (Or.inl rfl)

def blocksEnv : U2cEnv where
  json := blocksJson
  provider := .anthropic
  piiReplace := true
  vault := some ReplacementBuffer.oneName

/-- A text event of a block. -/
def blockEvent (index text : Str) : SseEvent :=
  ⟨some (lit "content_block_delta"), textHead ++ (text ++ blockTail index)⟩

/-- An event that has only its type. -/
def plainEvent (name : Str) : SseEvent := ⟨some name, (bareEvent name).compact⟩

/-- An answer whose body is the given events. -/
def eventsAnswer (es : List SseEvent) : Answer where
  header := twoBlocks.header
  body := .whole (es.map reconstructSseEventBytes).flatten

/-- Two blocks, of which the first has a name in two pieces. -/
def apartEvents : List SseEvent :=
  [blockEvent (lit "0") (lit "Alice"), blockEvent (lit "0") (lit " Brown"),
    plainEvent (lit "content_block_stop"), blockEvent (lit "1") (lit "Hi"),
    plainEvent (lit "content_block_stop")]

/-- Two blocks, of which the second ends with the beginning of a name. -/
def crossedEvents : List SseEvent :=
  [blockEvent (lit "0") (lit "Hi"), plainEvent (lit "content_block_stop"),
    blockEvent (lit "1") (lit "Alice"), plainEvent (lit "content_block_stop")]

theorem apart_events : (eventsAnswer (apartEvents ++ [plainEvent (lit "message_stop")])).events =
    apartEvents ++ [plainEvent (lit "message_stop")] := by decide +kernel

theorem crossed_events :
    (eventsAnswer (crossedEvents ++ [plainEvent (lit "message_stop")])).events =
      crossedEvents ++ [plainEvent (lit "message_stop")] := by decide +kernel

theorem blockEvent_named (index text : Str) (hindex : index = lit "0" ∨ index = lit "1") :
    NamedByType blocksJson (blockEvent index text) :=
  ⟨_, blocksJson_text index text hindex, rfl⟩

theorem eventsAnswer_wellFormed (es : List SseEvent)
    (hevents : (eventsAnswer (es ++ [plainEvent (lit "message_stop")])).events =
      es ++ [plainEvent (lit "message_stop")])
    (hes : ∀ e ∈ es, endsResponse blocksEnv e = false) (hnamed : ∀ e ∈ es, NamedByType blocksJson e) :
    (eventsAnswer (es ++ [plainEvent (lit "message_stop")])).WellFormed blocksEnv where
  ends := twoBlocks_wellFormed.ends
  sse := twoBlocks_wellFormed.sse
  framing := twoBlocks_wellFormed.framing
  body := trivial
  named _ e he := by
    rw [hevents] at he
    rcases List.mem_append.mp he with he | he
    · exact hnamed e he
    · rw [List.mem_singleton.mp he]
      exact ⟨bareEvent (lit "message_stop"), rfl, rfl⟩
  terminal := ⟨_, _, hevents, hes, _, rfl, rfl⟩

theorem apart_wellFormed :
    (eventsAnswer (apartEvents ++ [plainEvent (lit "message_stop")])).WellFormed blocksEnv := by
  refine eventsAnswer_wellFormed apartEvents apart_events (by decide) fun e he => ?_
  simp only [apartEvents, List.mem_cons, List.not_mem_nil, or_false] at he
  rcases he with rfl | rfl | rfl | rfl | rfl
  · exact blockEvent_named _ _ (Or.inl rfl)
  · exact blockEvent_named _ _ (Or.inl rfl)
  · exact ⟨bareEvent (lit "content_block_stop"), rfl, rfl⟩
  · exact blockEvent_named _ _ (Or.inr rfl)
  · exact ⟨bareEvent (lit "content_block_stop"), rfl, rfl⟩

theorem crossed_wellFormed :
    (eventsAnswer (crossedEvents ++ [plainEvent (lit "message_stop")])).WellFormed blocksEnv := by
  refine eventsAnswer_wellFormed crossedEvents crossed_events (by decide) fun e he => ?_
  simp only [crossedEvents, List.mem_cons, List.not_mem_nil, or_false] at he
  rcases he with rfl | rfl | rfl | rfl
  · exact blockEvent_named _ _ (Or.inl rfl)
  · exact ⟨bareEvent (lit "content_block_stop"), rfl, rfl⟩
  · exact blockEvent_named _ _ (Or.inr rfl)
  · exact ⟨bareEvent (lit "content_block_stop"), rfl, rfl⟩

/-- Two blocks, the first with a name in two pieces: nothing is held back where it
    ends. -/
theorem text_under_index_two_blocks :
    (under (lit "0") (piecesOf blocksJson .anthropic (response (handleU2c blocksEnv
        [(eventsAnswer (apartEvents ++ [plainEvent (lit "message_stop")])).bytes])))).flatten =
      ReplacementBuffer.stream ReplacementBuffer.oneName (under (lit "0")
        (indexedDeltas blocksJson .anthropic ((eventsAnswer
          (apartEvents ++ [plainEvent (lit "message_stop")])).spoken blocksEnv))) := by
  have hspoken : (eventsAnswer (apartEvents ++ [plainEvent (lit "message_stop")])).spoken
      blocksEnv = apartEvents := by
    rw [Answer.spoken, apart_events]
    decide
  refine text_under_index blocksEnv rfl ReplacementBuffer.oneName rfl (Or.inl rfl) blocksJson_exact
    _ apart_wellFormed _ (List.append_nil _) ?_ (lit "0")
  rw [hspoken]
  decide

/-- Two blocks, the second of which ends with the beginning of a name: that is sent
    under the index of the first. -/
theorem text_under_index_crossed :
    (under (lit "1") (piecesOf blocksJson .anthropic (response (handleU2c blocksEnv
        [(eventsAnswer (crossedEvents ++ [plainEvent (lit "message_stop")])).bytes])))).flatten =
      [] ∧
    (under (lit "0") (piecesOf blocksJson .anthropic (response (handleU2c blocksEnv
        [(eventsAnswer (crossedEvents ++ [plainEvent (lit "message_stop")])).bytes])))).flatten =
      lit "HiAlice" ∧
    blocksJson.Exact .anthropic ∧
    ¬ ∀ (a : Answer) (reads : List (List UInt8)), a.WellFormed blocksEnv →
      reads.flatten = a.bytes → ∀ i,
      (under i (piecesOf blocksJson .anthropic (response (handleU2c blocksEnv reads)))).flatten =
        ReplacementBuffer.stream ReplacementBuffer.oneName
          (under i (indexedDeltas blocksJson .anthropic (a.spoken blocksEnv))) := by
  refine ⟨by decide +kernel, by decide +kernel, blocksJson_exact, fun hall => ?_⟩
  exact absurd (hall _ [(eventsAnswer (crossedEvents ++ [plainEvent (lit "message_stop")])).bytes]
    crossed_wellFormed (List.append_nil _) (lit "1")) (by decide +kernel)

end Example

end PrivacyClaw
