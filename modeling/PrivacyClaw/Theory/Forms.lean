import Mathlib.Logic.Function.Basic
import PrivacyClaw.Theory.Envelope

/-!
# Bodies as Forms

A request body, as the pipeline sees it, is a form with texts filled in.

The pipeline reads the texts of a body, replaces spans in them and writes them
back; everything between is JSON that it only walks through. A `BodyForm` is a body
with its texts taken out: a place for each, and around it the fields and parts that
stay. Filling in is a function of the texts by their places, so collecting is
reading that function off, and writing back is updating it. What the pipeline does
to a body is so what it does to a list of texts.

The fields of a text part stand in key order, as the crate's map keeps them; only
then does inserting a text exchange the one that is there.

## Main definitions

* `PartForm`, `MessageForm`, `BodyForm`: Parts, messages and bodies without texts.
* `Place`: Where a text stands.
* `BodyForm.fill`, `BodyForm.places`: The body with the given texts, and its places.

## Theorems

* `BodyForm.collect_fill`: Collecting reads the texts.
* `BodyForm.writeBack_fill`: Writing back updates one of them.
* `BodyForm.fill_congr`: The texts at the places decide.
* `exists_bodyForm`: Every body with messages is a form with its texts.
* `phase2All_of_processValue`, `processValue_fill`: The pipeline on a form.
-/

namespace PrivacyClaw

namespace Value

variable {key : Str} {v w : Value} {before after : List (Str × Value)}

/-- The first field of a name. -/
theorem lookupField_around (h : ∀ f ∈ before, f.1 ≠ key) :
    lookupField key (before ++ (key, v) :: after) = some v := by
  induction before with
  | nil => simp only [List.nil_append, lookupField, if_true]
  | cons f before ih =>
      have hf : f.1 ≠ key := h f List.mem_cons_self
      simp only [List.cons_append, lookupField, hf, if_false]
      exact ih fun g hg => h g (List.mem_cons_of_mem _ hg)

/-- A field is not seen under another name. -/
theorem lookupField_around_ne {other : Str} (hne : key ≠ other) :
    lookupField other (before ++ (key, v) :: after) = lookupField other (before ++ after) := by
  induction before with
  | nil => simp only [List.nil_append, lookupField, hne, if_false]
  | cons f before ih => simp only [List.cons_append, lookupField, ih]

/-- Assigning to the first field of a name. -/
theorem modifyField_around (h : ∀ f ∈ before, f.1 ≠ key) (f : Value → Value) :
    modifyField key f (before ++ (key, v) :: after) = before ++ (key, f v) :: after := by
  induction before with
  | nil => simp only [List.nil_append, modifyField, if_true]
  | cons b before ih =>
      have hb : b.1 ≠ key := h b List.mem_cons_self
      simp only [List.cons_append, modifyField, hb, if_false]
      rw [ih fun g hg => h g (List.mem_cons_of_mem _ hg)]

/-- Inserting under a name that is there, behind smaller ones. -/
theorem insertField_around (h : ∀ f ∈ before, f.1 < key) :
    insertField key w (before ++ (key, v) :: after) = before ++ (key, w) :: after := by
  induction before with
  | nil => simp only [List.nil_append, insertField, if_true]
  | cons f before ih =>
      have hf : f.1 < key := h f List.mem_cons_self
      have hne : f.1 ≠ key := fun he => List.lt_irrefl key (by rwa [he] at hf)
      have hnot : ¬ key < f.1 := List.lt_asymm hf
      simp only [List.cons_append, insertField, hne, hnot, if_false]
      rw [ih fun g hg => h g (List.mem_cons_of_mem _ hg)]

/-- A field that is found stands between those before it and those behind it. -/
theorem eq_around_of_lookupField {fields : List (Str × Value)}
    (h : lookupField key fields = some v) :
    ∃ before after, fields = before ++ (key, v) :: after ∧ ∀ f ∈ before, f.1 ≠ key := by
  induction fields with
  | nil => exact absurd h.symm (Option.some_ne_none v)
  | cons f fields ih =>
      rcases f with ⟨k, x⟩
      by_cases hk : k = key
      · rw [lookupField, if_pos hk, Option.some.injEq] at h
        exact ⟨[], fields, by rw [hk, h, List.nil_append], fun f hf => absurd hf List.not_mem_nil⟩
      · rw [lookupField, if_neg hk] at h
        rcases ih h with ⟨before, after, rfl, hbefore⟩
        refine ⟨(k, x) :: before, after, rfl, fun f hf => ?_⟩
        rcases List.mem_cons.mp hf with rfl | hf
        · exact hk
        · exact hbefore f hf

end Value

/-- A part of a message: one without a text, or the fields around its text. -/
inductive PartForm where
  | fixed (part : Value) (h : textPart part = none)
  | text (before after : List (Str × Value)) (hbefore : ∀ f ∈ before, f.1 < lit "text")
      (htype : Value.lookupField (lit "type") (before ++ after) = some (.string (lit "text")))

/-- A message: one without texts, or the fields around its content, which is a text
    or an array of parts. -/
inductive MessageForm where
  | fixed (msg : Value) (h : ∀ i, collectMessage i msg = [])
  | plain (before after : List (Str × Value)) (hbefore : ∀ f ∈ before, f.1 ≠ lit "content")
  | parts (before after : List (Str × Value)) (hbefore : ∀ f ∈ before, f.1 ≠ lit "content")
      (parts : List PartForm)

/-- A body: the fields around its messages. -/
structure BodyForm (field : Str) where
  before : List (Str × Value)
  after : List (Str × Value)
  hbefore : ∀ f ∈ before, f.1 ≠ field
  messages : List MessageForm

/-- Where a text stands: the message, and the part of it. -/
abbrev Place := Nat × Option Nat

namespace PartForm

/-- The part with a text. -/
def fill (s : Str) : PartForm → Value
  | .fixed part _ => part
  | .text before after _ _ => .object (before ++ (lit "text", .string s) :: after)

/-- The part has a text. -/
def hasText : PartForm → Bool
  | .fixed _ _ => false
  | .text _ _ _ _ => true

theorem textPart_fill (q : PartForm) (s : Str) :
    textPart (q.fill s) = if q.hasText then some s else none := by
  cases q with
  | fixed part h => exact h
  | text before after hbefore htype =>
      have hne : lit "text" ≠ lit "type" := by decide
      have hkeys : ∀ f ∈ before, f.1 ≠ lit "text" := fun f hf he =>
        List.lt_irrefl f.1 (by
          have hlt := hbefore f hf
          rwa [← he] at hlt)
      have hlookup : Value.lookupField (lit "type")
          (before ++ (lit "text", .string s) :: after) = some (.string (lit "text")) := by
        rw [Value.lookupField_around_ne hne, htype]
      simp only [textPart, fill, Value.getStr, Value.get, hlookup, Option.bind_some, Value.asStr,
        if_true, Value.lookupField_around hkeys, hasText]

end PartForm

namespace MessageForm

/-- The message with the given texts. -/
def fill (g : Option Nat → Str) : MessageForm → Value
  | .fixed msg _ => msg
  | .plain before after _ => .object (before ++ (lit "content", .string (g none)) :: after)
  | .parts before after _ ps => .object (before ++
      (lit "content", .array (ps.mapIdx fun j q => q.fill (g (some j)))) :: after)

/-- The places of its texts. -/
def places : MessageForm → List (Option Nat)
  | .fixed _ _ => []
  | .plain _ _ _ => [none]
  | .parts _ _ _ ps =>
    ps.zipIdx.filterMap fun x => if x.1.hasText then some (some x.2) else none

end MessageForm

/-- The elements of a list by their index, each made into another. -/
theorem zipIdx_mapIdx {α β : Type} (f : Nat → α → β) (l : List α) :
    (l.mapIdx f).zipIdx = l.zipIdx.map fun x => (f x.2 x.1, x.2) := by
  refine List.ext_getElem? fun i => ?_
  rw [List.getElem?_zipIdx, List.getElem?_mapIdx, List.getElem?_map, List.getElem?_zipIdx,
    Option.map_map, Option.map_map]
  congr 1
  funext x
  simp only [Function.comp_apply, Nat.zero_add]

/-- Setting one of them is making it into something else. -/
theorem mapIdx_set_update {α β : Type} (f f' : Nat → α → β) (l : List α) (i : Nat) (x : α)
    (hx : l[i]? = some x) (hne : ∀ j, j ≠ i → f j = f' j) :
    (l.mapIdx f).set i (f' i x) = l.mapIdx f' := by
  refine List.ext_getElem? fun j => ?_
  by_cases hj : j = i
  · subst hj
    have hlt : j < l.length := (List.getElem?_eq_some_iff.mp hx).1
    rw [List.getElem?_set_self (by rwa [List.length_mapIdx]), List.getElem?_mapIdx, hx]
    rfl
  · rw [List.getElem?_set_ne (Ne.symm hj), List.getElem?_mapIdx, List.getElem?_mapIdx, hne j hj]

namespace MessageForm

theorem collect_fill (m : MessageForm) (g : Option Nat → Str) (i : Nat) :
    collectMessage i (m.fill g) = m.places.map fun p => ⟨i, p, g p⟩ := by
  cases m with
  | fixed msg h => exact h i
  | plain before after hbefore =>
      simp only [collectMessage, fill, Value.get, Value.lookupField_around hbefore, Value.asStr,
        places, List.map_cons, List.map_nil]
  | parts before after hbefore ps =>
      simp only [collectMessage, fill, Value.get, Value.lookupField_around hbefore, Value.asStr,
        Value.asArray, places, zipIdx_mapIdx, List.filterMap_map, List.map_filterMap]
      congr 1
      funext x
      rw [Function.comp_apply, PartForm.textPart_fill]
      cases x.1.hasText <;> rfl

theorem mem_places_parts {before after : List (Str × Value)}
    {hbefore : ∀ f ∈ before, f.1 ≠ lit "content"} {ps : List PartForm} {p : Option Nat}
    (hp : p ∈ (MessageForm.parts before after hbefore ps).places) :
    ∃ j q, p = some j ∧ ps[j]? = some q ∧ q.hasText = true := by
  rw [places, List.mem_filterMap] at hp
  rcases hp with ⟨⟨q, j⟩, hmem, hp⟩
  by_cases hq : q.hasText = true
  · rw [if_pos hq, Option.some.injEq] at hp
    exact ⟨j, q, hp.symm, List.mk_mem_zipIdx_iff_getElem?.mp hmem, hq⟩
  · rw [if_neg hq] at hp
    exact absurd hp.symm (Option.some_ne_none p)

theorem fill_congr (m : MessageForm) (g g' : Option Nat → Str) (h : ∀ p ∈ m.places, g p = g' p) :
    m.fill g = m.fill g' := by
  cases m with
  | fixed msg _ => rfl
  | plain before after hbefore =>
      rw [fill, fill, h none List.mem_cons_self]
  | parts before after hbefore ps =>
      have hparts : ps.mapIdx (fun j q => q.fill (g (some j))) =
          ps.mapIdx fun j q => q.fill (g' (some j)) := by
        rw [List.mapIdx_eq_mapIdx_iff]
        intro j hj
        rcases hq : ps[j] with ⟨part, hpart⟩ | ⟨b, a, hb, ht⟩
        · rfl
        · have hmem : some j ∈ (MessageForm.parts before after hbefore ps).places := by
            rw [places, List.mem_filterMap]
            refine ⟨(ps[j], j), List.mk_mem_zipIdx_iff_getElem?.mpr
              (List.getElem?_eq_getElem hj), ?_⟩
            simp only [hq, PartForm.hasText, if_true]
          rw [h _ hmem]
      rw [fill, fill, hparts]

end MessageForm

namespace BodyForm

variable {field : Str} (F : BodyForm field)

/-- The messages with the given texts. -/
def array (g : Place → Str) : List Value :=
  F.messages.mapIdx fun i m => m.fill fun p => g (i, p)

/-- The body with the given texts. -/
def fill (g : Place → Str) : Value :=
  .object (F.before ++ (field, .array (F.array g)) :: F.after)

/-- The places of its texts. -/
def places : List Place := F.messages.zipIdx.flatMap fun x => x.1.places.map fun p => (x.2, p)

theorem getArray_fill (g : Place → Str) : (F.fill g).getArray field = some (F.array g) := by
  simp only [Value.getArray, Value.get, fill, Value.lookupField_around F.hbefore,
    Option.bind_some, Value.asArray]

/-- Collecting reads the texts. -/
theorem collect_fill (g : Place → Str) :
    collectMessageTexts (F.fill g) field = F.places.map fun p => ⟨p.1, p.2, g p⟩ := by
  rw [collectMessageTexts, F.getArray_fill g, array, places]
  dsimp only
  rw [zipIdx_mapIdx, List.flatMap_map, List.map_flatMap]
  congr 1
  funext x
  rw [MessageForm.collect_fill, List.map_map]
  rfl

theorem mem_places {i : Nat} {p : Option Nat} :
    (i, p) ∈ F.places ↔ ∃ m, F.messages[i]? = some m ∧ p ∈ m.places := by
  rw [places, List.mem_flatMap]
  constructor
  · rintro ⟨⟨m, j⟩, hmem, hp⟩
    rcases List.mem_map.mp hp with ⟨q, hq, he⟩
    rcases Prod.mk.inj he with ⟨rfl, rfl⟩
    exact ⟨m, List.mk_mem_zipIdx_iff_getElem?.mp hmem, hq⟩
  · rintro ⟨m, hm, hp⟩
    exact ⟨(m, i), List.mk_mem_zipIdx_iff_getElem?.mpr hm, List.mem_map.mpr ⟨p, hp, rfl⟩⟩

/-- The texts at the places decide. -/
theorem array_congr (g g' : Place → Str) (h : ∀ p ∈ F.places, g p = g' p) :
    F.array g = F.array g' := by
  rw [array, array, List.mapIdx_eq_mapIdx_iff]
  intro i hi
  refine MessageForm.fill_congr _ _ _ fun p hp => h (i, p) (F.mem_places.mpr ⟨_, ?_, hp⟩)
  exact List.getElem?_eq_getElem hi

theorem fill_congr (g g' : Place → Str) (h : ∀ p ∈ F.places, g p = g' p) :
    F.fill g = F.fill g' := by
  rw [fill, fill, F.array_congr g g' h]

/-- Writing back updates one text. -/
theorem writeBack_fill (g : Place → Str) (p : Place) (hp : p ∈ F.places) (old new : Str) :
    writeBack ⟨p.1, p.2, old⟩ new (F.array g) =
      some (F.array (Function.update g p new)) := by
  rcases p with ⟨i, p⟩
  rcases F.mem_places.mp hp with ⟨m, hm, hmp⟩
  have hget : (F.array g)[i]? = some (m.fill fun p => g (i, p)) := by
    rw [array, List.getElem?_mapIdx, hm, Option.map_some]
  have hothers : ∀ j, j ≠ i →
      (fun m : MessageForm => m.fill fun p => g (j, p)) =
        fun m => m.fill fun q => Function.update g (i, p) new (j, q) := by
    intro j hj
    funext m
    congr 1
    funext q
    rw [Function.update_of_ne fun he => hj (Prod.mk.inj he).1]
  have hset : (F.array g).set i (m.fill fun q => Function.update g (i, p) new (i, q)) =
      F.array (Function.update g (i, p) new) :=
    mapIdx_set_update (fun i (m : MessageForm) => m.fill fun p => g (i, p))
      (fun j m => m.fill fun q => Function.update g (i, p) new (j, q)) F.messages i m hm hothers
  rw [← hset]
  cases m with
  | fixed msg _ => exact absurd hmp List.not_mem_nil
  | plain before after hbefore =>
      rw [MessageForm.places, List.mem_singleton] at hmp
      subst hmp
      simp only [writeBack, hget, MessageForm.fill, Value.lookupField_around hbefore,
        Value.modifyField_around hbefore, Function.update_self]
  | parts before after hbefore ps =>
      rcases MessageForm.mem_places_parts hmp with ⟨j, q, rfl, hq, htext⟩
      rcases q with ⟨part, _⟩ | ⟨b, a, hb, ht⟩
      · exact absurd htext Bool.false_ne_true
      have hpart : (ps.mapIdx fun j q => q.fill (g (i, some j)))[j]? =
          some (.object (b ++ (lit "text", .string (g (i, some j))) :: a)) := by
        rw [List.getElem?_mapIdx, hq]
        rfl
      have hrest : ∀ k, k ≠ j → (fun q : PartForm => q.fill (g (i, some k))) =
          fun q => q.fill (Function.update g (i, some j) new (i, some k)) := by
        intro k hk
        rw [Function.update_of_ne fun he => hk (Option.some.inj (Prod.mk.inj he).2)]
      have hset := mapIdx_set_update (fun j (q : PartForm) => q.fill (g (i, some j)))
        (fun k q => q.fill (Function.update g (i, some j) new (i, some k))) ps j _ hq hrest
      have hnew : (PartForm.text b a hb ht).fill (Function.update g (i, some j) new (i, some j)) =
          .object (b ++ (lit "text", .string new) :: a) := by
        rw [Function.update_self]
        rfl
      rw [hnew] at hset
      simp only [writeBack, hget, MessageForm.fill, Value.lookupField_around hbefore, hpart,
        Value.modifyField_around hbefore, Value.insertField_around hb, hset]

end BodyForm

/-- The fields of an object stand in key order. -/
def FieldsSorted (fields : List (Str × Value)) : Prop := fields.Pairwise fun f g => f.1 < g.1

theorem exists_partForm (part : Value)
    (h : ∀ fields, part = .object fields → FieldsSorted fields) :
    ∃ (q : PartForm) (s : Str), part = q.fill s := by
  cases htext : textPart part with
  | none => exact ⟨.fixed part htext, [], rfl⟩
  | some s =>
      have hget := htext
      unfold textPart at hget
      by_cases hty : part.getStr (lit "type") = some (lit "text")
      · rw [if_pos hty] at hget
        cases part with
        | object fields =>
            rcases Value.eq_around_of_lookupField (lookupField_of_getStr hget) with
              ⟨before, after, rfl, -⟩
            have hbefore : ∀ f ∈ before, f.1 < lit "text" := fun f hf =>
              (List.pairwise_append.mp (h _ rfl)).2.2 f hf _ List.mem_cons_self
            have hne : lit "text" ≠ lit "type" := by decide
            have htype := lookupField_of_getStr hty
            rw [Value.lookupField_around_ne hne] at htype
            exact ⟨.text before after hbefore htype, s, rfl⟩
        | _ => simp only [Value.getStr, Value.get, Option.bind_none, reduceCtorEq] at hget
      · rw [if_neg hty] at hget
        exact absurd hget.symm (Option.some_ne_none s)

/-- Elements that are all made from something are made from a list of it. -/
theorem exists_mapIdx {α β γ : Type} (f : α → β → γ) : ∀ (l : List γ),
    (∀ x ∈ l, ∃ a b, x = f a b) → Nonempty β →
    ∃ (as : List α) (bs : Nat → β), l = as.mapIdx fun i a => f a (bs i) := by
  intro l
  induction l with
  | nil => exact fun _ hb => ⟨[], fun _ => hb.some, rfl⟩
  | cons x l ih =>
      intro h hb
      rcases h x List.mem_cons_self with ⟨a, b, rfl⟩
      rcases ih (fun y hy => h y (List.mem_cons_of_mem _ hy)) hb with ⟨as, bs, rfl⟩
      refine ⟨a :: as, fun n => if n = 0 then b else bs (n - 1), ?_⟩
      rw [List.mapIdx_cons]
      rfl

theorem exists_messageForm (msg : Value)
    (h : ∀ parts, msg.get (lit "content") = some (.array parts) →
      ∀ fields, Value.object fields ∈ parts → FieldsSorted fields) :
    ∃ (m : MessageForm) (g : Option Nat → Str), msg = m.fill g := by
  cases hget : msg.get (lit "content") with
  | none =>
      exact ⟨.fixed msg fun i => by simp only [collectMessage, hget], fun _ => [], rfl⟩
  | some content =>
      cases msg with
      | object fields =>
          rcases Value.eq_around_of_lookupField hget with ⟨before, after, rfl, hbefore⟩
          cases content with
          | string s => exact ⟨.plain before after hbefore, fun _ => s, rfl⟩
          | array parts =>
              rcases exists_mapIdx (fun (q : PartForm) s => q.fill s) parts (fun part hpart =>
                exists_partForm part fun fields he =>
                  h parts hget fields (by rwa [← he])) ⟨[]⟩ with ⟨ps, bs, rfl⟩
              exact ⟨.parts before after hbefore ps, fun p => bs (p.getD 0), rfl⟩
          | _ => exact ⟨.fixed _ fun i => by simp only [collectMessage, hget, Value.asStr,
              Value.asArray], fun _ => [], rfl⟩
      | _ => simp only [Value.get, reduceCtorEq] at hget

/-- No place comes twice. -/
theorem MessageForm.places_nodup (m : MessageForm) : m.places.Nodup := by
  cases m with
  | fixed msg _ => exact List.nodup_nil
  | plain before after hbefore => exact List.nodup_singleton none
  | parts before after hbefore ps =>
      rw [places, List.Nodup, List.pairwise_filterMap]
      have hlt : (ps.zipIdx.map Prod.snd).Pairwise (· < ·) := by
        rw [List.zipIdx_map_snd]
        exact List.pairwise_lt_range'
      refine (List.pairwise_map.mp hlt).imp ?_
      rintro ⟨q, i⟩ ⟨q', i'⟩ hii p hp p' hp'
      dsimp only at hp hp' hii
      by_cases hq : q.hasText = true
      · by_cases hq' : q'.hasText = true
        · rw [if_pos hq, Option.some.injEq] at hp
          rw [if_pos hq', Option.some.injEq] at hp'
          rw [← hp, ← hp', ne_eq, Option.some.injEq]
          exact Nat.ne_of_lt hii
        · rw [if_neg hq'] at hp'
          exact absurd hp'.symm (Option.some_ne_none p')
      · rw [if_neg hq] at hp
        exact absurd hp.symm (Option.some_ne_none p)

theorem BodyForm.places_nodup {field : Str} (F : BodyForm field) : F.places.Nodup := by
  rw [places, List.nodup_flatMap]
  constructor
  · rintro ⟨m, i⟩ _
    exact m.places_nodup.map fun p p' he => (Prod.mk.inj he).2
  · have hlt : (F.messages.zipIdx.map Prod.snd).Pairwise (· < ·) := by
      rw [List.zipIdx_map_snd]
      exact List.pairwise_lt_range'
    refine (List.pairwise_map.mp hlt).imp ?_
    rintro ⟨m, i⟩ ⟨m', i'⟩ hii x hx hx'
    rcases List.mem_map.mp hx with ⟨p, -, rfl⟩
    rcases List.mem_map.mp hx' with ⟨p', -, he⟩
    exact Nat.ne_of_gt hii (Prod.mk.inj he).1

/-- Every body with messages is a form with its texts. -/
theorem exists_bodyForm (field : Str) (fields : List (Str × Value)) (msgs : List Value)
    (hmsgs : (Value.object fields).getArray field = some msgs)
    (hsorted : ∀ msg ∈ msgs, ∀ parts, msg.get (lit "content") = some (.array parts) →
      ∀ part, Value.object part ∈ parts → FieldsSorted part) :
    ∃ (F : BodyForm field) (g : Place → Str), Value.object fields = F.fill g := by
  rcases Value.eq_around_of_lookupField (lookupField_of_getArray hmsgs) with
    ⟨before, after, rfl, hbefore⟩
  rcases exists_mapIdx (fun (m : MessageForm) g => m.fill g) msgs
    (fun msg hmsg => exists_messageForm msg (hsorted msg hmsg)) ⟨fun _ => []⟩ with ⟨ms, gs, rfl⟩
  exact ⟨⟨before, after, hbefore, ms⟩, fun p => gs p.1 p.2, rfl⟩

/-- The collected texts of a form. -/
def BodyForm.entries {field : Str} (F : BodyForm field) (g : Place → Str) :
    List MessageTextEntry :=
  F.places.map fun p => ⟨p.1, p.2, g p⟩

theorem BodyForm.collect_entries {field : Str} (F : BodyForm field) (g : Place → Str) :
    collectMessageTexts (F.fill g) field = F.entries g := F.collect_fill g

theorem BodyForm.entries_nonempty {field : Str} (F : BodyForm field) (g : Place → Str)
    (hne : F.places ≠ []) : ¬(F.entries g).isEmpty = true := by
  rw [List.isEmpty_iff, BodyForm.entries, List.map_eq_nil_iff]
  exact hne

section Pipeline

variable (R : Rand) (C : Chrono) (h : Hashes)

/-- A form that the pipeline comes through has been through Phase 2. -/
theorem phase2All_of_processValue (p : PiiPipeline) (provider : Provider)
    (F : BodyForm provider.messagesField) (g : Place → Str) (reads : Nat → Nat) (v : PiiVault)
    (locale : Locale) (hne : F.places ≠ []) (x : Option (Value × List PiiDetection) × PiiVault)
    (hrun : p.processValue R C h (F.fill g) reads v provider locale = some x) :
    ∃ results, p.phase2All h v.conversationId reads locale (F.entries g) 0 = some results := by
  unfold PiiPipeline.processValue at hrun
  dsimp only at hrun
  rw [F.collect_entries g, if_neg (F.entries_nonempty g hne)] at hrun
  rcases Option.bind_eq_some_iff.mp hrun with ⟨results, hresults, _⟩
  exact ⟨results, hresults⟩

/-- The pipeline on a form: Phase 3 runs over its places. -/
theorem processValue_fill (p : PiiPipeline) (provider : Provider)
    (F : BodyForm provider.messagesField) (g : Place → Str) (reads : Nat → Nat) (v : PiiVault)
    (locale : Locale) (results : List (Option EntryResult)) (hne : F.places ≠ [])
    (hphase2 : p.phase2All h v.conversationId reads locale (F.entries g) 0 = some results) :
    p.processValue R C h (F.fill g) reads v provider locale =
      if results.all Option.isNone then some (none, v)
      else (phase3 R C h v.conversationId v.mappingCount locale ((F.entries g).zip results)
        ⟨v, F.array g, [], false⟩).bind fun s =>
          if s.anyReplaced then
            some (some (.object (F.before ++ (provider.messagesField, .array s.msgs) :: F.after),
              s.detections), s.vault)
          else some (none, s.vault) := by
  unfold PiiPipeline.processValue
  dsimp only
  rw [F.collect_entries g, if_neg (F.entries_nonempty g hne), hphase2, Option.bind_eq_bind,
    Option.bind_some]
  by_cases hall : results.all Option.isNone = true
  · rw [if_pos hall, if_pos hall]
  · rw [if_neg hall, if_neg hall]
    have hget := F.getArray_fill g
    unfold BodyForm.fill at hget ⊢
    rw [hget]
    simp only [Value.modifyField_around F.hbefore, Option.bind_eq_bind]

end Pipeline

end PrivacyClaw
