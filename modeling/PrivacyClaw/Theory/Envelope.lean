import PrivacyClaw.Lib.Lens
import PrivacyClaw.Theory.Bodies
import PrivacyClaw.Theory.Delivery
import PrivacyClaw.Theory.Records

/-!
# The Envelope of a Text

The text in an event is exchanged for another one, and the rest of the event
stays. A JSON pointer is a lens: it shows the value it points to, and assigning
through it puts another one there. A pointer is a path of tokens, each token is a
lawful lens, and different tokens show different parts, as an array index has one
spelling only. So the laws of a lens hold for the text of an event.

Between two exchanges the event is printed and parsed. What is asked of the crate
is that it reads back the values that the proxy prints.

## Main definitions

* `Value.pointerLens`: A JSON pointer as a lens.
* `SerdeJson.ReadsBack`: Events are parsed as they were printed.

## Theorems

* `parseIndex_spec`: An array index has one spelling.
* `Value.pointerLens_lawful`, `Value.pointerLens_apart`: The laws of a pointer,
  and of two.
* `textDelta_lens`: The laws of the text of an event.
-/

namespace PrivacyClaw

/-- The byte of a decimal digit. -/
theorem eq_of_digitValue {b : UInt8} {d : Nat} (h : digitValue b = some d) (hd : d < 10) :
    b = UInt8.ofNat (48 + d) := by
  have hlet : ∀ {lo hi : UInt8} {k : Nat}, k + 10 ≤ lo.toNat → lo ≤ b ∧ b ≤ hi →
      some (b.toNat - k) ≠ some d := by
    intro lo hi k hk hle he
    have hge := UInt8.le_iff_toNat_le.mp hle.1
    rw [Option.some.injEq] at he
    omega
  unfold digitValue at h
  by_cases h1 : 48 ≤ b ∧ b ≤ 57
  · -- the digits; letters stand for ten and more
    have hge : 48 ≤ b.toNat := UInt8.le_iff_toNat_le.mp h1.1
    rw [if_pos h1, Option.some.injEq] at h
    rw [show 48 + d = b.toNat by omega, UInt8.ofNat_toNat]
  · rw [if_neg h1] at h
    by_cases h2 : 97 ≤ b ∧ b ≤ 122
    · rw [if_pos h2] at h
      exact absurd h (hlet (by decide) h2)
    · rw [if_neg h2] at h
      by_cases h3 : 65 ≤ b ∧ b ≤ 90
      · rw [if_pos h3] at h
        exact absurd h (hlet (by decide) h3)
      · rw [if_neg h3] at h
        exact absurd h (by simp only [reduceCtorEq, not_false_eq_true])

/-- A text that is read as a decimal number, without leading zeros, is the printed
    number. -/
theorem decimal_of_digitsFrom (s : Str) : ∀ n, s ≠ [] → (s.head? = some 48 → s.length = 1) →
    digitsFrom 10 0 s = some n → s = decimal n := by
  induction s using List.reverseRecOn with
  | nil => intro n h _ _; exact absurd rfl h
  | append_singleton l b ih =>
      intro n _ hzero h
      rw [Storage.digitsFrom_append, Option.bind_eq_some_iff] at h
      rcases h with ⟨m, hm, hb⟩
      rw [digitsFrom] at hb
      cases hd : digitValue b with
      | none =>
          rw [hd] at hb
          exact absurd hb (by simp only [reduceCtorEq, not_false_eq_true])
      | some d =>
          rw [hd] at hb
          dsimp only at hb
          by_cases hlt : d < 10 ∧ m * 10 + d < 2 ^ 64
          · rw [if_pos hlt, digitsFrom, Option.some.injEq] at hb
            rw [eq_of_digitValue hd hlt.1, decimal_eq]
            cases l with
            -- a single digit
            | nil =>
                rw [digitsFrom, Option.some.injEq] at hm
                rw [if_pos (by omega), List.nil_append, show n = d by omega]
            | cons c r =>
                -- the number in front begins with the same digit, which is no zero
                have hhead : c ≠ 48 := fun hc => by
                  have h1 := hzero (by rw [hc]; rfl)
                  rw [List.length_append, List.length_cons, List.length_singleton] at h1
                  omega
                have hfront := ih m (List.cons_ne_nil c r)
                  (fun hc => absurd (Option.some.inj hc) hhead) hm
                have hpos : m ≠ 0 := fun h0 => by
                  rw [h0, show decimal 0 = [48] by decide, List.cons.injEq] at hfront
                  exact hhead hfront.1
                rw [if_neg (by omega), hfront, show n / 10 = m by omega, show n % 10 = d by omega]
          · rw [if_neg hlt] at hb
            exact absurd hb (by simp only [reduceCtorEq, not_false_eq_true])

namespace Value

/-- An array index has one spelling. -/
theorem parseIndex_spec (token : Str) (i : Nat) (h : parseIndex token = some i) :
    token = decimal i := by
  unfold parseIndex at h
  by_cases hbad : token.head? = some 43 ∨ (token.head? = some 48 ∧ token.length ≠ 1)
  · rw [if_pos hbad] at h
    exact absurd h (by simp only [reduceCtorEq, not_false_eq_true])
  · rw [if_neg hbad] at h
    rw [not_or, not_and, not_not] at hbad
    cases token with
    | nil => exact absurd h (by simp only [fromStrRadix, reduceCtorEq, not_false_eq_true])
    | cons b r =>
        have hsign : b ≠ 43 := fun hb => hbad.1 (by rw [hb]; rfl)
        refine decimal_of_digitsFrom (b :: r) i (List.cons_ne_nil b r) hbad.2 ?_
        rw [← h, fromStrRadix]
        · exact List.cons_ne_nil b r
        · exact fun he => hsign (List.cons.inj he).1
        · exact fun _ he => hsign (List.cons.inj he).1

/-- A JSON pointer as a lens. -/
def pointerLens (path : List Str) : Lens Value Value where
  get := pointer path
  put new := setPointer new path

/-- Only the value that is there counts for a change. -/
theorem modifyField_congr (key : Str) {f g : Value → Value} (fields : List (Str × Value))
    (h : ∀ v, lookupField key fields = some v → f v = g v) :
    modifyField key f fields = modifyField key g fields := by
  induction fields with
  | nil => rfl
  | cons kw fields ih =>
      rcases kw with ⟨k, w⟩
      simp only [lookupField] at h
      rw [modifyField, modifyField]
      by_cases hk : k = key
      · rw [if_pos hk, if_pos hk, h w (if_pos hk)]
      · rw [if_neg hk] at h
        rw [if_neg hk, if_neg hk, ih h]

theorem modifyField_id (key : Str) (fields : List (Str × Value)) :
    modifyField key id fields = fields := by
  induction fields with
  | nil => rfl
  | cons kw fields ih =>
      rcases kw with ⟨k, w⟩
      rw [modifyField, ih]
      exact ite_self _

/-- Putting back what is there. -/
theorem modifyField_self (key : Str) (v : Value) (fields : List (Str × Value))
    (h : lookupField key fields = some v) : modifyField key (fun _ => v) fields = fields :=
  (modifyField_congr key fields fun _ hw => Option.some.inj (h.symm.trans hw)).trans
    (modifyField_id key fields)

theorem modifyField_some (key : Str) (f : Value → Value) (v : Value)
    (fields : List (Str × Value)) (h : lookupField key fields = some v) :
    modifyField key f fields = modifyField key (fun _ => f v) fields :=
  modifyField_congr key fields fun _ hw => congrArg f (Option.some.inj (hw.symm.trans h))

theorem modifyField_none (key : Str) (f : Value → Value) (fields : List (Str × Value))
    (h : lookupField key fields = none) : modifyField key f fields = fields :=
  (modifyField_congr key fields fun w hw => absurd (hw.symm.trans h) (Option.some_ne_none w)).trans
    (modifyField_id key fields)

section Modify

variable {α : Type} (items : List α) (i : Nat)

theorem modify_congr {f g : α → α} (h : ∀ x, items[i]? = some x → f x = g x) :
    items.modify i f = items.modify i g := by
  refine List.ext_getElem? fun j => ?_
  by_cases hij : i = j
  · rw [← hij, List.getElem?_modify_eq, List.getElem?_modify_eq]
    exact Option.map_congr h
  · rw [List.getElem?_modify_ne _ _ hij, List.getElem?_modify_ne _ _ hij]

theorem modify_self (x : α) (h : items[i]? = some x) : (items.modify i fun _ => x) = items :=
  (modify_congr items i fun _ hy => Option.some.inj (h.symm.trans hy)).trans (List.modify_id i items)

theorem modify_some (f : α → α) (x : α) (h : items[i]? = some x) :
    items.modify i f = items.modify i fun _ => f x :=
  modify_congr items i fun _ hy => congrArg f (Option.some.inj (hy.symm.trans h))

theorem modify_none (f : α → α) (h : items[i]? = none) : items.modify i f = items :=
  (modify_congr items i fun y hy => absurd (hy.symm.trans h) (Option.some_ne_none y)).trans
    (List.modify_id i items)

end Modify

theorem pointer_cons (token : Str) (path : List Str) (v : Value) :
    pointer (token :: path) v = (pointer [token] v).bind (pointer path) := by
  cases v with
  | object fields => simp only [pointer, Option.bind_fun_some]
  | array items => simp only [pointer, Option.bind_fun_some]
  | _ => rfl

theorem pointer_array_none {token : Str} (items : List Value) (h : parseIndex token = none) :
    pointer [token] (.array items) = none := by
  rw [pointer, h]
  rfl

theorem pointer_array_some {token : Str} (items : List Value) {i : Nat}
    (h : parseIndex token = some i) : pointer [token] (.array items) = items[i]? := by
  rw [pointer, h, Option.bind_some]
  exact Option.bind_fun_some _

theorem pointer_object (token : Str) (fields : List (Str × Value)) :
    pointer [token] (.object fields) = lookupField token fields := Option.bind_fun_some _

theorem setPointer_cons (new : Value) (token : Str) (path : List Str) (v : Value) :
    setPointer new (token :: path) v =
      ((pointerLens [token]).comp (pointerLens path)).put new v := by
  -- where the token points to nothing, nothing is assigned
  cases hx : pointer [token] v with
  | none =>
      rw [Lens.put_comp_none (pointerLens [token]) (pointerLens path) hx]
      cases v with
      | object fields =>
          rw [pointer_object] at hx
          rw [setPointer, modifyField_none token _ fields hx]
      | array items =>
          cases hi : parseIndex token with
          | none => simp only [setPointer, hi]
          | some i =>
              rw [pointer_array_some items hi] at hx
              simp only [setPointer, hi, modify_none items i _ hx]
      | _ => rfl
  | some x =>
      rw [Lens.put_comp_some (pointerLens [token]) (pointerLens path) hx]
      cases v with
      | object fields =>
          rw [pointer_object] at hx
          rw [setPointer, modifyField_some token _ x fields hx]
          rfl
      | array items =>
          cases hi : parseIndex token with
          | none =>
              rw [pointer_array_none items hi] at hx
              exact absurd hx.symm (Option.some_ne_none x)
          | some i =>
              rw [pointer_array_some items hi] at hx
              simp only [setPointer, pointerLens, hi, modify_some items i _ x hx]
      | _ => exact absurd hx.symm (Option.some_ne_none x)

/-- A pointer is a path of tokens. -/
theorem pointerLens_eq : ∀ path, pointerLens path =
    Lens.along (fun token => pointerLens [token]) path := by
  intro path
  induction path with
  | nil => rfl
  | cons token path ih =>
      rw [Lens.along, ← ih]
      change Lens.mk _ _ = Lens.mk _ _
      rw [Lens.mk.injEq]
      exact ⟨funext (pointer_cons token path),
        funext fun new => funext (setPointer_cons new token path)⟩

/-- One token is a lawful lens. -/
theorem token_lawful (token : Str) : (pointerLens [token]).Lawful where
  get_put := fun {v w} new h => pointer_setPointer new [token] v w h
  put_get := by
    intro v w h
    change pointer [token] v = some w at h
    cases v with
    | object fields =>
        rw [pointer_object] at h
        exact congrArg Value.object (modifyField_self token w fields h)
    | array items =>
        cases hi : parseIndex token with
        | none =>
            rw [pointer_array_none items hi] at h
            exact absurd h.symm (Option.some_ne_none w)
        | some i =>
            rw [pointer_array_some items hi] at h
            simp only [pointerLens, setPointer, hi]
            exact congrArg Value.array (modify_self items i w h)
    | _ => exact absurd h.symm (Option.some_ne_none w)
  put_put := by
    intro v b c
    cases v with
    | object fields => exact congrArg Value.object (modifyField_modifyField token b c fields)
    | array items =>
        cases hi : parseIndex token with
        | none => simp only [pointerLens, setPointer, hi]
        | some i =>
            simp only [pointerLens, setPointer, hi, List.modify_modify_eq]
            rfl
    | _ => rfl
  missing := by
    intro v b h
    change pointer [token] v = none at h
    cases v with
    | object fields =>
        rw [pointer_object] at h
        exact congrArg Value.object (modifyField_none token _ fields h)
    | array items =>
        cases hi : parseIndex token with
        | none => simp only [pointerLens, setPointer, hi]
        | some i =>
            rw [pointer_array_some items hi] at h
            simp only [pointerLens, setPointer, hi, modify_none items i _ h]
    | _ => rfl

/-- Different tokens show different parts. -/
theorem token_apart (token other : Str) (hne : token ≠ other) :
    Lens.Apart (pointerLens [token]) (pointerLens [other]) := by
  intro new v
  change pointer [other] (setPointer new [token] v) = pointer [other] v
  cases v with
  | object fields =>
      rw [setPointer, pointer_object, pointer_object,
        lookupField_modifyField_ne token other _ _ (Ne.symm hne)]
  | array items =>
      cases hi : parseIndex token with
      | none => simp only [setPointer, hi]
      | some i =>
          simp only [setPointer, hi]
          cases hj : parseIndex other with
          | none => rw [pointer_array_none _ hj, pointer_array_none _ hj]
          | some j =>
              -- the same index would have the same spelling
              have hij : i ≠ j := fun he =>
                hne (by rw [parseIndex_spec token i hi, parseIndex_spec other j hj, he])
              rw [pointer_array_some _ hj, pointer_array_some _ hj, List.getElem?_modify_ne _ _ hij]
  | _ => rfl

/-- A pointer obeys the laws. -/
theorem pointerLens_lawful (path : List Str) : (pointerLens path).Lawful := by
  rw [pointerLens_eq]
  exact Lens.Lawful.along token_lawful path

/-- Pointers of which neither goes on from the other do not touch. -/
theorem pointerLens_apart (path other : List Str) (h : ¬ path <+: other) (h' : ¬ other <+: path) :
    Lens.Apart (pointerLens path) (pointerLens other) := by
  rw [pointerLens_eq, pointerLens_eq]
  exact Lens.Apart.along token_lawful token_apart path other h h'

end Value

/-- The crate reads back what it prints for an event whose text was exchanged. -/
def SerdeJson.ReadsBack (J : SerdeJson) (provider : Provider) : Prop :=
  ∀ data v path text, J.fromStr data = some v → textDeltaPointer provider = some path →
    J.fromStr (J.toStr (Value.setPointer (.string text) path v)) =
      some (Value.setPointer (.string text) path v)

section Laws

variable {J : SerdeJson} {provider : Provider} {data : Str} {v : Value} {path : List Str}
  (hv : J.fromStr data = some v) (hpath : textDeltaPointer provider = some path)
include hv hpath

theorem replaceTextDelta_eq (text : Str) : replaceTextDelta J provider data text =
    J.toStr (Value.setPointer (.string text) path v) := by
  simp only [replaceTextDelta, hv, hpath]

theorem fromStr_replaceTextDelta (hJ : J.ReadsBack provider) (text : Str) :
    J.fromStr (replaceTextDelta J provider data text) =
      some (Value.setPointer (.string text) path v) := by
  rw [replaceTextDelta_eq hv hpath, hJ data v path text hv hpath]

/-- The last of two texts stands. -/
theorem replaceTextDelta_twice (hJ : J.ReadsBack provider) (first last : Str) :
    replaceTextDelta J provider (replaceTextDelta J provider data first) last =
      replaceTextDelta J provider data last := by
  have hlast := (Value.pointerLens_lawful path).put_put v (.string first) (.string last)
  rw [replaceTextDelta_eq (fromStr_replaceTextDelta hv hpath hJ first) hpath,
    replaceTextDelta_eq hv hpath]
  exact congrArg J.toStr hlast

end Laws

/-- The text of an event is a lawful part of it. What is put in its place is there
    and is the last to stand; the text itself put in its place leaves the value of
    the event as it was; and what other pointers show of the event does not
    change. -/
theorem textDelta_lens (J : SerdeJson) (provider : Provider) (hJ : J.ReadsBack provider)
    (data text new : Str) (h : extractTextDelta J provider data = some text) :
    extractTextDelta J provider (replaceTextDelta J provider data new) = some new ∧
    (∀ last, replaceTextDelta J provider (replaceTextDelta J provider data new) last =
      replaceTextDelta J provider data last) ∧
    J.fromStr (replaceTextDelta J provider data text) = J.fromStr data ∧
    ∃ v v' path, J.fromStr data = some v ∧
      J.fromStr (replaceTextDelta J provider data new) = some v' ∧
      textDeltaPointer provider = some path ∧
      ∀ other, ¬ path <+: other → ¬ other <+: path → v'.pointer other = v.pointer other := by
  rcases extractTextDelta_eq_some.mp h with ⟨v, path, hv, hdelta, hpath, htext⟩
  rcases Option.bind_eq_some_iff.mp htext with ⟨x, hx, hstr⟩
  have hlaws := Value.pointerLens_lawful path
  have hprinted := fromStr_replaceTextDelta hv hpath hJ
  refine ⟨?_, replaceTextDelta_twice hv hpath hJ new, ?_, v, _, path, hv, hprinted new, hpath, ?_⟩
  · refine extractTextDelta_eq_some.mpr ⟨_, path, hprinted new, ?_, hpath, ?_⟩
    · rw [isTextDelta_setPointer _ _ _ hpath, hdelta]
    · have hget : (Value.setPointer (.string new) path v).pointer path = some (.string new) :=
        hlaws.get_put (.string new) hx
      rw [strAt, hget]
      rfl
  · -- what is there is a string, and the text is all of it
    have hsame : x = .string text := by
      cases x <;> simp only [Value.asStr, reduceCtorEq, Option.some.injEq] at hstr
      rw [hstr]
    have hput : Value.setPointer (.string text) path v = v := by
      rw [← hsame]
      exact hlaws.put_get hx
    rw [hprinted text, hput, hv]
  · exact fun other hp hq => Value.pointerLens_apart path other hp hq (.string new) v

theorem plainJson_readsBack : plainJson.ReadsBack .anthropic := by
  intro data w path text hw hpath
  cases hpath
  rcases (plainJson_cases data w hw).2 with ⟨t, rfl⟩ | rfl | rfl
  · exact plainJson_text text
  · rfl
  · rfl

/-- An event of a response: the text is exchanged, and the type of the event is
    among what is not. -/
theorem textDelta_lens_hello :
    extractTextDelta plainJson .anthropic
        (replaceTextDelta plainJson .anthropic (textHead ++ (lit "Hello" ++ textTail)) (lit "Bye")) =
          some (lit "Bye") ∧
    (∀ last, replaceTextDelta plainJson .anthropic
        (replaceTextDelta plainJson .anthropic (textHead ++ (lit "Hello" ++ textTail)) (lit "Bye"))
          last =
      replaceTextDelta plainJson .anthropic (textHead ++ (lit "Hello" ++ textTail)) last) ∧
    plainJson.fromStr (replaceTextDelta plainJson .anthropic
        (textHead ++ (lit "Hello" ++ textTail)) (lit "Hello")) =
      plainJson.fromStr (textHead ++ (lit "Hello" ++ textTail)) ∧
    ∃ v v' path, plainJson.fromStr (textHead ++ (lit "Hello" ++ textTail)) = some v ∧
      plainJson.fromStr (replaceTextDelta plainJson .anthropic
        (textHead ++ (lit "Hello" ++ textTail)) (lit "Bye")) = some v' ∧
      textDeltaPointer .anthropic = some path ∧
      ∀ other, ¬ path <+: other → ¬ other <+: path → v'.pointer other = v.pointer other :=
  textDelta_lens plainJson .anthropic plainJson_readsBack (textHead ++ (lit "Hello" ++ textTail))
    (lit "Hello") (lit "Bye")
    (extractTextDelta_eq_some.mpr ⟨_, _, plainJson_text (lit "Hello"), rfl, rfl, rfl⟩)

end PrivacyClaw
