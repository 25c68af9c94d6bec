import Mathlib.Data.List.Infix
import PrivacyClaw.Core.Store
import PrivacyClaw.Theory.Persistence
import PrivacyClaw.Theory.Trimming

/-!
# Markers in Printed JSON

Where the text `"type":"…"` can stand in a printed value.

The store finds the lines of the vault and of the detections by searching for
such a text. A string that is printed has its quotes escaped, so inside one
the text cannot stand: a quote that is not the last one has a backslash before
it, what follows up to the next quote is then the rest of the string, and
behind the closing quote of a value there is no colon (`lookFor_quoted`). So it
stands only where a field of that name and value was printed (`Silent.fields`).

## Main definitions

* `escape`: One byte of a printed string.
* `marker`: The text for a record type.
* `Ends`: What can follow a printed value.
* `Silent`: Printing the value does not add the marker to a text.
* `WholeLine`: A line as the writers leave it.
* `Quiet`, `Typed`: A value without markers, and one with the marker of its type.

## Theorems

* `prefix_escaped`: A plain text with a quote behind it, read in a string.
* `Silent.string`, `Silent.number`, `Silent.array`, `Silent.object`: The values
  that do not add it.
* `Quiet.object`, `Typed.object`: An object by its fields.
-/

namespace PrivacyClaw

namespace Storage

/-- What a byte of a string is printed as. -/
def escape (b : UInt8) : Str := (Value.quoted [b]).tail.dropLast

/-- A byte that is printed as itself. -/
def PlainByte (b : UInt8) : Prop := b ≠ 34 ∧ b ≠ 92

instance (b : UInt8) : Decidable (PlainByte b) := inferInstanceAs (Decidable (_ ∧ _))

/-- The text a line of a record type is recognised by. -/
def marker (recordType : Str) : Str := 34 :: (lit "type" ++ 34 :: 58 :: 34 :: (recordType ++ [34]))

theorem plain_type : ∀ b ∈ lit "type", PlainByte b := List.forall_iff_forall_mem.mp (by decide)

theorem plain_vault : ∀ b ∈ lit "vault", PlainByte b := List.forall_iff_forall_mem.mp (by decide)

theorem plain_detection : ∀ b ∈ lit "detection", PlainByte b :=
  List.forall_iff_forall_mem.mp (by decide)

theorem vaultMarker_eq : vaultMarker = marker (lit "vault") := by decide

theorem detectionMarker_eq : detectionMarker = marker (lit "detection") := by decide

/-- A printed string, byte by byte. -/
theorem quoted_eq (s : Str) : Value.quoted s = 34 :: (s.flatMap escape ++ [34]) := by
  have hone : ∀ b, escape b = ((Value.quoted [b]).tail).dropLast := fun _ => rfl
  unfold Value.quoted at hone ⊢
  have hq : lit "\"" = [34] := by decide
  simp only [hq, List.flatMap_cons, List.flatMap_nil, List.append_nil, List.cons_append,
    List.nil_append, List.tail_cons, List.dropLast_concat] at hone ⊢
  rw [funext hone]

/-- A byte is printed as itself, or with a backslash, and then no quote is in
    it or it is the quote. -/
theorem escape_cases (b : UInt8) :
    (escape b = [b] ∧ PlainByte b) ∨
      ∃ r, escape b = 92 :: r ∧ (r = [34] ∨ 34 ∉ r) := by
  have hall : ∀ n : Fin 256, (escape (UInt8.ofNat n) = [UInt8.ofNat n] ∧
        PlainByte (UInt8.ofNat n)) ∨
      ((escape (UInt8.ofNat n)).head? = some 92 ∧
        ((escape (UInt8.ofNat n)).tail = [34] ∨ 34 ∉ (escape (UInt8.ofNat n)).tail)) := by
    decide +kernel
  have h := hall ⟨b.toNat, b.toNat_lt⟩
  simp only [UInt8.ofNat_toNat] at h
  refine h.imp_right fun ⟨hhead, htail⟩ => ?_
  cases he : escape b with
  | nil =>
      rw [he] at hhead
      exact absurd hhead (by simp only [List.head?_nil, reduceCtorEq, not_false_eq_true])
  | cons c r =>
      rw [he, List.head?_cons, Option.some.injEq] at hhead
      rw [he, List.tail_cons] at htail
      exact ⟨r, by rw [hhead], htail⟩

/-- A plain text up to a quote, where a printed string goes on: it is the rest
    of the string, and the quote is the closing one. -/
theorem prefix_escaped : ∀ (w : Str), (∀ b ∈ w, PlainByte b) → ∀ (s r t : Str),
    w ++ 34 :: r <+: s.flatMap escape ++ 34 :: t → s = w ∧ r <+: t := by
  intro w
  induction w with
  | nil =>
      intro _ s r t h
      cases s with
      | nil => exact ⟨rfl, (List.cons_prefix_cons.mp h).2⟩
      | cons b s =>
          rw [List.flatMap_cons] at h
          rcases escape_cases b with ⟨he, hb⟩ | ⟨u, he, _⟩
          · rw [he] at h
            exact absurd (List.cons_prefix_cons.mp h).1.symm hb.1
          · rw [he] at h
            exact absurd (List.cons_prefix_cons.mp h).1 (by decide)
  | cons c w ih =>
      intro hw s r t h
      have hc := hw c List.mem_cons_self
      cases s with
      | nil => exact absurd (List.cons_prefix_cons.mp h).1 hc.1
      | cons b s =>
          rw [List.flatMap_cons] at h
          rcases escape_cases b with ⟨he, _⟩ | ⟨u, he, _⟩
          · rw [he] at h
            rcases List.cons_prefix_cons.mp h with ⟨rfl, hrest⟩
            rcases ih (fun b hb => hw b (List.mem_cons_of_mem _ hb)) s r t hrest with ⟨rfl, hr⟩
            exact ⟨rfl, hr⟩
          · rw [he] at h
            exact absurd (List.cons_prefix_cons.mp h).1 hc.2

/-- What can follow a printed value: the end, a comma or a closing bracket. -/
def Ends (t : Str) : Prop := ∀ c, t.head? = some c → c = 44 ∨ c = 93 ∨ c = 125

theorem Ends.nil : Ends [] := fun _ hc => absurd hc (by simp only [List.head?_nil, reduceCtorEq,
  not_false_eq_true])

theorem Ends.cons {c : UInt8} (hc : c = 44 ∨ c = 93 ∨ c = 125) (t : Str) : Ends (c :: t) := by
  intro d hd
  rw [List.head?_cons, Option.some.injEq] at hd
  exact hd ▸ hc

/-- What comes behind a value does not start with the given byte. -/
theorem Ends.not_start {t : Str} (ht : Ends t) {c : UInt8} (hc : ¬ (c = 44 ∨ c = 93 ∨ c = 125))
    (r : Str) : ¬ c :: r <+: t := by
  intro h
  cases t with
  | nil => exact absurd (List.prefix_nil.mp h) (List.cons_ne_nil _ _)
  | cons d t => exact hc (ht c (by rw [List.head?_cons, (List.cons_prefix_cons.mp h).1]))

section Marker

variable {w : Str}

/-- Without a quote there is no marker. -/
theorem marker_skip : ∀ (r u : Str), 34 ∉ r → marker w <:+: r ++ u → marker w <:+: u := by
  intro r
  induction r with
  | nil => intro u _ h; exact h
  | cons c r ih =>
      intro u hr h
      rw [List.cons_append, List.infix_cons_iff] at h
      rcases h with h | h
      · exact absurd ((List.cons_prefix_cons.mp h).1 ▸ List.mem_cons_self) hr
      · exact ih u (fun hm => hr (List.mem_cons_of_mem _ hm)) h

/-- At a quote the marker starts there or later. -/
theorem marker_quote {u : Str} (h : marker w <:+: 34 :: u) :
    lit "type" ++ 34 :: 58 :: 34 :: (w ++ [34]) <+: u ∨ marker w <:+: u := by
  rw [List.infix_cons_iff] at h
  exact h.imp_left fun h => (List.cons_prefix_cons.mp h).2

/-- The name of the marker's field, where a string goes on: a colon comes after
    the string. -/
theorem type_rest {s t : Str}
    (h : lit "type" ++ 34 :: 58 :: 34 :: (w ++ [34]) <+: s.flatMap escape ++ 34 :: t) :
    s = lit "type" ∧ 58 :: 34 :: (w ++ [34]) <+: t :=
  prefix_escaped _ plain_type s _ t h

/-- Behind the closing quote of a string the marker does not start. -/
theorem marker_closed {t : Str} (ht : ¬ 116 :: (lit "ype" ++ 34 :: 58 :: 34 :: (w ++ [34])) <+: t)
    (h : marker w <:+: 34 :: t) : marker w <:+: t :=
  (marker_quote h).resolve_left ht

variable (w) in
/-- Printing the value in front of a text does not add the marker to it. -/
def Silent (v : Value) : Prop :=
  ∀ t, Ends t → marker w <:+: v.compact ++ t → marker w <:+: t

/-- In the rest of a string there is no marker, as no colon follows. -/
theorem marker_escaped : ∀ (s t : Str), Ends t →
    marker w <:+: s.flatMap escape ++ 34 :: t → marker w <:+: t := by
  intro s
  induction s with
  | nil => intro t ht h; exact marker_closed (ht.not_start (by decide) _) h
  | cons b s ih =>
      intro t ht h
      rw [List.flatMap_cons, List.append_assoc] at h
      rcases escape_cases b with ⟨he, hb⟩ | ⟨r, he, hr | hr⟩
      · rw [he] at h
        exact ih t ht (marker_skip [b] _ (by rw [List.mem_singleton]; exact fun h => hb.1 h.symm) h)
      · rw [he, hr] at h
        have h := marker_skip [92] _ (by decide) h
        rcases marker_quote h with h | h
        -- from the escaped quote on, the name could only be the whole rest
        · exact absurd (type_rest h).2 (ht.not_start (by decide) _)
        · exact ih t ht h
      · rw [he] at h
        refine ih t ht (marker_skip (92 :: r) _ ?_ h)
        rw [List.mem_cons, not_or]
        exact ⟨by decide, hr⟩

theorem Silent.string (s : Str) : Silent w (.string s) := by
  intro t ht h
  rw [Value.compact, quoted_eq, List.cons_append, List.append_assoc] at h
  rcases marker_quote h with h | h
  · exact absurd (type_rest h).2 (ht.not_start (by decide) _)
  · exact marker_escaped s t ht h

theorem Silent.number {lexeme : Str} (hl : 34 ∉ lexeme) : Silent w (.number lexeme) := by
  intro t _ h
  rw [Value.compact] at h
  exact marker_skip lexeme t hl h

theorem Silent.null : Silent w .null := by
  intro t _ h
  rw [Value.compact] at h
  exact marker_skip _ t (by decide) h

theorem Silent.bool (b : Bool) : Silent w (.bool b) := by
  intro t _ h
  rw [Value.compact] at h
  cases b with
  | false => exact marker_skip _ t (by decide) h
  | true => exact marker_skip _ t (by decide) h

theorem Silent.nullable {β : Type} {value : β → Value} (hv : ∀ x, Silent w (value x)) :
    ∀ x : Option β, Silent w (nullable value x)
  | none => Silent.null
  | some x => hv x

theorem marker_items : ∀ vs : List Value, (∀ v ∈ vs, Silent w v) → ∀ t, Ends t →
    marker w <:+: Value.compactItems vs ++ t → marker w <:+: t := by
  intro vs
  induction vs with
  | nil => intro _ t _ h; exact h
  | cons v vs ih =>
      intro hvs t ht h
      have hv := hvs v List.mem_cons_self
      cases vs with
      | nil =>
          rw [Value.compactItems] at h
          exact hv t ht h
      | cons v' vs =>
          rw [Value.compactItems, List.append_assoc, List.append_assoc] at h
          have h := hv _ (Ends.cons (Or.inl rfl) _) h
          exact ih (fun x hx => hvs x (List.mem_cons_of_mem _ hx)) t ht
            (marker_skip (lit ",") _ (by decide) h)

theorem Silent.array {vs : List Value} (hvs : ∀ v ∈ vs, Silent w v) : Silent w (.array vs) := by
  intro t ht h
  rw [Value.compact, List.append_assoc, List.append_assoc] at h
  have h := marker_skip (lit "[") _ (by decide) h
  exact marker_skip (lit "]") t (by decide)
    (marker_items vs hvs _ (Ends.cons (Or.inr (Or.inl rfl)) t) h)

variable (w) in
/-- A field that is not the marker's: its value does not add the marker, and if
    it has the name then the value is another string. -/
structure SilentField (f : Str × Value) : Prop where
  plain : ∀ b ∈ f.1, b ≠ 34 ∧ escape b = [b]
  value : Silent w f.2
  other : f.1 = lit "type" → ∃ s, f.2 = .string s ∧ s ≠ w

/-- A plain key is printed between quotes. -/
theorem escaped_plain : ∀ k : Str, (∀ b ∈ k, b ≠ 34 ∧ escape b = [b]) → k.flatMap escape = k := by
  intro k
  induction k with
  | nil => intro _; rfl
  | cons c k ih =>
      intro hk
      rw [List.flatMap_cons, (hk c List.mem_cons_self).2,
        ih fun b hb => hk b (List.mem_cons_of_mem _ hb)]
      rfl

theorem escaped_type : ∀ b ∈ lit "type", b ≠ 34 ∧ escape b = [b] :=
  List.forall_iff_forall_mem.mp (by decide)

/-- A field in front of what follows its value. -/
theorem SilentField.skip (hw : ∀ b ∈ w, PlainByte b) {k : Str} {v : Value}
    (hf : SilentField w (k, v)) (t : Str) (ht : Ends t)
    (h : marker w <:+: Value.quoted k ++ lit ":" ++ v.compact ++ t) : marker w <:+: t := by
  rw [quoted_eq, List.cons_append, List.cons_append, List.cons_append, List.append_assoc,
    List.append_assoc, List.append_assoc] at h
  rcases marker_quote h with h | h
  · rcases type_rest h with ⟨hk, hval⟩
    rcases hf.other hk with ⟨s, rfl, hs⟩
    rw [Value.compact, quoted_eq] at hval
    have hval := (List.cons_prefix_cons.mp hval).2
    rw [List.cons_append, List.append_assoc] at hval
    have hsame := prefix_escaped w hw s [] t (List.cons_prefix_cons.mp hval).2
    exact absurd hsame.1 hs
  · -- behind the opening quote of the name the next quote closes it
    rw [escaped_plain k hf.plain] at h
    have h := marker_skip k _ (fun hm => (hf.plain 34 hm).1 rfl) h
    have h := marker_closed (fun hp => absurd (List.cons_prefix_cons.mp hp).1 (by decide)) h
    exact hf.value t ht (marker_skip (lit ":") _ (by decide) h)

theorem marker_fields (hw : ∀ b ∈ w, PlainByte b) : ∀ fs : List (Str × Value),
    (∀ f ∈ fs, SilentField w f) → ∀ t, Ends t →
    marker w <:+: Value.compactFields fs ++ t → marker w <:+: t := by
  intro fs
  induction fs with
  | nil => intro _ t _ h; exact h
  | cons f fs ih =>
      intro hfs t ht h
      rcases f with ⟨k, v⟩
      have hf := hfs (k, v) List.mem_cons_self
      cases fs with
      | nil =>
          rw [Value.compactFields] at h
          exact hf.skip hw t ht h
      | cons g fs =>
          rw [Value.compactFields, List.append_assoc, List.append_assoc] at h
          have h := hf.skip hw _ (Ends.cons (Or.inl rfl) _) h
          exact ih (fun x hx => hfs x (List.mem_cons_of_mem _ hx)) t ht
            (marker_skip (lit ",") _ (by decide) h)

/-- An object without the field does not add the marker. -/
theorem Silent.object (hw : ∀ b ∈ w, PlainByte b) {fs : List (Str × Value)}
    (hfs : ∀ f ∈ fs, SilentField w f) : Silent w (.object fs) := by
  intro t ht h
  rw [Value.compact, List.append_assoc, List.append_assoc] at h
  have h := marker_skip (lit "\x7b") _ (by decide) h
  exact marker_skip (lit "\x7d") t (by decide)
    (marker_fields hw fs hfs _ (Ends.cons (Or.inr (Or.inr rfl)) t) h)

/-- The printed form of a silent value does not have the marker. -/
theorem Silent.not_contains {v : Value} (hv : Silent w v) :
    contains (marker w) v.compact = false := by
  rw [contains, Option.isSome_eq_false_iff, Option.isNone_iff_eq_none, Search.find_eq_none_iff]
  intro h
  have h := hv [] Ends.nil (by rw [List.append_nil]; exact h)
  exact absurd (List.infix_nil.mp h) (List.cons_ne_nil _ _)

end Marker

/-- A line as the writers leave it: no line feed, and between braces. -/
structure WholeLine (l : Str) : Prop where
  single : 10 ∉ l
  braces : ∃ s, l = 123 :: (s ++ [125])

namespace WholeLine

variable {l : Str}

theorem stripCr_eq (h : WholeLine l) : stripCr l = l := by
  rcases h.braces with ⟨s, rfl⟩
  rw [stripCr, if_neg]
  rw [← List.cons_append, List.getLast?_concat]
  decide

/-- There is nothing to trim, so the line is not blank. -/
theorem trim_eq (h : WholeLine l) : trim l = l := by
  rcases h.braces with ⟨s, rfl⟩
  exact trim_eq_self _ (trimmed_braces s)

theorem not_blank (h : WholeLine l) : (trim l).isEmpty = false := by
  rw [h.trim_eq]
  rcases h.braces with ⟨s, rfl⟩
  rfl

end WholeLine

theorem object_braces (fs : List (Str × Value)) :
    ∃ s, (Value.object fs).compact = 123 :: (s ++ [125]) := by
  refine ⟨Value.compactFields fs, ?_⟩
  rw [Value.compact]
  rfl

/-- A value that has neither a line feed nor any marker. -/
structure Quiet (v : Value) : Prop where
  line : 10 ∉ v.compact
  silent : ∀ w, (∀ b ∈ w, PlainByte b) → Silent w v

/-- A key that is printed as it is, and is not that of the record type. -/
def QuietKey (key : Str) : Prop :=
  (∀ b ∈ key, b ≠ 34 ∧ escape b = [b]) ∧ key ≠ lit "type"

instance (key : Str) : Decidable (QuietKey key) :=
  decidable_of_iff ((key.Forall fun b => b ≠ 34 ∧ escape b = [b]) ∧ key ≠ lit "type")
    (and_congr_left' List.forall_iff_forall_mem)

/-- A field of no record type, with a quiet value. -/
def QuietField (f : Str × Value) : Prop := QuietKey f.1 ∧ Quiet f.2

theorem QuietField.silent {f : Str × Value} (hf : QuietField f) {w : Str}
    (hw : ∀ b ∈ w, PlainByte b) : SilentField w f :=
  ⟨hf.1.1, hf.2.silent w hw, fun h => absurd h hf.1.2⟩

theorem QuietField.of {key : Str} (hkey : QuietKey key) {v : Value} (hv : Quiet v) :
    QuietField (key, v) := ⟨hkey, hv⟩

theorem Quiet.string (s : Str) : Quiet (.string s) :=
  ⟨by rw [Value.compact]; exact quoted_line s, fun _ _ => Silent.string s⟩

theorem Quiet.number {lexeme : Str} (hl : ∀ b ∈ lexeme, b ≠ 10 ∧ b ≠ 34) :
    Quiet (.number lexeme) :=
  ⟨by rw [Value.compact]; exact fun h => (hl 10 h).1 rfl,
    fun _ _ => Silent.number fun h => (hl 34 h).2 rfl⟩

theorem Quiet.bool (b : Bool) : Quiet (.bool b) :=
  ⟨by cases b <;> rw [Value.compact] <;> decide, fun _ _ => Silent.bool b⟩

theorem Quiet.nullable {β : Type} {value : β → Value} (hv : ∀ x, Quiet (value x)) :
    ∀ x : Option β, Quiet (nullable value x)
  | none => ⟨by rw [Storage.nullable, Value.compact]; decide, fun _ _ => Silent.null⟩
  | some x => hv x

theorem Quiet.object {fs : List (Str × Value)} (hfs : ∀ f ∈ fs, QuietField f) :
    Quiet (.object fs) :=
  ⟨object_line fs fun f hf => (hfs f hf).2.line,
    fun _ hw => Silent.object hw fun f hf => (hfs f hf).silent hw⟩

theorem QuietField.optional {β : Type} {key : Str} (hkey : QuietKey key) {value : β → Value}
    (h : ∀ x, Quiet (value x)) (x : Option β) :
    ∀ f ∈ VaultJson.optional key value x, QuietField f := by
  intro f hf
  rcases List.mem_map.mp hf with ⟨y, _, rfl⟩
  exact ⟨hkey, h y⟩

/-- A line of a record type: it has the marker of its type and no other. -/
structure Typed (recordType : Str) (v : Value) : Prop where
  whole : WholeLine v.compact
  marked : contains (marker recordType) v.compact = true
  silent : ∀ w, (∀ b ∈ w, PlainByte b) → recordType ≠ w → Silent w v

/-- The field of the record type is printed as the marker. -/
theorem marker_of_field {recordType : Str} (hplain : ∀ b ∈ recordType, b ≠ 34 ∧ escape b = [b]) :
    ∀ fs : List (Str × Value), (lit "type", .string recordType) ∈ fs →
      marker recordType <:+: Value.compactFields fs := by
  have hmarker : Value.quoted (lit "type") ++ lit ":" ++ (Value.string recordType).compact =
      marker recordType := by
    rw [Value.compact, quoted_eq, quoted_eq, escaped_plain _ hplain,
      escaped_plain (lit "type") escaped_type]
    rfl
  intro fs
  induction fs with
  | nil => exact fun hmem => absurd hmem List.not_mem_nil
  | cons f fs ih =>
      intro hmem
      rcases f with ⟨k, v⟩
      rcases List.mem_cons.mp hmem with he | hmem
      · rcases Prod.mk.inj he with ⟨rfl, rfl⟩
        cases fs with
        | nil =>
            rw [Value.compactFields, hmarker]
        | cons g fs =>
            rw [Value.compactFields, hmarker, List.append_assoc]
            exact (List.prefix_append _ _).isInfix
      · cases fs with
        | nil => exact absurd hmem List.not_mem_nil
        | cons g fs =>
            rw [Value.compactFields]
            exact (ih hmem).trans (List.suffix_append _ _).isInfix

theorem Typed.object {recordType : Str} (hplain : ∀ b ∈ recordType, b ≠ 34 ∧ escape b = [b])
    {fs : List (Str × Value)} (hmem : (lit "type", .string recordType) ∈ fs)
    (hfs : ∀ f ∈ fs, f = (lit "type", .string recordType) ∨ QuietField f) :
    Typed recordType (.object fs) := by
  refine ⟨⟨object_line fs fun f hf => ?_, object_braces fs⟩, ?_,
    fun w hw hne => Silent.object hw fun f hf => ?_⟩
  · rcases hfs f hf with rfl | hquiet
    · exact (Quiet.string _).line
    · exact hquiet.2.line
  · rw [contains, Option.isSome_iff_ne_none, ne_eq, Search.find_eq_none_iff, not_not,
      Value.compact]
    exact (marker_of_field hplain fs hmem).trans ⟨_, _, rfl⟩
  · rcases hfs f hf with rfl | hquiet
    · exact ⟨escaped_type, Silent.string _, fun _ => ⟨_, rfl, hne⟩⟩
    · exact hquiet.silent hw

end Storage

end PrivacyClaw
