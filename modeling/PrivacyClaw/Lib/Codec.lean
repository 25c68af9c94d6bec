import PrivacyClaw.Lib.Patch

/-!
# Typed Values as Trees

How a type is written as a tree and read from one, put together from its fields.

A codec is a pair of functions and the shape they belong to. Nothing about a
shape is given by hand: a leaf has the shape of what is written of what it reads,
and a record that of its row of fields. A row is read in two ways, since a record
is taken from an object and from an array alike. The keys of the first may stand
in any order and others may stand beside them; the items of the second go by
position and none may be left. A field with a default may be missing in both.

`Lawful` says that the shape tells the truth, and it goes from the fields to the
record. What a patch does to a value of the type is then the question of
`Outcome`, answered for the shape.

## Main definitions

* `Codec`, `Row`: A type, and the fields of one.
* `Codec.leaf`, `Codec.flag`, `Codec.count`, `Codec.text`, `Codec.optionalText`,
  `Codec.texts`: The leaves.
* `Row.nil`, `Row.cons`, `Codec.record`: Records.
* `Codec.Lawful`, `Row.Lawful`: The shape is the right one.

## Theorems

* `Codec.Lawful.flag` and so on: The leaves are lawful.
* `Row.Lawful.cons`, `Codec.Lawful.record`: So are records of lawful fields.
* `Codec.outcome`: What a patch does to a value.
-/

namespace JsonTree

open Json

variable {κ α β : Type}

/-- How values of a type are written and read, and the shape that results. -/
structure Codec (κ α : Type) where
  enc : α → Json κ
  dec : Json κ → Option α
  shape : Shape κ

/-- Fields in their order, read from entries or from items; the items that are
    left are returned. -/
structure Row (κ α : Type) where
  enc : α → List (κ × Json κ)
  fromMap : List (κ × Json κ) → Option α
  fromSeq : List (Json κ) → Option (α × List (Json κ))
  shapes : Shapes κ

namespace Codec

def leaf (enc : α → Json κ) (dec : Json κ → Option α) : Codec κ α where
  enc := enc
  dec := dec
  shape := .leaf fun v => (dec v).map enc

def readFlag : Json κ → Option Bool
  | .bool b => some b
  | _ => none

/-- An unsigned integer: a double is none, whatever its value. -/
def readCount : Json κ → Option UInt64
  | .number (.posInt n) => some n
  | _ => none

def readText : Json κ → Option κ
  | .string s => some s
  | _ => none

def readOptionalText : Json κ → Option (Option κ)
  | .null => some none
  | .string s => some (some s)
  | _ => none

def readTexts : Json κ → Option (List κ)
  | .array items => items.mapM readText
  | _ => none

def flag : Codec κ Bool := leaf .bool readFlag

def count : Codec κ UInt64 := leaf (fun n => .number (.posInt n)) readCount

def text : Codec κ κ := leaf .string readText

def optionalText : Codec κ (Option κ) := leaf (fun s => s.elim .null .string) readOptionalText

def texts : Codec κ (List κ) := leaf (fun ss => .array (ss.map .string)) readTexts

end Codec

namespace Row

def nil : Row κ Unit where
  enc _ := []
  fromMap _ := some ()
  fromSeq vs := some ((), vs)
  shapes := .nil

variable [DecidableEq κ]

/-- A field in front, with the default it takes where it is missing. -/
def cons (name : κ) (K : Codec κ α) (dflt : Option α) (rest : Row κ β) : Row κ (α × β) where
  enc r := (name, K.enc r.1) :: rest.enc r.2
  fromMap m :=
    (match m.lookup name with
      | some v => K.dec v
      | none => dflt).bind fun a => (rest.fromMap m).map fun b => (a, b)
  fromSeq
    | [] => dflt.bind fun a => (rest.fromSeq []).map fun r => ((a, r.1), r.2)
    | v :: vs => (K.dec v).bind fun a => (rest.fromSeq vs).map fun r => ((a, r.1), r.2)
  shapes := .cons name K.shape (dflt.map K.enc) rest.shapes

end Row

/-- A record with its row of fields. -/
def Codec.record (fields : α → β) (make : β → α) (row : Row κ β) : Codec κ α where
  enc a := .object (row.enc (fields a))
  dec
    | .object m => (row.fromMap m).map make
    | .array vs => (row.fromSeq vs).bind fun r => if r.2.isEmpty then some (make r.1) else none
    | _ => none
  shape := .record row.shapes

variable [DecidableEq κ]

/-- The shape is what reading and writing makes of a value, and what is written is
    left as it is. -/
structure Codec.Lawful (K : Codec κ α) : Prop where
  reads : ∀ v, (K.dec v).map K.enc = norm K.shape v
  canon : ∀ a, Canon K.shape (K.enc a)
  sound : Sound K.shape

structure Row.Lawful (row : Row κ β) : Prop where
  fromMap : ∀ m, (row.fromMap m).map row.enc = normMap row.shapes m
  fromSeq : ∀ vs, (row.fromSeq vs).map (fun r => (row.enc r.1, r.2)) = normSeq row.shapes vs
  canon : ∀ b, CanonFields row.shapes (row.enc b)
  sound : SoundFields row.shapes

section Leaves

/-- A leaf whose values are read as they are, and are equal to nothing else. -/
theorem Codec.Lawful.leaf (enc : α → Json κ) (dec : Json κ → Option α)
    (hleaf : ∀ a, (enc a).isObject = false) (hread : ∀ v a, dec v = some a → enc a = v)
    (heq : ∀ a v, (enc a).eq v = true → v = enc a) : (Codec.leaf enc dec).Lawful := by
  have hsame : ∀ v j, (dec v).map enc = some j → j = v := by
    intro v j h
    rcases Option.map_eq_some_iff.mp h with ⟨a, ha, rfl⟩
    exact hread v a ha
  refine ⟨fun v => rfl, fun a => ⟨hleaf a, fun j h => hsame _ j h⟩,
    ⟨fun m => ?_, fun b p h hbp => ?_, fun p j h _ => hsame p j h⟩⟩
  · -- what is read of an object would be written as one
    cases hm : dec (.object m) with
    | none => rfl
    | some a =>
        have hobj := hleaf a
        rw [hread _ a hm] at hobj
        exact absurd hobj.symm Bool.false_ne_true
  · rcases Option.map_eq_some_iff.mp h with ⟨a, ha, rfl⟩
    rw [heq a p hbp]
    exact h

theorem Codec.Lawful.flag : (Codec.flag : Codec κ Bool).Lawful := by
  refine Codec.Lawful.leaf _ _ (fun b => rfl) (fun v a h => ?_) (fun a v h => ?_)
  · cases v with
    | bool b => rw [Option.some.inj h]
    | _ => exact absurd h (by simp only [Codec.readFlag, reduceCtorEq, not_false_eq_true])
  · cases v with
    | bool b => rw [eq_of_beq h]
    | _ => exact absurd h Bool.false_ne_true

theorem Codec.Lawful.count : (Codec.count : Codec κ UInt64).Lawful := by
  refine Codec.Lawful.leaf _ _ (fun n => rfl) (fun v a h => ?_) (fun a v h => ?_)
  · rcases v with _ | _ | (n | n | x) | _ | _ | _
    case number.posInt => rw [Option.some.inj h]
    all_goals exact absurd h (by simp only [Codec.readCount, reduceCtorEq, not_false_eq_true])
  · rcases v with _ | _ | (n | n | x) | _ | _ | _
    case number.posInt => rw [eq_of_beq h]
    all_goals exact absurd h Bool.false_ne_true

theorem Codec.Lawful.text : (Codec.text : Codec κ κ).Lawful := by
  refine Codec.Lawful.leaf _ _ (fun s => rfl) (fun v a h => ?_) (fun a v h => ?_)
  · cases v with
    | string s => rw [Option.some.inj h]
    | _ => exact absurd h (by simp only [Codec.readText, reduceCtorEq, not_false_eq_true])
  · cases v with
    | string s => rw [eq_of_beq h]
    | _ => exact absurd h Bool.false_ne_true

theorem Codec.Lawful.optionalText : (Codec.optionalText : Codec κ (Option κ)).Lawful := by
  refine Codec.Lawful.leaf _ _ (fun s => by cases s <;> rfl) (fun v a h => ?_) (fun a v h => ?_)
  · cases v with
    | null => rw [← Option.some.inj h, Option.elim_none]
    | string s => rw [← Option.some.inj h, Option.elim_some]
    | _ => exact absurd h (by simp only [Codec.readOptionalText, reduceCtorEq, not_false_eq_true])
  · cases a with
    | none => exact (null_eq_iff v).mp h
    | some s =>
        cases v with
        | string t => rw [eq_of_beq h, Option.elim_some]
        | _ => exact absurd h Bool.false_ne_true

omit [DecidableEq κ] in
/-- Items that are read as texts are the texts. -/
theorem map_of_mapM_readText (items : List (Json κ)) (ss : List κ)
    (h : items.mapM Codec.readText = some ss) : ss.map .string = items := by
  induction items generalizing ss with
  | nil =>
      rw [List.mapM_nil] at h
      rw [← Option.some.inj h, List.map_nil]
  | cons v items ih =>
      rw [List.mapM_cons, Option.bind_eq_bind, Option.bind_eq_some_iff] at h
      rcases h with ⟨s, hs, h⟩
      rcases Option.bind_eq_some_iff.mp h with ⟨ts, hts, h⟩
      rw [← Option.some.inj h, List.map_cons, ih ts hts]
      cases v with
      | string t => rw [Option.some.inj hs]
      | _ => exact absurd hs (by simp only [Codec.readText, reduceCtorEq, not_false_eq_true])

/-- Items that are equal to texts are the texts. -/
theorem eq_map_of_eqItems (ss : List κ) (items : List (Json κ))
    (h : eqItems (ss.map .string) items = true) : items = ss.map .string := by
  induction ss generalizing items with
  | nil =>
      cases items with
      | nil => rfl
      | cons v items => exact absurd h Bool.false_ne_true
  | cons s ss ih =>
      cases items with
      | nil => exact absurd h Bool.false_ne_true
      | cons v items =>
          rw [List.map_cons, eqItems, Bool.and_eq_true] at h
          rw [List.map_cons, ih items h.2]
          cases v with
          | string t => rw [eq_of_beq h.1]
          | _ => exact absurd h.1 Bool.false_ne_true

theorem Codec.Lawful.texts : (Codec.texts : Codec κ (List κ)).Lawful := by
  refine Codec.Lawful.leaf _ _ (fun ss => rfl) (fun v a h => ?_) (fun a v h => ?_)
  · cases v with
    | array items => rw [map_of_mapM_readText items a h]
    | _ => exact absurd h (by simp only [Codec.readTexts, reduceCtorEq, not_false_eq_true])
  · cases v with
    | array items => rw [eq_map_of_eqItems a items h]
    | _ => exact absurd h Bool.false_ne_true

end Leaves

section Records

theorem Row.Lawful.nil : (Row.nil : Row κ Unit).Lawful :=
  ⟨fun _ => rfl, fun _ => rfl, fun _ => rfl, trivial⟩

/-- A further field, with a name of its own. -/
theorem Row.Lawful.cons {name : κ} {K : Codec κ α} {dflt : Option α} {rest : Row κ β}
    (hK : K.Lawful) (hrest : rest.Lawful) (hname : name ∉ rest.shapes.names) :
    (Row.cons name K dflt rest).Lawful := by
  refine ⟨fun m => ?_, fun vs => ?_,
    fun r => ⟨K.enc r.1, rest.enc r.2, rfl, hK.canon r.1, hrest.canon r.2⟩,
    ⟨hname, hK.sound, hrest.sound⟩⟩
  · change _ = normMap (.cons name K.shape (dflt.map K.enc) rest.shapes) m
    rw [normMap, ← hrest.fromMap, Row.cons]
    dsimp only
    cases m.lookup name with
    | none => cases dflt <;> cases rest.fromMap m <;> rfl
    | some v =>
        dsimp only
        rw [← hK.reads]
        cases K.dec v <;> cases rest.fromMap m <;> rfl
  · change _ = normSeq (.cons name K.shape (dflt.map K.enc) rest.shapes) vs
    cases vs with
    | nil =>
        rw [normSeq, ← hrest.fromSeq, Row.cons]
        dsimp only
        cases dflt <;> cases rest.fromSeq [] <;> rfl
    | cons v vs =>
        rw [normSeq, ← hrest.fromSeq, ← hK.reads, Row.cons]
        dsimp only
        cases K.dec v <;> cases rest.fromSeq vs <;> rfl

/-- A record of lawful fields. -/
theorem Codec.Lawful.record {fields : α → β} {make : β → α} {row : Row κ β} (hrow : row.Lawful)
    (hmake : ∀ b, fields (make b) = b) : (Codec.record fields make row).Lawful := by
  refine ⟨fun v => ?_, fun a => ⟨_, rfl, hrow.canon (fields a)⟩, hrow.sound⟩
  change _ = norm (.record row.shapes) v
  cases v with
  | object m =>
      rw [norm, ← hrow.fromMap, Codec.record]
      dsimp only
      cases row.fromMap m with
      | none => rfl
      | some b =>
          dsimp only [Option.map_some]
          rw [hmake]
  | array vs =>
      rw [norm, ← hrow.fromSeq, Codec.record]
      dsimp only
      rcases row.fromSeq vs with _ | ⟨b, _ | ⟨w, ws⟩⟩
      · rfl
      · dsimp only [Option.map_some, Option.bind_some, List.isEmpty_nil, if_true]
        rw [if_pos rfl, if_pos rfl, Option.map_some, hmake]
      · rfl
  | _ => rfl

end Records

/-- What a patch does to a value, if the result is read. -/
theorem Codec.outcome {K : Codec κ α} (hK : K.Lawful) {a a' : α} {p : Json κ} (hp : p.Distinct)
    (h : K.dec (merge (K.enc a) p) = some a') : Outcome K.shape (K.enc a) (K.enc a') p := by
  refine JsonTree.outcome K.shape (K.enc a) (K.enc a') p hK.sound (hK.canon a) (hK.canon a') hp ?_
  rw [← hK.reads, h, Option.map_some]

/-- A value that is read and written as another one. -/
theorem Codec.Lawful.read {K : Codec κ α} (hK : K.Lawful) {v j : Json κ}
    (h : norm K.shape v = some j) : ∃ a, K.dec v = some a ∧ K.enc a = j := by
  rw [← hK.reads] at h
  exact Option.map_eq_some_iff.mp h

end JsonTree
