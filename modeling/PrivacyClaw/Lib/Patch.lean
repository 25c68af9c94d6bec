import PrivacyClaw.Lib.JsonTree

/-!
# Patches of Typed Values

A value is changed by another one: objects are merged entry by entry, anything
else takes the place of what stood there, and every place where that is not equal
is reported. What has changed is then read as a value of some type and written
again, and that need not be what was merged. Whether the report is right is a
question of what the type reads as it is.

A type is a tree of records over leaves (`Shape`), and all that is known of a leaf
is what it makes of a value: nothing, or the value it is written as again. A
record reads the keys it knows from an object, and passes over the others; it also
reads an array, by position.

So a patch fits a shape if its leaves are written as they are read, it has no array
for a record and nothing but null for a key that is not known. Such a patch reports
exactly what it changes and changes nothing when it is applied again; any other one
is reported again each time (`outcome`).

## Main definitions

* `merge`, `report`: The change, and the paths where something changes.
* `Shape`, `norm`: A type, and what reading and writing makes of a value.
* `Canon`: A value that was written.
* `Conforms`: A patch that fits a shape.
* `LeafLaw`, `Sound`: What is asked of a leaf, and of a shape.
* `Exact`: A report that is right.
* `Outcome`: What becomes of a patch.

## Theorems

* `lookup_mergeFields`, `mem_reportFields`: A merged object by its keys.
* `canon_stable`: What was written is read as it is.
* `outcome`: A patch that fits, and one that does not.
-/

namespace JsonTree

open Json

variable {κ : Type}

mutual

/-- A type: a leaf, by what is written of what it reads, or a record. -/
inductive Shape (κ : Type) where
  | leaf (read : Json κ → Option (Json κ))
  | record (fields : Shapes κ)

/-- Fields with their names, and with what is written of a default. -/
inductive Shapes (κ : Type) where
  | nil
  | cons (name : κ) (shape : Shape κ) (dflt : Option (Json κ)) (rest : Shapes κ)

end

def Shapes.names : Shapes κ → List κ
  | .nil => []
  | .cons name _ _ fs => name :: fs.names

/-- A field with its shape. -/
def Shapes.Has : Shapes κ → κ → Shape κ → Prop
  | .nil, _, _ => False
  | .cons name s _ fs, k, t => k = name ∧ t = s ∨ fs.Has k t

theorem Shapes.mem_names (fs : Shapes κ) (k : κ) : k ∈ fs.names ↔ ∃ t, fs.Has k t := by
  cases fs with
  | nil => exact iff_of_false List.not_mem_nil fun ⟨_, h⟩ => h
  | cons name s dflt fs =>
      rw [Shapes.names, List.mem_cons, Shapes.mem_names fs k]
      constructor
      · rintro (rfl | ⟨t, ht⟩)
        · exact ⟨s, Or.inl ⟨rfl, rfl⟩⟩
        · exact ⟨t, Or.inr ht⟩
      · rintro ⟨t, ⟨rfl, _⟩ | ht⟩
        · exact Or.inl rfl
        · exact Or.inr ⟨t, ht⟩

variable [DecidableEq κ]

mutual

/-- A value after a change. -/
def merge : Json κ → Json κ → Json κ
  | .object b, .object p => .object (mergeFields b p)
  | base, p => if base.eq p then base else p

/-- A key that is not there stands for null. -/
def mergeFields : List (κ × Json κ) → List (κ × Json κ) → List (κ × Json κ)
  | b, [] => b
  | b, (k, v) :: p => mergeFields (setField k (merge (entry b k) v) b) p

end

mutual

/-- The paths at which a change is none. -/
def report : Json κ → Json κ → List (List κ)
  | .object b, .object p => reportFields b p
  | base, p => if base.eq p then [] else [[]]

def reportFields : List (κ × Json κ) → List (κ × Json κ) → List (List κ)
  | _, [] => []
  | b, (k, v) :: p =>
    (report (entry b k) v).map (fun q => k :: q) ++
      reportFields (setField k (merge (entry b k) v) b) p

end

mutual

/-- What is written of what is read. -/
def norm : Shape κ → Json κ → Option (Json κ)
  | .leaf read, v => read v
  | .record fs, .object m => (normMap fs m).map .object
  | .record fs, .array vs =>
    (normSeq fs vs).bind fun r => if r.2.isEmpty then some (.object r.1) else none
  | .record _, _ => none

/-- Fields by their names. -/
def normMap : Shapes κ → List (κ × Json κ) → Option (List (κ × Json κ))
  | .nil, _ => some []
  | .cons name s dflt fs, m =>
    (match m.lookup name with
      | some v => norm s v
      | none => dflt).bind fun j => (normMap fs m).map fun n => (name, j) :: n

/-- Fields by their positions, and what is left. -/
def normSeq : Shapes κ → List (Json κ) → Option (List (κ × Json κ) × List (Json κ))
  | .nil, vs => some ([], vs)
  | .cons name _ dflt fs, [] =>
    dflt.bind fun j => (normSeq fs []).map fun r => ((name, j) :: r.1, r.2)
  | .cons name s _ fs, v :: vs =>
    (norm s v).bind fun j => (normSeq fs vs).map fun r => ((name, j) :: r.1, r.2)

end

mutual

/-- A value that was written. -/
def Canon : Shape κ → Json κ → Prop
  | .leaf read, j => j.isObject = false ∧ ∀ j', read j = some j' → j' = j
  | .record fs, j => ∃ m, j = .object m ∧ CanonFields fs m

def CanonFields : Shapes κ → List (κ × Json κ) → Prop
  | .nil, m => m = []
  | .cons name s _ fs, m => ∃ j n, m = (name, j) :: n ∧ Canon s j ∧ CanonFields fs n

end

mutual

/-- A patch that fits a shape: its leaves are written as they are, its records are
    objects, and a key that is not known has null. -/
def Conforms : Shape κ → Json κ → Prop
  | .leaf read, p => read p = some p
  | .record fs, .object p =>
    ConformFields fs p ∧ ∀ k v, p.lookup k = some v → k ∉ fs.names → v = .null
  | .record _, _ => False

def ConformFields : Shapes κ → List (κ × Json κ) → Prop
  | .nil, _ => True
  | .cons name s _ fs, p => (∀ v, p.lookup name = some v → Conforms s v) ∧ ConformFields fs p

end

/-- What is asked of a leaf: it reads no objects, and equal values are read as they
    are together. -/
structure LeafLaw (read : Json κ → Option (Json κ)) : Prop where
  object : ∀ m, read (.object m) = none
  eq_read : ∀ b p, read b = some b → b.eq p = true → read p = some p
  read_eq : ∀ p j, read p = some j → j.eq p = true → j = p

mutual

/-- A shape of such leaves, with distinct names. -/
def Sound : Shape κ → Prop
  | .leaf read => LeafLaw read
  | .record fs => SoundFields fs

def SoundFields : Shapes κ → Prop
  | .nil => True
  | .cons name s _ fs => name ∉ fs.names ∧ Sound s ∧ SoundFields fs

end

/-- The report has the leaves of the patch where the values differ, and where the
    patch says nothing they do not. -/
structure Exact (base new p : Json κ) : Prop where
  reported : ∀ q, q ∈ report base p ↔ p.LeafAt q ∧ base.atPath q ≠ new.atPath q
  kept : ∀ q, ¬ p.Mentions q → new.atPath q = base.atPath q

/-- A patch that fits has a right report and settles; one that does not is
    reported again. -/
structure Outcome (s : Shape κ) (base new p : Json κ) : Prop where
  exact : Conforms s p → Exact base new p
  settled : Conforms s p → report new p = [] ∧ norm s (merge new p) = some new
  again : ¬ Conforms s p → report new p ≠ []

section Objects

/-- A merged object by its keys. -/
theorem lookup_mergeFields (p : List (κ × Json κ)) (hp : (p.map Prod.fst).Nodup) (k : κ) :
    ∀ b : List (κ × Json κ), (mergeFields b p).lookup k =
      ((p.lookup k).map fun v => merge (entry b k) v).or (b.lookup k) := by
  induction p with
  | nil => exact fun b => rfl
  | cons e p ih =>
      intro b
      rcases e with ⟨l, w⟩
      rw [List.map_cons, List.nodup_cons] at hp
      rw [mergeFields, ih hp.2, List.lookup_cons, lookup_setField]
      by_cases hk : k = l
      · -- the key stands nowhere else
        have hnone : p.lookup k = none := by
          rw [hk, ← Option.not_isSome_iff_eq_none, Option.isSome_iff_exists]
          rintro ⟨v, hv⟩
          exact hp.1 (key_mem_of_lookup hv)
        rw [hnone, beq_iff_eq.mpr hk, if_pos hk, hk]
        rfl
      · rw [beq_eq_false_iff_ne.mpr hk, if_neg hk, entry_setField_of_ne hk]

/-- The reported paths of a merged object: they go through an entry of the
    patch. -/
theorem mem_reportFields (p : List (κ × Json κ)) (hp : (p.map Prod.fst).Nodup) (q : List κ) :
    ∀ b : List (κ × Json κ), q ∈ reportFields b p ↔ ∃ k v q', p.lookup k = some v ∧ q = k :: q' ∧
      q' ∈ report (entry b k) v := by
  induction p with
  | nil =>
      intro b
      refine iff_of_false List.not_mem_nil ?_
      rintro ⟨k, v, _, hv, _⟩
      exact absurd (mem_of_lookup hv) List.not_mem_nil
  | cons e p ih =>
      intro b
      rcases e with ⟨l, w⟩
      rw [List.map_cons, List.nodup_cons] at hp
      rw [reportFields, List.mem_append, List.mem_map, ih hp.2]
      have hother : ∀ k v, p.lookup k = some v → k ≠ l := by
        rintro k v hv rfl
        exact hp.1 (key_mem_of_lookup hv)
      constructor
      · rintro (⟨q', hq', rfl⟩ | ⟨k, v, q', hv, rfl, hq'⟩)
        · refine ⟨l, w, q', ?_, rfl, hq'⟩
          rw [List.lookup_cons, beq_self_eq_true]
        · -- an entry behind the first one
          have hk := hother k v hv
          rw [entry_setField_of_ne hk] at hq'
          refine ⟨k, v, q', ?_, rfl, hq'⟩
          rw [List.lookup_cons, beq_eq_false_iff_ne.mpr hk]
          exact hv
      · rintro ⟨k, v, q', hv, rfl, hq'⟩
        rw [List.lookup_cons] at hv
        by_cases hk : k = l
        · rw [beq_iff_eq.mpr hk] at hv
          rw [← Option.some.inj hv, hk] at hq'
          exact Or.inl ⟨q', hq', by rw [hk]⟩
        · rw [beq_eq_false_iff_ne.mpr hk] at hv
          refine Or.inr ⟨k, v, q', hv, rfl, ?_⟩
          rw [entry_setField_of_ne hk]
          exact hq'

/-- Where one of the two is no object the whole is compared. -/
theorem merge_of_not {base p : Json κ} (h : base.isObject = false ∨ p.isObject = false) :
    merge base p = if base.eq p then base else p := by
  cases base with
  | object b =>
      cases p with
      | object m => exact Bool.noConfusion (h.elim id id : true = false)
      | _ => rfl
  | _ => cases p <;> rfl

theorem report_of_not {base p : Json κ} (h : base.isObject = false ∨ p.isObject = false) :
    report base p = if base.eq p then [] else [[]] := by
  cases base with
  | object b =>
      cases p with
      | object m => exact Bool.noConfusion (h.elim id id : true = false)
      | _ => rfl
  | _ => cases p <;> rfl

end Objects

section Fields

/-- What was written holds the fields. -/
theorem canon_has (fs : Shapes κ) (m : List (κ × Json κ)) (hs : SoundFields fs)
    (hm : CanonFields fs m) (k : κ) (t : Shape κ) (hk : fs.Has k t) :
    ∃ j, m.lookup k = some j ∧ Canon t j := by
  cases fs with
  | nil => exact absurd hk id
  | cons name s dflt fs =>
      rcases hm with ⟨j, n, rfl, hj, hn⟩
      rcases hk with ⟨rfl, rfl⟩ | hk
      · refine ⟨j, ?_, hj⟩
        rw [List.lookup_cons, beq_self_eq_true]
      · have hne : k ≠ name := fun h => hs.1 (h ▸ (Shapes.mem_names fs k).mpr ⟨t, hk⟩)
        rw [List.lookup_cons, beq_eq_false_iff_ne.mpr hne]
        exact canon_has fs n hs.2.2 hn k t hk

/-- And nothing else. -/
theorem canon_none (fs : Shapes κ) (m : List (κ × Json κ)) (hm : CanonFields fs m) (k : κ)
    (hk : k ∉ fs.names) : m.lookup k = none := by
  cases fs with
  | nil =>
      rw [show m = [] from hm]
      rfl
  | cons name s dflt fs =>
      rcases hm with ⟨j, n, rfl, _, hn⟩
      rw [Shapes.names, List.mem_cons, not_or] at hk
      rw [List.lookup_cons, beq_eq_false_iff_ne.mpr hk.1]
      exact canon_none fs n hn k hk.2

/-- A field that is there is read. -/
theorem normMap_has (fs : Shapes κ) (m n : List (κ × Json κ)) (hs : SoundFields fs)
    (h : normMap fs m = some n) (k : κ) (t : Shape κ) (hk : fs.Has k t) (v : Json κ)
    (hv : m.lookup k = some v) : ∃ j, norm t v = some j ∧ n.lookup k = some j := by
  cases fs with
  | nil => exact absurd hk id
  | cons name s dflt fs =>
      rw [normMap, Option.bind_eq_some_iff] at h
      rcases h with ⟨j, hj, h⟩
      rcases Option.map_eq_some_iff.mp h with ⟨r, hr, rfl⟩
      rcases hk with ⟨rfl, rfl⟩ | hk
      · rw [hv] at hj
        refine ⟨j, hj, ?_⟩
        rw [List.lookup_cons, beq_self_eq_true]
      · have hne : k ≠ name := fun h => hs.1 (h ▸ (Shapes.mem_names fs k).mpr ⟨t, hk⟩)
        rcases normMap_has fs m r hs.2.2 hr k t hk v hv with ⟨i, hi, hlookup⟩
        refine ⟨i, hi, ?_⟩
        rw [List.lookup_cons, beq_eq_false_iff_ne.mpr hne]
        exact hlookup

/-- If every field is read as something that was written, so is the record. -/
theorem normMap_eq (fs : Shapes κ) (m n : List (κ × Json κ)) (hs : SoundFields fs)
    (hn : CanonFields fs n)
    (h : ∀ k t, fs.Has k t → ∃ v j, m.lookup k = some v ∧ norm t v = some j ∧ n.lookup k = some j) :
    normMap fs m = some n := by
  cases fs with
  | nil =>
      rw [show n = [] from hn]
      rfl
  | cons name s dflt fs =>
      rcases hn with ⟨j, r, rfl, _, hr⟩
      rcases h name s (Or.inl ⟨rfl, rfl⟩) with ⟨v, j', hv, hj', hlookup⟩
      rw [List.lookup_cons, beq_self_eq_true, Option.some.injEq] at hlookup
      have hrest : normMap fs m = some r := by
        refine normMap_eq fs m r hs.2.2 hr fun k t hk => ?_
        have hne : k ≠ name := fun h => hs.1 (h ▸ (Shapes.mem_names fs k).mpr ⟨t, hk⟩)
        rcases h k t (Or.inr hk) with ⟨w, i, hw, hi, hlookup⟩
        rw [List.lookup_cons, beq_eq_false_iff_ne.mpr hne] at hlookup
        exact ⟨w, i, hw, hi, hlookup⟩
      rw [normMap, hv, hrest, hlookup]
      dsimp only
      rw [hj']
      rfl

theorem sound_has (fs : Shapes κ) (hs : SoundFields fs) (k : κ) (t : Shape κ) (hk : fs.Has k t) :
    Sound t := by
  cases fs with
  | nil => exact absurd hk id
  | cons name s dflt fs =>
      rcases hk with ⟨_, rfl⟩ | hk
      · exact hs.2.1
      · exact sound_has fs hs.2.2 k t hk

theorem conformFields_iff (fs : Shapes κ) (p : List (κ × Json κ)) :
    ConformFields fs p ↔ ∀ k t, fs.Has k t → ∀ v, p.lookup k = some v → Conforms t v := by
  cases fs with
  | nil => exact iff_of_true trivial fun k t hk => absurd hk id
  | cons name s dflt fs =>
      rw [ConformFields, conformFields_iff fs p]
      constructor
      · rintro ⟨hfirst, hrest⟩ k t (⟨rfl, rfl⟩ | hk)
        · exact hfirst
        · exact hrest k t hk
      · exact fun h => ⟨h name s (Or.inl ⟨rfl, rfl⟩), fun k t hk => h k t (Or.inr hk)⟩

/-- The names tell the fields apart. -/
theorem has_unique (fs : Shapes κ) (hs : SoundFields fs) (k : κ) (t t' : Shape κ) (hk : fs.Has k t)
    (hk' : fs.Has k t') : t' = t := by
  cases fs with
  | nil => exact absurd hk id
  | cons name s dflt fs =>
      have hrest : ∀ u, fs.Has k u → k ≠ name :=
        fun u hu h => hs.1 (h ▸ (Shapes.mem_names fs k).mpr ⟨u, hu⟩)
      rcases hk with ⟨hname, rfl⟩ | hk
      · rcases hk' with ⟨_, rfl⟩ | hk'
        · rfl
        · exact absurd hname (hrest t' hk')
      · rcases hk' with ⟨hname, _⟩ | hk'
        · exact absurd hname (hrest t hk)
        · exact has_unique fs hs.2.2 k t t' hk hk'

/-- A patch of one field fits if what it has for the field does. -/
theorem conforms_single {fs : Shapes κ} (hs : SoundFields fs) {k : κ} {t : Shape κ}
    (hk : fs.Has k t) {v : Json κ} (hv : Conforms t v) :
    Conforms (.record fs) (.object [(k, v)]) := by
  have hone : ∀ l w, [(k, v)].lookup l = some w → l = k ∧ w = v := by
    intro l w h
    rcases Prod.mk.inj (List.mem_singleton.mp (mem_of_lookup h)) with ⟨rfl, rfl⟩
    exact ⟨rfl, rfl⟩
  refine ⟨(conformFields_iff fs _).mpr fun l u hl w hw => ?_, fun l w hw hl => ?_⟩
  · rcases hone l w hw with ⟨rfl, rfl⟩
    rw [has_unique fs hs l t u hk hl]
    exact hv
  · rcases hone l w hw with ⟨rfl, rfl⟩
    exact absurd ((Shapes.mem_names fs l).mpr ⟨t, hk⟩) hl

mutual

/-- What was written is read as it is, or not at all. -/
theorem canon_stable (s : Shape κ) (b j : Json κ) (hs : Sound s) (hb : Canon s b)
    (h : norm s b = some j) : j = b := by
  cases s with
  | leaf read => exact hb.2 j h
  | record fs =>
      rcases hb with ⟨m, rfl, hm⟩
      rcases Option.map_eq_some_iff.mp h with ⟨n, hn, rfl⟩
      rw [canonFields_stable fs m m n hs hm (fun _ _ => rfl) hn]

theorem canonFields_stable (fs : Shapes κ) (m m' n : List (κ × Json κ)) (hs : SoundFields fs)
    (hm' : CanonFields fs m') (hsub : ∀ k ∈ fs.names, m.lookup k = m'.lookup k)
    (h : normMap fs m = some n) : n = m' := by
  cases fs with
  | nil =>
      rw [show m' = [] from hm']
      exact (Option.some.inj h).symm
  | cons name s dflt fs =>
      rcases hm' with ⟨j, r, rfl, hj, hr⟩
      rw [normMap, hsub name List.mem_cons_self, List.lookup_cons, beq_self_eq_true,
        Option.bind_eq_some_iff] at h
      rcases h with ⟨i, hi, h⟩
      rcases Option.map_eq_some_iff.mp h with ⟨r', hr', rfl⟩
      have hrest : ∀ k ∈ fs.names, m.lookup k = r.lookup k := by
        intro k hk
        have hne : k ≠ name := fun h => hs.1 (h ▸ hk)
        rw [hsub k (List.mem_cons_of_mem name hk), List.lookup_cons, beq_eq_false_iff_ne.mpr hne]
      rw [canon_stable s j i hs.2.1 hj hi, canonFields_stable fs m r r' hs.2.2 hr hrest hr']

end

end Fields

section Outcome

/-- A leaf: it is left as it was, or takes the patch. -/
theorem outcome_leaf (read : Json κ → Option (Json κ)) (hl : LeafLaw read) (base new p : Json κ)
    (hb : Canon (.leaf read) base) (h : norm (.leaf read) (merge base p) = some new) :
    Outcome (.leaf read) base new p := by
  have hmerge := merge_of_not (p := p) (Or.inl hb.1)
  have hreport := report_of_not (p := p) (Or.inl hb.1)
  have hread : read (merge base p) = some new := h
  -- an object would not be read
  have hp : p.isObject = false := by
    cases p with
    | object m =>
        rw [hmerge, eq_object_of_not hb.1, if_neg Bool.false_ne_true, hl.object] at hread
        exact absurd hread (by simp only [reduceCtorEq, not_false_eq_true])
    | _ => rfl
  have hleaf : ∀ q, p.LeafAt q ↔ q = [] := by
    intro q
    cases q with
    | nil => exact iff_of_true ⟨p, by cases p <;> rfl, hp⟩ rfl
    | cons k q =>
        refine iff_of_false ?_ (List.cons_ne_nil k q)
        rintro ⟨v, hv, _⟩
        rw [atPath_cons_of_not hp] at hv
        exact absurd hv (by simp only [reduceCtorEq, not_false_eq_true])
  have hkept : ∀ q, ¬ p.Mentions q → new.atPath q = base.atPath q :=
    fun q hq => absurd (mentions_of_not hp q) hq
  by_cases heq : base.eq p = true
  · -- nothing is changed, and nothing will be
    rw [hmerge, if_pos heq] at hread
    have hnew : new = base := hb.2 new hread
    rw [hnew] at hread ⊢
    rw [if_pos heq] at hmerge hreport
    have hconf : Conforms (.leaf read) p := hl.eq_read base p hread heq
    refine ⟨fun _ => ⟨fun q => ?_, fun _ _ => rfl⟩, fun _ => ⟨hreport, ?_⟩,
      fun hno => absurd hconf hno⟩
    · rw [hreport]
      exact iff_of_false List.not_mem_nil fun hq => hq.2 rfl
    · rw [hmerge]
      exact hread
  · rw [hmerge, if_neg heq] at hread
    rw [if_neg heq] at hreport
    have hagain : report new p = if new.eq p then [] else [[]] := report_of_not (Or.inr hp)
    refine ⟨fun hconf => ⟨fun q => ?_, hkept⟩, fun hconf => ?_, fun hno => ?_⟩
    · -- the patch is what is there afterwards
      have hnew : new = p := (Option.some.inj (hread.symm.trans hconf))
      rw [hreport, List.mem_singleton, hleaf]
      refine ⟨fun hq => ⟨hq, ?_⟩, fun hq => hq.1⟩
      rw [hq, hnew, atPath, atPath, Ne, Option.some.injEq]
      exact fun hsame => heq (by rw [hsame]; exact eq_refl p)
    · have hnew : new = p := (Option.some.inj (hread.symm.trans hconf))
      have hself : merge p p = if p.eq p then p else p := merge_of_not (Or.inr hp)
      rw [if_pos (eq_refl p)] at hself
      rw [hagain, hnew, if_pos (eq_refl p), hself]
      exact ⟨rfl, hconf⟩
    · have hne : ¬ new.eq p = true := by
        intro hsame
        rw [hl.read_eq p new hread hsame] at hread
        exact hno hread
      rw [hagain, if_neg hne]
      exact List.cons_ne_nil _ _

/-- A new key is reported unless it has null. -/
theorem report_null_iff (v : Json κ) : report .null v = [] ↔ v = .null := by
  rw [report_of_not (Or.inl rfl), ← null_eq_iff]
  by_cases h : (Json.null : Json κ).eq v = true
  · rw [if_pos h]
    exact iff_of_true rfl h
  · rw [if_neg h]
    exact iff_of_false (List.cons_ne_nil _ _) h

/-- A field of a record that was changed: one that the patch has, and one that it
    has not. -/
theorem field_cases {fs : Shapes κ} {b n m : List (κ × Json κ)} (hs : SoundFields fs)
    (hb : CanonFields fs b) (hn : CanonFields fs n) (hm : (m.map Prod.fst).Nodup)
    (h : normMap fs (mergeFields b m) = some n) {k : κ} {t : Shape κ} (hk : fs.Has k t) :
    ∃ jb jn, b.lookup k = some jb ∧ n.lookup k = some jn ∧ Canon t jb ∧ Canon t jn ∧
      (∀ v, m.lookup k = some v → norm t (merge jb v) = some jn) ∧
      (m.lookup k = none → norm t jb = some jn) := by
  rcases canon_has fs b hs hb k t hk with ⟨jb, hjb, hcb⟩
  rcases canon_has fs n hs hn k t hk with ⟨jn, hjn, hcn⟩
  have hlookup := lookup_mergeFields m hm k b
  rw [hjb, entry_of_some hjb] at hlookup
  have hread : ∀ v, (mergeFields b m).lookup k = some v → norm t v = some jn := by
    intro v hv
    rcases normMap_has fs _ n hs h k t hk v hv with ⟨j, hj, hnj⟩
    rw [hjn, Option.some.injEq] at hnj
    rw [hj, hnj]
  refine ⟨jb, jn, hjb, hjn, hcb, hcn, fun v hv => hread _ ?_, fun hv => hread _ ?_⟩
  · rw [hlookup, hv]
    rfl
  · rw [hlookup, hv]
    rfl

section Record

variable {fs : Shapes κ} {b n m : List (κ × Json κ)} (hm : (m.map Prod.fst).Nodup)
  (hfield : ∀ k t v, fs.Has k t → m.lookup k = some v → ∃ jb jn, b.lookup k = some jb ∧
    n.lookup k = some jn ∧ Outcome t jb jn v)
  (hunknown : ∀ k, k ∉ fs.names → b.lookup k = none ∧ n.lookup k = none)

include hfield hunknown

/-- An entry of a patch that fits: null for a key that is not known, or a change of
    a field. -/
theorem entry_cases (hc : Conforms (.record fs) (.object m)) {k : κ} {v : Json κ}
    (hv : m.lookup k = some v) :
    (v = .null ∧ b.lookup k = none ∧ n.lookup k = none) ∨
      ∃ jb jn, b.lookup k = some jb ∧ n.lookup k = some jn ∧ Exact jb jn v ∧ report jn v = [] := by
  by_cases hk : k ∈ fs.names
  · rcases (Shapes.mem_names fs k).mp hk with ⟨t, ht⟩
    rcases hfield k t v ht hv with ⟨jb, jn, hjb, hjn, hout⟩
    have hct := (conformFields_iff fs m).mp hc.1 k t ht v hv
    exact Or.inr ⟨jb, jn, hjb, hjn, hout.exact hct, (hout.settled hct).1⟩
  · exact Or.inl ⟨hc.2 k v hv hk, hunknown k hk⟩

include hm

theorem record_exact (hrest : ∀ k, m.lookup k = none → n.lookup k = b.lookup k)
    (hc : Conforms (.record fs) (.object m)) : Exact (.object b) (.object n) (.object m) := by
  refine ⟨fun q => ?_, fun q hq => ?_⟩
  · change q ∈ reportFields b m ↔ _
    rw [mem_reportFields m hm q b]
    cases q with
    | nil =>
        refine iff_of_false ?_ ?_
        · rintro ⟨k, v, q', _, hq, _⟩
          exact List.cons_ne_nil k q' hq.symm
        · rintro ⟨⟨v, hv, hleaf⟩, _⟩
          rw [← Option.some.inj (show some (Json.object m) = some v from hv)] at hleaf
          exact Bool.noConfusion (hleaf : true = false)
    | cons k q =>
        have hat : ∀ w : List (κ × Json κ), (Json.object w).atPath (k :: q) =
            (w.lookup k).bind fun v => v.atPath q := fun _ => rfl
        rw [LeafAt, hat, hat, hat]
        cases hv : m.lookup k with
        | none =>
            refine iff_of_false ?_ ?_
            · rintro ⟨k', v, q', hv', hq, _⟩
              rw [← (List.cons.inj hq).1, hv] at hv'
              exact absurd hv' (by simp only [reduceCtorEq, not_false_eq_true])
            · rintro ⟨⟨v, hv', _⟩, _⟩
              exact absurd hv' (by simp only [Option.bind_none, reduceCtorEq, not_false_eq_true])
        | some v =>
            have hone : (∃ k' v' q', m.lookup k' = some v' ∧ k :: q = k' :: q' ∧
                q' ∈ report (entry b k') v') ↔
                q ∈ report (entry b k) v := by
              constructor
              · rintro ⟨k', v', q', hv', hq, hmem⟩
                rcases List.cons.inj hq with ⟨rfl, rfl⟩
                rw [hv, Option.some.injEq] at hv'
                rw [hv']
                exact hmem
              · exact fun hmem => ⟨k, v, q, hv, rfl, hmem⟩
            rw [hone]
            rcases entry_cases hfield hunknown hc hv with
              ⟨rfl, hb, hn⟩ | ⟨jb, jn, hb, hn, hexact, _⟩
            · rw [entry_of_none hb, hb, hn, (report_null_iff Json.null).mpr rfl]
              exact iff_of_false List.not_mem_nil fun h => h.2 rfl
            · rw [entry_of_some hb, hb, hn]
              exact hexact.reported q
  · cases q with
    | nil => exact absurd (show (Json.object m).Mentions [] from trivial) hq
    | cons k q =>
        change (n.lookup k).bind (fun v => v.atPath q) = (b.lookup k).bind fun v => v.atPath q
        cases hv : m.lookup k with
        | none => rw [hrest k hv]
        | some v =>
            rcases entry_cases hfield hunknown hc hv with
              ⟨_, hb, hn⟩ | ⟨jb, jn, hb, hn, hexact, _⟩
            · rw [hb, hn]
            · rw [hb, hn]
              exact hexact.kept q fun hmention => hq ⟨v, hv, hmention⟩

/-- A patch that fits is not reported again. -/
theorem record_quiet (hc : Conforms (.record fs) (.object m)) :
    report (.object n) (.object m) = [] := by
  change reportFields n m = []
  rw [List.eq_nil_iff_forall_not_mem]
  intro q hq
  rcases (mem_reportFields m hm q n).mp hq with ⟨k, v, q', hv, _, hmem⟩
  rcases entry_cases hfield hunknown hc hv with ⟨rfl, _, hn⟩ | ⟨jb, jn, _, hn, _, hquiet⟩
  · rw [entry_of_none hn, (report_null_iff Json.null).mpr rfl] at hmem
    exact List.not_mem_nil hmem
  · rw [entry_of_some hn, hquiet] at hmem
    exact List.not_mem_nil hmem

/-- What is not reported again fits. -/
theorem record_again (hquiet : report (.object n) (.object m) = []) :
    Conforms (.record fs) (.object m) := by
  have hentry : ∀ k v, m.lookup k = some v → report (entry n k) v = [] := by
    intro k v hv
    rw [List.eq_nil_iff_forall_not_mem]
    intro q hq
    have hmem : k :: q ∈ report (.object n) (.object m) :=
      (mem_reportFields m hm (k :: q) n).mpr ⟨k, v, q, hv, rfl, hq⟩
    rw [hquiet] at hmem
    exact List.not_mem_nil hmem
  refine ⟨(conformFields_iff fs m).mpr fun k t ht v hv => ?_, fun k v hv hk => ?_⟩
  · rcases hfield k t v ht hv with ⟨jb, jn, _, hjn, hout⟩
    have hnil := hentry k v hv
    rw [entry_of_some hjn] at hnil
    by_contra hno
    exact hout.again hno hnil
  · have hnil := hentry k v hv
    rw [entry_of_none (hunknown k hk).2] at hnil
    exact (report_null_iff v).mp hnil

end Record

/-- A record, from what becomes of its fields. -/
theorem outcome_record (fs : Shapes κ) (hs : SoundFields fs) (base new p : Json κ)
    (hb : Canon (.record fs) base) (hn : Canon (.record fs) new) (hp : p.Distinct)
    (h : norm (.record fs) (merge base p) = some new)
    (ih : ∀ k t, fs.Has k t → ∀ base new p : Json κ, Canon t base → Canon t new → p.Distinct →
      norm t (merge base p) = some new → Outcome t base new p) :
    Outcome (.record fs) base new p := by
  rcases hb with ⟨b, rfl, hb⟩
  rcases hn with ⟨n, rfl, hn⟩
  cases hobj : p.isObject with
  | false =>
      -- an array is read as a record, and reported as none
      have hno : ¬ Conforms (.record fs) p := by
        cases p with
        | object m => exact Bool.noConfusion (hobj : true = false)
        | _ => exact id
      refine ⟨fun hc => absurd hc hno, fun hc => absurd hc hno, fun _ => ?_⟩
      rw [report_of_not (Or.inr hobj), object_eq_of_not hobj, if_neg Bool.false_ne_true]
      exact List.cons_ne_nil _ _
  | true =>
      rcases p with _ | _ | _ | _ | _ | m
      case object =>
        have hm := hp.nodup
        have hmap : normMap fs (mergeFields b m) = some n := by
          rcases Option.map_eq_some_iff.mp h with ⟨n', hn', heq⟩
          rw [hn', Json.object.inj heq]
        -- what becomes of the fields that the patch has
        have hfield : ∀ k t v, fs.Has k t → m.lookup k = some v → ∃ jb jn, b.lookup k = some jb ∧
            n.lookup k = some jn ∧ Outcome t jb jn v := by
          intro k t v hk hv
          rcases field_cases hs hb hn hm hmap hk with ⟨jb, jn, hjb, hjn, hcb, hcn, hread, _⟩
          exact ⟨jb, jn, hjb, hjn, ih k t hk jb jn v hcb hcn (hp.entry hv) (hread v hv)⟩
        have hunknown : ∀ k, k ∉ fs.names → b.lookup k = none ∧ n.lookup k = none :=
          fun k hk => ⟨canon_none fs b hb k hk, canon_none fs n hn k hk⟩
        refine ⟨fun hc => record_exact hm hfield hunknown (fun k hv => ?_) hc,
          fun hc => ⟨record_quiet hm hfield hunknown hc, ?_⟩,
          fun hno hquiet => hno (record_again hm hfield hunknown hquiet)⟩
        · -- the others are read as they were written
          by_cases hk : k ∈ fs.names
          · rcases (Shapes.mem_names fs k).mp hk with ⟨t, ht⟩
            rcases field_cases hs hb hn hm hmap ht with ⟨jb, jn, hjb, hjn, hcb, _, _, hread⟩
            rw [hjb, hjn, canon_stable t jb jn (sound_has fs hs k t ht) hcb (hread hv)]
          · rw [(hunknown k hk).1, (hunknown k hk).2]
        · change (normMap fs (mergeFields n m)).map _ = _
          rw [normMap_eq fs _ n hs hn fun k t ht => ?_]
          · rfl
          · rcases field_cases hs hb hn hm hmap ht with ⟨jb, jn, hjb, hjn, hcb, _, _, hread⟩
            have hlookup := lookup_mergeFields m hm k n
            rw [hjn, entry_of_some hjn] at hlookup
            cases hv : m.lookup k with
            | none =>
                rw [hv] at hlookup
                have hsame := canon_stable t jb jn (sound_has fs hs k t ht) hcb (hread hv)
                refine ⟨jn, jn, hlookup, ?_, hjn⟩
                have hkeep := hread hv
                rw [← hsame] at hkeep
                exact hkeep
            | some v =>
                rw [hv] at hlookup
                rcases hfield k t v ht hv with ⟨jb', jn', _, hjn', hout⟩
                rw [hjn, Option.some.injEq] at hjn'
                rw [← hjn'] at hout
                have hct := (conformFields_iff fs m).mp hc.1 k t ht v hv
                exact ⟨merge jn v, jn, hlookup, (hout.settled hct).2, hjn⟩
      all_goals exact Bool.noConfusion (hobj : false = true)

mutual

/-- What becomes of a patch, for every shape. -/
theorem outcome (s : Shape κ) (base new p : Json κ) (hs : Sound s) (hb : Canon s base)
    (hn : Canon s new) (hp : p.Distinct) (h : norm s (merge base p) = some new) :
    Outcome s base new p := by
  cases s with
  | leaf read => exact outcome_leaf read hs base new p hb h
  | record fs =>
      exact outcome_record fs hs base new p hb hn hp h fun k t hk base new p =>
        outcome_has fs hs k t hk base new p

theorem outcome_has (fs : Shapes κ) (hs : SoundFields fs) (k : κ) (t : Shape κ) (hk : fs.Has k t)
    (base new p : Json κ) (hb : Canon t base) (hn : Canon t new) (hp : p.Distinct)
    (h : norm t (merge base p) = some new) : Outcome t base new p := by
  cases fs with
  | nil => exact absurd hk id
  | cons name s dflt fs =>
      by_cases hlast : fs.Has k t
      · exact outcome_has fs hs.2.2 k t hlast base new p hb hn hp h
      · have hfirst : t = s := (hk.resolve_right hlast).2
        rw [hfirst] at hb hn h ⊢
        exact outcome s base new p hs.2.1 hb hn hp h

end

end Outcome

end JsonTree
