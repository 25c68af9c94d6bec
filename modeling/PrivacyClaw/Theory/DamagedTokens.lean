import PrivacyClaw.Theory.Cascade

/-!
# Damaged Tokens

Models echo a token with its id altered, quoted differently or left out. What is
between the tags may then still say which original is meant.

The cascade tries the whole token, its id and what is between its tags, but the
last only for a token in which it found an id to try before. An element without
an id between double quotes is left as it is, although the vault knows what is
between its tags. And what is found for an id is the first `id="`, wherever it
stands: at the end of another attribute's name, in another attribute's value or
between the tags. Which attribute is the id is read here from the attributes
themselves (`idValue`).

## Main definitions

* `element`: A token with the given attributes and display value.
* `flank`: What the cascade makes of the text around a token.
* `idValue`: The attribute with the name `id`.
* `elementOriginal`: The original that is meant.
* `FallsBack`: When the cascade gets that far.
* `sampleTokenVault`: A vault with one token.

## Theorems

* `cascade_element`: The cascade around one element.
* `idValue_split`: Where the id stands.
* `extractXmlAttr_isSome`: Beside an id, something is found for one.
* `extractXmlInner_element`: What is between the tags.
* `restoreToken_element_iff`, `element_restored_iff`: When the element is replaced by
  the original that is meant.
-/

namespace PrivacyClaw

/-- A token with the attributes `A` and the display value `D`. -/
def element (A D : Str) : Str := lit "<pii " ++ A ++ lit ">" ++ D ++ xmlTokenClose

/-- What the cascade makes of the text in front of a token and behind it. -/
def flank (v : PiiVault) (s : Str) : Str := if s = [] then [] else (v.replaceSynthetics s).1

/-- How far an attribute string is read: behind white space, where an attribute may begin,
    inside a name or behind a value, or inside a value. -/
inductive AttrPlace where
  | space
  | name
  | value (mark : UInt8)
  deriving DecidableEq

/-- The value of the attribute `id`, between double quotes. -/
def idValue : AttrPlace → Str → Option Str
  | _, [] => none
  | .value mark, c :: s => idValue (if c = mark then .name else .value mark) s
  | .name, c :: s =>
    if c = 34 ∨ c = 39 then idValue (.value c) s
    else idValue (if c ∈ [9, 10, 13, 32] then .space else .name) s
  | .space, c :: s =>
    if lit "id=\"" <+: c :: s then
      (Search.find (lit "\"") ((c :: s).drop 4)).map ((c :: s).drop 4).take
    else if c = 34 ∨ c = 39 then idValue (.value c) s
    else idValue (if c ∈ [9, 10, 13, 32] then .space else .name) s

/-- The original that an element means: that of the whole token, else that of its
    id, else that of its display value. -/
def elementOriginal (v : PiiVault) (A D byDisplay : Str) : Str :=
  match v.fullTokenToOriginal.lookup (element A D) with
  | some original => original
  | none => ((idValue .space A).bind v.getByTokenId).getD byDisplay

/-- The vault knows the whole element; or what is found for an id is the id of the
    element, or it stands for the original that is meant, or for none where the display
    value decides; or nothing is found, and the original is the element itself. -/
def FallsBack (v : PiiVault) (A D byDisplay : Str) : Prop :=
  (v.fullTokenToOriginal.lookup (element A D)).isSome = true ∨
    (∃ i, extractXmlAttr (element A D) (lit "id") = some i ∧
      (idValue .space A = some i ∨
        (∀ original, v.getByTokenId i = some original →
          original = elementOriginal v A D byDisplay) ∧
        (v.getByTokenId i = none → elementOriginal v A D byDisplay = byDisplay))) ∨
    (extractXmlAttr (element A D) (lit "id") = none ∧ byDisplay = element A D)

/-- The id stands among the attributes, in double quotes. -/
theorem idValue_split (i : Str) : ∀ (A : Str) (p : AttrPlace), idValue p A = some i →
    ∃ g r, A = g ++ (lit "id=\"" ++ (i ++ 34 :: r)) := by
  have hcons : ∀ (c : UInt8) (s : Str), (∃ g r, s = g ++ (lit "id=\"" ++ (i ++ 34 :: r))) →
      ∃ g r, c :: s = g ++ (lit "id=\"" ++ (i ++ 34 :: r)) := by
    rintro c s ⟨g, r, rfl⟩
    exact ⟨c :: g, r, rfl⟩
  intro A
  induction A with
  | nil =>
      intro p h
      cases p <;> exact absurd h.symm (Option.some_ne_none i)
  | cons c s ih =>
      intro p h
      cases p with
      | value mark =>
          rw [idValue] at h
          exact hcons c s (ih _ h)
      | name =>
          rw [idValue] at h
          by_cases hq : c = 34 ∨ c = 39
          · rw [if_pos hq] at h
            exact hcons c s (ih _ h)
          · rw [if_neg hq] at h
            exact hcons c s (ih _ h)
      | space =>
          rw [idValue] at h
          by_cases hid : lit "id=\"" <+: c :: s
          · -- the attribute begins here
            rw [if_pos hid] at h
            rcases hid with ⟨t, ht⟩
            rcases Option.map_eq_some_iff.mp h with ⟨stop, hstop, htake⟩
            rw [← ht, show (lit "id=\"" ++ t).drop 4 = t from rfl] at hstop htake
            rcases Search.find_split _ t stop (by decide) hstop with ⟨g, r, rfl, rfl, _⟩
            rw [List.take_left] at htake
            subst htake
            exact ⟨[], r, ht.symm⟩
          · rw [if_neg hid] at h
            by_cases hq : c = 34 ∨ c = 39
            · rw [if_pos hq] at h
              exact hcons c s (ih _ h)
            · rw [if_neg hq] at h
              exact hcons c s (ih _ h)

/-- Where an id stands among the attributes, something is found for one. -/
theorem extractXmlAttr_isSome (A D i : Str) (h : idValue .space A = some i) :
    (extractXmlAttr (element A D) (lit "id")).isSome = true := by
  rcases idValue_split i A .space h with ⟨g, r, rfl⟩
  have hsplit : element (g ++ (lit "id=\"" ++ (i ++ 34 :: r))) D = (lit "<pii " ++ g) ++
      (lit "id=\"" ++ (i ++ 34 :: (r ++ (lit ">" ++ (D ++ xmlTokenClose))))) := by
    simp only [element, List.append_assoc, List.cons_append]
  rw [hsplit]
  generalize lit "<pii " ++ g = pre
  generalize r ++ (lit ">" ++ (D ++ xmlTokenClose)) = post
  rw [extractXmlAttr]
  change Option.isSome (Option.bind (Search.find (lit "id=\"") _) _) = true
  -- the first place is not behind the attribute, so its closing quote comes later
  cases hfind : Search.find (lit "id=\"") (pre ++ (lit "id=\"" ++ (i ++ 34 :: post))) with
  | none =>
      refine absurd ?_ ((Search.find_eq_none_iff _ _).mp hfind)
      exact (List.prefix_append _ _).isInfix.trans (List.suffix_append pre _).isInfix
  | some start =>
      have hfirst := (Search.find_eq_some _ _ _ hfind).2.2
      have hle : start ≤ pre.length := by
        by_contra hlt
        refine hfirst pre.length (by omega) ?_
        rw [List.drop_left]
        exact List.prefix_append _ _
      have hquote : (34 : UInt8) ∈
          (pre ++ (lit "id=\"" ++ (i ++ 34 :: post))).drop (start + 4) := by
        have hin : (34 : UInt8) ∈ (pre ++ (lit "id=\"" ++ (i ++ 34 :: post))).drop
            (pre.length + 4) := by
          rw [← List.drop_drop, List.drop_left]
          exact List.mem_append_right i List.mem_cons_self
        rw [show pre.length + 4 = (start + 4) + (pre.length - start) by omega,
          ← List.drop_drop] at hin
        exact List.mem_of_mem_drop hin
      rw [Option.bind_some]
      change Option.isSome (Option.bind (Search.find (lit "\"") (List.drop (start + 4) _)) _) = true
      cases hstop : Search.find (lit "\"")
          ((pre ++ (lit "id=\"" ++ (i ++ 34 :: post))).drop (start + 4)) with
      | none =>
          refine absurd ?_ ((Search.find_eq_none_iff _ _).mp hstop)
          rcases List.append_of_mem hquote with ⟨x, y, hxy⟩
          exact ⟨x, y, by rw [hxy, List.append_assoc]; rfl⟩
      | some stop => rfl

section Element

variable {A D : Str} (hA : 60 ∉ A ∧ 62 ∉ A) (hD : 60 ∉ D)
include hA hD

/-- An element is closed at its end. -/
theorem openToken_element :
    OpenToken (lit "<pii " ++ A ++ lit ">" ++ D) := by
  constructor
  · rw [show lit "<pii " = xmlTokenOpen ++ [32] by decide, List.append_assoc, List.append_assoc,
      List.append_assoc]
    exact List.prefix_append _ _
  · have hopen : lit "<pii " = 60 :: lit "pii " := by decide
    have hclose : xmlTokenClose = 60 :: 47 :: lit "pii>" := by decide
    -- the only angle is the first byte, and no slash follows it
    have hrest : 60 ∉ lit "pii " ++ A ++ lit ">" ++ D := by
      simp only [List.mem_append, not_or]
      exact ⟨⟨⟨by decide, hA.1⟩, by decide⟩, hD⟩
    intro h
    rw [hopen, List.cons_append, List.cons_append, List.cons_append] at h
    rcases List.infix_cons_iff.mp h with hpre | hin
    · rw [hclose, show lit "pii " = 112 :: lit "ii " by decide, List.cons_append, List.cons_append,
        List.cons_append] at hpre
      exact absurd (List.cons_prefix_cons.mp (List.cons_prefix_cons.mp hpre).2).1 (by decide)
    · exact hrest (hin.subset (by decide))

/-- The cascade around one element. -/
theorem cascade_element (v : PiiVault) (before after : Str)
    (hbefore : ¬ xmlTokenOpen <:+: before) (hafter : ¬ xmlTokenOpen <:+: after) :
    applyXmlTokenCascade (before ++ (element A D ++ after)) v =
      flank v before ++ (restoreToken v (element A D) ++ flank v after) := by
  have htoken := openToken_element hA hD
  have hopen := htoken.find_open before (xmlTokenClose ++ after) hbefore
  have hclose := htoken.find_close after
  have hlen : (lit "<pii " ++ A ++ lit ">" ++ D).length + xmlTokenClose.length =
      (element A D).length := List.length_append.symm
  have hend : (lit "<pii " ++ A ++ lit ">" ++ D) ++ (xmlTokenClose ++ after) =
      element A D ++ after := (List.append_assoc _ _ _).symm
  rw [hend] at hopen hclose
  -- one round for the element, and one for what is behind it
  have hrest : ∀ fuel, cascadeFrom v (fuel + 1) after = flank v after := by
    intro fuel
    cases after with
    | nil => rfl
    | cons c s =>
        rw [cascadeFrom, (Search.find_eq_none_iff _ _).mpr hafter, flank,
          if_neg (List.cons_ne_nil c s)]
  unfold applyXmlTokenCascade
  rw [hopen]
  dsimp only
  cases htext : before ++ (element A D ++ after) with
  | nil =>
      have hnil := (List.append_eq_nil_iff.mp (List.append_eq_nil_iff.mp htext).2).1
      exact absurd hnil (List.append_ne_nil_of_right_ne_nil _ (by decide))
  | cons c s =>
      rw [htext] at hopen
      rw [List.length_cons, cascadeFrom, hopen]
      dsimp only
      rw [← htext, List.drop_left, List.take_left, hclose]
      dsimp only
      rw [hlen, List.take_left, List.drop_left, hrest, List.append_assoc]
      refine congrArg (· ++ _) ?_
      rw [flank]
      by_cases hnil : before = []
      · rw [if_pos hnil, if_pos (List.length_eq_zero_iff.mpr hnil)]
      · rw [if_neg hnil, if_neg fun h => hnil (List.length_eq_zero_iff.mp h)]

omit hD in
/-- What is between the tags is the display value. -/
theorem extractXmlInner_element : extractXmlInner (element A D) = some D := by
  have hsplit : element A D = (lit "<pii " ++ A) ++ (lit ">" ++ (D ++ xmlTokenClose)) := by
    simp only [element, List.append_assoc]
  have hend : element A D = (lit "<pii " ++ A ++ lit ">" ++ D) ++ xmlTokenClose := rfl
  have hopen : Search.find (lit ">") (element A D) = some (lit "<pii " ++ A).length := by
    rw [hsplit]
    refine Search.find_append_headOnly _ _ _ (by decide) fun hin => ?_
    rcases List.mem_append.mp (hin.subset (by decide : (62 : UInt8) ∈ lit ">")) with h | h
    · exact absurd h (by decide)
    · exact hA.2 h
  have hclose : Search.rfind (lit "</") (element A D) =
      some (lit "<pii " ++ A ++ lit ">" ++ D).length := by
    rw [hend]
    refine Search.rfind_of_last _ _ _ (by decide) ?_ ?_
    · rw [List.drop_left]
      decide
    · intro j hj hpre
      -- behind it there is no angle
      rw [List.drop_append, List.drop_eq_nil_of_le (Nat.le_of_lt hj), List.nil_append] at hpre
      have hmem := hpre.subset (by decide : (60 : UInt8) ∈ lit "</")
      cases hk : j - (lit "<pii " ++ A ++ lit ">" ++ D).length with
      | zero => exact absurd (Nat.le_of_sub_eq_zero hk) (Nat.not_le_of_lt hj)
      | succ k =>
          rw [hk, show xmlTokenClose = 60 :: lit "/pii>" by decide, List.drop_succ_cons] at hmem
          exact absurd (List.mem_of_mem_drop hmem) (by decide)
  have hlen : (lit "<pii " ++ A ++ lit ">").length = (lit "<pii " ++ A).length + 1 :=
    List.length_append
  have hle : ¬ (lit "<pii " ++ A ++ lit ">" ++ D).length < (lit "<pii " ++ A).length + 1 := by
    rw [← hlen, @List.length_append _ (lit "<pii " ++ A ++ lit ">")]
    exact Nat.not_lt.mpr (Nat.le_add_right _ _)
  rw [extractXmlInner, hopen, Option.bind_eq_bind, Option.bind_some, hclose]
  dsimp only [Option.bind_some]
  rw [if_neg hle, hend, List.take_left, ← hlen, List.drop_left]

omit hD in
/-- An element is replaced by the original that it means exactly if the cascade
    falls back so far. -/
theorem restoreToken_element_iff (v : PiiVault) (byDisplay : Str)
    (hknown : v.getByDisplayValue D = some byDisplay) :
    restoreToken v (element A D) = elementOriginal v A D byDisplay ↔ FallsBack v A D byDisplay := by
  have hinner := extractXmlInner_element (D := D) hA
  have hsome := extractXmlAttr_isSome A D
  unfold restoreToken FallsBack
  cases hfull : v.fullTokenToOriginal.lookup (element A D) with
  | some original =>
      refine iff_of_true ?_ (.inl rfl)
      rw [elementOriginal, hfull]
  | none =>
      have hmeant : elementOriginal v A D byDisplay =
          ((idValue .space A).bind v.getByTokenId).getD byDisplay := by
        rw [elementOriginal, hfull]
      have hno : ¬ (none : Option Str).isSome = true := Bool.false_ne_true
      rw [hmeant]
      dsimp only
      rw [hinner, Option.bind_some, hknown]
      cases hid : extractXmlAttr (element A D) (lit "id") with
      | none =>
          -- the display value is not tried, and there is no id that could be meant
          have hnone : idValue .space A = none := by
            cases hA' : idValue .space A with
            | none => rfl
            | some i =>
                have := hsome i hA'
                rw [hid] at this
                exact absurd this hno
          rw [hnone, Option.bind_none, Option.getD_none]
          dsimp only
          constructor
          · exact fun h => .inr (.inr ⟨rfl, h.symm⟩)
          · rintro (h | ⟨i, h, _⟩ | ⟨_, h⟩)
            · exact absurd h hno
            · exact absurd h.symm (Option.some_ne_none i)
            · exact h.symm
      | some i =>
          dsimp only
          constructor
          · intro h
            refine .inr (.inl ⟨i, rfl, .inr ⟨fun original ho => ?_, fun hnone => ?_⟩⟩)
            · rw [ho] at h
              exact h
            · rw [hnone] at h
              exact h.symm
          · rintro (h | ⟨j, hj, h⟩ | ⟨h, _⟩)
            · exact absurd h hno
            · rw [Option.some.injEq] at hj
              subst hj
              rcases h with h | ⟨hsame, hdisplay⟩
              · rw [h, Option.bind_some]
                cases v.getByTokenId i with
                | none => rfl
                | some original => rfl
              · cases hget : v.getByTokenId i with
                | none => exact (hdisplay hget).symm
                | some original => exact hsame original hget
            · exact absurd h (Option.some_ne_none i)

end Element

/-- A vault with one token. -/
def sampleTokenVault : PiiVault :=
  (PiiVault.empty (lit "c") 0).addMappingWithTokenId (lit "ann") (lit "bob") (lit "a1b2c3d4")
    .personName 1 F32.one

-- The id comes behind an attribute whose name ends in it, and behind one in whose value
-- the same text stands.
example : idValue .space (lit "data-id=\"x\" id=\"a1b2c3d4\"") = some (lit "a1b2c3d4") := by decide
example : idValue .space (lit "title=' id=\"x\"' id=\"a1b2c3d4\"") = some (lit "a1b2c3d4") := by
  decide

end PrivacyClaw
