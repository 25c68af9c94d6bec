import PrivacyClaw.Theory.RequestOps

/-!
# The Rows of a Request

Which rows a request adds to the vault, from what was found in its texts.

What is found makes an agenda, in the order in which Phase 3 goes through it: for
each text the replacements of the sidecar, then the spans that the position loop
comes to. A replacement of the sidecar is stored unless its original is known. A
span is stored unless its text is known or a synthetic, with a value that is made
from the seed and the number of mappings. Nothing else decides, so the rows can be
told without the vault (`newRows`), and the vault after the request is the one
before it with these rows behind the others (`processWith_extends`).

## Main definitions

* `Entry`, `Part.agenda`: What Phase 3 is to do.
* `Row`, `newRows`: What is stored of it.
* `Extends`: A vault with new rows.

## Theorems

* `newRows_given`, `newRows_drawn`: The two entries.
* `newRows_append`: An agenda in two parts.
* `newRows_guarded`: What Stage 2 stores is no synthetic before.
* `insertStage1_extends`, `replaceSpansFrom_extends`: The two loops.
* `phase3Trace_extends`, `processWith_extends`: A request.
-/

namespace PrivacyClaw

/-- Something that was found: a replacement of the sidecar with its display value, or a text
    with its type. -/
inductive Entry where
  | given (original displayValue : Str)
  | drawn (original : Str) (piiType : PiiType)
  deriving DecidableEq

/-- The insertion path of a row. -/
inductive Stage where
  | one
  | two
  deriving DecidableEq

/-- A row that is added. -/
structure Row where
  stage : Stage
  original : Str
  synthetic : Str
  deriving DecidableEq

/-- The texts that the position loop comes to, with their types. -/
def agendaFrom (text : Str) (spans : List PiiSpan) (i last : Nat) : List Entry :=
  (reachedFrom text.length spans i last).filterMap fun (_, span) =>
    (slice text span.start span.stop).map fun o => .drawn o span.entityType

/-- What Phase 3 is to do for a text. -/
def Part.agenda (p : Part) : List Entry :=
  p.result.stage1Spans.map (fun s => .given s.originalText s.displayValue) ++
    agendaFrom p.result.replacedText p.result.stage2Spans 0 0

section Rows

variable (R : Rand) (C : Chrono) (h : Hashes)

/-- The rows that are added for an agenda, when these originals and keys are there. -/
def newRows (seed : UInt64) : List Entry → List Str → List Str → List Row
  | [], _, _ => []
  | .given o d :: rest, originals, keys =>
    if originals.contains o then newRows seed rest originals keys
    else ⟨.one, o, d⟩ :: newRows seed rest (originals ++ [o]) (keys ++ [d])
  | .drawn o ty :: rest, originals, keys =>
    if keys.contains o || originals.contains o then newRows seed rest originals keys
    else
      match recipe R C ty o (R.seedFromU64 (seed + UInt64.ofNat originals.length)) with
      | none => newRows seed rest originals keys
      | some r => ⟨.two, o, r.text⟩ :: newRows seed rest (originals ++ [o]) (keys ++ [r.text])

theorem newRows_given (seed : UInt64) (o d : Str) (rest : List Entry) (originals keys : List Str) :
    newRows R C seed (.given o d :: rest) originals keys =
      if o ∈ originals then newRows R C seed rest originals keys
      else ⟨.one, o, d⟩ :: newRows R C seed rest (originals ++ [o]) (keys ++ [d]) := by
  simp only [newRows, List.contains_iff_mem]

theorem newRows_drawn (seed : UInt64) (o : Str) (ty : PiiType) (rest : List Entry)
    (originals keys : List Str) :
    newRows R C seed (.drawn o ty :: rest) originals keys =
      if o ∈ keys ∨ o ∈ originals then newRows R C seed rest originals keys
      else
        match recipe R C ty o (R.seedFromU64 (seed + UInt64.ofNat originals.length)) with
        | none => newRows R C seed rest originals keys
        | some r =>
          ⟨.two, o, r.text⟩ :: newRows R C seed rest (originals ++ [o]) (keys ++ [r.text]) := by
  simp only [newRows, Bool.or_eq_true, List.contains_iff_mem]

theorem newRows_append (seed : UInt64) (a b : List Entry) : ∀ originals keys : List Str,
    newRows R C seed (a ++ b) originals keys =
      newRows R C seed a originals keys ++
        newRows R C seed b
          (originals ++ (newRows R C seed a originals keys).map Row.original)
          (keys ++ (newRows R C seed a originals keys).map Row.synthetic) := by
  induction a with
  | nil =>
      intro originals keys
      simp only [newRows, List.nil_append, List.map_nil, List.append_nil]
  | cons e a ih =>
      intro originals keys
      cases e with
      | given o d =>
          by_cases ho : o ∈ originals
          · simp only [List.cons_append, newRows_given, if_pos ho]
            exact ih originals keys
          · simp only [List.cons_append, newRows_given, if_neg ho, List.map_cons, ih,
              List.append_assoc, List.nil_append]
      | drawn o ty =>
          by_cases ho : o ∈ keys ∨ o ∈ originals
          · simp only [List.cons_append, newRows_drawn, if_pos ho]
            exact ih originals keys
          · simp only [List.cons_append, newRows_drawn, if_neg ho]
            cases recipe R C ty o (R.seedFromU64 (seed + UInt64.ofNat originals.length)) with
            | none => exact ih originals keys
            | some r =>
                simp only [List.cons_append, List.map_cons, ih, List.append_assoc,
                  List.nil_append]

/-- What Stage 2 stores is not among the keys, nor among the synthetics of the rows before it. -/
theorem newRows_guarded (seed : UInt64) (agenda : List Entry) : ∀ originals keys : List Str,
    (newRows R C seed agenda originals keys).Pairwise
        (fun a b => b.stage = .two → b.original ≠ a.synthetic) ∧
      ∀ r ∈ newRows R C seed agenda originals keys, r.stage = .two → r.original ∉ keys := by
  have hcons : ∀ (r : Row) (rows : List Row) (keys : List Str),
      (r.stage = .two → r.original ∉ keys) →
      rows.Pairwise (fun a b => b.stage = .two → b.original ≠ a.synthetic) ∧
        (∀ b ∈ rows, b.stage = .two → b.original ∉ keys ++ [r.synthetic]) →
      (r :: rows).Pairwise (fun a b => b.stage = .two → b.original ≠ a.synthetic) ∧
        ∀ b ∈ r :: rows, b.stage = .two → b.original ∉ keys := by
    rintro r rows keys hr ⟨hpair, hrows⟩
    refine ⟨List.pairwise_cons.mpr ⟨fun b hb htwo he => ?_, hpair⟩,
      List.forall_mem_cons.mpr ⟨hr, fun b hb htwo hk => ?_⟩⟩
    · exact hrows b hb htwo (List.mem_append_right _ (he ▸ List.mem_cons_self))
    · exact hrows b hb htwo (List.mem_append_left _ hk)
  induction agenda with
  | nil => exact fun _ _ => ⟨List.Pairwise.nil, fun _ hr => absurd hr List.not_mem_nil⟩
  | cons e agenda ih =>
      intro originals keys
      cases e with
      | given o d =>
          rw [newRows_given]
          split
          · exact ih originals keys
          · exact hcons _ _ keys (fun h => Stage.noConfusion h) (ih _ _)
      | drawn o ty =>
          rw [newRows_drawn]
          split
          · exact ih originals keys
          · rename_i ho
            split
            · exact ih originals keys
            · exact hcons _ _ keys (fun _ hk => ho (.inl hk)) (ih _ _)

/-- The second vault is the first with the rows behind its own. -/
structure Extends (v : PiiVault) (rows : List Row) (v' : PiiVault) : Prop where
  wellFormed : v'.WellFormed
  rngSeed : v'.rngSeed = v.rngSeed
  originals : v'.originalValues = v.originalValues ++ rows.map Row.original
  keys : v'.syntheticKeys = v.syntheticKeys ++ rows.map Row.synthetic

namespace Extends

variable {v v' v'' : PiiVault} {rows rows' : List Row}

theorem refl (hv : v.WellFormed) : Extends v [] v :=
  ⟨hv, rfl, (List.append_nil _).symm, (List.append_nil _).symm⟩

theorem trans (h₁ : Extends v rows v') (h₂ : Extends v' rows' v'') :
    Extends v (rows ++ rows') v'' := by
  refine ⟨h₂.wellFormed, h₂.rngSeed.trans h₁.rngSeed, ?_, ?_⟩
  · rw [h₂.originals, h₁.originals, List.map_append, List.append_assoc]
  · rw [h₂.keys, h₁.keys, List.map_append, List.append_assoc]

/-- An agenda in two parts. -/
theorem append (a b : List Entry)
    (h₁ : Extends v (newRows R C v.rngSeed a v.originalValues v.syntheticKeys) v')
    (h₂ : Extends v' (newRows R C v'.rngSeed b v'.originalValues v'.syntheticKeys) v'') :
    Extends v (newRows R C v.rngSeed (a ++ b) v.originalValues v.syntheticKeys) v'' := by
  have hsecond := h₁.trans h₂
  rw [h₁.rngSeed, h₁.originals, h₁.keys, ← newRows_append] at hsecond
  exact hsecond

/-- One operation: no row for a known original, and one for a new one. -/
theorem of_apply (hv : v.WellFormed) (op : VaultOp) (hrun : op.apply R C v = some v') :
    op.original ∈ v.originalValues ∧ Extends v [] v' ∨
      op.original ∉ v.originalValues ∧ ∃ s, op.synthetic R C v = some s ∧
        ∀ stage, Extends v [⟨stage, op.original, s⟩] v' := by
  have hv' := op.apply_wellFormed R C v v' hv hrun
  have hseed := op.apply_rngSeed R C v v' hrun
  rw [hv.mem_originals_iff]
  rcases op.apply_cases R C v v' hrun with ⟨ho, _, hvals, hkeys⟩ | ⟨ho, s, hs, _, hvals, hkeys⟩
  · exact .inl ⟨ho, hv', hseed, by rw [hvals, List.map_nil, List.append_nil],
      by rw [hkeys, List.map_nil, List.append_nil]⟩
  · exact .inr ⟨ho, s, hs, fun _ => ⟨hv', hseed, hvals, hkeys⟩⟩

end Extends

/-- Stage 1 stores its pairs. -/
theorem insertStage1_extends (convId : Str) (base : Nat) :
    ∀ (spans : List Stage1Span) (j : Nat) (v : PiiVault), v.WellFormed →
      Extends v (newRows R C v.rngSeed (spans.map fun s => .given s.originalText s.displayValue)
        v.originalValues v.syntheticKeys) (insertStage1 h convId base spans j v) := by
  intro spans
  induction spans with
  | nil => exact fun _ _ hv => Extends.refl hv
  | cons s spans ih =>
      intro j v hv
      rw [List.map_cons, ← List.singleton_append]
      refine Extends.append R C _ _ ?_ (ih (j + 1) _ (hv.addMappingWithTokenId _ _ _ _ _ _))
      rw [newRows_given]
      rcases Extends.of_apply R C hv (.addMappingWithTokenId s.originalText s.displayValue
        (generateTokenId h convId (base + j)) (.custom s.piiType) 3 F32.one) rfl with
        ⟨ho, hext⟩ | ⟨ho, d, hd, hext⟩
      · rw [if_pos (show s.originalText ∈ v.originalValues from ho)]
        exact hext
      · rw [if_neg (show s.originalText ∉ v.originalValues from ho), newRows]
        rcases Option.some.inj hd with rfl
        exact hext .one

/-- The two operations for a span that is replaced add the row of its entry. -/
theorem drawn_extends (v v₁ : PiiVault) (hv : v.WellFormed) (o d tokenId : Str) (ty : PiiType)
    (locale : Locale) (tier : UInt8) (conf : F32) (hnew : o ∉ v.syntheticKeys)
    (hcreate : getOrCreate R C v o ty locale tier conf = some (d, v₁)) :
    Extends v (newRows R C v.rngSeed [.drawn o ty] v.originalValues v.syntheticKeys)
      (v₁.addMappingWithTokenId o d tokenId ty tier conf) := by
  have happ : (VaultOp.getOrCreate o ty locale tier conf).apply R C v = some v₁ := by
    rw [VaultOp.apply, hcreate]
    rfl
  have hv₁ := VaultOp.apply_wellFormed R C _ v v₁ hv happ
  -- behind the first operation the original is known
  have htoken : o ∈ v₁.originalValues →
      Extends v₁ [] (v₁.addMappingWithTokenId o d tokenId ty tier conf) := by
    intro ho
    rcases Extends.of_apply R C hv₁ (.addMappingWithTokenId o d tokenId ty tier conf) rfl with
      ⟨_, hext⟩ | ⟨hno, _⟩
    · exact hext
    · exact absurd ho hno
  rw [newRows_drawn]
  rcases Extends.of_apply R C hv _ happ with ⟨ho, hext⟩ | ⟨ho, s, hs, hext⟩
  · rw [if_pos (.inr ho)]
    refine hext.trans (htoken ?_)
    rw [hext.originals]
    exact List.mem_append_left _ ho
  · rw [if_neg (fun hc => hc.elim hnew ho)]
    rw [VaultOp.synthetic_eq_recipe, hv.count, ← hv.lengthOriginals] at hs
    rcases Option.map_eq_some_iff.mp hs with ⟨r, hr, rfl⟩
    rw [show recipe R C ty o _ = some r from hr]
    dsimp only
    rw [newRows]
    refine (hext .two).trans (htoken ?_)
    rw [(hext .two).originals]
    exact List.mem_append_right _ List.mem_cons_self

/-- The position loop stores what it comes to. -/
theorem replaceSpansFrom_extends (text : Str) (locale : Locale) (convId : Str) (base : Nat) :
    ∀ (spans : List PiiSpan) (i last : Nat) (v v' : PiiVault) (out : Str)
      (replaced : List Replaced), v.WellFormed →
      replaceSpansFrom R C h text locale convId base spans i last v = some (out, replaced, v') →
      Extends v (newRows R C v.rngSeed (agendaFrom text spans i last) v.originalValues
        v.syntheticKeys) v' := by
  intro spans
  induction spans with
  | nil =>
      intro i last v v' out replaced hv hrun
      rw [replaceSpansFrom, Option.bind_eq_bind, Option.bind_eq_some_iff] at hrun
      rcases hrun with ⟨tail, _, hrun⟩
      simp only [Option.some.injEq, Prod.mk.injEq] at hrun
      rcases hrun with ⟨_, _, rfl⟩
      exact Extends.refl hv
  | cons span spans ih =>
      intro i last v v' out replaced hv hrun
      rcases replaceSpansFrom_cases R C h text locale convId base span spans i last v v' out replaced
        hrun with ⟨hskip, hrest⟩ | ⟨hskip, gap, original, _, horig, hround⟩
      · have hagenda : agendaFrom text (span :: spans) i last = agendaFrom text spans (i + 1) last := by
          rw [agendaFrom, reachedFrom, if_pos hskip]
          rfl
        rw [hagenda]
        exact ih _ _ _ _ _ _ hv hrest
      · have hagenda : agendaFrom text (span :: spans) i last =
            .drawn original span.entityType :: agendaFrom text spans (i + 1) span.stop := by
          rw [agendaFrom, reachedFrom, if_neg hskip, List.filterMap_cons]
          dsimp only
          rw [horig]
          rfl
        rw [hagenda]
        rcases hround with ⟨hknown, out', hrest, _⟩ | ⟨hnew, d, v₁, out', replaced', hcreate, hrest,
          _, _⟩
        · -- a synthetic is copied
          rw [newRows_drawn, if_pos (.inl ((v.isSynthetic_iff original).mp hknown))]
          exact ih _ _ _ _ _ _ hv hrest
        · have hnot : original ∉ v.syntheticKeys := fun hk =>
            Bool.noConfusion (hnew.symm.trans ((v.isSynthetic_iff original).mpr hk))
          have hhead := drawn_extends R C v v₁ hv original d
            (generateTokenId h convId (base + i)) span.entityType locale span.tier span.confidence
            hnot hcreate
          exact hhead.append R C [_] _ (ih _ _ _ _ _ _ hhead.wellFormed hrest)

/-- Phase 3 stores what is new on the agenda of its parts. -/
theorem phase3Trace_extends (convId : Str) (base : Nat) (locale : Locale) :
    ∀ (parts : List Part) (v v' : PiiVault) (traces : List PartTrace),
      phase3Trace R C h convId base locale parts v = some (traces, v') → v.WellFormed →
      Extends v (newRows R C v.rngSeed (parts.flatMap Part.agenda) v.originalValues
        v.syntheticKeys) v' := by
  refine phase3Trace_induction R C h convId base locale (fun parts _ v v' => v.WellFormed →
    Extends v (newRows R C v.rngSeed (parts.flatMap Part.agenda) v.originalValues
      v.syntheticKeys) v') (fun v hv => Extends.refl hv) ?_
  intro p parts out replaced traces v v₁ v' hloop hrest hv
  have hstage1 := insertStage1_extends R C h convId base p.result.stage1Spans 0 v hv
  have hstage2 := replaceSpansFrom_extends R C h _ locale convId _ _ _ _ _ v₁ out replaced
    hstage1.wellFormed hloop
  rw [List.flatMap_cons]
  have hpart := hstage1.append R C _ _ hstage2
  exact hpart.append R C _ _ (hrest hpart.wellFormed)

/-- The rows that a request adds to the vault. -/
def Request.rows (q : Request) (reads : Nat → Nat) (v : PiiVault) : Option (List Row) :=
  (q.partsWith h reads v).map fun parts =>
    newRows R C v.rngSeed (parts.flatMap Part.agenda) v.originalValues v.syntheticKeys

/-- A request adds its rows. -/
theorem Request.processWith_extends (q : Request) (reads : Nat → Nat) (v v' : PiiVault)
    (hv : v.WellFormed) (hrun : q.processWith R C h reads v = some v') :
    ∃ rows, q.rows R C h reads v = some rows ∧ Extends v rows v' := by
  rw [processWith, Option.map_eq_some_iff] at hrun
  rcases hrun with ⟨⟨res, w⟩, hrun, rfl⟩
  rcases q.partsWith_trace R C h reads v w res hrun with ⟨parts, traces, hparts, htrace⟩
  refine ⟨_, by rw [rows, hparts]; rfl, ?_⟩
  exact phase3Trace_extends R C h _ _ q.locale parts v w traces htrace hv

end Rows

end PrivacyClaw
