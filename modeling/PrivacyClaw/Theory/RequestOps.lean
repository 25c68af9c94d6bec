import PrivacyClaw.Theory.OneToOne
import PrivacyClaw.Theory.TokenIds

/-!
# Requests as Vault Operations

The sequence of vault operations that a request makes, and a conversation as
one long run of them.

A request writes to the vault in Phase 3 only: first the replacements of the
sidecar, each with its token, then for every span of Stage 2 that is replaced
the synthetic is looked up or created and its token entered. What is true of
runs of operations is so a statement about requests (`conversation_run`).

The mapping counts that Phase 2 reads are those of other requests' progress
and only decide the token ids, so they are a parameter of the request.

## Main definitions

* `stage1Ops`, `stage2Ops`, `PartTrace.ops`: The operations for a text.
* `Request.ops`, `Request.processWith`: The operations of a request, and the
  vault after it.
* `requests`, `conversation`: The vault after a sequence of requests, and all
  the operations they make.

## Theorems

* `insertStage1_run`, `replaceSpansFrom_run`, `phase3Trace_run`: The loops of
  Phase 3 are runs of operations.
* `phase2All_getElem`: Phase 2 for each text.
* `phase3Entry_keys`, `phase3_keys`: Phase 3 only adds keys.
* `ops_of_trace`: The operations of a request, from its trace.
* `processWith_run`: A request is a run of its operations.
* `conversation_run`: A conversation is a run of its operations.
-/

namespace PrivacyClaw

section Ops

variable (R : Rand) (C : Chrono) (h : Hashes)

/-- The operations for the sidecar's replacements. -/
def stage1Ops (convId : Str) (base : Nat) : List Stage1Span → Nat → List VaultOp
  | [], _ => []
  | s :: spans, j =>
    .addMappingWithTokenId s.originalText s.displayValue (generateTokenId h convId (base + j))
        (.custom s.piiType) 3 F32.one ::
      stage1Ops convId base spans (j + 1)

/-- The operations for the spans that were replaced: the synthetic, then the
    token. -/
def stage2Ops (convId : Str) (base : Nat) (locale : Locale) (replaced : List Replaced) :
    List VaultOp :=
  replaced.flatMap fun r =>
    [.getOrCreate r.original r.span.entityType locale r.span.tier r.span.confidence,
      .addMappingWithTokenId r.original r.displayValue
        (generateTokenId h convId (base + r.position)) r.span.entityType r.span.tier
        r.span.confidence]

/-- The operations for a text. -/
def PartTrace.ops (convId : Str) (base : Nat) (locale : Locale) (t : PartTrace) : List VaultOp :=
  stage1Ops h convId base t.part.result.stage1Spans 0 ++
    stage2Ops h convId (base + t.part.result.stage1Spans.length) locale t.replaced

theorem insertStage1_run (convId : Str) (base : Nat) :
    ∀ (spans : List Stage1Span) (j : Nat) (v : PiiVault),
      VaultOp.run R C (stage1Ops h convId base spans j) v =
        some (insertStage1 h convId base spans j v) := by
  intro spans
  induction spans with
  | nil => intro j v; rfl
  | cons s spans ih =>
      intro j v
      rw [stage1Ops, VaultOp.run, VaultOp.apply, Option.bind_some, ih]
      rfl

theorem replaceSpansFrom_run (text : Str) (locale : Locale) (convId : Str) (base : Nat) :
    ∀ (spans : List PiiSpan) (i last : Nat) (v v' : PiiVault) (out : Str)
      (replaced : List Replaced),
      replaceSpansFrom R C h text locale convId base spans i last v = some (out, replaced, v') →
      VaultOp.run R C (stage2Ops h convId base locale replaced) v = some v' := by
  refine replaceSpansFrom_induction R C h text locale convId base
    (fun replaced v v' => VaultOp.run R C (stage2Ops h convId base locale replaced) v = some v')
    (fun v => rfl) ?_
  intro i span original d v v₁ v' replaced hcreate hrest
  -- a replaced span is two operations
  simp only [stage2Ops, List.flatMap_cons, List.cons_append, List.nil_append,
    VaultOp.run, VaultOp.apply, hcreate, Option.map_some, Option.bind_some]
  exact hrest

/-- Phase 3 is a run of the operations for its texts. -/
theorem phase3Trace_run (convId : Str) (base : Nat) (locale : Locale) :
    ∀ (parts : List Part) (v v' : PiiVault) (traces : List PartTrace),
      phase3Trace R C h convId base locale parts v = some (traces, v') →
      VaultOp.run R C (traces.flatMap (PartTrace.ops h convId base locale)) v = some v' := by
  refine phase3Trace_induction R C h convId base locale (fun _ traces v v' =>
    VaultOp.run R C (traces.flatMap (PartTrace.ops h convId base locale)) v = some v')
    (fun v => rfl) ?_
  intro p parts out replaced traces v v₁ v' hloop hrest
  rw [List.flatMap_cons, PartTrace.ops, VaultOp.run_append, VaultOp.run_append,
    insertStage1_run R C, Option.bind_some,
    replaceSpansFrom_run R C h _ _ _ _ _ _ _ _ _ _ _ hloop, Option.bind_some]
  exact hrest

/-- Phase 2 over all texts is Phase 2 for each of them. -/
theorem phase2All_getElem (p : PiiPipeline) (convId : Str) (reads : Nat → Nat) (locale : Locale) :
    ∀ (entries : List MessageTextEntry) (i : Nat) (results : List (Option EntryResult)),
      p.phase2All h convId reads locale entries i = some results →
      results.length = entries.length ∧
        ∀ k e r, entries[k]? = some e → results[k]? = some r →
          p.phase2 h (i + k) convId (reads (i + k)) locale e.text = some r := by
  intro entries
  induction entries with
  | nil =>
      intro i results hrun
      rw [PiiPipeline.phase2All, Option.some.injEq] at hrun
      refine ⟨by rw [← hrun]; rfl, fun k e r he => ?_⟩
      rw [List.getElem?_nil] at he
      exact absurd he.symm (Option.some_ne_none e)
  | cons e entries ih =>
      intro i results hrun
      rw [PiiPipeline.phase2All, Option.bind_eq_bind, Option.bind_eq_some_iff] at hrun
      rcases hrun with ⟨r, hr, hrun⟩
      rw [Option.bind_eq_bind, Option.bind_eq_some_iff] at hrun
      rcases hrun with ⟨rs, hrs, hrun⟩
      rw [Option.some.injEq] at hrun
      subst hrun
      rcases ih (i + 1) rs hrs with ⟨hlen, hall⟩
      refine ⟨by rw [List.length_cons, List.length_cons, hlen], ?_⟩
      intro k e' r' he hr'
      cases k with
      | zero =>
          rcases Option.some.inj he with rfl
          rcases Option.some.inj hr' with rfl
          exact hr
      | succ k =>
          rw [List.getElem?_cons_succ] at he hr'
          rw [← Nat.add_assoc, Nat.add_right_comm]
          exact hall k e' r' he hr'

/-- Masking a text only adds keys. -/
theorem phase3Entry_keys (convId : Str) (base : Nat) (locale : Locale) (r : EntryResult)
    (v v' : PiiVault) (out : Str) (dets : List PiiDetection)
    (hrun : phase3Entry R C h convId base locale r v = some (out, dets, v')) :
    v.syntheticKeys ⊆ v'.syntheticKeys := by
  rcases phase3Entry_cases R C h convId base locale r v v' out dets hrun with
    ⟨replaced, hloop, -⟩
  refine List.Subset.trans ?_ (replaceSpansFrom_keys R C h _ _ _ _ _ _ _ _ _ _ _ hloop)
  exact (VaultOp.run_adds R C _ v _
    (insertStage1_run R C h convId base r.stage1Spans 0 v)).subset

theorem phase3_keys (convId : Str) (base : Nat) (locale : Locale) :
    ∀ (work : List (MessageTextEntry × Option EntryResult)) (s s' : Phase3State),
      phase3 R C h convId base locale work s = some s' →
      s.vault.syntheticKeys ⊆ s'.vault.syntheticKeys := by
  intro work
  induction work with
  | nil =>
      intro s s' hrun
      rw [phase3, Option.some.injEq] at hrun
      rw [hrun]
      exact List.Subset.refl _
  | cons x work ih =>
      intro s s' hrun
      rw [phase3, Option.bind_eq_bind, Option.bind_eq_some_iff] at hrun
      rcases hrun with ⟨s₁, hstep, hrun⟩
      refine List.Subset.trans ?_ (ih s₁ s' hrun)
      rcases phase3Step_vault R C h convId base locale x.1 x.2 s s₁ hstep with
        ⟨-, hv⟩ | ⟨r, out, dets, -, hentry⟩
      · rw [hv]
        exact List.Subset.refl _
      · exact phase3Entry_keys R C h convId base locale r _ _ out dets hentry

namespace Request

/-- The vault after the request, when Phase 2 reads the given mapping counts. -/
def processWith (q : Request) (reads : Nat → Nat) (v : PiiVault) : Option PiiVault :=
  (q.pipeline.processRequestBodyAsync R C h q.json q.body reads v q.provider q.locale).map Prod.snd

/-- The vault operations of the request. -/
def ops (q : Request) (reads : Nat → Nat) (v : PiiVault) : Option (List VaultOp) :=
  match q.json.fromSlice q.body with
  | none => some []
  | some value => do
    let entries := collectMessageTexts value q.provider.messagesField
    let results ← q.pipeline.phase2All h v.conversationId reads q.locale entries 0
    let parts := q.pipeline.partsFrom v.conversationId v.mappingCount entries results 0
    let (traces, _) ← phase3Trace R C h v.conversationId v.mappingCount q.locale parts v
    some (traces.flatMap (PartTrace.ops h v.conversationId v.mappingCount q.locale))

/-- The operations of a request are those of the parts in its trace. -/
theorem ops_of_trace (q : Request) (reads : Nat → Nat) (v v' : PiiVault) (parts : List Part)
    (traces : List PartTrace) (hparts : q.partsWith h reads v = some parts)
    (htrace : phase3Trace R C h v.conversationId v.mappingCount q.locale parts v =
      some (traces, v')) :
    q.ops R C h reads v =
      some (traces.flatMap (PartTrace.ops h v.conversationId v.mappingCount q.locale)) := by
  unfold partsWith at hparts
  unfold ops
  cases hval : q.json.fromSlice q.body with
  | none =>
      rw [hval, Option.some.injEq] at hparts
      rw [← hparts, phase3Trace, Option.some.injEq, Prod.mk.injEq] at htrace
      rw [← htrace.1]
      rfl
  | some value =>
      rw [hval] at hparts
      rcases Option.map_eq_some_iff.mp hparts with ⟨results, hresults, hfrom⟩
      simp only [hresults, hfrom, htrace, Option.bind_eq_bind, Option.bind_some]

/-- A request is a run of its operations. -/
theorem processWith_run (q : Request) (reads : Nat → Nat) (v v' : PiiVault)
    (hrun : q.processWith R C h reads v = some v') :
    ∃ l, q.ops R C h reads v = some l ∧ VaultOp.run R C l v = some v' := by
  rw [processWith, Option.map_eq_some_iff] at hrun
  rcases hrun with ⟨⟨res, w⟩, hrun, rfl⟩
  rcases q.partsWith_trace R C h reads v w res hrun with ⟨parts, traces, hparts, htrace⟩
  exact ⟨_, q.ops_of_trace R C h reads v w parts traces hparts htrace,
    phase3Trace_run R C h _ _ q.locale parts v w traces htrace⟩

end Request

/-- The vault after a sequence of requests. -/
def requests : List (Request × (Nat → Nat)) → PiiVault → Option PiiVault
  | [], v => some v
  | (q, reads) :: qs, v => (q.processWith R C h reads v).bind (requests qs)

theorem requests_eq_run (qs : List (Request × (Nat → Nat))) (v : PiiVault) :
    requests R C h qs v = Machine.run (fun x v => x.1.processWith R C h x.2 v) qs v := by
  induction qs generalizing v with
  | nil => rfl
  | cons x qs ih => exact congrArg (x.1.processWith R C h x.2 v).bind (funext ih)

/-- The operations of a sequence of requests, one after the other. -/
def conversation : List (Request × (Nat → Nat)) → PiiVault → Option (List VaultOp)
  | [], _ => some []
  | (q, reads) :: qs, v => do
    let l ← q.ops R C h reads v
    let v' ← q.processWith R C h reads v
    let rest ← conversation qs v'
    some (l ++ rest)

/-- A conversation is a run of its operations. -/
theorem conversation_run : ∀ (qs : List (Request × (Nat → Nat))) (v v' : PiiVault),
    requests R C h qs v = some v' →
    ∃ l, conversation R C h qs v = some l ∧ VaultOp.run R C l v = some v' := by
  intro qs
  induction qs with
  | nil =>
      intro v v' hrun
      exact ⟨[], rfl, hrun⟩
  | cons q qs ih =>
      intro v v' hrun
      rcases q with ⟨q, reads⟩
      rw [requests, Option.bind_eq_some_iff] at hrun
      rcases hrun with ⟨w, hq, hrest⟩
      rcases q.processWith_run R C h reads v w hq with ⟨l, hl, hlrun⟩
      rcases ih w v' hrest with ⟨l', hl', hlrun'⟩
      refine ⟨l ++ l', ?_, ?_⟩
      · simp only [conversation, hl, hq, hl', Option.bind_eq_bind, Option.bind_some]
      · rw [VaultOp.run_append, hlrun, Option.bind_some, hlrun']

end Ops

end PrivacyClaw
