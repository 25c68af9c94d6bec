import PrivacyClaw.Theory.Chaining

/-!
# Display Values of One Original

Which display values the tokens of one original carry over a conversation.

The vault stores one synthetic for an original and keeps it. Stage 2 asks the
vault, so its tokens show what is stored. Stage 1 shows what the sidecar replies:
for a new original that is what is stored from then on, for a known one it may be
anything. So the tokens of an original agree exactly as long as every token that
is entered for a known original shows what is stored (`one_display_iff`).

## Main definitions

* `VaultOp.token`, `tokensOf`: The tokens that operations enter, by original and
  display value.
* `VaultOp.Shows`: The token of an operation shows what is stored.
* `Sourced`: Every synthetic that is stored on the way is shown by a token.

## Theorems

* `getSynthetic_run`: What is stored for an original stays.
* `conversation_sourced`: A conversation stores nothing but what its tokens show.
* `replaceSpansFrom_shows`: Stage 2 shows what is stored.
* `shows_iff`: When the tokens of a run show what is stored at its end.
-/

namespace PrivacyClaw

namespace VaultOp

/-- The original and the display value of the token that is entered. -/
def token : VaultOp → Option (Str × Str)
  | .addMappingWithTokenId o d _ _ _ _ => some (o, d)
  | .getOrCreate .. | .addMapping .. => none

/-- A token for an original that the vault knows shows what is stored for it. -/
def Shows (op : VaultOp) (v : PiiVault) : Prop :=
  ∀ o d s, op.token = some (o, d) → v.getSynthetic o = some s → d = s

end VaultOp

/-- The tokens of a list of operations. -/
def tokensOf (l : List VaultOp) : List (Str × Str) := l.filterMap VaultOp.token

theorem tokensOf_append (l l' : List VaultOp) : tokensOf (l ++ l') = tokensOf l ++ tokensOf l' :=
  List.filterMap_append

section Runs

variable (R : Rand) (C : Chrono)

/-- What is stored for an original stays. -/
theorem getSynthetic_apply (op : VaultOp) (v v' : PiiVault) (happ : op.apply R C v = some v')
    (o s : Str) (hs : v.getSynthetic o = some s) : v'.getSynthetic o = some s := by
  rcases op.apply_cases R C v v' happ with ⟨_, hmap, _⟩ | ⟨hnew, t, _, hmap, _⟩
  · rw [PiiVault.getSynthetic, hmap]
    exact hs
  · have hne : o ≠ op.original := by
      rintro rfl
      rw [PiiVault.getSynthetic, AList.lookup_eq_none.mpr hnew] at hs
      exact absurd hs.symm (Option.some_ne_none s)
    rw [PiiVault.getSynthetic, hmap, AList.lookup_insert_ne hne]
    exact hs

theorem getSynthetic_run (o s : Str) : ∀ (l : List VaultOp) (v v' : PiiVault),
    VaultOp.run R C l v = some v' → v.getSynthetic o = some s → v'.getSynthetic o = some s := by
  intro l
  induction l with
  | nil =>
    intro v v' hrun hs
    rw [VaultOp.run, Option.some.injEq] at hrun
    rw [← hrun]
    exact hs
  | cons op l ih =>
    intro v v' hrun hs
    rw [VaultOp.run, Option.bind_eq_some_iff] at hrun
    rcases hrun with ⟨w, happ, hrest⟩
    exact ih w v' hrest (getSynthetic_apply R C op v w happ o s hs)

/-- What is stored after an operation was stored before or is its own. -/
theorem getSynthetic_cases (op : VaultOp) (v v' : PiiVault) (happ : op.apply R C v = some v')
    (o s : Str) (hs : v'.getSynthetic o = some s) :
    v.getSynthetic o = some s ∨ o = op.original ∧ op.synthetic R C v = some s := by
  rcases op.apply_cases R C v v' happ with ⟨_, hmap, _⟩ | ⟨_, t, ht, hmap, _⟩
  · rw [PiiVault.getSynthetic, hmap] at hs
    exact Or.inl hs
  · by_cases ho : o = op.original
    · rw [PiiVault.getSynthetic, hmap, ho, AList.lookup_insert, Option.some.injEq] at hs
      exact Or.inr ⟨ho, by rw [ht, hs]⟩
    · rw [PiiVault.getSynthetic, hmap, AList.lookup_insert_ne ho] at hs
      exact Or.inl hs

/-- From a state of a run the rest leads to its end. -/
theorem run_drop (l : List VaultOp) (n : Nat) (v₀ v vEnd : PiiVault)
    (hrun : VaultOp.run R C l v₀ = some vEnd) (hv : VaultOp.run R C (l.take n) v₀ = some v) :
    VaultOp.run R C (l.drop n) v = some vEnd := by
  rw [← List.take_append_drop n l, VaultOp.run_append, hv, Option.bind_some] at hrun
  exact hrun

/-- After a token is entered, its original has a synthetic. -/
theorem getSynthetic_token (op : VaultOp) (v v' : PiiVault) (happ : op.apply R C v = some v')
    (o d : Str) (htok : op.token = some (o, d)) :
    ∃ s, v'.getSynthetic o = some s ∧ (v.getSynthetic o = some s ∨
      v.getSynthetic o = none ∧ s = d) := by
  cases op with
  | addMappingWithTokenId p e id ty tier conf =>
    rw [VaultOp.token, Option.some.injEq, Prod.mk.injEq] at htok
    rcases htok with ⟨rfl, rfl⟩
    rcases VaultOp.apply_cases R C _ v v' happ with ⟨hmem, hmap, _⟩ | ⟨hnew, s, hs, hmap, _⟩
    · rcases Option.isSome_iff_exists.mp (AList.lookup_isSome.mpr hmem) with ⟨s, hs⟩
      refine ⟨s, ?_, Or.inl hs⟩
      rw [PiiVault.getSynthetic, hmap]
      exact hs
    · rw [VaultOp.synthetic, Option.some.injEq] at hs
      refine ⟨s, ?_, Or.inr ⟨AList.lookup_eq_none.mpr hnew, hs.symm⟩⟩
      rw [PiiVault.getSynthetic, hmap]
      exact AList.lookup_insert _
  | getOrCreate => exact absurd htok.symm (Option.some_ne_none _)
  | addMapping => exact absurd htok.symm (Option.some_ne_none _)

/-- The tokens of a run show what is stored at its end exactly if each of them
    shows what is stored when it is entered. -/
theorem shows_iff (l : List VaultOp) (v₀ vEnd : PiiVault)
    (hrun : VaultOp.run R C l v₀ = some vEnd) :
    (∀ o d, (o, d) ∈ tokensOf l → vEnd.getSynthetic o = some d) ↔
      ∀ n op v, l[n]? = some op → VaultOp.run R C (l.take n) v₀ = some v → op.Shows v := by
  constructor
  · intro hend n op v hop hv o d s htok hs
    have hmem : (o, d) ∈ tokensOf l :=
      List.mem_filterMap.mpr ⟨op, List.mem_of_getElem? hop, htok⟩
    -- what is stored at the step is stored at the end
    have hstay := getSynthetic_run R C o s _ v vEnd (run_drop R C l n v₀ v vEnd hrun hv) hs
    rw [hend o d hmem, Option.some.injEq] at hstay
    exact hstay
  · intro hall o d hmem
    rcases List.mem_filterMap.mp hmem with ⟨op, hop, htok⟩
    rcases List.mem_iff_getElem?.mp hop with ⟨n, hop⟩
    have hv : ∃ v, VaultOp.run R C (l.take n) v₀ = some v := by
      have hsplit := hrun
      rw [← List.take_append_drop n l, VaultOp.run_append, Option.bind_eq_some_iff] at hsplit
      rcases hsplit with ⟨v, hv, _⟩
      exact ⟨v, hv⟩
    rcases hv with ⟨v, hv⟩
    rcases VaultOp.run_next R C l n op v₀ v vEnd hrun hop hv with ⟨v', happ, hnext⟩
    refine getSynthetic_run R C o d _ v' vEnd (run_drop R C l (n + 1) v₀ v' vEnd hrun hnext) ?_
    -- The token finds its original stored, or stores its own value for it.
    rcases getSynthetic_token R C op v v' happ o d htok with ⟨s, hs, hold | ⟨_, rfl⟩⟩
    · rw [hs, hall n op v hop hv o d s htok hold]
    · exact hs

end Runs

/-- Every synthetic that is stored on the way from a vault to another is shown by
    a token. -/
def Sourced (l : List VaultOp) (v v' : PiiVault) : Prop :=
  ∀ o s, v'.getSynthetic o = some s → v.getSynthetic o = some s ∨ (o, s) ∈ tokensOf l

theorem Sourced.refl (v : PiiVault) : Sourced [] v v := fun _ _ hs => Or.inl hs

theorem Sourced.trans {l l' : List VaultOp} {v w v' : PiiVault} (h : Sourced l v w)
    (h' : Sourced l' w v') : Sourced (l ++ l') v v' := by
  intro o s hs
  rw [tokensOf_append, List.mem_append]
  rcases h' o s hs with hw | htok
  · rcases h o s hw with hv | htok
    · exact Or.inl hv
    · exact Or.inr (Or.inl htok)
  · exact Or.inr (Or.inr htok)

section Sources

variable (R : Rand) (C : Chrono) (h : Hashes)

/-- Entering a token stores its display value or nothing. -/
theorem addMappingWithTokenId_sourced (v : PiiVault) (o d id : Str) (ty : PiiType) (tier : UInt8)
    (conf : F32) : Sourced [.addMappingWithTokenId o d id ty tier conf] v
      (v.addMappingWithTokenId o d id ty tier conf) := by
  intro p s hs
  rcases getSynthetic_cases Rand.least Chrono.none
      (.addMappingWithTokenId o d id ty tier conf) v _ rfl p s hs with hold | ⟨ho, hd⟩
  · exact Or.inl hold
  · rw [VaultOp.synthetic, Option.some.injEq] at hd
    rw [VaultOp.original] at ho
    rw [ho, ← hd]
    exact Or.inr List.mem_cons_self

theorem insertStage1_sourced (convId : Str) (base : Nat) :
    ∀ (spans : List Stage1Span) (j : Nat) (v : PiiVault),
    Sourced (stage1Ops h convId base spans j) v (insertStage1 h convId base spans j v) := by
  intro spans
  induction spans with
  | nil => exact fun _ v => .refl v
  | cons s spans ih =>
    intro j v
    exact (addMappingWithTokenId_sourced v s.originalText s.displayValue _ _ 3 F32.one).trans
      (ih (j + 1) _)

/-- The synthetic that Stage 2 looks up or creates is stored, and nothing else
    is. -/
theorem getOrCreate_stores (v v' : PiiVault) (o d : Str) (ty : PiiType) (locale : Locale)
    (tier : UInt8) (conf : F32) (hrun : getOrCreate R C v o ty locale tier conf = some (d, v')) :
    v'.getSynthetic o = some d ∧
      ∀ p s, v'.getSynthetic p = some s → v.getSynthetic p = some s ∨ p = o ∧ s = d := by
  have happ : (VaultOp.getOrCreate o ty locale tier conf).apply R C v = some v' := by
    rw [VaultOp.apply, hrun]
    rfl
  rcases getOrCreate_cases R C v v' o d ty locale tier conf hrun with
    ⟨hget, rfl⟩ | ⟨hget, hfresh, rfl⟩
  · exact ⟨hget, fun p s hs => Or.inl hs⟩
  · refine ⟨?_, fun p s hs => ?_⟩
    · simp only [PiiVault.getSynthetic, PiiVault.addMapping,
        if_neg (AList.lookup_eq_none.mp hget)]
      exact AList.lookup_insert _
    · rcases getSynthetic_cases R C _ v _ happ p s hs with hold | ⟨ho, hd⟩
      · exact Or.inl hold
      · rw [VaultOp.synthetic, hfresh, Option.some.injEq] at hd
        exact Or.inr ⟨ho, hd.symm⟩

/-- Stage 2 stores what its tokens show, and they show what is stored. -/
theorem replaceSpansFrom_shows (text : Str) (locale : Locale) (convId : Str) (base : Nat) :
    ∀ (spans : List PiiSpan) (i last : Nat) (v v' : PiiVault) (out : Str)
      (replaced : List Replaced),
    replaceSpansFrom R C h text locale convId base spans i last v = some (out, replaced, v') →
    Sourced (stage2Ops h convId base locale replaced) v v' ∧
      ∀ n op w, (stage2Ops h convId base locale replaced)[n]? = some op →
        VaultOp.run R C ((stage2Ops h convId base locale replaced).take n) v = some w →
          op.Shows w := by
  refine replaceSpansFrom_induction R C h text locale convId base (fun replaced v v' =>
    Sourced (stage2Ops h convId base locale replaced) v v' ∧
      ∀ n op w, (stage2Ops h convId base locale replaced)[n]? = some op →
        VaultOp.run R C ((stage2Ops h convId base locale replaced).take n) v = some w →
          op.Shows w)
    (fun v => ⟨.refl v, fun n op w hop => absurd hop.symm (Option.some_ne_none op)⟩) ?_
  intro i span original d v v₁ v' replaced hcreate hrest
  rcases hrest with ⟨hsrc, hshows⟩
  rcases getOrCreate_stores R C v v₁ original d _ locale _ _ hcreate with ⟨hstored, honly⟩
  -- A replaced span is two operations; the second shows what the first stored.
  have hops : stage2Ops h convId base locale (⟨i, span, original, d⟩ :: replaced) =
      .getOrCreate original span.entityType locale span.tier span.confidence ::
        .addMappingWithTokenId original d (generateTokenId h convId (base + i)) span.entityType
          span.tier span.confidence :: stage2Ops h convId base locale replaced := rfl
  have happ : (VaultOp.getOrCreate original span.entityType locale span.tier
      span.confidence).apply R C v = some v₁ := by
    rw [VaultOp.apply, hcreate]
    rfl
  rw [hops]
  constructor
  · have hfirst : Sourced [.getOrCreate original span.entityType locale span.tier
        span.confidence, .addMappingWithTokenId original d
        (generateTokenId h convId (base + i)) span.entityType span.tier span.confidence] v
        (v₁.addMappingWithTokenId original d (generateTokenId h convId (base + i))
          span.entityType span.tier span.confidence) := by
      intro o s hs
      rcases addMappingWithTokenId_sourced v₁ original d _ _ _ _ o s hs with hs | htok
      · rcases honly o s hs with hold | ⟨rfl, rfl⟩
        · exact Or.inl hold
        · exact Or.inr List.mem_cons_self
      · exact Or.inr htok
    exact hfirst.trans hsrc
  · intro n op w hop hw
    -- The first operation enters no token; the second shows what the first stored;
    -- the others are those of the induction hypothesis.
    rcases n with _ | _ | n
    · rw [List.getElem?_cons_zero, Option.some.injEq] at hop
      rw [← hop]
      exact fun o e s htok => absurd htok.symm (Option.some_ne_none _)
    · rw [List.getElem?_cons_succ, List.getElem?_cons_zero, Option.some.injEq] at hop
      simp only [List.take_succ_cons, List.take_zero, VaultOp.run, happ, Option.bind_some,
        Option.some.injEq] at hw
      subst hop hw
      intro o e s htok hs
      rw [VaultOp.token, Option.some.injEq, Prod.mk.injEq] at htok
      rw [← htok.1, hstored, Option.some.injEq] at hs
      rw [← hs, ← htok.2]
    · rw [List.getElem?_cons_succ, List.getElem?_cons_succ] at hop
      simp only [List.take_succ_cons, VaultOp.run, happ, Option.bind_some] at hw
      exact hshows n op w hop hw

/-- Phase 3 stores what its tokens show. -/
theorem phase3Trace_sourced (convId : Str) (base : Nat) (locale : Locale) :
    ∀ (parts : List Part) (v v' : PiiVault) (traces : List PartTrace),
    phase3Trace R C h convId base locale parts v = some (traces, v') →
    Sourced (traces.flatMap (PartTrace.ops h convId base locale)) v v' := by
  refine phase3Trace_induction R C h convId base locale
    (fun _ traces v v' => Sourced (traces.flatMap (PartTrace.ops h convId base locale)) v v')
    Sourced.refl ?_
  intro p parts out replaced traces v v₁ v' hloop hrest
  rw [List.flatMap_cons]
  exact ((insertStage1_sourced h convId base p.result.stage1Spans 0 v).trans
    (replaceSpansFrom_shows R C h _ _ _ _ _ _ _ _ _ _ _ hloop).1).trans hrest

/-- A conversation stores what its tokens show. -/
theorem conversation_sourced : ∀ (qs : List (Request × (Nat → Nat))) (v v' : PiiVault),
    requests R C h qs v = some v' →
    ∃ l, conversation R C h qs v = some l ∧ VaultOp.run R C l v = some v' ∧ Sourced l v v' := by
  intro qs
  induction qs with
  | nil =>
    intro v v' hrun
    rw [requests, Option.some.injEq] at hrun
    subst hrun
    exact ⟨[], rfl, rfl, .refl v⟩
  | cons q qs ih =>
    intro v v' hrun
    rcases q with ⟨q, reads⟩
    rw [requests, Option.bind_eq_some_iff] at hrun
    rcases hrun with ⟨w, hq, hrest⟩
    have hproc := hq
    rw [Request.processWith, Option.map_eq_some_iff] at hproc
    rcases hproc with ⟨⟨res, w'⟩, hproc, rfl⟩
    rcases q.partsWith_trace R C h reads v w' res hproc with ⟨parts, traces, hparts, htrace⟩
    -- The operations of a request are those of its trace.
    have hops := q.ops_of_trace R C h reads v w' parts traces hparts htrace
    have hqrun := phase3Trace_run R C h _ _ q.locale parts v w' traces htrace
    rcases ih w' v' hrest with ⟨l, hl, hlrun, hlsrc⟩
    refine ⟨_ ++ l, ?_, ?_, (phase3Trace_sourced R C h _ _ q.locale parts v w' traces htrace).trans
      hlsrc⟩
    · simp only [conversation, hops, hq, hl, Option.bind_eq_bind, Option.bind_some]
    · rw [VaultOp.run_append, hqrun, Option.bind_some, hlrun]

/-- Over any sequence of requests from a new vault: the tokens of every original
    carry one display value exactly if each token that is entered for an original
    the vault knows shows what is stored for it. -/
theorem one_display_iff (convId : Str) (qs : List (Request × (Nat → Nat))) (vEnd : PiiVault)
    (hrun : requests R C h qs (PiiVault.new h convId) = some vEnd) :
    ∃ l, conversation R C h qs (PiiVault.new h convId) = some l ∧
      ((∀ o d d', (o, d) ∈ tokensOf l → (o, d') ∈ tokensOf l → d = d') ↔
        ∀ n op v, l[n]? = some op →
          VaultOp.run R C (l.take n) (PiiVault.new h convId) = some v → op.Shows v) := by
  rcases conversation_sourced R C h qs _ vEnd hrun with ⟨l, hl, hlrun, hsrc⟩
  refine ⟨l, hl, ?_⟩
  rw [← shows_iff R C l _ vEnd hlrun]
  constructor
  · intro hone o d hmem
    -- The original has a synthetic at the end, and that is some token's.
    have hstored : ∃ s, vEnd.getSynthetic o = some s := by
      rcases List.mem_filterMap.mp hmem with ⟨op, hop, htok⟩
      rcases List.mem_iff_getElem?.mp hop with ⟨n, hop⟩
      have hsplit := hlrun
      rw [← List.take_append_drop n l, VaultOp.run_append, Option.bind_eq_some_iff] at hsplit
      rcases hsplit with ⟨v, hv, _⟩
      rcases VaultOp.run_next R C l n op _ v vEnd hlrun hop hv with ⟨v', happ, hnext⟩
      rcases getSynthetic_token R C op v v' happ o d htok with ⟨s, hs, _⟩
      exact ⟨s, getSynthetic_run R C o s _ v' vEnd
        (run_drop R C l (n + 1) _ v' vEnd hlrun hnext) hs⟩
    rcases hstored with ⟨s, hs⟩
    rcases hsrc o s hs with hnew | htok
    · exact absurd hnew.symm (Option.some_ne_none s)
    · rw [hone o d s hmem htok]
      exact hs
  · intro hend o d d' hmem hmem'
    have hd := hend o d hmem
    rw [hend o d' hmem', Option.some.injEq] at hd
    exact hd.symm

end Sources

/-- The same name in two requests, which the sidecar shows the same way: every
    token shows what is stored, and the two tokens carry one display value. -/
theorem one_display_john :
    ∃ l, conversation Rand.least Chrono.none sampleHashes
        [namesRequest [lit "John"], namesRequest [lit "John"]]
        (PiiVault.new sampleHashes (lit "c")) = some l ∧
      tokensOf l = [(lit "John", lit "Alice"), (lit "John", lit "Alice")] ∧
      (∀ n op v, l[n]? = some op →
        VaultOp.run Rand.least Chrono.none (l.take n) (PiiVault.new sampleHashes (lit "c")) =
          some v → op.Shows v) ∧
      ∀ o d d', (o, d) ∈ tokensOf l → (o, d') ∈ tokensOf l → d = d' := by
  rcases one_display_iff Rand.least Chrono.none sampleHashes (lit "c")
    [namesRequest [lit "John"], namesRequest [lit "John"]] _ rfl with ⟨l, hl, hiff⟩
  have htokens : tokensOf l = [(lit "John", lit "Alice"), (lit "John", lit "Alice")] := by
    rw [← Option.some_inj, ← Option.map_some, ← hl]
    decide +kernel
  have hone : ∀ o d d', (o, d) ∈ tokensOf l → (o, d') ∈ tokensOf l → d = d' := by
    intro o d d' hd hd'
    simp only [htokens, List.mem_cons, List.not_mem_nil, or_false, or_self, Prod.mk.injEq] at hd hd'
    exact hd.2.trans hd'.2.symm
  exact ⟨l, hl, htokens, hiff.mp hone, hone⟩

/-- Two messages of one request with the same name, which the sidecar shows
    differently: the tokens carry two display values. -/
theorem two_displays_john :
    ∃ v l, requests Rand.least Chrono.none sampleHashes
        [namesRequest [lit "John", lit "John!"]] (PiiVault.new sampleHashes (lit "c")) = some v ∧
      conversation Rand.least Chrono.none sampleHashes [namesRequest [lit "John", lit "John!"]]
        (PiiVault.new sampleHashes (lit "c")) = some l ∧
      tokensOf l = [(lit "John", lit "Alice"), (lit "John", lit "Carol")] ∧
      ¬ ∀ o d d', (o, d) ∈ tokensOf l → (o, d') ∈ tokensOf l → d = d' := by
  refine ⟨_, _, rfl, rfl, rfl, fun hone => ?_⟩
  exact absurd (hone (lit "John") (lit "Alice") (lit "Carol") List.mem_cons_self
    (List.mem_cons_of_mem _ List.mem_cons_self)) (by decide)

end PrivacyClaw
