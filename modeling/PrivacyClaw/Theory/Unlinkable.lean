import PrivacyClaw.Theory.Disguise
import PrivacyClaw.Theory.Forms

/-!
# What Upstream Can Learn

Two conversations that differ in their secrets only look the same from upstream.

The relation is between whole conversations. Each pair of requests is one form with
two sets of texts, and what is found in corresponding texts corresponds: it stands
between the same words, has the same types and hints, and equal originals are equal
in both. Then every body that is forwarded is the same, byte for byte: the tokens
depend on the conversation and on counts, the display values on the seed, the count
and the hints, and none of these tells the two apart.

Three things about the originals are needed. Corresponding ones are equal or not in
both conversations alike, for equal originals share a display value. None is a
synthetic of the vault, which would be sent as it is. And none begins like a token,
or masking could happen to write what stood there already and leave the body unsent
in its new form.

## Main definitions

* `SameFindings`, `SameResult`: What is found in two texts corresponds.
* `Proper`: An original that masking takes away.
* `SameRequest`: Two requests that differ in their secrets only.
* `sentBodies`: The bodies of a run of requests.

## Theorems

* `Alike.phase3Entry`, `Alike.phase3Step`, `Alike.phase3`: Masking makes one text,
  one body of both.
* `forwardBody_alike`: A request.
* `upstream_blind`: A conversation.
-/

namespace PrivacyClaw

section Findings

variable (h : Hashes)

theorem substitute_nil (convId : Str) (base : Nat) (sorted : List ReplaceReplacement) :
    ∀ (rs : List ReplaceReplacement) (text w : Str),
      substitute h convId base sorted rs text = some (w, []) → w = text := by
  intro rs
  induction rs with
  | nil =>
      intro text w hrun
      rw [substitute, Option.some.injEq, Prod.mk.injEq] at hrun
      exact hrun.1.symm
  | cons r rs ih =>
      intro text w hrun
      rw [substitute] at hrun
      split at hrun
      · exact ih text w hrun
      · -- a replacement that is carried out is recorded
        simp only [Option.bind_eq_bind, Option.bind_eq_some_iff, Option.some.injEq,
          Prod.mk.injEq, reduceCtorEq, and_false, exists_false] at hrun

/-- Where Stage 1 records nothing it changes nothing. -/
theorem runStage1_nil (p : PiiPipeline) (call : Nat) (convId : Str) (base : Nat) (text w : Str)
    (hrun : p.runStage1 h call convId base text = some (w, [])) : w = text := by
  unfold PiiPipeline.runStage1 at hrun
  cases hslm : p.slm with
  | none =>
      rw [hslm, Option.some.injEq, Prod.mk.injEq] at hrun
      exact hrun.1.symm
  | some slm =>
      rw [hslm] at hrun
      dsimp only at hrun
      cases hreps : slm.replace call text convId base with
      | none =>
          rw [hreps, Option.some.injEq, Prod.mk.injEq] at hrun
          exact hrun.1.symm
      | some reps =>
          rw [hreps] at hrun
          dsimp only at hrun
          split at hrun
          · rw [Option.some.injEq, Prod.mk.injEq] at hrun
            exact hrun.1.symm
          · exact substitute_nil h convId base _ _ text w hrun

/-- A result without replacements is about the text itself, and has spans. -/
theorem phase2_some (p : PiiPipeline) (call : Nat) (convId : Str) (base : Nat) (locale : Locale)
    (text : Str) (r : EntryResult) (hrun : p.phase2 h call convId base locale text = some (some r))
    (hnone : r.stage1Spans = []) : r.replacedText = text ∧ r.stage2Spans ≠ [] := by
  rw [PiiPipeline.phase2, Option.bind_eq_bind, Option.bind_eq_some_iff] at hrun
  rcases hrun with ⟨⟨w, spans⟩, hstage1, hrun⟩
  dsimp only at hrun
  split at hrun
  · rw [Option.some.injEq] at hrun
    exact absurd hrun.symm (Option.some_ne_none r)
  · rename_i hsome
    rw [Option.some.injEq, Option.some.injEq] at hrun
    subst hrun
    dsimp only at hnone ⊢
    subst hnone
    refine ⟨runStage1_nil h p call convId base text w hstage1, fun hempty => hsome ?_⟩
    rw [hempty]
    rfl

end Findings

/-- What is found in two texts corresponds. -/
structure SameFindings (C : Chrono) (S : Str → Str → Prop) (r r' : EntryResult) : Prop where
  stage1 : List.Forall₂ (SameReplacement S) r.stage1Spans r'.stage1Spans
  visible : visible C r.replacedText 0 r.stage2Spans = visible C r'.replacedText 0 r'.stage2Spans
  originals : List.Forall₂ S (secrets r.replacedText r.stage2Spans)
    (secrets r'.replacedText r'.stage2Spans)
  fit : Fit r.replacedText 0 r.stage2Spans
  fit' : Fit r'.replacedText 0 r'.stage2Spans

/-- Two texts with what Phase 2 finds in them: nothing in one text, or what
    corresponds in two. -/
def SameResult (C : Chrono) (S : Str → Str → Prop) (text text' : Str) :
    Option EntryResult → Option EntryResult → Prop
  | none, none => text = text'
  | some r, some r' => SameFindings C S r r'
  | _, _ => False

/-- An original that masking takes away: it is no synthetic of the vault, and does
    not begin like a token. -/
def Proper (v : PiiVault) (o : Str) : Prop := o ∉ v.syntheticKeys ∧ ∃ b rest, o = b :: rest ∧ b ≠ 60

section Entries

variable {R : Rand} {C : Chrono} {h : Hashes} {S : Str → Str → Prop} {convId : Str} {base : Nat}
  {locale : Locale} {r r' : EntryResult} {v w v' vEnd : PiiVault} {out : Str}
  {dets : List PiiDetection}

/-- Masking makes one text of both. -/
theorem Alike.phase3Entry (hS : OneToOne S) (hvw : Alike S v w) (hr : SameFindings C S r r')
    (hrun : PrivacyClaw.phase3Entry R C h convId base locale r v = some (out, dets, v'))
    (hproper : ∀ o o', S o o' → o ∉ v'.syntheticKeys ∧ o' ∉ v'.syntheticKeys) :
    ∃ dets' w', PrivacyClaw.phase3Entry R C h convId base locale r' w = some (out, dets', w') ∧
      Alike S v' w' := by
  rcases phase3Entry_cases R C h convId base locale r v v' out dets hrun with
    ⟨replaced, hloop, -⟩
  have hvw₁ := hvw.insertStage1 h hS convId base _ _ 0 _ _ hr.stage1
  rcases hvw₁.replaceSpansFrom R C h hS r.replacedText r'.replacedText locale convId
    (base + r.stage1Spans.length) _ _ 0 0 0 _ _ v' out replaced hr.visible hr.originals hr.fit
    hr.fit' hloop hproper with ⟨replaced', w', hloop', hvw', -⟩
  refine ⟨stage1Detections r'.stage1Spans ++ replaced'.map Replaced.detection, w', ?_, hvw'⟩
  rw [hr.stage1.length_eq] at hloop'
  simp only [PrivacyClaw.phase3Entry, replaceWithSpansXml, hloop', Option.bind_eq_bind,
    Option.bind_some]

/-- Masking writes something new over the first original. -/
theorem phase3Entry_changed (hfit : Fit r.replacedText 0 r.stage2Spans)
    (hspans : r.stage2Spans ≠ [])
    (hrun : phase3Entry R C h convId base locale r v = some (out, dets, v'))
    (hproper : ∀ o ∈ secrets r.replacedText r.stage2Spans, Proper v' o) :
    out ≠ r.replacedText := by
  rcases phase3Entry_cases R C h convId base locale r v v' out dets hrun with
    ⟨replaced, hloop, -⟩
  rcases hstage2 : r.stage2Spans with _ | ⟨s, spans⟩
  · exact absurd hstage2 hspans
  rw [hstage2] at hloop hfit hproper
  rcases hproper _ List.mem_cons_self with ⟨hkey, b, rest, ho, hb⟩
  rcases replaceSpansFrom_cases R C h _ locale convId _ s spans 0 0 _ v' out replaced hloop with
    ⟨hskip, -⟩ | ⟨-, gap, original, hg, horig, hround⟩
  · exact absurd hskip hfit.not_skipped
  rw [hfit.slice_gap, Option.some.injEq] at hg
  rw [hfit.slice_span, Option.some.injEq] at horig
  subst hg horig
  rcases hround with ⟨hsyn, out', hgo, -⟩ | ⟨-, d, v₁, out', replaced', -, -, hout, -⟩
  · rcases List.any_eq_true.mp hsyn with ⟨k, hk, heq⟩
    rw [beq_iff_eq] at heq
    rw [← heq] at hkey
    exact absurd (replaceSpansFrom_keys R C h _ locale convId _ spans _ _ _ v' out' replaced hgo hk)
      hkey
  · -- behind the gap the output goes on with a token, the text with its original
    intro hsame
    have hin := hfit.aligned s List.mem_cons_self
    have htext : r.replacedText = (r.replacedText.take s.start).drop 0 ++
        (s.textIn r.replacedText ++ r.replacedText.drop s.stop) := by
      rw [List.drop_zero, PiiSpan.textIn, ← List.append_assoc]
      conv_lhs => rw [← List.take_append_drop s.stop r.replacedText]
      congr 1
      conv_lhs => rw [← List.take_append_drop s.start (r.replacedText.take s.stop)]
      rw [List.take_take, Nat.min_eq_left hin.1]
    rw [hout, List.append_assoc] at hsame
    have htail := List.append_cancel_left (hsame.trans htext)
    rw [ho] at htail
    have hhead := congrArg List.head? htail
    have htoken : ∀ x : Str, (xmlToken (generateTokenId h convId
        (base + r.stage1Spans.length + 0)) d ++ x).head? = some 60 := fun x => rfl
    rw [htoken, List.cons_append, List.head?_cons, Option.some.injEq] at hhead
    exact hb hhead.symm

/-- A text with a result is written back. -/
theorem phase3Step_array {field : Str} (F : BodyForm field) (g : Place → Str) (p : Place)
    (hp : p ∈ F.places) (some₁ : r.stage1Spans = [] → r.replacedText = g p ∧ r.stage2Spans ≠ [])
    (hfit : Fit r.replacedText 0 r.stage2Spans)
    (hproper : ∀ o ∈ secrets r.replacedText r.stage2Spans, Proper v' o)
    (hentry : phase3Entry R C h convId base locale r v = some (out, dets, v'))
    (before : List PiiDetection) (any : Bool) :
    phase3Step R C h convId base locale ⟨p.1, p.2, g p⟩ (some r) ⟨v, F.array g, before, any⟩ =
      some ⟨v', F.array (Function.update g p out), before ++ dets, true⟩ := by
  have hnew : ¬(out = g p ∧ r.stage1Spans = []) := by
    rintro ⟨hout, hnone⟩
    refine phase3Entry_changed hfit (some₁ hnone).2 hentry hproper ?_
    rw [hout, (some₁ hnone).1]
  rw [phase3Step, hentry, Option.bind_eq_bind, Option.bind_some]
  dsimp only
  rw [if_neg hnew, F.writeBack_fill g p hp]

/-- An original in one text has one in the other. -/
theorem SameFindings.proper (hr : SameFindings C S r r')
    (hproper : ∀ o o', S o o' → Proper v' o ∧ Proper v' o') :
    (∀ o ∈ secrets r.replacedText r.stage2Spans, Proper v' o) ∧
      ∀ o ∈ secrets r'.replacedText r'.stage2Spans, Proper v' o := by
  constructor
  · intro o ho
    rcases List.getElem?_of_mem ho with ⟨i, hi⟩
    rcases forall₂_getElem? hr.originals hi with ⟨o', -, hoo⟩
    exact (hproper o o' hoo).1
  · intro o' ho'
    rcases List.getElem?_of_mem ho' with ⟨i, hi⟩
    rcases forall₂_getElem? hr.originals.flip hi with ⟨o, -, hoo⟩
    exact (hproper o o' hoo).2

/-- One text of each body: the same text is written in its place. -/
theorem Alike.phase3Step {field : Str} (hS : OneToOne S) (F : BodyForm field) (g g' : Place → Str)
    (p : Place) (hp : p ∈ F.places) (hr : SameFindings C S r r')
    (hfound : r.stage1Spans = [] → r.replacedText = g p ∧ r.stage2Spans ≠ [])
    (hfound' : r'.stage1Spans = [] → r'.replacedText = g' p ∧ r'.stage2Spans ≠ [])
    (hproper : ∀ o o', S o o' → Proper vEnd o ∧ Proper vEnd o') (hvw : Alike S v w)
    (before before' : List PiiDetection) (any any' : Bool) (s : Phase3State)
    (hstep : PrivacyClaw.phase3Step R C h convId base locale ⟨p.1, p.2, g p⟩ (some r)
      ⟨v, F.array g, before, any⟩ = some s)
    (hkeys : s.vault.syntheticKeys ⊆ vEnd.syntheticKeys) :
    ∃ out dets dets' w', s = ⟨s.vault, F.array (Function.update g p out), before ++ dets, true⟩ ∧
      PrivacyClaw.phase3Step R C h convId base locale ⟨p.1, p.2, g' p⟩ (some r')
          ⟨w, F.array g', before', any'⟩ =
        some ⟨w', F.array (Function.update g' p out), before' ++ dets', true⟩ ∧
      Alike S s.vault w' := by
  rcases phase3Step_vault R C h convId base locale _ _ _ s hstep with
    ⟨hnone, -⟩ | ⟨q, out, dets, hq, hentry⟩
  · exact absurd hnone (Option.some_ne_none r)
  rw [Option.some.injEq] at hq
  subst hq
  have hproper₁ : ∀ o o', S o o' → Proper s.vault o ∧ Proper s.vault o' := fun o o' ho =>
    ⟨⟨fun hin => (hproper o o' ho).1.1 (hkeys hin), (hproper o o' ho).1.2⟩,
      ⟨fun hin => (hproper o o' ho).2.1 (hkeys hin), (hproper o o' ho).2.2⟩⟩
  rcases hvw.phase3Entry hS hr hentry
    (fun o o' ho => ⟨(hproper₁ o o' ho).1.1, (hproper₁ o o' ho).2.1⟩) with
    ⟨dets', w', hentry', hvw'⟩
  have hboth := hr.proper hproper₁
  have hproper' : ∀ o ∈ secrets r'.replacedText r'.stage2Spans, Proper w' o := by
    intro o ho
    have hkey := (hboth.2 o ho).1
    rw [hvw'.syntheticKeys] at hkey
    exact ⟨hkey, (hboth.2 o ho).2⟩
  have hwritten := phase3Step_array F g p hp hfound hr.fit hboth.1 hentry before any
  exact ⟨out, dets, dets', w', Option.some.inj (hstep.symm.trans hwritten),
    phase3Step_array F g' p hp hfound' hr.fit' hproper' hentry' before' any', hvw'⟩

/-- What is written in a place is not read again in the others. -/
theorem update_apart {β : Type} (p : Place) (out : Str) (work : List (Place × β))
    (hp : p ∉ work.map Prod.fst) (f : Place → Str) :
    ∀ x ∈ work, Function.update f p out x.1 = f x.1 := by
  intro x hx
  have hne : x.1 ≠ p := by
    rintro rfl
    exact hp (List.mem_map_of_mem hx)
  exact Function.update_of_ne hne out f

theorem map_update {β : Type} (p : Place) (out : Str) (f : Place → Str) (e : β → Option EntryResult)
    (work : List (Place × β)) (hp : p ∉ work.map Prod.fst) :
    work.map (fun x => ((⟨x.1.1, x.1.2, f x.1⟩ : MessageTextEntry), e x.2)) =
      work.map fun x => (⟨x.1.1, x.1.2, Function.update f p out x.1⟩, e x.2) := by
  refine List.map_congr_left fun x hx => ?_
  rw [update_apart p out work hp f x hx]

/-- Masking makes one body of two: the texts it has been through are the same, the
    others are as they were. -/
theorem Alike.phase3 {field : Str} (hS : OneToOne S) (F : BodyForm field)
    (hproper : ∀ o o', S o o' → Proper vEnd o ∧ Proper vEnd o') :
    ∀ (work : List (Place × Option EntryResult × Option EntryResult)) (g g' : Place → Str)
      (v w : PiiVault) (dets dets' : List PiiDetection) (any : Bool) (s : Phase3State),
      (∀ x ∈ work, x.1 ∈ F.places) → (work.map Prod.fst).Nodup →
      (∀ x ∈ work, SameResult C S (g x.1) (g' x.1) x.2.1 x.2.2) →
      (∀ x ∈ work, ∀ r, (x.2.1 = some r → r.stage1Spans = [] →
        r.replacedText = g x.1 ∧ r.stage2Spans ≠ []) ∧
        (x.2.2 = some r → r.stage1Spans = [] → r.replacedText = g' x.1 ∧ r.stage2Spans ≠ [])) →
      Alike S v w →
      PrivacyClaw.phase3 R C h convId base locale
        (work.map fun x => (⟨x.1.1, x.1.2, g x.1⟩, x.2.1)) ⟨v, F.array g, dets, any⟩ = some s →
      s.vault.syntheticKeys ⊆ vEnd.syntheticKeys →
      ∃ s' k k', PrivacyClaw.phase3 R C h convId base locale
          (work.map fun x => (⟨x.1.1, x.1.2, g' x.1⟩, x.2.2)) ⟨w, F.array g', dets', any⟩ =
          some s' ∧
        Alike S s.vault s'.vault ∧ s'.anyReplaced = s.anyReplaced ∧
        s.anyReplaced = (any || work.any fun x => x.2.1.isSome) ∧
        s.msgs = F.array k ∧ s'.msgs = F.array k' ∧ (∀ x ∈ work, k x.1 = k' x.1) ∧
        ∀ p, p ∉ work.map Prod.fst → k p = g p ∧ k' p = g' p := by
  intro work
  induction work with
  | nil =>
      intro g g' v w dets dets' any s _ _ _ _ hvw hrun _
      rw [List.map_nil, PrivacyClaw.phase3, Option.some.injEq] at hrun
      subst hrun
      exact ⟨_, g, g', rfl, hvw, rfl, (Bool.or_false any).symm, rfl, rfl,
        fun x hx => absurd hx List.not_mem_nil,
        fun p _ => ⟨rfl, rfl⟩⟩
  | cons x work ih =>
      intro g g' v w dets dets' any s hplaces hnodup hresults hphase2 hvw hrun hend
      rcases x with ⟨p, result, result'⟩
      rw [List.map_cons, List.nodup_cons] at hnodup
      have hrest := fun x hx => hplaces x (List.mem_cons_of_mem _ hx)
      have hcurrent := hresults _ List.mem_cons_self
      cases result with
      | none =>
          cases result' with
          | some r' => exact absurd hcurrent id
          | none =>
              have htext : g p = g' p := hcurrent
              rcases ih g g' v w dets dets' any s hrest hnodup.2
                (fun x hx => hresults x (List.mem_cons_of_mem _ hx))
                (fun x hx => hphase2 x (List.mem_cons_of_mem _ hx)) hvw hrun hend with
                ⟨s', k, k', hrun', hv', hany, hflag, hk, hk', hsame, hothers⟩
              refine ⟨s', k, k', hrun', hv', hany, hflag, hk, hk', ?_, ?_⟩
              · intro x hx
                rcases List.mem_cons.mp hx with rfl | hx
                · rw [(hothers p hnodup.1).1, (hothers p hnodup.1).2]
                  exact htext
                · exact hsame x hx
              · exact fun q hq => hothers q fun hin => hq (List.mem_cons_of_mem _ hin)
      | some r =>
          cases result' with
          | none => exact absurd hcurrent id
          | some r' =>
              have hfind : SameFindings C S r r' := hcurrent
              have hp := hplaces _ List.mem_cons_self
              have hfound := hphase2 _ List.mem_cons_self
              rw [List.map_cons, PrivacyClaw.phase3, Option.bind_eq_bind, Option.bind_eq_some_iff]
                at hrun
              rcases hrun with ⟨s₁, hstep, hrun⟩
              have hkeys := phase3_keys R C h convId base locale _ s₁ s hrun
              rcases hvw.phase3Step hS F g g' p hp hfind ((hfound r).1 rfl) ((hfound r').2 rfl)
                hproper dets dets' any any s₁ hstep (List.Subset.trans hkeys hend) with
                ⟨out, ds, ds', w₁, hs₁, hstep', hvw₁⟩
              have hupdate := update_apart p out work hnodup.1
              rw [hs₁, map_update p out g Prod.fst work hnodup.1] at hrun
              rcases ih (Function.update g p out) (Function.update g' p out) s₁.vault w₁
                (dets ++ ds) (dets' ++ ds') true s hrest hnodup.2
                (fun x hx => by
                  rw [hupdate g x hx, hupdate g' x hx]
                  exact hresults x (List.mem_cons_of_mem _ hx))
                (fun x hx => by
                  rw [hupdate g x hx, hupdate g' x hx]
                  exact hphase2 x (List.mem_cons_of_mem _ hx)) hvw₁ hrun hend with
                ⟨s', k, k', hrun', hv', hany, hflag, hk, hk', hsame, hothers⟩
              refine ⟨s', k, k', ?_, hv', hany, ?_, hk, hk', ?_, ?_⟩
              · rw [← map_update p out g' Prod.snd work hnodup.1] at hrun'
                rw [List.map_cons, PrivacyClaw.phase3, hstep', Option.bind_eq_bind,
                  Option.bind_some]
                exact hrun'
              · rw [hflag, List.any_cons, Option.isSome_some, Bool.true_or, Bool.or_true]
              · intro x hx
                rcases List.mem_cons.mp hx with rfl | hx
                · rw [(hothers p hnodup.1).1, (hothers p hnodup.1).2, Function.update_self,
                    Function.update_self]
                · exact hsame x hx
              · intro q hq
                rw [List.map_cons, List.mem_cons, not_or] at hq
                rw [(hothers q hq.2).1, (hothers q hq.2).2, Function.update_of_ne hq.1,
                  Function.update_of_ne hq.1]
                exact ⟨rfl, rfl⟩

end Entries

/-- Two requests that differ in their secrets only: one form with two sets of texts,
    and what is found in the texts corresponds. Bodies with the same texts are the
    same bytes. -/
structure SameRequest (C : Chrono) (h : Hashes) (S : Str → Str → Prop) (convId : Str)
    (x x' : Request × (Nat → Nat)) : Prop where
  reads : x'.2 = x.2
  setting : x'.1 = { x.1 with body := x'.1.body }
  texts : ∃ (F : BodyForm x.1.provider.messagesField) (g g' : Place → Str)
    (work : List (Place × Option EntryResult × Option EntryResult)),
    x.1.json.fromSlice x.1.body = some (F.fill g) ∧
    x.1.json.fromSlice x'.1.body = some (F.fill g') ∧
    (F.fill g = F.fill g' → x.1.body = x'.1.body) ∧
    work.map Prod.fst = F.places ∧
    x.1.pipeline.phase2All h convId x.2 x.1.locale (F.entries g) 0 =
      some (work.map fun y => y.2.1) ∧
    x.1.pipeline.phase2All h convId x.2 x.1.locale (F.entries g') 0 =
      some (work.map fun y => y.2.2) ∧
    ∀ y ∈ work, SameResult C S (g y.1) (g' y.1) y.2.1 y.2.2

section Requests

variable (R : Rand) (C : Chrono) (h : Hashes)

variable {R C h} {S : Str → Str → Prop} {v w v' vEnd : PiiVault} {q : Request}
  {reads : Nat → Nat} {body' : List UInt8} {F : BodyForm q.provider.messagesField}
  {g g' : Place → Str} {work : List (Place × Option EntryResult × Option EntryResult)}

theorem zip_entries (hplaces : work.map Prod.fst = F.places) (g : Place → Str)
    (e : Option EntryResult × Option EntryResult → Option EntryResult) :
    (F.entries g).zip (work.map fun y => e y.2) =
      work.map fun y => (⟨y.1.1, y.1.2, g y.1⟩, e y.2) := by
  rw [BodyForm.entries, ← hplaces, List.map_map, List.zip_map']
  rfl

/-- Nothing is found in both, or something in both. -/
theorem SameResult.isNone {text text' : Str} {r r' : Option EntryResult}
    (hr : SameResult C S text text' r r') : r'.isNone = r.isNone := by
  cases r with
  | none =>
      cases r' with
      | none => rfl
      | some r' => exact absurd hr id
  | some r =>
      cases r' with
      | none => exact absurd hr id
      | some r' => rfl

theorem all_isNone (hresults : ∀ y ∈ work, SameResult C S (g y.1) (g' y.1) y.2.1 y.2.2) :
    (work.map fun y => y.2.2).all Option.isNone = (work.map fun y => y.2.1).all Option.isNone := by
  rw [List.all_map, List.all_map, Bool.eq_iff_iff, List.all_eq_true, List.all_eq_true]
  refine forall₂_congr fun y hy => ?_
  rw [Function.comp_apply, Function.comp_apply, (hresults y hy).isNone]

/-- Where nothing is found the bodies say the same. -/
theorem fill_eq_of_none (hplaces : work.map Prod.fst = F.places)
    (hresults : ∀ y ∈ work, SameResult C S (g y.1) (g' y.1) y.2.1 y.2.2)
    (hnone : (work.map fun y => y.2.1).all Option.isNone = true) : F.fill g = F.fill g' := by
  refine F.fill_congr g g' fun p hp => ?_
  rw [← hplaces] at hp
  rcases List.mem_map.mp hp with ⟨⟨p, r, r'⟩, hy, rfl⟩
  have hr := hresults _ hy
  have hnone₁ := List.all_eq_true.mp hnone r (List.mem_map_of_mem (f := fun y => y.2.1) hy)
  rw [Option.isNone_iff_eq_none] at hnone₁
  subst hnone₁
  cases r' with
  | none => exact hr
  | some r' => exact absurd hr id

/-- What Phase 2 finds without replacements is about the text itself. -/
theorem found_in_text (p : PiiPipeline) (convId : Str) (reads : Nat → Nat) (locale : Locale)
    (hplaces : work.map Prod.fst = F.places) (g : Place → Str)
    (e : Option EntryResult × Option EntryResult → Option EntryResult)
    (hphase2 : p.phase2All h convId reads locale (F.entries g) 0 =
      some (work.map fun y => e y.2)) :
    ∀ y ∈ work, ∀ r, e y.2 = some r → r.stage1Spans = [] →
      r.replacedText = g y.1 ∧ r.stage2Spans ≠ [] := by
  intro y hy r hr hnone
  have hmem : ((⟨y.1.1, y.1.2, g y.1⟩ : MessageTextEntry), e y.2) ∈
      (F.entries g).zip (work.map fun y => e y.2) := by
    rw [zip_entries hplaces]
    exact List.mem_map_of_mem (f := fun y => ((⟨y.1.1, y.1.2, g y.1⟩ : MessageTextEntry), e y.2)) hy
  rcases List.mem_iff_getElem?.mp hmem with ⟨k, hk⟩
  rcases List.getElem?_zip_eq_some.mp hk with ⟨hentry, hres⟩
  have hcall := (phase2All_getElem h p convId reads locale _ 0 _ hphase2).2 k _ _ hentry hres
  rw [hr] at hcall
  exact phase2_some h p _ convId _ locale _ r hcall hnone

/-- The pipeline makes one body of both. -/
theorem processRequestBodyAsync_alike (hS : OneToOne S)
    (hx : SameRequest C h S v.conversationId (q, reads) ({ q with body := body' }, reads))
    (hvw : Alike S v w) (hproper : ∀ o o', S o o' → Proper vEnd o ∧ Proper vEnd o')
    (res : Option (Str × List PiiDetection))
    (hrun : q.pipeline.processRequestBodyAsync R C h q.json q.body reads v q.provider q.locale =
      some (res, v')) (hend : v'.syntheticKeys ⊆ vEnd.syntheticKeys) :
    ∃ res' w', q.pipeline.processRequestBodyAsync R C h q.json body' reads w q.provider q.locale =
        some (res', w') ∧ Alike S v' w' ∧
      (res'.map Prod.fst).getD body' = (res.map Prod.fst).getD q.body := by
  rcases hx.texts with
    ⟨F, g, g', work, hval, hval', hbytes, hplaces, hphase2, hphase2', hresults⟩
  dsimp only at F hval hval' hbytes hplaces hphase2 hphase2'
  rw [processRequestBodyAsync_eq R C h q.pipeline q.json q.body _ reads v q.provider q.locale hval,
    Option.map_eq_some_iff] at hrun
  rcases hrun with ⟨⟨res₁, v₁⟩, hrun, he⟩
  rw [Prod.mk.injEq] at he
  rcases he with ⟨rfl, rfl⟩
  dsimp only at hend ⊢
  have hsecond := processRequestBodyAsync_eq R C h q.pipeline q.json body' _ reads w q.provider
    q.locale hval'
  -- where nothing happens in both, the client's bytes are forwarded, and they are the same
  have hidle : F.fill g = F.fill g' → ∀ (u u' : PiiVault), Alike S u u' →
      q.pipeline.processValue R C h (F.fill g) reads v q.provider q.locale = some (none, u) →
      q.pipeline.processValue R C h (F.fill g') reads w q.provider q.locale = some (none, u') →
      ∃ res' w', q.pipeline.processRequestBodyAsync R C h q.json body' reads w q.provider
          q.locale = some (res', w') ∧ Alike S v₁ w' ∧
        (res'.map Prod.fst).getD body' =
          ((res₁.map fun x => (q.json.toStr x.1, x.2)).map Prod.fst).getD q.body := by
    intro hsame u u' huu h₁ h₂
    rw [hrun, Option.some.injEq, Prod.mk.injEq] at h₁
    rcases h₁ with ⟨rfl, rfl⟩
    rw [h₂] at hsecond
    exact ⟨none, u', hsecond, huu, (hbytes hsame).symm⟩
  by_cases hne : F.places = []
  · have hempty : ∀ f u, q.pipeline.processValue R C h (F.fill f) reads u q.provider q.locale =
        some (none, u) := by
      intro f u
      have hcollect : collectMessageTexts (F.fill f) q.provider.messagesField = [] := by
        rw [F.collect_fill f, hne, List.map_nil]
      unfold PiiPipeline.processValue
      dsimp only
      rw [hcollect]
      rfl
    refine hidle (F.fill_congr g g' fun p hp => ?_) v w hvw (hempty g v) (hempty g' w)
    rw [hne] at hp
    exact absurd hp List.not_mem_nil
  · have h₁ := processValue_fill R C h q.pipeline q.provider F g reads v q.locale _ hne hphase2
    rw [hvw.conversationId] at hphase2'
    have h₂ := processValue_fill R C h q.pipeline q.provider F g' reads w q.locale _ hne hphase2'
    by_cases hall : (work.map fun y => y.2.1).all Option.isNone = true
    · rw [if_pos hall] at h₁
      rw [all_isNone hresults, if_pos hall] at h₂
      exact hidle (fill_eq_of_none hplaces hresults hall) v w hvw h₁ h₂
    · rw [if_neg hall, zip_entries hplaces g Prod.fst] at h₁
      rw [all_isNone hresults, if_neg hall, zip_entries hplaces g' Prod.snd] at h₂
      rw [hrun, eq_comm, Option.bind_eq_some_iff] at h₁
      rcases h₁ with ⟨s, hphase3, hs⟩
      have hvault : s.vault = v₁ := by
        split at hs <;> exact (Prod.mk.inj (Option.some.inj hs)).2
      rcases hvw.phase3 hS F hproper work g g' v w [] [] false s
        (fun y hy => by
          rw [← hplaces]
          exact List.mem_map_of_mem hy)
        (by rw [hplaces]; exact F.places_nodup) hresults
        (fun y hy r => ⟨found_in_text q.pipeline _ reads q.locale hplaces g Prod.fst hphase2 y hy r,
          found_in_text q.pipeline _ reads q.locale hplaces g' Prod.snd hphase2' y hy r⟩)
        hphase3 (by rw [hvault]; exact hend) with
        ⟨s', k, k', hphase3', hv', hany, hflag, hk, hk', hsame, -⟩
      have hsome : s.anyReplaced = true := by
        rw [hflag, Bool.false_or, List.any_eq_true]
        rw [Bool.not_eq_true, List.all_eq_false] at hall
        rcases hall with ⟨r, hr, hr'⟩
        rcases List.mem_map.mp hr with ⟨y, hy, rfl⟩
        exact ⟨y, hy, by rwa [Bool.not_eq_true, Option.isNone_eq_false_iff] at hr'⟩
      have hmsgs : s'.msgs = s.msgs := by
        rw [hk, hk']
        refine (F.array_congr k k' fun p hp => ?_).symm
        rw [← hplaces] at hp
        rcases List.mem_map.mp hp with ⟨y, hy, rfl⟩
        exact hsame y hy
      rw [← hvw.conversationId, ← hvw.mappingCount, hphase3', Option.bind_some, hany, hsome,
        if_pos rfl, hmsgs] at h₂
      rw [hsome, if_pos rfl, Option.some.injEq, Prod.mk.injEq] at hs
      rw [h₂, Option.map_some] at hsecond
      refine ⟨_, s'.vault, hsecond, by rw [← hvault]; exact hv', ?_⟩
      rw [← hs.1]
      rfl

/-- The same body is forwarded for both. -/
theorem forwardBody_alike (hS : OneToOne S)
    (hx : SameRequest C h S v.conversationId (q, reads) ({ q with body := body' }, reads))
    (hvw : Alike S v w) (hproper : ∀ o o', S o o' → Proper vEnd o ∧ Proper vEnd o')
    (out : Str) (dets : List PiiDetection)
    (hrun : q.pipeline.forwardBody R C h q.json q.body reads v q.provider q.locale =
      some (out, dets, v')) (hend : v'.syntheticKeys ⊆ vEnd.syntheticKeys) :
    ∃ dets' w', q.pipeline.forwardBody R C h q.json body' reads w q.provider q.locale =
        some (out, dets', w') ∧ Alike S v' w' := by
  have hfst : ∀ (res : Option (Str × List PiiDetection)) (body : Str),
      (res.getD (body, [])).1 = (res.map Prod.fst).getD body := fun res _ => by cases res <;> rfl
  simp only [PiiPipeline.forwardBody, Option.bind_eq_bind, Option.bind_eq_some_iff, hfst,
    Option.some.injEq, Prod.mk.injEq] at hrun
  rcases hrun with ⟨⟨res, v₁⟩, hprocess, injected, hinject, hout, -, hv₁⟩
  dsimp only at hinject hout hv₁
  subst hv₁
  rcases processRequestBodyAsync_alike hS hx hvw hproper res hprocess hend with
    ⟨res', w', hprocess', hvw', hsame⟩
  refine ⟨(res'.getD (body', [])).2, w', ?_, hvw'⟩
  simp only [PiiPipeline.forwardBody, hprocess', Option.bind_eq_bind, Option.bind_some, hfst,
    hsame, hinject, hout]

end Requests

section Runs

variable (R : Rand) (C : Chrono) (h : Hashes)

/-- The body that goes upstream, and the vault after it. -/
def Request.forward (q : Request) (reads : Nat → Nat) (v : PiiVault) : Option (Str × PiiVault) :=
  (q.pipeline.forwardBody R C h q.json q.body reads v q.provider q.locale).map fun r =>
    (r.1, r.2.2)

/-- The bodies that go upstream for a sequence of requests, and the vault after
    them. -/
def sentBodies : List (Request × (Nat → Nat)) → PiiVault → Option (List Str × PiiVault)
  | [], v => some ([], v)
  | (q, reads) :: qs, v => do
    let (body, v) ← q.forward R C h reads v
    let (bodies, v) ← sentBodies qs v
    some (body :: bodies, v)

variable {R C h}

/-- A request that is forwarded only adds keys, and stays with its conversation. -/
theorem Request.forward_grows {q : Request} {reads : Nat → Nat} {v v' : PiiVault} {body : Str}
    (hrun : q.forward R C h reads v = some (body, v')) :
    v.syntheticKeys ⊆ v'.syntheticKeys ∧ v'.conversationId = v.conversationId := by
  simp only [forward, PiiPipeline.forwardBody, Option.map_eq_some_iff, Option.bind_eq_bind,
    Option.bind_eq_some_iff, Option.some.injEq, Prod.mk.injEq] at hrun
  rcases hrun with ⟨r, ⟨⟨res, v₁⟩, hprocess, injected, -, hr⟩, -, hv'⟩
  rw [← hr] at hv'
  dsimp only at hv'
  subst hv'
  constructor
  · have hvault : q.processWith R C h reads v = some v₁ := by
      rw [processWith, hprocess, Option.map_some]
    rcases q.processWith_run R C h reads v v₁ hvault with ⟨ops, -, hops⟩
    exact (VaultOp.run_adds R C ops v v₁ hops).subset
  · rcases q.partsWith_trace R C h reads v v₁ res hprocess with ⟨parts, traces, -, htrace⟩
    exact (phase3Trace_indexed R C h _ _ q.locale parts v v₁ traces htrace).conversationId

theorem sentBodies_keys : ∀ (qs : List (Request × (Nat → Nat))) (v vEnd : PiiVault)
    (bodies : List Str), sentBodies R C h qs v = some (bodies, vEnd) →
    v.syntheticKeys ⊆ vEnd.syntheticKeys := by
  intro qs
  induction qs with
  | nil =>
      intro v vEnd bodies hrun
      rw [sentBodies, Option.some.injEq, Prod.mk.injEq] at hrun
      rw [hrun.2]
      exact List.Subset.refl _
  | cons q qs ih =>
      intro v vEnd bodies hrun
      simp only [sentBodies, Option.bind_eq_bind, Option.bind_eq_some_iff, Option.some.injEq,
        Prod.mk.injEq] at hrun
      rcases hrun with ⟨⟨body, v₁⟩, hforward, ⟨rest, v₂⟩, hrest, -, rfl⟩
      exact List.Subset.trans (Request.forward_grows hforward).1 (ih v₁ v₂ rest hrest)

/-- From vaults that are alike, the bodies are the same. -/
theorem sentBodies_alike {S : Str → Str → Prop} (hS : OneToOne S) {convId : Str} {vEnd : PiiVault}
    (hproper : ∀ o o', S o o' → Proper vEnd o ∧ Proper vEnd o') :
    ∀ (qs qs' : List (Request × (Nat → Nat))) (v w : PiiVault) (bodies : List Str),
      List.Forall₂ (SameRequest C h S convId) qs qs' → v.conversationId = convId → Alike S v w →
      sentBodies R C h qs v = some (bodies, vEnd) →
      ∃ wEnd, sentBodies R C h qs' w = some (bodies, wEnd) ∧ Alike S vEnd wEnd := by
  intro qs qs' v w bodies hqs
  induction hqs generalizing v w bodies with
  | nil =>
      intro _ hvw hrun
      rw [sentBodies, Option.some.injEq, Prod.mk.injEq] at hrun
      rcases hrun with ⟨rfl, rfl⟩
      exact ⟨w, rfl, hvw⟩
  | @cons x x' qs qs' hx _ ih =>
      intro hconv hvw hrun
      rcases x with ⟨q, reads⟩
      rcases x' with ⟨q', reads'⟩
      have hreads : reads' = reads := hx.reads
      have hsetting : q' = { q with body := q'.body } := hx.setting
      subst hreads
      rw [hsetting] at hx ⊢
      simp only [sentBodies, Option.bind_eq_bind, Option.bind_eq_some_iff, Option.some.injEq,
        Prod.mk.injEq] at hrun
      rcases hrun with ⟨⟨body, v₁⟩, hforward, ⟨rest, v₂⟩, hrest, hbodies, hv₂⟩
      dsimp only at hbodies hv₂ hrest
      subst hv₂
      have hgrows := Request.forward_grows hforward
      rw [Request.forward, Option.map_eq_some_iff] at hforward
      rcases hforward with ⟨⟨out, dets, u⟩, hforward, hu⟩
      rw [Prod.mk.injEq] at hu
      rcases hu with ⟨rfl, rfl⟩
      rcases forwardBody_alike hS (by rw [hconv]; exact hx) hvw hproper out dets hforward
        (sentBodies_keys qs u v₂ rest hrest) with ⟨dets', w₁, hforward', hvw₁⟩
      rcases ih u w₁ rest (hgrows.2.trans hconv) hvw₁ hrest with ⟨wEnd, hrest', hend⟩
      refine ⟨wEnd, ?_, hend⟩
      rw [sentBodies, Request.forward, hforward', Option.map_some, Option.bind_eq_bind,
        Option.bind_some]
      dsimp only
      rw [hrest', Option.bind_eq_bind, Option.bind_some, ← hbodies]

/-- Two conversations that differ in their secrets only look the same from
    upstream. -/
theorem upstream_blind (R : Rand) (C : Chrono) (h : Hashes) (S : Str → Str → Prop)
    (hS : OneToOne S) (convId : Str) (qs qs' : List (Request × (Nat → Nat)))
    (hqs : List.Forall₂ (SameRequest C h S convId) qs qs') (bodies : List Str) (vEnd : PiiVault)
    (hrun : sentBodies R C h qs (PiiVault.new h convId) = some (bodies, vEnd))
    (hproper : ∀ o o', S o o' → Proper vEnd o ∧ Proper vEnd o') :
    ∃ wEnd, sentBodies R C h qs' (PiiVault.new h convId) = some (bodies, wEnd) ∧
      Alike S vEnd wEnd :=
  sentBodies_alike hS hproper qs qs' _ _ bodies hqs rfl (Alike.new h convId) hrun

end Runs

/-- A pipeline with the first tier alone, for which every text is an address. -/
def addressesOnly : PiiPipeline where
  tier1 text _ := [⟨0, text.length, .email, F32.one, 1⟩]
  tier2 := none
  slm := none
  slmConfidenceThreshold := ⟨0x3F333333⟩

/-- A chat request with one address. -/
def addressRequest (address : Str) : Request :=
  ⟨addressesOnly, SerdeJson.ofValues [chatBody [lit "a@x"], chatBody [lit "b@y"]],
    (chatBody [address]).compact, .openAi, .enUs⟩

/-- The form of a chat request with one text. -/
def oneText : BodyForm (lit "messages") where
  before := []
  after := []
  hbefore _ hf := absurd hf List.not_mem_nil
  messages := [.plain [] [] fun _ hf => absurd hf List.not_mem_nil]

theorem fit_whole (text : Str) (entityType : PiiType) (confidence : F32) (tier : UInt8) :
    Fit text 0 [⟨0, text.length, entityType, confidence, tier⟩] where
  aligned s hs := by
    rw [List.mem_singleton.mp hs]
    exact ⟨Nat.zero_le _, Nat.le_refl _, isCharBoundary_zero text, isCharBoundary_length text⟩
  sorted := List.pairwise_singleton _ _
  behind _ _ := Nat.zero_le _
  inside := Nat.zero_le _
  boundary := isCharBoundary_zero text

/-- The two addresses. -/
def Addresses (o o' : Str) : Prop := o = lit "a@x" ∧ o' = lit "b@y"

theorem sameRequest_addresses (reads : Nat → Nat) :
    SameRequest Chrono.none sampleHashes Addresses (lit "c")
      (addressRequest (lit "a@x"), reads) (addressRequest (lit "b@y"), reads) where
  reads := rfl
  setting := rfl
  texts := by
    refine ⟨oneText, fun _ => lit "a@x", fun _ => lit "b@y",
      [((0, none), some ⟨lit "a@x", [], [⟨0, 3, .email, F32.one, 1⟩]⟩,
        some ⟨lit "b@y", [], [⟨0, 3, .email, F32.one, 1⟩]⟩)], rfl, rfl, ?_, rfl, rfl, rfl, ?_⟩
    · intro he
      have htexts : collectMessageTexts (oneText.fill fun _ => lit "a@x") (lit "messages") =
          collectMessageTexts (oneText.fill fun _ => lit "b@y") (lit "messages") :=
        congrArg (collectMessageTexts · (lit "messages")) he
      rw [oneText.collect_fill, oneText.collect_fill] at htexts
      exact absurd htexts (by decide)
    · intro y hy
      rw [List.mem_singleton.mp hy]
      exact ⟨.nil, rfl, .cons ⟨rfl, rfl⟩ .nil, fit_whole _ _ _ _, fit_whole _ _ _ _⟩

/-- A conversation in which an address is said twice. -/
def addressTwice (address : Str) : List (Request × (Nat → Nat)) :=
  [(addressRequest address, fun _ => 0), (addressRequest address, fun _ => 1)]

/-- Two addresses: upstream gets the same bodies for either. -/
theorem upstream_blind_address : ∃ bodies vEnd wEnd,
    sentBodies Rand.least Chrono.none sampleHashes (addressTwice (lit "a@x"))
        (PiiVault.new sampleHashes (lit "c")) = some (bodies, vEnd) ∧
      bodies.length = 2 ∧
      sentBodies Rand.least Chrono.none sampleHashes (addressTwice (lit "b@y"))
        (PiiVault.new sampleHashes (lit "c")) = some (bodies, wEnd) ∧
      Alike Addresses vEnd wEnd := by
  have hkeys : (sentBodies Rand.least Chrono.none sampleHashes (addressTwice (lit "a@x"))
      (PiiVault.new sampleHashes (lit "c"))).map (fun x => (x.1.length, x.2.syntheticKeys)) =
        some (2, [lit "alicebrown@example.com"]) := by
    decide +kernel
  rcases Option.map_eq_some_iff.mp hkeys with ⟨⟨bodies, vEnd⟩, hrun, he⟩
  rcases Prod.mk.inj he with ⟨hlen, hkeys⟩
  have hS : OneToOne Addresses := fun a a' b b' ha hb => by
    rw [ha.1, ha.2, hb.1, hb.2]
    exact ⟨fun _ => rfl, fun _ => rfl⟩
  have hproper : ∀ o o', Addresses o o' → Proper vEnd o ∧ Proper vEnd o' := by
    rintro o o' ⟨rfl, rfl⟩
    rw [Proper, Proper, show vEnd.syntheticKeys = _ from hkeys]
    exact ⟨⟨by decide, 97, lit "@x", rfl, by decide⟩, ⟨by decide, 98, lit "@y", rfl, by decide⟩⟩
  rcases upstream_blind Rand.least Chrono.none sampleHashes Addresses hS (lit "c")
    (addressTwice (lit "a@x")) (addressTwice (lit "b@y"))
    (.cons (sameRequest_addresses _) (.cons (sameRequest_addresses _) .nil)) bodies vEnd hrun hproper
    with ⟨wEnd, hrun', halike⟩
  exact ⟨bodies, vEnd, wEnd, hrun, hlen, hrun', halike⟩

end PrivacyClaw
