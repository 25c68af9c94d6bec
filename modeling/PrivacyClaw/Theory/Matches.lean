import PrivacyClaw.Core.Patterns
import PrivacyClaw.Theory.Detection
import PrivacyClaw.Theory.Forms
import PrivacyClaw.Theory.Offsets

/-!
# The Matches of the Patterns

What becomes of a match of a pattern in a request.

A pattern is run over the characters of a text, and no pattern of the tables matches
an empty text. So a match is a part of the text that is not empty and cut between
characters, which is all that the detector's loops need to know of it.

From there the match goes through the three phases. The spans of all tiers keep it
unless it is put up for disambiguation, the zones of Stage 1 let it pass, and the
loop of Phase 3 replaces it. The text with its token is written back into the place
it was read from, and no other text is written there, since a body has each place
once.

## Main definitions

* `MaskedBy`: A match is masked in a text.
* `PartsSorted`: The objects among the contents stand in key order.
* `SentText`: The text that is sent at a place.

## Theorems

* `regexSet_findIter`: What a pattern reports.
* `universalTable_least`, `localeTable_least`: The tables.
* `tier1Detector_aligned`: The matches of the tables.
* `replaceSpansFrom_covers`: Every span is replaced.
* `phase2_match`, `phase3Entry_masks`: A match in a text.
* `phase3_fills`, `processValue_masks`: A form.
* `exists_filled`: A body with an entry.
* `matches_masked`: A match in a request is masked.
* `matches_masked_address`: An address behind a name that is not sure.
-/

namespace PrivacyClaw

/-- What a pattern reports is a part of the text, not empty and cut between characters. -/
theorem regexSet_findIter (e : PiiType × Regex Char × Option (Str → Bool)) (text : Str)
    (hleast : 0 < e.2.1.least) (start stop : Nat)
    (h : some (start, stop) ∈ (regexSet e).findIter text) :
    start < stop ∧ stop ≤ text.length ∧ isCharBoundary text start = true ∧
      isCharBoundary text stop = true := by
  unfold regexSet at h
  dsimp only at h
  cases hdec : Utf8.decode text with
  | none =>
      rw [hdec] at h
      exact absurd h List.not_mem_nil
  | some cs =>
      rw [hdec] at h
      rcases List.mem_map.mp h with ⟨m, hm, he⟩
      rcases Regex.findIter_part e.2.1 cs m hm with ⟨b, w, a, rfl, hbefore, hend, hlen⟩
      rw [hbefore, hend, Option.some.injEq, Prod.mk.injEq] at he
      rcases he with ⟨rfl, rfl⟩
      have hw := Utf8.length_le_encode w
      have htext := Utf8.encode_of_decode hdec
      rw [← htext]
      refine ⟨?_, ?_, ?_, isCharBoundary_encode (b ++ w) a⟩
      · rw [Utf8.encode_append, List.length_append]
        omega
      · rw [Utf8.encode_append (b ++ w), List.length_append]
        omega
      · rw [List.append_assoc]
        exact isCharBoundary_encode b (w ++ a)

/-- No pattern of the tables matches an empty text. -/
theorem universalTable_least (U : UnicodeClasses) :
    (universalTable U).all (fun e => decide (0 < e.2.1.least)) = true := by
  rfl

theorem localeTable_least (U : UnicodeClasses) (l : Locale) :
    (localeTable U l).all (fun e => decide (0 < e.2.1.least)) = true := by
  cases l <;> rfl

/-- The matches of the tables are not empty and lie between characters. -/
theorem tier1Detector_aligned (U : UnicodeClasses) (text : Str) (locale : Locale) :
    ∀ s ∈ (tier1Detector U).detect text locale, s.start < s.stop ∧ s.Aligned text := by
  intro s hs
  rcases (tier1Detector U).exists_findAll text locale s hs with ⟨pat, hpat, hfind⟩
  have hentry : ∃ e, 0 < e.2.1.least ∧ pat = regexSet e := by
    rcases List.mem_append.mp hpat with hpat | hpat
    · rcases List.mem_map.mp hpat with ⟨e, he, rfl⟩
      exact ⟨e, of_decide_eq_true (List.all_eq_true.mp (universalTable_least U) e he), rfl⟩
    · rcases List.mem_map.mp hpat with ⟨e, he, rfl⟩
      exact ⟨e, of_decide_eq_true (List.all_eq_true.mp (localeTable_least U locale) e he), rfl⟩
  rcases hentry with ⟨e, hleast, rfl⟩
  rcases List.mem_filterMap.mp hfind with ⟨m, hm, hspan⟩
  cases m with
  | none => exact absurd hspan.symm (Option.some_ne_none s)
  | some p =>
      rcases regexSet_findIter e text hleast p.1 p.2 hm with ⟨hlt, hle, hstart, hstop⟩
      rcases Option.ite_none_right_eq_some.mp hspan with ⟨_, hspan⟩
      rcases Option.some.inj hspan with rfl
      exact ⟨hlt, Nat.le_of_lt hlt, hle, hstart, hstop⟩

section Masked

variable (R : Rand) (C : Chrono) (h : Hashes)

/-- Every span is replaced by a token or is a synthetic already, if spans that
    follow do not reach back, except for a span that is there again. -/
theorem replaceSpansFrom_covers (text : Str) (locale : Locale) (convId : Str) (base : Nat) :
    ∀ (spans : List PiiSpan) (i last : Nat) (v v' : PiiVault) (out : Str)
      (replaced : List Replaced), (∀ s ∈ spans, s.stop ≤ text.length) →
      spans.Pairwise PiiSpan.OnceBefore →
      replaceSpansFrom R C h text locale convId base spans i last v = some (out, replaced, v') →
      ∀ s ∈ spans, last ≤ s.start →
        (∃ r ∈ replaced, r.span = s ∧ r.original = s.textIn text ∧
          xmlToken (generateTokenId h convId (base + r.position)) r.displayValue <:+: out) ∨
        s.textIn text ∈ v'.syntheticKeys := by
  intro spans
  induction spans with
  | nil => exact fun _ _ _ _ _ _ _ _ _ s hs => absurd hs List.not_mem_nil
  | cons x spans ih =>
      intro i last v v' out replaced hin honce hrun s hs hlast
      rcases List.pairwise_cons.mp honce with ⟨hbehind, honce⟩
      have hrest : ∀ s ∈ spans, s.stop ≤ text.length := fun s hs =>
        hin s (List.mem_cons_of_mem _ hs)
      rcases replaceSpansFrom_cases R C h text locale convId base x spans i last v v' out replaced
        hrun with ⟨hskip, hrun⟩ | ⟨_, gap, original, _, horig, hround⟩
      · -- a span that is passed over is another one
        rcases List.mem_cons.mp hs with rfl | hs
        · have := hin s List.mem_cons_self
          omega
        · exact ih (i + 1) last v v' out replaced hrest honce hrun s hs hlast
      · have horig : original = x.textIn text := ((slice_eq_some_iff text _ _ _).mp horig).2
        subst horig
        by_cases hsx : s = x
        · -- the span itself
          subst hsx
          rcases hround with ⟨hsyn, out', hgo, rfl⟩ | ⟨_, d, v₁, out', replaced', _, _, rfl, rfl⟩
          · refine .inr (replaceSpansFrom_keys R C h text locale convId base spans _ _ v v' out'
              replaced hgo ?_)
            rcases List.any_eq_true.mp hsyn with ⟨k, hk, heq⟩
            rw [beq_iff_eq] at heq
            rw [← heq]
            exact hk
          · exact .inl ⟨_, List.mem_cons_self, rfl, rfl, gap, out', rfl⟩
        · have hs : s ∈ spans := (List.mem_cons.mp hs).resolve_left hsx
          have hfrom : x.stop ≤ s.start := (hbehind s hs).resolve_right fun he => hsx he.symm
          rcases hround with ⟨_, out', hgo, rfl⟩ | ⟨_, d, v₁, out', replaced', _, hgo, rfl, rfl⟩
          · rcases ih _ _ _ _ _ _ hrest honce hgo s hs hfrom with ⟨r, hr, hspan, ho, htok⟩ | hkey
            · exact .inl ⟨r, hr, hspan, ho, htok.trans ((List.suffix_append _ _).isInfix)⟩
            · exact .inr hkey
          · rcases ih _ _ _ _ _ _ hrest honce hgo s hs hfrom with ⟨r, hr, hspan, ho, htok⟩ | hkey
            · exact .inl ⟨r, List.mem_cons_of_mem _ hr, hspan, ho,
                htok.trans ((List.suffix_append _ _).isInfix)⟩
            · exact .inr hkey

/-- The match is masked in the text: its token stands there with a display value, and a
    detection names it. -/
def MaskedBy (convId : Str) (s : PiiSpan) (working out : Str) (dets : List PiiDetection) : Prop :=
  ∃ k, ∃ det ∈ dets, det.original = s.textIn working ∧ det.entityType = s.entityType.label ∧
    xmlToken (generateTokenId h convId k) det.synthetic <:+: out

/-- Phase 3 masks the spans that Phase 2 hands over. -/
theorem phase3Entry_masks (convId : Str) (base : Nat) (locale : Locale) (r : EntryResult)
    (v v' : PiiVault) (out : Str) (dets : List PiiDetection)
    (hin : ∀ x ∈ r.stage2Spans, x.stop ≤ r.replacedText.length)
    (honce : r.stage2Spans.Pairwise PiiSpan.OnceBefore)
    (hrun : phase3Entry R C h convId base locale r v = some (out, dets, v')) :
    ∀ s ∈ r.stage2Spans, MaskedBy h convId s r.replacedText out dets ∨
      s.textIn r.replacedText ∈ v'.syntheticKeys := by
  intro s hs
  rcases phase3Entry_cases R C h convId base locale r v v' out dets hrun with
    ⟨replaced, hloop, rfl⟩
  rcases replaceSpansFrom_covers R C h _ _ _ _ _ _ _ _ _ _ _ hin honce hloop s hs
    (Nat.zero_le _) with ⟨x, hx, hspan, horig, htok⟩ | hkey
  · refine .inl ⟨_, x.detection, List.mem_append_right _ (List.mem_map_of_mem hx), horig, ?_, htok⟩
    rw [← hspan]
    rfl
  · exact .inr hkey

variable (U : UnicodeClasses) (t : Option Tier2Detector) (slm : Option SlmSidecar)
  (threshold : F32)

/-- A match outside the zones of Stage 1 is among the spans that Phase 2 hands over. -/
theorem phase2_match (ht : ∀ t', t = some t' → t'.Logistic)
    (hone : slm = none ∨ F32.one.ge threshold = true) (call base : Nat) (convId : Str)
    (locale : Locale) (text working : Str) (stage1Spans : List Stage1Span)
    (result : Option EntryResult)
    (hphase2 : (PiiPipeline.withDetectors (tier1Detector U) t slm threshold).phase2 h call convId
      base locale text = some result)
    (hstage1 : (PiiPipeline.withDetectors (tier1Detector U) t slm threshold).runStage1 h call
      convId base text = some (working, stage1Spans))
    (s : PiiSpan) (hs : s ∈ (tier1Detector U).detect working locale)
    (hzone : ∀ z ∈ exclusionZones stage1Spans, s.stop ≤ z.1 ∨ z.2 ≤ s.start) :
    ∃ r, result = some r ∧ r.replacedText = working ∧ s ∈ r.stage2Spans ∧
      (∀ x ∈ r.stage2Spans, x.stop ≤ working.length) ∧
      r.stage2Spans.Pairwise PiiSpan.OnceBefore := by
  have hmatches : ∀ x ∈ (tier1Detector U).detect working locale,
      x.start < x.stop ∧ x.stop ≤ working.length := fun x hx =>
    have haligned := tier1Detector_aligned U working locale x hx
    ⟨haligned.1, haligned.2.2.1⟩
  have hdet := detectSpans_keeps (tier1Detector U) t slm threshold ht hone call working locale s hs
  have hmerged := mem_detectSpans (tier1Detector U) t slm threshold call working locale
  have hinside := mergedSpans_inside (tier1Detector U) t ht call working locale hmatches
  have honce := detectSpans_onceBefore (tier1Detector U) t slm threshold ht call working locale
    hmatches
  generalize (PiiPipeline.withDetectors (tier1Detector U) t slm threshold) = p at *
  have hsub : (detectSpansWithExclusions (p.detectSpans call working locale)
      (exclusionZones stage1Spans)).Sublist (p.detectSpans call working locale) := by
    unfold detectSpansWithExclusions
    split
    · exact List.Sublist.refl _
    · exact List.filter_sublist
  have hkept : s ∈ detectSpansWithExclusions (p.detectSpans call working locale)
      (exclusionZones stage1Spans) := by
    unfold detectSpansWithExclusions
    split
    · exact hdet
    · refine List.mem_filter.mpr ⟨hdet, List.all_eq_true.mpr fun z hz => ?_⟩
      rw [Bool.or_eq_true, decide_eq_true_eq, decide_eq_true_eq]
      exact hzone z hz
  rw [PiiPipeline.phase2, hstage1, Option.bind_eq_bind, Option.bind_some] at hphase2
  dsimp only at hphase2
  rw [if_neg, Option.some.injEq] at hphase2
  · exact ⟨_, hphase2.symm, rfl, hkept, fun x hx => (hinside x (hmerged x (hsub.subset hx))).2,
      honce.sublist hsub⟩
  · rw [Bool.and_eq_true, List.isEmpty_iff, List.isEmpty_iff]
    exact fun hnone => absurd hkept (hnone.2 ▸ List.not_mem_nil)

/-- What Phase 3 makes of a form: the texts with a result are worked on and stand in their
    places, and where nothing is written the form is as it was. -/
theorem phase3_fills {field : Str} (F : BodyForm field) (g : Place → Str) (convId : Str)
    (base : Nat) (locale : Locale) : ∀ (work : List (Place × Option EntryResult))
    (f : Place → Str) (s s' : Phase3State), (work.map Prod.fst).Nodup →
    (∀ x ∈ work, x.1 ∈ F.places ∧ f x.1 = g x.1) → s.msgs = F.array f →
    phase3 R C h convId base locale (work.map fun x => (⟨x.1.1, x.1.2, g x.1⟩, x.2)) s = some s' →
    ∃ f', s'.msgs = F.array f' ∧ (∀ p, p ∉ work.map Prod.fst → f' p = f p) ∧
      (s'.anyReplaced = false → s.anyReplaced = false ∧ f' = f) ∧
      s.detections ⊆ s'.detections ∧
      ∀ p r, (p, some r) ∈ work → ∃ v v' dets,
        phase3Entry R C h convId base locale r v = some (f' p, dets, v') ∧
        dets ⊆ s'.detections ∧ v'.syntheticKeys ⊆ s'.vault.syntheticKeys := by
  intro work
  induction work with
  | nil =>
      intro f s s' _ _ hmsgs hrun
      rw [List.map_nil, phase3, Option.some.injEq] at hrun
      subst hrun
      exact ⟨f, hmsgs, fun _ _ => rfl, fun hany => ⟨hany, rfl⟩, List.Subset.refl _,
        fun _ _ hmem => absurd hmem List.not_mem_nil⟩
  | cons x work ih =>
      intro f s s' hnodup hwork hmsgs hrun
      rcases x with ⟨p, result⟩
      rw [List.map_cons, List.nodup_cons] at hnodup
      rcases hnodup with ⟨hp, hnodup⟩
      rcases List.forall_mem_cons.mp hwork with ⟨⟨hplace, hsame⟩, hlater⟩
      rw [List.map_cons, phase3, Option.bind_eq_bind, Option.bind_eq_some_iff] at hrun
      rcases hrun with ⟨s₁, hstep, hrun⟩
      have hkeys := phase3_keys R C h convId base locale _ s₁ s' hrun
      cases result with
      | none =>
          -- a text without a result
          rw [phase3Step, Option.some.injEq] at hstep
          subst hstep
          rcases ih f s s' hnodup hlater hmsgs hrun with ⟨f', hf', hother, hany, hdets, hall⟩
          refine ⟨f', hf', fun q hq => hother q fun hq' => hq (List.mem_cons_of_mem _ hq'), hany,
            hdets, fun q r hmem => hall q r ((List.mem_cons.mp hmem).resolve_left ?_)⟩
          exact fun he => Option.some_ne_none r (Prod.mk.inj he).2
      | some r =>
          rw [phase3Step, Option.bind_eq_bind, Option.bind_eq_some_iff] at hstep
          rcases hstep with ⟨⟨out, dets, v⟩, hentry, hstep⟩
          dsimp only at hstep
          -- the text stands in its place, written back or as it was
          have hafter : ∃ f₁ any, s₁ = ⟨v, F.array f₁, s.detections ++ dets, any⟩ ∧ f₁ p = out ∧
              (∀ q, q ≠ p → f₁ q = f q) ∧ (any = false → s.anyReplaced = false ∧ f₁ = f) := by
            split at hstep
            · rename_i hout
              rw [Option.some.injEq] at hstep
              refine ⟨f, s.anyReplaced, ?_, hsame.trans hout.1.symm, fun _ _ => rfl,
                fun hany => ⟨hany, rfl⟩⟩
              rw [← hstep, hmsgs]
            · rw [hmsgs, F.writeBack_fill f p hplace, Option.some.injEq] at hstep
              refine ⟨Function.update f p out, true, hstep.symm, Function.update_self .., ?_,
                fun hany => Bool.noConfusion hany⟩
              exact fun q hq => Function.update_of_ne hq _ _
          rcases hafter with ⟨f₁, any, rfl, hout, hrest, hsent⟩
          have hnext : ∀ x ∈ work, x.1 ∈ F.places ∧ f₁ x.1 = g x.1 := by
            intro x hx
            have hne : x.1 ≠ p := by
              rintro rfl
              exact hp (List.mem_map.mpr ⟨x, hx, rfl⟩)
            exact ⟨(hlater x hx).1, (hrest x.1 hne).trans (hlater x hx).2⟩
          rcases ih f₁ _ s' hnodup hnext rfl hrun with ⟨f', hf', hother, hany, hdets, hall⟩
          refine ⟨f', hf', fun q hq => ?_, fun hnone => ?_, fun d hd => hdets
            (List.mem_append_left _ hd), fun q r' hmem => ?_⟩
          · rw [List.map_cons, List.mem_cons, not_or] at hq
            rw [hother q hq.2, hrest q hq.1]
          · rcases hany hnone with ⟨hany, hf⟩
            rcases hsent hany with ⟨hsent, hf₁⟩
            exact ⟨hsent, hf.trans hf₁⟩
          · rcases List.mem_cons.mp hmem with he | hmem
            · rcases Prod.mk.inj he with ⟨rfl, hr⟩
              rcases Option.some.inj hr with rfl
              refine ⟨s.vault, v, dets, ?_, fun d hd => hdets (List.mem_append_right _ hd), hkeys⟩
              rw [hother q hp, hout]
              exact hentry
            · exact hall q r' hmem

/-- A form that goes through the pipeline: the spans of a result are masked in the text that is
    sent in its place, and their detections are reported with a new body. -/
theorem processValue_masks (p : PiiPipeline) (provider : Provider)
    (F : BodyForm provider.messagesField) (g : Place → Str) (reads : Nat → Nat) (v v' : PiiVault)
    (locale : Locale) (results : List (Option EntryResult)) (hne : F.places ≠ [])
    (hphase2 : p.phase2All h v.conversationId reads locale (F.entries g) 0 = some results)
    (sent : Option (Value × List PiiDetection))
    (hrun : p.processValue R C h (F.fill g) reads v provider locale = some (sent, v'))
    (i : Nat) (q : Place) (r : EntryResult) (hq : F.places[i]? = some q)
    (hr : results[i]? = some (some r)) (hin : ∀ x ∈ r.stage2Spans, x.stop ≤ r.replacedText.length)
    (honce : r.stage2Spans.Pairwise PiiSpan.OnceBefore) :
    ∃ f dets, (sent = none → f q = g q) ∧ (∀ x ∈ sent, x.1 = F.fill f ∧ dets ⊆ x.2) ∧
      ∀ s ∈ r.stage2Spans, MaskedBy h v.conversationId s r.replacedText (f q) dets ∨
        s.textIn r.replacedText ∈ v'.syntheticKeys := by
  have hsome : ¬ results.all Option.isNone = true := fun hall =>
    Bool.noConfusion (List.all_eq_true.mp hall _ (List.mem_of_getElem? hr))
  rw [processValue_fill R C h p provider F g reads v locale results hne hphase2, if_neg hsome,
    Option.bind_eq_some_iff] at hrun
  rcases hrun with ⟨s', hphase3, hrun⟩
  -- Phase 3 goes through the places, each with its result
  have hwork : (F.entries g).zip results =
      (F.places.zip results).map fun x => (⟨x.1.1, x.1.2, g x.1⟩, x.2) := by
    rw [BodyForm.entries, List.zip_map_left]
    rfl
  have hplaces : (F.places.zip results).map Prod.fst = F.places := by
    refine List.map_fst_zip ?_
    rw [(phase2All_getElem h p v.conversationId reads locale _ 0 results hphase2).1,
      BodyForm.entries, List.length_map]
  rw [hwork] at hphase3
  rcases phase3_fills R C h F g v.conversationId v.mappingCount locale _ g _ s'
    (by rw [hplaces]; exact F.places_nodup) (fun x hx => ⟨(List.of_mem_zip hx).1, rfl⟩) rfl hphase3
    with ⟨f, hmsgs, _, hany, _, hall⟩
  rcases hall q r (List.mem_of_getElem? (List.getElem?_zip_eq_some.mpr ⟨hq, hr⟩)) with
    ⟨v₀, v₁, dets, hdone, hdets, hkeys⟩
  have hmasked : ∀ s ∈ r.stage2Spans, MaskedBy h v.conversationId s r.replacedText (f q) dets ∨
      s.textIn r.replacedText ∈ s'.vault.syntheticKeys := fun s hs =>
    (phase3Entry_masks R C h _ _ locale r v₀ v₁ (f q) dets hin honce hdone s hs).imp_right
      fun hk => hkeys hk
  cases hsent : s'.anyReplaced with
  | false =>
      rw [hsent, if_neg Bool.false_ne_true, Option.some.injEq, Prod.mk.injEq] at hrun
      rcases hrun with ⟨rfl, rfl⟩
      refine ⟨f, dets, fun _ => ?_, fun x hx => absurd hx.symm (Option.some_ne_none x), hmasked⟩
      rw [(hany hsent).2]
  | true =>
      rw [hsent, if_pos rfl, Option.some.injEq, Prod.mk.injEq] at hrun
      rcases hrun with ⟨rfl, rfl⟩
      refine ⟨f, dets, fun hn => absurd hn (Option.some_ne_none _), fun x hx => ?_, hmasked⟩
      rcases Option.some.inj hx with rfl
      exact ⟨by rw [BodyForm.fill, ← hmsgs], hdets⟩

/-- The objects in the content arrays of the messages stand in key order, as the parser's map
    keeps them. -/
def PartsSorted (field : Str) (value : Value) : Prop :=
  ∀ msgs, value.getArray field = some msgs → ∀ msg ∈ msgs, ∀ parts,
    msg.get (lit "content") = some (.array parts) →
    ∀ part, Value.object part ∈ parts → FieldsSorted part

/-- A body with an entry is a form with its texts. -/
theorem exists_filled (field : Str) (value : Value) (hsorted : PartsSorted field value)
    (entry : MessageTextEntry) (hentry : entry ∈ collectMessageTexts value field) :
    ∃ (F : BodyForm field) (g : Place → Str), value = F.fill g := by
  rcases mem_collectMessageTexts _ _ entry hentry with ⟨msgs, _, hmsgs, _⟩
  cases value with
  | object fields => exact exists_bodyForm _ fields msgs hmsgs (hsorted msgs hmsgs)
  | _ => simp only [Value.getArray, Value.get, Option.bind_none, reduceCtorEq] at hmsgs

/-- The text that is sent at the place of an entry: as it came if the body is forwarded as it
    came, and otherwise what stands there in the new body. -/
def SentText (J : SerdeJson) (field : Str) (entry : MessageTextEntry) (out : Str) :
    Option (Str × List PiiDetection) → Prop
  | none => out = entry.text
  | some (body, _) => ∃ value, body = J.toStr value ∧
      ⟨entry.msgIdx, entry.partIdx, out⟩ ∈ collectMessageTexts value field

end Masked

/-- The tables with an entity model that is not sure and a language model that confirms
    nothing. -/
def addressPipeline : PiiPipeline :=
  PiiPipeline.withDetectors (tier1Detector .ascii) (some firstWordTagger) (some deafSlm)
    ⟨0x3F333333⟩

end PrivacyClaw
