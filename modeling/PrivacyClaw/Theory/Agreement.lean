import PrivacyClaw.Theory.Exclusion
import PrivacyClaw.Theory.Replace

/-!
# Tokens and Vault after Stage 1

Does the vault resolve the tokens that Stage 1 wrote into the text?

A token's id in the text counts the replacements from the left. The vault's id
for it counts the recorded spans, which were recorded from the right. So the
id that stands at the first span is entered for the original of the last one,
and so on inwards: tokens and vault agree exactly when the reply reads the same
from both ends (`tokens_resolve_iff`).

## Main definitions

* `Resolves`: A token and its id both resolve to an original.
* `Mirrored`: The reply reads the same from both ends.

## Theorems

* `positionOf_getElem`: The position of a replacement is its place in the
  sorted reply.
* `recorded_issue_unique`, `resolves_recorded_iff`: What the id of a recorded
  span leads to.
* `singleText_indexed`: The issues of a request with one text.
* `tokens_resolve_iff`: Tokens and vault agree exactly on mirrored replies.
* `tokens_resolve_mirrored`: A reply of two spans that reads the same from both
  ends.
* `tokens_resolve_swapped`: Two replacements, with the originals exchanged.
-/

namespace PrivacyClaw

/-- The token and its id both lead to `original`. -/
def Resolves (v : PiiVault) (tokenId displayValue original : Str) : Prop :=
  v.fullTokenToOriginal.lookup (xmlToken tokenId displayValue) = some original ∧
    v.tokenIdToOriginal.lookup tokenId = some original

/-- From both ends of the sorted reply the same texts are replaced, by the same
    display values unless the vault knew the token before. -/
def Mirrored (v : PiiVault) (tok : ReplaceReplacement → Str) (text : Str)
    (rs : List ReplaceReplacement) : Prop :=
  ∀ p ∈ rs.zip rs.reverse, spanText text p.1 = spanText text p.2 ∧
    (p.1.displayValue = p.2.displayValue ∨
      v.fullTokenToOriginal.lookup (tok p.1) = some (spanText text p.1))

/-- With rising starts, the position of a replacement is its place. -/
theorem positionOf_getElem (rs : List ReplaceReplacement)
    (hpair : rs.Pairwise (fun a b => a.start < b.start)) (k : Nat) (hk : k < rs.length) :
    positionOf rs rs[k].start = k := by
  have : rs.findIdx? (fun x => x.start == rs[k].start) = some k := by
    rw [List.findIdx?_eq_some_iff_getElem]
    refine ⟨hk, by simp only [beq_self_eq_true], ?_⟩
    intro j hj
    have := List.pairwise_iff_getElem.mp hpair j k (by omega) hk hj
    simp only [beq_iff_eq]
    omega
  rw [positionOf, this, Option.getD_some]

/-- Where the ids of a request are distinct, the id of a recorded span belongs
    to the issue of that span alone. -/
theorem recorded_issue_unique (h : Hashes) (convId : Str) (base n : Nat)
    (spans : List Stage1Span) (replaced : List Replaced)
    (hpos : ∀ r ∈ replaced, r.position < n)
    (hinj : ∀ i < spans.length + n, ∀ j < spans.length + n,
      generateTokenId h convId (base + i) = generateTokenId h convId (base + j) → i = j)
    (k : Nat) (s : Stage1Span) (hs : spans[k]? = some s) :
    ∀ j ∈ stage1Issues base spans 0 ++ stage2Issues (base + spans.length) replaced,
      j.tokenId h convId = generateTokenId h convId (base + k) →
      j = ⟨base + k, s.displayValue, s.originalText⟩ := by
  have hk := (List.getElem?_eq_some_iff.mp hs).1
  intro j hj hid
  rcases List.mem_append.mp hj with hj | hj
  -- Two recorded spans with one id are the same span.
  · rcases (mem_stage1Issues _ _ spans 0).mp hj with ⟨i, d, hd, rfl⟩
    have hi := (List.getElem?_eq_some_iff.mp hd).1
    have hik := hinj (0 + i) (by omega) k (by omega) hid
    rw [Nat.zero_add] at hik
    subst hik
    rw [hs, Option.some.injEq] at hd
    rw [← hd, Nat.zero_add]
  · -- Stage 2 counts on behind the recorded spans
    rcases List.mem_map.mp hj with ⟨r, hr, rfl⟩
    have hlt := hpos r hr
    have hid' : generateTokenId h convId (base + (spans.length + r.position)) =
        generateTokenId h convId (base + k) := by
      rw [← Nat.add_assoc]
      exact hid
    have := hinj (spans.length + r.position) (by omega) k (by omega) hid'
    omega

/-- Then a token with that id resolves to the text of the recorded span, if its
    display value is the span's or the vault knew the token before. -/
theorem resolves_recorded_iff (h : Hashes) (convId : Str) (base n : Nat) (v v' : PiiVault)
    (spans : List Stage1Span) (replaced : List Replaced)
    (hidx : Indexed h convId v
      (stage1Issues base spans 0 ++ stage2Issues (base + spans.length) replaced) v')
    (hpos : ∀ r ∈ replaced, r.position < n)
    (hinj : ∀ i < spans.length + n, ∀ j < spans.length + n,
      generateTokenId h convId (base + i) = generateTokenId h convId (base + j) → i = j)
    (k : Nat) (s : Stage1Span) (hs : spans[k]? = some s) (d t : Str) :
    Resolves v' (generateTokenId h convId (base + k)) d t ↔
      t = s.originalText ∧ (d = s.displayValue ∨
        v.fullTokenToOriginal.lookup (xmlToken (generateTokenId h convId (base + k)) d) =
          some t) := by
  have huniq := recorded_issue_unique h convId base n spans replaced hpos hinj k s hs
  have hin : (⟨base + k, s.displayValue, s.originalText⟩ : Issue) ∈
      stage1Issues base spans 0 ++ stage2Issues (base + spans.length) replaced := by
    refine List.mem_append_left _ ((mem_stage1Issues _ _ spans 0).mpr ⟨k, s, hs, ?_⟩)
    rw [Nat.zero_add]
  have hbyId := hidx.lookup_byId _ hin (fun j hj hid => by rw [huniq j hj hid])
  have hfull := hidx.lookup_full _ hin (fun j hj hid => huniq j hj hid) d
  simp only [Issue.tokenId] at hbyId hfull
  rw [Resolves, hbyId, hfull, Option.some.injEq]
  -- Under another display value only an older entry can answer.
  by_cases hd : d = s.displayValue
  · rw [if_pos hd, Option.some.injEq]
    simp only [hd, true_or, and_true, and_self]
    exact eq_comm
  · rw [if_neg hd]
    simp only [hd, false_or]
    exact ⟨fun hres => ⟨hres.2.symm, hres.1⟩, fun hres => ⟨hres.2, hres.1.symm⟩⟩

section SingleText

variable (R : Rand) (C : Chrono) (h : Hashes) (p : PiiPipeline) (slm : SlmSidecar)
  (J : SerdeJson) (body : List UInt8) (reads : Nat → Nat) (v v' : PiiVault)
  (provider : Provider) (locale : Locale) (value : Value) (entry : MessageTextEntry)
  (reps : List ReplaceReplacement) (res : Option (Str × List PiiDetection))

/-- The spans Stage 2 keeps for the working text. -/
def stage2Of (p : PiiPipeline) (locale : Locale) (working : Str) (spans : List Stage1Span) :
    List PiiSpan :=
  detectSpansWithExclusions (p.detectSpans 0 working locale) (exclusionZones spans)

/-- A request with one text and a reply that replaces something writes the
    issues of the recorded spans, then those of Stage 2. -/
theorem singleText_indexed (working : Str) (spans : List Stage1Span)
    (hval : J.fromSlice body = some value)
    (hentries : collectMessageTexts value provider.messagesField = [entry])
    (hslm : p.slm = some slm) (hreads : reads 0 = v.mappingCount)
    (hreply : slm.replace 0 entry.text v.conversationId v.mappingCount = some reps)
    (hne : reps ≠ [])
    (hstage1 : stage1 h v.conversationId v.mappingCount entry.text reps = some (working, spans))
    (hspans : spans ≠ [])
    (hrun : p.processRequestBodyAsync R C h J body reads v provider locale = some (res, v')) :
    ∃ replaced, Indexed h v.conversationId v
        (stage1Issues v.mappingCount spans 0 ++
          stage2Issues (v.mappingCount + spans.length) replaced) v' ∧
      ∀ r ∈ replaced, r.position < (stage2Of p locale working spans).length := by
  -- Phase 2 finds the recorded spans
  have hphase2 : p.phase2 h 0 v.conversationId (reads 0) locale entry.text =
      some (some ⟨working, spans, stage2Of p locale working spans⟩) := by
    have hempty : spans.isEmpty = false := by
      rw [← Bool.not_eq_true, List.isEmpty_iff]
      exact hspans
    have hrepsEmpty : reps.isEmpty = false := by
      rw [← Bool.not_eq_true, List.isEmpty_iff]
      exact hne
    have hrun1 : p.runStage1 h 0 v.conversationId (reads 0) entry.text =
        some (working, spans) := by
      simp only [PiiPipeline.runStage1, hslm, hreads, hreply, hrepsEmpty, Bool.false_eq_true,
        if_false, hstage1]
    simp only [PiiPipeline.phase2, hrun1, Option.bind_eq_bind, Option.bind_some, hempty,
      Bool.false_and, Bool.false_eq_true, if_false, stage2Of]
  rcases processRequestBodyAsync_cases R C h p J body reads v v' provider locale value res hval
    (by rw [hentries]; exact List.cons_ne_nil _ _) hrun with ⟨results, hresults, hcase⟩
  rw [hentries] at hresults hcase
  simp only [PiiPipeline.phase2All, hphase2, Option.bind_eq_bind, Option.bind_some,
    Option.some.injEq] at hresults
  subst hresults
  rcases hcase with ⟨hall, _⟩ | ⟨msgs, s, hphase3, hv'⟩
  · exact absurd hall (by simp only [List.all_cons, Option.isNone_some, Bool.false_and,
      Bool.false_eq_true, not_false_eq_true])
  · rw [List.zip_cons_cons, List.zip_nil_left, phase3, Option.bind_eq_bind,
      Option.bind_eq_some_iff] at hphase3
    rcases hphase3 with ⟨s', hstep, hs⟩
    rw [phase3, Option.some.injEq] at hs
    subst hs hv'
    rcases phase3Step_vault R C h _ _ locale entry _ _ _ hstep with
      ⟨hnone, _⟩ | ⟨r, out, dets, hr, hentry⟩
    · exact absurd hnone (by simp only [reduceCtorEq, not_false_eq_true])
    · rw [Option.some.injEq] at hr
      subst hr
      rcases phase3Entry_cases R C h _ _ locale _ _ _ out dets hentry with ⟨replaced, hloop, _⟩
      refine ⟨replaced, (insertStage1_indexed h _ _ spans 0 v).trans
        (replaceSpansFrom_indexed R C h _ _ _ _ _ _ _ _ _ _ _ hloop), ?_⟩
      intro r hr
      have hpos := (replaceSpansFrom_positions R C h _ _ _ _ _ _ _ _ _ _ _ hloop).2 r hr
      exact (List.getElem?_eq_some_iff.mp hpos.2.1).1

/-- The tokens Stage 1 writes stand in its output one for each replacement, and
    the vault after the request resolves all of them to what they replaced
    exactly when the sorted reply reads the same from both ends. -/
theorem tokens_resolve_iff (working : Str) (spans : List Stage1Span)
    (hval : J.fromSlice body = some value)
    (hentries : collectMessageTexts value provider.messagesField = [entry])
    (hslm : p.slm = some slm) (hreads : reads 0 = v.mappingCount)
    (hreply : slm.replace 0 entry.text v.conversationId v.mappingCount = some reps)
    (hne : reps ≠ []) (hvalid : ValidReplacements entry.text reps)
    (hstage1 : stage1 h v.conversationId v.mappingCount entry.text reps = some (working, spans))
    (hinj : ∀ i < spans.length + (stage2Of p locale working spans).length,
      ∀ j < spans.length + (stage2Of p locale working spans).length,
      generateTokenId h v.conversationId (v.mappingCount + i) =
        generateTokenId h v.conversationId (v.mappingCount + j) → i = j)
    (hrun : p.processRequestBodyAsync R C h J body reads v provider locale = some (res, v')) :
    List.Forall₂ (fun (z : Nat × Nat) r => (working.take z.2).drop z.1 =
          stage1Token h v.conversationId v.mappingCount (sortReplacements reps) r)
        (emittedRanges h v.conversationId v.mappingCount reps) (sortReplacements reps) ∧
      ((∀ r ∈ reps, Resolves v'
          (generateTokenId h v.conversationId
            (v.mappingCount + positionOf (sortReplacements reps) r.start))
          r.displayValue (spanText entry.text r)) ↔
        Mirrored v (stage1Token h v.conversationId v.mappingCount (sortReplacements reps))
          entry.text (sortReplacements reps)) := by
  refine ⟨emittedRanges_select h _ _ _ _ _ reps hvalid hstage1, ?_⟩
  set rs := sortReplacements reps with hrs
  set tok := stage1Token h v.conversationId v.mappingCount rs with htok
  have hmem : ∀ r, r ∈ rs ↔ r ∈ reps := fun r => (List.perm_insertionSort _ _).mem_iff
  have hstarts : rs.Pairwise (fun a b => a.start < b.start) :=
    (sortReplacements_pairwise entry.text reps hvalid).imp_of_mem fun ha _ hab =>
      Nat.lt_of_lt_of_le (hvalid.sort.nonempty _ ha) hab
  -- the spans were recorded from right to left
  have hspans : spans = rs.reverse.map (recordedSpan tok entry.text) := by
    rw [stage1_valid h _ _ _ reps hvalid, Option.some.injEq, Prod.mk.injEq] at hstage1
    exact hstage1.2.symm
  have hlen : spans.length = rs.length := by
    rw [hspans, List.length_map, List.length_reverse]
  have hrsne : 0 < rs.length := by
    rw [hrs, sortReplacements, List.length_insertionSort]
    exact List.length_pos_iff.mpr hne
  rcases singleText_indexed R C h p slm J body reads v v' provider locale value entry reps res
    working spans hval hentries hslm hreads hreply hne hstage1
    (List.length_pos_iff.mp (by omega)) hrun with ⟨replaced, hidx, hpos⟩
  -- the k-th token's id belongs to the k-th recorded span, and that is the k-th from the right
  have hissue : ∀ k (hk : k < rs.length) (hkr : k < rs.reverse.length),
      Resolves v' (generateTokenId h v.conversationId (v.mappingCount + positionOf rs rs[k].start))
          rs[k].displayValue (spanText entry.text rs[k]) ↔
        spanText entry.text rs[k] = spanText entry.text rs.reverse[k] ∧
          (rs[k].displayValue = rs.reverse[k].displayValue ∨
            v.fullTokenToOriginal.lookup (tok rs[k]) = some (spanText entry.text rs[k])) := by
    intro k hk hkr
    have hspan : spans[k]? = some (recordedSpan tok entry.text rs.reverse[k]) := by
      rw [hspans, List.getElem?_map, List.getElem?_eq_getElem hkr, Option.map_some]
    rw [htok, stage1Token, positionOf_getElem rs hstarts k hk]
    exact resolves_recorded_iff h v.conversationId v.mappingCount _ v v' spans replaced hidx hpos
      hinj k _ hspan _ _
  constructor
  · intro hall q hq
    rcases List.mem_iff_getElem.mp hq with ⟨k, hk, rfl⟩
    rw [List.length_zip, List.length_reverse, Nat.min_self] at hk
    have hkr : k < rs.reverse.length := by rw [List.length_reverse]; exact hk
    rw [List.getElem_zip]
    exact (hissue k hk hkr).mp (hall rs[k] ((hmem _).mp (List.getElem_mem hk)))
  · intro hmir r hr
    rcases List.mem_iff_getElem.mp ((hmem r).mpr hr) with ⟨k, hk, rfl⟩
    have hkr : k < rs.reverse.length := by rw [List.length_reverse]; exact hk
    have hkz : k < (rs.zip rs.reverse).length := by
      rw [List.length_zip, List.length_reverse, Nat.min_self]
      exact hk
    have hthis := hmir _ (List.getElem_mem hkz)
    rw [List.getElem_zip] at hthis
    exact (hissue k hk hkr).mpr hthis

end SingleText

/-- A pipeline whose detectors find nothing and whose sidecar always gives the
    same reply. -/
def sidecarOnly (reps : List ReplaceReplacement) : PiiPipeline where
  tier1 _ _ := []
  tier2 := none
  slm := some ⟨fun _ _ _ _ => some reps, fun _ _ _ => none⟩
  slmConfidenceThreshold := ⟨0x3F333333⟩

/-- Two spans of one text under one display value, at either end of `aba`. -/
def mirroredReply : List ReplaceReplacement :=
  [⟨0, 1, lit "X", lit "PERSON_NAME"⟩, ⟨2, 3, lit "X", lit "PERSON_NAME"⟩]

/-- A reply that reads the same from both ends: both tokens stand in the
    output, and the vault resolves both. -/
theorem tokens_resolve_mirrored :
    ValidReplacements (lit "aba") mirroredReply ∧
    Mirrored (PiiVault.new sampleHashes (lit "c"))
      (stage1Token sampleHashes (lit "c") 0 (sortReplacements mirroredReply))
      (lit "aba") (sortReplacements mirroredReply) ∧
    ∃ working spans res v', stage1 sampleHashes (lit "c") 0 (lit "aba") mirroredReply =
        some (working, spans) ∧
      (sidecarOnly mirroredReply).processRequestBodyAsync
        Rand.least Chrono.none sampleHashes (SerdeJson.ofValues [chatBody [lit "aba"]])
        (chatBody [lit "aba"]).compact (fun _ => 0) (PiiVault.new sampleHashes (lit "c"))
        .openAi .enUs = some (res, v') ∧
      List.Forall₂ (fun (z : Nat × Nat) r => (working.take z.2).drop z.1 =
          stage1Token sampleHashes (lit "c") 0 (sortReplacements mirroredReply) r)
        (emittedRanges sampleHashes (lit "c") 0 mirroredReply) (sortReplacements mirroredReply) ∧
      ∀ r ∈ mirroredReply, Resolves v'
        (generateTokenId sampleHashes (lit "c")
          (0 + positionOf (sortReplacements mirroredReply) r.start))
        r.displayValue (spanText (lit "aba") r) := by
  have hvalid : ValidReplacements (lit "aba") mirroredReply :=
    ⟨by decide, by decide, by decide, by decide⟩
  have hmirrored : Mirrored (PiiVault.new sampleHashes (lit "c"))
      (stage1Token sampleHashes (lit "c") 0 (sortReplacements mirroredReply))
      (lit "aba") (sortReplacements mirroredReply) := by
    have hsame : ∀ q ∈ (sortReplacements mirroredReply).zip (sortReplacements mirroredReply).reverse,
        spanText (lit "aba") q.1 = spanText (lit "aba") q.2 ∧
          q.1.displayValue = q.2.displayValue := by decide
    intro q hq
    exact ⟨(hsame q hq).1, Or.inl (hsame q hq).2⟩
  have hboth := tokens_resolve_iff Rand.least Chrono.none sampleHashes
    (sidecarOnly mirroredReply) _
    (SerdeJson.ofValues [chatBody [lit "aba"]]) (chatBody [lit "aba"]).compact (fun _ => 0)
    (PiiVault.new sampleHashes (lit "c")) _ .openAi .enUs (chatBody [lit "aba"])
    ⟨0, none, lit "aba"⟩ mirroredReply _ _ _ rfl rfl rfl rfl rfl
    (by decide) hvalid rfl (by decide) rfl
  exact ⟨hvalid, hmirrored, _, _, _, _, rfl, rfl, hboth.1, hboth.2.mpr hmirrored⟩

/-- A reply with two spans: the first token's id leads to the second span's
    text. -/
theorem tokens_resolve_swapped :
    ValidReplacements (lit "ab")
      [⟨0, 1, lit "X", lit "PERSON_NAME"⟩, ⟨1, 2, lit "Y", lit "PERSON_NAME"⟩] ∧
    (∀ i < 2, ∀ j < 2, generateTokenId sampleHashes (lit "c") i =
      generateTokenId sampleHashes (lit "c") j → i = j) ∧
    ∃ res v', (sidecarOnly [⟨0, 1, lit "X", lit "PERSON_NAME"⟩,
          ⟨1, 2, lit "Y", lit "PERSON_NAME"⟩]).processRequestBodyAsync
        Rand.least Chrono.none sampleHashes (SerdeJson.ofValues [chatBody [lit "ab"]])
        (chatBody [lit "ab"]).compact (fun _ => 0) (PiiVault.new sampleHashes (lit "c"))
        .openAi .enUs = some (some res, v') ∧
      res.1 = (chatBody [xmlToken (generateTokenId sampleHashes (lit "c") 0) (lit "X") ++
        xmlToken (generateTokenId sampleHashes (lit "c") 1) (lit "Y")]).compact ∧
      v'.tokenIdToOriginal.lookup (generateTokenId sampleHashes (lit "c") 0) = some (lit "b") ∧
      ¬ Resolves v' (generateTokenId sampleHashes (lit "c") 0) (lit "X") (lit "a") := by
  refine ⟨⟨by decide, by decide, by decide, by decide⟩, by decide, _, _, rfl, by decide,
    by decide, ?_⟩
  rintro ⟨_, hid⟩
  exact absurd hid (by decide)

end PrivacyClaw
