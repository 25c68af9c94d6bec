import PrivacyClaw.Theory.Masking

/-!
# Disguised Originals

What of an original can be told from what is put in its place?

A generator looks at its original for very little: the country code of a number,
the length of a key, the host of an address. `hint` is all that it looks at, and
two originals with the same hint get the same synthetic from the same state. The
state depends on the seed and the number of mappings, so two vaults that hold
corresponding originals under the same synthetics stay so, step by step.

Two texts show the same if they agree between their spans and if their spans agree
in type and hint. Then masking makes one text of both, as long as equal originals
correspond to equal ones and none of them is a synthetic itself.

## Main definitions

* `Hint`, `hint`: What a generator looks at.
* `OneToOne`: Originals that correspond.
* `Alike`: Two vaults up to their originals.
* `Visible`, `visible`: What a text shows outside its spans.
* `Fit`: Spans that a text can be cut at.

## Theorems

* `generate_hint`: A generator looks at nothing else.
* `Alike.getOrCreate`, `Alike.addMappingWithTokenId`: The steps.
* `Alike.replaceSpansFrom`: The loop makes the same of both texts.
* `Alike.insertStage1`: The replacements of the sidecar.
-/

namespace PrivacyClaw

/-- What a generator looks at: the beginning, a digit, the length, both ends or the
    date of its original. -/
inductive Hint (C : Chrono) where
  | nothing
  | start (s : Option Str)
  | digit (b : UInt8)
  | length (n : Nat)
  | ends (front back : Str)
  | date (d : Option C.Date)

/-- What `gen_phone` keeps; `none` where it aborts. -/
def phoneCode (original : Str) : Option Str :=
  match original with
  | 43 :: afterPlus => do
    let codeEnd := match afterPlus.findIdx? (fun b => !isAsciiDigit b) with
      | some i => i + 1
      | none => 3
    let code ← slice afterPlus 0 (min codeEnd 3)
    some (lit "+" ++ code ++ lit " ")
  | _ => some []

section

variable (R : Rand) (C : Chrono)

/-- What the generator of a type looks at. -/
def hint (piiType : PiiType) (original : Str) : Hint C :=
  match piiType with
  | .email | .ssn | .ipV4 | .ipV6 | .awsAccessKey | .awsSecretKey | .sshPrivateKey
  | .personName | .orgName | .address | .aadhaarNumber | .cpfNumber => .nothing
  | .phone => .start (phoneCode original)
  | .creditCard => .digit ((original.find? isAsciiDigit).getD 52)
  | .openAiApiKey => .length (max (original.length - 3) 32)
  | .gitHubPat => .length (max (original.length - 4) 32)
  | .bearerToken => .length (max original.length 32)
  | .dbConnectionString => .ends (original.take (schemeEnd original)) []
  | .urlWithCreds => .ends (original.take (schemeEnd original)) (original.drop (hostStart original))
  | .dateOfBirth => .date (C.parse original)
  | .medicalRecord | .passportNumber | .driversLicense | .financialAccount | .custom _ =>
    .length (max original.length 8)

theorem genPhone_eq (original : Str) (s : R.State) : genPhone R original s =
    (phoneCode original).bind fun pre =>
      some (pre ++ lit "555-" ++ zeroPad 4 (decimal (R.genRange .u32 0 9999 s).1) ++ lit "-" ++
        zeroPad 4 (decimal (R.genRange .u32 0 9999 (R.genRange .u32 0 9999 s).2).1)) := by
  rcases hfirst : R.genRange .u32 0 9999 s with ⟨a, s₁⟩
  rcases hsecond : R.genRange .u32 0 9999 s₁ with ⟨b, s₂⟩
  by_cases hplus : ∃ afterPlus, original = 43 :: afterPlus
  · rcases hplus with ⟨afterPlus, rfl⟩
    unfold genPhone phoneCode
    cases hend : afterPlus.findIdx? (fun b => !isAsciiDigit b) with
    | some i =>
        simp only [hfirst, hsecond, hend, Option.bind_eq_bind, Option.bind_assoc,
          Option.bind_some]
    | none =>
        simp only [hfirst, hsecond, hend, Option.bind_eq_bind, Option.bind_assoc,
          Option.bind_some]
  · have hcode : phoneCode original = some [] := by
      unfold phoneCode
      split
      · rename_i afterPlus
        exact absurd ⟨afterPlus, rfl⟩ hplus
      · rfl
    rw [hcode]
    unfold genPhone
    simp only [hfirst, hsecond]
    split
    · rename_i afterPlus
      exact absurd ⟨afterPlus, rfl⟩ hplus
    · rfl

/-- A generator looks at nothing else. -/
theorem generate_hint (piiType : PiiType) (o o' : Str) (locale : Locale) (s : R.State)
    (h : hint C piiType o = hint C piiType o') :
    generate R C piiType o locale s = generate R C piiType o' locale s := by
  cases piiType with
  | phone =>
      have hcode : phoneCode o = phoneCode o' := Hint.start.inj h
      rw [generate, generate, genPhone_eq, genPhone_eq, hcode]
  | creditCard =>
      have hdigit := Hint.digit.inj h
      rw [generate, generate, genCreditCard, genCreditCard, hdigit]
  | openAiApiKey =>
      have hlen := Hint.length.inj h
      have h3 : (lit "sk-").length = 3 := by decide
      rw [generate, generate, genApiKey, genApiKey, h3, hlen]
  | gitHubPat =>
      have hlen := Hint.length.inj h
      have h4 : (lit "ghp_").length = 4 := by decide
      rw [generate, generate, genApiKey, genApiKey, h4, hlen]
  | dbConnectionString =>
      have hfront := (Hint.ends.inj h).1
      rw [generate, generate, genDbConnection, genDbConnection, hfront]
  | urlWithCreds =>
      have hends := Hint.ends.inj h
      have hurl : ∀ x, genUrlWithCreds x =
          x.take (schemeEnd x) ++ lit "user:password@" ++ x.drop (hostStart x) := fun _ => rfl
      rw [generate, generate, hurl, hurl, hends.1, hends.2]
  | dateOfBirth =>
      have hdate := Hint.date.inj h
      rw [generate, generate, genDob, genDob, hdate]
  | bearerToken | medicalRecord | passportNumber | driversLicense | financialAccount | custom _ =>
      exact congrArg (fun n => some (genRandomAlphanumeric R n s)) (Hint.length.inj h)
  | _ => rfl

end

/-- Originals that correspond: equal ones to equal ones. -/
def OneToOne (S : Str → Str → Prop) : Prop :=
  ∀ a a' b b', S a a' → S b b' → (a = b ↔ a' = b')

/-- Two vaults that hold corresponding originals under the same synthetics, as far as
    masking can see. -/
structure Alike (S : Str → Str → Prop) (v w : PiiVault) : Prop where
  rngSeed : v.rngSeed = w.rngSeed
  conversationId : v.conversationId = w.conversationId
  syntheticKeys : v.syntheticKeys = w.syntheticKeys
  mappingCount : v.mappingCount = w.mappingCount
  getSynthetic : ∀ o o', S o o' → v.getSynthetic o = w.getSynthetic o'

/-- A vault with its index maps written. -/
def PiiVault.indexed (v : PiiVault) (full byId byDisplay : StrMap) : PiiVault :=
  { v with
    fullTokenToOriginal := full
    tokenIdToOriginal := byId
    displayValueToOriginal := byDisplay }

theorem PiiVault.mem_iff_getSynthetic (v : PiiVault) (o : Str) :
    o ∈ v.originalToSynthetic ↔ (v.getSynthetic o).isSome = true :=
  AList.lookup_isSome.symm

namespace Alike

variable {S : Str → Str → Prop} {v w : PiiVault}

/-- A vault is like itself, as long as nothing corresponds to anything in it. -/
theorem refl (v : PiiVault) (h : ∀ o o', S o o' → v.getSynthetic o = v.getSynthetic o') :
    Alike S v v :=
  ⟨rfl, rfl, rfl, rfl, h⟩

theorem new (h : Hashes) (convId : Str) :
    Alike S (PiiVault.new h convId) (PiiVault.new h convId) :=
  refl _ fun _ _ _ => rfl

theorem mem_iff (hvw : Alike S v w) {o o' : Str} (ho : S o o') :
    o ∈ v.originalToSynthetic ↔ o' ∈ w.originalToSynthetic := by
  rw [v.mem_iff_getSynthetic, w.mem_iff_getSynthetic, hvw.getSynthetic o o' ho]

/-- Corresponding new originals under the same synthetic. -/
theorem insert (hS : OneToOne S) (hvw : Alike S v w) {o o' : Str} (ho : S o o')
    (hnew : o ∉ v.originalToSynthetic) (d label label' tokenId : Str) (tier tier' : UInt8)
    (conf conf' : F32) :
    Alike S (v.insertMappingRawWithTokenId o d label tier conf tokenId).rebuildAutomaton
      (w.insertMappingRawWithTokenId o' d label' tier' conf' tokenId).rebuildAutomaton := by
  have hnew' : o' ∉ w.originalToSynthetic := fun h => hnew ((hvw.mem_iff ho).mpr h)
  refine ⟨hvw.rngSeed, hvw.conversationId, ?_, ?_, ?_⟩
  · change v.syntheticKeys ++ [d] = w.syntheticKeys ++ [d]
    rw [hvw.syntheticKeys]
  · change StrMap.size (v.originalToSynthetic.insert o d) =
      StrMap.size (w.originalToSynthetic.insert o' d)
    rw [StrMap.size_insert, StrMap.size_insert, if_neg hnew, if_neg hnew']
    exact congrArg (· + 1) hvw.mappingCount
  · intro p p' hp
    change (v.originalToSynthetic.insert o d).lookup p =
      (w.originalToSynthetic.insert o' d).lookup p'
    by_cases hpo : p = o
    · rw [hpo, (hS p p' o o' hp ho).mp hpo, AList.lookup_insert, AList.lookup_insert]
    · have hpo' : p' ≠ o' := fun h => hpo ((hS p p' o o' hp ho).mpr h)
      rw [AList.lookup_insert_ne hpo, AList.lookup_insert_ne hpo']
      exact hvw.getSynthetic p p' hp

theorem addMapping (hS : OneToOne S) (hvw : Alike S v w) {o o' : Str} (ho : S o o') (d : Str)
    (ty ty' : PiiType) (tier tier' : UInt8) (conf conf' : F32) :
    Alike S (v.addMapping o d ty tier conf) (w.addMapping o' d ty' tier' conf') := by
  unfold PiiVault.addMapping
  by_cases hmem : o ∈ v.originalToSynthetic
  · rw [if_pos hmem, if_pos ((hvw.mem_iff ho).mp hmem)]
    exact hvw
  · rw [if_neg hmem, if_neg fun h => hmem ((hvw.mem_iff ho).mpr h)]
    exact hvw.insert hS ho hmem d _ _ [] tier tier' conf conf'

theorem addMappingWithTokenId (hS : OneToOne S) (hvw : Alike S v w) {o o' : Str} (ho : S o o')
    (d tokenId : Str) (ty ty' : PiiType) (tier tier' : UInt8) (conf conf' : F32) :
    Alike S (v.addMappingWithTokenId o d tokenId ty tier conf)
      (w.addMappingWithTokenId o' d tokenId ty' tier' conf') := by
  -- the index maps are not looked at
  have hcore : ∀ {x y : PiiVault}, Alike S x y → ∀ a b c a' b' c',
      Alike S (x.indexed a b c) (y.indexed a' b' c') := fun h _ _ _ _ _ _ =>
    ⟨h.rngSeed, h.conversationId, h.syntheticKeys, h.mappingCount, h.getSynthetic⟩
  unfold PiiVault.addMappingWithTokenId
  by_cases hmem : o ∈ v.originalToSynthetic
  · rw [if_pos hmem, if_pos ((hvw.mem_iff ho).mp hmem)]
    exact hcore hvw _ _ _ _ _ _
  · rw [if_neg hmem, if_neg fun h => hmem ((hvw.mem_iff ho).mpr h)]
    exact hcore (hvw.insert hS ho hmem d _ _ tokenId tier tier' conf conf') _ _ _ _ _ _

variable (R : Rand) (C : Chrono) (h : Hashes)

/-- Originals with the same hint get the same synthetic. -/
theorem getOrCreate (hS : OneToOne S) (hvw : Alike S v w) {o o' : Str} (ho : S o o')
    (ty : PiiType) (hhint : hint C ty o = hint C ty o') (locale : Locale) (tier tier' : UInt8)
    (conf conf' : F32) {d : Str} {v₁ : PiiVault}
    (hrun : PrivacyClaw.getOrCreate R C v o ty locale tier conf = some (d, v₁)) :
    ∃ w₁, PrivacyClaw.getOrCreate R C w o' ty locale tier' conf' = some (d, w₁) ∧
      Alike S v₁ w₁ := by
  rcases getOrCreate_cases R C v v₁ o d ty locale tier conf hrun with
    ⟨hs, rfl⟩ | ⟨hs, hfresh, rfl⟩
  · refine ⟨w, ?_, hvw⟩
    rw [PrivacyClaw.getOrCreate, ← hvw.getSynthetic o o' ho, hs]
  · refine ⟨w.addMapping o' d ty tier' conf', ?_, hvw.addMapping hS ho d ty ty _ _ _ _⟩
    have hfresh' : freshSynthetic R C w o' ty locale = some d := by
      rw [← hfresh, freshSynthetic, freshSynthetic, hvw.rngSeed, hvw.mappingCount]
      exact (generate_hint R C ty o o' locale _ hhint).symm
    rw [PrivacyClaw.getOrCreate, ← hvw.getSynthetic o o' ho, hs]
    dsimp only
    rw [hfresh', Option.bind_eq_bind, Option.bind_some]

end Alike

/-- What a text shows: the parts between its spans as they are, and of a span its
    type and its hint. -/
inductive Visible (C : Chrono) where
  | plain (s : Str)
  | secret (entityType : PiiType) (hint : Hint C)

/-- What a text shows from offset `last` on. -/
def visible (C : Chrono) (text : Str) : Nat → List PiiSpan → List (Visible C)
  | last, [] => [.plain (text.drop last)]
  | last, s :: spans =>
    .plain ((text.take s.start).drop last) ::
      .secret s.entityType (hint C s.entityType (s.textIn text)) :: visible C text s.stop spans

/-- The texts of the spans. -/
def secrets (text : Str) (spans : List PiiSpan) : List Str := spans.map (PiiSpan.textIn text)

/-- Spans in order, from offset `last` on, that a text can be cut at. -/
structure Fit (text : Str) (last : Nat) (spans : List PiiSpan) : Prop where
  aligned : ∀ s ∈ spans, s.Aligned text
  sorted : spans.Pairwise fun a b => a.stop ≤ b.start
  behind : ∀ s ∈ spans, last ≤ s.start
  inside : last ≤ text.length
  boundary : isCharBoundary text last = true

namespace Fit

variable {text : Str} {last : Nat} {s : PiiSpan} {spans : List PiiSpan}

theorem tail (h : Fit text last (s :: spans)) : Fit text s.stop spans where
  aligned x hx := h.aligned x (List.mem_cons_of_mem _ hx)
  sorted := (List.pairwise_cons.mp h.sorted).2
  behind := (List.pairwise_cons.mp h.sorted).1
  inside := (h.aligned s List.mem_cons_self).2.1
  boundary := (h.aligned s List.mem_cons_self).2.2.2

theorem slice_rest (h : Fit text last []) :
    slice text last text.length = some (text.drop last) := by
  rw [slice_eq_some_iff, List.take_length]
  exact ⟨⟨h.inside, Nat.le_refl _, h.boundary, isCharBoundary_length text⟩, rfl⟩

theorem slice_gap (h : Fit text last (s :: spans)) :
    slice text last s.start = some ((text.take s.start).drop last) := by
  have hin := h.aligned s List.mem_cons_self
  rw [slice_eq_some_iff]
  exact ⟨⟨h.behind s List.mem_cons_self, Nat.le_trans hin.1 hin.2.1, h.boundary, hin.2.2.1⟩, rfl⟩

theorem slice_span (h : Fit text last (s :: spans)) :
    slice text s.start s.stop = some (s.textIn text) := by
  have hin := h.aligned s List.mem_cons_self
  rw [slice_eq_some_iff]
  exact ⟨hin, rfl⟩

theorem not_skipped (h : Fit text last (s :: spans)) :
    ¬(s.start < last ∨ text.length < s.stop) := by
  have hin := (h.aligned s List.mem_cons_self).2.1
  have hfrom := h.behind s List.mem_cons_self
  omega

end Fit

section Loops

variable (R : Rand) (C : Chrono) (h : Hashes)

/-- An original that is no synthetic of the vault gets its token. -/
theorem replaceSpansFrom_token (text : Str) (locale : Locale) (convId : Str) (base : Nat)
    (s : PiiSpan) (spans : List PiiSpan) (i last : Nat) (v v₁ v' : PiiVault) (d out : Str)
    (replaced : List Replaced) (hfit : Fit text last (s :: spans))
    (hsyn : v.isSynthetic (s.textIn text) = false)
    (hcreate : getOrCreate R C v (s.textIn text) s.entityType locale s.tier s.confidence =
      some (d, v₁))
    (hrest : replaceSpansFrom R C h text locale convId base spans (i + 1) s.stop
      (v₁.addMappingWithTokenId (s.textIn text) d (generateTokenId h convId (base + i)) s.entityType
        s.tier s.confidence) = some (out, replaced, v')) :
    replaceSpansFrom R C h text locale convId base (s :: spans) i last v =
      some ((text.take s.start).drop last ++ xmlToken (generateTokenId h convId (base + i)) d ++
        out,
        ⟨i, s, s.textIn text, d⟩ :: replaced, v') := by
  rw [replaceSpansFrom, if_neg hfit.not_skipped, hfit.slice_gap, hfit.slice_span]
  simp only [Option.bind_eq_bind, Option.bind_some, hsyn, Bool.false_eq_true, if_false, hcreate,
    hrest]

/-- The loop makes the same of two texts that show the same, if corresponding
    originals stand in their spans and none of those is a synthetic in the end. -/
theorem Alike.replaceSpansFrom {S : Str → Str → Prop} (hS : OneToOne S) (text text' : Str)
    (locale : Locale) (convId : Str) (base : Nat) : ∀ (spans spans' : List PiiSpan)
      (i last last' : Nat) (v w v' : PiiVault) (out : Str) (replaced : List Replaced),
      visible C text last spans = visible C text' last' spans' →
      List.Forall₂ S (secrets text spans) (secrets text' spans') →
      Fit text last spans → Fit text' last' spans' → Alike S v w →
      PrivacyClaw.replaceSpansFrom R C h text locale convId base spans i last v =
        some (out, replaced, v') →
      (∀ o o', S o o' → o ∉ v'.syntheticKeys ∧ o' ∉ v'.syntheticKeys) →
      ∃ replaced' w', PrivacyClaw.replaceSpansFrom R C h text' locale convId base spans' i last' w =
          some (out, replaced', w') ∧ Alike S v' w' ∧
        replaced'.map Replaced.displayValue = replaced.map Replaced.displayValue := by
  intro spans
  induction spans with
  | nil =>
      intro spans' i last last' v w v' out replaced hvisible _ hfit hfit' hvw hrun _
      cases spans' with
      | cons s' spans' => exact absurd hvisible (by simp only [visible, List.cons.injEq,
          List.nil_eq, reduceCtorEq, and_false, not_false_eq_true])
      | nil =>
          rw [visible, visible, List.cons.injEq, Visible.plain.injEq] at hvisible
          rw [PrivacyClaw.replaceSpansFrom, hfit.slice_rest, Option.bind_eq_bind, Option.bind_some,
            Option.some.injEq, Prod.mk.injEq, Prod.mk.injEq] at hrun
          rcases hrun with ⟨rfl, rfl, rfl⟩
          refine ⟨[], w, ?_, hvw, rfl⟩
          rw [PrivacyClaw.replaceSpansFrom, hfit'.slice_rest, Option.bind_eq_bind, Option.bind_some,
            hvisible.1]
  | cons s spans ih =>
      intro spans' i last last' v w v' out replaced hvisible hsecrets hfit hfit' hvw hrun hplain
      cases spans' with
      | nil => exact absurd hvisible (by simp only [visible, List.cons.injEq, reduceCtorEq,
          and_false, not_false_eq_true])
      | cons s' spans' =>
          simp only [visible, List.cons.injEq, Visible.plain.injEq, Visible.secret.injEq]
            at hvisible
          rcases hvisible with ⟨hgap, ⟨hty, hhint⟩, hvisible⟩
          rcases List.forall₂_cons.mp hsecrets with ⟨ho, hsecrets⟩
          rcases replaceSpansFrom_cases R C h text locale convId base s spans i last v v' out
            replaced hrun with ⟨hskip, _⟩ | ⟨_, gap, original, hg, horig, hround⟩
          · exact absurd hskip hfit.not_skipped
          · rw [hfit.slice_gap, Option.some.injEq] at hg
            rw [hfit.slice_span, Option.some.injEq] at horig
            subst hg horig
            rcases hround with ⟨hsyn, out', hgo, _⟩ | ⟨hsyn, d, v₁, out', replaced', hcreate, hgo,
              rfl, rfl⟩
            · -- a synthetic here would be one in the end
              rcases List.any_eq_true.mp hsyn with ⟨k, hk, heq⟩
              rw [beq_iff_eq] at heq
              refine absurd ?_ (hplain _ _ ho).1
              rw [← heq]
              exact replaceSpansFrom_keys R C h text locale convId base spans _ _ v v' out' replaced
                hgo hk
            · rcases hvw.getOrCreate R C hS ho s.entityType (by rw [hhint, hty]) locale s.tier
                s'.tier s.confidence s'.confidence hcreate with ⟨w₁, hcreate', hvw₁⟩
              have hnext := hvw₁.addMappingWithTokenId hS ho d
                (generateTokenId h convId (base + i)) s.entityType s'.entityType s.tier s'.tier
                s.confidence s'.confidence
              rcases ih spans' (i + 1) s.stop s'.stop _ _ v' out' replaced' hvisible hsecrets
                hfit.tail hfit'.tail hnext hgo hplain with ⟨replaced'', w', hgo', hvw', hdisplay⟩
              have hsyn' : w.isSynthetic (s'.textIn text') = false := by
                rw [PiiVault.isSynthetic, List.any_eq_false]
                intro k hk
                rw [beq_iff_eq]
                rintro rfl
                rw [← hvw.syntheticKeys] at hk
                exact (hplain _ _ ho).2 (replaceSpansFrom_keys R C h text locale convId base
                  (s :: spans) i last v v' _ _ hrun hk)
              rw [hty] at hcreate'
              refine ⟨⟨i, s', s'.textIn text', d⟩ :: replaced'', w', ?_, hvw', ?_⟩
              · rw [hgap]
                exact replaceSpansFrom_token R C h text' locale convId base s' spans' i last' w w₁
                  w' d out' replaced'' hfit' hsyn' hcreate' hgo'
              · rw [List.map_cons, List.map_cons, hdisplay]

/-- Replacements of the sidecar that correspond: the same value of the same type for
    corresponding originals. -/
def SameReplacement (S : Str → Str → Prop) (s s' : Stage1Span) : Prop :=
  s.displayValue = s'.displayValue ∧ s.piiType = s'.piiType ∧ S s.originalText s'.originalText

theorem Alike.insertStage1 {S : Str → Str → Prop} (hS : OneToOne S) (convId : Str) (base : Nat) :
    ∀ (spans spans' : List Stage1Span) (j : Nat) (v w : PiiVault),
      List.Forall₂ (SameReplacement S) spans spans' → Alike S v w →
      Alike S (PrivacyClaw.insertStage1 h convId base spans j v)
        (PrivacyClaw.insertStage1 h convId base spans' j w) := by
  intro spans spans' j v w hspans
  induction hspans generalizing j v w with
  | nil => exact id
  | cons hs _ ih =>
      intro hvw
      rw [PrivacyClaw.insertStage1, PrivacyClaw.insertStage1, ← hs.1]
      exact ih _ _ _ (hvw.addMappingWithTokenId hS hs.2.2 _ _ _ _ _ _ _ _)

end Loops

end PrivacyClaw
