import Mathlib.Data.List.Infix
import PrivacyClaw.Theory.BareStream
import PrivacyClaw.Theory.OneToOne

/-!
# A Response without Synthetics

Text that holds neither a token nor a synthetic passes the replacement buffer
unchanged, however it is cut into deltas and however the vault grows meanwhile.

The vault is read anew for every delta, so the window and the trigger prefixes
of the buffer change along the way. None of this matters for what is lost or
kept: the cascade leaves such a text alone, so after every delta the forwarded
text and the buffer together are the text received so far
(`processDelta_transparent`). Where the buffer is cut only decides what is
forwarded sooner.

## Main definitions

* `PiiVault.Grows`: No synthetic is taken back.
* `processGrowing`: The deltas of a response, each with the vault of its time.

## Theorems

* `VaultOp.apply_grows`: Operations only add synthetics.
* `applyXmlTokenCascade_eq_self`: The cascade leaves plain text alone.
* `processDelta_transparent`: One delta.
* `processGrowing_transparent`: A sequence of deltas.
* `buffer_transparent`: A whole response.
* `buffer_transparent_new_name`: A name is added between two deltas.
-/

namespace PrivacyClaw

/-- No synthetic is taken back. -/
def PiiVault.Grows (v w : PiiVault) : Prop := ∀ k ∈ v.syntheticKeys, k ∈ w.syntheticKeys

theorem PiiVault.Grows.trans {u v w : PiiVault} (h₁ : u.Grows v) (h₂ : v.Grows w) : u.Grows w :=
  fun k hk => h₂ k (h₁ k hk)

/-- What a request does to the vault only adds synthetics. -/
theorem VaultOp.apply_grows (R : Rand) (C : Chrono) (op : VaultOp) (v v' : PiiVault)
    (happ : op.apply R C v = some v') : v.Grows v' := by
  intro k hk
  rcases op.apply_cases R C v v' happ with ⟨_, _, _, hkeys⟩ | ⟨_, s, _, _, _, hkeys⟩
  · rw [hkeys]
    exact hk
  · rw [hkeys]
    exact List.mem_append_left _ hk

namespace ReplacementBuffer

/-- The texts forwarded for a sequence of deltas, each with the vault as it is
    then, and the buffer after them. -/
def processGrowing : List (PiiVault × Str) → ReplacementBuffer → Str × ReplacementBuffer
  | [], b => ([], b)
  | (v, d) :: steps, b =>
    let (out, b) := b.processDelta v d
    let (rest, b) := processGrowing steps b
    (out ++ rest, b)

/-- The cascade leaves a text alone that holds no token and no synthetic. -/
theorem applyXmlTokenCascade_eq_self (v : PiiVault) (hv : v.Searchable) (text : Str)
    (hopen : ¬ xmlTokenOpen <:+: text) (hkeys : ∀ k ∈ v.syntheticKeys, ¬ k <:+: text) :
    applyXmlTokenCascade text v = text := by
  rw [applyXmlTokenCascade, (Search.find_eq_none_iff _ _).mpr hopen]
  exact hv.replaceSynthetics_eq_self text hkeys

/-- One delta: what is forwarded and what is kept is what was there. -/
theorem processDelta_transparent (v : PiiVault) (hv : v.Searchable) (b : ReplacementBuffer)
    (d : Str) (hopen : ¬ xmlTokenOpen <:+: b.buffer ++ d)
    (hkeys : ∀ k ∈ v.syntheticKeys, ¬ k <:+: b.buffer ++ d) :
    (b.processDelta v d).1 ++ (b.processDelta v d).2.buffer = b.buffer ++ d := by
  have hbuffer : ({ b with buffer := b.buffer ++ d }.refresh v).buffer = b.buffer ++ d := by
    unfold refresh
    split
    · rfl
    · rfl
  unfold processDelta
  by_cases hd : d.isEmpty = true
  · rw [if_pos hd, List.isEmpty_iff.mp hd, List.append_nil]
    rfl
  · rw [if_neg hd]
    dsimp only
    by_cases hempty : v.isEmpty = true
    · -- a vault without mappings: everything is forwarded
      rw [if_pos hempty, hbuffer]
      exact List.append_nil _
    · rw [if_neg hempty, hbuffer, applyXmlTokenCascade_eq_self v hv _ hopen hkeys]
      -- what is forwarded and what is kept are the two parts of the buffer
      split
      · rfl
      · split
        · exact List.take_append_drop _ _
        · rfl

/-- A sequence of deltas: the joined output and the buffer are what was in the
    buffer and what came. -/
theorem processGrowing_transparent (text : Str) (hopen : ¬ xmlTokenOpen <:+: text) :
    ∀ (steps : List (PiiVault × Str)) (b : ReplacementBuffer),
      (∀ s ∈ steps, s.1.Searchable ∧ ∀ k ∈ s.1.syntheticKeys, ¬ k <:+: text) →
      b.buffer ++ steps.flatMap Prod.snd <:+: text →
      (processGrowing steps b).1 ++ (processGrowing steps b).2.buffer =
        b.buffer ++ steps.flatMap Prod.snd := by
  intro steps
  induction steps with
  | nil =>
      intro b _ _
      rw [List.flatMap_nil, List.append_nil]
      rfl
  | cons s steps ih =>
      intro b hsteps hin
      rcases s with ⟨v, d⟩
      rcases hsteps (v, d) List.mem_cons_self with ⟨hv, hkeys⟩
      rw [List.flatMap_cons, ← List.append_assoc] at hin
      -- the text in hand is a piece of the whole
      have hpiece : b.buffer ++ d <:+: text := (List.prefix_append _ _).isInfix.trans hin
      have hstep := processDelta_transparent v hv b d (fun hc => hopen (hc.trans hpiece))
        (fun k hk hc => hkeys k hk (hc.trans hpiece))
      have hrest : (b.processDelta v d).2.buffer ++ steps.flatMap Prod.snd <:+: text := by
        refine List.IsInfix.trans ?_ hin
        rw [← hstep, List.append_assoc]
        exact (List.suffix_append _ _).isInfix
      have hrec := ih (b.processDelta v d).2
        (fun s hs => hsteps s (List.mem_cons_of_mem _ hs)) hrest
      rw [List.flatMap_cons, ← List.append_assoc, ← hstep, processGrowing, List.append_assoc,
        List.append_assoc, ← hrec]

/-- A whole response: for any vaults that only grow and any deltas that hold,
    joined, no opening tag and no synthetic of the last vault, what is forwarded
    is what came, and the buffer ends empty. -/
theorem buffer_transparent (steps : List (PiiVault × Str)) (vEnd : PiiVault)
    (hvaults : ∀ v ∈ steps.map Prod.fst ++ [vEnd], v.Searchable)
    (hgrow : (steps.map Prod.fst ++ [vEnd]).IsChain PiiVault.Grows)
    (hopen : ¬ xmlTokenOpen <:+: steps.flatMap Prod.snd)
    (hkeys : ∀ k ∈ vEnd.syntheticKeys, ¬ k <:+: steps.flatMap Prod.snd) :
    (processGrowing steps new).1 ++ ((processGrowing steps new).2.flushRemaining vEnd).1 =
        steps.flatMap Prod.snd ∧
      ((processGrowing steps new).2.flushRemaining vEnd).2.buffer = [] := by
  -- Growing is transitive, so every vault on the way is part of the last one.
  have hpair : ∀ s ∈ steps, s.1.Grows vEnd := by
    have : IsTrans PiiVault PiiVault.Grows := ⟨fun _ _ _ h₁ h₂ => h₁.trans h₂⟩
    have hp := List.isChain_iff_pairwise.mp hgrow
    intro s hs
    exact (List.pairwise_append.mp hp).2.2 s.1 (List.mem_map.mpr ⟨s, hs, rfl⟩) vEnd
      List.mem_cons_self
  have hrun := processGrowing_transparent (steps.flatMap Prod.snd) hopen steps new
    (fun s hs => ⟨hvaults s.1 (List.mem_append_left _ (List.mem_map.mpr ⟨s, hs, rfl⟩)),
      fun k hk => hkeys k (hpair s hs k hk)⟩) (List.infix_refl _)
  have hvEnd := hvaults vEnd (List.mem_append_right _ List.mem_cons_self)
  change (processGrowing steps new).1 ++ (processGrowing steps new).2.buffer =
    steps.flatMap Prod.snd at hrun
  -- What is still held back is a part of the text, so the flush restores nothing in it.
  have hrest : (processGrowing steps new).2.buffer <:+: steps.flatMap Prod.snd := by
    rw [← hrun]
    exact (List.suffix_append _ _).isInfix
  unfold flushRemaining
  by_cases hb : (processGrowing steps new).2.buffer.isEmpty = true
  · rw [if_pos hb]
    rw [List.isEmpty_iff] at hb
    rw [hb] at hrun
    exact ⟨hrun, hb⟩
  · rw [if_neg hb]
    refine ⟨?_, rfl⟩
    rw [applyXmlTokenCascade_eq_self vEnd hvEnd _ (fun hc => hopen (hc.trans hrest))
      (fun k hk hc => hkeys k hk (hc.trans hrest))]
    exact hrun

/-- A second name is added between two deltas, and what is held back ends in a
    character of two bytes. -/
theorem buffer_transparent_new_name :
    (processGrowing [(oneName, lit "Al"), (twoNames, lit "ibi caf"),
        (twoNames, lit "é, Al")] new).1 ++
      ((processGrowing [(oneName, lit "Al"), (twoNames, lit "ibi caf"),
        (twoNames, lit "é, Al")] new).2.flushRemaining twoNames).1 = lit "Alibi café, Al" := by
  have hone : oneName.Searchable :=
    (PiiVault.WellFormed.new sampleHashes (lit "c")).searchable.addMapping _ _ _ _ _
  have htwo : twoNames.Searchable := hone.addMapping _ _ _ _ _
  have hgrow : oneName.Grows twoNames :=
    VaultOp.apply_grows Rand.least Chrono.none
      (.addMapping (lit "John") (lit "Alice") .personName 2 F32.one) _ _ rfl
  refine (buffer_transparent _ twoNames ?_ ?_ (by decide) (by decide)).1.trans (by decide)
  · intro v hv
    simp only [List.map_cons, List.map_nil, List.cons_append, List.nil_append, List.mem_cons,
      List.not_mem_nil, or_false] at hv
    rcases hv with rfl | rfl | rfl | rfl
    · exact hone
    · exact htwo
    · exact htwo
    · exact htwo
  · exact .cons_cons hgrow (.cons_cons (fun k hk => hk) (.cons_cons (fun k hk => hk) (.singleton _)))

end ReplacementBuffer

end PrivacyClaw
