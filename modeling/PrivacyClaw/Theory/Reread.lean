import PrivacyClaw.Theory.Cascade
import PrivacyClaw.Theory.Chaining

/-!
# Reading Restored Text Again

The replacement buffer keeps restored text and hands it to the cascade once
more with the next delta, so what the cascade has written it will read.

It reads a token that it has left alone in the same way as before. Everything
else it has written stands in stretches between such tokens: plain text, the
originals of synthetics and the originals of tokens, one behind the other.
`Stretches` follows the first reading and asks something of every stretch. The
second reading goes wrong where a stretch makes up a synthetic or an opening
tag, be it inside an original or over a seam, and `Quiet` says that it does
not. If every stretch is quiet, restoring twice is restoring once.

The converse fails for one reason only: a match that grows and one that
shrinks may make up for each other. Where no stretch opens a tag and no match
in one shrinks, the condition is exact. `cascade_stable` has both directions.

## Main definitions

* `Stretches`: Something holds of every stretch that restoring a text leaves.
* `Quiet`: Only synthetics that are their own originals occur in a stretch.
* `Unshrinking`: No synthetic in a stretch has a shorter original.

## Theorems

* `Quiet.replaceSynthetics_eq`: A quiet stretch is left alone.
* `Stretches.cascade_eq`: The second reading when every stretch is quiet.
* `Stretches.length_le`: The second reading when no match shrinks.
* `Stretches.quiet`: Then text that is left alone has quiet stretches.
* `cascade_stable`: When restoring twice is restoring once.
* `cascade_stable_one_name`: One name.
* `cascade_chain`: A name that is a synthetic is restored twice.
-/

namespace PrivacyClaw

variable (v : PiiVault)

/-- A stretch without an opening tag, in which the automaton finds only keys
    that are restored to themselves. -/
structure Quiet (s : Str) : Prop where
  unopened : ¬ xmlTokenOpen <:+: s
  own : ∀ i k, .hit i ∈ Leftmost.pieces v.syntheticKeys s → v.syntheticKeys[i]? = some k →
    v.originalValues.getD i [] = k

/-- A stretch without an opening tag, in which no key that the automaton finds
    has a shorter original. -/
structure Unshrinking (s : Str) : Prop where
  unopened : ¬ xmlTokenOpen <:+: s
  grows : ∀ i k, .hit i ∈ Leftmost.pieces v.syntheticKeys s → v.syntheticKeys[i]? = some k →
    k.length ≤ (v.originalValues.getD i []).length

/-- `Q` holds of the stretches of restored text between the tokens that stay,
    when `acc` is what the current stretch holds so far. -/
inductive Stretches (Q : Str → Prop) : Str → Str → Prop where
  | plain (acc s : Str) : ¬ xmlTokenOpen <:+: s → Q (acc ++ (v.replaceSynthetics s).1) →
      Stretches Q acc s
  | unfinished (acc g p : Str) : ¬ xmlTokenOpen <:+: g → OpenToken p →
      Q (acc ++ (v.replaceSynthetics g).1) → Stretches Q acc (g ++ p)
  | kept (acc g p r : Str) : ¬ xmlTokenOpen <:+: g → OpenToken p →
      restoreToken v (p ++ xmlTokenClose) = p ++ xmlTokenClose →
      Q (acc ++ (v.replaceSynthetics g).1) → Stretches Q [] r →
      Stretches Q acc (g ++ (p ++ (xmlTokenClose ++ r)))
  | restored (acc g p r : Str) : ¬ xmlTokenOpen <:+: g → OpenToken p →
      restoreToken v (p ++ xmlTokenClose) ≠ p ++ xmlTokenClose →
      Stretches Q (acc ++ (v.replaceSynthetics g).1 ++ restoreToken v (p ++ xmlTokenClose)) r →
      Stretches Q acc (g ++ (p ++ (xmlTokenClose ++ r)))

section Stable

variable {v} (hne : ∀ k ∈ v.syntheticKeys, k ≠ []) (hv : v.Searchable)
include hne hv

/-- A quiet stretch is left alone. -/
theorem Quiet.replaceSynthetics_eq (s : Str) (hs : Quiet v s) :
    (v.replaceSynthetics s).1 = s := by
  rw [hv.replaceSynthetics_fst]
  exact Leftmost.replaceAll_eq_self_of_hits hne _ s hs.own

theorem Unshrinking.length_le (s : Str) (hs : Unshrinking v s) :
    s.length ≤ (v.replaceSynthetics s).1.length := by
  rw [hv.replaceSynthetics_fst]
  exact Leftmost.length_le_replaceAll hne _ s hs.grows

/-- A stretch that is left alone is quiet, if no match in it shrinks. -/
theorem Unshrinking.quiet (s : Str) (hs : Unshrinking v s)
    (hself : (v.replaceSynthetics s).1 = s) : Quiet v s := by
  rw [hv.replaceSynthetics_fst] at hself
  exact ⟨hs.unopened, Leftmost.hits_of_replaceAll_eq_self hne _ s hs.grows hself⟩

/-- The second reading of a stretch and the token behind it. -/
theorem cascade_reread (acc g p r : Str) (hg : ¬ xmlTokenOpen <:+: g) (hp : OpenToken p)
    (hkept : restoreToken v (p ++ xmlTokenClose) = p ++ xmlTokenClose)
    (hu : ¬ xmlTokenOpen <:+: acc ++ (v.replaceSynthetics g).1) :
    cascade v (acc ++ cascade v (g ++ (p ++ (xmlTokenClose ++ r)))) =
        (v.replaceSynthetics (acc ++ (v.replaceSynthetics g).1)).1 ++
          ((p ++ xmlTokenClose) ++ cascade v (cascade v r)) ∧
      acc ++ cascade v (g ++ (p ++ (xmlTokenClose ++ r))) =
        (acc ++ (v.replaceSynthetics g).1) ++ ((p ++ xmlTokenClose) ++ cascade v r) := by
  have hread : acc ++ cascade v (g ++ (p ++ (xmlTokenClose ++ r))) =
      (acc ++ (v.replaceSynthetics g).1) ++ (p ++ (xmlTokenClose ++ cascade v r)) := by
    rw [cascade_token hne hv g p r hg hp, hkept]
    simp only [List.append_assoc]
  refine ⟨?_, ?_⟩
  · rw [hread, cascade_token hne hv _ p _ hu hp, hkept, List.append_assoc]
  · rw [hread]
    simp only [List.append_assoc]

/-- A token that is restored joins its stretch. -/
theorem cascade_join (acc g p r : Str) (hg : ¬ xmlTokenOpen <:+: g) (hp : OpenToken p) :
    acc ++ cascade v (g ++ (p ++ (xmlTokenClose ++ r))) =
      acc ++ (v.replaceSynthetics g).1 ++ restoreToken v (p ++ xmlTokenClose) ++ cascade v r := by
  rw [cascade_token hne hv g p r hg hp]
  simp only [List.append_assoc]

/-- If every stretch is quiet, the second reading changes nothing. -/
theorem Stretches.cascade_eq (acc s : Str) (hs : Stretches v (Quiet v) acc s) :
    cascade v (acc ++ cascade v s) = acc ++ cascade v s := by
  induction hs with
  | plain acc s hopen hquiet =>
      rw [cascade_plain hne hv s hopen, cascade_plain hne hv _ hquiet.unopened,
        hquiet.replaceSynthetics_eq hne hv]
  | unfinished acc g p hg hp hquiet =>
      rw [cascade_open hne hv g p hg hp, ← List.append_assoc,
        cascade_open hne hv _ p hquiet.unopened hp, hquiet.replaceSynthetics_eq hne hv]
  | kept acc g p r hg hp hkept hquiet _ ih =>
      rcases cascade_reread hne hv acc g p r hg hp hkept hquiet.unopened with ⟨h1, h2⟩
      rw [List.nil_append] at ih
      rw [h1, h2, hquiet.replaceSynthetics_eq hne hv, ih]
  | restored acc g p r hg hp _ _ ih =>
      rw [cascade_join hne hv acc g p r hg hp]
      exact ih

/-- If no match shrinks, the second reading does not shorten the text. -/
theorem Stretches.length_le (acc s : Str) (hs : Stretches v (Unshrinking v) acc s) :
    (acc ++ cascade v s).length ≤ (cascade v (acc ++ cascade v s)).length := by
  induction hs with
  | plain acc s hopen hgrow =>
      rw [cascade_plain hne hv s hopen, cascade_plain hne hv _ hgrow.unopened]
      exact hgrow.length_le hne hv
  | unfinished acc g p hg hp hgrow =>
      rw [cascade_open hne hv g p hg hp, ← List.append_assoc,
        cascade_open hne hv _ p hgrow.unopened hp]
      simpa only [List.length_append, Nat.add_le_add_iff_right] using hgrow.length_le hne hv
  | kept acc g p r hg hp hkept hgrow _ ih =>
      rcases cascade_reread hne hv acc g p r hg hp hkept hgrow.unopened with ⟨h1, h2⟩
      have hle := hgrow.length_le hne hv
      rw [List.nil_append] at ih
      rw [h1, h2]
      simp only [List.length_append] at hle ⊢
      omega
  | restored acc g p r hg hp _ _ ih =>
      rw [cascade_join hne hv acc g p r hg hp]
      exact ih

/-- If no match shrinks, a text that the second reading leaves alone has quiet
    stretches. -/
theorem Stretches.quiet (acc s : Str) (hs : Stretches v (Unshrinking v) acc s)
    (hself : cascade v (acc ++ cascade v s) = acc ++ cascade v s) :
    Stretches v (Quiet v) acc s := by
  induction hs with
  | plain acc s hopen hgrow =>
      rw [cascade_plain hne hv s hopen, cascade_plain hne hv _ hgrow.unopened] at hself
      exact .plain acc s hopen (hgrow.quiet hne hv _ hself)
  | unfinished acc g p hg hp hgrow =>
      rw [cascade_open hne hv g p hg hp, ← List.append_assoc,
        cascade_open hne hv _ p hgrow.unopened hp] at hself
      exact .unfinished acc g p hg hp (hgrow.quiet hne hv _ (List.append_cancel_right hself))
  | kept acc g p r hg hp hkept hgrow hr ih =>
      rcases cascade_reread hne hv acc g p r hg hp hkept hgrow.unopened with ⟨h1, h2⟩
      -- neither the stretch nor the rest shrinks, so neither of them grows
      have hle := hgrow.length_le hne hv
      have hrest := hr.length_le hne hv
      rw [List.nil_append] at ih hrest
      rw [h1, h2] at hself
      have hlen := congrArg List.length hself
      simp only [List.length_append] at hlen hle
      rcases List.append_inj hself (by simp only [List.length_append]; omega) with ⟨hu, htail⟩
      exact .kept acc g p r hg hp hkept (hgrow.quiet hne hv _ hu)
        (ih (List.append_cancel_left htail))
  | restored acc g p r hg hp hrest _ ih =>
      rw [cascade_join hne hv acc g p r hg hp] at hself
      exact .restored acc g p r hg hp hrest (ih hself)

end Stable

section Requests

variable (R : Rand) (C : Chrono) (h : Hashes)

/-- In a vault that requests have filled, and that has no empty synthetic: if
    every stretch is quiet, restoring a text twice is restoring it once. Where
    no stretch opens a tag and no match in one shrinks, only then. -/
theorem cascade_stable (convId : Str) (qs : List (Request × (Nat → Nat))) (v : PiiVault)
    (hrun : requests R C h qs (PiiVault.new h convId) = some v)
    (hne : ∀ k ∈ v.syntheticKeys, k ≠ []) (text : Str) :
    (Stretches v (Quiet v) [] text →
      applyXmlTokenCascade (applyXmlTokenCascade text v) v = applyXmlTokenCascade text v) ∧
    (Stretches v (Unshrinking v) [] text →
      (applyXmlTokenCascade (applyXmlTokenCascade text v) v = applyXmlTokenCascade text v ↔
        Stretches v (Quiet v) [] text)) := by
  rcases conversation_run R C h qs _ v hrun with ⟨l, _, hlrun⟩
  have hv := (VaultOp.run_wellFormed R C l _ v (PiiVault.WellFormed.new h convId)
    hlrun).searchable
  simp only [applyXmlTokenCascade_eq hne hv]
  have hquiet : Stretches v (Quiet v) [] text →
      cascade v (cascade v text) = cascade v text := fun hs => hs.cascade_eq hne hv
  exact ⟨hquiet, fun hs => ⟨fun hself => hs.quiet hne hv [] text hself, hquiet⟩⟩

end Requests

/-- One name is replaced, and no synthetic is left once it is restored. -/
theorem cascade_stable_one_name :
    ∃ v, requests Rand.least Chrono.none sampleHashes [namesRequest [lit "John"]]
        (PiiVault.new sampleHashes (lit "c")) = some v ∧
      applyXmlTokenCascade (lit "Hi Alice") v = lit "Hi John" ∧
      applyXmlTokenCascade (applyXmlTokenCascade (lit "Hi Alice") v) v =
        applyXmlTokenCascade (lit "Hi Alice") v ∧
      Stretches v (Quiet v) [] (lit "Hi Alice") := by
  refine ⟨_, rfl, by decide, ?_⟩
  have hstable := cascade_stable Rand.least Chrono.none sampleHashes (lit "c")
    [namesRequest [lit "John"]] _ rfl (by decide) (lit "Hi Alice")
  have hopen : ∀ s : Str, Search.find xmlTokenOpen s = none → ¬ xmlTokenOpen <:+: s :=
    fun s => (Search.find_eq_none_iff _ s).mp
  -- the restored text is one stretch, and the automaton finds nothing in it
  have hpieces : Leftmost.pieces [lit "Alice"] (lit "Hi John") =
      (lit "Hi John").map .lit := by decide
  have hnone : ∀ i, .hit i ∉ Leftmost.pieces [lit "Alice"] (lit "Hi John") := by
    intro i hi
    rw [hpieces] at hi
    rcases List.mem_map.mp hi with ⟨c, _, hc⟩
    exact absurd hc (by simp only [reduceCtorEq, not_false_eq_true])
  have htext := hopen (lit "Hi Alice") (by decide)
  have hrestored := hopen (lit "Hi John") (by decide)
  have hself := hstable.1 (.plain [] _ htext ⟨hrestored, fun i _ hi => absurd hi (hnone i)⟩)
  exact ⟨hself, (hstable.2 (.plain [] _ htext ⟨hrestored,
    fun i _ hi => absurd hi (hnone i)⟩)).mp hself⟩

/-- A name is replaced by a second one and that one by a third: restoring the
    third gives the second, and restoring that gives the first. -/
theorem cascade_chain :
    ∃ v, requests Rand.least Chrono.none sampleHashes [namesRequest [lit "John", lit "Alice"]]
        (PiiVault.new sampleHashes (lit "c")) = some v ∧
      applyXmlTokenCascade (lit "Bob") v = lit "Alice" ∧
      applyXmlTokenCascade (applyXmlTokenCascade (lit "Bob") v) v = lit "John" ∧
      applyXmlTokenCascade (applyXmlTokenCascade (lit "Bob") v) v ≠
        applyXmlTokenCascade (lit "Bob") v := by
  refine ⟨_, rfl, by decide, by decide, by decide⟩

end PrivacyClaw
