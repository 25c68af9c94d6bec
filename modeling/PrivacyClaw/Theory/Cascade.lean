import PrivacyClaw.Core.Buffer
import PrivacyClaw.Theory.VaultInvariant

/-!
# Equations of the Cascade

How the cascade reads a text: plain text up to the first opening tag, then a
token that is closed or is still open, then the rest.

The loop carries fuel and treats an empty text apart, and neither can be seen
in the result once no synthetic is empty. What is left are three equations,
one for each way a text can go on, and every later argument about the cascade
uses these and never the loop.

## Main definitions

* `OpenToken`: The beginning of a token that is not closed yet.
* `cascade`: The loop with fuel enough.
* `tokenHead`: A token up to its closing tag.

## Theorems

* `cascadeFrom_fuel`: Fuel beyond the length of the text changes nothing.
* `token_cases`: The three ways a text can go on.
* `cascade_plain`, `cascade_open`, `cascade_token`: The equations.
* `applyXmlTokenCascade_eq`: The fast path is the loop.
* `openToken_tokenHead`: What the vault issues is a token.
-/

namespace PrivacyClaw

/-- A text that opens a token and does not close it. -/
structure OpenToken (p : Str) : Prop where
  opens : xmlTokenOpen <+: p
  unclosed : ¬ xmlTokenClose <:+: p

theorem headOnly_xmlTokenOpen : Search.HeadOnly xmlTokenOpen := by decide

theorem headOnly_xmlTokenClose : Search.HeadOnly xmlTokenClose := by decide

theorem OpenToken.ne_nil {p : Str} (hp : OpenToken p) : p ≠ [] := by
  rintro rfl
  exact absurd (List.prefix_nil.mp hp.opens) (by decide)

/-- An opening tag behind text without one is the first. -/
theorem OpenToken.find_open {p : Str} (hp : OpenToken p) (g r : Str)
    (hg : ¬ xmlTokenOpen <:+: g) : Search.find xmlTokenOpen (g ++ (p ++ r)) = some g.length := by
  rcases hp.opens with ⟨t, rfl⟩
  rw [List.append_assoc]
  exact Search.find_append_headOnly _ g (t ++ r) headOnly_xmlTokenOpen hg

/-- A closing tag behind an open token is the first. -/
theorem OpenToken.find_close {p : Str} (hp : OpenToken p) (r : Str) :
    Search.find xmlTokenClose (p ++ (xmlTokenClose ++ r)) = some p.length :=
  Search.find_append_headOnly _ p r headOnly_xmlTokenClose hp.unclosed

/-- The closing tag does not start inside the opening one. -/
theorem open_prefix_of_close (t g r : Str) (h : xmlTokenOpen ++ t = g ++ (xmlTokenClose ++ r)) :
    xmlTokenOpen <+: g := by
  have hopen : xmlTokenOpen = [60, 112, 105, 105] := by decide
  have hclose : xmlTokenClose = [60, 47, 112, 105, 105, 62] := by decide
  rw [hopen, hclose] at h
  rw [hopen]
  match g with
  | [] | [_] | [_, _] | [_, _, _] =>
      simp at h
  | a :: b :: c :: d :: g =>
      simp only [List.cons_append, List.nil_append, List.cons.injEq] at h
      rcases h with ⟨rfl, rfl, rfl, rfl, _⟩
      exact ⟨g, rfl⟩

/-- A text holds no opening tag, ends in an open token, or goes on with a
    token. -/
theorem token_cases (s : Str) :
    ¬ xmlTokenOpen <:+: s ∨
    (∃ g p, s = g ++ p ∧ ¬ xmlTokenOpen <:+: g ∧ OpenToken p) ∨
    ∃ g p r, s = g ++ (p ++ (xmlTokenClose ++ r)) ∧ ¬ xmlTokenOpen <:+: g ∧ OpenToken p := by
  cases hopen : Search.find xmlTokenOpen s with
  | none => exact Or.inl ((Search.find_eq_none_iff _ s).mp hopen)
  | some i =>
      refine Or.inr ?_
      rcases Search.find_split _ s i headOnly_xmlTokenOpen.ne_nil hopen with ⟨g, t, rfl, _, hg⟩
      cases hclose : Search.find xmlTokenClose (xmlTokenOpen ++ t) with
      | none =>
          exact Or.inl ⟨g, _, rfl, hg, List.prefix_append _ _,
            (Search.find_eq_none_iff _ _).mp hclose⟩
      | some j =>
          rcases Search.find_split _ _ j headOnly_xmlTokenClose.ne_nil hclose with
            ⟨p, r, he, _, hp⟩
          refine Or.inr ⟨g, p, r, by rw [he], hg, ?_, hp⟩
          exact open_prefix_of_close t p r he

variable (v : PiiVault)

/-- Fuel beyond the length of the text changes nothing. -/
theorem cascadeFrom_fuel : ∀ (n m : Nat) (s : Str), s.length < n → s.length < m →
    cascadeFrom v n s = cascadeFrom v m s := by
  intro n
  induction n with
  | zero => intro m s hn _; exact absurd hn (by omega)
  | succ n ih =>
      intro m s hn hm
      cases m with
      | zero => exact absurd hm (by omega)
      | succ m =>
          cases s with
          | nil => rfl
          | cons c s =>
              rw [cascadeFrom, cascadeFrom]
              cases Search.find xmlTokenOpen (c :: s) with
              | none => rfl
              | some i =>
                  dsimp only
                  cases Search.find xmlTokenClose ((c :: s).drop i) with
                  | none => rfl
                  | some j =>
                      -- a round passes at least the closing tag
                      have hlen : (((c :: s).drop i).drop (j + xmlTokenClose.length)).length <
                          (c :: s).length := by
                        have h6 : xmlTokenClose.length = 6 := by decide
                        rw [List.length_drop, List.length_drop, h6, List.length_cons]
                        omega
                      dsimp only
                      rw [ih m _ (by omega) (by omega)]

/-- The loop of the cascade with fuel enough. -/
def cascade (s : Str) : Str := cascadeFrom v (s.length + 1) s

theorem cascade_nil : cascade v [] = [] := rfl

section Equations

variable {v} (hne : ∀ k ∈ v.syntheticKeys, k ≠ []) (hv : v.Searchable)
include hne hv

/-- Without an empty synthetic, nothing is restored to nothing. -/
theorem replaceSynthetics_nil : (v.replaceSynthetics []).1 = [] := by
  refine hv.replaceSynthetics_eq_self [] ?_
  intro k hk hin
  exact hne k hk (List.infix_nil.mp hin)

/-- Text without an opening tag is handed to the automaton. -/
theorem cascade_plain (s : Str) (hs : ¬ xmlTokenOpen <:+: s) :
    cascade v s = (v.replaceSynthetics s).1 := by
  cases s with
  | nil => rw [cascade_nil, replaceSynthetics_nil hne hv]
  | cons c s =>
      rw [cascade, cascadeFrom]
      simp only [(Search.find_eq_none_iff _ _).mpr hs]

/-- The text before an opening tag is handed to the automaton, also when it is
    empty. -/
theorem before_open (g r : Str) :
    (if g.length = 0 then [] else (v.replaceSynthetics ((g ++ r).take g.length)).1) =
      (v.replaceSynthetics g).1 := by
  rw [List.take_left]
  split
  · next h => rw [List.length_eq_zero_iff.mp h, replaceSynthetics_nil hne hv]
  · rfl

/-- An open token is left as it is. -/
theorem cascade_open (g p : Str) (hg : ¬ xmlTokenOpen <:+: g) (hp : OpenToken p) :
    cascade v (g ++ p) = (v.replaceSynthetics g).1 ++ p := by
  have hopen := hp.find_open g [] hg
  rw [List.append_nil] at hopen
  cases hs : g ++ p with
  | nil => exact absurd (List.append_eq_nil_iff.mp hs).2 hp.ne_nil
  | cons c s =>
      rw [hs] at hopen
      rw [cascade, cascadeFrom]
      simp only [hopen]
      rw [← hs, before_open hne hv, List.drop_left, (Search.find_eq_none_iff _ _).mpr hp.unclosed]

/-- A token is resolved and the cascade goes on behind it. -/
theorem cascade_token (g p r : Str) (hg : ¬ xmlTokenOpen <:+: g) (hp : OpenToken p) :
    cascade v (g ++ (p ++ (xmlTokenClose ++ r))) =
      (v.replaceSynthetics g).1 ++ restoreToken v (p ++ xmlTokenClose) ++ cascade v r := by
  have hopen := hp.find_open g (xmlTokenClose ++ r) hg
  cases hs : g ++ (p ++ (xmlTokenClose ++ r)) with
  | nil => exact absurd (List.append_eq_nil_iff.mp (List.append_eq_nil_iff.mp hs).2).1 hp.ne_nil
  | cons c s =>
      rw [hs] at hopen
      rw [cascade, cascadeFrom]
      simp only [hopen]
      rw [← hs, before_open hne hv, List.drop_left, hp.find_close r]
      simp only []
      have htok : p ++ (xmlTokenClose ++ r) = (p ++ xmlTokenClose) ++ r :=
        (List.append_assoc _ _ _).symm
      have hlen : p.length + xmlTokenClose.length = (p ++ xmlTokenClose).length :=
        List.length_append.symm
      rw [htok, hlen, List.take_left, List.drop_left]
      congr 1
      -- the rest is shorter, so the fuel that is left is enough for it
      refine cascadeFrom_fuel v _ _ r ?_ (Nat.lt_succ_self _)
      simp only [List.length_append]
      have := List.length_pos_of_ne_nil hp.ne_nil
      omega

/-- The fast path is the loop. -/
theorem applyXmlTokenCascade_eq (s : Str) : applyXmlTokenCascade s v = cascade v s := by
  unfold applyXmlTokenCascade
  cases h : Search.find xmlTokenOpen s with
  | none => exact (cascade_plain hne hv s ((Search.find_eq_none_iff _ s).mp h)).symm
  | some i => rfl

end Equations

/-- A token up to its closing tag. -/
def tokenHead (tokenId displayValue : Str) : Str :=
  lit "<pii id=\"" ++ tokenId ++ lit "\">" ++ displayValue

theorem xmlToken_eq (tokenId d : Str) :
    xmlToken tokenId d = tokenHead tokenId d ++ xmlTokenClose := rfl

/-- What the vault issues is a token, when the id holds no angle and the
    display value no closing tag. -/
theorem openToken_tokenHead (tokenId d : Str) (hid : 60 ∉ tokenId)
    (hd : ¬ xmlTokenClose <:+: d) : OpenToken (tokenHead tokenId d) := by
  have hopen : lit "<pii id=\"" = xmlTokenOpen ++ lit " id=\"" := by decide
  constructor
  · rw [tokenHead, hopen]
    simp only [List.append_assoc]
    exact List.prefix_append _ _
  · -- the opening tag has one angle only, and it is not followed by a slash
    have htag : ¬ xmlTokenClose <:+: lit "<pii id=\"" ++ tokenId ++ lit "\">" := by
      have hcons : lit "<pii id=\"" ++ tokenId ++ lit "\">" =
          60 :: 112 :: (lit "ii id=\"" ++ tokenId ++ lit "\">") := by
        rw [show lit "<pii id=\"" = 60 :: 112 :: lit "ii id=\"" by decide]
        rfl
      rw [hcons]
      intro h
      rcases List.infix_cons_iff.mp h with ⟨z, hz⟩ | h
      · rw [show xmlTokenClose = 60 :: 47 :: lit "pii>" by decide, List.cons_append,
          List.cons_append, List.cons.injEq, List.cons.injEq] at hz
        exact absurd hz.2.1 (by decide)
      · have hmem : (60 : UInt8) ∈ 112 :: (lit "ii id=\"" ++ tokenId ++ lit "\">") :=
          h.subset (by decide)
        rw [List.mem_cons, List.mem_append, List.mem_append] at hmem
        rcases hmem with h | (h | h) | h
        · exact absurd h (by decide)
        · exact absurd h (by decide)
        · exact hid h
        · exact absurd h (by decide)
    rw [tokenHead]
    refine Search.not_infix_append htag hd ?_
    -- an occurrence over the seam would hold the angle that ends the tag
    intro l₁ l₂ heq h1 h2 hsuf _
    have hlast : (62 : UInt8) ∈ l₁ := by
      rcases hsuf with ⟨z, hz⟩
      have hl := congrArg List.getLast? hz
      rw [List.getLast?_append_of_ne_nil _ h1, List.getLast?_append_of_ne_nil _ (by decide)] at hl
      exact List.mem_of_getLast? (hl.trans (by decide))
    have hdrop : l₁ <+: xmlTokenClose.dropLast := by
      rw [heq, List.dropLast_append_of_ne_nil h2]
      exact List.prefix_append _ _
    exact absurd (hdrop.subset hlast) (by decide)

end PrivacyClaw
