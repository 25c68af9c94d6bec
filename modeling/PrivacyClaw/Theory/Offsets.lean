import Mathlib.Data.List.Dedup
import Mathlib.Data.List.Induction
import PrivacyClaw.Core.Sidecar

/-!
# Offsets of the Sidecar

The sidecar counts characters and the proxy counts bytes.

Both count the same as long as every character is its own byte, so a span is
right for the proxy when there is no wider character before its end. The
converse is not a matter of one span alone: behind a wider character the same
bytes may stand once more, just where the proxy looks. But then the sidecar
has reached the earlier occurrence too, or something that touches it, and by
going to the left one arrives at a span that is wrong. So the whole reply is
right exactly when no span has a wider character before its end
(`offsets_agree_iff`), and a text is safe for every list of strings exactly when
it has none at all.

## Main definitions

* `Replacement.Touches`: The overlap test for one range.
* `allMatches`: Every match the loops go through, in their order.
* `Resolved`: What holds of the loop state after some matches.
* `Selects`: The proxy reads the string that the sidecar found.

## Theorems

* `addString_eq_foldl`, `resolve_eq_foldl`: The two loops are one loop over the matches.
* `Resolved.addMatch`, `resolved_resolve`: The step and the run.
* `mem_resolveReplacements`: A result is a match of a listed string.
* `resolveReplacements_reaches`: Every match touches a result.
* `selects_of_ascii`: Characters below 128 are counted alike.
* `index_of_selects`: What the proxy selects is an occurrence.
* `offsets_agree_iff`: When a reply is right, and which texts are safe.
* `offsets_disagree`: One letter with an accent.
-/

namespace PrivacyClaw

/-- The overlap test for the range of one result. -/
def Replacement.Touches (r : Replacement) (s e : Nat) : Prop :=
  (r.start ≤ s ∧ s < r.stop) ∨ (r.start < e ∧ e ≤ r.stop)

/-- The matches of one string, as the loops go through them. -/
def stringMatches (text p : PyStr) : List (PyStr × Nat) :=
  if p.isEmpty then [] else (Search.scan p text).map fun s => (p, s)

/-- Every match, in the order of the loops. -/
def allMatches (env : SidecarEnv) (text : PyStr) (piiStrings : List PyStr) : List (PyStr × Nat) :=
  (uniquePii env piiStrings).flatMap (stringMatches text)

/-- The loop state after the matches in `done`. -/
structure Resolved (done : List (PyStr × Nat)) (st : Resolver) : Prop where
  covered : st.covered = st.results.map fun r => (r.start, r.stop)
  found : ∀ r ∈ st.results,
    (r.original, r.start) ∈ done ∧ r.stop = r.start + r.original.length
  reached : ∀ m ∈ done, ∃ r ∈ st.results, r.Touches m.2 (m.2 + m.1.length)

/-- The proxy, with the offsets as byte offsets, reads the string that the
    sidecar found. -/
def Selects (text : PyStr) (r : Replacement) : Prop :=
  slice (Utf8.encode text) r.reply.start r.reply.stop = some (Utf8.encode r.original)

instance (text : PyStr) (r : Replacement) : Decidable (Selects text r) :=
  inferInstanceAs (Decidable (_ = _))

variable (env : SidecarEnv)

/-- One string is the loop over its matches. -/
theorem addString_eq_foldl (text : PyStr) (st : Resolver) (p : PyStr) :
    addString env text st p =
      (stringMatches text p).foldl (fun st m => addMatch env m.1 st m.2) st := by
  unfold addString stringMatches
  by_cases hp : p.isEmpty
  · rw [if_pos hp, if_pos hp]
    rfl
  · rw [if_neg hp, if_neg hp, List.foldl_map]

/-- The loop over the strings and the loop over their matches are one loop. -/
theorem resolve_eq_foldl (text : PyStr) (piiStrings : List PyStr) :
    resolve env text piiStrings =
      (allMatches env text piiStrings).foldl (fun st m => addMatch env m.1 st m.2) ⟨[], []⟩ := by
  rw [resolve, allMatches, List.foldl_flatMap]
  congr 1
  funext st p
  exact addString_eq_foldl env text st p

theorem mem_allMatches (text : PyStr) (piiStrings : List PyStr) (p : PyStr) (s : Nat) :
    (p, s) ∈ allMatches env text piiStrings ↔
      p ∈ piiStrings ∧ p ≠ [] ∧ s ∈ Search.scan p text := by
  -- Sorting and removing duplicates does not change what is listed.
  have hmem : ∀ q, q ∈ uniquePii env piiStrings ↔ q ∈ piiStrings := by
    intro q
    rw [uniquePii, List.mem_insertionSort, (env.set.perm piiStrings).mem_iff, List.mem_dedup]
  rw [allMatches, List.mem_flatMap]
  constructor
  · rintro ⟨q, hq, hqs⟩
    unfold stringMatches at hqs
    by_cases he : q.isEmpty
    · rw [if_pos he] at hqs
      exact absurd hqs List.not_mem_nil
    · rw [if_neg he, List.mem_map] at hqs
      rcases hqs with ⟨t, ht, heq⟩
      rw [Prod.mk.injEq] at heq
      rcases heq with ⟨rfl, rfl⟩
      exact ⟨(hmem q).mp hq, fun h => he (List.isEmpty_iff.mpr h), ht⟩
  · rintro ⟨hp, hne, hs⟩
    refine ⟨p, (hmem p).mpr hp, ?_⟩
    rw [stringMatches, if_neg (fun h => hne (List.isEmpty_iff.mp h))]
    exact List.mem_map_of_mem hs

theorem overlapping_iff (results : List Replacement) (s e : Nat) :
    overlapping (results.map fun r => (r.start, r.stop)) s e ↔ ∃ r ∈ results, r.Touches s e := by
  simp only [overlapping, List.any_map, List.any_eq_true, Function.comp_apply, Bool.or_eq_true,
    Bool.and_eq_true, decide_eq_true_eq, Replacement.Touches]

/-- One match: it is taken, or it touches a result. -/
theorem Resolved.addMatch (done : List (PyStr × Nat)) (st : Resolver) (m : PyStr × Nat)
    (hne : m.1 ≠ []) (hst : Resolved done st) :
    Resolved (done ++ [m]) (addMatch env m.1 st m.2) := by
  have hpos := List.length_pos_iff.mpr hne
  unfold PrivacyClaw.addMatch
  -- A match that overlaps is dropped: the result it overlaps is the one it touches.
  by_cases hover : overlapping st.covered m.2 (m.2 + m.1.length)
  · simp only [if_pos hover]
    rw [hst.covered, overlapping_iff] at hover
    refine ⟨hst.covered, ?_, ?_⟩
    · intro r hr
      exact ⟨List.mem_append_left _ (hst.found r hr).1, (hst.found r hr).2⟩
    · intro d hd
      rcases List.mem_append.mp hd with hd | hd
      · exact hst.reached d hd
      · rw [List.mem_singleton.mp hd]
        exact hover
  · simp only [if_neg hover]
    refine ⟨?_, ?_, ?_⟩
    · simp only [hst.covered, List.map_append, List.map_cons, List.map_nil]
    · intro r hr
      rcases List.mem_append.mp hr with hr | hr
      · exact ⟨List.mem_append_left _ (hst.found r hr).1, (hst.found r hr).2⟩
      · rw [List.mem_singleton.mp hr]
        exact ⟨List.mem_append_right _ List.mem_cons_self, rfl⟩
    · intro d hd
      rcases List.mem_append.mp hd with hd | hd
      · rcases hst.reached d hd with ⟨r, hr, htouch⟩
        exact ⟨r, List.mem_append_left _ hr, htouch⟩
      · -- a match that is taken touches itself
        rw [List.mem_singleton.mp hd]
        refine ⟨_, List.mem_append_right _ List.mem_cons_self, Or.inl ⟨Nat.le_refl _, ?_⟩⟩
        exact Nat.lt_add_of_pos_right hpos

theorem resolved_foldl : ∀ ms : List (PyStr × Nat), (∀ m ∈ ms, m.1 ≠ []) →
    Resolved ms (ms.foldl (fun st m => addMatch env m.1 st m.2) ⟨[], []⟩) := by
  intro ms
  induction ms using List.reverseRecOn with
  | nil =>
      intro _
      refine ⟨rfl, fun r hr => absurd hr List.not_mem_nil, fun m hm => absurd hm List.not_mem_nil⟩
  | append_singleton ms m ih =>
      intro hne
      rw [List.foldl_append, List.foldl_cons, List.foldl_nil]
      exact (ih fun d hd => hne d (List.mem_append_left _ hd)).addMatch env ms _ m
        (hne m (List.mem_append_right _ List.mem_cons_self))

/-- The state behind the loops has gone through every match. -/
theorem resolved_resolve (text : PyStr) (piiStrings : List PyStr) :
    Resolved (allMatches env text piiStrings) (resolve env text piiStrings) := by
  rw [resolve_eq_foldl]
  refine resolved_foldl env _ ?_
  rintro ⟨p, s⟩ hm
  exact ((mem_allMatches env text piiStrings p s).mp hm).2.1

/-- A result is a match of a string of the list. -/
theorem mem_resolveReplacements (text : PyStr) (piiStrings : List PyStr) (r : Replacement)
    (hr : r ∈ resolveReplacements env text piiStrings) :
    r.original ∈ piiStrings ∧ r.original ≠ [] ∧ r.start ∈ Search.scan r.original text ∧
      r.stop = r.start + r.original.length := by
  rw [resolveReplacements, List.mem_insertionSort] at hr
  rcases (resolved_resolve env text piiStrings).found r hr with ⟨hmem, hstop⟩
  rcases (mem_allMatches env text piiStrings _ _).mp hmem with ⟨h1, h2, h3⟩
  exact ⟨h1, h2, h3, hstop⟩

/-- Every match of a string of the list touches a result. -/
theorem resolveReplacements_reaches (text : PyStr) (piiStrings : List PyStr) (p : PyStr)
    (j : Nat) (hp : p ∈ piiStrings) (hne : p ≠ []) (hj : j ∈ Search.scan p text) :
    ∃ r ∈ resolveReplacements env text piiStrings, r.Touches j (j + p.length) := by
  rcases (resolved_resolve env text piiStrings).reached (p, j)
    ((mem_allMatches env text piiStrings p j).mpr ⟨hp, hne, hj⟩) with ⟨r, hr, htouch⟩
  refine ⟨r, ?_, htouch⟩
  rw [resolveReplacements, List.mem_insertionSort]
  exact hr

/-- Where a character starts is a boundary of the bytes. -/
theorem isCharBoundary_encode (a b : PyStr) :
    isCharBoundary (Utf8.encode (a ++ b)) (Utf8.encode a).length := by
  rw [Utf8.encode_append, isCharBoundary]
  by_cases h0 : (Utf8.encode a).length = 0
  · rw [if_pos h0]
  · rw [if_neg h0, List.getElem?_append_right (Nat.le_refl _), Nat.sub_self, ← List.head?_eq_getElem?]
    cases hb : (Utf8.encode b).head? with
    | none =>
        rw [List.head?_eq_none_iff.mp hb, List.append_nil]
        simp only [beq_self_eq_true]
    | some x =>
        have hx := Utf8.head_encode b x hb
        simp only [Bool.or_eq_true, decide_eq_true_eq]
        exact hx

/-- With no wider character before its end a span is the same in bytes. -/
theorem selects_of_ascii (text : PyStr) (r : Replacement)
    (hocc : r.original <+: text.drop r.start) (hne : r.original ≠ [])
    (hstop : r.stop = r.start + r.original.length)
    (hascii : ∀ c ∈ text.take r.stop, Utf8.Ascii c) : Selects text r := by
  rcases hocc with ⟨b, hb⟩
  have hlt : r.start < text.length := by
    by_contra hge
    rw [List.drop_eq_nil_of_le (Nat.le_of_not_lt hge)] at hb
    exact hne (List.append_eq_nil_iff.mp hb).1
  have hlen : (text.take r.start).length = r.start := by rw [List.length_take]; omega
  have hsplit : text = text.take r.start ++ r.original ++ b := by
    rw [List.append_assoc, hb, List.take_append_drop]
  have htake : text.take r.stop = text.take r.start ++ r.original := by
    rw [hstop, List.take_add, ← hb, List.take_left]
  rw [htake] at hascii
  -- up to the end of the span, bytes and characters are as many
  have hstart : (Utf8.encode (text.take r.start)).length = r.start := by
    rw [(Utf8.length_encode_eq_iff _).mpr (fun c hc => hascii c (List.mem_append_left _ hc)), hlen]
  have hend : (Utf8.encode (text.take r.start ++ r.original)).length = r.stop := by
    rw [(Utf8.length_encode_eq_iff _).mpr hascii, List.length_append, hlen, hstop]
  have hb1 := isCharBoundary_encode (text.take r.start) (r.original ++ b)
  have hb2 := isCharBoundary_encode (text.take r.start ++ r.original) b
  rw [← List.append_assoc, ← hsplit, hstart] at hb1
  rw [← hsplit, hend] at hb2
  have htext : Utf8.encode text = Utf8.encode (text.take r.start ++ r.original) ++ Utf8.encode b := by
    rw [← Utf8.encode_append, ← hsplit]
  change slice (Utf8.encode text) r.start r.stop = some (Utf8.encode r.original)
  rw [slice_eq_some_iff]
  refine ⟨⟨by omega, ?_, hb1, hb2⟩, ?_⟩
  · rw [htext, List.length_append, hend]
    exact Nat.le_add_right _ _
  · rw [htext, ← hend, List.take_left, Utf8.encode_append]
    exact (List.drop_left' hstart).symm

/-- What the proxy selects stands for itself, and stands in the text at the
    character that starts there. -/
theorem index_of_selects (text : PyStr) (r : Replacement) (hne : r.original ≠ [])
    (hstop : r.stop = r.start + r.original.length) (hsel : Selects text r) :
    (∀ c ∈ r.original, Utf8.Ascii c) ∧
    ∃ k, k ≤ text.length ∧ (Utf8.encode (text.take k)).length = r.start ∧
      r.original <+: text.drop k := by
  change slice (Utf8.encode text) r.start r.stop = some (Utf8.encode r.original) at hsel
  rcases (slice_eq_some_iff _ _ _ _).mp hsel with ⟨⟨_, hle, _⟩, heq⟩
  have hascii : ∀ c ∈ r.original, Utf8.Ascii c := by
    rw [← Utf8.length_encode_eq_iff, heq, List.length_drop, List.length_take]
    omega
  refine ⟨hascii, Utf8.index_of_encode_prefix r.original hascii hne text r.start ?_⟩
  rw [heq, List.drop_take]
  exact List.take_prefix _ _

/-- In a reply that is right throughout, no span has a wider character before
    its end. -/
theorem ascii_of_selects (text : PyStr) (piiStrings : List PyStr)
    (hall : ∀ r ∈ resolveReplacements env text piiStrings, Selects text r) :
    ∀ n, ∀ r ∈ resolveReplacements env text piiStrings, r.start = n →
      ∀ c ∈ text.take r.stop, Utf8.Ascii c := by
  intro n
  induction n using Nat.strong_induction_on with
  | h n ih =>
      intro r hr hn
      rcases mem_resolveReplacements env text piiStrings r hr with ⟨hlisted, hne, hscan, hstop⟩
      rcases index_of_selects text r hne hstop (hall r hr) with ⟨hascii, k, hk, hlen, hocc⟩
      have hklen : (text.take k).length = k := by rw [List.length_take]; omega
      by_cases hbefore : ∀ c ∈ text.take k, Utf8.Ascii c
      · -- the proxy looks at the character the sidecar meant
        have hkr : k = r.start := by
          rw [← hlen, (Utf8.length_encode_eq_iff _).mpr hbefore, hklen]
        intro c hc
        rw [hstop, List.take_add, ← hkr] at hc
        rcases List.mem_append.mp hc with hc | hc
        · exact hbefore c hc
        · rw [← List.prefix_iff_eq_take.mp hocc] at hc
          exact hascii c hc
      · -- it looks at an occurrence further left, behind a wider character at `f`
        exfalso
        push Not at hbefore
        rcases hbefore with ⟨c, hc, hwide⟩
        have hlt : k < r.start := by
          have hle := Utf8.length_le_encode (text.take k)
          have hneq : (Utf8.encode (text.take k)).length ≠ (text.take k).length :=
            fun h => hwide ((Utf8.length_encode_eq_iff _).mp h c hc)
          omega
        rcases List.mem_take_iff_getElem.mp hc with ⟨f, hf, hfc⟩
        -- the sidecar went through a match that holds the start of this occurrence
        rcases Search.scan_cover r.original text k hne hocc with ⟨j, hj, hjk, hkj⟩
        have hjr := Search.scan_disjoint r.original text j r.start hne hj hscan (by omega)
        rcases resolveReplacements_reaches env text piiStrings r.original j hlisted hne hj with
          ⟨q, hq, htouch⟩
        have hqstart : q.start < r.start := by
          rcases htouch with ⟨h1, _⟩ | ⟨h1, _⟩ <;> omega
        -- what it touches lies further left and is right, so it ends before `f`
        have hq' := ih q.start (by omega) q hq rfl
        have hqf : q.stop ≤ f := by
          by_contra hgt
          exact hwide (hq' c (List.mem_take_iff_getElem.mpr ⟨f, by omega, hfc⟩))
        -- and then the match itself holds the wider character
        have hjf : j ≤ f := by
          rcases htouch with ⟨_, h2⟩ | ⟨_, h2⟩ <;> omega
        have hin : c ∈ r.original := by
          rw [List.prefix_iff_eq_take.mp (Search.mem_scan r.original text j hj),
            List.mem_take_iff_getElem]
          refine ⟨f - j, by rw [List.length_drop]; omega, ?_⟩
          simp only [List.getElem_drop, Nat.add_sub_cancel' hjf]
          exact hfc
        exact hwide (hascii c hin)

/-- A text is safe for every list of strings exactly when all its characters
    are below 128; for one list the reply is right exactly when the characters
    before the end of each of its spans are. -/
theorem offsets_agree_iff (text : PyStr) :
    ((∀ piiStrings, ∀ r ∈ resolveReplacements env text piiStrings, Selects text r) ↔
      ∀ c ∈ text, Utf8.Ascii c) ∧
    ∀ piiStrings, (∀ r ∈ resolveReplacements env text piiStrings, Selects text r) ↔
      ∀ r ∈ resolveReplacements env text piiStrings, ∀ c ∈ text.take r.stop, Utf8.Ascii c := by
  have hlist : ∀ piiStrings, (∀ r ∈ resolveReplacements env text piiStrings, Selects text r) ↔
      ∀ r ∈ resolveReplacements env text piiStrings, ∀ c ∈ text.take r.stop, Utf8.Ascii c := by
    intro piiStrings
    constructor
    · intro hall r hr
      exact ascii_of_selects env text piiStrings hall r.start r hr rfl
    · intro hascii r hr
      rcases mem_resolveReplacements env text piiStrings r hr with ⟨_, hne, hscan, hstop⟩
      exact selects_of_ascii text r (Search.mem_scan _ _ _ hscan) hne hstop (hascii r hr)
  refine ⟨⟨?_, ?_⟩, hlist⟩
  · -- a wider character may be listed itself
    intro hall c hc
    have hne : [c] ≠ [] := List.cons_ne_nil _ _
    rcases List.mem_iff_getElem.mp hc with ⟨i, hi, hic⟩
    have hocc : [c] <+: text.drop i := by
      rw [List.drop_eq_getElem_cons hi, hic]
      exact ⟨_, rfl⟩
    rcases Search.scan_cover [c] text i hne hocc with ⟨j, hj, _⟩
    rcases resolveReplacements_reaches env text [[c]] [c] j List.mem_cons_self hne hj with
      ⟨r, hr, _⟩
    rcases mem_resolveReplacements env text [[c]] r hr with ⟨hlisted, hne', _, hstop⟩
    have hself := (index_of_selects text r hne' hstop (hall [[c]] r hr)).1
    rw [List.mem_singleton.mp hlisted] at hself
    exact hself c List.mem_cons_self
  · intro hascii piiStrings
    refine (hlist piiStrings).mpr ?_
    intro r _ c hc
    exact hascii c (List.mem_of_mem_take hc)

/-- A sidecar whose sets keep the last of equal strings. -/
def sampleSidecar : SidecarEnv :=
  ⟨sampleHashes, fun _ => .otherPii, ⟨List.dedup, fun _ => List.Perm.refl _⟩⟩

/-- Behind a letter with an accent the proxy reads one byte too early; inside
    a name with one it would cut the letter. -/
theorem offsets_disagree :
    (resolveReplacements sampleSidecar "é John".toList ["John".toList]).map
        (fun r => (r.start, r.stop)) = [(2, 6)] ∧
    slice (Utf8.encode "é John".toList) 2 6 = some (lit " Joh") ∧
    (resolveReplacements sampleSidecar "José".toList ["José".toList]).map
        (fun r => (r.start, r.stop)) = [(0, 4)] ∧
    slice (Utf8.encode "José".toList) 0 4 = none ∧
    ¬ ∀ r ∈ resolveReplacements sampleSidecar "é John".toList ["John".toList],
      Selects "é John".toList r := by
  decide

end PrivacyClaw
