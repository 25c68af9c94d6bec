import Mathlib.Data.List.Infix
import PrivacyClaw.Lib.Leftmost

/-!
# Replacement in a Text that Arrives in Parts

A consumer that replaces matches in a text it receives in parts keeps a tail
of its output and scans that tail again together with the next part. `Tracks`
says what such a consumer has to maintain: what was sent and what is kept make
the replacement of what was received, and every unfinished match is among what
is kept.

The tail is output, so scanning it again is only harmless where no key starts
in it except in the unfinished match at its end, and the unfinished match is
only still there if no shorter key was replaced inside it. Under these two
conditions a part carries the consumer from one tracked state to the next
(`Tracks.step`).

## Main definitions

* `Unfinished`: The end of a text that begins a key and holds none.
* `Tracks`: What was sent and kept, against what was received.
* `Quiet`: No key starts in the first part of a list.

## Theorems

* `replaceAll_quiet`: Symbols at which no key starts are not replaced.
* `Tracks.overhang_kept`: What the next part completes is still kept.
* `Tracks.processed`: What is sent next, before the cut.
* `Tracks.unfinished_processed`: An unfinished match is at the end of it.
* `Tracks.step`: A part carries on.
-/

namespace Leftmost

variable {α : Type*} [DecidableEq α]

/-- The end `x` of `y` is passed by the scan symbol by symbol, and begins a key
    that is longer than it. -/
structure Unfinished (keys : List (List α)) (y x : List α) : Prop where
  split : ∃ y₁, y = y₁ ++ x ∧ pieces keys y = pieces keys y₁ ++ pieces keys x
  holds : ∀ k ∈ keys, ¬ k <:+: x
  begins : ∃ k ∈ keys, x <+: k ∧ x.length < k.length

/-- What was sent and what is kept make the replacement of what was received,
    and an unfinished match is kept. -/
structure Tracks (keys : List (List α)) (val : Nat → List α) (received sent kept : List α) :
    Prop where
  joined : sent ++ kept = replaceAll keys val received
  held : ∀ x, Unfinished keys received x → x <:+ kept

/-- No key starts within the first `n` symbols. -/
def Quiet (keys : List (List α)) (n : Nat) (s : List α) : Prop :=
  ∀ q, q < n → ∀ k ∈ keys, ¬ k <+: s.drop q

theorem replaceAll_append (keys : List (List α)) (val : Nat → List α) (s t r : List α)
    (h : pieces keys r = pieces keys s ++ pieces keys t) :
    replaceAll keys val r = replaceAll keys val s ++ replaceAll keys val t := by
  rw [replaceAll, h, List.flatMap_append]
  rfl

/-- Symbols at which no key starts are not replaced. -/
theorem replaceAll_quiet (keys : List (List α)) (val : Nat → List α) (w t : List α)
    (h : Quiet keys w.length (w ++ t)) :
    replaceAll keys val (w ++ t) = w ++ replaceAll keys val t := by
  rw [replaceAll, pieces_append_left w t h, List.flatMap_append, flatMap_render_lit]
  rfl

section

variable {keys : List (List α)} {val : Nat → List α} (hne : ∀ k ∈ keys, k ≠ [])
include hne

theorem Tracks.start : Tracks keys val [] [] [] where
  joined := by rw [replaceAll, pieces_nil hne]; rfl
  held x hx := by
    rcases hx.split with ⟨y₁, hy, _⟩
    have hnil := (List.append_eq_nil_iff.mp hy.symm).2
    rw [hnil]

variable {received sent kept : List α} (ht : Tracks keys val received sent kept)
include ht

/-- What the next part completes is still kept, as long as no key was replaced
    in it. -/
theorem Tracks.overhang_kept (d : List α)
    (hwhole : ∀ k ∈ keys, ¬ k <:+: overhang keys received d) :
    overhang keys received d <:+ kept := by
  rcases pieces_cut hne received d with ⟨y₁, hsplit, _, hpy, hend⟩
  rcases hend with hnil | ⟨i, n, hlong, hlt⟩
  · rw [hnil]
    exact List.nil_suffix
  · rcases longestAt_eq_some keys _ i n hlong with ⟨k, hget, hlen, hpre, _⟩
    refine ht.held _ ⟨⟨y₁, hsplit, hpy⟩, hwhole, k, List.mem_of_getElem? hget, ?_, by omega⟩
    exact List.prefix_of_prefix_length_le (List.prefix_append _ _) hpre (by omega)

/-- Scanning what is kept together with the next part goes on where the scan of
    what was received stands. -/
theorem Tracks.processed (d : List α)
    (hwhole : ∀ k ∈ keys, ¬ k <:+: overhang keys received d)
    (hquiet : Quiet keys (kept.length - (overhang keys received d).length) (kept ++ d)) :
    sent ++ replaceAll keys val (kept ++ d) = replaceAll keys val (received ++ d) := by
  rcases ht.overhang_kept hne d hwhole with ⟨w, rfl⟩
  rcases pieces_cut hne received d with ⟨y₁, hsplit, hp, hpy, _⟩
  generalize overhang keys received d = x at *
  -- the tail is the replacement of the finished part, up to the open match
  have hw : sent ++ w = replaceAll keys val y₁ := by
    have hj := ht.joined
    rw [replaceAll_append keys val y₁ x received hpy, replaceAll_eq_self val x hwhole,
      ← List.append_assoc] at hj
    exact List.append_cancel_right hj
  have hq : Quiet keys w.length (w ++ (x ++ d)) := by
    rw [List.length_append, Nat.add_sub_cancel, List.append_assoc] at hquiet
    exact hquiet
  rw [List.append_assoc, replaceAll_quiet keys val w (x ++ d) hq, ← List.append_assoc, hw]
  exact (replaceAll_append keys val y₁ (x ++ d) _ hp).symm

/-- An unfinished match of the longer text is at the end of what the scan
    gives. -/
theorem Tracks.unfinished_processed (d : List α)
    (hwhole : ∀ k ∈ keys, ¬ k <:+: overhang keys received d)
    (hquiet : Quiet keys (kept.length - (overhang keys received d).length) (kept ++ d))
    (x : List α) (hx : Unfinished keys (received ++ d) x) :
    x <:+ replaceAll keys val (kept ++ d) := by
  rcases ht.overhang_kept hne d hwhole with ⟨w, hkept⟩
  rcases pieces_cut hne received d with ⟨y₁, hsplit, hp, hpy, _⟩
  rcases hx.split with ⟨y₂, hsplit₂, hp₂⟩
  generalize overhang keys received d = x₀ at *
  subst hkept
  have hq : Quiet keys w.length (w ++ (x₀ ++ d)) := by
    rw [List.length_append, Nat.add_sub_cancel, List.append_assoc] at hquiet
    exact hquiet
  rw [List.append_assoc, replaceAll_quiet keys val w (x₀ ++ d) hq]
  have hlit : pieces keys x = x.map .lit := pieces_of_not_infix hne x hx.holds
  rw [hp, hlit] at hp₂
  -- compare the symbols of `x` with the scan from the open match on
  have hscan : pieces keys (x₀ ++ d) <:+ pieces keys y₂ ++ x.map Piece.lit :=
    hp₂ ▸ List.suffix_append _ _
  rcases List.suffix_or_suffix_of_suffix (List.suffix_append _ (x.map Piece.lit)) hscan with
    hin | hout
  · -- all of them come from it
    rcases hin with ⟨z, hz⟩
    have hr : replaceAll keys val (x₀ ++ d) = z.flatMap (Piece.render val) ++ x := by
      rw [replaceAll, ← hz, List.flatMap_append, flatMap_render_lit]
    rw [hr, ← List.append_assoc]
    exact List.suffix_append _ _
  · -- the scan from there on is part of them, so they start before it
    rcases hout with ⟨z, hz⟩
    rcases List.map_eq_append_iff.mp hz.symm with ⟨z', t, hzt, rfl, htl⟩
    have heq : x₀ ++ d = t := eq_of_pieces_lit hne _ t htl.symm
    subst heq
    have hsub : ∀ k ∈ keys, ¬ k <:+: x₀ ++ d := fun k hk hin =>
      hx.holds k hk (hin.trans (by rw [hzt]; exact (List.suffix_append _ _).isInfix))
    rw [replaceAll_eq_self val _ hsub]
    -- the part of `x` that was received is unfinished there, and was kept
    have hpre : z' ++ x₀ <+: x := by
      rw [hzt, ← List.append_assoc]
      exact List.prefix_append _ _
    have hholds : ∀ k ∈ keys, ¬ k <:+: z' ++ x₀ := fun k hk hin =>
      hx.holds k hk (hin.trans hpre.isInfix)
    have hy₁ : y₁ = y₂ ++ z' := by
      rw [hsplit, hzt, List.append_assoc, ← List.append_assoc y₂ z'] at hsplit₂
      exact List.append_cancel_right hsplit₂
    have hpy₁ : pieces keys y₁ = pieces keys y₂ ++ z'.map Piece.lit := by
      rw [hzt, List.map_append, ← List.append_assoc, ← htl] at hp₂
      exact List.append_cancel_right hp₂
    have hun : Unfinished keys received (z' ++ x₀) := by
      refine ⟨⟨y₂, ?_, ?_⟩, hholds, ?_⟩
      · rw [hsplit, hy₁, List.append_assoc]
      · have hx₀ : ∀ k ∈ keys, ¬ k <:+: x₀ := fun k hk hin =>
          hholds k hk (hin.trans (List.suffix_append _ _).isInfix)
        rw [hpy, hpy₁, pieces_of_not_infix hne x₀ hx₀, pieces_of_not_infix hne _ hholds,
          List.map_append, List.append_assoc]
      · rcases hx.begins with ⟨k, hk, hxk, hlt⟩
        refine ⟨k, hk, hpre.trans hxk, ?_⟩
        have := hpre.length_le
        omega
    rcases ht.held _ hun with ⟨w', hw'⟩
    rw [← List.append_assoc] at hw'
    rw [← List.append_cancel_right hw', hzt, List.append_assoc]
    exact List.suffix_append _ _

/-- A part carries on, when the cut of the output keeps the unfinished
    matches. -/
theorem Tracks.step (d : List α) (n : Nat)
    (hwhole : ∀ k ∈ keys, ¬ k <:+: overhang keys received d)
    (hquiet : Quiet keys (kept.length - (overhang keys received d).length) (kept ++ d))
    (hcut : ∀ x, Unfinished keys (received ++ d) x →
      n ≤ (replaceAll keys val (kept ++ d)).length - x.length) :
    Tracks keys val (received ++ d) (sent ++ (replaceAll keys val (kept ++ d)).take n)
      ((replaceAll keys val (kept ++ d)).drop n) where
  joined := by
    rw [List.append_assoc, List.take_append_drop]
    exact ht.processed hne d hwhole hquiet
  held x hx := by
    have hsuf := ht.unfinished_processed hne d hwhole hquiet x hx
    have hle := hsuf.length_le
    refine List.suffix_of_suffix_length_le hsuf (List.drop_suffix _ _) ?_
    have := hcut x hx
    rw [List.length_drop]
    omega

end

end Leftmost
