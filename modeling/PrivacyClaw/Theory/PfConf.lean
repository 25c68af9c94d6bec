import Mathlib.Data.List.TakeWhile
import PrivacyClaw.Theory.HostsFile

/-!
# The Include Lines of the Packet Filter

Where the two include lines end up in `pf.conf`, and what is left when they are
removed.

The loop writes every line back and the include lines once: in front of the first
filter anchor, or behind the last line (`insertPfConfInclude_eq`). Both carry the
tag and no other line does, so removing them leaves the lines there were. As with
the hosts file a line is written back with a line feed alone, which a reader
takes together with a carriage return in front of it; here that happens twice, and
nothing else goes wrong (`pf_conf_restored_iff`).

## Main definitions

* `includeLines`: The two lines.
* `IncludePlaced`: They stand in front of the first filter anchor.

## Theorems

* `foldl_insertPfConfLine`: What the loop writes.
* `insertPfConfInclude_eq`: The edit by lines.
* `insertPfConfInclude_idempotent`: A second edit changes nothing.
* `lines_insertPfConfInclude`, `lines_removePfConfInclude`: The lines after either
  edit.
* `pf_conf_restored_iff`: When the edit is undone and in order.
-/

namespace PrivacyClaw

/-- The two lines of `build_pf_conf_include`. -/
def includeLines : List Str :=
  [lit "rdr-anchor \"privacyclaw\"  " ++ privacyclawTag,
    lit "load anchor \"privacyclaw\" from \"/etc/pf.anchors/privacyclaw\"  " ++ privacyclawTag]

/-- `result` has the lines of `ls` and the include lines, together and in front of
    the first filter anchor. -/
def IncludePlaced (ls result : List Str) : Prop :=
  ∃ before after, ls = before ++ after ∧ result = before ++ includeLines ++ after ∧
    (∀ l ∈ before ++ includeLines, isFilterAnchor l = false) ∧
    ∀ l ∈ after.head?, isFilterAnchor l = true

theorem buildPfConfInclude_eq : buildPfConfInclude = logText includeLines := by decide

/-- The include lines are lines of their own, tagged, and no filter anchors. -/
theorem includeLines_spec : ∀ l ∈ includeLines,
    10 ∉ l ∧ stripCr l = l ∧ contains privacyclawTag l = true ∧ isFilterAnchor l = false :=
  List.forall_iff_forall_mem.mp (by decide)

/-- Behind the include lines every line is written as it is. -/
theorem foldl_insertPfConfLine_true (ls : List Str) : ∀ out : Str,
    ls.foldl insertPfConfLine (out, true) = (out ++ logText ls, true) := by
  induction ls with
  | nil => exact fun out => Prod.ext (List.append_nil out).symm rfl
  | cons l ls ih =>
      intro out
      have hstep : insertPfConfLine (out, true) l = (out ++ l ++ lit "\n", true) := rfl
      rw [List.foldl_cons, hstep, ih, logText_cons, List.append_assoc, List.append_assoc]
      rfl

/-- The loop writes the lines up to the first filter anchor, the include lines,
    and the lines from there on. -/
theorem foldl_insertPfConfLine (ls : List Str) : ∀ out : Str,
    (if !(ls.foldl insertPfConfLine (out, false)).2 then
        (ls.foldl insertPfConfLine (out, false)).1 ++ buildPfConfInclude
      else (ls.foldl insertPfConfLine (out, false)).1) =
      out ++ logText (ls.takeWhile (fun l => !isFilterAnchor l) ++ includeLines ++
        ls.dropWhile fun l => !isFilterAnchor l) := by
  induction ls with
  | nil =>
      intro out
      rw [buildPfConfInclude_eq, List.takeWhile_nil, List.dropWhile_nil, List.nil_append,
        List.append_nil]
      rfl
  | cons l ls ih =>
      intro out
      rw [List.foldl_cons]
      cases hl : isFilterAnchor l with
      | true =>
          have hstep : insertPfConfLine (out, false) l =
              (out ++ buildPfConfInclude ++ l ++ lit "\n", true) := by
            rw [insertPfConfLine, hl]
            rfl
          rw [hstep, foldl_insertPfConfLine_true]
          dsimp only
          rw [Bool.not_true, if_neg Bool.false_ne_true,
            List.takeWhile_cons_of_neg (by rw [hl]; decide),
            List.dropWhile_cons_of_neg (by rw [hl]; decide), buildPfConfInclude_eq,
            List.nil_append, logText_append, logText_cons]
          simp only [List.append_assoc]
          rfl
      | false =>
          have hstep : insertPfConfLine (out, false) l = (out ++ l ++ lit "\n", false) := by
            rw [insertPfConfLine, hl]
            rfl
          rw [hstep, ih, List.takeWhile_cons_of_pos (by rw [hl]; rfl),
            List.dropWhile_cons_of_pos (by rw [hl]; rfl), List.cons_append, List.cons_append,
            logText_cons, List.append_assoc, List.append_assoc]
          rfl

/-- The edit of a text without the tag. -/
theorem insertPfConfInclude_eq (c : Str) (hc : contains privacyclawTag c = false) :
    insertPfConfInclude c = logText ((lines c).takeWhile (fun l => !isFilterAnchor l) ++
      includeLines ++ (lines c).dropWhile fun l => !isFilterAnchor l) := by
  rw [insertPfConfInclude, hc, if_neg Bool.false_ne_true]
  exact foldl_insertPfConfLine (lines c) []

/-- After the edit the tag is there. -/
theorem insertPfConfInclude_tagged (c : Str) :
    contains privacyclawTag (insertPfConfInclude c) = true := by
  cases hc : contains privacyclawTag c with
  | true => rw [insertPfConfInclude, hc, if_pos rfl, hc]
  | false =>
      rw [contains_iff, insertPfConfInclude_eq c hc, logText_append, logText_append]
      refine List.IsInfix.trans ?_ (List.infix_append _ (logText includeLines) _)
      exact (contains_iff _ _).mp (by decide)

theorem insertPfConfInclude_idempotent (c : Str) :
    insertPfConfInclude (insertPfConfInclude c) = insertPfConfInclude c := by
  rw [insertPfConfInclude, insertPfConfInclude_tagged, if_pos rfl]

theorem map_stripCr_includeLines : includeLines.map stripCr = includeLines :=
  (List.map_congr_left fun l hl => (includeLines_spec l hl).2.1).trans (List.map_id _)

/-- The lines after the edit are the lines before, read once more, and the
    include lines. -/
theorem lines_insertPfConfInclude (c : Str) (hc : contains privacyclawTag c = false) :
    lines (insertPfConfInclude c) =
      ((lines c).takeWhile fun l => !isFilterAnchor l).map stripCr ++ includeLines ++
        ((lines c).dropWhile fun l => !isFilterAnchor l).map stripCr := by
  have hsingle : ∀ l ∈ (lines c).takeWhile (fun l => !isFilterAnchor l) ++ includeLines ++
      (lines c).dropWhile fun l => !isFilterAnchor l, 10 ∉ l := by
    intro l hl
    rw [List.mem_append, List.mem_append] at hl
    rcases hl with (hl | hl) | hl
    · exact lines_single c l ((List.takeWhile_sublist _).subset hl)
    · exact (includeLines_spec l hl).1
    · exact lines_single c l ((List.dropWhile_sublist _).subset hl)
  rw [insertPfConfInclude_eq c hc, lines_logText _ hsingle, List.map_append, List.map_append,
    map_stripCr_includeLines]

/-- Removing the include lines leaves the lines there were, read twice more. -/
theorem lines_removePfConfInclude (c : Str) (hc : contains privacyclawTag c = false) :
    lines (removePfConfInclude (insertPfConfInclude c)) =
      (lines c).map fun l => stripCr (stripCr l) := by
  -- a line that is read again has no tag it had not before
  have hclean : ∀ l ∈ lines c, contains privacyclawTag (stripCr l) = false := by
    intro l hl
    rw [← Bool.not_eq_true, contains_iff]
    exact fun hin => not_tagged_of_mem c hc l hl (hin.trans (stripCr_front l).isInfix)
  have hkeep : ∀ ls : List Str, (∀ l ∈ ls, l ∈ lines c) →
      (ls.map stripCr).filter (fun l => !contains privacyclawTag l) = ls.map stripCr := by
    intro ls hls
    refine List.filter_eq_self.mpr ?_
    intro l hl
    rcases List.mem_map.mp hl with ⟨line, hline, rfl⟩
    rw [hclean line (hls line hline)]
    rfl
  have hdrop : includeLines.filter (fun l => !contains privacyclawTag l) = [] := by
    refine List.filter_eq_nil_iff.mpr ?_
    intro l hl
    rw [(includeLines_spec l hl).2.2.1]
    decide
  rw [removePfConfInclude, removePrivacyclawLines_eq, lines_insertPfConfInclude c hc,
    List.filter_append, List.filter_append, hdrop, List.append_nil,
    hkeep _ fun l hl => (List.takeWhile_sublist _).subset hl,
    hkeep _ fun l hl => (List.dropWhile_sublist _).subset hl, ← List.map_append,
    List.takeWhile_append_dropWhile, lines_logText, List.map_map]
  · rfl
  · intro l hl
    rcases List.mem_map.mp hl with ⟨line, hline, rfl⟩
    exact fun h => lines_single c line hline ((stripCr_front line).subset h)

/-- Where no line ends with a carriage return the include lines are in their
    place. -/
theorem includePlaced_insert (c : Str) (hc : contains privacyclawTag c = false)
    (hcr : ∀ l ∈ lines c, l.getLast? ≠ some 13) :
    IncludePlaced (lines c) (lines (insertPfConfInclude c)) := by
  have hself : ∀ ls : List Str, (∀ l ∈ ls, l ∈ lines c) → ls.map stripCr = ls := fun ls hls =>
    (List.map_congr_left fun l hl => (stripCr_eq_self_iff l).mpr (hcr l (hls l hl))).trans
      (List.map_id _)
  refine ⟨(lines c).takeWhile fun l => !isFilterAnchor l,
    (lines c).dropWhile fun l => !isFilterAnchor l, List.takeWhile_append_dropWhile.symm, ?_,
    fun l hl => ?_, fun l hl => ?_⟩
  · rw [lines_insertPfConfInclude c hc, hself _ fun l hl => (List.takeWhile_sublist _).subset hl,
      hself _ fun l hl => (List.dropWhile_sublist _).subset hl]
  · rcases List.mem_append.mp hl with hl | hl
    · exact (Bool.not_eq_true' _).mp (List.mem_takeWhile_imp (p := fun l => !isFilterAnchor l) hl)
    · exact (includeLines_spec l hl).2.2.2
  · -- the first line that is left is one the search stops at
    have hstop := List.head?_dropWhile_not (fun l => !isFilterAnchor l) (lines c)
    rw [hl] at hstop
    exact (Bool.not_eq_false' _).mp hstop

/-- Removing the include lines undoes the edit, a second edit changes nothing and
    the lines stand in order, exactly when no line ends with a carriage return. -/
theorem pf_conf_restored_iff (c : Str) (hc : contains privacyclawTag c = false) :
    (lines (removePfConfInclude (insertPfConfInclude c)) = lines c ∧
      insertPfConfInclude (insertPfConfInclude c) = insertPfConfInclude c ∧
      IncludePlaced (lines c) (lines (insertPfConfInclude c))) ↔
    ∀ l ∈ lines c, l.getLast? ≠ some 13 := by
  rw [lines_removePfConfInclude c hc]
  constructor
  · rintro ⟨hlines, _⟩ l hl
    have htwice : stripCr (stripCr l) = l :=
      List.map_eq_map_iff.mp (hlines.trans (List.map_id _).symm) l hl
    -- reading a line never makes it longer, so the first time takes nothing off
    refine (stripCr_eq_self_iff l).mp ((stripCr_front l).eq_of_length_le ?_)
    have hlen := (stripCr_front (stripCr l)).length_le
    rw [htwice] at hlen
    exact hlen
  · intro hcr
    refine ⟨?_, insertPfConfInclude_idempotent c, includePlaced_insert c hc hcr⟩
    refine (List.map_congr_left fun l hl => ?_).trans (List.map_id _)
    rw [(stripCr_eq_self_iff l).mpr (hcr l hl), (stripCr_eq_self_iff l).mpr (hcr l hl)]
    rfl

/-- A file with a filter anchor. -/
theorem pf_conf_restored_iff_anchor :
    lines (removePfConfInclude (insertPfConfInclude
      (lit "rdr-anchor \"com.apple/*\"\nanchor \"com.apple/*\"\n"))) =
      lines (lit "rdr-anchor \"com.apple/*\"\nanchor \"com.apple/*\"\n") :=
  ((pf_conf_restored_iff (lit "rdr-anchor \"com.apple/*\"\nanchor \"com.apple/*\"\n")
    (by decide)).mpr (List.forall_iff_forall_mem.mp (by decide))).1

/-- A line with a carriage return at its end loses it. -/
theorem pf_conf_not_restored :
    removePfConfInclude (insertPfConfInclude (lit "pass\r\r\n")) = lit "pass\n" ∧
    ¬ ∀ c : Str, contains privacyclawTag c = false →
      lines (removePfConfInclude (insertPfConfInclude c)) = lines c ∧
        insertPfConfInclude (insertPfConfInclude c) = insertPfConfInclude c ∧
        IncludePlaced (lines c) (lines (insertPfConfInclude c)) := by
  refine ⟨by decide, fun hall => ?_⟩
  have h := (hall (lit "pass\r\r\n") (by decide)).1
  exact absurd h (by decide)

end PrivacyClaw
