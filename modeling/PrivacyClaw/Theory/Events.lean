import PrivacyClaw.Core.PiiSse
import PrivacyClaw.Lib.Pieces
import PrivacyClaw.Theory.Persistence
import PrivacyClaw.Theory.Trimming

/-!
# Events In and Out

The event parser gives the same events however the stream is cut into pieces.
What it gives is written to the client again, as one line for the type and one
for the data. The type and the data lines of an event were trimmed, so reading
them again gives them back, if the data is a single line. The lines of a longer
one stand without a `data:` of their own behind the first, and by its length
alone such an event is not read again.

## Main definitions

* `Field`: What stands in a field of an event.
* `fieldsLength`: A bound for the block in which fields were found.

## Theorems

* `feed_push`: Events do not depend on the pieces.
* `scan_mem`, `parseEventBlock_spec`: Where an event comes from.
* `eventFields_field`, `eventFields_length`: Its fields, and how long they are.
* `parseEventBlock_written`, `scan_written`: An event with one line, read again.
* `reencoded_iff`: Exactly the events with one line are read again.
-/

namespace PrivacyClaw

namespace SseParser

theorem splits (p : SseParser) (x y : List UInt8) : Pieces.Splits push p x y := by
  unfold Pieces.Splits
  rw [push_eq, push_eq, push_eq, ← List.append_assoc, scan_append]

/-- The events and what is left over are those of the whole stream. -/
theorem feed_push (pieces : List (List UInt8)) :
    Pieces.feed push new pieces = new.push pieces.flatten := by
  cases pieces with
  | nil => rfl
  | cons x xs => exact Pieces.feed_eq_push splits new x xs

/-- However a stream is cut, the parser gives the same events and keeps the same
    rest. -/
theorem push_chunking (pieces : List (List UInt8)) :
    (Pieces.feed push new pieces).1 = (new.push pieces.flatten).1 ∧
      (Pieces.feed push new pieces).2.buffer = (new.push pieces.flatten).2.buffer := by
  rw [feed_push]
  exact ⟨rfl, rfl⟩

/-- An event was read from a block that is shorter than the text. -/
theorem scan_mem (s : Str) : ∀ e ∈ (scan s).1,
    ∃ block, block.length < s.length ∧ parseEventBlock block = some e := by
  induction hlen : s.length using Nat.strongRecOn generalizing s with
  | ind len ih =>
      intro e he
      cases hf : findDoubleNewline s with
      | none =>
          rw [scan_none s hf] at he
          exact absurd he List.not_mem_nil
      | some p =>
          rcases p with ⟨a, b⟩
          have hb := findDoubleNewlineFrom_bounds s 0 a b hf
          rw [scan_some s a b hf] at he
          -- the first block, or one of the rest, which is shorter
          rcases List.mem_append.mp he with he | he
          · refine ⟨s.take a, ?_, Option.mem_toList.mp he⟩
            rw [List.length_take]
            omega
          · rcases ih (s.drop b).length (by rw [List.length_drop]; omega) (s.drop b) rfl e he with
              ⟨block, hblock, hparse⟩
            refine ⟨block, ?_, hparse⟩
            rw [List.length_drop] at hblock
            omega

end SseParser

open SseParser (scan scan_mem scan_some scan_none)

/-- What stands in a field of an event: a part of one line, trimmed. -/
structure Field (t : Str) : Prop where
  single : 10 ∉ t
  valid : utf8Valid t = true
  trimmed : Trimmed t

theorem field_trim (name line : Str) (hname : utf8Valid name = true) (hpre : name <+: line)
    (hsingle : 10 ∉ line) (hvalid : utf8Valid line = true) :
    Field (trim (line.drop name.length)) := by
  rcases hpre with ⟨rest, rfl⟩
  rw [List.drop_left]
  rw [utf8Valid_append name rest hname] at hvalid
  refine ⟨fun h => hsingle ?_, utf8Valid_trim rest hvalid, trimmed_trim rest⟩
  exact List.mem_append_right _ ((trim_within rest).subset h)

theorem eventFields_field : ∀ (ls : List Str) (acc : Option Str × List Str),
    (∀ l ∈ ls, 10 ∉ l ∧ utf8Valid l = true) →
    (∀ t ∈ acc.1, Field t) → (∀ p ∈ acc.2, Field p) →
    (∀ t ∈ (eventFields ls acc).1, Field t) ∧ ∀ p ∈ (eventFields ls acc).2, Field p := by
  intro ls
  induction ls with
  | nil => intro acc _ htype hparts; exact ⟨htype, hparts⟩
  | cons line ls ih =>
      intro acc hls htype hparts
      rcases acc with ⟨eventType, parts⟩
      rw [List.forall_mem_cons] at hls
      rw [eventFields]
      -- a type replaces the one before, data are added, other lines are passed over
      by_cases hevent : (lit "event:").isPrefixOf line = true
      · rw [if_pos hevent]
        refine ih _ hls.2 (fun t ht => ?_) hparts
        rw [Option.mem_def, Option.some.injEq] at ht
        rw [← ht]
        exact field_trim (lit "event:") line (by decide) (List.isPrefixOf_iff_prefix.mp hevent)
          hls.1.1 hls.1.2
      · rw [if_neg hevent]
        by_cases hdata : (lit "data:").isPrefixOf line = true
        · rw [if_pos hdata]
          refine ih _ hls.2 htype fun p hp => ?_
          rcases List.mem_append.mp hp with hp | hp
          · exact hparts p hp
          · rw [List.mem_singleton.mp hp]
            exact field_trim (lit "data:") line (by decide) (List.isPrefixOf_iff_prefix.mp hdata)
              hls.1.1 hls.1.2
        · rw [if_neg hdata]
          exact ih _ hls.2 htype hparts

/-- An event is made of the fields of its block. -/
theorem parseEventBlock_spec (block : Str) (e : SseEvent) (h : parseEventBlock block = some e) :
    ∃ parts, eventFields (lines block) (none, []) = (e.eventType, parts) ∧ parts ≠ [] ∧
      e.data = List.intercalate (lit "\n") parts ∧ (∀ t ∈ e.eventType, Field t) ∧
        ∀ p ∈ parts, Field p := by
  unfold parseEventBlock at h
  by_cases hutf : utf8Valid block = true
  · rw [if_pos hutf] at h
    have hfields := eventFields_field (lines block) (none, [])
      (fun l hl => ⟨lines_single block l hl, utf8Valid_lines block hutf l hl⟩)
      (fun t ht => absurd ht (Option.not_mem_none t)) (fun p hp => absurd hp List.not_mem_nil)
    rcases hacc : eventFields (lines block) (none, []) with ⟨eventType, parts⟩
    rw [hacc] at h hfields
    cases parts with
    -- without data there is no event
    | nil => exact absurd h (by simp only [reduceCtorEq, not_false_eq_true])
    | cons p ps =>
        dsimp only at h
        rw [Option.some.injEq] at h
        rw [← h]
        exact ⟨p :: ps, rfl, List.cons_ne_nil _ _, rfl, hfields⟩
  · rw [if_neg hutf] at h
    exact absurd h (by simp only [reduceCtorEq, not_false_eq_true])

/-- How much of a block the fields take up that were found in it. -/
def fieldsLength (acc : Option Str × List Str) : Nat :=
  (acc.1.map fun t => t.length + 7).getD 0 + (logText acc.2).length + 5 * acc.2.length

theorem length_trim_drop (line : Str) (n : Nat) :
    (trim (line.drop n)).length ≤ line.length - n := by
  have h := (trim_within (line.drop n)).length_le
  rw [List.length_drop] at h
  exact h

theorem eventFields_length : ∀ (ls : List Str) (acc : Option Str × List Str),
    fieldsLength (eventFields ls acc) ≤ fieldsLength acc + (logText ls).length := by
  intro ls
  induction ls with
  | nil => intro acc; exact Nat.le_add_right _ _
  | cons line ls ih =>
      intro acc
      rcases acc with ⟨eventType, parts⟩
      rw [eventFields, logText_cons, List.length_append, List.length_cons]
      -- the name of a field is longer than what the field counts beside its text
      by_cases hevent : (lit "event:").isPrefixOf line = true
      · have hlen := (List.isPrefixOf_iff_prefix.mp hevent).length_le
        have h6 : (lit "event:").length = 6 := by decide
        have htrim := length_trim_drop line 6
        have hrec := ih (some (trim (line.drop 6)), parts)
        rw [if_pos hevent]
        simp only [fieldsLength, Option.map_some, Option.getD_some] at hrec ⊢
        omega
      · rw [if_neg hevent]
        by_cases hdata : (lit "data:").isPrefixOf line = true
        · have hlen := (List.isPrefixOf_iff_prefix.mp hdata).length_le
          have h5 : (lit "data:").length = 5 := by decide
          have htrim := length_trim_drop line 5
          have hrec := ih (eventType, parts ++ [trim (line.drop 5)])
          have hnl : (lit "\n").length = 1 := by decide
          rw [if_pos hdata]
          simp only [fieldsLength, logText_append, logText_singleton, List.length_append,
            List.length_singleton, hnl] at hrec ⊢
          omega
        · have hrec := ih (eventType, parts)
          rw [if_neg hdata]
          omega

theorem length_linesFrom : ∀ (s acc : Str),
    (logText (linesFrom acc s)).length ≤ acc.length + s.length + 1 := by
  intro s
  induction s with
  | nil =>
      intro acc
      rw [linesFrom]
      split
      · exact Nat.zero_le _
      · rw [logText_singleton, List.length_append]
        exact Nat.le_refl _
  | cons c s ih =>
      intro acc
      rw [linesFrom]
      by_cases hc : c = 10
      · -- a line is not longer without its carriage return
        have hrec := ih []
        rw [List.length_nil] at hrec
        have hcr : (stripCr acc).length ≤ acc.length := (stripCr_front acc).length_le
        unfold stripCr at hcr
        rw [if_pos hc, logText_cons, List.length_append, List.length_cons, List.length_cons]
        omega
      · have hrec := ih (acc ++ [c])
        rw [List.length_append, List.length_singleton] at hrec
        rw [if_neg hc, List.length_cons]
        omega

/-- An event that is read again when it was written has one data line: for more
    there is no room. -/
theorem single_of_reread (e : SseEvent) (h : e ∈ (scan (reconstructSseEventBytes e)).1) :
    10 ∉ e.data := by
  rcases scan_mem _ e h with ⟨block, hblock, hparse⟩
  rcases parseEventBlock_spec block e hparse with ⟨parts, hfields, hne, hdata, _, hpart⟩
  have hbound := eventFields_length (lines block) (none, [])
  have hlines := length_linesFrom block []
  have hjoin := congrArg List.length (intercalate_logText parts hne)
  have h1 : (lit "\n").length = 1 := by decide
  have h2 : (lit "\n\n").length = 2 := by decide
  have h6 : (lit "data: ").length = 6 := by decide
  have h7 : (lit "event: ").length = 7 := by decide
  have h0 : logText [] = [] := rfl
  rw [List.length_append, ← hdata, h1] at hjoin
  rw [hfields] at hbound
  rw [← lines] at hlines
  -- every part takes up its name in the block, and only one name was written
  have hone : parts.length ≤ 1 := by
    unfold reconstructSseEventBytes at hblock
    cases htype : e.eventType with
    | none =>
        simp only [htype, fieldsLength, Option.map_none, Option.getD_none, List.length_append,
          h0, List.length_nil, h2, h6] at hbound hblock hlines
        omega
    | some t =>
        simp only [htype, fieldsLength, Option.map_some, Option.map_none, Option.getD_some,
          Option.getD_none, List.length_append, h0, List.length_nil, h1, h2,
          h6, h7] at hbound hblock hlines
        omega
  cases parts with
  | nil => exact absurd rfl hne
  | cons p ps =>
      rw [List.length_cons] at hone
      have hnil : ps = [] := List.length_eq_zero_iff.mp (by omega)
      rw [hdata, hnil, List.intercalate, List.intersperse_singleton, List.flatten_singleton]
      exact (hpart p List.mem_cons_self).single

/-- A field is written on one line. -/
theorem single_append {name t : Str} (hname : 10 ∉ name) (ht : 10 ∉ t) : 10 ∉ name ++ t := by
  rw [List.mem_append, not_or]
  exact ⟨hname, ht⟩

/-- No blank line begins inside a line; it begins behind one. -/
theorem findDoubleNewlineFrom_last : ∀ (l : Str) (i : Nat), 10 ∉ l →
    findDoubleNewlineFrom i (l ++ [10, 10]) = some (i + l.length, i + l.length + 2) := by
  intro l
  induction l with
  | nil => intro i _; rfl
  | cons c l ih =>
      intro i hl
      rw [List.mem_cons, not_or] at hl
      have hlf : ¬ lit "\n\n" <+: c :: (l ++ [10, 10]) := fun h =>
        hl.1 (List.cons_prefix_cons.mp h).1
      have hcrlf : ¬ lit "\r\n\r\n" <+: c :: (l ++ [10, 10]) := by
        intro h
        have h' := (List.cons_prefix_cons.mp h).2
        cases l with
        | nil => exact absurd (List.cons_prefix_cons.mp (List.cons_prefix_cons.mp h').2).1 (by decide)
        | cons d l => exact hl.2 ((List.cons_prefix_cons.mp h').1 ▸ List.mem_cons_self)
      rw [List.cons_append, findDoubleNewlineFrom]
      simp only [List.isPrefixOf_iff_prefix, if_neg hlf, if_neg hcrlf]
      rw [ih (i + 1) hl.2, List.length_cons, Nat.add_assoc i 1, Nat.add_comm 1]

/-- A line that another line follows is passed. -/
theorem findDoubleNewlineFrom_line (c : UInt8) (y : Str) (hlf : c ≠ 10) (hcr : c ≠ 13) :
    ∀ (l : Str) (i : Nat), 10 ∉ l →
      findDoubleNewlineFrom i (l ++ 10 :: c :: y) =
        findDoubleNewlineFrom (i + l.length + 1) (c :: y) := by
  intro l
  induction l with
  | nil =>
      intro i _
      have h2 : ¬ lit "\n\n" <+: 10 :: c :: y := fun h =>
        hlf (List.cons_prefix_cons.mp (List.cons_prefix_cons.mp h).2).1.symm
      have h4 : ¬ lit "\r\n\r\n" <+: 10 :: c :: y := fun h =>
        absurd (List.cons_prefix_cons.mp h).1 (by decide)
      rw [List.nil_append, findDoubleNewlineFrom]
      simp only [List.isPrefixOf_iff_prefix, if_neg h2, if_neg h4]
      rfl
  | cons d l ih =>
      intro i hl
      rw [List.mem_cons, not_or] at hl
      have h2 : ¬ lit "\n\n" <+: d :: (l ++ 10 :: c :: y) := fun h =>
        hl.1 (List.cons_prefix_cons.mp h).1
      have h4 : ¬ lit "\r\n\r\n" <+: d :: (l ++ 10 :: c :: y) := by
        intro h
        have h' := (List.cons_prefix_cons.mp h).2
        cases l with
        | nil => exact hcr (List.cons_prefix_cons.mp (List.cons_prefix_cons.mp h').2).1.symm
        | cons e l => exact hl.2 ((List.cons_prefix_cons.mp h').1 ▸ List.mem_cons_self)
      rw [List.cons_append, findDoubleNewlineFrom]
      simp only [List.isPrefixOf_iff_prefix, if_neg h2, if_neg h4]
      rw [ih (i + 1) hl.2, List.length_cons]
      congr 1
      omega

/-- The block that is written for an event. -/
def writtenBlock (e : SseEvent) : Str :=
  (match e.eventType with
    | some et => lit "event: " ++ et ++ lit "\n"
    | none => []) ++ (lit "data: " ++ e.data)

theorem reconstructSseEventBytes_eq (e : SseEvent) :
    reconstructSseEventBytes e = writtenBlock e ++ [10, 10] := by
  rw [reconstructSseEventBytes, writtenBlock]
  simp only [List.append_assoc]
  rfl

theorem findDoubleNewline_written (e : SseEvent) (htype : ∀ t ∈ e.eventType, 10 ∉ t)
    (hdata : 10 ∉ e.data) :
    findDoubleNewline (reconstructSseEventBytes e) =
      some ((writtenBlock e).length, (writtenBlock e).length + 2) := by
  have hline : 10 ∉ lit "data: " ++ e.data := single_append (by decide) hdata
  rw [findDoubleNewline, reconstructSseEventBytes_eq, writtenBlock]
  cases ht : e.eventType with
  | none =>
      dsimp only
      rw [List.nil_append, findDoubleNewlineFrom_last _ 0 hline, Nat.zero_add]
  | some t =>
      have htline : 10 ∉ lit "event: " ++ t := single_append (by decide) (htype t ht)
      -- the data line begins with a letter, so it does not make the line before it blank
      have hsplit : (lit "event: " ++ t ++ lit "\n") ++ (lit "data: " ++ e.data) ++ [10, 10] =
          (lit "event: " ++ t) ++ 10 :: 100 :: (lit "ata: " ++ e.data ++ [10, 10]) := by
        simp only [List.append_assoc]
        rfl
      dsimp only
      rw [hsplit, findDoubleNewlineFrom_line 100 _ (by decide) (by decide) _ 0 htline]
      have hlast := findDoubleNewlineFrom_last _ (0 + (lit "event: " ++ t).length + 1) hline
      have h1 : (lit "\n").length = 1 := by decide
      refine hlast.trans ?_
      simp only [List.length_append, h1, Option.some.injEq, Prod.mk.injEq]
      omega

theorem linesFrom_last : ∀ (l acc : Str), 10 ∉ l → acc ++ l ≠ [] →
    linesFrom acc l = [acc ++ l] := by
  intro l
  induction l with
  | nil =>
      intro acc _ hne
      rw [List.append_nil] at hne
      rw [linesFrom, if_neg hne, List.append_nil]
  | cons c l ih =>
      intro acc hl hne
      rw [List.mem_cons, not_or] at hl
      rw [linesFrom, if_neg (fun h => hl.1 h.symm), ih (acc ++ [c]) hl.2
        (by rw [List.append_assoc]; exact hne), List.append_assoc]
      rfl

/-- A trimmed text does not end in a carriage return. -/
theorem stripCr_field (name t : Str) (hname : name.getLast? ≠ some 13) (ht : Trimmed t) :
    stripCr (name ++ t) = name ++ t := by
  rw [stripCr, if_neg]
  intro hlast
  -- the last byte is that of the name, or that of the text
  rcases List.eq_nil_or_concat t with rfl | ⟨ys, c, rfl⟩
  · rw [List.append_nil] at hlast
    exact hname hlast
  · rw [List.concat_eq_append, ← List.append_assoc, List.getLast?_concat, Option.some.injEq] at hlast
    refine ht.back [13] (by decide) ?_
    rw [List.concat_eq_append, hlast]
    exact List.suffix_append _ _

theorem eventFields_data (d : Str) (hd : Trimmed d) (acc : Option Str × List Str) :
    eventFields [lit "data: " ++ d] acc = (acc.1, acc.2 ++ [d]) := by
  have hevent : ¬ (lit "event:").isPrefixOf (lit "data: " ++ d) = true := by
    rw [List.isPrefixOf_iff_prefix]
    exact fun h => absurd (List.cons_prefix_cons.mp h).1 (by decide)
  have hpre : (lit "data:").isPrefixOf (lit "data: " ++ d) = true :=
    List.isPrefixOf_iff_prefix.mpr ⟨32 :: d, rfl⟩
  rcases acc with ⟨eventType, parts⟩
  rw [eventFields, if_neg hevent, if_pos hpre, show (lit "data: " ++ d).drop 5 = 32 :: d from rfl,
    trim_space d hd]
  rfl

theorem eventFields_type (t : Str) (ht : Trimmed t) (ls : List Str)
    (acc : Option Str × List Str) :
    eventFields ((lit "event: " ++ t) :: ls) acc = eventFields ls (some t, acc.2) := by
  have hpre : (lit "event:").isPrefixOf (lit "event: " ++ t) = true :=
    List.isPrefixOf_iff_prefix.mpr ⟨32 :: t, rfl⟩
  rcases acc with ⟨eventType, parts⟩
  rw [eventFields, if_pos hpre, show (lit "event: " ++ t).drop 6 = 32 :: t from rfl,
    trim_space t ht]

/-- The written block is read as the event. -/
theorem parseEventBlock_written (e : SseEvent) (htype : ∀ t ∈ e.eventType, Field t)
    (hdata : Field e.data) : parseEventBlock (writtenBlock e) = some e := by
  have hdline : 10 ∉ lit "data: " ++ e.data := single_append (by decide) hdata.single
  have hdvalid : utf8Valid (lit "data: " ++ e.data) = true := by
    rw [utf8Valid_append _ _ (by decide)]
    exact hdata.valid
  have hdlines : lines (lit "data: " ++ e.data) = [lit "data: " ++ e.data] :=
    linesFrom_last _ [] hdline (List.cons_ne_nil _ _)
  have hone : List.intercalate (lit "\n") [e.data] = e.data := by
    rw [List.intercalate, List.intersperse_singleton, List.flatten_singleton]
  rw [parseEventBlock, writtenBlock]
  cases ht : e.eventType with
  | none =>
      dsimp only
      rw [List.nil_append, if_pos hdvalid, hdlines, eventFields_data _ hdata.trimmed,
        List.nil_append]
      dsimp only
      rw [hone, ← ht]
  | some t =>
      have htf := htype t ht
      have htline : 10 ∉ lit "event: " ++ t := single_append (by decide) htf.single
      have hsplit : (lit "event: " ++ t ++ lit "\n") ++ (lit "data: " ++ e.data) =
          (lit "event: " ++ t) ++ 10 :: (lit "data: " ++ e.data) := by
        simp only [List.append_assoc]
        rfl
      have hvalid : utf8Valid ((lit "event: " ++ t) ++ 10 :: (lit "data: " ++ e.data)) = true := by
        rw [List.append_assoc, utf8Valid_append _ _ (by decide), utf8Valid_append _ _ htf.valid,
          utf8Valid_ascii 10 _ (by decide)]
        exact hdvalid
      dsimp only
      rw [hsplit, if_pos hvalid, lines, linesFrom_line _ [] _ htline, ← lines, hdlines,
        List.nil_append, stripCr_field _ t (by decide) htf.trimmed,
        eventFields_type t htf.trimmed, eventFields_data _ hdata.trimmed, List.nil_append]
      dsimp only
      rw [hone, ← ht]

/-- An event with a single line is read again. -/
theorem scan_written (e : SseEvent) (htype : ∀ t ∈ e.eventType, Field t) (hdata : Field e.data) :
    scan (reconstructSseEventBytes e) = ([e], []) := by
  have hfind := findDoubleNewline_written e (fun t ht => (htype t ht).single) hdata.single
  have hlen : (reconstructSseEventBytes e).length = (writtenBlock e).length + 2 := by
    rw [reconstructSseEventBytes_eq, List.length_append]
    rfl
  rw [scan_some _ _ _ hfind, List.drop_eq_nil_of_le (Nat.le_of_eq hlen),
    reconstructSseEventBytes_eq, List.take_left, parseEventBlock_written e htype hdata]
  rfl

/-- An event of a stream that is written again gives exactly itself if and only
    if its data is a single line. -/
theorem reencoded_iff (pieces : List (List UInt8)) (e : SseEvent)
    (he : e ∈ (Pieces.feed SseParser.push SseParser.new pieces).1) :
    (SseParser.new.push (reconstructSseEventBytes e)).1 = [e] ↔ 10 ∉ e.data := by
  rw [SseParser.push_eq]
  constructor
  · intro h
    refine single_of_reread e ?_
    rw [show reconstructSseEventBytes e =
        SseParser.new.buffer ++ reconstructSseEventBytes e from rfl,
      h]
    exact List.mem_singleton_self e
  · intro hsingle
    rw [SseParser.feed_push, SseParser.push_eq] at he
    rcases scan_mem _ e he with ⟨block, _, hparse⟩
    rcases parseEventBlock_spec block e hparse with ⟨parts, _, hne, hdata, htype, hparts⟩
    -- a second part would bring a line feed with it
    have hpart : Field e.data := by
      rcases parts with _ | ⟨p, _ | ⟨q, ps⟩⟩
      · exact absurd rfl hne
      · rw [hdata, List.intercalate, List.intersperse_singleton, List.flatten_singleton]
        exact hparts p List.mem_cons_self
      · refine absurd ?_ hsingle
        rw [hdata, List.intercalate, List.intersperse_cons_cons, List.flatten_cons,
          List.flatten_cons]
        exact List.mem_append_right _ (List.mem_append_left _ (by decide))
    change (scan (reconstructSseEventBytes e)).1 = [e]
    rw [scan_written e htype hpart]

/-- An event with a type and one line of data is read again as itself. -/
theorem reencoded_iff_stop :
    10 ∉ (⟨some (lit "message_stop"), lit "\x7b\x7d"⟩ : SseEvent).data ∧
      (SseParser.new.push
          (reconstructSseEventBytes ⟨some (lit "message_stop"), lit "\x7b\x7d"⟩)).1 =
        [⟨some (lit "message_stop"), lit "\x7b\x7d"⟩] := by
  have hiff := reencoded_iff [lit "event: message_stop\n", lit "data: \x7b\x7d\n\n"]
    ⟨some (lit "message_stop"), lit "\x7b\x7d"⟩ (by decide)
  have hsingle : 10 ∉ (⟨some (lit "message_stop"), lit "\x7b\x7d"⟩ : SseEvent).data := by decide
  exact ⟨hsingle, hiff.mpr hsingle⟩

/-- Two data lines: the second is written without a name, and is lost. -/
theorem reencoded_two_lines :
    (⟨none, lit "hello\nworld"⟩ : SseEvent) ∈
        (Pieces.feed SseParser.push SseParser.new [lit "data: hello\ndata: world\n\n"]).1 ∧
      (SseParser.new.push (reconstructSseEventBytes ⟨none, lit "hello\nworld"⟩)).1 ≠
        [⟨none, lit "hello\nworld"⟩] ∧
      (SseParser.new.push (reconstructSseEventBytes ⟨none, lit "hello\nworld"⟩)).1 =
        [⟨none, lit "hello"⟩] := by decide

end PrivacyClaw
