import PrivacyClaw.Theory.Persistence
import PrivacyClaw.Theory.Records
import PrivacyClaw.Theory.Requests
import PrivacyClaw.Theory.Trimming

/-!
# Rebuilt Requests

A request whose body was decoded or rewritten is put together again from its
header block and the new body. The function that does it scans the header block
byte by byte for line ends; the functions that read headers, here and upstream,
take the lines of a text. Where carriage returns and line feeds stand together
only, both see the same lines.

So the lines of the new block are those that were kept, and the two that were put
in: one length, which is that of the body, no transfer coding, and one empty line,
at the end.

## Main definitions

* `CrlfOnly`: Carriage returns and line feeds stand together.
* `EndsAtFirstEmptyLine`: A header block and nothing behind it.
* `headerBlock`: The header block with the given lines.
* `keptHeader`, `lengthLine`, `encodingLine`, `rebuiltLines`: The lines of the
  new block.

## Theorems

* `headerBlock_of_ends`: A header block has lines.
* `lines_headerBlock`, `findHeaderEnd_headerBlock`: Its lines and its end.
* `rebuildHeaders_headerBlock`: The lines of the new block.
* `parseContentLength_rebuilt`, `isChunkedEncoding_rebuilt`: What it declares.
* `rebuilt_framed`: A rebuilt request is framed correctly.
-/

namespace PrivacyClaw

/-- A carriage return stands in front of a line feed, and a line feed behind a
    carriage return, and neither of them alone. -/
def CrlfOnly (s : Str) : Prop :=
  s.head? ≠ some 10 ∧ ∀ i < s.length, (s[i]? = some 13 ↔ s[i + 1]? = some 10)

instance (s : Str) : Decidable (CrlfOnly s) := inferInstanceAs (Decidable (_ ∧ _))

/-- A header block that ends at its first empty line. -/
def EndsAtFirstEmptyLine (h : Str) : Prop :=
  h = crlf ∨ (¬ crlf <+: h ∧ findHeaderEnd h = some h.length)

instance (h : Str) : Decidable (EndsAtFirstEmptyLine h) := inferInstanceAs (Decidable (_ ∨ _))

/-- The header block with the given lines. -/
def headerBlock (ls : List Str) : Str := (ls.map (· ++ crlf)).flatten ++ crlf

/-- A header line: it is not empty, and it is one line. -/
structure HeaderLine (l : Str) : Prop where
  nonempty : l ≠ []
  cr : 13 ∉ l
  lf : 10 ∉ l

theorem headerBlock_cons (l : Str) (ls : List Str) :
    headerBlock (l :: ls) = l ++ (crlf ++ headerBlock ls) := by
  simp only [headerBlock, List.map_cons, List.flatten_cons, List.append_assoc]

section Split

variable {line y : Str} (h : CrlfOnly (line ++ (crlf ++ y)))
include h

/-- In front of a line end there is a line. -/
theorem CrlfOnly.single (hline : ¬ crlf <:+: line) : 13 ∉ line ∧ 10 ∉ line := by
  have hc : crlf = [13, 10] := by decide
  have hget : ∀ k, k < line.length → (line ++ (crlf ++ y))[k]? = (line)[k]? := fun k hk =>
    List.getElem?_append_left hk
  have hlen : (line ++ (crlf ++ y)).length = line.length + (2 + y.length) := by
    rw [List.length_append, List.length_append, length_crlf]
  have hcr : 13 ∉ line := by
    intro hmem
    rcases List.getElem?_of_mem hmem with ⟨k, hk⟩
    have hlt := (List.getElem?_eq_some_iff.mp hk).1
    have hnext := (h.2 k (by omega)).mp (by rw [hget k hlt]; exact hk)
    by_cases hk1 : k + 1 < line.length
    · -- with the line feed behind it, it would be a line end within the line
      rw [hget _ hk1] at hnext
      refine hline ⟨line.take k, line.drop (k + 1 + 1), ?_⟩
      have h1 := List.drop_eq_getElem?_toList_append (l := line) (i := k)
      have h2 := List.drop_eq_getElem?_toList_append (l := line) (i := k + 1)
      rw [hk] at h1
      rw [hnext] at h2
      rw [List.append_assoc, hc]
      exact (congrArg (line.take k ++ ·) (h1.trans (by rw [h2]; rfl)).symm).trans
        (List.take_append_drop k line)
    · -- behind the line stands the other one
      rw [show k + 1 = line.length by omega, List.getElem?_append_right (Nat.le_refl _),
        Nat.sub_self, hc] at hnext
      exact absurd (Option.some.inj hnext) (by decide)
  -- a line feed would have a carriage return in front of it
  refine ⟨hcr, fun hmem => ?_⟩
  rcases List.getElem?_of_mem hmem with ⟨k, hk⟩
  have hlt := (List.getElem?_eq_some_iff.mp hk).1
  cases k with
  | zero =>
      refine h.1 ?_
      rw [List.head?_eq_getElem?, hget 0 hlt]
      exact hk
  | succ k =>
      have hprev := (h.2 k (by omega)).mpr (by rw [hget _ hlt]; exact hk)
      rw [hget k (by omega)] at hprev
      exact hcr (List.mem_of_getElem? hprev)

/-- Behind a line end the same holds again. -/
theorem CrlfOnly.rest : CrlfOnly y := by
  have hc : crlf = [13, 10] := by decide
  have hassoc : line ++ (crlf ++ y) = (line ++ crlf) ++ y := by rw [List.append_assoc]
  have hlen : (line ++ crlf).length = line.length + 2 := by rw [List.length_append, length_crlf]
  rw [hassoc] at h
  have hget : ∀ k, ((line ++ crlf) ++ y)[line.length + 2 + k]? = y[k]? := fun k => by
    rw [← hlen, List.getElem?_append_right (Nat.le_add_right _ _), Nat.add_sub_cancel_left]
  constructor
  · intro hhead
    rw [List.head?_eq_getElem?, ← hget 0] at hhead
    have hprev := (h.2 (line.length + 1) (by rw [List.length_append, hlen]; omega)).mpr hhead
    rw [List.getElem?_append_left (by omega), List.getElem?_append_right (by omega),
      Nat.add_sub_cancel_left, hc] at hprev
    exact absurd (Option.some.inj hprev) (by decide)
  · intro i hi
    have hi' := h.2 (line.length + 2 + i) (by rw [List.length_append, hlen]; omega)
    rw [Nat.add_assoc (line.length + 2), hget i, hget (i + 1)] at hi'
    exact hi'

end Split

theorem blank_eq : lit "\r\n\r\n" = crlf ++ crlf := by decide

/-- The end of a header block that does not begin with an empty line is the end of
    what stands behind its first line. -/
theorem endsAtFirstEmptyLine_rest {line y : Str} (hline : ¬ crlf <:+: line)
    (hends : findHeaderEnd (line ++ (crlf ++ y)) = some (line ++ (crlf ++ y)).length) :
    EndsAtFirstEmptyLine y := by
  rcases Option.map_eq_some_iff.mp hends with ⟨i, hi, hlen⟩
  rcases Search.find_eq_some _ _ _ hi with ⟨hocc, hle, hfirst⟩
  rw [blank_eq] at hocc hfirst
  have hassoc : line ++ (crlf ++ y) = (line ++ crlf) ++ y := by rw [List.append_assoc]
  have hl2 : (line ++ crlf).length = line.length + 2 := by rw [List.length_append, length_crlf]
  have hsum : (line ++ (crlf ++ y)).length = line.length + 2 + y.length := by
    rw [hassoc, List.length_append, hl2]
  have hdrop : ∀ j, (line ++ (crlf ++ y)).drop (line.length + 2 + j) = y.drop j := fun j => by
    rw [hassoc, ← hl2, List.drop_append, Nat.add_sub_cancel_left,
      List.drop_eq_nil_of_le (Nat.le_add_right _ _), List.nil_append]
  -- the line end behind the line is the first one
  have hcrlf := (Search.find_eq_some _ _ _ (find_crlf_line line y hline)).2.2
  have hge : line.length ≤ i := by
    by_contra hlt
    exact hcrlf i (by omega) ((List.prefix_append crlf crlf).trans hocc)
  by_cases hstart : crlf <+: y
  · -- then the empty line is here, and nothing stands behind it
    refine .inl ?_
    have hhere : crlf ++ crlf <+: (line ++ (crlf ++ y)).drop line.length := by
      rw [List.drop_left]
      exact (List.prefix_append_right_inj crlf).mpr hstart
    have hi0 : i = line.length := by
      by_contra hne
      exact hfirst line.length (by omega) hhere
    rcases hstart with ⟨z, hz⟩
    have hzlen := congrArg List.length hz
    rw [List.length_append, length_crlf] at hzlen
    have hznil : z = [] := List.length_eq_zero_iff.mp (by omega)
    rw [← hz, hznil, List.append_nil]
  · -- the empty line is neither at the line end of the line nor across it
    refine .inr ⟨hstart, ?_⟩
    have hc : crlf = [13, 10] := by decide
    have hne0 : i ≠ line.length := by
      intro h0
      rw [h0, List.drop_left] at hocc
      exact hstart ((List.prefix_append_right_inj crlf).mp hocc)
    have hne1 : i ≠ line.length + 1 := by
      intro h1
      have hat : (line ++ (crlf ++ y)).drop (line.length + 1) = 10 :: y := by
        rw [List.drop_append, Nat.add_sub_cancel_left, List.drop_eq_nil_of_le (Nat.le_succ _), hc]
        rfl
      rw [h1, hat, hc] at hocc
      exact absurd (List.cons_prefix_cons.mp hocc).1 (by decide)
    have hi2 : i = line.length + 2 + (i - (line.length + 2)) := by omega
    rw [findHeaderEnd, Option.map_eq_some_iff]
    refine ⟨i - (line.length + 2), Search.find_of_first _ y _ ?_ fun j hj hpre => ?_, by omega⟩
    · rw [hi2, hdrop] at hocc
      rw [blank_eq]
      exact hocc
    · refine hfirst (line.length + 2 + j) (by omega) ?_
      rw [hdrop, ← blank_eq]
      exact hpre

/-- A header block has lines. -/
theorem headerBlock_of_ends (h : Str) (hcrlf : CrlfOnly h) (hends : EndsAtFirstEmptyLine h) :
    ∃ ls, h = headerBlock ls ∧ ∀ l ∈ ls, HeaderLine l := by
  induction hlen : h.length using Nat.strongRecOn generalizing h with
  | ind len ih =>
      rcases hends with rfl | ⟨hstart, hend⟩
      · exact ⟨[], rfl, fun l hl => absurd hl List.not_mem_nil⟩
      · rcases Option.map_eq_some_iff.mp hend with ⟨i, hi, _⟩
        have hin : crlf <:+: h := by
          have hocc := (Search.find_eq_some _ _ _ hi).1
          rw [blank_eq] at hocc
          exact ((List.prefix_append crlf crlf).trans hocc).isInfix.trans
            (List.drop_suffix i h).isInfix
        cases hf : Search.find crlf h with
        | none => exact absurd hin ((Search.find_eq_none_iff _ _).mp hf)
        | some j =>
            rcases Search.find_split crlf h j (by decide) hf with ⟨line, y, rfl, _, hline⟩
            have hsingle := hcrlf.single hline
            have hne : line ≠ [] := by
              rintro rfl
              exact hstart (List.prefix_append _ _)
            have hshorter : y.length < len := by
              rw [← hlen, List.length_append, List.length_append, length_crlf]
              omega
            rcases ih y.length hshorter y hcrlf.rest (endsAtFirstEmptyLine_rest hline hend) rfl with
              ⟨ls, hy, hls⟩
            refine ⟨line :: ls, ?_, List.forall_mem_cons.mpr ⟨⟨hne, hsingle.1, hsingle.2⟩, hls⟩⟩
            rw [headerBlock_cons, hy]

/-- The lines of a header block, and the empty one. -/
theorem lines_headerBlock : ∀ (ls : List Str), (∀ l ∈ ls, HeaderLine l) →
    lines (headerBlock ls) = ls ++ [[]] := by
  intro ls
  induction ls with
  | nil => intro _; decide
  | cons l ls ih =>
      intro hls
      rw [List.forall_mem_cons] at hls
      have hrec := ih hls.2
      have hlf : 10 ∉ l ++ [13] := by
        rw [List.mem_append, not_or]
        exact ⟨hls.1.lf, by decide⟩
      have hsplit : headerBlock (l :: ls) = (l ++ [13]) ++ 10 :: headerBlock ls := by
        rw [headerBlock_cons, show crlf = [13, 10] by decide, List.append_assoc]
        rfl
      unfold lines at hrec ⊢
      rw [hsplit, linesFrom_line _ [] _ hlf, hrec, List.nil_append, stripCr,
        if_pos List.getLast?_concat, List.dropLast_concat]
      rfl

/-- Without its last byte a header block holds no empty line. -/
theorem blank_not_infix : ∀ (ls : List Str), (∀ l ∈ ls, HeaderLine l) →
    ¬ crlf ++ crlf <:+: (headerBlock ls).dropLast := by
  have hc : crlf = [13, 10] := by decide
  -- an empty line does not begin within a line
  have hpass : ∀ (l z : Str), 13 ∉ l → crlf ++ crlf <:+: l ++ z → crlf ++ crlf <:+: z := by
    intro l z hl h
    induction l with
    | nil => exact h
    | cons c l ih =>
        rw [List.mem_cons, not_or] at hl
        rcases List.infix_cons_iff.mp h with hpre | hin
        · rw [hc] at hpre
          exact absurd (List.cons_prefix_cons.mp hpre).1 hl.1
        · exact ih hl.2 hin
  intro ls
  induction ls with
  | nil => intro _ h; exact absurd h.length_le (by decide)
  | cons l ls ih =>
      intro hls h
      rw [List.forall_mem_cons] at hls
      have hne : headerBlock ls ≠ [] := List.append_ne_nil_of_right_ne_nil _ (by decide)
      rw [headerBlock_cons, List.dropLast_append_of_ne_nil (by rw [hc]; exact List.cons_ne_nil _ _),
        List.dropLast_append_of_ne_nil hne] at h
      have h := hpass l _ hls.1.cr h
      rw [show crlf ++ (headerBlock ls).dropLast = 13 :: 10 :: (headerBlock ls).dropLast by
        rw [hc]; rfl] at h
      rcases List.infix_cons_iff.mp h with hpre | h
      · -- the line behind the line end is not empty, and begins with no carriage return
        rw [hc] at hpre
        have hpre := (List.cons_prefix_cons.mp (List.cons_prefix_cons.mp hpre).2).2
        cases ls with
        | nil => exact absurd hpre.length_le (by decide)
        | cons l' ls =>
            rw [List.forall_mem_cons] at hls
            rw [headerBlock_cons] at hpre
            cases hl' : l' with
            | nil => exact hls.2.1.nonempty hl'
            | cons c r =>
                rw [hl', List.cons_append, List.dropLast_cons_of_ne_nil (by
                  rw [hc]
                  exact List.append_ne_nil_of_right_ne_nil _ (List.cons_ne_nil _ _))] at hpre
                refine hls.2.1.cr ?_
                rw [hl', ← (List.cons_prefix_cons.mp hpre).1]
                exact List.mem_cons_self
      · rcases List.infix_cons_iff.mp h with hpre | h
        · rw [hc] at hpre
          exact absurd (List.cons_prefix_cons.mp hpre).1 (by decide)
        · exact ih hls.2 h

/-- A header block with lines ends where it ends. -/
theorem findHeaderEnd_headerBlock (ls : List Str) (hne : ls ≠ []) (hls : ∀ l ∈ ls, HeaderLine l)
    (body : Str) : findHeaderEnd (headerBlock ls ++ body) = some (headerBlock ls).length := by
  rcases List.eq_nil_or_concat ls with rfl | ⟨front, l, rfl⟩
  · exact absurd rfl hne
  · -- the last line end and the empty line are the blank line, and the first one
    have hsplit : headerBlock (front.concat l) =
        ((front.map (· ++ crlf)).flatten ++ l) ++ (crlf ++ crlf) := by
      simp only [headerBlock, List.concat_eq_append, List.map_append, List.flatten_append,
        List.map_cons, List.map_nil, List.flatten_cons, List.flatten_nil, List.append_nil,
        List.append_assoc]
    have hno := blank_not_infix (front.concat l) hls
    rw [hsplit, List.dropLast_append_of_ne_nil (by decide)] at hno
    have hfind := (Search.find_append_iff (crlf ++ crlf) _ body (by decide)).mpr hno
    rw [hsplit, findHeaderEnd, blank_eq, List.append_assoc, hfind, Option.map_some,
      @List.length_append _ (_ ++ l)]
    rfl

/-- A line that is kept. -/
def keptHeader (l : Str) : Bool :=
  !omittedHeaders.any fun name => name.isPrefixOf (toLowercase l)

/-- The line that declares the length. -/
def lengthLine (n : Nat) : Str := lit "Content-Length: " ++ decimal n

/-- The line that declines a compressed answer. -/
def encodingLine : Str := lit "Accept-Encoding: identity"

/-- The lines of the new block: the kept ones, and the two that are put in. -/
theorem rebuildHeaders_headerBlock (n : Nat) : ∀ (ls : List Str), (∀ l ∈ ls, HeaderLine l) →
    ∀ fuel, (headerBlock ls).length ≤ fuel → rebuildHeaders n fuel (headerBlock ls) =
      headerBlock (ls.filter keptHeader ++ [lengthLine n, encodingLine]) := by
  intro ls
  induction ls with
  | nil =>
      intro _ fuel hfuel
      cases fuel with
      | zero => exact absurd hfuel (by decide)
      | succ fuel =>
          have hblock : headerBlock [] = crlf := rfl
          have hat : Search.find crlf crlf = some 0 := find_crlf_line [] [] (by decide)
          have hend : lit "\r\nAccept-Encoding: identity\r\n\r\n" =
              crlf ++ (encodingLine ++ (crlf ++ crlf)) := by decide
          rw [hblock, rebuildHeaders, if_neg (by decide), hat]
          dsimp only [Option.getD_some]
          rw [List.take_zero, if_neg (by decide), if_pos List.isEmpty_nil, hend, List.filter_nil,
            List.nil_append, headerBlock_cons, headerBlock_cons, hblock]
          rfl
  | cons l ls ih =>
      intro hls fuel hfuel
      rw [List.forall_mem_cons] at hls
      rw [headerBlock_cons, List.length_append, List.length_append, length_crlf] at hfuel
      have hno : ¬ crlf <:+: l := fun hin => hls.1.cr (hin.subset (by decide))
      cases fuel with
      | zero => exact absurd hfuel (by omega)
      | succ fuel =>
          have hrec := ih hls.2 fuel (by omega)
          have hdrop : (l ++ (crlf ++ headerBlock ls)).drop (l.length + 2) = headerBlock ls := by
            rw [List.drop_append, List.drop_eq_nil_of_le (Nat.le_add_right _ _), List.nil_append,
              Nat.add_sub_cancel_left, ← length_crlf, List.drop_left]
          have hempty : ¬ (l ++ (crlf ++ headerBlock ls)).isEmpty = true := by
            rw [List.isEmpty_iff]
            exact List.append_ne_nil_of_left_ne_nil hls.1.nonempty _
          rw [headerBlock_cons, rebuildHeaders, if_neg hempty, find_crlf_line l _ hno]
          dsimp only [Option.getD_some]
          rw [List.take_left, hdrop, hrec]
          cases homit : omittedHeaders.any fun name => name.isPrefixOf (toLowercase l) with
          | true =>
              have hkept : ¬ keptHeader l = true := by
                rw [keptHeader, homit]
                decide
              rw [if_pos rfl, List.filter_cons_of_neg hkept]
          | false =>
              have hkept : keptHeader l = true := by
                rw [keptHeader, homit]
                rfl
              have hne : ¬ l.isEmpty = true := by
                rw [List.isEmpty_iff]
                exact hls.1.nonempty
              rw [if_neg Bool.false_ne_true, if_neg hne, List.filter_cons_of_pos hkept,
                List.cons_append, headerBlock_cons, List.append_assoc]

/-- In ASCII the lower case is taken byte by byte. -/
theorem toLowercase_ascii : ∀ (s : Str), (∀ b ∈ s, b < 0x80) →
    toLowercase s = s.map fun c => if 65 ≤ c ∧ c ≤ 90 then c + 32 else c := by
  intro s
  induction s with
  | nil => intro _; rfl
  | cons b s ih =>
      intro h
      rw [List.forall_mem_cons] at h
      have hne : ∀ k : UInt8, 0x80 ≤ k → b ≠ k := by
        rintro k hk rfl
        exact absurd h.1 (UInt8.not_lt.mpr hk)
      rw [toLowercase, ih h.2, List.map_cons]
      · exact fun _ hb => absurd hb (hne _ (by decide))
      · exact fun _ hb => absurd hb (hne _ (by decide))

theorem lengthLine_ascii (n : Nat) : ∀ b ∈ lengthLine n, b < 0x80 := by
  intro b hb
  rcases List.mem_append.mp hb with hb | hb
  · exact List.forall_iff_forall_mem.mp
      (by decide : List.Forall (fun b => b < 0x80) (lit "Content-Length: ")) b hb
  · exact UInt8.lt_of_le_of_lt (decimal_digit n b hb).2 (by decide)

/-- The declared length, in lower case. -/
theorem toLowercase_lengthLine (n : Nat) :
    toLowercase (lengthLine n) = lit "content-length:" ++ 32 :: decimal n := by
  have hdigits : (decimal n).map (fun c => if 65 ≤ c ∧ c ≤ 90 then c + 32 else c) = decimal n := by
    refine (List.map_congr_left fun b hb => if_neg fun h => ?_).trans (List.map_id _)
    exact absurd (UInt8.le_trans h.1 (decimal_digit n b hb).2) (by decide)
  rw [toLowercase_ascii _ (lengthLine_ascii n), lengthLine, List.map_append, hdigits,
    show (lit "Content-Length: ").map (fun c => if 65 ≤ c ∧ c ≤ 90 then c + 32 else c) =
      lit "content-length:" ++ [32] by decide, List.append_assoc]
  rfl

theorem headerLine_lengthLine (n : Nat) : HeaderLine (lengthLine n) := by
  have hno : ∀ b, b ∉ lit "Content-Length: " → ¬ (48 ≤ b ∧ b ≤ 57) → b ∉ lengthLine n :=
    fun b hb hd hmem => (List.mem_append.mp hmem).elim hb fun h => hd (decimal_digit n b h)
  exact ⟨List.append_ne_nil_of_left_ne_nil (by decide) _, hno 13 (by decide) (by decide),
    hno 10 (by decide) (by decide)⟩

theorem headerLine_encodingLine : HeaderLine encodingLine :=
  ⟨by decide, by decide, by decide⟩

/-- A valid text for every line is a valid header block. -/
theorem utf8Valid_headerBlock : ∀ (ls : List Str), (∀ l ∈ ls, utf8Valid l = true) →
    utf8Valid (headerBlock ls) = true := by
  intro ls
  induction ls with
  | nil => intro _; decide
  | cons l ls ih =>
      intro h
      rw [List.forall_mem_cons] at h
      rw [headerBlock_cons, utf8Valid_append _ _ h.1, utf8Valid_append _ _ (by decide)]
      exact ih h.2

/-- A kept line starts with none of the names that are left out. -/
theorem keptHeader_name {l name : Str} (h : keptHeader l = true) (hname : name ∈ omittedHeaders) :
    name.isPrefixOf (toLowercase l) = false := by
  rw [keptHeader, Bool.not_eq_true', List.any_eq_false] at h
  exact Bool.eq_false_iff.mpr (h name hname)

section Rebuilt

variable (ls : List Str) (n : Nat)

/-- The lines of a rebuilt block. -/
def rebuiltLines : List Str := ls.filter keptHeader ++ [lengthLine n, encodingLine]

theorem forall_rebuiltLines {P : Str → Prop} (hls : ∀ l ∈ ls, P l) (hlength : P (lengthLine n))
    (hencoding : P encodingLine) : ∀ l ∈ rebuiltLines ls n, P l := by
  intro l hl
  rcases List.mem_append.mp hl with hl | hl
  · exact hls l (List.mem_filter.mp hl).1
  · rcases List.mem_cons.mp hl with rfl | hl
    · exact hlength
    · rw [List.mem_singleton.mp hl]
      exact hencoding

theorem lengthLine_name :
    (lit "content-length:").isPrefixOf (toLowercase (lengthLine n)) = true := by
  rw [toLowercase_lengthLine, List.isPrefixOf_iff_prefix]
  exact List.prefix_append _ _

/-- No kept line has the given name. -/
theorem filter_keptHeader_name {name : Str} (hname : name ∈ omittedHeaders) :
    ∀ l ∈ ls.filter keptHeader, ¬ name.isPrefixOf (toLowercase l) = true := by
  intro l hl
  rw [keptHeader_name (List.mem_filter.mp hl).2 hname]
  exact Bool.false_ne_true

/-- The only line that declares a length is the one that was put in. -/
theorem lengthLines_rebuilt : ((rebuiltLines ls n ++ [[]]).filter fun l =>
    (lit "content-length:").isPrefixOf (toLowercase l)) = [lengthLine n] := by
  rw [rebuiltLines, List.filter_append, List.filter_append,
    List.filter_eq_nil_iff.mpr (filter_keptHeader_name ls (by decide)), List.nil_append,
    List.filter_cons, if_pos (lengthLine_name n)]
  exact congrArg (lengthLine n :: ·) (by decide : ([encodingLine] ++ [[]]).filter
    (fun l => (lit "content-length:").isPrefixOf (toLowercase l)) = [])

/-- The lines that are kept are those that were kept. -/
theorem filter_rebuiltLines :
    (rebuiltLines ls n ++ [[]]).filter keptHeader = (ls ++ [[]]).filter keptHeader := by
  have hlen : ¬ keptHeader (lengthLine n) = true := fun h =>
    absurd ((keptHeader_name h (by decide)).symm.trans (lengthLine_name n)) Bool.false_ne_true
  rw [rebuiltLines, List.filter_append, List.filter_append, List.filter_filter, List.filter_append,
    List.filter_cons_of_neg hlen, List.filter_cons_of_neg (by decide), List.filter_nil,
    List.append_nil]
  simp only [Bool.and_self]

theorem parseContentLength_rebuilt (hvalid : utf8Valid (headerBlock (rebuiltLines ls n)) = true)
    (hlines : lines (headerBlock (rebuiltLines ls n)) = rebuiltLines ls n ++ [[]])
    (hn : n < 2 ^ 64) : parseContentLength (headerBlock (rebuiltLines ls n)) = some n := by
  have hfind : (rebuiltLines ls n ++ [[]]).find? (fun line =>
      (lit "content-length:").isPrefixOf (toLowercase line)) = some (lengthLine n) := by
    rw [← List.head?_filter, lengthLines_rebuilt]
    rfl
  have hdrop : (toLowercase (lengthLine n)).drop 15 = 32 :: decimal n := by
    rw [toLowercase_lengthLine, show 15 = (lit "content-length:").length by decide, List.drop_left]
  have htrim : Trimmed (decimal n) := trimmed_of_forall _ fun b hb hw => by
    have hno : ∀ c ∈ whitespace.flatten, ¬ (48 ≤ c ∧ c ≤ 57) :=
      List.forall_iff_forall_mem.mp (by decide)
    exact hno b hw (decimal_digit n b hb)
  unfold parseContentLength
  rw [if_pos hvalid, hlines, hfind]
  dsimp only
  rw [hdrop, trim_space _ htrim, Storage.fromStrRadix_decimal n hn]

theorem isChunkedEncoding_rebuilt
    (hlines : lines (headerBlock (rebuiltLines ls n)) = rebuiltLines ls n ++ [[]]) :
    isChunkedEncoding (headerBlock (rebuiltLines ls n)) = false := by
  have hno : hasHeader (lit "transfer-encoding:") (lit "chunked")
      (headerBlock (rebuiltLines ls n)) = false := by
    rw [hasHeader, hlines, List.any_eq_false]
    intro l hl hboth
    have hname := (Bool.and_eq_true_iff.mp hboth).1
    rw [rebuiltLines, List.append_assoc, List.mem_append] at hl
    -- a kept line, or one of the two that were put in
    rcases hl with hl | hl
    · exact filter_keptHeader_name ls (by decide) l hl hname
    · rw [List.cons_append, List.mem_cons] at hl
      rcases hl with rfl | hl
      · rw [toLowercase_lengthLine, List.isPrefixOf_iff_prefix] at hname
        exact absurd (List.cons_prefix_cons.mp hname).1 (by decide)
      · revert hname
        exact List.forall_iff_forall_mem.mp (by decide : List.Forall
          (fun l => ¬ (lit "transfer-encoding:").isPrefixOf (toLowercase l) = true)
          ([encodingLine] ++ [[]])) l hl
  rw [isChunkedEncoding, hno, Bool.and_false]

end Rebuilt

/-- A rebuilt request is framed by its own headers: they end where the body
    begins, declare its length and no transfer coding, and keep every other
    line. -/
theorem rebuilt_framed (h body : Str) (hvalid : utf8Valid h = true) (hcrlf : CrlfOnly h)
    (hends : EndsAtFirstEmptyLine h) (hbody : body.length < 2 ^ 64) :
    ∃ e, findHeaderEnd (rebuildRequestWithContentLength h body) = some e ∧
      (rebuildRequestWithContentLength h body).drop e = body ∧
      parseContentLength ((rebuildRequestWithContentLength h body).take e) = some body.length ∧
      isChunkedEncoding ((rebuildRequestWithContentLength h body).take e) = false ∧
      ((lines ((rebuildRequestWithContentLength h body).take e)).filter fun l =>
        (lit "content-length:").isPrefixOf (toLowercase l)).length = 1 ∧
      (lines ((rebuildRequestWithContentLength h body).take e)).filter keptHeader =
        (lines h).filter keptHeader := by
  rcases headerBlock_of_ends h hcrlf hends with ⟨ls, rfl, hls⟩
  have hlines := lines_headerBlock ls hls
  have hnew : ∀ l ∈ rebuiltLines ls body.length, HeaderLine l :=
    forall_rebuiltLines ls _ hls (headerLine_lengthLine _) headerLine_encodingLine
  have hnewlines := lines_headerBlock _ hnew
  have hnewvalid : utf8Valid (headerBlock (rebuiltLines ls body.length)) = true := by
    refine utf8Valid_headerBlock _ (forall_rebuiltLines ls _ (fun l hl => ?_) ?_ (by decide))
    · refine utf8Valid_lines _ hvalid l ?_
      rw [hlines]
      exact List.mem_append_left _ hl
    · exact utf8Valid_of_ascii _ (lengthLine_ascii _)
  have hr : rebuildRequestWithContentLength (headerBlock ls) body =
      headerBlock (rebuiltLines ls body.length) ++ body := by
    rw [rebuildRequestWithContentLength, if_pos hvalid,
      rebuildHeaders_headerBlock _ ls hls _ (Nat.le_refl _)]
    rfl
  have hne : rebuiltLines ls body.length ≠ [] :=
    List.append_ne_nil_of_right_ne_nil _ (List.cons_ne_nil _ _)
  refine ⟨(headerBlock (rebuiltLines ls body.length)).length, ?_, ?_, ?_⟩
  · rw [hr]
    exact findHeaderEnd_headerBlock _ hne hnew body
  · rw [hr, List.drop_left]
  · rw [hr, List.take_left]
    refine ⟨parseContentLength_rebuilt _ _ hnewvalid hnewlines hbody,
      isChunkedEncoding_rebuilt _ _ hnewlines, ?_, ?_⟩
    · rw [hnewlines, lengthLines_rebuilt]
      rfl
    · rw [hnewlines, hlines, filter_rebuiltLines]

/-- A chunked request whose body was decoded to two bytes. -/
theorem rebuilt_framed_two :
    ∃ e, findHeaderEnd (rebuildRequestWithContentLength
        (lit "POST / HTTP/1.1\r\nTransfer-Encoding: chunked\r\nHost: a\r\n\r\n") (lit "hi")) = some e ∧
      parseContentLength ((rebuildRequestWithContentLength
        (lit "POST / HTTP/1.1\r\nTransfer-Encoding: chunked\r\nHost: a\r\n\r\n") (lit "hi")).take e) =
          some 2 := by
  rcases rebuilt_framed (lit "POST / HTTP/1.1\r\nTransfer-Encoding: chunked\r\nHost: a\r\n\r\n")
    (lit "hi") (by decide) (by decide) (by decide) (by decide) with ⟨e, he, _, hlen, _⟩
  exact ⟨e, he, hlen⟩

end PrivacyClaw
