import PrivacyClaw.Core.NetworkHelper
import PrivacyClaw.Theory.Persistence
import PrivacyClaw.Theory.Trimming

/-!
# Enabling and Disabling

What is left of a hosts file when the entries are added and removed again.

Entries are appended to the text but removed by line. Behind a line feed that is
the same, but a last line without one takes up the first entry, is removed
with it, and is no entry when the proxy is enabled again. Lines are also written
back with a line feed alone, which a reader takes together with a carriage return
in front of it; and a domain with a line feed in it is no line at all. Apart from
these nothing goes wrong (`hosts_restored_iff`).

## Main definitions

* `hostsLines`: The entries of some domains.

## Theorems

* `stripCr_eq_self_iff`: A line that is read back as it is.
* `mem_lines_iff`, `head_lines`: The bytes of the lines, and the first one.
* `lines_append_cut`: Lines of a text that is continued.
* `buildHostsEntries_eq`, `removePrivacyclawLines_eq`: Both functions by lines.
* `tag_hostsLine`, `trimmed_hostsLine`: The form of an entry.
* `hosts_restored_iff`: When disabling undoes enabling, and enabling twice is
  enabling once.
-/

namespace PrivacyClaw

/-- Both entries of every domain. -/
def hostsLines (domains : List Str) : List Str :=
  domains.flatMap fun d => [hostsLine (lit "127.0.0.1") d, hostsLine (lit "::1") d]

theorem contains_iff (needle s : Str) : contains needle s = true ↔ needle <:+: s := by
  rw [contains, ← Bool.not_eq_false, Option.isSome_eq_false_iff, Option.isNone_iff_eq_none,
    Search.find_eq_none_iff, not_not]

theorem stripCr_eq_self_iff (l : Str) : stripCr l = l ↔ l.getLast? ≠ some 13 := by
  unfold stripCr
  by_cases h : l.getLast? = some 13
  · rw [if_pos h]
    refine iff_of_false (fun heq => ?_) (not_not.mpr h)
    have hlen := congrArg List.length heq
    rw [List.length_dropLast] at hlen
    rw [List.length_eq_zero_iff.mp (show l.length = 0 by omega)] at h
    exact absurd h (by decide)
  · rw [if_neg h]
    exact iff_of_true rfl h

/-- The bytes of a text other than those of line breaks are the bytes of its
    lines. -/
theorem mem_linesFrom_iff (b : UInt8) (h10 : b ≠ 10) (h13 : b ≠ 13) : ∀ s acc : Str,
    (∃ l ∈ linesFrom acc s, b ∈ l) ↔ b ∈ acc ++ s := by
  have hstrip : ∀ l : Str, b ∈ stripCr l ↔ b ∈ l := by
    intro l
    unfold stripCr
    by_cases hl : l.getLast? = some 13
    · rcases List.getLast?_eq_some_iff.mp hl with ⟨r, rfl⟩
      rw [if_pos hl, List.dropLast_concat, List.mem_append, List.mem_singleton, or_iff_left h13]
    · rw [if_neg hl]
  intro s
  induction s with
  | nil =>
      intro acc
      rw [linesFrom, List.append_nil]
      by_cases hacc : acc = []
      · rw [if_pos hacc, hacc]
        simp only [List.not_mem_nil, false_and, exists_false]
      · rw [if_neg hacc]
        simp only [List.mem_singleton, exists_eq_left]
  | cons c s ih =>
      intro acc
      by_cases hc : c = 10
      · have hline := linesFrom_line [] acc s List.not_mem_nil
        rw [List.nil_append, List.append_nil] at hline
        have hrest := ih []
        rw [List.nil_append] at hrest
        rw [hc, hline, List.mem_append, List.mem_cons, or_iff_right h10, ← hrest, ← hstrip acc]
        simp only [List.mem_cons, exists_eq_or_imp]
      · rw [linesFrom, if_neg hc, ih, List.append_assoc]
        rfl

theorem mem_lines_iff (b : UInt8) (h10 : b ≠ 10) (h13 : b ≠ 13) (c : Str) :
    (∃ l ∈ lines c, b ∈ l) ↔ b ∈ c :=
  mem_linesFrom_iff b h10 h13 c []

/-- A text and its first line begin with the same byte, unless that belongs to a line
    break. -/
theorem head_linesFrom (b : UInt8) (h13 : b ≠ 13) : ∀ s acc : Str, acc ≠ [] →
    ((linesFrom acc s).head?.bind List.head? = some b ↔ acc.head? = some b) := by
  intro s
  induction s with
  | nil =>
      intro acc hacc
      rw [linesFrom, if_neg hacc]
      exact Iff.rfl
  | cons c s ih =>
      intro acc hacc
      rw [linesFrom]
      by_cases hc : c = 10
      · rw [if_pos hc, List.head?_cons, Option.bind_some]
        by_cases hlast : acc.getLast? = some 13
        · rcases List.getLast?_eq_some_iff.mp hlast with ⟨r, rfl⟩
          rw [if_pos hlast, List.dropLast_concat]
          cases r with
          | nil =>
              -- a carriage return alone
              rw [List.nil_append, List.head?_nil, List.head?_cons, Option.some.injEq]
              exact iff_of_false (by simp only [reduceCtorEq, not_false_eq_true]) (Ne.symm h13)
          | cons d r => exact Iff.rfl
        · rw [if_neg hlast]
      · rw [if_neg hc, ih _ (List.concat_ne_nil c acc)]
        cases acc with
        | nil => exact absurd rfl hacc
        | cons d acc => exact Iff.rfl

theorem head_lines (b : UInt8) (h10 : b ≠ 10) (h13 : b ≠ 13) (c : Str) :
    (lines c).head?.bind List.head? = some b ↔ c.head? = some b := by
  cases c with
  | nil => exact Iff.rfl
  | cons d s =>
      rw [lines, linesFrom]
      by_cases hd : d = 10
      · rw [if_pos hd, hd]
        refine iff_of_false (by simp) ?_
        rw [List.head?_cons, Option.some.injEq]
        exact Ne.symm h10
      · rw [if_neg hd, List.nil_append, head_linesFrom b h13 s [d] (List.cons_ne_nil d [])]
        exact Iff.rfl

/-- Up to its last line break a text is cut into lines whatever follows. -/
theorem lines_append_cut (c : Str) : ∃ ls t, 10 ∉ t ∧ (t = [] ↔ c = [] ∨ c.getLast? = some 10) ∧
    ∀ s, lines (c ++ s) = ls ++ linesFrom t s := by
  induction c using List.reverseRecOn with
  | nil => exact ⟨[], [], List.not_mem_nil, by simp only [true_or], fun _ => rfl⟩
  | append_singleton c b ih =>
      rcases ih with ⟨ls, t, ht, _, hcut⟩
      have hcons : ∀ s, (c ++ [b]) ++ s = c ++ b :: s := fun s => by
        rw [List.append_assoc, List.singleton_append]
      by_cases hb : b = 10
      · -- the line break ends the line begun in `t`
        refine ⟨ls ++ [stripCr t], [], List.not_mem_nil, ?_, fun s => ?_⟩
        · rw [List.getLast?_concat, hb]
          simp only [or_true]
        · rw [hcons, hcut, hb, List.append_assoc]
          exact congrArg (ls ++ ·) (linesFrom_line [] t s List.not_mem_nil |>.trans
            (by rw [List.append_nil]; rfl))
      · refine ⟨ls, t ++ [b], ?_, ?_, fun s => ?_⟩
        · rw [List.mem_append, List.mem_singleton, not_or]
          exact ⟨ht, fun h => hb h.symm⟩
        · rw [List.getLast?_concat, Option.some.injEq]
          simp only [List.append_eq_nil_iff, List.cons_ne_self, and_false, hb, or_self]
        · rw [hcons, hcut, linesFrom, if_neg hb]

/-- Appending the lines that are wanted, one after the other. -/
theorem foldl_logText (p : Str → Bool) (ls : List Str) : ∀ out : Str,
    ls.foldl (fun out l => if p l then out else out ++ l ++ lit "\n") out =
      out ++ logText (ls.filter fun l => !p l) := by
  induction ls with
  | nil => exact fun out => (List.append_nil out).symm
  | cons l ls ih =>
      intro out
      rw [List.foldl_cons, ih]
      cases hp : p l with
      | true => rw [if_pos rfl, List.filter_cons_of_neg (by rw [hp]; decide)]
      | false =>
          rw [if_neg Bool.false_ne_true, List.filter_cons_of_pos (by rw [hp]; rfl), logText_cons,
            List.append_assoc, List.append_assoc]
          rfl

/-- The entries that are not there yet, each on its own line. -/
theorem buildHostsEntries_eq (domains : List Str) (content : Str) :
    buildHostsEntries domains content = logText ((hostsLines domains).filter fun line =>
      !(lines content).any fun l => trim l == trim line) := by
  have h := foldl_logText (fun line => (lines content).any fun l => trim l == trim line)
    (hostsLines domains) []
  rw [List.nil_append, hostsLines, List.foldl_flatMap] at h
  exact h

/-- The lines without the tag, each ended by a line feed. -/
theorem removePrivacyclawLines_eq (content : Str) : removePrivacyclawLines content =
    logText ((lines content).filter fun l => !contains privacyclawTag l) := by
  have hall : ∀ (ls : List Str) (out : Str),
      ls.foldl (fun acc l => acc ++ l ++ lit "\n") out = out ++ logText ls := by
    intro ls out
    have h := foldl_logText (fun _ => false) ls out
    simp only [Bool.false_eq_true, if_false, Bool.not_false, List.filter_true] at h
    exact h
  rw [removePrivacyclawLines, hall, List.nil_append]

theorem tag_hostsLine (addr d : Str) : privacyclawTag <:+ hostsLine addr d :=
  ⟨addr ++ lit "  " ++ d ++ lit "  ", rfl⟩

/-- An entry ends with the last letter of the tag. -/
theorem getLast?_hostsLine (addr d : Str) : (hostsLine addr d).getLast? = some 119 := by
  have htag : privacyclawTag = lit "# privacycla" ++ [119] := by decide
  rw [hostsLine, htag, ← List.append_assoc, List.getLast?_concat]

/-- There is no white space at the ends of an entry. -/
theorem trimmed_hostsLine (c : UInt8) (r d : Str)
    (hc : ∀ w ∈ whitespace, w.head?.any (· != c) = true) : Trimmed (hostsLine (c :: r) d) where
  front := not_prefix_of_head whitespace c _ hc
  back w hw hp := by
    rcases List.getLast?_eq_some_iff.mp (getLast?_hostsLine (c :: r) d) with ⟨s, hs⟩
    rw [hs, ← List.reverse_prefix, List.reverse_append] at hp
    exact not_prefix_of_head (whitespace.map List.reverse) 119 s.reverse (by decide) w.reverse
      (List.mem_map_of_mem hw) hp

theorem mem_hostsLines (domains : List Str) (line : Str) (h : line ∈ hostsLines domains) :
    Trimmed line ∧ privacyclawTag <:+: line ∧ line.getLast? = some 119 ∧
      ((∀ d ∈ domains, 10 ∉ d) → 10 ∉ line) := by
  have h4 : lit "127.0.0.1" = 49 :: lit "27.0.0.1" := by decide
  have h6 : lit "::1" = 58 :: lit ":1" := by decide
  have hfeed : ∀ addr d : Str, 10 ∉ addr → 10 ∉ d → 10 ∉ hostsLine addr d := by
    intro addr d haddr hd hmem
    have htag : 10 ∉ lit "  " ∧ 10 ∉ privacyclawTag := by decide
    simp only [hostsLine, List.mem_append, haddr, hd, htag.1, htag.2, or_self] at hmem
  rcases List.mem_flatMap.mp h with ⟨d, hd, hmem⟩
  rcases List.mem_cons.mp hmem with rfl | hmem
  · refine ⟨?_, (tag_hostsLine _ d).isInfix, getLast?_hostsLine _ d, fun hall => ?_⟩
    · rw [h4]
      exact trimmed_hostsLine 49 _ d (by decide)
    · exact hfeed _ d (by decide) (hall d hd)
  · rw [List.mem_singleton.mp hmem]
    refine ⟨?_, (tag_hostsLine _ d).isInfix, getLast?_hostsLine _ d, fun hall => ?_⟩
    · rw [h6]
      exact trimmed_hostsLine 58 _ d (by decide)
    · exact hfeed _ d (by decide) (hall d hd)

/-- An entry is one line when its domain is. -/
theorem hostsLines_single (domains : List Str) (hfeed : ∀ d ∈ domains, 10 ∉ d) :
    ∀ line ∈ hostsLines domains, 10 ∉ line :=
  fun line hline => (mem_hostsLines domains line hline).2.2.2 hfeed

/-- No line of an untagged text is tagged. -/
theorem not_tagged_of_mem (c : Str) (hc : contains privacyclawTag c = false) :
    ∀ l ∈ lines c, ¬ privacyclawTag <:+: l := by
  intro l hl hin
  rw [← Bool.not_eq_true, contains_iff] at hc
  exact hc (hin.trans (linesFrom_part c [] l hl))

/-- In an untagged text no entry is there already. -/
theorem buildHostsEntries_untagged (domains : List Str) (c : Str)
    (hc : contains privacyclawTag c = false) :
    buildHostsEntries domains c = logText (hostsLines domains) := by
  rw [buildHostsEntries_eq]
  refine congrArg logText (List.filter_eq_self.mpr ?_)
  intro line hline
  rw [Bool.not_eq_true', List.any_eq_false]
  intro l hl heq
  rcases mem_hostsLines domains line hline with ⟨htrim, htag, _⟩
  rw [beq_iff_eq, trim_eq_self line htrim] at heq
  exact not_tagged_of_mem c hc l hl (htag.trans (heq ▸ trim_within l))

/-- Nothing is added exactly when every entry is a line. -/
theorem buildHostsEntries_eq_nil_iff (domains : List Str) (content : Str) :
    buildHostsEntries domains content = [] ↔
      ∀ line ∈ hostsLines domains, ∃ l ∈ lines content, trim l = line := by
  have hnil : ∀ ls : List Str, logText ls = [] ↔ ls = [] := by
    intro ls
    cases ls with
    | nil => exact ⟨fun _ => rfl, fun _ => rfl⟩
    | cons l ls => simp only [logText_cons, List.append_eq_nil_iff, reduceCtorEq, and_false]
  rw [buildHostsEntries_eq, hnil, List.filter_eq_nil_iff]
  refine forall_congr' fun line => forall_congr' fun hline => ?_
  rw [trim_eq_self line (mem_hostsLines domains line hline).1, Bool.not_eq_true, Bool.not_eq_false',
    List.any_eq_true]
  simp only [beq_iff_eq]

/-- An entry is read back as it was written. -/
theorem map_stripCr_hostsLines (domains : List Str) :
    (hostsLines domains).map stripCr = hostsLines domains := by
  refine (List.map_congr_left fun line hline => ?_).trans (List.map_id _)
  rw [stripCr, (mem_hostsLines domains line hline).2.2.1, if_neg (by decide)]
  rfl

/-- Where the entries begin a line, removing them leaves the lines of the
    content, without a carriage return at their ends. -/
theorem lines_remove (domains : List Str) (c : Str) (hc : contains privacyclawTag c = false)
    (hfeed : ∀ d ∈ domains, 10 ∉ d)
    (hsplit : lines (c ++ logText (hostsLines domains)) =
      lines c ++ lines (logText (hostsLines domains))) :
    lines (removePrivacyclawLines (c ++ logText (hostsLines domains))) =
      (lines c).map stripCr := by
  -- the lines of the content stay, the entries go
  have hclean : (lines c).filter (fun l => !contains privacyclawTag l) = lines c := by
    refine List.filter_eq_self.mpr ?_
    intro l hl
    rw [Bool.not_eq_true', ← Bool.not_eq_true, contains_iff]
    exact not_tagged_of_mem c hc l hl
  have htagged : (hostsLines domains).filter (fun l => !contains privacyclawTag l) = [] := by
    refine List.filter_eq_nil_iff.mpr ?_
    intro l hl
    rw [Bool.not_eq_true', Bool.not_eq_false, contains_iff]
    exact (mem_hostsLines domains l hl).2.1
  rw [removePrivacyclawLines_eq, hsplit, lines_logText _ (hostsLines_single domains hfeed),
    map_stripCr_hostsLines, List.filter_append, hclean, htagged, List.append_nil,
    lines_logText _ (lines_single c)]

/-- Behind a last line without a line feed the first entry is lost with it. -/
theorem lines_remove_open (domains : List Str) (c : Str) (hc : c ≠ []) (hopen : c.getLast? ≠ some 10)
    (hne : domains ≠ []) (hfeed : ∀ d ∈ domains, 10 ∉ d) :
    lines (removePrivacyclawLines (c ++ logText (hostsLines domains))) ≠ lines c := by
  rcases lines_append_cut c with ⟨ls, t, ht, hnil, hcut⟩
  have htne : t ≠ [] := fun h => (hnil.mp h).elim hc hopen
  rcases List.exists_cons_of_ne_nil hne with ⟨d, ds, rfl⟩
  have hlines : lines c = ls ++ [t] := by
    have h := hcut []
    rw [List.append_nil, linesFrom, if_neg htne] at h
    exact h
  have hcons : hostsLines (d :: ds) = hostsLine (lit "127.0.0.1") d ::
      hostsLine (lit "::1") d :: hostsLines ds := rfl
  have hfirst : 10 ∉ hostsLine (lit "127.0.0.1") d :=
    hostsLines_single (d :: ds) hfeed _ (hcons ▸ List.mem_cons_self)
  -- the first entry stands on the last line of the content
  have hglue : lines (c ++ logText (hostsLines (d :: ds))) =
      ls ++ (t ++ hostsLine (lit "127.0.0.1") d) ::
        lines (logText (hostsLine (lit "::1") d :: hostsLines ds)) := by
    have hlast : (t ++ hostsLine (lit "127.0.0.1") d).getLast? = some 119 := by
      rw [List.getLast?_append, getLast?_hostsLine, Option.some_or]
    rw [hcut, hcons, logText_cons, linesFrom_line _ _ _ hfirst, stripCr, hlast,
      if_neg (by decide)]
    rfl
  have hrest : (lines (logText (hostsLine (lit "::1") d :: hostsLines ds))).filter
      (fun l => !contains privacyclawTag l) = [] := by
    rw [lines_logText _ fun l hl => hostsLines_single (d :: ds) hfeed l
      (hcons ▸ List.mem_cons_of_mem _ hl)]
    refine List.filter_eq_nil_iff.mpr ?_
    intro l hl
    rcases List.mem_map.mp hl with ⟨line, hline, rfl⟩
    rcases mem_hostsLines (d :: ds) line (hcons ▸ List.mem_cons_of_mem _ hline) with
      ⟨_, htag, hlast, _⟩
    rw [Bool.not_eq_true', Bool.not_eq_false, contains_iff, stripCr, hlast, if_neg (by decide)]
    exact htag
  have hglued : contains privacyclawTag (t ++ hostsLine (lit "127.0.0.1") d) = true :=
    (contains_iff _ _).mpr (((tag_hostsLine _ d).trans (List.suffix_append t _)).isInfix)
  intro h
  -- the last line goes with the entry, so there are fewer lines
  have hlen := congrArg List.length h
  rw [removePrivacyclawLines_eq, hglue, List.filter_append,
    List.filter_cons_of_neg (by rw [hglued]; decide), hrest, List.append_nil,
    lines_logText _ (fun l hl => ?_), List.length_map, hlines, List.length_append,
    List.length_singleton] at hlen
  · have := List.length_filter_le (fun l => !contains privacyclawTag l) ls
    omega
  · refine lines_single c l ?_
    rw [hlines]
    exact List.mem_append_left _ (List.mem_filter.mp hl).1

/-- The entries begin a line, or there are none. -/
theorem lines_append_hostsLines (domains : List Str) (c : Str)
    (hend : domains = [] ∨ c = [] ∨ c.getLast? = some 10) :
    lines (c ++ logText (hostsLines domains)) = lines c ++ lines (logText (hostsLines domains)) := by
  rcases hend with rfl | hend
  · rw [show logText (hostsLines []) = [] from rfl, List.append_nil]
    exact (List.append_nil _).symm
  · rcases lines_append_cut c with ⟨ls, t, _, hnil, hcut⟩
    have hc := hcut []
    rw [List.append_nil, hnil.mpr hend] at hc
    rw [hcut, hnil.mpr hend, hc, linesFrom, if_pos rfl, List.append_nil]
    rfl

/-- Disabling undoes enabling and enabling twice is enabling once, exactly when
    no line ends with a carriage return, no domain holds a line feed, and the
    entries begin a line. -/
theorem hosts_restored_iff (c : Str) (domains : List Str)
    (hc : contains privacyclawTag c = false) :
    (lines (removePrivacyclawLines (c ++ buildHostsEntries domains c)) = lines c ∧
      buildHostsEntries domains (c ++ buildHostsEntries domains c) = []) ↔
    (∀ l ∈ lines c, l.getLast? ≠ some 13) ∧ (∀ d ∈ domains, 10 ∉ d) ∧
      (domains = [] ∨ c = [] ∨ c.getLast? = some 10) := by
  rw [buildHostsEntries_untagged domains c hc, buildHostsEntries_eq_nil_iff]
  constructor
  · rintro ⟨hlines, hthere⟩
    have hfeed : ∀ d ∈ domains, 10 ∉ d := by
      intro d hd h10
      have hline : hostsLine (lit "127.0.0.1") d ∈ hostsLines domains :=
        List.mem_flatMap.mpr ⟨d, hd, List.mem_cons_self⟩
      rcases hthere _ hline with ⟨l, hl, htrim⟩
      -- the line break would be inside a line
      refine lines_single _ l hl ((trim_within l).subset ?_)
      rw [htrim]
      simp only [hostsLine, List.mem_append, h10, or_true, true_or]
    -- else the first entry is glued to the last line
    have hend : domains = [] ∨ c = [] ∨ c.getLast? = some 10 := by
      by_contra hno
      rw [not_or, not_or] at hno
      exact lines_remove_open domains c hno.2.1 hno.2.2 hno.1 hfeed hlines
    rw [lines_remove domains c hc hfeed (lines_append_hostsLines domains c hend)] at hlines
    refine ⟨fun l hl => ?_, hfeed, hend⟩
    rw [← stripCr_eq_self_iff]
    exact List.map_eq_map_iff.mp (hlines.trans (List.map_id _).symm) l hl
  · rintro ⟨hcr, hfeed, hend⟩
    have hsplit := lines_append_hostsLines domains c hend
    constructor
    · rw [lines_remove domains c hc hfeed hsplit]
      exact (List.map_congr_left fun l hl => (stripCr_eq_self_iff l).mpr (hcr l hl)).trans (List.map_id _)
    · intro line hline
      refine ⟨line, ?_, trim_eq_self line (mem_hostsLines domains line hline).1⟩
      rw [hsplit, lines_logText _ (hostsLines_single domains hfeed), map_stripCr_hostsLines]
      exact List.mem_append_right _ hline

/-- A file that ends with a line feed, and two domains: it comes back, and a second
    time nothing is added. -/
theorem hosts_restored_iff_localhost :
    ((∀ l ∈ lines (lit "127.0.0.1 localhost\n"), l.getLast? ≠ some 13) ∧
      (∀ d ∈ [lit "api.openai.com", lit "api.anthropic.com"], 10 ∉ d) ∧
      ([lit "api.openai.com", lit "api.anthropic.com"] = [] ∨ lit "127.0.0.1 localhost\n" = [] ∨
        (lit "127.0.0.1 localhost\n").getLast? = some 10)) ∧
    lines (removePrivacyclawLines (lit "127.0.0.1 localhost\n" ++
      buildHostsEntries [lit "api.openai.com", lit "api.anthropic.com"]
        (lit "127.0.0.1 localhost\n"))) = lines (lit "127.0.0.1 localhost\n") ∧
    buildHostsEntries [lit "api.openai.com", lit "api.anthropic.com"]
      (lit "127.0.0.1 localhost\n" ++
        buildHostsEntries [lit "api.openai.com", lit "api.anthropic.com"]
          (lit "127.0.0.1 localhost\n")) = [] := by
  have hiff := hosts_restored_iff (lit "127.0.0.1 localhost\n")
    [lit "api.openai.com", lit "api.anthropic.com"] (by decide)
  have hcond : (∀ l ∈ lines (lit "127.0.0.1 localhost\n"), l.getLast? ≠ some 13) ∧
      (∀ d ∈ [lit "api.openai.com", lit "api.anthropic.com"], 10 ∉ d) ∧
      ([lit "api.openai.com", lit "api.anthropic.com"] = [] ∨ lit "127.0.0.1 localhost\n" = [] ∨
        (lit "127.0.0.1 localhost\n").getLast? = some 10) := by decide
  exact ⟨hcond, hiff.mpr hcond⟩

/-- Without the line feed the entry for the host itself is gone afterwards. -/
theorem hosts_not_restored :
    removePrivacyclawLines (lit "127.0.0.1 localhost" ++
      buildHostsEntries [lit "api.openai.com"] (lit "127.0.0.1 localhost")) = [] ∧
    ¬ ∀ (c : Str) (domains : List Str), contains privacyclawTag c = false →
      lines (removePrivacyclawLines (c ++ buildHostsEntries domains c)) = lines c ∧
        buildHostsEntries domains (c ++ buildHostsEntries domains c) = [] := by
  refine ⟨by decide, fun hall => ?_⟩
  have h := (hall (lit "127.0.0.1 localhost") [lit "api.openai.com"] (by decide)).1
  exact absurd h (by decide)

end PrivacyClaw
