import PrivacyClaw.Theory.PfConf

/-!
# What the Privileged Scripts Write

Whether the bytes that the scripts of `enable` and `disable` write to `pf.conf`
and to the hosts file are the ones that were computed.

The quotes do their part: whatever a content holds, the shell reads it back as
one word (`read_enableScript`, `read_disableScript`). But the word is the format
of `printf`, not an argument to it. A backslash or a percent sign is never
written as it is, a content that begins with a hyphen may be taken for options,
and a script with a zero byte is not run. The contents come from files of the
user, and what the scripts write is right exactly when nothing of this is in them
(`scripts_verbatim_iff`).

## Main definitions

* `PrintsItself`: A text that comes out of `printf` as it is.
* `printTo`, `quiet`, `enableCommands`, `disableCommands`: The commands of the
  scripts.
* `WritesVerbatim`: A script writes what it is meant to.

## Theorems

* `read_enableScript`, `read_disableScript`: What the shell makes of the scripts.
* `enable_verbatim_iff`, `disable_verbatim_iff`: The contents that are written as
  they are.
* `scripts_verbatim_iff`: The same by what is in the files.
-/

namespace PrivacyClaw

open Shell Transducer

def anchorPath : Str := lit "/etc/pf.anchors/privacyclaw"

def pfConfPath : Str := lit "/etc/pf.conf"

def hostsPath : Str := lit "/etc/hosts"

/-- The bytes that are never written as they are: a backslash, a percent sign and
    zero. -/
def marks : Str := [92, 37, 0]

def Unmarked (s : Str) : Prop := ∀ b ∈ marks, b ∉ s

/-- A text that `printf` writes as it is, from a script that can be run. -/
structure PrintsItself (s : Str) : Prop where
  unmarked : Unmarked s
  hyphen : s.head? ≠ some 45

theorem PrintsItself.zero {s : Str} (h : PrintsItself s) : 0 ∉ s := h.unmarked 0 (by decide)

theorem printsItself_iff (s : Str) :
    PrintsItself s ↔ Printf.utility [s] = some s ∧ 0 ∉ s := by
  rw [Printf.utility_eq_self_iff]
  constructor
  · exact fun h => ⟨⟨h.unmarked 92 (by decide), h.unmarked 37 (by decide), h.hyphen⟩, h.zero⟩
  · rintro ⟨⟨h92, h37, h45⟩, h0⟩
    refine ⟨fun b hb => ?_, h45⟩
    simp only [marks, List.mem_cons, List.not_mem_nil, or_false] at hb
    rcases hb with rfl | rfl | rfl
    · exact h92
    · exact h37
    · exact h0

/-- A text written to a file. -/
def printTo (path : Str) (append : Bool) (s : Str) : Command :=
  ⟨[lit "printf", s], some ⟨1, append, path⟩⟩

/-- A command without its messages. -/
def quiet (words : List String) : Command :=
  ⟨words.map lit, some ⟨2, false, lit "/dev/null"⟩⟩

/-- The commands of `enable`, for the three texts. -/
def enableCommands (anchor pfConf hosts : Str) : List (List Command) :=
  [[printTo anchorPath false anchor, printTo pfConfPath false pfConf,
      quiet ["pfctl", "-ef", "/etc/pf.conf"]],
    [quiet ["pfctl", "-a", "privacyclaw", "-f", "/etc/pf.anchors/privacyclaw"]],
    [printTo hostsPath true hosts]]

/-- The commands of `disable`. -/
def disableCommands (pfConf hosts : Str) : List (List Command) :=
  [[quiet ["pfctl", "-a", "privacyclaw", "-F", "all"]],
    [printTo pfConfPath false pfConf, ⟨["rm", "-f", "/etc/pf.anchors/privacyclaw"].map lit, none⟩,
      quiet ["pfctl", "-ef", "/etc/pf.conf"]],
    [printTo hostsPath false hosts]]

theorem escapeQuotes_eq (s : Str) : escapeQuotes s = quoteBody s := rfl

/-- Where a quoted text begins and ends in the scripts. -/
theorem lit_printf : lit "printf '" = lit "printf " ++ [39] := by decide

/-- What the shell makes of the script of `enable`. -/
theorem read_enableScript (domains : List Str) (port : UInt16) (hosts pfConf : Str) :
    (tokens (enableScript domains port hosts pfConf)).bind parse =
      some (enableCommands (buildPfAnchor port) (insertPfConfInclude pfConf)
        (buildHostsEntries domains hosts)) := by
  have h1 : lit "' > /etc/pf.anchors/privacyclaw && " =
      39 :: 32 :: lit "> /etc/pf.anchors/privacyclaw && " := by decide
  have h2 : lit "' > /etc/pf.conf && " = 39 :: 32 :: lit "> /etc/pf.conf && " := by decide
  have h3 : lit "' >> /etc/hosts" = 39 :: 32 :: lit ">> /etc/hosts" := by decide
  generalize hA : buildPfAnchor port = A
  generalize hP : insertPfConfInclude pfConf = P
  generalize hH : buildHostsEntries domains hosts = H
  have hscript : enableScript domains port hosts pfConf =
      lit "printf " ++ 39 :: (quoteBody A ++ 39 :: 32 ::
      ((lit "> /etc/pf.anchors/privacyclaw && " ++ lit "printf ") ++ 39 :: (quoteBody P ++ 39 :: 32 ::
      ((lit "> /etc/pf.conf && " ++ lit "pfctl -ef /etc/pf.conf 2>/dev/null; " ++
        lit "pfctl -a privacyclaw -f /etc/pf.anchors/privacyclaw 2>/dev/null; " ++ lit "printf ") ++
      39 :: (quoteBody H ++ 39 :: 32 :: lit ">> /etc/hosts"))))) := by
    rw [enableScript, hA, hP, hH, escapeQuotes_eq, escapeQuotes_eq, escapeQuotes_eq, lit_printf,
      h1, h2, h3]
    simp only [List.append_assoc, List.cons_append, List.nil_append]
  have hfirst : scan step (lit "printf ") .start = some ([.word (lit "printf")], .start) := by
    decide
  have hsecond : scan step (lit "> /etc/pf.anchors/privacyclaw && " ++ lit "printf ") .start =
      some ([.great, .word anchorPath, .andIf, .word (lit "printf")], .start) := by
    decide
  have hthird : scan step (lit "> /etc/pf.conf && " ++ lit "pfctl -ef /etc/pf.conf 2>/dev/null; " ++
        lit "pfctl -a privacyclaw -f /etc/pf.anchors/privacyclaw 2>/dev/null; " ++ lit "printf ")
      .start =
      some ([.great, .word pfConfPath, .andIf, .word (lit "pfctl"), .word (lit "-ef"),
        .word (lit "/etc/pf.conf"), .ioNumber 2, .great, .word (lit "/dev/null"), .semi,
        .word (lit "pfctl"), .word (lit "-a"), .word (lit "privacyclaw"), .word (lit "-f"),
        .word (lit "/etc/pf.anchors/privacyclaw"), .ioNumber 2, .great, .word (lit "/dev/null"),
        .semi, .word (lit "printf")], .start) := by
    decide +kernel
  have hlast : run step finish (lit ">> /etc/hosts") .start =
      some [.dgreat, .word hostsPath] := by
    decide
  rw [hscript, tokens, run_append_quoted hfirst, run_append_quoted hsecond,
    run_append_quoted hthird, hlast]
  rfl

/-- What the shell makes of the script of `disable`. -/
theorem read_disableScript (hosts pfConf : Str) :
    (tokens (disableScript hosts pfConf)).bind parse =
      some (disableCommands (removePfConfInclude pfConf) (removePrivacyclawLines hosts)) := by
  have h1 : lit "' > /etc/pf.conf && " = 39 :: 32 :: lit "> /etc/pf.conf && " := by decide
  have h2 : lit "' > /etc/hosts" = 39 :: 32 :: lit "> /etc/hosts" := by decide
  generalize hP : removePfConfInclude pfConf = P
  generalize hH : removePrivacyclawLines hosts = H
  have hscript : disableScript hosts pfConf =
      (lit "pfctl -a privacyclaw -F all 2>/dev/null; " ++ lit "printf ") ++
        39 :: (quoteBody P ++ 39 :: 32 ::
      ((lit "> /etc/pf.conf && " ++ lit "rm -f /etc/pf.anchors/privacyclaw && " ++
        lit "pfctl -ef /etc/pf.conf 2>/dev/null; " ++ lit "printf ") ++
        39 :: (quoteBody H ++ 39 :: 32 :: lit "> /etc/hosts"))) := by
    rw [disableScript, hP, hH, escapeQuotes_eq, escapeQuotes_eq, lit_printf, h1, h2]
    simp only [List.append_assoc, List.cons_append, List.nil_append]
  have hfirst : scan step (lit "pfctl -a privacyclaw -F all 2>/dev/null; " ++ lit "printf ") .start =
      some ([.word (lit "pfctl"), .word (lit "-a"), .word (lit "privacyclaw"), .word (lit "-F"),
        .word (lit "all"), .ioNumber 2, .great, .word (lit "/dev/null"), .semi,
        .word (lit "printf")], .start) := by
    decide
  have hsecond : scan step (lit "> /etc/pf.conf && " ++
        lit "rm -f /etc/pf.anchors/privacyclaw && " ++ lit "pfctl -ef /etc/pf.conf 2>/dev/null; " ++
        lit "printf ") .start =
      some ([.great, .word pfConfPath, .andIf, .word (lit "rm"), .word (lit "-f"),
        .word (lit "/etc/pf.anchors/privacyclaw"), .andIf, .word (lit "pfctl"), .word (lit "-ef"),
        .word (lit "/etc/pf.conf"), .ioNumber 2, .great, .word (lit "/dev/null"), .semi,
        .word (lit "printf")], .start) := by
    decide
  have hlast : run step finish (lit "> /etc/hosts") .start = some [.great, .word hostsPath] := by
    decide
  rw [hscript, tokens, run_append_quoted hfirst, run_append_quoted hsecond, hlast]
  rfl

/-- The zero bytes of a script are those of what is written. -/
theorem zero_mem_quoteBody (s : Str) : (0 : UInt8) ∈ quoteBody s ↔ (0 : UInt8) ∈ s := by
  rw [quoteBody, List.mem_flatMap]
  constructor
  · rintro ⟨b, hb, h0⟩
    unfold quoteByte at h0
    split at h0
    · exact absurd h0 (by decide)
    · rw [List.mem_singleton.mp h0]
      exact hb
  · exact fun h => ⟨0, h, List.mem_cons_self⟩

theorem zero_mem_enableScript (domains : List Str) (port : UInt16) (hosts pfConf : Str)
    (hanchor : 0 ∉ buildPfAnchor port) : 0 ∈ enableScript domains port hosts pfConf ↔
      0 ∈ insertPfConfInclude pfConf ∨ 0 ∈ buildHostsEntries domains hosts := by
  have hlit : 0 ∉ lit "printf '" ∧ 0 ∉ lit "' > /etc/pf.anchors/privacyclaw && " ∧
      0 ∉ lit "' > /etc/pf.conf && " ∧ 0 ∉ lit "pfctl -ef /etc/pf.conf 2>/dev/null; " ∧
      0 ∉ lit "pfctl -a privacyclaw -f /etc/pf.anchors/privacyclaw 2>/dev/null; " ∧
      0 ∉ lit "' >> /etc/hosts" := by decide
  rcases hlit with ⟨h1, h2, h3, h4, h5, h6⟩
  simp only [enableScript, escapeQuotes_eq, List.mem_append, zero_mem_quoteBody, h1, h2, h3, h4, h5,
    h6, hanchor, or_false, false_or]

theorem zero_mem_disableScript (hosts pfConf : Str) : 0 ∈ disableScript hosts pfConf ↔
      0 ∈ removePfConfInclude pfConf ∨ 0 ∈ removePrivacyclawLines hosts := by
  have hlit : 0 ∉ lit "printf '" ∧ 0 ∉ lit "pfctl -a privacyclaw -F all 2>/dev/null; " ∧
      0 ∉ lit "' > /etc/pf.conf && " ∧ 0 ∉ lit "rm -f /etc/pf.anchors/privacyclaw && " ∧
      0 ∉ lit "pfctl -ef /etc/pf.conf 2>/dev/null; " ∧ 0 ∉ lit "' > /etc/hosts" := by decide
  rcases hlit with ⟨h1, h2, h3, h4, h5, h6⟩
  simp only [disableScript, escapeQuotes_eq, List.mem_append, zero_mem_quoteBody, h1, h2, h3, h4,
    h5, h6, or_false, false_or]

/-- What runs of a script that is read as some commands. -/
theorem runPrivileged_eq_some_iff (sys : System) (script : Str) (cs : List (List Command))
    (hread : (tokens script).bind parse = some cs) (ws : List Write) :
    runPrivileged sys script = some ws ↔
      0 ∉ script ∧ execLists sys.opens sys.command cs = some ws := by
  have hexec : exec sys.opens sys.command script = execLists sys.opens sys.command cs := by
    rw [exec, ← Option.bind_assoc, hread, Option.bind_some]
  rw [runPrivileged]
  by_cases h0 : 0 ∈ script
  · rw [if_pos (List.contains_iff_mem.mpr h0)]
    exact iff_of_false (by simp only [reduceCtorEq, not_false_eq_true]) fun h => h.1 h0
  · rw [if_neg (fun h => h0 (List.contains_iff_mem.mp h)), hexec]
    exact ⟨fun h => ⟨h0, h⟩, fun h => h.2⟩

section Commands

variable (sys : System)

/-- A text that prints itself is written, if its file can be opened. -/
theorem execCommand_printTo (path : Str) (append : Bool) {s : Str} (hs : PrintsItself s) :
    execCommand sys.opens sys.command (printTo path append s) =
      some (if sys.opens path then ([⟨path, append, s⟩], true) else ([], false)) := by
  have hout : sys.command [lit "printf", s] = some ⟨fun fd => if fd = 1 then s else [], true⟩ := by
    rw [System.command, if_pos rfl, ((printsItself_iff s).mp hs).1]
    rfl
  rw [execCommand, printTo]
  dsimp only
  rw [hout]
  cases sys.opens path <;> rfl

/-- What a list of commands writes to either file. -/
def Leaves (cs : List Command) (toPfConf toHosts : List (Bool × Str)) : Prop :=
  ∃ ws, execAnd sys.opens sys.command cs = some ws ∧
    writesTo pfConfPath ws = toPfConf ∧ writesTo hostsPath ws = toHosts

/-- A command without its messages, last in its list. -/
theorem leaves_quiet (name : String) (args : List String) (hname : lit name ≠ lit "printf") :
    Leaves sys [quiet (name :: args)] [] [] := by
  have hother : lit "/dev/null" ≠ pfConfPath ∧ lit "/dev/null" ≠ hostsPath := by decide
  have hexec : ∃ ws ok, execCommand sys.opens sys.command (quiet (name :: args)) = some (ws, ok) ∧
      ∀ w ∈ ws, w.path = lit "/dev/null" := by
    rw [execCommand, quiet]
    dsimp only
    cases sys.opens (lit "/dev/null") with
    | false => exact ⟨[], false, rfl, fun w hw => absurd hw List.not_mem_nil⟩
    | true =>
        rw [if_pos rfl, List.map_cons, System.command, if_neg hname]
        refine ⟨_, _, rfl, fun w hw => ?_⟩
        rw [List.mem_singleton.mp hw]
  rcases hexec with ⟨ws, ok, hexec, hnull⟩
  refine ⟨ws, ?_, writesTo_eq_nil fun w hw => ?_, writesTo_eq_nil fun w hw => ?_⟩
  · cases ok with
    | true => rw [execAnd_cons_of_success _ _ hexec, execAnd, Option.map_some, List.append_nil]
    | false => exact execAnd_cons_of_failure _ _ hexec _
  · rw [hnull w hw]
    exact hother.1
  · rw [hnull w hw]
    exact hother.2

/-- A command that writes to no file, in front of others that do not write to
    these either. -/
theorem leaves_plain (name : String) (args : List String) (hname : lit name ≠ lit "printf")
    {cs : List Command} (hcs : Leaves sys cs [] []) :
    Leaves sys (⟨(name :: args).map lit, none⟩ :: cs) [] [] := by
  have hexec : execCommand sys.opens sys.command ⟨(name :: args).map lit, none⟩ =
      some ([], (sys.run ((name :: args).map lit)).success) := by
    rw [execCommand]
    dsimp only
    rw [List.map_cons, System.command, if_neg hname]
    rfl
  rcases hcs with ⟨us, hus, hpf, hhosts⟩
  cases hok : (sys.run ((name :: args).map lit)).success with
  | false =>
      rw [hok] at hexec
      exact ⟨[], execAnd_cons_of_failure _ _ hexec _, rfl, rfl⟩
  | true =>
      rw [hok] at hexec
      exact ⟨us, (execAnd_cons_of_success _ _ hexec _).trans (congrArg _ hus), hpf, hhosts⟩

/-- A text that prints itself is written, and the list goes on, if its file can be
    opened. -/
theorem leaves_printTo (path : Str) (append : Bool) {s : Str} (hs : PrintsItself s)
    {cs : List Command} {toPfConf toHosts : List (Bool × Str)}
    (hcs : Leaves sys cs toPfConf toHosts) :
    Leaves sys (printTo path append s :: cs)
      (if sys.opens path then writesTo pfConfPath [⟨path, append, s⟩] ++ toPfConf else [])
      (if sys.opens path then writesTo hostsPath [⟨path, append, s⟩] ++ toHosts else []) := by
  have hexec := execCommand_printTo sys path append hs
  rcases hcs with ⟨us, hus, hpf, hhosts⟩
  cases hopen : sys.opens path with
  | false =>
      rw [hopen] at hexec
      exact ⟨[], execAnd_cons_of_failure _ _ hexec _, rfl, rfl⟩
  | true =>
      rw [hopen] at hexec
      refine ⟨_, (execAnd_cons_of_success _ _ hexec _).trans (congrArg _ hus), ?_, ?_⟩
      · rw [writesTo_append, hpf]
        rfl
      · rw [writesTo_append, hhosts]
        rfl

/-- Lists of commands one after the other. -/
theorem execLists_leaves {l l' l'' : List Command} {a a' a'' b b' b'' : List (Bool × Str)}
    (h : Leaves sys l a b) (h' : Leaves sys l' a' b') (h'' : Leaves sys l'' a'' b'') :
    ∃ ws, execLists sys.opens sys.command [l, l', l''] = some ws ∧
      writesTo pfConfPath ws = a ++ a' ++ a'' ∧ writesTo hostsPath ws = b ++ b' ++ b'' := by
  rcases h with ⟨ws, hws, rfl, rfl⟩
  rcases h' with ⟨ws', hws', rfl, rfl⟩
  rcases h'' with ⟨ws'', hws'', rfl, rfl⟩
  refine ⟨ws ++ (ws' ++ (ws'' ++ [])), execLists_cons _ _ hws (execLists_cons _ _ hws'
    (execLists_cons _ _ hws'' rfl)), ?_, ?_⟩
  · rw [writesTo_append, writesTo_append, List.append_nil, List.append_assoc]
  · rw [writesTo_append, writesTo_append, List.append_nil, List.append_assoc]

end Commands

/-- A script writes one text to `pf.conf`, if it comes to that, and one to the
    hosts file. -/
def WritesVerbatim (sys : System) (script : Str) (reached : Bool) (pfConf hosts : Str)
    (append : Bool) : Prop :=
  ∃ ws, runPrivileged sys script = some ws ∧
    writesTo pfConfPath ws =
      (if reached && sys.opens pfConfPath then [(false, pfConf)] else []) ∧
    writesTo hostsPath ws = if sys.opens hostsPath then [(append, hosts)] else []

/-- The script of `enable` writes what was computed; if the file of the anchor
    cannot be opened it leaves `pf.conf` alone. -/
def EnablesVerbatim (sys : System) (domains : List Str) (port : UInt16) (hosts pfConf : Str) :
    Prop :=
  WritesVerbatim sys (enableScript domains port hosts pfConf) (sys.opens anchorPath)
    (insertPfConfInclude pfConf) (buildHostsEntries domains hosts) true

/-- The script of `disable` writes what was computed. -/
def DisablesVerbatim (sys : System) (hosts pfConf : Str) : Prop :=
  WritesVerbatim sys (disableScript hosts pfConf) true (removePfConfInclude pfConf)
    (removePrivacyclawLines hosts) false

/-- The files of a text that is written to one of them. -/
theorem paths_distinct : (anchorPath == pfConfPath) = false ∧ (anchorPath == hostsPath) = false ∧
    (pfConfPath == hostsPath) = false ∧ (hostsPath == pfConfPath) = false := by decide

/-- The anchor prints itself. -/
theorem printsItself_anchor (port : UInt16) : PrintsItself (buildPfAnchor port) := by
  have hdigit : ∀ b : UInt8, (b < 48 ∨ 57 < b) → b ∉ decimal port.toNat := by
    intro b hb hmem
    have h := decimal_digit port.toNat b hmem
    rcases hb with hb | hb
    · exact absurd h.1 (UInt8.not_le.mpr hb)
    · exact absurd h.2 (UInt8.not_le.mpr hb)
  have hlit : ∀ b ∈ marks, b ∉ lit
      "rdr pass on lo0 inet  proto tcp from any to 127.0.0.1 port 443 -> 127.0.0.1 port " ∧
      b ∉ lit "\n" ∧ b ∉ lit
      "rdr pass on lo0 inet6 proto tcp from any to ::1       port 443 -> ::1       port " ∧
      (b < 48 ∨ 57 < b) := List.forall_iff_forall_mem.mp (by decide)
  have hhead : (buildPfAnchor port).head? = some 114 := rfl
  refine ⟨fun b hb => ?_, by rw [hhead]; decide⟩
  rcases hlit b hb with ⟨h1, h2, h3, h4⟩
  simp only [buildPfAnchor, List.mem_append, h1, h2, h3, hdigit b h4, or_self, not_false_eq_true]

/-- Contents that print themselves are written by `enable`. -/
theorem enablesVerbatim_of_prints (sys : System) (domains : List Str) (port : UInt16)
    (hosts pfConf : Str) (hp : PrintsItself (insertPfConfInclude pfConf))
    (hh : PrintsItself (buildHostsEntries domains hosts)) :
    EnablesVerbatim sys domains port hosts pfConf := by
  have hfirst := leaves_printTo sys anchorPath false (printsItself_anchor port)
    (leaves_printTo sys pfConfPath false hp
      (leaves_quiet sys "pfctl" ["-ef", "/etc/pf.conf"] (by decide)))
  have hsecond := leaves_quiet sys "pfctl"
    ["-a", "privacyclaw", "-f", "/etc/pf.anchors/privacyclaw"] (by decide)
  have hthird := leaves_printTo sys hostsPath true hh
    (show Leaves sys [] [] [] from ⟨[], rfl, rfl, rfl⟩)
  rcases execLists_leaves sys hfirst hsecond hthird with ⟨ws, hexec, hpf, hhosts⟩
  have hzero : 0 ∉ enableScript domains port hosts pfConf := by
    rw [zero_mem_enableScript _ _ _ _ (printsItself_anchor port).zero]
    exact fun h => h.elim hp.zero hh.zero
  refine ⟨ws, (runPrivileged_eq_some_iff sys _ _ (read_enableScript domains port hosts pfConf)
    ws).mpr ⟨hzero, hexec⟩, ?_, ?_⟩
  · rw [hpf]
    simp only [writesTo_single, paths_distinct.1, paths_distinct.2.2.2, beq_self_eq_true]
    cases sys.opens anchorPath <;> cases sys.opens pfConfPath <;> cases sys.opens hostsPath <;> rfl
  · rw [hhosts]
    simp only [writesTo_single, paths_distinct.2.1, paths_distinct.2.2.1, beq_self_eq_true]
    cases sys.opens anchorPath <;> cases sys.opens pfConfPath <;> cases sys.opens hostsPath <;> rfl

/-- Contents that print themselves are written by `disable`. -/
theorem disablesVerbatim_of_prints (sys : System) (hosts pfConf : Str)
    (hp : PrintsItself (removePfConfInclude pfConf))
    (hh : PrintsItself (removePrivacyclawLines hosts)) : DisablesVerbatim sys hosts pfConf := by
  have hfirst := leaves_quiet sys "pfctl" ["-a", "privacyclaw", "-F", "all"] (by decide)
  have hsecond := leaves_printTo sys pfConfPath false hp
    (leaves_plain sys "rm" ["-f", "/etc/pf.anchors/privacyclaw"] (by decide)
      (leaves_quiet sys "pfctl" ["-ef", "/etc/pf.conf"] (by decide)))
  have hthird := leaves_printTo sys hostsPath false hh
    (show Leaves sys [] [] [] from ⟨[], rfl, rfl, rfl⟩)
  rcases execLists_leaves sys hfirst hsecond hthird with ⟨ws, hexec, hpf, hhosts⟩
  have hzero : 0 ∉ disableScript hosts pfConf := by
    rw [zero_mem_disableScript]
    exact fun h => h.elim hp.zero hh.zero
  refine ⟨ws, (runPrivileged_eq_some_iff sys _ _ (read_disableScript hosts pfConf) ws).mpr
    ⟨hzero, hexec⟩, ?_, ?_⟩
  · rw [hpf]
    simp only [writesTo_single, paths_distinct.2.2.2, beq_self_eq_true]
    cases sys.opens pfConfPath <;> cases sys.opens hostsPath <;> rfl
  · rw [hhosts]
    simp only [writesTo_single, paths_distinct.2.2.1, beq_self_eq_true]
    cases sys.opens pfConfPath <;> cases sys.opens hostsPath <;> rfl

/-- A system where every file can be opened and the commands do nothing. -/
def idle : System := ⟨fun _ => true, fun _ => ⟨fun _ => [], true⟩⟩

/-- There the writes are what `printf` makes of the texts. -/
theorem execCommand_idle (path : Str) (append : Bool) (s : Str) :
    execCommand idle.opens idle.command (printTo path append s) =
      (Printf.utility [s]).map fun out => ([⟨path, append, out⟩], true) := by
  rw [execCommand, printTo]
  dsimp only
  rw [idle, if_pos rfl, System.command, if_pos rfl, Option.map_map]
  rfl

theorem execCommand_idle_quiet (name : String) (args : List String)
    (hname : lit name ≠ lit "printf") :
    execCommand idle.opens idle.command (quiet (name :: args)) =
      some ([⟨lit "/dev/null", false, []⟩], true) := by
  rw [execCommand, quiet]
  dsimp only
  rw [idle, if_pos rfl, List.map_cons, System.command, if_neg hname]
  rfl

theorem execLists_enable_idle (anchor pfConf hosts : Str) :
    execLists idle.opens idle.command (enableCommands anchor pfConf hosts) =
      (Printf.utility [anchor]).bind fun a => (Printf.utility [pfConf]).bind fun p =>
        (Printf.utility [hosts]).map fun q =>
          [⟨anchorPath, false, a⟩, ⟨pfConfPath, false, p⟩, ⟨lit "/dev/null", false, []⟩,
            ⟨lit "/dev/null", false, []⟩, ⟨hostsPath, true, q⟩] := by
  have hpfctl : lit "pfctl" ≠ lit "printf" := by decide
  simp only [enableCommands, execLists, execAnd, execCommand_idle,
    execCommand_idle_quiet _ _ hpfctl]
  cases Printf.utility [anchor] <;> cases Printf.utility [pfConf] <;>
    cases Printf.utility [hosts] <;> rfl

theorem execLists_disable_idle (pfConf hosts : Str) :
    execLists idle.opens idle.command (disableCommands pfConf hosts) =
      (Printf.utility [pfConf]).bind fun p => (Printf.utility [hosts]).map fun q =>
        [⟨lit "/dev/null", false, []⟩, ⟨pfConfPath, false, p⟩, ⟨lit "/dev/null", false, []⟩,
          ⟨hostsPath, false, q⟩] := by
  have hpfctl : lit "pfctl" ≠ lit "printf" := by decide
  have hrm : execCommand idle.opens idle.command
      ⟨["rm", "-f", "/etc/pf.anchors/privacyclaw"].map lit, none⟩ = some ([], true) := by
    rw [execCommand]
    dsimp only
    rw [List.map_cons, System.command, if_neg (by decide)]
    rfl
  simp only [disableCommands, execLists, execAnd, execCommand_idle,
    execCommand_idle_quiet _ _ hpfctl, hrm]
  cases Printf.utility [pfConf] <;> cases Printf.utility [hosts] <;> rfl

/-- Only contents that print themselves are written by `enable` everywhere. -/
theorem enable_verbatim_iff (domains : List Str) (port : UInt16) (hosts pfConf : Str) :
    (∀ sys, EnablesVerbatim sys domains port hosts pfConf) ↔
      PrintsItself (insertPfConfInclude pfConf) ∧
        PrintsItself (buildHostsEntries domains hosts) := by
  refine ⟨fun h => ?_, fun h sys => enablesVerbatim_of_prints sys domains port hosts pfConf h.1 h.2⟩
  rcases h idle with ⟨ws, hrun, hpf, hhosts⟩
  rcases (runPrivileged_eq_some_iff idle _ _ (read_enableScript domains port hosts pfConf) ws).mp
    hrun with ⟨hzero, hexec⟩
  rw [zero_mem_enableScript _ _ _ _ (printsItself_anchor port).zero, not_or] at hzero
  rw [execLists_enable_idle, ((printsItself_iff _).mp (printsItself_anchor port)).1,
    Option.bind_some, Option.bind_eq_some_iff] at hexec
  rcases hexec with ⟨p, hp, hexec⟩
  rcases Option.map_eq_some_iff.mp hexec with ⟨q, hq, rfl⟩
  have hp' : p = insertPfConfInclude pfConf := congrArg (fun l => (l.headD (false, [])).2) hpf
  have hq' : q = buildHostsEntries domains hosts :=
    congrArg (fun l => (l.headD (false, [])).2) hhosts
  rw [hp'] at hp
  rw [hq'] at hq
  exact ⟨(printsItself_iff _).mpr ⟨hp, hzero.1⟩, (printsItself_iff _).mpr ⟨hq, hzero.2⟩⟩

/-- Only contents that print themselves are written by `disable` everywhere. -/
theorem disable_verbatim_iff (hosts pfConf : Str) :
    (∀ sys, DisablesVerbatim sys hosts pfConf) ↔
      PrintsItself (removePfConfInclude pfConf) ∧ PrintsItself (removePrivacyclawLines hosts) := by
  refine ⟨fun h => ?_, fun h sys => disablesVerbatim_of_prints sys hosts pfConf h.1 h.2⟩
  rcases h idle with ⟨ws, hrun, hpf, hhosts⟩
  rcases (runPrivileged_eq_some_iff idle _ _ (read_disableScript hosts pfConf) ws).mp hrun with
    ⟨hzero, hexec⟩
  rw [zero_mem_disableScript, not_or] at hzero
  rw [execLists_disable_idle, Option.bind_eq_some_iff] at hexec
  rcases hexec with ⟨p, hp, hexec⟩
  rcases Option.map_eq_some_iff.mp hexec with ⟨q, hq, rfl⟩
  have hp' : p = removePfConfInclude pfConf := congrArg (fun l => (l.headD (false, [])).2) hpf
  have hq' : q = removePrivacyclawLines hosts := congrArg (fun l => (l.headD (false, [])).2) hhosts
  rw [hp'] at hp
  rw [hq'] at hq
  exact ⟨(printsItself_iff _).mpr ⟨hp, hzero.1⟩, (printsItself_iff _).mpr ⟨hq, hzero.2⟩⟩

theorem unmarked_logText (ls : List Str) : Unmarked (logText ls) ↔ ∀ l ∈ ls, Unmarked l := by
  have hfeed : ∀ b ∈ marks, b ∉ lit "\n" := List.forall_iff_forall_mem.mp (by decide)
  constructor
  · exact fun h l hl b hb hmem =>
      h b hb (List.mem_flatMap.mpr ⟨l, hl, List.mem_append_left _ hmem⟩)
  · intro h b hb hmem
    rcases List.mem_flatMap.mp hmem with ⟨l, hl, hin⟩
    exact (List.mem_append.mp hin).elim (h l hl b hb) (hfeed b hb)

theorem unmarked_lines (c : Str) : (∀ l ∈ lines c, Unmarked l) ↔ Unmarked c := by
  have hbreak : ∀ b ∈ marks, b ≠ 10 ∧ b ≠ 13 := List.forall_iff_forall_mem.mp (by decide)
  constructor
  · intro h b hb hmem
    rcases (mem_lines_iff b (hbreak b hb).1 (hbreak b hb).2 c).mpr hmem with ⟨l, hl, hin⟩
    exact h l hl b hb hin
  · exact fun h l hl b hb hmem =>
      h b hb ((mem_lines_iff b (hbreak b hb).1 (hbreak b hb).2 c).mp ⟨l, hl, hmem⟩)

/-- A text in lines prints itself when no line has a mark and the first one no
    hyphen in front. -/
theorem printsItself_logText (ls : List Str) : PrintsItself (logText ls) ↔
    (∀ l ∈ ls, Unmarked l) ∧ ls.head?.bind List.head? ≠ some 45 := by
  have hhead : (logText ls).head? = some 45 ↔ ls.head?.bind List.head? = some 45 := by
    cases ls with
    | nil => exact Iff.rfl
    | cons l ls =>
        rw [logText_cons, List.head?_cons, Option.bind_some]
        cases l with
        | nil =>
            rw [List.nil_append, List.head?_cons, List.head?_nil]
            decide
        | cons b l => exact Iff.rfl
  rw [← unmarked_logText, Ne, ← hhead]
  exact ⟨fun h => ⟨h.unmarked, h.hyphen⟩, fun h => ⟨h.1, h.2⟩⟩

/-- A filter anchor does not begin with a hyphen. -/
theorem isFilterAnchor_head (l : Str) (hl : isFilterAnchor l = true) : l.head? ≠ some 45 := by
  intro hhead
  cases l with
  | nil => exact absurd hhead (by decide)
  | cons b l =>
      rw [List.head?_cons, Option.some.injEq] at hhead
      have htrim : trimStart (45 :: l) = 45 :: l :=
        stripAll_eq_self _ _ _ (not_prefix_of_head whitespace 45 l (by decide))
      have hblank : (lit "anchor ").isPrefixOf (45 :: l) = false := rfl
      have htab : (lit "anchor\t").isPrefixOf (45 :: l) = false := rfl
      rw [hhead, isFilterAnchor, htrim, hblank, htab] at hl
      exact absurd hl (by decide)

/-- The include lines change nothing about this. -/
theorem printsItself_insert (pfConf : Str) :
    PrintsItself (insertPfConfInclude pfConf) ↔ PrintsItself pfConf := by
  cases hc : contains privacyclawTag pfConf with
  | true => rw [insertPfConfInclude, hc, if_pos rfl]
  | false =>
      have hinclude : ∀ l ∈ includeLines, Unmarked l := by
        rw [← unmarked_logText]
        exact List.forall_iff_forall_mem.mp (by decide)
      have hself : PrintsItself pfConf ↔ (∀ l ∈ lines pfConf, Unmarked l) ∧
          (lines pfConf).head?.bind List.head? ≠ some 45 := by
        rw [unmarked_lines, Ne, head_lines 45 (by decide) (by decide)]
        exact ⟨fun h => ⟨h.unmarked, h.hyphen⟩, fun h => ⟨h.1, h.2⟩⟩
      rw [insertPfConfInclude_eq pfConf hc, printsItself_logText, hself]
      generalize lines pfConf = ls
      refine and_congr ?_ (not_congr ?_)
      · -- the lines are those of the file and the include lines
        constructor
        · intro h l hl
          rw [← List.takeWhile_append_dropWhile (p := fun l => !isFilterAnchor l) (l := ls)] at hl
          refine h l ?_
          rw [List.mem_append, List.mem_append]
          exact (List.mem_append.mp hl).imp_left Or.inl
        · intro h l hl
          rw [List.mem_append, List.mem_append] at hl
          rcases hl with (hl | hl) | hl
          · exact h l ((List.takeWhile_sublist _).subset hl)
          · exact hinclude l hl
          · exact h l ((List.dropWhile_sublist _).subset hl)
      · -- the include lines come first only in front of an anchor
        cases ls with
        | nil => exact iff_of_false (by decide) (by decide)
        | cons l ls =>
            cases hl : isFilterAnchor l with
            | true =>
                rw [List.takeWhile_cons_of_neg (by rw [hl]; decide), List.nil_append]
                exact iff_of_false (by
                  rw [List.head?_append]
                  exact (by decide : (includeLines.head?).bind List.head? ≠ some 45))
                  (isFilterAnchor_head l hl)
            | false =>
                rw [List.takeWhile_cons_of_pos (by rw [hl]; rfl)]
                exact Iff.rfl

/-- An entry has the marks of its domain. -/
theorem unmarked_hostsLine (addr d : Str) (haddr : Unmarked addr) :
    Unmarked (hostsLine addr d) ↔ Unmarked d := by
  have hlit : ∀ b ∈ marks, b ∉ lit "  " ∧ b ∉ privacyclawTag :=
    List.forall_iff_forall_mem.mp (by decide)
  refine forall_congr' fun b => forall_congr' fun hb => not_congr ?_
  simp only [hostsLine, List.mem_append, haddr b hb, (hlit b hb).1, (hlit b hb).2, false_or,
    or_false]

theorem unmarked_addrs : ∀ addr ∈ [lit "127.0.0.1", lit "::1"],
    Unmarked addr ∧ addr.head? ≠ some 45 ∧ addr ≠ [] := by
  unfold Unmarked
  intro addr haddr
  rcases List.mem_cons.mp haddr with rfl | haddr
  · exact ⟨List.forall_iff_forall_mem.mp (by decide), by decide, by decide⟩
  · rw [List.mem_singleton.mp haddr]
    exact ⟨List.forall_iff_forall_mem.mp (by decide), by decide, by decide⟩

/-- The entries that are appended print themselves when every domain with a mark
    has its entries already. -/
theorem printsItself_hostsEntries (domains : List Str) (hosts : Str) :
    PrintsItself (buildHostsEntries domains hosts) ↔ ∀ d ∈ domains, ¬ Unmarked d →
      ∀ addr ∈ [lit "127.0.0.1", lit "::1"], ∃ l ∈ lines hosts, trim l = hostsLine addr d := by
  have hentry : ∀ line, line ∈ hostsLines domains ↔
      ∃ d ∈ domains, ∃ addr ∈ [lit "127.0.0.1", lit "::1"], line = hostsLine addr d := by
    intro line
    simp only [hostsLines, List.mem_flatMap, List.mem_cons, List.not_mem_nil, or_false,
      exists_eq_or_imp, exists_eq_left]
  have hthere : ∀ line ∈ hostsLines domains,
      ((lines hosts).any (fun l => trim l == trim line) = true ↔
        ∃ l ∈ lines hosts, trim l = line) := by
    intro line hline
    rw [trim_eq_self line (mem_hostsLines domains line hline).1, List.any_eq_true]
    simp only [beq_iff_eq]
  rw [buildHostsEntries_eq, printsItself_logText]
  constructor
  · rintro ⟨hall, _⟩ d hd hmark addr haddr
    have hline := (hentry (hostsLine addr d)).mpr ⟨d, hd, addr, haddr, rfl⟩
    rw [← hthere _ hline]
    by_contra hno
    refine hmark ((unmarked_hostsLine addr d (unmarked_addrs addr haddr).1).mp (hall _ ?_))
    rw [List.mem_filter, Bool.not_eq_true', ← Bool.not_eq_true]
    exact ⟨hline, hno⟩
  · intro h
    constructor
    · intro line hline
      rw [List.mem_filter, Bool.not_eq_true', ← Bool.not_eq_true] at hline
      rcases (hentry line).mp hline.1 with ⟨d, hd, addr, haddr, rfl⟩
      rw [unmarked_hostsLine addr d (unmarked_addrs addr haddr).1]
      by_contra hmark
      exact hline.2 ((hthere _ hline.1).mpr (h d hd hmark addr haddr))
    · intro hfirst
      rcases Option.bind_eq_some_iff.mp hfirst with ⟨line, hline, h45⟩
      rcases (hentry line).mp (List.mem_filter.mp (List.mem_of_head? hline)).1 with
        ⟨d, _, addr, haddr, rfl⟩
      rcases unmarked_addrs addr haddr with ⟨_, hhead, hne⟩
      -- the entry begins with its address
      rw [hostsLine, List.append_assoc, List.append_assoc, List.append_assoc,
        List.head?_append_of_ne_nil _ hne] at h45
      exact hhead h45

/-- What is kept of a file when the tagged lines go prints itself. -/
def KeptPrints (c : Str) : Prop :=
  (∀ l ∈ lines c, contains privacyclawTag l = false → Unmarked l) ∧
    ((lines c).find? fun l => !contains privacyclawTag l).bind List.head? ≠ some 45

theorem printsItself_remove (c : Str) : PrintsItself (removePrivacyclawLines c) ↔ KeptPrints c := by
  rw [removePrivacyclawLines_eq, printsItself_logText, List.head?_filter, KeptPrints]
  refine and_congr_left fun _ => forall_congr' fun l => ?_
  rw [List.mem_filter, Bool.not_eq_true', and_imp]

/-- Either script writes what was computed, on every system, exactly when there is
    no backslash, percent sign or zero byte in what it takes over and no hyphen in
    front of it. For `enable` that is all of `pf.conf` and the domains without
    entries, for `disable` the lines of both files without the tag. -/
theorem scripts_verbatim_iff (domains : List Str) (port : UInt16) (hosts pfConf : Str) :
    ((∀ sys, EnablesVerbatim sys domains port hosts pfConf) ↔
      PrintsItself pfConf ∧ ∀ d ∈ domains, ¬ Unmarked d →
        ∀ addr ∈ [lit "127.0.0.1", lit "::1"], ∃ l ∈ lines hosts, trim l = hostsLine addr d) ∧
    ((∀ sys, DisablesVerbatim sys hosts pfConf) ↔ KeptPrints pfConf ∧ KeptPrints hosts) := by
  rw [enable_verbatim_iff, disable_verbatim_iff, printsItself_insert, printsItself_hostsEntries,
    removePfConfInclude, printsItself_remove, printsItself_remove]
  exact ⟨Iff.rfl, Iff.rfl⟩

/-- A comment in `pf.conf` loses one of its percent signs. -/
theorem percent_not_verbatim :
    (runPrivileged idle (disableScript [] (lit "# 100%%\n"))).map (writesTo pfConfPath) =
      some [(false, lit "# 100%\n")] ∧
    ¬ ∀ (sys : System) (domains : List Str) (port : UInt16) (hosts pfConf : Str),
      EnablesVerbatim sys domains port hosts pfConf ∧ DisablesVerbatim sys hosts pfConf := by
  have hwritten : (runPrivileged idle (disableScript [] (lit "# 100%%\n"))).map
      (writesTo pfConfPath) = some [(false, lit "# 100%\n")] := by decide +kernel
  refine ⟨hwritten, fun hall => ?_⟩
  rcases (hall idle [] 0 [] (lit "# 100%%\n")).2 with ⟨ws, hrun, hpf, _⟩
  rw [hrun, Option.map_some, hpf] at hwritten
  exact absurd hwritten (by decide)

end PrivacyClaw
