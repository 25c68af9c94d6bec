import PrivacyClaw.Core.Text
import PrivacyClaw.Lib.Printf
import PrivacyClaw.Lib.Shell

/-!
# The Hosts File and the Packet Filter

`src/network_helper.rs`: the entries that send a domain to the proxy, and the
rules that send its port there.

Both files are edited as text. What the proxy adds is a line with a tag at its
end, and it is removed by dropping every line with the tag. Entries for hosts are
appended to the content as it is; the two lines for the packet filter go in front
of its first filter anchor, since the filter wants its rules in an order.

The files belong to the system, so they are written by a shell script that runs
with its rights. What is to be written stands in the script itself, in single
quotes, as an argument of `printf`.

## Main definitions

* `hostsLine`: An entry.
* `buildHostsEntries`: What is appended for some domains.
* `removePrivacyclawLines`: The content without tagged lines.
* `buildPfAnchor`, `buildPfConfInclude`: The rules, and the lines that load them.
* `insertPfConfInclude`, `removePfConfInclude`: The edits of `pf.conf`.
* `enableScript`, `disableScript`: The scripts of `enable` and `disable`.
* `System`, `runPrivileged`: What running a script writes.
-/

namespace PrivacyClaw

/-- `PRIVACYCLAW_TAG`. -/
def privacyclawTag : Str := lit "# privacyclaw"

/-- `format!("{}  {}  {}", addr, domain, PRIVACYCLAW_TAG)`. -/
def hostsLine (addr domain : Str) : Str :=
  addr ++ lit "  " ++ domain ++ lit "  " ++ privacyclawTag

/-- `build_hosts_entries`: two lines for each domain, unless the line is there
    already. -/
def buildHostsEntries (domains : List Str) (existingContent : Str) : Str :=
  domains.foldl (fun out domain =>
    [lit "127.0.0.1", lit "::1"].foldl (fun out addr =>
      let line := hostsLine addr domain
      if (lines existingContent).any fun l => trim l == trim line then out
      else out ++ line ++ lit "\n") out) []

/-- `remove_privacyclaw_lines`. -/
def removePrivacyclawLines (content : Str) : Str :=
  ((lines content).filter fun l => !contains privacyclawTag l).foldl
    (fun acc l => acc ++ l ++ lit "\n") []

/-- `build_pf_anchor`. -/
def buildPfAnchor (proxyPort : UInt16) : Str :=
  let port := decimal proxyPort.toNat
  lit "rdr pass on lo0 inet  proto tcp from any to 127.0.0.1 port 443 -> 127.0.0.1 port " ++
    port ++ lit "\n" ++
  lit "rdr pass on lo0 inet6 proto tcp from any to ::1       port 443 -> ::1       port " ++
    port ++ lit "\n"

/-- `build_pf_conf_include`. -/
def buildPfConfInclude : Str :=
  lit "rdr-anchor \"privacyclaw\"  " ++ privacyclawTag ++ lit "\n" ++
  lit "load anchor \"privacyclaw\" from \"/etc/pf.anchors/privacyclaw\"  " ++ privacyclawTag ++
    lit "\n"

/-- `remove_pf_conf_include`. -/
def removePfConfInclude (content : Str) : Str := removePrivacyclawLines content

/-- The test for a filter anchor, in the loop of `insert_pf_conf_include`. -/
def isFilterAnchor (line : Str) : Bool :=
  (lit "anchor ").isPrefixOf (trimStart line) || (lit "anchor\t").isPrefixOf (trimStart line)

/-- One turn of the loop of `insert_pf_conf_include`, with `result` and `inserted`. -/
def insertPfConfLine : Str × Bool → Str → Str × Bool
  | (result, inserted), line =>
    if !inserted && isFilterAnchor line then
      (result ++ buildPfConfInclude ++ line ++ lit "\n", true)
    else (result ++ line ++ lit "\n", inserted)

/-- `insert_pf_conf_include`. -/
def insertPfConfInclude (content : Str) : Str :=
  if contains privacyclawTag content then content
  else
    let (result, inserted) := (lines content).foldl insertPfConfLine ([], false)
    -- no filter anchor: at the end
    if !inserted then result ++ buildPfConfInclude else result

/-- `replace('\'', "'\\''")`. -/
def escapeQuotes (s : Str) : Str := s.flatMap fun b => if b = 39 then lit "'\\''" else [b]

/-- The script of `enable`, for the contents of both files. -/
def enableScript (domains : List Str) (proxyPort : UInt16) (hosts pfConf : Str) : Str :=
  let hostsEntries := buildHostsEntries domains hosts
  let pfAnchor := buildPfAnchor proxyPort
  let newPfConf := insertPfConfInclude pfConf
  lit "printf '" ++ escapeQuotes pfAnchor ++ lit "' > /etc/pf.anchors/privacyclaw && " ++
  lit "printf '" ++ escapeQuotes newPfConf ++ lit "' > /etc/pf.conf && " ++
  lit "pfctl -ef /etc/pf.conf 2>/dev/null; " ++
  lit "pfctl -a privacyclaw -f /etc/pf.anchors/privacyclaw 2>/dev/null; " ++
  lit "printf '" ++ escapeQuotes hostsEntries ++ lit "' >> /etc/hosts"

/-- The script of `disable`. -/
def disableScript (hosts pfConf : Str) : Str :=
  let cleanedHosts := removePrivacyclawLines hosts
  let cleanedPfConf := removePfConfInclude pfConf
  lit "pfctl -a privacyclaw -F all 2>/dev/null; " ++
  lit "printf '" ++ escapeQuotes cleanedPfConf ++ lit "' > /etc/pf.conf && " ++
  lit "rm -f /etc/pf.anchors/privacyclaw && " ++
  lit "pfctl -ef /etc/pf.conf 2>/dev/null; " ++
  lit "printf '" ++ escapeQuotes cleanedHosts ++ lit "' > /etc/hosts"

/-- What a script meets: the files that can be opened for writing, and what the
    commands other than `printf` do. -/
structure System where
  opens : Str → Bool
  run : List Str → Shell.Outcome

/-- `printf` writes to its standard output. -/
def System.command (sys : System) : List Str → Option Shell.Outcome
  | [] => none
  | name :: args =>
    if name = lit "printf" then
      (Printf.utility args).map fun out => ⟨fun fd => if fd = 1 then out else [], true⟩
    else some (sys.run (name :: args))

/-- `run_privileged`, by what the script writes to files: `Command` takes no
    argument with a zero byte. -/
def runPrivileged (sys : System) (script : Str) : Option (List Shell.Write) :=
  if script.contains 0 then none else Shell.exec sys.opens sys.command script

end PrivacyClaw
