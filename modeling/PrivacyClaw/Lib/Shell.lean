import PrivacyClaw.Lib.Transducer

/-!
# A Part of the POSIX Shell

Scripts of simple commands with quoted words and redirections, joined by `&&`
and `;`.

A script is read in two passes, as the standard has it. The first one finds the
tokens: a word goes on through quotes, inside single quotes every byte stands
for itself, and operators are as long as they can be. It is a transducer whose
mode is the token that is being read. The second pass groups the tokens.
What a command does is left to whoever uses this, and so is whether a file can
be opened.

The reader knows the part of the language that is named here and nothing else:
expansions, patterns, comments, other operators and the words that begin a
compound command have no reading, so that what is said of a script that is read
holds of it in the whole language.

## Main definitions

* `Token`, `tokens`: The first pass.
* `quoteBody`: A text as it is written inside single quotes.
* `Command`, `parse`: The second pass.
* `Write`, `exec`: What a script writes to files.
* `writesTo`: What it writes to one of them.

## Theorems

* `run_quoted`: A quoted text is read back, whatever stands in it.
* `execLists_cons`, `writesTo_append`: Parts of a script one after the other.
-/

namespace Shell

open Transducer

/-- The bytes of a word, a file name or a script. -/
abbrev Bytes := List UInt8

inductive Token where
  | word (w : Bytes)
  | semi
  | andIf
  | great
  | dgreat
  | ioNumber (n : Nat)
  deriving DecidableEq, Repr

/-- What is being read: nothing, a word, with a mark if a part of it was quoted, the inside of
    single quotes, what stands behind a backslash, or an operator. -/
inductive Mode where
  | start
  | word (w : Bytes) (quoted : Bool)
  | quote (w : Bytes)
  | escape (w : Bytes)
  | op (c : UInt8)
  deriving DecidableEq, Repr

/-- The bytes that stand for themselves anywhere: letters, digits and some
    marks. -/
def isPlain (c : UInt8) : Bool :=
  (97 ≤ c && c ≤ 122) || (65 ≤ c && c ≤ 90) || (48 ≤ c && c ≤ 57) ||
    [43, 44, 45, 46, 47, 58, 64, 95].contains c

def isBlank (c : UInt8) : Bool := c == 32 || c == 9

/-- The first byte of a token. -/
def begin (c : UInt8) : Option Mode :=
  if isBlank c then some .start
  else if c = 39 then some (.quote [])
  else if c = 92 then some (.escape [])
  else if c = 38 ∨ c = 59 ∨ c = 62 then some (.op c)
  else if isPlain c then some (.word [c] false)
  else none

/-- The number that decimal digits stand for. -/
def number (w : Bytes) : Nat := w.foldl (fun n c => n * 10 + (c.toNat - 48)) 0

/-- A word that ends in front of a byte: unquoted digits in front of a
    redirection are the number of a descriptor. -/
def delimit (w : Bytes) (quoted : Bool) (c : UInt8) : Token :=
  if c = 62 ∧ quoted = false ∧ w.all (fun d => 48 ≤ d && d ≤ 57) then .ioNumber (number w)
  else .word w

/-- The operator that ends in front of a byte, if the two do not make another
    one. -/
def operator (c d : UInt8) : Option Token :=
  if c = 59 ∧ d ≠ 59 then some .semi
  else if c = 62 ∧ d ≠ 62 ∧ d ≠ 38 ∧ d ≠ 124 then some .great
  else none

/-- One byte of a script. -/
def step : Mode → UInt8 → Option (List Token × Mode)
  | .start, c => (begin c).map fun m => ([], m)
  | .word w quoted, c =>
    if c = 39 then some ([], .quote w)
    else if c = 92 then some ([], .escape w)
    else if isPlain c then some ([], .word (w ++ [c]) quoted)
    else (begin c).map fun m => ([delimit w quoted c], m)
  | .quote w, c => if c = 39 then some ([], .word w true) else some ([], .quote (w ++ [c]))
  -- a line that goes on behind a backslash is not read
  | .escape w, c => if c = 10 then none else some ([], .word (w ++ [c]) true)
  | .op c, d =>
    if c = 38 ∧ d = 38 then some ([.andIf], .start)
    else if c = 62 ∧ d = 62 then some ([.dgreat], .start)
    else (operator c d).bind fun t => (begin d).map fun m => ([t], m)

/-- The end of a script. -/
def finish : Mode → Option (List Token)
  | .start => some []
  | .word w _ => some [.word w]
  | .op c => if c = 59 then some [.semi] else none
  | .quote _ => none
  | .escape _ => none

/-- The tokens of a script. -/
def tokens (script : Bytes) : Option (List Token) := run step finish script .start

/-- One byte inside single quotes: a quote ends them, stands escaped, and opens
    them again. -/
def quoteByte (c : UInt8) : Bytes := if c = 39 then [39, 92, 39, 39] else [c]

/-- A text inside single quotes. -/
def quoteBody (s : Bytes) : Bytes := s.flatMap quoteByte

theorem scan_quoteByte (c : UInt8) (w : Bytes) :
    scan step (quoteByte c) (.quote w) = some ([], .quote (w ++ [c])) := by
  unfold quoteByte
  by_cases hc : c = 39
  · rw [if_pos hc, hc]
    rfl
  · rw [if_neg hc, scan, step, if_neg hc]
    rfl

/-- Inside quotes a text is read back, whatever stands in it. -/
theorem scan_quoteBody (s w : Bytes) :
    scan step (quoteBody s) (.quote w) = some ([], .quote (w ++ s)) := by
  induction s generalizing w with
  | nil =>
      rw [List.append_nil]
      rfl
  | cons c s ih =>
      rw [quoteBody, List.flatMap_cons, scan_append_of_eq step (scan_quoteByte c w)]
      change (scan step (quoteBody s) _).map _ = _
      rw [ih, List.append_assoc]
      rfl

/-- The quotes around it. -/
theorem scan_quoted (s : Bytes) :
    scan step (39 :: (quoteBody s ++ [39])) .start = some ([], .word s true) := by
  have hopen : scan step [39] .start = some ([], .quote []) := rfl
  have hclose : scan step [39] (.quote s) = some ([], .word s true) := rfl
  rw [← List.singleton_append, scan_append_of_eq step hopen,
    scan_append_of_eq step (scan_quoteBody s []), List.nil_append, hclose]
  rfl

/-- A quoted word with a blank behind it, and the rest of the script. -/
theorem run_quoted (s t : Bytes) : run step finish (39 :: (quoteBody s ++ 39 :: 32 :: t)) .start =
    (run step finish t .start).map fun ts => .word s :: ts := by
  have hblank : step (.word s true) 32 = some ([.word s], .start) := rfl
  have hsplit : 39 :: (quoteBody s ++ 39 :: 32 :: t) = 39 :: (quoteBody s ++ [39]) ++ 32 :: t := by
    rw [List.cons_append, List.append_assoc, List.singleton_append]
  rw [hsplit, run_append step finish _ (scan_quoted s), run_cons, hblank, Option.bind_some,
    Option.map_map]
  rfl

/-- Tokens in front of a quoted word. -/
theorem run_append_quoted {l : Bytes} {ts : List Token}
    (hl : scan step l .start = some (ts, .start)) (s t : Bytes) :
    run step finish (l ++ 39 :: (quoteBody s ++ 39 :: 32 :: t)) .start =
      (run step finish t .start).map fun us => ts ++ .word s :: us := by
  rw [run_append step finish _ hl, run_quoted, Option.map_map]
  rfl

/-- Where the output of a command goes: a descriptor, and a file that is
    appended to or begun anew. -/
structure Redirect where
  fd : Nat
  append : Bool
  path : Bytes
  deriving DecidableEq, Repr

/-- A simple command, with one redirection at most. -/
structure Command where
  words : List Bytes
  redirect : Option Redirect
  deriving DecidableEq, Repr

/-- The words that do not begin a simple command. -/
def reserved : List Bytes :=
  ["if", "then", "else", "elif", "fi", "do", "done", "case", "esac", "while", "until", "for",
    "in", "!", "\x7b", "\x7d"].map fun s => s.toUTF8.data.toList

/-- The redirection of a command that has none yet. -/
def Command.to (c : Command) (r : Redirect) : Option Command :=
  match c.redirect with
  | none => some { c with redirect := some r }
  | some _ => none

/-- A command that is complete. -/
def Command.done (c : Command) : Option Command :=
  match c.words with
  | [] => none
  | w :: _ => if reserved.contains w then none else some c

/-- The commands of a script: lists of lists, where those joined by `&&` are
    together. -/
def parseFrom (c : Command) : List Token → Option (List (List Command))
  | [] => c.done.map fun c => [[c]]
  | .word w :: ts => parseFrom { c with words := c.words ++ [w] } ts
  | .great :: .word p :: ts => (c.to ⟨1, false, p⟩).bind fun c => parseFrom c ts
  | .dgreat :: .word p :: ts => (c.to ⟨1, true, p⟩).bind fun c => parseFrom c ts
  | .ioNumber n :: .great :: .word p :: ts => (c.to ⟨n, false, p⟩).bind fun c => parseFrom c ts
  | .ioNumber n :: .dgreat :: .word p :: ts => (c.to ⟨n, true, p⟩).bind fun c => parseFrom c ts
  | .semi :: ts =>
    c.done.bind fun c => (parseFrom ⟨[], none⟩ ts).map fun lists => [c] :: lists
  | .andIf :: ts =>
    c.done.bind fun c => (parseFrom ⟨[], none⟩ ts).map fun
      | list :: lists => (c :: list) :: lists
      | [] => [[c]]
  | _ => none

def parse (ts : List Token) : Option (List (List Command)) := parseFrom ⟨[], none⟩ ts

/-- What is written to a file. -/
structure Write where
  path : Bytes
  append : Bool
  bytes : Bytes
  deriving DecidableEq, Repr

/-- What a command writes to each descriptor, and whether it succeeds. -/
structure Outcome where
  output : Nat → Bytes
  success : Bool

section Execution

variable (opens : Bytes → Bool) (command : List Bytes → Option Outcome)

/-- A command runs when the file it is redirected to can be opened. -/
def execCommand (c : Command) : Option (List Write × Bool) :=
  match c.redirect with
  | none => (command c.words).map fun o => ([], o.success)
  | some r =>
    if opens r.path then
      (command c.words).map fun o => ([⟨r.path, r.append, o.output r.fd⟩], o.success)
    else some ([], false)

/-- Commands joined by `&&`: the first failure ends them. -/
def execAnd : List Command → Option (List Write)
  | [] => some []
  | c :: cs => (execCommand opens command c).bind fun p =>
      if p.2 then (execAnd cs).map fun writes => p.1 ++ writes else some p.1

/-- Lists joined by `;`: each is run. -/
def execLists : List (List Command) → Option (List Write)
  | [] => some []
  | l :: ls => (execAnd opens command l).bind fun writes =>
      (execLists ls).map fun more => writes ++ more

/-- What a script writes to files; `none` for a script, or a command in it, that
    has no reading. -/
def exec (script : Bytes) : Option (List Write) :=
  (tokens script).bind fun ts => (parse ts).bind (execLists opens command)

/-- Behind a command that succeeds the list goes on. -/
theorem execAnd_cons_of_success {c : Command} {ws : List Write}
    (h : execCommand opens command c = some (ws, true)) (cs : List Command) :
    execAnd opens command (c :: cs) = (execAnd opens command cs).map fun us => ws ++ us := by
  rw [execAnd, h]
  rfl

theorem execAnd_cons_of_failure {c : Command} {ws : List Write}
    (h : execCommand opens command c = some (ws, false)) (cs : List Command) :
    execAnd opens command (c :: cs) = some ws := by
  rw [execAnd, h]
  rfl

theorem execLists_cons {l : List Command} {ls : List (List Command)} {ws us : List Write}
    (hl : execAnd opens command l = some ws) (hls : execLists opens command ls = some us) :
    execLists opens command (l :: ls) = some (ws ++ us) := by
  rw [execLists, hl, hls]
  rfl

end Execution

/-- What is written to one file: whether behind what it holds, and the bytes. -/
def writesTo (path : Bytes) (ws : List Write) : List (Bool × Bytes) :=
  (ws.filter fun w => w.path == path).map fun w => (w.append, w.bytes)

theorem writesTo_append (path : Bytes) (ws us : List Write) :
    writesTo path (ws ++ us) = writesTo path ws ++ writesTo path us := by
  rw [writesTo, List.filter_append, List.map_append]
  rfl

theorem writesTo_single (path path' : Bytes) (append : Bool) (bytes : Bytes) :
    writesTo path [⟨path', append, bytes⟩] = if path' == path then [(append, bytes)] else [] := by
  rw [writesTo, List.filter_cons]
  cases path' == path <;> rfl

/-- Nothing is written to a file that no write names. -/
theorem writesTo_eq_nil {path : Bytes} {ws : List Write} (h : ∀ w ∈ ws, w.path ≠ path) :
    writesTo path ws = [] := by
  rw [writesTo, List.filter_eq_nil_iff.mpr, List.map_nil]
  intro w hw
  rw [beq_iff_eq]
  exact h w hw

end Shell
