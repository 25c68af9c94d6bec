import PrivacyClaw.Core.Text
import PrivacyClaw.Lib.Wire

/-!
# What Is Read from the Network

`src/proxy/network.rs`: the host name of a TLS hello and the address in a DNS
answer.

The first reader takes everything with `get` and the question mark, so it gives
up where the buffer ends. The second one indexes the response; its steps are in
`Option`, where `none` is an index out of range or a loop that has run longer
than there are bytes, and what the function returns is inside.

## Main definitions

* `peekSni`: The host name, by `helloBody`, `handshakeBody`, `extensionsStart`,
  `extensionLoop` and `hostName`.
* `parseFirstARecord`: The address, by `skipQname`, `skipName` and
  `answerRecords`.
-/

namespace PrivacyClaw

open Wire

/-- `usize::checked_add`. -/
def checkedAdd (a b : Nat) : Option Nat := if a + b < 2 ^ 64 then some (a + b) else none

/-- `peek_sni`, the handshake header. -/
def handshakeBody (hs : Str) : Option Str := do
  let kind ← (hs)[0]?
  if kind ≠ 0x01 then none
  else do
    let a ← (hs)[1]?
    let b ← (hs)[2]?
    let c ← (hs)[3]?
    range hs 4 (4 + ofBe24 a b c)

/-- `peek_sni`, the record header. -/
def helloBody (buf : Str) : Option Str :=
  if buf.length < 5 ∨ buf.getD 0 0 ≠ 0x16 then none else handshakeBody (buf.drop 5)

/-- `peek_sni`, what stands before the extensions: where they start and end. -/
def extensionsStart (hello : Str) : Option (Nat × Nat) := do
  let sidLen ← hello[34]?
  let pos ← checkedAdd 34 (1 + sidLen.toNat)
  let csLen ← u16At hello pos
  let pos ← checkedAdd pos (2 + csLen)
  let cmLen ← hello[pos]?
  let pos ← checkedAdd pos (1 + cmLen.toNat)
  let extTotal ← u16At hello pos
  let pos ← checkedAdd pos 2
  let extEnd ← checkedAdd pos extTotal
  some (pos, extEnd)

/-- `peek_sni`, the data of the extension: the first name of the list. -/
def hostName (extData : Str) : Option Str :=
  if extData.length < 5 ∨ extData.getD 2 0 ≠ 0x00 then none
  else
    let nameLen := ofBe16 (extData.getD 3 0) (extData.getD 4 0)
    match range extData 5 (5 + nameLen) with
    | none => none
    | some nameBytes => if utf8Valid nameBytes then some nameBytes else none

/-- `peek_sni`, the loop over the extensions. -/
def extensionLoop (hello : Str) (extEnd pos : Nat) : Option Str :=
  if pos + 4 ≤ extEnd then
    match u16At hello pos, u16At hello (pos + 2) with
    | some extType, some extLen =>
      if extType = 0x0000 then
        (range hello (pos + 4) (pos + 4 + extLen)).bind hostName
      -- `checked_add`
      else if pos + 4 + extLen < 2 ^ 64 then extensionLoop hello extEnd (pos + 4 + extLen)
      else none
    | _, _ => none
  else none
termination_by extEnd - pos

/-- `peek_sni`. -/
def peekSni (buf : Str) : Option Str := do
  let hello ← helloBody buf
  let (pos, extEnd) ← extensionsStart hello
  extensionLoop hello extEnd pos

/-- `Ipv4Addr`. -/
abbrev Ipv4Addr := UInt8 × UInt8 × UInt8 × UInt8

/-- `byte & 0xC0 == 0xC0`. -/
def isPointer (b : UInt8) : Bool := b &&& 0xC0 == 0xC0

section Response

variable (response : Str)

/-- `parse_first_a_record`, the loop over the name of the question. -/
def skipQname : Nat → Nat → Option (Option Nat)
  | 0, _ => none
  | fuel + 1, pos =>
    if pos ≥ response.length then some none
    else do
      let len ← (response)[pos]?
      if len = 0 then some (some (pos + 1))
      else if isPointer len then some (some (pos + 2))
      else skipQname fuel (pos + 1 + len.toNat)

/-- The loop over the labels of a name in an answer. -/
def skipLabels : Nat → Nat → Option (Option Nat)
  | 0, _ => none
  | fuel + 1, pos =>
    if pos ≥ response.length then some none
    else do
      let len ← (response)[pos]?
      if len = 0 then some (some (pos + 1)) else skipLabels fuel (pos + 1 + len.toNat)

/-- The name of an answer, which is a pointer if it begins with one. -/
def skipName (pos : Nat) : Option (Option Nat) := do
  let first ← (response)[pos]?
  if isPointer first then some (some (pos + 2))
  else skipLabels response (response.length + 1) pos

/-- What stands behind the name of an answer: its type, the offset of its data and
    their length. -/
def recordFields (pos : Nat) : Option (Nat × Nat × Nat) := do
  let rtype ← u16At response pos
  let rdlen ← u16At response (pos + 8)
  some (rtype, pos + 10, rdlen)

/-- `Ipv4Addr::new` from the bytes at an offset. -/
def addressAt (pos : Nat) : Option Ipv4Addr := do
  let a ← (response)[pos]?
  let b ← (response)[pos + 1]?
  let c ← (response)[pos + 2]?
  let d ← (response)[pos + 3]?
  some (a, b, c, d)

/-- The loop over the answers. -/
def answerRecords : Nat → Nat → Option (Option Ipv4Addr)
  | 0, _ => some none
  | n + 1, pos =>
    if pos ≥ response.length then some none
    else
      match skipName response pos with
      | none => none
      | some none => some none
      | some (some pos) =>
        if pos + 10 > response.length then some none
        else
          match recordFields response pos with
          | none => none
          | some (rtype, pos, rdlen) =>
            if rtype = 1 ∧ rdlen = 4 ∧ pos + 4 ≤ response.length then
              (addressAt response pos).map some
            else answerRecords n (pos + rdlen)

/-- `parse_first_a_record`. -/
def parseFirstARecord : Option (Option Ipv4Addr) :=
  if response.length < 12 then some none
  else
    match u16At response 6 with
    | none => none
    | some ancount =>
      if ancount = 0 then some none
      else
        match skipQname response (response.length + 1) 12 with
        | none => none
        | some none => some none
        | some (some pos) => answerRecords response ancount (pos + 4)

end Response

end PrivacyClaw
