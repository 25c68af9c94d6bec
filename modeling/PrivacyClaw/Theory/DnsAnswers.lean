import Mathlib.Data.List.TakeWhile
import PrivacyClaw.Core.Network

/-!
# DNS Answers

The address that is read from a DNS response.

A record begins with a name of any length, and what stands behind it is found only
if the name is skipped. A name is a chain of labels that ends in a zero or in a
pointer to where it goes on. The reader has three loops: the one for the question
looks for both ends, but in an answer a pointer is looked for at the beginning
only. Behind labels it is taken for the length of another label, of 192 bytes or
more, and the record that is read then is made of bytes from further on.

So the first address is read where no name up to its record is of this kind. If one
is, and the jump leads out of the response, nothing is read
(`parseFirstARecord_spec`). On any bytes the loops end and stay in the response
(`parseFirstARecord_isSome`).

## Main definitions

* `DnsName`, `DnsRecord`, `DnsResponse`: Responses by their parts.
* `DnsName.Mixed`: Labels with a pointer behind them.
* `DnsResponse.firstAddress`, `DnsResponse.read`: The address, and the records
  that have to be read for it.
* `DnsResponse.JumpsOut`: The first pointer behind labels leads out.

## Theorems

* `skipQname_name`, `skipLabels_labels`, `skipName_name`: Names are skipped.
* `skipName_mixed`: A pointer behind labels.
* `answerRecords_step`, `answerRecords_append`: The loop over the answers.
* `DnsResponse.parseFirstARecord_read`, `DnsResponse.parseFirstARecord_jumpsOut`:
  Responses that are read, and some that are not.
* `parseFirstARecord_isSome`: The reader returns.
* `parseFirstARecord_spec`: What it returns.
-/

namespace PrivacyClaw

open Wire

/-- A name: labels, and where it goes on, or its end. -/
structure DnsName where
  labels : List Str
  pointer : Option Nat
  labels_length : ∀ l ∈ labels, 0 < l.length ∧ l.length < 64
  pointer_lt : ∀ p ∈ pointer, p < 2 ^ 14

/-- A label with its length. -/
def labelBytes (l : Str) : Str := UInt8.ofNat l.length :: l

theorem length_labelBytes (l : Str) : (labelBytes l).length = 1 + l.length := Nat.add_comm _ _

theorem length_le_labels (labels : List Str) :
    labels.length ≤ (labels.flatMap labelBytes).length := by
  induction labels with
  | nil => exact Nat.le_refl _
  | cons l labels ih =>
      rw [List.flatMap_cons, List.length_append, length_labelBytes, List.length_cons]
      omega

/-- The end of a name: two bytes of which the first has its upper bits set, or a
    zero. -/
def nameEnd : Option Nat → Str
  | none => [0]
  | some p => [UInt8.ofNat (192 + p / 256), UInt8.ofNat (p % 256)]

namespace DnsName

/-- How a name is sent. -/
def bytes (n : DnsName) : Str := n.labels.flatMap labelBytes ++ nameEnd n.pointer

/-- Labels with a pointer behind them. -/
def Mixed (n : DnsName) : Prop := n.labels ≠ [] ∧ n.pointer ≠ none

instance (n : DnsName) : Decidable n.Mixed := inferInstanceAs (Decidable (_ ∧ _))

end DnsName

/-- A resource record. The data of an address are four bytes. -/
structure DnsRecord where
  name : DnsName
  rtype : Nat
  classTtl : Str
  rdata : Str
  rtype_lt : rtype < 2 ^ 16
  classTtl_length : classTtl.length = 6
  rdata_lt : rdata.length < 2 ^ 16
  address_length : rtype = 1 → rdata.length = 4

namespace DnsRecord

/-- What stands behind the name. -/
def fields (r : DnsRecord) : Str :=
  be16 r.rtype ++ (r.classTtl ++ (be16 r.rdata.length ++ r.rdata))

/-- How a record is sent. -/
def bytes (r : DnsRecord) : Str := r.name.bytes ++ r.fields

/-- A record with an address. -/
def isA (r : DnsRecord) : Bool := r.rtype == 1

theorem isA_iff (r : DnsRecord) : r.isA = true ↔ r.rtype = 1 := beq_iff_eq

end DnsRecord

/-- A response with one question. The other sections are any bytes. -/
structure DnsResponse where
  idFlags : Str
  counts : Str
  question : DnsName
  typeClass : Str
  answers : List DnsRecord
  rest : Str
  idFlags_length : idFlags.length = 4
  counts_length : counts.length = 4
  typeClass_length : typeClass.length = 4
  answers_lt : answers.length < 2 ^ 16

namespace DnsResponse

variable (m : DnsResponse)

/-- How a response is sent. -/
def bytes : Str :=
  m.idFlags ++ (be16 1 ++ (be16 m.answers.length ++ (m.counts ++ (m.question.bytes ++
    (m.typeClass ++ (m.answers.flatMap DnsRecord.bytes ++ m.rest))))))

/-- The address of the first record that has one. -/
def firstAddress : Option Ipv4Addr := (m.answers.find? DnsRecord.isA).bind fun r => addressAt r.rdata 0

/-- The records up to the first one with an address, and this one. -/
def read : List DnsRecord :=
  m.answers.takeWhile (fun r => !r.isA) ++ (m.answers.find? DnsRecord.isA).toList

/-- The first name with a pointer behind labels, before any address: the pointer,
    taken for a length, leads out of the response. -/
def JumpsOut : Prop :=
  ∃ before r after p, m.answers = before ++ r :: after ∧
    (∀ x ∈ before, x.isA = false ∧ ¬ x.name.Mixed) ∧ r.name.labels ≠ [] ∧
    r.name.pointer = some p ∧
    1 + (r.fields ++ (after.flatMap DnsRecord.bytes ++ m.rest)).length ≤ 192 + p / 256

end DnsResponse

theorem isPointer_label (n : Nat) (hn : n < 64) : isPointer (UInt8.ofNat n) = false := by
  -- a length of at most 63 leaves the upper bits free
  have hall : ∀ n < 64, isPointer (UInt8.ofNat n) = false := by decide
  exact hall n hn

theorem isPointer_pointer (p : Nat) (hp : p < 2 ^ 14) :
    isPointer (UInt8.ofNat (192 + p / 256)) = true := by
  have hall : ∀ n < 64, isPointer (UInt8.ofNat (192 + n)) = true := by decide
  exact hall (p / 256) (by omega)

/-- The length of a label is no end of a name. -/
theorem labelLength_ne (l : Str) (hl : 0 < l.length ∧ l.length < 64) :
    UInt8.ofNat l.length ≠ 0 ∧ (UInt8.ofNat l.length).toNat = l.length := by
  have hto := toNat_ofNat l.length (by omega)
  refine ⟨fun h => ?_, hto⟩
  rw [h] at hto
  change 0 = l.length at hto
  omega

theorem pointerByte_ne (p : Nat) (hp : p < 2 ^ 14) : UInt8.ofNat (192 + p / 256) ≠ 0 := fun h => by
  have := isPointer_pointer p hp
  rw [h] at this
  exact absurd this (by decide)

section Skipping

variable {response : Str}

theorem Left.lt_length {pos : Nat} {b : UInt8} {r : Str} (h : Left response pos (b :: r)) :
    pos < response.length := by
  have := h.length_eq
  rw [List.length_cons] at this
  omega

/-- One turn of the loop for the question. -/
theorem skipQname_cons {pos : Nat} {b : UInt8} {r : Str} (h : Left response pos (b :: r))
    (fuel : Nat) : skipQname response (fuel + 1) pos =
      if b = 0 then some (some (pos + 1))
      else if isPointer b then some (some (pos + 2))
      else skipQname response fuel (pos + 1 + b.toNat) := by
  rw [skipQname, if_neg (Nat.not_le.mpr (Left.lt_length h)), h.getElem?_eq]
  rfl

/-- One turn of the loop for an answer. -/
theorem skipLabels_cons {pos : Nat} {b : UInt8} {r : Str} (h : Left response pos (b :: r))
    (fuel : Nat) : skipLabels response (fuel + 1) pos =
      if b = 0 then some (some (pos + 1)) else skipLabels response fuel (pos + 1 + b.toNat) := by
  rw [skipLabels, if_neg (Nat.not_le.mpr (Left.lt_length h)), h.getElem?_eq]
  rfl

/-- The loop for the question stops behind any name. -/
theorem skipQname_name (p : Option Nat) (hp : ∀ q ∈ p, q < 2 ^ 14) (r : Str) :
    ∀ (labels : List Str) (fuel pos : Nat), (∀ l ∈ labels, 0 < l.length ∧ l.length < 64) →
      labels.length < fuel → Left response pos (labels.flatMap labelBytes ++ (nameEnd p ++ r)) →
      skipQname response fuel pos =
        some (some (pos + (labels.flatMap labelBytes ++ nameEnd p).length)) := by
  intro labels
  induction labels with
  | nil =>
      intro fuel pos _ hfuel hleft
      cases fuel with
      | zero => exact absurd hfuel (Nat.not_lt_zero _)
      | succ fuel =>
          -- both ends of a name stop this loop
          cases p with
          | none => exact (skipQname_cons hleft fuel).trans (if_pos rfl)
          | some q =>
              have hq := hp q rfl
              exact (skipQname_cons hleft fuel).trans ((if_neg (pointerByte_ne q hq)).trans
                (if_pos (isPointer_pointer q hq)))
  | cons l labels ih =>
      intro fuel pos hlabels hfuel hleft
      rw [List.forall_mem_cons] at hlabels
      rw [List.flatMap_cons, List.append_assoc] at hleft
      cases fuel with
      | zero => exact absurd hfuel (Nat.not_lt_zero _)
      | succ fuel =>
          rcases labelLength_ne l hlabels.1 with ⟨hne, hto⟩
          -- one turn skips the length byte and the label
          have hnext : Left response (pos + 1 + l.length)
              (labels.flatMap labelBytes ++ (nameEnd p ++ r)) := hleft.skip_cons.skip
          rw [List.length_cons] at hfuel
          refine (skipQname_cons hleft fuel).trans ?_
          rw [if_neg hne, isPointer_label _ hlabels.1.2, if_neg Bool.false_ne_true, hto,
            ih fuel _ hlabels.2 (by omega) hnext, List.flatMap_cons, List.append_assoc,
            @List.length_append _ (labelBytes l), length_labelBytes, Nat.add_assoc, Nat.add_assoc,
            Nat.add_assoc]

/-- In an answer labels are stepped over, whatever stands behind them. -/
theorem skipLabels_labels (r : Str) : ∀ (labels : List Str) (fuel pos : Nat),
    (∀ l ∈ labels, 0 < l.length ∧ l.length < 64) →
    Left response pos (labels.flatMap labelBytes ++ r) →
      skipLabels response (labels.length + fuel) pos =
        skipLabels response fuel (pos + (labels.flatMap labelBytes).length) := by
  intro labels
  induction labels with
  | nil =>
      intro fuel pos _ _
      rw [List.length_nil, Nat.zero_add]
      rfl
  | cons l labels ih =>
      intro fuel pos hlabels hleft
      rw [List.forall_mem_cons] at hlabels
      rw [List.flatMap_cons, List.append_assoc] at hleft
      rcases labelLength_ne l hlabels.1 with ⟨hne, hto⟩
      have hnext : Left response (pos + 1 + l.length) (labels.flatMap labelBytes ++ r) :=
        hleft.skip_cons.skip
      rw [List.length_cons, Nat.add_right_comm]
      refine (skipLabels_cons hleft _).trans ?_
      rw [if_neg hne, hto, ih fuel _ hlabels.2 hnext, List.flatMap_cons, List.length_append,
        length_labelBytes, Nat.add_assoc, Nat.add_assoc, Nat.add_assoc]

/-- A name that does not begin with a pointer is read label by label, up to what
    stands behind its labels. -/
theorem skipName_labels {pos : Nat} {b : UInt8} {r r' : Str} (hfirst : Left response pos (b :: r'))
    (hb : isPointer b = false) (labels : List Str)
    (hlabels : ∀ l ∈ labels, 0 < l.length ∧ l.length < 64)
    (h : Left response pos (labels.flatMap labelBytes ++ r)) :
    skipName response pos = skipLabels response (response.length - labels.length + 1)
      (pos + (labels.flatMap labelBytes).length) := by
  have hlen := h.length_eq
  have hle := length_le_labels labels
  rw [List.length_append] at hlen
  -- there is fuel for one turn more than there are bytes
  rw [← skipLabels_labels r labels _ pos hlabels h, skipName, hfirst.getElem?_eq,
    show labels.length + (response.length - labels.length + 1) = response.length + 1 by omega]
  simp only [Option.bind_eq_bind, Option.bind_some, hb, Bool.false_eq_true, if_false]

/-- The first byte of labels is a length. -/
theorem labels_head {labels : List Str} (hne : labels ≠ [])
    (hlabels : ∀ l ∈ labels, 0 < l.length ∧ l.length < 64) {pos : Nat} {r : Str}
    (h : Left response pos (labels.flatMap labelBytes ++ r)) :
    ∃ b r', Left response pos (b :: r') ∧ isPointer b = false := by
  cases labels with
  | nil => exact absurd rfl hne
  | cons l labels =>
      rw [List.flatMap_cons, List.append_assoc] at h
      exact ⟨_, _, h, isPointer_label _ (hlabels l List.mem_cons_self).2⟩

/-- A name without a pointer behind labels is skipped. -/
theorem skipName_name (n : DnsName) (hn : ¬ n.Mixed) {pos : Nat} {r : Str}
    (h : Left response pos (n.bytes ++ r)) :
    skipName response pos = some (some (pos + n.bytes.length)) := by
  rw [DnsName.bytes, List.append_assoc] at h
  cases hp : n.pointer with
  | none =>
      rw [hp] at h
      have hfirst : ∃ b r', Left response pos (b :: r') ∧ isPointer b = false := by
        by_cases hne : n.labels = []
        · rw [hne] at h
          exact ⟨0, r, h, by decide⟩
        · exact labels_head hne n.labels_length h
      rcases hfirst with ⟨b, r', hfirst, hb⟩
      rw [skipName_labels hfirst hb n.labels n.labels_length h, DnsName.bytes, hp,
        List.length_append]
      exact (skipLabels_cons h.skip _).trans (if_pos rfl)
  | some p =>
      -- a pointer can only be the whole name
      have hne : n.labels = [] := by
        by_contra hne
        exact hn ⟨hne, by rw [hp]; exact Option.some_ne_none p⟩
      rw [hne, hp] at h
      have hpointer := isPointer_pointer p (n.pointer_lt p hp)
      rw [skipName, Left.getElem?_eq h, DnsName.bytes, hne, hp]
      simp only [Option.bind_eq_bind, Option.bind_some, hpointer, if_true]
      rfl

/-- A pointer behind labels leads on by as much as it is as a length. -/
theorem skipName_mixed (n : DnsName) (p : Nat) (hne : n.labels ≠ [])
    (hp : n.pointer = some p) {pos : Nat} {r : Str} (h : Left response pos (n.bytes ++ r))
    (hout : 1 + r.length ≤ 192 + p / 256) : skipName response pos = some none := by
  rw [DnsName.bytes, hp, List.append_assoc] at h
  rcases labels_head hne n.labels_length h with ⟨b, r', hfirst, hb⟩
  have hpq := n.pointer_lt p hp
  have hpointer := h.skip
  have hlen := hpointer.length_eq
  have hto := toNat_ofNat (192 + p / 256) (by omega)
  have hle := length_le_labels n.labels
  rw [List.length_append, show (nameEnd (some p)).length = 2 from rfl] at hlen
  rw [skipName_labels hfirst hb n.labels n.labels_length h]
  -- the pointer is stepped over as a label, out of the response
  refine (skipLabels_cons hpointer _).trans ?_
  rw [if_neg (pointerByte_ne p hpq), hto,
    show response.length - n.labels.length = response.length - n.labels.length - 1 + 1 by omega,
    skipLabels, if_pos (by omega)]

/-- What stands behind a name is read. -/
theorem recordFields_eq (r : DnsRecord) {pos : Nat} {t : Str}
    (h : Left response pos (r.fields ++ t)) : pos + 10 ≤ response.length ∧
      recordFields response pos = some (r.rtype, pos + 10, r.rdata.length) ∧
        Left response (pos + 10) (r.rdata ++ t) := by
  have hlen := h.length_eq
  rw [DnsRecord.fields, List.append_assoc, List.append_assoc, List.append_assoc] at h
  have hclass := h.skip
  have hrdlen := hclass.skip
  have hdata := hrdlen.skip
  simp only [length_be16, r.classTtl_length, Nat.add_assoc, Nat.reduceAdd] at hrdlen hdata
  refine ⟨?_, ?_, hdata⟩
  · simp only [DnsRecord.fields, List.length_append, length_be16, r.classTtl_length] at hlen
    omega
  · simp only [recordFields, h.u16At_eq r.rtype_lt, hrdlen.u16At_eq r.rdata_lt,
      Option.bind_eq_bind, Option.bind_some]

/-- Four bytes are an address wherever they stand. -/
theorem addressAt_eq (d : Str) (hd : d.length = 4) {pos : Nat} {t : Str}
    (h : Left response pos (d ++ t)) :
    pos + 4 ≤ response.length ∧ addressAt response pos = addressAt d 0 ∧
      (addressAt d 0).isSome = true := by
  rcases d with _ | ⟨a, _ | ⟨b, _ | ⟨c, _ | ⟨e, d⟩⟩⟩⟩
  iterate 4 exact absurd hd (by simp only [List.length_cons, List.length_nil]; decide)
  have hnil : d = [] := by
    simp only [List.length_cons] at hd
    exact List.length_eq_zero_iff.mp (by omega)
  subst hnil
  have hlen := h.length_eq
  simp only [List.length_append, List.length_cons, List.length_nil] at hlen
  have h1 := h.skip_cons
  have h2 := h1.skip_cons
  have h3 := h2.skip_cons
  refine ⟨by omega, ?_, rfl⟩
  simp only [addressAt, Left.getElem?_eq h, Left.getElem?_eq h1, Left.getElem?_eq h2,
    Left.getElem?_eq h3, Option.bind_eq_bind, Option.bind_some]
  rfl

/-- One turn of the loop over the answers. -/
theorem answerRecords_step (r : DnsRecord) (hn : ¬ r.name.Mixed) {pos : Nat} {t : Str}
    (h : Left response pos (r.bytes ++ t)) (n : Nat) :
    answerRecords response (n + 1) pos =
      if r.isA then some (addressAt r.rdata 0)
      else answerRecords response n (pos + r.bytes.length) := by
  have hlen := h.length_eq
  rw [DnsRecord.bytes, List.append_assoc] at h
  rcases recordFields_eq r h.skip with ⟨hten, hfields, hdata⟩
  have hpos : ¬ pos ≥ response.length := by omega
  rw [answerRecords, if_neg hpos, skipName_name r.name hn h]
  dsimp only
  rw [if_neg (by omega), hfields]
  dsimp only
  by_cases hA : r.rtype = 1
  · -- an address ends the loop
    rcases addressAt_eq r.rdata (r.address_length hA) hdata with ⟨hfour, haddr, hsome⟩
    rw [if_pos ⟨hA, r.address_length hA, hfour⟩, haddr, if_pos (r.isA_iff.mpr hA)]
    cases ha : addressAt r.rdata 0 with
    | none =>
        rw [ha] at hsome
        exact absurd hsome Bool.false_ne_true
    | some a => rfl
  · rw [if_neg fun hc => hA hc.1, if_neg fun hc => hA (r.isA_iff.mp hc), DnsRecord.bytes,
      List.length_append]
    -- any other data are skipped by their length
    congr 1
    simp only [DnsRecord.fields, List.length_append, length_be16, r.classTtl_length]
    omega

/-- Records without addresses are stepped over. -/
theorem answerRecords_append {t : Str} : ∀ (before : List DnsRecord) (n pos : Nat),
    (∀ x ∈ before, x.isA = false ∧ ¬ x.name.Mixed) →
    Left response pos (before.flatMap DnsRecord.bytes ++ t) →
      answerRecords response (before.length + n) pos =
        answerRecords response n (pos + (before.flatMap DnsRecord.bytes).length) := by
  intro before
  induction before with
  | nil =>
      intro n pos _ _
      rw [List.length_nil, Nat.zero_add]
      rfl
  | cons r before ih =>
      intro n pos hall hleft
      rw [List.forall_mem_cons] at hall
      rw [List.flatMap_cons, List.append_assoc] at hleft
      rw [List.length_cons, Nat.add_right_comm, answerRecords_step r hall.1.2 hleft, hall.1.1,
        if_neg Bool.false_ne_true, ih n _ hall.2 hleft.skip, List.flatMap_cons, List.length_append,
        Nat.add_assoc]

end Skipping

namespace DnsResponse

variable (m : DnsResponse)

/-- Where the loop over the answers starts. -/
theorem parseFirstARecord_eq : ∃ pos,
    Left m.bytes pos (m.answers.flatMap DnsRecord.bytes ++ m.rest) ∧
      parseFirstARecord m.bytes = answerRecords m.bytes m.answers.length pos := by
  have hcount : Left m.bytes 6 (be16 m.answers.length ++ (m.counts ++ (m.question.bytes ++
      (m.typeClass ++ (m.answers.flatMap DnsRecord.bytes ++ m.rest))))) := by
    refine ⟨m.idFlags ++ be16 1, ?_, ?_⟩
    · rw [List.length_append, m.idFlags_length, length_be16]
    · rw [List.append_assoc]
      rfl
  -- twelve bytes of header, then the question
  have hquestion := hcount.skip.skip
  rw [length_be16, m.counts_length] at hquestion
  have hlen := hquestion.length_eq
  have hclass := hquestion.skip
  have hanswers := hclass.skip
  rw [m.typeClass_length] at hanswers
  refine ⟨_, hanswers, ?_⟩
  have hlabels := length_le_labels m.question.labels
  have hname := hquestion
  rw [DnsName.bytes, List.append_assoc] at hname
  rw [List.length_append, DnsName.bytes, List.length_append] at hlen
  have hskip := skipQname_name m.question.pointer m.question.pointer_lt _ m.question.labels
    (m.bytes.length + 1) _ m.question.labels_length (by omega) hname
  rw [parseFirstARecord, if_neg (by omega), hcount.u16At_eq m.answers_lt]
  dsimp only
  by_cases hnone : m.answers.length = 0
  · rw [if_pos hnone, hnone]
    rfl
  · rw [if_neg hnone, hskip]
    rfl

/-- The first address is read when the names up to it are skipped. -/
theorem parseFirstARecord_read (hread : ∀ r ∈ m.read, ¬ r.name.Mixed) :
    parseFirstARecord m.bytes = some m.firstAddress := by
  rcases m.parseFirstARecord_eq with ⟨pos, hleft, hparse⟩
  rw [hparse, firstAddress]
  unfold read at hread
  cases hfind : m.answers.find? DnsRecord.isA with
  -- no record has an address, so all of them are read
  | none =>
      have hall : ∀ x ∈ m.answers, x.isA = false := fun x hx =>
        Bool.not_eq_true _ ▸ List.find?_eq_none.mp hfind x hx
      rw [hfind, Option.toList_none, List.append_nil] at hread
      have hstep := answerRecords_append m.answers 0 pos (fun x hx => ⟨hall x hx, hread x ?_⟩) hleft
      · rw [Nat.add_zero] at hstep
        exact hstep
      · rw [List.takeWhile_eq_self_iff.mpr fun y hy => by rw [hall y hy]; rfl]
        exact hx
  | some r =>
      rcases List.find?_eq_some_iff_append.mp hfind with ⟨hA, before, after, hsplit, hbefore⟩
      -- the records in front of the first address
      have hread' : m.answers.takeWhile (fun r => !r.isA) = before := by
        have hstop : ¬ (!r.isA) = true := by
          rw [hA]
          exact Bool.false_ne_true
        rw [hsplit, List.takeWhile_append_of_pos hbefore, List.takeWhile_cons, if_neg hstop,
          List.append_nil]
      rw [hread', hfind, Option.toList_some, List.forall_mem_append,
        List.forall_mem_singleton] at hread
      rw [hsplit, List.flatMap_append, List.append_assoc] at hleft
      have hstep := answerRecords_append before (after.length + 1) pos (fun x hx =>
        ⟨by simpa only [Bool.not_eq_true'] using hbefore x hx, hread.1 x hx⟩) hleft
      have hr := hleft.skip
      rw [List.flatMap_cons, List.append_assoc] at hr
      rw [hsplit, List.length_append, List.length_cons, hstep, answerRecords_step r hread.2 hr,
        if_pos hA, Option.bind_some]

/-- A pointer that leads out ends the search. -/
theorem parseFirstARecord_jumpsOut (hout : m.JumpsOut) :
    parseFirstARecord m.bytes = some none := by
  rcases hout with ⟨before, r, after, p, hsplit, hbefore, hlabels, hp, hlen⟩
  rcases m.parseFirstARecord_eq with ⟨pos, hleft, hparse⟩
  rw [hsplit, List.flatMap_append, List.append_assoc] at hleft
  have hname := hleft.skip
  rw [List.flatMap_cons, DnsRecord.bytes, List.append_assoc, List.append_assoc] at hname
  rw [hparse, hsplit, List.length_append, answerRecords_append before _ pos hbefore hleft,
    List.length_cons, answerRecords]
  have hpos := hname.length_eq
  rw [if_neg, skipName_mixed r.name p hlabels hp hname hlen]
  rw [List.length_append, DnsName.bytes, hp, List.length_append] at hpos
  simp only [nameEnd, List.length_cons] at hpos
  omega

end DnsResponse

section Returns

variable (response : Str)

/-- The loop for the question ends before it has run once for each byte. -/
theorem skipQname_isSome : ∀ fuel pos, response.length < pos + fuel → 0 < fuel →
    (skipQname response fuel pos).isSome = true := by
  intro fuel
  induction fuel with
  | zero => exact fun _ _ h => absurd h (Nat.lt_irrefl 0)
  | succ fuel ih =>
      intro pos hfuel _
      rw [skipQname]
      by_cases hpos : pos ≥ response.length
      · rw [if_pos hpos]
        rfl
      · rw [if_neg hpos, List.getElem?_eq_getElem (by omega), Option.bind_eq_bind, Option.bind_some]
        split
        · rfl
        · split
          · rfl
          · exact ih _ (by omega) (by omega)

/-- So does the one for an answer. -/
theorem skipLabels_isSome : ∀ fuel pos, response.length < pos + fuel → 0 < fuel →
    (skipLabels response fuel pos).isSome = true := by
  intro fuel
  induction fuel with
  | zero => exact fun _ _ h => absurd h (Nat.lt_irrefl 0)
  | succ fuel ih =>
      intro pos hfuel _
      rw [skipLabels]
      by_cases hpos : pos ≥ response.length
      · rw [if_pos hpos]
        rfl
      · rw [if_neg hpos, List.getElem?_eq_getElem (by omega), Option.bind_eq_bind, Option.bind_some]
        split
        · rfl
        · exact ih _ (by omega) (by omega)

theorem skipName_isSome (pos : Nat) (hpos : pos < response.length) :
    (skipName response pos).isSome = true := by
  rw [skipName, List.getElem?_eq_getElem hpos, Option.bind_eq_bind, Option.bind_some]
  split
  · rfl
  · exact skipLabels_isSome response _ _ (by omega) (Nat.succ_pos _)

theorem u16At_isSome (pos : Nat) (hpos : pos + 1 < response.length) :
    (u16At response pos).isSome = true := by
  rw [u16At, List.getElem?_eq_getElem (by omega), List.getElem?_eq_getElem hpos]
  rfl

/-- Nothing is read outside the response. -/
theorem answerRecords_isSome : ∀ n pos, (answerRecords response n pos).isSome = true := by
  intro n
  induction n with
  | zero => exact fun _ => rfl
  | succ n ih =>
      intro pos
      rw [answerRecords]
      by_cases hpos : pos ≥ response.length
      · rw [if_pos hpos]
        rfl
      rw [if_neg hpos]
      have hname := skipName_isSome response pos (by omega)
      cases hskip : skipName response pos with
      | none =>
          rw [hskip] at hname
          exact absurd hname Bool.false_ne_true
      | some next =>
          cases next with
          | none => rfl
          | some next =>
              dsimp only
              -- from here on everything is read behind this check
              by_cases hten : next + 10 > response.length
              · rw [if_pos hten]
                rfl
              rw [if_neg hten]
              rcases Option.isSome_iff_exists.mp (u16At_isSome response next (by omega)) with
                ⟨rtype, htype⟩
              rcases Option.isSome_iff_exists.mp (u16At_isSome response (next + 8) (by omega)) with
                ⟨rdlen, hrdlen⟩
              simp only [recordFields, htype, hrdlen, Option.bind_eq_bind, Option.bind_some]
              split
              next hc =>
                simp only [addressAt, List.getElem?_eq_getElem (show next + 10 < response.length by
                  omega), List.getElem?_eq_getElem (show next + 10 + 1 < response.length by omega),
                  List.getElem?_eq_getElem (show next + 10 + 2 < response.length by omega),
                  List.getElem?_eq_getElem (show next + 10 + 3 < response.length by omega)]
                rfl
              next => exact ih _

/-- On any bytes the reader returns. -/
theorem parseFirstARecord_isSome : (parseFirstARecord response).isSome = true := by
  rw [parseFirstARecord]
  by_cases hshort : response.length < 12
  · rw [if_pos hshort]
    rfl
  rw [if_neg hshort]
  rcases Option.isSome_iff_exists.mp (u16At_isSome response 6 (by omega)) with ⟨ancount, hcount⟩
  rw [hcount]
  dsimp only
  split
  · rfl
  · have hname := skipQname_isSome response (response.length + 1) 12 (by omega) (Nat.succ_pos _)
    cases hskip : skipQname response (response.length + 1) 12 with
    | none =>
        rw [hskip] at hname
        exact absurd hname Bool.false_ne_true
    | some next =>
        cases next with
        | none => rfl
        | some next => exact answerRecords_isSome response _ _

end Returns

/-- The reader returns on any bytes. From a response it reads the first address if
    no name up to its record has a pointer behind labels, and nothing if the first
    such pointer leads out. -/
theorem parseFirstARecord_spec (response : Str) (m : DnsResponse) :
    (parseFirstARecord response).isSome = true ∧
      ((∀ r ∈ m.read, ¬ r.name.Mixed) → parseFirstARecord m.bytes = some m.firstAddress) ∧
      (m.JumpsOut → parseFirstARecord m.bytes = some none) :=
  ⟨parseFirstARecord_isSome response, m.parseFirstARecord_read, m.parseFirstARecord_jumpsOut⟩

/-- A response with one address, for a name that ends in a pointer into the
    question. -/
def oneAnswer (labels : List Str) (h : ∀ l ∈ labels, 0 < l.length ∧ l.length < 64) :
    DnsResponse where
  idFlags := [0xAB, 0xCD, 0x81, 0x80]
  counts := [0, 0, 0, 0]
  question := ⟨[lit "www", lit "example", lit "com"], none,
    List.forall_iff_forall_mem.mp (by decide), fun _ hp => absurd hp (Option.not_mem_none _)⟩
  typeClass := [0, 1, 0, 1]
  answers := [⟨⟨labels, some 16, h, fun p hp => by rw [← Option.some.inj hp]; decide⟩, 1,
    [0, 1, 0, 0, 0, 60], [192, 0, 2, 1], by decide, rfl, by decide, fun _ => rfl⟩]
  rest := []
  idFlags_length := rfl
  counts_length := rfl
  typeClass_length := rfl
  answers_lt := Nat.one_lt_two_pow (by decide)

/-- A pointer alone. -/
theorem parseFirstARecord_spec_pointer :
    parseFirstARecord (oneAnswer [] (fun _ h => absurd h List.not_mem_nil)).bytes =
      some (some (192, 0, 2, 1)) :=
  (parseFirstARecord_spec [] (oneAnswer [] (fun _ h => absurd h List.not_mem_nil))).2.1
    (List.forall_iff_forall_mem.mp (by decide))

/-- A label with a pointer behind it hides the address. -/
theorem parseFirstARecord_misses :
    parseFirstARecord (oneAnswer [lit "edge"] (List.forall_iff_forall_mem.mp (by decide))).bytes =
      some none ∧
    (oneAnswer [lit "edge"] (List.forall_iff_forall_mem.mp (by decide))).firstAddress =
      some (192, 0, 2, 1) ∧
    ¬ ∀ m : DnsResponse, parseFirstARecord m.bytes = some m.firstAddress := by
  have hnone : parseFirstARecord
      (oneAnswer [lit "edge"] (List.forall_iff_forall_mem.mp (by decide))).bytes = some none := by
    decide
  have haddr : (oneAnswer [lit "edge"] (List.forall_iff_forall_mem.mp (by decide))).firstAddress =
      some (192, 0, 2, 1) := by decide
  refine ⟨hnone, haddr, fun hall => ?_⟩
  have h := hall (oneAnswer [lit "edge"] (List.forall_iff_forall_mem.mp (by decide)))
  rw [hnone, haddr] at h
  exact absurd h (by decide)

end PrivacyClaw
