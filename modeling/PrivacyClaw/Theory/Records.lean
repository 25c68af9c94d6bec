import PrivacyClaw.Theory.Markers

/-!
# The Records of a Log

The lines the store writes behind the header of a log, and what its readers
make of them.

A line is printed on one line and between braces, so the text of a log falls
into exactly the lines that were written. The vault's marker is in the vault's
line only and the detections' in theirs (`contains_vaultMarker`,
`contains_detectionMarker`). A line that the parser reads as the value that was
printed is read as its record and as no other: each kind asks for a string
field that the other two do not have.

So each reader returns the records of its kind (`readMessages_text`,
`readDetections_text`, `readVault_text`, `countRequests_text`), and saving a
vault writes its record into the list (`replaceVaultLine_text`).

## Main definitions

* `Record`: A line behind the header.
* `Record.Reads`: The parser reads back what was printed for the record.
* `convText`: The text of a log.
* `saveRecord`: Saving a vault, on the records.
* `StoreJson.ofRecords`: A parser for given records.

## Theorems

* `fromStrRadix_decimal`: Numbers are read back.
* `Conversation.ofValue_toValue`, `Message.ofValue_toValue`,
  `MessageDetection.ofValue_toValue`, `vaultOfValue_vaultValue`: Records are
  read back.
* `Record.line_whole`: How a line looks.
* `contains_vaultMarker`, `contains_detectionMarker`: Where the markers are.
* `readConvHeader_text`, `readMessages_text`, `readDetections_text`,
  `readVault_text`, `countRequests_text`: What the readers return.
* `replaceVaultLine_text`: What `save_vault` makes of a log.
* `reads_ofRecords`: A parser for given records reads them back.
-/

namespace PrivacyClaw

namespace Storage

theorem digitsFrom_append (radix : Nat) : ∀ (l r : Str) (n : Nat),
    digitsFrom radix n (l ++ r) = (digitsFrom radix n l).bind fun k => digitsFrom radix k r := by
  intro l
  induction l with
  | nil => intro r n; rfl
  | cons b l ih =>
      intro r n
      rw [List.cons_append, digitsFrom, digitsFrom]
      cases digitValue b with
      | none => rfl
      | some d =>
          dsimp only
          by_cases hd : d < radix ∧ n * radix + d < 2 ^ 64
          · rw [if_pos hd, if_pos hd, ih]
          · rw [if_neg hd, if_neg hd]
            rfl

/-- A printed number is a last digit, with the printed rest before it. -/
theorem decimal_step (n : Nat) : ∃ front,
    decimal n = front ++ [UInt8.ofNat (48 + n % 10)] ∧
      (front = [] ∧ n < 10 ∨ front = decimal (n / 10) ∧ n / 10 < n) := by
  rw [decimal_eq]
  by_cases hn : n < 10
  · refine ⟨[], ?_, Or.inl ⟨rfl, hn⟩⟩
    rw [if_pos hn, Nat.mod_eq_of_lt hn]
    rfl
  · exact ⟨_, if_neg hn, Or.inr ⟨rfl, by omega⟩⟩

theorem digitsFrom_decimal (n : Nat) (hn : n < 2 ^ 64) : digitsFrom 10 0 (decimal n) = some n := by
  have hvalue : ∀ k < 10, digitValue (UInt8.ofNat (48 + k)) = some k := by decide
  have hlast : n % 10 < 10 := Nat.mod_lt _ (by decide)
  induction n using Nat.strongRecOn with
  | ind n ih =>
      rcases decimal_step n with ⟨front, he, ⟨rfl, hsmall⟩ | ⟨rfl, hdiv⟩⟩
      · rw [he, List.nil_append, digitsFrom, hvalue _ hlast]
        dsimp only
        rw [if_pos ⟨hlast, by omega⟩, digitsFrom, Option.some.injEq]
        omega
      · rw [he, digitsFrom_append, ih (n / 10) hdiv (by omega) (Nat.mod_lt _ (by decide)),
          Option.bind_some, digitsFrom, hvalue _ hlast]
        dsimp only
        rw [if_pos ⟨hlast, by omega⟩, digitsFrom, Option.some.injEq]
        omega

/-- A printed number starts with a digit. -/
theorem decimal_cons (n : Nat) : ∃ b r, decimal n = b :: r ∧ 48 ≤ b := by
  have hdigit : ∀ k < 10, 48 ≤ UInt8.ofNat (48 + k) := by decide
  induction n using Nat.strongRecOn with
  | ind n ih =>
      rcases decimal_step n with ⟨front, he, ⟨rfl, _⟩ | ⟨rfl, hdiv⟩⟩
      · exact ⟨_, [], he, hdigit _ (Nat.mod_lt _ (by decide))⟩
      · rcases ih _ hdiv with ⟨b, r, hb, hge⟩
        exact ⟨b, r ++ _, by rw [he, hb]; rfl, hge⟩

/-- A printed number is read as itself. -/
theorem fromStrRadix_decimal (n : Nat) (hn : n < 2 ^ 64) :
    fromStrRadix 10 (decimal n) = some n := by
  have hread := digitsFrom_decimal n hn
  rcases decimal_cons n with ⟨b, r, he, hb⟩
  rw [he] at hread ⊢
  have hplus : b ≠ 43 := by
    rintro rfl
    exact absurd hb (by decide)
  rw [← hread, fromStrRadix]
  · exact List.cons_ne_nil b r
  · exact fun h => hplus (List.cons.inj h).1
  · exact fun digits h => hplus (List.cons.inj h).1

theorem readU8_decimal (t : UInt8) : readU8 (decimal t.toNat) = some t := by
  have ht := t.toNat_lt
  rw [readU8, fromStrRadix_decimal _ (by omega), Option.bind_some, if_pos (by omega),
    UInt8.ofNat_toNat]

theorem readU64_decimal (n : UInt64) : readU64 (decimal n.toNat) = some n := by
  rw [readU64, fromStrRadix_decimal _ n.toNat_lt, Option.map_some, UInt64.ofNat_toNat]

theorem readI64_decimalInt (n : Int64) : readI64 (decimalInt n.toInt) = some n := by
  have hlo := n.le_toInt
  have hhi := n.toInt_lt
  unfold decimalInt
  by_cases hn : n.toInt < 0
  · rw [if_pos hn, readI64, fromStrRadix_decimal _ (by omega), Option.bind_some,
      if_pos (by omega), show -(n.toInt.natAbs : Int) = n.toInt by omega, Int64.ofInt_toInt]
  · rw [if_neg hn]
    rcases decimal_cons n.toInt.natAbs with ⟨b, r, he, hb⟩
    have hminus : b ≠ 45 := by
      rintro rfl
      exact absurd hb (by decide)
    have hread := fromStrRadix_decimal n.toInt.natAbs (by omega)
    rw [he] at hread ⊢
    rw [readI64, hread, Option.bind_some, if_pos (by omega),
      show (n.toInt.natAbs : Int) = n.toInt by omega, Int64.ofInt_toInt]
    exact fun digits h => hminus (List.cons.inj h).1

/-- An optional field that was printed, as `null` or not at all when there is
    nothing, is read back. -/
theorem optionField_eq {β : Type} {key : String} {read : Value → Option β} {value : β → Value}
    {fields : List (Str × Value)} (x : Option β)
    (hread : ∀ y, x = some y → value y ≠ .null ∧ read (value y) = some y)
    (h : Value.lookupField (lit key) fields = some (nullable value x) ∨
      Value.lookupField (lit key) fields = x.map value) :
    optionField key read fields = some x := by
  unfold optionField
  cases x with
  | none =>
      rcases h with h | h
      · rw [h]
        rfl
      · rw [h]
        rfl
  | some x =>
      have h : Value.lookupField (lit key) fields = some (value x) := h.elim id id
      rw [h]
      rcases hread x rfl with ⟨hne, hread⟩
      cases hv : value x with
      | null => exact absurd hv hne
      | _ =>
          rw [hv] at hread
          dsimp only
          rw [hread]
          rfl

/-- A field that has to be there is read. -/
theorem field_eq {β : Type} {key : Str} {read : Value → Option β} {v : Value} {x : β}
    {fields : List (Str × Value)} (h : Value.lookupField key fields = some v)
    (hread : read v = some x) : (Value.lookupField key fields).bind read = some x := by
  rw [h, Option.bind_some, hread]

theorem string_read (s : Str) : Value.string s ≠ .null ∧ (Value.string s).asStr = some s :=
  ⟨by simp only [ne_eq, reduceCtorEq, not_false_eq_true], rfl⟩

theorem bool_read (b : Bool) : Value.bool b ≠ .null ∧ asBool (.bool b) = some b :=
  ⟨by simp only [ne_eq, reduceCtorEq, not_false_eq_true], rfl⟩

theorem number_read {β : Type} {read : Str → Option β} {lexeme : β → Str}
    (h : ∀ x, read (lexeme x) = some x) (x : β) :
    Value.number (lexeme x) ≠ .null ∧ asNumber read (.number (lexeme x)) = some x :=
  ⟨by simp only [ne_eq, reduceCtorEq, not_false_eq_true], h x⟩

/-- A conversation is read back. -/
theorem Conversation.ofValue_toValue (c : Conversation) : Conversation.ofValue c.toValue = some c := by
  rcases c with ⟨id, started, provider, model, hint⟩
  unfold toValue ofValue
  dsimp only
  rw [optionField_eq model (fun s _ => string_read s) (Or.inl rfl),
    optionField_eq hint (fun s _ => string_read s) (Or.inl rfl)]
  rfl

/-- A message is read back. -/
theorem Message.ofValue_toValue (m : Message) : Message.ofValue m.toValue = some m := by
  have hnumber : ∀ n : Int64, Value.number (decimalInt n.toInt) ≠ .null ∧
      asNumber readI64 (.number (decimalInt n.toInt)) = some n := number_read readI64_decimalInt
  rcases m with ⟨id, conv, dir, ts, role, content, tin, tout, masked, pii⟩
  unfold toValue ofValue
  dsimp only
  rw [optionField_eq role (fun s _ => string_read s) (Or.inl rfl),
    optionField_eq tin (fun n _ => hnumber n) (Or.inl rfl),
    optionField_eq tout (fun n _ => hnumber n) (Or.inl rfl),
    optionField_eq masked (fun s _ => string_read s) (Or.inr ?_),
    optionField_eq pii (fun b _ => bool_read b) (Or.inr ?_)]
  · rfl
  -- the last two fields may be left out
  · cases masked <;> cases pii <;> rfl
  · cases masked <;> cases pii <;> rfl

section Reading

variable (J : StoreJson)

/-- A detection is read back. -/
theorem MessageDetection.ofValue_toValue (d : MessageDetection)
    (hd : J.readF32 (J.formatF64 d.confidence) = some d.confidence) :
    MessageDetection.ofValue J (d.toValue J) = some d := by
  have htier : asNumber readU8 (.number (decimal d.tier.toNat)) = some d.tier :=
    readU8_decimal d.tier
  have hconfidence : asNumber J.readF32 (.number (J.formatF64 d.confidence)) =
      some d.confidence := hd
  unfold toValue ofValue
  dsimp only
  rw [field_eq rfl htier, field_eq rfl hconfidence]
  rfl

/-- A row of a vault is read back. -/
theorem rowOfValue_rowValue (r : StoredVaultRecord)
    (hr : ∀ x, r.confidence = some x → J.readF32 (J.formatF32 x) = some x) :
    rowOfValue J (J.vaultJson.rowValue r) = some r := by
  have htier : ∀ t : UInt8, Value.number (decimal t.toNat) ≠ .null ∧
      asNumber readU8 (.number (decimal t.toNat)) = some t := number_read readU8_decimal
  rcases r with ⟨original, synthetic, piiType, tier, confidence, tokenId, displayValue⟩
  have hconfidence : ∀ x, confidence = some x → Value.number (J.formatF32 x) ≠ .null ∧
      asNumber J.readF32 (.number (J.formatF32 x)) = some x := fun x hx =>
    ⟨by simp only [ne_eq, reduceCtorEq, not_false_eq_true], hr x hx⟩
  unfold VaultJson.rowValue rowOfValue
  dsimp only
  rw [optionField_eq tier (fun t _ => htier t) (Or.inr ?_),
    optionField_eq confidence hconfidence (Or.inr ?_),
    optionField_eq tokenId (fun s _ => string_read s) (Or.inr ?_),
    optionField_eq displayValue (fun s _ => string_read s) (Or.inr ?_)]
  · rfl
  -- a field that is left out leaves the later ones to be found
  · cases tier <;> cases confidence <;> cases tokenId <;> cases displayValue <;> rfl
  · cases tier <;> cases confidence <;> cases tokenId <;> cases displayValue <;> rfl
  · cases tier <;> cases confidence <;> cases tokenId <;> cases displayValue <;> rfl
  · cases tier <;> cases confidence <;> cases tokenId <;> cases displayValue <;> rfl

/-- The value of a vault line. -/
def vaultValue (p : PersistedVault) : Value :=
  .object [(lit "type", .string p.recordType), (lit "rng_seed", .number (decimal p.rngSeed.toNat)),
    (lit "mappings", .array (p.mappings.map J.vaultJson.rowValue))]

/-- A vault is read back. -/
theorem vaultOfValue_vaultValue (p : PersistedVault)
    (hp : ∀ r ∈ p.mappings, ∀ x, r.confidence = some x → J.readF32 (J.formatF32 x) = some x) :
    vaultOfValue J (vaultValue J p) = some p := by
  have hseed : asNumber readU64 (.number (decimal p.rngSeed.toNat)) = some p.rngSeed :=
    readU64_decimal p.rngSeed
  have hrows : ∀ rows : List StoredVaultRecord, (∀ r ∈ rows, ∀ x, r.confidence = some x →
      J.readF32 (J.formatF32 x) = some x) →
      (rows.map J.vaultJson.rowValue).mapM (rowOfValue J) = some rows := by
    intro rows
    induction rows with
    | nil => intro _; rfl
    | cons r rows ih =>
        intro hrows
        rw [List.map_cons, List.mapM_cons, rowOfValue_rowValue J r (hrows r List.mem_cons_self),
          ih fun r hr => hrows r (List.mem_cons_of_mem _ hr)]
        rfl
  unfold vaultValue vaultOfValue
  dsimp only
  rw [field_eq rfl hseed]
  exact congrArg (Option.bind · _) (hrows p.mappings hp)
end Reading

theorem decimal_quiet (n : Nat) : ∀ b ∈ decimal n, b ≠ 10 ∧ b ≠ 34 := by
  intro b hb
  have hdigit := decimal_digit n b hb
  constructor
  · rintro rfl
    exact absurd hdigit (by decide)
  · rintro rfl
    exact absurd hdigit (by decide)

theorem decimalInt_quiet (n : Int) : ∀ b ∈ decimalInt n, b ≠ 10 ∧ b ≠ 34 := by
  unfold decimalInt
  split
  · rw [List.forall_mem_cons]
    exact ⟨by decide, decimal_quiet _⟩
  · exact decimal_quiet _

theorem Conversation.quiet (c : Conversation) : Quiet c.toValue := by
  refine Quiet.object ?_
  simp only [List.forall_mem_cons, List.not_mem_nil, false_implies, implies_true, and_true]
  exact ⟨.of (by decide) (.string _), .of (by decide) (.string _),
    .of (by decide) (.string _), .of (by decide) (.nullable .string _),
    .of (by decide) (.nullable .string _)⟩

theorem Message.quiet (m : Message) : Quiet m.toValue := by
  have hnumber : ∀ n : Int64, Quiet (.number (decimalInt n.toInt)) := fun n =>
    .number (decimalInt_quiet _)
  refine Quiet.object ?_
  rw [List.forall_mem_append, List.forall_mem_append]
  refine ⟨⟨?_, QuietField.optional (by decide) .string _⟩,
    QuietField.optional (by decide) .bool _⟩
  simp only [List.forall_mem_cons, List.not_mem_nil, false_implies, implies_true, and_true]
  exact ⟨.of (by decide) (.string _), .of (by decide) (.string _),
    .of (by decide) (.string _), .of (by decide) (.string _),
    .of (by decide) (.nullable .string _), .of (by decide) (.string _),
    .of (by decide) (.nullable hnumber _), .of (by decide) (.nullable hnumber _)⟩

section Lines

variable (J : StoreJson)

theorem rowValue_quiet (r : StoredVaultRecord) : Quiet (J.vaultJson.rowValue r) := by
  refine Quiet.object ?_
  rw [List.forall_mem_append, List.forall_mem_append, List.forall_mem_append,
    List.forall_mem_append]
  refine ⟨⟨⟨⟨?_, QuietField.optional (by decide) (fun t => .number (decimal_quiet _)) _⟩,
    QuietField.optional (by decide) (fun x => .number (J.formatF32_plain x)) _⟩,
    QuietField.optional (by decide) .string _⟩,
    QuietField.optional (by decide) .string _⟩
  simp only [List.forall_mem_cons, List.not_mem_nil, false_implies, implies_true, and_true]
  exact ⟨.of (by decide) (.string _), .of (by decide) (.string _),
    .of (by decide) (.string _)⟩

/-- The rows of a vault do not add a marker. -/
theorem rows_quiet (rows : List StoredVaultRecord) :
    Quiet (.array (rows.map J.vaultJson.rowValue)) := by
  have hrows : ∀ v ∈ rows.map J.vaultJson.rowValue, Quiet v := by
    intro v hv
    rcases List.mem_map.mp hv with ⟨r, _, rfl⟩
    exact rowValue_quiet J r
  refine ⟨fun hmem => ?_, fun w hw => Silent.array fun v hv => (hrows v hv).silent w hw⟩
  rw [Value.compact, List.mem_append, List.mem_append] at hmem
  rcases hmem with (hmem | hmem) | hmem
  · exact absurd hmem (by decide)
  · exact compactItems_line _ (fun v hv => (hrows v hv).line) hmem
  · exact absurd hmem (by decide)

theorem MessageDetection.typed (d : MessageDetection) : Typed (lit "detection") (d.toValue J) := by
  refine Typed.object (List.forall_iff_forall_mem.mp (by decide)) ?_ ?_
  · simp only [List.mem_cons, true_or, or_true]
  · simp only [List.forall_mem_cons, List.not_mem_nil, false_implies, implies_true, and_true]
    exact ⟨.inr (.of (by decide) (.number (J.formatF64_plain _))),
      .inr (.of (by decide) (.string _)), .inr (.of (by decide) (.string _)),
      .inr (.of (by decide) (.string _)), .inr (.of (by decide) (.string _)),
      .inr (.of (by decide) (.number (decimal_quiet _))), .inl trivial⟩

theorem vaultValue_typed (p : PersistedVault) (hp : p.recordType = lit "vault") :
    Typed (lit "vault") (vaultValue J p) := by
  rw [← hp]
  refine Typed.object (by rw [hp]; exact List.forall_iff_forall_mem.mp (by decide)) List.mem_cons_self ?_
  simp only [List.forall_mem_cons, List.not_mem_nil, false_implies, implies_true, and_true]
  exact ⟨.inl trivial, .inr (.of (by decide) (.number (decimal_quiet _))),
    .inr (.of (by decide) (rows_quiet J _))⟩

end Lines

/-- A line behind the header of a log. -/
inductive Record where
  | message (m : Message)
  | detection (d : MessageDetection)
  | vault (rngSeed : UInt64) (records : List VaultRecord)

namespace Record

def asMessage : Record → Option Message
  | .message m => some m
  | _ => none

def asDetection : Record → Option MessageDetection
  | .detection d => some d
  | _ => none

def asVault : Record → Option (UInt64 × List VaultRecord)
  | .vault rngSeed records => some (rngSeed, records)
  | _ => none

variable (J : StoreJson)

/-- The value that is printed for the record. -/
def toValue : Record → Value
  | .message m => m.toValue
  | .detection d => d.toValue J
  | .vault rngSeed records =>
    vaultValue J ⟨lit "vault", rngSeed, records.map VaultRecord.stored⟩

/-- The line of the record, as its writer prints it. -/
def line : Record → Str
  | .message m => m.line
  | .detection d => d.line J
  | .vault rngSeed records => vaultLine J rngSeed records

theorem line_eq (r : Record) : r.line J = (r.toValue J).compact := by
  cases r <;> rfl

/-- The parser reads back what was printed for the record, and the numbers of
    its confidences. -/
def Reads (r : Record) : Prop :=
  J.fromStr (r.line J) = some (r.toValue J) ∧
    match r with
    | .message _ => True
    | .detection d => J.readF32 (J.formatF64 d.confidence) = some d.confidence
    | .vault _ records => ∀ v ∈ records, J.readF32 (J.formatF32 v.confidence) = some v.confidence

theorem line_whole (r : Record) : WholeLine (r.line J) := by
  rw [line_eq]
  cases r with
  | message m => exact ⟨m.quiet.line, object_braces _⟩
  | detection d => exact (d.typed J).whole
  | vault seed records => exact (vaultValue_typed J _ rfl).whole

/-- The vault's marker is in the line of the vault only. -/
theorem contains_vaultMarker (r : Record) :
    contains vaultMarker (r.line J) = r.asVault.isSome := by
  rw [line_eq, vaultMarker_eq]
  cases r with
  | message m => exact (m.quiet.silent _ plain_vault).not_contains
  | detection d => exact ((d.typed J).silent _ plain_vault (by decide)).not_contains
  | vault seed records => exact (vaultValue_typed J _ rfl).marked

/-- The detections' marker is in their lines only. -/
theorem contains_detectionMarker (r : Record) :
    contains detectionMarker (r.line J) = r.asDetection.isSome := by
  rw [line_eq, detectionMarker_eq]
  cases r with
  | message m => exact (m.quiet.silent _ plain_detection).not_contains
  | detection d => exact (d.typed J).marked
  | vault seed records =>
      exact ((vaultValue_typed J _ rfl).silent _ plain_detection (by decide)).not_contains

theorem parseMessage_line (r : Record) (hr : r.Reads J) :
    parseMessage J (r.line J) = r.asMessage := by
  rw [parseMessage, hr.1, Option.bind_some]
  cases r with
  | message m => exact m.ofValue_toValue
  -- the others have no field `id`
  | detection d => rfl
  | vault seed records => rfl

theorem parseDetection_line (d : MessageDetection) (hd : (Record.detection d).Reads J) :
    parseDetection J ((Record.detection d).line J) = some d := by
  rw [parseDetection, hd.1, Option.bind_some]
  exact d.ofValue_toValue J hd.2

theorem fromStr_line (rngSeed : UInt64) (records : List VaultRecord)
    (hr : (Record.vault rngSeed records).Reads J) :
    J.vaultJson.fromStr ((Record.vault rngSeed records).line J) =
      some ⟨lit "vault", rngSeed, records.map VaultRecord.stored⟩ := by
  unfold StoreJson.vaultJson
  dsimp only
  rw [hr.1, Option.bind_some]
  refine vaultOfValue_vaultValue J _ fun row hrow x hx => ?_
  rcases List.mem_map.mp hrow with ⟨v, hv, rfl⟩
  rw [← Option.some.inj hx]
  exact hr.2 v hv

end Record

section Text

variable (J : StoreJson)

/-- The text of a conversation's log. -/
def convText (conv : Conversation) (records : List Record) : Str :=
  logText (conv.line :: records.map (Record.line J))

variable (conv : Conversation) (records : List Record)

theorem convText_append (more : List Record) :
    convText J conv (records ++ more) =
      convText J conv records ++ logText (more.map (Record.line J)) := by
  rw [convText, List.map_append, ← List.cons_append, logText_append]
  rfl

theorem Conversation.line_whole : WholeLine conv.line := ⟨conv.quiet.line, object_braces _⟩

/-- The lines of a log are the lines that were written. -/
theorem lines_convText :
    lines (convText J conv records) = conv.line :: records.map (Record.line J) := by
  have hwhole : ∀ l ∈ conv.line :: records.map (Record.line J), WholeLine l := by
    rw [List.forall_mem_cons]
    refine ⟨conv.line_whole, fun l hl => ?_⟩
    rcases List.mem_map.mp hl with ⟨r, _, rfl⟩
    exact r.line_whole J
  rw [convText, lines_logText _ fun l hl => (hwhole l hl).single]
  exact (List.map_congr_left fun l hl => (hwhole l hl).stripCr_eq).trans (List.map_id _)

/-- The header of a log is its conversation. -/
theorem readConvHeader_text (J : StoreJson) (conv : Conversation) (records : List Record)
    (hconv : J.fromStr conv.line = some conv.toValue) :
    readConvHeader J (convText J conv records) = some conv := by
  have hfirst : (convText J conv records).takeWhile (· != 10) = conv.line := by
    rw [convText, logText_cons, List.takeWhile_append_of_pos, List.takeWhile_cons_of_neg,
      List.append_nil]
    · decide
    · intro b hb
      rw [bne_iff_ne]
      exact fun he => conv.line_whole.single (he ▸ hb)
  rw [readConvHeader, hfirst, conv.line_whole.trim_eq, hconv, Option.bind_some,
    conv.ofValue_toValue]
/-- The header has no marker. -/
theorem header_unmarked {w : Str} (hw : ∀ b ∈ w, PlainByte b) :
    contains (marker w) conv.line = false := (conv.quiet.silent w hw).not_contains

variable (hrecords : ∀ r ∈ records, r.Reads J)

include hrecords

/-- The messages of a log. -/
theorem readMessages_text :
    readMessages J (convText J conv records) = records.filterMap Record.asMessage := by
  rw [readMessages, lines_convText, List.drop_one, List.tail_cons, List.filterMap_map]
  refine List.filterMap_congr fun r hr => ?_
  rw [Function.comp_apply, (r.line_whole J).not_blank, if_neg Bool.false_ne_true,
    r.parseMessage_line J (hrecords r hr)]

/-- The number of request messages of a log. -/
theorem countRequests_text :
    countRequests J (convText J conv records) =
      (records.filterMap Record.asMessage).countP fun m => m.direction == lit "request" := by
  rw [countRequests, lines_convText, List.drop_one, List.tail_cons, List.countP_map,
    List.countP_filterMap]
  refine List.countP_congr fun r hr => ?_
  rw [Function.comp_apply, r.parseMessage_line J (hrecords r hr)]
  cases r.asMessage <;> exact Iff.rfl

/-- The detections of a log. -/
theorem readDetections_text (messageId : Option Str) :
    readDetections J messageId (convText J conv records) =
      (records.filterMap Record.asDetection).filter fun d =>
        messageId.all fun mid => d.messageId == mid := by
  rw [readDetections, lines_convText, List.filter_cons_of_neg, List.filter_map,
    List.filterMap_map, List.filterMap_filter, List.filter_filterMap]
  · refine List.filterMap_congr fun r hr => ?_
    rw [Function.comp_apply, r.contains_detectionMarker J]
    cases r with
    | detection d => rw [Function.comp_apply, Record.parseDetection_line J d (hrecords _ hr)]; rfl
    | message m => rfl
    | vault seed vs => rfl
  · rw [detectionMarker_eq, header_unmarked conv plain_detection]
    exact Bool.false_ne_true

omit hrecords

/-- The vault of a log: that of the first vault record. -/
theorem readVault_text (hvault : ∀ rngSeed vs, records.findSome? Record.asVault =
      some (rngSeed, vs) → (Record.vault rngSeed vs).Reads J) :
    readVault J (convText J conv records) = (records.findSome? Record.asVault).map fun p =>
      (p.1, p.2.map VaultRecord.stored) := by
  rw [readVault, lines_convText, List.find?_cons_of_neg]
  · induction records with
    | nil => rfl
    | cons r records ih =>
        have hmarker := r.contains_vaultMarker J
        cases r with
        | vault seed vs =>
            rw [List.map_cons, List.find?_cons_of_pos (by rw [hmarker]; rfl), Option.bind_some,
              Record.fromStr_line J seed vs (hvault seed vs rfl)]
            rfl
        | message m =>
            rw [List.map_cons, List.find?_cons_of_neg (by rw [hmarker]; exact Bool.false_ne_true)]
            exact ih hvault
        | detection d =>
            rw [List.map_cons, List.find?_cons_of_neg (by rw [hmarker]; exact Bool.false_ne_true)]
            exact ih hvault
  · rw [vaultMarker_eq, header_unmarked conv plain_vault]
    exact Bool.false_ne_true

/-- The vault that is found is one of the records. -/
theorem mem_of_findSome?_asVault {rngSeed : UInt64} {vs : List VaultRecord}
    (h : records.findSome? Record.asVault = some (rngSeed, vs)) :
    Record.vault rngSeed vs ∈ records := by
  rcases List.exists_of_findSome?_eq_some h with ⟨r, hr, hvault⟩
  cases r with
  | vault seed vs' =>
      rw [Record.asVault, Option.some.injEq, Prod.mk.injEq] at hvault
      rw [← hvault.1, ← hvault.2]
      exact hr
  | message m => exact absurd hvault (by simp only [Record.asVault, reduceCtorEq, not_false_eq_true])
  | detection d =>
      exact absurd hvault (by simp only [Record.asVault, reduceCtorEq, not_false_eq_true])

/-- Saving a vault, on the records: its record in the place of the first one, or
    behind everything. -/
def saveRecord (r : Record) : List Record → List Record
  | [] => [r]
  | r' :: records => if r'.asVault.isSome then r :: records else r' :: saveRecord r records

/-- The place of the record is the one that `save_vault` looks for. -/
theorem saveRecord_eq (r : Record) : ∀ records : List Record,
    saveRecord r records = match records.findIdx? fun r => r.asVault.isSome with
      | some idx => records.set idx r
      | none => records ++ [r] := by
  intro records
  induction records with
  | nil => rfl
  | cons r' records ih =>
      rw [saveRecord, List.findIdx?_cons]
      by_cases hr : r'.asVault.isSome = true
      · rw [if_pos hr, if_pos hr]
        rfl
      · rw [if_neg hr, if_neg hr, ih]
        cases records.findIdx? fun r => r.asVault.isSome <;> rfl

/-- `save_vault` writes the record into the list. -/
theorem replaceVaultLine_text (rngSeed : UInt64) (vs : List VaultRecord) :
    replaceVaultLine (convText J conv records) (vaultLine J rngSeed vs ++ lit "\n") =
      convText J conv (saveRecord (.vault rngSeed vs) records) := by
  have hmarker : contains vaultMarker ∘ Record.line J = fun r => r.asVault.isSome :=
    funext fun r => r.contains_vaultMarker J
  have hline : vaultLine J rngSeed vs = (Record.vault rngSeed vs).line J := rfl
  have hheader : contains vaultMarker conv.line = false := by
    rw [vaultMarker_eq]
    exact header_unmarked conv plain_vault
  unfold replaceVaultLine
  dsimp only
  rw [lines_convText, List.findIdx?_cons, hheader, if_neg Bool.false_ne_true, List.findIdx?_map,
    hmarker, saveRecord_eq, hline]
  cases records.findIdx? fun r => r.asVault.isSome with
  | none =>
      dsimp only [Option.map_none]
      rw [convText_append, List.map_singleton, logText_singleton]
  | some idx =>
      dsimp only [Option.map_some]
      rw [trimEndMatches_line _ ((Record.vault rngSeed vs).line_whole J).single,
        List.set_cons_succ, intercalate_logText _ (List.cons_ne_nil _ _), ← List.map_set]
      rfl

end Text

/-- Saving a vault leaves the other records as they are. -/
theorem filterMap_saveRecord {β : Type} (f : Record → Option β)
    (hf : ∀ r, r.asVault.isSome = true → f r = none) (r : Record) (hr : r.asVault.isSome = true) :
    ∀ records : List Record, (saveRecord r records).filterMap f = records.filterMap f := by
  intro records
  induction records with
  | nil => rw [saveRecord, List.filterMap_cons_none (hf r hr)]
  | cons r' records ih =>
      rw [saveRecord]
      by_cases hr' : r'.asVault.isSome = true
      · rw [if_pos hr', List.filterMap_cons_none (hf r hr), List.filterMap_cons_none (hf r' hr')]
      · rw [if_neg hr', List.filterMap_cons, List.filterMap_cons, ih]

theorem mem_saveRecord (r : Record) : ∀ (records : List Record),
    ∀ r' ∈ saveRecord r records, r' = r ∨ r' ∈ records := by
  intro records
  induction records with
  | nil => exact fun r' hr' => Or.inl (List.mem_singleton.mp hr')
  | cons r₀ records ih =>
      intro r' hr'
      rw [saveRecord] at hr'
      split at hr'
      · exact (List.mem_cons.mp hr').imp_right (List.mem_cons_of_mem _)
      · rcases List.mem_cons.mp hr' with rfl | hr'
        · exact Or.inr List.mem_cons_self
        · exact (ih r' hr').imp_right (List.mem_cons_of_mem _)

/-- The vault that was saved is the one that is found. -/
theorem findSome?_saveRecord (r : Record) (hr : r.asVault.isSome = true) :
    ∀ records : List Record, (saveRecord r records).findSome? Record.asVault = r.asVault := by
  have hsome : ∀ records, (r :: records).findSome? Record.asVault = r.asVault := by
    intro records
    rcases Option.isSome_iff_exists.mp hr with ⟨p, hp⟩
    rw [List.findSome?_cons, hp]
  intro records
  induction records with
  | nil => exact hsome []
  | cons r' records ih =>
      rw [saveRecord]
      by_cases hr' : r'.asVault.isSome = true
      · rw [if_pos hr', hsome]
      · rw [if_neg hr', List.findSome?_cons, ih]
        rw [Bool.not_eq_true, Option.isSome_eq_false_iff, Option.isNone_iff_eq_none] at hr'
        rw [hr']

/-- The confidences of a record. -/
def Record.confidences : Record → List F32
  | .message _ => []
  | .detection d => [d.confidence]
  | .vault _ vs => vs.map VaultRecord.confidence

/-- A parser that knows the lines of the given records. -/
def StoreJson.ofRecords (records : List Record) : StoreJson :=
  .ofValues (records.map (Record.toValue (.ofValues [])))

theorem reads_ofRecords (records : List Record)
    (hlines : (records.map (Record.line (.ofValues []))).Nodup)
    (hone : ∀ r ∈ records, ∀ x ∈ r.confidences, x = F32.one) :
    ∀ r ∈ records, r.Reads (.ofRecords records) := by
  have hfind : ∀ records : List Record, (records.map (Record.line (.ofValues []))).Nodup →
      ∀ r ∈ records, (records.map (Record.toValue (.ofValues []))).find?
        (fun v => v.compact == r.line (.ofValues [])) = some (r.toValue (.ofValues [])) := by
    intro records
    induction records with
    | nil => exact fun _ r hr => absurd hr List.not_mem_nil
    | cons r₀ records ih =>
        intro hnodup r hr
        rw [List.map_cons, List.nodup_cons] at hnodup
        rw [List.map_cons]
        rcases List.mem_cons.mp hr with rfl | hr
        · rw [List.find?_cons_of_pos]
          rw [Record.line_eq, beq_self_eq_true]
        · rw [List.find?_cons_of_neg, ih hnodup.2 r hr]
          rw [← Record.line_eq, beq_iff_eq]
          exact fun he => hnodup.1 (he ▸ List.mem_map_of_mem hr)
  intro r hr
  have hread := hfind records hlines r hr
  cases r with
  | message m => exact ⟨hread, trivial⟩
  | detection d =>
      refine ⟨hread, ?_⟩
      dsimp only
      rw [hone _ hr d.confidence List.mem_cons_self]
      rfl
  | vault seed vs =>
      refine ⟨hread, fun v hv => ?_⟩
      rw [hone _ hr v.confidence (List.mem_map_of_mem hv)]
      rfl

end Storage

end PrivacyClaw
