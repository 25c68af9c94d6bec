import PrivacyClaw.Core.Text
import PrivacyClaw.Lib.Leftmost

/-!
# The PII Vault

The per-conversation store of `src/pii/vault.rs`: which original was replaced
by which synthetic, and how a token in a response is resolved back.

A vault holds the mapping twice. `originalToSynthetic` answers the outbound
question; the parallel lists `syntheticKeys` and `originalValues` answer the
inbound one, through an automaton built over the keys. Three further maps
index the tokens that were issued, by whole token, by token id and by display
value. The automaton is represented by the keys it was built over, so that an
insertion that forgets to rebuild it is visible in the state.

The hash functions are parameters: the digests are the only thing the code
uses of them.

## Main definitions

* `PiiType`, `PiiSpan`, `F32`: The detection data.
* `Hashes`: The digests of the `sha1` and `sha2` crates.
* `generateTokenId`, `xmlToken`: The issued tokens.
* `PiiVault`: The store.
* `addMapping`, `addMappingWithTokenId`: The two insertions.
* `VaultRecord`, `fromRecords`: A vault restored from its rows.
* `replaceSynthetics`, `replaceReturns`: Restoring the keys that occur in a text.
* `sampleHashes`: The digests of one conversation.

## Theorems

* `generateTokenId_length`, `generateTokenId_mem`: A token id is eight base-62
  characters.
* `xmlToken_length`: What a token adds to its display value.
* `xmlToken_inj`: A token determines its id and its display value.
-/

namespace PrivacyClaw

/-- A single-precision float, by its bits; the vault only stores it. -/
structure F32 where
  bits : UInt32
  deriving DecidableEq, Repr

/-- The literal `1.0`. -/
def F32.one : F32 := ⟨0x3F800000⟩

/-- `PiiType`. -/
inductive PiiType where
  | email | phone | ssn | creditCard | ipV4 | ipV6 | openAiApiKey | awsAccessKey | awsSecretKey
  | gitHubPat | bearerToken | sshPrivateKey | dbConnectionString | urlWithCreds | personName
  | orgName | address | dateOfBirth | medicalRecord | passportNumber | driversLicense
  | financialAccount | aadhaarNumber | cpfNumber
  | custom (s : Str)
  deriving DecidableEq, Repr

/-- `PiiType::label`. -/
def PiiType.label : PiiType → Str
  | .email => lit "EMAIL"
  | .phone => lit "PHONE"
  | .ssn => lit "SSN"
  | .creditCard => lit "CREDIT_CARD"
  | .ipV4 => lit "IP_V4"
  | .ipV6 => lit "IP_V6"
  | .openAiApiKey => lit "OPENAI_API_KEY"
  | .awsAccessKey => lit "AWS_ACCESS_KEY"
  | .awsSecretKey => lit "AWS_SECRET_KEY"
  | .gitHubPat => lit "GITHUB_PAT"
  | .bearerToken => lit "BEARER_TOKEN"
  | .sshPrivateKey => lit "SSH_PRIVATE_KEY"
  | .dbConnectionString => lit "DB_CONNECTION_STRING"
  | .urlWithCreds => lit "URL_WITH_CREDS"
  | .personName => lit "PERSON_NAME"
  | .orgName => lit "ORG_NAME"
  | .address => lit "ADDRESS"
  | .dateOfBirth => lit "DATE_OF_BIRTH"
  | .medicalRecord => lit "MEDICAL_RECORD"
  | .passportNumber => lit "PASSPORT_NUMBER"
  | .driversLicense => lit "DRIVERS_LICENSE"
  | .financialAccount => lit "FINANCIAL_ACCOUNT"
  | .aadhaarNumber => lit "AADHAAR_NUMBER"
  | .cpfNumber => lit "CPF_NUMBER"
  | .custom s => s

/-- `PiiSpan`: a detected range of byte offsets; `stop` is the source's
    `end`. -/
structure PiiSpan where
  start : Nat
  stop : Nat
  entityType : PiiType
  confidence : F32
  tier : UInt8
  deriving DecidableEq, Repr

/-- The digests of the `sha1` and `sha2` crates. -/
structure Hashes where
  sha1 : Str → Vector UInt8 20
  sha256 : Str → Vector UInt8 32

/-- The value of a big-endian byte sequence. -/
def fromBeBytes (bs : List UInt8) : Nat := bs.foldl (fun n b => n * 256 + b.toNat) 0

/-- The base-62 alphabet. -/
def base62 : Str := lit "0123456789ABCDEFGHIJKLMNOPQRSTUVWXYZabcdefghijklmnopqrstuvwxyz"

/-- The last `n` base-62 digits of `val`, most significant first; the source
    fills an array of eight from the back. -/
def base62Encode : Nat → Nat → Str
  | 0, _ => []
  | n + 1, val => base62Encode n (val / 62) ++ [base62.getD (val % 62) 0]

/-- `base62_encode_6bytes`. -/
def base62Encode6Bytes (val : Nat) : Str := base62Encode 8 val

/-- `generate_token_id`: the first six bytes of the digest, as a 48-bit value
    in base 62. -/
def generateTokenId (h : Hashes) (conversationId : Str) (entityIndex : Nat) : Str :=
  let digest := h.sha256 (conversationId ++ lit ":" ++ decimal entityIndex)
  let val := fromBeBytes
    [digest[0], digest[1], digest[2], digest[3], digest[4], digest[5], 0, 0] >>> 16
  base62Encode6Bytes val

/-- `xml_token`. -/
def xmlToken (tokenId displayValue : Str) : Str :=
  lit "<pii id=\"" ++ tokenId ++ lit "\">" ++ displayValue ++ lit "</pii>"

theorem base62Encode_length : ∀ n val, (base62Encode n val).length = n := by
  intro n
  induction n with
  | zero => intro val; rfl
  | succ n ih =>
      intro val
      simp only [base62Encode, List.length_append, List.length_cons, List.length_nil, ih]

theorem base62Encode_mem : ∀ n val, ∀ b ∈ base62Encode n val, b ∈ base62 := by
  intro n
  induction n with
  | zero => intro val b hb; simp only [base62Encode, List.not_mem_nil] at hb
  | succ n ih =>
      intro val b hb
      simp only [base62Encode, List.mem_append, List.mem_cons, List.not_mem_nil, or_false] at hb
      rcases hb with hb | rfl
      · exact ih _ b hb
      · have hlen : base62.length = 62 := by decide
        have hlt : val % 62 < base62.length := by rw [hlen]; exact Nat.mod_lt _ (by omega)
        rw [List.getD_eq_getElem?_getD, List.getElem?_eq_getElem hlt, Option.getD_some]
        exact List.getElem_mem hlt

/-- A token id is always eight characters long. -/
theorem generateTokenId_length (h : Hashes) (conv : Str) (i : Nat) :
    (generateTokenId h conv i).length = 8 :=
  base62Encode_length 8 _

/-- A token id has base-62 characters only. -/
theorem generateTokenId_mem (h : Hashes) (conv : Str) (i : Nat) :
    ∀ b ∈ generateTokenId h conv i, b ∈ base62 :=
  base62Encode_mem 8 _

/-- A token with an eight-character id is 25 bytes longer than its display
    value. -/
theorem xmlToken_length (tokenId d : Str) (hid : tokenId.length = 8) :
    (xmlToken tokenId d).length = d.length + 25 := by
  have h1 : (lit "<pii id=\"").length = 9 := by decide
  have h2 : (lit "\">").length = 2 := by decide
  have h3 : (lit "</pii>").length = 6 := by decide
  simp only [xmlToken, List.length_append, h1, h2, h3, hid]
  omega

/-- With ids of one length a token determines its id and its display value. -/
theorem xmlToken_inj (a b d e : Str) (hab : a.length = b.length)
    (h : xmlToken a d = xmlToken b e) : a = b ∧ d = e := by
  simp only [xmlToken, List.append_assoc, List.append_cancel_left_eq] at h
  rcases List.append_inj h hab with ⟨h1, h2⟩
  rw [List.append_cancel_left_eq] at h2
  exact ⟨h1, List.append_cancel_right h2⟩

/-- `PiiVault`. The automaton is given by the keys it was built over. -/
structure PiiVault where
  originalToSynthetic : StrMap
  syntheticKeys : List Str
  originalValues : List Str
  piiTypeLabels : List Str
  tiers : List UInt8
  confidences : List F32
  tokenIds : List Str
  reverseAutomaton : Option (List Str)
  maxSyntheticKeyLen : Nat
  rngSeed : UInt64
  conversationId : Str
  fullTokenToOriginal : StrMap
  tokenIdToOriginal : StrMap
  displayValueToOriginal : StrMap

/-- `VaultRecord`, the persisted form of a mapping. -/
structure VaultRecord where
  original : Str
  synthetic : Str
  piiType : PiiType
  tier : UInt8
  confidence : F32
  tokenId : Str
  displayValue : Str

namespace PiiVault

/-- A vault without mappings. -/
def empty (conversationId : Str) (rngSeed : UInt64) : PiiVault where
  originalToSynthetic := ∅
  syntheticKeys := []
  originalValues := []
  piiTypeLabels := []
  tiers := []
  confidences := []
  tokenIds := []
  reverseAutomaton := none
  maxSyntheticKeyLen := 0
  rngSeed := rngSeed
  conversationId := conversationId
  fullTokenToOriginal := ∅
  tokenIdToOriginal := ∅
  displayValueToOriginal := ∅

/-- `PiiVault::new`: seeded from the first eight digest bytes, little-endian. -/
def new (h : Hashes) (conversationId : Str) : PiiVault :=
  empty conversationId (UInt64.ofNat (fromBeBytes ((h.sha1 conversationId).toList.take 8).reverse))

/-- `get_synthetic`. -/
def getSynthetic (v : PiiVault) (original : Str) : Option Str :=
  v.originalToSynthetic.lookup original

/-- `mapping_count`. -/
def mappingCount (v : PiiVault) : Nat := StrMap.size v.originalToSynthetic

/-- `is_empty`. -/
def isEmpty (v : PiiVault) : Bool := v.mappingCount == 0

/-- `is_synthetic`. -/
def isSynthetic (v : PiiVault) (value : Str) : Bool := v.syntheticKeys.any (· == value)

/-- `get_by_token_id`. -/
def getByTokenId (v : PiiVault) (tokenId : Str) : Option Str := v.tokenIdToOriginal.lookup tokenId

/-- `get_by_display_value`. -/
def getByDisplayValue (v : PiiVault) (displayValue : Str) : Option Str :=
  v.displayValueToOriginal.lookup displayValue

/-- `insert_mapping_raw_with_token_id`: no rebuild of the automaton. -/
def insertMappingRawWithTokenId (v : PiiVault) (original synthetic piiTypeLabel : Str)
    (tier : UInt8) (confidence : F32) (tokenId : Str) : PiiVault :=
  { v with
    maxSyntheticKeyLen :=
      if v.maxSyntheticKeyLen < synthetic.length then synthetic.length else v.maxSyntheticKeyLen
    originalToSynthetic := v.originalToSynthetic.insert original synthetic
    syntheticKeys := v.syntheticKeys ++ [synthetic]
    originalValues := v.originalValues ++ [original]
    piiTypeLabels := v.piiTypeLabels ++ [piiTypeLabel]
    tiers := v.tiers ++ [tier]
    confidences := v.confidences ++ [confidence]
    tokenIds := v.tokenIds ++ [tokenId] }

/-- `insert_mapping_raw`. -/
def insertMappingRaw (v : PiiVault) (original synthetic piiTypeLabel : Str) (tier : UInt8)
    (confidence : F32) : PiiVault :=
  v.insertMappingRawWithTokenId original synthetic piiTypeLabel tier confidence []

/-- `rebuild_automaton`. -/
def rebuildAutomaton (v : PiiVault) : PiiVault :=
  { v with reverseAutomaton := if v.syntheticKeys = [] then none else some v.syntheticKeys }

/-- `add_mapping`: nothing happens for a known original. -/
def addMapping (v : PiiVault) (original synthetic : Str) (piiType : PiiType) (tier : UInt8)
    (confidence : F32) : PiiVault :=
  if original ∈ v.originalToSynthetic then v
  else (v.insertMappingRaw original synthetic piiType.label tier confidence).rebuildAutomaton

/-- `add_mapping_with_token_id`: the core mapping is kept for a known
    original, the three index maps are written in any case. -/
def addMappingWithTokenId (v : PiiVault) (original displayValue tokenId : Str)
    (piiType : PiiType) (tier : UInt8) (confidence : F32) : PiiVault :=
  let fullToken := xmlToken tokenId displayValue
  let v' :=
    if original ∈ v.originalToSynthetic then v
    else (v.insertMappingRawWithTokenId original displayValue piiType.label tier confidence
      tokenId).rebuildAutomaton
  { v' with
    fullTokenToOriginal := v'.fullTokenToOriginal.insert fullToken original
    tokenIdToOriginal := v'.tokenIdToOriginal.insert tokenId original
    displayValueToOriginal := v'.displayValueToOriginal.insert displayValue original }

/-- One record of `from_records`: a row without a display value falls back on
    its synthetic, and only a row with a token id is indexed. -/
def insertRecord (v : PiiVault) (r : VaultRecord) : PiiVault :=
  let displayValue := if r.displayValue.isEmpty then r.synthetic else r.displayValue
  let v' := v.insertMappingRawWithTokenId r.original r.synthetic r.piiType.label r.tier
    r.confidence r.tokenId
  if r.tokenId.isEmpty then v'
  else
    { v' with
      fullTokenToOriginal :=
        v'.fullTokenToOriginal.insert (xmlToken r.tokenId displayValue) r.original
      tokenIdToOriginal := v'.tokenIdToOriginal.insert r.tokenId r.original
      displayValueToOriginal := v'.displayValueToOriginal.insert displayValue r.original }

/-- `from_records`: a vault restored from its persisted rows. -/
def fromRecords (conversationId : Str) (rngSeed : UInt64) (records : List VaultRecord) :
    PiiVault :=
  (records.foldl insertRecord (empty conversationId rngSeed)).rebuildAutomaton

/-- `replace_synthetics`: every match of the automaton is replaced by the
    original at the key's index. -/
def replaceSynthetics (v : PiiVault) (text : Str) : Str × Bool :=
  match v.reverseAutomaton with
  | none => (text, false)
  | some keys =>
    (Leftmost.replaceAll keys (fun i => v.originalValues.getD i []) text,
      (Leftmost.pieces keys text).any fun
        | .hit _ => true
        | .lit _ => false)

/-- Whether `replace_synthetics` returns: it slices the text at both ends of every
    match, and panics at an end inside a character. -/
def replaceReturns (v : PiiVault) (text : Str) : Bool :=
  match v.reverseAutomaton with
  | none => true
  | some keys => (Leftmost.cuts keys 0 (Leftmost.pieces keys text)).all (isCharBoundary text)

/-- `synthetic_key_prefixes`: the first two bytes of every key that has
    them. -/
def syntheticKeyPrefixes (v : PiiVault) : List (UInt8 × UInt8) :=
  v.syntheticKeys.filterMap fun
    | a :: b :: _ => some (a, b)
    | _ => none

end PiiVault

/-- The digests that a conversation named `c` needs for its seed and its first
    four tokens; the concrete instances of the theory use this conversation. -/
def sampleHashes : Hashes where
  sha1 s :=
    if s = lit "c" then
      #v[132, 165, 22, 132, 27, 167, 122, 91, 70, 72, 222, 44, 208, 223, 203, 48, 234, 70, 219, 180]
    else Vector.replicate 20 0
  sha256 s :=
    if s = lit "c:0" then
      #v[67, 27, 146, 217, 247, 40, 3, 198, 17, 228, 224, 131, 196, 19, 180, 195,
        172, 95, 22, 133, 151, 57, 206, 84, 172, 238, 232, 46, 88, 57, 101, 164]
    else if s = lit "c:1" then
      #v[124, 157, 48, 5, 82, 145, 239, 123, 132, 205, 196, 87, 127, 168, 113, 248,
        201, 82, 80, 29, 11, 33, 195, 26, 123, 179, 227, 234, 165, 205, 134, 180]
    else if s = lit "c:2" then
      #v[95, 84, 40, 189, 55, 121, 21, 70, 197, 51, 47, 127, 29, 180, 170, 120,
        101, 59, 225, 244, 52, 30, 145, 52, 18, 89, 132, 172, 210, 114, 110, 234]
    else if s = lit "c:3" then
      #v[37, 175, 70, 31, 221, 77, 55, 41, 177, 122, 85, 201, 141, 189, 64, 193,
        100, 146, 172, 253, 210, 108, 144, 228, 235, 228, 8, 85, 1, 227, 65, 67]
    else Vector.replicate 32 0

end PrivacyClaw
