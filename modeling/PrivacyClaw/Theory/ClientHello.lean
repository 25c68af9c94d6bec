import PrivacyClaw.Core.Network

/-!
# Client Hellos

The host name that is read from a TLS hello.

A hello is a chain of fields with their lengths in front, inside a handshake
message with its own length, inside a record. The reader skips one field after
the other; behind the last it walks over the extensions and takes the first one
for server names. For a hello that is all there this is the first extension of
that type in the list (`peekSni_record`), whatever follows in the buffer. The
length of the handshake message covers everything behind it, so that of a hello
that is cut off nothing is read at all (`helloBody_truncated`).

## Main definitions

* `Extension`, `ClientHello`: A hello by its fields.
* `record`: How it is sent.
* `serverName`: Its extension for server names.
* `serverNameList`: The data of such an extension.

## Theorems

* `checkedAdd_of_lt`: Offsets do not overflow.
* `helloBody_record`, `helloBody_truncated`: The handshake message.
* `extensionsStart_body`, `extensionLoop_eq`: The fields, and the extensions.
* `hostName_serverNameList`: The first name of the list.
* `peekSni_record`: The whole.
* `peekSni_correct`: With names, without them, and cut off.
-/

namespace PrivacyClaw

open Wire

/-- An extension: its type and its data. -/
structure Extension where
  extType : Nat
  data : Str
  extType_lt : extType < 2 ^ 16
  data_lt : data.length < 2 ^ 16

/-- How an extension is sent. -/
def Extension.bytes (e : Extension) : Str := be16 e.extType ++ (be16 e.data.length ++ e.data)

/-- A hello by its fields, each of which fits its length. The extensions may be
    left out altogether. -/
structure ClientHello where
  recordVersion : Str
  legacyVersion : Str
  random : Str
  sessionId : Str
  cipherSuites : Str
  compressionMethods : Str
  extensions : Option (List Extension)
  recordVersion_length : recordVersion.length = 2
  legacyVersion_length : legacyVersion.length = 2
  random_length : random.length = 32
  sessionId_lt : sessionId.length < 2 ^ 8
  cipherSuites_lt : cipherSuites.length < 2 ^ 16
  compressionMethods_lt : compressionMethods.length < 2 ^ 8
  extensions_lt : ∀ exts ∈ extensions, (exts.flatMap Extension.bytes).length < 2 ^ 16

/-- A list of server names: the type and the text of each. -/
def serverNameList (entries : List (UInt8 × Str)) : Str :=
  let names := entries.flatMap fun e => e.1 :: (be16 e.2.length ++ e.2)
  be16 names.length ++ names

theorem checkedAdd_of_lt (a b : Nat) (h : a + b < 2 ^ 64) : checkedAdd a b = some (a + b) :=
  if_pos h

/-- The first name of a list is read, if it is the name of a host. -/
theorem hostName_serverNameList (h : Str) (others : List (UInt8 × Str)) (hv : utf8Valid h = true)
    (hlen : (serverNameList ((0, h) :: others)).length < 2 ^ 16) :
    hostName (serverNameList ((0, h) :: others)) = some h := by
  let tail := others.flatMap fun e => e.1 :: (be16 e.2.length ++ e.2)
  let total := (0 :: (be16 h.length ++ h) ++ tail).length
  have hform : serverNameList ((0, h) :: others) = UInt8.ofNat (total / 256) ::
      UInt8.ofNat (total % 256) :: 0 :: UInt8.ofNat (h.length / 256) ::
        UInt8.ofNat (h.length % 256) :: (h ++ tail) := rfl
  rw [hform] at hlen ⊢
  simp only [List.length_cons, List.length_append] at hlen
  -- the text of the first name starts behind five bytes
  have hleft : Left (UInt8.ofNat (total / 256) :: UInt8.ofNat (total % 256) :: 0 ::
      UInt8.ofNat (h.length / 256) :: UInt8.ofNat (h.length % 256) :: (h ++ tail)) 5 (h ++ tail) :=
    ⟨[_, _, _, _, _], rfl, rfl⟩
  unfold hostName
  rw [if_neg (by
    simp only [List.length_cons, List.getD_cons_succ, List.getD_cons_zero, ne_eq, not_true_eq_false,
      or_false]
    omega)]
  simp only [List.getD_cons_succ, List.getD_cons_zero]
  rw [ofBe16_be16 _ (by omega), hleft.range_eq]
  exact if_pos hv

namespace ClientHello

variable (hello : ClientHello)

/-- The extensions with their length. -/
def extensionBlock : Str :=
  match hello.extensions with
  | none => []
  | some exts => be16 (exts.flatMap Extension.bytes).length ++ exts.flatMap Extension.bytes

/-- The hello without its headers. -/
def body : Str :=
  hello.legacyVersion ++ (hello.random ++
    (UInt8.ofNat hello.sessionId.length :: (hello.sessionId ++
      (be16 hello.cipherSuites.length ++ (hello.cipherSuites ++
        (UInt8.ofNat hello.compressionMethods.length :: (hello.compressionMethods ++
          hello.extensionBlock)))))))

/-- The handshake message. -/
def handshake : Str := 0x01 :: (be24 hello.body.length ++ hello.body)

/-- The record. Nothing is required of its own length, which is not read. -/
def record : Str :=
  0x16 :: (hello.recordVersion ++ (be16 hello.handshake.length ++ hello.handshake))

/-- The extension for server names, the first one if there are more. -/
def serverName : Option Extension :=
  (hello.extensions.getD []).find? fun e => e.extType == 0

theorem length_body_lt : hello.body.length < 2 ^ 24 := by
  have h1 := hello.legacyVersion_length
  have h2 := hello.random_length
  have h3 := hello.sessionId_lt
  have h4 := hello.cipherSuites_lt
  have h5 := hello.compressionMethods_lt
  have hblock : hello.extensionBlock.length < 2 ^ 17 := by
    unfold extensionBlock
    cases he : hello.extensions with
    | none => exact Nat.two_pow_pos 17
    | some exts =>
        have := hello.extensions_lt exts he
        dsimp only
        rw [List.length_append]
        change 2 + _ < _
        omega
  simp only [body, List.length_append, List.length_cons, length_be16]
  omega

theorem handshake_eq : hello.handshake = 0x01 :: UInt8.ofNat (hello.body.length / 65536) ::
    UInt8.ofNat (hello.body.length / 256 % 256) :: UInt8.ofNat (hello.body.length % 256) ::
      hello.body := rfl

theorem record_eq : ∃ header, header.length = 4 ∧
    hello.record = 0x16 :: (header ++ hello.handshake) := by
  refine ⟨hello.recordVersion ++ be16 hello.handshake.length, ?_, ?_⟩
  · rw [List.length_append, hello.recordVersion_length, length_be16]
  · rw [record, List.append_assoc]

/-- The hello is taken from the message, whatever follows it. -/
theorem handshakeBody_append (rest : Str) :
    handshakeBody (hello.handshake ++ rest) = some hello.body := by
  have hleft : Left (hello.handshake ++ rest) 4 (hello.body ++ rest) :=
    ⟨0x01 :: be24 hello.body.length, rfl, rfl⟩
  have hrange := hleft.range_eq
  rw [handshake_eq] at hrange ⊢
  unfold handshakeBody
  simp only [List.cons_append, List.getElem?_cons_zero, List.getElem?_cons_succ,
    Option.bind_eq_bind, Option.bind_some, ne_eq, not_true_eq_false, if_false,
    ofBe24_be24 _ hello.length_body_lt]
  exact hrange

/-- Cut off in its header or in what its length covers, a message has no hello. -/
theorem handshakeBody_truncated (q : Str) (hq : q <+: hello.handshake)
    (hne : q ≠ hello.handshake) : handshakeBody q = none := by
  rw [handshake_eq] at hq hne
  rcases q with _ | ⟨k, _ | ⟨a, _ | ⟨b, _ | ⟨c, t⟩⟩⟩⟩
  · rfl
  · exact ite_self (c := k ≠ 0x01) none
  · exact ite_self (c := k ≠ 0x01) none
  · exact ite_self (c := k ≠ 0x01) none
  · -- with its header the message still tells the length of the whole
    simp only [List.cons_prefix_cons] at hq
    rcases hq with ⟨rfl, rfl, rfl, rfl, r, hr⟩
    have hlen : t.length < hello.body.length := by
      have hr0 : r ≠ [] := fun h => hne (by rw [← hr, h, List.append_nil])
      have := List.length_pos_iff.mpr hr0
      rw [← hr, List.length_append]
      omega
    unfold handshakeBody
    simp only [List.getElem?_cons_zero, List.getElem?_cons_succ, Option.bind_eq_bind,
      Option.bind_some, ne_eq, not_true_eq_false, if_false, ofBe24_be24 _ hello.length_body_lt]
    exact if_neg fun h => by
      simp only [List.length_cons] at h
      omega

theorem helloBody_record (rest : Str) : helloBody (hello.record ++ rest) = some hello.body := by
  rcases hello.record_eq with ⟨header, hlen, hrec⟩
  have hdrop : (hello.record ++ rest).drop 5 = hello.handshake ++ rest := by
    rw [hrec, List.cons_append, List.drop_succ_cons, List.append_assoc, List.drop_left' hlen]
  unfold helloBody
  rw [hdrop, hello.handshakeBody_append rest, if_neg]
  simp only [hrec, List.cons_append, List.length_cons, List.length_append, List.getD_cons_zero,
    ne_eq, not_true_eq_false, or_false]
  omega

/-- Of a record that is cut off nothing is taken. -/
theorem helloBody_truncated (p : Str) (hp : p <+: hello.record) (hne : p ≠ hello.record) :
    helloBody p = none := by
  rcases hello.record_eq with ⟨header, hlen, hrec⟩
  unfold helloBody
  by_cases hshort : p.length < 5 ∨ p.getD 0 0 ≠ 0x16
  · exact if_pos hshort
  rw [if_neg hshort]
  rcases hp with ⟨t, ht⟩
  -- behind the record header stands a message that is cut off
  have hfive : 5 ≤ p.length := Nat.not_lt.mp fun h => hshort (Or.inl h)
  have hdrop : p.drop 5 ++ t = hello.handshake := by
    have h := congrArg (List.drop 5) ht
    rwa [List.drop_append_of_le_length hfive, hrec, List.drop_succ_cons,
      List.drop_left' hlen] at h
  refine hello.handshakeBody_truncated _ ⟨t, hdrop⟩ fun heq => hne ?_
  have ht0 : t = [] := List.append_right_eq_self.mp (hdrop.trans heq.symm)
  rw [ht0, List.append_nil] at ht
  exact ht

/-- In front of the extensions every field is skipped; without them the hello ends
    there. -/
theorem extensionsStart_body :
    (hello.extensions = none → extensionsStart hello.body = none) ∧
    ∀ exts, hello.extensions = some exts → ∃ pos,
      extensionsStart hello.body = some (pos, pos + (exts.flatMap Extension.bytes).length) ∧
        Left hello.body pos (exts.flatMap Extension.bytes) := by
  have h2 : hello.sessionId.length < 2 ^ 8 := hello.sessionId_lt
  have h3 := hello.cipherSuites_lt
  have h4 : hello.compressionMethods.length < 2 ^ 8 := hello.compressionMethods_lt
  -- version and random are skipped as one, then field by field
  have hsid : Left hello.body 34 (UInt8.ofNat hello.sessionId.length :: (hello.sessionId ++
      (be16 hello.cipherSuites.length ++ (hello.cipherSuites ++
        (UInt8.ofNat hello.compressionMethods.length :: (hello.compressionMethods ++
          hello.extensionBlock)))))) := by
    refine ⟨hello.legacyVersion ++ hello.random, ?_, ?_⟩
    · rw [List.length_append, hello.legacyVersion_length, hello.random_length]
    · rw [List.append_assoc]
      rfl
  have hcs := hsid.skip_cons.skip
  rw [Nat.add_assoc] at hcs
  have hcm := hcs.skip.skip
  rw [length_be16, Nat.add_assoc] at hcm
  have hext := hcm.skip_cons.skip
  rw [Nat.add_assoc] at hext
  have hsum := hext.length_eq
  have hsize := hello.length_body_lt
  -- all offsets stay inside the body, which is shorter than 2 ^ 24
  have hadd₁ := checkedAdd_of_lt 34 (1 + hello.sessionId.length) (by omega)
  have hadd₂ := checkedAdd_of_lt (34 + (1 + hello.sessionId.length))
    (2 + hello.cipherSuites.length) (by omega)
  have hadd₃ := checkedAdd_of_lt (34 + (1 + hello.sessionId.length) +
    (2 + hello.cipherSuites.length)) (1 + hello.compressionMethods.length) (by omega)
  unfold extensionsStart
  simp only [hsid.getElem?_eq, toNat_ofNat _ h2, Option.bind_eq_bind, Option.bind_some, hadd₁,
    hcs.u16At_eq h3, hadd₂, hcm.getElem?_eq, toNat_ofNat _ h4, hadd₃]
  constructor
  · -- the length of the extensions is not there to be read
    intro hnone
    rw [extensionBlock, hnone] at hext
    rw [hext.u16At_end, Option.bind_none]
  · intro exts hexts
    have htotal := hello.extensions_lt exts hexts
    rw [extensionBlock, hexts] at hext hsum
    have hstart := hext.skip
    rw [length_be16] at hstart
    rw [List.length_append, length_be16] at hsum
    refine ⟨_, ?_, hstart⟩
    rw [hext.u16At_eq htotal, Option.bind_some, checkedAdd_of_lt _ 2 (by omega), Option.bind_some,
      checkedAdd_of_lt _ _ (by omega), Option.bind_some]

end ClientHello

/-- The loop finds the first extension for server names. -/
theorem extensionLoop_eq (hello : Str) : ∀ (exts : List Extension) (pos : Nat),
    Left hello pos (exts.flatMap Extension.bytes) →
    pos + (exts.flatMap Extension.bytes).length < 2 ^ 64 →
    extensionLoop hello (pos + (exts.flatMap Extension.bytes).length) pos =
      (exts.find? fun e => e.extType == 0).bind fun e => hostName e.data := by
  intro exts
  induction exts with
  | nil =>
      intro pos _ _
      rw [extensionLoop, if_neg (by rw [List.flatMap_nil, List.length_nil]; omega)]
      rfl
  | cons e exts ih =>
      intro pos hleft hsize
      have hlen : ((e :: exts).flatMap Extension.bytes).length =
          4 + e.data.length + (exts.flatMap Extension.bytes).length := by
        simp only [List.flatMap_cons, Extension.bytes, List.length_append, length_be16]
        omega
      rw [List.flatMap_cons, Extension.bytes, List.append_assoc, List.append_assoc] at hleft
      have hextLen := hleft.skip
      have hdata := hextLen.skip
      rw [length_be16] at hextLen hdata
      rw [length_be16, Nat.add_assoc] at hdata
      have hnext := hdata.skip
      rw [hlen] at hsize ⊢
      rw [extensionLoop, if_pos (by omega), hleft.u16At_eq e.extType_lt,
        hextLen.u16At_eq e.data_lt]
      dsimp only
      -- the first extension of the type ends the loop, whatever its data are
      by_cases htype : e.extType = 0
      · rw [if_pos htype, hdata.range_eq, List.find?_cons_of_pos (by rw [htype]; rfl)]
        rfl
      · rw [if_neg htype, if_pos (by omega), List.find?_cons_of_neg (by simpa using htype),
          ← ih _ hnext (by omega), Nat.add_assoc pos, Nat.add_assoc pos]

/-- For a hello that is all there, the host name of its extension. -/
theorem peekSni_record (hello : ClientHello) (rest : Str) :
    peekSni (hello.record ++ rest) = hello.serverName.bind fun e => hostName e.data := by
  unfold peekSni
  rw [hello.helloBody_record rest, Option.bind_eq_bind, Option.bind_some]
  cases hexts : hello.extensions with
  | none =>
      rw [hello.extensionsStart_body.1 hexts, ClientHello.serverName, hexts]
      rfl
  | some exts =>
      rcases hello.extensionsStart_body.2 exts hexts with ⟨pos, hstart, hleft⟩
      have hsum := hleft.length_eq
      have hsize := hello.length_body_lt
      rw [hstart, Option.bind_eq_bind, Option.bind_some, ClientHello.serverName, hexts]
      exact extensionLoop_eq hello.body exts pos hleft (by omega)

/-- From a hello that is all in the buffer the host name is read that its extension
    for server names has first; without such an extension, and of a hello that is
    cut off, there is none. -/
theorem peekSni_correct (hello : ClientHello) :
    (∀ rest h others, hello.serverName.map Extension.data = some (serverNameList ((0, h) :: others)) →
      utf8Valid h = true → peekSni (hello.record ++ rest) = some h) ∧
    (∀ rest, hello.serverName = none → peekSni (hello.record ++ rest) = none) ∧
    (∀ p, p <+: hello.record → p ≠ hello.record → peekSni p = none) := by
  refine ⟨fun rest h others hname hv => ?_, fun rest hnone => ?_, fun p hp hne => ?_⟩
  · rw [Option.map_eq_some_iff] at hname
    rcases hname with ⟨e, he, hdata⟩
    have hlt := e.data_lt
    rw [hdata] at hlt
    rw [peekSni_record, he, Option.bind_some, hdata, hostName_serverNameList h others hv hlt]
  · rw [peekSni_record, hnone, Option.bind_none]
  · rw [peekSni, hello.helloBody_truncated p hp hne]
    rfl

/-- A hello with one extension, as `make_client_hello` puts it together. -/
def plainHello : ClientHello where
  recordVersion := [0x03, 0x01]
  legacyVersion := [0x03, 0x03]
  random := List.replicate 32 0
  sessionId := []
  cipherSuites := [0x00, 0x2F]
  compressionMethods := [0x00]
  extensions := some [⟨0, serverNameList [(0, lit "api.anthropic.com")], by decide, by decide⟩]
  recordVersion_length := rfl
  legacyVersion_length := rfl
  random_length := rfl
  sessionId_lt := by decide
  cipherSuites_lt := by decide
  compressionMethods_lt := by decide
  extensions_lt := by
    intro exts h
    rw [← Option.some.inj h]
    decide

/-- Its host name, with more behind it in the buffer, and none of it is cut off. -/
theorem peekSni_correct_plain :
    peekSni (plainHello.record ++ lit "more") = some (lit "api.anthropic.com") ∧
      peekSni (plainHello.record.take 70) = none :=
  ⟨(peekSni_correct plainHello).1 (lit "more") (lit "api.anthropic.com") [] (by decide)
      (by decide),
    (peekSni_correct plainHello).2.2 (plainHello.record.take 70) (List.take_prefix _ _)
      (by decide)⟩

end PrivacyClaw
