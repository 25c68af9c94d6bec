import PrivacyClaw.Core.Registry
import PrivacyClaw.Lib.Machine
import PrivacyClaw.Theory.HoldBack
import PrivacyClaw.Theory.OneToOne

/-!
# The Trigger Set

Whether a buffer holds text back by the keys its vault has at that moment.

A buffer keeps the prefixes of the keys and the number of mappings they were taken
at, and takes them again when the number has moved. That is enough because the two
only move together: whatever is done to a vault puts as many keys behind those it
has as it adds mappings (`Grown`), so between two equal counts nothing happened to
the keys. A buffer that has never looked has the count zero, and with a vault
without mappings nothing is held back.

Buffers come and go while the vault is filled, by other requests of the
conversation as well, so the events of a run are calls in any order. A call holds
the lock of the vault while it takes the prefixes; what another call adds after
that is seen by the next one.

## Main definitions

* `Grown`: A vault after some insertions.
* `ReplacementBuffer.decision`: What `process_delta` decides by.
* `VaultBuffers`, `BufferCall`, `bufferStep`: A vault and its buffers, and the calls.
* `ReplacementBuffer.Follows`: The invariant of a buffer.
* `DecidesCurrent`: A decision by the keys of the vault.

## Theorems

* `VaultOp.grown`, `Grown.mergeFrom`: Every operation only adds.
* `processDelta_of_decision`: The rest of the call.
* `bufferStep_follows`: A call keeps the invariant.
* `triggerPrefixes_current`: No decision of any run is by old keys.
-/

namespace PrivacyClaw

/-- `v'` has the keys of `v` and others behind them, and as many more mappings. -/
def Grown (v v' : PiiVault) : Prop :=
  ∃ keys, v'.syntheticKeys = v.syntheticKeys ++ keys ∧
    v'.mappingCount = v.mappingCount + keys.length

namespace Grown

theorem refl (v : PiiVault) : Grown v v := ⟨[], (List.append_nil _).symm, rfl⟩

theorem trans {u v w : PiiVault} (h : Grown u v) (h' : Grown v w) : Grown u w := by
  rcases h with ⟨keys, hkeys, hcount⟩
  rcases h' with ⟨keys', hkeys', hcount'⟩
  refine ⟨keys ++ keys', ?_, ?_⟩
  · rw [hkeys', hkeys, List.append_assoc]
  · rw [hcount', hcount, List.length_append, Nat.add_assoc]

/-- Without a new mapping there is no new key. -/
theorem eq_of_count {v v' : PiiVault} (h : Grown v v') (hcount : v'.mappingCount = v.mappingCount) :
    v'.syntheticKeys = v.syntheticKeys := by
  rcases h with ⟨keys, hkeys, hgrown⟩
  have hnil : keys = [] := List.length_eq_zero_iff.mp (by omega)
  rw [hkeys, hnil, List.append_nil]

/-- A new original. -/
theorem insert {v v' : PiiVault} {o s : Str} (ho : o ∉ v.originalToSynthetic)
    (hmap : v'.originalToSynthetic = v.originalToSynthetic.insert o s)
    (hkeys : v'.syntheticKeys = v.syntheticKeys ++ [s]) : Grown v v' := by
  refine ⟨[s], hkeys, ?_⟩
  rw [PiiVault.mappingCount, hmap, StrMap.size_insert, if_neg ho]
  rfl

/-- One row of a merge. -/
theorem mergeQuint (v : PiiVault) (q : Str × Str × Str × UInt8 × F32) :
    Grown v (v.mergeQuint q) := by
  unfold PiiVault.mergeQuint
  split
  · exact refl v
  · next ho => exact insert ho rfl rfl

/-- A merge: the rows one after the other, and nothing else that counts. -/
theorem mergeFrom (v other : PiiVault) : Grown v (v.mergeFrom other) := by
  have hrows : ∀ (qs : List (Str × Str × Str × UInt8 × F32)) (u : PiiVault),
      Grown u (qs.foldl PiiVault.mergeQuint u) := by
    intro qs
    induction qs with
    | nil => exact refl
    | cons q qs ih => exact fun u => (mergeQuint u q).trans (ih _)
  unfold PiiVault.mergeFrom
  split
  · exact hrows other.quints v
  · exact hrows other.quints v

end Grown

theorem VaultOp.grown (R : Rand) (C : Chrono) (op : VaultOp) (v v' : PiiVault)
    (hrun : op.apply R C v = some v') : Grown v v' := by
  rcases op.apply_cases R C v v' hrun with ⟨_, hmap, _, hkeys⟩ | ⟨ho, s, _, hmap, _, hkeys⟩
  · refine ⟨[], ?_, ?_⟩
    · rw [hkeys, List.append_nil]
    · rw [PiiVault.mappingCount, hmap]
      rfl
  · exact Grown.insert ho hmap hkeys

namespace ReplacementBuffer

/-- What a call of `process_delta` decides by: the text after the cascade and the
    prefixes. Without text or mappings there is no decision. -/
def decision (b : ReplacementBuffer) (v : PiiVault) (incoming : Str) :
    Option (Str × List (UInt8 × UInt8)) :=
  if incoming.isEmpty || v.isEmpty then none
  else
    let b := { b with buffer := b.buffer ++ incoming }.refresh v
    some (applyXmlTokenCascade b.buffer v, b.triggerPrefixes)

/-- The rest of the call follows from these: the text is cut where they say. -/
theorem processDelta_of_decision (b : ReplacementBuffer) (v : PiiVault) (incoming processed : Str)
    (prefixes : List (UInt8 × UInt8)) (h : b.decision v incoming = some (processed, prefixes)) :
    ∃ n, n = findCharBoundary processed
        (computeSafeFlushLen processed v.maxSyntheticKeyLen prefixes) ∧
      (b.processDelta v incoming).1 = processed.take n ∧
      (b.processDelta v incoming).2.buffer = processed.drop n := by
  unfold decision at h
  split at h
  · exact absurd h (by simp only [reduceCtorEq, not_false_eq_true])
  · next hboth =>
      rw [Bool.or_eq_true, not_or, Bool.not_eq_true, Bool.not_eq_true] at hboth
      dsimp only at h
      rw [Option.some.injEq, Prod.mk.injEq] at h
      refine ⟨_, rfl, ?_⟩
      unfold processDelta
      rw [hboth.1, if_neg Bool.false_ne_true]
      dsimp only
      rw [hboth.2, if_neg Bool.false_ne_true, h.1, h.2]
      -- with nothing safe the whole text is kept, which is the cut at zero
      by_cases hzero : computeSafeFlushLen processed v.maxSyntheticKeyLen prefixes = 0
      · rw [if_pos hzero, hzero, Nat.le_zero.mp (findCharBoundary_le processed 0)]
        exact ⟨rfl, rfl⟩
      · rw [if_neg hzero, if_pos (isCharBoundary_findCharBoundary _ _)]
        exact ⟨rfl, rfl⟩

/-- The prefixes are those of the vault as it was when it had the cached count. -/
def Follows (b : ReplacementBuffer) (v : PiiVault) : Prop :=
  b.cachedMappingCount = 0 ∨ ∃ old, Grown old v ∧ b.cachedMappingCount = old.mappingCount ∧
    b.triggerPrefixes = old.syntheticKeyPrefixes

theorem Follows.grown {b : ReplacementBuffer} {v v' : PiiVault} (h : b.Follows v)
    (hv : Grown v v') : b.Follows v' :=
  h.imp_right fun ⟨old, hold, hcount, hprefixes⟩ => ⟨old, hold.trans hv, hcount, hprefixes⟩

/-- Taking the prefixes again, or having no reason to. -/
theorem Follows.refresh {b : ReplacementBuffer} {v : PiiVault} (h : b.Follows v) :
    (b.refresh v).Follows v ∧
      (v.isEmpty = false → (b.refresh v).triggerPrefixes = v.syntheticKeyPrefixes) := by
  unfold ReplacementBuffer.refresh
  by_cases hcount : v.mappingCount = b.cachedMappingCount
  · rw [if_pos hcount]
    refine ⟨h, fun hv => ?_⟩
    rcases h with hzero | ⟨old, hold, hcached, hprefixes⟩
    · -- a vault without mappings
      rw [PiiVault.isEmpty, hcount, hzero] at hv
      exact absurd hv (by decide)
    · have hkeys := hold.eq_of_count (hcount.trans hcached)
      rw [hprefixes, PiiVault.syntheticKeyPrefixes, PiiVault.syntheticKeyPrefixes, hkeys]
  · rw [if_neg hcount]
    exact ⟨Or.inr ⟨v, Grown.refl v, rfl, rfl⟩, fun _ => rfl⟩

/-- A call takes the prefixes and changes the text. -/
theorem processDelta_prefixes (b : ReplacementBuffer) (v : PiiVault) (incoming : Str) :
    ∃ b' text, (b' = b ∨ b' = b.refresh v) ∧
      (b.processDelta v incoming).2 = { b' with buffer := text } := by
  have hpush : ∃ text, { b with buffer := b.buffer ++ incoming }.refresh v =
      { b.refresh v with buffer := text } := by
    refine ⟨b.buffer ++ incoming, ?_⟩
    unfold ReplacementBuffer.refresh
    dsimp only
    split <;> rfl
  rcases hpush with ⟨text, hpush⟩
  unfold processDelta
  dsimp only
  rw [hpush]
  split
  · exact ⟨b, b.buffer, Or.inl rfl, rfl⟩
  · refine ⟨b.refresh v, ?_⟩
    split
    · exact ⟨[], Or.inr rfl, rfl⟩
    · split
      · exact ⟨_, Or.inr rfl, rfl⟩
      · split
        · exact ⟨_, Or.inr rfl, rfl⟩
        · exact ⟨_, Or.inr rfl, rfl⟩

theorem Follows.processDelta {b : ReplacementBuffer} {v : PiiVault} (h : b.Follows v)
    (incoming : Str) : (b.processDelta v incoming).2.Follows v := by
  rcases processDelta_prefixes b v incoming with ⟨b', text, hb', heq⟩
  rw [heq]
  rcases hb' with rfl | rfl
  · exact h
  · exact h.refresh.1

theorem Follows.flushRemaining {b : ReplacementBuffer} {v : PiiVault} (h : b.Follows v) :
    (b.flushRemaining v).2.Follows v := by
  unfold ReplacementBuffer.flushRemaining
  split
  · exact h
  · exact h

/-- A buffer that follows its vault decides by its keys. -/
theorem Follows.decision {b : ReplacementBuffer} {v : PiiVault} (h : b.Follows v)
    {incoming processed : Str} {prefixes : List (UInt8 × UInt8)}
    (hd : b.decision v incoming = some (processed, prefixes)) :
    prefixes = v.syntheticKeyPrefixes := by
  unfold ReplacementBuffer.decision at hd
  split at hd
  · exact absurd hd (by simp only [reduceCtorEq, not_false_eq_true])
  · next hboth =>
      rw [Bool.or_eq_true, not_or, Bool.not_eq_true, Bool.not_eq_true] at hboth
      dsimp only at hd
      rw [Option.some.injEq, Prod.mk.injEq] at hd
      have hpush : { b with buffer := b.buffer ++ incoming }.Follows v := h
      rw [← hd.2]
      exact hpush.refresh.2 hboth.2

end ReplacementBuffer

/-- A vault and the buffers over it. -/
structure VaultBuffers where
  vault : PiiVault
  buffers : List ReplacementBuffer

/-- The calls: an insertion, a merge into the vault, a new buffer, and the calls
    on the buffer with a number. -/
inductive BufferCall where
  | op (op : VaultOp)
  | merge (fromVault : PiiVault)
  | create
  | delta (i : Nat) (incoming : Str)
  | flush (i : Nat)

section VaultBuffers

variable (R : Rand) (C : Chrono)

/-- The state after a call; `none` where a generator aborts or there is no such
    buffer. -/
def bufferStep : BufferCall → VaultBuffers → Option VaultBuffers
  | .op op, s => (op.apply R C s.vault).map fun v => { s with vault := v }
  | .merge fromVault, s => some { s with vault := s.vault.mergeFrom fromVault }
  | .create, s => some { s with buffers := s.buffers ++ [ReplacementBuffer.new] }
  | .delta i incoming, s =>
    s.buffers[i]?.map fun b =>
      { s with buffers := s.buffers.set i (b.processDelta s.vault incoming).2 }
  | .flush i, s =>
    s.buffers[i]?.map fun b =>
      { s with buffers := s.buffers.set i (b.flushRemaining s.vault).2 }

/-- Every buffer follows the vault. -/
def VaultBuffers.Follows (s : VaultBuffers) : Prop := ∀ b ∈ s.buffers, b.Follows s.vault

/-- One call keeps the buffers behind the vault. -/
theorem bufferStep_follows (s : VaultBuffers) (e : BufferCall) (s' : VaultBuffers) (hs : s.Follows)
    (hstep : bufferStep R C e s = some s') : s'.Follows := by
  have hset : ∀ i b, b.Follows s.vault → ∀ b' ∈ s.buffers.set i b, b'.Follows s.vault := by
    intro i b hb b' hb'
    rcases List.mem_or_eq_of_mem_set hb' with hold | rfl
    · exact hs b' hold
    · exact hb
  cases e with
  | op op =>
      rcases Option.map_eq_some_iff.mp hstep with ⟨v, hv, rfl⟩
      exact fun b hb => (hs b hb).grown (op.grown R C s.vault v hv)
  | merge fromVault =>
      rw [bufferStep, Option.some.injEq] at hstep
      rw [← hstep]
      exact fun b hb => (hs b hb).grown (Grown.mergeFrom s.vault fromVault)
  | create =>
      rw [bufferStep, Option.some.injEq] at hstep
      rw [← hstep]
      intro b hb
      rcases List.mem_append.mp hb with hb | hb
      · exact hs b hb
      · -- a new buffer has seen nothing
        rw [List.mem_singleton.mp hb]
        exact Or.inl rfl
  | delta i incoming =>
      rcases Option.map_eq_some_iff.mp hstep with ⟨b, hb, rfl⟩
      exact hset i _ ((hs b (List.mem_of_getElem? hb)).processDelta incoming)
  | flush i =>
      rcases Option.map_eq_some_iff.mp hstep with ⟨b, hb, rfl⟩
      exact hset i _ (hs b (List.mem_of_getElem? hb)).flushRemaining

/-- If the call comes to a decision, then by the first two bytes of all keys of the
    vault that have them. -/
def DecidesCurrent (s : VaultBuffers) (e : BufferCall) : Prop :=
  match e with
  | .delta i incoming => ∀ b ∈ s.buffers[i]?, ∀ d ∈ b.decision s.vault incoming,
      ∀ x y, (x, y) ∈ d.2 ↔ ∃ rest, x :: y :: rest ∈ s.vault.syntheticKeys
  | _ => True

theorem mem_syntheticKeyPrefixes (v : PiiVault) (x y : UInt8) :
    (x, y) ∈ v.syntheticKeyPrefixes ↔ ∃ rest, x :: y :: rest ∈ v.syntheticKeys := by
  rw [PiiVault.syntheticKeyPrefixes, List.mem_filterMap]
  constructor
  · rintro ⟨key, hkey, hpair⟩
    split at hpair
    · rw [Option.some.injEq, Prod.mk.injEq] at hpair
      rw [← hpair.1, ← hpair.2]
      exact ⟨_, hkey⟩
    · exact absurd hpair (by simp only [reduceCtorEq, not_false_eq_true])
  · exact fun ⟨rest, hkey⟩ => ⟨_, hkey, rfl⟩

/-- Whatever calls are made on a vault and its buffers, and in whatever order, every
    decision is by the keys that the vault has then. -/
theorem triggerPrefixes_current (v : PiiVault) (es : List BufferCall) :
    Machine.Along (bufferStep R C) DecidesCurrent es ⟨v, []⟩ := by
  refine Machine.along_of_invariant VaultBuffers.Follows (bufferStep_follows R C) ?_ es ⟨v, []⟩
    (fun b hb => absurd hb List.not_mem_nil)
  intro s e hs
  cases e with
  | delta i incoming =>
      rintro b hb ⟨processed, prefixes⟩ hd x y
      rw [(hs b (List.mem_of_getElem? hb)).decision hd]
      exact mem_syntheticKeyPrefixes s.vault x y
  | op op => trivial
  | merge fromVault => trivial
  | create => trivial
  | flush i => trivial

end VaultBuffers

end PrivacyClaw
