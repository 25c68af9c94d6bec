import PrivacyClaw.Theory.HoldBack

/-!
# Streaming Bare Synthetics

When does a response without tokens come out the same in parts and in one
piece?

The buffer restores what it has before it knows how the text goes on, and what
it keeps is restored text that it scans again. So there are two ways to go
wrong: a synthetic is restored although it is the beginning of a longer one,
and an original that was put in place is taken for a synthetic. `SafeDelta`
says of one delta, with the buffer as it is before, that neither happens.
Nothing has to be asked of the hold-back window: it is never too short.

## Main definitions

* `SafeDelta`: A delta that meets neither defect.
* `SafeEnd`: The same for the final flush.
* `SafeRun`: All deltas of a response and its end.

## Theorems

* `SafeEnd.flush`: A safe end is flushed as it is.
* `processDelta_tracks`: A safe delta keeps the buffer on track.
* `processDeltas_tracks`: So do the deltas of a safe run.
* `stream_eq_replaceSynthetics`: A safe run gives what one piece gives.
-/

namespace PrivacyClaw

namespace ReplacementBuffer

/-- The delta completes no synthetic in which a shorter one was restored, and
    no synthetic and no tag starts in what the buffer holds of restored text:
    in all of it but the beginning of what the delta completes. -/
structure SafeDelta (v : PiiVault) (received : Str) (b : ReplacementBuffer) (d : Str) : Prop where
  whole : ∀ k ∈ v.syntheticKeys, ¬ k <:+: Leftmost.overhang v.syntheticKeys received d
  quiet : ∀ q, q < b.buffer.length - (Leftmost.overhang v.syntheticKeys received d).length →
    ¬ xmlTokenOpen <+: (b.buffer ++ d).drop q ∧
      ∀ k ∈ v.syntheticKeys, ¬ k <+: (b.buffer ++ d).drop q

/-- What is left for the final flush holds no synthetic and no tag. -/
def SafeEnd (v : PiiVault) (b : ReplacementBuffer) : Prop :=
  ¬ xmlTokenOpen <:+: b.buffer ∧ ∀ k ∈ v.syntheticKeys, ¬ k <:+: b.buffer

/-- Every delta is safe for the buffer that it meets, and so is the end. -/
def SafeRun (v : PiiVault) : Str → ReplacementBuffer → List Str → Prop
  | _, b, [] => SafeEnd v b
  | received, b, d :: ds =>
    (d ≠ [] → SafeDelta v received b d) ∧ SafeRun v (received ++ d) (b.processDelta v d).2 ds

/-- The originals that the keys stand for, by the key's place. -/
abbrev Tracked (v : PiiVault) (received sent : Str) (b : ReplacementBuffer) : Prop :=
  Leftmost.Tracks v.syntheticKeys (fun i => v.originalValues.getD i []) received sent b.buffer

variable {v : PiiVault}

theorem SafeRun.keys_ne_nil : ∀ (deltas : List Str) (received : Str) (b : ReplacementBuffer),
    SafeRun v received b deltas → ∀ k ∈ v.syntheticKeys, k ≠ [] := by
  intro deltas
  induction deltas with
  | nil =>
      rintro received b hrun k hk rfl
      exact hrun.2 [] hk List.nil_infix
  | cons d ds ih => intro received b hrun; exact ih _ _ hrun.2

/-- A safe end is flushed as it is. -/
theorem SafeEnd.flush (hne : ∀ k ∈ v.syntheticKeys, k ≠ []) (hv : v.Searchable)
    {b : ReplacementBuffer} (hb : SafeEnd v b) : (b.flushRemaining v).1 = b.buffer := by
  unfold flushRemaining
  split
  · next hempty => rw [List.isEmpty_iff.mp hempty]
  · rw [applyXmlTokenCascade_eq hne hv, cascade_plain hne hv _ hb.1,
      hv.replaceSynthetics_eq_self _ hb.2]

section

variable (hv : v.Searchable) (hfull : v.isEmpty = false) (hne : ∀ k ∈ v.syntheticKeys, k ≠ [])
include hv hfull hne

/-- A safe delta keeps the buffer on track. -/
theorem processDelta_tracks (received sent d : Str) (b : ReplacementBuffer)
    (ht : Tracked v received sent b) (hb : b.Fresh v)
    (hopen : ¬ xmlTokenOpen <:+: received ++ d) (hsafe : d ≠ [] → SafeDelta v received b d) :
    Tracked v (received ++ d) (sent ++ (b.processDelta v d).1) (b.processDelta v d).2 ∧
      (b.processDelta v d).2.Fresh v := by
  by_cases hd : d = []
  · subst hd
    rw [processDelta_nil, List.append_nil, List.append_nil]
    exact ⟨ht, hb⟩
  · have hs := hsafe hd
    have hquiet : Leftmost.Quiet v.syntheticKeys
        (b.buffer.length - (Leftmost.overhang v.syntheticKeys received d).length)
        (b.buffer ++ d) := fun q hq => (hs.quiet q hq).2
    -- no tag starts in the restored text, and the rest was received as it is
    have hplain : ¬ xmlTokenOpen <:+: b.buffer ++ d := by
      rintro ⟨l, r, hlr⟩
      have hocc : xmlTokenOpen <+: (b.buffer ++ d).drop l.length := by
        rw [← hlr, List.append_assoc, List.drop_left]
        exact List.prefix_append _ _
      rcases ht.overhang_kept hne d hs.whole with ⟨w, hw⟩
      rcases Leftmost.pieces_cut hne received d with ⟨y₁, hsplit, _⟩
      have hwlen := congrArg List.length hw
      rw [List.length_append] at hwlen
      by_cases hq : l.length < w.length
      · exact (hs.quiet l.length (by omega)).1 hocc
      · refine hopen (hocc.isInfix.trans ?_)
        rw [← hw, List.append_assoc, List.drop_append, List.drop_eq_nil_of_le (by omega),
          List.nil_append]
        refine (List.drop_suffix _ _).isInfix.trans ?_
        rw [hsplit, List.append_assoc, ← hsplit]
        exact (List.suffix_append _ _).isInfix
    have hproc : applyXmlTokenCascade (b.buffer ++ d) v =
        Leftmost.replaceAll v.syntheticKeys (fun i => v.originalValues.getD i [])
          (b.buffer ++ d) := by
      rw [applyXmlTokenCascade_eq hne hv, cascade_plain hne hv _ hplain, hv.replaceSynthetics_fst]
    rcases processDelta_spec v hfull b hb d hd with ⟨n, hn, hout, hkept, hfresh⟩
    rw [hproc] at hn hout hkept
    refine ⟨?_, hfresh⟩
    rw [Tracked, hout, hkept]
    refine ht.step hne d n hs.whole hquiet ?_
    intro x hx
    by_cases hxn : x = []
    · rw [hxn, hn]
      exact findCharBoundary_le_length _ _
    · -- the cut is in front of the beginning of a key
      have hsuf := ht.unfinished_processed hne d hs.whole hquiet x hx
      have hxopen : ¬ xmlTokenOpen <:+: x := by
        rcases hx.split with ⟨y₁, hy, _⟩
        intro hin
        refine hopen (hin.trans ?_)
        rw [hy]
        exact (List.suffix_append _ _).isInfix
      have hle := computeSafeFlushLen_unfinished v hv.maxLen _ x hsuf hxopen hx.begins hxn
      rw [hn]
      exact Nat.le_trans (findCharBoundary_le _ _) hle

/-- The deltas of a safe run keep the buffer on track, and at the end nothing
    changes what it holds. -/
theorem processDeltas_tracks : ∀ (deltas : List Str) (received sent : Str)
    (b : ReplacementBuffer), Tracked v received sent b → b.Fresh v →
    ¬ xmlTokenOpen <:+: received ++ deltas.flatten → SafeRun v received b deltas →
    sent ++ (processDeltas v deltas b).1 ++ ((processDeltas v deltas b).2.flushRemaining v).1 =
      (v.replaceSynthetics (received ++ deltas.flatten)).1 := by
  intro deltas
  induction deltas with
  | nil =>
      intro received sent b ht _ _ hrun
      rw [processDeltas, SafeEnd.flush hne hv hrun, List.append_nil, ht.joined, List.flatten_nil,
        List.append_nil, hv.replaceSynthetics_fst]
  | cons d ds ih =>
      intro received sent b ht hb hopen hrun
      rw [List.flatten_cons, ← List.append_assoc] at hopen
      have hopen' : ¬ xmlTokenOpen <:+: received ++ d := fun hin =>
        hopen (hin.trans (List.prefix_append _ _).isInfix)
      rcases processDelta_tracks hv hfull hne received sent d b ht hb hopen' hrun.1 with ⟨ht', hb'⟩
      have hrest := ih (received ++ d) _ _ ht' hb' hopen hrun.2
      rw [List.flatten_cons, ← List.append_assoc, ← hrest]
      simp only [processDeltas, List.append_assoc]

end

/-- A response without tokens whose deltas are all safe comes out as in one
    piece. -/
theorem stream_eq_replaceSynthetics (v : PiiVault) (hv : v.Searchable)
    (hfull : v.isEmpty = false) (deltas : List Str) (hopen : ¬ xmlTokenOpen <:+: deltas.flatten)
    (hsafe : SafeRun v [] new deltas) :
    stream v deltas = (v.replaceSynthetics deltas.flatten).1 := by
  have hne := SafeRun.keys_ne_nil deltas [] new hsafe
  have hrun := processDeltas_tracks hv hfull hne deltas [] [] new (Leftmost.Tracks.start hne)
    (fresh_new v hfull) (by rw [List.nil_append]; exact hopen) hsafe
  rw [List.nil_append, List.nil_append] at hrun
  exact hrun

/-- A vault with one name. -/
def oneName : PiiVault :=
  (PiiVault.new sampleHashes (lit "c")).addMapping (lit "John Smith") (lit "Alice Brown")
    .personName 2 F32.one

/-- A vault that also has a name which begins the first one. -/
def twoNames : PiiVault :=
  oneName.addMapping (lit "John") (lit "Alice") .personName 2 F32.one

/-- A synthetic that arrives in two deltas is restored. -/
theorem stream_split_name :
    SafeRun oneName [] new [lit "Hi Alice", lit " Brown!"] ∧
      stream oneName [lit "Hi Alice", lit " Brown!"] =
        (oneName.replaceSynthetics [lit "Hi Alice", lit " Brown!"].flatten).1 ∧
      stream oneName [lit "Hi Alice", lit " Brown!"] = lit "Hi John Smith!" := by
  have hsafe : SafeRun oneName [] new [lit "Hi Alice", lit " Brown!"] :=
    ⟨fun _ => ⟨by decide, by decide⟩, fun _ => ⟨by decide, by decide⟩, by decide, by decide⟩
  have hv : oneName.Searchable :=
    (PiiVault.WellFormed.new sampleHashes (lit "c")).searchable.addMapping _ _ _ _ _
  exact ⟨hsafe, stream_eq_replaceSynthetics oneName hv (by decide) _ (by decide) hsafe, by decide⟩

/-- A synthetic that begins with another one, cut behind it: the shorter one is
    restored at once and the longer one is lost. -/
theorem stream_prefix_name :
    twoNames.isEmpty = false ∧ ¬ xmlTokenOpen <:+: lit "Alice Brown" ∧
      [lit "Alice", lit " Brown"].flatten = lit "Alice Brown" ∧
      (twoNames.replaceSynthetics (lit "Alice Brown")).1 = lit "John Smith" ∧
      stream twoNames [lit "Alice", lit " Brown"] = lit "John Brown" ∧
      ¬ ∀ deltas : List Str, deltas.flatten = lit "Alice Brown" →
        stream twoNames deltas = (twoNames.replaceSynthetics (lit "Alice Brown")).1 := by
  refine ⟨by decide, by decide, by decide, by decide, by decide, ?_⟩
  intro hall
  exact absurd (hall [lit "Alice", lit " Brown"] (by decide)) (by decide)

end ReplacementBuffer

end PrivacyClaw
