import PrivacyClaw.Theory.Delivery
import PrivacyClaw.Theory.Events
import PrivacyClaw.Theory.RoundTrip
import PrivacyClaw.Theory.TokenStream

/-!
# There and Back

A message is masked on its way up, the model quotes it, and the client reads its own
words.

The two halves meet at a `Response`: plain text with tokens in it. Masking makes one
of a text, and an answer that quotes tokens among words of its own is one. What it
spells is the text with an original in the place of each token. The buffer restores
it whatever the deltas are, as long as none of them ends inside an opening tag and no
synthetic occurs in what is spelled; that nothing is restored twice needs no
condition on the buffer then, since all it holds is a part of the spelled text or
one open token.

What the client reads is followed through the event stream and the framing, so the
reads from the socket do not matter either. This is about Anthropic, where all the
text is out before the last event; the others may keep the end of it.

## Main definitions

* `Response.spells`: The text with the originals in their places.
* `InTag`: A position inside an opening tag.
* `Response.Plain`: Nothing in the spelled text looks like a token or a synthetic.

## Theorems

* `Response.safeRun`: Deltas that end outside the tags are safe.
* `quoted_stream`, `quoted_delivered`: Quoted tokens are restored, up to the client.
* `replaceSpansFrom_response`: Masking makes a response.
* `echo_delivered`: The client reads its own words.
-/

namespace PrivacyClaw

/-- The position is inside an opening tag: behind its first byte, before its end. -/
def InTag (s : Str) (n : Nat) : Prop := ∃ j, j < n ∧ n < j + 4 ∧ xmlTokenOpen <+: s.drop j

instance (s : Str) (n : Nat) : Decidable (InTag s n) :=
  inferInstanceAs (Decidable (∃ j, j < n ∧ n < j + 4 ∧ xmlTokenOpen <+: s.drop j))

namespace Response

variable {v : PiiVault}

/-- The text with an original in the place of each token. -/
def spells (v : PiiVault) : Response → Str
  | plain g => g
  | token g p rest => g ++ (restoreToken v (p ++ xmlTokenClose) ++ rest.spells v)

/-- What is spelled holds no tag and no synthetic. -/
def Plain (v : PiiVault) (resp : Response) : Prop := PlainGap v (resp.spells v)

/-- All of it is restored in the end. -/
theorem restored_all : ∀ resp : Response,
    resp.restored v resp.text.length = resp.spells v ∧ resp.unfinished resp.text.length = [] := by
  intro resp
  induction resp with
  | plain g => exact ⟨List.take_length, rfl⟩
  | token g p rest ih =>
      have hlen : (token g p rest).text.length =
          g.length + (p ++ xmlTokenClose).length + rest.text.length := by
        rw [text, List.length_append, List.length_append, Nat.add_assoc]
      have hge : ¬ (token g p rest).text.length < g.length + (p ++ xmlTokenClose).length := by
        omega
      have hrest : (token g p rest).text.length - (g.length + (p ++ xmlTokenClose).length) =
          rest.text.length := by
        omega
      rw [restored, unfinished, if_neg hge, if_neg hge, hrest, ih.1, ih.2, spells,
        List.append_assoc]
      exact ⟨rfl, rfl⟩

theorem restored_prefix_spells (resp : Response) (n : Nat) (hn : n ≤ resp.text.length) :
    resp.restored v n <+: resp.spells v := by
  rw [← (restored_all resp).1]
  exact restored_prefix resp n _ hn

/-- Outside the tokens the response goes on with the rest of a gap, up to a tag or to
    the end. -/
theorem goes_on : ∀ (resp : Response), resp.Readable v → ∀ n, n ≤ resp.text.length →
    resp.unfinished n = [] →
    ∃ gap tail, resp.text.drop n = gap ++ tail ∧ (tail = [] ∨ xmlTokenOpen <+: tail) ∧
      resp.restored v n ++ gap <+: resp.spells v ∧ resp.sinceToken n <:+ resp.restored v n := by
  intro resp
  induction resp with
  | plain g =>
      intro _ n _ _
      refine ⟨g.drop n, [], (List.append_nil _).symm, Or.inl rfl, ?_, List.suffix_refl _⟩
      rw [restored, spells, List.take_append_drop]
  | token g p rest ih =>
      intro hr n hn hun
      by_cases hlt : n < g.length + (p ++ xmlTokenClose).length
      · -- no part of the token has come yet
        rw [unfinished, if_pos hlt] at hun
        have hle : n ≤ g.length := by
          have hl := congrArg List.length hun
          rw [List.length_take, List.length_nil] at hl
          omega
        refine ⟨g.drop n, p ++ xmlTokenClose ++ rest.text, ?_, Or.inr ?_, ?_, ?_⟩
        · rw [text, List.drop_append_of_le_length hle]
        · rw [List.append_assoc]
          exact hr.2.1.opens.trans (List.prefix_append _ _)
        · rw [restored, if_pos hlt, List.take_append_drop, spells]
          exact List.prefix_append _ _
        · rw [sinceToken, restored, if_pos hlt, if_pos hlt, List.take_append_of_le_length hle]
      · have hlen : (g ++ (p ++ xmlTokenClose)).length = g.length + (p ++ xmlTokenClose).length :=
          List.length_append
        rw [text_token, List.length_append, hlen] at hn
        rw [unfinished, if_neg hlt] at hun
        rcases ih hr.2.2 _ (by omega) hun with ⟨gap, tail, hdrop, htail, hpre, hsince⟩
        refine ⟨gap, tail, ?_, htail, ?_, ?_⟩
        · rw [text_token, List.drop_append, List.drop_eq_nil_of_le (by omega), List.nil_append,
            hlen]
          exact hdrop
        · rw [restored, if_neg hlt, spells, ← List.append_assoc g, List.append_assoc,
            List.prefix_append_right_inj]
          exact hpre
        · rw [sinceToken, restored, if_neg hlt, if_neg hlt]
          exact hsince.trans (List.suffix_append _ _)

/-- Where a token has only begun, the position is inside its tag. -/
theorem inTag_of_unfinished : ∀ (resp : Response), resp.Readable v → ∀ n, n ≤ resp.text.length →
    resp.unfinished n ≠ [] → (resp.unfinished n).length < 4 → InTag resp.text n := by
  intro resp
  induction resp with
  | plain g => exact fun _ n _ hne _ => absurd rfl hne
  | token g p rest ih =>
      intro hr n hn hne h4
      have hlen : (g ++ (p ++ xmlTokenClose)).length = g.length + (p ++ xmlTokenClose).length :=
        List.length_append
      by_cases hlt : n < g.length + (p ++ xmlTokenClose).length
      · rw [unfinished, if_pos hlt] at hne h4
        rw [List.length_take] at h4
        have hpos : g.length < n := by
          by_contra hle
          refine hne ?_
          rw [Nat.sub_eq_zero_of_le (Nat.le_of_not_lt hle), List.take_zero]
        refine ⟨g.length, hpos, by omega, ?_⟩
        rw [text, List.drop_left, List.append_assoc]
        exact hr.2.1.opens.trans (List.prefix_append _ _)
      · rw [unfinished, if_neg hlt] at hne h4
        rw [text_token, List.length_append, hlen] at hn
        rcases ih hr.2.2 _ (by omega) hne h4 with ⟨j, hj, hj4, hocc⟩
        refine ⟨g.length + (p ++ xmlTokenClose).length + j, by omega, by omega, ?_⟩
        rw [text_token, ← List.drop_drop, ← hlen, List.drop_left]
        exact hocc

section Run

variable (hne : ∀ k ∈ v.syntheticKeys, k ≠ []) (hv : v.Searchable) {resp : Response}
  (hr : resp.Readable v) (hplain : resp.Plain v)
include hne hv hr hplain

omit hne hv in
/-- Nothing of a synthetic has come since the last token, unless a token has begun. -/
theorem bare_of_not_inTag (n : Nat) (hn : n ≤ resp.text.length) (hcut : ¬ InTag resp.text n) :
    resp.Bare v n := by
  intro h4 k hk hin
  have hun : resp.unfinished n = [] := by
    by_contra hne'
    exact hcut (inTag_of_unfinished resp hr n hn hne' h4)
  rcases goes_on resp hr n hn hun with ⟨_, _, _, _, _, hsince⟩
  exact hplain.2 k hk (hin.trans (hsince.isInfix.trans
    (restored_prefix_spells resp n hn).isInfix))

omit hplain in
/-- What is kept outside the tokens is the end of what is restored. -/
theorem OnTrack.buffer_suffix {n : Nat} {sent : Str} {b : ReplacementBuffer}
    (ht : resp.OnTrack v n sent b) (hn : n ≤ resp.text.length) (hun : resp.unfinished n = []) :
    b.buffer <:+ resp.restored v n := by
  have hjoined := ht.joined
  have hnil : cascade v [] = [] := by
    have := cascade_unfinished hne hv resp hr n hn ht.bare
    rwa [hun] at this
  rw [cascade_take hne hv resp hr n n (Nat.le_refl n) ht.bare, List.drop_take_self, hun,
    List.append_nil, hnil, List.append_nil] at hjoined
  exact ⟨sent, hjoined⟩

/-- A delta between positions outside the tags is safe. -/
theorem safeDelta_of_cuts {n : Nat} {sent : Str} {b : ReplacementBuffer}
    (ht : resp.OnTrack v n sent b) (d : Str) (hn : n + d.length ≤ resp.text.length)
    (htext : resp.text.take (n + d.length) = resp.text.take n ++ d)
    (hcut : ¬ InTag resp.text n) (hcut' : ¬ InTag resp.text (n + d.length)) :
    resp.SafeDelta v n b d := by
  have hun : (resp.unfinished n).length < 4 → resp.unfinished n = [] := by
    intro h4
    by_contra hne'
    exact hcut (inTag_of_unfinished resp hr n (by omega) hne' h4)
  refine ⟨fun h4 => ?_, fun h4 => ?_, bare_of_not_inTag hr hplain _ hn hcut'⟩
  · rw [hun h4]
    exact List.nil_suffix
  · rw [hun h4, List.length_nil, Nat.sub_zero]
    rcases goes_on resp hr n (by omega) (hun h4) with ⟨gap, tail, hdrop, htail, hpre, -⟩
    -- the buffer and the rest of the gap are a part of what is spelled
    have hpart : ∀ x, x <+: gap → b.buffer ++ x <:+: resp.spells v := by
      intro x hx
      rcases ht.buffer_suffix hne hv hr (by omega) (hun h4) with ⟨w, hw⟩
      rw [← hw, List.append_assoc] at hpre
      have hbx : b.buffer ++ x <+: b.buffer ++ gap := by rwa [List.prefix_append_right_inj]
      exact hbx.isInfix.trans (((List.suffix_append w _).isInfix).trans hpre.isInfix)
    have hd : d <+: gap ++ tail := by
      rw [← hdrop]
      have hsplit : resp.text.take (n + d.length) = resp.text.take n ++ (resp.text.drop n).take
          d.length := List.take_add
      rw [htext] at hsplit
      rw [List.append_cancel_left hsplit]
      exact List.take_prefix _ _
    by_cases hle : d.length ≤ gap.length
    · -- the delta stays in the gap
      have hgap : d <+: gap := List.prefix_of_prefix_length_le hd (List.prefix_append _ _) hle
      have hnone : ¬ xmlTokenOpen <:+: b.buffer ++ d := fun hin =>
        hplain.1 (hin.trans (hpart d hgap))
      rw [plainFront_plain _ hnone]
      intro q _
      refine ⟨fun hocc => hnone (hocc.isInfix.trans (List.drop_suffix _ _).isInfix), ?_⟩
      intro k hk hocc
      exact hplain.2 k hk ((hocc.isInfix.trans (List.drop_suffix _ _).isInfix).trans (hpart d hgap))
    · -- it goes on into a token, and has the whole tag
      have hgap : gap <+: d :=
        List.prefix_of_prefix_length_le (List.prefix_append gap tail) hd (by omega)
      rcases hgap with ⟨t, rfl⟩
      rw [List.prefix_append_right_inj] at hd
      rw [List.length_append] at hle hcut'
      have hopen : xmlTokenOpen <+: tail := by
        rcases htail with rfl | hopen
        · have hnil := List.prefix_nil.mp hd
          rw [hnil, List.length_nil] at hle
          omega
        · exact hopen
      have h4 : 4 ≤ t.length := by
        by_contra hlt
        refine hcut' ⟨n + gap.length, by omega, by omega, ?_⟩
        rw [← List.drop_drop, hdrop, List.drop_left]
        exact hopen
      have hlen : xmlTokenOpen.length = 4 := by decide
      rcases List.prefix_of_prefix_length_le hopen hd (by omega) with ⟨r, rfl⟩
      have hnone : ¬ xmlTokenOpen <:+: b.buffer ++ gap := fun hin =>
        hplain.1 (hin.trans (hpart gap (List.prefix_refl gap)))
      rw [← List.append_assoc, plainFront_open _ xmlTokenOpen r hnone (List.prefix_refl _)]
      intro q hq
      constructor
      · have hfind := Search.find_append_headOnly _ (b.buffer ++ gap) r headOnly_xmlTokenOpen hnone
        refine (Search.find_eq_some _ _ _ hfind).2.2 q ?_
        rw [List.length_append]
        omega
      · intro k hk hocc
        exact hplain.2 k hk ((hocc.isInfix.trans (List.drop_suffix _ _).isInfix).trans
          (hpart gap (List.prefix_refl gap)))

variable (hfull : v.isEmpty = false)
include hfull

/-- Deltas that end outside the tags are safe. -/
theorem safeRun : ∀ (deltas : List Str) (n : Nat) (sent : Str) (b : ReplacementBuffer),
    n ≤ resp.text.length → resp.text.drop n = deltas.flatten → resp.OnTrack v n sent b →
    (∀ k, ¬ InTag resp.text (n + (deltas.take k).flatten.length)) → resp.SafeRun v n b deltas := by
  intro deltas
  induction deltas with
  | nil =>
      intro n sent b hn htext ht _
      rw [List.flatten_nil, List.drop_eq_nil_iff] at htext
      have hend : n = resp.text.length := Nat.le_antisymm hn htext
      have hun : resp.unfinished n = [] := by rw [hend]; exact (restored_all (v := v) resp).2
      have hin : b.buffer <:+: resp.spells v :=
        (ht.buffer_suffix hne hv hr hn hun).isInfix.trans (restored_prefix_spells resp n hn).isInfix
      exact ⟨fun h => hplain.1 (h.trans hin), fun k hk h => hplain.2 k hk (h.trans hin)⟩
  | cons d ds ih =>
      intro n sent b hn htext ht hcuts
      rw [List.flatten_cons] at htext
      have htake : resp.text.take (n + d.length) = resp.text.take n ++ d := by
        rw [List.take_add, htext, List.take_left]
      have hdrop : resp.text.drop (n + d.length) = ds.flatten := by
        rw [← List.drop_drop, htext, List.drop_left]
      have hlen : n + d.length ≤ resp.text.length := by
        have hl := congrArg List.length htext
        rw [List.length_drop, List.length_append] at hl
        omega
      have hcut := hcuts 0
      have hcut' := hcuts 1
      rw [List.take_zero, List.flatten_nil, List.length_nil, Nat.add_zero] at hcut
      rw [List.take_succ_cons, List.take_zero, List.flatten_singleton] at hcut'
      have hsafe := safeDelta_of_cuts hne hv hr hplain ht d hlen htake hcut hcut'
      refine ⟨fun _ => hsafe, ih _ _ _ hlen hdrop
        (processDelta_onTrack hne hv hfull hr ht d hn htake fun _ => hsafe) fun k => ?_⟩
      have hk := hcuts (k + 1)
      rwa [List.take_succ_cons, List.flatten_cons, List.length_append, ← Nat.add_assoc] at hk

end Run

/-- The cascade of the whole response is what it spells. -/
theorem cascade_spells (hne : ∀ k ∈ v.syntheticKeys, k ≠ []) (hv : v.Searchable) {resp : Response}
    (hr : resp.Readable v) (hplain : resp.Plain v) : cascade v resp.text = resp.spells v := by
  have hall := restored_all (v := v) resp
  have hbare : resp.Bare v resp.text.length := by
    refine bare_of_not_inTag hr hplain _ (Nat.le_refl _) ?_
    rintro ⟨j, hj, hj4, hocc⟩
    have hl := hocc.length_le
    have hlen : xmlTokenOpen.length = 4 := by decide
    rw [List.length_drop] at hl
    omega
  have hcas := cascade_take hne hv resp hr _ _ (Nat.le_refl _) hbare
  rw [List.take_length, hall.1, hall.2, List.drop_length, List.append_nil] at hcas
  have hnil := cascade_unfinished hne hv resp hr _ (Nat.le_refl _) hbare
  rw [hall.2] at hnil
  rw [hcas, hnil, List.append_nil]

end Response

/-- Quoted tokens are restored, whatever the deltas are that end outside the tags. -/
theorem quoted_stream (v : PiiVault) (hv : v.Searchable) (resp : Response) (hr : resp.Readable v)
    (hplain : resp.Plain v) (deltas : List Str) (htext : deltas.flatten = resp.text)
    (hcuts : ∀ k, ¬ InTag resp.text (deltas.take k).flatten.length) :
    ReplacementBuffer.stream v deltas = resp.spells v := by
  have hne := Response.Readable.keys_ne_nil resp hr
  have hspells := Response.cascade_spells hne hv hr hplain
  cases hempty : v.isEmpty with
  | true => rw [stream_empty hempty, htext, ← hspells, cascade_empty hv hempty]
  | false =>
      have hstart := Response.OnTrack.start hne hempty resp
      have hsafe := Response.safeRun hne hv hr hplain hempty deltas 0 [] ReplacementBuffer.new
        (Nat.zero_le _) htext.symm hstart (by simpa only [Nat.zero_add] using hcuts)
      have hrun := Response.processDeltas_onTrack hne hv hempty hr deltas 0 []
        ReplacementBuffer.new (Nat.zero_le _) htext.symm hstart hsafe
      rw [List.nil_append, hspells] at hrun
      exact hrun

/-- The deltas of a content block quote tokens of the vault; with the originals in
    their places they spell the text. -/
structure Quotes (v : PiiVault) (deltas : List Str) (text : Str) : Prop where
  response : ∃ resp : Response, resp.Readable v ∧ resp.Plain v ∧ deltas.flatten = resp.text ∧
    resp.spells v = text
  cuts : ∀ k, ¬ InTag deltas.flatten (deltas.take k).flatten.length

theorem Quotes.stream {v : PiiVault} (hv : v.Searchable) {deltas : List Str} {text : Str}
    (hq : Quotes v deltas text) : ReplacementBuffer.stream v deltas = text := by
  rcases hq.response with ⟨resp, hr, hplain, htext, hspells⟩
  rw [← hspells]
  refine quoted_stream v hv resp hr hplain deltas htext fun k => ?_
  rw [← htext]
  exact hq.cuts k

/-- The client reads what the blocks spell, whatever the reads from the socket are. -/
theorem quoted_delivered (env : U2cEnv) (hreplace : env.piiReplace = true)
    (hp : env.provider = .anthropic) (hJ : env.json.RoundTrip env.provider) (v : PiiVault)
    (hv : v.Searchable) (hvault : env.vault = some v) (a : Answer) (ha : a.WellFormed env)
    (reads : List (List UInt8)) (hreads : reads.flatten = a.bytes) (texts : List Str)
    (hblocks : List.Forall₂ (Quotes v) (((a.spoken env).splitOnP (isBlockStop env.provider)).map
      (deltasOf env.json env.provider)) texts) :
    textOf env.json env.provider (beforeEnd env (handleU2c env reads)) = texts.flatten := by
  rw [text_blocks hreplace hvault hJ ha reads hreads hp]
  congr 1
  have hall : ∀ (blocks : List (List Str)) (texts : List Str),
      List.Forall₂ (Quotes v) blocks texts →
      blocks.map (ReplacementBuffer.stream v) = texts := by
    intro blocks texts h
    induction h with
    | nil => rfl
    | cons hq _ ih => rw [List.map_cons, hq.stream hv, ih]
  rw [← hall _ _ hblocks, List.map_map]
  rfl

section Echo

variable (R : Rand) (C : Chrono) (h : Hashes) (text : Str) (locale : Locale) (convId : Str)
  (base : Nat)

/-- A display value that was looked up or created is a synthetic of the vault. -/
theorem getOrCreate_mem (v v' : PiiVault) (hv : v.Searchable) (o d : Str) (ty : PiiType)
    (tier : UInt8) (conf : F32)
    (hrun : getOrCreate R C v o ty locale tier conf = some (d, v')) : d ∈ v'.syntheticKeys := by
  rcases getOrCreate_cases R C v v' o d ty locale tier conf hrun with
    ⟨hs, rfl⟩ | ⟨hs, -, rfl⟩
  · exact hv.stored o d hs
  · rw [PiiVault.addMapping, if_neg (AList.lookup_eq_none.mp hs)]
    change d ∈ v.syntheticKeys ++ [d]
    exact List.mem_append_right _ List.mem_cons_self

/-- Masking makes a response that spells the text: the gaps are pieces of it, and the
    tokens hold display values of the vault. -/
theorem replaceSpansFrom_response (w : PiiVault)
    (hkeys : ∀ k ∈ w.syntheticKeys, ¬ k <:+: text)
    (htags : ∀ k ∈ w.syntheticKeys, ¬ xmlTokenOpen <:+: k ∧ ¬ xmlTokenClose <:+: k)
    (hopen : ¬ xmlTokenOpen <:+: text) :
    ∀ (spans : List PiiSpan) (i last : Nat) (v : PiiVault) (out : Str) (replaced : List Replaced),
      v.Searchable →
      replaceSpansFrom R C h text locale convId base spans i last v = some (out, replaced, w) →
      (∀ r ∈ replaced, restoreToken w
        (xmlToken (generateTokenId h convId (base + r.position)) r.displayValue) = r.original) →
      ∃ resp : Response, resp.Readable w ∧ resp.text = out ∧ resp.spells w = text.drop last := by
  have hpiece : ∀ a b s, slice text a b = some s → s <:+: text ∧ Response.PlainGap w s := by
    intro a b s hs
    have hin : s <:+: text := by
      rw [((slice_eq_some_iff text s a b).mp hs).2]
      exact (List.drop_suffix _ _).isInfix.trans (List.take_prefix _ _).isInfix
    exact ⟨hin, fun h => hopen (h.trans hin), fun k hk h => hkeys k hk (h.trans hin)⟩
  intro spans
  induction spans with
  | nil =>
      intro i last v out replaced _ hrun _
      rw [replaceSpansFrom, Option.bind_eq_bind, Option.bind_eq_some_iff] at hrun
      rcases hrun with ⟨tail, htail, hrun⟩
      simp only [Option.some.injEq, Prod.mk.injEq] at hrun
      refine ⟨.plain tail, (hpiece _ _ _ htail).2, hrun.1, ?_⟩
      rw [Response.spells, ((slice_eq_some_iff text _ _ _).mp htail).2, List.take_length]
  | cons span spans ih =>
      intro i last v out replaced hv hrun hres
      rcases replaceSpansFrom_cases R C h text locale convId base span spans i last v w out replaced
        hrun with ⟨_, hrest⟩ | ⟨_, gap, original, hgap, horig, hround⟩
      · exact ih _ _ _ _ _ hv hrest hres
      rcases hround with ⟨hsyn, out', hrest, _⟩ |
        ⟨_, d, v₁, out', replaced', hcreate, hrest, rfl, rfl⟩
      · -- a span that is a synthetic would be a key that occurs in the text
        rcases List.any_eq_true.mp hsyn with ⟨k, hk, he⟩
        rw [beq_iff_eq] at he
        have hmem := replaceSpansFrom_keys R C h text locale convId base _ _ _ _ _ _ _ hrest hk
        rw [he] at hmem
        exact absurd (hpiece _ _ _ horig).1 (hkeys _ hmem)
      · have hv₁ := hv.getOrCreate R C original d span.entityType locale span.tier span.confidence
          v₁ hcreate
        have hd : d ∈ w.syntheticKeys := by
          refine replaceSpansFrom_keys R C h text locale convId base _ _ _ _ _ _ _ hrest ?_
          refine addMappingWithTokenId_keys v₁ _ _ _ _ _ _ ?_
          exact getOrCreate_mem R C locale v v₁ hv original d _ _ _ hcreate
        have hid : 60 ∉ generateTokenId h convId (base + i) := fun hmem =>
          absurd (generateTokenId_mem h convId _ _ hmem) (by decide)
        rcases ih _ _ _ _ _ (hv₁.addMappingWithTokenId _ _ _ _ _ _) hrest
          (fun r hr => hres r (List.mem_cons_of_mem _ hr)) with ⟨rest, hreadable, rfl, hspells⟩
        refine ⟨.token gap (tokenHead (generateTokenId h convId (base + i)) d) rest,
          ⟨(hpiece _ _ _ hgap).2, Response.tokenBody_tokenHead _ _ hid (htags d hd).2
            (htags d hd).1, hreadable⟩, ?_, ?_⟩
        · rw [xmlToken_eq]
          exact Response.text_token gap _ rest
        · -- what is put together is the gap, the original and the rest
          have hmine := hres _ List.mem_cons_self
          dsimp only at hmine
          rcases (slice_eq_some_iff text _ _ _).mp hgap with ⟨⟨hle, _⟩, rfl⟩
          rcases (slice_eq_some_iff text _ _ _).mp horig with ⟨⟨hle', _⟩, rfl⟩
          rw [Response.spells, ← xmlToken_eq, hmine, hspells, slice_append_drop text _ _ hle',
            slice_append_drop text _ _ hle]

/-- A masked text in a content block is quoted. -/
theorem quotes_of_mask (spans : List PiiSpan) (v v' : PiiVault) (hv : v.Searchable)
    (hopen : ¬ xmlTokenOpen <:+: text)
    (hinj : ∀ i < spans.length, ∀ j < spans.length,
      generateTokenId h convId (base + i) = generateTokenId h convId (base + j) → i = j)
    (out : Str) (dets : List PiiDetection)
    (hmask : replaceWithSpansXml R C h text spans locale v convId base = some (out, dets, v'))
    (hkeys : ∀ k ∈ v'.syntheticKeys, ¬ k <:+: text)
    (htags : ∀ k ∈ v'.syntheticKeys, ¬ xmlTokenOpen <:+: k ∧ ¬ xmlTokenClose <:+: k)
    (deltas : List Str) (hdeltas : deltas.flatten = out)
    (hcuts : ∀ k, ¬ InTag out (deltas.take k).flatten.length) :
    Quotes v' deltas text ∧ v'.Searchable := by
  rw [replaceWithSpansXml, Option.bind_eq_bind, Option.bind_eq_some_iff] at hmask
  rcases hmask with ⟨⟨out', replaced, w⟩, hrun, hmask⟩
  simp only [Option.some.injEq, Prod.mk.injEq] at hmask
  rcases hmask with ⟨rfl, _, rfl⟩
  rcases replaceSpansFrom_response R C h text locale convId base w hkeys htags hopen spans 0 0 v
    out' replaced hv hrun (replaceSpansFrom_resolves R C h text locale convId base spans 0 v w out'
      replaced hinj hrun) with ⟨resp, hr, htext, hspells⟩
  rw [List.drop_zero] at hspells
  refine ⟨⟨⟨resp, hr, ?_, by rw [hdeltas, htext], hspells⟩, by rw [hdeltas]; exact hcuts⟩,
    replaceSpansFrom_searchable R C h text locale convId base spans 0 0 v w out' replaced hrun hv⟩
  rw [Response.Plain, hspells]
  exact ⟨hopen, hkeys⟩

/-- A message is masked, the model quotes it in a block of its own, and the client
    reads its own words: whatever the reads from the socket are, and whatever the
    deltas are that end outside the tags. -/
theorem echo_delivered (spans : List PiiSpan) (v v' : PiiVault) (hv : v.Searchable)
    (hopen : ¬ xmlTokenOpen <:+: text)
    (hinj : ∀ i < spans.length, ∀ j < spans.length,
      generateTokenId h convId (base + i) = generateTokenId h convId (base + j) → i = j)
    (out : Str) (dets : List PiiDetection)
    (hmask : replaceWithSpansXml R C h text spans locale v convId base = some (out, dets, v'))
    (hkeys : ∀ k ∈ v'.syntheticKeys, ¬ k <:+: text)
    (htags : ∀ k ∈ v'.syntheticKeys, ¬ xmlTokenOpen <:+: k ∧ ¬ xmlTokenClose <:+: k)
    (env : U2cEnv) (hreplace : env.piiReplace = true) (hp : env.provider = .anthropic)
    (hJ : env.json.RoundTrip env.provider) (hvault : env.vault = some v') (a : Answer)
    (ha : a.WellFormed env) (reads : List (List UInt8)) (hreads : reads.flatten = a.bytes)
    (before after : List (List SseEvent)) (block : List SseEvent)
    (hblocks : (a.spoken env).splitOnP (isBlockStop env.provider) = before ++ block :: after)
    (hsilent : ∀ b ∈ before ++ after, deltasOf env.json env.provider b = [])
    (hquoted : (deltasOf env.json env.provider block).flatten = out)
    (hcuts : ∀ k, ¬ InTag out ((deltasOf env.json env.provider block).take k).flatten.length) :
    textOf env.json env.provider (beforeEnd env (handleU2c env reads)) = text := by
  rcases quotes_of_mask R C h text locale convId base spans v v' hv hopen hinj out dets hmask hkeys
    htags _ hquoted hcuts with ⟨hq, hv'⟩
  have hquiet : ∀ bs : List (List SseEvent),
      (∀ b ∈ bs, deltasOf env.json env.provider b = []) →
      (bs.map fun b => ReplacementBuffer.stream v' (deltasOf env.json env.provider b)).flatten =
        [] := by
    intro bs hbs
    rw [List.flatten_eq_nil_iff]
    intro x hx
    rcases List.mem_map.mp hx with ⟨b, hb, rfl⟩
    rw [hbs b hb]
    rfl
  rw [text_blocks hreplace hvault hJ ha reads hreads hp, hblocks, List.map_append, List.map_cons,
    List.flatten_append, List.flatten_cons, hq.stream hv',
    hquiet before fun b hb => hsilent b (List.mem_append_left _ hb),
    hquiet after fun b hb => hsilent b (List.mem_append_right _ hb), List.nil_append,
    List.append_nil]

end Echo

section Sample

/-- A hexadecimal digit, printed and read. -/
def jsonDigit (b : UInt8) : UInt8 := if b < 10 then 48 + b else 87 + b

def jsonDigitValue (c : UInt8) : UInt8 := if c < 58 then c - 48 else c - 87

/-- A byte as it is printed in a JSON string. -/
def jsonEscape (b : UInt8) : Str :=
  if b = 34 then lit "\\\""
  else if b = 92 then lit "\\\\"
  else if b = 8 then lit "\\b"
  else if b = 9 then lit "\\t"
  else if b = 10 then lit "\\n"
  else if b = 12 then lit "\\f"
  else if b = 13 then lit "\\r"
  else if b < 32 then lit "\\u00" ++ [jsonDigit (b >>> 4), jsonDigit (b &&& 15)]
  else [b]

theorem quoted_eq (s : Str) :
    Value.quoted s = lit "\"" ++ s.flatMap jsonEscape ++ lit "\"" := rfl

/-- What stands behind a backslash, and the rest. -/
def afterBackslash : Str → Option (UInt8 × Str)
  | [] => none
  | c :: s =>
    if c = 117 then
      match s with
      | _ :: _ :: a :: b :: s => some (jsonDigitValue a * 16 + jsonDigitValue b, s)
      | _ => none
    else some (if c = 98 then 8 else if c = 116 then 9 else if c = 110 then 10
      else if c = 102 then 12 else if c = 114 then 13 else c, s)

/-- The bytes of a JSON string, read back. -/
def unescape : Nat → Str → Str
  | 0, _ => []
  | _ + 1, [] => []
  | fuel + 1, c :: s =>
    if c = 92 then
      match afterBackslash s with
      | some (b, s) => b :: unescape fuel s
      | none => []
    else c :: unescape fuel s

theorem control_digits (b : UInt8) (hb : b < 32) :
    jsonDigitValue (jsonDigit (b >>> 4)) * 16 + jsonDigitValue (jsonDigit (b &&& 15)) = b := by
  have hall : ∀ n < 32, jsonDigitValue (jsonDigit (UInt8.ofNat n >>> 4)) * 16 +
      jsonDigitValue (jsonDigit (UInt8.ofNat n &&& 15)) = UInt8.ofNat n := by decide
  have hb' := hall b.toNat (UInt8.lt_iff_toNat_lt.mp hb)
  rwa [UInt8.ofNat_toNat] at hb'

theorem unescape_jsonEscape (b : UInt8) (s : Str) (fuel : Nat) :
    unescape (fuel + 1) (jsonEscape b ++ s) = b :: unescape fuel s := by
  unfold jsonEscape
  split_ifs with h34 h92 h8 h9 h10 h12 h13 h32
  · rw [h34]
    rfl
  · rw [h92]
    rfl
  · rw [h8]
    rfl
  · rw [h9]
    rfl
  · rw [h10]
    rfl
  · rw [h12]
    rfl
  · rw [h13]
    rfl
  · change (jsonDigitValue (jsonDigit (b >>> 4)) * 16 + jsonDigitValue (jsonDigit (b &&& 15))) ::
      unescape fuel s = b :: unescape fuel s
    rw [control_digits b h32]
  · rw [List.singleton_append, unescape, if_neg h92]

/-- What was printed is read back. -/
theorem unescape_escaped : ∀ (text : Str) (fuel : Nat), text.length ≤ fuel →
    unescape fuel (text.flatMap jsonEscape) = text := by
  intro text
  induction text with
  | nil => intro fuel _; cases fuel <;> rfl
  | cons b text ih =>
      intro fuel hfuel
      cases fuel with
      | zero => exact absurd hfuel (by simp only [List.length_cons]; omega)
      | succ fuel =>
          rw [List.flatMap_cons, unescape_jsonEscape, ih fuel (by simpa using hfuel)]

theorem length_le_escaped (text : Str) : text.length ≤ (text.flatMap jsonEscape).length := by
  induction text with
  | nil => exact Nat.le_refl 0
  | cons b text ih =>
      have hone : 1 ≤ (jsonEscape b).length := by
        unfold jsonEscape
        split_ifs <;> exact Nat.succ_le_succ (Nat.zero_le _)
      rw [List.flatMap_cons, List.length_append, List.length_cons]
      omega

/-- A parser and printer for text events and for the events that end a block and the
    message. -/
def quotedJson : SerdeJson where
  fromStr s := (plainJson.fromStr s).map fun w =>
    match strAt w [lit "delta", lit "text"] with
    | some raw => textDelta (unescape raw.length raw)
    | none => w
  toStr w :=
    match strAt w [lit "delta", lit "text"] with
    | some text => textHead ++ (text.flatMap jsonEscape ++ textTail)
    | none => w.compact

/-- The event for a piece of text, as it is printed. -/
def pieceEvent (text : Str) : SseEvent :=
  ⟨some (lit "content_block_delta"), textHead ++ (text.flatMap jsonEscape ++ textTail)⟩

theorem quotedJson_text (text : Str) :
    quotedJson.fromStr (textHead ++ (text.flatMap jsonEscape ++ textTail)) =
      some (textDelta text) := by
  have hraw : strAt (textDelta (text.flatMap jsonEscape)) [lit "delta", lit "text"] =
      some (text.flatMap jsonEscape) := rfl
  rw [quotedJson]
  dsimp only
  rw [plainJson_text, Option.map_some, hraw]
  dsimp only
  rw [unescape_escaped text _ (length_le_escaped text)]

theorem quotedJson_cases (data : Str) (w : Value) (h : quotedJson.fromStr data = some w) :
    data.head? = some 123 ∧
      ((∃ text, w = textDelta text) ∨ w = bareEvent (lit "content_block_stop") ∨
        w = bareEvent (lit "message_stop")) := by
  rw [quotedJson, Option.map_eq_some_iff] at h
  rcases h with ⟨w', hw', rfl⟩
  rcases plainJson_cases data w' hw' with ⟨hhead, ⟨t, rfl⟩ | rfl | rfl⟩
  · exact ⟨hhead, .inl ⟨_, rfl⟩⟩
  · exact ⟨hhead, .inr (.inl rfl)⟩
  · exact ⟨hhead, .inr (.inr rfl)⟩

theorem quotedJson_roundTrip : quotedJson.RoundTrip .anthropic where
  done data hdone := by
    cases h : quotedJson.fromStr data with
    | none => rfl
    | some w => exact absurd hdone (trim_object data (quotedJson_cases data w h).1)
  edited data w path text hw hpath := by
    cases hpath
    rcases (quotedJson_cases data w hw).2 with ⟨t, rfl⟩ | rfl | rfl
    · exact ⟨textDelta text, quotedJson_text text, fun _ => rfl⟩
    · exact ⟨bareEvent (lit "content_block_stop"), rfl, fun _ => rfl⟩
    · exact ⟨bareEvent (lit "message_stop"), rfl, fun _ => rfl⟩
  trailing text w h := by
    cases h
    exact ⟨textDelta text, quotedJson_text text, fun _ => rfl⟩

/-- Events that are written one after the other are read one after the other. -/
theorem scan_flatMap : ∀ es : List SseEvent,
    (∀ e ∈ es, (∀ t ∈ e.eventType, Field t) ∧ Field e.data) →
    SseParser.scan (es.flatMap reconstructSseEventBytes) = (es, []) := by
  intro es
  induction es with
  | nil => intro _; rfl
  | cons e es ih =>
      intro h
      have he := scan_written e (h e List.mem_cons_self).1 (h e List.mem_cons_self).2
      rw [List.flatMap_cons, SseParser.scan_append, he, List.nil_append,
        ih fun x hx => h x (List.mem_cons_of_mem _ hx)]
      rfl

/-- An event that has only its type. -/
def typeEvent (name : Str) : SseEvent := ⟨some name, (bareEvent name).compact⟩

/-- An answer with one block, in the given pieces. -/
def blockAnswer (pieces : List Str) : Answer where
  header := lit "HTTP/1.1 200 OK\r\ncontent-type: text/event-stream\r\n\r\n"
  body := .whole ((pieces.map pieceEvent ++ [typeEvent (lit "content_block_stop"),
    typeEvent (lit "message_stop")]).flatMap reconstructSseEventBytes)

/-- A text with an address in it, and its span. -/
def addressText : Str := lit "Hi a@x."

def addressSpans : List PiiSpan := [⟨3, 6, .email, F32.one, 1⟩]

/-- The text as it is masked on a new vault, in two pieces. -/
def addressPieces : List Str :=
  [lit "Hi <pii id=\"Kx2OwnsW\">alice", lit "brown@example.com</pii>."]

/-- The events of the answer that quotes it. -/
def addressEvents : List SseEvent :=
  addressPieces.map pieceEvent ++ [typeEvent (lit "content_block_stop"),
    typeEvent (lit "message_stop")]

theorem addressAnswer_events : (blockAnswer addressPieces).events = addressEvents := by
  have hfield : ∀ t : Str, 10 ∉ t → utf8Valid t = true → trim t = t → Field t :=
    fun t h1 h2 h3 => ⟨h1, h2, h3 ▸ trimmed_trim t⟩
  refine congrArg Prod.fst (scan_flatMap addressEvents ?_)
  intro e he
  have hparts : e ∈ [pieceEvent (lit "Hi <pii id=\"Kx2OwnsW\">alice"),
      pieceEvent (lit "brown@example.com</pii>."), typeEvent (lit "content_block_stop"),
      typeEvent (lit "message_stop")] := he
  simp only [List.mem_cons, List.not_mem_nil, or_false] at hparts
  rcases hparts with rfl | rfl | rfl | rfl
  · exact ⟨fun t ht => by cases ht; exact hfield _ (by decide) (by decide) (by decide),
      hfield _ (by decide) (by decide) (by decide)⟩
  · exact ⟨fun t ht => by cases ht; exact hfield _ (by decide) (by decide) (by decide),
      hfield _ (by decide) (by decide) (by decide)⟩
  · exact ⟨fun t ht => by cases ht; exact hfield _ (by decide) (by decide) (by decide),
      hfield _ (by decide) (by decide) (by decide)⟩
  · exact ⟨fun t ht => by cases ht; exact hfield _ (by decide) (by decide) (by decide),
      hfield _ (by decide) (by decide) (by decide)⟩

/-- The environment of a client that talks to Anthropic, with a vault. -/
def quotedEnv (v : PiiVault) : U2cEnv where
  json := quotedJson
  provider := .anthropic
  piiReplace := true
  vault := some v

theorem addressAnswer_wellFormed (v : PiiVault) :
    (blockAnswer addressPieces).WellFormed (quotedEnv v) where
  ends := by decide
  sse := by decide
  framing := by decide
  body := trivial
  named _ e he := by
    rw [addressAnswer_events] at he
    simp only [addressEvents, addressPieces, List.map_cons, List.map_nil, List.cons_append,
      List.nil_append, List.mem_cons, List.not_mem_nil, or_false] at he
    rcases he with rfl | rfl | rfl | rfl
    · exact ⟨_, quotedJson_text _, rfl⟩
    · exact ⟨_, quotedJson_text _, rfl⟩
    · exact ⟨bareEvent (lit "content_block_stop"), rfl, rfl⟩
    · exact ⟨bareEvent (lit "message_stop"), rfl, rfl⟩
  terminal := by
    refine ⟨addressPieces.map pieceEvent ++ [typeEvent (lit "content_block_stop")],
      [typeEvent (lit "message_stop")], addressAnswer_events, ?_, _, rfl, rfl⟩
    intro e he
    simp only [addressPieces, List.map_cons, List.map_nil, List.cons_append, List.nil_append,
      List.mem_cons, List.not_mem_nil, or_false] at he
    rcases he with rfl | rfl | rfl <;> rfl

theorem deltasOf_pieces (pieces : List Str) :
    deltasOf quotedJson .anthropic (pieces.map pieceEvent) = pieces := by
  induction pieces with
  | nil => rfl
  | cons piece pieces ih =>
      have hone : extractTextDelta quotedJson .anthropic (pieceEvent piece).data = some piece := by
        rw [extractTextDelta, pieceEvent, quotedJson_text]
        rfl
      rw [deltasOf] at ih ⊢
      simp only [List.map_cons, List.filterMap_cons, hone, ih]

theorem addressAnswer_blocks (v : PiiVault) :
    ((blockAnswer addressPieces).spoken (quotedEnv v)).splitOnP (isBlockStop .anthropic) =
      [] ++ addressPieces.map pieceEvent :: [[]] := by
  rw [Answer.spoken, addressAnswer_events]
  rfl

/-- No piece ends inside the tag. -/
theorem addressPieces_cuts (k : Nat) :
    ¬ InTag addressPieces.flatten (addressPieces.take k).flatten.length := by
  rcases k with _ | _ | k
  · decide
  · decide
  · rw [List.take_of_length_le (Nat.le_add_left 2 k)]
    decide

theorem addressText_masked :
    ∃ dets v', replaceWithSpansXml Rand.least Chrono.none sampleHashes addressText addressSpans
      .enUs (PiiVault.new sampleHashes (lit "c")) (lit "c") 0 =
        some (addressPieces.flatten, dets, v') ∧
      v'.syntheticKeys = [lit "alicebrown@example.com"] := by
  have hmask : ∃ out dets v', replaceWithSpansXml Rand.least Chrono.none sampleHashes addressText
      addressSpans .enUs (PiiVault.new sampleHashes (lit "c")) (lit "c") 0 = some (out, dets, v') ∧
      out = addressPieces.flatten ∧ v'.syntheticKeys = [lit "alicebrown@example.com"] :=
    ⟨_, _, _, rfl, by decide, rfl⟩
  rcases hmask with ⟨out, dets, v', hmask, rfl, hkeys⟩
  exact ⟨dets, v', hmask, hkeys⟩

/-- The masked address is quoted in two pieces and restored. -/
theorem quoted_delivered_address :
    ∃ v', textOf quotedJson .anthropic (beforeEnd (quotedEnv v') (handleU2c (quotedEnv v')
      [(blockAnswer addressPieces).bytes])) = [addressText, []].flatten := by
  rcases addressText_masked with ⟨dets, v', hmask, hkeys⟩
  rcases quotes_of_mask Rand.least Chrono.none sampleHashes addressText .enUs (lit "c") 0
    addressSpans (PiiVault.new sampleHashes (lit "c")) v'
    (PiiVault.WellFormed.new sampleHashes (lit "c")).searchable (by decide) (by decide) _ dets hmask
    (by rw [hkeys]; decide) (by rw [hkeys]; decide) addressPieces rfl addressPieces_cuts with
    ⟨hquotes, hv'⟩
  have hgap : Response.PlainGap v' [] := ⟨by decide, by rw [hkeys]; decide⟩
  have hempty : Quotes v' [] [] :=
    ⟨⟨.plain [], hgap, hgap, rfl, rfl⟩, fun k => by rw [List.take_nil]; decide⟩
  refine ⟨v', quoted_delivered (quotedEnv v') rfl rfl quotedJson_roundTrip v' hv' rfl
    (blockAnswer addressPieces) (addressAnswer_wellFormed v') _ (List.append_nil _) _ ?_⟩
  change List.Forall₂ (Quotes v')
    (((Answer.spoken (quotedEnv v') (blockAnswer addressPieces)).splitOnP
      (isBlockStop .anthropic)).map (deltasOf quotedJson .anthropic)) _
  rw [addressAnswer_blocks, List.nil_append, List.map_cons, deltasOf_pieces]
  exact .cons hquotes (.cons hempty .nil)

/-- The address is masked, quoted in two pieces and read by the client. -/
theorem echo_delivered_address :
    ∃ dets v', replaceWithSpansXml Rand.least Chrono.none sampleHashes addressText addressSpans
      .enUs (PiiVault.new sampleHashes (lit "c")) (lit "c") 0 =
        some (addressPieces.flatten, dets, v') ∧
      textOf quotedJson .anthropic (beforeEnd (quotedEnv v') (handleU2c (quotedEnv v')
        [(blockAnswer addressPieces).bytes])) = addressText := by
  rcases addressText_masked with ⟨dets, v', hmask, hkeys⟩
  refine ⟨dets, v', hmask, ?_⟩
  have hdeltas := deltasOf_pieces addressPieces
  exact echo_delivered Rand.least Chrono.none sampleHashes addressText .enUs (lit "c") 0
    addressSpans (PiiVault.new sampleHashes (lit "c")) v'
    (PiiVault.WellFormed.new sampleHashes (lit "c")).searchable (by decide) (by decide) _ dets hmask
    (by rw [hkeys]; decide) (by rw [hkeys]; decide)
    (quotedEnv v') rfl rfl quotedJson_roundTrip rfl (blockAnswer addressPieces)
    (addressAnswer_wellFormed v') _ (List.append_nil _) [] [[]] (addressPieces.map pieceEvent)
    (addressAnswer_blocks v') (fun b hb => by rw [List.mem_singleton.mp hb]; rfl)
    (congrArg List.flatten hdeltas)
    (fun k => by
      change ¬ InTag _ ((deltasOf quotedJson .anthropic _).take k).flatten.length
      rw [hdeltas]
      exact addressPieces_cuts k)

end Sample

end PrivacyClaw
