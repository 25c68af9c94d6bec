import PrivacyClaw.Theory.BareStream

/-!
# Streaming Tokens

When does a response with tokens come out the same in parts and in one piece?

A token that is open is held back from its tag on, so a cut inside a token is
harmless once the whole tag has arrived. A cut inside the tag is not: the
beginning `<`, `<p` or `<pi` is plain text to the buffer, and nothing but the
trigger prefixes of some synthetic keeps it there. Besides, the text that is
held back is restored text and is scanned again, together with what follows it
up to the next tag.

## Main definitions

* `plainFront`: A text up to its first opening tag.
* `Response`: Plain text with tokens in it.
* `unfinished`, `sinceToken`, `restored`: Where a received part of it ends.
* `SafeDelta`, `SafeRun`: Deltas that meet neither defect.

## Theorems

* `cascade_quiet`: Restored text in front of the rest is left alone.
* `tokenBody_tokenHead`: An issued token is a token.
* `cascade_take`: The cascade of a received part goes on from any earlier one.
* `processDelta_onTrack`: A safe delta keeps the buffer on track.
* `cascade_empty`, `stream_empty`: An empty vault changes nothing.
* `stream_eq_applyXmlTokenCascade`: A safe run gives what one piece gives.
-/

namespace PrivacyClaw

/-- The text up to its first opening tag. -/
def plainFront (s : Str) : Str :=
  match Search.find xmlTokenOpen s with
  | none => s
  | some i => s.take i

theorem plainFront_plain (s : Str) (hs : ¬ xmlTokenOpen <:+: s) : plainFront s = s := by
  rw [plainFront, (Search.find_eq_none_iff _ _).mpr hs]

theorem plainFront_open (g p r : Str) (hg : ¬ xmlTokenOpen <:+: g) (hp : xmlTokenOpen <+: p) :
    plainFront (g ++ (p ++ r)) = g := by
  rcases hp with ⟨t, rfl⟩
  rw [plainFront, List.append_assoc,
    Search.find_append_headOnly _ g (t ++ r) headOnly_xmlTokenOpen hg]
  exact List.take_left

/-- Where no tag starts in front, what follows decides whether there is one. -/
theorem not_open_append (w g r : Str) (hg : ¬ xmlTokenOpen <:+: g)
    (hopen : ∀ q, q < w.length → ¬ xmlTokenOpen <+: (w ++ (g ++ r)).drop q) :
    ¬ xmlTokenOpen <:+: w ++ g := by
  rintro ⟨a, b, hab⟩
  have hocc : xmlTokenOpen <+: (w ++ g).drop a.length := by
    rw [← hab, List.append_assoc, List.drop_left]
    exact List.prefix_append _ _
  by_cases hq : a.length < w.length
  · refine hopen a.length hq (hocc.trans ?_)
    have hle : a.length ≤ (w ++ g).length := by
      rw [List.length_append]
      omega
    rw [← List.append_assoc, List.drop_append_of_le_length hle]
    exact List.prefix_append _ _
  · refine hg (hocc.isInfix.trans ?_)
    rw [List.drop_append, List.drop_eq_nil_of_le (by omega), List.nil_append]
    exact (List.drop_suffix _ _).isInfix

/-- A front in which no tag starts belongs to the plain front. -/
theorem plainFront_append (w t : Str)
    (hopen : ∀ q, q < w.length → ¬ xmlTokenOpen <+: (w ++ t).drop q) :
    plainFront (w ++ t) = w ++ plainFront t := by
  cases hf : Search.find xmlTokenOpen t with
  | none =>
      have ht := (Search.find_eq_none_iff _ t).mp hf
      have hwt := not_open_append w t [] ht (by rw [List.append_nil]; exact hopen)
      rw [plainFront_plain _ hwt, plainFront_plain t ht]
  | some i =>
      rcases Search.find_split _ t i headOnly_xmlTokenOpen.ne_nil hf with ⟨g, r, rfl, _, hg⟩
      rw [plainFront_open g xmlTokenOpen r hg (List.prefix_refl _), ← List.append_assoc,
        plainFront_open (w ++ g) xmlTokenOpen r (not_open_append w g _ hg hopen)
          (List.prefix_refl _)]

section Quiet

variable {v : PiiVault} (hne : ∀ k ∈ v.syntheticKeys, k ≠ []) (hv : v.Searchable)
include hne hv

/-- Text in which no tag starts, and no synthetic up to the next tag, is left
    alone. -/
theorem cascade_quiet (w t : Str)
    (hopen : ∀ q, q < w.length → ¬ xmlTokenOpen <+: (w ++ t).drop q)
    (hkey : ∀ q, q < w.length → ∀ k ∈ v.syntheticKeys, ¬ k <+: (w ++ plainFront t).drop q) :
    cascade v (w ++ t) = w ++ cascade v t := by
  have hrep : (v.replaceSynthetics (w ++ plainFront t)).1 =
      w ++ (v.replaceSynthetics (plainFront t)).1 := by
    rw [hv.replaceSynthetics_fst, hv.replaceSynthetics_fst]
    exact Leftmost.replaceAll_quiet _ _ w _ hkey
  -- `t` has no token, an open one, or a complete one.
  rcases token_cases t with ht | ⟨g, p, rfl, hg, hp⟩ | ⟨g, p, r, rfl, hg, hp⟩
  · have hwt := not_open_append w t [] ht (by rw [List.append_nil]; exact hopen)
    rw [plainFront_plain t ht] at hrep
    rw [cascade_plain hne hv _ hwt, hrep, cascade_plain hne hv t ht]
  · have hwg := not_open_append w g p hg hopen
    have hfront := plainFront_open g p [] hg hp.opens
    rw [List.append_nil] at hfront
    rw [hfront] at hrep
    rw [← List.append_assoc, cascade_open hne hv _ p hwg hp, hrep, cascade_open hne hv g p hg hp,
      List.append_assoc]
  · have hwg := not_open_append w g _ hg hopen
    rw [plainFront_open g p _ hg hp.opens] at hrep
    rw [← List.append_assoc, cascade_token hne hv _ p r hwg hp, hrep,
      cascade_token hne hv g p r hg hp]
    simp only [List.append_assoc]

end Quiet

/-- Plain text with tokens in it; a token is given up to its closing tag. -/
inductive Response where
  | plain (g : Str)
  | token (g p : Str) (rest : Response)

namespace Response

/-- The text of the response. -/
def text : Response → Str
  | plain g => g
  | token g p rest => g ++ (p ++ xmlTokenClose ++ rest.text)

theorem text_token (g p : Str) (rest : Response) :
    (token g p rest).text = g ++ (p ++ xmlTokenClose) ++ rest.text :=
  (List.append_assoc _ _ _).symm

/-- Plain text holds no tag and no synthetic. -/
def PlainGap (v : PiiVault) (g : Str) : Prop :=
  ¬ xmlTokenOpen <:+: g ∧ ∀ k ∈ v.syntheticKeys, ¬ k <:+: g

/-- A token has one tag, at its front, and is not closed before its end. -/
structure TokenBody (p : Str) : Prop extends OpenToken p where
  once : ∀ j, 0 < j → ¬ xmlTokenOpen <+: p.drop j

/-- The gaps are plain and the tokens are tokens. -/
def Readable (v : PiiVault) : Response → Prop
  | plain g => PlainGap v g
  | token g p rest => PlainGap v g ∧ TokenBody p ∧ rest.Readable v

/-- The part of a token that is not complete, after `n` bytes of the response. -/
def unfinished : Response → Nat → Str
  | plain _, _ => []
  | token g p rest, n =>
    if n < g.length + (p ++ xmlTokenClose).length then (p ++ xmlTokenClose).take (n - g.length)
    else rest.unfinished (n - (g.length + (p ++ xmlTokenClose).length))

/-- The text behind the last complete token, after `n` bytes of the response. -/
def sinceToken : Response → Nat → Str
  | plain g, n => g.take n
  | token g p rest, n =>
    if n < g.length + (p ++ xmlTokenClose).length then (g ++ (p ++ xmlTokenClose)).take n
    else rest.sinceToken (n - (g.length + (p ++ xmlTokenClose).length))

/-- The text restored before the unfinished token, after `n` bytes of the
    response. -/
def restored (v : PiiVault) : Response → Nat → Str
  | plain g, n => g.take n
  | token g p rest, n =>
    if n < g.length + (p ++ xmlTokenClose).length then g.take n
    else g ++ restoreToken v (p ++ xmlTokenClose) ++
      restored v rest (n - (g.length + (p ++ xmlTokenClose).length))

/-- A tag that has only begun is preceded by no synthetic that it is part
    of. -/
def Bare (v : PiiVault) (resp : Response) (n : Nat) : Prop :=
  (resp.unfinished n).length < 4 → ∀ k ∈ v.syntheticKeys, ¬ k <:+: resp.sinceToken n

instance (v : PiiVault) (resp : Response) (n : Nat) : Decidable (resp.Bare v n) :=
  inferInstanceAs (Decidable (_ → _))

variable {v : PiiVault}

/-- A part of a token that has its whole tag is open. -/
theorem TokenBody.take_open {p : Str} (hp : TokenBody p) (n : Nat) (h4 : 4 ≤ n)
    (hn : n < (p ++ xmlTokenClose).length) : TokenBody ((p ++ xmlTokenClose).take n) := by
  have hlen4 : xmlTokenOpen.length = 4 := by decide
  have hlen6 : xmlTokenClose.length = 6 := by decide
  rw [List.length_append] at hn
  have hpre : (p ++ xmlTokenClose).take n <+: p ++ xmlTokenClose := List.take_prefix _ _
  have hopens : xmlTokenOpen <+: p ++ xmlTokenClose :=
    hp.opens.trans (List.prefix_append _ _)
  refine { opens := ?_, unclosed := ?_, once := ?_ }
  · refine List.prefix_of_prefix_length_le hopens hpre ?_
    rw [List.length_take, List.length_append]
    omega
  · rintro ⟨a, b, hab⟩
    -- an occurrence of the closing tag would be before the first one
    have hfind := hp.find_close []
    rw [List.append_nil] at hfind
    rcases Search.find_eq_some _ _ _ hfind with ⟨_, _, hfirst⟩
    have hl := congrArg List.length hab
    simp only [List.length_append, List.length_take] at hl
    refine hfirst a.length (by omega) ?_
    have hocc : xmlTokenClose <+: ((p ++ xmlTokenClose).take n).drop a.length := by
      rw [← hab, List.append_assoc, List.drop_left]
      exact List.prefix_append _ _
    refine hocc.trans ?_
    rw [List.drop_take]
    exact List.take_prefix _ _
  · intro j hj hocc
    rw [List.drop_take] at hocc
    have hocc' : xmlTokenOpen <+: (p ++ xmlTokenClose).drop j := hocc.trans (List.take_prefix _ _)
    by_cases hjp : j < p.length
    · rw [List.drop_append_of_le_length (by omega)] at hocc'
      -- an opening tag does not run into the closing one
      by_cases hfit : xmlTokenOpen.length ≤ (p.drop j).length
      · exact hp.once j hj (List.prefix_of_prefix_length_le hocc' (List.prefix_append _ _) hfit)
      · rcases List.prefix_of_prefix_length_le (List.prefix_append _ _) hocc' (by omega) with
          ⟨l₂, hl₂⟩
        have hne1 : p.drop j ≠ [] := by
          intro hnil
          have := congrArg List.length hnil
          simp only [List.length_drop, List.length_nil] at this
          omega
        have hne2 : l₂ ≠ [] := by
          rintro rfl
          rw [List.append_nil] at hl₂
          rw [← hl₂] at hfit
          exact hfit (Nat.le_refl _)
        rw [← hl₂, List.prefix_append_right_inj] at hocc'
        have hcons : xmlTokenClose = 60 :: lit "/pii>" := by decide
        rw [hcons] at hocc'
        exact Search.headOnly_not_straddle (c := 60) (t := lit "pii") headOnly_xmlTokenOpen
          (by decide) hl₂.symm hne1 hne2 hocc'
    · rw [List.drop_append, List.drop_eq_nil_of_le (by omega), List.nil_append] at hocc'
      exact absurd (hocc'.isInfix.trans (List.drop_suffix _ _).isInfix) (by decide)

theorem unfinished_open : ∀ (resp : Response), resp.Readable v → ∀ n,
    4 ≤ (resp.unfinished n).length → TokenBody (resp.unfinished n) := by
  intro resp
  induction resp with
  | plain g =>
      intro _ n h4
      rw [unfinished, List.length_nil] at h4
      omega
  | token g p rest ih =>
      intro hr n h4
      rw [unfinished] at h4 ⊢
      split at h4
      · next hlt =>
          rw [if_pos hlt]
          rw [List.length_take] at h4
          exact hr.2.1.take_open _ (by omega) (by omega)
      · next hge =>
          rw [if_neg hge]
          exact ih hr.2.2 _ h4

theorem unfinished_suffix : ∀ (resp : Response) (n : Nat), n ≤ resp.text.length →
    resp.unfinished n <:+ resp.sinceToken n := by
  intro resp
  induction resp with
  | plain g => intro n _; exact List.nil_suffix
  | token g p rest ih =>
      intro n hn
      rw [text, List.length_append, List.length_append] at hn
      rw [unfinished, sinceToken]
      split
      · have hsplit : (g ++ (p ++ xmlTokenClose)).take n =
            g.take n ++ (p ++ xmlTokenClose).take (n - g.length) := List.take_append
        rw [hsplit]
        exact List.suffix_append _ _
      · exact ih _ (by omega)

/-- More text only adds to what is restored. -/
theorem restored_prefix : ∀ (resp : Response) (n m : Nat), n ≤ m →
    resp.restored v n <+: resp.restored v m := by
  intro resp
  induction resp with
  | plain g => intro n m h; exact List.take_prefix_take_left h
  | token g p rest ih =>
      intro n m h
      rw [restored, restored]
      split
      · split
        · exact List.take_prefix_take_left h
        · rw [List.append_assoc]
          exact (List.take_prefix n g).trans (List.prefix_append _ _)
      · rw [if_neg (by omega)]
        rw [List.prefix_append_right_inj]
        exact ih _ _ (by omega)

section Cascade

variable (hne : ∀ k ∈ v.syntheticKeys, k ≠ []) (hv : v.Searchable)
include hne hv

/-- What is unfinished is left alone. -/
theorem cascade_unfinished (resp : Response) (hr : resp.Readable v) (n : Nat)
    (hn : n ≤ resp.text.length) (hbare : resp.Bare v n) :
    cascade v (resp.unfinished n) = resp.unfinished n := by
  by_cases h4 : (resp.unfinished n).length < 4
  · have hopen : ¬ xmlTokenOpen <:+: resp.unfinished n := fun hin => by
      have := hin.length_le
      have hlen : xmlTokenOpen.length = 4 := by decide
      omega
    rw [cascade_plain hne hv _ hopen]
    refine hv.replaceSynthetics_eq_self _ (fun k hk hin => hbare h4 k hk ?_)
    exact hin.trans (unfinished_suffix resp n hn).isInfix
  · have hbody := unfinished_open resp hr n (by omega)
    have h := cascade_open hne hv [] (resp.unfinished n) (by decide) hbody.toOpenToken
    rw [replaceSynthetics_nil hne hv, List.nil_append] at h
    exact h

omit hne hv in
/-- Where the first tag is complete, the plain front ends where the gap does. -/
theorem plainFront_gap (g y : Str) (n : Nat) (hg : ¬ xmlTokenOpen <:+: g)
    (h : g ++ xmlTokenOpen <+: g.take n ++ y) : g.take n ++ plainFront y = g := by
  by_cases hng : n ≤ g.length
  · -- the cut is inside the gap
    have hyo : ∃ r, y = g.drop n ++ (xmlTokenOpen ++ r) := by
      rcases h with ⟨r, hr⟩
      have hr' : g.take n ++ y = g.take n ++ (g.drop n ++ (xmlTokenOpen ++ r)) := by
        rw [← hr, ← List.append_assoc, List.take_append_drop, List.append_assoc]
      exact ⟨r, List.append_cancel_left hr'⟩
    rcases hyo with ⟨r, rfl⟩
    have hdrop : ¬ xmlTokenOpen <:+: g.drop n := fun hc =>
      hg (hc.trans (List.drop_suffix _ _).isInfix)
    rw [plainFront_open (g.drop n) xmlTokenOpen r hdrop (List.prefix_refl _),
      List.take_append_drop]
  · -- the cut is inside the token, so the rest starts with the tag
    rw [List.take_of_length_le (Nat.le_of_not_le hng), List.prefix_append_right_inj] at h
    rcases h with ⟨r, rfl⟩
    have hnil := plainFront_open [] xmlTokenOpen r (by decide) (List.prefix_refl _)
    rw [List.nil_append] at hnil
    rw [hnil, List.append_nil, List.take_of_length_le (Nat.le_of_not_le hng)]

omit hne hv in
/-- Before the first token is complete, it is what is unfinished, and all that is
    there follows no token. -/
theorem sinceToken_first (g p : Str) (rest : Response) (m : Nat)
    (hm : m < g.length + (p ++ xmlTokenClose).length) :
    (token g p rest).unfinished m = (p ++ xmlTokenClose).take (m - g.length) ∧
      (token g p rest).sinceToken m = (token g p rest).text.take m := by
  have hle : m ≤ (g ++ (p ++ xmlTokenClose)).length := by
    rw [List.length_append]
    exact Nat.le_of_lt hm
  rw [unfinished, if_pos hm, sinceToken, if_pos hm, text_token, List.take_append_of_le_length hle]
  exact ⟨rfl, rfl⟩

/-- Up to its first token the response is left alone. -/
theorem cascade_gap (g p : Str) (rest : Response) (hg : PlainGap v g) (hp : TokenBody p)
    (n m : Nat) (hn : n < g.length + (p ++ xmlTokenClose).length) (hnm : n ≤ m)
    (hbare : (token g p rest).Bare v m) :
    cascade v ((token g p rest).text.take m) =
      g.take n ++ cascade v ((p ++ xmlTokenClose).take (n - g.length) ++
        ((token g p rest).text.take m).drop n) := by
  have hlen4 : xmlTokenOpen.length = 4 := by decide
  have h6 : xmlTokenClose.length = 6 := by decide
  have hp4 := hp.opens.length_le
  rw [List.length_append] at hn
  generalize htext : (token g p rest).text = t
  have ht : t = g ++ (p ++ (xmlTokenClose ++ rest.text)) := by
    rw [← htext, text, List.append_assoc]
  -- the received part in front of the rest
  have hfront : t.take n = g.take n ++ (p ++ xmlTokenClose).take (n - g.length) := by
    have hlater : (p ++ (xmlTokenClose ++ rest.text)).take (n - g.length) =
        (p ++ xmlTokenClose).take (n - g.length) := by
      rw [← List.append_assoc,
        List.take_append_of_le_length (by rw [List.length_append]; omega)]
    rw [ht, List.take_append, hlater]
  have hsplit : t.take m = g.take n ++
      ((p ++ xmlTokenClose).take (n - g.length) ++ (t.take m).drop n) := by
    rw [← List.append_assoc, ← hfront, show t.take n = (t.take m).take n by
      rw [List.take_take, Nat.min_eq_left hnm], List.take_append_drop]
  generalize (p ++ xmlTokenClose).take (n - g.length) ++ (t.take m).drop n = y at hsplit ⊢
  -- no tag before the first one
  have hopen : ∀ q, q < g.length → ¬ xmlTokenOpen <+: (t.take m).drop q := by
    intro q hq hocc
    have hfind := hp.find_open g (xmlTokenClose ++ rest.text) hg.1
    rw [← ht] at hfind
    refine (Search.find_eq_some _ _ _ hfind).2.2 q hq (hocc.trans ?_)
    rw [List.drop_take]
    exact List.take_prefix _ _
  have hgn : (g.take n).length ≤ g.length := by rw [List.length_take]; omega
  rw [hsplit]
  refine cascade_quiet hne hv (g.take n) y (fun q hq => ?_) (fun q hq k hk hocc => ?_)
  · rw [← hsplit]
    exact hopen q (by omega)
  · have hin : k <:+: g.take n ++ plainFront y :=
      hocc.isInfix.trans (List.drop_suffix _ _).isInfix
    by_cases hm : m < g.length + 4
    · -- the tag of the token is not complete: everything is plain
      have hplain : ¬ xmlTokenOpen <:+: t.take m := by
        rintro ⟨a, b, hab⟩
        have hl := congrArg List.length hab
        simp only [List.length_append, List.length_take] at hl
        refine hopen a.length (by omega) ?_
        rw [← hab, List.append_assoc, List.drop_left]
        exact List.prefix_append _ _
      have hy : ¬ xmlTokenOpen <:+: y := fun hc => hplain (by
        rw [hsplit]
        exact hc.trans (List.suffix_append _ _).isInfix)
      rw [plainFront_plain y hy, ← hsplit] at hin
      have hfirst := sinceToken_first g p rest m (by rw [List.length_append]; omega)
      rw [htext] at hfirst
      refine hbare ?_ k hk (by rw [hfirst.2]; exact hin)
      rw [hfirst.1, List.length_take]
      omega
    · -- the plain front ends where the gap does
      have hgt : g ++ xmlTokenOpen <+: t.take m := by
        rw [List.prefix_take_iff, ht]
        refine ⟨?_, by rw [List.length_append]; omega⟩
        rw [List.prefix_append_right_inj]
        exact hp.opens.trans (List.prefix_append _ _)
      rw [hsplit] at hgt
      rw [plainFront_gap g y n hg.1 hgt] at hin
      exact hg.2 k hk hin

/-- The cascade of a received part goes on from any earlier one. -/
theorem cascade_take : ∀ (resp : Response), resp.Readable v → ∀ n m, n ≤ m →
    resp.Bare v m →
    cascade v (resp.text.take m) =
      resp.restored v n ++ cascade v (resp.unfinished n ++ (resp.text.take m).drop n) := by
  intro resp
  induction resp with
  | plain g =>
      intro hr n m hnm _
      -- every piece of the gap is plain
      have hself : ∀ s, s <:+: g → cascade v s = s := fun s hs => by
        rw [cascade_plain hne hv s (fun hin => hr.1 (hin.trans hs))]
        exact hv.replaceSynthetics_eq_self s (fun k hk hin => hr.2 k hk (hin.trans hs))
      have hpre : g.take m <:+: g := (List.take_prefix _ _).isInfix
      rw [text, restored, unfinished, List.nil_append, hself _ hpre,
        hself _ ((List.drop_suffix _ _).isInfix.trans hpre),
        show g.take n = (g.take m).take n by rw [List.take_take, Nat.min_eq_left hnm],
        List.take_append_drop]
  | token g p rest ih =>
      intro hr n m hnm hbare
      by_cases hn : n < g.length + (p ++ xmlTokenClose).length
      · rw [restored, unfinished, if_pos hn, if_pos hn]
        exact cascade_gap hne hv g p rest hr.1 hr.2.1 n m hn hnm hbare
      · -- the token is complete in both parts
        have hlen : g.length + (p ++ xmlTokenClose).length = (g ++ (p ++ xmlTokenClose)).length :=
          List.length_append.symm
        have htext := text_token g p rest
        have htake : (token g p rest).text.take m = g ++ (p ++ (xmlTokenClose ++
            rest.text.take (m - (g.length + (p ++ xmlTokenClose).length)))) := by
          rw [htext, List.take_append, hlen, List.take_of_length_le (by omega)]
          simp only [List.append_assoc]
        have hdrop : ((token g p rest).text.take m).drop n =
            (rest.text.take (m - (g.length + (p ++ xmlTokenClose).length))).drop
              (n - (g.length + (p ++ xmlTokenClose).length)) := by
          rw [List.drop_take, htext, List.drop_append, List.drop_eq_nil_of_le (by omega),
            List.nil_append, hlen, List.drop_take]
          congr 1
          omega
        have hbare' : rest.Bare v (m - (g.length + (p ++ xmlTokenClose).length)) := by
          intro h4
          rw [Bare, unfinished, sinceToken, if_neg (by omega), if_neg (by omega)] at hbare
          exact hbare h4
        have hrec := ih hr.2.2 (n - (g.length + (p ++ xmlTokenClose).length)) _ (by omega) hbare'
        rw [hdrop, htake, cascade_token hne hv g p _ hr.1.1 hr.2.1.toOpenToken,
          hv.replaceSynthetics_eq_self g hr.1.2, restored, unfinished, if_neg hn, if_neg hn, hrec]
        simp only [List.append_assoc]

end Cascade

/-- The delta meets neither defect. A tag of which only the beginning was
    received is still in the buffer. In the restored text that the buffer holds
    besides it no tag starts, and no synthetic up to the next tag. Neither is
    the beginning of a tag with which the delta ends part of a synthetic. -/
structure SafeDelta (v : PiiVault) (resp : Response) (n : Nat) (b : ReplacementBuffer) (d : Str) :
    Prop where
  held : (resp.unfinished n).length < 4 → resp.unfinished n <:+ b.buffer
  quiet : (resp.unfinished n).length < 4 →
    ∀ q, q < b.buffer.length - (resp.unfinished n).length →
      ¬ xmlTokenOpen <+: (b.buffer ++ d).drop q ∧
        ∀ k ∈ v.syntheticKeys, ¬ k <+: (plainFront (b.buffer ++ d)).drop q
  bare : resp.Bare v (n + d.length)

/-- Every delta is safe for the buffer that it meets, and so is the end. -/
def SafeRun (v : PiiVault) (resp : Response) : Nat → ReplacementBuffer → List Str → Prop
  | _, b, [] => b.SafeEnd v
  | n, b, d :: ds =>
    (d ≠ [] → resp.SafeDelta v n b d) ∧
      resp.SafeRun v (n + d.length) (b.processDelta v d).2 ds

/-- After `n` bytes of the response: what was sent and what is kept make the
    restored text, and an open token is all that is kept. -/
structure OnTrack (v : PiiVault) (resp : Response) (n : Nat) (sent : Str) (b : ReplacementBuffer) :
    Prop where
  joined : sent ++ b.buffer = cascade v (resp.text.take n)
  whole : 4 ≤ (resp.unfinished n).length → b.buffer = resp.unfinished n
  bare : resp.Bare v n
  fresh : b.Fresh v

section Run

variable (hne : ∀ k ∈ v.syntheticKeys, k ≠ []) (hv : v.Searchable)
include hne hv

/-- What is kept goes on where the cascade of what was received stands. -/
theorem OnTrack.processed {resp : Response} (hr : resp.Readable v) {n : Nat} {sent : Str}
    {b : ReplacementBuffer} (ht : resp.OnTrack v n sent b) (d : Str)
    (hn : n ≤ resp.text.length) (hsafe : resp.SafeDelta v n b d) :
    ∃ w, sent ++ w = resp.restored v n ∧
      cascade v (b.buffer ++ d) = w ++ cascade v (resp.unfinished n ++ d) := by
  have hjoined := ht.joined
  rw [cascade_take hne hv resp hr n n (Nat.le_refl n) ht.bare, List.drop_take_self,
    List.append_nil, cascade_unfinished hne hv resp hr n hn ht.bare] at hjoined
  -- Fewer than four bytes of a token may have been taken for plain text.
  by_cases h4 : (resp.unfinished n).length < 4
  · rcases hsafe.held h4 with ⟨w, hw⟩
    have hquiet := hsafe.quiet h4
    rw [← hw] at hjoined hquiet ⊢
    rw [List.length_append, Nat.add_sub_cancel, List.append_assoc] at hquiet
    have hopen := fun q hq => (hquiet q hq).1
    rw [← List.append_assoc] at hjoined
    refine ⟨w, List.append_cancel_right hjoined, ?_⟩
    rw [List.append_assoc]
    refine cascade_quiet hne hv w _ hopen (fun q hq => ?_)
    rw [← plainFront_append w _ hopen]
    exact (hquiet q hq).2
  · -- an open token is all that is kept
    rw [ht.whole (by omega)] at hjoined ⊢
    exact ⟨[], by rw [List.append_nil]; exact List.append_cancel_right hjoined, rfl⟩

variable (hfull : v.isEmpty = false)
include hfull

/-- A safe delta keeps the buffer on track. -/
theorem processDelta_onTrack {resp : Response} (hr : resp.Readable v) {n : Nat} {sent : Str}
    {b : ReplacementBuffer} (ht : resp.OnTrack v n sent b) (d : Str)
    (hn : n ≤ resp.text.length) (htext : resp.text.take (n + d.length) = resp.text.take n ++ d)
    (hsafe : d ≠ [] → resp.SafeDelta v n b d) :
    resp.OnTrack v (n + d.length) (sent ++ (b.processDelta v d).1) (b.processDelta v d).2 := by
  by_cases hd : d = []
  · subst hd
    rw [ReplacementBuffer.processDelta_nil, List.append_nil]
    exact ht
  · have hs := hsafe hd
    have htake : (resp.text.take (n + d.length)).drop n = d := by
      rw [htext]
      exact List.drop_left' (List.length_take_of_le hn)
    rcases ht.processed hne hv hr d hn hs with ⟨w, hw, hproc⟩
    -- Restoring the buffer and the delta gives what the response restores to so far.
    have hnext := cascade_take hne hv resp hr n (n + d.length) (by omega) hs.bare
    rw [htake] at hnext
    have hall : sent ++ cascade v (b.buffer ++ d) = cascade v (resp.text.take (n + d.length)) := by
      rw [hproc, ← List.append_assoc, hw, hnext]
    rcases ReplacementBuffer.processDelta_spec v hfull b ht.fresh d hd with
      ⟨cut, hcut, hout, hkept, hfresh⟩
    rw [applyXmlTokenCascade_eq hne hv] at hcut hout hkept
    refine ⟨?_, fun h4 => ?_, hs.bare, hfresh⟩
    · rw [hout, hkept, List.append_assoc, List.take_append_drop, hall]
    · -- the result ends with the open token, and is cut in front of it
      have hbody := unfinished_open resp hr _ h4
      have hm : n + d.length ≤ resp.text.length := by
        have hl := congrArg List.length htext
        rw [List.length_append, List.length_take_of_le hn, List.length_take] at hl
        omega
      rcases restored_prefix (v := v) resp n (n + d.length) (by omega) with ⟨z, hz⟩
      have hend : cascade v (b.buffer ++ d) = (w ++ z) ++ resp.unfinished (n + d.length) := by
        rw [cascade_take hne hv resp hr _ _ (Nat.le_refl _) hs.bare, List.drop_take_self,
          List.append_nil, cascade_unfinished hne hv resp hr _ hm hs.bare, ← hz, ← hw] at hall
        rw [List.append_assoc sent, List.append_assoc sent] at hall
        exact List.append_cancel_left hall
      rw [hkept, hcut, hend, computeSafeFlushLen_open _ _ _ _ hbody.toOpenToken hbody.once,
        findCharBoundary_of_boundary _ _ (List.prefix_append _ _).length_le
          (isCharBoundary_open _ _ hbody.opens)]
      exact List.drop_left

omit hv in
theorem OnTrack.start (resp : Response) : resp.OnTrack v 0 [] ReplacementBuffer.new := by
  have hpos : ∀ p : Str, 0 < (p ++ xmlTokenClose).length := fun p => by
    have h6 : xmlTokenClose.length = 6 := by decide
    rw [List.length_append]
    omega
  have hun : resp.unfinished 0 = [] := by
    cases resp with
    | plain g => rfl
    | token g p rest =>
        have := hpos p
        rw [unfinished, if_pos (by omega), Nat.zero_sub, List.take_zero]
  have hsince : resp.sinceToken 0 = [] := by
    cases resp with
    | plain g => rfl
    | token g p rest =>
        have := hpos p
        rw [sinceToken, if_pos (by omega), List.take_zero]
  refine ⟨rfl, fun h4 => ?_, fun _ k hk hin => ?_, ReplacementBuffer.fresh_new v hfull⟩
  · rw [hun, List.length_nil] at h4
    omega
  · rw [hsince] at hin
    exact hne k hk (List.infix_nil.mp hin)

/-- The deltas of a safe run give the restored text. -/
theorem processDeltas_onTrack {resp : Response} (hr : resp.Readable v) :
    ∀ (deltas : List Str) (n : Nat) (sent : Str) (b : ReplacementBuffer),
      n ≤ resp.text.length → resp.text.drop n = deltas.flatten → resp.OnTrack v n sent b →
      resp.SafeRun v n b deltas →
      sent ++ (ReplacementBuffer.processDeltas v deltas b).1 ++
        ((ReplacementBuffer.processDeltas v deltas b).2.flushRemaining v).1 =
          cascade v resp.text := by
  intro deltas
  induction deltas with
  | nil =>
      intro n sent b hn htext ht hrun
      rw [List.flatten_nil, List.drop_eq_nil_iff] at htext
      have hall : resp.text.take n = resp.text := List.take_of_length_le htext
      rw [ReplacementBuffer.processDeltas, hrun.flush hne hv, List.append_nil, ht.joined, hall]
  | cons d ds ih =>
      intro n sent b hn htext ht hrun
      rw [List.flatten_cons] at htext
      have htake : resp.text.take (n + d.length) = resp.text.take n ++ d := by
        rw [List.take_add, htext, List.take_left]
      have hdrop : resp.text.drop (n + d.length) = ds.flatten := by
        rw [← List.drop_drop, htext, List.drop_left]
      have hlen : n + d.length ≤ resp.text.length := by
        have hl := congrArg List.length htext
        rw [List.length_drop, List.length_append] at hl
        omega
      -- the invariant after one delta, and the rest by induction
      have ht' := processDelta_onTrack hne hv hfull hr ht d hn htake hrun.1
      have hrest := ih _ _ _ hlen hdrop ht' hrun.2
      rw [← hrest]
      simp only [ReplacementBuffer.processDeltas, List.append_assoc]

end Run

theorem Readable.keys_ne_nil : ∀ (resp : Response), resp.Readable v →
    ∀ k ∈ v.syntheticKeys, k ≠ [] := by
  intro resp
  induction resp with
  | plain g =>
      rintro hr k hk rfl
      exact hr.2 [] hk List.nil_infix
  | token g p rest ih => intro hr; exact ih hr.2.2

/-- An issued token is a token, when its id holds no angle and its display
    value no tag. -/
theorem tokenBody_tokenHead (tokenId d : Str) (hid : 60 ∉ tokenId)
    (hclose : ¬ xmlTokenClose <:+: d) (hopen : ¬ xmlTokenOpen <:+: d) :
    TokenBody (tokenHead tokenId d) where
  toOpenToken := openToken_tokenHead tokenId d hid hclose
  once j hj hocc := by
    -- behind the first byte there is no angle before the display value
    have hcons : tokenHead tokenId d =
        60 :: ((lit "pii id=\"" ++ tokenId ++ lit "\">") ++ d) := by
      rw [tokenHead, show lit "<pii id=\"" = 60 :: lit "pii id=\"" by decide]
      rfl
    rw [hcons] at hocc
    cases j with
    | zero => omega
    | succ j =>
        rw [List.drop_succ_cons] at hocc
        have hin : xmlTokenOpen <:+: (lit "pii id=\"" ++ tokenId ++ lit "\">") ++ d :=
          hocc.isInfix.trans (List.drop_suffix _ _).isInfix
        have htag : (60 : UInt8) ∉ lit "pii id=\"" ++ tokenId ++ lit "\">" := by
          rw [List.mem_append, List.mem_append]
          rintro ((h | h) | h)
          · exact absurd h (by decide)
          · exact hid h
          · exact absurd h (by decide)
        refine Search.not_infix_append (fun h => htag (h.subset (by decide))) hopen ?_ hin
        intro l₁ l₂ heq h1 _ hsuf _
        -- an occurrence over the seam would start with the angle
        cases l₁ with
        | nil => exact h1 rfl
        | cons c l₁ =>
            rw [show xmlTokenOpen = 60 :: lit "pii" by decide, List.cons_append,
              List.cons.injEq] at heq
            refine htag (hsuf.subset ?_)
            rw [← heq.1]
            exact List.mem_cons_self

end Response

section EmptyVault

variable {v : PiiVault} (hv : v.Searchable) (hempty : v.isEmpty = true)
include hv hempty

/-- An empty vault restores nothing. -/
theorem cascade_empty (s : Str) : cascade v s = s := by
  rcases hv.unfilled (beq_iff_eq.mp hempty) with ⟨hkeys, hmaps⟩
  have hne : ∀ k ∈ v.syntheticKeys, k ≠ [] := by
    rw [hkeys]
    exact fun k hk => absurd hk List.not_mem_nil
  -- Neither pass finds anything: no key in a gap, no entry for a token.
  have hself : ∀ g, (v.replaceSynthetics g).1 = g := fun g =>
    hv.replaceSynthetics_eq_self g (by
      rw [hkeys]
      exact fun k hk => absurd hk List.not_mem_nil)
  have hthrough : ∀ t, restoreToken v t = t := by
    intro t
    have hbind : ∀ o : Option Str, o.bind v.getByDisplayValue = none := by
      intro o
      cases o with
      | none => rfl
      | some x => exact (hmaps x).2.2
    unfold restoreToken
    rw [(hmaps t).1]
    dsimp only
    cases extractXmlAttr t (lit "id") with
    | none => rfl
    | some tokenId =>
        dsimp only
        rw [PiiVault.getByTokenId, (hmaps tokenId).2.1]
        dsimp only
        rw [hbind]
  -- The rest behind the first token is shorter.
  induction hlen : s.length using Nat.strongRecOn generalizing s with
  | ind len ih =>
      rcases token_cases s with hs | ⟨g, p, rfl, hg, hp⟩ | ⟨g, p, r, rfl, hg, hp⟩
      · rw [cascade_plain hne hv s hs, hself]
      · rw [cascade_open hne hv g p hg hp, hself]
      · have hpos := List.length_pos_of_ne_nil hp.ne_nil
        have hr := ih r.length (by rw [← hlen]; simp only [List.length_append]; omega) r rfl
        rw [cascade_token hne hv g p r hg hp, hself, hthrough, hr]
        simp only [List.append_assoc]

omit hv in
/-- An empty vault holds nothing back. -/
theorem stream_empty (deltas : List Str) :
    ReplacementBuffer.stream v deltas = deltas.flatten := by
  -- Without mappings the buffer never holds anything.
  have hrun : ∀ (ds : List Str) (b : ReplacementBuffer), b.buffer = [] →
      (ReplacementBuffer.processDeltas v ds b).1 = ds.flatten ∧
        (ReplacementBuffer.processDeltas v ds b).2.buffer = [] := by
    intro ds
    induction ds with
    | nil => intro b hb; exact ⟨rfl, hb⟩
    | cons d ds ih =>
        intro b hb
        have hstep : (b.processDelta v d).1 = d ∧ (b.processDelta v d).2.buffer = [] := by
          unfold ReplacementBuffer.processDelta
          cases d with
          | nil => exact ⟨rfl, hb⟩
          | cons c d =>
              simp only [List.isEmpty_cons, Bool.false_eq_true, if_false, hempty, if_true]
              refine ⟨?_, trivial⟩
              unfold ReplacementBuffer.refresh
              split
              · rw [hb, List.nil_append]
              · rw [hb, List.nil_append]
        rcases ih _ hstep.2 with ⟨h1, h2⟩
        simp only [ReplacementBuffer.processDeltas, List.flatten_cons]
        exact ⟨by rw [hstep.1, h1], h2⟩
  rcases hrun deltas ReplacementBuffer.new rfl with ⟨h1, h2⟩
  simp only [ReplacementBuffer.stream, ReplacementBuffer.flushRemaining]
  rw [h1, h2]
  exact List.append_nil _

end EmptyVault

/-- A response whose deltas are all safe comes out as in one piece. A token is
    what the cascade takes for one, whether the vault knows it or not. -/
theorem stream_eq_applyXmlTokenCascade (v : PiiVault) (hv : v.Searchable) (resp : Response)
    (hr : resp.Readable v) (deltas : List Str) (htext : deltas.flatten = resp.text)
    (hsafe : v.isEmpty = false → resp.SafeRun v 0 ReplacementBuffer.new deltas) :
    ReplacementBuffer.stream v deltas = applyXmlTokenCascade resp.text v := by
  have hne := Response.Readable.keys_ne_nil resp hr
  rw [applyXmlTokenCascade_eq hne hv]
  cases hempty : v.isEmpty with
  | true => rw [stream_empty hempty, htext, cascade_empty hv hempty]
  | false =>
      have hrun := Response.processDeltas_onTrack hne hv hempty hr deltas 0 []
        ReplacementBuffer.new (Nat.zero_le _) htext.symm (Response.OnTrack.start hne hempty resp)
        (hsafe hempty)
      rw [List.nil_append] at hrun
      exact hrun

/-- A vault that has issued one token. -/
def oneToken : PiiVault :=
  (PiiVault.new sampleHashes (lit "c")).addMappingWithTokenId (lit "John Smith")
    (lit "Alice Brown") (generateTokenId sampleHashes (lit "c") 0) .personName 2 F32.one

/-- A response that holds the token. -/
def tokenResponse : Response :=
  .token (lit "Hi ") (tokenHead (generateTokenId sampleHashes (lit "c") 0) (lit "Alice Brown"))
    (.plain (lit "!"))

/-- The response cut after `n` bytes. -/
def cutAt (n : Nat) : List Str := [tokenResponse.text.take n, tokenResponse.text.drop n]

/-- A token that is cut inside its display value is restored. -/
theorem stream_split_token :
    tokenResponse.SafeRun oneToken 0 ReplacementBuffer.new (cutAt 25) ∧
      ReplacementBuffer.stream oneToken (cutAt 25) =
        applyXmlTokenCascade tokenResponse.text oneToken ∧
      ReplacementBuffer.stream oneToken (cutAt 25) = lit "Hi John Smith!" := by
  have hsafe : tokenResponse.SafeRun oneToken 0 ReplacementBuffer.new (cutAt 25) :=
    ⟨fun _ => ⟨by decide, by decide, by decide⟩, fun _ => ⟨by decide, by decide, by decide⟩,
      by decide, by decide⟩
  have hv : oneToken.Searchable :=
    (PiiVault.WellFormed.new sampleHashes (lit "c")).searchable.addMappingWithTokenId _ _ _ _ _ _
  have hr : tokenResponse.Readable oneToken :=
    ⟨⟨by decide, by decide⟩, Response.tokenBody_tokenHead _ _ (by decide) (by decide) (by decide),
      by decide, by decide⟩
  exact ⟨hsafe, stream_eq_applyXmlTokenCascade oneToken hv tokenResponse hr (cutAt 25) (by decide)
    (fun _ => hsafe), by decide⟩

/-- A token that is cut inside its tag is not recognised: the beginning of the
    tag is sent at once, and only the display value is restored. -/
theorem stream_split_tag :
    oneToken.fullTokenToOriginal.lookup
        (xmlToken (generateTokenId sampleHashes (lit "c") 0) (lit "Alice Brown")) =
        some (lit "John Smith") ∧
      applyXmlTokenCascade tokenResponse.text oneToken = lit "Hi John Smith!" ∧
      ReplacementBuffer.stream oneToken (cutAt 5) =
        lit "Hi " ++ tokenHead (generateTokenId sampleHashes (lit "c") 0) (lit "John Smith") ++
          lit "</pii>!" ∧
      ¬ ∀ deltas : List Str, deltas.flatten = tokenResponse.text →
        ReplacementBuffer.stream oneToken deltas =
          applyXmlTokenCascade tokenResponse.text oneToken := by
  refine ⟨by decide, by decide, by decide, ?_⟩
  intro hall
  exact absurd (hall (cutAt 5) (by decide)) (by decide)

end PrivacyClaw
