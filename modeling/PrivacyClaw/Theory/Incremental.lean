import PrivacyClaw.Core.Framing
import PrivacyClaw.Core.Sse

/-!
# Input that Arrives in Pieces

The event parser and the chunk decoder both take what is complete and keep the
rest for the next time. That the pieces do not matter comes down to one fact
about each: what is complete in a text is complete in every longer text, and is
the same there.

For the events this holds without conditions. The decoder clears its buffer at
the last chunk, and whatever stood behind it; up to there the pieces do not
matter.

## Main definitions

* `SseParser.scan`: The complete events of a text and the rest.
* `ChunkedDecoder.decode`: The decoder's loop with fuel enough.
* `ChunkedDecoder.CarriesOn`: More bytes only carry the decoder on.
* `ChunkedDecoder.encode`, `ChunkedDecoder.payload`: A chunked body.

## Theorems

* `findDoubleNewline_append`: A separator stays the first one.
* `SseParser.scan_append`: Events of a text that goes on.
* `ChunkedDecoder.carriesOn`, `ChunkedDecoder.decode_append`: Payload of a body
  that goes on.
* `ChunkedDecoder.decode_encode`: Decoding a chunked body.
* `ChunkedDecoder.decode_prefix`, `ChunkedDecoder.decode_waiting`: Decoding the
  beginning of one.
-/

namespace PrivacyClaw

-- the second line end may still be missing
example : findDoubleNewline [100, 13, 10, 13] = none := by
  simp only [findDoubleNewline, findDoubleNewlineFrom]
  decide

theorem findDoubleNewlineFrom_bounds : ∀ (s : Str) (i a b : Nat),
    findDoubleNewlineFrom i s = some (a, b) → i ≤ a ∧ a < b ∧ b ≤ i + s.length := by
  intro s
  induction s with
  | nil => intro i a b h; exact absurd h (by simp only [findDoubleNewlineFrom, reduceCtorEq,
      not_false_eq_true])
  | cons c s ih =>
      intro i a b h
      rw [findDoubleNewlineFrom] at h
      split at h
      · next hp =>
          rw [Option.some.injEq, Prod.mk.injEq] at h
          have hl := (List.isPrefixOf_iff_prefix.mp hp).length_le
          have h4 : (lit "\r\n\r\n").length = 4 := by decide
          omega
      · split at h
        · next hp =>
            rw [Option.some.injEq, Prod.mk.injEq] at h
            have hl := (List.isPrefixOf_iff_prefix.mp hp).length_le
            have h2 : (lit "\n\n").length = 2 := by decide
            omega
        · have := ih (i + 1) a b h
          rw [List.length_cons]
          omega

/-- What may be there of the longer separator behind its first byte holds no
    shorter one. -/
theorem findDoubleNewlineFrom_begun (s : Str) (i : Nat) (hs : s <+: [10, 13, 10])
    (hlen : s.length < 3) : findDoubleNewlineFrom i s = none := by
  have htake := List.prefix_iff_eq_take.mp hs
  have hcases : s.length = 0 ∨ s.length = 1 ∨ s.length = 2 := by omega
  rcases hcases with h | h | h
  · rw [htake, h]
    rfl
  · rw [htake, h]
    rfl
  · rw [htake, h]
    rfl

/-- More text does not bring a separator forward: four bytes that turn out to be
    one do not overlap a shorter one behind their start. -/
theorem findDoubleNewlineFrom_append : ∀ (s t : Str) (i a b : Nat),
    findDoubleNewlineFrom i s = some (a, b) →
    findDoubleNewlineFrom i (s ++ t) = some (a, b) := by
  intro s
  induction s with
  | nil => intro t i a b h; exact absurd h (by simp only [findDoubleNewlineFrom, reduceCtorEq,
      not_false_eq_true])
  | cons c s ih =>
      intro t i a b h
      have hmore : c :: s <+: c :: (s ++ t) := List.prefix_append (c :: s) t
      rw [findDoubleNewlineFrom] at h
      rw [List.cons_append, findDoubleNewlineFrom]
      simp only [List.isPrefixOf_iff_prefix] at h ⊢
      by_cases h4 : lit "\r\n\r\n" <+: c :: s
      · rw [if_pos h4] at h
        rw [if_pos (h4.trans hmore)]
        exact h
      · rw [if_neg h4] at h
        by_cases h2 : lit "\n\n" <+: c :: s
        · -- the first byte is a line feed, so the longer one does not start here
          rw [if_pos h2] at h
          have hc : c = 10 := (List.cons_prefix_cons.mp h2).1.symm
          have hnot : ¬ lit "\r\n\r\n" <+: c :: (s ++ t) := by
            intro hp
            have h13 := (List.cons_prefix_cons.mp hp).1
            rw [hc] at h13
            exact absurd h13 (by decide)
          rw [if_neg hnot, if_pos (h2.trans hmore)]
          exact h
        · rw [if_neg h2] at h
          have hrec := ih t (i + 1) a b h
          -- the separator found lies behind, so neither can start here
          have hb := findDoubleNewlineFrom_bounds s (i + 1) a b h
          have hnot2 : ¬ lit "\n\n" <+: c :: (s ++ t) := by
            intro hp
            refine h2 (List.prefix_of_prefix_length_le hp hmore ?_)
            have hl : (lit "\n\n").length = 2 := by decide
            rw [List.length_cons]
            omega
          have hnot4 : ¬ lit "\r\n\r\n" <+: c :: (s ++ t) := by
            intro hp
            by_cases hlen : 3 ≤ s.length
            · refine h4 (List.prefix_of_prefix_length_le hp hmore ?_)
              have hl : (lit "\r\n\r\n").length = 4 := by decide
              rw [List.length_cons]
              omega
            · have hs : s <+: [10, 13, 10] :=
                List.prefix_of_prefix_length_le (List.prefix_append s t)
                  (List.cons_prefix_cons.mp hp).2 (Nat.le_of_not_le hlen)
              rw [findDoubleNewlineFrom_begun s (i + 1) hs (Nat.lt_of_not_le hlen)] at h
              exact absurd h.symm (Option.some_ne_none _)
          rw [if_neg hnot4, if_neg hnot2]
          exact hrec

theorem findDoubleNewline_append (s t : Str) (a b : Nat) (h : findDoubleNewline s = some (a, b)) :
    findDoubleNewline (s ++ t) = some (a, b) :=
  findDoubleNewlineFrom_append s t 0 a b h

namespace SseParser

theorem blocks_fuel : ∀ (n m : Nat) (s : Str), s.length ≤ n → s.length ≤ m →
    blocks n s = blocks m s := by
  intro n
  induction n with
  | zero =>
      intro m s hn _
      rw [List.length_eq_zero_iff.mp (Nat.le_zero.mp hn)]
      cases m with
      | zero => rfl
      | succ m => rfl
  | succ n ih =>
      intro m s hn hm
      cases m with
      | zero =>
          rw [List.length_eq_zero_iff.mp (Nat.le_zero.mp hm)]
          rfl
      | succ m =>
          rw [blocks, blocks]
          cases h : findDoubleNewline s with
          | none => rfl
          | some p =>
              -- the rest behind a block is shorter, so both have fuel for it
              have hb := findDoubleNewlineFrom_bounds s 0 p.1 p.2 h
              dsimp only
              rw [ih m (s.drop p.2) (by rw [List.length_drop]; omega)
                (by rw [List.length_drop]; omega)]

/-- The complete events of a text, and what is left of it. -/
def scan (s : Str) : List SseEvent × Str := blocks s.length s

theorem push_eq (p : SseParser) (bytes : Str) :
    p.push bytes = ((scan (p.buffer ++ bytes)).1, ⟨(scan (p.buffer ++ bytes)).2⟩) := rfl

theorem scan_none (s : Str) (h : findDoubleNewline s = none) : scan s = ([], s) := by
  cases s with
  | nil => rfl
  | cons c s => rw [scan, List.length_cons, blocks, h]

theorem scan_some (s : Str) (a b : Nat) (h : findDoubleNewline s = some (a, b)) :
    scan s = ((parseEventBlock (s.take a)).toList ++ (scan (s.drop b)).1, (scan (s.drop b)).2) := by
  have hb := findDoubleNewlineFrom_bounds s 0 a b h
  cases hs : s with
  | nil => rw [hs] at hb; exact absurd hb (by simp only [List.length_nil]; omega)
  | cons c t =>
      rw [hs] at h hb
      rw [List.length_cons] at hb
      rw [scan, List.length_cons, blocks, h]
      dsimp only
      rw [blocks_fuel t.length ((c :: t).drop b).length ((c :: t).drop b)
        (by rw [List.length_drop, List.length_cons]; omega) (Nat.le_refl _)]
      rfl

/-- A text that goes on: the events it has, and then those that what is left of
    it gives with the rest. -/
theorem scan_append (s t : Str) :
    scan (s ++ t) = ((scan s).1 ++ (scan ((scan s).2 ++ t)).1, (scan ((scan s).2 ++ t)).2) := by
  induction hlen : s.length using Nat.strongRecOn generalizing s with
  | ind len ih =>
      cases h : findDoubleNewline s with
      | none =>
          rw [scan_none s h]
          rfl
      | some p =>
          rcases p with ⟨a, b⟩
          have hb := findDoubleNewlineFrom_bounds s 0 a b h
          have hrec := ih (s.drop b).length (by rw [List.length_drop]; omega) (s.drop b) rfl
          rw [scan_some _ a b (findDoubleNewline_append s t a b h), scan_some s a b h,
            List.take_append_of_le_length (by omega), List.drop_append_of_le_length (by omega),
            hrec, List.append_assoc]

/-- What is left gives no event by itself. -/
theorem scan_rest (s : Str) : scan (scan s).2 = ([], (scan s).2) := by
  have h := scan_append s []
  rw [List.append_nil, List.append_nil] at h
  have h1 := congrArg Prod.fst h
  have h2 := congrArg Prod.snd h
  exact Prod.ext (List.append_cancel_left ((List.append_nil _).trans h1)).symm h2.symm

end SseParser

namespace ChunkedDecoder

-- three bytes are announced, and two are there
example : drain 2 ⟨[97, 98], 3, .readingBody⟩ = ([97, 98], ⟨[], 1, .readingBody⟩, false) := by
  simp only [drain]
  decide

/-- Fuel that the loop does not use up. -/
def weight (d : ChunkedDecoder) : Nat :=
  match d.state with
  | .readingSize => d.buf.length + 1
  | .readingBody => d.buf.length + 2
  | .bodyTrail => d.buf.length + 1

theorem find_crlf_bound (s : Str) (i : Nat) (h : Search.find crlf s = some i) :
    i + 2 ≤ s.length := by
  rcases Search.find_split crlf s i (by decide) h with ⟨g, r, rfl, hg, _⟩
  have h2 : crlf.length = 2 := by decide
  rw [List.length_append, List.length_append]
  omega

theorem weight_pos (d : ChunkedDecoder) : 0 < d.weight := by
  unfold weight
  split <;> omega

/-- Every round that goes on leaves less weight, so two fuels that both cover the
    weight run the same rounds. -/
theorem drain_fuel : ∀ (n m : Nat) (d : ChunkedDecoder), d.weight ≤ n → d.weight ≤ m →
    drain n d = drain m d := by
  intro n
  induction n with
  | zero =>
      intro m d hn _
      exact absurd d.weight_pos (by omega)
  | succ n ih =>
      intro m d hn hm
      cases m with
      | zero => exact absurd d.weight_pos (by omega)
      | succ m =>
          rcases d with ⟨buf, remaining, state⟩
          cases state with
          | readingSize =>
              simp only [weight] at hn hm
              simp only [drain]
              cases hf : Search.find crlf buf with
              | none => rfl
              | some i =>
                  have hb := find_crlf_bound buf i hf
                  dsimp only
                  -- Only a size above zero goes on: two bytes fewer, one unit for the state.
                  split
                  · rfl
                  · exact ih m _ (by simp only [weight, List.length_drop]; omega)
                      (by simp only [weight, List.length_drop]; omega)
                  · rfl
          | readingBody =>
              simp only [weight] at hn hm
              simp only [drain]
              -- A finished chunk may be empty: then the state alone loses weight.
              split
              · rw [ih m _ (by simp only [weight, List.length_drop]; omega)
                  (by simp only [weight, List.length_drop]; omega)]
              · rfl
          | bodyTrail =>
              simp only [weight] at hn hm
              simp only [drain]
              split
              · rfl
              · exact ih m _ (by simp only [weight, List.length_drop]; omega)
                  (by simp only [weight, List.length_drop]; omega)

/-- The loop with fuel enough. -/
def decode (d : ChunkedDecoder) : List UInt8 × ChunkedDecoder × Bool := drain (d.buf.length + 3) d

theorem push_fst (d : ChunkedDecoder) (raw : Str) :
    (d.push raw).1 = (decode { d with buf := d.buf ++ raw }).1 := rfl

theorem push_snd (d : ChunkedDecoder) (raw : Str) :
    (d.push raw).2 = (decode { d with buf := d.buf ++ raw }).2.1 := rfl

theorem weight_le (d : ChunkedDecoder) : d.weight ≤ d.buf.length + 2 := by
  unfold weight
  split <;> omega

section Rounds

variable (buf : Str) (remaining : Nat)

theorem decode_wait (h : Search.find crlf buf = none) :
    decode ⟨buf, remaining, .readingSize⟩ = ([], ⟨buf, remaining, .readingSize⟩, false) := by
  simp only [decode, drain, h]

theorem decode_size (i n : Nat) (h : Search.find crlf buf = some i)
    (hs : chunkSize (buf.take i) = some (n + 1)) :
    decode ⟨buf, remaining, .readingSize⟩ = decode ⟨buf.drop (i + 2), n + 1, .readingBody⟩ := by
  have hb := find_crlf_bound buf i h
  rw [decode, drain]
  simp only [h, hs]
  refine drain_fuel _ _ _ ?_ ?_
  · simp only [weight, List.length_drop]
    omega
  · have := weight_le ⟨buf.drop (i + 2), n + 1, .readingBody⟩
    omega

theorem decode_last (i : Nat) (h : Search.find crlf buf = some i)
    (hs : chunkSize (buf.take i) = some 0) :
    decode ⟨buf, remaining, .readingSize⟩ = ([], ⟨[], remaining, .readingSize⟩, true) := by
  simp only [decode, drain, h, hs]

theorem decode_bad (i : Nat) (h : Search.find crlf buf = some i)
    (hs : chunkSize (buf.take i) = none) :
    decode ⟨buf, remaining, .readingSize⟩ = ([], ⟨buf, remaining, .readingSize⟩, true) := by
  simp only [decode, drain, h, hs]

theorem decode_waiting (h : buf.length < remaining) :
    decode ⟨buf, remaining, .readingBody⟩ =
      (buf, ⟨[], remaining - buf.length, .readingBody⟩, false) := by
  simp only [decode, drain, Nat.min_eq_right (Nat.le_of_lt h), List.take_length, List.drop_length]
  rw [if_neg (by omega)]

theorem decode_body (h : remaining ≤ buf.length) :
    decode ⟨buf, remaining, .readingBody⟩ =
      (buf.take remaining ++ (decode ⟨buf.drop remaining, 0, .bodyTrail⟩).1,
        (decode ⟨buf.drop remaining, 0, .bodyTrail⟩).2) := by
  have hfuel : drain (buf.length + 2) ⟨buf.drop remaining, 0, .bodyTrail⟩ =
      decode ⟨buf.drop remaining, 0, .bodyTrail⟩ := by
    refine drain_fuel _ _ _ ?_ ?_
    · simp only [weight, List.length_drop]
      omega
    · have := weight_le ⟨buf.drop remaining, 0, .bodyTrail⟩
      omega
  rw [decode, drain]
  simp only [Nat.min_eq_left h, Nat.sub_self, if_true]
  rw [hfuel]

theorem decode_trail_wait (h : buf.length < 2) :
    decode ⟨buf, remaining, .bodyTrail⟩ = ([], ⟨buf, remaining, .bodyTrail⟩, false) := by
  rw [decode, drain]
  simp only [if_pos h]

theorem decode_trail (h : 2 ≤ buf.length) :
    decode ⟨buf, remaining, .bodyTrail⟩ = decode ⟨buf.drop 2, remaining, .readingSize⟩ := by
  rw [decode, drain]
  simp only [if_neg (by omega : ¬ buf.length < 2)]
  refine drain_fuel _ _ _ ?_ ?_
  · simp only [weight, List.length_drop]
    omega
  · have := weight_le ⟨buf.drop 2, remaining, .readingSize⟩
    omega

end Rounds

/-- More bytes carry the decoder on from what it has left over. If it has stopped
    without them, it stops with them too. -/
def CarriesOn (d : ChunkedDecoder) (y : Str) : Prop :=
  ((decode d).2.2 = false →
    decode { d with buf := d.buf ++ y } =
      ((decode d).1 ++ (decode { (decode d).2.1 with buf := (decode d).2.1.buf ++ y }).1,
        (decode { (decode d).2.1 with buf := (decode d).2.1.buf ++ y }).2)) ∧
  ((decode d).2.2 = true → (decode { d with buf := d.buf ++ y }).2.2 = true)

section Carrying

variable (buf : Str) (remaining : Nat) (y : Str)

/-- The size line: the first line break of the longer buffer is the one already
    there, so both read the same size. -/
theorem carriesOn_readingSize
    (hrec : ∀ i k, Search.find crlf buf = some i →
      CarriesOn ⟨buf.drop (i + 2), k + 1, .readingBody⟩ y) :
    CarriesOn ⟨buf, remaining, .readingSize⟩ y := by
  unfold CarriesOn
  dsimp only
  cases hf : Search.find crlf buf with
  | none =>
      rw [decode_wait buf remaining hf]
      exact ⟨fun _ => rfl, fun h => absurd h Bool.noConfusion⟩
  | some i =>
      -- The size line is complete, and more bytes do not change it.
      have hb := find_crlf_bound buf i hf
      have hf' := Search.find_append_of_some crlf buf y i hf
      have htake : (buf ++ y).take i = buf.take i := List.take_append_of_le_length (by omega)
      cases hs : chunkSize (buf.take i) with
      | none =>
          rw [decode_bad buf remaining i hf hs,
            decode_bad (buf ++ y) remaining i hf' (by rw [htake]; exact hs)]
          exact ⟨fun h => absurd h Bool.noConfusion, fun _ => rfl⟩
      | some k =>
          cases k with
          | zero =>
              rw [decode_last buf remaining i hf hs,
                decode_last (buf ++ y) remaining i hf' (by rw [htake]; exact hs)]
              exact ⟨fun h => absurd h Bool.noConfusion, fun _ => rfl⟩
          | succ k =>
              rw [decode_size buf remaining i k hf hs,
                decode_size (buf ++ y) remaining i k hf' (by rw [htake]; exact hs),
                List.drop_append_of_le_length (by omega)]
              exact hrec i k hf

/-- The chunk's bytes: either the chunk ends in the buffer, or all of it is
    delivered and the rest is taken from the new bytes. -/
theorem carriesOn_readingBody
    (hrec : CarriesOn ⟨buf.drop remaining, 0, .bodyTrail⟩ y) :
    CarriesOn ⟨buf, remaining, .readingBody⟩ y := by
  unfold CarriesOn
  dsimp only
  by_cases hshort : buf.length < remaining
  · rw [decode_waiting buf remaining hshort]
    refine ⟨fun _ => ?_, fun h => absurd h Bool.noConfusion⟩
    dsimp only
    rw [List.nil_append]
    -- The chunk goes on in the new bytes, and may go on behind them too.
    by_cases hy : y.length < remaining - buf.length
    · rw [decode_waiting y _ hy,
        decode_waiting (buf ++ y) remaining (by rw [List.length_append]; omega),
        List.length_append, Nat.sub_sub]
    · rw [decode_body y _ (by omega),
        decode_body (buf ++ y) remaining (by rw [List.length_append]; omega),
        List.take_append, List.drop_append, List.take_of_length_le (by omega),
        List.drop_eq_nil_of_le (by omega), List.nil_append, List.append_assoc]
  · rw [decode_body buf remaining (by omega),
      decode_body (buf ++ y) remaining (by rw [List.length_append]; omega),
      List.take_append_of_le_length (by omega), List.drop_append_of_le_length (by omega)]
    refine ⟨fun hrun => ?_, hrec.2⟩
    rw [hrec.1 hrun, List.append_assoc]

/-- The line break behind a chunk is skipped once both its bytes are there. -/
theorem carriesOn_bodyTrail
    (hrec : 2 ≤ buf.length → CarriesOn ⟨buf.drop 2, remaining, .readingSize⟩ y) :
    CarriesOn ⟨buf, remaining, .bodyTrail⟩ y := by
  unfold CarriesOn
  dsimp only
  by_cases hshort : buf.length < 2
  · rw [decode_trail_wait buf remaining hshort]
    exact ⟨fun _ => rfl, fun h => absurd h Bool.noConfusion⟩
  · rw [decode_trail buf remaining (by omega),
      decode_trail (buf ++ y) remaining (by rw [List.length_append]; omega),
      List.drop_append_of_le_length (by omega)]
    exact hrec (by omega)

end Carrying

/-- By induction on the weight: each state hands over to the next with less. -/
theorem carriesOn : ∀ (n : Nat) (d : ChunkedDecoder) (y : Str), d.weight ≤ n → d.CarriesOn y := by
  intro n
  induction n with
  | zero =>
      intro d y hn
      exact absurd d.weight_pos (by omega)
  | succ n ih =>
      intro d y hn
      -- One round of the decoder makes the weight smaller, in each of its states.
      rcases d with ⟨buf, remaining, state⟩
      cases state with
      | readingSize =>
          simp only [weight] at hn
          refine carriesOn_readingSize buf remaining y fun i k hf => ih _ y ?_
          have hb := find_crlf_bound buf i hf
          simp only [weight, List.length_drop]
          omega
      | readingBody =>
          simp only [weight] at hn
          refine carriesOn_readingBody buf remaining y (ih _ y ?_)
          simp only [weight, List.length_drop]
          omega
      | bodyTrail =>
          simp only [weight] at hn
          refine carriesOn_bodyTrail buf remaining y fun _ => ih _ y ?_
          simp only [weight, List.length_drop]
          omega

theorem decode_append (d : ChunkedDecoder) (y : Str) (h : (decode d).2.2 = false) :
    decode { d with buf := d.buf ++ y } =
      ((decode d).1 ++ (decode { (decode d).2.1 with buf := (decode d).2.1.buf ++ y }).1,
        (decode { (decode d).2.1 with buf := (decode d).2.1.buf ++ y }).2) :=
  (carriesOn _ d y (Nat.le_refl _)).1 h

/-- If a longer body does not stop the decoder, neither does its beginning. -/
theorem running_of_append (d : ChunkedDecoder) (y : Str)
    (h : (decode { d with buf := d.buf ++ y }).2.2 = false) : (decode d).2.2 = false := by
  cases hd : (decode d).2.2 with
  | false => rfl
  | true =>
      rw [(carriesOn _ d y (Nat.le_refl _)).2 hd] at h
      exact absurd h (by decide)

/-- Chunks in the order they are sent, each with its size line. -/
def encode : List (Str × Str) → Str
  | [] => []
  | (line, data) :: chunks => line ++ (crlf ++ (data ++ (crlf ++ encode chunks)))

/-- What the chunks carry. -/
def payload (chunks : List (Str × Str)) : Str := (chunks.map Prod.snd).flatten

/-- The size line is one line and gives the size, and the chunk is not
    empty. -/
def ValidChunk (c : Str × Str) : Prop :=
  ¬ crlf <:+: c.1 ∧ chunkSize c.1 = some c.2.length ∧ c.2 ≠ []

instance (c : Str × Str) : Decidable (ValidChunk c) :=
  inferInstanceAs (Decidable (_ ∧ _ ∧ _))

/-- A size line and the beginning of a chunk. -/
theorem decode_chunk_size (line data y : Str) (hc : ValidChunk (line, data)) (remaining : Nat) :
    decode ⟨line ++ (crlf ++ y), remaining, .readingSize⟩ =
      decode ⟨y, data.length, .readingBody⟩ := by
  rcases hc with ⟨hline, hsize, hdata⟩
  have hfind := Search.find_append_headOnly crlf line y (by decide) hline
  have h2 : crlf.length = 2 := by decide
  have hpos := List.length_pos_of_ne_nil hdata
  have hn : data.length - 1 + 1 = data.length := by
    dsimp only at hpos
    omega
  rw [decode_size _ remaining line.length (data.length - 1) hfind
    (by rw [List.take_left, hn]; exact hsize), hn]
  congr 2
  rw [← List.append_assoc, List.drop_left' (by rw [List.length_append, h2])]

/-- Decoding a chunked body, and then what follows it. -/
theorem decode_encode : ∀ (chunks : List (Str × Str)), (∀ c ∈ chunks, ValidChunk c) →
    ∀ (y : Str),
    decode ⟨encode chunks ++ y, 0, .readingSize⟩ =
      (payload chunks ++ (decode ⟨y, 0, .readingSize⟩).1, (decode ⟨y, 0, .readingSize⟩).2) := by
  intro chunks
  induction chunks with
  | nil => intro _ y; rfl
  | cons c chunks ih =>
      intro hall y
      rcases c with ⟨line, data⟩
      have h2 : crlf.length = 2 := by decide
      have hassoc : encode ((line, data) :: chunks) ++ y =
          line ++ (crlf ++ (data ++ (crlf ++ (encode chunks ++ y)))) := by
        simp only [encode, List.append_assoc]
      have hrec := ih (fun c hc => hall c (List.mem_cons_of_mem _ hc)) y
      rw [hassoc, decode_chunk_size line data _ (hall _ List.mem_cons_self),
        decode_body _ _ (by rw [List.length_append]; omega), List.take_left, List.drop_left,
        decode_trail _ _ (by rw [List.length_append]; omega), List.drop_left' h2, hrec]
      simp only [payload, List.map_cons, List.flatten_cons, List.append_assoc]

/-- The decoder before anything has arrived. -/
theorem decode_nil : decode ⟨[], 0, .readingSize⟩ = ([], ⟨[], 0, .readingSize⟩, false) := rfl

/-- The beginning of a body that does not stop the decoder does not stop it
    either, and carries the beginning of what the body carries. -/
theorem decode_of_prefix (d : ChunkedDecoder) (y : Str)
    (hrun : (decode { d with buf := d.buf ++ y }).2.2 = false) :
    (decode d).2.2 = false ∧ (decode d).1 <+: (decode { d with buf := d.buf ++ y }).1 := by
  have hd := running_of_append d y hrun
  refine ⟨hd, ?_⟩
  rw [decode_append d y hd]
  exact List.prefix_append _ _

/-- The beginning of a chunked body does not stop the decoder, and carries the
    beginning of the payload. -/
theorem decode_prefix (chunks : List (Str × Str)) (hall : ∀ c ∈ chunks, ValidChunk c) (b : Str)
    (hb : b <+: encode chunks) :
    (decode ⟨b, 0, .readingSize⟩).2.2 = false ∧
      (decode ⟨b, 0, .readingSize⟩).1 <+: payload chunks := by
  rcases hb with ⟨r, hr⟩
  have hwhole := decode_encode chunks hall []
  rw [List.append_nil, decode_nil, List.append_nil, ← hr] at hwhole
  have h := decode_of_prefix ⟨b, 0, .readingSize⟩ r (by dsimp only; rw [hwhole])
  dsimp only at h
  rw [hwhole] at h
  exact h

theorem encode_append (cs ds : List (Str × Str)) : encode (cs ++ ds) = encode cs ++ encode ds := by
  induction cs with
  | nil => rfl
  | cons c cs ih =>
      rcases c with ⟨line, data⟩
      simp only [List.cons_append, encode, ih, List.append_assoc]

/-- Without the end of the last chunk's data the payload is not complete. -/
theorem decode_short (chunks : List (Str × Str)) (hall : ∀ c ∈ chunks, ValidChunk c) (b : Str)
    (hb : b <+: encode chunks) (hlen : b.length + 2 < (encode chunks).length) :
    (decode ⟨b, 0, .readingSize⟩).1.length < (payload chunks).length := by
  rcases List.eq_nil_or_concat chunks with rfl | ⟨cs, c, hcs⟩
  · rw [encode, List.length_nil] at hlen
    omega
  · rcases c with ⟨line, data⟩
    rw [List.concat_eq_append] at hcs
    subst hcs
    have hc : ValidChunk (line, data) := hall _ (List.mem_append_right _ List.mem_cons_self)
    have hdata : data ≠ [] := hc.2.2
    have h2 : crlf.length = 2 := by decide
    have hpos := List.length_pos_of_ne_nil hdata
    -- everything but the last byte of the data and what follows it
    have hsplit : encode (cs ++ [(line, data)]) =
        (encode cs ++ (line ++ (crlf ++ data.dropLast))) ++ ([data.getLast hdata] ++ crlf) := by
      rw [encode_append, encode, encode, List.append_nil]
      simp only [List.append_assoc]
      congr 3
      rw [← List.append_assoc, List.dropLast_concat_getLast]
    have hshort : b <+: encode cs ++ (line ++ (crlf ++ data.dropLast)) := by
      rw [hsplit] at hb hlen
      refine List.prefix_of_prefix_length_le hb (List.prefix_append _ _) ?_
      have htail : ([data.getLast hdata] ++ crlf).length = 3 := by
        rw [List.length_append, h2, List.length_singleton]
      have hsum : ((encode cs ++ (line ++ (crlf ++ data.dropLast))) ++
          ([data.getLast hdata] ++ crlf)).length =
            (encode cs ++ (line ++ (crlf ++ data.dropLast))).length + 3 := by
        rw [List.length_append, htail]
      rw [hsum] at hlen
      omega
    have hdec : decode ⟨encode cs ++ (line ++ (crlf ++ data.dropLast)), 0, .readingSize⟩ =
        (payload cs ++ data.dropLast,
          ⟨[], data.length - data.dropLast.length, .readingBody⟩, false) := by
      rw [decode_encode cs (fun c hc => hall c (List.mem_append_left _ hc)),
        decode_chunk_size line data _ hc,
        decode_waiting _ _ (by rw [List.length_dropLast]; omega)]
    rcases hshort with ⟨r, hr⟩
    have hpre := decode_of_prefix ⟨b, 0, .readingSize⟩ r (by
      dsimp only
      rw [hr, hdec])
    dsimp only at hpre
    rw [hr, hdec] at hpre
    have hle := hpre.2.length_le
    have hpay : payload (cs ++ [(line, data)]) = payload cs ++ data := by
      simp only [payload, List.map_append, List.flatten_append, List.map_cons, List.map_nil,
        List.flatten_cons, List.flatten_nil, List.append_nil]
    rw [hpay, List.length_append]
    rw [List.length_append, List.length_dropLast] at hle
    omega

/-- The chunk that ends a body carries nothing. -/
theorem decode_lastChunk :
    decode ⟨lastChunk, 0, .readingSize⟩ = ([], ⟨[], 0, .readingSize⟩, true) := by decide

end ChunkedDecoder

end PrivacyClaw
