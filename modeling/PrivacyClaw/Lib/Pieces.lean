import Mathlib.Data.List.Basic

/-!
# Input in Pieces

A consumer takes its input piece by piece. For every piece it gives some output
and goes on to another state.

Where the input is cut should not matter. It does not if the consumer, given a
piece, does what it does for the two parts of the piece one after the other;
then any number of pieces come to the same as all of them at once. A consumer of
which this holds only for the inputs that it is made for still gives the output
expected of the whole input, if what it is in and what is still to come say what
output is missing, and every piece keeps that true.

## Main definitions

* `feed`: The outputs for a list of pieces, joined.
* `Splits`: A piece that may come in two.

## Theorems

* `feed_eq_push`: Pieces and all of them at once.
* `feed_expected`: The output that is expected of the whole input.
-/

namespace Pieces

variable {σ α β : Type*} (push : σ → List α → List β × σ)

/-- The outputs for the pieces, joined, and the state behind them. -/
def feed : σ → List (List α) → List β × σ
  | s, [] => ([], s)
  | s, x :: xs => ((push s x).1 ++ (feed (push s x).2 xs).1, (feed (push s x).2 xs).2)

/-- The piece `x ++ y` does what `x` and then `y` does. -/
def Splits (s : σ) (x y : List α) : Prop :=
  push s (x ++ y) = ((push s x).1 ++ (push (push s x).2 y).1, (push (push s x).2 y).2)

variable {push}

/-- If every piece may come in two, the pieces come to the same as all of them
    at once. -/
theorem feed_eq_push (h : ∀ s x y, Splits push s x y) (s : σ) (x : List α) (xs : List (List α)) :
    feed push s (x :: xs) = push s (x :: xs).flatten := by
  induction xs generalizing s x with
  | nil => rw [feed, feed, List.flatten_cons, List.flatten_nil, List.append_nil, List.append_nil]
  | cons y ys ih => rw [feed, ih, List.flatten_cons (l := x), h s x]

/-- With `Left s x o` for "in state `s`, with `x` still to come, `o` is the
    missing output". -/
theorem feed_expected (Left : σ → List α → List β → Prop)
    (hstep : ∀ s x y o, Left s (x ++ y) o → ∃ o', o = (push s x).1 ++ o' ∧ Left (push s x).2 y o')
    (hend : ∀ s o, Left s [] o → o = []) (xs : List (List α)) (s : σ) (o : List β)
    (h : Left s xs.flatten o) : (feed push s xs).1 = o := by
  induction xs generalizing s o with
  | nil => exact (hend s o h).symm
  | cons x xs ih =>
      rw [List.flatten_cons] at h
      rcases hstep s x xs.flatten o h with ⟨o', ho, hleft⟩
      rw [feed, ho, ih _ o' hleft]

end Pieces
