import Mathlib.Data.List.Basic

/-!
# Transducers

A reader that takes one symbol at a time, has a mode, and writes.

The step says what a symbol writes in a mode and which mode is next, or that
the reader does not know the symbol there. At the end the mode itself may
have something left to write. A text that is put together from parts is read
part by part.

## Main definitions

* `scan`: What a text writes from a mode on, and the mode behind it.
* `run`: What it writes if nothing follows.

## Theorems

* `scan_append`, `run_append`: Parts one after the other.
* `run_cons`: The first symbol.
-/

namespace Transducer

variable {μ α β : Type*} (step : μ → α → Option (List β × μ)) (finish : μ → Option (List β))

/-- What is written from a mode on, and the mode behind it. -/
def scan : List α → μ → Option (List β × μ)
  | [], m => some ([], m)
  | a :: s, m => (step m a).bind fun p => (scan s p.2).map fun q => (p.1 ++ q.1, q.2)

/-- What is written if nothing follows. -/
def run (s : List α) (m : μ) : Option (List β) :=
  (scan step s m).bind fun p => (finish p.2).map fun last => p.1 ++ last

theorem scan_append (s t : List α) (m : μ) : scan step (s ++ t) m =
    (scan step s m).bind fun p => (scan step t p.2).map fun q => (p.1 ++ q.1, q.2) := by
  induction s generalizing m with
  | nil =>
      rw [List.nil_append, scan, Option.bind_some]
      exact Option.map_id'.symm
  | cons a s ih =>
      rw [List.cons_append, scan, scan]
      cases step m a with
      | none => rfl
      | some p =>
          rw [Option.bind_some, Option.bind_some, ih]
          cases scan step s p.2 with
          | none => rfl
          | some q =>
              rw [Option.bind_some, Option.map_some, Option.bind_some, Option.map_map]
              refine congrArg (fun f => (scan step t q.2).map f) (funext fun u => ?_)
              rw [Function.comp_apply, List.append_assoc]

/-- A part that is known to be read. -/
theorem scan_append_of_eq {s t : List α} {m m' : μ} {out : List β}
    (h : scan step s m = some (out, m')) :
    scan step (s ++ t) m = (scan step t m').map fun q => (out ++ q.1, q.2) := by
  rw [scan_append, h, Option.bind_some]

theorem run_append {s : List α} (t : List α) {m m' : μ} {out : List β}
    (h : scan step s m = some (out, m')) :
    run step finish (s ++ t) m = (run step finish t m').map fun rest => out ++ rest := by
  rw [run, run, scan_append_of_eq step h]
  cases scan step t m' with
  | none => rfl
  | some q =>
      rw [Option.map_some, Option.bind_some, Option.bind_some, Option.map_map]
      refine congrArg (fun f => (finish q.2).map f) (funext fun u => ?_)
      rw [Function.comp_apply, List.append_assoc]

theorem run_nil (m : μ) : run step finish [] m = finish m := by
  rw [run, scan, Option.bind_some]
  exact Option.map_id'

/-- The first symbol, and what follows it. -/
theorem run_cons (a : α) (s : List α) (m : μ) : run step finish (a :: s) m =
    (step m a).bind fun p => (run step finish s p.2).map fun rest => p.1 ++ rest := by
  rw [run, scan]
  cases step m a with
  | none => rfl
  | some p =>
      rw [Option.bind_some, Option.bind_some, run]
      cases scan step s p.2 with
      | none => rfl
      | some q =>
          rw [Option.map_some, Option.bind_some, Option.bind_some, Option.map_map]
          refine congrArg (fun f => (finish q.2).map f) (funext fun u => ?_)
          rw [Function.comp_apply, List.append_assoc]

end Transducer
