import Mathlib.Data.List.Induction
import Mathlib.Tactic.Common

/-! # Transducers

A machine that answers every input with a list of outputs and a new state. The
induction rule follows the run from its first input on: what it proves relates
the inputs read so far, the state and everything emitted so far.
-/

namespace E2eeProxy.Lib

variable {σ ι ο : Type*}

/-- Feeds the inputs in order, collecting the outputs. -/
def runFrom (step : σ → ι → σ × List ο) (s : σ) : List ι → σ × List ο
  | [] => (s, [])
  | x :: xs =>
      let now := step s x
      let later := runFrom step now.1 xs
      (later.1, now.2 ++ later.2)

variable (step : σ → ι → σ × List ο)

@[simp] theorem runFrom_nil (s : σ) : runFrom step s [] = (s, []) := rfl

@[simp] theorem runFrom_cons (s : σ) (x : ι) (xs : List ι) :
    runFrom step s (x :: xs) =
      ((runFrom step (step s x).1 xs).1, (step s x).2 ++ (runFrom step (step s x).1 xs).2) := rfl

theorem runFrom_append (s : σ) (xs ys : List ι) :
    runFrom step s (xs ++ ys) =
      ((runFrom step (runFrom step s xs).1 ys).1,
        (runFrom step s xs).2 ++ (runFrom step (runFrom step s xs).1 ys).2) := by
  induction xs generalizing s with
  | nil => simp
  | cons x xs ih => simp [ih]

theorem runFrom_concat (s : σ) (xs : List ι) (x : ι) :
    runFrom step s (xs ++ [x]) =
      ((step (runFrom step s xs).1 x).1,
        (runFrom step s xs).2 ++ (step (runFrom step s xs).1 x).2) := by
  simp [runFrom_append]

/-- What holds of the empty run and survives every further input holds of all runs. -/
theorem runFrom_induction {P : List ι → σ → List ο → Prop} {s : σ} (start : P [] s [])
    (next : ∀ xs t os x, P xs t os → P (xs ++ [x]) (step t x).1 (os ++ (step t x).2))
    (xs : List ι) : P xs (runFrom step s xs).1 (runFrom step s xs).2 := by
  induction xs using List.reverseRecOn with
  | nil => exact start
  | append_singleton xs x ih =>
      rw [runFrom_concat]
      exact next xs _ _ x ih

/-! ## Marked outputs -/

variable {μ : Type*}

/-- The machine whose outputs tell what they answer. -/
def marked (mark : ι → μ) (s : σ) (x : ι) : σ × List (μ × ο) :=
  ((step s x).1, (step s x).2.map fun o => (mark x, o))

theorem runFrom_marked (mark : ι → μ) (s : σ) (xs : List ι) :
    (runFrom (marked step mark) s xs).1 = (runFrom step s xs).1 ∧
      (runFrom (marked step mark) s xs).2.map Prod.snd = (runFrom step s xs).2 := by
  induction xs generalizing s with
  | nil => exact ⟨rfl, rfl⟩
  | cons x xs ih =>
      obtain ⟨state, outputs⟩ := ih (step s x).1
      have now : (marked step mark s x).2.map Prod.snd = (step s x).2 := by
        simp [marked, Function.comp_def]
      refine ⟨state, ?_⟩
      rw [runFrom_cons, runFrom_cons, List.map_append, now]
      exact congrArg ((step s x).2 ++ ·) outputs

end E2eeProxy.Lib
