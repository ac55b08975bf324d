import Mathlib.Data.List.Induction
import Mathlib.Tactic.Common

/-! # The life of a thing in a log

A log opens a thing, mentions it and closes it. Reading the log from its start
gives the stage the thing has reached, or that the log broke the order.
-/

namespace E2eeProxy.Lib

/-- What one entry of a log says about a thing. -/
inductive Mark where
  | opens
  | other
  | closes
  deriving DecidableEq, Repr

inductive Stage where
  | unborn
  | live
  | over
  deriving DecidableEq, Repr

def Stage.next : Stage → Mark → Option Stage
  | .unborn, .opens => some .live
  | .live, .other => some .live
  | .live, .closes => some .over
  | _, _ => none

/-- The stage after the marks, or `none` where one of them is out of place. -/
def Stage.follow (a : Stage) (marks : List Mark) : Option Stage := marks.foldlM Stage.next a

/-- Opened once and closed once, with everything else in between, or not at all. -/
def OneLife (marks : List Mark) : Prop :=
  marks = [] ∨ ∃ mid, marks = .opens :: mid ++ [.closes] ∧ ∀ m ∈ mid, m = .other

namespace Stage

variable {a : Stage}

@[simp] theorem follow_nil (a : Stage) : a.follow [] = some a := rfl

@[simp] theorem follow_cons (a : Stage) (m : Mark) (ms : List Mark) :
    a.follow (m :: ms) = (a.next m).bind fun b => b.follow ms := rfl

theorem follow_append (a : Stage) (xs ys : List Mark) :
    a.follow (xs ++ ys) = (a.follow xs).bind fun b => b.follow ys := List.foldlM_append

/-- Mentions leave a thing alive. -/
theorem follow_live {mid : List Mark} (others : ∀ m ∈ mid, m = .other) :
    Stage.live.follow mid = some .live := by
  induction mid with
  | nil => rfl
  | cons m mid ih =>
      obtain rfl := others m List.mem_cons_self
      exact ih fun m mem => others m (List.mem_cons_of_mem _ mem)

/-- What is over is over: any further mark breaks the order. -/
theorem follow_over (ms : List Mark) :
    Stage.over.follow ms = some .over ∨ Stage.over.follow ms = none := by
  cases ms with
  | nil => exact .inl rfl
  | cons m ms => cases m <;> exact .inr rfl

theorem follow_over_eq {ms : List Mark} (h : Stage.over.follow ms = some a) :
    a = .over ∧ ms = [] := by
  cases ms with
  | nil => exact ⟨(Option.some.inj h).symm, rfl⟩
  | cons m ms => cases m <;> cases h

theorem follow_live_ne_unborn (ms : List Mark) : Stage.live.follow ms ≠ some .unborn := by
  intro back
  induction ms with
  | nil => cases back
  | cons m ms ih =>
      cases m with
      | opens => cases back
      | other => exact ih back
      | closes => cases (follow_over_eq back).1

/-- From life on there are mentions only, until the thing is closed. -/
theorem follow_live_over {ms : List Mark} (h : Stage.live.follow ms = some .over) :
    ∃ mid, ms = mid ++ [.closes] ∧ ∀ m ∈ mid, m = .other := by
  induction ms with
  | nil => cases h
  | cons m ms ih =>
      cases m with
      | opens => cases h
      | closes =>
          obtain ⟨-, rfl⟩ := follow_over_eq h
          exact ⟨[], rfl, by simp⟩
      | other =>
          obtain ⟨mid, rfl, others⟩ := ih h
          exact ⟨.other :: mid, rfl, by simpa using others⟩

end Stage

/-- One life is what leads from birth to the end, or does nothing at all. -/
theorem oneLife_iff (marks : List Mark) :
    OneLife marks ↔
      Stage.unborn.follow marks = some .unborn ∨ Stage.unborn.follow marks = some .over := by
  constructor
  · rintro (rfl | ⟨mid, rfl, others⟩)
    · exact .inl rfl
    · refine .inr ?_
      rw [List.cons_append, Stage.follow_cons]
      change Stage.live.follow (mid ++ [.closes]) = some .over
      rw [Stage.follow_append, Stage.follow_live others]
      rfl
  · intro reached
    cases marks with
    | nil => exact .inl rfl
    | cons m marks =>
        cases m with
        | other | closes => rcases reached with h | h <;> cases h
        | opens =>
            cases reached with
            | inl back => exact absurd back (Stage.follow_live_ne_unborn marks)
            | inr done =>
                obtain ⟨mid, rfl, others⟩ := Stage.follow_live_over done
                exact .inr ⟨mid, rfl, others⟩

end E2eeProxy.Lib
