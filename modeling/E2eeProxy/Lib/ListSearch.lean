import Mathlib.Data.List.Infix
import Mathlib.Data.List.Basic
import Mathlib.Tactic.Common

/-! # Searching and splitting sequences

`cut` is the leftmost split of a sequence at a marker: what a lazy pattern
`^(.-)marker(.*)$` computes. `splitLines` separates the terminated lines of a
sequence from the unterminated rest, and is compatible with appending more
input, which is the fact every incremental line reader rests on.
-/

namespace E2eeProxy.Lib

variable {α : Type*} [DecidableEq α]

/-- The leftmost occurrence of `tag`: what precedes it and what follows it. -/
def cut (tag : List α) : List α → Option (List α × List α)
  | [] => if tag = [] then some ([], []) else none
  | x :: xs =>
      if tag.isPrefixOf (x :: xs) then some ([], (x :: xs).drop tag.length)
      else (cut tag xs).map fun p => (x :: p.1, p.2)

/-- `tag` occurs somewhere in the sequence. -/
def occurs (tag s : List α) : Bool := (cut tag s).isSome

theorem cut_append (tag : List α) {s before after : List α}
    (h : cut tag s = some (before, after)) : s = before ++ tag ++ after := by
  induction s generalizing before with
  | nil =>
      by_cases empty : tag = [] <;> simp_all [cut]
  | cons x xs ih =>
      simp only [cut] at h
      split at h
      · rename_i starts
        obtain ⟨rest, hrest⟩ := List.isPrefixOf_iff_prefix.mp starts
        simp only [Option.some.injEq, Prod.mk.injEq] at h
        obtain ⟨rfl, rfl⟩ := h
        rw [← hrest]
        simp
      · obtain ⟨⟨b, a⟩, found, heq⟩ := Option.map_eq_some_iff.mp h
        simp only [Prod.mk.injEq] at heq
        obtain ⟨rfl, rfl⟩ := heq
        simp [ih found]

theorem cut_isSome_iff (tag s : List α) : (cut tag s).isSome ↔ tag <:+: s := by
  constructor
  · intro h
    obtain ⟨⟨before, after⟩, found⟩ := Option.isSome_iff_exists.mp h
    exact ⟨before, after, (cut_append tag found).symm⟩
  · intro h
    induction s with
    | nil => simp [cut, List.infix_nil.mp h]
    | cons x xs ih =>
        simp only [cut]
        split
        · rfl
        · rename_i starts
          cases List.infix_cons_iff.mp h with
          | inl pre => exact absurd (List.isPrefixOf_iff_prefix.mpr pre) starts
          | inr inner => simpa using ih inner

theorem cut_eq_none_iff (tag s : List α) : cut tag s = none ↔ ¬ tag <:+: s := by
  rw [← cut_isSome_iff, Option.not_isSome_iff_eq_none]

/-- The split is the leftmost one: the part before the marker, together with
    all but the last symbol of the marker, holds no occurrence. -/
theorem cut_leftmost (tag : List α) {s before after : List α}
    (h : cut tag s = some (before, after)) {b a : List α} (other : s = b ++ tag ++ a) :
    before.length ≤ b.length := by
  induction s generalizing before b with
  | nil =>
      simp only [cut] at h
      split at h
      · simp only [Option.some.injEq, Prod.mk.injEq] at h
        simp [← h.1]
      · simp at h
  | cons x xs ih =>
      simp only [cut] at h
      split at h
      · simp only [Option.some.injEq, Prod.mk.injEq] at h
        simp [← h.1]
      · rename_i starts
        obtain ⟨⟨b', a'⟩, found, heq⟩ := Option.map_eq_some_iff.mp h
        simp only [Prod.mk.injEq] at heq
        obtain ⟨rfl, rfl⟩ := heq
        cases b with
        | nil =>
            refine absurd (List.isPrefixOf_iff_prefix.mpr ⟨a, ?_⟩) starts
            simpa using other.symm
        | cons y ys =>
            simp only [List.cons_append, List.cons.injEq] at other
            have inner := ih found other.2
            simpa using inner

section Lines

variable (nl : α)

/-- The lines terminated by `nl` (without it) and the unterminated rest. -/
def splitLines : List α → List (List α) × List α
  | [] => ([], [])
  | x :: xs =>
      let rest := splitLines xs
      if x = nl then ([] :: rest.1, rest.2)
      else match rest.1 with
        | [] => ([], x :: rest.2)
        | line :: lines => ((x :: line) :: lines, rest.2)

theorem splitLines_cut {s line rest : List α} (h : cut [nl] s = some (line, rest)) :
    splitLines nl s = (line :: (splitLines nl rest).1, (splitLines nl rest).2) := by
  induction s generalizing line with
  | nil => simp [cut] at h
  | cons x xs ih =>
      by_cases hx : nl = x
      · simp only [cut, List.isPrefixOf, hx, BEq.rfl, Bool.and_self, ↓reduceIte,
          List.length_cons, List.length_nil, List.drop_succ_cons, List.drop_zero,
          Option.some.injEq, Prod.mk.injEq] at h
        obtain ⟨rfl, rfl⟩ := h
        simp [splitLines, hx]
      · have miss : (nl == x) = false := by simpa using hx
        simp only [cut, List.isPrefixOf, miss, Bool.false_and, Bool.false_eq_true,
          ↓reduceIte] at h
        obtain ⟨⟨b, a⟩, found, heq⟩ := Option.map_eq_some_iff.mp h
        simp only [Prod.mk.injEq] at heq
        obtain ⟨rfl, rfl⟩ := heq
        simp [splitLines, Ne.symm hx, ih found]

theorem splitLines_no_newline {s : List α} (h : cut [nl] s = none) :
    splitLines nl s = ([], s) := by
  induction s with
  | nil => rfl
  | cons x xs ih =>
      have absent : ¬ [nl] <:+: x :: xs := (cut_eq_none_iff _ _).mp h
      have tail : cut [nl] xs = none :=
        (cut_eq_none_iff _ _).mpr fun inner => absent (inner.trans (List.infix_cons (List.infix_refl xs)))
      have head : x ≠ nl := fun same => absent (by subst same; exact ⟨[], xs, rfl⟩)
      simp [splitLines, head, ih tail]

theorem splitLines_line {line : List α} (oneLine : nl ∉ line) (rest : List α) :
    splitLines nl (line ++ nl :: rest) = (line :: (splitLines nl rest).1, (splitLines nl rest).2) := by
  induction line with
  | nil => simp [splitLines]
  | cons x xs ih =>
      obtain ⟨head, tail⟩ : nl ≠ x ∧ nl ∉ xs := by simpa using oneLine
      simp [splitLines, Ne.symm head, ih tail]

/-- Reading `a` first and `b` later gives the lines of `a`, then the lines of
    what `a` left unterminated followed by `b`. -/
theorem splitLines_append (a b : List α) :
    splitLines nl (a ++ b) =
      ((splitLines nl a).1 ++ (splitLines nl ((splitLines nl a).2 ++ b)).1,
        (splitLines nl ((splitLines nl a).2 ++ b)).2) := by
  induction a with
  | nil => simp [splitLines]
  | cons x xs ih =>
      by_cases hx : x = nl
      · simp [splitLines, hx, ih]
      · cases lines : (splitLines nl xs).1 with
        | nil =>
            rw [lines] at ih
            simp only [List.nil_append] at ih
            simp [splitLines, hx, lines, ih]
        | cons line more =>
            rw [lines] at ih
            simp [splitLines, hx, lines, ih]

end Lines

end E2eeProxy.Lib
