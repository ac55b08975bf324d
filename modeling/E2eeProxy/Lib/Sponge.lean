import Mathlib.Data.List.Basic
import Mathlib.Data.List.Range
import Mathlib.Tactic.Common

/-! # Sponges

A state takes in a byte at a time, and gives out a byte at a time; after so many it is
permuted. Implementations work in blocks, and these are the blocks they may use.
-/

namespace E2eeProxy.Lib.Sponge

/-- A state with positions that can be written to and read from. -/
structure Duplex (σ β : Type*) where
  permute : σ → σ
  put : σ → ℕ → β → σ
  get : σ → ℕ → β

variable {σ β : Type*} (D : Duplex σ β) (rate : ℕ)

/-- Bytes at consecutive positions. -/
def putAll (s : σ) (pos : ℕ) : List β → σ
  | [] => s
  | b :: bs => putAll (D.put s pos b) (pos + 1) bs

/-! ## Absorbing -/

/-- A byte more; the number counts the bytes since the state was permuted. -/
def absorb (s : σ × ℕ) (b : β) : σ × ℕ :=
  if s.2 + 1 = rate then (D.permute (D.put s.1 s.2 b), 0) else (D.put s.1 s.2 b, s.2 + 1)

def absorbAll (s : σ × ℕ) (input : List β) : σ × ℕ := input.foldl (absorb D rate) s

section Absorb

variable {D rate} {s : σ} {pos : ℕ} {input : List β}

theorem putAll_append (s : σ) (pos : ℕ) (first second : List β) :
    putAll D s pos (first ++ second) = putAll D (putAll D s pos first) (pos + first.length) second := by
  induction first generalizing s pos with
  | nil => rfl
  | cons b bs ih =>
    rw [List.cons_append, putAll, putAll, ih, List.length_cons, Nat.add_right_comm, Nat.add_assoc]

/-- It does not matter how the input is cut into pieces. -/
theorem absorbAll_append (s : σ × ℕ) (first second : List β) :
    absorbAll D rate s (first ++ second) = absorbAll D rate (absorbAll D rate s first) second :=
  List.foldl_append

theorem absorbAll_short (room : pos + input.length < rate) :
    absorbAll D rate (s, pos) input = (putAll D s pos input, pos + input.length) := by
  induction input generalizing s pos with
  | nil => rfl
  | cons b bs ih =>
    rw [List.length_cons] at room
    have step : absorb D rate (s, pos) b = (D.put s pos b, pos + 1) := if_neg (by omega)
    rw [absorbAll, List.foldl_cons, step]
    refine (ih (by omega)).trans ?_
    rw [putAll, List.length_cons, Nat.add_right_comm, Nat.add_assoc]

/-- A block that is filled is permuted. -/
theorem absorbAll_fills (before : pos < rate) (fills : pos + input.length = rate) :
    absorbAll D rate (s, pos) input = (D.permute (putAll D s pos input), 0) := by
  have some : input ≠ [] := by
    rintro rfl
    simp only [List.length_nil] at fills
    omega
  obtain ⟨bs, b, rfl⟩ := (List.eq_nil_or_concat' input).resolve_left some
  rw [List.length_append, List.length_singleton] at fills
  have kept : absorbAll D rate (s, pos) bs = (putAll D s pos bs, pos + bs.length) :=
    absorbAll_short (by omega)
  rw [absorbAll_append, kept, putAll_append]
  exact if_pos (by omega)

end Absorb

/-! ## Squeezing -/

/-- The next byte; the number counts the bytes that are left of the last block. -/
def squeeze (s : σ × ℕ) : β × σ × ℕ :=
  if s.2 = 0 then (D.get (D.permute s.1) 0, D.permute s.1, rate - 1)
  else (D.get s.1 (rate - s.2), s.1, s.2 - 1)

def squeezeMany : ℕ → σ × ℕ → List β × σ × ℕ
  | 0, s => ([], s)
  | n + 1, s =>
      let after := squeeze D rate s
      let rest := squeezeMany n after.2
      (after.1 :: rest.1, rest.2)

section Squeeze

variable {D rate} {s : σ} {n left : ℕ}

/-- It does not matter how the output is cut into pieces. -/
theorem squeezeMany_add (m n : ℕ) (s : σ × ℕ) :
    squeezeMany D rate (m + n) s =
      ((squeezeMany D rate m s).1 ++ (squeezeMany D rate n (squeezeMany D rate m s).2).1,
        (squeezeMany D rate n (squeezeMany D rate m s).2).2) := by
  induction m generalizing s with
  | zero => simp [squeezeMany]
  | succ m ih =>
    rw [Nat.add_right_comm]
    simp only [squeezeMany, ih, List.cons_append]

theorem length_squeezeMany (n : ℕ) (s : σ × ℕ) : (squeezeMany D rate n s).1.length = n := by
  induction n generalizing s with
  | zero => rfl
  | succ n ih => simp only [squeezeMany, List.length_cons, ih]

/-- What is left of a block. -/
theorem squeezeMany_left (enough : n ≤ left) (inside : left ≤ rate) :
    squeezeMany D rate n (s, left) =
      ((List.range n).map fun i => D.get s (rate - left + i), s, left - n) := by
  induction n generalizing left with
  | zero => rfl
  | succ n ih =>
    have step : squeeze D rate (s, left) = (D.get s (rate - left), s, left - 1) :=
      if_neg (show ¬ left = 0 by omega)
    rw [squeezeMany, step]
    dsimp only
    rw [ih (by omega) (by omega), List.range_succ_eq_map, List.map_cons, List.map_map, Nat.add_zero,
      Nat.sub_sub, Nat.add_comm 1 n]
    congr 2
    apply List.map_congr_left
    intro i _
    simp only [Function.comp_apply, Nat.succ_eq_add_one]
    congr 1
    omega

/-- The beginning of a new block. -/
theorem squeezeMany_fresh (some : 0 < n) (inside : n ≤ rate) :
    squeezeMany D rate n (s, 0) =
      ((List.range n).map fun i => D.get (D.permute s) i, D.permute s, rate - n) := by
  obtain ⟨n, rfl⟩ : ∃ m, n = m + 1 := ⟨n - 1, by omega⟩
  have step : squeeze D rate (s, 0) = (D.get (D.permute s) 0, D.permute s, rate - 1) := if_pos rfl
  rw [squeezeMany, step]
  dsimp only
  rw [squeezeMany_left (by omega) (by omega), List.range_succ_eq_map, List.map_cons, List.map_map,
    Nat.sub_sub, Nat.add_comm 1 n]
  congr 2
  apply List.map_congr_left
  intro i _
  simp only [Function.comp_apply, Nat.succ_eq_add_one]
  congr 1
  omega

end Squeeze

end E2eeProxy.Lib.Sponge
