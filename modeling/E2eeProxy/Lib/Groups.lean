import Mathlib.Data.List.Flatten
import Mathlib.Data.Nat.Bitwise
import Mathlib.Tactic.Ring

/-! # Lists written group by group

A loop that writes a group of entries in each turn, and the digits such groups are made
of.
-/

namespace E2eeProxy.Lib.Groups

variable {α : Type*} {n m : ℕ} {f : ℕ → List α}

def groups (n : ℕ) (f : ℕ → List α) : List α := (List.range n).flatMap f

theorem groups_succ (n : ℕ) (f : ℕ → List α) : groups (n + 1) f = groups n f ++ f n := by
  simp [groups, List.range_succ]

theorem length_groups (uniform : ∀ i < n, (f i).length = m) : (groups n f).length = n * m := by
  induction n with
  | zero => simp [groups]
  | succ n ih =>
    rw [groups_succ, List.length_append, ih fun i less => uniform i (by omega), uniform n (by omega)]
    ring

/-- What a turn writes is found where it was written. -/
theorem getElem?_groups (uniform : ∀ i < n, (f i).length = m) {i j : ℕ} (turn : i < n) (inside : j < m) :
    (groups n f)[m * i + j]? = (f i)[j]? := by
  induction n with
  | zero => omega
  | succ n ih =>
    have before : ∀ i < n, (f i).length = m := fun i less => uniform i (by omega)
    have length := length_groups before
    rw [groups_succ]
    by_cases last : i = n
    · subst last
      rw [List.getElem?_append_right (by rw [length, Nat.mul_comm]; omega), length,
        show m * i + j - i * m = j by rw [Nat.mul_comm]; omega]
    · have le : m * (i + 1) ≤ m * n := Nat.mul_le_mul_left m (by omega)
      rw [Nat.mul_add, Nat.mul_one] at le
      rw [List.getElem?_append_left (by rw [length, Nat.mul_comm n]; omega)]
      exact ih before (by omega)

/-- A list that is read group by group and written again. -/
theorem groups_eq {l : List α} (length : l.length = n * m) (uniform : ∀ i < n, (f i).length = m)
    (each : ∀ i < n, ∀ j < m, (f i)[j]? = l[m * i + j]?) : groups n f = l := by
  apply List.ext_getElem?
  intro k
  by_cases inside : k < n * m
  · have positive : 0 < m := Nat.pos_of_ne_zero (by rintro rfl; omega)
    have turn : k / m < n := Nat.div_lt_of_lt_mul (by rwa [Nat.mul_comm])
    have rest : k % m < m := Nat.mod_lt k positive
    rw [← Nat.div_add_mod k m, getElem?_groups uniform turn rest]
    exact each _ turn _ rest
  · rw [List.getElem?_eq_none (by rw [length_groups uniform]; omega),
      List.getElem?_eq_none (by rw [length]; omega)]

/-! ## Digits -/

/-- A disjunction of bits that do not meet is a sum. -/
theorem or_shiftLeft {a k : ℕ} (b : ℕ) (small : a < 2 ^ k) : a ||| b <<< k = a + b * 2 ^ k := by
  rw [Nat.or_comm, ← Nat.shiftLeft_add_eq_or_of_lt small, Nat.shiftLeft_eq, Nat.add_comm]

theorem and_mask (a k : ℕ) : a &&& (2 ^ k - 1) = a % 2 ^ k := Nat.and_two_pow_sub_one_eq_mod a k

end E2eeProxy.Lib.Groups
