import Mathlib.Tactic.Common

/-! # Memory

A cell for every address. What is written somewhere is read back there, and nothing
else changes.
-/

namespace E2eeProxy.Lib

def Memory (α : Type*) := Nat → α

namespace Memory

variable {α : Type*}

def write (m : Memory α) (base : Nat) (cells : List α) : Memory α := fun a =>
  if base ≤ a then cells[a - base]?.getD (m a) else m a

def read (m : Memory α) (base n : Nat) : List α := (List.range n).map fun i => m (base + i)

/-- The two agree outside of these cells. -/
def SameOutside (base n : Nat) (m m' : Memory α) : Prop :=
  ∀ a, ¬ (base ≤ a ∧ a < base + n) → m' a = m a

variable {m m' m'' : Memory α} {base n k : Nat} {xs ys : List α}

@[ext] theorem ext (same : ∀ a, m a = m' a) : m = m' := funext same

theorem write_outside {a : Nat} (outside : ¬ (base ≤ a ∧ a < base + xs.length)) :
    m.write base xs a = m a := by
  unfold write
  split
  · rename_i after
    rw [List.getElem?_eq_none (by omega), Option.getD_none]
  · rfl

theorem write_inside {i : Nat} (inside : i < xs.length) : m.write base xs (base + i) = xs[i] := by
  unfold write
  rw [if_pos (Nat.le_add_right _ _), Nat.add_sub_cancel_left, List.getElem?_eq_getElem inside,
    Option.getD_some]

@[simp] theorem write_nil : m.write base [] = m := by
  ext a
  exact write_outside (by simp)

/-- Writing on where one has stopped. -/
theorem write_append : (m.write base xs).write (base + xs.length) ys = m.write base (xs ++ ys) := by
  ext a
  by_cases first : base ≤ a ∧ a < base + xs.length
  · obtain ⟨i, rfl⟩ := Nat.exists_eq_add_of_le first.1
    have here : i < xs.length := by omega
    rw [write_outside (by omega), write_inside here, write_inside (by simp; omega),
      List.getElem_append_left here]
  · by_cases second : base ≤ a ∧ a < base + xs.length + ys.length
    · obtain ⟨j, rfl⟩ := Nat.exists_eq_add_of_le (show base + xs.length ≤ a by omega)
      have there : j < ys.length := by omega
      rw [write_inside there, Nat.add_assoc, write_inside (by simp; omega),
        List.getElem_append_right (by omega)]
      simp
    · rw [write_outside (by omega), write_outside first, write_outside (by simp; omega)]

@[simp] theorem length_read : (m.read base n).length = n := by
  simp [read]

theorem read_add : m.read base (n + k) = m.read base n ++ m.read (base + n) k := by
  unfold read
  rw [List.range_add, List.map_append, List.map_map]
  simp [Function.comp_def, Nat.add_assoc]

theorem read_write (length : xs.length = n) : (m.write base xs).read base n = xs := by
  subst length
  apply List.ext_getElem
  · simp
  · intro i _ inside
    simp only [read, List.getElem_map, List.getElem_range, write_inside inside]

theorem read_congr (same : ∀ i < n, m' (base + i) = m (base + i)) : m'.read base n = m.read base n := by
  unfold read
  apply List.map_congr_left
  intro i mem
  exact same i (List.mem_range.mp mem)

/-- What is read elsewhere is what was there. -/
theorem read_write_apart {base' : Nat} (apart : base' + n ≤ base ∨ base + xs.length ≤ base') :
    (m.write base xs).read base' n = m.read base' n :=
  read_congr fun _ _ => write_outside (by omega)

theorem SameOutside.refl : SameOutside base n m m := fun _ _ => rfl

theorem SameOutside.trans (first : SameOutside base n m m') (second : SameOutside base n m' m'') :
    SameOutside base n m m'' :=
  fun a outside => (second a outside).trans (first a outside)

theorem SameOutside.mono {base' n' : Nat} (same : SameOutside base n m m') (after : base' ≤ base)
    (before : base + n ≤ base' + n') : SameOutside base' n' m m' :=
  fun a outside => same a (by omega)

theorem sameOutside_write (within : xs.length ≤ n) : SameOutside base n m (m.write base xs) :=
  fun _ _ => write_outside (by omega)

theorem SameOutside.eq (same : SameOutside base 0 m m') : m' = m := ext fun a => same a (by omega)

/-- Overwriting all the cells that may have changed. -/
theorem SameOutside.write_eq (same : SameOutside base xs.length m m') :
    m'.write base xs = m.write base xs := by
  ext a
  by_cases inside : base ≤ a ∧ a < base + xs.length
  · obtain ⟨i, rfl⟩ := Nat.exists_eq_add_of_le inside.1
    rw [write_inside (by omega), write_inside (by omega)]
  · rw [write_outside inside, write_outside inside, same a inside]

/-- So many cells from here hold values of this kind. -/
def Filled (P : α → Prop) (m : Memory α) (base n : Nat) : Prop := ∀ i < n, P (m (base + i))

theorem Filled.zero {P : α → Prop} : Filled P m base 0 := fun _ none => absurd none (Nat.not_lt_zero _)

/-- Writing on extends the cells that are filled. -/
theorem Filled.write {P : α → Prop} (filled : Filled P m base n) (each : ∀ x ∈ xs, P x) :
    Filled P (m.write (base + n) xs) base (n + xs.length) := by
  intro i inside
  by_cases before : i < n
  · rw [write_outside (by omega)]
    exact filled i before
  · obtain ⟨j, rfl⟩ := Nat.exists_eq_add_of_le (Nat.le_of_not_lt before)
    have here : j < xs.length := by omega
    rw [← Nat.add_assoc, write_inside here]
    exact each _ (List.getElem_mem here)

end Memory

end E2eeProxy.Lib
