import Mathlib.Data.Int.Log
import Mathlib.Data.Rat.Floor
import Mathlib.Algebra.Order.Floor.Ring
import Mathlib.Algebra.Order.Field.Power
import Mathlib.Algebra.Ring.Int.Parity
import Mathlib.Tactic.Linarith
import Mathlib.Tactic.Positivity
import Mathlib.Tactic.Ring
import Mathlib.Tactic.FieldSimp
import Mathlib.Tactic.NormNum

/-! # Rounding to significant digits

A rational is rounded to the nearest multiple of a unit, between two to the even
one. The unit follows the magnitude of the number: for `p` digits in base `b` it is
that of the last of them, and a floating-point format has a least one. A number with
at most `p` digits is what anything close enough to it is rounded to.
-/

namespace E2eeProxy.Lib

/-- The nearest integer. -/
def roundEven (x : ℚ) : ℤ :=
  if 2 * Int.fract x < 1 ∨ (2 * Int.fract x = 1 ∧ Even ⌊x⌋) then ⌊x⌋ else ⌊x⌋ + 1

def roundTo (unit x : ℚ) : ℚ := unit * roundEven (x / unit)

/-- The unit of the last of `p` digits. -/
def lastUnit (b p : ℕ) (x : ℚ) : ℚ := (b : ℚ) ^ (Int.log b |x| + 1 - p)

def roundDigits (b p : ℕ) (x : ℚ) : ℚ := roundTo (lastUnit b p x) x

/-- Rounded to `p` binary digits, the last of them not below `2 ^ least`. -/
def roundFloat (p : ℕ) (least : ℤ) (x : ℚ) : ℚ :=
  roundTo ((2 : ℚ) ^ max (Int.log 2 |x| + 1 - p) least) x

/-- The number has at most `p` significant digits. -/
def HasDigits (b p : ℕ) (q : ℚ) : Prop := ∃ m e : ℤ, |m| < b ^ p ∧ q = m * (b : ℚ) ^ e

/-! ## The nearest multiple -/

theorem roundEven_dist (x : ℚ) : 2 * |x - roundEven x| ≤ 1 := by
  have split : x - ⌊x⌋ = Int.fract x := rfl
  have nonneg := Int.fract_nonneg x
  have below := Int.fract_lt_one x
  unfold roundEven
  split
  · rename_i down
    have half : 2 * Int.fract x ≤ 1 := by
      rcases down with less | ⟨tie, -⟩
      · exact less.le
      · exact tie.le
    rw [split, abs_of_nonneg nonneg]
    exact half
  · rename_i up
    have half : 1 ≤ 2 * Int.fract x := by
      by_contra less
      exact up (.inl (not_le.mp less))
    have shift : x - (⌊x⌋ + 1 : ℤ) = Int.fract x - 1 := by
      push_cast
      rw [← split]
      ring
    rw [shift, abs_of_nonpos (by linarith)]
    linarith

theorem roundEven_of_near {x : ℚ} {n : ℤ} (near : 2 * |x - n| < 1) : roundEven x = n := by
  have dist := roundEven_dist x
  have apart : |(roundEven x : ℚ) - n| < 1 := by
    have triangle := abs_sub_le (roundEven x : ℚ) x n
    rw [abs_sub_comm (roundEven x : ℚ) x] at triangle
    linarith
  have int : |roundEven x - n| < 1 := by exact_mod_cast apart
  have same := Int.abs_lt_one_iff.mp int
  omega

theorem roundTo_dist {unit : ℚ} (pos : 0 < unit) (x : ℚ) : 2 * |x - roundTo unit x| ≤ unit := by
  have dist := roundEven_dist (x / unit)
  have scaled : x - roundTo unit x = unit * (x / unit - roundEven (x / unit)) := by
    unfold roundTo
    field_simp
  rw [scaled, abs_mul, abs_of_pos pos]
  calc 2 * (unit * |x / unit - roundEven (x / unit)|)
      = unit * (2 * |x / unit - roundEven (x / unit)|) := by ring
    _ ≤ unit * 1 := by exact mul_le_mul_of_nonneg_left dist pos.le
    _ = unit := mul_one unit

theorem roundTo_of_near {unit x q : ℚ} (pos : 0 < unit) (multiple : ∃ n : ℤ, q = n * unit)
    (near : 2 * |x - q| < unit) : roundTo unit x = q := by
  obtain ⟨n, rfl⟩ := multiple
  have close : 2 * |x / unit - n| < 1 := by
    have scaled : x / unit - n = (x - n * unit) / unit := by field_simp
    rw [scaled, abs_div, abs_of_pos pos, ← mul_div_assoc, div_lt_one pos]
    exact near
  unfold roundTo
  rw [roundEven_of_near close, mul_comm]

/-! ## Digits -/

section Digits

variable {b p : ℕ} (base : 1 < b)
include base

theorem lastUnit_pos (p : ℕ) (x : ℚ) : 0 < lastUnit b p x := by
  have : (0 : ℚ) < b := by exact_mod_cast Nat.zero_lt_of_lt base
  exact zpow_pos this _

theorem abs_lt_lastUnit (p : ℕ) (x : ℚ) : |x| < b ^ p * lastUnit b p x := by
  have pos : (0 : ℚ) < b := by exact_mod_cast Nat.zero_lt_of_lt base
  have bound := Int.lt_zpow_succ_log_self base |x|
  unfold lastUnit
  rw [← zpow_natCast, ← zpow_add₀ pos.ne']
  have : (p : ℤ) + (Int.log b |x| + 1 - p) = Int.log b |x| + 1 := by ring
  rwa [this]

/-- What is rounded to `p` digits has `p` digits. -/
theorem roundDigits_hasDigits (some : p ≠ 0) (x : ℚ) : HasDigits b p (roundDigits b p x) := by
  have pos := lastUnit_pos base p x
  have bpos : (0 : ℚ) < b := by exact_mod_cast Nat.zero_lt_of_lt base
  have dist := roundEven_dist (x / lastUnit b p x)
  have size : |x / lastUnit b p x| < b ^ p := by
    rw [abs_div, abs_of_pos pos, div_lt_iff₀ pos]
    exact abs_lt_lastUnit base p x
  have bounded : |roundEven (x / lastUnit b p x)| ≤ b ^ p := by
    have triangle := abs_sub_abs_le_abs_sub (roundEven (x / lastUnit b p x) : ℚ) (x / lastUnit b p x)
    rw [abs_sub_comm] at triangle
    have less : (|roundEven (x / lastUnit b p x)| : ℚ) < b ^ p + 1 := by linarith
    have int : |roundEven (x / lastUnit b p x)| < (b : ℤ) ^ p + 1 := by exact_mod_cast less
    omega
  cases bounded.lt_or_eq with
  | inl less => exact ⟨roundEven (x / lastUnit b p x), Int.log b |x| + 1 - p, less, mul_comm _ _⟩
  | inr full =>
      -- The carry has made one digit more, but the new one is alone.
      have one : (1 : ℤ) < (b : ℤ) ^ p := by exact_mod_cast Nat.one_lt_pow some base
      have unit : lastUnit b p x * b ^ p = 1 * (b : ℚ) ^ (Int.log b |x| + 1) := by
        unfold lastUnit
        rw [← zpow_natCast, ← zpow_add₀ bpos.ne', one_mul]
        ring_nf
      cases abs_eq (by positivity) |>.mp full with
      | inl plus =>
          refine ⟨1, Int.log b |x| + 1, by simpa using one, ?_⟩
          unfold roundDigits roundTo
          rw [plus]
          push_cast
          exact unit
      | inr minus =>
          refine ⟨-1, Int.log b |x| + 1, by simpa using one, ?_⟩
          unfold roundDigits roundTo
          rw [minus]
          push_cast
          rw [mul_neg, unit]
          ring

/-- A number with `p` digits is a multiple of the unit of any number that is close. -/
theorem HasDigits.multiple {q x : ℚ} (digits : HasDigits b p q) (some : x ≠ 0)
    (near : |x - q| * b ^ (p + 1) ≤ |x|) : ∃ n : ℤ, q = n * lastUnit b p x := by
  obtain ⟨m, e, size, rfl⟩ := digits
  have bpos : (0 : ℚ) < b := by exact_mod_cast Nat.zero_lt_of_lt base
  have xpos : 0 < |x| := abs_pos.mpr some
  by_cases coarse : Int.log b |x| + 1 - p ≤ e
  · -- The exponent is no smaller than that of the unit.
    obtain ⟨k, same⟩ := Int.le.dest coarse
    refine ⟨m * b ^ k, ?_⟩
    unfold lastUnit
    rw [← same, zpow_add₀ bpos.ne', zpow_natCast]
    push_cast
    ring
  · -- The number would be smaller than all that has the magnitude of `x`.
    exfalso
    set k := Int.log b |x| with hk
    have low : (b : ℚ) ^ k ≤ |x| := Int.zpow_log_le_self base xpos
    have high : |x| < (b : ℚ) ^ (k + 1) := Int.lt_zpow_succ_log_self base |x|
    have mbound : (|m| : ℚ) ≤ b ^ p - 1 := by
      have int : |m| ≤ (b : ℤ) ^ p - 1 := by omega
      exact_mod_cast int
    have epos : (0 : ℚ) < (b : ℚ) ^ e := zpow_pos bpos e
    have small : |(m : ℚ) * (b : ℚ) ^ e| ≤ b ^ k - b ^ (k - p) := by
      have below : (b : ℚ) ^ e ≤ b ^ (k - p) :=
        zpow_le_zpow_right₀ (by exact_mod_cast base.le) (by omega)
      have split : (b : ℚ) ^ k = b ^ p * b ^ (k - p) := by
        rw [← zpow_natCast, ← zpow_add₀ bpos.ne']
        ring_nf
      rw [abs_mul, abs_of_pos epos, split]
      have mnonneg : (0 : ℚ) ≤ b ^ p - 1 := (abs_nonneg _).trans mbound
      calc (|(m : ℚ)|) * (b : ℚ) ^ e ≤ (b ^ p - 1) * (b : ℚ) ^ e :=
            mul_le_mul_of_nonneg_right mbound epos.le
        _ ≤ (b ^ p - 1) * b ^ (k - p) := mul_le_mul_of_nonneg_left below mnonneg
        _ = b ^ p * b ^ (k - p) - b ^ (k - p) := by ring
    have apart : (b : ℚ) ^ (k - p) ≤ |x - m * (b : ℚ) ^ e| := by
      have triangle := abs_sub_abs_le_abs_sub x (m * (b : ℚ) ^ e)
      linarith
    have scaled : (b : ℚ) ^ (k + 1) ≤ |x - m * (b : ℚ) ^ e| * b ^ (p + 1) := by
      have split : (b : ℚ) ^ (k + 1) = b ^ (k - p) * b ^ (p + 1) := by
        rw [← zpow_natCast, ← zpow_add₀ bpos.ne']
        congr 1
        push_cast
        ring
      rw [split]
      exact mul_le_mul_of_nonneg_right apart (by positivity)
    linarith

/-- What is close enough to a number with `p` digits is rounded to it. -/
theorem roundDigits_of_near {q x : ℚ} (digits : HasDigits b p q)
    (near : |x - q| * b ^ (p + 1) ≤ |x|) : roundDigits b p x = q := by
  have bpos : (0 : ℚ) < b := by exact_mod_cast Nat.zero_lt_of_lt base
  by_cases zero : x = 0
  · have q0 : q = 0 := by
      rw [zero, abs_zero, zero_sub, abs_neg] at near
      by_contra some
      have power : (0 : ℚ) < b ^ (p + 1) := by positivity
      have product := mul_pos (abs_pos.mpr some) power
      linarith
    rw [zero, q0]
    simp [roundDigits, roundTo, roundEven]
  · apply roundTo_of_near (lastUnit_pos base p x) (digits.multiple base zero near)
    have bound := abs_lt_lastUnit base p x
    have two : (2 : ℚ) ≤ b := by exact_mod_cast base
    have power : (0 : ℚ) < b ^ p := by positivity
    have nonneg := abs_nonneg (x - q)
    have scaled : 2 * |x - q| * b ^ p < b ^ p * lastUnit b p x := by
      calc 2 * |x - q| * b ^ p ≤ b * |x - q| * b ^ p := by gcongr
        _ = |x - q| * b ^ (p + 1) := by ring
        _ ≤ |x| := near
        _ < b ^ p * lastUnit b p x := bound
    rw [mul_comm] at scaled
    exact lt_of_mul_lt_mul_left scaled power.le

end Digits

/-! ## Floating point -/

/-- In the range of full precision the error is relative. -/
theorem roundFloat_near {p : ℕ} {least : ℤ} {x : ℚ} (normal : (2 : ℚ) ^ (least + p - 1) ≤ |x|) :
    |roundFloat p least x - x| * 2 ^ p ≤ |x| := by
  have xpos : 0 < |x| := lt_of_lt_of_le (by positivity) normal
  have above : least + p - 1 ≤ Int.log 2 |x| :=
    (Int.zpow_le_iff_le_log (by norm_num) xpos).mp (by exact_mod_cast normal)
  have unit : max (Int.log 2 |x| + 1 - p) least = Int.log 2 |x| + 1 - p := max_eq_left (by omega)
  have pos : (0 : ℚ) < 2 ^ (Int.log 2 |x| + 1 - p) := by positivity
  have dist := roundTo_dist pos x
  have low : (2 : ℚ) ^ Int.log 2 |x| ≤ |x| := by
    exact_mod_cast Int.zpow_log_le_self (by norm_num) xpos
  have split : (2 : ℚ) ^ (Int.log 2 |x| + 1 - p) * 2 ^ p = 2 * 2 ^ Int.log 2 |x| := by
    rw [← zpow_natCast, ← zpow_add₀ (by norm_num), mul_comm, ← zpow_add_one₀ (by norm_num)]
    congr 1
    ring
  unfold roundFloat
  rw [unit, abs_sub_comm]
  have power : (0 : ℚ) < 2 ^ p := by positivity
  nlinarith

end E2eeProxy.Lib
