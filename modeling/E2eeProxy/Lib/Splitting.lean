import Mathlib.Algebra.Polynomial.Basic
import Mathlib.Algebra.Polynomial.BigOperators
import Mathlib.Algebra.Polynomial.Coeff
import Mathlib.RingTheory.Coprime.Basic
import Mathlib.Tactic.LinearCombination
import Mathlib.Tactic.Ring

/-! # Splitting polynomials by roots

Number-theoretic transforms of any depth. Where `s` is a square root of `z`, a polynomial
modulo `X ^ (2 * n) - z` is one modulo `X ^ n - s` and one modulo `X ^ n + s`. The moduli
stand in a binary tree and are numbered as a heap.
-/

namespace E2eeProxy.Lib.Splitting

open Polynomial

variable {R : Type*} [CommRing R]

/-- The polynomial with the `n` coefficients that stand from `start` on. -/
noncomputable def segment (f : ℕ → R) (start n : ℕ) : R[X] :=
  ∑ i ∈ Finset.range n, C (f (start + i)) * X ^ i

/-- The constants of the moduli. `s` has the square root of each of them. -/
def constant (top : R) (s : ℕ → R) (node : ℕ) : R :=
  if node = 1 then top else if node % 2 = 0 then s (node / 2) else -s (node / 2)

/-- The segments of one level are the residues of `P`. -/
def Residues (z : ℕ → R) (n count : ℕ) (P : R[X]) (f : ℕ → R) : Prop :=
  ∀ b < count, X ^ n - C (z (count + b)) ∣ P - segment f (b * n) n

/-- What a level of butterflies makes of `f`. -/
def Splits (s : ℕ → R) (n count : ℕ) (f g : ℕ → R) : Prop :=
  ∀ b < count, ∀ i < n,
    g (b * (2 * n) + i) = f (b * (2 * n) + i) + s (count + b) * f (b * (2 * n) + n + i) ∧
    g (b * (2 * n) + n + i) = f (b * (2 * n) + i) - s (count + b) * f (b * (2 * n) + n + i)

/-- What a level of inverse butterflies makes of `f`. -/
def Joins (u : ℕ → R) (n count : ℕ) (f g : ℕ → R) : Prop :=
  ∀ b < count, ∀ i < n,
    g (b * (2 * n) + i) = f (b * (2 * n) + i) + f (b * (2 * n) + n + i) ∧
    g (b * (2 * n) + n + i) = u b * (f (b * (2 * n) + n + i) - f (b * (2 * n) + i))

variable {s u z f g : ℕ → R} {n count : ℕ} {P Q : R[X]}

theorem segment_add (f : ℕ → R) (start m n : ℕ) :
    segment f start (m + n) = segment f start m + X ^ m * segment f (start + m) n := by
  simp only [segment, Finset.sum_range_add, Finset.mul_sum, pow_add, Nat.add_assoc]
  congr 1
  apply Finset.sum_congr rfl
  intro i _
  ring

theorem segment_congr {start e : ℕ} (same : ∀ i < n, f (start + i) = g (e + i)) :
    segment f start n = segment g e n := by
  apply Finset.sum_congr rfl
  intro i mem
  rw [same i (Finset.mem_range.mp mem)]

/-- Segments of a combination. -/
theorem segment_combine (a b : R) (f g : ℕ → R) (start start' n : ℕ) :
    segment (fun i => a * f (start + i) + b * g (start' + i)) 0 n =
      C a * segment f start n + C b * segment g start' n := by
  simp only [segment, Finset.mul_sum, ← Finset.sum_add_distrib, Nat.zero_add, C_add, C_mul]
  apply Finset.sum_congr rfl
  intro i _
  ring

theorem coeff_segment {i : ℕ} (start : ℕ) (inside : i < n) :
    (segment f start n).coeff i = f (start + i) := by
  simp only [segment, finsetSum_coeff, coeff_C_mul_X_pow]
  rw [Finset.sum_eq_single i]
  · rw [if_pos rfl]
  · intro j _ other
    rw [if_neg other.symm]
  · intro outside
    exact absurd (Finset.mem_range.mpr inside) outside

/-! ## Constants -/

/-- The square of each root of a level is the constant above it, and the constants below
    are the roots. -/
structure Roots (z s : ℕ → R) (count : ℕ) : Prop where
  square : ∀ b < count, s (count + b) * s (count + b) = z (count + b)
  left : ∀ b < count, z (2 * (count + b)) = s (count + b)
  right : ∀ b < count, z (2 * (count + b) + 1) = -s (count + b)

theorem roots_constant {top : R} (_ : 0 < count)
    (square : ∀ b < count, s (count + b) * s (count + b) = constant top s (count + b)) :
    Roots (constant top s) s count where
  square := square
  left b _ := by
    unfold constant
    rw [if_neg (by omega), if_pos (by omega), Nat.mul_div_cancel_left _ (by omega)]
  right b _ := by
    unfold constant
    rw [if_neg (by omega), if_neg (by omega), show (2 * (count + b) + 1) / 2 = count + b by omega]

theorem factor {n b : ℕ} (roots : Roots z s count) (inside : b < count) :
    (X ^ (2 * n) - C (z (count + b)) : R[X]) =
      (X ^ n - C (z (2 * (count + b)))) * (X ^ n - C (z (2 * (count + b) + 1))) := by
  rw [roots.left b inside, roots.right b inside, ← roots.square b inside, C_neg, C_mul, two_mul, pow_add]
  ring

theorem residues_top (z : ℕ → R) (n : ℕ) (f : ℕ → R) : Residues z n 1 (segment f 0 n) f := by
  intro b inside
  obtain rfl : b = 0 := by omega
  rw [Nat.zero_mul, sub_self]
  exact dvd_zero _

/-! ## One level -/

/-- Both halves of what `b` is split into. -/
theorem Splits.segments (splits : Splits s n count f g) {b : ℕ} (inside : b < count) :
    segment g (2 * b * n) n =
        segment f (b * (2 * n)) n + C (s (count + b)) * segment f (b * (2 * n) + n) n ∧
      segment g ((2 * b + 1) * n) n =
        segment f (b * (2 * n)) n - C (s (count + b)) * segment f (b * (2 * n) + n) n := by
  have first : 2 * b * n = b * (2 * n) := by ring
  have second : (2 * b + 1) * n = b * (2 * n) + n := by ring
  constructor
  · rw [first, segment_congr (e := 0) (g := fun i => 1 * f (b * (2 * n) + i) +
      s (count + b) * f (b * (2 * n) + n + i)), segment_combine, C_1, one_mul]
    intro i small
    rw [(splits b inside i small).1, Nat.zero_add, one_mul]
  · rw [second, segment_congr (e := 0) (g := fun i => 1 * f (b * (2 * n) + i) +
      -s (count + b) * f (b * (2 * n) + n + i)), segment_combine, C_1, one_mul, C_neg, neg_mul,
      sub_eq_add_neg]
    intro i small
    rw [(splits b inside i small).2, Nat.zero_add]
    ring

/-- Modulo `X ^ n - r`, the power of `X` may be replaced by `r`. -/
theorem dvd_replace {n : ℕ} {r : R} {A B : R[X]} (whole : X ^ n - C r ∣ P - (A + X ^ n * B)) :
    X ^ n - C r ∣ P - (A + C r * B) := by
  have replaced : X ^ n - C r ∣ (X ^ n - C r) * B := Dvd.intro _ rfl
  convert dvd_add whole replaced using 1
  ring

/-- Butterflies take residues to the residues one level below. -/
theorem Residues.split (residues : Residues z (2 * n) count P f) (roots : Roots z s count)
    (splits : Splits s n count f g) : Residues z n (2 * count) P g := by
  intro c inside
  obtain ⟨b, parity⟩ := Nat.even_or_odd' c
  have within : b < count := by omega
  have above := residues b within
  rw [factor roots within, show segment f (b * (2 * n)) (2 * n) = segment f (b * (2 * n)) n +
    X ^ n * segment f (b * (2 * n) + n) n by rw [← segment_add, two_mul]] at above
  rcases parity with rfl | rfl
  · rw [show 2 * count + 2 * b = 2 * (count + b) by ring, (splits.segments within).1,
      ← roots.left b within]
    exact dvd_replace ((Dvd.intro _ rfl).trans above)
  · rw [show 2 * count + (2 * b + 1) = 2 * (count + b) + 1 by ring, (splits.segments within).2,
      sub_eq_add_neg (segment f _ _), ← neg_mul, ← C_neg, ← roots.right b within]
    exact dvd_replace ((Dvd.intro_left _ rfl).trans above)

/-- Inverse butterflies are undone by butterflies, up to a factor of two. -/
theorem Joins.splits (joins : Joins u n count f g)
    (inverse : ∀ b < count, s (count + b) * u b = -1) :
    Splits s n count g fun i => 2 * f i := by
  intro b inside i small
  obtain ⟨low, high⟩ := joins b inside i small
  have unit := inverse b inside
  rw [low, high]
  constructor
  · linear_combination (f (b * (2 * n) + i) - f (b * (2 * n) + n + i)) * unit
  · linear_combination (f (b * (2 * n) + n + i) - f (b * (2 * n) + i)) * unit

theorem Splits.scale (splits : Splits s n count f g) (c : R) :
    Splits s n count (fun i => c * f i) fun i => c * g i := by
  intro b inside i small
  obtain ⟨low, high⟩ := splits b inside i small
  constructor
  · linear_combination c * low
  · linear_combination c * high

theorem Residues.scale (residues : Residues z n count P f) (c : R) :
    Residues z n count (C c * P) fun i => c * f i := by
  intro b inside
  have scaled : segment (fun i => c * f i) (b * n) n = C c * segment f (b * n) n := by
    simp only [segment, Finset.mul_sum, C_mul, mul_assoc]
  rw [scaled, ← mul_sub]
  exact (residues b inside).mul_left _

theorem Residues.congr (residues : Residues z n count P f)
    (same : ∀ i < count * n, g i = f i) : Residues z n count P g := by
  intro b inside
  rw [segment_congr (g := f) (e := b * n)]
  · exact residues b inside
  · intro i small
    apply same
    have le : (b + 1) * n ≤ count * n := Nat.mul_le_mul_right n inside
    rw [Nat.add_mul, Nat.one_mul] at le
    omega

theorem Residues.add (first : Residues z n count P f) (second : Residues z n count Q g) :
    Residues z n count (P + Q) fun i => f i + g i := by
  intro b inside
  have sum : segment (fun i => f i + g i) (b * n) n = segment f (b * n) n + segment g (b * n) n := by
    simp only [segment, ← Finset.sum_add_distrib, C_add, add_mul]
  rw [sum, add_sub_add_comm]
  exact dvd_add (first b inside) (second b inside)

/-- Residues of degree one are multiplied pair by pair. -/
theorem Residues.mul {h : ℕ → R} (first : Residues z 2 count P f) (second : Residues z 2 count Q g)
    (products : ∀ b < count,
      h (2 * b) = f (2 * b) * g (2 * b) + z (count + b) * (f (2 * b + 1) * g (2 * b + 1)) ∧
      h (2 * b + 1) = f (2 * b) * g (2 * b + 1) + f (2 * b + 1) * g (2 * b)) :
    Residues z 2 count (P * Q) h := by
  have pair (f : ℕ → R) (b : ℕ) : segment f (b * 2) 2 = C (f (2 * b)) + C (f (2 * b + 1)) * X := by
    simp [segment, Finset.sum_range_succ, Nat.mul_comm b 2]
  intro b inside
  have whole := dvd_add ((first b inside).mul_right Q)
    ((second b inside).mul_left (segment f (b * 2) 2))
  have carry : X ^ 2 - C (z (count + b)) ∣ (X ^ 2 - C (z (count + b))) *
      (C (f (2 * b + 1)) * C (g (2 * b + 1))) := Dvd.intro _ rfl
  obtain ⟨low, high⟩ := products b inside
  convert dvd_add whole carry using 1
  rw [pair, pair, pair, low, high]
  simp only [C_add, C_mul]
  ring

theorem Residues.agree (first : Residues z n count P f) (second : Residues z n count Q f) :
    ∀ b < count, X ^ n - C (z (count + b)) ∣ P - Q := by
  intro b inside
  convert dvd_sub (first b inside) (second b inside) using 1
  ring

/-- The moduli of a level are coprime in pairs where twice the root is a unit. -/
theorem coprime (n : ℕ) {b : ℕ} (roots : Roots z s count) (inside : b < count)
    (unit : IsUnit (2 * s (count + b))) :
    IsCoprime (X ^ n - C (z (2 * (count + b))) : R[X]) (X ^ n - C (z (2 * (count + b) + 1))) := by
  obtain ⟨r, inverse⟩ := unit.exists_right_inv
  refine ⟨-C r, C r, ?_⟩
  rw [roots.left b inside, roots.right b inside, C_neg]
  have one : (C (2 * s (count + b)) * C r : R[X]) = 1 := by rw [← C_mul, inverse, C_1]
  rw [C_mul, map_ofNat C 2] at one
  linear_combination one

/-- What all moduli of a level divide, the moduli above divide. -/
theorem dvd_above {D : R[X]} (roots : Roots z s count) (units : ∀ b < count, IsUnit (2 * s (count + b)))
    (below : ∀ c < 2 * count, X ^ n - C (z (2 * count + c)) ∣ D) :
    ∀ b < count, X ^ (2 * n) - C (z (count + b)) ∣ D := by
  intro b inside
  rw [factor roots inside]
  apply (coprime n roots inside (units b inside)).mul_dvd
  · have first := below (2 * b) (by omega)
    rwa [show 2 * count + 2 * b = 2 * (count + b) by ring] at first
  · have second := below (2 * b + 1) (by omega)
    rwa [show 2 * count + (2 * b + 1) = 2 * (count + b) + 1 by ring] at second

/-- What all moduli at the bottom divide, the modulus at the top divides. -/
theorem dvd_top {D : R[X]} {levels : ℕ} (roots : ∀ e < levels, Roots z s (2 ^ e))
    (units : ∀ e < levels, ∀ b < 2 ^ e, IsUnit (2 * s (2 ^ e + b)))
    (bottom : ∀ c < 2 ^ levels, X ^ n - C (z (2 ^ levels + c)) ∣ D) :
    X ^ (2 ^ levels * n) - C (z 1) ∣ D := by
  induction levels generalizing n with
  | zero =>
    have only := bottom 0 (by norm_num)
    rw [pow_zero, one_mul]
    rwa [pow_zero, Nat.add_zero] at only
  | succ levels ih =>
    rw [pow_succ, Nat.mul_assoc]
    apply ih (fun e less => roots e (by omega)) (fun e less => units e (by omega))
    apply dvd_above (roots levels (by omega)) (units levels (by omega))
    rw [pow_succ, Nat.mul_comm (2 ^ levels) 2] at bottom
    exact bottom

end E2eeProxy.Lib.Splitting
