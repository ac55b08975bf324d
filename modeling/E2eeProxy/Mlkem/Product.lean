import E2eeProxy.Mlkem.Transform
import Mathlib.RingTheory.AdjoinRoot

/-! # The inverse transform and products

A product of transforms, transformed back, is the product modulo `X ^ 256 + 1`.
-/

namespace E2eeProxy.Mlkem

open Polynomial Lib.Splitting

/-! ## Backwards -/

theorem level_inverseButterfly {len count : ℕ} (size : count * len = 128) {r : Poly} {bound : ℤ}
    (bounded : r.Bounded bound) (fits : bound + bound ≤ 32767) :
    (level (· - 1) inverseButterfly len (2 * count - 1) r).1 = count - 1 ∧
      (level (· - 1) inverseButterfly len (2 * count - 1) r).2.Bounded 3328 ∧
      Joins (fun b => root (2 * count - 1 - b)) len count r.residues
        (level (· - 1) inverseButterfly len (2 * count - 1) r).2.residues := by
  obtain ⟨index, pairs⟩ := coeff_level pairwise_inverseButterfly (· - 1) size (2 * count - 1) r
  have next (b k : ℕ) : (· - 1)^[b] k = k - b := by
    induction b generalizing k with
    | zero => rfl
    | succ b ih => rw [Function.iterate_succ_apply, ih, Nat.sub_sub, Nat.add_comm 1 b]
  refine ⟨?_, ?_, ?_⟩
  · rw [index, next]
    omega
  · intro i small
    obtain ⟨b, inside, j, smaller, position⟩ := pair_of size small
    obtain ⟨first, second⟩ := pairs b inside j smaller
    rcases position with rfl | rfl
    · rw [first]
      exact (barrettReduce_within _).mono (by norm_num)
    · rw [second]
      exact fqmul_within (zetas_within _)
  · intro b inside j smaller
    have within := pair_inside size inside smaller
    obtain ⟨first, second⟩ := pairs b inside j smaller
    have here := bounded (b * (2 * len) + j) (by omega)
    have there := bounded (b * (2 * len) + len + j) (by omega)
    unfold Poly.residues
    rw [first, second, residue_barrettReduce, residue_add here there fits,
      residue_fqmul (zetas_within _), residue_sub there here fits, next]
    unfold root
    exact ⟨rfl, by ring⟩

/-- What the levels make has the given residues, up to a factor of two for each level. -/
theorem invnttLevels_spec {levels e : ℕ} (sum : e + levels = 8) (started : 0 < e) {r : Poly} {bound : ℤ}
    (bounded : r.Bounded bound) (enough : 3328 ≤ bound) (fits : bound + bound ≤ 32767) :
    (invnttLevels levels e (2 ^ levels - 1) r).Bounded bound ∧
      Residues moduli (2 ^ e) (2 ^ levels) (invnttLevels levels e (2 ^ levels - 1) r).poly
        fun i => 2 ^ levels * r.residues i := by
  induction levels generalizing e r with
  | zero =>
    obtain rfl : e = 8 := sum
    refine ⟨bounded, ?_⟩
    simp only [pow_zero, one_mul]
    exact residues_top moduli 256 r.residues
  | succ levels ih =>
    have size : 2 ^ levels * 2 ^ e = 128 := by
      rw [← pow_add, show levels + e = 7 by omega]
      norm_num
    have small : 2 ^ levels ≤ 64 := by
      have := Nat.pow_le_pow_right (show 0 < 2 by omega) (show levels ≤ 6 by omega)
      omega
    obtain ⟨index, bounded', joins⟩ := level_inverseButterfly size bounded fits
    rw [pow_succ, Nat.mul_comm (2 ^ levels) 2]
    unfold invnttLevels
    dsimp only
    generalize level (· - 1) inverseButterfly (2 ^ e) (2 * 2 ^ levels - 1) r = after
      at index bounded' joins ⊢
    rw [index]
    obtain ⟨bounded'', residues⟩ := ih (e := e + 1) (by omega) (by omega) (bounded'.mono enough)
    have splits := (joins.splits (root_mirror levels (by omega))).scale (2 ^ levels)
    rw [pow_succ, Nat.mul_comm (2 ^ e) 2] at residues
    refine ⟨bounded'', (residues.split (roots_level (Nat.two_pow_pos levels) small) splits).congr ?_⟩
    intro i _
    ring

theorem invntt_spec {r : Poly} (bounded : r.Bounded 16383) :
    (invntt r).Bounded 3328 ∧ Hat 65536 (invntt r).poly r := by
  obtain ⟨-, residues⟩ := invnttLevels_spec (show 1 + 7 = 8 from rfl) (by omega) bounded (by norm_num)
    (by norm_num)
  have factor : Within 3328 1441 := by decide
  have final (i : ℕ) (small : i < 256) :
      (invntt r).coeff i = fqmul 1441 ((invnttLevels 7 1 127 r).coeff i) := by
    rw [fqmul_comm, invntt, Poly.coeff_ofFn small]
  constructor
  · intro i small
    rw [final i small]
    exact fqmul_within factor
  · have scaled : (invntt r).poly = C (residue 1441 * rinv) * (invnttLevels 7 1 127 r).poly := by
      rw [Poly.poly_combine (c := residue 1441 * rinv) (d := 0) (a := invnttLevels 7 1 127 r)
        (b := invnttLevels 7 1 127 r), C_0, zero_mul, add_zero]
      intro i small
      unfold Poly.residues
      rw [final i small, residue_fqmul factor]
      ring
    unfold Hat
    rw [scaled]
    refine (residues.scale (residue 1441 * rinv)).congr ?_
    intro i _
    rw [← mul_assoc, show residue 1441 * rinv * 2 ^ 7 = 65536 by decide]

/-! ## Products -/

theorem root_unit {e b : ℕ} (small : e < 7) (inside : b < 2 ^ e) : IsUnit (2 * root (2 ^ e + b)) := by
  have one : (3330 : Zq) = 1 := by decide
  apply IsUnit.of_mul_eq_one (-1665 * root (2 * 2 ^ e - 1 - b))
  linear_combination -3330 * root_mirror e small b inside + one

/-- Two polynomials with the same transform agree modulo `X ^ 256 + 1`. -/
theorem Hat.unique {c : Zq} {P Q : Zq[X]} {r : Poly} (first : Hat c P r) (second : Hat c Q r) :
    X ^ 256 + 1 ∣ P - Q := by
  have roots (e : ℕ) (small : e < 7) : Roots moduli root (2 ^ e) := by
    apply roots_level (Nat.two_pow_pos e)
    have := Nat.pow_le_pow_right (show 0 < 2 by omega) (show e ≤ 6 by omega)
    omega
  have top := dvd_top roots (fun e small b inside => root_unit small inside)
    (first.agree second)
  have whole : (X ^ (2 ^ 7 * 2) - C (moduli 1) : Zq[X]) = X ^ 256 + 1 := by
    simp [moduli, constant]
  rwa [whole] at top

namespace Poly

/-- `poly_ntt`. -/
def ntt (r : Poly) : Poly := (Mlkem.ntt r).reduce

/-- `poly_invntt_tomont`. -/
def invnttTomont (r : Poly) : Poly := Mlkem.invntt r

/-- `poly_basemul_montgomery`, by pairs of coefficients. Two calls share a root, the second
    with its negative. -/
def basemulMontgomery (a b : Poly) : Poly :=
  ofFn fun k =>
    let i := k / 2
    let zeta := if i % 2 = 0 then zetas (64 + i / 2) else -zetas (64 + i / 2)
    let r := basemul (a.coeff (2 * i)) (a.coeff (2 * i + 1)) (b.coeff (2 * i)) (b.coeff (2 * i + 1)) zeta
    if k % 2 = 0 then r.1 else r.2

end Poly

/-- The polynomials modulo `X ^ 256 + 1`. -/
abbrev Rq := AdjoinRoot (X ^ 256 + 1 : Zq[X])

noncomputable def Poly.ring (r : Poly) : Rq := AdjoinRoot.mk _ r.poly

section Basemul

variable (a₀ a₁ : Int16) {b₀ b₁ zeta : Int16} (first : Within 3328 b₀) (second : Within 3328 b₁)
  (isRoot : Within 3328 zeta)
include first second isRoot

theorem basemul_within :
    Within 6656 (basemul a₀ a₁ b₀ b₁ zeta).1 ∧ Within 6656 (basemul a₀ a₁ b₀ b₁ zeta).2 := by
  unfold basemul
  dsimp only
  rw [fqmul_comm a₁ b₁, fqmul_comm _ zeta, fqmul_comm a₀ b₀, fqmul_comm a₀ b₁, fqmul_comm a₁ b₀]
  constructor
  · exact (fqmul_within isRoot).add (fqmul_within first) (by norm_num)
  · exact (fqmul_within second).add (fqmul_within first) (by norm_num)

theorem residue_basemul :
    residue (basemul a₀ a₁ b₀ b₁ zeta).1 = (residue a₀ * residue b₀ +
        residue zeta * rinv * (residue a₁ * residue b₁)) * rinv ∧
      residue (basemul a₀ a₁ b₀ b₁ zeta).2 =
        (residue a₀ * residue b₁ + residue a₁ * residue b₀) * rinv := by
  unfold basemul
  dsimp only
  rw [fqmul_comm a₁ b₁, fqmul_comm _ zeta, fqmul_comm a₀ b₀, fqmul_comm a₀ b₁, fqmul_comm a₁ b₀,
    residue_add (fqmul_within isRoot) (fqmul_within first) (by norm_num),
    residue_add (fqmul_within second) (fqmul_within first) (by norm_num), residue_fqmul isRoot,
    residue_fqmul second, residue_fqmul first, residue_fqmul second, residue_fqmul first]
  constructor <;> ring

end Basemul

/-- The root of a pair, as `poly_basemul_montgomery` picks it. -/
def pairRoot (i : ℕ) : Int16 := if i % 2 = 0 then zetas (64 + i / 2) else -zetas (64 + i / 2)

theorem residue_neg {a : Int16} (within : Within 3328 a) :
    Within 3328 (-a) ∧ residue (-a) = -residue a := by
  have low := within.low
  have high := within.high
  have value : (-a).toInt = -a.toInt := by
    rw [Int16.toInt_neg, Int.bmod_eq_of_le (by omega) (by omega)]
  unfold residue
  rw [value, Int.cast_neg]
  exact ⟨⟨by omega, by omega⟩, rfl⟩

theorem pairRoot_within (i : ℕ) : Within 3328 (pairRoot i) := by
  unfold pairRoot
  split
  · exact zetas_within _
  · exact (residue_neg (zetas_within _)).1

theorem residue_pairRoot {i : ℕ} (small : i < 128) : residue (pairRoot i) * rinv = moduli (128 + i) := by
  obtain ⟨k, parity⟩ := Nat.even_or_odd' i
  have roots := roots_level (show 0 < 64 by omega) le_rfl
  unfold pairRoot
  rcases parity with rfl | rfl
  · rw [if_pos (by omega), show 2 * k / 2 = k by omega, show 128 + 2 * k = 2 * (64 + k) by ring,
      roots.left k (by omega)]
    rfl
  · rw [if_neg (by omega), show (2 * k + 1) / 2 = k by omega, (residue_neg (zetas_within _)).2,
      show 128 + (2 * k + 1) = 2 * (64 + k) + 1 by ring, roots.right k (by omega), neg_mul]
    rfl

section Products

variable {a b : Poly} {c d : Zq} {P Q : Zq[X]}

theorem coeff_basemulMontgomery {k : ℕ} (small : k < 256) :
    (a.basemulMontgomery b).coeff k =
      let r := basemul (a.coeff (2 * (k / 2))) (a.coeff (2 * (k / 2) + 1)) (b.coeff (2 * (k / 2)))
        (b.coeff (2 * (k / 2) + 1)) (pairRoot (k / 2))
      if k % 2 = 0 then r.1 else r.2 := by
  rw [Poly.basemulMontgomery, Poly.coeff_ofFn small]
  rfl

theorem bounded_basemulMontgomery (second : b.Bounded 3328) :
    (a.basemulMontgomery b).Bounded 6656 := by
  intro k small
  have both := basemul_within (a.coeff (2 * (k / 2))) (a.coeff (2 * (k / 2) + 1))
    (second (2 * (k / 2)) (by omega)) (second (2 * (k / 2) + 1) (by omega)) (pairRoot_within (k / 2))
  rw [coeff_basemulMontgomery small]
  dsimp only
  split
  · exact both.1
  · exact both.2

/-- Transforms are multiplied pair by pair. -/
theorem Hat.mul (first : Hat c P a) (second : Hat d Q b) (bounded : b.Bounded 3328) :
    Hat (c * d * 65536) (P * Q) (a.basemulMontgomery b) := by
  refine Residues.mul first second fun i small => ?_
  have isRoot := residue_pairRoot small
  obtain ⟨low, high⟩ := residue_basemul (a.coeff (2 * i)) (a.coeff (2 * i + 1))
    (bounded (2 * i) (by omega)) (bounded (2 * i + 1) (by omega)) (pairRoot_within i)
  unfold Poly.residues
  rw [coeff_basemulMontgomery (by omega), coeff_basemulMontgomery (by omega),
    show 2 * i / 2 = i by omega, show (2 * i + 1) / 2 = i by omega]
  dsimp only
  rw [if_pos (by omega), if_neg (by omega), low, high, isRoot]
  constructor
  · linear_combination c * d * (residue (a.coeff (2 * i)) * residue (b.coeff (2 * i)) +
      moduli (128 + i) * (residue (a.coeff (2 * i + 1)) * residue (b.coeff (2 * i + 1)))) * rinv_mul
  · linear_combination c * d * (residue (a.coeff (2 * i)) * residue (b.coeff (2 * i + 1)) +
      residue (a.coeff (2 * i + 1)) * residue (b.coeff (2 * i))) * rinv_mul

theorem Hat.ring_eq {r : Poly} (first : Hat c a.poly r) (second : Hat c P r) :
    a.ring = AdjoinRoot.mk _ P := AdjoinRoot.mk_eq_mk.mpr (first.unique second)

theorem Hat.congr {r r' : Poly} (hat : Hat c P r) (same : ∀ i < 256, r'.residues i = r.residues i) :
    Hat c P r' :=
  Residues.congr hat fun i small => by rw [same i small]

theorem hat_ntt {r : Poly} (bounded : r.Bounded 9471) : Hat 1 r.poly r.ntt :=
  (ntt_spec bounded).2.congr fun _ small => Poly.residues_reduce small

/-- The product of two transforms, transformed back, is the product modulo `X ^ 256 + 1`. -/
theorem ntt_product (first : a.Bounded 9471) (second : b.Bounded 9471) :
    (a.ntt.basemulMontgomery b.ntt).reduce.invnttTomont.ring = a.ring * b.ring := by
  have product := (hat_ntt first).mul (hat_ntt second) (Poly.bounded_reduce.mono (by norm_num))
  have back := invntt_spec ((Poly.bounded_reduce (r := a.ntt.basemulMontgomery b.ntt)).mono
    (by norm_num : (1664 : ℤ) ≤ 16383))
  have same : Hat _ _ (a.ntt.basemulMontgomery b.ntt).reduce := product.congr fun _ small =>
    Poly.residues_reduce small
  rw [one_mul, one_mul] at same
  exact back.2.ring_eq same

end Products

theorem ntt_product_ones :
    let ones : Poly := .ofFn fun _ => 1
    (ones.ntt.basemulMontgomery ones.ntt).reduce.invnttTomont.ring = ones.ring * ones.ring :=
  have bounded : (Poly.ofFn fun _ => 1).Bounded 9471 := by
    intro i small
    rw [Poly.coeff_ofFn small]
    decide
  ntt_product bounded bounded

end E2eeProxy.Mlkem
