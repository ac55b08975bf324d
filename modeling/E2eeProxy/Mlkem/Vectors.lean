import E2eeProxy.Mlkem.Message
import E2eeProxy.Mlkem.Product

/-! # Vectors of polynomials

polyvec.c. What the transformed polynomials stand for are elements of `Rq`, of which the
code computes sums of products.
-/

namespace E2eeProxy.Mlkem

open Polynomial Lua Lib.Groups Lib.Splitting

namespace PolyVec

def tobytes (a : PolyVec) : Bytes := (a 0).tobytes ++ (a 1).tobytes ++ (a 2).tobytes

def frombytes (a : Bytes) : PolyVec := fun i => Poly.frombytes (a.drop (i * 384))

def compress (a : PolyVec) : Bytes := (a 0).compressVec ++ (a 1).compressVec ++ (a 2).compressVec

def decompress (a : Bytes) : PolyVec := fun i => Poly.decompressVec (a.drop (i * 320))

def ntt (r : PolyVec) : PolyVec := fun i => (r i).ntt

def invnttTomont (r : PolyVec) : PolyVec := fun i => (r i).invnttTomont

def reduce (r : PolyVec) : PolyVec := fun i => (r i).reduce

def add (a b : PolyVec) : PolyVec := fun i => (a i).add (b i)

/-- `polyvec_basemul_acc_montgomery`. -/
def basemulAcc (a b : PolyVec) : Poly :=
  let r := (a 0).basemulMontgomery (b 0)
  let r := r.add ((a 1).basemulMontgomery (b 1))
  let r := r.add ((a 2).basemulMontgomery (b 2))
  r.reduce

end PolyVec

/-! ## Coefficients of ring elements -/

instance : Nontrivial Zq := ZMod.nontrivial_iff.mpr (by decide)

theorem monic_top {n : ℕ} (positive : n ≠ 0) : (X ^ n + 1 : Zq[X]).Monic := by
  have monic := monic_X_pow_add_C (1 : Zq) positive
  rwa [C_1] at monic

theorem degree_top {n : ℕ} (positive : 0 < n) : (X ^ n + 1 : Zq[X]).degree = n := by
  have degree := degree_X_pow_add_C positive (1 : Zq)
  rwa [C_1] at degree

theorem monic_modulus : (X ^ 256 + 1 : Zq[X]).Monic := monic_top (by norm_num)

theorem degree_modulus : (X ^ 256 + 1 : Zq[X]).degree = (256 : ℕ) := degree_top (by norm_num)

noncomputable def coefficient (k : ℕ) (x : Rq) : Zq := (AdjoinRoot.modByMonicHom monic_modulus x).coeff k

theorem coefficient_add (k : ℕ) (x y : Rq) : coefficient k (x + y) = coefficient k x + coefficient k y := by
  simp [coefficient]

theorem coefficient_sub (k : ℕ) (x y : Rq) : coefficient k (x - y) = coefficient k x - coefficient k y := by
  simp [coefficient]

theorem coefficient_ring (r : Poly) {k : ℕ} (small : k < 256) : coefficient k r.ring = r.residues k := by
  have low : r.poly.degree < (X ^ 256 + 1 : Zq[X]).degree := by
    rw [degree_modulus, Poly.poly, degree_lt_iff_coeff_zero]
    intro m large
    rw [Lib.Splitting.segment, finsetSum_coeff]
    apply Finset.sum_eq_zero
    intro i mem
    have less := Finset.mem_range.mp mem
    rw [coeff_C_mul_X_pow, if_neg (by omega)]
  rw [coefficient, Poly.ring, AdjoinRoot.modByMonicHom_mk, (modByMonic_eq_self_iff monic_modulus).mpr low,
    Poly.poly, coeff_segment 0 small, Nat.zero_add]

/-! ## What a transform stands for -/

/-- `r` is the transform of `x`, up to a factor. -/
def Represents (c : Zq) (x : Rq) (r : Poly) : Prop := ∃ P, AdjoinRoot.mk _ P = x ∧ Hat c P r

variable {c d : Zq} {x y : Rq} {r r' a b : Poly}

theorem represents_ntt (bounded : r.Bounded 9471) : Represents 1 r.ring r.ntt :=
  ⟨r.poly, rfl, hat_ntt bounded⟩

theorem Represents.mul (first : Represents c x a) (second : Represents d y b) (bounded : b.Bounded 3328) :
    Represents (c * d * 65536) (x * y) (a.basemulMontgomery b) := by
  obtain ⟨P, rfl, hat⟩ := first
  obtain ⟨Q, rfl, hat'⟩ := second
  exact ⟨P * Q, map_mul _ P Q, hat.mul hat' bounded⟩

theorem Represents.add {bound bound' : ℤ} (first : Represents c x a) (second : Represents c y b)
    (bounded : a.Bounded bound) (bounded' : b.Bounded bound') (fits : bound + bound' ≤ 32767) :
    Represents c (x + y) (a.add b) := by
  obtain ⟨P, rfl, hat⟩ := first
  obtain ⟨Q, rfl, hat'⟩ := second
  refine ⟨P + Q, map_add _ P Q, (Residues.add hat hat').congr fun i small => ?_⟩
  rw [Poly.residues_add bounded bounded' fits small, mul_add]

theorem Represents.congr (represents : Represents c x r)
    (same : ∀ i < 256, r'.residues i = r.residues i) : Represents c x r' := by
  obtain ⟨P, rfl, hat⟩ := represents
  exact ⟨P, rfl, hat.congr same⟩

theorem Represents.reduce (represents : Represents c x r) : Represents c x r.reduce :=
  represents.congr fun _ => Poly.residues_reduce

/-- The conversion makes up for the factor of a product. -/
theorem Represents.tomont (represents : Represents 65536 x r) : Represents 1 x r.tomont := by
  obtain ⟨P, rfl, hat⟩ := represents
  refine ⟨P, rfl, Residues.congr hat fun i small => ?_⟩
  rw [Poly.residues_tomont small, one_mul]

theorem Represents.invntt (represents : Represents 65536 x r) (bounded : r.Bounded 16383) :
    r.invnttTomont.ring = x := by
  obtain ⟨P, rfl, hat⟩ := represents
  exact (invntt_spec bounded).2.ring_eq hat

theorem bounded_invnttTomont (bounded : r.Bounded 16383) : r.invnttTomont.Bounded 3328 :=
  (invntt_spec bounded).1

/-- Everything in range is the transform of something. -/
theorem exists_represents (bounded : r.Bounded 16383) : ∃ x, Represents 1 x r := by
  refine ⟨AdjoinRoot.mk _ (C rinv * (invntt r).poly), _, rfl, ?_⟩
  have hat := Residues.scale (invntt_spec bounded).2 rinv
  exact Residues.congr hat fun i _ => by rw [← mul_assoc, rinv_mul]

/-- Rows times columns. -/
theorem represents_basemulAcc {a b : PolyVec} {x y : Fin 3 → Rq} (first : ∀ i, Represents 1 (x i) (a i))
    (second : ∀ i, Represents 1 (y i) (b i)) (bounded : ∀ i, (b i).Bounded 3328) :
    Represents 65536 (∑ i, x i * y i) (a.basemulAcc b) := by
  have product (i : Fin 3) : Represents 65536 (x i * y i) ((a i).basemulMontgomery (b i)) := by
    have here := (first i).mul (second i) (bounded i)
    rwa [one_mul, one_mul] at here
  have range (i : Fin 3) : ((a i).basemulMontgomery (b i)).Bounded 6656 :=
    bounded_basemulMontgomery (bounded i)
  rw [Fin.sum_univ_three]
  have two := (product 0).add (product 1) (range 0) (range 1) (by norm_num)
  have both := Poly.bounded_add (range 0) (range 1) (by norm_num)
  exact (two.add (product 2) both (range 2) (by norm_num)).reduce

theorem bounded_basemulAcc {a b : PolyVec} : (a.basemulAcc b).Bounded 1664 := Poly.bounded_reduce

end E2eeProxy.Mlkem
