import E2eeProxy.Lib.Splitting
import E2eeProxy.Mlkem.Reduce

/-! # Polynomials

The type `poly` of poly.h and the functions of poly.c that work on one coefficient after
the other.
-/

namespace E2eeProxy.Mlkem

open Polynomial Lib.Splitting

/-- `KYBER_N` coefficients. -/
@[ext] structure Poly where
  coeffs : Vector Int16 256
  deriving DecidableEq

namespace Poly

def coeff (r : Poly) (i : ℕ) : Int16 := r.coeffs[i]?.getD 0

def set (r : Poly) (i : ℕ) (v : Int16) : Poly := ⟨r.coeffs.setIfInBounds i v⟩

def ofFn (f : ℕ → Int16) : Poly := ⟨Vector.ofFn fun i => f i⟩

def zero : Poly := ofFn fun _ => 0

def reduce (r : Poly) : Poly := ofFn fun i => barrettReduce (r.coeff i)

def tomont (r : Poly) : Poly :=
  let f : Int16 := Int16.ofNat (2 ^ 32 % 3329)
  ofFn fun i => montgomeryReduce ((r.coeff i).toInt32 * f.toInt32)

def add (a b : Poly) : Poly := ofFn fun i => a.coeff i + b.coeff i

def sub (a b : Poly) : Poly := ofFn fun i => a.coeff i - b.coeff i

variable {r a b : Poly} {i j : ℕ} {v : Int16}

theorem ext_coeff (same : ∀ i < 256, a.coeff i = b.coeff i) : a = b := by
  apply Poly.ext
  apply Vector.ext
  intro i small
  have here := same i small
  unfold coeff at here
  rwa [Vector.getElem?_eq_getElem small, Vector.getElem?_eq_getElem small] at here

@[simp] theorem coeff_ofFn {f : ℕ → Int16} (small : i < 256) : (ofFn f).coeff i = f i := by
  simp only [coeff, ofFn, Vector.getElem?_eq_getElem small, Vector.getElem_ofFn, Option.getD_some]

theorem coeff_set (small : i < 256) : (r.set i v).coeff j = if j = i then v else r.coeff j := by
  unfold coeff set
  rw [Vector.getElem?_setIfInBounds]
  by_cases same : i = j
  · rw [if_pos same, if_pos same.symm, if_pos small, Option.getD_some]
  · rw [if_neg same, if_neg (Ne.symm same)]

/-! ## Classes modulo q -/

/-- The classes of the coefficients. -/
def residues (r : Poly) (i : ℕ) : Zq := residue (r.coeff i)

/-- All coefficients are bounded. -/
def Bounded (bound : ℤ) (r : Poly) : Prop := ∀ i < 256, Within bound (r.coeff i)

/-- The polynomial over the integers modulo `q`. -/
noncomputable def poly (r : Poly) : Zq[X] := segment r.residues 0 256

theorem Bounded.mono {bound bound' : ℤ} (bounded : Bounded bound r) (le : bound ≤ bound') :
    Bounded bound' r := fun i small => (bounded i small).mono le

theorem bounded_zero : zero.Bounded 3328 := by
  intro i small
  rw [zero, coeff_ofFn small]
  decide

theorem poly_congr (same : ∀ i < 256, a.residues i = b.residues i) : a.poly = b.poly :=
  segment_congr fun i small => by rw [Nat.zero_add, same i small]

theorem poly_combine {c d : Zq} (each : ∀ i < 256, r.residues i = c * a.residues i + d * b.residues i) :
    r.poly = C c * a.poly + C d * b.poly := by
  unfold poly
  rw [← segment_combine]
  apply segment_congr
  intro i small
  simp only [Nat.zero_add]
  exact each i small

theorem bounded_reduce : Bounded 1664 r.reduce := by
  intro i small
  rw [reduce, coeff_ofFn small]
  exact barrettReduce_within _

@[simp] theorem residues_reduce (small : i < 256) : r.reduce.residues i = r.residues i := by
  rw [residues, reduce, coeff_ofFn small, residue_barrettReduce]
  rfl

@[simp] theorem poly_reduce : r.reduce.poly = r.poly := poly_congr fun _ => residues_reduce

theorem montFactor_within : Within 3328 (Int16.ofNat (2 ^ 32 % 3329)) := by decide

theorem coeff_tomont (small : i < 256) :
    r.tomont.coeff i = fqmul (Int16.ofNat (2 ^ 32 % 3329)) (r.coeff i) := by
  rw [fqmul_comm, tomont, coeff_ofFn small, fqmul]

theorem bounded_tomont : Bounded 3328 r.tomont := by
  intro i small
  rw [coeff_tomont small]
  exact fqmul_within montFactor_within

theorem residues_tomont (small : i < 256) : r.tomont.residues i = 65536 * r.residues i := by
  have square : residue (Int16.ofNat (2 ^ 32 % 3329)) = 65536 * 65536 := by decide
  unfold residues
  rw [coeff_tomont small, residue_fqmul montFactor_within, square]
  linear_combination 65536 * residue (r.coeff i) * rinv_mul

section Sum

variable {bound bound' : ℤ} (first : Bounded bound a) (second : Bounded bound' b)
  (fits : bound + bound' ≤ 32767)
include first second fits

theorem bounded_add : Bounded (bound + bound') (a.add b) := by
  intro i small
  rw [add, coeff_ofFn small]
  exact (first i small).add (second i small) fits

theorem residues_add {i : ℕ} (small : i < 256) :
    (a.add b).residues i = a.residues i + b.residues i := by
  rw [residues, add, coeff_ofFn small, residue_add (first i small) (second i small) fits]
  rfl

theorem residues_sub {i : ℕ} (small : i < 256) :
    (a.sub b).residues i = a.residues i - b.residues i := by
  rw [residues, sub, coeff_ofFn small, residue_sub (first i small) (second i small) fits]
  rfl

theorem poly_add : (a.add b).poly = a.poly + b.poly := by
  rw [poly_combine (c := 1) (d := 1) (a := a) (b := b), C_1, one_mul, one_mul]
  intro i small
  rw [residues_add first second fits small, one_mul, one_mul]

theorem poly_sub : (a.sub b).poly = a.poly - b.poly := by
  rw [poly_combine (c := 1) (d := -1) (a := a) (b := b), C_neg, C_1, one_mul, neg_mul, one_mul,
    sub_eq_add_neg]
  intro i small
  rw [residues_sub first second fits small, one_mul, neg_mul, one_mul, sub_eq_add_neg]

end Sum

end Poly

end E2eeProxy.Mlkem
