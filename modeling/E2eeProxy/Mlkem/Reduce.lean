import Mathlib.Data.ZMod.Basic
import Mathlib.Tactic.Linarith
import Mathlib.Tactic.LinearCombination
import Mathlib.Tactic.NormNum
import Mathlib.Tactic.Ring

/-! # Reductions modulo q

reduce.c of ML-KEM-768. Coefficients are 16-bit integers of which only the class modulo
`q` matters. What the code computes in an `int` has 32 bits here.
-/

namespace E2eeProxy.Mlkem

/-- `KYBER_Q`. -/
abbrev q : ℕ := 3329

abbrev Zq := ZMod q

def qinv : Int32 := -3327

def montgomeryReduce (a : Int32) : Int16 :=
  let t : Int16 := (a.toInt16.toInt32 * qinv).toInt16
  ((a - t.toInt32 * 3329) >>> 16).toInt16

def barrettReduce (a : Int16) : Int16 :=
  let v : Int16 := ((((1 : Int32) <<< 26) + 3329 / 2) / 3329).toInt16
  let t : Int16 := ((v.toInt32 * a.toInt32 + ((1 : Int32) <<< 25)) >>> 26).toInt16
  let t : Int16 := (t.toInt32 * 3329).toInt16
  (a.toInt32 - t.toInt32).toInt16

/-- `fqmul` of ntt.c. -/
def fqmul (a b : Int16) : Int16 := montgomeryReduce (a.toInt32 * b.toInt32)

/-- The class of a coefficient. -/
def residue (a : Int16) : Zq := (a.toInt : Zq)

/-- A bound on the absolute value. -/
structure Within (bound : ℤ) (a : Int16) : Prop where
  low : -bound ≤ a.toInt
  high : a.toInt ≤ bound

instance (bound : ℤ) (a : Int16) : Decidable (Within bound a) :=
  decidable_of_iff (-bound ≤ a.toInt ∧ a.toInt ≤ bound) ⟨fun h => ⟨h.1, h.2⟩, fun h => ⟨h.1, h.2⟩⟩

/-- The inverse of `2 ^ 16`, which a Montgomery reduction multiplies by. -/
def rinv : Zq := 169

theorem rinv_mul : rinv * 65536 = 1 := by decide

theorem Within.mono {bound bound' : ℤ} {a : Int16} (within : Within bound a) (le : bound ≤ bound') :
    Within bound' a := ⟨by have := within.low; omega, by have := within.high; omega⟩

/-! ## Arithmetic without overflow -/

section Exact

variable {a b : Int16} {c d : Int32} {x y : ℤ}

theorem add16 (first : a.toInt = x) (second : b.toInt = y) (low : -32768 ≤ x + y)
    (high : x + y ≤ 32767) : (a + b).toInt = x + y := by
  rw [Int16.toInt_add, first, second, Int.bmod_eq_of_le (by omega) (by omega)]

theorem sub16 (first : a.toInt = x) (second : b.toInt = y) (low : -32768 ≤ x - y)
    (high : x - y ≤ 32767) : (a - b).toInt = x - y := by
  rw [Int16.toInt_sub, first, second, Int.bmod_eq_of_le (by omega) (by omega)]

theorem widen (value : a.toInt = x) : a.toInt32.toInt = x := (Int16.toInt_toInt32 a).trans value

theorem narrow (value : c.toInt = x) (low : -32768 ≤ x) (high : x ≤ 32767) : c.toInt16.toInt = x := by
  rw [Int32.toInt_toInt16, value, Int.bmod_eq_of_le (by omega) (by omega)]

theorem narrow_wraps (value : c.toInt = x) : c.toInt16.toInt = x.bmod 65536 := by
  rw [Int32.toInt_toInt16, value]

theorem add32 (first : c.toInt = x) (second : d.toInt = y) (low : -2147483648 ≤ x + y)
    (high : x + y ≤ 2147483647) : (c + d).toInt = x + y := by
  rw [Int32.toInt_add, first, second, Int.bmod_eq_of_le (by omega) (by omega)]

theorem sub32 (first : c.toInt = x) (second : d.toInt = y) (low : -2147483648 ≤ x - y)
    (high : x - y ≤ 2147483647) : (c - d).toInt = x - y := by
  rw [Int32.toInt_sub, first, second, Int.bmod_eq_of_le (by omega) (by omega)]

theorem mul32 (first : c.toInt = x) (second : d.toInt = y) (low : -2147483648 ≤ x * y)
    (high : x * y ≤ 2147483647) : (c * d).toInt = x * y := by
  rw [Int32.toInt_mul, first, second, Int.bmod_eq_of_le (by omega) (by omega)]

theorem shiftRight32 {k : Int32} {m : ℕ} (value : c.toInt = x)
    (amount : k.toBitVec.smod 32 = BitVec.ofNat 32 m := by decide) (small : m < 32 := by decide) :
    (c >>> k).toInt = x / 2 ^ m := by
  change (c.toBitVec.sshiftRight' (k.toBitVec.smod 32)).toInt = _
  rw [amount, BitVec.sshiftRight_eq', BitVec.toInt_sshiftRight, Int.shiftRight_eq_div_pow,
    BitVec.toNat_ofNat, Nat.mod_eq_of_lt (by omega), ← value]
  norm_cast

end Exact

/-! ## Montgomery -/

/-- The multiple of `q` that is taken away leaves a multiple of `2 ^ 16`. -/
theorem montgomery_divides (x : ℤ) :
    (65536 : ℤ) ∣ x - ((x.bmod 65536) * -3327).bmod 65536 * 3329 := by
  have first : ((65536 : ℕ) : ℤ) ∣ x.bmod 65536 - x := Int.dvd_bmod_sub_self
  have second : ((65536 : ℕ) : ℤ) ∣ ((x.bmod 65536) * -3327).bmod 65536 - (x.bmod 65536) * -3327 :=
    Int.dvd_bmod_sub_self
  omega

theorem montgomeryReduce_toInt {a : Int32} (low : -109084672 ≤ a.toInt) (high : a.toInt < 109084672) :
    ∃ t : ℤ, -32768 ≤ t ∧ t ≤ 32767 ∧
      (montgomeryReduce a).toInt * 65536 = a.toInt - t * 3329 := by
  have low' : -32768 ≤ a.toInt.bmod 65536 := Int.le_bmod (by decide)
  have high' : a.toInt.bmod 65536 < 32768 := Int.bmod_lt (by decide)
  have low'' : -32768 ≤ ((a.toInt.bmod 65536) * -3327).bmod 65536 := Int.le_bmod (by decide)
  have high'' : ((a.toInt.bmod 65536) * -3327).bmod 65536 < 32768 := Int.bmod_lt (by decide)
  have divides := montgomery_divides a.toInt
  refine ⟨((a.toInt.bmod 65536) * -3327).bmod 65536, low'', by omega, ?_⟩
  have product := mul32 (widen (narrow_wraps (c := a) rfl)) (show qinv.toInt = -3327 by decide)
    (by omega) (by omega)
  have taken := mul32 (widen (narrow_wraps product)) (show (3329 : Int32).toInt = 3329 by decide) (by omega) (by omega)
  have rest := sub32 (show a.toInt = a.toInt from rfl) taken (by omega) (by omega)
  have shifted := shiftRight32 (k := 16) (m := 16) rest
  have result := narrow shifted (by omega) (by omega)
  unfold montgomeryReduce
  dsimp only
  rw [result]
  omega

theorem residue_of_mul {a : Int16} {x t : ℤ} (exact : a.toInt * 65536 = x - t * 3329) :
    residue a = x * rinv := by
  have cast : ((a.toInt * 65536 : ℤ) : Zq) = ((x - t * 3329 : ℤ) : Zq) := by rw [exact]
  push_cast at cast
  rw [show (3329 : Zq) = 0 by decide] at cast
  unfold residue
  linear_combination rinv * cast - a.toInt * rinv_mul

theorem montgomeryReduce_within {a : Int32} (low : -109084672 ≤ a.toInt)
    (high : a.toInt < 109084672) : Within 3328 (montgomeryReduce a) := by
  obtain ⟨t, _, _, exact⟩ := montgomeryReduce_toInt low high
  constructor <;> omega

theorem residue_montgomeryReduce {a : Int32} (low : -109084672 ≤ a.toInt)
    (high : a.toInt < 109084672) : residue (montgomeryReduce a) = a.toInt * rinv := by
  obtain ⟨t, -, -, exact⟩ := montgomeryReduce_toInt low high
  exact residue_of_mul exact

theorem toInt_product (a b : Int16) : (a.toInt32 * b.toInt32).toInt = a.toInt * b.toInt := by
  have low := a.le_toInt
  have high := a.toInt_lt
  have low' := b.le_toInt
  have high' := b.toInt_lt
  exact mul32 (widen rfl) (widen rfl) (by nlinarith) (by nlinarith)

theorem fqmul_comm (a b : Int16) : fqmul a b = fqmul b a := by
  unfold fqmul
  rw [show a.toInt32 * b.toInt32 = b.toInt32 * a.toInt32 from Int32.mul_comm _ _]

section Product

variable {a b : Int16} (small : Within 3328 a)
include small

theorem product_range : -109084672 ≤ (a.toInt32 * b.toInt32).toInt ∧
    (a.toInt32 * b.toInt32).toInt < 109084672 := by
  have low := b.le_toInt
  have high := b.toInt_lt
  obtain ⟨low', high'⟩ := small
  rw [toInt_product]
  constructor <;> nlinarith

theorem fqmul_within : Within 3328 (fqmul a b) :=
  montgomeryReduce_within (product_range small).1 (product_range small).2

theorem residue_fqmul : residue (fqmul a b) = residue a * residue b * rinv := by
  rw [fqmul, residue_montgomeryReduce (product_range small).1 (product_range small).2, toInt_product,
    Int.cast_mul]
  rfl

end Product

/-! ## Barrett -/

/-- The multiple of `q` nearest to the input is taken away, whatever the input is. -/
theorem barrettReduce_toInt (a : Int16) :
    (barrettReduce a).toInt = a.toInt - (20159 * a.toInt + 33554432) / 67108864 * 3329 := by
  have low := a.le_toInt
  have high := a.toInt_lt
  unfold barrettReduce
  extract_lets v t t'
  have factor : v.toInt32.toInt = 20159 := by decide
  have half : ((1 : Int32) <<< 25).toInt = 33554432 := by decide
  have scaled := add32 (mul32 factor (widen (a := a) rfl) (by omega) (by omega)) half (by omega)
    (by omega)
  have quotient : t.toInt = (20159 * a.toInt + 33554432) / 2 ^ 26 :=
    narrow (shiftRight32 (k := 26) scaled) (by omega) (by omega)
  -- Ten times `q` does not fit; the two conversions make up for each other.
  have multiple : t'.toInt = ((20159 * a.toInt + 33554432) / 2 ^ 26 * 3329).bmod 65536 :=
    narrow_wraps (mul32 (widen quotient) (show (3329 : Int32).toInt = 3329 by decide) (by omega)
      (by omega))
  have low' : -32768 ≤ ((20159 * a.toInt + 33554432) / 2 ^ 26 * 3329).bmod 65536 :=
    Int.le_bmod (by decide)
  have high' : ((20159 * a.toInt + 33554432) / 2 ^ 26 * 3329).bmod 65536 < 32768 :=
    Int.bmod_lt (by decide)
  have difference := sub32 (widen (a := a) rfl) (widen multiple) (by omega) (by omega)
  rw [narrow_wraps difference, Int.sub_bmod_bmod, Int.bmod_eq_of_le (by omega) (by omega)]
  norm_num

theorem barrettReduce_within (a : Int16) : Within 1664 (barrettReduce a) := by
  have low := a.le_toInt
  have high := a.toInt_lt
  constructor
  · rw [barrettReduce_toInt]
    omega
  · rw [barrettReduce_toInt]
    omega

@[simp] theorem residue_barrettReduce (a : Int16) : residue (barrettReduce a) = residue a := by
  unfold residue
  rw [barrettReduce_toInt]
  push_cast
  rw [show (3329 : Zq) = 0 by decide, mul_zero, sub_zero]

section Sum

variable {a b : Int16} {x y : ℤ} (first : Within x a) (second : Within y b) (fits : x + y ≤ 32767)
include first second fits

theorem Within.add : Within (x + y) (a + b) := by
  obtain ⟨low, high⟩ := first
  obtain ⟨low', high'⟩ := second
  have value := add16 (a := a) (b := b) rfl rfl (by omega) (by omega)
  exact ⟨by omega, by omega⟩

theorem Within.sub : Within (x + y) (a - b) := by
  obtain ⟨low, high⟩ := first
  obtain ⟨low', high'⟩ := second
  have value := sub16 (a := a) (b := b) rfl rfl (by omega) (by omega)
  exact ⟨by omega, by omega⟩

theorem residue_add : residue (a + b) = residue a + residue b := by
  obtain ⟨low, high⟩ := first
  obtain ⟨low', high'⟩ := second
  unfold residue
  rw [add16 rfl rfl (by omega) (by omega), Int.cast_add]

theorem residue_sub : residue (a - b) = residue a - residue b := by
  obtain ⟨low, high⟩ := first
  obtain ⟨low', high'⟩ := second
  unfold residue
  rw [sub16 rfl rfl (by omega) (by omega), Int.cast_sub]

end Sum

end E2eeProxy.Mlkem
