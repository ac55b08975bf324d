import E2eeProxy.Mlkem.Encoding

/-! # Noise

cbd.c. Eight coefficients are made of 32 bits at once: pairs of bits are added in one
word, and the differences of neighbouring sums are the coefficients.
-/

namespace E2eeProxy.Mlkem

open Lua Lib.Groups

/-- `load32_littleendian (buf + i)`. -/
def load32LittleEndian (buf : Bytes) (i : ℕ) : UInt32 :=
  let x (k : ℕ) : UInt32 := UInt32.ofNat (entry buf (i + k))
  x 0 ||| x 1 <<< 8 ||| x 2 <<< 16 ||| x 3 <<< 24

/-- `d`, the sums of pairs of bits of `t`. -/
def pairWord (t : UInt32) : UInt32 :=
  let d := t &&& 0x55555555
  d + ((t >>> 1) &&& 0x55555555)

def cbd2 (buf : Bytes) : Poly :=
  Poly.ofFn fun k =>
    let d := pairWord (load32LittleEndian buf (4 * (k / 8)))
    let j := k % 8
    let a : Int16 := Int16.ofNat ((d >>> UInt32.ofNat (4 * j + 0)) &&& 0x3).toNat
    let b : Int16 := Int16.ofNat ((d >>> UInt32.ofNat (4 * j + 2)) &&& 0x3).toNat
    a - b

/-! ## Adding bits in a word -/

/-- Every second bit of so many pairs. -/
def evenBits : ℕ → ℕ
  | 0 => 0
  | n + 1 => 4 * evenBits n + 1

def pairSums (n t : ℕ) : ℕ := (t &&& evenBits n) + (t / 2 &&& evenBits n)

theorem and_evenBits (n t : ℕ) : t &&& evenBits (n + 1) = 4 * (t / 4 &&& evenBits n) + t % 2 := by
  have rest : (t &&& evenBits (n + 1)) / 4 = t / 4 &&& evenBits n := by
    rw [show (4 : ℕ) = 2 ^ 2 by norm_num, Nat.and_div_two_pow, evenBits]
    congr 1
    omega
  have last : (t &&& evenBits (n + 1)) % 4 = t % 2 := by
    rw [show (4 : ℕ) = 2 ^ 2 by norm_num, Nat.and_mod_two_pow, evenBits,
      show (4 * evenBits n + 1) % 2 ^ 2 = 2 ^ 1 - 1 by omega, and_mask]
    omega
  omega

theorem pairSums_succ (n t : ℕ) :
    pairSums (n + 1) t = 4 * pairSums n (t / 4) + (t % 2 + t / 2 % 2) := by
  unfold pairSums
  rw [and_evenBits, and_evenBits, Nat.div_div_eq_div_mul, Nat.div_div_eq_div_mul, Nat.mul_comm 2 4]
  omega

/-- No sum of two bits carries into the next one. -/
theorem pairSums_digit {n i : ℕ} (inside : i < n) (t : ℕ) :
    pairSums n t / 4 ^ i % 4 = t / 4 ^ i % 2 + t / 4 ^ i / 2 % 2 := by
  induction i generalizing n t with
  | zero =>
    obtain ⟨n, rfl⟩ : ∃ m, n = m + 1 := ⟨n - 1, by omega⟩
    rw [pairSums_succ]
    simp only [pow_zero, Nat.div_one]
    omega
  | succ i ih =>
    obtain ⟨n, rfl⟩ : ∃ m, n = m + 1 := ⟨n - 1, by omega⟩
    have whole : (4 * pairSums n (t / 4) + (t % 2 + t / 2 % 2)) / 4 = pairSums n (t / 4) := by omega
    rw [pairSums_succ, pow_succ', ← Nat.div_div_eq_div_mul, ← Nat.div_div_eq_div_mul, whole]
    exact ih (by omega) _

theorem pairSums_lt (n t : ℕ) : pairSums n t < 4 ^ n := by
  induction n generalizing t with
  | zero => simp [pairSums, evenBits]
  | succ n ih =>
    have here := ih (t / 4)
    rw [pairSums_succ, pow_succ]
    omega

/-! ## The bits of the buffer -/

/-- A bit of a buffer, the lowest of each byte first. -/
def bufBit (buf : Bytes) (n : ℕ) : ℕ := ((entry buf (n / 8)).testBit (n % 8)).toNat

theorem bufBit_le (buf : Bytes) (n : ℕ) : bufBit buf n ≤ 1 := Bool.toNat_le _

theorem load32_toNat (buf : Bytes) (i : ℕ) :
    (load32LittleEndian buf i).toNat =
      entry buf i ||| entry buf (i + 1) <<< 8 ||| entry buf (i + 2) <<< 16 ||| entry buf (i + 3) <<< 24 := by
  have byte (k : ℕ) : (UInt32.ofNat (entry buf (i + k))).toNat = entry buf (i + k) := by
    have small := entry_lt buf (i + k)
    rw [UInt32.toNat_ofNat', Nat.mod_eq_of_lt (by omega)]
  have shifted (k s : ℕ) (small : s ≤ 24) : entry buf (i + k) <<< s % 2 ^ 32 = entry buf (i + k) <<< s := by
    apply Nat.mod_eq_of_lt
    have le : 2 ^ s ≤ 2 ^ 24 := Nat.pow_le_pow_right (by omega) small
    have := entry_lt buf (i + k)
    rw [Nat.shiftLeft_eq]
    nlinarith
  unfold load32LittleEndian
  dsimp only
  rw [UInt32.toNat_or, UInt32.toNat_or, UInt32.toNat_or, UInt32.toNat_shiftLeft, UInt32.toNat_shiftLeft,
    UInt32.toNat_shiftLeft, byte, byte, byte, byte]
  change _ ||| entry buf (i + 1) <<< 8 % 2 ^ 32 ||| entry buf (i + 2) <<< 16 % 2 ^ 32 |||
    entry buf (i + 3) <<< 24 % 2 ^ 32 = _
  rw [shifted 1 8 (by omega), shifted 2 16 (by omega), shifted 3 24 (by omega)]
  rfl

theorem load32_bit (buf : Bytes) (i : ℕ) {n : ℕ} (small : n < 32) :
    (load32LittleEndian buf (4 * i)).toNat / 2 ^ n % 2 = bufBit buf (32 * i + n) := by
  have high {k j : ℕ} (large : 8 ≤ j) : (entry buf k).testBit j = false := by
    apply Nat.testBit_lt_two_pow
    have le : 2 ^ 8 ≤ 2 ^ j := Nat.pow_le_pow_right (by omega) large
    have := entry_lt buf k
    omega
  rw [← Nat.toNat_testBit, load32_toNat, bufBit]
  congr 1
  simp only [Nat.testBit_or, Nat.testBit_shiftLeft]
  have turn : n / 8 < 4 := by omega
  have place : (32 * i + n) / 8 = 4 * i + n / 8 := by omega
  rw [place, show (32 * i + n) % 8 = n % 8 by omega]
  generalize turned : n / 8 = b at turn
  match b, turn with
  | 0, _ =>
    simp [show ¬ 8 ≤ n by omega, show ¬ 16 ≤ n by omega, show ¬ 24 ≤ n by omega, show n % 8 = n by omega]
  | 1, _ =>
    simp [show 8 ≤ n by omega, show ¬ 16 ≤ n by omega, show ¬ 24 ≤ n by omega,
      show n % 8 = n - 8 by omega, high (show 8 ≤ n by omega)]
  | 2, _ =>
    simp [show 8 ≤ n by omega, show 16 ≤ n by omega, show ¬ 24 ≤ n by omega,
      show n % 8 = n - 16 by omega, high (show 8 ≤ n by omega), high (show 8 ≤ n - 8 by omega)]
  | 3, _ =>
    simp [show 8 ≤ n by omega, show 16 ≤ n by omega, show 24 ≤ n by omega,
      show n % 8 = n - 24 by omega, high (show 8 ≤ n by omega), high (show 8 ≤ n - 8 by omega),
      high (show 8 ≤ n - 16 by omega)]

/-- A pair of bits of the word that `cbd2` makes. -/
theorem pair_digit (t : UInt32) {i : ℕ} (inside : i < 16) :
    ((pairWord t >>> UInt32.ofNat (2 * i)) &&& (0x3 : UInt32)).toNat =
      t.toNat / 2 ^ (2 * i) % 2 + t.toNat / 2 ^ (2 * i + 1) % 2 := by
  have sums : (pairWord t).toNat = pairSums 16 t.toNat := by
    have less := pairSums_lt 16 t.toNat
    rw [pairWord, UInt32.toNat_add, UInt32.toNat_and, UInt32.toNat_and, UInt32.toNat_shiftRight]
    exact Nat.mod_eq_of_lt less
  have amount : (UInt32.ofNat (2 * i)).toNat % 32 = 2 * i := by
    rw [UInt32.toNat_ofNat', Nat.mod_eq_of_lt (by omega), Nat.mod_eq_of_lt (by omega)]
  rw [UInt32.toNat_and, UInt32.toNat_shiftRight, sums, amount, show (0x3 : UInt32).toNat = 2 ^ 2 - 1 from rfl,
    and_mask, Nat.shiftRight_eq_div_pow, pow_succ 2 (2 * i), ← Nat.div_div_eq_div_mul, pow_mul]
  exact pairSums_digit inside _

namespace Poly

/-- The difference of two sums of two bits; no two coefficients share a bit. -/
theorem toInt_cbd2 (buf : Bytes) {k : ℕ} (small : k < 256) :
    ((cbd2 buf).coeff k).toInt = bufBit buf (4 * k) + bufBit buf (4 * k + 1) -
      (bufBit buf (4 * k + 2) + bufBit buf (4 * k + 3)) := by
  have bits (n : ℕ) (inside : n < 32) := load32_bit buf (k / 8) inside
  have turn : k % 8 < 8 := Nat.mod_lt k (by omega)
  have place : 32 * (k / 8) + 4 * (k % 8) = 4 * k := by omega
  rw [cbd2, coeff_ofFn small]
  dsimp only
  generalize load32LittleEndian buf (4 * (k / 8)) = t at bits
  have first := pair_digit t (i := 2 * (k % 8)) (by omega)
  have second := pair_digit t (i := 2 * (k % 8) + 1) (by omega)
  rw [bits _ (by omega), bits _ (by omega)] at first second
  rw [show 4 * (k % 8) + 0 = 2 * (2 * (k % 8)) by ring,
    show 4 * (k % 8) + 2 = 2 * (2 * (k % 8) + 1) by ring, first, second,
    show 32 * (k / 8) + 2 * (2 * (k % 8)) = 4 * k by omega,
    show 32 * (k / 8) + (2 * (2 * (k % 8)) + 1) = 4 * k + 1 by omega,
    show 32 * (k / 8) + 2 * (2 * (k % 8) + 1) = 4 * k + 2 by omega,
    show 32 * (k / 8) + (2 * (2 * (k % 8) + 1) + 1) = 4 * k + 3 by omega]
  have b0 := bufBit_le buf (4 * k)
  have b1 := bufBit_le buf (4 * k + 1)
  have b2 := bufBit_le buf (4 * k + 2)
  have b3 := bufBit_le buf (4 * k + 3)
  have value (x y : ℕ) (le : x + y ≤ 2) : (Int16.ofNat (x + y)).toInt = x + y :=
    Int16.toInt_ofNat_of_lt (by omega)
  exact sub16 (value _ _ (by omega)) (value _ _ (by omega)) (by omega) (by omega)

theorem bounded_cbd2 (buf : Bytes) : (cbd2 buf).Bounded 2 := by
  intro k small
  have value := toInt_cbd2 buf small
  have b0 := bufBit_le buf (4 * k)
  have b1 := bufBit_le buf (4 * k + 1)
  have b2 := bufBit_le buf (4 * k + 2)
  have b3 := bufBit_le buf (4 * k + 3)
  exact ⟨by omega, by omega⟩

end Poly

end E2eeProxy.Mlkem
