import E2eeProxy.Lib.Groups
import E2eeProxy.Lua.Value
import E2eeProxy.Mlkem.Poly

/-! # Serialization

The functions of poly.c and polyvec.c that write bytes and read them.
-/

namespace E2eeProxy.Mlkem

open Lua Lib.Groups

/-- `KYBER_K` polynomials. -/
abbrev PolyVec := Fin 3 → Poly

/-- `t += (t >> 15) & KYBER_Q`. -/
def positive (t : Int16) : Int16 := t + ((t >>> 15) &&& 3329)

def entry (a : Bytes) (i : ℕ) : ℕ := (a.getD i 0).toNat

namespace Poly

def tobytes (a : Poly) : Bytes :=
  groups 128 fun i =>
    let t0 := (positive (a.coeff (2 * i))).toUInt16.toNat
    let t1 := (positive (a.coeff (2 * i + 1))).toUInt16.toNat
    [UInt8.ofNat (t0 >>> 0), UInt8.ofNat (t0 >>> 8 ||| t1 <<< 4), UInt8.ofNat (t1 >>> 4)]

def frombytes (a : Bytes) : Poly :=
  ofFn fun k =>
    let i := k / 2
    Int16.ofNat
      (if k % 2 = 0 then (entry a (3 * i) >>> 0 ||| entry a (3 * i + 1) <<< 8) &&& 0xFFF
      else (entry a (3 * i + 1) >>> 4 ||| entry a (3 * i + 2) <<< 4) &&& 0xFFF)

end Poly

/-! ## Standard representatives -/

theorem toInt_shiftRight15 (t : Int16) : (t >>> 15).toInt = if t.toInt < 0 then -1 else 0 := by
  have low := t.le_toInt
  have high := t.toInt_lt
  change (t.toBitVec.sshiftRight' ((15 : Int16).toBitVec.smod 16)).toInt = _
  rw [show (15 : Int16).toBitVec.smod 16 = 15#16 by decide, BitVec.sshiftRight_eq',
    BitVec.toInt_sshiftRight, Int.shiftRight_eq_div_pow]
  change t.toInt / 32768 = _
  split <;> omega

theorem positive_neg {t : Int16} (negative : t.toInt < 0) : positive t = t + 3329 := by
  have mask : t >>> 15 = -1 := Int16.toInt_inj.mp (by rw [toInt_shiftRight15, if_pos negative]; rfl)
  rw [positive, mask, show (-1 : Int16) &&& 3329 = 3329 by decide]

theorem positive_nonneg {t : Int16} (nonneg : 0 ≤ t.toInt) : positive t = t := by
  have mask : t >>> 15 = 0 := Int16.toInt_inj.mp (by rw [toInt_shiftRight15, if_neg (by omega)]; rfl)
  rw [positive, mask, show (0 : Int16) &&& 3329 = 0 by decide, Int16.add_zero]

theorem positive_toInt {t : Int16} (within : Within 3328 t) :
    (positive t).toInt = if t.toInt < 0 then t.toInt + 3329 else t.toInt := by
  have low := within.low
  have high := within.high
  split
  · rename_i negative
    rw [positive_neg negative]
    exact add16 rfl rfl (by omega) (by omega)
  · rename_i nonneg
    rw [positive_nonneg (by omega)]

theorem residue_positive {t : Int16} (within : Within 3328 t) : residue (positive t) = residue t := by
  unfold residue
  rw [positive_toInt within]
  split
  · push_cast
    rw [show (3329 : Zq) = 0 by decide, add_zero]
  · rfl

theorem toNat_toUInt16 {t : Int16} (nonneg : 0 ≤ t.toInt) : (t.toUInt16.toNat : ℤ) = t.toInt := by
  have cond : t.toInt = if 2 * t.toUInt16.toNat < 2 ^ 16 then (t.toUInt16.toNat : ℤ)
      else (t.toUInt16.toNat : ℤ) - (2 ^ 16 : ℕ) := BitVec.toInt_eq_toNat_cond t.toBitVec
  have small := t.toUInt16.toNat_lt
  split at cond <;> omega

theorem ofNat_toNat (t : Int16) : Int16.ofNat t.toUInt16.toNat = t :=
  Int16.toBitVec_inj.mp (BitVec.ofNat_toNat 16 t.toBitVec)

theorem positive_range {t : Int16} (within : Within 3328 t) :
    0 ≤ (positive t).toInt ∧ (positive t).toInt < 3329 := by
  have low := within.low
  have high := within.high
  rw [positive_toInt within]
  split <;> omega

theorem toNat_positive_lt {t : Int16} (within : Within 3328 t) :
    (positive t).toUInt16.toNat < 3329 := by
  obtain ⟨nonneg, high⟩ := positive_range within
  have value := toNat_toUInt16 nonneg
  omega

/-- A value of 12 bits is written as it stands. -/
theorem positive_ofNat {k : ℕ} (small : k < 4096) : (positive (Int16.ofNat k)).toUInt16.toNat = k := by
  have value : (Int16.ofNat k).toInt = k := Int16.toInt_ofNat_of_lt (by omega)
  rw [positive_nonneg (by omega)]
  have here := toNat_toUInt16 (t := Int16.ofNat k) (by omega)
  omega

theorem within_ofNat {p : ℕ} (small : p < 3329) : Within 3328 (Int16.ofNat p) := by
  have value : (Int16.ofNat p).toInt = p := Int16.toInt_ofNat_of_lt (by omega)
  exact ⟨by omega, by omega⟩

/-! ## Twelve bits -/

theorem entry_lt (a : Bytes) (i : ℕ) : entry a i < 256 := UInt8.toNat_lt _

theorem entry_groups {f : ℕ → List ℕ} {n m i j : ℕ} (uniform : ∀ i < n, (f i).length = m) (turn : i < n)
    (inside : j < m) :
    entry (groups n fun i => (f i).map UInt8.ofNat) (m * i + j) = (f i).getD j 0 % 256 := by
  have within : j < (f i).length := by rw [uniform i turn]; exact inside
  rw [entry, List.getD_eq_getElem?_getD, getElem?_groups (m := m) (fun i less => by rw [List.length_map,
    uniform i less]) turn inside, List.getElem?_map, List.getElem?_eq_getElem within,
    List.getD_eq_getElem _ _ within]
  exact UInt8.toNat_ofNat'

/-- Two values of twelve bits in three bytes. -/
theorem twelve_bits {t0 t1 : ℕ} (first : t0 < 4096) (second : t1 < 4096) :
    ((t0 >>> 0 % 256) >>> 0 ||| ((t0 >>> 8 ||| t1 <<< 4) % 256) <<< 8) &&& 0xFFF = t0 ∧
      (((t0 >>> 8 ||| t1 <<< 4) % 256) >>> 4 ||| (t1 >>> 4 % 256) <<< 4) &&& 0xFFF = t1 := by
  rw [or_shiftLeft t1 (k := 4) (by rw [Nat.shiftRight_eq_div_pow]; omega)]
  simp only [Nat.shiftRight_eq_div_pow]
  rw [or_shiftLeft _ (k := 8) (by omega), or_shiftLeft _ (k := 4) (by omega),
    show (0xFFF : ℕ) = 2 ^ 12 - 1 by norm_num, and_mask, and_mask]
  omega

/-- Three bytes as two values of twelve bits. -/
theorem three_bytes {b0 b1 b2 : ℕ} (first : b0 < 256) (second : b1 < 256) (third : b2 < 256) :
    let t0 := (b0 >>> 0 ||| b1 <<< 8) &&& 0xFFF
    let t1 := (b1 >>> 4 ||| b2 <<< 4) &&& 0xFFF
    t0 < 4096 ∧ t1 < 4096 ∧ t0 >>> 0 % 256 = b0 ∧ (t0 >>> 8 ||| t1 <<< 4) % 256 = b1 ∧
      t1 >>> 4 % 256 = b2 := by
  dsimp only
  rw [or_shiftLeft b1 (k := 8) (by simpa using first),
    or_shiftLeft b2 (k := 4) (by rw [Nat.shiftRight_eq_div_pow]; omega),
    show (0xFFF : ℕ) = 2 ^ 12 - 1 by norm_num, and_mask, and_mask]
  simp only [Nat.shiftRight_eq_div_pow]
  rw [or_shiftLeft _ (k := 4) (by omega)]
  omega

namespace Poly

variable {a : Poly} {b : Bytes} {i : ℕ}

/-- The bytes of a pair of coefficients. -/
def pairBytes (a : Poly) (i : ℕ) : List ℕ :=
  let t0 := (positive (a.coeff (2 * i))).toUInt16.toNat
  let t1 := (positive (a.coeff (2 * i + 1))).toUInt16.toNat
  [t0 >>> 0, t0 >>> 8 ||| t1 <<< 4, t1 >>> 4]

theorem tobytes_eq : a.tobytes = groups 128 fun i => (a.pairBytes i).map UInt8.ofNat := rfl

theorem entry_tobytes {j : ℕ} (turn : i < 128) (inside : j < 3) :
    entry a.tobytes (3 * i + j) = (a.pairBytes i).getD j 0 % 256 := by
  rw [tobytes_eq, entry_groups (m := 3) (fun _ _ => rfl) turn inside]

theorem coeff_frombytes (small : i < 256) :
    (frombytes b).coeff i = Int16.ofNat
      (if i % 2 = 0 then (entry b (3 * (i / 2)) >>> 0 ||| entry b (3 * (i / 2) + 1) <<< 8) &&& 0xFFF
      else (entry b (3 * (i / 2) + 1) >>> 4 ||| entry b (3 * (i / 2) + 2) <<< 4) &&& 0xFFF) := by
  rw [frombytes, coeff_ofFn small]

/-- What is written is read as standard representatives. -/
theorem frombytes_tobytes (bounded : a.Bounded 3328) (small : i < 256) :
    (frombytes a.tobytes).coeff i = positive (a.coeff i) := by
  have even := toNat_positive_lt (bounded (2 * (i / 2)) (by omega))
  have odd := toNat_positive_lt (bounded (2 * (i / 2) + 1) (by omega))
  obtain ⟨first, second⟩ := twelve_bits (show (positive (a.coeff (2 * (i / 2)))).toUInt16.toNat < 4096 by
    omega) (show (positive (a.coeff (2 * (i / 2) + 1))).toUInt16.toNat < 4096 by omega)
  have turn : i / 2 < 128 := by omega
  have zero := entry_tobytes (a := a) (j := 0) turn (by omega)
  have one := entry_tobytes (a := a) (j := 1) turn (by omega)
  have two := entry_tobytes (a := a) (j := 2) turn (by omega)
  simp only [pairBytes, List.getD_cons_zero, List.getD_cons_succ, Nat.add_zero] at zero one two
  rw [coeff_frombytes small, zero, one, two]
  split
  · rw [first, ofNat_toNat, show 2 * (i / 2) = i by omega]
  · rw [second, ofNat_toNat, show 2 * (i / 2) + 1 = i by omega]

theorem length_tobytes : a.tobytes.length = 384 := length_groups (m := 3) fun _ _ => rfl

/-- Whatever is read is written again, also if it is not reduced. -/
theorem tobytes_frombytes (length : b.length = 384) : (frombytes b).tobytes = b := by
  refine groups_eq (m := 3) length (fun _ _ => rfl) ?_
  intro i turn j inside
  obtain ⟨small, small', low, middle, high⟩ := three_bytes (entry_lt b (3 * i)) (entry_lt b (3 * i + 1))
    (entry_lt b (3 * i + 2))
  rw [coeff_frombytes (by omega), coeff_frombytes (by omega), if_pos (by omega), if_neg (by omega),
    show 2 * i / 2 = i by omega, show (2 * i + 1) / 2 = i by omega, positive_ofNat small,
    positive_ofNat small']
  dsimp only
  have byte {k : ℕ} {value : ℕ} (same : value % 256 = entry b k) (within : k < 384) :
      some (UInt8.ofNat value) = b[k]? := by
    rw [List.getElem?_eq_getElem (by omega), Option.some.injEq]
    apply UInt8.toNat_inj.mp
    rw [UInt8.toNat_ofNat', same, entry, List.getD_eq_getElem _ _ (by omega)]
  match j with
  | 0 => exact byte low (by omega)
  | 1 => exact byte middle (by omega)
  | 2 => exact byte high (by omega)

end Poly

end E2eeProxy.Mlkem
