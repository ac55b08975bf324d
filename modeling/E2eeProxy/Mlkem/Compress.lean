import E2eeProxy.Mlkem.Encoding

/-! # Compression

The lossy encodings of a ciphertext, and messages as polynomials. What is lost is
bounded by the number of bits that are kept.
-/

namespace E2eeProxy.Mlkem

open Lua Lib.Groups

/-- A coefficient in four bits, as `poly_compress` computes it. -/
def compress4 (c : Int16) : ℕ :=
  let u := positive c
  let d0 : UInt32 := u.toInt32.toUInt32 <<< 4
  let d0 := d0 + 1665
  let d0 := d0 * 80635
  let d0 := d0 >>> 28
  (d0 &&& 0xf).toNat

/-- A coefficient in ten bits, as `polyvec_compress` computes it. -/
def compress10 (c : Int16) : ℕ :=
  let t : UInt16 := (positive c).toUInt16
  let d0 : UInt64 := t.toUInt64
  let d0 := d0 <<< 10
  let d0 := d0 + 1665
  let d0 := d0 * 1290167
  let d0 := d0 >>> 32
  (d0 &&& 0x3ff).toNat

def decompress4 (t : ℕ) : Int16 := Int16.ofNat ((t * 3329 + 8) >>> 4)

def decompress10 (t : ℕ) : Int16 := Int16.ofNat (((t &&& 0x3FF) * 3329 + 512) >>> 10)

namespace Poly

def compress (a : Poly) : Bytes :=
  groups 32 fun i =>
    let t (j : ℕ) := compress4 (a.coeff (8 * i + j))
    [t 0 ||| t 1 <<< 4, t 2 ||| t 3 <<< 4, t 4 ||| t 5 <<< 4, t 6 ||| t 7 <<< 4].map UInt8.ofNat

def decompress (a : Bytes) : Poly :=
  ofFn fun k => decompress4 (if k % 2 = 0 then entry a (k / 2) &&& 15 else entry a (k / 2) >>> 4)

/-- What `polyvec_compress` does to each polynomial. -/
def compressVec (a : Poly) : Bytes :=
  groups 64 fun j =>
    let t (k : ℕ) := compress10 (a.coeff (4 * j + k))
    [t 0 >>> 0, t 0 >>> 8 ||| t 1 <<< 2, t 1 >>> 6 ||| t 2 <<< 4, t 2 >>> 4 ||| t 3 <<< 6,
      t 3 >>> 2].map UInt8.ofNat

/-- What `polyvec_decompress` does for each polynomial. -/
def decompressVec (a : Bytes) : Poly :=
  ofFn fun i =>
    let b (k : ℕ) := entry a (5 * (i / 4) + k)
    let t := [b 0 >>> 0 ||| b 1 <<< 8, b 1 >>> 2 ||| b 2 <<< 6, b 2 >>> 4 ||| b 3 <<< 4,
      b 3 >>> 6 ||| b 4 <<< 2]
    decompress10 (t.getD (i % 4) 0)

end Poly

/-! ## What is lost -/

/-- `p` in units of `q / m`, by a multiplication and a shift. -/
def scaled (m factor shift p : ℕ) : ℕ := (p * m + 1665) * factor / 2 ^ shift % m

theorem toNat_positive {c : Int16} (within : Within 3328 c) :
    (positive c).toInt32.toUInt32.toNat = (positive c).toUInt16.toNat := by
  obtain ⟨nonneg, high⟩ := positive_range within
  have value := toNat_toUInt16 nonneg
  have wide : (positive c).toInt32.toInt = (positive c).toUInt16.toNat := by rw [widen rfl, value]
  have cond : (positive c).toInt32.toInt = if 2 * (positive c).toInt32.toUInt32.toNat < 2 ^ 32
      then ((positive c).toInt32.toUInt32.toNat : ℤ)
      else ((positive c).toInt32.toUInt32.toNat : ℤ) - (2 ^ 32 : ℕ) :=
    BitVec.toInt_eq_toNat_cond (positive c).toInt32.toBitVec
  have small := (positive c).toInt32.toUInt32.toNat_lt
  split at cond <;> omega

/-- The product exceeds 32 bits; what is lost is cut off anyway. -/
theorem compress4_eq {c : Int16} (within : Within 3328 c) :
    compress4 c = scaled 16 80635 28 (positive c).toUInt16.toNat := by
  have small := toNat_positive_lt within
  have value := toNat_positive within
  unfold compress4 scaled
  dsimp only
  rw [UInt32.toNat_and, UInt32.toNat_shiftRight, UInt32.toNat_mul, UInt32.toNat_add,
    UInt32.toNat_shiftLeft, value]
  generalize (positive c).toUInt16.toNat = p at small
  change ((p <<< 4 % 2 ^ 32 + 1665) % 2 ^ 32 * 80635 % 2 ^ 32) >>> 28 &&& 2 ^ 4 - 1 = _
  rw [and_mask, Nat.shiftRight_eq_div_pow, Nat.shiftLeft_eq, Nat.mod_eq_of_lt (a := p * 2 ^ 4) (by omega),
    Nat.mod_eq_of_lt (a := p * 2 ^ 4 + 1665) (by omega)]
  generalize (p * 2 ^ 4 + 1665) * 80635 = product
  omega

theorem compress10_eq {c : Int16} (within : Within 3328 c) :
    compress10 c = scaled 1024 1290167 32 (positive c).toUInt16.toNat := by
  have small := toNat_positive_lt within
  unfold compress10 scaled
  dsimp only
  rw [UInt64.toNat_and, UInt64.toNat_shiftRight, UInt64.toNat_mul, UInt64.toNat_add, UInt64.toNat_shiftLeft,
    UInt16.toNat_toUInt64]
  generalize (positive c).toUInt16.toNat = p at small
  change ((p <<< 10 % 2 ^ 64 + 1665) % 2 ^ 64 * 1290167 % 2 ^ 64) >>> 32 &&& 2 ^ 10 - 1 = _
  rw [and_mask, Nat.shiftRight_eq_div_pow, Nat.shiftLeft_eq, Nat.mod_eq_of_lt (a := p * 2 ^ 10) (by omega),
    Nat.mod_eq_of_lt (a := p * 2 ^ 10 + 1665) (by omega),
    Nat.mod_eq_of_lt (a := (p * 2 ^ 10 + 1665) * 1290167) (by omega)]
  norm_num

theorem scaled4_lt (p : ℕ) : scaled 16 80635 28 p < 16 := Nat.mod_lt _ (by norm_num)

theorem scaled10_lt (p : ℕ) : scaled 1024 1290167 32 p < 1024 := Nat.mod_lt _ (by norm_num)

/-- Close to the largest values the units wrap around to zero. -/
theorem scaled4_error {p : ℕ} (small : p < 3329) :
    ∃ e : ℤ, |e| ≤ 104 ∧ ∃ k : ℤ, ((scaled 16 80635 28 p * 3329 + 8) / 16 : ℕ) = p + e + 3329 * k := by
  unfold scaled
  obtain ⟨units, found⟩ : ∃ units, (p * 16 + 1665) * 80635 / 2 ^ 28 = units := ⟨_, rfl⟩
  have low : units * 268435456 ≤ (p * 16 + 1665) * 80635 := by omega
  have high : (p * 16 + 1665) * 80635 < (units + 1) * 268435456 := by omega
  rw [found]
  rcases Nat.lt_or_ge units 16 with less | wraps
  · rw [Nat.mod_eq_of_lt less]
    refine ⟨((units * 3329 + 8) / 16 : ℕ) - p, abs_le.mpr ⟨?_, ?_⟩, 0, by omega⟩ <;> omega
  · obtain rfl : units = 16 := by omega
    refine ⟨3329 - p, abs_le.mpr ⟨?_, ?_⟩, -1, ?_⟩ <;> omega

theorem scaled10_error {p : ℕ} (small : p < 3329) :
    ∃ e : ℤ, |e| ≤ 2 ∧
      ∃ k : ℤ, ((scaled 1024 1290167 32 p * 3329 + 512) / 1024 : ℕ) = p + e + 3329 * k := by
  unfold scaled
  obtain ⟨units, found⟩ : ∃ units, (p * 1024 + 1665) * 1290167 / 2 ^ 32 = units := ⟨_, rfl⟩
  have low : units * 4294967296 ≤ (p * 1024 + 1665) * 1290167 := by omega
  have high : (p * 1024 + 1665) * 1290167 < (units + 1) * 4294967296 := by omega
  rw [found]
  rcases Nat.lt_or_ge units 1024 with less | wraps
  · rw [Nat.mod_eq_of_lt less]
    refine ⟨((units * 3329 + 512) / 1024 : ℕ) - p, abs_le.mpr ⟨?_, ?_⟩, 0, by omega⟩ <;> omega
  · obtain rfl : units = 1024 := by omega
    refine ⟨3329 - p, abs_le.mpr ⟨?_, ?_⟩, -1, ?_⟩ <;> omega

/-! ## Digits in bytes -/

/-- Two values of four bits in a byte. -/
theorem four_bits {t0 t1 : ℕ} (first : t0 < 16) (second : t1 < 16) :
    (t0 ||| t1 <<< 4) % 256 &&& 15 = t0 ∧ ((t0 ||| t1 <<< 4) % 256) >>> 4 = t1 := by
  rw [or_shiftLeft t1 (k := 4) first, show (15 : ℕ) = 2 ^ 4 - 1 by norm_num, and_mask,
    Nat.shiftRight_eq_div_pow]
  omega

/-- Four values of ten bits in five bytes. -/
theorem ten_bits {t0 t1 t2 t3 : ℕ} (first : t0 < 1024) (second : t1 < 1024) (third : t2 < 1024)
    (fourth : t3 < 1024) :
    let b0 := (t0 >>> 0) % 256
    let b1 := (t0 >>> 8 ||| t1 <<< 2) % 256
    let b2 := (t1 >>> 6 ||| t2 <<< 4) % 256
    let b3 := (t2 >>> 4 ||| t3 <<< 6) % 256
    let b4 := (t3 >>> 2) % 256
    (b0 >>> 0 ||| b1 <<< 8) &&& 0x3FF = t0 ∧ (b1 >>> 2 ||| b2 <<< 6) &&& 0x3FF = t1 ∧
      (b2 >>> 4 ||| b3 <<< 4) &&& 0x3FF = t2 ∧ (b3 >>> 6 ||| b4 <<< 2) &&& 0x3FF = t3 := by
  dsimp only
  simp only [Nat.shiftRight_eq_div_pow]
  rw [or_shiftLeft t1 (k := 2) (by omega), or_shiftLeft t2 (k := 4) (by omega),
    or_shiftLeft t3 (k := 6) (by omega)]
  rw [or_shiftLeft _ (k := 8) (by omega), or_shiftLeft _ (k := 6) (by omega),
    or_shiftLeft _ (k := 4) (by omega), or_shiftLeft _ (k := 2) (by omega),
    show (0x3FF : ℕ) = 2 ^ 10 - 1 by norm_num, and_mask, and_mask, and_mask, and_mask]
  omega

/-- Five bytes as four values of ten bits. -/
theorem five_bytes {b0 b1 b2 b3 b4 : ℕ} (first : b0 < 256) (second : b1 < 256) (third : b2 < 256)
    (fourth : b3 < 256) (fifth : b4 < 256) :
    let t0 := (b0 >>> 0 ||| b1 <<< 8) &&& 0x3FF
    let t1 := (b1 >>> 2 ||| b2 <<< 6) &&& 0x3FF
    let t2 := (b2 >>> 4 ||| b3 <<< 4) &&& 0x3FF
    let t3 := (b3 >>> 6 ||| b4 <<< 2) &&& 0x3FF
    (t0 >>> 0) % 256 = b0 ∧ (t0 >>> 8 ||| t1 <<< 2) % 256 = b1 ∧ (t1 >>> 6 ||| t2 <<< 4) % 256 = b2 ∧
      (t2 >>> 4 ||| t3 <<< 6) % 256 = b3 ∧ (t3 >>> 2) % 256 = b4 := by
  dsimp only
  simp only [Nat.shiftRight_eq_div_pow]
  rw [or_shiftLeft b1 (k := 8) (by omega), or_shiftLeft b2 (k := 6) (by omega),
    or_shiftLeft b3 (k := 4) (by omega), or_shiftLeft b4 (k := 2) (by omega),
    show (0x3FF : ℕ) = 2 ^ 10 - 1 by norm_num, and_mask, and_mask, and_mask, and_mask]
  rw [or_shiftLeft _ (k := 2) (by omega), or_shiftLeft _ (k := 4) (by omega),
    or_shiftLeft _ (k := 6) (by omega)]
  omega

theorem decompress4_eq (t : ℕ) : decompress4 t = Int16.ofNat ((t * 3329 + 8) / 16) := by
  rw [decompress4, Nat.shiftRight_eq_div_pow]

theorem decompress10_eq (t : ℕ) : decompress10 t = Int16.ofNat ((t % 1024 * 3329 + 512) / 1024) := by
  rw [decompress10, Nat.shiftRight_eq_div_pow, show (0x3FF : ℕ) = 2 ^ 10 - 1 by norm_num, and_mask]
  norm_num

theorem decompress4_within {t : ℕ} (small : t < 16) : Within 3328 (decompress4 t) := by
  rw [decompress4_eq]
  exact within_ofNat (by omega)

theorem decompress10_within (t : ℕ) : Within 3328 (decompress10 t) := by
  rw [decompress10_eq]
  exact within_ofNat (by omega)

theorem compress4_decompress4 {t : ℕ} (small : t < 16) : compress4 (decompress4 t) = t := by
  rw [compress4_eq (decompress4_within small), decompress4_eq, positive_ofNat (by omega), scaled,
    show ((t * 3329 + 8) / 16 * 16 + 1665) * 80635 / 2 ^ 28 = t from
      Nat.div_eq_of_lt_le (by omega) (by omega), Nat.mod_eq_of_lt small]

theorem compress10_decompress10 {t : ℕ} (small : t < 1024) : compress10 (decompress10 t) = t := by
  rw [compress10_eq (decompress10_within t), decompress10_eq, positive_ofNat (by omega), scaled,
    Nat.mod_eq_of_lt small,
    show ((t * 3329 + 512) / 1024 * 1024 + 1665) * 1290167 / 2 ^ 32 = t from
      Nat.div_eq_of_lt_le (by omega) (by omega), Nat.mod_eq_of_lt small]

/-- `x` is `y` up to an error. -/
def Near (bound : ℤ) (x y : Zq) : Prop := ∃ e : ℤ, |e| ≤ bound ∧ x = y + e

theorem near_residue {bound : ℤ} {p d : ℕ} {c : Int16} (within : Within 3328 c)
    (value : (positive c).toUInt16.toNat = p) (small : d < 32768)
    (error : ∃ e : ℤ, |e| ≤ bound ∧ ∃ k : ℤ, (d : ℤ) = p + e + 3329 * k) :
    Near bound (residue (Int16.ofNat d)) (residue c) := by
  obtain ⟨e, le, k, exact⟩ := error
  refine ⟨e, le, ?_⟩
  rw [← residue_positive within]
  unfold residue
  rw [Int16.toInt_ofNat_of_lt (by omega), exact, ← toNat_toUInt16 (positive_range within).1, value]
  push_cast
  rw [show (3329 : Zq) = 0 by decide, zero_mul, add_zero]

theorem near_compress4 {c : Int16} (within : Within 3328 c) :
    Near 104 (residue (decompress4 (compress4 c))) (residue c) := by
  have less := scaled4_lt (positive c).toUInt16.toNat
  rw [compress4_eq within, decompress4_eq]
  exact near_residue within rfl (by omega) (scaled4_error (toNat_positive_lt within))

theorem near_compress10 {c : Int16} (within : Within 3328 c) :
    Near 2 (residue (decompress10 (compress10 c))) (residue c) := by
  have less := scaled10_lt (positive c).toUInt16.toNat
  rw [compress10_eq within, decompress10_eq, Nat.mod_eq_of_lt less]
  exact near_residue within rfl (by omega) (scaled10_error (toNat_positive_lt within))

theorem compress4_lt (c : Int16) : compress4 c < 16 := by
  unfold compress4
  dsimp only
  rw [UInt32.toNat_and, show (0xf : UInt32).toNat = 2 ^ 4 - 1 from rfl, and_mask]
  exact Nat.mod_lt _ (by norm_num)

theorem compress10_lt (c : Int16) : compress10 c < 1024 := by
  unfold compress10
  dsimp only
  rw [UInt64.toNat_and, show (0x3ff : UInt64).toNat = 2 ^ 10 - 1 from rfl, and_mask]
  exact Nat.mod_lt _ (by norm_num)

theorem decompress10_mask (t : ℕ) : decompress10 (t &&& 0x3FF) = decompress10 t := by
  unfold decompress10
  rw [Nat.and_assoc, Nat.and_self]

/-! ## Lists of digits -/

section Digits

variable {t : ℕ → ℕ} {b : Bytes} {i j m : ℕ}

/-- Eight digits of four bits. -/
def fourBits (t : ℕ → ℕ) (i : ℕ) : List ℕ :=
  let t (j : ℕ) := t (8 * i + j)
  [t 0 ||| t 1 <<< 4, t 2 ||| t 3 <<< 4, t 4 ||| t 5 <<< 4, t 6 ||| t 7 <<< 4]

/-- Four digits of ten bits. -/
def tenBits (t : ℕ → ℕ) (j : ℕ) : List ℕ :=
  let t (k : ℕ) := t (4 * j + k)
  [t 0 >>> 0, t 0 >>> 8 ||| t 1 <<< 2, t 1 >>> 6 ||| t 2 <<< 4, t 2 >>> 4 ||| t 3 <<< 6, t 3 >>> 2]

/-- Reading four digits of ten bits. -/
def tenBitValues (b : Bytes) (m : ℕ) : List ℕ :=
  let b (k : ℕ) := entry b (5 * m + k)
  [b 0 >>> 0 ||| b 1 <<< 8, b 1 >>> 2 ||| b 2 <<< 6, b 2 >>> 4 ||| b 3 <<< 4, b 3 >>> 6 ||| b 4 <<< 2]

theorem entry_fourBits (small : m < 128) :
    entry (groups 32 fun i => (fourBits t i).map UInt8.ofNat) m =
      (t (2 * m) ||| t (2 * m + 1) <<< 4) % 256 := by
  have whole : 4 * (m / 4) + m % 4 = m := Nat.div_add_mod m 4
  have turn : m / 4 < 32 := by omega
  have rest : m % 4 < 4 := Nat.mod_lt m (by omega)
  rw [← whole, entry_groups (m := 4) (fun _ _ => rfl) turn rest,
    show 2 * (4 * (m / 4) + m % 4) = 8 * (m / 4) + 2 * (m % 4) by ring]
  generalize m / 4 = i, m % 4 = j at rest ⊢
  match j with
  | 0 | 1 | 2 | 3 => rfl

/-- The digits that are written are read. -/
theorem tenBitValues_tenBits (bounded : ∀ k, t k < 1024) (turn : m < 64) (inside : j < 4) :
    (tenBitValues (groups 64 fun j => (tenBits t j).map UInt8.ofNat) m).getD j 0 &&& 0x3FF =
      t (4 * m + j) := by
  have byte (k : ℕ) (small : k < 5) :
      entry (groups 64 fun j => (tenBits t j).map UInt8.ofNat) (5 * m + k) =
        (tenBits t m).getD k 0 % 256 := entry_groups (m := 5) (fun _ _ => rfl) turn small
  obtain ⟨zero, one, two, three⟩ := ten_bits (bounded (4 * m + 0)) (bounded (4 * m + 1))
    (bounded (4 * m + 2)) (bounded (4 * m + 3))
  unfold tenBitValues
  dsimp only
  rw [byte 0 (by omega), byte 1 (by omega), byte 2 (by omega), byte 3 (by omega), byte 4 (by omega)]
  match j with
  | 0 => exact zero
  | 1 => exact one
  | 2 => exact two
  | 3 => exact three

/-- The bytes that are read are written. -/
theorem tenBits_tenBitValues (reads : ∀ j < 4, t (4 * m + j) = (tenBitValues b m).getD j 0 &&& 0x3FF)
    (inside : j < 5) : (tenBits t m).getD j 0 % 256 = entry b (5 * m + j) := by
  obtain ⟨zero, one, two, three, four⟩ := five_bytes (entry_lt b (5 * m + 0)) (entry_lt b (5 * m + 1))
    (entry_lt b (5 * m + 2)) (entry_lt b (5 * m + 3)) (entry_lt b (5 * m + 4))
  unfold tenBits
  dsimp only
  rw [reads 0 (by omega), reads 1 (by omega), reads 2 (by omega), reads 3 (by omega)]
  match j with
  | 0 => exact zero
  | 1 => exact one
  | 2 => exact two
  | 3 => exact three
  | 4 => exact four

/-- One byte as two digits. -/
theorem one_byte {b : ℕ} (small : b < 256) : (b &&& 15 ||| b >>> 4 <<< 4) % 256 = b := by
  rw [show (15 : ℕ) = 2 ^ 4 - 1 by norm_num, and_mask, or_shiftLeft _ (k := 4) (by omega),
    Nat.shiftRight_eq_div_pow]
  omega

/-- Lists of bytes with the same values are the same. -/
theorem eq_of_entry {l : Bytes} (length : l.length = m) (length' : b.length = m)
    (same : ∀ i < m, entry l i = entry b i) : l = b := by
  apply List.ext_getElem (length.trans length'.symm)
  intro i inside inside'
  have here := same i (by omega)
  unfold entry at here
  rw [List.getD_eq_getElem _ _ inside, List.getD_eq_getElem _ _ inside'] at here
  exact UInt8.toNat_inj.mp here

end Digits

namespace Poly

variable {a : Poly} {b : Bytes} {i : ℕ}

theorem compress_eq :
    a.compress = groups 32 fun i => (fourBits (fun k => compress4 (a.coeff k)) i).map UInt8.ofNat := rfl

theorem compressVec_eq :
    a.compressVec = groups 64 fun j => (tenBits (fun k => compress10 (a.coeff k)) j).map UInt8.ofNat := rfl

theorem length_compress : a.compress.length = 128 := length_groups (m := 4) fun _ _ => rfl

theorem length_compressVec : a.compressVec.length = 320 := length_groups (m := 5) fun _ _ => rfl

theorem coeff_decompressVec {m j : ℕ} (turn : m < 64) (inside : j < 4) :
    (decompressVec b).coeff (4 * m + j) = decompress10 ((tenBitValues b m).getD j 0 &&& 0x3FF) := by
  rw [decompress10_mask, decompressVec, coeff_ofFn (by omega)]
  dsimp only
  rw [show (4 * m + j) / 4 = m by omega, show (4 * m + j) % 4 = j by omega]
  rfl

theorem coeff_decompress_compress (small : i < 256) :
    (decompress a.compress).coeff i = decompress4 (compress4 (a.coeff i)) := by
  obtain ⟨low, high⟩ := four_bits (compress4_lt (a.coeff (2 * (i / 2))))
    (compress4_lt (a.coeff (2 * (i / 2) + 1)))
  rw [decompress, coeff_ofFn small, compress_eq, entry_fourBits (by omega)]
  split
  · rw [low, show 2 * (i / 2) = i by omega]
  · rw [high, show 2 * (i / 2) + 1 = i by omega]

theorem coeff_decompressVec_compressVec (small : i < 256) :
    (decompressVec a.compressVec).coeff i = decompress10 (compress10 (a.coeff i)) := by
  have rest : i % 4 < 4 := Nat.mod_lt i (by omega)
  have read := tenBitValues_tenBits (t := fun k => compress10 (a.coeff k)) (fun k => compress10_lt _)
    (show i / 4 < 64 by omega) rest
  rw [compressVec_eq, ← Nat.div_add_mod i 4, coeff_decompressVec (by omega) rest, read]

/-- What four bits keep of a polynomial. -/
theorem near_decompress (bounded : a.Bounded 3328) (small : i < 256) :
    Near 104 ((decompress a.compress).residues i) (a.residues i) := by
  rw [residues, coeff_decompress_compress small]
  exact near_compress4 (bounded i small)

/-- What ten bits keep of a polynomial. -/
theorem near_decompressVec (bounded : a.Bounded 3328) (small : i < 256) :
    Near 2 ((decompressVec a.compressVec).residues i) (a.residues i) := by
  rw [residues, coeff_decompressVec_compressVec small]
  exact near_compress10 (bounded i small)

/-- No two strings stand for the same polynomial. -/
theorem compress_decompress (length : b.length = 128) : (decompress b).compress = b := by
  apply eq_of_entry length_compress length
  intro m small
  have byte := entry_lt b m
  rw [compress_eq, entry_fourBits small, decompress, coeff_ofFn (by omega), coeff_ofFn (by omega),
    if_pos (by omega), if_neg (by omega), show 2 * m / 2 = m by omega,
    show (2 * m + 1) / 2 = m by omega, compress4_decompress4, compress4_decompress4, one_byte byte]
  · rw [Nat.shiftRight_eq_div_pow]
    omega
  · exact lt_of_le_of_lt Nat.and_le_right (by norm_num)

theorem compressVec_decompressVec (length : b.length = 320) : (decompressVec b).compressVec = b := by
  apply eq_of_entry length_compressVec length
  intro k small
  have rest : k % 5 < 5 := Nat.mod_lt k (by omega)
  have turn : k / 5 < 64 := by omega
  rw [compressVec_eq, ← Nat.div_add_mod k 5, entry_groups (m := 5) (fun _ _ => rfl) turn rest]
  apply tenBits_tenBitValues _ rest
  intro j inside
  rw [coeff_decompressVec turn inside, compress10_decompress10]
  exact lt_of_le_of_lt Nat.and_le_right (by norm_num)

theorem bounded_decompress : (decompress b).Bounded 3328 := by
  intro i small
  rw [decompress, coeff_ofFn small]
  apply decompress4_within
  have byte := entry_lt b (i / 2)
  split
  · exact lt_of_le_of_lt Nat.and_le_right (by norm_num)
  · rw [Nat.shiftRight_eq_div_pow]
    omega

theorem bounded_decompressVec : (decompressVec b).Bounded 3328 := by
  intro i small
  rw [decompressVec, coeff_ofFn small]
  exact decompress10_within _

end Poly

end E2eeProxy.Mlkem
