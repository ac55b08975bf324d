import E2eeProxy.Lib.Sponge
import E2eeProxy.Mlkem.Sampling

/-! # Hash functions

fips202.c and symmetric-shake.c, for any permutation. The functions that take all input at
once work on whole words and blocks, the incremental ones on bytes.
-/

namespace E2eeProxy.Mlkem

open Lua Lib.Groups Lib.Sponge

/-- `uint64_t s[25]`. -/
abbrev Lanes := Vector UInt64 25

/-- A number of bytes that the permutation leaves to input and output. -/
structure Rate where
  bytes : ℕ
  positive : 0 < bytes
  aligned : 8 ∣ bytes
  fits : bytes ≤ 200

def shake128Rate : Rate := ⟨168, by norm_num, by norm_num, by norm_num⟩

def shake256Rate : Rate := ⟨136, by norm_num, by norm_num, by norm_num⟩

def sha3_256Rate : Rate := ⟨136, by norm_num, by norm_num, by norm_num⟩

def sha3_512Rate : Rate := ⟨72, by norm_num, by norm_num, by norm_num⟩

def zeroLanes : Lanes := Vector.replicate 25 0

def lane (s : Lanes) (i : ℕ) : UInt64 := s[i]?.getD 0

def load64 (x : Bytes) (start : ℕ) : UInt64 :=
  (List.range 8).foldl (fun r i => r ||| (x.getD (start + i) 0).toUInt64 <<< UInt64.ofNat (8 * i)) 0

def store64 (u : UInt64) : Bytes :=
  (List.range 8).map fun i => (u >>> UInt64.ofNat (8 * i)).toUInt8

/-- `s[i >> 3] ^= (uint64_t)b << (8 * (i & 7))`. -/
def xorByte (s : Lanes) (i : ℕ) (b : UInt8) : Lanes :=
  s.setIfInBounds (i >>> 3) (lane s (i >>> 3) ^^^ b.toUInt64 <<< UInt64.ofNat (8 * (i &&& 0x07)))

def xorBytes (s : Lanes) (start : ℕ) : Bytes → Lanes
  | [] => s
  | b :: m => xorBytes (xorByte s start b) (start + 1) m

def byteAt (s : Lanes) (i : ℕ) : UInt8 := (lane s (i >>> 3) >>> UInt64.ofNat (8 * (i &&& 0x07))).toUInt8

/-- The loops that mix in a block word by word. -/
def xorLanes (r : Rate) (s : Lanes) (m : Bytes) : Lanes :=
  (List.range (r.bytes / 8)).foldl (fun s i => s.setIfInBounds i (lane s i ^^^ load64 m (8 * i))) s

section Functions

variable (permute : Lanes → Lanes)

/-- A state as a sponge sees it. -/
def duplex : Duplex Lanes UInt8 := ⟨permute, xorByte, byteAt⟩

/-! ## At once -/

/-- The blocks that are full, and the rest of the input. -/
def absorbBlocks (r : Rate) (s : Lanes) (m : Bytes) : Lanes × Bytes :=
  if r.bytes ≤ m.length then absorbBlocks r (permute (xorLanes r s m)) (m.drop r.bytes) else (s, m)
termination_by m.length
decreasing_by
  have := r.positive
  rw [List.length_drop]
  omega

/-- The last block: what is left, `p`, and a bit at the end. -/
def padded (r : Rate) (m : Bytes) (p : UInt8) : Bytes :=
  let t := m ++ List.replicate (r.bytes - m.length) 0
  let t := t.set m.length p
  t.set (r.bytes - 1) (t.getD (r.bytes - 1) 0 ||| 128)

def keccakAbsorb (r : Rate) (m : Bytes) (p : UInt8) : Lanes :=
  let after := absorbBlocks permute r zeroLanes m
  xorLanes r after.1 (padded r after.2 p)

def keccakSqueezeblocks (r : Rate) : ℕ → Lanes → Bytes × Lanes
  | 0, s => ([], s)
  | nblocks + 1, s =>
      let s := permute s
      let h := groups (r.bytes / 8) fun i => store64 (lane s i)
      let rest := keccakSqueezeblocks r nblocks s
      (h ++ rest.1, rest.2)

/-- `shake256`, and `shake128` with the other rate. -/
def shake (r : Rate) (outlen : ℕ) (input : Bytes) : Bytes :=
  let nblocks := outlen / r.bytes
  let s := keccakAbsorb permute r input 0x1F
  let blocks := keccakSqueezeblocks permute r nblocks s
  let outlen := outlen - nblocks * r.bytes
  if outlen ≠ 0 then blocks.1 ++ (keccakSqueezeblocks permute r 1 blocks.2).1.take outlen else blocks.1

/-- `sha3_256` and `sha3_512`. -/
def sha3 (r : Rate) (size : ℕ) (input : Bytes) : Bytes :=
  let s := keccakAbsorb permute r input 0x06
  (keccakSqueezeblocks permute r 1 s).1.take size

end Functions

/-! ## Piece by piece -/

/-- The words and, as the 26th word, the number of bytes that have not been permuted or not
    been squeezed. -/
@[ext] structure Inc (r : Rate) where
  lanes : Lanes
  count : ℕ
  count_lt : count < r.bytes

section Incremental

variable (permute : Lanes → Lanes) {r : Rate}

def keccakIncInit (r : Rate) : Inc r := ⟨zeroLanes, 0, r.positive⟩

def keccakIncAbsorb (s : Inc r) (m : Bytes) : Inc r :=
  if full : r.bytes ≤ m.length + s.count then
    let n := r.bytes - s.count
    keccakIncAbsorb ⟨permute (xorBytes s.lanes s.count (m.take n)), 0, r.positive⟩ (m.drop n)
  else ⟨xorBytes s.lanes s.count m, s.count + m.length, by omega⟩
termination_by m.length
decreasing_by
  have := s.count_lt
  have := r.positive
  rw [List.length_drop]
  omega

def keccakIncFinalize (s : Inc r) (p : UInt8) : Inc r :=
  ⟨xorByte (xorByte s.lanes s.count p) (r.bytes - 1) 128, 0, r.positive⟩

/-- The second loop of `keccak_inc_squeeze`. -/
def squeezeBlocks (outlen : ℕ) (s : Inc r) : Bytes × Inc r :=
  if some : 0 < outlen then
    let lanes := permute s.lanes
    let n := min outlen r.bytes
    let h := (List.range n).map (byteAt lanes)
    have less : r.bytes - n < r.bytes := by have := r.positive; omega
    let rest := squeezeBlocks (outlen - n) ⟨lanes, r.bytes - n, less⟩
    (h ++ rest.1, rest.2)
  else ([], s)
termination_by outlen
decreasing_by
  have := r.positive
  omega

def keccakIncSqueeze (outlen : ℕ) (s : Inc r) : Bytes × Inc r :=
  let n := min outlen s.count
  let h := (List.range n).map fun i => byteAt s.lanes (r.bytes - s.count + i)
  have less : s.count - n < r.bytes := by have := s.count_lt; omega
  let rest := squeezeBlocks permute (outlen - n) ⟨s.lanes, s.count - n, less⟩
  (h ++ rest.1, rest.2)

end Incremental

/-! ## Words and bytes -/

theorem putAll_eq (permute : Lanes → Lanes) (s : Lanes) (start : ℕ) (m : Bytes) :
    putAll (duplex permute) s start m = xorBytes s start m := by
  induction m generalizing s start with
  | nil => rfl
  | cons b m ih => exact ih _ _

theorem position {i k : ℕ} (inside : k < 8) : (8 * i + k) >>> 3 = i ∧ (8 * i + k) &&& 0x07 = k := by
  rw [Nat.shiftRight_eq_div_pow, show (0x07 : ℕ) = 2 ^ 3 - 1 by norm_num, and_mask]
  omega

/-- Bytes as they lie in a word. -/
def xorWord : ℕ → Bytes → UInt64
  | _, [] => 0
  | k, b :: m => b.toUInt64 <<< UInt64.ofNat (8 * k) ^^^ xorWord (k + 1) m

theorem lane_set {s : Lanes} {i : ℕ} (inside : i < 25) (v : UInt64) : lane (s.setIfInBounds i v) i = v := by
  rw [lane, Vector.getElem?_setIfInBounds, if_pos rfl, if_pos inside, Option.getD_some]

theorem xorBytes_word {s : Lanes} {i k : ℕ} (inside : i < 25) {m : Bytes} (fits : k + m.length ≤ 8) :
    xorBytes s (8 * i + k) m = s.setIfInBounds i (lane s i ^^^ xorWord k m) := by
  induction m generalizing s k with
  | nil =>
    rw [xorBytes, xorWord, UInt64.xor_zero, lane]
    apply Vector.ext
    intro j small
    rw [Vector.getElem_setIfInBounds]
    split
    · subst i
      rw [Vector.getElem?_eq_getElem small, Option.getD_some]
    · rfl
  | cons b m ih =>
    rw [List.length_cons] at fits
    obtain ⟨word, byte⟩ := position (i := i) (k := k) (by omega)
    rw [xorBytes, Nat.add_assoc, ih (by omega), xorByte, word, byte, lane_set inside, xorWord,
      Vector.setIfInBounds_setIfInBounds, UInt64.xor_assoc]

theorem xorWord_append (k : ℕ) (m : Bytes) (b : UInt8) :
    xorWord k (m ++ [b]) = xorWord k m ^^^ b.toUInt64 <<< UInt64.ofNat (8 * (k + m.length)) := by
  induction m generalizing k with
  | nil => rw [List.nil_append, xorWord, xorWord, xorWord, UInt64.xor_zero, UInt64.zero_xor]; rfl
  | cons c m ih =>
    rw [List.cons_append, xorWord, ih, xorWord, UInt64.xor_assoc, List.length_cons, Nat.add_assoc,
      Nat.add_comm 1 m.length]

/-- Bits that do not meet. -/
theorem or_eq_xor {a b n : ℕ} (small : a < 2 ^ n) : a ||| b <<< n = a ^^^ b <<< n := by
  apply Nat.eq_of_testBit_eq
  intro j
  rw [Nat.testBit_or, Nat.testBit_xor, Nat.testBit_shiftLeft]
  rcases Nat.lt_or_ge j n with low | high
  · simp [show ¬ n ≤ j by omega]
  · rw [Nat.testBit_lt_two_pow (lt_of_lt_of_le small (Nat.pow_le_pow_right (by omega) high))]
    simp

theorem shifted_byte (b : UInt8) {n : ℕ} (inside : n < 8) :
    (b.toUInt64 <<< UInt64.ofNat (8 * n)).toNat = b.toNat <<< (8 * n) := by
  have amount : (UInt64.ofNat (8 * n)).toNat % 64 = 8 * n := by
    rw [UInt64.toNat_ofNat', Nat.mod_eq_of_lt (by omega), Nat.mod_eq_of_lt (by omega)]
  have small := b.toNat_lt
  have fits : 2 ^ 8 * 2 ^ (8 * n) ≤ 2 ^ 64 := by
    rw [← pow_add]
    exact Nat.pow_le_pow_right (by omega) (by omega)
  have positive := Nat.two_pow_pos (8 * n)
  rw [UInt64.toNat_shiftLeft, amount, UInt8.toNat_toUInt64, Nat.shiftLeft_eq, Nat.mod_eq_of_lt]
  nlinarith

/-- What has been loaded after some bytes. -/
theorem load_fold (x : Bytes) (start : ℕ) {n : ℕ} (le : n ≤ 8) :
    let r := (List.range n).foldl
      (fun r i => r ||| (x.getD (start + i) 0).toUInt64 <<< UInt64.ofNat (8 * i)) (0 : UInt64)
    r = xorWord 0 ((List.range n).map fun i => x.getD (start + i) 0) ∧ r.toNat < 2 ^ (8 * n) := by
  induction n with
  | zero => exact ⟨rfl, by norm_num⟩
  | succ n ih =>
    obtain ⟨before, small⟩ := ih (by omega)
    dsimp only
    rw [List.range_succ, List.foldl_append, List.foldl_cons, List.foldl_nil, List.map_append, List.map_cons,
      List.map_nil, xorWord_append, ← before, List.length_map, List.length_range, Nat.zero_add]
    generalize (List.range n).foldl _ (0 : UInt64) = r at small
    have byte := shifted_byte (x.getD (start + n) 0) (show n < 8 by omega)
    have less := (x.getD (start + n) 0).toNat_lt
    constructor
    · apply UInt64.toNat_inj.mp
      rw [UInt64.toNat_or, UInt64.toNat_xor, byte, or_eq_xor small]
    · rw [UInt64.toNat_or, byte, or_shiftLeft _ small, show 8 * (n + 1) = 8 * n + 8 by ring, pow_add]
      nlinarith

theorem load64_eq (x : Bytes) (start : ℕ) :
    load64 x start = xorWord 0 ((List.range 8).map fun i => x.getD (start + i) 0) :=
  (load_fold x start le_rfl).1

theorem xorBytes_append (s : Lanes) (start : ℕ) (first second : Bytes) :
    xorBytes s start (first ++ second) = xorBytes (xorBytes s start first) (start + first.length) second := by
  have whole := putAll_append (D := duplex id) s start first second
  rwa [putAll_eq, putAll_eq, putAll_eq] at whole

theorem range_mul_succ (n : ℕ) (x : Bytes) : (List.range (8 * (n + 1))).map (fun i => x.getD i 0) =
    (List.range (8 * n)).map (fun i => x.getD i 0) ++ (List.range 8).map fun i => x.getD (8 * n + i) 0 := by
  rw [show 8 * (n + 1) = 8 * n + 8 by ring, List.range_add, List.map_append, List.map_map]
  rfl

/-- Mixing in words is mixing in their bytes. -/
theorem xorLanes_eq (r : Rate) (s : Lanes) {m : Bytes} (enough : r.bytes ≤ m.length) :
    xorLanes r s m = xorBytes s 0 (m.take r.bytes) := by
  have words {n : ℕ} (le : n ≤ 25) :
      (List.range n).foldl (fun s i => s.setIfInBounds i (lane s i ^^^ load64 m (8 * i))) s =
        xorBytes s 0 ((List.range (8 * n)).map fun i => m.getD i 0) := by
    induction n with
    | zero => rfl
    | succ n ih =>
      rw [List.range_succ, List.foldl_append, List.foldl_cons, List.foldl_nil, ih (by omega), range_mul_succ,
        xorBytes_append, List.length_map, List.length_range, load64_eq, Nat.zero_add]
      exact (xorBytes_word (k := 0) (by omega) (by simp)).symm
  obtain ⟨n, whole⟩ := r.aligned
  have fits := r.fits
  have bytes : (List.range r.bytes).map (fun i => m.getD i 0) = m.take r.bytes := by
    apply List.ext_getElem
    · rw [List.length_map, List.length_range, List.length_take]
      omega
    · intro i inside inside'
      rw [List.length_map, List.length_range] at inside
      rw [List.getElem_map, List.getElem_range, List.getElem_take, List.getD_eq_getElem]
  rw [xorLanes, show r.bytes / 8 = n by omega, words (by omega), ← whole, bytes]

theorem block_eq (r : Rate) (s : Lanes) :
    (groups (r.bytes / 8) fun i => store64 (lane s i)) = (List.range r.bytes).map (byteAt s) := by
  obtain ⟨n, whole⟩ := r.aligned
  refine groups_eq (m := 8) ?_ (fun _ _ => rfl) ?_
  · rw [List.length_map, List.length_range]
    omega
  · intro i turn j inside
    obtain ⟨word, byte⟩ := position (i := i) inside
    rw [store64, List.getElem?_map, List.getElem?_map, List.getElem?_range inside,
      List.getElem?_range (by omega)]
    simp only [Option.map_some, byteAt, word, byte]

/-! ## Bytes and blocks -/

section Blocks

variable {permute : Lanes → Lanes} {r : Rate} {s : Lanes} {m : Bytes} {p : UInt8}

/-- Absorbing block by block is absorbing byte by byte. -/
theorem absorbBlocks_spec :
    (absorbBlocks permute r s m).2.length < r.bytes ∧
      absorbAll (duplex permute) r.bytes (s, 0) m =
        (xorBytes (absorbBlocks permute r s m).1 0 (absorbBlocks permute r s m).2,
          (absorbBlocks permute r s m).2.length) := by
  fun_induction absorbBlocks permute r s m with
  | case1 s m full ih =>
    have length : (m.take r.bytes).length = r.bytes := List.length_take_of_le full
    have block : absorbAll (duplex permute) r.bytes (s, 0) (m.take r.bytes) =
        (permute (xorLanes r s m), 0) := by
      rw [absorbAll_fills r.positive (by omega), putAll_eq, xorLanes_eq r s full]
      rfl
    refine ⟨ih.1, ?_⟩
    rw [← List.take_append_drop r.bytes m, absorbAll_append, block, List.take_append_drop]
    exact ih.2
  | case2 s m rest =>
    have short : m.length < r.bytes := Nat.lt_of_not_le rest
    refine ⟨short, ?_⟩
    rw [absorbAll_short (by omega), putAll_eq, Nat.zero_add]

theorem xorByte_zero (s : Lanes) (i : ℕ) : xorByte s i 0 = s := by
  rw [xorByte, show (0 : UInt8).toUInt64 = 0 from rfl, UInt64.zero_shiftLeft, UInt64.xor_zero, lane]
  apply Vector.ext
  intro j small
  rw [Vector.getElem_setIfInBounds]
  split
  · rename_i same
    rw [same, Vector.getElem?_eq_getElem small, Option.getD_some]
  · rfl

theorem xorBytes_zeros (s : Lanes) (start n : ℕ) : xorBytes s start (List.replicate n 0) = s := by
  induction n generalizing start with
  | zero => rfl
  | succ n ih => rw [List.replicate_succ, xorBytes, xorByte_zero, ih]

theorem xorByte_xorByte {i : ℕ} (inside : i < 200) (a b : UInt8) :
    xorByte (xorByte s i a) i b = xorByte s i (a ^^^ b) := by
  have word : i >>> 3 < 25 := by
    rw [Nat.shiftRight_eq_div_pow]
    omega
  unfold xorByte
  rw [lane_set word, Vector.setIfInBounds_setIfInBounds, UInt64.xor_assoc, UInt8.toUInt64_xor,
    UInt64.shiftLeft_xor]

theorem or_128 {p : UInt8} (small : p < 128) : p ||| 128 = p ^^^ 128 := by
  apply UInt8.toNat_inj.mp
  rw [UInt8.toNat_or, UInt8.toNat_xor]
  exact or_eq_xor (b := 1) (n := 7) small

theorem padded_eq (room : m.length < r.bytes) :
    padded r m p = if m.length + 1 = r.bytes then m ++ [p ||| 128]
      else m ++ [p] ++ List.replicate (r.bytes - m.length - 2) 0 ++ [128] := by
  obtain ⟨k, size⟩ : ∃ k, r.bytes = m.length + k + 1 := ⟨r.bytes - m.length - 1, by omega⟩
  have marked : (m ++ List.replicate (r.bytes - m.length) 0).set m.length p =
      m ++ p :: List.replicate k 0 := by
    rw [show r.bytes - m.length = k + 1 by omega, List.set_append_right _ _ le_rfl, Nat.sub_self,
      List.replicate_succ, List.set_cons_zero]
  unfold padded
  dsimp only
  rw [marked]
  cases k with
  | zero =>
    rw [if_pos (by omega), show r.bytes - 1 = m.length by omega, List.replicate_zero,
      List.set_append_right _ _ le_rfl, Nat.sub_self, List.getD_eq_getElem?_getD,
      List.getElem?_append_right le_rfl, Nat.sub_self]
    rfl
  | succ k =>
    have whole : m ++ p :: List.replicate (k + 1) 0 = m ++ [p] ++ List.replicate k 0 ++ [0] := by
      rw [List.replicate_succ']
      simp
    have place : (m ++ [p] ++ List.replicate k 0).length = r.bytes - 1 := by
      simp only [List.length_append, List.length_replicate, List.length_singleton]
      omega
    rw [if_neg (by omega), whole, ← place, List.set_append_right _ _ le_rfl, Nat.sub_self,
      List.getD_eq_getElem?_getD, List.getElem?_append_right le_rfl, Nat.sub_self,
      show r.bytes - m.length - 2 = k by omega]
    rfl

/-- The last block holds the end mark and the last bit, possibly in one byte. -/
theorem xorLanes_padded (small : p < 128) (room : m.length < r.bytes) :
    xorLanes r s (padded r m p) =
      xorByte (xorByte (xorBytes s 0 m) m.length p) (r.bytes - 1) 128 := by
  have fits := r.fits
  have length : (padded r m p).length = r.bytes := by
    unfold padded
    simp only [List.length_set, List.length_append, List.length_replicate]
    omega
  rw [xorLanes_eq r s (by omega), List.take_of_length_le (by omega), padded_eq room]
  split
  · rename_i last
    rw [xorBytes_append, Nat.zero_add, xorBytes, xorBytes, or_128 small, show r.bytes - 1 = m.length by omega,
      xorByte_xorByte (by omega)]
  · rename_i gap
    rw [xorBytes_append, xorBytes_append, xorBytes_zeros, xorBytes_append, Nat.zero_add, xorBytes, xorBytes,
      xorBytes, xorBytes]
    congr 1
    simp only [List.length_append, List.length_replicate, List.length_singleton]
    omega

/-- What absorbing and padding leave, whichever way it is done. -/
def finished (r : Rate) (s : Lanes × ℕ) (p : UInt8) : Lanes :=
  xorByte (xorByte s.1 s.2 p) (r.bytes - 1) 128

theorem keccakAbsorb_eq (small : p < 128) :
    keccakAbsorb permute r m p =
      finished r (absorbAll (duplex permute) r.bytes (zeroLanes, 0) m) p := by
  obtain ⟨room, absorbed⟩ := @absorbBlocks_spec permute r zeroLanes m
  rw [keccakAbsorb, absorbed]
  exact xorLanes_padded small room

theorem keccakSqueezeblocks_eq (n : ℕ) (s : Lanes) :
    squeezeMany (duplex permute) r.bytes (n * r.bytes) (s, 0) =
      ((keccakSqueezeblocks permute r n s).1, (keccakSqueezeblocks permute r n s).2, 0) := by
  induction n generalizing s with
  | zero =>
    rw [Nat.zero_mul]
    rfl
  | succ n ih =>
    rw [Nat.succ_mul, Nat.add_comm, squeezeMany_add, squeezeMany_fresh r.positive le_rfl, Nat.sub_self, ih]
    rw [keccakSqueezeblocks]
    dsimp only
    rw [block_eq]
    rfl

/-- The first bytes of what never ends. -/
theorem shake_eq (outlen : ℕ) :
    shake permute r outlen m = (squeezeMany (duplex permute) r.bytes outlen
      (finished r (absorbAll (duplex permute) r.bytes (zeroLanes, 0) m) 0x1F, 0)).1 := by
  rw [← keccakAbsorb_eq (by decide)]
  unfold shake
  dsimp only
  generalize keccakAbsorb permute r m 0x1F = s
  have whole : outlen / r.bytes * r.bytes + outlen % r.bytes = outlen := by
    rw [Nat.mul_comm]
    exact Nat.div_add_mod _ _
  have less : outlen % r.bytes < r.bytes := Nat.mod_lt _ r.positive
  rw [show outlen - outlen / r.bytes * r.bytes = outlen % r.bytes by omega]
  conv_rhs => rw [← whole]
  rw [squeezeMany_add, keccakSqueezeblocks_eq]
  dsimp only
  split
  · rename_i more
    rw [squeezeMany_fresh (by omega) (by omega)]
    dsimp only
    congr 1
    rw [keccakSqueezeblocks, keccakSqueezeblocks]
    dsimp only
    rw [List.append_nil, block_eq, ← List.map_take, List.take_range, Nat.min_eq_left less.le]
    rfl
  · rename_i none
    rw [show outlen % r.bytes = 0 by omega, squeezeMany, List.append_nil]

end Blocks

/-! ## Pieces -/

section Pieces

variable {permute : Lanes → Lanes} {r : Rate}

/-- An incremental state as a sponge sees it. -/
def Inc.view (s : Inc r) : Lanes × ℕ := (s.lanes, s.count)

theorem keccakIncAbsorb_view (s : Inc r) (m : Bytes) :
    (keccakIncAbsorb permute s m).view = absorbAll (duplex permute) r.bytes s.view m := by
  fun_induction keccakIncAbsorb permute s m with
  | case1 s m full n ih =>
    have less := s.count_lt
    have length : (m.take n).length = n := List.length_take_of_le (by omega)
    rw [ih, ← List.take_append_drop n m, absorbAll_append, List.take_append_drop]
    congr 1
    rw [Inc.view, Inc.view, absorbAll_fills less (by omega), putAll_eq]
    rfl
  | case2 s m rest =>
    rw [Inc.view, Inc.view, absorbAll_short (by omega), putAll_eq]

theorem keccakIncFinalize_view (s : Inc r) (p : UInt8) :
    (keccakIncFinalize s p).view = (finished r s.view p, 0) := rfl

theorem squeezeBlocks_view (outlen : ℕ) (s : Inc r) (fresh : 0 < outlen → s.count = 0) :
    squeezeMany (duplex permute) r.bytes outlen s.view =
      ((squeezeBlocks permute outlen s).1, (squeezeBlocks permute outlen s).2.view) := by
  fun_induction squeezeBlocks permute outlen s with
  | case1 outlen s some lanes n h less rest ih =>
    have positive := r.positive
    have split : outlen = n + (outlen - n) := by omega
    rw [split, squeezeMany_add, Inc.view, fresh some, squeezeMany_fresh (by omega) (by omega)]
    dsimp only
    have after : squeezeMany (duplex permute) r.bytes (outlen - n)
        ((duplex permute).permute s.lanes, r.bytes - n) = (rest.1, rest.2.view) :=
      ih (by dsimp only; omega)
    rw [after]
    rfl
  | case2 outlen s none =>
    obtain rfl : outlen = 0 := by omega
    rfl

theorem keccakIncSqueeze_view (outlen : ℕ) (s : Inc r) :
    squeezeMany (duplex permute) r.bytes outlen s.view =
      ((keccakIncSqueeze permute outlen s).1, (keccakIncSqueeze permute outlen s).2.view) := by
  have less := s.count_lt
  have split : outlen = min outlen s.count + (outlen - min outlen s.count) := by omega
  conv_lhs => rw [split]
  rw [squeezeMany_add, Inc.view, squeezeMany_left (by omega) (by omega)]
  unfold keccakIncSqueeze
  dsimp only
  have rest := @squeezeBlocks_view permute r (outlen - min outlen s.count)
    ⟨s.lanes, s.count - min outlen s.count, by omega⟩ (by dsimp only; omega)
  rw [Inc.view] at rest
  rw [rest]
  rfl

/-- Several calls of `shake256_inc_squeeze`. -/
def squeezePieces (permute : Lanes → Lanes) : List ℕ → Inc r → Bytes
  | [], _ => []
  | outlen :: outlens, s =>
      let h := keccakIncSqueeze permute outlen s
      h.1 ++ squeezePieces permute outlens h.2

theorem absorbPieces_view (ms : List Bytes) (s : Inc r) :
    (ms.foldl (keccakIncAbsorb permute) s).view =
      absorbAll (duplex permute) r.bytes s.view ms.flatten := by
  induction ms generalizing s with
  | nil => rfl
  | cons m ms ih => rw [List.foldl_cons, ih, keccakIncAbsorb_view, List.flatten_cons, absorbAll_append]

theorem squeezePieces_eq (outlens : List ℕ) (s : Inc r) :
    squeezePieces permute outlens s =
      (squeezeMany (duplex permute) r.bytes outlens.sum s.view).1 := by
  induction outlens generalizing s with
  | nil => rfl
  | cons outlen outlens ih =>
    rw [squeezePieces, ih, List.sum_cons, squeezeMany_add, keccakIncSqueeze_view outlen s]

/-- However input and output are cut into pieces, the incremental functions compute what the
    others do. -/
theorem incremental_eq_shake (ms : List Bytes) (outlens : List ℕ) :
    squeezePieces permute outlens
        (keccakIncFinalize (ms.foldl (keccakIncAbsorb permute) (keccakIncInit r)) 0x1F) =
      shake permute r outlens.sum ms.flatten := by
  rw [squeezePieces_eq, keccakIncFinalize_view, absorbPieces_view, shake_eq]
  rfl

end Pieces

/-! ## The functions of symmetric.h -/

section Kyber

variable (permute : Lanes → Lanes)

/-- `kyber_shake128_absorb`, and a call of `shake128_squeezeblocks` for each block. -/
def kyberXof (extseed : Bytes) (block : ℕ) : Bytes :=
  let s := keccakAbsorb permute shake128Rate extseed 0x1F
  (keccakSqueezeblocks permute shake128Rate 1 (keccakSqueezeblocks permute shake128Rate block s).2).1

def kyberShake256Prf (outlen : ℕ) (key : Bytes) (nonce : UInt8) : Bytes :=
  shake permute shake256Rate outlen (key.take 32 ++ [nonce])

def kyberShake256Rkprf (key input : Bytes) : Bytes :=
  let s := keccakIncInit shake256Rate
  let s := keccakIncAbsorb permute s (key.take 32)
  let s := keccakIncAbsorb permute s (input.take 1088)
  let s := keccakIncFinalize s 0x1F
  (keccakIncSqueeze permute 32 s).1

variable {permute} {r : Rate}

theorem length_shake (outlen : ℕ) (input : Bytes) : (shake permute r outlen input).length = outlen := by
  rw [shake_eq, length_squeezeMany]

theorem length_squeezeblocks (n : ℕ) (s : Lanes) :
    (keccakSqueezeblocks permute r n s).1.length = n * r.bytes := by
  have whole := congrArg (fun out => out.1.length) (@keccakSqueezeblocks_eq permute r n s)
  simp only [length_squeezeMany] at whole
  exact whole.symm

/-- Several blocks at once are the same blocks. -/
theorem squeezeblocks_succ (n : ℕ) (s : Lanes) :
    keccakSqueezeblocks permute r (n + 1) s =
      ((keccakSqueezeblocks permute r n s).1 ++
          (keccakSqueezeblocks permute r 1 (keccakSqueezeblocks permute r n s).2).1,
        (keccakSqueezeblocks permute r 1 (keccakSqueezeblocks permute r n s).2).2) := by
  induction n generalizing s with
  | zero => rfl
  | succ n ih =>
    rw [keccakSqueezeblocks, ih]
    conv_rhs => rw [keccakSqueezeblocks]
    rw [List.append_assoc]

theorem squeezed_kyberXof (extseed : Bytes) (n : ℕ) :
    squeezed (kyberXof permute extseed) n =
      (keccakSqueezeblocks permute shake128Rate n
        (keccakAbsorb permute shake128Rate extseed 0x1F)).1 := by
  induction n with
  | zero => rfl
  | succ n ih =>
    rw [squeezed_succ, ih, squeezeblocks_succ]
    rfl

theorem shake_blocks (n : ℕ) (m : Bytes) : shake permute r (n * r.bytes) m =
    (keccakSqueezeblocks permute r n (keccakAbsorb permute r m 0x1F)).1 := by
  unfold shake
  rw [Nat.mul_div_cancel n r.positive]
  dsimp only
  rw [Nat.sub_self, if_neg (by simp)]

/-- Blocks that are squeezed one by one are what `shake128` returns at once. -/
theorem squeezed_eq_shake (extseed : Bytes) (n : ℕ) :
    squeezed (kyberXof permute extseed) n = shake permute shake128Rate (n * 168) extseed :=
  (squeezed_kyberXof extseed n).trans (shake_blocks n extseed).symm

/-- The key of a rejected ciphertext, computed in two pieces, is a hash of both. -/
theorem kyberShake256Rkprf_eq (key input : Bytes) :
    kyberShake256Rkprf permute key input =
      shake permute shake256Rate 32 (key.take 32 ++ input.take 1088) := by
  have pieces := @incremental_eq_shake permute shake256Rate [key.take 32, input.take 1088] [32]
  simp only [squeezePieces, List.append_nil, List.foldl_cons, List.foldl_nil, List.flatten_cons,
    List.flatten_nil, List.sum_cons, List.sum_nil, Nat.add_zero] at pieces
  exact pieces

theorem shake_take (n k : ℕ) (m : Bytes) :
    (shake permute r (n + k) m).take n = shake permute r n m := by
  rw [shake_eq, shake_eq, squeezeMany_add]
  exact List.take_left' (length_squeezeMany _ _)

/-- However input and output are cut into pieces or blocks, and however much is asked for, it
    is one stream of bytes. -/
theorem streams_eq_shake (ms : List Bytes) (outlens : List ℕ) (extseed : Bytes) (n k : ℕ) :
    squeezePieces permute outlens
        (keccakIncFinalize (ms.foldl (keccakIncAbsorb permute) (keccakIncInit r)) 0x1F) =
      shake permute r outlens.sum ms.flatten ∧
    squeezed (kyberXof permute extseed) n = shake permute shake128Rate (n * 168) extseed ∧
    (shake permute r (n + k) extseed).take n = shake permute r n extseed :=
  ⟨incremental_eq_shake ms outlens, squeezed_eq_shake extseed n, shake_take n k extseed⟩

theorem length_sha3 {size : ℕ} (fits : size ≤ r.bytes) (input : Bytes) :
    (sha3 permute r size input).length = size := by
  rw [sha3, List.length_take, length_squeezeblocks, Nat.one_mul, Nat.min_eq_left fits]

variable (permute)

/-- What symmetric.h defines by fips202.h. -/
def kyberSymmetric : Symmetric where
  hashH := sha3 permute sha3_256Rate 32
  hashG := sha3 permute sha3_512Rate 64
  xof := kyberXof permute
  prf := kyberShake256Prf permute
  rkprf := kyberShake256Rkprf permute
  length_hashH := length_sha3 (by decide)
  length_hashG := length_sha3 (by decide)
  length_xof _ _ := length_squeezeblocks 1 _
  length_prf outlen _ _ := length_shake outlen _
  length_rkprf key input := by rw [kyberShake256Rkprf_eq, length_shake]

end Kyber

end E2eeProxy.Mlkem
