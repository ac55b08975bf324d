import E2eeProxy.Mlkem.Compress
import Mathlib.Data.ZMod.ValMinAbs

/-! # Messages

A message has a bit for every coefficient; a one is half of `q`. What is close enough to
what was written is read as the same bit.
-/

namespace E2eeProxy.Mlkem

open Lua Lib.Groups

/-- `*r` after `PQCLEAN_MLKEM768_CLEAN_cmov_int16`. -/
def cmovInt16 (r v : Int16) (b : UInt16) : Int16 :=
  let b := -b
  r ^^^ (b.toInt16 &&& (r ^^^ v))

/-- The bit that `poly_tomsg` makes of a coefficient. -/
def toBit (c : Int16) : UInt32 :=
  let t : UInt32 := c.toInt32.toUInt32
  let t := t <<< 1
  let t := t + 1665
  let t := t * 80635
  let t := t >>> 28
  t &&& 1

namespace Poly

def frommsg (msg : Bytes) : Poly :=
  ofFn fun k => cmovInt16 0 ((3329 + 1) / 2) (UInt16.ofNat (entry msg (k / 8) >>> (k % 8) &&& 1))

def tomsg (a : Poly) : Bytes :=
  (List.range 32).map fun i =>
    (List.range 8).foldl (fun msg j => msg ||| (toBit (a.coeff (8 * i + j)) <<< UInt32.ofNat j).toUInt8) 0

end Poly

/-! ## Bits -/

/-- The bit of a message that belongs to a coefficient. -/
def messageBit (msg : Bytes) (k : ℕ) : Bool := (entry msg (k / 8)).testBit (k % 8)

theorem toBit_eq {c : Int16} (within : Within 1664 c) :
    toBit c = if 833 ≤ |c.toInt| then 1 else 0 := by
  obtain ⟨low, high⟩ := within
  have cond : c.toInt32.toInt = if 2 * c.toInt32.toUInt32.toNat < 2 ^ 32
      then (c.toInt32.toUInt32.toNat : ℤ) else (c.toInt32.toUInt32.toNat : ℤ) - (2 ^ 32 : ℕ) :=
    BitVec.toInt_eq_toNat_cond c.toInt32.toBitVec
  rw [widen (a := c) rfl] at cond
  have small := c.toInt32.toUInt32.toNat_lt
  apply UInt32.toNat_inj.mp
  unfold toBit
  dsimp only
  rw [UInt32.toNat_and, UInt32.toNat_shiftRight, UInt32.toNat_mul, UInt32.toNat_add, UInt32.toNat_shiftLeft]
  generalize c.toInt32.toUInt32.toNat = t, c.toInt = x at *
  change ((t <<< 1 % 2 ^ 32 + 1665) % 2 ^ 32 * 80635 % 2 ^ 32) >>> 28 &&& 2 ^ 1 - 1 = _
  rw [and_mask, Nat.shiftRight_eq_div_pow, Nat.shiftLeft_eq]
  rcases le_or_gt 0 x with nonneg | negative
  · obtain rfl : x = t := by split at cond <;> omega
    rw [abs_of_nonneg nonneg, Nat.mod_eq_of_lt (a := t * 2 ^ 1) (by omega),
      Nat.mod_eq_of_lt (a := t * 2 ^ 1 + 1665) (by omega),
      Nat.mod_eq_of_lt (a := (t * 2 ^ 1 + 1665) * 80635) (by omega)]
    split
    · rw [show (t * 2 ^ 1 + 1665) * 80635 / 2 ^ 28 = 1 from Nat.div_eq_of_lt_le (by omega) (by omega)]
      rfl
    · rw [Nat.div_eq_of_lt (by omega)]
      rfl
  · have value : (t : ℤ) = x + 2 ^ 32 := by split at cond <;> omega
    have doubled : t * 2 ^ 1 % 2 ^ 32 = 2 * t - 2 ^ 32 := by omega
    rw [abs_of_neg negative, doubled]
    split
    · -- The sum stays below zero and wraps around.
      obtain ⟨y, sum⟩ : ∃ y, y = 2 ^ 33 - 2 * t - 1665 := ⟨_, rfl⟩
      rw [show (2 * t - 2 ^ 32 + 1665) % 2 ^ 32 = 2 ^ 32 - y by omega,
        show (2 ^ 32 - y) * 80635 % 2 ^ 32 = 2 ^ 32 - 80635 * y by omega,
        show (2 ^ 32 - 80635 * y) / 2 ^ 28 = 15 from Nat.div_eq_of_lt_le (by omega) (by omega)]
      rfl
    · obtain ⟨z, sum⟩ : ∃ z, z = 2 * t + 1665 - 2 ^ 33 := ⟨_, rfl⟩
      rw [show (2 * t - 2 ^ 32 + 1665) % 2 ^ 32 = z by omega, Nat.mod_eq_of_lt (a := z * 80635) (by omega),
        Nat.div_eq_of_lt (by omega)]
      rfl

theorem shiftedBit (t : UInt32) (bit : t = 0 ∨ t = 1) {j k : ℕ} (small : j < 8) :
    ((t <<< UInt32.ofNat j).toUInt8.toNat).testBit k = decide (j = k ∧ t = 1) := by
  rcases bit with rfl | rfl
  · simp
  · have one : ∀ j < 8, ((1 : UInt32) <<< UInt32.ofNat j).toUInt8.toNat = 2 ^ j := by decide
    rw [one j small, Nat.testBit_two_pow]
    simp

/-- A byte has the bits that were put into it. -/
theorem testBit_fold {t : ℕ → UInt32} (bits : ∀ j, t j = 0 ∨ t j = 1) {n : ℕ} (le : n ≤ 8) (k : ℕ) :
    ((List.range n).foldl (fun (msg : UInt8) j => msg ||| (t j <<< UInt32.ofNat j).toUInt8) 0).toNat.testBit k =
      decide (k < n ∧ t k = 1) := by
  induction n with
  | zero => simp
  | succ n ih =>
    rw [List.range_succ, List.foldl_append, List.foldl_cons, List.foldl_nil, UInt8.toNat_or,
      Nat.testBit_or, ih (by omega), shiftedBit _ (bits n) (by omega)]
    by_cases last : n = k
    · subst last
      simp
    · have same : (k < n) ↔ (k < n + 1) := by omega
      simp [last, same]

theorem toBit_cases (c : Int16) : toBit c = 0 ∨ toBit c = 1 := by
  have value : (toBit c).toNat < 2 := by
    unfold toBit
    dsimp only
    rw [UInt32.toNat_and, show (1 : UInt32).toNat = 2 ^ 1 - 1 from rfl, and_mask]
    exact Nat.mod_lt _ (by norm_num)
  rcases (by omega : (toBit c).toNat = 0 ∨ (toBit c).toNat = 1) with zero | one
  · exact .inl (UInt32.toNat_inj.mp zero)
  · exact .inr (UInt32.toNat_inj.mp one)

theorem messageBit_eq {msg : Bytes} {k : ℕ} :
    messageBit msg k = decide (entry msg (k / 8) >>> (k % 8) &&& 1 = 1) := by
  rw [messageBit, Nat.testBit_eq_decide_div_mod_eq, Nat.shiftRight_eq_div_pow, Nat.and_one_is_mod]

namespace Poly

variable {a : Poly} {m : Bytes} {i k : ℕ}

theorem coeff_frommsg (small : k < 256) :
    (frommsg m).coeff k = if messageBit m k then 1665 else 0 := by
  rw [frommsg, coeff_ofFn small, messageBit_eq]
  have bit : entry m (k / 8) >>> (k % 8) &&& 1 < 2 := lt_of_le_of_lt Nat.and_le_right (by norm_num)
  generalize entry m (k / 8) >>> (k % 8) &&& 1 = b at bit
  obtain rfl | rfl : b = 0 ∨ b = 1 := by omega
  · decide
  · decide

theorem length_tomsg : a.tomsg.length = 32 := by
  rw [tomsg, List.length_map, List.length_range]

theorem messageBit_tomsg (small : k < 256) : messageBit a.tomsg k = decide (toBit (a.coeff k) = 1) := by
  have turn : k / 8 < 32 := by omega
  have place : 8 * (k / 8) + k % 8 = k := Nat.div_add_mod k 8
  rw [messageBit, entry, tomsg, List.getD_eq_getElem _ _ (by rw [List.length_map, List.length_range]; exact turn),
    List.getElem_map, List.getElem_range, testBit_fold (fun j => toBit_cases _) le_rfl, place]
  simp [Nat.mod_lt k (show 8 > 0 by omega)]

/-- Messages are the same when all their bits are. -/
theorem eq_of_messageBit {l : Bytes} (length : l.length = 32) (length' : m.length = 32)
    (same : ∀ k < 256, messageBit l k = messageBit m k) : l = m := by
  apply eq_of_entry length length'
  intro i small
  apply Nat.eq_of_testBit_eq
  intro j
  rcases Nat.lt_or_ge j 8 with inside | outside
  · have here := same (8 * i + j) (by omega)
    unfold messageBit at here
    rwa [show (8 * i + j) / 8 = i by omega, show (8 * i + j) % 8 = j by omega] at here
  · have large : 2 ^ 8 ≤ 2 ^ j := Nat.pow_le_pow_right (by omega) outside
    rw [Nat.testBit_lt_two_pow (lt_of_lt_of_le (entry_lt l i) large),
      Nat.testBit_lt_two_pow (lt_of_lt_of_le (entry_lt m i) large)]

theorem tomsg_eq_iff (length : m.length = 32) :
    a.tomsg = m ↔ ∀ k < 256, (toBit (a.coeff k) = 1 ↔ messageBit m k = true) := by
  constructor
  · rintro rfl k small
    rw [messageBit_tomsg small, decide_eq_true_iff]
  · intro same
    apply eq_of_messageBit length_tomsg length
    intro k small
    rw [Bool.eq_iff_iff, messageBit_tomsg small, decide_eq_true_iff]
    exact same k small

end Poly

/-! ## Noise -/

/-- An error that leaves a bit what it is. A one is closer to its upper border. -/
def Decodes (bit : Bool) (w : Zq) : Prop :=
  -832 ≤ w.valMinAbs ∧ w.valMinAbs ≤ if bit then 831 else 832

instance (bit : Bool) (w : Zq) : Decidable (Decodes bit w) :=
  inferInstanceAs (Decidable (_ ∧ _))

theorem valMinAbs_eq {w : Zq} {y : ℤ} (same : w = y) (low : -1664 ≤ y) (high : y ≤ 1664) :
    w.valMinAbs = y := by
  rw [ZMod.valMinAbs_spec]
  refine ⟨same, ?_, ?_⟩ <;> push_cast <;> omega

theorem toBit_iff_decodes {c : Int16} {w : Zq} {bit : Bool} (within : Within 1664 c)
    (sum : residue c = (if bit then 1665 else 0) + w) :
    (toBit c = 1 ↔ bit = true) ↔ Decodes bit w := by
  have value : toBit c = 1 ↔ 833 ≤ |c.toInt| := by
    rw [toBit_eq within]
    split <;> simp_all
  obtain ⟨low, high⟩ := within
  rw [value, le_abs]
  unfold Decodes
  unfold residue at sum
  cases bit with
  | false =>
    have same : w = (c.toInt : Zq) := by simpa using sum.symm
    rw [valMinAbs_eq same low high]
    simp only [Bool.false_eq_true, iff_false, if_false]
    omega
  | true =>
    have same : w = ((c.toInt - 1665 : ℤ) : Zq) := by
      push_cast
      rw [sum, if_pos rfl]
      ring
    have wrapped : w = ((c.toInt + 1664 : ℤ) : Zq) := by
      have full : (3329 : Zq) = 0 := by decide
      rw [same]
      push_cast
      linear_combination -full
    simp only [iff_true, if_true]
    rcases lt_or_ge 0 c.toInt with above | below
    · rw [valMinAbs_eq same (by omega) (by omega)]
      omega
    · rw [valMinAbs_eq wrapped (by omega) (by omega)]
      omega

namespace Poly

variable {a : Poly} {m : Bytes}

theorem residues_frommsg {k : ℕ} (small : k < 256) :
    (frommsg m).residues k = if messageBit m k then 1665 else 0 := by
  rw [residues, coeff_frommsg small]
  split <;> decide

/-- A message with an error is read as the same message exactly if no bit changes. -/
theorem tomsg_eq_iff_decodes (bounded : a.Bounded 1664) (length : m.length = 32) {w : ℕ → Zq}
    (sum : ∀ k < 256, a.residues k = (frommsg m).residues k + w k) :
    a.tomsg = m ↔ ∀ k < 256, Decodes (messageBit m k) (w k) := by
  rw [tomsg_eq_iff length]
  refine forall₂_congr fun k small => ?_
  have here := sum k small
  rw [residues_frommsg small] at here
  exact toBit_iff_decodes (bounded k small) here

end Poly

end E2eeProxy.Mlkem
