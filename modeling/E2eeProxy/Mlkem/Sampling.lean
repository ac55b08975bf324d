import E2eeProxy.Mlkem.Noise

/-! # The matrix

`rej_uniform` and `PQCLEAN_MLKEM768_CLEAN_gen_matrix` of indcpa.c. An entry of the matrix
is read off a stream that has no end: values that are too large are passed over, block
after block, until there are enough.
-/

namespace E2eeProxy.Mlkem

open Lua Lib.Groups

/-- The hash functions of symmetric.h. Each fills the buffer it is given. -/
structure Symmetric where
  hashH : Bytes → Bytes
  hashG : Bytes → Bytes
  /-- What is squeezed as the block of the given number, once the bytes have been absorbed. -/
  xof : Bytes → ℕ → Bytes
  prf : ℕ → Bytes → UInt8 → Bytes
  rkprf : Bytes → Bytes → Bytes
  length_hashH (input : Bytes) : (hashH input).length = 32
  length_hashG (input : Bytes) : (hashG input).length = 64
  length_xof (input : Bytes) (block : ℕ) : (xof input block).length = 168
  length_prf (outlen : ℕ) (key : Bytes) (nonce : UInt8) : (prf outlen key nonce).length = outlen
  length_rkprf (key input : Bytes) : (rkprf key input).length = 32

/-- What is in `r` when `rej_uniform` has returned. -/
def rejUniform (len : ℕ) : List ℕ → Bytes → List ℕ
  | r, b0 :: b1 :: b2 :: buf =>
      if r.length < len then
        let val0 := ((b0.toNat >>> 0) ||| (b1.toNat <<< 8)) &&& 0xFFF
        let val1 := ((b1.toNat >>> 4) ||| (b2.toNat <<< 4)) &&& 0xFFF
        let r := if val0 < 3329 then r ++ [val0] else r
        let r := if r.length < len ∧ val1 < 3329 then r ++ [val1] else r
        rejUniform len r buf
      else r
  | r, _ => r

/-- The second loop of `gen_matrix`, so many times at most. -/
def refill (blocks : ℕ → Bytes) : ℕ → ℕ → List ℕ → Option (List ℕ)
  | 0, _, r => if r.length < 256 then none else some r
  | fuel + 1, n, r =>
      if r.length < 256 then
        refill blocks fuel (n + 1) (r ++ rejUniform (256 - r.length) [] (blocks n))
      else some r

/-- An entry of the matrix, unless more blocks are needed than there is fuel for. -/
def sampleEntry (fuel : ℕ) (blocks : ℕ → Bytes) : Option Poly :=
  let r := rejUniform 256 [] (blocks 0 ++ blocks 1 ++ blocks 2)
  (refill blocks fuel 3 r).map fun r => Poly.ofFn fun k => Int16.ofNat (r.getD k 0)

/-- `xof_absorb` appends the indices in the order that `transposed` asks for. -/
def entrySeed (seed : Bytes) (transposed : Bool) (i j : Fin 3) : Bytes :=
  if transposed then seed ++ [UInt8.ofNat i, UInt8.ofNat j] else seed ++ [UInt8.ofNat j, UInt8.ofNat i]

/-- A loop over the indices that fills an array. -/
def fillArray {α : Type*} (f : Fin 3 → Option α) : Option (Fin 3 → α) := do
  let a0 ← f ⟨0, by decide⟩
  let a1 ← f ⟨1, by decide⟩
  let a2 ← f ⟨2, by decide⟩
  return ![a0, a1, a2]

def genMatrix (S : Symmetric) (fuel : ℕ) (seed : Bytes) (transposed : Bool) :
    Option (Fin 3 → PolyVec) :=
  fillArray fun i => fillArray fun j => sampleEntry fuel (S.xof (entrySeed seed transposed i j))

/-! ## Without blocks -/

/-- The values of twelve bits in a string. -/
def candidates : Bytes → List ℕ
  | b0 :: b1 :: b2 :: buf =>
      (((b0.toNat >>> 0) ||| (b1.toNat <<< 8)) &&& 0xFFF) ::
        (((b1.toNat >>> 4) ||| (b2.toNat <<< 4)) &&& 0xFFF) :: candidates buf
  | _ => []

def accepted (buf : Bytes) : List ℕ := (candidates buf).filter (· < 3329)

/-- What has been squeezed after so many blocks. -/
def squeezed (blocks : ℕ → Bytes) (n : ℕ) : Bytes := groups n blocks

theorem candidates_append {a b : Bytes} (whole : 3 ∣ a.length) :
    candidates (a ++ b) = candidates a ++ candidates b := by
  fun_induction candidates a with
  | case1 b0 b1 b2 buf ih =>
    have rest : 3 ∣ buf.length := by
      simp only [List.length_cons] at whole
      omega
    simp only [List.cons_append, candidates, ih rest]
  | case2 a none =>
    match a with
    | [] => rfl
    | [_] => simp at whole
    | [_, _] => simp at whole
    | b0 :: b1 :: b2 :: buf => exact absurd rfl (none b0 b1 b2 buf)

theorem accepted_append {a b : Bytes} (whole : 3 ∣ a.length) :
    accepted (a ++ b) = accepted a ++ accepted b := by
  rw [accepted, candidates_append whole, List.filter_append]
  rfl

theorem accepted_lt {buf : Bytes} {v : ℕ} (mem : v ∈ accepted buf) : v < 3329 := by
  have := List.of_mem_filter mem
  simpa using this

section Rejection

variable {len : ℕ} {r : List ℕ}

/-- A value that does not fit any more makes no difference. -/
theorem take_accept (fits : r.length ≤ len) (v : ℕ) (l : List ℕ) :
    ((if r.length < len ∧ v < 3329 then r ++ [v] else r) ++ l).take len =
      (r ++ ([v].filter (· < 3329) ++ l)).take len := by
  by_cases small : v < 3329
  · by_cases room : r.length < len
    · rw [if_pos ⟨room, small⟩]
      simp [small]
    · have full : r.length = len := by omega
      rw [if_neg (fun both => room both.1), List.take_left' full, List.take_left' full]
  · rw [if_neg (fun both => small both.2)]
    simp [small]

theorem length_accept (fits : r.length ≤ len) (v : ℕ) :
    (if r.length < len ∧ v < 3329 then r ++ [v] else r).length ≤ len := by
  split
  · rename_i both
    rw [List.length_append, List.length_singleton]
    omega
  · exact fits

/-- The first values are kept, as many as there is room for. -/
theorem rejUniform_eq (fits : r.length ≤ len) (buf : Bytes) :
    rejUniform len r buf = (r ++ accepted buf).take len := by
  fun_induction rejUniform len r buf with
  | case1 r b0 b1 b2 buf room val0 val1 r1 r2 ih =>
    have first : r1 = if r.length < len ∧ val0 < 3329 then r ++ [val0] else r := by simp [r1, room]
    have fits1 : r1.length ≤ len := by
      rw [first]
      exact length_accept fits val0
    have whole : accepted (b0 :: b1 :: b2 :: buf) =
        [val0].filter (· < 3329) ++ ([val1].filter (· < 3329) ++ accepted buf) := by
      change List.filter _ ([val0] ++ ([val1] ++ candidates buf)) = _
      rw [List.filter_append, List.filter_append]
      rfl
    rw [ih (length_accept fits1 val1), take_accept fits1, first, take_accept fits, whole]
  | case2 r b0 b1 b2 buf full =>
    rw [List.take_left' (by omega)]
  | case3 buf r none =>
    have empty : accepted buf = [] := by
      match buf with
      | [] | [_] | [_, _] => rfl
      | b0 :: b1 :: b2 :: buf => exact absurd rfl (none b0 b1 b2 buf)
    rw [empty, List.append_nil, List.take_of_length_le fits]

end Rejection

theorem squeezed_succ (blocks : ℕ → Bytes) (n : ℕ) : squeezed blocks (n + 1) = squeezed blocks n ++ blocks n :=
  groups_succ n blocks

section Stream

variable {blocks : ℕ → Bytes} (whole : ∀ n, (blocks n).length = 168)
include whole

theorem squeezed_whole (n : ℕ) : 3 ∣ (squeezed blocks n).length := by
  rw [squeezed, length_groups fun i _ => whole i]
  exact Dvd.dvd.mul_left (by norm_num) n

/-- A block more continues where the blocks before it ended. -/
theorem accepted_squeezed (n : ℕ) :
    accepted (squeezed blocks (n + 1)) = accepted (squeezed blocks n) ++ accepted (blocks n) := by
  rw [squeezed_succ, accepted_append (squeezed_whole whole n)]

theorem refill_step {n : ℕ} (short : (accepted (squeezed blocks n)).length < 256) :
    (accepted (squeezed blocks n)).take 256 ++
        rejUniform (256 - ((accepted (squeezed blocks n)).take 256).length) [] (blocks n) =
      (accepted (squeezed blocks (n + 1))).take 256 := by
  have kept : (accepted (squeezed blocks n)).take 256 = accepted (squeezed blocks n) :=
    List.take_of_length_le (by omega)
  rw [accepted_squeezed whole, kept, rejUniform_eq (by simp), List.nil_append, List.take_append,
    List.take_of_length_le (show (accepted (squeezed blocks n)).length ≤ 256 by omega)]

theorem accepted_prefix (n m : ℕ) : accepted (squeezed blocks n) <+: accepted (squeezed blocks (n + m)) := by
  induction m with
  | zero => exact List.prefix_rfl
  | succ m ih =>
    rw [← Nat.add_assoc, accepted_squeezed whole]
    exact ih.trans (List.prefix_append _ _)

/-- The loop returns exactly if the blocks it may squeeze hold enough values. -/
theorem refill_eq (fuel n : ℕ) :
    refill blocks fuel n ((accepted (squeezed blocks n)).take 256) =
      if 256 ≤ (accepted (squeezed blocks (n + fuel))).length
      then some ((accepted (squeezed blocks (n + fuel))).take 256) else none := by
  induction fuel generalizing n with
  | zero =>
    rw [refill, List.length_take, Nat.add_zero]
    by_cases enough : 256 ≤ (accepted (squeezed blocks n)).length
    · rw [if_neg (by omega), if_pos enough]
    · rw [if_pos (by omega), if_neg enough]
  | succ fuel ih =>
    rw [refill]
    by_cases enough : 256 ≤ (accepted (squeezed blocks n)).length
    · obtain ⟨rest, more⟩ := accepted_prefix whole n (fuel + 1)
      rw [← more, List.take_append_of_le_length enough, List.length_take, List.length_append,
        if_neg (by omega), if_pos (by omega)]
    · rw [refill_step whole (by omega), ih, List.length_take, if_pos (by omega), Nat.add_right_comm,
        Nat.add_assoc]

/-- An entry consists of the first values of the stream that are small enough. -/
theorem sampleEntry_eq_some {fuel : ℕ} {a : Poly} :
    sampleEntry fuel blocks = some a ↔ 256 ≤ (accepted (squeezed blocks (3 + fuel))).length ∧
      ∀ k < 256, a.coeff k = Int16.ofNat ((accepted (squeezed blocks (3 + fuel))).getD k 0) := by
  have start : rejUniform 256 [] (blocks 0 ++ blocks 1 ++ blocks 2) =
      (accepted (squeezed blocks 3)).take 256 := by
    rw [rejUniform_eq (by simp), List.nil_append, squeezed_succ, squeezed_succ, squeezed_succ]
    rfl
  have kept {l : List ℕ} {k : ℕ} (small : k < 256) : (l.take 256).getD k 0 = l.getD k 0 := by
    rw [List.getD_eq_getElem?_getD, List.getElem?_take_of_lt small, List.getD_eq_getElem?_getD]
  unfold sampleEntry
  dsimp only
  rw [start, refill_eq whole]
  by_cases enough : 256 ≤ (accepted (squeezed blocks (3 + fuel))).length
  · rw [if_pos enough, Option.map_some, Option.some_inj]
    constructor
    · rintro rfl
      refine ⟨enough, fun k small => ?_⟩
      rw [Poly.coeff_ofFn small, kept small]
    · rintro ⟨-, each⟩
      apply Poly.ext_coeff
      intro k small
      rw [Poly.coeff_ofFn small, kept small, each k small]
  · rw [if_neg enough, Option.map_none]
    simp [enough]

theorem sampleEntry_bounded {fuel : ℕ} {a : Poly} (found : sampleEntry fuel blocks = some a) :
    a.Bounded 3328 := by
  obtain ⟨enough, each⟩ := (sampleEntry_eq_some whole).mp found
  intro k small
  rw [each k small, List.getD_eq_getElem _ _ (by omega)]
  exact within_ofNat (accepted_lt (List.getElem_mem _))

end Stream

/-! ## All entries -/

theorem fillArray_eq_some {α : Type*} {f : Fin 3 → Option α} {a : Fin 3 → α} :
    fillArray f = some a ↔ ∀ i, f i = some (a i) := by
  constructor
  · intro filled
    simp only [fillArray, Option.bind_eq_bind, Option.bind_eq_some_iff, Option.pure_def, Option.some_inj]
      at filled
    obtain ⟨a0, first, a1, second, a2, third, rfl⟩ := filled
    intro i
    fin_cases i
    · exact first
    · exact second
    · exact third
  · intro each
    simp only [fillArray, each, Option.bind_eq_bind, Option.bind_some, Option.pure_def, Option.some_inj]
    funext i
    fin_cases i <;> rfl

section Matrix

variable {S : Symmetric} {fuel : ℕ} {seed : Bytes} {transposed : Bool} {A : Fin 3 → PolyVec}

theorem genMatrix_eq_some : genMatrix S fuel seed transposed = some A ↔
    ∀ i j, sampleEntry fuel (S.xof (entrySeed seed transposed i j)) = some (A i j) := by
  simp only [genMatrix, fillArray_eq_some]

theorem genMatrix_bounded (made : genMatrix S fuel seed transposed = some A) (i j : Fin 3) :
    (A i j).Bounded 3328 :=
  sampleEntry_bounded (S.length_xof _) (genMatrix_eq_some.mp made i j)

/-- `gen_at` makes the transpose of what `gen_a` makes. -/
theorem genMatrix_transposed (made : genMatrix S fuel seed false = some A) :
    genMatrix S fuel seed true = some fun i j => A j i := by
  rw [genMatrix_eq_some] at made ⊢
  intro i j
  exact made j i

end Matrix

namespace Sample

/-- Hash functions that answer with zeros. -/
def symmetric : Symmetric where
  hashH _ := List.replicate 32 0
  hashG _ := List.replicate 64 0
  xof _ _ := List.replicate 168 0
  prf outlen _ _ := List.replicate outlen 0
  rkprf _ _ := List.replicate 32 0
  length_hashH _ := List.length_replicate
  length_hashG _ := List.length_replicate
  length_xof _ _ := List.length_replicate
  length_prf _ _ _ := List.length_replicate
  length_rkprf _ _ := List.length_replicate

theorem accepted_zeros (n : ℕ) : accepted (List.replicate (3 * n) 0) = List.replicate (2 * n) 0 := by
  induction n with
  | zero => rfl
  | succ n ih =>
    rw [show 3 * (n + 1) = 3 + 3 * n by ring, show 2 * (n + 1) = 2 + 2 * n by ring, List.replicate_add,
      accepted_append (by simp), ih, List.replicate_add]
    rfl

theorem squeezed_zeros (n : ℕ) : squeezed (fun _ => List.replicate 168 0) n = List.replicate (3 * (56 * n)) 0 := by
  induction n with
  | zero => rfl
  | succ n ih =>
    rw [squeezed_succ, ih, show 3 * (56 * (n + 1)) = 3 * (56 * n) + 168 by ring, List.replicate_add]

theorem sampleEntry_zeros (seed : Bytes) : sampleEntry 0 (symmetric.xof seed) = some Poly.zero := by
  have zeros : accepted (squeezed (symmetric.xof seed) (3 + 0)) = List.replicate 336 0 :=
    (congrArg accepted (squeezed_zeros 3)).trans (accepted_zeros 168)
  rw [sampleEntry_eq_some (symmetric.length_xof seed), zeros]
  refine ⟨by rw [List.length_replicate]; norm_num, fun k small => ?_⟩
  rw [Poly.zero, Poly.coeff_ofFn small, List.getD_replicate _ (by omega)]
  rfl

theorem genMatrix_zeros (seed : Bytes) (transposed : Bool) :
    genMatrix symmetric 0 seed transposed = some fun _ _ => Poly.zero :=
  genMatrix_eq_some.mpr fun _ _ => sampleEntry_zeros _

end Sample

end E2eeProxy.Mlkem
