import E2eeProxy.Mlkem.Poly

/-! # The number-theoretic transform

ntt.c. Both directions walk over the same pairs of coefficients; they differ in what
becomes of a pair and in the order of the levels and of the roots.
-/

namespace E2eeProxy.Mlkem

open Polynomial Lib.Splitting

/-- `PQCLEAN_MLKEM768_CLEAN_zetas`. -/
def zetaTable : List Int16 :=
  [-1044, -758, -359, -1517, 1493, 1422, 287, 202,
    -171, 622, 1577, 182, 962, -1202, -1474, 1468,
    573, -1325, 264, 383, -829, 1458, -1602, -130,
    -681, 1017, 732, 608, -1542, 411, -205, -1571,
    1223, 652, -552, 1015, -1293, 1491, -282, -1544,
    516, -8, -320, -666, -1618, -1162, 126, 1469,
    -853, -90, -271, 830, 107, -1421, -247, -951,
    -398, 961, -1508, -725, 448, -1065, 677, -1275,
    -1103, 430, 555, 843, -1251, 871, 1550, 105,
    422, 587, 177, -235, -291, -460, 1574, 1653,
    -246, 778, 1159, -147, -777, 1483, -602, 1119,
    -1590, 644, -872, 349, 418, 329, -156, -75,
    817, 1097, 603, 610, 1322, -1285, -1465, 384,
    -1215, -136, 1218, -1335, -874, 220, -1187, -1659,
    -1185, -1530, -1278, 794, -1510, -854, -870, 478,
    -108, -308, 996, 991, 958, -1460, 1522, 1628]

def zetas (k : ℕ) : Int16 := zetaTable.getD k 0

/-- The loops over `start` and `j`. `next` is `k++` or `k--`. -/
def level (next : ℕ → ℕ) (body : Int16 → ℕ → Poly → ℕ → Poly) (len k : ℕ) (r : Poly) : ℕ × Poly :=
  (List.range' 0 (128 / len) (2 * len)).foldl
    (fun (k, r) start => (next k, (List.range' start len).foldl (body (zetas k) len) r)) (k, r)

/-- The innermost loop of `ntt`. -/
def butterfly (zeta : Int16) (len : ℕ) (r : Poly) (j : ℕ) : Poly :=
  let t := fqmul zeta (r.coeff (j + len))
  let r := r.set (j + len) (r.coeff j - t)
  r.set j (r.coeff j + t)

/-- The levels of `ntt` from `len = 2 ^ e` on. -/
def nttLevels : ℕ → ℕ → Poly → Poly
  | 0, _, r => r
  | e + 1, k, r =>
      let after := level (· + 1) butterfly (2 ^ (e + 1)) k r
      nttLevels e after.1 after.2

def ntt (r : Poly) : Poly := nttLevels 7 1 r

/-- The innermost loop of `invntt`. -/
def inverseButterfly (zeta : Int16) (len : ℕ) (r : Poly) (j : ℕ) : Poly :=
  let t := r.coeff j
  let r := r.set j (barrettReduce (t + r.coeff (j + len)))
  let r := r.set (j + len) (r.coeff (j + len) - t)
  r.set (j + len) (fqmul zeta (r.coeff (j + len)))

/-- So many levels of `invntt`, the first with `len = 2 ^ e`. -/
def invnttLevels : ℕ → ℕ → ℕ → Poly → Poly
  | 0, _, _, r => r
  | levels + 1, e, k, r =>
      let after := level (· - 1) inverseButterfly (2 ^ e) k r
      invnttLevels levels (e + 1) after.1 after.2

def invntt (r : Poly) : Poly :=
  let f : Int16 := 1441
  let r := invnttLevels 7 1 127 r
  Poly.ofFn fun j => fqmul (r.coeff j) f

/-- `basemul`, by the coefficients of the two factors. -/
def basemul (a₀ a₁ b₀ b₁ zeta : Int16) : Int16 × Int16 :=
  let r₀ := fqmul a₁ b₁
  let r₀ := fqmul r₀ zeta
  let r₀ := r₀ + fqmul a₀ b₀
  let r₁ := fqmul a₀ b₁
  let r₁ := r₁ + fqmul a₁ b₀
  (r₀, r₁)

/-! ## Walking over the pairs -/

section Level

variable {body : Int16 → ℕ → Poly → ℕ → Poly} {low high : Int16 → Int16 → Int16 → Int16}

/-- The body replaces the coefficients at `j` and `j + len` and no others. -/
def Pairwise (low high : Int16 → Int16 → Int16 → Int16) (body : Int16 → ℕ → Poly → ℕ → Poly) : Prop :=
  ∀ zeta len r j i, 0 < len → j + len < 256 →
    (body zeta len r j).coeff i =
      if i = j then low zeta (r.coeff j) (r.coeff (j + len))
      else if i = j + len then high zeta (r.coeff j) (r.coeff (j + len))
      else r.coeff i

variable (pairwise : Pairwise low high body)
include pairwise

theorem coeff_block (zeta : Int16) (start : ℕ) {len m : ℕ} (positive : 0 < len) (inside : start + 2 * len ≤ 256)
    (within : m ≤ len) (r : Poly) (i : ℕ) :
    ((List.range' start m).foldl (body zeta len) r).coeff i =
      if start ≤ i ∧ i < start + m then low zeta (r.coeff i) (r.coeff (i + len))
      else if start + len ≤ i ∧ i < start + len + m then high zeta (r.coeff (i - len)) (r.coeff i)
      else r.coeff i := by
  induction m generalizing i with
  | zero =>
    rw [if_neg (by omega), if_neg (by omega)]
    rfl
  | succ m ih =>
    have before := ih (by omega)
    rw [List.range'_1_concat, List.foldl_append, List.foldl_cons, List.foldl_nil,
      pairwise _ _ _ _ _ positive (by omega), before, before, before]
    rw [if_neg (show ¬ (start ≤ start + m ∧ start + m < start + m) by omega),
      if_neg (show ¬ (start + len ≤ start + m ∧ start + m < start + len + m) by omega),
      if_neg (show ¬ (start ≤ start + m + len ∧ start + m + len < start + m) by omega),
      if_neg (show ¬ (start + len ≤ start + m + len ∧ start + m + len < start + len + m) by omega)]
    by_cases here : i = start + m
    · subst here
      rw [if_pos rfl, if_pos (by omega)]
    · by_cases there : i = start + m + len
      · subst there
        rw [if_neg here, if_pos rfl, if_neg (by omega), if_pos (by omega), Nat.add_sub_cancel]
      · rw [if_neg here, if_neg there]
        congr 1
        · apply propext
          omega
        · congr 1
          apply propext
          omega

/-- The pairs of the first blocks are replaced. -/
theorem coeff_blocks (next : ℕ → ℕ) {len : ℕ} (positive : 0 < len) {c : ℕ} (inside : c * (2 * len) ≤ 256) (k : ℕ)
    (r : Poly) :
    let after := (List.range' 0 c (2 * len)).foldl
      (fun (k, r) start => (next k, (List.range' start len).foldl (body (zetas k) len) r)) (k, r)
    after.1 = next^[c] k ∧
      (∀ b < c, ∀ i < len,
        after.2.coeff (b * (2 * len) + i) = low (zetas (next^[b] k)) (r.coeff (b * (2 * len) + i))
          (r.coeff (b * (2 * len) + len + i)) ∧
        after.2.coeff (b * (2 * len) + len + i) = high (zetas (next^[b] k))
          (r.coeff (b * (2 * len) + i)) (r.coeff (b * (2 * len) + len + i))) ∧
      ∀ i, c * (2 * len) ≤ i → after.2.coeff i = r.coeff i := by
  induction c with
  | zero => exact ⟨rfl, fun b none => absurd none (Nat.not_lt_zero b), fun i _ => rfl⟩
  | succ c ih =>
    have split : (c + 1) * (2 * len) = c * (2 * len) + 2 * len := by ring
    obtain ⟨index, done, rest⟩ := ih (by omega)
    dsimp only
    rw [List.range'_concat, List.foldl_append, List.foldl_cons, List.foldl_nil, Nat.zero_add,
      Nat.mul_comm (2 * len) c]
    generalize (List.range' 0 c (2 * len)).foldl _ (k, r) = before at index done rest
    have block := coeff_block pairwise (zetas before.1) (c * (2 * len)) positive (by omega)
      le_rfl before.2
    refine ⟨?_, ?_, ?_⟩
    · rw [index, Function.iterate_succ_apply']
    · intro b earlier i small
      rw [block, block]
      by_cases last : b = c
      · subst last
        rw [if_pos (by omega), if_neg (by omega), if_pos (by omega), rest _ (by omega),
          rest _ (by omega), rest _ (by omega), rest _ (by omega), index,
          show b * (2 * len) + i + len = b * (2 * len) + len + i by omega,
          show b * (2 * len) + len + i - len = b * (2 * len) + i by omega]
        exact ⟨rfl, rfl⟩
      · have gap : b * (2 * len) + 2 * len ≤ c * (2 * len) := by
          have le : b + 1 ≤ c := by omega
          have scaled := Nat.mul_le_mul_right (2 * len) le
          rw [Nat.add_mul, Nat.one_mul] at scaled
          exact scaled
        rw [if_neg (by omega), if_neg (by omega), if_neg (by omega), if_neg (by omega)]
        exact done b (by omega) i small
    · intro i large
      rw [block, if_neg (by omega), if_neg (by omega)]
      exact rest i (by omega)

/-- What a level does to each pair. -/
theorem coeff_level (next : ℕ → ℕ) {len count : ℕ} (size : count * len = 128) (k : ℕ) (r : Poly) :
    (level next body len k r).1 = next^[count] k ∧
      ∀ b < count, ∀ i < len,
        (level next body len k r).2.coeff (b * (2 * len) + i) = low (zetas (next^[b] k))
          (r.coeff (b * (2 * len) + i)) (r.coeff (b * (2 * len) + len + i)) ∧
        (level next body len k r).2.coeff (b * (2 * len) + len + i) = high (zetas (next^[b] k))
          (r.coeff (b * (2 * len) + i)) (r.coeff (b * (2 * len) + len + i)) := by
  have positive : 0 < len := Nat.pos_of_ne_zero (by rintro rfl; omega)
  have blocks : 128 / len = count := by rw [← size, Nat.mul_div_cancel _ positive]
  have inside : count * (2 * len) ≤ 256 := by
    rw [show count * (2 * len) = 2 * (count * len) by ring, size]
  obtain ⟨index, pairs, -⟩ := coeff_blocks pairwise next positive inside k r
  unfold level
  rw [blocks]
  exact ⟨index, pairs⟩

end Level

end E2eeProxy.Mlkem
