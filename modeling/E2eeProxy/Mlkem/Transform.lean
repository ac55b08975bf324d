import E2eeProxy.Mlkem.Ntt

/-! # What the transform computes

The residues of a polynomial modulo `X ^ 2 - z`, for the 128 square roots `z` that the
table leads to.
-/

namespace E2eeProxy.Mlkem

open Polynomial Lib.Splitting

/-- The table holds these as Montgomery representatives. -/
def root (k : ℕ) : Zq := residue (zetas k) * rinv

def moduli : ℕ → Zq := constant (-1) root

/-- The pairs of `r` are the residues of `P`, up to a factor. -/
def Hat (c : Zq) (P : Zq[X]) (r : Poly) : Prop := Residues moduli 2 128 P fun i => c * r.residues i

/-! ## The table -/

theorem zetas_within (k : ℕ) : Within 3328 (zetas k) := by
  unfold zetas
  rw [List.getD_eq_getElem?_getD]
  cases found : zetaTable[k]? with
  | none => decide
  | some zeta =>
    have all : zetaTable.all (fun zeta => decide (Within 3328 zeta)) = true := by decide
    exact of_decide_eq_true (List.all_eq_true.mp all zeta (List.mem_of_getElem? found))

theorem root_square : ∀ k < 128, 0 < k → root k * root k = moduli k := by decide +kernel

/-- Backwards, a level finds the roots of the level in reverse order. -/
theorem root_mirror : ∀ e < 7, ∀ b < 2 ^ e, root (2 ^ e + b) * root (2 * 2 ^ e - 1 - b) = -1 := by
  decide +kernel

theorem roots_level {count : ℕ} (positive : 0 < count) (small : count ≤ 64) :
    Roots moduli root count :=
  roots_constant positive fun b inside => root_square _ (by omega) (by omega)

/-! ## Pairs -/

theorem pairwise_butterfly :
    Pairwise (fun zeta x y => x + fqmul zeta y) (fun zeta x y => x - fqmul zeta y) butterfly := by
  intro zeta len r j i positive inside
  unfold butterfly
  dsimp only
  rw [Poly.coeff_set (by omega), Poly.coeff_set inside, Poly.coeff_set inside]
  rw [if_neg (show j ≠ j + len by omega)]

theorem pairwise_inverseButterfly :
    Pairwise (fun _ x y => barrettReduce (x + y)) (fun zeta x y => fqmul zeta (y - x))
      inverseButterfly := by
  intro zeta len r j i positive inside
  unfold inverseButterfly
  dsimp only
  rw [Poly.coeff_set inside, Poly.coeff_set inside, Poly.coeff_set inside, Poly.coeff_set (by omega),
    Poly.coeff_set (by omega), if_pos rfl, if_neg (show j + len ≠ j by omega)]
  by_cases first : i = j
  · rw [if_pos first, if_neg (by omega), if_neg (by omega), if_pos first]
  · rw [if_neg first]
    by_cases second : i = j + len
    · rw [if_pos second, if_pos second, if_neg first]
    · rw [if_neg second, if_neg second, if_neg second, if_neg first]

/-- Every coefficient belongs to a pair. -/
theorem pair_of {len count i : ℕ} (size : count * len = 128) (small : i < 256) :
    ∃ b < count, ∃ j < len, i = b * (2 * len) + j ∨ i = b * (2 * len) + len + j := by
  have positive : 0 < len := Nat.pos_of_ne_zero (by rintro rfl; omega)
  have whole : i / (2 * len) * (2 * len) + i % (2 * len) = i := by
    rw [Nat.mul_comm]
    exact Nat.div_add_mod _ _
  have rest : i % (2 * len) < 2 * len := Nat.mod_lt _ (by omega)
  have within : i / (2 * len) < count := by
    rw [Nat.div_lt_iff_lt_mul (by omega), show count * (2 * len) = 2 * (count * len) by ring, size]
    exact small
  by_cases low : i % (2 * len) < len
  · exact ⟨_, within, i % (2 * len), low, .inl whole.symm⟩
  · exact ⟨_, within, i % (2 * len) - len, by omega, .inr (by omega)⟩

/-- Positions of a pair are positions of coefficients. -/
theorem pair_inside {len count b i : ℕ} (size : count * len = 128) (inside : b < count)
    (small : i < len) : b * (2 * len) + len + i < 256 := by
  have le : (b + 1) * (2 * len) ≤ count * (2 * len) := Nat.mul_le_mul_right _ inside
  rw [show count * (2 * len) = 2 * (count * len) by ring, size, Nat.add_mul, Nat.one_mul] at le
  omega

/-! ## Forwards -/

theorem level_butterfly {len count : ℕ} (size : count * len = 128) {r : Poly} {bound : ℤ}
    (bounded : r.Bounded bound) (fits : bound + 3328 ≤ 32767) :
    (level (· + 1) butterfly len count r).1 = 2 * count ∧
      (level (· + 1) butterfly len count r).2.Bounded (bound + 3328) ∧
      Splits root len count r.residues (level (· + 1) butterfly len count r).2.residues := by
  obtain ⟨index, pairs⟩ := coeff_level pairwise_butterfly (· + 1) size count r
  have next (b : ℕ) : (· + 1)^[b] count = count + b := by simp [add_right_iterate]
  refine ⟨?_, ?_, ?_⟩
  · rw [index, next, two_mul]
  · intro i small
    obtain ⟨b, inside, j, smaller, position⟩ := pair_of size small
    have within := pair_inside size inside smaller
    obtain ⟨first, second⟩ := pairs b inside j smaller
    have here := bounded (b * (2 * len) + j) (by omega)
    rcases position with rfl | rfl
    · rw [first]
      exact here.add (fqmul_within (zetas_within _)) fits
    · rw [second]
      exact here.sub (fqmul_within (zetas_within _)) fits
  · intro b inside j smaller
    have within := pair_inside size inside smaller
    obtain ⟨first, second⟩ := pairs b inside j smaller
    have here := bounded (b * (2 * len) + j) (by omega)
    have product := fqmul_within (b := r.coeff (b * (2 * len) + len + j))
      (zetas_within ((· + 1)^[b] count))
    unfold Poly.residues
    rw [first, second, residue_add here product fits, residue_sub here product fits,
      residue_fqmul (zetas_within _), next]
    unfold root
    constructor <;> ring

/-- The residues a level starts from become those of all levels after it. -/
theorem nttLevels_spec {e count : ℕ} (size : count * 2 ^ e = 128) {r : Poly} {bound : ℤ}
    (bounded : r.Bounded bound) (fits : bound + 3328 * e ≤ 32767) {P : Zq[X]}
    (residues : Residues moduli (2 * 2 ^ e) count P r.residues) :
    (nttLevels e count r).Bounded (bound + 3328 * e) ∧
      Residues moduli 2 128 P (nttLevels e count r).residues := by
  induction e generalizing count r bound with
  | zero =>
    obtain rfl : count = 128 := by omega
    exact ⟨bounded.mono (by omega), residues⟩
  | succ e ih =>
    obtain ⟨index, bounded', splits⟩ := level_butterfly size bounded (by push_cast at fits; omega)
    unfold nttLevels
    dsimp only
    generalize level (· + 1) butterfly (2 ^ (e + 1)) count r = after at index bounded' splits ⊢
    have small : count ≤ 64 := by
      have := Nat.two_pow_pos e
      rw [pow_succ] at size
      nlinarith
    have residues' := residues.split (roots_level (Nat.pos_of_ne_zero (by rintro rfl; omega)) small)
      splits
    rw [pow_succ, Nat.mul_comm _ 2] at residues'
    rw [index]
    have rest := ih (by rw [← size]; ring) bounded' (by push_cast at fits; linarith) residues'
    refine ⟨rest.1.mono ?_, rest.2⟩
    push_cast
    linarith

/-- With room for seven additions, nothing overflows and the residues are found. -/
theorem ntt_spec {r : Poly} (bounded : r.Bounded 9471) :
    (ntt r).Bounded 32767 ∧ Hat 1 r.poly (ntt r) := by
  obtain ⟨bounded', residues⟩ := nttLevels_spec (show 1 * 2 ^ 7 = 128 by norm_num) bounded
    (by norm_num) (residues_top moduli 256 r.residues)
  refine ⟨bounded'.mono (by norm_num), ?_⟩
  unfold Hat
  simp only [one_mul]
  exact residues

end E2eeProxy.Mlkem
