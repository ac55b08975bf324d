import E2eeProxy.Mlkem.Indcpa

/-! # Decryption

What decryption makes of a ciphertext is the message with an error, and it is the message
exactly if the error leaves every bit what it is.
-/

namespace E2eeProxy.Mlkem

open Lua

section Rings

variable {a b r : Poly} {bound bound' : ℤ}

theorem ring_add (first : a.Bounded bound) (second : b.Bounded bound') (fits : bound + bound' ≤ 32767) :
    (a.add b).ring = a.ring + b.ring := by
  rw [Poly.ring, Poly.poly_add first second fits, map_add]
  rfl

theorem ring_sub (first : a.Bounded bound) (second : b.Bounded bound') (fits : bound + bound' ≤ 32767) :
    (a.sub b).ring = a.ring - b.ring := by
  rw [Poly.ring, Poly.poly_sub first second fits, map_sub]
  rfl

@[simp] theorem ring_reduce : r.reduce.ring = r.ring := by
  rw [Poly.ring, Poly.poly_reduce]
  rfl

end Rings

/-- What four bits lose of a polynomial. -/
noncomputable def lost (v : Poly) : Rq := (Poly.decompress v.compress).ring - v.ring

/-- What ten bits lose of a polynomial. -/
noncomputable def lostVec (b : Poly) : Rq := (Poly.decompressVec b.compressVec).ring - b.ring

theorem near_lost {v : Poly} (bounded : v.Bounded 3328) {k : ℕ} (small : k < 256) :
    |(coefficient k (lost v)).valMinAbs| ≤ 104 := by
  obtain ⟨e, le, error⟩ := Poly.near_decompress bounded small
  have value : coefficient k (lost v) = e := by
    rw [lost, coefficient_sub, coefficient_ring _ small, coefficient_ring _ small, error, add_sub_cancel_left]
  have range := abs_le.mp le
  rw [valMinAbs_eq value (by omega) (by omega)]
  exact le

theorem bounded_frommsg {m : Bytes} : (Poly.frommsg m).Bounded 1665 := by
  intro k small
  rw [Poly.coeff_frommsg small]
  split <;> decide

section Scheme

variable {S : Symmetric} {fuel : ℕ} {coins coins' m pk sk c : Bytes} {b : PolyVec} {v : Poly}

theorem bounded_noise (S : Symmetric) (seed : Bytes) (nonce : ℕ) : (getnoise S seed nonce).Bounded 2 :=
  Poly.bounded_cbd2 _

theorem bounded_noiseVec (S : Symmetric) (seed : Bytes) (nonce : ℕ) (i : Fin 3) :
    (noiseVec S seed nonce i).Bounded 2 := Poly.bounded_cbd2 _

theorem represents_noise (S : Symmetric) (seed : Bytes) (nonce : ℕ) (i : Fin 3) :
    Represents 1 (noiseVec S seed nonce i).ring ((noiseVec S seed nonce).ntt i) :=
  represents_ntt ((bounded_noiseVec S seed nonce i).mono (by norm_num))

theorem bounded_ntt (r : PolyVec) (i : Fin 3) : (r.ntt i).Bounded 3328 :=
  Poly.bounded_reduce.mono (by norm_num)

/-- The error of a ciphertext, made of what was added to hide keys and messages. -/
noncomputable def noise (S : Symmetric) (coins coins' : Bytes) (b : PolyVec) (v : Poly) : Rq :=
  let s (i : Fin 3) := (noiseVec S (expandSeed S coins).2 0 i).ring
  let e (i : Fin 3) := (noiseVec S (expandSeed S coins).2 3 i).ring
  let r (i : Fin 3) := (noiseVec S coins' 0 i).ring
  let e₁ (i : Fin 3) := (noiseVec S coins' 3 i).ring
  let e₂ := (getnoise S coins' 6).ring
  ∑ i, e i * r i + e₂ + lost v - ∑ i, s i * (e₁ i + lostVec (b i))

theorem Represents.tobytes {x : Rq} {r : Poly} (represents : Represents 1 x r) (bounded : r.Bounded 3328) :
    Represents 1 x (Poly.frombytes r.tobytes) := by
  refine represents.congr fun i small => ?_
  rw [Poly.residues, Poly.frombytes_tobytes bounded small, residue_positive (bounded i small)]
  rfl

/-- The public key is the secret, multiplied by a matrix and hidden by an error. -/
theorem keypair_spec (made : indcpaKeypairDerand S fuel coins = some (pk, sk)) :
    ∃ A, genMatrix S fuel (expandSeed S coins).1 false = some A ∧
      (unpackPk pk).2 = (expandSeed S coins).1 ∧
      (∀ i, Represents 1 (noiseVec S (expandSeed S coins).2 0 i).ring (unpackSk sk i)) ∧
      ∀ X : Fin 3 → Fin 3 → Rq, (∀ i j, Represents 1 (X i j) (A i j)) → ∀ i,
        Represents 1 (∑ j, X i j * (noiseVec S (expandSeed S coins).2 0 j).ring +
          (noiseVec S (expandSeed S coins).2 3 i).ring) ((unpackPk pk).1 i) := by
  have length : (expandSeed S coins).1.length = 32 := by
    rw [expandSeed, List.length_take, S.length_hashG]
    rfl
  unfold indcpaKeypairDerand at made
  generalize expandSeed S coins = seeds at length made ⊢
  obtain ⟨publicseed, noiseseed⟩ := seeds
  dsimp only at length made ⊢
  simp only [Option.bind_eq_bind, Option.bind_eq_some_iff, Option.pure_def, Option.some_inj, Prod.mk.injEq]
    at made
  obtain ⟨A, matrix, rfl, rfl⟩ := made
  obtain ⟨seed, packed⟩ := unpackPk_packPk (a := PolyVec.reduce (PolyVec.add
    (fun i => ((A i).basemulAcc (noiseVec S noiseseed 0).ntt).tomont) (noiseVec S noiseseed 3).ntt)) length
  refine ⟨A, matrix, seed, ?_, ?_⟩
  · intro i
    rw [unpackSk_packSk]
    exact (represents_noise S noiseseed 0 i).tobytes (bounded_ntt _ i)
  · intro X represents i
    rw [packed]
    have product := represents_basemulAcc (represents i) (represents_noise S noiseseed 0)
      (bounded_ntt _)
    have sum := product.tomont.add (represents_noise S noiseseed 3 i) Poly.bounded_tomont (bounded_ntt _ i)
      (by norm_num)
    exact sum.reduce.tobytes (Poly.bounded_reduce.mono (by norm_num))

/-- A ciphertext is a random multiple of the key, hidden by an error, and the message. -/
theorem enc_spec (made : indcpaEncPolys S fuel m pk coins' = some (b, v)) {A : Fin 3 → PolyVec}
    (matrix : genMatrix S fuel (unpackPk pk).2 true = some A) {X : Fin 3 → Fin 3 → Rq} {t : Fin 3 → Rq}
    (represents : ∀ i j, Represents 1 (X i j) (A i j))
    (key : ∀ i, Represents 1 (t i) ((unpackPk pk).1 i)) :
    (∀ i, (b i).Bounded 1664 ∧ (b i).ring = ∑ j, X i j * (noiseVec S coins' 0 j).ring +
      (noiseVec S coins' 3 i).ring) ∧
    v.Bounded 1664 ∧ v.ring = ∑ i, t i * (noiseVec S coins' 0 i).ring + (getnoise S coins' 6).ring +
      (Poly.frommsg m).ring := by
  unfold indcpaEncPolys at made
  generalize unpackPk pk = unpacked at made matrix key
  obtain ⟨pkpv, seed⟩ := unpacked
  dsimp only at matrix key
  simp only [Option.bind_eq_bind, matrix, Option.bind_some, Option.pure_def, Option.some_inj, Prod.mk.injEq]
    at made
  obtain ⟨rfl, rfl⟩ := made
  have back {a : PolyVec} {x : Fin 3 → Rq} (each : ∀ j, Represents 1 (x j) (a j)) :
      (a.basemulAcc (noiseVec S coins' 0).ntt).invnttTomont.Bounded 3328 ∧
        (a.basemulAcc (noiseVec S coins' 0).ntt).invnttTomont.ring =
          ∑ j, x j * (noiseVec S coins' 0 j).ring := by
    have range := (bounded_basemulAcc (a := a) (b := (noiseVec S coins' 0).ntt)).mono
      (by norm_num : (1664 : ℤ) ≤ 16383)
    exact ⟨bounded_invnttTomont range,
      (represents_basemulAcc each (represents_noise S coins' 0) (bounded_ntt _)).invntt range⟩
  refine ⟨fun i => ?_, ?_, ?_⟩
  · obtain ⟨range, product⟩ := back (represents i)
    refine ⟨Poly.bounded_reduce, ?_⟩
    rw [PolyVec.reduce, ring_reduce, PolyVec.add, PolyVec.invnttTomont,
      ring_add range (bounded_noiseVec S coins' 3 i) (by norm_num), product]
  · exact Poly.bounded_reduce
  · obtain ⟨range, product⟩ := back key
    have hidden := Poly.bounded_add range (bounded_noise S coins' 6) (by norm_num)
    rw [ring_reduce, ring_add hidden bounded_frommsg (by norm_num),
      ring_add range (bounded_noise S coins' 6) (by norm_num), product]

/-- Whatever the ciphertext is, decryption takes a multiple of the secret away. -/
theorem dec_spec {s : Fin 3 → Rq} (key : ∀ i, Represents 1 (s i) (unpackSk sk i)) :
    (indcpaDecPoly c sk).Bounded 1664 ∧ (indcpaDecPoly c sk).ring =
      (unpackCiphertext c).2.ring - ∑ i, s i * ((unpackCiphertext c).1 i).ring := by
  have range (i : Fin 3) : ((unpackCiphertext c).1 i).Bounded 3328 := Poly.bounded_decompressVec
  have range' : (unpackCiphertext c).2.Bounded 3328 := Poly.bounded_decompress
  have transformed (i : Fin 3) :
      Represents 1 ((unpackCiphertext c).1 i).ring ((PolyVec.ntt (unpackCiphertext c).1) i) :=
    represents_ntt ((range i).mono (by norm_num))
  have fits := (bounded_basemulAcc (a := unpackSk sk) (b := PolyVec.ntt (unpackCiphertext c).1)).mono
    (by norm_num : (1664 : ℤ) ≤ 16383)
  have product := (represents_basemulAcc key transformed (bounded_ntt _)).invntt fits
  refine ⟨Poly.bounded_reduce, ?_⟩
  unfold indcpaDecPoly
  dsimp only
  rw [ring_reduce, ring_sub range' (bounded_invnttTomont fits) (by norm_num), product]

/-- The matrix cancels; what is left is the message and the error. -/
theorem dec_enc_ring (keys : indcpaKeypairDerand S fuel coins = some (pk, sk))
    (made : indcpaEncPolys S fuel m pk coins' = some (b, v)) :
    (indcpaDecPoly (packCiphertext b v) sk).Bounded 1664 ∧
      (indcpaDecPoly (packCiphertext b v) sk).ring = (Poly.frommsg m).ring + noise S coins coins' b v := by
  obtain ⟨A, matrix, seed, secret, key⟩ := keypair_spec keys
  have range (i j : Fin 3) := (genMatrix_bounded matrix i j).mono (by norm_num : (3328 : ℤ) ≤ 16383)
  choose X represents using fun i j => exists_represents (range i j)
  have transposed := genMatrix_transposed matrix
  rw [← seed] at transposed
  obtain ⟨ciphertext, -, value⟩ :=
    enc_spec made transposed (fun i j => represents j i) (key X represents)
  obtain ⟨bounded, result⟩ := dec_spec (c := packCiphertext b v) secret
  refine ⟨bounded, ?_⟩
  obtain ⟨message, vector⟩ := unpackCiphertext_packCiphertext (b := b) (v := v)
  have received : (Poly.decompress v.compress).ring = v.ring + lost v := by rw [lost]; ring
  have received' (i : Fin 3) : (Poly.decompressVec (b i).compressVec).ring = (b i).ring + lostVec (b i) := by
    rw [lostVec]
    ring
  rw [result, message, received, value]
  simp only [vector, received', (ciphertext _).2, noise, Fin.sum_univ_three]
  ring

/-- Decryption returns the message exactly if no coefficient of the error is too large. -/
theorem indcpaDec_indcpaEnc (keys : indcpaKeypairDerand S fuel coins = some (pk, sk))
    (made : indcpaEncPolys S fuel m pk coins' = some (b, v)) (length : m.length = 32) :
    indcpaDec (packCiphertext b v) sk = m ↔
      ∀ k < 256, Decodes (messageBit m k) (coefficient k (noise S coins coins' b v)) := by
  obtain ⟨bounded, sum⟩ := dec_enc_ring keys made
  refine Poly.tomsg_eq_iff_decodes bounded length fun k small => ?_
  rw [← coefficient_ring _ small, sum, coefficient_add, coefficient_ring _ small]

end Scheme

end E2eeProxy.Mlkem
