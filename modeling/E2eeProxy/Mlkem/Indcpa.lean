import E2eeProxy.Mlkem.Sampling
import E2eeProxy.Mlkem.Vectors

/-! # Encryption

indcpa.c. Keys and ciphertexts are strings; what they hold are elements of `Rq`.
-/

namespace E2eeProxy.Mlkem

open Lua Lib.Groups

/-! ## Strings -/

def packPk (pk : PolyVec) (seed : Bytes) : Bytes := pk.tobytes ++ seed

def unpackPk (packedpk : Bytes) : PolyVec × Bytes :=
  (PolyVec.frombytes packedpk, (packedpk.drop 1152).take 32)

def packSk (sk : PolyVec) : Bytes := sk.tobytes

def unpackSk (packedsk : Bytes) : PolyVec := PolyVec.frombytes packedsk

def packCiphertext (b : PolyVec) (v : Poly) : Bytes := b.compress ++ v.compress

def unpackCiphertext (c : Bytes) : PolyVec × Poly :=
  (PolyVec.decompress c, Poly.decompress (c.drop 960))

/-! ## The scheme -/

section Scheme

variable (S : Symmetric)

/-- `poly_getnoise_eta1` and `poly_getnoise_eta2`, which do the same. -/
def getnoise (seed : Bytes) (nonce : ℕ) : Poly := cbd2 (S.prf 128 seed (UInt8.ofNat nonce))

/-- Polynomials with consecutive nonces. -/
def noiseVec (seed : Bytes) (nonce : ℕ) : PolyVec := fun i => getnoise S seed (nonce + i)

/-- `publicseed` and `noiseseed`. -/
def expandSeed (coins : Bytes) : Bytes × Bytes :=
  let buf := S.hashG (coins.take 32 ++ [3])
  (buf.take 32, buf.drop 32)

def indcpaKeypairDerand (fuel : ℕ) (coins : Bytes) : Option (Bytes × Bytes) := do
  let (publicseed, noiseseed) := expandSeed S coins
  let a ← genMatrix S fuel publicseed false
  let skpv := noiseVec S noiseseed 0
  let e := noiseVec S noiseseed 3
  let skpv := skpv.ntt
  let e := e.ntt
  let pkpv : PolyVec := fun i => ((a i).basemulAcc skpv).tomont
  let pkpv := pkpv.add e
  let pkpv := pkpv.reduce
  return (packPk pkpv publicseed, packSk skpv)

/-- `b` and `v` of `indcpa_enc` as they are packed. -/
def indcpaEncPolys (fuel : ℕ) (m pk coins : Bytes) : Option (PolyVec × Poly) := do
  let (pkpv, seed) := unpackPk pk
  let k := Poly.frommsg m
  let at' ← genMatrix S fuel seed true
  let sp := noiseVec S coins 0
  let ep := noiseVec S coins 3
  let epp := getnoise S coins 6
  let sp := sp.ntt
  let b : PolyVec := fun i => (at' i).basemulAcc sp
  let v := pkpv.basemulAcc sp
  let b := b.invnttTomont
  let v := v.invnttTomont
  let b := b.add ep
  let v := v.add epp
  let v := v.add k
  let b := b.reduce
  let v := v.reduce
  return (b, v)

def indcpaEnc (fuel : ℕ) (m pk coins : Bytes) : Option Bytes := do
  let (b, v) ← indcpaEncPolys S fuel m pk coins
  return packCiphertext b v

end Scheme

/-- `mp` of `indcpa_dec`. -/
def indcpaDecPoly (c sk : Bytes) : Poly :=
  let (b, v) := unpackCiphertext c
  let skpv := unpackSk sk
  let b := b.ntt
  let mp := skpv.basemulAcc b
  let mp := mp.invnttTomont
  let mp := v.sub mp
  mp.reduce

def indcpaDec (c sk : Bytes) : Bytes := (indcpaDecPoly c sk).tomsg

/-! ## Reading what was packed -/

theorem entry_append {l rest : Bytes} {i : ℕ} (inside : i < l.length) : entry (l ++ rest) i = entry l i := by
  unfold entry
  rw [List.getD_append _ _ _ _ inside]

theorem frombytes_append {l rest : Bytes} (length : l.length = 384) :
    Poly.frombytes (l ++ rest) = Poly.frombytes l := by
  apply Poly.ext_coeff
  intro i small
  rw [Poly.coeff_frombytes small, Poly.coeff_frombytes small, entry_append (by omega),
    entry_append (by omega), entry_append (by omega)]

theorem decompressVec_append {l rest : Bytes} (length : l.length = 320) :
    Poly.decompressVec (l ++ rest) = Poly.decompressVec l := by
  apply Poly.ext_coeff
  intro i small
  rw [Poly.decompressVec, Poly.decompressVec, Poly.coeff_ofFn small, Poly.coeff_ofFn small]
  dsimp only
  rw [entry_append (by omega), entry_append (by omega), entry_append (by omega), entry_append (by omega),
    entry_append (by omega)]

/-- Three parts of the same length, one after the other. -/
theorem drop_part {f : Fin 3 → Bytes} {n : ℕ} (length : ∀ i, (f i).length = n) (rest : Bytes) (i : Fin 3) :
    ∃ tail, (f 0 ++ f 1 ++ f 2 ++ rest).drop (i * n) = f i ++ tail := by
  have first := length 0
  have second := length 1
  match i with
  | 0 => exact ⟨f 1 ++ f 2 ++ rest, by simp⟩
  | 1 =>
    refine ⟨f 2 ++ rest, ?_⟩
    rw [List.append_assoc, List.append_assoc, List.drop_left' (by simpa using first)]
  | 2 =>
    refine ⟨rest, ?_⟩
    rw [List.append_assoc, List.drop_left' (by simp only [List.length_append]; norm_num; omega)]

section Packing

variable {a b : PolyVec} {v : Poly} {seed rest : Bytes}

theorem frombytes_tobytes_append (a : PolyVec) (rest : Bytes) (i : Fin 3) :
    PolyVec.frombytes (a.tobytes ++ rest) i = Poly.frombytes (a i).tobytes := by
  obtain ⟨tail, found⟩ := drop_part (f := fun i => (a i).tobytes) (fun _ => Poly.length_tobytes) rest i
  rw [PolyVec.frombytes, PolyVec.tobytes, found, frombytes_append Poly.length_tobytes]

theorem decompress_compress_append (b : PolyVec) (rest : Bytes) (i : Fin 3) :
    PolyVec.decompress (b.compress ++ rest) i = Poly.decompressVec (b i).compressVec := by
  obtain ⟨tail, found⟩ := drop_part (f := fun i => (b i).compressVec) (fun _ => Poly.length_compressVec) rest i
  rw [PolyVec.decompress, PolyVec.compress, found, decompressVec_append Poly.length_compressVec]

theorem length_tobytes (a : PolyVec) : a.tobytes.length = 1152 := by
  simp [PolyVec.tobytes, Poly.length_tobytes]

theorem length_compress (b : PolyVec) : b.compress.length = 960 := by
  simp [PolyVec.compress, Poly.length_compressVec]

theorem unpackPk_packPk (length : seed.length = 32) :
    (unpackPk (packPk a seed)).2 = seed ∧
      ∀ i, (unpackPk (packPk a seed)).1 i = Poly.frombytes (a i).tobytes := by
  refine ⟨?_, fun i => frombytes_tobytes_append a seed i⟩
  rw [unpackPk, packPk, List.drop_left' (length_tobytes a), List.take_of_length_le (by omega)]

theorem unpackSk_packSk (i : Fin 3) : unpackSk (packSk a) i = Poly.frombytes (a i).tobytes := by
  have here := frombytes_tobytes_append a [] i
  rwa [List.append_nil] at here

theorem unpackCiphertext_packCiphertext :
    (unpackCiphertext (packCiphertext b v)).2 = Poly.decompress v.compress ∧
      ∀ i, (unpackCiphertext (packCiphertext b v)).1 i = Poly.decompressVec (b i).compressVec := by
  refine ⟨?_, fun i => decompress_compress_append b v.compress i⟩
  rw [unpackCiphertext, packCiphertext, List.drop_left' (length_compress b)]

theorem length_packCiphertext : (packCiphertext b v).length = 1088 := by
  rw [packCiphertext, List.length_append, length_compress, Poly.length_compress]

theorem length_packPk (length : seed.length = 32) : (packPk a seed).length = 1184 := by
  rw [packPk, List.length_append, length_tobytes, length]

/-- Three parts of the same length make the whole. -/
theorem parts_eq {f : Fin 3 → Bytes} {l : Bytes} {n : ℕ} (part : ∀ i : Fin 3, f i = (l.drop (i * n)).take n) :
    f 0 ++ f 1 ++ f 2 = l.take (3 * n) := by
  have first : f 0 = l.take n := by simpa using part 0
  have second : f 1 = (l.drop n).take n := by simpa using part 1
  have third : f 2 = (l.drop (2 * n)).take n := by simpa using part 2
  have halves : (l.drop n).take n ++ (l.drop (2 * n)).take n = (l.drop n).take (2 * n) := by
    rw [two_mul, List.take_add, List.drop_drop]
  rw [first, second, third, List.append_assoc, halves, show 3 * n = n + 2 * n by ring, List.take_add]

theorem tobytes_frombytes {l : Bytes} (length : 1152 ≤ l.length) :
    (PolyVec.frombytes l).tobytes = l.take 1152 := by
  refine parts_eq (f := fun i => (PolyVec.frombytes l i).tobytes) (n := 384) fun i => ?_
  have small := i.isLt
  have long : ((l.drop (i * 384)).take 384).length = 384 :=
    List.length_take_of_le (by rw [List.length_drop]; omega)
  rw [PolyVec.frombytes, ← List.take_append_drop 384 (l.drop (i * 384)), frombytes_append long,
    Poly.tobytes_frombytes long, List.take_left' long]

theorem compress_decompress {l : Bytes} (length : 960 ≤ l.length) :
    (PolyVec.decompress l).compress = l.take 960 := by
  refine parts_eq (f := fun i => (PolyVec.decompress l i).compressVec) (n := 320) fun i => ?_
  have small := i.isLt
  have long : ((l.drop (i * 320)).take 320).length = 320 :=
    List.length_take_of_le (by rw [List.length_drop]; omega)
  rw [PolyVec.decompress, ← List.take_append_drop 320 (l.drop (i * 320)), decompressVec_append long,
    Poly.compressVec_decompressVec long, List.take_left' long]

/-- No two strings of the right length are read alike. -/
theorem pack_unpack {pk sk c : Bytes} (pk_length : pk.length = 1184) (sk_length : sk.length = 1152)
    (c_length : c.length = 1088) :
    packPk (unpackPk pk).1 (unpackPk pk).2 = pk ∧ packSk (unpackSk sk) = sk ∧
      packCiphertext (unpackCiphertext c).1 (unpackCiphertext c).2 = c := by
  refine ⟨?_, ?_, ?_⟩
  · rw [unpackPk, packPk, tobytes_frombytes (by omega),
      List.take_of_length_le (show (pk.drop 1152).length ≤ 32 by rw [List.length_drop]; omega),
      List.take_append_drop]
  · rw [unpackSk, packSk, tobytes_frombytes (by omega), List.take_of_length_le (by omega)]
  · rw [unpackCiphertext, packCiphertext, compress_decompress (by omega),
      Poly.compress_decompress (by rw [List.length_drop]; omega), List.take_append_drop]

theorem pack_unpack_zeros :
    packPk (unpackPk (List.replicate 1184 0)).1 (unpackPk (List.replicate 1184 0)).2 = List.replicate 1184 0 ∧
      packSk (unpackSk (List.replicate 1152 0)) = List.replicate 1152 0 ∧
      packCiphertext (unpackCiphertext (List.replicate 1088 0)).1
        (unpackCiphertext (List.replicate 1088 0)).2 = List.replicate 1088 0 :=
  pack_unpack List.length_replicate List.length_replicate List.length_replicate

/-- What was packed is read up to a representative, if it is a key, and up to a small error,
    if it is a ciphertext. -/
theorem unpack_pack (key : ∀ i, (a i).Bounded 3328) (vector : ∀ i, (b i).Bounded 3328)
    (message : v.Bounded 3328) (length : seed.length = 32) :
    (unpackPk (packPk a seed)).2 = seed ∧
      ∀ k < 256,
        (∀ i, ((unpackPk (packPk a seed)).1 i).coeff k = positive ((a i).coeff k) ∧
          (unpackSk (packSk a) i).coeff k = positive ((a i).coeff k) ∧
          Near 2 (((unpackCiphertext (packCiphertext b v)).1 i).residues k) ((b i).residues k)) ∧
        Near 104 ((unpackCiphertext (packCiphertext b v)).2.residues k) (v.residues k) := by
  obtain ⟨same, public'⟩ := unpackPk_packPk (a := a) length
  obtain ⟨message', vector'⟩ := unpackCiphertext_packCiphertext (b := b) (v := v)
  refine ⟨same, fun k small => ⟨fun i => ⟨?_, ?_, ?_⟩, ?_⟩⟩
  · rw [public', Poly.frombytes_tobytes (key i) small]
  · rw [unpackSk_packSk, Poly.frombytes_tobytes (key i) small]
  · rw [vector']
    exact Poly.near_decompressVec (vector i) small
  · rw [message']
    exact Poly.near_decompress message small

theorem unpack_pack_zero :
    let a : PolyVec := fun _ => Poly.zero
    let seed : Bytes := List.replicate 32 7
    (unpackPk (packPk a seed)).2 = seed ∧
      ∀ k < 256,
        (∀ i, ((unpackPk (packPk a seed)).1 i).coeff k = positive ((a i).coeff k) ∧
          (unpackSk (packSk a) i).coeff k = positive ((a i).coeff k) ∧
          Near 2 (((unpackCiphertext (packCiphertext a Poly.zero)).1 i).residues k) ((a i).residues k)) ∧
        Near 104 ((unpackCiphertext (packCiphertext a Poly.zero)).2.residues k) (Poly.zero.residues k) :=
  unpack_pack (fun _ => Poly.bounded_zero) (fun _ => Poly.bounded_zero) Poly.bounded_zero List.length_replicate

end Packing

end E2eeProxy.Mlkem
