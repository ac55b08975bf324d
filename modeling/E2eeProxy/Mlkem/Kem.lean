import E2eeProxy.Mlkem.Decryption
import E2eeProxy.Mlkem.Fips202

/-! # Key encapsulation

kem.c and verify.c. A ciphertext that is not what its message encrypts to yields a key that
nobody else knows, and no error.
-/

namespace E2eeProxy.Mlkem

open Lua

/-! ## Comparing without branches -/

def verify (a b : Bytes) (len : ℕ) : ℕ :=
  let r := (List.range len).foldl (fun (r : UInt8) i => r ||| (a.getD i 0 ^^^ b.getD i 0)) 0
  ((-r.toUInt64) >>> 63).toNat

/-- `r` after `PQCLEAN_MLKEM768_CLEAN_cmov`. -/
def cmov (r x : Bytes) (len : ℕ) (b : UInt8) : Bytes :=
  let b := -b
  (List.range len).map fun i => r.getD i 0 ^^^ (b &&& (r.getD i 0 ^^^ x.getD i 0))

theorem or_eq_zero {a b : UInt8} : a ||| b = 0 ↔ a = 0 ∧ b = 0 := by
  rw [← UInt8.toNat_inj, ← UInt8.toNat_inj (a := a), ← UInt8.toNat_inj (a := b), UInt8.toNat_or]
  exact Nat.or_eq_zero_iff

theorem differences_eq_zero {a b : Bytes} (len : ℕ) :
    (List.range len).foldl (fun (r : UInt8) i => r ||| (a.getD i 0 ^^^ b.getD i 0)) 0 = 0 ↔
      ∀ i < len, a.getD i 0 = b.getD i 0 := by
  induction len with
  | zero => simp
  | succ len ih =>
    rw [List.range_succ, List.foldl_append, List.foldl_cons, List.foldl_nil, or_eq_zero, ih,
      UInt8.xor_eq_zero_iff]
    constructor
    · rintro ⟨before, last⟩ i inside
      rcases Nat.lt_succ_iff_lt_or_eq.mp inside with earlier | rfl
      · exact before i earlier
      · exact last
    · intro all
      exact ⟨fun i earlier => all i (by omega), all len (by omega)⟩

/-- The sign of the negation tells zero from everything else. -/
theorem neg_shiftRight (r : UInt8) : ((-r.toUInt64) >>> 63).toNat = if r = 0 then 0 else 1 := by
  have small := r.toNat_lt
  have zero : r = 0 ↔ r.toNat = 0 := UInt8.toNat_inj.symm
  rw [UInt64.toNat_shiftRight, UInt64.toNat_neg, UInt8.toNat_toUInt64, Nat.shiftRight_eq_div_pow]
  change (2 ^ 64 - r.toNat) % 2 ^ 64 / 2 ^ 63 = _
  split
  · rename_i none
    rw [zero.mp none]
    rfl
  · rename_i some
    have positive : r.toNat ≠ 0 := fun none => some (zero.mpr none)
    omega

section Strings

variable {a b r x : Bytes} {len : ℕ}

theorem eq_of_getD (length : a.length = len) (length' : b.length = len)
    (same : ∀ i < len, a.getD i 0 = b.getD i 0) : a = b := by
  apply List.ext_getElem (length.trans length'.symm)
  intro i inside inside'
  have here := same i (by omega)
  rwa [List.getD_eq_getElem _ _ inside, List.getD_eq_getElem _ _ inside'] at here

theorem verify_eq (length : a.length = len) (length' : b.length = len) :
    verify a b len = if a = b then 0 else 1 := by
  rw [verify, neg_shiftRight]
  congr 1
  rw [differences_eq_zero]
  exact propext ⟨eq_of_getD length length', fun same i _ => by rw [same]⟩

theorem length_cmov {b : UInt8} : (cmov r x len b).length = len := by
  rw [cmov, List.length_map, List.length_range]

theorem getD_cmov {b : UInt8} {i : ℕ} (inside : i < len) :
    (cmov r x len b).getD i 0 = r.getD i 0 ^^^ (-b &&& (r.getD i 0 ^^^ x.getD i 0)) := by
  rw [cmov, List.getD_eq_getElem _ _ (by rw [List.length_map, List.length_range]; exact inside),
    List.getElem_map, List.getElem_range]

theorem cmov_eq (length : r.length = len) (length' : len ≤ x.length) (same : Prop) [Decidable same] :
    cmov r x len (UInt8.ofNat (1 - if same then 0 else 1)) = if same then x.take len else r := by
  split
  · apply eq_of_getD length_cmov (List.length_take_of_le length')
    intro i inside
    rw [getD_cmov inside, show -UInt8.ofNat (1 - 0) = -1 by decide, UInt8.neg_one_and, ← UInt8.xor_assoc,
      UInt8.xor_self, UInt8.zero_xor, List.getD_eq_getElem?_getD, List.getD_eq_getElem?_getD,
      List.getElem?_take_of_lt inside]
  · apply eq_of_getD length_cmov length
    intro i inside
    rw [getD_cmov inside, show -UInt8.ofNat (1 - 1) = 0 by decide, UInt8.zero_and, UInt8.xor_zero]

end Strings

/-! ## The functions -/

section Functions

variable (S : Symmetric)

/-- The public and the secret key. -/
def cryptoKemKeypairDerand (fuel : ℕ) (coins : Bytes) : Option (Bytes × Bytes) := do
  let (pk, sk) ← indcpaKeypairDerand S fuel coins
  let sk := sk ++ pk
  let sk := sk ++ S.hashH pk
  let sk := sk ++ (coins.drop 32).take 32
  return (pk, sk)

/-- The ciphertext and the shared secret. -/
def cryptoKemEncDerand (fuel : ℕ) (pk coins : Bytes) : Option (Bytes × Bytes) := do
  let buf := coins.take 32 ++ S.hashH pk
  let kr := S.hashG buf
  let ct ← indcpaEnc S fuel (buf.take 32) pk (kr.drop 32)
  return (ct, kr.take 32)

def cryptoKemDec (fuel : ℕ) (ct sk : Bytes) : Option Bytes := do
  let pk := (sk.drop 1152).take 1184
  let buf := indcpaDec ct sk
  let buf := buf ++ (sk.drop (2400 - 2 * 32)).take 32
  let kr := S.hashG buf
  let cmp ← indcpaEnc S fuel (buf.take 32) pk (kr.drop 32)
  let fail := verify ct cmp 1088
  let ss := S.rkprf ((sk.drop (2400 - 32)).take 32) ct
  return cmov ss kr 32 (UInt8.ofNat (1 - fail))

end Functions

section Decapsulation

variable {S : Symmetric} {fuel : ℕ} {coins coins' m pk sk ct ss : Bytes} {b : PolyVec} {v : Poly}

theorem length_indcpaDec (c sk : Bytes) : (indcpaDec c sk).length = 32 := Poly.length_tomsg

theorem length_indcpaEnc (made : indcpaEnc S fuel m pk coins = some ct) : ct.length = 1088 := by
  simp only [indcpaEnc, Option.bind_eq_bind, Option.bind_eq_some_iff, Option.pure_def, Option.some_inj] at made
  obtain ⟨_, -, rfl⟩ := made
  exact length_packCiphertext

/-- The key of the message if the message encrypts to the ciphertext, and otherwise a key
    that depends on nothing but the ciphertext and what only the owner knows. -/
theorem cryptoKemDec_eq (length : ct.length = 1088) :
    let m := indcpaDec ct sk
    let kr := S.hashG (m ++ (sk.drop 2336).take 32)
    cryptoKemDec S fuel ct sk = (indcpaEnc S fuel m ((sk.drop 1152).take 1184) (kr.drop 32)).map
      fun cmp => if ct = cmp then kr.take 32 else S.rkprf ((sk.drop 2368).take 32) ct := by
  dsimp only
  have whole : (indcpaDec ct sk ++ (sk.drop 2336).take 32).take 32 = indcpaDec ct sk :=
    List.take_left' (length_indcpaDec ct sk)
  unfold cryptoKemDec
  dsimp only
  rw [show 2400 - 2 * 32 = 2336 by norm_num, show 2400 - 32 = 2368 by norm_num, whole]
  cases made : indcpaEnc S fuel (indcpaDec ct sk) ((sk.drop 1152).take 1184)
      ((S.hashG (indcpaDec ct sk ++ (sk.drop 2336).take 32)).drop 32) with
  | none => rfl
  | some cmp =>
    have key : cmov (S.rkprf ((sk.drop 2368).take 32) ct)
        (S.hashG (indcpaDec ct sk ++ (sk.drop 2336).take 32)) 32
        (UInt8.ofNat (1 - verify ct cmp 1088)) = if ct = cmp
          then (S.hashG (indcpaDec ct sk ++ (sk.drop 2336).take 32)).take 32
          else S.rkprf ((sk.drop 2368).take 32) ct := by
      rw [verify_eq length (length_indcpaEnc made)]
      exact cmov_eq (S.length_rkprf _ _) (by rw [S.length_hashG]; norm_num) _
    exact congrArg some key

/-! ## Keys of its own making -/

theorem length_indcpaKeypair (made : indcpaKeypairDerand S fuel coins = some (pk, sk)) :
    pk.length = 1184 ∧ sk.length = 1152 := by
  have length : (expandSeed S coins).1.length = 32 := by
    rw [expandSeed, List.length_take, S.length_hashG]
    rfl
  unfold indcpaKeypairDerand at made
  simp only [Option.bind_eq_bind, Option.bind_eq_some_iff, Option.pure_def, Option.some_inj, Prod.mk.injEq]
    at made
  obtain ⟨A, -, rfl, rfl⟩ := made
  exact ⟨length_packPk length, length_tobytes _⟩

/-- The parts of a secret key. -/
theorem keypair_parts (keys : cryptoKemKeypairDerand S fuel coins = some (pk, sk)) :
    ∃ secret, indcpaKeypairDerand S fuel coins = some (pk, secret) ∧ secret.length = 1152 ∧
      sk = secret ++ pk ++ S.hashH pk ++ (coins.drop 32).take 32 ∧ (sk.drop 1152).take 1184 = pk ∧
      (sk.drop 2336).take 32 = S.hashH pk ∧ (sk.drop 2368).take 32 = (coins.drop 32).take 32 := by
  simp only [cryptoKemKeypairDerand, Option.bind_eq_bind, Option.bind_eq_some_iff, Option.pure_def,
    Option.some_inj, Prod.exists, Prod.mk.injEq] at keys
  obtain ⟨pk', secret, made, rfl, rfl⟩ := keys
  obtain ⟨public', private'⟩ := length_indcpaKeypair made
  have hash := S.length_hashH pk'
  refine ⟨secret, made, private', rfl, ?_, ?_, ?_⟩
  · rw [List.append_assoc, List.append_assoc, List.drop_left' private', List.take_left' public']
  · rw [List.append_assoc, List.drop_left' (by rw [List.length_append, private', public']),
      List.take_left' hash]
  · rw [List.drop_left' (by rw [List.length_append, List.length_append, private', public', hash])]
    simp

/-- Decryption reads the first part of a secret key. -/
theorem indcpaDec_append {secret rest c : Bytes} (made : indcpaKeypairDerand S fuel coins = some (pk, secret)) :
    indcpaDec c (secret ++ rest) = indcpaDec c secret := by
  unfold indcpaKeypairDerand at made
  simp only [Option.bind_eq_bind, Option.bind_eq_some_iff, Option.pure_def, Option.some_inj, Prod.mk.injEq]
    at made
  obtain ⟨A, -, -, rfl⟩ := made
  have same (s : PolyVec) : unpackSk (packSk s ++ rest) = unpackSk (packSk s) := by
    funext i
    rw [unpackSk_packSk]
    exact frombytes_tobytes_append _ rest i
  unfold indcpaDec indcpaDecPoly
  rw [same]

/-- The owner of a key never looks for a matrix in vain. -/
theorem indcpaEncPolys_returns (keys : indcpaKeypairDerand S fuel coins = some (pk, sk)) (m r : Bytes) :
    ∃ b v, indcpaEncPolys S fuel m pk r = some (b, v) := by
  obtain ⟨A, matrix, seed, -⟩ := keypair_spec keys
  have transposed := genMatrix_transposed matrix
  rw [← seed] at transposed
  unfold indcpaEncPolys
  generalize unpackPk pk = unpacked at transposed
  obtain ⟨pkpv, publicseed⟩ := unpacked
  dsimp only at transposed
  simp only [Option.bind_eq_bind, transposed, Option.bind_some, Option.pure_def, Option.some_inj,
    Prod.mk.injEq]
  exact ⟨_, _, rfl, rfl⟩

theorem encDerand_returns (keys : indcpaKeypairDerand S fuel coins = some (pk, sk)) (length : m.length = 32) :
    ∃ b v, indcpaEncPolys S fuel m pk ((S.hashG (m ++ S.hashH pk)).drop 32) = some (b, v) ∧
      indcpaEnc S fuel m pk ((S.hashG (m ++ S.hashH pk)).drop 32) = some (packCiphertext b v) ∧
      cryptoKemEncDerand S fuel pk m =
        some (packCiphertext b v, (S.hashG (m ++ S.hashH pk)).take 32) := by
  obtain ⟨b, v, made⟩ := indcpaEncPolys_returns keys m ((S.hashG (m ++ S.hashH pk)).drop 32)
  have encrypted : indcpaEnc S fuel m pk ((S.hashG (m ++ S.hashH pk)).drop 32) = some (packCiphertext b v) := by
    rw [indcpaEnc, made]
    rfl
  refine ⟨b, v, made, encrypted, ?_⟩
  unfold cryptoKemEncDerand
  dsimp only
  rw [List.take_of_length_le (show m.length ≤ 32 by omega), List.take_left' length, encrypted]
  rfl

/-- Every string of the right length yields a key: the one that its message is encapsulated
    with, if that makes the same string, and one that looks random otherwise. -/
theorem cryptoKemDec_spec (keys : cryptoKemKeypairDerand S fuel coins = some (pk, sk))
    (length : ct.length = 1088) :
    ∃ ct' ss', cryptoKemEncDerand S fuel pk (indcpaDec ct sk) = some (ct', ss') ∧
      cryptoKemDec S fuel ct sk =
        some (if ct = ct' then ss' else S.rkprf ((coins.drop 32).take 32) ct) := by
  obtain ⟨secret, made, -, -, public', hash, rejection⟩ := keypair_parts keys
  obtain ⟨b, v, -, encrypted, encapsulated⟩ := encDerand_returns made (length_indcpaDec ct sk)
  refine ⟨_, _, encapsulated, ?_⟩
  rw [cryptoKemDec_eq length, public', hash, rejection, encrypted, Option.map_some]

/-- The error of what `m` is encapsulated in leaves every bit what it is. -/
def SmallNoise (S : Symmetric) (fuel : ℕ) (coins pk m : Bytes) : Prop :=
  let r := (S.hashG (m ++ S.hashH pk)).drop 32
  ∀ b v, indcpaEncPolys S fuel m pk r = some (b, v) →
    ∀ k < 256, Decodes (messageBit m k) (coefficient k (noise S coins r b v))

theorem length_encDerand (made : cryptoKemEncDerand S fuel pk m = some (ct, ss)) : ct.length = 1088 := by
  simp only [cryptoKemEncDerand, Option.bind_eq_bind, Option.bind_eq_some_iff, Option.pure_def,
    Option.some_inj, Prod.mk.injEq] at made
  obtain ⟨_, encrypted, rfl, -⟩ := made
  exact length_indcpaEnc encrypted

theorem indcpaDec_encDerand (keys : cryptoKemKeypairDerand S fuel coins = some (pk, sk))
    (length : m.length = 32) (made : cryptoKemEncDerand S fuel pk m = some (ct, ss)) :
    indcpaDec ct sk = m ↔ SmallNoise S fuel coins pk m := by
  obtain ⟨secret, keys', -, parts, -⟩ := keypair_parts keys
  obtain ⟨b, v, polys, -, encapsulated⟩ := encDerand_returns keys' length
  rw [encapsulated, Option.some_inj, Prod.mk.injEq] at made
  obtain ⟨rfl, -⟩ := made
  rw [parts, List.append_assoc, List.append_assoc, indcpaDec_append keys',
    indcpaDec_indcpaEnc keys' polys length]
  constructor
  · intro small b' v' polys'
    obtain ⟨rfl, rfl⟩ : b = b' ∧ v = v' := by
      rw [polys] at polys'
      simpa using polys'
    exact small
  · intro small
    exact small b v polys

theorem cryptoKemDec_encDerand (keys : cryptoKemKeypairDerand S fuel coins = some (pk, sk))
    (made : cryptoKemEncDerand S fuel pk m = some (ct, ss)) (decrypted : indcpaDec ct sk = m) :
    cryptoKemDec S fuel ct sk = some ss := by
  obtain ⟨ct', ss', again, result⟩ := cryptoKemDec_spec keys (length_encDerand made)
  rw [decrypted, made, Option.some_inj, Prod.mk.injEq] at again
  obtain ⟨rfl, rfl⟩ := again
  rw [result, if_pos rfl]

/-- Encapsulation always returns. What is encapsulated is decrypted exactly if the error is
    small, and then both sides have the same secret. -/
theorem kem_correct (keys : cryptoKemKeypairDerand S fuel coins = some (pk, sk)) (length : m.length = 32) :
    ∃ ct ss, cryptoKemEncDerand S fuel pk m = some (ct, ss) ∧ ct.length = 1088 ∧
      (indcpaDec ct sk = m ↔ SmallNoise S fuel coins pk m) ∧
      (SmallNoise S fuel coins pk m → cryptoKemDec S fuel ct sk = some ss) := by
  obtain ⟨secret, keys', -⟩ := keypair_parts keys
  obtain ⟨b, v, -, -, made⟩ := encDerand_returns keys' length
  have decrypted := indcpaDec_encDerand keys length made
  exact ⟨_, _, made, length_encDerand made, decrypted,
    fun small => cryptoKemDec_encDerand keys made (decrypted.mpr small)⟩

end Decapsulation

namespace Sample

theorem keys_isSome : (cryptoKemKeypairDerand symmetric 0 []).isSome := by
  unfold cryptoKemKeypairDerand indcpaKeypairDerand
  simp only [genMatrix_zeros, Option.bind_eq_bind, Option.bind_some, Option.pure_def, Option.isSome_some]

def keys : Bytes × Bytes := (cryptoKemKeypairDerand symmetric 0 []).get keys_isSome

theorem keys_eq : cryptoKemKeypairDerand symmetric 0 [] = some (keys.1, keys.2) :=
  (Option.some_get keys_isSome).symm

end Sample

theorem kem_correct_zeros :
    ∃ ct ss, cryptoKemEncDerand Sample.symmetric 0 Sample.keys.1 (List.replicate 32 0) = some (ct, ss) ∧
      ct.length = 1088 ∧
      (indcpaDec ct Sample.keys.2 = List.replicate 32 0 ↔
        SmallNoise Sample.symmetric 0 [] Sample.keys.1 (List.replicate 32 0)) ∧
      (SmallNoise Sample.symmetric 0 [] Sample.keys.1 (List.replicate 32 0) →
        cryptoKemDec Sample.symmetric 0 ct Sample.keys.2 = some ss) :=
  kem_correct Sample.keys_eq List.length_replicate

/-! ## With the hash functions that the library is built with -/

section Hashes

variable {permute : Lanes → Lanes} {fuel : ℕ} {coins pk sk ct : Bytes}

/-- Decapsulation never fails. What is no encapsulation yields a hash of the ciphertext and of
    the last bytes of the key. -/
theorem implicit_rejection (keys : cryptoKemKeypairDerand (kyberSymmetric permute) fuel coins = some (pk, sk))
    (length : ct.length = 1088) :
    ∃ ct' ss', cryptoKemEncDerand (kyberSymmetric permute) fuel pk (indcpaDec ct sk) = some (ct', ss') ∧
      cryptoKemDec (kyberSymmetric permute) fuel ct sk =
        some (if ct = ct' then ss' else shake permute shake256Rate 32 ((coins.drop 32).take 32 ++ ct)) := by
  obtain ⟨ct', ss', made, result⟩ := cryptoKemDec_spec keys length
  refine ⟨ct', ss', made, ?_⟩
  have rejected : (kyberSymmetric permute).rkprf ((coins.drop 32).take 32) ct =
      shake permute shake256Rate 32 ((coins.drop 32).take 32 ++ ct) := by
    have hash := @kyberShake256Rkprf_eq permute ((coins.drop 32).take 32) ct
    rwa [List.take_take, Nat.min_self, List.take_of_length_le length.le] at hash
  rw [result, rejected]

end Hashes

namespace Sample

/-- A permutation that leaves nothing of a state. -/
def clear : Lanes → Lanes := fun _ => zeroLanes

theorem xof_clear (seed : Bytes) : (kyberSymmetric clear).xof seed = fun _ => List.replicate 168 0 := by
  funext n
  change (Lib.Groups.groups 21 fun i => store64 (lane zeroLanes i)) ++ [] = _
  decide +kernel

theorem clearKeys_isSome : (cryptoKemKeypairDerand (kyberSymmetric clear) 0 []).isSome := by
  have matrix (seed : Bytes) (transposed : Bool) :
      genMatrix (kyberSymmetric clear) 0 seed transposed = some fun _ _ => Poly.zero := by
    refine genMatrix_eq_some.mpr fun i j => ?_
    rw [xof_clear]
    exact sampleEntry_zeros []
  unfold cryptoKemKeypairDerand indcpaKeypairDerand
  simp only [matrix, Option.bind_eq_bind, Option.bind_some, Option.pure_def, Option.isSome_some]

def clearKeys : Bytes × Bytes := (cryptoKemKeypairDerand (kyberSymmetric clear) 0 []).get clearKeys_isSome

theorem clearKeys_eq :
    cryptoKemKeypairDerand (kyberSymmetric clear) 0 [] = some (clearKeys.1, clearKeys.2) := by
  rw [Prod.mk.eta, clearKeys, Option.some_get]

end Sample

theorem implicit_rejection_zeros :
    let ct : Bytes := List.replicate 1088 0
    ∃ ct' ss', cryptoKemEncDerand (kyberSymmetric Sample.clear) 0 Sample.clearKeys.1
        (indcpaDec ct Sample.clearKeys.2) = some (ct', ss') ∧
      cryptoKemDec (kyberSymmetric Sample.clear) 0 ct Sample.clearKeys.2 =
        some (if ct = ct' then ss' else shake Sample.clear shake256Rate 32 ((([] : Bytes).drop 32).take 32 ++ ct)) :=
  implicit_rejection Sample.clearKeys_eq List.length_replicate

section Hashes

variable {permute : Lanes → Lanes} {fuel : ℕ} {seed : Bytes}

/-- The matrix is read off streams of SHAKE128, one for each entry: its coefficients are the
    first 256 values that are small enough, and it is there once the stream holds as many. -/
theorem genMatrix_iff_streams {transposed : Bool} {A : Fin 3 → PolyVec} :
    genMatrix (kyberSymmetric permute) fuel seed transposed = some A ↔
      ∀ i j, let values := accepted (shake permute shake128Rate ((3 + fuel) * 168) (entrySeed seed transposed i j))
        256 ≤ values.length ∧ ∀ k < 256, (A i j).coeff k = Int16.ofNat (values.getD k 0) := by
  rw [genMatrix_eq_some]
  refine forall₂_congr fun i j => ?_
  rw [sampleEntry_eq_some ((kyberSymmetric permute).length_xof _), ← squeezed_eq_shake]
  rfl

/-- A coefficient of the noise is two bits less two bits of SHAKE256. -/
theorem toInt_getnoise {nonce k : ℕ} (small : k < 256) :
    let buf := shake permute shake256Rate 128 (seed.take 32 ++ [UInt8.ofNat nonce])
    let e := ((getnoise (kyberSymmetric permute) seed nonce).coeff k).toInt
    e = bufBit buf (4 * k) + bufBit buf (4 * k + 1) - (bufBit buf (4 * k + 2) + bufBit buf (4 * k + 3)) ∧
      |e| ≤ 2 := by
  have range := bounded_noise (kyberSymmetric permute) seed nonce k small
  exact ⟨Poly.toInt_cbd2 _ small, abs_le.mpr ⟨range.low, range.high⟩⟩

theorem toInt_getnoise_first :
    let buf := shake Sample.clear shake256Rate 128 (([] : Bytes).take 32 ++ [UInt8.ofNat 0])
    let e := ((getnoise (kyberSymmetric Sample.clear) [] 0).coeff 0).toInt
    e = bufBit buf (4 * 0) + bufBit buf (4 * 0 + 1) - (bufBit buf (4 * 0 + 2) + bufBit buf (4 * 0 + 3)) ∧
      |e| ≤ 2 :=
  toInt_getnoise (by decide)

end Hashes

end E2eeProxy.Mlkem
