import E2eeProxy.Blob
import E2eeProxy.Mlkem.Kem

/-! # Blobs under ML-KEM

The library with the key encapsulation that it is built with. A blob is opened by whoever has
the key, unless the error of its ciphertext is too large.
-/

namespace E2eeProxy.Mlkem

open Lua Crypto

section Backend

variable (S : Symmetric) (fuel : ℕ)

/-- `e2ee_mlkem_keygen`, `e2ee_mlkem_encapsulate` and `e2ee_mlkem_decapsulate`. -/
def withMlkem (suite : Suite) : Suite :=
  { suite with
    mlkemKeygen := cryptoKemKeypairDerand S fuel
    mlkemEncapsulate := cryptoKemEncDerand S fuel
    mlkemDecapsulate := fun sk ct => cryptoKemDec S fuel ct sk }

/-- The same library when keys are there and `m` is all that is drawn to encapsulate. -/
def drawing (pk m : Bytes) (suite : Suite) : Suite :=
  { withMlkem S fuel suite with
    mlkemKeygen := fun _ => none
    mlkemEncapsulate := fun pk' m' => if pk' = pk ∧ m' = m then cryptoKemEncDerand S fuel pk m else none }

/-- What `Seals` says, with the random bytes that are drawn. -/
def SealsWith (suite : Suite) (m info pk json blob : Bytes) : Prop :=
  ∃ mlkemCt ss key nonce ciphertext tag,
    suite.mlkemEncapsulate pk m = some (mlkemCt, ss) ∧
    suite.hkdfSha256 ss (mlkemCt.take 16) info = some key ∧ nonce.length = nonceSize ∧
    suite.chacha20Seal key nonce (suite.deflate json) = some (ciphertext, tag) ∧
    blob = mlkemCt ++ nonce ++ ciphertext ++ tag

end Backend

section Opening

variable {S : Symmetric} {fuel : ℕ} {suite : Suite} {pk sk m coins : Bytes}

theorem laws_drawing (laws : Laws suite) : Laws (drawing S fuel pk m suite) where
  keygen _ _ _ none := by cases none
  opens := laws.opens
  inflates := laws.inflates
  bound := laws.bound
  trailer := laws.trailer

theorem keyPair_drawing (keys : cryptoKemKeypairDerand S fuel coins = some (pk, sk))
    (length : m.length = 32) (small : SmallNoise S fuel coins pk m) :
    KeyPair (drawing S fuel pk m suite) pk sk := by
  intro m' ct ss encapsulated
  simp only [drawing, true_and] at encapsulated
  split at encapsulated
  · have decrypted := (indcpaDec_encDerand keys length encapsulated).mpr small
    exact ⟨length_encDerand encapsulated, cryptoKemDec_encDerand keys encapsulated decrypted⟩
  · cases encapsulated

theorem seals_drawing {info json blob : Bytes} (sealed : SealsWith (withMlkem S fuel suite) m info pk json blob) :
    Seals (drawing S fuel pk m suite) info pk json blob := by
  obtain ⟨mlkemCt, ss, key, nonce, ciphertext, tag, encapsulated, rest⟩ := sealed
  exact ⟨m, mlkemCt, ss, key, nonce, ciphertext, tag, (if_pos ⟨rfl, rfl⟩).trans encapsulated, rest⟩

/-- The instance opens the request and the proxy the response, whenever the errors of the
    two ciphertexts are small. -/
theorem mlkem_blobs_open {rt : Runtime} {draw : Draw}
    {pubkeyB64 payloadJson instancePk instanceSk responsePk responseSk augmented : Bytes} (laws : Laws suite)
    (prepared : Prepared rt (withMlkem S fuel suite) draw pubkeyB64 payloadJson instancePk responsePk
      responseSk augmented)
    (keys : cryptoKemKeypairDerand S fuel coins = some (instancePk, instanceSk))
    (length : draw.encapsulate.length = 32) (small : SmallNoise S fuel coins instancePk draw.encapsulate)
    (short : augmented.length < maxJson) :
    (∃ blob,
      buildE2eeRequest rt (withMlkem S fuel suite) draw (some (.str pubkeyB64)) payloadJson =
        .ok (.ok (blob, responseSk)) ∧
      openBlob (withMlkem S fuel suite) infoReq instanceSk blob = some augmented) ∧
    ∀ m json answer : Bytes, m.length = 32 → SmallNoise S fuel draw.keygen responsePk m →
      json ≠ [] → json.length < maxJson →
      SealsWith (withMlkem S fuel suite) m infoResp responsePk json answer →
      decryptResponse (withMlkem S fuel suite) answer responseSk = .ok (.ok json) := by
  obtain ⟨payload, decoded, table, encodes, rfl⟩ := prepared.payload
  obtain ⟨mlkemCt, ss, key, encapsulated, derived, isSome⟩ := prepared.seals
  obtain ⟨⟨ciphertext, tag⟩, sealed⟩ := Option.isSome_iff_exists.mp isSome
  constructor
  · have pair : KeyPair (drawing S fuel instancePk draw.encapsulate suite) instancePk instanceSk :=
      keyPair_drawing keys length small
    obtain ⟨ct_length, decapsulated⟩ := pair draw.encapsulate mlkemCt ss ((if_pos ⟨rfl, rfl⟩).trans encapsulated)
    have laws' : Laws (drawing S fuel instancePk draw.encapsulate suite) := laws_drawing laws
    refine ⟨mlkemCt ++ draw.nonce ++ ciphertext ++ tag, ?_, openBlob_assembled laws' ct_length decapsulated
      derived prepared.nonce_length sealed⟩
    have pk : (some instancePk).filter (fun pk => decide (pk.length = mlkemPkSize)) = some instancePk := by
      simp [prepared.pubkey_length]
    have assembled : sealPayload (withMlkem S fuel suite) draw.nonce key mlkemCt _ = _ :=
      sealPayload_eq laws' short sealed
    simp only [buildE2eeRequest, prepared.keygen, decodeBase64, orElse, prepared.pubkey, pk, encapsulated,
      deriveKey, derived, augment, decoded, table, encodes, assembled, bind, Except.bind, pure, Except.pure,
      not_true_eq_false, if_false, if_true]
  · intro m json answer length small some' short sealed
    have pair : KeyPair (drawing S fuel responsePk m suite) responsePk responseSk :=
      keyPair_drawing prepared.keygen length small
    exact decryptResponse_eq (laws_drawing laws) pair some' short (seals_drawing sealed)

end Opening

namespace Sample

theorem bounded_message {S : Symmetric} {fuel : ℕ} {m pk r : Bytes} {b : PolyVec} {v : Poly}
    (made : indcpaEncPolys S fuel m pk r = some (b, v)) : v.Bounded 1664 := by
  unfold indcpaEncPolys at made
  generalize unpackPk pk = unpacked at made
  obtain ⟨pkpv, seed⟩ := unpacked
  simp only [Option.bind_eq_bind, Option.bind_eq_some_iff, Option.pure_def, Option.some_inj, Prod.mk.injEq]
    at made
  obtain ⟨A, -, -, rfl⟩ := made
  exact Poly.bounded_reduce

/-- Without noise. -/
theorem ring_getnoise (seed : Bytes) (nonce : ℕ) : (getnoise symmetric seed nonce).ring = 0 := by
  have residues {k : ℕ} (inside : k < 256) : (getnoise symmetric seed nonce).residues k = 0 := by
    have zero (n : ℕ) (inside : n < 1024) : bufBit (List.replicate 128 0) n = 0 := by
      rw [bufBit, entry, List.getD_replicate _ (by omega)]
      simp
    have value := Poly.toInt_cbd2 (List.replicate 128 0) inside
    rw [zero _ (by omega), zero _ (by omega), zero _ (by omega), zero _ (by omega)] at value
    have value : (((getnoise symmetric seed nonce).coeff k).toInt : ℤ) = 0 := value
    rw [Poly.residues, residue, value, Int.cast_zero]
  have poly : (getnoise symmetric seed nonce).poly = 0 := by
    rw [Poly.poly]
    exact Finset.sum_eq_zero fun i inside => by simp [residues (Finset.mem_range.mp inside)]
  rw [Poly.ring, poly, map_zero]

/-- The error is what is lost in the ciphertext. -/
theorem smallNoise (coins pk m : Bytes) : SmallNoise symmetric 0 coins pk m := by
  intro b v polys k inside
  have bound := near_lost ((bounded_message polys).mono (by norm_num)) inside
  have error (r : Bytes) : noise symmetric coins r b v = lost v := by
    simp [noise, noiseVec, ring_getnoise]
  have range := abs_le.mp bound
  rw [error, Decodes]
  split <;> omega

/-- A directory that lists the key of an instance. -/
def suite : Suite := { Crypto.Sample.suite with decodeBase64 := fun _ => some keys.1 }

theorem laws : Laws suite where
  keygen _ pk sk _ coins ct ss := Crypto.Sample.keyPair pk sk coins ct ss
  opens := Crypto.Sample.laws.opens
  inflates := Crypto.Sample.laws.inflates
  bound := Crypto.Sample.laws.bound
  trailer := Crypto.Sample.laws.trailer

def draw : Draw := ⟨[], List.replicate 32 0, List.replicate nonceSize 0⟩

theorem prepared : Prepared Crypto.Sample.runtime (withMlkem symmetric 0 suite) draw Crypto.Sample.zeroKeyB64
    (lit "\x7b\x7d") keys.1 keys.1 keys.2 Crypto.Sample.augmented where
  keygen := keys_eq
  pubkey := rfl
  pubkey_length := by
    obtain ⟨secret, made, -⟩ := keypair_parts keys_eq
    exact (length_indcpaKeypair made).1
  payload := Crypto.Sample.prepared.payload
  nonce_length := rfl
  seals := by
    obtain ⟨secret, made, -⟩ := keypair_parts keys_eq
    obtain ⟨b, v, -, -, encapsulated⟩ := encDerand_returns made (List.length_replicate (a := 0) (n := 32))
    exact ⟨_, _, _, encapsulated, rfl, rfl⟩

end Sample

theorem mlkem_blobs_open_sample :
    (∃ blob,
      buildE2eeRequest Crypto.Sample.runtime (withMlkem Sample.symmetric 0 Sample.suite) Sample.draw
        (some (.str Crypto.Sample.zeroKeyB64)) (lit "\x7b\x7d") = .ok (.ok (blob, Sample.keys.2)) ∧
      openBlob (withMlkem Sample.symmetric 0 Sample.suite) infoReq Sample.keys.2 blob =
        some Crypto.Sample.augmented) ∧
    ∀ m json answer : Bytes, m.length = 32 → SmallNoise Sample.symmetric 0 [] Sample.keys.1 m →
      json ≠ [] → json.length < maxJson →
      SealsWith (withMlkem Sample.symmetric 0 Sample.suite) m infoResp Sample.keys.1 json answer →
      decryptResponse (withMlkem Sample.symmetric 0 Sample.suite) answer Sample.keys.2 = .ok (.ok json) :=
  mlkem_blobs_open Sample.laws Sample.prepared Sample.keys_eq (List.length_replicate (a := 0) (n := 32))
    (Sample.smallNoise _ _ _) (by decide +kernel)

end E2eeProxy.Mlkem
