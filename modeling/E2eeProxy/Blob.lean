import E2eeProxy.Crypto
import E2eeProxy.Lib.Table
import Mathlib.Algebra.Order.Ring.Nat

/-! # Request and response blobs

What `build_e2ee_request` seals opens by the documented layout, and
`decrypt_response` opens what was sealed so. The primitives are parameters; the
sizes of the buffers are the code's own.
-/

namespace E2eeProxy.Crypto

open Lua Lib

/-- The rest of the native library, with zlib's `deflate` and `inflate` of a whole
    gzip stream. The arguments last are the random bytes that are drawn. -/
structure Suite extends Native where
  encodeBase64 : Bytes → Bytes
  mlkemKeygen : (coins : Bytes) → Option (Bytes × Bytes)
  mlkemEncapsulate : (pk coins : Bytes) → Option (Bytes × Bytes)
  chacha20Seal : (key nonce plaintext : Bytes) → Option (Bytes × Bytes)
  deflate : Bytes → Bytes
  inflate : Bytes → Option Bytes

def mlkemPkSize : Nat := 1184
def infoReq : Bytes := lit "e2e-req-v1"
def infoResp : Bytes := lit "e2e-resp-v1"

/-- `bit.rshift(n, k)`. -/
def rshift (n k : Nat) : Nat := n % 2 ^ 32 / 2 ^ k

def gzipBound (n : Nat) : Nat := n + rshift n 12 + rshift n 14 + rshift n 25 + 64

/-- The length of the plain text, as the last four bytes of a buffer have it. -/
def gzipIsize (buf : Bytes) (n : Nat) : Option Nat :=
  if n < 18 then none
  else
    some ((buf.getD (n - 4) 0).toNat + (buf.getD (n - 3) 0).toNat * 256 +
      (buf.getD (n - 2) 0).toNat * 65536 + (buf.getD (n - 1) 0).toNat * 16777216)

/-- `ffi.new("uint8_t[?]", n)`. -/
def newBuffer (n : Nat) : LuaM Unit := if n < 2 ^ 31 then .ok () else .error .badArgument

def uintMax : Nat := 2 ^ 32 - 1

section Routines

variable (rt : Runtime) (suite : Suite)

/-- `e2ee_gzip_compress`: what it wrote, nothing if it failed. -/
def gzipCompress (input : Bytes) (outMax : Nat) : Bytes :=
  if outMax = 0 ∨ uintMax < input.length ∨ uintMax < outMax then []
  else
    let produced := suite.deflate input
    if produced.length ≤ outMax then produced else []

/-- `e2ee_gzip_decompress`. -/
def gzipDecompress (input : Bytes) (outMax : Nat) : Bytes :=
  if input = [] ∨ outMax = 0 ∨ uintMax < input.length ∨ uintMax < outMax then []
  else
    match suite.inflate input with
    | some produced => if produced.length ≤ outMax then produced else []
    | none => []

/-- The random bytes a request draws. -/
structure Draw where
  keygen : Bytes
  encapsulate : Bytes
  nonce : Bytes

/-- `payload["e2e_response_pk"] = ...`. The module's own decoder marks an array with
    `array_mt`, so the encoder leaves out what it has besides its elements. -/
def withResponseKey (key : Bytes) : Value → Value
  | .obj fields => .obj (setEntry (lit "e2e_response_pk") (.str key) fields)
  | v => v

/-- Inject the response public key into the payload. -/
def augment (key payloadJson : Bytes) : LuaM (Except String Bytes) :=
  match rt.decode payloadJson with
  | none => .error .badArgument
  | some payload =>
      if ¬ isTable (some payload) then return .error "payload is not a JSON object"
      else if rt.encodes (withResponseKey key payload) then
        return .ok (rt.encode (withResponseKey key payload))
      else .error .badArgument

/-- Compress, seal and assemble. -/
def sealPayload (nonce symKey mlkemCt augmentedJson : Bytes) : LuaM (Except String Bytes) := do
  let bound := gzipBound augmentedJson.length
  newBuffer bound
  let compressed := gzipCompress suite augmentedJson bound
  if compressed = [] then return .error "gzip compression failed"
  newBuffer compressed.length
  match suite.chacha20Seal symKey nonce compressed with
  | none => return .error "encryption failed"
  | some (ciphertext, tag) => return .ok (mlkemCt ++ nonce ++ ciphertext ++ tag)

/-- Build an encrypted E2EE request blob. -/
def buildE2eeRequest (draw : Draw) (e2ePubkeyB64 : Option Value) (payloadJson : Bytes) :
    LuaM (Except String (Bytes × Bytes)) := do
  match suite.mlkemKeygen draw.keygen with
  | none => return .error "ML-KEM keygen failed"
  | some (responsePk, responseSk) =>
      match (← decodeBase64 suite.toNative e2ePubkeyB64).filter fun pk =>
          pk.length = mlkemPkSize with
      | none => return .error "invalid server pubkey (expected 1184 bytes)"
      | some e2ePubkey =>
          match suite.mlkemEncapsulate e2ePubkey draw.encapsulate with
          | none => return .error "ML-KEM encapsulation failed"
          | some (mlkemCt, sharedSecret) =>
              match deriveKey suite.toNative sharedSecret mlkemCt infoReq with
              | .error err => return .error err
              | .ok symKey =>
                  match ← augment rt (suite.encodeBase64 responsePk) payloadJson with
                  | .error err => return .error err
                  | .ok augmented =>
                      match ← sealPayload suite draw.nonce symKey mlkemCt augmented with
                      | .error err => return .error err
                      | .ok blob => return .ok (blob, responseSk)

/-- Decompress what was opened, into a buffer of the size its trailer tells. -/
def unzip (plaintext : Bytes) (ctLen : Nat) : LuaM (Except String Bytes) := do
  match (gzipIsize plaintext ctLen).filter fun isize => isize ≠ 0 with
  | none => return .error "decrypted payload is not gzip"
  | some isize =>
      let outMax := isize + 1
      newBuffer outMax
      let decompressed := gzipDecompress suite plaintext outMax
      if decompressed = [] then return .error "gzip decompression failed"
      return .ok decompressed

/-- Decrypt a non-streaming response blob. -/
def decryptResponse (responseBlob responseSk : Bytes) : LuaM (Except String Bytes) := do
  if responseBlob.length < mlkemCtSize + nonceSize + tagSize then
    return .error "response too short"
  let mlkemCt := responseBlob.take mlkemCtSize
  let nonce := (responseBlob.drop mlkemCtSize).take nonceSize
  let ciphertext :=
    (responseBlob.take (responseBlob.length - tagSize)).drop (mlkemCtSize + nonceSize)
  let tag := responseBlob.drop (responseBlob.length - tagSize)
  match suite.mlkemDecapsulate responseSk mlkemCt with
  | none => return .error "ML-KEM decapsulation failed"
  | some ss =>
      match deriveKey suite.toNative ss mlkemCt infoResp with
      | .error err => return .error err
      | .ok symKey =>
          newBuffer (max ciphertext.length 1)
          match suite.chacha20Open symKey nonce ciphertext tag with
          | none => return .error "decryption failed (auth tag mismatch)"
          | some plaintext => unzip suite plaintext ciphertext.length

end Routines

/-! ## The documented layout -/

section Layout

variable (suite : Suite)

/-- `mlkem_ct ‖ nonce ‖ ciphertext ‖ tag`, sealed to a key. -/
def Seals (info pk json blob : Bytes) : Prop :=
  ∃ coins mlkemCt ss key nonce ciphertext tag,
    suite.mlkemEncapsulate pk coins = some (mlkemCt, ss) ∧
    suite.hkdfSha256 ss (mlkemCt.take 16) info = some key ∧ nonce.length = nonceSize ∧
    suite.chacha20Seal key nonce (suite.deflate json) = some (ciphertext, tag) ∧
    blob = mlkemCt ++ nonce ++ ciphertext ++ tag

/-- How the other side opens a blob. -/
def openBlob (info sk blob : Bytes) : Option Bytes := do
  let mlkemCt := blob.take mlkemCtSize
  let rest := blob.drop (mlkemCtSize + nonceSize)
  let ss ← suite.mlkemDecapsulate sk mlkemCt
  let key ← suite.hkdfSha256 ss (mlkemCt.take 16) info
  let compressed ← suite.chacha20Open key ((blob.drop mlkemCtSize).take nonceSize)
    (rest.take (rest.length - tagSize)) (rest.drop (rest.length - tagSize))
  suite.inflate compressed

/-- What is encapsulated to `pk` is decapsulated by `sk`. -/
def KeyPair (pk sk : Bytes) : Prop :=
  ∀ coins ct ss, suite.mlkemEncapsulate pk coins = some (ct, ss) →
    ct.length = mlkemCtSize ∧ suite.mlkemDecapsulate sk ct = some ss

def le32 (n : Nat) : Bytes :=
  [UInt8.ofNat n, UInt8.ofNat (n / 256), UInt8.ofNat (n / 65536), UInt8.ofNat (n / 16777216)]

/-- What the primitives are relied on for. -/
structure Laws : Prop where
  keygen : ∀ coins pk sk, suite.mlkemKeygen coins = some (pk, sk) → KeyPair suite pk sk
  opens : ∀ key nonce plaintext ciphertext tag,
    suite.chacha20Seal key nonce plaintext = some (ciphertext, tag) →
    ciphertext.length = plaintext.length ∧ tag.length = tagSize ∧
      suite.chacha20Open key nonce ciphertext tag = some plaintext
  inflates : ∀ text, suite.inflate (suite.deflate text) = some text
  bound : ∀ text, (suite.deflate text).length ≤
    text.length + text.length / 2 ^ 12 + text.length / 2 ^ 14 + text.length / 2 ^ 25 + 7 + 18
  trailer : ∀ text, ∃ body, 14 ≤ body.length ∧ suite.deflate text = body ++ le32 text.length

end Layout

/-- The lengths for which every buffer can be had. -/
def maxJson : Nat := 2 ^ 31 - 2 ^ 20

theorem gzipBound_eq {n : Nat} (small : n < maxJson) :
    gzipBound n = n + n / 2 ^ 12 + n / 2 ^ 14 + n / 2 ^ 25 + 64 := by
  have : n % 2 ^ 32 = n := Nat.mod_eq_of_lt (by unfold maxJson at small; omega)
  simp only [gzipBound, rshift, this]

theorem gzipBound_lt {n : Nat} (small : n < maxJson) : gzipBound n < 2 ^ 31 := by
  rw [gzipBound_eq small]
  unfold maxJson at small
  omega

theorem newBuffer_ok {n : Nat} (small : n < 2 ^ 31) : newBuffer n = .ok () := if_pos small

theorem isize_le32 {body : Bytes} (long : 14 ≤ body.length) {n : Nat} (small : n < 2 ^ 32) :
    gzipIsize (body ++ le32 n) (body ++ le32 n).length = some n := by
  have length : (body ++ le32 n).length = body.length + 4 := by simp [le32]
  have at' (i : Nat) : (body ++ le32 n).getD (body.length + i) 0 = (le32 n).getD i 0 := by
    simp [List.getD_eq_getElem?_getD, List.getElem?_append_right]
  rw [gzipIsize, length, if_neg (by omega)]
  have h₀ := at' 0
  have h₁ := at' 1
  have h₂ := at' 2
  have h₃ := at' 3
  rw [show body.length + 4 - 4 = body.length + 0 by omega,
    show body.length + 4 - 3 = body.length + 1 by omega,
    show body.length + 4 - 2 = body.length + 2 by omega,
    show body.length + 4 - 1 = body.length + 3 by omega, h₀, h₁, h₂, h₃]
  simp only [le32, List.getD_cons_zero, List.getD_cons_succ, UInt8.toNat_ofNat', Option.some.injEq]
  omega

/-- The four parts of a blob, as both sides cut it. -/
theorem blob_parts {mlkemCt nonce ciphertext tag blob : Bytes}
    (ct_length : mlkemCt.length = mlkemCtSize) (nonce_length : nonce.length = nonceSize)
    (tag_length : tag.length = tagSize) (assembled : blob = mlkemCt ++ nonce ++ ciphertext ++ tag) :
    blob.take mlkemCtSize = mlkemCt ∧ (blob.drop mlkemCtSize).take nonceSize = nonce ∧
      blob.drop (mlkemCtSize + nonceSize) = ciphertext ++ tag ∧
      blob.take (blob.length - tagSize) = mlkemCt ++ nonce ++ ciphertext ∧
      blob.drop (blob.length - tagSize) = tag := by
  subst assembled
  have head : (mlkemCt ++ nonce).length = mlkemCtSize + nonceSize := by
    rw [List.length_append, ct_length, nonce_length]
  have body : (mlkemCt ++ nonce ++ ciphertext ++ tag).length - tagSize =
      (mlkemCt ++ nonce ++ ciphertext).length := by
    rw [List.length_append, tag_length]
    omega
  refine ⟨?ct, ?nonce, ?rest, ?front, ?tag⟩
  case ct =>
    rw [List.append_assoc, List.append_assoc]
    exact List.take_left' ct_length
  case nonce =>
    rw [List.append_assoc, List.append_assoc, List.drop_left' ct_length]
    exact List.take_left' nonce_length
  case rest =>
    rw [List.append_assoc]
    exact List.drop_left' head
  case front =>
    rw [body]
    exact List.take_left
  case tag =>
    rw [body]
    exact List.drop_left

section RoundTrip

variable {rt : Runtime} {suite : Suite} (laws : Laws suite)
include laws

theorem deflate_lt {text : Bytes} (small : text.length < maxJson) :
    (suite.deflate text).length < 2 ^ 31 := by
  have bound := laws.bound text
  have room := gzipBound_lt small
  rw [gzipBound_eq small] at room
  omega

theorem deflate_ne_nil (text : Bytes) : suite.deflate text ≠ [] := by
  obtain ⟨body, long, same⟩ := laws.trailer text
  rw [same]
  rintro none
  rw [(List.append_eq_nil_iff.mp none).1] at long
  simp at long

/-- A single-shot deflate has the room it needs. -/
theorem gzipCompress_eq {text : Bytes} (small : text.length < maxJson) :
    gzipCompress suite text (gzipBound text.length) = suite.deflate text := by
  have room := gzipBound_lt small
  have eq := gzipBound_eq small
  have bound := laws.bound text
  unfold gzipCompress
  rw [if_neg (by unfold uintMax; omega)]
  exact if_pos (by omega)

theorem sealPayload_eq {nonce key mlkemCt text ciphertext tag : Bytes}
    (small : text.length < maxJson)
    (sealed : suite.chacha20Seal key nonce (suite.deflate text) = some (ciphertext, tag)) :
    sealPayload suite nonce key mlkemCt text = .ok (.ok (mlkemCt ++ nonce ++ ciphertext ++ tag)) := by
  simp only [sealPayload, newBuffer_ok (gzipBound_lt small), gzipCompress_eq laws small,
    deflate_ne_nil laws text, newBuffer_ok (deflate_lt laws small), sealed, bind, Except.bind, pure,
    Except.pure, if_false]

theorem unzip_eq {text : Bytes} (some' : text ≠ []) (small : text.length < maxJson) :
    unzip suite (suite.deflate text) (suite.deflate text).length = .ok (.ok text) := by
  have length := deflate_lt laws small
  have text_length : 0 < text.length := List.length_pos_iff.mpr some'
  have text_small : text.length < 2 ^ 31 - 2 ^ 20 := small
  have isize : gzipIsize (suite.deflate text) (suite.deflate text).length = some text.length := by
    obtain ⟨body, long, same⟩ := laws.trailer text
    rw [same]
    exact isize_le32 long (by omega)
  have inflated : gzipDecompress suite (suite.deflate text) (text.length + 1) = text := by
    have := deflate_ne_nil laws text
    rw [gzipDecompress, if_neg (by unfold uintMax; simp [this]; omega), laws.inflates]
    exact if_pos (Nat.le_succ _)
  have filtered : (some text.length).filter (fun isize => decide (isize ≠ 0)) = some text.length := by
    simp
    omega
  simp only [unzip, isize, filtered, newBuffer_ok (show text.length + 1 < 2 ^ 31 by omega),
    inflated, some', bind, Except.bind, pure, Except.pure, if_false]

/-- Opening inverts sealing, for any key pair. -/
theorem openBlob_assembled {info sk mlkemCt ss key nonce text ciphertext tag : Bytes}
    (ct_length : mlkemCt.length = mlkemCtSize)
    (shared : suite.mlkemDecapsulate sk mlkemCt = some ss)
    (derived : suite.hkdfSha256 ss (mlkemCt.take 16) info = some key)
    (nonce_length : nonce.length = nonceSize)
    (sealed : suite.chacha20Seal key nonce (suite.deflate text) = some (ciphertext, tag)) :
    openBlob suite info sk (mlkemCt ++ nonce ++ ciphertext ++ tag) = some text := by
  obtain ⟨-, tag_length, opened⟩ := laws.opens _ _ _ _ _ sealed
  obtain ⟨ct, nonce', rest, -, -⟩ := blob_parts ct_length nonce_length tag_length
    (rfl : mlkemCt ++ nonce ++ ciphertext ++ tag = _)
  have length : (ciphertext ++ tag).length - tagSize = ciphertext.length := by
    rw [List.length_append, tag_length]
    omega
  simp only [openBlob, ct, nonce', rest, length, List.take_left, List.drop_left, shared, derived,
    opened, laws.inflates, bind, Option.bind]

/-- A blob sealed to the response key is decrypted to what was sealed. -/
theorem decryptResponse_eq {pk sk text blob : Bytes} (pair : KeyPair suite pk sk)
    (some' : text ≠ []) (small : text.length < maxJson)
    (sealed : Seals suite infoResp pk text blob) :
    decryptResponse suite blob sk = .ok (.ok text) := by
  obtain ⟨coins, mlkemCt, ss, key, nonce, ciphertext, tag, encapsulated, derived, nonce_length,
    sealed, assembled⟩ := sealed
  obtain ⟨ct_length, decapsulated⟩ := pair _ _ _ encapsulated
  obtain ⟨c_length, tag_length, opened⟩ := laws.opens _ _ _ _ _ sealed
  obtain ⟨ct, nonce', -, front, tag'⟩ := blob_parts ct_length nonce_length tag_length assembled
  have long : ¬ blob.length < mlkemCtSize + nonceSize + tagSize := by
    rw [assembled]
    simp only [List.length_append, ct_length, nonce_length, tag_length]
    omega
  have middle : (mlkemCt ++ nonce ++ ciphertext).drop (mlkemCtSize + nonceSize) = ciphertext := by
    apply List.drop_left'
    rw [List.length_append, ct_length, nonce_length]
  have buffer : max (suite.deflate text).length 1 < 2 ^ 31 := by
    have := deflate_lt laws small
    omega
  simp only [decryptResponse, if_neg long, ct, nonce', front, middle, tag', decapsulated, deriveKey,
    derived, newBuffer_ok buffer, opened, c_length, unzip_eq laws some' small, bind, Except.bind,
    pure, Except.pure]

end RoundTrip

/-- What the primitives answer while a request for `payloadJson` is built. -/
structure Prepared (rt : Runtime) (suite : Suite) (draw : Draw) (pubkeyB64 payloadJson : Bytes)
    (instancePk responsePk responseSk augmented : Bytes) : Prop where
  keygen : suite.mlkemKeygen draw.keygen = some (responsePk, responseSk)
  pubkey : suite.decodeBase64 pubkeyB64 = some instancePk
  pubkey_length : instancePk.length = mlkemPkSize
  payload : ∃ payload, rt.decode payloadJson = some payload ∧ isTable (some payload) ∧
    rt.encodes (withResponseKey (suite.encodeBase64 responsePk) payload) ∧
    augmented = rt.encode (withResponseKey (suite.encodeBase64 responsePk) payload)
  nonce_length : draw.nonce.length = nonceSize
  seals : ∃ mlkemCt ss key, suite.mlkemEncapsulate instancePk draw.encapsulate = some (mlkemCt, ss) ∧
    suite.hkdfSha256 ss (mlkemCt.take 16) infoReq = some key ∧
    (suite.chacha20Seal key draw.nonce (suite.deflate augmented)).isSome

/-- The instance opens the request, and the proxy the response that the instance
    seals to the key it found there. -/
theorem blob_round_trip {rt : Runtime} {suite : Suite} (laws : Laws suite) {draw : Draw}
    {pubkeyB64 payloadJson instancePk instanceSk responsePk responseSk augmented : Bytes}
    (prepared : Prepared rt suite draw pubkeyB64 payloadJson instancePk responsePk responseSk
      augmented)
    (instancePair : KeyPair suite instancePk instanceSk) (small : augmented.length < maxJson) :
    (∃ blob,
      buildE2eeRequest rt suite draw (some (.str pubkeyB64)) payloadJson =
        .ok (.ok (blob, responseSk)) ∧
      openBlob suite infoReq instanceSk blob = some augmented) ∧
    ∀ json answer : Bytes, json ≠ [] → json.length < maxJson →
      Seals suite infoResp responsePk json answer →
      decryptResponse suite answer responseSk = .ok (.ok json) := by
  obtain ⟨payload, decoded, table, encodes, rfl⟩ := prepared.payload
  obtain ⟨mlkemCt, ss, key, encapsulated, derived, isSome⟩ := prepared.seals
  obtain ⟨⟨ciphertext, tag⟩, sealed⟩ := Option.isSome_iff_exists.mp isSome
  obtain ⟨ct_length, decapsulated⟩ := instancePair _ _ _ encapsulated
  constructor
  · refine ⟨mlkemCt ++ draw.nonce ++ ciphertext ++ tag, ?_,
      openBlob_assembled laws ct_length decapsulated derived prepared.nonce_length sealed⟩
    have pk : (some instancePk).filter (fun pk => decide (pk.length = mlkemPkSize)) =
        some instancePk := by
      simp [prepared.pubkey_length]
    simp only [buildE2eeRequest, prepared.keygen, decodeBase64, orElse, prepared.pubkey, pk,
      encapsulated, deriveKey, derived, augment, decoded, table, encodes,
      sealPayload_eq laws small sealed, bind, Except.bind, pure, Except.pure, not_true_eq_false,
      if_false, if_true]
  · intro json answer some' small' sealed'
    exact decryptResponse_eq laws (laws.keygen _ _ _ prepared.keygen) some' small' sealed'

namespace Sample

def zeroKey : Bytes := List.replicate mlkemPkSize 0

/-- `zeroKey` in base64. -/
def zeroKeyB64 : Bytes := List.replicate 1579 65 ++ lit "="

/-- Primitives that hide nothing but have the sizes of the real ones. -/
def suite : Suite where
  decodeBase64 _ := some zeroKey
  encodeBase64 _ := zeroKeyB64
  mlkemKeygen coins := some (zeroKey, coins)
  mlkemEncapsulate _ coins :=
    some (coins.takeD mlkemCtSize 0, (coins.takeD mlkemCtSize 0).take 32)
  mlkemDecapsulate _ ct := some (ct.take 32)
  hkdfSha256 ikm salt info := some (ikm ++ salt ++ info)
  chacha20Seal _ _ plaintext := some (plaintext, List.replicate tagSize 3)
  chacha20Open _ _ ciphertext _ := some ciphertext
  deflate text := List.replicate 14 0 ++ text ++ le32 text.length
  inflate zipped := some ((zipped.take (zipped.length - 4)).drop 14)

theorem keyPair (pk sk : Bytes) : KeyPair suite pk sk := by
  intro coins ct ss encapsulated
  cases encapsulated
  exact ⟨List.takeD_length _ _ _, rfl⟩

theorem laws : Laws suite where
  keygen _ _ _ _ := keyPair _ _
  opens _ _ _ _ _ sealed := by
    cases sealed
    exact ⟨rfl, rfl, rfl⟩
  inflates text := by simp [suite, le32]
  bound text := by
    have : (suite.deflate text).length = text.length + 18 := by simp [suite, le32]
    omega
  trailer text := ⟨List.replicate 14 0 ++ text, by simp, rfl⟩

/-- A codec for the empty object and an object of strings. -/
def runtime : Runtime where
  tostringNumber q := lit (toString q.num)
  tonumber _ := none
  decode s := if s = lit "\x7b\x7d" then some (.obj []) else none
  encode
    | .obj fields =>
        lit "\x7b" ++ (lit ",").intercalate (fields.map fun (key, v) =>
          lit "\"" ++ key ++ lit "\":\"" ++ (asString (some v)).getD [] ++ lit "\"") ++ lit "\x7d"
    | _ => []

def draw : Draw := ⟨lit "k", lit "e", List.replicate nonceSize 0⟩

def augmented : Bytes := lit "\x7b\"e2e_response_pk\":\"" ++ zeroKeyB64 ++ lit "\"\x7d"

theorem prepared :
    Prepared runtime suite draw zeroKeyB64 (lit "\x7b\x7d") zeroKey zeroKey (lit "k") augmented where
  keygen := rfl
  pubkey := rfl
  pubkey_length := List.length_replicate
  payload := ⟨.obj [], rfl, rfl, rfl, by decide +kernel⟩
  nonce_length := rfl
  seals := ⟨_, _, _, rfl, rfl, rfl⟩

end Sample

theorem blob_round_trip_sample :
    (∃ blob,
      buildE2eeRequest Sample.runtime Sample.suite Sample.draw (some (.str Sample.zeroKeyB64))
        (lit "\x7b\x7d") = .ok (.ok (blob, lit "k")) ∧
      openBlob Sample.suite infoReq [] blob = some Sample.augmented) ∧
    ∀ json answer : Bytes, json ≠ [] → json.length < maxJson →
      Seals Sample.suite infoResp Sample.zeroKey json answer →
      decryptResponse Sample.suite answer (lit "k") = .ok (.ok json) :=
  blob_round_trip Sample.laws Sample.prepared (Sample.keyPair _ _) (by decide +kernel)

end E2eeProxy.Crypto
