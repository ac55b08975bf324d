import E2eeProxy.Lua.Value

/-! # Opening an encrypted stream

The two functions of e2ee_crypto.lua that a streaming answer passes through.
The native library and `ngx.decode_base64` are parameters; a non-zero return
code of a native call is `none`.
-/

namespace E2eeProxy.Crypto

open Lua

structure Native where
  decodeBase64 : Bytes → Option Bytes
  mlkemDecapsulate : (sk ct : Bytes) → Option Bytes
  hkdfSha256 : (ikm salt info : Bytes) → Option Bytes
  chacha20Open : (key nonce ciphertext tag : Bytes) → Option Bytes

/-- A library whose calls all fail. -/
def noNative : Native where
  decodeBase64 _ := none
  mlkemDecapsulate _ _ := none
  hkdfSha256 _ _ _ := none
  chacha20Open _ _ _ _ := none

def mlkemCtSize : Nat := 1088
def nonceSize : Nat := 12
def tagSize : Nat := 16
def infoStream : Bytes := lit "e2e-stream-v1"

variable (native : Native)

/-- `ngx.decode_base64(v or "")`, which raises unless it is given a string. -/
def decodeBase64 (v : Option Value) : LuaM (Option Bytes) :=
  match orElse v (.str []) with
  | .str s => .ok (native.decodeBase64 s)
  | _ => .error .badArgument

def deriveKey (sharedSecret mlkemCt info : Bytes) : Except String Bytes :=
  match native.hkdfSha256 sharedSecret (mlkemCt.take 16) info with
  | none => .error "HKDF derivation failed"
  | some okm => .ok okm

/-- Derive the stream key from the e2e_init event. -/
def decryptStreamInit (responseSk : Bytes) (mlkemCtB64 : Option Value) :
    LuaM (Except String Bytes) := do
  match ← decodeBase64 native mlkemCtB64 with
  | none => return .error "invalid e2e_init ciphertext"
  | some mlkemCt =>
      if mlkemCt.length ≠ mlkemCtSize then
        return .error "invalid e2e_init ciphertext"
      match native.mlkemDecapsulate responseSk mlkemCt with
      | none => return .error "stream init decapsulation failed"
      | some ss => return deriveKey native ss mlkemCt infoStream

/-- Decrypt one streaming chunk: nonce, ciphertext and tag in base64. -/
def decryptStreamChunk (encChunkB64 : Option Value) (streamKey : Bytes) :
    LuaM (Except String Bytes) := do
  match ← decodeBase64 native encChunkB64 with
  | none => return .error "invalid stream chunk"
  | some raw =>
      if raw.length < nonceSize + tagSize then
        return .error "invalid stream chunk"
      let nonce := raw.take nonceSize
      let ciphertext := (raw.take (raw.length - tagSize)).drop nonceSize
      let tag := raw.drop (raw.length - tagSize)
      match native.chacha20Open streamKey nonce ciphertext tag with
      | none => return .error "stream chunk decryption failed"
      | some plaintext => return .ok plaintext

end E2eeProxy.Crypto
