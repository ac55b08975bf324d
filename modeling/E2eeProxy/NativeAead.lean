import E2eeProxy.Blob
import E2eeProxy.OneShot

/-! # The cipher as e2ee_crypto.lua calls it

The Lua side passes buffers of its own. What it gets back through them is what the
cipher gives in one pass, so the calls open what they have sealed.
-/

namespace E2eeProxy.Crypto

open Lua Lib Aead

def zeroed : Memory UInt8 := fun _ => 0

/-- The text, room for what comes out, and the tag. -/
def buffers (text tag : Bytes) : Memory UInt8 :=
  (zeroed.write 0 text).write (2 * text.length) tag

/-- The call of `build_e2ee_request`. No string is longer than a `size_t` tells. -/
def sealBuffers (evp : Evp) (key nonce plaintext : Bytes) : Option (Bytes × Bytes) :=
  let n := plaintext.length
  if n < UInt64.size then
    let r := chacha20Seal evp (some key) (some nonce) (some 0) (UInt64.ofNat n) (some n)
      (some (2 * n)) (buffers plaintext [])
    if r.rc = 0 then some (r.memory.read n n, r.memory.read (2 * n) tagSize) else none
  else none

/-- The call of `decrypt_response` and `decrypt_stream_chunk`. -/
def openBuffers (evp : Evp) (key nonce ciphertext tag : Bytes) : Option Bytes :=
  let n := ciphertext.length
  if n < UInt64.size then
    let r := chacha20Open evp (some key) (some nonce) (some 0) (UInt64.ofNat n) (some (2 * n))
      (some n) (buffers ciphertext tag)
    if r.rc = 0 then some (r.memory.read n n) else none
  else none

theorem read_text {text tag : Bytes} : (buffers text tag).read 0 text.length = text := by
  rw [buffers, Memory.read_write_apart (by omega), Memory.read_write rfl]

theorem read_tag {text tag : Bytes} (length : tag.length = tagSize) :
    (buffers text tag).read (2 * text.length) 16 = tag :=
  Memory.read_write length

theorem toNat_length {text : Bytes} (small : text.length < UInt64.size) :
    (UInt64.ofNat text.length).toNat = text.length := by
  rw [UInt64.toNat_ofNat']
  exact Nat.mod_eq_of_lt small

/-- What the cipher reads is the text. -/
theorem whole_text {text tag : Bytes} (small : text.length < UInt64.size) :
    text = (buffers text tag).read ((some 0).getD 0) (UInt64.ofNat text.length).toNat := by
  rw [toNat_length small]
  exact read_text.symm

theorem apart_buffers {text : Bytes} (small : text.length < UInt64.size) :
    MayAlias ((some 0).getD 0) ((some text.length).getD 0) (UInt64.ofNat text.length).toNat := by
  rw [toNat_length small]
  exact .inr (.inl (Nat.le_of_eq (Nat.zero_add _)))

theorem given_buffers {key nonce : Bytes} {i o t : Nat} {n : Size} :
    Given (some key) (some nonce) (some i) (some o) (some t) n key nonce t :=
  ⟨rfl, rfl, rfl, fun _ => ⟨rfl, rfl⟩⟩

section Calls

variable {evp : Evp} {cipher : Cipher} {key nonce plaintext ciphertext tag : Bytes}

/-- What is sealed through the buffers is what the cipher gives. -/
theorem sealBuffers_sound (impl : Implements evp cipher)
    (sealed : sealBuffers evp key nonce plaintext = some (ciphertext, tag)) :
    plaintext.length < UInt64.size ∧ cipher.sealed key nonce plaintext = (ciphertext, tag) := by
  unfold sealBuffers at sealed
  dsimp only at sealed
  split at sealed
  · rename_i small
    split at sealed
    · rename_i done
      obtain ⟨k, n, t, given, written⟩ :=
        chacha20Seal_sound impl (apart_buffers small) (whole_text small) done
      obtain ⟨rfl, rfl, rfl⟩ := given_buffers.unique given
      obtain ⟨length, tag_length⟩ := cipher.length_sealed key nonce plaintext
      change _ = tagSize at tag_length
      rw [written, Option.getD_some, Memory.read_write tag_length,
        Memory.read_write_apart (by omega), Memory.read_write length] at sealed
      exact ⟨small, Option.some.inj sealed⟩
    · cases sealed
  · cases sealed

/-- What is opened through them is what the cipher opens, if its tag is right. -/
theorem openBuffers_sound (impl : Implements evp cipher) (length : tag.length = tagSize)
    (opened : openBuffers evp key nonce ciphertext tag = some plaintext) :
    cipher.opened key nonce ciphertext tag = some plaintext := by
  unfold openBuffers at opened
  dsimp only at opened
  split at opened
  · rename_i small
    split at opened
    · rename_i done
      obtain ⟨k, n, t, plaintext', given, right, written⟩ :=
        chacha20Open_sound impl (apart_buffers small) (whole_text small) done
      obtain ⟨rfl, rfl, rfl⟩ := given_buffers.unique given
      rw [read_tag length] at right
      rw [written, Option.getD_some, Memory.read_write (cipher.length_opened right)] at opened
      rwa [← opened]
    · cases opened
  · cases opened

theorem openBuffers_complete {impl : Implements evp cipher} (reliable : Reliable impl)
    (length : tag.length = tagSize) (small : ciphertext.length < UInt64.size)
    (opened : cipher.opened key nonce ciphertext tag = some plaintext) :
    openBuffers evp key nonce ciphertext tag = some plaintext := by
  have done : (chacha20Open evp (some key) (some nonce) (some 0) (UInt64.ofNat ciphertext.length)
      (some (2 * ciphertext.length)) (some ciphertext.length) (buffers ciphertext tag)).rc = 0 := by
    rw [chacha20Open_iff reliable (apart_buffers small) (whole_text small) given_buffers,
      read_tag length, opened]
    rfl
  have returned : (openBuffers evp key nonce ciphertext tag).isSome := by
    unfold openBuffers
    dsimp only
    rw [if_pos small, if_pos done]
    rfl
  obtain ⟨plaintext', returned⟩ := Option.isSome_iff_exists.mp returned
  rw [returned, ← openBuffers_sound impl length returned, opened]

end Calls

/-- The law of `Laws` on the cipher, from those of the library. -/
theorem openBuffers_sealBuffers {evp : Evp} {cipher : Cipher} {impl : Implements evp cipher}
    (reliable : Reliable impl)
    (inverse : ∀ key nonce text,
      cipher.crypt false key nonce (cipher.crypt true key nonce text) = text)
    (key nonce plaintext ciphertext tag : Bytes)
    (sealed : sealBuffers evp key nonce plaintext = some (ciphertext, tag)) :
    ciphertext.length = plaintext.length ∧ tag.length = tagSize ∧
      openBuffers evp key nonce ciphertext tag = some plaintext := by
  obtain ⟨small, same⟩ := sealBuffers_sound impl sealed
  obtain ⟨length, tag_length⟩ := cipher.length_sealed key nonce plaintext
  rw [same] at length tag_length
  obtain ⟨rfl, rfl⟩ := Prod.mk.inj same
  refine ⟨length, tag_length, openBuffers_complete reliable tag_length (length ▸ small) ?_⟩
  rw [Cipher.opened, if_pos rfl, inverse]

end E2eeProxy.Crypto
