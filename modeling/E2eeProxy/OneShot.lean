import E2eeProxy.Aead

/-! # The cipher in one pass

What the pieces come to, given that an update on the next piece turns out what comes
next in one pass. On decryption nothing is left of a text whose tag is wrong.
-/

namespace E2eeProxy.Aead

open Lua Lib

structure Cipher where
  crypt : (encrypt : Bool) → (key nonce text : Bytes) → Bytes
  mac : (key nonce ciphertext : Bytes) → Vector UInt8 16
  crypt_length : ∀ encrypt key nonce text, (crypt encrypt key nonce text).length = text.length

namespace Cipher

variable (cipher : Cipher)

def tagOf (key nonce ciphertext : Bytes) : Bytes := (cipher.mac key nonce ciphertext).toList

def sealed (key nonce plaintext : Bytes) : Bytes × Bytes :=
  let ciphertext := cipher.crypt true key nonce plaintext
  (ciphertext, cipher.tagOf key nonce ciphertext)

def opened (key nonce ciphertext tag : Bytes) : Option Bytes :=
  if tag = cipher.tagOf key nonce ciphertext then some (cipher.crypt false key nonce ciphertext)
  else none

theorem length_sealed (key nonce plaintext : Bytes) :
    (cipher.sealed key nonce plaintext).1.length = plaintext.length ∧
      (cipher.sealed key nonce plaintext).2.length = 16 :=
  ⟨cipher.crypt_length _ _ _ _, Vector.length_toList⟩

theorem length_opened {key nonce ciphertext tag plaintext : Bytes}
    (opened : cipher.opened key nonce ciphertext tag = some plaintext) :
    plaintext.length = ciphertext.length := by
  unfold Cipher.opened at opened
  split at opened
  · rw [← Option.some.inj opened, cipher.crypt_length]
  · cases opened

theorem isSome_opened {key nonce ciphertext tag : Bytes} :
    (cipher.opened key nonce ciphertext tag).isSome ↔ tag = cipher.tagOf key nonce ciphertext := by
  unfold opened
  split <;> simp_all

end Cipher

/-- What a context has been given so far. -/
structure Session where
  encrypt : Bool
  key : Bytes
  nonce : Bytes
  tag : Option Bytes
  text : Bytes

namespace Session

def fed (s : Session) (piece : Bytes) : Session := { s with text := s.text ++ piece }

def crypt (cipher : Cipher) (s : Session) : Bytes := cipher.crypt s.encrypt s.key s.nonce s.text

theorem fed_fed {s : Session} {piece rest : Bytes} :
    (s.fed piece).fed rest = s.fed (piece ++ rest) := by
  simp [fed]

theorem fed_nil {s : Session} : s.fed [] = s := by
  simp [fed]

end Session

/-- What the manual says of a call that succeeds. -/
structure Implements (evp : Evp) (cipher : Cipher) where
  Holds : evp.Ctx → Session → Prop
  init : ∀ {c₀ c₁ c₂ ctx encrypt key nonce}, evp.new = some c₀ →
    evp.initCipher c₀ encrypt = some c₁ → evp.setIvLen c₁ 12 = some c₂ →
    evp.initKey c₂ key nonce encrypt = some ctx → Holds ctx ⟨encrypt, key, nonce, none, []⟩
  setTag : ∀ {ctx ctx' s tag}, Holds ctx s → evp.setTag ctx tag = some ctx' →
    Holds ctx' { s with tag := some tag }
  update : ∀ {ctx s} piece, piece.length ≤ intMax → Holds ctx s → (evp.update ctx piece).ret = 1 →
    (evp.update ctx piece).outl = piece.length ∧
      (s.fed piece).crypt cipher = s.crypt cipher ++ (evp.update ctx piece).out ∧
      Holds (evp.update ctx piece).ctx (s.fed piece)
  /-- On decryption it verifies the tag. -/
  final : ∀ {ctx s outl ctx'}, Holds ctx s → evp.final ctx = some (outl, ctx') →
    outl = 0 ∧ Holds ctx' s ∧
      (s.encrypt = false → s.tag = some (cipher.tagOf s.key s.nonce s.text))
  getTag : ∀ {ctx s tag}, Holds ctx s → s.encrypt = true → evp.getTag ctx = some tag →
    tag.toList = cipher.tagOf s.key s.nonce (s.crypt cipher)

/-- No call fails but for a wrong tag. -/
structure Reliable {evp : Evp} {cipher : Cipher} (impl : Implements evp cipher) : Prop where
  setUp : ∀ encrypt key nonce tag, (setUp evp encrypt key nonce tag).isSome
  update : ∀ {ctx s} piece, piece.length ≤ intMax → impl.Holds ctx s →
    (evp.update ctx piece).ret = 1
  final : ∀ {ctx s}, impl.Holds ctx s →
    s.encrypt = true ∨ s.tag = some (cipher.tagOf s.key s.nonce s.text) → (evp.final ctx).isSome
  getTag : ∀ {ctx s}, impl.Holds ctx s → s.encrypt = true → (evp.getTag ctx).isSome

/-- The two buffers may be one, or lie apart. -/
def MayAlias (input output n : Nat) : Prop :=
  input = output ∨ input + n ≤ output ∨ output + n ≤ input

section Loop

variable {evp : Evp} {cipher : Cipher} {input output : Nat} {inLen done : Size} {ctx : evp.Ctx}
  {m : Memory UInt8} {s : Session}

/-- A piece has a length that an update takes. -/
theorem length_piece (more : done < inLen) {inl : Int}
    (isChunk : inl = toInt (chunkOf (inLen - done))) :
    (m.read (input + done.toNat) inl.toNat).length ≤ intMax := by
  have fits : Call.Fits ⟨done, inl⟩ := by
    rw [isChunk]
    exact fits_chunkOf more
  rw [Memory.length_read]
  exact Int.toNat_le.mpr fits.2

theorem Implements.length_out (impl : Implements evp cipher) (holds : impl.Holds ctx s)
    {piece : Bytes} (small : piece.length ≤ intMax) (ok : (evp.update ctx piece).ret = 1) :
    (evp.update ctx piece).out.length = piece.length := by
  have grown := congrArg List.length (impl.update piece small holds ok).2.1
  simp only [Session.crypt, Session.fed, cipher.crypt_length, List.length_append] at grown
  omega

/-- What is left of the input is the next piece and the others, which writing the piece
    has not touched. -/
theorem MayAlias.read_rest (apart : MayAlias input output inLen.toNat) (more : done < inLen)
    {out : Bytes} (whole : out.length = (chunkOf (inLen - done)).toNat) :
    m.read (input + done.toNat) (inLen.toNat - done.toNat) =
      m.read (input + done.toNat) (chunkOf (inLen - done)).toNat ++
        (m.write (output + done.toNat) out).read (input + (done + chunkOf (inLen - done)).toNat)
          (inLen.toNat - (done + chunkOf (inLen - done)).toNat) := by
  obtain ⟨-, -, within, sum⟩ := chunkOf_spec more
  have lengths : inLen.toNat - done.toNat = (chunkOf (inLen - done)).toNat +
      (inLen.toNat - (done + chunkOf (inLen - done)).toNat) := by omega
  rw [Memory.read_write_apart (by rcases apart with same | before | after <;> omega), lengths,
    Memory.read_add, sum, Nat.add_assoc]

/-- The loop turns out the rest of the text as one pass does. -/
theorem updateLoop_crypts (impl : Implements evp cipher) (apart : MayAlias input output inLen.toNat)
    {ended : evp.Ctx} : ∀ s, impl.Holds ctx s →
    (updateLoop evp input output inLen done ctx m).ctx = some ended →
    ∃ out, (s.fed (m.read (input + done.toNat) (inLen.toNat - done.toNat))).crypt cipher =
        s.crypt cipher ++ out ∧
      impl.Holds ended (s.fed (m.read (input + done.toNat) (inLen.toNat - done.toNat))) ∧
      (updateLoop evp input output inLen done ctx m).memory = m.write (output + done.toNat) out := by
  fun_induction updateLoop evp input output inLen done ctx m with
  | case1 done ctx m more chunk call u m' failed | case2 done ctx m more chunk call u m' ok short =>
      intro s holds left
      cases left
  | case3 done ctx m more chunk call u m' ok full rest ih =>
      intro s holds left
      have sum : (done + chunk).toNat = done.toNat + chunk.toNat := (chunkOf_spec more).2.2.2
      have inl : call.inl.toNat = chunk.toNat := by
        simp only [call, chunk, toInt_chunkOf more, Int.toNat_natCast]
      have small : (m.read (input + done.toNat) call.inl.toNat).length ≤ intMax :=
        length_piece more (by simp only [call, chunk])
      have once : u.ret = 1 := not_not.mp ok
      have long : u.out.length = chunk.toNat := by
        rw [impl.length_out holds small once, Memory.length_read, inl]
      have split := apart.read_rest (m := m) more long
      obtain ⟨-, grown, holds⟩ := impl.update _ small holds once
      obtain ⟨out, crypted, holds, written⟩ := ih _ holds left
      rw [Session.fed_fed, inl, ← split] at crypted holds
      refine ⟨u.out ++ out, ?_, holds, ?_⟩
      · rw [crypted, ← inl, grown, List.append_assoc]
      · rw [← Memory.write_append, long, Nat.add_assoc, ← sum]
        exact written
  | case4 done ctx m past =>
      intro s holds left
      rw [nothing_left past]
      obtain rfl : ctx = ended := Option.some.inj left
      refine ⟨[], ?_, ?_, Memory.write_nil.symm⟩
      · simp [Memory.read, Session.fed_nil]
      · simpa [Memory.read, Session.fed_nil] using holds

theorem toSize_toNat (n : Size) : toSize n.toNat = n := by
  have small := n.toNat_lt
  rw [toSize, UInt64.ofInt]
  apply UInt64.toNat_inj.mp
  rw [UInt64.toNat_ofNat']
  omega

/-- The loop runs to its end when the library does not fail. -/
theorem updateLoop_ends {impl : Implements evp cipher} (reliable : Reliable impl) :
    ∀ s, impl.Holds ctx s → (updateLoop evp input output inLen done ctx m).ctx.isSome := by
  fun_induction updateLoop evp input output inLen done ctx m with
  | case1 done ctx m more chunk call u m' failed =>
      intro s holds
      have small : (m.read (input + done.toNat) call.inl.toNat).length ≤ intMax :=
        length_piece more (by simp only [call, chunk])
      exact absurd (reliable.update _ small holds) failed
  | case2 done ctx m more chunk call u m' ok short =>
      intro s holds
      have small : (m.read (input + done.toNat) call.inl.toNat).length ≤ intMax :=
        length_piece more (by simp only [call, chunk])
      obtain ⟨turned, -, -⟩ := impl.update _ small holds (not_not.mp ok)
      have inl : call.inl = chunk.toNat := by simp only [call, chunk, toInt_chunkOf more]
      have whole : u.outl = chunk.toNat :=
        turned.trans (by rw [Memory.length_read, inl, Int.toNat_natCast])
      rcases short with negative | other
      · omega
      · rw [whole, toSize_toNat] at other
        exact absurd rfl other
  | case3 done ctx m more chunk call u m' ok full rest ih =>
      intro s holds
      have small : (m.read (input + done.toNat) call.inl.toNat).length ≤ intMax :=
        length_piece more (by simp only [call, chunk])
      exact ih _ (impl.update _ small holds (not_not.mp ok)).2.2
  | case4 done ctx m past => exact fun _ _ => rfl

end Loop

section Call

variable {evp : Evp} {cipher : Cipher} {encrypt : Bool} {key nonce : Option Bytes}
  {input output tag : Option Nat} {inLen : Size} {m : Memory UInt8} {k n : Bytes} {t : Nat}

theorem setUp_holds (impl : Implements evp cipher) {expected : Bytes} {ctx : evp.Ctx}
    (started : setUp evp encrypt k n expected = some ctx) :
    impl.Holds ctx ⟨encrypt, k, n, if encrypt then none else some expected, []⟩ := by
  simp only [setUp, Option.bind_eq_bind, Option.bind_eq_some_iff] at started
  obtain ⟨c₀, new, c₁, cipherInit, c₂, ivLen, c₃, keyInit, rest⟩ := started
  have fresh := impl.init new cipherInit ivLen keyInit
  cases encrypt with
  | true => exact Option.some.inj rest ▸ fresh
  | false => exact impl.setTag fresh rest

theorem updateLoop_whole (impl : Implements evp cipher) {ctx ended : evp.Ctx} {i o : Nat} {s : Session}
    (apart : MayAlias i o inLen.toNat) (holds : impl.Holds ctx s) (fresh : s.text = [])
    (left : (updateLoop evp i o inLen 0 ctx m).ctx = some ended) :
    impl.Holds ended { s with text := m.read i inLen.toNat } ∧
      (updateLoop evp i o inLen 0 ctx m).memory =
        m.write o (cipher.crypt s.encrypt s.key s.nonce (m.read i inLen.toNat)) := by
  obtain ⟨out, crypted, holds, written⟩ := updateLoop_crypts impl apart s holds left
  have none : s.crypt cipher = [] := by
    rw [← List.length_eq_zero_iff, Session.crypt, cipher.crypt_length, fresh, List.length_nil]
  have all : s.fed (m.read i inLen.toNat) = { s with text := m.read i inLen.toNat } := by
    rw [Session.fed, fresh, List.nil_append]
  rw [UInt64.toNat_zero, Nat.add_zero, Nat.sub_zero, all] at crypted holds
  rw [none, List.nil_append] at crypted
  subst crypted
  exact ⟨holds, written⟩

/-- A call that succeeds has left what the cipher turns out in one pass. -/
theorem chacha20Poly1305_crypts (impl : Implements evp cipher)
    (apart : MayAlias (input.getD 0) (output.getD 0) inLen.toNat) {r : Result}
    (result : r = chacha20Poly1305 evp encrypt key nonce input inLen output tag m) (done : r.rc = 0) :
    ∃ k n t text out, Given key nonce input output tag inLen k n t ∧
      text = m.read (input.getD 0) inLen.toNat ∧ out = cipher.crypt encrypt k n text ∧
      (encrypt = false ∧ m.read t 16 = cipher.tagOf k n text ∧
          r.memory = m.write (output.getD 0) out ∨
        encrypt = true ∧
          r.memory = (m.write (output.getD 0) out).write t (cipher.tagOf k n out)) := by
  rcases chacha20Poly1305_cases result with rfl | ⟨k, n, t, ctx, given, started, ends⟩
  · cases done
  · have holds := setUp_holds impl started
    refine ⟨k, n, t, _, _, given, rfl, rfl, ?_⟩
    rcases conclude_cases ends with rfl | ⟨left, ctx', ended, final, verdict⟩
    · cases done
    · obtain ⟨holds, written⟩ := updateLoop_whole impl apart holds rfl ended
      obtain ⟨-, holds, verified⟩ := impl.final holds final
      rcases verdict with ⟨rfl, rfl⟩ | ⟨bytes, rfl, got, rfl⟩
      · exact .inl ⟨rfl, Option.some.inj (verified rfl), written⟩
      · refine .inr ⟨rfl, ?_⟩
        rw [impl.getTag holds rfl got, written]
        rfl

/-- When the library does not fail, the loop runs to its end. -/
theorem chacha20Poly1305_loops {impl : Implements evp cipher} (reliable : Reliable impl)
    (given : Given key nonce input output tag inLen k n t) (encrypt : Bool) (m : Memory UInt8) :
    ∃ ctx, impl.Holds ctx ⟨encrypt, k, n, if encrypt then none else some (m.read t 16), []⟩ ∧
      (updateLoop evp (input.getD 0) (output.getD 0) inLen 0 ctx m).ctx.isSome ∧
      chacha20Poly1305 evp encrypt key nonce input inLen output tag m =
        conclude evp encrypt t
          (updateLoop evp (input.getD 0) (output.getD 0) inLen 0 ctx m) := by
  obtain ⟨rfl, rfl, rfl, buffers⟩ := given
  obtain ⟨ctx, started⟩ := Option.isSome_iff_exists.mp (reliable.setUp encrypt k n (m.read t 16))
  have holds := setUp_holds impl started
  have needed : ¬ (0 < inLen ∧ (input = none ∨ output = none)) := by
    rintro ⟨some, rfl | rfl⟩
    · exact nomatch (buffers some).1
    · exact nomatch (buffers some).2
  refine ⟨ctx, holds, updateLoop_ends reliable _ holds, ?_⟩
  dsimp only [chacha20Poly1305]
  rw [if_neg needed, started]

/-- Then the pieces cover the input, whatever the tag. -/
theorem chacha20Poly1305_covers {impl : Implements evp cipher} (reliable : Reliable impl)
    (given : Given key nonce input output tag inLen k n t) :
    covered (chacha20Poly1305 evp encrypt key nonce input inLen output tag m).calls =
      List.range inLen.toNat := by
  obtain ⟨ctx, -, ends, loops⟩ := chacha20Poly1305_loops reliable given encrypt m
  rw [(conclude_calls loops).1, List.range_eq_range']
  exact updateLoop_covers.2 ends

/-- Then the call succeeds if the tag is right. -/
theorem chacha20Poly1305_succeeds {impl : Implements evp cipher} (reliable : Reliable impl)
    (apart : MayAlias (input.getD 0) (output.getD 0) inLen.toNat)
    (given : Given key nonce input output tag inLen k n t)
    (right : encrypt = true ∨
      m.read t 16 = cipher.tagOf k n (m.read (input.getD 0) inLen.toNat)) :
    (chacha20Poly1305 evp encrypt key nonce input inLen output tag m).rc = 0 := by
  obtain ⟨ctx, holds, ends, loops⟩ := chacha20Poly1305_loops reliable given encrypt m
  obtain ⟨left, ended⟩ := Option.isSome_iff_exists.mp ends
  obtain ⟨holds, -⟩ := updateLoop_whole impl apart holds rfl ended
  have verifies : (evp.final left).isSome := by
    apply reliable.final holds
    cases encrypt with
    | true => exact .inl rfl
    | false => exact right.imp id (congrArg some)
  obtain ⟨⟨outl, ctx'⟩, final⟩ := Option.isSome_iff_exists.mp verifies
  obtain ⟨rfl, holds, -⟩ := impl.final holds final
  rw [loops]
  dsimp only [conclude]
  rw [ended, Option.bind_some, final]
  dsimp only
  rw [if_neg (not_not.mpr rfl)]
  cases encrypt with
  | true =>
      obtain ⟨bytes, got⟩ := Option.isSome_iff_exists.mp (reliable.getTag holds rfl)
      rw [if_pos rfl, got]
  | false => rfl

theorem chacha20Seal_sound (impl : Implements evp cipher)
    (apart : MayAlias (input.getD 0) (output.getD 0) inLen.toNat) {text : Bytes}
    (whole : text = m.read (input.getD 0) inLen.toNat)
    (done : (chacha20Seal evp key nonce input inLen output tag m).rc = 0) :
    ∃ k n t, Given key nonce input output tag inLen k n t ∧
      (chacha20Seal evp key nonce input inLen output tag m).memory =
        (m.write (output.getD 0) (cipher.sealed k n text).1).write t (cipher.sealed k n text).2 := by
  obtain ⟨k, n, t, _, _, given, rfl, rfl, ⟨decrypting, _⟩ | ⟨_, written⟩⟩ :=
    chacha20Poly1305_crypts impl apart rfl done
  · cases decrypting
  · subst whole
    exact ⟨k, n, t, given, written⟩

theorem chacha20Open_sound (impl : Implements evp cipher)
    (apart : MayAlias (input.getD 0) (output.getD 0) inLen.toNat) {text : Bytes}
    (whole : text = m.read (input.getD 0) inLen.toNat)
    (done : (chacha20Open evp key nonce input inLen tag output m).rc = 0) :
    ∃ k n t plaintext, Given key nonce input output tag inLen k n t ∧
      cipher.opened k n text (m.read t 16) = some plaintext ∧
      (chacha20Open evp key nonce input inLen tag output m).memory =
        m.write (output.getD 0) plaintext := by
  rw [chacha20Open_eq done]
  rw [chacha20Open_rc] at done
  obtain ⟨k, n, t, _, _, given, rfl, rfl, ⟨_, verified, written⟩ | ⟨encrypting, _⟩⟩ :=
    chacha20Poly1305_crypts impl apart rfl done
  · subst whole
    exact ⟨k, n, t, _, given, if_pos verified, written⟩
  · cases encrypting

/-- When the library does not fail, a text is opened if its tag is right. -/
theorem chacha20Open_iff {impl : Implements evp cipher} (reliable : Reliable impl)
    (apart : MayAlias (input.getD 0) (output.getD 0) inLen.toNat) {text : Bytes}
    (whole : text = m.read (input.getD 0) inLen.toNat)
    (given : Given key nonce input output tag inLen k n t) :
    (chacha20Open evp key nonce input inLen tag output m).rc = 0 ↔
      (cipher.opened k n text (m.read t 16)).isSome := by
  constructor
  · intro done
    obtain ⟨k', n', t', plaintext, given', opened, -⟩ := chacha20Open_sound impl apart whole done
    obtain ⟨rfl, rfl, rfl⟩ := given.unique given'
    rw [opened]
    rfl
  · intro right
    rw [cipher.isSome_opened, whole] at right
    rw [chacha20Open_rc]
    exact chacha20Poly1305_succeeds reliable apart given (.inr right)

end Call

/-! ## A library that does not fail -/

section Stream

variable (keystream : (key nonce : Bytes) → Nat → UInt8)
  (mac : (key nonce ciphertext : Bytes) → Vector UInt8 16)

def streamCipher : Cipher where
  crypt _ key nonce text := text.mapIdx fun i byte => byte ^^^ keystream key nonce i
  mac := mac
  crypt_length := by simp

/-- It keeps the whole session. -/
def streamEvp : Evp where
  Ctx := Session
  new := some ⟨true, [], [], none, []⟩
  initCipher s encrypt := some { s with encrypt := encrypt }
  setIvLen s _ := some s
  initKey _ key nonce encrypt := some ⟨encrypt, key, nonce, none, []⟩
  setTag s tag := some { s with tag := some tag }
  update s piece :=
    ⟨1, piece.length, piece.mapIdx fun i byte => byte ^^^ keystream s.key s.nonce (i + s.text.length),
      s.fed piece⟩
  final s :=
    if s.encrypt = true ∨ s.tag = some (mac s.key s.nonce s.text).toList then some (0, s) else none
  getTag s := some (mac s.key s.nonce (s.crypt (streamCipher keystream mac)))
  update_bounded := by simp

def streamImplements : Implements (streamEvp keystream mac) (streamCipher keystream mac) where
  Holds := Eq
  init _ _ _ keyInit := (Option.some.inj keyInit).symm
  setTag := by
    rintro _ _ s tag rfl set
    exact (Option.some.inj set).symm
  update := by
    rintro s _ piece - rfl -
    exact ⟨rfl, List.mapIdx_append, rfl⟩
  final := by
    rintro s _ outl s' rfl final
    dsimp only [streamEvp] at final
    split at final
    · rename_i right
      obtain ⟨rfl, rfl⟩ := Prod.mk.inj (Option.some.inj final)
      exact ⟨rfl, rfl, fun decrypting => right.resolve_left (by simp [decrypting])⟩
    · cases final
  getTag := by
    rintro s _ tag rfl - got
    exact congrArg Vector.toList (Option.some.inj got).symm

theorem streamReliable : Reliable (streamImplements keystream mac) where
  setUp encrypt key nonce tag := by cases encrypt <;> rfl
  update _ _ _ := rfl
  final := by
    rintro s _ rfl right
    exact Option.isSome_iff_exists.mpr ⟨_, if_pos right⟩
  getTag _ _ := rfl

end Stream

/-- The pieces fit an `int` and cover the input once and in order; a call that succeeds has
    done what the cipher does in one pass, and one that fails to open leaves nothing. -/
theorem chunked_cipher_is_one_shot (evp : Evp) (key nonce : Option Bytes)
    (input output tag : Option Nat) (inLen : Size) (m : Memory UInt8) :
    (∀ encrypt r, r = chacha20Poly1305 evp encrypt key nonce input inLen output tag m →
      (∀ call ∈ r.calls, call.Fits) ∧
        r.calls.length ≤ (inLen.toNat + (intMax / 2 - 1)) / (intMax / 2) ∧
        covered r.calls <+: List.range inLen.toNat ∧
        (r.rc = 0 → covered r.calls = List.range inLen.toNat)) ∧
    (∀ (cipher : Cipher) (impl : Implements evp cipher),
      MayAlias (input.getD 0) (output.getD 0) inLen.toNat →
      ∀ text sealing opening, text = m.read (input.getD 0) inLen.toNat →
      sealing = chacha20Seal evp key nonce input inLen output tag m →
      opening = chacha20Open evp key nonce input inLen tag output m →
      (sealing.rc = 0 → ∃ k n t, Given key nonce input output tag inLen k n t ∧
        sealing.memory = (m.write (output.getD 0) (cipher.sealed k n text).1).write t
          (cipher.sealed k n text).2) ∧
      (opening.rc = 0 → ∃ k n t plaintext, Given key nonce input output tag inLen k n t ∧
        cipher.opened k n text (m.read t 16) = some plaintext ∧
        opening.memory = m.write (output.getD 0) plaintext) ∧
      (Reliable impl → ∀ k n t, Given key nonce input output tag inLen k n t →
        sealing.rc = 0 ∧ (opening.rc = 0 ↔ (cipher.opened k n text (m.read t 16)).isSome) ∧
          covered opening.calls = List.range inLen.toNat)) ∧
    ((chacha20Open evp key nonce input inLen tag output m).rc ≠ 0 →
      (chacha20Open evp key nonce input inLen tag output m).memory =
        output.elim m fun out => m.write out (List.replicate inLen.toNat 0)) := by
  refine ⟨fun encrypt r result => chacha20Poly1305_pieces result, ?_, chacha20Open_wipes⟩
  rintro cipher impl apart text sealing opening rfl rfl rfl
  exact ⟨chacha20Seal_sound impl apart rfl, chacha20Open_sound impl apart rfl,
    fun reliable k n t given =>
      ⟨chacha20Poly1305_succeeds reliable apart given (.inl rfl),
        chacha20Open_iff reliable apart rfl given,
        chacha20Open_calls.symm ▸ chacha20Poly1305_covers reliable given⟩⟩

namespace Sample

/-- A known answer of the tests. -/
def key : Bytes :=
  [0xcc, 0x56, 0xb6, 0x80, 0x55, 0x2e, 0xb7, 0x50, 0x08, 0xf5, 0x48, 0x4b, 0x4c, 0xb8, 0x03, 0xfa,
    0x50, 0x63, 0xeb, 0xd6, 0xea, 0xb9, 0x1f, 0x6a, 0xb6, 0xae, 0xf4, 0x91, 0x6a, 0x76, 0x62, 0x73]

def nonce : Bytes := [0x99, 0xe2, 0x3e, 0xc4, 0x89, 0x85, 0xbc, 0xcd, 0xee, 0xab, 0x60, 0xf1]

def tag : Vector UInt8 16 :=
  #v[0xca, 0xc2, 0x7d, 0xec, 0x09, 0x68, 0x80, 0x1e, 0x9f, 0x6e, 0xde, 0xd6, 0x9d, 0x80, 0x75, 0x22]

def evp : Evp := streamEvp (fun _ _ _ => 0x10) (fun _ _ _ => tag)

/-- The plain text, to be sealed in place, and room for the tag. -/
def memory : Memory UInt8 := fun a => if a = 64 then 0x2a else 0

end Sample

theorem chunked_cipher_is_one_shot_sample :
    (chacha20Seal Sample.evp (some Sample.key) (some Sample.nonce) (some 64) 1 (some 64) (some 128)
      Sample.memory).memory =
        (Sample.memory.write 64 [0x3a]).write 128 Sample.tag.toList := by
  obtain ⟨-, oneShot, -⟩ := chunked_cipher_is_one_shot Sample.evp (some Sample.key)
    (some Sample.nonce) (some 64) (some 64) (some 128) 1 Sample.memory
  obtain ⟨sealed, -, succeeds⟩ := oneShot _ (streamImplements _ _) (.inl rfl) _ _ _ rfl rfl rfl
  have given : Given (some Sample.key) (some Sample.nonce) (some 64) (some 64) (some 128) 1
      Sample.key Sample.nonce 128 := ⟨rfl, rfl, rfl, fun _ => ⟨rfl, rfl⟩⟩
  obtain ⟨k, n, t, also, written⟩ := sealed (succeeds (streamReliable _ _) _ _ _ given).1
  obtain ⟨rfl, rfl, rfl⟩ := given.unique also
  exact written

end E2eeProxy.Aead
