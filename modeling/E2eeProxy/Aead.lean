import E2eeProxy.Lib.Memory
import E2eeProxy.Lua.Value
import Mathlib.Algebra.Order.Ring.Nat

/-! # ChaCha20-Poly1305 in pieces

`chacha20_poly1305` of e2ee_proxy_api.c and its two callers. OpenSSL takes lengths as
`int`, so a buffer is passed on in pieces. The library is a parameter; its calls may
fail wherever they are made.
-/

namespace E2eeProxy.Aead

open Lua Lib

/-- `size_t`. -/
abbrev Size := UInt64

def intMax : Nat := 2 ^ 31 - 1

/-- `(int)n`. -/
def toInt (n : Size) : Int := (n.toNat : Int).bmod (2 ^ 32)

/-- `(size_t)n`. -/
def toSize (n : Int) : Size := UInt64.ofInt n

/-- What a call of `EVP_CipherUpdate` returns, stores in `outl` and writes to `out`. -/
structure Updated (Ctx : Type) where
  ret : Int
  outl : Int
  out : Bytes
  ctx : Ctx

/-- The calls of libcrypto. What does not return 1 is `none`; an update may still have
    written, but no more than the cipher turns out for the piece. -/
structure Evp where
  Ctx : Type
  new : Option Ctx
  initCipher : Ctx → (encrypt : Bool) → Option Ctx
  setIvLen : Ctx → Nat → Option Ctx
  initKey : Ctx → (key nonce : Bytes) → (encrypt : Bool) → Option Ctx
  setTag : Ctx → Bytes → Option Ctx
  update : Ctx → (piece : Bytes) → Updated Ctx
  /-- With what it stores in `outl`. -/
  final : Ctx → Option (Int × Ctx)
  getTag : Ctx → Option (Vector UInt8 16)
  update_bounded : ∀ ctx piece, (update ctx piece).out.length ≤ piece.length

/-- A call of `EVP_CipherUpdate`: where its piece begins, and the length it is told. -/
structure Call where
  offset : Size
  inl : Int

structure Result where
  rc : Int
  memory : Memory UInt8
  calls : List Call

section Program

variable (evp : Evp)

/-- Where the loop ends, with the context unless it was left. -/
structure LoopEnd where
  ctx : Option evp.Ctx
  memory : Memory UInt8
  calls : List Call

def chunkMax : Size := UInt64.ofNat (intMax / 2)

def chunkOf (left : Size) : Size := if left > chunkMax then chunkMax else left

theorem toNat_chunkOf (left : Size) : (chunkOf left).toNat = min left.toNat (intMax / 2) := by
  have cap : chunkMax.toNat = intMax / 2 := rfl
  unfold chunkOf
  split
  · rename_i long
    have long := UInt64.lt_iff_toNat_lt.mp long
    omega
  · rename_i short
    have short := mt UInt64.lt_iff_toNat_lt.mpr short
    omega

theorem chunkOf_spec {done inLen : Size} (more : done < inLen) :
    0 < (chunkOf (inLen - done)).toNat ∧ (chunkOf (inLen - done)).toNat ≤ intMax / 2 ∧
      done.toNat + (chunkOf (inLen - done)).toNat ≤ inLen.toNat ∧
      (done + chunkOf (inLen - done)).toNat = done.toNat + (chunkOf (inLen - done)).toNat := by
  have left := UInt64.toNat_sub_of_le inLen done (UInt64.le_of_lt more)
  have order := UInt64.lt_iff_toNat_lt.mp more
  have small := inLen.toNat_lt
  have positive : 0 < intMax / 2 := by decide
  rw [UInt64.toNat_add, toNat_chunkOf]
  omega

/-- The loop over the pieces. -/
def updateLoop (input output : Nat) (inLen done : Size) (ctx : evp.Ctx) (m : Memory UInt8) :
    LoopEnd evp :=
  if _more : done < inLen then
    let chunk := chunkOf (inLen - done)
    let call : Call := ⟨done, toInt chunk⟩
    let u := evp.update ctx (m.read (input + done.toNat) call.inl.toNat)
    let m := m.write (output + done.toNat) u.out
    if u.ret ≠ 1 then ⟨none, m, [call]⟩
    else if u.outl < 0 ∨ toSize u.outl ≠ chunk then ⟨none, m, [call]⟩
    else
      let rest := updateLoop input output inLen (done + chunk) u.ctx m
      { rest with calls := call :: rest.calls }
  else ⟨some ctx, m, []⟩
termination_by inLen.toNat - done.toNat
decreasing_by
  obtain ⟨positive, -, within, sum⟩ := chunkOf_spec _more
  omega

/-- What comes before the loop. -/
def setUp (encrypt : Bool) (key nonce tag : Bytes) : Option evp.Ctx := do
  let ctx ← evp.new
  let ctx ← evp.initCipher ctx encrypt
  let ctx ← evp.setIvLen ctx 12
  let ctx ← evp.initKey ctx key nonce encrypt
  if encrypt then some ctx else evp.setTag ctx tag

/-- What comes after it: on decryption `EVP_CipherFinal_ex` verifies the tag. -/
def conclude (encrypt : Bool) (tag : Nat) (ended : LoopEnd evp) : Result :=
  match ended.ctx.bind evp.final with
  | none => ⟨-1, ended.memory, ended.calls⟩
  | some (outl, ctx) =>
      if outl ≠ 0 then ⟨-1, ended.memory, ended.calls⟩
      else if encrypt then
        match evp.getTag ctx with
        | none => ⟨-1, ended.memory, ended.calls⟩
        | some bytes => ⟨0, ended.memory.write tag bytes.toList, ended.calls⟩
      else ⟨0, ended.memory, ended.calls⟩

/-- Pointers are addresses, and `NULL` is `none`; of the key and the nonce only the bytes
    matter. -/
def chacha20Poly1305 (encrypt : Bool) (key nonce : Option Bytes) (input : Option Nat) (inLen : Size)
    (output tag : Option Nat) (m : Memory UInt8) : Result :=
  match key, nonce, tag with
  | some key, some nonce, some tag =>
      if 0 < inLen ∧ (input = none ∨ output = none) then ⟨-1, m, []⟩
      else
        match setUp evp encrypt key nonce (m.read tag 16) with
        | none => ⟨-1, m, []⟩
        | some ctx =>
            conclude evp encrypt tag (updateLoop evp (input.getD 0) (output.getD 0) inLen 0 ctx m)
  | none, _, _ | some _, none, _ | some _, some _, none => ⟨-1, m, []⟩

/-- `e2ee_chacha20_seal`. -/
def chacha20Seal (key nonce : Option Bytes) (plaintext : Option Nat) (ptLen : Size)
    (ciphertext tag : Option Nat) (m : Memory UInt8) : Result :=
  chacha20Poly1305 evp true key nonce plaintext ptLen ciphertext tag m

/-- `e2ee_chacha20_open`: partially decrypted bytes are never left. -/
def chacha20Open (key nonce : Option Bytes) (ciphertext : Option Nat) (ctLen : Size)
    (tag plaintext : Option Nat) (m : Memory UInt8) : Result :=
  let result := chacha20Poly1305 evp false key nonce ciphertext ctLen plaintext tag m
  match plaintext with
  | some plaintext =>
      if result.rc ≠ 0 ∧ 0 < ctLen then
        { result with memory := result.memory.write plaintext (List.replicate ctLen.toNat 0) }
      else result
  | none => result

end Program

/-! ## The pieces -/

/-- The length passed is positive and an `int`. -/
def Call.Fits (call : Call) : Prop := 0 < call.inl ∧ call.inl ≤ intMax

/-- The bytes that the calls pass on, by their place in the input. -/
def covered (calls : List Call) : List Nat :=
  calls.flatMap fun call => List.range' call.offset.toNat call.inl.toNat

theorem toInt_chunkOf {done inLen : Size} (more : done < inLen) :
    toInt (chunkOf (inLen - done)) = (chunkOf (inLen - done)).toNat := by
  obtain ⟨-, small, -⟩ := chunkOf_spec more
  have limit : intMax / 2 < 2 ^ 31 := by decide
  exact Int.bmod_eq_of_le (by omega) (by omega)

section Loop

variable {evp : Evp} {input output : Nat} {inLen done : Size} {ctx : evp.Ctx} {m : Memory UInt8}

theorem fits_chunkOf (more : done < inLen) : Call.Fits ⟨done, toInt (chunkOf (inLen - done))⟩ := by
  obtain ⟨positive, small, -⟩ := chunkOf_spec more
  have limit : intMax / 2 ≤ intMax := Nat.div_le_self _ _
  rw [Call.Fits, toInt_chunkOf more]
  dsimp only
  omega

theorem updateLoop_fits :
    ∀ call ∈ (updateLoop evp input output inLen done ctx m).calls, call.Fits := by
  fun_induction updateLoop evp input output inLen done ctx m with
  | case1 done ctx m more chunk call u m' failed =>
      exact List.forall_mem_singleton.mpr (fits_chunkOf more)
  | case2 done ctx m more chunk call u m' ok short =>
      exact List.forall_mem_singleton.mpr (fits_chunkOf more)
  | case3 done ctx m more chunk call u m' ok full rest ih =>
      exact List.forall_mem_cons.mpr ⟨fits_chunkOf more, ih⟩
  | case4 done ctx m past => exact List.forall_mem_nil _

theorem nothing_left (past : ¬ done < inLen) : inLen.toNat - done.toNat = 0 :=
  Nat.sub_eq_zero_of_le (Nat.le_of_not_lt (mt UInt64.lt_iff_toNat_lt.mpr past))

/-- The bytes of a piece are the next ones. -/
theorem covered_cons (more : done < inLen) (calls : List Call) :
    covered (⟨done, toInt (chunkOf (inLen - done))⟩ :: calls) =
      List.range' done.toNat (chunkOf (inLen - done)).toNat ++ covered calls := by
  rw [covered, List.flatMap_cons, toInt_chunkOf more]
  rfl

/-- The bytes left are those of the next piece and the others. -/
theorem left_split (more : done < inLen) :
    List.range' done.toNat (inLen.toNat - done.toNat) =
      List.range' done.toNat (chunkOf (inLen - done)).toNat ++
        List.range' (done + chunkOf (inLen - done)).toNat
          (inLen.toNat - (done + chunkOf (inLen - done)).toNat) := by
  obtain ⟨-, -, within, sum⟩ := chunkOf_spec more
  rw [sum, List.range'_append_1]
  congr 1
  omega

/-- The pieces cover the bytes that are left once and in order, up to a call that fails. -/
theorem updateLoop_covers :
    covered (updateLoop evp input output inLen done ctx m).calls <+:
        List.range' done.toNat (inLen.toNat - done.toNat) ∧
      ((updateLoop evp input output inLen done ctx m).ctx.isSome →
        covered (updateLoop evp input output inLen done ctx m).calls =
          List.range' done.toNat (inLen.toNat - done.toNat)) := by
  fun_induction updateLoop evp input output inLen done ctx m with
  | case1 done ctx m more chunk call u m' failed | case2 done ctx m more chunk call u m' ok short =>
      rw [covered_cons more, left_split more]
      exact ⟨List.prefix_append_right_inj _ |>.mpr (List.nil_prefix), fun left => by cases left⟩
  | case3 done ctx m more chunk call u m' ok full rest ih =>
      rw [covered_cons more, left_split more]
      exact ⟨(List.prefix_append_right_inj _).mpr ih.1, fun ended => congrArg _ (ih.2 ended)⟩
  | case4 done ctx m past =>
      rw [nothing_left past]
      exact ⟨List.nil_prefix, fun _ => rfl⟩

theorem piece_same (more : done < inLen) (ctx : evp.Ctx) (m : Memory UInt8) (inl : Int)
    (isChunk : inl = toInt (chunkOf (inLen - done))) :
    m.SameOutside (output + done.toNat) (inLen.toNat - done.toNat)
      (m.write (output + done.toNat)
        (evp.update ctx (m.read (input + done.toNat) inl.toNat)).out) := by
  obtain ⟨-, -, within, -⟩ := chunkOf_spec more
  have bound := evp.update_bounded ctx (m.read (input + done.toNat) inl.toNat)
  rw [Memory.length_read] at bound
  rw [toInt_chunkOf more] at isChunk
  exact Memory.sameOutside_write (by omega)

/-- Nothing but the rest of the output is written. -/
theorem updateLoop_same :
    m.SameOutside (output + done.toNat) (inLen.toNat - done.toNat)
      (updateLoop evp input output inLen done ctx m).memory := by
  fun_induction updateLoop evp input output inLen done ctx m with
  | case1 done ctx m more chunk call u m' failed =>
      exact piece_same more ctx m call.inl (by simp only [call, chunk])
  | case2 done ctx m more chunk call u m' ok short =>
      exact piece_same more ctx m call.inl (by simp only [call, chunk])
  | case3 done ctx m more chunk call u m' ok full rest ih =>
      have spec : _ ∧ _ ∧ done.toNat + chunk.toNat ≤ inLen.toNat ∧
          (done + chunk).toNat = done.toNat + chunk.toNat := chunkOf_spec more
      obtain ⟨-, -, within, sum⟩ := spec
      have piece : m.SameOutside (output + done.toNat) (inLen.toNat - done.toNat) m' :=
        piece_same more ctx m call.inl (by simp only [call, chunk])
      exact piece.trans (ih.mono (by omega) (by omega))
  | case4 done ctx m past => exact Memory.SameOutside.refl

/-- A piece is as long as it may be, or the last. -/
theorem pieces_left (more : done < inLen) :
    (inLen.toNat - (done + chunkOf (inLen - done)).toNat + (intMax / 2 - 1)) / (intMax / 2) + 1 ≤
      (inLen.toNat - done.toNat + (intMax / 2 - 1)) / (intMax / 2) := by
  obtain ⟨-, -, -, sum⟩ := chunkOf_spec more
  have left := UInt64.toNat_sub_of_le inLen done (UInt64.le_of_lt more)
  have order := UInt64.lt_iff_toNat_lt.mp more
  have cap : intMax / 2 = 1073741823 := by decide
  rw [sum, toNat_chunkOf, left, cap]
  omega

/-- The loop takes no more pieces than there have to be. -/
theorem updateLoop_length :
    (updateLoop evp input output inLen done ctx m).calls.length ≤
      (inLen.toNat - done.toNat + (intMax / 2 - 1)) / (intMax / 2) := by
  fun_induction updateLoop evp input output inLen done ctx m with
  | case1 done ctx m more chunk call u m' failed =>
      exact Nat.le_trans (Nat.le_add_left 1 _) (pieces_left more)
  | case2 done ctx m more chunk call u m' ok short =>
      exact Nat.le_trans (Nat.le_add_left 1 _) (pieces_left more)
  | case3 done ctx m more chunk call u m' ok full rest ih =>
      exact Nat.le_trans (Nat.succ_le_succ ih) (pieces_left more)
  | case4 done ctx m past => exact Nat.zero_le _

end Loop

/-! ## The call -/

section Call

variable {evp : Evp} {encrypt : Bool} {key nonce : Option Bytes} {input output tag : Option Nat}
  {inLen : Size} {m : Memory UInt8}

/-- What can come of the end of the loop. -/
theorem conclude_cases {t : Nat} {ended : LoopEnd evp} {r : Result}
    (result : r = conclude evp encrypt t ended) :
    r = ⟨-1, ended.memory, ended.calls⟩ ∨
      ∃ left ctx, ended.ctx = some left ∧ evp.final left = some (0, ctx) ∧
        (encrypt = false ∧ r = ⟨0, ended.memory, ended.calls⟩ ∨
          ∃ bytes, encrypt = true ∧ evp.getTag ctx = some bytes ∧
            r = ⟨0, ended.memory.write t bytes.toList, ended.calls⟩) := by
  unfold conclude at result
  split at result
  · exact .inl result
  · rename_i outl ctx finished
    obtain ⟨left, ended, final⟩ := Option.bind_eq_some_iff.mp finished
    split at result
    · exact .inl result
    · rename_i empty
      obtain rfl := not_not.mp empty
      split at result
      · rename_i encrypting
        split at result
        · exact .inl result
        · rename_i bytes got
          exact .inr ⟨left, ctx, ended, final, .inr ⟨bytes, encrypting, got, result⟩⟩
      · rename_i decrypting
        exact .inr ⟨left, ctx, ended, final, .inl ⟨Bool.eq_false_iff.mpr decrypting, result⟩⟩

theorem conclude_calls {t : Nat} {ended : LoopEnd evp} {r : Result}
    (result : r = conclude evp encrypt t ended) :
    r.calls = ended.calls ∧ (r.rc = 0 → ended.ctx.isSome) ∧
      (r.rc ≠ 0 → r.memory = ended.memory) := by
  rcases conclude_cases result with rfl | ⟨_, _, whole, _, ⟨_, rfl⟩ | ⟨_, _, _, rfl⟩⟩
  · exact ⟨rfl, nofun, fun _ => rfl⟩
  · exact ⟨rfl, fun _ => whole ▸ rfl, fun failed => absurd rfl failed⟩
  · exact ⟨rfl, fun _ => whole ▸ rfl, fun failed => absurd rfl failed⟩

/-- No pointer that is needed is `NULL`. -/
structure Given (key nonce : Option Bytes) (input output tag : Option Nat) (inLen : Size)
    (k n : Bytes) (t : Nat) : Prop where
  key : key = some k
  nonce : nonce = some n
  tag : tag = some t
  buffers : 0 < inLen → input.isSome ∧ output.isSome

theorem Given.unique {k n k' n' : Bytes} {t t' : Nat}
    (given : Given key nonce input output tag inLen k n t)
    (also : Given key nonce input output tag inLen k' n' t') : k = k' ∧ n = n' ∧ t = t' :=
  ⟨Option.some.inj (given.key.symm.trans also.key),
    Option.some.inj (given.nonce.symm.trans also.nonce),
    Option.some.inj (given.tag.symm.trans also.tag)⟩

/-- What can come of a call: it fails before the loop, or ends as the loop does. -/
theorem chacha20Poly1305_cases {r : Result}
    (result : r = chacha20Poly1305 evp encrypt key nonce input inLen output tag m) :
    r = ⟨-1, m, []⟩ ∨
      ∃ k n t ctx, Given key nonce input output tag inLen k n t ∧
        setUp evp encrypt k n (m.read t 16) = some ctx ∧
        r = conclude evp encrypt t
          (updateLoop evp (input.getD 0) (output.getD 0) inLen 0 ctx m) := by
  unfold chacha20Poly1305 at result
  split at result
  · rename_i k n t
    split at result
    · exact .inl result
    · rename_i given
      cases started : setUp evp encrypt k n (m.read t 16) with
      | none => exact .inl (by simpa only [started] using result)
      | some ctx =>
          refine .inr ⟨k, n, t, ctx, ⟨rfl, rfl, rfl, fun some => ?_⟩, started,
            by simpa only [started] using result⟩
          simp only [not_and, not_or] at given
          exact ⟨Option.isSome_iff_ne_none.mpr (given some).1,
            Option.isSome_iff_ne_none.mpr (given some).2⟩
  all_goals exact .inl result

/-- The pieces fit an `int`, there are no more of them than there have to be, and they cover
    the input once and in order, all of it if the call succeeds. -/
theorem chacha20Poly1305_pieces {r : Result}
    (result : r = chacha20Poly1305 evp encrypt key nonce input inLen output tag m) :
    (∀ call ∈ r.calls, call.Fits) ∧
      r.calls.length ≤ (inLen.toNat + (intMax / 2 - 1)) / (intMax / 2) ∧
      covered r.calls <+: List.range inLen.toNat ∧
      (r.rc = 0 → covered r.calls = List.range inLen.toNat) := by
  rcases chacha20Poly1305_cases result with rfl | ⟨k, n, t, ctx, given, started, ends⟩
  · exact ⟨List.forall_mem_nil _, Nat.zero_le _, List.nil_prefix, nofun⟩
  · obtain ⟨calls, whole, -⟩ := conclude_calls ends
    rw [calls, List.range_eq_range']
    exact ⟨updateLoop_fits, updateLoop_length, updateLoop_covers.1,
      fun done => updateLoop_covers.2 (whole done)⟩

/-- What a call that fails has written is in the output. -/
theorem chacha20Poly1305_same {r : Result}
    (result : r = chacha20Poly1305 evp encrypt key nonce input inLen output tag m)
    (failed : r.rc ≠ 0) : m.SameOutside (output.getD 0) inLen.toNat r.memory := by
  rcases chacha20Poly1305_cases result with rfl | ⟨k, n, t, ctx, given, started, ends⟩
  · exact Memory.SameOutside.refl
  · rw [(conclude_calls ends).2.2 failed]
    exact updateLoop_same.mono (Nat.le_refl _) (Nat.le_refl _)

/-- Opening changes no more than the memory. -/
theorem chacha20Open_wraps : ∃ memory, chacha20Open evp key nonce input inLen tag output m =
    { chacha20Poly1305 evp false key nonce input inLen output tag m with memory := memory } := by
  unfold chacha20Open
  dsimp only
  split
  · split
    · exact ⟨_, rfl⟩
    · exact ⟨_, rfl⟩
  · exact ⟨_, rfl⟩

theorem chacha20Open_rc :
    (chacha20Open evp key nonce input inLen tag output m).rc =
      (chacha20Poly1305 evp false key nonce input inLen output tag m).rc := by
  obtain ⟨_, wraps⟩ := chacha20Open_wraps
  rw [wraps]

theorem chacha20Open_calls :
    (chacha20Open evp key nonce input inLen tag output m).calls =
      (chacha20Poly1305 evp false key nonce input inLen output tag m).calls := by
  obtain ⟨_, wraps⟩ := chacha20Open_wraps
  rw [wraps]

/-- Nothing is wiped from a call that succeeds. -/
theorem chacha20Open_eq (done : (chacha20Open evp key nonce input inLen tag output m).rc = 0) :
    chacha20Open evp key nonce input inLen tag output m =
      chacha20Poly1305 evp false key nonce input inLen output tag m := by
  rw [chacha20Open_rc] at done
  unfold chacha20Open
  dsimp only
  split
  · exact if_neg fun failed => failed.1 done
  · rfl

/-- Nothing that was decrypted is left, nor is anything else changed. -/
theorem chacha20Open_wipes
    (failed : (chacha20Open evp key nonce input inLen tag output m).rc ≠ 0) :
    (chacha20Open evp key nonce input inLen tag output m).memory =
      output.elim m fun out => m.write out (List.replicate inLen.toNat 0) := by
  unfold chacha20Open at failed ⊢
  generalize result : chacha20Poly1305 evp false key nonce input inLen output tag m = r at failed ⊢
  cases output with
  | none =>
      dsimp only [Option.elim_none] at failed ⊢
      rcases chacha20Poly1305_cases result.symm with rfl | ⟨_, _, _, _, given, _, _⟩
      · rfl
      · have empty : inLen.toNat = 0 := nothing_left fun some => nomatch (given.buffers some).2
        exact (empty ▸ chacha20Poly1305_same result.symm failed).eq
  | some out =>
      dsimp only [Option.elim_some] at failed ⊢
      have wrong : r.rc ≠ 0 := by
        split at failed <;> exact failed
      have same : m.SameOutside out (List.replicate inLen.toNat (0 : UInt8)).length r.memory := by
        simpa using chacha20Poly1305_same result.symm wrong
      rw [← same.write_eq]
      split
      · rfl
      · rename_i kept
        have empty : inLen.toNat = 0 := nothing_left fun some => kept ⟨wrong, some⟩
        rw [empty, List.replicate_zero, Memory.write_nil]

end Call

end E2eeProxy.Aead
