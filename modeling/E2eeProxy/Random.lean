import E2eeProxy.Lib.Memory
import E2eeProxy.Lua.Value
import Mathlib.Algebra.Order.Ring.Nat

/-! # Random bytes

randombytes.c on Linux. The buffer is filled by `getrandom`, or from its beginning by
/dev/urandom once `getrandom` fails. What the kernel and the library answer is taken
as it comes; a call whose answers have run out still runs.
-/

namespace E2eeProxy.Random

open Lua Lib

/-- `size_t`. -/
abbrev Size := UInt64

inductive Source where
  | getrandom
  | urandom
  deriving DecidableEq

/-- A byte of memory, with the source that wrote it during this call. -/
structure Cell where
  byte : UInt8
  writer : Option Source
  deriving DecidableEq

def untouched (m : Memory UInt8) : Memory Cell := fun a => ⟨m a, none⟩

def eintr : Nat := 4

def ssizeMax : Nat := 2 ^ 63 - 1

/-- An answer of `getrandom`: the bytes it has, of which a call gets at most as many
    as it asks for, or the error it sets. -/
inductive GetRandom where
  | bytes (b : Bytes)
  | error (errno : Nat)

structure Answers where
  getrandom : List GetRandom
  fopen : Bool
  /-- Each read gets at most as many bytes as it asks for, and none at the end of the
      file or after an error. -/
  fread : List Bytes

inductive Status (α : Type) where
  | running
  | returned (value : α)
  | aborted
  deriving DecidableEq

structure Call (α : Type) where
  status : Status α
  memory : Memory Cell

def freadLoop (out : Nat) (len : Size) : List Bytes → Size → Memory Cell → Call Int
  | [], got, m => if got < len then ⟨.running, m⟩ else ⟨.returned 0, m⟩
  | answer :: answers, got, m =>
      if got < len then
        let r := answer.take (len - got).toNat
        let m := m.write (out + got.toNat) (r.map fun byte => ⟨byte, some .urandom⟩)
        if r.length = 0 then ⟨.returned (-1), m⟩
        else freadLoop out len answers (got + UInt64.ofNat r.length) m
      else ⟨.returned 0, m⟩

def fillFromUrandom (out : Nat) (len : Size) (answers : Answers) (m : Memory Cell) : Call Int :=
  if answers.fopen then freadLoop out len answers.fread 0 m else ⟨.returned (-1), m⟩

/-- The first loop of `e2ee_secure_random`, with what it got if it is over. -/
def getrandomLoop (out : Nat) (len : Size) :
    List GetRandom → Size → Memory Cell → Option Size × Memory Cell
  | [], got, m => (if got < len then none else some got, m)
  | answer :: answers, got, m =>
      if got < len then
        match answer with
        | .error errno =>
            if errno = eintr then getrandomLoop out len answers got m else (some got, m)
        | .bytes b =>
            let r := b.take (min (len - got).toNat ssizeMax)
            getrandomLoop out len answers (got + UInt64.ofNat r.length)
              (m.write (out + got.toNat) (r.map fun byte => ⟨byte, some .getrandom⟩))
      else (some got, m)

/-- `e2ee_secure_random`; `NULL` is `none`. -/
def secureRandom (out : Option Nat) (len : Size) (answers : Answers) (m : Memory Cell) : Call Int :=
  if len = 0 then ⟨.returned 0, m⟩
  else
    match out with
    | none => ⟨.returned (-1), m⟩
    | some out =>
        match getrandomLoop out len answers.getrandom 0 m with
        | (none, m) => ⟨.running, m⟩
        | (some got, m) =>
            if got = len then ⟨.returned 0, m⟩ else fillFromUrandom out len answers m

/-- Aborts unless the call returned 0. -/
def orAbort {α : Type} (call : Call Int) (value : α) : Call α :=
  match call.status with
  | .running => ⟨.running, call.memory⟩
  | .returned rc => ⟨if rc ≠ 0 then .aborted else .returned value, call.memory⟩
  | .aborted => ⟨.aborted, call.memory⟩

/-- `e2ee_random_bytes`. -/
def randomBytes (out : Option Nat) (len : Size) (answers : Answers) (m : Memory Cell) : Call Unit :=
  orAbort (secureRandom out len answers m) ()

/-- `PQCLEAN_randombytes`. -/
def pqcleanRandombytes (out : Option Nat) (n : Size) (answers : Answers) (m : Memory Cell) :
    Call Int :=
  orAbort (secureRandom out n answers m) 0

/-! ## What is written -/

def Cell.Drawn (cell : Cell) : Prop := cell.writer.isSome

/-- Bytes that a source wrote. -/
theorem drawn_map (source : Source) (r : Bytes) :
    ∀ cell ∈ r.map (fun byte => Cell.mk byte (some source)), cell.Drawn := by
  intro cell mem
  obtain ⟨byte, -, rfl⟩ := List.mem_map.mp mem
  rfl

section Loops

variable {out : Nat} {len got : Size} {m : Memory Cell} {r : Bytes}

/-- A short read is added without overflow. -/
theorem toNat_advance (more : got < len) (short : r.length ≤ (len - got).toNat) :
    (got + UInt64.ofNat r.length).toNat = got.toNat + r.length ∧
      got.toNat + r.length ≤ len.toNat := by
  have room := UInt64.toNat_sub_of_le len got (UInt64.le_of_lt more)
  have order := UInt64.lt_iff_toNat_lt.mp more
  have small := len.toNat_lt
  rw [UInt64.toNat_add, UInt64.toNat_ofNat']
  omega

/-- The bytes from the beginning to `got` have been drawn, and nothing else has changed. -/
structure Progress (out : Nat) (len : Size) (m₀ : Memory Cell) (got : Size) (m : Memory Cell) :
    Prop where
  within : got.toNat ≤ len.toNat
  drawn : m.Filled Cell.Drawn out got.toNat
  same : m₀.SameOutside out len.toNat m

variable {m₀ : Memory Cell}

theorem Progress.advance (progress : Progress out len m₀ got m) (more : got < len)
    (short : r.length ≤ (len - got).toNat) (source : Source) :
    Progress out len m₀ (got + UInt64.ofNat r.length)
      (m.write (out + got.toNat) (r.map fun byte => ⟨byte, some source⟩)) := by
  obtain ⟨sum, within⟩ := toNat_advance more short
  have length : (r.map fun byte => Cell.mk byte (some source)).length = r.length := List.length_map _
  refine ⟨?_, ?_, ?_⟩
  · rwa [sum]
  · have filled := progress.drawn.write (drawn_map source r)
    rwa [length, ← sum] at filled
  · have step : m.SameOutside out len.toNat (m.write (out + got.toNat) _) :=
      (Memory.sameOutside_write (length ▸ Nat.le_refl r.length)).mono (Nat.le_add_right _ _)
        (by omega)
    exact progress.same.trans step

/-- At every point of the first loop. -/
theorem getrandomLoop_progress (answers : List GetRandom) (progress : Progress out len m₀ got m) :
    ∃ got', Progress out len m₀ got' (getrandomLoop out len answers got m).2 ∧
      ∀ r ∈ (getrandomLoop out len answers got m).1, r = got' := by
  induction answers generalizing got m with
  | nil =>
      refine ⟨got, progress, fun r mem => ?_⟩
      simp only [getrandomLoop] at mem
      split at mem
      · cases mem
      · exact (Option.some.inj mem).symm
  | cons answer answers ih =>
      unfold getrandomLoop
      split
      · rename_i more
        cases answer with
        | error errno =>
            dsimp only
            split
            · exact ih progress
            · exact ⟨got, progress, fun r mem => (Option.some.inj mem).symm⟩
        | bytes b =>
            have short : (b.take (min (len - got).toNat ssizeMax)).length ≤ (len - got).toNat :=
              (List.length_take_le _ _).trans (Nat.min_le_left _ _)
            exact ih (progress.advance more short .getrandom)
      · exact ⟨got, progress, fun r mem => (Option.some.inj mem).symm⟩

/-- A loop that is over has come to the end of the buffer. -/
theorem Progress.atEnd (progress : Progress out len m₀ got m) (past : ¬ got < len) : got = len := by
  rw [UInt64.lt_iff_toNat_lt] at past
  exact UInt64.toNat_inj.mp (Nat.le_antisymm progress.within (Nat.le_of_not_lt past))

/-- At every point of the second loop, which returns 0 at the end of the buffer only. -/
theorem freadLoop_progress (answers : List Bytes) (progress : Progress out len m₀ got m) :
    ∃ got', Progress out len m₀ got' (freadLoop out len answers got m).memory ∧
      ((freadLoop out len answers got m).status = .returned 0 → got' = len) := by
  induction answers generalizing got m with
  | nil =>
      unfold freadLoop
      split
      · exact ⟨got, progress, fun returned => by cases returned⟩
      · rename_i past
        exact ⟨got, progress, fun _ => progress.atEnd past⟩
  | cons answer answers ih =>
      unfold freadLoop
      split
      · rename_i more
        have short : (answer.take (len - got).toNat).length ≤ (len - got).toNat :=
          List.length_take_le _ _
        have next := progress.advance more short .urandom
        dsimp only
        split
        · exact ⟨_, next, fun returned => by cases returned⟩
        · exact ih next
      · rename_i past
        exact ⟨got, progress, fun _ => progress.atEnd past⟩

theorem Progress.start : Progress out len m₀ 0 m₀ :=
  ⟨Nat.zero_le _, Memory.Filled.zero, Memory.SameOutside.refl⟩

/-- Starting over at the beginning of the buffer. -/
theorem Progress.restart (progress : Progress out len m₀ got m) : Progress out len m₀ 0 m :=
  ⟨Nat.zero_le _, Memory.Filled.zero, progress.same⟩

theorem fillFromUrandom_progress (answers : Answers) (progress : Progress out len m₀ got m) :
    ∃ got', Progress out len m₀ got' (fillFromUrandom out len answers m).memory ∧
      ((fillFromUrandom out len answers m).status = .returned 0 → got' = len) := by
  unfold fillFromUrandom
  split
  · exact freadLoop_progress answers.fread progress.restart
  · exact ⟨got, progress, fun returned => by cases returned⟩

/-- At every point of the call. -/
theorem secureRandom_progress (out : Nat) (len : Size) (answers : Answers) (m₀ : Memory Cell) :
    ∃ got, Progress out len m₀ got (secureRandom (some out) len answers m₀).memory ∧
      ((secureRandom (some out) len answers m₀).status = .returned 0 → got = len) := by
  unfold secureRandom
  split
  · rename_i empty
    exact ⟨0, .start, fun _ => empty.symm⟩
  · have start : Progress out len m₀ 0 m₀ := .start
    obtain ⟨got, progress, stopped⟩ := getrandomLoop_progress answers.getrandom start
    dsimp only
    generalize getrandomLoop out len answers.getrandom 0 m₀ = ended at progress stopped ⊢
    obtain ⟨stop, m⟩ := ended
    cases stop with
    | none => exact ⟨got, progress, fun returned => by cases returned⟩
    | some got' =>
        obtain rfl := stopped got' rfl
        dsimp only
        split
        · rename_i full
          exact ⟨got', progress, fun _ => full⟩
        · exact fillFromUrandom_progress answers progress

end Loops

theorem orAbort_returned {α : Type} {call : Call Int} {value result : α}
    (returned : (orAbort call value).status = .returned result) :
    call.status = .returned 0 ∧ result = value := by
  unfold orAbort at returned
  split at returned
  · cases returned
  · rename_i rc status
    split at returned
    · cases returned
    · rename_i zero
      cases returned
      exact ⟨by rw [status, not_not.mp zero], rfl⟩
  · cases returned

/-- Whatever the sources answer: when `e2ee_secure_random` returns 0, a source has written
    every byte of the buffer during the call; at no time is anything else written; and its
    callers return only after it has returned 0. -/
theorem no_unfilled_randomness (out : Option Nat) (len : Size) (answers : Answers)
    (m : Memory UInt8) :
    ((secureRandom out len answers (untouched m)).status = .returned 0 →
      ∀ i < len.toNat, ∃ p ∈ out,
        ((secureRandom out len answers (untouched m)).memory (p + i)).Drawn) ∧
    (∀ a, (∀ p ∈ out, ¬ (p ≤ a ∧ a < p + len.toNat)) →
      (secureRandom out len answers (untouched m)).memory a = ⟨m a, none⟩) ∧
    ((randomBytes out len answers (untouched m)).status = .returned () →
      (secureRandom out len answers (untouched m)).status = .returned 0) ∧
    (∀ rc, (pqcleanRandombytes out len answers (untouched m)).status = .returned rc →
      (secureRandom out len answers (untouched m)).status = .returned 0) := by
  refine ⟨?_, ?_, fun returned => (orAbort_returned returned).1,
    fun rc returned => (orAbort_returned returned).1⟩
  · intro returned i inside
    cases out with
    | none =>
        unfold secureRandom at returned
        split at returned
        · rename_i empty
          rw [empty] at inside
          exact absurd inside (Nat.not_lt_zero i)
        · cases returned
    | some out =>
        obtain ⟨got, progress, full⟩ := secureRandom_progress out len answers (untouched m)
        obtain rfl := full returned
        exact ⟨out, rfl, progress.drawn i inside⟩
  · intro a outside
    cases out with
    | none =>
        unfold secureRandom
        split
        · rfl
        · rfl
    | some out =>
        obtain ⟨got, progress, -⟩ := secureRandom_progress out len answers (untouched m)
        exact progress.same a (outside out rfl)

/-- A short answer, an interrupt and a failure, then the whole buffer in two reads. -/
example : (secureRandom (some 5) 3
    ⟨[.bytes [1], .error eintr, .error 38], true, [[2, 3], [4, 5]]⟩ (untouched fun _ => 0)).status =
      .returned 0 := by decide

end E2eeProxy.Random
