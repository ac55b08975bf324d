import E2eeProxy.InstanceStats

/-! # The attempts of a request

Every attempt of a request ends in some way that the answers it got tell. The answers
are all in the history, so that is where attempts and their ends are read from.
-/

namespace E2eeProxy.Handler

open Lua Lib Selector

/-! ## Attempts -/

/-- What the request learns once an instance was handed out. -/
inductive Sign where
  | sealed (ok : Bool)
  | connected (ok : Bool)
  | answered (status : Option Nat)
  | body (body : Bytes)
  | opened (ok : Bool)
  | started (start : StreamStart)
  | rested (hadError : Bool)

def isOk {ε α : Type} : Except ε α → Bool
  | .ok _ => true
  | .error _ => false

def signOf : Happening proxy → Option Sign
  | .answered (.build _ _) a => some (.sealed (isOk a))
  | .answered .connect a => some (.connected (isOk a))
  | .answered (.invoke _) a => some (.answered a.toOption)
  | .answered .readBody a => some (.body (a.getD []))
  | .answered (.decryptResponse _ _) a => some (.opened (isOk a))
  | .answered (.streamStart _) a => some (.started a)
  | .answered .streamRest a => some (.rested a)
  | _ => none

/-- An instance that was handed out and what came of it. -/
structure Attempt where
  taken : Taken
  signs : List Sign

/-- The attempts in what a request has seen, the newest first in both. -/
def attemptsIn : List (Happening proxy) → List Attempt
  | [] => []
  | .recorded (.handedOut taken) :: older => ⟨taken, []⟩ :: attemptsIn older
  | h :: older =>
      match signOf h, attemptsIn older with
      | some sign, a :: rest => { a with signs := a.signs ++ [sign] } :: rest
      | _, attempts => attempts

/-- The chute that the model of the request was resolved to. -/
def chuteIn (seen : List (Happening proxy)) : Option Value :=
  seen.findSome? fun
    | .recorded (.resolved _ chuteId) => some chuteId
    | _ => none

/-- How an attempt ends. -/
inductive Exit where
  | attestation
  | encryption
  | connect
  | request
  | nonce403
  | other403
  | status (code : Nat)
  | empty
  | undecryptable
  | noReader
  | streamError
  | served
  deriving DecidableEq

/-- The end of an attempt that was answered, by what is read of the answer. Only a
    first attempt is ended by a 403. -/
def Exit.ofAnswer (retried : Bool) (code : Nat) : List Sign → Option Exit
  | [.body body] =>
      if code = 403 ∧ retried = false then
        some (if occurs (lit "nonce") body then .nonce403 else .other403)
      else if code ≠ 200 then some (.status code)
      else if body = [] then some .empty
      else none
  | [.body _, .opened ok] => some (if ok then .served else .undecryptable)
  | [.started .noReader] => some .noReader
  | [.started (.ended hadError)] | [.started .delivered, .rested hadError] =>
      some (if hadError then .streamError else .served)
  | _ => none

def Exit.ofSigns (retried : Bool) : List Sign → Option Exit
  | [] => some .attestation
  | [.sealed false] => some .encryption
  | [.sealed true, .connected false] => some .connect
  | [.sealed true, .connected true, .answered none] => some .request
  | .sealed true :: .connected true :: .answered (some code) :: signs => ofAnswer retried code signs
  | _ => none

/-- There was a nonce 403 before. -/
def retried (ended : List (Taken × Option Exit)) : Bool :=
  ended.any fun attempt => attempt.2 == some .nonce403

def exits : List Attempt → List (Taken × Option Exit)
  | [] => []
  | a :: older => (a.taken, Exit.ofSigns (retried (exits older)) a.signs) :: exits older

/-- What a task has seen, the newest first. -/
def seenBy (t : ℕ) (v : View proxy) : List (Happening proxy) :=
  (v.history.filter fun e => e.task = t).map Entry.what

/-- The attempts of a request with their ends. -/
def ended (t : ℕ) (v : View proxy) : List (Taken × Option Exit) := exits (attemptsIn (seenBy t v))

def Exit.failed : Exit → Bool
  | .served => false
  | _ => true

/-- A failure that is counted twice, or not at all. -/
def Exit.miscounted : Exit → Bool
  | .encryption | .request | .other403 | .noReader => true
  | .status code => 500 ≤ code
  | _ => false

/-- The failures that are recorded. -/
def Exit.counted : Exit → ℕ
  | .request => 2
  | .status code => if 500 ≤ code then 2 else 1
  | .encryption | .other403 | .noReader | .served => 0
  | _ => 1

/-- The failed attempts on an instance. -/
def failures (t : ℕ) (v : View proxy) (chute : Value) (id : Id) : ℕ :=
  if chuteIn (seenBy t v) = some chute then
    (ended t v).countP fun (taken, exit) => taken.inst.instanceId = id && exit.any Exit.failed
  else 0

/-- What a request did itself in its stretches is to record each failed attempt once:
    as one failure of the instance, which is one sample of its average. -/
def CountedOnce (cfg : Config) (t : ℕ) (stretches : List (Stretch proxy)) (v : View proxy) : Prop :=
  ∀ chute id, ∃ counts : List ℕ,
    List.Forall₂ (fun k (stretch : Stretch proxy) =>
      Sampled cfg k (statsOf stretch.before.selector chute id)
        (statsOf stretch.after.selector chute id)) counts stretches ∧
    counts.sum = failures t v chute id

/-! ## What is seen -/

/-- It is no sign of how an attempt goes. -/
def isAside : Happening proxy → Bool
  | .recorded _ => false
  | h => (signOf h).isNone

theorem attemptsIn_aside {h : Happening proxy} (aside : isAside h = true)
    (seen : List (Happening proxy)) :
    attemptsIn (h :: seen) = attemptsIn seen ∧ chuteIn (h :: seen) = chuteIn seen := by
  cases h with
  | recorded e => cases aside
  | asked r => exact ⟨rfl, rfl⟩
  | answered r a =>
      have none : signOf (.answered r a) = none := Option.isNone_iff_eq_none.mp aside
      refine ⟨?_, rfl⟩
      rw [attemptsIn, none]
      exact nofun

theorem attemptsIn_sign {h : Happening proxy} {sign : Sign} (tells : signOf h = some sign)
    {seen : List (Happening proxy)} {taken : Taken} {signs : List Sign} {older : List Attempt}
    (under : attemptsIn seen = ⟨taken, signs⟩ :: older) :
    attemptsIn (h :: seen) = ⟨taken, signs ++ [sign]⟩ :: older ∧ chuteIn (h :: seen) = chuteIn seen := by
  cases h with
  | recorded e => cases tells
  | asked r => cases tells
  | answered r a =>
      refine ⟨?_, rfl⟩
      rw [attemptsIn, tells, under]
      exact nofun

section Views

variable {t : ℕ} {v v' : View proxy}

theorem seenBy_push (h : Happening proxy) : seenBy t (v.push t h) = h :: seenBy t v := by
  rw [seenBy, View.push_history, List.filter_cons, if_pos (decide_eq_true rfl), List.map_cons]
  rfl

theorem seenBy_others (others : Others t v v') : seenBy t v' = seenBy t v := by
  obtain ⟨more, same, other⟩ := others
  have none : more.filter (fun e => e.task = t) = [] :=
    List.filter_eq_nil_iff.mpr fun e mem own => other e mem (of_decide_eq_true own)
  rw [seenBy, same, List.filter_append, none, List.nil_append]
  rfl

end Views

/-! ## What a request has counted so far -/

/-- `fails` of an instance. -/
def failsOf (chute : Value) (id : Id) (s : ProxyState) : ℤ := (statsOf s.selector chute id).fails

section Counting

variable (t : ℕ) (chuteId chute : Value) (id : Id)

/-- A failure of `inst` at `chuteId` as a failure of `id` at `chute`. -/
def weight (inst : Id) : ℤ := if chuteId = chute ∧ inst = id then 1 else 0

/-- One failure for each. -/
def total (before : List (Taken × Option Exit)) : ℤ :=
  (before.map fun attempt => weight chuteId chute id attempt.1.inst.instanceId).sum

/-- The ends after which the request goes on. -/
def Passed (before : List (Taken × Option Exit)) : Prop :=
  ∀ attempt ∈ before, attempt.2 = some .attestation ∨ attempt.2 = some .nonce403

/-- No attempt is under way. -/
structure Between (again : Bool) (n : ℤ) (v : View proxy) : Prop where
  found : chuteIn (seenBy t v) = some chuteId
  passed : Passed (ended t v)
  tried : retried (ended t v) = again
  count : n = total chuteId chute id (ended t v)

/-- An attempt is under way. -/
structure Under (again : Bool) (taken : Taken) (signs : List Sign) (n : ℤ) (v : View proxy) :
    Prop where
  known : (v.state.selector chuteId).isSome
  found : chuteIn (seenBy t v) = some chuteId
  attempts : ∃ older, attemptsIn (seenBy t v) = ⟨taken, signs⟩ :: older ∧ Passed (exits older) ∧
    retried (exits older) = again ∧ n = total chuteId chute id (exits older)

/-- The last attempt has ended, and counted as often as its end tells. -/
def Ended (n : ℤ) (v : View proxy) : Prop :=
  chuteIn (seenBy t v) = some chuteId ∧ ∃ taken exit before,
    ended t v = (taken, some exit) :: before ∧ Passed before ∧
      n = total chuteId chute id before +
        weight chuteId chute id taken.inst.instanceId * exit.counted

/-- For the request nothing has happened. -/
def Follows (v v' : View proxy) : Prop :=
  attemptsIn (seenBy t v') = attemptsIn (seenBy t v) ∧
    chuteIn (seenBy t v') = chuteIn (seenBy t v) ∧
    ((v.state.selector chuteId).isSome → (v'.state.selector chuteId).isSome)

variable {t chuteId chute id} {again : Bool} {taken : Taken} {signs : List Sign} {n : ℤ}
  {v v' : View proxy}

theorem Follows.trans {v'' : View proxy} (first : Follows t chuteId v v')
    (second : Follows t chuteId v' v'') : Follows t chuteId v v'' :=
  ⟨second.1.trans first.1, second.2.1.trans first.2.1, fun known => second.2.2 (first.2.2 known)⟩

theorem follows_push {h : Happening proxy} (aside : isAside h = true) :
    Follows t chuteId v (v.push t h) := by
  obtain ⟨attempts, chute⟩ := attemptsIn_aside aside (seenBy t v)
  rw [Follows, seenBy_push]
  exact ⟨attempts, chute, id⟩

theorem follows_others {cfg : Config} (others : Others t v v') (kept : Kept cfg v.state v'.state) :
    Follows t chuteId v v' := by
  rw [Follows, seenBy_others others]
  exact ⟨rfl, rfl, kept.1 chuteId⟩

theorem follows_state {s : ProxyState} (known : (v.state.selector chuteId).isSome →
    (s.selector chuteId).isSome) : Follows t chuteId v { v with state := s } := ⟨rfl, rfl, known⟩

theorem Between.follow (between : Between t chuteId chute id again n v)
    (follows : Follows t chuteId v v') : Between t chuteId chute id again n v' := by
  have same : ended t v' = ended t v := congrArg exits follows.1
  exact ⟨follows.2.1.trans between.found, same ▸ between.passed, same ▸ between.tried,
    same ▸ between.count⟩

theorem Under.follow (under : Under t chuteId chute id again taken signs n v)
    (follows : Follows t chuteId v v') : Under t chuteId chute id again taken signs n v' :=
  ⟨follows.2.2 under.known, follows.2.1.trans under.found, follows.1.symm ▸ under.attempts⟩

theorem Under.sign (under : Under t chuteId chute id again taken signs n v) {h : Happening proxy}
    {sign : Sign} (tells : signOf h = some sign) :
    Under t chuteId chute id again taken (signs ++ [sign]) n (v.push t h) := by
  obtain ⟨older, here, rest⟩ := under.attempts
  obtain ⟨attempts, chute⟩ := attemptsIn_sign tells here
  refine ⟨under.known, ?_, older, ?_, rest⟩
  · rw [seenBy_push, chute, under.found]
  · rw [seenBy_push, attempts]

/-- An answer that is waited for. -/
theorem Under.awaited {cfg : Config} (under : Under t chuteId chute id again taken signs n v)
    {r : Request} (others : Others t (v.push t (.asked r)) v') (kept : Kept cfg v.state v'.state)
    {a : r.Answer} {sign : Sign} (tells : signOf (.answered r a) = some sign) :
    Under t chuteId chute id again taken (signs ++ [sign]) n (v'.push t (.answered r a)) :=
  (under.follow ((follows_push rfl).trans (follows_others others kept))).sign tells

/-- The next attempt begins. -/
theorem Between.handed (between : Between t chuteId chute id again n v)
    (known : (v.state.selector chuteId).isSome) (taken : Taken) :
    Under t chuteId chute id again taken [] n (v.push t (.recorded (.handedOut taken))) := by
  refine ⟨known, ?_, attemptsIn (seenBy t v), ?_, between.passed, between.tried, between.count⟩
  · rw [seenBy_push]
    exact between.found
  · rw [seenBy_push]
    rfl

/-- The attempt ends in a way that the request goes on from. -/
theorem Under.passes (under : Under t chuteId chute id again taken signs n v) {exit : Exit}
    (ends : Exit.ofSigns again signs = some exit) (goes : exit = .attestation ∨ exit = .nonce403) :
    Between t chuteId chute id (again || exit == .nonce403)
      (n + weight chuteId chute id taken.inst.instanceId) v := by
  obtain ⟨older, here, passed, retried', rfl⟩ := under.attempts
  have there : ended t v = (taken, some exit) :: exits older := by
    rw [ended, here, exits, retried', ends]
  refine ⟨under.found, ?_, ?_, ?_⟩
  · rw [there]
    exact List.forall_mem_cons.mpr ⟨goes.imp (congrArg some) (congrArg some), passed⟩
  · rw [there, retried, List.any_cons, Bool.or_comm]
    exact congrArg₂ or retried' rfl
  · rw [there, total, total, List.map_cons, List.sum_cons, add_comm]

theorem Under.ends (under : Under t chuteId chute id again taken signs n v) {exit : Exit}
    (ends : Exit.ofSigns again signs = some exit) {n' : ℤ}
    (counted : n' = n + weight chuteId chute id taken.inst.instanceId * exit.counted) :
    Ended t chuteId chute id n' v := by
  obtain ⟨older, here, passed, retried', rfl⟩ := under.attempts
  refine ⟨under.found, taken, exit, exits older, ?_, passed, counted⟩
  rw [ended, here, exits, retried', ends]

theorem Under.endsNever (under : Under t chuteId chute id again taken signs n v) {exit : Exit}
    (ends : Exit.ofSigns again signs = some exit) (never : exit.counted = 0) :
    Ended t chuteId chute id n v := by
  apply under.ends ends
  rw [never, Nat.cast_zero, mul_zero, add_zero]

theorem Under.endsOnce (under : Under t chuteId chute id again taken signs n v) {exit : Exit}
    (ends : Exit.ofSigns again signs = some exit) (once : exit.counted = 1) :
    Ended t chuteId chute id (n + weight chuteId chute id taken.inst.instanceId) v := by
  apply under.ends ends
  rw [once, Nat.cast_one, mul_one]

theorem Under.endsTwice (under : Under t chuteId chute id again taken signs n v) {exit : Exit}
    (ends : Exit.ofSigns again signs = some exit) (twice : exit.counted = 2) :
    Ended t chuteId chute id (n + weight chuteId chute id taken.inst.instanceId +
      weight chuteId chute id taken.inst.instanceId) v := by
  apply under.ends ends
  rw [twice, Nat.cast_two, mul_two, add_assoc]

end Counting

end E2eeProxy.Handler
