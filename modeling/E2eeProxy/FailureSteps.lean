import E2eeProxy.Attempts

/-! # What a request counts

Along the code of a request: after each of its stretches it has counted one failure
for each attempt it went on from, and for the last attempt what its end tells.
-/

namespace E2eeProxy.Handler

open Lua Lib Discovery Selector

def SameSelector (s s' : ProxyState) : Prop := s'.selector = s.selector

/-- The request is over. -/
def Counted (t : ℕ) (chuteId chute : Value) (id : Id) (n : ℤ) (v : View proxy) : Prop :=
  (∃ again, Between t chuteId chute id again n v) ∨ Ended t chuteId chute id n v

/-- The last attempt was answered, and goes on. -/
def Replied (t : ℕ) (chuteId chute : Value) (id : Id) (reply : Reply) (n : ℤ) (v : View proxy) :
    Prop :=
  ∃ again taken, reply.inst = taken.inst ∧ (reply.status = 403 → again = true) ∧
    Under t chuteId chute id again taken
      [.sealed true, .connected true, .answered (some reply.status)] n v

/-- The next attempt is under way if an instance was handed out. -/
def Handed (t : ℕ) (chuteId chute : Value) (id : Id) (again : Bool) (n : ℤ) (got : Option Taken)
    (v : View proxy) : Prop :=
  got.elim (Between t chuteId chute id again n v) fun taken =>
    Under t chuteId chute id again taken [] n v

/-- The request is over unless there is a reply. -/
def Tried (t : ℕ) (chuteId chute : Value) (id : Id) (n : ℤ) (replied : Option Reply)
    (v : View proxy) : Prop :=
  replied.elim (Counted t chuteId chute id n v) fun reply =>
    Replied t chuteId chute id reply n v

section Adding

variable {cfg : Config} {pf : Platform} {t : ℕ} {chuteId chute : Value} {id : Id} {n : ℤ}
  {v : View proxy}

theorem record_fails (s : ProxyState) (now : Rat) (inst : Id) (ttft : Option Rat) (ok : Bool) :
    failsOf chute id
        { s with selector := Selector.record cfg now s.selector chuteId inst ttft ok } -
      failsOf chute id s = if ok then 0 else weight chuteId chute id inst := by
  unfold failsOf weight
  rw [record_stats]
  cases ok with
  | true => split <;> simp [outcome_served]
  | false => split <;> simp [(outcome_failed _ _).1]

theorem invalidate_fails (s : ProxyState) (now : Rat) (inst : Id)
    (known : (s.selector chuteId).isSome) :
    failsOf chute id
        { s with selector := Selector.invalidate cfg now s.selector chuteId (some inst) } -
      failsOf chute id s = weight chuteId chute id inst := by
  unfold failsOf weight
  rw [invalidate_stats]
  simp only [known, true_and]
  split <;> simp [(outcome_failed _ _).1]

theorem recordOutcome_adds (inst : Id) (ttft : Option Rat) (ok : Bool) :
    Adds (Kept cfg) t (failsOf chute id) (recordOutcome cfg chuteId inst ttft ok)
      (fun n' _ v' => n' = n + (if ok then 0 else weight chuteId chute id inst) ∧
        Follows t chuteId v v') n v :=
  ⟨congrArg (n + ·) (record_fails v.state v.clock inst ttft ok),
    follows_state fun known => record_known _ _ _ _ _ _ known⟩

theorem dropInstance_adds (inst : Id) (known : (v.state.selector chuteId).isSome) :
    Adds (Kept cfg) t (failsOf chute id) (dropInstance cfg chuteId inst)
      (fun n' _ v' => n' = n + weight chuteId chute id inst ∧ Follows t chuteId v v') n v :=
  ⟨congrArg (n + ·) (invalidate_fails v.state v.clock inst known),
    follows_state fun known => invalidate_known _ _ _ _ known⟩

theorem invalidateNonces_adds (inst : Id) (known : (v.state.selector chuteId).isSome) :
    Adds (Kept cfg) t (failsOf chute id) (invalidateNonces cfg chuteId (some inst))
      (fun n' _ v' => n' = n + weight chuteId chute id inst ∧ Follows t chuteId v v') n v := by
  refine Adds.modify rfl ⟨congrArg (n + ·) ?_, follows_state fun known => ?_⟩
  · exact invalidate_fails { v.state with nonceCache := _ } v.clock inst known
  · exact invalidate_known _ _ _ _ known

/-- What leaves the selector alone and tells nothing. -/
theorem quiet_adds {β : Type} {p : Prog β}
    (quiet : Quiet SameSelector (fun h => isAside h = true) p) :
    Adds (Kept cfg) t (failsOf chute id) p (fun n' _ v' => n' = n ∧ Follows t chuteId v v') n v := by
  have outlasts : Outlasts (Kept cfg) t SameSelector (fun h => isAside h = true)
      (Follows t chuteId v) := by
    refine ⟨fun w s follows same => ?_, fun w h follows aside => ?_, fun w w' follows others kept => ?_⟩
    · refine follows.trans (follows_state ?_)
      rw [SameSelector] at same
      rw [same]
      exact fun known => known
    · exact follows.trans (follows_push aside)
    · exact follows.trans (follows_others others kept)
  have same : ∀ s s', SameSelector s s' → failsOf chute id s' = failsOf chute id s := by
    intro s s' same
    rw [failsOf, same]
    rfl
  exact quiet.adds outlasts same ⟨rfl, rfl, fun known => known⟩

variable {again : Bool}

theorem setCache_adds (batch : Option Batch) (between : Between t chuteId chute id again n v) :
    Adds (Kept cfg) t (failsOf chute id) (setCache chuteId batch)
      (fun n' _ v' => Between t chuteId chute id again n' v') n v :=
  Adds.modify rfl (between.follow (follows_state fun known => known))

theorem takeFrom_adds (cached : Batch) (c : Cand) (reason : Selector.Reason)
    (known : (v.state.selector chuteId).isSome) (between : Between t chuteId chute id again n v) :
    Adds (Kept cfg) t (failsOf chute id) (takeFrom chuteId cached c reason)
      (fun n' taken v' => Handed t chuteId chute id again n' taken v') n v := by
  unfold takeFrom
  cases cached.instances[c.index]? with
  | none => exact between
  | some inst =>
      dsimp only
      cases removeNonce inst with
      | error e => trivial
      | ok removed =>
          apply Adds.modify rfl
          dsimp only [Routine.bind]
          cases nonceText removed.1 with
          | error e => trivial
          | ok nonce =>
              have follows : Follows t chuteId v { v with state := { v.state with
                  nonceCache := Function.update v.state.nonceCache chuteId
                    (some { cached with instances := cached.instances.set c.index removed.2 }) } } :=
                follows_state fun known => known
              exact (between.follow follows).handed (follows.2.2 known)
                ⟨⟨c.id, inst.e2ePubkey⟩, nonce, reason⟩

theorem takeNonce_adds (mode : Bytes) (between : Between t chuteId chute id again n v) :
    Adds (Kept cfg) t (failsOf chute id) (takeNonce cfg pf chuteId mode)
      (fun n' taken v' => Handed t chuteId chute id again n' taken v') n v := by
  dsimp only [takeNonce, getState, ngxNow, ask, modifyState, Routine.bind_eq, Routine.bind, Adds]
  cases v.state.nonceCache chuteId with
  | none => exact between
  | some cached =>
      dsimp only [Routine.bind, Adds]
      split
      · exact (setCache_adds none between).bind fun _ _ _ between => between
      · intro rolls
        apply Adds.modify
        · exact congrArg (fun stats : Stats => (stats.fails : ℤ)) (pick_stats _ _ _ _ _ _ _ _)
        · have follows : Follows t chuteId v
              { v.push t (.answered .roll rolls) with
                state := { v.state with
                  selector := (Selector.pick cfg pf v.clock rolls v.state.selector cached.instances
                    chuteId mode).1 } } :=
            (follows_push rfl).trans (follows_state fun known => pick_known _ _ _ _ _ _ _ known)
          have kept := between.follow follows
          split
          · exact (setCache_adds none kept).bind fun _ _ _ between => between
          · rename_i picked
            exact takeFrom_adds cached _ _ (picked_known _ _ _ _ _ _ picked) kept

theorem getNonce_adds (apiKey mode : Bytes) (between : Between t chuteId chute id again n v) :
    Adds (Kept cfg) t (failsOf chute id) (getNonce cfg pf chuteId apiKey mode)
      (fun n' got v' => Handed t chuteId chute id again n' got.toOption v') n v := by
  apply (takeNonce_adds mode between).bind
  intro n₁ first v₁ h₁
  cases first with
  | some taken => exact h₁
  | none =>
      have fetches : Quiet SameSelector (fun h => isAside h = true)
          (fetchInstances cfg pf chuteId apiKey) :=
        fetchInstances_quiet cfg pf (fun _ _ => rfl) (fun _ _ => rfl) (fun _ _ _ => rfl) chuteId apiKey
      apply (quiet_adds fetches).bind
      rintro _ batch v₂ ⟨rfl, follows⟩
      have h₂ := h₁.follow follows
      cases batch with
      | error err => exact h₂
      | ok batch =>
          refine (setCache_adds (some batch) h₂).bind fun n₃ _ v₃ h₃ => ?_
          apply (takeNonce_adds mode h₃).bind
          intro n₄ second v₄ h₄
          cases second with
          | some taken => exact h₄
          | none => exact h₄

variable {call : Call}

/-- Each instance that is rejected counts once. -/
theorem pickAttested_adds (picks : Nat) (err : Option Attest.AttestError)
    (between : Between t chuteId chute id again n v) :
    Adds (Kept cfg) t (failsOf chute id) (pickAttested cfg pf call chuteId picks err)
      (fun n' picked v' => Handed t chuteId chute id again n' picked.toOption v') n v := by
  induction picks generalizing n v err with
  | zero => exact between
  | succ picks ih =>
      apply (getNonce_adds _ _ between).bind
      intro n₁ got v₁ h₁
      cases got with
      | error err => exact h₁
      | ok taken =>
          have guards : Quiet SameSelector (fun h => isAside h = true)
              (Attest.guard cfg pf chuteId taken.inst.instanceId taken.inst.e2ePubkey
                call.apiKey) :=
            guard_quiet cfg pf (fun _ _ _ _ => rfl) (fun _ _ => rfl) (fun _ _ => rfl)
              (fun _ _ _ => rfl) _ _ _ _
          apply (quiet_adds guards).bind
          rintro _ guarded v₂ ⟨rfl, follows⟩
          have h₂ := h₁.follow follows
          cases guarded with
          | ok passed => exact h₂
          | error err =>
              have forgets : Quiet SameSelector (fun h => isAside h = true)
                  (Attest.invalidate taken.inst.instanceId) := ⟨fun _ => rfl, trivial⟩
              apply (quiet_adds forgets).bind
              rintro _ _ v₃ ⟨rfl, follows⟩
              have h₃ := h₂.follow follows
              apply (invalidateNonces_adds taken.inst.instanceId h₃.known).bind
              rintro _ _ v₄ ⟨rfl, follows⟩
              have passed := (h₃.follow follows).passes rfl (.inl rfl)
              rw [show (again || Exit.attestation == .nonce403) = again from Bool.or_false again]
                at passed
              exact ih (some err) passed

/-- The first attempt ends with a 403 of one kind or the other. -/
theorem ofSigns_forbidden (body : Bytes) :
    Exit.ofSigns false [.sealed true, .connected true, .answered (some 403), .body body] =
      some (if occurs (lit "nonce") body then .nonce403 else .other403) := by
  rw [Exit.ofSigns, Exit.ofAnswer, if_pos ⟨rfl, rfl⟩]

theorem send_adds {next : Option (Prog (Except Failure Reply))} {taken : Taken}
    {blob responseSk : Bytes} (last : next.isNone = again)
    (goes : ∀ p ∈ next, ∀ n v, Between t chuteId chute id true n v →
      Adds (Kept cfg) t (failsOf chute id) p
        (fun n' replied v' => Tried t chuteId chute id n' replied.toOption v') n v)
    (under : Under t chuteId chute id again taken [.sealed true] n v) :
    Adds (Kept cfg) t (failsOf chute id) (send cfg call next chuteId taken blob responseSk)
      (fun n' replied v' => Tried t chuteId chute id n' replied.toOption v') n v := by
  intro v₁ others₁ kept₁ connected
  have h₁ := under.awaited others₁ kept₁ (a := connected) rfl
  cases connected with
  | error err =>
      apply (dropInstance_adds taken.inst.instanceId h₁.known).bind
      rintro _ _ v₂ ⟨rfl, follows⟩
      exact .inr ((h₁.follow follows).endsOnce rfl rfl)
  | ok made =>
      intro v₂ others₂ kept₂ answer
      have h₂ := h₁.awaited others₂ kept₂ (a := answer) rfl
      cases answer with
      | error err =>
          apply (recordOutcome_adds taken.inst.instanceId none false).bind
          rintro _ _ v₃ ⟨rfl, follows⟩
          have h₃ := h₂.follow follows
          apply (dropInstance_adds taken.inst.instanceId h₃.known).bind
          rintro _ _ v₄ ⟨rfl, follows'⟩
          exact .inr ((h₂.follow (follows.trans follows')).endsTwice rfl rfl)
      | ok status =>
          dsimp only [ngxNow, Routine.bind_eq, Routine.bind, Adds]
          cases retries : next.filter fun _ => status = 403 with
          | none =>
              refine ⟨again, taken, rfl, fun is => ?_, h₂⟩
              rw [← last, Option.isNone_iff_eq_none]
              cases next with
              | none => rfl
              | some p => rw [Option.filter_some, if_pos (decide_eq_true is)] at retries; cases retries
          | some p =>
              obtain ⟨there, is⟩ := Option.filter_eq_some_iff.mp retries
              obtain rfl : status = 403 := of_decide_eq_true is
              obtain rfl : again = false := by
                rw [← last, there]
                rfl
              intro v₃ others₃ kept₃ body
              have h₃ := h₂.awaited others₃ kept₃ (a := body) rfl
              dsimp only [Routine.bind_eq, Routine.bind]
              by_cases names : occurs (lit "nonce") (body.getD [])
              · rw [if_pos names]
                apply (invalidateNonces_adds taken.inst.instanceId h₃.known).bind
                rintro _ _ v₄ ⟨rfl, follows⟩
                have ends := ofSigns_forbidden (body.getD [])
                rw [if_pos names] at ends
                exact goes p there _ _ ((h₃.follow follows).passes ends (.inr rfl))
              · rw [if_neg names]
                have ends := ofSigns_forbidden (body.getD [])
                rw [if_neg names] at ends
                exact .inr (h₃.endsNever ends rfl)

theorem attempt_adds {next : Option (Prog (Except Failure Reply))} (last : next.isNone = again)
    (goes : ∀ p ∈ next, ∀ n v, Between t chuteId chute id true n v →
      Adds (Kept cfg) t (failsOf chute id) p
        (fun n' replied v' => Tried t chuteId chute id n' replied.toOption v') n v)
    (between : Between t chuteId chute id again n v) :
    Adds (Kept cfg) t (failsOf chute id) (attempt cfg pf call next chuteId)
      (fun n' replied v' => Tried t chuteId chute id n' replied.toOption v') n v := by
  apply (pickAttested_adds 3 none between).bind
  intro n₁ picked v₁ h₁
  cases picked with
  | error failure => exact .inl ⟨again, h₁⟩
  | ok taken =>
      intro built
      have h₂ := h₁.sign (h := .answered (.build taken.inst call.bodyJson) built) rfl
      cases built with
      | error err => exact .inr (h₂.endsNever rfl rfl)
      | ok pair => exact send_adds last goes h₂

/-- The signs of an attempt that was answered. -/
def answeredWith (code : ℕ) : List Sign := [.sealed true, .connected true, .answered (some code)]

theorem finishWhole_adds {reply : Reply} {taken : Taken} (inst : reply.inst = taken.inst)
    (under : Under t chuteId chute id again taken (answeredWith 200) n v) :
    Adds (Kept cfg) t (failsOf chute id) (finishWhole cfg chuteId reply)
      (fun n' _ v' => Counted t chuteId chute id n' v') n v := by
  unfold finishWhole
  dsimp only
  rw [inst]
  intro v₁ others₁ kept₁ body
  have h₁ := under.awaited others₁ kept₁ (a := body) rfl
  dsimp only [Routine.bind]
  cases filled : body.filter fun body => body ≠ [] with
  | none =>
      have empty : body.getD [] = [] := by
        cases body with
        | none => rfl
        | some body =>
            change body = []
            by_contra some'
            rw [Option.filter_some, if_pos (decide_eq_true some')] at filled
            cases filled
      have ends : Exit.ofSigns again (answeredWith 200 ++ [.body (body.getD [])]) = some .empty := by
        rw [empty]
        rfl
      apply (recordOutcome_adds taken.inst.instanceId none false).bind
      rintro _ _ v₂ ⟨rfl, follows⟩
      exact .inr ((h₁.follow follows).endsOnce ends rfl)
  | some blob =>
      intro answer
      have h₂ := h₁.sign (h := .answered (.decryptResponse blob reply.responseSk) answer) rfl
      cases answer with
      | error err =>
          apply (recordOutcome_adds taken.inst.instanceId none false).bind
          rintro _ _ v₃ ⟨rfl, follows⟩
          exact .inr ((h₂.follow follows).endsOnce rfl rfl)
      | ok text =>
          apply (recordOutcome_adds taken.inst.instanceId (some reply.ttfb) true).bind
          rintro _ _ v₃ ⟨rfl, follows⟩
          rw [if_pos rfl, add_zero]
          exact .inr ((h₂.follow follows).endsNever rfl rfl)

theorem finishStream_adds {reply : Reply} {taken : Taken} (inst : reply.inst = taken.inst)
    (under : Under t chuteId chute id again taken (answeredWith 200) n v) :
    Adds (Kept cfg) t (failsOf chute id) (finishStream cfg chuteId reply)
      (fun n' _ v' => Counted t chuteId chute id n' v') n v := by
  unfold finishStream
  dsimp only
  rw [inst]
  intro v₁ others₁ kept₁ started
  have h₁ := under.awaited others₁ kept₁ (a := started) rfl
  cases started with
  | noReader => exact .inr (h₁.endsNever rfl rfl)
  | ended hadError =>
      cases hadError with
      | true =>
          apply (recordOutcome_adds taken.inst.instanceId none false).bind
          rintro _ _ v₂ ⟨rfl, follows⟩
          exact .inr ((h₁.follow follows).endsOnce rfl rfl)
      | false =>
          apply (recordOutcome_adds taken.inst.instanceId (some reply.ttfb) true).bind
          rintro _ _ v₂ ⟨rfl, follows⟩
          rw [if_pos rfl, add_zero]
          exact .inr ((h₁.follow follows).endsNever rfl rfl)
  | delivered =>
      apply (recordOutcome_adds taken.inst.instanceId _ true).bind
      rintro _ _ v₂ ⟨rfl, follows⟩ v₃ others₃ kept₃ hadError
      rw [if_pos rfl, add_zero]
      have h₃ := (h₁.follow follows).awaited others₃ kept₃ (a := hadError) rfl
      cases hadError with
      | true =>
          apply (recordOutcome_adds taken.inst.instanceId none false).bind
          rintro _ _ v₄ ⟨rfl, follows⟩
          exact .inr ((h₃.follow follows).endsOnce rfl rfl)
      | false => exact .inr (h₃.endsNever rfl rfl)

theorem finish_adds {reply : Reply} (replied : Replied t chuteId chute id reply n v) :
    Adds (Kept cfg) t (failsOf chute id) (finish cfg call chuteId reply)
      (fun n' _ v' => Counted t chuteId chute id n' v') n v := by
  obtain ⟨again, taken, inst, last, under⟩ := replied
  unfold finish
  dsimp only
  split
  · rename_i other
    rw [inst]
    intro v₁ others₁ kept₁ body
    have h₁ := under.awaited others₁ kept₁ (a := body) rfl
    have ends : Exit.ofSigns again (answeredWith reply.status ++ [.body (body.getD [])]) =
        some (.status reply.status) := by
      have first : ¬ (reply.status = 403 ∧ again = false) := by
        rintro ⟨is, first⟩
        cases (last is).symm.trans first
      change Exit.ofAnswer again reply.status [.body (body.getD [])] = _
      rw [Exit.ofAnswer, if_neg first, if_pos other]
    apply (recordOutcome_adds taken.inst.instanceId none false).bind
    rintro _ _ v₂ ⟨rfl, follows⟩
    have h₂ := h₁.follow follows
    split
    · rename_i server
      apply (dropInstance_adds taken.inst.instanceId h₂.known).bind
      rintro _ _ v₃ ⟨rfl, follows'⟩
      exact .inr ((h₁.follow (follows.trans follows')).endsTwice ends (if_pos server))
    · rename_i server
      exact .inr (h₂.endsOnce ends (if_neg server))
  · rename_i ok
    rw [not_not.mp ok] at under
    split
    · exact finishStream_adds inst under
    · exact finishWhole_adds inst under

theorem attempts_adds (between : Between t chuteId chute id false n v) :
    Adds (Kept cfg) t (failsOf chute id) (attempts cfg pf call chuteId)
      (fun n' replied v' => Tried t chuteId chute id n' replied.toOption v') n v := by
  refine attempt_adds rfl ?_ between
  rintro p ⟨⟩ n' v' between'
  exact attempt_adds rfl (fun _ none => absurd none (Option.not_mem_none _)) between'

/-- What a request adds to the failures of an instance is what its attempts count. -/
theorem roundTrip_adds (chute : Value) (id : Id) (fresh : seenBy t v = []) :
    Adds (Kept cfg) t (failsOf chute id) (e2eeRoundTrip cfg pf call)
      (fun n' _ v' => (n' = 0 ∧ chuteIn (seenBy t v') = none ∧ ended t v' = []) ∨
        ∃ chuteId, Counted t chuteId chute id n' v') 0 v := by
  have resolves : Quiet SameSelector (fun h => isAside h = true)
      (resolveChuteId cfg pf call.model call.apiKey) :=
    resolveChuteId_quiet cfg pf (fun _ _ _ => rfl) (fun _ _ => rfl) (fun _ _ _ => rfl) _ _
  have nothing : Adds (Kept cfg) t (failsOf chute id)
      (resolveChuteId cfg pf call.model call.apiKey)
      (fun n' _ v' => n' = 0 ∧ Follows t chute v v') 0 v := quiet_adds resolves
  apply nothing.bind
  rintro _ found v₁ ⟨rfl, attempts, chutes, -⟩
  rw [fresh] at attempts chutes
  cases found with
  | error err => exact .inl ⟨rfl, chutes, congrArg exits attempts⟩
  | ok chuteId =>
      have seen : seenBy t (v₁.push t (.recorded (.resolved call.model chuteId))) =
        .recorded (.resolved call.model chuteId) :: seenBy t v₁ := seenBy_push _
      have none : ended t (v₁.push t (.recorded (.resolved call.model chuteId))) = [] := by
        rw [ended, seen]
        exact congrArg exits attempts
      have between : Between t chuteId chute id false 0
          (v₁.push t (.recorded (.resolved call.model chuteId))) := by
        refine ⟨?_, ?_, ?_, ?_⟩
        · rw [seen]
          rfl
        · rw [none]
          exact fun _ mem => absurd mem List.not_mem_nil
        · rw [none]
          rfl
        · rw [none]
          rfl
      apply (attempts_adds between).bind
      intro n₂ replied v₂ h₂
      cases replied with
      | error failure => exact .inr ⟨chuteId, h₂⟩
      | ok reply => exact (finish_adds h₂).mono fun n₃ _ v₃ h₃ => .inr ⟨chuteId, h₃⟩

end Adding

end E2eeProxy.Handler
