import E2eeProxy.HandlerSteps
import E2eeProxy.Lib.Account

/-! # What is counted of an instance

The statistics of an instance change by outcomes that are recorded, and in no other
way. That holds of every step of every request, so a chute that is known stays known.
-/

namespace E2eeProxy.Selector

open Lua

/-- `{ ewma = 0, n = 0, last = 0, fails = 0 }`. -/
def noStats : Stats := { ewma := 0, n := 0, last := 0, fails := 0 }

def statsOf (st : State) (chute : Value) (id : Id) : Stats :=
  ((chuteState st chute).stats id).getD noStats

section

variable (cfg : Config) (now : Rat)

/-- The statistics after one more outcome. -/
def outcome (ttft : Option Rat) (ok : Bool) (old : Stats) : Stats :=
  let counted := { old with fails := if ok then old.fails else old.fails + 1 }
  match sample cfg ttft ok old with
  | none => counted
  | some s =>
      if s < 0 then counted
      else { counted with
              ewma := if old.n = 0 then s
                else cfg.perfEwmaAlpha * s + (1 - cfg.perfEwmaAlpha) * old.ewma
              n := old.n + 1
              last := now }

/-- Outcomes were recorded, `k` of them failures. -/
inductive Sampled : ℕ → Stats → Stats → Prop
  | nothing (st : Stats) : Sampled 0 st st
  | served {k : ℕ} {st st' : Stats} (now : Rat) (ttft : Option Rat) (before : Sampled k st st') :
      Sampled k st (outcome cfg now ttft true st')
  | failed {k : ℕ} {st st' : Stats} (now : Rat) (ttft : Option Rat) (before : Sampled k st st') :
      Sampled (k + 1) st (outcome cfg now ttft false st')

variable {cfg now}

/-- A failure is counted, and is one sample of the average. -/
theorem outcome_failed (ttft : Option Rat) (old : Stats) :
    (outcome cfg now ttft false old).fails = old.fails + 1 ∧
      (outcome cfg now ttft false old).n = old.n + 1 := by
  have slow : ∃ s, sample cfg ttft false old = some s ∧ ¬ s < 0 :=
    ⟨_, rfl, not_lt.mpr (le_trans (by decide) (le_max_right _ (10 : Rat)))⟩
  obtain ⟨s, sampled, kept⟩ := slow
  unfold outcome
  rw [sampled]
  dsimp only
  rw [if_neg kept]
  exact ⟨rfl, rfl⟩

theorem outcome_served (ttft : Option Rat) (old : Stats) :
    (outcome cfg now ttft true old).fails = old.fails := by
  unfold outcome
  dsimp only
  split
  · rfl
  · split <;> rfl

theorem Sampled.fails {k : ℕ} {st st' : Stats} (sampled : Sampled cfg k st st') :
    st'.fails = st.fails + k := by
  induction sampled with
  | nothing st => rfl
  | served now ttft _ ih => rw [outcome_served, ih]
  | failed now ttft _ ih => rw [(outcome_failed ttft _).1, ih, add_assoc]

theorem Sampled.trans {k l : ℕ} {st st' st'' : Stats} (first : Sampled cfg k st st')
    (second : Sampled cfg l st' st'') : Sampled cfg (k + l) st st'' := by
  induction second with
  | nothing st => exact first
  | served now ttft _ ih => exact .served now ttft (ih first)
  | failed now ttft _ ih => exact .failed now ttft (ih first)

/-- One outcome is no failure, or one. -/
theorem sampled_outcome (ttft : Option Rat) (ok : Bool) (st : Stats) :
    Sampled cfg (if ok then 0 else 1) st (outcome cfg now ttft ok st) := by
  cases ok with
  | true => exact .served now ttft (.nothing st)
  | false => exact .failed now ttft (.nothing st)

/-! ## The calls -/

variable (st : State) (chute chute' : Value) (id id' : Id)

theorem record_eq (ttft : Option Rat) (ok : Bool) :
    record cfg now st chute id ttft ok = Function.update st chute (some
      { chuteState st chute with
        stats := Function.update (chuteState st chute).stats id
          (some (outcome cfg now ttft ok (statsOf st chute id))) }) := rfl

theorem statsOf_update {st : State} {chute : Value} {cs : ChuteState} :
    statsOf (Function.update st chute (some cs)) chute id = (cs.stats id).getD noStats := by
  rw [statsOf, chuteState, Function.update_self, Option.getD_some]

theorem statsOf_elsewhere {st : State} {chute chute' : Value} (differ : chute' ≠ chute)
    (cs : Option ChuteState) :
    statsOf (Function.update st chute' cs) chute id = statsOf st chute id := by
  rw [statsOf, chuteState, Function.update_of_ne (Ne.symm differ)]
  rfl

/-- What changes other things of a chute. -/
theorem statsOf_same {cs : ChuteState} (same : cs.stats = (chuteState st chute').stats) :
    statsOf (Function.update st chute' (some cs)) chute id = statsOf st chute id := by
  by_cases here : chute' = chute
  · subst here
    rw [statsOf_update, same]
    rfl
  · exact statsOf_elsewhere id here _

theorem record_stats (ttft : Option Rat) (ok : Bool) :
    statsOf (record cfg now st chute' id' ttft ok) chute id =
      if chute' = chute ∧ id' = id then outcome cfg now ttft ok (statsOf st chute id)
      else statsOf st chute id := by
  rw [record_eq]
  by_cases same : chute' = chute
  · subst same
    rw [statsOf_update]
    dsimp only
    by_cases this : id' = id
    · subst this
      rw [Function.update_self, Option.getD_some]
      exact (if_pos ⟨rfl, rfl⟩).symm
    · rw [Function.update_of_ne (Ne.symm this)]
      exact (if_neg fun both => this both.2).symm
  · rw [statsOf_elsewhere id same]
    exact (if_neg fun both => same both.1).symm

theorem update_known {st : State} {chute chute' : Value} (cs : ChuteState)
    (known : chute = chute' ∨ (st chute).isSome) :
    (Function.update st chute' (some cs) chute).isSome := by
  by_cases same : chute = chute'
  · subst same
    rw [Function.update_self]
    rfl
  · rw [Function.update_of_ne same]
    exact known.resolve_left same

theorem record_known (ttft : Option Rat) (ok : Bool) (known : (st chute).isSome) :
    (record cfg now st chute' id' ttft ok chute).isSome := update_known _ (.inr known)

/-- To invalidate an instance is a failure, if the chute is known. -/
theorem invalidate_stats :
    statsOf (invalidate cfg now st chute' (some id')) chute id =
      if (st chute').isSome ∧ chute' = chute ∧ id' = id then
        outcome cfg now none false (statsOf st chute id)
      else statsOf st chute id := by
  unfold invalidate
  cases known : st chute' with
  | none => rw [if_neg fun all => by cases all.1]
  | some cs =>
      dsimp only
      rw [record_stats, statsOf_same]
      · simp only [Option.isSome_some, true_and]
      · rw [chuteState, known, Option.getD_some]

theorem invalidate_known (known : (st chute).isSome) :
    (invalidate cfg now st chute' (some id') chute).isSome := by
  unfold invalidate
  cases there : st chute' with
  | none => exact known
  | some cs => exact record_known _ _ _ _ _ _ (update_known _ (.inr known))

variable (pf : Platform) (rolls : Rolls) (instances : List Instance) (mode : Bytes)

theorem choose_stats (cs : ChuteState) (cands : List Cand) (mode' : RouteMode) :
    (choose cfg pf now rolls mode' cs instances cands).1.stats = cs.stats := by
  cases mode' with
  | default | performance => rfl
  | balanced =>
      dsimp only [choose, pickBalanced]
      split <;> rfl
  | agent =>
      dsimp only [choose, pickAgent]
      split <;> rfl

/-- A pick looks at the statistics only. -/
theorem pick_stats :
    statsOf (pick cfg pf now rolls st instances chute' mode).1 chute id = statsOf st chute id := by
  unfold pick
  split
  · rfl
  · dsimp only
    split
    · exact statsOf_same st chute chute' id rfl
    · exact statsOf_same st chute chute' id (choose_stats pf rolls instances _ _ _)

theorem pick_known (known : (st chute).isSome) :
    ((pick cfg pf now rolls st instances chute' mode).1 chute).isSome := by
  unfold pick
  split
  · exact known
  · dsimp only
    split
    · exact update_known _ (.inr known)
    · exact update_known _ (.inr known)

/-- The chute of an instance that was picked is known. -/
theorem picked_known {picked : Cand × Reason}
    (some' : (pick cfg pf now rolls st instances chute mode).2 = some picked) :
    ((pick cfg pf now rolls st instances chute mode).1 chute).isSome := by
  unfold pick at some' ⊢
  split at some'
  · cases some'
  · rename_i listed
    rw [if_neg listed]
    dsimp only
    split
    · exact update_known _ (.inl rfl)
    · exact update_known _ (.inl rfl)

end

end E2eeProxy.Selector

namespace E2eeProxy.Handler

open Lua Lib Discovery Selector

/-! ## Every step of a request -/

/-- Chutes stay known, and statistics change by outcomes. -/
def Kept (cfg : Config) (s s' : ProxyState) : Prop :=
  (∀ chute, (s.selector chute).isSome → (s'.selector chute).isSome) ∧
  ∀ chute id, ∃ k, Sampled cfg k (statsOf s.selector chute id) (statsOf s'.selector chute id)

section Kept

variable {cfg : Config} {s s' : ProxyState}

theorem Kept.same (selector : s'.selector = s.selector) : Kept cfg s s' := by
  rw [Kept, selector]
  exact ⟨fun _ known => known, fun _ _ => ⟨0, .nothing _⟩⟩

theorem Kept.refl (s : ProxyState) : Kept cfg s s := .same rfl

theorem Kept.trans (s₁ s₂ s₃ : ProxyState) (first : Kept cfg s₁ s₂) (second : Kept cfg s₂ s₃) :
    Kept cfg s₁ s₃ := by
  refine ⟨fun chute known => second.1 chute (first.1 chute known), fun chute id => ?_⟩
  obtain ⟨k, before⟩ := first.2 chute id
  obtain ⟨l, after⟩ := second.2 chute id
  exact ⟨k + l, before.trans after⟩

theorem Kept.recorded (now : Rat) (chute : Value) (id : Id) (ttft : Option Rat) (ok : Bool) :
    Kept cfg s { s with selector := Selector.record cfg now s.selector chute id ttft ok } := by
  refine ⟨fun chute' known => record_known _ _ _ _ _ _ known, fun chute' id' => ?_⟩
  rw [record_stats]
  split
  · exact ⟨_, sampled_outcome ttft ok _⟩
  · exact ⟨0, .nothing _⟩

theorem Kept.dropped (now : Rat) (chute : Value) (id : Id) :
    Kept cfg s { s with selector := Selector.invalidate cfg now s.selector chute (some id) } := by
  refine ⟨fun chute' known => invalidate_known _ _ _ _ known, fun chute' id' => ?_⟩
  rw [invalidate_stats]
  split
  · exact ⟨_, sampled_outcome none false _⟩
  · exact ⟨0, .nothing _⟩

theorem Kept.picked (pf : Platform) (now : Rat) (rolls : Rolls) (instances : List Instance)
    (chute : Value) (mode : Bytes) :
    Kept cfg s
      { s with selector := (Selector.pick cfg pf now rolls s.selector instances chute mode).1 } := by
  refine ⟨fun chute' known => pick_known _ _ _ _ _ _ _ known, fun chute' id => ?_⟩
  rw [pick_stats]
  exact ⟨0, .nothing _⟩

end Kept

section Steps

variable (cfg : Config) (pf : Platform)

theorem lua_kept {β : Type} (x : LuaM β) : KeepsTo (Kept cfg) (lua x) :=
  (lua_quiet x : Quiet (Kept cfg) (fun _ => True) (lua x)).keeping

theorem setCache_kept (chuteId : Value) (batch : Option Batch) :
    KeepsTo (Kept cfg) (setCache chuteId batch) := fun _ => ⟨.same rfl, trivial⟩

theorem invalidateNonces_kept (chuteId : Value) (id : Id) :
    KeepsTo (Kept cfg) (invalidateNonces cfg chuteId (some id)) :=
  (setCache_kept cfg chuteId none).bind fun _ _ now => ⟨.dropped now chuteId id, trivial⟩

theorem recordOutcome_kept (chuteId : Value) (id : Id) (ttft : Option Rat) (ok : Bool) :
    KeepsTo (Kept cfg) (recordOutcome cfg chuteId id ttft ok) :=
  fun _ now => ⟨.recorded now chuteId id ttft ok, trivial⟩

theorem dropInstance_kept (chuteId : Value) (id : Id) :
    KeepsTo (Kept cfg) (dropInstance cfg chuteId id) :=
  fun _ now => ⟨.dropped now chuteId id, trivial⟩

theorem guard_kept (chuteId : Value) (id : Id) (pk : Option Value) (apiKey : Bytes) :
    KeepsTo (Kept cfg) (Attest.guard cfg pf chuteId id pk apiKey) := by
  have quiet : Quiet (Kept cfg) (fun _ => True) (Attest.guard cfg pf chuteId id pk apiKey) :=
    guard_quiet cfg pf (fun _ _ _ _ => .same rfl) (fun _ _ => trivial) (fun _ _ => trivial)
      (fun _ _ _ => trivial) chuteId id pk apiKey
  exact quiet.keeping

theorem takeFrom_kept (chuteId : Value) (cached : Batch) (c : Cand) (reason : Selector.Reason) :
    KeepsTo (Kept cfg) (takeFrom chuteId cached c reason) := by
  unfold takeFrom
  split
  · exact fun _ => trivial
  · refine (lua_kept cfg _).bind fun removed => (setCache_kept cfg _ _).bind fun _ => ?_
    exact (lua_kept cfg _).bind fun nonce _ => trivial

theorem takeNonce_kept (chuteId : Value) (mode : Bytes) :
    KeepsTo (Kept cfg) (takeNonce cfg pf chuteId mode) := by
  intro s
  dsimp only [takeNonce, getState, ngxNow, ask, modifyState, Routine.bind_eq, Routine.bind, Keeping]
  cases s.nonceCache chuteId with
  | none => trivial
  | some cached =>
      intro now
      dsimp only
      split
      · exact (setCache_kept cfg _ _).returns s
      · refine fun rolls => ⟨.picked pf now rolls _ _ _, ?_⟩
        split
        · exact (setCache_kept cfg _ _).returns _
        · exact takeFrom_kept cfg _ _ _ _ _

theorem getNonce_kept (chuteId : Value) (apiKey mode : Bytes) :
    KeepsTo (Kept cfg) (getNonce cfg pf chuteId apiKey mode) := by
  refine (takeNonce_kept cfg pf chuteId mode).bind fun first => ?_
  cases first with
  | some taken => exact fun _ => trivial
  | none =>
      have fetches : Quiet (Kept cfg) (fun _ => True) (fetchInstances cfg pf chuteId apiKey) :=
        fetchInstances_quiet cfg pf (fun _ _ => .same rfl) (fun _ _ => trivial) (fun _ _ _ => trivial)
          chuteId apiKey
      refine fetches.keeping.bind fun batch => ?_
      cases batch with
      | error err => exact fun _ => trivial
      | ok batch =>
          refine (setCache_kept cfg _ _).bind fun _ =>
            (takeNonce_kept cfg pf chuteId mode).bind fun second => ?_
          cases second <;> exact fun _ => trivial

variable (call : Call) (chuteId : Value)

theorem pickAttested_kept (picks : Nat) (err : Option Attest.AttestError) :
    KeepsTo (Kept cfg) (pickAttested cfg pf call chuteId picks err) := by
  induction picks generalizing err with
  | zero => exact fun _ => trivial
  | succ picks ih =>
      refine (getNonce_kept cfg pf chuteId _ _).bind fun got => ?_
      cases got with
      | error err => exact fun _ => trivial
      | ok taken =>
          refine (guard_kept cfg pf chuteId _ _ _).bind fun guarded => ?_
          cases guarded with
          | ok passed => exact fun _ => trivial
          | error err =>
              have forgets : KeepsTo (Kept cfg) (Attest.invalidate taken.inst.instanceId) :=
                fun _ => ⟨.same rfl, trivial⟩
              exact forgets.bind fun _ => (invalidateNonces_kept cfg _ _).bind fun _ => ih _

theorem send_kept {again : Option (Prog (Except Failure Reply))}
    (next : ∀ p ∈ again, KeepsTo (Kept cfg) p) (taken : Taken) (blob responseSk : Bytes) :
    KeepsTo (Kept cfg) (send cfg call again chuteId taken blob responseSk) := by
  intro _ s connected
  cases connected with
  | error err => exact (dropInstance_kept cfg _ _).returns s
  | ok made =>
      intro now s status
      cases status with
      | error err =>
          exact (recordOutcome_kept cfg _ _ _ _).bind (fun _ =>
            (dropInstance_kept cfg _ _).returns) s
      | ok status =>
          intro now'
          dsimp only [Routine.bind_eq, Routine.bind]
          split
          · trivial
          · rename_i p retries
            intro s body
            dsimp only [Routine.bind_eq, Routine.bind]
            split
            · have there := (Option.filter_eq_some_iff.mp retries).1
              exact (invalidateNonces_kept cfg _ _).bind (fun _ => next p there) s
            · trivial

theorem attempt_kept {again : Option (Prog (Except Failure Reply))}
    (next : ∀ p ∈ again, KeepsTo (Kept cfg) p) :
    KeepsTo (Kept cfg) (attempt cfg pf call again chuteId) := by
  refine (pickAttested_kept cfg pf call chuteId 3 none).bind fun picked => ?_
  cases picked with
  | error failure => exact fun _ => trivial
  | ok taken =>
      intro s built
      cases built with
      | error err => trivial
      | ok pair => exact send_kept cfg call chuteId next taken pair.1 pair.2 s

theorem finish_kept (reply : Reply) : KeepsTo (Kept cfg) (finish cfg call chuteId reply) := by
  have outcome (ttft : Option Rat) (ok : Bool) :
      KeepsTo (Kept cfg) (recordOutcome cfg chuteId reply.inst.instanceId ttft ok) :=
    recordOutcome_kept cfg chuteId reply.inst.instanceId ttft ok
  unfold finish
  dsimp only
  split
  · intro _ s body
    refine (outcome none false).bind (fun _ => ?_) s
    split
    · exact (dropInstance_kept cfg _ _).returns
    · exact fun _ => trivial
  · split
    · intro _ now s started
      cases started with
      | noReader => trivial
      | ended hadError =>
          cases hadError
          · exact (outcome _ _).returns s
          · exact (outcome _ _).returns s
      | delivered =>
          intro now'
          refine (outcome _ _).bind (fun _ => ?_) s
          intro _ s hadError
          cases hadError
          · trivial
          · exact (outcome _ _).returns s
    · intro _ s body
      dsimp only [Routine.bind]
      split
      · exact (outcome _ _).returns s
      · intro answer
        cases answer with
        | error err => exact (outcome _ _).returns s
        | ok text => exact (outcome _ _).returns s

theorem roundTrip_kept : KeepsTo (Kept cfg) (e2eeRoundTrip cfg pf call) := by
  have resolves : Quiet (Kept cfg) (fun _ => True)
      (resolveChuteId cfg pf call.model call.apiKey) :=
    resolveChuteId_quiet cfg pf (fun _ _ _ => .same rfl) (fun _ _ => trivial) (fun _ _ _ => trivial)
      _ _
  refine resolves.keeping.bind fun found => ?_
  cases found with
  | error err => exact fun _ => trivial
  | ok chuteId =>
      have second : KeepsTo (Kept cfg) (attempt cfg pf call none chuteId) :=
        attempt_kept cfg pf call chuteId (fun _ none => nomatch none)
      have both : KeepsTo (Kept cfg) (attempts cfg pf call chuteId) := by
        refine attempt_kept cfg pf call chuteId ?_
        rintro p ⟨⟩
        exact second
      refine both.bind fun replied => ?_
      cases replied with
      | error failure => exact fun _ => trivial
      | ok reply => exact finish_kept cfg call chuteId reply

end Steps

end E2eeProxy.Handler
