import E2eeProxy.Discovery

/-! # What discovery leaves alone

Each routine of the discovery changes its own part of the state only, and asks
for nothing but its own documents.
-/

namespace E2eeProxy.Discovery

open Lua Lib

variable {keeps : ProxyState → ProxyState → Prop} {plain : Happening proxy → Prop}

theorem lua_quiet {β : Type} (x : LuaM β) : Quiet keeps plain (lua x) := by
  cases x <;> trivial

section

variable (routes : ∀ s cache selector,
  keeps s { s with nonceCache := cache, selector := selector })
include routes

theorem setCache_quiet (chuteId : Value) (batch : Option Batch) :
    Quiet keeps plain (setCache chuteId batch) := ⟨fun s => routes s _ s.selector, trivial⟩

theorem invalidateNonces_quiet (cfg : Config) (chuteId : Value) (instanceId : Option Id) :
    Quiet keeps plain (invalidateNonces cfg chuteId instanceId) :=
  ⟨fun s => routes s _ s.selector, fun _ => ⟨fun s => routes s s.nonceCache _, trivial⟩⟩

variable (cfg : Config) (pf : Platform)
  (rolls : ∀ a, plain (.answered .roll a)) (handed : ∀ taken, plain (.recorded (.handedOut taken)))
include handed

theorem takeFrom_quiet (chuteId : Value) (cached : Batch) (c : Selector.Cand)
    (reason : Selector.Reason) : Quiet keeps plain (takeFrom chuteId cached c reason) := by
  unfold takeFrom
  split
  · trivial
  · refine (lua_quiet _).bind fun removed => ?_
    refine (setCache_quiet routes _ _).bind fun _ => (lua_quiet _).bind fun nonce => ?_
    exact ⟨handed _, trivial⟩

include rolls

theorem takeNonce_quiet (chuteId : Value) (mode : Bytes) :
    Quiet keeps plain (takeNonce cfg pf chuteId mode) := by
  intro s
  dsimp only [Routine.bind]
  cases s.nonceCache chuteId with
  | none => trivial
  | some cached =>
      intro now
      dsimp only [Routine.bind]
      split
      · exact (setCache_quiet routes _ _).bind fun _ => trivial
      · refine fun a => ⟨rolls a, fun s' => routes s' s'.nonceCache _, ?_⟩
        dsimp only [Routine.bind]
        split
        · exact (setCache_quiet routes _ _).bind fun _ => trivial
        · exact takeFrom_quiet routes handed _ _ _ _

end

section

variable (cfg : Config) (pf : Platform)

theorem receiveInstances_quiet (tables : ∀ s n, keeps s { s with tables := n })
    (answer : Except Bytes Response) : Quiet keeps plain (receiveInstances pf answer) := by
  unfold receiveInstances
  split
  · trivial
  · split
    · trivial
    · refine fun now s => (lua_quiet _).bind fun read => ?_
      cases read with
      | none => trivial
      | some read => exact ⟨fun s => tables s _, trivial⟩

theorem fetchInstances_quiet (tables : ∀ s n, keeps s { s with tables := n })
    (asked : ∀ url apiKey, plain (.asked (.instances url apiKey)))
    (answered : ∀ url apiKey a, plain (.answered (.instances url apiKey) a)) (chuteId : Value)
    (apiKey : Bytes) : Quiet keeps plain (fetchInstances cfg pf chuteId apiKey) :=
  (lua_quiet _).bind fun _ => ⟨asked _ _, fun a => ⟨answered _ _ a, receiveInstances_quiet pf tables a⟩⟩

theorem getNonce_quiet
    (routes : ∀ s cache selector, keeps s { s with nonceCache := cache, selector := selector })
    (rolls : ∀ a, plain (.answered .roll a)) (handed : ∀ taken, plain (.recorded (.handedOut taken)))
    (tables : ∀ s n, keeps s { s with tables := n })
    (asked : ∀ url apiKey, plain (.asked (.instances url apiKey)))
    (answered : ∀ url apiKey a, plain (.answered (.instances url apiKey) a)) (chuteId : Value)
    (apiKey mode : Bytes) : Quiet keeps plain (getNonce cfg pf chuteId apiKey mode) := by
  have takes := takeNonce_quiet routes cfg pf rolls handed chuteId mode
  refine takes.bind fun first => ?_
  cases first with
  | some taken => trivial
  | none =>
      refine (fetchInstances_quiet cfg pf tables asked answered chuteId apiKey).bind fun batch => ?_
      cases batch with
      | error err => trivial
      | ok batch =>
          refine (setCache_quiet routes _ _).bind fun _ => takes.bind fun second => ?_
          cases second <;> trivial

/-! ## Models -/

theorem checkConfidential_quiet (model : Value) (entry : Option ModelEntry) :
    Quiet keeps plain (checkConfidential cfg pf model entry) := by
  unfold checkConfidential
  split
  · exact (lua_quiet _).bind fun _ => trivial
  · split
    · exact (lua_quiet _).bind fun _ => trivial
    · trivial

variable (models : ∀ s map expires,
    keeps s { s with modelMap := map, modelMapExpires := expires })
  (asked : ∀ url apiKey, plain (.asked (.models url apiKey)))
  (answered : ∀ url apiKey a, plain (.answered (.models url apiKey) a))
include models asked answered

theorem refreshModels_quiet (model : Value) (apiKey : Bytes) (now : Rat) :
    Quiet keeps plain (refreshModels cfg pf model apiKey now) := by
  have fetches : Quiet keeps plain (fetchModelMap cfg pf apiKey) := by
    refine ⟨asked _ _, fun a => ⟨answered _ _ a, ?_⟩⟩
    cases a with
    | error err => trivial
    | ok res =>
        dsimp only [Routine.bind]
        split
        · trivial
        · split
          · trivial
          · refine (lua_quiet _).bind fun map => ?_
            cases map <;> trivial
  refine fetches.bind fun fetched => ?_
  cases fetched with
  | error err =>
      intro s
      dsimp only [Routine.bind]
      split
      · exact checkConfidential_quiet cfg pf model _
      · exact (lua_quiet _).bind fun _ => trivial
  | ok map => exact ⟨fun s => models s _ _, checkConfidential_quiet cfg pf model _⟩

theorem resolveChuteId_quiet (model : Value) (apiKey : Bytes) :
    Quiet keeps plain (resolveChuteId cfg pf model apiKey) := by
  refine (lua_quiet _).bind fun uuid => ?_
  cases uuid with
  | true => trivial
  | false =>
      intro now s
      dsimp only [Routine.bind]
      split
      · exact checkConfidential_quiet cfg pf model _
      · exact refreshModels_quiet cfg pf models asked answered model apiKey now

end

end E2eeProxy.Discovery
