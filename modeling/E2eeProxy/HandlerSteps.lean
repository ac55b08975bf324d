import E2eeProxy.DiscoverySteps
import E2eeProxy.Handler

/-! # The steps of a round trip

Attestation changes its own tables only, and what follows the attempts changes
the state of the selector only. So what a request is to keep to is a matter of how
it gets a nonce, has its instance attested and makes its POST.
-/

namespace E2eeProxy.Handler

open Lua Lib Discovery

variable {keeps : ProxyState → ProxyState → Prop} {plain : Happening proxy → Prop}

/-! ## Attestation -/

section Attest

variable (cfg : Config) (pf : Platform)
  (attests : ∀ s good verified failed,
    keeps s { s with goodUrlTemplate := good, verified := verified, failed := failed })
  (random : ∀ n a, plain (.answered (.random n) a))
  (asked : ∀ url apiKey, plain (.asked (.evidence url apiKey)))
  (answered : ∀ url apiKey a, plain (.answered (.evidence url apiKey) a))
include attests

theorem invalidate_quiet (id : Id) : Quiet keeps plain (Attest.invalidate id) :=
  ⟨fun s => attests s s.goodUrlTemplate _ _, trivial⟩

theorem observeFailure_quiet (id : Id) (pk : Option Value) :
    Quiet keeps plain (Attest.observeFailure cfg pf id pk) :=
  (lua_quiet _).bind fun _ => fun _ => ⟨fun s => attests s s.goodUrlTemplate s.verified _, trivial⟩

include asked answered

theorem tryTemplates_quiet (chuteId instanceId : Value) (nonceHex apiKey : Bytes)
    (templates : List Bytes) (last : Attest.FetchError) : Quiet keeps plain
      (Attest.tryTemplates cfg pf chuteId instanceId nonceHex apiKey templates last) := by
  induction templates generalizing last with
  | nil => trivial
  | cons template rest ih =>
      refine (lua_quiet _).bind fun url => ⟨asked _ _, fun a => ⟨answered _ _ a, ?_⟩⟩
      cases a with
      | error err => exact ih _
      | ok res =>
          dsimp only [Routine.bind]
          split
          · exact ih _
          · split
            · exact ih _
            · exact ⟨fun s => attests s _ s.verified s.failed, trivial⟩

theorem fetchEvidence_quiet (chuteId instanceId : Value) (nonceHex apiKey : Bytes) : Quiet keeps plain
    (Attest.fetchEvidence cfg pf chuteId instanceId nonceHex apiKey) :=
  fun _ => tryTemplates_quiet cfg pf attests asked answered _ _ _ _ _ _

include random

theorem verify_quiet (chuteId : Value) (id : Id) (pk : Option Value) (apiKey : Bytes) :
    Quiet keeps plain (Attest.verify cfg pf chuteId id pk apiKey) := by
  unfold Attest.verify
  split
  · trivial
  · refine (lua_quiet _).bind fun print now s => ?_
    dsimp only [Routine.bind]
    split
    · trivial
    · refine fun nonce => ⟨random _ _, ?_⟩
      dsimp only [Routine.bind]
      split
      · trivial
      · refine (fetchEvidence_quiet cfg pf attests asked answered _ _ _ _).bind fun fetched => ?_
        cases fetched with
        | error err => trivial
        | ok found =>
            refine (lua_quiet _).bind fun judged => ?_
            cases judged with
            | error err => trivial
            | ok details => exact ⟨fun s => attests s s.goodUrlTemplate _ _, trivial⟩

theorem guard_quiet (chuteId : Value) (id : Id) (pk : Option Value) (apiKey : Bytes) :
    Quiet keeps plain (Attest.guard cfg pf chuteId id pk apiKey) := by
  unfold Attest.guard
  split
  · trivial
  · have known : Quiet keeps plain (Attest.knownFailure cfg pf id pk) := by
      unfold Attest.knownFailure
      split
      · exact (lua_quiet _).bind fun _ => fun _ _ => trivial
      · trivial
    refine known.bind fun passed => ?_
    cases passed with
    | true => trivial
    | false =>
        refine (verify_quiet cfg pf attests random asked answered _ _ _ _).bind fun verified => ?_
        cases verified with
        | ok how => trivial
        | error err =>
            dsimp only
            split
            · exact observeFailure_quiet cfg pf attests _ _
            · trivial

end Attest

/-! ## The response -/

section Response

variable (cfg : Config) (selects : ∀ s selector, keeps s { s with selector := selector })
include selects

theorem recordOutcome_quiet (chuteId : Value) (id : Id) (ttft : Option Rat) (ok : Bool) :
    Quiet keeps plain (recordOutcome cfg chuteId id ttft ok) :=
  fun _ => ⟨fun s => selects s _, trivial⟩

theorem dropInstance_quiet (chuteId : Value) (id : Id) :
    Quiet keeps plain (dropInstance cfg chuteId id) := fun _ => ⟨fun s => selects s _, trivial⟩

variable (reading : plain (.asked .readBody)) (body : ∀ a, plain (.answered .readBody a))
  (decrypted : ∀ blob sk a, plain (.answered (.decryptResponse blob sk) a))
  (starting : ∀ sk, plain (.asked (.streamStart sk)))
  (started : ∀ sk a, plain (.answered (.streamStart sk) a))
  (resting : plain (.asked .streamRest)) (rested : ∀ a, plain (.answered .streamRest a))
include reading body decrypted starting started resting rested

theorem finish_quiet (call : Call) (chuteId : Value) (reply : Reply) :
    Quiet keeps plain (finish cfg call chuteId reply) := by
  have outcome (ttft : Option Rat) (ok : Bool) : Quiet keeps plain
      (recordOutcome cfg chuteId reply.inst.instanceId ttft ok) :=
    recordOutcome_quiet cfg selects chuteId reply.inst.instanceId ttft ok
  unfold finish
  dsimp only
  split
  · refine ⟨reading, fun a => ⟨body a, (outcome _ _).bind fun _ => ?_⟩⟩
    split
    · exact (dropInstance_quiet cfg selects _ _).bind fun _ => trivial
    · trivial
  · split
    · refine fun begun => ⟨starting _, fun a => ⟨started _ a, ?_⟩⟩
      cases a with
      | noReader => trivial
      | ended hadError =>
          cases hadError
          · exact (outcome _ _).bind fun _ => trivial
          · exact (outcome _ _).bind fun _ => trivial
      | delivered =>
          refine fun now => (outcome _ _).bind fun _ => ⟨resting, fun hadError => ⟨rested _, ?_⟩⟩
          cases hadError
          · trivial
          · exact (outcome _ _).bind fun _ => trivial
    · refine ⟨reading, fun a => ⟨body a, ?_⟩⟩
      dsimp only [Routine.bind]
      split
      · exact (outcome _ _).bind fun _ => trivial
      · refine fun answer => ⟨decrypted _ _ _, ?_⟩
        cases answer with
        | error err => exact (outcome _ _).bind fun _ => trivial
        | ok text => exact (outcome _ _).bind fun _ => trivial

end Response

/-! ## The round trip -/

/-- What a round trip does besides resolving the model, getting a nonce, attestation,
    sealing and the POST. -/
structure Incidental (cfg : Config) (keeps : ProxyState → ProxyState → Prop)
    (plain : Happening proxy → Prop) : Prop where
  selects : ∀ s selector, keeps s { s with selector := selector }
  rejects : ∀ id, Quiet keeps plain (Attest.invalidate id)
  forgets : ∀ chuteId id, Quiet keeps plain (invalidateNonces cfg chuteId id)
  connecting : plain (.asked .connect)
  connected : ∀ a, plain (.answered .connect a)
  reading : plain (.asked .readBody)
  read : ∀ a, plain (.answered .readBody a)
  decrypted : ∀ blob sk a, plain (.answered (.decryptResponse blob sk) a)
  starting : ∀ sk, plain (.asked (.streamStart sk))
  started : ∀ sk a, plain (.answered (.streamStart sk) a)
  resting : plain (.asked .streamRest)
  rested : ∀ a, plain (.answered .streamRest a)

theorem Incidental.mono {cfg : Config} {plain' : Happening proxy → Prop}
    (h : Incidental cfg keeps plain) (weaker : ∀ what, plain what → plain' what) :
    Incidental cfg keeps plain' where
  selects := h.selects
  rejects id := (h.rejects id).mono weaker
  forgets chuteId id := (h.forgets chuteId id).mono weaker
  connecting := weaker _ h.connecting
  connected a := weaker _ (h.connected a)
  reading := weaker _ h.reading
  read a := weaker _ (h.read a)
  decrypted blob sk a := weaker _ (h.decrypted blob sk a)
  starting sk := weaker _ (h.starting sk)
  started sk a := weaker _ (h.started sk a)
  resting := weaker _ h.resting
  rested a := weaker _ (h.rested a)

section RoundTrip

variable {cfg : Config} {pf : Platform} {call : Call} {chuteId : Value}
  {admits : View proxy → (r : Request) → r.Answer → Prop} {inv : View proxy → Prop} {t : ℕ}
  (incidental : Incidental cfg keeps plain)
include incidental

/-- A pick gets a nonce and has its instance attested; what the request knew before
    it knows again once an instance is rejected. -/
theorem pickAttested_holds {fact : View proxy → Prop} (got picked : Taken → View proxy → Prop)
    (stable : Stable inv fact t keeps plain)
    (gets : ∀ v, fact v → Holds admits inv t (getNonce cfg pf chuteId call.apiKey call.mode)
      (fun result v' => match result with
        | .error _ => inv v'
        | .ok taken => got taken v') v)
    (guards : ∀ taken v, got taken v → Holds admits inv t
      (Attest.guard cfg pf chuteId taken.inst.instanceId taken.inst.e2ePubkey call.apiKey)
      (fun result v' => match result with
        | .error _ => fact v'
        | .ok _ => picked taken v') v)
    (picks : Nat) (err : Option Attest.AttestError) {v : View proxy} (h : fact v) :
    Holds admits inv t (pickAttested cfg pf call chuteId picks err)
      (fun result v' => match result with
        | .error _ => inv v'
        | .ok taken => picked taken v') v := by
  induction picks generalizing v err with
  | zero => exact stable.implies v h
  | succ picks ih =>
      apply (gets v h).bind
      intro result v₁ h₁
      cases result with
      | error err => exact h₁
      | ok taken =>
          apply (guards taken v₁ h₁).bind
          intro guarded v₂ h₂
          cases guarded with
          | ok passed => exact h₂
          | error err =>
              refine ((incidental.rejects _).holds stable h₂).bind fun _ v₃ h₃ => ?_
              refine ((incidental.forgets _ _).holds stable h₃).bind fun _ v₄ h₄ => ?_
              exact ih (some err) h₄

/-- The POST is made in a state that is ready for it. A second attempt goes on from
    what is known once the first POST was answered 403 and the body names a nonce. -/
theorem send_holds {again : Option (Prog (Except Failure Reply))} {taken : Taken}
    {blob responseSk : Bytes} {ready posted forbidden refused : View proxy → Prop}
    (inv_stable : Stable inv inv t keeps plain) (ready_stable : Stable inv ready t keeps plain)
    (posted_stable : Stable inv posted t keeps plain)
    (forbidden_stable : Stable inv forbidden t keeps plain)
    (refused_stable : Stable inv refused t keeps plain)
    (posts : ∀ v, ready v → posted (v.push t (.asked (.invoke (invocation call chuteId taken blob)))))
    (answers : ∀ v status, posted v →
      inv (v.push t (.answered (.invoke (invocation call chuteId taken blob)) status)))
    (forbids : ∀ v, posted v →
      forbidden (v.push t (.answered (.invoke (invocation call chuteId taken blob)) (.ok 403))))
    (refuses : ∀ v body, forbidden v → occurs (lit "nonce") body = true →
      refused (v.push t (.answered .readBody (some body))))
    (next : ∀ p ∈ again, ∀ v, refused v → Holds admits inv t p (fun _ => inv) v)
    {v : View proxy} (h : ready v) :
    Holds admits inv t (send cfg call again chuteId taken blob responseSk) (fun _ => inv) v := by
  have drops : Quiet keeps plain (dropInstance cfg chuteId taken.inst.instanceId) :=
    dropInstance_quiet cfg incidental.selects _ _
  have records : Quiet keeps plain (recordOutcome cfg chuteId taken.inst.instanceId none false) :=
    recordOutcome_quiet cfg incidental.selects _ _ _ _
  have connecting := ready_stable.push v _ h incidental.connecting
  refine ⟨ready_stable.implies _ connecting, ?_⟩
  intro v₁ inv₁ others₁ connected _
  have h₁ := ready_stable.push v₁ _ (ready_stable.others _ v₁ connecting inv₁ others₁)
    (incidental.connected connected)
  cases connected with
  | error err =>
      exact (drops.holds inv_stable (ready_stable.implies _ h₁)).bind fun _ _ kept => kept
  | ok made =>
      have sent := posts _ h₁
      refine ⟨posted_stable.implies _ sent, ?_⟩
      intro v₂ inv₂ others₂ status _
      have waited := posted_stable.others _ v₂ sent inv₂ others₂
      have answered := answers v₂ status waited
      cases status with
      | error err =>
          refine (records.holds inv_stable answered).bind fun _ v₃ h₃ => ?_
          exact (drops.holds inv_stable h₃).bind fun _ _ kept => kept
      | ok status =>
          dsimp only [ngxNow, Routine.bind_eq, Routine.bind, Holds]
          split
          · exact answered
          · rename_i p retries
            obtain ⟨there, is⟩ := Option.filter_eq_some_iff.mp retries
            obtain rfl : status = 403 := by simpa using is
            have reading := forbidden_stable.push _ _ (forbids v₂ waited) incidental.reading
            refine ⟨forbidden_stable.implies _ reading, ?_⟩
            intro v₃ inv₃ others₃ body _
            have h₃ := forbidden_stable.others _ v₃ reading inv₃ others₃
            dsimp only [Routine.bind_eq, Routine.bind]
            split
            · rename_i names
              cases body with
              | none => cases names
              | some body =>
                  refine ((incidental.forgets _ _).holds refused_stable
                    (refuses v₃ body h₃ names)).bind fun _ v₄ h₄ => ?_
                  exact next p there v₄ h₄
            · exact forbidden_stable.implies _
                (forbidden_stable.push v₃ _ h₃ (incidental.read body))

omit incidental in
/-- An attempt picks an instance, seals and sends. -/
theorem attempt_holds {again : Option (Prog (Except Failure Reply))}
    (picked ready : Taken → View proxy → Prop)
    (seals : ∀ taken v a, picked taken v →
      ready taken (v.push t (.answered (.build taken.inst call.bodyJson) a)))
    (implies : ∀ taken v, ready taken v → inv v)
    (sends : ∀ taken blob responseSk v, ready taken v →
      Holds admits inv t (send cfg call again chuteId taken blob responseSk) (fun _ => inv) v)
    {v : View proxy} (picks : Holds admits inv t (pickAttested cfg pf call chuteId 3 none)
      (fun result v' => match result with
        | .error _ => inv v'
        | .ok taken => picked taken v') v) :
    Holds admits inv t (attempt cfg pf call again chuteId) (fun _ => inv) v := by
  apply picks.bind
  intro result v' h'
  cases result with
  | error failure => exact h'
  | ok taken =>
      intro answer _
      have ready := seals taken v' answer h'
      cases answer with
      | error err => exact implies taken _ ready
      | ok pair => exact sends taken pair.1 pair.2 _ ready

theorem roundTrip_holds (begun : Value → View proxy → Prop) (stable : Stable inv inv t keeps plain)
    (tries : ∀ chuteId v, begun chuteId v →
      Holds admits inv t (attempts cfg pf call chuteId) (fun _ => inv) v)
    {v : View proxy} (resolves : Holds admits inv t (resolveChuteId cfg pf call.model call.apiKey)
      (fun result v' => match result with
        | .error _ => inv v'
        | .ok chuteId => begun chuteId (v'.push t (.recorded (.resolved call.model chuteId)))) v) :
    Holds admits inv t (e2eeRoundTrip cfg pf call) (fun _ => inv) v := by
  apply resolves.bind
  intro found v₁ h₁
  cases found with
  | error err => exact h₁
  | ok chuteId =>
      apply (tries chuteId _ h₁).bind
      intro replied v₂ h₂
      cases replied with
      | error failure => exact h₂
      | ok reply =>
          have finishes : Quiet keeps plain (finish cfg call chuteId reply) :=
            finish_quiet cfg incidental.selects incidental.reading incidental.read
              incidental.decrypted incidental.starting incidental.started incidental.resting
              incidental.rested call chuteId reply
          exact finishes.holds stable h₂

end RoundTrip

end E2eeProxy.Handler
