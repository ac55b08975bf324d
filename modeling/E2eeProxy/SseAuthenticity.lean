import E2eeProxy.SseDispatch

/-! # Where the lines of a streamed answer come from

The relay sees and forges every line of the event stream; only what opens under
the stream key is authenticated. A usage event is passed through as it stands,
so it is the one door through which relay content can reach the client.
-/

namespace E2eeProxy.Sse

open Lua Crypto Lib StreamState

variable (rt : Runtime) (native : Native) (responseSk : Bytes)

namespace Step

/-- `d` is the plaintext of this step's e2e event under a key that an e2e_init
    event among the `earlier` steps led to. -/
def Authentic (earlier : List Step) (step : Step) (d : Bytes) : Prop :=
  ∃ event enc key, step.event rt = some event ∧ HasField event "e2e" enc ∧
    step.streamKey = some key ∧ decryptStreamChunk native enc key = .ok (.ok d) ∧
    ∃ first ∈ earlier, ∃ opening ct, first.event rt = some opening ∧
      HasField opening "e2e_init" ct ∧ decryptStreamInit native responseSk ct = .ok (.ok key)

/-- `d` is an object with an error field only, made here and not passed through. -/
def ErrorReport (step : Step) (d : Bytes) : Prop :=
  (∃ v, d = lit "data: " ++ rt.encode (.obj [(lit "error", v)])) ∧
    step.result rt native responseSk ≠ .ok (.passthrough d)

/-- `d` is this step's own line and reports usage without any choices. -/
def BareUsage (step : Step) (d : Bytes) : Prop :=
  d = stripCr step.line ∧ ∃ event u, step.event rt = some event ∧ HasField event "usage" u ∧
    index (some event) "choices" = .ok none

/-- An unencrypted event that carries usage and choices at once. -/
def Smuggles (step : Step) : Prop :=
  ∃ event u choices, step.event rt = some event ∧ LacksField event "e2e_init" ∧
    LacksField event "e2e" ∧ HasField event "usage" u ∧
    index (some event) "choices" = .ok (some choices)

theorem event_of_installs {step : Step} {key : Bytes} (h : step.installs rt native responseSk key) :
    ∃ event ct, step.event rt = some event ∧ HasField event "e2e_init" ct ∧
      decryptStreamInit native responseSk ct = .ok (.ok key) := by
  simp only [installs] at h
  rcases step.dispatch rt native responseSk with ⟨_, idle | idle⟩ | ⟨event, read, outcome⟩
  · rw [h] at idle; cases idle
  · rw [h] at idle; cases idle
  · rw [h] at outcome
    cases outcome with
    | init ct key has opened => exact ⟨event, ct, read, has, opened⟩

/-- Every delivered line is authentic, an error report or the line of a usage
    event that carries no ciphertext. -/
theorem delivered_cases {earlier : List Step} {step : Step} {d : Bytes}
    (keyed : ∀ key, step.streamKey = some key →
      ∃ first ∈ earlier, first.installs rt native responseSk key)
    (h : step.delivered rt native responseSk = some d) :
    Authentic rt native responseSk earlier step d ∨ step.ErrorReport rt native responseSk d ∨
      ∃ event u, step.event rt = some event ∧ LacksField event "e2e_init" ∧
        LacksField event "e2e" ∧ HasField event "usage" u ∧ d = stripCr step.line := by
  rcases step.dispatch rt native responseSk with ⟨_, idle | idle⟩ | ⟨event, read, outcome⟩
  · simp [delivered, idle] at h
  · simp [delivered, idle] at h
  · simp only [delivered] at h
    generalize made : step.result rt native responseSk = result at h outcome
    cases outcome with
    | unreadable | init | initRaised | chunkRaised | relayErrorRaised | ignored => simp at h
    | initFailed ct err | chunkFailed enc key err | chunkBeforeInit enc =>
        refine .inr (.inl ⟨?_, by simp [made]⟩)
        simp only [Option.ite_none_right_eq_some, Option.some.injEq] at h
        exact ⟨_, h.2.symm⟩
    | chunk enc key plain lacks has inUse opened =>
        obtain rfl : plain = d := by simpa using h
        obtain ⟨first, member, installs⟩ := keyed key inUse
        exact .inl ⟨event, enc, key, read, has, inUse, opened, first, member,
          event_of_installs rt native responseSk installs⟩
    | usage u lacksInit lacksE2e has =>
        obtain rfl : stripCr step.line = d := by simpa using h
        exact .inr (.inr ⟨event, u, read, lacksInit, lacksE2e, has, rfl⟩)
    | relayError v lacksInit lacksE2e lacksUsage has encodable =>
        refine .inr (.inl ⟨⟨v, ?_⟩, by simp [made]⟩)
        simpa using h.symm

theorem smuggles_result {step : Step} (h : step.Smuggles rt) :
    step.result rt native responseSk = .ok (.passthrough (stripCr step.line)) := by
  obtain ⟨event, u, choices, read, lacksInit, lacksE2e, has, _⟩ := h
  rcases step.dispatch rt native responseSk with ⟨noEvent, _⟩ | ⟨event', read', outcome⟩
  · rw [read] at noEvent; cases noEvent
  · obtain rfl : event = event' := Option.some.inj (read.symm.trans read')
    generalize made : step.result rt native responseSk = result at outcome ⊢
    cases outcome with
    | usage => rfl
    | unreadable e refused => rw [HasField, refused] at has; cases has.1
    | init ct key found | initFailed ct err found | initRaised ct e found =>
        exact absurd lacksInit found.not_lacks
    | chunk enc key plain _ found | chunkFailed enc key err _ found
    | chunkRaised enc key e _ found | chunkBeforeInit enc _ found =>
        exact absurd lacksE2e found.not_lacks
    | relayError v _ _ lacks | relayErrorRaised v _ _ lacks | ignored _ _ lacks =>
        exact absurd lacks has.not_lacks

end Step

/-- What the client may trust about a streamed answer: every line handed to
    `on_chunk` is authentic, an error report or a bare usage report. -/
def KeepsRelayOut (body : Bytes) : Prop :=
  ∀ earlier step later, steps rt native responseSk body = earlier ++ step :: later →
    ∀ d, step.delivered rt native responseSk = some d →
      Step.Authentic rt native responseSk earlier step d ∨
        step.ErrorReport rt native responseSk d ∨ step.BareUsage rt d

theorem steps_keyed {body : Bytes} {earlier later : List Step} {step : Step}
    (split : steps rt native responseSk body = earlier ++ step :: later) (key : Bytes)
    (inUse : step.streamKey = some key) :
    ∃ first ∈ earlier, first.installs rt native responseSk key := by
  cases stepsFrom_key rt native responseSk _ _ none split inUse with
  | inl absent => cases absent
  | inr found => exact found

/-- A usage event of the relay with a content delta of its own. -/
def smuggledJson : Bytes :=
  lit "\x7b\"usage\":\x7b\x7d,\"choices\":[\x7b\"delta\":\x7b\"content\":\"x\"\x7d\x7d]\x7d"

def smuggledEvent : Value :=
  .obj [(lit "usage", .obj []),
    (lit "choices", .arr [.obj [(lit "delta", .obj [(lit "content", .str (lit "x"))])]])]

def smuggledRuntime : Runtime := .ofDocuments [(smuggledJson, smuggledEvent)]

end E2eeProxy.Sse
