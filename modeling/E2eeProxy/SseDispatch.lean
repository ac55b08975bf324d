import E2eeProxy.SseSteps

/-! # What one relay event can do

`Dispatch` lists every outcome of one event with the fields that lead to it, so
that what a run delivers, and how it fails, is a case analysis and never an
unfolding of `processEvent`.
-/

namespace E2eeProxy.Sse

open Lua Crypto Lib StreamState

variable (rt : Runtime) (native : Native) (responseSk : Bytes)

/-- The field is there with a truthy value. -/
def HasField (event : Value) (key : String) (v : Option Value) : Prop :=
  index (some event) key = .ok v ∧ truthy v

/-- The field can be read and is absent or `false`. -/
def LacksField (event : Value) (key : String) : Prop :=
  ∃ v, index (some event) key = .ok v ∧ truthy v = false

theorem HasField.not_lacks {event : Value} {key : String} {v : Option Value}
    (has : HasField event key v) : ¬ LacksField event key := by
  rintro ⟨w, read, falsy⟩
  rw [has.1, Except.ok.injEq] at read
  rw [← read, has.2] at falsy
  cases falsy

inductive Dispatch (line : Bytes) (streamKey : Option Bytes) (event : Value) :
    LuaM SseEvent → Prop where
  | unreadable (e) : (∀ key, index (some event) key = .error e) →
      Dispatch line streamKey event (.error e)
  | init (ct key) : HasField event "e2e_init" ct →
      decryptStreamInit native responseSk ct = .ok (.ok key) →
      Dispatch line streamKey event (.ok (.init key))
  | initFailed (ct err) : HasField event "e2e_init" ct →
      decryptStreamInit native responseSk ct = .ok (.error err) →
      Dispatch line streamKey event (.ok (.error ("stream init failed: " ++ err)))
  | initRaised (ct e) : HasField event "e2e_init" ct →
      decryptStreamInit native responseSk ct = .error e →
      Dispatch line streamKey event (.error e)
  | chunk (enc key plain) : LacksField event "e2e_init" → HasField event "e2e" enc →
      streamKey = some key → decryptStreamChunk native enc key = .ok (.ok plain) →
      Dispatch line streamKey event (.ok (.chunk plain))
  | chunkFailed (enc key err) : LacksField event "e2e_init" → HasField event "e2e" enc →
      streamKey = some key → decryptStreamChunk native enc key = .ok (.error err) →
      Dispatch line streamKey event (.ok (.error ("chunk decryption failed: " ++ err)))
  | chunkRaised (enc key e) : LacksField event "e2e_init" → HasField event "e2e" enc →
      streamKey = some key → decryptStreamChunk native enc key = .error e →
      Dispatch line streamKey event (.error e)
  | chunkBeforeInit (enc) : LacksField event "e2e_init" → HasField event "e2e" enc →
      streamKey = none →
      Dispatch line streamKey event (.ok (.error "received e2e chunk before e2e_init"))
  | usage (u) : LacksField event "e2e_init" → LacksField event "e2e" → HasField event "usage" u →
      Dispatch line streamKey event (.ok (.passthrough (stripCr line)))
  | relayError (v) : LacksField event "e2e_init" → LacksField event "e2e" →
      LacksField event "usage" → HasField event "e2e_error" (some v) →
      rt.encodes (.obj [(lit "error", v)]) →
      Dispatch line streamKey event
        (.ok (.chunk (lit "data: " ++ rt.encode (.obj [(lit "error", v)]))))
  | relayErrorRaised (v) : LacksField event "e2e_init" → LacksField event "e2e" →
      LacksField event "usage" → HasField event "e2e_error" (some v) →
      rt.encodes (.obj [(lit "error", v)]) = false →
      Dispatch line streamKey event (.error .concat)
  | ignored : LacksField event "e2e_init" → LacksField event "e2e" → LacksField event "usage" →
      LacksField event "e2e_error" → Dispatch line streamKey event (.ok .none)

theorem orElse_truthy {v : Value} (truly : truthy (some v)) (w : Value) : orElse (some v) w = v := by
  cases v with
  | bool b =>
      cases b with
      | false => cases truly
      | true => rfl
  | null | num | str | arr | obj => rfl

/-- A value either has every field readable or refuses all of them alike. -/
theorem index_readable (event : Value) :
    (∃ read : String → Option Value, ∀ key, index (some event) key = .ok (read key)) ∨
      ∃ e, ∀ key, index (some event) key = .error e := by
  cases event with
  | null | bool b | num q => exact .inr ⟨_, fun _ => rfl⟩
  | str s | arr items => exact .inl ⟨fun _ => none, fun _ => rfl⟩
  | obj fields => exact .inl ⟨fun key => fields.lookup (lit key), fun _ => rfl⟩

theorem processEvent_dispatch (line : Bytes) (streamKey : Option Bytes) (event : Value) :
    Dispatch rt native responseSk line streamKey event
      (processEvent rt native responseSk line streamKey event) := by
  rcases index_readable event with ⟨read, readable⟩ | ⟨e, refused⟩
  · have lacks : ∀ {key}, truthy (read key) = false → LacksField event key :=
      fun {key} falsy => ⟨read key, readable key, falsy⟩
    have has : ∀ {key}, truthy (read key) = true → HasField event key (read key) :=
      fun {key} holds => ⟨readable key, holds⟩
    simp only [processEvent, readable, pure, Except.pure, bind, Except.bind]
    cases hInit : truthy (read "e2e_init") with
    | true =>
        cases opened : decryptStreamInit native responseSk (read "e2e_init") with
        | error e => exact .initRaised _ e (has hInit) opened
        | ok result =>
            cases result with
            | error err => exact .initFailed _ err (has hInit) opened
            | ok key => exact .init _ key (has hInit) opened
    | false =>
        simp only [Bool.false_eq_true, if_false]
        cases hE2e : truthy (read "e2e") with
        | true =>
            simp only [if_true]
            cases streamKey with
            | none => exact .chunkBeforeInit _ (lacks hInit) (has hE2e) rfl
            | some key =>
                dsimp only
                cases opened : decryptStreamChunk native (read "e2e") key with
                | error e => exact .chunkRaised _ key e (lacks hInit) (has hE2e) rfl opened
                | ok result =>
                    cases result with
                    | error err => exact .chunkFailed _ key err (lacks hInit) (has hE2e) rfl opened
                    | ok plain => exact .chunk _ key plain (lacks hInit) (has hE2e) rfl opened
        | false =>
            simp only [Bool.false_eq_true, if_false]
            cases hUsage : truthy (read "usage") with
            | true => exact .usage _ (lacks hInit) (lacks hE2e) (has hUsage)
            | false =>
                cases hError : truthy (read "e2e_error") with
                | true =>
                    cases value : read "e2e_error" with
                    | none => rw [value] at hError; cases hError
                    | some v =>
                        have given : HasField event "e2e_error" (some v) := value ▸ has hError
                        simp only [if_true, Bool.false_eq_true, if_false, orElse_truthy given.2]
                        cases encodable : rt.encodes (.obj [(lit "error", v)]) with
                        | true =>
                            exact .relayError v (lacks hInit) (lacks hE2e) (lacks hUsage) given
                              encodable
                        | false =>
                            exact .relayErrorRaised v (lacks hInit) (lacks hE2e) (lacks hUsage) given
                              encodable
                | false => exact .ignored (lacks hInit) (lacks hE2e) (lacks hUsage) (lacks hError)
  · simp only [processEvent, refused, bind, Except.bind]
    exact .unreadable e refused

namespace Step

theorem result_of_event {step : Step} {event : Value} (h : step.event rt = some event) :
    step.result rt native responseSk =
      processEvent rt native responseSk step.line step.streamKey event := by
  simp only [Step.event] at h
  cases data : payload step.line with
  | none => simp [data] at h
  | some raw =>
      simp only [data] at h
      split at h
      · cases h
      · rename_i content
        obtain ⟨notDone, notEmpty⟩ := not_or.mp content
        simp [result, processSseLine, data, notDone, notEmpty, h]

theorem result_of_no_event {step : Step} (h : step.event rt = none) :
    step.result rt native responseSk = .ok .none ∨ step.result rt native responseSk = .ok .done := by
  simp only [Step.event] at h
  simp only [result, processSseLine]
  cases data : payload step.line with
  | none => exact .inl rfl
  | some raw =>
      simp only [data] at h
      by_cases isDone : raw = lit "[DONE]"
      · exact .inr (by simp [isDone])
      · by_cases isEmpty : raw = []
        · exact .inl (by simp [isEmpty, lit])
        · have undecoded : rt.decodeTruthy raw = none := by simpa [isDone, isEmpty] using h
          exact .inl (by simp [isDone, isEmpty, undecoded])

/-- A step whose result is not idle comes from an event, and in one of the ways
    `Dispatch` lists. -/
theorem dispatch (step : Step) :
    (step.event rt = none ∧ (step.result rt native responseSk = .ok .none ∨
        step.result rt native responseSk = .ok .done)) ∨
      ∃ event, step.event rt = some event ∧
        Dispatch rt native responseSk step.line step.streamKey event
          (step.result rt native responseSk) := by
  cases h : step.event rt with
  | none => exact .inl ⟨rfl, result_of_no_event rt native responseSk h⟩
  | some event =>
      refine .inr ⟨event, rfl, ?_⟩
      rw [result_of_event rt native responseSk h]
      exact processEvent_dispatch rt native responseSk step.line step.streamKey event

end Step

end E2eeProxy.Sse
