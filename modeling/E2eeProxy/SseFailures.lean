import E2eeProxy.SseDispatch

/-! # How a broken stream ends

A stream breaks when the body reader fails before the stream is done or when an
encrypted event does not open. The loop has one exit that tells the client: an
error event on a complete line. The other exits end in the bare terminator.
-/

namespace E2eeProxy.Sse

open Lua Crypto Lib StreamState

variable (rt : Runtime) (native : Native) (responseSk : Bytes)

/-- The step's e2e_init event yields no key, or its e2e event no plaintext: no
    key yet, a bad ciphertext or tag, or a field that is not a string. -/
def Step.Fails (step : Step) : Prop :=
  ∃ event, step.event rt = some event ∧
    ((∃ ct, HasField event "e2e_init" ct ∧
        ∀ key, decryptStreamInit native responseSk ct ≠ .ok (.ok key)) ∨
      (LacksField event "e2e_init" ∧ ∃ enc, HasField event "e2e" enc ∧
        ∀ key, step.streamKey = some key →
          ∀ plain, decryptStreamChunk native enc key ≠ .ok (.ok plain)))

/-- `data: ` followed by an object with an error field. -/
def IsErrorLine (d : Bytes) : Prop :=
  ∃ fields v, fields.lookup (lit "error") = some v ∧ d = lit "data: " ++ rt.encode (.obj fields)

/-- Some encrypted event fails to open, or the reader fails before the stream
    is done. -/
def Broken (chunks : List Bytes) (readError : Option Bytes) : Prop :=
  (readError.isSome ∧
      readsToEnd rt native responseSk none (splitLines newline chunks.flatten).1) ∨
    ∃ step ∈ steps rt native responseSk chunks.flatten, step.Fails rt native responseSk

/-- The client hears of the failure before the terminator, and so does the
    request counter. -/
def ReportsFailure (s : StreamState) : Prop :=
  ∃ before, s.calls = before ++ [none] ∧ (∃ d, some d ∈ before ∧ IsErrorLine rt d) ∧
    ∃ outcome, s.outcome = some outcome ∧ outcome ≠ .ok

theorem errorLine_isErrorLine (err : String) : IsErrorLine rt (errorLine rt err) :=
  ⟨_, _, List.lookup_cons_self, rfl⟩

/-- An event fails exactly when its line makes an error event or, inside the
    decryption call, a Lua error. -/
theorem Step.reportsError_iff {step : Step} (calm : step.raises rt native responseSk = false) :
    step.reportsError rt native responseSk ↔ step.terminated ∧ step.Fails rt native responseSk := by
  simp only [reportsError, raises] at calm ⊢
  rcases step.dispatch rt native responseSk with ⟨noEvent, idle⟩ | ⟨event, read, outcome⟩
  · have notFails : ¬ step.Fails rt native responseSk := by
      rintro ⟨event, read, _⟩
      rw [noEvent] at read
      cases read
    rcases idle with idle | idle <;> simp [idle, notFails]
  · have sameEvent : ∀ event', step.event rt = some event' → event' = event :=
      fun event' read' => Option.some.inj (read'.symm.trans read)
    generalize made : step.result rt native responseSk = result at calm outcome ⊢
    cases outcome with
    | unreadable | initRaised | chunkRaised | relayErrorRaised => simp at calm
    | initFailed ct err has opened =>
        refine ⟨fun t => ⟨t, event, read, .inl ⟨ct, has, ?_⟩⟩, fun h => h.1⟩
        simp [opened]
    | chunkFailed enc key err lacks has inUse opened =>
        refine ⟨fun t => ⟨t, event, read, .inr ⟨lacks, enc, has, ?_⟩⟩, fun h => h.1⟩
        intro key' inUse' plain
        obtain rfl : key = key' := Option.some.inj (inUse.symm.trans inUse')
        simp [opened]
    | chunkBeforeInit enc lacks has absent =>
        refine ⟨fun t => ⟨t, event, read, .inr ⟨lacks, enc, has, ?_⟩⟩, fun h => h.1⟩
        intro key' inUse'
        rw [absent] at inUse'
        cases inUse'
    | init ct key has opened =>
        simp only [Bool.false_eq_true, false_iff, not_and]
        rintro _ ⟨event', read', failed⟩
        obtain rfl := sameEvent event' read'
        rcases failed with ⟨ct', has', never⟩ | ⟨lacks, _⟩
        · obtain rfl : ct = ct' := Except.ok.inj (has.1.symm.trans has'.1)
          exact never key opened
        · exact has.not_lacks lacks
    | chunk enc key plain lacks has inUse opened =>
        simp only [Bool.false_eq_true, false_iff, not_and]
        rintro _ ⟨event', read', failed⟩
        obtain rfl := sameEvent event' read'
        rcases failed with ⟨ct', has', _⟩ | ⟨_, enc', has', never⟩
        · exact has'.not_lacks lacks
        · obtain rfl : enc = enc' := Except.ok.inj (has.1.symm.trans has'.1)
          exact never key inUse plain opened
    | usage _ lacksInit lacksE2e | relayError _ lacksInit lacksE2e | ignored lacksInit lacksE2e =>
        simp only [Bool.false_eq_true, false_iff, not_and]
        rintro _ ⟨event', read', failed⟩
        obtain rfl := sameEvent event' read'
        rcases failed with ⟨ct', has', _⟩ | ⟨_, enc', has', _⟩
        · exact has'.not_lacks lacksInit
        · exact has'.not_lacks lacksE2e

theorem Step.delivers_errorLine {step : Step} (h : step.reportsError rt native responseSk) :
    ∃ d, step.delivered rt native responseSk = some d ∧ IsErrorLine rt d := by
  simp only [reportsError] at h
  split at h
  · rename_i err made
    exact ⟨errorLine rt err, by simp [delivered, made, h], errorLine_isErrorLine rt err⟩
  · cases h

/-- The request counter hears of a failure exactly when the loop saw an error and
    raised none. -/
theorem outcome_notOk_iff (s : StreamState) :
    (∃ outcome, s.outcome = some outcome ∧ outcome ≠ .ok) ↔
      s.raised.isSome = false ∧ s.hadError = true := by
  unfold StreamState.outcome
  cases s.raised <;> cases s.hadError <;> simp

/-- The failure is reported exactly when nothing raises and either an error
    event is among the steps or the reader failed and some step delivered an
    error line. -/
theorem reportsFailure_iff (chunks : List Bytes) (readError : Option Bytes) :
    ReportsFailure rt (streamBody rt native responseSk chunks readError) ↔
      (∀ step ∈ steps rt native responseSk chunks.flatten,
          step.raises rt native responseSk = false) ∧
        ((∃ step ∈ steps rt native responseSk chunks.flatten,
            step.reportsError rt native responseSk) ∨
          (readError.isSome ∧
            readsToEnd rt native responseSk none (splitLines newline chunks.flatten).1 ∧
            ∃ step ∈ steps rt native responseSk chunks.flatten, ∃ d,
              step.delivered rt native responseSk = some d ∧ IsErrorLine rt d)) := by
  have calls := streamBody_calls_steps rt native responseSk readError chunks
  obtain ⟨raised, hadError⟩ := rest_ends rt native responseSk
    (splitLines newline chunks.flatten).2 readError (splitLines newline chunks.flatten).1
    (s := {}) rfl
  rw [← streamBody_eq_rest] at raised hadError
  change _ = (steps rt native responseSk chunks.flatten).any _ at raised
  change _ = (false || (steps rt native responseSk chunks.flatten).any _ || _) at hadError
  generalize streamBody rt native responseSk chunks readError = s at calls raised hadError ⊢
  generalize steps rt native responseSk chunks.flatten = handled at calls raised hadError ⊢
  constructor
  · rintro ⟨before, ends, ⟨d, member, isError⟩, counted⟩
    obtain ⟨calm, sawError⟩ := (outcome_notOk_iff s).mp counted
    have quiet : ∀ step ∈ handled, step.raises rt native responseSk = false := by
      rw [calm] at raised
      intro step inside
      by_contra raises
      exact Bool.false_ne_true (raised.trans
        (List.any_eq_true.mpr ⟨step, inside, by simpa using raises⟩))
    refine ⟨quiet, ?_⟩
    rw [sawError] at hadError
    simp only [Bool.false_or] at hadError
    cases (Bool.or_eq_true _ _).mp hadError.symm with
    | inl reported => exact .inl (List.any_eq_true.mp reported)
    | inr readFailed =>
        obtain ⟨failed, toEnd⟩ := (Bool.and_eq_true _ _).mp readFailed
        refine .inr ⟨failed, toEnd, ?_⟩
        rw [← raised, calm] at calls
        obtain rfl : before = (handled.filterMap (Step.delivered rt native responseSk)).map some :=
          List.append_cancel_right (ends.symm.trans calls)
        obtain ⟨step, inside, handed⟩ := by simpa using member
        exact ⟨step, inside, d, handed, isError⟩
  · rintro ⟨quiet, told⟩
    have noRaise : handled.any (Step.raises rt native responseSk) = false := by
      simpa using quiet
    rw [noRaise] at raised calls
    have delivered : ∃ step ∈ handled, ∃ d,
        step.delivered rt native responseSk = some d ∧ IsErrorLine rt d := by
      rcases told with ⟨step, inside, reports⟩ | ⟨_, _, sent⟩
      · exact ⟨step, inside, step.delivers_errorLine rt native responseSk reports⟩
      · exact sent
    have sawError : s.hadError = true := by
      rw [hadError]
      rcases told with ⟨step, inside, reports⟩ | ⟨failed, toEnd, _⟩
      · simp [List.any_eq_true.mpr ⟨step, inside, reports⟩]
      · simp [failed, toEnd]
    obtain ⟨step, inside, d, handed, isError⟩ := delivered
    refine ⟨_, by simpa using calls, ⟨d, ?_, isError⟩, (outcome_notOk_iff s).mpr ⟨raised, sawError⟩⟩
    exact List.mem_map.mpr ⟨d, List.mem_filterMap.mpr ⟨step, inside, handed⟩, rfl⟩

end E2eeProxy.Sse
