import E2eeProxy.SseFraming

/-! # The lines a stream hands to process_sse_line

A stream is observed as the list of lines the loop really handles, each with the
stream key it met. What `on_chunk` receives, whether the loop saw an error and
whether it raised are functions of these steps.
-/

namespace E2eeProxy.Sse

open Lua Crypto Lib StreamState

/-- One handled line; the unterminated last line is not `terminated`. -/
structure Step where
  line : Bytes
  streamKey : Option Bytes
  terminated : Bool

variable (rt : Runtime) (native : Native) (responseSk : Bytes)

namespace Step

/-- The JSON event a data line carries. -/
def event (step : Step) : Option Value :=
  match payload step.line with
  | none => none
  | some raw => if raw = lit "[DONE]" ∨ raw = [] then none else rt.decodeTruthy raw

def result (step : Step) : LuaM SseEvent :=
  processSseLine rt native responseSk step.line step.streamKey

/-- The line this step hands to `on_chunk`, the terminator apart. -/
def delivered (step : Step) : Option Bytes :=
  match step.result rt native responseSk with
  | .ok (.chunk data) | .ok (.passthrough data) => some data
  | .ok (.error err) => if step.terminated then some (errorLine rt err) else none
  | _ => none

/-- The line that is given to `deliver`; an error report is none. -/
def handedOver (step : Step) : Option Bytes :=
  match step.result rt native responseSk with
  | .ok (.chunk data) | .ok (.passthrough data) => some data
  | _ => none

def raises (step : Step) : Bool :=
  match step.result rt native responseSk with
  | .error _ => true
  | .ok _ => false

/-- The step ends the loop with an error event. -/
def reportsError (step : Step) : Bool :=
  match step.result rt native responseSk with
  | .ok (.error _) => step.terminated
  | _ => false

/-- The step installs a stream key. -/
def installs (step : Step) (key : Bytes) : Prop :=
  step.result rt native responseSk = .ok (.init key)

end Step

variable (last : Bytes)

/-- The steps for complete lines followed by an unterminated one. -/
def stepsFrom (streamKey : Option Bytes) : List Bytes → List Step
  | [] => if last = [] then [] else [⟨last, streamKey, false⟩]
  | line :: lines =>
      if line = [] then stepsFrom streamKey lines
      else ⟨line, streamKey, true⟩ ::
        match processSseLine rt native responseSk line streamKey with
        | .error _ | .ok .done | .ok (.error _) => []
        | .ok (.init key) => stepsFrom (some key) lines
        | .ok .none | .ok (.chunk _) | .ok (.passthrough _) => stepsFrom streamKey lines

/-- The loop handles every complete line: no done event, no error event and no
    Lua error ends it early. -/
def readsToEnd (streamKey : Option Bytes) : List Bytes → Bool
  | [] => true
  | line :: lines =>
      if line = [] then readsToEnd streamKey lines
      else match processSseLine rt native responseSk line streamKey with
        | .error _ | .ok .done | .ok (.error _) => false
        | .ok (.init key) => readsToEnd (some key) lines
        | .ok .none | .ok (.chunk _) | .ok (.passthrough _) => readsToEnd streamKey lines

/-- The steps of a whole body. -/
def steps (body : Bytes) : List Step :=
  stepsFrom rt native responseSk (splitLines newline body).2 none (splitLines newline body).1

section Run

variable (readError : Option Bytes)

theorem lastLineCalls_steps (streamKey : Option Bytes) :
    lastLineCalls rt native responseSk streamKey last =
      ((stepsFrom rt native responseSk last streamKey []).filterMap
          (Step.delivered rt native responseSk)).map some ++
        if (stepsFrom rt native responseSk last streamKey []).any (Step.raises rt native responseSk)
        then [] else [none] := by
  by_cases empty : last = []
  · simp [lastLineCalls, stepsFrom, empty]
  · simp only [lastLineCalls, stepsFrom, empty, if_false, List.any_cons, List.any_nil,
      Bool.or_false, List.filterMap_cons, List.filterMap_nil, Step.delivered, Step.raises,
      Step.result]
    cases processSseLine rt native responseSk last streamKey with
    | error e => simp
    | ok event => cases event <;> simp

theorem lineCalls_steps (streamKey : Option Bytes) (lines : List Bytes) :
    lineCalls rt native responseSk last streamKey lines =
      ((stepsFrom rt native responseSk last streamKey lines).filterMap
          (Step.delivered rt native responseSk)).map some ++
        if (stepsFrom rt native responseSk last streamKey lines).any
          (Step.raises rt native responseSk) then [] else [none] := by
  induction lines generalizing streamKey with
  | nil => exact lastLineCalls_steps rt native responseSk last streamKey
  | cons line lines ih =>
      by_cases empty : line = []
      · simpa [lineCalls, stepsFrom, empty] using ih streamKey
      · simp only [lineCalls, stepsFrom, empty, if_false, List.any_cons, List.filterMap_cons,
          Step.delivered, Step.raises, Step.result]
        cases processSseLine rt native responseSk line streamKey with
        | error e => simp
        | ok event => cases event <;> simp [ih]

/-- The calls of a stream: what its steps deliver, then the terminator unless a
    step raised. -/
theorem streamBody_calls_steps (chunks : List Bytes) :
    (streamBody rt native responseSk chunks readError).calls =
      ((steps rt native responseSk chunks.flatten).filterMap
          (Step.delivered rt native responseSk)).map some ++
        if (steps rt native responseSk chunks.flatten).any (Step.raises rt native responseSk)
        then [] else [none] := by
  rw [streamBody_calls]
  exact lineCalls_steps rt native responseSk _ none _

/-- How a stream ends: it raises when one of its steps does, and it has seen an
    error when a step reports one or when the reader fails after the last line. -/
theorem rest_ends (lines : List Bytes) {s : StreamState} (running : s.stopped = false) :
    (rest rt native responseSk readError last s lines).raised.isSome =
        (stepsFrom rt native responseSk last s.streamKey lines).any
          (Step.raises rt native responseSk) ∧
      (rest rt native responseSk readError last s lines).hadError =
        (s.hadError ||
          (stepsFrom rt native responseSk last s.streamKey lines).any
            (Step.reportsError rt native responseSk) ||
          (readError.isSome && readsToEnd rt native responseSk s.streamKey lines)) := by
  induction lines generalizing s with
  | nil =>
      have notRaised : s.raised = none := by
        simpa [stopped] using (Bool.or_eq_false_iff.mp running).2
      have running' : (s.readEnd readError).stopped = false := by simpa using running
      have ended : (s.readEnd readError).hadError = (s.hadError || readError.isSome) := by
        simp [readEnd, running]
      have finished : ∀ t : StreamState,
          t.finish.raised = t.raised ∧ t.finish.hadError = t.hadError := by
        intro t
        simp only [finish]
        split <;> exact ⟨rfl, rfl⟩
      rw [rest_nil, (finished _).1, (finished _).2]
      by_cases empty : last = []
      · simp [trailing, stepsFrom, readsToEnd, empty, notRaised, ended]
      · simp only [trailing, empty, running', stepsFrom, readsToEnd, Step.raises,
          Step.reportsError, Step.result, if_false, List.any_cons, List.any_nil, Bool.or_false,
          readEnd_streamKey]
        cases processSseLine rt native responseSk last s.streamKey with
        | error e => simp [ended]
        | ok event => cases event <;> simp [deliver, onChunk, notRaised, ended]
  | cons line lines ih =>
      obtain ⟨notDone, notRaised⟩ : s.doneSent = false ∧ s.raised = none := by
        simpa [stopped] using running
      rw [rest_cons rt native responseSk readError last running]
      by_cases empty : line = []
      · simpa [handleLine, stepsFrom, readsToEnd, empty] using ih running
      · simp only [handleLine, stepsFrom, readsToEnd, empty, if_false, List.any_cons,
          Step.raises, Step.reportsError, Step.result]
        cases processSseLine rt native responseSk line s.streamKey with
        | error e =>
            rw [rest_stopped rt native responseSk readError last (by simp [stopped])]
            simp
        | ok event =>
            cases event with
            | none => simpa [handle] using ih running
            | init key =>
                simpa [handle] using ih (s := { s with streamKey := some key })
                  (by simpa [stopped] using running)
            | chunk data | passthrough data =>
                simpa [handle, deliver, onChunk] using ih (s := s.deliver data)
                  (by simp [stopped, deliver, onChunk, notDone, notRaised])
            | done | error err =>
                rw [rest_stopped rt native responseSk readError last (by simp [handle, stopped])]
                simp [handle, onChunk, notRaised]

end Run

/-- Every key in use was installed by an earlier step. -/
theorem stepsFrom_key (lines : List Bytes) (streamKey : Option Bytes) {pre post : List Step}
    {step : Step} {key : Bytes}
    (split : stepsFrom rt native responseSk last streamKey lines = pre ++ step :: post)
    (inUse : step.streamKey = some key) :
    streamKey = some key ∨ ∃ earlier ∈ pre, earlier.installs rt native responseSk key := by
  induction lines generalizing streamKey pre with
  | nil =>
      simp only [stepsFrom] at split
      split at split
      · simp at split
      · cases pre with
        | nil =>
            simp only [List.nil_append, List.cons.injEq] at split
            rw [← split.1] at inUse
            exact .inl inUse
        | cons p ps => simp at split
  | cons line lines ih =>
      simp only [stepsFrom] at split
      split at split
      · exact ih streamKey split
      · cases pre with
        | nil =>
            simp only [List.nil_append, List.cons.injEq] at split
            rw [← split.1] at inUse
            exact .inl inUse
        | cons p ps =>
            simp only [List.cons_append, List.cons.injEq] at split
            obtain ⟨rfl, tail⟩ := split
            have later : ∀ k, stepsFrom rt native responseSk last k lines = ps ++ step :: post →
                k = some key ∨ ∃ earlier ∈ ps, earlier.installs rt native responseSk key :=
              fun k hk => ih k hk
            cases processed : processSseLine rt native responseSk line streamKey with
            | error e => simp [processed] at tail
            | ok event =>
                cases event with
                | done | error err => simp [processed] at tail
                | init fresh =>
                    simp only [processed] at tail
                    rcases later _ tail with same | ⟨earlier, member, installs⟩
                    · obtain rfl := Option.some.inj same
                      exact .inr ⟨_, List.mem_cons_self, processed⟩
                    · exact .inr ⟨earlier, List.mem_cons_of_mem _ member, installs⟩
                | none | chunk data | passthrough data =>
                    simp only [processed] at tail
                    rcases later _ tail with same | ⟨earlier, member, installs⟩
                    · exact .inl same
                    · exact .inr ⟨earlier, List.mem_cons_of_mem _ member, installs⟩

end E2eeProxy.Sse
