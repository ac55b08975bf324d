import E2eeProxy.Sse

/-! # The SSE loop does not see network framing

`streamBody` works on the pieces the body reader happens to return. It is shown
to depend on the body as a whole only: on its newline-terminated lines and on
the unterminated rest. The reference below is the specification of the loop,
one recursion over those lines.
-/

namespace E2eeProxy.Sse

open Lua Crypto Lib

variable (rt : Runtime) (native : Native) (responseSk : Bytes)

/-- The calls for an unterminated last line: only chunk, passthrough and done
    events count, and the terminator follows unless a Lua error is raised. -/
def lastLineCalls (streamKey : Option Bytes) (last : Bytes) : List (Option Bytes) :=
  if last = [] then [none]
  else match processSseLine rt native responseSk last streamKey with
    | .error _ => []
    | .ok (.chunk data) | .ok (.passthrough data) => [some data, none]
    | .ok _ => [none]

/-- The calls for a list of complete lines followed by an unterminated one. -/
def lineCalls (last : Bytes) (streamKey : Option Bytes) : List Bytes → List (Option Bytes)
  | [] => lastLineCalls rt native responseSk streamKey last
  | line :: lines =>
      if line = [] then lineCalls last streamKey lines
      else match processSseLine rt native responseSk line streamKey with
        | .error _ => []
        | .ok .none => lineCalls last streamKey lines
        | .ok (.init key) => lineCalls last (some key) lines
        | .ok (.chunk data) | .ok (.passthrough data) =>
            some data :: lineCalls last streamKey lines
        | .ok .done => [none]
        | .ok (.error err) => [some (errorLine rt err), none]

/-- The reference: split the whole body at newlines, then go line by line. -/
def referenceCalls (body : Bytes) : List (Option Bytes) :=
  lineCalls rt native responseSk (splitLines newline body).2 none (splitLines newline body).1

namespace StreamState

@[simp] theorem reader_newline : (reader rt native responseSk).newline = newline := rfl

@[simp] theorem reader_stopped (s : StreamState) :
    (reader rt native responseSk).stopped s = s.stopped := rfl

@[simp] theorem reader_step (s : StreamState) (line : Bytes) :
    (reader rt native responseSk).step s line = s.handleLine rt native responseSk line := rfl

@[simp] theorem handle_raised (s : StreamState) (event : SseEvent) :
    (s.handle rt event).raised = s.raised := by
  cases event <;> rfl

theorem trailing_stopped {s : StreamState} (h : s.stopped) (buffer : Bytes) :
    s.trailing rt native responseSk buffer = s := by
  simp [trailing, h]

theorem finish_stopped {s : StreamState} (h : s.stopped) : s.finish = s := by
  simp [finish, h]

@[simp] theorem readEnd_stopped (s : StreamState) (readError : Option Bytes) :
    (s.readEnd readError).stopped = s.stopped := by
  simp only [readEnd]
  split <;> rfl

@[simp] theorem readEnd_streamKey (s : StreamState) (readError : Option Bytes) :
    (s.readEnd readError).streamKey = s.streamKey := by
  simp only [readEnd]
  split <;> rfl

@[simp] theorem readEnd_calls (s : StreamState) (readError : Option Bytes) :
    (s.readEnd readError).calls = s.calls := by
  simp only [readEnd]
  split <;> rfl

@[simp] theorem readEnd_raised (s : StreamState) (readError : Option Bytes) :
    (s.readEnd readError).raised = s.raised := by
  simp only [readEnd]
  split <;> rfl

end StreamState

open StreamState

/-- The loop in terms of the lines of the whole body. -/
theorem streamBody_eq (chunks : List Bytes) (readError : Option Bytes) :
    streamBody rt native responseSk chunks readError =
      ((((reader rt native responseSk).feed {} (splitLines newline chunks.flatten).1).readEnd
        readError).trailing rt native responseSk (splitLines newline chunks.flatten).2).finish := by
  have whole := (reader rt native responseSk).read_eq chunks [] {} rfl
  obtain ⟨state, rest⟩ := whole
  simp only [List.nil_append, reader_newline, reader_stopped] at state rest
  simp only [streamBody]
  by_cases stop : ((reader rt native responseSk).read chunks [] {}).2.stopped
  · have ended : ∀ err, (((reader rt native responseSk).read chunks [] {}).2.readEnd err).stopped := by
      intro err
      simp [readEnd, stop]
    rw [trailing_stopped rt native responseSk (ended readError)]
    rw [state] at ended ⊢
    rw [trailing_stopped rt native responseSk (ended readError)]
  · rw [rest (by simpa using stop), state]

variable (readError : Option Bytes) (last : Bytes)

/-- What is left of a stream once the loop is in state `s` and the complete
    lines `lines` and the unterminated line `last` are still to come. -/
def rest (s : StreamState) (lines : List Bytes) : StreamState :=
  ((((reader rt native responseSk).feed s lines).readEnd readError).trailing rt native responseSk
    last).finish

theorem rest_nil (s : StreamState) :
    rest rt native responseSk readError last s [] =
      ((s.readEnd readError).trailing rt native responseSk last).finish := rfl

theorem rest_stopped {s : StreamState} (h : s.stopped) (lines : List Bytes) :
    rest rt native responseSk readError last s lines = s := by
  have ended : s.readEnd readError = s := by simp [readEnd, h]
  rw [rest, LineReader.feed_stopped _ h, ended, trailing_stopped rt native responseSk h,
    finish_stopped h]

theorem rest_cons {s : StreamState} (running : s.stopped = false) (line : Bytes)
    (lines : List Bytes) :
    rest rt native responseSk readError last s (line :: lines) =
      rest rt native responseSk readError last (s.handleLine rt native responseSk line) lines := by
  simp [rest, LineReader.feed, running]

theorem lastLine_calls {s : StreamState} (running : s.stopped = false) :
    (s.trailing rt native responseSk last).finish.calls =
      s.calls ++ lastLineCalls rt native responseSk s.streamKey last := by
  obtain ⟨notDone, notRaised⟩ : s.doneSent = false ∧ s.raised = none := by
    simpa [stopped] using running
  by_cases empty : last = []
  · simp [trailing, finish, lastLineCalls, empty, running, onChunk]
  · simp only [trailing, lastLineCalls, empty, running]
    cases processSseLine rt native responseSk last s.streamKey with
    | error e => simp [finish, stopped]
    | ok event =>
        cases event <;>
          simp [finish, stopped, deliver, onChunk, notDone, notRaised]

theorem rest_calls (lines : List Bytes) {s : StreamState} (running : s.stopped = false) :
    (rest rt native responseSk readError last s lines).calls =
      s.calls ++ lineCalls rt native responseSk last s.streamKey lines := by
  induction lines generalizing s with
  | nil =>
      rw [rest_nil, lastLine_calls rt native responseSk last (by simpa using running)]
      simp [lineCalls]
  | cons line lines ih =>
      obtain ⟨notDone, notRaised⟩ : s.doneSent = false ∧ s.raised = none := by
        simpa [stopped] using running
      rw [rest_cons rt native responseSk readError last running]
      by_cases empty : line = []
      · simpa [handleLine, lineCalls, empty] using ih running
      · simp only [handleLine, lineCalls, empty, if_false]
        cases processSseLine rt native responseSk line s.streamKey with
        | error e =>
            rw [rest_stopped rt native responseSk readError last (by simp [stopped])]
            simp
        | ok event =>
            cases event with
            | none => exact ih running
            | init key =>
                exact ih (s := { s with streamKey := some key }) (by simpa [stopped] using running)
            | chunk data | passthrough data =>
                have next := ih (s := s.deliver data)
                  (by simp [stopped, deliver, onChunk, notDone, notRaised])
                simpa [handle, deliver, onChunk] using next
            | done =>
                rw [rest_stopped rt native responseSk readError last (by simp [handle, stopped])]
                simp [handle, onChunk]
            | error err =>
                rw [rest_stopped rt native responseSk readError last (by simp [handle, stopped])]
                simp [handle, onChunk]

theorem streamBody_eq_rest (chunks : List Bytes) :
    streamBody rt native responseSk chunks readError =
      rest rt native responseSk readError (splitLines newline chunks.flatten).2 {}
        (splitLines newline chunks.flatten).1 :=
  streamBody_eq rt native responseSk chunks readError

/-- The calls depend on the body alone, also when the last read failed. -/
theorem streamBody_calls (chunks : List Bytes) :
    (streamBody rt native responseSk chunks readError).calls =
      referenceCalls rt native responseSk chunks.flatten := by
  rw [streamBody_eq_rest, rest_calls rt native responseSk readError _ _ rfl]
  rfl

/-- However the body is cut into pieces, the `on_chunk` calls are those of the
    reference on the whole body. -/
theorem calls_framing_independent (chunks : List Bytes) :
    (streamBody rt native responseSk chunks none).calls =
      referenceCalls rt native responseSk chunks.flatten :=
  streamBody_calls rt native responseSk none chunks

end E2eeProxy.Sse
