import E2eeProxy.ClaudeStream
import E2eeProxy.ResponsesStream

/-! # Error reports in a translated stream

`e2ee_round_trip` reports an error of the stream to its caller as one more line,
an object with an `error` field. Neither translator reads that field: whatever
surrounds the line, the client sees no error event and the same final status.
-/

namespace E2eeProxy

open Lua Lib OpenAi

/-- `data: ` and a JSON object with an `error` field and without choices. -/
def IsErrorReport (rt : Runtime) (line : Bytes) : Prop :=
  startsWith (lit "data: ") line ∧
    ∃ fields, decodeChunk rt line = some (.obj fields) ∧
      (fields.lookup (lit "error")).isSome ∧ fields.lookup (lit "choices") = none

/-- What a client sees of a stream: the types of its events and its final status. -/
structure Outcome (σ : Type) where
  names : List String
  status : σ
  deriving DecidableEq

/-- The event types that report an error to a client. -/
def errorNames : List String := ["error", "response.failed"]

/-- The client is told of an error that it would not be told of otherwise. -/
def Outcome.ErrorShown {σ : Type} (normal : σ → Prop) (reported without : Outcome σ) : Prop :=
  (∃ name ∈ reported.names, name ∈ errorNames) ∨
    ¬ normal reported.status ∧ reported.status ≠ without.status

/-- The two streams end, and the error is seen in the one with the report. -/
def ErrorSurvives {σ : Type} (normal : σ → Prop) (outcome : List Bytes → LuaM (Outcome σ))
    (before : List Bytes) (report : Bytes) (after : List Bytes) : Prop :=
  ∃ reported without, outcome (before ++ report :: after) = .ok reported ∧
    outcome (before ++ after) = .ok without ∧ reported.ErrorShown normal without

/-- A report carries a chunk without a choice. -/
theorem IsErrorReport.onLine {rt : Runtime} {line : Bytes} (report : IsErrorReport rt line)
    {σ ε : Type} {handle : σ → Chunk → LuaM (σ × List ε)} {st : σ} {next : σ × List ε}
    (handled : onLine rt handle st line = .ok next) :
    ∃ chunk, chunk.choice = none ∧ handle st chunk = .ok next := by
  obtain ⟨-, fields, decoded, -, choices⟩ := report
  rw [OpenAi.onLine, decoded] at handled
  obtain ⟨chunk, read, handled⟩ := bind_ok handled
  refine ⟨chunk, ?_, handled⟩
  obtain ⟨id, -, read⟩ := bind_ok read
  obtain ⟨model, -, read⟩ := bind_ok read
  obtain ⟨usage, -, read⟩ := bind_ok read
  obtain ⟨usage, -, read⟩ := bind_ok read
  obtain ⟨found, hfound, read⟩ := bind_ok read
  obtain ⟨choice, hchoice, read⟩ := bind_ok read
  cases read
  cases hfound
  rw [choices] at hchoice
  cases hchoice
  rfl

/-- A relation that every chunk keeps, and that a chunk without a choice cannot
    break, holds between the ends of the streams with and without the report. -/
theorem IsErrorReport.related {rt : Runtime} {report : Bytes} (isReport : IsErrorReport rt report)
    {σ ε : Type} {handle : σ → Chunk → LuaM (σ × List ε)} {related : σ → σ → Prop}
    (step : ∀ {st st' chunk next next'}, related st st' → handle st chunk = .ok next →
      handle st' chunk = .ok next' → related next.1 next'.1)
    (silent : ∀ {st chunk next}, chunk.choice = none → handle st chunk = .ok next →
      related next.1 st)
    {before after : List Bytes} {st : σ} {last last' : σ × List ε}
    (run : onLines rt handle st (before ++ report :: after) = .ok last)
    (run' : onLines rt handle st (before ++ after) = .ok last') : related last.1 last'.1 := by
  obtain ⟨mid, rest, hmid, hrest, rfl⟩ := onLines_append rt run
  obtain ⟨mid', rest', hmid', hrest', rfl⟩ := onLines_append rt run'
  cases hmid.symm.trans hmid'
  obtain ⟨now, hnow, hrest⟩ := bind_ok hrest
  obtain ⟨later, hlater, hrest⟩ := bind_ok hrest
  cases hrest
  obtain ⟨chunk, noChoice, handled⟩ := isReport.onLine hnow
  have alike : related now.1 mid.1 := silent noChoice handled
  have ends : related later.1 rest'.1 := by
    refine onLines_related rt ?_ alike hlater hrest'
    exact step
  exact ends

/-! ## Claude -/

namespace Claude

/-- The type an event is sent with. -/
def Event.name : Event → String
  | .messageStart _ _ _ => "message_start"
  | .block (.start _ _) => "content_block_start"
  | .block (.delta _ _) => "content_block_delta"
  | .block (.stop _) => "content_block_stop"
  | .messageDelta _ _ _ => "message_delta"
  | .messageStop => "message_stop"

def normalEnd (reason : StopReason) : Prop := reason = .endTurn ∨ reason = .toolUse

/-- The stream of these lines, as `message_delta` ends it. `order` is how `pairs`
    enumerates the tool calls. -/
def outcome (rt : Runtime) (now : Rat) (model : Option Value)
    (order : StreamState → List (Value × ToolState)) (lines : List Bytes) :
    LuaM (Outcome StopReason) := do
  let run ← streamChunks rt now (newStreamState model) lines
  return { names := (run.2 ++ streamEnd run.1 (order run.1)).map Event.name
           status := run.1.stopReason }

theorem Event.name_noError (event : Event) : event.name ∉ errorNames := by
  rcases event with _ | (_ | _ | _) | _ | _
  all_goals simp [Event.name, errorNames]

/-- The stop reason and what it is computed from. -/
def SameStop (st st' : StreamState) : Prop :=
  st.toBlockState = st'.toBlockState ∧ st.stopReason = st'.stopReason

theorem startMessage_sameStop {rt : Runtime} {now : Rat} {st : StreamState} {chunk : Chunk}
    {next : StreamState × List Event} (started : st.startMessage rt now chunk = .ok next) :
    SameStop next.1 st := by
  unfold StreamState.startMessage at started
  split at started
  · cases started
    exact ⟨rfl, rfl⟩
  · obtain ⟨id, -, started⟩ := bind_ok started
    cases started
    exact ⟨rfl, rfl⟩

theorem trackUsage_sameStop (st : StreamState) (chunk : Chunk) : SameStop (st.trackUsage chunk) st := by
  unfold StreamState.trackUsage
  split <;> exact ⟨rfl, rfl⟩

theorem SameStop.trans {a b c : StreamState} (ab : SameStop a b) (bc : SameStop b c) :
    SameStop a c := ⟨ab.1.trans bc.1, ab.2.trans bc.2⟩

theorem SameStop.symm {a b : StreamState} (ab : SameStop a b) : SameStop b a :=
  ⟨ab.1.symm, ab.2.symm⟩

theorem SameStop.onChoice {st st' : StreamState} (same : SameStop st st') (choice : Choice) :
    SameStop (st.onChoice choice).1 (st'.onChoice choice).1 := by
  obtain ⟨blocks, stop⟩ := same
  constructor
  · simp [StreamState.onChoice, blocks]
  · simp only [StreamState.onChoice, StreamState.trackFinish]
    split
    · rw [blocks]
    · exact stop

/-- A chunk acts on the stop reason through its choice alone. -/
theorem onChunk_sameStop {rt : Runtime} {now : Rat} {st : StreamState} {chunk : Chunk}
    {next : StreamState × List Event} (handled : st.onChunk rt now chunk = .ok next) :
    ∃ counted, SameStop counted st ∧
      next.1 = (chunk.choice.map fun choice => (counted.onChoice choice).1).getD counted := by
  obtain ⟨started, hstarted, handled⟩ := bind_ok handled
  refine ⟨started.1.trackUsage chunk,
    (trackUsage_sameStop _ chunk).trans (startMessage_sameStop hstarted), ?_⟩
  cases choice : chunk.choice with
  | none =>
      rw [choice] at handled
      cases handled
      rfl
  | some choice' =>
      rw [choice] at handled
      cases handled
      rfl

theorem report_sameStop {rt : Runtime} {report : Bytes} (isReport : IsErrorReport rt report)
    {now : Rat} {before after : List Bytes} {st : StreamState}
    {last last' : StreamState × List Event}
    (run : streamChunks rt now st (before ++ report :: after) = .ok last)
    (run' : streamChunks rt now st (before ++ after) = .ok last') : SameStop last.1 last'.1 := by
  refine isReport.related ?step ?silent run run'
  case step =>
    intro st st' chunk next next' same handled handled'
    obtain ⟨counted, keeps, is⟩ := onChunk_sameStop handled
    obtain ⟨counted', keeps', is'⟩ := onChunk_sameStop handled'
    have counts := keeps.trans (same.trans keeps'.symm)
    rw [is, is']
    cases chunk.choice with
    | none => exact counts
    | some choice => exact counts.onChoice choice
  case silent =>
    intro st chunk next noChoice handled
    obtain ⟨counted, keeps, is⟩ := onChunk_sameStop handled
    rw [noChoice] at is
    rw [is]
    exact keeps

end Claude

/-! ## Responses -/

namespace Responses

/-- The type an event is sent with. -/
def Payload.name : Payload → String
  | .created _ => "response.created"
  | .item (.added _ _) => "response.output_item.added"
  | .item (.done _ _) => "response.output_item.done"
  | .item (.contentPartAdded _ _ _) => "response.content_part.added"
  | .item (.contentPartDone _ _ _ _) => "response.content_part.done"
  | .item (.textDelta _ _ _ _) => "response.output_text.delta"
  | .item (.textDone _ _ _ _) => "response.output_text.done"
  | .item (.reasoningDelta _ _ _) => "response.reasoning_text.delta"
  | .item (.reasoningDone _ _ _) => "response.reasoning_text.done"
  | .item (.argumentsDelta _ _ _ _) => "response.function_call_arguments.delta"
  | .item (.argumentsDone _ _ _ _ _) => "response.function_call_arguments.done"
  | .completed _ => "response.completed"

def normalEnd (status : Status) : Prop := status = .completed

/-- The stream of these lines, as `response.completed` ends it. -/
def outcome (rt : Runtime) (ids : Ids) (now : Rat) (model : Option Value)
    (order : StreamState → List (Value × ToolState)) (lines : List Bytes) :
    LuaM (Outcome Status) := do
  let run ← streamChunks rt ids now (newStreamState ids model) lines
  return { names := (run.2 ++ streamEnd now run.1 (order run.1)).map fun e => e.payload.name
           status := run.1.status }

theorem Payload.name_noError (payload : Payload) : payload.name ∉ errorNames := by
  rcases payload with _ | (_ | _ | _ | _ | _ | _ | _ | _ | _ | _) | _
  all_goals simp [Payload.name, errorNames]

def SameStatus (st st' : StreamState) : Prop := st.status = st'.status

theorem createResponse_sameStatus (now : Rat) (st : StreamState) (chunk : Chunk) :
    SameStatus (st.createResponse now chunk).1 st := by
  unfold StreamState.createResponse
  split <;> rfl

theorem trackUsage_sameStatus {rt : Runtime} {st next : StreamState} {chunk : Chunk}
    (tracked : st.trackUsage rt chunk = .ok next) : SameStatus next st := by
  unfold StreamState.trackUsage at tracked
  split at tracked
  · dsimp only at tracked
    split at tracked
    · cases tracked
      rfl
    · cases tracked
  · cases tracked
    rfl

theorem SameStatus.onChoice {st st' : StreamState} (same : SameStatus st st') (ids : Ids)
    (choice : Choice) : SameStatus (st.onChoice ids choice).1 (st'.onChoice ids choice).1 := by
  simp only [SameStatus, StreamState.onChoice, StreamState.trackFinish]
  split
  · rfl
  · exact same

/-- A chunk acts on the status through its choice alone. -/
theorem onChunk_sameStatus {rt : Runtime} {ids : Ids} {now : Rat} {st : StreamState} {chunk : Chunk}
    {next : StreamState × List Event} (handled : st.onChunk rt ids now chunk = .ok next) :
    ∃ counted, SameStatus counted st ∧ SameStatus next.1
      ((chunk.choice.map fun choice => (counted.onChoice ids choice).1).getD counted) := by
  obtain ⟨counted, tracked, handled⟩ := bind_ok handled
  refine ⟨counted, (trackUsage_sameStatus tracked).trans (createResponse_sameStatus now st chunk), ?_⟩
  cases choice : chunk.choice with
  | none =>
      rw [choice] at handled
      cases handled
      rfl
  | some choice' =>
      rw [choice] at handled
      cases handled
      rfl

theorem report_sameStatus {rt : Runtime} {report : Bytes} (isReport : IsErrorReport rt report)
    {ids : Ids} {now : Rat} {before after : List Bytes} {st : StreamState}
    {last last' : StreamState × List Event}
    (run : streamChunks rt ids now st (before ++ report :: after) = .ok last)
    (run' : streamChunks rt ids now st (before ++ after) = .ok last') :
    SameStatus last.1 last'.1 := by
  refine isReport.related ?step ?silent run run'
  case step =>
    intro st st' chunk next next' same handled handled'
    obtain ⟨counted, keeps, is⟩ := onChunk_sameStatus handled
    obtain ⟨counted', keeps', is'⟩ := onChunk_sameStatus handled'
    have counts : SameStatus counted counted' := keeps.trans (same.trans keeps'.symm)
    refine Eq.trans is (Eq.trans ?_ is'.symm)
    cases chunk.choice with
    | none => exact counts
    | some choice => exact counts.onChoice ids choice
  case silent =>
    intro st chunk next noChoice handled
    obtain ⟨counted, keeps, is⟩ := onChunk_sameStatus handled
    rw [noChoice] at is
    exact Eq.trans is keeps

end Responses

/-! ## Both translators -/

/-- No report is ever seen, wherever it stands and whatever surrounds it. -/
theorem errors_lost (rt : Runtime) (ids : Responses.Ids) (now : Rat) (model : Option Value)
    {report : Bytes} (isReport : IsErrorReport rt report) (before after : List Bytes) :
    (∀ order, ¬ ErrorSurvives Claude.normalEnd (Claude.outcome rt now model order)
      before report after) ∧
    ∀ order, ¬ ErrorSurvives Responses.normalEnd (Responses.outcome rt ids now model order)
      before report after := by
  constructor
  · rintro order ⟨reported, without, ends, ends', shown⟩
    obtain ⟨run, hrun, ends⟩ := bind_ok ends
    obtain ⟨run', hrun', ends'⟩ := bind_ok ends'
    cases ends
    cases ends'
    rcases shown with ⟨name, sent, isError⟩ | ⟨-, differs⟩
    · obtain ⟨event, -, rfl⟩ := List.mem_map.mp sent
      exact event.name_noError isError
    · exact differs (Claude.report_sameStop isReport hrun hrun').2
  · rintro order ⟨reported, without, ends, ends', shown⟩
    obtain ⟨run, hrun, ends⟩ := bind_ok ends
    obtain ⟨run', hrun', ends'⟩ := bind_ok ends'
    cases ends
    cases ends'
    rcases shown with ⟨name, sent, isError⟩ | ⟨-, differs⟩
    · obtain ⟨event, -, rfl⟩ := List.mem_map.mp sent
      exact event.payload.name_noError isError
    · exact differs (Responses.report_sameStatus isReport hrun hrun')

namespace Sample

def reportJson : Bytes := lit "\x7b\"error\":\"upstream\"\x7d"

def reportLine : Bytes := lit "data: " ++ reportJson

/-- Decodes the report and one content delta. -/
def reportRuntime : Runtime :=
  .ofDocuments [(reportJson, .obj [(lit "error", .str (lit "upstream"))]),
    (contentJson "Hi", contentChunk "Hi")]

theorem isErrorReport : IsErrorReport reportRuntime reportLine :=
  ⟨by decide, [(lit "error", .str (lit "upstream"))], by decide, by decide, by decide⟩

def reportIds : Responses.Ids := ⟨lit "resp_0", fun n => lit "item_" ++ [UInt8.ofNat (48 + n)]⟩

end Sample

theorem errors_lost_sample :
    (∀ order, ¬ ErrorSurvives Claude.normalEnd (Claude.outcome Sample.reportRuntime 0 none order)
      [contentLine "Hi"] Sample.reportLine []) ∧
    ∀ order, ¬ ErrorSurvives Responses.normalEnd
      (Responses.outcome Sample.reportRuntime Sample.reportIds 0 none order)
      [contentLine "Hi"] Sample.reportLine [] :=
  errors_lost Sample.reportRuntime Sample.reportIds 0 none Sample.isErrorReport [contentLine "Hi"] []

/-- A stream that breaks off after its first delta ends like one that is complete. -/
theorem broken_stream_ends_normally :
    Claude.outcome Sample.reportRuntime 0 none (fun st => st.toolStates)
        [contentLine "Hi", Sample.reportLine] =
      .ok ⟨["message_start", "content_block_start", "content_block_delta", "content_block_stop",
        "message_delta", "message_stop"], .endTurn⟩ ∧
    Responses.outcome Sample.reportRuntime Sample.reportIds 0 none (fun st => st.toolStates)
        [contentLine "Hi", Sample.reportLine] =
      .ok ⟨["response.created", "response.output_item.added", "response.content_part.added",
        "response.output_text.delta", "response.output_text.done", "response.content_part.done",
        "response.output_item.done", "response.completed"], .completed⟩ := by
  constructor <;> decide

end E2eeProxy
