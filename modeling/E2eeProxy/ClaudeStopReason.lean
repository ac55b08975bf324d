import E2eeProxy.ClaudeFormat
import E2eeProxy.ClaudeState

/-! # The stop reason of a stream

The stop reason is set when a `finish_reason` arrives: from the tools seen in
earlier chunks and from whether this chunk has a `tool_calls` table at all. Tools
of a later chunk no longer count, and an empty table counts as a tool.
-/

namespace E2eeProxy.Claude

open E2eeProxy.Lua E2eeProxy.OpenAi E2eeProxy.Lib

/-- The choices of the chunks of a stream. -/
def choicesOf (chunks : List Chunk) : List Choice := chunks.filterMap Chunk.choice

/-- Some tool call was received. -/
def Received (choices : List Choice) : Prop := ∃ c ∈ choices, c.toolCalls.getD [] ≠ []

/-- A reason that says nothing about tools, or none. -/
def PlainReason (reason : Option Bytes) : Prop :=
  ∀ r, reason = some r → r = lit "stop" ∨ r = lit "length" ∨ r = lit "content_filter"

/-- `c` is the last choice with a finish reason, and `before` stands before it. -/
def FinishesAt (choices before : List Choice) (c : Choice) : Prop :=
  ∃ after, choices = before ++ c :: after ∧ c.finishReason.isSome ∧
    ∀ d ∈ after, d.finishReason = none

/-- Without tool calls the last finishing chunk has no `tool_calls` table; with some,
    there is a finishing chunk, and the last one has such a table or a call before it. -/
def StopsWell (choices : List Choice) : Prop :=
  (¬ Received choices → ∀ before c, FinishesAt choices before c → c.toolCalls = none) ∧
    (Received choices → ∃ before c, FinishesAt choices before c ∧
      (c.toolCalls.isSome ∨ Received before))

/-- The stop reason of the last `message_delta`. -/
def finalStopReason (events : List Event) : Option StopReason :=
  events.reverse.findSome? fun
    | .messageDelta reason _ _ => some reason
    | .messageStart .. | .block _ | .messageStop => none

theorem finalStopReason_streamEnd (events : List Event) (st : StreamState)
    (order : List (Value × ToolState)) :
    finalStopReason (events ++ streamEnd st order) = some st.stopReason := by
  simp [finalStopReason, streamEnd]

theorem mapStopReason_plain {r : Bytes} (plain : PlainReason (some r)) : mapStopReason r ≠ .toolUse := by
  rcases plain r rfl with rfl | rfl | rfl <;> decide

/-! ## Positions -/

theorem append_singleton_split {choices before after : List Choice} {c d : Choice}
    (split : choices ++ [d] = before ++ c :: after) :
    (choices = before ∧ d = c ∧ after = []) ∨
      ∃ after', after = after' ++ [d] ∧ choices = before ++ c :: after' := by
  rcases List.eq_nil_or_concat after with rfl | ⟨after', e, rfl⟩
  · obtain ⟨rfl, same⟩ := List.append_inj' split rfl
    exact .inl ⟨rfl, (List.cons.inj same).1, rfl⟩
  · have regrouped : choices ++ [d] = (before ++ c :: after') ++ [e] := by simpa using split
    obtain ⟨rfl, same⟩ := List.append_inj' regrouped rfl
    obtain ⟨rfl, -⟩ := List.cons.inj same
    exact .inr ⟨after', List.concat_eq_append, rfl⟩

theorem FinishesAt.unfinished {choices before : List Choice} {c d : Choice}
    (finishes : FinishesAt (choices ++ [d]) before c) (none : d.finishReason = none) :
    FinishesAt choices before c := by
  obtain ⟨after, split, finished, quiet⟩ := finishes
  rcases append_singleton_split split with ⟨-, rfl, -⟩ | ⟨after', rfl, shorter⟩
  · rw [none] at finished
    cases finished
  · exact ⟨after', shorter, finished, fun e mem => quiet e (List.mem_append_left _ mem)⟩

theorem FinishesAt.last {choices before : List Choice} {c d : Choice}
    (finishes : FinishesAt (choices ++ [d]) before c) (some : d.finishReason.isSome) :
    before = choices ∧ c = d := by
  obtain ⟨after, split, -, quiet⟩ := finishes
  rcases append_singleton_split split with ⟨rfl, rfl, -⟩ | ⟨after', rfl, -⟩
  · exact ⟨rfl, rfl⟩
  · rw [quiet d (by simp)] at some
    cases some

/-- There is a last finishing choice, if any choice finishes. -/
theorem exists_finishesAt (choices : List Choice) :
    (∀ c ∈ choices, c.finishReason = none) ∨ ∃ before c, FinishesAt choices before c := by
  induction choices using List.reverseRecOn with
  | nil => exact .inl (by simp)
  | append_singleton choices d ih =>
      cases finish : d.finishReason with
      | some r => exact .inr ⟨choices, d, [], rfl, by simp [finish], by simp⟩
      | none =>
          rcases ih with quiet | ⟨before, c, after, rfl, finished, quiet⟩
          · refine .inl fun c mem => ?_
            cases List.mem_append.mp mem with
            | inl old => exact quiet c old
            | inr new => rw [List.mem_singleton.mp new, finish]
          · refine .inr ⟨before, c, after ++ [d], by simp, finished, fun e mem => ?_⟩
            cases List.mem_append.mp mem with
            | inl old => exact quiet e old
            | inr new => rw [List.mem_singleton.mp new, finish]

theorem received_append (choices : List Choice) (c : Choice) :
    Received (choices ++ [c]) ↔ Received choices ∨ c.toolCalls.getD [] ≠ [] := by
  simp [Received, or_and_right, exists_or]

theorem FinishesAt.received {choices before : List Choice} {c : Choice}
    (finishes : FinishesAt choices before c) (received : Received before) : Received choices := by
  obtain ⟨after, rfl, -, -⟩ := finishes
  obtain ⟨d, mem, tools⟩ := received
  exact ⟨d, List.mem_append_left _ mem, tools⟩

/-! ## What the state knows -/

/-- How the stop reason depends on the choices handled so far. -/
structure StopKnown (choices : List Choice) (st : StreamState) : Prop where
  shape : Shape st.toBlockState
  tools : st.toolStates ≠ [] ↔ Received choices
  unfinished : (∀ c ∈ choices, c.finishReason = none) → st.stopReason = .endTurn
  finished : ∀ before c, FinishesAt choices before c →
    (st.stopReason = .toolUse ↔ c.toolCalls.isSome ∨ Received before)

theorem move_toolStates {st : BlockState} (shape : Shape st) (x : Move) :
    (st.move x).1.toolStates ≠ [] ↔ st.toolStates ≠ [] ∨ ∃ tc, x = .tool tc := by
  cases x with
  | content text =>
      have same : (st.move (.content text)).1.toolStates = st.toolStates :=
        (onContent_result shape text).tools
      simp [same]
  | tool tc =>
      have entered : (st.move (.tool tc)).1.toolStates ≠ [] := by
        intro empty
        have known : (st.move (.tool tc)).1.toolStates.lookup tc.index ≠ none := by
          simp [BlockState.move, BlockState.onTool]
        rw [empty] at known
        exact known rfl
      simp [entered]

theorem run_toolStates {st : BlockState} (shape : Shape st) (ms : List Move) :
    Shape (runFrom BlockState.move st ms).1 ∧
      ((runFrom BlockState.move st ms).1.toolStates ≠ [] ↔
        st.toolStates ≠ [] ∨ ∃ tc, .tool tc ∈ ms) := by
  induction ms generalizing st with
  | nil => exact ⟨shape, by simp⟩
  | cons x ms ih =>
      obtain ⟨kept, tools⟩ := ih (move_shape shape x)
      rw [runFrom_cons]
      refine ⟨kept, tools.trans ?_⟩
      rw [move_toolStates shape x, or_assoc]
      apply or_congr Iff.rfl
      constructor
      · rintro (⟨tc, rfl⟩ | ⟨tc, mem⟩)
        · exact ⟨tc, List.mem_cons_self⟩
        · exact ⟨tc, List.mem_cons_of_mem x mem⟩
      · rintro ⟨tc, mem⟩
        rcases List.mem_cons.mp mem with rfl | later
        · exact .inl ⟨tc, rfl⟩
        · exact .inr ⟨tc, later⟩

theorem mem_moves_tool (c : Choice) : (∃ tc, .tool tc ∈ c.moves) ↔ c.toolCalls.getD [] ≠ [] := by
  rw [ne_eq, List.eq_nil_iff_forall_not_mem]
  unfold Choice.moves
  split <;> simp

theorem onChoice_stopKnown {choices : List Choice} {st : StreamState} (known : StopKnown choices st)
    {c : Choice} (plain : PlainReason c.finishReason) :
    StopKnown (choices ++ [c]) (st.onChoice c).1 := by
  obtain ⟨shape, tools, unfinished, finished⟩ := known
  have blocks : (st.onChoice c).1.toBlockState =
      (runFrom BlockState.move st.toBlockState c.moves).1 := by
    rw [StreamState.onChoice, trackFinish_blocks]
  have reason : (st.onChoice c).1.stopReason = (st.trackFinish c).stopReason := rfl
  obtain ⟨kept, ran⟩ := run_toolStates shape c.moves
  refine ⟨blocks ▸ kept, ?_, fun none => ?_, fun before d finishes => ?_⟩
  · rw [blocks, ran, tools, mem_moves_tool, received_append]
  · have here : c.finishReason = Option.none := none c (by simp)
    rw [reason, StreamState.trackFinish, here]
    exact unfinished fun d mem => none d (List.mem_append_left _ mem)
  · cases finish : c.finishReason with
    | none =>
        rw [reason, StreamState.trackFinish, finish]
        exact finished before d (finishes.unfinished finish)
    | some r =>
        obtain ⟨rfl, rfl⟩ := finishes.last (by simp [finish])
        rw [reason, StreamState.trackFinish, finish]
        have other := mapStopReason_plain (finish ▸ plain)
        by_cases seen : d.toolCalls.isSome ∨ st.toolStates ≠ []
        · simp only [seen, if_true, true_iff]
          exact seen.imp_right tools.mp
        · simp only [seen, if_false, other, false_iff]
          exact fun wrong => seen (wrong.imp_right tools.mpr)

theorem startMessage_keeps {rt : Runtime} {now : Rat} {st : StreamState} {chunk : Chunk}
    {begun : StreamState × List Event} (started : st.startMessage rt now chunk = .ok begun) :
    begun.1.toBlockState = st.toBlockState ∧ begun.1.stopReason = st.stopReason := by
  unfold StreamState.startMessage at started
  split at started
  · cases started
    exact ⟨rfl, rfl⟩
  · obtain ⟨id, -, started⟩ := bind_ok started
    cases started
    exact ⟨rfl, rfl⟩

theorem trackUsage_stopReason (st : StreamState) (chunk : Chunk) :
    (st.trackUsage chunk).stopReason = st.stopReason := by
  unfold StreamState.trackUsage
  split <;> rfl

theorem onChunk_stopKnown {rt : Runtime} {now : Rat} {done : List Chunk} {st : StreamState}
    {chunk : Chunk} {next : StreamState × List Event}
    (known : (∀ c ∈ choicesOf done, PlainReason c.finishReason) → StopKnown (choicesOf done) st)
    (handled : st.onChunk rt now chunk = .ok next) :
    (∀ c ∈ choicesOf (done ++ [chunk]), PlainReason c.finishReason) →
      StopKnown (choicesOf (done ++ [chunk])) next.1 := by
  intro plain
  obtain ⟨begun, started, handled⟩ := bind_ok handled
  have same : (begun.1.trackUsage chunk).toBlockState = st.toBlockState ∧
      (begun.1.trackUsage chunk).stopReason = st.stopReason := by
    rw [trackUsage_blocks, trackUsage_stopReason]
    exact startMessage_keeps started
  have before : StopKnown (choicesOf done) (begun.1.trackUsage chunk) := by
    obtain ⟨shape, tools, unfinished, finished⟩ := known fun c mem => plain c (by
      rw [choicesOf, List.filterMap_append]
      exact List.mem_append_left _ mem)
    obtain ⟨blocks, reason⟩ := same
    exact ⟨blocks ▸ shape, blocks ▸ tools, reason ▸ unfinished, reason ▸ finished⟩
  cases hchoice : chunk.choice with
  | none =>
      have choices : choicesOf (done ++ [chunk]) = choicesOf done := by simp [choicesOf, hchoice]
      rw [hchoice] at handled
      cases handled
      rw [choices]
      exact before
  | some c =>
      have choices : choicesOf (done ++ [chunk]) = choicesOf done ++ [c] := by
        simp [choicesOf, hchoice]
      rw [hchoice] at handled
      cases handled
      rw [choices] at plain ⊢
      exact onChoice_stopKnown before (plain c (by simp))

theorem received_iff_choices (rt : Runtime) (lines : List Bytes) :
    Received (choicesOf (lines.filterMap (chunkOf rt))) ↔ ∃ tc, .tool tc ∈ moves rt lines := by
  constructor
  · rintro ⟨c, mem, tools⟩
    obtain ⟨chunk, here, choice⟩ := List.mem_filterMap.mp mem
    obtain ⟨tc, inChoice⟩ := (mem_moves_tool c).mpr tools
    refine ⟨tc, List.mem_flatMap.mpr ⟨chunk, here, ?_⟩⟩
    simpa [Chunk.moves, choice] using inChoice
  · rintro ⟨tc, mem⟩
    obtain ⟨chunk, here, inChunk⟩ := List.mem_flatMap.mp mem
    cases choice : chunk.choice with
    | none => simp [Chunk.moves, choice] at inChunk
    | some c =>
        refine ⟨c, List.mem_filterMap.mpr ⟨chunk, here, choice⟩, (mem_moves_tool c).mp ⟨tc, ?_⟩⟩
        simpa [Chunk.moves, choice] using inChunk

/-- The reason tells the truth exactly when the stream stops well. -/
theorem StopKnown.truthful_iff {choices : List Choice} {st : StreamState}
    (known : StopKnown choices st) :
    (st.stopReason = .toolUse ↔ Received choices) ↔ StopsWell choices := by
  constructor
  · intro truthful
    refine ⟨fun none before c finishes => ?_, fun some => ?_⟩
    · have silent := mt truthful.mp none
      rw [known.finished before c finishes, not_or] at silent
      simpa using silent.1
    · have said := truthful.mpr some
      rcases exists_finishesAt choices with open_ | ⟨before, c, finishes⟩
      · rw [known.unfinished open_] at said
        cases said
      · exact ⟨before, c, finishes, (known.finished before c finishes).mp said⟩
  · rintro ⟨silent, some⟩
    constructor
    · intro said
      by_contra none
      rcases exists_finishesAt choices with open_ | ⟨before, c, finishes⟩
      · rw [known.unfinished open_] at said
        cases said
      · cases (known.finished before c finishes).mp said with
        | inl table =>
            rw [silent none before c finishes] at table
            cases table
        | inr earlier => exact none (finishes.received earlier)
    · intro received
      obtain ⟨before, c, finishes, seen⟩ := some received
      exact (known.finished before c finishes).mpr seen

/-! ## The whole message -/

/-- The finish reason of the first choice of a response. -/
def HasFinish (resp : Value) (reason : Option Bytes) : Prop :=
  ∃ fields choice others, resp = .obj fields ∧
    fields.lookup (lit "choices") = some (.arr (.obj choice :: others)) ∧
    asString (choice.lookup (lit "finish_reason")) = reason

/-- `response_from_openai` goes by whether the message has tool calls. -/
theorem responseFromOpenai_stopReason (rt : Runtime) (now : Rat) (model : Option Value)
    {openaiResp : Bytes} {resp : Value} {content : Bytes} {calls : List ToolCall}
    {reason : Option Bytes} {r : Response} (decoded : rt.decode openaiResp = some resp)
    (whole : IsResponse resp content calls) (finish : HasFinish resp reason)
    (plain : PlainReason reason) (translated : responseFromOpenai rt now openaiResp model = .ok (some r)) :
    r.stopReason = .toolUse ↔ calls ≠ [] := by
  obtain ⟨fields, choice, others, message, rfl, -, choices, hmessage, text, hasCalls⟩ := whole
  obtain ⟨_, choice', others', same, choices', finish⟩ := finish
  cases same
  cases choices.symm.trans choices'
  rw [responseFromOpenai_eq rt now model decoded choices hmessage text hasCalls] at translated
  obtain ⟨usage, -, translated⟩ := bind_ok translated
  obtain ⟨id, -, translated⟩ := bind_ok translated
  cases translated
  cases calls with
  | nil =>
      cases reason with
      | none => simp [finish]
      | some s => simpa [finish] using mapStopReason_plain plain
  | cons call calls => simp

/-- A response document of the message that the stream spells, with a call for each
    tool index. -/
def IsAssembled (rt : Runtime) (lines : List Bytes) (openaiResp : Bytes) : Prop :=
  ∃ resp content calls reason, rt.decode openaiResp = some resp ∧ IsResponse resp content calls ∧
    calls.length = (OpenAi.calls (moves rt lines)).length ∧ HasFinish resp reason ∧
    PlainReason reason

theorem received_iff_calls (rt : Runtime) (lines : List Bytes) :
    Received (choicesOf (lines.filterMap (chunkOf rt))) ↔ OpenAi.calls (moves rt lines) ≠ [] := by
  rw [received_iff_choices]
  constructor
  · rintro ⟨tc, mem⟩ none
    have mentioned := (mem_calls (moves rt lines) tc.index).mpr ⟨tc, mem, rfl⟩
    rw [none] at mentioned
    cases mentioned
  · intro some
    obtain ⟨idx, mem⟩ := List.exists_mem_of_ne_nil _ some
    obtain ⟨tc, there, -⟩ := (mem_calls _ idx).mp mem
    exact ⟨tc, there⟩

/-- The stream ends with `tool_use` for the right streams exactly when it stops well;
    the whole message always does. -/
theorem stopReason_truthful_iff (rt : Runtime) (now : Rat) (model : Option Value)
    {lines : List Bytes} (chunks : ∀ line ∈ lines, IsChunkLine rt line)
    (plain : ∀ c ∈ choicesOf (lines.filterMap (chunkOf rt)), PlainReason c.finishReason) :
    ∃ st events, streamChunks rt now (newStreamState model) lines = .ok (st, events) ∧
      (∀ order, finalStopReason (events ++ streamEnd st order) = some st.stopReason) ∧
      ((st.stopReason = .toolUse ↔ Received (choicesOf (lines.filterMap (chunkOf rt)))) ↔
        StopsWell (choicesOf (lines.filterMap (chunkOf rt)))) ∧
      ∀ openaiResp r, IsAssembled rt lines openaiResp →
        responseFromOpenai rt now openaiResp model = .ok (some r) →
        (r.stopReason = .toolUse ↔ Received (choicesOf (lines.filterMap (chunkOf rt)))) := by
  obtain ⟨st, heading, handled, -, -⟩ := streamChunks_ok rt now (newStreamState model) chunks
  refine ⟨st, _, handled, fun order => finalStopReason_streamEnd _ st order, ?_, ?_⟩
  · have start : (∀ c ∈ choicesOf [], PlainReason c.finishReason) →
        StopKnown (choicesOf []) (newStreamState model) := fun _ =>
      ⟨shape_new, by simp [newStreamState, newBlockState, choicesOf, Received], fun _ => rfl,
        fun before c finishes => by
          obtain ⟨after, split, -⟩ := finishes
          simp [choicesOf] at split⟩
    exact (onLines_invariant rt (P := fun done st =>
      (∀ c ∈ choicesOf done, PlainReason c.finishReason) → StopKnown (choicesOf done) st)
      onChunk_stopKnown start handled plain).truthful_iff
  · rintro openaiResp r ⟨resp, content, calls, reason, decoded, whole, same, finish, plain⟩ translated
    rw [responseFromOpenai_stopReason rt now model decoded whole finish plain translated,
      received_iff_calls, ← List.length_pos_iff, ← List.length_pos_iff, same]

namespace Sample

/-- The finishing chunk has an empty list of tool calls. -/
def emptyCallsJson : Bytes :=
  lit "\x7b\"choices\":[\x7b\"delta\":\x7b\"tool_calls\":[]\x7d,\"finish_reason\":\"stop\"\x7d]\x7d"

def emptyCallsValue : Value :=
  table [("choices", some (.arr [table [("delta", some (table [("tool_calls", some (.arr []))])),
    ("finish_reason", some (.str (lit "stop")))]]))]

def emptyCallsRuntime : Runtime := .ofDocuments [(emptyCallsJson, emptyCallsValue)]

def emptyCallsLine : Bytes := lit "data: " ++ emptyCallsJson

theorem emptyCalls_chunks :
    ∀ line ∈ [emptyCallsLine], IsChunkLine emptyCallsRuntime line := by
  intro line mem v decoded
  obtain rfl := List.mem_singleton.mp mem
  obtain rfl : emptyCallsValue = v := Option.some.inj decoded
  rfl

def emptyCallsChoice : Choice := ⟨some (lit "stop"), [], some []⟩

theorem emptyCalls_choices :
    choicesOf ([emptyCallsLine].filterMap (chunkOf emptyCallsRuntime)) = [emptyCallsChoice] := by
  decide

theorem emptyCalls_plain :
    ∀ c ∈ choicesOf ([emptyCallsLine].filterMap (chunkOf emptyCallsRuntime)),
      PlainReason c.finishReason := by
  intro c mem r finish
  rw [emptyCalls_choices] at mem
  obtain rfl := List.mem_singleton.mp mem
  exact .inl (Option.some.inj finish).symm

end Sample

theorem stopReason_truthful_iff_sample :
    ∃ st events, streamChunks Sample.emptyCallsRuntime 0 (newStreamState none)
        [Sample.emptyCallsLine] = .ok (st, events) ∧
      (∀ order, finalStopReason (events ++ streamEnd st order) = some st.stopReason) ∧
      ((st.stopReason = .toolUse ↔ Received (choicesOf
          ([Sample.emptyCallsLine].filterMap (chunkOf Sample.emptyCallsRuntime)))) ↔
        StopsWell (choicesOf
          ([Sample.emptyCallsLine].filterMap (chunkOf Sample.emptyCallsRuntime)))) ∧
      ∀ openaiResp r, IsAssembled Sample.emptyCallsRuntime [Sample.emptyCallsLine] openaiResp →
        responseFromOpenai Sample.emptyCallsRuntime 0 openaiResp none = .ok (some r) →
        (r.stopReason = .toolUse ↔ Received (choicesOf
          ([Sample.emptyCallsLine].filterMap (chunkOf Sample.emptyCallsRuntime)))) :=
  stopReason_truthful_iff Sample.emptyCallsRuntime 0 none Sample.emptyCalls_chunks
    Sample.emptyCalls_plain

/-- No tool call was received, and the stream ends with `tool_use`. -/
theorem emptyCalls_toolUse :
    ∃ st events, streamChunks Sample.emptyCallsRuntime 0 (newStreamState none)
        [Sample.emptyCallsLine] = .ok (st, events) ∧
      finalStopReason (events ++ streamEnd st []) = some .toolUse ∧
      ¬ Received (choicesOf
        ([Sample.emptyCallsLine].filterMap (chunkOf Sample.emptyCallsRuntime))) := by
  refine ⟨_, _, rfl, by decide, ?_⟩
  rintro ⟨c, mem, tools⟩
  rw [Sample.emptyCalls_choices] at mem
  obtain rfl := List.mem_singleton.mp mem
  exact tools rfl

end E2eeProxy.Claude
