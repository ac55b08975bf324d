import E2eeProxy.Lib.ListSearch
import E2eeProxy.Lib.Table
import E2eeProxy.Translation

/-! # Streaming OpenAI chunks as Claude events

`claude_format.stream_chunk_from_openai` and `stream_end`. Events are values
instead of SSE text. The fields of the stream state that decide which blocks
are opened and closed form the `BlockState`; the rest is read by the message
events only.
-/

namespace E2eeProxy.Claude

open E2eeProxy.Lua E2eeProxy.OpenAi E2eeProxy.Lib

inductive StopReason where
  | endTurn
  | maxTokens
  | toolUse
  deriving DecidableEq, Repr

def mapStopReason (finishReason : Bytes) : StopReason :=
  if finishReason = lit "stop" then .endTurn
  else if finishReason = lit "length" then .maxTokens
  else if finishReason = lit "tool_calls" ∨ finishReason = lit "function_call" then .toolUse
  else if finishReason = lit "content_filter" then .endTurn
  else .endTurn

inductive ContentBlock where
  | thinking
  | text
  | toolUse (id name : Value)
  deriving DecidableEq

inductive BlockDelta where
  | thinking (thinking : Bytes)
  | text (text : Bytes)
  | inputJson (partialJson : Value)
  deriving DecidableEq

/-- `content_block_start`, `content_block_delta` and `content_block_stop`. -/
inductive BlockEvent where
  | start (index : Nat) (block : ContentBlock)
  | delta (index : Nat) (delta : BlockDelta)
  | stop (index : Nat)
  deriving DecidableEq

inductive Event where
  | messageStart (id : Bytes) (model inputTokens : Value)
  | block (event : BlockEvent)
  | messageDelta (stopReason : StopReason) (inputTokens outputTokens : Value)
  | messageStop
  deriving DecidableEq

/-- The values `current_type` takes; a tool call resets it to `nil`. -/
inductive BlockType where
  | thinking
  | text
  deriving DecidableEq, Repr

structure ToolState where
  id : Option Value
  name : Option Value
  blockIndex : Nat
  started : Bool
  pendingArgs : Bytes
  deriving DecidableEq

structure BlockState where
  blockIndex : Nat
  currentType : Option BlockType
  thinkBuffer : Bytes
  thinkDetecting : Bool
  thinkDetected : Bool
  textStarted : Bool
  toolStates : List (Value × ToolState)
  firstContent : Bool

structure StreamState extends BlockState where
  model : Value
  inputTokens : Value
  outputTokens : Value
  stopReason : StopReason
  messageStarted : Bool

def newBlockState : BlockState where
  blockIndex := 0
  currentType := none
  thinkBuffer := []
  thinkDetecting := false
  thinkDetected := false
  textStarted := false
  toolStates := []
  firstContent := true

/-- `new_stream_state(model)`. -/
def newStreamState (model : Option Value) : StreamState where
  toBlockState := newBlockState
  model := orElse model (.str (lit "unknown"))
  inputTokens := .num 0
  outputTokens := .num 0
  stopReason := .endTurn
  messageStarted := false

namespace BlockState

/-- Starts looking for `<think>` at the first content delta. -/
def beginContent (st : BlockState) : BlockState :=
  if st.firstContent then
    { st with firstContent := false, thinkDetecting := true, thinkBuffer := [] }
  else st

/-- The branch `state.think_detecting`. -/
def detect (st : BlockState) (content : Bytes) : BlockState × List BlockEvent :=
  let buffer := st.thinkBuffer ++ content
  let st := { st with thinkBuffer := buffer }
  if buffer.take 7 = lit "<think>" then
    if 7 ≤ buffer.length then
      ({ st with thinkDetecting := false, thinkDetected := true, currentType := some .thinking },
        .start st.blockIndex .thinking ::
          unlessEmpty (fun after => .delta st.blockIndex (.thinking after)) (buffer.drop 7))
    else (st, [])
  else
    ({ st with thinkDetecting := false, currentType := some .text, textStarted := true },
      [.start st.blockIndex .text, .delta st.blockIndex (.text buffer)])

/-- The branch in which a thinking block is open. -/
def think (st : BlockState) (content : Bytes) : BlockState × List BlockEvent :=
  match cut (lit "</think>") content with
  | some (before, after) =>
      ({ st with blockIndex := st.blockIndex + 1, currentType := some .text, textStarted := true },
        unlessEmpty (fun s => .delta st.blockIndex (.thinking s)) before ++
          [.stop st.blockIndex, .start (st.blockIndex + 1) .text] ++
          unlessEmpty (fun s => .delta (st.blockIndex + 1) (.text s)) after)
  | none => (st, [.delta st.blockIndex (.thinking content)])

/-- The branch of regular text. -/
def write (st : BlockState) (content : Bytes) : BlockState × List BlockEvent :=
  if st.textStarted then (st, [.delta st.blockIndex (.text content)])
  else
    ({ st with textStarted := true, currentType := some .text },
      [.start st.blockIndex .text, .delta st.blockIndex (.text content)])

/-- The content delta of a chunk. -/
def onContent (st : BlockState) (content : Bytes) : BlockState × List BlockEvent :=
  let st := st.beginContent
  if st.thinkDetecting then st.detect content
  else if st.thinkDetected ∧ st.currentType = some .thinking then st.think content
  else st.write content

/-- The first delta of a tool call closes the block that is open. -/
def closeForTool (st : BlockState) : BlockState × List BlockEvent :=
  if st.textStarted ∧ st.currentType = some .text then
    ({ st with blockIndex := st.blockIndex + 1, textStarted := false, currentType := none },
      [.stop st.blockIndex])
  else if st.currentType = some .thinking then
    ({ st with blockIndex := st.blockIndex + 1, currentType := none }, [.stop st.blockIndex])
  else (st, [])

end BlockState

namespace ToolState

/-- The entry the first delta of a tool call creates. -/
def create (tc : ToolDelta) (blockIndex : Nat) : ToolState :=
  { id := tc.id, name := tc.name, blockIndex, started := false, pendingArgs := [] }

def update (ts : ToolState) (tc : ToolDelta) : ToolState :=
  { ts with id := tc.id <|> ts.id, name := tc.name <|> ts.name,
            pendingArgs := ts.pendingArgs ++ tc.text }

/-- The block is started once id and name are known, with the arguments so far;
    later arguments are passed on as they come. -/
def emit (ts : ToolState) (tc : ToolDelta) : ToolState × List BlockEvent :=
  match ts.started, ts.id, ts.name with
  | false, some id, some name =>
      ({ ts with started := true, pendingArgs := [] },
        .start ts.blockIndex (.toolUse id name) ::
          unlessEmpty (fun s => .delta ts.blockIndex (.inputJson (.str s))) ts.pendingArgs)
  | true, _, _ =>
      (ts, tc.arguments.toList.map fun arguments => .delta ts.blockIndex (.inputJson arguments))
  | false, none, _ | false, _, none => (ts, [])

end ToolState

namespace BlockState

/-- One element of `delta.tool_calls`. -/
def onTool (st : BlockState) (tc : ToolDelta) : BlockState × List BlockEvent :=
  let known := st.toolStates.lookup tc.index
  let closed := if known.isSome then (st, []) else st.closeForTool
  let ts := known.getD (.create tc closed.1.blockIndex)
  let emitted := (ts.update tc).emit tc
  ({ closed.1 with toolStates := setEntry tc.index emitted.1 closed.1.toolStates },
    closed.2 ++ emitted.2)

def move (st : BlockState) : Move → BlockState × List BlockEvent
  | .content text => st.onContent text
  | .tool delta => st.onTool delta

/-- The blocks `stream_end` closes. `order` lists the entries of `tool_states`
    as `pairs` enumerates them. -/
def finish (st : BlockState) (order : List (Value × ToolState)) : List BlockEvent :=
  (if st.thinkDetecting ∧ st.thinkBuffer ≠ [] then
      [.start st.blockIndex .text, .delta st.blockIndex (.text st.thinkBuffer),
        .stop st.blockIndex]
    else if st.currentType = some .text ∧ st.textStarted then [.stop st.blockIndex]
    else if st.currentType = some .thinking then [.stop st.blockIndex]
    else []) ++
  (order.filter fun entry => entry.2.started).map fun entry => .stop entry.2.blockIndex

end BlockState

namespace StreamState

/-- `message_start`, at the first chunk. `now` is the reading of `ngx.now()`. -/
def startMessage (rt : Runtime) (now : Rat) (st : StreamState) (chunk : Chunk) :
    LuaM (StreamState × List Event) :=
  if st.messageStarted then .ok (st, [])
  else do
    let model := chunk.model.getD st.model
    let id ← rt.concatArg (some (chunk.id.getD (.num now)))
    return ({ st with messageStarted := true, model },
      [.messageStart (lit "msg_" ++ id) model st.inputTokens])

def trackUsage (st : StreamState) (chunk : Chunk) : StreamState :=
  match chunk.usage with
  | some usage =>
      { st with inputTokens := usage.promptTokens.getD st.inputTokens,
                outputTokens := usage.completionTokens.getD st.outputTokens }
  | none => st

def trackFinish (st : StreamState) (choice : Choice) : StreamState :=
  match choice.finishReason with
  | some reason =>
      { st with stopReason := if choice.toolCalls.isSome ∨ st.toolStates ≠ [] then .toolUse
                              else mapStopReason reason }
  | none => st

def onChoice (st : StreamState) (choice : Choice) : StreamState × List Event :=
  let st := st.trackFinish choice
  let blocks := runFrom BlockState.move st.toBlockState choice.moves
  ({ st with toBlockState := blocks.1 }, blocks.2.map .block)

def onChunk (rt : Runtime) (now : Rat) (st : StreamState) (chunk : Chunk) :
    LuaM (StreamState × List Event) := do
  let started ← st.startMessage rt now chunk
  let st := started.1.trackUsage chunk
  match chunk.choice with
  | some choice => return ((st.onChoice choice).1, started.2 ++ (st.onChoice choice).2)
  | none => return (st, started.2)

end StreamState

/-- `stream_chunk_from_openai(state, chunk_line)`. -/
def streamChunkFromOpenai (rt : Runtime) (now : Rat) (st : StreamState) (chunkLine : Bytes) :
    LuaM (StreamState × List Event) := onLine rt (StreamState.onChunk rt now) st chunkLine

/-- `stream_end(state)`. -/
def streamEnd (st : StreamState) (order : List (Value × ToolState)) : List Event :=
  (st.finish order).map .block ++
    [.messageDelta st.stopReason st.inputTokens st.outputTokens, .messageStop]

/-- The calls the client handler makes for the chunk lines of a stream. -/
def streamChunks (rt : Runtime) (now : Rat) (st : StreamState) (lines : List Bytes) :
    LuaM (StreamState × List Event) := onLines rt (StreamState.onChunk rt now) st lines

/-! ## The blocks of a stream -/

/-- The `message_start` event. -/
def IsMessageStart (event : Event) : Prop := ∃ id model tokens, event = .messageStart id model tokens

/-- The id of a chunk can be part of a message id. -/
def HasTextId (chunk : Chunk) : Prop := ∀ id, chunk.id = some id → isText id = true

theorem startMessage_ok (rt : Runtime) (now : Rat) (st : StreamState) {chunk : Chunk}
    (idOk : HasTextId chunk) :
    ∃ st' heading, st.startMessage rt now chunk = .ok (st', heading) ∧
      st'.toBlockState = st.toBlockState ∧ st'.messageStarted = true ∧
      Heading IsMessageStart st.messageStarted heading := by
  cases started : st.messageStarted with
  | true => exact ⟨st, [], by simp [StreamState.startMessage, started, Heading]⟩
  | false =>
      have text : isText (chunk.id.getD (.num now)) = true := by
        cases hid : chunk.id with
        | none => rfl
        | some id => exact idOk id hid
      obtain ⟨id, hid⟩ := concatArg_isText rt text
      refine ⟨{ st with messageStarted := true, model := chunk.model.getD st.model },
        [.messageStart (lit "msg_" ++ id) (chunk.model.getD st.model) st.inputTokens],
        ?_, rfl, rfl, _, ⟨_, _, _, rfl⟩, rfl⟩
      simp only [StreamState.startMessage, started, hid, bind, Except.bind]
      rfl

@[simp] theorem trackUsage_blocks (st : StreamState) (chunk : Chunk) :
    (st.trackUsage chunk).toBlockState = st.toBlockState := by
  unfold StreamState.trackUsage
  split <;> rfl

@[simp] theorem trackUsage_started (st : StreamState) (chunk : Chunk) :
    (st.trackUsage chunk).messageStarted = st.messageStarted := by
  unfold StreamState.trackUsage
  split <;> rfl

@[simp] theorem trackFinish_blocks (st : StreamState) (choice : Choice) :
    (st.trackFinish choice).toBlockState = st.toBlockState := by
  unfold StreamState.trackFinish
  split <;> rfl

@[simp] theorem trackFinish_started (st : StreamState) (choice : Choice) :
    (st.trackFinish choice).messageStarted = st.messageStarted := by
  unfold StreamState.trackFinish
  split <;> rfl

/-- A chunk handles its moves in order, behind the heading. -/
theorem onChunk_ok (rt : Runtime) (now : Rat) (st : StreamState) {chunk : Chunk}
    (idOk : HasTextId chunk) :
    ∃ st' events heading, st.onChunk rt now chunk = .ok (st', events) ∧
      events.map id =
        heading ++ (runFrom BlockState.move st.toBlockState chunk.moves).2.map .block ∧
      st'.toBlockState = (runFrom BlockState.move st.toBlockState chunk.moves).1 ∧
      st'.messageStarted = true ∧ Heading IsMessageStart st.messageStarted heading := by
  obtain ⟨begun, heading, hstart, same, started, head⟩ := startMessage_ok rt now st idOk
  cases hchoice : chunk.choice with
  | none =>
      refine ⟨begun.trackUsage chunk, heading, heading, ?_, ?_, ?_, ?_, head⟩
      · simp [StreamState.onChunk, hstart, hchoice, bind, Except.bind, pure, Except.pure]
      · simp [Chunk.moves, hchoice]
      · simp [same, Chunk.moves, hchoice]
      · simp [started]
  | some choice =>
      refine ⟨((begun.trackUsage chunk).onChoice choice).1,
        heading ++ ((begun.trackUsage chunk).onChoice choice).2, heading, ?_, ?_, ?_, ?_, head⟩
      · simp [StreamState.onChunk, hstart, hchoice, bind, Except.bind, pure, Except.pure]
      · simp [StreamState.onChoice, same, Chunk.moves, hchoice]
      · simp [StreamState.onChoice, same, Chunk.moves, hchoice]
      · simp [StreamState.onChoice, started]

def translator (rt : Runtime) (now : Rat) :
    Translator StreamState Event BlockState BlockEvent Event where
  handle := StreamState.onChunk rt now
  body := StreamState.toBlockState
  begun := StreamState.messageStarted
  content := id
  move := BlockState.move
  wrap := .block
  opens := IsMessageStart
  valid := HasTextId
  inv _ := True
  handles st _ _ idOk := by
    obtain ⟨st', events, heading, handled, rest⟩ := onChunk_ok rt now st idOk
    exact ⟨st', events, heading, handled, trivial, rest⟩

/-- Every chunk line is handled, and the blocks of the stream depend on its
    moves alone: not on how they are spread over chunks. -/
theorem streamChunks_ok (rt : Runtime) (now : Rat) (st : StreamState) {lines : List Bytes}
    (chunks : ∀ line ∈ lines, IsChunkLine rt line) :
    ∃ st' heading, streamChunks rt now st lines =
        .ok (st', heading ++
          (runFrom BlockState.move st.toBlockState (moves rt lines)).2.map .block) ∧
      st'.toBlockState = (runFrom BlockState.move st.toBlockState (moves rt lines)).1 ∧
      Heading IsMessageStart
        (st.messageStarted || lines.all fun line => (decodeChunk rt line).isNone) heading := by
  have valid : ∀ line ∈ lines, (translator rt now).ValidLine rt line := fun line mem v decoded =>
    ⟨chunks line mem v decoded, fun _ read => readChunk_id (chunks line mem v decoded) read⟩
  have inv : (translator rt now).inv st := trivial
  obtain ⟨st', events, heading, handled, contents, blocks, head⟩ :=
    (translator rt now).lines_ok rt inv valid
  obtain rfl : events = heading ++
      (runFrom BlockState.move st.toBlockState (moves rt lines)).2.map Event.block :=
    (List.map_id events).symm.trans contents
  exact ⟨st', heading, handled, blocks, head⟩

end E2eeProxy.Claude
