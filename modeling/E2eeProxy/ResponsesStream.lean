import E2eeProxy.Lib.ListSearch
import E2eeProxy.Lib.Table
import E2eeProxy.Translation

/-! # Streaming OpenAI chunks as Responses events

`responses_format.stream_chunk_from_openai` and `stream_end`. The fields of the
stream state that decide which output items are opened, filled and closed form
the `ItemState`; the rest is read by the response events only.
-/

namespace E2eeProxy.Responses

open E2eeProxy.Lua E2eeProxy.OpenAi E2eeProxy.Lib

/-- What `gen_response_id` and the successive calls of `gen_item_id` return. -/
structure Ids where
  response : Bytes
  item : Nat → Bytes

inductive Status where
  | inProgress
  | completed
  | incomplete
  | failed
  deriving DecidableEq, Repr

def mapStatus (finishReason : Bytes) : Status :=
  if finishReason = lit "stop" ∨ finishReason = lit "tool_calls" then .completed
  else if finishReason = lit "length" then .incomplete
  else if finishReason = lit "content_filter" then .failed
  else .completed

/-- An output item. The content of a message is one text part, or none yet. -/
inductive Item where
  | reasoning (id : Option Bytes) (status : Status) (text : Bytes)
  | message (id : Bytes) (status : Status) (content : Option Bytes)
  | functionCall (id : Bytes) (status : Status) (callId name : Option Value) (arguments : Bytes)
  deriving DecidableEq

/-- The events about output items. -/
inductive ItemEvent where
  | added (outputIndex : Nat) (item : Item)
  | done (outputIndex : Nat) (item : Item)
  | contentPartAdded (itemId : Bytes) (outputIndex contentIndex : Nat)
  | contentPartDone (itemId : Bytes) (outputIndex contentIndex : Nat) (text : Bytes)
  | textDelta (itemId : Bytes) (outputIndex contentIndex : Nat) (delta : Bytes)
  | textDone (itemId : Bytes) (outputIndex contentIndex : Nat) (text : Bytes)
  | reasoningDelta (itemId : Option Bytes) (outputIndex : Nat) (delta : Bytes)
  | reasoningDone (itemId : Option Bytes) (outputIndex : Nat) (text : Bytes)
  | argumentsDelta (itemId : Bytes) (outputIndex : Nat) (callId : Option Value) (delta : Value)
  | argumentsDone (itemId : Bytes) (outputIndex : Nat) (callId name : Option Value)
      (arguments : Bytes)
  deriving DecidableEq

structure Usage where
  inputTokens : Value
  outputTokens : Value
  totalTokens : Value
  deriving DecidableEq

/-- The `response` object. `incomplete_details` is there exactly when the status
    is `incomplete`. -/
structure Response where
  id : Bytes
  status : Status
  model : Value
  output : List Item
  usage : Usage
  createdAt : Int
  deriving DecidableEq

inductive Payload where
  | created (response : Response)
  | item (event : ItemEvent)
  | completed (response : Response)
  deriving DecidableEq

/-- An event; `event_id` is made from the two numbers. -/
structure Event where
  responseId : Bytes
  sequenceNumber : Nat
  payload : Payload
  deriving DecidableEq

structure ToolState where
  itemId : Bytes
  callId : Option Value
  name : Option Value
  args : Bytes
  started : Bool
  outputIndex : Nat
  deriving DecidableEq

/-- `nextId` counts the calls of `gen_item_id`. -/
structure ItemState where
  msgItemId : Bytes
  outputIndex : Nat
  contentIndex : Nat
  toolStates : List (Value × ToolState)
  nextOutputIndex : Nat
  accumulatedText : Bytes
  firstContent : Bool
  thinkBuffer : Bytes
  thinkDetecting : Bool
  thinkDetected : Bool
  reasoningItemId : Option Bytes
  reasoningText : Bytes
  messageStarted : Bool
  textPartStarted : Bool
  nextId : Nat

structure StreamState extends ItemState where
  model : Value
  responseId : Bytes
  seq : Nat
  usage : Usage
  status : Status
  responseCreated : Bool

def newItemState (ids : Ids) : ItemState where
  msgItemId := ids.item 0
  outputIndex := 0
  contentIndex := 0
  toolStates := []
  nextOutputIndex := 1
  accumulatedText := []
  firstContent := true
  thinkBuffer := []
  thinkDetecting := false
  thinkDetected := false
  reasoningItemId := none
  reasoningText := []
  messageStarted := false
  textPartStarted := false
  nextId := 1

/-- `new_stream_state(model)`. -/
def newStreamState (ids : Ids) (model : Option Value) : StreamState where
  toItemState := newItemState ids
  model := orElse model (.str (lit "unknown"))
  responseId := ids.response
  seq := 0
  usage := { inputTokens := .num 0, outputTokens := .num 0, totalTokens := .num 0 }
  status := .completed
  responseCreated := false

namespace ItemState

def ensureMessageStarted (st : ItemState) : ItemState × List ItemEvent :=
  if st.messageStarted then (st, [])
  else
    ({ st with messageStarted := true },
      [.added st.outputIndex (.message st.msgItemId .inProgress none)])

def ensureTextPartStarted (st : ItemState) : ItemState × List ItemEvent :=
  let message := st.ensureMessageStarted
  if message.1.textPartStarted then message
  else
    ({ message.1 with textPartStarted := true },
      message.2 ++ [.contentPartAdded st.msgItemId st.outputIndex st.contentIndex])

/-- Adds `s` to the text of the message. -/
def sendText (st : ItemState) (s : Bytes) : ItemState × List ItemEvent :=
  let part := st.ensureTextPartStarted
  ({ part.1 with accumulatedText := st.accumulatedText ++ s },
    part.2 ++ [.textDelta st.msgItemId st.outputIndex st.contentIndex s])

/-- The message as it is closed. -/
def messageItem (st : ItemState) : Item :=
  .message st.msgItemId .completed (some st.accumulatedText)

def closeMessage (st : ItemState) : List ItemEvent :=
  [.textDone st.msgItemId st.outputIndex st.contentIndex st.accumulatedText,
    .contentPartDone st.msgItemId st.outputIndex st.contentIndex st.accumulatedText,
    .done st.outputIndex st.messageItem]

def closeReasoning (st : ItemState) : List ItemEvent :=
  [.reasoningDone st.reasoningItemId 0 st.reasoningText,
    .done 0 (.reasoning st.reasoningItemId .completed st.reasoningText)]

/-- Starts looking for `<think>` at the first content delta. -/
def beginContent (st : ItemState) : ItemState :=
  if st.firstContent then
    { st with firstContent := false, thinkDetecting := true, thinkBuffer := [] }
  else st

/-- Opens the reasoning item with what follows the opening tag. -/
def openReasoning (ids : Ids) (st : ItemState) (after : Bytes) : ItemState × List ItemEvent :=
  let id := some (ids.item st.nextId)
  ({ st with
      thinkDetecting := false, thinkDetected := true, reasoningItemId := id,
      nextId := st.nextId + 1, nextOutputIndex := st.nextOutputIndex + 1,
      reasoningText := st.reasoningText ++ after },
    .added st.outputIndex (.reasoning id .inProgress []) ::
      unlessEmpty (fun s => .reasoningDelta id st.outputIndex s) after)

/-- The branch `state.think_detecting`. -/
def detect (ids : Ids) (st : ItemState) (content : Bytes) : ItemState × List ItemEvent :=
  let buffer := st.thinkBuffer ++ content
  let st := { st with thinkBuffer := buffer }
  if buffer.take 7 = lit "<think>" then
    if 7 ≤ buffer.length then st.openReasoning ids (buffer.drop 7)
    else (st, [])
  else
    sendText { st with thinkDetecting := false, outputIndex := st.nextOutputIndex - 1 } buffer

/-- Adds `s` to the reasoning. -/
def sendReasoning (st : ItemState) (s : Bytes) : ItemState × List ItemEvent :=
  ({ st with reasoningText := st.reasoningText ++ s }, [.reasoningDelta st.reasoningItemId 0 s])

/-- The branch in which reasoning goes on. -/
def reason (st : ItemState) (content : Bytes) : ItemState × List ItemEvent :=
  match cut (lit "</think>") content with
  | some (before, after) =>
      let last := if before = [] then (st, []) else st.sendReasoning before
      let st := last.1
      let closed := last.2 ++ st.closeReasoning
      let st := { st with outputIndex := st.nextOutputIndex,
                          nextOutputIndex := st.nextOutputIndex + 1 }
      let text := if after = [] then (st, []) else st.sendText after
      (text.1, closed ++ text.2)
  | none => st.sendReasoning content

/-- The branch of regular text. -/
def write (st : ItemState) (content : Bytes) : ItemState × List ItemEvent :=
  let st := if st.messageStarted then st else { st with outputIndex := st.nextOutputIndex - 1 }
  st.sendText content

/-- The content delta of a chunk. -/
def onContent (ids : Ids) (st : ItemState) (content : Bytes) : ItemState × List ItemEvent :=
  let st := st.beginContent
  if st.thinkDetecting then st.detect ids content
  else if st.thinkDetected ∧ ¬ st.textPartStarted then st.reason content
  else st.write content

end ItemState

namespace ToolState

/-- The entry the first delta of a tool call creates. -/
def create (itemId : Bytes) (tc : ToolDelta) (outputIndex : Nat) : ToolState :=
  { itemId, callId := tc.id, name := tc.name, args := [], started := false, outputIndex }

def update (ts : ToolState) (tc : ToolDelta) : ToolState :=
  { ts with callId := tc.id <|> ts.callId, name := tc.name <|> ts.name, args := ts.args ++ tc.text }

/-- The entry has what it needs to be started, and was not. -/
def ready (ts : ToolState) : Bool := !ts.started && ts.name.isSome && ts.callId.isSome

def item (ts : ToolState) (status : Status) (arguments : Bytes) : Item :=
  .functionCall ts.itemId status ts.callId ts.name arguments

/-- The start of the item, with the arguments so far. -/
def opening (ts : ToolState) : List ItemEvent :=
  .added ts.outputIndex (ts.item .inProgress []) ::
    unlessEmpty (fun s => .argumentsDelta ts.itemId ts.outputIndex ts.callId (.str s)) ts.args

end ToolState

namespace ItemState

/-- The entry of a tool call, made on its first delta. -/
def toolEntry (ids : Ids) (st : ItemState) (tc : ToolDelta) : ItemState × ToolState :=
  match st.toolStates.lookup tc.index with
  | some ts => (st, ts)
  | none =>
      ({ st with nextId := st.nextId + 1, nextOutputIndex := st.nextOutputIndex + 1 },
        .create (ids.item st.nextId) tc st.nextOutputIndex)

/-- The start of a tool call closes the message that is open. -/
def closeForTool (st : ItemState) : ItemState × List ItemEvent :=
  if st.textPartStarted then
    ({ st with textPartStarted := false, messageStarted := false }, st.closeMessage)
  else (st, [])

def setTool (st : ItemState) (idx : Value) (ts : ToolState) : ItemState :=
  { st with toolStates := setEntry idx ts st.toolStates }

/-- One element of `delta.tool_calls`. -/
def onTool (ids : Ids) (st : ItemState) (tc : ToolDelta) : ItemState × List ItemEvent :=
  let entry := st.toolEntry ids tc
  let ts := entry.2.update tc
  if ts.ready then
    let closed := entry.1.closeForTool
    (closed.1.setTool tc.index { ts with started := true }, closed.2 ++ ts.opening)
  else
    (entry.1.setTool tc.index ts,
      if ts.started then
        tc.arguments.toList.map fun arguments =>
          .argumentsDelta ts.itemId ts.outputIndex ts.callId arguments
      else [])

def move (ids : Ids) (st : ItemState) : Move → ItemState × List ItemEvent
  | .content text => st.onContent ids text
  | .tool delta => st.onTool ids delta

/-- `stream_end` first sends what the tag detector still holds. -/
def flush (st : ItemState) : ItemState × List ItemEvent :=
  if st.thinkDetecting ∧ st.thinkBuffer ≠ [] then
    sendText { st with outputIndex := st.nextOutputIndex - 1 } st.thinkBuffer
  else (st, [])

/-- What `stream_end` closes after that: events and the `output` array. `order`
    lists the entries of `tool_states` as `pairs` enumerates them. -/
def close (st : ItemState) (order : List (Value × ToolState)) : List ItemEvent × List Item :=
  let started := (order.filter fun entry => entry.2.started).map Prod.snd
  ((if st.thinkDetected ∧ st.reasoningItemId.isSome ∧ ¬ st.textPartStarted
      then st.closeReasoning else []) ++
    (if st.textPartStarted then st.closeMessage else []) ++
    started.flatMap (fun ts =>
      [.argumentsDone ts.itemId ts.outputIndex ts.callId ts.name ts.args,
        .done ts.outputIndex (ts.item .completed ts.args)]),
   (if st.textPartStarted then [st.messageItem] else []) ++
    started.map fun ts => ts.item .completed ts.args)

end ItemState

namespace StreamState

/-- Numbers the events that are sent; `next_seq` is called once for each. -/
def send (st : StreamState) (payloads : List Payload) : StreamState × List Event :=
  ({ st with seq := st.seq + payloads.length },
    payloads.mapIdx fun i payload =>
      { responseId := st.responseId, sequenceNumber := st.seq + i + 1, payload })

def response (st : StreamState) (now : Rat) (status : Status) (output : List Item) : Response :=
  { id := st.responseId, status, model := st.model, output, usage := st.usage,
    createdAt := now.floor }

/-- `response.created`, at the first chunk. `now` is the reading of `ngx.now()`. -/
def createResponse (now : Rat) (st : StreamState) (chunk : Chunk) : StreamState × List Payload :=
  if st.responseCreated then (st, [])
  else
    let st := { st with responseCreated := true, model := chunk.model.getD st.model }
    (st, [.created (st.response now .inProgress [])])

/-- `total_tokens` is `+` of two operands that may still be numeric strings. -/
def trackUsage (rt : Runtime) (st : StreamState) (chunk : Chunk) : LuaM StreamState :=
  match chunk.usage with
  | some usage =>
      let input := usage.promptTokens.getD st.usage.inputTokens
      let output := usage.completionTokens.getD st.usage.outputTokens
      match rt.toNumber (some input), rt.toNumber (some output) with
      | some i, some o => .ok
          { st with usage := { inputTokens := input, outputTokens := output,
                               totalTokens := .num (i + o) } }
      | _, _ => .error .arith
  | none => .ok st

def trackFinish (st : StreamState) (choice : Choice) : StreamState :=
  match choice.finishReason with
  | some reason => { st with status := mapStatus reason }
  | none => st

def onChoice (ids : Ids) (st : StreamState) (choice : Choice) : StreamState × List Payload :=
  let st := st.trackFinish choice
  let items := runFrom (ItemState.move ids) st.toItemState choice.moves
  ({ st with toItemState := items.1 }, items.2.map .item)

def onChunk (rt : Runtime) (ids : Ids) (now : Rat) (st : StreamState) (chunk : Chunk) :
    LuaM (StreamState × List Event) := do
  let created := st.createResponse now chunk
  let counted ← created.1.trackUsage rt chunk
  match chunk.choice with
  | some choice =>
      let chosen := counted.onChoice ids choice
      return chosen.1.send (created.2 ++ chosen.2)
  | none => return counted.send created.2

end StreamState

/-- `stream_chunk_from_openai(state, chunk_line)`. -/
def streamChunkFromOpenai (rt : Runtime) (ids : Ids) (now : Rat) (st : StreamState)
    (chunkLine : Bytes) : LuaM (StreamState × List Event) :=
  onLine rt (StreamState.onChunk rt ids now) st chunkLine

/-- `stream_end(state)`. -/
def streamEnd (now : Rat) (st : StreamState) (order : List (Value × ToolState)) : List Event :=
  let flushed := st.toItemState.flush
  let closed := flushed.1.close order
  (st.send ((flushed.2 ++ closed.1).map .item ++
    [.completed (st.response now st.status closed.2)])).2

/-- The calls the client handler makes for the chunk lines of a stream. -/
def streamChunks (rt : Runtime) (ids : Ids) (now : Rat) (st : StreamState) (lines : List Bytes) :
    LuaM (StreamState × List Event) := onLines rt (StreamState.onChunk rt ids now) st lines

end E2eeProxy.Responses
