import E2eeProxy.ClaudeRequest
import E2eeProxy.ResponsesStream

/-! # Whole responses and requests of the Responses API

`responses_format.response_from_openai` and `request_to_openai`. The input
items of a request are folded with what is pending: tool calls and reasoning
that wait for the assistant message they belong to.
-/

namespace E2eeProxy.Responses

open E2eeProxy.Lua E2eeProxy.OpenAi E2eeProxy.Lib
open E2eeProxy.Claude (matchThink matchReceiver)

/-! ## Responses -/

/-- An element of the `output` array; each is completed. -/
inductive OutputItem where
  | reasoning (id text : Bytes)
  | message (id : Bytes) (content : List Bytes)
  | functionCall (id : Bytes) (callId name : Option Value) (arguments : Value)
  deriving DecidableEq

/-- The `response` object. `usage` is empty when the upstream sent none, and
    `incomplete_details` is there exactly when the status is `incomplete`. -/
structure WholeResponse where
  id : Bytes
  status : Status
  model : Value
  output : List OutputItem
  usage : Option Usage
  createdAt : Int

def functionCallItem (ids : Ids) (tc : Value) (n : Nat) : LuaM OutputItem := do
  let id ← index (some tc) "id"
  let fn ← index (some tc) "function"
  let name ← index fn "name"
  let arguments ← index fn "arguments"
  return .functionCall (ids.item n) id name (orElse arguments (.str (lit "\x7b\x7d")))

/-- The reasoning item, if there is one, and the message item. -/
def textItems (ids : Ids) (text : Bytes) : List OutputItem :=
  match matchThink text with
  | some (thinkText, remaining) =>
      [.reasoning (ids.item 0) thinkText, .message (ids.item 1) (unlessEmpty id remaining)]
  | none => [.message (ids.item 0) (unlessEmpty id text)]

def messageItems (ids : Ids) (message : Value) : LuaM (List OutputItem) := do
  let content ← index (some message) "content"
  let text ← matchReceiver (orElse content (.str []))
  let calls ← index (some message) "tool_calls"
  let calls ← if isTable calls then ipairs calls else .ok []
  let items := textItems ids text
  let tools ← (calls.zipIdx items.length).mapM fun (tc, n) => functionCallItem ids tc n
  return items ++ tools

def responseUsage (rt : Runtime) (usage : Option Value) : LuaM (Option Usage) :=
  if isTable usage then do
    let prompt ← index usage "prompt_tokens"
    let completion ← index usage "completion_tokens"
    let input := orElse prompt (.num 0)
    let output := orElse completion (.num 0)
    match rt.toNumber (some input), rt.toNumber (some output) with
    | some i, some o =>
        return some { inputTokens := input, outputTokens := output, totalTokens := .num (i + o) }
    | _, _ => .error .arith
  else return none

/-- `response_from_openai(openai_resp, model)` for a string `openai_resp`, which
    stands for itself when it does not decode. -/
def responseFromOpenai (rt : Runtime) (ids : Ids) (now : Rat) (openaiResp : Bytes)
    (model : Option Value) : LuaM (Option WholeResponse) := do
  let resp := (rt.decodeTruthy openaiResp).getD (.str openaiResp)
  let choices ← index (some resp) "choices"
  let choice ← if truthy choices then first choices else .ok none
  match present choice with
  | none => return none
  | some choice =>
      let message ← index (some choice) "message"
      let output ← messageItems ids (orElse message (.obj []))
      let finishReason ← index (some choice) "finish_reason"
      let usage ← index (some resp) "usage"
      let usage ← responseUsage rt usage
      let respModel ← index (some resp) "model"
      return some
        { id := ids.response
          status := ((asString finishReason).map mapStatus).getD .completed
          model := orElse model (orElse respModel (.str (lit "unknown")))
          output
          usage
          createdAt := now.floor }

/-! ## Requests -/

/-- What waits for the next assistant message. -/
structure Pending where
  toolCalls : List Value
  reasoning : Bytes
  deriving DecidableEq

section Conversion

variable (rt : Runtime)

def contentPart (part : Value) : LuaM Value :=
  match part with
  | .str s => .ok (.str s)
  | _ => do
      let type ← index (some part) "type"
      let text ← index (some part) "text"
      return if isLit type "input_text" || isLit type "output_text" || isLit type "text" then
        orElse text (.str [])
      else .str (rt.encode part)

/-- `_convert_response_content`. -/
def convertResponseContent (content : Option Value) : LuaM Bytes :=
  match content with
  | some (.str s) => .ok s
  | some (.arr _) | some (.obj _) => do
      let items ← ipairs content
      let parts ← items.mapM (contentPart rt)
      rt.tableConcat (lit "\n") parts
  | none | some .null | some (.bool _) | some (.num _) => .ok []

def thinkTags (reasoning : Bytes) : Bytes :=
  if reasoning = [] then [] else lit "<think>" ++ reasoning ++ lit "</think>"

/-- An assistant message with what was pending. -/
def assistantMessage (pending : Pending) (content : Bytes) : Value :=
  table [("role", some (.str (lit "assistant"))),
    ("content", some (.str (thinkTags pending.reasoning ++ content))),
    ("tool_calls", if pending.toolCalls = [] then none else some (.arr pending.toolCalls))]

/-- Pending tool calls are flushed as an assistant message of their own. -/
def flushCalls (pending : Pending) : Pending × List Value :=
  if pending.toolCalls = [] then (pending, []) else (⟨[], []⟩, [assistantMessage pending []])

def messageItem (pending : Pending) (item : Value) : LuaM (Pending × List Value) := do
  let role ← index (some item) "role"
  let role := orElse role (.str (lit "user"))
  let content ← index (some item) "content"
  let content ← convertResponseContent rt content
  if role = .str (lit "assistant") then return (⟨[], []⟩, [assistantMessage pending content])
  else return (pending, [table [("role", some role), ("content", some (.str content))]])

/-- `item.call_id or item.id or ""`. -/
def itemCallId (item : Value) : LuaM Value := do
  let callId ← index (some item) "call_id"
  let id ← index (some item) "id"
  return orElse callId (orElse id (.str []))

def functionCall (pending : Pending) (item : Value) : LuaM (Pending × List Value) := do
  let id ← itemCallId item
  let name ← index (some item) "name"
  let arguments ← index (some item) "arguments"
  let call := table [("id", some id), ("type", some (.str (lit "function"))),
    ("function", some (table [("name", some (orElse name (.str []))),
      ("arguments", some (orElse arguments (.str (lit "\x7b\x7d"))))]))]
  return ({ pending with toolCalls := pending.toolCalls ++ [call] }, [])

/-- `tostring` of an output; tables are encoded, by their `output` key if there is one. -/
def outputText (output : Value) : LuaM Bytes := do
  let inner ← if isTable (some output) then index (some output) "output" else .ok none
  match orElse inner output with
  | .str s => return s
  | .num q => return rt.tostringNumber q
  | .bool b => return if b then lit "true" else lit "false"
  | .null => return lit "userdata: NULL"
  | .arr items => return rt.encode (.arr items)
  | .obj fields => return rt.encode (.obj fields)

def functionCallOutput (pending : Pending) (item : Value) : LuaM (Pending × List Value) := do
  let flushed := flushCalls pending
  let output ← index (some item) "output"
  let text ← outputText rt (orElse output (.str []))
  let callId ← itemCallId item
  return (flushed.1, flushed.2 ++ [table [("role", some (.str (lit "tool"))),
    ("content", some (.str text)), ("tool_call_id", some callId)]])

def reasoningItem (pending : Pending) (item : Value) : LuaM (Pending × List Value) := do
  let text ← index (some item) "text"
  if truthy text then
    let text ← rt.concatArg text
    return ({ pending with reasoning := pending.reasoning ++ text }, [])
  else return (pending, [])

/-- One element of an `input` array: the messages it appends. -/
def inputItem (pending : Pending) (item : Value) : LuaM (Pending × List Value) := do
  let type ← index (some item) "type"
  if isLit type "message" then messageItem rt pending item
  else if isLit type "function_call" then functionCall pending item
  else if isLit type "function_call_output" then functionCallOutput rt pending item
  else if isLit type "reasoning" then reasoningItem rt pending item
  else return (pending, [])

def inputItems (pending : Pending) : List Value → LuaM (Pending × List Value)
  | [] => return (pending, [])
  | item :: items => do
      let now ← inputItem rt pending item
      let later ← inputItems now.1 items
      return (later.1, now.2 ++ later.2)

/-- The messages of `resp_body.input`. -/
def inputMessages (input : Option Value) : LuaM (List Value) :=
  match input with
  | some (.str s) =>
      return [table [("role", some (.str (lit "user"))), ("content", some (.str s))]]
  | some (.arr _) | some (.obj _) => do
      let items ← ipairs input
      let done ← inputItems rt ⟨[], []⟩ items
      return done.2 ++ (flushCalls done.1).2
  | none | some .null | some (.bool _) | some (.num _) => return []

def instructionMessage (instructions : Option Value) : List Value :=
  if truthy instructions ∧ instructions ≠ some (.str []) then
    [table [("role", some (.str (lit "system"))), ("content", instructions)]]
  else []

/-- A tool of type `function`, in the nested or in the flat format. -/
def convertTool (tool : Value) : LuaM (List Value) := do
  let type ← index (some tool) "type"
  if isLit type "function" then
    let fn ← index (some tool) "function"
    if truthy fn then return [tool]
    let name ← index (some tool) "name"
    let description ← index (some tool) "description"
    let params ← index (some tool) "parameters"
    return [table [("type", some (.str (lit "function"))),
      ("function", some (table [("name", name), ("description", description),
        ("parameters", params)]))]]
  else return []

def convertTools (tools : Option Value) : LuaM (Option Value) :=
  match present tools with
  | none => return none
  | some list => do
      let count ← length list
      if count = 0 then return none
      let items ← ipairs (some list)
      let converted ← items.mapM convertTool
      return if converted.flatten = [] then none else some (.arr converted.flatten)

/-- The parameters that are copied when they are there. -/
def parameters : List String :=
  ["temperature", "top_p", "stop", "frequency_penalty", "presence_penalty", "seed", "metadata",
    "reasoning_effort", "tool_choice"]

/-- `request_to_openai(resp_body)`. -/
def requestToOpenai (respBody : Value) : LuaM Value := do
  let instructions ← index (some respBody) "instructions"
  let input ← index (some respBody) "input"
  let converted ← inputMessages rt input
  let direct ← index (some respBody) "messages"
  let messages := if truthy direct ∧ ¬ truthy input then direct
    else some (.arr (instructionMessage instructions ++ converted))
  let model ← index (some respBody) "model"
  let stream ← index (some respBody) "stream"
  let maxOutputTokens ← index (some respBody) "max_output_tokens"
  let maxTokens ← index (some respBody) "max_tokens"
  let copied ← parameters.mapM fun key => do
    let v ← index (some respBody) key
    return (key, present v)
  let parallel ← index (some respBody) "parallel_tool_calls"
  let tools ← index (some respBody) "tools"
  let tools ← convertTools tools
  return table ([("model", model), ("messages", messages), ("stream", stream),
    ("max_tokens", present maxOutputTokens <|> present maxTokens)] ++ copied ++
    [("parallel_tool_calls", parallel), ("tools", tools)])

end Conversion

/-- The messages are the instructions followed by the converted input. -/
theorem requestToOpenai_messages {rt : Runtime} {respBody oai : Value} {items : List Value}
    (given : index (some respBody) "input" = .ok (some (.arr items)))
    (translated : requestToOpenai rt respBody = .ok oai) :
    ∃ instructions converted, index (some respBody) "instructions" = .ok instructions ∧
      inputMessages rt (some (.arr items)) = .ok converted ∧
      index (some oai) "messages" =
        .ok (some (.arr (instructionMessage instructions ++ converted))) := by
  obtain ⟨instructions, hinstructions, h⟩ := bind_ok translated
  obtain ⟨input, hinput, h⟩ := bind_ok h
  cases given.symm.trans hinput
  obtain ⟨converted, hconverted, h⟩ := bind_ok h
  obtain ⟨direct, -, h⟩ := bind_ok h
  obtain ⟨model, -, h⟩ := bind_ok h
  obtain ⟨stream, -, h⟩ := bind_ok h
  obtain ⟨maxOutputTokens, -, h⟩ := bind_ok h
  obtain ⟨maxTokens, -, h⟩ := bind_ok h
  obtain ⟨copied, -, h⟩ := bind_ok h
  obtain ⟨parallel, -, h⟩ := bind_ok h
  obtain ⟨tools, -, h⟩ := bind_ok h
  obtain ⟨tools, -, h⟩ := bind_ok h
  cases h
  refine ⟨instructions, converted, hinstructions, hconverted, ?_⟩
  -- There is an input, so that a `messages` field of the body is not used.
  rw [if_neg fun direct => direct.2 rfl]
  cases model <;> rfl

end E2eeProxy.Responses
