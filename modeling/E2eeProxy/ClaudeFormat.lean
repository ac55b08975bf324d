import E2eeProxy.ClaudeStream

/-! # Whole OpenAI responses as Claude messages

`claude_format.response_from_openai`. It raises where the source raises, for
instance when `message.content` is `null`.
-/

namespace E2eeProxy.Claude

open E2eeProxy.Lua E2eeProxy.OpenAi E2eeProxy.Lib

/-- A block of the `content` array; the fields of a tool call may be absent. -/
inductive ResponseBlock where
  | thinking (thinking : Bytes)
  | text (text : Bytes)
  | toolUse (id name : Option Value) (input : Value)
  deriving DecidableEq

structure Response where
  id : Bytes
  content : List ResponseBlock
  model : Value
  stopReason : StopReason
  usage : Option (Value × Value)

/-- `text:match("^<think>(.-)</think>(.*)$")`. -/
def matchThink (text : Bytes) : Option (Bytes × Bytes) :=
  if startsWith (lit "<think>") text then cut (lit "</think>") (text.drop 7) else none

/-- The receiver of `text:match`. -/
def matchReceiver : Value → LuaM Bytes
  | .str s => .ok s
  | .arr _ | .obj _ => .error .call
  | .null | .bool _ | .num _ => .error .index

def thinkAndText (text : Bytes) : List ResponseBlock :=
  match matchThink text with
  | some (thinking, remaining) => .thinking thinking :: unlessEmpty .text remaining
  | none => unlessEmpty .text text

/-- The argument of `cjson.decode`. -/
def decodeArgument (rt : Runtime) : Value → LuaM Bytes
  | .str s => .ok s
  | .num q => .ok (rt.tostringNumber q)
  | .null | .bool _ | .arr _ | .obj _ => .error .badArgument

def toolUse (rt : Runtime) (tc : Value) : LuaM ResponseBlock := do
  let fn ← index (some tc) "function"
  let arguments ← index fn "arguments"
  let json ← decodeArgument rt (orElse arguments (.str (lit "\x7b\x7d")))
  let id ← index (some tc) "id"
  let name ← index fn "name"
  return .toolUse id name ((rt.decodeTruthy json).getD (.obj []))

def responseUsage (usage : Option Value) : LuaM (Option (Value × Value)) :=
  if isTable usage then do
    let prompt ← index usage "prompt_tokens"
    let completion ← index usage "completion_tokens"
    return some (orElse prompt (.num 0), orElse completion (.num 0))
  else return none

/-- The blocks of `choice.message`, and whether it has tool calls. -/
def messageContent (rt : Runtime) (message : Value) : LuaM (List ResponseBlock × Bool) := do
  let content ← index (some message) "content"
  let text ← matchReceiver (orElse content (.str []))
  let calls ← index (some message) "tool_calls"
  let items ← if isTable calls then ipairs calls else .ok []
  let tools ← items.mapM (toolUse rt)
  let blocks := thinkAndText text ++ tools
  return (if blocks = [] then [.text []] else blocks, !items.isEmpty)

/-- `response_from_openai(openai_resp, model)` for a string `openai_resp`, which
    stands for itself when it does not decode. -/
def responseFromOpenai (rt : Runtime) (now : Rat) (openaiResp : Bytes) (model : Option Value) :
    LuaM (Option Response) := do
  let resp := (rt.decodeTruthy openaiResp).getD (.str openaiResp)
  let choices ← index (some resp) "choices"
  let choice ← if truthy choices then first choices else .ok none
  match present choice with
  | none => return none
  | some choice =>
      let message ← index (some choice) "message"
      let content ← messageContent rt (orElse message (.obj []))
      let finishReason ← index (some choice) "finish_reason"
      let usage ← index (some resp) "usage"
      let usage ← responseUsage usage
      let id ← index (some resp) "id"
      let id ← rt.concatArg (some (orElse id (.num now)))
      let respModel ← index (some resp) "model"
      return some
        { id := lit "msg_" ++ id
          content := content.1
          model := orElse model (orElse respModel (.str (lit "unknown")))
          stopReason := if content.2 then .toolUse
            else ((asString finishReason).map mapStopReason).getD .endTurn
          usage }

/-! ## Well-formed responses -/

/-- A tool call as both sides of the translation know it. -/
structure ToolCall where
  id : Value
  name : Value
  arguments : Bytes

/-- `tc` is the element of `message.tool_calls` for the call. -/
def IsCall (tc : Value) (call : ToolCall) : Prop :=
  ∃ fields parts, tc = .obj fields ∧ fields.lookup (lit "id") = some call.id ∧
    fields.lookup (lit "function") = some (.obj parts) ∧
    parts.lookup (lit "name") = some call.name ∧
    parts.lookup (lit "arguments") = some (.str call.arguments)

/-- The tool calls of a message; without any, the field may be left out. -/
def HasCalls (field : Option Value) (calls : List ToolCall) : Prop :=
  (∃ items, field = some (.arr items) ∧ List.Forall₂ IsCall items calls) ∨
    (isTable field = false ∧ calls = [])

/-- The response document whose first choice is a message with this content and
    these tool calls. -/
def IsResponse (resp : Value) (content : Bytes) (calls : List ToolCall) : Prop :=
  ∃ fields choice others message, resp = .obj fields ∧
    (∀ id, fields.lookup (lit "id") = some id → isText id = true) ∧
    fields.lookup (lit "choices") = some (.arr (.obj choice :: others)) ∧
    choice.lookup (lit "message") = some (.obj message) ∧
    message.lookup (lit "content") = some (.str content) ∧
    HasCalls (message.lookup (lit "tool_calls")) calls

/-- The blocks of a message with this content and these tool calls. -/
def messageBlocks (rt : Runtime) (content : Bytes) (calls : List ToolCall) : List ResponseBlock :=
  let blocks := thinkAndText content ++ calls.map fun call =>
    .toolUse (some call.id) (some call.name) ((rt.decodeTruthy call.arguments).getD (.obj []))
  if blocks = [] then [.text []] else blocks

theorem toolUse_isCall (rt : Runtime) {tc : Value} {call : ToolCall} (h : IsCall tc call) :
    toolUse rt tc = .ok (.toolUse (some call.id) (some call.name)
      ((rt.decodeTruthy call.arguments).getD (.obj []))) := by
  obtain ⟨fields, parts, rfl, id, fn, name, arguments⟩ := h
  simp [toolUse, fn, name, id, arguments, orElse, decodeArgument, bind, Except.bind, pure,
    Except.pure]

theorem toolUses_isCall (rt : Runtime) {items : List Value} {calls : List ToolCall}
    (h : List.Forall₂ IsCall items calls) :
    items.mapM (toolUse rt) = .ok (calls.map fun call =>
      .toolUse (some call.id) (some call.name)
        ((rt.decodeTruthy call.arguments).getD (.obj []))) := by
  induction h with
  | nil => rfl
  | cons head tail ih =>
      simp [List.mapM_cons, toolUse_isCall rt head, ih, bind, Except.bind, pure, Except.pure]

theorem messageContent_eq (rt : Runtime) {message : List (Bytes × Value)} {content : Bytes}
    {calls : List ToolCall} (text : message.lookup (lit "content") = some (.str content))
    (hasCalls : HasCalls (message.lookup (lit "tool_calls")) calls) :
    messageContent rt (.obj message) = .ok (messageBlocks rt content calls, !calls.isEmpty) := by
  rcases hasCalls with ⟨items, field, each⟩ | ⟨notTable, rfl⟩
  · have same : items.isEmpty = calls.isEmpty := by cases each <;> rfl
    simp [messageContent, text, field, orElse, matchReceiver, isTable, ipairs,
      toolUses_isCall rt each, messageBlocks, same, bind, Except.bind, pure, Except.pure]
  · simp [messageContent, text, notTable, orElse, matchReceiver, messageBlocks, bind,
      Except.bind, pure, Except.pure]

/-- What is left to do once the message is translated. -/
theorem responseFromOpenai_eq (rt : Runtime) (now : Rat) (model : Option Value) {openaiResp : Bytes}
    {fields choice message : List (Bytes × Value)} {others : List Value} {content : Bytes}
    {calls : List ToolCall} (decoded : rt.decode openaiResp = some (.obj fields))
    (choices : fields.lookup (lit "choices") = some (.arr (.obj choice :: others)))
    (hmessage : choice.lookup (lit "message") = some (.obj message))
    (text : message.lookup (lit "content") = some (.str content))
    (hasCalls : HasCalls (message.lookup (lit "tool_calls")) calls) :
    responseFromOpenai rt now openaiResp model = do
      let usage ← responseUsage (fields.lookup (lit "usage"))
      let id ← rt.concatArg (some (orElse (fields.lookup (lit "id")) (.num now)))
      return some
        { id := lit "msg_" ++ id
          content := messageBlocks rt content calls
          model := orElse model (orElse (fields.lookup (lit "model")) (.str (lit "unknown")))
          stopReason := if !calls.isEmpty then .toolUse
            else ((asString (choice.lookup (lit "finish_reason"))).map mapStopReason).getD .endTurn
          usage } := by
  have isDecoded : rt.decodeTruthy openaiResp = some (.obj fields) :=
    decodeTruthy_eq_some.mpr ⟨decoded, rfl⟩
  have receiver : orElse (choice.lookup (lit "message")) (.obj []) = .obj message := by
    rw [hmessage]
    rfl
  have taken : present (List.head? (Value.obj choice :: others)) = some (.obj choice) := rfl
  simp only [responseFromOpenai, isDecoded, Option.getD_some, index_obj, choices, truthy, first,
    ↓reduceIte, taken, receiver, messageContent_eq rt text hasCalls, bind, Except.bind]

theorem responseUsage_total (usage : Option Value) : ∃ u, responseUsage usage = .ok u := by
  rcases usage with _ | (_ | _ | _ | _ | _ | _) <;>
    simp [responseUsage, isTable, index, bind, Except.bind, pure, Except.pure]

/-- A response document is translated, and its blocks are those of its message. -/
theorem responseFromOpenai_ok (rt : Runtime) (now : Rat) (model : Option Value)
    {openaiResp : Bytes} {resp : Value} {content : Bytes} {calls : List ToolCall}
    (decoded : rt.decode openaiResp = some resp) (h : IsResponse resp content calls) :
    ∃ r, responseFromOpenai rt now openaiResp model = .ok (some r) ∧
      r.content = messageBlocks rt content calls := by
  obtain ⟨fields, choice, others, message, rfl, idOk, choices, hmessage, text, hasCalls⟩ := h
  obtain ⟨usage, husage⟩ := responseUsage_total (fields.lookup (lit "usage"))
  obtain ⟨id, hid⟩ : ∃ s, rt.concatArg
      (some (orElse (fields.lookup (lit "id")) (.num now))) = .ok s := by
    apply concatArg_isText rt
    cases given : fields.lookup (lit "id") with
    | none => rfl
    | some id =>
        have valid := idOk id given
        cases id with
        | null | bool | arr | obj => cases valid
        | num | str => rfl
  rw [responseFromOpenai_eq rt now model decoded choices hmessage text hasCalls, husage]
  simp only [bind, Except.bind, hid]
  exact ⟨_, rfl, rfl⟩

end E2eeProxy.Claude
