import E2eeProxy.ClaudeFormat

/-! # Claude requests as OpenAI requests

`claude_format.request_to_openai`, with all of its parameter mapping. It raises
where the source raises, for instance at a content block that is `null`.
-/

namespace E2eeProxy.Claude

open E2eeProxy.Lua E2eeProxy.OpenAi

section Conversion

variable (rt : Runtime)

/-! ## System prompt -/

/-- A block of an array `system` that counts: a text block with a text. -/
def systemPart (block : Value) : LuaM (List Value) :=
  if isTable (some block) then do
    let type ← index (some block) "type"
    let text ← index (some block) "text"
    return if isLit type "text" && truthy text then text.toList else []
  else return []

def systemText (system : Option Value) : LuaM Bytes :=
  match system with
  | some (.str s) => .ok s
  | some (.arr _) | some (.obj _) => do
      let blocks ← ipairs system
      let parts ← blocks.mapM systemPart
      rt.tableConcat (lit "\n") parts.flatten
  | none | some .null | some (.bool _) | some (.num _) => .ok []

def systemMessage (system : Option Value) : LuaM (List Value) := do
  let sysText ← systemText rt system
  return unlessEmpty
    (fun s => table [("role", some (.str (lit "system"))), ("content", some (.str s))]) sysText

/-! ## User messages -/

structure UserParts where
  textParts : List Value
  multipart : List Value
  hasImages : Bool
  toolMessages : List Value

def textPart (text : Option Value) : Value :=
  table [("type", some (.str (lit "text"))), ("text", text)]

def imageUrl (block : Value) : LuaM (Option Value) := do
  let source ← index (some block) "source"
  if truthy source then
    let type ← index source "type"
    if isLit type "base64" then
      let mediaType ← index source "media_type"
      let data ← index source "data"
      let mediaType ← rt.concatArg (some (orElse mediaType (.str (lit "image/png"))))
      let data ← rt.concatArg data
      return some (.str (lit "data:" ++ mediaType ++ lit ";base64," ++ data))
    else if isLit type "url" then index source "url"
    else return none
  else return none

def toolResultPart (part : Value) : LuaM (List Value) :=
  match part with
  | .str s => .ok [.str s]
  | _ => do
      let type ← index (some part) "type"
      let text ← index (some part) "text"
      return if isLit type "text" then text.toList else [.str (rt.encode part)]

def toolResultText (content : Option Value) : LuaM Bytes :=
  match content with
  | some (.str s) => .ok s
  | some (.arr _) | some (.obj _) => do
      let items ← ipairs content
      let parts ← items.mapM (toolResultPart rt)
      rt.tableConcat (lit "\n") parts.flatten
  | none | some .null | some (.bool _) | some (.num _) => .ok []

/-- `tool_result` blocks become separate tool messages. -/
def toolMessage (block : Value) : LuaM Value := do
  let content ← index (some block) "content"
  let contentText ← toolResultText rt content
  let toolUseId ← index (some block) "tool_use_id"
  return table [("role", some (.str (lit "tool"))), ("content", some (.str contentText)),
    ("tool_call_id", toolUseId)]

def userBlock (parts : UserParts) (block : Value) : LuaM UserParts :=
  match block with
  | .str s =>
      .ok { parts with textParts := parts.textParts ++ [.str s],
                       multipart := parts.multipart ++ [textPart (some (.str s))] }
  | _ => do
      let type ← index (some block) "type"
      if isLit type "text" then
        let text ← index (some block) "text"
        return { parts with textParts := parts.textParts ++ text.toList,
                            multipart := parts.multipart ++ [textPart text] }
      else if isLit type "image" then
        let url ← imageUrl rt block
        let images := (present url).toList.map fun url =>
          table [("type", some (.str (lit "image_url"))),
            ("image_url", some (table [("url", some url)]))]
        return { parts with hasImages := true, multipart := parts.multipart ++ images }
      else if isLit type "tool_result" then
        let message ← toolMessage rt block
        return { parts with toolMessages := parts.toolMessages ++ [message] }
      else return parts

/-- The user content, if any text or image blocks exist. -/
def userMessage (parts : UserParts) : LuaM (List Value) :=
  if parts.hasImages then
    return [table [("role", some (.str (lit "user"))), ("content", some (.arr parts.multipart))]]
  else if parts.textParts ≠ [] then do
    let text ← rt.tableConcat (lit "\n") parts.textParts
    return [table [("role", some (.str (lit "user"))), ("content", some (.str text))]]
  else return []

/-- `_convert_user_message`: the messages it appends. -/
def convertUserMessage (content : Value) : LuaM (List Value) := do
  let blocks ← ipairs (some content)
  let parts ← blocks.foldlM (userBlock rt) ⟨[], [], false, []⟩
  let own ← userMessage rt parts
  return parts.toolMessages ++ own

/-! ## Assistant messages -/

structure AssistantParts where
  contentStr : Bytes
  toolCalls : List Value

def toolCall (block : Value) : LuaM Value := do
  let input ← index (some block) "input"
  let args := if isTable input then input.map fun v => .str (rt.encode v) else input
  let id ← index (some block) "id"
  let name ← index (some block) "name"
  return table [("id", id), ("type", some (.str (lit "function"))),
    ("function", some (table [("name", name),
      ("arguments", some (orElse args (.str (lit "\x7b\x7d"))))]))]

def assistantBlock (parts : AssistantParts) (block : Value) : LuaM AssistantParts := do
  let type ← index (some block) "type"
  let thinking ← index (some block) "thinking"
  if isLit type "thinking" && truthy thinking then
    let thinking ← rt.concatArg thinking
    return { parts with
      contentStr := lit "<think>" ++ thinking ++ lit "</think>" ++ parts.contentStr }
  else if isLit type "text" then
    let text ← index (some block) "text"
    let text ← rt.concatArg (some (orElse text (.str [])))
    return { parts with contentStr := parts.contentStr ++ text }
  else if isLit type "tool_use" then
    let call ← toolCall rt block
    return { parts with toolCalls := parts.toolCalls ++ [call] }
  else return parts

def assistantMessage (parts : AssistantParts) : Value :=
  table [("role", some (.str (lit "assistant"))), ("content", some (.str parts.contentStr)),
    ("tool_calls", if parts.toolCalls = [] then none else some (.arr parts.toolCalls))]

/-- `_convert_assistant_message`: the message it appends. -/
def convertAssistantMessage (content : Value) : LuaM Value := do
  let blocks ← ipairs (some content)
  let parts ← blocks.foldlM (assistantBlock rt) ⟨[], []⟩
  return assistantMessage parts

/-! ## The request -/

/-- What one element of `messages` becomes. -/
def convertMessage (msg : Value) : LuaM (List Value) := do
  let role ← index (some msg) "role"
  let content ← index (some msg) "content"
  match content with
  | some (.str s) => return [table [("role", role), ("content", some (.str s))]]
  | some (.arr blocks) =>
      if isLit role "user" then convertUserMessage rt (.arr blocks)
      else if isLit role "assistant" then return [← convertAssistantMessage rt (.arr blocks)]
      else return []
  | some (.obj fields) =>
      if isLit role "user" then convertUserMessage rt (.obj fields)
      else if isLit role "assistant" then return [← convertAssistantMessage rt (.obj fields)]
      else return []
  | none | some .null | some (.bool _) | some (.num _) => return []

def convertMessages (msgs : List Value) : LuaM (List Value) := do
  let converted ← msgs.mapM (convertMessage rt)
  return converted.flatten

/-- The parameters that are copied when they are there, with their new names. -/
def parameters : List (String × String) :=
  [("max_tokens", "max_tokens"), ("temperature", "temperature"), ("top_p", "top_p"),
    ("top_k", "top_k"), ("stop_sequences", "stop"), ("metadata", "metadata"),
    ("thinking", "thinking")]

def toolChoice (choice : Option Value) : LuaM (Option Value) :=
  match choice with
  | some (.str s) => return some (.str (if s = lit "any" then lit "required" else s))
  | some (.arr _) | some (.obj _) => do
      let type ← index choice "type"
      let name ← index choice "name"
      return if isLit type "tool" && truthy name then
        some (table [("type", some (.str (lit "function"))),
          ("function", some (table [("name", name)]))])
        else none
  | none | some .null | some (.bool _) | some (.num _) => return none

def convertTool (tool : Value) : LuaM Value := do
  let name ← index (some tool) "name"
  let description ← index (some tool) "description"
  let inputSchema ← index (some tool) "input_schema"
  return table [("type", some (.str (lit "function"))),
    ("function", some (table [("name", name), ("description", description),
      ("parameters", inputSchema)]))]

def convertTools (tools : Option Value) : LuaM (Option Value) :=
  match present tools with
  | none => return none
  | some list => do
      let count ← length list
      if count = 0 then return none
      let items ← ipairs (some list)
      let converted ← items.mapM convertTool
      return some (.arr converted)

/-- `request_to_openai(claude_body)`. -/
def requestToOpenai (claudeBody : Value) : LuaM Value := do
  let system ← index (some claudeBody) "system"
  let heading ← systemMessage rt system
  let msgs ← index (some claudeBody) "messages"
  let msgs ← if truthy msgs then ipairs msgs else .ok []
  let converted ← convertMessages rt msgs
  let model ← index (some claudeBody) "model"
  let stream ← index (some claudeBody) "stream"
  let copied ← parameters.mapM fun (old, new) => do
    let v ← index (some claudeBody) old
    return (new, present v)
  let choice ← index (some claudeBody) "tool_choice"
  let choice ← toolChoice choice
  let tools ← index (some claudeBody) "tools"
  let tools ← convertTools tools
  return table ([("model", model), ("messages", some (.arr (heading ++ converted))),
    ("stream", stream)] ++ copied ++ [("tool_choice", choice), ("tools", tools)])

end Conversion

/-! ## The messages of the request -/

/-- The messages are the system prompt followed by the converted messages. -/
theorem requestToOpenai_messages {rt : Runtime} {claudeBody oai : Value} {msgs : List Value}
    (given : index (some claudeBody) "messages" = .ok (some (.arr msgs)))
    (translated : requestToOpenai rt claudeBody = .ok oai) :
    ∃ system heading converted, index (some claudeBody) "system" = .ok system ∧
      systemMessage rt system = .ok heading ∧ convertMessages rt msgs = .ok converted ∧
      index (some oai) "messages" = .ok (some (.arr (heading ++ converted))) := by
  obtain ⟨system, hsystem, h⟩ := bind_ok translated
  obtain ⟨heading, hheading, h⟩ := bind_ok h
  obtain ⟨field, hfield, h⟩ := bind_ok h
  cases given.symm.trans hfield
  obtain ⟨list, hlist, h⟩ := bind_ok h
  cases hlist
  obtain ⟨converted, hconverted, h⟩ := bind_ok h
  obtain ⟨model, -, h⟩ := bind_ok h
  obtain ⟨stream, -, h⟩ := bind_ok h
  obtain ⟨copied, -, h⟩ := bind_ok h
  obtain ⟨choice, -, h⟩ := bind_ok h
  obtain ⟨choice, -, h⟩ := bind_ok h
  obtain ⟨tools, -, h⟩ := bind_ok h
  obtain ⟨tools, -, h⟩ := bind_ok h
  cases h
  refine ⟨system, heading, converted, hsystem, hheading, hconverted, ?_⟩
  cases model <;> rfl

theorem convertMessages_append (rt : Runtime) {before after converted : List Value}
    (done : convertMessages rt (before ++ after) = .ok converted) :
    ∃ pre post, convertMessages rt before = .ok pre ∧ convertMessages rt after = .ok post ∧
      converted = pre ++ post := by
  unfold convertMessages at done
  rw [List.mapM_append] at done
  obtain ⟨all, hall, done⟩ := bind_ok done
  obtain ⟨first, hfirst, hall⟩ := bind_ok hall
  obtain ⟨rest, hrest, hall⟩ := bind_ok hall
  cases hall
  cases done
  refine ⟨first.flatten, rest.flatten, ?_, ?_, List.flatten_append⟩
  · rw [convertMessages, hfirst]
    rfl
  · rw [convertMessages, hrest]
    rfl

theorem convertMessages_cons (rt : Runtime) {msg : Value} {msgs converted : List Value}
    (done : convertMessages rt (msg :: msgs) = .ok converted) :
    ∃ own post, convertMessage rt msg = .ok own ∧ convertMessages rt msgs = .ok post ∧
      converted = own ++ post := by
  unfold convertMessages at done
  rw [List.mapM_cons] at done
  obtain ⟨all, hall, done⟩ := bind_ok done
  obtain ⟨own, hown, hall⟩ := bind_ok hall
  obtain ⟨rest, hrest, hall⟩ := bind_ok hall
  cases hall
  cases done
  refine ⟨own, rest.flatten, hown, ?_, List.flatten_cons⟩
  rw [convertMessages, hrest]
  rfl

end E2eeProxy.Claude
