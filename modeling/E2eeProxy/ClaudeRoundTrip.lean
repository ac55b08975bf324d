import E2eeProxy.ClaudeRequest

/-! # A Claude answer sent back

`response_from_openai` splits a message into blocks and `request_to_openai`
builds one message from the blocks of an assistant turn. The second undoes the
first: the tags are only taken off where they are put back.
-/

namespace E2eeProxy.Claude

open E2eeProxy.Lua E2eeProxy.OpenAi E2eeProxy.Lib

/-- The table `response_from_openai` makes of a block. -/
def ResponseBlock.value : ResponseBlock → Value
  | .thinking s =>
      table [("type", some (.str (lit "thinking"))), ("thinking", some (.str s))]
  | .text s => table [("type", some (.str (lit "text"))), ("text", some (.str s))]
  | .toolUse id name input =>
      table [("type", some (.str (lit "tool_use"))), ("id", id), ("name", name),
        ("input", some input)]

/-- A client's assistant turn with these content blocks. -/
def IsTurn (turn : Value) (blocks : List ResponseBlock) : Prop :=
  ∃ fields, turn = .obj fields ∧
    fields.lookup (lit "role") = some (.str (lit "assistant")) ∧
    fields.lookup (lit "content") = some (.arr (blocks.map ResponseBlock.value))

/-- An assistant message of a chat-completions request. -/
def IsAssistant (msg : Value) (content : Bytes) (calls : List ToolCall) : Prop :=
  ∃ fields, msg = .obj fields ∧
    fields.lookup (lit "role") = some (.str (lit "assistant")) ∧
    fields.lookup (lit "content") = some (.str content) ∧
    HasCalls (fields.lookup (lit "tool_calls")) calls

/-- The arguments are those of an object that survives encoding and decoding, as
    one does that has no empty table in it. -/
def HasObjectArguments (rt : Runtime) (call : ToolCall) : Prop :=
  ∃ fields, rt.decode call.arguments = some (.obj fields) ∧
    rt.decode (rt.encode (.obj fields)) = some (.obj fields)

/-- The same call, up to the spelling of its arguments. -/
def SameCall (rt : Runtime) (a b : ToolCall) : Prop :=
  a.id = b.id ∧ a.name = b.name ∧
    ∃ v, rt.decode a.arguments = some v ∧ rt.decode b.arguments = some v

/-- Writing the tags again gives back what the pattern was matched on. -/
theorem matchThink_eq {text thinking remaining : Bytes}
    (matched : matchThink text = some (thinking, remaining)) :
    text = lit "<think>" ++ thinking ++ lit "</think>" ++ remaining := by
  unfold matchThink at matched
  split at matched
  · rename_i opened
    obtain ⟨rest, rfl⟩ := List.isPrefixOf_iff_prefix.mp opened
    have dropped : (lit "<think>" ++ rest).drop 7 = rest := List.drop_left' (by decide)
    rw [dropped] at matched
    rw [cut_append (lit "</think>") matched]
    simp only [List.append_assoc]
  · cases matched

section Blocks

variable (rt : Runtime) (parts : AssistantParts)

theorem assistantBlock_thinking (thinking : Bytes) :
    assistantBlock rt parts (ResponseBlock.thinking thinking).value =
      .ok { parts with
        contentStr := lit "<think>" ++ thinking ++ lit "</think>" ++ parts.contentStr } := rfl

theorem assistantBlock_text (text : Bytes) :
    assistantBlock rt parts (ResponseBlock.text text).value =
      .ok { parts with contentStr := parts.contentStr ++ text } := rfl

/-- What `_convert_assistant_message` makes of a tool call. -/
def callTable (call : ToolCall) : Value :=
  table [("id", some call.id), ("type", some (.str (lit "function"))),
    ("function", some (table [("name", some call.name),
      ("arguments", some (.str call.arguments))]))]

/-- A call whose arguments have been decoded and encoded again. -/
def recoded (call : ToolCall) : ToolCall :=
  { call with arguments := rt.encode ((rt.decodeTruthy call.arguments).getD (.obj [])) }

def toolBlock (call : ToolCall) : ResponseBlock :=
  .toolUse (some call.id) (some call.name) ((rt.decodeTruthy call.arguments).getD (.obj []))

theorem HasObjectArguments.decodeTruthy {rt : Runtime} {call : ToolCall}
    (object : HasObjectArguments rt call) :
    ∃ fields, (rt.decodeTruthy call.arguments).getD (.obj []) = .obj fields ∧
      rt.decode call.arguments = some (.obj fields) ∧
      rt.decode (rt.encode (.obj fields)) = some (.obj fields) := by
  obtain ⟨fields, decoded, kept⟩ := object
  have isDecoded : rt.decodeTruthy call.arguments = some (.obj fields) :=
    decodeTruthy_eq_some.mpr ⟨decoded, rfl⟩
  exact ⟨fields, by rw [isDecoded]; rfl, decoded, kept⟩

theorem assistantBlock_tool {call : ToolCall} (object : HasObjectArguments rt call) :
    assistantBlock rt parts (toolBlock rt call).value =
      .ok { parts with toolCalls := parts.toolCalls ++ [callTable (recoded rt call)] } := by
  obtain ⟨fields, input, -⟩ := object.decodeTruthy
  unfold toolBlock recoded
  rw [input]
  rfl

theorem recoded_same {call : ToolCall} (object : HasObjectArguments rt call) :
    SameCall rt call (recoded rt call) := by
  obtain ⟨fields, input, decoded, kept⟩ := object.decodeTruthy
  refine ⟨rfl, rfl, .obj fields, decoded, ?_⟩
  unfold recoded
  rw [input]
  exact kept

theorem isCall_callTable (call : ToolCall) : IsCall (callTable call) call :=
  ⟨_, _, rfl, rfl, rfl, rfl, rfl⟩

/-- Thinking and text put the content together again. -/
theorem thinkAndText_folded (content : Bytes) :
    ((thinkAndText content).map ResponseBlock.value).foldlM (assistantBlock rt) ⟨[], []⟩ =
      .ok ⟨content, []⟩ := by
  have text (parts : AssistantParts) (s : Bytes) :
      ((unlessEmpty ResponseBlock.text s).map ResponseBlock.value).foldlM (assistantBlock rt) parts =
        .ok { parts with contentStr := parts.contentStr ++ s } := by
    unfold unlessEmpty
    split
    · rename_i empty
      simp [empty, pure, Except.pure]
    · simp [assistantBlock_text, bind, Except.bind, pure, Except.pure]
  unfold thinkAndText
  cases matched : matchThink content with
  | none => simpa using text ⟨[], []⟩ content
  | some found =>
      obtain ⟨thinking, remaining⟩ := found
      rw [matchThink_eq matched]
      simp only [List.map_cons, List.foldlM_cons, assistantBlock_thinking, bind, Except.bind, text,
        List.append_nil]

/-- The tool calls are appended in order. -/
theorem toolBlocks_folded {calls : List ToolCall}
    (objects : ∀ call ∈ calls, HasObjectArguments rt call) :
    (calls.map fun call => (toolBlock rt call).value).foldlM (assistantBlock rt) parts =
      .ok { parts with
        toolCalls := parts.toolCalls ++ calls.map (fun call => callTable (recoded rt call)) } := by
  induction calls generalizing parts with
  | nil => simp [pure, Except.pure]
  | cons call calls ih =>
      rw [List.map_cons, List.foldlM_cons, assistantBlock_tool rt parts (objects call List.mem_cons_self)]
      have rest := ih { parts with toolCalls := parts.toolCalls ++ [callTable (recoded rt call)] }
        fun other mem => objects other (List.mem_cons_of_mem call mem)
      simp only [bind, Except.bind, rest, List.map_cons, List.append_assoc, List.singleton_append]

theorem messageBlocks_folded {content : Bytes} {calls : List ToolCall}
    (objects : ∀ call ∈ calls, HasObjectArguments rt call) :
    ((messageBlocks rt content calls).map ResponseBlock.value).foldlM (assistantBlock rt) ⟨[], []⟩ =
      .ok ⟨content, calls.map fun call => callTable (recoded rt call)⟩ := by
  have blocks : ((thinkAndText content ++ calls.map (toolBlock rt)).map
      ResponseBlock.value).foldlM (assistantBlock rt) ⟨[], []⟩ =
        .ok ⟨content, calls.map fun call => callTable (recoded rt call)⟩ := by
    rw [List.map_append, List.foldlM_append, thinkAndText_folded, List.map_map]
    exact toolBlocks_folded rt ⟨content, []⟩ objects
  unfold messageBlocks
  simp only
  split
  · rename_i none
    -- The block of an empty text stands for no block at all.
    rw [show thinkAndText content ++ calls.map (toolBlock rt) = [] from none] at blocks
    rw [← blocks]
    rfl
  · exact blocks

end Blocks

/-- An assistant turn with the blocks of a message is converted to that message. -/
theorem convertMessage_turn (rt : Runtime) {content : Bytes} {calls : List ToolCall} {turn : Value}
    (objects : ∀ call ∈ calls, HasObjectArguments rt call)
    (isTurn : IsTurn turn (messageBlocks rt content calls)) :
    convertMessage rt turn =
      .ok [assistantMessage ⟨content, calls.map fun call => callTable (recoded rt call)⟩] := by
  obtain ⟨fields, rfl, role, blocks⟩ := isTurn
  have user : isLit (some (.str (lit "assistant"))) "user" = false := by decide
  have assistant : isLit (some (.str (lit "assistant"))) "assistant" = true := by decide
  simp only [convertMessage, index_obj, role, blocks, bind, Except.bind, user, assistant,
    convertAssistantMessage, ipairs, messageBlocks_folded rt objects, pure, Except.pure, if_true,
    Bool.false_eq_true, if_false]

theorem isAssistant_message (rt : Runtime) (content : Bytes) (calls : List ToolCall) :
    IsAssistant (assistantMessage ⟨content, calls.map fun call => callTable (recoded rt call)⟩)
      content (calls.map (recoded rt)) := by
  cases calls with
  | nil => exact ⟨_, rfl, rfl, rfl, .inr ⟨rfl, rfl⟩⟩
  | cons call calls =>
      refine ⟨_, rfl, rfl, rfl, .inl ⟨_, rfl, ?_⟩⟩
      rw [List.forall₂_map_left_iff, List.forall₂_map_right_iff]
      exact List.forall₂_same.mpr fun call _ => isCall_callTable (recoded rt call)

/-- Wherever a turn with these blocks stands in a conversation, one message stands
    there in the request, and it has this content and these calls. -/
def ComesBack (rt : Runtime) (blocks : List ResponseBlock) (content : Bytes)
    (calls : List ToolCall) : Prop :=
  ∃ msg calls', IsAssistant msg content calls' ∧ List.Forall₂ (SameCall rt) calls calls' ∧
    ∀ turn, IsTurn turn blocks → convertMessage rt turn = .ok [msg] ∧
      ∀ claudeBody before after oai,
        index (some claudeBody) "messages" = .ok (some (.arr (before ++ turn :: after))) →
        requestToOpenai rt claudeBody = .ok oai →
        ∃ system heading pre post, index (some claudeBody) "system" = .ok system ∧
          systemMessage rt system = .ok heading ∧ convertMessages rt before = .ok pre ∧
          convertMessages rt after = .ok post ∧
          index (some oai) "messages" = .ok (some (.arr (heading ++ (pre ++ msg :: post))))

theorem claude_round_trip (rt : Runtime) (now : Rat) (model : Option Value)
    {openaiResp : Bytes} {resp : Value} {content : Bytes} {calls : List ToolCall}
    (decoded : rt.decode openaiResp = some resp) (isResponse : IsResponse resp content calls)
    (objects : ∀ call ∈ calls, HasObjectArguments rt call) :
    ∃ r, responseFromOpenai rt now openaiResp model = .ok (some r) ∧
      ComesBack rt r.content content calls := by
  obtain ⟨r, translated, blocks⟩ := responseFromOpenai_ok rt now model decoded isResponse
  refine ⟨r, translated, _, _, isAssistant_message rt content calls, ?_, fun turn isTurn => ?_⟩
  · rw [List.forall₂_map_right_iff]
    exact List.forall₂_same.mpr fun call mem => recoded_same rt (objects call mem)
  · have converted := convertMessage_turn rt objects (blocks ▸ isTurn)
    refine ⟨converted, fun claudeBody before after oai given request => ?_⟩
    obtain ⟨system, heading, all, hsystem, hheading, hall, messages⟩ :=
      requestToOpenai_messages given request
    obtain ⟨pre, rest, hpre, hrest, rfl⟩ := convertMessages_append rt hall
    obtain ⟨own, post, hown, hpost, rfl⟩ := convertMessages_cons rt hrest
    cases converted.symm.trans hown
    exact ⟨system, heading, pre, post, hsystem, hheading, hpre, hpost, messages⟩

namespace Sample

def call : ToolCall := ⟨.str (lit "c"), .str (lit "f"), lit "\x7b\"x\":1\x7d"⟩

def callInput : Value := .obj [(lit "x", .num 1)]

def answer : Bytes :=
  lit "\x7b\"choices\":[\x7b\"message\":\x7b\"content\":\"<think>a</think>b\",\"tool_calls\":[" ++
    lit "\x7b\"id\":\"c\",\"function\":\x7b\"name\":\"f\",\"arguments\":" ++
    lit "\"\x7b\\\"x\\\":1\x7d\"\x7d\x7d]\x7d\x7d]\x7d"

def answerValue : Value :=
  table [("choices", some (.arr [table [("message", some (table
    [("content", some (.str (lit "<think>a</think>b"))),
      ("tool_calls", some (.arr [table [("id", some call.id), ("function", some (table
        [("name", some call.name), ("arguments", some (.str call.arguments))]))]]))]))]]))]

/-- A codec that knows the answer and the arguments in it. -/
def codec : Runtime :=
  { Runtime.ofDocuments [(answer, answerValue), (call.arguments, callInput)] with
    encode := fun v => if v = callInput then call.arguments else [] }

theorem isResponse : IsResponse answerValue (lit "<think>a</think>b") [call] :=
  ⟨_, _, _, _, rfl, nofun, rfl, rfl, rfl, .inl ⟨_, rfl, .cons ⟨_, _, rfl, rfl, rfl, rfl, rfl⟩ .nil⟩⟩

theorem call_objects : ∀ other ∈ [call], HasObjectArguments codec other := by
  intro other mem
  rw [List.mem_singleton] at mem
  subst mem
  exact ⟨[(lit "x", .num 1)], by decide, by decide⟩

end Sample

theorem claude_round_trip_sample :
    ∃ r, responseFromOpenai Sample.codec 0 Sample.answer none = .ok (some r) ∧
      ComesBack Sample.codec r.content (lit "<think>a</think>b") [Sample.call] :=
  claude_round_trip Sample.codec 0 none (by decide) Sample.isResponse Sample.call_objects

end E2eeProxy.Claude
