import E2eeProxy.ClaudeRoundTrip
import E2eeProxy.Lua.Cjson
import E2eeProxy.Lua.JsonPatch

/-! # Tool input in the bytes for the client

`encode_with_empty_arrays` is applied to the result of `response_from_openai`. The
arguments of a tool call have gone through a decoder that does not mark arrays; what
the patch of the text makes an array again depends on the key alone.
-/

namespace E2eeProxy.Claude

open E2eeProxy.Lua E2eeProxy.OpenAi E2eeProxy.Lib

def contentName : Bytes := lit "content"
def annotationsName : Bytes := lit "annotations"

/-- Encode and patch known empty-object fields that should be arrays. -/
def encodeWithEmptyArrays (rt : Runtime) (obj : Value) : LuaM (Option Bytes) :=
  if rt.encodes obj then do
    let json ← gsub rt (lit "\"content\":\x7b\x7d") (.str (lit "\"content\":[]")) (rt.encode obj)
    let json ← gsub rt (lit "\"annotations\":\x7b\x7d") (.str (lit "\"annotations\":[]")) json
    return some json
  else return none

def StopReason.name : StopReason → String
  | .endTurn => "end_turn"
  | .maxTokens => "max_tokens"
  | .toolUse => "tool_use"

/-- The table `response_from_openai` returns. -/
def Response.value (r : Response) : Value :=
  table [("id", some (.str r.id)), ("type", some (.str (lit "message"))),
    ("role", some (.str (lit "assistant"))),
    ("content", some (.arr (r.content.map ResponseBlock.value))), ("model", some r.model),
    ("stop_reason", some (.str (lit r.stopReason.name))), ("stop_sequence", some .null),
    ("usage", some (table (match r.usage with
      | some (input, output) => [("input_tokens", some input), ("output_tokens", some output)]
      | none => [])))]

/-- The `input` of a `tool_use` block. -/
def toolInput (block : Value) : Option Value :=
  if jsonField "type" block = some (.str (lit "tool_use")) then jsonField "input" block else none

/-- The inputs of the `tool_use` blocks of a message. -/
def toolInputs (message : Value) : List Value :=
  match jsonField "content" message with
  | some (.arr blocks) => blocks.filterMap toolInput
  | _ => []

/-- The tool calls of the first choice. -/
def HasToolCalls (resp : Value) (calls : List Value) : Prop :=
  ∃ fields choice others message, resp = .obj fields ∧
    fields.lookup (lit "choices") = some (.arr (.obj choice :: others)) ∧
    choice.lookup (lit "message") = some (.obj message) ∧
    message.lookup (lit "tool_calls") = some (.arr calls)

/-- The arguments string of a tool call. -/
def HasArguments (call : Value) (arguments : Bytes) : Prop :=
  ∃ fields parts, call = .obj fields ∧ fields.lookup (lit "function") = some (.obj parts) ∧
    parts.lookup (lit "arguments") = some (.str arguments)

/-- The `j`th tool input in the text is `v`. -/
def InputSent (codec : NumberCodec) (json : Bytes) (j : Nat) (v : Value) : Prop :=
  ∃ message input, codec.Denotes json message ∧ (toolInputs message)[j]? = some input ∧ Same input v

/-- The empty objects that are made arrays. -/
def isPatched (key : Option Bytes) : Bool :=
  key.any (matchesKey contentName) || key.any (matchesKey annotationsName)

/-- A leaf, with the key whose value it is, that the client gets as it was. -/
def LeafKept (codec : NumberCodec) : Option Bytes × Value → Prop
  | (_, .num q) => codec.print (codec.read q) = q
  | (key, .arr []) => isPatched key = true
  | (key, .obj []) => isPatched key = false
  | _ => True

/-! ## The patch -/

theorem content_plain : PlainName contentName :=
  ⟨by decide +kernel, 99, lit "ontent", rfl, by decide⟩

theorem annotations_plain : PlainName annotationsName :=
  ⟨by decide +kernel, 97, lit "nnotations", rfl, by decide⟩

/-- What is sent for what was decoded. -/
def sent (codec : NumberCodec) (key : Option Bytes) (v : Value) : Value :=
  recode codec.print (fun key array => array || isPatched key) key v

theorem patched_text {codec : NumberCodec} {name : Bytes} (plain : PlainName name) (v : Value) :
    patchText name (codec.text v) = codec.text (patched name none v) := by
  have follows : FollowsValue [] := by
    rintro c t ⟨⟩
  have whole := codec.patchText_text plain v none [] (fun _ => rfl) follows
  simpa [patchText, replaceAll] using whole

theorem encodeWithEmptyArrays_denotes {rt : Runtime} {codec : NumberCodec} {v : Value}
    (encodes : rt.encodes v = true) (writes : codec.Writes rt v) :
    ∃ json w, encodeWithEmptyArrays rt v = .ok (some json) ∧ codec.Denotes json w ∧
      Same w (sent codec none v) := by
  obtain ⟨w, written, isText⟩ := writes
  have content : gsub rt (lit "\"content\":\x7b\x7d") (.str (lit "\"content\":[]")) (codec.text w) =
      .ok (codec.text (patched contentName none w)) :=
    (gsub_plain rt _ (by decide) _).trans (congrArg Except.ok (patched_text content_plain w))
  have annotations : gsub rt (lit "\"annotations\":\x7b\x7d") (.str (lit "\"annotations\":[]"))
      (codec.text (patched contentName none w)) =
      .ok (codec.text (patched annotationsName none (patched contentName none w))) :=
    (gsub_plain rt _ (by decide) _).trans (congrArg Except.ok (patched_text annotations_plain _))
  refine ⟨codec.text (patched annotationsName none (patched contentName none w)), _, ?_,
    ⟨_, rfl, rfl⟩, ?_⟩
  · unfold encodeWithEmptyArrays
    rw [if_pos encodes, isText, content]
    simp only [bind, Except.bind]
    rw [annotations]
    rfl
  · have composed : codec.printed none (patched annotationsName none (patched contentName none w)) =
        sent codec none w := by
      unfold NumberCodec.printed patched sent
      rw [recode_recode, recode_recode]
      simp only [isPatched, Bool.or_assoc]
    rw [composed]
    exact written.recode _ _ none

/-! ## The answer -/

theorem rel_toolInput {v w : Value} (same : Same v w) : Option.Rel Same (toolInput v) (toolInput w) := by
  have type := same.jsonField "type"
  have isTool : jsonField "type" v = some (.str (lit "tool_use")) ↔
      jsonField "type" w = some (.str (lit "tool_use")) := by
    generalize jsonField "type" v = a at type
    generalize jsonField "type" w = b at type
    cases type with
    | none => exact Iff.rfl
    | some same =>
        constructor
        · intro isStr
          cases isStr
          cases same
          rfl
        · intro isStr
          cases isStr
          cases same
          rfl
  unfold toolInput
  by_cases tool : jsonField "type" v = some (.str (lit "tool_use"))
  · rw [if_pos tool, if_pos (isTool.mp tool)]
    exact same.jsonField "input"
  · rw [if_neg tool, if_neg fun h => tool (isTool.mpr h)]
    exact .none

/-- Messages with the same value have the same tool inputs. -/
theorem Same.toolInputs {v w : Value} (same : Same v w) :
    List.Forall₂ Same (toolInputs v) (toolInputs w) := by
  have content := same.jsonField "content"
  unfold Claude.toolInputs
  generalize jsonField "content" v = a at content
  generalize jsonField "content" w = b at content
  cases content with
  | none => exact .nil
  | some same =>
      cases same with
      | null | bool | num | str | obj => exact .nil
      | arr length each =>
          exact List.rel_filterMap (fun _ _ same => rel_toolInput same)
            (same_arr_iff.mp (.arr length each))

/-- The input of a block of the response. -/
def ResponseBlock.input : ResponseBlock → Option Value
  | .toolUse _ _ input => some input
  | .thinking _ | .text _ => none

theorem toolInput_sent (codec : NumberCodec) (block : ResponseBlock) :
    toolInput (sent codec none block.value) = block.input.map (sent codec (some (lit "input"))) := by
  unfold toolInput sent
  rw [jsonField_recode, jsonField_recode]
  cases block with
  | thinking s => rfl
  | text s => rfl
  | toolUse id name input => cases id <;> cases name <;> rfl

theorem toolInputs_sent (codec : NumberCodec) (r : Response) :
    toolInputs (sent codec none r.value) =
      (r.content.filterMap ResponseBlock.input).map (sent codec (some (lit "input"))) := by
  have content : jsonField "content" r.value = some (.arr (r.content.map ResponseBlock.value)) := rfl
  have blocks : (r.content.map ResponseBlock.value).map (sent codec none) =
      r.content.map fun block => sent codec none block.value := by
    rw [List.map_map]
    rfl
  have array : sent codec (some (lit "content")) (.arr (r.content.map ResponseBlock.value)) =
      .arr (r.content.map fun block => sent codec none block.value) := by
    by_cases none : r.content = []
    · rw [none]
      rfl
    · unfold sent
      rw [recode_arr _ _ (by simpa using none)]
      exact congrArg Value.arr blocks
  have field : jsonField "content" (sent codec none r.value) =
      some (.arr (r.content.map fun block => sent codec none block.value)) := by
    rw [← array]
    unfold sent
    rw [jsonField_recode, content]
    rfl
  unfold toolInputs
  rw [field]
  simp only [List.filterMap_map, Function.comp_def, toolInput_sent, List.map_filterMap]

theorem thinkAndText_input (text : Bytes) : (thinkAndText text).filterMap ResponseBlock.input = [] := by
  have nothing (s : Bytes) : (unlessEmpty ResponseBlock.text s).filterMap ResponseBlock.input = [] := by
    unfold unlessEmpty
    split <;> rfl
  unfold thinkAndText
  split
  · exact nothing _
  · exact nothing _

/-- The inputs of a message are those of its tool calls. -/
theorem messageContent_inputs {rt : Runtime} {message : List (Bytes × Value)} {calls : List Value}
    {content : List ResponseBlock × Bool}
    (toolCalls : message.lookup (lit "tool_calls") = some (.arr calls))
    (translated : messageContent rt (.obj message) = .ok content) :
    ∃ tools, calls.mapM (toolUse rt) = .ok tools ∧
      content.1.filterMap ResponseBlock.input = tools.filterMap ResponseBlock.input := by
  unfold messageContent at translated
  obtain ⟨_, -, translated⟩ := bind_ok translated
  obtain ⟨text, -, translated⟩ := bind_ok translated
  rw [index_obj, toolCalls] at translated
  obtain ⟨tools, mapped, translated⟩ := bind_ok (x := calls.mapM (toolUse rt)) translated
  cases translated
  refine ⟨tools, mapped, ?_⟩
  have inputs : (thinkAndText text ++ tools).filterMap ResponseBlock.input =
      tools.filterMap ResponseBlock.input := by
    rw [List.filterMap_append, thinkAndText_input, List.nil_append]
  rw [← inputs]
  by_cases none : thinkAndText text ++ tools = []
  · simp only [if_pos none]
    rw [none]
    rfl
  · simp only [if_neg none]

/-- A translated answer has the inputs of its tool calls. -/
theorem responseFromOpenai_inputs {rt : Runtime} {now : Rat} {model : Option Value}
    {openaiResp : Bytes} {resp : Value} {calls : List Value} {r : Response}
    (decoded : rt.decode openaiResp = some resp) (hasCalls : HasToolCalls resp calls)
    (translated : responseFromOpenai rt now openaiResp model = .ok (some r)) :
    ∃ tools, calls.mapM (toolUse rt) = .ok tools ∧
      r.content.filterMap ResponseBlock.input = tools.filterMap ResponseBlock.input := by
  obtain ⟨fields, choice, others, message, rfl, choices, hmessage, toolCalls⟩ := hasCalls
  have isDecoded : rt.decodeTruthy openaiResp = some (.obj fields) :=
    decodeTruthy_eq_some.mpr ⟨decoded, rfl⟩
  have receiver : orElse (choice.lookup (lit "message")) (.obj []) = .obj message := by
    rw [hmessage]
    rfl
  have taken : present (List.head? (Value.obj choice :: others)) = some (.obj choice) := rfl
  simp only [responseFromOpenai, isDecoded, Option.getD_some, index_obj, choices, truthy, first,
    ↓reduceIte, taken, receiver, bind, Except.bind] at translated
  cases isContent : messageContent rt (.obj message) with
  | error e =>
      rw [isContent] at translated
      cases translated
  | ok content =>
      simp only [isContent] at translated
      have blocks : r.content = content.1 := by
        split at translated
        · cases translated
        · split at translated
          · cases translated
          · cases translated
            rfl
      rw [blocks]
      exact messageContent_inputs toolCalls isContent

/-- The input of a tool call is what its arguments are decoded to. -/
theorem toolUse_input {rt : Runtime} {call w : Value} {arguments : Bytes} {block : ResponseBlock}
    (hasArguments : HasArguments call arguments) (decoded : rt.decodeTruthy arguments = some w)
    (translated : toolUse rt call = .ok block) : block.input = some w := by
  obtain ⟨fields, parts, rfl, fn, isArguments⟩ := hasArguments
  simp only [toolUse, index_obj, fn, isArguments, orElse, decodeArgument, decoded, bind, Except.bind,
    pure, Except.pure, Except.ok.injEq] at translated
  rw [← translated]
  rfl

/-- Every block of a tool call has an input. -/
theorem toolUse_isInput {rt : Runtime} {call : Value} {block : ResponseBlock}
    (translated : toolUse rt call = .ok block) : ∃ input, block.input = some input := by
  unfold toolUse at translated
  obtain ⟨fn, -, translated⟩ := bind_ok translated
  obtain ⟨arguments, -, translated⟩ := bind_ok translated
  obtain ⟨json, -, translated⟩ := bind_ok translated
  obtain ⟨id, -, translated⟩ := bind_ok translated
  obtain ⟨name, -, translated⟩ := bind_ok translated
  cases translated
  exact ⟨_, rfl⟩

/-- The inputs stand in the order of the calls. -/
theorem toolUses_input {rt : Runtime} {calls : List Value} {tools : List ResponseBlock} {j : Nat}
    {call : Value} (mapped : calls.mapM (toolUse rt) = .ok tools) (at' : calls[j]? = some call) :
    ∃ block, toolUse rt call = .ok block ∧
      (tools.filterMap ResponseBlock.input)[j]? = block.input := by
  have pairs := mapM_forall₂ mapped
  clear mapped
  induction pairs generalizing j with
  | nil => cases at'
  | @cons x block calls tools head tail ih =>
      obtain ⟨input, isInput⟩ := toolUse_isInput head
      rw [List.filterMap_cons, isInput]
      cases j with
      | zero =>
          cases at'
          exact ⟨block, head, isInput.symm⟩
      | succ j => exact ih at'

/-! ## What is kept -/

/-- What the client gets for a value in the arguments. -/
def asReceived (codec : NumberCodec) (key : Option Bytes) (v : Value) : Value :=
  recode (fun q => codec.print (codec.read q)) (fun key _ => isPatched key) key v

theorem sent_decoded (codec : NumberCodec) (key : Option Bytes) (v : Value) :
    sent codec key (codec.decoded false key v) = asReceived codec key v := by
  unfold sent NumberCodec.decoded asReceived
  rw [recode_recode]
  simp only [Bool.and_false, Bool.false_or]

theorem decoded_key (codec : NumberCodec) (key key' : Option Bytes) (v : Value) :
    codec.decoded false key v = codec.decoded false key' v := by
  cases v with
  | null | bool | num | str => rfl
  | arr items => cases items <;> rfl
  | obj fields => cases fields <;> rfl

theorem leafKept_iff {codec : NumberCodec} {e : Option Bytes × Value} (leaf : IsLeaf e.2) :
    asReceived codec e.1 e.2 = e.2 ↔ LeafKept codec e := by
  obtain ⟨key, x⟩ := e
  unfold asReceived
  cases x with
  | null | bool | str | num => simp [recode, LeafKept]
  | arr items =>
      cases items with
      | nil => cases patched : isPatched key <;> simp [recode, LeafKept, emptied, patched]
      | cons x xs => cases leaf
  | obj fields =>
      cases fields with
      | nil => cases patched : isPatched key <;> simp [recode, LeafKept, emptied, patched]
      | cons f fs => cases leaf

theorem forall₂_getElem? {α β : Type} {R : α → β → Prop} {xs : List α} {ys : List β} {j : Nat} {y : β}
    (pairs : List.Forall₂ R xs ys) (at' : ys[j]? = some y) : ∃ x, xs[j]? = some x ∧ R x y := by
  induction pairs generalizing j with
  | nil => cases at'
  | @cons x z xs ys head tail ih =>
      cases j with
      | zero =>
          cases at'
          exact ⟨x, rfl, head⟩
      | succ j => exact ih at'

/-- The client gets an input for each tool call. -/
theorem input_received {rt : Runtime} {codec : NumberCodec} {now : Rat} {model : Option Value}
    {openaiResp arguments : Bytes} {resp call : Value} {calls : List Value} {r : Response} {j : Nat}
    {fields : List (Bytes × Value)} (decoded : rt.decode openaiResp = some resp)
    (hasCalls : HasToolCalls resp calls) (at' : calls[j]? = some call)
    (hasArguments : HasArguments call arguments)
    (decodes : codec.Decodes rt false arguments (.obj fields))
    (translated : responseFromOpenai rt now openaiResp model = .ok (some r))
    (encodes : rt.encodes r.value = true) (writes : codec.Writes rt r.value) :
    ∃ json message input, encodeWithEmptyArrays rt r.value = .ok (some json) ∧
      codec.Denotes json message ∧ (toolInputs message)[j]? = some input ∧
      Same input (asReceived codec (some (lit "input")) (.obj fields)) := by
  obtain ⟨w, isDecoded, same, -⟩ := decodes
  have table : truthy (some w) = true := by
    cases fields with
    | nil =>
        cases same
        rfl
    | cons f fs =>
        cases same
        rfl
  obtain ⟨json, message, encoded, denotes, isSent⟩ := encodeWithEmptyArrays_denotes encodes writes
  obtain ⟨tools, mapped, inputs⟩ := responseFromOpenai_inputs decoded hasCalls translated
  obtain ⟨block, used, held⟩ := toolUses_input mapped at'
  rw [toolUse_input hasArguments (decodeTruthy_eq_some.mpr ⟨isDecoded, table⟩) used] at held
  have related := Same.toolInputs isSent
  rw [toolInputs_sent, inputs] at related
  have sentInput : ((tools.filterMap ResponseBlock.input).map (sent codec (some (lit "input"))))[j]? =
      some (sent codec (some (lit "input")) w) := by
    rw [List.getElem?_map, held]
    rfl
  obtain ⟨input, present, isInput⟩ := forall₂_getElem? related sentInput
  refine ⟨json, message, input, encoded, denotes, present, isInput.trans ?_⟩
  rw [decoded_key codec none (some (lit "input"))] at same
  rw [← sent_decoded]
  exact same.recode _ _ _

theorem inputSent_iff {codec : NumberCodec} {json : Bytes} {message input v : Value} {j : Nat}
    (denotes : codec.Denotes json message) (present : (toolInputs message)[j]? = some input) :
    InputSent codec json j v ↔ Same input v := by
  constructor
  · rintro ⟨other, input', denotes', present', isValue⟩
    cases denotes.unique denotes'
    rw [present] at present'
    cases present'
    exact isValue
  · intro isValue
    exact ⟨message, input, denotes, present, isValue⟩

/-- The `input` of a tool call in the bytes for the client is the object that its
    arguments are the text of exactly when each leaf of this is kept: an empty array
    only where its key has it made an array again, an empty object only elsewhere. -/
theorem tool_input_kept_iff {rt : Runtime} {codec : NumberCodec} (now : Rat) (model : Option Value)
    {openaiResp arguments : Bytes} {resp call : Value} {calls : List Value} {r : Response} {j : Nat}
    {fields : List (Bytes × Value)} (decoded : rt.decode openaiResp = some resp)
    (hasCalls : HasToolCalls resp calls) (at' : calls[j]? = some call)
    (hasArguments : HasArguments call arguments)
    (decodes : codec.Decodes rt false arguments (.obj fields))
    (translated : responseFromOpenai rt now openaiResp model = .ok (some r))
    (encodes : rt.encodes r.value = true) (writes : codec.Writes rt r.value) :
    ∃ json, encodeWithEmptyArrays rt r.value = .ok (some json) ∧
      (InputSent codec json j (.obj fields) ↔
        ∀ e ∈ leaves (some (lit "input")) (.obj fields), LeafKept codec e) := by
  obtain ⟨json, message, input, encoded, denotes, present, isInput⟩ :=
    input_received decoded hasCalls at' hasArguments decodes translated encodes writes
  refine ⟨json, encoded, ?_⟩
  have kept : Same input (.obj fields) ↔
      Same (asReceived codec (some (lit "input")) (.obj fields)) (.obj fields) :=
    ⟨isInput.symm.trans, isInput.trans⟩
  rw [inputSent_iff denotes present, kept, asReceived, same_recode_iff]
  constructor
  · intro each e mem
    exact (leafKept_iff (isLeaf_of_mem _ _ e mem)).mp (each e mem)
  · intro each e mem
    exact (leafKept_iff (isLeaf_of_mem _ _ e mem)).mpr (each e mem)

namespace Sample

/-- A tool call with an empty array and an empty object in its arguments. -/
def emptyArguments : Bytes := lit "\x7b\"a\":[],\"content\":\x7b\x7d\x7d"

def emptyInput : List (Bytes × Value) := [(lit "a", .arr []), (lit "content", .obj [])]

def emptyCall : Value :=
  .obj [(lit "id", .str (lit "c")),
    (lit "function", .obj [(lit "name", .str (lit "f")), (lit "arguments", .str emptyArguments)])]

def emptyAnswer : Bytes :=
  lit "\x7b\"id\":\"1\",\"choices\":[\x7b\"message\":\x7b\"content\":\"\",\"tool_calls\":[" ++
    lit "\x7b\"id\":\"c\",\"function\":\x7b\"name\":\"f\",\"arguments\":" ++ quoted emptyArguments ++
    lit "\x7d\x7d]\x7d\x7d]\x7d"

def emptyAnswerValue : Value :=
  .obj [(lit "id", .str (lit "1")),
    (lit "choices", .arr [.obj [(lit "message", .obj [(lit "content", .str []),
      (lit "tool_calls", .arr [emptyCall])])]])]

def emptyRuntime : Runtime :=
  Lua.Sample.cjson [(emptyAnswer, emptyAnswerValue),
    (emptyArguments, .obj [(lit "a", .obj []), (lit "content", .obj [])])]

def emptyResponse : Response where
  id := lit "msg_1"
  content := [.toolUse (some (.str (lit "c"))) (some (.str (lit "f")))
    (.obj [(lit "a", .obj []), (lit "content", .obj [])])]
  model := .str (lit "unknown")
  stopReason := .toolUse
  usage := none

theorem empty_decoded : emptyRuntime.decode emptyAnswer = some emptyAnswerValue := by decide

theorem empty_hasCalls : HasToolCalls emptyAnswerValue [emptyCall] :=
  ⟨_, _, _, _, rfl, rfl, rfl, rfl⟩

theorem empty_hasArguments : HasArguments emptyCall emptyArguments := ⟨_, _, rfl, rfl, rfl⟩

theorem empty_decodes : Lua.Sample.codec.Decodes emptyRuntime false emptyArguments (.obj emptyInput) := by
  refine ⟨.obj [(lit "a", .obj []), (lit "content", .obj [])], by decide, .refl _, ?_⟩
  rintro fields ⟨⟩
  decide

theorem empty_translated :
    responseFromOpenai emptyRuntime 0 emptyAnswer none = .ok (some emptyResponse) := rfl

theorem empty_encodes : emptyRuntime.encodes emptyResponse.value = true := by decide

theorem empty_writes : Lua.Sample.codec.Writes emptyRuntime emptyResponse.value :=
  (Lua.Sample.defaults _).writes _ empty_encodes

end Sample

theorem tool_input_kept_iff_sample :
    ∃ json, encodeWithEmptyArrays Sample.emptyRuntime Sample.emptyResponse.value = .ok (some json) ∧
      (InputSent Lua.Sample.codec json 0 (.obj Sample.emptyInput) ↔
        ∀ e ∈ leaves (some (lit "input")) (.obj Sample.emptyInput), LeafKept Lua.Sample.codec e) :=
  tool_input_kept_iff 0 none Sample.empty_decoded Sample.empty_hasCalls rfl Sample.empty_hasArguments
    Sample.empty_decodes Sample.empty_translated Sample.empty_encodes Sample.empty_writes

/-- The empty array arrives as an object and the empty object as an array. -/
theorem empty_containers_swapped :
    ∃ json, encodeWithEmptyArrays Sample.emptyRuntime Sample.emptyResponse.value = .ok (some json) ∧
      InputSent Lua.Sample.codec json 0 (.obj [(lit "a", .obj []), (lit "content", .arr [])]) ∧
      ¬ InputSent Lua.Sample.codec json 0 (.obj Sample.emptyInput) := by
  obtain ⟨json, message, input, encoded, denotes, present, isInput⟩ :=
    input_received (j := 0) Sample.empty_decoded Sample.empty_hasCalls rfl Sample.empty_hasArguments
      Sample.empty_decodes Sample.empty_translated Sample.empty_encodes Sample.empty_writes
  refine ⟨json, encoded, (inputSent_iff denotes present).mpr isInput, ?_⟩
  rw [inputSent_iff denotes present]
  intro unchanged
  have same := (isInput.symm.trans unchanged).jsonField "a"
  cases same with
  | some same => cases same

end E2eeProxy.Claude
