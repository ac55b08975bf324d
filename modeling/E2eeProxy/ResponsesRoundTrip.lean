import E2eeProxy.ClaudeRoundTrip
import E2eeProxy.ResponsesRequest

/-! # A Responses answer sent back

`response_from_openai` puts the message item before its function calls, and
`request_to_openai` adds function calls to the message that comes after them.
A message with tool calls is therefore taken apart, and so is one whose
reasoning is empty, which leaves no trace in what is pending.
-/

namespace E2eeProxy.Responses

open E2eeProxy.Lua E2eeProxy.OpenAi E2eeProxy.Lib
open E2eeProxy.Claude (ToolCall IsCall HasCalls IsAssistant matchThink matchThink_eq matchReceiver)

def textPart (text : Bytes) : Value :=
  table [("type", some (.str (lit "output_text"))), ("text", some (.str text)),
    ("annotations", some (.arr []))]

/-- An output item as the client receives it. -/
def OutputItem.value (item : OutputItem) : Value :=
  let common (type : String) (id : Bytes) : List (String × Option Value) :=
    [("type", some (.str (lit type))), ("id", some (.str id)),
      ("object", some (.str (lit "realtime.item"))), ("status", some (.str (lit "completed")))]
  match item with
  | .reasoning id text => table (common "reasoning" id ++ [("text", some (.str text))])
  | .message id content =>
      table (common "message" id ++ [("role", some (.str (lit "assistant"))),
        ("content", some (.arr (content.map textPart)))])
  | .functionCall id callId name arguments =>
      table (common "function_call" id ++ [("call_id", callId), ("name", name),
        ("arguments", some arguments)])

/-- The token counts of a completion, where it has them. -/
def HasUsage (usage : Option Value) : Prop :=
  ∀ fields, usage = some (.obj fields) →
    field fields "prompt_tokens" isNumber = true ∧ field fields "completion_tokens" isNumber = true

/-- A completion whose first choice is a message with this content and these calls. -/
def IsCompletion (resp : Value) (content : Bytes) (calls : List ToolCall) : Prop :=
  ∃ fields choice others message, resp = .obj fields ∧ HasUsage (fields.lookup (lit "usage")) ∧
    fields.lookup (lit "choices") = some (.arr (.obj choice :: others)) ∧
    choice.lookup (lit "message") = some (.obj message) ∧
    message.lookup (lit "content") = some (.str content) ∧
    HasCalls (message.lookup (lit "tool_calls")) calls

/-- The input item with the output of a call. -/
def IsResult (result : Value) (call : ToolCall) (output : Bytes) : Prop :=
  ∃ fields, result = .obj fields ∧
    fields.lookup (lit "type") = some (.str (lit "function_call_output")) ∧
    fields.lookup (lit "call_id") = some call.id ∧
    fields.lookup (lit "output") = some (.str output)

/-- The message that a tool sends to the model. -/
def IsToolMessage (msg : Value) (call : ToolCall) (output : Bytes) : Prop :=
  ∃ fields, msg = .obj fields ∧ fields.lookup (lit "role") = some (.str (lit "tool")) ∧
    fields.lookup (lit "content") = some (.str output) ∧
    fields.lookup (lit "tool_call_id") = some call.id

/-- The items and one result for each call become one assistant message with this
    content and these calls, and the tool messages. -/
def ComesBack (rt : Runtime) (output : List OutputItem) (content : Bytes)
    (calls : List ToolCall) : Prop :=
  ∀ answers : List (ToolCall × Bytes), answers.map Prod.fst = calls →
    ∀ results, List.Forall₂ (fun result answer => IsResult result answer.1 answer.2) results
      answers →
    ∃ msg tools, IsAssistant msg content calls ∧
      List.Forall₂ (fun tool answer => IsToolMessage tool answer.1 answer.2) tools answers ∧
      inputMessages rt (some (.arr (output.map OutputItem.value ++ results))) =
        .ok (msg :: tools) ∧
      ∀ respBody oai,
        index (some respBody) "input" =
          .ok (some (.arr (output.map OutputItem.value ++ results))) →
        requestToOpenai rt respBody = .ok oai →
        ∃ instructions, index (some respBody) "instructions" = .ok instructions ∧
          index (some oai) "messages" =
            .ok (some (.arr (instructionMessage instructions ++ msg :: tools)))

/-! ## Responses -/

theorem functionCallItem_isCall (ids : Ids) {tc : Value} {call : ToolCall} (isCall : IsCall tc call)
    (n : Nat) :
    functionCallItem ids tc n =
      .ok (.functionCall (ids.item n) (some call.id) (some call.name) (.str call.arguments)) := by
  obtain ⟨fields, parts, rfl, id, fn, name, arguments⟩ := isCall
  simp [functionCallItem, fn, name, id, arguments, orElse, bind, Except.bind, pure, Except.pure]

/-- The function-call items of the calls, from the `n`-th id on. -/
def callItems (ids : Ids) (calls : List ToolCall) (n : Nat) : List OutputItem :=
  (calls.zipIdx n).map fun (call, n) =>
    .functionCall (ids.item n) (some call.id) (some call.name) (.str call.arguments)

theorem functionCallItems_isCall (ids : Ids) {items : List Value} {calls : List ToolCall}
    (each : List.Forall₂ IsCall items calls) (n : Nat) :
    ((items.zipIdx n).mapM fun (tc, n) => functionCallItem ids tc n) =
      .ok (callItems ids calls n) := by
  induction each generalizing n with
  | nil => rfl
  | cons head tail ih =>
      have rest := ih (n + 1)
      simp only [List.zipIdx_cons, List.mapM_cons, functionCallItem_isCall ids head, rest, bind,
        Except.bind, pure, Except.pure]
      rfl

def completionItems (ids : Ids) (content : Bytes) (calls : List ToolCall) : List OutputItem :=
  textItems ids content ++ callItems ids calls (textItems ids content).length

theorem messageItems_eq (ids : Ids) {message : List (Bytes × Value)} {content : Bytes}
    {calls : List ToolCall} (text : message.lookup (lit "content") = some (.str content))
    (hasCalls : HasCalls (message.lookup (lit "tool_calls")) calls) :
    messageItems ids (.obj message) = .ok (completionItems ids content calls) := by
  rcases hasCalls with ⟨items, field, each⟩ | ⟨notTable, rfl⟩
  · simp [messageItems, text, field, orElse, matchReceiver, isTable, ipairs,
      functionCallItems_isCall ids each, completionItems, bind, Except.bind, pure, Except.pure]
  · simp [messageItems, text, notTable, orElse, matchReceiver, completionItems, callItems, bind,
      Except.bind, pure, Except.pure]

theorem responseUsage_ok (rt : Runtime) {usage : Option Value} (counts : HasUsage usage) :
    ∃ u, responseUsage rt usage = .ok u := by
  have number (v : Option Value) (h : v.all isNumber) :
      ∃ q, rt.toNumber (some (orElse v (.num 0))) = some q := by
    rcases v with _ | (_ | _ | q | _ | _ | _)
    case num => exact ⟨q, rfl⟩
    case none => exact ⟨0, rfl⟩
    all_goals cases h
  rcases usage with _ | (_ | _ | _ | _ | _ | fields)
  case some.obj =>
      obtain ⟨prompt, completion⟩ := counts fields rfl
      obtain ⟨i, hi⟩ := number _ prompt
      obtain ⟨o, ho⟩ := number _ completion
      simp [responseUsage, isTable, hi, ho, bind, Except.bind, pure, Except.pure]
  all_goals exact ⟨_, rfl⟩

/-- A completion is translated, and its items are those of its message. -/
theorem responseFromOpenai_ok (rt : Runtime) (ids : Ids) (now : Rat) (model : Option Value)
    {openaiResp : Bytes} {resp : Value} {content : Bytes} {calls : List ToolCall}
    (decoded : rt.decode openaiResp = some resp) (completion : IsCompletion resp content calls) :
    ∃ r, responseFromOpenai rt ids now openaiResp model = .ok (some r) ∧
      r.output = completionItems ids content calls := by
  obtain ⟨fields, choice, others, message, rfl, counts, choices, hmessage, text, hasCalls⟩ :=
    completion
  have isDecoded : rt.decodeTruthy openaiResp = some (.obj fields) :=
    decodeTruthy_eq_some.mpr ⟨decoded, rfl⟩
  obtain ⟨usage, husage⟩ := responseUsage_ok rt counts
  have receiver : orElse (choice.lookup (lit "message")) (.obj []) = .obj message := by
    rw [hmessage]
    rfl
  have taken : present (List.head? (Value.obj choice :: others)) = some (.obj choice) := rfl
  simp only [responseFromOpenai, isDecoded, Option.getD_some, index_obj, choices, truthy, first,
    ↓reduceIte, taken, receiver, messageItems_eq ids text hasCalls, husage, bind, Except.bind]
  exact ⟨_, rfl, rfl⟩

/-! ## Requests -/

/-- Strings as ids and names, or at least something that counts as given. -/
def Identified (call : ToolCall) : Prop :=
  truthy (some call.id) = true ∧ truthy (some call.name) = true

theorem orElse_truthy {v : Value} (given : truthy (some v) = true) (w : Value) :
    orElse (some v) w = v := by
  rcases v with _ | (_ | _) | _ | _ | _ | _
  case bool.false => cases given
  all_goals rfl

section Items

variable (rt : Runtime) (pending : Pending)

theorem inputItems_append (items others : List Value) :
    inputItems rt pending (items ++ others) = do
      let now ← inputItems rt pending items
      let later ← inputItems rt now.1 others
      return (later.1, now.2 ++ later.2) := by
  induction items generalizing pending with
  | nil =>
      rw [List.nil_append, inputItems, pure_bind]
      cases inputItems rt pending others <;> rfl
  | cons item items ih =>
      rw [List.cons_append, inputItems, inputItems]
      cases inputItem rt pending item with
      | error e => rfl
      | ok now =>
          simp only [bind, Except.bind, pure, Except.pure, ih]
          cases inputItems rt now.1 items with
          | error e => rfl
          | ok mid =>
              simp only
              cases inputItems rt mid.1 others with
              | error e => rfl
              | ok last => simp

theorem inputItem_reasoning (itemId text : Bytes) :
    inputItem rt pending (OutputItem.reasoning itemId text).value =
      .ok ({ pending with reasoning := pending.reasoning ++ text }, []) := rfl

theorem inputItem_message (itemId text : Bytes) :
    inputItem rt pending (OutputItem.message itemId (unlessEmpty id text)).value =
      .ok (⟨[], []⟩, [assistantMessage pending text]) := by
  unfold unlessEmpty
  split
  · rename_i empty
    subst empty
    rfl
  · show Except.ok (_, [assistantMessage pending (List.intercalate (lit "\n") [text])]) = _
    simp

theorem inputItem_functionCall (itemId : Bytes) {call : ToolCall} (identified : Identified call) :
    inputItem rt pending (OutputItem.functionCall itemId (some call.id) (some call.name)
        (.str call.arguments)).value =
      .ok ({ pending with toolCalls := pending.toolCalls ++ [Claude.callTable call] }, []) := by
  have item : inputItem rt pending (OutputItem.functionCall itemId (some call.id) (some call.name)
        (.str call.arguments)).value =
      .ok ({ pending with toolCalls := pending.toolCalls ++ [Claude.callTable
        ⟨orElse (some call.id) (orElse (some (.str itemId)) (.str [])),
          orElse (some call.name) (.str []), call.arguments⟩] }, []) := rfl
  rw [item, orElse_truthy identified.1, orElse_truthy identified.2]

theorem inputItem_result {result : Value} {call : ToolCall} {output : Bytes}
    (identified : Identified call) (isResult : IsResult result call output) :
    ∃ msg, IsToolMessage msg call output ∧
      inputItem rt pending result = .ok ((flushCalls pending).1, (flushCalls pending).2 ++ [msg]) := by
  obtain ⟨fields, rfl, type, callId, text⟩ := isResult
  refine ⟨table [("role", some (.str (lit "tool"))), ("content", some (.str output)),
    ("tool_call_id", some call.id)], ⟨_, rfl, rfl, rfl, rfl⟩, ?_⟩
  have message : isLit (some (.str (lit "function_call_output"))) "message" = false := by decide
  have call' : isLit (some (.str (lit "function_call_output"))) "function_call" = false := by decide
  have output' : isLit (some (.str (lit "function_call_output"))) "function_call_output" = true := by
    decide
  simp only [inputItem, index_obj, type, message, call', output', functionCallOutput, text, callId,
    itemCallId, orElse_truthy identified.1, bind, Except.bind, Bool.false_eq_true, if_false, if_true]
  rfl

/-- Function calls are only collected. -/
theorem inputItems_calls (ids : Ids) {calls : List ToolCall}
    (identified : ∀ call ∈ calls, Identified call) (n : Nat) :
    inputItems rt pending ((callItems ids calls n).map OutputItem.value) =
      .ok ({ pending with toolCalls := pending.toolCalls ++ calls.map Claude.callTable }, []) := by
  induction calls generalizing pending n with
  | nil => simp [callItems, inputItems, pure, Except.pure]
  | cons call calls ih =>
      have rest := ih { pending with toolCalls := pending.toolCalls ++ [Claude.callTable call] }
        (fun other mem => identified other (List.mem_cons_of_mem call mem)) (n + 1)
      have unfolded : (callItems ids (call :: calls) n).map OutputItem.value =
          (OutputItem.functionCall (ids.item n) (some call.id) (some call.name)
            (.str call.arguments)).value :: (callItems ids calls (n + 1)).map OutputItem.value := rfl
      rw [unfolded, inputItems, inputItem_functionCall rt pending _ (identified call List.mem_cons_self)]
      simp only [bind, Except.bind, rest, pure, Except.pure, List.append_assoc, List.nil_append,
        List.map_cons, List.singleton_append]

/-- What is pending is flushed before the first result; then each result is one message. -/
theorem inputItems_results {answers : List (ToolCall × Bytes)}
    (identified : ∀ answer ∈ answers, Identified answer.1) {results : List Value}
    (each : List.Forall₂ (fun result answer => IsResult result answer.1 answer.2) results answers)
    (some' : answers ≠ []) :
    ∃ tools, inputItems rt pending results =
        .ok ((flushCalls pending).1, (flushCalls pending).2 ++ tools) ∧
      List.Forall₂ (fun tool answer => IsToolMessage tool answer.1 answer.2) tools answers := by
  induction each generalizing pending with
  | nil => exact absurd rfl some'
  | @cons result answer results answers head tail ih =>
      obtain ⟨msg, isTool, first⟩ := inputItem_result rt pending
        (identified answer List.mem_cons_self) head
      have flushed : flushCalls (flushCalls pending).1 = ((flushCalls pending).1, []) := by
        unfold flushCalls
        by_cases none : pending.toolCalls = [] <;> simp [none]
      rw [inputItems, first]
      cases tail with
      | nil =>
          exact ⟨[msg], by simp [inputItems, bind, Except.bind, pure, Except.pure],
            .cons isTool .nil⟩
      | cons next others =>
          obtain ⟨tools, rest, each⟩ := ih (flushCalls pending).1
            (fun other mem => identified other (List.mem_cons_of_mem answer mem)) (by simp)
          rw [flushed] at rest
          refine ⟨msg :: tools, ?_, .cons isTool each⟩
          simp only [bind, Except.bind, rest, pure, Except.pure, List.nil_append, List.append_assoc,
            List.singleton_append]

/-- The content as the message item brings it back, with what the reasoning item left. -/
def rejoined (content : Bytes) : Bytes :=
  match matchThink content with
  | some (thinking, remaining) => thinkTags thinking ++ remaining
  | none => content

theorem inputItems_text (ids : Ids) (content : Bytes) :
    inputItems rt ⟨[], []⟩ ((textItems ids content).map OutputItem.value) =
      .ok (⟨[], []⟩, [assistantMessage ⟨[], []⟩ (rejoined content)]) := by
  unfold textItems rejoined
  cases matchThink content with
  | none =>
      simp only [List.map_cons, List.map_nil, inputItems, inputItem_message, bind, Except.bind,
        pure, Except.pure, List.append_nil]
  | some found =>
      simp only [List.map_cons, List.map_nil, inputItems, inputItem_message, inputItem_reasoning,
        bind, Except.bind, pure, Except.pure, List.append_nil, List.nil_append]
      rfl

end Items

/-- Without reasoning between them the tags are not written again. -/
theorem rejoined_emptyReasoning (rest : Bytes) :
    rejoined (lit "<think></think>" ++ rest) = rest := by
  have opened : lit "<think></think>" ++ rest = lit "<think>" ++ (lit "</think>" ++ rest) := rfl
  have matched : matchThink (lit "<think></think>" ++ rest) = some ([], rest) := by
    rw [opened]
    rfl
  rw [rejoined, matched]
  rfl

/-- Empty reasoning is the only thing that is lost. -/
theorem rejoined_iff (content : Bytes) :
    rejoined content = content ↔ ¬ startsWith (lit "<think></think>") content := by
  constructor
  · intro same starts
    obtain ⟨rest, rfl⟩ := List.isPrefixOf_iff_prefix.mp starts
    rw [rejoined_emptyReasoning] at same
    have length := congrArg List.length same
    rw [List.length_append, show (lit "<think></think>").length = 15 from rfl] at length
    omega
  · intro keeps
    unfold rejoined
    cases matched : matchThink content with
    | none => rfl
    | some found =>
        obtain ⟨thinking, remaining⟩ := found
        have whole := matchThink_eq matched
        have filled : thinking ≠ [] := by
          intro empty
          apply keeps
          rw [whole, empty]
          exact List.isPrefixOf_iff_prefix.mpr ⟨remaining, rfl⟩
        simp only [thinkTags, filled, if_false]
        exact whole.symm

/-- What becomes of the items and the results together. -/
theorem inputMessages_eq (rt : Runtime) (ids : Ids) (content : Bytes) {calls : List ToolCall}
    (identified : ∀ call ∈ calls, Identified call) {answers : List (ToolCall × Bytes)}
    (ofCalls : answers.map Prod.fst = calls) {results : List Value}
    (each : List.Forall₂ (fun result answer => IsResult result answer.1 answer.2) results
      answers) :
    ∃ tools, List.Forall₂ (fun tool answer => IsToolMessage tool answer.1 answer.2) tools answers ∧
      inputMessages rt
          (some (.arr ((completionItems ids content calls).map OutputItem.value ++ results))) =
        .ok (assistantMessage ⟨[], []⟩ (rejoined content) ::
          (flushCalls ⟨calls.map Claude.callTable, []⟩).2 ++ tools) := by
  have items : inputItems rt ⟨[], []⟩ ((completionItems ids content calls).map OutputItem.value) =
      .ok (⟨calls.map Claude.callTable, []⟩, [assistantMessage ⟨[], []⟩ (rejoined content)]) := by
    rw [completionItems, List.map_append, inputItems_append, inputItems_text]
    simp only [bind, Except.bind, inputItems_calls rt _ ids identified, List.nil_append, pure,
      Except.pure, List.append_nil]
  by_cases none : answers = []
  · subst none
    cases each
    cases ofCalls
    refine ⟨[], .nil, ?_⟩
    simp only [inputMessages, ipairs, List.append_nil, items, bind, Except.bind, pure, Except.pure]
    rfl
  · have known : ∀ answer ∈ answers, Identified answer.1 := fun answer mem =>
      identified answer.1 (ofCalls ▸ List.mem_map_of_mem mem)
    obtain ⟨tools, run, isTools⟩ := inputItems_results rt ⟨calls.map Claude.callTable, []⟩ known each
      none
    have flushed : (flushCalls (flushCalls ⟨calls.map Claude.callTable, []⟩).1).2 = [] := by
      unfold flushCalls
      split <;> simp_all
    refine ⟨tools, isTools, ?_⟩
    simp only [inputMessages, ipairs, inputItems_append, items, run, bind, Except.bind, pure,
      Except.pure, flushed, List.append_nil, List.nil_append, List.cons_append]

/-- The answer comes back as one message exactly if it has no tool calls and no
    empty reasoning. -/
theorem comesBack_iff (rt : Runtime) (ids : Ids) (content : Bytes) {calls : List ToolCall}
    (identified : ∀ call ∈ calls, Identified call) :
    ComesBack rt (completionItems ids content calls) content calls ↔
      calls = [] ∧ ¬ startsWith (lit "<think></think>") content := by
  constructor
  · intro back
    let answers : List (ToolCall × Bytes) := calls.map fun call => (call, [])
    let results : List Value := calls.map fun call =>
      table [("type", some (.str (lit "function_call_output"))), ("call_id", some call.id),
        ("output", some (.str []))]
    have ofCalls : answers.map Prod.fst = calls := by simp [answers, Function.comp_def]
    have each : List.Forall₂ (fun result answer => IsResult result answer.1 answer.2) results
        answers := by
      rw [List.forall₂_map_left_iff, List.forall₂_map_right_iff]
      exact List.forall₂_same.mpr fun call _ => ⟨_, rfl, rfl, rfl, rfl⟩
    obtain ⟨msg, tools, isMessage, isTools, messages, -⟩ := back answers ofCalls results each
    obtain ⟨tools', isTools', messages'⟩ := inputMessages_eq rt ids content identified ofCalls each
    have same := Except.ok.inj (messages.symm.trans messages')
    have counted := congrArg List.length same
    have noFlush : (flushCalls ⟨calls.map Claude.callTable, []⟩).2 = [] := by
      apply List.eq_nil_of_length_eq_zero
      simp only [List.length_cons, List.length_append, isTools.length_eq, isTools'.length_eq] at counted
      omega
    have none : calls = [] := by
      by_contra some'
      simp [flushCalls, some'] at noFlush
    refine ⟨none, (rejoined_iff content).mp ?_⟩
    obtain ⟨fields, rfl, -, text, -⟩ := isMessage
    have head := (List.cons.inj same).1
    cases head
    exact (Value.str.inj (Option.some.inj text)).trans rfl
  · rintro ⟨rfl, keeps⟩
    intro answers ofCalls results each
    obtain ⟨tools, isTools, messages⟩ := inputMessages_eq rt ids content identified ofCalls each
    rw [(rejoined_iff content).mpr keeps] at messages
    refine ⟨_, tools, ⟨_, rfl, rfl, rfl, .inr ⟨rfl, rfl⟩⟩, isTools, messages, ?_⟩
    intro respBody oai given request
    obtain ⟨instructions, converted, hinstructions, hconverted, sent⟩ :=
      requestToOpenai_messages given request
    cases messages.symm.trans hconverted
    exact ⟨instructions, hinstructions, sent⟩

theorem responses_round_trip_iff (rt : Runtime) (ids : Ids) (now : Rat) (model : Option Value)
    {openaiResp : Bytes} {resp : Value} {content : Bytes} {calls : List ToolCall}
    (decoded : rt.decode openaiResp = some resp) (completion : IsCompletion resp content calls)
    (identified : ∀ call ∈ calls, Identified call) :
    (∃ r, responseFromOpenai rt ids now openaiResp model = .ok (some r) ∧
      ComesBack rt r.output content calls) ↔
      calls = [] ∧ ¬ startsWith (lit "<think></think>") content := by
  obtain ⟨r, translated, output⟩ := responseFromOpenai_ok rt ids now model decoded completion
  rw [← comesBack_iff rt ids content identified]
  constructor
  · rintro ⟨r', translated', back⟩
    cases translated.symm.trans translated'
    exact output ▸ back
  · intro back
    exact ⟨r, translated, output ▸ back⟩

namespace Sample

open Claude.Sample (codec answer answerValue call)

def itemIds : Ids := ⟨lit "resp_0", fun n => lit "item_" ++ [UInt8.ofNat (48 + n)]⟩

theorem completion : IsCompletion answerValue (lit "<think>a</think>b") [call] :=
  ⟨_, _, _, _, rfl, nofun, rfl, rfl, rfl,
    .inl ⟨_, rfl, .cons ⟨_, _, rfl, rfl, rfl, rfl, rfl⟩ .nil⟩⟩

theorem call_identified : ∀ other ∈ [call], Identified other := by
  intro other mem
  rw [List.mem_singleton] at mem
  subst mem
  exact ⟨rfl, rfl⟩

end Sample

theorem responses_round_trip_sample :
    (∃ r, responseFromOpenai Claude.Sample.codec Sample.itemIds 0 Claude.Sample.answer none =
        .ok (some r) ∧
      ComesBack Claude.Sample.codec r.output (lit "<think>a</think>b") [Claude.Sample.call]) ↔
      [Claude.Sample.call] = [] ∧
        ¬ startsWith (lit "<think></think>") (lit "<think>a</think>b") :=
  responses_round_trip_iff Claude.Sample.codec Sample.itemIds 0 none (by decide)
    Sample.completion Sample.call_identified

/-- An answer with one tool call comes back as two assistant messages. -/
theorem tool_call_splits_message :
    ¬ ∃ r, responseFromOpenai Claude.Sample.codec Sample.itemIds 0 Claude.Sample.answer none =
        .ok (some r) ∧
      ComesBack Claude.Sample.codec r.output (lit "<think>a</think>b") [Claude.Sample.call] := by
  rintro ⟨r, translated, back⟩
  have decoded : Claude.Sample.codec.decode Claude.Sample.answer = some Claude.Sample.answerValue := by
    decide
  obtain ⟨r', translated', output⟩ := responseFromOpenai_ok Claude.Sample.codec Sample.itemIds 0 none
    decoded Sample.completion
  cases translated.symm.trans translated'
  rw [output] at back
  exact absurd ((comesBack_iff _ _ _ Sample.call_identified).mp back).1 (by simp)

end E2eeProxy.Responses
