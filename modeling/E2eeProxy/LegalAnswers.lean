import E2eeProxy.ClaudeTurns
import E2eeProxy.ResponsesRoundTrip

/-! # Which completions the translators answer

A completion is translated when every value the code concatenates, adds or takes
as the receiver of a method is one that Lua accepts there. `null` is not: it is
true, so `message.content or ""` keeps it, and it has no methods.
-/

namespace E2eeProxy

open E2eeProxy.Lua E2eeProxy.OpenAi
open E2eeProxy.Claude (ToolCall HasCalls tagged ResponseBlock usedTools)

/-- The content of a message: a string, or `none` for JSON `null`. -/
def IsContent (value : Option Value) : Option Bytes → Prop
  | some s => value = some (.str s)
  | none => value = some .null

/-- A completion whose first choice is a message with this content and these calls;
    its other fields are whatever they are. -/
def IsAnswer (fields : List (Bytes × Value)) (content : Option Bytes) (calls : List ToolCall) : Prop :=
  ∃ choice others message,
    fields.lookup (lit "choices") = some (.arr (.obj choice :: others)) ∧
    choice.lookup (lit "message") = some (.obj message) ∧
    IsContent (message.lookup (lit "content")) content ∧
    HasCalls (message.lookup (lit "tool_calls")) calls

/-- The id is a string or a number, if there is one. -/
def HasIdText (fields : List (Bytes × Value)) : Prop :=
  isText (orElse (fields.lookup (lit "id")) (.num 0)) = true

/-- A token count that can be added. -/
def IsCount (rt : Runtime) (count : Option Value) : Prop :=
  (rt.toNumber (some (orElse count (.num 0)))).isSome

/-- The token counts, where there are any, are numbers. -/
def HasCounts (rt : Runtime) (fields : List (Bytes × Value)) : Prop :=
  ∀ usage, fields.lookup (lit "usage") = some (.obj usage) →
    IsCount rt (usage.lookup (lit "prompt_tokens")) ∧
      IsCount rt (usage.lookup (lit "completion_tokens"))

def identity (call : ToolCall) : Option Value × Option Value := (some call.id, some call.name)

namespace Claude

/-- What a block says, with the tags of its thinking put back. -/
def ResponseBlock.spelling : ResponseBlock → Bytes
  | .thinking s => tagged s
  | .text s => s
  | .toolUse .. => []

/-- The blocks hold the text and one `tool_use` for each call, in order. -/
def Holds (blocks : List ResponseBlock) (content : Bytes) (calls : List ToolCall) : Prop :=
  blocks.flatMap ResponseBlock.spelling = content ∧ usedTools blocks = calls.map identity

theorem spelling_unlessEmpty (s : Bytes) :
    (unlessEmpty ResponseBlock.text s).flatMap ResponseBlock.spelling = s := by
  unfold unlessEmpty
  split
  · rename_i empty
    simp [empty]
  · simp [ResponseBlock.spelling]

theorem usedTools_unlessEmpty (s : Bytes) : usedTools (unlessEmpty ResponseBlock.text s) = [] := by
  unfold unlessEmpty
  split <;> rfl

theorem thinkAndText_holds (content : Bytes) : Holds (thinkAndText content) content [] := by
  unfold thinkAndText
  cases matched : matchThink content with
  | none => exact ⟨spelling_unlessEmpty content, usedTools_unlessEmpty content⟩
  | some found =>
      obtain ⟨thinking, remaining⟩ := found
      rw [matchThink_eq matched]
      refine ⟨?_, usedTools_unlessEmpty remaining⟩
      rw [List.flatMap_cons, spelling_unlessEmpty]
      rfl

theorem messageBlocks_holds (rt : Runtime) (content : Bytes) (calls : List ToolCall) :
    Holds (messageBlocks rt content calls) content calls := by
  obtain ⟨text, none⟩ := thinkAndText_holds content
  have tools : Holds (calls.map fun call => ResponseBlock.toolUse (some call.id) (some call.name)
      ((rt.decodeTruthy call.arguments).getD (.obj []))) [] calls := by
    refine ⟨?_, ?_⟩
    · simp [List.flatMap_map, ResponseBlock.spelling]
    · simp only [usedTools, List.filterMap_map]
      exact congrFun List.filterMap_eq_map calls
  unfold messageBlocks
  simp only
  split
  · rename_i empty
    obtain ⟨noText, noCalls⟩ := List.append_eq_nil_iff.mp empty
    rw [noText] at text
    rw [List.map_eq_nil_iff] at noCalls
    subst noCalls
    exact ⟨text, rfl⟩
  · refine ⟨?_, ?_⟩
    · rw [List.flatMap_append, text, tools.1, List.append_nil]
    · rw [usedTools, List.filterMap_append]
      exact (congrArg₂ (· ++ ·) none tools.2).trans (List.nil_append _)

/-- The receiver of `text:match` is indexed. -/
theorem messageContent_null (rt : Runtime) {message : List (Bytes × Value)}
    (null : message.lookup (lit "content") = some .null) :
    messageContent rt (.obj message) = .error .index := by
  simp [messageContent, null, orElse, matchReceiver, bind, Except.bind]

end Claude

theorem concatArg_ok_iff (rt : Runtime) {v : Value} :
    (∃ s, rt.concatArg (some v) = .ok s) ↔ isText v = true := by
  cases v <;> simp [Runtime.concatArg, isText]

theorem hasIdText_iff {fields : List (Bytes × Value)} (now : Rat) :
    HasIdText fields ↔ isText (orElse (fields.lookup (lit "id")) (.num now)) = true := by
  unfold HasIdText
  rcases fields.lookup (lit "id") with _ | (_ | (_ | _) | _ | _ | _ | _) <;> rfl

namespace Claude

/-- `response_from_openai` answers exactly the completions whose content is a string
    and whose id, if there is one, can be concatenated. -/
theorem responseFromOpenai_holds_iff (rt : Runtime) (now : Rat) (model : Option Value)
    {openaiResp : Bytes} {fields : List (Bytes × Value)} {content : Option Bytes}
    {calls : List ToolCall} (decoded : rt.decode openaiResp = some (.obj fields))
    (isAnswer : IsAnswer fields content calls) :
    (∃ r, responseFromOpenai rt now openaiResp model = .ok (some r) ∧
      Holds r.content (content.getD []) calls) ↔ content.isSome ∧ HasIdText fields := by
  obtain ⟨choice, others, message, choices, hmessage, hcontent, hasCalls⟩ := isAnswer
  have isDecoded : rt.decodeTruthy openaiResp = some (.obj fields) :=
    decodeTruthy_eq_some.mpr ⟨decoded, rfl⟩
  have receiver : orElse (choice.lookup (lit "message")) (.obj []) = .obj message := by
    rw [hmessage]
    rfl
  have taken : present (List.head? (Value.obj choice :: others)) = some (.obj choice) := rfl
  obtain ⟨usage, husage⟩ := responseUsage_total (fields.lookup (lit "usage"))
  rw [hasIdText_iff now, ← concatArg_ok_iff rt]
  cases content with
  | none =>
      have raised : responseFromOpenai rt now openaiResp model = .error .index := by
        simp only [responseFromOpenai, isDecoded, Option.getD_some, index_obj, choices, truthy, first,
          ↓reduceIte, taken, receiver, messageContent_null rt hcontent, bind, Except.bind]
      simp [raised]
  | some s =>
      have answer := responseFromOpenai_eq rt now model decoded choices hmessage hcontent hasCalls
      rw [husage] at answer
      cases hid : rt.concatArg (some (orElse (fields.lookup (lit "id")) (.num now))) with
      | error e =>
          rw [hid] at answer
          have raised : responseFromOpenai rt now openaiResp model = .error e := answer
          simp [raised]
      | ok id =>
          rw [hid] at answer
          refine iff_of_true ⟨_, answer, messageBlocks_holds rt s calls⟩ ⟨rfl, id, rfl⟩

end Claude

namespace Responses

/-- What an item says, with the tags of its reasoning put back. -/
def OutputItem.spelling : OutputItem → Bytes
  | .reasoning _ s => tagged s
  | .message _ parts => parts.flatten
  | .functionCall .. => []

def OutputItem.call? : OutputItem → Option (Option Value × Option Value)
  | .functionCall _ callId name _ => some (callId, name)
  | .reasoning .. | .message .. => none

/-- The items hold the text and one `function_call` for each call, in order. -/
def Holds (output : List OutputItem) (content : Bytes) (calls : List ToolCall) : Prop :=
  output.flatMap OutputItem.spelling = content ∧
    output.filterMap OutputItem.call? = calls.map identity

theorem flatten_unlessEmpty (s : Bytes) : (unlessEmpty id s).flatten = s := by
  unfold unlessEmpty
  split
  · rename_i empty
    simp [empty]
  · simp

theorem textItems_holds (ids : Ids) (content : Bytes) : Holds (textItems ids content) content [] := by
  unfold textItems
  cases matched : Claude.matchThink content with
  | none => exact ⟨by simp [OutputItem.spelling, flatten_unlessEmpty], rfl⟩
  | some found =>
      obtain ⟨thinking, remaining⟩ := found
      rw [Claude.matchThink_eq matched]
      refine ⟨?_, rfl⟩
      simp [OutputItem.spelling, flatten_unlessEmpty, tagged]

theorem callItems_holds (ids : Ids) (calls : List ToolCall) (n : Nat) :
    Holds (callItems ids calls n) [] calls := by
  induction calls generalizing n with
  | nil => exact ⟨rfl, rfl⟩
  | cons call calls ih =>
      obtain ⟨text, same⟩ := ih (n + 1)
      refine ⟨?_, ?_⟩
      · simpa [callItems, OutputItem.spelling] using text
      · simpa [callItems, OutputItem.call?, identity] using same

theorem completionItems_holds (ids : Ids) (content : Bytes) (calls : List ToolCall) :
    Holds (completionItems ids content calls) content calls := by
  obtain ⟨text, none⟩ := textItems_holds ids content
  obtain ⟨silent, same⟩ := callItems_holds ids calls (textItems ids content).length
  refine ⟨?_, ?_⟩
  · rw [completionItems, List.flatMap_append, text, silent, List.append_nil]
  · rw [completionItems, List.filterMap_append, none, same]
    rfl

theorem messageItems_null (ids : Ids) {message : List (Bytes × Value)}
    (null : message.lookup (lit "content") = some .null) :
    messageItems ids (.obj message) = .error .index := by
  simp [messageItems, null, orElse, Claude.matchReceiver, bind, Except.bind]

/-- The token counts are added up. -/
theorem responseUsage_ok_iff (rt : Runtime) (fields : List (Bytes × Value)) :
    (∃ u, responseUsage rt (fields.lookup (lit "usage")) = .ok u) ↔ HasCounts rt fields := by
  unfold HasCounts IsCount
  rcases fields.lookup (lit "usage") with _ | (_ | _ | _ | _ | _ | usage)
  case some.obj =>
      simp only [responseUsage, isTable, index_obj, if_true, bind, Except.bind, pure, Except.pure,
        Option.some.injEq, Value.obj.injEq, forall_eq']
      cases rt.toNumber (some (orElse (usage.lookup (lit "prompt_tokens")) (.num 0))) <;>
        cases rt.toNumber (some (orElse (usage.lookup (lit "completion_tokens")) (.num 0))) <;> simp
  all_goals simp [responseUsage, isTable, index, orElse, Runtime.toNumber, bind, Except.bind, pure,
    Except.pure]

theorem responseFromOpenai_holds_iff (rt : Runtime) (ids : Ids) (now : Rat) (model : Option Value)
    {openaiResp : Bytes} {fields : List (Bytes × Value)} {content : Option Bytes}
    {calls : List ToolCall} (decoded : rt.decode openaiResp = some (.obj fields))
    (isAnswer : IsAnswer fields content calls) :
    (∃ r, responseFromOpenai rt ids now openaiResp model = .ok (some r) ∧
      Holds r.output (content.getD []) calls) ↔ content.isSome ∧ HasCounts rt fields := by
  obtain ⟨choice, others, message, choices, hmessage, hcontent, hasCalls⟩ := isAnswer
  have isDecoded : rt.decodeTruthy openaiResp = some (.obj fields) :=
    decodeTruthy_eq_some.mpr ⟨decoded, rfl⟩
  have receiver : orElse (choice.lookup (lit "message")) (.obj []) = .obj message := by
    rw [hmessage]
    rfl
  have taken : present (List.head? (Value.obj choice :: others)) = some (.obj choice) := rfl
  rw [← responseUsage_ok_iff rt]
  cases content with
  | none =>
      have raised : responseFromOpenai rt ids now openaiResp model = .error .index := by
        simp only [responseFromOpenai, isDecoded, Option.getD_some, index_obj, choices, truthy, first,
          ↓reduceIte, taken, receiver, messageItems_null ids hcontent, bind, Except.bind]
      simp [raised]
  | some s =>
      cases husage : responseUsage rt (fields.lookup (lit "usage")) with
      | error e =>
          have raised : responseFromOpenai rt ids now openaiResp model = .error e := by
            simp only [responseFromOpenai, isDecoded, Option.getD_some, index_obj, choices, truthy,
              first, ↓reduceIte, taken, receiver, messageItems_eq ids hcontent hasCalls, husage, bind,
              Except.bind]
          simp [raised]
      | ok usage =>
          have holds := completionItems_holds ids s calls
          simp only [responseFromOpenai, isDecoded, Option.getD_some, index_obj, choices, truthy, first,
            ↓reduceIte, taken, receiver, messageItems_eq ids hcontent hasCalls, husage, bind,
            Except.bind, Option.isSome_some, true_and, Except.ok.injEq, exists_eq', iff_true]
          exact ⟨_, rfl, holds⟩

end Responses

/-- Both translators answer a completion, with its text and its calls, exactly when
    its content is a string and its id and token counts are what a completion has. -/
theorem responseFromOpenai_total_iff (rt : Runtime) (ids : Responses.Ids) (now : Rat)
    (model : Option Value) {openaiResp : Bytes} {fields : List (Bytes × Value)}
    {content : Option Bytes} {calls : List ToolCall}
    (decoded : rt.decode openaiResp = some (.obj fields)) (isAnswer : IsAnswer fields content calls) :
    ((∃ r, Claude.responseFromOpenai rt now openaiResp model = .ok (some r) ∧
        Claude.Holds r.content (content.getD []) calls) ∧
      (∃ r, Responses.responseFromOpenai rt ids now openaiResp model = .ok (some r) ∧
        Responses.Holds r.output (content.getD []) calls)) ↔
      content.isSome ∧ HasIdText fields ∧ HasCounts rt fields := by
  rw [Claude.responseFromOpenai_holds_iff rt now model decoded isAnswer,
    Responses.responseFromOpenai_holds_iff rt ids now model decoded isAnswer]
  constructor
  · rintro ⟨⟨text, id⟩, -, counts⟩
    exact ⟨text, id, counts⟩
  · rintro ⟨text, id, counts⟩
    exact ⟨⟨text, id⟩, text, counts⟩

namespace Sample

/-- The answer of a model that only calls a tool. -/
def toolsOnly : Bytes :=
  lit "\x7b\"id\":\"x\",\"choices\":[\x7b\"message\":\x7b\"content\":null,\"tool_calls\":[" ++
    lit "\x7b\"id\":\"c\",\"type\":\"function\",\"function\":\x7b\"name\":\"f\",\"arguments\":" ++
    lit "\"\x7b\\\"x\\\":1\x7d\"\x7d\x7d]\x7d\x7d]\x7d"

def toolsOnlyFields : List (Bytes × Value) :=
  [(lit "id", .str (lit "x")), (lit "choices", .arr [table [("message", some (table
    [("content", some .null), ("tool_calls", some (.arr [Claude.callTable Claude.Sample.call]))]))]])]

def toolsOnlyCodec : Runtime :=
  Runtime.ofDocuments [(toolsOnly, .obj toolsOnlyFields),
    (Claude.Sample.call.arguments, Claude.Sample.callInput)]

theorem toolsOnly_isAnswer : IsAnswer toolsOnlyFields none [Claude.Sample.call] :=
  ⟨_, _, _, rfl, rfl, rfl, .inl ⟨_, rfl, .cons ⟨_, _, rfl, rfl, rfl, rfl, rfl⟩ .nil⟩⟩

end Sample

theorem responseFromOpenai_total_iff_sample :
    ((∃ r, Claude.responseFromOpenai Sample.toolsOnlyCodec 0 Sample.toolsOnly none = .ok (some r) ∧
        Claude.Holds r.content [] [Claude.Sample.call]) ∧
      (∃ r, Responses.responseFromOpenai Sample.toolsOnlyCodec Responses.Sample.itemIds 0
          Sample.toolsOnly none = .ok (some r) ∧
        Responses.Holds r.output [] [Claude.Sample.call])) ↔
      (none : Option Bytes).isSome ∧ HasIdText Sample.toolsOnlyFields ∧
        HasCounts Sample.toolsOnlyCodec Sample.toolsOnlyFields :=
  responseFromOpenai_total_iff Sample.toolsOnlyCodec Responses.Sample.itemIds 0 none
    (by decide) Sample.toolsOnly_isAnswer

/-- Both translators raise on a `null` content. -/
theorem toolsOnly_raises :
    IsAnswer Sample.toolsOnlyFields none [Claude.Sample.call] ∧
      Claude.responseFromOpenai Sample.toolsOnlyCodec 0 Sample.toolsOnly none = .error .index ∧
      Responses.responseFromOpenai Sample.toolsOnlyCodec Responses.Sample.itemIds 0
        Sample.toolsOnly none = .error .index := by
  refine ⟨Sample.toolsOnly_isAnswer, ?_, ?_⟩
  · rfl
  · rfl

end E2eeProxy
