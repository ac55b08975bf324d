import E2eeProxy.ClaudeRoundTrip

/-! # The order inside an assistant turn

`_convert_assistant_message` extends one string at both ends: thinking goes in
front of what is already there, text behind it. So the blockTexts keep their order
and several thinking blocks come out last one first.
-/

namespace E2eeProxy.Claude

open E2eeProxy.Lua E2eeProxy.OpenAi

/-- `v` is this content block of a request, whatever other fields it has. -/
inductive IsBlock : Value → ResponseBlock → Prop where
  | thinking {fields s} : fields.lookup (lit "type") = some (.str (lit "thinking")) →
      fields.lookup (lit "thinking") = some (.str s) → IsBlock (.obj fields) (.thinking s)
  | text {fields s} : fields.lookup (lit "type") = some (.str (lit "text")) →
      fields.lookup (lit "text") = some (.str s) → IsBlock (.obj fields) (.text s)
  | toolUse {fields id name input} : fields.lookup (lit "type") = some (.str (lit "tool_use")) →
      fields.lookup (lit "id") = id → fields.lookup (lit "name") = name →
      fields.lookup (lit "input") = some input → IsBlock (.obj fields) (.toolUse id name input)

/-- A field of a table; anything else has none. -/
def fieldOf (v : Value) (key : String) : Option Value :=
  match v with
  | .obj fields => fields.lookup (lit key)
  | .null | .bool _ | .num _ | .str _ | .arr _ => none

/-- The elements of an array field. -/
def itemsOf : Option Value → List Value
  | some (.arr items) => items
  | _ => []

/-- The id and the function name of an element of `tool_calls`. -/
def callIdentity (tc : Value) : Option Value × Option Value :=
  (fieldOf tc "id", (fieldOf tc "function").bind fun fn => fieldOf fn "name")

/-- The calls of a chat message, in order. -/
def sentCalls (msg : Value) : List (Option Value × Option Value) :=
  (itemsOf (fieldOf msg "tool_calls")).map callIdentity

/-- How a thinking text is marked in the content of a chat message. -/
def tagged (thinking : Bytes) : Bytes := lit "<think>" ++ thinking ++ lit "</think>"

def ResponseBlock.thinking? : ResponseBlock → Option Bytes
  | .thinking s => some s
  | .text _ | .toolUse .. => none

def ResponseBlock.text? : ResponseBlock → Option Bytes
  | .text s => some s
  | .thinking _ | .toolUse .. => none

def ResponseBlock.call? : ResponseBlock → Option (Option Value × Option Value)
  | .toolUse id name _ => some (id, name)
  | .thinking _ | .text _ => none

def blockThinkings (blocks : List ResponseBlock) : List Bytes := blocks.filterMap ResponseBlock.thinking?

def blockTexts (blocks : List ResponseBlock) : List Bytes := blocks.filterMap ResponseBlock.text?

def usedTools (blocks : List ResponseBlock) : List (Option Value × Option Value) :=
  blocks.filterMap ResponseBlock.call?

/-- The message says what the turn says and in the same order: every thinking text,
    then every text, and the calls with their ids and names. -/
structure InOrder (msg : Value) (blocks : List ResponseBlock) : Prop where
  role : fieldOf msg "role" = some (.str (lit "assistant"))
  content : fieldOf msg "content" =
    some (.str ((blockThinkings blocks).flatMap tagged ++ (blockTexts blocks).flatten))
  calls : sentCalls msg = usedTools blocks

/-- The thinking blockTexts read the same from the last to the first, as they do when there
    is at most one. -/
def ReadsBackwards (blocks : List ResponseBlock) : Prop :=
  (blockThinkings blocks).reverse.flatMap tagged = (blockThinkings blocks).flatMap tagged

theorem readsBackwards_of_le_one {blocks : List ResponseBlock} (few : (blockThinkings blocks).length ≤ 1) :
    ReadsBackwards blocks := by
  unfold ReadsBackwards
  cases h : blockThinkings blocks with
  | nil => rfl
  | cons s rest =>
      cases rest with
      | nil => rfl
      | cons t rest => simp [h] at few

section Turn

variable (rt : Runtime)

theorem toolCall_identity (fields : List (Bytes × Value)) :
    ∃ call, toolCall rt (.obj fields) = .ok call ∧
      callIdentity call = (fields.lookup (lit "id"), fields.lookup (lit "name")) := by
  refine ⟨_, rfl, ?_⟩
  cases fields.lookup (lit "id") <;> cases fields.lookup (lit "name") <;> rfl

/-- What one block adds, and at which end. -/
theorem assistantBlock_isBlock {v : Value} {block : ResponseBlock} (isBlock : IsBlock v block)
    (parts : AssistantParts) :
    ∃ after, assistantBlock rt parts v = .ok after ∧
      after.contentStr = (blockThinkings [block]).flatMap tagged ++ parts.contentStr ++
        (blockTexts [block]).flatten ∧
      after.toolCalls.map callIdentity = parts.toolCalls.map callIdentity ++ usedTools [block] := by
  cases isBlock with
  | @thinking fields s type given =>
      have isThinking : isLit (some (.str (lit "thinking"))) "thinking" = true := by decide
      refine ⟨{ parts with contentStr := tagged s ++ parts.contentStr }, ?_, ?_, ?_⟩
      · simp only [assistantBlock, index_obj, type, given, isThinking, truthy_str, Bool.and_self,
          if_true, Runtime.concatArg, tagged, bind, Except.bind, pure, Except.pure]
      · simp [blockThinkings, blockTexts, ResponseBlock.thinking?, ResponseBlock.text?]
      · exact (List.append_nil _).symm
  | @text fields s type given =>
      have notThinking : isLit (some (.str (lit "text"))) "thinking" = false := by decide
      have isText : isLit (some (.str (lit "text"))) "text" = true := by decide
      refine ⟨{ parts with contentStr := parts.contentStr ++ s }, ?_, ?_, ?_⟩
      · simp only [assistantBlock, index_obj, type, given, notThinking, isText, Bool.false_and,
          Bool.false_eq_true, if_false, if_true, orElse, Runtime.concatArg, bind, Except.bind, pure,
          Except.pure]
      · simp [blockThinkings, blockTexts, ResponseBlock.thinking?, ResponseBlock.text?]
      · exact (List.append_nil _).symm
  | @toolUse fields id name input type hid hname _ =>
      have notThinking : isLit (some (.str (lit "tool_use"))) "thinking" = false := by decide
      have notText : isLit (some (.str (lit "tool_use"))) "text" = false := by decide
      have isTool : isLit (some (.str (lit "tool_use"))) "tool_use" = true := by decide
      obtain ⟨call, made, identity⟩ := toolCall_identity rt fields
      refine ⟨{ parts with toolCalls := parts.toolCalls ++ [call] }, ?_, ?_, ?_⟩
      · simp only [assistantBlock, index_obj, type, notThinking, notText, isTool, made,
          Bool.false_and, Bool.false_eq_true, if_false, if_true, bind, Except.bind, pure,
          Except.pure]
      · exact (List.append_nil _).symm
      · rw [List.map_append, List.map_singleton, identity, hid, hname]
        rfl

/-- The accumulator after the blocks: the last thinking first, the blockTexts in order. -/
theorem assistantBlocks_folded {vs : List Value} {blocks : List ResponseBlock}
    (each : List.Forall₂ IsBlock vs blocks) (parts : AssistantParts) :
    ∃ after, vs.foldlM (assistantBlock rt) parts = .ok after ∧
      after.contentStr = (blockThinkings blocks).reverse.flatMap tagged ++ parts.contentStr ++
        (blockTexts blocks).flatten ∧
      after.toolCalls.map callIdentity = parts.toolCalls.map callIdentity ++ usedTools blocks := by
  induction each generalizing parts with
  | nil => exact ⟨parts, rfl, by simp [blockThinkings, blockTexts], by simp [usedTools]⟩
  | @cons v block vs blocks head tail ih =>
      obtain ⟨next, stepped, content, calls⟩ := assistantBlock_isBlock rt head parts
      obtain ⟨after, rest, restContent, restCalls⟩ := ih next
      have split : block :: blocks = [block] ++ blocks := rfl
      refine ⟨after, ?_, ?_, ?_⟩
      · rw [List.foldlM_cons, stepped]
        exact rest
      · rw [restContent, content, split]
        have single : (blockThinkings [block]).reverse = blockThinkings [block] := by
          cases block <;> rfl
        simp only [blockThinkings, blockTexts, List.filterMap_append, List.reverse_append, List.flatMap_append,
          List.flatten_append, List.append_assoc] at single ⊢
        rw [single]
      · rw [restCalls, calls, split]
        simp only [usedTools, List.filterMap_append, List.append_assoc]

theorem fieldOf_assistantMessage (parts : AssistantParts) :
    fieldOf (assistantMessage parts) "role" = some (.str (lit "assistant")) ∧
      fieldOf (assistantMessage parts) "content" = some (.str parts.contentStr) ∧
      sentCalls (assistantMessage parts) = parts.toolCalls.map callIdentity := by
  obtain ⟨contentStr, toolCalls⟩ := parts
  cases toolCalls with
  | nil => exact ⟨rfl, rfl, rfl⟩
  | cons call calls => exact ⟨rfl, rfl, rfl⟩

/-- The message of a turn: thinking from the last to the first, then the blockTexts. -/
theorem convertAssistantMessage_blocks {vs : List Value} {blocks : List ResponseBlock}
    (each : List.Forall₂ IsBlock vs blocks) :
    ∃ msg, convertAssistantMessage rt (.arr vs) = .ok msg ∧
      fieldOf msg "role" = some (.str (lit "assistant")) ∧
      fieldOf msg "content" =
        some (.str ((blockThinkings blocks).reverse.flatMap tagged ++ (blockTexts blocks).flatten)) ∧
      sentCalls msg = usedTools blocks := by
  obtain ⟨after, folded, content, calls⟩ := assistantBlocks_folded rt each ⟨[], []⟩
  obtain ⟨role, hcontent, hcalls⟩ := fieldOf_assistantMessage after
  refine ⟨assistantMessage after, ?_, role, ?_, ?_⟩
  · simp only [convertAssistantMessage, ipairs, bind, Except.bind, folded, pure, Except.pure]
  · rw [hcontent, content, List.append_nil]
  · rw [hcalls, calls]
    rfl

end Turn

/-- The turn is translated in order exactly when its thinking blockTexts may be read in
    either direction; its blockTexts and calls are in order whatever it thinks. -/
theorem convertAssistantMessage_inOrder_iff (rt : Runtime) {vs : List Value}
    {blocks : List ResponseBlock} (each : List.Forall₂ IsBlock vs blocks) :
    (∃ msg, convertAssistantMessage rt (.arr vs) = .ok msg ∧ InOrder msg blocks) ↔
      ReadsBackwards blocks := by
  obtain ⟨msg, converted, role, content, calls⟩ := convertAssistantMessage_blocks rt each
  constructor
  · rintro ⟨other, same, inOrder⟩
    cases converted.symm.trans same
    have spelled := inOrder.content
    rw [content] at spelled
    rw [Option.some_inj, Value.str.injEq] at spelled
    exact List.append_cancel_right spelled
  · intro backwards
    refine ⟨msg, converted, role, ?_, calls⟩
    rw [content, backwards]

namespace Sample

/-- Interleaved thinking: two thoughts with a call after each. -/
def interleaved : List ResponseBlock :=
  [.thinking (lit "a"), .toolUse (some (.str (lit "c1"))) (some (.str (lit "f"))) (.obj []),
    .thinking (lit "b"), .text (lit "t")]

theorem isBlock_value : List.Forall₂ IsBlock (interleaved.map ResponseBlock.value) interleaved :=
  .cons (.thinking rfl rfl) (.cons (.toolUse rfl rfl rfl rfl)
    (.cons (.thinking rfl rfl) (.cons (.text rfl rfl) .nil)))

end Sample

theorem convertAssistantMessage_inOrder_iff_sample :
    (∃ msg, convertAssistantMessage Sample.codec (.arr (Sample.interleaved.map ResponseBlock.value)) =
      .ok msg ∧ InOrder msg Sample.interleaved) ↔ ReadsBackwards Sample.interleaved :=
  convertAssistantMessage_inOrder_iff Sample.codec Sample.isBlock_value

/-- The second thought comes out before the first. -/
theorem interleaved_thinking_reversed :
    ∃ msg, convertAssistantMessage Sample.codec
        (.arr (Sample.interleaved.map ResponseBlock.value)) = .ok msg ∧
      fieldOf msg "content" = some (.str (lit "<think>b</think><think>a</think>t")) ∧
      ¬ InOrder msg Sample.interleaved := by
  refine ⟨_, rfl, by decide, fun inOrder => ?_⟩
  have spelled := inOrder.content
  revert spelled
  decide

end E2eeProxy.Claude
