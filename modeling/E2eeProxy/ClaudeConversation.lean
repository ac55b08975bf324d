import E2eeProxy.ClaudeTurns
import E2eeProxy.Lib.Dialogue

/-! # Tool use across the turns of a conversation

One Claude turn can become several chat messages: the tool results of a user turn
are appended while its blocks are read, its text and images at the end. So the
results stand right behind the assistant message whose calls they answer.
-/

namespace E2eeProxy.Claude

open E2eeProxy.Lua E2eeProxy.OpenAi E2eeProxy.Lib

/-! ## What turns and messages ask and reply -/

def hasType (type : String) (block : Value) : Bool := isLit (fieldOf block "type") type

def turnBlocks (turn : Value) : List Value := itemsOf (fieldOf turn "content")

/-- The ids of the `tool_use` blocks of an assistant turn. -/
def toolUseIds (turn : Value) : List (Option Value) :=
  if isLit (fieldOf turn "role") "assistant" then
    ((turnBlocks turn).filter (hasType "tool_use")).map (fieldOf · "id")
  else []

/-- The ids which the `tool_result` blocks of a user turn answer. -/
def toolResultIds (turn : Value) : List (Option Value) :=
  if isLit (fieldOf turn "role") "user" then
    ((turnBlocks turn).filter (hasType "tool_result")).map (fieldOf · "tool_use_id")
  else []

/-- The ids of the calls of a chat message. -/
def callIds (msg : Value) : List (Option Value) := (sentCalls msg).map Prod.fst

/-- The `tool_call_id` of a tool message. -/
def toolCallId (msg : Value) : Option (Option Value) :=
  if isLit (fieldOf msg "role") "tool" then some (fieldOf msg "tool_call_id") else none

/-! ## Legal requests -/

def IsString (v : Option Value) : Prop := ∃ s, v = some (.str s)

/-- Where an image comes from, as far as it is read. -/
def LegalSource : Option Value → Prop
  | some (.obj source) =>
      isLit (source.lookup (lit "type")) "base64" = true →
        IsString (source.lookup (lit "data")) ∧
          (source.lookup (lit "media_type") = none ∨ IsString (source.lookup (lit "media_type")))
  | _ => False

/-- A part of an array of blockTexts: a string, or a table whose text is one. -/
def LegalPart : Value → Prop
  | .str _ => True
  | .obj part => isLit (part.lookup (lit "type")) "text" = true → IsString (part.lookup (lit "text"))
  | _ => False

/-- The content of a tool result. -/
def LegalResult : Option Value → Prop
  | none | some (.str _) => True
  | some (.arr parts) => ∀ part ∈ parts, LegalPart part
  | _ => False

def LegalUserBlock : Value → Prop
  | .str _ => True
  | .obj block =>
      (isLit (block.lookup (lit "type")) "text" = true → IsString (block.lookup (lit "text"))) ∧
      (isLit (block.lookup (lit "type")) "image" = true → LegalSource (block.lookup (lit "source"))) ∧
      (isLit (block.lookup (lit "type")) "tool_result" = true →
        LegalResult (block.lookup (lit "content")))
  | _ => False

def LegalAssistantBlock : Value → Prop
  | .obj block =>
      (isLit (block.lookup (lit "type")) "thinking" = true → IsString (block.lookup (lit "thinking"))) ∧
      (isLit (block.lookup (lit "type")) "text" = true → IsString (block.lookup (lit "text")))
  | _ => False

/-- A turn as the Messages API defines it; blocks of further types are left open. -/
inductive LegalTurn : Value → Prop where
  | plain {turn role s} : turn.lookup (lit "role") = some (.str (lit role)) →
      role = "user" ∨ role = "assistant" → turn.lookup (lit "content") = some (.str s) →
      LegalTurn (.obj turn)
  | user {turn blocks} : turn.lookup (lit "role") = some (.str (lit "user")) →
      turn.lookup (lit "content") = some (.arr blocks) → (∀ block ∈ blocks, LegalUserBlock block) →
      LegalTurn (.obj turn)
  | assistant {turn blocks} : turn.lookup (lit "role") = some (.str (lit "assistant")) →
      turn.lookup (lit "content") = some (.arr blocks) →
      (∀ block ∈ blocks, LegalAssistantBlock block) → LegalTurn (.obj turn)

def LegalSystem : Option Value → Prop
  | none | some (.str _) => True
  | some (.arr blocks) => ∀ block ∈ blocks, LegalPart block
  | _ => False

def LegalTools : Option Value → Prop
  | none => True
  | some (.arr tools) => ∀ tool ∈ tools, ∃ fields, tool = .obj fields
  | _ => False

/-- A request body with these messages. -/
def LegalRequest (body : Value) (msgs : List Value) : Prop :=
  ∃ fields, body = .obj fields ∧ fields.lookup (lit "messages") = some (.arr msgs) ∧
    (∀ msg ∈ msgs, LegalTurn msg) ∧ LegalSystem (fields.lookup (lit "system")) ∧
    LegalTools (fields.lookup (lit "tools"))

section Conversion

variable (rt : Runtime)

/-! ## Legal requests are translated -/

theorem tableConcat_strings (sep : Bytes) {parts : List Value}
    (strings : ∀ part ∈ parts, IsString (some part)) : ∃ s, rt.tableConcat sep parts = .ok s := by
  obtain ⟨blockTexts, mapped, -⟩ := mapM_total (f := fun part => rt.concatArg (some part))
    (P := fun _ => True) fun part mem => by
      obtain ⟨s, given⟩ := strings part mem
      rw [given]
      exact ⟨s, rfl, trivial⟩
  refine ⟨sep.intercalate blockTexts, ?_⟩
  simp only [Runtime.tableConcat, mapped, bind, Except.bind, pure, Except.pure]

/-- Texts collected from the parts of an array are joined without an error. -/
theorem collect_strings (sep : Bytes) {f : Value → LuaM (List Value)} {parts : List Value}
    (each : ∀ part ∈ parts, ∃ found, f part = .ok found ∧ ∀ v ∈ found, IsString (some v)) :
    ∃ s, (do let found ← parts.mapM f; rt.tableConcat sep found.flatten) = .ok s := by
  obtain ⟨found, mapped, strings⟩ := mapM_total each
  have flat : ∀ part ∈ found.flatten, IsString (some part) := by
    intro part mem
    obtain ⟨list, listed, inside⟩ := List.mem_flatten.mp mem
    exact strings list listed part inside
  obtain ⟨s, joined⟩ := tableConcat_strings rt sep flat
  exact ⟨s, by simp only [mapped, bind, Except.bind, joined]⟩

theorem toolResultPart_legal {part : Value} (legal : LegalPart part) :
    ∃ found, toolResultPart rt part = .ok found ∧ ∀ v ∈ found, IsString (some v) := by
  cases part with
  | null | bool | num | arr => cases legal
  | str s => exact ⟨[.str s], rfl, by simp [IsString]⟩
  | obj fields =>
      simp only [toolResultPart, index_obj, bind, Except.bind, pure, Except.pure]
      split
      · rename_i isText
        obtain ⟨s, given⟩ := legal isText
        exact ⟨_, rfl, by simp [given, IsString]⟩
      · exact ⟨_, rfl, by simp [IsString]⟩

theorem toolResultText_legal {content : Option Value} (legal : LegalResult content) :
    ∃ s, toolResultText rt content = .ok s := by
  match content, legal with
  | none, _ => exact ⟨[], rfl⟩
  | some (.str s), _ => exact ⟨s, rfl⟩
  | some (.arr parts), legal =>
      exact collect_strings rt (lit "\n") fun part mem => toolResultPart_legal rt (legal part mem)

theorem systemPart_legal {block : Value} (legal : LegalPart block) :
    ∃ found, systemPart block = .ok found ∧ ∀ v ∈ found, IsString (some v) := by
  cases block with
  | null | bool | num | arr => cases legal
  | str s => exact ⟨[], rfl, by simp⟩
  | obj fields =>
      simp only [systemPart, isTable, index_obj, if_true, bind, Except.bind, pure, Except.pure]
      refine ⟨_, rfl, ?_⟩
      split
      · rename_i isText
        obtain ⟨s, given⟩ := legal (Bool.and_eq_true_iff.mp isText).1
        simp [given, IsString]
      · simp

/-- The system prompt becomes at most one message, which neither calls nor replies. -/
theorem systemMessage_legal {system : Option Value} (legal : LegalSystem system) :
    ∃ heading, systemMessage rt system = .ok heading ∧
      ∀ m ∈ heading, callIds m = [] ∧ toolCallId m = none := by
  have text : ∃ s, systemText rt system = .ok s := by
    match system, legal with
    | none, _ => exact ⟨[], rfl⟩
    | some (.str s), _ => exact ⟨s, rfl⟩
    | some (.arr blocks), legal =>
        exact collect_strings rt (lit "\n") fun block mem => systemPart_legal (legal block mem)
  obtain ⟨s, given⟩ := text
  refine ⟨unlessEmpty (fun s => table [("role", some (.str (lit "system"))),
    ("content", some (.str s))]) s, ?_, ?_⟩
  · simp only [systemMessage, given, bind, Except.bind, pure, Except.pure]
  unfold unlessEmpty
  split
  · simp
  · intro m mem
    rw [List.mem_singleton] at mem
    subst mem
    exact ⟨rfl, rfl⟩

/-! ## What a turn becomes -/

theorem imageUrl_legal {block : List (Bytes × Value)} (legal : LegalSource (block.lookup (lit "source"))) :
    ∃ url, imageUrl rt (.obj block) = .ok url := by
  match given : block.lookup (lit "source"), legal with
  | some (.obj source), legal =>
      simp only [imageUrl, index_obj, given, truthy_obj, if_true, bind, Except.bind]
      split
      · rename_i isBase64
        obtain ⟨⟨data, hdata⟩, mediaType⟩ := legal isBase64
        rcases mediaType with none | ⟨mediaType, hmediaType⟩
        · simp [hdata, none, orElse, Runtime.concatArg, pure, Except.pure]
        · simp [hdata, hmediaType, orElse, Runtime.concatArg, pure, Except.pure]
      · split <;> simp [pure, Except.pure]

/-- What the loop over the blocks of a user turn has collected from those read so far. -/
structure Collected (blocks : List Value) (parts : UserParts) : Prop where
  replies : parts.toolMessages.map toolCallId =
    ((blocks.filter (hasType "tool_result")).map (fieldOf · "tool_use_id")).map some
  silent : ∀ m ∈ parts.toolMessages, callIds m = []
  strings : ∀ part ∈ parts.textParts, IsString (some part)

theorem toolMessage_legal {block : List (Bytes × Value)}
    (legal : LegalResult (block.lookup (lit "content"))) :
    ∃ message, toolMessage rt (.obj block) = .ok message ∧
      toolCallId message = some (fieldOf (.obj block) "tool_use_id") ∧ callIds message = [] := by
  obtain ⟨text, given⟩ := toolResultText_legal rt legal
  refine ⟨table [("role", some (.str (lit "tool"))), ("content", some (.str text)),
    ("tool_call_id", block.lookup (lit "tool_use_id"))], ?_, ?_⟩
  · simp only [toolMessage, index_obj, given, bind, Except.bind, pure, Except.pure]
  · simp only [fieldOf]
    cases block.lookup (lit "tool_use_id") <;> exact ⟨rfl, rfl⟩

/-- A block without a result leaves the tool messages alone. -/
theorem Collected.other {blocks : List Value} {block : Value} {parts after : UserParts}
    (collected : Collected blocks parts) (other : hasType "tool_result" block = false)
    (same : after.toolMessages = parts.toolMessages)
    (strings : ∀ part ∈ after.textParts, IsString (some part)) :
    Collected (blocks ++ [block]) after := by
  refine ⟨?_, ?_, strings⟩
  · rw [same, collected.replies, List.filter_append, List.filter_cons_of_neg (by simp [other]),
      List.filter_nil, List.append_nil]
  · rw [same]
    exact collected.silent

theorem Collected.result {blocks : List Value} {block message : Value} {parts : UserParts}
    (collected : Collected blocks parts) (result : hasType "tool_result" block = true)
    (replies : toolCallId message = some (fieldOf block "tool_use_id")) (silent : callIds message = []) :
    Collected (blocks ++ [block])
      { parts with toolMessages := parts.toolMessages ++ [message] } := by
  refine ⟨?_, ?_, collected.strings⟩
  · rw [List.map_append, collected.replies, List.filter_append, List.filter_cons_of_pos result]
    simp [replies]
  · intro m mem
    cases List.mem_append.mp mem with
    | inl old => exact collected.silent m old
    | inr new =>
        rw [List.mem_singleton.mp new]
        exact silent

theorem isString_append {parts : List Value} (strings : ∀ part ∈ parts, IsString (some part))
    (s : Bytes) : ∀ part ∈ parts ++ [.str s], IsString (some part) := by
  intro part mem
  cases List.mem_append.mp mem with
  | inl old => exact strings part old
  | inr new =>
      rw [List.mem_singleton.mp new]
      exact ⟨s, rfl⟩

theorem userBlock_legal {blocks : List Value} {block : Value} {parts : UserParts}
    (legal : LegalUserBlock block) (collected : Collected blocks parts) :
    ∃ after, userBlock rt parts block = .ok after ∧ Collected (blocks ++ [block]) after := by
  cases block with
  | null | bool | num | arr => cases legal
  | str s =>
      exact ⟨_, rfl, collected.other rfl rfl (isString_append collected.strings s)⟩
  | obj fields =>
      obtain ⟨text, image, result⟩ := legal
      simp only [userBlock, index_obj, bind, Except.bind, pure, Except.pure]
      have hasTypeIs (type : String) :
          hasType type (.obj fields) = isLit (fields.lookup (lit "type")) type := rfl
      split
      · rename_i isText
        obtain ⟨s, given⟩ := text isText
        have other : hasType "tool_result" (.obj fields) = false := by
          rw [hasTypeIs]
          exact isLit_other isText (by decide)
        rw [given]
        exact ⟨_, rfl, collected.other other rfl (isString_append collected.strings s)⟩
      · split
        · rename_i isImage
          obtain ⟨url, read⟩ := imageUrl_legal rt (image isImage)
          have other : hasType "tool_result" (.obj fields) = false := by
            rw [hasTypeIs]
            exact isLit_other isImage (by decide)
          rw [read]
          exact ⟨_, rfl, collected.other other rfl collected.strings⟩
        · split
          · rename_i isResult
            obtain ⟨message, made, replies, silent⟩ := toolMessage_legal rt (result isResult)
            rw [made]
            exact ⟨_, rfl, collected.result isResult replies silent⟩
          · rename_i notResult
            exact ⟨parts, rfl, collected.other (Bool.not_eq_true _ ▸ notResult) rfl collected.strings⟩

theorem userBlocks_legal {done blocks : List Value} {parts : UserParts}
    (legal : ∀ block ∈ blocks, LegalUserBlock block) (collected : Collected done parts) :
    ∃ after, blocks.foldlM (userBlock rt) parts = .ok after ∧ Collected (done ++ blocks) after := by
  induction blocks generalizing done parts with
  | nil => exact ⟨parts, rfl, by simpa using collected⟩
  | cons block blocks ih =>
      obtain ⟨next, stepped, collected⟩ := userBlock_legal rt (legal block List.mem_cons_self) collected
      obtain ⟨after, rest, collected⟩ :=
        ih (fun other mem => legal other (List.mem_cons_of_mem block mem)) collected
      refine ⟨after, ?_, by simpa using collected⟩
      rw [List.foldlM_cons, stepped]
      exact rest

/-- The message of the user's own words neither calls nor replies. -/
theorem userMessage_legal {blocks : List Value} {parts : UserParts} (collected : Collected blocks parts) :
    ∃ own, userMessage rt parts = .ok own ∧ ∀ m ∈ own, callIds m = [] ∧ toolCallId m = none := by
  unfold userMessage
  split
  · refine ⟨_, rfl, ?_⟩
    intro m mem
    rw [List.mem_singleton.mp mem]
    exact ⟨rfl, rfl⟩
  · split
    · obtain ⟨text, joined⟩ := tableConcat_strings rt (lit "\n") collected.strings
      refine ⟨[table [("role", some (.str (lit "user"))), ("content", some (.str text))]], ?_, ?_⟩
      · simp only [joined, bind, Except.bind, pure, Except.pure]
      · intro m mem
        rw [List.mem_singleton.mp mem]
        exact ⟨rfl, rfl⟩
    · exact ⟨[], rfl, by simp⟩

theorem assistantBlock_legal {block : Value} (legal : LegalAssistantBlock block)
    (parts : AssistantParts) :
    ∃ after, assistantBlock rt parts block = .ok after ∧
      after.toolCalls.map (fun call => (callIdentity call).1) =
        parts.toolCalls.map (fun call => (callIdentity call).1) ++
          ([block].filter (hasType "tool_use")).map (fieldOf · "id") := by
  cases block with
  | null | bool | num | str | arr => cases legal
  | obj fields =>
      obtain ⟨thinking, text⟩ := legal
      have hasTypeIs : hasType "tool_use" (.obj fields) =
          isLit (fields.lookup (lit "type")) "tool_use" := rfl
      simp only [assistantBlock, index_obj, bind, Except.bind, pure, Except.pure]
      split
      · rename_i isThinking
        have isThinking := (Bool.and_eq_true_iff.mp isThinking).1
        obtain ⟨s, given⟩ := thinking isThinking
        have other : hasType "tool_use" (.obj fields) = false := isLit_other isThinking (by decide)
        rw [given]
        exact ⟨_, rfl, by simp [other]⟩
      · split
        · rename_i isText
          obtain ⟨s, given⟩ := text isText
          have other : hasType "tool_use" (.obj fields) = false := isLit_other isText (by decide)
          rw [given]
          exact ⟨_, rfl, by simp [other]⟩
        · split
          · rename_i isTool
            obtain ⟨call, made, identity⟩ := toolCall_identity rt fields
            have here : hasType "tool_use" (.obj fields) = true := isTool
            rw [made]
            exact ⟨_, rfl, by simp [here, identity, fieldOf]⟩
          · rename_i notTool
            have other : hasType "tool_use" (.obj fields) = false := Bool.not_eq_true _ ▸ notTool
            exact ⟨parts, rfl, by simp [other]⟩

theorem assistantBlocks_legal {blocks : List Value}
    (legal : ∀ block ∈ blocks, LegalAssistantBlock block) (parts : AssistantParts) :
    ∃ after, blocks.foldlM (assistantBlock rt) parts = .ok after ∧
      after.toolCalls.map (fun call => (callIdentity call).1) =
        parts.toolCalls.map (fun call => (callIdentity call).1) ++
          (blocks.filter (hasType "tool_use")).map (fieldOf · "id") := by
  induction blocks generalizing parts with
  | nil => exact ⟨parts, rfl, by simp⟩
  | cons block blocks ih =>
      obtain ⟨next, stepped, head⟩ := assistantBlock_legal rt (legal block List.mem_cons_self) parts
      obtain ⟨after, rest, tail⟩ :=
        ih (fun other mem => legal other (List.mem_cons_of_mem block mem)) next
      refine ⟨after, ?_, ?_⟩
      · rw [List.foldlM_cons, stepped]
        exact rest
      · rw [tail, head, ← List.singleton_append (l := blocks), List.filter_append, List.map_append,
          List.append_assoc]

/-- A legal turn becomes its replies and its own words, or one message with its calls. -/
theorem convertMessage_legal {turn : Value} (legal : LegalTurn turn) :
    ∃ chunk, convertMessage rt turn = .ok chunk ∧
      Fan toolUseIds toolResultIds callIds toolCallId turn chunk := by
  have user : isLit (some (.str (lit "assistant"))) "user" = false := by decide
  have assistant : isLit (some (.str (lit "user"))) "assistant" = false := by decide
  cases legal with
  | @plain turn role s hrole known content =>
      have blocks : turnBlocks (.obj turn) = [] := by simp [turnBlocks, fieldOf, content, itemsOf]
      refine ⟨[table [("role", some (.str (lit role))), ("content", some (.str s))]], ?_,
        .asking ?_ ?_ ?_⟩
      · simp only [convertMessage, index_obj, hrole, content, bind, Except.bind, pure, Except.pure]
      · simp [toolResultIds, blocks]
      · simp [toolUseIds, blocks]
        rfl
      · rcases known with rfl | rfl <;> rfl
  | @user turn blocks hrole content legal =>
      have start : Collected [] ⟨[], [], false, []⟩ := ⟨rfl, by simp, by simp⟩
      obtain ⟨parts, folded, collected⟩ := userBlocks_legal rt legal start
      obtain ⟨own, words, quiet⟩ := userMessage_legal rt collected
      refine ⟨parts.toolMessages ++ own, ?_, .replying ?_ ?_ ?_ fun m mem => (quiet m mem).2⟩
      · have isUser : isLit (some (.str (lit "user"))) "user" = true := by decide
        simp only [convertMessage, index_obj, hrole, content, isUser, if_true, convertUserMessage,
          ipairs, folded, words, bind, Except.bind, pure, Except.pure]
      · simp [toolUseIds, fieldOf, hrole, assistant]
      · rw [collected.replies]
        simp [toolResultIds, turnBlocks, fieldOf, hrole, content, itemsOf, isLit]
      · intro m mem
        cases List.mem_append.mp mem with
        | inl result => exact collected.silent m result
        | inr word => exact (quiet m word).1
  | @assistant turn blocks hrole content legal =>
      obtain ⟨parts, folded, calls⟩ := assistantBlocks_legal rt legal ⟨[], []⟩
      obtain ⟨role, -, sent⟩ := fieldOf_assistantMessage parts
      refine ⟨[assistantMessage parts], ?_, .asking ?_ ?_ ?_⟩
      · have isAssistant : isLit (some (.str (lit "assistant"))) "assistant" = true := by decide
        simp only [convertMessage, index_obj, hrole, content, user, isAssistant, Bool.false_eq_true,
          if_false, if_true, convertAssistantMessage, ipairs, folded, bind, Except.bind, pure,
          Except.pure]
      · simp [toolResultIds, fieldOf, hrole, user]
      · have ids : callIds (assistantMessage parts) =
            parts.toolCalls.map fun call => (callIdentity call).1 := by
          rw [callIds, sent, List.map_map]
          rfl
        rw [ids, calls]
        simp [toolUseIds, turnBlocks, fieldOf, hrole, content, itemsOf, isLit]
      · simp [toolCallId, role, isLit]
        decide

theorem convertMessages_legal {turns : List Value} (legal : ∀ turn ∈ turns, LegalTurn turn) :
    ∃ chunks, convertMessages rt turns = .ok chunks.flatten ∧
      List.Forall₂ (Fan toolUseIds toolResultIds callIds toolCallId) turns chunks := by
  obtain ⟨chunks, mapped, -⟩ := mapM_total (f := convertMessage rt) (P := fun _ => True)
    fun turn mem => by
      obtain ⟨chunk, converted, -⟩ := convertMessage_legal rt (legal turn mem)
      exact ⟨chunk, converted, trivial⟩
  refine ⟨chunks, by simp only [convertMessages, mapped, bind, Except.bind, pure, Except.pure], ?_⟩
  refine (List.forall₂_iff_get.mp (mapM_forall₂ mapped)).elim fun same each => ?_
  refine List.forall₂_iff_get.mpr ⟨same, fun i here there => ?_⟩
  obtain ⟨chunk, converted, fan⟩ := convertMessage_legal rt (legal _ (List.get_mem turns ⟨i, here⟩))
  cases converted.symm.trans (each i here there)
  exact fan

/-! ## The whole request -/

theorem convertTools_legal {tools : Option Value} (legal : LegalTools tools) :
    ∃ converted, convertTools tools = .ok converted := by
  match tools, legal with
  | none, _ => exact ⟨none, rfl⟩
  | some (.arr list), legal =>
      obtain ⟨items, mapped, -⟩ := mapM_total (f := convertTool) (P := fun _ => True)
        fun tool (mem : tool ∈ list) => by
          obtain ⟨fields, rfl⟩ := legal tool mem
          exact ⟨_, rfl, trivial⟩
      by_cases empty : list.length = 0
      · refine ⟨none, ?_⟩
        simp [convertTools, present, Option.filter, truthy, length, empty, bind, Except.bind, pure,
          Except.pure]
      · refine ⟨some (.arr items), ?_⟩
        simp [convertTools, present, Option.filter, truthy, length, empty, ipairs, mapped, bind,
          Except.bind, pure, Except.pure]

theorem toolChoice_total (choice : Option Value) : ∃ converted, toolChoice choice = .ok converted := by
  rcases choice with _ | (_ | _ | _ | _ | _ | _) <;>
    simp [toolChoice, index, bind, Except.bind, pure, Except.pure]

/-- A legal request is translated, whatever its other fields are. -/
theorem requestToOpenai_legal {body : Value} {msgs : List Value} (legal : LegalRequest body msgs) :
    ∃ oai, requestToOpenai rt body = .ok oai := by
  obtain ⟨fields, rfl, given, turns, system, tools⟩ := legal
  obtain ⟨heading, hheading, -⟩ := systemMessage_legal rt system
  obtain ⟨chunks, converted, -⟩ := convertMessages_legal rt turns
  obtain ⟨choice, hchoice⟩ := toolChoice_total (fields.lookup (lit "tool_choice"))
  obtain ⟨list, hlist⟩ := convertTools_legal tools
  simp only [requestToOpenai, index_obj, hheading, given, truthy, if_true, ipairs, converted,
    hchoice, hlist, parameters, List.mapM_cons, List.mapM_nil, bind, Except.bind, pure, Except.pure]
  exact ⟨_, rfl⟩

end Conversion

namespace Sample

def textBlock (s : String) : Value :=
  table [("type", some (.str (lit "text"))), ("text", some (.str (lit s)))]

def toolUseBlock (id : String) : Value :=
  table [("type", some (.str (lit "tool_use"))), ("id", some (.str (lit id))),
    ("name", some (.str (lit "f"))), ("input", some (.obj []))]

def toolResultBlock (id : String) : Value :=
  table [("type", some (.str (lit "tool_result"))), ("tool_use_id", some (.str (lit id))),
    ("content", some (.str (lit "r")))]

def turn (role : String) (blocks : List Value) : Value :=
  table [("role", some (.str (lit role))), ("content", some (.arr blocks))]

/-- Two calls, answered in the other order with a text in between. -/
def conversation : List Value :=
  [turn "assistant" [toolUseBlock "c1", toolUseBlock "c2"],
    turn "user" [toolResultBlock "c2", textBlock "and", toolResultBlock "c1"]]

def conversationBody : Value := table [("messages", some (.arr conversation))]

theorem conversation_legal : LegalRequest conversationBody conversation := by
  refine ⟨_, rfl, rfl, ?_, trivial, trivial⟩
  intro msg mem
  simp only [conversation, List.mem_cons, List.not_mem_nil, or_false] at mem
  rcases mem with rfl | rfl
  · refine .assistant rfl rfl fun block mem => ?_
    simp only [List.mem_cons, List.not_mem_nil, or_false] at mem
    rcases mem with rfl | rfl <;>
      exact ⟨fun wrong => absurd wrong (by decide), fun wrong => absurd wrong (by decide)⟩
  · refine .user rfl rfl fun block mem => ?_
    simp only [List.mem_cons, List.not_mem_nil, or_false] at mem
    rcases mem with rfl | rfl | rfl
    · exact ⟨fun wrong => absurd wrong (by decide), fun wrong => absurd wrong (by decide),
        fun _ => trivial⟩
    · exact ⟨fun _ => ⟨_, rfl⟩, fun wrong => absurd wrong (by decide),
        fun wrong => absurd wrong (by decide)⟩
    · exact ⟨fun wrong => absurd wrong (by decide), fun wrong => absurd wrong (by decide),
        fun _ => trivial⟩

theorem conversation_paired : Paired toolUseIds toolResultIds conversation := by
  refine (paired_nil.cons ?_).cons ?_
  · intro asking
    exact absurd rfl asking
  · intro _
    exact ⟨_, _, rfl, .swap _ _ _⟩

end Sample

end E2eeProxy.Claude
