import E2eeProxy.Lua.Value

/-! # OpenAI streaming chunks

What the translators of `claude_format.lua` and `responses_format.lua` read of
one chunk line. Both read the same fields with the same tests; a raise in the
middle of a chunk discards that call's events together with its state, so that
the fields can be read first and acted on afterwards.
-/

namespace E2eeProxy.OpenAi

open E2eeProxy.Lua

/-- An optional field as later tests see it: `false` counts as absent. -/
def present (v : Option Value) : Option Value := v.filter fun w => truthy (some w)

/-- One element of `delta.tool_calls`. `arguments` is the raw field and `text`
    what `..` appends for it. -/
structure ToolDelta where
  index : Value
  id : Option Value
  name : Option Value
  arguments : Option Value
  text : Bytes
  deriving DecidableEq

/-- `choices[1]` with its `delta`. `content` is empty when there is no content
    to handle, `toolCalls` is `none` when `delta.tool_calls` is not a table. -/
structure Choice where
  finishReason : Option Bytes
  content : Bytes
  toolCalls : Option (List ToolDelta)
  deriving DecidableEq

structure Usage where
  promptTokens : Option Value
  completionTokens : Option Value
  deriving DecidableEq

structure Chunk where
  id : Option Value
  model : Option Value
  usage : Option Usage
  choice : Option Choice
  deriving DecidableEq

/-- `chunk_line` without its `data: ` prefix, trimmed. -/
def chunkJson (chunkLine : Bytes) : Bytes :=
  trim (if startsWith (lit "data: ") chunkLine then chunkLine.drop 6 else chunkLine)

/-- The decoded chunk of a line; `[DONE]`, an empty line and undecodable text
    carry none. -/
def decodeChunk (rt : Runtime) (chunkLine : Bytes) : Option Value :=
  let json := chunkJson chunkLine
  if json = lit "[DONE]" ∨ json = [] then none else rt.decodeTruthy json

/-- `fn and fn[key]`. -/
def optionalField (fn : Option Value) (key : String) : LuaM (Option Value) :=
  if truthy fn then index fn key else .ok none

/-- The key under which the translators keep a tool call is `index or 0`. Two
    tables would be different keys even with equal fields; an index is a number. -/
def readToolDelta (rt : Runtime) (tc : Value) : LuaM ToolDelta := do
  let idx ← index (some tc) "index"
  let id ← index (some tc) "id"
  let fn ← index (some tc) "function"
  let name ← optionalField fn "name"
  let arguments ← optionalField fn "arguments"
  let text ← if truthy arguments then rt.concatArg arguments else .ok []
  return { index := orElse idx (.num 0), id := present id, name := present name,
           arguments := present arguments, text }

def readChoice (rt : Runtime) (choice : Value) : LuaM Choice := do
  let delta ← index (some choice) "delta"
  let delta := orElse delta (.obj [])
  let finishReason ← index (some choice) "finish_reason"
  let content ← index (some delta) "content"
  let calls ← index (some delta) "tool_calls"
  let toolCalls ← if isTable calls then do
      let items ← ipairs calls
      let deltas ← items.mapM (readToolDelta rt)
      pure (some deltas)
    else pure none
  return { finishReason := asString finishReason, content := (asString content).getD [],
           toolCalls }

def readUsage (usage : Option Value) : LuaM (Option Usage) :=
  if isTable usage then do
    let prompt ← index usage "prompt_tokens"
    let completion ← index usage "completion_tokens"
    return some { promptTokens := present prompt, completionTokens := present completion }
  else return none

/-- `chunk.choices and chunk.choices[1]`, when it is there. -/
def readFirstChoice (rt : Runtime) (choices : Option Value) : LuaM (Option Choice) := do
  let choice ← if truthy choices then first choices else .ok none
  match present choice with
  | some choice => some <$> readChoice rt choice
  | none => return none

def readChunk (rt : Runtime) (chunk : Value) : LuaM Chunk := do
  let id ← index (some chunk) "id"
  let model ← index (some chunk) "model"
  let usage ← index (some chunk) "usage"
  let usage ← readUsage usage
  let choices ← index (some chunk) "choices"
  let choice ← readFirstChoice rt choices
  return { id := present id, model := present model, usage, choice }

/-- What a choice asks a translator to do, in the order in which it does it. -/
inductive Move where
  | content (text : Bytes)
  | tool (delta : ToolDelta)
  deriving DecidableEq

/-- The content delta of a choice comes first; an empty one is not handled. -/
def Choice.moves (choice : Choice) : List Move :=
  (if choice.content = [] then [] else [.content choice.content]) ++
    (choice.toolCalls.getD []).map .tool

def Chunk.moves (chunk : Chunk) : List Move := (chunk.choice.map Choice.moves).getD []

/-! ## Well-formed chunks -/

/-- Whenever the field is there its value satisfies `p`. -/
def field (fields : List (Bytes × Value)) (key : String) (p : Value → Bool) : Bool :=
  (fields.lookup (lit key)).all p

/-- A string or a number: what `..` accepts. -/
def isText : Value → Bool
  | .str _ | .num _ => true
  | _ => false

def isNumber : Value → Bool
  | .num _ => true
  | _ => false

def isFunction : Value → Bool
  | .obj parts => field parts "arguments" isText
  | _ => false

def isToolCall : Value → Bool
  | .obj fields => field fields "index" isNumber && field fields "function" isFunction
  | _ => false

/-- `tool_calls` may also be `null`, or anything else that is not an array. -/
def isToolCalls : Value → Bool
  | .arr items => items.all isToolCall
  | _ => true

def isDelta : Value → Bool
  | .obj fields => field fields "tool_calls" isToolCalls
  | _ => false

def isChoice : Value → Bool
  | .obj fields => field fields "delta" isDelta
  | _ => false

def isChoices : Value → Bool
  | .arr items => items.all isChoice
  | _ => false

/-- The schema of a streaming chunk, as far as the translators read it. -/
def isChunk : Value → Bool
  | .obj fields => field fields "id" isText && field fields "choices" isChoices
  | _ => false

/-- The line carries a chunk, or nothing that the translators read. -/
def IsChunkLine (rt : Runtime) (chunkLine : Bytes) : Prop :=
  ∀ v, decodeChunk rt chunkLine = some v → isChunk v = true

/-- The chunk that a line carries. -/
def chunkOf (rt : Runtime) (chunkLine : Bytes) : Option Chunk :=
  (decodeChunk rt chunkLine).bind fun v => (readChunk rt v).toOption

/-- The moves of a sequence of lines. -/
def moves (rt : Runtime) (lines : List Bytes) : List Move :=
  (lines.filterMap (chunkOf rt)).flatMap Chunk.moves

/-- Only non-empty content is handled. -/
theorem moves_content_nonempty (rt : Runtime) (lines : List Bytes) (s : Bytes)
    (mem : .content s ∈ moves rt lines) : s ≠ [] := by
  obtain ⟨chunk, -, inChunk⟩ := List.mem_flatMap.mp mem
  cases choice : chunk.choice with
  | none => simp [Chunk.moves, choice] at inChunk
  | some c =>
      simp only [Chunk.moves, choice, Option.map_some, Option.getD_some, Choice.moves] at inChunk
      split at inChunk
      · simp at inChunk
      · rename_i filled
        simp only [List.cons_append, List.nil_append, List.mem_cons, Move.content.injEq,
          List.mem_map, reduceCtorEq, and_false, exists_false, or_false] at inChunk
        exact inChunk ▸ filled

theorem readFirstChoice_some {rt : Runtime} {choices : Option Value} {c : Choice}
    (read : readFirstChoice rt choices = .ok (some c)) : ∃ v, readChoice rt v = .ok c := by
  have steps : (if truthy choices then first choices else .ok none) >>= (fun choice =>
      match present choice with
      | some choice => some <$> readChoice rt choice
      | none => return none) = .ok (some c) := by
    rw [← read]
    unfold readFirstChoice
    split <;> rfl
  obtain ⟨choice, -, steps⟩ := bind_ok steps
  split at steps
  · rename_i v there
    refine ⟨v, ?_⟩
    cases done : readChoice rt v with
    | error e => simp [done] at steps
    | ok c' =>
        simp only [done, Functor.map, Except.map, Except.ok.injEq, Option.some.injEq] at steps
        rw [steps]
  · cases steps

theorem readChoice_call {rt : Runtime} {v : Value} {c : Choice} {tc : ToolDelta}
    (read : readChoice rt v = .ok c) (mem : tc ∈ c.toolCalls.getD []) :
    ∃ item, readToolDelta rt item = .ok tc := by
  obtain ⟨delta, -, read⟩ := bind_ok read
  obtain ⟨finishReason, -, read⟩ := bind_ok read
  obtain ⟨content, -, read⟩ := bind_ok read
  obtain ⟨calls, -, read⟩ := bind_ok read
  by_cases table : isTable calls
  · simp only [table, if_true] at read
    obtain ⟨items, -, read⟩ := bind_ok read
    obtain ⟨deltas, mapped, read⟩ := bind_ok read
    cases read
    obtain ⟨item, -, done⟩ := mapM_mem mapped mem
    exact ⟨item, done⟩
  · simp only [table] at read
    cases read
    cases mem

/-- Every tool delta of the moves was read from an element of `delta.tool_calls`. -/
theorem moves_tool_read {rt : Runtime} {lines : List Bytes} {tc : ToolDelta}
    (mem : .tool tc ∈ moves rt lines) : ∃ item, readToolDelta rt item = .ok tc := by
  obtain ⟨chunk, inLines, inChunk⟩ := List.mem_flatMap.mp mem
  obtain ⟨line, -, carried⟩ := List.mem_filterMap.mp inLines
  obtain ⟨v, -, read⟩ := Option.bind_eq_some_iff.mp carried
  cases choice : chunk.choice with
  | none => simp [Chunk.moves, choice] at inChunk
  | some c =>
      have ofCalls : tc ∈ c.toolCalls.getD [] := by
        simp only [Chunk.moves, choice, Option.map_some, Option.getD_some, Choice.moves,
          List.mem_append, List.mem_map, Move.tool.injEq, exists_eq_right] at inChunk
        cases inChunk with
        | inl content => split at content <;> simp at content
        | inr call => exact call
      cases done : readChunk rt v with
      | error e => simp [done, Except.toOption] at read
      | ok chunk' =>
          simp only [done, Except.toOption, Option.some.injEq] at read
          subst read
          obtain ⟨id, -, done⟩ := bind_ok done
          obtain ⟨model, -, done⟩ := bind_ok done
          obtain ⟨usage, -, done⟩ := bind_ok done
          obtain ⟨usage, -, done⟩ := bind_ok done
          obtain ⟨choices, -, done⟩ := bind_ok done
          obtain ⟨found, first, done⟩ := bind_ok done
          cases done
          rw [show found = some c from choice] at first
          obtain ⟨v, whole⟩ := readFirstChoice_some first
          exact readChoice_call whole ofCalls

theorem field_some {fields : List (Bytes × Value)} {key : String} {p : Value → Bool} {v : Value}
    (h : field fields key p = true) (found : fields.lookup (lit key) = some v) : p v = true := by
  simpa [field, found] using h

theorem concatArg_isText (rt : Runtime) {v : Value} (h : isText v = true) :
    ∃ s, rt.concatArg (some v) = .ok s := by
  cases v with
  | str s => exact ⟨s, rfl⟩
  | num q => exact ⟨rt.tostringNumber q, rfl⟩
  | null | bool | arr | obj => cases h

theorem optionalField_obj {fields : List (Bytes × Value)} (key : String) :
    optionalField (some (.obj fields)) key = .ok (fields.lookup (lit key)) := by
  simp [optionalField]

theorem readToolDelta_ok (rt : Runtime) {tc : Value} (h : isToolCall tc = true) :
    ∃ delta, readToolDelta rt tc = .ok delta := by
  cases tc with
  | null | bool | num | str | arr => cases h
  | obj fields =>
      have function := (Bool.and_eq_true_iff.mp h).2
      simp only [readToolDelta, index_obj, bind, Except.bind]
      cases hfn : fields.lookup (lit "function") with
      | none => simp [optionalField, pure, Except.pure]
      | some fn =>
          have parts := field_some function hfn
          cases fn with
          | null | bool | num | str | arr => cases parts
          | obj parts' =>
              simp only [optionalField_obj]
              cases hargs : parts'.lookup (lit "arguments") with
              | none => simp [pure, Except.pure]
              | some arguments =>
                  obtain ⟨s, hs⟩ := concatArg_isText rt (field_some parts hargs)
                  simp only [hs]
                  split <;> simp [pure, Except.pure]

/-- An absent `delta` reads as an empty one. -/
theorem isDelta_orElse {fields : List (Bytes × Value)} (h : field fields "delta" isDelta = true) :
    ∃ parts, orElse (fields.lookup (lit "delta")) (.obj []) = .obj parts ∧
      field parts "tool_calls" isToolCalls = true := by
  cases hd : fields.lookup (lit "delta") with
  | none => exact ⟨[], rfl, rfl⟩
  | some delta =>
      have calls := field_some h hd
      cases delta with
      | null | bool | num | str | arr => cases calls
      | obj parts => exact ⟨parts, rfl, calls⟩

theorem readChoice_ok (rt : Runtime) {choice : Value} (h : isChoice choice = true) :
    ∃ c, readChoice rt choice = .ok c := by
  cases choice with
  | null | bool | num | str | arr => cases h
  | obj fields =>
      obtain ⟨parts, hdelta, callsOk⟩ := isDelta_orElse h
      simp only [readChoice, index_obj, hdelta, bind, Except.bind]
      cases hc : parts.lookup (lit "tool_calls") with
      | none => simp [isTable, pure, Except.pure]
      | some calls =>
          have items := field_some callsOk hc
          cases calls with
          | null | bool | num | str => simp [isTable, pure, Except.pure]
          | obj => simp [isTable, ipairs, pure, Except.pure]
          | arr calls =>
              obtain ⟨deltas, hds, -⟩ := mapM_total (P := fun _ => True) fun tc mem => by
                obtain ⟨delta, read⟩ := readToolDelta_ok rt (List.all_eq_true.mp items tc mem)
                exact ⟨delta, read, trivial⟩
              simp [isTable, ipairs, hds, pure, Except.pure]

theorem readUsage_ok (usage : Option Value) : ∃ u, readUsage usage = .ok u := by
  rcases usage with _ | (_ | _ | _ | _ | _ | _) <;>
    simp [readUsage, isTable, index, bind, Except.bind, pure, Except.pure]

theorem readFirstChoice_ok (rt : Runtime) {items : List Value}
    (each : items.all isChoice = true) :
    ∃ c, readFirstChoice rt (some (.arr items)) = .ok c := by
  cases items with
  | nil => exact ⟨none, rfl⟩
  | cons choice rest =>
      have valid := (Bool.and_eq_true_iff.mp each).1
      obtain ⟨c, hread⟩ := readChoice_ok rt valid
      cases choice with
      | null | bool | num | str | arr => cases valid
      | obj parts =>
          refine ⟨some c, ?_⟩
          show some <$> readChoice rt (.obj parts) = .ok (some c)
          rw [hread]
          rfl

theorem readChunk_ok (rt : Runtime) {chunk : Value} (h : isChunk chunk = true) :
    ∃ c, readChunk rt chunk = .ok c := by
  cases chunk with
  | null | bool | num | str | arr => cases h
  | obj fields =>
      have choicesOk := (Bool.and_eq_true_iff.mp h).2
      obtain ⟨usage, husage⟩ := readUsage_ok (fields.lookup (lit "usage"))
      simp only [readChunk, index_obj, husage, bind, Except.bind]
      cases hc : fields.lookup (lit "choices") with
      | none => exact ⟨_, rfl⟩
      | some choices =>
          have valid := field_some choicesOk hc
          cases choices with
          | null | bool | num | str | obj => cases valid
          | arr items =>
              obtain ⟨c, hread⟩ := readFirstChoice_ok rt valid
              exact ⟨_, by rw [hread]; rfl⟩

/-- The translators can use the id of a chunk in a message id. -/
theorem readChunk_id {rt : Runtime} {v : Value} {chunk : Chunk} (h : isChunk v = true)
    (read : readChunk rt v = .ok chunk) : ∀ id, chunk.id = some id → isText id = true := by
  cases v with
  | null | bool | num | str | arr => cases h
  | obj fields =>
      have idOk := (Bool.and_eq_true_iff.mp h).1
      intro id hid
      obtain ⟨usage, husage⟩ := readUsage_ok (fields.lookup (lit "usage"))
      simp only [readChunk, index_obj, husage, bind, Except.bind, pure, Except.pure] at read
      split at read
      · simp at read
      · simp only [Except.ok.injEq] at read
        rw [← read] at hid
        exact field_some idOk (Option.filter_eq_some_iff.mp hid).1

/-- A content that starts with the tag has room for it. -/
theorem tag_length {s : Bytes} (starts : s.take 7 = lit "<think>") : 7 ≤ s.length := by
  have tag : (lit "<think>").length = 7 := by decide
  have length := congrArg List.length starts
  rw [List.length_take, tag] at length
  omega

/-! ## Sample chunks -/

/-- A chunk with `delta` as the delta of its choice. -/
def deltaChunk (delta : Value) : Value :=
  .obj [(lit "choices", .arr [.obj [(lit "delta", delta)]])]

def contentJson (content : String) : Bytes :=
  lit "\x7b\"choices\":[\x7b\"delta\":\x7b\"content\":\"" ++ lit content ++ lit "\"\x7d\x7d]\x7d"

def contentChunk (content : String) : Value := deltaChunk (.obj [(lit "content", .str (lit content))])

def contentLine (content : String) : Bytes := lit "data: " ++ contentJson content

/-- A runtime that decodes the chunks of these content deltas. -/
def contentRuntime (contents : List String) : Runtime :=
  .ofDocuments (contents.map fun content => (contentJson content, contentChunk content))

end E2eeProxy.OpenAi
