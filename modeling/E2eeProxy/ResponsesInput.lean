import E2eeProxy.ResponsesRoundTrip

/-! # The input of a Responses request

What one item of the input appends to the messages and leaves pending. Function
calls wait for the next assistant message or for an output, so that they come
before the outputs that answer them.
-/

namespace E2eeProxy.Responses

open E2eeProxy.Lua

/-- A field of a table. -/
def has (v : Value) (key : String) : Option Value :=
  match v with
  | .obj fields => fields.lookup (lit key)
  | _ => none

def isKind (kind : String) (item : Value) : Bool := isLit (has item "type") kind

def roleOf (item : Value) : Value := orElse (has item "role") (.str (lit "user"))

def callIdOf (item : Value) : Value :=
  orElse (has item "call_id") (orElse (has item "id") (.str []))

/-- The tool call that a function call becomes. -/
def convertedCall (item : Value) : Value :=
  table [("id", some (callIdOf item)), ("type", some (.str (lit "function"))),
    ("function", some (table [("name", some (orElse (has item "name") (.str []))),
      ("arguments", some (orElse (has item "arguments") (.str (lit "\x7b\x7d"))))]))]

def plainMessage (role : Value) (content : Bytes) : Value :=
  table [("role", some role), ("content", some (.str content))]

def toolMessage (content : Bytes) (callId : Value) : Value :=
  table [("role", some (.str (lit "tool"))), ("content", some (.str content)),
    ("tool_call_id", some callId)]

/-- The text of a reasoning item. -/
def reasoningText (rt : Runtime) (item : Value) : LuaM Bytes :=
  if truthy (has item "text") then rt.concatArg (has item "text") else .ok []

/-- What an item makes of what is pending, and the messages it appends. -/
inductive ItemStep (rt : Runtime) (pending : Pending) (item : Value) :
    Pending → List Value → Prop
  | assistant {text : Bytes} (kind : isKind "message" item = true)
      (role : roleOf item = .str (lit "assistant"))
      (content : convertResponseContent rt (has item "content") = .ok text) :
      ItemStep rt pending item ⟨[], []⟩ [assistantMessage pending text]
  | message {text : Bytes} (kind : isKind "message" item = true)
      (role : roleOf item ≠ .str (lit "assistant"))
      (content : convertResponseContent rt (has item "content") = .ok text) :
      ItemStep rt pending item pending [plainMessage (roleOf item) text]
  | call (kind : isKind "function_call" item = true) :
      ItemStep rt pending item
        { pending with toolCalls := pending.toolCalls ++ [convertedCall item] } []
  | output {text : Bytes} (kind : isKind "function_call_output" item = true)
      (content : outputText rt (orElse (has item "output") (.str [])) = .ok text) :
      ItemStep rt pending item (flushCalls pending).1
        ((flushCalls pending).2 ++ [toolMessage text (callIdOf item)])
  | reasoning {text : Bytes} (kind : isKind "reasoning" item = true)
      (content : reasoningText rt item = .ok text) :
      ItemStep rt pending item { pending with reasoning := pending.reasoning ++ text } []
  | ignored (message : isKind "message" item = false) (call : isKind "function_call" item = false)
      (output : isKind "function_call_output" item = false)
      (reasoning : isKind "reasoning" item = false) :
      ItemStep rt pending item pending []

section Step

variable {rt : Runtime} {pending pending' : Pending} {item : Value} {out : List Value}

theorem index_has {v : Value} {key : String} {field : Option Value}
    (read : index (some v) key = .ok field) : field = has v key := by
  cases v with
  | obj fields | arr items | str s =>
      cases read
      rfl
  | null | bool b | num q => cases read

theorem itemCallId_eq {id : Value} (read : itemCallId item = .ok id) : id = callIdOf item := by
  obtain ⟨callId, read', read⟩ := bind_ok read
  cases index_has read'
  obtain ⟨other, read', read⟩ := bind_ok read
  cases index_has read'
  cases read
  rfl

theorem messageItem_step (kind : isKind "message" item = true)
    (h : messageItem rt pending item = .ok (pending', out)) :
    ItemStep rt pending item pending' out := by
  obtain ⟨role, read, h⟩ := bind_ok h
  cases index_has read
  obtain ⟨content, read, h⟩ := bind_ok h
  cases index_has read
  obtain ⟨text, content, h⟩ := bind_ok h
  split at h
  · rename_i role
    cases h
    exact .assistant kind role content
  · rename_i role
    cases h
    exact .message kind role content

theorem functionCall_step (kind : isKind "function_call" item = true)
    (h : functionCall pending item = .ok (pending', out)) :
    ItemStep rt pending item pending' out := by
  obtain ⟨id, read, h⟩ := bind_ok h
  cases itemCallId_eq read
  obtain ⟨name, read, h⟩ := bind_ok h
  cases index_has read
  obtain ⟨arguments, read, h⟩ := bind_ok h
  cases index_has read
  cases h
  exact .call kind

theorem functionCallOutput_step (kind : isKind "function_call_output" item = true)
    (h : functionCallOutput rt pending item = .ok (pending', out)) :
    ItemStep rt pending item pending' out := by
  obtain ⟨output, read, h⟩ := bind_ok h
  cases index_has read
  obtain ⟨text, content, h⟩ := bind_ok h
  obtain ⟨id, read, h⟩ := bind_ok h
  cases itemCallId_eq read
  cases h
  exact .output kind content

theorem reasoningItem_step (kind : isKind "reasoning" item = true)
    (h : reasoningItem rt pending item = .ok (pending', out)) :
    ItemStep rt pending item pending' out := by
  obtain ⟨text, read, h⟩ := bind_ok h
  cases index_has read
  split at h
  · rename_i given
    obtain ⟨text, content, h⟩ := bind_ok h
    cases h
    exact .reasoning kind (by rw [reasoningText, if_pos given, content])
  · rename_i missing
    cases h
    have content : reasoningText rt item = .ok [] := by rw [reasoningText, if_neg missing]
    have step : ItemStep rt pending item _ [] := .reasoning kind content
    rwa [List.append_nil] at step

theorem inputItem_step (h : inputItem rt pending item = .ok (pending', out)) :
    ItemStep rt pending item pending' out := by
  obtain ⟨type, read, h⟩ := bind_ok h
  cases index_has read
  split at h
  · rename_i kind
    exact messageItem_step kind h
  · rename_i message
    split at h
    · rename_i kind
      exact functionCall_step kind h
    · rename_i call
      split at h
      · rename_i kind
        exact functionCallOutput_step kind h
      · rename_i output
        split at h
        · rename_i kind
          exact reasoningItem_step kind h
        · rename_i reasoning
          cases h
          exact .ignored (eq_false_of_ne_true message) (eq_false_of_ne_true call)
            (eq_false_of_ne_true output) (eq_false_of_ne_true reasoning)

theorem step_inputItem {fields : List (Bytes × Value)}
    (step : ItemStep rt pending (.obj fields) pending' out) :
    inputItem rt pending (.obj fields) = .ok (pending', out) := by
  have read (key : String) :
      index (some (.obj fields)) key = .ok (has (.obj fields) key) := rfl
  have callId : itemCallId (.obj fields) = .ok (callIdOf (.obj fields)) := by
    simp only [itemCallId, read, bind, Except.bind, pure, Except.pure, callIdOf]
  unfold inputItem
  rw [read]
  cases step with
  | assistant kind role content =>
      rw [isKind] at kind
      rw [roleOf] at role
      simp only [kind, messageItem, read, content, role, bind, Except.bind, pure, Except.pure,
        if_true]
  | message kind role content =>
      rw [isKind] at kind
      rw [roleOf] at role
      simp only [kind, messageItem, read, content, role, bind, Except.bind, pure, Except.pure,
        if_true, if_false]
      rfl
  | call kind =>
      have message := isLit_other (t := "message") kind (by decide)
      rw [isKind] at kind
      simp only [kind, message, functionCall, read, callId, bind, Except.bind, pure, Except.pure,
        if_true, Bool.false_eq_true, if_false]
      rfl
  | output kind content =>
      have message := isLit_other (t := "message") kind (by decide)
      have call := isLit_other (t := "function_call") kind (by decide)
      rw [isKind] at kind
      simp only [kind, message, call, functionCallOutput, read, callId, content, bind, Except.bind,
        pure, Except.pure, if_true, Bool.false_eq_true, if_false]
      rfl
  | reasoning kind content =>
      have message := isLit_other (t := "message") kind (by decide)
      have call := isLit_other (t := "function_call") kind (by decide)
      have output := isLit_other (t := "function_call_output") kind (by decide)
      rw [isKind] at kind
      simp only [kind, message, call, output, reasoningItem, read, bind, Except.bind, pure,
        Except.pure, if_true, Bool.false_eq_true, if_false]
      unfold reasoningText at content
      split at content
      · rename_i given
        rw [if_pos given, content]
      · rename_i missing
        cases content
        rw [if_neg missing, List.append_nil]
  | ignored message call output reasoning =>
      rw [isKind] at message call output reasoning
      simp only [message, call, output, reasoning, bind, Except.bind, pure, Except.pure,
        Bool.false_eq_true, if_false]

end Step

section Run

variable {rt : Runtime} {pending last : Pending} {items : List Value} {msgs : List Value}

/-- A run over the items is a step and the run over the rest. -/
theorem inputItems_cons {item : Value}
    (run : inputItems rt pending (item :: items) = .ok (last, msgs)) :
    ∃ pending' here later, inputItem rt pending item = .ok (pending', here) ∧
      inputItems rt pending' items = .ok (last, later) ∧ msgs = here ++ later := by
  obtain ⟨⟨pending', here⟩, now, run⟩ := bind_ok run
  obtain ⟨⟨last', later⟩, rest, run⟩ := bind_ok run
  cases run
  exact ⟨pending', here, later, now, rest, rfl⟩

theorem inputItems_split {before : List Value} {item : Value} {after : List Value}
    (run : inputItems rt pending (before ++ item :: after) = .ok (last, msgs)) :
    ∃ mid earlier pending' here later, inputItems rt pending before = .ok (mid, earlier) ∧
      inputItem rt mid item = .ok (pending', here) ∧
      inputItems rt pending' after = .ok (last, later) ∧ msgs = earlier ++ here ++ later := by
  rw [inputItems_append] at run
  obtain ⟨⟨mid, earlier⟩, first, run⟩ := bind_ok run
  obtain ⟨⟨last', rest⟩, second, run⟩ := bind_ok run
  cases run
  obtain ⟨pending', here, later, now, rest, rfl⟩ := inputItems_cons second
  exact ⟨mid, earlier, pending', here, later, first, now, rest, (List.append_assoc _ _ _).symm⟩

theorem inputMessages_run (ran : inputMessages rt (some (.arr items)) = .ok msgs) :
    ∃ last out, inputItems rt ⟨[], []⟩ items = .ok (last, out) ∧ msgs = out ++ (flushCalls last).2 := by
  obtain ⟨items', listed, ran⟩ := bind_ok ran
  cases listed
  obtain ⟨⟨last, out⟩, run, ran⟩ := bind_ok ran
  cases ran
  exact ⟨last, out, run, rfl⟩

end Run

/-! ## Items of the API -/

/-- A string, or a part whose text is a string if it has one. -/
def IsPart (part : Value) : Prop :=
  (∃ s, part = .str s) ∨
    ∃ fields, part = .obj fields ∧ ∀ text, has part "text" = some text → ∃ s, text = .str s

def IsContent (content : Option Value) : Prop :=
  (∃ s, content = some (.str s)) ∨ ∃ parts, content = some (.arr parts) ∧ ∀ part ∈ parts, IsPart part

/-- A message, of type `message` or of none. -/
structure IsMessage (item : Value) : Prop where
  kind : isKind "message" item = true ∨ has item "type" = none
  role : ∃ s, has item "role" = some (.str s)
  content : IsContent (has item "content")

structure IsReasoning (item : Value) (text : Bytes) : Prop where
  kind : isKind "reasoning" item = true
  text : has item "text" = some (.str text)

/-- An element of an input list. -/
inductive IsInput (item : Value) : Prop
  | message (isMessage : IsMessage item)
  | reasoning (text : Bytes) (isReasoning : IsReasoning item text)
  | call (kind : isKind "function_call" item = true)
  | output (kind : isKind "function_call_output" item = true)

section Total

variable (rt : Runtime) {item : Value}

theorem has_table {v w : Value} {key : String} (field : has v key = some w) :
    ∃ fields, v = .obj fields := by
  cases v with
  | obj fields => exact ⟨fields, rfl⟩
  | null | bool b | num q | str s | arr items => cases field

theorem kind_table {kind : String} (isKind : isKind kind item = true) :
    ∃ fields, item = .obj fields :=
  has_table (isLit_iff.mp isKind)

theorem IsInput.table (isInput : IsInput item) : ∃ fields, item = .obj fields := by
  cases isInput with
  | message isMessage =>
      obtain ⟨s, role⟩ := isMessage.role
      exact has_table role
  | reasoning text isReasoning => exact kind_table isReasoning.kind
  | call kind | output kind => exact kind_table kind

theorem contentPart_ok {part : Value} (isPart : IsPart part) :
    ∃ v, contentPart rt part = .ok v ∧ ∃ s, v = .str s := by
  cases isPart with
  | inl string =>
      obtain ⟨s, rfl⟩ := string
      exact ⟨_, rfl, s, rfl⟩
  | inr obj =>
      obtain ⟨fields, rfl, strings⟩ := obj
      unfold contentPart
      dsimp only [index_obj, bind, Except.bind, pure, Except.pure]
      split
      · cases given : fields.lookup (lit "text") with
        | none => exact ⟨_, rfl, [], rfl⟩
        | some text =>
            obtain ⟨s, rfl⟩ := strings text given
            exact ⟨_, rfl, s, rfl⟩
      · exact ⟨_, rfl, _, rfl⟩

theorem convertResponseContent_ok {content : Option Value} (isContent : IsContent content) :
    ∃ text, convertResponseContent rt content = .ok text := by
  cases isContent with
  | inl string =>
      obtain ⟨s, rfl⟩ := string
      exact ⟨s, rfl⟩
  | inr array =>
      obtain ⟨parts, rfl, each⟩ := array
      obtain ⟨texts, converted, strings⟩ :=
        mapM_total fun part mem => contentPart_ok rt (each part mem)
      obtain ⟨joined, concat, -⟩ := mapM_total (f := fun part => rt.concatArg (some part))
        (P := fun _ => True) fun text mem => by
          obtain ⟨s, rfl⟩ := strings text mem
          exact ⟨s, rfl, trivial⟩
      refine ⟨(lit "\n").intercalate joined, ?_⟩
      simp only [convertResponseContent, ipairs, converted, Runtime.tableConcat, concat, bind,
        Except.bind, pure, Except.pure]

theorem outputText_ok (output : Value) : ∃ text, outputText rt output = .ok text := by
  cases output with
  | null | bool b | num q | str s | arr items => exact ⟨_, rfl⟩
  | obj fields =>
      simp only [outputText, isTable, if_true, index_obj, bind, Except.bind]
      cases orElse (fields.lookup (lit "output")) (.obj fields) with
      | null | bool b | num q | str s | arr items | obj inner => exact ⟨_, rfl⟩

/-- Such an item is converted, whatever is pending. -/
theorem IsInput.converts (isInput : IsInput item) (pending : Pending) :
    ∃ pending' out, inputItem rt pending item = .ok (pending', out) := by
  obtain ⟨fields, rfl⟩ := isInput.table
  cases isInput with
  | message isMessage =>
      obtain ⟨text, content⟩ := convertResponseContent_ok rt isMessage.content
      cases isMessage.kind with
      | inl kind =>
          by_cases role : roleOf (.obj fields) = .str (lit "assistant")
          · exact ⟨_, _, step_inputItem (.assistant kind role content)⟩
          · exact ⟨_, _, step_inputItem (.message kind role content)⟩
      | inr typeless =>
          have other (kind : String) : isKind kind (.obj fields) = false := by
            rw [isKind, typeless]
            rfl
          exact ⟨_, _, step_inputItem (.ignored (other _) (other _) (other _) (other _))⟩
  | reasoning text isReasoning =>
      have content : reasoningText rt (.obj fields) = .ok text := by
        rw [reasoningText, isReasoning.text]
        rfl
      exact ⟨_, _, step_inputItem (.reasoning isReasoning.kind content)⟩
  | call kind => exact ⟨_, _, step_inputItem (.call kind)⟩
  | output kind =>
      obtain ⟨text, content⟩ := outputText_ok rt (orElse (has (.obj fields) "output") (.str []))
      exact ⟨_, _, step_inputItem (.output kind content)⟩

theorem inputItems_total {items : List Value} (each : ∀ item ∈ items, IsInput item)
    (pending : Pending) : ∃ last out, inputItems rt pending items = .ok (last, out) := by
  induction items generalizing pending with
  | nil => exact ⟨pending, [], rfl⟩
  | cons item items ih =>
      obtain ⟨pending', here, now⟩ := (each item List.mem_cons_self).converts rt pending
      obtain ⟨last, later, rest⟩ :=
        ih (fun other mem => each other (List.mem_cons_of_mem item mem)) pending'
      refine ⟨last, here ++ later, ?_⟩
      simp only [inputItems, now, rest, bind, Except.bind, pure, Except.pure]

/-- So is a list of them. -/
theorem inputMessages_total {items : List Value} (each : ∀ item ∈ items, IsInput item) :
    ∃ msgs, inputMessages rt (some (.arr items)) = .ok msgs := by
  obtain ⟨last, out, run⟩ := inputItems_total rt each ⟨[], []⟩
  refine ⟨out ++ (flushCalls last).2, ?_⟩
  simp only [inputMessages, ipairs, run, bind, Except.bind, pure, Except.pure]

end Total

end E2eeProxy.Responses
