import E2eeProxy.ResponsesInput

/-! # Calls come before their outputs

Every function call of the input is in the tool calls of one assistant message,
every output is one tool message, and what stood before an output in the input
stands before it in the messages.
-/

namespace E2eeProxy.Responses

open E2eeProxy.Lua

def toolCalls (msg : Value) : List Value :=
  match has msg "tool_calls" with
  | some (.arr calls) => calls
  | _ => []

def isTool (msg : Value) : Bool := (has msg "tool_call_id").isSome

/-- The tool calls that the function calls of the input become. -/
def convertedCalls (items : List Value) : List Value :=
  (items.filter (isKind "function_call")).map convertedCall

/-- The message is what the output becomes. -/
def Answers (rt : Runtime) (item msg : Value) : Prop :=
  ∃ text, outputText rt (orElse (has item "output") (.str [])) = .ok text ∧
    msg = toolMessage text (callIdOf item)

/-- The outputs among the items and the tool messages, one for one. -/
def Answered (rt : Runtime) (items msgs : List Value) : Prop :=
  List.Forall₂ (Answers rt) (items.filter (isKind "function_call_output")) (msgs.filter isTool)

/-- The calls and outputs of the input in its messages. -/
structure Ordered (rt : Runtime) (items msgs : List Value) : Prop where
  /-- Each call is in one tool call list, once. -/
  calls : msgs.flatMap toolCalls = convertedCalls items
  holders : ∀ msg ∈ msgs, toolCalls msg ≠ [] → has msg "role" = some (.str (lit "assistant"))
  outputs : Answered rt items msgs
  /-- The messages before that of an output have the calls and outputs before it. -/
  sequence : ∀ before item after, items = before ++ item :: after →
    isKind "function_call_output" item = true →
    ∃ earlier msg later, msgs = earlier ++ msg :: later ∧ Answers rt item msg ∧
      earlier.flatMap toolCalls = convertedCalls before ∧ Answered rt before earlier

@[simp] theorem toolCalls_assistant (pending : Pending) (content : Bytes) :
    toolCalls (assistantMessage pending content) = pending.toolCalls := by
  obtain ⟨calls, reasoning⟩ := pending
  cases calls <;> rfl

@[simp] theorem isTool_assistant (pending : Pending) (content : Bytes) :
    isTool (assistantMessage pending content) = false := by
  obtain ⟨calls, reasoning⟩ := pending
  cases calls <;> rfl

@[simp] theorem role_assistant (pending : Pending) (content : Bytes) :
    has (assistantMessage pending content) "role" = some (.str (lit "assistant")) := rfl

@[simp] theorem toolCalls_plain (role : Value) (content : Bytes) :
    toolCalls (plainMessage role content) = [] := rfl

@[simp] theorem isTool_plain (role : Value) (content : Bytes) :
    isTool (plainMessage role content) = false := rfl

@[simp] theorem toolCalls_tool (content : Bytes) (callId : Value) :
    toolCalls (toolMessage content callId) = [] := rfl

@[simp] theorem isTool_tool (content : Bytes) (callId : Value) :
    isTool (toolMessage content callId) = true := rfl

section Flush

variable (pending : Pending)

theorem flushCalls_calls : (flushCalls pending).2.flatMap toolCalls = pending.toolCalls := by
  unfold flushCalls
  split
  · rename_i none
    exact none.symm
  · simp

theorem flushCalls_empty : (flushCalls pending).1.toolCalls = [] := by
  unfold flushCalls
  split
  · assumption
  · rfl

theorem flushCalls_tools : (flushCalls pending).2.filter isTool = [] := by
  unfold flushCalls
  split <;> simp

theorem flushCalls_role {msg : Value} (mem : msg ∈ (flushCalls pending).2) :
    has msg "role" = some (.str (lit "assistant")) := by
  unfold flushCalls at mem
  split at mem
  · cases mem
  · cases List.mem_singleton.mp mem
    rfl

end Flush

section Order

variable {rt : Runtime} {pending pending' last : Pending} {item : Value} {out : List Value}

theorem isKind_other {kind : String} (same : isKind kind item = true) (other : String)
    (differ : lit kind ≠ lit other) : isKind other item = false :=
  isLit_other same differ

/-! ## One item -/

/-- No call is lost or doubled. -/
theorem ItemStep.calls (step : ItemStep rt pending item pending' out) :
    out.flatMap toolCalls ++ pending'.toolCalls = pending.toolCalls ++ convertedCalls [item] := by
  cases step with
  | assistant kind role content =>
      simp [convertedCalls, isKind_other kind "function_call" (by decide)]
  | message kind role content =>
      simp [convertedCalls, isKind_other kind "function_call" (by decide)]
  | call kind => simp [convertedCalls, kind]
  | output kind content =>
      simp [convertedCalls, isKind_other kind "function_call" (by decide),
        flushCalls_calls, flushCalls_empty]
  | reasoning kind content =>
      simp [convertedCalls, isKind_other kind "function_call" (by decide)]
  | ignored message call output reasoning => simp [convertedCalls, call]

theorem ItemStep.answered (step : ItemStep rt pending item pending' out) :
    Answered rt [item] out := by
  unfold Answered
  cases step with
  | assistant kind role content | message kind role content | reasoning kind content =>
      have other := isKind_other kind "function_call_output" (by decide)
      simp [other]
  | call kind =>
      have other := isKind_other kind "function_call_output" (by decide)
      simp [other]
  | ignored message call output reasoning => simp [output]
  | output kind content =>
      rw [List.filter_append, flushCalls_tools, List.nil_append, List.filter_cons_of_pos kind,
        List.filter_cons_of_pos (isTool_tool _ _)]
      exact .cons ⟨_, content, rfl⟩ .nil

theorem ItemStep.holders (step : ItemStep rt pending item pending' out) :
    ∀ msg ∈ out, toolCalls msg ≠ [] → has msg "role" = some (.str (lit "assistant")) := by
  intro msg mem holds
  cases step with
  | assistant kind role content =>
      cases List.mem_singleton.mp mem
      rfl
  | message kind role content =>
      cases List.mem_singleton.mp mem
      exact absurd (toolCalls_plain _ _) holds
  | call kind | reasoning kind content | ignored message call output reasoning => cases mem
  | output kind content =>
      cases List.mem_append.mp mem with
      | inl flushed => exact flushCalls_role pending flushed
      | inr tool =>
          cases List.mem_singleton.mp tool
          exact absurd (toolCalls_tool _ _) holds

/-! ## All items -/

theorem convertedCalls_append (items others : List Value) :
    convertedCalls (items ++ others) = convertedCalls items ++ convertedCalls others := by
  simp [convertedCalls]

theorem Answered.append {items others msgs more : List Value} (first : Answered rt items msgs)
    (second : Answered rt others more) : Answered rt (items ++ others) (msgs ++ more) := by
  unfold Answered at *
  rw [List.filter_append, List.filter_append]
  exact List.rel_append first second

/-- What holds of the messages of a run: the calls not yet among them are pending. -/
structure Ran (rt : Runtime) (pending last : Pending) (items msgs : List Value) : Prop where
  calls : msgs.flatMap toolCalls ++ last.toolCalls = pending.toolCalls ++ convertedCalls items
  holders : ∀ msg ∈ msgs, toolCalls msg ≠ [] → has msg "role" = some (.str (lit "assistant"))
  outputs : Answered rt items msgs

theorem inputItems_ran {items msgs : List Value}
    (run : inputItems rt pending items = .ok (last, msgs)) : Ran rt pending last items msgs := by
  induction items generalizing pending msgs with
  | nil =>
      cases run
      constructor
      · simp [convertedCalls]
      · exact fun msg mem => (List.not_mem_nil mem).elim
      · exact .nil
  | cons item items ih =>
      obtain ⟨pending', here, later, now, rest, rfl⟩ := inputItems_cons run
      have step := inputItem_step now
      have ran := ih rest
      constructor
      · rw [List.flatMap_append, List.append_assoc, ran.calls, ← List.append_assoc, step.calls,
          List.append_assoc, ← convertedCalls_append, List.singleton_append]
      · intro msg mem
        cases List.mem_append.mp mem with
        | inl mem => exact step.holders msg mem
        | inr mem => exact ran.holders msg mem
      · exact step.answered.append ran.outputs

/-- Before the message of an output all calls that wait are flushed. -/
theorem inputItems_sequence {before : List Value} {after msgs : List Value}
    (run : inputItems rt ⟨[], []⟩ (before ++ item :: after) = .ok (last, msgs))
    (kind : isKind "function_call_output" item = true) :
    ∃ earlier msg later, msgs = earlier ++ msg :: later ∧ Answers rt item msg ∧
      earlier.flatMap toolCalls = convertedCalls before ∧ Answered rt before earlier := by
  obtain ⟨mid, earlier, pending', here, later, first, now, rest, rfl⟩ := inputItems_split run
  have ran := inputItems_ran first
  have step := inputItem_step now
  cases step with
  | assistant other | message other | call other | reasoning other =>
      have none := isKind_other other "function_call_output" (by decide)
      rw [none] at kind
      cases kind
  | ignored message call output reasoning =>
      rw [output] at kind
      cases kind
  | @output text kind content =>
      refine ⟨earlier ++ (flushCalls mid).2, toolMessage text (callIdOf item), later, by simp,
        ⟨text, content, rfl⟩, ?_, ?_⟩
      · rw [List.flatMap_append, flushCalls_calls, ran.calls, List.nil_append]
      · have flushed : Answered rt [] (flushCalls mid).2 := by
          rw [Answered, flushCalls_tools]
          exact .nil
        have both := ran.outputs.append flushed
        rwa [List.append_nil] at both

theorem inputMessages_ordered {items msgs : List Value}
    (ran : inputMessages rt (some (.arr items)) = .ok msgs) : Ordered rt items msgs := by
  obtain ⟨last, out, run, rfl⟩ := inputMessages_run ran
  have whole := inputItems_ran run
  constructor
  · rw [List.flatMap_append, flushCalls_calls, whole.calls, List.nil_append]
  · intro msg mem
    cases List.mem_append.mp mem with
    | inl mem => exact whole.holders msg mem
    | inr mem => exact fun _ => flushCalls_role last mem
  · rw [Answered, List.filter_append, flushCalls_tools, List.append_nil]
    exact whole.outputs
  · rintro before item after rfl kind
    obtain ⟨earlier, msg, later, rfl, answers, calls, outputs⟩ := inputItems_sequence run kind
    exact ⟨earlier, msg, later ++ (flushCalls last).2, by simp, answers, calls, outputs⟩

/-- Messages without calls or outputs may come first. -/
theorem Ordered.behind {items msgs first : List Value} (ordered : Ordered rt items msgs)
    (quiet : ∀ msg ∈ first, toolCalls msg = [] ∧ isTool msg = false) :
    Ordered rt items (first ++ msgs) := by
  have noCalls : first.flatMap toolCalls = [] :=
    List.flatMap_eq_nil_iff.mpr fun msg mem => (quiet msg mem).1
  have noTools : first.filter isTool = [] :=
    List.filter_eq_nil_iff.mpr fun msg mem => by simp [(quiet msg mem).2]
  have front {items msgs : List Value} (answered : Answered rt items msgs) :
      Answered rt items (first ++ msgs) := by
    rwa [Answered, List.filter_append, noTools, List.nil_append]
  constructor
  · rw [List.flatMap_append, noCalls, List.nil_append, ordered.calls]
  · intro msg mem holds
    cases List.mem_append.mp mem with
    | inl mem => exact absurd (quiet msg mem).1 holds
    | inr mem => exact ordered.holders msg mem holds
  · exact front ordered.outputs
  · intro before item after split kind
    obtain ⟨earlier, msg, later, rfl, answers, calls, outputs⟩ :=
      ordered.sequence before item after split kind
    refine ⟨first ++ earlier, msg, later, by simp, answers, ?_, front outputs⟩
    rw [List.flatMap_append, noCalls, List.nil_append, calls]

end Order

theorem instructionMessage_quiet {instructions : Option Value} {msg : Value}
    (mem : msg ∈ instructionMessage instructions) : toolCalls msg = [] ∧ isTool msg = false := by
  unfold instructionMessage at mem
  split at mem
  · cases List.mem_singleton.mp mem
    cases instructions <;> exact ⟨rfl, rfl⟩
  · cases mem

/-- A list of input items is converted, and a request that is translated has their
    calls and outputs in order. -/
theorem calls_precede_outputs (rt : Runtime) (items : List Value) :
    ((∀ item ∈ items, IsInput item) →
      ∃ msgs, inputMessages rt (some (.arr items)) = .ok msgs ∧ Ordered rt items msgs) ∧
    ∀ respBody oai, index (some respBody) "input" = .ok (some (.arr items)) →
      requestToOpenai rt respBody = .ok oai →
      ∃ msgs, index (some oai) "messages" = .ok (some (.arr msgs)) ∧ Ordered rt items msgs := by
  constructor
  · intro each
    obtain ⟨msgs, ran⟩ := inputMessages_total rt each
    exact ⟨msgs, ran, inputMessages_ordered ran⟩
  · intro respBody oai given request
    obtain ⟨instructions, converted, -, ran, sent⟩ := requestToOpenai_messages given request
    exact ⟨_, sent, (inputMessages_ordered ran).behind fun msg => instructionMessage_quiet⟩

namespace Sample

def item (kind : String) (fields : List (String × Option Value)) : Value :=
  table (("type", some (.str (lit kind))) :: fields)

def userItem : Value :=
  item "message" [("role", some (.str (lit "user"))), ("content", some (.str (lit "hi")))]

def callItem : Value := item "function_call" [("call_id", some (.str (lit "c")))]

def outputItem : Value :=
  item "function_call_output" [("call_id", some (.str (lit "c"))), ("output", some (.str (lit "o")))]

theorem userItem_isInput : IsInput userItem :=
  .message ⟨.inl (by decide), ⟨_, rfl⟩, .inl ⟨_, rfl⟩⟩

end Sample

theorem calls_precede_outputs_sample :
    ∃ msgs, inputMessages Claude.Sample.codec
        (some (.arr [Sample.callItem, Sample.userItem, Sample.outputItem])) = .ok msgs ∧
      Ordered Claude.Sample.codec [Sample.callItem, Sample.userItem, Sample.outputItem] msgs := by
  apply (calls_precede_outputs Claude.Sample.codec _).1
  intro item mem
  obtain rfl | rfl | rfl : item = Sample.callItem ∨ item = Sample.userItem ∨
      item = Sample.outputItem := by simpa using mem
  · exact .call (by decide)
  · exact Sample.userItem_isInput
  · exact .output (by decide)

end E2eeProxy.Responses
