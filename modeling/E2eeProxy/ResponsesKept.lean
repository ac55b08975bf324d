import E2eeProxy.ResponsesOrder

/-! # What is kept of a conversation

An item is recognised by its type alone, so that a message without one is passed
over. Reasoning waits for an assistant message to stand in, and is dropped if none
comes. A text is in a message if it is there whatever the text is.
-/

namespace E2eeProxy.Responses

open E2eeProxy.Lua

/-- The message has the role and the text of the item, behind reasoning if it is the
    assistant's. -/
def Renders (rt : Runtime) (item msg : Value) : Prop :=
  ∃ text reasoning, convertResponseContent rt (has item "content") = .ok text ∧
    has msg "role" = has item "role" ∧
    has msg "content" = some (.str (thinkTags reasoning ++ text)) ∧
    (reasoning ≠ [] → has msg "role" = some (.str (lit "assistant")))

/-- The item is the one that appends a message, and just one: between those of the
    items before it and those of the items after it. -/
def Appended (rt : Runtime) (before : List Value) (item : Value) (after : List Value) : Prop :=
  ∃ mid earlier pending msg later, inputItems rt ⟨[], []⟩ before = .ok (mid, earlier) ∧
    inputItems rt ⟨[], []⟩ (before ++ [item]) = .ok (pending, earlier ++ [msg]) ∧
    inputMessages rt (some (.arr (before ++ item :: after))) = .ok (earlier ++ msg :: later) ∧
    Renders rt item msg

/-- A reasoning item between these has its text, whatever it is, in the reasoning of
    one assistant message, and in no other message. -/
def Delivered (rt : Runtime) (before after : List Value) : Prop :=
  ∃ earlier later calls front back content, ∀ item text, IsReasoning item text →
    inputMessages rt (some (.arr (before ++ item :: after))) =
      .ok (earlier ++ assistantMessage ⟨calls, front ++ text ++ back⟩ content :: later)

structure Kept (rt : Runtime) (items : List Value) : Prop where
  returns : ∃ msgs, inputMessages rt (some (.arr items)) = .ok msgs
  /-- A request has these messages behind its instructions. -/
  sent : ∀ respBody oai, index (some respBody) "input" = .ok (some (.arr items)) →
    requestToOpenai rt respBody = .ok oai →
    ∃ instructions msgs, inputMessages rt (some (.arr items)) = .ok msgs ∧
      index (some oai) "messages" = .ok (some (.arr (instructionMessage instructions ++ msgs)))
  messages : ∀ before item after, items = before ++ item :: after → IsMessage item →
    Appended rt before item after
  reasoning : ∀ before item after text, items = before ++ item :: after →
    IsReasoning item text → text ≠ [] → Delivered rt before after

def isAssistantItem (item : Value) : Bool :=
  isKind "message" item && roleOf item == .str (lit "assistant")

/-- A function call has no assistant message and no output behind it. -/
def callWaits (items : List Value) : Bool :=
  items.foldl (fun waits item =>
    isKind "function_call" item ||
      (waits && !isAssistantItem item && !isKind "function_call_output" item)) false

/-- An assistant message will come that reasoning between these can stand in. -/
def Awaited (before after : List Value) : Prop :=
  callWaits before = true ∨
    ∃ item ∈ after, isAssistantItem item = true ∨ isKind "function_call" item = true

/-! ## Messages -/

section Messages

variable {rt : Runtime} {item : Value}

theorem roleOf_string {s : Bytes} (role : has item "role" = some (.str s)) : roleOf item = .str s := by
  rw [roleOf, role]
  rfl

theorem IsMessage.step (isMessage : IsMessage item) (kind : isKind "message" item = true)
    (rt : Runtime) (pending : Pending) :
    ∃ pending' msg, inputItem rt pending item = .ok (pending', [msg]) ∧ Renders rt item msg := by
  obtain ⟨s, role⟩ := isMessage.role
  obtain ⟨fields, rfl⟩ := has_table role
  obtain ⟨text, content⟩ := convertResponseContent_ok rt isMessage.content
  have role' := roleOf_string role
  by_cases assistant : s = lit "assistant"
  · subst assistant
    exact ⟨_, _, step_inputItem (.assistant kind role' content), text, pending.reasoning, content,
      role.symm, rfl, fun _ => rfl⟩
  · have other : roleOf (.obj fields) ≠ .str (lit "assistant") := by
      rw [role']
      exact fun same => assistant (Value.str.inj same)
    refine ⟨_, _, step_inputItem (.message kind other content), text, [], content, ?_, rfl,
      fun none => absurd rfl none⟩
    rw [role, role']
    rfl

/-- Only a typed message appends one. -/
theorem typeless_step (typeless : has item "type" = none) {pending pending' : Pending}
    {out : List Value} (step : inputItem rt pending item = .ok (pending', out)) : out = [] := by
  have other (kind : String) : isKind kind item = false := by
    rw [isKind, typeless]
    rfl
  cases inputItem_step step with
  | assistant kind | message kind | call kind | output kind | reasoning kind =>
      exact Bool.noConfusion ((other _).symm.trans kind)
  | ignored => rfl

end Messages

/-! ## Reasoning -/

section Reasoning

variable (rt : Runtime)

/-- The messages from here on. -/
def finish (pending : Pending) (items : List Value) : LuaM (List Value) := do
  let done ← inputItems rt pending items
  return done.2 ++ (flushCalls done.1).2

variable {rt} {pending pending' : Pending} {item : Value} {items : List Value}

theorem finish_cons {here later : List Value}
    (now : inputItem rt pending item = .ok (pending', here))
    (rest : finish rt pending' items = .ok later) :
    finish rt pending (item :: items) = .ok (here ++ later) := by
  obtain ⟨⟨last, out⟩, run, made⟩ := bind_ok rest
  cases made
  simp only [finish, inputItems, now, run, bind, Except.bind, pure, Except.pure, List.append_assoc]

theorem finish_append {before earlier later : List Value}
    (first : inputItems rt pending before = .ok (pending', earlier))
    (rest : finish rt pending' items = .ok later) :
    finish rt pending (before ++ items) = .ok (earlier ++ later) := by
  obtain ⟨⟨last, out⟩, run, made⟩ := bind_ok rest
  cases made
  simp only [finish, inputItems_append, first, run, bind, Except.bind, pure, Except.pure,
    List.append_assoc]

theorem finish_total (rt : Runtime) (each : ∀ item ∈ items, IsInput item) (pending : Pending) :
    ∃ msgs, finish rt pending items = .ok msgs := by
  obtain ⟨last, out, run⟩ := inputItems_total rt each pending
  refine ⟨out ++ (flushCalls last).2, ?_⟩
  simp only [finish, run, bind, Except.bind, pure, Except.pure]

theorem flushCalls_waiting {calls : List Value} (waits : calls ≠ []) (reasoning : Bytes) :
    flushCalls ⟨calls, reasoning⟩ = (⟨[], []⟩, [assistantMessage ⟨calls, reasoning⟩ []]) := by
  rw [flushCalls, if_neg waits]

theorem not_assistant_message (role : roleOf item ≠ .str (lit "assistant")) :
    isAssistantItem item = false := by
  rw [isAssistantItem, beq_false_of_ne role, Bool.and_false]

theorem not_assistant_item (message : isKind "message" item = false) :
    isAssistantItem item = false := by
  rw [isAssistantItem, message, Bool.false_and]

/-- An assistant message is to come. -/
def Comes (calls items : List Value) : Prop :=
  calls ≠ [] ∨ ∃ item ∈ items, isAssistantItem item = true ∨ isKind "function_call" item = true

/-- Behind an item that is no assistant message and no call it still is. -/
theorem Comes.rest {calls calls' : List Value} (awaited : Comes calls (item :: items))
    (assistant : isAssistantItem item = false) (call : isKind "function_call" item = false)
    (waits : calls ≠ [] → calls' ≠ []) : Comes calls' items := by
  rcases awaited with here | ⟨other, mem, comes⟩
  · exact .inl (waits here)
  · cases List.mem_cons.mp mem with
    | inl same =>
        subst same
        rw [assistant, call] at comes
        cases comes <;> contradiction
    | inr mem => exact .inr ⟨other, mem, comes⟩

/-- One of the messages carries whatever reasoning came first. -/
def Stands (rt : Runtime) (calls : List Value) (back : Bytes) (items : List Value) : Prop :=
  ∃ earlier later calls' back' content, ∀ reasoning,
    finish rt ⟨calls, reasoning ++ back⟩ items =
      .ok (earlier ++ assistantMessage ⟨calls', reasoning ++ back'⟩ content :: later)

/-- An item that leaves it pending. -/
theorem Stands.cons {calls calls' here : List Value} {back back' : Bytes}
    (now : ∀ reasoning, inputItem rt ⟨calls, reasoning ++ back⟩ item =
      .ok (⟨calls', reasoning ++ back'⟩, here))
    (rest : Stands rt calls' back' items) : Stands rt calls back (item :: items) := by
  obtain ⟨earlier, later, calls'', back'', content, stands⟩ := rest
  refine ⟨here ++ earlier, later, calls'', back'', content, fun reasoning => ?_⟩
  rw [finish_cons (now reasoning) (stands reasoning), List.append_assoc]

/-- An item that puts it into a message. -/
theorem Stands.now {calls here : List Value} {back content : Bytes}
    (now : ∀ reasoning, inputItem rt ⟨calls, reasoning ++ back⟩ item =
      .ok (⟨[], []⟩, assistantMessage ⟨calls, reasoning ++ back⟩ content :: here))
    (others : ∀ item ∈ items, IsInput item) : Stands rt calls back (item :: items) := by
  obtain ⟨later, rest⟩ := finish_total rt others ⟨[], []⟩
  exact ⟨[], here ++ later, calls, back, content, fun reasoning =>
    (finish_cons (now reasoning) rest).trans rfl⟩

/-- Whoever waits for an assistant message is in the next one, whatever the reasoning
    that came first. -/
theorem reasoning_stands (rt : Runtime) {items : List Value} (each : ∀ item ∈ items, IsInput item)
    (calls : List Value) (back : Bytes) (awaited : Comes calls items) :
    Stands rt calls back items := by
  induction items generalizing calls back with
  | nil =>
      have waits : calls ≠ [] := awaited.resolve_right fun ⟨_, mem, _⟩ => nomatch mem
      refine ⟨[], [], calls, back, [], fun reasoning => ?_⟩
      simp only [finish, inputItems, flushCalls_waiting waits, bind, Except.bind, pure, Except.pure,
        List.nil_append]
  | cons item items ih =>
      obtain ⟨here, others⟩ := List.forall_mem_cons.mp each
      obtain ⟨fields, rfl⟩ := here.table
      obtain ⟨pending', out, now⟩ := here.converts rt ⟨calls, back⟩
      cases inputItem_step now with
      | assistant kind role content =>
          exact .now (fun reasoning => step_inputItem (.assistant kind role content)) others
      | message kind role content =>
          have call := isKind_other kind "function_call" (by decide)
          exact .cons (fun reasoning => step_inputItem (.message kind role content))
            (ih others calls back (awaited.rest (not_assistant_message role) call id))
      | call kind =>
          exact .cons (fun reasoning => step_inputItem (.call kind))
            (ih others (calls ++ [convertedCall (.obj fields)]) back (.inl (by simp)))
      | @output text kind content =>
          have assistant := not_assistant_item (isKind_other kind "message" (by decide))
          have call := isKind_other kind "function_call" (by decide)
          have step (reasoning : Bytes) : inputItem rt ⟨calls, reasoning ++ back⟩ (.obj fields) = _ :=
            step_inputItem (.output kind content)
          by_cases none : calls = []
          · subst none
            exact .cons step (ih others [] back (awaited.rest assistant call id))
          · have flushed (reasoning : Bytes) : inputItem rt ⟨calls, reasoning ++ back⟩ (.obj fields) =
                .ok (⟨[], []⟩, [assistantMessage ⟨calls, reasoning ++ back⟩ [],
                  toolMessage text (callIdOf (.obj fields))]) := by
              rw [step, flushCalls_waiting none]
              rfl
            exact .now flushed others
      | @reasoning text kind content =>
          have assistant := not_assistant_item (isKind_other kind "message" (by decide))
          have call := isKind_other kind "function_call" (by decide)
          have step (reasoning : Bytes) : inputItem rt ⟨calls, reasoning ++ back⟩ (.obj fields) =
              .ok (⟨calls, reasoning ++ back ++ text⟩, []) :=
            step_inputItem (.reasoning kind content)
          simp only [List.append_assoc] at step
          exact .cons step (ih others calls (back ++ text) (awaited.rest assistant call id))
      | ignored message call output other =>
          exact .cons (fun reasoning => step_inputItem (.ignored message call output other))
            (ih others calls back (awaited.rest (not_assistant_item message) call id))

/-- Without one to come, reasoning changes nothing. -/
theorem reasoning_unseen (rt : Runtime) {items : List Value}
    (each : ∀ item ∈ items, IsInput item)
    (none : ¬ ∃ item ∈ items, isAssistantItem item = true ∨ isKind "function_call" item = true) :
    ∃ later, ∀ reasoning, finish rt ⟨[], reasoning⟩ items = .ok later := by
  induction items with
  | nil => exact ⟨[], fun reasoning => rfl⟩
  | cons item items ih =>
      obtain ⟨here, others⟩ := List.forall_mem_cons.mp each
      obtain ⟨fields, rfl⟩ := here.table
      obtain ⟨later, unseen⟩ :=
        ih others fun ⟨other, mem, comes⟩ => none ⟨other, List.mem_cons_of_mem _ mem, comes⟩
      have quiet : ¬ (isAssistantItem (.obj fields) = true ∨
          isKind "function_call" (.obj fields) = true) :=
        fun comes => none ⟨_, List.mem_cons_self, comes⟩
      obtain ⟨pending', out, now⟩ := here.converts rt ⟨[], []⟩
      cases inputItem_step now with
      | assistant kind role content =>
          exfalso
          apply quiet
          left
          rw [isAssistantItem, kind, role, beq_self_eq_true, Bool.and_self]
      | message kind role content =>
          exact ⟨_, fun reasoning =>
            finish_cons (step_inputItem (.message kind role content)) (unseen reasoning)⟩
      | call kind => exact absurd (.inr kind) quiet
      | output kind content =>
          exact ⟨_, fun reasoning =>
            finish_cons (step_inputItem (.output kind content)) (unseen reasoning)⟩
      | reasoning kind content =>
          exact ⟨_, fun reasoning =>
            finish_cons (step_inputItem (.reasoning kind content)) (unseen _)⟩
      | ignored message call output other =>
          exact ⟨_, fun reasoning =>
            finish_cons (step_inputItem (.ignored message call output other)) (unseen reasoning)⟩

/-- Function calls are pending exactly while one waits. -/
theorem callWaits_iff {last : Pending} {msgs : List Value} {before : List Value}
    (run : inputItems rt ⟨[], []⟩ before = .ok (last, msgs)) :
    callWaits before = true ↔ last.toolCalls ≠ [] := by
  have waits (items : List Value) (pending : Pending) (start : Bool)
      (started : start = true ↔ pending.toolCalls ≠ []) {msgs : List Value}
      (run : inputItems rt pending items = .ok (last, msgs)) :
      items.foldl (fun waits item => isKind "function_call" item ||
        (waits && !isAssistantItem item && !isKind "function_call_output" item)) start = true ↔
        last.toolCalls ≠ [] := by
    induction items generalizing pending start msgs with
    | nil =>
        cases run
        exact started
    | cons item items ih =>
        obtain ⟨pending', here, later, now, rest, rfl⟩ := inputItems_cons run
        rw [List.foldl_cons]
        refine ih pending' _ ?_ rest
        cases inputItem_step now with
        | assistant kind role content =>
            have call := isKind_other kind "function_call" (by decide)
            simp [isAssistantItem, kind, role, call]
        | message kind role content =>
            have call := isKind_other kind "function_call" (by decide)
            have output := isKind_other kind "function_call_output" (by decide)
            simpa [isAssistantItem, kind, role, call, output] using started
        | call kind => simp [kind]
        | output kind content =>
            have call := isKind_other kind "function_call" (by decide)
            simp [kind, call, flushCalls_empty]
        | reasoning kind content =>
            have message := isKind_other kind "message" (by decide)
            have call := isKind_other kind "function_call" (by decide)
            have output := isKind_other kind "function_call_output" (by decide)
            simpa [isAssistantItem, message, call, output] using started
        | ignored message call output other =>
            simpa [isAssistantItem, message, call, output] using started
  exact waits before ⟨[], []⟩ false (by simp) run

end Reasoning

section Kept

variable {rt : Runtime} {items : List Value}

theorem appended_of_typed {before : List Value} {item : Value} {after : List Value}
    (each : ∀ other ∈ before ++ item :: after, IsInput other) (isMessage : IsMessage item)
    (kind : isKind "message" item = true) : Appended rt before item after := by
  obtain ⟨mid, earlier, first⟩ := inputItems_total rt
    (fun other mem => each other (List.mem_append_left _ mem)) ⟨[], []⟩
  obtain ⟨pending, msg, now, renders⟩ := isMessage.step kind rt mid
  obtain ⟨later, rest⟩ := finish_total rt (fun other mem =>
    each other (List.mem_append_right _ (List.mem_cons_of_mem item mem))) pending
  refine ⟨mid, earlier, pending, msg, later, first, ?_, ?_, renders⟩
  · simp only [inputItems_append, first, inputItems, now, bind, Except.bind, pure, Except.pure,
      List.append_nil]
  · exact finish_append first (finish_cons now rest)

theorem typed_of_appended {before : List Value} {item : Value} {after : List Value}
    (isMessage : IsMessage item) (appended : Appended rt before item after) :
    isKind "message" item = true := by
  apply isMessage.kind.resolve_right
  intro typeless
  obtain ⟨mid, earlier, pending, msg, later, first, both, -, -⟩ := appended
  obtain ⟨mid', earlier', pending', here, later', first', now, rest, split⟩ := inputItems_split both
  cases first.symm.trans first'
  cases rest
  obtain rfl := typeless_step typeless now
  simp at split

theorem reasoning_pends {before : List Value} {last : Pending} {earlier : List Value}
    (first : inputItems rt ⟨[], []⟩ before = .ok (last, earlier)) {item : Value} {text : Bytes}
    (isReasoning : IsReasoning item text) {after later : List Value}
    (rest : finish rt ⟨last.toolCalls, last.reasoning ++ text⟩ after = .ok later) :
    inputMessages rt (some (.arr (before ++ item :: after))) = .ok (earlier ++ later) := by
  obtain ⟨fields, rfl⟩ := kind_table isReasoning.kind
  have content : reasoningText rt (.obj fields) = .ok text := by
    rw [reasoningText, isReasoning.text]
    rfl
  exact finish_append first (finish_cons (step_inputItem (.reasoning isReasoning.kind content)) rest)

theorem delivered_of_awaited {before after : List Value} (early : ∀ item ∈ before, IsInput item)
    (late : ∀ item ∈ after, IsInput item) (awaited : Awaited before after) :
    Delivered rt before after := by
  obtain ⟨last, earlier, first⟩ := inputItems_total rt early ⟨[], []⟩
  have stands : last.toolCalls ≠ [] ∨
      ∃ item ∈ after, isAssistantItem item = true ∨ isKind "function_call" item = true :=
    awaited.imp_left (callWaits_iff first).mp
  obtain ⟨more, later, calls, back, content, rest⟩ :=
    reasoning_stands rt late last.toolCalls [] stands
  refine ⟨earlier ++ more, later, calls, last.reasoning, back, content, ?_⟩
  intro item text isReasoning
  have there := rest (last.reasoning ++ text)
  rw [List.append_nil] at there
  rw [reasoning_pends first isReasoning there, ← List.append_assoc]

/-- A reasoning item with this text. -/
def thoughtItem (text : Bytes) : Value :=
  table [("type", some (.str (lit "reasoning"))), ("text", some (.str text))]

theorem thoughtItem_isReasoning (text : Bytes) : IsReasoning (thoughtItem text) text :=
  ⟨rfl, rfl⟩

theorem awaited_of_delivered {before after : List Value} (early : ∀ item ∈ before, IsInput item)
    (late : ∀ item ∈ after, IsInput item) (delivered : Delivered rt before after) :
    Awaited before after := by
  by_contra none
  obtain ⟨last, earlier, first⟩ := inputItems_total rt early ⟨[], []⟩
  have waits : last.toolCalls = [] := by
    by_contra some'
    exact none (.inl ((callWaits_iff first).mpr some'))
  obtain ⟨rest, unseen⟩ := reasoning_unseen rt late fun comes => none (.inr comes)
  -- The messages are the same with two texts, one of which is in them.
  have same (text : Bytes) :
      inputMessages rt (some (.arr (before ++ thoughtItem text :: after))) = .ok (earlier ++ rest) :=
    reasoning_pends first (thoughtItem_isReasoning text) (waits ▸ unseen (last.reasoning ++ text))
  obtain ⟨earlier', later, calls, front, back, content, all⟩ := delivered
  have empty := (all _ [] (thoughtItem_isReasoning [])).symm.trans (same [])
  have one := (all _ [0] (thoughtItem_isReasoning [0])).symm.trans (same [0])
  have messages := Except.ok.inj (empty.trans one.symm)
  have heads := (List.cons.inj (List.append_cancel_left messages)).1
  have contents := congrArg (has · "content") heads
  have texts : thinkTags (front ++ [] ++ back) ++ content =
      thinkTags (front ++ [0] ++ back) ++ content :=
    Value.str.inj (Option.some.inj contents)
  have lengths := congrArg List.length (List.append_cancel_right texts)
  have filled : front ++ [0] ++ back ≠ [] := by simp
  rw [thinkTags, thinkTags, if_neg filled] at lengths
  split at lengths <;> simp at lengths

end Kept

/-- For a list of input items: everything is kept exactly if the messages have a type
    and an assistant message comes for all reasoning. -/
theorem conversation_kept_iff (rt : Runtime) {items : List Value}
    (each : ∀ item ∈ items, IsInput item) :
    Kept rt items ↔ (∀ item ∈ items, IsMessage item → isKind "message" item = true) ∧
      ∀ before item after text, items = before ++ item :: after → IsReasoning item text →
        text ≠ [] → Awaited before after := by
  have parts {before : List Value} {item : Value} {after : List Value}
      (split : items = before ++ item :: after) :
      (∀ other ∈ before, IsInput other) ∧ ∀ other ∈ after, IsInput other := by
    subst split
    obtain ⟨early, late⟩ := List.forall_mem_append.mp each
    exact ⟨early, (List.forall_mem_cons.mp late).2⟩
  constructor
  · intro kept
    constructor
    · intro item mem isMessage
      obtain ⟨before, after, split⟩ := List.append_of_mem mem
      exact typed_of_appended isMessage (kept.messages before item after split isMessage)
    · intro before item after text split isReasoning filled
      obtain ⟨early, late⟩ := parts split
      exact awaited_of_delivered early late
        (kept.reasoning before item after text split isReasoning filled)
  · rintro ⟨typed, awaited⟩
    constructor
    · exact inputMessages_total rt each
    · intro respBody oai given request
      obtain ⟨instructions, msgs, -, converted, sent⟩ := requestToOpenai_messages given request
      exact ⟨instructions, msgs, converted, sent⟩
    · rintro before item after rfl isMessage
      exact appended_of_typed each isMessage
        (typed item (List.mem_append_right _ List.mem_cons_self) isMessage)
    · intro before item after text split isReasoning filled
      obtain ⟨early, late⟩ := parts split
      exact delivered_of_awaited early late (awaited before item after text split isReasoning filled)

namespace Sample

def typelessItem : Value :=
  table [("role", some (.str (lit "user"))), ("content", some (.str (lit "hi")))]

theorem typelessItem_isMessage : IsMessage typelessItem := ⟨.inr rfl, ⟨_, rfl⟩, .inl ⟨_, rfl⟩⟩

theorem items_isInput :
    ∀ other ∈ [userItem, thoughtItem (lit "a"), callItem, outputItem], IsInput other := by
  intro other mem
  obtain rfl | rfl | rfl | rfl : other = userItem ∨ other = thoughtItem (lit "a") ∨
      other = callItem ∨ other = outputItem := by simpa using mem
  · exact userItem_isInput
  · exact .reasoning _ (thoughtItem_isReasoning _)
  · exact .call (by decide)
  · exact .output (by decide)

end Sample

theorem conversation_kept_sample :
    Kept Claude.Sample.codec
      [Sample.userItem, thoughtItem (lit "a"), Sample.callItem, Sample.outputItem] ↔
      (∀ item ∈ [Sample.userItem, thoughtItem (lit "a"), Sample.callItem, Sample.outputItem],
        IsMessage item → isKind "message" item = true) ∧
      ∀ before item after text,
        [Sample.userItem, thoughtItem (lit "a"), Sample.callItem, Sample.outputItem] =
          before ++ item :: after → IsReasoning item text → text ≠ [] → Awaited before after :=
  conversation_kept_iff Claude.Sample.codec Sample.items_isInput

/-- A user message without a type is dropped, and so is reasoning at the end. -/
theorem conversation_dropped :
    (∀ item ∈ [Sample.typelessItem], IsInput item) ∧
    (∀ item ∈ [Sample.userItem, thoughtItem (lit "a")], IsInput item) ∧
    ¬ Kept Claude.Sample.codec [Sample.typelessItem] ∧
    ¬ Kept Claude.Sample.codec [Sample.userItem, thoughtItem (lit "a")] := by
  have user : ∀ item ∈ [Sample.userItem], IsInput item := fun item mem =>
    List.mem_singleton.mp mem ▸ Sample.userItem_isInput
  refine ⟨?_, ?_, ?_, ?_⟩
  · intro item mem
    cases List.mem_singleton.mp mem
    exact .message Sample.typelessItem_isMessage
  · intro item mem
    cases List.mem_cons.mp mem with
    | inl here => exact here ▸ Sample.userItem_isInput
    | inr there =>
        cases List.mem_singleton.mp there
        exact .reasoning _ (thoughtItem_isReasoning _)
  · intro kept
    have typed := typed_of_appended Sample.typelessItem_isMessage
      (kept.messages [] _ [] rfl Sample.typelessItem_isMessage)
    exact absurd typed (by decide)
  · intro kept
    have awaited : Awaited [Sample.userItem] [] :=
      awaited_of_delivered user (fun item mem => (List.not_mem_nil mem).elim)
        (kept.reasoning [Sample.userItem] _ [] _ rfl (thoughtItem_isReasoning (lit "a")) (by decide))
    cases awaited with
    | inl waits => exact absurd waits (by decide)
    | inr comes =>
        obtain ⟨_, mem, -⟩ := comes
        cases mem

end E2eeProxy.Responses
