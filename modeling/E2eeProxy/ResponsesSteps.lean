import E2eeProxy.ResponsesState

/-! # What one move does to the output items

The events of a move are summed up by what they add to the reasoning, to the
text, to the items that were opened and to the items that were closed.
-/

namespace E2eeProxy.Responses

open E2eeProxy.Lua E2eeProxy.OpenAi E2eeProxy.Lib

/-! ## Summing up events -/

def ItemEvent.reasoning : ItemEvent → Bytes
  | .reasoningDelta _ _ s => s
  | _ => []

def ItemEvent.textOf (id : Bytes) : ItemEvent → Bytes
  | .textDelta itemId _ _ s => if itemId = id then s else []
  | _ => []

def ItemEvent.added? : ItemEvent → Option Item
  | .added _ item => some item
  | _ => none

def ItemEvent.done? : ItemEvent → Option (Nat × Item)
  | .done i item => some (i, item)
  | _ => none

/-- What was sent as reasoning. -/
def reasoningOf (events : List ItemEvent) : Bytes := events.flatMap ItemEvent.reasoning

/-- What was sent as text of the message `id`. -/
def textOf (id : Bytes) (events : List ItemEvent) : Bytes := events.flatMap (ItemEvent.textOf id)

def addedItems (events : List ItemEvent) : List Item := events.filterMap ItemEvent.added?

/-- The items that were closed, with their output index. -/
def doneItems (events : List ItemEvent) : List (Nat × Item) := events.filterMap ItemEvent.done?

@[simp] theorem reasoningOf_append (xs ys : List ItemEvent) :
    reasoningOf (xs ++ ys) = reasoningOf xs ++ reasoningOf ys := List.flatMap_append

@[simp] theorem textOf_append (id : Bytes) (xs ys : List ItemEvent) :
    textOf id (xs ++ ys) = textOf id xs ++ textOf id ys := List.flatMap_append

@[simp] theorem addedItems_append (xs ys : List ItemEvent) :
    addedItems (xs ++ ys) = addedItems xs ++ addedItems ys := List.filterMap_append

@[simp] theorem doneItems_append (xs ys : List ItemEvent) :
    doneItems (xs ++ ys) = doneItems xs ++ doneItems ys := List.filterMap_append

/-- The events add exactly this to the reasoning, to the text of the message
    `id`, and to the items that were opened and closed. -/
structure Sums (id : Bytes) (events : List ItemEvent) (reasoning text : Bytes)
    (added : List Item) (done : List (Nat × Item)) : Prop where
  reasoning : reasoningOf events = reasoning
  text : textOf id events = text
  added : addedItems events = added
  done : doneItems events = done

theorem Sums.nil (id : Bytes) : Sums id [] [] [] [] [] := ⟨rfl, rfl, rfl, rfl⟩

theorem Sums.append {id : Bytes} {xs ys : List ItemEvent} {r r' t t' : Bytes} {a a' : List Item}
    {d d' : List (Nat × Item)} (h : Sums id xs r t a d) (h' : Sums id ys r' t' a' d') :
    Sums id (xs ++ ys) (r ++ r') (t ++ t') (a ++ a') (d ++ d') :=
  ⟨by simp [h.reasoning, h'.reasoning], by simp [h.text, h'.text], by simp [h.added, h'.added],
    by simp [h.done, h'.done]⟩

def Item.isReasoning : Item → Bool
  | .reasoning .. => true
  | _ => false

/-- How often the reasoning item was closed. -/
def closings (events : List ItemEvent) : Nat :=
  (doneItems events).countP fun p => p.2.isReasoning

@[simp] theorem closings_append (xs ys : List ItemEvent) :
    closings (xs ++ ys) = closings xs + closings ys := by
  simp [closings]

theorem Sums.closings {id : Bytes} {events : List ItemEvent} {r t : Bytes} {a : List Item}
    {d : List (Nat × Item)} (h : Sums id events r t a d) :
    closings events = d.countP fun p => p.2.isReasoning := by
  rw [Responses.closings, h.done]

/-! ## The flags -/

/-- Between two moves the detector has decided, message and text part are open
    together, and before the first content nothing is. -/
structure Shape (ids : Ids) (st : ItemState) : Prop where
  decided : st.thinkDetecting = false
  part : st.messageStarted = st.textPartStarted
  detected : st.thinkDetected = true → st.reasoningItemId.isSome
  fresh : st.firstContent = true → st.textPartStarted = false ∧ st.thinkDetected = false
  message : st.msgItemId = ids.item 0

theorem shape_new (ids : Ids) : Shape ids (newItemState ids) :=
  ⟨rfl, rfl, by simp [newItemState], fun _ => ⟨rfl, rfl⟩, rfl⟩

/-! ## Text and reasoning -/

/-- The message as it is opened. -/
def ItemState.openedMessage (st : ItemState) : List Item :=
  if st.textPartStarted then [] else [.message st.msgItemId .inProgress none]

theorem sendText_sums (st : ItemState) (s : Bytes) (part : st.messageStarted = st.textPartStarted) :
    (st.sendText s).1 =
        { st with messageStarted := true, textPartStarted := true,
                  accumulatedText := st.accumulatedText ++ s } ∧
      Sums st.msgItemId (st.sendText s).2 [] s st.openedMessage [] := by
  unfold ItemState.sendText ItemState.ensureTextPartStarted ItemState.ensureMessageStarted
    ItemState.openedMessage
  cases opened : st.textPartStarted with
  | true =>
      have message : st.messageStarted = true := part.trans opened
      refine ⟨by cases st; simp_all, ?_, ?_, ?_, ?_⟩
      · simp [message, opened, reasoningOf, ItemEvent.reasoning]
      · simp [message, opened, textOf, ItemEvent.textOf]
      · simp [message, opened, addedItems, ItemEvent.added?]
      · simp [message, opened, doneItems, ItemEvent.done?]
  | false =>
      have message : st.messageStarted = false := part.trans opened
      refine ⟨by cases st; simp_all, ?_, ?_, ?_, ?_⟩
      · simp [message, reasoningOf, ItemEvent.reasoning]
      · simp [message, textOf, ItemEvent.textOf]
      · simp [message, addedItems, ItemEvent.added?]
      · simp [message, doneItems, ItemEvent.done?]

/-- What opening the reasoning item does. -/
theorem openReasoning_sums (id : Bytes) (ids : Ids) (st : ItemState) (after : Bytes) :
    Sums id (st.openReasoning ids after).2 after []
      [.reasoning (some (ids.item st.nextId)) .inProgress []] [] := by
  unfold ItemState.openReasoning unlessEmpty
  simp only
  split
  · rename_i empty
    exact ⟨by rw [empty]; rfl, rfl, rfl, rfl⟩
  · exact ⟨by simp [reasoningOf, ItemEvent.reasoning], rfl, rfl, rfl⟩

theorem sendReasoning_sums (id : Bytes) (st : ItemState) (s : Bytes) :
    Sums id (st.sendReasoning s).2 s [] [] [] :=
  ⟨by simp [ItemState.sendReasoning, reasoningOf, ItemEvent.reasoning], rfl, rfl, rfl⟩

/-- The reasoning item as it is closed. -/
def ItemState.reasoningItem (st : ItemState) : Item :=
  .reasoning st.reasoningItemId .completed st.reasoningText

theorem closeReasoning_sums (id : Bytes) (st : ItemState) :
    Sums id st.closeReasoning [] [] [] [(0, st.reasoningItem)] := ⟨rfl, rfl, rfl, rfl⟩

theorem closeMessage_sums (id : Bytes) (st : ItemState) :
    Sums id st.closeMessage [] [] [] [(st.outputIndex, st.messageItem)] := ⟨rfl, rfl, rfl, rfl⟩

/-! ## The branches of a content delta -/

section Branches

variable (ids : Ids) {st : ItemState} (s : Bytes)

theorem onContent_think (first : st.firstContent = true) (starts : s.take 7 = lit "<think>")
    (long : 7 ≤ s.length) :
    st.onContent ids s =
      ({ st with firstContent := false, thinkDetecting := true, thinkBuffer := s } :
        ItemState).openReasoning ids (s.drop 7) := by
  simp [ItemState.onContent, ItemState.beginContent, ItemState.detect, first, starts, long]

theorem onContent_text (first : st.firstContent = true) (other : s.take 7 ≠ lit "<think>") :
    st.onContent ids s =
      ({ st with firstContent := false, thinkDetecting := false, thinkBuffer := s,
                 outputIndex := st.nextOutputIndex - 1 } : ItemState).sendText s := by
  simp [ItemState.onContent, ItemState.beginContent, ItemState.detect, first, other]

variable {ids} (shape : Shape ids st)
include shape

theorem onContent_reason (later : st.firstContent = false) (detected : st.thinkDetected = true)
    (closed : st.textPartStarted = false) : st.onContent ids s = st.reason s := by
  simp [ItemState.onContent, ItemState.beginContent, later, shape.decided, detected, closed]

theorem onContent_write (later : st.firstContent = false)
    (writing : st.thinkDetected = false ∨ st.textPartStarted = true) :
    st.onContent ids s = st.write s := by
  cases writing with
  | inl plain => simp [ItemState.onContent, ItemState.beginContent, later, shape.decided, plain]
  | inr opened => simp [ItemState.onContent, ItemState.beginContent, later, shape.decided, opened]

theorem onContent_open (later : st.firstContent = false) (opened : st.textPartStarted = true) :
    st.onContent ids s = st.sendText s := by
  have message : st.messageStarted = true := shape.part.trans opened
  rw [onContent_write s shape later (.inr opened), ItemState.write, if_pos message]

end Branches

/-! ## The tool calls -/

theorem toolEntry_cases (ids : Ids) (st : ItemState) (tc : ToolDelta) :
    (∃ ts, st.toolStates.lookup tc.index = some ts ∧ st.toolEntry ids tc = (st, ts)) ∨
    (st.toolStates.lookup tc.index = none ∧ st.toolEntry ids tc =
      ({ st with nextId := st.nextId + 1, nextOutputIndex := st.nextOutputIndex + 1 },
        .create (ids.item st.nextId) tc st.nextOutputIndex)) := by
  unfold ItemState.toolEntry
  cases st.toolStates.lookup tc.index with
  | none => exact .inr ⟨rfl, rfl⟩
  | some ts => exact .inl ⟨ts, rfl, rfl⟩

/-- The entry a tool delta works with, brought up to date. -/
def ItemState.updated (ids : Ids) (st : ItemState) (tc : ToolDelta) : ToolState :=
  (st.toolEntry ids tc).2.update tc

/-- The message that is closed by the start of a tool call. -/
def ItemState.closedMessage (st : ItemState) : List (Nat × Item) :=
  if st.textPartStarted then [(st.outputIndex, st.messageItem)] else []

theorem onTool_quiet (id : Bytes) {ids : Ids} {st : ItemState} {tc : ToolDelta}
    (notReady : (st.updated ids tc).ready = false) :
    (st.onTool ids tc).1 = (st.toolEntry ids tc).1.setTool tc.index (st.updated ids tc) ∧
      Sums id (st.onTool ids tc).2 [] [] [] [] := by
  have silent : ((st.toolEntry ids tc).2.update tc).ready = false := notReady
  simp only [ItemState.onTool, silent, Bool.false_eq_true, ↓reduceIte]
  refine ⟨rfl, ?_⟩
  cases tc.arguments with
  | none => split <;> exact Sums.nil id
  | some arguments =>
      split
      · exact ⟨rfl, rfl, rfl, rfl⟩
      · exact Sums.nil id

theorem opening_sums (id : Bytes) (ts : ToolState) :
    Sums id ts.opening [] [] [ts.item .inProgress []] [] := by
  unfold ToolState.opening unlessEmpty
  split <;> exact ⟨rfl, rfl, rfl, rfl⟩

theorem onTool_ready (id : Bytes) {ids : Ids} {st : ItemState} (shape : Shape ids st)
    {tc : ToolDelta} (ready : (st.updated ids tc).ready = true) :
    (st.onTool ids tc).1 =
        ({ (st.toolEntry ids tc).1 with textPartStarted := false, messageStarted := false } :
          ItemState).setTool tc.index { st.updated ids tc with started := true } ∧
      Sums id (st.onTool ids tc).2 [] [] [(st.updated ids tc).item .inProgress []]
        st.closedMessage := by
  have isReady : ((st.toolEntry ids tc).2.update tc).ready = true := ready
  have same : (st.toolEntry ids tc).1.textPartStarted = st.textPartStarted ∧
      (st.toolEntry ids tc).1.messageStarted = st.messageStarted ∧
      (st.toolEntry ids tc).1.closeMessage = st.closeMessage := by
    rcases toolEntry_cases ids st tc with ⟨ts, -, entry⟩ | ⟨-, entry⟩
    · rw [entry]
      exact ⟨rfl, rfl, rfl⟩
    · rw [entry]
      exact ⟨rfl, rfl, rfl⟩
  simp only [ItemState.onTool, isReady, ↓reduceIte, ItemState.closeForTool, same,
    ItemState.closedMessage]
  cases opened : st.textPartStarted with
  | true =>
      refine ⟨rfl, ?_⟩
      have sums := (closeMessage_sums id st).append (opening_sums id (st.updated ids tc))
      simpa [ItemState.updated] using sums
  | false =>
      have message : st.messageStarted = false := shape.part.trans opened
      rw [opened, message] at same
      refine ⟨?_, opening_sums id (st.updated ids tc)⟩
      generalize (st.toolEntry ids tc).1 = entered at same ⊢
      cases entered
      simp_all [ItemState.updated]

/-- The entry as a tool delta leaves it. -/
def ItemState.written (ids : Ids) (st : ItemState) (tc : ToolDelta) : ToolState :=
  if (st.updated ids tc).ready then { st.updated ids tc with started := true }
  else st.updated ids tc

/-- A tool delta writes to its entry, which keeps its place and its item. -/
theorem written_entry (ids : Ids) (st : ItemState) (tc : ToolDelta) :
    (st.written ids tc).outputIndex = (st.toolEntry ids tc).2.outputIndex ∧
      (st.written ids tc).itemId = (st.toolEntry ids tc).2.itemId ∧
      ((st.toolEntry ids tc).2.started = true → (st.written ids tc).started = true) := by
  unfold ItemState.written
  split
  · exact ⟨rfl, rfl, fun _ => rfl⟩
  · exact ⟨rfl, rfl, id⟩

theorem onTool_tools {ids : Ids} {st : ItemState} (shape : Shape ids st) (tc : ToolDelta) :
    (st.onTool ids tc).1.toolStates = setEntry tc.index (st.written ids tc) st.toolStates := by
  have same : (st.toolEntry ids tc).1.toolStates = st.toolStates := by
    rcases toolEntry_cases ids st tc with ⟨ts, -, entry⟩ | ⟨-, entry⟩ <;> rw [entry]
  unfold ItemState.written
  cases ready : (st.updated ids tc).ready with
  | true =>
      rw [(onTool_ready [] shape ready).1]
      simp [ItemState.setTool, same]
  | false =>
      rw [(onTool_quiet [] ready).1]
      simp [ItemState.setTool, same]

/-- The tool states know the moves that were handled. -/
abbrev KnownTools (ms : List Move) (st : ItemState) : Prop :=
  Known ToolState.callId ToolState.name ToolState.started ms st.toolStates

section Known

variable (ids : Ids) {ms : List Move} {st : ItemState} (known : KnownTools ms st) (tc : ToolDelta)
include known

theorem updated_started :
    (st.updated ids tc).started = true ↔ Completes ms tc.index := by
  rw [known.completes_iff]
  unfold ItemState.updated
  rcases toolEntry_cases ids st tc with ⟨ts, found, entry⟩ | ⟨unknown, entry⟩
  · rw [entry, found]
    simp [ToolState.update]
  · rw [entry, unknown]
    simp [ToolState.update, ToolState.create]

theorem written_updates :
    Updates ToolState.callId ToolState.name ToolState.started st.toolStates tc
      (st.written ids tc) := by
  have callId : (st.updated ids tc).callId =
      (tc.id <|> (st.toolStates.lookup tc.index).bind ToolState.callId) := by
    unfold ItemState.updated
    rcases toolEntry_cases ids st tc with ⟨ts, found, entry⟩ | ⟨unknown, entry⟩
    · simp [entry, found, ToolState.update]
    · simp [entry, unknown, ToolState.update, ToolState.create, orElse_idem]
  have name : (st.updated ids tc).name =
      (tc.name <|> (st.toolStates.lookup tc.index).bind ToolState.name) := by
    unfold ItemState.updated
    rcases toolEntry_cases ids st tc with ⟨ts, found, entry⟩ | ⟨unknown, entry⟩
    · simp [entry, found, ToolState.update]
    · simp [entry, unknown, ToolState.update, ToolState.create, orElse_idem]
  have complete : (st.updated ids tc).started = true →
      (st.updated ids tc).callId.isSome ∧ (st.updated ids tc).name.isSome := by
    intro started
    obtain ⟨ts, found, isStarted⟩ :=
      (known.completes_iff _).mp ((updated_started ids known tc).mp started)
    obtain ⟨hasId, hasName⟩ := (known.started _ _ found).mp isStarted
    rw [callId, name, orElse_isSome, orElse_isSome, found]
    exact ⟨.inr hasId, .inr hasName⟩
  unfold ItemState.written
  split
  · rename_i ready
    simp only [ToolState.ready, Bool.and_eq_true] at ready
    exact ⟨callId, name, by simp [ready.1.2, ready.2]⟩
  · rename_i notReady
    refine ⟨callId, name, complete, fun ⟨hasId, hasName⟩ => ?_⟩
    simpa [ToolState.ready, hasId, hasName] using notReady

theorem knownTools_tool (shape : Shape ids st) :
    KnownTools (ms ++ [.tool tc]) (st.onTool ids tc).1 := by
  rw [KnownTools, onTool_tools shape]
  exact known.tool (written_updates ids known tc)

/-- A tool delta starts its call exactly when it completes it. -/
theorem ready_iff : (st.updated ids tc).ready = true ↔
    Completes (ms ++ [.tool tc]) tc.index ∧ ¬ Completes ms tc.index := by
  have after := known.tool (written_updates ids known tc)
  have entry := lookup_setEntry_self tc.index (st.written ids tc) st.toolStates
  have complete : Completes (ms ++ [.tool tc]) tc.index ↔
      (st.updated ids tc).callId.isSome ∧ (st.updated ids tc).name.isSome := by
    rw [Completes, ← after.hasId _ _ entry, ← after.hasName _ _ entry]
    unfold ItemState.written
    split <;> rfl
  rw [complete, ← updated_started ids known tc]
  simp [ToolState.ready]
  tauto

end Known

/-- A delta that does not start its call completes nothing. -/
theorem completes_quiet {ids : Ids} {ms : List Move} {st : ItemState} (known : KnownTools ms st)
    {tc : ToolDelta} (notReady : (st.updated ids tc).ready = false) (i : Value) :
    Completes (ms ++ [.tool tc]) i ↔ Completes ms i := by
  constructor
  · intro complete
    by_contra before
    have same := completes_tool ms i tc complete before
    subst same
    have ready := (ready_iff ids known tc).mpr ⟨complete, before⟩
    rw [notReady] at ready
    cases ready
  · exact fun complete => complete.append _

/-! ## The flags after a move -/

theorem shape_tool {ids : Ids} {st : ItemState} (shape : Shape ids st) (tc : ToolDelta) :
    Shape ids (st.onTool ids tc).1 := by
  have entered : Shape ids (st.toolEntry ids tc).1 := by
    rcases toolEntry_cases ids st tc with ⟨ts, -, entry⟩ | ⟨-, entry⟩
    · rw [entry]
      exact shape
    · rw [entry]
      exact ⟨shape.decided, shape.part, shape.detected, shape.fresh, shape.message⟩
  cases ready : (st.updated ids tc).ready with
  | true =>
      rw [(onTool_ready [] shape ready).1]
      exact ⟨entered.decided, rfl, entered.detected, fun first => ⟨rfl, (entered.fresh first).2⟩,
        entered.message⟩
  | false =>
      rw [(onTool_quiet [] ready).1]
      exact ⟨entered.decided, entered.part, entered.detected, entered.fresh, entered.message⟩

/-- What a tool delta leaves alone: everything but an open message. -/
structure ToolStep (id : Bytes) (ids : Ids) (st : ItemState) (tc : ToolDelta) : Prop where
  first : (st.onTool ids tc).1.firstContent = st.firstContent
  detected : (st.onTool ids tc).1.thinkDetected = st.thinkDetected
  open' : (st.onTool ids tc).1.textPartStarted =
    (st.textPartStarted && !(st.updated ids tc).ready)
  reasoning : reasoningOf (st.onTool ids tc).2 = []
  text : textOf id (st.onTool ids tc).2 = []
  closings : closings (st.onTool ids tc).2 = 0

theorem toolStep (id : Bytes) {ids : Ids} {st : ItemState} (shape : Shape ids st)
    (tc : ToolDelta) : ToolStep id ids st tc := by
  have entered : (st.toolEntry ids tc).1.firstContent = st.firstContent ∧
      (st.toolEntry ids tc).1.thinkDetected = st.thinkDetected ∧
      (st.toolEntry ids tc).1.textPartStarted = st.textPartStarted := by
    rcases toolEntry_cases ids st tc with ⟨ts, -, entry⟩ | ⟨-, entry⟩ <;> rw [entry] <;> simp
  obtain ⟨first, detected, opened⟩ := entered
  cases ready : (st.updated ids tc).ready with
  | true =>
      obtain ⟨state, sums⟩ := onTool_ready id shape ready
      refine ⟨by rw [state]; exact first, by rw [state]; exact detected, ?_, sums.reasoning,
        sums.text, ?_⟩
      · rw [state, ready]
        simp [ItemState.setTool]
      · rw [sums.closings, ItemState.closedMessage]
        split <;> simp [ItemState.messageItem, Item.isReasoning]
  | false =>
      obtain ⟨state, sums⟩ := onTool_quiet id ready
      refine ⟨by rw [state]; exact first, by rw [state]; exact detected, ?_, sums.reasoning,
        sums.text, by rw [sums.closings]; rfl⟩
      rw [state, ready]
      simp [ItemState.setTool, opened]

/-- The state once reasoning was closed after `x`. -/
def ItemState.reasoned (st : ItemState) (x : Bytes) : ItemState :=
  { st with reasoningText := st.reasoningText ++ x, outputIndex := st.nextOutputIndex,
            nextOutputIndex := st.nextOutputIndex + 1 }

section ToolStep

variable {id : Bytes} {ids : Ids} {st : ItemState} {tc : ToolDelta} (step : ToolStep id ids st tc)

include step

theorem ToolStep.still (closed : st.textPartStarted = false) :
    (st.onTool ids tc).1.textPartStarted = false := by
  rw [step.open', closed]
  rfl

theorem ToolStep.stays (opened : st.textPartStarted = true)
    (quiet : (st.updated ids tc).ready = false) : (st.onTool ids tc).1.textPartStarted = true := by
  rw [step.open', opened, quiet]
  rfl

theorem ToolStep.closes (ready : (st.updated ids tc).ready = true) :
    (st.onTool ids tc).1.textPartStarted = false := by
  rw [step.open', ready]
  exact Bool.and_false _

end ToolStep

/-- The closing tag, with nothing behind it. -/
theorem reason_close (id : Bytes) (st : ItemState) {s x : Bytes}
    (found : cut (lit "</think>") s = some (x, [])) :
    (st.reason s).1 = st.reasoned x ∧
      ∃ before, (st.reason s).2 = before ++ (st.reasoned x).closeReasoning ∧
        Sums id before x [] [] [] := by
  unfold ItemState.reason
  rw [found]
  cases x with
  | nil =>
      refine ⟨by simp [ItemState.reasoned], [], ?_, Sums.nil id⟩
      simp [ItemState.closeReasoning, ItemState.reasoned]
  | cons c x =>
      refine ⟨by simp [ItemState.reasoned, ItemState.sendReasoning], _, ?_,
        sendReasoning_sums id st (c :: x)⟩
      simp [ItemState.closeReasoning, ItemState.reasoned, ItemState.sendReasoning]

/-- The closing tag, with text behind it. -/
theorem reason_close_text (st : ItemState) {s x y : Bytes} (text : y ≠ [])
    (found : cut (lit "</think>") s = some (x, y)) :
    (st.reason s).1 = ((st.reasoned x).sendText y).1 ∧
      ∃ before, (st.reason s).2 =
          before ++ (st.reasoned x).closeReasoning ++ ((st.reasoned x).sendText y).2 ∧
        Sums st.msgItemId before x [] [] [] := by
  unfold ItemState.reason
  rw [found]
  cases x with
  | nil =>
      refine ⟨by simp [ItemState.reasoned, text], [], ?_, Sums.nil _⟩
      simp [ItemState.closeReasoning, ItemState.reasoned, text]
  | cons c x =>
      refine ⟨by simp [ItemState.reasoned, ItemState.sendReasoning, text], _, ?_,
        sendReasoning_sums _ st (c :: x)⟩
      simp [ItemState.closeReasoning, ItemState.reasoned, ItemState.sendReasoning, text]

theorem reason_more (st : ItemState) {s : Bytes} (open' : cut (lit "</think>") s = none) :
    st.reason s = st.sendReasoning s := by
  unfold ItemState.reason
  rw [open']

/-- What every content delta leaves behind. -/
structure Settled (ids : Ids) (st st' : ItemState) : Prop where
  shape : Shape ids st'
  tools : st'.toolStates = st.toolStates
  later : st'.firstContent = false

theorem settled_sendText {ids : Ids} {st : ItemState} (shape : Shape ids st)
    (later : st.firstContent = false) (s : Bytes) : Settled ids st (st.sendText s).1 := by
  rw [(sendText_sums st s shape.part).1]
  exact ⟨⟨shape.decided, rfl, shape.detected, by simp [later], shape.message⟩, rfl, later⟩

theorem settled_reason {ids : Ids} {st : ItemState} (shape : Shape ids st)
    (later : st.firstContent = false) (s : Bytes) : Settled ids st (st.reason s).1 := by
  have reasoned (x : Bytes) : Shape ids (st.reasoned x) :=
    ⟨shape.decided, shape.part, shape.detected, shape.fresh, shape.message⟩
  cases found : cut (lit "</think>") s with
  | none =>
      rw [reason_more st found]
      exact ⟨⟨shape.decided, shape.part, shape.detected, shape.fresh, shape.message⟩, rfl, later⟩
  | some parts =>
      obtain ⟨x, y⟩ := parts
      cases y with
      | nil =>
          rw [(reason_close [] st found).1]
          exact ⟨reasoned x, rfl, later⟩
      | cons c y =>
          rw [(reason_close_text st (List.cons_ne_nil c y) found).1]
          obtain ⟨shape', tools, later'⟩ := settled_sendText (reasoned x) later (c :: y)
          exact ⟨shape', tools, later'⟩

theorem settled_write {ids : Ids} {st : ItemState} (shape : Shape ids st)
    (later : st.firstContent = false) (s : Bytes) : Settled ids st (st.write s).1 := by
  unfold ItemState.write
  split
  · exact settled_sendText shape later s
  · have moved : Shape ids { st with outputIndex := st.nextOutputIndex - 1 } :=
      ⟨shape.decided, shape.part, shape.detected, shape.fresh, shape.message⟩
    obtain ⟨shape', tools, later'⟩ := settled_sendText moved later s
    exact ⟨shape', tools, later'⟩

/-- What a content delta comes to: reasoning is opened, the message is opened,
    its text goes on, or reasoning goes on. -/
theorem onContent_cases {ids : Ids} {st : ItemState} (shape : Shape ids st) (s : Bytes) :
    (st.firstContent = true ∧ s.take 7 = lit "<think>" ∧
      st.onContent ids s =
        ({ st with firstContent := false, thinkDetecting := true, thinkBuffer := s } :
          ItemState).openReasoning ids (s.drop 7)) ∨
    (st.firstContent = true ∧ s.take 7 ≠ lit "<think>" ∧
      st.onContent ids s =
        ({ st with firstContent := false, thinkDetecting := false, thinkBuffer := s,
                   outputIndex := st.nextOutputIndex - 1 } : ItemState).sendText s) ∨
    (st.firstContent = false ∧ (st.thinkDetected = false ∨ st.textPartStarted = true) ∧
      st.onContent ids s = st.write s) ∨
    (st.firstContent = false ∧ st.thinkDetected = true ∧ st.textPartStarted = false ∧
      st.onContent ids s = st.reason s) := by
  cases first : st.firstContent with
  | true =>
      by_cases starts : s.take 7 = lit "<think>"
      · exact .inl ⟨rfl, starts, onContent_think ids s first starts (tag_length starts)⟩
      · exact .inr (.inl ⟨rfl, starts, onContent_text ids s first starts⟩)
  | false =>
      cases detected : st.thinkDetected with
      | false =>
          exact .inr (.inr (.inl ⟨rfl, .inl rfl, onContent_write s shape first (.inl detected)⟩))
      | true =>
          cases opened : st.textPartStarted with
          | false =>
              exact .inr (.inr (.inr
                ⟨rfl, rfl, rfl, onContent_reason s shape first detected opened⟩))
          | true =>
              exact .inr (.inr (.inl ⟨rfl, .inr rfl, onContent_write s shape first (.inr opened)⟩))

theorem settled_content {ids : Ids} {st : ItemState} (shape : Shape ids st) (s : Bytes) :
    Settled ids st (st.onContent ids s).1 := by
  rcases onContent_cases shape s with ⟨-, -, same⟩ | ⟨-, -, same⟩ | ⟨later, -, same⟩ |
    ⟨later, -, -, same⟩
  · rw [same]
    exact ⟨⟨rfl, shape.part, fun _ => rfl, by simp [ItemState.openReasoning], shape.message⟩,
      rfl, rfl⟩
  · rw [same]
    have moved : Shape ids
        { st with
          firstContent := false, thinkDetecting := false, thinkBuffer := s,
          outputIndex := st.nextOutputIndex - 1 } :=
      ⟨rfl, shape.part, shape.detected, by simp, shape.message⟩
    obtain ⟨shape', tools, later'⟩ := settled_sendText moved rfl s
    exact ⟨shape', tools, later'⟩
  · rw [same]
    exact settled_write shape later s
  · rw [same]
    exact settled_reason shape later s

/-- Flags and tool states follow the moves. -/
theorem run_settled (ids : Ids) (ms : List Move) :
    Shape ids (runFrom (ItemState.move ids) (newItemState ids) ms).1 ∧
      KnownTools ms (runFrom (ItemState.move ids) (newItemState ids) ms).1 := by
  induction ms using List.reverseRecOn with
  | nil => exact ⟨shape_new ids, known_nil⟩
  | append_singleton ms x ih =>
      obtain ⟨shape, known⟩ := ih
      rw [runFrom_concat]
      cases x with
      | content s =>
          have settled := settled_content shape s
          refine ⟨settled.shape, ?_⟩
          rw [KnownTools, ItemState.move, settled.tools]
          exact known.content s
      | tool tc => exact ⟨shape_tool shape tc, knownTools_tool ids known tc shape⟩

/-! ## The end of the stream -/

theorem itemEvents_append (xs ys : List Event) :
    itemEvents (xs ++ ys) = itemEvents xs ++ itemEvents ys := List.filterMap_append

/-- The detector has nothing left to flush: `stream_end` closes items and completes
    the response. -/
theorem streamEnd_payloads {ids : Ids} (now : Rat) {st : StreamState}
    (shape : Shape ids st.toItemState) (order : List (Value × ToolState)) :
    (streamEnd now st order).map Event.payload =
      (st.toItemState.close order).1.map .item ++
        [.completed (st.response now st.status (st.toItemState.close order).2)] := by
  have flushed : st.toItemState.flush = (st.toItemState, []) := by
    simp [ItemState.flush, shape.decided]
  rw [streamEnd, send_payloads, flushed]
  rfl

theorem itemEvents_streamEnd {ids : Ids} (now : Rat) {st : StreamState}
    (shape : Shape ids st.toItemState) (order : List (Value × ToolState)) :
    itemEvents (streamEnd now st order) = (st.toItemState.close order).1 := by
  have completed (r : Response) : [Payload.completed r].filterMap Payload.item? = [] := rfl
  rw [itemEvents_eq, streamEnd_payloads now shape, List.filterMap_append, item_payloads, completed,
    List.append_nil]

theorem completedResponses_append (xs ys : List Event) :
    completedResponses (xs ++ ys) = completedResponses xs ++ completedResponses ys :=
  List.filterMap_append

theorem completedResponses_streamEnd {ids : Ids} (now : Rat) {st : StreamState}
    (shape : Shape ids st.toItemState) (order : List (Value × ToolState)) :
    completedResponses (streamEnd now st order) =
      [st.response now st.status (st.toItemState.close order).2] := by
  rw [completedResponses_eq, streamEnd_payloads now shape, List.filterMap_append, item_completed]
  rfl

/-- The entries of `tool_states` that `stream_end` closes. -/
def startedCalls (table : List (Value × ToolState)) : List ToolState :=
  (table.filter fun entry => entry.2.started).map Prod.snd

theorem closeTools_sums (id : Bytes) (started : List ToolState) :
    Sums id (started.flatMap fun ts =>
        [.argumentsDone ts.itemId ts.outputIndex ts.callId ts.name ts.args,
          .done ts.outputIndex (ts.item .completed ts.args)]) [] [] []
      (started.map fun ts => (ts.outputIndex, ts.item .completed ts.args)) := by
  induction started with
  | nil => exact Sums.nil id
  | cons ts started ih =>
      have head : Sums id [.argumentsDone ts.itemId ts.outputIndex ts.callId ts.name ts.args,
          .done ts.outputIndex (ts.item .completed ts.args)] [] [] []
          [(ts.outputIndex, ts.item .completed ts.args)] := ⟨rfl, rfl, rfl, rfl⟩
      exact head.append ih

/-! ## A sample -/

/-- Ids that are numbered through. -/
def sampleIds : Ids where
  response := lit "resp_0"
  item n := lit "item_" ++ lit (toString n)

/-- Digits can be read back from their bytes. -/
theorem digits_of_lit (n : Nat) :
    (lit (toString n)).map (fun b => Char.ofNat b.toNat) = Nat.toDigits 10 n := by
  rw [lit, Nat.toString_eq_repr, Nat.toList_repr, List.map_map]
  refine (List.map_congr_left fun c mem => ?_).trans (List.map_id _)
  have digit := Nat.isDigit_of_mem_toDigits (by decide) (by decide) mem
  simp only [Char.isDigit, Bool.and_eq_true, decide_eq_true_eq] at digit
  have small : c.toNat ≤ 57 := digit.2
  have byte : c.toNat % 2 ^ 8 = c.toNat := by omega
  rw [Function.comp_apply, UInt8.toNat_ofNat', byte]
  exact Char.ofNat_toNat c

theorem sampleIds_fresh : Function.Injective sampleIds.item := by
  intro n m same
  have bytes : lit (toString n) = lit (toString m) := List.append_cancel_left same
  have digits : Nat.toDigits 10 n = Nat.toDigits 10 m := by
    rw [← digits_of_lit, ← digits_of_lit, bytes]
  rw [← Nat.ofDigitChars_ten_toDigits (n := n), digits, Nat.ofDigitChars_ten_toDigits]

/-- The chunks of these content deltas decode to just that. -/
theorem contentLines_counted (texts : List String)
    (decoded : ∀ text ∈ texts,
      decodeChunk (contentRuntime texts) (contentLine text) = some (contentChunk text)) :
    ∀ line ∈ texts.map contentLine, IsCountedLine (contentRuntime texts) line := by
  intro line mem v found
  obtain ⟨text, inTexts, rfl⟩ := List.mem_map.mp mem
  obtain rfl := Option.some.inj ((decoded text inTexts).symm.trans found)
  exact ⟨rfl, rfl⟩

end E2eeProxy.Responses
