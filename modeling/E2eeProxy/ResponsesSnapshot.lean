import E2eeProxy.Lib.Listing
import E2eeProxy.ResponsesSteps

/-! # Is the final response the stream?

The `output` of `response.completed` should list the items that were closed, in
the order of their output index, and nothing that was streamed should be missing
from it. `stream_end` puts together what is still open then: an item that was
closed before that, and any reasoning, is not in it.
-/

namespace E2eeProxy.Responses

open E2eeProxy.Lua E2eeProxy.OpenAi E2eeProxy.Lib

/-- Both are the same item, the one maybe at an earlier stage than the other. -/
def Item.sameAs : Item → Item → Prop
  | .reasoning id .., .reasoning id' .. => id = id'
  | .message id .., .message id' .. => id = id'
  | .functionCall id .., .functionCall id' .. => id = id'
  | _, _ => False

def Item.isCall : Item → Bool
  | .functionCall .. => true
  | _ => false

def Item.reasoningText : Item → Bytes
  | .reasoning _ _ text => text
  | _ => []

def Item.messageText : Item → Bytes
  | .message _ _ content => content.getD []
  | _ => []

/-- `output` has the items that were closed, in their order, and all that was
    streamed. `id` is the id of the message. -/
structure IsSnapshot (id : Bytes) (output : List Item) (events : List ItemEvent) : Prop where
  listing : IsListing output (doneItems events)
  kept : ∀ item ∈ addedItems events, ∃ item' ∈ output, item'.sameAs item
  reasoning : reasoningOf events = output.flatMap Item.reasoningText
  text : textOf id events = output.flatMap Item.messageText

/-- The stream is completed once, with a snapshot of it. -/
def EndsInSnapshot (id : Bytes) (events : List Event) : Prop :=
  ∃ response, completedResponses events = [response] ∧
    IsSnapshot id response.output (itemEvents events)

/-- The first content is no reasoning, and a call that is started was started
    before it and is the last that was mentioned before it. -/
def NothingLeftOut (ms : List Move) : Prop :=
  ∀ before s, firstContent ms = some (before, s) → s.take 7 ≠ lit "<think>" ∧
    ∀ i, Completes ms i → Completes before i ∧ (calls before).getLast? = some i

def ToolState.doneItem (ts : ToolState) : Item := ts.item .completed ts.args

/-- `pairs` gives the started calls in the order they were created in, or in one
    that gives the same items. -/
def InCreationOrder (order table : List (Value × ToolState)) : Prop :=
  (startedCalls table).map ToolState.doneItem = (startedCalls order).map ToolState.doneItem

/-! ## The places of the calls -/

/-- The calls have the output indexes from 1 on. -/
structure Places (ms : List Move) (st : ItemState) : Prop where
  table : st.toolStates.map (fun e => (e.1, e.2.outputIndex)) = (calls ms).zipIdx 1
  next : st.nextOutputIndex = (calls ms).length + 1

theorem Places.mem {ms : List Move} {st : ItemState} (places : Places ms st) {i : Value}
    {ts : ToolState} (found : (i, ts) ∈ st.toolStates) :
    (i, ts.outputIndex) ∈ (calls ms).zipIdx 1 := by
  rw [← places.table]
  exact List.mem_map_of_mem (f := fun e : Value × ToolState => (e.1, e.2.outputIndex)) found

theorem Places.keys {ms : List Move} {st : ItemState} (places : Places ms st) :
    st.toolStates.map Prod.fst = calls ms := by
  have keys := congrArg (List.map Prod.fst) places.table
  rwa [List.map_map, List.zipIdx_map_fst] at keys

/-- What a tool delta leaves alone, and where it takes the next output index to. -/
theorem onTool_kept {ids : Ids} {st : ItemState} (shape : Shape ids st) (tc : ToolDelta) :
    (st.onTool ids tc).1.outputIndex = st.outputIndex ∧
      (st.onTool ids tc).1.accumulatedText = st.accumulatedText ∧
      (st.onTool ids tc).1.nextOutputIndex = (st.toolEntry ids tc).1.nextOutputIndex := by
  have entered : (st.toolEntry ids tc).1.outputIndex = st.outputIndex ∧
      (st.toolEntry ids tc).1.accumulatedText = st.accumulatedText := by
    rcases toolEntry_cases ids st tc with ⟨ts, -, entry⟩ | ⟨-, entry⟩
    · rw [entry]
      exact ⟨rfl, rfl⟩
    · rw [entry]
      exact ⟨rfl, rfl⟩
  cases ready : (st.updated ids tc).ready with
  | true =>
      rw [(onTool_ready [] shape ready).1]
      exact ⟨entered.1, entered.2, rfl⟩
  | false =>
      rw [(onTool_quiet [] ready).1]
      exact ⟨entered.1, entered.2, rfl⟩

theorem Places.tool {ids : Ids} {ms : List Move} {st : ItemState} (places : Places ms st)
    (known : KnownTools ms st) (shape : Shape ids st) (tc : ToolDelta) :
    Places (ms ++ [.tool tc]) (st.onTool ids tc).1 := by
  have mentioned : tc.index ∈ calls ms ↔ (st.toolStates.lookup tc.index).isSome := by
    rw [mem_calls, known.mentioned]
  have table : (st.onTool ids tc).1.toolStates.map (fun e => (e.1, e.2.outputIndex)) =
      setEntry tc.index (st.toolEntry ids tc).2.outputIndex ((calls ms).zipIdx 1) := by
    rw [onTool_tools shape, mapValue_setEntry, places.table, (written_entry ids st tc).1]
  have next := (onTool_kept shape tc).2.2
  have found : ((calls ms).zipIdx 1).lookup tc.index =
      (st.toolStates.lookup tc.index).map ToolState.outputIndex := by
    rw [← places.table]
    exact lookup_mapValue ToolState.outputIndex tc.index st.toolStates
  rcases toolEntry_cases ids st tc with ⟨ts, present, entry⟩ | ⟨absent, entry⟩
  · rw [present] at mentioned found
    rw [entry] at table next
    have same : calls (ms ++ [.tool tc]) = calls ms := by
      rw [calls_tool, if_pos (mentioned.mpr rfl)]
    exact ⟨by rw [table, same, setEntry_same found], by rw [next, same, places.next]⟩
  · rw [absent] at mentioned found
    rw [entry] at table next
    have more : calls (ms ++ [.tool tc]) = calls ms ++ [tc.index] := by
      rw [calls_tool, if_neg (fun known => by simpa using mentioned.mp known)]
    refine ⟨?_, ?_⟩
    · rw [table, more, setEntry_absent _ found, List.zipIdx_append]
      simp [ToolState.create, places.next, Nat.add_comm]
    · rw [next, more, List.length_append, places.next]
      rfl

/-! ## While nothing was closed -/

/-- The item is still there to be closed at the end of the stream. -/
def Held (st : ItemState) (item : Item) : Prop :=
  (st.textPartStarted = true ∧ st.messageItem.sameAs item) ∨
    ∃ i ts, st.toolStates.lookup i = some ts ∧ ts.started = true ∧ ts.doneItem.sameAs item

theorem sameAs_call {ts ts' : ToolState} {item : Item} (same : ts'.itemId = ts.itemId)
    (is : ts.doneItem.sameAs item) : ts'.doneItem.sameAs item := by
  cases item with
  | reasoning | message => exact is
  | functionCall => exact same.trans is

theorem Held.tool {ids : Ids} {st : ItemState} {item : Item} (held : Held st item)
    (shape : Shape ids st) {tc : ToolDelta}
    (open' : st.textPartStarted = true → (st.updated ids tc).ready = false) :
    Held (st.onTool ids tc).1 item := by
  obtain ⟨-, itemId, started⟩ := written_entry ids st tc
  rcases held with ⟨opened, message⟩ | ⟨i, ts, found, isStarted, is⟩
  · refine .inl ⟨?_, ?_⟩
    · rw [(toolStep [] shape tc).open', opened, open' opened]
      rfl
    · cases item with
      | reasoning | functionCall => exact message
      | message =>
          have same : (st.onTool ids tc).1.msgItemId = st.msgItemId :=
            (shape_tool shape tc).message.trans shape.message.symm
          exact same.trans message
  · refine .inr ⟨i, ?_⟩
    rw [onTool_tools shape, lookup_setEntry]
    split
    · rename_i here
      rcases toolEntry_cases ids st tc with ⟨ts', present, entry⟩ | ⟨absent, -⟩
      · obtain rfl : ts' = ts := Option.some.inj (present.symm.trans (here ▸ found))
        rw [entry] at itemId started
        exact ⟨_, rfl, started isStarted, sameAs_call itemId is⟩
      · rw [here, absent] at found
        cases found
    · exact ⟨ts, found, isStarted, is⟩

/-- No item was closed, and all that was streamed is held. -/
structure Undone (id : Bytes) (ms : List Move) (st : ItemState) (events : List ItemEvent) :
    Prop where
  places : Places ms st
  done : doneItems events = []
  detected : st.thinkDetected = false
  reasoning : reasoningOf events = []
  text : textOf id events = st.accumulatedText
  added : ∀ item ∈ addedItems events, Held st item

theorem Undone.tool {ids : Ids} {ms : List Move} {st : ItemState} {events : List ItemEvent}
    (undone : Undone (ids.item 0) ms st events) (known : KnownTools ms st) (shape : Shape ids st)
    {tc : ToolDelta} (open' : st.textPartStarted = true → (st.updated ids tc).ready = false) :
    Undone (ids.item 0) (ms ++ [.tool tc]) (st.onTool ids tc).1
      (events ++ (st.onTool ids tc).2) := by
  have step := toolStep (ids.item 0) shape tc
  obtain ⟨-, text, -⟩ := onTool_kept shape tc
  have new : doneItems (st.onTool ids tc).2 = [] ∧
      ∀ item ∈ addedItems (st.onTool ids tc).2, Held (st.onTool ids tc).1 item := by
    cases ready : (st.updated ids tc).ready with
    | false =>
        have sums := (onTool_quiet (ids.item 0) ready).2
        refine ⟨sums.done, ?_⟩
        rw [sums.added]
        simp
    | true =>
        obtain ⟨-, sums⟩ := onTool_ready (ids.item 0) shape ready
        have closed : st.textPartStarted = false := by
          by_contra opened
          rw [open' (by simpa using opened)] at ready
          cases ready
        have noMessage : st.closedMessage = [] := by simp [ItemState.closedMessage, closed]
        refine ⟨sums.done.trans noMessage, ?_⟩
        rw [sums.added]
        intro item mem
        obtain rfl := List.mem_singleton.mp mem
        refine .inr ⟨tc.index, st.written ids tc, ?_, ?_, ?_⟩
        · rw [onTool_tools shape, lookup_setEntry_self]
        · simp [ItemState.written, ready]
        · simp [ItemState.written, ready, ToolState.doneItem, ToolState.item, Item.sameAs]
  refine ⟨undone.places.tool known shape tc, ?_, step.detected.trans undone.detected, ?_, ?_, ?_⟩
  · rw [doneItems_append, undone.done, new.1]
    rfl
  · rw [reasoningOf_append, undone.reasoning, step.reasoning]
    rfl
  · rw [textOf_append, undone.text, step.text, text]
    exact List.append_nil _
  · intro item mem
    rw [addedItems_append] at mem
    cases List.mem_append.mp mem with
    | inl old => exact (undone.added item old).tool shape open'
    | inr isNew => exact new.2 item isNew

/-- Text is added to the message. `st'` is `st` but for flags that do not matter. -/
theorem Undone.sendText {ids : Ids} {ms : List Move} {st st' : ItemState}
    {events : List ItemEvent} (undone : Undone (ids.item 0) ms st events) (before : Shape ids st)
    (shape : Shape ids st') (tools : st'.toolStates = st.toolStates)
    (next : st'.nextOutputIndex = st.nextOutputIndex) (plain : st'.thinkDetected = false)
    (sent : st'.accumulatedText = st.accumulatedText) (s : Bytes) :
    Undone (ids.item 0) (ms ++ [.content s]) (st'.sendText s).1
      (events ++ (st'.sendText s).2) := by
  obtain ⟨state, sums⟩ := sendText_sums st' s shape.part
  rw [shape.message] at sums
  rw [state]
  refine ⟨⟨?_, ?_⟩, ?_, plain, ?_, ?_, ?_⟩
  · rw [calls_content, ← undone.places.table, ← tools]
  · rw [calls_content, ← undone.places.next, ← next]
  · rw [doneItems_append, undone.done, sums.done]
    rfl
  · rw [reasoningOf_append, undone.reasoning, sums.reasoning]
    rfl
  · rw [textOf_append, undone.text, sums.text, ← sent]
  · intro item mem
    have message (is : st.messageItem.sameAs item) :
        Held { st' with messageStarted := true, textPartStarted := true,
                        accumulatedText := st'.accumulatedText ++ s } item := by
      refine .inl ⟨rfl, ?_⟩
      cases item with
      | reasoning | functionCall => exact is
      | message => exact (shape.message.trans before.message.symm).trans is
    rw [addedItems_append, sums.added] at mem
    cases List.mem_append.mp mem with
    | inl old =>
        rcases undone.added item old with ⟨-, is⟩ | ⟨i, ts, found, call⟩
        · exact message is
        · exact .inr ⟨i, ts, by rw [← tools] at found; exact found, call⟩
    | inr isNew =>
        unfold ItemState.openedMessage at isNew
        split at isNew
        · cases isNew
        · obtain rfl := List.mem_singleton.mp isNew
          exact message (before.message.trans shape.message.symm)

/-! ## The phases of a stream -/

/-- How many items other than calls were closed. -/
def closedOthers (events : List ItemEvent) : Nat :=
  (doneItems events).countP fun p => !p.2.isCall

/-- Something was closed before the end, or reasoning is left open. -/
def Spoiled (st : ItemState) (events : List ItemEvent) : Prop :=
  1 ≤ closedOthers events ∨
    (st.firstContent = false ∧ st.thinkDetected = true ∧ st.textPartStarted = false)

/-- Before the first content; while its message is open; and after something
    went wrong. -/
inductive Phase (id : Bytes) (ms : List Move) (st : ItemState) (events : List ItemEvent) : Prop
  | silent (undone : Undone id ms st events) (silent : firstContent ms = none)
      (first : st.firstContent = true) (empty : st.accumulatedText = [])
  | writing {before : List Move} {s : Bytes} (undone : Undone id ms st events)
      (begun : firstContent ms = some (before, s)) (text : s.take 7 ≠ lit "<think>")
      (later : st.firstContent = false) (opened : st.textPartStarted = true)
      (place : st.outputIndex = (calls before).length)
      (noCall : ∀ i, Completes ms i → Completes before i)
  | spoiled (spoiled : Spoiled st events) (out : ¬ NothingLeftOut ms)

theorem closedOthers_append (xs ys : List ItemEvent) :
    closedOthers (xs ++ ys) = closedOthers xs + closedOthers ys := by
  simp [closedOthers]

/-- What was left out stays left out. -/
theorem NothingLeftOut.of_append {ms more : List Move} (h : NothingLeftOut (ms ++ more)) :
    NothingLeftOut ms := by
  intro before s begun
  obtain ⟨text, calls⟩ := h before s (firstContent_append begun more)
  exact ⟨text, fun i complete => calls i (complete.append more)⟩

theorem spoiled_content {ids : Ids} {st : ItemState} {events : List ItemEvent}
    (shape : Shape ids st) (spoiled : Spoiled st events) (s : Bytes) :
    Spoiled (st.onContent ids s).1 (events ++ (st.onContent ids s).2) := by
  rcases spoiled with closed | ⟨later, detected, open'⟩
  · refine .inl ?_
    rw [closedOthers_append]
    omega
  · rw [onContent_reason s shape later detected open']
    have one : closedOthers [.done 0 st.reasoningItem] = 1 := rfl
    cases found : cut (lit "</think>") s with
    | none =>
        rw [reason_more st found]
        exact .inr ⟨later, detected, open'⟩
    | some parts =>
        obtain ⟨x, y⟩ := parts
        refine .inl ?_
        have closes : 1 ≤ closedOthers (st.reason s).2 := by
          have closing : closedOthers (st.reasoned x).closeReasoning = 1 := rfl
          cases y with
          | nil =>
              obtain ⟨-, first, same, -⟩ := reason_close [] st found
              rw [same, closedOthers_append, closing]
              omega
          | cons c y =>
              obtain ⟨-, first, same, -⟩ := reason_close_text st (List.cons_ne_nil c y) found
              rw [same, closedOthers_append, closedOthers_append, closing]
              omega
        rw [closedOthers_append]
        omega

theorem spoiled_tool {ids : Ids} {st : ItemState} {events : List ItemEvent}
    (shape : Shape ids st) (spoiled : Spoiled st events) (tc : ToolDelta) :
    Spoiled (st.onTool ids tc).1 (events ++ (st.onTool ids tc).2) := by
  have step := toolStep [] shape tc
  rcases spoiled with closed | ⟨later, detected, open'⟩
  · refine .inl ?_
    rw [closedOthers_append]
    omega
  · exact .inr ⟨step.first.trans later, step.detected.trans detected, step.still open'⟩

theorem phase_content {ids : Ids} {ms : List Move} {st : ItemState} {events : List ItemEvent}
    (shape : Shape ids st) (phase : Phase (ids.item 0) ms st events) (s : Bytes) :
    Phase (ids.item 0) (ms ++ [.content s]) (st.onContent ids s).1
      (events ++ (st.onContent ids s).2) := by
  have complete (i : Value) := completes_content ms i s
  cases phase with
  | silent undone silent first empty =>
      have begun : firstContent (ms ++ [.content s]) = some (ms, s) :=
        firstContent_concat silent (.content s)
      by_cases starts : s.take 7 = lit "<think>"
      · refine .spoiled ?_ fun out => (out ms s begun).1 starts
        rw [onContent_think ids s first starts (tag_length starts)]
        exact .inr ⟨rfl, rfl, (shape.fresh first).1⟩
      · rw [onContent_text ids s first starts]
        have moved : Shape ids
            { st with
              firstContent := false, thinkDetecting := false, thinkBuffer := s,
              outputIndex := st.nextOutputIndex - 1 } :=
          ⟨rfl, shape.part, shape.detected, by simp, shape.message⟩
        have sent := (sendText_sums _ s moved.part).1
        refine .writing (undone.sendText shape moved rfl rfl undone.detected rfl s) begun starts
          ?_ ?_ ?_ fun i => (complete i).mp
        · rw [sent]
        · rw [sent]
        · rw [sent]
          simp [undone.places.next]
  | writing undone begun text later opened place noCall =>
      have sent := (sendText_sums st s shape.part).1
      rw [onContent_open s shape later opened]
      refine .writing (undone.sendText shape shape rfl rfl undone.detected rfl s)
        (firstContent_append begun _) text ?_ ?_ ?_ fun i done => noCall i ((complete i).mp done)
      · rw [sent]
        exact later
      · rw [sent]
      · rw [sent]
        exact place
  | spoiled spoiled out =>
      exact .spoiled (spoiled_content shape spoiled s) fun ok => out ok.of_append

theorem phase_tool {ids : Ids} {ms : List Move} {st : ItemState} {events : List ItemEvent}
    (shape : Shape ids st) (known : KnownTools ms st) (phase : Phase (ids.item 0) ms st events)
    (tc : ToolDelta) :
    Phase (ids.item 0) (ms ++ [.tool tc]) (st.onTool ids tc).1
      (events ++ (st.onTool ids tc).2) := by
  have step := toolStep (ids.item 0) shape tc
  obtain ⟨place', text', -⟩ := onTool_kept shape tc
  cases phase with
  | silent undone silent first empty =>
      have closed := (shape.fresh first).1
      refine .silent (undone.tool known shape fun opened => ?_)
        (firstContent_concat silent (.tool tc)) (step.first.trans first) (text'.trans empty)
      rw [closed] at opened
      cases opened
  | writing undone begun text later opened place noCall =>
      cases ready : (st.updated ids tc).ready with
      | false =>
          exact .writing (undone.tool known shape fun _ => ready) (firstContent_append begun _)
            text (step.first.trans later) (step.stays opened ready) (place'.trans place)
            fun i done => noCall i ((completes_quiet known ready i).mp done)
      | true =>
          obtain ⟨now, was⟩ := (ready_iff ids known tc).mp ready
          refine .spoiled (.inl ?_) fun ok => ?_
          · obtain ⟨-, sums⟩ := onTool_ready (ids.item 0) shape ready
            have one : closedOthers (st.onTool ids tc).2 = 1 := by
              rw [closedOthers, sums.done, ItemState.closedMessage, if_pos opened]
              rfl
            rw [closedOthers_append, one]
            omega
          · obtain ⟨after, rfl⟩ := firstContent_split begun
            have early := (ok _ _ (firstContent_append begun _)).2 _ now
            exact was (early.1.append _)
  | spoiled spoiled out =>
      exact .spoiled (spoiled_tool shape spoiled tc) fun ok => out ok.of_append

/-- Every stream is in one of the phases. -/
theorem run_phase (ids : Ids) (ms : List Move) :
    Phase (ids.item 0) ms (runFrom (ItemState.move ids) (newItemState ids) ms).1
      (runFrom (ItemState.move ids) (newItemState ids) ms).2 := by
  induction ms using List.reverseRecOn with
  | nil => exact .silent ⟨⟨rfl, rfl⟩, rfl, rfl, rfl, rfl, fun _ mem => nomatch mem⟩ rfl rfl rfl
  | append_singleton ms x ih =>
      obtain ⟨shape, known⟩ := run_settled ids ms
      rw [runFrom_concat]
      cases x with
      | content s => exact phase_content shape ih s
      | tool tc => exact phase_tool shape known ih tc

/-! ## The snapshot -/

/-- The closed calls with their places. -/
def callEntries (table : List (Value × ToolState)) : List (Nat × Item) :=
  (startedCalls table).map fun ts => (ts.outputIndex, ts.doneItem)

theorem callEntries_items (table : List (Value × ToolState)) :
    (callEntries table).map Prod.snd = (startedCalls table).map ToolState.doneItem := by
  rw [callEntries, List.map_map]
  rfl

theorem mem_callEntries {table : List (Value × ToolState)} {e : Nat × Item}
    (mem : e ∈ callEntries table) :
    ∃ i ts, (i, ts) ∈ table ∧ ts.started = true ∧ e = (ts.outputIndex, ts.doneItem) := by
  obtain ⟨ts, inStarted, rfl⟩ := List.mem_map.mp mem
  obtain ⟨⟨i, ts⟩, kept, rfl⟩ := List.mem_map.mp inStarted
  obtain ⟨inTable, isStarted⟩ := List.mem_filter.mp kept
  exact ⟨i, ts, inTable, isStarted, rfl⟩

theorem callEntries_perm {order table : List (Value × ToolState)} (perm : order.Perm table) :
    (callEntries order).Perm (callEntries table) :=
  ((perm.filter _).map _).map _

/-- The calls were created in the order of their places. -/
theorem callEntries_strict {ms : List Move} {st : ItemState} (places : Places ms st) :
    (callEntries st.toolStates).Pairwise fun a b => a.1 < b.1 := by
  have indexes : st.toolStates.map (fun e => e.2.outputIndex) =
      List.range' 1 (calls ms).length := by
    have snds := congrArg (List.map Prod.snd) places.table
    rwa [List.map_map, List.zipIdx_map_snd] at snds
  have all : st.toolStates.Pairwise fun a b => a.2.outputIndex < b.2.outputIndex := by
    rw [← List.pairwise_map (f := fun e : Value × ToolState => e.2.outputIndex), indexes]
    exact List.pairwise_lt_range'
  rw [callEntries, startedCalls, List.pairwise_map, List.pairwise_map]
  exact all.filter _

/-- The message that is still open, with its place. -/
theorem close_sums (id : Bytes) {st : ItemState} (plain : st.thinkDetected = false)
    (order : List (Value × ToolState)) :
    Sums id (st.close order).1 [] [] [] (st.closedMessage ++ callEntries order) ∧
      (st.close order).2 = st.closedMessage.map Prod.snd ++
        (startedCalls order).map ToolState.doneItem := by
  have tools := closeTools_sums id (startedCalls order)
  unfold ItemState.close ItemState.closedMessage
  simp only [plain, Bool.false_eq_true, false_and, ↓reduceIte, List.nil_append]
  cases st.textPartStarted with
  | true => exact ⟨(closeMessage_sums id st).append tools, rfl⟩
  | false => exact ⟨tools, rfl⟩

/-- The listing part is all there is to it while nothing was closed. -/
theorem undone_snapshot {id : Bytes} {ms : List Move} {st : ItemState} {events : List ItemEvent}
    (undone : Undone id ms st events)
    (closed : st.textPartStarted = false → st.accumulatedText = [])
    {order : List (Value × ToolState)} (perm : order.Perm st.toolStates) :
    IsSnapshot id (st.close order).2 (events ++ (st.close order).1) ↔
      IsListing (st.close order).2 (st.closedMessage ++ callEntries order) := by
  obtain ⟨sums, output⟩ := close_sums id undone.detected order
  have done : doneItems (events ++ (st.close order).1) = st.closedMessage ++ callEntries order := by
    rw [doneItems_append, undone.done, sums.done]
    rfl
  constructor
  · intro snapshot
    rw [← done]
    exact snapshot.listing
  · intro listing
    refine ⟨by rw [done]; exact listing, ?_, ?_, ?_⟩
    · intro item mem
      rw [addedItems_append, sums.added, List.append_nil] at mem
      rw [output]
      rcases undone.added item mem with ⟨opened, is⟩ | ⟨i, ts, found, isStarted, is⟩
      · exact ⟨st.messageItem, by simp [ItemState.closedMessage, opened], is⟩
      · refine ⟨ts.doneItem, List.mem_append_right _ (List.mem_map_of_mem ?_), is⟩
        have mem : (i, ts) ∈ order := perm.symm.subset (mem_of_lookup_eq_some found)
        exact List.mem_map.mpr ⟨(i, ts), List.mem_filter.mpr ⟨mem, isStarted⟩, rfl⟩
    · have noReasoning : (st.close order).2.flatMap Item.reasoningText = [] := by
        rw [output, List.flatMap_eq_nil_iff]
        intro item mem
        cases List.mem_append.mp mem with
        | inl message =>
            unfold ItemState.closedMessage at message
            split at message
            · obtain rfl := List.mem_singleton.mp message
              rfl
            · cases message
        | inr call =>
            obtain ⟨ts, -, rfl⟩ := List.mem_map.mp call
            rfl
      rw [noReasoning, reasoningOf_append, undone.reasoning, sums.reasoning]
      rfl
    · have noText : ((startedCalls order).map ToolState.doneItem).flatMap Item.messageText = [] := by
        rw [List.flatMap_eq_nil_iff]
        intro item mem
        obtain ⟨ts, -, rfl⟩ := List.mem_map.mp mem
        rfl
      rw [textOf_append, undone.text, sums.text, output, List.flatMap_append, noText,
        List.append_nil, List.append_nil]
      unfold ItemState.closedMessage
      split
      · simp [ItemState.messageItem, Item.messageText]
      · rename_i open'
        rw [closed (by simpa using open')]
        rfl

/-- In the message's place or after it stands a call that was started before
    only if it is the last that was mentioned. -/
theorem place_iff {ms before : List Move} {st : ItemState} (places : Places ms st)
    (known : KnownTools ms st) {s : Bytes} (begun : firstContent ms = some (before, s)) {i : Value}
    {ts : ToolState} (mem : (i, ts) ∈ st.toolStates) (early : Completes before i) :
    (calls before).length ≤ ts.outputIndex ↔ (calls before).getLast? = some i := by
  obtain ⟨after, rfl⟩ := firstContent_split begun
  obtain ⟨rest, split⟩ := calls_append before (.content s :: after)
  have distinct : (calls (before ++ .content s :: after)).Nodup := by
    rw [← places.keys]
    exact known.distinct
  obtain ⟨above, here⟩ := List.mem_zipIdx_iff_le_and_getElem?_sub.mp (places.mem mem)
  have mentioned : i ∈ calls before := (mem_calls before i).mpr early.mentioned
  obtain ⟨p, bound, at'⟩ := List.getElem_of_mem mentioned
  have atAll : (calls (before ++ .content s :: after))[p]? = some i := by
    rw [← split, List.getElem?_append_left bound, List.getElem?_eq_getElem bound, at']
  have same : p = ts.outputIndex - 1 := by
    have inAll := (List.getElem?_eq_some_iff.mp atAll).1
    exact (List.getElem?_inj inAll distinct).mp (atAll.trans here.symm)
  rw [List.getLast?_eq_getElem?]
  constructor
  · intro le
    have last : p = (calls before).length - 1 := by omega
    rw [← last, List.getElem?_eq_getElem bound, at']
  · intro last
    have lastBound := (List.getElem?_eq_some_iff.mp last).1
    have lastAll : (calls (before ++ .content s :: after))[(calls before).length - 1]? = some i := by
      rw [← split, List.getElem?_append_left lastBound, last]
    have inAll := (List.getElem?_eq_some_iff.mp atAll).1
    have index := (List.getElem?_inj inAll distinct).mp (atAll.trans lastAll.symm)
    omega

theorem silent_snapshot_iff {id : Bytes} {ms : List Move} {st : ItemState}
    {events : List ItemEvent} (undone : Undone id ms st events)
    (closed : st.textPartStarted = false) (empty : st.accumulatedText = [])
    {order : List (Value × ToolState)} (perm : order.Perm st.toolStates) :
    IsSnapshot id (st.close order).2 (events ++ (st.close order).1) ↔
      InCreationOrder order st.toolStates := by
  have output := (close_sums id undone.detected order).2
  have noMessage : st.closedMessage = [] := by simp [ItemState.closedMessage, closed]
  rw [undone_snapshot undone (fun _ => empty) perm, output, noMessage, List.nil_append,
    List.map_nil, List.nil_append,
    isListing_iff (callEntries_perm perm) (callEntries_strict undone.places), callEntries_items]
  rfl

theorem writing_snapshot_iff {id : Bytes} {ms before : List Move} {s : Bytes} {st : ItemState}
    {events : List ItemEvent} (undone : Undone id ms st events) (known : KnownTools ms st)
    (begun : firstContent ms = some (before, s)) (opened : st.textPartStarted = true)
    (place : st.outputIndex = (calls before).length)
    (noCall : ∀ i, Completes ms i → Completes before i)
    {order : List (Value × ToolState)} (perm : order.Perm st.toolStates) :
    IsSnapshot id (st.close order).2 (events ++ (st.close order).1) ↔
      (∀ i, Completes ms i → (calls before).getLast? = some i) ∧
        InCreationOrder order st.toolStates := by
  have output := (close_sums id undone.detected order).2
  have message : st.closedMessage = [(st.outputIndex, st.messageItem)] := by
    simp [ItemState.closedMessage, opened]
  have own : st.messageItem ∉ (callEntries order).map Prod.snd := by
    intro mem
    rw [callEntries_items] at mem
    obtain ⟨ts, -, same⟩ := List.mem_map.mp mem
    cases same
  have least : (∀ e ∈ callEntries order, st.outputIndex ≤ e.1) ↔
      ∀ i, Completes ms i → (calls before).getLast? = some i := by
    rw [place]
    constructor
    · intro least i complete
      obtain ⟨ts, found, isStarted⟩ := (known.completes_iff i).mp complete
      have mem := mem_of_lookup_eq_some found
      apply (place_iff undone.places known begun mem (noCall i complete)).mp
      refine least (ts.outputIndex, ts.doneItem) (List.mem_map.mpr ⟨ts, ?_, rfl⟩)
      have inOrder := perm.symm.subset mem
      exact List.mem_map.mpr ⟨(i, ts), List.mem_filter.mpr ⟨inOrder, isStarted⟩, rfl⟩
    · intro last e mem
      obtain ⟨i, ts, inOrder, isStarted, rfl⟩ := mem_callEntries mem
      have inTable := perm.subset inOrder
      have complete : Completes ms i :=
        (known.completes_iff i).mpr ⟨ts, lookup_eq_some_of_mem known.distinct inTable, isStarted⟩
      exact (place_iff undone.places known begun inTable (noCall i complete)).mpr (last i complete)
  rw [undone_snapshot undone (fun closed => by simp [opened] at closed) perm, output, message]
  rw [List.map_cons, List.map_nil, List.singleton_append, List.singleton_append,
    isListing_cons_iff _ own, least,
    isListing_iff (callEntries_perm perm) (callEntries_strict undone.places), callEntries_items]
  rfl

/-- The items other than calls that `stream_end` closes and that it lists. -/
theorem close_others (st : ItemState) (order : List (Value × ToolState)) :
    closedOthers (st.close order).1 =
        (if st.thinkDetected ∧ st.reasoningItemId.isSome ∧ ¬ st.textPartStarted then 1 else 0) +
          (if st.textPartStarted then 1 else 0) ∧
      (st.close order).2.countP (fun item => !item.isCall) =
        if st.textPartStarted then 1 else 0 := by
  have listed : ((startedCalls order).map ToolState.doneItem).countP (fun item => !item.isCall) =
      0 := by
    rw [List.countP_eq_zero]
    intro item mem
    obtain ⟨ts, -, rfl⟩ := List.mem_map.mp mem
    simp [ToolState.doneItem, ToolState.item, Item.isCall]
  have tools : closedOthers ((startedCalls order).flatMap fun ts =>
        [.argumentsDone ts.itemId ts.outputIndex ts.callId ts.name ts.args,
          .done ts.outputIndex (ts.item .completed ts.args)]) = 0 := by
    rw [closedOthers, (closeTools_sums [] (startedCalls order)).done, List.countP_map]
    rw [List.countP_map] at listed
    exact listed
  constructor
  · change closedOthers (_ ++ _ ++ _) = _
    rw [closedOthers_append, closedOthers_append]
    refine (congrArg₂ (· + ·) (congrArg₂ (· + ·) ?_ ?_) tools).trans (Nat.add_zero _)
    · split <;> rfl
    · split <;> rfl
  · change List.countP _ (_ ++ _) = _
    rw [List.countP_append]
    refine (congrArg₂ (· + ·) ?_ listed).trans (Nat.add_zero _)
    split <;> rfl

/-- `stream_end` closes an item that it does not list, or lists one less than
    were closed. -/
theorem spoiled_snapshot {id : Bytes} {ids : Ids} {st : ItemState} {events : List ItemEvent}
    (shape : Shape ids st) (spoiled : Spoiled st events) (order : List (Value × ToolState)) :
    ¬ IsSnapshot id (st.close order).2 (events ++ (st.close order).1) := by
  intro snapshot
  obtain ⟨closes, lists⟩ := close_others st order
  have counts := snapshot.listing.perm.countP_eq fun item => !item.isCall
  have closed : ((doneItems (events ++ (st.close order).1)).map Prod.snd).countP
      (fun item => !item.isCall) = closedOthers events + closedOthers (st.close order).1 := by
    rw [List.countP_map, ← closedOthers_append]
    rfl
  rw [closed, closes, lists] at counts
  rcases spoiled with already | ⟨-, detected, open'⟩
  · omega
  · simp [detected, shape.detected detected, open'] at counts

/-- The final response is a snapshot of the stream exactly when the first content
    opens no reasoning, no call is started from it on and none but the last call
    mentioned before it, and `pairs` gives the calls in the order of their creation. -/
theorem snapshot_iff (rt : Runtime) (ids : Ids) (now : Rat) (model : Option Value)
    {lines : List Bytes} (chunks : ∀ line ∈ lines, IsCountedLine rt line) :
    ∃ st events, streamChunks rt ids now (newStreamState ids model) lines = .ok (st, events) ∧
      ∀ order, order.Perm st.toolStates →
        (EndsInSnapshot (ids.item 0) (events ++ streamEnd now st order) ↔
          NothingLeftOut (moves rt lines) ∧ InCreationOrder order st.toolStates) := by
  obtain ⟨st, events, handled, items, state, none'⟩ := streamChunks_ok rt ids now model chunks
  refine ⟨st, events, handled, fun order perm => ?_⟩
  obtain ⟨shape, known⟩ := run_settled ids (moves rt lines)
  have phase := run_phase ids (moves rt lines)
  rw [← state] at shape known phase
  rw [← items] at phase
  have ends : EndsInSnapshot (ids.item 0) (events ++ streamEnd now st order) ↔
      IsSnapshot (ids.item 0) (st.toItemState.close order).2
        (itemEvents events ++ (st.toItemState.close order).1) := by
    rw [EndsInSnapshot, completedResponses_append, none', List.nil_append,
      completedResponses_streamEnd now shape, itemEvents_append, itemEvents_streamEnd now shape]
    simp [StreamState.response]
  rw [ends]
  cases phase with
  | silent undone silent first empty =>
      rw [silent_snapshot_iff undone (shape.fresh first).1 empty perm]
      have whole : NothingLeftOut (moves rt lines) := fun before s begun => by
        rw [silent] at begun
        cases begun
      exact (and_iff_right whole).symm
  | writing undone begun text later opened place noCall =>
      rw [writing_snapshot_iff undone known begun opened place noCall perm]
      refine and_congr_left fun _ => ⟨fun last before s begun' => ?_, fun whole i complete => ?_⟩
      · rw [begun, Option.some.injEq, Prod.mk.injEq] at begun'
        obtain ⟨rfl, rfl⟩ := begun'
        exact ⟨text, fun i complete => ⟨noCall i complete, last i complete⟩⟩
      · exact ((whole _ _ begun).2 i complete).2
  | spoiled spoiled out =>
      exact iff_of_false (spoiled_snapshot shape spoiled order) fun h => out h.1

theorem hi_snapshot_iff :
    ∃ st events, streamChunks (contentRuntime ["hi"]) sampleIds 0
        (newStreamState sampleIds none) (["hi"].map contentLine) = .ok (st, events) ∧
      ∀ order, order.Perm st.toolStates →
        (EndsInSnapshot (sampleIds.item 0) (events ++ streamEnd 0 st order) ↔
          NothingLeftOut (moves (contentRuntime ["hi"]) (["hi"].map contentLine)) ∧
            InCreationOrder order st.toolStates) :=
  snapshot_iff (contentRuntime ["hi"]) sampleIds 0 none
    (contentLines_counted ["hi"] (by simp only [List.forall_mem_singleton]; decide))

/-- Reasoning is closed by `stream_end` and not listed. -/
theorem reasoning_missing_from_output :
    ¬ ∀ (rt : Runtime) (ids : Ids) (now : Rat) (model : Option Value) (lines : List Bytes),
      (∀ line ∈ lines, IsCountedLine rt line) →
      ∀ st events, streamChunks rt ids now (newStreamState ids model) lines = .ok (st, events) →
        ∀ order, order.Perm st.toolStates →
          EndsInSnapshot (ids.item 0) (events ++ streamEnd now st order) := by
  intro always
  obtain ⟨response, completed, snapshot⟩ := always (contentRuntime ["<think>a"]) sampleIds 0 none _
    (contentLines_counted ["<think>a"] (by simp only [List.forall_mem_singleton]; decide))
    _ _ rfl _ (List.Perm.refl _)
  have listed : response.output = [] := by
    have response' := List.singleton_inj.mp completed.symm
    rw [response']
    rfl
  have lengths := snapshot.listing.perm.length_eq
  rw [listed] at lengths
  exact absurd lengths (by decide)

end E2eeProxy.Responses
