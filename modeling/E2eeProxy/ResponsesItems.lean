import E2eeProxy.Lib.Lifespan
import E2eeProxy.ResponsesSteps

/-! # The items that events name

Every item event names one item. The ids of the items are told apart by the
count of `gen_item_id`, and each step names the items it is about and no other.
-/

namespace E2eeProxy.Responses

open E2eeProxy.Lua E2eeProxy.OpenAi E2eeProxy.Lib

def Item.itemId : Item → Option Bytes
  | .reasoning id .. => id
  | .message id .. | .functionCall id .. => some id

/-- The item an event is about. -/
def ItemEvent.itemId : ItemEvent → Option Bytes
  | .added _ item | .done _ item => item.itemId
  | .contentPartAdded id .. | .contentPartDone id .. | .textDelta id .. | .textDone id ..
  | .argumentsDelta id .. | .argumentsDone id .. => some id
  | .reasoningDelta id .. | .reasoningDone id .. => id

def ItemEvent.outputIndex : ItemEvent → Nat
  | .added i _ | .done i _ | .contentPartAdded _ i _ | .contentPartDone _ i _ _
  | .textDelta _ i _ _ | .textDone _ i _ _ | .reasoningDelta _ i _ | .reasoningDone _ i _
  | .argumentsDelta _ i _ _ | .argumentsDone _ i _ _ _ => i

def ItemEvent.mark : ItemEvent → Mark
  | .added .. => .opens
  | .done .. => .closes
  | _ => .other

/-- What the events say about the item `id`. -/
def marks (id : Option Bytes) (events : List ItemEvent) : List Mark :=
  (events.filter fun e => e.itemId = id).map ItemEvent.mark

@[simp] theorem marks_nil (id : Option Bytes) : marks id [] = [] := rfl

@[simp] theorem marks_append (id : Option Bytes) (xs ys : List ItemEvent) :
    marks id (xs ++ ys) = marks id xs ++ marks id ys := by
  simp [marks]

/-- All the events are about the item `id`. -/
def About (id : Option Bytes) (events : List ItemEvent) : Prop := ∀ e ∈ events, e.itemId = id

theorem About.marks_self {id : Option Bytes} {events : List ItemEvent} (about : About id events) :
    marks id events = events.map ItemEvent.mark := by
  have all : events.filter (fun e => e.itemId = id) = events :=
    List.filter_eq_self.mpr fun e mem => decide_eq_true (about e mem)
  rw [marks, all]

theorem About.marks_other {id other : Option Bytes} {events : List ItemEvent}
    (about : About id events) (differ : other ≠ id) : marks other events = [] := by
  have none' : events.filter (fun e => e.itemId = other) = [] :=
    List.filter_eq_nil_iff.mpr fun e mem own =>
      differ ((of_decide_eq_true own).symm.trans (about e mem))
  rw [marks, none', List.map_nil]

/-! ## Ids are given out once -/

/-- The ids of the items a state knows. -/
def ItemState.itemIds (st : ItemState) : List Bytes :=
  st.msgItemId :: (st.reasoningItemId.toList ++ st.toolStates.map fun e => e.2.itemId)

theorem mem_callIds {st : ItemState} {i : Value} {ts : ToolState}
    (found : st.toolStates.lookup i = some ts) :
    ts.itemId ∈ st.toolStates.map fun e => e.2.itemId :=
  List.mem_map_of_mem (f := fun e : Value × ToolState => e.2.itemId) (mem_of_lookup_eq_some found)

theorem call_mem_itemIds {st : ItemState} {i : Value} {ts : ToolState}
    (found : st.toolStates.lookup i = some ts) : ts.itemId ∈ st.itemIds :=
  List.mem_cons_of_mem _ (List.mem_append_right _ (mem_callIds found))

/-- The items have ids of their own, all of them given out before. -/
structure Numbered (ids : Ids) (st : ItemState) : Prop where
  distinct : st.itemIds.Nodup
  given : ∀ id ∈ st.itemIds, ∃ n < st.nextId, id = ids.item n
  unthought : st.firstContent = true → st.reasoningItemId = none

theorem numbered_new (ids : Ids) : Numbered ids (newItemState ids) := by
  refine ⟨List.nodup_singleton _, ?_, fun _ => rfl⟩
  intro id mem
  obtain rfl := List.mem_singleton.mp mem
  exact ⟨0, Nat.one_pos, rfl⟩

section Numbered

variable {ids : Ids} {st st' : ItemState}

theorem Numbered.message_ne_reasoning (numbered : Numbered ids st) {id : Bytes}
    (reasoning : st.reasoningItemId = some id) : id ≠ st.msgItemId := by
  rintro rfl
  refine (List.nodup_cons.mp numbered.distinct).1 (List.mem_append_left _ ?_)
  rw [reasoning]
  exact List.mem_singleton_self _

theorem Numbered.message_ne_call (numbered : Numbered ids st) {i : Value} {ts : ToolState}
    (found : st.toolStates.lookup i = some ts) : ts.itemId ≠ st.msgItemId := by
  intro same
  refine (List.nodup_cons.mp numbered.distinct).1 (List.mem_append_right _ ?_)
  rw [← same]
  exact mem_callIds found

theorem Numbered.reasoning_ne_call (numbered : Numbered ids st) {id : Bytes}
    (reasoning : st.reasoningItemId = some id) {i : Value} {ts : ToolState}
    (found : st.toolStates.lookup i = some ts) : ts.itemId ≠ id := by
  intro same
  have apart := (List.nodup_append.mp (List.nodup_cons.mp numbered.distinct).2).2.2
  refine apart id ?_ id ?_ rfl
  · rw [reasoning]
    exact List.mem_singleton_self _
  · rw [← same]
    exact mem_callIds found

theorem Numbered.calls_apart (numbered : Numbered ids st) {i j : Value} {ts ts' : ToolState}
    (found : st.toolStates.lookup i = some ts) (found' : st.toolStates.lookup j = some ts')
    (same : ts.itemId = ts'.itemId) : i = j := by
  have distinct := (List.nodup_append.mp (List.nodup_cons.mp numbered.distinct).2).2.1
  have entry := List.inj_on_of_nodup_map distinct (mem_of_lookup_eq_some found)
    (mem_of_lookup_eq_some found') same
  exact congrArg Prod.fst entry

/-- Where ids are given out, nothing else about them changes. -/
theorem Numbered.same (numbered : Numbered ids st) (owners : st'.itemIds = st.itemIds)
    (next : st'.nextId = st.nextId) (later : st'.firstContent = false) : Numbered ids st' := by
  refine ⟨owners ▸ numbered.distinct, ?_, ?_⟩
  · rw [owners, next]
    exact numbered.given
  · intro first
    rw [later] at first
    cases first

variable (fresh : Function.Injective ids.item)
include fresh

theorem Numbered.unused (numbered : Numbered ids st) : ids.item st.nextId ∉ st.itemIds := by
  intro mem
  obtain ⟨n, before, same⟩ := numbered.given _ mem
  have index := fresh same
  omega

theorem Numbered.more (numbered : Numbered ids st)
    (owners : st'.itemIds.Perm (ids.item st.nextId :: st.itemIds))
    (next : st'.nextId = st.nextId + 1)
    (unthought : st'.firstContent = true → st'.reasoningItemId = none) : Numbered ids st' := by
  refine ⟨owners.nodup_iff.mpr ?_, ?_, unthought⟩
  · exact List.nodup_cons.mpr ⟨numbered.unused fresh, numbered.distinct⟩
  · intro id mem
    rw [next]
    rcases List.mem_cons.mp (owners.subset mem) with rfl | old
    · exact ⟨st.nextId, Nat.lt_succ_self _, rfl⟩
    · obtain ⟨n, before, same⟩ := numbered.given id old
      exact ⟨n, Nat.lt_succ_of_lt before, same⟩

end Numbered

theorem sendText_ids (st : ItemState) (s : Bytes) (part : st.messageStarted = st.textPartStarted) :
    (st.sendText s).1.itemIds = st.itemIds ∧ (st.sendText s).1.nextId = st.nextId := by
  rw [(sendText_sums st s part).1]
  exact ⟨rfl, rfl⟩

/-- Only the opening of the reasoning takes a new id. -/
theorem onContent_ids {ids : Ids} {st : ItemState} (shape : Shape ids st) (s : Bytes) :
    ((st.onContent ids s).1.itemIds = st.itemIds ∧ (st.onContent ids s).1.nextId = st.nextId) ∨
      (st.firstContent = true ∧ (st.onContent ids s).1.msgItemId = st.msgItemId ∧
        (st.onContent ids s).1.reasoningItemId = some (ids.item st.nextId) ∧
        (st.onContent ids s).1.toolStates = st.toolStates ∧
        (st.onContent ids s).1.nextId = st.nextId + 1) := by
  rcases onContent_cases shape s with ⟨first, -, same⟩ | ⟨-, -, same⟩ | ⟨-, -, same⟩ |
    ⟨-, -, -, same⟩
  · rw [same]
    exact .inr ⟨first, rfl, rfl, rfl, rfl⟩
  · rw [same]
    exact .inl (sendText_ids _ s shape.part)
  · rw [same, ItemState.write]
    split
    · exact .inl (sendText_ids _ s shape.part)
    · exact .inl (sendText_ids _ s shape.part)
  · rw [same]
    cases found : cut (lit "</think>") s with
    | none =>
        rw [reason_more st found]
        exact .inl ⟨rfl, rfl⟩
    | some parts =>
        obtain ⟨x, y⟩ := parts
        cases y with
        | nil =>
            rw [(reason_close [] st found).1]
            exact .inl ⟨rfl, rfl⟩
        | cons c y =>
            rw [(reason_close_text st (List.cons_ne_nil c y) found).1]
            exact .inl (sendText_ids (st.reasoned x) (c :: y) shape.part)

/-- A tool delta leaves the ids of the other items alone. -/
theorem onTool_ids {ids : Ids} {st : ItemState} (shape : Shape ids st) (tc : ToolDelta) :
    (st.onTool ids tc).1.msgItemId = st.msgItemId ∧
      (st.onTool ids tc).1.reasoningItemId = st.reasoningItemId ∧
      (st.onTool ids tc).1.nextId = (st.toolEntry ids tc).1.nextId := by
  have entered : (st.toolEntry ids tc).1.msgItemId = st.msgItemId ∧
      (st.toolEntry ids tc).1.reasoningItemId = st.reasoningItemId := by
    rcases toolEntry_cases ids st tc with ⟨ts, -, entry⟩ | ⟨-, entry⟩
    · rw [entry]
      exact ⟨rfl, rfl⟩
    · rw [entry]
      exact ⟨rfl, rfl⟩
  cases ready : (st.updated ids tc).ready with
  | true =>
      rw [(onTool_ready [] shape ready).1]
      exact ⟨entered.1, entered.2, rfl⟩
  | false =>
      rw [(onTool_quiet [] ready).1]
      exact ⟨entered.1, entered.2, rfl⟩

/-- The ids of the calls after a tool delta. -/
theorem onTool_callIds {ids : Ids} {st : ItemState} (shape : Shape ids st) (tc : ToolDelta) :
    ((st.toolEntry ids tc).1.nextId = st.nextId ∧
      (st.onTool ids tc).1.toolStates.map (fun e => e.2.itemId) =
        st.toolStates.map fun e => e.2.itemId) ∨
    ((st.toolEntry ids tc).1.nextId = st.nextId + 1 ∧
      (st.onTool ids tc).1.toolStates.map (fun e => e.2.itemId) =
        (st.toolStates.map fun e => e.2.itemId) ++ [ids.item st.nextId]) := by
  have written := (written_entry ids st tc).2.1
  rw [onTool_tools shape]
  rcases toolEntry_cases ids st tc with ⟨ts, found, entry⟩ | ⟨unknown, entry⟩
  · rw [entry] at written ⊢
    have keyed := lookup_mapValue ToolState.itemId tc.index st.toolStates
    rw [found] at keyed
    have same := congrArg (List.map Prod.snd) (setEntry_same keyed)
    refine .inl ⟨rfl, ?_⟩
    rw [← written, ← mapValue_setEntry, List.map_map, List.map_map] at same
    exact same
  · rw [entry] at written ⊢
    refine .inr ⟨rfl, ?_⟩
    rw [setEntry_absent _ unknown, List.map_append]
    exact congrArg (fun id => st.toolStates.map (fun e => e.2.itemId) ++ [id]) written

theorem numbered_content {ids : Ids} {st : ItemState} (fresh : Function.Injective ids.item)
    (shape : Shape ids st) (numbered : Numbered ids st) (s : Bytes) :
    Numbered ids (st.onContent ids s).1 := by
  have later := (settled_content shape s).later
  rcases onContent_ids shape s with ⟨owners, next⟩ | ⟨first, message, reasoning, tools, next⟩
  · exact numbered.same owners next later
  · refine numbered.more fresh ?_ next (by simp [later])
    have unthought := numbered.unthought first
    simp only [ItemState.itemIds, message, reasoning, tools, unthought, Option.toList_some,
      Option.toList_none, List.nil_append, List.singleton_append]
    exact List.Perm.swap _ _ _

theorem numbered_tool {ids : Ids} {st : ItemState} (fresh : Function.Injective ids.item)
    (shape : Shape ids st) (numbered : Numbered ids st) (tc : ToolDelta) :
    Numbered ids (st.onTool ids tc).1 := by
  obtain ⟨message, reasoning, next⟩ := onTool_ids shape tc
  have first := (toolStep [] shape tc).first
  have unthought : (st.onTool ids tc).1.firstContent = true →
      (st.onTool ids tc).1.reasoningItemId = none := by
    rw [first, reasoning]
    exact numbered.unthought
  rcases onTool_callIds shape tc with ⟨same, tools⟩ | ⟨more, tools⟩
  · have owners : (st.onTool ids tc).1.itemIds = st.itemIds := by
      simp only [ItemState.itemIds, message, reasoning, tools]
    refine ⟨owners ▸ numbered.distinct, ?_, unthought⟩
    rw [owners, next, same]
    exact numbered.given
  · refine numbered.more fresh ?_ (next.trans more) unthought
    simp only [ItemState.itemIds, message, reasoning, tools]
    rw [← List.append_assoc, ← List.cons_append]
    exact List.perm_append_singleton _ _

theorem run_numbered {ids : Ids} (fresh : Function.Injective ids.item) (ms : List Move) :
    Numbered ids (runFrom (ItemState.move ids) (newItemState ids) ms).1 := by
  induction ms using List.reverseRecOn with
  | nil => exact numbered_new ids
  | append_singleton ms x ih =>
      obtain ⟨shape, -⟩ := run_settled ids ms
      rw [runFrom_concat]
      cases x with
      | content s => exact numbered_content fresh shape ih s
      | tool tc => exact numbered_tool fresh shape ih tc

/-! ## The events of a step -/

/-- The events that open the message, unless it is open. -/
def ItemState.openMessage (st : ItemState) : List ItemEvent :=
  if st.textPartStarted then []
  else
    [.added st.outputIndex (.message st.msgItemId .inProgress none),
      .contentPartAdded st.msgItemId st.outputIndex st.contentIndex]

theorem sendText_events (st : ItemState) (s : Bytes)
    (part : st.messageStarted = st.textPartStarted) :
    (st.sendText s).2 =
      st.openMessage ++ [.textDelta st.msgItemId st.outputIndex st.contentIndex s] := by
  unfold ItemState.sendText ItemState.ensureTextPartStarted ItemState.ensureMessageStarted
    ItemState.openMessage
  cases opened : st.textPartStarted with
  | true => simp [part.trans opened, opened]
  | false => simp [part.trans opened]

/-- Text after the message was closed adds the message again. -/
theorem onContent_reopens {ids : Ids} {st : ItemState} (shape : Shape ids st) (s : Bytes)
    (later : st.firstContent = false) (plain : st.thinkDetected = false)
    (closed : st.textPartStarted = false) :
    ItemEvent.added (st.nextOutputIndex - 1) (.message st.msgItemId .inProgress none) ∈
      (st.onContent ids s).2 := by
  have notStarted : ¬ st.messageStarted = true := by simp [shape.part, closed]
  rw [onContent_write s shape later (.inl plain), ItemState.write, if_neg notStarted,
    sendText_events { st with outputIndex := st.nextOutputIndex - 1 } s shape.part,
    ItemState.openMessage, if_neg (by simp [closed])]
  exact List.mem_append_left _ List.mem_cons_self

theorem reason_events (st : ItemState) {s x y : Bytes}
    (found : cut (lit "</think>") s = some (x, y)) :
    (st.reason s).2 =
      unlessEmpty (fun s => .reasoningDelta st.reasoningItemId 0 s) x ++
        (st.reasoned x).closeReasoning ++
        (if y = [] then [] else ((st.reasoned x).sendText y).2) := by
  unfold ItemState.reason
  rw [found]
  cases x with
  | nil =>
      cases y with
      | nil => simp [unlessEmpty, ItemState.closeReasoning, ItemState.reasoned]
      | cons d y => simp [unlessEmpty, ItemState.closeReasoning, ItemState.reasoned]
  | cons c x =>
      cases y with
      | nil =>
          simp [unlessEmpty, ItemState.closeReasoning, ItemState.reasoned, ItemState.sendReasoning]
      | cons d y =>
          simp [unlessEmpty, ItemState.closeReasoning, ItemState.reasoned, ItemState.sendReasoning]

theorem onTool_events {ids : Ids} {st : ItemState} {tc : ToolDelta}
    (ready : (st.updated ids tc).ready = true) :
    (st.onTool ids tc).2 =
      (if st.textPartStarted then st.closeMessage else []) ++ (st.updated ids tc).opening := by
  have isReady : ((st.toolEntry ids tc).2.update tc).ready = true := ready
  have entered : (st.toolEntry ids tc).1.closeForTool.2 =
      if st.textPartStarted then st.closeMessage else [] := by
    unfold ItemState.closeForTool
    rcases toolEntry_cases ids st tc with ⟨ts, -, entry⟩ | ⟨-, entry⟩
    · rw [entry]
      split <;> rfl
    · rw [entry]
      dsimp only
      split <;> rfl
  simp only [ItemState.onTool, isReady, ↓reduceIte, entered, ItemState.updated]

/-- While a call is not started by it, a delta adds to the arguments of a started call. -/
theorem onTool_events_quiet {ids : Ids} {st : ItemState} {tc : ToolDelta}
    (notReady : (st.updated ids tc).ready = false) :
    (st.onTool ids tc).2 =
      if (st.updated ids tc).started then
        tc.arguments.toList.map fun arguments =>
          .argumentsDelta (st.updated ids tc).itemId (st.updated ids tc).outputIndex
            (st.updated ids tc).callId arguments
      else [] := by
  have silent : ((st.toolEntry ids tc).2.update tc).ready = false := notReady
  simp only [ItemState.onTool, silent, Bool.false_eq_true, ↓reduceIte]
  rfl

/-! ## What the events of a step are about -/

/-- All the events are about the item `id` and have the number `k`. -/
def AtIndex (id : Option Bytes) (k : Nat) (events : List ItemEvent) : Prop :=
  ∀ e ∈ events, e.itemId = id ∧ e.outputIndex = k

theorem AtIndex.about {id : Option Bytes} {k : Nat} {events : List ItemEvent}
    (at' : AtIndex id k events) : About id events := fun e mem => (at' e mem).1

theorem AtIndex.append {id : Option Bytes} {k : Nat} {xs ys : List ItemEvent}
    (hx : AtIndex id k xs) (hy : AtIndex id k ys) : AtIndex id k (xs ++ ys) := by
  intro e mem
  cases List.mem_append.mp mem with
  | inl old => exact hx e old
  | inr new => exact hy e new

theorem AtIndex.cons {id : Option Bytes} {k : Nat} {e : ItemEvent} {es : List ItemEvent}
    (own : e.itemId = id) (index : e.outputIndex = k) (rest : AtIndex id k es) :
    AtIndex id k (e :: es) := by
  intro e' mem
  rcases List.mem_cons.mp mem with rfl | later
  · exact ⟨own, index⟩
  · exact rest e' later

theorem AtIndex.nil (id : Option Bytes) (k : Nat) : AtIndex id k [] := nofun

theorem AtIndex.unlessEmpty {id : Option Bytes} {k : Nat} {event : Bytes → ItemEvent}
    (own : ∀ s, (event s).itemId = id) (index : ∀ s, (event s).outputIndex = k) (s : Bytes) :
    AtIndex id k (unlessEmpty event s) := by
  unfold OpenAi.unlessEmpty
  split
  · exact .nil id k
  · exact .cons (own s) (index s) (.nil id k)

theorem sendText_at (st : ItemState) (s : Bytes) (part : st.messageStarted = st.textPartStarted) :
    AtIndex (some st.msgItemId) st.outputIndex (st.sendText s).2 := by
  rw [sendText_events st s part, ItemState.openMessage]
  split
  · exact .cons rfl rfl (.nil _ _)
  · exact .cons rfl rfl (.cons rfl rfl (.cons rfl rfl (.nil _ _)))

theorem closeMessage_at (st : ItemState) :
    AtIndex (some st.msgItemId) st.outputIndex st.closeMessage :=
  .cons rfl rfl (.cons rfl rfl (.cons rfl rfl (.nil _ _)))

theorem closeReasoning_at (st : ItemState) : AtIndex st.reasoningItemId 0 st.closeReasoning :=
  .cons rfl rfl (.cons rfl rfl (.nil _ _))

/-- The last of the reasoning, and its end. -/
theorem closing_at (st : ItemState) (x : Bytes) :
    AtIndex st.reasoningItemId 0
      (unlessEmpty (fun s => .reasoningDelta st.reasoningItemId 0 s) x ++
        (st.reasoned x).closeReasoning) :=
  .append (.unlessEmpty (fun _ => rfl) (fun _ => rfl) x) (closeReasoning_at (st.reasoned x))

theorem openReasoning_at (ids : Ids) (st : ItemState) (after : Bytes) :
    AtIndex (some (ids.item st.nextId)) st.outputIndex (st.openReasoning ids after).2 :=
  .cons rfl rfl (.unlessEmpty (fun _ => rfl) (fun _ => rfl) after)

theorem opening_at (ts : ToolState) : AtIndex (some ts.itemId) ts.outputIndex ts.opening :=
  .cons rfl rfl (.unlessEmpty (fun _ => rfl) (fun _ => rfl) ts.args)

theorem onTool_at_quiet {ids : Ids} {st : ItemState} {tc : ToolDelta}
    (notReady : (st.updated ids tc).ready = false) :
    AtIndex (some (st.updated ids tc).itemId) (st.updated ids tc).outputIndex
      (st.onTool ids tc).2 := by
  rw [onTool_events_quiet notReady]
  split
  · intro e mem
    obtain ⟨arguments, -, rfl⟩ := List.mem_map.mp mem
    exact ⟨rfl, rfl⟩
  · exact .nil _ _

end E2eeProxy.Responses
