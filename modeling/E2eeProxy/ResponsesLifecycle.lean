import E2eeProxy.ResponsesItems
import E2eeProxy.ResponsesThinking

/-! # Does every item live once?

Every item should be added once, be filled and be done once. Which item is open
is read off flags that a tool call resets: a message that it closed is added
again by the next text, and reasoning that was closed is closed again where no
text part is open.
-/

namespace E2eeProxy.Responses

open E2eeProxy.Lua E2eeProxy.OpenAi E2eeProxy.Lib

/-- The stream is created first and completed last, and in between every item
    is added once, then named, then done once. -/
def LifeCycle (events : List Event) : Prop :=
  ∃ created completed items,
    events.map Event.payload = .created created :: items.map .item ++ [.completed completed] ∧
      ∀ id, OneLife (marks id items)

theorem LifeCycle.lives {events : List Event} (cycle : LifeCycle events) (id : Option Bytes) :
    OneLife (marks id (itemEvents events)) := by
  obtain ⟨created, completed, items, same, lives⟩ := cycle
  have own : itemEvents events = items := by
    rw [itemEvents_eq, same, List.cons_append, List.filterMap_cons_none rfl,
      List.filterMap_append, item_payloads]
    exact List.append_nil items
  rw [own]
  exact lives id

/-- No text comes after a call that was started since the text began. -/
def TextUnbroken (before : List Move) (s : Bytes) (ms : List Move) : Prop :=
  ∀ mid t after, ms = before ++ .content s :: mid ++ .content t :: after →
    ∀ i, Completes (before ++ .content s :: mid) i → Completes before i

/-- The first delta with the closing tag has text behind it, and no call is
    started from it on. -/
def ReasoningLeft (before : List Move) (s : Bytes) (ms : List Move) : Prop :=
  ∀ mid last after x y, ms = before ++ .content s :: mid ++ .content last :: after →
    (∀ piece ∈ contents mid, cut (lit "</think>") piece = none) →
      cut (lit "</think>") last = some (x, y) → TextThenNoCall y (before ++ .content s :: mid) ms

/-- No item is opened or closed twice. -/
def NothingReopened (ms : List Move) : Prop :=
  ∀ before s, firstContent ms = some (before, s) →
    (s.take 7 ≠ lit "<think>" → TextUnbroken before s ms) ∧
      (s.take 7 = lit "<think>" → ReasoningLeft before s ms)

theorem nothingReopened_text {ms before : List Move} {s : Bytes}
    (begun : firstContent ms = some (before, s)) (text : s.take 7 ≠ lit "<think>") :
    NothingReopened ms ↔ TextUnbroken before s ms := by
  constructor
  · exact fun kept => (kept before s begun).1 text
  · intro whole before' s' begun'
    obtain ⟨rfl, rfl⟩ := Prod.mk.inj (Option.some.inj (begun.symm.trans begun'))
    exact ⟨fun _ => whole, fun starts => absurd starts text⟩

theorem nothingReopened_reasoning {ms before : List Move} {s : Bytes}
    (begun : firstContent ms = some (before, s)) (starts : s.take 7 = lit "<think>") :
    NothingReopened ms ↔ ReasoningLeft before s ms := by
  constructor
  · exact fun kept => (kept before s begun).2 starts
  · intro left before' s' begun'
    obtain ⟨rfl, rfl⟩ := Prod.mk.inj (Option.some.inj (begun.symm.trans begun'))
    exact ⟨fun text => absurd starts text, fun _ => left⟩

theorem TextUnbroken.of_append {before : List Move} {s : Bytes} {ms more : List Move}
    (h : TextUnbroken before s (ms ++ more)) : TextUnbroken before s ms := by
  intro mid t after split
  exact h mid t (after ++ more) (by rw [split]; simp)

theorem NothingReopened.of_append {ms more : List Move} (h : NothingReopened (ms ++ more)) :
    NothingReopened ms := by
  intro before s begun
  obtain ⟨text, reasoning⟩ := h before s (firstContent_append begun more)
  constructor
  · exact fun plain => (text plain).of_append
  · intro starts mid last after x y split open' found
    obtain ⟨rest, noCall⟩ :=
      reasoning starts mid last (after ++ more) x y (by rw [split]; simp) open' found
    exact ⟨rest, fun i complete => noCall i (complete.append more)⟩

/-- A content delta is not in a tool delta at the end. -/
theorem split_tool {ms before after : List Move} {t : Bytes} {tc : ToolDelta}
    (split : ms ++ [.tool tc] = before ++ .content t :: after) :
    ∃ after', ms = before ++ .content t :: after' := by
  cases after using List.reverseRecOn with
  | nil =>
      have last := (List.append_inj' split rfl).2
      cases last
  | append_singleton after x =>
      rw [← List.cons_append, ← List.append_assoc] at split
      exact ⟨after, (List.append_inj' split rfl).1⟩

/-- A tool delta is no text. -/
theorem TextUnbroken.tool {before : List Move} {s : Bytes} {ms : List Move}
    (whole : TextUnbroken before s ms) (tc : ToolDelta) :
    TextUnbroken before s (ms ++ [.tool tc]) := by
  intro mid t after split
  obtain ⟨after', same⟩ := split_tool split
  exact whole mid t after' same

/-- There is one first delta with the closing tag. -/
theorem first_closing_unique {mid mid' after after' : List Move} {last last' x y x' y' : Bytes}
    (same : mid ++ .content last :: after = mid' ++ .content last' :: after')
    (open' : ∀ piece ∈ contents mid, cut (lit "</think>") piece = none)
    (open'' : ∀ piece ∈ contents mid', cut (lit "</think>") piece = none)
    (found : cut (lit "</think>") last = some (x, y))
    (found' : cut (lit "</think>") last' = some (x', y')) : mid = mid' ∧ last = last' := by
  rcases List.append_eq_append_iff.mp same with ⟨more, rfl, rest⟩ | ⟨more, rfl, rest⟩
  · cases more with
    | nil =>
        rw [List.nil_append, List.cons.injEq, Move.content.injEq] at rest
        exact ⟨(List.append_nil mid).symm, rest.1⟩
    | cons move more =>
        rw [List.cons_append, List.cons.injEq] at rest
        have earlier := open'' last (by simp [contents, ← rest.1])
        rw [found] at earlier
        cases earlier
  · cases more with
    | nil =>
        rw [List.nil_append, List.cons.injEq, Move.content.injEq] at rest
        exact ⟨List.append_nil mid', rest.1.symm⟩
    | cons move more =>
        rw [List.cons_append, List.cons.injEq] at rest
        have earlier := open' last' (by simp [contents, ← rest.1])
        rw [found'] at earlier
        cases earlier

/-- Without a closing tag there is nothing to leave. -/
theorem ReasoningLeft.of_open {before rest : List Move} {s : Bytes}
    (open' : ∀ piece ∈ contents rest, cut (lit "</think>") piece = none) :
    ReasoningLeft before s (before ++ .content s :: rest) := by
  intro mid last after x y split _ found
  rw [List.append_assoc, List.append_cancel_left_eq, List.cons_append, List.cons.injEq] at split
  have cutNone := open' last (by rw [split.2]; simp [contents])
  rw [found] at cutNone
  cases cutNone

/-- The closing tag that comes first is the one to look at. -/
theorem ReasoningLeft.of_closing {before mid after : List Move} {s last x y : Bytes}
    (open' : ∀ piece ∈ contents mid, cut (lit "</think>") piece = none)
    (found : cut (lit "</think>") last = some (x, y))
    (text : TextThenNoCall y (before ++ .content s :: mid)
      (before ++ .content s :: mid ++ .content last :: after)) :
    ReasoningLeft before s (before ++ .content s :: mid ++ .content last :: after) := by
  intro mid' last' after' x' y' split open'' found'
  rw [List.append_assoc, List.append_assoc, List.append_cancel_left_eq, List.cons_append,
    List.cons_append, List.cons.injEq] at split
  obtain ⟨rfl, rfl⟩ := first_closing_unique split.2 open' open'' found found'
  obtain ⟨-, rfl⟩ := Prod.mk.inj (Option.some.inj (found.symm.trans found'))
  exact text

/-! ## The stages of the items -/

def stageOf (id : Option Bytes) (events : List ItemEvent) : Option Stage :=
  Stage.unborn.follow (marks id events)

section Stages

variable {id own : Option Bytes} {xs ys : List ItemEvent}

theorem stageOf_append (id : Option Bytes) (xs ys : List ItemEvent) :
    stageOf id (xs ++ ys) = (stageOf id xs).bind fun a => a.follow (marks id ys) := by
  rw [stageOf, marks_append, Stage.follow_append]
  rfl

theorem stageOf_self {a : Stage} (before : stageOf id xs = some a) (about : About id ys) :
    stageOf id (xs ++ ys) = a.follow (ys.map ItemEvent.mark) := by
  rw [stageOf_append, before, about.marks_self]
  rfl

theorem stageOf_other (xs : List ItemEvent) (about : About own ys) (differ : id ≠ own) :
    stageOf id (xs ++ ys) = stageOf id xs := by
  rw [stageOf_append, about.marks_other differ]
  cases stageOf id xs <;> rfl

theorem stageOf_broken (broken : stageOf id xs = none) (ys : List ItemEvent) :
    stageOf id (xs ++ ys) = none := by
  rw [stageOf_append, broken]
  rfl

end Stages

/-- The stages of the message and of the reasoning, a call that is live once it is
    started, and nothing of any other item. -/
structure Roster (st : ItemState) (events : List ItemEvent) (message reasoning : Stage) : Prop where
  message : stageOf (some st.msgItemId) events = some message
  reasoning : ∀ id, st.reasoningItemId = some id → stageOf (some id) events = some reasoning
  calls : ∀ i ts, st.toolStates.lookup i = some ts →
    stageOf (some ts.itemId) events = some (if ts.started then .live else .unborn)
  others : ∀ id, (∀ own ∈ st.itemIds, id ≠ some own) → stageOf id events = some .unborn

section Roster

variable {ids : Ids} {st st' : ItemState} {events new : List ItemEvent} {m m' r r' : Stage}

/-- Events about the message. -/
theorem Roster.ofMessage (roster : Roster st events m r) (numbered : Numbered ids st)
    (about : About (some st.msgItemId) new) (moved : m.follow (new.map ItemEvent.mark) = some m')
    (message : st'.msgItemId = st.msgItemId) (reasoning : st'.reasoningItemId = st.reasoningItemId)
    (tools : st'.toolStates = st.toolStates) : Roster st' (events ++ new) m' r := by
  constructor
  · rw [message, stageOf_self roster.message about, moved]
  · intro id is
    rw [reasoning] at is
    have differ := numbered.message_ne_reasoning is
    rw [stageOf_other events about (by simpa using differ)]
    exact roster.reasoning id is
  · intro i ts found
    rw [tools] at found
    have differ := numbered.message_ne_call found
    rw [stageOf_other events about (by simpa using differ)]
    exact roster.calls i ts found
  · intro id apart
    simp only [ItemState.itemIds, message, reasoning, tools] at apart
    rw [stageOf_other events about (apart _ List.mem_cons_self)]
    exact roster.others id apart

/-- Events about the reasoning. -/
theorem Roster.ofReasoning (roster : Roster st events m r) (numbered : Numbered ids st)
    {own : Bytes} (is : st.reasoningItemId = some own)
    (about : About (some own) new) (moved : r.follow (new.map ItemEvent.mark) = some r')
    (message : st'.msgItemId = st.msgItemId) (reasoning : st'.reasoningItemId = st.reasoningItemId)
    (tools : st'.toolStates = st.toolStates) : Roster st' (events ++ new) m r' := by
  constructor
  · have differ := (numbered.message_ne_reasoning is).symm
    rw [message, stageOf_other events about (by simpa using differ)]
    exact roster.message
  · intro id is'
    rw [reasoning, is, Option.some.injEq] at is'
    subst is'
    rw [stageOf_self (roster.reasoning _ is) about, moved]
  · intro i ts found
    rw [tools] at found
    have differ := numbered.reasoning_ne_call is found
    rw [stageOf_other events about (by simpa using differ)]
    exact roster.calls i ts found
  · intro id apart
    simp only [ItemState.itemIds, message, reasoning, tools] at apart
    have differ : id ≠ some own := apart own (by simp [is])
    rw [stageOf_other events about differ]
    exact roster.others id apart

/-- Events about one call, whose entry is written. -/
theorem Roster.ofCall (roster : Roster st events m r) (numbered' : Numbered ids st') {idx : Value} {ts : ToolState}
    (message : st'.msgItemId = st.msgItemId) (reasoning : st'.reasoningItemId = st.reasoningItemId)
    (tools : st'.toolStates = setEntry idx ts st.toolStates)
    (kept : ∀ id ∈ st.itemIds, id ∈ st'.itemIds)
    (before : stageOf (some ts.itemId) events =
      some (if ((st.toolStates.lookup idx).map ToolState.started) = some true then .live
        else .unborn))
    (about : About (some ts.itemId) new)
    (moved : Stage.follow (if ((st.toolStates.lookup idx).map ToolState.started) = some true
        then .live else .unborn) (new.map ItemEvent.mark) =
      some (if ts.started then .live else .unborn)) : Roster st' (events ++ new) m r := by
  have found : st'.toolStates.lookup idx = some ts := by rw [tools, lookup_setEntry_self]
  constructor
  · have differ := (numbered'.message_ne_call found).symm
    rw [message] at differ
    rw [message, stageOf_other events about (by simpa using differ)]
    exact roster.message
  · intro id is
    have differ := (numbered'.reasoning_ne_call is found).symm
    rw [reasoning] at is
    rw [stageOf_other events about (by simpa using differ)]
    exact roster.reasoning id is
  · intro i ts' found'
    by_cases here : i = idx
    · subst here
      obtain rfl := Option.some.inj (found.symm.trans found')
      rw [stageOf_self before about, moved]
    · have differ : ts'.itemId ≠ ts.itemId := fun same =>
        here (numbered'.calls_apart found' found same)
      rw [tools, lookup_setEntry, if_neg here] at found'
      rw [stageOf_other events about (by simpa using differ)]
      exact roster.calls i ts' found'
  · intro id apart
    have mem : ts.itemId ∈ st'.itemIds := call_mem_itemIds found
    rw [stageOf_other events about (apart _ mem)]
    exact roster.others id fun own mem => apart own (kept own mem)

end Roster

/-! ## The stages after a tool delta -/

section Tool

variable {ids : Ids} {st : ItemState} {events : List ItemEvent} {m r : Stage}

theorem opening_live (ts : ToolState) :
    Stage.unborn.follow (ts.opening.map ItemEvent.mark) = some .live := by
  unfold ToolState.opening unlessEmpty
  split <;> rfl

theorem itemIds_kept {ids : Ids} {st : ItemState} (shape : Shape ids st) (tc : ToolDelta) :
    ∀ id ∈ st.itemIds, id ∈ (st.onTool ids tc).1.itemIds := by
  obtain ⟨message, reasoning, -⟩ := onTool_ids shape tc
  intro id mem
  unfold ItemState.itemIds at mem ⊢
  rw [message, reasoning]
  rcases onTool_callIds shape tc with ⟨-, tools⟩ | ⟨-, tools⟩
  · rw [tools]
    exact mem
  · rw [tools, ← List.append_assoc, ← List.cons_append]
    exact List.mem_append_left _ mem

/-- The stage of a call before its delta. -/
theorem Roster.entry (fresh : Function.Injective ids.item) (roster : Roster st events m r)
    (numbered : Numbered ids st) (tc : ToolDelta) :
    stageOf (some (st.written ids tc).itemId) events =
      some (if (st.toolStates.lookup tc.index).map ToolState.started = some true then .live
        else .unborn) := by
  have written := (written_entry ids st tc).2.1
  rcases toolEntry_cases ids st tc with ⟨ts, found, entry⟩ | ⟨unknown, entry⟩
  · rw [written, entry, found]
    simpa using roster.calls _ ts found
  · rw [written, entry, unknown]
    refine roster.others _ fun own mem same => numbered.unused fresh ?_
    rw [show ids.item st.nextId = own from Option.some.inj same]
    exact mem

theorem Roster.tool (fresh : Function.Injective ids.item) (roster : Roster st events m r)
    (numbered : Numbered ids st) (shape : Shape ids st) {tc : ToolDelta} {new : List ItemEvent}
    (about : About (some (st.written ids tc).itemId) new)
    (moved : Stage.follow (if (st.toolStates.lookup tc.index).map ToolState.started = some true
        then .live else .unborn) (new.map ItemEvent.mark) =
      some (if (st.written ids tc).started then .live else .unborn)) :
    Roster (st.onTool ids tc).1 (events ++ new) m r := by
  obtain ⟨message, reasoning, -⟩ := onTool_ids shape tc
  exact roster.ofCall (numbered_tool fresh shape numbered tc) message reasoning
    (onTool_tools shape tc) (itemIds_kept shape tc) (roster.entry fresh numbered tc) about moved

/-- The entry that is brought up to date was started if it was before. -/
theorem updated_started_eq (ids : Ids) (st : ItemState) (tc : ToolDelta) :
    (st.updated ids tc).started = true ↔
      (st.toolStates.lookup tc.index).map ToolState.started = some true := by
  unfold ItemState.updated
  rcases toolEntry_cases ids st tc with ⟨ts, found, entry⟩ | ⟨unknown, entry⟩
  · rw [entry, found]
    simp [ToolState.update]
  · rw [entry, unknown]
    simp [ToolState.update, ToolState.create]

theorem Roster.toolQuiet (fresh : Function.Injective ids.item) (roster : Roster st events m r)
    (numbered : Numbered ids st) (shape : Shape ids st) {tc : ToolDelta}
    (notReady : (st.updated ids tc).ready = false) :
    Roster (st.onTool ids tc).1 (events ++ (st.onTool ids tc).2) m r := by
  have written : st.written ids tc = st.updated ids tc := by
    unfold ItemState.written
    rw [notReady]
    rfl
  have started := updated_started_eq ids st tc
  refine roster.tool fresh numbered shape ?_ ?_
  · rw [written]
    exact (onTool_at_quiet notReady).about
  · rw [written, onTool_events_quiet notReady]
    simp only [← started]
    split
    · refine Stage.follow_live fun mark mem => ?_
      obtain ⟨e, inNew, rfl⟩ := List.mem_map.mp mem
      obtain ⟨arguments, -, rfl⟩ := List.mem_map.mp inNew
      rfl
    · rfl

theorem Roster.toolReady (fresh : Function.Injective ids.item) (roster : Roster st events m r)
    (numbered : Numbered ids st) (shape : Shape ids st) {tc : ToolDelta}
    (ready : (st.updated ids tc).ready = true) :
    Roster (st.onTool ids tc).1 (events ++ (st.updated ids tc).opening) m r := by
  have written : st.written ids tc = { st.updated ids tc with started := true } := by
    unfold ItemState.written
    rw [ready]
    rfl
  have notStarted : ¬ (st.updated ids tc).started = true := by
    simp only [ToolState.ready, Bool.and_eq_true, Bool.not_eq_true'] at ready
    simp [ready.1.1]
  refine roster.tool fresh numbered shape ?_ ?_
  · rw [written]
    exact (opening_at (st.updated ids tc)).about
  · rw [written, if_neg (mt (updated_started_eq ids st tc).mpr notStarted)]
    exact opening_live (st.updated ids tc)

/-- While no message is open a tool delta is about its call alone. -/
theorem Roster.toolAlone (fresh : Function.Injective ids.item) (roster : Roster st events m r)
    (numbered : Numbered ids st) (shape : Shape ids st) (tc : ToolDelta)
    (closed : st.textPartStarted = false) :
    Roster (st.onTool ids tc).1 (events ++ (st.onTool ids tc).2) m r := by
  cases ready : (st.updated ids tc).ready with
  | false => exact roster.toolQuiet fresh numbered shape ready
  | true =>
      rw [onTool_events ready, if_neg (by simp [closed]), List.nil_append]
      exact roster.toolReady fresh numbered shape ready

/-- The start of a call ends the message that is open. -/
theorem Roster.toolCloses (fresh : Function.Injective ids.item)
    (roster : Roster st events .live r) (numbered : Numbered ids st) (shape : Shape ids st)
    {tc : ToolDelta} (ready : (st.updated ids tc).ready = true)
    (opened : st.textPartStarted = true) :
    Roster (st.onTool ids tc).1 (events ++ (st.onTool ids tc).2) .over r := by
  have closed : Roster st (events ++ st.closeMessage) .over r :=
    roster.ofMessage numbered ((closeMessage_at st).about) rfl rfl rfl rfl
  rw [onTool_events ready, if_pos opened, ← List.append_assoc]
  exact closed.toolReady fresh numbered shape ready

end Tool

/-! ## The stages after a content delta -/

section Content

variable {ids : Ids} {st : ItemState} {events : List ItemEvent} {m r : Stage}

/-- `st'` is `st` but for flags that do not matter. -/
theorem Roster.sendText (st' : ItemState)
    (roster : Roster st events (if st'.textPartStarted then .live else .unborn) r)
    (numbered : Numbered ids st) (part : st'.messageStarted = st'.textPartStarted)
    (message : st'.msgItemId = st.msgItemId) (reasoning : st'.reasoningItemId = st.reasoningItemId)
    (tools : st'.toolStates = st.toolStates) (s : Bytes) :
    Roster (st'.sendText s).1 (events ++ (st'.sendText s).2) .live r := by
  have about := (sendText_at st' s part).about
  rw [message] at about
  have moved : Stage.follow (if st'.textPartStarted then .live else .unborn)
      ((st'.sendText s).2.map ItemEvent.mark) = some .live := by
    rw [sendText_events st' s part, ItemState.openMessage]
    split <;> rfl
  have state := (sendText_sums st' s part).1
  exact roster.ofMessage numbered about moved (by rw [state]; exact message)
    (by rw [state]; exact reasoning) (by rw [state]; exact tools)

/-- Text goes on in the open message. -/
theorem Roster.write (roster : Roster st events .live r) (numbered : Numbered ids st)
    (shape : Shape ids st) (later : st.firstContent = false) (opened : st.textPartStarted = true)
    (s : Bytes) : Roster (st.onContent ids s).1 (events ++ (st.onContent ids s).2) .live r := by
  rw [onContent_open s shape later opened]
  refine Roster.sendText st ?_ numbered shape.part rfl rfl rfl s
  rw [opened]
  exact roster

theorem write_flags (shape : Shape ids st) (later : st.firstContent = false)
    (opened : st.textPartStarted = true) (s : Bytes) :
    (st.onContent ids s).1.firstContent = false ∧
      (st.onContent ids s).1.thinkDetected = st.thinkDetected ∧
      (st.onContent ids s).1.textPartStarted = true := by
  rw [onContent_open s shape later opened, (sendText_sums st s shape.part).1]
  exact ⟨later, rfl, rfl⟩

/-- The reasoning is opened with an id of its own. -/
theorem Roster.openReasoning (st' : ItemState) (fresh : Function.Injective ids.item)
    (roster : Roster st events m .unborn) (numbered : Numbered ids st)
    (none' : st.reasoningItemId = none) (message : st'.msgItemId = st.msgItemId)
    (next : st'.nextId = st.nextId) (tools : st'.toolStates = st.toolStates) (after : Bytes) :
    Roster (st'.openReasoning ids after).1 (events ++ (st'.openReasoning ids after).2) m .live := by
  have about := (openReasoning_at ids st' after).about
  rw [next] at about
  have unused := numbered.unused fresh
  have moved : Stage.unborn.follow ((st'.openReasoning ids after).2.map ItemEvent.mark) =
      some .live := by
    unfold ItemState.openReasoning unlessEmpty
    dsimp only
    split <;> rfl
  have before : stageOf (some (ids.item st.nextId)) events = some .unborn := by
    refine roster.others _ fun own mem same => unused ?_
    rw [show ids.item st.nextId = own from Option.some.inj same]
    exact mem
  constructor
  · have differ : st.msgItemId ≠ ids.item st.nextId := fun same =>
      unused (same ▸ List.mem_cons_self)
    rw [show (st'.openReasoning ids after).1.msgItemId = st.msgItemId from message,
      stageOf_other events about (by simpa using differ)]
    exact roster.message
  · intro id is
    have own : id = ids.item st.nextId := by
      rw [← next]
      exact (Option.some.inj is).symm
    rw [own, stageOf_self before about, moved]
  · intro i ts found
    rw [show (st'.openReasoning ids after).1.toolStates = st.toolStates from tools] at found
    have differ : ts.itemId ≠ ids.item st.nextId := by
      intro same
      exact unused (same ▸ call_mem_itemIds found)
    rw [stageOf_other events about (by simpa using differ)]
    exact roster.calls i ts found
  · intro id apart
    have owners : (st'.openReasoning ids after).1.itemIds =
        st.msgItemId :: ids.item st.nextId :: st.toolStates.map fun e => e.2.itemId := by
      rw [← message, ← next, ← tools]
      rfl
    rw [owners] at apart
    rw [stageOf_other events about (apart _ (by simp))]
    refine roster.others id fun own mem => apart own ?_
    rw [ItemState.itemIds, none'] at mem
    rcases List.mem_cons.mp mem with rfl | call
    · exact List.mem_cons_self
    · exact List.mem_cons_of_mem _ (List.mem_cons_of_mem _ call)

theorem Roster.sendReasoning (roster : Roster st events m .live) (numbered : Numbered ids st)
    {own : Bytes} (is : st.reasoningItemId = some own) (s : Bytes) :
    Roster (st.sendReasoning s).1 (events ++ (st.sendReasoning s).2) m .live := by
  refine roster.ofReasoning numbered is ?_ rfl rfl rfl rfl
  intro e mem
  obtain rfl := List.mem_singleton.mp mem
  exact is

/-- The closing tag ends the reasoning. -/
theorem Roster.closing (roster : Roster st events m .live) (numbered : Numbered ids st)
    {own : Bytes} (is : st.reasoningItemId = some own) (x : Bytes) :
    Roster (st.reasoned x)
      (events ++ (unlessEmpty (fun s => .reasoningDelta st.reasoningItemId 0 s) x ++
        (st.reasoned x).closeReasoning)) m .over := by
  refine roster.ofReasoning numbered is ?_ ?_ rfl rfl rfl
  · rw [← is]
    exact (closing_at st x).about
  · unfold unlessEmpty
    split <;> rfl

/-- The text behind the closing tag opens the message. -/
theorem Roster.answer (roster : Roster st events .unborn .live) (numbered : Numbered ids st)
    (part : st.messageStarted = st.textPartStarted) (closed : st.textPartStarted = false)
    {own : Bytes} (is : st.reasoningItemId = some own) {s x y : Bytes} (text : y ≠ [])
    (found : cut (lit "</think>") s = some (x, y)) :
    Roster (st.reason s).1 (events ++ (st.reason s).2) .live .over := by
  rw [(reason_close_text st text found).1, reason_events st found, if_neg text,
    ← List.append_assoc]
  have ended := roster.closing numbered is x
  refine Roster.sendText (st.reasoned x) ?_ numbered part rfl rfl rfl y
  rw [show (st.reasoned x).textPartStarted = false from closed]
  exact ⟨ended.message, ended.reasoning, ended.calls, ended.others⟩

end Content

/-! ## What is lost stays lost -/

/-- An item broke its order, or the reasoning is over and goes on all the same. -/
def Lost (st : ItemState) (events : List ItemEvent) : Prop :=
  (∃ id, stageOf id events = none) ∨
    (st.firstContent = false ∧ st.thinkDetected = true ∧ st.textPartStarted = false ∧
      ∃ id, st.reasoningItemId = some id ∧ stageOf (some id) events = some .over)

/-- Any further event about an item that is over breaks the order. -/
theorem stageOf_over {id : Option Bytes} {events new : List ItemEvent}
    (ended : stageOf id events = some .over) {e : ItemEvent} (mem : e ∈ new)
    (own : e.itemId = id) : stageOf id (events ++ new) = none := by
  have some' : marks id new ≠ [] := by
    refine List.ne_nil_of_mem (a := e.mark) (List.mem_map_of_mem ?_)
    exact List.mem_filter.mpr ⟨mem, decide_eq_true own⟩
  rw [stageOf_append, ended]
  cases Stage.follow_over (marks id new) with
  | inl still => exact absurd (Stage.follow_over_eq still).2 some'
  | inr broken => exact broken

theorem lost_content {ids : Ids} {st : ItemState} {events : List ItemEvent}
    (shape : Shape ids st) (lost : Lost st events) (s : Bytes) :
    Lost (st.onContent ids s).1 (events ++ (st.onContent ids s).2) := by
  rcases lost with ⟨id, broken⟩ | ⟨later, detected, closed, id, is, ended⟩
  · exact .inl ⟨id, stageOf_broken broken _⟩
  · rw [onContent_reason s shape later detected closed]
    refine .inl ⟨some id, ?_⟩
    cases found : cut (lit "</think>") s with
    | none =>
        rw [reason_more st found]
        exact stageOf_over ended (List.mem_singleton_self _) is
    | some parts =>
        obtain ⟨x, y⟩ := parts
        rw [reason_events st found]
        have closes : ItemEvent.done 0 (st.reasoned x).reasoningItem ∈
            (st.reasoned x).closeReasoning := List.mem_cons_of_mem _ (List.mem_singleton_self _)
        exact stageOf_over ended (List.mem_append_left _ (List.mem_append_right _ closes)) is

theorem lost_tool {ids : Ids} {st : ItemState} {events : List ItemEvent}
    (shape : Shape ids st) (lost : Lost st events) (tc : ToolDelta) :
    Lost (st.onTool ids tc).1 (events ++ (st.onTool ids tc).2) := by
  rcases lost with ⟨id, broken⟩ | ⟨later, detected, closed, id, is, ended⟩
  · exact .inl ⟨id, stageOf_broken broken _⟩
  · have step := toolStep [] shape tc
    have after : stageOf (some id) (events ++ (st.onTool ids tc).2) =
        Stage.over.follow (marks (some id) (st.onTool ids tc).2) := by
      rw [stageOf_append, ended]
      rfl
    cases Stage.follow_over (marks (some id) (st.onTool ids tc).2) with
    | inl still =>
        exact .inr ⟨step.first.trans later, step.detected.trans detected, step.still closed, id,
          (onTool_ids shape tc).2.1.trans is, after.trans still⟩
    | inr broken => exact .inl ⟨some id, after.trans broken⟩

/-! ## The phases of a stream -/

/-- Before the first content; while its message is open; after a call closed it;
    while reasoning is open; while the message after it is open; and after an item
    was reopened. -/
inductive Lives (ms : List Move) (st : ItemState) (events : List ItemEvent) : Prop
  | quiet (silent : firstContent ms = none) (first : st.firstContent = true)
      (roster : Roster st events .unborn .unborn)
  | writing {before : List Move} {s : Bytes} (begun : firstContent ms = some (before, s))
      (text : s.take 7 ≠ lit "<think>") (later : st.firstContent = false)
      (plain : st.thinkDetected = false) (opened : st.textPartStarted = true)
      (noCall : ∀ i, Completes ms i → Completes before i)
      (roster : Roster st events .live .unborn)
  | paused {before : List Move} {s : Bytes} (begun : firstContent ms = some (before, s))
      (text : s.take 7 ≠ lit "<think>") (later : st.firstContent = false)
      (plain : st.thinkDetected = false) (closed : st.textPartStarted = false)
      (called : ∃ i, Completes ms i ∧ ¬ Completes before i) (whole : TextUnbroken before s ms)
      (roster : Roster st events .over .unborn)
  | reasoning {before : List Move} {s : Bytes} (rest : List Move) (begun : firstContent ms = some (before, s))
      (starts : s.take 7 = lit "<think>") (split : ms = before ++ .content s :: rest)
      (open' : ∀ piece ∈ contents rest, cut (lit "</think>") piece = none)
      (later : st.firstContent = false) (detected : st.thinkDetected = true)
      (closed : st.textPartStarted = false) (roster : Roster st events .unborn .live)
  | answering {before : List Move} {s last x y : Bytes} (mid after : List Move)
      (begun : firstContent ms = some (before, s)) (starts : s.take 7 = lit "<think>")
      (split : ms = before ++ .content s :: mid ++ .content last :: after)
      (open' : ∀ piece ∈ contents mid, cut (lit "</think>") piece = none)
      (found : cut (lit "</think>") last = some (x, y))
      (text : TextThenNoCall y (before ++ .content s :: mid) ms)
      (later : st.firstContent = false) (detected : st.thinkDetected = true)
      (opened : st.textPartStarted = true) (roster : Roster st events .live .over)
  | lost (lost : Lost st events) (out : ¬ NothingReopened ms)

section Content

variable {ids : Ids} {ms : List Move} {st : ItemState} {events : List ItemEvent}
  (shape : Shape ids st) (numbered : Numbered ids st) (s : Bytes)

include shape numbered

/-- The first content opens the reasoning or the message. -/
theorem lives_first (fresh : Function.Injective ids.item) (silent : firstContent ms = none)
    (first : st.firstContent = true) (roster : Roster st events .unborn .unborn) :
    Lives (ms ++ [.content s]) (st.onContent ids s).1 (events ++ (st.onContent ids s).2) := by
  have begun : firstContent (ms ++ [.content s]) = some (ms, s) :=
    firstContent_concat silent (.content s)
  have closed := (shape.fresh first).1
  by_cases starts : s.take 7 = lit "<think>"
  · rw [onContent_think ids s first starts (tag_length starts)]
    refine .reasoning [] begun starts rfl (fun piece mem => by cases mem) rfl rfl closed ?_
    exact roster.openReasoning
      { st with firstContent := false, thinkDetecting := true, thinkBuffer := s } fresh numbered
      (numbered.unthought first) rfl rfl rfl (s.drop 7)
  · rw [onContent_text ids s first starts]
    let st' : ItemState :=
      { st with firstContent := false, thinkDetecting := false, thinkBuffer := s,
                outputIndex := st.nextOutputIndex - 1 }
    have sent := (sendText_sums st' s shape.part).1
    have live : Roster (st'.sendText s).1 (events ++ (st'.sendText s).2) .live .unborn := by
      refine Roster.sendText st' ?_ numbered shape.part rfl rfl rfl s
      rw [show st'.textPartStarted = false from closed]
      exact roster
    refine .writing begun starts ?_ ?_ ?_ (fun i => (completes_content ms i s).mp) live
    · rw [sent]
    · rw [sent]
      exact (shape.fresh first).2
    · rw [sent]

/-- Reasoning goes on, is closed and opened again, or gives way to the message. -/
theorem lives_reason {before rest : List Move} {s₀ : Bytes}
    (begun : firstContent ms = some (before, s₀)) (starts : s₀.take 7 = lit "<think>")
    (split : ms = before ++ .content s₀ :: rest)
    (open' : ∀ piece ∈ contents rest, cut (lit "</think>") piece = none)
    (later : st.firstContent = false) (detected : st.thinkDetected = true)
    (closed : st.textPartStarted = false) (roster : Roster st events .unborn .live) :
    Lives (ms ++ [.content s]) (st.onContent ids s).1 (events ++ (st.onContent ids s).2) := by
  have begun' := firstContent_append begun [.content s]
  obtain ⟨own, is⟩ := Option.isSome_iff_exists.mp (shape.detected detected)
  rw [onContent_reason s shape later detected closed]
  cases found : cut (lit "</think>") s with
  | none =>
      rw [reason_more st found]
      refine .reasoning (rest ++ [.content s]) begun' starts (by rw [split]; simp) ?_ later detected
        closed (roster.sendReasoning numbered is s)
      intro piece mem
      rw [contents_content] at mem
      cases List.mem_append.mp mem with
      | inl old => exact open' piece old
      | inr new =>
          obtain rfl := List.mem_singleton.mp new
          exact found
  | some parts =>
      obtain ⟨x, y⟩ := parts
      by_cases text : y = []
      · subst text
        refine .lost (.inr ?_) fun kept => ?_
        · rw [(reason_close [] st found).1, reason_events st found, if_pos rfl, List.append_nil]
          exact ⟨later, detected, closed, own, is,
            (roster.closing numbered is x).reasoning own is⟩
        · have left := (nothingReopened_reasoning begun' starts).mp kept
          exact (left rest s [] x [] (by rw [split]) open' found).1 rfl
      · have state := (reason_close_text st text found).1
        have sent := (sendText_sums (st.reasoned x) y shape.part).1
        refine .answering rest [] begun' starts (by rw [split]) open' found
          ⟨text, fun i done => ?_⟩ ?_ ?_ ?_ (roster.answer numbered shape.part closed is text found)
        · rw [← split]
          exact (completes_content ms i s).mp done
        · rw [state, sent]
          exact later
        · rw [state, sent]
          exact detected
        · rw [state, sent]

end Content

theorem lives_content {ids : Ids} {ms : List Move} {st : ItemState} {events : List ItemEvent}
    (fresh : Function.Injective ids.item) (shape : Shape ids st) (numbered : Numbered ids st)
    (phase : Lives ms st events) (s : Bytes) :
    Lives (ms ++ [.content s]) (st.onContent ids s).1 (events ++ (st.onContent ids s).2) := by
  have complete (i : Value) := completes_content ms i s
  cases phase with
  | quiet silent first roster => exact lives_first shape numbered s fresh silent first roster
  | writing begun text later plain opened noCall roster =>
      obtain ⟨later', same, opened'⟩ := write_flags shape later opened s
      exact .writing (firstContent_append begun _) text later' (same.trans plain) opened'
        (fun i done => noCall i ((complete i).mp done))
        (roster.write numbered shape later opened s)
  | paused begun text later plain closed called whole roster =>
      refine .lost (.inl ⟨some st.msgItemId, ?_⟩) fun kept => ?_
      · exact stageOf_over roster.message (onContent_reopens shape s later plain closed) rfl
      · obtain ⟨rest, split⟩ := firstContent_split begun
        obtain ⟨i, done, was⟩ := called
        have unbroken := (nothingReopened_text (firstContent_append begun _) text).mp kept
        exact was (unbroken rest s [] (by rw [split]) i (split ▸ done))
  | reasoning rest begun starts split open' later detected closed roster =>
      exact lives_reason shape numbered s begun starts split open' later detected closed roster
  | answering mid after begun starts split open' found text later detected opened roster =>
      obtain ⟨later', same, opened'⟩ := write_flags shape later opened s
      exact .answering mid (after ++ [.content s]) (firstContent_append begun _) starts
        (by rw [split]; simp) open' found
        ⟨text.1, fun i done => text.2 i ((complete i).mp done)⟩ later' (same.trans detected)
        opened' (roster.write numbered shape later opened s)
  | lost lost out => exact .lost (lost_content shape lost s) fun kept => out kept.of_append

theorem lives_tool {ids : Ids} {ms : List Move} {st : ItemState} {events : List ItemEvent}
    (fresh : Function.Injective ids.item) (shape : Shape ids st) (known : KnownTools ms st)
    (numbered : Numbered ids st) (phase : Lives ms st events) (tc : ToolDelta) :
    Lives (ms ++ [.tool tc]) (st.onTool ids tc).1 (events ++ (st.onTool ids tc).2) := by
  have step := toolStep [] shape tc
  cases phase with
  | quiet silent first roster =>
      exact .quiet (firstContent_concat silent (.tool tc)) (step.first.trans first)
        (roster.toolAlone fresh numbered shape tc (shape.fresh first).1)
  | @writing before s begun text later plain opened noCall roster =>
      cases ready : (st.updated ids tc).ready with
      | false =>
          exact .writing (firstContent_append begun _) text (step.first.trans later)
            (step.detected.trans plain) (step.stays opened ready)
            (fun i done => noCall i ((completes_quiet known ready i).mp done))
            (roster.toolQuiet fresh numbered shape ready)
      | true =>
          obtain ⟨now, was⟩ := (ready_iff ids known tc).mp ready
          refine .paused (firstContent_append begun _) text (step.first.trans later)
            (step.detected.trans plain) (step.closes ready)
            ⟨tc.index, now, fun early => was ?_⟩ ?_
            (roster.toolCloses fresh numbered shape ready opened)
          · obtain ⟨after, rfl⟩ := firstContent_split begun
            exact early.append _
          · intro mid t after split i done
            obtain ⟨after', rfl⟩ := split_tool split
            exact noCall i (done.append _)
  | paused begun text later plain closed called whole roster =>
      obtain ⟨i, done, was⟩ := called
      exact .paused (firstContent_append begun _) text (step.first.trans later)
        (step.detected.trans plain) (step.still closed) ⟨i, done.append _, was⟩ (whole.tool tc)
        (roster.toolAlone fresh numbered shape tc closed)
  | reasoning rest begun starts split open' later detected closed roster =>
      exact .reasoning (rest ++ [.tool tc]) (firstContent_append begun _) starts
        (by rw [split]; simp) (by rw [contents_tool]; exact open') (step.first.trans later)
        (step.detected.trans detected) (step.still closed)
        (roster.toolAlone fresh numbered shape tc closed)
  | @answering before s₀ last x y mid after begun starts split open' found text later detected
      opened roster =>
      cases ready : (st.updated ids tc).ready with
      | false =>
          exact .answering mid (after ++ [.tool tc]) (firstContent_append begun _) starts
            (by rw [split]; simp) open' found
            ⟨text.1, fun i done => text.2 i ((completes_quiet known ready i).mp done)⟩
            (step.first.trans later) (step.detected.trans detected) (step.stays opened ready)
            (roster.toolQuiet fresh numbered shape ready)
      | true =>
          obtain ⟨now, was⟩ := (ready_iff ids known tc).mp ready
          have ended := roster.toolCloses fresh numbered shape ready opened
          obtain ⟨own, is⟩ := Option.isSome_iff_exists.mp (shape.detected detected)
          have is' := (onTool_ids shape tc).2.1.trans is
          refine .lost (.inr ⟨step.first.trans later, step.detected.trans detected,
            step.closes ready, own, is', ended.reasoning own is'⟩) fun kept => was ?_
          have left := (nothingReopened_reasoning (firstContent_append begun _) starts).mp kept
          have noCall := left mid last (after ++ [.tool tc]) x y (by rw [split]; simp) open' found
          rw [split]
          exact (noCall.2 _ now).append _
  | lost lost out => exact .lost (lost_tool shape lost tc) fun kept => out kept.of_append

/-- Every stream is in one of the phases. -/
theorem run_lives {ids : Ids} (fresh : Function.Injective ids.item) (ms : List Move) :
    Lives ms (runFrom (ItemState.move ids) (newItemState ids) ms).1
      (runFrom (ItemState.move ids) (newItemState ids) ms).2 := by
  induction ms using List.reverseRecOn with
  | nil => exact .quiet rfl rfl ⟨rfl, nofun, nofun, fun _ _ => rfl⟩
  | append_singleton ms x ih =>
      obtain ⟨shape, known⟩ := run_settled ids ms
      have numbered := run_numbered fresh ms
      rw [runFrom_concat]
      cases x with
      | content s => exact lives_content fresh shape numbered ih s
      | tool tc => exact lives_tool fresh shape known numbered ih tc

/-! ## The end of the stream -/

/-- The events that close these calls. -/
def closeCalls (started : List ToolState) : List ItemEvent :=
  started.flatMap fun ts =>
    [.argumentsDone ts.itemId ts.outputIndex ts.callId ts.name ts.args,
      .done ts.outputIndex (ts.item .completed ts.args)]

theorem closeCalls_others {started : List ToolState} {id : Option Bytes}
    (apart : ∀ ts ∈ started, id ≠ some ts.itemId) : marks id (closeCalls started) = [] := by
  have none' : (closeCalls started).filter (fun e => e.itemId = id) = [] := by
    refine List.filter_eq_nil_iff.mpr fun e mem own => ?_
    obtain ⟨ts, inStarted, inClosing⟩ := List.mem_flatMap.mp mem
    refine apart ts inStarted ((of_decide_eq_true own).symm.trans ?_)
    simp only [List.mem_cons, List.not_mem_nil, or_false] at inClosing
    rcases inClosing with rfl | rfl <;> rfl
  rw [marks, none', List.map_nil]

theorem closeCalls_self {started : List ToolState} (distinct : (started.map ToolState.itemId).Nodup)
    {ts : ToolState} (mem : ts ∈ started) :
    marks (some ts.itemId) (closeCalls started) = [.other, .closes] := by
  obtain ⟨before, after, rfl⟩ := List.append_of_mem mem
  have split : closeCalls (before ++ ts :: after) = closeCalls before ++
      ([.argumentsDone ts.itemId ts.outputIndex ts.callId ts.name ts.args,
        .done ts.outputIndex (ts.item .completed ts.args)] ++ closeCalls after) := by
    rw [closeCalls, List.flatMap_append, List.flatMap_cons]
    rfl
  rw [List.map_append, List.map_cons, List.nodup_append] at distinct
  obtain ⟨-, rest, apart⟩ := distinct
  rw [split, marks_append, marks_append, closeCalls_others, closeCalls_others]
  · simp [marks, ItemEvent.itemId, ToolState.item, Item.itemId, ItemEvent.mark]
  · intro ts' inAfter same
    apply (List.nodup_cons.mp rest).1
    rw [Option.some.inj same]
    exact List.mem_map_of_mem inAfter
  · intro ts' inBefore same
    exact apart _ (List.mem_map_of_mem inBefore) _ List.mem_cons_self (Option.some.inj same).symm

theorem close_events (st : ItemState) (order : List (Value × ToolState)) :
    (st.close order).1 =
      (if st.thinkDetected ∧ st.reasoningItemId.isSome ∧ ¬ st.textPartStarted
        then st.closeReasoning else []) ++
      (if st.textPartStarted then st.closeMessage else []) ++ closeCalls (startedCalls order) := rfl

theorem mem_startedCalls {ms : List Move} {st : ItemState} (known : KnownTools ms st)
    {order : List (Value × ToolState)} (perm : order.Perm st.toolStates) (ts : ToolState) :
    ts ∈ startedCalls order ↔ ∃ i, st.toolStates.lookup i = some ts ∧ ts.started = true := by
  constructor
  · intro mem
    obtain ⟨⟨i, ts⟩, kept, rfl⟩ := List.mem_map.mp mem
    obtain ⟨inOrder, started⟩ := List.mem_filter.mp kept
    exact ⟨i, lookup_eq_some_of_mem known.distinct (perm.subset inOrder), started⟩
  · rintro ⟨i, found, started⟩
    have inOrder := perm.symm.subset (mem_of_lookup_eq_some found)
    exact List.mem_map.mpr ⟨(i, ts), List.mem_filter.mpr ⟨inOrder, started⟩, rfl⟩

/-- With the message and the reasoning over or never begun, closing the calls ends
    every life. -/
theorem Roster.finish {ids : Ids} {ms : List Move} {st : ItemState} {events : List ItemEvent}
    {m r : Stage} (roster : Roster st events m r) (numbered : Numbered ids st)
    (known : KnownTools ms st) (message : m = .unborn ∨ m = .over)
    (reasoning : r = .unborn ∨ r = .over) {order : List (Value × ToolState)}
    (perm : order.Perm st.toolStates) (id : Option Bytes) :
    OneLife (marks id (events ++ closeCalls (startedCalls order))) := by
  rw [oneLife_iff]
  have calls := (List.nodup_append.mp (List.nodup_cons.mp numbered.distinct).2).2.1
  have distinct : ((startedCalls order).map ToolState.itemId).Nodup := by
    apply List.Nodup.sublist (List.filter_sublist.map Prod.snd |>.map ToolState.itemId)
    rw [List.map_map]
    exact (perm.map _).nodup_iff.mpr calls
  change stageOf id (events ++ closeCalls (startedCalls order)) = some .unborn ∨
    stageOf id (events ++ closeCalls (startedCalls order)) = some .over
  rw [stageOf_append]
  by_cases call : ∃ ts ∈ startedCalls order, id = some ts.itemId
  · obtain ⟨ts, inStarted, rfl⟩ := call
    obtain ⟨i, found, started⟩ := (mem_startedCalls known perm ts).mp inStarted
    rw [roster.calls i ts found, if_pos started, closeCalls_self distinct inStarted]
    exact .inr rfl
  · rw [closeCalls_others fun ts mem same => call ⟨ts, mem, same⟩]
    have stage : stageOf id events = some .unborn ∨ stageOf id events = some .over := by
      by_cases own : ∃ own ∈ st.itemIds, id = some own
      · obtain ⟨own, mem, rfl⟩ := own
        rcases List.mem_cons.mp mem with rfl | mem
        · rw [roster.message]
          exact message.imp (congrArg some) (congrArg some)
        · cases List.mem_append.mp mem with
          | inl isReasoning =>
              rw [roster.reasoning own (Option.mem_toList.mp isReasoning)]
              exact reasoning.imp (congrArg some) (congrArg some)
          | inr isCall =>
              obtain ⟨⟨i, ts⟩, inTable, rfl⟩ := List.mem_map.mp isCall
              have found := lookup_eq_some_of_mem known.distinct inTable
              have notStarted : ¬ ts.started = true := fun started =>
                call ⟨ts, (mem_startedCalls known perm ts).mpr ⟨i, found, started⟩, rfl⟩
              rw [roster.calls i ts found, if_neg notStarted]
              exact .inl rfl
      · exact .inl (roster.others id fun own' mem same => own ⟨own', mem, same⟩)
    cases stage with
    | inl unborn =>
        rw [unborn]
        exact .inl rfl
    | inr ended =>
        rw [ended]
        exact .inr rfl

theorem lost_close {ids : Ids} {st : ItemState} {events : List ItemEvent} (shape : Shape ids st)
    (lost : Lost st events) (order : List (Value × ToolState)) :
    ∃ id, stageOf id (events ++ (st.close order).1) = none := by
  rcases lost with ⟨id, broken⟩ | ⟨-, detected, closed, id, is, ended⟩
  · exact ⟨id, stageOf_broken broken _⟩
  · have again : st.thinkDetected ∧ st.reasoningItemId.isSome ∧ ¬ st.textPartStarted :=
      ⟨detected, shape.detected detected, by simp [closed]⟩
    have closes : ItemEvent.done 0 st.reasoningItem ∈ (st.close order).1 := by
      rw [close_events, if_pos again]
      refine List.mem_append_left _ (List.mem_append_left _ ?_)
      exact List.mem_cons_of_mem _ (List.mem_singleton_self _)
    exact ⟨some id, stageOf_over ended closes is⟩

theorem lives_close_iff {ids : Ids} {ms : List Move} {st : ItemState} {events : List ItemEvent}
    (shape : Shape ids st) (known : KnownTools ms st) (numbered : Numbered ids st)
    (phase : Lives ms st events) {order : List (Value × ToolState)}
    (perm : order.Perm st.toolStates) :
    (∀ id, OneLife (marks id (events ++ (st.close order).1))) ↔ NothingReopened ms := by
  rw [close_events]
  cases phase with
  | quiet silent first roster =>
      obtain ⟨closed, plain⟩ := shape.fresh first
      simp only [plain, closed, Bool.false_eq_true, false_and, ↓reduceIte, List.nil_append]
      apply iff_of_true (roster.finish numbered known (.inl rfl) (.inl rfl) perm)
      intro before s begun
      rw [silent] at begun
      cases begun
  | @writing before s begun text later plain opened noCall roster =>
      simp only [plain, opened, Bool.false_eq_true, false_and, ↓reduceIte, List.nil_append]
      have ended : Roster st (events ++ st.closeMessage) .over .unborn :=
        roster.ofMessage numbered ((closeMessage_at st).about) rfl rfl rfl rfl
      rw [← List.append_assoc]
      apply iff_of_true (ended.finish numbered known (.inr rfl) (.inl rfl) perm)
      refine (nothingReopened_text begun text).mpr fun mid t after split i done => noCall i ?_
      rw [split]
      exact done.append _
  | paused begun text later plain closed called whole roster =>
      simp only [plain, closed, Bool.false_eq_true, false_and, ↓reduceIte, List.nil_append]
      exact iff_of_true (roster.finish numbered known (.inr rfl) (.inl rfl) perm)
        ((nothingReopened_text begun text).mpr whole)
  | reasoning rest begun starts split open' later detected closed roster =>
      obtain ⟨own, is⟩ := Option.isSome_iff_exists.mp (shape.detected detected)
      simp only [detected, closed, is, Option.isSome_some, Bool.false_eq_true, not_false_eq_true,
        and_self, ↓reduceIte, List.append_nil]
      have about := (closeReasoning_at st).about
      rw [is] at about
      have ended : Roster st (events ++ st.closeReasoning) .unborn .over :=
        roster.ofReasoning numbered is about rfl rfl rfl rfl
      rw [← List.append_assoc]
      apply iff_of_true (ended.finish numbered known (.inl rfl) (.inr rfl) perm)
      apply (nothingReopened_reasoning begun starts).mpr
      rw [split]
      exact .of_open open'
  | answering mid after begun starts split open' found text later detected opened roster =>
      simp only [opened, not_true_eq_false, and_false, ↓reduceIte, List.nil_append]
      have ended : Roster st (events ++ st.closeMessage) .over .over :=
        roster.ofMessage numbered ((closeMessage_at st).about) rfl rfl rfl rfl
      rw [← List.append_assoc]
      apply iff_of_true (ended.finish numbered known (.inr rfl) (.inr rfl) perm)
      apply (nothingReopened_reasoning begun starts).mpr
      rw [split] at text ⊢
      exact .of_closing open' found text
  | lost lost out =>
      rw [← close_events]
      refine iff_of_false (fun lives => ?_) out
      obtain ⟨id, broken⟩ := lost_close shape lost order
      cases (oneLife_iff _).mp (lives id) with
      | inl unborn => exact absurd (broken.symm.trans unborn) (by simp)
      | inr ended => exact absurd (broken.symm.trans ended) (by simp)

/-- The ids are fresh: the items live once each exactly when no text comes after a
    call that was started since the text began, and the first delta with the closing
    tag has text behind it and no call is started from it on. -/
theorem life_cycle_iff (rt : Runtime) (ids : Ids) (now : Rat) (model : Option Value)
    {lines : List Bytes} (fresh : Function.Injective ids.item)
    (chunks : ∀ line ∈ lines, IsCountedLine rt line)
    (decodes : ∃ line ∈ lines, (decodeChunk rt line).isSome) :
    ∃ st events, streamChunks rt ids now (newStreamState ids model) lines = .ok (st, events) ∧
      ∀ order, order.Perm st.toolStates →
        (LifeCycle (events ++ streamEnd now st order) ↔ NothingReopened (moves rt lines)) := by
  obtain ⟨st, events, heading, handled, payloads, state, head⟩ :=
    streamChunks_payloads rt ids now model chunks
  refine ⟨st, events, handled, fun order perm => ?_⟩
  obtain ⟨shape, known⟩ := run_settled ids (moves rt lines)
  have numbered := run_numbered fresh (moves rt lines)
  have phase := run_lives fresh (moves rt lines)
  rw [← state] at shape known numbered phase
  rw [← lives_close_iff shape known numbered phase perm]
  have someDecodes : (lines.all fun line => (decodeChunk rt line).isNone) = false := by
    obtain ⟨line, mem, decoded⟩ := decodes
    rw [List.all_eq_false]
    exact ⟨line, mem, by simpa using Option.isSome_iff_ne_none.mp decoded⟩
  rw [Heading, someDecodes] at head
  obtain ⟨_, ⟨response, rfl⟩, rfl⟩ := head
  have whole : (events ++ streamEnd now st order).map Event.payload = .created response ::
      ((runFrom (ItemState.move ids) (newItemState ids) (moves rt lines)).2 ++
        (st.toItemState.close order).1).map .item ++
      [.completed (st.response now st.status (st.toItemState.close order).2)] := by
    rw [List.map_append, payloads, streamEnd_payloads now shape, List.map_append]
    simp
  constructor
  · rintro ⟨created, completed, items, same, lives⟩
    rw [whole, List.cons_append, List.cons_append, List.cons.injEq] at same
    have items' := (List.append_inj' same.2 rfl).1
    rw [List.map_inj_right fun _ _ h => Payload.item.inj h] at items'
    rw [items']
    exact lives
  · exact fun lives => ⟨response, _, _, whole, lives⟩

theorem thought_life_cycle_iff :
    ∃ st events, streamChunks (contentRuntime thoughtThenAnswer) sampleIds 0
        (newStreamState sampleIds none) (thoughtThenAnswer.map contentLine) = .ok (st, events) ∧
      ∀ order, order.Perm st.toolStates →
        (LifeCycle (events ++ streamEnd 0 st order) ↔
          NothingReopened (moves (contentRuntime thoughtThenAnswer)
            (thoughtThenAnswer.map contentLine))) :=
  life_cycle_iff (contentRuntime thoughtThenAnswer) sampleIds 0 none sampleIds_fresh
    (contentLines_counted _ (by simp only [thoughtThenAnswer, List.forall_mem_cons]; decide))
    ⟨contentLine "<think>a", by simp [thoughtThenAnswer], by decide⟩

/-- The reasoning is closed at its tag and again at the end of the stream. -/
theorem reasoning_done_twice :
    ¬ ∀ (rt : Runtime) (ids : Ids) (now : Rat) (model : Option Value) (lines : List Bytes),
      Function.Injective ids.item → (∀ line ∈ lines, IsCountedLine rt line) →
      (∃ line ∈ lines, (decodeChunk rt line).isSome) →
      ∀ st events, streamChunks rt ids now (newStreamState ids model) lines = .ok (st, events) →
        ∀ order, order.Perm st.toolStates → LifeCycle (events ++ streamEnd now st order) := by
  intro always
  have cycle := always (contentRuntime answerInNextDelta) sampleIds 0 none _ sampleIds_fresh
    (contentLines_counted _ (by simp only [answerInNextDelta, List.forall_mem_cons]; decide))
    ⟨contentLine "<think>a", by simp [answerInNextDelta], by decide⟩ _ _ rfl _ (List.Perm.refl _)
  exact absurd ((oneLife_iff _).mp (cycle.lives (some (sampleIds.item 1)))) (by decide)

end E2eeProxy.Responses
