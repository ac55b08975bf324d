import E2eeProxy.ResponsesLifecycle
import E2eeProxy.ResponsesSnapshot

/-! # Are output indexes positions?

The items that are added should be numbered through from 0, and an item should
keep its number. Calls take theirs when they are first mentioned, whether or not
they are started; the message takes the number before the next one, and after
reasoning a new one.
-/

namespace E2eeProxy.Responses

open E2eeProxy.Lua E2eeProxy.OpenAi E2eeProxy.Lib

def ItemEvent.addedIndex? : ItemEvent → Option Nat
  | .added i _ => some i
  | _ => none

/-- The output indexes under which items were added. -/
def addedIndexes (events : List ItemEvent) : List Nat := events.filterMap ItemEvent.addedIndex?

/-- The items that were added are numbered through, and every later event about an
    item has the number the item was added with. -/
structure IndexesHold (events : List ItemEvent) : Prop where
  numbered : ∃ n, (addedIndexes events).Perm (List.range n)
  kept : ∀ before i item after, events = before ++ .added i item :: after →
    ∀ e ∈ after, e.itemId = item.itemId → e.outputIndex = i

/-- A text that opens the stream is the first to take a number, and goes on after no
    started call. Where reasoning opens the stream no text follows a closing tag, and
    the calls that are started were mentioned before it. -/
def IndexesFit (ms : List Move) : Prop :=
  ∀ before s, firstContent ms = some (before, s) →
    (s.take 7 ≠ lit "<think>" → calls before = [] ∧ TextUnbroken before s ms) ∧
      (s.take 7 = lit "<think>" →
        (∀ rest, ms = before ++ .content s :: rest →
          ∀ t ∈ contents rest, ∀ x y, cut (lit "</think>") t = some (x, y) → y = []) ∧
        ∀ i, Completes ms i → Mentioned before i)

/-- A call is started only if all calls mentioned before it are. -/
def StartedInOrder (called : List Value) (ms : List Move) : Prop :=
  ∀ before i after, called = before ++ i :: after → Completes ms i →
    ∀ j ∈ before, Completes ms j

/-- No number is left out. -/
def NumberedThrough (ms : List Move) : Prop :=
  IndexesFit ms ∧ StartedInOrder (calls ms) ms ∧
    (firstContent ms = none → ∀ i, ¬ Completes ms i)

theorem IndexesFit.of_append {ms more : List Move} (h : IndexesFit (ms ++ more)) :
    IndexesFit ms := by
  intro before s begun
  obtain ⟨text, reasoning⟩ := h before s (firstContent_append begun more)
  constructor
  · intro plain
    obtain ⟨first, whole⟩ := text plain
    exact ⟨first, whole.of_append⟩
  · intro starts
    obtain ⟨closed, early⟩ := reasoning starts
    refine ⟨fun rest split t mem => ?_, fun i done => early i (done.append more)⟩
    apply closed (rest ++ more) (by rw [split]; simp) t
    rw [contents, List.filterMap_append]
    exact List.mem_append_left _ mem

/-! ## Events with their number -/

@[simp] theorem addedIndexes_append (xs ys : List ItemEvent) :
    addedIndexes (xs ++ ys) = addedIndexes xs ++ addedIndexes ys := List.filterMap_append

/-- The message and the reasoning have the number 0, every call the one it took. -/
structure Placed (st : ItemState) (events : List ItemEvent) : Prop where
  others : ∀ e ∈ events, e.itemId = some st.msgItemId ∨ e.itemId = st.reasoningItemId →
    e.outputIndex = 0
  calls : ∀ i ts, st.toolStates.lookup i = some ts →
    ∀ e ∈ events, e.itemId = some ts.itemId → e.outputIndex = ts.outputIndex
  owned : ∀ e ∈ events, ∃ own ∈ st.itemIds, e.itemId = some own

/-- Events about one item have one number. -/
theorem Placed.same {st : ItemState} {events : List ItemEvent} (placed : Placed st events)
    (known : (st.toolStates.map Prod.fst).Nodup) {e e' : ItemEvent} (mem : e ∈ events)
    (mem' : e' ∈ events) (same : e.itemId = e'.itemId) : e.outputIndex = e'.outputIndex := by
  obtain ⟨own, isOwn, is⟩ := placed.owned e mem
  rcases List.mem_cons.mp isOwn with rfl | isOwn
  · rw [placed.others e mem (.inl is), placed.others e' mem' (.inl (same.symm.trans is))]
  · cases List.mem_append.mp isOwn with
    | inl isReasoning =>
        have is' := is.trans (Option.mem_toList.mp isReasoning).symm
        rw [placed.others e mem (.inr is'), placed.others e' mem' (.inr (same.symm.trans is'))]
    | inr isCall =>
        obtain ⟨⟨i, ts⟩, inTable, rfl⟩ := List.mem_map.mp isCall
        have found := lookup_eq_some_of_mem known inTable
        rw [placed.calls i ts found e mem is,
          placed.calls i ts found e' mem' (same.symm.trans is)]

section Placed

variable {ids : Ids} {st st' : ItemState} {events new : List ItemEvent}

/-- Events about the message or the reasoning. -/
theorem Placed.ofOther (placed : Placed st events) (numbered : Numbered ids st) {own : Bytes}
    (is : own = st.msgItemId ∨ st.reasoningItemId = some own) (at' : AtIndex (some own) 0 new)
    (message : st'.msgItemId = st.msgItemId) (reasoning : st'.reasoningItemId = st.reasoningItemId)
    (tools : st'.toolStates = st.toolStates) : Placed st' (events ++ new) := by
  have owners : st'.itemIds = st.itemIds := by
    simp only [ItemState.itemIds, message, reasoning, tools]
  constructor
  · intro e mem about
    rw [message, reasoning] at about
    cases List.mem_append.mp mem with
    | inl old => exact placed.others e old about
    | inr isNew => exact (at' e isNew).2
  · intro i ts found e mem about
    rw [tools] at found
    cases List.mem_append.mp mem with
    | inl old => exact placed.calls i ts found e old about
    | inr isNew =>
        have same : ts.itemId = own := Option.some.inj (about.symm.trans (at' e isNew).1)
        rcases is with rfl | isReasoning
        · exact absurd same (numbered.message_ne_call found)
        · exact absurd same (numbered.reasoning_ne_call isReasoning found)
  · intro e mem
    rw [owners]
    cases List.mem_append.mp mem with
    | inl old => exact placed.owned e old
    | inr isNew =>
        refine ⟨own, ?_, (at' e isNew).1⟩
        rcases is with rfl | isReasoning
        · exact List.mem_cons_self
        · refine List.mem_cons_of_mem _ (List.mem_append_left _ ?_)
          exact Option.mem_toList.mpr isReasoning

/-- Events about the reasoning that is opened. -/
theorem Placed.ofNew (placed : Placed st events) (numbered : Numbered ids st)
    (fresh : Function.Injective ids.item) (none' : st.reasoningItemId = none)
    (at' : AtIndex (some (ids.item st.nextId)) 0 new)
    (message : st'.msgItemId = st.msgItemId)
    (reasoning : st'.reasoningItemId = some (ids.item st.nextId))
    (tools : st'.toolStates = st.toolStates) : Placed st' (events ++ new) := by
  have unused := numbered.unused fresh
  constructor
  · intro e mem about
    cases List.mem_append.mp mem with
    | inl old =>
        rw [message, reasoning] at about
        cases about with
        | inl isMessage => exact placed.others e old (.inl isMessage)
        | inr isReasoning =>
            obtain ⟨own, isOwn, is⟩ := placed.owned e old
            rw [Option.some.inj (is.symm.trans isReasoning)] at isOwn
            exact absurd isOwn unused
    | inr isNew => exact (at' e isNew).2
  · intro i ts found e mem about
    rw [tools] at found
    cases List.mem_append.mp mem with
    | inl old => exact placed.calls i ts found e old about
    | inr isNew =>
        have same : ts.itemId = ids.item st.nextId :=
          Option.some.inj (about.symm.trans (at' e isNew).1)
        refine absurd ?_ unused
        rw [← same]
        exact call_mem_itemIds found
  · intro e mem
    have owners : st'.itemIds =
        st.msgItemId :: ids.item st.nextId :: st.toolStates.map fun e => e.2.itemId := by
      simp only [ItemState.itemIds, message, reasoning, tools]
      rfl
    rw [owners]
    cases List.mem_append.mp mem with
    | inl old =>
        obtain ⟨own, isOwn, is⟩ := placed.owned e old
        refine ⟨own, ?_, is⟩
        rw [ItemState.itemIds, none'] at isOwn
        rcases List.mem_cons.mp isOwn with rfl | isCall
        · exact List.mem_cons_self
        · exact List.mem_cons_of_mem _ (List.mem_cons_of_mem _ isCall)
    | inr isNew => exact ⟨_, List.mem_cons_of_mem _ List.mem_cons_self, (at' e isNew).1⟩

/-- Events about the call of a tool delta. -/
theorem Placed.ofCall (placed : Placed st events) (fresh : Function.Injective ids.item)
    (shape : Shape ids st) (numbered : Numbered ids st) {tc : ToolDelta}
    (at' : AtIndex (some (st.written ids tc).itemId) (st.written ids tc).outputIndex new) :
    Placed (st.onTool ids tc).1 (events ++ new) := by
  obtain ⟨message, reasoning, -⟩ := onTool_ids shape tc
  have numbered' := numbered_tool fresh shape numbered tc
  have found : (st.onTool ids tc).1.toolStates.lookup tc.index = some (st.written ids tc) := by
    rw [onTool_tools shape, lookup_setEntry_self]
  obtain ⟨index, itemId, -⟩ := written_entry ids st tc
  constructor
  · intro e mem about
    cases List.mem_append.mp mem with
    | inl old =>
        rw [message, reasoning] at about
        exact placed.others e old about
    | inr isNew =>
        rw [(at' e isNew).1] at about
        cases about with
        | inl isMessage =>
            exact absurd (Option.some.inj isMessage) (numbered'.message_ne_call found)
        | inr isReasoning => exact absurd rfl (numbered'.reasoning_ne_call isReasoning.symm found)
  · intro i ts found' e mem about
    by_cases here : i = tc.index
    · subst here
      obtain rfl := Option.some.inj (found.symm.trans found')
      cases List.mem_append.mp mem with
      | inl old =>
          rcases toolEntry_cases ids st tc with ⟨ts, present, entry⟩ | ⟨-, entry⟩
          · rw [entry] at index itemId
            rw [itemId] at about
            rw [index]
            exact placed.calls _ ts present e old about
          · rw [entry] at itemId
            obtain ⟨own, isOwn, is⟩ := placed.owned e old
            rw [itemId, is] at about
            have isNew : own = ids.item st.nextId := Option.some.inj about
            rw [isNew] at isOwn
            exact absurd isOwn (numbered.unused fresh)
      | inr isNew => exact (at' e isNew).2
    · cases List.mem_append.mp mem with
      | inl old =>
          rw [onTool_tools shape, lookup_setEntry, if_neg here] at found'
          exact placed.calls i ts found' e old about
      | inr isNew =>
          have same := Option.some.inj (about.symm.trans (at' e isNew).1)
          exact absurd (numbered'.calls_apart found' found same) here
  · intro e mem
    cases List.mem_append.mp mem with
    | inl old =>
        obtain ⟨own, isOwn, is⟩ := placed.owned e old
        exact ⟨own, itemIds_kept shape tc own isOwn, is⟩
    | inr isNew => exact ⟨_, call_mem_itemIds found, (at' e isNew).1⟩

end Placed

/-! ## The numbers of the events of a step -/

theorem written_same (ids : Ids) (st : ItemState) (tc : ToolDelta) :
    (st.written ids tc).itemId = (st.updated ids tc).itemId ∧
      (st.written ids tc).outputIndex = (st.updated ids tc).outputIndex := by
  unfold ItemState.written
  split <;> exact ⟨rfl, rfl⟩

/-- What a tool delta sends about its call, after the message it may close. -/
theorem onTool_at (ids : Ids) (st : ItemState) (tc : ToolDelta) :
    ∃ new, (st.onTool ids tc).2 =
        (if (st.updated ids tc).ready ∧ st.textPartStarted then st.closeMessage else []) ++ new ∧
      AtIndex (some (st.written ids tc).itemId) (st.written ids tc).outputIndex new ∧
      addedIndexes new =
        if (st.updated ids tc).ready then [(st.written ids tc).outputIndex] else [] := by
  obtain ⟨itemId, index⟩ := written_same ids st tc
  rw [itemId, index]
  cases ready : (st.updated ids tc).ready with
  | true =>
      refine ⟨(st.updated ids tc).opening, ?_, opening_at _, ?_⟩
      · rw [onTool_events ready]
        simp
      · unfold ToolState.opening unlessEmpty
        split <;> rfl
  | false =>
      refine ⟨(st.onTool ids tc).2, by simp, onTool_at_quiet ready, ?_⟩
      rw [onTool_events_quiet ready]
      split
      · cases tc.arguments <;> rfl
      · rfl

theorem addedIndexes_sendText (st : ItemState) (s : Bytes)
    (part : st.messageStarted = st.textPartStarted) :
    addedIndexes (st.sendText s).2 = if st.textPartStarted then [] else [st.outputIndex] := by
  rw [sendText_events st s part, ItemState.openMessage]
  split <;> rfl

theorem addedIndexes_openReasoning (ids : Ids) (st : ItemState) (after : Bytes) :
    addedIndexes (st.openReasoning ids after).2 = [st.outputIndex] := by
  unfold ItemState.openReasoning unlessEmpty
  dsimp only
  split <;> rfl

theorem addedIndexes_reason (st : ItemState) (part : st.messageStarted = st.textPartStarted)
    (closed : st.textPartStarted = false) (s : Bytes) :
    addedIndexes (st.reason s).2 =
      match cut (lit "</think>") s with
      | none => []
      | some (_, y) => if y = [] then [] else [st.nextOutputIndex] := by
  cases found : cut (lit "</think>") s with
  | none =>
      rw [reason_more st found]
      rfl
  | some parts =>
      obtain ⟨x, y⟩ := parts
      have silent : addedIndexes (unlessEmpty (fun s => .reasoningDelta st.reasoningItemId 0 s) x ++
          (st.reasoned x).closeReasoning) = [] := by
        unfold unlessEmpty
        split <;> rfl
      rw [reason_events st found, addedIndexes_append, silent, List.nil_append]
      dsimp only
      split
      · rfl
      · rw [addedIndexes_sendText (st.reasoned x) y part]
        exact if_neg (by simp [ItemState.reasoned, closed])

/-! ## The numbers that were taken -/

/-- A call that was started has the number `j`. -/
def StartedAt (st : ItemState) (j : Nat) : Prop :=
  ∃ i ts, st.toolStates.lookup i = some ts ∧ ts.started = true ∧ ts.outputIndex = j

/-- The numbers of the calls differ, come after 0 and were given out before. -/
structure Ranked (st : ItemState) : Prop where
  apart : ∀ i j ts ts', st.toolStates.lookup i = some ts → st.toolStates.lookup j = some ts' →
    ts.outputIndex = ts'.outputIndex → i = j
  range : ∀ i ts, st.toolStates.lookup i = some ts →
    0 < ts.outputIndex ∧ ts.outputIndex < st.nextOutputIndex
  next : 0 < st.nextOutputIndex

/-- Items were added under the numbers in `first` and those of the started calls. -/
structure Added (first : List Nat) (st : ItemState) (events : List ItemEvent) : Prop where
  distinct : (addedIndexes events).Nodup
  mem : ∀ j, j ∈ addedIndexes events ↔ j ∈ first ∨ StartedAt st j

section Tool

variable {ids : Ids} {st : ItemState} {events : List ItemEvent} (tc : ToolDelta)

/-- The entry of a tool delta has its old number or the next one. -/
theorem written_index (ids : Ids) (st : ItemState) :
    (∃ ts, st.toolStates.lookup tc.index = some ts ∧
      (st.written ids tc).outputIndex = ts.outputIndex ∧
      (st.toolEntry ids tc).1.nextOutputIndex = st.nextOutputIndex) ∨
    (st.toolStates.lookup tc.index = none ∧
      (st.written ids tc).outputIndex = st.nextOutputIndex ∧
      (st.toolEntry ids tc).1.nextOutputIndex = st.nextOutputIndex + 1) := by
  have index := (written_entry ids st tc).1
  rcases toolEntry_cases ids st tc with ⟨ts, found, entry⟩ | ⟨unknown, entry⟩
  · rw [entry] at index ⊢
    exact .inl ⟨ts, found, index, rfl⟩
  · rw [entry] at index ⊢
    exact .inr ⟨unknown, index, rfl⟩

theorem Ranked.tool (ranked : Ranked st) (shape : Shape ids st) :
    Ranked (st.onTool ids tc).1 := by
  obtain ⟨apart, range, next⟩ := ranked
  have next' := (onTool_kept shape tc).2.2
  have old (i : Value) (ts : ToolState) (other : i ≠ tc.index)
      (found : st.toolStates.lookup i = some ts) :
      ts.outputIndex ≠ (st.written ids tc).outputIndex := by
    rcases written_index tc ids st with ⟨ts', present, index, -⟩ | ⟨-, index, -⟩
    · exact fun same => other (apart i _ ts ts' found present (same.trans index))
    · have bound := (range i ts found).2
      omega
  have within : 0 < (st.written ids tc).outputIndex ∧
      (st.written ids tc).outputIndex < (st.onTool ids tc).1.nextOutputIndex ∧
      st.nextOutputIndex ≤ (st.onTool ids tc).1.nextOutputIndex := by
    rw [next']
    rcases written_index tc ids st with ⟨ts, present, index, same⟩ | ⟨-, index, more⟩
    · have bound := range _ ts present
      omega
    · omega
  refine ⟨?_, ?_, by omega⟩
  · intro i j ts ts' found found' same
    rw [onTool_tools shape, lookup_setEntry] at found found'
    split at found
    · rename_i here
      obtain rfl := Option.some.inj found
      split at found'
      · rename_i here'
        exact here.trans here'.symm
      · rename_i other
        exact absurd same.symm (old j ts' other found')
    · rename_i other
      split at found'
      · obtain rfl := Option.some.inj found'
        exact absurd same (old i ts other found)
      · exact apart i j ts ts' found found' same
  · intro i ts found
    rw [onTool_tools shape, lookup_setEntry] at found
    split at found
    · obtain rfl := Option.some.inj found
      exact ⟨within.1, within.2.1⟩
    · have bound := range i ts found
      omega

/-- A tool delta starts the call of its entry at most. -/
theorem startedAt_tool (shape : Shape ids st) (j : Nat) :
    StartedAt (st.onTool ids tc).1 j ↔
      StartedAt st j ∨ ((st.updated ids tc).ready = true ∧ (st.written ids tc).outputIndex = j) := by
  obtain ⟨index, -, started⟩ := written_entry ids st tc
  constructor
  · rintro ⟨i, ts, found, isStarted, rfl⟩
    rw [onTool_tools shape, lookup_setEntry] at found
    split at found
    · obtain rfl := Option.some.inj found
      cases ready : (st.updated ids tc).ready with
      | true => exact .inr ⟨rfl, rfl⟩
      | false =>
          have same : st.written ids tc = st.updated ids tc := by
            unfold ItemState.written
            rw [ready]
            rfl
          rw [same, updated_started_eq, Option.map_eq_some_iff] at isStarted
          obtain ⟨ts, present, isStarted⟩ := isStarted
          refine .inl ⟨tc.index, ts, present, isStarted, ?_⟩
          rcases written_index tc ids st with ⟨ts', present', index', -⟩ | ⟨absent, -⟩
          · rw [present] at present'
            rw [index', Option.some.inj present']
          · rw [absent] at present
            cases present
    · exact .inl ⟨i, ts, found, isStarted, rfl⟩
  · rintro (⟨i, ts, found, isStarted, rfl⟩ | ⟨ready, rfl⟩)
    · by_cases here : i = tc.index
      · subst here
        rcases toolEntry_cases ids st tc with ⟨ts', present, entry⟩ | ⟨absent, -⟩
        · obtain rfl := Option.some.inj (present.symm.trans found)
          rw [entry] at index started
          exact ⟨tc.index, st.written ids tc, by rw [onTool_tools shape, lookup_setEntry_self],
            started isStarted, index⟩
        · rw [absent] at found
          cases found
      · exact ⟨i, ts, by rw [onTool_tools shape, lookup_setEntry, if_neg here]; exact found,
          isStarted, rfl⟩
    · refine ⟨tc.index, st.written ids tc, by rw [onTool_tools shape, lookup_setEntry_self], ?_, rfl⟩
      unfold ItemState.written
      rw [ready]
      rfl

theorem addedIndexes_tool (ids : Ids) (st : ItemState) :
    addedIndexes (st.onTool ids tc).2 =
      if (st.updated ids tc).ready then [(st.written ids tc).outputIndex] else [] := by
  obtain ⟨new, same, -, added⟩ := onTool_at ids st tc
  rw [same, addedIndexes_append, added]
  split <;> split <;> rfl

theorem Added.tool {first : List Nat} (added : Added first st events) (zero : ∀ j ∈ first, j = 0)
    (ranked : Ranked st) (shape : Shape ids st) :
    Added first (st.onTool ids tc).1 (events ++ (st.onTool ids tc).2) := by
  have numbers : addedIndexes (events ++ (st.onTool ids tc).2) = addedIndexes events ++
      if (st.updated ids tc).ready then [(st.written ids tc).outputIndex] else [] := by
    rw [addedIndexes_append, addedIndexes_tool]
  constructor
  · rw [numbers]
    cases ready : (st.updated ids tc).ready with
    | false => simpa using added.distinct
    | true =>
        refine List.nodup_append.mpr ⟨added.distinct, List.nodup_singleton _, ?_⟩
        rintro j old _ new rfl
        obtain rfl := List.mem_singleton.mp new
        rcases (added.mem _).mp old with isFirst | ⟨i, ts, found, started, index⟩
        · have positive : 0 < (st.written ids tc).outputIndex := by
            rcases written_index tc ids st with ⟨ts, present, index, -⟩ | ⟨-, index, -⟩
            · have bound := ranked.range _ ts present
              omega
            · have bound := ranked.next
              omega
          have isZero := zero _ isFirst
          omega
        · rcases written_index tc ids st with ⟨ts', present, index', -⟩ | ⟨-, index', -⟩
          · obtain rfl := ranked.apart i _ ts ts' found present (index.trans index')
            have already := (updated_started_eq ids st tc).mpr (by rw [found]; simp [started])
            simp [ToolState.ready, already] at ready
          · have bound := (ranked.range i ts found).2
            omega
  · intro j
    rw [numbers, List.mem_append, added.mem, startedAt_tool tc shape, or_assoc]
    refine or_congr_right (or_congr_right ?_)
    split
    · rename_i ready
      rw [List.mem_singleton]
      exact ⟨fun same => ⟨ready, same.symm⟩, fun same => same.2.symm⟩
    · rename_i notReady
      simp [notReady]

end Tool

/-! ## The numbers after a content delta -/

section Content

variable {ids : Ids} {st : ItemState} {events : List ItemEvent} (s : Bytes)

theorem onContent_next (shape : Shape ids st) :
    st.nextOutputIndex ≤ (st.onContent ids s).1.nextOutputIndex := by
  rcases onContent_cases shape s with ⟨-, -, same⟩ | ⟨-, -, same⟩ | ⟨-, -, same⟩ | ⟨-, -, -, same⟩
  · rw [same]
    exact Nat.le_succ _
  · rw [same, (sendText_sums { st with
      firstContent := false, thinkDetecting := false, thinkBuffer := s,
      outputIndex := st.nextOutputIndex - 1 } s shape.part).1]
  · rw [same, ItemState.write]
    split
    · rw [(sendText_sums st s shape.part).1]
    · rw [(sendText_sums { st with outputIndex := st.nextOutputIndex - 1 } s shape.part).1]
  · rw [same]
    cases found : cut (lit "</think>") s with
    | none =>
        rw [reason_more st found]
        exact Nat.le_refl _
    | some parts =>
        obtain ⟨x, y⟩ := parts
        by_cases text : y = []
        · subst text
          rw [(reason_close [] st found).1]
          exact Nat.le_succ _
        · rw [(reason_close_text st text found).1, (sendText_sums (st.reasoned x) y shape.part).1]
          exact Nat.le_succ _

theorem Ranked.content (ranked : Ranked st) (shape : Shape ids st) :
    Ranked (st.onContent ids s).1 := by
  have tools := (settled_content shape s).tools
  have next := onContent_next s shape
  refine ⟨by rw [tools]; exact ranked.apart, ?_, ranked.next.trans_le next⟩
  intro i ts found
  rw [tools] at found
  obtain ⟨positive, bound⟩ := ranked.range i ts found
  exact ⟨positive, bound.trans_le next⟩

theorem run_ranked (ids : Ids) (ms : List Move) :
    Ranked (runFrom (ItemState.move ids) (newItemState ids) ms).1 := by
  induction ms using List.reverseRecOn with
  | nil => exact ⟨nofun, nofun, Nat.one_pos⟩
  | append_singleton ms x ih =>
      obtain ⟨shape, -⟩ := run_settled ids ms
      rw [runFrom_concat]
      cases x with
      | content s => exact ih.content s shape
      | tool tc => exact ih.tool tc shape

/-- From the second content delta on a message is added under the next number or
    the one before it. -/
theorem addedIndexes_later (shape : Shape ids st) (later : st.firstContent = false)
    (next : 0 < st.nextOutputIndex) :
    addedIndexes (st.onContent ids s).2 = [] ∨
      ∃ j, addedIndexes (st.onContent ids s).2 = [j] ∧ st.nextOutputIndex ≤ j + 1 := by
  rcases onContent_cases shape s with ⟨first, -⟩ | ⟨first, -⟩ | ⟨-, -, same⟩ |
    ⟨-, -, closed, same⟩
  · rw [later] at first
    cases first
  · rw [later] at first
    cases first
  · rw [same, ItemState.write]
    split
    · rename_i message
      rw [addedIndexes_sendText st s shape.part, if_pos (shape.part ▸ message)]
      exact .inl rfl
    · rename_i message
      rw [addedIndexes_sendText { st with outputIndex := st.nextOutputIndex - 1 } s shape.part,
        if_neg (shape.part ▸ message)]
      exact .inr ⟨_, rfl, by dsimp only; omega⟩
  · rw [same, addedIndexes_reason st shape.part closed s]
    split
    · exact .inl rfl
    · split
      · exact .inl rfl
      · exact .inr ⟨_, rfl, Nat.le_succ _⟩

end Content

/-! ## What is broken stays broken -/

/-- The number `g` is left out for good. -/
structure Gap (g : Nat) (st : ItemState) (events : List ItemEvent) : Prop where
  later : st.firstContent = false
  next : g + 1 < st.nextOutputIndex
  calls : ∀ i ts, st.toolStates.lookup i = some ts → ts.outputIndex ≠ g
  hole : g ∉ addedIndexes events
  above : ∃ j ∈ addedIndexes events, g < j

/-- A later event has another number than its item was added with. -/
def Clash (events : List ItemEvent) : Prop :=
  ∃ before i item after, events = before ++ .added i item :: after ∧
    ∃ e ∈ after, e.itemId = item.itemId ∧ e.outputIndex ≠ i

theorem Clash.append {events : List ItemEvent} (clash : Clash events) (new : List ItemEvent) :
    Clash (events ++ new) := by
  obtain ⟨before, i, item, after, rfl, e, mem, own, other⟩ := clash
  exact ⟨before, i, item, after ++ new, by simp, e, List.mem_append_left _ mem, own, other⟩

section Gap

variable {ids : Ids} {st : ItemState} {events : List ItemEvent} {g : Nat}

theorem Gap.content (gap : Gap g st events) (shape : Shape ids st) (s : Bytes) :
    Gap g (st.onContent ids s).1 (events ++ (st.onContent ids s).2) := by
  obtain ⟨later, next, calls, hole, j, mem, above⟩ := gap
  have settled := settled_content shape s
  refine ⟨settled.later, next.trans_le (onContent_next s shape), ?_, ?_, j, ?_, above⟩
  · rw [settled.tools]
    exact calls
  · rw [addedIndexes_append, List.mem_append]
    rintro (old | new)
    · exact hole old
    · rcases addedIndexes_later s shape later (by omega) with none' | ⟨k, one, bound⟩
      · rw [none'] at new
        cases new
      · rw [one] at new
        obtain rfl := List.mem_singleton.mp new
        omega
  · rw [addedIndexes_append]
    exact List.mem_append_left _ mem

theorem Gap.tool (gap : Gap g st events) (shape : Shape ids st) (tc : ToolDelta) :
    Gap g (st.onTool ids tc).1 (events ++ (st.onTool ids tc).2) := by
  obtain ⟨later, next, calls, hole, j, mem, above⟩ := gap
  have next' := (onTool_kept shape tc).2.2
  have index : (st.written ids tc).outputIndex ≠ g ∧
      st.nextOutputIndex ≤ (st.toolEntry ids tc).1.nextOutputIndex := by
    rcases written_index tc ids st with ⟨ts, present, same, more⟩ | ⟨-, same, more⟩
    · have differ := calls _ ts present
      omega
    · omega
  refine ⟨(toolStep [] shape tc).first.trans later, by omega, ?_, ?_, j, ?_, above⟩
  · intro i ts found
    rw [onTool_tools shape, lookup_setEntry] at found
    split at found
    · obtain rfl := Option.some.inj found
      exact index.1
    · exact calls i ts found
  · rw [addedIndexes_append, addedIndexes_tool, List.mem_append]
    rintro (old | new)
    · exact hole old
    · split at new
      · exact index.1 (List.mem_singleton.mp new).symm
      · cases new
  · rw [addedIndexes_append]
    exact List.mem_append_left _ mem

end Gap

/-! ## The phases of a stream -/

/-- A call in `called` has its place there as its number, any other a number that
    comes after all of these and one more. -/
structure Early (called : List Value) (st : ItemState) : Prop where
  place : ∀ i ts, st.toolStates.lookup i = some ts →
    (i, ts.outputIndex) ∈ called.zipIdx 1 ∨
      (i ∉ called ∧ called.length + 2 ≤ ts.outputIndex)
  next : called.length + 2 ≤ st.nextOutputIndex

/-- The number between the calls mentioned before the reasoning and all later items
    is taken by none. -/
theorem Early.gap {called : List Value} {st : ItemState} (early : Early called st) {i : Value}
    {ts : ToolState} (found : st.toolStates.lookup i = some ts) :
    ts.outputIndex ≠ called.length + 1 := by
  rcases early.place i ts found with placed | ⟨-, above⟩
  · have bound := (List.getElem?_eq_some_iff.mp
      (List.mem_zipIdx_iff_le_and_getElem?_sub.mp placed).2).1
    omega
  · omega

theorem Early.tool {ids : Ids} {ms : List Move} {st : ItemState} {called : List Value}
    (early : Early called st) (known : KnownTools ms st) (shape : Shape ids st)
    (mentioned : ∀ i ∈ called, Mentioned ms i) (tc : ToolDelta) :
    Early called (st.onTool ids tc).1 := by
  have next' := (onTool_kept shape tc).2.2
  have bound := early.next
  constructor
  · intro i ts found
    rw [onTool_tools shape, lookup_setEntry] at found
    split at found
    · rename_i here
      obtain rfl := Option.some.inj found
      rw [here]
      rcases written_index tc ids st with ⟨ts, present, index, -⟩ | ⟨absent, index, -⟩
      · rw [index]
        exact early.place _ ts present
      · refine .inr ⟨fun mem => ?_, by omega⟩
        have isSome := (known.mentioned _).mpr (mentioned _ mem)
        rw [absent] at isSome
        cases isSome
    · exact early.place i ts found
  · rcases written_index tc ids st with ⟨-, -, -, same⟩ | ⟨-, -, more⟩
    · omega
    · omega

/-- Before the first content; while its message is open; after a call closed it;
    while reasoning goes on; and after a number was left out or changed. -/
inductive Counts (ms : List Move) (st : ItemState) (events : List ItemEvent) : Prop
  | quiet (silent : firstContent ms = none) (first : st.firstContent = true)
      (place : st.outputIndex = 0) (places : Places ms st) (placed : Placed st events)
      (added : Added [] st events)
  | writing {before : List Move} {s : Bytes} (begun : firstContent ms = some (before, s))
      (text : s.take 7 ≠ lit "<think>") (alone : calls before = []) (later : st.firstContent = false)
      (plain : st.thinkDetected = false) (place : st.textPartStarted = true → st.outputIndex = 0)
      (called : st.textPartStarted = false → ∃ i, Completes ms i)
      (whole : TextUnbroken before s ms)
      (noCall : st.textPartStarted = true → ∀ i, ¬ Completes ms i)
      (places : Places ms st) (placed : Placed st events) (added : Added [0] st events)
      (message : ∃ item, ItemEvent.added 0 item ∈ events ∧ item.itemId = some st.msgItemId)
  | reasoning {before : List Move} {s : Bytes} (rest : List Move)
      (begun : firstContent ms = some (before, s)) (starts : s.take 7 = lit "<think>")
      (split : ms = before ++ .content s :: rest)
      (silent : ∀ t ∈ contents rest, ∀ x y, cut (lit "</think>") t = some (x, y) → y = [])
      (mentioned : ∀ i, Completes ms i → Mentioned before i) (later : st.firstContent = false)
      (detected : st.thinkDetected = true) (closed : st.textPartStarted = false)
      (early : Early (calls before) st) (placed : Placed st events) (added : Added [0] st events)
  | broken (broken : (∃ g, Gap g st events) ∨ Clash events) (out : ¬ IndexesFit ms)

theorem Placed.tool {ids : Ids} {st : ItemState} {events : List ItemEvent}
    (placed : Placed st events) (fresh : Function.Injective ids.item) (shape : Shape ids st)
    (numbered : Numbered ids st) (place : st.textPartStarted = true → st.outputIndex = 0)
    (tc : ToolDelta) : Placed (st.onTool ids tc).1 (events ++ (st.onTool ids tc).2) := by
  obtain ⟨new, same, at', -⟩ := onTool_at ids st tc
  rw [same, ← List.append_assoc]
  split
  · rename_i closes
    have atZero := closeMessage_at st
    rw [place closes.2] at atZero
    exact (placed.ofOther numbered (.inl rfl) atZero rfl rfl rfl).ofCall fresh shape numbered at'
  · rw [List.append_nil]
    exact placed.ofCall fresh shape numbered at'

/-- An item that is no call is added under a number that none has. -/
theorem Added.more {st st' : ItemState} {events new : List ItemEvent} {first : List Nat} {k : Nat}
    (added : Added first st events) (unused : k ∉ first ∧ ¬ StartedAt st k)
    (one : addedIndexes new = [k]) (tools : st'.toolStates = st.toolStates) :
    Added (k :: first) st' (events ++ new) := by
  constructor
  · rw [addedIndexes_append, one]
    refine List.nodup_append.mpr ⟨added.distinct, List.nodup_singleton _, ?_⟩
    rintro j old _ new rfl
    obtain rfl := List.mem_singleton.mp new
    cases (added.mem _).mp old with
    | inl isFirst => exact unused.1 isFirst
    | inr started => exact unused.2 started
  · intro j
    rw [addedIndexes_append, one, List.mem_append, added.mem, List.mem_singleton, List.mem_cons,
      StartedAt, StartedAt, tools, or_comm, or_assoc]

theorem Added.none {st st' : ItemState} {events new : List ItemEvent} {first : List Nat}
    (added : Added first st events) (none' : addedIndexes new = [])
    (tools : st'.toolStates = st.toolStates) : Added first st' (events ++ new) := by
  constructor
  · rw [addedIndexes_append, none', List.append_nil]
    exact added.distinct
  · intro j
    rw [addedIndexes_append, none', List.append_nil, added.mem, StartedAt, StartedAt, tools]

/-- Adding an item under a later number leaves out one that none has. -/
theorem Added.gap {st st' : ItemState} {events new : List ItemEvent} {first : List Nat} {g k : Nat}
    (added : Added first st events) (one : addedIndexes new = [k]) (above : g < k)
    (notFirst : g ∉ first) (calls : ∀ i ts, st.toolStates.lookup i = some ts → ts.outputIndex ≠ g)
    (later : st'.firstContent = false) (next : g + 1 < st'.nextOutputIndex)
    (tools : st'.toolStates = st.toolStates) : Gap g st' (events ++ new) := by
  refine ⟨later, next, ?_, ?_, k, ?_, above⟩
  · rw [tools]
    exact calls
  · rw [addedIndexes_append, one, List.mem_append, added.mem, List.mem_singleton]
    rintro ((isFirst | ⟨i, ts, found, -, index⟩) | same)
    · exact notFirst isFirst
    · exact calls i ts found index
    · omega
  · rw [addedIndexes_append, one]
    exact List.mem_append_right _ (List.mem_singleton_self _)

theorem Ranked.positive {st : ItemState} (ranked : Ranked st) : ¬ StartedAt st 0 := by
  rintro ⟨i, ts, found, -, index⟩
  have bound := (ranked.range i ts found).1
  omega

section Content

variable {ids : Ids} {ms : List Move} {st : ItemState} {events : List ItemEvent}
  (fresh : Function.Injective ids.item) (shape : Shape ids st) (numbered : Numbered ids st)
  (ranked : Ranked st) (s : Bytes)

include fresh shape numbered ranked in
/-- Reasoning opens the stream. -/
theorem counts_think (silent : firstContent ms = none) (first : st.firstContent = true)
    (place : st.outputIndex = 0) (places : Places ms st) (placed : Placed st events)
    (added : Added [] st events) (starts : s.take 7 = lit "<think>") :
    Counts (ms ++ [.content s]) (st.onContent ids s).1 (events ++ (st.onContent ids s).2) := by
  let st' : ItemState := { st with firstContent := false, thinkDetecting := true, thinkBuffer := s }
  have begun : firstContent (ms ++ [.content s]) = some (ms, s) :=
    firstContent_concat silent (.content s)
  have at' := openReasoning_at ids st' (s.drop 7)
  rw [show st'.outputIndex = 0 from place] at at'
  have one := addedIndexes_openReasoning ids st' (s.drop 7)
  rw [show st'.outputIndex = 0 from place] at one
  rw [onContent_think ids s first starts (tag_length starts)]
  refine .reasoning [] begun starts rfl nofun
    (fun i done => ((completes_content ms i s).mp done).mentioned) rfl rfl (shape.fresh first).1
    ⟨fun i ts found => .inl ?_, ?_⟩
    (placed.ofNew numbered fresh (numbered.unthought first) at' rfl rfl rfl)
    (added.more ⟨List.not_mem_nil, ranked.positive⟩ one rfl)
  · exact places.mem (mem_of_lookup_eq_some found)
  · have next := places.next
    change (calls ms).length + 2 ≤ st.nextOutputIndex + 1
    omega

include shape numbered ranked in
/-- A text opens the stream. -/
theorem counts_text (silent : firstContent ms = none) (first : st.firstContent = true)
    (places : Places ms st) (placed : Placed st events) (added : Added [] st events)
    (text : s.take 7 ≠ lit "<think>") :
    Counts (ms ++ [.content s]) (st.onContent ids s).1 (events ++ (st.onContent ids s).2) := by
  let st' : ItemState :=
    { st with firstContent := false, thinkDetecting := false, thinkBuffer := s,
              outputIndex := st.nextOutputIndex - 1 }
  have begun : firstContent (ms ++ [.content s]) = some (ms, s) :=
    firstContent_concat silent (.content s)
  have closed : st'.textPartStarted = false := (shape.fresh first).1
  have index : st'.outputIndex = (calls ms).length := by
    change st.nextOutputIndex - 1 = (calls ms).length
    rw [places.next]
    rfl
  have state := (sendText_sums st' s shape.part).1
  have one := addedIndexes_sendText st' s shape.part
  rw [closed, index] at one
  rw [onContent_text ids s first text]
  by_cases alone : calls ms = []
  · rw [alone] at index one
    have at' := sendText_at st' s shape.part
    rw [index] at at'
    refine .writing begun text alone ?_ ?_ (fun _ => ?_) ?_ ?_ ?_ ⟨?_, ?_⟩
      (placed.ofOther numbered (.inl rfl) at' ?_ ?_ ?_)
      (added.more ⟨List.not_mem_nil, ranked.positive⟩ one ?_) ⟨.message st'.msgItemId .inProgress none, ?_, ?_⟩
    · rw [state]
    · rw [state]
      exact (shape.fresh first).2
    · rw [state]
      exact index
    · rw [state]
      intro closed
      cases closed
    · intro mid t after split
      simp at split
    · intro _ i done
      have mem := (mem_calls ms i).mpr ((completes_content ms i s).mp done).mentioned
      rw [alone] at mem
      cases mem
    · rw [state, calls_content]
      exact places.table
    · rw [state, calls_content]
      exact places.next
    · rw [state]
    · rw [state]
    · rw [state]
    · rw [state]
    · apply List.mem_append_right _
      rw [sendText_events st' s shape.part, ItemState.openMessage, if_neg (by simp [closed]), index]
      exact List.mem_cons_self
    · rw [state]
      rfl
  · refine .broken (.inl ⟨0, ?_⟩) fun fit => alone ((fit ms s begun).1 text).1
    have some' : 0 < (calls ms).length := List.length_pos_of_ne_nil alone
    refine added.gap one some' List.not_mem_nil ?_ ?_ ?_ ?_
    · intro i ts found
      have bound := (ranked.range i ts found).1
      omega
    · rw [state]
    · rw [state]
      have next := places.next
      change 1 < st.nextOutputIndex
      omega
    · rw [state]

include shape numbered in
/-- Text goes on, or comes after a call. -/
theorem counts_write {before : List Move} {s₀ : Bytes} (begun : firstContent ms = some (before, s₀))
    (text : s₀.take 7 ≠ lit "<think>") (alone : calls before = [])
    (later : st.firstContent = false) (plain : st.thinkDetected = false)
    (place : st.textPartStarted = true → st.outputIndex = 0)
    (called : st.textPartStarted = false → ∃ i, Completes ms i)
    (noCall : st.textPartStarted = true → ∀ i, ¬ Completes ms i)
    (places : Places ms st) (placed : Placed st events) (added : Added [0] st events)
    (message : ∃ item, ItemEvent.added 0 item ∈ events ∧ item.itemId = some st.msgItemId) :
    Counts (ms ++ [.content s]) (st.onContent ids s).1 (events ++ (st.onContent ids s).2) := by
  cases opened : st.textPartStarted with
  | true =>
      have state := (sendText_sums st s shape.part).1
      have none' := addedIndexes_sendText st s shape.part
      rw [opened, if_pos rfl] at none'
      have at' := sendText_at st s shape.part
      rw [place opened] at at'
      have silent (i : Value) : ¬ Completes (ms ++ [.content s]) i := fun done =>
        noCall opened i ((completes_content ms i s).mp done)
      obtain ⟨item, mem, own⟩ := message
      rw [onContent_open s shape later opened]
      refine .writing (firstContent_append begun _) text alone ?_ ?_ (fun _ => ?_) ?_ ?_
        (fun _ => silent) ⟨?_, ?_⟩ (placed.ofOther numbered (.inl rfl) at' ?_ ?_ ?_)
        (added.none none' ?_) ⟨item, List.mem_append_left _ mem, ?_⟩
      · rw [state]
        exact later
      · rw [state]
        exact plain
      · rw [state]
        exact place opened
      · rw [state]
        intro closed
        cases closed
      · intro mid t after split i done
        refine absurd ?_ (silent i)
        rw [split]
        exact done.append _
      · rw [state, calls_content]
        exact places.table
      · rw [state, calls_content]
        exact places.next
      · rw [state]
      · rw [state]
      · rw [state]
      · rw [state]
      · rw [state]
        exact own
  | false =>
      obtain ⟨i, done⟩ := called opened
      refine .broken (.inr ?_) fun fit => ?_
      · obtain ⟨item, mem, own⟩ := message
        obtain ⟨first, rest, rfl⟩ := List.append_of_mem mem
        refine ⟨first, 0, item, rest ++ (st.onContent ids s).2, by simp,
          .added (st.nextOutputIndex - 1) (.message st.msgItemId .inProgress none),
          List.mem_append_right _ (onContent_reopens shape s later plain opened), own.symm, ?_⟩
        have mentioned := List.length_pos_of_mem ((mem_calls ms i).mpr done.mentioned)
        have next := places.next
        change st.nextOutputIndex - 1 ≠ 0
        omega
      · obtain ⟨rest, split⟩ := firstContent_split begun
        have whole := ((fit _ _ (firstContent_append begun _)).1 text).2
        have early := whole rest s [] (by rw [split]) i (split ▸ done)
        have mem := (mem_calls before i).mpr early.mentioned
        rw [alone] at mem
        cases mem

include shape numbered in
/-- Reasoning goes on, or a text comes after it. -/
theorem counts_reason {before rest : List Move} {s₀ : Bytes}
    (begun : firstContent ms = some (before, s₀)) (starts : s₀.take 7 = lit "<think>")
    (split : ms = before ++ .content s₀ :: rest)
    (silent : ∀ t ∈ contents rest, ∀ x y, cut (lit "</think>") t = some (x, y) → y = [])
    (mentioned : ∀ i, Completes ms i → Mentioned before i) (later : st.firstContent = false)
    (detected : st.thinkDetected = true) (closed : st.textPartStarted = false)
    (early : Early (calls before) st) (placed : Placed st events) (added : Added [0] st events) :
    Counts (ms ++ [.content s]) (st.onContent ids s).1 (events ++ (st.onContent ids s).2) := by
  obtain ⟨own, is⟩ := Option.isSome_iff_exists.mp (shape.detected detected)
  have mentioned' (i : Value) (done : Completes (ms ++ [.content s]) i) : Mentioned before i :=
    mentioned i ((completes_content ms i s).mp done)
  have silent' (still : ∀ x y, cut (lit "</think>") s = some (x, y) → y = []) :
      ∀ t ∈ contents (rest ++ [.content s]), ∀ x y,
        cut (lit "</think>") t = some (x, y) → y = [] := by
    intro t mem
    rw [contents_content] at mem
    cases List.mem_append.mp mem with
    | inl old => exact silent t old
    | inr new =>
        obtain rfl := List.mem_singleton.mp new
        exact still
  have numbers := addedIndexes_reason st shape.part closed s
  rw [onContent_reason s shape later detected closed]
  cases found : cut (lit "</think>") s with
  | none =>
      rw [found] at numbers
      have at' : AtIndex (some own) 0 (st.sendReasoning s).2 := by
        rw [← is]
        exact .cons rfl rfl (.nil _ _)
      rw [reason_more st found] at numbers ⊢
      exact .reasoning (rest ++ [.content s]) (firstContent_append begun _) starts
        (by rw [split]; simp) (silent' fun x y h => by rw [found] at h; cases h) mentioned' later
        detected closed ⟨early.place, early.next⟩
        (placed.ofOther numbered (.inr is) at' rfl rfl rfl) (added.none numbers rfl)
  | some parts =>
      obtain ⟨x, y⟩ := parts
      rw [found] at numbers
      by_cases text : y = []
      · subst text
        have at' := closing_at st x
        rw [is] at at'
        rw [(reason_close [] st found).1]
        refine .reasoning (rest ++ [.content s]) (firstContent_append begun _) starts
          (by rw [split]; simp) (silent' fun x' y' h => ?_) mentioned' later detected closed
          ⟨early.place, Nat.le_succ_of_le early.next⟩ ?_ (added.none numbers rfl)
        · rw [found] at h
          exact (Prod.mk.inj (Option.some.inj h)).2.symm
        · rw [reason_events st found, if_pos rfl, List.append_nil, is]
          exact placed.ofOther numbered (.inr is) at' rfl rfl rfl
      · dsimp only at numbers
        rw [if_neg text] at numbers
        have state := (reason_close_text st text found).1
        have sent := (sendText_sums (st.reasoned x) y shape.part).1
        have next := early.next
        refine .broken (.inl ⟨(calls before).length + 1, ?_⟩) fun fit => ?_
        · refine added.gap numbers (by omega) ?_ (fun i ts => early.gap) ?_ ?_ ?_
          · rw [List.mem_singleton]
            omega
          · rw [state, sent]
            exact later
          · rw [state, sent]
            change (calls before).length + 1 + 1 < st.nextOutputIndex + 1
            omega
          · rw [state, sent]
            rfl
        · have quiet := ((fit _ _ (firstContent_append begun _)).2 starts).1
          refine text (quiet (rest ++ [.content s]) (by rw [split]; simp) s ?_ x y found)
          rw [contents_content]
          exact List.mem_append_right _ (List.mem_singleton_self _)

end Content

theorem Counts.content {ids : Ids} {ms : List Move} {st : ItemState} {events : List ItemEvent}
    (counts : Counts ms st events) (fresh : Function.Injective ids.item) (shape : Shape ids st)
    (numbered : Numbered ids st) (ranked : Ranked st) (s : Bytes) :
    Counts (ms ++ [.content s]) (st.onContent ids s).1 (events ++ (st.onContent ids s).2) := by
  cases counts with
  | quiet silent first place places placed added =>
      by_cases starts : s.take 7 = lit "<think>"
      · exact counts_think fresh shape numbered ranked s silent first place places placed added starts
      · exact counts_text shape numbered ranked s silent first places placed added starts
  | writing begun text alone later plain place called _ noCall places placed added message =>
      exact counts_write shape numbered s begun text alone later plain place called noCall places
        placed added message
  | reasoning rest begun starts split silent mentioned later detected closed early placed added =>
      exact counts_reason shape numbered s begun starts split silent mentioned later detected
        closed early placed added
  | broken broken out =>
      refine .broken ?_ fun fit => out fit.of_append
      rcases broken with ⟨g, gap⟩ | clash
      · exact .inl ⟨g, gap.content shape s⟩
      · exact .inr (clash.append _)

/-- A call that was not mentioned before the reasoning leaves out a number for good. -/
theorem late_gap {ids : Ids} {st : ItemState} {events : List ItemEvent} {called : List Value}
    {tc : ToolDelta} (shape : Shape ids st) (ranked : Ranked (st.onTool ids tc).1)
    (later : (st.onTool ids tc).1.firstContent = false) (early : Early called (st.onTool ids tc).1)
    (added : Added [0] (st.onTool ids tc).1 events) (ready : (st.updated ids tc).ready = true)
    (late : tc.index ∉ called) : Gap (called.length + 1) (st.onTool ids tc).1 events := by
  have found : (st.onTool ids tc).1.toolStates.lookup tc.index = some (st.written ids tc) := by
    rw [onTool_tools shape, lookup_setEntry_self]
  have bound := (ranked.range _ _ found).2
  have above : called.length + 2 ≤ (st.written ids tc).outputIndex := by
    rcases early.place _ _ found with placed | ⟨-, above⟩
    · have at' := (List.mem_zipIdx_iff_le_and_getElem?_sub.mp placed).2
      exact absurd (List.mem_of_getElem? at') late
    · exact above
  refine ⟨later, by omega, fun i ts => early.gap, ?_, (st.written ids tc).outputIndex, ?_, by omega⟩
  · rw [added.mem, List.mem_singleton]
    rintro (isZero | ⟨i, ts, known, -, index⟩)
    · omega
    · exact early.gap known index
  · refine (added.mem _).mpr (.inr ⟨tc.index, _, found, ?_, rfl⟩)
    unfold ItemState.written
    rw [ready]
    rfl

theorem Counts.tool {ids : Ids} {ms : List Move} {st : ItemState} {events : List ItemEvent}
    (counts : Counts ms st events) (fresh : Function.Injective ids.item) (shape : Shape ids st)
    (known : KnownTools ms st) (numbered : Numbered ids st) (ranked : Ranked st) (tc : ToolDelta) :
    Counts (ms ++ [.tool tc]) (st.onTool ids tc).1 (events ++ (st.onTool ids tc).2) := by
  have step := toolStep [] shape tc
  have kept := (onTool_kept shape tc).1
  cases counts with
  | quiet silent first place places placed added =>
      exact .quiet (firstContent_concat silent (.tool tc)) (step.first.trans first)
        (kept.trans place) (places.tool known shape tc)
        (placed.tool fresh shape numbered (fun _ => place) tc)
        (added.tool tc nofun ranked shape)
  | @writing before s begun text alone later plain place called whole noCall places placed added
      message =>
      obtain ⟨item, mem, own⟩ := message
      have message' : ∃ item, ItemEvent.added 0 item ∈ events ++ (st.onTool ids tc).2 ∧
          item.itemId = some (st.onTool ids tc).1.msgItemId :=
        ⟨item, List.mem_append_left _ mem, by rw [own, (onTool_ids shape tc).1]⟩
      refine .writing (firstContent_append begun _) text alone (step.first.trans later)
        (step.detected.trans plain) ?_ ?_ (whole.tool tc) ?_ (places.tool known shape tc)
        (placed.tool fresh shape numbered place tc)
        (added.tool tc (fun j => List.mem_singleton.mp) ranked shape) message'
      · intro opened
        rw [step.open', Bool.and_eq_true] at opened
        exact kept.trans (place opened.1)
      · intro closed
        rw [step.open', Bool.and_eq_false_iff] at closed
        cases closed with
        | inl was =>
            obtain ⟨i, done⟩ := called was
            exact ⟨i, done.append _⟩
        | inr ready =>
            rw [Bool.not_eq_false'] at ready
            exact ⟨tc.index, ((ready_iff ids known tc).mp ready).1⟩
      · intro opened i done
        rw [step.open', Bool.and_eq_true, Bool.not_eq_true'] at opened
        exact noCall opened.1 i ((completes_quiet known opened.2 i).mp done)
  | @reasoning before s rest begun starts split silent mentioned later detected closed early placed
      added =>
      have known' (i : Value) (mem : i ∈ calls before) : Mentioned ms i := by
        rw [split]
        exact ((mem_calls before i).mp mem).append _
      have early' := early.tool known shape known' tc
      have added' := added.tool tc (fun j => List.mem_singleton.mp) ranked shape
      have placed' := placed.tool fresh shape numbered (fun opened => by simp [closed] at opened) tc
      by_cases late : (st.updated ids tc).ready = true ∧ tc.index ∉ calls before
      · refine .broken (.inl ⟨_, late_gap shape (ranked.tool tc shape) (step.first.trans later) early'
          added' late.1 late.2⟩) fun fit => late.2 ?_
        have mentioned' := ((fit _ _ (firstContent_append begun _)).2 starts).2
        exact (mem_calls before _).mpr (mentioned' _ ((ready_iff ids known tc).mp late.1).1)
      · refine .reasoning (rest ++ [.tool tc]) (firstContent_append begun _) starts
          (by rw [split]; simp) (by rw [contents_tool]; exact silent) (fun i done => ?_)
          (step.first.trans later) (step.detected.trans detected) (step.still closed) early' placed' added'
        by_cases was : Completes ms i
        · exact mentioned i was
        · cases ready : (st.updated ids tc).ready with
          | false => exact absurd ((completes_quiet known ready i).mp done) was
          | true =>
              have inBefore : tc.index ∈ calls before := by
                by_contra out
                exact late ⟨ready, out⟩
              have same := completes_tool ms i tc done was
              rw [← same]
              exact (mem_calls before _).mp inBefore
  | broken broken out =>
      refine .broken ?_ fun fit => out fit.of_append
      rcases broken with ⟨g, gap⟩ | clash
      · exact .inl ⟨g, gap.tool shape tc⟩
      · exact .inr (clash.append _)

/-- Every stream is in one of the phases. -/
theorem run_counts {ids : Ids} (fresh : Function.Injective ids.item) (ms : List Move) :
    Counts ms (runFrom (ItemState.move ids) (newItemState ids) ms).1
      (runFrom (ItemState.move ids) (newItemState ids) ms).2 := by
  induction ms using List.reverseRecOn with
  | nil => exact .quiet rfl rfl rfl ⟨rfl, rfl⟩ ⟨nofun, nofun, nofun⟩ ⟨List.nodup_nil, fun j => by
      simp [addedIndexes, StartedAt, newItemState]⟩
  | append_singleton ms x ih =>
      obtain ⟨shape, known⟩ := run_settled ids ms
      have numbered := run_numbered fresh ms
      have ranked := run_ranked ids ms
      rw [runFrom_concat]
      cases x with
      | content s => exact ih.content fresh shape numbered ranked s
      | tool tc => exact ih.tool fresh shape known numbered ranked tc

/-! ## The numbers at the end of the stream -/

theorem close_addedIndexes (st : ItemState) (order : List (Value × ToolState)) :
    addedIndexes (st.close order).1 = [] := by
  rw [addedIndexes, List.filterMap_eq_nil_iff]
  intro e mem
  rw [close_events] at mem
  cases List.mem_append.mp mem with
  | inl others =>
      cases List.mem_append.mp others with
      | inl reasoning =>
          split at reasoning
          · simp only [ItemState.closeReasoning, List.mem_cons, List.not_mem_nil, or_false] at reasoning
            rcases reasoning with rfl | rfl <;> rfl
          · cases reasoning
      | inr message =>
          split at message
          · simp only [ItemState.closeMessage, List.mem_cons, List.not_mem_nil, or_false] at message
            rcases message with rfl | rfl | rfl <;> rfl
          · cases message
  | inr calls =>
      obtain ⟨ts, -, closing⟩ := List.mem_flatMap.mp calls
      simp only [List.mem_cons, List.not_mem_nil, or_false] at closing
      rcases closing with rfl | rfl <;> rfl

/-- Closing the items changes no number. -/
theorem Placed.close {ids : Ids} {ms : List Move} {st : ItemState} {events : List ItemEvent}
    (placed : Placed st events) (numbered : Numbered ids st) (known : KnownTools ms st)
    (place : st.textPartStarted = true → st.outputIndex = 0) {order : List (Value × ToolState)}
    (perm : order.Perm st.toolStates) : Placed st (events ++ (st.close order).1) := by
  have reasoning : Placed st (events ++ if st.thinkDetected ∧ st.reasoningItemId.isSome ∧
      ¬ st.textPartStarted then st.closeReasoning else []) := by
    split
    · rename_i closes
      obtain ⟨own, is⟩ := Option.isSome_iff_exists.mp closes.2.1
      have at' := closeReasoning_at st
      rw [is] at at'
      exact placed.ofOther numbered (.inr is) at' rfl rfl rfl
    · rwa [List.append_nil]
  have closed (xs : List ItemEvent) (placed : Placed st xs) :
      Placed st (xs ++ if st.textPartStarted then st.closeMessage else []) := by
    split
    · rename_i opened
      have at' := closeMessage_at st
      rw [place opened] at at'
      exact placed.ofOther numbered (.inl rfl) at' rfl rfl rfl
    · rwa [List.append_nil]
  have others := closed _ reasoning
  have calls (e : ItemEvent) (mem : e ∈ closeCalls (startedCalls order)) :
      ∃ i ts, st.toolStates.lookup i = some ts ∧ e.itemId = some ts.itemId ∧
        e.outputIndex = ts.outputIndex := by
    obtain ⟨ts, inStarted, closing⟩ := List.mem_flatMap.mp mem
    obtain ⟨i, found, -⟩ := (mem_startedCalls known perm ts).mp inStarted
    simp only [List.mem_cons, List.not_mem_nil, or_false] at closing
    rcases closing with rfl | rfl
    · exact ⟨i, ts, found, rfl, rfl⟩
    · exact ⟨i, ts, found, rfl, rfl⟩
  rw [close_events, ← List.append_assoc, ← List.append_assoc]
  constructor
  · intro e mem about
    cases List.mem_append.mp mem with
    | inl old => exact others.others e old about
    | inr new =>
        obtain ⟨i, ts, found, own, -⟩ := calls e new
        rw [own] at about
        cases about with
        | inl isMessage => exact absurd (Option.some.inj isMessage) (numbered.message_ne_call found)
        | inr isReasoning => exact absurd rfl (numbered.reasoning_ne_call isReasoning.symm found)
  · intro i ts found e mem about
    cases List.mem_append.mp mem with
    | inl old => exact others.calls i ts found e old about
    | inr new =>
        obtain ⟨j, ts', found', own, index⟩ := calls e new
        obtain rfl := numbered.calls_apart found found' (Option.some.inj (about.symm.trans own))
        rw [index, Option.some.inj (found.symm.trans found')]
  · intro e mem
    cases List.mem_append.mp mem with
    | inl old => exact others.owned e old
    | inr new =>
        obtain ⟨i, ts, found, own, -⟩ := calls e new
        exact ⟨ts.itemId, call_mem_itemIds found, own⟩

/-- Every call in `called` has its place there as its number. -/
def PlacedIn (called : List Value) (st : ItemState) : Prop :=
  ∀ i ∈ called, ∃ ts, st.toolStates.lookup i = some ts ∧ (i, ts.outputIndex) ∈ called.zipIdx 1

theorem Places.placedIn {ms : List Move} {st : ItemState} (places : Places ms st)
    (known : KnownTools ms st) : PlacedIn (calls ms) st := by
  intro i mem
  obtain ⟨ts, found⟩ := Option.isSome_iff_exists.mp
    ((known.mentioned i).mpr ((mem_calls ms i).mp mem))
  exact ⟨ts, found, places.mem (mem_of_lookup_eq_some found)⟩

theorem Early.placedIn {before more : List Move} {st : ItemState} (early : Early (calls before) st)
    (known : KnownTools (before ++ more) st) : PlacedIn (calls before) st := by
  intro i mem
  have inAll : Mentioned (before ++ more) i := ((mem_calls before i).mp mem).append more
  obtain ⟨ts, found⟩ := Option.isSome_iff_exists.mp ((known.mentioned i).mpr inAll)
  rcases early.place i ts found with placed | ⟨out, -⟩
  · exact ⟨ts, found, placed⟩
  · exact absurd mem out

theorem startedAt_iff {ms : List Move} {st : ItemState} {called : List Value}
    (known : KnownTools ms st) (distinct : called.Nodup) (places : PlacedIn called st)
    (early : ∀ i, Completes ms i → i ∈ called) (p : Nat) :
    StartedAt st (p + 1) ↔ ∃ i, called[p]? = some i ∧ Completes ms i := by
  constructor
  · rintro ⟨i, ts, found, started, index⟩
    have done := (known.completes_iff i).mpr ⟨ts, found, started⟩
    obtain ⟨ts', found', placed⟩ := places i (early i done)
    rw [← Option.some.inj (found.symm.trans found'), index] at placed
    exact ⟨i, (List.mem_zipIdx_iff_le_and_getElem?_sub.mp placed).2, done⟩
  · rintro ⟨i, at', done⟩
    obtain ⟨ts, found, placed⟩ := places i (early i done)
    obtain ⟨ts', found', started⟩ := (known.completes_iff i).mp done
    obtain ⟨positive, here⟩ := List.mem_zipIdx_iff_le_and_getElem?_sub.mp placed
    have bound := (List.getElem?_eq_some_iff.mp at').1
    have same := (List.getElem?_inj bound distinct).mp (at'.trans here.symm)
    refine ⟨i, ts, found, ?_, by omega⟩
    rw [Option.some.inj (found.symm.trans found')]
    exact started

/-- The added items are numbered through exactly when the calls are started in order. -/
theorem numbered_iff {ms : List Move} {st : ItemState} {events : List ItemEvent}
    {called : List Value} (known : KnownTools ms st) (added : Added [0] st events)
    (distinct : called.Nodup) (places : PlacedIn called st)
    (early : ∀ i, Completes ms i → i ∈ called) :
    (∃ n, (addedIndexes events).Perm (List.range n)) ↔ StartedInOrder called ms := by
  have startedAt := startedAt_iff known distinct places early
  rw [exists_perm_range_iff, and_iff_right added.distinct]
  constructor
  · rintro closed before i after rfl done j mem
    obtain ⟨q, below, atQ⟩ := List.getElem_of_mem mem
    have atI : (before ++ i :: after)[before.length]? = some i := by simp
    have numbered := (added.mem _).mpr (.inr ((startedAt _).mpr ⟨i, atI, done⟩))
    have lower := closed _ numbered (q + 1) (Nat.succ_lt_succ below)
    rw [added.mem, List.mem_singleton, startedAt] at lower
    rcases lower with isZero | ⟨j', atJ, done'⟩
    · cases isZero
    · rw [List.getElem?_append_left below, List.getElem?_eq_getElem below, atQ,
        Option.some.injEq] at atJ
      rw [atJ]
      exact done'
  · intro inOrder k mem l below
    rw [added.mem, List.mem_singleton] at mem ⊢
    cases l with
    | zero => exact .inl rfl
    | succ q =>
        cases k with
        | zero => cases below
        | succ p =>
            cases mem with
            | inl isZero => cases isZero
            | inr started =>
                obtain ⟨i, atI, done⟩ := (startedAt p).mp started
                obtain ⟨bound, same⟩ := List.getElem?_eq_some_iff.mp atI
                have less : q < p := Nat.lt_of_succ_lt_succ below
                have split : called = called.take p ++ i :: called.drop (p + 1) := by
                  rw [← same, ← List.drop_eq_getElem_cons, List.take_append_drop]
                refine .inr ((startedAt q).mpr ⟨called[q], List.getElem?_eq_getElem _, ?_⟩)
                apply inOrder _ i _ split done _
                rw [List.mem_take_iff_getElem]
                exact ⟨q, by omega, rfl⟩

/-- Calls that are mentioned after all started ones do not matter. -/
theorem startedInOrder_append {ms : List Move} {called more : List Value}
    (distinct : (called ++ more).Nodup) (early : ∀ i, Completes ms i → i ∈ called) :
    StartedInOrder (called ++ more) ms ↔ StartedInOrder called ms := by
  constructor
  · intro inOrder before i after split
    exact inOrder before i (after ++ more) (by rw [split]; simp)
  · intro inOrder before i after split done
    have apart : i ∉ more := fun late =>
      (List.nodup_append.mp distinct).2.2 i (early i done) i late rfl
    rcases List.append_eq_append_iff.mp split with ⟨rest, rfl, tail⟩ | ⟨rest, rfl, tail⟩
    · exact absurd (by rw [tail]; simp) apart
    · cases rest with
      | nil => exact absurd (by rw [← List.nil_append more, ← tail]; simp) apart
      | cons i' rest =>
          rw [List.cons_append, List.cons.injEq] at tail
          obtain ⟨rfl, -⟩ := tail
          exact inOrder before i rest rfl done

theorem Placed.kept {st : ItemState} {events : List ItemEvent} (placed : Placed st events)
    (known : (st.toolStates.map Prod.fst).Nodup) (before : List ItemEvent) (i : Nat) (item : Item)
    (after : List ItemEvent) (split : events = before ++ .added i item :: after) :
    ∀ e ∈ after, e.itemId = item.itemId → e.outputIndex = i := by
  intro e mem own
  have first : ItemEvent.added i item ∈ events := by simp [split]
  have later : e ∈ events := by simp [split, mem]
  exact placed.same known later first own

/-- Without content the first number is missing, unless nothing was added at all. -/
theorem quiet_numbered_iff {ms : List Move} {st : ItemState} {events : List ItemEvent}
    (known : KnownTools ms st) (ranked : Ranked st) (added : Added [] st events) :
    (∃ n, (addedIndexes events).Perm (List.range n)) ↔ ∀ i, ¬ Completes ms i := by
  rw [exists_perm_range_iff, and_iff_right added.distinct]
  constructor
  · intro closed i done
    obtain ⟨ts, found, started⟩ := (known.completes_iff i).mp done
    have mem := (added.mem _).mpr (.inr ⟨i, ts, found, started, rfl⟩)
    cases (added.mem 0).mp (closed _ mem 0 (ranked.range i ts found).1) with
    | inl none' => cases none'
    | inr zero => exact ranked.positive zero
  · intro noCall j mem
    rcases (added.mem j).mp mem with none' | ⟨i, ts, found, started, -⟩
    · cases none'
    · exact absurd ((known.completes_iff i).mpr ⟨ts, found, started⟩) (noCall i)

theorem Gap.spoils {g : Nat} {st : ItemState} {events : List ItemEvent} (gap : Gap g st events) :
    ¬ ∃ n, (addedIndexes events).Perm (List.range n) := by
  rw [exists_perm_range_iff]
  rintro ⟨-, closed⟩
  obtain ⟨j, mem, above⟩ := gap.above
  exact gap.hole (closed j mem g above)

theorem counts_close_iff {ids : Ids} {ms : List Move} {st : ItemState} {events : List ItemEvent}
    (known : KnownTools ms st) (numbered : Numbered ids st)
    (ranked : Ranked st) (counts : Counts ms st events) {order : List (Value × ToolState)}
    (perm : order.Perm st.toolStates) :
    IndexesHold (events ++ (st.close order).1) ↔ NumberedThrough ms := by
  have numbers : addedIndexes (events ++ (st.close order).1) = addedIndexes events := by
    rw [addedIndexes_append, close_addedIndexes, List.append_nil]
  have holds (place : st.textPartStarted = true → st.outputIndex = 0) (placed : Placed st events) :
      IndexesHold (events ++ (st.close order).1) ↔
        ∃ n, (addedIndexes events).Perm (List.range n) := by
    have kept := (placed.close numbered known place perm).kept known.distinct
    exact ⟨fun h => numbers ▸ h.numbered, fun h => ⟨numbers.symm ▸ h, kept⟩⟩
  cases counts with
  | quiet silent first place places placed added =>
      rw [holds (fun _ => place) placed, quiet_numbered_iff known ranked added]
      constructor
      · intro noCall
        refine ⟨fun before s begun => ?_, fun before i after split done => ?_, fun _ => noCall⟩
        · rw [silent] at begun
          cases begun
        · exact absurd done (noCall i)
      · exact fun through => through.2.2 silent
  | @writing before s begun text alone later plain place called whole noCall places placed added
      message =>
      rw [holds place placed, numbered_iff known added (calls_nodup ms) (places.placedIn known)
        fun i done => (mem_calls ms i).mpr done.mentioned]
      refine ⟨fun inOrder => ⟨?_, inOrder, fun silent => ?_⟩, fun through => through.2.1⟩
      · intro before' s' begun'
        obtain ⟨rfl, rfl⟩ := Prod.mk.inj (Option.some.inj (begun.symm.trans begun'))
        exact ⟨fun _ => ⟨alone, whole⟩, fun starts => absurd starts text⟩
      · rw [begun] at silent
        cases silent
  | @reasoning before s rest begun starts split silent mentioned later detected closed early placed
      added =>
      obtain ⟨more, same⟩ := calls_append before (.content s :: rest)
      rw [← split] at same
      have early' (i : Value) (done : Completes ms i) : i ∈ calls before :=
        (mem_calls before i).mpr (mentioned i done)
      have places' : PlacedIn (calls before) st := early.placedIn (split ▸ known)
      have distinct := calls_nodup ms
      rw [← same] at distinct
      rw [holds (fun opened => by simp [closed] at opened) placed,
        numbered_iff known added (calls_nodup before) places' early',
        ← startedInOrder_append distinct early', same]
      refine ⟨fun inOrder => ⟨?_, inOrder, fun silent => ?_⟩, fun through => through.2.1⟩
      · intro before' s' begun'
        obtain ⟨rfl, rfl⟩ := Prod.mk.inj (Option.some.inj (begun.symm.trans begun'))
        refine ⟨fun text => absurd starts text, fun _ => ⟨fun rest' split' => ?_, mentioned⟩⟩
        rw [split, List.append_cancel_left_eq, List.cons.injEq] at split'
        rw [← split'.2]
        exact silent
      · rw [begun] at silent
        cases silent
  | broken broken out =>
      refine iff_of_false (fun h => ?_) fun through => out through.1
      rcases broken with ⟨g, gap⟩ | clash
      · apply gap.spoils
        rw [← numbers]
        exact h.numbered
      · obtain ⟨before, i, item, after, split, e, mem, own, other⟩ := clash.append (st.close order).1
        exact other (h.kept before i item after split e mem own)

/-- The ids are fresh: the items of a stream are numbered through and keep their
    numbers exactly when a text that opens it is mentioned before any call and goes on
    after no started call, reasoning that opens it is followed by no text and by no
    new call, and no call is started while one mentioned before it is not. -/
theorem indexes_hold_iff (rt : Runtime) (ids : Ids) (now : Rat) (model : Option Value)
    {lines : List Bytes} (fresh : Function.Injective ids.item)
    (chunks : ∀ line ∈ lines, IsCountedLine rt line) :
    ∃ st events, streamChunks rt ids now (newStreamState ids model) lines = .ok (st, events) ∧
      ∀ order, order.Perm st.toolStates →
        (IndexesHold (itemEvents (events ++ streamEnd now st order)) ↔
          NumberedThrough (moves rt lines)) := by
  obtain ⟨st, events, handled, items, state, -⟩ := streamChunks_ok rt ids now model chunks
  refine ⟨st, events, handled, fun order perm => ?_⟩
  obtain ⟨shape, known⟩ := run_settled ids (moves rt lines)
  have numbered := run_numbered fresh (moves rt lines)
  have ranked := run_ranked ids (moves rt lines)
  have counts := run_counts fresh (moves rt lines)
  rw [← state] at shape known numbered ranked counts
  rw [← items] at counts
  rw [itemEvents_append, itemEvents_streamEnd now shape]
  exact counts_close_iff known numbered ranked counts perm

theorem hi_indexes_hold_iff :
    ∃ st events, streamChunks (contentRuntime ["hi"]) sampleIds 0
        (newStreamState sampleIds none) (["hi"].map contentLine) = .ok (st, events) ∧
      ∀ order, order.Perm st.toolStates →
        (IndexesHold (itemEvents (events ++ streamEnd 0 st order)) ↔
          NumberedThrough (moves (contentRuntime ["hi"]) (["hi"].map contentLine))) :=
  indexes_hold_iff (contentRuntime ["hi"]) sampleIds 0 none sampleIds_fresh
    (contentLines_counted ["hi"] (by simp only [List.forall_mem_singleton]; decide))

/-- The reasoning has the number 0 and the answer after it the number 2. -/
theorem answer_skips_number :
    ¬ ∀ (rt : Runtime) (ids : Ids) (now : Rat) (model : Option Value) (lines : List Bytes),
      Function.Injective ids.item → (∀ line ∈ lines, IsCountedLine rt line) →
      ∀ st events, streamChunks rt ids now (newStreamState ids model) lines = .ok (st, events) →
        ∀ order, order.Perm st.toolStates →
          IndexesHold (itemEvents (events ++ streamEnd now st order)) := by
  intro always
  have holds := always (contentRuntime thoughtThenAnswer) sampleIds 0 none _ sampleIds_fresh
    (contentLines_counted _ (by simp only [thoughtThenAnswer, List.forall_mem_cons]; decide))
    _ _ rfl _ (List.Perm.refl _)
  have closed := (exists_perm_range_iff.mp holds.numbered).2
  exact absurd (closed 2 (by decide) 1 (by decide)) (by decide)

end E2eeProxy.Responses
