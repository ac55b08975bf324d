import E2eeProxy.ResponsesIndices

/-! # What becomes of a streamed function call

The events of a call carry its output index. Its id and name are stored anew with
every delta that has them, and JSON `null` counts as having them; the last events
are built from what was stored last.
-/

namespace E2eeProxy.Responses

open E2eeProxy.Lua E2eeProxy.OpenAi E2eeProxy.Lib

/-! ## The deltas of a call -/

def Move.deltaOf? (i : Value) : Move → Option ToolDelta
  | .content _ => none
  | .tool tc => if tc.index = i then some tc else none

/-- The deltas of the call with index `i`, in order. -/
def deltasOf (ms : List Move) (i : Value) : List ToolDelta := ms.filterMap (Move.deltaOf? i)

def firstGiven (f : ToolDelta → Option Value) (deltas : List ToolDelta) : Option Value :=
  deltas.head?.bind f

def lastGiven (f : ToolDelta → Option Value) (deltas : List ToolDelta) : Option Value :=
  (deltas.filterMap f).getLast?

def argumentsOf (deltas : List ToolDelta) : Bytes := deltas.flatMap ToolDelta.text

/-- The first delta gives a string; a later one leaves the field out, gives `null` or
    gives the same string. -/
def SameString (f : ToolDelta → Option Value) (deltas : List ToolDelta) : Prop :=
  ∃ s, firstGiven f deltas = some (.str s) ∧
    ∀ d ∈ deltas, f d = none ∨ f d = some .null ∨ f d = some (.str s)

/-- The arguments of a delta are a string or absent. -/
def StringArguments (d : ToolDelta) : Prop :=
  d.arguments = none ∨ ∃ s, d.arguments = some (.str s)

/-- What is appended for string arguments is the string, and nothing without arguments. -/
structure Appends (d : ToolDelta) : Prop where
  absent : d.arguments = none → d.text = []
  given : ∀ s, d.arguments = some (.str s) → d.text = s

theorem readToolDelta_appends {rt : Runtime} {v : Value} {d : ToolDelta}
    (read : readToolDelta rt v = .ok d) : Appends d := by
  obtain ⟨idx, -, read⟩ := bind_ok read
  obtain ⟨id, -, read⟩ := bind_ok read
  obtain ⟨fn, -, read⟩ := bind_ok read
  obtain ⟨name, -, read⟩ := bind_ok read
  obtain ⟨arguments, -, read⟩ := bind_ok read
  cases arguments with
  | none =>
      cases read
      exact ⟨fun _ => rfl, nofun⟩
  | some v =>
      cases given : truthy (some v) with
      | false =>
          rw [given] at read
          cases read
          have absent : present (some v) = none := by simp [present, Option.filter, given]
          exact ⟨fun _ => rfl, fun s wrong => by cases absent.symm.trans wrong⟩
      | true =>
          rw [given] at read
          obtain ⟨text, appended, read⟩ := bind_ok read
          cases read
          have there : present (some v) = some v := by simp [present, Option.filter, given]
          refine ⟨fun wrong => (by cases there.symm.trans wrong), fun s same => ?_⟩
          cases there.symm.trans same
          exact (Except.ok.inj appended).symm

/-- The deltas of every call are those of one call. -/
def WellIdentified (ms : List Move) : Prop :=
  ∀ i ∈ calls ms, SameString ToolDelta.id (deltasOf ms i) ∧
    SameString ToolDelta.name (deltasOf ms i) ∧ ∀ d ∈ deltasOf ms i, StringArguments d

/-- The last delta that gives an id gives a string, and so for the name. -/
def NotNulled (deltas : List ToolDelta) : Prop :=
  lastGiven ToolDelta.id deltas ≠ some .null ∧ lastGiven ToolDelta.name deltas ≠ some .null

theorem deltasOf_append (ms more : List Move) (i : Value) :
    deltasOf (ms ++ more) i = deltasOf ms i ++ deltasOf more i := List.filterMap_append

theorem deltasOf_content (ms : List Move) (s : Bytes) (i : Value) :
    deltasOf (ms ++ [.content s]) i = deltasOf ms i := by
  rw [deltasOf_append]
  exact List.append_nil _

theorem deltasOf_tool (ms : List Move) (tc : ToolDelta) :
    deltasOf (ms ++ [.tool tc]) tc.index = deltasOf ms tc.index ++ [tc] := by
  rw [deltasOf_append]
  simp [deltasOf, Move.deltaOf?]

theorem deltasOf_tool_ne (ms : List Move) (tc : ToolDelta) {i : Value} (other : i ≠ tc.index) :
    deltasOf (ms ++ [.tool tc]) i = deltasOf ms i := by
  rw [deltasOf_append]
  simp [deltasOf, Move.deltaOf?, Ne.symm other]

theorem mem_deltasOf {ms : List Move} {i : Value} {d : ToolDelta} :
    d ∈ deltasOf ms i ↔ .tool d ∈ ms ∧ d.index = i := by
  constructor
  · intro mem
    obtain ⟨x, here, found⟩ := List.mem_filterMap.mp mem
    cases x with
    | content s => cases found
    | tool tc =>
        simp only [Move.deltaOf?, Option.ite_none_right_eq_some, Option.some.injEq] at found
        obtain ⟨index, rfl⟩ := found
        exact ⟨here, index⟩
  · rintro ⟨mem, rfl⟩
    exact List.mem_filterMap.mpr ⟨.tool d, mem, by simp [Move.deltaOf?]⟩

theorem deltasOf_ne_nil_iff (ms : List Move) (i : Value) : deltasOf ms i ≠ [] ↔ i ∈ calls ms := by
  rw [mem_calls]
  constructor
  · intro some
    obtain ⟨d, mem⟩ := List.exists_mem_of_ne_nil _ some
    exact ⟨d, mem_deltasOf.mp mem⟩
  · rintro ⟨d, mem, index⟩ none
    have here := mem_deltasOf.mpr ⟨mem, index⟩
    rw [none] at here
    cases here

theorem firstGiven_append (f : ToolDelta → Option Value) {deltas : List ToolDelta}
    (some : deltas ≠ []) (more : List ToolDelta) :
    firstGiven f (deltas ++ more) = firstGiven f deltas := by
  cases deltas with
  | nil => exact absurd rfl some
  | cons d deltas => rfl

theorem lastGiven_concat (f : ToolDelta → Option Value) (deltas : List ToolDelta) (d : ToolDelta) :
    lastGiven f (deltas ++ [d]) = (f d <|> lastGiven f deltas) := by
  unfold lastGiven
  cases given : f d with
  | none => simp [List.filterMap_append, given]
  | some v => simp [List.filterMap_append, given]

theorem SameString.of_append {f : ToolDelta → Option Value} {deltas more : List ToolDelta}
    (same : SameString f (deltas ++ more)) (some : deltas ≠ []) : SameString f deltas := by
  obtain ⟨s, first, each⟩ := same
  rw [firstGiven_append f some] at first
  exact ⟨s, first, fun d mem => each d (List.mem_append_left more mem)⟩

theorem WellIdentified.of_append {ms more : List Move} (h : WellIdentified (ms ++ more)) :
    WellIdentified ms := by
  intro i mem
  have some := (deltasOf_ne_nil_iff ms i).mpr mem
  have later : i ∈ calls (ms ++ more) := (calls_append ms more).subset mem
  obtain ⟨id, name, arguments⟩ := h i later
  rw [deltasOf_append] at id name arguments
  exact ⟨id.of_append some, name.of_append some,
    fun d mem => arguments d (List.mem_append_left _ mem)⟩

/-- Where the first and the last agree, nothing was nulled. -/
theorem SameString.last_eq_iff {f : ToolDelta → Option Value} {deltas : List ToolDelta}
    (same : SameString f deltas) :
    lastGiven f deltas = firstGiven f deltas ↔ lastGiven f deltas ≠ some .null := by
  obtain ⟨s, first, each⟩ := same
  rw [first]
  constructor
  · intro last
    rw [last]
    simp
  · intro notNull
    cases last : lastGiven f deltas with
    | none =>
        cases deltas with
        | nil => cases first
        | cons d deltas =>
            have given : f d = some (.str s) := first
            simp [lastGiven, given] at last
    | some v =>
        obtain ⟨d, mem, given⟩ := List.mem_filterMap.mp (List.mem_of_getLast? last)
        rcases each d mem with none | null | str
        · rw [none] at given
          cases given
        · rw [null] at given
          exact absurd (last.trans given.symm) notNull
        · rw [← str, given]

/-! ## What the events say of a call -/

inductive CallNote where
  | announced (item : Item)
  | argumentsDelta (delta : Value)
  | argumentsDone (callId name : Option Value) (arguments : Bytes)
  | done (item : Item)
  deriving DecidableEq

/-- What an event says of the call with output index `k`. -/
def ItemEvent.callNote? (k : Nat) : ItemEvent → Option CallNote
  | .added j item => if j = k ∧ item.isCall then some (.announced item) else none
  | .done j item => if j = k ∧ item.isCall then some (.done item) else none
  | .argumentsDelta _ j _ delta => if j = k then some (.argumentsDelta delta) else none
  | .argumentsDone _ j callId name arguments =>
      if j = k then some (.argumentsDone callId name arguments) else none
  | .contentPartAdded .. | .contentPartDone .. | .textDelta .. | .textDone ..
  | .reasoningDelta .. | .reasoningDone .. => none

def notes (k : Nat) (events : List ItemEvent) : List CallNote :=
  events.filterMap (ItemEvent.callNote? k)

/-- The text that a client puts together from the deltas. -/
def joined (deltas : List Value) : Bytes := deltas.flatMap fun v => (asString (some v)).getD []

/-- The call is announced, filled and closed under one id and name, with all of its
    arguments, and so it stands in the output. -/
def Keeps (deltas : List ToolDelta) (notes : List CallNote) (output : List Item) : Prop :=
  ∃ itemId callId name sent arguments,
    notes = .announced (.functionCall itemId .inProgress callId name []) ::
      sent.map .argumentsDelta ++ [.argumentsDone callId name arguments,
        .done (.functionCall itemId .completed callId name arguments)] ∧
    .functionCall itemId .completed callId name arguments ∈ output ∧
    joined sent = arguments ∧ argumentsOf deltas = arguments

/-- A call that ends under another id was not kept. -/
theorem not_keeps (said : List CallNote) {deltas : List ToolDelta} {noted : List CallNote}
    {output : List Item}
    {itemId a a' : Bytes} {status : Status} {callId name callId' name' : Option Value} {item : Item}
    (told : noted = .announced (.functionCall itemId status callId name a) ::
      (said ++ [.argumentsDone callId' name' a', .done item])) (other : callId ≠ callId') :
    ¬ Keeps deltas noted output := by
  rintro ⟨id, own, ownName, sent, arguments, same, -⟩
  rw [told] at same
  obtain ⟨head, tail⟩ := List.cons.inj same
  obtain ⟨-, ends⟩ := List.append_inj' tail rfl
  simp only [CallNote.announced.injEq, Item.functionCall.injEq] at head
  simp only [List.cons.injEq, CallNote.argumentsDone.injEq] at ends
  exact other (head.2.2.1.trans ends.1.1.symm)

theorem notes_append (k : Nat) (xs ys : List ItemEvent) :
    notes k (xs ++ ys) = notes k xs ++ notes k ys := List.filterMap_append

theorem notes_closeMessage (k : Nat) (st : ItemState) : notes k st.closeMessage = [] := by
  simp [notes, ItemState.closeMessage, ItemEvent.callNote?, ItemState.messageItem, Item.isCall]

theorem notes_closeReasoning (k : Nat) (st : ItemState) : notes k st.closeReasoning = [] := by
  simp [notes, ItemState.closeReasoning, ItemEvent.callNote?, Item.isCall]

theorem notes_sendText (k : Nat) (st : ItemState) (s : Bytes) : notes k (st.sendText s).2 = [] := by
  unfold ItemState.sendText ItemState.ensureTextPartStarted ItemState.ensureMessageStarted
  cases st.messageStarted <;> cases h : st.textPartStarted <;>
    simp [notes, ItemEvent.callNote?, Item.isCall, h]

theorem notes_sendReasoning (k : Nat) (st : ItemState) (s : Bytes) :
    notes k (st.sendReasoning s).2 = [] := rfl

theorem notes_openReasoning (k : Nat) (ids : Ids) (st : ItemState) (after : Bytes) :
    notes k (st.openReasoning ids after).2 = [] := by
  unfold ItemState.openReasoning unlessEmpty
  split <;> simp [notes, ItemEvent.callNote?, Item.isCall]

theorem notes_reason (k : Nat) (st : ItemState) (s : Bytes) : notes k (st.reason s).2 = [] := by
  unfold ItemState.reason
  split
  · rename_i before after _
    simp only [notes_append]
    by_cases empty : before = [] <;> by_cases text : after = [] <;>
      simp [empty, text, notes_closeReasoning, notes_sendReasoning, notes_sendText] <;> rfl
  · exact notes_sendReasoning k st s

/-- Content says nothing of any call. -/
theorem notes_content {ids : Ids} {st : ItemState} (shape : Shape ids st) (k : Nat) (s : Bytes) :
    notes k (st.onContent ids s).2 = [] := by
  rcases onContent_cases shape s with ⟨-, -, same⟩ | ⟨-, -, same⟩ | ⟨-, -, same⟩ | ⟨-, -, -, same⟩
  · rw [same]
    exact notes_openReasoning k ids _ _
  · rw [same]
    exact notes_sendText k _ s
  · rw [same]
    exact notes_sendText k _ s
  · rw [same]
    exact notes_reason k st s

theorem notes_opening (k : Nat) (ts : ToolState) :
    notes k ts.opening = if ts.outputIndex = k then
      .announced (ts.item .inProgress []) ::
        (unlessEmpty (fun s => .argumentsDelta (.str s)) ts.args) else [] := by
  unfold ToolState.opening unlessEmpty
  by_cases here : ts.outputIndex = k <;> by_cases empty : ts.args = [] <;>
    simp [notes, ItemEvent.callNote?, here, empty, ToolState.item, Item.isCall]

/-! ## Runs -/

/-- The entry of a call holds what its deltas gave, and the events have told it so far. -/
structure Told (deltas : List ToolDelta) (ts : ToolState) (events : List ItemEvent) : Prop where
  started : ts.started = true
  callId : ts.callId = lastGiven ToolDelta.id deltas
  name : ts.name = lastGiven ToolDelta.name deltas
  args : ts.args = argumentsOf deltas
  said : ∃ sent, notes ts.outputIndex events =
    .announced (.functionCall ts.itemId .inProgress (firstGiven ToolDelta.id deltas)
      (firstGiven ToolDelta.name deltas) []) :: sent.map .argumentsDelta ∧ joined sent = ts.args

structure Telling (ms : List Move) (st : ItemState) (events : List ItemEvent) : Prop where
  told : ∀ i ts, st.toolStates.lookup i = some ts → Told (deltasOf ms i) ts events
  unused : ∀ k, st.nextOutputIndex ≤ k → notes k events = []

/-- Events that say nothing of a call leave it as it was told. -/
theorem Told.append {deltas : List ToolDelta} {ts : ToolState} {events new : List ItemEvent}
    (told : Told deltas ts events) (silent : notes ts.outputIndex new = []) :
    Told deltas ts (events ++ new) := by
  obtain ⟨sent, same, filled⟩ := told.said
  refine ⟨told.started, told.callId, told.name, told.args, sent, ?_, filled⟩
  rw [notes_append, silent, List.append_nil, same]

section Tool

variable {ids : Ids} {ms : List Move} {st : ItemState} {events : List ItemEvent}

theorem Telling.content (telling : Telling ms st events) (shape : Shape ids st) (s : Bytes) :
    Telling (ms ++ [.content s]) (st.onContent ids s).1 (events ++ (st.onContent ids s).2) := by
  constructor
  · intro i ts found
    rw [(settled_content shape s).tools] at found
    rw [deltasOf_content]
    exact (telling.told i ts found).append (notes_content shape ts.outputIndex s)
  · intro k later
    rw [notes_append, telling.unused k ((onContent_next s shape).trans later),
      notes_content shape k s]
    rfl

/-- The first delta of a call announces it and sends its arguments. -/
theorem fresh_told (ids : Ids) {tc : ToolDelta} (telling : Telling ms st events)
    (absent : st.toolStates.lookup tc.index = none) (none : deltasOf ms tc.index = [])
    (hasId : tc.id.isSome) (hasName : tc.name.isSome) :
    (st.written ids tc).outputIndex = st.nextOutputIndex ∧
      Told (deltasOf (ms ++ [.tool tc]) tc.index) (st.written ids tc)
        (events ++ (st.onTool ids tc).2) ∧
      ∀ k, k ≠ st.nextOutputIndex → notes k (st.onTool ids tc).2 = [] := by
  have updated : st.updated ids tc = ⟨ids.item st.nextId, tc.id, tc.name, tc.text, false,
      st.nextOutputIndex⟩ := by
    rcases toolEntry_cases ids st tc with ⟨ts, found, -⟩ | ⟨-, entry⟩
    · rw [absent] at found
      cases found
    · simp [ItemState.updated, entry, ToolState.create, ToolState.update, orElse_idem]
  have ready : (st.updated ids tc).ready = true := by
    rw [updated]
    simp [ToolState.ready, hasId, hasName]
  have written : st.written ids tc = ⟨ids.item st.nextId, tc.id, tc.name, tc.text, true,
      st.nextOutputIndex⟩ := by
    rw [ItemState.written, ready, updated]
    rfl
  have closing (k : Nat) : notes k (if st.textPartStarted then st.closeMessage else []) = [] := by
    split
    · exact notes_closeMessage k st
    · rfl
  have told (k : Nat) : notes k (st.onTool ids tc).2 = notes k (st.updated ids tc).opening := by
    rw [onTool_events ready, notes_append, closing, List.nil_append]
  have deltas : deltasOf (ms ++ [.tool tc]) tc.index = [tc] := by
    rw [deltasOf_tool, none, List.nil_append]
  refine ⟨by rw [written], ?_, fun k other => ?_⟩
  · rw [written, deltas]
    refine ⟨rfl, ?_, ?_, ?_, ?_⟩
    · obtain ⟨v, given⟩ := Option.isSome_iff_exists.mp hasId
      simp [lastGiven, given]
    · obtain ⟨v, given⟩ := Option.isSome_iff_exists.mp hasName
      simp [lastGiven, given]
    · simp [argumentsOf]
    · refine ⟨unlessEmpty .str tc.text, ?_, ?_⟩
      · rw [notes_append, telling.unused _ (Nat.le_refl _), told, notes_opening, updated,
          unlessEmpty_map Value.str CallNote.argumentsDelta]
        simp [ToolState.item, firstGiven]
      · unfold unlessEmpty joined
        split
        · rename_i empty
          exact empty.symm
        · simp [asString]
  · rw [told, notes_opening, updated, if_neg other.symm]

/-- A later delta of a call sends its arguments. -/
theorem known_told (ids : Ids) {tc : ToolDelta} {ts : ToolState}
    (found : st.toolStates.lookup tc.index = some ts) (told : Told (deltasOf ms tc.index) ts events)
    (some : deltasOf ms tc.index ≠ []) (arguments : StringArguments tc) (appends : Appends tc) :
    (st.written ids tc).outputIndex = ts.outputIndex ∧
      Told (deltasOf (ms ++ [.tool tc]) tc.index) (st.written ids tc)
        (events ++ (st.onTool ids tc).2) ∧
      ∀ k, k ≠ ts.outputIndex → notes k (st.onTool ids tc).2 = [] := by
  have updated : st.updated ids tc = ts.update tc := by
    rcases toolEntry_cases ids st tc with ⟨ts', found', entry⟩ | ⟨absent, -⟩
    · rw [found] at found'
      rw [ItemState.updated, entry, Option.some.inj found']
    · rw [found] at absent
      cases absent
  have started : (st.updated ids tc).started = true := by
    rw [updated]
    exact told.started
  have notReady : (st.updated ids tc).ready = false := by simp [ToolState.ready, started]
  have written : st.written ids tc = ts.update tc := by
    rw [ItemState.written, notReady, updated]
    rfl
  have events' : (st.onTool ids tc).2 = tc.arguments.toList.map fun arguments =>
      .argumentsDelta ts.itemId ts.outputIndex (ts.update tc).callId arguments := by
    rw [onTool_events_quiet notReady, started, updated]
    rfl
  have said (k : Nat) : notes k (st.onTool ids tc).2 =
      if ts.outputIndex = k then tc.arguments.toList.map .argumentsDelta else [] := by
    rw [events']
    cases tc.arguments with
    | none => simp [notes]
    | some v => by_cases here : ts.outputIndex = k <;> simp [notes, ItemEvent.callNote?, here]
  obtain ⟨sent, same, filled⟩ := told.said
  refine ⟨by rw [written]; rfl, ?_, fun k other => by rw [said, if_neg other.symm]⟩
  rw [written, deltasOf_tool]
  refine ⟨told.started, ?_, ?_, ?_, sent ++ tc.arguments.toList, ?_, ?_⟩
  · rw [lastGiven_concat, ← told.callId]
    rfl
  · rw [lastGiven_concat, ← told.name]
    rfl
  · simp [ToolState.update, argumentsOf, told.args]
  · have place : (ts.update tc).outputIndex = ts.outputIndex := rfl
    rw [place, notes_append, same, said, if_pos rfl, firstGiven_append _ some,
      firstGiven_append _ some, List.map_append]
    rfl
  · have text : joined tc.arguments.toList = tc.text := by
      rcases arguments with absent | ⟨s, given⟩
      · simp [absent, appends.absent absent, joined]
      · simp [given, appends.given s given, joined, asString]
    rw [joined, List.flatMap_append]
    exact congrArg₂ (· ++ ·) filled text

/-- The delta is known by its own entry, or as the first of a new one. -/
theorem Telling.tool (telling : Telling ms st events) (shape : Shape ids st)
    (known : KnownTools ms st) (ranked : Ranked st) {tc : ToolDelta}
    (identified : WellIdentified (ms ++ [.tool tc])) (appends : Appends tc) :
    Telling (ms ++ [.tool tc]) (st.onTool ids tc).1 (events ++ (st.onTool ids tc).2) := by
  have tools := onTool_tools shape tc
  have next := (onTool_kept shape tc).2.2
  have mentioned : st.toolStates.lookup tc.index = none ↔ deltasOf ms tc.index = [] := by
    have iff := known.mentioned tc.index
    rw [← mem_calls, ← deltasOf_ne_nil_iff] at iff
    rw [← Option.not_isSome_iff_eq_none, iff, not_not]
  have own : tc ∈ deltasOf (ms ++ [.tool tc]) tc.index := mem_deltasOf.mpr ⟨by simp, rfl⟩
  obtain ⟨id, name, arguments⟩ := identified tc.index
    ((deltasOf_ne_nil_iff _ _).mp (List.ne_nil_of_mem own))
  -- What the delta says stands at the index of its entry, and no other entry has it.
  have step : Told (deltasOf (ms ++ [.tool tc]) tc.index) (st.written ids tc)
        (events ++ (st.onTool ids tc).2) ∧
      (∀ i ts, i ≠ tc.index → st.toolStates.lookup i = some ts →
        notes ts.outputIndex (st.onTool ids tc).2 = []) ∧
      st.nextOutputIndex ≤ (st.toolEntry ids tc).1.nextOutputIndex ∧
      ∀ k, (st.toolEntry ids tc).1.nextOutputIndex ≤ k → notes k (st.onTool ids tc).2 = [] := by
    rcases written_index tc ids st with ⟨ts, found, -, same⟩ | ⟨absent, -, more⟩
    · have some : deltasOf ms tc.index ≠ [] := by
        rw [ne_eq, ← mentioned, found]
        simp
      obtain ⟨-, told, silent⟩ := known_told ids found (telling.told _ ts found) some
        (arguments tc own) appends
      refine ⟨told, fun i ts' other found' => silent _ fun eq => ?_, same.ge, fun k later => ?_⟩
      · exact other (ranked.apart i tc.index ts' ts found' found eq)
      · have bound := (ranked.range _ ts found).2
        exact silent k (by omega)
    · have none := mentioned.mp absent
      rw [deltasOf_tool, none, List.nil_append] at id name
      obtain ⟨a, hasId, -⟩ := id
      obtain ⟨b, hasName, -⟩ := name
      have givesId : tc.id = some (.str a) := hasId
      have givesName : tc.name = some (.str b) := hasName
      obtain ⟨-, told, silent⟩ := fresh_told ids telling absent none
        (by simp [givesId]) (by simp [givesName])
      refine ⟨told, fun i ts' other found' => silent _ ?_, by omega, fun k later => silent k (by omega)⟩
      have bound := (ranked.range i ts' found').2
      omega
  obtain ⟨told, others, grows, later⟩ := step
  constructor
  · intro i ts found
    rw [tools, lookup_setEntry] at found
    split at found
    · rename_i here
      subst here
      exact Option.some.inj found ▸ told
    · rename_i other
      rw [deltasOf_tool_ne ms tc other]
      exact (telling.told i ts found).append (others i ts other found)
  · intro k above
    rw [next] at above
    rw [notes_append, telling.unused k (grows.trans above), later k above]
    rfl

theorem run_telling (ids : Ids) {ms : List Move} (identified : WellIdentified ms)
    (appends : ∀ tc, .tool tc ∈ ms → Appends tc) :
    Telling ms (runFrom (ItemState.move ids) (newItemState ids) ms).1
      (runFrom (ItemState.move ids) (newItemState ids) ms).2 := by
  induction ms using List.reverseRecOn with
  | nil => exact ⟨nofun, fun _ _ => rfl⟩
  | append_singleton ms x ih =>
      obtain ⟨shape, known⟩ := run_settled ids ms
      have ranked := run_ranked ids ms
      have telling := ih identified.of_append fun tc mem => appends tc (List.mem_append_left _ mem)
      rw [runFrom_concat]
      cases x with
      | content s => exact telling.content shape s
      | tool tc => exact telling.tool shape known ranked identified (appends tc (by simp))

end Tool

/-! ## The end of the stream -/

theorem notes_closeCalls_other {started : List ToolState} {k : Nat}
    (apart : ∀ ts ∈ started, ts.outputIndex ≠ k) : notes k (closeCalls started) = [] := by
  induction started with
  | nil => rfl
  | cons ts started ih =>
      have here := apart ts List.mem_cons_self
      have rest := ih fun other mem => apart other (List.mem_cons_of_mem ts mem)
      have split : closeCalls (ts :: started) =
          [.argumentsDone ts.itemId ts.outputIndex ts.callId ts.name ts.args,
            .done ts.outputIndex (ts.item .completed ts.args)] ++ closeCalls started := rfl
      rw [split, notes_append, rest]
      simp [notes, ItemEvent.callNote?, here]

theorem notes_closeCalls {started : List ToolState}
    (distinct : (started.map ToolState.outputIndex).Nodup) {ts : ToolState} (mem : ts ∈ started) :
    notes ts.outputIndex (closeCalls started) =
      [.argumentsDone ts.callId ts.name ts.args, .done (ts.item .completed ts.args)] := by
  obtain ⟨before, after, rfl⟩ := List.append_of_mem mem
  have split : closeCalls (before ++ ts :: after) = closeCalls before ++
      ([.argumentsDone ts.itemId ts.outputIndex ts.callId ts.name ts.args,
        .done ts.outputIndex (ts.item .completed ts.args)] ++ closeCalls after) := by
    rw [closeCalls, List.flatMap_append, List.flatMap_cons]
    rfl
  rw [List.map_append, List.map_cons, List.nodup_append] at distinct
  obtain ⟨-, rest, apart⟩ := distinct
  rw [split, notes_append, notes_append, notes_closeCalls_other, notes_closeCalls_other]
  · simp [notes, ItemEvent.callNote?, ToolState.item, Item.isCall]
  · intro other inAfter same
    apply (List.nodup_cons.mp rest).1
    rw [← same]
    exact List.mem_map_of_mem inAfter
  · intro other inBefore same
    exact apart _ (List.mem_map_of_mem inBefore) _ List.mem_cons_self same

theorem notes_close (k : Nat) (st : ItemState) (order : List (Value × ToolState)) :
    notes k (st.close order).1 = notes k (closeCalls (startedCalls order)) := by
  rw [close_events, notes_append, notes_append]
  have reasoning : notes k (if st.thinkDetected ∧ st.reasoningItemId.isSome ∧ ¬ st.textPartStarted
      then st.closeReasoning else []) = [] := by
    split
    · exact notes_closeReasoning k st
    · rfl
  have message : notes k (if st.textPartStarted then st.closeMessage else []) = [] := by
    split
    · exact notes_closeMessage k st
    · rfl
  rw [reasoning, message]
  rfl

section Close

variable {ms : List Move} {st : ItemState} {events : List ItemEvent} {order : List (Value × ToolState)}

/-- Calls that are closed have different output indexes. -/
theorem startedCalls_apart (known : KnownTools ms st) (ranked : Ranked st)
    (perm : order.Perm st.toolStates) :
    ((startedCalls order).map ToolState.outputIndex).Nodup := by
  have keys : (order.map Prod.fst).Nodup := (perm.map Prod.fst).nodup_iff.mpr known.distinct
  have entries : order.Pairwise fun a b => a.2.outputIndex ≠ b.2.outputIndex := by
    refine (List.pairwise_map.mp keys).imp_of_mem fun {a b} inOrder inOrder' differ same => ?_
    exact differ (ranked.apart a.1 b.1 a.2 b.2
      (lookup_eq_some_of_mem known.distinct (perm.subset inOrder))
      (lookup_eq_some_of_mem known.distinct (perm.subset inOrder')) same)
  rw [startedCalls, List.map_map]
  exact List.pairwise_map.mpr (entries.filter _)

/-- The output has one function call for every call of the stream. -/
theorem close_calls (known : KnownTools ms st) (telling : Telling ms st events)
    (perm : order.Perm st.toolStates) {entry : Value → ToolState}
    (entries : ∀ i ∈ calls ms, st.toolStates.lookup i = some (entry i)) :
    ((st.close order).2.filter Item.isCall).Perm
      ((calls ms).map fun i => (entry i).item .completed (entry i).args) := by
  have all : startedCalls order = order.map Prod.snd := by
    rw [startedCalls, List.filter_eq_self.mpr]
    rintro ⟨i, ts⟩ inOrder
    exact (telling.told i ts (lookup_eq_some_of_mem known.distinct (perm.subset inOrder))).started
  have output : (st.close order).2.filter Item.isCall =
      (order.map Prod.snd).map fun ts => ts.item .completed ts.args := by
    have split : (st.close order).2 = (if st.textPartStarted then [st.messageItem] else []) ++
        (startedCalls order).map fun ts => ts.item .completed ts.args := rfl
    rw [split, all, List.filter_append]
    have message : (if st.textPartStarted then [st.messageItem] else []).filter Item.isCall = [] := by
      split <;> rfl
    rw [message, List.nil_append, List.filter_eq_self]
    intro item mem
    obtain ⟨ts, -, rfl⟩ := List.mem_map.mp mem
    rfl
  have keys : (st.toolStates.map Prod.fst).Perm (calls ms) := by
    refine (List.perm_ext_iff_of_nodup known.distinct (calls_nodup ms)).mpr fun i => ?_
    rw [mem_calls, ← known.mentioned, List.mem_map]
    constructor
    · rintro ⟨⟨j, ts⟩, inTable, rfl⟩
      rw [lookup_eq_some_of_mem known.distinct inTable]
      rfl
    · intro found
      obtain ⟨ts, found⟩ := Option.isSome_iff_exists.mp found
      exact ⟨(i, ts), mem_of_lookup_eq_some found, rfl⟩
  have values : st.toolStates.map Prod.snd = (st.toolStates.map Prod.fst).map entry := by
    rw [List.map_map]
    apply List.map_congr_left
    rintro ⟨i, ts⟩ inTable
    have found := lookup_eq_some_of_mem known.distinct inTable
    have mentioned : i ∈ calls ms := keys.subset (List.mem_map_of_mem inTable)
    exact Option.some.inj (found.symm.trans (entries i mentioned))
  have listed : (order.map Prod.snd).Perm ((calls ms).map entry) := by
    apply (perm.map Prod.snd).trans
    rw [values]
    exact keys.map entry
  rw [output]
  refine (listed.map fun ts => ts.item .completed ts.args).trans ?_
  rw [List.map_map]
  exact .refl _

/-- All that is said of a call: what its first delta gave, its arguments, and at the
    end what the deltas gave last. -/
theorem notes_of_call (known : KnownTools ms st) (ranked : Ranked st) (telling : Telling ms st events)
    (perm : order.Perm st.toolStates) {i : Value} {ts : ToolState}
    (found : st.toolStates.lookup i = some ts) :
    ∃ sent, joined sent = argumentsOf (deltasOf ms i) ∧
      notes ts.outputIndex (events ++ (st.close order).1) =
        .announced (.functionCall ts.itemId .inProgress (firstGiven ToolDelta.id (deltasOf ms i))
          (firstGiven ToolDelta.name (deltasOf ms i)) []) ::
        (sent.map .argumentsDelta ++
          [.argumentsDone (lastGiven ToolDelta.id (deltasOf ms i))
            (lastGiven ToolDelta.name (deltasOf ms i)) (argumentsOf (deltasOf ms i)),
          .done (ts.item .completed ts.args)]) := by
  have told := telling.told i ts found
  obtain ⟨sent, same, filled⟩ := told.said
  have mem := (mem_startedCalls known perm ts).mpr ⟨i, found, told.started⟩
  refine ⟨sent, filled.trans told.args, ?_⟩
  rw [notes_append, same, notes_close, notes_closeCalls (startedCalls_apart known ranked perm) mem,
    ← told.callId, ← told.name, ← told.args]
  rfl

theorem keeps_iff (known : KnownTools ms st) (ranked : Ranked st) (telling : Telling ms st events)
    (perm : order.Perm st.toolStates) (identified : WellIdentified ms) {i : Value} {ts : ToolState}
    (found : st.toolStates.lookup i = some ts) (mentioned : i ∈ calls ms) :
    Keeps (deltasOf ms i) (notes ts.outputIndex (events ++ (st.close order).1)) (st.close order).2 ↔
      NotNulled (deltasOf ms i) := by
  obtain ⟨id, name, -⟩ := identified i mentioned
  have told := telling.told i ts found
  obtain ⟨sent, filled, said⟩ := notes_of_call known ranked telling perm found
  rw [NotNulled, ← id.last_eq_iff, ← name.last_eq_iff]
  constructor
  · rintro ⟨itemId, callId, callName, sent', arguments, same, -, -, -⟩
    rw [said] at same
    obtain ⟨head, tail⟩ := List.cons.inj same
    obtain ⟨-, ends⟩ := List.append_inj' tail rfl
    simp only [CallNote.announced.injEq, Item.functionCall.injEq] at head
    simp only [List.cons.injEq, CallNote.argumentsDone.injEq] at ends
    obtain ⟨-, -, rfl, rfl, -⟩ := head
    exact ⟨ends.1.1, ends.1.2.1⟩
  · rintro ⟨sameId, sameName⟩
    refine ⟨ts.itemId, lastGiven ToolDelta.id (deltasOf ms i), lastGiven ToolDelta.name (deltasOf ms i),
      sent, argumentsOf (deltasOf ms i), ?_, ?_, filled, rfl⟩
    · rw [said, sameId, sameName, ToolState.item, told.callId, told.name, told.args, sameId, sameName]
      rfl
    · have mem := (mem_startedCalls known perm ts).mpr ⟨i, found, told.started⟩
      rw [← told.callId, ← told.name, ← told.args]
      exact List.mem_append_right _ (List.mem_map_of_mem mem)

end Close

/-- Each call has an output index of its own under which it is announced with the
    identity that its first delta gave and closed with its item, and the function calls
    of the output are these items. -/
structure Slots (ms : List Move) (events : List ItemEvent) (output : List Item)
    (index : Value → Nat) (item : Value → Item) : Prop where
  apart : ∀ i ∈ calls ms, ∀ j ∈ calls ms, index i = index j → i = j
  output : (output.filter Item.isCall).Perm ((calls ms).map item)
  told : ∀ i ∈ calls ms, ∃ itemId said, notes (index i) events =
    .announced (.functionCall itemId .inProgress (firstGiven ToolDelta.id (deltasOf ms i))
      (firstGiven ToolDelta.name (deltasOf ms i)) []) :: (said ++ [.done (item i)])

/-- The events of a call and its item in the output keep the announced identity and all
    arguments exactly when the last id and the last name that were given are strings. -/
theorem call_identity_iff (rt : Runtime) (ids : Ids) (now : Rat) (model : Option Value)
    {lines : List Bytes} (chunks : ∀ line ∈ lines, IsCountedLine rt line)
    (identified : WellIdentified (moves rt lines)) :
    ∃ st events, streamChunks rt ids now (newStreamState ids model) lines = .ok (st, events) ∧
      ∀ order, order.Perm st.toolStates →
        ∃ response, completedResponses (events ++ streamEnd now st order) = [response] ∧
          ∃ index item,
            Slots (moves rt lines) (itemEvents (events ++ streamEnd now st order)) response.output
              index item ∧
            ∀ i ∈ calls (moves rt lines),
              (Keeps (deltasOf (moves rt lines) i)
                  (notes (index i) (itemEvents (events ++ streamEnd now st order)))
                  response.output ↔
                NotNulled (deltasOf (moves rt lines) i)) := by
  obtain ⟨st, events, handled, items, state, silent⟩ := streamChunks_ok rt ids now model chunks
  refine ⟨st, events, handled, fun order perm => ?_⟩
  obtain ⟨shape, known⟩ := run_settled ids (moves rt lines)
  have ranked := run_ranked ids (moves rt lines)
  have telling := run_telling ids identified fun tc mem => by
    obtain ⟨v, read⟩ := moves_tool_read mem
    exact readToolDelta_appends read
  rw [← state] at shape known ranked telling
  rw [← items] at telling
  obtain ⟨entry, entries⟩ : ∃ entry : Value → ToolState,
      ∀ i ∈ calls (moves rt lines), st.toolStates.lookup i = some (entry i) := by
    refine ⟨fun i => (st.toolStates.lookup i).getD ⟨[], none, none, [], false, 0⟩, fun i mentioned => ?_⟩
    obtain ⟨ts, found⟩ :=
      Option.isSome_iff_exists.mp ((known.mentioned i).mpr ((mem_calls _ i).mp mentioned))
    simp [found]
  have whole : itemEvents (events ++ streamEnd now st order) =
      itemEvents events ++ (st.toItemState.close order).1 := by
    rw [itemEvents_append, itemEvents_streamEnd now shape]
  refine ⟨st.response now st.status (st.toItemState.close order).2, ?_,
    fun i => (entry i).outputIndex, fun i => (entry i).item .completed (entry i).args,
    ⟨?_, ?_, ?_⟩, ?_⟩
  · rw [completedResponses_append, silent, completedResponses_streamEnd now shape]
    rfl
  · intro i mem j mem' same
    exact ranked.apart i j _ _ (entries i mem) (entries j mem') same
  · exact close_calls known telling perm entries
  · intro i mentioned
    obtain ⟨sent, -, said⟩ := notes_of_call known ranked telling perm (entries i mentioned)
    rw [whole]
    exact ⟨_, _, said.trans (congrArg (List.cons _) (List.append_assoc _ [_] [_]).symm)⟩
  · intro i mentioned
    rw [whole]
    exact keeps_iff known ranked telling perm identified (entries i mentioned) mentioned

namespace Sample

/-- The first delta of a call, and one that repeats its id as `null`. -/
def nulledJson : List Bytes :=
  [lit "\x7b\"choices\":[\x7b\"delta\":\x7b\"tool_calls\":[\x7b\"index\":0,\"id\":\"c\"," ++
      lit "\"function\":\x7b\"name\":\"f\",\"arguments\":\"[\"\x7d\x7d]\x7d\x7d]\x7d",
    lit "\x7b\"choices\":[\x7b\"delta\":\x7b\"tool_calls\":[\x7b\"index\":0,\"id\":null," ++
      lit "\"function\":\x7b\"arguments\":\"]\"\x7d\x7d]\x7d\x7d]\x7d"]

def nulledCall (id : Value) (fn : List (String × Option Value)) : Value :=
  deltaChunk (table [("tool_calls", some (.arr [table [("index", some (.num 0)), ("id", some id),
    ("function", some (table fn))]]))])

def nulledValues : List Value :=
  [nulledCall (.str (lit "c")) [("name", some (.str (lit "f"))), ("arguments", some (.str (lit "[")))],
    nulledCall .null [("arguments", some (.str (lit "]")))]]

def nulledRuntime : Runtime := .ofDocuments (nulledJson.zip nulledValues)

def nulledLines : List Bytes := nulledJson.map fun json => lit "data: " ++ json

def nulledDeltas : List ToolDelta :=
  [⟨.num 0, some (.str (lit "c")), some (.str (lit "f")), some (.str (lit "[")), lit "["⟩,
    ⟨.num 0, some .null, none, some (.str (lit "]")), lit "]"⟩]

theorem nulled_counted : ∀ line ∈ nulledLines, IsCountedLine nulledRuntime line := by
  intro line mem v decoded
  simp only [nulledLines, nulledJson, List.map_cons, List.map_nil, List.mem_cons, List.not_mem_nil,
    or_false] at mem
  rcases mem with rfl | rfl
  · obtain rfl := Option.some.inj decoded
    exact ⟨rfl, rfl⟩
  · obtain rfl := Option.some.inj decoded
    exact ⟨rfl, rfl⟩

theorem nulled_moves : moves nulledRuntime nulledLines = nulledDeltas.map .tool := by
  decide

theorem nulled_calls : calls (nulledDeltas.map .tool) = [.num 0] := by decide

theorem nulled_deltas : deltasOf (nulledDeltas.map .tool) (.num 0) = nulledDeltas := by
  decide

theorem nulled_identified : WellIdentified (moves nulledRuntime nulledLines) := by
  intro i mem
  rw [nulled_moves] at mem ⊢
  rw [nulled_calls] at mem
  obtain rfl := List.mem_singleton.mp mem
  rw [nulled_deltas]
  refine ⟨⟨lit "c", rfl, ?_⟩, ⟨lit "f", rfl, ?_⟩, ?_⟩ <;> intro d mem <;>
    simp only [nulledDeltas, List.mem_cons, List.not_mem_nil, or_false] at mem <;>
    rcases mem with rfl | rfl
  · exact .inr (.inr rfl)
  · exact .inr (.inl rfl)
  · exact .inr (.inr rfl)
  · exact .inl rfl
  · exact .inr ⟨_, rfl⟩
  · exact .inr ⟨_, rfl⟩

def nulledNotes : List CallNote :=
  [.announced (.functionCall (sampleIds.item 1) .inProgress (some (.str (lit "c")))
      (some (.str (lit "f"))) []),
    .argumentsDelta (.str (lit "[")), .argumentsDelta (.str (lit "]")),
    .argumentsDone (some .null) (some (.str (lit "f"))) (lit "[]"),
    .done (.functionCall (sampleIds.item 1) .completed (some .null) (some (.str (lit "f")))
      (lit "[]"))]

end Sample

theorem call_identity_iff_sample :
    ∃ st events, streamChunks Sample.nulledRuntime sampleIds 0 (newStreamState sampleIds none)
        Sample.nulledLines = .ok (st, events) ∧
      ∀ order, order.Perm st.toolStates →
        ∃ response, completedResponses (events ++ streamEnd 0 st order) = [response] ∧
          ∃ index item,
            Slots (moves Sample.nulledRuntime Sample.nulledLines)
              (itemEvents (events ++ streamEnd 0 st order)) response.output index item ∧
            ∀ i ∈ calls (moves Sample.nulledRuntime Sample.nulledLines),
              (Keeps (deltasOf (moves Sample.nulledRuntime Sample.nulledLines) i)
                  (notes (index i) (itemEvents (events ++ streamEnd 0 st order)))
                  response.output ↔
                NotNulled (deltasOf (moves Sample.nulledRuntime Sample.nulledLines) i)) :=
  call_identity_iff Sample.nulledRuntime sampleIds 0 none Sample.nulled_counted
    Sample.nulled_identified

/-- The call is announced as `c`; its last events say `null`. -/
theorem nulled_id_lost :
    ∃ st events, streamChunks Sample.nulledRuntime sampleIds 0 (newStreamState sampleIds none)
        Sample.nulledLines = .ok (st, events) ∧
      notes 1 (itemEvents (events ++ streamEnd 0 st st.toolStates)) = Sample.nulledNotes ∧
      ∀ output, ¬ Keeps Sample.nulledDeltas Sample.nulledNotes output := by
  refine ⟨_, _, rfl, by decide, fun output => ?_⟩
  exact not_keeps [.argumentsDelta (.str (lit "[")), .argumentsDelta (.str (lit "]"))]
    rfl (by decide)

end E2eeProxy.Responses
