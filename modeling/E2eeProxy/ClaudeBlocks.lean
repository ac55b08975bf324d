import E2eeProxy.ClaudeState

/-! # Are the streamed blocks a well-formed message?

A client counts the blocks that were started and keeps the ones that are open.
It accepts the stream exactly when at most one tool call was completed and no
content came after that call's first delta: `block_index` is not advanced when
a tool block is started, so that whatever block is started next repeats its
index.
-/

namespace E2eeProxy.Claude

open E2eeProxy.Lua E2eeProxy.OpenAi E2eeProxy.Lib

/-- A client's view of the content blocks: how many were started, and which of
    them are open. -/
structure Blocks where
  started : Nat
  live : List Nat
  deriving DecidableEq

namespace Blocks

/-- The next block starts with the next index; deltas and stops name an open block. -/
def see (b : Blocks) : BlockEvent → Option Blocks
  | .start i _ => if i = b.started then some ⟨b.started + 1, i :: b.live⟩ else none
  | .delta i _ => if i ∈ b.live then some b else none
  | .stop i => if i ∈ b.live then some { b with live := b.live.erase i } else none

def seeAll (b : Blocks) (events : List BlockEvent) : Option Blocks := events.foldlM see b

theorem seeAll_append (b : Blocks) (xs ys : List BlockEvent) :
    b.seeAll (xs ++ ys) = (b.seeAll xs).bind fun b' => b'.seeAll ys := by
  simp [seeAll, List.foldlM_append]

@[simp] theorem seeAll_nil (b : Blocks) : b.seeAll [] = some b := rfl

theorem seeAll_cons (b : Blocks) (e : BlockEvent) (es : List BlockEvent) :
    b.seeAll (e :: es) = (b.see e).bind fun b' => b'.seeAll es := rfl

theorem seeAll_deltas {b : Blocks} {i : Nat} (live : i ∈ b.live) (deltas : List BlockDelta) :
    b.seeAll (deltas.map (.delta i)) = some b := by
  induction deltas with
  | nil => rfl
  | cons d deltas ih => simp [seeAll_cons, see, live, ih]

/-- Starting a block with any other index than the next one is refused. -/
theorem seeAll_repeated {b : Blocks} {i : Nat} (other : i ≠ b.started) (block : ContentBlock)
    (events : List BlockEvent) : b.seeAll (.start i block :: events) = none := by
  simp [seeAll_cons, see, other]

theorem seeAll_started (b : Blocks) (block : ContentBlock) (deltas : List BlockDelta) :
    b.seeAll (.start b.started block :: deltas.map (.delta b.started)) =
      some ⟨b.started + 1, b.started :: b.live⟩ := by
  simp only [seeAll_cons, see, ↓reduceIte, Option.bind_some]
  exact seeAll_deltas List.mem_cons_self deltas

end Blocks

/-- `message_start` first, then content blocks a client accepts and sees closed,
    then `message_delta` and `message_stop`. -/
def WellFormed (events : List Event) : Prop :=
  ∃ first body reason input output n, IsMessageStart first ∧
    events = first :: body.map .block ++ [.messageDelta reason input output, .messageStop] ∧
    Blocks.seeAll ⟨0, []⟩ body = some ⟨n, []⟩

/-- At most one tool call is completed, and no content comes after its first delta. -/
structure OneToolLast (moves : List Move) : Prop where
  one : ∀ i j, Completes moves i → Completes moves j → i = j
  last : ∀ i, Completes moves i → ¬ ContentAfter moves i

/-- The same, read off the tool states. -/
structure SingleTool (st : BlockState) : Prop where
  one : ∀ i j ts ts', st.toolStates.lookup i = some ts → st.toolStates.lookup j = some ts' →
    ts.started = true → ts'.started = true → i = j
  last : ∀ i ts, st.toolStates.lookup i = some ts → ts.started = true → AtEnd ts st

theorem History.oneToolLast_iff {ms : List Move} {st : BlockState} (history : History ms st) :
    OneToolLast ms ↔ SingleTool st := by
  constructor
  · rintro ⟨one, last⟩
    refine ⟨fun i j ts ts' entry entry' started started' => ?_, fun i ts entry started => ?_⟩
    · exact one i j ((history.completes_iff i).mpr ⟨ts, entry, started⟩)
        ((history.completes_iff j).mpr ⟨ts', entry', started'⟩)
    · exact (history.last i ts entry).mpr (last i ((history.completes_iff i).mpr ⟨ts, entry, started⟩))
  · rintro ⟨one, last⟩
    refine ⟨fun i j complete complete' => ?_, fun i complete => ?_⟩
    · obtain ⟨ts, entry, started⟩ := (history.completes_iff i).mp complete
      obtain ⟨ts', entry', started'⟩ := (history.completes_iff j).mp complete'
      exact one i j ts ts' entry entry' started started'
    · obtain ⟨ts, entry, started⟩ := (history.completes_iff i).mp complete
      exact (history.last i ts entry).mp (last i ts entry started)

/-! ## The client follows the stream -/

def NoneStarted (st : BlockState) : Prop :=
  ∀ i ts, st.toolStates.lookup i = some ts → ts.started = false

/-- `i` is the one tool call that was started. -/
structure OnlyStarted (st : BlockState) (i : Value) (ts : ToolState) : Prop where
  entry : st.toolStates.lookup i = some ts
  started : ts.started = true
  only : ∀ j ts', st.toolStates.lookup j = some ts' → ts'.started = true → j = i

/-- The client state that goes with a block state. -/
inductive Follows (st : BlockState) : Blocks → Prop where
  | idle : NoneStarted st → st.currentType = none → Follows st ⟨st.blockIndex, []⟩
  | block : NoneStarted st → st.currentType ≠ none →
      Follows st ⟨st.blockIndex + 1, [st.blockIndex]⟩
  | tool (i : Value) (ts : ToolState) : OnlyStarted st i ts → AtEnd ts st →
      Follows st ⟨st.blockIndex + 1, [st.blockIndex]⟩

theorem Follows.singleTool {st : BlockState} {b : Blocks} (h : Follows st b) : SingleTool st := by
  cases h with
  | idle none | block none =>
      refine ⟨fun i j ts ts' entry _ started => ?_, fun i ts entry started => ?_⟩
      · simp [none i ts entry] at started
      · simp [none i ts entry] at started
  | tool k t only atEnd =>
      refine ⟨fun i j ts ts' entry entry' started started' => ?_, fun i ts entry started => ?_⟩
      · rw [only.only i ts entry started, only.only j ts' entry' started']
      · obtain rfl := only.only i ts entry started
        rw [only.entry] at entry
        exact Option.some.inj entry ▸ atEnd

/-- Either the client accepts what was emitted and follows the state, or it
    refused it and the tool calls are to blame. -/
def Tracks (st : BlockState) (seen : Option Blocks) : Prop :=
  (∃ b, seen = some b ∧ Follows st b) ∨ (seen = none ∧ ¬ SingleTool st)

theorem ContentStep.tracks {st st' : BlockState} {events : List BlockEvent} {b : Blocks}
    (step : ContentStep st st' events) (tools : st'.toolStates = st.toolStates)
    (opened : st'.currentType ≠ none) (follows : Follows st b) : Tracks st' (b.seeAll events) := by
  cases follows with
  | idle none closed =>
      cases step with
      | start block deltas _ same =>
          refine .inl ⟨_, Blocks.seeAll_started _ block deltas, ?_⟩
          simp only [← same]
          exact .block (by rw [NoneStarted, tools]; exact none) opened
      | more _ was | next _ _ _ was => exact absurd closed was
  | block none was =>
      cases step with
      | start _ _ closed => exact absurd closed was
      | more deltas _ same =>
          refine .inl ⟨_, Blocks.seeAll_deltas List.mem_cons_self deltas, ?_⟩
          rw [← same]
          exact .block (by rw [NoneStarted, tools]; exact none) opened
      | next deltas deltas' block _ next =>
          refine .inl ⟨⟨st.blockIndex + 2, [st.blockIndex + 1]⟩, ?_, ?_⟩
          · rw [Blocks.seeAll_append, Blocks.seeAll_deltas List.mem_cons_self]
            simp only [Option.bind_some, Blocks.seeAll_cons, Blocks.see, List.mem_singleton,
              ↓reduceIte, List.erase_cons_head]
            exact Blocks.seeAll_deltas List.mem_cons_self deltas'
          · have count : st.blockIndex + 2 = st'.blockIndex + 1 := by omega
            rw [count, ← next]
            exact .block (by rw [NoneStarted, tools]; exact none) opened
  | tool i ts only atEnd =>
      cases step with
      | start block deltas =>
          refine .inr ⟨Blocks.seeAll_repeated (by simp) block _, fun single => opened ?_⟩
          exact (single.last i ts (by rw [tools]; exact only.entry) only.started).2
      | more _ was | next _ _ _ was => exact absurd atEnd.2 was

theorem content_tracks {st : BlockState} {b : Blocks} (shape : Shape st) (follows : Follows st b)
    (text : Bytes) : Tracks (st.onContent text).1 (b.seeAll (st.onContent text).2) :=
  have result := onContent_result shape text
  result.step.tracks result.tools result.opened follows

theorem Opening.follows {st st' : BlockState} {tc : ToolDelta} {events : List BlockEvent}
    {ts : ToolState} {b : Blocks} (h : Opening st tc st' events ts) (follows : Follows st b) :
    ∃ b', b.seeAll events = some b' ∧ Follows st' b' := by
  cases h with
  | known | idle => exact ⟨b, rfl, follows⟩
  | closing _ _ was next closed tools =>
      cases follows with
      | idle _ closed' => exact absurd closed' was
      | tool _ _ _ atEnd => exact absurd atEnd.2 was
      | block none =>
          refine ⟨⟨st.blockIndex + 1, []⟩, by simp [Blocks.seeAll_cons, Blocks.see], ?_⟩
          rw [← next]
          exact .idle (by rw [NoneStarted, tools]; exact none) closed

@[simp] theorem lookup_setTool (st : BlockState) (idx i : Value) (ts : ToolState) :
    (st.setTool idx ts).toolStates.lookup i =
      if i = idx then some ts else st.toolStates.lookup i := lookup_setEntry ..

/-- What a written entry replaces: the same call with the same block, or nothing. -/
def Replaces (st : BlockState) (idx : Value) (ts : ToolState) : Prop :=
  ∀ ts', st.toolStates.lookup idx = some ts' →
    ts'.started = ts.started ∧ ts'.blockIndex = ts.blockIndex

theorem Opening.replaces {st st' : BlockState} {tc : ToolDelta} {events : List BlockEvent}
    {ts : ToolState} (h : Opening st tc st' events ts) :
    Replaces st' tc.index (ts.update tc) ∧
      (ts.started = true → st'.toolStates.lookup tc.index = some ts) := by
  rw [Replaces, h.tools]
  cases h with
  | known _ entry =>
      refine ⟨fun ts' entry' => ?_, fun _ => entry⟩
      rw [entry] at entry'
      obtain rfl := Option.some.inj entry'
      exact ⟨rfl, rfl⟩
  | idle unknown | closing _ unknown => simp [unknown, ToolState.create]

/-- Writing an entry that is not started changes nothing for the client. -/
theorem Follows.setTool_silent {st : BlockState} {b : Blocks} {idx : Value} {ts : ToolState}
    (follows : Follows st b) (replaces : Replaces st idx ts) (silent : ts.started = false) :
    Follows (st.setTool idx ts) b := by
  have noneStarted (none : NoneStarted st) : NoneStarted (st.setTool idx ts) := by
    intro i t entry
    rw [lookup_setTool] at entry
    split at entry
    · exact Option.some.inj entry ▸ silent
    · exact none i t entry
  cases follows with
  | idle none closed => exact .idle (noneStarted none) closed
  | block none opened => exact .block (noneStarted none) opened
  | tool i t only atEnd =>
      have other : i ≠ idx := by
        rintro rfl
        have := (replaces t only.entry).1
        rw [only.started, silent] at this
        cases this
      refine .tool i t ⟨?_, only.started, fun j t' entry started => ?_⟩ atEnd
      · rw [lookup_setTool, if_neg other]
        exact only.entry
      · rw [lookup_setTool] at entry
        split at entry
        · rw [← Option.some.inj entry, silent] at started
          cases started
        · exact only.only j t' entry started

/-- Rewriting the entry of the call that is running changes nothing either. -/
theorem Follows.setTool_running {st : BlockState} {b : Blocks} {idx : Value} {ts : ToolState}
    (follows : Follows st b) (running : st.toolStates.lookup idx = some ts)
    (started : ts.started = true) (ts' : ToolState) (started' : ts'.started = true)
    (same : ts'.blockIndex = ts.blockIndex) :
    Follows (st.setTool idx ts') b ∧ ts'.blockIndex ∈ b.live := by
  cases follows with
  | idle none | block none => simp [none idx ts running] at started
  | tool i t only atEnd =>
      obtain rfl := only.only idx ts running started
      rw [only.entry] at running
      obtain rfl := Option.some.inj running
      refine ⟨.tool idx ts' ⟨by simp, started', fun j t' entry startedJ => ?_⟩
        ⟨same.trans atEnd.1, atEnd.2⟩, by simp [same, atEnd.1]⟩
      rw [lookup_setTool] at entry
      split at entry
      · assumption
      · exact only.only j t' entry startedJ

/-- A call that is started now is accepted exactly when it is the only one and
    its block is the next one. -/
theorem Follows.setTool_start {st : BlockState} {b : Blocks} {idx : Value} {ts : ToolState}
    (follows : Follows st b) (replaces : Replaces st idx ts) (silent : ts.started = false)
    (below : ts.blockIndex ≤ st.blockIndex) (ts' : ToolState) (started : ts'.started = true)
    (same : ts'.blockIndex = ts.blockIndex) (block : ContentBlock) (deltas : List BlockDelta) :
    Tracks (st.setTool idx ts')
      (b.seeAll (.start ts.blockIndex block :: deltas.map (.delta ts.blockIndex))) := by
  have written : (st.setTool idx ts').toolStates.lookup idx = some ts' := by simp
  cases follows with
  | idle none closed =>
      cases below.lt_or_eq with
      | inl behind =>
          refine .inr ⟨Blocks.seeAll_repeated behind.ne block _, fun single => ?_⟩
          have atEnd := (single.last idx ts' written started).1
          simp only [BlockState.setTool] at atEnd
          omega
      | inr here =>
          refine .inl ⟨⟨st.blockIndex + 1, [st.blockIndex]⟩, ?_, ?_⟩
          · rw [here]
            exact Blocks.seeAll_started ⟨st.blockIndex, []⟩ block deltas
          · refine .tool idx ts' ⟨written, started, fun j t entry startedJ => ?_⟩
              ⟨same.trans here, closed⟩
            rw [lookup_setTool] at entry
            split at entry
            · assumption
            · simp [none j t entry] at startedJ
  | block none opened =>
      refine .inr ⟨Blocks.seeAll_repeated (by simp only; omega) block _, fun single => ?_⟩
      exact opened (single.last idx ts' written started).2
  | tool i t only =>
      refine .inr ⟨Blocks.seeAll_repeated (by simp only; omega) block _, fun single => ?_⟩
      have other : i ≠ idx := by
        rintro rfl
        have := (replaces t only.entry).1
        rw [only.started, silent] at this
        cases this
      have stays : (st.setTool idx ts').toolStates.lookup i = some t := by
        rw [lookup_setTool, if_neg other]
        exact only.entry
      exact other (single.one i idx t ts' stays written only.started started)

theorem tool_tracks {ms : List Move} {st : BlockState} {b : Blocks} (shape : Shape st)
    (history : History ms st) (follows : Follows st b) (tc : ToolDelta) :
    Tracks (st.onTool tc).1 (b.seeAll (st.onTool tc).2) := by
  obtain ⟨st', events, ts, opening, same⟩ := onTool_eq shape tc
  obtain ⟨below, -⟩ := opening.placed history
  obtain ⟨replaces, known⟩ := opening.replaces
  obtain ⟨b', seen, follows'⟩ := opening.follows follows
  rw [same]
  simp only [Blocks.seeAll_append, seen, Option.bind_some]
  rcases emit_cases (ts.update tc) tc with ⟨started, deltas, emit⟩ | ⟨silent, -, block, deltas, emit⟩ |
    ⟨silent, -, emit⟩
  · rw [emit]
    obtain ⟨after, live⟩ :=
      follows'.setTool_running (known started) started (ts.update tc) started rfl
    exact .inl ⟨b', Blocks.seeAll_deltas live deltas, after⟩
  · rw [emit]
    exact follows'.setTool_start replaces silent below
      { ts.update tc with started := true, pendingArgs := [] } rfl rfl block deltas
  · rw [emit]
    exact .inl ⟨b', rfl, follows'.setTool_silent replaces silent⟩

theorem OneToolLast.of_concat {ms : List Move} {x : Move} (h : OneToolLast (ms ++ [x])) :
    OneToolLast ms := by
  cases x with
  | content text =>
      refine ⟨fun i j ci cj => h.one i j ?_ ?_, fun i ci after => h.last i ?_ ?_⟩
      · simpa [Completes] using ci
      · simpa [Completes] using cj
      · simpa [Completes] using ci
      · exact (contentAfter_content ms i text).mpr after.mentioned
  | tool tc =>
      have keeps (i : Value) (ci : Completes ms i) : Completes (ms ++ [.tool tc]) i := ci.append _
      refine ⟨fun i j ci cj => h.one i j (keeps i ci) (keeps j cj), fun i ci after => ?_⟩
      exact h.last i (keeps i ci) ((contentAfter_tool ms i tc).mpr after)

/-- What is known of a stream after any moves. -/
structure Tracked (ms : List Move) (st : BlockState) (events : List BlockEvent) : Prop where
  shape : Shape st
  history : History ms st
  tracks : Tracks st (Blocks.seeAll ⟨0, []⟩ events)

theorem move_tracked {ms : List Move} {st : BlockState} {events : List BlockEvent} (x : Move)
    (h : Tracked ms st events) : Tracked (ms ++ [x]) (st.move x).1 (events ++ (st.move x).2) := by
  have history' := move_history h.shape h.history x
  refine ⟨move_shape h.shape x, history', ?_⟩
  rw [Blocks.seeAll_append]
  rcases h.tracks with ⟨b, seen, follows⟩ | ⟨refused, blame⟩
  · rw [seen, Option.bind_some]
    cases x with
    | content text => exact content_tracks h.shape follows text
    | tool tc => exact tool_tracks h.shape h.history follows tc
  · rw [refused]
    refine .inr ⟨rfl, fun single => blame ?_⟩
    exact h.history.oneToolLast_iff.mp (history'.oneToolLast_iff.mpr single).of_concat

theorem run_tracked (ms : List Move) :
    Tracked ms (runFrom BlockState.move newBlockState ms).1
      (runFrom BlockState.move newBlockState ms).2 := by
  refine runFrom_induction BlockState.move ?_ (fun xs st os x h => move_tracked x h) ms
  refine ⟨shape_new, history_new, .inl ⟨_, rfl, .idle ?_ rfl⟩⟩
  simp [NoneStarted, newBlockState]

/-! ## The end of the stream -/

theorem noneStarted_filter {st : BlockState} (none : NoneStarted st)
    (distinct : (st.toolStates.map Prod.fst).Nodup) {order : List (Value × ToolState)}
    (perm : order.Perm st.toolStates) : order.filter (fun entry => entry.2.started) = [] := by
  rw [List.filter_eq_nil_iff]
  rintro ⟨i, ts⟩ mem
  have entry := lookup_eq_some_of_mem distinct (perm.mem_iff.mp mem)
  simp [none i ts entry]

theorem onlyStarted_filter {st : BlockState} {i : Value} {ts : ToolState}
    (only : OnlyStarted st i ts) (distinct : (st.toolStates.map Prod.fst).Nodup)
    {order : List (Value × ToolState)} (perm : order.Perm st.toolStates) :
    order.filter (fun entry => entry.2.started) = [(i, ts)] := by
  have others (e : Value × ToolState) (mem : e ∈ st.toolStates) (started : e.2.started = true) :
      e.1 = i := only.only e.1 e.2 (lookup_eq_some_of_mem distinct mem) started
  obtain ⟨before, after, split, -⟩ := lookup_some_split only.entry
  have apart : i ∉ before.map Prod.fst ∧ i ∉ after.map Prod.fst := by
    rw [split] at distinct
    simp only [List.map_append, List.map_cons, List.nodup_append, List.nodup_cons] at distinct
    exact ⟨fun mem => distinct.2.2 i mem i List.mem_cons_self rfl, distinct.2.1.1⟩
  have quiet (part : List (Value × ToolState)) (inside : ∀ e ∈ part, e ∈ st.toolStates)
      (without : i ∉ part.map Prod.fst) : part.filter (fun entry => entry.2.started) = [] := by
    rw [List.filter_eq_nil_iff]
    intro e mem started
    exact without (others e (inside e mem) started ▸ List.mem_map_of_mem mem)
  have table : st.toolStates.filter (fun entry => entry.2.started) = [(i, ts)] := by
    rw [split, List.filter_append, List.filter_cons, if_pos only.started,
      quiet before (by rw [split]; simp +contextual) apart.1, quiet after (by rw [split]; simp +contextual) apart.2]
    rfl
  have same := perm.filter fun entry => entry.2.started
  rw [table] at same
  exact List.perm_singleton.mp same

/-- `stream_end` closes what is open. -/
theorem finish_seen {st : BlockState} {b : Blocks} (shape : Shape st) (follows : Follows st b)
    (distinct : (st.toolStates.map Prod.fst).Nodup) {order : List (Value × ToolState)}
    (perm : order.Perm st.toolStates) : ∃ n, b.seeAll (st.finish order) = some ⟨n, []⟩ := by
  unfold BlockState.finish
  simp only [shape.decided, Bool.false_eq_true, false_and, ↓reduceIte]
  cases follows with
  | idle none closed =>
      rw [noneStarted_filter none distinct perm]
      exact ⟨st.blockIndex, by simp [closed]⟩
  | block none opened =>
      rw [noneStarted_filter none distinct perm]
      refine ⟨st.blockIndex + 1, ?_⟩
      cases current : st.currentType with
      | none => exact absurd current opened
      | some type =>
          cases type with
          | text => simp [shape.text.mp current, Blocks.seeAll_cons, Blocks.see]
          | thinking => simp [Blocks.seeAll_cons, Blocks.see]
  | tool i ts only atEnd =>
      rw [onlyStarted_filter only distinct perm]
      exact ⟨st.blockIndex + 1, by simp [atEnd.1, atEnd.2, Blocks.seeAll_cons, Blocks.see]⟩

/-- The body of a message is what stands between its first and its last two events. -/
theorem wellFormed_iff {first : Event} (start : IsMessageStart first) (body : List BlockEvent)
    (reason : StopReason) (input output : Value) :
    WellFormed (first :: body.map .block ++ [.messageDelta reason input output, .messageStop]) ↔
      ∃ n, Blocks.seeAll ⟨0, []⟩ body = some ⟨n, []⟩ := by
  constructor
  · rintro ⟨_, body', _, _, _, n, -, same, seen⟩
    simp only [List.cons_append, List.cons.injEq] at same
    obtain ⟨blocks, -⟩ := List.append_inj' same.2 rfl
    have bodies : body = body' :=
      List.map_injective_iff.mpr (fun _ _ eq => Event.block.inj eq) blocks
    exact ⟨n, bodies ▸ seen⟩
  · rintro ⟨n, seen⟩
    exact ⟨first, body, reason, input, output, n, start, rfl, seen⟩

/-- The events of a stream of chunks, at least one of which decodes, are a
    well-formed message exactly when `OneToolLast` holds of its moves. -/
theorem stream_wellFormed_iff (rt : Runtime) (now : Rat) (model : Option Value)
    (lines : List Bytes) (chunks : ∀ line ∈ lines, IsChunkLine rt line)
    (decodes : ∃ line ∈ lines, (decodeChunk rt line).isSome) :
    ∃ st events, streamChunks rt now (newStreamState model) lines = .ok (st, events) ∧
      ∀ order, order.Perm st.toolStates →
        (WellFormed (events ++ streamEnd st order) ↔ OneToolLast (moves rt lines)) := by
  obtain ⟨st, heading, handled, blocks, head⟩ :=
    streamChunks_ok rt now (newStreamState model) chunks
  have tracked := run_tracked (moves rt lines)
  have same : (newStreamState model).toBlockState = newBlockState := rfl
  rw [same] at blocks handled
  rw [← blocks] at tracked
  have begun : ∃ first, IsMessageStart first ∧ heading = [first] := by
    obtain ⟨line, mem, decoded⟩ := decodes
    have some : (lines.all fun line => (decodeChunk rt line).isNone) = false := by
      rw [List.all_eq_false]
      exact ⟨line, mem, by simpa [Option.isSome_iff_ne_none] using decoded⟩
    simpa [Heading, some, newStreamState] using head
  obtain ⟨first, start, rfl⟩ := begun
  refine ⟨st, _, handled, fun order perm => ?_⟩
  have shapeOfEvents : [first] ++ (runFrom BlockState.move newBlockState (moves rt lines)).2.map
        Event.block ++ streamEnd st order =
      first :: ((runFrom BlockState.move newBlockState (moves rt lines)).2 ++
        st.finish order).map .block ++
        [.messageDelta st.stopReason st.inputTokens st.outputTokens, .messageStop] := by
    simp [streamEnd]
  rw [shapeOfEvents, wellFormed_iff start, Blocks.seeAll_append, tracked.history.oneToolLast_iff]
  rcases tracked.tracks with ⟨b, seen, follows⟩ | ⟨refused, blame⟩
  · rw [seen, Option.bind_some]
    exact ⟨fun _ => follows.singleTool, fun _ =>
      finish_seen tracked.shape follows tracked.history.distinct perm⟩
  · simp [refused, blame]

theorem content_stream_wellFormed_iff :
    ∃ st events,
      streamChunks (contentRuntime ["hi"]) 0 (newStreamState none) [contentLine "hi"] =
        .ok (st, events) ∧
      ∀ order, order.Perm st.toolStates → (WellFormed (events ++ streamEnd st order) ↔
        OneToolLast (moves (contentRuntime ["hi"]) [contentLine "hi"])) := by
  have chunks : ∀ line ∈ [contentLine "hi"], IsChunkLine (contentRuntime ["hi"]) line := by
    intro line mem v decoded
    obtain rfl := List.mem_singleton.mp mem
    obtain rfl : contentChunk "hi" = v := Option.some.inj decoded
    rfl
  exact stream_wellFormed_iff _ 0 none _ chunks ⟨_, List.mem_singleton_self _, by rfl⟩

def parallelJson : Bytes :=
  lit "\x7b\"choices\":[\x7b\"delta\":\x7b\"tool_calls\":[" ++
  lit "\x7b\"index\":0,\"id\":\"a\",\"function\":\x7b\"name\":\"f\"\x7d\x7d," ++
  lit "\x7b\"index\":1,\"id\":\"b\",\"function\":\x7b\"name\":\"g\"\x7d\x7d]\x7d\x7d]\x7d"

def toolCallValue (idx : Rat) (id name : String) : Value :=
  .obj [(lit "index", .num idx), (lit "id", .str (lit id)),
    (lit "function", .obj [(lit "name", .str (lit name))])]

def parallelRuntime : Runtime :=
  .ofDocuments [(parallelJson, deltaChunk
    (.obj [(lit "tool_calls", .arr [toolCallValue 0 "a" "f", toolCallValue 1 "b" "g"])]))]

/-- Two parallel tool calls are both started as block 0. -/
theorem parallel_tools_share_index :
    ¬ ∀ (rt : Runtime) (now : Rat) (model : Option Value) (lines : List Bytes),
      (∀ line ∈ lines, IsChunkLine rt line) →
      (∃ line ∈ lines, (decodeChunk rt line).isSome) →
      ∀ st events, streamChunks rt now (newStreamState model) lines = .ok (st, events) →
        ∀ order, order.Perm st.toolStates → WellFormed (events ++ streamEnd st order) := by
  intro always
  have chunks : ∀ line ∈ [lit "data: " ++ parallelJson], IsChunkLine parallelRuntime line := by
    intro line mem v decoded
    obtain rfl := List.mem_singleton.mp mem
    obtain rfl : deltaChunk _ = v := Option.some.inj decoded
    rfl
  have accepted := always parallelRuntime 0 none _ chunks ⟨_, List.mem_singleton_self _, by rfl⟩
    _ _ rfl _ (List.Perm.refl _)
  have start (id : Bytes) (model tokens : Value) : IsMessageStart (.messageStart id model tokens) :=
    ⟨id, model, tokens, rfl⟩
  have body := (wellFormed_iff (start (lit "msg_0") (.str (lit "unknown")) (.num 0))
    [.start 0 (.toolUse (.str (lit "a")) (.str (lit "f"))),
      .start 0 (.toolUse (.str (lit "b")) (.str (lit "g"))), .stop 0, .stop 0]
    .endTurn (.num 0) (.num 0)).mp accepted
  obtain ⟨n, seen⟩ := body
  cases seen

end E2eeProxy.Claude
