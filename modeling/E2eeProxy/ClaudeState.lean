import E2eeProxy.ClaudeStream
import E2eeProxy.Moves

/-! # What a stream state says about the moves before it

`Shape` ties the flags of a block state to each other. `History` ties its tool
states to the moves that were handled: which tool calls were seen, which have
an id and a name, and whether content came after their first delta.
-/

namespace E2eeProxy.Claude

open E2eeProxy.Lua E2eeProxy.OpenAi E2eeProxy.Lib

/-! ## The flags -/

/-- Between two moves the detector has decided, a text block is open exactly
    when `text_started` is set, and nothing is open before the first content. -/
structure Shape (st : BlockState) : Prop where
  decided : st.thinkDetecting = false
  text : st.currentType = some .text ↔ st.textStarted = true
  thinking : st.currentType = some .thinking → st.thinkDetected = true
  fresh : st.firstContent = true → st.currentType = none

theorem shape_new : Shape newBlockState :=
  ⟨rfl, by simp [newBlockState], by simp [newBlockState], fun _ => rfl⟩

/-- The three things a content delta can do to the open block: start one, go on
    with it, or replace the thinking block by a text block. -/
inductive ContentStep (st st' : BlockState) : List BlockEvent → Prop where
  | start (block : ContentBlock) (deltas : List BlockDelta) :
      st.currentType = none → st'.blockIndex = st.blockIndex →
      ContentStep st st' (.start st.blockIndex block :: deltas.map (.delta st.blockIndex))
  | more (deltas : List BlockDelta) :
      st.currentType ≠ none → st'.blockIndex = st.blockIndex →
      ContentStep st st' (deltas.map (.delta st.blockIndex))
  | next (deltas deltas' : List BlockDelta) (block : ContentBlock) :
      st.currentType ≠ none → st'.blockIndex = st.blockIndex + 1 →
      ContentStep st st' (deltas.map (.delta st.blockIndex) ++ .stop st.blockIndex ::
        .start (st.blockIndex + 1) block :: deltas'.map (.delta (st.blockIndex + 1)))

theorem ContentStep.grows {st st' : BlockState} {events : List BlockEvent}
    (h : ContentStep st st' events) : st.blockIndex ≤ st'.blockIndex := by
  cases h with
  | start _ _ _ same | more _ _ same => exact same.ge
  | next _ _ _ _ next => omega

/-- What one content delta does to a block state. -/
structure ContentResult (st : BlockState) (r : BlockState × List BlockEvent) : Prop where
  shape : Shape r.1
  opened : r.1.currentType ≠ none
  tools : r.1.toolStates = st.toolStates
  step : ContentStep st r.1 r.2

theorem detect_result (st : BlockState) (content : Bytes) (closed : st.currentType = none)
    (notText : st.textStarted = false) (first : st.firstContent = true) :
    ContentResult st (st.beginContent.detect content) := by
  unfold BlockState.detect BlockState.beginContent
  simp only [first, ↓reduceIte, List.nil_append]
  split
  · rename_i starts
    have long : 7 ≤ content.length := by
      have length := congrArg List.length starts
      rw [List.length_take] at length
      have : (lit "<think>").length = 7 := by decide
      omega
    rw [if_pos long]
    refine ⟨⟨rfl, by simp [notText], fun _ => rfl, by simp⟩, by simp, rfl, ?_⟩
    rw [unlessEmpty_map BlockDelta.thinking]
    exact .start _ _ closed rfl
  · refine ⟨⟨rfl, by simp, by simp, by simp⟩, by simp, rfl, ?_⟩
    exact .start _ [.text content] closed rfl

theorem think_result (st : BlockState) (content : Bytes) (shape : Shape st)
    (thinking : st.currentType = some .thinking) : ContentResult st (st.think content) := by
  have later : st.firstContent = false := by
    cases first : st.firstContent with
    | false => rfl
    | true => simp [shape.fresh first] at thinking
  unfold BlockState.think
  cases cut (lit "</think>") content with
  | none =>
      exact ⟨shape, by simp [thinking], rfl, .more [.thinking content] (by simp [thinking]) rfl⟩
  | some parts =>
      obtain ⟨before, after⟩ := parts
      refine ⟨⟨shape.decided, by simp, by simp, by simp [later]⟩, by simp, rfl, ?_⟩
      simp only [unlessEmpty_map BlockDelta.thinking, unlessEmpty_map BlockDelta.text,
        List.append_assoc, List.cons_append, List.nil_append]
      exact .next _ _ _ (by simp [thinking]) rfl

theorem write_result (st : BlockState) (content : Bytes) (shape : Shape st)
    (later : st.firstContent = false) (notThinking : st.currentType ≠ some .thinking) :
    ContentResult st (st.write content) := by
  unfold BlockState.write
  split
  · rename_i started
    have opened : st.currentType ≠ none := by simp [shape.text.mpr started]
    exact ⟨shape, opened, rfl, .more [.text content] opened rfl⟩
  · rename_i notStarted
    have closed : st.currentType = none := by
      cases current : st.currentType with
      | none => rfl
      | some type =>
          cases type with
          | thinking => exact absurd current notThinking
          | text => exact absurd (shape.text.mp current) notStarted
    exact ⟨⟨shape.decided, by simp, by simp, by simp [later]⟩, by simp, rfl,
      .start _ [.text content] closed rfl⟩

theorem onContent_result {st : BlockState} (shape : Shape st) (content : Bytes) :
    ContentResult st (st.onContent content) := by
  unfold BlockState.onContent
  cases first : st.firstContent with
  | true =>
      have closed := shape.fresh first
      have notText : st.textStarted = false := by
        cases started : st.textStarted with
        | false => rfl
        | true => simp [shape.text.mpr started] at closed
      have detecting : st.beginContent.thinkDetecting = true := by
        simp [BlockState.beginContent, first]
      simp only [detecting, ↓reduceIte]
      exact detect_result st content closed notText first
  | false =>
      simp only [BlockState.beginContent, first, Bool.false_eq_true, ↓reduceIte, shape.decided]
      split
      · rename_i thinking
        exact think_result st content shape thinking.2
      · rename_i notThinking
        refine write_result st content shape first fun current => notThinking ?_
        exact ⟨shape.thinking current, current⟩

/-- What the first delta of a tool call does before its entry is made. -/
theorem closeForTool_cases {st : BlockState} (shape : Shape st) :
    (st.currentType = none ∧ st.closeForTool = (st, [])) ∨
    (st.currentType ≠ none ∧ ∃ st', st.closeForTool = (st', [.stop st.blockIndex]) ∧
      st'.blockIndex = st.blockIndex + 1 ∧ st'.currentType = none ∧
      st'.toolStates = st.toolStates ∧ Shape st') := by
  unfold BlockState.closeForTool
  cases current : st.currentType with
  | none => exact .inl ⟨rfl, by simp⟩
  | some type =>
      cases type with
      | text =>
          refine .inr ⟨by simp,
            { st with blockIndex := st.blockIndex + 1, textStarted := false, currentType := none },
            ?_, rfl, rfl, rfl, ?_⟩
          · simp [shape.text.mp current]
          · exact ⟨shape.decided, by simp, by simp, fun _ => rfl⟩
      | thinking =>
          have notStarted : st.textStarted = false := by
            cases started : st.textStarted with
            | false => rfl
            | true => simp [shape.text.mpr started] at current
          refine .inr ⟨by simp, { st with blockIndex := st.blockIndex + 1, currentType := none },
            ?_, rfl, rfl, rfl, ?_⟩
          · simp
          · exact ⟨shape.decided, by simp [notStarted], by simp, fun _ => rfl⟩

/-! ## The tool states -/

/-- How a tool delta finds its entry: in the table, or made from scratch once the
    open block, if any, was closed. -/
inductive Opening (st : BlockState) (tc : ToolDelta) :
    BlockState → List BlockEvent → ToolState → Prop where
  | known (ts : ToolState) : st.toolStates.lookup tc.index = some ts → Opening st tc st [] ts
  | idle : st.toolStates.lookup tc.index = none → st.currentType = none →
      Opening st tc st [] (.create tc st.blockIndex)
  | closing (st' : BlockState) : st.toolStates.lookup tc.index = none → st.currentType ≠ none →
      st'.blockIndex = st.blockIndex + 1 → st'.currentType = none →
      st'.toolStates = st.toolStates → Shape st' →
      Opening st tc st' [.stop st.blockIndex] (.create tc st'.blockIndex)

theorem Opening.tools {st st' : BlockState} {tc : ToolDelta} {events : List BlockEvent}
    {ts : ToolState} (h : Opening st tc st' events ts) : st'.toolStates = st.toolStates := by
  cases h with
  | known | idle => rfl
  | closing _ _ _ _ _ same => exact same

theorem Opening.shape {st st' : BlockState} {tc : ToolDelta} {events : List BlockEvent}
    {ts : ToolState} (h : Opening st tc st' events ts) (shape : Shape st) : Shape st' := by
  cases h with
  | known | idle => exact shape
  | closing _ _ _ _ _ _ shape' => exact shape'

/-- Writes the entry of a tool call. -/
def BlockState.setTool (st : BlockState) (idx : Value) (ts : ToolState) : BlockState :=
  { st with toolStates := setEntry idx ts st.toolStates }

theorem shape_setTool {st : BlockState} (shape : Shape st) (idx : Value) (ts : ToolState) :
    Shape (st.setTool idx ts) :=
  ⟨shape.decided, shape.text, shape.thinking, shape.fresh⟩

theorem onTool_eq {st : BlockState} (shape : Shape st) (tc : ToolDelta) :
    ∃ st' events ts, Opening st tc st' events ts ∧
      st.onTool tc = (st'.setTool tc.index ((ts.update tc).emit tc).1,
        events ++ ((ts.update tc).emit tc).2) := by
  unfold BlockState.onTool
  cases known : st.toolStates.lookup tc.index with
  | some ts => exact ⟨st, [], ts, .known ts known, by simp [BlockState.setTool]⟩
  | none =>
      rcases closeForTool_cases shape with ⟨closed, same⟩ | ⟨opened, st', same, idx, closed,
        tools, shape'⟩
      · exact ⟨st, [], _, .idle known closed, by simp [same, BlockState.setTool]⟩
      · exact ⟨st', _, _, .closing st' known opened idx closed tools shape',
          by simp [same, BlockState.setTool]⟩

/-- The three things a tool delta does once its entry is up to date. -/
theorem emit_cases (ts : ToolState) (tc : ToolDelta) :
    (ts.started = true ∧ ∃ deltas : List BlockDelta,
      ts.emit tc = (ts, deltas.map (.delta ts.blockIndex))) ∨
    (ts.started = false ∧ (ts.id.isSome ∧ ts.name.isSome) ∧
      ∃ (block : ContentBlock) (deltas : List BlockDelta),
        ts.emit tc = ({ ts with started := true, pendingArgs := [] },
          .start ts.blockIndex block :: deltas.map (.delta ts.blockIndex))) ∨
    (ts.started = false ∧ ¬ (ts.id.isSome ∧ ts.name.isSome) ∧ ts.emit tc = (ts, [])) := by
  unfold ToolState.emit
  cases started : ts.started with
  | true =>
      refine .inl ⟨rfl, tc.arguments.toList.map .inputJson, ?_⟩
      simp [List.map_map, Function.comp_def]
  | false =>
      cases hid : ts.id with
      | none => exact .inr (.inr ⟨rfl, by simp, rfl⟩)
      | some id =>
          cases hname : ts.name with
          | none => exact .inr (.inr ⟨rfl, by simp, rfl⟩)
          | some name =>
              refine .inr (.inl ⟨rfl, by simp, .toolUse id name,
                unlessEmpty (fun s => .inputJson (.str s)) ts.pendingArgs, ?_⟩)
              simp only [← unlessEmpty_map]

@[simp] theorem emit_id (ts : ToolState) (tc : ToolDelta) : (ts.emit tc).1.id = ts.id := by
  rcases emit_cases ts tc with ⟨-, _, same⟩ | ⟨-, -, _, _, same⟩ | ⟨-, -, same⟩ <;> rw [same]

@[simp] theorem emit_name (ts : ToolState) (tc : ToolDelta) : (ts.emit tc).1.name = ts.name := by
  rcases emit_cases ts tc with ⟨-, _, same⟩ | ⟨-, -, _, _, same⟩ | ⟨-, -, same⟩ <;> rw [same]

@[simp] theorem emit_blockIndex (ts : ToolState) (tc : ToolDelta) :
    (ts.emit tc).1.blockIndex = ts.blockIndex := by
  rcases emit_cases ts tc with ⟨-, _, same⟩ | ⟨-, -, _, _, same⟩ | ⟨-, -, same⟩ <;> rw [same]

/-- An entry is started exactly when it is complete, if that was so before. -/
theorem emit_started {ts : ToolState} (tc : ToolDelta)
    (before : ts.started = true → ts.id.isSome ∧ ts.name.isSome) :
    (ts.emit tc).1.started = true ↔ ts.id.isSome ∧ ts.name.isSome := by
  rcases emit_cases ts tc with ⟨started, _, same⟩ | ⟨-, complete, _, _, same⟩ |
    ⟨notStarted, incomplete, same⟩
  · rw [same]
    exact ⟨before, fun _ => started⟩
  · rw [same]
    exact ⟨fun _ => complete, fun _ => rfl⟩
  · rw [same]
    simp [notStarted, incomplete]

/-- Nothing was opened since the tool call's entry was made. -/
def AtEnd (ts : ToolState) (st : BlockState) : Prop :=
  ts.blockIndex = st.blockIndex ∧ st.currentType = none

/-- What is known of the tool states once `ms` were handled. -/
structure History (ms : List Move) (st : BlockState) : Prop extends
    Known ToolState.id ToolState.name ToolState.started ms st.toolStates where
  below : ∀ i ts, st.toolStates.lookup i = some ts → ts.blockIndex ≤ st.blockIndex
  last : ∀ i ts, st.toolStates.lookup i = some ts → (AtEnd ts st ↔ ¬ ContentAfter ms i)

theorem history_new : History [] newBlockState :=
  ⟨known_nil, by simp [newBlockState], by simp [newBlockState]⟩

theorem history_content {ms : List Move} {st : BlockState} (shape : Shape st)
    (history : History ms st) (text : Bytes) :
    History (ms ++ [.content text]) (st.onContent text).1 := by
  have result := onContent_result shape text
  refine ⟨?_, ?_, ?_⟩ <;> rw [result.tools]
  · exact history.toKnown.content text
  · intro i ts entry
    exact (history.below i ts entry).trans result.step.grows
  · intro i ts entry
    have known : Mentioned ms i := (history.mentioned i).mp (by simp [entry])
    simp [AtEnd, result.opened, contentAfter_content, known]

/-- Finding the entry leaves what the other entries say about the end alone. -/
theorem Opening.atEnd {st st' : BlockState} {tc : ToolDelta} {events : List BlockEvent}
    {ts other : ToolState} (h : Opening st tc st' events ts)
    (below : other.blockIndex ≤ st.blockIndex) : AtEnd other st' ↔ AtEnd other st := by
  cases h with
  | known | idle => rfl
  | closing _ _ opened next closed =>
      unfold AtEnd
      simp only [opened, and_false, iff_false]
      rintro ⟨same, -⟩
      omega

theorem Opening.grows {st st' : BlockState} {tc : ToolDelta} {events : List BlockEvent}
    {ts : ToolState} (h : Opening st tc st' events ts) : st.blockIndex ≤ st'.blockIndex := by
  cases h with
  | known | idle => exact le_rfl
  | closing _ _ _ next => omega

/-- The entry a tool delta writes goes on with the one it found. -/
theorem Opening.updates {ms : List Move} {st st' : BlockState} {tc : ToolDelta}
    {events : List BlockEvent} {ts : ToolState} (h : Opening st tc st' events ts)
    (history : History ms st) :
    Updates ToolState.id ToolState.name ToolState.started st.toolStates tc
      ((ts.update tc).emit tc).1 := by
  have complete : (ts.update tc).started = true →
      (ts.update tc).id.isSome ∧ (ts.update tc).name.isSome := by
    intro started
    cases h with
    | known _ entry =>
        obtain ⟨hasId, hasName⟩ := (history.started _ _ entry).mp started
        exact ⟨(orElse_isSome ..).mpr (.inr hasId), (orElse_isSome ..).mpr (.inr hasName)⟩
    | idle | closing => cases started
  refine ⟨?_, ?_, ?_⟩
  · rw [emit_id]
    cases h with
    | known _ entry => simp [ToolState.update, entry]
    | idle unknown | closing _ unknown =>
        simp [ToolState.update, ToolState.create, unknown, orElse_idem]
  · rw [emit_name]
    cases h with
    | known _ entry => simp [ToolState.update, entry]
    | idle unknown | closing _ unknown =>
        simp [ToolState.update, ToolState.create, unknown, orElse_idem]
  · rw [emit_id, emit_name]
    exact emit_started tc complete

/-- Where the block of the entry stands. -/
theorem Opening.placed {ms : List Move} {st st' : BlockState} {tc : ToolDelta}
    {events : List BlockEvent} {ts : ToolState} (h : Opening st tc st' events ts)
    (history : History ms st) :
    ts.blockIndex ≤ st'.blockIndex ∧
      (AtEnd ts st' ↔ ¬ ContentAfter (ms ++ [.tool tc]) tc.index) := by
  rw [contentAfter_tool]
  cases h with
  | known _ entry => exact ⟨history.below _ _ entry, history.last _ _ entry⟩
  | idle unknown closed =>
      simp [ToolState.create, AtEnd, closed, (history.fresh unknown).2.2]
  | closing _ unknown _ _ closed =>
      simp [ToolState.create, AtEnd, closed, (history.fresh unknown).2.2]

theorem history_tool {ms : List Move} {st : BlockState} (shape : Shape st)
    (history : History ms st) (tc : ToolDelta) :
    History (ms ++ [.tool tc]) (st.onTool tc).1 := by
  obtain ⟨st', events, ts, opening, same⟩ := onTool_eq shape tc
  obtain ⟨below, last⟩ := opening.placed history
  rw [same]
  refine ⟨?_, fun i t entry => ?_, fun i t entry => ?_⟩
  · rw [BlockState.setTool, opening.tools]
    exact history.toKnown.tool (opening.updates history)
  · simp only [BlockState.setTool, lookup_setEntry, opening.tools] at entry ⊢
    split at entry
    · rw [← Option.some.inj entry, emit_blockIndex]
      exact below
    · exact (history.below i t entry).trans opening.grows
  · simp only [BlockState.setTool, lookup_setEntry, opening.tools, contentAfter_tool] at entry last ⊢
    split at entry
    · rename_i here
      rw [here, ← last, ← Option.some.inj entry]
      simp only [AtEnd, emit_blockIndex]
      exact Iff.rfl
    · rw [← history.last i t entry]
      exact opening.atEnd (history.below i t entry)

/-! ## Runs -/

theorem move_shape {st : BlockState} (shape : Shape st) (x : Move) : Shape (st.move x).1 := by
  cases x with
  | content text => exact (onContent_result shape text).shape
  | tool tc =>
      obtain ⟨st', events, ts, opening, same⟩ := onTool_eq shape tc
      rw [BlockState.move, same]
      exact shape_setTool (opening.shape shape) _ _

theorem move_history {ms : List Move} {st : BlockState} (shape : Shape st)
    (history : History ms st) (x : Move) : History (ms ++ [x]) (st.move x).1 := by
  cases x with
  | content text => exact history_content shape history text
  | tool tc => exact history_tool shape history tc

theorem run_known (ms : List Move) :
    Shape (runFrom BlockState.move newBlockState ms).1 ∧
      History ms (runFrom BlockState.move newBlockState ms).1 := by
  refine runFrom_induction BlockState.move (P := fun ms st _ => Shape st ∧ History ms st)
    ⟨shape_new, history_new⟩ ?_ ms
  rintro ms st events x ⟨shape, history⟩
  exact ⟨move_shape shape x, move_history shape history x⟩

end E2eeProxy.Claude
