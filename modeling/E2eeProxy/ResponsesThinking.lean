import E2eeProxy.ResponsesSteps

/-! # Is thinking told apart from the answer?

For a stream that opens with `<think>` and closes it inside one later delta, the
events should split at the closing of the reasoning item. They do exactly when
text follows the closing tag in that delta and no tool call is started from then
on: whether reasoning goes on is read off `text_part_started`, which nothing
sets in the first case and which a tool call resets in the second.
-/

namespace E2eeProxy.Responses

open E2eeProxy.Lua E2eeProxy.OpenAi E2eeProxy.Lib

/-- The reasoning item is closed once, with all of the reasoning before it and
    all of the text of the message after it. -/
def ThinkingSplit (id : Bytes) (events : List ItemEvent) (thinking text : Bytes) : Prop :=
  ∃ before i item after, events = before ++ .done i item :: after ∧ item.isReasoning = true ∧
    (reasoningOf before = thinking ∧ textOf id before = [] ∧ closings before = 0) ∧
    (reasoningOf after = [] ∧ textOf id after = text ∧ closings after = 0)

/-- The content deltas of a sequence of moves. -/
def contents (moves : List Move) : List Bytes :=
  moves.filterMap fun
    | .content s => some s
    | .tool _ => none

@[simp] theorem contents_content (ms : List Move) (s : Bytes) :
    contents (ms ++ [.content s]) = contents ms ++ [s] := by
  simp [contents]

@[simp] theorem contents_tool (ms : List Move) (tc : ToolDelta) :
    contents (ms ++ [.tool tc]) = contents ms := by
  simp [contents]

/-- Events that add text only leave the split where it is. -/
theorem ThinkingSplit.append {id : Bytes} {events new : List ItemEvent}
    {thinking text more : Bytes} (h : ThinkingSplit id events thinking text)
    (reasoning : reasoningOf new = []) (sent : textOf id new = more) (open' : closings new = 0) :
    ThinkingSplit id (events ++ new) thinking (text ++ more) := by
  obtain ⟨before, i, item, after, rfl, isReasoning, first, none', last, open''⟩ := h
  exact ⟨before, i, item, after ++ new, by simp, isReasoning, first,
    by simp [none', reasoning], by simp [last, sent], by simp [open'', open']⟩

theorem ThinkingSplit.closedOnce {id : Bytes} {events : List ItemEvent} {thinking text : Bytes}
    (h : ThinkingSplit id events thinking text) : closings events = 1 := by
  obtain ⟨before, i, item, after, rfl, isReasoning, ⟨-, -, first⟩, -, -, second⟩ := h
  have one : closings [.done i item] = 1 := by
    simp [closings, doneItems, ItemEvent.done?, isReasoning]
  have split : ItemEvent.done i item :: after = [.done i item] ++ after := rfl
  rw [split, closings_append, closings_append, first, one, second]

/-! ## While reasoning goes on -/

/-- Nothing but reasoning was sent. -/
structure Reasoning (st : ItemState) (id : Bytes) (events : List ItemEvent) (thinking : Bytes) :
    Prop where
  later : st.firstContent = false
  detected : st.thinkDetected = true
  open' : st.textPartStarted = false
  reasoning : reasoningOf events = thinking
  text : textOf id events = []
  closings : closings events = 0

/-- Before the first content nothing was sent at all. -/
structure Quiet (st : ItemState) (id : Bytes) (events : List ItemEvent) : Prop where
  first : st.firstContent = true
  reasoning : reasoningOf events = []
  text : textOf id events = []
  closings : closings events = 0

theorem quiet_run (id : Bytes) (ids : Ids) (ms : List Move) (none : contents ms = []) :
    Quiet (runFrom (ItemState.move ids) (newItemState ids) ms).1 id
      (runFrom (ItemState.move ids) (newItemState ids) ms).2 := by
  induction ms using List.reverseRecOn with
  | nil => exact ⟨rfl, rfl, rfl, rfl⟩
  | append_singleton ms x ih =>
      cases x with
      | content s => simp at none
      | tool tc =>
          rw [contents_tool] at none
          have quiet := ih none
          have step := toolStep id (run_settled ids ms).1 tc
          rw [runFrom_concat]
          exact ⟨step.first.trans quiet.first, by simp [ItemState.move, quiet.reasoning, step.reasoning],
            by simp [ItemState.move, quiet.text, step.text],
            by simp [ItemState.move, quiet.closings, step.closings]⟩

theorem reasoning_run (id : Bytes) (ids : Ids) (ms : List Move) {first : Bytes}
    {before : List Bytes} (sent : contents ms = first :: before)
    (starts : first.take 7 = lit "<think>")
    (whole : ∀ piece ∈ before, cut (lit "</think>") piece = none) :
    Reasoning (runFrom (ItemState.move ids) (newItemState ids) ms).1 id
      (runFrom (ItemState.move ids) (newItemState ids) ms).2
      (first.drop 7 ++ before.flatten) := by
  induction ms using List.reverseRecOn generalizing before with
  | nil => cases sent
  | append_singleton ms x ih =>
      obtain ⟨shape, -⟩ := run_settled ids ms
      rw [runFrom_concat]
      cases x with
      | tool tc =>
          rw [contents_tool] at sent
          have reasoning := ih sent whole
          have step := toolStep id shape tc
          refine ⟨step.first.trans reasoning.later, step.detected.trans reasoning.detected,
            step.still reasoning.open', ?_, ?_, ?_⟩
          · simp [ItemState.move, reasoning.reasoning, step.reasoning]
          · simp [ItemState.move, reasoning.text, step.text]
          · simp [ItemState.move, reasoning.closings, step.closings]
      | content s =>
          rw [contents_content] at sent
          cases earlier : contents ms with
          | nil =>
              simp only [earlier, List.nil_append, List.cons.injEq] at sent
              obtain ⟨rfl, rfl⟩ := sent
              have quiet := quiet_run id ids ms earlier
              rw [ItemState.move, onContent_think ids s quiet.first starts (tag_length starts)]
              have sums := openReasoning_sums id ids
                ({ (runFrom (ItemState.move ids) (newItemState ids) ms).1 with
                  firstContent := false, thinkDetecting := true, thinkBuffer := s }) (s.drop 7)
              refine ⟨rfl, rfl, (shape.fresh quiet.first).1, ?_, ?_, ?_⟩
              · simp [quiet.reasoning, sums.reasoning]
              · simp [quiet.text, sums.text]
              · simp [quiet.closings, sums.closings]
          | cons f rest =>
              rw [earlier, List.cons_append, List.cons.injEq] at sent
              obtain ⟨rfl, rfl⟩ := sent
              have reasoning := ih earlier fun piece mem => whole piece (by simp [mem])
              rw [ItemState.move, onContent_reason s shape reasoning.later reasoning.detected
                reasoning.open', reason_more _ (whole s (by simp))]
              have sums := sendReasoning_sums id
                (runFrom (ItemState.move ids) (newItemState ids) ms).1 s
              refine ⟨reasoning.later, reasoning.detected, reasoning.open', ?_, ?_, ?_⟩
              · simp [reasoning.reasoning, sums.reasoning]
              · simp [reasoning.text, sums.text]
              · simp [reasoning.closings, sums.closings]

/-! ## From the closing tag on -/

/-- Reasoning was closed and goes on all the same, or was closed twice. -/
def Doomed (st : ItemState) (events : List ItemEvent) : Prop :=
  (1 ≤ closings events ∧ st.firstContent = false ∧ st.thinkDetected = true ∧
    st.textPartStarted = false) ∨ 2 ≤ closings events

theorem closeReasoning_closings (st : ItemState) : closings st.closeReasoning = 1 := by
  rw [(closeReasoning_sums [] st).closings]
  rfl

theorem doomed_content {ids : Ids} {st : ItemState} {events : List ItemEvent}
    (shape : Shape ids st) (doomed : Doomed st events) (s : Bytes) :
    Doomed (st.onContent ids s).1 (events ++ (st.onContent ids s).2) := by
  rcases doomed with ⟨closed, later, detected, open'⟩ | twice
  · rw [onContent_reason s shape later detected open']
    cases found : cut (lit "</think>") s with
    | none =>
        rw [reason_more st found]
        exact .inl ⟨by simp; omega, later, detected, open'⟩
    | some parts =>
        obtain ⟨x, y⟩ := parts
        have again : 1 ≤ closings (st.reason s).2 := by
          cases y with
          | nil =>
              obtain ⟨-, before, same, -⟩ := reason_close [] st found
              rw [same, closings_append, closeReasoning_closings]
              omega
          | cons c y =>
              obtain ⟨-, before, same, -⟩ := reason_close_text st (List.cons_ne_nil c y) found
              rw [same, closings_append, closings_append, closeReasoning_closings]
              omega
        refine .inr ?_
        rw [closings_append]
        omega
  · refine .inr ?_
    rw [closings_append]
    omega

theorem doomed_tool {ids : Ids} {st : ItemState} {events : List ItemEvent}
    (shape : Shape ids st) (doomed : Doomed st events) (tc : ToolDelta) :
    Doomed (st.onTool ids tc).1 (events ++ (st.onTool ids tc).2) := by
  have step := toolStep [] shape tc
  rcases doomed with ⟨closed, later, detected, open'⟩ | twice
  · exact .inl ⟨by rw [closings_append]; omega, step.first.trans later,
      step.detected.trans detected, step.still open'⟩
  · refine .inr ?_
    rw [closings_append]
    omega

/-- The stream is split and text is being sent. -/
structure Split (st : ItemState) (id : Bytes) (events : List ItemEvent) (thinking text : Bytes) :
    Prop where
  later : st.firstContent = false
  detected : st.thinkDetected = true
  opened : st.textPartStarted = true
  split : ThinkingSplit id events thinking text

/-- The closing delta splits the stream, if text follows the tag in it. -/
theorem close_split {ids : Ids} {st : ItemState} {events : List ItemEvent} {thinking : Bytes}
    (shape : Shape ids st) (reasoning : Reasoning st (ids.item 0) events thinking) {last x y : Bytes}
    (found : cut (lit "</think>") last = some (x, y)) (text : y ≠ []) :
    Split (st.onContent ids last).1 (ids.item 0) (events ++ (st.onContent ids last).2)
      (thinking ++ x) y := by
  rw [onContent_reason last shape reasoning.later reasoning.detected reasoning.open']
  obtain ⟨state, before, same, sums⟩ := reason_close_text st text found
  obtain ⟨sent, textSums⟩ := sendText_sums (st.reasoned x) y shape.part
  have id : (st.reasoned x).msgItemId = ids.item 0 := shape.message
  rw [id] at textSums
  rw [shape.message] at sums
  rw [state, sent, same]
  refine ⟨reasoning.later, reasoning.detected, rfl, events ++ before ++
    [.reasoningDone (st.reasoned x).reasoningItemId 0 (st.reasoned x).reasoningText], 0,
    (st.reasoned x).reasoningItem, ((st.reasoned x).sendText y).2, ?_, rfl, ⟨?_, ?_, ?_⟩,
    textSums.reasoning, textSums.text, ?_⟩
  · simp [ItemState.closeReasoning, ItemState.reasoningItem]
  · rw [reasoningOf_append, reasoningOf_append, reasoning.reasoning, sums.reasoning]
    exact List.append_nil _
  · rw [textOf_append, textOf_append, reasoning.text, sums.text]
    rfl
  · rw [closings_append, closings_append, reasoning.closings, sums.closings]
    rfl
  · rw [textSums.closings]
    rfl

theorem close_doomed {ids : Ids} {st : ItemState} {events : List ItemEvent} {thinking : Bytes}
    {id : Bytes} (shape : Shape ids st) (reasoning : Reasoning st id events thinking)
    {last x : Bytes} (found : cut (lit "</think>") last = some (x, [])) :
    Doomed (st.onContent ids last).1 (events ++ (st.onContent ids last).2) := by
  rw [onContent_reason last shape reasoning.later reasoning.detected reasoning.open']
  obtain ⟨state, before, same, -⟩ := reason_close [] st found
  rw [state, same]
  refine .inl ⟨?_, reasoning.later, reasoning.detected, reasoning.open'⟩
  rw [closings_append, closings_append, closeReasoning_closings]
  omega

/-- Text goes on being sent as text while the text part is open. -/
theorem write_split {ids : Ids} {st : ItemState} {events : List ItemEvent} {thinking text : Bytes}
    (shape : Shape ids st) (h : Split st (ids.item 0) events thinking text) (s : Bytes) :
    Split (st.onContent ids s).1 (ids.item 0) (events ++ (st.onContent ids s).2) thinking
      (text ++ s) := by
  obtain ⟨sent, sums⟩ := sendText_sums st s shape.part
  rw [shape.message] at sums
  rw [onContent_open s shape h.later h.opened, sent]
  exact ⟨h.later, h.detected, rfl,
    h.split.append sums.reasoning sums.text (by rw [sums.closings]; rfl)⟩

/-- Text follows the closing tag, and no call is started from its delta on. -/
def TextThenNoCall (y : Bytes) (before all : List Move) : Prop :=
  y ≠ [] ∧ ∀ i, Completes all i → Completes before i

theorem after_run (ids : Ids) {before : List Move} {thinking last x y : Bytes}
    (reasoning : Reasoning (runFrom (ItemState.move ids) (newItemState ids) before).1 (ids.item 0)
      (runFrom (ItemState.move ids) (newItemState ids) before).2 thinking)
    (found : cut (lit "</think>") last = some (x, y)) (after : List Move) :
    let all := before ++ .content last :: after
    let r := runFrom (ItemState.move ids) (newItemState ids) all
    (TextThenNoCall y before all ∧
        Split r.1 (ids.item 0) r.2 (thinking ++ x) (y ++ (contents after).flatten)) ∨
      (¬ TextThenNoCall y before all ∧ Doomed r.1 r.2) := by
  induction after using List.reverseRecOn with
  | nil =>
      obtain ⟨shape, -⟩ := run_settled ids before
      have same (i : Value) := completes_content before i last
      simp only [runFrom_concat, TextThenNoCall, same, imp_self, implies_true, and_true]
      cases y with
      | nil => exact .inr ⟨by simp, close_doomed shape reasoning found⟩
      | cons c y =>
          have split := close_split shape reasoning found (List.cons_ne_nil c y)
          refine .inl ⟨List.cons_ne_nil c y, ?_⟩
          simpa [contents, ItemState.move] using split
  | append_singleton after move ih =>
      obtain ⟨shape, known⟩ := run_settled ids (before ++ .content last :: after)
      have assoc : before ++ .content last :: (after ++ [move]) =
          before ++ .content last :: after ++ [move] := by simp
      simp only [assoc, runFrom_concat] at ih ⊢
      cases move with
      | content s =>
          have same (i : Value) := completes_content (before ++ .content last :: after) i s
          simp only [TextThenNoCall, same] at ih ⊢
          rcases ih with ⟨good, split⟩ | ⟨bad, doomed⟩
          · refine .inl ⟨good, ?_⟩
            rw [contents_content, List.flatten_append, ← List.append_assoc]
            simpa [ItemState.move] using write_split shape split s
          · exact .inr ⟨bad, doomed_content shape doomed s⟩
      | tool tc =>
          rw [contents_tool]
          have step := toolStep (ids.item 0) shape tc
          rcases ih with ⟨⟨text, quiet⟩, split⟩ | ⟨bad, doomed⟩
          · cases ready : ((runFrom (ItemState.move ids) (newItemState ids)
                (before ++ .content last :: after)).1.updated ids tc).ready with
            | false =>
                refine .inl ⟨⟨text, fun i complete => quiet i ?_⟩,
                  step.first.trans split.later, step.detected.trans split.detected,
                  step.stays split.opened ready, ?_⟩
                · exact (completes_quiet known ready i).mp complete
                · have kept := split.split.append step.reasoning step.text step.closings
                  rwa [List.append_nil] at kept
            | true =>
                obtain ⟨complete, was⟩ := (ready_iff ids known tc).mp ready
                refine .inr ⟨fun good => was ?_, .inl ⟨?_, step.first.trans split.later,
                  step.detected.trans split.detected, step.closes ready⟩⟩
                · exact (good.2 _ complete).append _
                · rw [closings_append, split.split.closedOnce]
                  omega
          · refine .inr ⟨fun good => bad ⟨good.1, fun i complete => good.2 i ?_⟩,
              doomed_tool shape doomed tc⟩
            exact Completes.append complete [.tool tc]

/-! ## The end of the stream -/

theorem finish_split {st : ItemState} {id : Bytes} {events : List ItemEvent}
    {thinking text : Bytes} (h : Split st id events thinking text)
    (order : List (Value × ToolState)) :
    ThinkingSplit id (events ++ (st.close order).1) thinking text := by
  have sums := (closeMessage_sums id st).append
    (closeTools_sums id ((order.filter fun entry => entry.2.started).map Prod.snd))
  have closed : (st.close order).1 = st.closeMessage ++
      ((order.filter fun entry => entry.2.started).map Prod.snd).flatMap fun ts =>
        [.argumentsDone ts.itemId ts.outputIndex ts.callId ts.name ts.args,
          .done ts.outputIndex (ts.item .completed ts.args)] := by
    simp [ItemState.close, h.opened]
  have noReasoning : closings (st.close order).1 = 0 := by
    rw [closed, sums.closings, List.countP_eq_zero]
    intro p mem
    cases List.mem_append.mp mem with
    | inl message =>
        obtain rfl := List.mem_singleton.mp message
        simp [ItemState.messageItem, Item.isReasoning]
    | inr tool =>
        obtain ⟨ts, -, rfl⟩ := List.mem_map.mp tool
        simp [ToolState.item, Item.isReasoning]
  have noText : textOf id (st.close order).1 = [] := by rw [closed, sums.text]; rfl
  have kept := h.split.append (by rw [closed, sums.reasoning]; rfl) noText noReasoning
  rwa [List.append_nil] at kept

theorem finish_doomed {ids : Ids} {st : ItemState} {events : List ItemEvent}
    (shape : Shape ids st) (doomed : Doomed st events) (order : List (Value × ToolState)) :
    closings (events ++ (st.close order).1) ≠ 1 := by
  rw [closings_append]
  rcases doomed with ⟨closed, later, detected, open'⟩ | twice
  · have again : 1 ≤ closings (st.close order).1 := by
      simp only [ItemState.close, detected, shape.detected detected, open', Bool.false_eq_true,
        not_false_eq_true, and_self, ↓reduceIte, closings_append, closeReasoning_closings]
      omega
    omega
  · omega

/-- For a stream whose first delta begins with `<think>` and in which `last` is
    the first later delta that holds `</think>`: the events split into the
    reasoning before the tag and the text after it exactly when `last` has text
    after the tag and no tool call is started from `last` on. -/
theorem thinking_split_iff (rt : Runtime) (ids : Ids) (now : Rat) (model : Option Value)
    {lines : List Bytes} (chunks : ∀ line ∈ lines, IsCountedLine rt line)
    (before after : List Move) (first : Bytes) (pieces : List Bytes) (last x y : Bytes)
    (split : moves rt lines = before ++ .content last :: after)
    (sent : contents before = first :: pieces) (starts : first.take 7 = lit "<think>")
    (open' : ∀ piece ∈ pieces, cut (lit "</think>") piece = none)
    (found : cut (lit "</think>") last = some (x, y)) :
    ∃ st events, streamChunks rt ids now (newStreamState ids model) lines = .ok (st, events) ∧
      ∀ order, order.Perm st.toolStates →
        (ThinkingSplit (ids.item 0) (itemEvents (events ++ streamEnd now st order))
            (first.drop 7 ++ pieces.flatten ++ x) (y ++ (contents after).flatten) ↔
          y ≠ [] ∧ ∀ i, Completes (moves rt lines) i → Completes before i) := by
  obtain ⟨st, events, handled, items, state, -⟩ := streamChunks_ok rt ids now model chunks
  refine ⟨st, events, handled, fun order _ => ?_⟩
  obtain ⟨shape, -⟩ := run_settled ids (moves rt lines)
  rw [← state] at shape
  rw [itemEvents_append, items, itemEvents_streamEnd now shape]
  have reasoning := reasoning_run (ids.item 0) ids before sent starts open'
  have run := after_run ids reasoning found after
  simp only [← split, ← state] at run
  rcases run with ⟨good, splits⟩ | ⟨bad, doomed⟩
  · exact iff_of_true (finish_split splits order) good
  · exact iff_of_false (fun h => finish_doomed shape doomed order h.closedOnce) bad

/-- Reasoning, then the tag with the answer behind it. -/
def thoughtThenAnswer : List String := ["<think>a", "b</think>c"]

theorem answer_splits_iff :
    ∃ st events, streamChunks (contentRuntime thoughtThenAnswer) sampleIds 0
        (newStreamState sampleIds none) (thoughtThenAnswer.map contentLine) = .ok (st, events) ∧
      ∀ order, order.Perm st.toolStates →
        (ThinkingSplit (sampleIds.item 0) (itemEvents (events ++ streamEnd 0 st order))
            ((lit "<think>a").drop 7 ++ ([] : List Bytes).flatten ++ lit "b")
            (lit "c" ++ (contents []).flatten) ↔
          lit "c" ≠ [] ∧ ∀ i, Completes (moves (contentRuntime thoughtThenAnswer)
            (thoughtThenAnswer.map contentLine)) i → Completes [.content (lit "<think>a")] i) :=
  thinking_split_iff (contentRuntime thoughtThenAnswer) sampleIds 0 none
    (contentLines_counted _ (by simp only [thoughtThenAnswer, List.forall_mem_cons]; decide))
    [.content (lit "<think>a")] [] (lit "<think>a") [] (lit "b</think>c") (lit "b") (lit "c")
    rfl rfl (by decide) (by simp) (by decide)

/-- The answer starts in the delta after the one that ends with the tag. -/
def answerInNextDelta : List String := ["<think>a", "b</think>", "c"]

/-- With nothing behind the tag in its delta reasoning goes on and is closed twice. -/
theorem answer_sent_as_reasoning :
    ¬ ∀ (rt : Runtime) (ids : Ids) (now : Rat) (model : Option Value) (lines : List Bytes)
      (before after : List Move) (first : Bytes) (pieces : List Bytes) (last x y : Bytes),
      (∀ line ∈ lines, IsCountedLine rt line) →
      moves rt lines = before ++ .content last :: after → contents before = first :: pieces →
      first.take 7 = lit "<think>" →
      (∀ piece ∈ pieces, cut (lit "</think>") piece = none) →
      cut (lit "</think>") last = some (x, y) →
      ∀ st events, streamChunks rt ids now (newStreamState ids model) lines = .ok (st, events) →
        ∀ order, order.Perm st.toolStates →
          ThinkingSplit (ids.item 0) (itemEvents (events ++ streamEnd now st order))
            (first.drop 7 ++ pieces.flatten ++ x) (y ++ (contents after).flatten) := by
  intro always
  have split := always (contentRuntime answerInNextDelta) sampleIds 0 none _
    [.content (lit "<think>a")] [.content (lit "c")] (lit "<think>a") [] (lit "b</think>")
    (lit "b") []
    (contentLines_counted _ (by simp only [answerInNextDelta, List.forall_mem_cons]; decide))
    rfl rfl (by decide) (by simp) (by decide) _ _ rfl _ (List.Perm.refl _)
  exact absurd split.closedOnce (by decide)

end E2eeProxy.Responses
