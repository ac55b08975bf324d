import E2eeProxy.ClaudeFormat
import E2eeProxy.ClaudeState
import E2eeProxy.Lib.PieceSearch

/-! # Do streamed and whole answers agree?

A client assembles content blocks from the block events. For content deltas
followed by tool deltas the blocks are compared with those of the whole
message; they agree exactly when the way the content is cut keeps each think
tag inside one delta.
-/

namespace E2eeProxy.Claude

open E2eeProxy.Lua E2eeProxy.OpenAi E2eeProxy.Lib

/-! ## The client -/

/-- A content block as it is shown: its type with its text, or the tool called. -/
inductive View where
  | thinking (thinking : Bytes)
  | text (text : Bytes)
  | toolUse (id name : Option Value)
  deriving DecidableEq

def ContentBlock.view : ContentBlock → View
  | .thinking => .thinking []
  | .text => .text []
  | .toolUse id name => .toolUse (some id) (some name)

def ResponseBlock.view : ResponseBlock → View
  | .thinking s => .thinking s
  | .text s => .text s
  | .toolUse id name _ => .toolUse id name

def View.add : View → BlockDelta → View
  | .thinking t, .thinking s => .thinking (t ++ s)
  | .text t, .text s => .text (t ++ s)
  | v, _ => v

/-- A started block is appended; a delta goes to the block at its index. -/
def assembleStep (blocks : List View) : BlockEvent → List View
  | .start _ block => blocks ++ [block.view]
  | .delta i delta => blocks.modify i fun v => v.add delta
  | .stop _ => blocks

def assembleFrom (blocks : List View) (events : List BlockEvent) : List View :=
  events.foldl assembleStep blocks

def Event.block? : Event → Option BlockEvent
  | .block e => some e
  | .messageStart .. | .messageDelta .. | .messageStop => none

/-- The content blocks a client assembles. -/
def assemble (events : List Event) : List View := assembleFrom [] (events.filterMap Event.block?)

/-- Empty text blocks do not count. -/
def shown (blocks : List View) : List View := blocks.filter fun v => v ≠ .text []

theorem assembleFrom_append (blocks : List View) (xs ys : List BlockEvent) :
    assembleFrom blocks (xs ++ ys) = assembleFrom (assembleFrom blocks xs) ys :=
  List.foldl_append

/-! ## The content -/

/-- The views of content deltas, as the stream shows them. -/
def streamViews : List Bytes → List View
  | [] => []
  | first :: rest =>
      if first.take 7 = lit "<think>" then
        match cutPieces (lit "</think>") rest with
        | some (before, after) => [.thinking (first.drop 7 ++ before), .text after]
        | none => [.thinking (first.drop 7 ++ rest.flatten)]
      else [.text (first ++ rest.flatten)]

theorem modify_last (blocks : List View) (v : View) (delta : BlockDelta) :
    (blocks ++ [v]).modify blocks.length (fun v => v.add delta) = blocks ++ [v.add delta] := by
  induction blocks with
  | nil => rfl
  | cons b blocks ih => simpa using ih

/-- A delta for the last block. -/
theorem assembleFrom_delta {blocks : List View} {v : View} {i : Nat} (last : blocks.length = i)
    (delta : BlockDelta) (events : List BlockEvent) :
    assembleFrom (blocks ++ [v]) (.delta i delta :: events) =
      assembleFrom (blocks ++ [v.add delta]) events := by
  rw [← last, ← modify_last]
  rfl

theorem assembleFrom_texts {blocks : List View} {i : Nat} (last : blocks.length = i) (t : Bytes)
    (texts : List Bytes) :
    assembleFrom (blocks ++ [.text t]) (texts.map fun s => .delta i (.text s)) =
      blocks ++ [.text (t ++ texts.flatten)] := by
  induction texts generalizing t with
  | nil => simp [assembleFrom]
  | cons s texts ih =>
      rw [List.map_cons, assembleFrom_delta last, View.add, ih]
      simp

theorem assembleFrom_unlessEmpty_thinking {blocks : List View} {i : Nat}
    (last : blocks.length = i) (t s : Bytes) (events : List BlockEvent) :
    assembleFrom (blocks ++ [.thinking t])
        (unlessEmpty (fun s => .delta i (.thinking s)) s ++ events) =
      assembleFrom (blocks ++ [.thinking (t ++ s)]) events := by
  unfold unlessEmpty
  split
  · rename_i empty
    simp [empty]
  · exact assembleFrom_delta last _ events

theorem assembleFrom_unlessEmpty_text {blocks : List View} {i : Nat} (last : blocks.length = i)
    (t s : Bytes) (events : List BlockEvent) :
    assembleFrom (blocks ++ [.text t]) (unlessEmpty (fun s => .delta i (.text s)) s ++ events) =
      assembleFrom (blocks ++ [.text (t ++ s)]) events := by
  unfold unlessEmpty
  split
  · rename_i empty
    simp [empty]
  · exact assembleFrom_delta last _ events

/-- Once a text block is open every content delta goes to it. -/
theorem write_run {st : BlockState} (shape : Shape st) (later : st.firstContent = false)
    (writing : st.currentType = some .text) (texts : List Bytes) :
    runFrom BlockState.move st (texts.map .content) =
      (st, texts.map fun s => .delta st.blockIndex (.text s)) := by
  have one (s : Bytes) : st.onContent s = (st, [.delta st.blockIndex (.text s)]) := by
    simp [BlockState.onContent, BlockState.beginContent, BlockState.write, later, shape.decided,
      writing, shape.text.mp writing]
  induction texts with
  | nil => rfl
  | cons s texts ih => simp [BlockState.move, one, ih]

/-- While a thinking block is open the closing tag is searched in every delta by itself. -/
theorem think_run {st : BlockState} {blocks : List View} (shape : Shape st)
    (later : st.firstContent = false) (thinking : st.currentType = some .thinking)
    (last : blocks.length = st.blockIndex) (t : Bytes) (texts : List Bytes) :
    assembleFrom (blocks ++ [.thinking t])
        (runFrom BlockState.move st (texts.map .content)).2 =
      blocks ++ match cutPieces (lit "</think>") texts with
        | some (before, after) => [.thinking (t ++ before), .text after]
        | none => [.thinking (t ++ texts.flatten)] := by
  induction texts generalizing t with
  | nil => simp [cutPieces, assembleFrom]
  | cons s texts ih =>
      have step : st.onContent s = st.think s := by
        simp [BlockState.onContent, BlockState.beginContent, later, shape.decided, thinking,
          shape.thinking thinking]
      have shape' := (think_result st s shape thinking).shape
      simp only [List.map_cons, runFrom_cons, BlockState.move, step, cutPieces]
      unfold BlockState.think at shape' ⊢
      cases found : cut (lit "</think>") s with
      | none =>
          simp only [List.cons_append, List.nil_append]
          rw [assembleFrom_delta last, View.add, ih]
          cases cutPieces (lit "</think>") texts <;> simp
      | some parts =>
          obtain ⟨before, after⟩ := parts
          simp only [found] at shape'
          simp only [List.append_assoc, List.cons_append, List.nil_append]
          rw [write_run shape' later rfl, assembleFrom_unlessEmpty_thinking last]
          show assembleFrom (blocks ++ [.thinking (t ++ before)] ++ [.text []]) _ = _
          have next : (blocks ++ [View.thinking (t ++ before)]).length = st.blockIndex + 1 := by
            simp [last]
          rw [assembleFrom_unlessEmpty_text next, assembleFrom_texts next]
          simp

theorem first_thinking {first : Bytes} (h : first.take 7 = lit "<think>") :
    newBlockState.onContent first =
      ({ newBlockState with
          firstContent := false, thinkBuffer := first, thinkDetected := true,
          currentType := some .thinking },
        .start 0 .thinking :: unlessEmpty (fun s => .delta 0 (.thinking s)) (first.drop 7)) := by
  simp [BlockState.onContent, BlockState.beginContent, BlockState.detect, newBlockState, h,
    tag_length h]

theorem first_text {first : Bytes} (h : first.take 7 ≠ lit "<think>") :
    newBlockState.onContent first =
      ({ newBlockState with
          firstContent := false, thinkBuffer := first, currentType := some .text,
          textStarted := true },
        [.start 0 .text, .delta 0 (.text first)]) := by
  simp [BlockState.onContent, BlockState.beginContent, BlockState.detect, newBlockState, h]

/-- What a client assembles from the content deltas. -/
theorem content_run (texts : List Bytes) :
    assembleFrom [] (runFrom BlockState.move newBlockState (texts.map .content)).2 =
      streamViews texts := by
  cases texts with
  | nil => rfl
  | cons first rest =>
      have shape := (onContent_result shape_new first).shape
      have position : ([] : List View).length = 0 := rfl
      simp only [List.map_cons, runFrom_cons, BlockState.move, streamViews]
      split
      · rename_i starts
        rw [first_thinking starts] at shape ⊢
        show assembleFrom ([] ++ [.thinking []])
          (unlessEmpty (fun s => .delta 0 (.thinking s)) (first.drop 7) ++ _) = _
        rw [assembleFrom_unlessEmpty_thinking position, think_run shape rfl rfl rfl]
        simp
      · rename_i other
        rw [first_text other] at shape ⊢
        rw [write_run shape rfl rfl]
        show assembleFrom ([] ++ [.text []]) (.delta 0 (.text first) :: _) = _
        rw [assembleFrom_delta position, View.add]
        exact assembleFrom_texts position _ rest

/-- Content deltas leave the tool states alone. -/
theorem content_state (texts : List Bytes) :
    Shape (runFrom BlockState.move newBlockState (texts.map .content)).1 ∧
      (runFrom BlockState.move newBlockState (texts.map .content)).1.toolStates = [] := by
  induction texts using List.reverseRecOn with
  | nil => exact ⟨shape_new, rfl⟩
  | append_singleton texts s ih =>
      have result := onContent_result ih.1 s
      rw [List.map_append, List.map_singleton, runFrom_concat]
      exact ⟨result.shape, result.tools.trans ih.2⟩

/-! ## The tool calls -/

/-- The events a tool delta emits: none that a client adds text for. -/
def IsToolEvent : BlockEvent → Prop
  | .start _ (.toolUse _ _) | .delta _ (.inputJson _) | .stop _ => True
  | _ => False

/-- The tool calls that are started. -/
def toolViews (events : List BlockEvent) : List View :=
  events.filterMap fun
    | .start _ block => some block.view
    | _ => none

theorem View.add_inputJson (v : View) (json : Value) : v.add (.inputJson json) = v := by
  cases v <;> rfl

theorem assembleFrom_toolEvents (blocks : List View) {events : List BlockEvent}
    (tools : ∀ e ∈ events, IsToolEvent e) :
    assembleFrom blocks events = blocks ++ toolViews events := by
  induction events generalizing blocks with
  | nil => simp [assembleFrom, toolViews]
  | cons e events ih =>
      have rest := ih (assembleStep blocks e) fun e' mem => tools e' (List.mem_cons_of_mem e mem)
      have head := tools e List.mem_cons_self
      show assembleFrom (assembleStep blocks e) events = _
      rw [rest]
      cases e with
      | start i block => simp [assembleStep, toolViews]
      | stop i => simp [assembleStep, toolViews]
      | delta i delta =>
          cases delta with
          | thinking | text => cases head
          | inputJson json =>
              have same : (fun v : View => v.add (.inputJson json)) = id :=
                funext fun v => v.add_inputJson json
              simp [assembleStep, toolViews, same]

/-- The first delta of every tool call. -/
def openings (seen : List Value) : List ToolDelta → List ToolDelta
  | [] => []
  | tc :: rest =>
      if tc.index ∈ seen then openings seen rest else tc :: openings (tc.index :: seen) rest

/-- The deltas deliver the calls: the first delta of each call has its id and name. -/
def Delivers (deltas : List ToolDelta) (calls : List ToolCall) : Prop :=
  (openings [] deltas).map (fun tc => (tc.id, tc.name)) =
    calls.map fun call => (some call.id, some call.name)

/-- The calls seen so far are known and started. -/
structure Running (st : BlockState) (seen : List Value) : Prop where
  shape : Shape st
  known : ∀ i, (st.toolStates.lookup i).isSome ↔ i ∈ seen
  started : ∀ i ts, st.toolStates.lookup i = some ts → ts.started = true

theorem emit_started_events {ts : ToolState} (tc : ToolDelta) (started : ts.started = true) :
    (ts.emit tc).1 = ts ∧ (∀ e ∈ (ts.emit tc).2, IsToolEvent e) ∧
      toolViews (ts.emit tc).2 = [] := by
  unfold ToolState.emit
  rw [started]
  cases tc.arguments with
  | none => simp [toolViews]
  | some arguments => simp [toolViews, IsToolEvent]

theorem emit_complete_events {ts : ToolState} (tc : ToolDelta) {id name : Value}
    (silent : ts.started = false) (hid : ts.id = some id) (hname : ts.name = some name) :
    (ts.emit tc).1.started = true ∧ (∀ e ∈ (ts.emit tc).2, IsToolEvent e) ∧
      toolViews (ts.emit tc).2 = [.toolUse (some id) (some name)] := by
  simp only [ToolState.emit, silent, hid, hname]
  unfold unlessEmpty
  split
  · simp [toolViews, IsToolEvent, ContentBlock.view]
  · simp [toolViews, IsToolEvent, ContentBlock.view]

theorem toolViews_append (xs ys : List BlockEvent) :
    toolViews (xs ++ ys) = toolViews xs ++ toolViews ys := by
  simp [toolViews]

theorem Opening.events {st st' : BlockState} {tc : ToolDelta} {events : List BlockEvent}
    {ts : ToolState} (h : Opening st tc st' events ts) :
    (∀ e ∈ events, IsToolEvent e) ∧ toolViews events = [] := by
  cases h with
  | known | idle => simp [toolViews]
  | closing => simp [toolViews, IsToolEvent]

/-- Writing a started entry keeps every known call running. -/
theorem Running.setTool {st st' : BlockState} {seen : List Value} (running : Running st seen)
    (shape : Shape st') (tools : st'.toolStates = st.toolStates) (idx : Value) {ts : ToolState}
    (started : ts.started = true) {seen' : List Value}
    (same : ∀ i, i ∈ seen' ↔ i = idx ∨ i ∈ seen) : Running (st'.setTool idx ts) seen' := by
  refine ⟨shape_setTool shape idx ts, fun i => ?_, fun i t entry => ?_⟩
  · rw [same, ← running.known i]
    simp only [BlockState.setTool, lookup_setEntry, tools]
    split
    · rename_i here
      simp [here]
    · rename_i other
      simp [other]
  · simp only [BlockState.setTool, lookup_setEntry, tools] at entry
    split at entry
    · exact Option.some.inj entry ▸ started
    · exact running.started i t entry

theorem onTool_known {st : BlockState} {seen : List Value} (running : Running st seen)
    {tc : ToolDelta} (mem : tc.index ∈ seen) :
    Running (st.onTool tc).1 seen ∧ (∀ e ∈ (st.onTool tc).2, IsToolEvent e) ∧
      toolViews (st.onTool tc).2 = [] := by
  obtain ⟨st', events, ts, opening, same⟩ := onTool_eq running.shape tc
  have present := (running.known tc.index).mpr mem
  cases opening with
  | idle unknown | closing _ unknown => simp [unknown] at present
  | known _ entry =>
      have started : (ts.update tc).started = true := running.started _ ts entry
      obtain ⟨kept, tools, views⟩ := emit_started_events tc started
      rw [same, kept]
      refine ⟨running.setTool running.shape rfl _ started fun i => ?_, tools, views⟩
      constructor
      · exact .inr
      · rintro (rfl | old)
        · exact mem
        · exact old

theorem onTool_opening {st : BlockState} {seen : List Value} (running : Running st seen)
    {tc : ToolDelta} (new : tc.index ∉ seen) {id name : Value} (hid : tc.id = some id)
    (hname : tc.name = some name) :
    Running (st.onTool tc).1 (tc.index :: seen) ∧ (∀ e ∈ (st.onTool tc).2, IsToolEvent e) ∧
      toolViews (st.onTool tc).2 = [.toolUse tc.id tc.name] := by
  obtain ⟨st', events, ts, opening, same⟩ := onTool_eq running.shape tc
  have absent : st.toolStates.lookup tc.index = none := by
    rw [← Option.not_isSome_iff_eq_none, running.known]
    exact new
  obtain ⟨closing, none⟩ := opening.events
  have silent : (ts.update tc).started = false := by
    cases opening with
    | known _ entry => simp [absent] at entry
    | idle | closing => rfl
  have newId : (ts.update tc).id = some id := by simp [ToolState.update, hid]
  have newName : (ts.update tc).name = some name := by simp [ToolState.update, hname]
  obtain ⟨started, tools, views⟩ := emit_complete_events tc silent newId newName
  rw [same, hid, hname]
  refine ⟨running.setTool (opening.shape running.shape) opening.tools _ started fun i =>
    List.mem_cons, ?_, ?_⟩
  · intro e mem
    cases List.mem_append.mp mem with
    | inl before => exact closing e before
    | inr after => exact tools e after
  · simp only [toolViews_append, none, views, List.nil_append]

/-- Tool deltas start exactly the calls they deliver, in order. -/
theorem tool_run {st : BlockState} {seen : List Value} (running : Running st seen)
    (deltas : List ToolDelta)
    (complete : ∀ tc ∈ openings seen deltas, tc.id.isSome ∧ tc.name.isSome) :
    (∀ e ∈ (runFrom BlockState.move st (deltas.map .tool)).2, IsToolEvent e) ∧
      toolViews (runFrom BlockState.move st (deltas.map .tool)).2 =
        (openings seen deltas).map (fun tc => .toolUse tc.id tc.name) ∧
      Shape (runFrom BlockState.move st (deltas.map .tool)).1 := by
  induction deltas generalizing st seen with
  | nil => exact ⟨by simp, rfl, running.shape⟩
  | cons tc deltas ih =>
      simp only [List.map_cons, runFrom_cons, BlockState.move, toolViews_append,
        List.forall_mem_append]
      simp only [openings] at complete ⊢
      split at complete
      · rename_i mem
        rw [if_pos mem]
        obtain ⟨running', tools, views⟩ := onTool_known running mem
        obtain ⟨rest, restViews, shape⟩ := ih running' complete
        exact ⟨⟨tools, rest⟩, by rw [views, restViews]; rfl, shape⟩
      · rename_i new
        rw [if_neg new]
        obtain ⟨id, hid⟩ := Option.isSome_iff_exists.mp (complete tc List.mem_cons_self).1
        obtain ⟨name, hname⟩ := Option.isSome_iff_exists.mp (complete tc List.mem_cons_self).2
        obtain ⟨running', tools, views⟩ := onTool_opening running new hid hname
        obtain ⟨rest, restViews, shape⟩ :=
          ih running' fun tc' mem => complete tc' (List.mem_cons_of_mem tc mem)
        exact ⟨⟨tools, rest⟩, by rw [views, restViews]; rfl, shape⟩

theorem Delivers.complete {deltas : List ToolDelta} {calls : List ToolCall}
    (h : Delivers deltas calls) :
    ∀ tc ∈ openings [] deltas, tc.id.isSome ∧ tc.name.isSome := by
  intro tc mem
  have inCalls : (tc.id, tc.name) ∈
      calls.map fun call => (some call.id, some call.name) :=
    h ▸ List.mem_map_of_mem (f := fun tc : ToolDelta => (tc.id, tc.name)) mem
  obtain ⟨call, -, same⟩ := List.mem_map.mp inCalls
  simp only [Prod.mk.injEq] at same
  simp [← same.1, ← same.2]

def callViews (calls : List ToolCall) : List View :=
  calls.map fun call => .toolUse (some call.id) (some call.name)

theorem Delivers.views {deltas : List ToolDelta} {calls : List ToolCall}
    (h : Delivers deltas calls) :
    (openings [] deltas).map (fun tc => View.toolUse tc.id tc.name) = callViews calls := by
  have mapped := congrArg (List.map fun p : Option Value × Option Value => View.toolUse p.1 p.2) h
  simpa [callViews, List.map_map, Function.comp_def] using mapped

theorem finish_toolEvents {st : BlockState} (shape : Shape st) (order : List (Value × ToolState)) :
    (∀ e ∈ st.finish order, IsToolEvent e) ∧ toolViews (st.finish order) = [] := by
  have stops (entries : List (Value × ToolState)) :
      toolViews (entries.map fun entry => .stop entry.2.blockIndex) = [] := by
    simp [toolViews]
  unfold BlockState.finish
  simp only [shape.decided, Bool.false_eq_true, false_and, ↓reduceIte, toolViews_append, stops,
    List.append_nil, List.forall_mem_append]
  refine ⟨⟨?_, ?_⟩, ?_⟩
  · split
    · simp [IsToolEvent]
    · split <;> simp [IsToolEvent]
  · intro e mem
    obtain ⟨entry, -, rfl⟩ := List.mem_map.mp mem
    trivial
  · split
    · rfl
    · split <;> rfl

/-- What a client assembles: the content, then the calls. -/
theorem assemble_run {texts : List Bytes} {deltas : List ToolDelta} {calls : List ToolCall}
    (delivers : Delivers deltas calls) {st : BlockState} {events : List BlockEvent}
    (run : runFrom BlockState.move newBlockState (texts.map .content ++ deltas.map .tool) =
      (st, events)) (order : List (Value × ToolState)) :
    assembleFrom [] (events ++ st.finish order) = streamViews texts ++ callViews calls := by
  rw [runFrom_append] at run
  obtain ⟨shape, none⟩ := content_state texts
  have running : Running (runFrom BlockState.move newBlockState (texts.map .content)).1 [] :=
    ⟨shape, by simp [none], by simp [none]⟩
  obtain ⟨tools, views, shape'⟩ := tool_run running deltas delivers.complete
  simp only [Prod.mk.injEq] at run
  obtain ⟨rfl, rfl⟩ := run
  obtain ⟨closing, closed⟩ := finish_toolEvents shape' order
  rw [assembleFrom_append, assembleFrom_append, content_run, assembleFrom_toolEvents _ tools,
    assembleFrom_toolEvents _ closing, closed, views, delivers.views, List.append_nil]

/-! ## Where the content is cut -/

/-- The cut respects the think tags: when the whole content has a think prefix,
    the opening tag lies in the first delta and the closing tag in a later one;
    when it opens one without closing it, the opening tag is cut. -/
def CutWell (texts : List Bytes) : Prop :=
  match matchThink texts.flatten with
  | some (thinking, remaining) =>
      ∃ first rest s, texts = first :: rest ∧ 7 ≤ first.length ∧
        SplitsAt (lit "</think>") rest s remaining ∧ first.drop 7 ++ s = thinking
  | none => startsWith (lit "<think>") texts.flatten →
      ∀ first, texts.head? = some first → first.length < 7

theorem startsWith_iff_take (s : Bytes) :
    startsWith (lit "<think>") s = true ↔ s.take 7 = lit "<think>" := by
  have length : (lit "<think>").length = 7 := by decide
  rw [startsWith, List.isPrefixOf_iff_prefix, List.prefix_iff_eq_take, length, eq_comm]

theorem take_append_left {first : Bytes} (rest : Bytes) (long : 7 ≤ first.length) :
    (first ++ rest).take 7 = first.take 7 := List.take_append_of_le_length long

/-- The views of the whole content. -/
def wholeViews (content : Bytes) : List View :=
  match matchThink content with
  | some (thinking, remaining) => [.thinking thinking, .text remaining]
  | none => [.text content]

@[simp] theorem shown_text (s : Bytes) : shown [.text s] = if s = [] then [] else [.text s] := by
  by_cases empty : s = [] <;> simp [shown, empty]

@[simp] theorem shown_thinking (s : Bytes) (blocks : List View) :
    shown (.thinking s :: blocks) = .thinking s :: shown blocks := by
  simp [shown]

theorem shown_text_inj {a b : Bytes} : shown [.text a] = shown [.text b] ↔ a = b := by
  constructor
  · intro same
    simp only [shown_text] at same
    split at same <;> split at same <;> simp_all
  · rintro rfl
    rfl

theorem shown_thinking_ne_text (s t : Bytes) (blocks : List View) :
    shown (.thinking s :: blocks) ≠ shown [.text t] := by
  rw [shown_thinking, shown_text]
  split <;> simp

theorem matchThink_startsWith {text : Bytes} {parts : Bytes × Bytes}
    (h : matchThink text = some parts) : startsWith (lit "<think>") text = true := by
  unfold matchThink at h
  split at h
  · assumption
  · cases h

/-- The first delta does not begin with the opening tag. -/
theorem views_agree_text {first : Bytes} (rest : List Bytes) (nonempty : first ≠ [])
    (other : first.take 7 ≠ lit "<think>") :
    shown (streamViews (first :: rest)) = shown (wholeViews (first :: rest).flatten) ↔
      CutWell (first :: rest) := by
  have short (starts : startsWith (lit "<think>") (first :: rest).flatten = true) :
      first.length < 7 := by
    by_contra long
    apply other
    rw [← take_append_left rest.flatten (Nat.le_of_not_lt long)]
    exact (startsWith_iff_take _).mp starts
  simp only [streamViews, other, ↓reduceIte, wholeViews, CutWell]
  cases matched : matchThink (first :: rest).flatten with
  | none =>
      simp only [List.flatten_cons, true_iff]
      intro starts first' head
      obtain rfl := Option.some.inj head
      exact short starts
  | some parts =>
      obtain ⟨thinking, remaining⟩ := parts
      have starts := matchThink_startsWith matched
      refine iff_of_false ?_ ?_
      · simp [nonempty]
      · rintro ⟨first', rest', s, same, long, -⟩
        obtain ⟨rfl, -⟩ := List.cons.inj same
        exact absurd (short starts) (Nat.not_lt.mpr long)

/-- The first delta begins with the opening tag. -/
theorem views_agree_thinking {first : Bytes} (rest : List Bytes)
    (starts : first.take 7 = lit "<think>") :
    shown (streamViews (first :: rest)) = shown (wholeViews (first :: rest).flatten) ↔
      CutWell (first :: rest) := by
  have long := tag_length starts
  have startsWhole : startsWith (lit "<think>") (first :: rest).flatten = true := by
    rw [startsWith_iff_take, List.flatten_cons, take_append_left _ long, starts]
  have body : (first :: rest).flatten.drop 7 = first.drop 7 ++ rest.flatten := by
    rw [List.flatten_cons, List.drop_append_of_le_length long]
  simp only [streamViews, starts, ↓reduceIte, wholeViews, CutWell, matchThink, startsWhole, body]
  cases found : cut (lit "</think>") (first.drop 7 ++ rest.flatten) with
  | none =>
      refine iff_of_false ?_ ?_
      · cases cutPieces (lit "</think>") rest <;> exact shown_thinking_ne_text _ _ _
      · intro short
        exact absurd (short trivial first rfl) (Nat.not_lt.mpr long)
  | some parts =>
      obtain ⟨thinking, remaining⟩ := parts
      have whole := cut_append _ found
      trans (cutPieces (lit "</think>") rest).map (fun p => (first.drop 7 ++ p.1, p.2)) =
        some (thinking, remaining)
      · cases pieces : cutPieces (lit "</think>") rest with
        | none =>
            refine iff_of_false ?_ (by simp)
            intro same
            simp only [shown_thinking, List.cons.injEq, View.thinking.injEq] at same
            have tag : (lit "</think>").length = 8 := by decide
            have length := congrArg List.length (whole.symm.trans same.1)
            simp only [List.length_append, tag] at length
            omega
        | some p =>
            obtain ⟨before, after⟩ := p
            simp only [shown_thinking, List.cons.injEq, View.thinking.injEq, shown_text_inj,
              Option.map_some, Option.some.injEq, Prod.mk.injEq]
      · rw [cutPieces_eq_cut_iff found]
        constructor
        · rintro ⟨s, splits, same⟩
          exact ⟨first, rest, s, rfl, long, splits, same⟩
        · rintro ⟨first', rest', s, same, -, splits, eq⟩
          obtain ⟨rfl, rfl⟩ := List.cons.inj same
          exact ⟨s, splits, eq⟩

theorem views_agree_iff (texts : List Bytes) (nonempty : ∀ s ∈ texts, s ≠ []) :
    shown (streamViews texts) = shown (wholeViews texts.flatten) ↔ CutWell texts := by
  cases texts with
  | nil => simp [streamViews, wholeViews, CutWell, matchThink, startsWith, lit, shown]
  | cons first rest =>
      by_cases starts : first.take 7 = lit "<think>"
      · exact views_agree_thinking rest starts
      · exact views_agree_text rest (nonempty first List.mem_cons_self) starts

/-! ## The whole message -/

theorem shown_append (xs ys : List View) : shown (xs ++ ys) = shown xs ++ shown ys := by
  simp [shown]

theorem shown_callViews (calls : List ToolCall) : shown (callViews calls) = callViews calls := by
  rw [shown, List.filter_eq_self]
  intro v mem
  obtain ⟨call, -, rfl⟩ := List.mem_map.mp mem
  rfl

theorem shown_messageBlocks (rt : Runtime) (content : Bytes) (calls : List ToolCall) :
    shown ((messageBlocks rt content calls).map ResponseBlock.view) =
      shown (wholeViews content) ++ callViews calls := by
  have calls' : (calls.map fun call => ResponseBlock.toolUse (some call.id) (some call.name)
      ((rt.decodeTruthy call.arguments).getD (.obj []))).map ResponseBlock.view =
      callViews calls := by
    simp [callViews, Function.comp_def, ResponseBlock.view]
  have content' : shown ((thinkAndText content).map ResponseBlock.view) =
      shown (wholeViews content) := by
    unfold thinkAndText wholeViews unlessEmpty
    cases matchThink content with
    | none =>
        simp only
        split <;> simp_all [ResponseBlock.view, shown]
    | some parts =>
        obtain ⟨thinking, remaining⟩ := parts
        simp only
        split <;> simp_all [ResponseBlock.view, shown]
  rw [← content', ← shown_callViews calls, ← shown_append, ← calls', ← List.map_append]
  unfold messageBlocks
  simp only
  split
  · rename_i empty
    rw [empty]
    rfl
  · rfl

theorem heading_blocks {started : Bool} {events : List Event} (h : Heading IsMessageStart started events) :
    events.filterMap Event.block? = [] := by
  unfold Heading at h
  split at h
  · simp [h]
  · obtain ⟨event, ⟨id, model, tokens, rfl⟩, rfl⟩ := h
    rfl

/-- A client assembles the same blocks from the stream as the whole message has,
    apart from empty text blocks, exactly when the content is cut well. -/
theorem stream_agrees_iff (rt : Runtime) (now : Rat) (model : Option Value)
    {lines : List Bytes} (chunks : ∀ line ∈ lines, IsChunkLine rt line)
    (texts : List Bytes) (deltas : List ToolDelta) (calls : List ToolCall)
    (content : moves rt lines = texts.map .content ++ deltas.map .tool)
    (delivers : Delivers deltas calls) {openaiResp : Bytes} {resp : Value}
    (decoded : rt.decode openaiResp = some resp)
    (whole : IsResponse resp texts.flatten calls) :
    ∃ st events r, streamChunks rt now (newStreamState model) lines = .ok (st, events) ∧
      responseFromOpenai rt now openaiResp model = .ok (some r) ∧
      ∀ order, (shown (assemble (events ++ streamEnd st order)) =
          shown (r.content.map ResponseBlock.view) ↔ CutWell texts) := by
  obtain ⟨st, heading, handled, blocks, head⟩ :=
    streamChunks_ok rt now (newStreamState model) chunks
  obtain ⟨r, translated, blocksOfMessage⟩ := responseFromOpenai_ok rt now model decoded whole
  refine ⟨st, _, r, handled, translated, fun order => ?_⟩
  have same : (newStreamState model).toBlockState = newBlockState := rfl
  rw [same, content] at blocks
  have nonempty : ∀ s ∈ texts, s ≠ [] := fun s mem =>
    moves_content_nonempty rt lines s (by rw [content]; simp [mem])
  have quiet : heading.filterMap Event.block? = [] := heading_blocks head
  have assembled : assemble (heading ++ (runFrom BlockState.move
      (newStreamState model).toBlockState (moves rt lines)).2.map .block ++ streamEnd st order) =
      streamViews texts ++ callViews calls := by
    have closing : [Event.messageDelta st.stopReason st.inputTokens st.outputTokens,
        .messageStop].filterMap Event.block? = [] := rfl
    rw [← assemble_run delivers (Prod.ext blocks.symm rfl) order, assemble, same, content]
    simp [quiet, streamEnd, closing, List.filterMap_map, Function.comp_def, Event.block?]
  rw [assembled, shown_append, shown_callViews, blocksOfMessage, shown_messageBlocks,
    List.append_left_inj]
  exact views_agree_iff texts nonempty

/-- The response with the content of a stream of one content delta. -/
def messageJson (content : String) : Bytes :=
  lit "\x7b\"choices\":[\x7b\"message\":\x7b\"content\":\"" ++ lit content ++ lit "\"\x7d\x7d]\x7d"

def messageValue (content : String) : Value :=
  .obj [(lit "choices", .arr [.obj [(lit "message", .obj [(lit "content", .str (lit content))])]])]

def answerRuntime (content : String) : Runtime :=
  .ofDocuments [(contentJson content, contentChunk content),
    (messageJson content, messageValue content)]

theorem messageValue_isResponse (content : String) :
    IsResponse (messageValue content) (lit content) [] :=
  ⟨_, _, _, _, rfl, fun id h => (by cases h), rfl, rfl, rfl, .inr ⟨rfl, rfl⟩⟩

theorem hi_stream_agrees_iff :
    ∃ st events r,
      streamChunks (answerRuntime "hi") 0 (newStreamState none) [contentLine "hi"] =
        .ok (st, events) ∧
      responseFromOpenai (answerRuntime "hi") 0 (messageJson "hi") none = .ok (some r) ∧
      ∀ order, (shown (assemble (events ++ streamEnd st order)) =
          shown (r.content.map ResponseBlock.view) ↔ CutWell [lit "hi"]) := by
  have chunks : ∀ line ∈ [contentLine "hi"], IsChunkLine (answerRuntime "hi") line := by
    intro line mem v decoded
    obtain rfl := List.mem_singleton.mp mem
    obtain rfl : contentChunk "hi" = v := Option.some.inj decoded
    rfl
  exact stream_agrees_iff (answerRuntime "hi") 0 none chunks [lit "hi"] [] [] rfl rfl rfl
    (messageValue_isResponse "hi")

/-- With both tags in one delta the closing tag and the answer are shown as thinking. -/
theorem tags_in_one_delta_disagree :
    ¬ ∀ (rt : Runtime) (now : Rat) (model : Option Value) (lines : List Bytes)
      (texts : List Bytes) (deltas : List ToolDelta) (calls : List ToolCall)
      (openaiResp : Bytes) (resp : Value),
      (∀ line ∈ lines, IsChunkLine rt line) →
      moves rt lines = texts.map .content ++ deltas.map .tool → Delivers deltas calls →
      rt.decode openaiResp = some resp → IsResponse resp texts.flatten calls →
      ∀ st events r, streamChunks rt now (newStreamState model) lines = .ok (st, events) →
        responseFromOpenai rt now openaiResp model = .ok (some r) →
        ∀ order, order.Perm st.toolStates →
          shown (assemble (events ++ streamEnd st order)) =
            shown (r.content.map ResponseBlock.view) := by
  intro always
  have chunks : ∀ line ∈ [contentLine "<think>a</think>b"],
      IsChunkLine (answerRuntime "<think>a</think>b") line := by
    intro line mem v decoded
    obtain rfl := List.mem_singleton.mp mem
    obtain rfl : contentChunk "<think>a</think>b" = v := Option.some.inj decoded
    rfl
  have same := always (answerRuntime "<think>a</think>b") 0 none _ [lit "<think>a</think>b"] [] []
    (messageJson "<think>a</think>b") _ chunks rfl rfl rfl
    (messageValue_isResponse "<think>a</think>b") _ _ _ rfl rfl _ (List.Perm.refl _)
  exact absurd same (by decide)

end E2eeProxy.Claude
