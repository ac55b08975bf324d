import E2eeProxy.ClaudeAgreement

/-! # Nothing is lost in a Claude stream

Two ledgers are kept while the moves are worked off: the content against the
thinking and text deltas, and for every tool call its arguments against the
partial JSON that was sent for it. What is not sent yet is in the tool state.
-/

namespace E2eeProxy.Claude

open E2eeProxy.Lua E2eeProxy.OpenAi E2eeProxy.Lib

/-! ## Content -/

/-- All content deltas together. -/
def contentText (ms : List Move) : Bytes :=
  ms.flatMap fun
    | .content s => s
    | .tool _ => []

def said : BlockEvent → Option BlockDelta
  | .delta _ (.thinking s) => some (.thinking s)
  | .delta _ (.text s) => some (.text s)
  | .delta _ (.inputJson _) | .start _ _ | .stop _ => none

/-- The thinking and text deltas, in order. -/
def texts (events : List BlockEvent) : List BlockDelta := events.filterMap said

/-- Thinking and text are what is left of the content without the leading
    `<think>` and one later `</think>`. -/
inductive TagsOff : (content thinking text : Bytes) → Prop where
  | plain (text : Bytes) : TagsOff text [] text
  | opened (thinking text : Bytes) : TagsOff (lit "<think>" ++ thinking ++ text) thinking text
  | closed (thinking text : Bytes) :
      TagsOff (lit "<think>" ++ thinking ++ lit "</think>" ++ text) thinking text

theorem TagsOff.write {content thinking text : Bytes} (off : TagsOff content thinking text)
    (s : Bytes) : TagsOff (content ++ s) thinking (text ++ s) := by
  cases off with
  | plain => exact .plain _
  | opened =>
      rw [List.append_assoc]
      exact .opened _ _
  | closed =>
      rw [List.append_assoc]
      exact .closed _ _

/-- The ledger of the content. While a thinking block is open there is no text yet,
    and the closing tag has not come. -/
structure Spoken (ms : List Move) (st : BlockState) (thinking text : List Bytes) : Prop where
  off : TagsOff (contentText ms) thinking.flatten text.flatten
  open' : st.currentType = some .thinking →
    text = [] ∧ contentText ms = lit "<think>" ++ thinking.flatten
  fresh : st.firstContent = true → contentText ms = [] ∧ thinking = [] ∧ text = []

theorem texts_append (xs ys : List BlockEvent) : texts (xs ++ ys) = texts xs ++ texts ys :=
  List.filterMap_append

theorem contentText_content (ms : List Move) (s : Bytes) :
    contentText (ms ++ [.content s]) = contentText ms ++ s := by
  simp [contentText]

theorem contentText_tool (ms : List Move) (tc : ToolDelta) :
    contentText (ms ++ [.tool tc]) = contentText ms := by
  simp [contentText]

theorem unlessEmpty_flatten (s : Bytes) : (unlessEmpty id s).flatten = s := by
  unfold unlessEmpty
  split <;> simp_all

theorem texts_thinking (i : Nat) (s : Bytes) :
    texts (unlessEmpty (fun s => .delta i (.thinking s)) s) = (unlessEmpty id s).map .thinking := by
  unfold unlessEmpty
  split <;> rfl

theorem texts_text (i : Nat) (s : Bytes) :
    texts (unlessEmpty (fun s => .delta i (.text s)) s) = (unlessEmpty id s).map .text := by
  unfold unlessEmpty
  split <;> rfl

/-- What a content delta adds to the two lists of deltas. -/
def Utters (ms : List Move) (thinking text : List Bytes) (s : Bytes)
    (r : BlockState × List BlockEvent) : Prop :=
  ∃ moreThinking moreText, (moreThinking ≠ [] → text = []) ∧
    texts r.2 = moreThinking.map .thinking ++ moreText.map .text ∧
    Spoken (ms ++ [.content s]) r.1 (thinking ++ moreThinking) (text ++ moreText)

theorem detect_utters {ms : List Move} {st : BlockState}
    (first : st.firstContent = true) (silent : contentText ms = []) (s : Bytes) :
    Utters ms [] [] s (st.beginContent.detect s) := by
  have all : contentText (ms ++ [.content s]) = s := by
    rw [contentText_content, silent, List.nil_append]
  unfold BlockState.detect BlockState.beginContent
  simp only [first, ↓reduceIte, List.nil_append]
  split
  · rename_i starts
    have tagged : s = lit "<think>" ++ s.drop 7 := by
      rw [← starts]
      exact (List.take_append_drop 7 s).symm
    rw [if_pos (tag_length starts)]
    refine ⟨unlessEmpty id (s.drop 7), [], fun _ => rfl, ?_, ?_⟩
    · simp only [List.map_nil, List.append_nil, ← texts_thinking st.blockIndex]
      rfl
    · constructor
      · rw [all, List.nil_append, unlessEmpty_flatten, List.append_nil, List.flatten_nil]
        have off := TagsOff.opened (s.drop 7) []
        rwa [List.append_nil, ← tagged] at off
      · intro _
        rw [all, List.nil_append, List.nil_append, unlessEmpty_flatten]
        exact ⟨rfl, tagged⟩
      · intro later
        cases later
  · refine ⟨[], [s], by simp, rfl, ?_⟩
    constructor
    · rw [all]
      simpa using TagsOff.plain s
    · intro thinking
      cases thinking
    · intro later
      cases later

theorem think_utters {ms : List Move} {st : BlockState} {thinking text : List Bytes}
    (spoken : Spoken ms st thinking text) (later : st.firstContent = false)
    (open' : st.currentType = some .thinking) (s : Bytes) : Utters ms thinking text s (st.think s) := by
  obtain ⟨rfl, all⟩ := spoken.open' open'
  have content := contentText_content ms s
  rw [all] at content
  unfold BlockState.think
  cases found : cut (lit "</think>") s with
  | none =>
      refine ⟨[s], [], fun _ => rfl, rfl, ?_⟩
      have grown : contentText (ms ++ [.content s]) = lit "<think>" ++ (thinking ++ [s]).flatten := by
        rw [content]
        simp
      constructor
      · rw [grown]
        have off := TagsOff.opened (thinking ++ [s]).flatten []
        rwa [List.append_nil] at off
      · exact fun _ => ⟨rfl, grown⟩
      · intro first
        simp [later] at first
  | some parts =>
      obtain ⟨before, after⟩ := parts
      refine ⟨unlessEmpty id before, unlessEmpty id after, fun _ => rfl, ?_, ?_⟩
      · simp only [texts_append, texts_thinking, texts_text]
        simp [texts, said]
      · constructor
        · rw [content, cut_append _ found, List.flatten_append, unlessEmpty_flatten,
            List.nil_append, unlessEmpty_flatten]
          have off := TagsOff.closed (thinking.flatten ++ before) after
          simpa only [List.append_assoc] using off
        · intro thinking
          cases thinking
        · intro first
          simp [later] at first

theorem write_utters {ms : List Move} {st : BlockState} {thinking text : List Bytes}
    (spoken : Spoken ms st thinking text) (later : st.firstContent = false)
    (closed : st.currentType ≠ some .thinking) (s : Bytes) :
    Utters ms thinking text s (st.write s) := by
  have off := spoken.off.write s
  rw [← contentText_content] at off
  have grown : TagsOff (contentText (ms ++ [.content s])) (thinking ++ []).flatten
      (text ++ [s]).flatten := by
    simpa using off
  unfold BlockState.write
  split
  · refine ⟨[], [s], by simp, rfl, grown, fun thinking => absurd thinking closed, fun first => ?_⟩
    simp [later] at first
  · refine ⟨[], [s], by simp, rfl, grown, ?_, fun first => ?_⟩
    · intro thinking
      cases thinking
    · simp [later] at first

theorem onContent_utters {ms : List Move} {st : BlockState} {thinking text : List Bytes}
    (shape : Shape st) (spoken : Spoken ms st thinking text) (s : Bytes) :
    Utters ms thinking text s (st.onContent s) := by
  unfold BlockState.onContent
  cases first : st.firstContent with
  | true =>
      obtain ⟨silent, rfl, rfl⟩ := spoken.fresh first
      have detecting : st.beginContent.thinkDetecting = true := by
        simp [BlockState.beginContent, first]
      simp only [detecting, ↓reduceIte]
      exact detect_utters first silent s
  | false =>
      simp only [BlockState.beginContent, first, Bool.false_eq_true, ↓reduceIte, shape.decided]
      split
      · rename_i open'
        exact think_utters spoken first open'.2 s
      · rename_i notOpen
        refine write_utters spoken first (fun current => notOpen ?_) s
        exact ⟨shape.thinking current, current⟩

/-- The events of a tool delta add no thinking and no text. -/
theorem texts_toolEvents {events : List BlockEvent} (tools : ∀ e ∈ events, IsToolEvent e) :
    texts events = [] := by
  refine List.filterMap_eq_nil_iff.mpr fun e mem => ?_
  have tool := tools e mem
  cases e with
  | start | stop => rfl
  | delta i delta =>
      cases delta with
      | thinking | text => cases tool
      | inputJson => rfl

theorem emit_toolEvents (ts : ToolState) (tc : ToolDelta) : ∀ e ∈ (ts.emit tc).2, IsToolEvent e := by
  cases started : ts.started with
  | true => exact (emit_started_events tc started).2.1
  | false =>
      cases hid : ts.id with
      | none => simp [ToolState.emit, started, hid]
      | some id =>
          cases hname : ts.name with
          | none => simp [ToolState.emit, started, hid, hname]
          | some name => exact (emit_complete_events tc started hid hname).2.1

theorem onTool_toolEvents {st : BlockState} (shape : Shape st) (tc : ToolDelta) :
    ∀ e ∈ (st.onTool tc).2, IsToolEvent e := by
  obtain ⟨st', events, ts, opening, same⟩ := onTool_eq shape tc
  rw [same]
  intro e mem
  cases List.mem_append.mp mem with
  | inl before => exact opening.events.1 e before
  | inr after => exact emit_toolEvents _ tc e after

/-- A tool delta may close the open block and opens none. -/
theorem onTool_flags (st : BlockState) (tc : ToolDelta) :
    (st.onTool tc).1.firstContent = st.firstContent ∧
      ((st.onTool tc).1.currentType = some .thinking → st.currentType = some .thinking) := by
  have closing : st.closeForTool.1.firstContent = st.firstContent ∧
      (st.closeForTool.1.currentType = some .thinking → st.currentType = some .thinking) := by
    unfold BlockState.closeForTool
    split
    · exact ⟨rfl, nofun⟩
    · split
      · exact ⟨rfl, nofun⟩
      · exact ⟨rfl, id⟩
  unfold BlockState.onTool
  cases st.toolStates.lookup tc.index with
  | none => exact closing
  | some ts => exact ⟨rfl, id⟩

theorem Spoken.tool {ms : List Move} {st : BlockState} {thinking text : List Bytes}
    (spoken : Spoken ms st thinking text) (tc : ToolDelta) :
    Spoken (ms ++ [.tool tc]) (st.onTool tc).1 thinking text := by
  obtain ⟨first, current⟩ := onTool_flags st tc
  constructor
  · rw [contentText_tool]
    exact spoken.off
  · rw [contentText_tool]
    exact fun thinking => spoken.open' (current thinking)
  · rw [contentText_tool, first]
    exact spoken.fresh

/-- The ledger of the content, after any moves. -/
theorem content_ledger (ms : List Move) :
    ∃ thinking text, Spoken ms (runFrom BlockState.move newBlockState ms).1 thinking text ∧
      texts (runFrom BlockState.move newBlockState ms).2 =
        thinking.map .thinking ++ text.map .text := by
  have ledger : Shape (runFrom BlockState.move newBlockState ms).1 ∧
      ∃ thinking text, Spoken ms (runFrom BlockState.move newBlockState ms).1 thinking text ∧
        texts (runFrom BlockState.move newBlockState ms).2 =
          thinking.map .thinking ++ text.map .text := by
    refine runFrom_induction BlockState.move
      (P := fun ms st events => Shape st ∧ ∃ thinking text, Spoken ms st thinking text ∧
        texts events = thinking.map .thinking ++ text.map .text) ?start ?next ms
    case start =>
      exact ⟨shape_new, [], [], ⟨.plain [], nofun, fun _ => ⟨rfl, rfl, rfl⟩⟩, rfl⟩
    case next =>
      rintro ms st events move ⟨shape, thinking, text, spoken, sent⟩
      refine ⟨move_shape shape move, ?_⟩
      cases move with
      | content s =>
          obtain ⟨moreThinking, moreText, order, uttered, spoken'⟩ := onContent_utters shape spoken s
          refine ⟨_, _, spoken', ?_⟩
          rw [texts_append, sent, BlockState.move, uttered, List.map_append, List.map_append]
          by_cases none : moreThinking = []
          · simp [none]
          · simp [order none]
      | tool tc =>
          refine ⟨thinking, text, spoken.tool tc, ?_⟩
          rw [texts_append, sent, BlockState.move, texts_toolEvents (onTool_toolEvents shape tc),
            List.append_nil]
  exact ledger.2

/-! ## Arguments -/

/-- The text of a `partial_json`. -/
def jsonText (rt : Runtime) (json : Value) : Bytes := (rt.concatArg (some json)).toOption.getD []

/-- The arguments of a tool call, in all of its deltas together. -/
def received (ms : List Move) (idx : Value) : Bytes :=
  ms.flatMap fun
    | .tool tc => if tc.index = idx then tc.text else []
    | .content _ => []

/-- The events of a stream, each with the index of the tool call it is sent for. -/
def markedEvents (ms : List Move) : List (Option Value × BlockEvent) :=
  (runFrom (marked BlockState.move Move.index?) newBlockState ms).2

def BlockEvent.json? : BlockEvent → Option Value
  | .delta _ (.inputJson json) => some json
  | .delta _ (.thinking _) | .delta _ (.text _) | .start _ _ | .stop _ => none

/-- The partial JSON that was sent for a tool call, all together. -/
def sentFor (rt : Runtime) (idx : Value) (events : List (Option Value × BlockEvent)) : Bytes :=
  (events.filterMap fun (mark, e) => if mark = some idx then e.json? else none).flatMap
    (jsonText rt)

/-- The text of a delta is what `..` makes of its arguments. -/
def Consistent (rt : Runtime) (tc : ToolDelta) : Prop :=
  tc.text = (tc.arguments.map (jsonText rt)).getD []

theorem readToolDelta_consistent {rt : Runtime} {v : Value} {tc : ToolDelta}
    (read : readToolDelta rt v = .ok tc) : Consistent rt tc := by
  obtain ⟨idx, -, read⟩ := bind_ok read
  obtain ⟨id, -, read⟩ := bind_ok read
  obtain ⟨fn, -, read⟩ := bind_ok read
  obtain ⟨name, -, read⟩ := bind_ok read
  obtain ⟨arguments, -, read⟩ := bind_ok read
  cases given : truthy arguments with
  | false =>
      simp only [given, Bool.false_eq_true, if_false] at read
      cases read
      have absent : present arguments = none := by
        cases arguments with
        | none => rfl
        | some v => simp [present, given]
      show [] = ((present arguments).map (jsonText rt)).getD []
      rw [absent]
      rfl
  | true =>
      simp only [given, if_true] at read
      obtain ⟨text, htext, read⟩ := bind_ok read
      cases read
      cases arguments with
      | none => cases given
      | some v =>
          have there : present (some v) = some v := by simp [present, given]
          show text = ((present (some v)).map (jsonText rt)).getD []
          rw [there]
          simp [jsonText, htext, Except.toOption]

theorem moves_consistent {rt : Runtime} {lines : List Bytes} :
    ∀ tc, .tool tc ∈ moves rt lines → Consistent rt tc := by
  intro tc mem
  obtain ⟨item, read⟩ := moves_tool_read mem
  exact readToolDelta_consistent read

/-- All partial JSON of some events. -/
def jsons (rt : Runtime) (events : List BlockEvent) : Bytes :=
  (events.filterMap BlockEvent.json?).flatMap (jsonText rt)

theorem jsons_append (rt : Runtime) (xs ys : List BlockEvent) :
    jsons rt (xs ++ ys) = jsons rt xs ++ jsons rt ys := by
  simp [jsons]

theorem sentFor_concat (rt : Runtime) (idx : Value) (sent : List (Option Value × BlockEvent))
    (mark : Option Value) (events : List BlockEvent) :
    sentFor rt idx (sent ++ events.map fun e => (mark, e)) =
      sentFor rt idx sent ++ if mark = some idx then jsons rt events else [] := by
  unfold sentFor jsons
  rw [List.filterMap_append, List.flatMap_append, List.filterMap_map]
  split
  · rename_i here
    simp [here]
  · rename_i other
    simp [other]

theorem received_tool (ms : List Move) (tc : ToolDelta) (idx : Value) :
    received (ms ++ [.tool tc]) idx = received ms idx ++ if tc.index = idx then tc.text else [] := by
  simp [received]

theorem received_content (ms : List Move) (s : Bytes) (idx : Value) :
    received (ms ++ [.content s]) idx = received ms idx := by
  simp [received]

/-- What was received for a tool call was sent, or is pending in its entry. -/
def Paid (received sent : Bytes) : Option ToolState → Prop
  | none => received = [] ∧ sent = []
  | some ts => if ts.started then sent = received else sent = [] ∧ ts.pendingArgs = received

/-- Handling an entry pays what its delta adds. -/
theorem emit_paid {rt : Runtime} {tc : ToolDelta} (consistent : Consistent rt tc) (ts : ToolState)
    {got sent : Bytes} (paid : Paid got sent (some ts)) :
    Paid (got ++ tc.text) (sent ++ jsons rt ((ts.update tc).emit tc).2)
      (some ((ts.update tc).emit tc).1) := by
  have single (s : Bytes) (i : Nat) :
      jsons rt (unlessEmpty (fun s => .delta i (.inputJson (.str s))) s) = s := by
    unfold unlessEmpty
    split
    · rename_i empty
      simp [jsons, empty]
    · simp [jsons, BlockEvent.json?, jsonText, Runtime.concatArg, Except.toOption]
  cases started : ts.started with
  | true =>
      have sent' : sent = got := by simpa [Paid, started] using paid
      have same : (ts.update tc).started = true := started
      have json : jsons rt ((ts.update tc).emit tc).2 = tc.text := by
        rw [consistent]
        unfold ToolState.emit
        rw [same]
        cases tc.arguments with
        | none => rfl
        | some arguments => simp [jsons, BlockEvent.json?]
      have kept := (emit_started_events tc same).1
      rw [json, kept, sent']
      simp [Paid, same]
  | false =>
      obtain ⟨sent', pending⟩ : sent = [] ∧ ts.pendingArgs = got := by simpa [Paid, started] using paid
      have same : (ts.update tc).started = false := started
      have owed : (ts.update tc).pendingArgs = got ++ tc.text := by rw [← pending]; rfl
      cases hid : (ts.update tc).id with
      | none => simp [ToolState.emit, same, hid, Paid, sent', owed, jsons]
      | some id =>
          cases hname : (ts.update tc).name with
          | none => simp [ToolState.emit, same, hid, hname, Paid, sent', owed, jsons]
          | some name =>
              simp only [ToolState.emit, same, hid, hname, Paid, if_true, owed]
              have opened := single (got ++ tc.text) (ts.update tc).blockIndex
              rw [sent', List.nil_append]
              exact opened

/-- The index of the block an event of a tool call belongs to. -/
def toolBlock? : BlockEvent → Option Nat
  | .start i (.toolUse _ _) | .delta i (.inputJson _) => some i
  | .start _ .thinking | .start _ .text | .delta _ (.thinking _) | .delta _ (.text _) | .stop _ =>
      none

/-- The ledger of the tool calls: every entry is paid, and its events are those of
    its own block. -/
structure Account (rt : Runtime) (ms : List Move) (st : BlockState)
    (sent : List (Option Value × BlockEvent)) : Prop where
  paid : ∀ idx, Paid (received ms idx) (sentFor rt idx sent) (st.toolStates.lookup idx)
  placed : ∀ idx e i, (some idx, e) ∈ sent → toolBlock? e = some i →
    ∃ ts, st.toolStates.lookup idx = some ts ∧ ts.blockIndex = i

theorem account_new (rt : Runtime) : Account rt [] newBlockState [] :=
  ⟨fun _ => ⟨rfl, rfl⟩, nofun⟩

theorem emit_placed (ts : ToolState) (tc : ToolDelta) {e : BlockEvent} (mem : e ∈ (ts.emit tc).2)
    {i : Nat} (block : toolBlock? e = some i) : i = ts.blockIndex := by
  have delta {deltas : List BlockDelta} (mem : e ∈ deltas.map (.delta ts.blockIndex)) :
      i = ts.blockIndex := by
    obtain ⟨delta, -, rfl⟩ := List.mem_map.mp mem
    cases delta with
    | thinking | text => cases block
    | inputJson => exact (Option.some.inj block).symm
  rcases emit_cases ts tc with ⟨-, deltas, same⟩ | ⟨-, -, started, deltas, same⟩ | ⟨-, -, same⟩
  · rw [same] at mem
    exact delta mem
  · rw [same] at mem
    rcases List.mem_cons.mp mem with rfl | later
    · cases started with
      | thinking | text => cases block
      | toolUse => exact (Option.some.inj block).symm
    · exact delta later
  · rw [same] at mem
    cases mem

theorem Account.content {rt : Runtime} {ms : List Move} {st : BlockState}
    {sent : List (Option Value × BlockEvent)} (account : Account rt ms st sent) (shape : Shape st)
    (s : Bytes) :
    Account rt (ms ++ [.content s]) (st.onContent s).1
      (sent ++ (st.onContent s).2.map fun e => (none, e)) := by
  have tools := (onContent_result shape s).tools
  constructor
  · intro idx
    rw [tools, received_content, sentFor_concat]
    simpa using account.paid idx
  · intro idx e i mem block
    rw [tools]
    refine account.placed idx e i ?_ block
    simpa using mem

theorem Account.tool {rt : Runtime} {ms : List Move} {st : BlockState}
    {sent : List (Option Value × BlockEvent)} (account : Account rt ms st sent) (shape : Shape st)
    {tc : ToolDelta} (consistent : Consistent rt tc) :
    Account rt (ms ++ [.tool tc]) (st.onTool tc).1
      (sent ++ (st.onTool tc).2.map fun e => (some tc.index, e)) := by
  obtain ⟨st', closed, ts, opening, same⟩ := onTool_eq shape tc
  have entry : Paid (received ms tc.index) (sentFor rt tc.index sent) (some ts) := by
    have before := account.paid tc.index
    cases opening with
    | known _ found => rwa [found] at before
    | idle unknown | closing _ unknown =>
        rw [unknown] at before
        rw [before.1, before.2]
        simp [Paid, ToolState.create]
  have silent : jsons rt closed = [] := by
    cases opening <;> rfl
  have written (idx : Value) : (st.onTool tc).1.toolStates.lookup idx =
      if idx = tc.index then some ((ts.update tc).emit tc).1 else st.toolStates.lookup idx := by
    rw [same, BlockState.setTool, lookup_setEntry, opening.tools]
  have place : ∀ e ∈ closed, toolBlock? e = none := by
    cases opening with
    | known | idle =>
        intro e mem
        cases mem
    | closing =>
        intro e mem
        rw [List.mem_singleton.mp mem]
        rfl
  constructor
  · intro idx
    rw [written, received_tool, sentFor_concat, same, jsons_append, silent, List.nil_append]
    by_cases here : idx = tc.index
    · subst here
      simpa using emit_paid consistent ts entry
    · simpa [here, Ne.symm here] using account.paid idx
  · intro idx e i mem block
    rw [written]
    cases List.mem_append.mp mem with
    | inl earlier =>
        obtain ⟨ts', found, index⟩ := account.placed idx e i earlier block
        by_cases here : idx = tc.index
        · subst here
          refine ⟨_, if_pos rfl, ?_⟩
          rw [emit_blockIndex, ← index]
          cases opening with
          | known _ known => rw [Option.some.inj (known.symm.trans found)]; rfl
          | idle unknown | closing _ unknown => cases unknown.symm.trans found
        · exact ⟨ts', by rw [if_neg here]; exact found, index⟩
    | inr now =>
        obtain ⟨e', sent', marks⟩ := List.mem_map.mp now
        obtain ⟨mark, rfl⟩ := Prod.mk.inj marks
        obtain rfl : tc.index = idx := Option.some.inj mark
        refine ⟨_, if_pos rfl, ?_⟩
        rw [same] at sent'
        cases List.mem_append.mp sent' with
        | inl closing => cases (place e' closing).symm.trans block
        | inr emitted =>
            rw [emit_blockIndex]
            exact (emit_placed _ tc emitted block).symm

/-- The ledger of the tool calls, after any moves. -/
theorem arguments_ledger {rt : Runtime} {ms : List Move}
    (consistent : ∀ tc, .tool tc ∈ ms → Consistent rt tc) :
    Account rt ms (runFrom BlockState.move newBlockState ms).1 (markedEvents ms) := by
  rw [← (runFrom_marked BlockState.move Move.index? newBlockState ms).1]
  have ledger := runFrom_induction (marked BlockState.move Move.index?)
    (P := fun ms st sent => (∀ tc, .tool tc ∈ ms → Consistent rt tc) →
      Shape st ∧ Account rt ms st sent) (s := newBlockState) ?start ?next ms
  case start => exact fun _ => ⟨shape_new, account_new rt⟩
  case next =>
    intro ms st sent move before consistent
    obtain ⟨shape, account⟩ := before fun tc mem => consistent tc (List.mem_append_left _ mem)
    refine ⟨move_shape shape move, ?_⟩
    cases move with
    | content s => exact account.content shape s
    | tool tc => exact account.tool shape (consistent tc (by simp))
  exact (ledger consistent).2

/-! ## The stream -/

def blockEvents (events : List Event) : List BlockEvent := events.filterMap Event.block?

/-- What is left when the stream ends adds no text: nothing was held back. -/
theorem finish_silent {st : BlockState} (shape : Shape st) (order : List (Value × ToolState)) :
    texts (st.finish order) = [] ∧ (st.finish order).filterMap BlockEvent.json? = [] := by
  have stops : ∀ e ∈ st.finish order, ∃ i, e = .stop i := by
    intro e mem
    unfold BlockState.finish at mem
    simp only [shape.decided, Bool.false_eq_true, false_and, if_false] at mem
    cases List.mem_append.mp mem with
    | inl opened =>
        split at opened
        · exact ⟨_, List.mem_singleton.mp opened⟩
        · split at opened
          · exact ⟨_, List.mem_singleton.mp opened⟩
          · cases opened
    | inr tools =>
        obtain ⟨entry, -, rfl⟩ := List.mem_map.mp tools
        exact ⟨_, rfl⟩
  constructor
  · refine List.filterMap_eq_nil_iff.mpr fun e mem => ?_
    obtain ⟨i, rfl⟩ := stops e mem
    rfl
  · refine List.filterMap_eq_nil_iff.mpr fun e mem => ?_
    obtain ⟨i, rfl⟩ := stops e mem
    rfl

/-- What a client is sent for the moves: all thinking and text is the content
    without its tags, and what is sent for a tool call that has its id and name is
    all of its arguments, at one block index. -/
structure Lossless (rt : Runtime) (ms : List Move) (events ending : List Event) : Prop where
  content : ∃ thinking text : List Bytes,
    texts (blockEvents (events ++ ending)) = thinking.map .thinking ++ text.map .text ∧
      TagsOff (contentText ms) thinking.flatten text.flatten
  marks : blockEvents events = (markedEvents ms).map Prod.snd
  ends : (blockEvents ending).filterMap BlockEvent.json? = []
  arguments : ∀ idx, Completes ms idx →
    sentFor rt idx (markedEvents ms) = received ms idx ∧
      ∃ block, ∀ e i, (some idx, e) ∈ markedEvents ms → toolBlock? e = some i → i = block

theorem claude_stream_lossless (rt : Runtime) (now : Rat) (model : Option Value)
    {lines : List Bytes} (chunks : ∀ line ∈ lines, IsChunkLine rt line) :
    ∃ st events, streamChunks rt now (newStreamState model) lines = .ok (st, events) ∧
      ∀ order, Lossless rt (moves rt lines) events (streamEnd st order) := by
  obtain ⟨st, heading, handled, blocks, head⟩ := streamChunks_ok rt now (newStreamState model) chunks
  refine ⟨st, _, handled, fun order => ?_⟩
  generalize hms : moves rt lines = ms at *
  obtain ⟨shape, history⟩ := run_known ms
  have isRun : st.toBlockState = (runFrom BlockState.move newBlockState ms).1 := blocks
  have silent : blockEvents heading = [] := by
    unfold Heading at head
    split at head
    · simp [head, blockEvents]
    · obtain ⟨_, ⟨id, model, tokens, rfl⟩, rfl⟩ := head
      rfl
  have body : blockEvents (heading ++
      (runFrom BlockState.move (newStreamState model).toBlockState ms).2.map .block) =
        (runFrom BlockState.move newBlockState ms).2 := by
    unfold blockEvents at silent ⊢
    rw [List.filterMap_append, silent, List.nil_append, List.filterMap_map]
    exact List.filterMap_some
  have ending : blockEvents (streamEnd st order) = st.finish order := by
    unfold blockEvents streamEnd
    rw [List.filterMap_append, List.filterMap_map]
    simp only [List.filterMap_cons, Event.block?, List.filterMap_nil, List.append_nil]
    exact List.filterMap_some
  obtain ⟨quiet, noJson⟩ := finish_silent (isRun ▸ shape) order
  refine ⟨?content, ?marks, ?ends, ?calls⟩
  case content =>
    obtain ⟨thinking, text, spoken, sent⟩ := content_ledger ms
    refine ⟨thinking, text, ?_, spoken.off⟩
    have split : blockEvents ((heading ++
        (runFrom BlockState.move (newStreamState model).toBlockState ms).2.map .block) ++
          streamEnd st order) = (runFrom BlockState.move newBlockState ms).2 ++ st.finish order := by
      rw [← body, ← ending]
      exact List.filterMap_append
    rw [split, texts_append, sent, quiet, List.append_nil]
  case marks =>
    rw [body]
    exact (runFrom_marked BlockState.move Move.index? newBlockState ms).2.symm
  case ends =>
    rw [ending]
    exact noJson
  case calls =>
    intro idx completes
    have account : Account rt ms _ _ := arguments_ledger (hms ▸ moves_consistent)
    obtain ⟨ts, entry, started⟩ := (history.toKnown.completes_iff idx).mp completes
    have paid := account.paid idx
    rw [entry] at paid
    refine ⟨by simpa [Paid, started] using paid, ts.blockIndex, fun e i mem block => ?_⟩
    obtain ⟨ts', entry', index⟩ := account.placed idx e i mem block
    cases entry.symm.trans entry'
    exact index.symm

theorem thinking_stream_lossless :
    ∃ st events,
      streamChunks (contentRuntime ["<think>a", "b</think>c"]) 0 (newStreamState none)
          [contentLine "<think>a", contentLine "b</think>c"] = .ok (st, events) ∧
      ∀ order, Lossless (contentRuntime ["<think>a", "b</think>c"])
        (moves (contentRuntime ["<think>a", "b</think>c"])
          [contentLine "<think>a", contentLine "b</think>c"]) events (streamEnd st order) := by
  have chunks : ∀ line ∈ [contentLine "<think>a", contentLine "b</think>c"],
      IsChunkLine (contentRuntime ["<think>a", "b</think>c"]) line := by
    intro line mem v decoded
    rcases List.mem_pair.mp mem with rfl | rfl
    · obtain rfl : contentChunk "<think>a" = v := Option.some.inj decoded
      rfl
    · obtain rfl : contentChunk "b</think>c" = v := Option.some.inj decoded
      rfl
  exact claude_stream_lossless _ 0 none chunks

end E2eeProxy.Claude
