import E2eeProxy.Moves
import E2eeProxy.ResponsesStream

/-! # The item events of a stream

The events of a whole stream come down to one run over its moves, and each move
is described once for the proofs that follow.
-/

namespace E2eeProxy.Responses

open E2eeProxy.Lua E2eeProxy.OpenAi E2eeProxy.Lib

/-! ## Chunks that can be counted -/

/-- The token counts of the usage are numbers, where they are given. -/
def countsTokens : Value → Bool
  | .obj fields => field fields "usage" fun
      | .obj counts => field counts "prompt_tokens" isNumber && field counts "completion_tokens" isNumber
      | _ => true
  | _ => true

/-- The line carries a chunk with countable usage, or nothing that is read. -/
def IsCountedLine (rt : Runtime) (chunkLine : Bytes) : Prop :=
  ∀ v, decodeChunk rt chunkLine = some v → isChunk v = true ∧ countsTokens v = true

/-- What `trackUsage` needs of a chunk. -/
def HasCounts (chunk : Chunk) : Prop :=
  ∀ usage, chunk.usage = some usage →
    (∀ v, usage.promptTokens = some v → isNumber v = true) ∧
      ∀ v, usage.completionTokens = some v → isNumber v = true

theorem present_field {fields : List (Bytes × Value)} {key : String} {p : Value → Bool} {v : Value}
    (h : field fields key p = true) (found : present (fields.lookup (lit key)) = some v) :
    p v = true := field_some h (Option.filter_eq_some_iff.mp found).1

theorem readChunk_counts {rt : Runtime} {v : Value} {chunk : Chunk} (h : isChunk v = true)
    (counts : countsTokens v = true) (read : readChunk rt v = .ok chunk) : HasCounts chunk := by
  cases v with
  | null | bool | num | str | arr => cases h
  | obj fields =>
      intro usage given
      obtain ⟨u, husage⟩ := readUsage_ok (fields.lookup (lit "usage"))
      have same : chunk.usage = u := by
        simp only [readChunk, index_obj, husage, bind, Except.bind, pure, Except.pure] at read
        split at read
        · simp at read
        · simp only [Except.ok.injEq] at read
          rw [← read]
      rw [same] at given
      subst given
      cases raw : fields.lookup (lit "usage") with
      | none => simp [readUsage, raw, isTable, pure, Except.pure] at husage
      | some value =>
          have valid := field_some counts raw
          cases value with
          | null | bool | num | str => simp [readUsage, raw, isTable, pure, Except.pure] at husage
          | arr items =>
              simp [readUsage, raw, isTable, index, present, bind, Except.bind, pure,
                Except.pure] at husage
              subst husage
              simp
          | obj parts =>
              simp only [readUsage, raw, isTable, index_obj, ↓reduceIte, bind, Except.bind, pure,
                Except.pure, Except.ok.injEq, Option.some.injEq] at husage
              subst husage
              obtain ⟨prompt, completion⟩ := Bool.and_eq_true_iff.mp valid
              exact ⟨fun v found => present_field prompt found,
                fun v found => present_field completion found⟩

/-- The counts that were tracked so far are numbers. -/
def Counted (st : StreamState) : Prop :=
  isNumber st.usage.inputTokens = true ∧ isNumber st.usage.outputTokens = true

theorem toNumber_isNumber (rt : Runtime) {v : Value} (h : isNumber v = true) :
    ∃ q, rt.toNumber (some v) = some q := by
  cases v with
  | null | bool | str | arr | obj => cases h
  | num q => exact ⟨q, rfl⟩

theorem trackUsage_ok (rt : Runtime) {st : StreamState} {chunk : Chunk} (counted : Counted st)
    (counts : HasCounts chunk) :
    ∃ usage, st.trackUsage rt chunk = .ok { st with usage } ∧ Counted { st with usage } := by
  unfold StreamState.trackUsage
  cases given : chunk.usage with
  | none => exact ⟨st.usage, rfl, counted⟩
  | some usage =>
      have input : isNumber (usage.promptTokens.getD st.usage.inputTokens) = true := by
        cases prompt : usage.promptTokens with
        | none => exact counted.1
        | some v => exact (counts usage given).1 v prompt
      have output : isNumber (usage.completionTokens.getD st.usage.outputTokens) = true := by
        cases completion : usage.completionTokens with
        | none => exact counted.2
        | some v => exact (counts usage given).2 v completion
      obtain ⟨i, hi⟩ := toNumber_isNumber rt input
      obtain ⟨o, ho⟩ := toNumber_isNumber rt output
      simp only [hi, ho]
      exact ⟨_, rfl, input, output⟩

/-! ## The whole stream -/

theorem send_payloads (st : StreamState) (payloads : List Payload) :
    (st.send payloads).2.map Event.payload = payloads := by
  refine List.ext_getElem (by simp [StreamState.send]) fun i _ _ => ?_
  simp [StreamState.send]

def IsCreated (payload : Payload) : Prop := ∃ response, payload = .created response

theorem createResponse_heading (now : Rat) (st : StreamState) (chunk : Chunk) :
    (st.createResponse now chunk).1.toItemState = st.toItemState ∧
      (st.createResponse now chunk).1.responseCreated = true ∧
      (st.createResponse now chunk).1.usage = st.usage ∧
      Heading IsCreated st.responseCreated (st.createResponse now chunk).2 := by
  unfold StreamState.createResponse
  cases created : st.responseCreated with
  | true => simp [created, Heading]
  | false => exact ⟨rfl, rfl, rfl, _, ⟨_, rfl⟩, rfl⟩

@[simp] theorem trackFinish_items (st : StreamState) (choice : Choice) :
    (st.trackFinish choice).toItemState = st.toItemState := by
  unfold StreamState.trackFinish
  split <;> rfl

@[simp] theorem trackFinish_created (st : StreamState) (choice : Choice) :
    (st.trackFinish choice).responseCreated = st.responseCreated := by
  unfold StreamState.trackFinish
  split <;> rfl

@[simp] theorem trackFinish_usage (st : StreamState) (choice : Choice) :
    (st.trackFinish choice).usage = st.usage := by
  unfold StreamState.trackFinish
  split <;> rfl

theorem onChunk_ok (rt : Runtime) (ids : Ids) (now : Rat) (st : StreamState) (chunk : Chunk)
    (counted : Counted st) (counts : HasCounts chunk) :
    ∃ st' events heading, st.onChunk rt ids now chunk = .ok (st', events) ∧ Counted st' ∧
      events.map Event.payload =
        heading ++ (runFrom (ItemState.move ids) st.toItemState chunk.moves).2.map .item ∧
      st'.toItemState = (runFrom (ItemState.move ids) st.toItemState chunk.moves).1 ∧
      st'.responseCreated = true ∧ Heading IsCreated st.responseCreated heading := by
  obtain ⟨items, created, sameUsage, head⟩ := createResponse_heading now st chunk
  have counted' : Counted (st.createResponse now chunk).1 := by
    rw [Counted, sameUsage]
    exact counted
  obtain ⟨usage, tracked, countedAfter⟩ := trackUsage_ok rt counted' counts
  unfold StreamState.onChunk
  generalize st.createResponse now chunk = begun at *
  obtain ⟨begun, heading⟩ := begun
  generalize hnext : { begun with usage } = next at *
  have nextItems : next.toItemState = st.toItemState := by rw [← hnext]; exact items
  have nextCreated : next.responseCreated = true := by rw [← hnext]; exact created
  cases hchoice : chunk.choice with
  | none =>
      refine ⟨(next.send heading).1, (next.send heading).2, heading, ?_, countedAfter, ?_, ?_,
        nextCreated, head⟩
      · simp [tracked, bind, Except.bind, pure, Except.pure]
      · rw [send_payloads]
        simp [Chunk.moves, hchoice]
      · simp [StreamState.send, nextItems, Chunk.moves, hchoice]
  | some choice =>
      refine ⟨((next.onChoice ids choice).1.send (heading ++ (next.onChoice ids choice).2)).1,
        ((next.onChoice ids choice).1.send (heading ++ (next.onChoice ids choice).2)).2,
        heading, ?_, ?_, ?_, ?_, ?_, head⟩
      · simp [tracked, bind, Except.bind, pure, Except.pure]
      · simpa [Counted, StreamState.send, StreamState.onChoice] using countedAfter
      · rw [send_payloads]
        simp [StreamState.onChoice, nextItems, Chunk.moves, hchoice]
      · simp [StreamState.send, StreamState.onChoice, nextItems, Chunk.moves, hchoice]
      · simpa [StreamState.send, StreamState.onChoice] using nextCreated

def translator (rt : Runtime) (ids : Ids) (now : Rat) :
    Translator StreamState Event ItemState ItemEvent Payload where
  handle := StreamState.onChunk rt ids now
  body := StreamState.toItemState
  begun := StreamState.responseCreated
  content := Event.payload
  move := ItemState.move ids
  wrap := .item
  opens := IsCreated
  valid := HasCounts
  inv := Counted
  handles st chunk counted counts := onChunk_ok rt ids now st chunk counted counts

def Payload.item? : Payload → Option ItemEvent
  | .item e => some e
  | .created _ | .completed _ => none

/-- The item events of a stream. -/
def itemEvents (events : List Event) : List ItemEvent :=
  events.filterMap fun e => e.payload.item?

theorem itemEvents_eq (events : List Event) :
    itemEvents events = (events.map Event.payload).filterMap Payload.item? := by
  simp [itemEvents, List.filterMap_map]

theorem item_payloads (events : List ItemEvent) :
    (events.map Payload.item).filterMap Payload.item? = events := by
  rw [List.filterMap_map]
  exact List.filterMap_some

def Payload.completed? : Payload → Option Response
  | .completed response => some response
  | .created _ | .item _ => none

/-- The responses that were sent as completed. -/
def completedResponses (events : List Event) : List Response :=
  events.filterMap fun e => e.payload.completed?

theorem completedResponses_eq (events : List Event) :
    completedResponses events = (events.map Event.payload).filterMap Payload.completed? := by
  simp [completedResponses, List.filterMap_map]

theorem item_completed (events : List ItemEvent) :
    (events.map Payload.item).filterMap Payload.completed? = [] := by
  rw [List.filterMap_map, List.filterMap_eq_nil_iff]
  exact fun _ _ => rfl

/-- Every chunk line is handled, and the events of the stream are a heading and the
    item events of its moves. -/
theorem streamChunks_payloads (rt : Runtime) (ids : Ids) (now : Rat) (model : Option Value)
    {lines : List Bytes} (chunks : ∀ line ∈ lines, IsCountedLine rt line) :
    ∃ st events heading,
      streamChunks rt ids now (newStreamState ids model) lines = .ok (st, events) ∧
      events.map Event.payload = heading ++
        (runFrom (ItemState.move ids) (newItemState ids) (moves rt lines)).2.map .item ∧
      st.toItemState = (runFrom (ItemState.move ids) (newItemState ids) (moves rt lines)).1 ∧
      Heading IsCreated (lines.all fun line => (decodeChunk rt line).isNone) heading := by
  have valid : ∀ line ∈ lines, (translator rt ids now).ValidLine rt line :=
    fun line mem v decoded =>
      have ⟨isValid, counts⟩ := chunks line mem v decoded
      ⟨isValid, fun _ read => readChunk_counts isValid counts read⟩
  have inv : (translator rt ids now).inv (newStreamState ids model) := ⟨rfl, rfl⟩
  exact (translator rt ids now).lines_ok rt inv valid

/-- The item events of the stream depend on its moves alone. -/
theorem streamChunks_ok (rt : Runtime) (ids : Ids) (now : Rat) (model : Option Value)
    {lines : List Bytes} (chunks : ∀ line ∈ lines, IsCountedLine rt line) :
    ∃ st events, streamChunks rt ids now (newStreamState ids model) lines = .ok (st, events) ∧
      itemEvents events = (runFrom (ItemState.move ids) (newItemState ids) (moves rt lines)).2 ∧
      st.toItemState = (runFrom (ItemState.move ids) (newItemState ids) (moves rt lines)).1 ∧
      completedResponses events = [] := by
  obtain ⟨st, events, heading, handled, payloads, items, head⟩ :=
    streamChunks_payloads rt ids now model chunks
  have silent : heading.filterMap Payload.item? = [] ∧
      heading.filterMap Payload.completed? = [] := by
    unfold Heading at head
    split at head
    · simp [head]
    · obtain ⟨_, ⟨response, rfl⟩, rfl⟩ := head
      exact ⟨rfl, rfl⟩
  refine ⟨st, events, handled, ?_, items, ?_⟩
  · rw [itemEvents_eq, payloads, List.filterMap_append, silent.1, item_payloads, List.nil_append]
  · rw [completedResponses_eq, payloads, List.filterMap_append, silent.2, item_completed,
      List.nil_append]

end E2eeProxy.Responses
