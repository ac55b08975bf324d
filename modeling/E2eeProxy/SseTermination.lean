import E2eeProxy.SseDispatch

/-! # How a stream comes to its end

Behind the loop the tail of `e2ee_round_trip` terminates the stream, accounts the
usage that was seen last, releases the connection and counts the request. A Lua
error in the loop skips all of it, and the lines that raise one are told by their
event alone.
-/

namespace E2eeProxy.Sse

open Lua Crypto Lib StreamState

/-- What the streaming part does outside. The records of the selector are those of
    the round trip. -/
inductive Effect where
  | onChunk (line : Option Bytes)
  | promptTokens (n : Rat)
  | cachedTokens (n : Rat)
  | cacheEvent (hit : Bool)
  | close
  | setKeepalive
  | count (outcome : Outcome)

def Effect.releases : Effect → Bool
  | close | setKeepalive => true
  | onChunk _ | promptTokens _ | cachedTokens _ | cacheEvent _ | count _ => false

def Effect.counts : Effect → Bool
  | count _ => true
  | onChunk _ | promptTokens _ | cachedTokens _ | cacheEvent _ | close | setKeepalive => false

/-- The effects up to a Lua error, if there is one. -/
structure Ended where
  effects : List Effect
  raised : Option LuaError

section Tail

variable (rt : Runtime) (native : Native) (responseSk : Bytes)

/-- A field of what was found to be a table. -/
def fieldIn (v : Value) (key : String) : Option Value :=
  match v with
  | .obj fields => fields.lookup (lit key)
  | _ => none

/-- The prompt tokens and the cached tokens. -/
def cachedTokensFromUsage (usage : Value) : Option Rat × Option Rat :=
  let number (key : String) := rt.toNumber (fieldIn usage key)
  let details := (fieldIn usage "prompt_tokens_details").filter fun d => isTable (some d)
  let cached := details.bind fun d => rt.toNumber (fieldIn d "cached_tokens")
  (number "prompt_tokens" <|> number "input_tokens",
    cached <|> number "cached_tokens" <|> number "prompt_cache_hit_tokens" <|>
      number "cache_read_input_tokens")

/-- `account_usage`, for a usage that is a table. -/
def accountUsage (usage : Value) : List Effect :=
  let (prompt, cached) := cachedTokensFromUsage rt usage
  (prompt.map Effect.promptTokens).toList ++ (cached.map Effect.cachedTokens).toList ++
    if prompt.isSome || cached.isSome then
      [.cacheEvent (cached.elim false fun n => 0 < n)]
    else []

/-- The usage object of a delivered line, if its type checks find one. -/
def usageFromSseLine (line : Bytes) : Option Value :=
  if occurs (lit "\"usage\"") line && startsWith (lit "data:") line then
    (rt.decode (trim (line.drop 5))).bind fun obj =>
      (fieldIn obj "usage").filter fun usage => isTable (some usage)
  else none

/-- `last_usage`. -/
def lastUsage (handled : List Step) : Option Value :=
  ((handled.filterMap (Step.handedOver rt native responseSk)).filterMap (usageFromSseLine rt)).getLast?

/-- Behind the terminator. -/
def conclude (hadError : Bool) : List Effect :=
  if hadError then [.close, .count .streamError] else [.setKeepalive, .count .ok]

/-- The whole streaming part with its effects. -/
def streamPart (chunks : List Bytes) (readError : Option Bytes) : Ended :=
  let s := streamBody rt native responseSk chunks readError
  let told := s.calls.map Effect.onChunk
  match s.raised with
  | some e => ⟨told, some e⟩
  | none =>
      let usage := lastUsage rt native responseSk (steps rt native responseSk chunks.flatten)
      ⟨told ++ (usage.map (accountUsage rt)).getD [] ++ conclude s.hadError, none⟩

end Tail

/-- No error is raised, `on_chunk(nil)` is the last of the `on_chunk` calls and the
    only one of its kind, and there is one release and one count. -/
structure EndsOnce (run : Ended) : Prop where
  raises : run.raised = none
  terminator : ∃ before after, run.effects = before ++ .onChunk none :: after ∧
    .onChunk none ∉ before ∧ ∀ line, .onChunk line ∉ after
  released : (run.effects.filter Effect.releases).length = 1
  counted : (run.effects.filter Effect.counts).length = 1

section Lines

variable (rt : Runtime) (native : Native) (responseSk : Bytes)

/-- The lines that no check expects: an event without fields, an `e2e_init` or `e2e`
    that is no string, and an error report that cannot be encoded. -/
inductive Step.Malformed (step : Step) : Prop where
  | scalar (event : Value) : step.event rt = some event →
      (event = .null ∨ (∃ b, event = .bool b) ∨ ∃ q, event = .num q) → Malformed step
  | init (event v : Value) : step.event rt = some event → HasField event "e2e_init" (some v) →
      (∀ s, v ≠ .str s) → Malformed step
  | chunk (event v : Value) (key : Bytes) : step.event rt = some event →
      LacksField event "e2e_init" → HasField event "e2e" (some v) → step.streamKey = some key →
      (∀ s, v ≠ .str s) → Malformed step
  | report (event v : Value) : step.event rt = some event → LacksField event "e2e_init" →
      LacksField event "e2e" → LacksField event "usage" → HasField event "e2e_error" (some v) →
      rt.encodes (.obj [(lit "error", v)]) = false → Malformed step

/-! ## Which lines raise -/

theorem decodeBase64_str (s : Bytes) :
    decodeBase64 native (some (.str s)) = .ok (native.decodeBase64 s) := rfl

theorem decodeBase64_truthy {v : Value} (truly : truthy (some v)) (foreign : ∀ s, v ≠ .str s) :
    decodeBase64 native (some v) = .error .badArgument := by
  cases v with
  | str s => exact absurd rfl (foreign s)
  | bool b =>
      cases b with
      | false => cases truly
      | true => rfl
  | null | num | arr | obj => rfl

/-- The calls of the crypto module raise for what is no string, and for nothing else. -/
theorem decryptStreamInit_error {v : Option Value} {e : LuaError} (truly : truthy v)
    (raised : decryptStreamInit native responseSk v = .error e) :
    ∃ w, v = some w ∧ ∀ s, w ≠ .str s := by
  cases v with
  | none => cases truly
  | some w =>
      refine ⟨w, rfl, ?_⟩
      rintro s rfl
      simp only [decryptStreamInit, decodeBase64_str, bind, Except.bind] at raised
      split at raised
      · cases raised
      · split at raised
        · cases raised
        · split at raised <;> cases raised

theorem decryptStreamChunk_error {v : Option Value} {key : Bytes} {e : LuaError} (truly : truthy v)
    (raised : decryptStreamChunk native v key = .error e) :
    ∃ w, v = some w ∧ ∀ s, w ≠ .str s := by
  cases v with
  | none => cases truly
  | some w =>
      refine ⟨w, rfl, ?_⟩
      rintro s rfl
      simp only [decryptStreamChunk, decodeBase64_str, bind, Except.bind] at raised
      split at raised
      · cases raised
      · split at raised
        · cases raised
        · split at raised <;> cases raised

theorem Step.raises_iff (step : Step) :
    step.raises rt native responseSk = true ↔ ∃ e, step.result rt native responseSk = .error e := by
  unfold Step.raises
  cases step.result rt native responseSk <;> simp

theorem Step.malformed_of_raises {step : Step} (raises : step.raises rt native responseSk = true) :
    step.Malformed rt := by
  obtain ⟨e, result⟩ := (step.raises_iff rt native responseSk).mp raises
  rcases step.dispatch rt native responseSk with ⟨-, idle | idle⟩ | ⟨event, read, outcome⟩
  · rw [result] at idle
    cases idle
  · rw [result] at idle
    cases idle
  · rw [result] at outcome
    cases outcome with
    | unreadable e refused =>
        apply Malformed.scalar event read
        cases event with
        | null => exact .inl rfl
        | bool b => exact .inr (.inl ⟨b, rfl⟩)
        | num q => exact .inr (.inr ⟨q, rfl⟩)
        | str | arr | obj => cases refused "usage"
    | initRaised ct e has raised =>
        obtain ⟨v, rfl, foreign⟩ := decryptStreamInit_error native responseSk has.2 raised
        exact .init event v read has foreign
    | chunkRaised enc key e lacks has inUse raised =>
        obtain ⟨v, rfl, foreign⟩ := decryptStreamChunk_error native has.2 raised
        exact .chunk event v key read lacks has inUse foreign
    | relayErrorRaised v lacksInit lacksE2e lacksUsage has refused =>
        exact .report event v read lacksInit lacksE2e lacksUsage has refused

theorem Step.raises_of_error {step : Step} {event : Value} (read : step.event rt = some event)
    {e : LuaError}
    (error : processEvent rt native responseSk step.line step.streamKey event = .error e) :
    step.raises rt native responseSk = true := by
  unfold Step.raises
  rw [result_of_event rt native responseSk read, error]

theorem Step.raises_of_malformed {step : Step} (malformed : step.Malformed rt) :
    step.raises rt native responseSk = true := by
  cases malformed with
  | scalar event read kind =>
      apply step.raises_of_error rt native responseSk read
      rcases kind with rfl | ⟨b, rfl⟩ | ⟨q, rfl⟩ <;> rfl
  | init event v read has foreign =>
      apply step.raises_of_error rt native responseSk read
      simp only [processEvent, has.1, has.2, bind, Except.bind, if_true, decryptStreamInit,
        decodeBase64_truthy native has.2 foreign]
      rfl
  | chunk event v key read lacks has inUse foreign =>
      obtain ⟨w, readInit, falsy⟩ := lacks
      apply step.raises_of_error rt native responseSk read
      simp only [processEvent, readInit, falsy, has.1, has.2, inUse, bind, Except.bind, if_true,
        decryptStreamChunk, decodeBase64_truthy native has.2 foreign]
      rfl
  | report event v read lacksInit lacksE2e lacksUsage has refused =>
      obtain ⟨_, readInit, falsyInit⟩ := lacksInit
      obtain ⟨_, readE2e, falsyE2e⟩ := lacksE2e
      obtain ⟨_, readUsage, falsyUsage⟩ := lacksUsage
      have error : processEvent rt native responseSk step.line step.streamKey event =
          .error .concat := by
        simp only [processEvent, readInit, readE2e, readUsage, falsyInit, falsyE2e, falsyUsage, has.1,
          has.2, orElse_truthy has.2, refused, bind, Except.bind, Bool.false_eq_true, if_true, if_false]
        rfl
      exact step.raises_of_error rt native responseSk read error

/-- A line raises exactly when it is malformed. -/
theorem Step.raises_eq (step : Step) :
    step.raises rt native responseSk = true ↔ step.Malformed rt :=
  ⟨step.malformed_of_raises rt native responseSk, step.raises_of_malformed rt native responseSk⟩

/-! ## The whole part -/

theorem streamBody_raised (chunks : List Bytes) (readError : Option Bytes) :
    (streamBody rt native responseSk chunks readError).raised.isSome =
      (steps rt native responseSk chunks.flatten).any (Step.raises rt native responseSk) := by
  rw [streamBody_eq_rest]
  exact (rest_ends rt native responseSk _ readError _ rfl).1

theorem accountUsage_quiet (usage : Value) :
    (∀ line, .onChunk line ∉ accountUsage rt usage) ∧
      (accountUsage rt usage).filter Effect.releases = [] ∧
      (accountUsage rt usage).filter Effect.counts = [] := by
  unfold accountUsage
  obtain ⟨prompt, cached⟩ := cachedTokensFromUsage rt usage
  cases prompt <;> cases cached <;> simp [Effect.releases, Effect.counts]

theorem conclude_once (hadError : Bool) :
    (∀ line, .onChunk line ∉ conclude hadError) ∧
      ((conclude hadError).filter Effect.releases).length = 1 ∧
      ((conclude hadError).filter Effect.counts).length = 1 := by
  cases hadError with
  | false => exact ⟨fun line mem => by simp [conclude] at mem, rfl, rfl⟩
  | true => exact ⟨fun line mem => by simp [conclude] at mem, rfl, rfl⟩

/-- Once nothing has raised, the delivered lines, the terminator and the tail are all
    the effects there are. -/
theorem streamPart_calm {chunks : List Bytes} (readError : Option Bytes)
    (calm : (steps rt native responseSk chunks.flatten).any (Step.raises rt native responseSk) =
      false) :
    ∃ (usage : Option Value) (hadError : Bool), streamPart rt native responseSk chunks readError =
      ⟨((steps rt native responseSk chunks.flatten).filterMap
          (Step.delivered rt native responseSk)).map (fun line => .onChunk (some line)) ++
        .onChunk none :: ((usage.map (accountUsage rt)).getD [] ++ conclude hadError), none⟩ := by
  have raised := streamBody_raised rt native responseSk chunks readError
  have calls := streamBody_calls_steps rt native responseSk readError chunks
  rw [calm] at raised calls
  have none := Option.isSome_eq_false_iff.mp raised
  refine ⟨lastUsage rt native responseSk (steps rt native responseSk chunks.flatten),
    (streamBody rt native responseSk chunks readError).hadError, ?_⟩
  unfold streamPart
  simp only [Option.isNone_iff_eq_none.mp none, calls]
  simp

theorem endsOnce_of_calm {lines : List Bytes} {usage : Option Value} {hadError : Bool} :
    EndsOnce ⟨lines.map (fun line => .onChunk (some line)) ++
      .onChunk none :: ((usage.map (accountUsage rt)).getD [] ++ conclude hadError), none⟩ := by
  have quiet : (∀ line, .onChunk line ∉ (usage.map (accountUsage rt)).getD []) ∧
      ((usage.map (accountUsage rt)).getD []).filter Effect.releases = [] ∧
      ((usage.map (accountUsage rt)).getD []).filter Effect.counts = [] := by
    cases usage with
    | none => exact ⟨fun _ mem => (nomatch mem), rfl, rfl⟩
    | some usage => exact accountUsage_quiet rt usage
  obtain ⟨accounts, releases, counts⟩ := quiet
  obtain ⟨concludes, released, counted⟩ := conclude_once hadError
  have told : (lines.map (fun line => Effect.onChunk (some line))).filter Effect.releases = [] ∧
      (lines.map (fun line => Effect.onChunk (some line))).filter Effect.counts = [] := by
    simp [List.filter_map, Function.comp_def, Effect.releases, Effect.counts]
  refine ⟨rfl, ⟨_, _, rfl, by simp, ?_⟩, ?_, ?_⟩
  · intro line mem
    cases List.mem_append.mp mem with
    | inl here => exact accounts line here
    | inr there => exact concludes line there
  · simp only [List.filter_append, List.filter_cons, told.1, releases, List.nil_append]
    exact released
  · simp only [List.filter_append, List.filter_cons, told.2, counts, List.nil_append]
    exact counted

/-- The stream is terminated, released and counted once and nothing is raised, exactly
    when no line that the loop handles is malformed. -/
theorem endsOnce_iff (chunks : List Bytes) (readError : Option Bytes) :
    EndsOnce (streamPart rt native responseSk chunks readError) ↔
      ∀ step ∈ steps rt native responseSk chunks.flatten, ¬ step.Malformed rt := by
  constructor
  · intro ends step mem malformed
    have raises := step.raises_of_malformed rt native responseSk malformed
    have raised := streamBody_raised rt native responseSk chunks readError
    rw [List.any_eq_true.mpr ⟨step, mem, raises⟩] at raised
    obtain ⟨e, error⟩ := Option.isSome_iff_exists.mp raised
    have stopped := ends.raises
    simp only [streamPart, error] at stopped
    cases stopped
  · intro calm
    have quiet : (steps rt native responseSk chunks.flatten).any
        (Step.raises rt native responseSk) = false := by
      apply List.any_eq_false.mpr
      intro step mem raises
      exact calm step mem ((step.raises_eq rt native responseSk).mp raises)
    obtain ⟨usage, hadError, same⟩ := streamPart_calm rt native responseSk readError quiet
    rw [same]
    exact endsOnce_of_calm rt

end Lines

/-- The payload of the only line is a number. -/
def numberRuntime : Runtime := .ofDocuments [(lit "5", .num 5)]

theorem number_line_raises :
    ¬ ∀ (rt : Runtime) (native : Native) (responseSk : Bytes) (chunks : List Bytes)
      (readError : Option Bytes), EndsOnce (streamPart rt native responseSk chunks readError) := by
  intro ends
  have raised := (ends numberRuntime noNative [] [lit "data: 5" ++ [newline]] none).raises
  have error : (streamPart numberRuntime noNative [] [lit "data: 5" ++ [newline]] none).raised =
      some .index := rfl
  rw [error] at raised
  cases raised

end E2eeProxy.Sse
