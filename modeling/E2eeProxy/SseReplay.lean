import E2eeProxy.SseDispatch

/-! # What a relay can do with sealed lines

Each e2e event authenticates by itself and carries no number, so the relay decides
in which order and how often the lines of an answer are delivered. It cannot make up
a line, and without the e2e_init event in front nothing is delivered.
-/

namespace E2eeProxy.Sse

open Lua Crypto Lib StreamState

variable (rt : Runtime) (native : Native) (responseSk : Bytes)

/-- The JSON event of a line. -/
def lineEvent (line : Bytes) : Option Value := Step.event rt ⟨line, none, true⟩

/-- The line carries an e2e_init event from which the key is derived. -/
def Opens (line key : Bytes) : Prop :=
  ∃ event ct, lineEvent rt line = some event ∧ HasField event "e2e_init" ct ∧
    decryptStreamInit native responseSk ct = .ok (.ok key)

/-- The line carries an e2e event in which `plain` is sealed under the key. -/
def Seals (line key plain : Bytes) : Prop :=
  ∃ event enc, lineEvent rt line = some event ∧ LacksField event "e2e_init" ∧
    HasField event "e2e" enc ∧ decryptStreamChunk native enc key = .ok (.ok plain)

/-- An event of an answer under one stream key: the e2e_init event, or an e2e event
    with the line that the instance sealed in it. -/
structure E2eEvent (key : Bytes) where
  line : Bytes
  sealed : Option Bytes
  oneLine : newline ∉ line
  opens : sealed = none → Opens rt native responseSk line key
  seals : ∀ plain, sealed = some plain → Seals rt native line key plain

variable {rt native responseSk} {key : Bytes}

/-- The events as the relay sends them. -/
def relay (events : List (E2eEvent rt native responseSk key)) : Bytes :=
  events.flatMap fun e => e.line ++ [newline, newline]

/-- The sealed lines of the events, if the first one is an e2e_init event. -/
def inOrder : List (E2eEvent rt native responseSk key) → List Bytes
  | [] => []
  | e :: events =>
      match e.sealed with
      | none => events.filterMap E2eEvent.sealed
      | some _ => []

variable (rt native responseSk) in
/-- The decrypted lines that are delivered, all of them before any error report. -/
def decryptedLines (body : Bytes) : List Bytes :=
  (steps rt native responseSk body).filterMap (Step.handedOver rt native responseSk)

/-! ## One event -/

theorem E2eEvent.line_ne_nil (e : E2eEvent rt native responseSk key) : e.line ≠ [] := by
  have read : ∃ event, lineEvent rt e.line = some event := by
    cases given : e.sealed with
    | none =>
        obtain ⟨event, -, read, -⟩ := e.opens given
        exact ⟨event, read⟩
    | some plain =>
        obtain ⟨event, -, read, -⟩ := e.seals plain given
        exact ⟨event, read⟩
  intro empty
  obtain ⟨event, read⟩ := read
  rw [empty] at read
  cases read

theorem processSseLine_event {line : Bytes} {event : Value} (read : lineEvent rt line = some event)
    (streamKey : Option Bytes) :
    processSseLine rt native responseSk line streamKey =
      processEvent rt native responseSk line streamKey event := by
  have read : Step.event rt ⟨line, streamKey, true⟩ = some event := read
  exact Step.result_of_event rt native responseSk read

theorem E2eEvent.init_result (e : E2eEvent rt native responseSk key) (isInit : e.sealed = none)
    (streamKey : Option Bytes) :
    processSseLine rt native responseSk e.line streamKey = .ok (.init key) := by
  obtain ⟨event, ct, read, has, opened⟩ := e.opens isInit
  rw [processSseLine_event read]
  simp only [processEvent, has.1, has.2, opened, bind, Except.bind, if_true]
  rfl

theorem E2eEvent.chunk_result (e : E2eEvent rt native responseSk key) {plain : Bytes}
    (isChunk : e.sealed = some plain) :
    processSseLine rt native responseSk e.line (some key) = .ok (.chunk plain) := by
  obtain ⟨event, enc, read, ⟨_, readInit, falsy⟩, has, opened⟩ := e.seals plain isChunk
  rw [processSseLine_event read]
  simp only [processEvent, readInit, falsy, has.1, has.2, opened, bind, Except.bind, if_true]
  rfl

theorem E2eEvent.early_result (e : E2eEvent rt native responseSk key) {plain : Bytes}
    (isChunk : e.sealed = some plain) :
    processSseLine rt native responseSk e.line none =
      .ok (.error "received e2e chunk before e2e_init") := by
  obtain ⟨event, enc, read, ⟨_, readInit, falsy⟩, has, -⟩ := e.seals plain isChunk
  rw [processSseLine_event read]
  simp only [processEvent, readInit, falsy, has.1, has.2, bind, Except.bind, if_true]
  rfl

/-! ## The lines of the relay -/

theorem splitLines_relay (events : List (E2eEvent rt native responseSk key)) :
    splitLines newline (relay events) = (events.flatMap fun e => [e.line, []], []) := by
  induction events with
  | nil => rfl
  | cons e events ih =>
      have shape : relay (e :: events) = e.line ++ newline :: ([] ++ newline :: relay events) := by
        simp [relay]
      rw [shape, splitLines_line newline e.oneLine, splitLines_line newline (by simp), ih]
      rfl

/-- With the key installed each event is a step of its own. -/
theorem stepsFrom_keyed (events : List (E2eEvent rt native responseSk key)) :
    stepsFrom rt native responseSk [] (some key) (events.flatMap fun e => [e.line, []]) =
      events.map fun e => ⟨e.line, some key, true⟩ := by
  induction events with
  | nil => rfl
  | cons e events ih =>
      have nonempty := e.line_ne_nil
      cases given : e.sealed with
      | none =>
          simp [stepsFrom, nonempty, e.init_result given, ih]
      | some plain =>
          simp [stepsFrom, nonempty, e.chunk_result given, ih]

theorem steps_relay (events : List (E2eEvent rt native responseSk key)) :
    steps rt native responseSk (relay events) = match events with
      | [] => []
      | e :: rest => ⟨e.line, none, true⟩ ::
          if e.sealed = none then rest.map (fun e => ⟨e.line, some key, true⟩) else [] := by
  unfold steps
  rw [splitLines_relay]
  cases events with
  | nil => rfl
  | cons e rest =>
      have nonempty := e.line_ne_nil
      cases given : e.sealed with
      | none =>
          simp [stepsFrom, nonempty, e.init_result given, stepsFrom_keyed, given]
      | some plain =>
          simp [stepsFrom, nonempty, e.early_result given, given]

theorem E2eEvent.handedOver (e : E2eEvent rt native responseSk key) :
    Step.handedOver rt native responseSk ⟨e.line, some key, true⟩ = e.sealed := by
  unfold Step.handedOver Step.result
  cases given : e.sealed with
  | none => simp [e.init_result given]
  | some plain => simp [e.chunk_result given]

theorem E2eEvent.delivered (e : E2eEvent rt native responseSk key) :
    Step.delivered rt native responseSk ⟨e.line, some key, true⟩ = e.sealed := by
  unfold Step.delivered Step.result
  cases given : e.sealed with
  | none => simp [e.init_result given]
  | some plain => simp [e.chunk_result given]

theorem E2eEvent.calm (e : E2eEvent rt native responseSk key) :
    Step.raises rt native responseSk ⟨e.line, some key, true⟩ = false := by
  unfold Step.raises Step.result
  cases given : e.sealed with
  | none => simp [e.init_result given]
  | some plain => simp [e.chunk_result given]

theorem decryptedLines_relay (events : List (E2eEvent rt native responseSk key)) :
    decryptedLines rt native responseSk (relay events) = inOrder events := by
  unfold decryptedLines
  rw [steps_relay]
  cases events with
  | nil => rfl
  | cons e rest =>
      cases given : e.sealed with
      | none =>
          have first : Step.handedOver rt native responseSk ⟨e.line, none, true⟩ = none := by
            simp [Step.handedOver, Step.result, e.init_result given]
          simp [inOrder, given, first, List.filterMap_map, E2eEvent.handedOver]
      | some plain =>
          simp [inOrder, given, Step.handedOver, Step.result, e.early_result given]

/-- An error report is made where an e2e event comes first. -/
theorem calls_relay (events : List (E2eEvent rt native responseSk key)) {pieces : List Bytes}
    (cut : pieces.flatten = relay events) (readError : Option Bytes) :
    ∃ report, (streamBody rt native responseSk pieces readError).calls =
        (inOrder events).map some ++ report ++ [none] ∧ (report ≠ [] → inOrder events = []) := by
  rw [streamBody_calls_steps, cut, steps_relay]
  cases events with
  | nil => exact ⟨[], rfl, fun _ => rfl⟩
  | cons e rest =>
      cases given : e.sealed with
      | none =>
          have first : Step.delivered rt native responseSk ⟨e.line, none, true⟩ = none := by
            simp [Step.delivered, Step.result, e.init_result given]
          have calm : Step.raises rt native responseSk ⟨e.line, none, true⟩ = false := by
            simp [Step.raises, Step.result, e.init_result given]
          refine ⟨[], ?_, fun some => absurd rfl some⟩
          simp [inOrder, given, first, calm, List.filterMap_map, Function.comp_def,
            E2eEvent.delivered, E2eEvent.calm]
      | some plain =>
          refine ⟨[some (errorLine rt "received e2e chunk before e2e_init")], ?_, fun _ => ?_⟩
          · simp [inOrder, given, Step.delivered, Step.raises, Step.result, e.early_result given]
          · simp [inOrder, given]

namespace Sample

def encapsulation : Bytes := List.replicate mlkemCtSize 0

/-- Lines are in their own base64, and a ciphertext is its plaintext. -/
def openNative : Native where
  decodeBase64 s :=
    if s = lit "ct" then some encapsulation
    else some (List.replicate 12 0 ++ s ++ List.replicate 16 0)
  mlkemDecapsulate _ _ := some []
  hkdfSha256 _ _ _ := some []
  chacha20Open _ _ ciphertext _ := some ciphertext

def openRuntime : Runtime := .ofDocuments [
  (lit "init", .obj [(lit "e2e_init", .str (lit "ct"))]),
  (lit "1", .obj [(lit "e2e", .str (lit "one"))]),
  (lit "2", .obj [(lit "e2e", .str (lit "two"))])]

abbrev Event := E2eEvent openRuntime openNative [] []

theorem ct_opens : decryptStreamInit openNative [] (some (.str (lit "ct"))) = .ok (.ok []) := by
  have size : encapsulation.length = mlkemCtSize := List.length_replicate
  have decoded : openNative.decodeBase64 (lit "ct") = some encapsulation := rfl
  simp only [decryptStreamInit, decodeBase64, orElse, decoded, bind, Except.bind, size]
  rfl

def init : Event where
  line := lit "data: init"
  sealed := none
  oneLine := by decide
  opens _ := ⟨_, some (.str (lit "ct")), rfl, ⟨rfl, rfl⟩, ct_opens⟩
  seals _ none := nomatch none

def chunk (text plain : String) (oneLine : newline ∉ lit text)
    (seals : Seals openRuntime openNative (lit text) [] (lit plain)) : Event where
  line := lit text
  sealed := some (lit plain)
  oneLine := oneLine
  opens none := nomatch none
  seals _ given := Option.some.inj given ▸ seals

def one : Event :=
  chunk "data: 1" "one" (by decide) ⟨_, some (.str (lit "one")), rfl, ⟨_, rfl, rfl⟩, ⟨rfl, rfl⟩, rfl⟩

def two : Event :=
  chunk "data: 2" "two" (by decide) ⟨_, some (.str (lit "two")), rfl, ⟨_, rfl, rfl⟩, ⟨rfl, rfl⟩, rfl⟩

end Sample

end E2eeProxy.Sse
