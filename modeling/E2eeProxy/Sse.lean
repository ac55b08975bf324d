import E2eeProxy.Crypto
import E2eeProxy.Lib.LineReader

/-! # The streaming half of e2ee_round_trip

`processSseLine` classifies one line of the relay's event stream and
`streamBody` is the read loop around it, up to the terminating `on_chunk(nil)`.
The sequence of `on_chunk` calls is `calls`, where `none` is the terminator. A
Lua error stops everything, so it is a field of the state, not an early exit.
-/

namespace E2eeProxy.Sse

open Lua Crypto Lib

/-- What `process_sse_line` returns: event type, data and error text. -/
inductive SseEvent where
  | none
  | done
  | init (key : Bytes)
  | chunk (data : Bytes)
  | passthrough (line : Bytes)
  | error (err : String)

def newline : UInt8 := 10

/-- `line:gsub("\r$", "")`. -/
def stripCr (line : Bytes) : Bytes :=
  if line.getLast? = some 13 then line.dropLast else line

section Lines

variable (rt : Runtime) (native : Native) (responseSk : Bytes)

/-- The JSON text of a data line, `none` for a line that carries none. -/
def payload (line : Bytes) : Option Bytes :=
  if startsWith (lit "data: ") (stripCr line) then some (trim ((stripCr line).drop 6))
  else none

/-- The dispatch on a decoded event: e2e_init before e2e before usage before
    e2e_error. -/
def processEvent (line : Bytes) (streamKey : Option Bytes) (event : Value) : LuaM SseEvent := do
  let e2eInit ← index (some event) "e2e_init"
  if truthy e2eInit then
    match ← decryptStreamInit native responseSk e2eInit with
    | .error err => return .error ("stream init failed: " ++ err)
    | .ok key => return .init key
  else
    let e2e ← index (some event) "e2e"
    if truthy e2e then
      match streamKey with
      | none => return .error "received e2e chunk before e2e_init"
      | some key =>
          match ← decryptStreamChunk native e2e key with
          | .error err => return .error ("chunk decryption failed: " ++ err)
          | .ok decrypted => return .chunk decrypted
    else
      let usage ← index (some event) "usage"
      if truthy usage then
        return .passthrough (stripCr line)
      else
        let e2eError ← index (some event) "e2e_error"
        if truthy e2eError then
          -- cjson.safe gives nil for what it cannot encode, and `..` raises.
          let report := .obj [(lit "error", orElse e2eError .null)]
          if rt.encodes report then return .chunk (lit "data: " ++ rt.encode report)
          else throw .concat
        else
          return .none

/-- Process one SSE line. -/
def processSseLine (line : Bytes) (streamKey : Option Bytes) : LuaM SseEvent :=
  match payload line with
  | none => .ok .none
  | some raw =>
      if raw = lit "[DONE]" then .ok .done
      else if raw = [] then .ok .none
      else match rt.decodeTruthy raw with
        | none => .ok .none
        | some event => processEvent rt native responseSk line streamKey event

/-- `{ error = { message = err, type = "proxy_error" } }` -/
def errorReport (err : String) : Value :=
  .obj [(lit "error", .obj [(lit "message", .str (lit err)), (lit "type", .str (lit "proxy_error"))])]

def errorLine (err : String) : Bytes := lit "data: " ++ rt.encode (errorReport err)

/-- The locals of the streaming loop that outlive one line. -/
structure StreamState where
  streamKey : Option Bytes := none
  doneSent : Bool := false
  firstChunkSeen : Bool := false
  hadError : Bool := false
  calls : List (Option Bytes) := []
  raised : Option LuaError := none

namespace StreamState

def stopped (s : StreamState) : Bool := s.doneSent || s.raised.isSome

def onChunk (s : StreamState) (line : Option Bytes) : StreamState :=
  { s with calls := s.calls ++ [line] }

def deliver (s : StreamState) (line : Bytes) : StreamState :=
  { s with firstChunkSeen := true }.onChunk (some line)

def handle (s : StreamState) : SseEvent → StreamState
  | .none => s
  | .init key => { s with streamKey := some key }
  | .chunk data | .passthrough data => s.deliver data
  | .done => { s.onChunk none with doneSent := true }
  | .error err =>
      { ({ s with hadError := true }.onChunk (some (errorLine rt err))).onChunk none with
        doneSent := true }

/-- One complete line; an empty one is skipped. -/
def handleLine (s : StreamState) (line : Bytes) : StreamState :=
  if line = [] then s
  else match processSseLine rt native responseSk line s.streamKey with
    | .ok event => s.handle rt event
    | .error e => { s with raised := some e }

/-- The two nested loops over the body: `LineReader.read` appends each piece to
    the buffer and handles the lines it completes until `done_sent`. -/
def reader : LineReader UInt8 StreamState where
  newline := newline
  stopped := stopped
  step s line := s.handleLine rt native responseSk line

/-- How the loop ends: `readError` is the error of the last read, `none` at the
    end of the body. A stream that is already done is not read to its end. -/
def readEnd (s : StreamState) (readError : Option Bytes) : StreamState :=
  if s.stopped then s else { s with hadError := s.hadError || readError.isSome }

/-- The trailing partial line. -/
def trailing (s : StreamState) (buffer : Bytes) : StreamState :=
  if buffer = [] || s.stopped then s
  else match processSseLine rt native responseSk buffer s.streamKey with
    | .error e => { s with raised := some e }
    | .ok (.chunk data) | .ok (.passthrough data) => s.deliver data
    | .ok .done => { s.onChunk none with doneSent := true }
    | .ok _ => s

def finish (s : StreamState) : StreamState :=
  if s.stopped then s else s.onChunk none

end StreamState

/-- How the request is counted in e2ee_requests_total. -/
inductive Outcome where
  | ok
  | error
  | streamError
  deriving DecidableEq, Repr

/-- The label under which the stream is counted; a raised error counts nothing. -/
def StreamState.outcome (s : StreamState) : Option Outcome :=
  if s.raised.isSome then none
  else if s.hadError then some .streamError else some .ok

/-- The whole streaming part, for the pieces and the ending of one body. -/
def streamBody (chunks : List Bytes) (readError : Option Bytes) : StreamState :=
  let read := (StreamState.reader rt native responseSk).read chunks [] {}
  ((read.2.readEnd readError).trailing rt native responseSk read.1).finish

end Lines

end E2eeProxy.Sse
