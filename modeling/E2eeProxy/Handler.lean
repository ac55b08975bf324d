import E2eeProxy.Attest
import E2eeProxy.Discovery

/-! # The round trip of a request

`e2ee_round_trip`: model, instance and nonce, attestation, encryption, the POST
and one retry. Of a response what matters to the shared state is told; how a
stream is read and relayed is the subject of another module.
-/

namespace E2eeProxy.Handler

open Lua Lib

/-- What a failed round trip is answered with. -/
inductive Reason where
  | model (err : Discovery.ModelError)
  | nonce (err : Discovery.NonceError)
  | attestation (err : Option Attest.AttestError)
  | encryption (err : Bytes)
  | connect (err : Bytes)
  | request (err : Bytes)
  | upstream (body : Bytes)
  | empty
  | decrypt (err : Bytes)
  | noReader

structure Failure where
  status : Nat
  reason : Reason

/-- The arguments of `e2ee_round_trip`. -/
structure Call where
  apiKey : Bytes
  model : Value
  bodyJson : Bytes
  isStreaming : Bool
  e2ePath : Bytes
  mode : Bytes

/-- What the attempts leave to the rest of the round trip. -/
structure Reply where
  inst : InstanceInfo
  responseSk : Bytes
  status : Nat
  ttfb : Rat

section Routines

variable (cfg : Config) (pf : Platform) (call : Call)

/-- `selector.record`. -/
def recordOutcome (chuteId : Value) (id : Id) (ttft : Option Rat) (ok : Bool) : Prog Unit := do
  let now ← ngxNow
  modifyState fun st =>
    { st with selector := Selector.record cfg now st.selector chuteId id ttft ok }

/-- `selector.invalidate`. -/
def dropInstance (chuteId : Value) (id : Id) : Prog Unit := do
  let now ← ngxNow
  modifyState fun st =>
    { st with selector := Selector.invalidate cfg now st.selector chuteId (some id) }

/-- Picks an instance whose key passes attestation. A rejected instance is dropped
    and a fresh discovery round is forced. -/
def pickAttested (chuteId : Value) :
    Nat → Option Attest.AttestError → Prog (Except Failure Taken)
  | 0, err => return .error ⟨502, .attestation err⟩
  | picks + 1, _ => do
      match ← Discovery.getNonce cfg pf chuteId call.apiKey call.mode with
      | .error err => return .error ⟨503, .nonce err⟩
      | .ok taken =>
          match ← Attest.guard cfg pf chuteId taken.inst.instanceId taken.inst.e2ePubkey
              call.apiKey with
          | .ok _ => return .ok taken
          | .error err =>
              Attest.invalidate taken.inst.instanceId
              Discovery.invalidateNonces cfg chuteId (some taken.inst.instanceId)
              pickAttested chuteId picks (some err)

def invocation (chuteId : Value) (taken : Taken) (blob : Bytes) : Invocation where
  apiKey := call.apiKey
  chuteId := chuteId
  instanceId := taken.inst.instanceId
  nonce := taken.nonce
  streaming := call.isStreaming
  e2ePath := call.e2ePath
  blob := blob

/-- Connect and send. `again` is the next attempt, if there is one: it is made
    after a 403 whose body names a nonce. -/
def send (again : Option (Prog (Except Failure Reply))) (chuteId : Value) (taken : Taken)
    (blob responseSk : Bytes) : Prog (Except Failure Reply) := do
  let id := taken.inst.instanceId
  match ← await .connect with
  | .error err =>
      dropInstance cfg chuteId id
      return .error ⟨502, .connect err⟩
  | .ok _ =>
      let sent ← ngxNow
      match ← await (.invoke (invocation call chuteId taken blob)) with
      | .error err =>
          recordOutcome cfg chuteId id none false
          dropInstance cfg chuteId id
          return .error ⟨502, .request err⟩
      | .ok status =>
          let now ← ngxNow
          match again.filter fun _ => status = 403 with
          | none => return .ok { inst := taken.inst, responseSk, status, ttfb := now - sent }
          | some next =>
              let body := (← await .readBody).getD []
              if occurs (lit "nonce") body then
                Discovery.invalidateNonces cfg chuteId (some id)
                next
              else return .error ⟨403, .upstream body⟩

def attempt (again : Option (Prog (Except Failure Reply))) (chuteId : Value) :
    Prog (Except Failure Reply) := do
  match ← pickAttested cfg pf call chuteId 3 none with
  | .error failure => return .error failure
  | .ok taken =>
      match ← ask (.build taken.inst call.bodyJson) with
      | .error err => return .error ⟨500, .encryption err⟩
      | .ok (blob, responseSk) => send cfg call again chuteId taken blob responseSk

/-- A response that is not streamed. -/
def finishWhole (chuteId : Value) (reply : Reply) : Prog (Except Failure (Option Bytes)) := do
  let id := reply.inst.instanceId
  match (← await .readBody).filter fun body => body ≠ [] with
  | none =>
      recordOutcome cfg chuteId id none false
      return .error ⟨502, .empty⟩
  | some blob =>
      match ← ask (.decryptResponse blob reply.responseSk) with
      | .error err =>
          recordOutcome cfg chuteId id none false
          return .error ⟨502, .decrypt err⟩
      | .ok decrypted =>
          recordOutcome cfg chuteId id (some reply.ttfb) true
          return .ok (some decrypted)

/-- A response that is streamed counts from the first line that is delivered. -/
def finishStream (chuteId : Value) (reply : Reply) : Prog (Except Failure (Option Bytes)) := do
  let id := reply.inst.instanceId
  let begun ← ngxNow
  match ← await (.streamStart reply.responseSk) with
  | .noReader => return .error ⟨502, .noReader⟩
  | .ended true =>
      recordOutcome cfg chuteId id none false
      return .ok none
  | .ended false =>
      recordOutcome cfg chuteId id (some reply.ttfb) true
      return .ok none
  | .delivered =>
      let now ← ngxNow
      recordOutcome cfg chuteId id (some (now - begun + reply.ttfb)) true
      if ← await .streamRest then
        recordOutcome cfg chuteId id none false
      return .ok none

/-- What comes after the attempts. -/
def finish (chuteId : Value) (reply : Reply) : Prog (Except Failure (Option Bytes)) := do
  let id := reply.inst.instanceId
  if reply.status ≠ 200 then
    let body := (← await .readBody).getD []
    recordOutcome cfg chuteId id none false
    if 500 ≤ reply.status then
      dropInstance cfg chuteId id
    return .error ⟨reply.status, .upstream body⟩
  else if call.isStreaming then finishStream cfg chuteId reply
  else finishWhole cfg chuteId reply

/-- The two attempts. -/
def attempts (chuteId : Value) : Prog (Except Failure Reply) :=
  attempt cfg pf call (some (attempt cfg pf call none chuteId)) chuteId

/-- E2EE round trip: the decrypted response, or nothing after a stream. -/
def e2eeRoundTrip : Prog (Except Failure (Option Bytes)) := do
  match ← Discovery.resolveChuteId cfg pf call.model call.apiKey with
  | .error err => return .error ⟨404, .model err⟩
  | .ok chuteId =>
      record (.resolved call.model chuteId)
      match ← attempts cfg pf call chuteId with
      | .error failure => return .error failure
      | .ok reply => finish cfg call chuteId reply

end Routines

end E2eeProxy.Handler
