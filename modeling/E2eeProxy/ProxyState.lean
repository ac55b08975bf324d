import E2eeProxy.Lib.Coop
import E2eeProxy.Selector

/-! # The state of the worker

The module-level tables of e2ee_discovery.lua, instance_selector.lua and
e2ee_attest.lua are shared by all requests of the one worker. A request is a
task on them: it gives way to the others at its network calls and nowhere else.
-/

namespace E2eeProxy

open Lua Lib

structure ModelEntry where
  chuteId : Value
  confidential : Bool

/-- The instances of a chute with the nonces that are left. -/
structure Batch where
  instances : List Instance
  expiresAt : Rat

structure Verified where
  pubkeyFp : Bytes
  expiresAt : Rat

/-- What `get_nonce` returns of an instance. -/
structure InstanceInfo where
  instanceId : Id
  e2ePubkey : Option Value

structure Taken where
  inst : InstanceInfo
  nonce : Bytes
  reason : Selector.Reason

/-- `tables` counts the entries of /e2e/instances that were decoded so far: the
    addresses that were given out to them. -/
structure ProxyState where
  modelMap : Option (List (Value × ModelEntry))
  modelMapExpires : Rat
  nonceCache : Value → Option Batch
  selector : Selector.State
  tables : Nat
  goodUrlTemplate : Option Bytes
  verified : Id → Option Verified
  failed : Id → Option Verified

def ProxyState.new : ProxyState where
  modelMap := none
  modelMapExpires := 0
  nonceCache _ := none
  selector _ := none
  tables := 0
  goodUrlTemplate := none
  verified _ := none
  failed _ := none

/-- The answer to a GET. -/
structure Response where
  status : Nat
  body : Bytes

/-- The POST to /e2e/invoke, as far as its headers and body differ by request. -/
structure Invocation where
  apiKey : Bytes
  chuteId : Value
  instanceId : Id
  nonce : Bytes
  streaming : Bool
  e2ePath : Bytes
  blob : Bytes

/-- What the code has done outside: the GETs of the model list, of the instances
    and of the evidence, the draws of random bytes and of the selector, the calls
    of the crypto module and the steps of the POST. What comes of reading a
    stream is told up to the first line that is delivered and from there on. -/
inductive Request where
  | models (url apiKey : Bytes)
  | instances (url apiKey : Bytes)
  | evidence (url apiKey : Bytes)
  | random (n : Nat)
  | roll
  | build (inst : InstanceInfo) (payload : Bytes)
  | connect
  | invoke (post : Invocation)
  | readBody
  | decryptResponse (blob responseSk : Bytes)
  | streamStart (responseSk : Bytes)
  | streamRest

/-- A stream that ended, with or without a line that was delivered. -/
inductive StreamStart where
  | noReader
  | ended (hadError : Bool)
  | delivered

/-- Errors are the texts that come with a `nil`. -/
@[reducible] def Request.Answer : Request → Type
  | models _ _ | instances _ _ | evidence _ _ => Except Bytes Response
  | random _ => Option Bytes
  | roll => Selector.Rolls
  | build _ _ => Except Bytes (Bytes × Bytes)
  | connect => Except Bytes Unit
  | invoke _ => Except Bytes Nat
  | readBody => Option Bytes
  | decryptResponse _ _ => Except Bytes Bytes
  | streamStart _ => StreamStart
  | streamRest => Bool

/-- What is recorded: `resolve_chute_id` returning a chute and `get_nonce` returning
    a nonce. -/
inductive ProxyEvent where
  | resolved (model chuteId : Value)
  | handedOut (taken : Taken)

abbrev proxy : Interface where
  State := ProxyState
  Request := Request
  Answer := Request.Answer
  Event := ProxyEvent
  Error := LuaError

abbrev Prog (β : Type) := Routine proxy β

/-- A computation that raises ends the task. -/
def lua {β : Type} : LuaM β → Prog β
  | .ok b => .done b
  | .error e => .fail e

def getState : Prog ProxyState := .get .done

def modifyState (f : ProxyState → ProxyState) : Prog Unit := .modify f (.done ())

/-- `ngx.now()`. -/
def ngxNow : Prog Rat := .now .done

def record (e : ProxyEvent) : Prog Unit := .record e (.done ())

/-- A call that is answered before anything else runs. -/
def ask (r : Request) : Prog r.Answer := .ask r .done

/-- A call that lets the other requests run. -/
def await (r : Request) : Prog r.Answer := .await r .done

end E2eeProxy
