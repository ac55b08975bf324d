import E2eeProxy.Lib.Table
import E2eeProxy.ProxyState

/-! # Model resolution and nonces

e2ee_discovery.lua. Errors that go into the answer of a request are told by
what they say instead of by their text.
-/

namespace E2eeProxy.Discovery

open Lua Lib

inductive ModelError where
  | notFound
  | notConfidential
  | requestFailed (err : Bytes)
  | returned (status : Nat)
  | invalid
  deriving DecidableEq

inductive NonceError where
  | requestFailed (err : Bytes)
  | returned (status : Nat) (body : Bytes)
  | invalid (body : Bytes)
  | noneAvailable
  deriving DecidableEq

def isHexDigit (c : UInt8) : Bool :=
  (48 ≤ c && c ≤ 57) || (65 ≤ c && c ≤ 70) || (97 ≤ c && c ≤ 102)

def looksLikeUuid (s : Bytes) : Bool :=
  s.length = 36 && s.zipIdx.all fun (c, i) =>
    if i = 8 ∨ i = 13 ∨ i = 18 ∨ i = 23 then c = 45 else isHexDigit c

/-- `is_uuid(s)`, for the model a client named. -/
def isUuid : Value → LuaM Bool
  | .str s => .ok (looksLikeUuid s)
  | .bool false | .obj _ => .ok false
  | .arr items => if items.length = 36 then .error .call else .ok false
  | .null | .bool true | .num _ => .error .length

section Tasks

variable (cfg : Config) (pf : Platform)

/-! ## Models -/

/-- A model of the list, if it has an id and a chute. A table as id is a key that
    nothing finds. -/
def readModel (model : Value) : LuaM (Option (Value × ModelEntry)) := do
  let id ← index (some model) "id"
  let chuteId ← index (some model) "chute_id"
  let confidential ← index (some model) "confidential_compute"
  match id.filter fun v => truthy (some v) && !isTable (some v),
      chuteId.filter fun v => truthy (some v) with
  | some id, some chuteId =>
      return some (id, { chuteId, confidential := confidential = some (.bool true) })
  | _, _ => return none

def readModelMap (data : Value) : LuaM (Option (List (Value × ModelEntry))) := do
  let models ← index (some data) "data"
  if truthy models then
    let entries ← (← ipairs models).mapM readModel
    return some (entries.reduceOption.foldl (fun map (id, entry) => setEntry id entry map) [])
  else return none

def fetchModelMap (apiKey : Bytes) :
    Prog (Except ModelError (List (Value × ModelEntry))) := do
  match ← await (.models (cfg.modelsBase ++ lit "/v1/models") apiKey) with
  | .error err => return .error (.requestFailed err)
  | .ok res =>
      if res.status ≠ 200 then return .error (.returned res.status)
      else
        match pf.decodeTruthy res.body with
        | none => return .error .invalid
        | some data =>
            match ← lua (readModelMap data) with
            | none => return .error .invalid
            | some map => return .ok map

/-- The texts of its errors name the model, which raises unless it is one to name. -/
def checkConfidential (model : Value) (entry : Option ModelEntry) :
    Prog (Except ModelError Value) :=
  match entry with
  | none => do
      let _ ← lua (pf.concatArg (some model))
      return .error .notFound
  | some entry =>
      if ¬ entry.confidential ∧ ¬ cfg.allowNonConfidential then do
        let _ ← lua (pf.concatArg (some model))
        return .error .notConfidential
      else return .ok entry.chuteId

/-- `map[model]`. -/
def lookupModel (map : Option (List (Value × ModelEntry))) (model : Value) : Option ModelEntry :=
  map.bind fun entries => entries.lookup model

/-- The model is not in a cached list that still counts. -/
def refreshModels (model : Value) (apiKey : Bytes) (now : Rat) :
    Prog (Except ModelError Value) := do
  match ← fetchModelMap cfg pf apiKey with
  | .error err =>
      let st ← getState
      match lookupModel st.modelMap model with
      | some entry => checkConfidential cfg pf model (some entry)
      | none => do
          let _ ← lua (pf.concatArg (some model))
          return .error err
  | .ok map =>
      modifyState fun st =>
        { st with modelMap := some map, modelMapExpires := now + cfg.modelMapTtlS }
      checkConfidential cfg pf model (lookupModel (some map) model)

/-- Resolve a model name (or UUID) to a chute_id. -/
def resolveChuteId (model : Value) (apiKey : Bytes) : Prog (Except ModelError Value) := do
  if ← lua (isUuid model) then return .ok model
  else
    let now ← ngxNow
    let st ← getState
    match (lookupModel st.modelMap model).filter fun _ => now < st.modelMapExpires with
    | some entry => checkConfidential cfg pf model (some entry)
    | none => refreshModels cfg pf model apiKey now

/-! ## Nonces -/

/-- An entry of `data.instances`. The loop that counts the nonces raises where
    they, or the key beside them, have no length. -/
def readInstance (address : Nat) (v : Value) : LuaM Instance := do
  let nonces ← index (some v) "nonces"
  let instanceId ← index (some v) "instance_id"
  let e2ePubkey ← index (some v) "e2e_pubkey"
  let truly (field : Option Value) := field.filter fun v => truthy (some v)
  match truly nonces with
  | some nonces => do
      let _ ← length nonces
      match truly e2ePubkey with
      | some key => do
          let _ ← length key
      | none => pure ()
  | none => pure ()
  return { instanceId := (truly instanceId).map (Id.of address), e2ePubkey := truly e2ePubkey,
           nonces := truly nonces }

/-- The instances of a document and the lifetime of their nonces. -/
def readInstances (tables : Nat) (body : Bytes) : LuaM (Option (List Instance × Rat)) := do
  match pf.decodeTruthy body with
  | none => return none
  | some data =>
      let instances ← index (some data) "instances"
      if isTable instances then
        let lifetime ← index (some data) "nonce_expires_in"
        let items ← ipairs instances
        let read ← items.zipIdx.mapM fun (v, i) => readInstance (tables + i) v
        return some (read, (pf.toNumber lifetime).getD 55)
      else return none

/-- What `fetch_instances` makes of the answer. -/
def receiveInstances (answer : Except Bytes Response) : Prog (Except NonceError Batch) :=
  match answer with
  | .error err => return .error (.requestFailed err)
  | .ok res => do
      if res.status ≠ 200 then return .error (.returned res.status (res.body.take 300))
      else
        let now ← ngxNow
        let st ← getState
        match ← lua (readInstances pf st.tables res.body) with
        | none => return .error (.invalid (res.body.take 200))
        | some (instances, lifetime) =>
            modifyState fun st => { st with tables := st.tables + instances.length }
            return .ok { instances, expiresAt := now + lifetime }

def fetchInstances (chuteId : Value) (apiKey : Bytes) : Prog (Except NonceError Batch) := do
  let chute ← lua (pf.concatArg (some chuteId))
  receiveInstances pf
    (← await (.instances (cfg.apiBase ++ lit "/e2e/instances/" ++ chute) apiKey))

def setCache (chuteId : Value) (batch : Option Batch) : Prog Unit :=
  modifyState fun st => { st with nonceCache := Function.update st.nonceCache chuteId batch }

/-- `table.remove(inst.nonces, 1)`. -/
def removeNonce (inst : Instance) : LuaM (Value × Instance) :=
  match inst.nonces with
  | some (.arr (nonce :: rest)) => .ok (nonce, { inst with nonces := some (.arr rest) })
  | some (.str _) => .error .badArgument
  | _ => .error .index

/-- The nonce is logged by `nonce:sub(1, 8)`, which raises unless it is a string. -/
def nonceText : Value → LuaM Bytes
  | .str s => .ok s
  | .arr _ | .obj _ => .error .call
  | .null | .bool _ | .num _ => .error .index

/-- Takes a nonce of the instance that was picked. -/
def takeFrom (chuteId : Value) (cached : Batch) (c : Selector.Cand) (reason : Selector.Reason) :
    Prog (Option Taken) :=
  match cached.instances[c.index]? with
  | none => return none
  | some inst => do
      let (nonce, rest) ← lua (removeNonce inst)
      setCache chuteId (some { cached with instances := cached.instances.set c.index rest })
      let nonce ← lua (nonceText nonce)
      let taken : Taken :=
        { inst := { instanceId := c.id, e2ePubkey := inst.e2ePubkey }, nonce, reason }
      record (.handedOut taken)
      return some taken

/-- Take one nonce from the cache, choosing the instance via the selector. -/
def takeNonce (chuteId : Value) (mode : Bytes) : Prog (Option Taken) := do
  let st ← getState
  match st.nonceCache chuteId with
  | none => return none
  | some cached =>
      let now ← ngxNow
      if cached.expiresAt ≤ now then
        setCache chuteId none
        return none
      else
        let rolls ← ask .roll
        let (selector, picked) :=
          Selector.pick cfg pf now rolls st.selector cached.instances chuteId mode
        modifyState fun st => { st with selector := selector }
        match picked with
        | none =>
            -- All nonces consumed
            setCache chuteId none
            return none
        | some (c, reason) => takeFrom chuteId cached c reason

/-- Invalidate cached nonces for a chute. -/
def invalidateNonces (chuteId : Value) (instanceId : Option Id) : Prog Unit := do
  setCache chuteId none
  let now ← ngxNow
  modifyState fun st =>
    { st with selector := Selector.invalidate cfg now st.selector chuteId instanceId }

/-- What `get_nonce` does with a batch it has fetched. -/
def takeFresh (chuteId : Value) (mode : Bytes) (batch : Batch) :
    Prog (Except NonceError Taken) := do
  setCache chuteId (some batch)
  match ← takeNonce cfg pf chuteId mode with
  | some taken => return .ok taken
  | none => return .error .noneAvailable

/-- Get an instance and nonce for a chute. -/
def getNonce (chuteId : Value) (apiKey mode : Bytes) : Prog (Except NonceError Taken) := do
  match ← takeNonce cfg pf chuteId mode with
  | some taken => return .ok taken
  | none =>
      match ← fetchInstances cfg pf chuteId apiKey with
      | .error err => return .error err
      | .ok batch => takeFresh cfg pf chuteId mode batch

end Tasks

end E2eeProxy.Discovery
