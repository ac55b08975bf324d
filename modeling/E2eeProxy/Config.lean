import E2eeProxy.Lua.Value

/-! # The configuration

What e2ee_config.lua reads from the environment, as far as routing, discovery
and attestation use it. The bounds are those `env_num` clamps to.
-/

namespace E2eeProxy

open Lua

/-- `ROUTE_MODES`. -/
inductive RouteMode where
  | agent
  | balanced
  | performance
  | default
  deriving DecidableEq, Repr

/-- `VALID[name]`, with the mode. -/
def RouteMode.ofName (name : Bytes) : Option RouteMode :=
  if name = lit "agent" then some .agent
  else if name = lit "balanced" then some .balanced
  else if name = lit "performance" then some .performance
  else if name = lit "default" then some .default
  else none

inductive AttestMode where
  | enforce
  | observe
  | off
  deriving DecidableEq, Repr

structure Config where
  apiBase : Bytes
  modelsBase : Bytes
  routeMode : RouteMode
  balancedN : Rat
  pinInstanceId : Option Bytes
  perfEwmaAlpha : Rat
  perfHalfLifeS : Rat
  perfColdStartS : Rat
  routeBanS : Rat
  modelMapTtlS : Rat
  allowNonConfidential : Bool
  attestMode : AttestMode
  attestTtlS : Rat
  attestFailTtlS : Rat
  attestAllowDebugTd : Bool
  attestMrtd : Bytes
  attestRtmr0 : Bytes
  attestRtmr1 : Bytes
  attestRtmr2 : Bytes
  attestRtmr3 : Bytes
  attestUrls : Option Bytes
  balancedN_pos : 1 ≤ balancedN
  attestTtlS_pos : 1 ≤ attestTtlS

/-- With no environment variable set. -/
def defaultConfig : Config where
  apiBase := lit "https://api.chutes.ai"
  modelsBase := lit "https://llm.chutes.ai"
  routeMode := .balanced
  balancedN := 3
  pinInstanceId := none
  perfEwmaAlpha := 3 / 10
  perfHalfLifeS := 300
  perfColdStartS := 1 / 2
  routeBanS := 60
  modelMapTtlS := 300
  allowNonConfidential := false
  attestMode := .enforce
  attestTtlS := 600
  attestFailTtlS := 300
  attestAllowDebugTd := false
  attestMrtd := []
  attestRtmr0 := []
  attestRtmr1 := []
  attestRtmr2 := []
  attestRtmr3 := []
  attestUrls := none
  balancedN_pos := by decide
  attestTtlS_pos := by decide

/-- What the platform computes for these modules besides JSON: `0.5 ^ x`,
    SHA-256 and `ngx.decode_base64`. -/
structure Platform extends Runtime where
  halfPower : Rat → Rat
  sha256 : Bytes → Bytes
  decodeBase64 : Bytes → Option Bytes

end E2eeProxy
