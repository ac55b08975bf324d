import E2eeProxy.Config
import Mathlib.Algebra.Order.Ring.Rat
import Mathlib.Logic.Function.Basic

/-! # Choosing an instance

instance_selector.lua. Its state is kept by chute. Instances are picked by their
place in the list that was handed in, so that the caller can take a nonce from
that very entry.
-/

namespace E2eeProxy

open Lua

/-- A Lua value as `==` compares it: a table is told by its address. -/
structure Id where
  value : Value
  address : Option Nat
  deriving DecidableEq

/-- The value, at that address if it is a table. -/
def Id.of (address : Nat) (v : Value) : Id :=
  ⟨v, if isTable (some v) then some address else none⟩

/-- An entry of /e2e/instances: the fields that are read, where they are truthy. -/
structure Instance where
  instanceId : Option Id
  e2ePubkey : Option Value
  nonces : Option Value

/-- `#inst.nonces`. -/
def Instance.nonceCount (inst : Instance) : Nat :=
  match inst.nonces with
  | some (.arr items) => items.length
  | some (.str s) => s.length
  | _ => 0

namespace Selector

structure Stats where
  ewma : Rat
  n : Nat
  last : Rat
  fails : Nat

structure ChuteState where
  sticky : Option Id
  ring : List Id
  ringPos : Nat
  stats : Id → Option Stats
  banned : Id → Option Rat

/-- `state`, by chute_id. -/
abbrev State := Value → Option ChuteState

def newChuteState : ChuteState where
  sticky := none
  ring := []
  ringPos := 0
  stats _ := none
  banned _ := none

/-- A candidate: an instance with an id and nonces, and its place in the list. -/
structure Cand where
  index : Nat
  id : Id
  deriving DecidableEq

inductive Reason where
  | pin
  | first
  | sticky
  | new
  | single
  | p2c
  | ring
  | ringNew
  deriving DecidableEq, Repr

/-- What the two calls of `math.random` in a pick would draw, up to the range. -/
structure Rolls where
  first : Nat
  second : Nat

def eligible (instances : List Instance) : List Cand :=
  instances.zipIdx.filterMap fun (inst, i) =>
    if 0 < inst.nonceCount then inst.instanceId.map fun id => ⟨i, id⟩ else none

def find (cands : List Cand) (id : Id) : Option Cand := cands.find? fun c => c.id = id

def present (instances : List Instance) (id : Id) : Bool :=
  instances.any fun inst => inst.instanceId = some id

/-- The instance may be picked at time `t` as far as bans go. -/
def allowed (cs : ChuteState) (t : Rat) (id : Id) : Bool := (cs.banned id).all fun until' => until' ≤ t

/-- Drops the candidates that are banned, unless that would leave nothing to
    pick from, and the bans that have passed. -/
def withoutBanned (t : Rat) (cs : ChuteState) (cands : List Cand) : ChuteState × List Cand :=
  let out := cands.filter fun c => allowed cs t c.id
  ({ cs with banned := fun id => if out.any fun c => c.id = id then none else cs.banned id },
    if out = [] then cands else out)

section Pick

variable (cfg : Config) (pf : Platform) (now : Rat)

def score (cs : ChuteState) (id : Id) : Rat :=
  match cs.stats id with
  | none => cfg.perfColdStartS
  | some st =>
      if st.n = 0 then cfg.perfColdStartS
      else cfg.perfColdStartS + (st.ewma - cfg.perfColdStartS) *
        pf.halfPower ((now - st.last) / cfg.perfHalfLifeS)

/-- The faster of two different candidates that are drawn. -/
def pickPerformance (rolls : Rolls) (cs : ChuteState) (cands : List Cand) :
    Option (Cand × Reason) :=
  if cands.length = 1 then cands.head?.map fun c => (c, .single)
  else
    let i := rolls.first % cands.length
    let j := rolls.second % (cands.length - 1)
    let j := if i ≤ j then j + 1 else j
    match cands[i]?, cands[j]? with
    | some a, some b =>
        some (if score cfg pf now cs a.id ≤ score cfg pf now cs b.id then (a, .p2c) else (b, .p2c))
    | _, _ => none

/-- The candidate with the least score, the first of them if there are more. -/
def fastest (cs : ChuteState) (c : Cand) (cands : List Cand) : Cand :=
  cands.foldl (fun chosen c =>
    if score cfg pf now cs c.id < score cfg pf now cs chosen.id then c else chosen) c

def pickAgent (cs : ChuteState) (cands : List Cand) : ChuteState × Option (Cand × Reason) :=
  match cs.sticky.bind (find cands), cands with
  | some c, _ => ({ cs with sticky := some c.id }, some (c, .sticky))
  | none, [] => (cs, none)
  | none, c :: cands =>
      let chosen := fastest cfg pf now cs c (c :: cands)
      ({ cs with sticky := some chosen.id }, some (chosen, .new))

def pruneRing (ring : List Id) (instances : List Instance) : List Id :=
  ring.filter fun id => present instances id

def fillRing (ring : List Id) : List Cand → List Id
  | [] => ring
  | c :: cands =>
      if cfg.balancedN ≤ ring.length then ring
      else fillRing (if c.id ∈ ring then ring else ring ++ [c.id]) cands

/-- The first member of the ring after the last position that is a candidate,
    with its own position. -/
def nextInRing (ring : List Id) (ringPos : Nat) (cands : List Cand) : Option (Nat × Cand) :=
  (List.range ring.length).findSome? fun step =>
    let idx := (ringPos + step) % ring.length
    (ring[idx]?.bind (find cands)).map fun c => (idx + 1, c)

def pickBalanced (cs : ChuteState) (instances : List Instance) (cands : List Cand) :
    ChuteState × Option (Cand × Reason) :=
  let members := pruneRing cs.ring instances
  let ring := fillRing cfg members cands
  match nextInRing ring cs.ringPos cands with
  | some (pos, c) =>
      ({ cs with ring := ring, ringPos := pos },
        some (c, if c.id ∈ members then .ring else .ringNew))
  | none => ({ cs with ring := ring }, none)

/-- The choice by mode. -/
def choose (rolls : Rolls) (mode : RouteMode) (cs : ChuteState) (instances : List Instance)
    (cands : List Cand) : ChuteState × Option (Cand × Reason) :=
  match mode with
  | .default => (cs, cands.head?.map fun c => (c, .first))
  | .agent => pickAgent cfg pf now cs cands
  | .balanced => pickBalanced cfg cs instances cands
  | .performance => (cs, pickPerformance cfg pf now rolls cs cands)

/-- `PIN_INSTANCE_ID`, if it is a candidate. -/
def pinned (cands : List Cand) : Option Cand :=
  cfg.pinInstanceId.bind fun id => find cands ⟨.str id, none⟩

/-- `mode`, or `ROUTE_MODE` if it is none. -/
def modeOf (mode : Bytes) : RouteMode := (RouteMode.ofName mode).getD cfg.routeMode

/-- The state a chute starts a pick in. -/
def chuteState (st : State) (chute : Value) : ChuteState := (st chute).getD newChuteState

def pick (rolls : Rolls) (st : State) (instances : List Instance) (chute : Value) (mode : Bytes) :
    State × Option (Cand × Reason) :=
  if eligible instances = [] then (st, none)
  else
    let free := withoutBanned now (chuteState st chute) (eligible instances)
    match pinned cfg free.2 with
    | some c => (Function.update st chute (some free.1), some (c, .pin))
    | none =>
        let chosen := choose cfg pf now rolls (modeOf cfg mode) free.1 instances free.2
        (Function.update st chute (some chosen.1), chosen.2)

/-- What a request served by an instance counts as; a failure is a very slow one. -/
def sample (ttft : Option Rat) (ok : Bool) (st : Stats) : Option Rat :=
  if ok then ttft
  else some (max ((if 0 < st.n then st.ewma else cfg.perfColdStartS) * 4) 10)

def record (st : State) (chute : Value) (id : Id) (ttft : Option Rat) (ok : Bool) : State :=
  let cs := chuteState st chute
  let old := (cs.stats id).getD { ewma := 0, n := 0, last := 0, fails := 0 }
  let counted := { old with fails := if ok then old.fails else old.fails + 1 }
  let stats :=
    match sample cfg ttft ok old with
    | none => counted
    | some s =>
        if s < 0 then counted
        else { counted with
                ewma := if old.n = 0 then s
                  else cfg.perfEwmaAlpha * s + (1 - cfg.perfEwmaAlpha) * old.ewma
                n := old.n + 1
                last := now }
  Function.update st chute (some { cs with stats := Function.update cs.stats id (some stats) })

/-- Drops the stickiness of an instance and bans it, or all state of the chute. -/
def invalidate (st : State) (chute : Value) (id : Option Id) : State :=
  match st chute, id with
  | none, _ => st
  | some _, none => Function.update st chute none
  | some cs, some id =>
      let kept := cs.ring.filter fun member => member ≠ id
      let cs := { cs with
        sticky := if cs.sticky = some id then none else cs.sticky
        banned := Function.update cs.banned id (some (now + cfg.routeBanS))
        ring := kept
        ringPos := if kept.length < cs.ringPos then 0 else cs.ringPos }
      record cfg now (Function.update st chute (some cs)) chute id none false

end Pick

end Selector

end E2eeProxy
