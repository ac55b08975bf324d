import E2eeProxy.DiscoverySteps
import E2eeProxy.SelectorPick

/-! # Taking a nonce, as a rule

`takeNonce` runs without giving way. What survives the changes it makes on the
way survives the whole of it, and if it returns a nonce then the nonce was the
first of a candidate in a batch that still counted.
-/

namespace E2eeProxy.Discovery

open Lua Lib Selector

/-- The view with another batch for the chute. -/
def withBatch (v : View proxy) (chute : Value) (batch : Option Batch) : View proxy :=
  { v with state := { v.state with nonceCache := Function.update v.state.nonceCache chute batch } }

@[simp] theorem withBatch_self (v : View proxy) (chute : Value) (batch : Option Batch) :
    (withBatch v chute batch).state.nonceCache chute = batch := Function.update_self ..

theorem withBatch_ne (v : View proxy) {chute other : Value} (batch : Option Batch)
    (differ : other ≠ chute) :
    (withBatch v chute batch).state.nonceCache other = v.state.nonceCache other :=
  Function.update_of_ne differ ..

/-- The batch without the first nonce of an instance. -/
def withoutFirst (batch : Batch) (i : Nat) (inst : Instance) (rest : List Value) : Batch :=
  { batch with instances := batch.instances.set i { inst with nonces := some (.arr rest) } }

/-- What has to survive for `fact` to survive a `takeNonce` that takes none. -/
structure Takable (fact : View proxy → Prop) (t : ℕ) (chute : Value) : Prop where
  selector : ∀ v selector, fact v → fact { v with state := { v.state with selector := selector } }
  roll : ∀ v a, fact v → fact (v.push t (.answered .roll a))
  drop : ∀ v, fact v → fact (withBatch v chute none)
  remove : ∀ v batch i inst nonce rest, fact v → v.state.nonceCache chute = some batch →
    batch.instances[i]? = some inst → inst.nonces = some (.arr (nonce :: rest)) →
    fact (withBatch v chute (some (withoutFirst batch i inst rest)))

/-- A nonce that can be taken: the first of a candidate of a batch that counts. -/
structure Takes (v : View proxy) (chute : Value) (taken : Taken) (batch : Batch) (i : Nat)
    (inst : Instance) (rest : List Value) : Prop where
  cached : v.state.nonceCache chute = some batch
  valid : v.clock < batch.expiresAt
  here : batch.instances[i]? = some inst
  nonces : inst.nonces = some (.arr (.str taken.nonce :: rest))
  instanceId : inst.instanceId = some taken.inst.instanceId
  e2ePubkey : inst.e2ePubkey = taken.inst.e2ePubkey

theorem removeNonce_ok {inst inst' : Instance} {nonce : Value}
    (removed : removeNonce inst = .ok (nonce, inst')) :
    ∃ rest, inst.nonces = some (.arr (nonce :: rest)) ∧
      inst' = { inst with nonces := some (.arr rest) } := by
  unfold removeNonce at removed
  split at removed
  · rename_i nonce' rest given
    simp only [Except.ok.injEq, Prod.mk.injEq] at removed
    obtain ⟨rfl, rfl⟩ := removed
    exact ⟨rest, given, rfl⟩
  · cases removed
  · cases removed

variable (cfg : Config) (pf : Platform) {admits : View proxy → (r : Request) → r.Answer → Prop}
  {inv fact : View proxy → Prop} {t : ℕ} {chute : Value}

theorem takeNonce_holds (takable : Takable fact t chute) (implies : ∀ v, fact v → inv v)
    (post : Taken → View proxy → Prop)
    (takes : ∀ v taken batch i inst rest, fact v → Takes v chute taken batch i inst rest →
      post taken ((withBatch v chute (some (withoutFirst batch i inst rest))).push t
        (.recorded (.handedOut taken))))
    (mode : Bytes) {w : View proxy} (h : fact w) :
    Holds admits inv t (takeNonce cfg pf chute mode)
      (fun result v => match result with
        | none => fact v
        | some taken => post taken v) w := by
  simp only [takeNonce, getState, ngxNow, ask, Routine.bind_eq, Routine.bind, Holds]
  cases given : w.state.nonceCache chute with
  | none => exact h
  | some batch =>
      simp only [Holds]
      split
      · exact takable.drop w h
      · rename_i valid
        intro rolls _
        simp only [modifyState, Routine.bind, Holds]
        have rolled : fact _ := takable.selector _
          (pick cfg pf w.clock rolls w.state.selector batch.instances chute mode).1
          (takable.roll w rolls h)
        split
        · exact takable.drop _ rolled
        · rename_i c reason picked
          obtain ⟨inst, here, hasId, -⟩ := mem_eligible.mp
            (pick_mem cfg pf w.clock rolls _ _ chute mode picked)
          simp only [takeFrom, here, Routine.bind_eq]
          cases removed : removeNonce inst with
          | error e => exact implies _ rolled
          | ok pair =>
              obtain ⟨nonce, inst'⟩ := pair
              obtain ⟨rest, nonces, rfl⟩ := removeNonce_ok removed
              simp only [lua, setCache, modifyState, Routine.bind, Holds]
              cases nonce with
              | str s =>
                  exact takes _ ⟨⟨c.id, inst.e2ePubkey⟩, s, reason⟩ batch c.index inst rest rolled
                    ⟨given, Rat.not_le.mp valid, here, nonces, hasId, rfl⟩
              | null | bool | num | arr | obj =>
                  exact implies _ (takable.remove _ batch c.index inst _ rest rolled given here nonces)

end E2eeProxy.Discovery
