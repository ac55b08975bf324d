import E2eeProxy.Failover
import E2eeProxy.Lib.Rotation
import Mathlib.Data.Nat.Cast.Order.Basic

/-! # The ring of the balanced mode

What a call does to the ring and to the position in it: a balanced pick drops the
members that are not listed, fills up with candidates and goes round; to
invalidate takes an instance out; nothing else touches either.
-/

namespace E2eeProxy.Selector

open Lua Lib

/-- The ring of a chute. -/
def members (st : State) (chute : Value) : List Id := (chuteState st chute).ring

/-- `ring_pos`: the position, from 1, of the member that was returned last. -/
def position (st : State) (chute : Value) : Nat := (chuteState st chute).ringPos

/-- The ring without an instance. -/
def without (ring : List Id) (id : Id) : List Id := ring.filter fun member => member ≠ id

/-- The candidate stands in the ring at the position before `pos`. -/
def PointsAt (ring : List Id) (pos : Nat) (id : Id) : Prop := ∃ i, pos = i + 1 ∧ ring[i]? = some id

section Ring

variable (cfg : Config) (pf : Platform) (now : Rat) (rolls : Rolls) (st : State)
  (instances : List Instance) (chute : Value) (mode : Bytes)

/-- A pick that the balanced mode decides: there are candidates, and the pinned
    instance is none of them. -/
def BalancedPick : Prop :=
  modeOf cfg mode = .balanced ∧ eligible instances ≠ [] ∧
    pinned cfg (candidates now st instances chute) = none

instance : Decidable (BalancedPick cfg now st instances chute mode) :=
  inferInstanceAs (Decidable (_ ∧ _ ∧ _))

/-- The ring that a balanced pick goes round. -/
def refilled : List Id :=
  fillRing cfg (pruneRing (members st chute) instances) (candidates now st instances chute)

/-- Where it stops, and at whom. -/
def stop : Option (Nat × Cand) :=
  nextInRing (refilled cfg now st instances chute) (position st chute)
    (candidates now st instances chute)

variable {cfg now st instances chute mode}

theorem pickBalanced_eq (cfg : Config) (cs : ChuteState) (instances : List Instance)
    (cands : List Cand) :
    let ring := fillRing cfg (pruneRing cs.ring instances) cands
    let found := nextInRing ring cs.ringPos cands
    pickBalanced cfg cs instances cands =
      ({ cs with ring := ring, ringPos := (found.map Prod.fst).getD cs.ringPos },
        found.map fun (_, c) =>
          (c, if c.id ∈ pruneRing cs.ring instances then .ring else .ringNew)) := by
  intro ring found
  unfold pickBalanced
  dsimp only
  cases same : found with
  | none =>
      change nextInRing ring cs.ringPos cands = none at same
      rw [same]
      rfl
  | some found =>
      change nextInRing ring cs.ringPos cands = some found at same
      rw [same]
      rfl

/-- A balanced pick goes round the refilled ring. -/
theorem pick_balanced (balanced : BalancedPick cfg now st instances chute mode) :
    ∃ cs', (pick cfg pf now rolls st instances chute mode).1 =
        Function.update st chute (some cs') ∧
      (pick cfg pf now rolls st instances chute mode).2 =
        ((stop cfg now st instances chute).map fun (_, c) =>
          (c, if c.id ∈ pruneRing (members st chute) instances then .ring else .ringNew)) ∧
      cs'.ring = refilled cfg now st instances chute ∧
      cs'.ringPos = ((stop cfg now st instances chute).map Prod.fst).getD (position st chute) := by
  obtain ⟨mode', some', unpinned⟩ := balanced
  unfold candidates at unpinned
  unfold pick
  rw [if_neg some']
  dsimp only
  rw [unpinned, mode']
  dsimp only [choose]
  rw [pickBalanced_eq]
  exact ⟨_, rfl, rfl, rfl, rfl⟩

theorem balanced_members (balanced : BalancedPick cfg now st instances chute mode) :
    members (pick cfg pf now rolls st instances chute mode).1 chute =
      refilled cfg now st instances chute := by
  obtain ⟨cs', picked, -, ring, -⟩ := pick_balanced pf rolls balanced
  rw [picked, members, chuteState, Function.update_self, Option.getD_some, ring]

theorem balanced_position (balanced : BalancedPick cfg now st instances chute mode) :
    position (pick cfg pf now rolls st instances chute mode).1 chute =
      ((stop cfg now st instances chute).map Prod.fst).getD (position st chute) := by
  obtain ⟨cs', picked, -, -, pos⟩ := pick_balanced pf rolls balanced
  rw [picked, position, chuteState, Function.update_self, Option.getD_some, pos]

theorem balanced_returns (balanced : BalancedPick cfg now st instances chute mode) :
    (pick cfg pf now rolls st instances chute mode).2.map Prod.fst =
      (stop cfg now st instances chute).map Prod.snd := by
  obtain ⟨cs', -, picked, -⟩ := pick_balanced pf rolls balanced
  rw [picked]
  simp only [Option.map_map, Function.comp_def]

theorem choose_ring (cs : ChuteState) (cands : List Cand) {mode' : RouteMode}
    (other : mode' ≠ .balanced) :
    (choose cfg pf now rolls mode' cs instances cands).1.ring = cs.ring ∧
      (choose cfg pf now rolls mode' cs instances cands).1.ringPos = cs.ringPos := by
  cases mode' with
  | default | performance => exact ⟨rfl, rfl⟩
  | balanced => exact absurd rfl other
  | agent =>
      dsimp only [choose, pickAgent]
      split <;> exact ⟨rfl, rfl⟩

/-- A pick that the balanced mode does not decide leaves ring and position. -/
theorem pick_leaves (other : ¬ BalancedPick cfg now st instances chute mode) :
    members (pick cfg pf now rolls st instances chute mode).1 chute = members st chute ∧
      position (pick cfg pf now rolls st instances chute mode).1 chute = position st chute := by
  unfold members position pick
  split
  · exact ⟨rfl, rfl⟩
  · rename_i some'
    dsimp only
    split
    · dsimp only [chuteState]
      rw [Function.update_self, Option.getD_some]
      exact ⟨rfl, rfl⟩
    · rename_i unpinned
      dsimp only [chuteState]
      rw [Function.update_self, Option.getD_some]
      exact choose_ring pf rolls _ _ fun balanced => other ⟨balanced, some', unpinned⟩

/-- So does a call for another chute. -/
theorem pick_elsewhere {chute' : Value} (differ : chute' ≠ chute) :
    chuteState (pick cfg pf now rolls st instances chute' mode).1 chute = chuteState st chute := by
  unfold pick
  split
  · rfl
  · dsimp only
    split
    · dsimp only [chuteState]
      rw [Function.update_of_ne (Ne.symm differ)]
    · dsimp only [chuteState]
      rw [Function.update_of_ne (Ne.symm differ)]

end Ring

section Record

variable (cfg : Config) (now : Rat) (st : State) (chute : Value)

theorem record_leaves (chute' : Value) (id : Id) (ttft : Option Rat) (ok : Bool) :
    members (record cfg now st chute' id ttft ok) chute = members st chute ∧
      position (record cfg now st chute' id ttft ok) chute = position st chute := by
  unfold members position
  by_cases same : chute' = chute
  · subst same
    unfold record
    dsimp only [chuteState]
    rw [Function.update_self, Option.getD_some]
    exact ⟨rfl, rfl⟩
  · unfold record
    dsimp only [chuteState]
    rw [Function.update_of_ne (Ne.symm same)]
    exact ⟨rfl, rfl⟩

theorem invalidate_elsewhere {chute' : Value} (differ : chute' ≠ chute) (id : Option Id) :
    members (invalidate cfg now st chute' id) chute = members st chute ∧
      position (invalidate cfg now st chute' id) chute = position st chute := by
  unfold invalidate
  split
  · exact ⟨rfl, rfl⟩
  · unfold members position chuteState
    rw [Function.update_of_ne (Ne.symm differ)]
    exact ⟨rfl, rfl⟩
  · obtain ⟨ring, pos⟩ := record_leaves cfg now (Function.update st chute' (some _)) chute chute' _
      none false
    rw [ring, pos]
    unfold members position chuteState
    rw [Function.update_of_ne (Ne.symm differ)]
    exact ⟨rfl, rfl⟩

theorem invalidate_instance (id : Id) :
    members (invalidate cfg now st chute (some id)) chute = without (members st chute) id ∧
      position (invalidate cfg now st chute (some id)) chute =
        if (without (members st chute) id).length < position st chute then 0
        else position st chute := by
  cases known : st chute with
  | none =>
      have fresh : chuteState st chute = newChuteState := by rw [chuteState, known, Option.getD_none]
      unfold invalidate
      rw [known]
      unfold members position
      rw [fresh]
      exact ⟨rfl, rfl⟩
  | some cs =>
      have here : chuteState st chute = cs := by rw [chuteState, known, Option.getD_some]
      unfold invalidate
      rw [known]
      dsimp only
      obtain ⟨ring, pos⟩ := record_leaves cfg now (Function.update st chute (some _)) chute chute id
        none false
      rw [ring, pos]
      unfold members position
      rw [here]
      unfold chuteState
      rw [Function.update_self, Option.getD_some]
      exact ⟨rfl, rfl⟩

theorem invalidate_chute :
    members (invalidate cfg now st chute none) chute = [] ∧
      position (invalidate cfg now st chute none) chute = 0 := by
  unfold invalidate members position chuteState
  cases known : st chute with
  | none =>
      dsimp only
      rw [known]
      exact ⟨rfl, rfl⟩
  | some cs =>
      dsimp only
      rw [Function.update_self]
      exact ⟨rfl, rfl⟩

end Record

/-! ## One call -/

/-- What a call makes of the ring of a chute and of the position in it. -/
inductive RingStep (cfg : Config) (pf : Platform) (st : State) (chute : Value) :
    Op → List Id → Nat → Prop
  | balanced {now instances mode} (rolls : Rolls)
      (balanced : BalancedPick cfg now st instances chute mode) :
      RingStep cfg pf st chute (.pick now rolls instances chute mode)
        (refilled cfg now st instances chute)
        (((stop cfg now st instances chute).map Prod.fst).getD (position st chute))
  | taken (now : Rat) (id : Id) :
      RingStep cfg pf st chute (.invalidate now chute (some id)) (without (members st chute) id)
        (if (without (members st chute) id).length < position st chute then 0
          else position st chute)
  | cleared (now : Rat) : RingStep cfg pf st chute (.invalidate now chute none) [] 0
  | left (op : Op)
      (other : ∀ now rolls instances mode, op = .pick now rolls instances chute mode →
        ¬ BalancedPick cfg now st instances chute mode)
      (spares : ∀ now id, op ≠ .invalidate now chute id) :
      RingStep cfg pf st chute op (members st chute) (position st chute)

theorem ringStep (cfg : Config) (pf : Platform) (st : State) (chute : Value) (op : Op) :
    RingStep cfg pf st chute op (members (op.apply cfg pf st) chute)
      (position (op.apply cfg pf st) chute) := by
  cases op with
  | pick now rolls instances chute' mode =>
      by_cases same : chute' = chute
      · subst same
        dsimp only [Op.apply]
        by_cases balanced : BalancedPick cfg now st instances chute' mode
        · rw [balanced_members pf rolls balanced, balanced_position pf rolls balanced]
          exact .balanced rolls balanced
        · rw [(pick_leaves pf rolls balanced).1, (pick_leaves pf rolls balanced).2]
          apply RingStep.left
          · rintro _ _ _ _ ⟨⟩
            exact balanced
          · exact nofun
      · dsimp only [Op.apply, members, position]
        rw [pick_elsewhere pf rolls same]
        apply RingStep.left
        · rintro _ _ _ _ ⟨⟩
          exact absurd rfl same
        · exact nofun
  | record now chute' id ttft ok =>
      dsimp only [Op.apply]
      rw [(record_leaves cfg now st chute chute' id ttft ok).1,
        (record_leaves cfg now st chute chute' id ttft ok).2]
      exact .left _ nofun nofun
  | invalidate now chute' id =>
      dsimp only [Op.apply]
      by_cases same : chute' = chute
      · subst same
        cases id with
        | none =>
            rw [(invalidate_chute cfg now st chute').1, (invalidate_chute cfg now st chute').2]
            exact .cleared now
        | some id =>
            rw [(invalidate_instance cfg now st chute' id).1,
              (invalidate_instance cfg now st chute' id).2]
            exact .taken now id
      · rw [(invalidate_elsewhere cfg now st chute same id).1,
          (invalidate_elsewhere cfg now st chute same id).2]
        apply RingStep.left
        · exact nofun
        · rintro _ _ ⟨⟩
          exact same rfl

/-- What every call keeps holds after all of them. -/
theorem run_invariant {cfg : Config} {pf : Platform} {P : State → Prop}
    (step : ∀ (st : State) (op : Op), P st → P (op.apply cfg pf st)) (ops : List Op) {st : State}
    (start : P st) :
    P (run cfg pf st ops) := by
  induction ops generalizing st with
  | nil => exact start
  | cons op ops ih => exact ih (step st op start)

/-! ## Filling the ring -/

section Fill

variable (cfg : Config) {ring : List Id} {cands : List Cand}

/-- New members stand behind the old ones and are candidates. -/
theorem fillRing_eq (ring : List Id) (cands : List Cand) :
    ∃ joined, fillRing cfg ring cands = ring ++ joined ∧
      ∀ id ∈ joined, ∃ c ∈ cands, c.id = id := by
  induction cands generalizing ring with
  | nil => exact ⟨[], (List.append_nil _).symm, fun _ mem => nomatch mem⟩
  | cons c cands ih =>
      unfold fillRing
      split
      · exact ⟨[], (List.append_nil _).symm, fun _ mem => nomatch mem⟩
      · split
        · obtain ⟨joined, filled, candidates⟩ := ih ring
          refine ⟨joined, filled, fun id mem => ?_⟩
          obtain ⟨d, there, same⟩ := candidates id mem
          exact ⟨d, List.mem_cons_of_mem c there, same⟩
        · obtain ⟨joined, filled, candidates⟩ := ih (ring ++ [c.id])
          refine ⟨c.id :: joined, by simp [filled], fun id mem => ?_⟩
          cases List.mem_cons.mp mem with
          | inl here => exact ⟨c, List.mem_cons_self, here.symm⟩
          | inr later =>
              obtain ⟨d, there, same⟩ := candidates id later
              exact ⟨d, List.mem_cons_of_mem c there, same⟩

theorem fillRing_nodup (nodup : ring.Nodup) : (fillRing cfg ring cands).Nodup := by
  induction cands generalizing ring with
  | nil => exact nodup
  | cons c cands ih =>
      unfold fillRing
      split
      · exact nodup
      · apply ih
        split
        · exact nodup
        · rename_i absent
          exact List.nodup_append_comm.mp (List.nodup_cons.mpr ⟨absent, nodup⟩)

theorem fillRing_length {n : ℕ} (integer : cfg.balancedN = n) (short : ring.length ≤ n) :
    (fillRing cfg ring cands).length ≤ n := by
  induction cands generalizing ring with
  | nil => exact short
  | cons c cands ih =>
      unfold fillRing
      split
      · exact short
      · rename_i room
        rw [integer, not_le, Nat.cast_lt] at room
        apply ih
        split
        · exact short
        · rw [List.length_append]
          exact room

end Fill

/-! ## Going round -/

/-- The search starts at the position and stops at the first candidate. -/
theorem nextInRing_some {ring : List Id} {pos pos' : Nat} {cands : List Cand} {c : Cand}
    (h : nextInRing ring pos cands = some (pos', c)) :
    ∃ passed rest, ring.rotate pos = passed ++ c.id :: rest ∧
      (∀ id ∈ passed, find cands id = none) ∧ find cands c.id = some c ∧
      ring.rotate pos' = rest ++ passed ++ [c.id] ∧ PointsAt ring pos' c.id := by
  obtain ⟨k, bound, found, earlier⟩ := findSome?_range h
  obtain ⟨d, member, same⟩ := Option.map_eq_some_iff.mp found
  obtain ⟨rfl, rfl⟩ := Prod.mk.inj same
  obtain ⟨id, here, candidate⟩ := Option.bind_eq_some_iff.mp member
  obtain rfl : d.id = id := (find_some candidate).2
  have turned : (ring.rotate pos)[k]? = some d.id := by
    rw [List.getElem?_rotate bound, Nat.add_comm, here]
  obtain ⟨passed, rest, split, isTake, behind⟩ := rotate_behind turned
  refine ⟨passed, rest, split, fun id mem => ?_, candidate, behind, _, rfl, here⟩
  rw [isTake] at mem
  obtain ⟨j, less, there⟩ := List.mem_take_iff_getElem.mp mem
  have before : j < k := by omega
  have none := earlier j before
  rw [Option.map_eq_none_iff, Nat.add_comm, ← List.getElem?_rotate (by omega),
    List.getElem?_eq_getElem (by omega), there, Option.bind_some] at none
  exact none

end E2eeProxy.Selector
