import E2eeProxy.SelectorRing

/-! # What the ring is made of

In any sequence of calls the ring has no duplicate and no more members than
`BALANCED_N`. A balanced pick leaves listed instances in it and returns the one
its position points at; members go because they are not listed any more or were
invalidated, and for no other reason.
-/

namespace E2eeProxy.Selector

open Lua Lib

variable {cfg : Config} {pf : Platform}

theorem pruneRing_sublist (ring : List Id) (instances : List Instance) :
    (pruneRing ring instances).Sublist ring := List.filter_sublist

theorem without_sublist (ring : List Id) (id : Id) : (without ring id).Sublist ring :=
  List.filter_sublist

theorem apply_nodup {st : State} {chute : Value} (op : Op) (nodup : (members st chute).Nodup) :
    (members (op.apply cfg pf st) chute).Nodup := by
  have step := ringStep cfg pf st chute op
  generalize position (op.apply cfg pf st) chute = pos at step
  generalize members (op.apply cfg pf st) chute = ring at step
  cases step with
  | balanced => exact fillRing_nodup cfg (nodup.sublist (pruneRing_sublist _ _))
  | taken now id => exact nodup.sublist (without_sublist _ id)
  | cleared => exact List.nodup_nil
  | left => exact nodup

theorem apply_length {st : State} {chute : Value} {n : ℕ} (integer : cfg.balancedN = n) (op : Op)
    (short : (members st chute).length ≤ n) :
    (members (op.apply cfg pf st) chute).length ≤ n := by
  have step := ringStep cfg pf st chute op
  generalize position (op.apply cfg pf st) chute = pos at step
  generalize members (op.apply cfg pf st) chute = ring at step
  cases step with
  | balanced =>
      apply fillRing_length cfg integer
      exact (pruneRing_sublist _ _).length_le.trans short
  | taken now id => exact (without_sublist _ id).length_le.trans short
  | cleared => exact Nat.zero_le n
  | left => exact short

/-- The state before the first call. -/
def initial : State := fun _ => none

theorem run_nodup (cfg : Config) (pf : Platform) (ops : List Op) (chute : Value) :
    (members (run cfg pf initial ops) chute).Nodup :=
  run_invariant (P := fun st => (members st chute).Nodup) (fun _ op => apply_nodup op) ops
    List.nodup_nil

theorem run_length (pf : Platform) {n : ℕ} (integer : cfg.balancedN = n) (ops : List Op)
    (chute : Value) : (members (run cfg pf initial ops) chute).length ≤ n :=
  run_invariant (P := fun st => (members st chute).length ≤ n)
    (fun _ op => apply_length integer op) ops (Nat.zero_le n)

theorem present_of_mem {instances : List Instance} {c : Cand} (mem : c ∈ eligible instances) :
    present instances c.id = true := by
  obtain ⟨inst, here, id, -⟩ := mem_eligible.mp mem
  exact List.any_eq_true.mpr ⟨inst, List.mem_of_getElem? here, by simp [id]⟩

/-- Every member of the refilled ring is listed. -/
theorem refilled_present {now : Rat} {st : State} {instances : List Instance} {chute : Value}
    {id : Id} (mem : id ∈ refilled cfg now st instances chute) : present instances id = true := by
  obtain ⟨joined, filled, candidate⟩ := fillRing_eq cfg
    (pruneRing (members st chute) instances) (candidates now st instances chute)
  rw [refilled, filled] at mem
  cases List.mem_append.mp mem with
  | inl kept => exact (List.mem_filter.mp kept).2
  | inr new =>
      obtain ⟨c, there, rfl⟩ := candidate id new
      exact present_of_mem (withoutBanned_subset now _ _ there)

/-- Why a member may leave the ring of a chute. -/
def Op.removes (cfg : Config) (st : State) (chute : Value) (id : Id) : Op → Prop
  | .pick now _ instances chute' mode =>
      chute' = chute ∧ BalancedPick cfg now st instances chute mode ∧ present instances id = false
  | .record .. => False
  | .invalidate _ chute' id' => chute' = chute ∧ (id' = some id ∨ id' = none)

theorem leaves_removed {st : State} {chute : Value} {id : Id} (op : Op)
    (mem : id ∈ members st chute) (gone : id ∉ members (op.apply cfg pf st) chute) :
    op.removes cfg st chute id := by
  have step := ringStep cfg pf st chute op
  generalize position (op.apply cfg pf st) chute = pos at step
  generalize members (op.apply cfg pf st) chute = ring at step gone
  cases step with
  | @balanced now instances mode _ balanced =>
      refine ⟨rfl, balanced, ?_⟩
      by_contra listed
      apply gone
      apply subset_fillRing
      exact List.mem_filter.mpr ⟨mem, by simpa using listed⟩
  | taken now id' =>
      refine ⟨rfl, .inl ?_⟩
      by_contra other
      apply gone
      refine List.mem_filter.mpr ⟨mem, ?_⟩
      exact decide_eq_true fun same => other (congrArg some same.symm)
  | cleared => exact ⟨rfl, .inr rfl⟩
  | left => exact absurd mem gone

/-- With an integer `BALANCED_N` and no pin, after any calls: the ring of a chute
    has no duplicate and at most `BALANCED_N` members; after a balanced pick that
    had candidates its members are listed; what a balanced pick returns is a
    candidate in the ring that the position points at; and a member leaves only
    because a balanced pick did not find it listed or because it, or its chute, was
    invalidated. -/
theorem ring_sound (cfg : Config) (pf : Platform) {n : ℕ} (integer : cfg.balancedN = n)
    (unpinned : cfg.pinInstanceId = none) (ops : List Op) (chute : Value) :
    let st := run cfg pf initial ops
    ((members st chute).Nodup ∧ (members st chute).length ≤ n) ∧
    (∀ now rolls instances mode, modeOf cfg mode = .balanced → eligible instances ≠ [] →
      let st' := (pick cfg pf now rolls st instances chute mode).1
      (∀ id ∈ members st' chute, present instances id = true) ∧
      ∀ c r, (pick cfg pf now rolls st instances chute mode).2 = some (c, r) →
        c ∈ candidates now st instances chute ∧ c.id ∈ members st' chute ∧
          PointsAt (members st' chute) (position st' chute) c.id) ∧
    ∀ (op : Op) (id : Id), id ∈ members st chute → id ∉ members (op.apply cfg pf st) chute →
      op.removes cfg st chute id := by
  intro st
  refine ⟨⟨run_nodup cfg pf ops chute, run_length pf integer ops chute⟩, ?_,
    fun op id => leaves_removed op⟩
  intro now rolls instances mode mode' some' st'
  have balanced : BalancedPick cfg now st instances chute mode :=
    ⟨mode', some', by rw [pinned, unpinned, Option.bind_none]⟩
  have ring : members st' chute = refilled cfg now st instances chute :=
    balanced_members pf rolls balanced
  rw [ring]
  refine ⟨fun id => refilled_present, fun c r returned => ?_⟩
  have stops := balanced_returns pf rolls balanced
  rw [returned] at stops
  obtain ⟨⟨pos, d⟩, found, rfl⟩ := Option.map_eq_some_iff.mp stops.symm
  obtain ⟨passed, rest, -, -, candidate, -, points⟩ := nextInRing_some found
  have pos' : position st' chute = pos := by
    rw [balanced_position pf rolls balanced, found]
    rfl
  rw [pos']
  obtain ⟨i, -, here⟩ := id points
  exact ⟨(find_some candidate).1, List.mem_of_getElem? here, points⟩

/-- The second of two picks returns the second member. -/
theorem ring_sound_sample :
    let st := run defaultConfig Sample.platform initial
      [.pick 0 ⟨0, 0⟩ Sample.both Sample.chute (lit "balanced")]
    let st' := (pick defaultConfig Sample.platform 1 ⟨0, 0⟩ st Sample.both Sample.chute
      (lit "balanced")).1
    ((members st Sample.chute).Nodup ∧ (members st Sample.chute).length ≤ 3) ∧
      Sample.y ∈ members st' Sample.chute ∧
      PointsAt (members st' Sample.chute) (position st' Sample.chute) Sample.y := by
  intro st st'
  obtain ⟨ring, picks, -⟩ := ring_sound defaultConfig Sample.platform (n := 3) rfl rfl
    [.pick 0 ⟨0, 0⟩ Sample.both Sample.chute (lit "balanced")] Sample.chute
  have returned : (pick defaultConfig Sample.platform 1 ⟨0, 0⟩ st Sample.both Sample.chute
      (lit "balanced")).2 = some (⟨1, Sample.y⟩, .ring) := by decide
  obtain ⟨-, returns⟩ := picks 1 ⟨0, 0⟩ Sample.both (lit "balanced") rfl (by decide)
  exact ⟨ring, (returns _ _ returned).2⟩

end E2eeProxy.Selector
