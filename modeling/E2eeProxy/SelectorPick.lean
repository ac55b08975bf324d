import E2eeProxy.Selector

/-! # Whom a pick may return

A pick returns one of the candidates, and there is one for it to return unless
the ring of the balanced mode is full of instances that are none.
-/

namespace E2eeProxy.Selector

open Lua

theorem mem_eligible {instances : List Instance} {c : Cand} :
    c ∈ eligible instances ↔
      ∃ inst, instances[c.index]? = some inst ∧ inst.instanceId = some c.id ∧
        0 < inst.nonceCount := by
  rw [eligible, List.mem_filterMap]
  constructor
  · rintro ⟨⟨inst, i⟩, mem, made⟩
    dsimp only at made
    split at made
    · rename_i nonces
      obtain ⟨id, hasId, rfl⟩ := Option.map_eq_some_iff.mp made
      exact ⟨inst, List.mem_zipIdx_iff_getElem?.mp mem, hasId, nonces⟩
    · cases made
  · rintro ⟨inst, here, hasId, nonces⟩
    refine ⟨(inst, c.index), List.mem_zipIdx_iff_getElem?.mpr here, ?_⟩
    simp [nonces, hasId]

theorem find_some {cands : List Cand} {id : Id} {c : Cand} (h : find cands id = some c) :
    c ∈ cands ∧ c.id = id :=
  ⟨List.mem_of_find?_eq_some h, by simpa using List.find?_some h⟩

theorem withoutBanned_subset (t : Rat) (cs : ChuteState) (cands : List Cand) :
    (withoutBanned t cs cands).2 ⊆ cands := by
  unfold withoutBanned
  dsimp only
  split
  · exact List.Subset.refl _
  · exact List.filter_subset_self _

theorem withoutBanned_nonempty (t : Rat) (cs : ChuteState) {cands : List Cand}
    (some' : cands ≠ []) : (withoutBanned t cs cands).2 ≠ [] := by
  unfold withoutBanned
  dsimp only
  split
  · exact some'
  · assumption

@[simp] theorem withoutBanned_ring (t : Rat) (cs : ChuteState) (cands : List Cand) :
    (withoutBanned t cs cands).1.ring = cs.ring := rfl

section Choose

variable (cfg : Config) (pf : Platform) (now : Rat) {cs : ChuteState} {cands : List Cand}

/-! ## The single modes -/

theorem fastest_mem (cs : ChuteState) {c : Cand} (mem : c ∈ cands) (more : List Cand)
    (sub : more ⊆ cands) : fastest cfg pf now cs c more ∈ cands := by
  induction more generalizing c with
  | nil => exact mem
  | cons d more ih =>
      obtain ⟨here, rest⟩ := List.cons_subset.mp sub
      refine ih ?_ rest
      dsimp only
      split
      · exact here
      · exact mem

theorem pickAgent_mem {c : Cand} {r : Reason}
    (h : (pickAgent cfg pf now cs cands).2 = some (c, r)) : c ∈ cands := by
  unfold pickAgent at h
  split at h
  · rename_i sticky
    obtain ⟨rfl, -⟩ : _ = c ∧ _ = r := by simpa using h
    obtain ⟨id, -, found⟩ := Option.bind_eq_some_iff.mp sticky
    exact (find_some found).1
  · cases h
  · obtain ⟨rfl, -⟩ : _ = c ∧ _ = r := by simpa using h
    exact fastest_mem cfg pf now cs List.mem_cons_self _ (List.Subset.refl _)

theorem pickAgent_isSome (some' : cands ≠ []) : (pickAgent cfg pf now cs cands).2.isSome := by
  unfold pickAgent
  split
  · rfl
  · exact absurd rfl some'
  · rfl

theorem pickPerformance_mem {rolls : Rolls} {c : Cand} {r : Reason}
    (h : pickPerformance cfg pf now rolls cs cands = some (c, r)) : c ∈ cands := by
  unfold pickPerformance at h
  split at h
  · obtain ⟨d, head, same⟩ := Option.map_eq_some_iff.mp h
    obtain ⟨rfl, -⟩ := Prod.mk.inj same
    exact List.mem_of_head? head
  · dsimp only at h
    split at h
    · rename_i a b first second
      simp only [Option.some.injEq] at h
      split at h
      · obtain ⟨rfl, -⟩ := Prod.mk.inj h
        exact List.mem_of_getElem? first
      · obtain ⟨rfl, -⟩ := Prod.mk.inj h
        exact List.mem_of_getElem? second
    · cases h

theorem pickPerformance_isSome (rolls : Rolls) (some' : cands ≠ []) :
    (pickPerformance cfg pf now rolls cs cands).isSome := by
  have length : 0 < cands.length := List.length_pos_iff.mpr some'
  unfold pickPerformance
  split
  · cases cands with
    | nil => exact absurd rfl some'
    | cons c cands => rfl
  · rename_i several
    have first : rolls.first % cands.length < cands.length := Nat.mod_lt _ length
    have second : rolls.second % (cands.length - 1) < cands.length - 1 := Nat.mod_lt _ (by omega)
    dsimp only
    generalize rolls.first % cands.length = i at *
    generalize rolls.second % (cands.length - 1) = j at *
    have bound : (if i ≤ j then j + 1 else j) < cands.length := by split <;> omega
    rw [List.getElem?_eq_getElem first, List.getElem?_eq_getElem bound]
    rfl

/-! ## The ring -/

theorem subset_fillRing (ring : List Id) (cands : List Cand) : ring ⊆ fillRing cfg ring cands := by
  induction cands generalizing ring with
  | nil => exact List.Subset.refl _
  | cons c cands ih =>
      unfold fillRing
      split
      · exact List.Subset.refl _
      · refine List.Subset.trans ?_ (ih _)
        split
        · exact List.Subset.refl _
        · exact List.subset_append_left _ _

theorem fillRing_full {ring : List Id} (full : cfg.balancedN ≤ ring.length) (cands : List Cand) :
    fillRing cfg ring cands = ring := by
  cases cands with
  | nil => rfl
  | cons c cands => rw [fillRing, if_pos full]

/-- While the ring has room the first candidate is in it afterwards. -/
theorem fillRing_room {ring : List Id} (room : ¬ cfg.balancedN ≤ ring.length) (c : Cand)
    (cands : List Cand) : c.id ∈ fillRing cfg ring (c :: cands) := by
  rw [fillRing, if_neg room]
  apply subset_fillRing cfg _ cands
  split
  · assumption
  · simp

/-- Going round the ring from any position comes to every member. -/
theorem nextInRing_isSome_iff {ring : List Id} (pos : Nat) :
    (nextInRing ring pos cands).isSome ↔ ∃ id ∈ ring, (find cands id).isSome := by
  unfold nextInRing
  rw [List.findSome?_isSome_iff]
  constructor
  · rintro ⟨step, -, found⟩
    simp only [Option.isSome_map] at found
    obtain ⟨c, found⟩ := Option.isSome_iff_exists.mp found
    obtain ⟨id, here, found⟩ := Option.bind_eq_some_iff.mp found
    exact ⟨id, List.mem_of_getElem? here, by simp [found]⟩
  · rintro ⟨id, mem, found⟩
    obtain ⟨j, bound, here⟩ := List.getElem_of_mem mem
    have length : 0 < ring.length := by omega
    refine ⟨(j + ring.length - pos % ring.length) % ring.length,
      List.mem_range.mpr (Nat.mod_lt _ length), ?_⟩
    have comes : (pos + (j + ring.length - pos % ring.length) % ring.length) % ring.length = j := by
      have before : pos % ring.length < ring.length := Nat.mod_lt _ length
      rw [← Nat.mod_add_mod, Nat.add_mod_mod,
        show pos % ring.length + (j + ring.length - pos % ring.length) = j + ring.length by omega,
        Nat.add_mod_right, Nat.mod_eq_of_lt bound]
    simp only [comes, List.getElem?_eq_getElem bound, Option.isSome_map, here]
    exact found

theorem nextInRing_mem {ring : List Id} {pos pos' : Nat} {c : Cand}
    (h : nextInRing ring pos cands = some (pos', c)) : c ∈ cands := by
  obtain ⟨step, -, found⟩ := List.exists_of_findSome?_eq_some h
  obtain ⟨d, member, same⟩ := Option.map_eq_some_iff.mp found
  obtain ⟨-, rfl⟩ := Prod.mk.inj same
  obtain ⟨id, -, candidate⟩ := Option.bind_eq_some_iff.mp member
  exact (find_some candidate).1

variable (instances : List Instance)

theorem pickBalanced_mem {c : Cand} {r : Reason}
    (h : (pickBalanced cfg cs instances cands).2 = some (c, r)) : c ∈ cands := by
  unfold pickBalanced at h
  dsimp only at h
  split at h
  · rename_i pos d found
    obtain ⟨rfl, -⟩ : d = c ∧ _ = r := by simpa using h
    exact nextInRing_mem found
  · cases h

/-- The ring has no room, and none of its members is a candidate. -/
def Stuck (ring : List Id) (instances : List Instance) (cands : List Cand) : Prop :=
  cfg.balancedN ≤ (pruneRing ring instances).length ∧
    ∀ id ∈ pruneRing ring instances, find cands id = none

theorem pickBalanced_isSome_iff (some' : cands ≠ []) :
    (pickBalanced cfg cs instances cands).2.isSome ↔ ¬ Stuck cfg cs.ring instances cands := by
  have returns : (pickBalanced cfg cs instances cands).2.isSome ↔
      (nextInRing (fillRing cfg (pruneRing cs.ring instances) cands) cs.ringPos cands).isSome := by
    unfold pickBalanced
    dsimp only
    split <;> simp_all
  rw [returns, nextInRing_isSome_iff]
  by_cases full : cfg.balancedN ≤ (pruneRing cs.ring instances).length
  · rw [fillRing_full cfg full]
    simp only [Stuck, full, true_and, not_forall, ← Option.isSome_iff_ne_none, exists_prop]
  · obtain ⟨c, rest, rfl⟩ := List.exists_cons_of_ne_nil some'
    refine iff_of_true ⟨c.id, fillRing_room cfg full c rest, ?_⟩ fun stuck => full stuck.1
    simp [find]

/-! ## The pick -/

theorem choose_mem {rolls : Rolls} {mode : RouteMode} {c : Cand} {r : Reason}
    (h : (choose cfg pf now rolls mode cs instances cands).2 = some (c, r)) : c ∈ cands := by
  cases mode with
  | default =>
      obtain ⟨d, head, same⟩ := Option.map_eq_some_iff.mp h
      obtain ⟨rfl, -⟩ := Prod.mk.inj same
      exact List.mem_of_head? head
  | agent => exact pickAgent_mem cfg pf now h
  | balanced => exact pickBalanced_mem cfg instances h
  | performance => exact pickPerformance_mem cfg pf now h

theorem choose_isSome_iff (rolls : Rolls) (mode : RouteMode) (some' : cands ≠ []) :
    (choose cfg pf now rolls mode cs instances cands).2.isSome ↔
      ¬ (mode = .balanced ∧ Stuck cfg cs.ring instances cands) := by
  cases mode with
  | default =>
      refine iff_of_true ?_ (by simp)
      obtain ⟨c, rest, rfl⟩ := List.exists_cons_of_ne_nil some'
      rfl
  | agent => exact iff_of_true (pickAgent_isSome cfg pf now some') (by simp)
  | balanced => simpa [choose] using pickBalanced_isSome_iff cfg instances some'
  | performance => exact iff_of_true (pickPerformance_isSome cfg pf now rolls some') (by simp)

end Choose

section Pick

variable (cfg : Config) (pf : Platform) (now : Rat) (rolls : Rolls) (st : State)
  (instances : List Instance) (chute : Value) (mode : Bytes)

/-- Whom a pick chooses among. -/
def candidates : List Cand := (withoutBanned now (chuteState st chute) (eligible instances)).2

theorem pick_mem {c : Cand} {r : Reason}
    (h : (pick cfg pf now rolls st instances chute mode).2 = some (c, r)) :
    c ∈ eligible instances := by
  unfold pick at h
  split at h
  · cases h
  · apply withoutBanned_subset now (chuteState st chute) _
    dsimp only at h
    split at h
    · rename_i d found
      obtain ⟨rfl, -⟩ : d = c ∧ _ = r := by simpa using h
      obtain ⟨id, -, found⟩ := Option.bind_eq_some_iff.mp found
      exact (find_some found).1
    · exact choose_mem cfg pf now instances h

/-- In balanced mode, without a pin that is a candidate, the ring is stuck. -/
def RingStuck : Prop :=
  modeOf cfg mode = .balanced ∧ pinned cfg (candidates now st instances chute) = none ∧
    Stuck cfg (chuteState st chute).ring instances (candidates now st instances chute)

/-- A pick among instances with nonces returns one unless the ring is stuck. -/
theorem pick_isSome_iff (some' : eligible instances ≠ []) :
    (pick cfg pf now rolls st instances chute mode).2.isSome ↔
      ¬ RingStuck cfg now st instances chute mode := by
  have left := withoutBanned_nonempty now (chuteState st chute) some'
  unfold pick RingStuck candidates
  rw [if_neg some']
  dsimp only
  cases found : pinned cfg (withoutBanned now (chuteState st chute) (eligible instances)).2 with
  | some c => simp
  | none =>
      dsimp only
      rw [choose_isSome_iff cfg pf now instances rolls _ left]
      simp

end Pick

end E2eeProxy.Selector
