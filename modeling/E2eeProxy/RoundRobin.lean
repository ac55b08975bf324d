import E2eeProxy.RingInvariant

/-! # Going round the ring passes nobody over

`ring_pos` is a number, and members leave the ring under it. A run is steady if
that moves nobody out of turn; in a steady run a balanced pick does not return an
instance again before every other member that could have been returned was.
-/

namespace E2eeProxy.Selector

open Lua Lib

section Runs

variable (cfg : Config) (pf : Platform) (chute : Value)

/-- A balanced pick finds the instance a candidate and a member of the ring. -/
def Op.offers (st : State) (id : Id) : Op → Prop
  | .pick now _ instances chute' mode => chute' = chute →
      BalancedPick cfg now st instances chute mode →
      (∃ c ∈ candidates now st instances chute, c.id = id) ∧
        id ∈ refilled cfg now st instances chute
  | .record .. | .invalidate .. => True

/-- A balanced pick returns the instance. -/
def Op.returns (st : State) (id : Id) : Op → Prop
  | .pick now rolls instances chute' mode => chute' = chute ∧
      BalancedPick cfg now st instances chute mode ∧
      (Selector.pick cfg pf now rolls st instances chute mode).2.map (fun (c, _) => c.id) = some id
  | .record .. | .invalidate .. => False

def Offered (id : Id) : State → List Op → Prop
  | _, [] => True
  | st, op :: ops => op.offers cfg chute st id ∧ Offered id (op.apply cfg pf st) ops

def Returned (id : Id) : State → List Op → Prop
  | _, [] => False
  | st, op :: ops => op.returns cfg pf chute st id ∨ Returned id (op.apply cfg pf st) ops

/-- The call takes nobody out of turn. A balanced pick finds every member up to the
    position listed, and has no candidate that was invalidated since the one before; to
    invalidate takes out a member up to the position only at the end of the ring. -/
def Op.steady (st : State) (gone : List Id) : Op → Prop
  | .pick now _ instances chute' mode => chute' = chute →
      BalancedPick cfg now st instances chute mode →
      (∀ id ∈ (members st chute).take (position st chute), present instances id = true) ∧
        ∀ c ∈ candidates now st instances chute, c.id ∉ gone
  | .invalidate _ chute' (some id) => chute' = chute →
      id ∈ (members st chute).take (position st chute) →
      position st chute = (members st chute).length
  | .record .. | .invalidate _ _ none => True

/-- The member that was returned last, at the end of the ring. -/
def LastInTurn (st : State) (id : Id) : Prop :=
  position st chute = (members st chute).length ∧ (members st chute).getLast? = some id

instance (st : State) (id : Id) : Decidable (LastInTurn chute st id) :=
  inferInstanceAs (Decidable (_ ∧ _))

/-- The members that were invalidated since the last balanced pick, save those that
    were last in turn. -/
def Op.gone (st : State) (gone : List Id) : Op → List Id
  | .pick now _ instances chute' mode =>
      if chute' = chute ∧ BalancedPick cfg now st instances chute mode then [] else gone
  | .record .. => gone
  | .invalidate _ chute' (some id) =>
      if chute' = chute ∧ id ∈ members st chute ∧ ¬ LastInTurn chute st id then id :: gone else gone
  | .invalidate _ chute' none => if chute' = chute then members st chute ++ gone else gone

def Steady : List Id → State → List Op → Prop
  | _, _, [] => True
  | gone, st, op :: ops => op.steady cfg chute st gone ∧
      Steady (op.gone cfg chute st gone) (op.apply cfg pf st) ops

instance (st : State) (id : Id) : (op : Op) → Decidable (op.offers cfg chute st id)
  | .pick .. => inferInstanceAs (Decidable (_ → _ → _ ∧ _))
  | .record .. | .invalidate .. => isTrue trivial

instance (st : State) (id : Id) : (op : Op) → Decidable (op.returns cfg pf chute st id)
  | .pick .. => inferInstanceAs (Decidable (_ ∧ _ ∧ _))
  | .record .. | .invalidate .. => isFalse not_false

instance (st : State) (gone : List Id) : (op : Op) → Decidable (op.steady cfg chute st gone)
  | .pick .. => inferInstanceAs (Decidable (_ → _ → _ ∧ _))
  | .invalidate _ _ (some _) => inferInstanceAs (Decidable (_ → _ → _))
  | .record .. | .invalidate _ _ none => isTrue trivial

instance decidableOffered (id : Id) :
    (st : State) → (ops : List Op) → Decidable (Offered cfg pf chute id st ops)
  | _, [] => isTrue trivial
  | _, _ :: ops => @instDecidableAnd _ _ inferInstance (decidableOffered id _ ops)

instance decidableReturned (id : Id) :
    (st : State) → (ops : List Op) → Decidable (Returned cfg pf chute id st ops)
  | _, [] => isFalse not_false
  | _, _ :: ops => @instDecidableOr _ _ inferInstance (decidableReturned id _ ops)

instance decidableSteady :
    (gone : List Id) → (st : State) → (ops : List Op) → Decidable (Steady cfg pf chute gone st ops)
  | _, _, [] => isTrue trivial
  | _, _, _ :: ops => @instDecidableAnd _ _ inferInstance (decidableSteady _ _ ops)

end Runs

section Fair

variable {cfg : Config} {pf : Platform} {chute : Value} {st : State} {gone : List Id} {x y : Id}

/-- The turn of `y` comes before that of `x`, unless `y` has just been invalidated. -/
def Due (chute : Value) (y x : Id) (st : State) (gone : List Id) : Prop :=
  y ∈ gone ∨ Before y x (members st chute) (position st chute)

/-- What a balanced pick returns is where it stops. -/
theorem returns_iff {now : Rat} {rolls : Rolls} {instances : List Instance} {mode : Bytes} {id : Id}
    (balanced : BalancedPick cfg now st instances chute mode) :
    (Op.pick now rolls instances chute mode).returns cfg pf chute st id ↔
      ∃ pos c, stop cfg now st instances chute = some (pos, c) ∧ c.id = id := by
  have stops := balanced_returns pf rolls balanced
  have ids : (pick cfg pf now rolls st instances chute mode).2.map (fun (c, _) => c.id) =
      (stop cfg now st instances chute).map fun found => found.2.id := by
    have mapped := congrArg (Option.map Cand.id) stops
    rwa [Option.map_map, Option.map_map] at mapped
  constructor
  · rintro ⟨-, -, returned⟩
    rw [ids] at returned
    obtain ⟨⟨pos, c⟩, found, same⟩ := Option.map_eq_some_iff.mp returned
    exact ⟨pos, c, found, same⟩
  · rintro ⟨pos, c, found, same⟩
    refine ⟨rfl, balanced, ?_⟩
    rw [ids, found]
    exact congrArg some same

theorem refilled_nodup {now : Rat} {instances : List Instance} (nodup : (members st chute).Nodup) :
    (refilled cfg now st instances chute).Nodup :=
  fillRing_nodup cfg (nodup.sublist (pruneRing_sublist _ _))

/-- A candidate is found under its id. -/
theorem find_isSome {cands : List Cand} {c : Cand} (mem : c ∈ cands) :
    (find cands c.id).isSome := by
  rw [find, List.find?_isSome]
  exact ⟨c, mem, decide_eq_true rfl⟩

theorem Due.pick {now : Rat} {instances : List Instance}
    (due : Due chute y x st gone) (nodup : (members st chute).Nodup)
    (listed : ∀ id ∈ (members st chute).take (position st chute), present instances id = true)
    (fresh : ∀ c ∈ candidates now st instances chute, c.id ∉ gone)
    (offered : ∃ c ∈ candidates now st instances chute, c.id = y)
    (member : y ∈ refilled cfg now st instances chute) :
    ∃ pos c, stop cfg now st instances chute = some (pos, c) ∧
      (c.id ≠ y → c.id ≠ x ∧ Before y x (refilled cfg now st instances chute) pos) := by
  obtain ⟨d, candidate, rfl⟩ := offered
  have before : Before d.id x (members st chute) (position st chute) :=
    due.resolve_left (fresh d candidate)
  have stops : (stop cfg now st instances chute).isSome :=
    (nextInRing_isSome_iff _).mpr ⟨d.id, member, find_isSome candidate⟩
  obtain ⟨⟨pos, c⟩, found⟩ := Option.isSome_iff_exists.mp stops
  refine ⟨pos, c, found, fun other => ?_⟩
  obtain ⟨joined, filled, -⟩ := fillRing_eq cfg
    (pruneRing (members st chute) instances) (candidates now st instances chute)
  have refill : Before d.id x (refilled cfg now st instances chute) (position st chute) := by
    rw [refilled, filled]
    exact before.keep (refilled_present member) listed joined
  obtain ⟨passed, rest, split, none, -, turned, i, rfl, here⟩ := nextInRing_some found
  have out : d.id ∉ passed := fun mem => by
    have some' := find_isSome candidate
    rw [none d.id mem] at some'
    cases some'
  exact refill.turn (refilled_nodup nodup) split out other turned here

theorem Due.invalidate {now : Rat} {id : Id} (due : Due chute y x st gone)
    (nodup : (members st chute).Nodup)
    (steady : id ∈ (members st chute).take (position st chute) →
      position st chute = (members st chute).length) :
    Due chute y x (invalidate cfg now st chute (some id))
      ((Op.invalidate now chute (some id)).gone cfg chute st gone) := by
  obtain ⟨ring, pos⟩ := invalidate_instance cfg now st chute id
  dsimp only [Op.gone]
  cases due with
  | inl out =>
      left
      split
      · exact List.mem_cons_of_mem id out
      · exact out
  | inr before =>
      by_cases same : y = id
      · -- It was not last in turn, for `x` or those who join come after it.
        subst same
        left
        have notLast : ¬ LastInTurn chute st y := by
          rintro ⟨atEnd, last⟩
          exact (atEnd ▸ before : Before y x _ (members st chute).length).not_last nodup last
        rw [if_pos ⟨rfl, before.mem, notLast⟩]
        exact List.mem_cons_self
      · have stays : decide (y ≠ id) = true := decide_eq_true same
        right
        rw [ring, pos]
        by_cases taken : id ∈ (members st chute).take (position st chute)
        · have atEnd := steady taken
          have less : (without (members st chute) id).length < position st chute := by
            rw [atEnd]
            apply List.length_filter_lt_length_iff_exists.mpr
            exact ⟨id, List.mem_of_mem_take taken, by simp⟩
          rw [if_pos less]
          exact (atEnd ▸ before).restart stays
        · have kept : ∀ a ∈ (members st chute).take (position st chute), decide (a ≠ id) = true :=
            fun a mem => decide_eq_true fun same => taken (same ▸ mem)
          have after : Before y x (without (members st chute) id) (position st chute) := by
            rw [without, ← List.append_nil (List.filter _ _)]
            exact before.keep stays kept []
          rw [if_neg (not_lt.mpr after.within)]
          exact after

/-- A call that leaves the ring alone. -/
theorem Due.stays (due : Due chute y x st gone) {st' : State}
    (ring : members st' chute = members st chute) (pos : position st' chute = position st chute) :
    Due chute y x st' gone := by
  rw [Due, ring, pos]
  exact due

theorem Due.applyInvalidate {now : Rat} {chute' : Value} {id : Option Id}
    (due : Due chute y x st gone) (nodup : (members st chute).Nodup)
    (steady : (Op.invalidate now chute' id).steady cfg chute st gone) :
    Due chute y x (Selector.invalidate cfg now st chute' id)
      ((Op.invalidate now chute' id).gone cfg chute st gone) := by
  by_cases same : chute' = chute
  · subst same
    cases id with
    | some id => exact due.invalidate nodup (steady rfl)
    | none =>
        left
        dsimp only [Op.gone]
        rw [if_pos rfl]
        cases due with
        | inl out => exact List.mem_append_right _ out
        | inr before => exact List.mem_append_left _ before.mem
  · obtain ⟨ring, pos⟩ := invalidate_elsewhere cfg now st chute same id
    have kept : (Op.invalidate now chute' id).gone cfg chute st gone = gone := by
      cases id with
      | none => exact if_neg same
      | some id => exact if_neg fun all => same all.1
    rw [kept]
    exact due.stays ring pos

theorem Due.applyPick {now : Rat} {rolls : Rolls} {instances : List Instance} {chute' : Value}
    {mode : Bytes} (due : Due chute y x st gone) (nodup : (members st chute).Nodup)
    (steady : (Op.pick now rolls instances chute' mode).steady cfg chute st gone)
    (offered : (Op.pick now rolls instances chute' mode).offers cfg chute st y)
    (other : ¬ (Op.pick now rolls instances chute' mode).returns cfg pf chute st y) :
    ¬ (Op.pick now rolls instances chute' mode).returns cfg pf chute st x ∧
      Due chute y x (Selector.pick cfg pf now rolls st instances chute' mode).1
        ((Op.pick now rolls instances chute' mode).gone cfg chute st gone) := by
  dsimp only [Op.gone]
  by_cases same : chute' = chute
  · subst same
    by_cases balanced : BalancedPick cfg now st instances chute' mode
    · obtain ⟨listed, fresh⟩ := steady rfl balanced
      obtain ⟨offered, member⟩ := offered rfl balanced
      obtain ⟨pos, c, found, next⟩ := due.pick nodup listed fresh offered member
      rw [returns_iff balanced] at other ⊢
      obtain ⟨differ, before⟩ := next fun same => other ⟨pos, c, found, same⟩
      refine ⟨?_, .inr ?_⟩
      · rintro ⟨pos', c', found', same⟩
        rw [found] at found'
        cases found'
        exact differ same
      · rw [balanced_members pf rolls balanced, balanced_position pf rolls balanced, found]
        exact before
    · obtain ⟨ring, pos⟩ := pick_leaves pf rolls balanced
      refine ⟨fun returns => balanced returns.2.1, ?_⟩
      rw [if_neg fun both => balanced both.2]
      exact due.stays ring pos
  · have elsewhere : chuteState (Selector.pick cfg pf now rolls st instances chute' mode).1 chute =
        chuteState st chute := pick_elsewhere pf rolls same
    refine ⟨fun returns => same returns.1, ?_⟩
    rw [if_neg fun both => same both.1]
    exact due.stays (congrArg (·.ring) elsewhere) (congrArg (·.ringPos) elsewhere)

/-- One call of a steady run. -/
theorem Due.apply (due : Due chute y x st gone) (nodup : (members st chute).Nodup) {op : Op}
    (steady : op.steady cfg chute st gone) (offered : op.offers cfg chute st y)
    (other : ¬ op.returns cfg pf chute st y) :
    ¬ op.returns cfg pf chute st x ∧
      Due chute y x (op.apply cfg pf st) (op.gone cfg chute st gone) := by
  cases op with
  | record now chute' id ttft ok =>
      obtain ⟨ring, pos⟩ := record_leaves cfg now st chute chute' id ttft ok
      exact ⟨fun returns => returns, due.stays ring pos⟩
  | invalidate now chute' id =>
      exact ⟨fun returns => returns, due.applyInvalidate nodup steady⟩
  | pick now rolls instances chute' mode => exact due.applyPick nodup steady offered other

theorem returns_unique {op : Op} (first : op.returns cfg pf chute st y)
    (second : op.returns cfg pf chute st x) : y = x := by
  cases op with
  | record | invalidate => exact first.elim
  | pick =>
      obtain ⟨-, -, picked⟩ := first
      obtain ⟨-, -, picked'⟩ := second
      rw [picked] at picked'
      exact Option.some.inj picked'

/-- Whoever was returned comes last. -/
theorem due_returned {op : Op} (differ : y ≠ x) (nodup : (members st chute).Nodup)
    (returns : op.returns cfg pf chute st x) (offered : op.offers cfg chute st y) :
    Due chute y x (op.apply cfg pf st) [] := by
  cases op with
  | record | invalidate => exact returns.elim
  | pick now rolls instances chute' mode =>
      obtain ⟨rfl, balanced, -⟩ := id returns
      obtain ⟨pos, c, found, rfl⟩ := (returns_iff balanced).mp returns
      obtain ⟨passed, rest, -, -, -, turned, i, rfl, here⟩ := nextInRing_some found
      right
      dsimp only [Op.apply]
      rw [balanced_members pf rolls balanced, balanced_position pf rolls balanced, found]
      exact before_last turned here (offered rfl balanced).2 differ

/-- Until `y` is returned a steady run does not return `x`. -/
theorem Due.run {ops : List Op} {last : Op} (due : Due chute y x st gone)
    (nodup : (members st chute).Nodup) (differ : y ≠ x)
    (steady : Steady cfg pf chute gone st (ops ++ [last]))
    (offered : Offered cfg pf chute y st (ops ++ [last]))
    (returns : last.returns cfg pf chute (Selector.run cfg pf st ops) x) :
    Returned cfg pf chute y st ops := by
  induction ops generalizing st gone with
  | nil =>
      exfalso
      by_cases other : last.returns cfg pf chute st y
      · exact differ (returns_unique other returns)
      · exact (due.apply nodup steady.1 offered.1 other).1 returns
  | cons op ops ih =>
      by_cases now : op.returns cfg pf chute st y
      · exact .inl now
      · right
        obtain ⟨-, next⟩ := due.apply nodup steady.1 offered.1 now
        exact ih next (apply_nodup op nodup) steady.2 offered.2 returns

end Fair

/-- Between two balanced picks that return `x`, in a run that is steady after the
    first, every other instance that was a member and a candidate at all balanced
    picks is returned. -/
theorem round_robin_fair (cfg : Config) (pf : Platform) (chute : Value) {ops between : List Op}
    {first second : Op} {x y : Id} (differ : y ≠ x) :
    let st := run cfg pf initial ops
    let st' := first.apply cfg pf st
    first.returns cfg pf chute st x →
    second.returns cfg pf chute (run cfg pf st' between) x →
    Offered cfg pf chute y st (first :: between ++ [second]) →
    Steady cfg pf chute [] st' (between ++ [second]) →
    Returned cfg pf chute y st' between := by
  intro st st' returns again offered steady
  have nodup : (members st chute).Nodup := run_nodup cfg pf ops chute
  exact (due_returned differ nodup returns offered.1).run (apply_nodup first nodup) differ steady
    offered.2 again

namespace Sample

def z : Id := ⟨.str (lit "z"), none⟩

def listing (ids : List Id) : List Instance :=
  ids.map fun id => ⟨some id, none, some (.arr [.str (lit "n")])⟩

/-- A balanced pick at that time. -/
def going (now : Rat) (ids : List Id) : Op := .pick now ⟨0, 0⟩ (listing ids) chute (lit "balanced")

end Sample

theorem round_robin_fair_sample :
    Returned defaultConfig Sample.platform Sample.chute Sample.y
      ((Sample.going 0 [Sample.x, Sample.y, Sample.z]).apply defaultConfig Sample.platform initial)
      [Sample.going 1 [Sample.z, Sample.y, Sample.x], Sample.going 2 [Sample.x, Sample.y, Sample.z]] :=
  @round_robin_fair defaultConfig Sample.platform Sample.chute []
    [Sample.going 1 [Sample.z, Sample.y, Sample.x], Sample.going 2 [Sample.x, Sample.y, Sample.z]]
    (Sample.going 0 [Sample.x, Sample.y, Sample.z]) (Sample.going 3 [Sample.x, Sample.y, Sample.z])
    Sample.x Sample.y (by decide) (by decide) (by decide)
    (by decide) (by decide)

/-- One member is not listed any more when the last one was just returned: the next
    pick returns that one again instead of the one whose turn it is. -/
theorem vanished_member_skips :
    ¬ ∀ (cfg : Config) (pf : Platform) (chute : Value) (ops between : List Op) (first second : Op)
      (x y : Id), y ≠ x →
      first.returns cfg pf chute (run cfg pf initial ops) x →
      second.returns cfg pf chute
        (run cfg pf (first.apply cfg pf (run cfg pf initial ops)) between) x →
      Offered cfg pf chute y (run cfg pf initial ops) (first :: between ++ [second]) →
      Returned cfg pf chute y (first.apply cfg pf (run cfg pf initial ops)) between := by
  intro always
  have returned := always defaultConfig Sample.platform Sample.chute
    [Sample.going 0 [Sample.x, Sample.y, Sample.z], Sample.going 1 [Sample.x, Sample.y, Sample.z]] []
    (Sample.going 2 [Sample.x, Sample.y, Sample.z]) (Sample.going 3 [Sample.y, Sample.z])
    Sample.z Sample.y (by decide) (by decide) (by decide)
    (by decide)
  exact returned

end E2eeProxy.Selector
