import E2eeProxy.SelectorPick
import Mathlib.Algebra.Order.Ring.Rat

/-! # A banned instance is passed over

`invalidate` bans an instance for a while. No other call lifts the ban before it
has expired, unless it drops all state of the chute, and while it lasts no pick
returns the instance if it has another one to return.
-/

namespace E2eeProxy.Selector

open Lua

/-- A call of the selector, at the time it reads off the clock. -/
inductive Op where
  | pick (now : Rat) (rolls : Rolls) (instances : List Instance) (chute : Value) (mode : Bytes)
  | record (now : Rat) (chute : Value) (id : Id) (ttft : Option Rat) (ok : Bool)
  | invalidate (now : Rat) (chute : Value) (id : Option Id)

section Ops

variable (cfg : Config) (pf : Platform)

def Op.apply (st : State) : Op → State
  | .pick now rolls instances chute mode =>
      (Selector.pick cfg pf now rolls st instances chute mode).1
  | .record now chute id ttft ok => Selector.record cfg now st chute id ttft ok
  | .invalidate now chute id => Selector.invalidate cfg now st chute id

def run (st : State) (ops : List Op) : State := ops.foldl (Op.apply cfg pf) st

/-! ## The ban -/

/-- The instance is banned until then. -/
def Banned (st : State) (chute : Value) (id : Id) (expires : Rat) : Prop :=
  ∃ cs, st chute = some cs ∧ cs.banned id = some expires

/-- The call does not drop the chute, and if it is a pick for it then it comes
    before the ban expires. -/
def Op.spares (chute : Value) (expires : Rat) : Op → Prop
  | .pick now _ _ chute' _ => chute' = chute → now < expires
  | .record .. => True
  | .invalidate _ chute' id => chute' = chute → id ≠ none

/-- When the ban expires after the call, which may have renewed it. -/
def Op.renews (chute : Value) (id : Id) (expires : Rat) : Op → Rat
  | .invalidate now chute' (some id') =>
      if chute' = chute ∧ id' = id then now + cfg.routeBanS else expires
  | _ => expires

def Spared (chute : Value) (id : Id) : Rat → List Op → Prop
  | _, [] => True
  | expires, op :: ops => op.spares chute expires ∧ Spared chute id (op.renews cfg chute id expires) ops

/-- When the ban expires after the calls. -/
def expiry (chute : Value) (id : Id) (expires : Rat) (ops : List Op) : Rat :=
  ops.foldl (Op.renews cfg chute id) expires

variable {cfg pf} {st : State} {chute : Value} {id : Id} {expires : Rat}

@[simp] theorem choose_banned (now : Rat) (rolls : Rolls) (mode : RouteMode) (cs : ChuteState)
    (instances : List Instance) (cands : List Cand) :
    (choose cfg pf now rolls mode cs instances cands).1.banned = cs.banned := by
  cases mode with
  | default | performance => rfl
  | agent =>
      dsimp only [choose, pickAgent]
      split <;> rfl
  | balanced =>
      dsimp only [choose, pickBalanced]
      split <;> rfl

/-- A pick lifts no ban that still counts. -/
theorem withoutBanned_banned {now : Rat} {cs : ChuteState} (ban : cs.banned id = some expires)
    (before : now < expires) (cands : List Cand) :
    (withoutBanned now cs cands).1.banned id = some expires := by
  have out : ¬ ((cands.filter fun c => allowed cs now c.id).any fun c => c.id = id) = true := by
    intro passes
    obtain ⟨c, mem, same⟩ := List.any_eq_true.mp passes
    have free := (List.mem_filter.mp mem).2
    rw [of_decide_eq_true same, allowed, ban, Option.all_some, decide_eq_true_eq] at free
    exact absurd before (not_lt.mpr free)
  rw [withoutBanned]
  dsimp only
  rw [if_neg out, ban]

theorem Banned.pick (h : Banned st chute id expires) {now : Rat} {rolls : Rolls}
    {instances : List Instance} {chute' : Value} {mode : Bytes}
    (before : chute' = chute → now < expires) :
    Banned (pick cfg pf now rolls st instances chute' mode).1 chute id expires := by
  obtain ⟨cs, here, ban⟩ := h
  unfold Selector.pick
  split
  · exact ⟨cs, here, ban⟩
  · by_cases same : chute' = chute
    · subst same
      have kept := withoutBanned_banned ban (before rfl) (eligible instances)
      dsimp only [chuteState]
      rw [here, Option.getD_some]
      split
      · exact ⟨_, Function.update_self .., kept⟩
      · refine ⟨_, Function.update_self .., ?_⟩
        rw [choose_banned]
        exact kept
    · dsimp only
      split
      · exact ⟨cs, (Function.update_of_ne (Ne.symm same) ..).trans here, ban⟩
      · exact ⟨cs, (Function.update_of_ne (Ne.symm same) ..).trans here, ban⟩

theorem Banned.record (h : Banned st chute id expires) (now : Rat) (chute' : Value) (id' : Id)
    (ttft : Option Rat) (ok : Bool) :
    Banned (record cfg now st chute' id' ttft ok) chute id expires := by
  obtain ⟨cs, here, ban⟩ := h
  by_cases same : chute' = chute
  · subst same
    refine ⟨_, Function.update_self .., ?_⟩
    rw [chuteState, here]
    exact ban
  · exact ⟨cs, (Function.update_of_ne (Ne.symm same) ..).trans here, ban⟩

/-- `invalidate` bans. -/
theorem invalidate_bans {now : Rat} (known : (st chute).isSome) :
    Banned (invalidate cfg now st chute (some id)) chute id (now + cfg.routeBanS) := by
  obtain ⟨cs, here⟩ := Option.isSome_iff_exists.mp known
  unfold invalidate
  rw [here]
  refine Banned.record ⟨_, Function.update_self .., ?_⟩ now chute id none false
  exact Function.update_self ..

theorem Banned.invalidate (h : Banned st chute id expires) {now : Rat} {chute' : Value} {id' : Id}
    (other : ¬ (chute' = chute ∧ id' = id)) :
    Banned (invalidate cfg now st chute' (some id')) chute id expires := by
  obtain ⟨cs, here, ban⟩ := h
  unfold Selector.invalidate
  cases there : st chute' with
  | none => exact ⟨cs, here, ban⟩
  | some cs' =>
      refine Banned.record ?_ now chute' id' none false
      by_cases same : chute' = chute
      · subst same
        obtain rfl := Option.some.inj (there.symm.trans here)
        refine ⟨_, Function.update_self .., ?_⟩
        exact (Function.update_of_ne (fun eq => other ⟨rfl, eq.symm⟩) ..).trans ban
      · exact ⟨cs, (Function.update_of_ne (Ne.symm same) ..).trans here, ban⟩

theorem Banned.apply (h : Banned st chute id expires) {op : Op} (spares : op.spares chute expires) :
    Banned (op.apply cfg pf st) chute id (op.renews cfg chute id expires) := by
  cases op with
  | pick => exact h.pick spares
  | record => exact h.record _ _ _ _ _
  | invalidate now chute' id' =>
      cases id' with
      | none =>
          obtain ⟨cs, here, ban⟩ := h
          have differ : chute ≠ chute' := fun same => spares same.symm rfl
          dsimp only [Op.apply, Op.renews, Selector.invalidate]
          cases st chute' with
          | none => exact ⟨cs, here, ban⟩
          | some cs' => exact ⟨cs, (Function.update_of_ne differ ..).trans here, ban⟩
      | some id' =>
          dsimp only [Op.apply, Op.renews]
          split
          · rename_i same
            obtain ⟨rfl, rfl⟩ := same
            obtain ⟨cs, here, -⟩ := h
            exact invalidate_bans (by simp [here])
          · rename_i other
            exact h.invalidate other

theorem Banned.run (h : Banned st chute id expires) {ops : List Op}
    (spared : Spared cfg chute id expires ops) :
    Banned (run cfg pf st ops) chute id (expiry cfg chute id expires ops) := by
  induction ops generalizing st expires with
  | nil => exact h
  | cons op ops ih => exact ih (h.apply spared.1) spared.2

/-! ## Picks during a ban -/

/-- Another instance with nonces could be returned. -/
def HasOther (st : State) (now : Rat) (instances : List Instance) (chute : Value) (id : Id) : Prop :=
  ∃ inst ∈ instances, ∃ other, inst.instanceId = some other ∧ other ≠ id ∧ 0 < inst.nonceCount ∧
    allowed (chuteState st chute) now other = true

theorem pick_candidates {now : Rat} {rolls : Rolls} {instances : List Instance} {mode : Bytes}
    {c : Cand} {r : Reason}
    (h : (pick cfg pf now rolls st instances chute mode).2 = some (c, r)) :
    c ∈ candidates now st instances chute := by
  unfold pick at h
  split at h
  · cases h
  · dsimp only at h
    split at h
    · rename_i d found
      obtain ⟨rfl, -⟩ : d = c ∧ _ = r := by simpa using h
      obtain ⟨id, -, found⟩ := Option.bind_eq_some_iff.mp found
      exact (find_some found).1
    · exact choose_mem cfg pf now instances h

theorem Banned.passed_over (h : Banned st chute id expires) {now : Rat} (before : now < expires)
    {instances : List Instance} (other : HasOther st now instances chute id) {rolls : Rolls}
    {mode : Bytes} {c : Cand} {r : Reason}
    (picked : (Selector.pick cfg pf now rolls st instances chute mode).2 = some (c, r)) : c.id ≠ id := by
  obtain ⟨cs, here, ban⟩ := h
  obtain ⟨inst, mem, other, hasId, -, nonces, free⟩ := other
  obtain ⟨i, there⟩ := List.getElem?_of_mem mem
  have candidate : (⟨i, other⟩ : Cand) ∈ eligible instances :=
    mem_eligible.mpr ⟨inst, there, hasId, nonces⟩
  have out : (eligible instances).filter (fun c => allowed (chuteState st chute) now c.id) ≠ [] :=
    List.ne_nil_of_mem (List.mem_filter.mpr ⟨candidate, free⟩)
  have chosen := pick_candidates picked
  unfold candidates withoutBanned at chosen
  dsimp only at chosen
  rw [if_neg out] at chosen
  rintro rfl
  have passes := (List.mem_filter.mp chosen).2
  rw [chuteState, here, Option.getD_some, allowed, ban, Option.all_some,
    decide_eq_true_eq] at passes
  exact absurd before (not_lt.mpr passes)

end Ops

/-- After `invalidate` of an instance no pick before the ban expires returns it
    while there is another one, whatever calls come between that do not drop the
    chute; and where all are banned one is returned, except in balanced mode. -/
theorem failover_moves_away (cfg : Config) (pf : Platform) {st : State} {chute : Value}
    (known : (st chute).isSome) (id : Id) (banning : Rat) {ops : List Op}
    (spared : Spared cfg chute id (banning + cfg.routeBanS) ops) :
    let st' := run cfg pf st (.invalidate banning chute (some id) :: ops)
    (∀ now rolls instances mode c r,
      now < expiry cfg chute id (banning + cfg.routeBanS) ops →
      HasOther st' now instances chute id →
      (pick cfg pf now rolls st' instances chute mode).2 = some (c, r) → c.id ≠ id) ∧
    ∀ now rolls instances mode, eligible instances ≠ [] → modeOf cfg mode ≠ .balanced →
      (∀ c ∈ eligible instances, allowed (chuteState st' chute) now c.id = false) →
      (pick cfg pf now rolls st' instances chute mode).2.isSome := by
  intro st'
  have banned : Banned st' chute id (expiry cfg chute id (banning + cfg.routeBanS) ops) :=
    (invalidate_bans known).run spared
  refine ⟨fun now rolls instances mode c r before other picked => ?_,
    fun now rolls instances mode some' mode' _ => ?_⟩
  · exact banned.passed_over before other picked
  · exact (pick_isSome_iff cfg pf now rolls st' instances chute mode some').mpr
      fun stuck => mode' stuck.1

/-! ## Dropping the chute -/

namespace Sample

def x : Id := ⟨.str (lit "x"), none⟩

def y : Id := ⟨.str (lit "y"), none⟩

def chute : Value := .str (lit "chute")

def both : List Instance :=
  [⟨some x, none, some (.arr [.str (lit "n1")])⟩, ⟨some y, none, some (.arr [.str (lit "n2")])⟩]

def platform : Platform where
  toRuntime := .ofDocuments []
  halfPower _ := 1
  sha256 := id
  decodeBase64 := some

/-- The state after a first pick. -/
def picked : State :=
  run defaultConfig platform (fun _ => none) [.pick 0 ⟨0, 0⟩ both chute (lit "default")]

end Sample

theorem sample_moves_away :
    (pick defaultConfig Sample.platform 2 ⟨0, 0⟩
      (run defaultConfig Sample.platform Sample.picked
        [.invalidate 0 Sample.chute (some Sample.x), .record 1 Sample.chute Sample.x none false])
      Sample.both Sample.chute (lit "agent")).2 = some (⟨1, Sample.y⟩, .new) ∧
    Sample.y ≠ Sample.x := by
  have picked : (pick defaultConfig Sample.platform 2 ⟨0, 0⟩
      (run defaultConfig Sample.platform Sample.picked
        [.invalidate 0 Sample.chute (some Sample.x), .record 1 Sample.chute Sample.x none false])
      Sample.both Sample.chute (lit "agent")).2 = some (⟨1, Sample.y⟩, .new) := by decide +kernel
  have known : (Sample.picked Sample.chute).isSome := by decide
  have spared : Spared defaultConfig Sample.chute Sample.x (0 + defaultConfig.routeBanS)
      [.record 1 Sample.chute Sample.x none false] := ⟨trivial, trivial⟩
  refine ⟨picked, (failover_moves_away defaultConfig Sample.platform known Sample.x 0 spared).1
    2 ⟨0, 0⟩ Sample.both (lit "agent") _ _ (by decide +kernel) ?_ picked⟩
  exact ⟨_, List.mem_cons_of_mem _ List.mem_cons_self, Sample.y, rfl, by decide,
    by decide, by decide⟩

/-- A call that drops the chute drops its bans. -/
theorem dropped_chute_forgets :
    ¬ ∀ (cfg : Config) (pf : Platform) (st : State) (chute : Value) (id : Id) (banning : Rat)
      (ops : List Op) (now : Rat) (rolls : Rolls) (instances : List Instance) (mode : Bytes)
      (c : Cand) (r : Reason), 0 < cfg.routeBanS → (∃ first, st = run cfg pf (fun _ => none) first) →
      (st chute).isSome →
      now < expiry cfg chute id (banning + cfg.routeBanS) ops →
      HasOther (run cfg pf st (.invalidate banning chute (some id) :: ops)) now instances chute id →
      (pick cfg pf now rolls (run cfg pf st (.invalidate banning chute (some id) :: ops)) instances
        chute mode).2 = some (c, r) → c.id ≠ id := by
  intro always
  refine always defaultConfig Sample.platform Sample.picked Sample.chute Sample.x 0
    [.invalidate 0 Sample.chute none] 1 ⟨0, 0⟩ Sample.both (lit "default") ⟨0, Sample.x⟩ .first
    (by decide +kernel) ⟨_, rfl⟩ (by decide +kernel) (by decide +kernel) ?_ (by decide +kernel) rfl
  exact ⟨_, List.mem_cons_of_mem _ List.mem_cons_self, Sample.y, rfl, by decide,
    by decide, by decide⟩

end E2eeProxy.Selector
