import E2eeProxy.RoundRobin
import Mathlib.Data.List.MinMax

/-! # The agent mode

An instance that an agent pick returned is sticky: it is returned again for as long
as it may be picked, whatever else happens to the chute. Without one the candidate
with the least score is taken.
-/

namespace E2eeProxy.Selector

open Lua Lib

/-- The sticky instance of a chute. -/
def sticky (st : State) (chute : Value) : Option Id := (chuteState st chute).sticky

theorem sticky_update (st : State) (chute : Value) (cs : ChuteState) :
    sticky (Function.update st chute (some cs)) chute = cs.sticky := by
  rw [sticky, chuteState, Function.update_self, Option.getD_some]

/-! ## What a call does to it -/

section Steps

variable {cfg : Config} {now : Rat} {st : State} {chute chute' : Value} {s : Id}

theorem record_sticky (id : Id) (ttft : Option Rat) (ok : Bool) :
    sticky (record cfg now st chute' id ttft ok) chute = sticky st chute := by
  unfold record sticky chuteState
  by_cases same : chute' = chute
  · subst same
    rw [Function.update_self]
    rfl
  · rw [Function.update_of_ne (Ne.symm same)]

theorem invalidate_sticky_elsewhere (differ : chute' ≠ chute) (id : Option Id) :
    sticky (invalidate cfg now st chute' id) chute = sticky st chute := by
  unfold invalidate
  split
  · rfl
  · unfold sticky chuteState
    rw [Function.update_of_ne (Ne.symm differ)]
  · rw [record_sticky]
    unfold sticky chuteState
    rw [Function.update_of_ne (Ne.symm differ)]

/-- Only the sticky instance itself loses its place. -/
theorem invalidate_sticky {id : Id} (known : sticky st chute = some s) (other : id ≠ s) :
    sticky (invalidate cfg now st chute (some id)) chute = some s := by
  cases found : st chute with
  | none =>
      unfold invalidate
      rw [found]
      exact known
  | some cs =>
      have here : cs.sticky = some s := by rwa [sticky, chuteState, found, Option.getD_some] at known
      unfold invalidate
      rw [found]
      dsimp only
      rw [record_sticky, sticky_update]
      dsimp only
      rw [here]
      exact if_neg fun same => other (Option.some.inj same).symm

end Steps

section Pick

variable (cfg : Config) (pf : Platform) (now : Rat) (rolls : Rolls) (st : State)
  (instances : List Instance) (chute : Value) (mode : Bytes)

/-- A pick that is made by stickiness. -/
def AgentPick : Prop :=
  modeOf cfg mode = .agent ∧ eligible instances ≠ []

/-- The sticky instance, if it is a candidate. -/
def usableSticky : Option Cand := (sticky st chute).bind (find (candidates now st instances chute))

variable {cfg st instances mode}

theorem pick_agent (unpinned : cfg.pinInstanceId = none) (agent : AgentPick cfg instances mode) :
    ∃ cs : ChuteState, cs.sticky = sticky st chute ∧ cs.stats = (chuteState st chute).stats ∧
      let chosen := pickAgent cfg pf now cs (candidates now st instances chute)
      pick cfg pf now rolls st instances chute mode =
        (Function.update st chute (some chosen.1), chosen.2) := by
  obtain ⟨mode', some'⟩ := agent
  refine ⟨(withoutBanned now (chuteState st chute) (eligible instances)).1, rfl, rfl, ?_⟩
  unfold pick
  rw [if_neg some']
  dsimp only
  rw [pinned, unpinned, Option.bind_none, mode']
  rfl

/-- Whoever an agent pick returns is sticky. -/
theorem agent_sets {c : Cand} {r : Reason} (unpinned : cfg.pinInstanceId = none)
    (agent : AgentPick cfg instances mode)
    (returned : (pick cfg pf now rolls st instances chute mode).2 = some (c, r)) :
    sticky (pick cfg pf now rolls st instances chute mode).1 chute = some c.id := by
  obtain ⟨cs, -, -, picked⟩ := pick_agent pf now rolls chute unpinned agent
  rw [picked] at returned ⊢
  dsimp only at returned ⊢
  rw [sticky_update]
  unfold pickAgent at returned ⊢
  split at returned
  · cases returned
    rfl
  · cases returned
  · cases returned
    rfl

/-- A sticky instance that is a candidate is returned. -/
theorem agent_keeps {c : Cand} (unpinned : cfg.pinInstanceId = none)
    (agent : AgentPick cfg instances mode)
    (usable : usableSticky now st instances chute = some c) :
    (pick cfg pf now rolls st instances chute mode).2 = some (c, .sticky) := by
  obtain ⟨cs, same, -, picked⟩ := pick_agent pf now rolls chute unpinned agent
  rw [usableSticky, ← same] at usable
  rw [picked]
  unfold pickAgent
  rw [usable]

/-- Other picks leave it. -/
theorem pick_sticky (other : ¬ AgentPick cfg instances mode) :
    sticky (pick cfg pf now rolls st instances chute mode).1 chute = sticky st chute := by
  unfold pick
  split
  · rfl
  · rename_i some'
    dsimp only
    split
    · rw [sticky_update]
      rfl
    · rw [sticky_update]
      cases mode' : modeOf cfg mode with
      | agent => exact absurd ⟨mode', some'⟩ other
      | default | performance => rfl
      | balanced =>
          dsimp only [choose]
          rw [pickBalanced_eq]
          rfl

end Pick

/-! ## The least score -/

/-- The scan is for the first of the candidates with the least score. -/
theorem fastest_argmin (cfg : Config) (pf : Platform) (now : Rat) (cs : ChuteState) (c : Cand)
    (cands : List Cand) :
    (c :: cands).argmin (fun d => score cfg pf now cs d.id) =
      some (fastest cfg pf now cs c (c :: cands)) := by
  have scan (cands : List Cand) (chosen : Cand) :
      cands.foldl (List.argAux fun b d => score cfg pf now cs b.id < score cfg pf now cs d.id)
        (some chosen) = some (fastest cfg pf now cs chosen cands) := by
    induction cands generalizing chosen with
    | nil => rfl
    | cons d cands ih =>
        rw [List.foldl_cons, List.argAux]
        dsimp only
        rw [← apply_ite some]
        exact ih _
  change List.foldl _ (some c) cands = _
  rw [fastest, List.foldl_cons, if_neg (lt_irrefl _)]
  exact scan cands c

/-- Stands before every candidate with the same score. -/
theorem argmin_split {cands : List Cand} {f : Cand → Rat} {c : Cand}
    (least : cands.argmin f = some c) :
    ∃ before after, cands = before ++ c :: after ∧ (∀ d ∈ cands, f c ≤ f d) ∧
      ∀ d ∈ before, f c < f d := by
  obtain ⟨mem, bound, first⟩ := List.argmin_eq_some_iff.mp least
  obtain ⟨before, after, rfl, absent⟩ := List.eq_append_cons_of_mem mem
  refine ⟨before, after, rfl, bound, fun d here => ?_⟩
  by_contra same
  have order := first d (List.mem_append_left _ here) (not_lt.mp same)
  rw [List.idxOf_append_of_notMem absent, List.idxOf_cons_self, List.idxOf_append_of_mem here] at order
  have less := List.idxOf_lt_length_of_mem here
  omega

section Runs

variable (cfg : Config) (pf : Platform) (chute : Value) (s : Id)

/-- An agent pick of the chute may pick the instance, which nothing invalidates. -/
def Op.keeps (st : State) : Op → Prop
  | .pick now _ instances chute' mode => chute' = chute → AgentPick cfg instances mode →
      (∃ c ∈ eligible instances, c.id = s) ∧ allowed (chuteState st chute) now s = true
  | .record .. => True
  | .invalidate _ chute' id => chute' = chute → ∃ other, id = some other ∧ other ≠ s

/-- If it is an agent pick of the chute, it returns the instance. -/
def Op.sticks (st : State) : Op → Prop
  | .pick now rolls instances chute' mode => chute' = chute → AgentPick cfg instances mode →
      (Selector.pick cfg pf now rolls st instances chute mode).2.map (fun (c, _) => c.id) = some s
  | .record .. | .invalidate .. => True

def Kept : State → List Op → Prop
  | _, [] => True
  | st, op :: ops => op.keeps cfg chute s st ∧ Kept (op.apply cfg pf st) ops

def Sticks : State → List Op → Prop
  | _, [] => True
  | st, op :: ops => op.sticks cfg pf chute s st ∧ Sticks (op.apply cfg pf st) ops

end Runs

section Sticky

variable {cfg : Config} {pf : Platform} {chute : Value} {s : Id} {st : State}

/-- An instance with nonces that is not banned is a candidate. -/
theorem mem_candidates {now : Rat} {instances : List Instance} {c : Cand}
    (listed : c ∈ eligible instances) (free : allowed (chuteState st chute) now c.id = true) :
    c ∈ candidates now st instances chute := by
  have kept : c ∈ (eligible instances).filter fun d => allowed (chuteState st chute) now d.id :=
    List.mem_filter.mpr ⟨listed, free⟩
  unfold candidates withoutBanned
  dsimp only
  rw [if_neg (List.ne_nil_of_mem kept)]
  exact kept

theorem agent_returns (pf : Platform) {now : Rat} {instances : List Instance} {mode : Bytes}
    (rolls : Rolls) (unpinned : cfg.pinInstanceId = none) (agent : AgentPick cfg instances mode)
    (known : sticky st chute = some s) (listed : ∃ c ∈ eligible instances, c.id = s)
    (free : allowed (chuteState st chute) now s = true) :
    (pick cfg pf now rolls st instances chute mode).2.map (fun (c, _) => c.id) = some s := by
  obtain ⟨d, listed, rfl⟩ := listed
  obtain ⟨c, found⟩ := Option.isSome_iff_exists.mp (find_isSome (mem_candidates listed free))
  have usable : usableSticky now st instances chute = some c := by
    rw [usableSticky, known, Option.bind_some, found]
  rw [agent_keeps pf now rolls chute unpinned agent usable]
  exact congrArg some (find_some found).2

/-- One call: an agent pick returns the sticky instance, and it stays sticky. -/
theorem sticky_step (pf : Platform) (unpinned : cfg.pinInstanceId = none)
    (known : sticky st chute = some s) {op : Op} (keeps : op.keeps cfg chute s st) :
    op.sticks cfg pf chute s st ∧ sticky (op.apply cfg pf st) chute = some s := by
  cases op with
  | record now chute' id ttft ok =>
      refine ⟨trivial, ?_⟩
      dsimp only [Op.apply]
      rw [record_sticky, known]
  | invalidate now chute' id =>
      refine ⟨trivial, ?_⟩
      dsimp only [Op.apply]
      by_cases same : chute' = chute
      · obtain ⟨other, rfl, differ⟩ := keeps same
        subst same
        exact invalidate_sticky known differ
      · rw [invalidate_sticky_elsewhere same, known]
  | pick now rolls instances chute' mode =>
      dsimp only [Op.apply]
      by_cases same : chute' = chute
      · subst same
        by_cases agent : AgentPick cfg instances mode
        · obtain ⟨listed, free⟩ := keeps rfl agent
          have returned := agent_returns pf rolls unpinned agent known listed free
          refine ⟨fun _ _ => returned, ?_⟩
          obtain ⟨⟨c, r⟩, picked, rfl⟩ := Option.map_eq_some_iff.mp returned
          exact agent_sets pf now rolls chute' unpinned agent picked
        · refine ⟨fun _ mode' => absurd mode' agent, ?_⟩
          rw [pick_sticky pf now rolls chute' agent, known]
      · refine ⟨fun same' => absurd same' same, ?_⟩
        rw [sticky, pick_elsewhere pf rolls same]
        exact known

theorem sticky_run (unpinned : cfg.pinInstanceId = none) {ops : List Op}
    (known : sticky st chute = some s) (kept : Kept cfg pf chute s st ops) :
    Sticks cfg pf chute s st ops := by
  induction ops generalizing st with
  | nil => trivial
  | cons op ops ih =>
      obtain ⟨sticks, next⟩ := sticky_step pf unpinned known kept.1
      exact ⟨sticks, ih next kept.2⟩

end Sticky

/-- Without a pin: after an agent pick that returned an instance every later one
    returns it too, while it may be picked and is not invalidated; and an agent pick
    without a usable sticky instance returns the first of the candidates with the
    least score. -/
theorem agent_sticks (cfg : Config) (pf : Platform) (chute : Value)
    (unpinned : cfg.pinInstanceId = none) (st : State) (now : Rat) (rolls : Rolls)
    (instances : List Instance) (mode : Bytes) (agent : AgentPick cfg instances mode) :
    let first := pick cfg pf now rolls st instances chute mode
    (∀ c r ops, first.2 = some (c, r) → Kept cfg pf chute c.id first.1 ops →
      Sticks cfg pf chute c.id first.1 ops) ∧
    (usableSticky now st instances chute = none →
      let cost := fun d : Cand => score cfg pf now (chuteState st chute) d.id
      ∃ c before after, first.2 = some (c, .new) ∧
        candidates now st instances chute = before ++ c :: after ∧
        (∀ d ∈ candidates now st instances chute, cost c ≤ cost d) ∧
        ∀ d ∈ before, cost c < cost d) := by
  intro first
  constructor
  · intro c r ops returned kept
    exact sticky_run unpinned (agent_sets pf now rolls chute unpinned agent returned) kept
  · intro unusable cost
    obtain ⟨cs, same, stats, picked⟩ := pick_agent pf now rolls chute unpinned agent
    have some' : candidates now st instances chute ≠ [] := withoutBanned_nonempty _ _ agent.2
    obtain ⟨d, cands, all⟩ := List.exists_cons_of_ne_nil some'
    have costs : cost = fun d => score cfg pf now cs d.id := by
      funext d
      dsimp only [cost]
      rw [score, score, stats]
    obtain ⟨before, after, split, least, earlier⟩ :=
      argmin_split (fastest_argmin cfg pf now cs d cands)
    rw [usableSticky, ← same, all] at unusable
    refine ⟨fastest cfg pf now cs d (d :: cands), before, after, ?_, ?_, ?_, ?_⟩
    · dsimp only [first]
      rw [picked, all]
      dsimp only [pickAgent]
      rw [unusable]
    · exact all.trans split
    · rw [all, costs]
      exact least
    · rw [costs]
      exact earlier

/-- A default pick, a slow answer and the ban of another leave an agent its instance. -/
theorem agent_sticks_sample :
    Sticks defaultConfig Sample.platform Sample.chute Sample.x
      (pick defaultConfig Sample.platform 0 ⟨0, 0⟩ initial Sample.both Sample.chute (lit "agent")).1
      [.record 1 Sample.chute Sample.x (some 9) true, .invalidate 2 Sample.chute (some Sample.y),
        .pick 3 ⟨0, 0⟩ Sample.both.reverse Sample.chute (lit "default"),
        .pick 4 ⟨0, 0⟩ Sample.both.reverse Sample.chute (lit "agent")] := by
  obtain ⟨sticks, -⟩ := agent_sticks defaultConfig Sample.platform Sample.chute rfl initial 0 ⟨0, 0⟩
    Sample.both (lit "agent") ⟨rfl, by decide⟩
  have differ : Sample.y ≠ Sample.x := by decide
  have listed : ⟨1, Sample.x⟩ ∈ eligible Sample.both.reverse := by decide
  refine sticks ⟨0, Sample.x⟩ .new _ (by decide +kernel)
    ⟨trivial, fun _ => ⟨_, rfl, differ⟩, ?_, fun _ _ => ⟨⟨_, listed, rfl⟩, ?_⟩, trivial⟩
  · rintro - ⟨mode', -⟩
    exact absurd mode' (by decide)
  · decide +kernel

end E2eeProxy.Selector
