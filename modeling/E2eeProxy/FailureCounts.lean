import E2eeProxy.FailureSteps
import E2eeProxy.NonceRuns

/-! # Failures that are counted once

Most ends of an attempt count one failure of the instance. To record a failure and to
drop the instance counts two, and some failures are not counted at all.
-/

namespace E2eeProxy.Handler

open Lua Lib Selector

theorem Exit.counted_iff (exit : Exit) :
    exit.counted = (if exit.failed then 1 else 0) ↔ exit.miscounted = false := by
  cases exit with
  | status code => by_cases server : 500 ≤ code <;> simp [counted, failed, miscounted, server]
  | attestation | encryption | connect | request | nonce403 | other403 | empty | undecryptable
    | noReader | streamError | served => simp [counted, failed, miscounted]

section Sums

variable (chuteId chute : Value) (id : Id)

/-- What attempts add up to if each counts by its end. -/
def weighted (f : Exit → ℕ) (attempts : List (Taken × Option Exit)) : ℤ :=
  (attempts.map fun a => weight chuteId chute id a.1.inst.instanceId * (a.2.elim 0 f : ℕ)).sum

variable {chuteId chute id}

theorem weighted_congr {f g : Exit → ℕ} {attempts : List (Taken × Option Exit)}
    (same : ∀ taken exit, (taken, some exit) ∈ attempts → f exit = g exit) :
    weighted chuteId chute id f attempts = weighted chuteId chute id g attempts := by
  unfold weighted
  congr 1
  apply List.map_congr_left
  rintro ⟨taken, exit⟩ mem
  cases exit with
  | none => rfl
  | some exit => simp only [Option.elim_some, same taken exit mem]

theorem Passed.not_miscounted {before : List (Taken × Option Exit)} (passed : Passed before) :
    ∀ taken exit, (taken, some exit) ∈ before → exit.miscounted = false := by
  intro taken exit mem
  rcases passed _ mem with ends | ends
  · cases ends
    rfl
  · cases ends
    rfl

theorem Passed.weighted {before : List (Taken × Option Exit)} (passed : Passed before) :
    weighted chuteId chute id Exit.counted before = total chuteId chute id before := by
  unfold Handler.weighted total
  congr 1
  apply List.map_congr_left
  intro attempt mem
  rcases passed _ mem with ends | ends
  · rw [ends]
    exact mul_one _
  · rw [ends]
    exact mul_one _

theorem countP_weighted (attempts : List (Taken × Option Exit)) :
    (attempts.countP (fun (taken, exit) => taken.inst.instanceId = id && exit.any Exit.failed) : ℤ) =
      weighted chute chute id (fun exit => if exit.failed then 1 else 0) attempts := by
  induction attempts with
  | nil => rfl
  | cons a attempts ih =>
      rw [List.countP_cons, Nat.cast_add, ih, weighted, weighted, List.map_cons, List.sum_cons,
        add_comm]
      congr 1
      obtain ⟨taken, exit⟩ := a
      by_cases here : taken.inst.instanceId = id
      · cases exit with
        | none => simp [weight, here]
        | some exit => simp [weight, here]
      · simp [weight, here]

theorem weighted_elsewhere (differ : chuteId ≠ chute) (f : Exit → ℕ)
    (attempts : List (Taken × Option Exit)) : weighted chuteId chute id f attempts = 0 := by
  unfold weighted weight
  simp [differ]

end Sums

section Run

variable {cfg : Config} {pf : Platform} {t : ℕ} {stretches : List (Stretch proxy)} {v : View proxy}

/-- What the stretches of a task add to the failures of an instance. -/
def grown (stretches : List (Stretch proxy)) (chute : Value) (id : Id) : ℤ :=
  (stretches.map fun stretch =>
    failsOf chute id stretch.after - failsOf chute id stretch.before).sum

theorem sampled_grown {chute : Value} {id : Id} {counts : List ℕ}
    (sampled : List.Forall₂ (fun k (stretch : Stretch proxy) =>
      Sampled cfg k (statsOf stretch.before.selector chute id)
        (statsOf stretch.after.selector chute id)) counts stretches) :
    grown stretches chute id = counts.sum := by
  induction sampled with
  | nil => rfl
  | cons here _ ih =>
      rw [grown, List.map_cons, List.sum_cons, List.sum_cons, Nat.cast_add, ← ih]
      congr 1
      rw [failsOf, failsOf, here.fails, Nat.cast_add]
      exact add_sub_cancel_left _ _

theorem kept_sampled (kept : ∀ stretch ∈ stretches, Kept cfg stretch.before stretch.after)
    (chute : Value) (id : Id) :
    ∃ counts, List.Forall₂ (fun k (stretch : Stretch proxy) =>
      Sampled cfg k (statsOf stretch.before.selector chute id)
        (statsOf stretch.after.selector chute id)) counts stretches := by
  induction stretches with
  | nil => exact ⟨[], .nil⟩
  | cons stretch stretches ih =>
      obtain ⟨here, rest⟩ := List.forall_mem_cons.mp kept
      obtain ⟨k, sampled⟩ := here.2 chute id
      obtain ⟨counts, others⟩ := ih rest
      exact ⟨k :: counts, .cons sampled others⟩

/-- Every sample is counted, so it is a matter of the counter. -/
theorem countedOnce_iff (kept : ∀ stretch ∈ stretches, Kept cfg stretch.before stretch.after) :
    CountedOnce cfg t stretches v ↔
      ∀ chute id, grown stretches chute id = failures t v chute id := by
  constructor
  · intro once chute id
    obtain ⟨counts, sampled, sum⟩ := once chute id
    rw [sampled_grown sampled, sum]
  · intro same chute id
    obtain ⟨counts, sampled⟩ := kept_sampled kept chute id
    refine ⟨counts, sampled, ?_⟩
    have sum := (sampled_grown sampled).symm.trans (same chute id)
    exact_mod_cast sum

/-- The attempts as they are at the end of a request. -/
def Over (chuteId : Value) (t : ℕ) (v : View proxy) : Prop :=
  chuteIn (seenBy t v) = some chuteId ∧
    (Passed (ended t v) ∨
      ∃ taken exit before, ended t v = (taken, some exit) :: before ∧ Passed before)

theorem Counted.over {chuteId chute : Value} {id : Id} {n : ℤ}
    (counted : Counted t chuteId chute id n v) : Over chuteId t v ∧
      n = weighted chuteId chute id Exit.counted (ended t v) := by
  rcases counted with ⟨again, between⟩ | ⟨found, taken, exit, before, here, passed, rfl⟩
  · exact ⟨⟨between.found, .inl between.passed⟩, between.passed.weighted ▸ between.count⟩
  · refine ⟨⟨found, .inr ⟨taken, exit, before, here, passed⟩⟩, ?_⟩
    rw [here, weighted, List.map_cons, List.sum_cons, add_comm]
    exact congrArg _ passed.weighted.symm

/-- The failed attempts, one by one. -/
theorem failures_weighted {chuteId : Value} (found : chuteIn (seenBy t v) = some chuteId)
    (chute : Value) (id : Id) : (failures t v chute id : ℤ) =
      weighted chuteId chute id (fun exit => if exit.failed then 1 else 0) (ended t v) := by
  unfold failures
  by_cases same : chuteId = chute
  · subst same
    rw [if_pos found]
    exact countP_weighted _
  · rw [if_neg fun other => same (Option.some.inj (found.symm.trans other)),
      weighted_elsewhere same]
    rfl

/-- All that the attempts count is right for each instance, if each end counts right. -/
theorem Over.counts_iff {chuteId : Value} (over' : Over chuteId t v) :
    (∀ chute id, weighted chuteId chute id Exit.counted (ended t v) = failures t v chute id) ↔
      ∀ taken exit, (taken, some exit) ∈ ended t v → exit.miscounted = false := by
  obtain ⟨found, shape⟩ := over'
  constructor
  · intro same
    rcases shape with passed | ⟨taken, exit, before, here, passed⟩
    · exact passed.not_miscounted
    · have sums := same chuteId taken.inst.instanceId
      have earlier : weighted chuteId chuteId taken.inst.instanceId Exit.counted before =
          weighted chuteId chuteId taken.inst.instanceId (fun exit => if exit.failed then 1 else 0)
            before :=
        weighted_congr fun taken' exit' mem =>
          exit'.counted_iff.mpr (passed.not_miscounted taken' exit' mem)
      rw [failures_weighted found, here, weighted, weighted, List.map_cons, List.map_cons,
        List.sum_cons, List.sum_cons] at sums
      have last := add_right_cancel (sums.trans (congrArg _ earlier.symm))
      have right : exit.miscounted = false := by
        have counts : (exit.counted : ℤ) = ((if exit.failed then 1 else 0 : ℕ) : ℤ) := by
          simpa [weight] using last
        exact exit.counted_iff.mp (Nat.cast_injective counts)
      rw [here]
      intro taken' exit' mem
      cases List.mem_cons.mp mem with
      | inl head =>
          cases head
          exact right
      | inr tail => exact passed.not_miscounted taken' exit' tail
  · intro right chute id
    rw [failures_weighted found]
    exact weighted_congr fun taken exit mem => exit.counted_iff.mpr (right taken exit mem)

end Run

/-- In every run of a request among any others: each failed attempt is counted once, and
    no other, exactly if none of them failed at sealing, by the request, with a first 403
    that names no nonce, with a server error, or for want of a reader. -/
theorem counted_once_iff {cfg : Config} {pf : Platform}
    {admits : View proxy → (r : Request) → r.Answer → Prop} {s : ProxyState}
    {w : World proxy (Except Failure (Option Bytes))} {t : ℕ} {call : Call}
    {stretches : List (Stretch proxy)} {result : Except Failure (Option Bytes)} {v : View proxy}
    (reach : Reachable admits (Calls cfg pf) s w) (fresh : ∀ e ∈ w.view.history, e.task ≠ t)
    (run : RunsThrough admits (Calls cfg pf) t (e2eeRoundTrip cfg pf call) w stretches result v) :
    CountedOnce cfg t stretches v ↔
      ∀ taken exit, (taken, some exit) ∈ ended t v → exit.miscounted = false := by
  have start : ∀ p, Calls cfg pf p → KeepsTo (Kept cfg) p := by
    rintro p ⟨call, rfl⟩
    exact roundTrip_kept cfg pf call
  have waits := reach.keeping Kept.refl Kept.trans start
  have keeping := roundTrip_kept cfg pf call w.view.state
  have none : seenBy t w.view = [] := by
    rw [seenBy, List.filter_eq_nil_iff.mpr fun e mem own => fresh e mem (of_decide_eq_true own)]
    rfl
  rw [countedOnce_iff (run.keeping Kept.refl Kept.trans start waits keeping)]
  have adds (chute : Value) (id : Id) :
      (grown stretches chute id = 0 ∧ chuteIn (seenBy t v) = .none ∧ ended t v = []) ∨
        ∃ chuteId, Counted t chuteId chute id (grown stretches chute id) v := by
    have counted := run.adds Kept.refl Kept.trans start waits keeping (roundTrip_adds chute id none)
    rwa [zero_add] at counted
  rcases adds .null ⟨.null, .none⟩ with ⟨-, unresolved, none⟩ | ⟨chuteId, counted⟩
  · rw [none]
    refine ⟨fun _ _ _ mem => absurd mem List.not_mem_nil, fun _ chute id => ?_⟩
    rcases adds chute id with ⟨zero, -, -⟩ | ⟨chuteId, counted⟩
    · rw [zero, failures, unresolved, if_neg (Option.some_ne_none chute).symm]
      rfl
    · cases counted.over.1.1.symm.trans unresolved
  · have over' := counted.over.1
    rw [← over'.counts_iff]
    refine forall_congr' fun chute => forall_congr' fun id => ?_
    rcases adds chute id with ⟨-, unresolved, -⟩ | ⟨chuteId', counted'⟩
    · cases over'.1.symm.trans unresolved
    · obtain ⟨⟨found, -⟩, sum⟩ := counted'.over
      obtain rfl : chuteId' = chuteId := Option.some.inj (found.symm.trans over'.1)
      rw [sum]

namespace Sample

/-- A request that runs alone. -/
def alone (oracle : (r : Request) → r.Answer) :
    Option (List (Stretch proxy) × Except Failure (Option Bytes) × View proxy) :=
  playThrough 0 (fun _ => oracle) 9 (e2eeRoundTrip unattested platform call) ⟨.new, 0, []⟩

/-- The connection is made, and the request fails. -/
def requestFails : (r : Request) → r.Answer
  | .connect => .ok ()
  | r => answers r

def fresh : World proxy (Except Failure (Option Bytes)) := World.initial .new 0

theorem alone_runs {oracle : (r : Request) → r.Answer} {stretches : List (Stretch proxy)}
    {result : Except Failure (Option Bytes)} {v : View proxy}
    (played : alone oracle = some (stretches, result, v)) :
    RunsThrough (fun _ _ _ => True) (Calls unattested platform) 0
      (e2eeRoundTrip unattested platform call) fresh stretches result v :=
  playThrough_runs (fun _ _ => trivial) played

/-- The instance that is handed out. -/
def instanceA : Id := ⟨.str (lit "a"), none⟩

end Sample

/-- A refused connection is counted once. -/
theorem counted_once_sample :
    ∃ stretches result v, Sample.alone Sample.answers = some (stretches, result, v) ∧
      (ended 0 v).map Prod.snd = [some .connect] ∧
      CountedOnce Sample.unattested 0 stretches v := by
  have exits : (Sample.alone Sample.answers).map (fun ran => (ended 0 ran.2.2).map Prod.snd) =
      some [some .connect] := by decide +kernel
  obtain ⟨⟨stretches, result, v⟩, played, same⟩ := Option.map_eq_some_iff.mp exits
  refine ⟨stretches, result, v, played, same, ?_⟩
  apply (counted_once_iff (Reachable.initial _ _ _ 0) (fun _ none => nomatch none)
    (Sample.alone_runs played)).mpr
  intro taken exit mem
  have there := List.mem_map_of_mem (f := Prod.snd) mem
  rw [same] at there
  cases List.mem_singleton.mp there
  rfl

/-- A request that fails is counted twice. -/
theorem failed_request_counted_twice :
    ∃ stretches result v,
      RunsThrough (fun _ _ _ => True) (Calls Sample.unattested Sample.platform) 0
        (e2eeRoundTrip Sample.unattested Sample.platform Sample.call) Sample.fresh stretches result
        v ∧
      (ended 0 v).map Prod.snd = [some .request] ∧
      ¬ CountedOnce Sample.unattested 0 stretches v := by
  have ran : (Sample.alone Sample.requestFails).map (fun ran =>
      ((ended 0 ran.2.2).map Prod.snd, grown ran.1 Sample.call.model Sample.instanceA,
        failures 0 ran.2.2 Sample.call.model Sample.instanceA)) =
      some ([some .request], 2, 1) := by decide +kernel
  obtain ⟨⟨stretches, result, v⟩, played, same⟩ := Option.map_eq_some_iff.mp ran
  rw [Prod.mk.injEq, Prod.mk.injEq] at same
  obtain ⟨exits, twice, one⟩ := same
  refine ⟨stretches, result, v, Sample.alone_runs played, exits, fun once => ?_⟩
  obtain ⟨counts, sampled, sum⟩ := once Sample.call.model Sample.instanceA
  have grows := sampled_grown sampled
  rw [sum] at grows
  dsimp only at twice one
  rw [twice, one] at grows
  cases grows

end E2eeProxy.Handler
