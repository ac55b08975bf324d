import Mathlib.Logic.Relation
import Mathlib.Logic.Function.Basic
import Mathlib.Data.Rat.Defs
import Mathlib.Tactic.Common

/-! # Cooperative tasks

Any number of tasks share a state, and one of them runs at a time until it is
done, raises or waits for the outside. Nothing else happens while it runs, and
anything may happen while it waits. What was recorded, asked and answered is
kept in a history, with the task and the clock of each entry.

`Holds` is the weakest precondition of a task under an invariant: the invariant
has to hold wherever the task waits, and is what the task may count on when it
goes on, together with its own entries in the history.
-/

namespace E2eeProxy.Lib

/-- What the tasks of a family share: the state, the requests to the outside
    with the answers to each, what they record and what they raise. -/
structure Interface where
  State : Type
  Request : Type
  Answer : Request → Type
  Event : Type
  Error : Type

/-- A request that is `ask`ed is answered at once; one that is `await`ed lets
    the other tasks run first. -/
inductive Routine (S : Interface) (β : Type) : Type where
  | done (b : β)
  | fail (e : S.Error)
  | get (k : S.State → Routine S β)
  | modify (f : S.State → S.State) (k : Routine S β)
  | now (k : Rat → Routine S β)
  | record (e : S.Event) (k : Routine S β)
  | ask (r : S.Request) (k : S.Answer r → Routine S β)
  | await (r : S.Request) (k : S.Answer r → Routine S β)

inductive Happening (S : Interface) : Type where
  | recorded (e : S.Event)
  | asked (r : S.Request)
  | answered (r : S.Request) (a : S.Answer r)

structure Entry (S : Interface) where
  task : ℕ
  clock : Rat
  what : Happening S

/-- What a task sees. The newest entry of the history stands first. -/
structure View (S : Interface) where
  state : S.State
  clock : Rat
  history : List (Entry S)

variable {S : Interface} {β γ : Type}

namespace View

def push (w : View S) (t : ℕ) (h : Happening S) : View S :=
  { w with history := ⟨t, w.clock, h⟩ :: w.history }

@[simp] theorem push_state (w : View S) (t : ℕ) (h : Happening S) :
    (w.push t h).state = w.state := rfl

@[simp] theorem push_clock (w : View S) (t : ℕ) (h : Happening S) :
    (w.push t h).clock = w.clock := rfl

@[simp] theorem push_history (w : View S) (t : ℕ) (h : Happening S) :
    (w.push t h).history = ⟨t, w.clock, h⟩ :: w.history := rfl

end View

namespace Routine

def bind (p : Routine S β) (f : β → Routine S γ) : Routine S γ :=
  match p with
  | done b => f b
  | fail e => fail e
  | get k => get fun s => (k s).bind f
  | modify g k => modify g (k.bind f)
  | now k => now fun c => (k c).bind f
  | record e k => record e (k.bind f)
  | ask r k => ask r fun a => (k a).bind f
  | await r k => await r fun a => (k a).bind f

instance : Monad (Routine S) where
  pure := done
  bind := bind

@[simp] theorem pure_eq (b : β) : (pure b : Routine S β) = done b := rfl

@[simp] theorem bind_eq (p : Routine S β) (f : β → Routine S γ) : p >>= f = p.bind f := rfl

end Routine

/-! ## Running tasks -/

/-- How a task stops running. -/
inductive Outcome (S : Interface) (β : Type) : Type where
  | finished (b : β)
  | raised (e : S.Error)
  | waiting (r : S.Request) (k : S.Answer r → Routine S β)

section Running

-- The answers that can be given at a view.
variable (admits : View S → (r : S.Request) → S.Answer r → Prop)

/-- Routine `t` runs from one view to another, where it stops. -/
inductive Runs (t : ℕ) : Routine S β → View S → Outcome S β → View S → Prop
  | done {b w} : Runs t (.done b) w (.finished b) w
  | fail {e w} : Runs t (.fail e) w (.raised e) w
  | get {k w o w'} (rest : Runs t (k w.state) w o w') : Runs t (.get k) w o w'
  | modify {f k w o w'} (rest : Runs t k { w with state := f w.state } o w') :
      Runs t (.modify f k) w o w'
  | now {k w o w'} (rest : Runs t (k w.clock) w o w') : Runs t (.now k) w o w'
  | record {e k w o w'} (rest : Runs t k (w.push t (.recorded e)) o w') :
      Runs t (.record e k) w o w'
  | ask {r k w o w'} (a : S.Answer r) (admitted : admits w r a)
      (rest : Runs t (k a) (w.push t (.answered r a)) o w') : Runs t (.ask r k) w o w'
  | await {r k w} : Runs t (.await r k) w (.waiting r k) (w.push t (.asked r))

/-- The run in which `oracle` answers what is asked. -/
def play (oracle : View S → (r : S.Request) → S.Answer r) (t : ℕ) :
    Routine S β → View S → Outcome S β × View S
  | .done b, w => (.finished b, w)
  | .fail e, w => (.raised e, w)
  | .get k, w => play oracle t (k w.state) w
  | .modify f k, w => play oracle t k { w with state := f w.state }
  | .now k, w => play oracle t (k w.clock) w
  | .record e k, w => play oracle t k (w.push t (.recorded e))
  | .ask r k, w => play oracle t (k (oracle w r)) (w.push t (.answered r (oracle w r)))
  | .await r k, w => (.waiting r k, w.push t (.asked r))

variable {admits} in
theorem play_runs {oracle : View S → (r : S.Request) → S.Answer r}
    (admitted : ∀ w r, admits w r (oracle w r)) (t : ℕ) (p : Routine S β) (w : View S) :
    Runs admits t p w (play oracle t p w).1 (play oracle t p w).2 := by
  induction p generalizing w with
  | done b => exact .done
  | fail e => exact .fail
  | get k ih => exact .get (ih w.state w)
  | modify f k ih => exact .modify (ih _)
  | now k ih => exact .now (ih w.clock w)
  | record e k ih => exact .record (ih _)
  | ask r k ih => exact .ask (oracle w r) (admitted w r) (ih (oracle w r) _)
  | await r k => exact .await

variable {admits} in
/-- A task that starts with `p` stops in `p` or in what follows. -/
theorem Runs.bind {t : ℕ} {p : Routine S β} {f : β → Routine S γ} {o : Outcome S γ} {w w' : View S}
    (run : Runs admits t (p.bind f) w o w') :
    (∃ b v, Runs admits t p w (.finished b) v ∧ Runs admits t (f b) v o w') ∨
      (∃ e, o = .raised e ∧ Runs admits t p w (.raised e) w') ∨
      ∃ r k, o = .waiting r (fun a => (k a).bind f) ∧ Runs admits t p w (.waiting r k) w' := by
  induction p generalizing w with
  | done b => exact .inl ⟨b, w, .done, run⟩
  | fail e =>
      cases run
      exact .inr (.inl ⟨e, rfl, .fail⟩)
  | get k ih =>
      cases run with
      | get rest =>
          rcases ih _ rest with ⟨b, v, run, next⟩ | ⟨e, same, run⟩ | ⟨r, k, same, run⟩
          · exact .inl ⟨b, v, .get run, next⟩
          · exact .inr (.inl ⟨e, same, .get run⟩)
          · exact .inr (.inr ⟨r, k, same, .get run⟩)
  | modify g k ih =>
      cases run with
      | modify rest =>
          rcases ih rest with ⟨b, v, run, next⟩ | ⟨e, same, run⟩ | ⟨r, k, same, run⟩
          · exact .inl ⟨b, v, .modify run, next⟩
          · exact .inr (.inl ⟨e, same, .modify run⟩)
          · exact .inr (.inr ⟨r, k, same, .modify run⟩)
  | now k ih =>
      cases run with
      | now rest =>
          rcases ih _ rest with ⟨b, v, run, next⟩ | ⟨e, same, run⟩ | ⟨r, k, same, run⟩
          · exact .inl ⟨b, v, .now run, next⟩
          · exact .inr (.inl ⟨e, same, .now run⟩)
          · exact .inr (.inr ⟨r, k, same, .now run⟩)
  | record e k ih =>
      cases run with
      | record rest =>
          rcases ih rest with ⟨b, v, run, next⟩ | ⟨e, same, run⟩ | ⟨r, k, same, run⟩
          · exact .inl ⟨b, v, .record run, next⟩
          · exact .inr (.inl ⟨e, same, .record run⟩)
          · exact .inr (.inr ⟨r, k, same, .record run⟩)
  | ask r k ih =>
      cases run with
      | ask a admitted rest =>
          rcases ih a rest with ⟨b, v, run, next⟩ | ⟨e, same, run⟩ | ⟨r, k, same, run⟩
          · exact .inl ⟨b, v, .ask a admitted run, next⟩
          · exact .inr (.inl ⟨e, same, .ask a admitted run⟩)
          · exact .inr (.inr ⟨r, k, same, .ask a admitted run⟩)
  | await r k ih =>
      cases run
      exact .inr (.inr ⟨r, k, rfl, .await⟩)

/-- A suspended task: the request it waits for and how it goes on. -/
structure Suspended (S : Interface) (β : Type) where
  request : S.Request
  resume : S.Answer request → Routine S β

def Outcome.suspended : Outcome S β → Option (Suspended S β)
  | waiting r k => some ⟨r, k⟩
  | finished _ | raised _ => none

structure World (S : Interface) (β : Type) where
  view : View S
  waiting : ℕ → Option (Suspended S β)

/-- The clock moves, a task of the given ones starts, or one that waits is
    answered. Each runs until it stops. -/
inductive Step (starts : Routine S β → Prop) : World S β → World S β → Prop
  | tick {w} (c : Rat) : Step starts w { w with view := { w.view with clock := c } }
  | start {w} (t : ℕ) (p : Routine S β) (starting : starts p) (free : w.waiting t = none)
      (fresh : ∀ e ∈ w.view.history, e.task ≠ t) {o v} (run : Runs admits t p w.view o v) :
      Step starts w ⟨v, Function.update w.waiting t o.suspended⟩
  | answer {w} (t : ℕ) (p : Suspended S β) (here : w.waiting t = some p) (a : S.Answer p.request)
      (admitted : admits w.view p.request a) {o v}
      (run : Runs admits t (p.resume a) (w.view.push t (.answered p.request a)) o v) :
      Step starts w ⟨v, Function.update w.waiting t o.suspended⟩

/-- Before any task has started. -/
def World.initial (s : S.State) (c : Rat) : World S β := ⟨⟨s, c, []⟩, fun _ => none⟩

/-- The worlds that any order of steps leads to. -/
def Reachable (starts : Routine S β → Prop) (s : S.State) (w : World S β) : Prop :=
  ∃ c, Relation.ReflTransGen (Step admits starts) (World.initial s c) w

/-- A task that runs while no other does, with `n` of the requests it waits for
    answered. -/
def World.run (oracle : View S → (r : S.Request) → S.Answer r) (w : World S β) (t : ℕ) (p : Routine S β) :
    ℕ → World S β
  | 0 =>
      let ran := play oracle t p w.view
      ⟨ran.2, Function.update w.waiting t ran.1.suspended⟩
  | n + 1 =>
      let w := World.run oracle w t p n
      match w.waiting t with
      | none => w
      | some q =>
          let a := oracle w.view q.request
          let ran := play oracle t (q.resume a) (w.view.push t (.answered q.request a))
          ⟨ran.2, Function.update w.waiting t ran.1.suspended⟩

variable {admits} in
theorem Reachable.run {oracle : View S → (r : S.Request) → S.Answer r}
    (admitted : ∀ w r, admits w r (oracle w r)) {starts : Routine S β → Prop} {s : S.State}
    {w : World S β} (reach : Reachable admits starts s w) {p : Routine S β} (starting : starts p)
    {t : ℕ} (free : w.waiting t = none) (fresh : w.view.history.all (·.task ≠ t) = true) (n : ℕ) :
    Reachable admits starts s (w.run oracle t p n) := by
  obtain ⟨c, steps⟩ := reach
  refine ⟨c, ?_⟩
  induction n with
  | zero =>
      refine steps.tail (.start t p starting free (fun e mem => ?_) ?_)
      · exact of_decide_eq_true (List.all_eq_true.mp fresh e mem)
      · exact play_runs admitted t p _
  | succ n ih =>
      unfold World.run
      dsimp only
      split
      · exact ih
      · rename_i q here
        refine ih.tail (.answer t q here _ (admitted _ _) ?_)
        exact play_runs admitted t _ _

theorem Reachable.initial (starts : Routine S β → Prop) (s : S.State) (c : Rat) :
    Reachable admits starts s (World.initial s c) := ⟨c, .refl⟩

end Running

/-! ## The weakest precondition -/

/-- `later` is `earlier` after other tasks than `t` may have run. -/
def Others (t : ℕ) (earlier later : View S) : Prop :=
  ∃ more, later.history = more ++ earlier.history ∧ ∀ e ∈ more, e.task ≠ t

theorem Others.refl (t : ℕ) (w : View S) : Others t w w := ⟨[], rfl, fun _ mem => nomatch mem⟩

theorem Others.trans {t : ℕ} {u v w : View S} (h : Others t u v) (h' : Others t v w) :
    Others t u w := by
  obtain ⟨more, eq, other⟩ := h
  obtain ⟨more', eq', other'⟩ := h'
  refine ⟨more' ++ more, by rw [eq', eq, List.append_assoc], fun e mem => ?_⟩
  exact (List.mem_append.mp mem).elim (other' e) (other e)

section Holds

variable (admits : View S → (r : S.Request) → S.Answer r → Prop) (inv : View S → Prop) (t : ℕ)

/-- Run from the view, the task keeps to the invariant and ends with `post`. -/
def Holds : Routine S β → (β → View S → Prop) → View S → Prop
  | .done b, post, w => post b w
  | .fail _, _, w => inv w
  | .get k, post, w => Holds (k w.state) post w
  | .modify f k, post, w => Holds k post { w with state := f w.state }
  | .now k, post, w => Holds (k w.clock) post w
  | .record e k, post, w => Holds k post (w.push t (.recorded e))
  | .ask r k, post, w => ∀ a, admits w r a → Holds (k a) post (w.push t (.answered r a))
  | .await r k, post, w => inv (w.push t (.asked r)) ∧
      ∀ w', inv w' → Others t (w.push t (.asked r)) w' → ∀ a, admits w' r a →
        Holds (k a) post (w'.push t (.answered r a))

variable {admits inv t}

theorem holds_bind {p : Routine S β} {f : β → Routine S γ} {post : γ → View S → Prop} {w : View S} :
    Holds admits inv t (p.bind f) post w ↔
      Holds admits inv t p (fun b w' => Holds admits inv t (f b) post w') w := by
  induction p generalizing w with
  | done b => rfl
  | fail e => rfl
  | get k ih => exact ih w.state
  | modify g k ih => exact ih
  | now k ih => exact ih w.clock
  | record e k ih => exact ih
  | ask r k ih =>
      exact forall_congr' fun a => forall_congr' fun _ => ih a
  | await r k ih =>
      refine and_congr_right fun _ => forall_congr' fun w' => forall_congr' fun _ => ?_
      exact forall_congr' fun _ => forall_congr' fun a => forall_congr' fun _ => ih a

theorem Holds.mono {p : Routine S β} {post post' : β → View S → Prop} {w : View S}
    (h : Holds admits inv t p post w) (weaker : ∀ b w', post b w' → post' b w') :
    Holds admits inv t p post' w := by
  induction p generalizing w with
  | done b => exact weaker b w h
  | fail e => exact h
  | get k ih => exact ih w.state h
  | modify g k ih => exact ih h
  | now k ih => exact ih w.clock h
  | record e k ih => exact ih h
  | ask r k ih => exact fun a admitted => ih a (h a admitted)
  | await r k ih =>
      exact ⟨h.1, fun w' invariant others a admitted => ih a (h.2 w' invariant others a admitted)⟩

/-- A task that holds, followed by one that holds wherever the first may end. -/
theorem Holds.bind {p : Routine S β} {f : β → Routine S γ} {mid : β → View S → Prop}
    {post : γ → View S → Prop} {w : View S} (h : Holds admits inv t p mid w)
    (next : ∀ b w', mid b w' → Holds admits inv t (f b) post w') :
    Holds admits inv t (p.bind f) post w := holds_bind.mpr (h.mono next)

/-- What a task that waits was promised: to hold on from any view that the other
    tasks lead to. -/
def Waits (admits : View S → (r : S.Request) → S.Answer r → Prop) (inv : View S → Prop) (t : ℕ)
    (p : Suspended S β) (w : View S) : Prop :=
  ∀ w', inv w' → Others t w w' → ∀ a, admits w' p.request a →
    Holds admits inv t (p.resume a) (fun _ => inv) (w'.push t (.answered p.request a))

theorem Runs.holds {p : Routine S β} {o : Outcome S β} {w w' : View S} (run : Runs admits t p w o w')
    (h : Holds admits inv t p (fun _ => inv) w) :
    inv w' ∧ ∀ q, o.suspended = some q → Waits admits inv t q w' := by
  induction run with
  | done | fail => exact ⟨h, fun _ none => nomatch none⟩
  | get _ ih | modify _ ih | now _ ih | record _ ih => exact ih h
  | ask a admitted _ ih => exact ih (h a admitted)
  | await =>
      refine ⟨h.1, fun q same => ?_⟩
      obtain rfl := Option.some.inj same
      exact h.2

/-- A task that holds under no invariant at all neither raises nor waits. -/
theorem Runs.ends {p : Routine S β} {o : Outcome S β} {w w' : View S} {post : β → View S → Prop}
    (run : Runs admits t p w o w') (h : Holds admits (fun _ => False) t p post w) :
    ∃ b, o = .finished b ∧ post b w' := by
  induction run with
  | done => exact ⟨_, rfl, h⟩
  | fail => exact h.elim
  | get _ ih | modify _ ih | now _ ih | record _ ih => exact ih h
  | ask a admitted _ ih => exact ih (h a admitted)
  | await => exact h.1.elim

/-- While a task runs all entries are its own. -/
theorem Runs.own {p : Routine S β} {o : Outcome S β} {w w' : View S} (run : Runs admits t p w o w') :
    ∃ more, w'.history = more ++ w.history ∧ ∀ e ∈ more, e.task = t := by
  have pushed {w w' : View S} {h : Happening S}
      (rest : ∃ more, w'.history = more ++ (w.push t h).history ∧ ∀ e ∈ more, e.task = t) :
      ∃ more, w'.history = more ++ w.history ∧ ∀ e ∈ more, e.task = t := by
    obtain ⟨more, eq, own⟩ := rest
    refine ⟨more ++ [⟨t, w.clock, h⟩], by simp [eq], fun e mem => ?_⟩
    cases List.mem_append.mp mem with
    | inl new => exact own e new
    | inr last => rw [List.mem_singleton.mp last]
  induction run with
  | done | fail => exact ⟨[], rfl, fun _ mem => nomatch mem⟩
  | get _ ih | modify _ ih | now _ ih => exact ih
  | record _ ih => exact pushed ih
  | ask a admitted _ ih => exact pushed ih
  | await => exact pushed ⟨[], rfl, fun _ mem => nomatch mem⟩

theorem Runs.others {p : Routine S β} {o : Outcome S β} {w w' : View S}
    (run : Runs admits t p w o w') {t' : ℕ} (differ : t' ≠ t) : Others t' w w' := by
  obtain ⟨more, eq, own⟩ := run.own
  exact ⟨more, eq, fun e mem same => differ (same.symm.trans (own e mem))⟩

end Holds

/-! ## Reachable worlds -/

section Reachable

variable {admits : View S → (r : S.Request) → S.Answer r → Prop} {inv : View S → Prop}
  {starts : Routine S β → Prop}

/-- The invariant holds and every task that waits can be answered. -/
def Good (admits : View S → (r : S.Request) → S.Answer r → Prop) (inv : View S → Prop)
    (w : World S β) : Prop :=
  inv w.view ∧ ∀ t p, w.waiting t = some p → Waits admits inv t p w.view

theorem Waits.later {t : ℕ} {p : Suspended S β} {w w' : View S} (h : Waits admits inv t p w)
    (others : Others t w w') : Waits admits inv t p w' :=
  fun w'' invariant more a admitted => h w'' invariant (others.trans more) a admitted

theorem Good.run {w : World S β} (good : Good admits inv w) {t : ℕ} {p : Routine S β}
    {o : Outcome S β} {u v : View S} (begins : u = w.view ∨ ∃ h, u = w.view.push t h)
    (run : Runs admits t p u o v) (holds : Holds admits inv t p (fun _ => inv) u) :
    Good admits inv ⟨v, Function.update w.waiting t o.suspended⟩ := by
  obtain ⟨invariant, waits⟩ := run.holds holds
  refine ⟨invariant, fun t' q here => ?_⟩
  dsimp only at here
  by_cases same : t' = t
  · subst same
    rw [Function.update_self] at here
    exact waits q here
  · rw [Function.update_of_ne same] at here
    have before : Others t' w.view u := by
      rcases begins with rfl | ⟨h, rfl⟩
      · exact .refl t' _
      · refine ⟨[⟨t, w.view.clock, h⟩], rfl, fun e mem => ?_⟩
        rw [List.mem_singleton.mp mem]
        exact Ne.symm same
    exact (good.2 t' q here).later (before.trans (run.others same))

/-- If the invariant holds at the start, does not look at the clock and every
    task keeps to it, then it holds in every world that is reached. -/
theorem Reachable.invariant {s : S.State} {w : World S β} (reach : Reachable admits starts s w)
    (initially : ∀ c, inv ⟨s, c, []⟩) (clock : ∀ w c, inv w → inv { w with clock := c })
    (tasks : ∀ p, starts p → ∀ t w, inv w → (∀ e ∈ w.history, e.task ≠ t) →
      Holds admits inv t p (fun _ => inv) w) : inv w.view := by
  obtain ⟨c, steps⟩ := reach
  suffices good : Good admits inv w from good.1
  induction steps with
  | refl => exact ⟨initially c, fun _ _ none => nomatch none⟩
  | tail _ step ih =>
      cases step with
      | tick c => exact ⟨clock _ c ih.1, fun t p here => (ih.2 t p here).later ⟨[], rfl, by simp⟩⟩
      | start t p starting free fresh run =>
          exact ih.run (.inl rfl) run (tasks p starting t _ ih.1 fresh)
      | answer t p here a admitted run =>
          exact ih.run (.inr ⟨_, rfl⟩) run (ih.2 t p here _ ih.1 (.refl t _) a admitted)

end Reachable

/-! ## Quiet tasks -/

/-- Every change the task makes to the state is one that `keeps` allows, and all
    that it puts into the history is `plain`. -/
def Quiet (keeps : S.State → S.State → Prop) (plain : Happening S → Prop) : Routine S β → Prop
  | .done _ | .fail _ => True
  | .get k => ∀ s, Quiet keeps plain (k s)
  | .modify f k => (∀ s, keeps s (f s)) ∧ Quiet keeps plain k
  | .now k => ∀ c, Quiet keeps plain (k c)
  | .record e k => plain (.recorded e) ∧ Quiet keeps plain k
  | .ask r k => ∀ a, plain (.answered r a) ∧ Quiet keeps plain (k a)
  | .await r k => plain (.asked r) ∧ ∀ a, plain (.answered r a) ∧ Quiet keeps plain (k a)

section Quiet

variable {keeps : S.State → S.State → Prop} {plain : Happening S → Prop}

theorem Quiet.bind {p : Routine S β} {f : β → Routine S γ} (h : Quiet keeps plain p)
    (next : ∀ b, Quiet keeps plain (f b)) : Quiet keeps plain (p.bind f) := by
  induction p with
  | done b => exact next b
  | fail e => trivial
  | get k ih => exact fun s => ih s (h s)
  | modify g k ih => exact ⟨h.1, ih h.2⟩
  | now k ih => exact fun c => ih c (h c)
  | record e k ih => exact ⟨h.1, ih h.2⟩
  | ask r k ih => exact fun a => ⟨(h a).1, ih a (h a).2⟩
  | await r k ih => exact ⟨h.1, fun a => ⟨(h.2 a).1, ih a (h.2 a).2⟩⟩

theorem Quiet.mono {plain' : Happening S → Prop} {p : Routine S β} (h : Quiet keeps plain p)
    (weaker : ∀ what, plain what → plain' what) : Quiet keeps plain' p := by
  induction p with
  | done | fail => trivial
  | get k ih => exact fun s => ih s (h s)
  | modify g k ih => exact ⟨h.1, ih h.2⟩
  | now k ih => exact fun c => ih c (h c)
  | record e k ih => exact ⟨weaker _ h.1, ih h.2⟩
  | ask r k ih => exact fun a => ⟨weaker _ (h a).1, ih a (h a).2⟩
  | await r k ih => exact ⟨weaker _ h.1, fun a => ⟨weaker _ (h.2 a).1, ih a (h.2 a).2⟩⟩

/-- What a quiet task waits for is plain. -/
theorem Quiet.waits {admits : View S → (r : S.Request) → S.Answer r → Prop} {t : ℕ}
    {p : Routine S β} (quiet : Quiet keeps plain p) {r : S.Request} {k : S.Answer r → Routine S β}
    {w w' : View S} (run : Runs admits t p w (.waiting r k) w') : plain (.asked r) := by
  generalize out : Outcome.waiting r k = o at run
  induction run with
  | done | fail => cases out
  | get _ ih => exact ih (quiet _) out
  | modify _ ih | record _ ih => exact ih quiet.2 out
  | now _ ih => exact ih (quiet _) out
  | ask a _ _ ih => exact ih (quiet a).2 out
  | await =>
      cases out
      exact quiet.1

/-- A fact that implies the invariant and that neither quiet steps of task `t`
    nor the other tasks can undo. -/
structure Stable (inv fact : View S → Prop) (t : ℕ) (keeps : S.State → S.State → Prop)
    (plain : Happening S → Prop) : Prop where
  implies : ∀ w, fact w → inv w
  modify : ∀ w s, fact w → keeps w.state s → fact { w with state := s }
  push : ∀ w h, fact w → plain h → fact (w.push t h)
  others : ∀ w w', fact w → inv w' → Others t w w' → fact w'

theorem Quiet.holds {admits : View S → (r : S.Request) → S.Answer r → Prop}
    {inv fact : View S → Prop} {t : ℕ} (stable : Stable inv fact t keeps plain) {p : Routine S β}
    (quiet : Quiet keeps plain p) {w : View S} (h : fact w) :
    Holds admits inv t p (fun _ => fact) w := by
  induction p generalizing w with
  | done b => exact h
  | fail e => exact stable.implies w h
  | get k ih => exact ih w.state (quiet w.state) h
  | modify g k ih => exact ih quiet.2 (stable.modify w _ h (quiet.1 w.state))
  | now k ih => exact ih w.clock (quiet w.clock) h
  | record e k ih => exact ih quiet.2 (stable.push w _ h quiet.1)
  | ask r k ih => exact fun a _ => ih a (quiet a).2 (stable.push w _ h (quiet a).1)
  | await r k ih =>
      refine ⟨stable.implies _ (stable.push w _ h quiet.1), fun w' invariant others a _ => ?_⟩
      have kept := stable.others _ w' (stable.push w _ h quiet.1) invariant others
      exact ih a (quiet.2 a).2 (stable.push w' _ kept (quiet.2 a).1)

end Quiet

end E2eeProxy.Lib
