import E2eeProxy.Lib.Coop
import Mathlib.Algebra.Order.Ring.Int

/-! # What a task adds itself

A task runs in stretches, and while it waits between them the other tasks run.
`Adds` is the weakest precondition of a task that tells how much its own stretches
have added to a measure of the state, whatever the others do of which every task is
known to keep to.
-/

namespace E2eeProxy.Lib

variable {S : Interface} {β γ : Type}

/-- The states between which a task runs without a break. -/
structure Stretch (S : Interface) where
  before : S.State
  after : S.State

section Through

variable (admits : View S → (r : S.Request) → S.Answer r → Prop) (starts : Routine S β → Prop) (t : ℕ)

/-- Any steps of the others. -/
def Meanwhile : World S β → World S β → Prop :=
  Relation.ReflTransGen fun w w' => Step admits starts w w' ∧ Others t w.view w'.view

/-- A task runs until it returns, in these stretches. -/
inductive RunsThrough : Routine S β → World S β → List (Stretch S) → β → View S → Prop
  | returns {p w b v} (run : Runs admits t p w.view (.finished b) v) :
      RunsThrough p w [⟨w.view.state, v.state⟩] b v
  | waits {p w r k v u stretches b v'} (a : S.Answer r)
      (run : Runs admits t p w.view (.waiting r k) v)
      (meanwhile : Meanwhile admits starts t ⟨v, Function.update w.waiting t (some ⟨r, k⟩)⟩ u)
      (admitted : admits u.view r a)
      (rest : RunsThrough (k a) ⟨u.view.push t (.answered r a), u.waiting⟩ stretches b v') :
      RunsThrough p w (⟨w.view.state, v.state⟩ :: stretches) b v'

/-- A task that runs while no other does, until it returns. -/
def playThrough (oracle : View S → (r : S.Request) → S.Answer r) :
    ℕ → Routine S β → View S → Option (List (Stretch S) × β × View S)
  | 0, _, _ => none
  | n + 1, p, w =>
      match play oracle t p w with
      | (.finished b, v) => some ([⟨w.state, v.state⟩], b, v)
      | (.raised _, _) => none
      | (.waiting r k, v) =>
          (playThrough oracle n (k (oracle v r)) (v.push t (.answered r (oracle v r)))).map
            fun (stretches, b, v') => (⟨w.state, v.state⟩ :: stretches, b, v')

variable {admits starts t}

theorem playThrough_runs {oracle : View S → (r : S.Request) → S.Answer r}
    (admitted : ∀ w r, admits w r (oracle w r)) {n : ℕ} {p : Routine S β} {w : World S β}
    {stretches : List (Stretch S)} {b : β} {v : View S}
    (played : playThrough t oracle n p w.view = some (stretches, b, v)) :
    RunsThrough admits starts t p w stretches b v := by
  induction n generalizing p w stretches with
  | zero => cases played
  | succ n ih =>
      have run := play_runs admitted t p w.view
      unfold playThrough at played
      split at played
      · rename_i b' v' ended
        rw [ended] at run
        cases played
        exact .returns run
      · cases played
      · rename_i r k v' waits
        rw [waits] at run
        obtain ⟨⟨rest, b', v''⟩, next, same⟩ := Option.map_eq_some_iff.mp played
        cases same
        exact .waits _ run .refl (admitted _ _) (ih next)

end Through

/-! ## What every task keeps to -/

/-- Every change that the task makes to a state it comes to is one that `keeps` allows. -/
def Keeping (keeps : S.State → S.State → Prop) :
    Routine S β → (β → S.State → Prop) → S.State → Prop
  | .done b, post, s => post b s
  | .fail _, _, _ => True
  | .get k, post, s => Keeping keeps (k s) post s
  | .modify f k, post, s => keeps s (f s) ∧ Keeping keeps k post (f s)
  | .now k, post, s => ∀ c, Keeping keeps (k c) post s
  | .record _ k, post, s => Keeping keeps k post s
  | .ask _ k, post, s => ∀ a, Keeping keeps (k a) post s
  | .await _ k, post, _ => ∀ s' a, Keeping keeps (k a) post s'

section Keeping

variable {keeps : S.State → S.State → Prop}

theorem Keeping.bind {p : Routine S β} {f : β → Routine S γ} {mid : β → S.State → Prop}
    {post : γ → S.State → Prop} {s : S.State} (h : Keeping keeps p mid s)
    (next : ∀ b s', mid b s' → Keeping keeps (f b) post s') : Keeping keeps (p.bind f) post s := by
  induction p generalizing s with
  | done b => exact next b s h
  | fail e => trivial
  | get k ih => exact ih s h
  | modify f k ih => exact ⟨h.1, ih h.2⟩
  | now k ih => exact fun c => ih c (h c)
  | record e k ih => exact ih h
  | ask r k ih => exact fun a => ih a (h a)
  | await r k ih => exact fun s' a => ih a (h s' a)

/-- The task keeps to it from any state. -/
def KeepsTo (keeps : S.State → S.State → Prop) (p : Routine S β) : Prop :=
  ∀ s, Keeping keeps p (fun _ _ => True) s

theorem Quiet.keeping {plain : Happening S → Prop} {p : Routine S β} (quiet : Quiet keeps plain p) :
    KeepsTo keeps p := by
  intro s
  induction p generalizing s with
  | done | fail => trivial
  | get k ih => exact ih s (quiet s) s
  | modify f k ih => exact ⟨quiet.1 s, ih quiet.2 (f s)⟩
  | now k ih => exact fun c => ih c (quiet c) s
  | record e k ih => exact ih quiet.2 s
  | ask r k ih => exact fun a => ih a (quiet a).2 s
  | await r k ih => exact fun s' a => ih a (quiet.2 a).2 s'

theorem KeepsTo.bind {p : Routine S β} {f : β → Routine S γ} (h : KeepsTo keeps p)
    (next : ∀ b, KeepsTo keeps (f b)) : KeepsTo keeps (p.bind f) :=
  fun s => (h s).bind fun b s' _ => next b s'

theorem KeepsTo.returns {p : Routine S β} {f : β → γ} (h : KeepsTo keeps p) :
    KeepsTo keeps (p.bind fun b => .done (f b)) := h.bind fun _ _ => trivial

/-- So do all that wait. -/
def WaitKeeping (keeps : S.State → S.State → Prop) (w : World S β) : Prop :=
  ∀ t q, w.waiting t = some q → ∀ a, KeepsTo keeps (q.resume a)

variable {admits : View S → (r : S.Request) → S.Answer r → Prop} {starts : Routine S β → Prop}
  {t : ℕ} (refl : ∀ s, keeps s s) (trans : ∀ s₁ s₂ s₃, keeps s₁ s₂ → keeps s₂ s₃ → keeps s₁ s₃)
include refl trans

/-- A stretch of a task. -/
theorem Runs.keeping {p : Routine S β} {o : Outcome S β} {w w' : View S}
    (run : Runs admits t p w o w') (h : Keeping keeps p (fun _ _ => True) w.state) :
    keeps w.state w'.state ∧ ∀ q, o.suspended = some q → ∀ a, KeepsTo keeps (q.resume a) := by
  induction run with
  | done | fail => exact ⟨refl _, fun _ none => nomatch none⟩
  | get _ ih | record _ ih => exact ih h
  | modify _ ih =>
      obtain ⟨kept, resumes⟩ := ih h.2
      exact ⟨trans _ _ _ h.1 kept, resumes⟩
  | now _ ih => exact ih (h _)
  | ask a _ _ ih => exact ih (h a)
  | await =>
      refine ⟨refl _, fun q same a s => ?_⟩
      cases same
      exact h s a

theorem WaitKeeping.run {w : World S β} (waits : WaitKeeping keeps w) {p : Routine S β}
    {o : Outcome S β} {u v : View S} (run : Runs admits t p u o v)
    (h : Keeping keeps p (fun _ _ => True) u.state) :
    WaitKeeping keeps ⟨v, Function.update w.waiting t o.suspended⟩ := by
  intro t' q here
  dsimp only at here
  by_cases same : t' = t
  · subst same
    rw [Function.update_self] at here
    exact (run.keeping refl trans h).2 q here
  · rw [Function.update_of_ne same] at here
    exact waits t' q here

variable (start : ∀ p, starts p → KeepsTo keeps p)
include start

theorem Step.keeping {w w' : World S β} (step : Step admits starts w w')
    (waits : WaitKeeping keeps w) :
    keeps w.view.state w'.view.state ∧ WaitKeeping keeps w' := by
  cases step with
  | tick c => exact ⟨refl _, waits⟩
  | start t p starting free fresh run =>
      exact ⟨(run.keeping refl trans (start p starting _)).1,
        waits.run refl trans run (start p starting _)⟩
  | answer t p here a admitted run =>
      exact ⟨(run.keeping refl trans (waits t p here a _)).1,
        waits.run refl trans run (waits t p here a _)⟩

theorem Reachable.keeping {s : S.State} {w : World S β} (reach : Reachable admits starts s w) :
    WaitKeeping keeps w := by
  obtain ⟨c, steps⟩ := reach
  induction steps with
  | refl => exact fun _ _ none => nomatch none
  | tail _ step ih => exact (step.keeping refl trans start ih).2

theorem Meanwhile.keeping {w w' : World S β} (meanwhile : Meanwhile admits starts t w w')
    (waits : WaitKeeping keeps w) :
    keeps w.view.state w'.view.state ∧ Others t w.view w'.view ∧ WaitKeeping keeps w' := by
  induction meanwhile with
  | refl => exact ⟨refl _, .refl t _, waits⟩
  | tail _ step ih =>
      obtain ⟨kept, others, waits⟩ := ih
      obtain ⟨kept', waits'⟩ := step.1.keeping refl trans start waits
      exact ⟨trans _ _ _ kept kept', others.trans step.2, waits'⟩

theorem RunsThrough.keeping {p : Routine S β} {w : World S β} {stretches : List (Stretch S)} {b : β}
    {v : View S} (through : RunsThrough admits starts t p w stretches b v)
    (waits : WaitKeeping keeps w) (h : Keeping keeps p (fun _ _ => True) w.view.state) :
    ∀ stretch ∈ stretches, keeps stretch.before stretch.after := by
  induction through with
  | returns run =>
      intro stretch mem
      rw [List.mem_singleton.mp mem]
      exact (run.keeping refl trans h).1
  | waits a run meanwhile admitted rest ih =>
      obtain ⟨kept, resumes⟩ := run.keeping refl trans h
      obtain ⟨-, -, waits'⟩ :=
        meanwhile.keeping refl trans start (waits.run refl trans run h)
      exact List.forall_mem_cons.mpr ⟨kept, ih waits' (resumes _ rfl a _)⟩

end Keeping

/-! ## The weakest precondition -/

section Adds

variable (rely : S.State → S.State → Prop) (t : ℕ) (m : S.State → ℤ)

/-- If the task returns, then with `post`, that is told what the task has added to `m`. -/
def Adds : Routine S β → (ℤ → β → View S → Prop) → ℤ → View S → Prop
  | .done b, post, n, w => post n b w
  | .fail _, _, _, _ => True
  | .get k, post, n, w => Adds (k w.state) post n w
  | .modify f k, post, n, w =>
      Adds k post (n + (m (f w.state) - m w.state)) { w with state := f w.state }
  | .now k, post, n, w => Adds (k w.clock) post n w
  | .record e k, post, n, w => Adds k post n (w.push t (.recorded e))
  | .ask r k, post, n, w => ∀ a, Adds (k a) post n (w.push t (.answered r a))
  | .await r k, post, n, w => ∀ w', Others t (w.push t (.asked r)) w' → rely w.state w'.state →
      ∀ a, Adds (k a) post n (w'.push t (.answered r a))

/-- What a task that stopped still has to add. -/
def Outcome.Adds (post : ℤ → β → View S → Prop) (n : ℤ) (w : View S) : Outcome S β → Prop
  | .finished b => post n b w
  | .raised _ => True
  | .waiting r k => ∀ w', Others t w w' → rely w.state w'.state →
      ∀ a, Lib.Adds rely t m (k a) post n (w'.push t (.answered r a))

variable {rely t m}

theorem Adds.mono {p : Routine S β} {post post' : ℤ → β → View S → Prop} {n : ℤ} {w : View S}
    (h : Adds rely t m p post n w) (weaker : ∀ n b w', post n b w' → post' n b w') :
    Adds rely t m p post' n w := by
  induction p generalizing n w with
  | done b => exact weaker n b w h
  | fail e => trivial
  | get k ih => exact ih w.state h
  | modify f k ih => exact ih h
  | now k ih => exact ih w.clock h
  | record e k ih => exact ih h
  | ask r k ih => exact fun a => ih a (h a)
  | await r k ih => exact fun w' others kept a => ih a (h w' others kept a)

theorem Adds.bind {p : Routine S β} {f : β → Routine S γ} {mid : ℤ → β → View S → Prop}
    {post : ℤ → γ → View S → Prop} {n : ℤ} {w : View S} (h : Adds rely t m p mid n w)
    (next : ∀ n b w', mid n b w' → Adds rely t m (f b) post n w') :
    Adds rely t m (p.bind f) post n w := by
  induction p generalizing n w with
  | done b => exact next n b w h
  | fail e => trivial
  | get k ih => exact ih w.state h
  | modify f k ih => exact ih h
  | now k ih => exact ih w.clock h
  | record e k ih => exact ih h
  | ask r k ih => exact fun a => ih a (h a)
  | await r k ih => exact fun w' others kept a => ih a (h w' others kept a)

/-- A change that leaves the measure alone. -/
theorem Adds.modify {f : S.State → S.State} {k : Routine S β} {post : ℤ → β → View S → Prop} {n : ℤ}
    {w : View S} (same : m (f w.state) = m w.state)
    (h : Adds rely t m k post n { w with state := f w.state }) :
    Adds rely t m (.modify f k) post n w := by
  unfold Adds
  rwa [same, sub_self, add_zero]

/-- A fact that outlasts quiet steps of task `t`, and what the others do. -/
structure Outlasts (rely : S.State → S.State → Prop) (t : ℕ) (keeps : S.State → S.State → Prop)
    (plain : Happening S → Prop) (fact : View S → Prop) : Prop where
  modify : ∀ w s, fact w → keeps w.state s → fact { w with state := s }
  push : ∀ w h, fact w → plain h → fact (w.push t h)
  others : ∀ w w', fact w → Others t w w' → rely w.state w'.state → fact w'

theorem Quiet.adds {keeps : S.State → S.State → Prop} {plain : Happening S → Prop}
    {fact : View S → Prop} (outlasts : Outlasts rely t keeps plain fact)
    (same : ∀ s s', keeps s s' → m s' = m s) {p : Routine S β} (quiet : Quiet keeps plain p) {n : ℤ}
    {w : View S} (h : fact w) : Adds rely t m p (fun n' _ w' => n' = n ∧ fact w') n w := by
  induction p generalizing w with
  | done b => exact ⟨rfl, h⟩
  | fail e => trivial
  | get k ih => exact ih w.state (quiet w.state) h
  | modify f k ih =>
      exact .modify (same _ _ (quiet.1 w.state)) (ih quiet.2 (outlasts.modify w _ h (quiet.1 w.state)))
  | now k ih => exact ih w.clock (quiet w.clock) h
  | record e k ih => exact ih quiet.2 (outlasts.push w _ h quiet.1)
  | ask r k ih => exact fun a => ih a (quiet a).2 (outlasts.push w _ h (quiet a).1)
  | await r k ih =>
      intro w' others kept a
      have there := outlasts.others _ w' (outlasts.push w _ h quiet.1) others kept
      exact ih a (quiet.2 a).2 (outlasts.push w' _ there (quiet.2 a).1)

variable {admits : View S → (r : S.Request) → S.Answer r → Prop} {starts : Routine S β → Prop}

theorem Runs.adds {p : Routine S β} {o : Outcome S β} {w w' : View S} (run : Runs admits t p w o w')
    {post : ℤ → β → View S → Prop} {n : ℤ} (h : Adds rely t m p post n w) :
    o.Adds rely t m post (n + (m w'.state - m w.state)) w' := by
  induction run generalizing n with
  | @done b w =>
      rw [sub_self, add_zero]
      exact h
  | fail => trivial
  | get _ ih | now _ ih | record _ ih => exact ih h
  | @modify f k w o w' _ ih =>
      have rest := ih h
      rwa [add_assoc, show m (f w.state) - m w.state + (m w'.state - m (f w.state)) =
        m w'.state - m w.state by omega] at rest
  | ask a _ _ ih => exact ih (h a)
  | @await r k w =>
      rw [View.push_state, sub_self, add_zero]
      exact h

/-- What the stretches of a task add up to. -/
theorem RunsThrough.adds (refl : ∀ s, rely s s)
    (trans : ∀ s₁ s₂ s₃, rely s₁ s₂ → rely s₂ s₃ → rely s₁ s₃)
    (start : ∀ p, starts p → KeepsTo rely p) {p : Routine S β} {w : World S β}
    {stretches : List (Stretch S)} {b : β} {v : View S}
    (through : RunsThrough admits starts t p w stretches b v) (waits : WaitKeeping rely w)
    (keeping : Keeping rely p (fun _ _ => True) w.view.state)
    {post : ℤ → β → View S → Prop} {n : ℤ} (h : Adds rely t m p post n w.view) :
    post (n + (stretches.map fun stretch => m stretch.after - m stretch.before).sum) b v := by
  induction through generalizing n with
  | returns run =>
      have ended := run.adds h
      rwa [List.map_singleton, List.sum_singleton]
  | waits a run meanwhile admitted rest ih =>
      obtain ⟨-, resumes⟩ := run.keeping refl trans keeping
      obtain ⟨kept, others, waits'⟩ :=
        meanwhile.keeping refl trans start (waits.run refl trans run keeping)
      have ended := ih waits' (resumes _ rfl a _) (run.adds h _ others kept a)
      rwa [List.map_cons, List.sum_cons, ← add_assoc]

end Adds

end E2eeProxy.Lib
