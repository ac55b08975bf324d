import E2eeProxy.Lib.Coop

/-! # Tasks that come to an end

`Concludes` is the weakest precondition of a task that tells how it ends: with a
result or by raising. While it waits the others may do anything.
-/

namespace E2eeProxy.Lib

variable {S : Interface} {β γ : Type}

section Concludes

variable (admits : View S → (r : S.Request) → S.Answer r → Prop) (t : ℕ)

/-- However it is answered, the task ends with `post`. -/
def Concludes : Routine S β → (Except S.Error β → View S → Prop) → View S → Prop
  | .done b, post, w => post (.ok b) w
  | .fail e, post, w => post (.error e) w
  | .get k, post, w => Concludes (k w.state) post w
  | .modify f k, post, w => Concludes k post { w with state := f w.state }
  | .now k, post, w => Concludes (k w.clock) post w
  | .record e k, post, w => Concludes k post (w.push t (.recorded e))
  | .ask r k, post, w => ∀ a, admits w r a → Concludes (k a) post (w.push t (.answered r a))
  | .await r k, post, w => ∀ w', Others t (w.push t (.asked r)) w' → ∀ a, admits w' r a →
      Concludes (k a) post (w'.push t (.answered r a))

/-- What a task that stopped still has to satisfy. -/
def Outcome.Concludes (post : Except S.Error β → View S → Prop) (w : View S) : Outcome S β → Prop
  | .finished b => post (.ok b) w
  | .raised e => post (.error e) w
  | .waiting r k => ∀ w', Others t w w' → ∀ a, admits w' r a →
      Lib.Concludes admits t (k a) post (w'.push t (.answered r a))

variable {admits t}

/-- The task does, each time it runs. -/
theorem Concludes.run {p : Routine S β} {post : Except S.Error β → View S → Prop} {o : Outcome S β}
    {w w' : View S} (concludes : Concludes admits t p post w) (run : Runs admits t p w o w') :
    o.Concludes admits t post w' := by
  induction run with
  | done | fail => exact concludes
  | get _ ih | modify _ ih | now _ ih | record _ ih => exact ih concludes
  | ask a admitted _ ih => exact ih (concludes a admitted)
  | await => exact concludes

theorem Concludes.mono {p : Routine S β} {post post' : Except S.Error β → View S → Prop}
    {w : View S} (concludes : Concludes admits t p post w)
    (weaker : ∀ res w', post res w' → post' res w') : Concludes admits t p post' w := by
  induction p generalizing w with
  | done b => exact weaker _ _ concludes
  | fail e => exact weaker _ _ concludes
  | get k ih => exact ih w.state concludes
  | modify g k ih => exact ih concludes
  | now k ih => exact ih w.clock concludes
  | record e k ih => exact ih concludes
  | ask r k ih => exact fun a admitted => ih a (concludes a admitted)
  | await r k ih =>
      exact fun w' others a admitted => ih a (concludes w' others a admitted)

/-- A task that is followed by another, unless it raises. -/
theorem Concludes.bind {p : Routine S β} {f : β → Routine S γ}
    {mid : Except S.Error β → View S → Prop} {post : Except S.Error γ → View S → Prop} {w : View S}
    (concludes : Concludes admits t p mid w)
    (next : ∀ b w', mid (.ok b) w' → Concludes admits t (f b) post w')
    (raises : ∀ e w', mid (.error e) w' → post (.error e) w') :
    Concludes admits t (p.bind f) post w := by
  induction p generalizing w with
  | done b => exact next b w concludes
  | fail e => exact raises e w concludes
  | get k ih => exact ih w.state concludes
  | modify g k ih => exact ih concludes
  | now k ih => exact ih w.clock concludes
  | record e k ih => exact ih concludes
  | ask r k ih => exact fun a admitted => ih a (concludes a admitted)
  | await r k ih =>
      exact fun w' others a admitted => ih a (concludes w' others a admitted)

/-- If everything is answered the task does end, and that satisfies both. -/
theorem Concludes.both {p : Routine S β} {post post' : Except S.Error β → View S → Prop}
    {w : View S} (answered : ∀ w r, ∃ a, admits w r a) (concludes : Concludes admits t p post w)
    (concludes' : Concludes admits t p post' w) : ∃ res w', post res w' ∧ post' res w' := by
  induction p generalizing w with
  | done b => exact ⟨_, w, concludes, concludes'⟩
  | fail e => exact ⟨_, w, concludes, concludes'⟩
  | get k ih => exact ih w.state concludes concludes'
  | modify g k ih => exact ih concludes concludes'
  | now k ih => exact ih w.clock concludes concludes'
  | record e k ih => exact ih concludes concludes'
  | ask r k ih =>
      obtain ⟨a, admitted⟩ := answered w r
      exact ih a (concludes a admitted) (concludes' a admitted)
  | await r k ih =>
      obtain ⟨a, admitted⟩ := answered (w.push t (.asked r)) r
      have others := Others.refl t (w.push t (.asked r))
      exact ih a (concludes _ others a admitted) (concludes' _ others a admitted)

end Concludes

end E2eeProxy.Lib
