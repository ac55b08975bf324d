import Mathlib.Data.List.Perm.Basic

/-! # Visiting the entries of a table

Results that are appended to one list while the entries are visited, in whatever
order, until the list is full.
-/

namespace E2eeProxy.Lib

variable {α β : Type}

/-- Visits one entry after the other. -/
def Through {σ : Type} (visit : α → σ → σ → Prop) : List α → σ → σ → Prop
  | [], s, s' => s' = s
  | a :: as, s, s' => ∃ mid, visit a s mid ∧ Through visit as mid s'

theorem through_foldl {σ : Type} {visit : α → σ → σ → Prop} {f : σ → α → σ} {as : List α}
    (each : ∀ a ∈ as, ∀ s, visit a s (f s a)) (s : σ) : Through visit as s (as.foldl f s) := by
  induction as generalizing s with
  | nil => rfl
  | cons a as ih =>
      refine ⟨f s a, each a List.mem_cons_self s, ?_⟩
      exact ih (fun b mem => each b (List.mem_cons_of_mem a mem)) (f s a)

/-- As long as there is room, all that is to be found is appended, in some order. -/
def Collects (room : ℕ) (visit : List β → List β → Prop) (found : List β) : Prop :=
  ∀ out out', visit out out' → out.length + found.length ≤ room →
    ∃ new, out' = out ++ new ∧ new.Perm found

/-- What is appended satisfies `P`. -/
def Appends (P : β → Prop) (visit : List β → List β → Prop) : Prop :=
  ∀ out out', visit out out' → ∃ new, out' = out ++ new ∧ ∀ b ∈ new, P b

theorem Collects.through {room : ℕ} {visit : α → List β → List β → Prop} {found : α → List β}
    {as : List α} (each : ∀ a ∈ as, Collects room (visit a) (found a)) :
    Collects room (Through visit as) (as.flatMap found) := by
  induction as with
  | nil =>
      rintro out out' rfl -
      exact ⟨[], (List.append_nil _).symm, .refl _⟩
  | cons a as ih =>
      rintro out out' ⟨mid, here, rest⟩ fits
      rw [List.flatMap_cons, List.length_append] at fits
      obtain ⟨new, rfl, perm⟩ := each a List.mem_cons_self out mid here (by omega)
      have length := perm.length_eq
      obtain ⟨more, rfl, perm'⟩ := ih (fun b mem => each b (List.mem_cons_of_mem a mem)) _ _ rest
        (by rw [List.length_append]; omega)
      exact ⟨new ++ more, List.append_assoc _ _ _, perm.append perm'⟩

theorem Collects.perm {room : ℕ} {visit : List β → List β → Prop} {found found' : List β}
    (collects : Collects room visit found) (perm : found.Perm found') :
    Collects room visit found' := by
  intro out out' visited fits
  rw [← perm.length_eq] at fits
  obtain ⟨new, made, order⟩ := collects out out' visited fits
  exact ⟨new, made, order.trans perm⟩

theorem Appends.through {P : β → Prop} {visit : α → List β → List β → Prop} {as : List α}
    (each : ∀ a ∈ as, Appends P (visit a)) : Appends P (Through visit as) := by
  induction as with
  | nil =>
      rintro out out' rfl
      exact ⟨[], (List.append_nil _).symm, fun _ none => (List.not_mem_nil none).elim⟩
  | cons a as ih =>
      rintro out out' ⟨mid, here, rest⟩
      obtain ⟨new, rfl, holds⟩ := each a List.mem_cons_self out mid here
      obtain ⟨more, rfl, holds'⟩ := ih (fun b mem => each b (List.mem_cons_of_mem a mem)) _ _ rest
      refine ⟨new ++ more, List.append_assoc _ _ _, fun b mem => ?_⟩
      exact (List.mem_append.mp mem).elim (holds b) (holds' b)

end E2eeProxy.Lib
