import Mathlib.Data.List.Nodup
import Mathlib.Data.List.Rotate

/-! # Taking turns

A ring is a list with a position in it. Whose turn it is next stands first in the
list turned to that position; whoever had a turn stands last.
-/

namespace E2eeProxy.Lib

variable {α : Type}

/-- Turning a list to the place behind one of its elements. -/
theorem rotate_behind {l : List α} {p k : ℕ} {a : α} (here : (l.rotate p)[k]? = some a) :
    ∃ passed rest, l.rotate p = passed ++ a :: rest ∧ passed = (l.rotate p).take k ∧
      l.rotate ((p + k) % l.length + 1) = rest ++ passed ++ [a] := by
  obtain ⟨bound, found⟩ := List.getElem?_eq_some_iff.mp here
  have split : l.rotate p = (l.rotate p).take k ++ a :: (l.rotate p).drop (k + 1) := by
    rw [← found, List.getElem_cons_drop, List.take_append_drop]
  refine ⟨_, _, split, rfl, ?_⟩
  calc l.rotate ((p + k) % l.length + 1)
      = (l.rotate p).rotate (k + 1) := by
        rw [← List.rotate_rotate, List.rotate_mod, List.rotate_rotate, List.rotate_rotate,
          Nat.add_assoc]
    _ = (l.rotate p).drop (k + 1) ++ (l.rotate p).take (k + 1) :=
        List.rotate_eq_drop_append_take bound
    _ = (l.rotate p).drop (k + 1) ++ (l.rotate p).take k ++ [a] := by
        rw [List.take_add_one, here, Option.toList_some, List.append_assoc]

theorem findSome?_range {β : Type} {f : ℕ → Option β} {n : ℕ} {b : β}
    (h : (List.range n).findSome? f = some b) :
    ∃ k < n, f k = some b ∧ ∀ j < k, f j = none := by
  obtain ⟨before, k, after, split, found, none⟩ := List.findSome?_eq_some_iff.mp h
  have at' (j : ℕ) (bound : j < n) : (before ++ k :: after)[j]? = some j := by
    rw [← split, List.getElem?_range bound]
  have length : before.length < n := by
    have counted := congrArg List.length split
    rw [List.length_range, List.length_append, List.length_cons] at counted
    omega
  obtain rfl : k = before.length := by simpa using at' before.length length
  refine ⟨before.length, length, found, fun j less => none j ?_⟩
  have there := at' j (by omega)
  rw [List.getElem?_append_left less] at there
  exact List.mem_of_getElem? there

/-! ## Who comes first -/

/-- With the position after `p` elements the turn of `y` comes before that of `x`, or
    before that of all who join at the end if `x` is not there. -/
structure Before (y x : α) (ring : List α) (p : ℕ) : Prop where
  within : p ≤ ring.length
  order : [y, x].Sublist (ring.drop p ++ ring.take p) ∨ x ∉ ring ∧ y ∈ ring.drop p

variable {y x c : α} {ring : List α} {p : ℕ}

theorem Before.mem (h : Before y x ring p) : y ∈ ring := by
  cases h.order with
  | inl order =>
      have turned : y ∈ ring.drop p ++ ring.take p := order.subset List.mem_cons_self
      cases List.mem_append.mp turned with
      | inl ahead => exact List.mem_of_mem_drop ahead
      | inr behind => exact List.mem_of_mem_take behind
  | inr waiting => exact List.mem_of_mem_drop waiting.2

theorem filter_kept {keep : α → Bool} (within : p ≤ ring.length)
    (kept : ∀ a ∈ ring.take p, keep a = true) (joined : List α) :
    p ≤ (ring.filter keep ++ joined).length ∧
      (ring.filter keep ++ joined).take p = ring.take p ∧
      (ring.filter keep ++ joined).drop p = (ring.drop p).filter keep ++ joined := by
  have split : ring.filter keep = ring.take p ++ (ring.drop p).filter keep := by
    calc ring.filter keep
        = (ring.take p ++ ring.drop p).filter keep := by rw [List.take_append_drop]
      _ = ring.take p ++ (ring.drop p).filter keep := by
          rw [List.filter_append, List.filter_eq_self.mpr kept]
  have length : (ring.take p).length = p := List.length_take_of_le within
  rw [split, List.append_assoc]
  refine ⟨by simp [length], ?_, ?_⟩
  · exact List.take_left' length
  · exact List.drop_left' length

theorem sublist_front {front back : List α} (order : [y, x].Sublist (front ++ back))
    (out : x ∉ back) : [y, x].Sublist front := by
  obtain ⟨first, second, split, inFront, inBack⟩ := List.sublist_append_iff.mp order
  cases second with
  | nil =>
      rw [List.append_nil] at split
      rwa [split]
  | cons a second =>
      have last : x ∈ a :: second := by
        have ends := congrArg List.getLast? split
        rw [List.getLast?_append_of_ne_nil _ (List.cons_ne_nil a second)] at ends
        exact List.mem_of_getLast? ends.symm
      exact absurd (inBack.subset last) out

theorem sublist_back {front back : List α} (out : y ∉ front)
    (order : [y, x].Sublist (front ++ back)) : [y, x].Sublist back := by
  induction front with
  | nil => exact order
  | cons a front ih =>
      rw [List.mem_cons, not_or] at out
      apply ih out.2
      exact (List.sublist_cons_iff.mp order).resolve_right fun ⟨_, same, _⟩ =>
        out.1 (List.cons.inj same).1

/-- In a list without duplicates only one of two elements comes first. -/
theorem order_unique {l : List α} (nodup : l.Nodup) (order : [y, x].Sublist l) :
    ¬ [x, y].Sublist l := by
  induction l with
  | nil => cases order
  | cons a l ih =>
      obtain ⟨fresh, nodup⟩ := List.nodup_cons.mp nodup
      intro order'
      rcases List.sublist_cons_iff.mp order with later | ⟨_, same, tail⟩
      · rcases List.sublist_cons_iff.mp order' with later' | ⟨_, same, tail⟩
        · exact ih nodup later later'
        · obtain ⟨rfl, -⟩ := List.cons.inj same
          exact fresh (later.subset (List.mem_cons_of_mem y List.mem_cons_self))
      · obtain ⟨rfl, rfl⟩ := List.cons.inj same
        have there : x ∈ l := List.singleton_sublist.mp tail
        rcases List.sublist_cons_iff.mp order' with later' | ⟨_, same, -⟩
        · exact fresh (later'.subset (List.mem_cons_of_mem x List.mem_cons_self))
        · obtain ⟨rfl, -⟩ := List.cons.inj same
          exact fresh there

/-- Elements that are ahead of the position may leave, and others join at the end. -/
theorem Before.keep (h : Before y x ring p) {keep : α → Bool} (stays : keep y = true)
    (kept : ∀ a ∈ ring.take p, keep a = true) (joined : List α) :
    Before y x (ring.filter keep ++ joined) p := by
  obtain ⟨within, taken, dropped⟩ := filter_kept h.within kept joined
  have behind (there : y ∈ ring.drop p) (out : x ∉ ring.filter keep) :
      Before y x (ring.filter keep ++ joined) p := by
    have ahead : y ∈ (ring.drop p).filter keep := List.mem_filter.mpr ⟨there, stays⟩
    refine ⟨within, ?_⟩
    rw [dropped]
    by_cases joins : x ∈ joined
    · refine .inl (List.Sublist.trans ?_ (List.sublist_append_left _ _))
      exact (List.singleton_sublist.mpr ahead).append (List.singleton_sublist.mpr joins)
    · refine .inr ⟨?_, List.mem_append_left joined ahead⟩
      rw [List.mem_append]
      exact fun either => either.elim out joins
  cases h.order with
  | inr waiting =>
      exact behind waiting.2 fun mem => waiting.1 (List.mem_filter.mp mem).1
  | inl order =>
      cases keeps : keep x with
      | true =>
          refine ⟨within, .inl ?_⟩
          have order' := order.filter keep
          rw [List.filter_append, List.filter_eq_self.mpr kept,
            List.filter_eq_self.mpr (by simp [stays, keeps])] at order'
          rw [taken, dropped, List.append_assoc]
          exact order'.trans ((List.Sublist.refl _).append (List.sublist_append_right _ _))
      | false =>
          have out : x ∉ ring.take p := fun mem => by
            rw [kept x mem] at keeps
            cases keeps
          refine behind ((sublist_front order out).subset List.mem_cons_self) fun mem => ?_
          simp [keeps] at mem

/-- Once round, the turns come as the ring has them. -/
theorem Before.sublist (h : Before y x ring ring.length) : [y, x].Sublist ring := by
  have order := h.order
  rw [List.drop_length, List.take_length, List.nil_append] at order
  exact order.resolve_right fun waiting => nomatch waiting.2

theorem Before.not_last (h : Before y x ring ring.length) (nodup : ring.Nodup) :
    ring.getLast? ≠ some y := by
  intro last
  obtain ⟨front, rfl⟩ := List.getLast?_eq_some_iff.mp last
  have fresh : y ∉ front := fun mem =>
    (List.nodup_append.mp nodup).2.2 y mem y (List.mem_singleton_self y) rfl
  have short : 2 ≤ 1 := (sublist_back fresh h.sublist).length_le
  omega

/-- Then the position may be set back to the front. -/
theorem Before.restart (h : Before y x ring ring.length) {keep : α → Bool}
    (stays : keep y = true) : Before y x (ring.filter keep) 0 := by
  have order : [y, x].Sublist ring := h.sublist
  refine ⟨Nat.zero_le _, ?_⟩
  rw [List.drop_zero, List.take_zero, List.append_nil]
  cases keeps : keep x with
  | true =>
      left
      have order' := order.filter keep
      rwa [List.filter_eq_self.mpr (by simp [stays, keeps])] at order'
  | false =>
      right
      refine ⟨by simp [keeps], List.mem_filter.mpr ⟨?_, stays⟩⟩
      exact order.subset List.mem_cons_self

/-- After the turn of another one `y` still comes before `x`, whose turn it was not. -/
theorem Before.turn (h : Before y x ring p) (nodup : ring.Nodup) {passed rest : List α} {i : ℕ}
    (split : ring.rotate p = passed ++ c :: rest) (out : y ∉ passed) (other : c ≠ y)
    (turned : ring.rotate (i + 1) = rest ++ passed ++ [c]) (here : ring[i]? = some c) :
    c ≠ x ∧ Before y x ring (i + 1) := by
  obtain ⟨bound, found⟩ := List.getElem?_eq_some_iff.mp here
  have only : y ∉ [c] := fun mem => other (List.mem_singleton.mp mem).symm
  rw [List.rotate_eq_drop_append_take bound] at turned
  rw [List.rotate_eq_drop_append_take h.within] at split
  cases h.order with
  | inl order =>
      rw [split] at order
      have later : [y, x].Sublist rest := sublist_back only (sublist_back out order)
      refine ⟨?_, bound, .inl ?_⟩
      · rintro rfl
        have distinct : (passed ++ c :: rest).Nodup := by
          rw [← split, ← List.rotate_eq_drop_append_take h.within]
          exact List.nodup_rotate.mpr nodup
        have fresh := (List.nodup_cons.mp (List.nodup_append.mp distinct).2.1).1
        exact fresh (later.subset (List.mem_cons_of_mem y List.mem_cons_self))
      · rw [turned, List.append_assoc]
        exact later.trans (List.sublist_append_left _ _)
  | inr waiting =>
      refine ⟨fun same => waiting.1 (same ▸ List.mem_of_getElem? here), bound, .inr ⟨waiting.1, ?_⟩⟩
      have mem : y ∈ passed ++ c :: rest := split ▸ List.mem_append_left _ waiting.2
      have later : y ∈ rest := by
        cases List.mem_append.mp mem with
        | inl inPassed => exact absurd inPassed out
        | inr inRest => exact (List.mem_cons.mp inRest).resolve_left (Ne.symm other)
      -- `c` stands before `y` in the part ahead of the position, and so in the ring.
      have order : [c, y].Sublist (ring.drop p ++ ring.take p) := by
        rw [split]
        refine List.Sublist.trans ?_ (List.sublist_append_right passed _)
        exact (List.singleton_sublist.mpr later).cons_cons c
      have apart : y ∉ ring.take p := by
        have distinct : (ring.take p ++ ring.drop p).Nodup := by rwa [List.take_append_drop]
        exact fun taken => (List.nodup_append.mp distinct).2.2 y taken y waiting.2 rfl
      have inRing : [c, y].Sublist ring :=
        (sublist_front order apart).trans (List.drop_sublist p ring)
      have whole : y ∈ ring.take (i + 1) ++ ring.drop (i + 1) := by
        rw [List.take_append_drop]
        exact List.mem_of_mem_drop waiting.2
      refine (List.mem_append.mp whole).resolve_left fun early => ?_
      rw [List.take_add_one, here, Option.toList_some] at early
      have before : y ∈ ring.take i := (List.mem_append.mp early).resolve_right only
      apply order_unique nodup inRing
      have front : [y, c].Sublist (ring.take i ++ [c]) :=
        (List.singleton_sublist.mpr before).append (List.Sublist.refl _)
      refine front.trans ?_
      have taken : ring.take i ++ [c] = ring.take (i + 1) := by
        rw [List.take_add_one, here, Option.toList_some]
      rw [taken]
      exact List.take_sublist (i + 1) ring

/-- Whose turn it was comes after all others. -/
theorem before_last {l : List α} {i : ℕ} (turned : ring.rotate (i + 1) = l ++ [x])
    (here : ring[i]? = some x) (mem : y ∈ ring) (other : y ≠ x) : Before y x ring (i + 1) := by
  obtain ⟨bound, -⟩ := List.getElem?_eq_some_iff.mp here
  have there : y ∈ l ++ [x] := turned ▸ List.mem_rotate.mpr mem
  have inFront : y ∈ l := (List.mem_append.mp there).resolve_right fun last =>
    other (List.mem_singleton.mp last)
  refine ⟨bound, .inl ?_⟩
  rw [← List.rotate_eq_drop_append_take bound, turned]
  exact (List.singleton_sublist.mpr inFront).append (List.Sublist.refl _)

end E2eeProxy.Lib
