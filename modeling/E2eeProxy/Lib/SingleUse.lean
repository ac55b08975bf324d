import Mathlib.Data.List.Nodup
import Mathlib.Logic.Function.Basic
import Mathlib.Tactic.Common

/-! # Tokens that are used once

Tokens are issued in lots, lie in piles and are handed out from there. If no
token is issued twice, then none is handed out twice, however piles are put up,
replaced and thrown away.
-/

namespace E2eeProxy.Lib

variable {ι τ : Type*}

/-- The newest tokens stand first. -/
structure Stock (ι τ : Type*) where
  issued : List τ
  handed : List τ
  piles : ι → List τ

namespace Stock

/-- A token of a pile was issued, was not handed out and lies in no other pile. -/
structure Sound (s : Stock ι τ) : Prop where
  issued : s.issued.Nodup
  handed : s.handed.Nodup
  known : ∀ x ∈ s.handed, x ∈ s.issued
  pile : ∀ i, (s.piles i).Nodup
  apart : ∀ i, ∀ x ∈ s.piles i, x ∈ s.issued ∧ x ∉ s.handed ∧ ∀ j, x ∈ s.piles j → j = i

namespace Sound

variable {s : Stock ι τ}

theorem empty : Sound (⟨[], [], fun _ => []⟩ : Stock ι τ) where
  issued := .nil
  handed := .nil
  known _ mem := nomatch mem
  pile _ := .nil
  apart _ _ mem := nomatch mem

theorem issue (h : s.Sound) {lot : List τ} (distinct : lot.Nodup) (fresh : ∀ x ∈ lot, x ∉ s.issued) :
    Sound { s with issued := lot ++ s.issued } where
  issued := List.Nodup.append distinct h.issued fun x new old => fresh x new old
  handed := h.handed
  known x mem := List.mem_append_right lot (h.known x mem)
  pile := h.pile
  apart i x mem := ⟨List.mem_append_right lot (h.apart i x mem).1, (h.apart i x mem).2⟩

/-- Tokens may be thrown away. -/
theorem shrink (h : s.Sound) {piles : ι → List τ} (sub : ∀ i, (piles i).Sublist (s.piles i)) :
    Sound { s with piles } where
  issued := h.issued
  handed := h.handed
  known := h.known
  pile i := (sub i).nodup (h.pile i)
  apart i x mem := by
    obtain ⟨issued, unused, only⟩ := h.apart i x ((sub i).subset mem)
    exact ⟨issued, unused, fun j there => only j ((sub j).subset there)⟩

/-- A token is handed out that lies in none of the piles that are left. -/
theorem take (h : s.Sound) {i : ι} {x : τ} (here : x ∈ s.piles i) {piles : ι → List τ}
    (sub : ∀ j, (piles j).Sublist (s.piles j)) (gone : x ∉ piles i) :
    Sound { s with handed := x :: s.handed, piles } where
  issued := h.issued
  handed := List.nodup_cons.mpr ⟨(h.apart i x here).2.1, h.handed⟩
  known y mem := by
    rcases List.mem_cons.mp mem with rfl | old
    · exact (h.apart i y here).1
    · exact h.known y old
  pile j := (sub j).nodup (h.pile j)
  apart j y mem := by
    obtain ⟨issued, unused, only⟩ := h.apart j y ((sub j).subset mem)
    refine ⟨issued, fun handed => ?_, fun k there => only k ((sub k).subset there)⟩
    rcases List.mem_cons.mp handed with rfl | old
    · obtain rfl := (h.apart i y here).2.2 j ((sub j).subset mem)
      exact gone mem
    · exact unused old

/-- A pile is put up in the place of another. -/
theorem put [DecidableEq ι] (h : s.Sound) (i : ι) {pile : List τ} (distinct : pile.Nodup)
    (free : ∀ x ∈ pile, x ∈ s.issued ∧ x ∉ s.handed ∧ ∀ j, x ∉ s.piles j) :
    Sound { s with piles := Function.update s.piles i pile } := by
  refine ⟨h.issued, h.handed, h.known, fun j => ?_, fun j x mem => ?_⟩
  · by_cases same : j = i
    · subst same
      simpa using distinct
    · simpa [Function.update_of_ne same] using h.pile j
  · dsimp only at mem ⊢
    have lies (k : ι) (there : x ∈ Function.update s.piles i pile k) :
        (k = i ∧ x ∈ pile) ∨ (k ≠ i ∧ x ∈ s.piles k) := by
      by_cases same : k = i
      · subst same
        exact .inl ⟨rfl, by simpa using there⟩
      · exact .inr ⟨same, by simpa [Function.update_of_ne same] using there⟩
    rcases lies j mem with ⟨rfl, new⟩ | ⟨-, old⟩
    · obtain ⟨issued, unused, nowhere⟩ := free x new
      refine ⟨issued, unused, fun k there => ?_⟩
      exact (lies k there).elim (fun new => new.1) fun old => absurd old.2 (nowhere k)
    · obtain ⟨issued, unused, only⟩ := h.apart j x old
      refine ⟨issued, unused, fun k there => ?_⟩
      rcases lies k there with ⟨-, new⟩ | ⟨-, old'⟩
      · exact absurd old ((free x new).2.2 j)
      · exact only k old'

end Sound

end Stock

end E2eeProxy.Lib
