import Mathlib.Data.List.Nodup
import Mathlib.Data.List.Perm.Subperm
import Mathlib.Data.List.Sort

/-! # Listings of keyed entries

A listing names the values of some entries in the order of their keys. Entries
with equal keys may be listed either way; where the keys differ there is one
listing only.
-/

namespace E2eeProxy.Lib

variable {β : Type*}

/-- `listing` has the values of `entries` in the order of their keys. -/
def IsListing (listing : List β) (entries : List (ℕ × β)) : Prop :=
  ∃ sorted : List (ℕ × β), sorted.Perm entries ∧
    sorted.Pairwise (fun a b => a.1 ≤ b.1) ∧ sorted.map Prod.snd = listing

theorem IsListing.perm {listing : List β} {entries : List (ℕ × β)}
    (h : IsListing listing entries) : listing.Perm (entries.map Prod.snd) := by
  obtain ⟨sorted, perm, -, rfl⟩ := h
  exact perm.map Prod.snd

/-- Entries that can be put in strict order have that listing alone. -/
theorem isListing_iff {listing : List β} {entries ordered : List (ℕ × β)}
    (perm : entries.Perm ordered) (strict : ordered.Pairwise fun a b => a.1 < b.1) :
    IsListing listing entries ↔ ordered.map Prod.snd = listing := by
  constructor
  · rintro ⟨sorted, isPerm, pairwise, rfl⟩
    have same : sorted = ordered := by
      refine List.Perm.eq_of_pairwise ?_ pairwise (strict.imp Nat.le_of_lt) (isPerm.trans perm)
      intro a b memA memB le ge
      have keys : (ordered.map Prod.fst).Nodup :=
        List.pairwise_map.mpr (strict.imp Nat.ne_of_lt)
      exact List.inj_on_of_nodup_map keys ((isPerm.trans perm).subset memA) memB
        (Nat.le_antisymm le ge)
    rw [same]
  · rintro rfl
    exact ⟨ordered, perm.symm, strict.imp Nat.le_of_lt, rfl⟩

/-- A value of its own is listed first exactly when its key is least. -/
theorem isListing_cons_iff {listing : List β} {entries : List (ℕ × β)} (k : ℕ) {v : β}
    (own : v ∉ entries.map Prod.snd) :
    IsListing (v :: listing) ((k, v) :: entries) ↔
      (∀ e ∈ entries, k ≤ e.1) ∧ IsListing listing entries := by
  constructor
  · rintro ⟨sorted, perm, pairwise, values⟩
    cases sorted with
    | nil => cases values
    | cons head rest =>
        obtain ⟨j, w⟩ := head
        simp only [List.map_cons, List.cons.injEq] at values
        obtain ⟨rfl, rfl⟩ := values
        have here : (j, w) ∈ (k, w) :: entries := perm.subset List.mem_cons_self
        have key : j = k := by
          cases List.mem_cons.mp here with
          | inl same => exact congrArg Prod.fst same
          | inr there => exact absurd (List.mem_map_of_mem (f := Prod.snd) there) own
        subst key
        have restPerm := perm.cons_inv
        obtain ⟨least, restPairwise⟩ := List.pairwise_cons.mp pairwise
        exact ⟨fun e mem => least e (restPerm.symm.subset mem), rest, restPerm, restPairwise, rfl⟩
  · rintro ⟨least, sorted, perm, pairwise, rfl⟩
    refine ⟨(k, v) :: sorted, perm.cons (k, v), ?_, rfl⟩
    exact List.pairwise_cons.mpr ⟨fun e mem => least e (perm.subset mem), pairwise⟩

/-- Keys are numbered through from 0 exactly when none is there twice and none is
    left out below another. -/
theorem exists_perm_range_iff {keys : List ℕ} :
    (∃ n, keys.Perm (List.range n)) ↔ keys.Nodup ∧ ∀ j ∈ keys, ∀ i < j, i ∈ keys := by
  constructor
  · rintro ⟨n, perm⟩
    refine ⟨perm.nodup_iff.mpr List.nodup_range, fun j mem i below => ?_⟩
    have bound := List.mem_range.mp (perm.subset mem)
    exact perm.symm.subset (List.mem_range.mpr (below.trans bound))
  · rintro ⟨distinct, closed⟩
    refine ⟨keys.length, ?_⟩
    have bound : keys ⊆ List.range keys.length := by
      intro j mem
      have inside : List.range (j + 1) ⊆ keys := by
        intro i inRange
        rcases Nat.lt_succ_iff_lt_or_eq.mp (List.mem_range.mp inRange) with below | rfl
        · exact closed j mem i below
        · exact mem
      have length := (List.nodup_range.subperm inside).length_le
      rw [List.length_range] at length
      exact List.mem_range.mpr length
    exact (distinct.subperm bound).perm_of_length_le (by simp)

end E2eeProxy.Lib
