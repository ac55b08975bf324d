import Mathlib.Data.List.Nodup
import Mathlib.Data.List.Basic
import Mathlib.Tactic.Common

/-! # Insertion-ordered tables

A finite map as the list of its entries in the order in which their keys were
first written. Writing to a present key replaces its value in place.
-/

namespace E2eeProxy.Lib

variable {κ ν : Type*} [DecidableEq κ]

/-- Writes `v` at `k`. -/
def setEntry (k : κ) (v : ν) : List (κ × ν) → List (κ × ν)
  | [] => [(k, v)]
  | (k', v') :: rest => if k' = k then (k, v) :: rest else (k', v') :: setEntry k v rest

theorem setEntry_absent {k : κ} (v : ν) {t : List (κ × ν)} (absent : t.lookup k = none) :
    setEntry k v t = t ++ [(k, v)] := by
  induction t with
  | nil => rfl
  | cons e t ih =>
      obtain ⟨k', v'⟩ := e
      cases same : k == k' with
      | true => simp [List.lookup_cons, same] at absent
      | false =>
          have differ : k' ≠ k := fun eq => by simp [eq] at same
          simp only [List.lookup_cons, same] at absent
          simp [setEntry, differ, ih absent]

theorem lookup_some_split {k : κ} {v : ν} {t : List (κ × ν)} (present : t.lookup k = some v) :
    ∃ before after, t = before ++ (k, v) :: after ∧ before.lookup k = none := by
  induction t with
  | nil => simp at present
  | cons e t ih =>
      obtain ⟨k', v'⟩ := e
      cases same : k == k' with
      | true =>
          simp only [List.lookup_cons, same, Option.some.injEq] at present
          exact ⟨[], t, by simp [beq_iff_eq.mp same, present]⟩
      | false =>
          simp only [List.lookup_cons, same] at present
          obtain ⟨before, after, rfl, absent⟩ := ih present
          exact ⟨(k', v') :: before, after, rfl, by simp [List.lookup_cons, same, absent]⟩

theorem setEntry_present {k : κ} {v : ν} (w : ν) {before : List (κ × ν)}
    (after : List (κ × ν)) (absent : before.lookup k = none) :
    setEntry k w (before ++ (k, v) :: after) = before ++ (k, w) :: after := by
  induction before with
  | nil => simp [setEntry]
  | cons e before ih =>
      obtain ⟨k', v'⟩ := e
      cases same : k == k' with
      | true => simp [List.lookup_cons, same] at absent
      | false =>
          have differ : k' ≠ k := fun eq => by simp [eq] at same
          simp only [List.lookup_cons, same] at absent
          simp [setEntry, differ, ih absent]

@[simp] theorem lookup_setEntry_self (k : κ) (v : ν) (t : List (κ × ν)) :
    (setEntry k v t).lookup k = some v := by
  induction t with
  | nil => simp [setEntry]
  | cons e t ih =>
      obtain ⟨k', v'⟩ := e
      simp only [setEntry]
      split
      · simp
      · rename_i differ
        have same : (k == k') = false := by simpa using Ne.symm differ
        simpa [List.lookup_cons, same] using ih

theorem lookup_setEntry_ne {k l : κ} (v : ν) (t : List (κ × ν)) (differ : l ≠ k) :
    (setEntry k v t).lookup l = t.lookup l := by
  induction t with
  | nil =>
      have other : (l == k) = false := by simpa using differ
      simp [setEntry, List.lookup_cons, other]
  | cons e t ih =>
      obtain ⟨k', v'⟩ := e
      have other : (l == k) = false := by simpa using differ
      simp only [setEntry]
      split
      · rename_i same
        simp [List.lookup_cons, other, same]
      · cases head : l == k' with
        | true => simp [List.lookup_cons, head]
        | false => simpa [List.lookup_cons, head] using ih

theorem lookup_setEntry (k l : κ) (v : ν) (t : List (κ × ν)) :
    (setEntry k v t).lookup l = if l = k then some v else t.lookup l := by
  split
  · rename_i same
    rw [same, lookup_setEntry_self]
  · rename_i differ
    exact lookup_setEntry_ne v t differ

/-- Any way to compare keys finds the same. -/
theorem lookup_lawful [beq : BEq κ] [LawfulBEq κ] (k : κ) (t : List (κ × ν)) :
    @List.lookup κ ν beq k t = @List.lookup κ ν instBEqOfDecidableEq k t := by
  have same : beq = instBEqOfDecidableEq := lawful_beq_subsingleton _ _
  subst same
  rfl

/-- The keys of a table, in the order of their first write. -/
theorem setEntry_keys (k : κ) (v : ν) (t : List (κ × ν)) :
    (setEntry k v t).map Prod.fst =
      if (t.lookup k).isSome then t.map Prod.fst else t.map Prod.fst ++ [k] := by
  cases present : t.lookup k with
  | none => simp [setEntry_absent v present]
  | some w =>
      obtain ⟨before, after, rfl, absent⟩ := lookup_some_split present
      simp [setEntry_present v after absent]

theorem lookup_isSome_iff_mem (k : κ) (t : List (κ × ν)) :
    (t.lookup k).isSome ↔ k ∈ t.map Prod.fst := by
  induction t with
  | nil => simp
  | cons e t ih =>
      obtain ⟨k', v'⟩ := e
      cases same : k == k' with
      | true => simp [beq_iff_eq.mp same]
      | false =>
          have differ : k ≠ k' := fun eq => by simp [eq] at same
          simp [List.lookup_cons, same, ih, differ]

/-- In a table without repeated keys an entry is what looking up its key finds. -/
theorem lookup_eq_some_of_mem {k : κ} {v : ν} {t : List (κ × ν)}
    (distinct : (t.map Prod.fst).Nodup) (mem : (k, v) ∈ t) : t.lookup k = some v := by
  induction t with
  | nil => simp at mem
  | cons e t ih =>
      obtain ⟨k', v'⟩ := e
      simp only [List.map_cons, List.nodup_cons] at distinct
      cases List.mem_cons.mp mem with
      | inl here =>
          simp only [Prod.mk.injEq] at here
          simp [here.1, here.2]
      | inr there =>
          have differ : k ≠ k' := by
            rintro rfl
            exact distinct.1 (List.mem_map_of_mem (f := Prod.fst) there)
          have same : (k == k') = false := by simpa using differ
          simpa [List.lookup_cons, same] using ih distinct.2 there

theorem mem_of_lookup_eq_some {k : κ} {v : ν} {t : List (κ × ν)} (h : t.lookup k = some v) :
    (k, v) ∈ t := by
  obtain ⟨before, after, rfl, -⟩ := lookup_some_split h
  simp

theorem setEntry_nodup (k : κ) (v : ν) {t : List (κ × ν)} (distinct : (t.map Prod.fst).Nodup) :
    ((setEntry k v t).map Prod.fst).Nodup := by
  rw [setEntry_keys]
  split
  · exact distinct
  · rename_i absent
    rw [lookup_isSome_iff_mem] at absent
    exact List.nodup_append.mpr ⟨distinct, List.nodup_singleton k, by
      rintro a mem b single rfl
      exact absent (List.mem_singleton.mp single ▸ mem)⟩

/-- What a table holds after a write was written or is what it held. -/
theorem setEntry_mem {k : κ} {v : ν} {e : κ × ν} {t : List (κ × ν)} (mem : e ∈ setEntry k v t) :
    e = (k, v) ∨ e ∈ t := by
  induction t with
  | nil => exact .inl (List.mem_singleton.mp mem)
  | cons head t ih =>
      unfold setEntry at mem
      split at mem
      · exact (List.mem_cons.mp mem).imp id (List.mem_cons_of_mem head)
      · rcases List.mem_cons.mp mem with rfl | later
        · exact .inr List.mem_cons_self
        · exact (ih later).imp id (List.mem_cons_of_mem head)

theorem foldl_setEntry_mem {e : κ × ν} (entries t : List (κ × ν))
    (mem : e ∈ entries.foldl (fun map entry => setEntry entry.1 entry.2 map) t) :
    e ∈ entries ∨ e ∈ t := by
  induction entries generalizing t with
  | nil => exact .inr mem
  | cons head entries ih =>
      cases ih _ mem with
      | inl later => exact .inl (List.mem_cons_of_mem head later)
      | inr now =>
          rcases setEntry_mem now with rfl | old
          · exact .inl List.mem_cons_self
          · exact .inr old

/-! ## Entries that are replaced later -/

/-- The value of the last entry with the key. -/
def lastLookup (k : κ) : List (κ × ν) → Option ν
  | [] => none
  | (k', v) :: rest => (lastLookup k rest).or (if k' = k then some v else none)

theorem lastLookup_eq_none_iff {k : κ} {t : List (κ × ν)} :
    lastLookup k t = none ↔ k ∉ t.map Prod.fst := by
  induction t with
  | nil => simp [lastLookup]
  | cons e t ih =>
      obtain ⟨k', v'⟩ := e
      simp only [lastLookup, Option.or_eq_none_iff, ih, List.map_cons, List.mem_cons, not_or]
      constructor
      · rintro ⟨later, here⟩
        refine ⟨?_, later⟩
        rintro rfl
        simp at here
      · rintro ⟨here, later⟩
        exact ⟨later, if_neg (Ne.symm here)⟩

theorem lastLookup_cons (k k' : κ) (v : ν) (t : List (κ × ν)) :
    lastLookup k ((k', v) :: t) =
      if k' = k ∧ k ∉ t.map Prod.fst then some v else lastLookup k t := by
  cases later : lastLookup k t with
  | none => simp [lastLookup, later, lastLookup_eq_none_iff.mp later]
  | some w =>
      have mem : k ∈ t.map Prod.fst := by
        by_contra absent
        rw [lastLookup_eq_none_iff.mpr absent] at later
        cases later
      rw [if_neg fun h => h.2 mem]
      simp [lastLookup, later]

theorem lastLookup_mem {k : κ} {v : ν} {t : List (κ × ν)} (found : lastLookup k t = some v) :
    (k, v) ∈ t := by
  induction t with
  | nil => cases found
  | cons e t ih =>
      obtain ⟨k', v'⟩ := e
      rw [lastLookup_cons] at found
      split at found
      · rename_i here
        cases found
        rw [here.1]
        exact List.mem_cons_self
      · exact List.mem_cons_of_mem _ (ih found)

/-- Without repeated keys every entry is the last one. -/
theorem lastLookup_eq_lookup (k : κ) {t : List (κ × ν)} (distinct : (t.map Prod.fst).Nodup) :
    lastLookup k t = t.lookup k := by
  cases found : lastLookup k t with
  | none =>
      have absent := lastLookup_eq_none_iff.mp found
      cases held : t.lookup k with
      | none => rfl
      | some v => exact absurd (List.mem_map_of_mem (mem_of_lookup_eq_some held)) absent
  | some v => exact (lookup_eq_some_of_mem distinct (lastLookup_mem found)).symm

theorem lastLookup_append_single (k k' : κ) (v : ν) (t : List (κ × ν)) :
    lastLookup k (t ++ [(k', v)]) = if k' = k then some v else lastLookup k t := by
  induction t with
  | nil => simp [lastLookup]
  | cons e t ih =>
      obtain ⟨l, w⟩ := e
      rw [List.cons_append, lastLookup, ih, lastLookup]
      split <;> simp

theorem lastLookup_mapEntry {μ : Type*} (f : κ → ν → μ) (k : κ) (t : List (κ × ν)) :
    lastLookup k (t.map fun e => (e.1, f e.1 e.2)) = (lastLookup k t).map (f k) := by
  induction t with
  | nil => rfl
  | cons e t ih =>
      obtain ⟨k', v⟩ := e
      rw [List.map_cons, lastLookup, ih, lastLookup]
      cases lastLookup k t with
      | some w => rfl
      | none =>
          by_cases here : k' = k
          · simp [here]
          · simp [here]

/-! ## Tables of a part of the values -/

variable {μ : Type*} (f : ν → μ)

theorem lookup_mapValue (k : κ) (t : List (κ × ν)) :
    (t.map fun e => (e.1, f e.2)).lookup k = (t.lookup k).map f := by
  induction t with
  | nil => rfl
  | cons e t ih =>
      obtain ⟨k', v'⟩ := e
      cases same : k == k' with
      | true => simp [List.lookup_cons, same]
      | false => simpa [List.lookup_cons, same] using ih

theorem mapValue_setEntry (k : κ) (v : ν) (t : List (κ × ν)) :
    (setEntry k v t).map (fun e => (e.1, f e.2)) =
      setEntry k (f v) (t.map fun e => (e.1, f e.2)) := by
  induction t with
  | nil => rfl
  | cons e t ih =>
      simp only [setEntry, List.map_cons]
      split
      · rfl
      · rw [List.map_cons, ih]

theorem setEntry_same {k : κ} {v : ν} {t : List (κ × ν)} (present : t.lookup k = some v) :
    setEntry k v t = t := by
  obtain ⟨before, after, rfl, absent⟩ := lookup_some_split present
  exact setEntry_present v after absent

end E2eeProxy.Lib
