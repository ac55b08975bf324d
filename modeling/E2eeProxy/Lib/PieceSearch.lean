import E2eeProxy.Lib.ListSearch

/-! # Searching a marker piece by piece

A reader that looks for the marker in every piece by itself finds the leftmost
occurrence of the whole text exactly when that occurrence lies inside one piece.
-/

namespace E2eeProxy.Lib

variable {α : Type*} [DecidableEq α] (tag : List α)

/-- Splits at the first piece that holds the whole marker. -/
def cutPieces : List (List α) → Option (List α × List α)
  | [] => none
  | piece :: rest =>
      match cut tag piece with
      | some (before, after) => some (before, after ++ rest.flatten)
      | none => (cutPieces rest).map fun p => (piece ++ p.1, p.2)

/-- Some piece holds the whole marker, and this is what stands around it. -/
def SplitsAt (pieces : List (List α)) (t r : List α) : Prop :=
  ∃ before x y after, pieces = before ++ (x ++ tag ++ y) :: after ∧
    t = before.flatten ++ x ∧ r = y ++ after.flatten

variable {tag} {pieces : List (List α)} {t r : List α}

omit [DecidableEq α] in
theorem SplitsAt.flatten (h : SplitsAt tag pieces t r) : pieces.flatten = t ++ tag ++ r := by
  obtain ⟨before, x, y, after, rfl, rfl, rfl⟩ := h
  simp

omit [DecidableEq α] in
theorem SplitsAt.cons (h : SplitsAt tag pieces t r) (piece : List α) :
    SplitsAt tag (piece :: pieces) (piece ++ t) r := by
  obtain ⟨before, x, y, after, rfl, rfl, rfl⟩ := h
  exact ⟨piece :: before, x, y, after, rfl, by simp, rfl⟩

theorem cutPieces_splitsAt (h : cutPieces tag pieces = some (t, r)) :
    SplitsAt tag pieces t r := by
  induction pieces generalizing t with
  | nil => cases h
  | cons piece rest ih =>
      simp only [cutPieces] at h
      split at h
      · rename_i before after found
        simp only [Option.some.injEq, Prod.mk.injEq] at h
        obtain ⟨rfl, rfl⟩ := h
        exact ⟨[], before, after, rest, by rw [cut_append tag found]; rfl, rfl, rfl⟩
      · obtain ⟨⟨t', r'⟩, found, same⟩ := Option.map_eq_some_iff.mp h
        simp only [Prod.mk.injEq] at same
        obtain ⟨rfl, rfl⟩ := same
        exact (ih found).cons piece

/-- No other piece holds the marker further to the left. -/
theorem cutPieces_least (h : SplitsAt tag pieces t r) :
    ∃ t' r', cutPieces tag pieces = some (t', r') ∧ t'.length ≤ t.length := by
  induction pieces generalizing t with
  | nil =>
      obtain ⟨before, x, y, after, empty, -⟩ := h
      cases before <;> cases empty
  | cons piece rest ih =>
      obtain ⟨before, x, y, after, split, rfl, rfl⟩ := h
      simp only [cutPieces]
      cases found : cut tag piece with
      | some p =>
          refine ⟨p.1, p.2 ++ rest.flatten, rfl, ?_⟩
          cases before with
          | nil =>
              simp only [List.nil_append, List.cons.injEq] at split
              simpa using cut_leftmost tag found split.1
          | cons b bs =>
              simp only [List.cons_append, List.cons.injEq] at split
              have parts := congrArg List.length (cut_append tag found)
              rw [split.1] at parts
              simp only [List.length_append, List.flatten_cons] at parts ⊢
              omega
      | none =>
          cases before with
          | nil =>
              simp only [List.nil_append, List.cons.injEq] at split
              refine absurd ?_ ((cut_eq_none_iff tag piece).mp found)
              exact ⟨x, y, split.1.symm⟩
          | cons b bs =>
              simp only [List.cons_append, List.cons.injEq] at split
              obtain ⟨rfl, rest'⟩ := split
              obtain ⟨t', r', later, least⟩ := ih ⟨bs, x, y, after, rest', rfl, rfl⟩
              refine ⟨piece ++ t', r', by simp [later], ?_⟩
              simp only [List.flatten_cons, List.append_assoc, List.length_append] at least ⊢
              omega

/-- Behind a head that is not searched, the pieces give the leftmost occurrence
    of the whole text exactly when one of them holds it. -/
theorem cutPieces_eq_cut_iff {head : List α}
    (found : cut tag (head ++ pieces.flatten) = some (t, r)) :
    (cutPieces tag pieces).map (fun p => (head ++ p.1, p.2)) = some (t, r) ↔
      ∃ s, SplitsAt tag pieces s r ∧ head ++ s = t := by
  have whole := cut_append tag found
  constructor
  · intro same
    obtain ⟨⟨s, r'⟩, pieceFound, eq⟩ := Option.map_eq_some_iff.mp same
    simp only [Prod.mk.injEq] at eq
    obtain ⟨rfl, rfl⟩ := eq
    exact ⟨s, cutPieces_splitsAt pieceFound, rfl⟩
  · rintro ⟨s, splits, rfl⟩
    obtain ⟨s', r', pieceFound, least⟩ := cutPieces_least splits
    have other := (cutPieces_splitsAt pieceFound).flatten
    have notBefore : (head ++ s).length ≤ (head ++ s').length := by
      apply cut_leftmost tag found (a := r')
      rw [other]
      simp
    have same : (head ++ s') ++ (tag ++ r') = (head ++ s) ++ (tag ++ r) := by
      rw [← List.append_assoc _ tag r, ← whole, other]
      simp
    have length : (head ++ s').length = (head ++ s).length := by
      simp only [List.length_append] at notBefore ⊢
      omega
    obtain ⟨heads, rests⟩ := List.append_inj same length
    rw [pieceFound, Option.map_some, heads, List.append_cancel_left rests]

end E2eeProxy.Lib
