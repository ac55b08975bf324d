import E2eeProxy.Lib.ListSearch

/-! # Incremental line readers

A reader that receives its input in pieces keeps what it has read of an
unfinished line in a buffer, handles each complete line as soon as it is there,
and may stop in the middle of the input. `read_eq` says that nothing depends on
the pieces: the state reached is the one that feeding the lines of the whole
input one by one reaches.
-/

namespace E2eeProxy.Lib

/-- A state machine over lines that may declare itself finished. -/
structure LineReader (α σ : Type*) where
  newline : α
  stopped : σ → Bool
  step : σ → List α → σ

namespace LineReader

variable {α σ : Type*} (r : LineReader α σ)

/-- Feed lines until the machine stops. -/
def feed : σ → List (List α) → σ
  | s, [] => s
  | s, line :: lines => if r.stopped s then s else feed (r.step s line) lines

theorem feed_stopped {s : σ} (h : r.stopped s) (lines : List (List α)) : r.feed s lines = s := by
  cases lines with
  | nil => rfl
  | cons line lines => simp [feed, h]

theorem feed_append (s : σ) (a b : List (List α)) : r.feed s (a ++ b) = r.feed (r.feed s a) b := by
  induction a generalizing s with
  | nil => rfl
  | cons line lines ih =>
      by_cases h : r.stopped s
      · simp only [r.feed_stopped h]
      · simp only [List.cons_append, feed, h]
        exact ih _

/-- The lines handled before the machine stops, each with the state it met. -/
def handled : σ → List (List α) → List (σ × List α)
  | _, [] => []
  | s, line :: lines => if r.stopped s then [] else (s, line) :: handled (r.step s line) lines

variable [DecidableEq α]

/-- The inner loop: handle the complete lines of the buffer. Each round consumes
    a newline, so the length of the buffer is enough rounds. -/
def drain : Nat → List α → σ → List α × σ
  | 0, buffer, s => (buffer, s)
  | rounds + 1, buffer, s =>
      if r.stopped s then (buffer, s)
      else match cut [r.newline] buffer with
        | none => (buffer, s)
        | some (line, rest) => drain rounds rest (r.step s line)

/-- The outer loop over the pieces of the input. -/
def read : List (List α) → List α → σ → List α × σ
  | [], buffer, s => (buffer, s)
  | piece :: pieces, buffer, s =>
      if r.stopped s then (buffer, s)
      else
        let drained := r.drain (buffer ++ piece).length (buffer ++ piece) s
        read pieces drained.1 drained.2

theorem drain_eq {rounds : Nat} {buffer : List α} {s : σ} (enough : buffer.length ≤ rounds) :
    (r.drain rounds buffer s).2 = r.feed s (splitLines r.newline buffer).1 ∧
      (r.stopped (r.drain rounds buffer s).2 = false →
        (r.drain rounds buffer s).1 = (splitLines r.newline buffer).2) := by
  induction rounds generalizing buffer s with
  | zero =>
      obtain rfl : buffer = [] := List.length_eq_zero_iff.mp (Nat.le_zero.mp enough)
      simp [drain, splitLines, feed]
  | succ rounds ih =>
      by_cases stop : r.stopped s
      · simp [drain, stop, r.feed_stopped stop]
      · cases found : cut [r.newline] buffer with
        | none => simp [drain, stop, found, splitLines_no_newline _ found, feed]
        | some split =>
            obtain ⟨line, rest⟩ := split
            have shorter : rest.length ≤ rounds := by
              have whole := congrArg List.length (cut_append _ found)
              simp only [List.length_append, List.length_singleton] at whole
              omega
            simpa [drain, stop, found, splitLines_cut _ found, feed] using ih shorter

theorem splitLines_rest_no_newline (nl : α) (s : List α) :
    splitLines nl (splitLines nl s).2 = ([], (splitLines nl s).2) := by
  induction s with
  | nil => rfl
  | cons x xs ih =>
      by_cases hx : x = nl
      · simpa [splitLines, hx] using ih
      · cases lines : (splitLines nl xs).1 with
        | nil => simp [splitLines, hx, lines, ih]
        | cons line more => simpa [splitLines, hx, lines] using ih

theorem read_stopped {s : σ} (h : r.stopped s) (pieces : List (List α)) (buffer : List α) :
    r.read pieces buffer s = (buffer, s) := by
  cases pieces with
  | nil => rfl
  | cons piece pieces => simp [read, h]

/-- Framing independence: however the input is cut into pieces, the machine ends
    in the state that its whole lines lead to, and unless it stopped the buffer
    holds the unterminated rest. -/
theorem read_eq (pieces : List (List α)) (buffer : List α) (s : σ)
    (unfinished : splitLines r.newline buffer = ([], buffer)) :
    (r.read pieces buffer s).2 =
        r.feed s (splitLines r.newline (buffer ++ pieces.flatten)).1 ∧
      (r.stopped (r.read pieces buffer s).2 = false →
        (r.read pieces buffer s).1 = (splitLines r.newline (buffer ++ pieces.flatten)).2) := by
  induction pieces generalizing buffer s with
  | nil => simp [read, unfinished, feed]
  | cons piece pieces ih =>
      by_cases stop : r.stopped s
      · simp [read_stopped, stop, r.feed_stopped stop]
      · have drained := r.drain_eq (s := s) (Nat.le_refl (buffer ++ piece).length)
        have settled := splitLines_rest_no_newline r.newline (buffer ++ piece)
        simp only [read, stop, Bool.false_eq_true, if_false]
        rw [List.flatten_cons, ← List.append_assoc, splitLines_append, r.feed_append, ← drained.1]
        generalize r.drain (buffer ++ piece).length (buffer ++ piece) s = after at drained ⊢
        obtain ⟨rest, t⟩ := after
        by_cases stopNow : r.stopped t
        · simp [read_stopped, stopNow, r.feed_stopped stopNow]
        · obtain rfl : rest = (splitLines r.newline (buffer ++ piece)).2 :=
            drained.2 (by simpa using stopNow)
          exact ih _ _ settled

end LineReader

end E2eeProxy.Lib
