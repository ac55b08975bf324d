import E2eeProxy.HttpBody

/-! # Bodies without chunks

`_body_reader` of resty/http.lua: a body that has a length, or that ends with the connection.
-/

namespace E2eeProxy.Http

open Lua

/-- `sock:receive("*a")`, which waits until the connection is closed. -/
def Sock.receiveAll (sock : Sock) : Except Bytes Bytes × Sock :=
  (if sock.error = lit "closed" then .ok sock.bytes else .error sock.error, { sock with bytes := [] })

/-- Behind so many bytes, or at its end. -/
inductive PlainReader where
  | reading (received : ℕ)
  | ended

/-- What is received at once. -/
def yieldOnce : Except Bytes Bytes × Sock → Turn PlainReader
  | (.error err, sock) => ⟨none, some err, .ended, sock⟩
  | (.ok str, sock) => ⟨some str, none, .ended, sock⟩

/-- A round of the loop for a body without a length. When the connection is closed, the rest
    comes with the error; any other error is kept back. -/
def readOn (max : ℕ) (sock : Sock) : Turn PlainReader :=
  match sock.receive max with
  | (.error err, sock') =>
      if err = lit "closed" then ⟨some sock.bytes, some err, .ended, sock'⟩ else ⟨none, none, .ended, sock'⟩
  | (.ok str, sock') => ⟨some str, none, .reading 0, sock'⟩

/-- A round of the loop for a body with a length. -/
def readUpTo (contentLength max received : ℕ) (sock : Sock) : Turn PlainReader :=
  let length := if contentLength < received + max then contentLength - received else max
  if 0 < length then
    match sock.receive length with
    | (.error err, sock) => ⟨none, some err, .ended, sock⟩
    | (.ok str, sock) => ⟨some str, none, .reading (received + length), sock⟩
  else ⟨none, none, .ended, sock⟩

/-- A call of the reader that `_body_reader` returns. -/
def bodyReader (contentLength max : Option ℕ) (sock : Sock) : PlainReader → Turn PlainReader
  | .reading received =>
      match contentLength, max with
      | none, some max => readOn max sock
      | none, none => yieldOnce sock.receiveAll
      | some contentLength, none => yieldOnce (sock.receive contentLength)
      | some contentLength, some max => readUpTo contentLength max received sock
  | .ended => ⟨none, none, .ended, sock⟩

/-- Each call that may still return a chunk takes a byte, but for the last one. -/
def callsLeft (sock : Sock) : PlainReader → ℕ
  | .reading _ => sock.bytes.length + 1
  | .ended => 0

section Calls

variable {contentLength max : Option ℕ} {sock sock' : Sock} {reader reader' : PlainReader} {chunk : Bytes}

theorem yieldOnce_ended {answer : Except Bytes Bytes × Sock}
    (turn : yieldOnce answer = ⟨some chunk, none, reader', sock'⟩) : reader' = .ended := by
  obtain ⟨_ | str, sock''⟩ := answer
  · cases turn
  · cases turn
    rfl

theorem readOn_shorter {max : ℕ} (positive : 0 < max)
    (turn : readOn max sock = ⟨some chunk, none, reader', sock'⟩) : sock'.bytes.length < sock.bytes.length := by
  unfold readOn at turn
  generalize received : sock.receive max = answer at turn
  obtain ⟨_ | str, sock''⟩ := answer
  · dsimp only at turn
    split at turn
    · cases turn
    · cases turn
  · cases turn
    exact Sock.receive_lt received positive

theorem readUpTo_shorter {contentLength max n : ℕ}
    (turn : readUpTo contentLength max n sock = ⟨some chunk, none, reader', sock'⟩) :
    sock'.bytes.length < sock.bytes.length := by
  unfold readUpTo at turn
  generalize (if contentLength < n + max then contentLength - n else max) = length at turn
  dsimp only at turn
  split at turn
  · rename_i positive
    generalize received : sock.receive length = answer at turn
    obtain ⟨_ | str, sock''⟩ := answer
    · cases turn
    · cases turn
      exact Sock.receive_lt received positive
  · cases turn

theorem callsLeft_lt (shorter : sock'.bytes.length < sock.bytes.length) (n : ℕ) :
    callsLeft sock' reader' < callsLeft sock (.reading n) := by
  cases reader' with
  | reading received => exact Nat.succ_lt_succ shorter
  | ended => exact Nat.succ_pos _

theorem bodyReader_fewer (positive : ∀ m ∈ max, 0 < m)
    (turn : bodyReader contentLength max sock reader = ⟨some chunk, none, reader', sock'⟩) :
    callsLeft sock' reader' < callsLeft sock reader := by
  cases reader with
  | reading received =>
    rcases contentLength with _ | contentLength <;> rcases max with _ | max
    · rw [yieldOnce_ended turn]
      exact Nat.succ_pos _
    · exact callsLeft_lt (readOn_shorter (positive max rfl) turn) received
    · rw [yieldOnce_ended turn]
      exact Nat.succ_pos _
    · exact callsLeft_lt (readUpTo_shorter turn) received
  | ended => cases turn

end Calls

/-- `_body_reader` for callers that always give the same maximum. -/
def plainBody (contentLength max : Option ℕ) (positive : ∀ m ∈ max, 0 < m) : BodyReader PlainReader where
  call := bodyReader contentLength max
  calls := callsLeft
  fewer := bodyReader_fewer positive

theorem readChunks_over {contentLength max : Option ℕ} (positive : ∀ k ∈ max, 0 < k) {sock sock' : Sock}
    {reader reader' : PlainReader} {err : Option Bytes}
    (turn : bodyReader contentLength max sock reader = ⟨none, err, reader', sock'⟩) :
    readChunks (plainBody contentLength max positive) sock reader = ([], err, sock') :=
  readChunks_none (b := plainBody contentLength max positive) turn

theorem readChunks_piece {contentLength max : Option ℕ} (positive : ∀ k ∈ max, 0 < k) {sock sock' : Sock}
    {reader reader' : PlainReader} {chunk : Bytes}
    (turn : bodyReader contentLength max sock reader = ⟨some chunk, none, reader', sock'⟩) :
    readChunks (plainBody contentLength max positive) sock reader =
      (chunk :: (readChunks (plainBody contentLength max positive) sock' reader').1,
        (readChunks (plainBody contentLength max positive) sock' reader').2) :=
  readChunks_more (b := plainBody contentLength max positive) turn

section Bodies

variable {m : ℕ} (positive : ∀ k ∈ some m, 0 < k)

/-- A body with a length is read to its end and no further. -/
theorem readChunks_upTo {contentLength received : ℕ} {data : Bytes} (rest err : Bytes)
    (length : received + data.length = contentLength) :
    ∃ pieces, pieces.flatten = data ∧ Fits (some m) pieces ∧
      readChunks (plainBody (some contentLength) (some m) positive) ⟨data ++ rest, err⟩ (.reading received) =
        (pieces, none, ⟨rest, err⟩) := by
  have more := positive m rfl
  induction left : data.length using Nat.strong_induction_on generalizing received data with
  | _ n ih =>
    obtain ⟨k, chosen, atMost, within, none'⟩ : ∃ k,
        (if contentLength < received + m then contentLength - received else m) = k ∧
          k ≤ m ∧ k ≤ n ∧ (k = 0 → n = 0) := by
      refine ⟨_, rfl, ?_, ?_, ?_⟩ <;> split <;> omega
    have unfolded : bodyReader (some contentLength) (some m) ⟨data ++ rest, err⟩ (.reading received) =
        if 0 < k then
          match Sock.receive ⟨data ++ rest, err⟩ k with
          | (.error err, sock) => ⟨none, some err, .ended, sock⟩
          | (.ok str, sock) => ⟨some str, none, .reading (received + k), sock⟩
        else ⟨none, none, .ended, ⟨data ++ rest, err⟩⟩ := by
      rw [bodyReader, readUpTo, chosen]
    rcases Nat.eq_zero_or_pos k with rfl | some'
    · obtain rfl : data = [] := List.eq_nil_of_length_eq_zero (by rw [left, none' rfl])
      rw [if_neg (Nat.lt_irrefl 0)] at unfolded
      exact ⟨[], rfl, by simp [Fits], readChunks_over positive unfolded⟩
    · have first : (data.take k).length = k := List.length_take_of_le (by omega)
      have taken : Sock.receive ⟨data ++ rest, err⟩ k = (.ok (data.take k), ⟨data.drop k ++ rest, err⟩) := by
        have whole := Sock.receive_append (data.take k) (data.drop k ++ rest) err
        rwa [first, ← List.append_assoc, List.take_append_drop] at whole
      rw [if_pos some', taken] at unfolded
      dsimp only at unfolded
      have length' : received + k + (data.drop k).length = contentLength := by
        rw [List.length_drop]
        omega
      have left' : (data.drop k).length = n - k := by rw [List.length_drop, left]
      obtain ⟨pieces, flat, fits, result⟩ := ih (n - k) (by omega) length' left'
      refine ⟨data.take k :: pieces, ?_, ?_, ?_⟩
      · rw [List.flatten_cons, flat, List.take_append_drop]
      · intro piece mem
        rcases List.mem_cons.mp mem with rfl | later
        · constructor
          · intro none'
            rw [none', List.length_nil] at first
            omega
          · simpa [first] using atMost
        · exact fits piece later
      · rw [readChunks_piece positive unfolded, result]

/-- A body with a length that is cut off ends with the error of the socket. -/
theorem readChunks_lack {contentLength received : ℕ} {part : Bytes} (err : Bytes)
    (short : received + part.length < contentLength) :
    ∃ pieces, pieces.flatten <+: part ∧
      readChunks (plainBody (some contentLength) (some m) positive) ⟨part, err⟩ (.reading received) =
        (pieces, some err, ⟨[], err⟩) := by
  have more := positive m rfl
  induction left : part.length using Nat.strong_induction_on generalizing received part with
  | _ n ih =>
    obtain ⟨k, chosen, some'⟩ : ∃ k,
        (if contentLength < received + m then contentLength - received else m) = k ∧ 0 < k := by
      refine ⟨_, rfl, ?_⟩
      split <;> omega
    have unfolded : bodyReader (some contentLength) (some m) ⟨part, err⟩ (.reading received) =
        match Sock.receive ⟨part, err⟩ k with
        | (.error err, sock) => ⟨none, some err, .ended, sock⟩
        | (.ok str, sock) => ⟨some str, none, .reading (received + k), sock⟩ := by
      rw [bodyReader, readUpTo, chosen]
      exact if_pos some'
    rcases Nat.lt_or_ge part.length k with missing | enough
    · have lacking : Sock.receive ⟨part, err⟩ k = (.error err, ⟨[], err⟩) := if_neg (by simpa using missing)
      rw [lacking] at unfolded
      exact ⟨[], List.nil_prefix, readChunks_over positive unfolded⟩
    · have taken : Sock.receive ⟨part, err⟩ k = (.ok (part.take k), ⟨part.drop k, err⟩) := if_pos enough
      rw [taken] at unfolded
      dsimp only at unfolded
      have short' : received + k + (part.drop k).length < contentLength := by
        rw [List.length_drop]
        omega
      have left' : (part.drop k).length = n - k := by rw [List.length_drop, left]
      obtain ⟨pieces, front, result⟩ := ih (n - k) (by omega) short' left'
      refine ⟨part.take k :: pieces, ?_, ?_⟩
      · rw [List.flatten_cons]
        conv_rhs => rw [← List.take_append_drop k part]
        exact (List.prefix_append_right_inj _).mpr front
      · rw [readChunks_piece positive unfolded, result]

/-- Of a body without a length, whole pieces are returned only, and the error only if the
    connection was closed. -/
theorem readChunks_unknown (data err : Bytes) :
    ∃ pieces, pieces.flatten = data.take (data.length / m * m) ∧
      readChunks (plainBody none (some m) positive) ⟨data, err⟩ (.reading 0) =
        (pieces, if err = lit "closed" then some err else none, ⟨[], err⟩) := by
  have more := positive m rfl
  induction left : data.length using Nat.strong_induction_on generalizing data with
  | _ n ih =>
    have unfolded : bodyReader none (some m) ⟨data, err⟩ (.reading 0) = readOn m ⟨data, err⟩ := rfl
    rw [readOn] at unfolded
    rcases Nat.lt_or_ge data.length m with missing | enough
    · have lacking : Sock.receive ⟨data, err⟩ m = (.error err, ⟨[], err⟩) := if_neg (by simpa using missing)
      have nothing : data.take (n / m * m) = [] := by
        rw [Nat.div_eq_of_lt (by omega), Nat.zero_mul, List.take_zero]
      rw [lacking] at unfolded
      dsimp only at unfolded
      refine ⟨[], nothing.symm, ?_⟩
      split at unfolded
      · rename_i closed
        rw [if_pos closed]
        exact readChunks_error (b := plainBody none (some m) positive) unfolded
      · rename_i other
        rw [if_neg other]
        exact readChunks_over positive unfolded
    · have taken : Sock.receive ⟨data, err⟩ m = (.ok (data.take m), ⟨data.drop m, err⟩) := if_pos enough
      rw [taken] at unfolded
      dsimp only at unfolded
      have left' : (data.drop m).length = n - m := by rw [List.length_drop, left]
      obtain ⟨pieces, flat, result⟩ := ih (n - m) (by omega) (data.drop m) left'
      have rounds : n / m * m = m + (n - m) / m * m := by
        rw [Nat.div_eq_sub_div more (by omega), Nat.add_mul, Nat.one_mul, Nat.add_comm]
      refine ⟨data.take m :: pieces, ?_, ?_⟩
      · rw [List.flatten_cons, flat, rounds, List.take_add]
      · rw [readChunks_piece positive unfolded, result]

end Bodies

end E2eeProxy.Http
