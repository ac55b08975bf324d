import E2eeProxy.Lua.Value
import Mathlib.Tactic.Ring

/-! # Bodies in chunks

`_chunked_body_reader` of resty/http.lua, as its callers use it: they call it with the same
argument until it returns no chunk or an error.
-/

namespace E2eeProxy.Http

open Lua

/-! ## The socket -/

/-- What will still arrive, and the error of whoever asks for more. -/
structure Sock where
  bytes : Bytes
  error : Bytes

namespace Sock

def receive (sock : Sock) (n : ℕ) : Except Bytes Bytes × Sock :=
  if n ≤ sock.bytes.length then (.ok (sock.bytes.take n), { sock with bytes := sock.bytes.drop n })
  else (.error sock.error, { sock with bytes := [] })

/-- `sock:receive("*l")`, which passes over every carriage return. -/
def receiveLine (sock : Sock) : Except Bytes Bytes × Sock :=
  match sock.bytes.dropWhile (· ≠ 10) with
  | _ :: rest => (.ok ((sock.bytes.takeWhile (· ≠ 10)).filter (· ≠ 13)), { sock with bytes := rest })
  | [] => (.error sock.error, { sock with bytes := [] })

theorem receive_le (sock : Sock) (n : ℕ) : (sock.receive n).2.bytes.length ≤ sock.bytes.length := by
  unfold receive
  split
  · exact (List.drop_sublist _ _).length_le
  · exact Nat.zero_le _

theorem receive_lt {sock sock' : Sock} {n : ℕ} {str : Bytes} (received : sock.receive n = (.ok str, sock'))
    (positive : 0 < n) : sock'.bytes.length < sock.bytes.length := by
  unfold receive at received
  split at received
  · cases received
    simp only [List.length_drop]
    omega
  · cases received

theorem receiveLine_lt {sock sock' : Sock} {line : Bytes}
    (received : sock.receiveLine = (.ok line, sock')) : sock'.bytes.length < sock.bytes.length := by
  unfold receiveLine at received
  split at received
  · rename_i b rest found
    cases received
    have shorter := (List.dropWhile_sublist (· ≠ 10) (l := sock.bytes)).length_le
    rw [found, List.length_cons] at shorter
    exact shorter
  · cases received

theorem receive_append (a b err : Bytes) : receive ⟨a ++ b, err⟩ a.length = (.ok a, ⟨b, err⟩) := by
  simp [receive]

theorem receiveLine_append {line : Bytes} (one : 10 ∉ line) (rest err : Bytes) :
    receiveLine ⟨line ++ 10 :: rest, err⟩ = (.ok (line.filter (· ≠ 13)), ⟨rest, err⟩) := by
  have all : ∀ b ∈ line, decide (b ≠ 10) = true := by
    intro b mem
    exact decide_eq_true fun same => one (same ▸ mem)
  unfold receiveLine
  rw [List.dropWhile_append_of_pos all, List.takeWhile_append_of_pos all]
  simp

theorem receiveLine_cut {part : Bytes} (none' : 10 ∉ part) (err : Bytes) :
    receiveLine ⟨part, err⟩ = (.error err, ⟨[], err⟩) := by
  have all : part.dropWhile (· ≠ 10) = [] := by
    rw [List.dropWhile_eq_nil_iff]
    intro b mem
    exact decide_eq_true fun same => none' (same ▸ mem)
  unfold receiveLine
  rw [all]

end Sock

/-! ## Readers -/

/-- What a call returns and leaves. -/
structure Turn (ρ : Type) where
  chunk : Option Bytes
  err : Option Bytes
  reader : ρ
  sock : Sock

/-- A coroutine that returns a body. It cannot go on for ever: `calls` goes down with each
    chunk. -/
structure BodyReader (ρ : Type) where
  call : Sock → ρ → Turn ρ
  calls : Sock → ρ → ℕ
  fewer : ∀ {sock sock' : Sock} {reader reader' : ρ} {chunk : Bytes},
    call sock reader = ⟨some chunk, none, reader', sock'⟩ → calls sock' reader' < calls sock reader

/-- What the callers collect: the chunks, and the error that ended them. A chunk that
    comes with an error is dropped. -/
def readChunks {ρ : Type} (b : BodyReader ρ) (sock : Sock) (reader : ρ) : List Bytes × Option Bytes × Sock :=
  match _turn : b.call sock reader with
  | ⟨some chunk, none, reader', sock'⟩ =>
      let rest := readChunks b sock' reader'
      (chunk :: rest.1, rest.2)
  | ⟨none, err, _, sock'⟩ => ([], err, sock')
  | ⟨some _, some err, _, sock'⟩ => ([], some err, sock')
termination_by b.calls sock reader
decreasing_by exact b.fewer _turn

section Driver

variable {ρ : Type} {b : BodyReader ρ} {sock sock' : Sock} {reader reader' : ρ}

theorem readChunks_more {chunk : Bytes} (turn : b.call sock reader = ⟨some chunk, none, reader', sock'⟩) :
    readChunks b sock reader = (chunk :: (readChunks b sock' reader').1, (readChunks b sock' reader').2) := by
  rw [readChunks]
  split
  · rename_i same
    cases turn.symm.trans same
    rfl
  · rename_i same
    cases turn.symm.trans same
  · rename_i same
    cases turn.symm.trans same

theorem readChunks_none {err : Option Bytes} (turn : b.call sock reader = ⟨none, err, reader', sock'⟩) :
    readChunks b sock reader = ([], err, sock') := by
  rw [readChunks]
  split
  · rename_i same
    cases turn.symm.trans same
  · rename_i same
    cases turn.symm.trans same
    rfl
  · rename_i same
    cases turn.symm.trans same

theorem readChunks_error {chunk err : Bytes} (turn : b.call sock reader = ⟨some chunk, some err, reader', sock'⟩) :
    readChunks b sock reader = ([], some err, sock') := by
  rw [readChunks]
  split
  · rename_i same
    cases turn.symm.trans same
  · rename_i same
    cases turn.symm.trans same
  · rename_i same
    cases turn.symm.trans same
    rfl

/-- Only what a call returns and leaves matters. -/
theorem readChunks_congr (same : b.call sock reader = b.call sock' reader') :
    readChunks b sock reader = readChunks b sock' reader' := by
  generalize turn : b.call sock' reader' = t at same
  obtain ⟨_ | chunk, err, reader'', sock''⟩ := t
  · rw [readChunks_none same, readChunks_none turn]
  · cases err with
    | none => rw [readChunks_more same, readChunks_more turn]
    | some err => rw [readChunks_error same, readChunks_error turn]

end Driver

/-! ## The reader of chunks -/

/-- Where the coroutine is suspended: at its start, or behind a piece of a chunk of which so
    much remains. -/
inductive Reader where
  | fresh
  | more (remaining : ℕ)
  | ended

section Reading

variable (tonumber : Bytes → Option ℤ) (max : Option ℕ)

/-- `length` and `remaining`, of a chunk of which so much is left. -/
def portion (length : ℕ) : ℕ × ℕ :=
  match max with
  | some m => if m < length then (m, length - m) else (length, 0)
  | none => (length, 0)

/-- The second half of the loop's body, as far as a `co_yield`. -/
def fetch (length : ℕ) (sock : Sock) : Turn Reader :=
  let (length, remaining) := portion max length
  if 0 < length then
    match sock.receive length with
    | (.error err, sock) => ⟨none, some err, .ended, sock⟩
    | (.ok str, sock) => ⟨some str, none, .more remaining, sock⟩
  else ⟨none, none, .ended, (sock.receive 2).2⟩

/-- A fresh chunk. `tonumber` is for the base 16; a negative length is passed over. -/
def nextChunk (sock : Sock) : Turn Reader :=
  match _received : sock.receiveLine with
  | (.error err, sock) => ⟨none, some err, .ended, sock⟩
  | (.ok str, sock) =>
      match tonumber str with
      | none => ⟨none, some (lit "unable to read chunksize"), .ended, sock⟩
      | some (.ofNat length) => fetch max length sock
      | some (.negSucc _) => nextChunk (sock.receive 2).2
termination_by sock.bytes.length
decreasing_by
  exact (Sock.receive_le _ 2).trans_lt (Sock.receiveLine_lt _received)

/-- A call of the reader that `_chunked_body_reader` returns. -/
def chunkedBodyReader (sock : Sock) : Reader → Turn Reader
  | .fresh => nextChunk tonumber max sock
  | .more remaining =>
      let sock := if remaining = 0 then (sock.receive 2).2 else sock
      if max.isSome ∧ 0 < remaining then fetch max remaining sock else nextChunk tonumber max sock
  | .ended => ⟨none, none, .ended, sock⟩

theorem fetch_lt {length : ℕ} {sock : Sock} {chunk : Bytes} (some' : (fetch max length sock).chunk = some chunk) :
    (fetch max length sock).sock.bytes.length < sock.bytes.length := by
  unfold fetch at some' ⊢
  generalize portion max length = parts at some' ⊢
  obtain ⟨length, remaining⟩ := parts
  dsimp only at some' ⊢
  split at some'
  · rename_i positive
    rw [if_pos positive]
    generalize received : sock.receive length = answer at some' ⊢
    obtain ⟨_ | str, sock'⟩ := answer
    · cases some'
    · exact Sock.receive_lt received positive
  · cases some'

theorem nextChunk_lt {sock : Sock} {chunk : Bytes} (some' : (nextChunk tonumber max sock).chunk = some chunk) :
    (nextChunk tonumber max sock).sock.bytes.length < sock.bytes.length := by
  fun_induction nextChunk tonumber max sock with
  | case1 sock err sock' received => cases some'
  | case2 sock str sock' received unread => cases some'
  | case3 sock str sock' received length size => exact (fetch_lt max some').trans (Sock.receiveLine_lt received)
  | case4 sock str sock' received n size ih =>
    exact (ih some').trans ((Sock.receive_le _ 2).trans_lt (Sock.receiveLine_lt received))

theorem chunkedBodyReader_lt {sock : Sock} {reader : Reader} {chunk : Bytes}
    (some' : (chunkedBodyReader tonumber max sock reader).chunk = some chunk) :
    (chunkedBodyReader tonumber max sock reader).sock.bytes.length < sock.bytes.length := by
  cases reader with
  | fresh => exact nextChunk_lt tonumber max some'
  | more remaining =>
    have le : (if remaining = 0 then (sock.receive 2).2 else sock).bytes.length ≤ sock.bytes.length := by
      split
      · exact Sock.receive_le sock 2
      · exact le_rfl
    unfold chunkedBodyReader at some' ⊢
    dsimp only at some' ⊢
    split at some'
    · rename_i inside
      rw [if_pos inside]
      exact (fetch_lt max some').trans_le le
    · rename_i outside
      rw [if_neg outside]
      exact (nextChunk_lt tonumber max some').trans_le le
  | ended => cases some'

/-- `_chunked_body_reader` for callers that always give the same maximum. -/
def chunkedBody : BodyReader Reader where
  call := chunkedBodyReader tonumber max
  calls sock _ := sock.bytes.length
  fewer {sock sock' reader reader' chunk} turn := by
    have shorter : (chunkedBodyReader tonumber max sock reader).sock.bytes.length < sock.bytes.length :=
      chunkedBodyReader_lt tonumber max (congrArg Turn.chunk turn)
    rwa [turn] at shorter

end Reading

/-! ## One call -/

section Calls

variable {tonumber : Bytes → Option ℤ} {max : Option ℕ} {sock sock' : Sock} {reader reader' : Reader}

theorem readChunks_chunk {chunk : Bytes}
    (turn : chunkedBodyReader tonumber max sock reader = ⟨some chunk, none, reader', sock'⟩) :
    readChunks (chunkedBody tonumber max) sock reader =
      (chunk :: (readChunks (chunkedBody tonumber max) sock' reader').1,
        (readChunks (chunkedBody tonumber max) sock' reader').2) :=
  readChunks_more (b := chunkedBody tonumber max) turn

theorem readChunks_end {err : Option Bytes}
    (turn : chunkedBodyReader tonumber max sock reader = ⟨none, err, reader', sock'⟩) :
    readChunks (chunkedBody tonumber max) sock reader = ([], err, sock') :=
  readChunks_none (b := chunkedBody tonumber max) turn

theorem nextChunk_line {line : Bytes} {n : ℕ} (one : 10 ∉ line)
    (size : tonumber (line.filter (· ≠ 13)) = some (n : ℤ)) (rest err : Bytes) :
    nextChunk tonumber max ⟨line ++ 10 :: rest, err⟩ = fetch max n ⟨rest, err⟩ := by
  rw [nextChunk, Sock.receiveLine_append one]
  dsimp only
  rw [size]

theorem chunkedBodyReader_line {line : Bytes} {n : ℕ} (one : 10 ∉ line)
    (size : tonumber (line.filter (· ≠ 13)) = some (n : ℤ)) (rest err : Bytes) :
    chunkedBodyReader tonumber max ⟨line ++ 10 :: rest, err⟩ .fresh = fetch max n ⟨rest, err⟩ :=
  nextChunk_line one size rest err

theorem nextChunk_cut {part : Bytes} (none' : 10 ∉ part) (err : Bytes) :
    nextChunk tonumber max ⟨part, err⟩ = ⟨none, some err, .ended, ⟨[], err⟩⟩ := by
  rw [nextChunk, Sock.receiveLine_cut none']

end Calls

/-! ## Bodies -/

/-- A chunk as it is sent: the line with its size, up to the line feed, and the data. -/
structure Chunk where
  line : Bytes
  data : Bytes

def crlf : Bytes := [13, 10]

def Chunk.bytes (c : Chunk) : Bytes := c.line ++ 10 :: (c.data ++ crlf)

/-- The line tells the size in a way that the reader understands. -/
structure Chunk.Valid (tonumber : Bytes → Option ℤ) (c : Chunk) : Prop where
  line : 10 ∉ c.line
  size : tonumber (c.line.filter (· ≠ 13)) = some (c.data.length : ℤ)
  data : c.data ≠ []

/-- A body, up to the line feed of its last line. -/
def bodyBytes (chunks : List Chunk) (last : Bytes) : Bytes := chunks.flatMap Chunk.bytes ++ (last ++ [10])

def content (chunks : List Chunk) : Bytes := chunks.flatMap Chunk.data

/-- Pieces that are not empty and as small as they shall be. -/
def Fits (max : Option ℕ) (pieces : List Bytes) : Prop :=
  ∀ piece ∈ pieces, piece ≠ [] ∧ ∀ m ∈ max, piece.length ≤ m

section Bodies

variable {tonumber : Bytes → Option ℤ} {max : Option ℕ} (positive : ∀ m ∈ max, 0 < m)
include positive

theorem portion_spec {n : ℕ} (some' : 0 < n) :
    ∃ k r, portion max n = (k, r) ∧ 0 < k ∧ k + r = n ∧ (∀ m ∈ max, k ≤ m) ∧ (0 < r → max.isSome) := by
  cases max with
  | none => exact ⟨n, 0, rfl, some', rfl, by simp, by simp⟩
  | some m =>
    have less := positive m rfl
    by_cases fits : m < n
    · exact ⟨m, n - m, if_pos fits, less, by omega, by simp, by simp⟩
    · exact ⟨n, 0, if_neg fits, some', rfl, by simpa using fits, by simp⟩

/-- The data of a chunk comes in pieces. -/
theorem readChunks_data {n : ℕ} (some' : 0 < n) {sock : Sock} {reader : Reader} {data rest err : Bytes}
    (length : data.length = n)
    (turn : chunkedBodyReader tonumber max sock reader = fetch max n ⟨data ++ rest, err⟩) :
    ∃ pieces, pieces.flatten = data ∧ Fits max pieces ∧
      readChunks (chunkedBody tonumber max) sock reader =
        (pieces ++ (readChunks (chunkedBody tonumber max) ⟨rest, err⟩ (.more 0)).1,
          (readChunks (chunkedBody tonumber max) ⟨rest, err⟩ (.more 0)).2) := by
  induction n using Nat.strong_induction_on generalizing sock reader data with
  | _ n ih =>
    obtain ⟨k, r, parts, more, sum, le, bounded⟩ := portion_spec positive some'
    have first : (data.take k).length = k := List.length_take_of_le (by omega)
    have received : Sock.receive ⟨data ++ rest, err⟩ k = (.ok (data.take k), ⟨data.drop k ++ rest, err⟩) := by
      have whole := Sock.receive_append (data.take k) (data.drop k ++ rest) err
      rwa [first, ← List.append_assoc, List.take_append_drop] at whole
    have fetched : fetch max n ⟨data ++ rest, err⟩ =
        ⟨some (data.take k), none, .more r, ⟨data.drop k ++ rest, err⟩⟩ := by
      unfold fetch
      rw [parts]
      dsimp only
      rw [if_pos more, received]
    have fits : data.take k ≠ [] ∧ ∀ m ∈ max, (data.take k).length ≤ m := by
      constructor
      · intro none'
        rw [none', List.length_nil] at first
        omega
      · intro m mem
        rw [first]
        exact le m mem
    rw [readChunks_chunk (turn.trans fetched)]
    rcases Nat.eq_zero_or_pos r with rfl | left
    · have all : data.drop k = [] := List.drop_eq_nil_of_le (by omega)
      refine ⟨[data.take k], ?_, ?_, ?_⟩
      · rw [List.flatten_singleton, List.take_of_length_le (by omega)]
      · intro piece mem
        rw [List.mem_singleton.mp mem]
        exact fits
      · rw [all]
        rfl
    · have again : chunkedBodyReader tonumber max ⟨data.drop k ++ rest, err⟩ (.more r) =
          fetch max r ⟨data.drop k ++ rest, err⟩ := by
        unfold chunkedBodyReader
        dsimp only
        rw [if_neg (show r ≠ 0 by omega), if_pos ⟨bounded left, left⟩]
      obtain ⟨pieces, flat, small, result⟩ := ih r (by omega) left (by rw [List.length_drop]; omega) again
      refine ⟨data.take k :: pieces, ?_, ?_, ?_⟩
      · rw [List.flatten_cons, flat, List.take_append_drop]
      · intro piece mem
        rcases List.mem_cons.mp mem with rfl | later
        · exact fits
        · exact small piece later
      · rw [result]
        rfl

/-- Where the data is cut off, the error of the socket is returned. -/
theorem readChunks_missing {n : ℕ} {sock : Sock} {reader : Reader} {part err : Bytes}
    (short : part.length < n)
    (turn : chunkedBodyReader tonumber max sock reader = fetch max n ⟨part, err⟩) :
    ∃ pieces, pieces.flatten <+: part ∧
      readChunks (chunkedBody tonumber max) sock reader = (pieces, some err, ⟨[], err⟩) := by
  induction n using Nat.strong_induction_on generalizing sock reader part with
  | _ n ih =>
    obtain ⟨k, r, parts, more, sum, le, bounded⟩ := portion_spec positive (show 0 < n by omega)
    have unfolded : fetch max n ⟨part, err⟩ = match Sock.receive ⟨part, err⟩ k with
        | (.error err, sock) => ⟨none, some err, .ended, sock⟩
        | (.ok str, sock) => ⟨some str, none, .more r, sock⟩ := by
      unfold fetch
      rw [parts]
      exact if_pos more
    rcases Nat.lt_or_ge part.length k with missing | enough
    · have received : Sock.receive ⟨part, err⟩ k = (.error err, ⟨[], err⟩) := if_neg (by simpa using missing)
      rw [unfolded, received] at turn
      exact ⟨[], List.nil_prefix, readChunks_end turn⟩
    · have received : Sock.receive ⟨part, err⟩ k = (.ok (part.take k), ⟨part.drop k, err⟩) := if_pos enough
      rw [unfolded, received] at turn
      have left : 0 < r := by omega
      have again : chunkedBodyReader tonumber max ⟨part.drop k, err⟩ (.more r) =
          fetch max r ⟨part.drop k, err⟩ := by
        unfold chunkedBodyReader
        dsimp only
        rw [if_neg (show r ≠ 0 by omega), if_pos ⟨bounded left, left⟩]
      obtain ⟨pieces, front, result⟩ := ih r (by omega) (by rw [List.length_drop]; omega) again
      refine ⟨part.take k :: pieces, ?_, ?_⟩
      · rw [List.flatten_cons]
        conv_rhs => rw [← List.take_append_drop k part]
        exact (List.prefix_append_right_inj _).mpr front
      · rw [readChunks_chunk turn, result]

omit positive in
theorem readChunks_crlf (rest err : Bytes) :
    readChunks (chunkedBody tonumber max) ⟨crlf ++ rest, err⟩ (.more 0) =
      readChunks (chunkedBody tonumber max) ⟨rest, err⟩ .fresh := by
  apply readChunks_congr
  change chunkedBodyReader tonumber max ⟨crlf ++ rest, err⟩ (.more 0) =
    chunkedBodyReader tonumber max ⟨rest, err⟩ .fresh
  have received := Sock.receive_append crlf rest err
  unfold chunkedBodyReader
  dsimp only
  rw [if_pos rfl, if_neg (by simp), show 2 = crlf.length from rfl, received]

omit positive in
theorem readChunks_short {part : Bytes} (short : part.length < 2) (err : Bytes) :
    readChunks (chunkedBody tonumber max) ⟨part, err⟩ (.more 0) = ([], some err, ⟨[], err⟩) := by
  have received : Sock.receive ⟨part, err⟩ 2 = (.error err, ⟨[], err⟩) := if_neg (by simpa using short)
  apply readChunks_end
  unfold chunkedBodyReader
  dsimp only
  rw [if_pos rfl, if_neg (by simp), received]
  exact nextChunk_cut (by simp) err

omit positive in
theorem readChunks_last {last : Bytes} (line : 10 ∉ last)
    (zero : tonumber (last.filter (· ≠ 13)) = some 0) (rest err : Bytes) :
    readChunks (chunkedBody tonumber max) ⟨last ++ 10 :: rest, err⟩ .fresh = ([], none, ⟨rest.drop 2, err⟩) := by
  have skipped : (Sock.receive ⟨rest, err⟩ 2).2 = ⟨rest.drop 2, err⟩ := by
    unfold Sock.receive
    split
    · rfl
    · rename_i short
      rw [List.drop_eq_nil_of_le (by simp only at short; omega)]
  have none' : portion max 0 = (0, 0) := by
    cases max <;> simp [portion]
  apply readChunks_end
  rw [chunkedBodyReader_line line zero, fetch, none']
  dsimp only
  rw [if_neg (Nat.lt_irrefl 0), skipped]

/-- A body is read as it was sent, whatever its chunks and the pieces are, and what follows
    it is left. -/
theorem readChunks_body {chunks : List Chunk} (valid : ∀ c ∈ chunks, c.Valid tonumber) {last : Bytes}
    (line : 10 ∉ last) (zero : tonumber (last.filter (· ≠ 13)) = some 0) (rest err : Bytes) :
    ∃ pieces, pieces.flatten = content chunks ∧ Fits max pieces ∧
      readChunks (chunkedBody tonumber max) ⟨bodyBytes chunks last ++ rest, err⟩ .fresh =
        (pieces, none, ⟨rest.drop 2, err⟩) := by
  induction chunks with
  | nil =>
    refine ⟨[], rfl, by simp [Fits], ?_⟩
    have whole := @readChunks_last tonumber max last line zero rest err
    simpa [bodyBytes] using whole
  | cons c chunks ih =>
    have here := valid c List.mem_cons_self
    obtain ⟨later, flat', fits', result'⟩ := ih fun c' mem => valid c' (List.mem_cons_of_mem c mem)
    have split : bodyBytes (c :: chunks) last ++ rest =
        c.line ++ 10 :: (c.data ++ (crlf ++ (bodyBytes chunks last ++ rest))) := by
      simp [bodyBytes, Chunk.bytes]
    obtain ⟨pieces, flat, fits, result⟩ := readChunks_data positive
      (List.length_pos_iff.mpr here.data) rfl
      (chunkedBodyReader_line here.line here.size (c.data ++ (crlf ++ (bodyBytes chunks last ++ rest))) err)
    rw [readChunks_crlf, result'] at result
    refine ⟨pieces ++ later, ?_, ?_, ?_⟩
    · rw [List.flatten_append, flat, flat']
      rfl
    · intro piece mem
      rcases List.mem_append.mp mem with before | after
      · exact fits piece before
      · exact fits' piece after
    · rw [split]
      exact result

omit positive in
theorem readChunks_silent {part : Bytes} (none' : 10 ∉ part) (err : Bytes) :
    readChunks (chunkedBody tonumber max) ⟨part, err⟩ .fresh = ([], some err, ⟨[], err⟩) :=
  readChunks_end (nextChunk_cut none' err)

omit positive in
/-- Either the two bytes behind the data are not all there, or they are. -/
theorem crlf_cut {more part missing : Bytes} (cut : crlf ++ more = part ++ missing) :
    part.length < 2 ∨ ∃ later, part = crlf ++ later ∧ later ++ missing = more := by
  rcases List.append_eq_append_iff.mp cut with ⟨later, whole, rest⟩ | ⟨left, whole, rest⟩
  · exact .inr ⟨later, whole, rest.symm⟩
  · have sizes := congrArg List.length whole
    rw [List.length_append, show crlf.length = 2 from rfl] at sizes
    rcases Nat.lt_or_ge part.length 2 with short | enough
    · exact .inl short
    · have none' : left = [] := List.eq_nil_of_length_eq_zero (by omega)
      subst none'
      rw [List.append_nil] at whole
      exact .inr ⟨[], by rw [whole, List.append_nil], by rw [rest]; rfl⟩

/-- A body that is cut off ends with the error of the socket, wherever that is. -/
theorem readChunks_cut {chunks : List Chunk} (valid : ∀ c ∈ chunks, c.Valid tonumber) {last : Bytes}
    (line : 10 ∉ last) {part missing : Bytes} (cut : part ++ missing = bodyBytes chunks last)
    (some' : missing ≠ []) (err : Bytes) :
    ∃ pieces, pieces.flatten <+: content chunks ∧
      readChunks (chunkedBody tonumber max) ⟨part, err⟩ .fresh = (pieces, some err, ⟨[], err⟩) := by
  induction chunks generalizing part with
  | nil =>
    have before : part ++ missing.dropLast = last := by
      have whole := congrArg List.dropLast cut
      rw [List.dropLast_append_of_ne_nil some'] at whole
      simpa [bodyBytes] using whole
    have none' : 10 ∉ part := fun mem => line (before ▸ List.mem_append_left _ mem)
    exact ⟨[], List.nil_prefix, readChunks_silent none' err⟩
  | cons c chunks ih =>
    have here := valid c List.mem_cons_self
    have split : bodyBytes (c :: chunks) last =
        c.line ++ 10 :: (c.data ++ (crlf ++ bodyBytes chunks last)) := by
      simp [bodyBytes, Chunk.bytes]
    have front : c.data <+: content (c :: chunks) := List.prefix_append _ _
    rw [split] at cut
    rcases List.append_eq_append_iff.mp cut with ⟨left, whole, -⟩ | ⟨behind, whole, rest⟩
    · -- In the line of this chunk.
      have none' : 10 ∉ part := fun mem => here.line (whole ▸ List.mem_append_left _ mem)
      exact ⟨[], List.nil_prefix, readChunks_silent none' err⟩
    subst whole
    rcases behind with _ | ⟨b, behind⟩
    · rw [List.append_nil]
      exact ⟨[], List.nil_prefix, readChunks_silent here.line err⟩
    obtain ⟨rfl, tail⟩ : 10 = b ∧ c.data ++ (crlf ++ bodyBytes chunks last) = behind ++ missing := by
      simpa using rest
    have turn : chunkedBodyReader tonumber max ⟨c.line ++ 10 :: behind, err⟩ .fresh =
        fetch max c.data.length ⟨behind, err⟩ := chunkedBodyReader_line here.line here.size behind err
    have inData : behind.length < c.data.length → behind <+: c.data → ∃ pieces,
        pieces.flatten <+: content (c :: chunks) ∧
          readChunks (chunkedBody tonumber max) ⟨c.line ++ 10 :: behind, err⟩ .fresh =
            (pieces, some err, ⟨[], err⟩) := by
      intro short start
      obtain ⟨pieces, small, result⟩ := readChunks_missing positive short turn
      exact ⟨pieces, (small.trans start).trans front, result⟩
    have afterData (later : Bytes) (same : behind = c.data ++ later)
        (others : crlf ++ bodyBytes chunks last = later ++ missing) : ∃ pieces,
        pieces.flatten <+: content (c :: chunks) ∧
          readChunks (chunkedBody tonumber max) ⟨c.line ++ 10 :: behind, err⟩ .fresh =
            (pieces, some err, ⟨[], err⟩) := by
      subst same
      obtain ⟨pieces, flat, -, result⟩ := readChunks_data positive (List.length_pos_iff.mpr here.data) rfl
        turn
      rcases crlf_cut others with short | ⟨more, rfl, next⟩
      · rw [readChunks_short short] at result
        refine ⟨pieces, flat ▸ front, ?_⟩
        rw [result, List.append_nil]
      · obtain ⟨pieces', front', result'⟩ := ih (fun c' mem => valid c' (List.mem_cons_of_mem c mem)) next
        rw [readChunks_crlf, result'] at result
        refine ⟨pieces ++ pieces', ?_, result⟩
        rw [List.flatten_append, flat]
        exact (List.prefix_append_right_inj _).mpr front'
    rcases List.append_eq_append_iff.mp tail with ⟨later, same, others⟩ | ⟨left, same, others⟩
    · exact afterData later same others
    · rcases left with _ | ⟨b, left⟩
      · rw [List.append_nil] at same
        exact afterData [] (by rw [same, List.append_nil]) (by rw [others]; rfl)
      · refine inData ?_ ⟨_, same.symm⟩
        rw [same, List.length_append, List.length_cons]
        omega

/-- What the reader returns tells a whole body from one that is cut off: the whole one ends
    without an error and leaves what follows it, and the other one ends with the error of
    the socket, wherever it is cut. -/
theorem chunked_body_read {chunks : List Chunk} (valid : ∀ c ∈ chunks, c.Valid tonumber) {last : Bytes}
    (line : 10 ∉ last) (zero : tonumber (last.filter (· ≠ 13)) = some 0) :
    (∀ rest err, ∃ pieces, pieces.flatten = content chunks ∧ Fits max pieces ∧
      readChunks (chunkedBody tonumber max) ⟨bodyBytes chunks last ++ rest, err⟩ .fresh =
        (pieces, none, ⟨rest.drop 2, err⟩)) ∧
    ∀ part missing err, part ++ missing = bodyBytes chunks last → missing ≠ [] →
      ∃ pieces, pieces.flatten <+: content chunks ∧
        readChunks (chunkedBody tonumber max) ⟨part, err⟩ .fresh = (pieces, some err, ⟨[], err⟩) := by
  constructor
  · intro rest err
    exact readChunks_body positive valid line zero rest err
  · intro part missing err cut some'
    exact readChunks_cut positive valid line cut some' err

end Bodies

/-! ## Small bodies -/

namespace Sample

/-- `tonumber` on one decimal digit. -/
def digit : Bytes → Option ℤ
  | [b] => if 48 ≤ b ∧ b ≤ 57 then some (b.toNat - 48) else none
  | _ => none

def hi : Chunk := ⟨[50, 13], [104, 105]⟩

def h : Chunk := ⟨[49], [104]⟩

def i : Chunk := ⟨[49, 13], [105]⟩

def last : Bytes := [48, 13]

theorem hi_valid : ∀ c ∈ [hi], c.Valid digit := by
  intro c mem
  rw [List.mem_singleton.mp mem]
  exact ⟨by decide, by decide, by decide⟩

theorem letters_valid : ∀ c ∈ [h, i], c.Valid digit := by
  intro c mem
  simp only [List.mem_cons, List.not_mem_nil, or_false] at mem
  rcases mem with rfl | rfl
  · exact ⟨by decide, by decide, by decide⟩
  · exact ⟨by decide, by decide, by decide⟩

end Sample

theorem chunked_body_read_hi :
    (∀ rest err, ∃ pieces, pieces.flatten = content [Sample.hi] ∧ Fits (some 1) pieces ∧
      readChunks (chunkedBody Sample.digit (some 1)) ⟨bodyBytes [Sample.hi] Sample.last ++ rest, err⟩ .fresh =
        (pieces, none, ⟨rest.drop 2, err⟩)) ∧
    ∀ part missing err, part ++ missing = bodyBytes [Sample.hi] Sample.last → missing ≠ [] →
      ∃ pieces, pieces.flatten <+: content [Sample.hi] ∧
        readChunks (chunkedBody Sample.digit (some 1)) ⟨part, err⟩ .fresh = (pieces, some err, ⟨[], err⟩) :=
  chunked_body_read (by simp) Sample.hi_valid (by decide) (by decide)

end E2eeProxy.Http
