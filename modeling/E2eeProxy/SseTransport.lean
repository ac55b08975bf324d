import E2eeProxy.PlainBody
import E2eeProxy.SseSteps

/-! # A streamed answer on the socket

The streaming loop asks the body reader for 8192 bytes at a time. How the answer was
cut into chunks makes no difference, and an answer that breaks off is not taken for one
that ended. An answer whose length nobody tells is taken for the one or the other wrongly.
-/

namespace E2eeProxy.Sse

open Lua Crypto Lib Http StreamState

variable (rt : Runtime) (native : Native) (responseSk : Bytes)

/-- The streaming part over a body reader. The pieces behind a done event are read by
    nobody, and `streamBody` passes over them. -/
def streamAnswer {ρ : Type} (b : BodyReader ρ) (start : ρ) (sock : Sock) : StreamState :=
  let read := readChunks b sock start
  streamBody rt native responseSk read.1 read.2.1

theorem maximum_positive : ∀ m ∈ some 8192, 0 < m := by
  intro m mem
  cases mem
  exact Nat.succ_pos _

def chunkedAnswer (tonumber : Bytes → Option ℤ) : Sock → StreamState :=
  streamAnswer rt native responseSk (chunkedBody tonumber (some 8192)) .fresh

def plainAnswer (contentLength : Option ℕ) : Sock → StreamState :=
  streamAnswer rt native responseSk (plainBody contentLength (some 8192) maximum_positive) (.reading 0)

theorem streamBody_flatten (pieces : List Bytes) (readError : Option Bytes) :
    streamBody rt native responseSk pieces readError =
      streamBody rt native responseSk [pieces.flatten] readError := by
  rw [streamBody_eq, streamBody_eq rt native responseSk [_], List.flatten_singleton]

theorem streamAnswer_read {ρ : Type} {b : BodyReader ρ} {start : ρ} {sock sock' : Sock} {pieces : List Bytes}
    {readError : Option Bytes} (result : readChunks b sock start = (pieces, readError, sock')) :
    streamAnswer rt native responseSk b start sock =
      streamBody rt native responseSk [pieces.flatten] readError := by
  rw [streamAnswer, result]
  exact streamBody_flatten rt native responseSk pieces readError

/-- The loop stops at a line, unless it handles all of them. -/
theorem feed_stops (lines : List Bytes) {s : StreamState} (running : s.stopped = false) :
    ((reader rt native responseSk).feed s lines).stopped =
      !readsToEnd rt native responseSk s.streamKey lines := by
  induction lines generalizing s with
  | nil => simpa [LineReader.feed, readsToEnd] using running
  | cons line lines ih =>
      obtain ⟨notDone, notRaised⟩ : s.doneSent = false ∧ s.raised = none := by
        simpa [stopped] using running
      have next : (reader rt native responseSk).feed s (line :: lines) =
          (reader rt native responseSk).feed (s.handleLine rt native responseSk line) lines := by
        simp [LineReader.feed, running]
      rw [next]
      by_cases empty : line = []
      · simpa [handleLine, readsToEnd, empty] using ih running
      · simp only [handleLine, readsToEnd, empty, if_false]
        cases processSseLine rt native responseSk line s.streamKey with
        | error e =>
            rw [LineReader.feed_stopped _ (by simp [stopped])]
            simp [stopped]
        | ok event =>
            cases event with
            | none => exact ih running
            | init key =>
                exact ih (s := { s with streamKey := some key }) (by simpa [stopped] using running)
            | chunk data | passthrough data =>
                exact ih (s := s.deliver data) (by simp [stopped, deliver, onChunk, notDone, notRaised])
            | done | error err =>
                rw [LineReader.feed_stopped _ (by simp [handle, stopped])]
                simp [handle, stopped]

/-- Once the loop has stopped, neither what follows nor how the reading ends matters. -/
theorem rest_of_stop {lines : List Bytes} {s : StreamState} (running : s.stopped = false)
    (stops : readsToEnd rt native responseSk s.streamKey lines = false) (more : List Bytes)
    (last : Bytes) (readError : Option Bytes) :
    rest rt native responseSk readError last s (lines ++ more) =
      (reader rt native responseSk).feed s lines := by
  have ended : ((reader rt native responseSk).feed s lines).stopped = true := by
    rw [feed_stops rt native responseSk lines running, stops]
    rfl
  rw [rest, LineReader.feed_append, LineReader.feed_stopped _ (by simpa using ended)]
  exact rest_stopped rt native responseSk readError last ended []

/-- A body of which the reader fails to read the end is not mistaken for a whole one. -/
theorem streamBody_front (front more err : Bytes) (readError : Option Bytes) :
    streamBody rt native responseSk [front] (some err) =
        streamBody rt native responseSk [front ++ more] readError ∨
      (streamBody rt native responseSk [front] (some err)).hadError = true := by
  rw [streamBody_eq_rest, streamBody_eq_rest, List.flatten_singleton, List.flatten_singleton]
  cases stops : readsToEnd rt native responseSk none (splitLines newline front).1 with
  | false =>
      left
      have short := rest_of_stop rt native responseSk (s := {}) rfl stops []
        (splitLines newline front).2 (some err)
      rw [List.append_nil] at short
      rw [short, splitLines_append, rest_of_stop rt native responseSk (s := {}) rfl stops]
  | true =>
      right
      rw [(rest_ends rt native responseSk _ (some err) _ rfl).2, stops]
      simp

theorem streamBody_broken (front more err : Bytes) (readError : Option Bytes) :
    streamBody rt native responseSk [front] (some err) =
        streamBody rt native responseSk [front ++ more] readError ∨
      (streamBody rt native responseSk [front] (some err)).hadError = true ∧
        (streamBody rt native responseSk [front] (some err)).outcome ≠ some .ok := by
  rcases streamBody_front rt native responseSk front more err readError with same | failed
  · exact .inl same
  · refine .inr ⟨failed, ?_⟩
    unfold StreamState.outcome
    rw [failed]
    split <;> simp

/-- A library that refuses everything. -/
def silent : Native := ⟨fun _ => none, fun _ _ => none, fun _ _ _ => none, fun _ _ _ _ => none⟩

section Answers

variable {tonumber : Bytes → Option ℤ} {chunks : List Chunk} {last : Bytes}

/-- A whole answer is streamed as its content is. -/
theorem chunkedAnswer_whole (valid : ∀ c ∈ chunks, c.Valid tonumber) (line : 10 ∉ last)
    (zero : tonumber (last.filter (· ≠ 13)) = some 0) (rest err : Bytes) :
    chunkedAnswer rt native responseSk tonumber ⟨bodyBytes chunks last ++ rest, err⟩ =
      streamBody rt native responseSk [content chunks] none := by
  obtain ⟨pieces, flat, -, result⟩ := readChunks_body maximum_positive valid line zero rest err
  rw [chunkedAnswer, streamAnswer_read rt native responseSk result, flat]

/-- Whoever passes the answer on may cut it into other chunks. -/
theorem chunked_answer {chunks' : List Chunk} {last' : Bytes} (valid : ∀ c ∈ chunks, c.Valid tonumber)
    (valid' : ∀ c ∈ chunks', c.Valid tonumber) (line : 10 ∉ last) (line' : 10 ∉ last')
    (zero : tonumber (last.filter (· ≠ 13)) = some 0) (zero' : tonumber (last'.filter (· ≠ 13)) = some 0)
    (same : content chunks = content chunks') (rest rest' err err' : Bytes) :
    chunkedAnswer rt native responseSk tonumber ⟨bodyBytes chunks last ++ rest, err⟩ =
      chunkedAnswer rt native responseSk tonumber ⟨bodyBytes chunks' last' ++ rest', err'⟩ := by
  rw [chunkedAnswer_whole rt native responseSk valid line zero,
    chunkedAnswer_whole rt native responseSk valid' line' zero', same]

theorem chunked_answer_hi :
    chunkedAnswer (.ofDocuments []) silent []
        Http.Sample.digit ⟨bodyBytes [Http.Sample.hi] Http.Sample.last ++ crlf, lit "closed"⟩ =
      chunkedAnswer (.ofDocuments []) silent []
        Http.Sample.digit ⟨bodyBytes [Http.Sample.h, Http.Sample.i] Http.Sample.last ++ [], lit "timeout"⟩ :=
  chunked_answer _ _ _ Http.Sample.hi_valid Http.Sample.letters_valid (by decide) (by decide) (by decide)
    (by decide) rfl crlf [] (lit "closed") (lit "timeout")

/-- An answer that breaks off before the line feed of its last line is counted as one that
    failed, unless the loop had stopped by then: in that case nothing is missing. -/
theorem broken_answer (valid : ∀ c ∈ chunks, c.Valid tonumber) (line : 10 ∉ last)
    (zero : tonumber (last.filter (· ≠ 13)) = some 0) (part missing : Bytes)
    (cut : part ++ missing = bodyBytes chunks last) (some' : missing ≠ []) (rest err err' : Bytes) :
    chunkedAnswer rt native responseSk tonumber ⟨part, err⟩ =
        chunkedAnswer rt native responseSk tonumber ⟨bodyBytes chunks last ++ rest, err'⟩ ∨
      (chunkedAnswer rt native responseSk tonumber ⟨part, err⟩).hadError = true ∧
        (chunkedAnswer rt native responseSk tonumber ⟨part, err⟩).outcome ≠ some .ok := by
  obtain ⟨pieces, ⟨more, front⟩, result⟩ := readChunks_cut maximum_positive valid line cut some' err
  have broken : chunkedAnswer rt native responseSk tonumber ⟨part, err⟩ =
      streamBody rt native responseSk [pieces.flatten] (some err) :=
    streamAnswer_read rt native responseSk result
  rw [broken, chunkedAnswer_whole rt native responseSk valid line zero, ← front]
  exact streamBody_broken rt native responseSk pieces.flatten more err none

theorem broken_answer_hi :
    chunkedAnswer (.ofDocuments []) silent []
        Http.Sample.digit ⟨[50, 13, 10, 104], lit "closed"⟩ =
      chunkedAnswer (.ofDocuments []) silent []
        Http.Sample.digit ⟨bodyBytes [Http.Sample.hi] Http.Sample.last ++ crlf, lit "closed"⟩ ∨
    (chunkedAnswer (.ofDocuments []) silent []
        Http.Sample.digit ⟨[50, 13, 10, 104], lit "closed"⟩).hadError = true ∧
      (chunkedAnswer (.ofDocuments []) silent []
        Http.Sample.digit ⟨[50, 13, 10, 104], lit "closed"⟩).outcome ≠ some .ok :=
  broken_answer _ _ _ Http.Sample.hi_valid (by decide) (by decide)
    [50, 13, 10, 104] [105, 13, 10, 48, 13, 10] rfl (by decide) crlf (lit "closed") (lit "closed")

end Answers

/-! ## Answers without chunks -/

/-- With a length, it is as with chunks. -/
theorem length_answer (part missing : Bytes) (some' : missing ≠ []) (rest err err' : Bytes) :
    plainAnswer rt native responseSk (some (part ++ missing).length) ⟨part ++ missing ++ rest, err'⟩ =
        streamBody rt native responseSk [part ++ missing] none ∧
      (plainAnswer rt native responseSk (some (part ++ missing).length) ⟨part, err⟩ =
          streamBody rt native responseSk [part ++ missing] none ∨
        (plainAnswer rt native responseSk (some (part ++ missing).length) ⟨part, err⟩).hadError = true ∧
          (plainAnswer rt native responseSk (some (part ++ missing).length) ⟨part, err⟩).outcome ≠ some .ok) := by
  have short : 0 + part.length < (part ++ missing).length := by
    have more := List.length_pos_iff.mpr some'
    rw [List.length_append]
    omega
  constructor
  · obtain ⟨pieces, flat, -, result⟩ := readChunks_upTo maximum_positive rest err'
      (Nat.zero_add (part ++ missing).length)
    rw [plainAnswer, streamAnswer_read rt native responseSk result, flat]
  · obtain ⟨pieces, ⟨more, front⟩, result⟩ := readChunks_lack maximum_positive err short
    rw [plainAnswer, streamAnswer_read rt native responseSk result, ← front, List.append_assoc]
    exact streamBody_broken rt native responseSk pieces.flatten (more ++ missing) err none

theorem length_answer_hi :
    plainAnswer (.ofDocuments []) silent [] (some (lit "h" ++ lit "i").length)
          ⟨lit "h" ++ lit "i" ++ [], lit "timeout"⟩ =
        streamBody (.ofDocuments []) silent [] [lit "h" ++ lit "i"] none ∧
      (plainAnswer (.ofDocuments []) silent [] (some (lit "h" ++ lit "i").length) ⟨lit "h", lit "closed"⟩ =
          streamBody (.ofDocuments []) silent [] [lit "h" ++ lit "i"] none ∨
        (plainAnswer (.ofDocuments []) silent [] (some (lit "h" ++ lit "i").length)
            ⟨lit "h", lit "closed"⟩).hadError = true ∧
          (plainAnswer (.ofDocuments []) silent [] (some (lit "h" ++ lit "i").length)
            ⟨lit "h", lit "closed"⟩).outcome ≠ some .ok) :=
  length_answer _ _ _ (lit "h") (lit "i") (by decide) [] (lit "closed") (lit "timeout")

/-- Without a length, the bytes behind the last whole piece are lost. When the connection is
    closed, the answer is taken for one that broke off, and when it breaks off otherwise, for
    one that ended there. -/
theorem unending_answer (data err : Bytes) :
    plainAnswer rt native responseSk none ⟨data, err⟩ =
        streamBody rt native responseSk [data.take (data.length / 8192 * 8192)]
          (if err = lit "closed" then some err else none) ∧
      (plainAnswer rt native responseSk none ⟨data, lit "closed"⟩ = streamBody rt native responseSk [data] none ∨
        (plainAnswer rt native responseSk none ⟨data, lit "closed"⟩).hadError = true ∧
          (plainAnswer rt native responseSk none ⟨data, lit "closed"⟩).outcome ≠ some .ok) := by
  have read (err : Bytes) : plainAnswer rt native responseSk none ⟨data, err⟩ =
      streamBody rt native responseSk [data.take (data.length / 8192 * 8192)]
        (if err = lit "closed" then some err else none) := by
    obtain ⟨pieces, flat, result⟩ := readChunks_unknown maximum_positive data err
    rw [plainAnswer, streamAnswer_read rt native responseSk result, flat]
  refine ⟨read err, ?_⟩
  rw [read, if_pos rfl]
  have broken := streamBody_broken rt native responseSk (data.take (data.length / 8192 * 8192))
    (data.drop (data.length / 8192 * 8192)) (lit "closed") none
  rwa [List.take_append_drop] at broken

end E2eeProxy.Sse
