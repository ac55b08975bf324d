import E2eeProxy.Lib.Transducer
import E2eeProxy.OpenAiChunk

/-! # Translating a stream of chunk lines

Both translators handle a stream line by line, decode a line to a chunk, put a
heading before the events of their first chunk and then work off the moves of
each chunk. A `Translator` is a chunk handler together with the machine that
works off the moves; the events of a whole stream are then a heading and one
run of that machine, however the moves are spread over the lines.
-/

namespace E2eeProxy.OpenAi

open E2eeProxy.Lua E2eeProxy.Lib

/-- An event for `s`, unless `s` is empty. -/
def unlessEmpty {ο : Type} (event : Bytes → ο) (s : Bytes) : List ο :=
  if s = [] then [] else [event s]

theorem unlessEmpty_map {ο ο' : Type} (f : Bytes → ο) (g : ο → ο') (s : Bytes) :
    unlessEmpty (fun s => g (f s)) s = (unlessEmpty f s).map g := by
  unfold unlessEmpty
  split <;> rfl

variable {σ ε β ο π : Type}

/-- Decodes the line and handles its chunk, if it carries one. -/
def onLine (rt : Runtime) (handle : σ → Chunk → LuaM (σ × List ε)) (st : σ) (chunkLine : Bytes) :
    LuaM (σ × List ε) :=
  match decodeChunk rt chunkLine with
  | some v => do
      let chunk ← readChunk rt v
      handle st chunk
  | none => return (st, [])

/-- The calls a client handler makes for the lines of a stream. -/
def onLines (rt : Runtime) (handle : σ → Chunk → LuaM (σ × List ε)) (st : σ) :
    List Bytes → LuaM (σ × List ε)
  | [] => return (st, [])
  | line :: lines => do
      let first ← onLine rt handle st line
      let rest ← onLines rt handle first.1 lines
      return (rest.1, first.2 ++ rest.2)

theorem onLines_append (rt : Runtime) {handle : σ → Chunk → LuaM (σ × List ε)} {st : σ}
    {before after : List Bytes} {last : σ × List ε}
    (run : onLines rt handle st (before ++ after) = .ok last) :
    ∃ mid rest, onLines rt handle st before = .ok mid ∧
      onLines rt handle mid.1 after = .ok rest ∧ last = (rest.1, mid.2 ++ rest.2) := by
  induction before generalizing st last with
  | nil => exact ⟨(st, []), last, rfl, run, rfl⟩
  | cons line before ih =>
      obtain ⟨now, hnow, run⟩ := bind_ok run
      obtain ⟨later, hlater, run⟩ := bind_ok run
      obtain ⟨mid, rest, hmid, hrest, rfl⟩ := ih hlater
      cases run
      refine ⟨(mid.1, now.2 ++ mid.2), rest, ?_, hrest, by simp⟩
      rw [onLines, hnow]
      simp only [bind, Except.bind, hmid]
      rfl

/-- A relation between two states that every chunk keeps is kept by all lines. -/
theorem onLines_related (rt : Runtime) {handle : σ → Chunk → LuaM (σ × List ε)}
    {related : σ → σ → Prop}
    (step : ∀ {st st' chunk next next'}, related st st' → handle st chunk = .ok next →
      handle st' chunk = .ok next' → related next.1 next'.1)
    {lines : List Bytes} {st st' : σ} (start : related st st') {last last' : σ × List ε}
    (run : onLines rt handle st lines = .ok last)
    (run' : onLines rt handle st' lines = .ok last') : related last.1 last'.1 := by
  induction lines generalizing st st' last last' with
  | nil =>
      cases run
      cases run'
      exact start
  | cons line lines ih =>
      obtain ⟨now, hnow, run⟩ := bind_ok run
      obtain ⟨now', hnow', run'⟩ := bind_ok run'
      obtain ⟨later, hlater, run⟩ := bind_ok run
      obtain ⟨later', hlater', run'⟩ := bind_ok run'
      cases run
      cases run'
      have kept : related now.1 now'.1 := by
        unfold onLine at hnow hnow'
        cases decoded : decodeChunk rt line with
        | none =>
            rw [decoded] at hnow hnow'
            cases hnow
            cases hnow'
            exact start
        | some v =>
            rw [decoded] at hnow hnow'
            obtain ⟨chunk, read, handled⟩ := bind_ok hnow
            obtain ⟨chunk', read', handled'⟩ := bind_ok hnow'
            cases read.symm.trans read'
            exact step start handled handled'
      have ends : related later.1 later'.1 := ih kept hlater hlater'
      exact ends

/-- What every chunk keeps, with the chunks handled so far, holds after all lines. -/
theorem onLines_invariant (rt : Runtime) {handle : σ → Chunk → LuaM (σ × List ε)}
    {P : List Chunk → σ → Prop}
    (step : ∀ {done st chunk next}, P done st → handle st chunk = .ok next →
      P (done ++ [chunk]) next.1)
    {lines : List Bytes} {done : List Chunk} {st : σ} (start : P done st) {last : σ × List ε}
    (run : onLines rt handle st lines = .ok last) :
    P (done ++ lines.filterMap (chunkOf rt)) last.1 := by
  induction lines generalizing done st last with
  | nil =>
      cases run
      simpa using start
  | cons line lines ih =>
      obtain ⟨now, hnow, run⟩ := bind_ok run
      obtain ⟨later, hlater, run⟩ := bind_ok run
      cases run
      unfold onLine at hnow
      cases decoded : decodeChunk rt line with
      | none =>
          rw [decoded] at hnow
          cases hnow
          have same : chunkOf rt line = none := by simp [chunkOf, decoded]
          rw [List.filterMap_cons_none same]
          have ends : P _ later.1 := ih start hlater
          exact ends
      | some v =>
          rw [decoded] at hnow
          obtain ⟨chunk, read, handled⟩ := bind_ok hnow
          have same : chunkOf rt line = some chunk := by simp [chunkOf, decoded, read, Except.toOption]
          rw [List.filterMap_cons_some same, ← List.singleton_append, ← List.append_assoc]
          have ends : P _ later.1 := ih (step start handled) hlater
          exact ends

/-- What stands before the events of a chunk: one opening event, the first time. -/
def Heading (opens : π → Prop) (begun : Bool) (events : List π) : Prop :=
  if begun then events = [] else ∃ event, opens event ∧ events = [event]

/-- A handler whose events are, up to their `content`, a heading and the outputs
    of a machine that reads the moves of the chunk. `inv` holds between the calls. -/
structure Translator (σ ε β ο π : Type) where
  handle : σ → Chunk → LuaM (σ × List ε)
  body : σ → β
  begun : σ → Bool
  content : ε → π
  move : β → Move → β × List ο
  wrap : ο → π
  opens : π → Prop
  valid : Chunk → Prop
  inv : σ → Prop
  handles : ∀ st chunk, inv st → valid chunk → ∃ st' events heading,
    handle st chunk = .ok (st', events) ∧ inv st' ∧
    events.map content = heading ++ (runFrom move (body st) chunk.moves).2.map wrap ∧
    body st' = (runFrom move (body st) chunk.moves).1 ∧ begun st' = true ∧
    Heading opens (begun st) heading

/-- The line carries a chunk that the translator can handle, or nothing it reads. -/
def Translator.ValidLine (t : Translator σ ε β ο π) (rt : Runtime) (line : Bytes) : Prop :=
  ∀ v, decodeChunk rt line = some v →
    isChunk v = true ∧ ∀ chunk, readChunk rt v = .ok chunk → t.valid chunk

/-- Every valid line is handled, and the events of the stream are those of one
    run over its moves. -/
theorem Translator.lines_ok (t : Translator σ ε β ο π) (rt : Runtime) {st : σ} (inv : t.inv st)
    {lines : List Bytes} (valid : ∀ line ∈ lines, t.ValidLine rt line) :
    ∃ st' events heading, onLines rt t.handle st lines = .ok (st', events) ∧
      events.map t.content =
        heading ++ (runFrom t.move (t.body st) (moves rt lines)).2.map t.wrap ∧
      t.body st' = (runFrom t.move (t.body st) (moves rt lines)).1 ∧
      Heading t.opens (t.begun st || lines.all fun line => (decodeChunk rt line).isNone)
        heading := by
  induction lines generalizing st with
  | nil => exact ⟨st, [], [], by simp [onLines, moves, Heading, pure, Except.pure]⟩
  | cons line lines ih =>
      have validLine := valid line List.mem_cons_self
      have others : ∀ l ∈ lines, t.ValidLine rt l := fun l mem =>
        valid l (List.mem_cons_of_mem line mem)
      cases decoded : decodeChunk rt line with
      | none =>
          obtain ⟨st', events, heading, rest, contents, body, head⟩ := ih inv others
          have same : moves rt (line :: lines) = moves rt lines := by
            simp [moves, chunkOf, decoded]
          refine ⟨st', events, heading, ?_, by rw [same]; exact contents,
            by rw [same]; exact body, by simpa [decoded] using head⟩
          simp [onLines, onLine, decoded, rest, bind, Except.bind, pure, Except.pure]
      | some v =>
          obtain ⟨isValid, each⟩ := validLine v decoded
          obtain ⟨chunk, read⟩ := readChunk_ok rt isValid
          obtain ⟨mid, first, heading, hfirst, kept, firstContents, body, begun, head⟩ :=
            t.handles st chunk inv (each chunk read)
          obtain ⟨st', later, silent, hrest, laterContents, restBody, noHead⟩ := ih kept others
          have split : moves rt (line :: lines) = chunk.moves ++ moves rt lines := by
            simp [moves, chunkOf, decoded, read, Except.toOption]
          obtain rfl : silent = [] := by simpa [begun, Heading] using noHead
          refine ⟨st', first ++ later, heading, ?_, ?_, ?_, by simpa [decoded] using head⟩
          · simp [onLines, onLine, decoded, read, hfirst, hrest, bind, Except.bind, pure,
              Except.pure]
          · rw [List.map_append, firstContents, laterContents, split, runFrom_append, ← body]
            simp
          · rw [restBody, body, split, runFrom_append]

end E2eeProxy.OpenAi
