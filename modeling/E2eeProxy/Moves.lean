import E2eeProxy.Lib.Table
import E2eeProxy.OpenAiChunk
import Mathlib.Data.List.Induction

/-! # Tool calls in a sequence of moves

Which calls a sequence of moves mentions, which of them it completes, and what a
table of tool states that follows the moves knows about them.
-/

namespace E2eeProxy.OpenAi

open E2eeProxy.Lua E2eeProxy.Lib

def Mentioned (moves : List Move) (idx : Value) : Prop :=
  ∃ tc, .tool tc ∈ moves ∧ tc.index = idx

def HasId (moves : List Move) (idx : Value) : Prop :=
  ∃ tc, .tool tc ∈ moves ∧ tc.index = idx ∧ tc.id.isSome

def HasName (moves : List Move) (idx : Value) : Prop :=
  ∃ tc, .tool tc ∈ moves ∧ tc.index = idx ∧ tc.name.isSome

/-- The deltas of the tool call supply both its id and its name. -/
def Completes (moves : List Move) (idx : Value) : Prop := HasId moves idx ∧ HasName moves idx

/-- A content delta comes after a delta of the tool call. -/
def ContentAfter (moves : List Move) (idx : Value) : Prop :=
  ∃ before tc after text,
    moves = before ++ .tool tc :: after ∧ tc.index = idx ∧ .content text ∈ after

theorem Completes.append {ms : List Move} {i : Value} (h : Completes ms i) (more : List Move) :
    Completes (ms ++ more) i := by
  obtain ⟨⟨tc, mem, same, has⟩, ⟨tc', mem', same', has'⟩⟩ := h
  exact ⟨⟨tc, by simp [mem], same, has⟩, ⟨tc', by simp [mem'], same', has'⟩⟩

theorem Mentioned.append {ms : List Move} {i : Value} (h : Mentioned ms i) (more : List Move) :
    Mentioned (ms ++ more) i := by
  obtain ⟨tc, mem, same⟩ := h
  exact ⟨tc, List.mem_append_left _ mem, same⟩

theorem Completes.mentioned {ms : List Move} {i : Value} (h : Completes ms i) :
    Mentioned ms i := by
  obtain ⟨⟨tc, mem, same, -⟩, -⟩ := h
  exact ⟨tc, mem, same⟩

section Concat

variable (ms : List Move) (idx : Value)

@[simp] theorem mentioned_content (text : Bytes) :
    Mentioned (ms ++ [.content text]) idx ↔ Mentioned ms idx := by
  simp [Mentioned]

@[simp] theorem hasId_content (text : Bytes) :
    HasId (ms ++ [.content text]) idx ↔ HasId ms idx := by
  simp [HasId]

@[simp] theorem hasName_content (text : Bytes) :
    HasName (ms ++ [.content text]) idx ↔ HasName ms idx := by
  simp [HasName]

@[simp] theorem completes_content (text : Bytes) :
    Completes (ms ++ [.content text]) idx ↔ Completes ms idx := by
  simp [Completes]

theorem mentioned_tool (tc : ToolDelta) :
    Mentioned (ms ++ [.tool tc]) idx ↔ Mentioned ms idx ∨ tc.index = idx := by
  simp only [Mentioned, List.mem_append, List.mem_singleton, Move.tool.injEq, or_and_right,
    exists_or, exists_eq_left]

theorem hasId_tool (tc : ToolDelta) :
    HasId (ms ++ [.tool tc]) idx ↔ HasId ms idx ∨ (tc.index = idx ∧ tc.id.isSome) := by
  simp only [HasId, List.mem_append, List.mem_singleton, Move.tool.injEq, or_and_right,
    exists_or, exists_eq_left]

theorem hasName_tool (tc : ToolDelta) :
    HasName (ms ++ [.tool tc]) idx ↔ HasName ms idx ∨ (tc.index = idx ∧ tc.name.isSome) := by
  simp only [HasName, List.mem_append, List.mem_singleton, Move.tool.injEq, or_and_right,
    exists_or, exists_eq_left]

/-- A tool delta completes its own call at most. -/
theorem completes_tool (tc : ToolDelta) (complete : Completes (ms ++ [.tool tc]) idx)
    (before : ¬ Completes ms idx) : tc.index = idx := by
  by_contra other
  refine before ⟨?_, ?_⟩
  · simpa [hasId_tool, other] using complete.1
  · simpa [hasName_tool, other] using complete.2

theorem contentAfter_content (text : Bytes) :
    ContentAfter (ms ++ [.content text]) idx ↔ Mentioned ms idx := by
  constructor
  · rintro ⟨before, tc, after, s, split, same, -⟩
    have mem : Move.tool tc ∈ ms ++ [.content text] := split ▸ by simp
    exact ⟨tc, by simpa using mem, same⟩
  · rintro ⟨tc, mem, same⟩
    obtain ⟨before, after, rfl⟩ := List.append_of_mem mem
    exact ⟨before, tc, after ++ [.content text], text, by simp, same, by simp⟩

theorem contentAfter_tool (tc : ToolDelta) :
    ContentAfter (ms ++ [.tool tc]) idx ↔ ContentAfter ms idx := by
  constructor
  · rintro ⟨before, tc', after, s, split, same, mem⟩
    cases after using List.reverseRecOn with
    | nil => simp at mem
    | append_singleton after last =>
        rw [← List.cons_append, ← List.append_assoc] at split
        obtain ⟨rfl, last'⟩ := List.append_inj' split rfl
        simp only [List.cons.injEq, and_true] at last'
        subst last'
        exact ⟨before, tc', after, s, rfl, same, by simpa using mem⟩
  · rintro ⟨before, tc', after, s, rfl, same, mem⟩
    exact ⟨before, tc', after ++ [.tool tc], s, by simp, same, by simp [mem]⟩

theorem ContentAfter.mentioned {ms : List Move} {idx : Value} (h : ContentAfter ms idx) :
    Mentioned ms idx := by
  obtain ⟨before, tc, after, -, rfl, same, -⟩ := h
  exact ⟨tc, by simp, same⟩

end Concat

/-! ## The first content and the calls before it -/

/-- The moves before the first content delta, and that delta. -/
def firstContent : List Move → Option (List Move × Bytes)
  | [] => none
  | .content s :: _ => some ([], s)
  | .tool tc :: ms => (firstContent ms).map fun (before, s) => (.tool tc :: before, s)

theorem firstContent_split {ms before : List Move} {s : Bytes}
    (begun : firstContent ms = some (before, s)) : ∃ after, ms = before ++ .content s :: after := by
  induction ms generalizing before with
  | nil => cases begun
  | cons x ms ih =>
      cases x with
      | content s' =>
          simp only [firstContent, Option.some.injEq, Prod.mk.injEq] at begun
          obtain ⟨rfl, rfl⟩ := begun
          exact ⟨ms, rfl⟩
      | tool tc =>
          simp only [firstContent, Option.map_eq_some_iff, Prod.mk.injEq] at begun
          obtain ⟨⟨before', s'⟩, rest, rfl, rfl⟩ := begun
          obtain ⟨after, rfl⟩ := ih rest
          exact ⟨after, rfl⟩

theorem firstContent_append {ms before : List Move} {s : Bytes}
    (begun : firstContent ms = some (before, s)) (more : List Move) :
    firstContent (ms ++ more) = some (before, s) := by
  induction ms generalizing before with
  | nil => cases begun
  | cons x ms ih =>
      cases x with
      | content s' => exact begun
      | tool tc =>
          simp only [firstContent, Option.map_eq_some_iff, Prod.mk.injEq] at begun
          obtain ⟨⟨before', s'⟩, rest, rfl, rfl⟩ := begun
          simp [firstContent, ih rest]

theorem firstContent_concat {ms : List Move} (silent : firstContent ms = none) (x : Move) :
    firstContent (ms ++ [x]) =
      match x with
      | .content s => some (ms, s)
      | .tool _ => none := by
  induction ms with
  | nil => cases x <;> rfl
  | cons y ms ih =>
      cases y with
      | content s => cases silent
      | tool tc =>
          simp only [firstContent, Option.map_eq_none_iff] at silent
          rw [List.cons_append, firstContent, ih silent]
          cases x <;> rfl

def Move.index? : Move → Option Value
  | .content _ => none
  | .tool tc => some tc.index

/-- The tool calls in the order in which they are first mentioned. -/
def calls (ms : List Move) : List Value := (ms.filterMap Move.index?).eraseDups

theorem mem_calls (ms : List Move) (idx : Value) : idx ∈ calls ms ↔ Mentioned ms idx := by
  rw [calls, List.mem_eraseDups, List.mem_filterMap]
  constructor
  · rintro ⟨move, mem, index⟩
    cases move with
    | content s => cases index
    | tool tc => exact ⟨tc, mem, Option.some.inj index⟩
  · rintro ⟨tc, mem, rfl⟩
    exact ⟨.tool tc, mem, rfl⟩

theorem calls_append (ms more : List Move) : calls ms <+: calls (ms ++ more) := by
  rw [calls, calls, List.filterMap_append, List.eraseDups_append]
  exact List.prefix_append _ _

@[simp] theorem calls_content (ms : List Move) (s : Bytes) :
    calls (ms ++ [.content s]) = calls ms := by
  have same : (ms ++ [Move.content s]).filterMap Move.index? = ms.filterMap Move.index? := by
    rw [List.filterMap_append]
    exact List.append_nil _
  rw [calls, same]
  rfl

/-- A tool delta adds its call to the order, unless it is there. -/
theorem calls_tool (ms : List Move) (tc : ToolDelta) :
    calls (ms ++ [.tool tc]) =
      if tc.index ∈ calls ms then calls ms else calls ms ++ [tc.index] := by
  have split : (ms ++ [Move.tool tc]).filterMap Move.index? =
      ms.filterMap Move.index? ++ [tc.index] := List.filterMap_append
  have mem : tc.index ∈ calls ms ↔ (ms.filterMap Move.index?).elem tc.index = true := by
    rw [calls, List.mem_eraseDups, List.elem_iff]
  rw [calls, split, List.eraseDups_append]
  by_cases known : tc.index ∈ calls ms
  · have gone : [tc.index].removeAll (ms.filterMap Move.index?) = [] := by
      simp only [List.removeAll, List.filter, mem.mp known, Bool.not_true]
    rw [if_pos known, gone]
    exact List.append_nil _
  · have absent := mt mem.mpr known
    have kept : [tc.index].removeAll (ms.filterMap Move.index?) = [tc.index] := by
      simp only [List.removeAll, List.filter, Bool.eq_false_iff.mpr absent, Bool.not_false]
    rw [if_neg known, kept]
    rfl

theorem calls_nodup (ms : List Move) : (calls ms).Nodup := by
  induction ms using List.reverseRecOn with
  | nil => exact List.nodup_nil
  | append_singleton ms x ih =>
      cases x with
      | content s =>
          rw [calls_content]
          exact ih
      | tool tc =>
          rw [calls_tool]
          split
          · exact ih
          · rename_i unknown
            refine List.nodup_append.mpr ⟨ih, List.nodup_singleton _, ?_⟩
            rintro i mem _ new rfl
            exact unknown (List.mem_singleton.mp new ▸ mem)

/-! ## Tables of tool calls -/

variable {τ : Type}

/-- A table whose entries hold the id and the name that the moves supplied, and
    are started once they have both. -/
structure Known (id name : τ → Option Value) (started : τ → Bool) (ms : List Move)
    (table : List (Value × τ)) : Prop where
  mentioned : ∀ i, (table.lookup i).isSome ↔ Mentioned ms i
  hasId : ∀ i ts, table.lookup i = some ts → ((id ts).isSome ↔ HasId ms i)
  hasName : ∀ i ts, table.lookup i = some ts → ((name ts).isSome ↔ HasName ms i)
  started : ∀ i ts, table.lookup i = some ts →
    (started ts = true ↔ (id ts).isSome ∧ (name ts).isSome)
  distinct : (table.map Prod.fst).Nodup

section Known

variable {id name : τ → Option Value} {started : τ → Bool} {ms : List Move}
  {table : List (Value × τ)}

theorem known_nil : Known id name started [] [] := by
  constructor <;> simp [Mentioned]

theorem Known.content (known : Known id name started ms table) (text : Bytes) :
    Known id name started (ms ++ [.content text]) table := by
  constructor
  · intro i
    rw [mentioned_content]
    exact known.mentioned i
  · intro i ts entry
    rw [hasId_content]
    exact known.hasId i ts entry
  · intro i ts entry
    rw [hasName_content]
    exact known.hasName i ts entry
  · exact known.started
  · exact known.distinct

/-- A call the table does not know is new to the moves. -/
theorem Known.fresh (known : Known id name started ms table) {i : Value}
    (unknown : table.lookup i = none) :
    ¬ HasId ms i ∧ ¬ HasName ms i ∧ ¬ ContentAfter ms i := by
  have never : ¬ Mentioned ms i := by
    rw [← known.mentioned, unknown]
    simp
  refine ⟨?_, ?_, fun after => never after.mentioned⟩
  · rintro ⟨delta, mem, same, -⟩
    exact never ⟨delta, mem, same⟩
  · rintro ⟨delta, mem, same, -⟩
    exact never ⟨delta, mem, same⟩

/-- The entry a tool delta writes: the delta's id and name where it has them,
    else what the entry had before. -/
structure Updates (id name : τ → Option Value) (started : τ → Bool)
    (table : List (Value × τ)) (tc : ToolDelta) (ts' : τ) : Prop where
  idAfter : id ts' = (tc.id <|> (table.lookup tc.index).bind id)
  nameAfter : name ts' = (tc.name <|> (table.lookup tc.index).bind name)
  startedAfter : started ts' = true ↔ (id ts').isSome ∧ (name ts').isSome

theorem orElse_isSome (x y : Option Value) : (x <|> y).isSome ↔ x.isSome ∨ y.isSome := by
  cases x <;> simp

theorem orElse_idem (x : Option Value) : (x <|> x) = x := by
  cases x <;> rfl

theorem Known.tool (known : Known id name started ms table) {tc : ToolDelta} {ts' : τ}
    (updates : Updates id name started table tc ts') :
    Known id name started (ms ++ [.tool tc]) (setEntry tc.index ts' table) := by
  have written (i : Value) (t : τ) (entry : (setEntry tc.index ts' table).lookup i = some t) :
      (i = tc.index ∧ t = ts') ∨ (i ≠ tc.index ∧ table.lookup i = some t) := by
    rw [lookup_setEntry] at entry
    split at entry
    · rename_i here
      exact .inl ⟨here, (Option.some.inj entry).symm⟩
    · rename_i other
      exact .inr ⟨other, entry⟩
  constructor
  · intro i
    rw [lookup_setEntry, mentioned_tool]
    split
    · rename_i here
      simp [here]
    · rename_i other
      simp [known.mentioned, Ne.symm other]
  · intro i t entry
    rcases written i t entry with ⟨rfl, rfl⟩ | ⟨other, before⟩
    · rw [updates.idAfter, orElse_isSome, hasId_tool]
      cases old : table.lookup tc.index with
      | none => simp [(known.fresh old).1]
      | some ts => simp [known.hasId _ ts old, or_comm]
    · simp [hasId_tool, known.hasId i t before, Ne.symm other]
  · intro i t entry
    rcases written i t entry with ⟨rfl, rfl⟩ | ⟨other, before⟩
    · rw [updates.nameAfter, orElse_isSome, hasName_tool]
      cases old : table.lookup tc.index with
      | none => simp [(known.fresh old).2.1]
      | some ts => simp [known.hasName _ ts old, or_comm]
    · simp [hasName_tool, known.hasName i t before, Ne.symm other]
  · intro i t entry
    rcases written i t entry with ⟨rfl, rfl⟩ | ⟨other, before⟩
    · exact updates.startedAfter
    · exact known.started i t before
  · exact setEntry_nodup _ _ known.distinct

/-- The calls that the moves complete are the ones that were started. -/
theorem Known.completes_iff (known : Known id name started ms table) (i : Value) :
    Completes ms i ↔ ∃ ts, table.lookup i = some ts ∧ started ts = true := by
  constructor
  · intro complete
    obtain ⟨tc, mem, same, -⟩ := complete.1
    obtain ⟨ts, entry⟩ :=
      Option.isSome_iff_exists.mp ((known.mentioned i).mpr ⟨tc, mem, same⟩)
    refine ⟨ts, entry, (known.started i ts entry).mpr ?_⟩
    exact ⟨(known.hasId i ts entry).mpr complete.1, (known.hasName i ts entry).mpr complete.2⟩
  · rintro ⟨ts, entry, isStarted⟩
    obtain ⟨hasId, hasName⟩ := (known.started i ts entry).mp isStarted
    exact ⟨(known.hasId i ts entry).mp hasId, (known.hasName i ts entry).mp hasName⟩

end Known

end E2eeProxy.OpenAi
