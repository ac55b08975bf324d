import E2eeProxy.Lua.Value

/-! # Lua patterns

A pattern is text that is read as a list of items, and the items are tried on a
subject by backtracking. Captures, `%b`, `%f` and back references are not covered:
reading refuses them, as it refuses what the library calls malformed.
-/

namespace E2eeProxy.Lua

/-! ## Reading -/

/-- `%x`: a letter names a class, or the complement of one if it is in upper case,
    and every other byte stands for itself. -/
def classByte (x c : UInt8) : Bool :=
  let digit := 48 ≤ c && c ≤ 57
  let upper := 65 ≤ c && c ≤ 90
  let small := 97 ≤ c && c ≤ 122
  let graph := 33 ≤ c && c ≤ 126
  let alnum := digit || upper || small
  let hex := digit || (65 ≤ c && c ≤ 70) || (97 ≤ c && c ≤ 102)
  let classes : List (UInt8 × Bool) :=
    [(97, upper || small), (99, c < 32 || c == 127), (100, digit), (103, graph), (108, small),
      (112, graph && !alnum), (115, isSpace c), (117, upper), (119, alnum), (120, hex), (122, c == 0)]
  if 65 ≤ x && x ≤ 90 then
    match classes.lookup (x + 32) with
    | some inside => !inside
    | none => c == x
  else
    match classes.lookup x with
    | some inside => inside
    | none => c == x

/-- The text of a set up to the `]` that ends it, which is not its first byte, and
    what follows. -/
def setText : Bytes → Option (Bytes × Bytes)
  | [] => none
  | 37 :: x :: p =>
      if p.head? = some 93 then some ([37, x], p.tail)
      else (setText p).map fun (text, rest) => (37 :: x :: text, rest)
  | c :: p =>
      if p.head? = some 93 then some ([c], p.tail)
      else (setText p).map fun (text, rest) => (c :: text, rest)

def inSet (c : UInt8) : Bytes → Bool
  | 37 :: x :: text => classByte x c || inSet c text
  | low :: 45 :: high :: text => (low ≤ c && c ≤ high) || inSet c text
  | x :: text => c == x || inSet c text
  | [] => false

/-- A single character class, and the rest of the pattern. -/
def readClass : Bytes → Option ((UInt8 → Bool) × Bytes)
  | [] | [37] => none
  | 37 :: x :: p => some (classByte x, p)
  | 91 :: 94 :: p => (setText p).map fun (text, rest) => (fun c => !inSet c text, rest)
  | 91 :: p => (setText p).map fun (text, rest) => (fun c => inSet c text, rest)
  | 46 :: p => some (fun _ => true, p)
  | x :: p => some (fun c => c == x, p)

inductive PatternItem where
  /-- A single byte of a class. -/
  | once (within : UInt8 → Bool)
  /-- `?`. -/
  | maybe (within : UInt8 → Bool)
  /-- `*`. -/
  | star (within : UInt8 → Bool)
  /-- `+`. -/
  | plus (within : UInt8 → Bool)
  /-- `-`, which takes as few as it can. -/
  | few (within : UInt8 → Bool)
  /-- `$` at the end of the pattern. -/
  | finish

/-- The item that a class and the byte after it make. -/
def quantified (within : UInt8 → Bool) (p : Bytes) : PatternItem × Bytes :=
  match p with
  | 63 :: rest => (.maybe within, rest)
  | 42 :: rest => (.star within, rest)
  | 43 :: rest => (.plus within, rest)
  | 45 :: rest => (.few within, rest)
  | _ => (.once within, p)

/-- A parenthesis, `%b`, `%f` or a back reference. -/
def isUncovered : Bytes → Bool
  | 40 :: _ | 41 :: _ => true
  | 37 :: x :: _ => x == 98 || x == 102 || (48 ≤ x && x ≤ 57)
  | _ => false

/-- The items of a pattern without its `^`. Each takes a byte at least, so the length
    of the pattern bounds the steps. -/
def readItems : (steps : Nat) → Bytes → Option (List PatternItem)
  | 0, p => if p = [] then some [] else none
  | steps + 1, p =>
      if p = [] then some []
      else if p = [36] then some [.finish]
      else if isUncovered p then none
      else do
        let (within, p) ← readClass p
        let (item, p) := quantified within p
        let items ← readItems steps p
        return item :: items

/-! ## Matching -/

/-- What is left of the subject after the items, tried as the library tries them. -/
def matchItems : List PatternItem → Bytes → Option Bytes
  | [], s => some s
  | .finish :: items, s => if s = [] then matchItems items s else none
  | .once within :: items, s => if s.head?.any within then matchItems items s.tail else none
  | .maybe within :: items, s =>
      (if s.head?.any within then matchItems items s.tail else none).orElse fun _ =>
        matchItems items s
  | .star within :: items, s =>
      (List.range ((s.takeWhile within).length + 1)).reverse.findSome? fun n =>
        matchItems items (s.drop n)
  | .plus within :: items, s =>
      (List.range' 1 (s.takeWhile within).length).reverse.findSome? fun n =>
        matchItems items (s.drop n)
  | .few within :: items, s =>
      (List.range ((s.takeWhile within).length + 1)).findSome? fun n => matchItems items (s.drop n)

/-- `s:match(p)`: the text matched, if there is any. The library takes a pattern as a
    C string. -/
def strMatch (p s : Bytes) : LuaM (Option Bytes) :=
  let p := p.takeWhile fun c => c ≠ 0
  let taken (items : List PatternItem) (s : Bytes) : Option Bytes :=
    (matchItems items s).map fun rest => s.take (s.length - rest.length)
  if p.head? = some 94 then
    match readItems p.tail.length p.tail with
    | some items => .ok (taken items s)
    | none => .error .badArgument
  else
    match readItems p.length p with
    | some items => .ok (s.tails.findSome? (taken items))
    | none => .error .badArgument

/-- `s:gsub(p, repl)` for a pattern of one class, which may be captured. -/
def gsubEach (within : UInt8 → Bool) (repl : UInt8 → Bytes) (s : Bytes) : Bytes :=
  s.flatMap fun c => if within c then repl c else [c]

/-- The pattern is read as these items, given as many steps as it has bytes. -/
def Reads (p : Bytes) (items : List PatternItem) : Prop :=
  ∀ steps, p.length ≤ steps → readItems steps p = some items

theorem reads_finish : Reads [36] [.finish] := by
  intro steps enough
  cases steps with
  | zero => simp at enough
  | succ steps => rfl

theorem Reads.cons {p q rest : Bytes} {within : UInt8 → Bool} {item : PatternItem}
    {items : List PatternItem} (reads : Reads rest items) (more : p ≠ [36])
    (covered : isUncovered p = false) (isClass : readClass p = some (within, q))
    (isItem : quantified within q = (item, rest)) (shorter : rest.length < p.length) :
    Reads p (item :: items) := by
  intro steps enough
  cases steps with
  | zero => omega
  | succ steps =>
      have some' : p ≠ [] := by
        rintro rfl
        simp at shorter
      have later := reads steps (by omega)
      rw [readItems, if_neg some', if_neg more, covered]
      simp [isClass, isItem, later]

/-- A class without a repetition after it is a single byte. -/
theorem quantified_once (within : UInt8 → Bool) {p : Bytes} (plain : ∀ c ∈ p.head?, c ∉ lit "?*+-") :
    quantified within p = (.once within, p) := by
  unfold quantified
  split
  · exact absurd (by decide) (plain 63 rfl)
  · exact absurd (by decide) (plain 42 rfl)
  · exact absurd (by decide) (plain 43 rfl)
  · exact absurd (by decide) (plain 45 rfl)
  · rfl

theorem strMatch_anchored {p : Bytes} {items : List PatternItem} (noZero : (0 : UInt8) ∉ p)
    (reads : Reads p items) (s : Bytes) :
    strMatch (94 :: p) s =
      .ok ((matchItems items s).map fun rest => s.take (s.length - rest.length)) := by
  have whole : (94 :: p).takeWhile (fun c => c ≠ 0) = 94 :: p := by
    rw [List.takeWhile_eq_self_iff]
    intro c mem
    simp only [decide_eq_true_eq]
    rintro rfl
    rcases List.mem_cons.mp mem with same | mem
    · cases same
    · exact noZero mem
  rw [strMatch, whole]
  simp [reads p.length le_rfl]

/-! ## What items match -/

/-- A beginning of the subject can be split among the items. -/
def Fits : List PatternItem → Bytes → Prop
  | [], _ => True
  | .finish :: items, s => s = [] ∧ Fits items s
  | .once within :: items, s => ∃ c rest, s = c :: rest ∧ within c ∧ Fits items rest
  | .maybe within :: items, s =>
      (∃ c rest, s = c :: rest ∧ within c ∧ Fits items rest) ∨ Fits items s
  | .star within :: items, s | .few within :: items, s =>
      ∃ front rest, s = front ++ rest ∧ (∀ c ∈ front, within c) ∧ Fits items rest
  | .plus within :: items, s =>
      ∃ front rest, s = front ++ rest ∧ front ≠ [] ∧ (∀ c ∈ front, within c) ∧ Fits items rest

/-- The expansions of a class are the beginnings of the subject that are in it. -/
theorem exists_drop_iff {within : UInt8 → Bool} {s : Bytes} {least : Nat} {P : Bytes → Prop} :
    (∃ n, (least ≤ n ∧ n ≤ (s.takeWhile within).length) ∧ P (s.drop n)) ↔
      ∃ front rest, s = front ++ rest ∧ least ≤ front.length ∧ (∀ c ∈ front, within c) ∧ P rest := by
  constructor
  · rintro ⟨n, ⟨enough, short⟩, holds⟩
    have front : s.take n = (s.takeWhile within).take n := by
      conv_lhs => rw [← List.takeWhile_append_dropWhile (p := within) (l := s)]
      exact List.take_append_of_le_length short
    refine ⟨s.take n, s.drop n, (List.take_append_drop n s).symm, ?_, ?_, holds⟩
    · rwa [front, List.length_take, Nat.min_eq_left short]
    · intro c mem
      rw [front] at mem
      exact List.mem_takeWhile_imp (List.mem_of_mem_take mem)
  · rintro ⟨front, rest, rfl, enough, within, holds⟩
    refine ⟨front.length, ⟨enough, ?_⟩, ?_⟩
    · rw [List.takeWhile_append_of_pos within, List.length_append]
      exact Nat.le_add_right _ _
    · rwa [List.drop_left]

/-- The matcher finds a way whenever there is one. -/
theorem matchItems_isSome_iff {items : List PatternItem} {s : Bytes} :
    (matchItems items s).isSome ↔ Fits items s := by
  induction items generalizing s with
  | nil => simp [matchItems, Fits]
  | cons item items ih =>
      have expands (within : UInt8 → Bool) (least : Nat) :=
        @exists_drop_iff within s least (Fits items)
      cases item with
      | finish =>
          by_cases empty : s = []
          · simp [matchItems, Fits, empty, ih]
          · simp [matchItems, Fits, empty]
      | once within =>
          cases s with
          | nil => simp [matchItems, Fits]
          | cons c s =>
              by_cases inside : within c
              · simp [matchItems, Fits, inside, ih]
              · simp [matchItems, Fits, inside]
      | maybe within =>
          cases s with
          | nil => simp [matchItems, Fits, ih]
          | cons c s =>
              by_cases inside : within c
              · simp [matchItems, Fits, inside, ih]
              · simp [matchItems, Fits, inside, ih]
      | star within =>
          rw [matchItems, List.findSome?_isSome_iff, Fits]
          simpa [Nat.lt_succ_iff, ih] using expands within 0
      | few within =>
          rw [matchItems, List.findSome?_isSome_iff, Fits]
          simpa [Nat.lt_succ_iff, ih] using expands within 0
      | plus within =>
          rw [matchItems, List.findSome?_isSome_iff, Fits]
          simpa [List.mem_range'_1, Nat.lt_succ_iff, Nat.one_add, Nat.one_le_iff_ne_zero, ih]
            using expands within 1

end E2eeProxy.Lua
