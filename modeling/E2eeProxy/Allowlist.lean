import E2eeProxy.Cors

/-! # What the allowlist allows

An entry with a wildcard becomes a Lua pattern in two replacements, and the pattern
matches what the entry stands for and nothing else.
-/

namespace E2eeProxy.Cors

open Lua

/-! ## What an entry stands for -/

/-- The value of an environment variable; a C string has no zero byte. -/
structure EnvString where
  bytes : Bytes
  noZero : (0 : UInt8) ∉ bytes

/-- The entries of a list, without white space. -/
def entriesOf (list : Bytes) : List Bytes :=
  (list.splitOn 44).map fun entry => entry.filter fun c => !isSpace c

/-- Each `*` stands for bytes without `/` and `:`, every other byte for itself. -/
inductive Wild : Bytes → Bytes → Prop
  | nil : Wild [] []
  | star {e s segment : Bytes} (within : ∀ c ∈ segment, c ≠ 47 ∧ c ≠ 58) (rest : Wild e s) :
      Wild (42 :: e) (segment ++ s)
  | byte {c : UInt8} {e s : Bytes} (plain : c ≠ 42) (rest : Wild e s) : Wild (c :: e) (c :: s)

theorem Wild.self {e : Bytes} (plain : 42 ∉ e) : Wild e e := by
  induction e with
  | nil => exact .nil
  | cons c e ih =>
      rw [List.mem_cons, not_or] at plain
      exact .byte (Ne.symm plain.1) (ih plain.2)

/-- A trailing `:*` stands for `:` and one or more digits. -/
inductive StandsFor : Bytes → Bytes → Prop
  | port {e host digits : Bytes} (wild : Wild e host) (some' : digits ≠ [])
      (each : ∀ c ∈ digits, isDigit c) : StandsFor (e ++ lit ":*") (host ++ 58 :: digits)
  | noPort {e s : Bytes} (without : ¬ lit ":*" <:+ e) (wild : Wild e s) : StandsFor e s

/-- Compared in lower case, the origin is the entry or one of those it stands for. -/
def Allows (entry origin : Bytes) : Prop :=
  (42 ∉ entry ∧ lower entry = lower origin) ∨
    (42 ∈ entry ∧ StandsFor (lower entry) (lower origin))

/-! ## The pattern of an entry -/

def magicSet : Bytes := lit "%^%$%(%)%%%.%[%]%+%-%?"

/-- What the two replacements make of a byte. -/
def byteText (c : UInt8) : Bytes :=
  if c = 42 then lit "[^/:]*" else if inSet c magicSet then [37, c] else [c]

/-- What that is read as. -/
def byteItem (c : UInt8) : PatternItem :=
  if c = 42 then .star fun d => !inSet d (lit "/:") else .once fun d => d == c

theorem inSet_magic (c : UInt8) : inSet c magicSet = true ↔ c ∈ lit "^$()%.[]+-?" := by
  have set : inSet c magicSet = (c == 94 || (c == 36 || (c == 40 || (c == 41 || (c == 37 ||
      (c == 46 || (c == 91 || (c == 93 || (c == 43 || (c == 45 || (c == 63 || false))))))))))) := rfl
  have magic : lit "^$()%.[]+-?" = [94, 36, 40, 41, 37, 46, 91, 93, 43, 45, 63] := rfl
  rw [set, magic]
  simp

/-- After a `%` a magic byte stands for itself. -/
theorem readClass_magic {c : UInt8} (magic : c ∈ lit "^$()%.[]+-?") (p : Bytes) :
    isUncovered (37 :: c :: p) = false ∧ readClass (37 :: c :: p) = some (fun d => d == c, p) := by
  have each : c ∈ [94, 36, 40, 41, 37, 46, 91, 93, 43, 45, 63] := magic
  simp only [List.mem_cons, List.not_mem_nil, or_false] at each
  rcases each with rfl | rfl | rfl | rfl | rfl | rfl | rfl | rfl | rfl | rfl | rfl
  all_goals exact ⟨rfl, rfl⟩

/-- A byte that is not magic stands for itself. -/
theorem readClass_plain {c : UInt8} (plain : c ∉ lit "^$()%.[]+-?") (p : Bytes) :
    c :: p ≠ [36] ∧ isUncovered (c :: p) = false ∧
      readClass (c :: p) = some (fun d => d == c, p) := by
  have dollar : c ≠ 36 := by rintro rfl; exact plain (by decide)
  have opening : c ≠ 40 := by rintro rfl; exact plain (by decide)
  have closing : c ≠ 41 := by rintro rfl; exact plain (by decide)
  have percent : c ≠ 37 := by rintro rfl; exact plain (by decide)
  have bracket : c ≠ 91 := by rintro rfl; exact plain (by decide)
  have dot : c ≠ 46 := by rintro rfl; exact plain (by decide)
  refine ⟨fun same => dollar (List.cons.inj same).1, ?_, ?_⟩
  · simp [isUncovered, opening, closing, percent]
  · simp [readClass, percent, bracket]

/-- No byte of the text is a repetition of what is before it. -/
theorem byteText_head (c : UInt8) (p : Bytes) : ∀ x ∈ (byteText c ++ p).head?, x ∉ lit "?*+-" := by
  intro x head repeats
  unfold byteText at head
  split at head
  · cases head
    exact absurd repeats (by decide)
  · rename_i star
    split at head
    · cases head
      exact absurd repeats (by decide)
    · rename_i plain
      obtain rfl : c = x := Option.some.inj head
      rw [inSet_magic] at plain
      have each : c ∈ [63, 42, 43, 45] := repeats
      simp only [List.mem_cons, List.not_mem_nil, or_false] at each
      rcases each with rfl | rfl | rfl | rfl
      · exact plain (by decide)
      · exact star rfl
      · exact plain (by decide)
      · exact plain (by decide)

theorem reads_byteText {c : UInt8} {p : Bytes} {items : List PatternItem} (reads : Reads p items)
    (calm : ∀ x ∈ p.head?, x ∉ lit "?*+-") : Reads (byteText c ++ p) (byteItem c :: items) := by
  unfold byteText byteItem
  by_cases star : c = 42
  · rw [if_pos star, if_pos star]
    have read : readClass (lit "[^/:]*" ++ p) = some (fun d => !inSet d (lit "/:"), 42 :: p) := rfl
    have shorter : p.length < (lit "[^/:]*" ++ p).length := by
      rw [List.length_append]
      exact Nat.lt_add_of_pos_left (by decide)
    exact reads.cons (fun same => by cases same) rfl read rfl shorter
  · rw [if_neg star, if_neg star]
    by_cases magic : inSet c magicSet
    · rw [if_pos magic]
      obtain ⟨covered, read⟩ := readClass_magic ((inSet_magic c).mp magic) p
      have shorter : p.length < (37 :: c :: p).length := by
        simp only [List.length_cons]
        omega
      exact reads.cons (fun same => by cases same) covered read (quantified_once _ calm) shorter
    · rw [if_neg magic]
      obtain ⟨more, covered, read⟩ := readClass_plain (mt (inSet_magic c).mpr magic) p
      exact reads.cons more covered read (quantified_once _ calm) (Nat.lt_succ_self _)

/-- The text of an entry is read byte by byte. -/
theorem reads_text {e p : Bytes} {items : List PatternItem} (reads : Reads p items)
    (calm : ∀ x ∈ p.head?, x ∉ lit "?*+-") :
    Reads (e.flatMap byteText ++ p) (e.map byteItem ++ items) := by
  induction e with
  | nil => exact reads
  | cons c e ih =>
      rw [List.flatMap_cons, List.append_assoc]
      apply reads_byteText ih
      cases e with
      | nil => exact calm
      | cons d e =>
          rw [List.flatMap_cons, List.append_assoc]
          exact byteText_head d _

/-- A host of the entry is matched, with whatever is after it. -/
theorem fits_iff {e s : Bytes} {items : List PatternItem} :
    Fits (e.map byteItem ++ items) s ↔ ∃ host rest, s = host ++ rest ∧ Wild e host ∧ Fits items rest := by
  induction e generalizing s with
  | nil =>
      constructor
      · exact fun fits => ⟨[], s, rfl, .nil, fits⟩
      · rintro ⟨_, rest, rfl, ⟨⟩, fits⟩
        exact fits
  | cons c e ih =>
      rw [List.map_cons, List.cons_append, byteItem]
      by_cases star : c = 42
      · subst star
        rw [if_pos rfl, Fits]
        constructor
        · rintro ⟨front, s', rfl, within, fits⟩
          obtain ⟨host, rest, rfl, wild, fits⟩ := ih.mp fits
          refine ⟨front ++ host, rest, (List.append_assoc _ _ _).symm, .star ?_ wild, fits⟩
          intro c mem
          simpa [inSet, lit] using within c mem
        · rintro ⟨_, rest, rfl, wild, fits⟩
          cases wild with
          | star within wild =>
              refine ⟨_, _, List.append_assoc _ _ _, ?_, ih.mpr ⟨_, rest, rfl, wild, fits⟩⟩
              intro c mem
              simpa [inSet, lit] using within c mem
          | byte plain => exact absurd rfl plain
      · rw [if_neg star, Fits]
        constructor
        · rintro ⟨d, s', rfl, same, fits⟩
          obtain ⟨host, rest, rfl, wild, fits⟩ := ih.mp fits
          obtain rfl : d = c := beq_iff_eq.mp same
          exact ⟨d :: host, rest, rfl, .byte star wild, fits⟩
        · rintro ⟨_, rest, rfl, wild, fits⟩
          cases wild with
          | star => exact absurd rfl star
          | byte plain wild => exact ⟨c, _, rfl, beq_self_eq_true c, ih.mpr ⟨_, rest, rfl, wild, fits⟩⟩

theorem replaced_eq (e : Bytes) :
    gsubEach (classByte 42) (fun _ => lit "[^/:]*")
        (gsubEach (fun c => inSet c magicSet) (fun c => [37, c]) e) = e.flatMap byteText := by
  unfold gsubEach
  rw [List.flatMap_assoc]
  apply List.flatMap_congr
  intro c mem
  have isStar : ∀ d, classByte 42 d = (d == 42) := fun _ => rfl
  simp only [isStar, beq_iff_eq]
  unfold byteText
  by_cases star : c = 42
  · subst star
    rfl
  · rw [if_neg star]
    by_cases magic : inSet c magicSet
    · simp [magic, star]
    · simp [magic, star]

/-- What is before a trailing `:*`. -/
def stem (e : Bytes) : Bytes := if (lit ":*").isSuffixOf e then e.take (e.length - 2) else e

def tailText (e : Bytes) : Bytes := if (lit ":*").isSuffixOf e then lit ":%d+$" else lit "$"

def tailItems (e : Bytes) : List PatternItem :=
  if (lit ":*").isSuffixOf e then [.once fun d => d == 58, .plus isDigit, .finish] else [.finish]

theorem toPattern_eq (entry : Bytes) :
    toPattern entry = 94 :: ((stem (lower entry)).flatMap byteText ++ tailText (lower entry)) := by
  unfold toPattern stem tailText
  dsimp only
  rw [← magicSet]
  split
  · rw [replaced_eq]
    simp [lit]
  · rw [replaced_eq]
    rfl

theorem reads_tail (e : Bytes) : Reads (tailText e) (tailItems e) := by
  unfold tailText tailItems
  split
  · have digits : Reads (lit "%d+$") [.plus isDigit, .finish] :=
      reads_finish.cons (by decide) rfl rfl rfl (by decide)
    exact digits.cons (by decide) rfl rfl rfl (by decide)
  · exact reads_finish

theorem tail_head (e : Bytes) : ∀ x ∈ (tailText e).head?, x ∉ lit "?*+-" := by
  intro x head
  unfold tailText at head
  split at head
  · cases head
    decide
  · cases head
    decide

/-- The whole pattern is read as the items of the entry. -/
theorem reads_toPattern (e : Bytes) :
    Reads ((stem e).flatMap byteText ++ tailText e) ((stem e).map byteItem ++ tailItems e) :=
  reads_text (reads_tail e) (tail_head e)

theorem fits_standsFor {e s : Bytes} :
    Fits ((stem e).map byteItem ++ tailItems e) s ↔ StandsFor e s := by
  rw [fits_iff]
  unfold stem tailItems
  by_cases portWild : (lit ":*").isSuffixOf e
  · rw [if_pos portWild, if_pos portWild]
    obtain ⟨front, rfl⟩ := List.isSuffixOf_iff_suffix.mp portWild
    have before : (front ++ lit ":*").take ((front ++ lit ":*").length - 2) = front := by
      rw [List.length_append]
      exact List.take_left
    rw [before]
    constructor
    · rintro ⟨host, rest, rfl, wild, colon, s', rfl, same, digits, end', rfl, some', each, rfl, -⟩
      obtain rfl : colon = 58 := beq_iff_eq.mp same
      rw [List.append_nil]
      exact .port wild some' each
    · intro stands
      generalize whole : front ++ lit ":*" = e at stands
      cases stands with
      | port wild some' each =>
          obtain rfl := List.append_cancel_right whole
          exact ⟨_, _, rfl, wild, 58, _, rfl, rfl, _, [], (List.append_nil _).symm, some', each, rfl,
            trivial⟩
      | noPort without => exact absurd ⟨front, whole⟩ without
  · rw [if_neg portWild, if_neg portWild]
    have without : ¬ lit ":*" <:+ e := fun suffix =>
      portWild (List.isSuffixOf_iff_suffix.mpr suffix)
    constructor
    · rintro ⟨host, rest, rfl, wild, rfl, -⟩
      rw [List.append_nil]
      exact .noPort without wild
    · intro stands
      cases stands with
      | port => exact absurd (List.suffix_append _ _) without
      | noPort _ wild => exact ⟨s, [], (List.append_nil s).symm, wild, rfl, trivial⟩

theorem toPattern_noZero {entry : Bytes} (noZero : (0 : UInt8) ∉ lower entry) :
    (0 : UInt8) ∉ (stem (lower entry)).flatMap byteText ++ tailText (lower entry) := by
  rw [List.mem_append, not_or, List.mem_flatMap]
  constructor
  · rintro ⟨c, mem, zero⟩
    have inside : c ∈ lower entry := by
      unfold stem at mem
      split at mem
      · exact List.mem_of_mem_take mem
      · exact mem
    unfold byteText at zero
    split at zero
    · exact absurd zero (by decide)
    · split at zero
      · rcases List.mem_pair.mp zero with same | same
        · cases same
        · exact noZero (same ▸ inside)
      · exact noZero (List.mem_singleton.mp zero ▸ inside)
  · unfold tailText
    split
    · decide
    · decide

theorem lower_mem {c : UInt8} {s : Bytes} (small : c < 65) : c ∈ lower s ↔ c ∈ s := by
  unfold lower
  rw [List.mem_map]
  constructor
  · rintro ⟨d, mem, rfl⟩
    split at small
    · rename_i letter
      rw [UInt8.lt_iff_toNat_lt, UInt8.toNat_add] at small
      simp only [UInt8.le_iff_toNat_le] at letter
      simp at small letter
      omega
    · rename_i other
      rwa [if_neg other]
  · intro mem
    refine ⟨c, mem, if_neg ?_⟩
    exact fun letter => absurd small (UInt8.not_lt.mpr letter.1)

/-- The pattern matches what the entry stands for. -/
theorem toPattern_matches {entry : Bytes} (noZero : (0 : UInt8) ∉ entry) (o : Bytes) :
    (strMatch (toPattern entry) o).toOption.join.isSome ↔ StandsFor (lower entry) o := by
  have noZero' : (0 : UInt8) ∉ lower entry := mt (lower_mem (by decide)).mp noZero
  rw [toPattern_eq, strMatch_anchored (toPattern_noZero noZero') (reads_toPattern _)]
  rw [← fits_standsFor, ← matchItems_isSome_iff]
  simp [Except.toOption]

/-! ## The list -/

theorem splitOn_subset {a : UInt8} {s piece : Bytes} (mem : piece ∈ s.splitOn a) : piece ⊆ s := by
  induction s generalizing piece with
  | nil =>
      rw [List.mem_singleton.mp mem]
      exact List.Subset.refl _
  | cons c s ih =>
      rw [List.splitOn_cons_eq_if_modifyHead] at mem
      split at mem
      · rcases List.mem_cons.mp mem with rfl | mem
        · exact List.nil_subset _
        · exact List.subset_cons_of_subset c (ih mem)
      · obtain ⟨front, rest, split⟩ := List.exists_cons_of_ne_nil (List.splitOn_ne_nil a s)
        rw [split, List.modifyHead_cons] at mem
        rcases List.mem_cons.mp mem with rfl | mem
        · exact List.cons_subset_cons c (ih (split ▸ List.mem_cons_self))
        · exact List.subset_cons_of_subset c (ih (split ▸ List.mem_cons_of_mem _ mem))

/-- White space can be removed before or after the list is split. -/
theorem splitOn_filter {a : UInt8} {keep : UInt8 → Bool} (kept : keep a) (s : Bytes) :
    (s.filter keep).splitOn a = (s.splitOn a).map fun piece => piece.filter keep := by
  induction s with
  | nil => rfl
  | cons c s ih =>
      obtain ⟨front, rest, split⟩ := List.exists_cons_of_ne_nil (List.splitOn_ne_nil a s)
      rw [split] at ih
      by_cases same : c = a
      · subst same
        rw [List.filter_cons_of_pos kept, List.splitOn_cons_eq_if_modifyHead,
          List.splitOn_cons_eq_if_modifyHead, split, ih]
        simp
      · rw [List.splitOn_cons_eq_if_modifyHead, split]
        by_cases keeps : keep c
        · rw [List.filter_cons_of_pos keeps, List.splitOn_cons_eq_if_modifyHead, ih]
          simp [same, keeps]
        · rw [List.filter_cons_of_neg keeps, ih]
          simp [same, keeps]

theorem entriesOf_subset {list entry : Bytes} (mem : entry ∈ entriesOf list) : entry ⊆ list := by
  obtain ⟨piece, isPiece, rfl⟩ := List.mem_map.mp mem
  exact fun _ here => splitOn_subset isPiece (List.filter_sublist.subset here)

theorem compile_entries {list : Bytes} (some' : list ≠ []) :
    compile (some list) =
      { rules := (((entriesOf list).filter fun entry => entry ≠ []).filter
          fun entry => entry ≠ lit "*").map fun entry =>
            ⟨lower entry, if 42 ∈ entry then some (toPattern entry) else none⟩
        allowAny := ((entriesOf list).filter fun entry => entry ≠ []).contains (lit "*") } := by
  have split := @splitOn_filter 44 (fun c => !isSpace c) rfl list
  rw [compile, Option.filter_some, if_pos (decide_eq_true some')]
  dsimp only
  rw [split]
  rfl

theorem admits_iff {entry : Bytes} (noZero : (0 : UInt8) ∉ entry) (origin : Bytes) :
    Rule.admits ⟨lower entry, if 42 ∈ entry then some (toPattern entry) else none⟩ (lower origin) ↔
      Allows entry origin := by
  unfold Rule.admits Allows
  by_cases wildcard : 42 ∈ entry
  · rw [if_pos wildcard]
    dsimp only
    rw [toPattern_matches noZero]
    constructor
    · exact fun stands => .inr ⟨wildcard, stands⟩
    · rintro (⟨plain, -⟩ | ⟨-, stands⟩)
      · exact absurd wildcard plain
      · exact stands
  · rw [if_neg wildcard]
    dsimp only
    rw [beq_iff_eq]
    constructor
    · exact fun same => .inl ⟨wildcard, same.symm⟩
    · rintro (⟨-, same⟩ | ⟨star, -⟩)
      · exact same.symm
      · exact absurd star wildcard

theorem matchOrigin_one {compiled : Rules} (listed : compiled.allowAny = false) {origin : Bytes}
    (some' : origin ≠ []) {returned : Bytes} :
    matchOrigin compiled (some (.one origin)) = some returned ↔
      returned = origin ∧ ∃ rule ∈ compiled.rules, rule.admits (lower origin) := by
  have single : matchOrigin compiled (some (.one origin)) =
      if compiled.rules.any fun rule => rule.admits (lower origin) then some origin else none := by
    unfold matchOrigin
    split
    · contradiction
    · rename_i same
      cases same
      exact absurd rfl some'
    · rename_i other same
      cases same
      rw [listed]
      rfl
  rw [single, ← List.any_eq_true]
  split
  · rename_i admitted
    simp [admitted, eq_comm]
  · rename_i refused
    simp [refused]

/-! ## Calls one after the other -/

/-- `match`, with the rules that earlier calls left. -/
def matchNext (list : Option Bytes) (state : Option Rules) (origin : Option HeaderValue) :
    Option Rules × Option Bytes :=
  (some (loaded list state), matchOrigin (loaded list state) origin)

def rulesAfter (list : Option Bytes) (earlier : List (Option HeaderValue)) : Option Rules :=
  earlier.foldl (fun state origin => (matchNext list state origin).1) none

theorem loaded_rulesAfter (list : Option Bytes) (earlier : List (Option HeaderValue)) :
    loaded list (rulesAfter list earlier) = compile list := by
  have kept : ∀ state, loaded list state = compile list →
      loaded list (earlier.foldl (fun state origin => (matchNext list state origin).1) state) =
        compile list := by
    induction earlier with
    | nil => exact fun _ same => same
    | cons origin earlier ih => exact fun state same => ih _ same
  exact kept none rfl

/-- An origin is returned exactly if an entry of the list allows it, whichever were asked
    about before. -/
theorem allowlist_exact {list : EnvString} (some' : list.bytes ≠ [])
    (listed : lit "*" ∉ entriesOf list.bytes) (earlier : List (Option HeaderValue)) {origin : Bytes}
    (nonempty : origin ≠ []) {returned : Bytes} :
    (matchNext (some list.bytes) (rulesAfter (some list.bytes) earlier) (some (.one origin))).2 =
        some returned ↔
      returned = origin ∧ ∃ entry ∈ entriesOf list.bytes, Allows entry origin := by
  have closed : (compile (some list.bytes)).allowAny = false := by
    rw [compile_entries some']
    dsimp only
    rw [List.contains_eq_mem, decide_eq_false_iff_not]
    exact fun mem => listed (List.mem_of_mem_filter mem)
  rw [matchNext, loaded_rulesAfter, matchOrigin_one closed nonempty, compile_entries some']
  apply and_congr_right
  rintro -
  simp only [List.mem_map, List.mem_filter]
  constructor
  · rintro ⟨_, ⟨entry, ⟨⟨mem, -⟩, -⟩, rfl⟩, admits⟩
    exact ⟨entry, mem, (admits_iff (mt (entriesOf_subset mem ·) list.noZero) origin).mp admits⟩
  · rintro ⟨entry, mem, allows⟩
    have notEmpty : entry ≠ [] := by
      rintro rfl
      rcases allows with ⟨-, same⟩ | ⟨wildcard, -⟩
      · exact nonempty (List.map_eq_nil_iff.mp same.symm)
      · exact absurd wildcard List.not_mem_nil
    have notAny : entry ≠ lit "*" := by
      rintro rfl
      exact listed mem
    exact ⟨_, ⟨entry, ⟨⟨mem, decide_eq_true notEmpty⟩, decide_eq_true notAny⟩, rfl⟩,
      (admits_iff (mt (entriesOf_subset mem ·) list.noZero) origin).mpr allows⟩

namespace Sample

def allowed : EnvString where
  bytes := lit "https://app.example.com, https://*.example.org,http://localhost:*"
  noZero := by decide

end Sample

theorem allowlist_exact_sample :
    (matchNext (some Sample.allowed.bytes) (rulesAfter (some Sample.allowed.bytes) [none])
      (some (.one (lit "http://LOCALHOST:5173")))).2 = some (lit "http://LOCALHOST:5173") := by
  have port : StandsFor (lit "http://localhost" ++ lit ":*") (lit "http://localhost" ++ 58 :: lit "5173") := by
    exact .port (.self (by decide +kernel)) (by decide +kernel) (by decide +kernel)
  exact (allowlist_exact (by decide) (by decide) [none] (by decide)).mpr
    ⟨rfl, lit "http://localhost:*", by decide, .inr ⟨by decide, port⟩⟩

end E2eeProxy.Cors
