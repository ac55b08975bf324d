import Mathlib.Data.List.Sort
import E2eeProxy.Lib.Table
import E2eeProxy.Lua.Pattern

/-! # Metric series

A series is found by the text of its labels, so two label sets must not have one text.
That text is also what a scraper reads the labels back from.
-/

namespace E2eeProxy.Metrics

open Lua

/-- A table of labels, in the order in which `pairs` enumerates it. -/
structure Labels where
  entries : List (Bytes × Bytes)
  nodup : (entries.map Prod.fst).Nodup

/-- `escape` of a string. -/
def escape (v : Bytes) : Bytes :=
  let v := gsubEach (fun c => c == 92) (fun _ => lit "\\\\") v
  let v := gsubEach (fun c => c == 10) (fun _ => lit "\\n") v
  gsubEach (fun c => c == 34) (fun _ => lit "\\\"") v

/-- `labels[k]` for one of its keys. -/
def Labels.get (labels : Labels) (k : Bytes) : Bytes := (labels.entries.lookup k).getD []

def part (k v : Bytes) : Bytes := k ++ lit "=\"" ++ escape v ++ lit "\""

/-- `table.sort` compares strings byte by byte. -/
def Labels.keys (labels : Labels) : List Bytes :=
  (labels.entries.map Prod.fst).insertionSort fun a b => a ≤ b

def labelKey (labels : Option Labels) : Bytes :=
  match labels with
  | none => []
  | some labels => (lit ",").intercalate (labels.keys.map fun k => part k (labels.get k))

/-! ## Reading labels back -/

/-- Letters, digits and underscores. -/
def isNameByte (c : UInt8) : Bool :=
  (48 ≤ c && c ≤ 57) || (65 ≤ c && c ≤ 90) || (97 ≤ c && c ≤ 122) || c == 95

/-- A value up to the quote that ends it, and what follows. A backslash escapes a
    backslash, a quote or the letter of a newline, and no line breaks off inside. -/
def readValue : Bytes → Option (Bytes × Bytes)
  | [] | [92] => none
  | 92 :: d :: s =>
      if d = 92 then (readValue s).map fun (v, rest) => (92 :: v, rest)
      else if d = 110 then (readValue s).map fun (v, rest) => (10 :: v, rest)
      else if d = 34 then (readValue s).map fun (v, rest) => (34 :: v, rest)
      else none
  | c :: s =>
      if c = 34 then some ([], s)
      else if c = 10 then none
      else (readValue s).map fun (v, rest) => (c :: v, rest)

/-- One label, and what follows. -/
def readLabel (s : Bytes) : Option ((Bytes × Bytes) × Bytes) :=
  let name := s.takeWhile isNameByte
  let s := s.drop name.length
  if s.take 2 = lit "=\"" then (readValue (s.drop 2)).map fun (v, rest) => ((name, v), rest) else none

/-- Labels with commas between them. Each takes a byte at least, so the length of the
    text bounds the steps. -/
def readLabels : (steps : Nat) → Bytes → Option (List (Bytes × Bytes))
  | 0, s => if s = [] then some [] else none
  | steps + 1, s =>
      if s = [] then some []
      else do
        let (label, rest) ← readLabel s
        if rest = [] then return [label]
        else if rest.head? = some 44 then return label :: (← readLabels steps rest.tail)
        else none

/-! ## Escapes -/

def escapeByte (c : UInt8) : Bytes :=
  if c = 92 then lit "\\\\" else if c = 10 then lit "\\n" else if c = 34 then lit "\\\"" else [c]

/-- The three replacements do not meet each other's results. -/
theorem escape_eq (v : Bytes) : escape v = v.flatMap escapeByte := by
  unfold escape gsubEach
  dsimp only
  rw [List.flatMap_assoc, List.flatMap_assoc]
  apply List.flatMap_congr
  intro c mem
  unfold escapeByte
  by_cases backslash : c = 92
  · subst backslash
    rfl
  · by_cases newline : c = 10
    · subst newline
      rfl
    · simp [backslash, newline]

theorem readValue_escape (v rest : Bytes) : readValue (escape v ++ 34 :: rest) = some (v, rest) := by
  rw [escape_eq]
  induction v with
  | nil => rfl
  | cons c v ih =>
      rw [List.flatMap_cons, List.append_assoc, escapeByte]
      by_cases backslash : c = 92
      · subst backslash
        simp [lit, readValue, ih]
      · by_cases newline : c = 10
        · subst newline
          simp [lit, readValue, ih]
        · by_cases quote : c = 34
          · subst quote
            simp [lit, readValue, ih]
          · simp [backslash, newline, quote, readValue, ih]

theorem escape_noNewline (v : Bytes) : 10 ∉ escape v := by
  rw [escape_eq, List.mem_flatMap]
  rintro ⟨c, -, mem⟩
  unfold escapeByte at mem
  split at mem
  · exact absurd mem (by decide)
  · split at mem
    · exact absurd mem (by decide)
    · rename_i newline
      split at mem
      · exact absurd mem (by decide)
      · exact newline (List.mem_singleton.mp mem).symm

/-! ## Labels -/

/-- Letters, digits and underscores only. -/
def IsName (name : Bytes) : Prop := ∀ c ∈ name, isNameByte c

instance (name : Bytes) : Decidable (IsName name) := inferInstanceAs (Decidable (∀ c ∈ name, _))

theorem part_ne_nil (k v : Bytes) : part k v ≠ [] := by
  unfold part
  simp [lit]

theorem part_noNewline {k : Bytes} (isName : IsName k) (v : Bytes) : 10 ∉ part k v := by
  simp only [part, List.mem_append, not_or]
  refine ⟨⟨⟨fun mem => ?_, by decide⟩, escape_noNewline v⟩, by decide⟩
  exact absurd (isName 10 mem) (by decide)

theorem mem_intercalate {c : UInt8} {sep : Bytes} {texts : List Bytes}
    (mem : c ∈ sep.intercalate texts) : c ∈ sep ∨ ∃ text ∈ texts, c ∈ text := by
  induction texts with
  | nil => cases mem
  | cons text texts ih =>
      cases texts with
      | nil =>
          rw [List.intercalate, List.intersperse_singleton, List.flatten_singleton] at mem
          exact .inr ⟨text, List.mem_cons_self, mem⟩
      | cons next texts =>
          rw [List.intercalate, List.intersperse_cons_cons, List.flatten_cons, List.flatten_cons,
            List.mem_append, List.mem_append] at mem
          rcases mem with here | between | later
          · exact .inr ⟨text, List.mem_cons_self, here⟩
          · exact .inl between
          · rcases ih later with between | ⟨other, isText, inside⟩
            · exact .inl between
            · exact .inr ⟨other, List.mem_cons_of_mem _ isText, inside⟩

theorem readLabel_part {k : Bytes} (isName : IsName k) (v rest : Bytes) :
    readLabel (part k v ++ rest) = some ((k, v), rest) := by
  have text : part k v ++ rest = k ++ 61 :: 34 :: (escape v ++ 34 :: rest) := by
    simp [part, lit]
  have name : (k ++ 61 :: 34 :: (escape v ++ 34 :: rest)).takeWhile isNameByte = k := by
    rw [List.takeWhile_append_of_pos isName, List.takeWhile_cons_of_neg (by decide), List.append_nil]
  rw [text, readLabel, name]
  dsimp only
  rw [List.drop_left]
  have quote : (61 :: 34 :: (escape v ++ 34 :: rest)).take 2 = lit "=\"" := rfl
  rw [if_pos quote]
  simp [readValue_escape]

theorem readLabels_parts {pairs : List (Bytes × Bytes)} (names : ∀ p ∈ pairs, IsName p.1)
    {steps : Nat} (enough : ((lit ",").intercalate (pairs.map fun p => part p.1 p.2)).length ≤ steps) :
    readLabels steps ((lit ",").intercalate (pairs.map fun p => part p.1 p.2)) = some pairs := by
  induction pairs generalizing steps with
  | nil =>
      cases steps with
      | zero => rfl
      | succ steps => rfl
  | cons p pairs ih =>
      have first : IsName p.1 := names p List.mem_cons_self
      cases pairs with
      | nil =>
          have text : (lit ",").intercalate ([p].map fun p => part p.1 p.2) = part p.1 p.2 ++ [] := by
            simp [List.intercalate]
          rw [text] at enough ⊢
          cases steps with
          | zero => exact absurd (List.eq_nil_of_length_eq_zero (Nat.le_zero.mp enough)) (by simp [part_ne_nil])
          | succ steps =>
              rw [readLabels, if_neg (by simp [part_ne_nil]), readLabel_part first]
              rfl
      | cons q pairs =>
          have text : (lit ",").intercalate ((p :: q :: pairs).map fun p => part p.1 p.2) =
              part p.1 p.2 ++ 44 :: (lit ",").intercalate ((q :: pairs).map fun p => part p.1 p.2) := by
            simp [List.intercalate, lit]
          rw [text] at enough ⊢
          rw [List.length_append, List.length_cons] at enough
          cases steps with
          | zero => omega
          | succ steps =>
              have later := ih (fun p mem => names p (List.mem_cons_of_mem _ mem))
                (show _ ≤ steps by omega)
              rw [readLabels, if_neg (by simp [part_ne_nil]), readLabel_part first]
              generalize (lit ",").intercalate (List.map _ (q :: pairs)) = rest at later
              simp [later]

/-- The labels in the order of their names. -/
def Labels.sorted (labels : Labels) : List (Bytes × Bytes) :=
  labels.keys.map fun k => (k, labels.get k)

theorem keys_perm (labels : Labels) : labels.keys.Perm (labels.entries.map Prod.fst) :=
  List.perm_insertionSort _ _

theorem Labels.get_of_mem {labels : Labels} {k v : Bytes} (mem : (k, v) ∈ labels.entries) :
    labels.get k = v := by
  rw [Labels.get, Lib.lookup_lawful, Lib.lookup_eq_some_of_mem labels.nodup mem]
  rfl

theorem sorted_perm (labels : Labels) : labels.sorted.Perm labels.entries := by
  have again : (labels.entries.map Prod.fst).map (fun k => (k, labels.get k)) = labels.entries := by
    rw [List.map_map]
    conv_rhs => rw [← List.map_id labels.entries]
    apply List.map_congr_left
    rintro ⟨k, v⟩ mem
    simp [Labels.get_of_mem mem]
  conv_rhs => rw [← again]
  exact (keys_perm labels).map _

/-- The set that `labels` stands for; without any it is empty. -/
def labelSet (labels : Option Labels) : Labels := labels.getD ⟨[], List.nodup_nil⟩

theorem labelKey_eq (labels : Option Labels) :
    labelKey labels =
      (lit ",").intercalate ((labelSet labels).sorted.map fun p => part p.1 p.2) := by
  cases labels with
  | none => rfl
  | some labels => simp [labelKey, labelSet, Labels.sorted, Function.comp_def]

/-- Sorting forgets the order in which the labels were enumerated. -/
theorem sorted_eq {a b : Labels} (perm : a.entries.Perm b.entries) : a.sorted = b.sorted := by
  have keys : a.keys.Perm b.keys :=
    (keys_perm a).trans ((perm.map Prod.fst).trans (keys_perm b).symm)
  have same : a.keys = b.keys :=
    keys.eq_of_pairwise' (List.pairwise_insertionSort _ _) (List.pairwise_insertionSort _ _)
  unfold Labels.sorted
  rw [← same]
  apply List.map_congr_left
  intro k mem
  obtain ⟨⟨_, v⟩, there, rfl⟩ := List.mem_map.mp ((keys_perm a).mem_iff.mp mem)
  rw [Labels.get_of_mem there, Labels.get_of_mem (perm.mem_iff.mp there)]

theorem perm_iff {a b : Labels} :
    a.entries.Perm b.entries ↔ ∀ label, label ∈ a.entries ↔ label ∈ b.entries :=
  List.perm_ext_iff_of_nodup (.of_map _ a.nodup) (.of_map _ b.nodup)

section Named

variable {a b : Option Labels} (namesA : ∀ p ∈ (labelSet a).entries, IsName p.1)
  (namesB : ∀ p ∈ (labelSet b).entries, IsName p.1)

include namesA

/-- A key is read back as the labels it was made of. -/
theorem readLabels_labelKey :
    readLabels (labelKey a).length (labelKey a) = some (labelSet a).sorted := by
  rw [labelKey_eq]
  exact readLabels_parts (fun p mem => namesA p ((sorted_perm _).mem_iff.mp mem)) le_rfl

theorem labelKey_noNewline : 10 ∉ labelKey a := by
  rw [labelKey_eq]
  intro mem
  rcases mem_intercalate mem with comma | ⟨text, isPart, inside⟩
  · exact absurd comma (by decide)
  · obtain ⟨p, isLabel, rfl⟩ := List.mem_map.mp isPart
    exact part_noNewline (namesA p ((sorted_perm _).mem_iff.mp isLabel)) p.2 inside

include namesB

theorem labelKey_eq_iff :
    labelKey a = labelKey b ↔ ∀ label, label ∈ (labelSet a).entries ↔ label ∈ (labelSet b).entries := by
  rw [← perm_iff]
  constructor
  · intro same
    have readA := readLabels_labelKey namesA
    rw [same, readLabels_labelKey namesB] at readA
    have sorted := Option.some.inj readA
    exact (sorted_perm _).symm.trans (sorted ▸ sorted_perm _)
  · intro perm
    rw [labelKey_eq, labelKey_eq, sorted_eq perm]

end Named

/-- Two label sets have one key exactly if they are one set, and a key is a line that is
    read back as the set it was made of. -/
theorem label_key_faithful {a b : Option Labels} (namesA : ∀ p ∈ (labelSet a).entries, IsName p.1)
    (namesB : ∀ p ∈ (labelSet b).entries, IsName p.1) :
    (labelKey a = labelKey b ↔
        ∀ label, label ∈ (labelSet a).entries ↔ label ∈ (labelSet b).entries) ∧
      10 ∉ labelKey a ∧
      ∃ read, readLabels (labelKey a).length (labelKey a) = some read ∧
        read.Perm (labelSet a).entries :=
  ⟨labelKey_eq_iff namesA namesB, labelKey_noNewline namesA,
    (labelSet a).sorted, readLabels_labelKey namesA, sorted_perm _⟩

namespace Sample

/-- A value that imitates another label. -/
def forged : Labels where
  entries := [(lit "mode", lit "agent\",path=\"/v1")]
  nodup := by decide

def plain : Labels where
  entries := [(lit "path", lit "/v1"), (lit "mode", lit "agent")]
  nodup := by decide

theorem isName_mode : IsName (lit "mode") := by decide +kernel

theorem isName_path : IsName (lit "path") := by decide +kernel

end Sample

theorem label_key_faithful_sample : labelKey (some Sample.forged) ≠ labelKey (some Sample.plain) := by
  have faithful := label_key_faithful (a := some Sample.forged) (b := some Sample.plain)
    (fun p mem => by
      rw [List.mem_singleton.mp mem]
      exact Sample.isName_mode)
    (fun p mem => by
      rcases List.mem_pair.mp mem with rfl | rfl
      · exact Sample.isName_path
      · exact Sample.isName_mode)
  intro same
  have shared := (faithful.1.mp same (lit "path", lit "/v1")).mpr List.mem_cons_self
  exact absurd (congrArg Prod.fst (List.mem_singleton.mp shared)) (by decide)

end E2eeProxy.Metrics
