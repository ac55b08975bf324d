import E2eeProxy.Lua.Value
import E2eeProxy.Lib.Table

/-! # JSON values

Two documents have the same JSON value when their objects are the same maps: the
order of the fields is of no account, nor is a field whose key is repeated later.
A codec replaces the leaves of a document, and leaves its value as it was exactly
when each leaf that counts is replaced by itself.
-/

namespace E2eeProxy.Lua

open Lib

/-- The same JSON value. -/
inductive Same : Value → Value → Prop where
  | null : Same .null .null
  | bool (b : Bool) : Same (.bool b) (.bool b)
  | num (q : Rat) : Same (.num q) (.num q)
  | str (s : Bytes) : Same (.str s) (.str s)
  | arr {xs ys : List Value} (length : xs.length = ys.length)
      (each : ∀ x y, (x, y) ∈ xs.zip ys → Same x y) : Same (.arr xs) (.arr ys)
  | obj {fs gs : List (Bytes × Value)}
      (keys : ∀ k, lastLookup k fs = none ↔ lastLookup k gs = none)
      (each : ∀ k x y, lastLookup k fs = some x → lastLookup k gs = some y → Same x y) :
      Same (.obj fs) (.obj gs)

mutual
theorem Value.induct {P : Value → Prop} (null : P .null) (bool : ∀ b, P (.bool b))
    (num : ∀ q, P (.num q)) (str : ∀ s, P (.str s))
    (arr : ∀ items, (∀ x ∈ items, P x) → P (.arr items))
    (obj : ∀ fields, (∀ e ∈ fields, P e.2) → P (.obj fields)) (v : Value) : P v := by
  cases v with
  | null => exact null
  | bool b => exact bool b
  | num q => exact num q
  | str s => exact str s
  | arr items => exact arr items (Value.induct_items null bool num str arr obj items)
  | obj fields => exact obj fields (Value.induct_fields null bool num str arr obj fields)

theorem Value.induct_items {P : Value → Prop} (null : P .null) (bool : ∀ b, P (.bool b))
    (num : ∀ q, P (.num q)) (str : ∀ s, P (.str s))
    (arr : ∀ items, (∀ x ∈ items, P x) → P (.arr items))
    (obj : ∀ fields, (∀ e ∈ fields, P e.2) → P (.obj fields)) (items : List Value) :
    ∀ x ∈ items, P x := by
  cases items with
  | nil => simp
  | cons x xs =>
      have head := Value.induct null bool num str arr obj x
      have tail := Value.induct_items null bool num str arr obj xs
      exact List.forall_mem_cons.mpr ⟨head, tail⟩

theorem Value.induct_fields {P : Value → Prop} (null : P .null) (bool : ∀ b, P (.bool b))
    (num : ∀ q, P (.num q)) (str : ∀ s, P (.str s))
    (arr : ∀ items, (∀ x ∈ items, P x) → P (.arr items))
    (obj : ∀ fields, (∀ e ∈ fields, P e.2) → P (.obj fields)) (fields : List (Bytes × Value)) :
    ∀ e ∈ fields, P e.2 := by
  cases fields with
  | nil => simp
  | cons e fs =>
      obtain ⟨k, x⟩ := e
      have head := Value.induct null bool num str arr obj x
      have tail := Value.induct_fields null bool num str arr obj fs
      exact List.forall_mem_cons.mpr ⟨head, tail⟩
end

theorem same_num_iff {q r : Rat} : Same (.num q) (.num r) ↔ q = r := by
  constructor
  · rintro ⟨⟩
    rfl
  · rintro rfl
    exact .num q

theorem same_arr_iff {xs ys : List Value} :
    Same (.arr xs) (.arr ys) ↔ List.Forall₂ Same xs ys := by
  rw [List.forall₂_iff_zip]
  constructor
  · rintro (_ | _ | _ | _ | ⟨length, each⟩)
    exact ⟨length, fun mem => each _ _ mem⟩
  · rintro ⟨length, each⟩
    exact .arr length fun x y mem => each mem

theorem same_obj_iff {fs gs : List (Bytes × Value)} :
    Same (.obj fs) (.obj gs) ↔ ∀ k, Option.Rel Same (lastLookup k fs) (lastLookup k gs) := by
  constructor
  · rintro (_ | _ | _ | _ | _ | ⟨keys, each⟩) k
    cases left : lastLookup k fs with
    | none =>
        rw [(keys k).mp left]
        exact .none
    | some x =>
        cases right : lastLookup k gs with
        | none => simp [(keys k).mpr right] at left
        | some y => exact .some (each k x y left right)
  · intro related
    constructor
    · intro k
      have here := related k
      cases left : lastLookup k fs with
      | none =>
          rw [left] at here
          cases right : lastLookup k gs with
          | none => simp
          | some y => rw [right] at here; cases here
      | some x =>
          rw [left] at here
          cases right : lastLookup k gs with
          | none => rw [right] at here; cases here
          | some y => simp
    · intro k x y left right
      have here := related k
      rw [left, right] at here
      cases here
      assumption

theorem Same.refl (v : Value) : Same v v := by
  induction v using Value.induct with
  | null => exact .null
  | bool b => exact .bool b
  | num q => exact .num q
  | str s => exact .str s
  | arr items ih => exact same_arr_iff.mpr (List.forall₂_same.mpr ih)
  | obj fields ih =>
      refine .obj (fun _ => Iff.rfl) ?_
      intro k x y left right
      rw [left] at right
      cases right
      exact ih (k, x) (lastLookup_mem left)

theorem Same.symm {v w : Value} (same : Same v w) : Same w v := by
  induction same with
  | null => exact .null
  | bool b => exact .bool b
  | num q => exact .num q
  | str s => exact .str s
  | arr length each ih =>
      have flipped := List.forall₂_iff_zip.mpr ⟨length, fun mem => ih _ _ mem⟩
      exact same_arr_iff.mpr (List.Forall₂.flip flipped)
  | obj keys each ih =>
      refine .obj (fun k => (keys k).symm) ?_
      intro k y x left right
      exact ih k x y right left

theorem Same.trans {u v w : Value} (uv : Same u v) (vw : Same v w) : Same u w := by
  induction uv generalizing w with
  | null | bool | num | str => exact vw
  | arr length each ih =>
      cases vw with
      | arr length' each' =>
          refine .arr (length.trans length') ?_
          intro x z mem
          obtain ⟨i, h, same⟩ := List.mem_iff_getElem.mp mem
          rw [List.getElem_zip] at same
          cases same
          rw [List.length_zip] at h
          exact ih _ _ (List.mem_iff_getElem.mpr ⟨i, by rw [List.length_zip]; omega, List.getElem_zip⟩)
            (each' _ _ (List.mem_iff_getElem.mpr ⟨i, by rw [List.length_zip]; omega, List.getElem_zip⟩))
  | @obj fs gs keys each ih =>
      cases vw with
      | obj keys' each' =>
          refine .obj (fun k => (keys k).trans (keys' k)) ?_
          intro k x z left right
          cases middle : lastLookup k gs with
          | none => simp [(keys' k).mp middle] at right
          | some y => exact ih k x y left middle (each' k y z middle right)

theorem nil_iff_nil {fs gs : List (Bytes × Value)}
    (keys : ∀ k, lastLookup k fs = none ↔ lastLookup k gs = none) : fs = [] ↔ gs = [] := by
  simp only [lastLookup_eq_none_iff] at keys
  constructor
  · rintro rfl
    apply List.eq_nil_iff_forall_not_mem.mpr
    intro e mem
    exact (keys e.1).mp (by simp) (List.mem_map_of_mem mem)
  · rintro rfl
    apply List.eq_nil_iff_forall_not_mem.mpr
    intro e mem
    exact (keys e.1).mpr (by simp) (List.mem_map_of_mem mem)

/-- The value of a field of a document. -/
def jsonField (key : String) : Value → Option Value
  | .obj fields => lastLookup (lit key) fields
  | _ => none

theorem Same.jsonField {v w : Value} (same : Same v w) (key : String) :
    Option.Rel Same (jsonField key v) (jsonField key w) := by
  cases same with
  | null | bool | num | str | arr => exact .none
  | obj keys each => exact same_obj_iff.mp (.obj keys each) (lit key)

/-! ## Replacing leaves -/

/-- An empty container. -/
def emptied (array : Bool) : Value := if array then .arr [] else .obj []

section Recode

variable (number : Rat → Rat) (empty : Option Bytes → Bool → Bool)

mutual
/-- Replaces the numbers and the empty containers of a value; whether a container
    is to be an array may depend on the key whose value it is. -/
def recode (key : Option Bytes) : Value → Value
  | .num q => .num (number q)
  | .arr [] => emptied (empty key true)
  | .obj [] => emptied (empty key false)
  | .arr (x :: xs) => .arr (recode none x :: recodeItems xs)
  | .obj ((k, x) :: fields) => .obj ((k, recode (some k) x) :: recodeFields fields)
  | v => v

def recodeItems : List Value → List Value
  | [] => []
  | x :: xs => recode none x :: recodeItems xs

def recodeFields : List (Bytes × Value) → List (Bytes × Value)
  | [] => []
  | (k, x) :: fields => (k, recode (some k) x) :: recodeFields fields
end

end Recode

mutual
/-- The scalars and empty containers of a value that count, each with the key whose
    value it is. -/
def leaves (key : Option Bytes) : Value → List (Option Bytes × Value)
  | .arr (x :: xs) => leaves none x ++ leavesOfItems xs
  | .obj ((k, x) :: fields) =>
      (if (lastLookup k fields).isSome then [] else leaves (some k) x) ++ leavesOfFields fields
  | v => [(key, v)]

def leavesOfItems : List Value → List (Option Bytes × Value)
  | [] => []
  | x :: xs => leaves none x ++ leavesOfItems xs

def leavesOfFields : List (Bytes × Value) → List (Option Bytes × Value)
  | [] => []
  | (k, x) :: fields =>
      (if (lastLookup k fields).isSome then [] else leaves (some k) x) ++ leavesOfFields fields
end

/-- Neither an array nor an object with something in it. -/
def IsLeaf : Value → Prop
  | .arr (_ :: _) | .obj (_ :: _) => False
  | _ => True

theorem leavesOfItems_eq (xs : List Value) : leavesOfItems xs = xs.flatMap (leaves none) := by
  induction xs with
  | nil => rfl
  | cons x xs ih => rw [leavesOfItems, ih, List.flatMap_cons]

theorem mem_leavesOfFields {e : Option Bytes × Value} {fields : List (Bytes × Value)} :
    e ∈ leavesOfFields fields ↔ ∃ k x, lastLookup k fields = some x ∧ e ∈ leaves (some k) x := by
  induction fields with
  | nil => simp [leavesOfFields, lastLookup]
  | cons field fields ih =>
      obtain ⟨k, x⟩ := field
      rw [leavesOfFields, List.mem_append, ih]
      constructor
      · rintro (here | ⟨l, y, found, there⟩)
        · split at here
          · cases here
          · rename_i last
            have absent : k ∉ fields.map Prod.fst := by
              rwa [Option.not_isSome_iff_eq_none, lastLookup_eq_none_iff] at last
            exact ⟨k, x, by rw [lastLookup_cons, if_pos ⟨rfl, absent⟩], here⟩
        · have later : l ∈ fields.map Prod.fst := by
            by_contra absent
            rw [lastLookup_eq_none_iff.mpr absent] at found
            cases found
          exact ⟨l, y, by rw [lastLookup_cons, if_neg fun h => h.2 later, found], there⟩
      · rintro ⟨l, y, found, there⟩
        rw [lastLookup_cons] at found
        split at found
        · rename_i last
          obtain ⟨rfl, absent⟩ := last
          cases found
          rw [← lastLookup_eq_none_iff, ← Option.not_isSome_iff_eq_none] at absent
          exact .inl (by rwa [if_neg absent])
        · exact .inr ⟨l, y, found, there⟩

theorem leaves_arr {key : Option Bytes} {xs : List Value} (some : xs ≠ []) :
    leaves key (.arr xs) = xs.flatMap (leaves none) := by
  cases xs with
  | nil => contradiction
  | cons x xs => rw [leaves, leavesOfItems_eq, List.flatMap_cons]

theorem leaves_obj {key : Option Bytes} {fields : List (Bytes × Value)} (some : fields ≠ []) :
    leaves key (.obj fields) = leavesOfFields fields := by
  cases fields with
  | nil => contradiction
  | cons field fields => rfl

theorem isLeaf_of_mem (key : Option Bytes) (v : Value) : ∀ e ∈ leaves key v, IsLeaf e.2 := by
  induction v using Value.induct generalizing key with
  | null | bool | num | str => simp [leaves, IsLeaf]
  | arr items ih =>
      by_cases none : items = []
      · simp [none, leaves, IsLeaf]
      · intro e mem
        rw [leaves_arr none, List.mem_flatMap] at mem
        obtain ⟨x, held, mem⟩ := mem
        exact ih x held _ e mem
  | obj fields ih =>
      by_cases none : fields = []
      · simp [none, leaves, IsLeaf]
      · intro e mem
        rw [leaves_obj none, mem_leavesOfFields] at mem
        obtain ⟨k, x, found, mem⟩ := mem
        exact ih (k, x) (lastLookup_mem found) _ e mem

section Leaves

variable (f g : Rat → Rat) (l m : Option Bytes → Bool → Bool)

theorem recodeItems_eq (xs : List Value) : recodeItems f l xs = xs.map (recode f l none) := by
  induction xs with
  | nil => rfl
  | cons x xs ih => rw [recodeItems, ih, List.map_cons]

theorem recodeFields_eq (fields : List (Bytes × Value)) :
    recodeFields f l fields = fields.map fun e => (e.1, recode f l (some e.1) e.2) := by
  induction fields with
  | nil => rfl
  | cons e fields ih => rw [recodeFields, ih, List.map_cons]

theorem recode_arr {key : Option Bytes} {xs : List Value} (some : xs ≠ []) :
    recode f l key (.arr xs) = .arr (xs.map (recode f l none)) := by
  cases xs with
  | nil => contradiction
  | cons x xs => rw [recode, recodeItems_eq, List.map_cons]

theorem recode_obj {key : Option Bytes} {fields : List (Bytes × Value)} (some' : fields ≠ []) :
    recode f l key (.obj fields) =
      .obj (fields.map fun e => (e.1, recode f l (some e.1) e.2)) := by
  cases fields with
  | nil => contradiction
  | cons e fields => rw [recode, recodeFields_eq, List.map_cons]

theorem lastLookup_recode (k : Bytes) (fields : List (Bytes × Value)) :
    lastLookup k (fields.map fun e => (e.1, recode f l (some e.1) e.2)) =
      (lastLookup k fields).map (recode f l (some k)) :=
  lastLookup_mapEntry (fun k x => recode f l (some k) x) k fields

theorem jsonField_recode (k : String) (key : Option Bytes) (v : Value) :
    jsonField k (recode f l key v) = (jsonField k v).map (recode f l (some (lit k))) := by
  cases v with
  | null | bool | num | str => rfl
  | arr items =>
      cases items with
      | nil => cases array : l key true <;> simp [recode, emptied, array, jsonField, lastLookup]
      | cons x xs => rfl
  | obj fields =>
      cases fields with
      | nil => cases array : l key false <;> simp [recode, emptied, array, jsonField, lastLookup]
      | cons e fields =>
          rw [recode_obj _ _ (List.cons_ne_nil e fields)]
          exact lastLookup_recode f l (lit k) (e :: fields)

theorem recode_emptied (key : Option Bytes) (array : Bool) :
    recode f l key (emptied array) = emptied (l key array) := by
  cases array with
  | true => rfl
  | false => rfl

theorem same_empty_iff (key : Option Bytes) (array : Bool) :
    Same (recode f l key (emptied array)) (emptied array) ↔
      recode f l key (emptied array) = emptied array := by
  rw [recode_emptied]
  constructor
  · intro same
    cases array with
    | true =>
        cases replaced : l key true with
        | true => rfl
        | false => rw [replaced] at same; cases same
    | false =>
        cases replaced : l key false with
        | true => rw [replaced] at same; cases same
        | false => rfl
  · intro same
    rw [same]
    exact .refl _

/-- One codec after another is a codec. -/
theorem recode_recode (key : Option Bytes) (v : Value) :
    recode f l key (recode g m key v) =
      recode (fun q => f (g q)) (fun k array => l k (m k array)) key v := by
  induction v using Value.induct generalizing key with
  | null | bool | num | str => rfl
  | arr items ih =>
      by_cases none : items = []
      · rw [none]
        exact recode_emptied f l key _
      · rw [recode_arr _ _ none, recode_arr _ _ (by simpa using none), recode_arr _ _ none,
          List.map_map]
        congr 1
        exact List.map_congr_left fun x mem => ih x mem _
  | obj fields ih =>
      by_cases none : fields = []
      · rw [none]
        exact recode_emptied f l key _
      · rw [recode_obj _ _ none, recode_obj _ _ (by simpa using none), recode_obj _ _ none,
          List.map_map]
        congr 1
        apply List.map_congr_left
        intro e mem
        simp [ih e mem]

/-- The leaves that count are replaced one by one. -/
theorem mem_leaves_recode (key : Option Bytes) (v : Value) (e : Option Bytes × Value) :
    e ∈ leaves key (recode f l key v) ↔
      ∃ d ∈ leaves key v, e = (d.1, recode f l d.1 d.2) := by
  induction v using Value.induct generalizing key with
  | null | bool | num | str => simp [leaves, recode]
  | arr items ih =>
      by_cases none : items = []
      · subst none
        cases array : l key true with
        | true => simp [leaves, recode, emptied, array]
        | false => simp [leaves, recode, emptied, array]
      · rw [recode_arr _ _ none, leaves_arr (by simpa using none), leaves_arr none]
        simp only [List.mem_flatMap, List.mem_map, exists_exists_and_eq_and]
        constructor
        · rintro ⟨x, mem, there⟩
          obtain ⟨d, held, same⟩ := (ih x mem _).mp there
          exact ⟨d, ⟨x, mem, held⟩, same⟩
        · rintro ⟨d, ⟨x, mem, held⟩, same⟩
          exact ⟨x, mem, (ih x mem _).mpr ⟨d, held, same⟩⟩
  | obj fields ih =>
      by_cases none : fields = []
      · subst none
        cases array : l key false with
        | true => simp [leaves, recode, emptied, array]
        | false => simp [leaves, recode, emptied, array]
      · rw [recode_obj _ _ none, leaves_obj (by simpa using none), leaves_obj none]
        simp only [mem_leavesOfFields, lastLookup_recode, Option.map_eq_some_iff]
        constructor
        · rintro ⟨k, _, ⟨x, found, rfl⟩, there⟩
          obtain ⟨d, held, same⟩ := (ih (k, x) (lastLookup_mem found) _).mp there
          exact ⟨d, ⟨k, x, found, held⟩, same⟩
        · rintro ⟨d, ⟨k, x, found, held⟩, same⟩
          exact ⟨k, _, ⟨x, found, rfl⟩, (ih (k, x) (lastLookup_mem found) _).mpr ⟨d, held, same⟩⟩

/-- A codec does not tell documents with the same value apart. -/
theorem Same.recode {v w : Value} (same : Same v w) (key : Option Bytes) :
    Same (recode f l key v) (recode f l key w) := by
  induction same generalizing key with
  | null => exact .null
  | bool b => exact .bool b
  | num q => exact .num (f q)
  | str s => exact .str s
  | @arr xs ys length each ih =>
      by_cases none : xs = []
      · subst none
        rw [List.length_eq_zero_iff.mp length.symm]
        exact .refl _
      · have none' : ys ≠ [] := by
          rintro rfl
          exact none (List.length_eq_zero_iff.mp length)
        rw [recode_arr _ _ none, recode_arr _ _ none', same_arr_iff, List.forall₂_map_left_iff,
          List.forall₂_map_right_iff, List.forall₂_iff_zip]
        exact ⟨length, fun mem => ih _ _ mem _⟩
  | @obj fs gs keys each ih =>
      by_cases none : fs = []
      · rw [none, (nil_iff_nil keys).mp none]
        exact .refl _
      · have none' : gs ≠ [] := fun h => none ((nil_iff_nil keys).mpr h)
        rw [recode_obj _ _ none, recode_obj _ _ none']
        refine .obj (fun k => ?_) ?_
        · rw [lastLookup_recode, lastLookup_recode, Option.map_eq_none_iff,
            Option.map_eq_none_iff]
          exact keys k
        · intro k x y left right
          rw [lastLookup_recode, Option.map_eq_some_iff] at left right
          obtain ⟨x, held, rfl⟩ := left
          obtain ⟨y, held', rfl⟩ := right
          exact ih k x y held held' _

/-- A codec keeps the value of a document exactly when it keeps each leaf that counts. -/
theorem same_recode_iff (key : Option Bytes) (v : Value) :
    Same (Lua.recode f l key v) v ↔ ∀ e ∈ leaves key v, Lua.recode f l e.1 e.2 = e.2 := by
  induction v using Value.induct generalizing key with
  | null => simpa [leaves, Lua.recode] using Same.null
  | bool b => simpa [leaves, Lua.recode] using Same.bool b
  | num q =>
      simp only [leaves, Lua.recode, List.forall_mem_singleton, Value.num.injEq]
      exact same_num_iff
  | str s => simpa [leaves, Lua.recode] using Same.str s
  | arr items ih =>
      by_cases none : items = []
      · subst none
        simp only [leaves, List.forall_mem_singleton]
        exact same_empty_iff f l key true
      · rw [recode_arr _ _ none, leaves_arr none, same_arr_iff, List.forall₂_map_left_iff,
          List.forall₂_same]
        simp only [List.mem_flatMap]
        constructor
        · rintro each e ⟨x, mem, there⟩
          exact (ih x mem _).mp (each x mem) e there
        · intro each x mem
          exact (ih x mem _).mpr fun e there => each e ⟨x, mem, there⟩
  | obj fields ih =>
      by_cases none : fields = []
      · subst none
        simp only [leaves, List.forall_mem_singleton]
        exact same_empty_iff f l key false
      · rw [recode_obj _ _ none, leaves_obj none, same_obj_iff]
        simp only [lastLookup_recode, mem_leavesOfFields]
        constructor
        · rintro each e ⟨k, x, found, there⟩
          have here := each k
          rw [found] at here
          cases here with
          | some same => exact (ih (k, x) (lastLookup_mem found) _).mp same e there
        · intro each k
          cases found : lastLookup k fields with
          | none => exact .none
          | some x =>
              exact .some ((ih (k, x) (lastLookup_mem found) _).mpr
                fun e there => each e ⟨k, x, found, there⟩)

end Leaves

theorem exists_mem_of_forall₂ {α β : Type} {P : α → Prop} {Q : β → Prop} {xs : List α} {ys : List β}
    (pairs : List.Forall₂ (fun x y => P x ↔ Q y) xs ys) : (∃ x ∈ xs, P x) ↔ ∃ y ∈ ys, Q y := by
  induction pairs with
  | nil => simp
  | cons head tail ih => simp [head, ih]

/-- Documents with the same value have the same leaves. -/
theorem Same.leaves {v w : Value} (same : Same v w) (key : Option Bytes)
    (e : Option Bytes × Value) : e ∈ leaves key v ↔ e ∈ leaves key w := by
  induction same generalizing key with
  | null | bool | num | str => exact Iff.rfl
  | @arr xs ys length each ih =>
      by_cases none : xs = []
      · subst none
        rw [List.length_eq_zero_iff.mp length.symm]
      · have none' : ys ≠ [] := by
          rintro rfl
          exact none (List.length_eq_zero_iff.mp length)
        rw [leaves_arr none, leaves_arr none', List.mem_flatMap, List.mem_flatMap]
        have pairs := List.forall₂_iff_zip.mpr ⟨length, fun mem => ih _ _ mem Option.none⟩
        exact exists_mem_of_forall₂ pairs
  | @obj fs gs keys each ih =>
      by_cases none : fs = []
      · rw [none, (nil_iff_nil keys).mp none]
      · have none' : gs ≠ [] := fun h => none ((nil_iff_nil keys).mpr h)
        rw [leaves_obj none, leaves_obj none', mem_leavesOfFields, mem_leavesOfFields]
        constructor
        · rintro ⟨k, x, left, there⟩
          cases right : lastLookup k gs with
          | none => simp [(keys k).mpr right] at left
          | some y => exact ⟨k, y, right, (ih k x y left right _).mp there⟩
        · rintro ⟨k, y, right, there⟩
          cases left : lastLookup k fs with
          | none => simp [(keys k).mp left] at right
          | some x => exact ⟨k, x, left, (ih k x y left right _).mpr there⟩

end E2eeProxy.Lua
