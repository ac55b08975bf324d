import Mathlib.Data.List.DropRight
import Mathlib.Data.List.Forall2
import Mathlib.Data.Rat.Defs
import Mathlib.Tactic.Common
import E2eeProxy.Lib.ListSearch

/-! # Lua values as lua-cjson decodes them

A decoded JSON document is a `Value`; the Lua `nil` of an absent field is
`none`, so a Lua variable holds an `Option Value`. JSON `null` is `cjson.null`,
a light userdata: it is truthy and indexing it raises. Numbers are the
rationals a finite double denotes; what an infinity or a NaN is decoded to is
left open, save that it cannot be encoded. Object fields are listed in the order in
which `pairs` enumerates the table.
-/

namespace E2eeProxy.Lua

/-- A Lua string is a sequence of bytes. -/
abbrev Bytes := List UInt8

/-- The bytes of an ASCII literal of the source. -/
def lit (s : String) : Bytes := s.toList.map fun c => UInt8.ofNat c.toNat

inductive Value where
  | null
  | bool (b : Bool)
  | num (q : Rat)
  | str (s : Bytes)
  | arr (items : List Value)
  | obj (fields : List (Bytes × Value))

namespace Value

mutual
def decEq : (a b : Value) → Decidable (a = b)
  | .null, b => match b with
    | .null => isTrue rfl
    | .bool _ | .num _ | .str _ | .arr _ | .obj _ => isFalse nofun
  | .bool p, b => match b with
    | .bool q => decidable_of_iff (p = q) (by simp)
    | .null | .num _ | .str _ | .arr _ | .obj _ => isFalse nofun
  | .num p, b => match b with
    | .num q => decidable_of_iff (p = q) (by simp)
    | .null | .bool _ | .str _ | .arr _ | .obj _ => isFalse nofun
  | .str p, b => match b with
    | .str q => decidable_of_iff (p = q) (by simp)
    | .null | .bool _ | .num _ | .arr _ | .obj _ => isFalse nofun
  | .arr p, b => match b with
    | .arr q => @decidable_of_iff _ (p = q) (by simp) (decEqItems p q)
    | .null | .bool _ | .num _ | .str _ | .obj _ => isFalse nofun
  | .obj p, b => match b with
    | .obj q => @decidable_of_iff _ (p = q) (by simp) (decEqFields p q)
    | .null | .bool _ | .num _ | .str _ | .arr _ => isFalse nofun

def decEqItems : (a b : List Value) → Decidable (a = b)
  | [], [] => isTrue rfl
  | [], _ :: _ | _ :: _, [] => isFalse nofun
  | x :: xs, y :: ys =>
      @decidable_of_iff _ (x = y ∧ xs = ys) (by simp)
        (@instDecidableAnd _ _ (decEq x y) (decEqItems xs ys))

def decEqFields : (a b : List (Bytes × Value)) → Decidable (a = b)
  | [], [] => isTrue rfl
  | [], _ :: _ | _ :: _, [] => isFalse nofun
  | (k, x) :: xs, (l, y) :: ys =>
      @decidable_of_iff _ ((k = l ∧ x = y) ∧ xs = ys) (by simp)
        (@instDecidableAnd _ _ (@instDecidableAnd _ _ inferInstance (decEq x y))
          (decEqFields xs ys))
end

instance : DecidableEq Value := decEq

end Value

/-- The ways in which the modelled code can raise a Lua error. -/
inductive LuaError where
  /-- Indexing a number, a boolean, `nil` or `cjson.null`. -/
  | index
  /-- `#` of a value without a length. -/
  | length
  /-- `..` with a value that is neither a string nor a number. -/
  | concat
  /-- Arithmetic on a value that is not a number. -/
  | arith
  /-- Calling a value that is not a function. -/
  | call
  /-- A library function refused its argument. -/
  | badArgument
  deriving DecidableEq, Repr

/-- A computation that may raise. -/
abbrev LuaM (α : Type) := Except LuaError α

/-- Everything but `nil` and `false` is true. -/
def truthy : Option Value → Bool
  | none | some (.bool false) => false
  | _ => true

/-- `a or b` for an operand `a` that was just read. -/
def orElse (a : Option Value) (b : Value) : Value :=
  match a with
  | none | some (.bool false) => b
  | some v => v

/-- `v.key`. A string answers through the string library, which has none of the
    field names the proxy reads. -/
def index (v : Option Value) (key : String) : LuaM (Option Value) :=
  match v with
  | some (.obj fields) => .ok (fields.lookup (lit key))
  | some (.arr _) | some (.str _) => .ok none
  | none | some .null | some (.bool _) | some (.num _) => .error .index

/-- `v[1]`; the keys of a decoded object are strings. -/
def first (v : Option Value) : LuaM (Option Value) :=
  match v with
  | some (.arr items) => .ok items.head?
  | some (.obj _) | some (.str _) => .ok none
  | none | some .null | some (.bool _) | some (.num _) => .error .index

/-- `#v`; a decoded object has no array part. -/
def length (v : Value) : LuaM Nat :=
  match v with
  | .arr items => .ok items.length
  | .str s => .ok s.length
  | .obj _ => .ok 0
  | .null | .bool _ | .num _ => .error .length

/-- The elements `ipairs(v)` enumerates. -/
def ipairs (v : Option Value) : LuaM (List Value) :=
  match v with
  | some (.arr items) => .ok items
  | some (.obj _) => .ok []
  | _ => .error .badArgument

/-- `type(v) == "table"`. -/
def isTable : Option Value → Bool
  | some (.arr _) | some (.obj _) => true
  | _ => false

/-- A table constructor with these fields; a field that is `nil` is not there. -/
def table (fields : List (String × Option Value)) : Value :=
  .obj (fields.filterMap fun (key, v) => v.map fun v => (lit key, v))

/-- `v == "s"`. -/
def isLit (v : Option Value) (s : String) : Bool := v == some (.str (lit s))

/-- `type(v) == "string"`, with the string. -/
def asString : Option Value → Option Bytes
  | some (.str s) => some s
  | _ => none

/-- `%s` of a Lua pattern in the C locale. -/
def isSpace (c : UInt8) : Bool := c == 32 || (9 ≤ c && c ≤ 13)

/-- `s:match("^%s*(.-)%s*$")`, which always matches. -/
def trim (s : Bytes) : Bytes := (s.dropWhile isSpace).rdropWhile isSpace

/-- `s:match("^" .. p)` for a pattern `p` without magic characters. -/
def startsWith (p s : Bytes) : Bool := p.isPrefixOf s

/-- What the LuaJIT and lua-cjson runtime supply: number formatting and
    parsing, and the JSON codec. `encode` is the text of a value that `encodes`;
    lua-cjson refuses those with a NaN or an infinity in them. No modelled call
    passes it a document nested deeper than it decoded. -/
structure Runtime where
  tostringNumber : Rat → Bytes
  tonumber : Bytes → Option Rat
  decode : Bytes → Option Value
  encode : Value → Bytes
  encodes : Value → Bool := fun _ => true

namespace Runtime

variable (rt : Runtime)

/-- An operand of `..`. -/
def concatArg : Option Value → LuaM Bytes
  | some (.str s) => .ok s
  | some (.num q) => .ok (rt.tostringNumber q)
  | _ => .error .concat

/-- `table.concat(parts, sep)`. -/
def tableConcat (sep : Bytes) (parts : List Value) : LuaM Bytes := do
  let texts ← parts.mapM fun part => rt.concatArg (some part)
  return sep.intercalate texts

/-- `tonumber(v)`. -/
def toNumber : Option Value → Option Rat
  | some (.num q) => some q
  | some (.str s) => rt.tonumber s
  | _ => none

/-- `cjson.decode(s)` where the caller only asks `if not data`: a failure and
    the document `false` are the same to it. -/
def decodeTruthy (s : Bytes) : Option Value := (rt.decode s).filter fun v => truthy (some v)

/-- A runtime for integers whose codec knows the given documents and no others. -/
def ofDocuments (documents : List (Bytes × Value)) : Runtime where
  tostringNumber q := lit (toString q.num)
  tonumber _ := none
  decode s := documents.lookup s
  encode _ := []

end Runtime

@[simp] theorem truthy_none : truthy none = false := rfl

@[simp] theorem truthy_obj (fields : List (Bytes × Value)) : truthy (some (.obj fields)) = true := rfl

@[simp] theorem truthy_str (s : Bytes) : truthy (some (.str s)) = true := rfl

@[simp] theorem index_obj (fields : List (Bytes × Value)) (key : String) :
    index (some (.obj fields)) key = .ok (fields.lookup (lit key)) := rfl

theorem isLit_iff {v : Option Value} {s : String} : isLit v s = true ↔ v = some (.str (lit s)) := by
  simp [isLit]

/-- A value equal to one literal is not equal to another. -/
theorem isLit_other {v : Option Value} {s t : String} (same : isLit v s = true)
    (apart : lit s ≠ lit t) : isLit v t = false := by
  rw [isLit_iff.mp same]
  simpa [isLit] using apart

theorem decodeTruthy_eq_some {rt : Runtime} {s : Bytes} {v : Value} :
    rt.decodeTruthy s = some v ↔ rt.decode s = some v ∧ truthy (some v) := by
  simp [Runtime.decodeTruthy, Option.filter_eq_some_iff]

/-- A computation that succeeds does so step by step. -/
theorem bind_ok {α β : Type} {x : LuaM α} {f : α → LuaM β} {b : β} (h : x >>= f = .ok b) :
    ∃ a, x = .ok a ∧ f a = .ok b := by
  cases x with
  | error e => cases h
  | ok a => exact ⟨a, rfl, h⟩

theorem mapM_forall₂ {α β : Type} {f : α → LuaM β} {xs : List α} {ys : List β}
    (mapped : xs.mapM f = .ok ys) : List.Forall₂ (fun x y => f x = .ok y) xs ys := by
  induction xs generalizing ys with
  | nil =>
      cases mapped
      exact .nil
  | cons x xs ih =>
      rw [List.mapM_cons] at mapped
      cases head : f x with
      | error e => simp [head, bind, Except.bind] at mapped
      | ok y =>
          cases tail : xs.mapM f with
          | error e => simp [head, tail, bind, Except.bind] at mapped
          | ok rest =>
              simp only [head, tail, bind, Except.bind, pure, Except.pure, Except.ok.injEq] at mapped
              subst mapped
              exact .cons head (ih tail)

theorem mapM_total {α β : Type} {f : α → LuaM β} {P : β → Prop} {xs : List α}
    (each : ∀ x ∈ xs, ∃ y, f x = .ok y ∧ P y) : ∃ ys, xs.mapM f = .ok ys ∧ ∀ y ∈ ys, P y := by
  induction xs with
  | nil => exact ⟨[], rfl, by simp⟩
  | cons x xs ih =>
      obtain ⟨y, here, holds⟩ := each x List.mem_cons_self
      obtain ⟨ys, there, rest⟩ := ih fun z mem => each z (List.mem_cons_of_mem x mem)
      refine ⟨y :: ys, ?_, by simpa using ⟨holds, rest⟩⟩
      rw [List.mapM_cons, here, there]
      rfl

/-- An element of the result comes from one that was mapped. -/
theorem mapM_mem {α β : Type} {f : α → LuaM β} {xs : List α} {ys : List β}
    (mapped : xs.mapM f = .ok ys) {y : β} (mem : y ∈ ys) : ∃ x ∈ xs, f x = .ok y := by
  obtain ⟨i, there, rfl⟩ := List.mem_iff_getElem.mp mem
  have pairs := mapM_forall₂ mapped
  have here : i < xs.length := pairs.length_eq ▸ there
  exact ⟨xs[i], List.getElem_mem here, pairs.get here there⟩

end E2eeProxy.Lua
