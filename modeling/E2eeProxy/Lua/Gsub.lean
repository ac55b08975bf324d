import E2eeProxy.Lua.Value

/-! # Replacing a plain pattern

`s:gsub(p, repl)` for a pattern without magic characters. What it puts in is the
same for every match, as the match is always the pattern itself.
-/

namespace E2eeProxy.Lua

open Lib

/-- Puts `r` where `p` stands; `skip` bytes belong to a match that was replaced. -/
def replaceAll (p r : Bytes) : Nat → Bytes → Bytes
  | _, [] => []
  | skip + 1, _ :: s => replaceAll p r skip s
  | 0, c :: s =>
      if p.isPrefixOf (c :: s) then r ++ replaceAll p r (p.length - 1) s
      else c :: replaceAll p r 0 s

/-- A replacement string: `%0` and `%1` stand for the match, other digits for
    captures that there are not, and `%` before another byte for that byte. -/
def expand (p : Bytes) : Bytes → LuaM Bytes
  | [] => .ok []
  | [37] => .ok [0]
  | 37 :: c :: s => do
      let rest ← expand p s
      if c = 48 ∨ c = 49 then return p ++ rest
      else if 50 ≤ c ∧ c ≤ 57 then .error .badArgument
      else return c :: rest
  | c :: s => do return c :: (← expand p s)

/-- What a replacement table says; `nil` and `false` keep the match. -/
def tableReplacement (rt : Runtime) (p : Bytes) : Option Value → LuaM Bytes
  | none | some (.bool false) => .ok p
  | some (.str s) => .ok s
  | some (.num q) => .ok (rt.tostringNumber q)
  | some (.null) | some (.bool true) | some (.arr _) | some (.obj _) => .error .badArgument

def gsub (rt : Runtime) (p : Bytes) (repl : Value) (s : Bytes) : LuaM Bytes :=
  let substitute (replacement : LuaM Bytes) : LuaM Bytes :=
    if occurs p s then do return replaceAll p (← replacement) 0 s else .ok s
  match repl with
  | .str r => substitute (expand p r)
  | .num q => substitute (expand p (rt.tostringNumber q))
  | .obj fields => substitute (tableReplacement rt p (fields.lookup p))
  | .arr _ => .ok s
  | .null | .bool _ => .error .badArgument

theorem replaceAll_skip (p r a s : Bytes) : replaceAll p r a.length (a ++ s) = replaceAll p r 0 s := by
  induction a with
  | nil => rfl
  | cons c a ih => exact ih

theorem replaceAll_match (p r : Bytes) (c : UInt8) (s : Bytes) :
    replaceAll (c :: p) r 0 (c :: p ++ s) = r ++ replaceAll (c :: p) r 0 s := by
  have here : (c :: p).isPrefixOf (c :: (p ++ s)) = true :=
    List.isPrefixOf_iff_prefix.mpr (List.prefix_append (c :: p) s)
  rw [List.cons_append, replaceAll, if_pos here]
  exact congrArg (r ++ ·) (replaceAll_skip (c :: p) r p s)

theorem replaceAll_step {p s : Bytes} (r : Bytes) {c : UInt8} (miss : ¬ p <+: c :: s) :
    replaceAll p r 0 (c :: s) = c :: replaceAll p r 0 s := by
  rw [replaceAll, if_neg (by rwa [List.isPrefixOf_iff_prefix])]

/-- Nothing is replaced before the first byte of the pattern. -/
theorem replaceAll_pass {c : UInt8} (p r : Bytes) {a : Bytes} (absent : c ∉ a) (s : Bytes) :
    replaceAll (c :: p) r 0 (a ++ s) = a ++ replaceAll (c :: p) r 0 s := by
  induction a with
  | nil => rfl
  | cons d a ih =>
      rw [List.mem_cons, not_or] at absent
      obtain ⟨head, tail⟩ := absent
      have miss : ¬ c :: p <+: d :: (a ++ s) := fun starts => head (List.cons_prefix_cons.mp starts).1
      rw [List.cons_append, replaceAll_step r miss, ih tail, List.cons_append]

theorem replaceAll_absent {p s : Bytes} (r : Bytes) (absent : ¬ p <:+: s) : replaceAll p r 0 s = s := by
  induction s with
  | nil => rfl
  | cons c s ih =>
      have miss : ¬ p <+: c :: s := fun starts => absent starts.isInfix
      have tail : ¬ p <:+: s := fun inner => absent (List.infix_cons inner)
      rw [replaceAll_step r miss, ih tail]

theorem expand_plain (p : Bytes) {r : Bytes} (plain : (37 : UInt8) ∉ r) : expand p r = .ok r := by
  induction r with
  | nil => rfl
  | cons c r ih =>
      rw [List.mem_cons, not_or] at plain
      obtain ⟨head, tail⟩ := plain
      rw [expand.eq_def]
      split
      · contradiction
      · rename_i same
        exact absurd (List.cons.inj same).1.symm head
      · rename_i same
        exact absurd (List.cons.inj same).1.symm head
      · rename_i same
        cases same
        rw [ih tail]
        rfl

/-- With a plain replacement every match is replaced by it. -/
theorem gsub_plain (rt : Runtime) (p : Bytes) {r : Bytes} (plain : (37 : UInt8) ∉ r) (s : Bytes) :
    gsub rt p (.str r) s = .ok (replaceAll p r 0 s) := by
  simp only [gsub, expand_plain p plain]
  cases found : occurs p s with
  | true => rfl
  | false =>
      have absent : ¬ p <:+: s := by
        rw [← cut_isSome_iff]
        simpa [occurs] using found
      rw [replaceAll_absent r absent]
      rfl

end E2eeProxy.Lua
