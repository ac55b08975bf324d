import E2eeProxy.Lua.JsonText
import E2eeProxy.Lib.Rounding

/-! # lua-cjson

The decoder makes tables of a document: it tells an empty array from an empty object
only if it is set to mark arrays. The encoder writes a table again. By default the
numbers are doubles and are written with 14 significant digits.
-/

namespace E2eeProxy.Lua

open Lib

namespace NumberCodec

variable (codec : NumberCodec)

/-- What becomes of a value; an unmarked empty table counts as an object. -/
def decoded (mark : Bool) (key : Option Bytes) (v : Value) : Value :=
  recode codec.read (fun _ array => array && mark) key v

/-- The decoder makes a table, which has one field for a key, of the text of `v`. -/
def Decodes (rt : Runtime) (mark : Bool) (s : Bytes) (v : Value) : Prop :=
  ∃ w, rt.decode s = some w ∧ Same w (codec.decoded mark none v) ∧
    ∀ fields, w = .obj fields → (fields.map Prod.fst).Nodup

/-- The encoder writes `v`, with the fields of a table in any order. -/
def Writes (rt : Runtime) (v : Value) : Prop := ∃ w, Same w v ∧ rt.encode v = codec.text w

/-- What was read and is written again. -/
theorem printed_decoded (mark : Bool) (key : Option Bytes) (v : Value) :
    codec.printed key (codec.decoded mark key v) =
      recode (fun q => codec.print (codec.read q)) (fun _ array => array && mark) key v :=
  recode_recode _ _ _ _ _ _

end NumberCodec

/-! ## Numbers -/

/-- The nearest double, where one from `2 ^ 1024` on stands for an infinity. -/
def toDouble (q : Rat) : Rat := roundFloat 53 (-1074) q

/-- `%.14g`. -/
def printDouble (q : Rat) : Rat := roundDigits 10 14 q

/-- The encoder is given the number and writes the same number. -/
def Survives (q : Rat) : Prop := |toDouble q| < 2 ^ 1024 ∧ printDouble (toDouble q) = q

/-- `q` is a number of the document. -/
def HasNumber (v : Value) (q : Rat) : Prop := ∃ key, (key, .num q) ∈ leaves none v

/-- What the encoder is asked to write has no infinity. -/
def finite (v : Value) : Bool :=
  (leaves none v).all fun e => match e.2 with
    | .num q => decide (|q| < 2 ^ 1024)
    | _ => true

/-- The defaults of lua-cjson. -/
structure Defaults (rt : Runtime) (codec : NumberCodec) : Prop where
  read : codec.read = toDouble
  print : codec.print = printDouble
  encodes : ∀ v, rt.encodes v = finite v
  writes : ∀ v, rt.encodes v = true → codec.Writes rt v

theorem finite_iff (v : Value) : finite v = true ↔ ∀ q, HasNumber v q → |q| < 2 ^ 1024 := by
  simp only [finite, List.all_eq_true]
  constructor
  · rintro all q ⟨key, mem⟩
    simpa using all _ mem
  · intro all e mem
    obtain ⟨key, x⟩ := e
    cases x with
    | num q => simpa using all q ⟨key, mem⟩
    | null | bool | str | arr | obj => rfl

theorem Same.hasNumber {v w : Value} (same : Same v w) (q : Rat) : HasNumber v q ↔ HasNumber w q := by
  simp only [HasNumber, same.leaves none]

theorem recode_eq_num {f : Rat → Rat} {l : Option Bytes → Bool → Bool} {key : Option Bytes}
    {v : Value} {q : Rat} (same : recode f l key v = .num q) : ∃ r, v = .num r ∧ q = f r := by
  cases v with
  | num r =>
      cases same
      exact ⟨r, rfl, rfl⟩
  | null | bool | str => cases same
  | arr items =>
      cases items with
      | nil => cases array : l key true <;> simp [recode, emptied, array] at same
      | cons x xs => cases same
  | obj fields =>
      cases fields with
      | nil => cases array : l key false <;> simp [recode, emptied, array] at same
      | cons e es => cases same

theorem hasNumber_recode {f : Rat → Rat} {l : Option Bytes → Bool → Bool} {v : Value} {q : Rat} :
    HasNumber (recode f l none v) q ↔ ∃ r, HasNumber v r ∧ q = f r := by
  simp only [HasNumber, mem_leaves_recode]
  constructor
  · rintro ⟨key, ⟨key', x⟩, mem, same⟩
    obtain ⟨rfl, value⟩ := Prod.mk.inj same
    obtain ⟨r, rfl, rfl⟩ := recode_eq_num value.symm
    exact ⟨r, ⟨_, mem⟩, rfl⟩
  · rintro ⟨r, ⟨key, mem⟩, rfl⟩
    exact ⟨key, (key, .num r), mem, rfl⟩

/-- A codec that only changes numbers keeps a value exactly when it keeps its numbers. -/
theorem same_numbers_iff (f : Rat → Rat) (v : Value) :
    Same (recode f (fun _ array => array) none v) v ↔ ∀ q, HasNumber v q → f q = q := by
  rw [same_recode_iff]
  constructor
  · rintro kept q ⟨key, mem⟩
    have same := kept _ mem
    simpa [recode] using same
  · intro kept e mem
    have leaf := isLeaf_of_mem none v e mem
    obtain ⟨key, x⟩ := e
    cases x with
    | num q => rw [recode, kept q ⟨key, mem⟩]
    | null | bool | str => rfl
    | arr items =>
        cases items with
        | nil => rfl
        | cons x xs => cases leaf
    | obj fields =>
        cases fields with
        | nil => rfl
        | cons f fs => cases leaf

/-- In the range of full precision the finite numbers with at most 14 digits survive. -/
theorem survives_iff {q : Rat} (normal : (2 : Rat) ^ (-1022 : ℤ) ≤ |q|) :
    Survives q ↔ |toDouble q| < 2 ^ 1024 ∧ HasDigits 10 14 q := by
  have error : |toDouble q - q| * 2 ^ 53 ≤ |q| := by
    apply roundFloat_near
    exact_mod_cast normal
  constructor
  · rintro ⟨finite, same⟩
    refine ⟨finite, ?_⟩
    rw [← same]
    exact roundDigits_hasDigits (by norm_num) (by norm_num) _
  · rintro ⟨finite, digits⟩
    refine ⟨finite, roundDigits_of_near (by norm_num) digits ?_⟩
    have triangle := abs_sub_abs_le_abs_sub q (toDouble q)
    rw [abs_sub_comm] at triangle
    have nonneg := abs_nonneg (toDouble q - q)
    push_cast
    linarith

theorem survives_zero : Survives 0 := by
  constructor <;> decide +kernel

/-! ## A codec -/

namespace Sample

/-- A spelling of any number; no numeral of JSON begins with `+`. -/
def spelled (q : Rat) : Bytes :=
  43 :: (List.replicate q.num.natAbs 49 ++ List.replicate q.den 50 ++
    if q.num < 0 then [45] else [])

theorem count_ones (q : Rat) : (spelled q).count 49 = q.num.natAbs := by
  unfold spelled
  split <;> simp [List.count_replicate]

theorem count_twos (q : Rat) : (spelled q).count 50 = q.den := by
  unfold spelled
  split <;> simp [List.count_replicate]

theorem count_sign (q : Rat) : (spelled q).count 45 = if q.num < 0 then 1 else 0 := by
  unfold spelled
  split <;> simp [List.count_replicate]

theorem spelled_unique {q r : Rat} (same : spelled q = spelled r) : q = r := by
  have size : q.num.natAbs = r.num.natAbs := by rw [← count_ones, same, count_ones]
  have den : q.den = r.den := by rw [← count_twos, same, count_twos]
  have sign : (if q.num < 0 then 1 else 0) = if r.num < 0 then 1 else 0 := by
    rw [← count_sign, same, count_sign]
  apply Rat.ext
  · split at sign <;> split at sign <;> omega
  · exact den

theorem spelled_bytes (q : Rat) : ∀ c ∈ spelled q, isNumeralByte c = true := by
  intro c mem
  simp only [spelled, List.mem_cons, List.mem_append, List.mem_replicate] at mem
  rcases mem with rfl | (⟨-, rfl⟩ | ⟨-, rfl⟩) | sign
  · rfl
  · rfl
  · rfl
  · split at sign
    · cases List.mem_singleton.mp sign
      rfl
    · cases sign

/-- The numeral of a number as it is printed, by lua-cjson's for two of them. -/
def numeral (q : Rat) : Bytes :=
  if q = 1 then lit "1"
  else if q = 12345678901235000 then lit "1.2345678901235e+16"
  else spelled q

theorem numeral_unique {q r : Rat} (same : numeral q = numeral r) : q = r := by
  unfold numeral at same
  split_ifs at same with h₁ h₂ h₃ h₄ h₅ h₆ h₇
  · rw [h₁, h₂]
  · cases same
  · cases same
  · cases same
  · rw [h₄, h₆]
  · cases same
  · cases same
  · cases same
  · exact spelled_unique same

def codec : NumberCodec where
  read := toDouble
  print := printDouble
  numeral q := numeral (printDouble q)
  numeral_ne_nil q := by
    unfold numeral
    split_ifs <;> exact List.cons_ne_nil _ _
  numeral_bytes q := by
    unfold numeral
    split_ifs
    · decide +kernel
    · decide +kernel
    · exact spelled_bytes _
  numeral_unique q r same := numeral_unique same

/-- lua-cjson for the given documents. -/
def cjson (documents : List (Bytes × Value)) : Runtime :=
  { Runtime.ofDocuments documents with encode := codec.text, encodes := finite }

theorem defaults (documents : List (Bytes × Value)) : Defaults (cjson documents) codec where
  read := rfl
  print := rfl
  encodes _ := rfl
  writes v _ := ⟨v, .refl v, rfl⟩

end Sample

end E2eeProxy.Lua
