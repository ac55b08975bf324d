import Mathlib.Data.List.Basic
import Mathlib.Data.List.Infix

/-! # Base64

Three bytes are four characters, the last of them filled up with `=`. The two
alphabets differ in the digits 62 and 63.
-/

namespace E2eeProxy.Lib.Base64

/-- The characters for 62 and 63, and those before them. -/
def digit (plus slash : UInt8) (n : ℕ) : UInt8 :=
  if n < 26 then UInt8.ofNat (65 + n)
  else if n < 52 then UInt8.ofNat (71 + n)
  else if n < 62 then UInt8.ofNat (n - 4)
  else if n = 62 then plus
  else slash

def encode (plus slash : UInt8) : List UInt8 → List UInt8
  | a :: b :: c :: rest =>
      digit plus slash (a.toNat / 4) :: digit plus slash (a.toNat % 4 * 16 + b.toNat / 16) ::
        digit plus slash (b.toNat % 16 * 4 + c.toNat / 64) :: digit plus slash (c.toNat % 64) ::
        encode plus slash rest
  | [a, b] =>
      [digit plus slash (a.toNat / 4), digit plus slash (a.toNat % 4 * 16 + b.toNat / 16),
        digit plus slash (b.toNat % 16 * 4), 61]
  | [a] => [digit plus slash (a.toNat / 4), digit plus slash (a.toNat % 4 * 16), 61, 61]
  | [] => []

def standard : List UInt8 → List UInt8 := encode 43 47

def urlSafe : List UInt8 → List UInt8 := encode 45 95

/-- The number a character of the standard alphabet stands for. -/
def value (c : UInt8) : Option ℕ :=
  if 65 ≤ c ∧ c ≤ 90 then some (c.toNat - 65)
  else if 97 ≤ c ∧ c ≤ 122 then some (c.toNat - 71)
  else if 48 ≤ c ∧ c ≤ 57 then some (c.toNat + 4)
  else if c = 43 then some 62
  else if c = 47 then some 63
  else none

/-- The bytes that values of six bits make; the bits left over are dropped. -/
def pack : List ℕ → Option (List UInt8)
  | a :: b :: c :: d :: rest =>
      (pack rest).map fun bytes =>
        UInt8.ofNat (a * 4 + b / 16) :: UInt8.ofNat (b % 16 * 16 + c / 4) ::
          UInt8.ofNat (c % 4 * 64 + d) :: bytes
  | [a, b, c] => some [UInt8.ofNat (a * 4 + b / 16), UInt8.ofNat (b % 16 * 16 + c / 4)]
  | [a, b] => some [UInt8.ofNat (a * 4 + b / 16)]
  | [_] => none
  | [] => some []

/-- Decodes what stands before the first `=`. -/
def decode (s : List UInt8) : Option (List UInt8) :=
  ((s.takeWhile fun c => c ≠ 61).mapM value).bind pack

/-- What a decoder for the standard alphabet does, wherever padding may stand. -/
structure IsDecoder (decode : List UInt8 → Option (List UInt8)) : Prop where
  decodes : ∀ bytes, decode (standard bytes) = some bytes
  alphabet : ∀ {s bytes}, decode s = some bytes → ∀ c ∈ s.takeWhile fun c => c ≠ 61, (value c).isSome
  /-- Two characters begin with the first byte. -/
  first : ∀ {a b : UInt8} {s bytes : List UInt8} {m n : ℕ}, value a = some m → value b = some n →
    decode (a :: b :: s) = some bytes → bytes.head? = some (UInt8.ofNat (m * 4 + n / 16))

/-! ## Digits -/

theorem value_digit {n : ℕ} (small : n < 64) : value (digit 43 47 n) = some n := by
  have all : ∀ n < 64, value (digit 43 47 n) = some n := by decide
  exact all n small

theorem value_lt {c : UInt8} {n : ℕ} (known : value c = some n) : n < 64 := by
  have all : ∀ k < 256, (value (UInt8.ofNat k)).all fun n => n < 64 := by decide +kernel
  have here := all c.toNat c.toNat_lt
  rw [UInt8.ofNat_toNat, known] at here
  exact of_decide_eq_true here

theorem digit_ne_pad {n : ℕ} (small : n < 64) :
    digit 43 47 n ≠ 61 ∧ digit 45 95 n ≠ 61 := by
  have all : ∀ n < 64, digit 43 47 n ≠ 61 ∧ digit 45 95 n ≠ 61 := by decide
  exact all n small

/-- A digit of the other alphabet as one of the standard alphabet. -/
def toStandard (c : UInt8) : UInt8 := if c = 45 then 43 else if c = 95 then 47 else c

theorem toStandard_digit {n : ℕ} (small : n < 64) : toStandard (digit 45 95 n) = digit 43 47 n := by
  have all : ∀ n < 64, toStandard (digit 45 95 n) = digit 43 47 n := by decide
  exact all n small

section Bounds

variable (a b : UInt8)

theorem first_small : a.toNat / 4 < 64 := by
  have := a.toNat_lt
  omega

theorem second_small : a.toNat % 4 * 16 + b.toNat / 16 < 64 := by
  have := b.toNat_lt
  omega

theorem second_alone : a.toNat % 4 * 16 < 64 := by omega

theorem third_small : a.toNat % 16 * 4 + b.toNat / 64 < 64 := by
  have := b.toNat_lt
  omega

theorem third_alone : a.toNat % 16 * 4 < 64 := by omega

theorem fourth_small : a.toNat % 64 < 64 := Nat.mod_lt _ (by decide)

end Bounds

/-! ## Encodings -/

/-- Padding stands at the end: the rest are digits. -/
theorem encode_split (plus slash : UInt8) (bytes : List UInt8) :
    ∃ values pads, encode plus slash bytes = values.map (digit plus slash) ++ pads ∧
      (∀ n ∈ values, n < 64) ∧ (∀ c ∈ pads, c = 61) ∧ pack values = some bytes := by
  induction bytes using encode.induct with
  | case1 a b c rest ih =>
      obtain ⟨values, pads, rest', small, pad, packed⟩ := ih
      refine ⟨_ :: _ :: _ :: _ :: values, pads, by rw [encode, rest']; rfl, ?_, pad, ?_⟩
      · simp only [List.forall_mem_cons]
        exact ⟨first_small a, second_small a b, third_small b c, fourth_small c, small⟩
      · have one : (a.toNat / 4) * 4 + (a.toNat % 4 * 16 + b.toNat / 16) / 16 = a.toNat := by
          have := b.toNat_lt
          omega
        have two : (a.toNat % 4 * 16 + b.toNat / 16) % 16 * 16 +
            (b.toNat % 16 * 4 + c.toNat / 64) / 4 = b.toNat := by
          have := b.toNat_lt
          have := c.toNat_lt
          omega
        have three : (b.toNat % 16 * 4 + c.toNat / 64) % 4 * 64 + c.toNat % 64 = c.toNat := by
          have := c.toNat_lt
          omega
        rw [pack, packed, one, two, three]
        simp only [Option.map_some, UInt8.ofNat_toNat]
  | case2 a b =>
      refine ⟨[_, _, _], [61], rfl, ?_, by simp, ?_⟩
      · simp only [List.forall_mem_cons]
        exact ⟨first_small a, second_small a b, third_alone b, fun _ none => nomatch none⟩
      · have one : (a.toNat / 4) * 4 + (a.toNat % 4 * 16 + b.toNat / 16) / 16 = a.toNat := by
          have := b.toNat_lt
          omega
        have two : (a.toNat % 4 * 16 + b.toNat / 16) % 16 * 16 + (b.toNat % 16 * 4) / 4 = b.toNat := by
          have := b.toNat_lt
          omega
        rw [pack, one, two, UInt8.ofNat_toNat, UInt8.ofNat_toNat]
  | case3 a =>
      refine ⟨[_, _], [61, 61], rfl, ?_, by simp, ?_⟩
      · simp only [List.forall_mem_cons]
        exact ⟨first_small a, second_alone a, fun _ none => nomatch none⟩
      · have one : (a.toNat / 4) * 4 + (a.toNat % 4 * 16) / 16 = a.toNat := by omega
        rw [pack, one, UInt8.ofNat_toNat]
  | case4 =>
      refine ⟨[], [], rfl, ?_, ?_, rfl⟩
      · exact fun _ none => (List.not_mem_nil none).elim
      · exact fun _ none => (List.not_mem_nil none).elim

theorem length_encode (plus slash : UInt8) (bytes : List UInt8) :
    bytes.length ≤ (encode plus slash bytes).length := by
  induction bytes using encode.induct with
  | case1 a b c rest ih =>
      simp only [encode, List.length_cons]
      omega
  | case2 a b => exact (by decide : 2 ≤ 4)
  | case3 a => exact (by decide : 1 ≤ 4)
  | case4 => exact le_refl 0

theorem toStandard_urlSafe (bytes : List UInt8) : (urlSafe bytes).map toStandard = standard bytes := by
  unfold urlSafe standard
  induction bytes using encode.induct with
  | case1 a b c rest ih =>
      simp only [encode, List.map_cons, ih, toStandard_digit (first_small a),
        toStandard_digit (second_small a b), toStandard_digit (third_small b c),
        toStandard_digit (fourth_small c)]
  | case2 a b =>
      simp only [encode, List.map_cons, List.map_nil, toStandard_digit (first_small a),
        toStandard_digit (second_small a b), toStandard_digit (third_alone b)]
      rfl
  | case3 a =>
      simp only [encode, List.map_cons, List.map_nil, toStandard_digit (first_small a),
        toStandard_digit (second_alone a)]
      rfl
  | case4 => rfl

/-- What stands before the padding. -/
theorem takeWhile_digits {plus slash : UInt8} {values : List ℕ} {pads : List UInt8}
    (digits : ∀ n ∈ values, digit plus slash n ≠ 61) (pad : ∀ c ∈ pads, c = 61) :
    (values.map (digit plus slash) ++ pads).takeWhile (fun c => c ≠ 61) =
      values.map (digit plus slash) := by
  induction values with
  | nil =>
      cases pads with
      | nil => rfl
      | cons c pads =>
          rw [List.map_nil, List.nil_append, List.takeWhile_cons, pad c List.mem_cons_self]
          rfl
  | cons n values ih =>
      have here := digits n List.mem_cons_self
      rw [List.map_cons, List.cons_append, List.takeWhile_cons, if_pos (decide_eq_true here),
        ih fun m mem => digits m (List.mem_cons_of_mem n mem)]

/-- A character that is no padding stands before it. -/
theorem mem_digits {bytes : List UInt8} {c : UInt8} (mem : c ∈ urlSafe bytes) (other : c ≠ 61) :
    c ∈ (urlSafe bytes).takeWhile fun c => c ≠ 61 := by
  obtain ⟨values, pads, split, small, pad, -⟩ := encode_split 45 95 bytes
  rw [urlSafe, split] at mem ⊢
  rw [takeWhile_digits (fun n mem => (digit_ne_pad (small n mem)).2) pad]
  exact (List.mem_append.mp mem).resolve_right fun there => other (pad c there)

theorem values_digits {values : List ℕ} (small : ∀ n ∈ values, n < 64) :
    (values.map (digit 43 47)).mapM value = some values := by
  induction values with
  | nil => rfl
  | cons n values ih =>
      obtain ⟨here, rest⟩ := List.forall_mem_cons.mp small
      rw [List.map_cons, List.mapM_cons, value_digit here, ih rest]
      rfl

theorem mapM_cons_some {a : UInt8} {l : List UInt8} {values : List ℕ}
    (read : (a :: l).mapM value = some values) :
    ∃ n rest, value a = some n ∧ l.mapM value = some rest ∧ values = n :: rest := by
  rw [List.mapM_cons] at read
  obtain ⟨n, here, read⟩ := Option.bind_eq_some_iff.mp read
  obtain ⟨rest, later, made⟩ := Option.bind_eq_some_iff.mp read
  cases made
  exact ⟨n, rest, here, later, rfl⟩

theorem mapM_value_isSome {l : List UInt8} {values : List ℕ} (read : l.mapM value = some values) :
    ∀ c ∈ l, (value c).isSome := by
  induction l generalizing values with
  | nil => exact fun _ none => (List.not_mem_nil none).elim
  | cons a l ih =>
      obtain ⟨n, rest, here, later, -⟩ := mapM_cons_some read
      intro c mem
      cases List.mem_cons.mp mem with
      | inl same => rw [same, here, Option.isSome_some]
      | inr mem => exact ih later c mem

theorem pack_head {a b : ℕ} {rest : List ℕ} {bytes : List UInt8}
    (packed : pack (a :: b :: rest) = some bytes) :
    bytes.head? = some (UInt8.ofNat (a * 4 + b / 16)) := by
  match rest with
  | [] | [_] =>
      cases packed
      rfl
  | c :: d :: rest =>
      rw [pack] at packed
      obtain ⟨more, -, rfl⟩ := Option.map_eq_some_iff.mp packed
      rfl

theorem isDecoder_decode : IsDecoder decode where
  decodes bytes := by
    obtain ⟨values, pads, split, small, pad, packed⟩ := encode_split 43 47 bytes
    rw [decode, standard, split, takeWhile_digits (fun n mem => (digit_ne_pad (small n mem)).1) pad,
      values_digits small, Option.bind_some, packed]
  alphabet := by
    intro s bytes decoded
    obtain ⟨values, read, -⟩ := Option.bind_eq_some_iff.mp decoded
    exact mapM_value_isSome read
  first := by
    intro a b s bytes m n first second decoded
    have isDigit (c : UInt8) (k : ℕ) (known : value c = some k) : decide (c ≠ 61) = true := by
      apply decide_eq_true
      rintro rfl
      cases known
    rw [decode, List.takeWhile_cons, if_pos (isDigit a m first), List.takeWhile_cons,
      if_pos (isDigit b n second)] at decoded
    obtain ⟨values, read, packed⟩ := Option.bind_eq_some_iff.mp decoded
    obtain ⟨m', _, first', more, rfl⟩ := mapM_cons_some read
    obtain ⟨n', rest, second', -, rfl⟩ := mapM_cons_some more
    cases first.symm.trans first'
    cases second.symm.trans second'
    exact pack_head packed

end E2eeProxy.Lib.Base64
