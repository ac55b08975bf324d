import E2eeProxy.Lua.Json

/-! # The text of a JSON value

What lua-cjson writes, without any white space. A text has one value only, so what
a reader of the text finds there is a matter of the text alone. The numerals are a
parameter: of them it matters which numbers they stand for.
-/

namespace E2eeProxy.Lua

open Lib

abbrev quote : UInt8 := 34
abbrev comma : UInt8 := 44
abbrev colon : UInt8 := 58
abbrev backslash : UInt8 := 92
abbrev openArr : UInt8 := 91
abbrev closeArr : UInt8 := 93
abbrev openObj : UInt8 := 123
abbrev closeObj : UInt8 := 125

def hexDigit (n : UInt8) : UInt8 := (lit "0123456789abcdef").getD n.toNat 48

/-- The bytes that are escaped by a letter. -/
def escapes : List (UInt8 × UInt8) :=
  [(34, 34), (92, 92), (47, 47), (8, 98), (9, 116), (10, 110), (12, 102), (13, 114)]

/-- `char2escape`. -/
def escapeByte (c : UInt8) : Bytes :=
  match escapes.lookup c with
  | some letter => [backslash, letter]
  | none =>
      if c < 32 ∨ c = 127 then [backslash, 117, 48, 48, hexDigit (c / 16), hexDigit (c % 16)]
      else [c]

def escaped (s : Bytes) : Bytes := s.flatMap escapeByte

def quoted (s : Bytes) : Bytes := quote :: escaped s ++ [quote]

/-- The bytes of a numeral: digits, signs, the point and `e`. -/
def isNumeralByte (c : UInt8) : Bool :=
  (48 ≤ c && c ≤ 57) || c == 43 || c == 45 || c == 46 || c == 101

/-- How a codec treats numbers: the double it takes a number for, the numeral it
    writes for a double and the number this stands for. -/
structure NumberCodec where
  read : Rat → Rat
  print : Rat → Rat
  numeral : Rat → Bytes
  numeral_ne_nil : ∀ q, numeral q ≠ []
  numeral_bytes : ∀ q, ∀ c ∈ numeral q, isNumeralByte c = true
  numeral_unique : ∀ q r, numeral q = numeral r → print q = print r

namespace NumberCodec

variable (codec : NumberCodec)

mutual
/-- `cjson.encode`. -/
def text : Value → Bytes
  | .null => lit "null"
  | .bool b => if b then lit "true" else lit "false"
  | .num q => codec.numeral q
  | .str s => quoted s
  | .arr [] => [openArr, closeArr]
  | .arr (x :: xs) => openArr :: text x ++ textOfItems xs
  | .obj [] => [openObj, closeObj]
  | .obj ((k, x) :: fields) => openObj :: quoted k ++ colon :: text x ++ textOfFields fields

def textOfItems : List Value → Bytes
  | [] => [closeArr]
  | x :: xs => comma :: text x ++ textOfItems xs

def textOfFields : List (Bytes × Value) → Bytes
  | [] => [closeObj]
  | (k, x) :: fields => comma :: quoted k ++ colon :: text x ++ textOfFields fields
end

/-- The value of what is written for a value. -/
def printed (key : Option Bytes) (v : Value) : Value := recode codec.print (fun _ array => array) key v

/-- `w` is the JSON value of the text `s`. -/
def Denotes (s : Bytes) (w : Value) : Prop := ∃ v, s = codec.text v ∧ w = codec.printed none v

end NumberCodec

/-! ## Strings -/

theorem hexDigit_ne_quote (n : UInt8) : hexDigit n ≠ quote := by
  unfold hexDigit
  rw [List.getD_eq_getElem?_getD]
  cases found : (lit "0123456789abcdef")[n.toNat]? with
  | none => decide
  | some c =>
      have mem : c ∈ lit "0123456789abcdef" := List.mem_of_getElem? found
      rintro rfl
      revert mem
      decide

theorem mem_escapes {c letter : UInt8} (found : escapes.lookup c = some letter) :
    (c, letter) ∈ escapes := mem_of_lookup_eq_some found

/-- A byte is written as it is, as an escaped quote or as an escape without a quote. -/
theorem escapeByte_cases (c : UInt8) :
    (escapeByte c = [c] ∧ c ≠ quote ∧ c ≠ backslash) ∨
      (escapeByte c = [backslash, quote] ∧ c = quote) ∨
      ∃ tail, escapeByte c = backslash :: tail ∧ quote ∉ tail := by
  unfold escapeByte
  cases found : escapes.lookup c with
  | some letter =>
      have mem := mem_escapes found
      simp only [escapes, List.mem_cons, Prod.mk.injEq, List.not_mem_nil, or_false] at mem
      rcases mem with ⟨rfl, rfl⟩ | ⟨rfl, rfl⟩ | ⟨rfl, rfl⟩ | ⟨rfl, rfl⟩ | ⟨rfl, rfl⟩ | ⟨rfl, rfl⟩ |
        ⟨rfl, rfl⟩ | ⟨rfl, rfl⟩ <;> simp [quote]
  | none =>
      have notQuote : c ≠ quote := by
        rintro rfl
        cases found
      have notBackslash : c ≠ backslash := by
        rintro rfl
        cases found
      by_cases control : c < 32 ∨ c = 127
      · right
        right
        refine ⟨[117, 48, 48, hexDigit (c / 16), hexDigit (c % 16)], if_pos control, ?_⟩
        have high := hexDigit_ne_quote (c / 16)
        have low := hexDigit_ne_quote (c % 16)
        simp only [List.mem_cons, high.symm, low.symm, List.not_mem_nil, or_false]
        decide
      · left
        exact ⟨if_neg control, notQuote, notBackslash⟩

/-- Reads one escaped byte. -/
def unescapeByte : Bytes → Option (UInt8 × Bytes)
  | [] => none
  | c :: rest =>
      if c ≠ backslash then some (c, rest)
      else match rest with
        | 117 :: _ :: _ :: high :: low :: rest =>
            some (UInt8.ofNat ((lit "0123456789abcdef").idxOf high * 16 +
              (lit "0123456789abcdef").idxOf low), rest)
        | letter :: rest => ((escapes.map Prod.swap).lookup letter).map fun c => (c, rest)
        | [] => none

theorem hexDigits_read (n : Fin 256) :
    UInt8.ofNat ((lit "0123456789abcdef").idxOf (hexDigit (UInt8.ofNat n / 16)) * 16 +
      (lit "0123456789abcdef").idxOf (hexDigit (UInt8.ofNat n % 16))) = UInt8.ofNat n := by
  revert n
  decide +kernel

theorem unescapeByte_escapeByte (c : UInt8) (rest : Bytes) :
    unescapeByte (escapeByte c ++ rest) = some (c, rest) := by
  unfold escapeByte
  cases found : escapes.lookup c with
  | some letter =>
      have mem := mem_escapes found
      simp only [escapes, List.mem_cons, Prod.mk.injEq, List.not_mem_nil, or_false] at mem
      rcases mem with ⟨rfl, rfl⟩ | ⟨rfl, rfl⟩ | ⟨rfl, rfl⟩ | ⟨rfl, rfl⟩ | ⟨rfl, rfl⟩ | ⟨rfl, rfl⟩ |
        ⟨rfl, rfl⟩ | ⟨rfl, rfl⟩ <;> rfl
  | none =>
      have notBackslash : c ≠ backslash := by
        rintro rfl
        cases found
      by_cases control : c < 32 ∨ c = 127
      · have digits := hexDigits_read ⟨c.toNat, c.toNat_lt⟩
        simp only [UInt8.ofNat_toNat] at digits
        simp [control, unescapeByte, digits]
      · simp [control, unescapeByte, notBackslash]

theorem escapeByte_unique {c d : UInt8} {a b : Bytes}
    (same : escapeByte c ++ a = escapeByte d ++ b) : c = d ∧ a = b := by
  have read := congrArg unescapeByte same
  rw [unescapeByte_escapeByte, unescapeByte_escapeByte] at read
  simpa using read

theorem escapeByte_ne_quote (c : UInt8) (a b : Bytes) : escapeByte c ++ a ≠ quote :: b := by
  rcases escapeByte_cases c with ⟨plain, notQuote, -⟩ | ⟨escape, -⟩ | ⟨tail, escape, -⟩
  · rw [plain]
    intro same
    exact notQuote (List.cons.inj same).1
  · rw [escape]
    intro same
    exact absurd (List.cons.inj same).1 (by decide)
  · rw [escape]
    intro same
    exact absurd (List.cons.inj same).1 (by decide)

theorem escaped_cons (c : UInt8) (s : Bytes) : escaped (c :: s) = escapeByte c ++ escaped s := rfl

theorem escaped_unique {s t a b : Bytes}
    (same : escaped s ++ quote :: a = escaped t ++ quote :: b) : s = t ∧ a = b := by
  induction s generalizing t with
  | nil =>
      cases t with
      | nil => exact ⟨rfl, (List.cons.inj same).2⟩
      | cons d t =>
          rw [escaped_cons, List.append_assoc] at same
          exact absurd same.symm (escapeByte_ne_quote d _ _)
  | cons c s ih =>
      cases t with
      | nil =>
          rw [escaped_cons, List.append_assoc] at same
          exact absurd same (escapeByte_ne_quote c _ _)
      | cons d t =>
          rw [escaped_cons, escaped_cons, List.append_assoc, List.append_assoc] at same
          obtain ⟨rfl, tails⟩ := escapeByte_unique same
          obtain ⟨rfl, rest⟩ := ih tails
          exact ⟨rfl, rest⟩

theorem quoted_append (s a : Bytes) : quoted s ++ a = quote :: (escaped s ++ quote :: a) := by
  simp [quoted]

theorem quoted_unique {s t a b : Bytes} (same : quoted s ++ a = quoted t ++ b) : s = t ∧ a = b := by
  rw [quoted_append, quoted_append] at same
  exact escaped_unique (List.cons.inj same).2

/-! ## Values -/

/-- What a value is, as the first byte of its text tells. -/
inductive Kind where
  | null | true | false | num | str | arr | obj
  deriving DecidableEq

def kindOf : Value → Kind
  | .null => .null
  | .bool b => if b then .true else .false
  | .num _ => .num
  | .str _ => .str
  | .arr _ => .arr
  | .obj _ => .obj

def kindOfByte (c : UInt8) : Option Kind :=
  if c = 110 then some .null
  else if c = 116 then some .true
  else if c = 102 then some .false
  else if c = quote then some .str
  else if c = openArr then some .arr
  else if c = openObj then some .obj
  else if isNumeralByte c then some .num
  else none

/-- What follows a value in a text. -/
def FollowsValue (rest : Bytes) : Prop := ∀ c t, rest = c :: t → c = comma ∨ c = closeArr ∨ c = closeObj

namespace NumberCodec

variable (codec : NumberCodec)

theorem isNumeralByte_kind {c : UInt8} (numeral : isNumeralByte c = true) :
    kindOfByte c = some .num := by
  unfold kindOfByte
  split_ifs with h₁ h₂ h₃ h₄ h₅ h₆
  all_goals first | rfl | (subst_vars; exact absurd numeral (by decide))

theorem text_head (v : Value) : ∃ c t, codec.text v = c :: t ∧ kindOfByte c = some (kindOf v) := by
  cases v with
  | null => exact ⟨_, _, rfl, rfl⟩
  | bool b =>
      cases b with
      | true => exact ⟨_, _, rfl, rfl⟩
      | false => exact ⟨_, _, rfl, rfl⟩
  | num q =>
      cases numeral : codec.numeral q with
      | nil => exact absurd numeral (codec.numeral_ne_nil q)
      | cons c t =>
          have byte := codec.numeral_bytes q c (by rw [numeral]; exact List.mem_cons_self)
          exact ⟨c, t, by rw [text, numeral], isNumeralByte_kind byte⟩
  | str s => exact ⟨_, _, rfl, rfl⟩
  | arr items =>
      cases items with
      | nil => exact ⟨_, _, rfl, rfl⟩
      | cons x xs => exact ⟨openArr, codec.text x ++ codec.textOfItems xs, by simp [text], rfl⟩
  | obj fields =>
      cases fields with
      | nil => exact ⟨_, _, rfl, rfl⟩
      | cons e fields =>
          obtain ⟨k, x⟩ := e
          exact ⟨openObj, _, by rw [text]; rfl, rfl⟩

theorem kind_unique {v w : Value} {a b : Bytes} (same : codec.text v ++ a = codec.text w ++ b) :
    kindOf v = kindOf w := by
  obtain ⟨c, t, head, kind⟩ := codec.text_head v
  obtain ⟨d, u, head', kind'⟩ := codec.text_head w
  rw [head, head'] at same
  have first : c = d := (List.cons.inj same).1
  rw [first, kind'] at kind
  exact (Option.some.inj kind).symm

theorem numeral_span {q : Rat} {a : Bytes} (follows : FollowsValue a) :
    (codec.numeral q ++ a).takeWhile isNumeralByte = codec.numeral q := by
  rw [List.takeWhile_append_of_pos (codec.numeral_bytes q)]
  cases a with
  | nil => simp
  | cons c t =>
      have stop : isNumeralByte c = false := by
        rcases follows c t rfl with rfl | rfl | rfl
        · rfl
        · rfl
        · rfl
      simp [stop]

theorem numeral_append_unique {q r : Rat} {a b : Bytes} (ha : FollowsValue a) (hb : FollowsValue b)
    (same : codec.numeral q ++ a = codec.numeral r ++ b) :
    codec.print q = codec.print r ∧ a = b := by
  have numerals : codec.numeral q = codec.numeral r := by
    rw [← codec.numeral_span ha, same, codec.numeral_span hb]
  rw [numerals] at same
  exact ⟨codec.numeral_unique q r numerals, List.append_cancel_left same⟩

theorem follows_comma (t : Bytes) : FollowsValue (comma :: t) := by
  rintro c u ⟨⟩
  exact .inl rfl

theorem follows_closeArr (t : Bytes) : FollowsValue (closeArr :: t) := by
  rintro c u ⟨⟩
  exact .inr (.inl rfl)

theorem follows_closeObj (t : Bytes) : FollowsValue (closeObj :: t) := by
  rintro c u ⟨⟩
  exact .inr (.inr rfl)

theorem follows_items (xs : List Value) (a : Bytes) : FollowsValue (codec.textOfItems xs ++ a) := by
  cases xs with
  | nil => exact follows_closeArr a
  | cons x xs =>
      rw [textOfItems]
      exact follows_comma _

theorem follows_fields (fields : List (Bytes × Value)) (a : Bytes) :
    FollowsValue (codec.textOfFields fields ++ a) := by
  cases fields with
  | nil => exact follows_closeObj a
  | cons e fields =>
      rw [textOfFields]
      exact follows_comma _

/-- Wherever the text of `v` stands, it is read as the text of `v`. -/
def Readable (v : Value) : Prop :=
  ∀ w key a b, FollowsValue a → FollowsValue b → codec.text v ++ a = codec.text w ++ b →
    codec.printed key v = codec.printed key w ∧ a = b

theorem textOfItems_unique {xs ys : List Value} (readable : ∀ x ∈ xs, codec.Readable x)
    {a b : Bytes} (same : codec.textOfItems xs ++ a = codec.textOfItems ys ++ b) :
    xs.map (codec.printed none) = ys.map (codec.printed none) ∧ a = b := by
  induction xs generalizing ys with
  | nil =>
      cases ys with
      | nil => exact ⟨rfl, (List.cons.inj same).2⟩
      | cons y ys =>
          rw [textOfItems, textOfItems] at same
          exact absurd (List.cons.inj same).1 (by decide)
  | cons x xs ih =>
      cases ys with
      | nil =>
          rw [textOfItems, textOfItems] at same
          exact absurd (List.cons.inj same).1 (by decide)
      | cons y ys =>
          obtain ⟨head, tail⟩ := List.forall_mem_cons.mp readable
          rw [textOfItems, textOfItems] at same
          simp only [List.cons_append, List.append_assoc] at same
          obtain ⟨value, rest⟩ := head y none _ _ (codec.follows_items xs a)
            (codec.follows_items ys b) (List.cons.inj same).2
          obtain ⟨values, rest⟩ := ih tail rest
          exact ⟨by rw [List.map_cons, List.map_cons, value, values], rest⟩

theorem textOfFields_unique {fs gs : List (Bytes × Value)}
    (readable : ∀ e ∈ fs, codec.Readable e.2) {a b : Bytes}
    (same : codec.textOfFields fs ++ a = codec.textOfFields gs ++ b) :
    fs.map (fun e => (e.1, codec.printed (some e.1) e.2)) =
      gs.map (fun e => (e.1, codec.printed (some e.1) e.2)) ∧ a = b := by
  induction fs generalizing gs with
  | nil =>
      cases gs with
      | nil => exact ⟨rfl, (List.cons.inj same).2⟩
      | cons g gs =>
          rw [textOfFields, textOfFields] at same
          exact absurd (List.cons.inj same).1 (by decide)
  | cons f fs ih =>
      cases gs with
      | nil =>
          rw [textOfFields, textOfFields] at same
          exact absurd (List.cons.inj same).1 (by decide)
      | cons g gs =>
          obtain ⟨k, x⟩ := f
          obtain ⟨l, y⟩ := g
          obtain ⟨head, tail⟩ := List.forall_mem_cons.mp readable
          rw [textOfFields, textOfFields] at same
          simp only [List.cons_append, List.append_assoc] at same
          obtain ⟨rfl, rest⟩ := quoted_unique (List.cons.inj same).2
          obtain ⟨value, rest⟩ := head y (some k) _ _ (codec.follows_fields fs a)
            (codec.follows_fields gs b) (List.cons.inj rest).2
          obtain ⟨values, rest⟩ := ih tail rest
          exact ⟨by rw [List.map_cons, List.map_cons, value, values], rest⟩

theorem text_ne_closeArr (v : Value) (a b : Bytes) : codec.text v ++ a ≠ closeArr :: b := by
  obtain ⟨c, t, head, kind⟩ := codec.text_head v
  rw [head]
  intro same
  rw [(List.cons.inj same).1] at kind
  cases kind

theorem arr_unique {xs ys : List Value} (readable : ∀ x ∈ xs, codec.Readable x)
    {key : Option Bytes} {a b : Bytes}
    (same : codec.text (.arr xs) ++ a = codec.text (.arr ys) ++ b) :
    codec.printed key (.arr xs) = codec.printed key (.arr ys) ∧ a = b := by
  cases xs with
  | nil =>
      cases ys with
      | nil => exact ⟨rfl, List.append_cancel_left same⟩
      | cons y ys =>
          simp only [text, List.cons_append, List.append_assoc, List.nil_append] at same
          exact absurd (List.cons.inj same).2.symm (codec.text_ne_closeArr y _ _)
  | cons x xs =>
      cases ys with
      | nil =>
          simp only [text, List.cons_append, List.append_assoc, List.nil_append] at same
          exact absurd (List.cons.inj same).2 (codec.text_ne_closeArr x _ _)
      | cons y ys =>
          simp only [text, List.cons_append, List.append_assoc] at same
          have items : codec.textOfItems (x :: xs) ++ a = codec.textOfItems (y :: ys) ++ b := by
            simp only [textOfItems, List.cons_append, List.append_assoc, (List.cons.inj same).2]
          obtain ⟨values, rest⟩ := codec.textOfItems_unique readable items
          refine ⟨?_, rest⟩
          unfold printed
          rw [recode_arr _ _ (List.cons_ne_nil x xs), recode_arr _ _ (List.cons_ne_nil y ys)]
          exact congrArg Value.arr values

theorem obj_unique {fs gs : List (Bytes × Value)} (readable : ∀ e ∈ fs, codec.Readable e.2)
    {key : Option Bytes} {a b : Bytes}
    (same : codec.text (.obj fs) ++ a = codec.text (.obj gs) ++ b) :
    codec.printed key (.obj fs) = codec.printed key (.obj gs) ∧ a = b := by
  cases fs with
  | nil =>
      cases gs with
      | nil => exact ⟨rfl, List.append_cancel_left same⟩
      | cons g gs =>
          simp only [text, quoted, List.cons_append, List.append_assoc] at same
          exact absurd (List.cons.inj (List.cons.inj same).2).1 (by decide)
  | cons f fs =>
      cases gs with
      | nil =>
          simp only [text, quoted, List.cons_append, List.append_assoc] at same
          exact absurd (List.cons.inj (List.cons.inj same).2).1 (by decide)
      | cons g gs =>
          simp only [text, List.cons_append, List.append_assoc] at same
          have fields : codec.textOfFields (f :: fs) ++ a = codec.textOfFields (g :: gs) ++ b := by
            simp only [textOfFields, List.cons_append, List.append_assoc, (List.cons.inj same).2]
          obtain ⟨values, rest⟩ := codec.textOfFields_unique readable fields
          refine ⟨?_, rest⟩
          unfold printed
          rw [recode_obj _ _ (List.cons_ne_nil f fs), recode_obj _ _ (List.cons_ne_nil g gs)]
          exact congrArg Value.obj values

theorem readable (v : Value) : codec.Readable v := by
  induction v using Value.induct with
  | null =>
      intro w key a b ha hb same
      cases w with
      | null => exact ⟨rfl, List.append_cancel_left same⟩
      | bool c => cases c <;> cases codec.kind_unique same
      | num | str | arr | obj => cases codec.kind_unique same
  | bool c =>
      intro w key a b ha hb same
      cases w with
      | bool d =>
          cases c <;> cases d <;>
            first | exact ⟨rfl, List.append_cancel_left same⟩ | cases codec.kind_unique same
      | null | num | str | arr | obj => cases c <;> cases codec.kind_unique same
  | num q =>
      intro w key a b ha hb same
      cases w with
      | num r =>
          obtain ⟨number, rest⟩ := codec.numeral_append_unique ha hb same
          exact ⟨by rw [printed, printed, recode, recode, number], rest⟩
      | bool c => cases c <;> cases codec.kind_unique same
      | null | str | arr | obj => cases codec.kind_unique same
  | str s =>
      intro w key a b ha hb same
      cases w with
      | str t =>
          obtain ⟨rfl, rest⟩ := quoted_unique same
          exact ⟨rfl, rest⟩
      | bool c => cases c <;> cases codec.kind_unique same
      | null | num | arr | obj => cases codec.kind_unique same
  | arr xs ih =>
      intro w key a b ha hb same
      cases w with
      | arr ys => exact codec.arr_unique ih same
      | bool c => cases c <;> cases codec.kind_unique same
      | null | num | str | obj => cases codec.kind_unique same
  | obj fs ih =>
      intro w key a b ha hb same
      cases w with
      | obj gs => exact codec.obj_unique ih same
      | bool c => cases c <;> cases codec.kind_unique same
      | null | num | str | arr => cases codec.kind_unique same

variable {codec} in
/-- A text has one value. -/
theorem Denotes.unique {s : Bytes} {v w : Value} (denotes : codec.Denotes s v)
    (other : codec.Denotes s w) : v = w := by
  obtain ⟨v, rfl, rfl⟩ := denotes
  obtain ⟨w, same, rfl⟩ := other
  have nothing : FollowsValue [] := by
    rintro c t ⟨⟩
  exact (codec.readable v w none [] [] nothing nothing (by rw [same])).1

end NumberCodec

end E2eeProxy.Lua
