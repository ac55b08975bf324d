import E2eeProxy.Lua.JsonText
import E2eeProxy.Lua.Gsub

/-! # Replacing empty objects in a text

`json:gsub('"name":{}', '"name":[]')` on the text of a value makes arrays of empty
objects. A match begins at the quote that opens a key or at one that is escaped in
it, so the key is the name or ends in a quote and the name.
-/

namespace E2eeProxy.Lua

open Lib

/-- The text of a field whose value is an empty object, up to its quote. -/
def emptyObject : Bytes := [colon, openObj, closeObj]

def emptyArray : Bytes := [colon, openArr, closeArr]

/-- The pattern and the replacement. -/
def fieldText (name value : Bytes) : Bytes := quote :: (name ++ quote :: value)

/-- `s:gsub(pattern, replacement)`. -/
def patchText (name s : Bytes) : Bytes :=
  replaceAll (fieldText name emptyObject) (fieldText name emptyArray) 0 s

/-- The key is the name or ends in a quote and the name. -/
def matchesKey (name key : Bytes) : Bool := (quote :: name).isSuffixOf (quote :: key)

/-- The value of the text once the fields are replaced. -/
def patched (name : Bytes) (key : Option Bytes) (v : Value) : Value :=
  recode (fun q => q) (fun key array => array || key.any (matchesKey name)) key v

/-- A name that is written as it is and does not begin like what follows a key. -/
structure PlainName (name : Bytes) : Prop where
  plain : ∀ c ∈ name, escapeByte c = [c]
  head : ∃ c t, name = c :: t ∧ c ≠ colon ∧ c ≠ comma ∧ c ≠ closeArr ∧ c ≠ closeObj

/-- What stands behind a closing quote. -/
def Closing (rest : Bytes) : Prop :=
  ∀ c t, rest = c :: t → c = colon ∨ c = comma ∨ c = closeArr ∨ c = closeObj

theorem FollowsValue.closing {rest : Bytes} (follows : FollowsValue rest) : Closing rest := by
  intro c t same
  exact .inr (follows c t same)

theorem closing_colon (t : Bytes) : Closing (colon :: t) := by
  rintro c u ⟨⟩
  exact .inl rfl

theorem FollowsValue.not_emptyObject {rest : Bytes} (follows : FollowsValue rest) : ¬ emptyObject <+: rest := by
  rintro ⟨t, rfl⟩
  rcases follows colon _ rfl with same | same | same <;> exact absurd same (by decide)

/-- Nothing is replaced where there is no quote. -/
theorem replace_pass {name a : Bytes} (absent : quote ∉ a) (rest : Bytes) :
    patchText name (a ++ rest) = a ++ patchText name rest :=
  replaceAll_pass _ _ absent rest

theorem not_suffix_self (name : Bytes) : ¬ quote :: name <:+ name := by
  intro ends
  have length := ends.length_le
  rw [List.length_cons] at length
  omega

section Scan

variable {name : Bytes} (plainName : PlainName name)
include plainName

/-- The pattern matches at a quote within a string only if the name ends it. -/
theorem name_prefix_iff (s rest : Bytes) :
    name ++ quote :: emptyObject <+: escaped s ++ quote :: rest ↔
      s = name ∧ emptyObject <+: rest := by
  have plain := plainName.plain
  clear plainName
  induction name generalizing s with
  | nil =>
      cases s with
      | nil => simp [escaped]
      | cons c s =>
          constructor
          · rintro ⟨t, same⟩
            simp only [escaped_cons, List.append_assoc, List.nil_append, List.cons_append] at same
            exact absurd same.symm (escapeByte_ne_quote c _ _)
          · rintro ⟨⟨⟩, -⟩
  | cons d name ih =>
      obtain ⟨head, tail⟩ := List.forall_mem_cons.mp plain
      cases s with
      | nil =>
          constructor
          · rintro ⟨t, same⟩
            have first : d = quote := (List.cons.inj same).1
            rw [first] at head
            exact absurd head (by decide)
          · rintro ⟨⟨⟩, -⟩
      | cons c s =>
          constructor
          · rintro ⟨t, same⟩
            have here : escapeByte d ++ (name ++ quote :: emptyObject ++ t) =
                escapeByte c ++ (escaped s ++ quote :: rest) := by
              rw [head, ← List.append_assoc (escapeByte c), ← escaped_cons, ← same]
              simp
            obtain ⟨rfl, there⟩ := escapeByte_unique here
            obtain ⟨rfl, object⟩ := (ih s tail).mp ⟨t, there⟩
            exact ⟨rfl, object⟩
          · rintro ⟨same, object⟩
            cases same
            rw [escaped_cons, head]
            exact List.cons_prefix_cons.mpr ⟨rfl, (ih name tail).mpr ⟨rfl, object⟩⟩

theorem escaped_name : escaped name = name := by
  have plain := plainName.plain
  clear plainName
  induction name with
  | nil => rfl
  | cons c name ih =>
      obtain ⟨head, tail⟩ := List.forall_mem_cons.mp plain
      rw [escaped_cons, head, ih tail]
      rfl

/-- Replacing from an opening or an escaped quote on. -/
theorem replace_quote {s rest : Bytes} (miss : ¬ (s = name ∧ emptyObject <+: rest)) :
    patchText name (quote :: (escaped s ++ quote :: rest)) =
      quote :: patchText name (escaped s ++ quote :: rest) := by
  unfold patchText
  apply replaceAll_step
  intro starts
  exact miss ((name_prefix_iff plainName s rest).mp (List.cons_prefix_cons.mp starts).2)

theorem replace_match (rest : Bytes) :
    patchText name (quote :: (escaped name ++ quote :: (emptyObject ++ rest))) =
      fieldText name emptyArray ++ patchText name rest := by
  have whole : quote :: (escaped name ++ quote :: (emptyObject ++ rest)) =
      quote :: (name ++ quote :: emptyObject) ++ rest := by
    rw [escaped_name plainName]
    simp
  unfold patchText
  rw [whole]
  exact replaceAll_match _ _ _ _

/-- Nothing matches at a closing quote. -/
theorem replace_closing {rest : Bytes} (closing : Closing rest) :
    patchText name (quote :: rest) = quote :: patchText name rest := by
  obtain ⟨c, t, rfl, h₁, h₂, h₃, h₄⟩ := plainName.head
  unfold patchText
  apply replaceAll_step
  rintro ⟨u, same⟩
  rcases closing c (t ++ quote :: emptyObject ++ u) (by simpa using (List.cons.inj same).2.symm) with
    same | same | same | same
  · exact h₁ same
  · exact h₂ same
  · exact h₃ same
  · exact h₄ same

theorem replace_escaped {s rest : Bytes} (closing : Closing rest)
    (miss : ¬ (quote :: name <:+ s ∧ emptyObject <+: rest)) :
    patchText name (escaped s ++ quote :: rest) = escaped s ++ quote :: patchText name rest := by
  induction s with
  | nil => exact replace_closing plainName closing
  | cons c s ih =>
      have tail := ih fun both => miss ⟨both.1.trans (List.suffix_cons c s), both.2⟩
      rw [escaped_cons, List.append_assoc, List.append_assoc]
      rcases escapeByte_cases c with ⟨plain, notQuote, -⟩ | ⟨escape, isQuote⟩ | ⟨t, escape, clean⟩
      · rw [plain, replace_pass (by simpa using notQuote.symm), tail]
      · -- An escaped quote: the name may begin behind it.
        have here : ¬ (s = name ∧ emptyObject <+: rest) := by
          rintro ⟨rfl, object⟩
          exact miss ⟨isQuote ▸ List.suffix_refl _, object⟩
        have slash : quote ∉ [backslash] := by decide
        rw [escape]
        exact (replace_pass slash _).trans
          (congrArg (backslash :: ·) ((replace_quote plainName here).trans (congrArg (quote :: ·) tail)))
      · have noQuote : quote ∉ backslash :: t := by
          rw [List.mem_cons, not_or]
          exact ⟨by decide, clean⟩
        rw [escape, replace_pass noQuote, tail]

theorem replace_escaped_match {s rest : Bytes} (ends : quote :: name <:+ s) :
    patchText name (escaped s ++ quote :: (emptyObject ++ rest)) =
      escaped s ++ quote :: (emptyArray ++ patchText name rest) := by
  induction s with
  | nil => cases List.suffix_nil.mp ends
  | cons c s ih =>
      rw [escaped_cons, List.append_assoc, List.append_assoc]
      cases List.suffix_cons_iff.mp ends with
      | inl whole =>
          -- The key ends here: this quote is where the match begins.
          obtain ⟨rfl, rfl⟩ := List.cons.inj whole
          have slash : quote ∉ [backslash] := by decide
          apply (replace_pass slash _).trans
          have found := replace_match plainName rest
          rw [escaped_name plainName] at found ⊢
          exact congrArg (backslash :: ·) (found.trans (by simp [fieldText]))
      | inr inner =>
          have tail := ih inner
          have longer : s ≠ name := by
            rintro rfl
            exact not_suffix_self _ inner
          rcases escapeByte_cases c with ⟨plain, notQuote, -⟩ | ⟨escape, isQuote⟩ | ⟨t, escape, clean⟩
          · rw [plain, replace_pass (by simpa using notQuote.symm), tail]
          · have slash : quote ∉ [backslash] := by decide
            rw [escape]
            exact (replace_pass slash _).trans (congrArg (backslash :: ·)
              ((replace_quote plainName fun both => longer both.1).trans (congrArg (quote :: ·) tail)))
          · have noQuote : quote ∉ backslash :: t := by
              rw [List.mem_cons, not_or]
              exact ⟨by decide, clean⟩
            rw [escape, replace_pass noQuote, tail]

/-- A string that is no key of an empty object stays as it is. -/
theorem replace_string {s rest : Bytes} (closing : Closing rest)
    (miss : ¬ (matchesKey name s = true ∧ emptyObject <+: rest)) :
    patchText name (quoted s ++ rest) = quoted s ++ patchText name rest := by
  unfold matchesKey at miss
  rw [List.isSuffixOf_iff_suffix, List.suffix_cons_iff] at miss
  rw [quoted_append, quoted_append, replace_quote plainName, replace_escaped plainName closing]
  · rintro ⟨ends, object⟩
    exact miss ⟨.inr ends, object⟩
  · rintro ⟨rfl, object⟩
    exact miss ⟨.inl rfl, object⟩

/-- The empty object of a key that matches becomes an array. -/
theorem replace_key {s : Bytes} (matched : matchesKey name s = true) (rest : Bytes) :
    patchText name (quoted s ++ (emptyObject ++ rest)) =
      quoted s ++ (emptyArray ++ patchText name rest) := by
  unfold matchesKey at matched
  rw [List.isSuffixOf_iff_suffix, List.suffix_cons_iff] at matched
  rw [quoted_append, quoted_append]
  cases matched with
  | inl whole =>
      cases whole
      rw [replace_match plainName, escaped_name plainName]
      simp [fieldText]
  | inr ends =>
      have longer : s ≠ name := by
        rintro rfl
        exact not_suffix_self _ ends
      rw [replace_quote plainName fun both => longer both.1, replace_escaped_match plainName ends]

end Scan

/-! ## Values -/

namespace NumberCodec

variable (codec : NumberCodec) {name : Bytes} (plainName : PlainName name)

theorem text_of_emptyObject {x : Value} {rest : Bytes}
    (starts : emptyObject <+: colon :: (codec.text x ++ rest)) : x = .obj [] := by
  obtain ⟨t, same⟩ := starts
  have body : openObj :: (closeObj :: t) = codec.text x ++ rest := (List.cons.inj same).2
  obtain ⟨c, u, head, kind⟩ := codec.text_head x
  rw [head] at body
  obtain ⟨rfl, -⟩ := List.cons.inj body
  cases x with
  | obj fields =>
      cases fields with
      | nil => rfl
      | cons e fields =>
          rw [← head] at body
          simp only [text, quoted, List.cons_append, List.append_assoc] at body
          exact absurd (List.cons.inj (List.cons.inj body).2).1 (by decide)
  | bool b => cases b <;> cases kind
  | null | num | str | arr => cases kind

/-- Replacing in the text of `v` gives the text of the patched `v`. -/
def Patchable (name : Bytes) (v : Value) : Prop :=
  ∀ key rest, (v = .obj [] → key.any (matchesKey name) = false) → FollowsValue rest →
    patchText name (codec.text v ++ rest) =
      codec.text (patched name key v) ++ patchText name rest

theorem patchText_items {xs : List Value} (patchable : ∀ x ∈ xs, codec.Patchable name x)
    (rest : Bytes) :
    patchText name (codec.textOfItems xs ++ rest) =
      codec.textOfItems (xs.map (patched name none)) ++ patchText name rest := by
  induction xs with
  | nil =>
      have noQuote : quote ∉ [closeArr] := by decide
      exact replace_pass noQuote rest
  | cons x xs ih =>
      obtain ⟨head, tail⟩ := List.forall_mem_cons.mp patchable
      have noQuote : quote ∉ [comma] := by decide
      have item := head none _ (fun _ => rfl) (codec.follows_items xs rest)
      rw [textOfItems, List.map_cons, textOfItems]
      simp only [List.cons_append, List.append_assoc]
      rw [← ih tail, ← item]
      exact replace_pass noQuote _

include plainName in
theorem patchText_field {k : Bytes} {x : Value} (patchable : codec.Patchable name x) {rest : Bytes}
    (follows : FollowsValue rest) :
    patchText name (quoted k ++ colon :: (codec.text x ++ rest)) =
      quoted k ++ colon :: (codec.text (patched name (some k) x) ++ patchText name rest) := by
  by_cases hit : matchesKey name k = true ∧ x = .obj []
  · obtain ⟨matched, rfl⟩ := hit
    have array : patched name (some k) (.obj []) = .arr [] := by
      simp [patched, recode, emptied, matched]
    rw [array]
    exact replace_key plainName matched rest
  · have free : x = .obj [] → (some k).any (matchesKey name) = false := by
      intro empty
      cases matched : matchesKey name k with
      | true => exact absurd ⟨matched, empty⟩ hit
      | false => simpa using matched
    have noQuote : quote ∉ [colon] := by decide
    rw [replace_string plainName (closing_colon _), ← patchable (some k) rest free follows]
    · exact congrArg (quoted k ++ ·) (replace_pass noQuote _)
    · rintro ⟨matched, object⟩
      exact hit ⟨matched, codec.text_of_emptyObject object⟩

include plainName in
theorem patchText_fields {fields : List (Bytes × Value)}
    (patchable : ∀ e ∈ fields, codec.Patchable name e.2) (rest : Bytes) :
    patchText name (codec.textOfFields fields ++ rest) =
      codec.textOfFields (fields.map fun e => (e.1, patched name (some e.1) e.2)) ++
        patchText name rest := by
  induction fields with
  | nil =>
      have noQuote : quote ∉ [closeObj] := by decide
      exact replace_pass noQuote rest
  | cons e fields ih =>
      obtain ⟨k, x⟩ := e
      obtain ⟨head, tail⟩ := List.forall_mem_cons.mp patchable
      have noQuote : quote ∉ [comma] := by decide
      have field := codec.patchText_field plainName (k := k) head (codec.follows_fields fields rest)
      rw [textOfFields, List.map_cons, textOfFields]
      simp only [List.cons_append, List.append_assoc]
      rw [← ih tail, ← field]
      exact replace_pass noQuote _

include plainName in
theorem patchText_text (v : Value) : codec.Patchable name v := by
  induction v using Value.induct with
  | null =>
      intro key rest free follows
      have noQuote : quote ∉ lit "null" := by decide
      exact replace_pass noQuote rest
  | bool b =>
      intro key rest free follows
      cases b with
      | true =>
          have noQuote : quote ∉ lit "true" := by decide
          exact replace_pass noQuote rest
      | false =>
          have noQuote : quote ∉ lit "false" := by decide
          exact replace_pass noQuote rest
  | num q =>
      intro key rest free follows
      have noQuote : quote ∉ codec.numeral q := by
        intro mem
        cases codec.numeral_bytes q quote mem
      exact replace_pass noQuote rest
  | str s =>
      intro key rest free follows
      exact replace_string plainName follows.closing fun both => follows.not_emptyObject both.2
  | arr items ih =>
      intro key rest free follows
      cases items with
      | nil =>
          have noQuote : quote ∉ [openArr, closeArr] := by decide
          exact replace_pass noQuote rest
      | cons x xs =>
          obtain ⟨head, tail⟩ := List.forall_mem_cons.mp ih
          have noQuote : quote ∉ [openArr] := by decide
          have item := head none _ (fun _ => rfl) (codec.follows_items xs rest)
          have items := codec.patchText_items tail rest
          rw [patched, recode_arr _ _ (List.cons_ne_nil x xs), List.map_cons, text, text]
          simp only [List.cons_append, List.append_assoc]
          rw [show xs.map (recode _ _ none) = xs.map (patched name none) from rfl, ← items]
          exact (replace_pass noQuote _).trans (congrArg (openArr :: ·) item)
  | obj fields ih =>
      intro key rest free follows
      cases fields with
      | nil =>
          have noQuote : quote ∉ [openObj, closeObj] := by decide
          have object : patched name key (.obj []) = .obj [] := by
            simp [patched, recode, emptied, free rfl]
          rw [object]
          exact replace_pass noQuote rest
      | cons e fields =>
          obtain ⟨k, x⟩ := e
          obtain ⟨head, tail⟩ := List.forall_mem_cons.mp ih
          have noQuote : quote ∉ [openObj] := by decide
          have field := codec.patchText_field plainName (k := k) head
            (codec.follows_fields fields rest)
          have fields' := codec.patchText_fields plainName tail rest
          rw [patched, recode_obj _ _ (List.cons_ne_nil _ fields), List.map_cons, text, text]
          simp only [List.cons_append, List.append_assoc]
          rw [show (fields.map fun e => (e.1, recode _ _ (some e.1) e.2)) =
            fields.map fun e => (e.1, patched name (some e.1) e.2) from rfl, ← fields']
          exact (replace_pass noQuote _).trans (congrArg (openObj :: ·) field)

end NumberCodec

end E2eeProxy.Lua
