import E2eeProxy.Attest
import E2eeProxy.Lib.Base64
import E2eeProxy.Lib.Traversal

/-! # Finding the quotes of a document

A quote is found in all encodings it may have, because no other reading of them
looks like a quote, and in whatever order a table is enumerated.
-/

namespace E2eeProxy.Attest

open Lua Lib

def lowerHex (c : UInt8) : UInt8 := if 65 ≤ c ∧ c ≤ 70 then c + 32 else c

/-- The string is the quote in base64, or in hex of either case. -/
inductive Encodes (q : Bytes) : Bytes → Prop
  | standard : Encodes q (Base64.standard q)
  | urlSafe : Encodes q (Base64.urlSafe q)
  | hex {s : Bytes} (same : s.map lowerHex = toHex q) : Encodes q s

section Strings

variable (pf : Platform)

/-- What `pairs` enumerates of a table, with `tostring` of the keys. -/
def entries : Value → List (Bytes × Value)
  | .arr items => items.zipIdx.map fun (v, i) => (pf.tostringNumber (i + 1), v)
  | .obj fields => fields
  | .null | .bool _ | .num _ | .str _ => []

/-- The strings of a document down to a depth, with their paths. -/
def located : Nat → Value → Bytes → List (Bytes × Bytes)
  | 0, _, _ => []
  | depth + 1, node, path =>
      match node with
      | .str s => [(path, s)]
      | _ => (entries pf node).flatMap fun (k, v) => located depth v (path ++ lit "." ++ k)

def quoteAt : Bytes × Bytes → Option FoundQuote
  | (path, s) => (quoteIn pf s).map fun raw => ⟨raw, path⟩

def quotesAt (depth : Nat) (node : Value) (path : Bytes) : List FoundQuote :=
  (located pf depth node path).filterMap (quoteAt pf)

/-- `find_quotes` where `pairs` may take the entries of a table in any order. -/
def Finds : Nat → Value → Bytes → List FoundQuote → List FoundQuote → Prop
  | 0, _, _, out, out' => out' = out
  | depth + 1, node, path, out, out' =>
      if maxQuotes ≤ out.length then out' = out
      else
        match node with
        | .str s => out' = out ++ (quoteAt pf (path, s)).toList
        | _ => ∃ order, order.Perm (entries pf node) ∧
            Through (fun (k, v) => Finds depth v (path ++ lit "." ++ k)) order out out'

/-- One order is that of the model. -/
theorem finds_findQuotes (depth : Nat) (node : Value) (path : Bytes) (out : List FoundQuote) :
    Finds pf depth node path out (findQuotes pf depth node path out) := by
  induction depth generalizing node path out with
  | zero => rfl
  | succ depth ih =>
      rw [Finds.eq_def, findQuotes.eq_def]
      dsimp only
      by_cases full : maxQuotes ≤ out.length
      · rw [if_pos full, if_pos full]
      · rw [if_neg full, if_neg full]
        cases node with
        | str s => rfl
        | null | bool b | num x => exact ⟨[], .refl _, rfl⟩
        | obj fields => exact ⟨fields, .refl _, through_foldl (fun entry _ out => ih _ _ _) out⟩
        | arr items =>
            refine ⟨_, .refl _, ?_⟩
            have visits : Through _ (entries pf (.arr items)) out _ := through_foldl
              (f := fun out (entry : Bytes × Value) =>
                findQuotes pf depth entry.2 (path ++ lit "." ++ entry.1) out)
              (fun entry _ out => ih entry.2 (path ++ lit "." ++ entry.1) out) out
            rwa [entries, List.foldl_map] at visits

/-! ## The traversal -/

theorem quotesAt_string (depth : Nat) (s path : Bytes) :
    quotesAt pf (depth + 1) (.str s) path = (quoteAt pf (path, s)).toList := by
  rw [quotesAt, located, List.filterMap_cons]
  cases quoteAt pf (path, s) <;> rfl

theorem quotesAt_table {node : Value} (depth : Nat) (path : Bytes) (table : ∀ s, node ≠ .str s) :
    quotesAt pf (depth + 1) node path =
      (entries pf node).flatMap fun (k, v) => quotesAt pf depth v (path ++ lit "." ++ k) := by
  cases node with
  | str s => exact absurd rfl (table s)
  | null | bool b | num x => rfl
  | arr items | obj fields => exact List.filterMap_flatMap

/-- A table is visited entry by entry until there are enough quotes. -/
theorem finds_table {node : Value} {depth : Nat} {path : Bytes} {out out' : List FoundQuote}
    (table : ∀ s, node ≠ .str s) (finds : Finds pf (depth + 1) node path out out') :
    (maxQuotes ≤ out.length ∧ out' = out) ∨ ∃ order, order.Perm (entries pf node) ∧
      Through (fun (k, v) => Finds pf depth v (path ++ lit "." ++ k)) order out out' := by
  rw [Finds.eq_def] at finds
  dsimp only at finds
  split at finds
  · exact .inl ⟨‹_›, finds⟩
  · cases node with
    | str s => exact absurd rfl (table s)
    | null | bool b | num x | arr items | obj fields => exact .inr finds

/-- In a document without too many quotes all of them are found. -/
theorem finds_all (depth : Nat) (node : Value) (path : Bytes) :
    Collects maxQuotes (Finds pf depth node path) (quotesAt pf depth node path) := by
  induction depth generalizing node path with
  | zero =>
      rintro out out' rfl -
      exact ⟨[], (List.append_nil _).symm, .refl _⟩
  | succ depth ih =>
      intro out out' finds fits
      by_cases string : ∃ s, node = .str s
      · obtain ⟨s, rfl⟩ := string
        rw [quotesAt_string] at fits ⊢
        rw [Finds] at finds
        split at finds
        · rename_i full
          have none : (quoteAt pf (path, s)).toList = [] :=
            List.eq_nil_of_length_eq_zero (by omega)
          exact ⟨[], by rw [finds, List.append_nil], by rw [none]⟩
        · exact ⟨_, finds, .refl _⟩
      · have table : ∀ s, node ≠ .str s := fun s same => string ⟨s, same⟩
        rw [quotesAt_table pf depth path table] at fits ⊢
        cases finds_table pf table finds with
        | inl stops =>
            obtain ⟨full, rfl⟩ := stops
            have none : ((entries pf node).flatMap fun (k, v) =>
                quotesAt pf depth v (path ++ lit "." ++ k)) = [] :=
              List.eq_nil_of_length_eq_zero (by omega)
            exact ⟨[], (List.append_nil _).symm, by rw [none]⟩
        | inr visits =>
            obtain ⟨order, perm, visits⟩ := visits
            have each : Collects maxQuotes
                (Through (fun (k, v) => Finds pf depth v (path ++ lit "." ++ k)) order)
                (order.flatMap fun (k, v) => quotesAt pf depth v (path ++ lit "." ++ k)) :=
              .through fun entry _ => ih entry.2 (path ++ lit "." ++ entry.1)
            exact each.perm (perm.flatMap_right _) out out' visits fits

/-- A quote that is found is that of a string of the document. -/
theorem finds_only (depth : Nat) (node : Value) (path : Bytes) :
    Appends (fun found => ∃ s, (found.path, s) ∈ located pf depth node path ∧
      quoteIn pf s = some found.raw) (Finds pf depth node path) := by
  induction depth generalizing node path with
  | zero =>
      rintro out out' rfl
      exact ⟨[], (List.append_nil _).symm, fun _ none => (List.not_mem_nil none).elim⟩
  | succ depth ih =>
      intro out out' finds
      by_cases string : ∃ s, node = .str s
      · obtain ⟨s, rfl⟩ := string
        rw [Finds] at finds
        split at finds
        · exact ⟨[], by rw [finds, List.append_nil], fun _ none => (List.not_mem_nil none).elim⟩
        · refine ⟨_, finds, fun found mem => ⟨s, ?_⟩⟩
          obtain ⟨raw, here, rfl⟩ := Option.map_eq_some_iff.mp (Option.mem_toList.mp mem)
          exact ⟨List.mem_singleton_self _, here⟩
      · have table : ∀ s, node ≠ .str s := fun s same => string ⟨s, same⟩
        cases finds_table pf table finds with
        | inl stops =>
            obtain ⟨-, rfl⟩ := stops
            exact ⟨[], (List.append_nil _).symm, fun _ none => (List.not_mem_nil none).elim⟩
        | inr visits =>
            obtain ⟨order, perm, visits⟩ := visits
            refine Appends.through ?_ out out' visits
            rintro ⟨k, v⟩ mem out out' finds
            obtain ⟨new, made, holds⟩ := ih v (path ++ lit "." ++ k) out out' finds
            refine ⟨new, made, fun found there => ?_⟩
            obtain ⟨s, located', raw⟩ := holds found there
            refine ⟨s, ?_, raw⟩
            have entry : (k, v) ∈ entries pf node := perm.mem_iff.mp mem
            cases node with
            | str s => exact absurd rfl (table s)
            | null | bool b | num x => cases entry
            | arr items | obj fields => exact List.mem_flatMap.mpr ⟨(k, v), entry, located'⟩

end Strings

/-! ## Encodings -/

section Encodings

variable {pf : Platform} {q s : Bytes}

theorem quoteIn_eq (s : Bytes) : quoteIn pf s =
    if s.length < minQuote then none
    else ((pf.decodeBase64 s <|> pf.decodeBase64 (s.map Base64.toStandard)).filter
      looksLikeTdxQuote) <|> ((hexDecode s).filter looksLikeTdxQuote) := rfl

theorem quote_length (quote : looksLikeTdxQuote q = true) : minQuote ≤ q.length := by
  simp only [looksLikeTdxQuote, Bool.and_eq_true, decide_eq_true_eq] at quote
  exact quote.1.1.1

/-- The low byte of the version. -/
theorem quote_first (quote : looksLikeTdxQuote q = true) : byteAt q 0 = 4 ∨ byteAt q 0 = 5 := by
  simp only [looksLikeTdxQuote, Bool.and_eq_true, Bool.or_eq_true, decide_eq_true_eq] at quote
  have version := quote.1.1.2
  unfold leU16 at version
  omega

theorem quoteIn_base64 (long : minQuote ≤ s.length) (quote : looksLikeTdxQuote q = true)
    (decoded : (pf.decodeBase64 s <|> pf.decodeBase64 (s.map Base64.toStandard)) = some q) :
    quoteIn pf s = some q := by
  rw [quoteIn_eq, if_neg (not_lt.mpr long), decoded, Option.filter_some, if_pos quote]
  rfl

theorem quoteIn_standard (laws : Base64.IsDecoder pf.decodeBase64)
    (quote : looksLikeTdxQuote q = true) : quoteIn pf (Base64.standard q) = some q := by
  apply quoteIn_base64 _ quote
  · rw [laws.decodes]
    rfl
  · exact (quote_length quote).trans (Base64.length_encode 43 47 q)

/-- A string with `-` or `_` is refused at first, and the same in both alphabets without. -/
theorem quoteIn_urlSafe (laws : Base64.IsDecoder pf.decodeBase64)
    (quote : looksLikeTdxQuote q = true) : quoteIn pf (Base64.urlSafe q) = some q := by
  apply quoteIn_base64 _ quote
  · rw [Base64.toStandard_urlSafe, laws.decodes]
    by_cases special : (45 : UInt8) ∈ Base64.urlSafe q ∨ (95 : UInt8) ∈ Base64.urlSafe q
    · cases decoded : pf.decodeBase64 (Base64.urlSafe q) with
      | none => rfl
      | some raw =>
          exfalso
          have known := laws.alphabet decoded
          cases special with
          | inl dash => exact absurd (known 45 (Base64.mem_digits dash (by decide))) (by decide)
          | inr under => exact absurd (known 95 (Base64.mem_digits under (by decide))) (by decide)
    · have same : Base64.urlSafe q = Base64.standard q := by
        rw [← Base64.toStandard_urlSafe, List.map_congr_left (g := id), List.map_id]
        intro c mem
        have dash : c ≠ 45 := fun same => special (.inl (same ▸ mem))
        have under : c ≠ 95 := fun same => special (.inr (same ▸ mem))
        rw [Base64.toStandard, if_neg dash, if_neg under]
        rfl
      rw [same, laws.decodes]
      rfl
  · exact (quote_length quote).trans (Base64.length_encode 45 95 q)

/-! ### Hex -/

theorem hexValue_lower {c : UInt8} {n : ℕ} (small : n < 16) (same : lowerHex c = hexDigit n) :
    isHexByte c = true ∧ hexValue c = n := by
  have all : ∀ k < 256, ∀ n < 16, lowerHex (UInt8.ofNat k) = hexDigit n →
      isHexByte (UInt8.ofNat k) = true ∧ hexValue (UInt8.ofNat k) = n := by decide +kernel
  have here := all c.toNat c.toNat_lt n small
  rw [UInt8.ofNat_toNat] at here
  exact here same

theorem hex_pairs (same : s.map lowerHex = toHex q) :
    s.length = 2 * q.length ∧ s.all isHexByte = true ∧ hexPairs s = q := by
  induction q generalizing s with
  | nil =>
      obtain rfl : s = [] := List.map_eq_nil_iff.mp same
      exact ⟨rfl, rfl, rfl⟩
  | cons c q ih =>
      rw [toHex, List.flatMap_cons] at same
      match s with
      | [] | [_] => simp at same
      | a :: b :: s =>
          obtain ⟨high, same⟩ := List.cons.inj same
          obtain ⟨low, same⟩ := List.cons.inj same
          obtain ⟨length, digits, pairs⟩ := ih same
          have small := c.toNat_lt
          obtain ⟨isHigh, highValue⟩ := hexValue_lower (n := c.toNat / 16) (by omega) high
          obtain ⟨isLow, lowValue⟩ := hexValue_lower (n := c.toNat % 16) (by omega) low
          refine ⟨by simp only [List.length_cons, length]; omega, ?_, ?_⟩
          · rw [List.all_cons, List.all_cons, isHigh, isLow, digits]
            rfl
          · rw [hexPairs, highValue, lowValue, pairs,
              show c.toNat / 16 * 16 + c.toNat % 16 = c.toNat by omega, UInt8.ofNat_toNat]

theorem hex_digit {c : UInt8} (isHex : isHexByte c = true) :
    (Base64.value c).isSome = true ∧ hexValue c < 16 ∧ (hexValue c = 0 → c = 48) := by
  have all : ∀ k < 256, isHexByte (UInt8.ofNat k) = true →
      (Base64.value (UInt8.ofNat k)).isSome = true ∧ hexValue (UInt8.ofNat k) < 16 ∧
        (hexValue (UInt8.ofNat k) = 0 → UInt8.ofNat k = 48) := by decide +kernel
  have here := all c.toNat c.toNat_lt
  rw [UInt8.ofNat_toNat] at here
  exact here isHex

/-- What hex digits are in base64 begins with another byte than a quote. -/
theorem hex_misread (laws : Base64.IsDecoder pf.decodeBase64) (quote : looksLikeTdxQuote q = true)
    (same : s.map lowerHex = toHex q) {raw : Bytes} (decoded : pf.decodeBase64 s = some raw) :
    looksLikeTdxQuote raw = false := by
  obtain ⟨length, digits, pairs⟩ := hex_pairs same
  have long := quote_length quote
  unfold minQuote at long
  match s with
  | [] | [_] =>
      simp only [List.length_cons, List.length_nil] at length
      omega
  | a :: b :: s =>
      simp only [List.all_cons, Bool.and_eq_true] at digits
      obtain ⟨isHigh, isLow, -⟩ := digits
      obtain ⟨-, highSmall, zero⟩ := hex_digit isHigh
      obtain ⟨known, lowSmall, -⟩ := hex_digit isLow
      obtain ⟨n, low⟩ := Option.isSome_iff_exists.mp known
      -- The first digit is 0, which base64 reads as 52.
      have first := quote_first quote
      rw [← pairs, hexPairs, byteAt, List.getD_cons_zero, UInt8.toNat_ofNat'] at first
      obtain rfl : a = 48 := zero (by omega)
      have head := laws.first (m := 52) rfl low decoded
      by_contra looks
      have raw' := quote_first (eq_true_of_ne_false looks)
      rw [byteAt, List.getD_eq_getElem?_getD, ← List.head?_eq_getElem?, head, Option.getD_some,
        UInt8.toNat_ofNat'] at raw'
      have small : n < 64 := Base64.value_lt low
      omega

theorem quoteIn_hex (laws : Base64.IsDecoder pf.decodeBase64)
    (quote : looksLikeTdxQuote q = true) (same : s.map lowerHex = toHex q) :
    quoteIn pf s = some q := by
  obtain ⟨length, digits, pairs⟩ := hex_pairs same
  have long := quote_length quote
  have decodes : hexDecode s = some q := by
    have fits : ¬ (s.length < minQuote * 2 ∨ s.length % 2 ≠ 0 ∨ ¬ s.all isHexByte) := by
      rw [digits]
      simp only [not_true_eq_false, or_false]
      omega
    rw [hexDecode, if_neg fits, pairs]
  have plain : s.map Base64.toStandard = s := by
    rw [List.map_congr_left (g := id), List.map_id]
    intro c mem
    have isHex := List.all_eq_true.mp digits c mem
    have dash : c ≠ 45 := by
      rintro rfl
      cases isHex
    have under : c ≠ 95 := by
      rintro rfl
      cases isHex
    rw [Base64.toStandard, if_neg dash, if_neg under]
    rfl
  have misread : ((pf.decodeBase64 s <|> pf.decodeBase64 s).filter looksLikeTdxQuote) = none := by
    cases decoded : pf.decodeBase64 s with
    | none => rfl
    | some raw =>
        change (some raw).filter looksLikeTdxQuote = none
        rw [Option.filter_some, hex_misread laws quote same decoded]
        rfl
  rw [quoteIn_eq, if_neg (by omega), plain, misread, decodes, Option.filter_some, if_pos quote]
  rfl

theorem Encodes.quoteIn (laws : Base64.IsDecoder pf.decodeBase64)
    (quote : looksLikeTdxQuote q = true) (encodes : Encodes q s) : quoteIn pf s = some q := by
  cases encodes with
  | standard => exact quoteIn_standard laws quote
  | urlSafe => exact quoteIn_urlSafe laws quote
  | hex same => exact quoteIn_hex laws quote same

/-- The string read in one of the three ways. -/
def Reads (pf : Platform) (s q : Bytes) : Prop :=
  pf.decodeBase64 s = some q ∨ pf.decodeBase64 (s.map Base64.toStandard) = some q ∨
    hexDecode s = some q

/-- Nothing else is taken for a quote. -/
theorem quoteIn_reads (found : Attest.quoteIn pf s = some q) :
    Reads pf s q ∧ looksLikeTdxQuote q = true := by
  rw [quoteIn_eq] at found
  split at found
  · cases found
  · cases base64 : (pf.decodeBase64 s <|> pf.decodeBase64 (s.map Base64.toStandard)).filter
        looksLikeTdxQuote with
    | some raw =>
        rw [base64] at found
        cases found
        obtain ⟨decoded, looks⟩ := Option.filter_eq_some_iff.mp base64
        refine ⟨?_, looks⟩
        cases direct : pf.decodeBase64 s with
        | some raw =>
            rw [direct] at decoded
            exact .inl (direct.trans decoded)
        | none =>
            rw [direct] at decoded
            exact .inr (.inl decoded)
    | none =>
        rw [base64] at found
        obtain ⟨decoded, looks⟩ := Option.filter_eq_some_iff.mp found
        exact ⟨.inr (.inr decoded), looks⟩

end Encodings

/-! ## The verdict -/

section Verdict

variable (cfg : Config) (pf : Platform)

/-- The quotes that `verify` may try, by the orders in which tables are enumerated. -/
def Tries (data : Value) (id : Id) (quotes : Option (List FoundQuote)) : Prop :=
  match selectEvidence data id with
  | .failed => quotes = none
  | .whole => ∃ all, Finds pf 9 data [] [] all ∧ quotes = some all
  | .entry node i => ∃ own, Finds pf 9 node (lit ".evidence." ++ pf.tostringNumber i) [] own ∧
      if own = [] then ∃ all, Finds pf 9 data [] [] all ∧ quotes = some all else quotes = some own

theorem tries_quotesFor (data : Value) (id : Id) : Tries pf data id (quotesFor pf data id) := by
  unfold Tries quotesFor
  cases selectEvidence data id with
  | failed => rfl
  | whole => exact ⟨_, finds_findQuotes pf 9 data [] [], rfl⟩
  | entry node i =>
      refine ⟨_, finds_findQuotes pf 9 node _ [], ?_⟩
      dsimp only
      split
      · exact ⟨_, finds_findQuotes pf 9 data [] [], rfl⟩
      · rfl

/-- One of the quotes binds the nonce to the key. -/
def Passes (nonceRaw pkB64 : Bytes) (quotes : Option (List FoundQuote)) : Prop :=
  ∃ found, quotes = some found ∧
    ∃ quote ∈ found, ∃ details, checkQuote cfg pf quote.raw nonceRaw pkB64 = .ok details

/-- The verdict on a document is whether one of its quotes does. -/
theorem judge_iff (id : Id) (nonceRaw pkB64 : Bytes) (data : Value) (url : Bytes) :
    (∃ details, judge cfg pf id nonceRaw pkB64 data url = .ok (.ok details)) ↔
      Passes cfg pf nonceRaw pkB64 (quotesFor pf data id) := by
  unfold judge Passes
  cases quotesFor pf data id with
  | none =>
      constructor
      · rintro ⟨details, made⟩
        obtain ⟨_, -, made⟩ := bind_ok made
        cases made
      · rintro ⟨found, none, -⟩
        cases none
  | some quotes =>
      constructor
      · rintro ⟨details, made⟩
        refine ⟨quotes, rfl, ?_⟩
        cases quotes with
        | nil => cases made
        | cons quote quotes =>
            dsimp only at made
            split at made
            · rename_i details' accepted
              obtain ⟨q, mem, ok⟩ := List.exists_of_findSome?_eq_some accepted
              refine ⟨q, mem, details', ?_⟩
              cases checked : checkQuote cfg pf q.raw nonceRaw pkB64 with
              | error err =>
                  rw [checked] at ok
                  cases ok
              | ok d =>
                  rw [checked] at ok
                  cases ok
                  rfl
            · cases made
      · rintro ⟨found, same, quote, mem, details, ok⟩
        cases same
        have accepted : (quotes.findSome? fun q =>
            (checkQuote cfg pf q.raw nonceRaw pkB64).toOption).isSome := by
          rw [List.findSome?_isSome_iff]
          exact ⟨quote, mem, by rw [ok]; rfl⟩
        obtain ⟨details', accepted⟩ := Option.isSome_iff_exists.mp accepted
        cases quotes with
        | nil => cases mem
        | cons first rest =>
            dsimp only
            rw [accepted]
            exact ⟨details', rfl⟩

theorem Passes.perm {nonceRaw pkB64 : Bytes} {found found' : List FoundQuote}
    (perm : found.Perm found') :
    Passes cfg pf nonceRaw pkB64 (some found) ↔ Passes cfg pf nonceRaw pkB64 (some found') := by
  constructor
  · rintro ⟨_, same, quote, mem, ok⟩
    cases same
    exact ⟨found', rfl, quote, perm.mem_iff.mp mem, ok⟩
  · rintro ⟨_, same, quote, mem, ok⟩
    cases same
    exact ⟨found, rfl, quote, perm.mem_iff.mpr mem, ok⟩

/-! ### How many quotes there are -/

/-- A reading of the string looks like a quote. -/
def isQuoteString (s : Bytes) : Bool :=
  (pf.decodeBase64 s).any looksLikeTdxQuote ||
    (pf.decodeBase64 (s.map Base64.toStandard)).any looksLikeTdxQuote ||
    (hexDecode s).any looksLikeTdxQuote

def strings (depth : Nat) (node : Value) : List Bytes := (located pf depth node []).map Prod.snd

def quoteStrings (depth : Nat) (node : Value) : List Bytes :=
  (strings pf depth node).filter (isQuoteString pf)

/-- No more than are collected, at whatever depth. -/
def Few (data : Value) : Prop := ∀ depth, (quoteStrings pf depth data).length ≤ maxQuotes

theorem isQuoteString_of_quoteIn {s q : Bytes} (found : quoteIn pf s = some q) :
    isQuoteString pf s = true := by
  obtain ⟨reads, looks⟩ := quoteIn_reads found
  unfold isQuoteString
  rcases reads with direct | url | hex
  · rw [direct, Option.any_some, looks, Bool.true_or, Bool.true_or]
  · rw [url, Option.any_some, looks, Bool.or_true, Bool.true_or]
  · rw [hex, Option.any_some, looks, Bool.or_true]

theorem located_strings (depth : Nat) (node : Value) (path : Bytes) :
    (located pf depth node path).map Prod.snd = strings pf depth node := by
  have same (path path' : Bytes) : (located pf depth node path).map Prod.snd =
      (located pf depth node path').map Prod.snd := by
    induction depth generalizing node path path' with
    | zero => rfl
    | succ depth ih =>
        cases node with
        | str s => rfl
        | null | bool b | num x | arr items | obj fields =>
            simp only [located, List.map_flatMap]
            congr 1
            funext entry
            exact ih _ _ _
  exact same path []

theorem quotesAt_length (depth : Nat) (node : Value) (path : Bytes) :
    (quotesAt pf depth node path).length ≤ (quoteStrings pf depth node).length := by
  rw [quoteStrings, ← located_strings pf depth node path, quotesAt]
  induction located pf depth node path with
  | nil => exact le_refl 0
  | cons entry rest ih =>
      obtain ⟨p, s⟩ := entry
      rw [List.map_cons, List.filter_cons]
      cases found : quoteIn pf s with
      | none =>
          have none : quoteAt pf (p, s) = none := by rw [quoteAt, found, Option.map_none]
          rw [List.filterMap_cons_none none]
          split
          · exact Nat.le_succ_of_le ih
          · exact ih
      | some q =>
          have one : quoteAt pf (p, s) = some ⟨q, p⟩ := by rw [quoteAt, found, Option.map_some]
          rw [List.filterMap_cons_some one, if_pos (isQuoteString_of_quoteIn pf found)]
          exact Nat.succ_le_succ ih

theorem strings_entry {node : Value} {entry : Bytes × Value} (mem : entry ∈ entries pf node)
    (depth : Nat) : (strings pf depth entry.2).Sublist (strings pf (depth + 1) node) := by
  have table : located pf (depth + 1) node [] =
      (entries pf node).flatMap fun (k, v) => located pf depth v ([] ++ lit "." ++ k) := by
    cases node with
    | str s => cases mem
    | null | bool b | num x | arr items | obj fields => rfl
  rw [← located_strings pf depth entry.2 ([] ++ lit "." ++ entry.1), strings, table,
    List.flatMap_def]
  apply List.Sublist.map
  exact List.sublist_flatten_of_mem (List.mem_map_of_mem mem)

/-- The entry of an instance holds no more quotes than the document. -/
theorem Few.entry {data node : Value} {id : Id} {i : Nat} (few : Few pf data)
    (selected : selectEvidence data id = .entry node i) : Few pf node := by
  have listed : node ∈ tableField data "evidence" := by
    unfold selectEvidence at selected
    dsimp only at selected
    split at selected
    · rename_i entry j found
      cases selected
      exact (List.mem_zipIdx (List.mem_of_find?_eq_some found)).2.2 ▸ List.getElem_mem _
    · split at selected <;> cases selected
  intro depth
  unfold tableField at listed
  split at listed
  · rename_i fields
    split at listed
    · rename_i items evidence
      obtain ⟨j, bound, rfl⟩ := List.mem_iff_getElem.mp listed
      have inner : (pf.tostringNumber (j + 1), items[j]) ∈ entries pf (.arr items) :=
        List.mem_map.mpr ⟨(items[j], j), List.mem_zipIdx_iff_getElem?.mpr (by simp), rfl⟩
      have outer : (lit "evidence", Value.arr items) ∈ entries pf (.obj fields) := by
        obtain ⟨before, after, rfl, -⟩ := List.lookup_eq_some_iff.mp evidence
        exact List.mem_append_right _ List.mem_cons_self
      have both := (strings_entry pf inner depth).trans (strings_entry pf outer (depth + 1))
      exact ((both.filter (isQuoteString pf)).length_le).trans (few (depth + 2))
    · cases listed
  · cases listed

/-- The order of the tables does not matter to a document that holds few quotes. -/
theorem tries_passes {data : Value} {id : Id} {quotes : Option (List FoundQuote)}
    (few : Few pf data) (tried : Tries pf data id quotes) (nonceRaw pkB64 : Bytes) :
    Passes cfg pf nonceRaw pkB64 quotes ↔ Passes cfg pf nonceRaw pkB64 (quotesFor pf data id) := by
  have fits {node : Value} (few : Few pf node) (path : Bytes) :
      ([] : List FoundQuote).length + (quotesAt pf 9 node path).length ≤ maxQuotes := by
    rw [List.length_nil, Nat.zero_add]
    exact (quotesAt_length pf 9 node path).trans (few 9)
  have same {node : Value} (few : Few pf node) {path : Bytes} {out out' : List FoundQuote}
      (finds : Finds pf 9 node path [] out) (finds' : Finds pf 9 node path [] out') :
      out.Perm out' := by
    obtain ⟨new, rfl, perm⟩ := finds_all pf 9 node path [] out finds (fits few path)
    obtain ⟨new', rfl, perm'⟩ := finds_all pf 9 node path [] out' finds' (fits few path)
    exact perm.trans perm'.symm
  have other := tries_quotesFor pf data id
  revert other
  generalize quotesFor pf data id = quotes'
  unfold Tries at *
  intro other
  cases selected : selectEvidence data id with
  | failed =>
      rw [selected] at tried other
      rw [tried, other]
  | whole =>
      rw [selected] at tried other
      obtain ⟨all, finds, rfl⟩ := tried
      obtain ⟨all', finds', rfl⟩ := other
      exact Passes.perm cfg pf (same few finds finds')
  | entry node i =>
      rw [selected] at tried other
      obtain ⟨own, finds, tried⟩ := tried
      obtain ⟨own', finds', other⟩ := other
      have perm := same (few.entry pf selected) finds finds'
      by_cases none : own = []
      · have none' : own' = [] := List.nil_perm.mp (none ▸ perm)
        rw [if_pos none] at tried
        rw [if_pos none'] at other
        obtain ⟨all, finds, rfl⟩ := tried
        obtain ⟨all', finds', rfl⟩ := other
        exact Passes.perm cfg pf (same few finds finds')
      · have some' : own' ≠ [] := fun none' => none (List.perm_nil.mp (none' ▸ perm))
        rw [if_neg none] at tried
        rw [if_neg some'] at other
        rw [tried, other]
        exact Passes.perm cfg pf perm

end Verdict

/-- With a decoder for standard base64 and any order of tables: whatever is returned is
    the reading of a string of the document that looks like a quote; of no more quotes
    than are collected each is returned once, in whichever encoding; and the verdict is
    the one of the model. -/
theorem quotes_found (cfg : Config) (pf : Platform) (laws : Base64.IsDecoder pf.decodeBase64) :
    (∀ doc path out, Finds pf 9 doc path [] out →
      (∀ found ∈ out, ∃ s, (found.path, s) ∈ located pf 9 doc path ∧ Reads pf s found.raw ∧
        looksLikeTdxQuote found.raw = true) ∧
      ((quoteStrings pf 9 doc).length ≤ maxQuotes → ∀ q s p before after,
        looksLikeTdxQuote q = true → Encodes q s →
        located pf 9 doc path = before ++ (p, s) :: after →
        out.Perm (⟨q, p⟩ :: (before ++ after).filterMap (quoteAt pf)))) ∧
    ∀ data id nonceRaw pkB64 url quotes, Few pf data → Tries pf data id quotes →
      (Passes cfg pf nonceRaw pkB64 quotes ↔
        ∃ details, judge cfg pf id nonceRaw pkB64 data url = .ok (.ok details)) := by
  constructor
  · intro doc path out finds
    constructor
    · intro found mem
      obtain ⟨new, rfl, holds⟩ := finds_only pf 9 doc path [] out finds
      obtain ⟨s, there, read⟩ := holds found mem
      exact ⟨s, there, quoteIn_reads read⟩
    · intro few q s p before after quote encodes split
      have fits : ([] : List FoundQuote).length + (quotesAt pf 9 doc path).length ≤ maxQuotes := by
        rw [List.length_nil, Nat.zero_add]
        exact (quotesAt_length pf 9 doc path).trans few
      obtain ⟨new, rfl, perm⟩ := finds_all pf 9 doc path [] out finds fits
      have here : quoteAt pf (p, s) = some ⟨q, p⟩ := by
        rw [quoteAt, encodes.quoteIn laws quote, Option.map_some]
      rw [quotesAt, split, List.filterMap_append, List.filterMap_cons_some here] at perm
      rw [List.filterMap_append]
      exact perm.trans List.perm_middle
  · intro data id nonceRaw pkB64 url quotes few tried
    rw [tries_passes cfg pf few tried, judge_iff]

namespace Sample

def standardPlatform : Platform where
  toRuntime := .ofDocuments []
  halfPower _ := 1
  sha256 := id
  decodeBase64 := Base64.decode

/-- The header of a version 4 quote, and nothing in it. -/
def blankQuote : Bytes := [4, 0, 2, 0, 0x81, 0, 0, 0] ++ List.replicate 624 0

end Sample

theorem quotes_found_sample :
    (findQuotes Sample.standardPlatform 9
      (.obj [(lit "quote", .str (Base64.urlSafe Sample.blankQuote))]) [] []).Perm
      [⟨Sample.blankQuote, lit ".quote"⟩] := by
  obtain ⟨found, -⟩ := quotes_found defaultConfig Sample.standardPlatform Base64.isDecoder_decode
  obtain ⟨-, once⟩ := found _ _ _ (finds_findQuotes Sample.standardPlatform 9
    (.obj [(lit "quote", .str (Base64.urlSafe Sample.blankQuote))]) [] [])
  refine once ?_ _ _ (lit ".quote") [] [] (by decide +kernel) .urlSafe rfl
  exact (List.length_filter_le _ _).trans (by decide)

end E2eeProxy.Attest
