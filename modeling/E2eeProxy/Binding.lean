import E2eeProxy.Attest

/-! # Does a matching binding prove the key?

The six preimages of a binding are concatenations without a frame. Two of them
are equal for different keys in two ways only: one key is the nonce followed by
a string and the other is that string followed by the nonce, or so are the texts
of the keys and the nonce in hex.
-/

namespace E2eeProxy.Attest

open Lua

/-- What the candidates hash, in their order. -/
def preimages (nonceRaw pkB64 pkRaw : Bytes) : List Bytes :=
  [toHex nonceRaw ++ pkB64, nonceRaw ++ pkRaw, nonceRaw ++ pkB64, toHex nonceRaw ++ pkRaw,
    pkRaw ++ nonceRaw, pkB64 ++ toHex nonceRaw]

/-- One of them is `x` before a string, and the other is `x` after it. -/
def Exchanged (x a b : Bytes) : Prop :=
  ∃ u, u ++ x ≠ x ++ u ∧ ((a = u ++ x ∧ b = x ++ u) ∨ (a = x ++ u ∧ b = u ++ x))

/-- The characters of a base64 text before its padding. -/
def digits (text : Bytes) : Nat := (text.takeWhile fun c => c ≠ 61).length

/-- Base64 puts three bytes into four characters, and `=` ends it. -/
def DecodesDigits (pf : Platform) : Prop :=
  ∀ text raw, pf.decodeBase64 text = some raw → raw.length = digits text * 3 / 4

/-! ## Lengths -/

theorem toHex_length (s : Bytes) : (toHex s).length = 2 * s.length := by
  simp [toHex, List.length_flatMap, Nat.mul_comm]

theorem hexDigit_ne (n : Nat) (small : n < 16) : hexDigit n ≠ 61 := by
  have all : ∀ m < 16, hexDigit m ≠ 61 := by decide
  exact all n small

theorem toHex_unpadded (s : Bytes) : 61 ∉ toHex s := by
  intro mem
  obtain ⟨c, -, here⟩ := List.mem_flatMap.mp mem
  have high : c.toNat / 16 < 16 := by
    have := c.toNat_lt
    omega
  cases List.mem_cons.mp here with
  | inl same => exact hexDigit_ne _ high same.symm
  | inr rest => exact hexDigit_ne _ (Nat.mod_lt _ (by decide)) (List.mem_singleton.mp rest).symm

theorem digits_le (text : Bytes) : digits text ≤ text.length :=
  (List.takeWhile_sublist _).length_le

theorem digits_append {a : Bytes} (unpadded : 61 ∉ a) (b : Bytes) :
    digits (a ++ b) = a.length + digits b := by
  have all : a.takeWhile (fun c => decide (c ≠ 61)) = a :=
    List.takeWhile_eq_self_iff.mpr fun c mem =>
      decide_eq_true fun same : c = 61 => unpadded (same ▸ mem)
  rw [digits, List.takeWhile_append, all, if_pos rfl, List.length_append, digits]

theorem digits_append_padded {a : Bytes} (padded : 61 ∈ a) (b : Bytes) :
    digits (a ++ b) = digits a := by
  have part : (a.takeWhile fun c => decide (c ≠ 61)).length ≠ a.length := by
    intro same
    have all := (List.takeWhile_prefix _).eq_of_length same
    have := List.takeWhile_eq_self_iff.mp all 61 padded
    simp at this
  rw [digits, List.takeWhile_append, if_neg part, digits]

theorem digits_unpadded {a : Bytes} (unpadded : 61 ∉ a) : digits a = a.length := by
  have := digits_append unpadded []
  rwa [List.append_nil] at this

/-! ## Equal preimages -/

/-- `x` before one string is the other before `x`. -/
theorem exchanged_of_append {x a b : Bytes} (same : x ++ a = b ++ x) (long : x.length ≤ b.length)
    (differ : a ≠ b) : ∃ u, u ++ x ≠ x ++ u ∧ a = u ++ x ∧ b = x ++ u := by
  obtain ⟨u, rfl⟩ : x <+: b := List.prefix_of_prefix_length_le (List.prefix_append x a)
    (same ▸ List.prefix_append b x) long
  have rest : a = u ++ x := List.append_cancel_left (same.trans (List.append_assoc x u x))
  exact ⟨u, fun eq => differ (rest.trans eq), rest, rfl⟩

/-- The key as bytes. -/
theorem raw_preimages {x y a b c : Bytes} (short : x.length ≤ a.length) (long : x.length < y.length)
    (lengths : a.length = b.length) (first : c = x ++ a ∨ c = y ++ a ∨ c = a ++ x)
    (second : c = x ++ b ∨ c = y ++ b ∨ c = b ++ x) : a = b ∨ Exchanged x a b := by
  by_cases differ : a = b
  · exact .inl differ
  · right
    rcases first with rfl | rfl | rfl
    · rcases second with same | same | same
      · exact absurd (List.append_cancel_left same) differ
      · have := congrArg List.length same
        simp only [List.length_append] at this
        omega
      · obtain ⟨u, proper, one, other⟩ := exchanged_of_append same (lengths ▸ short) differ
        exact ⟨u, proper, .inl ⟨one, other⟩⟩
    · rcases second with same | same | same
      · have := congrArg List.length same
        simp only [List.length_append] at this
        omega
      · exact absurd (List.append_cancel_left same) differ
      · have := congrArg List.length same
        simp only [List.length_append] at this
        omega
    · rcases second with same | same | same
      · obtain ⟨u, proper, one, other⟩ := exchanged_of_append same.symm short (Ne.symm differ)
        exact ⟨u, proper, .inr ⟨other, one⟩⟩
      · have := congrArg List.length same
        simp only [List.length_append] at this
        omega
      · exact absurd (List.append_cancel_right same) differ

/-- The hex of the nonce before a text is not the nonce before another one. -/
theorem hex_nonce_apart {x y a b : Bytes} (x_short : x.length < y.length) (unpadded : 61 ∉ y)
    (lengths : digits a = digits b) : y ++ a ≠ x ++ b := by
  intro same
  obtain ⟨z, rfl⟩ : x <+: y := List.prefix_of_prefix_length_le (same ▸ List.prefix_append x b)
    (List.prefix_append y a) x_short.le
  rw [List.append_assoc] at same
  have rest := List.append_cancel_left same
  have z_unpadded : 61 ∉ z := fun mem => unpadded (List.mem_append_right x mem)
  have := digits_append z_unpadded a
  rw [rest, ← lengths] at this
  simp only [List.length_append] at x_short
  omega

/-- The nonce before a text is not another one before the hex of the nonce. -/
theorem nonce_hex_apart {x y a b : Bytes} (y_unpadded : 61 ∉ y) (lengths : digits a = digits b)
    (some' : 0 < x.length) (long : x.length < digits b) (y_long : x.length < y.length) :
    x ++ a ≠ b ++ y := by
  intro same
  have b_long : x.length ≤ b.length := long.le.trans (digits_le b)
  obtain ⟨w, rfl⟩ : x <+: b := List.prefix_of_prefix_length_le (List.prefix_append x a)
    (same ▸ List.prefix_append b y) b_long
  rw [List.append_assoc] at same
  obtain rfl := List.append_cancel_left same
  have x_unpadded : 61 ∉ x := by
    intro padded
    rw [digits_append_padded padded] at long
    exact absurd long (not_lt.mpr (digits_le x))
  rw [digits_append x_unpadded] at lengths
  by_cases padded : 61 ∈ w
  · rw [digits_append_padded padded] at lengths
    omega
  · rw [digits_append padded, digits_unpadded y_unpadded, digits_unpadded padded] at lengths
    omega

/-- The key as text. -/
theorem text_preimages {x y a b c : Bytes} (some' : 0 < x.length) (y_long : x.length < y.length)
    (unpadded : 61 ∉ y) (lengths : digits a = digits b) (long : y.length < digits b)
    (first : c = y ++ a ∨ c = x ++ a ∨ c = a ++ y)
    (second : c = y ++ b ∨ c = x ++ b ∨ c = b ++ y) : a = b ∨ Exchanged y a b := by
  have x_long : x.length < digits b := y_long.trans long
  by_cases differ : a = b
  · exact .inl differ
  · right
    rcases first with rfl | rfl | rfl
    · rcases second with same | same | same
      · exact absurd (List.append_cancel_left same) differ
      · exact absurd same (hex_nonce_apart y_long unpadded lengths)
      · obtain ⟨u, proper, one, other⟩ :=
          exchanged_of_append same (long.le.trans (digits_le b)) differ
        exact ⟨u, proper, .inl ⟨one, other⟩⟩
    · rcases second with same | same | same
      · exact absurd same.symm (hex_nonce_apart y_long unpadded lengths.symm)
      · exact absurd (List.append_cancel_left same) differ
      · exact absurd same (nonce_hex_apart unpadded lengths some' x_long y_long)
    · rcases second with same | same | same
      · obtain ⟨u, proper, one, other⟩ :=
          exchanged_of_append same.symm ((lengths ▸ long).le.trans (digits_le a)) (Ne.symm differ)
        exact ⟨u, proper, .inr ⟨other, one⟩⟩
      · exact absurd same.symm
          (nonce_hex_apart unpadded lengths.symm some' (lengths ▸ x_long) y_long)
      · exact absurd (List.append_cancel_right same) differ

theorem mem_preimages {nonceRaw pkB64 pkRaw c : Bytes} (mem : c ∈ preimages nonceRaw pkB64 pkRaw) :
    (c = nonceRaw ++ pkRaw ∨ c = toHex nonceRaw ++ pkRaw ∨ c = pkRaw ++ nonceRaw) ∨
      (c = toHex nonceRaw ++ pkB64 ∨ c = nonceRaw ++ pkB64 ∨ c = pkB64 ++ toHex nonceRaw) := by
  simp only [preimages, List.mem_cons, List.not_mem_nil, or_false] at mem
  tauto

/-! ## What an accepted quote is bound to -/

section Quotes

variable {cfg : Config} {pf : Platform}

theorem checkQuote_binds {quote nonceRaw pkB64 pkRaw : Bytes} {details : Details}
    (accepted : checkQuote cfg pf quote nonceRaw pkB64 = .ok details)
    (decoded : pf.decodeBase64 pkB64 = some pkRaw) :
    ∃ c ∈ preimages nonceRaw pkB64 pkRaw,
      pf.sha256 c = (parseQuote quote).reportData.take 32 := by
  unfold checkQuote at accepted
  split at accepted
  · cases accepted
  · dsimp only at accepted
    split at accepted
    · cases accepted
    · rename_i binding digest found
      have mem := List.mem_of_find?_eq_some found
      have same : (parseQuote quote).reportData.take 32 = digest := by
        simpa using List.find?_some found
      rw [decoded, Option.getD_some] at mem
      simp only [bindingCandidates, List.mem_cons, List.not_mem_nil, or_false,
        Prod.mk.injEq] at mem
      simp only [preimages, List.mem_cons, List.not_mem_nil, or_false]
      rw [same]
      rcases mem with ⟨-, h⟩ | ⟨-, h⟩ | ⟨-, h⟩ | ⟨-, h⟩ | ⟨-, h⟩ | ⟨-, h⟩
      · exact ⟨_, .inl rfl, h.symm⟩
      · exact ⟨_, .inr (.inl rfl), h.symm⟩
      · exact ⟨_, .inr (.inr (.inl rfl)), h.symm⟩
      · exact ⟨_, .inr (.inr (.inr (.inl rfl))), h.symm⟩
      · exact ⟨_, .inr (.inr (.inr (.inr (.inl rfl)))), h.symm⟩
      · exact ⟨_, .inr (.inr (.inr (.inr (.inr rfl)))), h.symm⟩

/-- A text of a key that `build_e2ee_request` takes. -/
theorem digits_key (decodes : DecodesDigits pf) {pkB64 pkRaw : Bytes}
    (decoded : pf.decodeBase64 pkB64 = some pkRaw) (length : pkRaw.length = 1184) :
    digits pkB64 = 1579 := by
  have := decodes pkB64 pkRaw decoded
  omega

/-- A quote that is accepted for two keys under a nonce proves that they are one
    key, exactly when neither the keys exchange the nonce nor, being different,
    their texts exchange its hex. -/
theorem binding_proves_key_iff (decodes : DecodesDigits pf)
    {nonce quote pk₁ pk₂ raw₁ raw₂ : Bytes} {details₁ details₂ : Details}
    (size : nonce.length = 32)
    (decoded₁ : pf.decodeBase64 pk₁ = some raw₁) (length₁ : raw₁.length = 1184)
    (decoded₂ : pf.decodeBase64 pk₂ = some raw₂) (length₂ : raw₂.length = 1184)
    (injective : ∀ c ∈ preimages nonce pk₁ raw₁, ∀ c' ∈ preimages nonce pk₂ raw₂,
      pf.sha256 c = pf.sha256 c' → c = c')
    (accepted₁ : checkQuote cfg pf quote nonce pk₁ = .ok details₁)
    (accepted₂ : checkQuote cfg pf quote nonce pk₂ = .ok details₂) :
    raw₁ = raw₂ ↔
      ¬ Exchanged nonce raw₁ raw₂ ∧ ¬ (Exchanged (toHex nonce) pk₁ pk₂ ∧ raw₁ ≠ raw₂) := by
  constructor
  · rintro rfl
    refine ⟨?_, fun both => both.2 rfl⟩
    rintro ⟨u, proper, ⟨one, other⟩ | ⟨one, other⟩⟩
    · exact proper (one.symm.trans other)
    · exact proper (other.symm.trans one)
  · rintro ⟨keys, texts⟩
    obtain ⟨c, mem₁, binds₁⟩ := checkQuote_binds accepted₁ decoded₁
    obtain ⟨c', mem₂, binds₂⟩ := checkQuote_binds accepted₂ decoded₂
    obtain rfl := injective c mem₁ c' mem₂ (binds₁.trans binds₂.symm)
    have hex : (toHex nonce).length = 64 := by rw [toHex_length, size]
    have digits₁ := digits_key decodes decoded₁ length₁
    have digits₂ := digits_key decodes decoded₂ length₂
    have text₁ := digits_le pk₁
    have text₂ := digits_le pk₂
    have apart {x a b : Bytes} (h : c = x ++ a ∨ c = toHex nonce ++ a ∨ c = a ++ x)
        (raw : a.length = 1184) (small : x.length = 32)
        (h' : c = toHex nonce ++ b ∨ c = x ++ b ∨ c = b ++ toHex nonce)
        (long : 1579 ≤ b.length) : False := by
      have upper : c.length ≤ 1248 := by rcases h with rfl | rfl | rfl <;> simp <;> omega
      have lower : 1611 ≤ c.length := by rcases h' with rfl | rfl | rfl <;> simp <;> omega
      omega
    cases mem_preimages mem₁ with
    | inl raw =>
        cases mem_preimages mem₂ with
        | inl raw' =>
            exact (raw_preimages (by omega) (by omega) (length₁.trans length₂.symm) raw raw').resolve_right
              keys
        | inr text' => exact (apart raw length₁ size text' (by omega)).elim
    | inr text =>
        cases mem_preimages mem₂ with
        | inl raw' => exact (apart raw' length₂ size text (by omega)).elim
        | inr text' =>
            rcases text_preimages (by omega) (by omega) (toHex_unpadded nonce)
              (digits₁.trans digits₂.symm) (by omega) text text' with rfl | exchanged
            · exact Option.some.inj (decoded₁.symm.trans decoded₂)
            · by_contra differ
              exact texts ⟨exchanged, differ⟩

end Quotes

/-! ## A nonce inside a key -/

namespace Exchange

def nonce : Bytes := List.replicate 32 0

/-- A key that ends in the nonce. -/
def raw₁ : Bytes := [1] ++ List.replicate 1151 0 ++ nonce

/-- A key that begins with it. -/
def raw₂ : Bytes := nonce ++ ([1] ++ List.replicate 1151 0)

def pk₁ : Bytes := lit "AQ" ++ List.replicate 1577 65 ++ [61]

def pk₂ : Bytes := List.replicate 43 65 ++ [66] ++ List.replicate 1535 65 ++ [61]

/-- `sha256(nonce_raw||pk_raw)` for the first key, and `sha256(pk_raw||nonce_raw)`
    for the second. -/
def bound : Bytes :=
  [220, 44, 180, 225, 78, 112, 122, 129, 197, 91, 47, 239, 0, 179, 133, 184, 124, 121,
    20, 204, 34, 90, 26, 231, 35, 231, 119, 171, 131, 168, 222, 130]

/-- The digests of what the candidates hash. -/
def digests : List (Bytes × Bytes) :=
  [(toHex nonce ++ pk₁,
      [153, 86, 178, 199, 184, 31, 135, 91, 191, 112, 144, 124, 191, 96, 209, 35, 36, 112,
        106, 88, 115, 178, 98, 123, 210, 13, 203, 84, 201, 210, 12, 86]),
    (nonce ++ raw₁,
      [220, 44, 180, 225, 78, 112, 122, 129, 197, 91, 47, 239, 0, 179, 133, 184, 124, 121,
        20, 204, 34, 90, 26, 231, 35, 231, 119, 171, 131, 168, 222, 130]),
    (nonce ++ pk₁,
      [244, 28, 221, 98, 193, 135, 120, 26, 72, 138, 153, 127, 66, 252, 247, 79, 103, 198,
        159, 57, 185, 0, 31, 91, 185, 217, 17, 142, 137, 150, 234, 166]),
    (toHex nonce ++ raw₁,
      [81, 16, 213, 6, 63, 0, 173, 101, 64, 164, 6, 217, 57, 155, 92, 102, 192, 239, 216,
        239, 233, 56, 105, 229, 10, 61, 237, 33, 71, 2, 112, 103]),
    (raw₁ ++ nonce,
      [199, 104, 112, 157, 6, 195, 85, 246, 90, 161, 3, 10, 159, 110, 71, 252, 86, 224, 65,
        171, 166, 10, 162, 28, 118, 161, 36, 193, 23, 175, 250, 155]),
    (pk₁ ++ toHex nonce,
      [200, 201, 95, 73, 161, 156, 143, 73, 89, 229, 217, 186, 56, 64, 238, 200, 47, 235,
        199, 24, 49, 25, 117, 59, 156, 253, 145, 11, 25, 192, 58, 75]),
    (toHex nonce ++ pk₂,
      [8, 40, 227, 181, 240, 123, 53, 154, 109, 131, 201, 138, 73, 6, 120, 123, 218, 58, 72,
        96, 244, 214, 109, 181, 213, 74, 35, 77, 41, 171, 118, 7]),
    (nonce ++ raw₂,
      [81, 152, 78, 174, 127, 130, 56, 124, 100, 40, 245, 124, 2, 42, 68, 71, 179, 162, 54,
        110, 225, 101, 51, 3, 249, 170, 170, 1, 113, 8, 126, 193]),
    (nonce ++ pk₂,
      [89, 179, 184, 175, 38, 234, 43, 75, 76, 138, 211, 89, 239, 0, 69, 116, 37, 36, 219,
        85, 45, 1, 50, 130, 190, 75, 4, 8, 41, 88, 39, 4]),
    (toHex nonce ++ raw₂,
      [202, 250, 5, 86, 191, 101, 149, 161, 19, 73, 247, 81, 42, 154, 33, 232, 108, 85, 11,
        120, 20, 242, 95, 252, 52, 62, 137, 158, 58, 34, 12, 237]),
    (pk₂ ++ toHex nonce,
      [33, 95, 14, 216, 105, 217, 30, 58, 44, 168, 37, 171, 181, 177, 138, 108, 58, 57, 155,
        145, 170, 3, 206, 215, 230, 229, 166, 18, 153, 65, 193, 73])]

def platform : Platform where
  toRuntime := .ofDocuments []
  halfPower _ := 1
  sha256 s := (digests.lookup s).getD []
  decodeBase64 s := if s = pk₁ then some raw₁ else if s = pk₂ then some raw₂ else none

def quote : Bytes :=
  [4, 0, 2, 0, 0x81, 0, 0, 0] ++ List.replicate 560 0 ++ bound ++ List.replicate 32 0

theorem decodes : DecodesDigits platform := by
  intro text raw decoded
  simp only [platform] at decoded
  split at decoded
  · rename_i same
    obtain rfl := Option.some.inj decoded
    rw [same]
    decide +kernel
  · split at decoded
    · rename_i same
      obtain rfl := Option.some.inj decoded
      rw [same]
      decide +kernel
    · cases decoded

theorem pk₂_ne_pk₁ : pk₂ ≠ pk₁ := by
  intro same
  have second : pk₂[1]? = pk₁[1]? := by rw [same]
  exact absurd second (by decide)

theorem decoded₁ : platform.decodeBase64 pk₁ = some raw₁ := by
  simp only [platform, if_true]

theorem decoded₂ : platform.decodeBase64 pk₂ = some raw₂ := by
  simp only [platform, pk₂_ne_pk₁, if_false, if_true]

theorem raw₁_length : raw₁.length = 1184 := by
  simp only [raw₁, nonce, List.length_append, List.length_replicate, List.length_singleton]

theorem raw₂_length : raw₂.length = 1184 := by
  simp only [raw₂, nonce, List.length_append, List.length_replicate, List.length_singleton]

theorem injective : ∀ c ∈ preimages nonce pk₁ raw₁, ∀ c' ∈ preimages nonce pk₂ raw₂,
    platform.sha256 c = platform.sha256 c' → c = c' := by decide +kernel

theorem accepted₁ : (checkQuote defaultConfig platform quote nonce pk₁).toOption.isSome := by
  decide +kernel

theorem accepted₂ : (checkQuote defaultConfig platform quote nonce pk₂).toOption.isSome := by
  decide +kernel

end Exchange

theorem isSome_toOption {ε α : Type} {x : Except ε α} (h : x.toOption.isSome) : ∃ a, x = .ok a := by
  cases x with
  | error e => cases h
  | ok a => exact ⟨a, rfl⟩

/-- Both keys are taken for the one the quote is bound to. -/
theorem exchanged_keys_both_accepted :
    ¬ ∀ (cfg : Config) (pf : Platform) (nonce quote pk₁ pk₂ raw₁ raw₂ : Bytes)
      (details₁ details₂ : Details), DecodesDigits pf → nonce.length = 32 →
      pf.decodeBase64 pk₁ = some raw₁ → raw₁.length = 1184 →
      pf.decodeBase64 pk₂ = some raw₂ → raw₂.length = 1184 →
      (∀ c ∈ preimages nonce pk₁ raw₁, ∀ c' ∈ preimages nonce pk₂ raw₂,
        pf.sha256 c = pf.sha256 c' → c = c') →
      checkQuote cfg pf quote nonce pk₁ = .ok details₁ →
      checkQuote cfg pf quote nonce pk₂ = .ok details₂ → raw₁ = raw₂ := by
  intro always
  obtain ⟨details₁, accepted₁⟩ := isSome_toOption Exchange.accepted₁
  obtain ⟨details₂, accepted₂⟩ := isSome_toOption Exchange.accepted₂
  have same := always defaultConfig Exchange.platform _ _ _ _ _ _ details₁ details₂ Exchange.decodes
    rfl Exchange.decoded₁ Exchange.raw₁_length Exchange.decoded₂ Exchange.raw₂_length
    Exchange.injective accepted₁ accepted₂
  exact absurd same (by decide)

theorem exchanged_keys_iff :
    Exchange.raw₁ = Exchange.raw₂ ↔
      ¬ Exchanged Exchange.nonce Exchange.raw₁ Exchange.raw₂ ∧
        ¬ (Exchanged (toHex Exchange.nonce) Exchange.pk₁ Exchange.pk₂ ∧
          Exchange.raw₁ ≠ Exchange.raw₂) := by
  obtain ⟨details₁, accepted₁⟩ := isSome_toOption Exchange.accepted₁
  obtain ⟨details₂, accepted₂⟩ := isSome_toOption Exchange.accepted₂
  exact binding_proves_key_iff Exchange.decodes rfl Exchange.decoded₁ Exchange.raw₁_length
    Exchange.decoded₂ Exchange.raw₂_length Exchange.injective accepted₁ accepted₂

end E2eeProxy.Attest
