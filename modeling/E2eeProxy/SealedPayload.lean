import E2eeProxy.Blob
import E2eeProxy.Lua.Cjson

/-! # The payload that is sealed

`build_e2ee_request` decodes the payload and encodes it again, which keeps all of it
but the numbers: a number is sealed as the client sent it only if the double it is
read as is written as that number.
-/

namespace E2eeProxy.Crypto

open Lua Lib

/-- The client's object with the response key in it. -/
def withKey (key : Bytes) (fields : List (Bytes × Value)) : Value :=
  .obj (fields ++ [(lit "e2e_response_pk", .str key)])

/-- What is sealed for the payload has the JSON value `v`. -/
def SealsValue (rt : Runtime) (codec : NumberCodec) (key payloadJson : Bytes) (v : Value) : Prop :=
  ∃ text u, augment rt key payloadJson = .ok (.ok text) ∧ codec.Denotes text u ∧ Same u v

/-- A request is built by sealing the augmented payload. -/
theorem buildE2eeRequest_seals {rt : Runtime} {suite : Suite} {draw : Draw}
    {e2ePubkeyB64 : Option Value} {payloadJson blob responseSk : Bytes}
    (built : buildE2eeRequest rt suite draw e2ePubkeyB64 payloadJson =
      .ok (.ok (blob, responseSk))) :
    ∃ responsePk symKey mlkemCt text, suite.mlkemKeygen draw.keygen = some (responsePk, responseSk) ∧
      augment rt (suite.encodeBase64 responsePk) payloadJson = .ok (.ok text) ∧
      sealPayload suite draw.nonce symKey mlkemCt text = .ok (.ok blob) := by
  unfold buildE2eeRequest at built
  cases keygen : suite.mlkemKeygen draw.keygen with
  | none => simp [keygen, pure, Except.pure] at built
  | some pair =>
      obtain ⟨responsePk, sk⟩ := pair
      rw [keygen] at built
      obtain ⟨decoded, -, built⟩ := bind_ok built
      split at built
      · cases built
      · split at built
        · cases built
        · split at built
          · cases built
          · obtain ⟨augmented, isAugmented, built⟩ := bind_ok built
            cases augmented with
            | error err => cases built
            | ok text =>
                obtain ⟨sealed, isSealed, built⟩ := bind_ok built
                cases sealed with
                | error err => cases built
                | ok out =>
                    cases built
                    exact ⟨responsePk, _, _, text, rfl, isAugmented, isSealed⟩

/-- Setting the field in the decoded table is setting it in the document. -/
theorem withResponseKey_same {codec : NumberCodec} {fields : List (Bytes × Value)} {w : Value}
    (key : Bytes) (same : Same w (codec.decoded true none (.obj fields)))
    (distinct : ∀ entries, w = .obj entries → (entries.map Prod.fst).Nodup) :
    isTable (some w) = true ∧
      Same (withResponseKey key w) (codec.decoded true none (withKey key fields)) := by
  have mapped : codec.decoded true none (.obj fields) =
      .obj (fields.map fun e => (e.1, codec.decoded true (some e.1) e.2)) := by
    cases fields with
    | nil => rfl
    | cons e fields => exact recode_obj _ _ (List.cons_ne_nil e fields)
  rw [mapped] at same
  cases w with
  | null | bool | num | str | arr => cases same
  | obj entries =>
      refine ⟨rfl, ?_⟩
      have nonempty : fields ++ [(lit "e2e_response_pk", Value.str key)] ≠ [] := by simp
      unfold withKey NumberCodec.decoded
      rw [recode_obj _ _ nonempty, withResponseKey, same_obj_iff]
      intro k
      rw [same_obj_iff] at same
      have here := same k
      rw [lastLookup_eq_lookup k (distinct entries rfl)] at here
      rw [lastLookup_recode, lastLookup_append_single,
        lastLookup_eq_lookup k (setEntry_nodup _ _ (distinct entries rfl)), lookup_setEntry]
      by_cases isKey : k = lit "e2e_response_pk"
      · rw [if_pos isKey, if_pos isKey.symm]
        exact .some (.str key)
      · rw [if_neg isKey, if_neg fun h => isKey h.symm]
        exact (lastLookup_recode codec.read (fun _ array => array && true) k fields) ▸ here

/-- What is sealed has the client's value exactly when every number survives. -/
theorem sealsValue_iff {rt : Runtime} {codec : NumberCodec} (defaults : Defaults rt codec)
    {fields : List (Bytes × Value)} {payloadJson : Bytes}
    (decodes : codec.Decodes rt true payloadJson (.obj fields)) (key : Bytes) :
    SealsValue rt codec key payloadJson (withKey key fields) ↔
      ∀ q, HasNumber (withKey key fields) q → Survives q := by
  obtain ⟨w, decoded, same, distinct⟩ := decodes
  obtain ⟨table, isDecoded⟩ := withResponseKey_same key same distinct
  have encodable : rt.encodes (withResponseKey key w) = true ↔
      ∀ q, HasNumber (withKey key fields) q → |toDouble q| < 2 ^ 1024 := by
    rw [defaults.encodes, finite_iff]
    simp only [isDecoded.hasNumber, NumberCodec.decoded, hasNumber_recode, defaults.read]
    constructor
    · intro all q held
      exact all _ ⟨q, held, rfl⟩
    · rintro all _ ⟨q, held, rfl⟩
      exact all q held
  have kept : ∀ v, Same v (withResponseKey key w) →
      (Same (codec.printed none v) (withKey key fields) ↔
        ∀ q, HasNumber (withKey key fields) q → printDouble (toDouble q) = q) := by
    intro v written
    have printed : Same (codec.printed none v)
        (codec.printed none (codec.decoded true none (withKey key fields))) :=
      (written.trans isDecoded).recode _ _ none
    rw [codec.printed_decoded, defaults.read, defaults.print] at printed
    simp only [Bool.and_true] at printed
    rw [← same_numbers_iff (fun q => printDouble (toDouble q))]
    exact ⟨printed.symm.trans, printed.trans⟩
  constructor
  · rintro ⟨text, u, augmented, denotes, isValue⟩ q held
    simp only [augment, decoded, table, not_true_eq_false, if_false] at augmented
    split at augmented
    · rename_i encodes
      cases augmented
      obtain ⟨v, written, isText⟩ := defaults.writes _ encodes
      have value : u = codec.printed none v := denotes.unique ⟨v, isText, rfl⟩
      rw [value, kept v written] at isValue
      exact ⟨encodable.mp encodes q held, isValue q held⟩
    · cases augmented
  · intro survive
    have encodes := encodable.mpr fun q held => (survive q held).1
    obtain ⟨v, written, isText⟩ := defaults.writes _ encodes
    refine ⟨_, codec.printed none v, ?_, ⟨v, isText, rfl⟩,
      (kept v written).mpr fun q held => (survive q held).2⟩
    simp [augment, decoded, table, encodes, pure, Except.pure]

/-- What a request seals is the augmented payload. It has the client's value with the
    response key set exactly when all its numbers survive, which those of full precision
    do that have at most 14 digits. -/
theorem sealed_value_kept_iff {rt : Runtime} {codec : NumberCodec} (defaults : Defaults rt codec)
    {fields : List (Bytes × Value)} {payloadJson : Bytes}
    (decodes : codec.Decodes rt true payloadJson (.obj fields)) :
    (∀ suite draw pubkeyB64 blob responseSk,
      buildE2eeRequest rt suite draw pubkeyB64 payloadJson = .ok (.ok (blob, responseSk)) →
      ∃ responsePk symKey mlkemCt text,
        suite.mlkemKeygen draw.keygen = some (responsePk, responseSk) ∧
        augment rt (suite.encodeBase64 responsePk) payloadJson = .ok (.ok text) ∧
        sealPayload suite draw.nonce symKey mlkemCt text = .ok (.ok blob)) ∧
    (∀ key, SealsValue rt codec key payloadJson (withKey key fields) ↔
      ∀ q, HasNumber (withKey key fields) q → Survives q) ∧
    Survives 0 ∧
    ∀ q : Rat, (2 : Rat) ^ (-1022 : ℤ) ≤ |q| →
      (Survives q ↔ |toDouble q| < 2 ^ 1024 ∧ HasDigits 10 14 q) := by
  refine ⟨?_, sealsValue_iff defaults decodes, survives_zero, fun q => survives_iff⟩
  intro suite draw pubkeyB64 blob responseSk built
  exact buildE2eeRequest_seals built

namespace Sample

/-- A seed with 17 digits. -/
def seedJson : Bytes := lit "\x7b\"seed\":12345678901234567\x7d"

def seed : List (Bytes × Value) := [(lit "seed", .num 12345678901234567)]

def seedRuntime : Runtime :=
  Lua.Sample.cjson [(seedJson, .obj [(lit "seed", .num 12345678901234568)])]

theorem seed_decodes : Lua.Sample.codec.Decodes seedRuntime true seedJson (.obj seed) := by
  refine ⟨.obj [(lit "seed", .num 12345678901234568)], rfl, ?_, ?_⟩
  · have read : Lua.Sample.codec.decoded true none (.obj seed) =
        .obj [(lit "seed", .num 12345678901234568)] := by decide +kernel
    rw [read]
    exact .refl _
  · rintro entries ⟨⟩
    decide

end Sample

theorem sealed_value_kept_iff_sample :
    (∀ suite draw pubkeyB64 blob responseSk,
      buildE2eeRequest Sample.seedRuntime suite draw pubkeyB64 Sample.seedJson =
        .ok (.ok (blob, responseSk)) →
      ∃ responsePk symKey mlkemCt text,
        suite.mlkemKeygen draw.keygen = some (responsePk, responseSk) ∧
        augment Sample.seedRuntime (suite.encodeBase64 responsePk) Sample.seedJson =
          .ok (.ok text) ∧
        sealPayload suite draw.nonce symKey mlkemCt text = .ok (.ok blob)) ∧
    (∀ key, SealsValue Sample.seedRuntime Lua.Sample.codec key Sample.seedJson
        (withKey key Sample.seed) ↔
      ∀ q, HasNumber (withKey key Sample.seed) q → Survives q) ∧
    Survives 0 ∧
    ∀ q : Rat, (2 : Rat) ^ (-1022 : ℤ) ≤ |q| →
      (Survives q ↔ |toDouble q| < 2 ^ 1024 ∧ HasDigits 10 14 q) :=
  sealed_value_kept_iff (Lua.Sample.defaults _) Sample.seed_decodes

/-- The seed arrives as 12345678901235000. -/
theorem seed_altered :
    ∃ text, augment Sample.seedRuntime Sample.zeroKeyB64 Sample.seedJson = .ok (.ok text) ∧
      Lua.Sample.codec.Denotes text
        (withKey Sample.zeroKeyB64 [(lit "seed", .num 12345678901235000)]) ∧
      ¬ SealsValue Sample.seedRuntime Lua.Sample.codec Sample.zeroKeyB64 Sample.seedJson
        (withKey Sample.zeroKeyB64 Sample.seed) := by
  refine ⟨Lua.Sample.codec.text
    (withKey Sample.zeroKeyB64 [(lit "seed", .num 12345678901234568)]), ?_, ⟨_, rfl, ?_⟩, ?_⟩
  · decide +kernel
  · decide +kernel
  · intro kept
    have survive := (sealsValue_iff (Lua.Sample.defaults _) Sample.seed_decodes _).mp kept
    have same := (survive 12345678901234567 ⟨some (lit "seed"), by decide⟩).2
    revert same
    decide +kernel

end E2eeProxy.Crypto
