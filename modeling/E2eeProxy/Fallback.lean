import E2eeProxy.AttestedRuns
import E2eeProxy.FindQuotes
import E2eeProxy.Lib.Completion

/-! # Falling back on other endpoints

Evidence is fetched from the first endpoint that answers with a document, whatever
is in it, and that endpoint is remembered. So the others are tried only while there
is no document.
-/

namespace E2eeProxy.Attest

open Lua Lib

/-- The templates as `fetch_evidence` tries them. -/
def trial (cfg : Config) (good : Option Bytes) : List Bytes :=
  good.toList ++ (urlTemplates cfg).filter fun t => some t ≠ good

/-- The JSON document in an answer. -/
def document (pf : Platform) (a : Except Bytes Response) : Option Value :=
  match a with
  | .ok res => if res.status = 200 then pf.decodeTruthy res.body else none
  | .error _ => none

/-- Every endpoint answers in its way, and this nonce is drawn. -/
def answeredBy (endpoint : Bytes → Except Bytes Response) (nonce : Bytes) (_ : View proxy) :
    (r : Request) → r.Answer → Prop
  | .evidence url _, a => a = endpoint url
  | .random _, a => a = some nonce
  | .models .., _ | .instances .., _ | .roll, _ | .build .., _ | .connect, _ | .invoke _, _
  | .readBody, _ | .decryptResponse .., _ | .streamStart _, _ | .streamRest, _ => True

section Verification

variable (cfg : Config) (pf : Platform) (endpoint : Bytes → Except Bytes Response)
  (chuteId : Value) (instanceId : Id) (nonce pk : Bytes)

/-- Somewhere in the document is a quote that is accepted, and the instance is not
    reported as failed. -/
def HoldsQuote (data : Value) : Prop :=
  (∃ depth, ∃ s ∈ strings pf depth data, ∃ q details, quoteIn pf s = some q ∧
    checkQuote cfg pf q nonce pk = .ok details) ∧
  (tableField data "failed_instance_ids").any (fun v => isId instanceId (some v)) = false

/-- One of the endpoints has a document that holds such a quote. -/
def Usable (templates : List Bytes) : Prop :=
  ∃ template ∈ templates, ∃ url data,
    evidenceUrl cfg pf chuteId instanceId.value (toHex nonce) template = .ok url ∧
    document pf (endpoint url) = some data ∧ HoldsQuote cfg pf instanceId nonce pk data

/-- The first document passes. -/
def FirstPasses : List Bytes → Prop
  | [] => False
  | template :: rest =>
      match evidenceUrl cfg pf chuteId instanceId.value (toHex nonce) template with
      | .error _ => False
      | .ok url =>
          match document pf (endpoint url) with
          | some data => Passes cfg pf nonce pk (quotesFor pf data instanceId)
          | none => FirstPasses rest

/-- The key is known to have been verified. -/
def Known (v : View proxy) : Prop :=
  ∃ c, v.state.verified instanceId = some c ∧ c.pubkeyFp = toHex (pf.sha256 pk) ∧
    v.clock < c.expiresAt

/-- `verify` ends with `true`. -/
def Verifies (apiKey : Bytes) (t : ℕ) (v : View proxy) : Prop :=
  Concludes (answeredBy endpoint nonce) t
    (verify cfg pf chuteId instanceId (some (.str pk)) apiKey)
    (fun res _ => ∃ how, res = .ok (.ok how)) v

theorem answeredBy_total (w : View proxy) (r : Request) : ∃ a, answeredBy endpoint nonce w r a := by
  cases r with
  | evidence url apiKey => exact ⟨endpoint url, rfl⟩
  | random n => exact ⟨some nonce, rfl⟩
  | models | instances | build | connect | invoke | decryptResponse =>
      exact ⟨.error [], trivial⟩
  | readBody => exact ⟨none, trivial⟩
  | roll => exact ⟨⟨0, 0⟩, trivial⟩
  | streamStart => exact ⟨.noReader, trivial⟩
  | streamRest => exact ⟨false, trivial⟩

/-- What is fetched passes exactly if the first document does. -/
theorem tryTemplates_concludes (apiKey : Bytes) (t : ℕ) (templates : List Bytes) (last : FetchError)
    (v : View proxy) :
    Concludes (answeredBy endpoint nonce) t
      (tryTemplates cfg pf chuteId instanceId.value (toHex nonce) apiKey templates last)
      (fun res _ => (∃ data url, res = .ok (.ok (data, url)) ∧
        Passes cfg pf nonce pk (quotesFor pf data instanceId)) ↔
        FirstPasses cfg pf endpoint chuteId instanceId nonce pk templates) v := by
  induction templates generalizing last v with
  | nil =>
      constructor
      · rintro ⟨_, _, fetched, -⟩
        cases fetched
      · exact False.elim
  | cons template rest ih =>
      unfold tryTemplates FirstPasses
      cases made : evidenceUrl cfg pf chuteId instanceId.value (toHex nonce) template with
      | error e =>
          constructor
          · rintro ⟨_, _, fetched, -⟩
            cases fetched
          · exact False.elim
      | ok url =>
          rintro w - a rfl
          dsimp only [Routine.bind, document]
          cases endpoint url with
          | error err => exact ih _ _
          | ok res =>
              dsimp only
              by_cases ok : res.status = 200
              · rw [if_neg (not_not.mpr ok), if_pos ok]
                cases pf.decodeTruthy res.body with
                | none => exact ih _ _
                | some data =>
                    constructor
                    · rintro ⟨_, _, same, passes⟩
                      cases same
                      exact passes
                    · exact fun passes => ⟨data, url, rfl, passes⟩
              · rw [if_pos ok, if_neg ok]
                exact ih _ _

/-- What was not fetched did not pass. -/
theorem unfetched {ε ε' : Type} {fetched : Except ε (Except ε' (Value × Bytes))}
    {accepts : Value → Prop} {first : Prop}
    (passes : (∃ data url, fetched = .ok (.ok (data, url)) ∧ accepts data) ↔ first)
    (failed : ∀ found, fetched ≠ .ok (.ok found)) : ¬ first := by
  intro isFirst
  obtain ⟨data, url, same, -⟩ := passes.mpr isFirst
  exact failed _ same

/-- What was fetched is accepted if it passes. -/
theorem judge_passes {ε ε' : Type} {data : Value} {url : Bytes} {first : Prop}
    (passes : (∃ data' url',
      (.ok (.ok (data, url)) : Except ε (Except ε' (Value × Bytes))) = .ok (.ok (data', url')) ∧
        Passes cfg pf nonce pk (quotesFor pf data' instanceId)) ↔ first) :
    (∃ details, judge cfg pf instanceId nonce pk data url = .ok (.ok details)) ↔ first := by
  rw [judge_iff, ← passes]
  constructor
  · exact fun accepted => ⟨data, url, rfl, accepted⟩
  · rintro ⟨_, _, same, accepted⟩
    cases same
    exact accepted

theorem verifyFresh_concludes {apiKey fp : Bytes} {now : Rat} (t : ℕ) (v : View proxy)
    (drawn : nonce.length = 32) :
    Concludes (answeredBy endpoint nonce) t
      (verifyFresh cfg pf chuteId instanceId pk fp apiKey now)
      (fun res _ => (∃ how, res = .ok (.ok how)) ↔
        FirstPasses cfg pf endpoint chuteId instanceId nonce pk
          (trial cfg v.state.goodUrlTemplate)) v := by
  rintro a rfl
  have filtered : (some nonce).filter (fun nonce => nonce.length = 32) = some nonce := by
    rw [Option.filter_some, if_pos (decide_eq_true drawn)]
  dsimp only [Routine.bind]
  rw [filtered]
  refine (tryTemplates_concludes cfg pf endpoint chuteId instanceId nonce pk apiKey t _ _ _).bind
    ?_ ?_
  · intro fetched w passes
    change _ ↔ FirstPasses cfg pf endpoint chuteId instanceId nonce pk
      (trial cfg v.state.goodUrlTemplate) at passes
    cases fetched with
    | error err => exact iff_of_false (by rintro ⟨_, ⟨⟩⟩) (unfetched passes nofun)
    | ok found =>
        obtain ⟨data, url⟩ := found
        rw [← judge_passes cfg pf instanceId nonce pk passes]
        dsimp only
        cases judge cfg pf instanceId nonce pk data url with
        | error e => exact iff_of_false (by rintro ⟨_, ⟨⟩⟩) (by rintro ⟨_, ⟨⟩⟩)
        | ok judged =>
            cases judged with
            | error err => exact iff_of_false (by rintro ⟨_, ⟨⟩⟩) (by rintro ⟨_, ⟨⟩⟩)
            | ok details => exact ⟨fun _ => ⟨details, rfl⟩, fun _ => ⟨false, rfl⟩⟩
  · intro e w passes
    exact iff_of_false (by rintro ⟨_, ⟨⟩⟩) (unfetched passes nofun)

/-- The outcome of a verification. -/
theorem verify_concludes (apiKey : Bytes) (t : ℕ) (v : View proxy) (drawn : nonce.length = 32) :
    Concludes (answeredBy endpoint nonce) t
      (verify cfg pf chuteId instanceId (some (.str pk)) apiKey)
      (fun res _ => (∃ how, res = .ok (.ok how)) ↔
        cfg.attestMode = .off ∨ Known pf instanceId pk v ∨
          FirstPasses cfg pf endpoint chuteId instanceId nonce pk
            (trial cfg v.state.goodUrlTemplate)) v := by
  unfold verify
  split
  · rename_i off
    exact ⟨fun _ => .inl off, fun _ => ⟨false, rfl⟩⟩
  · rename_i on
    dsimp only [fingerprint, lua, ngxNow, getState, Routine.bind_eq, Routine.bind, Concludes]
    split
    · rename_i c cached
      obtain ⟨known, valid⟩ := Option.filter_eq_some_iff.mp cached
      obtain ⟨same, fresh⟩ := of_decide_eq_true valid
      exact ⟨fun _ => .inr (.inl ⟨c, known, same, fresh⟩), fun _ => ⟨true, rfl⟩⟩
    · rename_i uncached
      have unknown : ¬ Known pf instanceId pk v := by
        rintro ⟨c, known, same, fresh⟩
        rw [known, Option.filter_some, if_pos (decide_eq_true ⟨same, fresh⟩)] at uncached
        cases uncached
      apply (verifyFresh_concludes cfg pf endpoint chuteId instanceId nonce pk t v drawn).mono
      intro res w passes
      rw [passes]
      constructor
      · exact fun first => .inr (.inr first)
      · rintro (off | known | first)
        · exact absurd off on
        · exact absurd known unknown
        · exact first

/-- `verify` ends with `true` in these cases. -/
theorem verifies_iff (apiKey : Bytes) (t : ℕ) (v : View proxy) (drawn : nonce.length = 32) :
    Verifies cfg pf endpoint chuteId instanceId nonce pk apiKey t v ↔
      cfg.attestMode = .off ∨ Known pf instanceId pk v ∨
        FirstPasses cfg pf endpoint chuteId instanceId nonce pk
          (trial cfg v.state.goodUrlTemplate) := by
  have outcome :=
    verify_concludes cfg pf endpoint chuteId instanceId nonce pk apiKey t v drawn
  constructor
  · intro verifies
    obtain ⟨res, w, same, verified⟩ := outcome.both (answeredBy_total endpoint nonce) verifies
    exact same.mp verified
  · exact fun passes => outcome.mono fun res w same => same.mpr passes

end Verification

/-- With a usable endpoint, a key is verified in any state exactly if verification is
    off, the key is known, or the first document that is fetched passes. -/
theorem fallback_iff (cfg : Config) (pf : Platform) (endpoint : Bytes → Except Bytes Response)
    (chuteId : Value) (instanceId : Id) {nonce : Bytes} (drawn : nonce.length = 32)
    (pk apiKey : Bytes) (t : ℕ) (v : View proxy) :
    (Usable cfg pf endpoint chuteId instanceId nonce pk (trial cfg v.state.goodUrlTemplate) →
      Verifies cfg pf endpoint chuteId instanceId nonce pk apiKey t v) ↔
    cfg.attestMode = .off ∨ Known pf instanceId pk v ∨
      ¬ Usable cfg pf endpoint chuteId instanceId nonce pk (trial cfg v.state.goodUrlTemplate) ∨
      FirstPasses cfg pf endpoint chuteId instanceId nonce pk
        (trial cfg v.state.goodUrlTemplate) := by
  rw [verifies_iff cfg pf endpoint chuteId instanceId nonce pk apiKey t v drawn]
  by_cases usable : Usable cfg pf endpoint chuteId instanceId nonce pk
      (trial cfg v.state.goodUrlTemplate)
  · simp only [usable, true_imp_iff, not_true_eq_false, false_or]
  · simp only [usable, false_imp_iff, not_false_eq_true, true_or, or_true]

namespace Sample

open Handler.Sample (quoteText key)

/-- Documents without and with the quote. -/
def evidencePlatform : Platform :=
  { Handler.Sample.platform with
    toRuntime := .ofDocuments [(lit "empty", .obj []), (lit "evidence", Handler.Sample.evidence)] }

def instanceId : Id := ⟨.str (lit "a"), none⟩

def chuteId : Value := .str (lit "c")

/-- The first of the default endpoints has no evidence, the second has. -/
def secondHelps (url : Bytes) : Except Bytes Response :=
  if startsWith (lit "https://api.chutes.ai/chutes/") url then .ok ⟨200, lit "empty"⟩
  else .ok ⟨200, lit "evidence"⟩

def secondUrl : Bytes :=
  lit "https://api.chutes.ai/instances/a/attestation?nonce=" ++ toHex (List.replicate 32 0)

def nonce : Bytes := List.replicate 32 0

def fresh : View proxy := ⟨.new, 0, []⟩

theorem quote_accepted : ∃ details,
    checkQuote defaultConfig evidencePlatform Handler.Sample.quote nonce key = .ok details := by
  have ok : (checkQuote defaultConfig evidencePlatform Handler.Sample.quote nonce
      key).toOption.isSome = true := by decide +kernel
  cases checked : checkQuote defaultConfig evidencePlatform Handler.Sample.quote nonce key with
  | error err =>
      rw [checked] at ok
      cases ok
  | ok details => exact ⟨details, rfl⟩

theorem evidence_holdsQuote :
    HoldsQuote defaultConfig evidencePlatform instanceId nonce key Handler.Sample.evidence := by
  obtain ⟨details, accepted⟩ := quote_accepted
  refine ⟨⟨9, quoteText, ?_, Handler.Sample.quote, details, ?_, accepted⟩, ?_⟩ <;> decide +kernel

theorem secondHelps_usable : Usable defaultConfig evidencePlatform secondHelps chuteId instanceId
    nonce key (trial defaultConfig none) := by
  refine ⟨_, List.mem_cons_of_mem _ List.mem_cons_self, secondUrl, Handler.Sample.evidence, ?_, ?_,
    evidence_holdsQuote⟩ <;> decide +kernel

/-- An endpoint that has the evidence at whatever URL. -/
def allHelp (_ : Bytes) : Except Bytes Response := .ok ⟨200, lit "evidence"⟩

def firstUrl : Bytes := lit "https://api.chutes.ai/chutes/c/evidence?nonce=" ++ toHex nonce

theorem allHelp_usable : Usable defaultConfig evidencePlatform allHelp chuteId instanceId nonce key
    (trial defaultConfig none) := by
  refine ⟨_, List.mem_cons_self, firstUrl, Handler.Sample.evidence, ?_, ?_, evidence_holdsQuote⟩ <;>
    decide +kernel

theorem firstUrl_made :
    evidenceUrl defaultConfig evidencePlatform chuteId instanceId.value (toHex nonce)
      (lit "\x7bapi\x7d/chutes/\x7bchute_id\x7d/evidence?nonce=\x7bnonce_hex\x7d") =
      .ok firstUrl := by decide

theorem allHelp_passes : FirstPasses defaultConfig evidencePlatform allHelp chuteId instanceId nonce
    key (trial defaultConfig none) := by
  have found : document evidencePlatform (allHelp firstUrl) = some Handler.Sample.evidence := by
    decide +kernel
  have tried : (quotesFor evidencePlatform Handler.Sample.evidence instanceId).any
      (fun quotes => quotes.any fun quote => quote.raw = Handler.Sample.quote) = true := by
    decide +kernel
  obtain ⟨quotes, same, some'⟩ := (Option.any_eq_true _ _).mp tried
  obtain ⟨quote, mem, raw⟩ := List.any_eq_true.mp some'
  obtain ⟨details, accepted⟩ := quote_accepted
  change FirstPasses _ _ _ _ _ _ _ (_ :: _)
  rw [FirstPasses, firstUrl_made]
  dsimp only
  rw [found]
  exact ⟨quotes, same, quote, mem, details, of_decide_eq_true raw ▸ accepted⟩

end Sample

theorem fallback_sample :
    Verifies defaultConfig Sample.evidencePlatform Sample.allHelp Sample.chuteId Sample.instanceId
      Sample.nonce Handler.Sample.key [] 0 Sample.fresh :=
  (fallback_iff defaultConfig Sample.evidencePlatform Sample.allHelp Sample.chuteId
    Sample.instanceId (show Sample.nonce.length = 32 from rfl) Handler.Sample.key [] 0
    Sample.fresh).mpr
    (.inr (.inr (.inr Sample.allHelp_passes))) Sample.allHelp_usable

/-- A document without a quote stops the endpoint that has one from being tried. -/
theorem document_without_quote_decides :
    Usable defaultConfig Sample.evidencePlatform Sample.secondHelps Sample.chuteId Sample.instanceId
      Sample.nonce Handler.Sample.key (trial defaultConfig Sample.fresh.state.goodUrlTemplate) ∧
    ¬ Verifies defaultConfig Sample.evidencePlatform Sample.secondHelps Sample.chuteId
      Sample.instanceId Sample.nonce Handler.Sample.key [] 0 Sample.fresh := by
  refine ⟨Sample.secondHelps_usable, ?_⟩
  rw [verifies_iff _ _ _ _ _ _ _ _ _ _ rfl]
  rintro (off | ⟨c, known, -⟩ | first)
  · cases off
  · cases known
  · have found : document Sample.evidencePlatform (Sample.secondHelps Sample.firstUrl) =
        some (.obj []) := by decide
    change FirstPasses _ _ _ _ _ _ _ (_ :: _) at first
    rw [FirstPasses, Sample.firstUrl_made] at first
    dsimp only at first
    rw [found] at first
    obtain ⟨quotes, none, quote, mem, -⟩ := first
    have empty : quotesFor Sample.evidencePlatform (.obj []) Sample.instanceId = some [] := by
      decide
    cases empty.symm.trans none
    cases mem

end E2eeProxy.Attest
