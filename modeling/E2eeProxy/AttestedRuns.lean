import E2eeProxy.HandlerSteps
import E2eeProxy.TakeNonce

/-! # Requests are sealed to attested keys only

In enforce mode, in any run of interleaved requests, whatever the endpoints
answer: a key that a request is encrypted to was verified for its instance, by
the same request just before or by some request less than the lifetime of a
verification ago. The invariant says of every cached verification that it took
place, for a key with that fingerprint.
-/

namespace E2eeProxy.Handler

open Lua Lib Discovery

/-- The history, newest entry first. -/
abbrev History := List (Entry proxy)

/-- What a verification puts into the history once it has drawn its nonce. -/
inductive AsksEvidence : Happening proxy → Prop
  | asked (url apiKey) : AsksEvidence (.asked (.evidence url apiKey))
  | answered (url apiKey a) : AsksEvidence (.answered (.evidence url apiKey) a)

section Verifications

variable (cfg : Config) (pf : Platform)

/-- The document has a quote that `check_quote` accepts for this key and nonce. -/
def Accepts (instanceId : Id) (pk nonce : Bytes) (data : Value) : Prop :=
  ∃ quotes q details, Attest.quotesFor pf data instanceId = some quotes ∧ q ∈ quotes ∧
    Attest.checkQuote cfg pf q.raw nonce pk = .ok details

/-- Since it drew the nonce at `start`, the task has done nothing but ask for
    evidence. -/
def DrawnSince (history : History) (t : ℕ) (nonce : Bytes) (start : Rat) (before : History) : Prop :=
  ∃ between, history = between ++ ⟨t, start, .answered (.random 32) (some nonce)⟩ :: before ∧
    ∀ e ∈ between, e.task = t → AsksEvidence e.what

/-- The newest entry of the history is the document by which task `t` verifies
    the key of an instance: it was fetched for the instance with a nonce the task
    drew for that, at `start`, and has a quote that is accepted. -/
def VerifiesNow (history : History) (t : ℕ) (instanceId : Id) (pk : Bytes) (start : Rat) : Prop :=
  ∃ c url apiKey body data chuteId template nonce before older,
    history = ⟨t, c, .answered (.evidence url apiKey) (.ok ⟨200, body⟩)⟩ :: before ∧
    DrawnSince before t nonce start older ∧ nonce.length = 32 ∧
    Attest.evidenceUrl cfg pf chuteId instanceId.value (Attest.toHex nonce) template = .ok url ∧
    pf.decodeTruthy body = some data ∧ Accepts cfg pf instanceId pk nonce data

/-- The key of the instance was verified at some time, from `start` on. -/
def Verified (history : History) (instanceId : Id) (pk : Bytes) (start : Rat) : Prop :=
  ∃ newer older t, history = newer ++ older ∧ VerifiesNow cfg pf older t instanceId pk start

/-- A nonce of an instance with this key was handed out. -/
def Offered (history : History) (pk : Bytes) : Prop :=
  ∃ e ∈ history, ∃ taken, e.what = .recorded (.handedOut taken) ∧
    taken.inst.e2ePubkey = some (.str pk)

def keyFingerprint (pk : Bytes) : Bytes := Attest.toHex (pf.sha256 pk)

/-- The task may use the instance's key at that time, as far as fingerprints tell
    keys apart. -/
def Cleared (history : History) (t : ℕ) (clock : Rat) (inst : InstanceInfo) : Prop :=
  ∃ pk, inst.e2ePubkey = some (.str pk) ∧ Offered history pk ∧
    ((∃ start, VerifiesNow cfg pf history t inst.instanceId pk start) ∨
      ∃ pk' start, Offered history pk' ∧ keyFingerprint pf pk' = keyFingerprint pf pk ∧
        Verified cfg pf history inst.instanceId pk' start ∧ clock < start + cfg.attestTtlS)

/-- The invariant: cached verifications took place, and requests were sealed to
    cleared keys. -/
structure Attested (v : View proxy) : Prop where
  cache : ∀ id c, v.state.verified id = some c → ∃ pk start, Offered v.history pk ∧
    c.pubkeyFp = keyFingerprint pf pk ∧ c.expiresAt = start + cfg.attestTtlS ∧
    Verified cfg pf v.history id pk start
  sealed : ∀ newer e older, v.history = newer ++ e :: older → ∀ inst payload a,
    e.what = .answered (.build inst payload) a → Cleared cfg pf older e.task e.clock inst

/-! ## What histories keep -/

variable {cfg pf}

theorem Offered.append {history : History} {pk : Bytes} (h : Offered history pk) (newer : History) :
    Offered (newer ++ history) pk := by
  obtain ⟨e, mem, taken⟩ := h
  exact ⟨e, List.mem_append_right newer mem, taken⟩

theorem Offered.push {history : History} {pk : Bytes} (h : Offered history pk) (e : Entry proxy) :
    Offered (e :: history) pk := h.append [e]

theorem Verified.push {history : History} {id : Id} {pk : Bytes} {start : Rat}
    (h : Verified cfg pf history id pk start) (e : Entry proxy) :
    Verified cfg pf (e :: history) id pk start := by
  obtain ⟨newer, older, t, rfl, verifies⟩ := h
  exact ⟨e :: newer, older, t, rfl, verifies⟩

theorem VerifiesNow.verified {history : History} {t : ℕ} {id : Id} {pk : Bytes} {start : Rat}
    (h : VerifiesNow cfg pf history t id pk start) : Verified cfg pf history id pk start :=
  ⟨[], history, t, rfl, h⟩

theorem DrawnSince.push {history before : History} {t : ℕ} {nonce : Bytes} {start : Rat}
    (h : DrawnSince history t nonce start before) {e : Entry proxy}
    (asks : e.task = t → AsksEvidence e.what) : DrawnSince (e :: history) t nonce start before := by
  obtain ⟨between, rfl, own⟩ := h
  refine ⟨e :: between, rfl, fun e' mem same => ?_⟩
  rcases List.mem_cons.mp mem with rfl | older
  · exact asks same
  · exact own e' older same

theorem DrawnSince.others {v v' : View proxy} {before : History} {t : ℕ} {nonce : Bytes}
    {start : Rat} (h : DrawnSince v.history t nonce start before) (others : Others t v v') :
    DrawnSince v'.history t nonce start before := by
  obtain ⟨between, same, own⟩ := h
  obtain ⟨more, same', other⟩ := others
  refine ⟨more ++ between, by rw [same', same, List.append_assoc], fun e mem is => ?_⟩
  cases List.mem_append.mp mem with
  | inl new => exact absurd is (other e new)
  | inr old => exact own e old is

theorem DrawnSince.offered {history before : History} {t : ℕ} {nonce : Bytes} {start : Rat}
    (h : DrawnSince history t nonce start before) {pk : Bytes} (offered : Offered before pk) :
    Offered history pk := by
  obtain ⟨between, rfl, -⟩ := h
  exact (offered.push _).append between

theorem Attested.new (c : Rat) : Attested cfg pf ⟨.new, c, []⟩ :=
  ⟨fun _ _ cached => (nomatch cached), fun newer _ _ split => by cases newer <;> cases split⟩

/-- An entry that seals nothing keeps the invariant. -/
theorem Attested.push {v : View proxy} (h : Attested cfg pf v) (t : ℕ) (what : Happening proxy)
    (plain : ∀ inst payload a, what ≠ .answered (.build inst payload) a) :
    Attested cfg pf (v.push t what) := by
  refine ⟨fun id c cached => ?_, fun newer e older split inst payload a is => ?_⟩
  · obtain ⟨pk, start, offered, print, expires, verified⟩ := h.cache id c cached
    exact ⟨pk, start, offered.push _, print, expires, verified.push _⟩
  · cases newer with
    | nil =>
        obtain ⟨rfl, -⟩ := List.cons.inj split
        exact absurd is (plain inst payload a)
    | cons e' newer => exact h.sealed newer e older (List.cons.inj split).2 inst payload a is

/-- So does one that seals a request to a cleared key. -/
theorem Attested.seal {v : View proxy} (h : Attested cfg pf v) {t : ℕ} {inst : InstanceInfo}
    (cleared : Cleared cfg pf v.history t v.clock inst) (payload : Bytes)
    (a : (Request.build inst payload).Answer) :
    Attested cfg pf (v.push t (.answered (.build inst payload) a)) := by
  refine ⟨fun id c cached => ?_, fun newer e older split inst' payload' a' is => ?_⟩
  · obtain ⟨pk, start, offered, print, expires, verified⟩ := h.cache id c cached
    exact ⟨pk, start, offered.push _, print, expires, verified.push _⟩
  · cases newer with
    | nil =>
        obtain ⟨rfl, rfl⟩ := List.cons.inj split
        cases is
        exact cleared
    | cons e' newer => exact h.sealed newer e older (List.cons.inj split).2 inst' payload' a' is

/-- A change that adds no verification to the cache keeps it. -/
theorem Attested.state {v : View proxy} (h : Attested cfg pf v) {s : ProxyState}
    (sub : ∀ id c, s.verified id = some c → v.state.verified id = some c) :
    Attested cfg pf { v with state := s } :=
  ⟨fun id c cached => h.cache id c (sub id c cached), h.sealed⟩

/-- Nothing is added to the cache of verifications. -/
def KeepsVerified (s s' : ProxyState) : Prop :=
  ∀ id c, s'.verified id = some c → s.verified id = some c

/-- Nothing is sealed. -/
def SealsNothing (what : Happening proxy) : Prop :=
  ∀ inst payload a, what ≠ .answered (.build inst payload) a

theorem attested_stable (t : ℕ) :
    Stable (Attested cfg pf) (Attested cfg pf) t KeepsVerified SealsNothing where
  implies _ h := h
  modify _ _ h keeps := h.state keeps
  push _ what h plain := h.push t what plain
  others _ _ _ h _ := h

end Verifications

/-! ## The routines -/

section Routines

variable {cfg : Config} {pf : Platform} {admits : View proxy → (r : Request) → r.Answer → Prop}
  {t : ℕ} {v : View proxy}

/-- What `get_nonce` returned is in the history. -/
def HandedOut (history : History) (taken : Taken) : Prop :=
  ∃ e ∈ history, e.what = .recorded (.handedOut taken)

theorem attested_takable (chute : Value) : Takable (Attested cfg pf) t chute where
  selector _ _ h := h.state fun _ _ => id
  roll _ _ h := h.push t _ nofun
  drop _ h := h.state fun _ _ => id
  remove _ _ _ _ _ _ h _ _ _ := h.state fun _ _ => id

theorem takeNonce_attested (chute : Value) (mode : Bytes) (h : Attested cfg pf v) :
    Holds admits (Attested cfg pf) t (takeNonce cfg pf chute mode)
      (fun result v' => Attested cfg pf v' ∧ ∀ taken, result = some taken →
        HandedOut v'.history taken) v := by
  refine (takeNonce_holds cfg pf (attested_takable chute) (fun _ => id)
    (fun taken v' => Attested cfg pf v' ∧ HandedOut v'.history taken) ?_ mode h).mono ?_
  · intro v taken batch i inst rest h _
    have kept : Attested cfg pf (withBatch v chute (some (withoutFirst batch i inst rest))) :=
      h.state fun _ _ => id
    exact ⟨kept.push t _ fun _ _ _ => nofun, _, List.mem_cons_self, rfl⟩
  · rintro (_ | taken) v' result
    · exact ⟨result, nofun⟩
    · refine ⟨result.1, fun taken' same => ?_⟩
      obtain rfl := Option.some.inj same
      exact result.2

theorem getNonce_attested (chute : Value) (apiKey mode : Bytes) (h : Attested cfg pf v) :
    Holds admits (Attested cfg pf) t (getNonce cfg pf chute apiKey mode)
      (fun result v' => Attested cfg pf v' ∧ ∀ taken, result = .ok taken →
        HandedOut v'.history taken) v := by
  refine (takeNonce_attested chute mode h).bind fun first v' ⟨h', handed⟩ => ?_
  cases first with
  | some taken =>
      refine ⟨h', fun taken' same => ?_⟩
      obtain rfl := Except.ok.inj same
      exact handed taken rfl
  | none =>
      have fetches : Quiet KeepsVerified SealsNothing (fetchInstances cfg pf chute apiKey) :=
        fetchInstances_quiet cfg pf (fun _ _ _ _ => id) (fun _ _ => nofun) (fun _ _ _ => nofun) _ _
      refine (fetches.holds (attested_stable t) h').bind fun batch v'' h'' => ?_
      cases batch with
      | error err => exact ⟨h'', nofun⟩
      | ok batch =>
          have stored : Attested cfg pf (withBatch v'' chute (some batch)) := h''.state fun _ _ => id
          dsimp only [takeFresh, setCache, modifyState, Routine.bind_eq, Routine.bind, Holds]
          apply (takeNonce_attested chute mode stored).bind
          rintro (_ | taken) v₃ ⟨h₃, handed⟩
          · exact ⟨h₃, nofun⟩
          · refine ⟨h₃, fun taken' same => ?_⟩
            obtain rfl := Except.ok.inj same
            exact handed taken rfl

/-! ## The verification -/

/-- The task verifies a key: it has drawn a nonce and asks for evidence. -/
structure Verifying (cfg : Config) (pf : Platform) (t : ℕ) (nonce : Bytes) (start : Rat)
    (before : History) (v : View proxy) : Prop where
  attested : Attested cfg pf v
  drawn : DrawnSince v.history t nonce start before

theorem Verifying.push {nonce : Bytes} {start : Rat} {before : History}
    (h : Verifying cfg pf t nonce start before v) {what : Happening proxy}
    (asks : AsksEvidence what) : Verifying cfg pf t nonce start before (v.push t what) := by
  refine ⟨h.attested.push t what ?_, h.drawn.push fun _ => asks⟩
  rintro inst payload a rfl
  cases asks

/-- The document that evidence was fetched in, as the newest entry. -/
def Fetched (cfg : Config) (pf : Platform) (t : ℕ) (chute instanceId : Value) (nonce : Bytes)
    (start : Rat) (before : History) (data : Value) (v : View proxy) : Prop :=
  ∃ c url apiKey body template history,
    v.history = ⟨t, c, .answered (.evidence url apiKey) (.ok ⟨200, body⟩)⟩ :: history ∧
    DrawnSince history t nonce start before ∧
    Attest.evidenceUrl cfg pf chute instanceId (Attest.toHex nonce) template = .ok url ∧
    pf.decodeTruthy body = some data

theorem tryTemplates_attested (chute instanceId : Value) (apiKey : Bytes) {nonce : Bytes}
    {start : Rat} {before : History} (templates : List Bytes) (last : Attest.FetchError)
    (h : Verifying cfg pf t nonce start before v) :
    Holds admits (Attested cfg pf) t
      (Attest.tryTemplates cfg pf chute instanceId (Attest.toHex nonce) apiKey templates last)
      (fun result v' => Verifying cfg pf t nonce start before v' ∧
        ∀ data url, result = .ok (data, url) →
          Fetched cfg pf t chute instanceId nonce start before data v') v := by
  induction templates generalizing v last with
  | nil => exact ⟨h, nofun⟩
  | cons template rest ih =>
      unfold Attest.tryTemplates
      cases made : Attest.evidenceUrl cfg pf chute instanceId (Attest.toHex nonce) template with
      | error e => exact h.attested
      | ok url =>
          have asked := h.push (.asked url apiKey)
          refine ⟨asked.attested, fun v' attested others a _ => ?_⟩
          have waited : Verifying cfg pf t nonce start before v' :=
            ⟨attested, asked.drawn.others others⟩
          have answered := waited.push (.answered url apiKey a)
          cases a with
          | error err => exact ih _ answered
          | ok res =>
              dsimp only [Routine.bind]
              split
              · exact ih _ answered
              · rename_i ok
                split
                · exact ih _ answered
                · rename_i data decoded
                  refine ⟨⟨answered.attested.state fun _ _ => id, answered.drawn⟩, ?_⟩
                  intro data' url' same
                  obtain ⟨rfl, rfl⟩ := Prod.mk.inj (Except.ok.inj same)
                  obtain ⟨status, body⟩ := res
                  obtain rfl : status = 200 := by simpa using ok
                  exact ⟨_, url, apiKey, body, template, _, rfl, waited.drawn, made, decoded⟩

theorem judge_accepts {instanceId : Id} {nonce pk url : Bytes} {data : Value}
    {details : Attest.Details}
    (judged : Attest.judge cfg pf instanceId nonce pk data url = .ok (.ok details)) :
    Accepts cfg pf instanceId pk nonce data := by
  unfold Attest.judge at judged
  split at judged
  · cases named : pf.concatArg (some instanceId.value) with
    | ok => rw [named] at judged; cases judged
    | error => rw [named] at judged; cases judged
  · cases judged
  · rename_i quotes _ found
    split at judged
    · rename_i details' accepted
      obtain ⟨q, mem, ok⟩ := List.exists_of_findSome?_eq_some accepted
      refine ⟨quotes, q, details', found, mem, ?_⟩
      cases checked : Attest.checkQuote cfg pf q.raw nonce pk with
      | error err => rw [checked] at ok; cases ok
      | ok d =>
          rw [checked] at ok
          rw [Option.some.inj ok]
    · cases judged

theorem verifyFresh_attested {chute : Value} {inst : InstanceInfo} {pk apiKey : Bytes}
    (h : Attested cfg pf v) (key : inst.e2ePubkey = some (.str pk)) (offered : Offered v.history pk) :
    Holds admits (Attested cfg pf) t
      (Attest.verifyFresh cfg pf chute inst.instanceId pk (keyFingerprint pf pk) apiKey v.clock)
      (fun result v' => Attested cfg pf v' ∧ ∀ how, result = .ok how →
        Cleared cfg pf v'.history t v'.clock inst) v := by
  intro a _
  have pushed := h.push t (.answered (.random 32) a) nofun
  dsimp only [Routine.bind]
  cases drawn : a.filter fun nonce => nonce.length = 32 with
  | none => exact ⟨pushed, nofun⟩
  | some nonce =>
      obtain ⟨rfl, length⟩ := Option.filter_eq_some_iff.mp drawn
      have verifying : Verifying cfg pf t nonce v.clock v.history
          (v.push t (.answered (.random 32) (some nonce))) :=
        ⟨pushed, [], rfl, fun _ mem => nomatch mem⟩
      apply (tryTemplates_attested chute inst.instanceId.value apiKey _ _ verifying).bind
      rintro (err | ⟨data, url⟩) v' ⟨⟨attested, since⟩, fetched⟩
      · exact ⟨attested, nofun⟩
      · obtain ⟨c, url', key', body, template, history, same, before, made, decoded⟩ :=
          fetched data url rfl
        cases judged : Attest.judge cfg pf inst.instanceId nonce pk data url with
        | error e =>
            dsimp only
            rw [judged]
            exact attested
        | ok verdict =>
            cases verdict with
            | error err =>
                dsimp only
                rw [judged]
                exact ⟨attested, nofun⟩
            | ok details =>
                have verifies : VerifiesNow cfg pf v'.history t inst.instanceId pk v.clock :=
                  ⟨c, url', key', body, data, chute, template, nonce, history, v.history, same,
                    before, by simpa using length, made, decoded, judge_accepts judged⟩
                have offered' := since.offered offered
                dsimp only
                rw [judged]
                refine ⟨⟨fun id c cached => ?_, attested.sealed⟩, fun _ _ =>
                  ⟨pk, key, offered', .inl ⟨v.clock, verifies⟩⟩⟩
                dsimp only at cached
                by_cases here : id = inst.instanceId
                · subst here
                  rw [Function.update_self] at cached
                  obtain rfl := Option.some.inj cached
                  exact ⟨pk, v.clock, offered', rfl, rfl, verifies.verified⟩
                · rw [Function.update_of_ne here] at cached
                  exact attested.cache id c cached

theorem guard_attested (enforce : cfg.attestMode = .enforce) (chute : Value) (apiKey : Bytes)
    {taken : Taken} (h : Attested cfg pf v) (handed : HandedOut v.history taken) :
    Holds admits (Attested cfg pf) t
      (Attest.guard cfg pf chute taken.inst.instanceId taken.inst.e2ePubkey apiKey)
      (fun result v' => Attested cfg pf v' ∧ (result = .ok () →
        Cleared cfg pf v'.history t v'.clock taken.inst)) v := by
  have verifies : Holds admits (Attested cfg pf) t
      (Attest.verify cfg pf chute taken.inst.instanceId taken.inst.e2ePubkey apiKey)
      (fun result v' => Attested cfg pf v' ∧ ∀ how, result = .ok how →
        Cleared cfg pf v'.history t v'.clock taken.inst) v := by
    unfold Attest.verify
    rw [if_neg (by simp [enforce])]
    cases print : Attest.fingerprint pf taken.inst.e2ePubkey with
    | error e => exact h
    | ok pair =>
        unfold Attest.fingerprint at print
        split at print
        · rename_i pk key
          obtain rfl := Except.ok.inj print
          have offered : Offered v.history pk := by
            obtain ⟨e, mem, what⟩ := handed
            exact ⟨e, mem, taken, what, key⟩
          dsimp only [lua, ngxNow, getState, Routine.bind_eq, Routine.bind, Holds]
          split
          · rename_i c known
            refine ⟨h, fun _ _ => ?_⟩
            obtain ⟨cached, valid⟩ := Option.filter_eq_some_iff.mp known
            obtain ⟨same, before⟩ := by simpa using valid
            obtain ⟨pk', start, offered', print', expires, verified⟩ := h.cache _ c cached
            rw [expires] at before
            exact ⟨pk, key, offered, .inr ⟨pk', start, offered', print'.symm.trans same, verified,
              before⟩⟩
          · exact verifyFresh_attested h key offered
        · cases print
  unfold Attest.guard Attest.knownFailure
  rw [if_neg (by simp [enforce]), if_neg (by simp [enforce])]
  refine verifies.bind fun result v' ⟨h', cleared⟩ => ?_
  cases result with
  | ok how => exact ⟨h', fun _ => cleared how rfl⟩
  | error err =>
      dsimp only
      rw [if_neg (by simp [enforce])]
      exact ⟨h', nofun⟩

/-! ## The round trip -/

theorem invalidate_keeps (id : Id) : Quiet KeepsVerified SealsNothing (Attest.invalidate id) := by
  refine ⟨fun s id' c cached => ?_, trivial⟩
  dsimp only at cached
  by_cases same : id' = id
  · rw [same, Function.update_self] at cached
    cases cached
  · rwa [Function.update_of_ne same] at cached

theorem incidental_attested (cfg : Config) : Incidental cfg KeepsVerified SealsNothing where
  selects _ _ _ _ := id
  rejects := invalidate_keeps
  forgets := invalidateNonces_quiet (fun _ _ _ _ _ => id) cfg
  connecting := nofun
  connected _ := nofun
  reading := nofun
  read _ := nofun
  decrypted _ _ _ := nofun
  starting _ := nofun
  started _ _ := nofun
  resting := nofun
  rested _ := nofun

theorem pickAttested_attested (enforce : cfg.attestMode = .enforce) {call : Call} {chuteId : Value}
    (picks : Nat) (err : Option Attest.AttestError) (h : Attested cfg pf v) :
    Holds admits (Attested cfg pf) t (pickAttested cfg pf call chuteId picks err)
      (fun result v' => match result with
        | .error _ => Attested cfg pf v'
        | .ok taken => Attested cfg pf v' ∧ Cleared cfg pf v'.history t v'.clock taken.inst) v := by
  apply pickAttested_holds (incidental_attested cfg)
    (fun taken v => Attested cfg pf v ∧ HandedOut v.history taken)
    (fun taken v => Attested cfg pf v ∧ Cleared cfg pf v.history t v.clock taken.inst)
    (attested_stable t) _ _ picks err h
  · intro v h
    apply (getNonce_attested chuteId call.apiKey call.mode h).mono
    intro result v' h'
    cases result with
    | error err => exact h'.1
    | ok taken => exact ⟨h'.1, h'.2 taken rfl⟩
  · intro taken v h
    apply (guard_attested enforce chuteId call.apiKey h.1 h.2).mono
    intro guarded v' h'
    cases guarded with
    | error err => exact h'.1
    | ok passed => exact ⟨h'.1, h'.2 rfl⟩

theorem send_attested {call : Call} {again : Option (Prog (Except Failure Reply))}
    (next : ∀ p ∈ again, ∀ v, Attested cfg pf v →
      Holds admits (Attested cfg pf) t p (fun _ => Attested cfg pf) v)
    (chuteId : Value) (taken : Taken) (blob responseSk : Bytes) (h : Attested cfg pf v) :
    Holds admits (Attested cfg pf) t (send cfg call again chuteId taken blob responseSk)
      (fun _ => Attested cfg pf) v := by
  have stable : Stable (Attested cfg pf) (Attested cfg pf) t KeepsVerified SealsNothing :=
    attested_stable t
  apply send_holds (incidental_attested cfg) stable stable stable stable stable _ _ _ _ next h
  · exact fun v h => h.push t _ nofun
  · exact fun v status h => h.push t _ nofun
  · exact fun v h => h.push t _ nofun
  · exact fun v body h names => h.push t _ nofun

theorem attempt_attested (enforce : cfg.attestMode = .enforce) {call : Call}
    (again : Option (Prog (Except Failure Reply)))
    (next : ∀ p ∈ again, ∀ v, Attested cfg pf v →
      Holds admits (Attested cfg pf) t p (fun _ => Attested cfg pf) v)
    (chuteId : Value) (h : Attested cfg pf v) :
    Holds admits (Attested cfg pf) t (attempt cfg pf call again chuteId)
      (fun _ => Attested cfg pf) v := by
  apply attempt_holds
    (fun taken v => Attested cfg pf v ∧ Cleared cfg pf v.history t v.clock taken.inst)
    (fun _ => Attested cfg pf) _ _ _ (pickAttested_attested enforce 3 none h)
  · exact fun taken v answer h => h.1.seal h.2 call.bodyJson answer
  · exact fun taken v h => h
  · exact fun taken blob responseSk v h => send_attested next chuteId taken blob responseSk h

theorem roundTrip_attested (enforce : cfg.attestMode = .enforce) (call : Call)
    (h : Attested cfg pf v) :
    Holds admits (Attested cfg pf) t (e2eeRoundTrip cfg pf call) (fun _ => Attested cfg pf) v := by
  have resolves : Quiet KeepsVerified SealsNothing
      (resolveChuteId cfg pf call.model call.apiKey) :=
    resolveChuteId_quiet cfg pf (fun _ _ _ _ _ => id) (fun _ _ => nofun) (fun _ _ _ => nofun) _ _
  apply roundTrip_holds (incidental_attested cfg) (fun _ => Attested cfg pf) (attested_stable t)
  · intro chuteId v h
    refine attempt_attested enforce _ ?_ chuteId h
    rintro p ⟨⟩ v h
    exact attempt_attested enforce none (fun _ none => nomatch none) chuteId h
  · apply (resolves.holds (attested_stable t) h).mono
    intro found v' h'
    cases found with
    | error err => exact h'
    | ok chuteId => exact h'.push t _ nofun

end Routines

/-! ## Every run -/

/-- A task is a request that is made. -/
def Calls (cfg : Config) (pf : Platform) (p : Prog (Except Failure (Option Bytes))) : Prop :=
  ∃ call, p = e2eeRoundTrip cfg pf call

theorem reachable_attested {cfg : Config} {pf : Platform} (enforce : cfg.attestMode = .enforce)
    {admits : View proxy → (r : Request) → r.Answer → Prop}
    {w : World proxy (Except Failure (Option Bytes))}
    (reach : Reachable admits (Calls cfg pf) .new w) : Attested cfg pf w.view := by
  refine reach.invariant Attested.new (fun _ _ h => ⟨h.cache, h.sealed⟩) ?_
  rintro p ⟨call, rfl⟩ t v h -
  exact roundTrip_attested enforce call h

namespace Sample

/-- A key of the right length, in base64. -/
def key : Bytes := List.replicate 1579 65 ++ [61]

/-- `sha256(nonce_hex||pk_b64)` for that key and the nonce of zeros. -/
def digest : Bytes :=
  [218, 255, 130, 102, 156, 46, 132, 203, 35, 193, 207, 34, 179, 214, 200, 163, 247, 125, 91, 41,
    199, 110, 152, 160, 166, 112, 139, 46, 123, 60, 254, 2]

def keyDigest : Bytes :=
  [91, 170, 62, 85, 6, 88, 33, 15, 188, 219, 223, 46, 125, 92, 87, 239, 15, 9, 61, 200, 84, 148,
    86, 22, 238, 125, 30, 118, 72, 168, 2, 117]

/-- A version 4 TDX quote with that digest in its report data. -/
def quote : Bytes :=
  [4, 0, 2, 0, 0x81, 0, 0, 0] ++ List.replicate 560 0 ++ digest ++ List.replicate 32 0

def quoteText : Bytes :=
  lit "BAACAIEA" ++ List.replicate 748 65 ++ lit "ANr/gmacLoTLI8HPIrPWyKP3fVspx26YoKZwiy57PP4C" ++
    List.replicate 43 65 ++ [61]

def listed : Value :=
  .obj [(lit "instances", .arr [.obj [(lit "instance_id", .str (lit "a")),
      (lit "e2e_pubkey", .str key), (lit "nonces", .arr [.str (lit "n1")])]])]

def evidence : Value :=
  .obj [(lit "evidence", .arr [.obj [(lit "instance_id", .str (lit "a")),
    (lit "quote", .str quoteText)]])]

def platform : Platform where
  toRuntime := .ofDocuments [(lit "listed", listed), (lit "evidence", evidence)]
  halfPower _ := 1
  sha256 s :=
    if s = Attest.toHex (List.replicate 32 0) ++ key then digest
    else if s = key then keyDigest
    else []
  decodeBase64 s :=
    if s = quoteText then some quote else if s = key then some (List.replicate 1184 0) else none

/-- Discovery and evidence are answered, and the connection is refused. -/
def answers : (r : Request) → r.Answer
  | .models _ _ => .error (lit "timeout")
  | .instances _ _ => .ok ⟨200, lit "listed"⟩
  | .evidence _ _ => .ok ⟨200, lit "evidence"⟩
  | .random n => some (List.replicate n 0)
  | .roll => ⟨0, 0⟩
  | .build _ _ => .ok (lit "blob", lit "sk")
  | .connect => .error (lit "refused")
  | .invoke _ => .error (lit "timeout")
  | .readBody => none
  | .decryptResponse _ _ => .error (lit "decryption failed")
  | .streamStart _ => .noReader
  | .streamRest => false

def call : Call where
  apiKey := lit "key"
  model := .str (lit "00000000-0000-0000-0000-000000000000")
  bodyJson := lit "\x7b\x7d"
  isStreaming := false
  e2ePath := lit "/v1/chat/completions"
  mode := lit "balanced"

def world : World proxy (Except Failure (Option Bytes)) :=
  (World.initial (S := proxy) .new 0).run (fun _ => answers) 0 (e2eeRoundTrip defaultConfig platform call) 2

end Sample

def seals : Happening proxy → Bool
  | .answered (.build _ _) _ => true
  | _ => false

def offersOnly (pk : Bytes) : Happening proxy → Bool
  | .recorded (.handedOut taken) => taken.inst.e2ePubkey = some (.str pk)
  | _ => true

end E2eeProxy.Handler
