import E2eeProxy.NonceRuns

/-! # Whose nonces a request presents

The cache of nonces is keyed by the chute alone, so a request presents what any
request for the chute has fetched, with the key that one carried. What holds of
every run is that the nonce was fetched for the chute, by a request that resolved
its model to it.
-/

namespace E2eeProxy.Handler

open Lua Lib Discovery

/-! ## Where nonces come from -/

def ResolvedTo (history : History) (t : ℕ) (model chute : Value) : Prop :=
  ∃ c, ⟨t, c, .recorded (.resolved model chute)⟩ ∈ history

/-- The nonce was in the answer to a discovery with that key. -/
def FetchedWith (pf : Platform) (history : History) (key nonce : Bytes) : Prop :=
  ∃ t c url res, ⟨t, c, .answered (.instances url key) (.ok res)⟩ ∈ history ∧
    nonce ∈ issuedBy pf (.answered (.instances url key) (.ok res))

section Origins

variable (cfg : Config) (pf : Platform) (sent : Call → Prop)

/-- A task is one of the requests that are sent. -/
def Sent (p : Prog (Except Failure (Option Bytes))) : Prop :=
  ∃ call, sent call ∧ p = e2eeRoundTrip cfg pf call

def instancesUrl (chute : Bytes) : Bytes := cfg.apiBase ++ lit "/e2e/instances/" ++ chute

/-- The discovery was one of the chute, made by a request that carried the key and
    resolved its model to the chute. -/
def FetchedFor (history : History) (chute : Value) (key nonce : Bytes) : Prop :=
  ∃ t c text res call, pf.concatArg (some chute) = .ok text ∧
    ⟨t, c, .answered (.instances (instancesUrl cfg text) key) (.ok res)⟩ ∈ history ∧
    nonce ∈ issuedBy pf (.answered (.instances (instancesUrl cfg text) key) (.ok res)) ∧
    sent call ∧ call.apiKey = key ∧ ResolvedTo history t call.model chute

/-- The invariant: the nonces in the cache and those that were presented were
    fetched for their chute, and the request that presents one carries its key. -/
structure Keyed (v : View proxy) : Prop where
  cache : ∀ chute batch, v.state.nonceCache chute = some batch → ∀ nonce ∈ leftOf batch,
    ∃ key, FetchedFor cfg pf sent v.history chute key nonce
  posted : ∀ newer e older, v.history = newer ++ e :: older → ∀ post,
    e.what = .asked (.invoke post) →
    (∃ key, FetchedFor cfg pf sent older post.chuteId key post.nonce) ∧
    ∃ call, sent call ∧ call.apiKey = post.apiKey ∧ ResolvedTo older e.task call.model post.chuteId

/-- The invariant and what a task knows besides. -/
structure Knowing (K : History → Prop) (v : View proxy) : Prop where
  keyed : Keyed cfg pf sent v
  known : K v.history

end Origins

/-- An entry that is no POST. -/
def NoPost (what : Happening proxy) : Prop := postBy what = none

section Survives

variable {cfg : Config} {pf : Platform} {sent : Call → Prop} {K : History → Prop} {t : ℕ}
  {v : View proxy} {chute : Value}

theorem lasting_resolved (t : ℕ) (model chute : Value) : Lasting (ResolvedTo · t model chute) := by
  intro newer history h
  exact h.imp fun c mem => List.mem_append_right newer mem

theorem lasting_fetched (chute : Value) (nonce : Bytes) :
    Lasting fun history => ∃ key, FetchedFor cfg pf sent history chute key nonce := by
  intro newer history ⟨key, t, c, text, res, call, named, mem, issues, isSent, same, resolved⟩
  refine ⟨key, t, c, text, res, call, named, List.mem_append_right newer mem, issues, isSent, same, ?_⟩
  exact lasting_resolved t call.model chute newer history resolved

theorem FetchedFor.fetchedWith {history : History} {key nonce : Bytes}
    (h : FetchedFor cfg pf sent history chute key nonce) : FetchedWith pf history key nonce := by
  obtain ⟨t, c, text, res, call, -, mem, issues, -⟩ := h
  exact ⟨t, c, instancesUrl cfg text, res, mem, issues⟩

theorem Keyed.new (c : Rat) : Keyed cfg pf sent ⟨.new, c, []⟩ where
  cache _ _ given := nomatch given
  posted newer _ _ split := by cases newer <;> cases split

/-- An entry more: a POST needs a nonce that was fetched for its chute. -/
theorem Keyed.more (h : Keyed cfg pf sent v) (t : ℕ) (what : Happening proxy)
    (posts : ∀ post, what = .asked (.invoke post) →
      (∃ key, FetchedFor cfg pf sent v.history post.chuteId key post.nonce) ∧
      ∃ call, sent call ∧ call.apiKey = post.apiKey ∧
        ResolvedTo v.history t call.model post.chuteId) :
    Keyed cfg pf sent (v.push t what) where
  cache chute batch given nonce mem :=
    lasting_fetched chute nonce [_] _ (h.cache chute batch given nonce mem)
  posted newer e older split post is := by
    cases newer with
    | nil =>
        obtain ⟨rfl, rfl⟩ := List.cons.inj split
        exact posts post is
    | cons _ newer => exact h.posted newer e older (List.cons.inj split).2 post is

theorem Keyed.push (h : Keyed cfg pf sent v) (t : ℕ) {what : Happening proxy} (plain : NoPost what) :
    Keyed cfg pf sent (v.push t what) := by
  apply h.more t what
  intro post is
  rw [is] at plain
  cases plain

theorem Keyed.state (h : Keyed cfg pf sent v) {s : ProxyState} (keeps : KeepsNonces v.state s) :
    Keyed cfg pf sent { v with state := s } where
  cache chute batch given := by
    cases keeps chute with
    | inl same => exact h.cache chute batch (same.symm.trans given)
    | inr none =>
        rw [none] at given
        cases given
  posted := h.posted

/-- Another batch for the chute, whose nonces were fetched for it. -/
theorem Keyed.withBatch (h : Keyed cfg pf sent v) (batch : Batch)
    (fetched : ∀ nonce ∈ leftOf batch, ∃ key, FetchedFor cfg pf sent v.history chute key nonce) :
    Keyed cfg pf sent (withBatch v chute (some batch)) where
  cache other batch' given := by
    by_cases same : other = chute
    · subst same
      rw [withBatch_self] at given
      obtain rfl := Option.some.inj given
      exact fetched
    · rw [withBatch_ne _ _ same] at given
      exact h.cache other batch' given
  posted := h.posted

theorem knowing_stable (lasting : Lasting K) :
    Stable (Keyed cfg pf sent) (Knowing cfg pf sent K) t KeepsNonces NoPost where
  implies _ h := h.keyed
  modify _ _ h keeps := ⟨h.keyed.state keeps, h.known⟩
  push _ _ h plain := ⟨h.keyed.push t plain, lasting [_] _ h.known⟩
  others v w h keyed others := by
    obtain ⟨more, same, -⟩ := others
    refine ⟨keyed, ?_⟩
    rw [same]
    exact lasting more v.history h.known

theorem keyed_stable : Stable (Keyed cfg pf sent) (Keyed cfg pf sent) t KeepsNonces NoPost where
  implies _ h := h
  modify _ _ h keeps := h.state keeps
  push _ _ h plain := h.push t plain
  others _ _ _ h _ := h

theorem knowing_takable (lasting : Lasting K) (chute : Value) :
    Takable (Knowing cfg pf sent K) t chute where
  selector v _ h := (knowing_stable (t := t) lasting).modify v _ h fun _ => .inl rfl
  roll v _ h := (knowing_stable lasting).push v _ h rfl
  drop v h := by
    apply (knowing_stable (t := t) lasting).modify v _ h
    intro other
    by_cases same : other = chute
    · subst same
      exact .inr (Function.update_self ..)
    · exact .inl (Function.update_of_ne same ..)
  remove v batch i inst nonce rest h given here nonces := by
    refine ⟨h.keyed.withBatch _ ?_, h.known⟩
    intro text mem
    exact h.keyed.cache chute batch given text ((left_sublist here nonces).subset mem)

end Survives

/-! ## The routines -/

section Routines

variable {cfg : Config} {pf : Platform} {sent : Call → Prop}
  {admits : View proxy → (r : Request) → r.Answer → Prop} {K : History → Prop} {t : ℕ}
  {v : View proxy} {call : Call} {chute : Value}

theorem takeNonce_keyed (lasting : Lasting K) (chute : Value) (mode : Bytes)
    (h : Knowing cfg pf sent K v) :
    Holds admits (Keyed cfg pf sent) t (takeNonce cfg pf chute mode)
      (fun result v' => match result with
        | none => Knowing cfg pf sent K v'
        | some taken => Knowing cfg pf sent (fun history => K history ∧
            ∃ key, FetchedFor cfg pf sent history chute key taken.nonce) v') v := by
  refine takeNonce_holds cfg pf (knowing_takable lasting chute) (fun _ h => h.keyed)
    (fun taken v' => Knowing cfg pf sent (fun history => K history ∧
      ∃ key, FetchedFor cfg pf sent history chute key taken.nonce) v') ?_ mode h
  intro v taken batch i inst rest h takes
  have removed := (knowing_takable (t := t) lasting chute).remove v batch i inst _ rest h
    takes.cached takes.here takes.nonces
  have mem : taken.nonce ∈ leftOf batch := by
    refine List.mem_flatMap.mpr ⟨inst, List.mem_of_getElem? takes.here, ?_⟩
    simp [nonceTexts, takes.nonces, textsOf, asString]
  have fetched := h.keyed.cache chute batch takes.cached taken.nonce mem
  exact ⟨removed.keyed.push t rfl, lasting [_] _ h.known,
    lasting_fetched chute taken.nonce [_] _ fetched⟩

/-- A request that resolved its model to the chute fetches nonces for it. -/
theorem fetchInstances_keyed (isSent : sent call)
    (h : Knowing cfg pf sent (ResolvedTo · t call.model chute) v) :
    Holds admits (Keyed cfg pf sent) t (fetchInstances cfg pf chute call.apiKey)
      (fun result v' => Knowing cfg pf sent (ResolvedTo · t call.model chute) v' ∧
        ∀ batch, result = .ok batch → ∀ nonce ∈ leftOf batch,
          ∃ key, FetchedFor cfg pf sent v'.history chute key nonce) v := by
  have stable : Stable (Keyed cfg pf sent) (Knowing cfg pf sent (ResolvedTo · t call.model chute)) t
      KeepsNonces NoPost := knowing_stable (lasting_resolved t call.model chute)
  unfold fetchInstances
  cases named : pf.concatArg (some chute) with
  | error e => exact h.keyed
  | ok text =>
      have asked := stable.push v (.asked (.instances (instancesUrl cfg text) call.apiKey)) h rfl
      refine ⟨asked.keyed, ?_⟩
      intro v' keyed others a _
      have answered := stable.push v' (.answered (.instances (instancesUrl cfg text) call.apiKey) a)
        (stable.others _ v' asked keyed others) rfl
      unfold receiveInstances
      cases a with
      | error err => exact ⟨answered, fun batch none => nomatch none⟩
      | ok res =>
          dsimp only [Routine.bind]
          split
          · exact ⟨answered, fun batch none => nomatch none⟩
          · rename_i good
            dsimp only [ngxNow, getState, Routine.bind_eq, Routine.bind, Holds, View.push_state]
            cases read : readInstances pf v'.state.tables res.body with
            | error e => exact answered.keyed
            | ok found =>
                cases found with
                | none => exact ⟨answered, fun batch none => nomatch none⟩
                | some found =>
                    obtain ⟨data, decoded, nonces⟩ := readInstances_nonces read
                    refine ⟨stable.modify _ _ answered fun _ => .inl rfl, ?_⟩
                    rintro _ ⟨⟩ nonce mem
                    have issues : nonce ∈ issuedBy pf
                        (.answered (.instances (instancesUrl cfg text) call.apiKey) (.ok res)) := by
                      have status : res.status = 200 := by simpa using good
                      have inside : nonce ∈ issuedIn data := nonces ▸ mem
                      simpa [issuedBy, status, decoded] using inside
                    exact ⟨call.apiKey, t, v'.clock, text, res, call, named, List.mem_cons_self,
                      issues, isSent, rfl, answered.known⟩

/-- What a request knows once it has a nonce for the chute. -/
abbrev Supplied (cfg : Config) (pf : Platform) (sent : Call → Prop) (t : ℕ) (call : Call)
    (chute : Value) (taken : Taken) : View proxy → Prop :=
  Knowing cfg pf sent fun history => ResolvedTo history t call.model chute ∧
    ∃ key, FetchedFor cfg pf sent history chute key taken.nonce

theorem lasting_supplied (t : ℕ) (call : Call) (chute : Value) (nonce : Bytes) :
    Lasting fun history => ResolvedTo history t call.model chute ∧
      ∃ key, FetchedFor cfg pf sent history chute key nonce :=
  (lasting_resolved t call.model chute).and (lasting_fetched chute nonce)

theorem getNonce_keyed (isSent : sent call) (mode : Bytes)
    (h : Knowing cfg pf sent (ResolvedTo · t call.model chute) v) :
    Holds admits (Keyed cfg pf sent) t (getNonce cfg pf chute call.apiKey mode)
      (fun result v' => match result with
        | .error _ => Keyed cfg pf sent v'
        | .ok taken => Supplied cfg pf sent t call chute taken v') v := by
  have lasting := lasting_resolved t call.model chute
  apply (takeNonce_keyed lasting chute mode h).bind
  intro first v' h'
  cases first with
  | some taken => exact h'
  | none =>
      apply (fetchInstances_keyed isSent h').bind
      intro fetched v'' ⟨h'', origins⟩
      cases fetched with
      | error err => exact h''.keyed
      | ok batch =>
          have stored : Knowing cfg pf sent (ResolvedTo · t call.model chute)
              (withBatch v'' chute (some batch)) :=
            ⟨h''.keyed.withBatch batch (origins batch rfl), h''.known⟩
          apply (takeNonce_keyed lasting chute mode stored).bind
          intro second v₃ h₃
          cases second with
          | none => exact h₃.keyed
          | some taken => exact h₃

theorem noPost (pf : Platform) {β : Type} {p : Prog β} (quiet : Quiet KeepsNonces (Plain pf) p) :
    Quiet KeepsNonces NoPost p :=
  quiet.mono fun _ plain => plain.posts

theorem incidental_noPost (cfg : Config) (pf : Platform) : Incidental cfg KeepsNonces NoPost :=
  (incidental_plain cfg pf).mono fun _ plain => plain.posts

theorem pickAttested_keyed (isSent : sent call) (picks : Nat) (err : Option Attest.AttestError)
    (h : Knowing cfg pf sent (ResolvedTo · t call.model chute) v) :
    Holds admits (Keyed cfg pf sent) t (pickAttested cfg pf call chute picks err)
      (fun result v' => match result with
        | .error _ => Keyed cfg pf sent v'
        | .ok taken => Supplied cfg pf sent t call chute taken v') v := by
  apply pickAttested_holds (incidental_noPost cfg pf) (Supplied cfg pf sent t call chute)
    (Supplied cfg pf sent t call chute) (knowing_stable (lasting_resolved t call.model chute))
    _ _ picks err h
  · exact fun v h => getNonce_keyed isSent call.mode h
  · intro taken v h
    have stable : Stable (Keyed cfg pf sent) (Supplied cfg pf sent t call chute taken) t
        KeepsNonces NoPost := knowing_stable (lasting_supplied t call chute taken.nonce)
    apply ((noPost pf (guard_keeps _ _ _ _)).holds stable h).mono
    intro guarded v' h'
    cases guarded with
    | ok passed => exact h'
    | error err => exact ⟨h'.keyed, h'.known.1⟩

theorem send_keyed (isSent : sent call) {again : Option (Prog (Except Failure Reply))}
    (next : ∀ p ∈ again, ∀ v, Knowing cfg pf sent (ResolvedTo · t call.model chute) v →
      Holds admits (Keyed cfg pf sent) t p (fun _ => Keyed cfg pf sent) v)
    {taken : Taken} (blob responseSk : Bytes) (h : Supplied cfg pf sent t call chute taken v) :
    Holds admits (Keyed cfg pf sent) t (send cfg call again chute taken blob responseSk)
      (fun _ => Keyed cfg pf sent) v := by
  have resolved : Stable (Keyed cfg pf sent)
      (Knowing cfg pf sent (ResolvedTo · t call.model chute)) t KeepsNonces NoPost :=
    knowing_stable (lasting_resolved t call.model chute)
  apply send_holds (incidental_noPost cfg pf) keyed_stable
    (knowing_stable (lasting_supplied t call chute taken.nonce)) resolved resolved resolved
    _ _ _ _ next h
  · intro v h
    refine ⟨h.keyed.more t _ ?_, lasting_resolved t call.model chute [_] _ h.known.1⟩
    rintro _ ⟨⟩
    exact ⟨h.known.2, call, isSent, rfl, h.known.1⟩
  · exact fun v status h => h.keyed.push t rfl
  · exact fun v h => resolved.push v _ h rfl
  · exact fun v body h _ => resolved.push v _ h rfl

theorem attempt_keyed (isSent : sent call) {again : Option (Prog (Except Failure Reply))}
    (next : ∀ p ∈ again, ∀ v, Knowing cfg pf sent (ResolvedTo · t call.model chute) v →
      Holds admits (Keyed cfg pf sent) t p (fun _ => Keyed cfg pf sent) v)
    (h : Knowing cfg pf sent (ResolvedTo · t call.model chute) v) :
    Holds admits (Keyed cfg pf sent) t (attempt cfg pf call again chute)
      (fun _ => Keyed cfg pf sent) v := by
  apply attempt_holds (Supplied cfg pf sent t call chute) (Supplied cfg pf sent t call chute) _ _ _
    (pickAttested_keyed isSent 3 none h)
  · exact fun taken v answer h =>
      (knowing_stable (lasting_supplied t call chute taken.nonce)).push v _ h rfl
  · exact fun taken v h => h.keyed
  · exact fun taken blob responseSk v h => send_keyed isSent next blob responseSk h

theorem roundTrip_keyed (isSent : sent call) (h : Keyed cfg pf sent v) :
    Holds admits (Keyed cfg pf sent) t (e2eeRoundTrip cfg pf call)
      (fun _ => Keyed cfg pf sent) v := by
  have resolves : Quiet KeepsNonces NoPost (resolveChuteId cfg pf call.model call.apiKey) :=
    resolveChuteId_quiet cfg pf (fun _ _ _ _ => .inl rfl) (fun _ _ => rfl) (fun _ _ _ => rfl) _ _
  apply roundTrip_holds (incidental_noPost cfg pf)
    (fun chute => Knowing cfg pf sent (ResolvedTo · t call.model chute)) keyed_stable
  · intro chute v begun
    refine attempt_keyed isSent ?_ begun
    rintro p ⟨⟩ v h
    exact attempt_keyed isSent (fun _ none => nomatch none) h
  · apply (resolves.holds keyed_stable h).mono
    intro found v' h'
    cases found with
    | error err => exact h'
    | ok chute => exact ⟨h'.push t rfl, v'.clock, List.mem_cons_self⟩

end Routines

/-! ## Every run -/

theorem reachable_keyed {cfg : Config} {pf : Platform} {sent : Call → Prop}
    {admits : View proxy → (r : Request) → r.Answer → Prop}
    {w : World proxy (Except Failure (Option Bytes))}
    (reach : Reachable admits (Sent cfg pf sent) .new w) : Keyed cfg pf sent w.view := by
  apply reach.invariant Keyed.new
  · exact fun _ _ h => ⟨h.cache, h.posted⟩
  · rintro p ⟨call, isSent, rfl⟩ t v h -
    exact roundTrip_keyed isSent h

/-- A POST carries a nonce that was fetched for its chute, with the key of a request
    that had resolved its model to the chute. If the requests for the chute carry
    one key, the nonce was fetched with the key that the POST presents. -/
theorem nonces_fetched_for_chute {cfg : Config} {pf : Platform} {sent : Call → Prop}
    {admits : View proxy → (r : Request) → r.Answer → Prop}
    {w : World proxy (Except Failure (Option Bytes))}
    (reach : Reachable admits (Sent cfg pf sent) .new w) {newer older : History} {t : ℕ} {now : Rat}
    {post : Invocation}
    (posting : w.view.history = newer ++ ⟨t, now, .asked (.invoke post)⟩ :: older) :
    (∃ key, FetchedFor cfg pf sent older post.chuteId key post.nonce) ∧
    ((∀ call call' t t', sent call → sent call' → ResolvedTo older t call.model post.chuteId →
        ResolvedTo older t' call'.model post.chuteId → call.apiKey = call'.apiKey) →
      FetchedWith pf older post.apiKey post.nonce) := by
  obtain ⟨⟨key, fetched⟩, call, isSent, carries, resolved⟩ :=
    (reachable_keyed reach).posted newer _ older posting post rfl
  refine ⟨⟨key, fetched⟩, fun one => ?_⟩
  have same : key = post.apiKey := by
    obtain ⟨t', -, -, -, other, -, -, -, isSent', carries', resolved'⟩ := fetched
    rw [← carries, ← carries']
    exact one other call t' t isSent' isSent resolved' resolved
  exact same ▸ fetched.fetchedWith

namespace Sample

def lots : Value :=
  .obj [(lit "instances", .arr [.obj [(lit "instance_id", .str (lit "a")),
    (lit "e2e_pubkey", .str key), (lit "nonces", .arr [.str (lit "n1"), .str (lit "n2")])]])]

def lotsPlatform : Platform :=
  { platform with toRuntime := .ofDocuments [(lit "lots", lots)] }

/-- The two nonces are issued once, and every POST is lost. -/
def oneDiscovery (v : View proxy) : (r : Request) → r.Answer
  | .instances _ _ =>
      if issued lotsPlatform v.history = [] then .ok ⟨200, lit "lots"⟩ else .error (lit "timeout")
  | .connect => .ok ()
  | r => answers r

theorem oneDiscovery_fresh (v : View proxy) (r : Request) :
    FreshNonces lotsPlatform v r (oneDiscovery v r) := by
  have quiet (r : Request) (a : r.Answer) (none : issuedBy lotsPlatform (.answered r a) = []) :
      FreshNonces lotsPlatform v r a := by
    unfold FreshNonces
    rw [none]
    exact ⟨.nil, fun _ mem => nomatch mem⟩
  cases r with
  | instances url apiKey =>
      unfold oneDiscovery
      split
      · rename_i first
        unfold FreshNonces
        rw [first]
        have distinct : [lit "n1", lit "n2"].Nodup := by decide
        exact ⟨distinct, fun nonce _ => List.not_mem_nil⟩
      · exact quiet _ _ rfl
  | models | evidence | random | roll | build | connect | invoke | readBody | decryptResponse
    | streamStart | streamRest => exact quiet _ _ rfl

def callWith (key : String) : Call := { call with apiKey := lit key }

def ownChute : World proxy (Except Failure (Option Bytes)) :=
  (World.initial (S := proxy) .new 0).run oneDiscovery 0
    (e2eeRoundTrip unattested lotsPlatform (callWith "A")) 3

/-- A request with the key B is made after that. -/
def sharedChute : World proxy (Except Failure (Option Bytes)) :=
  ownChute.run oneDiscovery 1 (e2eeRoundTrip unattested lotsPlatform (callWith "B")) 2

end Sample

/-- A request alone presents a nonce that was fetched with its own key. -/
theorem own_nonce_fetched : ∃ newer older t now post,
    Sample.ownChute.view.history = newer ++ ⟨t, now, .asked (.invoke post)⟩ :: older ∧
    (∃ key, FetchedFor Sample.unattested Sample.lotsPlatform (· = Sample.callWith "A") older
      post.chuteId key post.nonce) ∧
    FetchedWith Sample.lotsPlatform older post.apiKey post.nonce := by
  have reach : Reachable (FreshNonces Sample.lotsPlatform)
      (Sent Sample.unattested Sample.lotsPlatform (· = Sample.callWith "A")) .new Sample.ownChute :=
    Reachable.run Sample.oneDiscovery_fresh (Reachable.initial _ _ _ 0)
      ⟨Sample.callWith "A", rfl, rfl⟩ rfl rfl 3
  have posted : Sample.ownChute.view.history.any (fun e => (postBy e.what).isSome) = true := by
    decide +kernel
  obtain ⟨⟨t, now, what⟩, mem, is⟩ := List.any_eq_true.mp posted
  obtain ⟨newer, older, split⟩ := List.append_of_mem mem
  obtain ⟨post, isPost⟩ := Option.isSome_iff_exists.mp is
  obtain rfl := postBy_some isPost
  obtain ⟨origin, one⟩ := nonces_fetched_for_chute reach split
  refine ⟨newer, older, t, now, post, split, origin, one ?_⟩
  intro call call' _ _ is is' _ _
  rw [is, is']

def discoveryKey : Happening proxy → Option Bytes
  | .answered (.instances _ key) _ => some key
  | _ => none

/-- Upstream issues each nonce once, and the POST with the key B carries one that
    was fetched with the key A. -/
theorem nonce_of_another_key : ∃ newer older t now post,
    Reachable (FreshNonces Sample.lotsPlatform) (Calls Sample.unattested Sample.lotsPlatform) .new
      Sample.sharedChute ∧
    Sample.sharedChute.view.history = newer ++ ⟨t, now, .asked (.invoke post)⟩ :: older ∧
    ¬ FetchedWith Sample.lotsPlatform older post.apiKey post.nonce := by
  have reach : Reachable (FreshNonces Sample.lotsPlatform)
      (Calls Sample.unattested Sample.lotsPlatform) .new Sample.sharedChute := by
    refine Reachable.run Sample.oneDiscovery_fresh (Reachable.run Sample.oneDiscovery_fresh
      (Reachable.initial _ _ _ 0) ⟨Sample.callWith "A", rfl⟩ rfl rfl 3) ⟨Sample.callWith "B", rfl⟩ ?_ ?_ 2
    · decide +kernel
    · decide +kernel
  have posted : Sample.sharedChute.view.history.any
      (fun e => (postBy e.what).map Invocation.apiKey = some (lit "B")) = true := by decide +kernel
  obtain ⟨⟨t, now, what⟩, mem, is⟩ := List.any_eq_true.mp posted
  obtain ⟨newer, older, split⟩ := List.append_of_mem mem
  obtain ⟨post, isPost, key⟩ := Option.map_eq_some_iff.mp (of_decide_eq_true is)
  obtain rfl := postBy_some isPost
  refine ⟨newer, older, t, now, post, reach, split, ?_⟩
  rintro ⟨t', c, url, res, fetched, -⟩
  have others : Sample.sharedChute.view.history.all
      (fun e => discoveryKey e.what ≠ some (lit "B")) = true := by decide +kernel
  have here : ⟨t', c, .answered (.instances url post.apiKey) (.ok res)⟩ ∈
      Sample.sharedChute.view.history := by
    rw [split]
    exact List.mem_append_right newer (List.mem_cons_of_mem _ fetched)
  have differs := of_decide_eq_true (List.all_eq_true.mp others _ here)
  exact differs (congrArg some key)

end E2eeProxy.Handler
