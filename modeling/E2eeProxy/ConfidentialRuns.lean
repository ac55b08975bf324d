import E2eeProxy.AttestedRuns
import Mathlib.Data.List.ReduceOption

/-! # Which chutes a model resolves to

Without `ALLOW_NON_CONFIDENTIAL` a name resolves to a chute that the model list
fetched last shows as confidential, in any run of interleaved requests: from a
list just fetched, from the cache or from one that could not be refreshed. A
UUID resolves to itself whatever the list says.
-/

namespace E2eeProxy.Handler

open Lua Lib Discovery

section Lists

variable (pf : Platform)

/-- The models an answer lists, if `fetch_model_map` makes a map of it. -/
def fetchedModels : Except Bytes Response → Option (List Value)
  | .error _ => none
  | .ok res =>
      if res.status ≠ 200 then none
      else
        (pf.decodeTruthy res.body).bind fun data =>
          match readModelMap data with
          | .ok (some _) => some (Attest.tableField data "data")
          | _ => none

def listedBy : Happening proxy → Option (List Value)
  | .answered (.models _ _) a => fetchedModels pf a
  | _ => none

/-- The model list that was fetched last. -/
def latestModels (history : History) : Option (List Value) :=
  history.findSome? fun e => listedBy pf e.what

def Lists (models : List Value) (chuteId : Value) (confidential : Bool) : Prop :=
  ∃ model ∈ models, index (some model) "chute_id" = .ok (some chuteId) ∧
    (confidential = true → index (some model) "confidential_compute" = .ok (some (.bool true)))

/-- The model list that was fetched last has the chute as a confidential one. -/
def ListedConfidential (history : History) (chuteId : Value) : Prop :=
  ∃ models, latestModels pf history = some models ∧ Lists models chuteId true

/-- What the map says of a name is in the list it was made from. -/
def MapOf (models : List Value) (map : List (Value × ModelEntry)) : Prop :=
  ∀ id entry, (id, entry) ∈ map → Lists models entry.chuteId entry.confidential

/-- The invariant: the map is that of the list fetched last, and a name was
    resolved to a confidential chute of the list that was the last one then. -/
structure Confidential (v : View proxy) : Prop where
  map : ∀ map, v.state.modelMap = some map →
    ∃ models, latestModels pf v.history = some models ∧ MapOf models map
  resolved : ∀ newer e older, v.history = newer ++ e :: older → ∀ model chuteId,
    e.what = .recorded (.resolved model chuteId) →
    (isUuid model = .ok true ∧ chuteId = model) ∨
      (isUuid model = .ok false ∧ ListedConfidential pf older chuteId)

end Lists

/-! ## Reading a list -/

theorem readModel_some {model id : Value} {entry : ModelEntry}
    (read : readModel model = .ok (some (id, entry))) :
    index (some model) "chute_id" = .ok (some entry.chuteId) ∧
      (entry.confidential = true →
        index (some model) "confidential_compute" = .ok (some (.bool true))) := by
  simp only [readModel, bind, Except.bind] at read
  cases named : index (some model) "id" with
  | error e => simp [named] at read
  | ok name =>
      cases chute : index (some model) "chute_id" with
      | error e => simp [named, chute] at read
      | ok chute =>
          cases compute : index (some model) "confidential_compute" with
          | error e => simp [named, chute, compute] at read
          | ok compute =>
              simp only [named, chute, compute] at read
              split at read
              · rename_i chute' _ there
                obtain ⟨rfl, -⟩ := Option.filter_eq_some_iff.mp there
                simp only [pure, Except.pure, Except.ok.injEq, Option.some.injEq,
                  Prod.mk.injEq] at read
                obtain ⟨rfl, rfl⟩ := read
                exact ⟨rfl, fun confidential => by simpa using confidential⟩
              · cases read

theorem readModelMap_some {data : Value} {map : List (Value × ModelEntry)}
    (read : readModelMap data = .ok (some map)) : MapOf (Attest.tableField data "data") map := by
  simp only [readModelMap, bind, Except.bind] at read
  cases given : index (some data) "data" with
  | error e => simp [given] at read
  | ok models =>
      simp only [given] at read
      split at read
      · cases items : ipairs models with
        | error e => simp [items] at read
        | ok items' =>
            cases mapped : items'.mapM readModel with
            | error e => simp [items, mapped] at read
            | ok entries =>
                simp only [items, mapped, pure, Except.pure, Except.ok.injEq,
                  Option.some.injEq] at read
                subst read
                intro id entry mem
                have mem := (foldl_setEntry_mem entries.reduceOption [] mem).resolve_right
                  List.not_mem_nil
                obtain ⟨model, there, one⟩ := mapM_mem mapped (List.reduceOption_mem_iff.mp mem)
                refine ⟨model, ?_, readModel_some one⟩
                cases data with
                | obj fields =>
                    simp only [index, Except.ok.injEq] at given
                    simp only [Attest.tableField, given]
                    unfold ipairs at items
                    split at items
                    · cases items
                      exact there
                    · cases items
                      cases there
                    · cases items
                | arr | str =>
                    cases given
                    cases items
                | null | bool | num => cases given
      · cases read

/-! ## What the invariant survives -/

/-- The map of models is left alone. -/
def KeepsModels (s s' : ProxyState) : Prop := s'.modelMap = s.modelMap

/-- No list is fetched and nothing is resolved. -/
def NoModels (what : Happening proxy) : Prop :=
  (∀ url apiKey a, what ≠ .answered (.models url apiKey) a) ∧
    ∀ model chuteId, what ≠ .recorded (.resolved model chuteId)

section Survives

variable {pf : Platform} {v : View proxy}

theorem latestModels_push (what : Happening proxy) (t : ℕ) (h : listedBy pf what = none) :
    latestModels pf (v.push t what).history = latestModels pf v.history := by
  simp [latestModels, h]

theorem NoModels.listed {what : Happening proxy} (h : NoModels what) : listedBy pf what = none := by
  unfold listedBy
  split
  · exact absurd rfl (h.1 _ _ _)
  · rfl

theorem Confidential.new (c : Rat) : Confidential pf ⟨.new, c, []⟩ :=
  ⟨fun _ given => (nomatch given), fun newer _ _ split => by cases newer <;> cases split⟩

/-- An entry that lists no models, and if it resolves one does it as the invariant
    has it. -/
theorem Confidential.push (h : Confidential pf v) (t : ℕ) {what : Happening proxy}
    (unlisted : listedBy pf what = none)
    (resolves : ∀ model chuteId, what = .recorded (.resolved model chuteId) →
      (isUuid model = .ok true ∧ chuteId = model) ∨
        (isUuid model = .ok false ∧ ListedConfidential pf v.history chuteId)) :
    Confidential pf (v.push t what) := by
  refine ⟨fun map given => ?_, fun newer e older split model chuteId is => ?_⟩
  · rw [latestModels_push what t unlisted]
    exact h.map map given
  · cases newer with
    | nil =>
        obtain ⟨rfl, rfl⟩ := List.cons.inj split
        exact resolves model chuteId is
    | cons _ newer => exact h.resolved newer e older (List.cons.inj split).2 model chuteId is

theorem Confidential.plain (h : Confidential pf v) (t : ℕ) {what : Happening proxy}
    (none : NoModels what) : Confidential pf (v.push t what) :=
  h.push t none.listed fun model chuteId same => absurd same (none.2 model chuteId)

theorem confidential_stable (t : ℕ) :
    Stable (Confidential pf) (Confidential pf) t KeepsModels NoModels where
  implies _ h := h
  modify _ _ h keeps := ⟨fun map given => h.map map (keeps.symm.trans given), h.resolved⟩
  push _ _ h none := h.plain t none
  others _ _ _ h _ := h

end Survives

/-! ## The routines -/

section Routines

variable {cfg : Config} {pf : Platform} {admits : View proxy → (r : Request) → r.Answer → Prop}
  {t : ℕ} {v : View proxy}

/-- A result that may be recorded as what the model resolves to. -/
def Resolves (pf : Platform) (model : Value) (result : Except ModelError Value) (v : View proxy) :
    Prop :=
  Confidential pf v ∧ ∀ chuteId, result = .ok chuteId →
    (isUuid model = .ok true ∧ chuteId = model) ∨
      (isUuid model = .ok false ∧ ListedConfidential pf v.history chuteId)

theorem checkConfidential_resolves (strict : cfg.allowNonConfidential = false) {model : Value}
    (name : isUuid model = .ok false) (h : Confidential pf v) {map : List (Value × ModelEntry)}
    (given : v.state.modelMap = some map) :
    Holds admits (Confidential pf) t (checkConfidential cfg pf model (lookupModel (some map) model))
      (Resolves pf model) v := by
  unfold checkConfidential
  split
  · cases text : pf.concatArg (some model) with
    | ok => exact ⟨h, nofun⟩
    | error => exact h
  · rename_i entry found
    split
    · cases text : pf.concatArg (some model) with
      | ok => exact ⟨h, nofun⟩
      | error => exact h
    · rename_i passes
      have confidential : entry.confidential = true := by simpa [strict] using passes
      obtain ⟨models, latest, lists⟩ := h.map map given
      have listed := lists model entry (mem_of_lookup_eq_some found)
      rw [confidential] at listed
      refine ⟨h, fun chuteId same => .inr ⟨name, models, latest, ?_⟩⟩
      obtain rfl := Except.ok.inj same
      exact listed

/-- The map made of an answer takes its place. -/
theorem Confidential.fetched (h : Confidential pf v) {a : Except Bytes Response}
    {models : List Value} (listed : fetchedModels pf a = some models)
    {map : List (Value × ModelEntry)} (made : MapOf models map) (url apiKey : Bytes) (expires : Rat) :
    Confidential pf ⟨{ v.state with modelMap := some map, modelMapExpires := expires }, v.clock,
      (v.push t (.answered (.models url apiKey) a)).history⟩ := by
  refine ⟨fun map' given => ?_, fun newer e older split model chuteId is => ?_⟩
  · obtain rfl := Option.some.inj given
    exact ⟨models, by simp [latestModels, listedBy, listed], made⟩
  · cases newer with
    | nil =>
        obtain ⟨rfl, -⟩ := List.cons.inj split
        cases is
    | cons _ newer => exact h.resolved newer e older (List.cons.inj split).2 model chuteId is

theorem fetchModelMap_holds (apiKey : Bytes) (h : Confidential pf v) :
    Holds admits (Confidential pf) t (fetchModelMap cfg pf apiKey)
      (fun result v' => match result with
        | .error _ => Confidential pf v'
        | .ok map => ∀ expires, Confidential pf
            ⟨{ v'.state with modelMap := some map, modelMapExpires := expires }, v'.clock,
              v'.history⟩) v := by
  refine ⟨h.plain t ⟨nofun, nofun⟩, fun v' h' _ a _ => ?_⟩
  have failed (none : fetchedModels pf a = none) (url : Bytes) :
      Confidential pf (v'.push t (.answered (.models url apiKey) a)) :=
    h'.push t none fun _ _ => nofun
  cases a with
  | error err => exact failed rfl _
  | ok res =>
      dsimp only [Routine.bind]
      split
      · rename_i bad
        exact failed (by rw [fetchedModels, if_pos bad]) _
      · rename_i good
        split
        · rename_i undecoded
          exact failed (by rw [fetchedModels, if_neg good, undecoded, Option.bind_none]) _
        · rename_i data decoded
          cases read : readModelMap data with
          | error e =>
              refine failed ?_ _
              rw [fetchedModels, if_neg good, decoded, Option.bind_some, read]
          | ok map =>
              cases map with
              | none =>
                  refine failed ?_ _
                  rw [fetchedModels, if_neg good, decoded, Option.bind_some, read]
              | some map =>
                  have listed : fetchedModels pf (.ok res) =
                      some (Attest.tableField data "data") := by
                    rw [fetchedModels, if_neg good, decoded, Option.bind_some, read]
                  exact fun expires => h'.fetched listed (readModelMap_some read) _ _ expires

theorem refreshModels_resolves (strict : cfg.allowNonConfidential = false) {model : Value}
    (name : isUuid model = .ok false) (apiKey : Bytes) (now : Rat) (h : Confidential pf v) :
    Holds admits (Confidential pf) t (refreshModels cfg pf model apiKey now)
      (Resolves pf model) v := by
  apply (fetchModelMap_holds apiKey h).bind
  rintro (err | map) v' h'
  · dsimp only [getState, Routine.bind_eq, Routine.bind, Holds]
    split
    · rename_i entry found
      obtain ⟨map, given, -⟩ := Option.bind_eq_some_iff.mp found
      rw [← found, given]
      exact checkConfidential_resolves strict name h' given
    · cases text : pf.concatArg (some model) with
      | ok => exact ⟨h', nofun⟩
      | error => exact h'
  · exact checkConfidential_resolves strict name (h' _) rfl

theorem resolveChuteId_resolves (strict : cfg.allowNonConfidential = false) (model : Value)
    (apiKey : Bytes) (h : Confidential pf v) :
    Holds admits (Confidential pf) t (resolveChuteId cfg pf model apiKey)
      (Resolves pf model) v := by
  unfold resolveChuteId
  cases name : isUuid model with
  | error e => exact h
  | ok uuid =>
      cases uuid with
      | true =>
          refine ⟨h, fun chuteId same => .inl ⟨name, ?_⟩⟩
          exact (Except.ok.inj same).symm
      | false =>
          simp only [lua, ngxNow, getState, Bool.false_eq_true, ↓reduceIte, Routine.bind_eq,
            Routine.bind, Holds]
          split
          · rename_i entry found
            obtain ⟨found, -⟩ := Option.filter_eq_some_iff.mp found
            obtain ⟨map, given, -⟩ := Option.bind_eq_some_iff.mp found
            rw [← found, given]
            exact checkConfidential_resolves strict name h given
          · exact refreshModels_resolves strict name apiKey _ h

/-! Nothing but the resolution touches the map of models. -/

theorem incidental_models (cfg : Config) : Incidental cfg KeepsModels NoModels where
  selects _ _ := rfl
  rejects := invalidate_quiet fun _ _ _ _ => rfl
  forgets := invalidateNonces_quiet (fun _ _ _ => rfl) cfg
  connecting := ⟨nofun, nofun⟩
  connected _ := ⟨nofun, nofun⟩
  reading := ⟨nofun, nofun⟩
  read _ := ⟨nofun, nofun⟩
  decrypted _ _ _ := ⟨nofun, nofun⟩
  starting _ := ⟨nofun, nofun⟩
  started _ _ := ⟨nofun, nofun⟩
  resting := ⟨nofun, nofun⟩
  rested _ := ⟨nofun, nofun⟩

theorem getNonce_keeps (chuteId : Value) (apiKey mode : Bytes) :
    Quiet KeepsModels NoModels (getNonce cfg pf chuteId apiKey mode) :=
  getNonce_quiet cfg pf (fun _ _ _ => rfl) (fun _ => ⟨nofun, nofun⟩) (fun _ => ⟨nofun, nofun⟩)
    (fun _ _ => rfl) (fun _ _ => ⟨nofun, nofun⟩) (fun _ _ _ => ⟨nofun, nofun⟩) _ _ _

theorem pickAttested_confidential (call : Call) (chuteId : Value) (h : Confidential pf v) :
    Holds admits (Confidential pf) t (pickAttested cfg pf call chuteId 3 none)
      (fun result v' => match result with
        | .error _ => Confidential pf v'
        | .ok _ => Confidential pf v') v := by
  apply pickAttested_holds (incidental_models cfg) (fun _ => Confidential pf)
    (fun _ => Confidential pf) (confidential_stable t) _ _ 3 none h
  · intro v h
    apply ((getNonce_keeps _ _ _).holds (confidential_stable t) h).mono
    intro got v' h'
    cases got with
    | error err => exact h'
    | ok taken => exact h'
  · intro taken v h
    have guards : Quiet KeepsModels NoModels (Attest.guard cfg pf chuteId
        taken.inst.instanceId taken.inst.e2ePubkey call.apiKey) :=
      guard_quiet cfg pf (fun _ _ _ _ => rfl) (fun _ _ => ⟨nofun, nofun⟩)
        (fun _ _ => ⟨nofun, nofun⟩) (fun _ _ _ => ⟨nofun, nofun⟩) _ _ _ _
    apply (guards.holds (confidential_stable t) h).mono
    intro guarded v' h'
    cases guarded with
    | error err => exact h'
    | ok passed => exact h'

theorem attempt_confidential (call : Call) (again : Option (Prog (Except Failure Reply)))
    (next : ∀ p ∈ again, ∀ v, Confidential pf v →
      Holds admits (Confidential pf) t p (fun _ => Confidential pf) v)
    (chuteId : Value) (h : Confidential pf v) :
    Holds admits (Confidential pf) t (attempt cfg pf call again chuteId)
      (fun _ => Confidential pf) v := by
  have stable : Stable (Confidential pf) (Confidential pf) t KeepsModels NoModels :=
    confidential_stable t
  apply attempt_holds (fun _ => Confidential pf) (fun _ => Confidential pf) _ _ _
    (pickAttested_confidential call chuteId h)
  · exact fun taken v answer h => h.plain t ⟨nofun, nofun⟩
  · exact fun taken v h => h
  · intro taken blob responseSk v h
    apply send_holds (incidental_models cfg) stable stable stable stable stable _ _ _ _ next h
    · exact fun v h => h.plain t ⟨nofun, nofun⟩
    · exact fun v status h => h.plain t ⟨nofun, nofun⟩
    · exact fun v h => h.plain t ⟨nofun, nofun⟩
    · exact fun v body h names => h.plain t ⟨nofun, nofun⟩

theorem roundTrip_confidential (strict : cfg.allowNonConfidential = false) (call : Call)
    (h : Confidential pf v) :
    Holds admits (Confidential pf) t (e2eeRoundTrip cfg pf call) (fun _ => Confidential pf) v := by
  apply roundTrip_holds (incidental_models cfg) (fun _ => Confidential pf) (confidential_stable t)
  · intro chuteId v h
    refine attempt_confidential call _ ?_ chuteId h
    rintro p ⟨⟩ v h
    exact attempt_confidential call none (fun _ none => nomatch none) chuteId h
  · apply (resolveChuteId_resolves strict call.model call.apiKey h).mono
    rintro found v' ⟨h', resolves⟩
    cases found with
    | error err => exact h'
    | ok chuteId =>
        refine h'.push t rfl fun model chute same => ?_
        cases same
        exact resolves chuteId rfl

end Routines

/-! ## Every run -/

/-- Without `ALLOW_NON_CONFIDENTIAL`, what a model resolves to is a confidential
    chute of the model list fetched last exactly when the model is no UUID or that
    list has the UUID itself as a confidential chute. -/
theorem resolved_confidential_iff {cfg : Config} {pf : Platform}
    (strict : cfg.allowNonConfidential = false)
    {admits : View proxy → (r : Request) → r.Answer → Prop}
    {w : World proxy (Except Failure (Option Bytes))}
    (reach : Reachable admits (Calls cfg pf) .new w)
    {newer older : History} {t : ℕ} {now : Rat} {model chuteId : Value}
    (resolving : w.view.history = newer ++ ⟨t, now, .recorded (.resolved model chuteId)⟩ :: older) :
    ListedConfidential pf older chuteId ↔
      (isUuid model = .ok false ∨ ListedConfidential pf older model) := by
  have confidential : Confidential pf w.view := by
    refine reach.invariant Confidential.new (fun _ _ h => ⟨h.map, h.resolved⟩) ?_
    rintro p ⟨call, rfl⟩ t v h -
    exact roundTrip_confidential strict call h
  rcases confidential.resolved newer _ older resolving model chuteId rfl with
    ⟨uuid, rfl⟩ | ⟨name, listed⟩
  · simp [uuid]
  · simp [name, listed]

/-! ## A chute that is not confidential -/

namespace Sample

def plainChute : Value := .str (lit "11111111-1111-1111-1111-111111111111")

/-- A model list in which the one chute is not confidential. -/
def plainModels : Value :=
  .obj [(lit "data", .arr [.obj [(lit "id", .str (lit "plain")), (lit "chute_id", plainChute),
    (lit "confidential_compute", .bool false)]])]

def modelPlatform : Platform :=
  { platform with toRuntime := .ofDocuments [(lit "models", plainModels)] }

def modelAnswers : (r : Request) → r.Answer
  | .models _ _ => .ok ⟨200, lit "models"⟩
  | .instances _ _ => .error (lit "timeout")
  | r => answers r

def callFor (model : Value) : Call := { call with model }

/-- A request by name is turned away. -/
def refusedWorld : World proxy (Except Failure (Option Bytes)) :=
  (World.initial (S := proxy) .new 0).run (fun _ => modelAnswers) 0
    (e2eeRoundTrip defaultConfig modelPlatform (callFor (.str (lit "plain")))) 1

/-- The next one comes by the UUID. -/
def plainWorld : World proxy (Except Failure (Option Bytes)) :=
  refusedWorld.run (fun _ => modelAnswers) 1
    (e2eeRoundTrip defaultConfig modelPlatform (callFor plainChute)) 1

theorem plainWorld_reachable :
    Reachable (fun _ _ _ => True) (Calls defaultConfig modelPlatform) .new plainWorld := by
  have first : Reachable (fun _ _ _ => True) (Calls defaultConfig modelPlatform) .new refusedWorld :=
    Reachable.run (fun _ _ => trivial) (Reachable.initial _ _ _ 0)
      ⟨callFor (.str (lit "plain")), rfl⟩ rfl rfl 1
  exact Reachable.run (fun _ _ => trivial) first ⟨callFor plainChute, rfl⟩ rfl (by decide) 1

end Sample

def resolves : Happening proxy → Bool
  | .recorded (.resolved _ _) => true
  | _ => false

theorem plainWorld_resolves : ∃ newer older t now model chuteId,
    Sample.plainWorld.view.history =
      newer ++ ⟨t, now, .recorded (.resolved model chuteId)⟩ :: older := by
  have some' : Sample.plainWorld.view.history.any (fun e => resolves e.what) = true := by
    decide
  obtain ⟨⟨t, now, what⟩, mem, resolving⟩ := List.any_eq_true.mp some'
  obtain ⟨newer, older, split⟩ := List.append_of_mem mem
  dsimp only at resolving
  unfold resolves at resolving
  split at resolving
  · exact ⟨newer, older, t, now, _, _, split⟩
  · cases resolving

/-- The list that was fetched says that the chute is not confidential. -/
theorem uuid_reaches_plain_chute :
    ¬ ∀ (cfg : Config) (pf : Platform) (admits : View proxy → (r : Request) → r.Answer → Prop)
      (w : World proxy (Except Failure (Option Bytes))) (newer older : History) (t : ℕ) (now : Rat)
      (model chuteId : Value), cfg.allowNonConfidential = false →
      Reachable admits (Calls cfg pf) .new w →
      w.view.history = newer ++ ⟨t, now, .recorded (.resolved model chuteId)⟩ :: older →
      ListedConfidential pf older chuteId := by
  intro always
  have plain : Sample.plainWorld.view.history.all (fun e =>
      ((listedBy Sample.modelPlatform e.what).getD []).all fun model =>
        decide (index (some model) "confidential_compute" ≠ .ok (some (.bool true)))) = true := by
    decide
  obtain ⟨newer, older, t, now, model, chuteId, split⟩ := plainWorld_resolves
  obtain ⟨models, latest, model', there, -, confidential⟩ :=
    always _ _ _ _ newer older t now model chuteId rfl Sample.plainWorld_reachable split
  obtain ⟨e, old, lists⟩ := List.exists_of_findSome?_eq_some latest
  have inHistory : e ∈ Sample.plainWorld.view.history := by
    rw [split]
    exact List.mem_append_right _ (List.mem_cons_of_mem _ old)
  have none := List.all_eq_true.mp plain e inHistory
  rw [lists, Option.getD_some] at none
  exact of_decide_eq_true (List.all_eq_true.mp none model' there) (confidential rfl)

theorem plain_chute_iff :
    ∃ newer older t now model chuteId,
      Sample.plainWorld.view.history =
        newer ++ ⟨t, now, .recorded (.resolved model chuteId)⟩ :: older ∧
      (ListedConfidential Sample.modelPlatform older chuteId ↔
        (isUuid model = .ok false ∨ ListedConfidential Sample.modelPlatform older model)) := by
  obtain ⟨newer, older, t, now, model, chuteId, split⟩ := plainWorld_resolves
  refine ⟨newer, older, t, now, model, chuteId, split, ?_⟩
  exact resolved_confidential_iff rfl Sample.plainWorld_reachable split

end E2eeProxy.Handler
