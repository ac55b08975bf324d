import E2eeProxy.AttestedRuns
import E2eeProxy.Lib.SingleUse

/-! # Every nonce is used once

If upstream never issues a nonce twice then, in any run of interleaved requests,
no nonce is handed out twice, each is handed out with the instance and the key of
the entry that carried it and before its batch expires, and it is presented in
one POST at most. A request makes a second POST only after a first one that was
answered 403 with a body that names a nonce.
-/

namespace E2eeProxy.Handler

open Lua Lib Discovery

/-! ## What a history says of nonces -/

def textsOf (nonces : List Value) : List Bytes := nonces.filterMap fun v => asString (some v)

/-- The nonces of an instance, as it is cached. -/
def nonceTexts (inst : Instance) : List Bytes :=
  match inst.nonces with
  | some (.arr nonces) => textsOf nonces
  | _ => []

/-- The nonces a document issues. -/
def issuedIn (data : Value) : List Bytes :=
  (Attest.tableField data "instances").flatMap fun item => textsOf (Attest.tableField item "nonces")

section Histories

variable (pf : Platform)

def issuedBy : Happening proxy → List Bytes
  | .answered (.instances _ _) (.ok res) =>
      if res.status = 200 then ((pf.decodeTruthy res.body).map issuedIn).getD [] else []
  | _ => []

def issued (history : History) : List Bytes := history.flatMap fun e => issuedBy pf e.what

def handedBy : Happening proxy → Option Bytes
  | .recorded (.handedOut taken) => some taken.nonce
  | _ => none

def handed (history : History) : List Bytes := history.filterMap fun e => handedBy e.what

def postBy : Happening proxy → Option Invocation
  | .asked (.invoke post) => some post
  | _ => none

theorem postBy_some {what : Happening proxy} {post : Invocation} (is : postBy what = some post) :
    what = .asked (.invoke post) := by
  unfold postBy at is
  split at is
  · rw [Option.some.inj is]
  · cases is

/-- The POSTs of a task. -/
def posts (t : ℕ) (history : History) : List Invocation :=
  history.filterMap fun e => if e.task = t then postBy e.what else none

/-- The nonces of all POSTs. -/
def presented (history : History) : List Bytes :=
  history.filterMap fun e => (postBy e.what).map Invocation.nonce

/-- Upstream issues no nonce that it has issued before, or twice in one answer. -/
def FreshNonces (v : View proxy) (r : Request) (a : r.Answer) : Prop :=
  (issuedBy pf (.answered r a)).Nodup ∧
    ∀ nonce ∈ issuedBy pf (.answered r a), nonce ∉ issued pf v.history

/-- The entries of an answer in the history, with the time at which they expire. -/
def Discovered (history : History) (entries : List Instance) (expires : Rat) : Prop :=
  ∃ t c url apiKey body tables lifetime,
    ⟨t, c, .answered (.instances url apiKey) (.ok ⟨200, body⟩)⟩ ∈ history ∧
    readInstances pf tables body = .ok (some (entries, lifetime)) ∧ expires = c + lifetime

/-- The nonce was in a discovery entry with that instance and key, and its batch
    has not expired. -/
def Carried (history : History) (taken : Taken) (now : Rat) : Prop :=
  ∃ entries expires, Discovered pf history entries expires ∧ now < expires ∧
    ∃ entry ∈ entries, entry.instanceId = some taken.inst.instanceId ∧
      entry.e2ePubkey = taken.inst.e2ePubkey ∧ taken.nonce ∈ nonceTexts entry

/-- What is left of a batch comes from one answer. -/
def Sourced (history : History) (batch : Batch) : Prop :=
  ∃ entries, Discovered pf history entries batch.expiresAt ∧
    ∀ inst ∈ batch.instances, ∃ entry ∈ entries, entry.instanceId = inst.instanceId ∧
      entry.e2ePubkey = inst.e2ePubkey ∧ ∀ nonce ∈ nonceTexts inst, nonce ∈ nonceTexts entry

/-- The task has made that POST, which was answered 403 with a body that names a
    nonce. -/
def Refused (t : ℕ) (history : History) (post : Invocation) : Prop :=
  ∃ newer c body between c' older,
    history = newer ++ ⟨t, c, .answered .readBody (some body)⟩ ::
      (between ++ ⟨t, c', .answered (.invoke post) (.ok 403)⟩ :: older) ∧
    occurs (lit "nonce") body = true

def leftOf (batch : Batch) : List Bytes := batch.instances.flatMap nonceTexts

/-- The nonces as tokens that lie in a pile for each chute. -/
def stock (v : View proxy) : Stock Value Bytes where
  issued := issued pf v.history
  handed := handed v.history
  piles chute := ((v.state.nonceCache chute).map leftOf).getD []

/-- The invariant. -/
structure SingleUse (v : View proxy) : Prop where
  sound : (stock pf v).Sound
  cache : ∀ chute batch, v.state.nonceCache chute = some batch → Sourced pf v.history batch
  carried : ∀ newer e older, v.history = newer ++ e :: older → ∀ taken,
    e.what = .recorded (.handedOut taken) → Carried pf older taken e.clock
  posted : ∀ newer e older, v.history = newer ++ e :: older → ∀ post,
    e.what = .asked (.invoke post) →
    (∃ taken c, ⟨e.task, c, .recorded (.handedOut taken)⟩ ∈ older ∧ taken.nonce = post.nonce ∧
      taken.inst.instanceId = post.instanceId) ∧
    (∀ other ∈ posts e.task older, other.nonce ≠ post.nonce) ∧
    (posts e.task older = [] ∨ ∃ first, posts e.task older = [first] ∧ Refused e.task older first)

end Histories

/-! ## Reading an answer -/

theorem readInstance_nonces {address : Nat} {item : Value} {entry : Instance}
    (read : readInstance address item = .ok entry) :
    nonceTexts entry = textsOf (Attest.tableField item "nonces") := by
  simp only [readInstance, bind, Except.bind] at read
  cases given : index (some item) "nonces" with
  | error e => simp [given] at read
  | ok nonces =>
      have same : entry.nonces = nonces.filter fun v => truthy (some v) := by
        simp only [given] at read
        repeat' split at read
        all_goals cases read
        all_goals rfl
      unfold nonceTexts
      rw [same]
      cases item with
      | obj fields =>
          cases given
          simp only [Attest.tableField]
          rcases fields.lookup (lit "nonces") with _ | (_ | b | _ | _ | _ | _)
          all_goals first
            | rfl
            | (cases b <;> rfl)
      | arr | str =>
          cases given
          rfl
      | null | bool | num => cases given

theorem readAll_nonces {tables : Nat} {items : List (Value × Nat)} {entries : List Instance}
    (read : List.Forall₂ (fun item entry => readInstance (tables + item.2) item.1 = .ok entry)
      items entries) :
    entries.flatMap nonceTexts =
      (items.map Prod.fst).flatMap fun item => textsOf (Attest.tableField item "nonces") := by
  induction read with
  | nil => rfl
  | cons one _ ih => simp [readInstance_nonces one, ih]

theorem readInstances_nonces {pf : Platform} {tables : Nat} {body : Bytes} {entries : List Instance}
    {lifetime : Rat} (read : readInstances pf tables body = .ok (some (entries, lifetime))) :
    ∃ data, pf.decodeTruthy body = some data ∧ entries.flatMap nonceTexts = issuedIn data := by
  simp only [readInstances] at read
  split at read
  · cases read
  · rename_i data decoded
    refine ⟨data, decoded, ?_⟩
    simp only [bind, Except.bind] at read
    cases given : index (some data) "instances" with
    | error e => simp [given] at read
    | ok instances =>
        simp only [given] at read
        split at read
        · cases lasts : index (some data) "nonce_expires_in" with
          | error e => simp [lasts] at read
          | ok lasts' =>
              cases items : ipairs instances with
              | error e => simp [lasts, items] at read
              | ok items' =>
                  simp only [lasts, items] at read
                  split at read
                  · cases read
                  · rename_i entries' mapped
                    simp only [pure, Except.pure, Except.ok.injEq, Option.some.injEq,
                      Prod.mk.injEq] at read
                    obtain ⟨rfl, -⟩ := read
                    rw [readAll_nonces (mapM_forall₂ mapped), List.zipIdx_map_fst]
                    unfold issuedIn
                    cases data with
                    | obj fields =>
                        cases given
                        unfold ipairs at items
                        split at items
                        · rename_i values there
                          cases items
                          simp only [Attest.tableField, there]
                        · rename_i entries there
                          cases items
                          simp only [Attest.tableField, there]
                        · cases items
                    | arr | str =>
                        cases given
                        cases items
                    | null | bool | num => cases given
        · cases read

/-! ## What the invariant survives -/

section Survives

variable {pf : Platform} {v : View proxy} {t : ℕ}

theorem Discovered.mono {history newer : History} {entries : List Instance} {expires : Rat}
    (h : Discovered pf history entries expires) : Discovered pf (newer ++ history) entries expires := by
  obtain ⟨t, c, url, apiKey, body, tables, lifetime, mem, read⟩ := h
  exact ⟨t, c, url, apiKey, body, tables, lifetime, List.mem_append_right newer mem, read⟩

theorem Sourced.push {history : History} {batch : Batch} (h : Sourced pf history batch)
    (e : Entry proxy) : Sourced pf (e :: history) batch := by
  obtain ⟨entries, discovered, each⟩ := h
  have later : Discovered pf ([e] ++ history) entries batch.expiresAt := discovered.mono
  exact ⟨entries, later, each⟩

/-- An entry that neither issues nor hands out a nonce and is no POST. -/
structure Plain (pf : Platform) (what : Happening proxy) : Prop where
  issues : issuedBy pf what = []
  hands : handedBy what = none
  posts : postBy what = none

/-- A batch stays as it is or is dropped. -/
def KeepsNonces (s s' : ProxyState) : Prop :=
  ∀ chute, s'.nonceCache chute = s.nonceCache chute ∨ s'.nonceCache chute = none

theorem SingleUse.new (c : Rat) : SingleUse pf ⟨.new, c, []⟩ where
  sound := .empty
  cache _ _ given := nomatch given
  carried newer _ _ split := by cases newer <;> cases split
  posted newer _ _ split := by cases newer <;> cases split

/-- The part of the invariant that is about entries holds for one more. -/
theorem SingleUse.more (h : SingleUse pf v) (t : ℕ) (what : Happening proxy) (s : ProxyState)
    (sound : (stock pf ⟨s, v.clock, (v.push t what).history⟩).Sound)
    (cache : ∀ chute batch, s.nonceCache chute = some batch →
      Sourced pf (v.push t what).history batch)
    (carried : ∀ taken, what = .recorded (.handedOut taken) → Carried pf v.history taken v.clock)
    (posted : ∀ post, what = .asked (.invoke post) →
      (∃ taken c, ⟨t, c, .recorded (.handedOut taken)⟩ ∈ v.history ∧ taken.nonce = post.nonce ∧
        taken.inst.instanceId = post.instanceId) ∧
      (∀ other ∈ posts t v.history, other.nonce ≠ post.nonce) ∧
      (posts t v.history = [] ∨ ∃ first, posts t v.history = [first] ∧
        Refused t v.history first)) :
    SingleUse pf ⟨s, v.clock, (v.push t what).history⟩ := by
  refine ⟨sound, cache, fun newer e older split taken is => ?_, fun newer e older split post is => ?_⟩
  · cases newer with
    | nil =>
        obtain ⟨rfl, rfl⟩ := List.cons.inj split
        exact carried taken is
    | cons _ newer => exact h.carried newer e older (List.cons.inj split).2 taken is
  · cases newer with
    | nil =>
        obtain ⟨rfl, rfl⟩ := List.cons.inj split
        exact posted post is
    | cons _ newer => exact h.posted newer e older (List.cons.inj split).2 post is

theorem Plain.stock {what : Happening proxy} (plain : Plain pf what) (s : ProxyState) (c c' : Rat)
    (t : ℕ) (history : History) :
    stock pf ⟨s, c, ⟨t, c', what⟩ :: history⟩ = stock pf ⟨s, c, history⟩ := by
  simp [Handler.stock, issued, handed, plain.issues, plain.hands]

theorem SingleUse.push (h : SingleUse pf v) (t : ℕ) (what : Happening proxy)
    (plain : Plain pf what) : SingleUse pf (v.push t what) := by
  refine h.more t what v.state ?_ (fun chute batch given => (h.cache chute batch given).push _) ?_ ?_
  · rw [View.push_history, plain.stock]
    exact h.sound
  · rintro taken rfl
    exact nomatch plain.hands
  · rintro post rfl
    exact nomatch plain.posts

theorem SingleUse.state (h : SingleUse pf v) {s : ProxyState} (keeps : KeepsNonces v.state s) :
    SingleUse pf { v with state := s } where
  sound := by
    refine h.sound.shrink fun chute => ?_
    cases keeps chute with
    | inl same => simp [stock, same]
    | inr none => simp [none]
  cache chute batch given := by
    cases keeps chute with
    | inl same => exact h.cache chute batch (same.symm.trans given)
    | inr none =>
        rw [none] at given
        cases given
  carried := h.carried
  posted := h.posted

theorem left_withoutFirst {batch : Batch} {i : Nat} {inst : Instance} {nonce : Value}
    {rest : List Value} (here : batch.instances[i]? = some inst)
    (nonces : inst.nonces = some (.arr (nonce :: rest))) :
    ∃ before after, leftOf batch = before ++ (textsOf [nonce] ++ textsOf rest) ++ after ∧
      leftOf (withoutFirst batch i inst rest) = before ++ textsOf rest ++ after := by
  obtain ⟨there, same⟩ := List.getElem?_eq_some_iff.mp here
  have split : batch.instances = batch.instances.take i ++ inst :: batch.instances.drop (i + 1) := by
    rw [← same]
    simp
  refine ⟨(batch.instances.take i).flatMap nonceTexts,
    (batch.instances.drop (i + 1)).flatMap nonceTexts, ?_, ?_⟩
  · have texts : nonceTexts inst = textsOf [nonce] ++ textsOf rest := by
      simp only [nonceTexts, nonces, textsOf, ← List.filterMap_append, List.singleton_append]
    conv_lhs => rw [leftOf, split]
    simp [texts]
  · simp [leftOf, withoutFirst, List.set_eq_take_append_cons_drop, there, nonceTexts]

theorem left_sublist {batch : Batch} {i : Nat} {inst : Instance} {nonce : Value}
    {rest : List Value} (here : batch.instances[i]? = some inst)
    (nonces : inst.nonces = some (.arr (nonce :: rest))) :
    (leftOf (withoutFirst batch i inst rest)).Sublist (leftOf batch) := by
  obtain ⟨before, after, all, less⟩ := left_withoutFirst here nonces
  rw [all, less]
  exact ((List.sublist_append_right _ _).append_left before).append_right after

theorem Sourced.withoutFirst {history : History} {batch : Batch} (h : Sourced pf history batch)
    {i : Nat} {inst : Instance} {nonce : Value} {rest : List Value}
    (here : batch.instances[i]? = some inst)
    (nonces : inst.nonces = some (.arr (nonce :: rest))) :
    Sourced pf history (withoutFirst batch i inst rest) := by
  obtain ⟨entries, discovered, each⟩ := h
  refine ⟨entries, discovered, fun inst' mem => ?_⟩
  rcases List.mem_or_eq_of_mem_set mem with old | rfl
  · exact each inst' old
  · obtain ⟨entry, there, sameId, sameKey, carries⟩ := each inst (List.mem_of_getElem? here)
    refine ⟨entry, there, sameId, sameKey, fun text mem => carries text ?_⟩
    simp only [nonceTexts, nonces, textsOf] at mem ⊢
    exact ((List.sublist_cons_self nonce rest).filterMap _).subset mem

/-- The piles after a batch was put into the cache. -/
theorem stock_withBatch (v : View proxy) (chute : Value) (batch : Option Batch) :
    stock pf (withBatch v chute batch) =
      { stock pf v with
        piles := Function.update (stock pf v).piles chute ((batch.map leftOf).getD []) } := by
  simp only [stock, withBatch, Stock.mk.injEq, true_and]
  funext other
  by_cases same : other = chute
  · subst same
    simp
  · simp [Function.update_of_ne same]

theorem SingleUse.drop (h : SingleUse pf v) (chute : Value) : SingleUse pf (withBatch v chute none) := by
  refine h.state fun other => ?_
  by_cases same : other = chute
  · subst same
    exact .inr (by simp)
  · exact .inl (by simp [Function.update_of_ne same])

/-- The batches that are cached once one of them has lost a nonce. -/
theorem SingleUse.cache_remove (h : SingleUse pf v) {chute : Value} {batch : Batch}
    (given : v.state.nonceCache chute = some batch) {i : Nat} {inst : Instance} {nonce : Value}
    {rest : List Value} (here : batch.instances[i]? = some inst)
    (nonces : inst.nonces = some (.arr (nonce :: rest))) (other : Value) (batch' : Batch)
    (cached : (withBatch v chute (some (withoutFirst batch i inst rest))).state.nonceCache other =
      some batch') : Sourced pf v.history batch' := by
  by_cases same : other = chute
  · subst same
    rw [withBatch_self] at cached
    obtain rfl := Option.some.inj cached
    exact (h.cache other batch given).withoutFirst here nonces
  · rw [withBatch_ne _ _ same] at cached
    exact h.cache other batch' cached

theorem piles_sublist {chute : Value} {batch : Batch}
    (given : v.state.nonceCache chute = some batch) {i : Nat} {inst : Instance} {nonce : Value}
    {rest : List Value} (here : batch.instances[i]? = some inst)
    (nonces : inst.nonces = some (.arr (nonce :: rest))) (other : Value) :
    (Function.update (stock pf v).piles chute (leftOf (withoutFirst batch i inst rest)) other).Sublist
      ((stock pf v).piles other) := by
  by_cases same : other = chute
  · subst same
    simpa [stock, given] using left_sublist here nonces
  · rw [Function.update_of_ne same]

theorem SingleUse.remove (h : SingleUse pf v) {chute : Value} {batch : Batch}
    (given : v.state.nonceCache chute = some batch) {i : Nat} {inst : Instance} {nonce : Value}
    {rest : List Value} (here : batch.instances[i]? = some inst)
    (nonces : inst.nonces = some (.arr (nonce :: rest))) :
    SingleUse pf (withBatch v chute (some (withoutFirst batch i inst rest))) where
  sound := by
    rw [stock_withBatch]
    exact h.sound.shrink (piles_sublist given here nonces)
  cache := h.cache_remove given here nonces
  carried := h.carried
  posted := h.posted

/-- A nonce is taken and handed out. -/
theorem SingleUse.take (h : SingleUse pf v) (t : ℕ) {chute : Value} {taken : Taken} {batch : Batch}
    {i : Nat} {inst : Instance} {rest : List Value} (takes : Takes v chute taken batch i inst rest) :
    SingleUse pf ((withBatch v chute (some (withoutFirst batch i inst rest))).push t
      (.recorded (.handedOut taken))) ∧ taken.nonce ∉ handed v.history := by
  obtain ⟨before, after, all, less⟩ := left_withoutFirst takes.here takes.nonces
  have pile : (stock pf v).piles chute = leftOf batch := by simp [stock, takes.cached]
  have here : taken.nonce ∈ (stock pf v).piles chute := by
    rw [pile, all]
    simp [textsOf, asString]
  have gone : taken.nonce ∉ leftOf (withoutFirst batch i inst rest) := by
    have texts : textsOf [.str taken.nonce] = [taken.nonce] := rfl
    have distinct := h.sound.pile chute
    rw [pile, all, texts, List.append_assoc, List.singleton_append, List.cons_append] at distinct
    rw [less, List.append_assoc]
    exact (List.nodup_middle.mp distinct).notMem
  refine ⟨?_, (h.sound.apart chute _ here).2.1⟩
  refine h.more t _ (withBatch v chute (some (withoutFirst batch i inst rest))).state ?_ ?_ ?_
    fun _ same => by cases same
  · have taking := h.sound.take here (piles_sublist takes.cached takes.here takes.nonces)
      (by simpa using gone)
    convert taking using 1
    have same : stock pf _ = _ := stock_withBatch v chute (some (withoutFirst batch i inst rest))
    simp only [stock, Stock.mk.injEq] at same ⊢
    exact ⟨by simp [issued, issuedBy], by simp [handed, handedBy], same.2.2⟩
  · intro other batch' cached
    exact (h.cache_remove takes.cached takes.here takes.nonces other batch' cached).push _
  · rintro _ ⟨⟩
    obtain ⟨entries, discovered, each⟩ := h.cache chute batch takes.cached
    obtain ⟨entry, mem, sameId, sameKey, carries⟩ := each inst (List.mem_of_getElem? takes.here)
    refine ⟨entries, batch.expiresAt, discovered, takes.valid, entry, mem,
      sameId.trans takes.instanceId, sameKey.trans takes.e2ePubkey, carries _ ?_⟩
    simp [nonceTexts, takes.nonces, textsOf, asString]

/-- An answer to a discovery issues nonces. -/
theorem SingleUse.issue (h : SingleUse pf v) (t : ℕ) (url apiKey : Bytes)
    (a : (Request.instances url apiKey).Answer)
    (fresh : FreshNonces pf v (.instances url apiKey) a) :
    SingleUse pf (v.push t (.answered (.instances url apiKey) a)) := by
  refine h.more t _ v.state ?_ (fun chute batch given => (h.cache chute batch given).push _)
    nofun nofun
  have sound := h.sound.issue fresh.1 fresh.2
  simpa [stock, issued, handed, handedBy] using sound

/-- The batch that is read from it takes its place in the cache. -/
theorem SingleUse.receive (h : SingleUse pf v) (t : ℕ) {url apiKey body : Bytes}
    (fresh : FreshNonces pf v (.instances url apiKey) (.ok ⟨200, body⟩)) {tables : Nat}
    {entries : List Instance} {lifetime : Rat}
    (read : readInstances pf tables body = .ok (some (entries, lifetime))) (chute : Value) :
    SingleUse pf (withBatch (v.push t (.answered (.instances url apiKey) (.ok ⟨200, body⟩))) chute
      (some ⟨entries, v.clock + lifetime⟩)) := by
  obtain ⟨data, decoded, nonces⟩ := readInstances_nonces read
  have issues : issuedBy pf (.answered (.instances url apiKey) (.ok ⟨200, body⟩)) =
      entries.flatMap nonceTexts := by
    simp [issuedBy, decoded, nonces]
  have pushed := h.issue t url apiKey _ fresh
  obtain ⟨distinct, unissued⟩ := fresh
  rw [issues] at distinct unissued
  refine ⟨?_, fun other batch cached => ?_, pushed.carried, pushed.posted⟩
  · rw [stock_withBatch]
    refine pushed.sound.put chute distinct fun nonce mem => ⟨?_, fun old => ?_, fun other old => ?_⟩
    · simp only [stock, issued, View.push_history, List.flatMap_cons, issues]
      exact List.mem_append_left _ mem
    · refine unissued nonce mem (h.sound.known nonce ?_)
      simpa [stock, handed, handedBy] using old
    · exact unissued nonce mem (h.sound.apart other nonce old).1
  · by_cases same : other = chute
    · subst same
      rw [withBatch_self] at cached
      obtain rfl := Option.some.inj cached
      refine ⟨entries, ⟨t, v.clock, url, apiKey, body, tables, lifetime, List.mem_cons_self, read,
        rfl⟩, fun inst mem => ⟨inst, mem, rfl, rfl, fun _ => id⟩⟩
    · rw [withBatch_ne _ _ same] at cached
      exact pushed.cache other batch cached

end Survives

/-! ## What a task knows -/

/-- What holds of a history holds of all that come after it. -/
def Lasting (K : History → Prop) : Prop := ∀ newer history, K history → K (newer ++ history)

theorem lasting_refused (t : ℕ) (post : Invocation) : Lasting (Refused t · post) := by
  rintro more history ⟨newer, c, body, between, c', older, rfl, names⟩
  exact ⟨more ++ newer, c, body, between, c', older, by simp, names⟩

theorem posts_others {t : ℕ} {v w : View proxy} (others : Others t v w) :
    posts t w.history = posts t v.history := by
  obtain ⟨more, same, other⟩ := others
  have none : posts t more = [] := by
    refine List.filterMap_eq_nil_iff.mpr fun e mem => ?_
    simp [other e mem]
  rw [posts] at none
  rw [posts, same, List.filterMap_append, none, List.nil_append, posts]

theorem posts_push {what : Happening proxy} (plain : postBy what = none) (t t' : ℕ)
    (v : View proxy) : posts t (v.push t' what).history = posts t v.history := by
  simp [posts, plain]

/-- The invariant, the POSTs the task has made and what it knows besides. -/
structure Ready (pf : Platform) (t : ℕ) (made : List Invocation) (K : History → Prop)
    (v : View proxy) : Prop where
  single : SingleUse pf v
  made : posts t v.history = made
  known : K v.history

section Knows

variable {pf : Platform} {t : ℕ} {made : List Invocation} {K : History → Prop} {v : View proxy}

theorem Ready.push (h : Ready pf t made K v) (lasting : Lasting K) (what : Happening proxy)
    (plain : Plain pf what) : Ready pf t made K (v.push t what) where
  single := h.single.push t what plain
  made := (posts_push plain.posts t t v).trans h.made
  known := lasting [_] _ h.known

theorem Ready.others {w : View proxy} (h : Ready pf t made K v) (lasting : Lasting K)
    (single : SingleUse pf w) (others : Others t v w) : Ready pf t made K w where
  single := single
  made := (posts_others others).trans h.made
  known := by
    obtain ⟨more, same, -⟩ := others
    rw [same]
    exact lasting more _ h.known

theorem ready_stable (lasting : Lasting K) :
    Stable (SingleUse pf) (Ready pf t made K) t KeepsNonces (Plain pf) where
  implies _ h := h.single
  modify _ _ h keeps := ⟨h.single.state keeps, h.made, h.known⟩
  push _ what h plain := h.push lasting what plain
  others _ _ h single others := h.others lasting single others

theorem single_stable : Stable (SingleUse pf) (SingleUse pf) t KeepsNonces (Plain pf) where
  implies _ h := h
  modify _ _ h keeps := h.state keeps
  push _ what h plain := h.push t what plain
  others _ _ _ h _ := h

end Knows

/-! ## The routines -/

section Routines

variable {cfg : Config} {pf : Platform} {t : ℕ} {made : List Invocation} {K : History → Prop}
  {v : View proxy}

theorem ready_takable (lasting : Lasting K) (chute : Value) :
    Takable (Ready pf t made K) t chute where
  selector v _ h := (ready_stable lasting).modify v _ h fun _ => .inl rfl
  roll _ a h := h.push lasting (.answered .roll a) ⟨rfl, rfl, rfl⟩
  drop _ h := ⟨h.single.drop chute, h.made, h.known⟩
  remove _ _ _ _ _ _ h given here nonces := ⟨h.single.remove given here nonces, h.made, h.known⟩

/-- The nonce was handed to the task, which has not used it. -/
def Holding (t : ℕ) (made : List Invocation) (taken : Taken) (history : History) : Prop :=
  (∃ c, ⟨t, c, .recorded (.handedOut taken)⟩ ∈ history) ∧ ∀ post ∈ made, post.nonce ≠ taken.nonce

theorem lasting_holding (t : ℕ) (made : List Invocation) (taken : Taken) : Lasting (Holding t made taken) :=
  fun newer _ h => ⟨h.1.imp fun _ mem => List.mem_append_right newer mem, h.2⟩

theorem Lasting.and {L : History → Prop} (h : Lasting K) (h' : Lasting L) :
    Lasting fun history => K history ∧ L history :=
  fun newer history both => ⟨h newer history both.1, h' newer history both.2⟩

theorem mem_posts {history : History} {post : Invocation} (mem : post ∈ posts t history) :
    ∃ newer c older, history = newer ++ ⟨t, c, .asked (.invoke post)⟩ :: older := by
  obtain ⟨e, there, is⟩ := List.mem_filterMap.mp mem
  split at is
  · rename_i own
    obtain ⟨newer, older, split⟩ := List.append_of_mem there
    obtain ⟨t', c, what⟩ := e
    obtain rfl : t' = t := own
    obtain rfl : what = .asked (.invoke post) := postBy_some is
    exact ⟨newer, c, older, split⟩
  · cases is

/-- What was presented was handed out before. -/
theorem SingleUse.post_handed (h : SingleUse pf v) {post : Invocation}
    (mem : post ∈ posts t v.history) : post.nonce ∈ handed v.history := by
  obtain ⟨newer, c, older, split⟩ := mem_posts mem
  obtain ⟨⟨taken, c', there, same, -⟩, -⟩ := h.posted newer _ older split post rfl
  rw [← same, split]
  exact List.mem_filterMap.mpr ⟨_, List.mem_append_right _ (List.mem_cons_of_mem _ there), rfl⟩

theorem takeNonce_ready (lasting : Lasting K) (chute : Value) (mode : Bytes)
    (h : Ready pf t made K v) :
    Holds (FreshNonces pf) (SingleUse pf) t (takeNonce cfg pf chute mode)
      (fun result v' => match result with
        | none => Ready pf t made K v'
        | some taken => Ready pf t made (fun history => K history ∧ Holding t made taken history) v')
      v := by
  refine takeNonce_holds cfg pf (ready_takable lasting chute) (fun _ h => h.single)
    (fun taken v' => Ready pf t made (fun history => K history ∧ Holding t made taken history) v')
    ?_ mode h
  intro v taken batch i inst rest h takes
  obtain ⟨single, unused⟩ := h.single.take t takes
  refine ⟨single, ?_, lasting [_] _ h.known, ⟨_, List.mem_cons_self⟩, fun post mem same => ?_⟩
  · exact (posts_push rfl t t _).trans h.made
  · rw [← h.made] at mem
    exact unused (same ▸ h.single.post_handed mem)

/-- The batch of a fetch, once it is in the cache. -/
theorem fetchInstances_ready (lasting : Lasting K) (chute : Value) (apiKey : Bytes)
    (h : Ready pf t made K v) :
    Holds (FreshNonces pf) (SingleUse pf) t (fetchInstances cfg pf chute apiKey)
      (fun result v' => match result with
        | .error _ => Ready pf t made K v'
        | .ok batch => ∀ chute, Ready pf t made K (withBatch v' chute (some batch))) v := by
  unfold fetchInstances
  cases text : pf.concatArg (some chute) with
  | error e => exact h.single
  | ok chuteText =>
      have asked (url : Bytes) := h.push lasting (.asked (.instances url apiKey)) ⟨rfl, rfl, rfl⟩
      refine ⟨(asked _).single, fun v' single others a fresh => ?_⟩
      have waited := (asked _).others lasting single others
      have answered : Ready pf t made K (v'.push t (.answered (.instances _ apiKey) a)) :=
        ⟨waited.single.issue t _ apiKey a fresh, (posts_push rfl t t v').trans waited.made,
          lasting [_] _ waited.known⟩
      unfold receiveInstances
      cases a with
      | error err => exact answered
      | ok res =>
          dsimp only [Routine.bind]
          split
          · exact answered
          · rename_i good
            obtain ⟨status, body⟩ := res
            obtain rfl : status = 200 := by simpa using good
            dsimp only [ngxNow, getState, Routine.bind_eq, Routine.bind, Holds, View.push_state]
            cases read : readInstances pf v'.state.tables body with
            | error e => exact answered.single
            | ok found =>
                cases found with
                | none => exact answered
                | some found =>
                    intro chute'
                    have received := waited.single.receive t fresh read chute'
                    exact ⟨received.state fun _ => .inl rfl, answered.made, answered.known⟩

theorem getNonce_ready (lasting : Lasting K) (chute : Value) (apiKey mode : Bytes)
    (h : Ready pf t made K v) :
    Holds (FreshNonces pf) (SingleUse pf) t (getNonce cfg pf chute apiKey mode)
      (fun result v' => match result with
        | .error _ => Ready pf t made K v'
        | .ok taken => Ready pf t made (fun history => K history ∧ Holding t made taken history) v')
      v := by
  apply (takeNonce_ready lasting chute mode h).bind
  rintro (_ | taken) v' h'
  · apply (fetchInstances_ready lasting chute apiKey h').bind
    rintro (err | batch) v'' h''
    · exact h''
    · apply (takeNonce_ready lasting chute mode (h'' chute)).bind
      rintro (_ | taken) v₃ h₃
      · exact h₃
      · exact h₃
  · exact h'

/-- What a rejected instance leads to. -/
theorem invalidateNonces_keeps (chuteId : Value) (id : Option Id) :
    Quiet KeepsNonces (Plain pf) (invalidateNonces cfg chuteId id) := by
  refine ⟨fun s chute => ?_, fun now => ⟨fun s chute => .inl rfl, trivial⟩⟩
  by_cases same : chute = chuteId
  · subst same
    exact .inr (Function.update_self ..)
  · exact .inl (Function.update_of_ne same ..)

theorem guard_keeps (chuteId : Value) (id : Id) (key : Option Value) (apiKey : Bytes) :
    Quiet KeepsNonces (Plain pf) (Attest.guard cfg pf chuteId id key apiKey) :=
  guard_quiet cfg pf (fun _ _ _ _ _ => .inl rfl) (fun _ _ => ⟨rfl, rfl, rfl⟩)
    (fun _ _ => ⟨rfl, rfl, rfl⟩) (fun _ _ _ => ⟨rfl, rfl, rfl⟩) chuteId id key apiKey

/-- What a request does besides issues no nonce, hands none out and makes no POST. -/
theorem incidental_plain (cfg : Config) (pf : Platform) : Incidental cfg KeepsNonces (Plain pf) where
  selects _ _ _ := .inl rfl
  rejects := invalidate_quiet fun _ _ _ _ _ => .inl rfl
  forgets := invalidateNonces_keeps
  connecting := ⟨rfl, rfl, rfl⟩
  connected _ := ⟨rfl, rfl, rfl⟩
  reading := ⟨rfl, rfl, rfl⟩
  read _ := ⟨rfl, rfl, rfl⟩
  decrypted _ _ _ := ⟨rfl, rfl, rfl⟩
  starting _ := ⟨rfl, rfl, rfl⟩
  started _ _ := ⟨rfl, rfl, rfl⟩
  resting := ⟨rfl, rfl, rfl⟩
  rested _ := ⟨rfl, rfl, rfl⟩

theorem pickAttested_ready {call : Call} {chuteId : Value} (picks : Nat)
    (err : Option Attest.AttestError) (lasting : Lasting K) (h : Ready pf t made K v) :
    Holds (FreshNonces pf) (SingleUse pf) t (pickAttested cfg pf call chuteId picks err)
      (fun result v' => match result with
        | .error _ => SingleUse pf v'
        | .ok taken => Ready pf t made (fun history => K history ∧ Holding t made taken history) v')
      v := by
  apply pickAttested_holds (incidental_plain cfg pf)
    (fun taken => Ready pf t made fun history => K history ∧ Holding t made taken history)
    (fun taken => Ready pf t made fun history => K history ∧ Holding t made taken history)
    (ready_stable lasting) _ _ picks err h
  · intro v h
    apply (getNonce_ready lasting chuteId call.apiKey call.mode h).mono
    intro result v' h'
    cases result with
    | error err => exact h'.single
    | ok taken => exact h'
  · intro taken v h
    have both := lasting.and (lasting_holding t made taken)
    apply ((guard_keeps _ _ _ _).holds (ready_stable both) h).mono
    intro result v' h'
    cases result with
    | error err => exact ⟨h'.single, h'.made, h'.known.1⟩
    | ok passed => exact h'

/-- What lets a task make a POST: it has made none, or one that was refused. -/
def Allowed (t : ℕ) (made : List Invocation) (history : History) : Prop :=
  made = [] ∨ ∃ first, made = [first] ∧ Refused t history first

theorem lasting_allowed (t : ℕ) (made : List Invocation) : Lasting (Allowed t made) := by
  rintro newer history (none | ⟨first, one, refused⟩)
  · exact .inl none
  · exact .inr ⟨first, one, lasting_refused t first newer history refused⟩

theorem Ready.post {taken : Taken}
    (h : Ready pf t made (fun history => Allowed t made history ∧ Holding t made taken history) v)
    {post : Invocation} (nonce : post.nonce = taken.nonce)
    (id : post.instanceId = taken.inst.instanceId) :
    Ready pf t (post :: made) (fun _ => True) (v.push t (.asked (.invoke post))) where
  single := by
    obtain ⟨allowed, ⟨c, there⟩, unused⟩ := h.known
    refine h.single.more t _ v.state ?_
      (fun chute batch given => (h.single.cache chute batch given).push _) nofun ?_
    · simpa [stock, issued, issuedBy, handed, handedBy] using h.single.sound
    · rintro _ ⟨⟩
      refine ⟨⟨taken, c, there, nonce.symm, id.symm⟩, fun other mem => ?_, ?_⟩
      · rw [h.made] at mem
        exact nonce ▸ unused other mem
      · rw [h.made]
        exact allowed
  made := by
    rw [← h.made]
    simp [posts, postBy]
  known := trivial

/-- The POST was answered 403. -/
def Forbidden (t : ℕ) (post : Invocation) (history : History) : Prop :=
  ∃ newer c older, history = newer ++ ⟨t, c, .answered (.invoke post) (.ok 403)⟩ :: older

theorem lasting_forbidden (t : ℕ) (post : Invocation) : Lasting (Forbidden t post) := by
  rintro more history ⟨newer, c, older, rfl⟩
  exact ⟨more ++ newer, c, older, by simp⟩

/-- `again` is only there for the first POST, and goes on once that is refused. -/
theorem send_single {call : Call} {again : Option (Prog (Except Failure Reply))}
    {chuteId : Value} {taken : Taken} {blob responseSk : Bytes}
    (next : ∀ p ∈ again, made = [] ∧ ∀ v first,
      Ready pf t [first] (fun history => Refused t history first) v →
      Holds (FreshNonces pf) (SingleUse pf) t p (fun _ => SingleUse pf) v)
    (h : Ready pf t made (fun history => Allowed t made history ∧ Holding t made taken history) v) :
    Holds (FreshNonces pf) (SingleUse pf) t (send cfg call again chuteId taken blob responseSk)
      (fun _ => SingleUse pf) v := by
  have lasting := (lasting_allowed t made).and (lasting_holding t made taken)
  have posted : Stable (SingleUse pf)
      (Ready pf t (invocation call chuteId taken blob :: made) fun _ => True) t KeepsNonces (Plain pf) :=
    ready_stable fun _ _ => id
  have forbidden : Stable (SingleUse pf)
      (Ready pf t (invocation call chuteId taken blob :: made)
        (Forbidden t (invocation call chuteId taken blob))) t KeepsNonces (Plain pf) :=
    ready_stable (lasting_forbidden t _)
  have refused : Stable (SingleUse pf)
      (Ready pf t (invocation call chuteId taken blob :: made)
        (Refused t · (invocation call chuteId taken blob))) t KeepsNonces (Plain pf) :=
    ready_stable (lasting_refused t _)
  apply send_holds (incidental_plain cfg pf) single_stable (ready_stable lasting) posted forbidden
    refused _ _ _ _ _ h
  · intro v h
    exact h.post rfl rfl
  · intro v status h
    exact (posted.push v _ h ⟨rfl, rfl, rfl⟩).single
  · intro v h
    have answered := posted.push v
      (.answered (.invoke (invocation call chuteId taken blob)) (.ok 403)) h ⟨rfl, rfl, rfl⟩
    exact ⟨answered.single, answered.made, [], _, _, rfl⟩
  · intro v body h names
    have read := forbidden.push v (.answered .readBody (some body)) h ⟨rfl, rfl, rfl⟩
    obtain ⟨between, c', older, same⟩ := h.known
    exact ⟨read.single, read.made, [], v.clock, body, between, c', older,
      by rw [View.push_history, same, List.nil_append], names⟩
  · intro p there v h
    obtain ⟨rfl, goesOn⟩ := next p there
    exact goesOn v _ h

theorem attempt_single {call : Call} {again : Option (Prog (Except Failure Reply))}
    {chuteId : Value}
    (next : ∀ p ∈ again, made = [] ∧ ∀ v first,
      Ready pf t [first] (fun history => Refused t history first) v →
      Holds (FreshNonces pf) (SingleUse pf) t p (fun _ => SingleUse pf) v)
    (h : Ready pf t made (Allowed t made) v) :
    Holds (FreshNonces pf) (SingleUse pf) t (attempt cfg pf call again chuteId)
      (fun _ => SingleUse pf) v := by
  have lasting (taken : Taken) := (lasting_allowed t made).and (lasting_holding t made taken)
  apply attempt_holds
    (fun taken => Ready pf t made fun history => Allowed t made history ∧ Holding t made taken history)
    (fun taken => Ready pf t made fun history => Allowed t made history ∧ Holding t made taken history)
    _ _ _ (pickAttested_ready 3 none (lasting_allowed t made) h)
  · exact fun taken v answer h => h.push (lasting taken) _ ⟨rfl, rfl, rfl⟩
  · exact fun taken v h => h.single
  · exact fun taken blob responseSk v h => send_single next h

theorem roundTrip_single (call : Call) (h : SingleUse pf v) (none : posts t v.history = []) :
    Holds (FreshNonces pf) (SingleUse pf) t (e2eeRoundTrip cfg pf call)
      (fun _ => SingleUse pf) v := by
  have resolves : Quiet KeepsNonces (Plain pf) (resolveChuteId cfg pf call.model call.apiKey) :=
    resolveChuteId_quiet cfg pf (fun _ _ _ _ => .inl rfl) (fun _ _ => ⟨rfl, rfl, rfl⟩)
      (fun _ _ _ => ⟨rfl, rfl, rfl⟩) _ _
  have lasting := lasting_allowed t []
  have begins : Ready pf t [] (Allowed t []) v := ⟨h, none, .inl rfl⟩
  apply roundTrip_holds (incidental_plain cfg pf) (fun _ => Ready pf t [] (Allowed t [])) single_stable
  · intro chuteId v begun
    apply attempt_single _ begun
    rintro p ⟨⟩
    refine ⟨rfl, fun v first refused => ?_⟩
    refine attempt_single (fun p none => nomatch none) ⟨refused.single, refused.made, ?_⟩
    exact .inr ⟨first, rfl, refused.known⟩
  · apply (resolves.holds (ready_stable lasting) begins).mono
    intro found v' h'
    cases found with
    | error err => exact h'.single
    | ok chuteId => exact h'.push lasting _ ⟨rfl, rfl, rfl⟩

end Routines

/-! ## Every run -/

theorem reachable_single {cfg : Config} {pf : Platform}
    {w : World proxy (Except Failure (Option Bytes))}
    (reach : Reachable (FreshNonces pf) (Calls cfg pf) .new w) : SingleUse pf w.view := by
  refine reach.invariant SingleUse.new ?_ ?_
  · exact fun _ _ h => ⟨h.sound, h.cache, h.carried, h.posted⟩
  · rintro p ⟨call, rfl⟩ t v h fresh
    refine roundTrip_single call h (List.filterMap_eq_nil_iff.mpr fun e mem => ?_)
    exact if_neg (fresh e mem)

theorem posts_length {pf : Platform} {v : View proxy} (h : SingleUse pf v) (t : ℕ) :
    (posts t v.history).length ≤ 2 := by
  cases made : posts t v.history with
  | nil => exact Nat.zero_le 2
  | cons post earlier =>
      obtain ⟨newer, e, older, split, -, is, rest⟩ := List.filterMap_eq_cons_iff.mp made
      split at is
      · rename_i own
        obtain ⟨t', c, what⟩ := e
        obtain rfl : t' = t := own
        obtain rfl : what = .asked (.invoke post) := postBy_some is
        obtain ⟨-, -, allowed⟩ := h.posted newer _ older split post rfl
        rcases allowed with none | ⟨first, one, -⟩
        · rw [← rest, ← posts, none]
          exact Nat.le_succ 1
        · rw [← rest, ← posts, one]
          exact Nat.le_refl 2
      · cases is

/-- Two entries do not hand out one nonce. -/
theorem handed_once {history : History} (distinct : (handed history).Nodup) {e e' : Entry proxy}
    (mem : e ∈ history) (mem' : e' ∈ history) {nonce : Bytes} (is : handedBy e.what = some nonce)
    (is' : handedBy e'.what = some nonce) : e = e' := by
  induction history with
  | nil => cases mem
  | cons first history ih =>
      have later (e : Entry proxy) (there : e ∈ history) (is : handedBy e.what = some nonce) :
          nonce ∈ handed history := List.mem_filterMap.mpr ⟨e, there, is⟩
      cases head : handedBy first.what with
      | none =>
          simp only [handed, List.filterMap_cons, head] at distinct
          have old (e : Entry proxy) (mem : e ∈ first :: history)
              (is : handedBy e.what = some nonce) : e ∈ history := by
            rcases List.mem_cons.mp mem with rfl | old
            · rw [head] at is
              cases is
            · exact old
          exact ih distinct (old e mem is) (old e' mem' is')
      | some nonce' =>
          simp only [handed, List.filterMap_cons, head] at distinct
          obtain ⟨unused, distinct⟩ := List.nodup_cons.mp distinct
          rcases List.mem_cons.mp mem with rfl | old <;> rcases List.mem_cons.mp mem' with rfl | old'
          · rfl
          · rw [is] at head
            obtain rfl := Option.some.inj head
            exact absurd (later e' old' is') unused
          · rw [is'] at head
            obtain rfl := Option.some.inj head
            exact absurd (later e old is) unused
          · exact ih distinct old old'

theorem presented_nodup {pf : Platform} {v : View proxy} (h : SingleUse pf v) :
    (presented v.history).Nodup := by
  suffices later : ∀ older newer, v.history = newer ++ older → (presented older).Nodup from
    later v.history [] rfl
  intro older
  induction older with
  | nil => exact fun _ _ => .nil
  | cons e older ih =>
      intro newer split
      have rest := ih (newer ++ [e]) (by simp [split])
      obtain ⟨t, c, what⟩ := e
      cases posted : postBy what with
      | none => simpa [presented, posted] using rest
      | some post =>
          obtain rfl := postBy_some posted
          refine List.nodup_cons.mpr ⟨fun again => ?_, rest⟩
          obtain ⟨⟨t', c', what'⟩, mem, same⟩ := List.mem_filterMap.mp again
          obtain ⟨other, is, nonce⟩ := Option.map_eq_some_iff.mp same
          obtain rfl : what' = .asked (.invoke other) := postBy_some is
          -- The task of the other POST was handed the nonce as well, so it is the same task.
          obtain ⟨⟨taken, k, there, of, -⟩, unused, -⟩ := h.posted newer _ older split post rfl
          obtain ⟨between, before, split'⟩ := List.append_of_mem mem
          obtain ⟨⟨taken', k', there', of', -⟩, -⟩ :=
            h.posted (newer ++ ⟨t, c, .asked (.invoke post)⟩ :: between)
              ⟨t', c', .asked (.invoke other)⟩ before
              (by simp [split, split']) other rfl
          have old {e : Entry proxy} (mem : e ∈ older) : e ∈ v.history := by
            rw [split]
            exact List.mem_append_right _ (List.mem_cons_of_mem _ mem)
          have there' := List.mem_append_right between (List.mem_cons_of_mem
            ⟨t', c', .asked (.invoke other)⟩ there')
          rw [← split'] at there'
          have same := handed_once h.sound.handed (old there) (old there') (congrArg some of)
            (congrArg some (of'.trans nonce))
          obtain rfl : t = t' := congrArg Entry.task same
          exact unused other (List.mem_filterMap.mpr ⟨_, mem, if_pos rfl⟩) nonce

namespace Sample

def lotOf (nonce : String) : Value :=
  .obj [(lit "instances", .arr [.obj [(lit "instance_id", .str (lit "a")),
    (lit "e2e_pubkey", .str key), (lit "nonces", .arr [.str (lit nonce)])]])]

def noncePlatform : Platform :=
  { platform with toRuntime := .ofDocuments [(lit "1", lotOf "n1"), (lit "2", lotOf "n2")] }

def unattested : Config := { defaultConfig with attestMode := .off }

/-- Two nonces are issued, one at a time, and every POST is refused. -/
def refusals (v : View proxy) : (r : Request) → r.Answer
  | .instances _ _ =>
      if lit "n1" ∉ issued noncePlatform v.history then .ok ⟨200, lit "1"⟩
      else if lit "n2" ∉ issued noncePlatform v.history then .ok ⟨200, lit "2"⟩
      else .error (lit "timeout")
  | .connect => .ok ()
  | .invoke _ => .ok 403
  | .readBody => some (lit "nonce expired")
  | r => answers r

theorem refusals_fresh (v : View proxy) (r : Request) :
    FreshNonces noncePlatform v r (refusals v r) := by
  cases r with
  | instances url apiKey =>
      unfold refusals
      have lot (nonce : String) (body : Bytes)
          (carries : issuedBy noncePlatform (.answered (.instances url apiKey) (.ok ⟨200, body⟩)) =
            [lit nonce]) (fresh : lit nonce ∉ issued noncePlatform v.history) :
          FreshNonces noncePlatform v (.instances url apiKey) (.ok ⟨200, body⟩) := by
        refine ⟨carries ▸ List.nodup_singleton _, fun nonce' mem => ?_⟩
        rw [carries] at mem
        rwa [List.mem_singleton.mp mem]
      split
      · rename_i fresh
        exact lot "n1" _ (rfl) fresh
      · split
        · rename_i fresh
          exact lot "n2" _ (rfl) fresh
        · exact ⟨.nil, fun _ mem => nomatch mem⟩
  | models | evidence | random | roll | build | connect | invoke | readBody | decryptResponse
    | streamStart | streamRest => exact ⟨.nil, fun _ mem => nomatch mem⟩

def refusedTwice : World proxy (Except Failure (Option Bytes)) :=
  (World.initial (S := proxy) .new 0).run refusals 0 (e2eeRoundTrip unattested noncePlatform call) 8

end Sample

end E2eeProxy.Handler
