import E2eeProxy.DiscoverySteps
import E2eeProxy.SelectorPick
import Mathlib.Algebra.Order.Ring.Rat

/-! # Is a chute with capacity ever reported as exhausted?

When `get_nonce` has fetched a batch with nonces it should return one of them.
It does unless the mode is balanced and the ring, as earlier lists and picks
have left it, is full of instances that are listed but no candidates: it is
neither filled up nor left then.
-/

namespace E2eeProxy.Discovery

open Lua Lib Selector

/-- The nonces that are listed are lists of strings. -/
def HasNonceLists (instances : List Instance) : Prop :=
  ∀ inst ∈ instances, ∀ v, inst.nonces = some v → ∃ texts : List Bytes, v = .arr (texts.map .str)

/-- An instance with an id and nonces is listed. -/
def HasCapacity (instances : List Instance) : Prop :=
  ∃ inst ∈ instances, inst.instanceId.isSome ∧ 0 < inst.nonceCount

theorem eligible_ne_nil {instances : List Instance} (capacity : HasCapacity instances) :
    eligible instances ≠ [] := by
  obtain ⟨inst, mem, hasId, nonces⟩ := capacity
  obtain ⟨id, hasId⟩ := Option.isSome_iff_exists.mp hasId
  obtain ⟨i, here⟩ := List.getElem?_of_mem mem
  exact List.ne_nil_of_mem (mem_eligible.mpr ⟨inst, here, hasId, nonces⟩ : (⟨i, id⟩ : Cand) ∈ _)

/-- A candidate of a batch with lists of nonces has a nonce to take. -/
theorem eligible_nonce {instances : List Instance} (lists : HasNonceLists instances) {c : Cand}
    (mem : c ∈ eligible instances) :
    ∃ inst nonce rest, instances[c.index]? = some inst ∧
      removeNonce inst = .ok (.str nonce, { inst with nonces := some (.arr rest) }) := by
  obtain ⟨inst, here, -, count⟩ := mem_eligible.mp mem
  cases given : inst.nonces with
  | none => simp [Instance.nonceCount, given] at count
  | some v =>
      obtain ⟨texts, rfl⟩ := lists inst (List.mem_of_getElem? here) v given
      cases texts with
      | nil => simp [Instance.nonceCount, given] at count
      | cons nonce texts =>
          exact ⟨inst, nonce, texts.map .str, here, by simp [removeNonce, given]⟩

section Take

variable (cfg : Config) (pf : Platform) {admits : View proxy → (r : Request) → r.Answer → Prop}
  {inv : View proxy → Prop} {t : ℕ} {chute : Value} {mode : Bytes}

/-- Taking a nonce from a batch with capacity. -/
theorem takeNonce_serves {w : View proxy} {batch : Batch}
    (cached : w.state.nonceCache chute = some batch) (valid : w.clock < batch.expiresAt)
    (lists : HasNonceLists batch.instances) (capacity : HasCapacity batch.instances) :
    Holds admits inv t (takeNonce cfg pf chute mode)
      (fun taken _ => taken.isSome ↔
        ¬ RingStuck cfg w.clock w.state.selector batch.instances chute mode) w := by
  simp only [takeNonce, getState, ngxNow, ask, Routine.bind_eq, Routine.bind, Holds, cached]
  rw [if_neg (Rat.not_le.mpr valid)]
  intro rolls _
  have picks := pick_isSome_iff cfg pf w.clock rolls w.state.selector batch.instances chute mode
    (eligible_ne_nil capacity)
  simp only [modifyState, Routine.bind, Holds]
  cases picked : (pick cfg pf w.clock rolls w.state.selector batch.instances chute mode).2 with
  | none =>
      rw [picked] at picks
      simpa [setCache, modifyState, Routine.bind, Holds] using picks
  | some choice =>
      obtain ⟨c, reason⟩ := choice
      obtain ⟨inst, nonce, rest, here, removed⟩ :=
        eligible_nonce lists (pick_mem cfg pf w.clock rolls _ _ chute mode picked)
      rw [picked] at picks
      simpa [takeFrom, here, removed, lua, setCache, modifyState, nonceText, record, Routine.bind,
        Holds] using picks

/-- `get_nonce` from the answer of the discovery on. -/
def afterDiscovery (chute : Value) (mode : Bytes) (answer : Except Bytes Response) :
    Prog (Except NonceError Taken) := do
  match ← receiveInstances pf answer with
  | .error err => return .error err
  | .ok batch => takeFresh cfg pf chute mode batch

theorem afterDiscovery_serves {w : View proxy} {body : Bytes} {instances : List Instance} {lifetime : Rat}
    (listed : readInstances pf w.state.tables body = .ok (some (instances, lifetime)))
    (positive : 0 < lifetime) (lists : HasNonceLists instances)
    (capacity : HasCapacity instances) :
    Holds admits inv t (afterDiscovery cfg pf chute mode (.ok ⟨200, body⟩))
      (fun result _ => (∃ taken, result = .ok taken) ↔
        ¬ RingStuck cfg w.clock w.state.selector instances chute mode) w := by
  simp only [afterDiscovery, receiveInstances, ne_eq, not_true_eq_false, ↓reduceIte, getState, ngxNow, listed, lua,
    modifyState, Routine.bind_eq, Routine.bind, Routine.pure_eq, Holds, takeFresh, setCache]
  refine Holds.bind (takeNonce_serves cfg pf (by simp; rfl) ?_ lists capacity) ?_
  · exact lt_add_of_pos_right w.clock positive
  · rintro (_ | taken) w' serves
    · simpa [Holds] using serves
    · simpa [Holds] using serves

/-- `get_nonce` waits for the instances at no other place. -/
theorem getNonce_waits {apiKey url key : Bytes}
    {k : Except Bytes Response → Prog (Except NonceError Taken)} {w w' : View proxy}
    (asked : Runs admits t (getNonce cfg pf chute apiKey mode) w (.waiting (.instances url key) k) w') :
    k = afterDiscovery cfg pf chute mode := by
  rcases Runs.bind asked with ⟨first, v, -, rest⟩ | ⟨e, same, -⟩ | ⟨r, k', same, waits⟩
  · cases first with
    | some taken => cases rest
    | none =>
        rcases Runs.bind rest with ⟨batch, v', fetched, -⟩ | ⟨e, same, -⟩ | ⟨r, k', same, waits⟩
        · rcases Runs.bind fetched with ⟨chute', u, -, fetched⟩ | ⟨e, same, -⟩ | ⟨r, k', same, -⟩
          · cases fetched
          · cases same
          · cases same
        · cases same
        · rcases Runs.bind waits with ⟨chute', u, -, fetched⟩ | ⟨e, same', -⟩ | ⟨r', k'', same', none'⟩
          · cases fetched
            cases same
            rfl
          · cases same'
          · cases text : pf.concatArg (some chute) with
            | ok => rw [text] at none'; cases none'
            | error => rw [text] at none'; cases none'
  · cases same
  · have quiet : Quiet (fun _ _ => True) (fun h => ∀ r, h ≠ .asked r) (takeNonce cfg pf chute mode) :=
      takeNonce_quiet (fun _ _ _ => trivial) cfg pf (fun _ _ => nofun) (fun _ _ => nofun) chute mode
    exact (quiet.waits waits r rfl).elim

end Take

/-- If the discovery call of `get_nonce` succeeds, with a positive nonce lifetime
    and an instance with an id and nonces, then a nonce is returned exactly when
    the ring is not stuck as the answer comes in. Whatever happened since the call
    was made is in `w₂`. -/
theorem getNonce_serves_iff (cfg : Config) (pf : Platform)
    {admits : View proxy → (r : Request) → r.Answer → Prop} {t : ℕ} {chute : Value}
    {apiKey mode url key : Bytes} {k : Except Bytes Response → Prog (Except NonceError Taken)}
    {w w₁ : View proxy}
    (asked : Runs admits t (getNonce cfg pf chute apiKey mode) w (.waiting (.instances url key) k) w₁)
    {w₂ : View proxy} {body : Bytes} {instances : List Instance} {lifetime : Rat}
    (listed : readInstances pf w₂.state.tables body = .ok (some (instances, lifetime)))
    (positive : 0 < lifetime) (lists : HasNonceLists instances) (capacity : HasCapacity instances)
    {o : Outcome proxy (Except NonceError Taken)} {w₃ : View proxy}
    (run : Runs admits t (k (.ok ⟨200, body⟩))
      (w₂.push t (.answered (.instances url key) (.ok ⟨200, body⟩))) o w₃) :
    (∃ taken, o = .finished (.ok taken)) ↔
      ¬ RingStuck cfg w₂.clock w₂.state.selector instances chute mode := by
  rw [getNonce_waits cfg pf asked] at run
  obtain ⟨result, rfl, serves⟩ := run.ends
    (afterDiscovery_serves (w := w₂.push t (.answered (.instances url key) (.ok ⟨200, body⟩))) cfg pf listed
      positive lists capacity)
  simpa using serves

/-! ## A ring that is stuck -/

/-- The selector states that picks, records and invalidations lead to. -/
inductive Reached (cfg : Config) (pf : Platform) : Selector.State → Prop
  | new : Reached cfg pf fun _ => none
  | pick {st} (now rolls instances chute mode) (before : Reached cfg pf st) :
      Reached cfg pf (pick cfg pf now rolls st instances chute mode).1
  | record {st} (now chute id ttft ok) (before : Reached cfg pf st) :
      Reached cfg pf (Selector.record cfg now st chute id ttft ok)
  | invalidate {st} (now chute id) (before : Reached cfg pf st) :
      Reached cfg pf (Selector.invalidate cfg now st chute id)

def instanceEntry (id : String) (nonces : List String) : Value :=
  .obj [(lit "instance_id", .str (lit id)), (lit "e2e_pubkey", .str (lit "key of " ++ lit id)),
    (lit "nonces", .arr (nonces.map fun nonce => .str (lit nonce)))]

/-- A document of a discovery that lists one instance without nonces and one with. -/
def twoInstances : Value :=
  .obj [(lit "instances", .arr [instanceEntry "a" [], instanceEntry "b" ["n1"]]),
    (lit "nonce_expires_in", .num 55)]

def samplePlatform : Platform where
  toRuntime := .ofDocuments [(lit "two", twoInstances)]
  halfPower _ := 1
  sha256 := id
  decodeBase64 := some

def sampleChute : Value := .str (lit "chute")

/-- The answers of a quiet outside. -/
def sampleAnswers : (r : Request) → r.Answer
  | .models _ _ | .instances _ _ | .evidence _ _ => .error (lit "timeout")
  | .random n => some (List.replicate n 0)
  | .roll => ⟨0, 0⟩
  | .build _ _ => .error (lit "encryption failed")
  | .connect => .error (lit "refused")
  | .invoke _ => .error (lit "timeout")
  | .readBody => none
  | .decryptResponse _ _ => .error (lit "decryption failed")
  | .streamStart _ => .noReader
  | .streamRest => false

def anything : View proxy → (r : Request) → r.Answer → Prop := fun _ _ _ => True

theorem sample_runs {β : Type} (p : Prog β) (w : View proxy) :
    Runs anything 0 p w (play (fun _ => sampleAnswers) 0 p w).1 (play (fun _ => sampleAnswers) 0 p w).2 :=
  play_runs (fun _ _ => trivial) 0 p w

def freshView (selector : Selector.State) : View proxy :=
  ⟨{ ProxyState.new with selector }, 0, []⟩

/-- The instances of the document, as they are read first. -/
def twoRead : List Instance :=
  [⟨some ⟨.str (lit "a"), none⟩, some (.str (lit "key of a")), some (.arr [])⟩,
    ⟨some ⟨.str (lit "b"), none⟩, some (.str (lit "key of b")), some (.arr [.str (lit "n1")])⟩]

theorem twoRead_listed : readInstances samplePlatform 0 (lit "two") = .ok (some (twoRead, 55)) := by
  rfl

theorem twoRead_lists : HasNonceLists twoRead := by
  intro inst mem v given
  simp only [twoRead, List.mem_cons, List.not_mem_nil, or_false] at mem
  rcases mem with rfl | rfl
  · exact ⟨[], (Option.some.inj given).symm⟩
  · exact ⟨[lit "n1"], (Option.some.inj given).symm⟩

theorem twoRead_capacity : HasCapacity twoRead :=
  ⟨_, List.mem_cons_of_mem _ List.mem_cons_self, rfl, by decide⟩

theorem new_chute_serves_iff :
    let request := Request.instances
      (defaultConfig.apiBase ++ lit "/e2e/instances/" ++ lit "chute") (lit "key")
    let w := (freshView fun _ => none).push 0 (.asked request)
    ∃ o w', Runs anything 0
        (afterDiscovery defaultConfig samplePlatform sampleChute (lit "balanced") (.ok ⟨200, lit "two"⟩))
        (w.push 0 (.answered request (.ok ⟨200, lit "two"⟩))) o w' ∧
      ((∃ taken, o = .finished (.ok taken)) ↔
        ¬ RingStuck defaultConfig w.clock w.state.selector twoRead sampleChute (lit "balanced")) := by
  intro request w
  have asked : Runs anything 0
      (getNonce defaultConfig samplePlatform sampleChute (lit "key") (lit "balanced"))
      (freshView fun _ => none) (.waiting request
        (afterDiscovery defaultConfig samplePlatform sampleChute (lit "balanced"))) w :=
    sample_runs _ _
  have run := sample_runs
    (afterDiscovery defaultConfig samplePlatform sampleChute (lit "balanced") (.ok ⟨200, lit "two"⟩))
    (w.push 0 (.answered request (.ok ⟨200, lit "two"⟩)))
  exact ⟨_, _, run, getNonce_serves_iff defaultConfig samplePlatform asked twoRead_listed (by decide)
    twoRead_lists twoRead_capacity run⟩

/-- A ring of one. -/
def ringOfOne : Config := { defaultConfig with balancedN := 1, balancedN_pos := by decide }

/-- The selector after a pick from a list in which only the instance `a` was. -/
def afterPick : Selector.State :=
  (pick ringOfOne samplePlatform 0 ⟨0, 0⟩ (fun _ => none)
    [⟨some ⟨.str (lit "a"), none⟩, none, some (.arr [.str (lit "n0")])⟩] sampleChute
    (lit "balanced")).1

def returnsNonce : Outcome proxy (Except NonceError Taken) → Bool
  | .finished (.ok _) => true
  | _ => false

/-- The instance in the ring is listed without nonces, so the other is not used. -/
theorem full_ring_hides_capacity :
    ¬ ∀ (cfg : Config) (pf : Platform) (t : ℕ) (chute : Value) (apiKey mode url key : Bytes)
      (k : Except Bytes Response → Prog (Except NonceError Taken)) (w w₁ w₂ : View proxy)
      (body : Bytes) (instances : List Instance) (lifetime : Rat)
      (o : Outcome proxy (Except NonceError Taken)) (w₃ : View proxy),
      Reached cfg pf w₂.state.selector →
      Runs anything t (getNonce cfg pf chute apiKey mode) w (.waiting (.instances url key) k) w₁ →
      readInstances pf w₂.state.tables body = .ok (some (instances, lifetime)) → 0 < lifetime →
      HasNonceLists instances → HasCapacity instances →
      Runs anything t (k (.ok ⟨200, body⟩))
        (w₂.push t (.answered (.instances url key) (.ok ⟨200, body⟩))) o w₃ →
      ∃ taken, o = .finished (.ok taken) := by
  intro always
  have asked : Runs anything 0
      (getNonce ringOfOne samplePlatform sampleChute (lit "key") (lit "balanced"))
      (freshView afterPick)
      (.waiting (.instances (ringOfOne.apiBase ++ lit "/e2e/instances/" ++ lit "chute") (lit "key"))
        (afterDiscovery ringOfOne samplePlatform sampleChute (lit "balanced"))) _ :=
    sample_runs _ _
  have run := sample_runs
    (afterDiscovery ringOfOne samplePlatform sampleChute (lit "balanced") (.ok ⟨200, lit "two"⟩))
    ((freshView afterPick).push 0 (.answered
      (.instances (ringOfOne.apiBase ++ lit "/e2e/instances/" ++ lit "chute") (lit "key"))
      (.ok ⟨200, lit "two"⟩)))
  obtain ⟨taken, same⟩ := always ringOfOne samplePlatform 0 sampleChute (lit "key") (lit "balanced")
    _ _ _ _ _ (freshView afterPick) (lit "two") twoRead 55 _ _ (.pick _ _ _ _ _ .new) asked
    twoRead_listed (by decide) twoRead_lists twoRead_capacity run
  have none' : returnsNonce (play (fun _ => sampleAnswers) 0
      (afterDiscovery ringOfOne samplePlatform sampleChute (lit "balanced") (.ok ⟨200, lit "two"⟩))
      ((freshView afterPick).push 0 (.answered
        (.instances (ringOfOne.apiBase ++ lit "/e2e/instances/" ++ lit "chute") (lit "key"))
        (.ok ⟨200, lit "two"⟩)))).1 = false := by decide +kernel
  rw [same] at none'
  cases none'

end E2eeProxy.Discovery
