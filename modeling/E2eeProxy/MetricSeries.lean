import E2eeProxy.Lib.Table
import E2eeProxy.Metrics

/-! # The registry of metrics

metrics.lua keeps the series of a metric by the text of their labels. What it holds for
a label set is what the calls with this set alone have made of it.
-/

namespace E2eeProxy.Metrics

open Lua Lib

inductive Kind where
  | counter
  | gauge
  | histogram
  deriving DecidableEq

/-- The fields of a series. Lua's numbers are a parameter, counts apart. -/
inductive Series (N : Type) where
  | single (value : N)
  | histogram (counts : List Nat) (sum : N) (count : Nat)
  deriving DecidableEq

structure Metric (N : Type) where
  kind : Kind
  buckets : List N
  /-- `series`, in the order of `series_order`. -/
  series : List (Bytes × Series N)

abbrev Registry (N : Type) := List (Bytes × Metric N)

section Registry

variable {N : Type} [Zero N] [One N] [Add N] [LE N] [DecidableLE N]

def fresh (kind : Kind) (buckets : List N) : Series N :=
  match kind with
  | .histogram => .histogram (buckets.map fun _ => 0) 0 0
  | .counter | .gauge => .single 0

def Series.add (delta : N) : Series N → Series N
  | .single value => .single (value + delta)
  | s => s

def Series.observe (buckets : List N) (value : N) : Series N → Series N
  | .histogram counts sum count =>
      .histogram (buckets.zipWith (fun b n => if value ≤ b then n + 1 else n) counts) (sum + value)
        (count + 1)
  | s => s

/-- Finds or makes the series of these labels, if the metric is of a kind that is allowed,
    and writes to it. -/
def update (allows : Kind → Bool) (write : List N → Series N → Series N) (name : Bytes)
    (labels : Option Labels) (registry : Registry N) : Registry N :=
  match registry.lookup name with
  | none => registry
  | some m =>
      if allows m.kind then
        let key := labelKey labels
        let s := (m.series.lookup key).getD (fresh m.kind m.buckets)
        setEntry name { m with series := setEntry key (write m.buckets s) m.series } registry
      else registry

def isSingle (kind : Kind) : Bool := kind = .counter ∨ kind = .gauge

def inc (name : Bytes) (labels : Option Labels) (delta : Option N) : Registry N → Registry N :=
  update isSingle (fun _ s => s.add (delta.getD 1)) name labels

def set (name : Bytes) (labels : Option Labels) (value : N) : Registry N → Registry N :=
  update isSingle (fun _ _ => .single value) name labels

/-- What is not a number is `none`. -/
def observe (name : Bytes) (labels : Option Labels) (value : Option N) : Registry N → Registry N :=
  match value with
  | none => id
  | some value => update (· = .histogram) (fun buckets s => s.observe buckets value) name labels

inductive Call (N : Type) where
  | inc (name : Bytes) (labels : Option Labels) (delta : Option N)
  | set (name : Bytes) (labels : Option Labels) (value : N)
  | observe (name : Bytes) (labels : Option Labels) (value : Option N)

namespace Call

def name : Call N → Bytes
  | .inc name _ _ | .set name _ _ | .observe name _ _ => name

def labels : Call N → Option Labels
  | .inc _ labels _ | .set _ labels _ | .observe _ labels _ => labels

def run (registry : Registry N) : Call N → Registry N
  | .inc name labels delta => Metrics.inc name labels delta registry
  | .set name labels value => Metrics.set name labels value registry
  | .observe name labels value => Metrics.observe name labels value registry

end Call

/-! ## What is held for a label set -/

structure Account (N : Type) where
  kind : Kind
  buckets : List N
  series : Option (Series N)
  deriving DecidableEq

def account (name : Bytes) (labels : Option Labels) (registry : Registry N) : Option (Account N) :=
  (registry.lookup name).map fun m => ⟨m.kind, m.buckets, m.series.lookup (labelKey labels)⟩

def Account.update (allows : Kind → Bool) (write : List N → Series N → Series N) (a : Account N) :
    Account N :=
  if allows a.kind then
    { a with series := some (write a.buckets (a.series.getD (fresh a.kind a.buckets))) }
  else a

/-- What a call does to the label set it is for. -/
def Call.effect : Call N → Account N → Account N
  | .inc _ _ delta => Account.update isSingle fun _ s => s.add (delta.getD 1)
  | .set _ _ value => Account.update isSingle fun _ _ => .single value
  | .observe _ _ none => id
  | .observe _ _ (some value) =>
      Account.update (· = .histogram) fun buckets s => s.observe buckets value

/-- The labels are the same, in whatever order. -/
def SameLabels (a b : Option Labels) : Prop := (labelSet a).entries.Perm (labelSet b).entries

instance (a b : Option Labels) : Decidable (SameLabels a b) :=
  inferInstanceAs (Decidable (List.Perm _ _))

def Call.Concerns (name : Bytes) (labels : Option Labels) (call : Call N) : Prop :=
  call.name = name ∧ SameLabels call.labels labels

instance (name : Bytes) (labels : Option Labels) (call : Call N) :
    Decidable (call.Concerns name labels) := inferInstanceAs (Decidable (_ ∧ _))

def Named (labels : Option Labels) : Prop := ∀ p ∈ (labelSet labels).entries, IsName p.1

variable {registry : Registry N} {name name' : Bytes} {labels labels' : Option Labels}

theorem lookup_written {ν : Type} (k l : Bytes) (v : ν) (t : List (Bytes × ν)) :
    (setEntry k v t).lookup l = if l = k then some v else t.lookup l := by
  rw [lookup_lawful l (setEntry k v t), lookup_lawful l t]
  exact lookup_setEntry k l v t

omit [Zero N] [One N] [Add N] [LE N] [DecidableLE N] in
theorem account_setEntry (m : Metric N) :
    account name labels (setEntry name' m registry) =
      if name = name' then some ⟨m.kind, m.buckets, m.series.lookup (labelKey labels)⟩
      else account name labels registry := by
  unfold account
  rw [lookup_written]
  split <;> rfl

omit [One N] [Add N] [LE N] [DecidableLE N] in
/-- A write changes what is held for the labels of its key, if the metric is of that kind. -/
theorem account_update (allows : Kind → Bool) (write : List N → Series N → Series N) :
    account name labels (update allows write name' labels' registry) =
      if name = name' ∧ labelKey labels = labelKey labels' then
        (account name labels registry).map (Account.update allows write)
      else account name labels registry := by
  have held : account name' labels registry = (registry.lookup name').map fun m =>
      ⟨m.kind, m.buckets, m.series.lookup (labelKey labels)⟩ := rfl
  unfold update
  split
  · rename_i absent
    rw [absent] at held
    split
    · rename_i here
      rw [here.1, held]
      rfl
    · rfl
  · rename_i m found
    rw [found] at held
    by_cases allowed : allows m.kind
    · rw [if_pos allowed, account_setEntry]
      by_cases here : name = name'
      · subst here
        rw [held, if_pos rfl, lookup_written]
        by_cases same : labelKey labels = labelKey labels'
        · simp [same, Account.update, allowed]
        · simp [same]
      · rw [if_neg here, if_neg fun both => here both.1]
    · rw [if_neg allowed]
      split
      · rename_i here
        rw [here.1, held]
        simp [Account.update, allowed]
      · rfl

theorem labelKey_eq_iff_sameLabels {a b : Option Labels} (namedA : Named a) (namedB : Named b) :
    labelKey a = labelKey b ↔ SameLabels b a :=
  (labelKey_eq_iff namedA namedB).trans (perm_iff.symm.trans List.perm_comm)

/-- A call is one write, or none. -/
theorem run_cases (call : Call N) :
    (call.effect = id ∧ ∀ registry, call.run registry = registry) ∨
      ∃ allows write, call.effect = Account.update allows write ∧
        ∀ registry, call.run registry = update allows write call.name call.labels registry := by
  cases call with
  | inc _ _ delta => exact .inr ⟨isSingle, fun _ s => s.add (delta.getD 1), rfl, fun _ => rfl⟩
  | set _ _ value => exact .inr ⟨isSingle, fun _ _ => .single value, rfl, fun _ => rfl⟩
  | observe _ _ value =>
      cases value with
      | none => exact .inl ⟨rfl, fun _ => rfl⟩
      | some value =>
          exact .inr ⟨(· = .histogram), fun buckets s => s.observe buckets value, rfl, fun _ => rfl⟩

theorem account_run (call : Call N) (named : Named labels) (callNamed : Named call.labels) :
    account name labels (call.run registry) =
      if call.Concerns name labels then (account name labels registry).map call.effect
      else account name labels registry := by
  have concerns : call.Concerns name labels ↔
      name = call.name ∧ labelKey labels = labelKey call.labels := by
    rw [Call.Concerns, labelKey_eq_iff_sameLabels named callNamed, eq_comm]
  simp only [concerns]
  rcases run_cases call with ⟨effect, run⟩ | ⟨allows, write, effect, run⟩
  · rw [effect, run, Option.map_id, id, ite_self]
  · rw [effect, run]
    exact account_update allows write

/-- What is held for a label set is what the calls for this set, in their order, have made
    of it. -/
theorem account_runs (calls : List (Call N)) (named : Named labels)
    (callsNamed : ∀ call ∈ calls, Named call.labels) :
    account name labels (calls.foldl Call.run registry) =
      (account name labels registry).map fun a =>
        (calls.filter fun call => call.Concerns name labels).foldl (fun a call => call.effect a) a := by
  induction calls generalizing registry with
  | nil => simp
  | cons call calls ih =>
      obtain ⟨callNamed, restNamed⟩ := List.forall_mem_cons.mp callsNamed
      rw [List.foldl_cons, ih restNamed, account_run call named callNamed]
      by_cases concerns : call.Concerns name labels
      · rw [if_pos concerns, List.filter_cons_of_pos (by simpa using concerns), Option.map_map]
        rfl
      · rw [if_neg concerns, List.filter_cons_of_neg (by simpa using concerns)]

/-! ## One series for a key -/

/-- No two series of a metric have one key. -/
def Distinct (registry : Registry N) : Prop := ∀ e ∈ registry, (e.2.series.map Prod.fst).Nodup

omit [One N] [Add N] [LE N] [DecidableLE N] in
theorem Distinct.update (distinct : Distinct registry) (allows : Kind → Bool)
    (write : List N → Series N → Series N) :
    Distinct (Metrics.update allows write name labels registry) := by
  unfold Metrics.update
  split
  · exact distinct
  · rename_i m found
    split
    · intro e mem
      rcases setEntry_mem mem with rfl | old
      · rw [lookup_lawful] at found
        exact setEntry_nodup _ _ (distinct _ (mem_of_lookup_eq_some found))
      · exact distinct e old
    · exact distinct

theorem Distinct.run (distinct : Distinct registry) (call : Call N) : Distinct (call.run registry) := by
  rcases run_cases call with ⟨-, run⟩ | ⟨allows, write, -, run⟩
  · rwa [run]
  · rw [run]
    exact distinct.update allows write

theorem Distinct.runs (distinct : Distinct registry) (calls : List (Call N)) :
    Distinct (calls.foldl Call.run registry) := by
  induction calls generalizing registry with
  | nil => exact distinct
  | cons call calls ih => exact ih (distinct.run call)

end Registry

/-- A forged label value has a series of its own. -/
example :
    account (lit "e2ee_requests_total") (some Sample.plain)
      ([.inc (lit "e2ee_requests_total") (some Sample.plain) none,
        .inc (lit "e2ee_requests_total") (some Sample.forged) (some 5)].foldl Call.run
          [(lit "e2ee_requests_total", ⟨.counter, [], []⟩)]) =
      some (⟨.counter, [], some (.single 1)⟩ : Account Nat) := by decide

end E2eeProxy.Metrics
