import Mathlib.Data.List.Chain
import Mathlib.Data.List.Forall2
import Mathlib.Data.List.Perm.Basic
import Mathlib.Tactic.Common

/-! # Questions and the replies to them

A turn may ask several questions, and the turn after it holds the replies. When
turns are taken apart into messages every reply becomes a message of its own; the
replies still stand right behind the message that asks.
-/

namespace E2eeProxy.Lib

variable {α β κ : Type*}

/-- A turn that asks is followed at once by a turn with one reply to each question. -/
def Paired (asks replies : α → List κ) (turns : List α) : Prop :=
  ∀ before x after, turns = before ++ x :: after → asks x ≠ [] →
    ∃ y rest, after = y :: rest ∧ (replies y).Perm (asks x)

/-- Of two turns in a row the second replies only if the first asks. -/
def Prompted (asks replies : α → List κ) (turns : List α) : Prop :=
  turns.IsChain fun x y => replies y ≠ [] → asks x ≠ []

/-- The messages are replies, one to each question of `q`. -/
def Replies (asks : β → List κ) (reply : β → Option κ) (q : β) (messages : List β) : Prop :=
  ∃ ids : List κ, messages.map reply = ids.map some ∧ ids.Perm (asks q)

/-- A message that asks is followed at once by one reply to each question. -/
def Answered (asks : β → List κ) (reply : β → Option κ) (messages : List β) : Prop :=
  ∀ before q after, messages = before ++ q :: after → asks q ≠ [] →
    ∃ replies rest, after = replies ++ rest ∧ Replies asks reply q replies

/-- And no further reply follows these. -/
def AnsweredOnce (asks : β → List κ) (reply : β → Option κ) (messages : List β) : Prop :=
  ∀ before q after, messages = before ++ q :: after → asks q ≠ [] →
    ∃ replies rest, after = replies ++ rest ∧ Replies asks reply q replies ∧
      ∀ m ∈ rest.head?, reply m = none

theorem paired_nil {asks replies : α → List κ} : Paired asks replies [] := by
  intro before x after split
  simp at split

theorem Paired.cons {asks replies : α → List κ} {x : α} {turns : List α}
    (paired : Paired asks replies turns)
    (next : asks x ≠ [] → ∃ y rest, turns = y :: rest ∧ (replies y).Perm (asks x)) :
    Paired asks replies (x :: turns) := by
  intro before z after split asking
  cases before with
  | nil =>
      obtain ⟨rfl, rfl⟩ := List.cons.inj split
      exact next asking
  | cons w before =>
      exact paired before z after (List.cons.inj split).2 asking

/-- Messages that ask nothing may stand in front. -/
theorem split_behind {asks : β → List κ} {front messages before after : List β} {q : β}
    (silent : ∀ m ∈ front, asks m = []) (split : front ++ messages = before ++ q :: after)
    (asking : asks q ≠ []) : ∃ before', messages = before' ++ q :: after := by
  rcases List.append_eq_append_iff.mp split with ⟨middle, rfl, rest⟩ | ⟨middle, rfl, rest⟩
  · exact ⟨middle, rest⟩
  · cases middle with
    | nil => exact ⟨[], rest.symm⟩
    | cons m middle =>
        obtain ⟨rfl, -⟩ := List.cons.inj rest
        exact absurd (silent q (by simp)) asking

theorem Answered.append {asks : β → List κ} {reply : β → Option κ} {front messages : List β}
    (answered : Answered asks reply messages) (silent : ∀ m ∈ front, asks m = []) :
    Answered asks reply (front ++ messages) := by
  intro before q after split asking
  obtain ⟨before', split⟩ := split_behind silent split asking
  exact answered before' q after split asking

theorem AnsweredOnce.append {asks : β → List κ} {reply : β → Option κ} {front messages : List β}
    (answered : AnsweredOnce asks reply messages) (silent : ∀ m ∈ front, asks m = []) :
    AnsweredOnce asks reply (front ++ messages) := by
  intro before q after split asking
  obtain ⟨before', split⟩ := split_behind silent split asking
  exact answered before' q after split asking

section Fan

variable (asks replies : α → List κ) (asks' : β → List κ) (reply : β → Option κ)

/-- The messages a turn is taken apart into. -/
inductive Fan : α → List β → Prop where
  /-- The one message of a turn that does not reply. -/
  | asking {x m} : replies x = [] → asks' m = asks x → reply m = none → Fan x [m]
  /-- The replies of a turn that does not ask, before anything else it says. -/
  | replying {x answers own} : asks x = [] → answers.map reply = (replies x).map some →
      (∀ m ∈ answers ++ own, asks' m = []) → (∀ m ∈ own, reply m = none) → Fan x (answers ++ own)

variable {asks replies asks' reply}

theorem Fan.replies_eq {x : α} {chunk : List β} (fan : Fan asks replies asks' reply x chunk) :
    chunk.filterMap reply = replies x := by
  cases fan with
  | asking silent _ quiet => simp [quiet, silent]
  | @replying answers own _ same _ quiet =>
      have own : own.filterMap reply = [] := List.filterMap_eq_nil_iff.mpr quiet
      have answers : answers.filterMap reply = replies x := by
        have mapped := congrArg (List.filterMap id) same
        simpa [List.filterMap_map] using mapped
      rw [List.filterMap_append, answers, own, List.append_nil]

/-- The replies are sent in the order in which the turns hold them. -/
theorem fans_replies {turns : List α} {chunks : List (List β)}
    (fans : List.Forall₂ (Fan asks replies asks' reply) turns chunks) :
    chunks.flatten.filterMap reply = turns.flatMap replies := by
  induction fans with
  | nil => rfl
  | cons head _ ih =>
      rw [List.flatten_cons, List.filterMap_append, head.replies_eq, ih, List.flatMap_cons]

/-- A message that asks is the last one of its turn. -/
theorem fans_question {turns : List α} {chunks : List (List β)}
    (fans : List.Forall₂ (Fan asks replies asks' reply) turns chunks) {before after : List β} {q : β}
    (split : chunks.flatten = before ++ q :: after) (asking : asks' q ≠ []) :
    ∃ earlier x later laterChunks, turns = earlier ++ x :: later ∧ asks x = asks' q ∧
      List.Forall₂ (Fan asks replies asks' reply) later laterChunks ∧ after = laterChunks.flatten := by
  induction fans generalizing before with
  | nil => simp at split
  | @cons x chunk turns chunks head tail ih =>
      rw [List.flatten_cons] at split
      rcases List.append_eq_append_iff.mp split with ⟨middle, rfl, rest⟩ | ⟨middle, inside, rest⟩
      · obtain ⟨earlier, y, later, laterChunks, rfl, found⟩ := ih rest
        exact ⟨x :: earlier, y, later, laterChunks, rfl, found⟩
      · cases middle with
        | nil =>
            have here : chunks.flatten = [] ++ q :: after := rest.symm
            obtain ⟨earlier, y, later, laterChunks, rfl, found⟩ := ih here
            exact ⟨x :: earlier, y, later, laterChunks, rfl, found⟩
        | cons m middle =>
            obtain ⟨rfl, rest⟩ := List.cons.inj rest
            cases head with
            | asking _ same _ =>
                -- The chunk is the question alone.
                rcases List.singleton_eq_append_iff.mp inside with ⟨rfl, alone⟩ | ⟨_, wrong⟩
                · obtain ⟨rfl, rfl⟩ := List.cons.inj alone
                  exact ⟨[], x, turns, chunks, rfl, same.symm, tail, (List.cons.inj rest).2⟩
                · cases wrong
            | replying _ _ silent _ =>
                have mem : q ∈ before ++ q :: middle := by simp
                exact absurd (silent q (inside ▸ mem)) asking

/-- The messages of the turn behind a question begin with the replies to it. -/
theorem Fan.replies_first {y : α} {chunk : List β} {q : β} (fan : Fan asks replies asks' reply y chunk)
    (paired : (replies y).Perm (asks' q)) (asking : asks' q ≠ []) :
    ∃ answers own, chunk = answers ++ own ∧ Replies asks' reply q answers ∧ asks y = [] ∧
      ∀ m ∈ own, reply m = none := by
  cases fan with
  | asking silent _ _ =>
      rw [silent] at paired
      exact absurd paired.nil_eq.symm asking
  | @replying answers own asksNothing same _ quiet =>
      exact ⟨answers, own, rfl, ⟨replies y, same, paired⟩, asksNothing, quiet⟩

/-- Behind a turn that does not ask the first message is no reply. -/
theorem fans_quiet {turns : List α} {chunks : List (List β)}
    (fans : List.Forall₂ (Fan asks replies asks' reply) turns chunks) {y : α} (silent : asks y = [])
    (prompted : Prompted asks replies (y :: turns)) : ∀ m ∈ chunks.flatten.head?, reply m = none := by
  induction fans generalizing y with
  | nil => simp
  | @cons x chunk turns chunks head tail ih =>
      obtain ⟨here, prompted⟩ := List.isChain_cons_cons.mp prompted
      cases head with
      | asking _ _ quiet => simpa using quiet
      | @replying answers own asksNothing same _ quiet =>
          have none : replies x = [] := by
            by_contra some
            exact here some silent
          rw [none, List.map_nil, List.map_eq_nil_iff] at same
          subst same
          cases own with
          | nil => exact ih asksNothing prompted
          | cons m own => simpa using quiet m (by simp)

/-- Replies stay behind the question they answer, with nothing in between. -/
theorem answered_flatten {turns : List α} {chunks : List (List β)}
    (fans : List.Forall₂ (Fan asks replies asks' reply) turns chunks)
    (paired : Paired asks replies turns) : Answered asks' reply chunks.flatten := by
  intro before q after split asking
  obtain ⟨earlier, x, later, laterChunks, rfl, same, laterFans, rfl⟩ := fans_question fans split asking
  obtain ⟨y, rest, rfl, perm⟩ := paired earlier x later rfl (same ▸ asking)
  cases laterFans with
  | @cons _ chunk _ chunks fan _ =>
      obtain ⟨answers, own, rfl, replied, _⟩ := fan.replies_first (same ▸ perm) asking
      exact ⟨answers, own ++ chunks.flatten, by simp, replied⟩

theorem answeredOnce_flatten {turns : List α} {chunks : List (List β)}
    (fans : List.Forall₂ (Fan asks replies asks' reply) turns chunks)
    (paired : Paired asks replies turns) (prompted : Prompted asks replies turns) :
    AnsweredOnce asks' reply chunks.flatten := by
  intro before q after split asking
  obtain ⟨earlier, x, later, laterChunks, rfl, same, laterFans, rfl⟩ := fans_question fans split asking
  obtain ⟨y, rest, rfl, perm⟩ := paired earlier x later rfl (same ▸ asking)
  cases laterFans with
  | @cons _ chunk _ chunks fan restFans =>
      obtain ⟨answers, own, rfl, replied, silent, quiet⟩ := fan.replies_first (same ▸ perm) asking
      refine ⟨answers, own ++ chunks.flatten, by simp, replied, ?_⟩
      cases own with
      | nil =>
          have behind : Prompted asks replies (y :: rest) :=
            (List.IsChain.right_of_append prompted).tail
          exact fans_quiet restFans silent behind
      | cons m own => simpa using quiet m (by simp)

end Fan

end E2eeProxy.Lib
