import E2eeProxy.Blob

/-! # Responses of several gzip members

A gzip file is one or more members one after the other. The buffer for a response
has the size that the last of them tells, and what is written to it is the first.
-/

namespace E2eeProxy.Crypto

open Lua

section File

variable (suite : Suite) (IsMember : Bytes → Bytes → Prop)

/-- What the format and zlib are relied on for: a member ends with the length of its
    content, and inflating stops where the first member ends. -/
structure GzipLaws : Prop where
  trailer : ∀ m content, IsMember m content →
    ∃ front, 14 ≤ front.length ∧ m = front ++ le32 content.length
  inflates : ∀ m content rest, IsMember m content → suite.inflate (m ++ rest) = some content
  opens : ∀ key nonce ciphertext tag plaintext,
    suite.chacha20Open key nonce ciphertext tag = some plaintext →
    plaintext.length = ciphertext.length

/-- Members with their contents, as a file. -/
def fileBytes (members : List (Bytes × Bytes)) : Bytes := members.flatMap Prod.fst

def fileContent (members : List (Bytes × Bytes)) : Bytes := members.flatMap Prod.snd

/-- `ISIZE` of the last member. -/
def lastIsize (members : List (Bytes × Bytes)) : Nat :=
  (members.getLast?.map fun member => member.2.length % 2 ^ 32).getD 0

/-- The blob opens to this plain text. -/
def Authentic (blob sk plaintext : Bytes) : Prop :=
  mlkemCtSize + nonceSize + tagSize ≤ blob.length ∧
    ∃ ss key, suite.mlkemDecapsulate sk (blob.take mlkemCtSize) = some ss ∧
      suite.hkdfSha256 ss ((blob.take mlkemCtSize).take 16) infoResp = some key ∧
      suite.chacha20Open key ((blob.drop mlkemCtSize).take nonceSize)
        ((blob.take (blob.length - tagSize)).drop (mlkemCtSize + nonceSize))
        (blob.drop (blob.length - tagSize)) = some plaintext

/-- What is returned is all of the content. -/
def AllOrNothing (blob sk content : Bytes) : Prop :=
  ∀ text, decryptResponse suite blob sk = .ok (.ok text) → text = content

end File

theorem le32_mod (n : Nat) : le32 (n % 2 ^ 32) = le32 n := by
  unfold le32
  simp only [List.cons.injEq, ← UInt8.toNat_inj, UInt8.toNat_ofNat', and_true]
  omega

section Unzip

variable {suite : Suite} {IsMember : Bytes → Bytes → Prop} (laws : GzipLaws suite IsMember)
  {first : Bytes × Bytes} {more : List (Bytes × Bytes)}

/-- Unzipping returns what is decompressed, unless that is nothing. -/
theorem unzip_ok_iff {plaintext text : Bytes} {ctLen isize : Nat}
    (read : gzipIsize plaintext ctLen = some isize) :
    unzip suite plaintext ctLen = .ok (.ok text) ↔
      isize ≠ 0 ∧ isize + 1 < 2 ^ 31 ∧ gzipDecompress suite plaintext (isize + 1) ≠ [] ∧
        text = gzipDecompress suite plaintext (isize + 1) := by
  rw [unzip, read]
  by_cases zero : isize = 0
  · subst zero
    constructor
    · intro returned
      cases returned
    · exact fun fits => absurd rfl fits.1
  · rw [Option.filter_some, if_pos (decide_eq_true zero)]
    dsimp only
    by_cases buffer : isize + 1 < 2 ^ 31
    · rw [newBuffer_ok buffer]
      dsimp only [bind, Except.bind, pure, Except.pure]
      by_cases empty : gzipDecompress suite plaintext (isize + 1) = []
      · rw [if_pos empty]
        constructor
        · intro returned
          cases returned
        · exact fun fits => absurd empty fits.2.2.1
      · rw [if_neg empty]
        constructor
        · intro returned
          cases returned
          exact ⟨zero, buffer, empty, rfl⟩
        · rintro ⟨-, -, -, rfl⟩
          rfl
    · rw [newBuffer, if_neg buffer]
      constructor
      · intro returned
        cases returned
      · exact fun fits => absurd fits.2.1 buffer

include laws

theorem gzipIsize_file {members : List (Bytes × Bytes)} (some' : members ≠ [])
    (each : ∀ member ∈ members, IsMember member.1 member.2) :
    gzipIsize (fileBytes members) (fileBytes members).length = some (lastIsize members) := by
  have split := List.dropLast_append_getLast some'
  have isLast := each _ (List.getLast_mem some')
  have isize : lastIsize members = (members.getLast some').2.length % 2 ^ 32 := by
    rw [lastIsize, List.getLast?_eq_some_getLast some', Option.map_some, Option.getD_some]
  generalize members.getLast some' = last at *
  obtain ⟨front, long, same⟩ := laws.trailer _ _ isLast
  have bytes : fileBytes members =
      (fileBytes members.dropLast ++ front) ++ le32 (last.2.length % 2 ^ 32) := by
    rw [le32_mod, List.append_assoc, ← same]
    conv_lhs => rw [← split]
    simp [fileBytes]
  have long' : 14 ≤ (fileBytes members.dropLast ++ front).length := by
    rw [List.length_append]
    omega
  rw [isize, bytes]
  exact isize_le32 long' (Nat.mod_lt _ (by decide))

/-- The first member is decompressed if there is room for it. -/
theorem gzipDecompress_file (isMember : IsMember first.1 first.2) {outMax : Nat} :
    gzipDecompress suite (fileBytes (first :: more)) outMax =
      if outMax = 0 ∨ uintMax < (fileBytes (first :: more)).length ∨ uintMax < outMax ∨
        outMax < first.2.length then [] else first.2 := by
  obtain ⟨front, long, same⟩ := laws.trailer _ _ isMember
  have some' : fileBytes (first :: more) ≠ [] := by
    intro none
    have length := congrArg List.length none
    simp only [fileBytes, List.flatMap_cons, same, List.length_append, List.length_nil] at length
    omega
  have inflated : suite.inflate (fileBytes (first :: more)) = some first.2 :=
    laws.inflates _ _ _ isMember
  rw [gzipDecompress, inflated]
  simp only [some', false_or]
  by_cases bad : outMax = 0 ∨ uintMax < (fileBytes (first :: more)).length ∨ uintMax < outMax
  · rw [if_pos bad, if_pos (by tauto)]
  · rw [if_neg bad]
    by_cases room : first.2.length ≤ outMax
    · rw [if_pos room, if_neg (by omega)]
    · rw [if_neg room, if_pos (by omega)]

/-- What is unzipped is the first member, where its length fits the last. -/
theorem unzip_iff (each : ∀ member ∈ first :: more, IsMember member.1 member.2) {text : Bytes}
    (small : (fileBytes (first :: more)).length < 2 ^ 31) :
    unzip suite (fileBytes (first :: more)) (fileBytes (first :: more)).length = .ok (.ok text) ↔
      lastIsize (first :: more) ≠ 0 ∧ lastIsize (first :: more) + 1 < 2 ^ 31 ∧ first.2 ≠ [] ∧
        first.2.length ≤ lastIsize (first :: more) + 1 ∧ text = first.2 := by
  rw [unzip_ok_iff (gzipIsize_file laws (List.cons_ne_nil _ _) each),
    gzipDecompress_file laws (List.forall_mem_cons.mp each).1]
  generalize lastIsize (first :: more) = isize
  constructor
  · rintro ⟨zero, buffer, some', same⟩
    split at some'
    · exact absurd rfl some'
    · rename_i fits
      rw [if_neg fits] at same
      exact ⟨zero, buffer, some', by omega, same⟩
  · rintro ⟨zero, buffer, some', room, same⟩
    have fits : ¬ (isize + 1 = 0 ∨ uintMax < (fileBytes (first :: more)).length ∨
        uintMax < isize + 1 ∨ isize + 1 < first.2.length) := by
      unfold uintMax
      omega
    rw [if_neg fits]
    exact ⟨zero, buffer, some', same⟩

/-- What a response is decrypted to. -/
theorem decryptResponse_iff (each : ∀ member ∈ first :: more, IsMember member.1 member.2)
    {blob sk text : Bytes} (authentic : Authentic suite blob sk (fileBytes (first :: more))) :
    decryptResponse suite blob sk = .ok (.ok text) ↔
      (fileBytes (first :: more)).length < 2 ^ 31 ∧ lastIsize (first :: more) ≠ 0 ∧
        lastIsize (first :: more) + 1 < 2 ^ 31 ∧ first.2 ≠ [] ∧
        first.2.length ≤ lastIsize (first :: more) + 1 ∧ text = first.2 := by
  obtain ⟨long, ss, key, decapsulated, derived, opened⟩ := authentic
  have same := laws.opens _ _ _ _ _ opened
  have opens : decryptResponse suite blob sk =
      (newBuffer (max (fileBytes (first :: more)).length 1) >>= fun _ =>
        unzip suite (fileBytes (first :: more)) (fileBytes (first :: more)).length) := by
    rw [decryptResponse, if_neg (not_lt.mpr long)]
    dsimp only
    rw [decapsulated]
    dsimp only
    rw [deriveKey, derived]
    dsimp only
    rw [opened, same]
  rw [opens]
  by_cases buffer : (fileBytes (first :: more)).length < 2 ^ 31
  · rw [newBuffer_ok (show max (fileBytes (first :: more)).length 1 < 2 ^ 31 by omega)]
    dsimp only [bind, Except.bind]
    rw [unzip_iff laws each buffer]
    exact (and_iff_right buffer).symm
  · rw [newBuffer, if_neg (by omega)]
    constructor
    · intro returned
      cases returned
    · exact fun fits => absurd fits.1 buffer

end Unzip

/-- With a file of gzip members: what is returned is all of it exactly if there is one
    member only, or nothing is returned at all. -/
theorem all_or_nothing_iff {suite : Suite} {IsMember : Bytes → Bytes → Prop}
    (laws : GzipLaws suite IsMember) {first : Bytes × Bytes} {more : List (Bytes × Bytes)}
    (each : ∀ member ∈ first :: more, IsMember member.1 member.2) {blob sk : Bytes}
    (authentic : Authentic suite blob sk (fileBytes (first :: more))) :
    AllOrNothing suite blob sk (fileContent (first :: more)) ↔
      more = [] ∨ lastIsize (first :: more) = 0 ∨ 2 ^ 31 ≤ lastIsize (first :: more) + 1 ∨
        2 ^ 31 ≤ (fileBytes (first :: more)).length ∨ first.2 = [] ∨
        lastIsize (first :: more) + 1 < first.2.length := by
  constructor
  · intro whole
    by_contra several
    simp only [not_or, not_le, not_lt] at several
    obtain ⟨some', filled, room, buffer, content, fits⟩ := several
    have returned := (decryptResponse_iff laws each authentic).mpr
      ⟨buffer, filled, room, content, fits, rfl⟩
    have same := whole first.2 returned
    have none : fileContent more = [] := by
      rw [fileContent, List.flatMap_cons] at same
      exact List.self_eq_append_right.mp same
    -- So the last member is empty.
    have last := List.getLast_mem some'
    have empty : (more.getLast some').2 = [] := List.flatMap_eq_nil_iff.mp none _ last
    apply filled
    rw [lastIsize, List.getLast?_cons, List.getLast?_eq_some_getLast some', Option.map_some,
      Option.getD_some, Option.getD_some, empty]
    rfl
  · intro fits text returned
    obtain ⟨buffer, filled, room, content, length, rfl⟩ :=
      (decryptResponse_iff laws each authentic).mp returned
    rcases fits with rfl | zero | large | large | empty | longer
    · rw [fileContent, List.flatMap_cons, List.flatMap_nil, List.append_nil]
    · exact absurd zero filled
    · omega
    · omega
    · exact absurd empty content
    · omega

namespace Sample

/-- The text `a` as a gzip member with one stored block. -/
def member : Bytes :=
  [31, 139, 8, 0, 0, 0, 0, 0, 0, 3, 1, 1, 0, 254, 255, 97, 67, 190, 183, 232, 1, 0, 0, 0]

def memberSuite : Suite :=
  { suite with inflate := fun zipped => if member <+: zipped then some (lit "a") else none }

def IsMember (m content : Bytes) : Prop := m = member ∧ content = lit "a"

theorem gzipLaws : GzipLaws memberSuite IsMember where
  trailer m content isMember := by
    obtain ⟨rfl, rfl⟩ := isMember
    exact ⟨member.take 20, by decide, by decide⟩
  inflates m content rest isMember := by
    obtain ⟨rfl, rfl⟩ := isMember
    simp [memberSuite]
  opens key nonce ciphertext tag plaintext opened := by
    cases opened
    rfl

/-- A response with `count` members. -/
def members (count : Nat) : List (Bytes × Bytes) := List.replicate count (member, lit "a")

def membersBlob (count : Nat) : Bytes :=
  List.replicate mlkemCtSize 0 ++ List.replicate nonceSize 0 ++ fileBytes (members count) ++
    List.replicate tagSize 3

theorem members_each (count : Nat) : ∀ each ∈ members count, IsMember each.1 each.2 := by
  intro each mem
  rw [List.eq_of_mem_replicate mem]
  exact ⟨rfl, rfl⟩

theorem members_authentic (count : Nat) :
    Authentic memberSuite (membersBlob count) [] (fileBytes (members count)) := by
  have length : (membersBlob count).length - tagSize =
      mlkemCtSize + nonceSize + (fileBytes (members count)).length := by
    simp [membersBlob]
    omega
  refine ⟨by simp [membersBlob], _, _, rfl, rfl, ?_⟩
  rw [length]
  simp [membersBlob, memberSuite, suite, List.take_append, List.drop_append]

end Sample

theorem all_or_nothing_sample :
    AllOrNothing Sample.memberSuite (Sample.membersBlob 1) [] (lit "a") ∧
      ¬ AllOrNothing Sample.memberSuite (Sample.membersBlob 2) [] (lit "aa") := by
  constructor
  · exact (all_or_nothing_iff Sample.gzipLaws (Sample.members_each 1)
      (Sample.members_authentic 1)).mpr (.inl rfl)
  · intro whole
    exact absurd ((all_or_nothing_iff Sample.gzipLaws (Sample.members_each 2)
      (Sample.members_authentic 2)).mp whole) (by decide)

/-- Of two members the first is returned. -/
theorem later_member_dropped :
    GzipLaws Sample.memberSuite Sample.IsMember ∧
      (∀ each ∈ Sample.members 2, Sample.IsMember each.1 each.2) ∧
      Authentic Sample.memberSuite (Sample.membersBlob 2) [] (fileBytes (Sample.members 2)) ∧
      fileContent (Sample.members 2) = lit "aa" ∧
      decryptResponse Sample.memberSuite (Sample.membersBlob 2) [] = .ok (.ok (lit "a")) := by
  refine ⟨Sample.gzipLaws, Sample.members_each 2, Sample.members_authentic 2, rfl, ?_⟩
  exact (decryptResponse_iff Sample.gzipLaws (Sample.members_each 2)
    (Sample.members_authentic 2)).mpr (by decide)

end E2eeProxy.Crypto
