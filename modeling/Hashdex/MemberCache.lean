import Mathlib
import Hashdex.Descent

/-!
# The member cache

What a scan keeps of a container it descended into: one row for each member, in tree order, and a row
that says the descent is complete.  Both go by the container's sha256 and the descent policy.

* `load_store`: what is stored is loaded again, and `load_store_of_ne`: other containers keep theirs
-/

namespace Hashdex

namespace MemberCache

/-- `[u8; n]`. -/
abbrev Digest (n : ℕ) := { b : Bytes // b.length = n }

/-- A member as it is cached: `rel` is its path in the container, `parent` the row of its parent. -/
structure CachedMember where
  rel : List Char
  /-- Nothing for a direct child of the container. -/
  parent : Option ℕ
  ord : ℕ
  /-- The direct children have depth 1. -/
  depth : ℕ
  kind : String
  size : UInt64
  children : ℕ
  note : Option String
  md5 : Option (Digest 16)
  sha1 : Digest 20
  sha256 : Digest 32
  sha512 : Option (Digest 64)
  blake2s : Option (Digest 32)
  sha1Git : Option (Digest 20)
  deriving DecidableEq

structure CachedContainer where
  kind : String
  children : ℕ
  note : Option String
  deriving DecidableEq

/-! ### The tables -/

/-- A row of `container_members`. -/
structure MemberRow where
  csha256 : Digest 32
  descent : ℤ
  idx : ℤ
  parent : Option ℤ
  ord : ℤ
  depth : ℤ
  rel : List Char
  kind : String
  size : Int64
  children : ℤ
  note : Option String
  md5 : Option Bytes
  sha1 : Bytes
  sha256 : Bytes
  sha512 : Option Bytes
  blake2s : Option Bytes
  sha1Git : Option Bytes

/-- A row of `container_done`. -/
structure DoneRow where
  csha256 : Digest 32
  descent : ℤ
  members : ℤ
  kind : String
  children : ℤ
  note : Option String
  schemaVersion : ℤ

structure LocalIndex where
  containerMembers : List MemberRow
  containerDone : List DoneRow

def containerSchema : ℤ := 4

def digest (n : ℕ) (v : Bytes) : Option (Digest n) :=
  if h : v.length = n then some ⟨v, h⟩ else none

def optDigest (n : ℕ) (v : Option Bytes) : Option (Digest n) := v.bind (digest n)

/-- `[0; n]`. -/
def zeroDigest (n : ℕ) : Digest n := ⟨List.replicate n 0, List.length_replicate⟩

def MemberRow.isOf (csha256 : Digest 32) (descent : ℤ) (r : MemberRow) : Bool :=
  r.csha256 = csha256 && r.descent = descent

def DoneRow.isOf (csha256 : Digest 32) (descent : ℤ) (r : DoneRow) : Bool :=
  r.csha256 = csha256 && r.descent = descent

def MemberRow.insert (csha256 : Digest 32) (descent : ℤ) (idx : ℕ) (m : CachedMember) : MemberRow where
  csha256 := csha256
  descent := descent
  idx := idx
  parent := m.parent.map fun p => (p : ℤ)
  ord := m.ord
  depth := m.depth
  rel := m.rel
  kind := m.kind
  size := m.size.toInt64
  children := m.children
  note := m.note
  md5 := m.md5.map (·.val)
  sha1 := m.sha1.val
  sha256 := m.sha256.val
  sha512 := m.sha512.map (·.val)
  blake2s := m.blake2s.map (·.val)
  sha1Git := m.sha1Git.map (·.val)

def MemberRow.get (r : MemberRow) : CachedMember where
  rel := r.rel
  parent := r.parent.map Int.toNat
  ord := r.ord.toNat
  depth := r.depth.toNat
  kind := r.kind
  size := r.size.toUInt64
  children := r.children.toNat
  note := r.note
  md5 := optDigest 16 r.md5
  sha1 := (digest 20 r.sha1).getD (zeroDigest 20)
  sha256 := (digest 32 r.sha256).getD (zeroDigest 32)
  sha512 := optDigest 64 r.sha512
  blake2s := optDigest 32 r.blake2s
  sha1Git := optDigest 20 r.sha1Git

namespace LocalIndex

/-- The rows of an earlier store are deleted, and the done-marker replaced. -/
def storeContainer (ix : LocalIndex) (csha256 : Digest 32) (descent : ℤ) (container : CachedContainer)
    (members : List CachedMember) : LocalIndex where
  containerMembers :=
    (ix.containerMembers.filter fun r => !r.isOf csha256 descent)
      ++ members.zipIdx.map fun x => .insert csha256 descent x.2 x.1
  containerDone :=
    (ix.containerDone.filter fun r => !r.isOf csha256 descent)
      ++ [⟨csha256, descent, members.length, container.kind, container.children, container.note,
        containerSchema⟩]

def doneRow (ix : LocalIndex) (csha256 : Digest 32) (descent : ℤ) : Option DoneRow :=
  ix.containerDone.find? fun r => r.isOf csha256 descent && r.schemaVersion = containerSchema

def hasContainer (ix : LocalIndex) (csha256 : Digest 32) (descent : ℤ) : Bool :=
  (ix.doneRow csha256 descent).isSome

/-- `SELECT … ORDER BY idx`. -/
def memberRows (ix : LocalIndex) (csha256 : Digest 32) (descent : ℤ) : List MemberRow :=
  (ix.containerMembers.filter fun r => r.isOf csha256 descent).insertionSort fun r s => r.idx ≤ s.idx

def loadContainer (ix : LocalIndex) (csha256 : Digest 32) (descent : ℤ) :
    Option (CachedContainer × List CachedMember) :=
  match ix.doneRow csha256 descent with
  | none => none
  | some done =>
    let members := (ix.memberRows csha256 descent).map MemberRow.get
    -- a torn write is treated as absent
    if (members.length : ℤ) ≠ done.members then none
    else some (⟨done.kind, done.children.toNat, done.note⟩, members)

end LocalIndex

/-! ### Round trip -/

@[simp] theorem digest_val {n : ℕ} (d : Digest n) : digest n d.val = some d := by
  rw [digest, dif_pos d.property]

@[simp] theorem optDigest_val {n : ℕ} (d : Option (Digest n)) :
    optDigest n (d.map (·.val)) = d := by
  cases d with
  | none => rfl
  | some d => exact digest_val d

theorem MemberRow.get_insert (csha256 : Digest 32) (descent : ℤ) (idx : ℕ) (m : CachedMember) :
    (MemberRow.insert csha256 descent idx m).get = m := by
  have hparent : (m.parent.map fun p => (p : ℤ)).map Int.toNat = m.parent := by
    cases m.parent <;> rfl
  simp only [MemberRow.insert, MemberRow.get, hparent, optDigest_val, digest_val, Option.getD_some,
    Int.toNat_natCast, UInt64.toUInt64_toInt64]

theorem MemberRow.isOf_insert (csha256 : Digest 32) (descent : ℤ) (idx : ℕ) (m : CachedMember)
    (csha256' : Digest 32) (descent' : ℤ) :
    (MemberRow.insert csha256 descent idx m).isOf csha256' descent' = true
      ↔ csha256 = csha256' ∧ descent = descent' := by
  simp [MemberRow.isOf, MemberRow.insert]

namespace LocalIndex

variable (ix : LocalIndex) (csha256 : Digest 32) (descent : ℤ) (container : CachedContainer)
variable (members : List CachedMember)

/-- The rows stored come back in their order. -/
theorem memberRows_store :
    ((ix.storeContainer csha256 descent container members).memberRows csha256 descent).map MemberRow.get
      = members := by
  have hrows : (ix.storeContainer csha256 descent container members).containerMembers.filter
      (fun r => r.isOf csha256 descent)
        = members.zipIdx.map fun x => MemberRow.insert csha256 descent x.2 x.1 := by
    have hold : (ix.containerMembers.filter fun r => !r.isOf csha256 descent).filter
        (fun r => r.isOf csha256 descent) = [] := by
      rw [List.filter_filter, List.filter_eq_nil_iff]
      intro r _
      cases r.isOf csha256 descent <;> simp
    have hnew : ∀ r ∈ members.zipIdx.map fun x => MemberRow.insert csha256 descent x.2 x.1,
        r.isOf csha256 descent = true := by
      intro r hr
      obtain ⟨x, _, rfl⟩ := List.mem_map.mp hr
      exact (MemberRow.isOf_insert ..).mpr ⟨rfl, rfl⟩
    show (_ ++ _ : List MemberRow).filter _ = _
    rw [List.filter_append, hold, List.nil_append, List.filter_eq_self.mpr hnew]
  have hsorted : (members.zipIdx.map fun x => MemberRow.insert csha256 descent x.2 x.1).Pairwise
      fun r s => r.idx ≤ s.idx := by
    rw [List.pairwise_map, List.pairwise_iff_getElem]
    intro a b ha hb hab
    simp only [MemberRow.insert, List.getElem_zipIdx]
    omega
  unfold memberRows
  rw [hrows, hsorted.insertionSort_eq, List.map_map]
  have hget : (MemberRow.get ∘ fun x : CachedMember × ℕ => MemberRow.insert csha256 descent x.2 x.1)
      = Prod.fst := by
    funext x
    exact MemberRow.get_insert csha256 descent x.2 x.1
  rw [hget, List.zipIdx_map_fst]

/-- **What is stored is loaded again.** -/
theorem load_store :
    (ix.storeContainer csha256 descent container members).loadContainer csha256 descent
      = some (container, members) := by
  have hdone : (ix.storeContainer csha256 descent container members).doneRow csha256 descent
      = some ⟨csha256, descent, members.length, container.kind, container.children, container.note,
          containerSchema⟩ := by
    have hold : (ix.containerDone.filter fun r => !r.isOf csha256 descent).find?
        (fun r => r.isOf csha256 descent && r.schemaVersion = containerSchema) = none := by
      rw [List.find?_eq_none]
      intro r hr
      have hnot := (List.mem_filter.mp hr).2
      simp only [Bool.not_eq_true'] at hnot
      simp [hnot]
    unfold doneRow
    show (_ ++ _ : List DoneRow).find? _ = _
    rw [List.find?_append, hold]
    simp [DoneRow.isOf]
  unfold loadContainer
  rw [hdone]
  simp only [memberRows_store]
  rw [if_neg (by simp)]
  simp

/-- **Other containers keep their rows.** -/
theorem load_store_of_ne {csha256' : Digest 32} {descent' : ℤ}
    (h : ¬(csha256 = csha256' ∧ descent = descent')) :
    (ix.storeContainer csha256 descent container members).loadContainer csha256' descent'
      = ix.loadContainer csha256' descent' := by
  have hother : ∀ (a : Digest 32) (b : ℤ), a = csha256' ∧ b = descent' →
      ¬(a = csha256 ∧ b = descent) := by
    intro a b hab hab'
    exact h ⟨hab'.1.symm.trans hab.1, hab'.2.symm.trans hab.2⟩
  have hdone : (ix.storeContainer csha256 descent container members).doneRow csha256' descent'
      = ix.doneRow csha256' descent' := by
    unfold doneRow
    show (List.filter _ _ ++ [_] : List DoneRow).find? _ = _
    rw [List.find?_append, List.find?_filter]
    have hnew : ([⟨csha256, descent, members.length, container.kind, container.children,
        container.note, containerSchema⟩] : List DoneRow).find? (fun r => r.isOf csha256' descent'
          && r.schemaVersion = containerSchema) = none := by
      rw [List.find?_eq_none]
      intro r hr
      rw [List.mem_singleton.mp hr]
      simp only [DoneRow.isOf, Bool.and_eq_true, decide_eq_true_eq, not_and]
      intro hkey
      exact absurd hkey h
    rw [hnew, Option.or_none]
    congr 1
    funext r
    have hr := hother r.csha256 r.descent
    simp only [DoneRow.isOf]
    grind
  have hrows : (ix.storeContainer csha256 descent container members).memberRows csha256' descent'
      = ix.memberRows csha256' descent' := by
    unfold memberRows
    show (List.filter _ (List.filter _ _ ++ List.map _ _)).insertionSort _ = _
    have hnew : (members.zipIdx.map fun x => MemberRow.insert csha256 descent x.2 x.1).filter
        (fun r => r.isOf csha256' descent') = [] := by
      rw [List.filter_eq_nil_iff]
      intro r hr
      obtain ⟨x, _, rfl⟩ := List.mem_map.mp hr
      rw [MemberRow.isOf_insert]
      exact h
    rw [List.filter_append, hnew, List.append_nil, List.filter_filter]
    congr 2
    funext r
    have hr := hother r.csha256 r.descent
    simp only [MemberRow.isOf]
    grind
  unfold loadContainer
  rw [hdone, hrows]

end LocalIndex

end MemberCache

end Hashdex
