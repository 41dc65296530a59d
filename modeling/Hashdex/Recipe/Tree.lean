import Hashdex.Finding
import Hashdex.Lib.Tiling

/-!
# The member tree a recipe is minted from

A container's members, in one table, with their parents and with what the indexes say of each.  A
member that lies in a source as byte ranges carries its runs there; a member the walk spooled owns a
space of its own.

* `mem_kids`: the children of a member
* `runs_tile`: the runs a node is spliced over tile it
-/

namespace Hashdex

open Tiling

/-- A run of a member's bytes: where it starts in the member, where it lies in the source. -/
structure Run where
  log : ℕ
  off : ℕ
  len : ℕ
  deriving DecidableEq

/-- The ranges of a source that hold a member of the given size.  A view drops empty runs and counts
the logical starts up as it goes. -/
structure Extents (size : ℕ) where
  /-- The coordinate space the offsets are in. -/
  src : ℕ
  runs : List Run
  tiled : Tiles Run.log Run.len 0 size runs
  nonempty : ∀ r ∈ runs, 0 < r.len

structure Digests where
  md5 : Option Bytes
  sha1 : Bytes
  sha256 : Bytes
  sha512 : Option Bytes
  blake2s : Option Bytes
  sha1Git : Option Bytes
  deriving DecidableEq

structure Member where
  path : String
  depth : ℕ
  parent : Option ℕ
  /-- Position among siblings. -/
  ord : ℕ
  kind : String
  size : ℕ
  /-- Nothing for a directory. -/
  digests : Option Digests
  extents : Option (Extents size)
  /-- The space of the member's own spool, when the walk kept one. -/
  space : Option ℕ
  size_lt : size < 2 ^ 64

instance : Inhabited Member := ⟨⟨"", 0, none, 0, "", 0, none, none, none, by decide⟩⟩

/-- A digest's own length: no smaller member is identified. -/
def identityMinBytes : ℕ := 32

/-- The member table, and the findings on each member.  A member is deeper than its parent. -/
structure Tree where
  members : List Member
  evidence : List (List Finding)
  deeper : ∀ i p, (members.getD i default).parent = some p →
    (members.getD p default).depth < (members.getD i default).depth

namespace Tree

variable (T : Tree)

def member (i : ℕ) : Member := T.members.getD i default

def findings (i : ℕ) : List Finding := T.evidence.getD i []

/-- The children of a member, in their order. -/
def kids (p : ℕ) : List ℕ :=
  ((List.range T.members.length).filter fun i => (T.member i).parent = some p).insertionSort
    fun i j => (T.member i).ord ≤ (T.member j).ord

/-- Whether a witness claims these very bytes at a URL. -/
def directClaimed (i : ℕ) : Bool :=
  (T.findings i).any fun f => f.archive.isNone && f.claims.any fun c => c.url.isSome

/-- The finding that states the bytes inside a sha256-named archive with a URL. -/
def attested (f : Finding) : Bool :=
  match f.archive with
  | some a => a.scheme = "sha256" && a.url.isSome
  | none => false

def extractable (i : ℕ) : Bool := (T.findings i).any attested

/-- The stack loop of `subtree_is_fetchable`.  Each member has one parent, so no run of it pops more
members than there are. -/
def fetchableLoop (i : ℕ) : ℕ → List ℕ → Bool
  | 0, _ => false
  | _ + 1, [] => false
  | n + 1, k :: stack =>
    if k ≠ i ∧ (T.directClaimed k || T.extractable k) then true
    else fetchableLoop i n ((T.kids k).reverse ++ stack)

/-- Whether anything below the member is fetchable. -/
def subtreeIsFetchable (i : ℕ) : Bool := T.fetchableLoop i T.members.length [i]

/-- The member is big enough to be identified and has been hashed. -/
def Identified (i : ℕ) : Prop :=
  identityMinBytes ≤ (T.member i).size ∧ (T.member i).digests.isSome

instance (i : ℕ) : Decidable (T.Identified i) := inferInstanceAs (Decidable (_ ∧ _))

/-- The runs of a member that lies in the space. -/
def rangeable (space i : ℕ) : Option (List Run) :=
  if T.Identified i then
    match (T.member i).extents with
    | some e => if e.src = space then some e.runs else none
    | none => none
  else none

/-- The space a member's children are spliced in, and the member's own runs there: a spooled member
covers all of its space. -/
def ground (i : ℕ) : Option (ℕ × List Run) :=
  match (T.member i).space with
  | some v => some (v, [⟨0, 0, (T.member i).size⟩])
  | none =>
    match (T.member i).extents with
    | some e => some (e.src, e.runs)
    | none => none

variable {T}

theorem mem_kids {p c : ℕ} :
    c ∈ T.kids p ↔ c < T.members.length ∧ (T.member c).parent = some p := by
  rw [kids, List.mem_insertionSort, List.mem_filter, List.mem_range, decide_eq_true_iff]

theorem depth_kid {p c : ℕ} (h : c ∈ T.kids p) : (T.member p).depth < (T.member c).depth :=
  T.deeper c p (mem_kids.mp h).2

theorem kids_nodup (p : ℕ) : (T.kids p).Nodup :=
  (List.perm_insertionSort _ _).nodup_iff.mpr (List.nodup_range.filter _)

theorem rangeable_eq_some {space i : ℕ} {runs : List Run} (h : T.rangeable space i = some runs) :
    T.Identified i ∧ Tiles Run.log Run.len 0 (T.member i).size runs ∧ ∀ r ∈ runs, 0 < r.len := by
  rw [rangeable] at h
  split at h
  · next hid =>
    split at h
    · next e _ =>
      split at h
      · cases h
        exact ⟨hid, e.tiled, e.nonempty⟩
      · cases h
    · cases h
  · cases h

/-- **The runs a node is spliced over tile it.** -/
theorem runs_tile {i space : ℕ} {runs : List Run} (h : T.ground i = some (space, runs)) :
    Tiles Run.log Run.len 0 (T.member i).size runs := by
  rw [ground] at h
  split at h
  · cases h
    exact ⟨rfl, Nat.zero_add _⟩
  · split at h
    · next e _ =>
      cases h
      exact e.tiled
    · cases h

end Tree

end Hashdex
