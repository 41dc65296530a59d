import Hashdex.MemberCache
import Hashdex.Lib.Preorder

/-!
# The order of a member table

The report and the member cache take the members in the order of their tree: children lists are rebuilt
from the parent pointers, sorted by `ord`, and walked depth-first from the roots.

* `Table`: a finished member table
* `treeOrder_eq`: the trees of the roots, one after the other
* `treeOrder_perm`, `treeOrder_split`: each member once, what is below it right after it, and there is
  nothing deeper than it next
-/

namespace Hashdex

namespace MemberCache

open Preorder

structure Digests where
  md5 : Option (Digest 16)
  sha1 : Digest 20
  sha256 : Digest 32
  sha512 : Option (Digest 64)
  blake2s : Option (Digest 32)
  sha1Git : Option (Digest 20)
  deriving DecidableEq

structure Member where
  path : List Char
  depth : ℕ
  parent : Option ℕ
  /-- Position among siblings. -/
  ord : ℕ
  kind : String
  size : UInt64
  /-- A directory or a disk file, not a member nested in one. -/
  fs : Bool
  /-- Nothing for a directory. -/
  digests : Option Digests
  matched : List String
  children : ℕ
  note : Option String
  deriving DecidableEq

/-! ### The function -/

def ordOf (members : List Member) (i : ℕ) : ℕ := (members[i]?.map Member.ord).getD 0

/-- A member is put into its parent's list, or among the roots. -/
def pushKid (lists : List (List ℕ) × List ℕ) (x : Member × ℕ) : List (List ℕ) × List ℕ :=
  match x.1.parent with
  | some p => (lists.1.modify p (· ++ [x.2]), lists.2)
  | none => (lists.1, lists.2 ++ [x.2])

def childLists (members : List Member) : List (List ℕ) × List ℕ :=
  members.zipIdx.foldl pushKid (List.replicate members.length [], [])

/-- `sort_by_key`. -/
def sortKids (members : List Member) (kids : List ℕ) : List ℕ :=
  kids.insertionSort fun i j => ordOf members i ≤ ordOf members j

/-- The head of the list is the top of the stack.  Each round pushes a member, so that their number is
fuel enough. -/
def treeLoop : ℕ → List (List ℕ) → List ℕ → List ℕ → List ℕ
  | 0, _, order, _ => order
  | _ + 1, _, order, [] => order
  | fuel + 1, kids, order, i :: stack =>
    treeLoop fuel (kids.set i []) (order ++ [i]) (kids.getD i [] ++ stack)

def treeOrder (members : List Member) : List ℕ :=
  let (kids, roots) := childLists members
  treeLoop members.length (kids.map (sortKids members)) [] roots

/-! ### Finished tables -/

/-- What `compact_members` returns.  A parent comes before what it holds and is one level up; a nested
member's path continues its parent's; below a file, everything is nested. -/
structure Table where
  members : List Member
  parent : ∀ (i : ℕ) (m : Member) (p : ℕ), members[i]? = some m → m.parent = some p →
    p < i ∧ ∃ q : Member, members[p]? = some q ∧ m.depth = q.depth + 1
  root : ∀ (i : ℕ) (m : Member), members[i]? = some m → m.parent = none →
    m.depth = 0 ∧ m.fs = true
  path : ∀ (i : ℕ) (m : Member) (p : ℕ) (q : Member), members[i]? = some m → m.fs = false →
    m.parent = some p → members[p]? = some q → ∃ name, m.path = q.path ++ '!' :: name
  hashed : ∀ (i : ℕ) (m : Member), members[i]? = some m → m.fs = false →
    m.digests.isSome ∧ ∃ kind : Descent.Kind, m.kind = kind.label
  nested : ∀ (i : ℕ) (m : Member) (p : ℕ) (q : Member), members[i]? = some m → m.parent = some p →
    members[p]? = some q → q.digests.isSome → m.fs = false

/-! ### The children lists -/

def parentOf (members : List Member) (i : ℕ) : Option ℕ := members[i]?.bind Member.parent

theorem parentOf_eq_some {members : List Member} {i p : ℕ} :
    parentOf members i = some p ↔ ∃ m, members[i]? = some m ∧ m.parent = some p := by
  rw [parentOf, Option.bind_eq_some_iff]

theorem foldl_pushKid (l : List (Member × ℕ)) : ∀ lists : List (List ℕ) × List ℕ,
    (l.foldl pushKid lists).1.length = lists.1.length
      ∧ (∀ p < lists.1.length, (l.foldl pushKid lists).1.getD p []
          = lists.1.getD p [] ++ (l.filter fun x => x.1.parent = some p).map Prod.snd)
      ∧ (l.foldl pushKid lists).2 = lists.2 ++ (l.filter fun x => x.1.parent = none).map Prod.snd := by
  induction l with
  | nil =>
    intro lists
    simp
  | cons x l ih =>
    intro lists
    obtain ⟨hlength, hkids, hroots⟩ := ih (pushKid lists x)
    rw [List.foldl_cons]
    cases hx : x.1.parent with
    | none =>
      have hstep : pushKid lists x = (lists.1, lists.2 ++ [x.2]) := by simp only [pushKid, hx]
      rw [hstep] at hlength hkids hroots ⊢
      refine ⟨hlength, fun p hp => ?_, ?_⟩
      · rw [hkids p hp]
        simp [hx]
      · simp [hroots, hx]
    | some q =>
      have hstep : pushKid lists x = (lists.1.modify q (· ++ [x.2]), lists.2) := by
        simp only [pushKid, hx]
      rw [hstep] at hlength hkids hroots ⊢
      refine ⟨by rw [hlength, List.length_modify], fun p hp => ?_, ?_⟩
      · rw [hkids p (by rwa [List.length_modify])]
        by_cases hqp : q = p
        · subst hqp
          simp [List.getD_eq_getElem?_getD, hp, hx]
        · simp [List.getD_eq_getElem?_getD, hqp, hx]
      · simp [hroots, hx]

/-- The members with this parent, in the order of the table. -/
def kidsOf (members : List Member) (parent : Option ℕ) : List ℕ :=
  (members.zipIdx.filter fun x => x.1.parent = parent).map Prod.snd

theorem childLists_fst {members : List Member} {p : ℕ} (hp : p < members.length) :
    (childLists members).1.getD p [] = kidsOf members (some p) := by
  obtain ⟨_, hkids, _⟩ := foldl_pushKid members.zipIdx (List.replicate members.length [], [])
  rw [childLists, hkids p (by simpa using hp)]
  simp [kidsOf, hp]

theorem childLists_snd (members : List Member) : (childLists members).2 = kidsOf members none := by
  obtain ⟨_, _, hroots⟩ := foldl_pushKid members.zipIdx (List.replicate members.length [], [])
  rw [childLists, hroots]
  rfl

theorem length_childLists (members : List Member) : (childLists members).1.length = members.length := by
  obtain ⟨hlength, _, _⟩ := foldl_pushKid members.zipIdx (List.replicate members.length [], [])
  rw [childLists, hlength, List.length_replicate]

theorem mem_kidsOf {members : List Member} {parent : Option ℕ} {k : ℕ} :
    k ∈ kidsOf members parent ↔ ∃ m, members[k]? = some m ∧ m.parent = parent := by
  simp only [kidsOf, List.mem_map, List.mem_filter, decide_eq_true_eq, Prod.exists,
    exists_eq_right, List.mem_zipIdx_iff_getElem?]

/-- The order of the table is that of the indices. -/
theorem kidsOf_pairwise (members : List Member) (parent : Option ℕ) :
    (kidsOf members parent).Pairwise (· < ·) := by
  have hsub : (kidsOf members parent).Sublist (members.zipIdx.map Prod.snd) :=
    List.filter_sublist.map _
  rw [List.zipIdx_map_snd] at hsub
  exact (List.pairwise_lt_range' 1 (by decide)).sublist hsub

theorem mem_sortKids {members : List Member} {kids : List ℕ} {k : ℕ} :
    k ∈ sortKids members kids ↔ k ∈ kids := List.mem_insertionSort _

theorem sortKids_perm (members : List Member) (kids : List ℕ) :
    (sortKids members kids).Perm kids := List.perm_insertionSort _ kids

theorem sortKids_pairwise (members : List Member) (kids : List ℕ) :
    (sortKids members kids).Pairwise fun i j => ordOf members i ≤ ordOf members j := by
  have htotal : Std.Total fun i j => ordOf members i ≤ ordOf members j :=
    ⟨fun i j => Nat.le_total _ _⟩
  have htrans : IsTrans ℕ fun i j => ordOf members i ≤ ordOf members j :=
    ⟨fun _ _ _ h h' => Nat.le_trans h h'⟩
  exact List.pairwise_insertionSort _ kids

/-! ### The order of a table -/

namespace Table

variable (T : Table) {i p x : ℕ} {m : Member}

theorem parentOf_lt (h : parentOf T.members i = some p) : p < i ∧ i < T.members.length := by
  obtain ⟨m, hm, hparent⟩ := parentOf_eq_some.mp h
  obtain ⟨hlt, _⟩ := T.parent i m p hm hparent
  obtain ⟨hi, _⟩ := List.getElem?_eq_some_iff.mp hm
  exact ⟨hlt, hi⟩

/-- The members' forest, siblings by `ord`. -/
def forest : Forest ℕ where
  parent := parentOf T.members
  kids i := sortKids T.members (kidsOf T.members (some i))
  height i := T.members.length - i
  mem_kids k a := by rw [mem_sortKids, mem_kidsOf, parentOf_eq_some]
  nodup_kids a := by
    rw [(sortKids_perm _ _).nodup_iff]
    exact (kidsOf_pairwise T.members (some a)).imp fun hlt => Nat.ne_of_lt hlt
  height_lt k a h := by
    obtain ⟨hlt, hk⟩ := T.parentOf_lt h
    omega

def roots : List ℕ := kidsOf T.members none

theorem mem_roots : i ∈ T.roots ↔ i < T.members.length ∧ parentOf T.members i = none := by
  rw [roots, mem_kidsOf]
  constructor
  · intro h
    obtain ⟨m, hm, hparent⟩ := h
    obtain ⟨hi, _⟩ := List.getElem?_eq_some_iff.mp hm
    exact ⟨hi, by rw [parentOf, hm, Option.bind_some, hparent]⟩
  · intro h
    refine ⟨T.members[i], List.getElem?_eq_getElem h.1, ?_⟩
    have hparent := h.2
    rwa [parentOf, List.getElem?_eq_getElem h.1, Option.bind_some] at hparent

theorem roots_nodup : T.roots.Nodup :=
  (kidsOf_pairwise T.members none).imp fun hlt => Nat.ne_of_lt hlt

/-- Each member is below some root. -/
theorem exists_root (h : i < T.members.length) : ∃ r ∈ T.roots, T.forest.Under i r := by
  induction i using Nat.strongRecOn with
  | ind i ih =>
    cases hparent : parentOf T.members i with
    | none => exact ⟨i, T.mem_roots.mpr ⟨h, hparent⟩, .refl⟩
    | some p =>
      obtain ⟨hlt, _⟩ := T.parentOf_lt hparent
      obtain ⟨r, hr, hup⟩ := ih p hlt (by omega)
      exact ⟨r, hr, .head hparent hup⟩

theorem under_lt (h : T.forest.Under i p) (hp : p < T.members.length) : i < T.members.length := by
  cases Relation.ReflTransGen.cases_head h with
  | inl heq =>
    subst heq
    exact hp
  | inr hstep =>
    obtain ⟨_, hparent, _⟩ := hstep
    exact (T.parentOf_lt hparent).2

theorem roots_siblings : ∀ a ∈ T.roots, ∀ b ∈ T.roots, T.forest.parent a = T.forest.parent b := by
  intro a ha b hb
  show parentOf T.members a = parentOf T.members b
  rw [(T.mem_roots.mp ha).2, (T.mem_roots.mp hb).2]

theorem flatMap_tree_perm : (T.roots.flatMap T.forest.tree).Perm (List.range T.members.length) := by
  rw [List.perm_ext_iff_of_nodup (Forest.nodup_flatMap T.roots_nodup T.roots_siblings)
    List.nodup_range]
  intro i
  rw [List.mem_flatMap, List.mem_range]
  constructor
  · intro h
    obtain ⟨r, hr, hi⟩ := h
    exact T.under_lt (Forest.mem_tree.mp hi) (T.mem_roots.mp hr).1
  · intro h
    obtain ⟨r, hr, hup⟩ := T.exists_root h
    exact ⟨r, hr, Forest.mem_tree.mpr hup⟩

end Table

/-- The loop is the traversal, when its fuel and its lists are. -/
theorem treeLoop_eq {fuel : ℕ} : ∀ {kids : List (List ℕ)} {order stack : List ℕ},
    treeLoop fuel kids order stack
      = order ++ Forest.drain fuel (fun i => kids.getD i []) stack := by
  induction fuel with
  | zero =>
    intro kids order stack
    simp [treeLoop, Forest.drain]
  | succ fuel ih =>
    intro kids order stack
    cases stack with
    | nil => simp [treeLoop, Forest.drain]
    | cons i stack =>
      have hset : (fun j => (kids.set i []).getD j [])
          = Function.update (fun j => kids.getD j []) i [] := by
        funext j
        by_cases hji : j = i
        · subst hji
          by_cases hj : j < kids.length
          · simp [List.getD_eq_getElem?_getD, hj]
          · simp [List.getD_eq_getElem?_getD, hj]
        · simp [List.getD_eq_getElem?_getD, List.getElem?_set_ne (Ne.symm hji),
            Function.update_of_ne hji]
      rw [treeLoop, ih, hset, Forest.drain, List.append_assoc, List.singleton_append]

/-- **The trees of the roots, one after the other.** -/
theorem treeOrder_eq (T : Table) : treeOrder T.members = T.roots.flatMap T.forest.tree := by
  show treeLoop T.members.length ((childLists T.members).1.map (sortKids T.members)) []
    (childLists T.members).2 = _
  rw [treeLoop_eq, List.nil_append, childLists_snd]
  show Forest.drain T.members.length _ T.roots = _
  have hperm := T.flatMap_tree_perm
  apply Forest.drain_eq
  · exact Forest.nodup_flatMap T.roots_nodup T.roots_siblings
  · intro i hi
    have hlt : i < T.members.length := List.mem_range.mp (hperm.mem_iff.mp hi)
    have hget := childLists_fst hlt
    rw [List.getD_eq_getElem?_getD] at hget ⊢
    rw [List.getElem?_map]
    show _ = sortKids T.members (kidsOf T.members (some i))
    rw [← hget]
    cases (childLists T.members).1[i]? <;> rfl
  · rw [hperm.length_eq, List.length_range]

/-- **Each member stands in the order once.** -/
theorem treeOrder_perm (T : Table) : (treeOrder T.members).Perm (List.range T.members.length) := by
  rw [treeOrder_eq]
  exact T.flatMap_tree_perm

namespace Table

variable (T : Table) {i : ℕ}

def depthOf (i : ℕ) : ℕ := (T.members[i]?.map Member.depth).getD 0

theorem depthOf_parent (k a : ℕ) (h : T.forest.parent k = some a) :
    T.depthOf k = T.depthOf a + 1 := by
  obtain ⟨m, hm, hparent⟩ := parentOf_eq_some.mp h
  obtain ⟨_, q, hq, hdepth⟩ := T.parent k m a hm hparent
  simp only [depthOf, hm, hq, Option.map_some, Option.getD_some, hdepth]

/-- The members below a member, in tree order. -/
def below (i : ℕ) : List ℕ := (T.forest.kids i).flatMap T.forest.tree

/-- A member lies below another. -/
def Below (x i : ℕ) : Prop := Relation.TransGen (fun k p => parentOf T.members k = some p) x i

theorem tree_eq (i : ℕ) : T.forest.tree i = i :: T.below i := T.forest.tree_eq i

theorem mem_below {x : ℕ} : x ∈ T.below i ↔ T.Below x i := by
  rw [below, List.mem_flatMap, Below, Relation.TransGen.tail'_iff]
  constructor
  · intro h
    obtain ⟨k, hk, hx⟩ := h
    exact ⟨k, Forest.mem_tree.mp hx, (T.forest.mem_kids k i).mp hk⟩
  · intro h
    obtain ⟨k, hup, hparent⟩ := h
    exact ⟨k, (T.forest.mem_kids k i).mpr hparent, Forest.mem_tree.mpr hup⟩

/-- The parent of a member below `i` is `i`, or below it too. -/
theorem parent_mem {k p : ℕ} (hk : k ∈ T.below i) (hparent : parentOf T.members k = some p) :
    p = i ∨ p ∈ T.below i := by
  rw [mem_below] at hk ⊢
  cases Relation.TransGen.head'_iff.mp hk with
  | intro q hq =>
    obtain ⟨hkq, hup⟩ := hq
    have hpq : p = q := Option.some.inj (hparent.symm.trans hkq)
    rw [hpq]
    cases Relation.ReflTransGen.cases_head_iff.mp hup with
    | inl heq => exact .inl heq
    | inr hstep =>
      obtain ⟨r, hpr, hup⟩ := hstep
      exact .inr (Relation.TransGen.head'_iff.mpr ⟨r, hpr, hup⟩)

theorem kid_mem {k x : ℕ} (hx : x ∈ i :: T.below i) (hparent : parentOf T.members k = some x) :
    k ∈ T.below i := by
  rw [mem_below]
  cases List.mem_cons.mp hx with
  | inl heq => exact .single (heq ▸ hparent)
  | inr hx => exact .head hparent (T.mem_below.mp hx)

theorem kids_sublist {x : ℕ} (hx : x ∈ i :: T.below i) :
    (T.forest.kids x).Sublist (i :: T.below i) := by
  rw [← tree_eq] at hx ⊢
  obtain ⟨before, after, hsplit, _⟩ := Forest.exists_split_tree T.depthOf_parent i hx
  rw [hsplit, tree_eq, List.append_assoc, List.cons_append]
  apply List.Sublist.trans _ (List.sublist_append_right before _)
  exact ((T.forest.sublist_flatMap (T.forest.kids x)).trans (List.sublist_append_left _ after)).cons x

theorem below_nodup (i : ℕ) : (T.below i).Nodup := by
  have h := Forest.nodup_tree (F := T.forest) i
  rw [tree_eq, List.nodup_cons] at h
  exact h.2

theorem not_mem_below (i : ℕ) : i ∉ T.below i := by
  have h := Forest.nodup_tree (F := T.forest) i
  rw [tree_eq, List.nodup_cons] at h
  exact h.1

/-- **What is below a member follows it, and nothing deeper comes next.** -/
theorem treeOrder_split (h : i < T.members.length) :
    ∃ before after, treeOrder T.members = before ++ i :: T.below i ++ after
      ∧ ∀ y ∈ after.head?, T.depthOf y ≤ T.depthOf i := by
  have hmem : i ∈ T.roots.flatMap T.forest.tree := by
    rw [← treeOrder_eq, (treeOrder_perm T).mem_iff, List.mem_range]
    exact h
  have hroots : ∀ a ∈ T.roots, ∀ b ∈ T.roots, T.depthOf a = T.depthOf b := by
    have hzero : ∀ a ∈ T.roots, T.depthOf a = 0 := by
      intro a ha
      obtain ⟨m, hm, hparent⟩ := mem_kidsOf.mp ha
      simp only [depthOf, hm, Option.map_some, Option.getD_some, (T.root a m hm hparent).1]
    intro a ha b hb
    rw [hzero a ha, hzero b hb]
  rw [treeOrder_eq, ← tree_eq]
  exact Forest.exists_split T.depthOf_parent hroots hmem

end Table

end MemberCache

end Hashdex
