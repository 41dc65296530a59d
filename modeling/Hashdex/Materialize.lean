import Hashdex.Recipe.Tree
import Hashdex.TreeOrder

/-!
# Storing a descent and replaying it

A container's rows are the members that follow it in tree order until the depth falls back to its own.
`materialize_cached` puts them under another container, which has another path and depth.

* `containerRows_spec`: the rows are those of the members below the container
* `materializeCached_spec`: each is replayed under its slot
* `replay_round_trip`: a table the replayed members end up in has there, in tree order, what the first
  table has below the container
-/

namespace Hashdex

namespace MemberCache

open Preorder

/-! ### What is stored -/

/-- `path.get(n..)`, by bytes. -/
def getFrom : List Char → ℕ → Option (List Char)
  | [], n => if n = 0 then some [] else none
  | c :: s, n =>
    if n = 0 then some (c :: s)
    else if c.utf8Size ≤ n then getFrom s (n - c.utf8Size)
    else none

/-- `path.len()`. -/
def byteLen (s : List Char) : ℕ := (s.map Char.utf8Size).sum

/-- The row of a member, given the row of its parent. -/
def cachedMember (baseDepth pre : ℕ) (n : Member) (nd : Digests) (parent : Option ℕ) :
    CachedMember where
  rel := (getFrom n.path pre).getD []
  parent := parent
  ord := n.ord
  depth := n.depth - baseDepth
  kind := n.kind
  size := n.size
  children := n.children
  note := n.note
  md5 := nd.md5
  sha1 := nd.sha1
  sha256 := nd.sha256
  sha512 := nd.sha512
  blake2s := nd.blake2s
  sha1Git := nd.sha1Git

/-- The row of a parent; `local_of[&p]` panics on a member that has no row. -/
def localParent (i : ℕ) (localOf : ℕ → Option ℕ) : Option ℕ → Option (Option ℕ)
  | none => some none
  | some p => if p = i then some none else (localOf p).map some

/-- The loop over the members that follow the container `i`. -/
def rowsLoop (members : List Member) (i baseDepth pre : ℕ) :
    List ℕ → (ℕ → Option ℕ) → List CachedMember → Option (List CachedMember)
  | [], _, rows => some rows
  | k :: rest, localOf, rows =>
    match members[k]? with
    | none => none
    | some n =>
      if baseDepth < n.depth then
        -- nested members carry digests, or it panics
        match n.digests with
        | none => none
        | some nd =>
          let localOf := Function.update localOf k (some rows.length)
          match localParent i localOf n.parent with
          | none => none
          | some parent =>
            rowsLoop members i baseDepth pre rest localOf (rows ++ [cachedMember baseDepth pre n nd parent])
      else some rows

/-- The rows of the container `i`. -/
def containerRows (members : List Member) (i : ℕ) : Option (List CachedMember) :=
  match members[i]? with
  | none => none
  | some m =>
    let order := treeOrder members
    rowsLoop members i m.depth (byteLen m.path + 1) (order.drop (order.idxOf i + 1)) (fun _ => none) []

def container (m : Member) : CachedContainer := ⟨m.kind, m.children, m.note⟩

/-! ### What is replayed -/

/-- `Kind::intern_label`: unknown strings degrade to "file". -/
def internLabel (s : String) : String :=
  match [Descent.Kind.gzip, .xz, .zstd, .bzip2, .tar, .zip, .ar, .rpm, .cpio, .squashFs, .erofs, .sevenZ,
    .iso, .fat].find? fun k => k.label = s with
  | some k => k.label
  | none => if s = "dir" then "dir" else "file"

def replayedMember (probe : Bytes → Bytes → List String) (basePath : List Char) (baseDepth : ℕ)
    (m : CachedMember) (parent : ℕ) : Member where
  path := basePath ++ '!' :: m.rel
  depth := baseDepth + m.depth
  parent := some parent
  ord := m.ord
  kind := internLabel m.kind
  size := m.size
  fs := false
  digests := some ⟨m.md5, m.sha1, m.sha256, m.sha512, m.blake2s, m.sha1Git⟩
  matched := if identityMinBytes ≤ m.size.toNat then probe m.sha1.val m.sha256.val else []
  children := m.children
  note := m.note

/-- The members with the slots they fill.  `reserve` has the slots that the pool hands out to this
replay; `slot_of[p]` panics on a row that has not been replayed. -/
def materializeCached (probe : Bytes → Bytes → List String) (reserve : ℕ → ℕ) (containerSlot : ℕ)
    (basePath : List Char) (baseDepth : ℕ) : List CachedMember → List ℕ → Option (List (ℕ × Member))
  | [], _ => some []
  | m :: rows, slotOf =>
    let slot := reserve slotOf.length
    let parent :=
      match m.parent with
      | some p => slotOf[p]?
      | none => some containerSlot
    match parent with
    | none => none
    | some parent =>
      (materializeCached probe reserve containerSlot basePath baseDepth rows (slotOf ++ [slot])).map
        ((slot, replayedMember probe basePath baseDepth m parent) :: ·)

/-! ### Paths and labels -/

theorem getFrom_append (s : List Char) (n : ℕ) : ∀ pre : List Char,
    getFrom (pre ++ s) (byteLen pre + n) = getFrom s n := by
  intro pre
  induction pre with
  | nil => simp [byteLen]
  | cons c pre ih =>
    have hpos := Char.utf8Size_pos c
    have hlen : byteLen (c :: pre) + n = c.utf8Size + (byteLen pre + n) := by
      simp [byteLen, Nat.add_assoc]
    rw [hlen, List.cons_append, getFrom, if_neg (by omega), if_pos (by omega), Nat.add_sub_cancel_left,
      ih]

/-- What follows the separator. -/
theorem getFrom_child (path name : List Char) :
    getFrom (path ++ '!' :: name) (byteLen path + 1) = some name := by
  rw [getFrom_append, getFrom, if_neg (by decide), if_pos (by decide)]
  show getFrom name 0 = some name
  cases name <;> rfl

theorem internLabel_label (kind : Descent.Kind) : internLabel kind.label = kind.label := by
  cases kind <;> decide

/-! ### The rows of a container -/

/-- The row of a member below the container `i`; `parent` is the row of its parent. -/
structure IsRow (T : Table) (m : Member) (k : ℕ) (parent : Option ℕ) (row : CachedMember) : Prop where
  member : ∃ (n : Member) (nd : Digests), T.members[k]? = some n ∧ n.fs = false ∧ n.digests = some nd
    ∧ row = cachedMember m.depth (byteLen m.path + 1) n nd parent
    ∧ (∃ name, n.path = m.path ++ '!' :: name) ∧ m.depth < n.depth

/-- Where the parent of a member below `i` stands among these. -/
def Table.localParent (T : Table) (i k : ℕ) : Option ℕ :=
  (parentOf T.members k).bind fun p => if p = i then none else some ((T.below i).idxOf p)

namespace Table

variable (T : Table) {i : ℕ} {m : Member}

/-- What is below a file is nested in it: its path continues the file's, and it is deeper. -/
theorem nested_of_below (hm : T.members[i]? = some m) (hdg : m.digests.isSome) {k : ℕ}
    (hk : T.Below k i) : ∃ n, T.members[k]? = some n ∧ n.fs = false
      ∧ (∃ name, n.path = m.path ++ '!' :: name) ∧ m.depth < n.depth := by
  induction hk using Relation.TransGen.head_induction_on with
  | single hparent =>
    obtain ⟨n, hn, hparent⟩ := parentOf_eq_some.mp hparent
    obtain ⟨_, q, hq, hdepth⟩ := T.parent _ n i hn hparent
    rw [hm, Option.some.injEq] at hq
    subst hq
    have hfs := T.nested _ n i m hn hparent hm hdg
    exact ⟨n, hn, hfs, T.path _ n i m hn hfs hparent hm, by omega⟩
  | head hparent _ ih =>
    obtain ⟨q, hq, hqfs, ⟨name, hqname⟩, hqdepth⟩ := ih
    obtain ⟨n, hn, hparent⟩ := parentOf_eq_some.mp hparent
    obtain ⟨_, q', hq', hdepth⟩ := T.parent _ n _ hn hparent
    rw [hq, Option.some.injEq] at hq'
    subst hq'
    have hfs := T.nested _ n _ q hn hparent hq (T.hashed _ q hq hqfs).1
    obtain ⟨name', hname'⟩ := T.path _ n _ q hn hfs hparent hq
    exact ⟨n, hn, hfs, ⟨name ++ '!' :: name', by rw [hname', hqname]; simp⟩, by omega⟩

/-- A member's parent stands before it. -/
theorem parent_before {before after : List ℕ} {k p : ℕ}
    (hsplit : T.below i = before ++ k :: after) (hparent : parentOf T.members k = some p)
    (hne : p ≠ i) : p ∈ before := by
  have hdepths : ∀ a ∈ T.forest.kids i, ∀ b ∈ T.forest.kids i, T.depthOf a = T.depthOf b := by
    intro a ha b hb
    rw [T.depthOf_parent a i ((T.forest.mem_kids a i).mp ha),
      T.depthOf_parent b i ((T.forest.mem_kids b i).mp hb)]
  have hk : k ∈ T.below i := by
    rw [hsplit]
    simp
  have hp := (T.parent_mem hk hparent).resolve_left hne
  exact Forest.parent_mem_before T.depthOf_parent hdepths (T.below_nodup i) hsplit hparent hp

end Table

/-- Of the loop: `done` has been stored, `todo` is still below the container. -/
theorem rowsLoop_spec (T : Table) {i : ℕ} {m : Member} (hm : T.members[i]? = some m)
    (hdg : m.digests.isSome) {after : List ℕ} (hafter : ∀ y ∈ after.head?, T.depthOf y ≤ m.depth)
    (hrange : ∀ y ∈ after, y < T.members.length) (todo : List ℕ) :
    ∀ (done : List ℕ) (localOf : ℕ → Option ℕ) (rows : List CachedMember),
      T.below i = done ++ todo → rows.length = done.length →
      (∀ x ∈ done, localOf x = some ((T.below i).idxOf x)) →
      ∃ new, rowsLoop T.members i m.depth (byteLen m.path + 1) (todo ++ after) localOf rows
          = some (rows ++ new)
        ∧ List.Forall₂ (fun k row => IsRow T m k (T.localParent i k) row) todo new := by
  induction todo with
  | nil =>
    intro done localOf rows _ _ _
    refine ⟨[], ?_, .nil⟩
    rw [List.nil_append, List.append_nil]
    cases after with
    | nil => rfl
    | cons y after =>
      have hle : T.depthOf y ≤ m.depth := hafter y rfl
      have hlt : y < T.members.length := hrange y List.mem_cons_self
      have hy : T.members[y]? = some T.members[y] := List.getElem?_eq_getElem hlt
      rw [Table.depthOf, hy] at hle
      simp only [Option.map_some, Option.getD_some] at hle
      rw [rowsLoop, hy]
      simp only
      rw [if_neg (by omega)]
  | cons k todo ih =>
    intro done localOf rows hsplit hlength hlocal
    have hk : T.Below k i := T.mem_below.mp (by rw [hsplit]; simp)
    obtain ⟨n, hn, hfs, hname, hdepth⟩ := T.nested_of_below hm hdg hk
    obtain ⟨nd, hnd⟩ := Option.isSome_iff_exists.mp (T.hashed k n hn hfs).1
    have hnodup := T.below_nodup i
    -- the new member's row number is its place in tree order
    have hidx : (T.below i).idxOf k = rows.length := by
      rw [hsplit, List.nodup_append] at hnodup
      have hnot : k ∉ done := fun hmem => hnodup.2.2 k hmem k List.mem_cons_self rfl
      rw [hsplit, List.idxOf_append_of_notMem hnot, List.idxOf_cons_self, hlength, Nat.add_zero]
    have hlocal' : ∀ x ∈ done ++ [k],
        Function.update localOf k (some rows.length) x = some ((T.below i).idxOf x) := by
      intro x hx
      by_cases hxk : x = k
      · subst hxk
        rw [Function.update_self, hidx]
      · rw [Function.update_of_ne hxk]
        apply hlocal
        simpa [hxk] using hx
    have hparent : localParent i (Function.update localOf k (some rows.length)) n.parent
        = some (T.localParent i k) := by
      have hpk : parentOf T.members k = n.parent := by rw [parentOf, hn, Option.bind_some]
      rw [Table.localParent, hpk]
      cases hp : n.parent with
      | none => rfl
      | some p =>
        rw [hp] at hpk
        rw [localParent, Option.bind_some]
        by_cases hpi : p = i
        · rw [if_pos hpi, if_pos hpi]
        · have hmem := T.parent_before hsplit hpk hpi
          rw [if_neg hpi, if_neg hpi, hlocal' p (List.mem_append_left _ hmem), Option.map_some]
    obtain ⟨new, hrun, hrows⟩ := ih (done ++ [k]) (Function.update localOf k (some rows.length))
      (rows ++ [cachedMember m.depth (byteLen m.path + 1) n nd (T.localParent i k)])
      (by rw [hsplit]; simp) (by simp [hlength]) hlocal'
    refine ⟨_ :: new, ?_, .cons ⟨n, nd, hn, hfs, hnd, rfl, hname, hdepth⟩ hrows⟩
    rw [List.cons_append, rowsLoop, hn]
    simp only
    rw [if_pos hdepth, hnd]
    simp only
    rw [hparent]
    simp only
    rw [hrun]
    simp

/-- **The rows of a container are those of the members below it.** -/
theorem containerRows_spec (T : Table) {i : ℕ} {m : Member} (hm : T.members[i]? = some m)
    (hdg : m.digests.isSome) :
    ∃ rows, containerRows T.members i = some rows
      ∧ List.Forall₂ (fun k row => IsRow T m k (T.localParent i k) row) (T.below i) rows := by
  obtain ⟨hi, _⟩ := List.getElem?_eq_some_iff.mp hm
  obtain ⟨before, after, hsplit, hafter⟩ := T.treeOrder_split hi
  have hnodup : (treeOrder T.members).Nodup := (treeOrder_perm T).nodup_iff.mpr List.nodup_range
  have hdrop : (treeOrder T.members).drop ((treeOrder T.members).idxOf i + 1)
      = T.below i ++ after := by
    rw [hsplit, List.append_assoc, List.nodup_append] at hnodup
    have hnot : i ∉ before := fun hmem => hnodup.2.2 i hmem i List.mem_cons_self rfl
    rw [hsplit, List.append_assoc, List.idxOf_append_of_notMem hnot]
    simp [List.drop_append]
  have hdepth : T.depthOf i = m.depth := by simp [Table.depthOf, hm]
  obtain ⟨rows, hrun, hrows⟩ := rowsLoop_spec T hm hdg (by rwa [hdepth] at hafter)
    (fun y hy => List.mem_range.mp ((treeOrder_perm T).mem_iff.mp (by rw [hsplit]; simp [hy])))
    (T.below i) [] (fun _ => none) [] rfl rfl (by simp)
  refine ⟨rows, ?_, hrows⟩
  rw [containerRows, hm]
  show rowsLoop _ _ _ _ ((treeOrder T.members).drop _) _ _ = _
  rw [hdrop, hrun, List.nil_append]

/-! ### The replay -/

/-- A member of the first table and what is replayed of it: it continues the other container's path and
depth, and hangs under what was replayed of its parent. -/
structure Replays (m n : Member) (basePath : List Char) (baseDepth : ℕ) (parent : Option ℕ)
    (n' : Member) : Prop where
  path : ∃ rel, n.path = m.path ++ '!' :: rel ∧ n'.path = basePath ++ '!' :: rel
  depth : ∃ d, n.depth = m.depth + d ∧ n'.depth = baseDepth + d
  parent : n'.parent = parent
  ord : n'.ord = n.ord
  kind : n'.kind = n.kind
  size : n'.size = n.size
  fs : n'.fs = n.fs
  digests : n'.digests = n.digests
  children : n'.children = n.children
  note : n'.note = n.note

/-- Where the container's members go: it has its slot already, they are given theirs in tree order. -/
def Table.slotOf (T : Table) (i containerSlot : ℕ) (reserve : ℕ → ℕ) (x : ℕ) : ℕ :=
  if x = i then containerSlot else reserve ((T.below i).idxOf x)

theorem IsRow.replays {T : Table} {i k : ℕ} {m : Member} {row : CachedMember}
    (h : IsRow T m k (T.localParent i k) row) (probe : Bytes → Bytes → List String) (basePath : List Char) (baseDepth containerSlot : ℕ) (reserve : ℕ → ℕ) (parent : ℕ)
    (hparent : (parentOf T.members k).map (T.slotOf i containerSlot reserve) = some parent) :
    ∃ n, T.members[k]? = some n ∧ Replays m n basePath baseDepth
      (n.parent.map (T.slotOf i containerSlot reserve))
      (replayedMember probe basePath baseDepth row parent) := by
  obtain ⟨n, nd, hn, hfs, hnd, hrow, ⟨name, hname⟩, hdepth⟩ := h.member
  subst hrow
  have hpk : parentOf T.members k = n.parent := by rw [parentOf, hn, Option.bind_some]
  obtain ⟨_, kind, hkind⟩ := T.hashed k n hn hfs
  refine ⟨n, hn, ?_⟩
  constructor
  · refine ⟨name, hname, ?_⟩
    show basePath ++ '!' :: (getFrom n.path _).getD [] = _
    rw [hname, getFrom_child]
    rfl
  · refine ⟨n.depth - m.depth, by omega, rfl⟩
  · rw [← hpk, hparent]
    rfl
  · rfl
  · show internLabel n.kind = n.kind
    rw [hkind, internLabel_label]
  · rfl
  · rw [hfs]
    rfl
  · rw [hnd]
    rfl
  · rfl
  · rfl

/-- What is replayed of the member `k`. -/
def IsReplayed (T : Table) (m : Member) (basePath : List Char) (baseDepth : ℕ)
    (slotOf : ℕ → ℕ) (k : ℕ) (x : ℕ × Member) : Prop :=
  x.1 = slotOf k ∧ ∃ n, T.members[k]? = some n
    ∧ Replays m n basePath baseDepth (n.parent.map slotOf) x.2

theorem materializeCached_loop (T : Table) {i : ℕ} {m : Member} (probe : Bytes → Bytes → List String)
    (reserve : ℕ → ℕ) (containerSlot : ℕ) (basePath : List Char) (baseDepth : ℕ) {todo : List ℕ}
    {rows : List CachedMember}
    (hrows : List.Forall₂ (fun k row => IsRow T m k (T.localParent i k) row) todo rows) :
    ∀ (done : List ℕ), T.below i = done ++ todo →
      ∃ replayed, materializeCached probe reserve containerSlot basePath baseDepth rows
          ((List.range done.length).map reserve) = some replayed
        ∧ List.Forall₂ (IsReplayed T m basePath baseDepth (T.slotOf i containerSlot reserve)) todo
            replayed := by
  induction hrows with
  | nil =>
    intro done _
    exact ⟨[], rfl, .nil⟩
  | @cons k row todo rows hrow _ ih =>
    intro done hsplit
    have hk : T.Below k i := T.mem_below.mp (by rw [hsplit]; simp)
    have hnodup := T.below_nodup i
    have hki : k ≠ i := by
      intro heq
      rw [heq] at hk
      exact T.not_mem_below i (T.mem_below.mpr hk)
    have hidx : ∀ x ∈ done ++ [k], (T.below i).idxOf x = (done ++ [k]).idxOf x := by
      intro x hx
      rw [hsplit, List.append_cons]
      exact List.idxOf_append_of_mem hx
    rw [hsplit, List.nodup_append] at hnodup
    have hnot : k ∉ done := fun hmem => hnodup.2.2 k hmem k List.mem_cons_self rfl
    have hslot : T.slotOf i containerSlot reserve k = reserve done.length := by
      rw [Table.slotOf, if_neg hki, hidx k (by simp), List.idxOf_append_of_notMem hnot]
      simp
    -- the parent has been replayed before
    have hparent : ∃ parent, (parentOf T.members k).map (T.slotOf i containerSlot reserve) = some parent
        ∧ (match row.parent with
          | some p => ((List.range done.length).map reserve)[p]?
          | none => some containerSlot) = some parent := by
      obtain ⟨n, nd, _, _, _, hrow, _, _⟩ := hrow.member
      have hp : row.parent = T.localParent i k := by rw [hrow]; rfl
      rw [hp, Table.localParent]
      cases Relation.TransGen.head'_iff.mp hk with
      | intro p hp =>
        obtain ⟨hkp, _⟩ := hp
        rw [hkp, Option.bind_some, Option.map_some]
        refine ⟨_, rfl, ?_⟩
        by_cases hpi : p = i
        · rw [if_pos hpi, Table.slotOf, if_pos hpi]
        · have hmem := T.parent_before hsplit hkp hpi
          have hlt : (T.below i).idxOf p < done.length := by
            rw [hsplit, List.idxOf_append_of_mem hmem]
            exact List.idxOf_lt_length_of_mem hmem
          rw [if_neg hpi, Table.slotOf, if_neg hpi]
          simp [hlt]
    obtain ⟨parent, hmap, hmatch⟩ := hparent
    obtain ⟨n, hn, hreplays⟩ := hrow.replays probe basePath baseDepth containerSlot reserve parent hmap
    obtain ⟨replayed, hrun, hall⟩ := ih (done ++ [k]) (by rw [hsplit]; simp)
    refine ⟨(reserve done.length, replayedMember probe basePath baseDepth row parent) :: replayed, ?_,
      .cons ⟨hslot.symm, n, hn, hreplays⟩ hall⟩
    rw [List.length_append, List.length_singleton, List.range_succ, List.map_append,
      List.map_singleton] at hrun
    rw [materializeCached]
    simp only [List.length_map, List.length_range]
    rw [hmatch]
    simp only
    rw [hrun, Option.map_some]

/-- **The replay gives each member below the container its slot.** -/
theorem materializeCached_spec (T : Table) {i : ℕ} {m : Member} {rows : List CachedMember}
    (hrows : List.Forall₂ (fun k row => IsRow T m k (T.localParent i k) row) (T.below i) rows)
    (probe : Bytes → Bytes → List String) (reserve : ℕ → ℕ) (containerSlot : ℕ) (basePath : List Char)
    (baseDepth : ℕ) :
    ∃ replayed, materializeCached probe reserve containerSlot basePath baseDepth rows [] = some replayed
      ∧ List.Forall₂ (IsReplayed T m basePath baseDepth (T.slotOf i containerSlot reserve))
          (T.below i) replayed :=
  materializeCached_loop T probe reserve containerSlot basePath baseDepth hrows [] rfl

/-! ### The same subtree -/

/-- The replayed members in a finished table: `compact_members` keeps the order of their slots, and has
each point to where its parent went.  Nothing else was put under the container. -/
structure Settles (place : ℕ → ℕ) (containerSlot : ℕ) (replayed : List (ℕ × Member)) (T : Table) :
    Prop where
  mono : ∀ s ∈ containerSlot :: replayed.map Prod.fst, ∀ t ∈ containerSlot :: replayed.map Prod.fst,
    s < t → place s < place t
  kept : ∀ x ∈ replayed, T.members[place x.1]? = some { x.2 with parent := x.2.parent.map place }
  only : ∀ j, ∀ s ∈ containerSlot :: replayed.map Prod.fst, parentOf T.members j = some (place s) →
    ∃ x ∈ replayed, j = place x.1

/-- Below `f i` in the second table there is what is below `i` in the first, in the same order, and
nothing else. -/
structure SameSubtree (T : Table) (i : ℕ) (m : Member) (T' : Table) (basePath : List Char)
    (baseDepth : ℕ) (f : ℕ → ℕ) : Prop where
  injective : ∀ x ∈ i :: T.below i, ∀ y ∈ i :: T.below i, f x = f y → x = y
  order : T'.below (f i) = (T.below i).map f
  members : ∀ x ∈ T.below i, ∃ n n', T.members[x]? = some n ∧ T'.members[f x]? = some n'
    ∧ Replays m n basePath baseDepth (n.parent.map f) n'

theorem pairwise_idxOf {l : List ℕ} (h : l.Nodup) : l.Pairwise fun x y => l.idxOf x < l.idxOf y := by
  rw [List.pairwise_iff_getElem]
  intro a b ha hb hab
  rw [h.idxOf_getElem, h.idxOf_getElem]
  exact hab

/-- Two lists that grow, with the same elements. -/
theorem eq_of_mem_iff {l l' : List ℕ} (h : l.Pairwise (· < ·)) (h' : l'.Pairwise (· < ·))
    (hmem : ∀ x, x ∈ l ↔ x ∈ l') : l = l' := by
  have hperm : l.Perm l' := (List.perm_ext_iff_of_nodup (h.imp fun hlt => Nat.ne_of_lt hlt)
    (h'.imp fun hlt => Nat.ne_of_lt hlt)).mpr hmem
  apply hperm.eq_of_pairwise _ h h'
  intro a b _ _ hab hba
  omega

theorem forall₂_left {α β : Type} {R : α → β → Prop} {l : List α} {l' : List β}
    (h : List.Forall₂ R l l') {a : α} (ha : a ∈ l) : ∃ b ∈ l', R a b := by
  induction h with
  | nil => cases ha
  | cons hab _ ih =>
    cases ha with
    | head => exact ⟨_, List.mem_cons_self, hab⟩
    | tail _ ha =>
      obtain ⟨b, hb, hR⟩ := ih ha
      exact ⟨b, List.mem_cons_of_mem _ hb, hR⟩

section Settled

variable {T T' : Table} {i : ℕ} {m : Member} {reserve : ℕ → ℕ} {containerSlot : ℕ}
variable {basePath : List Char} {baseDepth : ℕ} {place : ℕ → ℕ} {replayed : List (ℕ × Member)}
variable (hall : List.Forall₂ (IsReplayed T m basePath baseDepth (T.slotOf i containerSlot reserve))
  (T.below i) replayed)
include hall

theorem replayed_slots :
    containerSlot :: replayed.map Prod.fst = (i :: T.below i).map (T.slotOf i containerSlot reserve) := by
  have hslots : ∀ {l : List ℕ} {l' : List (ℕ × Member)},
      List.Forall₂ (IsReplayed T m basePath baseDepth (T.slotOf i containerSlot reserve)) l l' →
        l'.map Prod.fst = l.map (T.slotOf i containerSlot reserve) := by
    intro l l' h
    induction h with
    | nil => rfl
    | cons hx _ ih => rw [List.map_cons, List.map_cons, hx.1, ih]
  rw [hslots hall, List.map_cons, Table.slotOf, if_pos rfl]

variable (h : Settles place containerSlot replayed T')
include h

/-- Where the replay of a member is. -/
theorem Settles.member {k : ℕ} (hk : k ∈ T.below i) :
    ∃ n n', T.members[k]? = some n
      ∧ T'.members[(place ∘ T.slotOf i containerSlot reserve) k]? = some n'
      ∧ Replays m n basePath baseDepth
          (n.parent.map (place ∘ T.slotOf i containerSlot reserve)) n' := by
  obtain ⟨x, hx, hslot, n, hn, hr⟩ := forall₂_left hall hk
  have hkept := h.kept x hx
  rw [hslot] at hkept
  refine ⟨n, _, hn, hkept, ?_⟩
  exact ⟨hr.path, hr.depth, by rw [← Option.map_map, ← hr.parent], hr.ord, hr.kind, hr.size, hr.fs,
    hr.digests, hr.children, hr.note⟩

variable (hreserve : StrictMono reserve) (hslot : ∀ k, containerSlot < reserve k)
include hreserve hslot

/-- The members below the container grow as those of the first table stand in tree order. -/
theorem Settles.pairwise : (i :: T.below i).Pairwise fun x y =>
    (place ∘ T.slotOf i containerSlot reserve) x < (place ∘ T.slotOf i containerSlot reserve) y := by
  have hslots : (i :: T.below i).Pairwise fun x y =>
      T.slotOf i containerSlot reserve x < T.slotOf i containerSlot reserve y := by
    have hne : ∀ x ∈ T.below i, x ≠ i := by
      intro x hx heq
      exact T.not_mem_below i (heq ▸ hx)
    rw [List.pairwise_cons]
    constructor
    · intro x hx
      rw [Table.slotOf, Table.slotOf, if_pos rfl, if_neg (hne x hx)]
      exact hslot _
    · refine (pairwise_idxOf (T.below_nodup i)).imp_of_mem fun {x y} hx hy hlt => ?_
      rw [Table.slotOf, Table.slotOf, if_neg (hne x hx), if_neg (hne y hy)]
      exact hreserve hlt
  refine hslots.imp_of_mem fun {x y} hx hy hlt => h.mono _ ?_ _ ?_ hlt
  · rw [replayed_slots hall]
    exact List.mem_map_of_mem hx
  · rw [replayed_slots hall]
    exact List.mem_map_of_mem hy

theorem Settles.injective {x y : ℕ} (hx : x ∈ i :: T.below i) (hy : y ∈ i :: T.below i)
    (hxy : (place ∘ T.slotOf i containerSlot reserve) x = (place ∘ T.slotOf i containerSlot reserve) y) :
    x = y := by
  have hnodup : ((i :: T.below i).map (place ∘ T.slotOf i containerSlot reserve)).Nodup := by
    rw [List.Nodup, List.pairwise_map]
    exact (h.pairwise hall hreserve hslot).imp fun hlt => Nat.ne_of_lt hlt
  exact List.inj_on_of_nodup_map hnodup hx hy hxy

theorem Settles.kids {x : ℕ} (hx : x ∈ i :: T.below i) :
    T'.forest.kids ((place ∘ T.slotOf i containerSlot reserve) x)
      = (T.forest.kids x).map (place ∘ T.slotOf i containerSlot reserve) := by
  have hpair := h.pairwise hall hreserve hslot
  have hbelow : ∀ k ∈ T.forest.kids x, k ∈ T.below i := by
    intro k hk
    exact T.kid_mem hx ((T.forest.mem_kids k x).mp hk)
  have hgrow : ((T.forest.kids x).map (place ∘ T.slotOf i containerSlot reserve)).Pairwise (· < ·) := by
    rw [List.pairwise_map]
    exact hpair.sublist (T.kids_sublist hx)
  have hparent : ∀ k ∈ T.below i,
      parentOf T'.members ((place ∘ T.slotOf i containerSlot reserve) k)
        = (parentOf T.members k).map (place ∘ T.slotOf i containerSlot reserve) := by
    intro k hk
    obtain ⟨n, n', hn, hn', hr⟩ := h.member hall hk
    rw [parentOf, parentOf, hn, hn', Option.bind_some, Option.bind_some, hr.parent]
  -- the children of the replay are the replays of the children
  have hmem : ∀ j, j ∈ kidsOf T'.members (some ((place ∘ T.slotOf i containerSlot reserve) x))
      ↔ j ∈ (T.forest.kids x).map (place ∘ T.slotOf i containerSlot reserve) := by
    intro j
    rw [mem_kidsOf, ← parentOf_eq_some, List.mem_map]
    constructor
    · intro hj
      have hxs : T.slotOf i containerSlot reserve x ∈ containerSlot :: replayed.map Prod.fst := by
        rw [replayed_slots hall]
        exact List.mem_map_of_mem hx
      obtain ⟨y, hy, rfl⟩ := h.only j _ hxs hj
      have hys : y.1 ∈ (T.below i).map (T.slotOf i containerSlot reserve) := by
        have hslots := replayed_slots hall
        rw [List.map_cons, List.cons.injEq] at hslots
        rw [← hslots.2]
        exact List.mem_map_of_mem hy
      obtain ⟨k, hk, hky⟩ := List.mem_map.mp hys
      rw [← hky] at hj ⊢
      refine ⟨k, ?_, rfl⟩
      have hkp := hparent k hk
      rw [Function.comp_apply, hj] at hkp
      obtain ⟨p, hp, hpx⟩ := Option.map_eq_some_iff.mp hkp.symm
      have hpmem : p ∈ i :: T.below i := List.mem_cons.mpr (T.parent_mem hk hp)
      have heq := h.injective hall hreserve hslot hpmem hx hpx
      rw [T.forest.mem_kids]
      exact heq ▸ hp
    · intro hj
      obtain ⟨k, hk, rfl⟩ := hj
      rw [hparent k (hbelow k hk), show parentOf T.members k = some x from (T.forest.mem_kids k x).mp hk]
      rfl
  have hord : ∀ k ∈ T.below i, ordOf T'.members ((place ∘ T.slotOf i containerSlot reserve) k)
      = ordOf T.members k := by
    intro k hk
    obtain ⟨n, n', hn, hn', hr⟩ := h.member hall hk
    rw [ordOf, ordOf, hn, hn', Option.map_some, Option.map_some, hr.ord]
  show sortKids T'.members (kidsOf T'.members _) = _
  rw [eq_of_mem_iff (kidsOf_pairwise T'.members _) hgrow hmem]
  apply List.Pairwise.insertionSort_eq
  rw [List.pairwise_map]
  refine (sortKids_pairwise T.members (kidsOf T.members (some x))).imp_of_mem fun {a b} ha hb hle => ?_
  rw [hord a (hbelow a ha), hord b (hbelow b hb)]
  exact hle

end Settled

/-- **A finished table has the replayed members below the container, as the first table had them.** -/
theorem sameSubtree_of_settles {T T' : Table} {i : ℕ} {m : Member} {reserve : ℕ → ℕ}
    {containerSlot : ℕ} {basePath : List Char} {baseDepth : ℕ} {place : ℕ → ℕ}
    {replayed : List (ℕ × Member)}
    (hall : List.Forall₂ (IsReplayed T m basePath baseDepth (T.slotOf i containerSlot reserve))
      (T.below i) replayed)
    (h : Settles place containerSlot replayed T') (hreserve : StrictMono reserve)
    (hslot : ∀ k, containerSlot < reserve k) :
    SameSubtree T i m T' basePath baseDepth (place ∘ T.slotOf i containerSlot reserve) where
  injective x hx y hy hxy := h.injective hall hreserve hslot hx hy hxy
  order := by
    have htree : T'.forest.tree ((place ∘ T.slotOf i containerSlot reserve) i)
        = (T.forest.tree i).map (place ∘ T.slotOf i containerSlot reserve) := by
      apply Forest.tree_map
      intro x hx
      rw [T.tree_eq] at hx
      exact h.kids hall hreserve hslot hx
    rw [T'.tree_eq, T.tree_eq, List.map_cons, List.cons.injEq] at htree
    exact htree.2
  members x hx := h.member hall hx

/-! ### Replaying into a table -/

/-- The replay of what is below `i`, at the end of a table. -/
theorem replayed_getElem? {T : Table} {i : ℕ} {m : Member} {base containerSlot : ℕ}
    {basePath : List Char} {baseDepth : ℕ} {replayed : List (ℕ × Member)}
    (hall : List.Forall₂ (IsReplayed T m basePath baseDepth
      (T.slotOf i containerSlot fun k => base + k)) (T.below i) replayed)
    {old : List Member} (hbase : old.length = base) {j : ℕ} {x : ℕ × Member}
    (hx : replayed[j]? = some x) :
    x.1 = base + j ∧ (old ++ replayed.map Prod.snd)[x.1]? = some x.2
      ∧ ∃ k ∈ T.below i, IsReplayed T m basePath baseDepth
          (T.slotOf i containerSlot fun k => base + k) k x := by
  obtain ⟨hj, hget⟩ := List.getElem?_eq_some_iff.mp hx
  have hj' : j < (T.below i).length := by rw [hall.length_eq]; exact hj
  have hrel := hall.get hj' hj
  have hmem : (T.below i)[j] ∈ T.below i := List.getElem_mem hj'
  have hne : (T.below i)[j] ≠ i := by
    intro heq
    rw [heq] at hmem
    exact T.not_mem_below i hmem
  have hslot : x.1 = base + j := by
    have h := hrel.1
    simp only [List.get_eq_getElem, hget] at h
    rw [h, Table.slotOf, if_neg hne, (T.below_nodup i).idxOf_getElem]
  refine ⟨hslot, ?_, (T.below i)[j], hmem, ?_⟩
  · rw [hslot, List.getElem?_append_right (by omega), List.getElem?_map, ← hbase,
      Nat.add_sub_cancel_left, hx, Option.map_some]
  · simpa only [List.get_eq_getElem, hget] using hrel

section Extended

variable {T T₀ : Table} {i c : ℕ} {m m₀ : Member} {replayed : List (ℕ × Member)}

/-- What is replayed at the end of a table, and what it hangs under. -/
theorem replayed_parent (hm : T.members[i]? = some m) (hm₀ : T₀.members[c]? = some m₀)
    (hdg : m.digests.isSome)
    (hall : List.Forall₂ (IsReplayed T m m₀.path m₀.depth
      (T.slotOf i c fun k => T₀.members.length + k)) (T.below i) replayed)
    {j : ℕ} {x : ℕ × Member} (hx : replayed[j]? = some x) :
    x.2.fs = false ∧ x.2.digests.isSome ∧ (∃ kind : Descent.Kind, x.2.kind = kind.label)
      ∧ ∃ p q name, x.2.parent = some p ∧ p < x.1
        ∧ (T₀.members ++ replayed.map Prod.snd)[p]? = some q
        ∧ x.2.depth = q.depth + 1 ∧ x.2.path = q.path ++ '!' :: name := by
  obtain ⟨hslot, hget, k, hk, hxk, n, hn, hr⟩ := replayed_getElem? hall rfl hx
  have hkb := T.mem_below.mp hk
  obtain ⟨n', hn', hfs, _, _⟩ := T.nested_of_below hm hdg hkb
  rw [hn, Option.some.injEq] at hn'
  subst hn'
  obtain ⟨hhashed, hkind⟩ := T.hashed k n hn hfs
  refine ⟨by rw [hr.fs, hfs], by rw [hr.digests]; exact hhashed, by rw [hr.kind]; exact hkind, ?_⟩
  obtain ⟨p, hp, _⟩ := Relation.TransGen.head'_iff.mp hkb
  obtain ⟨n', hn', hparent⟩ := parentOf_eq_some.mp hp
  rw [hn, Option.some.injEq] at hn'
  subst hn'
  have hxparent : x.2.parent = some (T.slotOf i c (fun k => T₀.members.length + k) p) := by
    rw [hr.parent, hparent, Option.map_some]
  obtain ⟨rel, hrel, hxrel⟩ := hr.path
  obtain ⟨d, hd, hxd⟩ := hr.depth
  obtain ⟨_, q, hq, hdepth⟩ := T.parent k n p hn hparent
  obtain ⟨name, hname⟩ := T.path k n p q hn hfs hparent hq
  obtain ⟨hc, _⟩ := List.getElem?_eq_some_iff.mp hm₀
  by_cases hpi : p = i
  · -- under the container
    rw [hpi, hm, Option.some.injEq] at hq
    subst hq
    rw [hrel] at hname
    refine ⟨_, m₀, rel, hxparent, ?_, ?_, by omega, hxrel⟩
    · rw [Table.slotOf, if_pos hpi]
      omega
    · rw [Table.slotOf, if_pos hpi, List.getElem?_append_left hc, hm₀]
  · -- under a member that was replayed before
    have hpmem := (T.parent_mem hk hp).resolve_left hpi
    obtain ⟨y, hy, hyp⟩ := forall₂_left hall hpmem
    obtain ⟨b, hb, hyb⟩ := List.mem_iff_getElem.mp hy
    have hyb' : replayed[b]? = some y := by rw [List.getElem?_eq_getElem hb, hyb]
    obtain ⟨_, hyget, _⟩ := replayed_getElem? hall rfl hyb'
    obtain ⟨hyslot, nq, hnq, hrq⟩ := hyp
    rw [hq, Option.some.injEq] at hnq
    subst hnq
    obtain ⟨relq, hrelq, hyrel⟩ := hrq.path
    obtain ⟨dq, hdq, hyd⟩ := hrq.depth
    refine ⟨_, y.2, name, hxparent, ?_, ?_, by omega, ?_⟩
    · obtain ⟨before, after, hsplit⟩ := List.append_of_mem hk
      have hbefore := T.parent_before hsplit hp hpi
      have hnodup := T.below_nodup i
      rw [hsplit, List.nodup_append] at hnodup
      have hnot : k ∉ before := fun hmem => hnodup.2.2 k hmem k List.mem_cons_self rfl
      have hki : k ≠ i := by
        intro heq
        rw [heq] at hk
        exact T.not_mem_below i hk
      rw [hxk, Table.slotOf, Table.slotOf, if_neg hpi, if_neg hki, hsplit,
        List.idxOf_append_of_mem hbefore, List.idxOf_append_of_notMem hnot]
      have hlt := List.idxOf_lt_length_of_mem hbefore
      omega
    · rw [← hyslot]
      exact hyget
    · rw [hrel, hrelq, List.append_assoc, List.append_cancel_left_eq] at hname
      rw [List.cons_append, List.cons.injEq] at hname
      rw [hxrel, hyrel, hname.2]
      simp

theorem mem_extended
    (hall : List.Forall₂ (IsReplayed T m m₀.path m₀.depth
      (T.slotOf i c fun k => T₀.members.length + k)) (T.below i) replayed)
    {j : ℕ} {n : Member} (hn : (T₀.members ++ replayed.map Prod.snd)[j]? = some n) :
    T₀.members[j]? = some n
      ∨ ∃ (b : ℕ) (x : ℕ × Member), replayed[b]? = some x ∧ x.1 = j ∧ x.2 = n := by
  by_cases hj : j < T₀.members.length
  · rw [List.getElem?_append_left hj] at hn
    exact .inl hn
  · rw [List.getElem?_append_right (by omega), List.getElem?_map, Option.map_eq_some_iff] at hn
    obtain ⟨x, hx, rfl⟩ := hn
    obtain ⟨hslot, _⟩ := replayed_getElem? hall rfl hx
    exact .inr ⟨_, x, hx, by omega, rfl⟩

/-- **A replay keeps a table a table.** -/
theorem exists_replayed_table (hm : T.members[i]? = some m) (hdg : m.digests.isSome)
    (hm₀ : T₀.members[c]? = some m₀) (hleaf : ∀ j, parentOf T₀.members j ≠ some c)
    (hall : List.Forall₂ (IsReplayed T m m₀.path m₀.depth
      (T.slotOf i c fun k => T₀.members.length + k)) (T.below i) replayed) :
    ∃ T' : Table, T'.members = T₀.members ++ replayed.map Prod.snd ∧ Settles id c replayed T' := by
  have hnew := fun {j : ℕ} {x : ℕ × Member} => replayed_parent hm hm₀ hdg hall (j := j) (x := x)
  have hcases := fun {j : ℕ} {n : Member} => mem_extended hall (j := j) (n := n)
  have hold : ∀ {p : ℕ} {q : Member}, T₀.members[p]? = some q →
      (T₀.members ++ replayed.map Prod.snd)[p]? = some q := by
    intro p q hq
    obtain ⟨hp, _⟩ := List.getElem?_eq_some_iff.mp hq
    rw [List.getElem?_append_left hp, hq]
  have hparent : ∀ (j : ℕ) (n : Member) (p : ℕ),
      (T₀.members ++ replayed.map Prod.snd)[j]? = some n → n.parent = some p →
      p < j ∧ ∃ q : Member, (T₀.members ++ replayed.map Prod.snd)[p]? = some q
        ∧ n.depth = q.depth + 1 := by
    intro j n p hn hp
    cases hcases hn with
    | inl hn =>
      obtain ⟨hlt, q, hq, hdepth⟩ := T₀.parent j n p hn hp
      exact ⟨hlt, q, hold hq, hdepth⟩
    | inr hx =>
      obtain ⟨b, x, hx, rfl, rfl⟩ := hx
      obtain ⟨_, _, _, p', q, _, hp', hlt, hq, hdepth, _⟩ := hnew hx
      rw [hp, Option.some.injEq] at hp'
      subst hp'
      exact ⟨hlt, q, hq, hdepth⟩
  let T' : Table :=
    { members := T₀.members ++ replayed.map Prod.snd
      parent := hparent
      root := by
        intro j n hn hp
        cases hcases hn with
        | inl hn => exact T₀.root j n hn hp
        | inr hx =>
          obtain ⟨b, x, hx, rfl, rfl⟩ := hx
          obtain ⟨_, _, _, p', _, _, hp', _⟩ := hnew hx
          rw [hp] at hp'
          cases hp'
      path := by
        intro j n p q hn hfs hp hq
        cases hcases hn with
        | inl hn =>
          obtain ⟨_, q', hq', _⟩ := T₀.parent j n p hn hp
          have hqq := (hold hq').symm.trans hq
          rw [Option.some.injEq] at hqq
          subst hqq
          exact T₀.path j n p q' hn hfs hp hq'
        | inr hx =>
          obtain ⟨b, x, hx, rfl, rfl⟩ := hx
          obtain ⟨_, _, _, p', q', name, hp', _, hq', _, hname⟩ := hnew hx
          rw [hp, Option.some.injEq] at hp'
          subst hp'
          rw [hq, Option.some.injEq] at hq'
          subst hq'
          exact ⟨name, hname⟩
      hashed := by
        intro j n hn hfs
        cases hcases hn with
        | inl hn => exact T₀.hashed j n hn hfs
        | inr hx =>
          obtain ⟨b, x, hx, rfl, rfl⟩ := hx
          obtain ⟨_, hhashed, hkind, _⟩ := hnew hx
          exact ⟨hhashed, hkind⟩
      nested := by
        intro j n p q hn hp hq hqdg
        cases hcases hn with
        | inl hn =>
          obtain ⟨_, q', hq', _⟩ := T₀.parent j n p hn hp
          have hqq := (hold hq').symm.trans hq
          rw [Option.some.injEq] at hqq
          subst hqq
          exact T₀.nested j n p q' hn hp hq' hqdg
        | inr hx =>
          obtain ⟨b, x, hx, rfl, rfl⟩ := hx
          exact (hnew hx).1 }
  refine ⟨T', rfl, ?_⟩
  constructor
  · intro s _ t _ hst
    exact hst
  · intro x hx
    obtain ⟨b, hb, hget⟩ := List.mem_iff_getElem.mp hx
    have hx' : replayed[b]? = some x := by rw [List.getElem?_eq_getElem hb, hget]
    obtain ⟨_, hget, _⟩ := replayed_getElem? hall rfl hx'
    show (T₀.members ++ replayed.map Prod.snd)[x.1]? = _
    rw [hget, Option.map_id, id]
  · intro j s hs hj
    obtain ⟨n, hn, hp⟩ := parentOf_eq_some.mp hj
    cases hcases hn with
    | inl hn =>
      obtain ⟨hi, _⟩ := List.getElem?_eq_some_iff.mp hn
      have hj₀ : parentOf T₀.members j = some s := parentOf_eq_some.mpr ⟨n, hn, hp⟩
      cases List.mem_cons.mp hs with
      | inl heq =>
        rw [heq] at hj₀
        exact absurd hj₀ (hleaf j)
      | inr hs =>
        -- a replayed member's slot is beyond the old table
        obtain ⟨x, hx, rfl⟩ := List.mem_map.mp hs
        obtain ⟨b, hb, hget⟩ := List.mem_iff_getElem.mp hx
        have hx' : replayed[b]? = some x := by rw [List.getElem?_eq_getElem hb, hget]
        obtain ⟨hslot, _⟩ := replayed_getElem? hall rfl hx'
        obtain ⟨hlt, _⟩ := T₀.parentOf_lt hj₀
        omega
    | inr hx =>
      obtain ⟨b, x, hx, hxj, _⟩ := hx
      exact ⟨x, List.mem_of_getElem? hx, hxj.symm⟩

end Extended

/-- **The member cache round trip.** The order of a finished table has each member once, and what is
below it right after it.  For any member with a digest, the rows stored come back as they were, and
replayed under any path, depth and slots they end up, in any finished table, as the same subtree. -/
theorem replay_round_trip (T : Table) (i : ℕ) (m : Member) (dg : Digests)
    (hm : T.members[i]? = some m) (hdg : m.digests = some dg) :
    (treeOrder T.members).Perm (List.range T.members.length)
      ∧ (∀ x < T.members.length, ∃ before after,
          treeOrder T.members = before ++ x :: T.below x ++ after)
      ∧ (∀ x y, y ∈ T.below x ↔ T.Below y x)
      ∧ ∃ rows, containerRows T.members i = some rows
        ∧ (∀ (ix : LocalIndex) (descent : ℤ),
            (ix.storeContainer dg.sha256 descent (container m) rows).loadContainer dg.sha256 descent
              = some (container m, rows))
        ∧ ∀ (probe : Bytes → Bytes → List String) (reserve : ℕ → ℕ) (containerSlot : ℕ)
            (basePath : List Char) (baseDepth : ℕ),
            StrictMono reserve → (∀ k, containerSlot < reserve k) →
            ∃ replayed,
              materializeCached probe reserve containerSlot basePath baseDepth rows [] = some replayed
              ∧ ∀ (T' : Table) (place : ℕ → ℕ), Settles place containerSlot replayed T' →
                ∃ f, f i = place containerSlot ∧ SameSubtree T i m T' basePath baseDepth f := by
  refine ⟨treeOrder_perm T, ?_, fun x y => T.mem_below, ?_⟩
  · intro x hx
    obtain ⟨before, after, hsplit, _⟩ := T.treeOrder_split hx
    exact ⟨before, after, hsplit⟩
  · obtain ⟨rows, hrun, hrows⟩ := containerRows_spec T hm (by rw [hdg]; rfl)
    refine ⟨rows, hrun, fun ix descent => ix.load_store _ _ _ _, ?_⟩
    intro probe reserve containerSlot basePath baseDepth hreserve hslot
    obtain ⟨replayed, hreplay, hall⟩ :=
      materializeCached_spec T hrows probe reserve containerSlot basePath baseDepth
    refine ⟨replayed, hreplay, fun T' place h => ?_⟩
    refine ⟨_, ?_, sameSubtree_of_settles hall h hreserve hslot⟩
    rw [Function.comp_apply, Table.slotOf, if_pos rfl]

def sampleDigests : Digests := ⟨none, zeroDigest 20, zeroDigest 32, none, none, none⟩

def sampleMember (path : String) (depth : ℕ) (parent : Option ℕ) (ord : ℕ) (kind : String)
    (children : ℕ) : Member :=
  ⟨path.toList, depth, parent, ord, kind, 40, parent.isNone, some sampleDigests, [], children, none⟩

/-- A zip with two entries of one name, one of which holds a file. -/
def sampleZip : Table where
  members := [sampleMember "z" 0 none 0 "zip" 2, sampleMember "z!a" 1 (some 0) 1 "tar" 1,
    sampleMember "z!a" 1 (some 0) 0 "file" 0, sampleMember "z!a!a" 2 (some 1) 0 "file" 0]
  parent := by
    rintro (_ | _ | _ | _ | i) m p hm hp <;> simp [sampleMember] at hm <;> subst hm <;> cases hp <;>
      exact ⟨by decide, _, rfl, rfl⟩
  root := by
    rintro (_ | _ | _ | _ | i) m hm hp <;> simp [sampleMember] at hm <;> subst hm <;>
      first | exact ⟨rfl, rfl⟩ | cases hp
  path := by
    rintro (_ | _ | _ | _ | i) m p q hm hfs hp hq <;> simp [sampleMember] at hm <;> subst hm <;>
      cases hp <;> cases hq <;> exact ⟨['a'], rfl⟩
  hashed := by
    rintro (_ | _ | _ | _ | i) m hm hfs <;> simp [sampleMember] at hm <;> subst hm <;>
      first | exact ⟨rfl, .tar, rfl⟩ | exact ⟨rfl, .plain, rfl⟩ | cases hfs
  nested := by
    rintro (_ | _ | _ | _ | i) m p q hm hp hq hdg <;> simp [sampleMember] at hm <;> subst hm <;>
      first | rfl | cases hp

/-- Another file with the zip's bytes. -/
def sampleCopy : Table where
  members := [sampleMember "y" 0 none 0 "zip" 2]
  parent := by
    rintro (_ | i) m p hm hp <;> simp [sampleMember] at hm
    subst hm
    cases hp
  root := by
    rintro (_ | i) m hm hp <;> simp [sampleMember] at hm
    subst hm
    exact ⟨rfl, rfl⟩
  path := by
    rintro (_ | i) m p q hm hfs hp hq <;> simp [sampleMember] at hm
    subst hm
    cases hp
  hashed := by
    rintro (_ | i) m hm hfs <;> simp [sampleMember] at hm
    subst hm
    cases hfs
  nested := by
    rintro (_ | i) m p q hm hp hq hdg <;> simp [sampleMember] at hm
    subst hm
    cases hp

/-- The zip's three members, replayed under the other file. -/
theorem replay_round_trip_zip :
    treeOrder sampleZip.members = [0, 2, 1, 3] ∧ ∃ (T' : Table) (f : ℕ → ℕ),
      T'.members.take 1 = sampleCopy.members ∧ f 0 = 0
        ∧ SameSubtree sampleZip 0 (sampleMember "z" 0 none 0 "zip" 2) T' ['y'] 0 f := by
  obtain ⟨_, _, _, rows, hrows, _, hreplay⟩ :=
    replay_round_trip sampleZip 0 (sampleMember "z" 0 none 0 "zip" 2) sampleDigests rfl rfl
  obtain ⟨rows', hrows', hspec⟩ :=
    containerRows_spec sampleZip (i := 0) (m := sampleMember "z" 0 none 0 "zip" 2) rfl rfl
  obtain rfl : rows = rows' := Option.some.inj (hrows.symm.trans hrows')
  obtain ⟨replayed, hrun, hsame⟩ := hreplay (fun _ _ => []) (fun k => 1 + k) 0 ['y'] 0
    (fun _ _ hlt => Nat.add_lt_add_left hlt 1) (fun k => by omega)
  obtain ⟨replayed', hrun', hall⟩ :=
    materializeCached_spec sampleZip hspec (fun _ _ => []) (fun k => 1 + k) 0 ['y'] 0
  obtain rfl : replayed = replayed' := Option.some.inj (hrun.symm.trans hrun')
  have hleaf : ∀ j, parentOf sampleCopy.members j ≠ some 0 := by
    intro j hj
    obtain ⟨hlt, hlen⟩ := sampleCopy.parentOf_lt hj
    have hone : sampleCopy.members.length = 1 := rfl
    omega
  have hm₀ : sampleCopy.members[0]? = some (sampleMember "y" 0 none 0 "zip" 2) := rfl
  obtain ⟨T', hT', hsettles⟩ :=
    exists_replayed_table (T := sampleZip) (i := 0) rfl rfl hm₀ hleaf hall
  obtain ⟨f, hf, hsub⟩ := hsame T' id hsettles
  exact ⟨by decide, T', f, by rw [hT']; rfl, hf, hsub⟩

end MemberCache

end Hashdex
