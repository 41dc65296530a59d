import Mathlib
import Hashdex.Compressors
import Hashdex.Recipe.Tree

/-!
# Plans

What planning records: for each planned member a splice, a compressor run or an extract node, and the
pcluster nodes the splices of erofs images place.

* `tileGaps_eq_some`: filling the gaps succeeds exactly on pieces in order, and gives a tiling
* `Intervals.admits_iff`: the interval set admits what is apart from all it holds
-/

namespace Hashdex

open Tiling

/-- One input segment of a splice, in the splice's own coordinates. -/
inductive Seg where
  /-- Bytes of a member, at `rootOff` of the space. -/
  | child (idx start len pos rootOff : ℕ)
  /-- Bytes stored verbatim that are a member's; the member's node is in the sources table. -/
  | tabled (idx start len pos rootOff : ℕ)
  | pcluster (pc pos len rootOff : ℕ)
  /-- A gap; the verify pass fills in where its bytes go. -/
  | gap (pos len : ℕ) (residueOff : Option ℕ) (inline : Option Bytes)
  deriving DecidableEq

namespace Seg

/-- `at`. -/
def pos : Seg → ℕ
  | child _ _ _ p _ => p
  | tabled _ _ _ p _ => p
  | pcluster _ p _ _ => p
  | gap p _ _ _ => p

def len : Seg → ℕ
  | child _ _ l _ _ => l
  | tabled _ _ l _ _ => l
  | pcluster _ _ l _ => l
  | gap _ l _ _ => l

def isGap : Seg → Bool
  | gap .. => true
  | _ => false

end Seg

/-- One input of a pcluster node, in packed-stream order. -/
inductive PcInput where
  | member (idx start len : ℕ)
  | literal (spoolOff len : ℕ) (residueOff : Option ℕ) (inline : Option Bytes)
  deriving DecidableEq

def PcInput.len : PcInput → ℕ
  | .member _ _ len => len
  | .literal _ len _ _ => len

structure PClusterNode where
  size : ℕ
  sha256 : Bytes
  /-- Leading zero bytes of the stored data. -/
  pad : ℕ
  preset : UInt32
  dictSize : UInt32
  inputs : List PcInput
  name : String
  deriving DecidableEq

structure Build where
  segs : List Seg
  /-- Children that collided with an accepted sibling. -/
  dropped : ℕ
  space : ℕ
  runs : List Run
  deriving DecidableEq

/-- The catalog run that rebuilds a wrapper. -/
inductive Comp where
  | gzip (params : GnuGzip) (header : Bytes)
  | zstd (params : Zstd)
  deriving DecidableEq

structure Compress where
  child : ℕ
  how : Comp
  deriving DecidableEq

structure Extract where
  archive : Archive
  attestor : String
  statement : String
  deriving DecidableEq

/-- A map keyed by member. -/
abbrev IdxMap (α : Type) := ℕ → Option α

namespace IdxMap

variable {α : Type}

def insert (m : IdxMap α) (i : ℕ) (a : α) : IdxMap α := Function.update m i (some a)

def remove (m : IdxMap α) (i : ℕ) : IdxMap α := Function.update m i none

@[simp] theorem insert_same (m : IdxMap α) (i : ℕ) (a : α) : m.insert i a i = some a :=
  Function.update_self ..

theorem insert_of_ne {m : IdxMap α} {i j : ℕ} (h : j ≠ i) (a : α) : m.insert i a j = m j :=
  Function.update_of_ne h ..

@[simp] theorem remove_same (m : IdxMap α) (i : ℕ) : m.remove i i = none :=
  Function.update_self ..

theorem remove_of_ne {m : IdxMap α} {i j : ℕ} (h : j ≠ i) : m.remove i j = m j :=
  Function.update_of_ne h ..

theorem remove_eq_self {m : IdxMap α} {i : ℕ} (h : m i = none) : m.remove i = m := by
  rw [remove, ← h, Function.update_eq_self]

theorem remove_insert {m : IdxMap α} {i : ℕ} (h : m i = none) (a : α) :
    (m.insert i a).remove i = m := by
  rw [insert, remove, Function.update_idem, ← h, Function.update_eq_self]

/-- An entry of a map after an insertion is the new one or an old one. -/
theorem insert_eq_some {m : IdxMap α} {i j : ℕ} {a b : α} (h : m.insert i a j = some b) :
    (j = i ∧ b = a) ∨ (j ≠ i ∧ m j = some b) := by
  rcases eq_or_ne j i with rfl | hne
  · rw [insert_same] at h
    exact Or.inl ⟨rfl, (Option.some.inj h).symm⟩
  · rw [insert_of_ne hne] at h
    exact Or.inr ⟨hne, h⟩

theorem remove_eq_some {m : IdxMap α} {i j : ℕ} {b : α} (h : m.remove i j = some b) :
    j ≠ i ∧ m j = some b := by
  rcases eq_or_ne j i with rfl | hne
  · rw [remove_same] at h
    cases h
  · rw [remove_of_ne hne] at h
    exact ⟨hne, h⟩

end IdxMap

/-- What the pcluster sweeps found. -/
structure PcStats where
  total : ℕ
  verified : ℕ
  uncovered : ℕ
  verbatim : ℕ
  rotated : ℕ
  notVerbatim : ℕ
  thin : ℕ
  mismatch : ℕ
  margin : ℕ
  unverifiedMembers : ℕ
  deriving DecidableEq

namespace PcStats

def zero : PcStats := ⟨0, 0, 0, 0, 0, 0, 0, 0, 0, 0⟩

def add (a b : PcStats) : PcStats where
  total := a.total + b.total
  verified := a.verified + b.verified
  uncovered := a.uncovered + b.uncovered
  verbatim := a.verbatim + b.verbatim
  rotated := a.rotated + b.rotated
  notVerbatim := a.notVerbatim + b.notVerbatim
  thin := a.thin + b.thin
  mismatch := a.mismatch + b.mismatch
  margin := a.margin + b.margin
  unverifiedMembers := a.unverifiedMembers + b.unverifiedMembers

end PcStats

structure Plan where
  builds : IdxMap Build
  compress : IdxMap Compress
  extracts : IdxMap Extract
  pclusters : List PClusterNode
  /-- Members whose nodes live in the sources table. -/
  tabled : Finset ℕ
  /-- Packed-stream bytes spooled while planning. -/
  literals : Option Bytes
  pcstats : PcStats
  root : ℕ

def Plan.empty (root : ℕ) : Plan :=
  ⟨fun _ => none, fun _ => none, fun _ => none, [], ∅, none, PcStats.zero, root⟩

/-- Map a member's logical range through its runs, in logical order. -/
def mapRange (runs : List Run) (start len : ℕ) : List (ℕ × ℕ) :=
  runs.filterMap fun r =>
    let lo := max start r.log
    let hi := min (start + len) (r.log + r.len)
    if lo < hi then some (r.off + (lo - r.log), hi - lo) else none

/-! ### Interval sets -/

/-- An ordered map from the starts of intervals to their ends. -/
abbrev Intervals := List (ℕ × ℕ)

namespace Intervals

def admits (taken : Intervals) (pos len : ℕ) : Bool :=
  (match (taken.filter fun e => e.1 ≤ pos).getLast? with
    | some e => decide (e.2 ≤ pos)
    | none => true) &&
    (taken.filter fun e => pos ≤ e.1 ∧ e.1 < pos + len).isEmpty

/-- Map insertion: an entry with the same start is replaced. -/
def insert : Intervals → ℕ → ℕ → Intervals
  | [], pos, len => [(pos, pos + len)]
  | e :: taken, pos, len =>
    if pos < e.1 then (pos, pos + len) :: e :: taken
    else if pos = e.1 then (pos, pos + len) :: taken
    else e :: insert taken pos len

/-- Nonempty intervals, each ending before the next starts. -/
structure Proper (taken : Intervals) : Prop where
  ordered : taken.Pairwise fun a b => a.2 ≤ b.1
  nonempty : ∀ e ∈ taken, e.1 < e.2

theorem Proper.nil : Proper [] := ⟨List.Pairwise.nil, fun _ h => (nomatch h)⟩

/-- An interval ends before the range starts, or starts after it ends. -/
def Clear (taken : Intervals) (pos len : ℕ) : Prop :=
  ∀ e ∈ taken, e.2 ≤ pos ∨ pos + len ≤ e.1

/-- **A proper set admits exactly what is clear of all its intervals.** -/
theorem admits_iff {taken : Intervals} (h : taken.Proper) {pos len : ℕ} (hlen : 0 < len) :
    taken.admits pos len = true ↔ taken.Clear pos len := by
  rw [admits, Bool.and_eq_true, List.isEmpty_iff, List.filter_eq_nil_iff]
  constructor
  · intro ⟨hlast, hnone⟩ e he
    have hout := hnone e he
    rw [decide_eq_true_iff, not_and, not_lt] at hout
    rcases Nat.lt_or_ge pos e.1 with hlt | hge
    · exact Or.inr (hout hlt.le)
    · -- The last interval starting at or before `pos` ends latest among these.
      have hmem : e ∈ taken.filter fun e => e.1 ≤ pos :=
        List.mem_filter.mpr ⟨he, decide_eq_true hge⟩
      have hne : taken.filter (fun e => e.1 ≤ pos) ≠ [] := List.ne_nil_of_mem hmem
      rw [List.getLast?_eq_getLast_of_ne_nil hne] at hlast
      have hend : ((taken.filter fun e => e.1 ≤ pos).getLast hne).2 ≤ pos := of_decide_eq_true hlast
      have hsplit := List.dropLast_append_getLast hne
      rw [← hsplit, List.mem_append, List.mem_singleton] at hmem
      rcases hmem with hmem | rfl
      · have hord : (taken.filter fun e => e.1 ≤ pos).Pairwise fun a b => a.2 ≤ b.1 :=
          h.ordered.filter _
        rw [← hsplit, List.pairwise_append] at hord
        have hbefore := hord.2.2 e hmem _ (List.mem_singleton_self _)
        have hlt := h.nonempty _ (List.mem_filter.mp (List.getLast_mem hne)).1
        exact Or.inl (hbefore.trans (hlt.le.trans hend))
      · exact Or.inl hend
  · intro hclear
    refine ⟨?_, fun e he hin => ?_⟩
    · cases hlast : (taken.filter fun e => e.1 ≤ pos).getLast? with
      | none => rfl
      | some e =>
        have hmem := List.mem_of_getLast? hlast
        obtain ⟨he, hle⟩ := List.mem_filter.mp hmem
        have hle' : e.1 ≤ pos := of_decide_eq_true hle
        rcases hclear e he with hc | hc
        · exact decide_eq_true hc
        · omega
    · have hin' := of_decide_eq_true hin
      have hne := h.nonempty e he
      rcases hclear e he with hc | hc <;> omega

theorem mem_insert {taken : Intervals} {pos len : ℕ} {e : ℕ × ℕ}
    (h : e ∈ taken.insert pos len) : e = (pos, pos + len) ∨ e ∈ taken := by
  induction taken with
  | nil => exact Or.inl (List.mem_singleton.mp h)
  | cons d taken ih =>
    rw [insert] at h
    split at h
    · exact List.mem_cons.mp h
    · split at h
      · rcases List.mem_cons.mp h with h | h
        · exact Or.inl h
        · exact Or.inr (List.mem_cons_of_mem d h)
      · rcases List.mem_cons.mp h with h | h
        · exact Or.inr (h ▸ List.mem_cons_self)
        · exact (ih h).imp id (List.mem_cons_of_mem d)

/-- A clear range starts where no interval of a proper set does. -/
theorem Clear.ne_start {taken : Intervals} (h : taken.Proper) {pos len : ℕ} (hlen : 0 < len)
    (hc : taken.Clear pos len) {e : ℕ × ℕ} (he : e ∈ taken) : e.1 ≠ pos := by
  have hne := h.nonempty e he
  rcases hc e he with hc | hc <;> omega

theorem mem_insert_of_mem {taken : Intervals} {pos len : ℕ} (hne : ∀ e ∈ taken, e.1 ≠ pos)
    {e : ℕ × ℕ} (he : e ∈ taken) : e ∈ taken.insert pos len := by
  induction taken with
  | nil => cases he
  | cons d taken ih =>
    rw [insert]
    split
    · exact List.mem_cons_of_mem _ he
    · rw [if_neg (hne d List.mem_cons_self).symm]
      rcases List.mem_cons.mp he with rfl | he
      · exact List.mem_cons_self
      · exact List.mem_cons_of_mem d (ih (fun x hx => hne x (List.mem_cons_of_mem d hx)) he)

theorem mem_insert_self (taken : Intervals) (pos len : ℕ) :
    (pos, pos + len) ∈ taken.insert pos len := by
  induction taken with
  | nil => exact List.mem_singleton_self _
  | cons d taken ih =>
    rw [insert]
    split
    · exact List.mem_cons_self
    · split
      · exact List.mem_cons_self
      · exact List.mem_cons_of_mem d ih

/-- **Inserting a clear range keeps the set proper.** -/
theorem Proper.insert {taken : Intervals} (h : taken.Proper) {pos len : ℕ} (hlen : 0 < len)
    (hc : taken.Clear pos len) : (taken.insert pos len).Proper := by
  refine ⟨?_, fun e he => ?_⟩
  · induction taken with
    | nil => exact List.pairwise_singleton _ _
    | cons d taken ih =>
      obtain ⟨hd, hrest⟩ := List.pairwise_cons.mp h.ordered
      have hproper : Proper taken := ⟨hrest, fun e he => h.nonempty e (List.mem_cons_of_mem d he)⟩
      have hdne := h.nonempty d List.mem_cons_self
      rw [Intervals.insert]
      split
      · next hlt =>
        have hdc : pos + len ≤ d.1 := by
          rcases hc d List.mem_cons_self with hdc | hdc <;> omega
        refine List.pairwise_cons.mpr ⟨fun e he => ?_, h.ordered⟩
        rcases List.mem_cons.mp he with rfl | he
        · exact hdc
        · exact hdc.trans (hdne.le.trans (hd e he))
      · rw [if_neg (Clear.ne_start h hlen hc List.mem_cons_self).symm]
        refine List.pairwise_cons.mpr ⟨fun e he => ?_, ih hproper fun e he =>
          hc e (List.mem_cons_of_mem d he)⟩
        rcases mem_insert he with rfl | he
        · rcases hc d List.mem_cons_self with hdc | hdc
          · exact hdc
          · omega
        · exact hd e he
  · rcases mem_insert he with rfl | he
    · exact Nat.lt_add_of_pos_right hlen
    · exact h.nonempty e he

end Intervals

/-! ### Filling gaps -/

def gapAt (pos stop : ℕ) : Seg := .gap pos (stop - pos) none none

/-- The loop of `tile_gaps`, from position `pos`; nothing when its assertion fails. -/
def tileLoop (size : ℕ) : ℕ → List Seg → Option (List Seg)
  | pos, [] => some (if pos < size then [gapAt pos size] else [])
  | pos, seg :: segs =>
    if pos ≤ seg.pos then
      match tileLoop size (seg.pos + seg.len) segs with
      | some tiled =>
        some ((if pos < seg.pos then [gapAt pos seg.pos] else []) ++ seg :: tiled)
      | none => none
    else none

/-- Fill the space between segments with gaps. -/
def tileGaps (segs : List Seg) (size : ℕ) : Option (List Seg) := tileLoop size 0 segs

theorem tiles_gap {pos stop : ℕ} (h : pos ≤ stop) :
    Tiles Seg.pos Seg.len pos stop (if pos < stop then [gapAt pos stop] else []) := by
  split
  · exact ⟨rfl, Nat.add_sub_cancel' h⟩
  · exact Nat.le_antisymm h (by omega)

/-- The loop succeeds exactly on segments in order from where it stands. -/
theorem tileLoop_isSome {size pos : ℕ} {segs : List Seg} :
    (tileLoop size pos segs).isSome ↔
      InOrder Seg.pos Seg.len segs ∧ ∀ s ∈ segs, pos ≤ s.pos := by
  induction segs generalizing pos with
  | nil => simp [tileLoop, InOrder]
  | cons seg segs ih =>
    rw [tileLoop, InOrder, List.pairwise_cons]
    by_cases hpos : pos ≤ seg.pos
    · rw [if_pos hpos]
      have hiff : (match tileLoop size (seg.pos + seg.len) segs with
          | some tiled =>
            some ((if pos < seg.pos then [gapAt pos seg.pos] else []) ++ seg :: tiled)
          | none => none).isSome ↔ (tileLoop size (seg.pos + seg.len) segs).isSome := by
        cases tileLoop size (seg.pos + seg.len) segs <;> simp
      rw [hiff, ih]
      constructor
      · intro ⟨hord, hafter⟩
        refine ⟨⟨hafter, hord⟩, fun s hs => ?_⟩
        rcases List.mem_cons.mp hs with rfl | hs
        · exact hpos
        · exact hpos.trans ((Nat.le_add_right _ _).trans (hafter s hs))
      · intro ⟨⟨hafter, hord⟩, _⟩
        exact ⟨hord, hafter⟩
    · rw [if_neg hpos]
      simp only [Option.isSome_none, Bool.false_eq_true, false_iff]
      intro ⟨_, h⟩
      exact hpos (h seg List.mem_cons_self)

/-- What the loop gives tiles the rest of the node. -/
theorem tiles_tileLoop {size pos : ℕ} {segs tiled : List Seg}
    (h : tileLoop size pos segs = some tiled) (hpos : pos ≤ size)
    (hfit : ∀ s ∈ segs, s.pos + s.len ≤ size) : Tiles Seg.pos Seg.len pos size tiled := by
  induction segs generalizing pos tiled with
  | nil =>
    cases h
    exact tiles_gap hpos
  | cons seg segs ih =>
    rw [tileLoop] at h
    split at h
    · next hle =>
      split at h
      · next rest hrest =>
        cases h
        have hend := hfit seg List.mem_cons_self
        refine tiles_append.mpr ⟨seg.pos, tiles_gap hle, rfl, ?_⟩
        exact ih hrest hend fun s hs => hfit s (List.mem_cons_of_mem seg hs)
      · cases h
    · cases h

/-- The pieces of a filled-in splice are the segments and gaps. -/
theorem mem_tileLoop {size pos : ℕ} {segs tiled : List Seg}
    (h : tileLoop size pos segs = some tiled) {s : Seg} (hs : s ∈ tiled) :
    s ∈ segs ∨ ∃ p q, s = gapAt p q ∧ p < q := by
  have hgap : ∀ {p q : ℕ}, s ∈ (if p < q then [gapAt p q] else []) →
      ∃ p q, s = gapAt p q ∧ p < q := by
    intro p q hs
    split at hs
    · next hlt => exact ⟨p, q, List.mem_singleton.mp hs, hlt⟩
    · cases hs
  induction segs generalizing pos tiled with
  | nil =>
    cases h
    exact Or.inr (hgap hs)
  | cons seg segs ih =>
    rw [tileLoop] at h
    split at h
    · split at h
      · next rest hrest =>
        cases h
        rcases List.mem_append.mp hs with hs | hs
        · exact Or.inr (hgap hs)
        rcases List.mem_cons.mp hs with rfl | hs
        · exact Or.inl List.mem_cons_self
        · exact (ih hrest hs).imp (List.mem_cons_of_mem seg) id
      · cases h
    · cases h

theorem mem_tileLoop_of_mem {size pos : ℕ} {segs tiled : List Seg}
    (h : tileLoop size pos segs = some tiled) {s : Seg} (hs : s ∈ segs) : s ∈ tiled := by
  induction segs generalizing pos tiled with
  | nil => cases hs
  | cons seg segs ih =>
    rw [tileLoop] at h
    split at h
    · split at h
      · next rest hrest =>
        cases h
        refine List.mem_append_right _ ?_
        rcases List.mem_cons.mp hs with rfl | hs
        · exact List.mem_cons_self
        · exact List.mem_cons_of_mem seg (ih hrest hs)
      · cases h
    · cases h

/-- **Filling the gaps succeeds exactly on segments in order.** -/
theorem tileGaps_isSome {segs : List Seg} {size : ℕ} :
    (tileGaps segs size).isSome ↔ InOrder Seg.pos Seg.len segs := by
  rw [tileGaps, tileLoop_isSome]
  exact and_iff_left fun s _ => Nat.zero_le s.pos

/-- **And gives a tiling of the node** when the segments lie inside it. -/
theorem tiles_tileGaps {segs tiled : List Seg} {size : ℕ} (h : tileGaps segs size = some tiled)
    (hfit : ∀ s ∈ segs, s.pos + s.len ≤ size) : Tiles Seg.pos Seg.len 0 size tiled :=
  tiles_tileLoop h (Nat.zero_le size) hfit

/-- `sort_by_key` on the position. -/
def sortSegs (segs : List Seg) : List Seg := segs.insertionSort fun a b => a.pos ≤ b.pos

theorem mem_sortSegs {segs : List Seg} {s : Seg} : s ∈ sortSegs segs ↔ s ∈ segs :=
  List.mem_insertionSort _

theorem sortSegs_sorted (segs : List Seg) : (sortSegs segs).Pairwise fun a b => a.pos ≤ b.pos :=
  List.pairwise_insertionSort _ _

/-- Sorted, nonempty segments are in order exactly when they are pairwise apart. -/
theorem inOrder_sortSegs {segs : List Seg} (hpos : ∀ s ∈ segs, 0 < s.len) :
    InOrder Seg.pos Seg.len (sortSegs segs) ↔ segs.Pairwise (Apart Seg.pos Seg.len) := by
  have hperm : (sortSegs segs).Perm segs := List.perm_insertionSort _ _
  have hsymm : ∀ {a b : Seg}, Apart Seg.pos Seg.len a b → Apart Seg.pos Seg.len b a :=
    fun h => h.symm
  constructor
  · intro h
    exact (hperm.pairwise_iff hsymm).mp h.apart
  · intro h
    exact inOrder_of_sorted (sortSegs_sorted segs) (fun s hs => hpos s (mem_sortSegs.mp hs))
      ((hperm.pairwise_iff hsymm).mpr h)

/-! ### What a plan refers to -/

def PcInput.slices : PcInput → Option ℕ
  | member idx _ _ => some idx
  | literal .. => none

/-- The members a list of inputs slices. -/
def slicedMembers (inputs : List PcInput) : List ℕ := inputs.filterMap PcInput.slices

@[simp] theorem slicedMembers_append (a b : List PcInput) :
    slicedMembers (a ++ b) = slicedMembers a ++ slicedMembers b := List.filterMap_append

@[simp] theorem slicedMembers_member (idx start len : ℕ) (inputs : List PcInput) :
    slicedMembers (.member idx start len :: inputs) = idx :: slicedMembers inputs := rfl

/-- The members a pcluster node slices. -/
def PClusterNode.members (node : PClusterNode) : List ℕ := slicedMembers node.inputs

/-- The members a segment refers to through the sources table. -/
def Seg.tabledMembers (pclusters : List PClusterNode) : Seg → List ℕ
  | .tabled idx _ _ _ _ => [idx]
  | .pcluster pc _ _ _ => (pclusters[pc]?).elim [] PClusterNode.members
  | _ => []

/-- Members a batch of segments references through the sources table. -/
def tabledOf (segs : List Seg) (pclusters : List PClusterNode) : Finset ℕ :=
  (segs.flatMap (Seg.tabledMembers pclusters)).toFinset

theorem mem_tabledOf {segs : List Seg} {pclusters : List PClusterNode} {i : ℕ} :
    i ∈ tabledOf segs pclusters ↔ ∃ s ∈ segs, i ∈ s.tabledMembers pclusters := by
  rw [tabledOf, List.mem_toFinset, List.mem_flatMap]

/-- Members the splices of the first `n` members reference through the sources table. -/
def Plan.referencedTabled (plan : Plan) (n : ℕ) : Finset ℕ :=
  (Finset.range n).biUnion fun i =>
    match plan.builds i with
    | some b => tabledOf b.segs plan.pclusters
    | none => ∅

def Seg.refersTo (i : ℕ) : Seg → Bool
  | .child idx _ _ _ _ => idx == i
  | .tabled idx _ _ _ _ => idx == i
  | _ => false

/-- Anything in the plan of the first `n` members that points at `i`: a splice segment, a compression
node's child, or a pcluster node's input. -/
def Plan.referencedBy (plan : Plan) (n i : ℕ) : Bool :=
  ((List.range n).any fun k =>
    match plan.builds k with
    | some b => b.segs.any (Seg.refersTo i)
    | none => false) ||
  ((List.range n).any fun k =>
    match plan.compress k with
    | some c => c.child == i
    | none => false) ||
  plan.pclusters.any fun node => node.members.any (· == i)

end Hashdex
