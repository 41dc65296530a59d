import Mathlib
import Hashdex.Lib.Links
import Hashdex.Recipe.Cutting
import Hashdex.Recipe.Flatten

/-!
# The coverage a recipe reports

`mint` counts the bytes of a recipe in one pass over all splices of the plan: what a segment takes of a
member without a node is fetchable, a gap is residue, and a member with a splice of its own is left to
that splice.

* `coverage_total`: what is counted, and what is taken of nodes, is all that the plan supplies
* `leads_to_counted`: each byte of a splice leads to one byte that is counted
* `coverage_conserved_iff`: when the count comes to the size of the root
-/

namespace Hashdex

open Links RecProg RecProg.RecM Tiling

/-! ### The count -/

/-- The member has no node of its own: it is a ref or an extract node. -/
def Plan.isLeaf (plan : Plan) (i : ℕ) : Bool := (plan.builds i).isNone && (plan.compress i).isNone

/-- The segments of a member's splice. -/
def Plan.segsOf (plan : Plan) (i : ℕ) : List Seg := (plan.builds i).elim [] Build.segs

/-- The inputs of all pcluster nodes. -/
def Plan.inputs (plan : Plan) : List PcInput := plan.pclusters.flatMap PClusterNode.inputs

section

variable (plan : Plan)

def Seg.fetchable : Seg → ℕ
  | .child idx _ len _ _ => if plan.isLeaf idx then len else 0
  -- A member with a build of its own accounts for itself.
  | .tabled idx _ len _ _ => if plan.isLeaf idx then len else 0
  | .pcluster .. => 0
  | .gap .. => 0

def Seg.residue : Seg → ℕ
  | .gap _ len _ _ => len
  | _ => 0

def PcInput.fetchable : PcInput → ℕ
  | .member idx _ len => if plan.isLeaf idx then len else 0
  | .literal .. => 0

def PcInput.residue : PcInput → ℕ
  | .member .. => 0
  | .literal _ len _ _ => len

variable (T : Tree)

def Compress.fetchable (c : Compress) : ℕ := if plan.isLeaf c.child then (T.member c.child).size else 0

/-- `fetchable`.  The lengths are of bytes that lie in files, and their sums far below `2^64`. -/
def Plan.fetchable : ℕ :=
  ∑ i ∈ Finset.range T.members.length, ((plan.segsOf i).map (Seg.fetchable plan)).sum +
    (plan.inputs.map (PcInput.fetchable plan)).sum +
    ∑ i ∈ Finset.range T.members.length, (plan.compress i).elim 0 (Compress.fetchable plan T)

/-- `residue_total`. -/
def Plan.residueTotal : ℕ :=
  ∑ i ∈ Finset.range T.members.length, ((plan.segsOf i).map Seg.residue).sum +
    (plan.inputs.map PcInput.residue).sum

/-! ### What the count leaves to other nodes -/

/-- What a segment takes of a member that has a node, or of a pcluster. -/
def Seg.taken : Seg → ℕ
  | .child idx _ len _ _ => if plan.isLeaf idx then 0 else len
  | .tabled idx _ len _ _ => if plan.isLeaf idx then 0 else len
  | .pcluster _ _ len _ => len
  | .gap .. => 0

def PcInput.taken : PcInput → ℕ
  | .member idx _ len => if plan.isLeaf idx then 0 else len
  | .literal .. => 0

def Compress.taken (c : Compress) : ℕ := if plan.isLeaf c.child then 0 else (T.member c.child).size

/-- All that is taken of nodes of the plan. -/
def Plan.taken : ℕ :=
  ∑ i ∈ Finset.range T.members.length, ((plan.segsOf i).map (Seg.taken plan)).sum +
    (plan.inputs.map (PcInput.taken plan)).sum +
    ∑ i ∈ Finset.range T.members.length, (plan.compress i).elim 0 (Compress.taken plan T)

/-- The size of a member that has a splice. -/
def Plan.spliced (i : ℕ) : ℕ := (plan.builds i).elim 0 fun _ => (T.member i).size

/-- All that goes into splices, encoders and compressors. -/
def Plan.supplied : ℕ :=
  ∑ i ∈ Finset.range T.members.length, plan.spliced T i +
    (plan.inputs.map PcInput.len).sum +
    ∑ i ∈ Finset.range T.members.length,
      (plan.compress i).elim 0 fun c => (T.member c.child).size

end

section

variable {plan : Plan} {T : Tree}

theorem Seg.shares (s : Seg) : s.fetchable plan + s.residue + s.taken plan = s.len := by
  cases s with
  | child idx start len pos rootOff =>
    show (if plan.isLeaf idx then len else 0) + 0 + (if plan.isLeaf idx then 0 else len) = len
    split <;> omega
  | tabled idx start len pos rootOff =>
    show (if plan.isLeaf idx then len else 0) + 0 + (if plan.isLeaf idx then 0 else len) = len
    split <;> omega
  | pcluster pc pos len rootOff => exact Nat.zero_add len
  | gap pos len residueOff inline => exact Nat.zero_add len

theorem PcInput.shares (p : PcInput) : p.fetchable plan + p.residue + p.taken plan = p.len := by
  cases p with
  | member idx start len =>
    show (if plan.isLeaf idx then len else 0) + 0 + (if plan.isLeaf idx then 0 else len) = len
    split <;> omega
  | literal spoolOff len residueOff inline => exact Nat.zero_add len

theorem Compress.shares (c : Compress) :
    c.fetchable plan T + c.taken plan T = (T.member c.child).size := by
  rw [Compress.fetchable, Compress.taken]
  split <;> omega

/-- Three shares of each element, summed up. -/
theorem sum_shares {α : Type} {f g h len : α → ℕ} (hall : ∀ a, f a + g a + h a = len a) (xs : List α) :
    (xs.map f).sum + (xs.map g).sum + (xs.map h).sum = (xs.map len).sum := by
  induction xs with
  | nil => rfl
  | cons a xs ih =>
    have ha := hall a
    simp only [List.map_cons, List.sum_cons]
    omega

/-- The shares of a splice that tiles its member make up the member. -/
theorem splice_shares {i : ℕ} (htiles : ∀ b, plan.builds i = some b →
      Tiles Seg.pos Seg.len 0 (T.member i).size b.segs) :
    ((plan.segsOf i).map (Seg.fetchable plan)).sum + ((plan.segsOf i).map Seg.residue).sum +
      ((plan.segsOf i).map (Seg.taken plan)).sum = plan.spliced T i := by
  rw [sum_shares Seg.shares]
  cases hb : plan.builds i with
  | none => simp [Plan.segsOf, Plan.spliced, hb]
  | some b =>
    have hsum := (htiles b hb).sum_len
    simp only [Plan.segsOf, Plan.spliced, hb, Option.elim]
    omega

/-- **What is counted, and what is taken of nodes, is all that the plan supplies.** -/
theorem coverage_total (htiles : ∀ i b, plan.builds i = some b →
      Tiles Seg.pos Seg.len 0 (T.member i).size b.segs) :
    plan.fetchable T + plan.residueTotal T + plan.taken T = plan.supplied T := by
  have hsplices : ∑ i ∈ Finset.range T.members.length, ((plan.segsOf i).map (Seg.fetchable plan)).sum +
      ∑ i ∈ Finset.range T.members.length, ((plan.segsOf i).map Seg.residue).sum +
      ∑ i ∈ Finset.range T.members.length, ((plan.segsOf i).map (Seg.taken plan)).sum =
      ∑ i ∈ Finset.range T.members.length, plan.spliced T i := by
    rw [← Finset.sum_add_distrib, ← Finset.sum_add_distrib]
    exact Finset.sum_congr rfl fun i _ => splice_shares (htiles i)
  have hinputs := sum_shares (fun p => @PcInput.shares plan p) plan.inputs
  have hcomp : ∑ i ∈ Finset.range T.members.length, (plan.compress i).elim 0 (Compress.fetchable plan T) +
      ∑ i ∈ Finset.range T.members.length, (plan.compress i).elim 0 (Compress.taken plan T) =
      ∑ i ∈ Finset.range T.members.length,
        (plan.compress i).elim 0 fun c => (T.member c.child).size := by
    rw [← Finset.sum_add_distrib]
    refine Finset.sum_congr rfl fun i _ => ?_
    cases plan.compress i with
    | none => rfl
    | some c => exact c.shares
  rw [Plan.fetchable, Plan.residueTotal, Plan.taken, Plan.supplied]
  omega

end

/-! ### Where a byte is counted -/

/-- The member a segment takes bytes of, and where in it. -/
def Seg.slice : Seg → Option (ℕ × ℕ)
  | .child idx start _ _ _ => some (idx, start)
  | .tabled idx start _ _ _ => some (idx, start)
  | _ => none

/-- The segment over a byte of a member's splice. -/
def Plan.segAt (plan : Plan) (p : ℕ × ℕ) : Option Seg :=
  (plan.segsOf p.1).find? fun s => decide (p.2 < s.pos + s.len)

/-- The byte of another splice that a byte of a splice is, when its segment leaves it to that splice. -/
def Plan.takenFrom (plan : Plan) (p : ℕ × ℕ) : Option (ℕ × ℕ) :=
  (plan.segAt p).bind fun s => s.slice.bind fun t =>
    if plan.isLeaf t.1 then none else some (t.1, t.2 + (p.2 - s.pos))

/-- The byte is among those that are counted as fetchable. -/
def Plan.Fetched (plan : Plan) (p : ℕ × ℕ) : Prop :=
  ∃ s, plan.segAt p = some s ∧ 0 < s.fetchable plan

/-- The byte is among those that are counted as residue. -/
def Plan.Literal (plan : Plan) (p : ℕ × ℕ) : Prop := ∃ s, plan.segAt p = some s ∧ 0 < s.residue

/-- The byte is counted, in one of the two. -/
def Plan.Counted (plan : Plan) (p : ℕ × ℕ) : Prop := Xor (plan.Fetched p) (plan.Literal p)

/-- The members whose nodes are in the recipe. -/
inductive Plan.InRecipe (plan : Plan) : ℕ → Prop
  | root : InRecipe plan plan.root
  | takes {i c : ℕ} {s : Seg} : InRecipe plan i → s ∈ plan.segsOf i → s.refersTo c = true →
    InRecipe plan c

/-- The recipe is made of splices, slices, tabled references and literals. -/
structure Plan.Spliced (plan : Plan) : Prop where
  compress : ∀ i, plan.InRecipe i → plan.compress i = none
  pcluster : ∀ i, plan.InRecipe i → ∀ pc pos len rootOff, Seg.pcluster pc pos len rootOff ∉ plan.segsOf i

/-- The count is right: it comes to the size of the root, and each byte of the root leads to one byte
that is counted. -/
structure Conserved (T : Tree) (plan : Plan) : Prop where
  total : plan.fetchable T + plan.residueTotal T = (T.member plan.root).size
  once : ∀ q < (T.member plan.root).size,
    ∃! p, Reach plan.takenFrom (plan.root, q) p ∧ plan.Counted p

/-- The splices tile their members, and take of children only. -/
structure Plan.Grounded (T : Tree) (plan : Plan) : Prop where
  tiles : ∀ i b, plan.builds i = some b → Tiles Seg.pos Seg.len 0 (T.member i).size b.segs
  kids : ∀ i, ∀ s ∈ plan.segsOf i, ∀ c, s.refersTo c = true → c ∈ T.kids i

section

variable {T : Tree} {plan : Plan}

theorem Seg.slice_refersTo {s : Seg} {t : ℕ × ℕ} (h : s.slice = some t) : s.refersTo t.1 = true := by
  cases s with
  | child =>
    cases h
    exact beq_self_eq_true _
  | tabled =>
    cases h
    exact beq_self_eq_true _
  | _ => cases h

theorem isLeaf_of_plain {i : ℕ} (hcomp : plan.compress i = none) (h : plan.isLeaf i = false) :
    ∃ b, plan.builds i = some b := by
  rw [Plan.isLeaf, hcomp] at h
  cases hb : plan.builds i with
  | some b => exact ⟨b, rfl⟩
  | none =>
    rw [hb] at h
    cases h

/-- What the segment over a byte of a splice says of it. -/
theorem segAt_cases (h : plan.Spliced) {p : ℕ × ℕ} {s : Seg} (hin : plan.InRecipe p.1)
    (hs : plan.segAt p = some s) (hlen : 0 < s.len) :
    (plan.takenFrom p = none ∧ plan.Counted p) ∨
      ∃ t, s.slice = some t ∧ plan.isLeaf t.1 = false ∧
        plan.takenFrom p = some (t.1, t.2 + (p.2 - s.pos)) ∧ ¬ plan.Counted p := by
  have hfetched : plan.Fetched p ↔ 0 < s.fetchable plan := by
    rw [Plan.Fetched, hs]
    simp
  have hliteral : plan.Literal p ↔ 0 < s.residue := by
    rw [Plan.Literal, hs]
    simp
  have hnext : plan.takenFrom p = s.slice.bind fun t =>
      if plan.isLeaf t.1 then none else some (t.1, t.2 + (p.2 - s.pos)) := by
    rw [Plan.takenFrom, hs]
    rfl
  have hmem : s ∈ plan.segsOf p.1 := List.mem_of_find?_eq_some hs
  rw [Plan.Counted, hfetched, hliteral, hnext]
  -- a slice is fetched or left to the node, as its member has none or one
  have hslice : ∀ t : ℕ × ℕ, s.slice = some t → s.residue = 0 →
      s.fetchable plan = (if plan.isLeaf t.1 then s.len else 0) →
      (s.slice.bind (fun t => if plan.isLeaf t.1 then none else some (t.1, t.2 + (p.2 - s.pos)))
          = none ∧ Xor (0 < s.fetchable plan) (0 < s.residue)) ∨
        ∃ t, s.slice = some t ∧ plan.isLeaf t.1 = false ∧
          s.slice.bind (fun t => if plan.isLeaf t.1 then none else some (t.1, t.2 + (p.2 - s.pos)))
            = some (t.1, t.2 + (p.2 - s.pos)) ∧ ¬ Xor (0 < s.fetchable plan) (0 < s.residue) := by
    intro t ht hres hfetch
    rw [hfetch, hres, ht]
    cases hleaf : plan.isLeaf t.1 with
    | true => exact Or.inl ⟨by simp [hleaf], Or.inl ⟨hlen, Nat.lt_irrefl 0⟩⟩
    | false => exact Or.inr ⟨t, rfl, hleaf, by simp [hleaf], by simp [Xor]⟩
  cases s with
  | child idx start len pos rootOff => exact hslice (idx, start) rfl rfl rfl
  | tabled idx start len pos rootOff => exact hslice (idx, start) rfl rfl rfl
  | pcluster pc pos len rootOff => exact absurd hmem (h.pcluster p.1 hin pc pos len rootOff)
  | gap pos len residueOff inline => exact Or.inl ⟨rfl, Or.inr ⟨hlen, Nat.lt_irrefl 0⟩⟩

theorem exists_segAt (h : plan.Grounded T) {i q : ℕ} {b : Build} (hb : plan.builds i = some b)
    (hq : q < (T.member i).size) :
    ∃ s ∈ b.segs, plan.segAt (i, q) = some s ∧ s.pos ≤ q ∧ q < s.pos + s.len := by
  have htiles := h.tiles i b hb
  have hsegs : plan.segsOf i = b.segs := by
    rw [Plan.segsOf, hb]
    rfl
  obtain ⟨s, hs⟩ := htiles.exists_find? (Nat.zero_le q) hq
  obtain ⟨hmem, hover⟩ := (htiles.find?_iff (Nat.zero_le q)).mp hs
  refine ⟨s, hmem, ?_, hover⟩
  rw [Plan.segAt, hsegs]
  exact hs

/-- A byte with a segment lies in its member. -/
theorem lt_of_segAt (h : plan.Grounded T) {p : ℕ × ℕ} {s : Seg} (hs : plan.segAt p = some s) :
    p.2 < (T.member p.1).size := by
  have hmem := List.mem_of_find?_eq_some hs
  have hend : p.2 < s.pos + s.len := by
    rw [Plan.segAt] at hs
    simpa using List.find?_some hs
  rw [Plan.segsOf] at hmem
  cases hb : plan.builds p.1 with
  | none =>
    rw [hb] at hmem
    cases hmem
  | some b =>
    rw [hb] at hmem
    exact hend.trans_le ((h.tiles p.1 b hb).bounds hmem).2

theorem lt_of_counted (h : plan.Grounded T) {p : ℕ × ℕ} (hp : plan.Counted p) :
    p.2 < (T.member p.1).size := by
  cases hp with
  | inl hf =>
    obtain ⟨s, hs, -⟩ := hf.1
    exact lt_of_segAt h hs
  | inr hl =>
    obtain ⟨s, hs, -⟩ := hl.1
    exact lt_of_segAt h hs

theorem lt_of_takenFrom (h : plan.Grounded T) {p p' : ℕ × ℕ} (hp : plan.takenFrom p = some p') :
    p.2 < (T.member p.1).size := by
  obtain ⟨s, hs, -⟩ := Option.bind_eq_some_iff.mp hp
  exact lt_of_segAt h hs

/-- What is reached from a node of the recipe is in the recipe. -/
theorem inRecipe_of_reach {a p : ℕ × ℕ} (hin : plan.InRecipe a.1) (h : Reach plan.takenFrom a p) :
    plan.InRecipe p.1 := by
  induction h with
  | refl => exact hin
  | @tail b c _ hbc ih =>
    obtain ⟨s, hs, hslice⟩ := Option.bind_eq_some_iff.mp hbc
    obtain ⟨t, ht, heq⟩ := Option.bind_eq_some_iff.mp hslice
    split at heq
    · cases heq
    · cases heq
      show plan.InRecipe t.1
      exact .takes ih (List.mem_of_find?_eq_some hs) (Seg.slice_refersTo ht)

/-- **Each byte of a splice leads to one that is counted**, when no slice on the way reaches past its
member. -/
theorem leads_to_counted (h : plan.Grounded T) (hplain : plan.Spliced) {n i q : ℕ} {b : Build}
    (hn : T.maxDepth - (T.member i).depth ≤ n) (hin : plan.InRecipe i) (hb : plan.builds i = some b)
    (hinside : ∀ p, Reach plan.takenFrom (i, q) p → p.2 < (T.member p.1).size) :
    ∃ p, Reach plan.takenFrom (i, q) p ∧ plan.Counted p := by
  induction n using Nat.strong_induction_on generalizing i q b with
  | _ n ih =>
    obtain ⟨s, hmem, hs, hlo, hhi⟩ := exists_segAt h hb (hinside (i, q) .refl)
    rcases segAt_cases hplain hin hs (by omega) with ⟨-, hcounted⟩ | ⟨t, ht, hleaf, hnext, -⟩
    · exact ⟨(i, q), .refl, hcounted⟩
    · have hsegs : s ∈ plan.segsOf i := List.mem_of_find?_eq_some hs
      have hkid := h.kids i s hsegs t.1 (Seg.slice_refersTo ht)
      have hdeep := Tree.depth_kid hkid
      have hbound := Tree.depth_le (Tree.mem_kids.mp hkid).1
      have hint : plan.InRecipe t.1 := .takes hin hsegs (Seg.slice_refersTo ht)
      obtain ⟨b', hb'⟩ := isLeaf_of_plain (hplain.compress t.1 hint) hleaf
      obtain ⟨p, hp, hcounted⟩ := ih (T.maxDepth - (T.member t.1).depth) (by omega) (Nat.le_refl _)
        hint hb' fun p hp => hinside p (.head hnext hp)
      exact ⟨p, .head hnext hp, hcounted⟩

/-- A byte that is counted leads no further. -/
theorem counted_last (hplain : plan.Spliced) (h : plan.Grounded T) {p : ℕ × ℕ}
    (hin : plan.InRecipe p.1) (hp : plan.Counted p) : plan.takenFrom p = none := by
  have hlt := lt_of_counted h hp
  have hsome : ∃ s, plan.segAt p = some s := by
    cases hp with
    | inl hf => exact hf.1.imp fun s hs => hs.1
    | inr hl => exact hl.1.imp fun s hs => hs.1
  obtain ⟨s, hs⟩ := hsome
  cases hb : plan.builds p.1 with
  | none =>
    rw [Plan.segAt, Plan.segsOf, hb] at hs
    cases hs
  | some b =>
    obtain ⟨s', -, hs', hlo, hhi⟩ := exists_segAt h hb hlt
    rw [hs] at hs'
    cases hs'
    rcases segAt_cases hplain hin hs (by omega) with ⟨hnone, -⟩ | ⟨t, -, -, -, hnot⟩
    · exact hnone
    · exact absurd hp hnot

/-- What nodes of the plan are taken of is what they have, and no slice reaches past its member. -/
structure Plan.Balanced (T : Tree) (plan : Plan) : Prop where
  taken : plan.taken T + (T.member plan.root).size = plan.supplied T
  inside : ∀ q < (T.member plan.root).size, ∀ p, Reach plan.takenFrom (plan.root, q) p →
    p.2 < (T.member p.1).size

/-- **The count is right exactly for balanced plans.** -/
theorem conserved_iff (h : plan.Grounded T) (hplain : plan.Spliced)
    (hroot : ∃ b, plan.builds plan.root = some b) : Conserved T plan ↔ plan.Balanced T := by
  have htotal := coverage_total (T := T) h.tiles
  obtain ⟨b, hb⟩ := hroot
  have hlast : ∀ {q : ℕ} {p : ℕ × ℕ}, Reach plan.takenFrom (plan.root, q) p → plan.Counted p →
      plan.takenFrom p = none := fun hreach hp =>
    counted_last hplain h (inRecipe_of_reach (a := (plan.root, _)) .root hreach) hp
  constructor
  · intro hc
    have hsum := hc.total
    constructor
    · omega
    · intro q hq p hp
      obtain ⟨e, ⟨hreach, hcounted⟩, -⟩ := hc.once q hq
      -- the byte that is counted comes after `p`, or is it
      cases (hreach.last (hlast hreach hcounted) hp).cases_head with
      | inl heq =>
        rw [heq]
        exact lt_of_counted h hcounted
      | inr hnext =>
        obtain ⟨p', hp', -⟩ := hnext
        exact lt_of_takenFrom h hp'
  · intro hbal
    have hsum := hbal.taken
    constructor
    · omega
    · intro q hq
      obtain ⟨p, hp, hcounted⟩ := leads_to_counted h hplain (Nat.le_refl _) .root hb (hbal.inside q hq)
      refine ⟨p, ⟨hp, hcounted⟩, ?_⟩
      intro p' hp'
      have hback := hp.last (hlast hp hcounted) hp'.1
      cases hback.cases_head with
      | inl heq => exact heq
      | inr hnext =>
        obtain ⟨d, hd, -⟩ := hnext
        rw [Links.Leads, hlast hp'.1 hp'.2] at hd
        cases hd

end

/-! ### Minted recipes -/

/-- A splice with its gaps filled in. -/
structure Build.Filled (b₀ b : Build) : Prop where
  segs : List.Forall₂ Seg.Filled b₀.segs b.segs
  dropped : b.dropped = b₀.dropped
  space : b.space = b₀.space
  runs : b.runs = b₀.runs

/-- A node whose literal inputs know their place in the residue. -/
structure PClusterNode.Filled (n₀ n : PClusterNode) : Prop where
  inputs : List.Forall₂ PcInput.Filled n₀.inputs n.inputs
  rest : n = { n₀ with inputs := n.inputs }

/-- A plan as the verify pass leaves it.  The pass expects a node for the root. -/
structure Verified (plan₀ plan : Plan) : Prop where
  builds : ∀ i, Option.Rel Build.Filled (plan₀.builds i) (plan.builds i)
  pclusters : List.Forall₂ PClusterNode.Filled plan₀.pclusters plan.pclusters
  compress : plan.compress = plan₀.compress
  extracts : plan.extracts = plan₀.extracts
  root : plan.root = plan₀.root
  planned : (plan.builds plan.root).isSome ∨ (plan.compress plan.root).isSome

theorem Seg.Filled.eq {s₀ s : Seg} (h : s₀.Filled s) :
    s.pos = s₀.pos ∧ s.len = s₀.len ∧ ∀ c, s.refersTo c = s₀.refersTo c := by
  cases h with
  | same => exact ⟨rfl, rfl, fun _ => rfl⟩
  | gap => exact ⟨rfl, rfl, fun _ => rfl⟩

theorem Build.Filled.tiles {b₀ b : Build} (h : b₀.Filled b) {size : ℕ}
    (htiles : Tiles Seg.pos Seg.len 0 size b₀.segs) : Tiles Seg.pos Seg.len 0 size b.segs := by
  have hall : ∀ (lo : ℕ) (xs ys : List Seg), List.Forall₂ Seg.Filled xs ys →
      Tiles Seg.pos Seg.len lo size xs → Tiles Seg.pos Seg.len lo size ys := by
    intro lo xs ys hxy
    induction hxy generalizing lo with
    | nil => exact id
    | cons hone _ ih =>
      rintro ⟨hpos, hrest⟩
      obtain ⟨hpos', hlen, -⟩ := hone.eq
      exact ⟨hpos'.trans hpos, ih _ (hlen ▸ hrest)⟩
  exact hall 0 _ _ h.segs htiles

theorem mem_of_forall₂ {α β : Type} {R : α → β → Prop} {xs : List α} {ys : List β}
    (h : List.Forall₂ R xs ys) {y : β} (hy : y ∈ ys) : ∃ x ∈ xs, R x y := by
  induction h with
  | nil => cases hy
  | @cons a b xs ys hab _ ih =>
    cases List.mem_cons.mp hy with
    | inl heq => exact ⟨a, List.mem_cons_self, heq ▸ hab⟩
    | inr hmem =>
      obtain ⟨x, hx, hxy⟩ := ih hmem
      exact ⟨x, List.mem_cons_of_mem a hx, hxy⟩

/-- The planner's splices, and so the minted ones, tile their members and take of children. -/
theorem grounded_of_run {P : Planner} {root : ℕ} {plan₀ plan : Plan} {planned : Bool}
    (hrun : Evaluates P.run (.node root, Plan.empty root) (.ok (planned, plan₀)))
    (hver : Verified plan₀ plan) : plan.Grounded P.tree := by
  have hgood : plan₀.Good P := (planner_later hrun).good (Plan.good_empty P root)
  have hfrom : ∀ i b, plan.builds i = some b → ∃ b₀, plan₀.builds i = some b₀ ∧ b₀.Filled b := by
    intro i b hb
    have hrel := hver.builds i
    rw [hb] at hrel
    cases hb₀ : plan₀.builds i with
    | none =>
      rw [hb₀] at hrel
      cases hrel
    | some b₀ =>
      rw [hb₀] at hrel
      cases hrel with
      | some hfilled => exact ⟨b₀, rfl, hfilled⟩
  constructor
  · intro i b hb
    obtain ⟨b₀, hb₀, hfilled⟩ := hfrom i b hb
    exact hfilled.tiles (hgood.builds i b₀ hb₀).tiles
  · intro i s hs c hc
    cases hb : plan.builds i with
    | none =>
      rw [Plan.segsOf, hb] at hs
      cases hs
    | some b =>
      rw [Plan.segsOf, hb] at hs
      obtain ⟨b₀, hb₀, hfilled⟩ := hfrom i b hb
      obtain ⟨s₀, hs₀, hone⟩ := mem_of_forall₂ hfilled.segs hs
      rw [hone.eq.2.2 c] at hc
      exact hgood.kids i b₀ hb₀ s₀ hs₀ c hc

/-- An image of three blocks, a file of two blocks in it, and a published one in the file's first
block. -/
def nestedTree : Tree where
  members :=
    [ { path := "image", depth := 0, parent := none, ord := 0, kind := "erofs", size := 12288,
        digests := some someDigests, extents := some ⟨0, [⟨0, 0, 12288⟩], by decide, by decide⟩,
        space := none, size_lt := by decide },
      { path := "image!file", depth := 1, parent := some 0, ord := 0, kind := "", size := 8192,
        digests := some someDigests, extents := none, space := some 1, size_lt := by decide },
      { path := "image!file!part", depth := 2, parent := some 1, ord := 0, kind := "", size := 4096,
        digests := some someDigests, extents := some ⟨1, [⟨0, 0, 4096⟩], by decide, by decide⟩,
        space := none, size_lt := by decide } ]
  evidence := [[], [], [offered]]
  deeper i p h := by
    match i with
    | 0 => cases h
    | 1 =>
      cases h
      exact Nat.zero_lt_one
    | 2 =>
      cases h
      exact Nat.one_lt_two
    | _ + 3 => cases h

/-- An image without a packed stream sweeps nothing. -/
theorem unpacked_slices (pcs : List PCluster) (set : SweepSet) (_ : Option Bytes) (swept : Swept)
    (spool' : Bytes) (h : (.error (.error "no packed stream") : Except Fault (Swept × Bytes)) = .ok (swept, spool')) :
    (∀ n ∈ swept.nodes, n.2.size = (pcs.getD n.1 default).plen ∧ n.2.Slices (set.used.map Cover.idx)) ∧
      ∀ s ∈ swept.segs, s.Slices (set.used.map Cover.idx) := by
  cases h

/-- The image stores the first block of the file as it is; its other block is compressed, and comes out
of no encoder. -/
def halfImage : ErofsImage where
  lzmaCfg := .ok (some ⟨4096, 0⟩)
  files := .ok [⟨"file", 8192, [⟨0, 4096, 4096, 4096, false, none⟩, ⟨4096, 4096, 8192, 4096, true, none⟩], [],
    false⟩]
  packedPclusters := .ok []
  ownFiles todo := .ok (todo.map fun t => ⟨t.1, [], [.tabled t.1 0 4096 0 4096], PcStats.zero, false⟩)
  sweep _ _ _ := .error (.error "no packed stream")
  own_slices todo planned h f hf := by
    cases h
    obtain ⟨t, ht, rfl⟩ := List.mem_map.mp hf
    refine ⟨List.mem_map_of_mem ht, fun n hn => (nomatch hn), fun s hs => ?_⟩
    rw [List.mem_singleton.mp hs]
    exact ⟨List.mem_singleton_self _, by decide⟩
  sweep_slices := unpacked_slices

def nestedPlanner : Planner where
  tree := nestedTree
  spaces _ := none
  codecs := Codecs.idle
  image _ := .ok halfImage

/-- The image takes the first block of the file; the file's own splice takes the published block. -/
def nestedPlan : Plan :=
  { Plan.empty 0 with
    builds := (((Plan.empty 0).builds.insert 0
      -- the image's splice before the passes over it
      ⟨[.gap 0 12288 none none], 0, 0, [⟨0, 0, 12288⟩]⟩).insert 1
      ⟨[.child 2 0 4096 0 0, .gap 4096 4096 none none], 0, 1, [⟨0, 0, 8192⟩]⟩).insert 0
      ⟨[.gap 0 4096 none none, .tabled 1 0 4096 4096 4096, .gap 8192 4096 none none], 0, 0,
        [⟨0, 0, 12288⟩]⟩
    tabled := ∅ ∪ {1}
    pcstats := ⟨2, 0, 0, 0, 0, 0, 0, 0, 0, 0⟩ }

/-- The literal blocks are in the residue, in document order. -/
def nestedMinted : Plan :=
  { nestedPlan with
    builds := (nestedPlan.builds.insert 1
      ⟨[.child 2 0 4096 0 0, .gap 4096 4096 (some 8192) none], 0, 1, [⟨0, 0, 8192⟩]⟩).insert 0
      ⟨[.gap 0 4096 (some 0) none, .tabled 1 0 4096 4096 4096, .gap 8192 4096 (some 4096) none], 0, 0,
        [⟨0, 0, 12288⟩]⟩ }

theorem nestedPlan_run : Evaluates nestedPlanner.run (.node 0, Plan.empty 0) (.ok (true, nestedPlan)) :=
  ⟨6, rfl⟩

theorem nested_verified : Verified nestedPlan nestedMinted where
  builds i := by
    match i with
    | 0 => exact .some ⟨.cons (.gap ..) (.cons (.same _) (.cons (.gap ..) .nil)), rfl, rfl, rfl⟩
    | 1 => exact .some ⟨.cons (.same _) (.cons (.gap ..) .nil), rfl, rfl, rfl⟩
    | i + 2 => exact .none
  pclusters := .nil
  compress := rfl
  extracts := rfl
  root := rfl
  planned := Or.inl rfl

theorem nested_spliced : nestedMinted.Spliced where
  compress _ _ := rfl
  pcluster i _ pc pos len rootOff h := by
    match i with
    | 0 =>
      have hmem : Seg.pcluster pc pos len rootOff ∈ [Seg.gap 0 4096 (some 0) none,
        .tabled 1 0 4096 4096 4096, .gap 8192 4096 (some 4096) none] := h
      simp at hmem
    | 1 =>
      have hmem : Seg.pcluster pc pos len rootOff ∈ [Seg.child 2 0 4096 0 0,
        .gap 4096 4096 (some 8192) none] := h
      simp at hmem
    | i + 2 => cases h

/-- 8192 bytes of the file's splice are counted for the 4096 that are taken of it. -/
theorem nested_unbalanced : ¬ nestedMinted.Balanced nestedTree := by
  intro h
  exact absurd h.taken (by decide)

end Hashdex
