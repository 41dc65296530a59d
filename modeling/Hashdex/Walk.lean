import Mathlib
import Hashdex.Finding
import Hashdex.Lib.Dedup
import Hashdex.Lib.ParentForest

/-!
# The graph walk and identity clustering

`walk` is the fixpoint lookup: query the local sources and the observation store, follow the
co-observed coordinates, stop after five hops or a thousand findings.  `cluster` welds the gathered
evidence with a union-find that joins two findings only at an identity-grade coordinate they share.

The sources are functions from a coordinate to findings, and the iteration order of the hash map
that collects the groups is an explicit argument (`IterOrder`), since nothing fixes it.
-/

namespace Hashdex

def maxHops : ℕ := 5

def maxEvidence : ℕ := 1000

/-- Weak digests are lookup keys, never merge keys. -/
def isIdentityGrade : Scheme → Bool
  | .sha256 => true
  | .sha512 => true
  | .blake2s256 => true
  | _ => false

/-- One witnessed piece of evidence: a finding and the coordinate it was reached through. -/
structure Evidence where
  foundAt : Coord
  finding : Finding
  deriving DecidableEq

structure Cluster where
  findings : List Finding
  /-- Union of the cluster's coordinates, sorted. -/
  coords : List Coord
  /-- Whether the cluster carries any identity-grade coordinate. -/
  anchored : Bool
  /-- Whether the queried coordinate is one of the cluster's. -/
  primary : Bool

structure WalkResult where
  clusters : List Cluster
  truncated : Bool
  collision : Bool

/-! ### The walk -/

structure WalkState where
  evidence : List Evidence
  /-- Findings already taken; the code keys them by their JSON text. -/
  seen : List Finding
  visited : List Coord
  /-- The frontier of the next hop. -/
  next : List Coord

/-- Take the findings of one lookup, in order, until the evidence cap. -/
def takeFindings (coord : Coord) : List Finding → WalkState → WalkState
  | [], st => st
  | f :: rest, st =>
    if f ∈ st.seen then takeFindings coord rest st
    else
      let st' : WalkState :=
        { st with
          seen := f :: st.seen
          next := st.next ++ f.stated.filter (fun c => c ∉ st.visited)
          evidence := st.evidence ++ [⟨coord, f⟩] }
      if maxEvidence ≤ st'.evidence.length then st' else takeFindings coord rest st'

/-- Look one coordinate up, once. -/
def visitCoord (lookup : Coord → List Finding) (st : WalkState) (coord : Coord) : WalkState :=
  if coord ∈ st.visited then st
  else takeFindings coord (lookup coord) { st with visited := coord :: st.visited }

/-- The hop loop; `hops` counts the iterations left. -/
def walkLoop (lookup : Coord → List Finding) : ℕ → List Coord → WalkState → WalkState
  | 0, _, st => st
  | hops + 1, frontier, st =>
    if frontier = [] ∨ maxEvidence ≤ st.evidence.length then st
    else
      let st' := frontier.foldl (visitCoord lookup) { st with next := [] }
      walkLoop lookup hops st'.next st'

/-- `walk`: local sources first, then the observation store when there is one. -/
def walk (seeds : List Coord) (localSources : Coord → List Finding)
    (findingsFor : Option (Coord → List Finding)) : List Evidence :=
  let lookup := fun c => localSources c ++ (findingsFor.map (fun g => g c)).getD []
  (walkLoop lookup maxHops seeds ⟨[], [], [], []⟩).evidence

/-! ### Clustering -/

/-- The order `sort_by` puts coordinates in. -/
def coordLe (a b : Coord) : Bool :=
  decide (a.scheme.asStr < b.scheme.asStr) ||
    (decide (a.scheme = b.scheme) && decide (a.digest ≤ b.digest))

def sortDedup (cs : List Coord) : List Coord := dedupRuns (cs.mergeSort coordLe)

/-- Effective coordinates: everything the finding states, plus the coordinate it was found at unless
the row carries a different digest of that scheme. -/
def coordsOf (e : Evidence) : List Coord :=
  let v := e.finding.stated
  let contradicted := v.any fun c => c.scheme = e.foundAt.scheme ∧ c ≠ e.foundAt
  sortDedup (if contradicted then v else v ++ [e.foundAt])

/-- The union-find array and the first finding seen with each identity-grade coordinate. -/
structure LinkState where
  parent : List ℕ
  anchor : List (Coord × ℕ)

def linkCoord (i : ℕ) (st : LinkState) (c : Coord) : LinkState :=
  if isIdentityGrade c.scheme then
    match st.anchor.lookup c with
    | some j => { st with parent := ParentForest.union st.parent i j }
    | none => { st with anchor := (c, i) :: st.anchor }
  else st

def linkAll (evidence : List Evidence) : LinkState :=
  evidence.zipIdx.foldl (fun st p => (coordsOf p.1).foldl (linkCoord p.2) st)
    ⟨ParentForest.singletons evidence.length, []⟩

/-- `groups.entry(root).or_default().push(i)`. -/
def pushGroup (root i : ℕ) : List (ℕ × List ℕ) → List (ℕ × List ℕ)
  | [] => [(root, [i])]
  | (k, g) :: rest =>
    if k = root then (k, g ++ [i]) :: rest else (k, g) :: pushGroup root i rest

def groupStep (st : List ℕ × List (ℕ × List ℕ)) (i : ℕ) : List ℕ × List (ℕ × List ℕ) :=
  let f := ParentForest.find st.1 i
  (f.1, pushGroup f.2 i st.2)

def groupAll (parent : List ℕ) (n : ℕ) : List (ℕ × List ℕ) :=
  ((List.range n).foldl groupStep (parent, [])).2

/-- The order a hash map hands its entries out in: some permutation of them. -/
structure IterOrder where
  perm : List (ℕ × List ℕ) → List (ℕ × List ℕ)
  isPerm : ∀ l, (perm l).Perm l

def mkCluster (evidence : List Evidence) (queried : Coord) (members : List ℕ) : Cluster :=
  let coords := sortDedup (members.flatMap fun i => ((evidence[i]?).map coordsOf).getD [])
  { findings := (members.mergeSort fun a b => decide (a ≤ b)).filterMap fun i =>
      (evidence[i]?).map (·.finding)
    coords := coords
    anchored := coords.any fun c => isIdentityGrade c.scheme
    primary := coords.contains queried }

/-- Primary before related, anchored before floating, then largest, then by first coordinate. -/
def clusterLe (a b : Cluster) : Bool :=
  ((compare b.primary a.primary).then <|
    (compare b.anchored a.anchored).then <|
    (compare b.findings.length a.findings.length).then <|
    compare (a.coords.head?.map Coord.display) (b.coords.head?.map Coord.display)) != .gt

def cluster (order : IterOrder) (evidence : List Evidence) (queried : Coord) : WalkResult :=
  let groups := order.perm (groupAll (linkAll evidence).parent evidence.length)
  let clusters := (groups.map fun g => mkCluster evidence queried g.2).mergeSort clusterLe
  { clusters := clusters
    truncated := decide (maxEvidence ≤ evidence.length)
    collision := !isIdentityGrade queried.scheme &&
      decide (2 ≤ (clusters.filter fun cl => cl.anchored && cl.primary).length) }

/-! ### What one lookup adds to the evidence -/

/-- What one lookup takes was not there before. -/
theorem takeFindings_evidence {coord : Coord} {fs : List Finding} {st : WalkState} {e : Evidence}
    (he : e ∈ (takeFindings coord fs st).evidence) :
    e ∈ st.evidence ∨ (e.foundAt = coord ∧ e.finding ∈ fs ∧ e.finding ∉ st.seen) := by
  induction fs generalizing st with
  | nil => exact Or.inl he
  | cons f rest ih =>
    rw [takeFindings] at he
    split at he
    · rcases ih he with h | ⟨h₁, h₂, h₃⟩
      · exact Or.inl h
      · exact Or.inr ⟨h₁, List.mem_cons_of_mem _ h₂, h₃⟩
    · rename_i hunseen
      have hnew : ∀ {e : Evidence}, e ∈ st.evidence ++ [⟨coord, f⟩] →
          e ∈ st.evidence ∨ (e.foundAt = coord ∧ e.finding ∈ f :: rest ∧ e.finding ∉ st.seen) := by
        intro e h
        rcases List.mem_append.mp h with h | h
        · exact Or.inl h
        · rw [List.mem_singleton.mp h]
          exact Or.inr ⟨rfl, List.mem_cons_self, hunseen⟩
      dsimp only at he
      split at he
      · exact hnew he
      · rcases ih he with h | ⟨h₁, h₂, h₃⟩
        · exact hnew h
        · exact Or.inr ⟨h₁, List.mem_cons_of_mem _ h₂, fun h => h₃ (List.mem_cons_of_mem _ h)⟩

/-- Every piece of evidence was an answer to the coordinate it is recorded under. -/
def Answered (lookup : Coord → List Finding) (st : WalkState) : Prop :=
  ∀ e ∈ st.evidence, e.finding ∈ lookup e.foundAt

theorem Answered.visit {lookup : Coord → List Finding} {st : WalkState}
    (h : Answered lookup st) (c : Coord) : Answered lookup (visitCoord lookup st c) := by
  unfold visitCoord
  split
  · exact h
  · intro e he
    rcases takeFindings_evidence he with he | ⟨hat, hmem, -⟩
    · exact h e he
    · rwa [hat]

theorem Answered.foldl {lookup : Coord → List Finding} (frontier : List Coord) {st : WalkState}
    (h : Answered lookup st) : Answered lookup (frontier.foldl (visitCoord lookup) st) := by
  induction frontier generalizing st with
  | nil => exact h
  | cons c rest ih => exact ih (h.visit c)

theorem Answered.loop {lookup : Coord → List Finding} (hops : ℕ) (frontier : List Coord)
    {st : WalkState} (h : Answered lookup st) :
    Answered lookup (walkLoop lookup hops frontier st) := by
  induction hops generalizing frontier st with
  | zero => exact h
  | succ hops ih =>
    rw [walkLoop]
    split
    · exact h
    · exact ih _ (Answered.foldl frontier h)

/-- **Evidence is witnessed.**  Every finding of a walk was returned for the coordinate it is
recorded under, by a local source or by the store. -/
theorem walk_answered {seeds : List Coord} {localSources : Coord → List Finding}
    {findingsFor : Option (Coord → List Finding)} {e : Evidence}
    (he : e ∈ walk seeds localSources findingsFor) :
    e.finding ∈ localSources e.foundAt ∨
      ∃ g, findingsFor = some g ∧ e.finding ∈ g e.foundAt := by
  set lookup := fun c => localSources c ++ (findingsFor.map (fun g => g c)).getD [] with hlookup
  have hstart : Answered lookup ⟨[], [], [], []⟩ := fun e he => absurd he List.not_mem_nil
  have h : e.finding ∈ lookup e.foundAt := Answered.loop maxHops seeds hstart e he
  rw [hlookup] at h
  rcases List.mem_append.mp h with h | h
  · exact Or.inl h
  · cases findingsFor with
    | none => simp at h
    | some g => exact Or.inr ⟨g, rfl, h⟩

end Hashdex
