import Hashdex.Lib.RecTotal
import Hashdex.Recipe.Pclusters

/-!
# Planning

`planNode` decides how a member is rebuilt: by a compressor run over its decompressed child, by a
splice of its children, or, for an erofs image, by a splice that two more passes extend with what the
image stores compressed.  Planning is speculative, and what turns out not to be used is taken back by
`removePlanSubtree`.  The three recursive functions are written as one procedure over `Proc`, with the
plan as its state; a panic is a fault, and an error of an image's passes is a value, since planning
goes on after it.

What reading an image gives (its listing, the pass over each file, the sweep of its packed stream) is
an argument, `ErofsImage`, with what the passes keep to: only members offered to them are sliced.
-/

namespace Hashdex

open RecProg RecProg.RecM

/-! ### Images -/

structure LzmaCfg where
  dictSize : UInt32
  format : ℕ

/-- One span of a file that lives in the packed inode. -/
structure PackedExt where
  la : ℕ
  llen : ℕ
  off : ℕ

/-- A file of an image's listing. -/
structure FileItem where
  path : String
  size : ℕ
  ownPclusters : List PCluster
  packedExtents : List PackedExt
  /-- All of the file lies in the packed stream, contiguously. -/
  packedWhole : Bool

/-- Files not packed whole, with something of theirs to read back. -/
def FileItem.own (f : FileItem) : Bool :=
  !f.packedWhole && !(f.ownPclusters.isEmpty && f.packedExtents.isEmpty)

/-- What planning one partly packed file produced. -/
structure PlannedFile where
  idx : ℕ
  /-- Its nodes, with the image offsets they occupy. -/
  nodes : List (PClusterNode × ℕ)
  segs : List Seg
  stats : PcStats
  /-- The member's digest came back from the read-back. -/
  proved : Bool

/-- What the sweep should do with a pcluster. -/
inductive Elig where
  | no
  | encode
  | verbatim
  deriving DecidableEq

structure SweepSet where
  eligible : List Elig
  need : List Bool
  used : List Cover

/-- What one pass over a packed stream produced: nodes by pcluster index, verbatim splices, and the
members whose packed bytes did not hash to their digest. -/
structure Swept where
  nodes : List (ℕ × PClusterNode)
  segs : List Seg
  failed : List ℕ
  stats : PcStats

/-- An opened erofs image: its parsed metadata, and what its two passes come to. -/
structure ErofsImage where
  lzmaCfg : Except String (Option LzmaCfg)
  files : Except String (List FileItem)
  packedPclusters : Except String (List PCluster)
  /-- `plan_own_file` over the files to do, in the order the workers finish them. -/
  ownFiles : List (ℕ × FileItem) → Except Fault (List PlannedFile)
  /-- `sweep_pclusters`, over the literals spooled so far. -/
  sweep : List PCluster → SweepSet → Option Bytes → Except Fault (Swept × Bytes)
  own_slices : ∀ todo planned, ownFiles todo = .ok planned → ∀ f ∈ planned,
    f.idx ∈ todo.map Prod.fst ∧ (∀ n ∈ f.nodes, n.1.Slices [f.idx]) ∧ ∀ s ∈ f.segs, s.Slices [f.idx]
  sweep_slices : ∀ pcs set spool swept spool', sweep pcs set spool = .ok (swept, spool') →
    (∀ n ∈ swept.nodes, n.2.size = (pcs.getD n.1 default).plen ∧
      n.2.Slices (set.used.map Cover.idx)) ∧
    ∀ s ∈ swept.segs, s.Slices (set.used.map Cover.idx)

/-- What the planner works with: the member tree, the bytes of each coordinate space, the encoders and
the images. -/
structure Planner where
  tree : Tree
  spaces : ℕ → Option Bytes
  codecs : Codecs
  image : ℕ → Except String ErofsImage

/-- The recursive functions of the planner. -/
inductive Proc where
  | node (i : ℕ)
  | build (i : ℕ) (keepEmpty : Bool)
  | remove (i : ℕ)
  deriving DecidableEq

/-- How planning panics. -/
inductive PlanPanic where
  /-- "overlapping splice segments survived planning". -/
  | overlapping
  /-- In an image's passes. -/
  | inPass
  deriving DecidableEq

abbrev PlanM := RecM Proc Plan PlanPanic Bool

def update (f : Plan → Plan) : PlanM Unit := do
  let plan ← getState
  putState (f plan)

/-! ### Taking back -/

def removeChildren : List Seg → PlanM Unit
  | [] => pure ()
  | .child idx _ _ _ _ :: segs => do
    let _ ← recur (.remove idx)
    removeChildren segs
  | _ :: segs => removeChildren segs

def removeCompress (i : ℕ) : PlanM Unit := do
  let plan ← getState
  match plan.compress i with
  | some c => do
    putState { plan with compress := plan.compress.remove i }
    let _ ← recur (.remove c.child)
    pure ()
  | none => pure ()

def removeBuild (i : ℕ) : PlanM Unit := do
  let plan ← getState
  match plan.builds i with
  | some b => do
    putState { plan with builds := plan.builds.remove i }
    removeChildren b.segs
  | none => pure ()

/-- One call of `remove_plan_subtree`. -/
def removePlanSubtree (i : ℕ) : PlanM Bool := do
  update fun plan => { plan with extracts := plan.extracts.remove i }
  removeCompress i
  removeBuild i
  pure true

def removeAll : List ℕ → PlanM Unit
  | [] => pure ()
  | c :: rest => do
    let _ ← recur (.remove c)
    removeAll rest

namespace Planner

variable (P : Planner)

/-- Sources the passes planned but ended up slicing none of come back out. -/
def dropUnusedSources (keep : Finset ℕ) (planned : List ℕ) : PlanM Unit := do
  let plan ← getState
  removeAll (planned.filter fun c =>
    c ∉ keep ∧ c ∉ plan.tabled ∧ ¬ plan.referencedBy P.tree.members.length c)

/-! ### Leaves and candidates -/

/-- The extract node a witness's finding makes of a member. -/
def extractOf (i : ℕ) : Option Extract :=
  if P.tree.Identified i then
    match (P.tree.findings i).find? Tree.attested with
    | some f => f.archive.map fun a => ⟨a, f.backend, (f.claims.head?.map Claim.statement).getD ""⟩
    | none => none
  else none

def planExtract (i : ℕ) : PlanM Bool :=
  match P.extractOf i with
  | some e => do
    update fun plan => { plan with extracts := plan.extracts.insert i e }
    pure true
  | none => pure false

/-- Plan a member as a source the erofs passes may slice. -/
def planSource (i : ℕ) : PlanM Bool :=
  if P.tree.subtreeIsFetchable i then recur (.node i) else pure false

/-- Whether a child earns a place: it is claimed, or can be planned, or extracted. -/
def planKid (c : ℕ) : PlanM Bool :=
  if P.tree.directClaimed c then pure true
  else do
    let planned ← recur (.node c)
    if planned then pure true else P.planExtract c

/-- Whether a file of an image has a node the passes may slice. -/
def planCandidate (c : ℕ) : PlanM Bool :=
  if P.tree.directClaimed c then pure true
  else do
    let extracted ← P.planExtract c
    if extracted then pure true else P.planSource c

/-! ### Compressors -/

end Planner

/-- The bytes of runs of a space. -/
def viewBytes (space : Bytes) (runs : List Run) : Bytes :=
  runs.flatMap fun r => (space.drop r.off).take r.len

/-- What a wrapper's head yields before the search. -/
inductive Probe where
  | gzip (header : Bytes)
  | zstd (flags : Zstd)

def probeWrapper (kind : String) (wrapper : Bytes) : Option Probe :=
  if kind = "gzip" then (parseGzipHeader wrapper).map Probe.gzip
  else if kind = "zstd" then
    if 5 ≤ wrapper.length then (parseZstdHeader (wrapper.take 5)).map Probe.zstd else none
  else none

/-- The encoder ran to completion, and gave these bytes. -/
def gives (run : Except String Bytes) (target : Bytes) : Bool :=
  match run with
  | .ok out => out = target
  | .error _ => false

def searchGzip (codecs : Codecs) (wrapper input : Bytes) (headerLen : ℕ) : Option GnuGzip :=
  if wrapper.length ≤ headerLen then none
  else
    (gnuGzipCandidates.flatMap fun level => [⟨level, false⟩, ⟨level, true⟩]).find? fun params =>
      gives (codecs.gzipBody params input) (wrapper.drop headerLen)

def searchZstd (codecs : Codecs) (wrapper input : Bytes) (flags : Zstd) : Option Zstd :=
  (zstdLevelCandidates.flatMap fun level =>
    [{ flags with level, singleThread := false }, { flags with level, singleThread := true }]).find?
      fun params => gives (codecs.zstdBody params input.length input) wrapper

/-- Try catalog compressors until one reproduces the wrapper from the decompressed bytes. -/
def searchComp (codecs : Codecs) (probe : Probe) (wrapper input : Bytes) : Option Comp :=
  match probe with
  | .gzip header => (searchGzip codecs wrapper input header.length).map (Comp.gzip · header)
  | .zstd flags => (searchZstd codecs wrapper input flags).map Comp.zstd

/-- The build of bytes that ride in the sidecar whole. -/
def syntheticBuild (space size : ℕ) : Build where
  segs := [.gap 0 size none none]
  dropped := 0
  space := space
  runs := [⟨0, 0, size⟩]

/-- What a wrapper that may become a compression node has: its child, the child's spool, the wrapper's
bytes, and the probe of its head. -/
structure Wrapper where
  child : ℕ
  space : ℕ
  input : Bytes
  bytes : Bytes
  probe : Probe

namespace Planner

variable (P : Planner)

/-- The checks before any child work. -/
def wrapper (i : ℕ) : Option Wrapper :=
  if P.tree.Identified i then
    match P.tree.kids i with
    | [c] =>
      if P.tree.Identified c then do
        let space ← (P.tree.member c).space
        let wext ← (P.tree.member i).extents
        let wspace ← P.spaces wext.src
        let bytes := viewBytes wspace wext.runs
        let probe ← probeWrapper (P.tree.member i).kind bytes
        some ⟨c, space, (P.spaces space).getD [], bytes, probe⟩
      else none
    | _ => none
  else none

/-- Record a compression node; a child nothing plans rides in the sidecar as an all-literal build. -/
def recordCompress (i : ℕ) (w : Wrapper) (how : Comp) (planned : Bool) : PlanM Bool := do
  let plan ← getState
  putState { plan with
    builds := if planned then plan.builds
      else plan.builds.insert w.child (syntheticBuild w.space (P.tree.member w.child).size)
    compress := plan.compress.insert i ⟨w.child, how⟩ }
  pure true

/-- Plan a wrapper as a compression node. -/
def planCompress (i : ℕ) : PlanM Bool :=
  match P.wrapper i with
  | none => pure false
  | some w => do
    let planned ← P.planKid w.child
    match searchComp P.codecs w.probe w.bytes w.input with
    | some how => P.recordCompress i w how planned
    | none =>
      if planned then do
        let _ ← recur (.remove w.child)
        pure false
      else pure false

end Planner

/-! ### Splices -/

/-- Map a child's runs into the splice's own space; nothing when a run lies in none of its runs. -/
def mapChild (runs : List Run) (c : ℕ) : List Run → Option (List Seg)
  | [] => some []
  | r :: rest =>
    match runs.find? fun own => own.off ≤ r.off ∧ r.off + r.len ≤ own.off + own.len with
    | some own =>
      (mapChild runs c rest).map
        (Seg.child c r.log r.len (own.log + (r.off - own.off)) r.off :: ·)
    | none => none

/-- What the loop over the children has accepted. -/
structure Accepted where
  segs : List Seg
  taken : Intervals
  dropped : ℕ

def Accepted.none : Accepted := ⟨[], [], 0⟩

def insertAll (taken : Intervals) (segs : List Seg) : Intervals :=
  segs.foldl (fun taken s => taken.insert s.pos s.len) taken

/-- Each piece of the child is admitted beside what earlier siblings took. -/
def fits (taken : Intervals) (pieces : List Seg) : Bool :=
  pieces.all fun p => taken.admits p.pos p.len

/-- The pieces of a child that may enter the splice. -/
def admitted (taken : Intervals) (runs : List Run) (c : ℕ) (cruns : List Run) : Option (List Seg) :=
  match mapChild runs c cruns with
  | some pieces => if fits taken pieces then some pieces else none
  | none => none

namespace Planner

variable (P : Planner)

def spliceKid (space : ℕ) (runs : List Run) (acc : Accepted) (c : ℕ) : PlanM Accepted :=
  match P.tree.rangeable space c with
  | none => pure acc
  | some cruns => do
    let planned ← P.planKid c
    if planned then
      match admitted acc.taken runs c cruns with
      | some pieces =>
        pure { acc with segs := acc.segs ++ pieces, taken := insertAll acc.taken pieces }
      | none => do
        let _ ← recur (.remove c)
        pure { acc with dropped := acc.dropped + 1 }
    else pure acc

def spliceKids (space : ℕ) (runs : List Run) : List ℕ → Accepted → PlanM Accepted
  | [], acc => pure acc
  | c :: rest, acc => do
    let acc ← P.spliceKid space runs acc c
    spliceKids space runs rest acc

end Planner

/-- `tile_gaps`, whose assertion panics. -/
def tiled (segs : List Seg) (size : ℕ) : Except PlanPanic (List Seg) :=
  match tileGaps segs size with
  | some tiled => .ok tiled
  | none => .error .overlapping

namespace Planner

variable (P : Planner)

/-- One call of `plan_build_inner`. -/
def planBuildInner (i : ℕ) (keepEmpty : Bool) : PlanM Bool :=
  if P.tree.Identified i then
    match P.tree.ground i with
    | none => pure false
    | some (space, runs) => do
      let acc ← P.spliceKids space runs (P.tree.kids i) .none
      let plan ← getState
      if acc.segs = [] ∧ i ≠ plan.root ∧ keepEmpty = false then pure false
      else do
        let segs ← lift (tiled (sortSegs acc.segs) (P.tree.member i).size)
        let plan ← getState
        putState { plan with builds := plan.builds.insert i ⟨segs, acc.dropped, space, runs⟩ }
        pure true
  else pure false

end Planner

/-! ### Extending an image's splice -/

/-- A segment's place in the image: its image offset becomes its position, and is translated to an
offset of the space through the runs. -/
def placeSeg (runs : List Run) (s : Seg) : Option Seg :=
  let place (imageAt len : ℕ) : Option ℕ :=
    (runs.find? fun r => r.log ≤ imageAt ∧ imageAt + len ≤ r.log + r.len).map fun r =>
      r.off + (imageAt - r.log)
  match s with
  | .tabled idx start len _ imageAt =>
    (place imageAt len).map fun rootOff => .tabled idx start len imageAt rootOff
  | .pcluster pc _ len imageAt =>
    (place imageAt len).map fun rootOff => .pcluster pc imageAt len rootOff
  | _ => none

/-- The segments of a batch that are placed and admitted, in order. -/
def spliceExtra (runs : List Run) (taken : Intervals) : List Seg → List Seg
  | [] => []
  | s :: rest =>
    match placeSeg runs s with
    | some s' =>
      if taken.admits s'.pos s'.len then
        s' :: spliceExtra runs (taken.insert s'.pos s'.len) rest
      else spliceExtra runs taken rest
    | none => spliceExtra runs taken rest

/-- The segments of a build that are not gaps. -/
def Build.solid (b : Build) : List Seg := b.segs.filter fun s => !s.isGap

/-- What a batch adds to a build. -/
def Build.extra (b : Build) (batch : List Seg) : List Seg :=
  spliceExtra b.runs (insertAll [] b.solid) batch

/-- Merge freshly planned segments into a planned build; nothing when there is no build. -/
def spliceIn (i : ℕ) (batch : List Seg) : PlanM (Except String Unit) := do
  let plan ← getState
  match plan.builds i with
  | none => pure (.error "erofs image has no build")
  | some b => do
    let size := (b.runs.map Run.len).sum
    let segs ← lift (tiled (sortSegs (b.solid ++ b.extra batch)) size)
    putState { plan with builds := plan.builds.insert i { b with segs := segs } }
    pure (.ok ())

/-! ### The passes over an image -/

/-- What the two passes accumulate over one image. -/
structure Passes where
  segs : List Seg
  stats : PcStats
  /-- Members a source was planned for. -/
  planned : List ℕ

def Passes.none : Passes := ⟨[], PcStats.zero, []⟩

/-- What a pass came to: a panic is passed on, an error is a value. -/
def outcome {α : Type} : Except Fault α → PlanM (Except String α)
  | .ok a => pure (.ok a)
  | .error .panic => fail .inPass
  | .error (.error message) => pure (.error message)
  | .error .unknownNode => pure (.error "unknown node")

/-- Append nodes to the plan, each with the segment that places it. -/
def pushNodes : List (PClusterNode × ℕ × ℕ) → PlanM (List Seg)
  | [] => pure []
  | (node, len, pa) :: rest => do
    let plan ← getState
    putState { plan with pclusters := plan.pclusters ++ [node] }
    let segs ← pushNodes rest
    pure (.pcluster plan.pclusters.length 0 len pa :: segs)

namespace Planner

variable (P : Planner)

/-- The child of an image that a listed file is, when it is one the passes may slice. -/
def byPath (i : ℕ) (f : FileItem) : Option ℕ :=
  let image := (P.tree.member i).path
  let inside := f.path
  match (P.tree.kids i).reverse.find? fun c => (P.tree.member c).path = s!"{image}!{inside}" with
  | some c => if (P.tree.member c).size = f.size ∧ P.tree.Identified c then some c else none
  | none => none

def ownFile (i : ℕ) (f : FileItem) : PlanM (List (ℕ × FileItem)) :=
  match if f.own then P.byPath i f else none with
  | some c => do
    let planned ← P.planCandidate c
    pure (if planned then [(c, f)] else [])
  | none => pure []

def ownTodo (i : ℕ) : List FileItem → PlanM (List (ℕ × FileItem))
  | [] => pure []
  | f :: rest => do
    let here ← P.ownFile i f
    let more ← ownTodo i rest
    pure (here ++ more)

/-- The tallies of a planned file that reach the image's. -/
def ownStats (stats st : PcStats) : PcStats :=
  { stats with
    verified := stats.verified + st.verified
    verbatim := stats.verbatim + st.verbatim
    mismatch := stats.mismatch + st.mismatch
    margin := stats.margin + st.margin
    notVerbatim := stats.notVerbatim + st.notVerbatim
    unverifiedMembers := stats.unverifiedMembers + st.unverifiedMembers }

def takeOwn : List PlannedFile → Passes → PlanM Passes
  | [], acc => pure acc
  | f :: rest, acc => do
    let placed ← pushNodes (f.nodes.map fun n => (n.1, n.1.size, n.2))
    takeOwn rest { acc with
      segs := acc.segs ++ placed ++ f.segs
      stats := ownStats acc.stats f.stats }

/-- Pass one: files not packed whole.  Gives the members whose digest came back. -/
def planOwnPclusters (i : ℕ) (img : ErofsImage) (files : List FileItem) (acc : Passes) :
    PlanM (Except String (Passes × List ℕ)) := do
  let todo ← P.ownTodo i files
  let all := (files.map fun f => f.ownPclusters.length).sum
  let attempted := (todo.map fun t => t.2.ownPclusters.length).sum
  let acc := { acc with
    planned := acc.planned ++ todo.map Prod.fst
    stats := { acc.stats with
      total := acc.stats.total + all
      uncovered := acc.stats.uncovered + (all - attempted) } }
  if todo = [] then pure (.ok (acc, []))
  else
    match ← outcome (img.ownFiles todo) with
    | .error e => pure (.error e)
    | .ok planned => do
      let acc ← takeOwn planned acc
      pure (.ok (acc, (planned.filter PlannedFile.proved).map PlannedFile.idx))

/-- The covers a file's packed extents make of its member. -/
def coversOf (c : ℕ) (f : FileItem) : List Cover :=
  f.packedExtents.map fun e => ⟨c, e.la, e.off, e.llen, !f.packedWhole⟩

/-- A file's covers over the packed stream, and the member if a source was planned for it.  A tail
counts only where the pass before read its file back; that pass planned the source already. -/
def packedFile (i : ℕ) (proved : List ℕ) (f : FileItem) : PlanM (List Cover × List ℕ) :=
  match if f.packedExtents.isEmpty then none else P.byPath i f with
  | none => pure ([], [])
  | some c =>
    if f.packedWhole then do
      let planned ← P.planCandidate c
      pure (if planned then (coversOf c f, [c]) else ([], []))
    else pure (if c ∈ proved then (coversOf c f, []) else ([], []))

def packedCovers (i : ℕ) (proved : List ℕ) : List FileItem → PlanM (List Cover × List ℕ)
  | [] => pure ([], [])
  | f :: rest => do
    let here ← P.packedFile i proved f
    let more ← packedCovers i proved rest
    pure (here.1 ++ more.1, here.2 ++ more.2)

end Planner

/-- Longest first at a shared start. -/
def sortCovers (covers : List Cover) : List Cover :=
  covers.insertionSort fun a b => a.pstart < b.pstart ∨ (a.pstart = b.pstart ∧ b.len ≤ a.len)

/-- What to do with a pcluster, given how much of it is covered: a node earns its place only by
shrinking the residue. -/
def eligibility (covered : ℕ) (pc : PCluster) : Elig :=
  if covered = 0 then .no
  else if pc.lzma then if pc.llen - covered < pc.plen then .encode else .no
  else .verbatim

def Cover.touches (c : Cover) (pc : PCluster) : Bool :=
  c.pstart < pc.la + pc.llen && pc.la < c.stop

/-- The sweep's orders, over covers in order. -/
def sweepSet (covers : List Cover) (pcs : List PCluster) : SweepSet :=
  let union := mergeSpans covers
  let eligible := pcs.map fun pc => eligibility (overlap union pc.la pc.llen) pc
  let used := covers.filter fun c =>
    (pcs.zip eligible).any fun pe => pe.2 ≠ .no && c.touches pe.1
  { eligible := eligible
    used := used
    need := (pcs.zip eligible).map fun pe =>
      pe.2 ≠ .no || used.any fun c => !c.proved && c.touches pe.1 }

namespace Planner

variable (P : Planner)

/-- Whether a swept node slices a member whose bytes did not come back. -/
def badNode (failed : List ℕ) (n : ℕ × PClusterNode) : Bool := n.2.members.any (· ∈ failed)

def keptSeg (failed : List ℕ) : Seg → Bool
  | .tabled idx _ _ _ _ => idx ∉ failed
  | _ => true

/-- What a sweep adds to the plan and to the passes. -/
def takeSwept (pcs : List PCluster) (swept : Swept) (spool : Bytes) (acc : Passes) :
    PlanM Passes := do
  update fun plan => { plan with literals := some spool }
  let bad := swept.nodes.filter (badNode swept.failed)
  let kept := swept.nodes.filter fun n => !badNode swept.failed n
  let segs := swept.segs.filter (keptSeg swept.failed)
  let stats := acc.stats.add swept.stats
  let placed ← pushNodes (kept.map fun n =>
    (n.2, (pcs.getD n.1 default).plen, (pcs.getD n.1 default).pa))
  pure
    { acc with
      segs := acc.segs ++ segs ++ placed
      stats := { stats with verified := stats.verified - bad.length } }

/-- The sweep of a packed stream that has covers. -/
def sweepPacked (img : ErofsImage) (pcs : List PCluster) (covers : List Cover) (acc : Passes) :
    PlanM (Except String Passes) :=
  let set := sweepSet (sortCovers covers) pcs
  let acc := { acc with stats := { acc.stats with
    uncovered := acc.stats.uncovered + (set.eligible.filter (· = .no)).length } }
  if set.eligible.all (· = .no) then pure (.ok acc)
  else do
    let plan ← getState
    putState { plan with literals := none }
    match ← outcome (img.sweep pcs set plan.literals) with
    | .error e => pure (.error e)
    | .ok (swept, spool) => do
      let acc ← takeSwept pcs swept spool acc
      pure (.ok acc)

/-- Pass two: the packed inode. -/
def planPackedInode (i : ℕ) (img : ErofsImage) (files : List FileItem) (proved : List ℕ)
    (acc : Passes) : PlanM (Except String Passes) :=
  match img.packedPclusters with
  | .error e => pure (.error e)
  | .ok pcs =>
    let acc := { acc with stats := { acc.stats with total := acc.stats.total + pcs.length } }
    if pcs = [] then pure (.ok acc)
    else do
      let found ← P.packedCovers i proved files
      let acc := { acc with planned := acc.planned ++ found.2 }
      if found.1 = [] then
        pure (.ok { acc with
          stats := { acc.stats with uncovered := acc.stats.uncovered + pcs.length } })
      else sweepPacked img pcs found.1 acc

/-- The passes of `plan_erofs` over an opened image. -/
def planPasses (i : ℕ) (img : ErofsImage) : PlanM (Except String Passes) :=
  match img.lzmaCfg with
  | .error e => pure (.error e)
  -- No MicroLZMA configured: nothing to rebuild.
  | .ok none => pure (.ok .none)
  | .ok (some cfg) =>
    if cfg.format ≠ 0 then
      let format := cfg.format
      pure (.error s!"unknown erofs lzma format {format} — pclusters stay literal")
    else
      match img.files with
      | .error e => pure (.error e)
      | .ok files => do
        match ← P.planOwnPclusters i img files .none with
        | .error e => pure (.error e)
        | .ok (acc, proved) => P.planPackedInode i img files proved acc

/-- Plan the compressed bulk of an erofs image. -/
def planErofs (i : ℕ) : PlanM (Except String PcStats) :=
  match P.image i with
  | .error e => pure (.error e)
  | .ok img => do
    match ← P.planPasses i img with
    | .error e => pure (.error e)
    | .ok acc => do
      let plan ← getState
      P.dropUnusedSources (tabledOf acc.segs plan.pclusters) acc.planned
      if acc.segs = [] then pure (.ok acc.stats)
      else do
        update fun plan =>
          { plan with tabled := plan.tabled ∪ tabledOf acc.segs plan.pclusters }
        match ← spliceIn i acc.segs with
        | .error e => pure (.error e)
        | .ok () => pure (.ok acc.stats)

end Planner

/-- Some segment of the member's build is not a gap. -/
def Plan.useful (plan : Plan) (i : ℕ) : Bool :=
  match plan.builds i with
  | some b => b.segs.any fun s => !s.isGap
  | none => false

namespace Planner

variable (P : Planner)

/-- The passes over an image that has its build; an error leaves the rest literal. -/
def planImage (i : ℕ) : PlanM Unit := do
  match ← P.planErofs i with
  | .ok stats => update fun plan => { plan with pcstats := plan.pcstats.add stats }
  | .error _ => pure ()

/-- An image whose build came to nothing is taken back. -/
def keepUseful (i : ℕ) : PlanM Bool := do
  let plan ← getState
  if plan.useful i = false ∧ i ≠ plan.root then do
    let _ ← recur (.remove i)
    pure false
  else pure true

def planErofsNode (i : ℕ) : PlanM Bool := do
  let built ← recur (.build i true)
  if built then do
    P.planImage i
    keepUseful i
  else pure false

def planWrapped (i : ℕ) : PlanM Bool :=
  let kind := (P.tree.member i).kind
  if kind = "gzip" ∨ kind = "zstd" then P.planCompress i else pure false

/-- One call of `plan_node`. -/
def planNode (i : ℕ) : PlanM Bool := do
  let wrapped ← P.planWrapped i
  if wrapped then pure true
  else if (P.tree.member i).kind = "erofs" then P.planErofsNode i
  else recur (.build i false)

def body : Proc → PlanM Bool
  | .node i => P.planNode i
  | .build i keepEmpty => P.planBuildInner i keepEmpty
  | .remove i => removePlanSubtree i

/-- The planner, as calls on a function and the plan so far. -/
def run : Proc × Plan → Prog (Proc × Plan) (Except PlanPanic (Bool × Plan))
    (Except PlanPanic (Bool × Plan)) :=
  procedure P.body

end Planner

end Hashdex
