import Hashdex.Recipe.Planner

/-!
# What planning keeps

* `Plan.Good`: every record of a plan is one the planner makes: splices tile their nodes, children are
  where their runs say, compression nodes come from a search that matched
* `Later`: a plan that another has led to
* `planner_later`: every call of the planner leads to a later plan, so a good plan stays good
-/

namespace Hashdex

open RecProg RecProg.RecM Tiling

/-! ### Good plans -/

/-- A range of a splice lies in one run of its node, and the offset is where the run puts it. -/
def Placed (runs : List Run) (pos len rootOff : ℕ) : Prop :=
  ∃ r ∈ runs, r.log ≤ pos ∧ pos + len ≤ r.log + r.len ∧ rootOff = r.off + (pos - r.log)

/-- A placed range lies inside the node. -/
theorem Placed.le_size {runs : List Run} {size pos len rootOff : ℕ}
    (h : Placed runs pos len rootOff) (hruns : Tiles Run.log Run.len 0 size runs) :
    pos + len ≤ size := by
  obtain ⟨r, hr, -, hend, -⟩ := h
  exact hend.trans (hruns.bounds hr).2

theorem getElem?_of_prefix {α : Type} {l l' : List α} (h : l <+: l') {k : ℕ} {a : α}
    (hk : l[k]? = some a) : l'[k]? = some a := by
  obtain ⟨t, rfl⟩ := h
  rw [List.getElem?_append_left (List.getElem?_eq_some_iff.mp hk).1]
  exact hk

/-- A segment the planner puts into a splice over these runs of the space. -/
def Seg.Good (T : Tree) (i space : ℕ) (runs : List Run) (pclusters : List PClusterNode) : Seg → Prop
  | .child idx start len pos rootOff =>
    idx ∈ T.kids i ∧ Placed runs pos len rootOff ∧
      ∃ cruns, T.rangeable space idx = some cruns ∧ ⟨start, rootOff, len⟩ ∈ cruns
  | .tabled idx _ len pos rootOff => T.Identified idx ∧ 0 < len ∧ Placed runs pos len rootOff
  | .pcluster pc pos len rootOff =>
    (∃ node, pclusters[pc]? = some node ∧ node.size = len) ∧ 0 < len ∧ Placed runs pos len rootOff
  | .gap _ len residueOff inline => 0 < len ∧ residueOff = none ∧ inline = none

theorem Seg.Good.len_pos {T : Tree} {i space : ℕ} {runs : List Run} {pclusters : List PClusterNode}
    {s : Seg} (h : s.Good T i space runs pclusters) : 0 < s.len := by
  cases s with
  | child idx start len pos rootOff =>
    obtain ⟨-, -, cruns, hc, hmem⟩ := h
    exact (Tree.rangeable_eq_some hc).2.2 _ hmem
  | tabled => exact h.2.1
  | pcluster => exact h.2.1
  | gap => exact h.1

theorem Seg.Good.mono {T : Tree} {i space : ℕ} {runs : List Run} {pcs pcs' : List PClusterNode}
    (hpre : pcs <+: pcs') {s : Seg} (h : s.Good T i space runs pcs) : s.Good T i space runs pcs' := by
  cases s with
  | pcluster pc pos len rootOff =>
    obtain ⟨⟨node, hnode, hsize⟩, hrest⟩ := h
    exact ⟨⟨node, getElem?_of_prefix hpre hnode, hsize⟩, hrest⟩
  | _ => exact h

structure Build.Good (T : Tree) (i : ℕ) (pclusters : List PClusterNode) (b : Build) : Prop where
  identified : T.Identified i
  ground : T.ground i = some (b.space, b.runs)
  tiles : Tiles Seg.pos Seg.len 0 (T.member i).size b.segs
  segs : ∀ s ∈ b.segs, s.Good T i b.space b.runs pclusters

/-- What the build takes bytes of is a child of the node. -/
def Build.Kids (T : Tree) (i : ℕ) (b : Build) : Prop :=
  ∀ s ∈ b.segs, ∀ c, s.refersTo c = true → c ∈ T.kids i

structure Plan.Good (P : Planner) (plan : Plan) : Prop where
  builds : ∀ i b, plan.builds i = some b → b.Good P.tree i plan.pclusters
  compress : ∀ i c, plan.compress i = some c → ∃ w, P.wrapper i = some w ∧ c.child = w.child ∧
    searchComp P.codecs w.probe w.bytes w.input = some c.how
  extracts : ∀ i e, plan.extracts i = some e → P.extractOf i = some e
  nodes : ∀ node ∈ plan.pclusters, node.members ≠ [] ∧ (∀ i ∈ node.members, P.tree.Identified i) ∧
    0 < node.size
  kids : ∀ i b, plan.builds i = some b → b.Kids P.tree i

theorem Plan.good_empty (P : Planner) (root : ℕ) : (Plan.empty root).Good P where
  builds _ _ h := nomatch h
  compress _ _ h := nomatch h
  extracts _ _ h := nomatch h
  nodes _ h := nomatch h
  kids _ _ h := nomatch h

/-! ### What the checks before planning give -/

theorem wrapper_eq_some {P : Planner} {i : ℕ} {w : Wrapper} (h : P.wrapper i = some w) :
    P.tree.Identified i ∧ P.tree.kids i = [w.child] ∧ P.tree.Identified w.child ∧
      (P.tree.member w.child).space = some w.space ∧ w.input = (P.spaces w.space).getD [] ∧
      ∃ ext space, (P.tree.member i).extents = some ext ∧ P.spaces ext.src = some space ∧
        w.bytes = viewBytes space ext.runs ∧
        probeWrapper (P.tree.member i).kind w.bytes = some w.probe := by
  rw [Planner.wrapper] at h
  split at h
  · next hid =>
    split at h
    · next c hkids =>
      split at h
      · next hcid =>
        obtain ⟨space, hspace, h⟩ := Option.bind_eq_some_iff.mp h
        obtain ⟨ext, hext, h⟩ := Option.bind_eq_some_iff.mp h
        obtain ⟨wspace, hwspace, h⟩ := Option.bind_eq_some_iff.mp h
        obtain ⟨probe, hprobe, h⟩ := Option.bind_eq_some_iff.mp h
        cases h
        exact ⟨hid, hkids, hcid, hspace, rfl, ext, wspace, hext, hwspace, rfl, hprobe⟩
      · cases h
    · cases h
  · cases h

theorem byPath_eq_some {P : Planner} {i c : ℕ} {f : FileItem} (h : P.byPath i f = some c) :
    c ∈ P.tree.kids i ∧ P.tree.Identified c := by
  rw [Planner.byPath] at h
  split at h
  · next d hd =>
    split at h
    · next hok =>
      cases h
      exact ⟨List.mem_reverse.mp (List.mem_of_find?_eq_some hd), hok.2⟩
    · cases h
  · cases h

theorem extractOf_identified {P : Planner} {i : ℕ} {e : Extract} (h : P.extractOf i = some e) :
    P.tree.Identified i := by
  rw [Planner.extractOf] at h
  split at h
  · assumption
  · cases h

/-! ### Later plans -/

/-- A plan that planning has led to from another. -/
structure Later (P : Planner) (s s' : Plan) : Prop where
  nodes : s.pclusters <+: s'.pclusters
  root : s'.root = s.root
  good : s.Good P → s'.Good P

variable {P : Planner}

theorem Later.refl (s : Plan) : Later P s s := ⟨List.prefix_refl _, rfl, id⟩

theorem Later.trans {s s' s'' : Plan} (h : Later P s s') (h' : Later P s' s'') : Later P s s'' :=
  ⟨h.nodes.trans h'.nodes, h'.root.trans h.root, fun hg => h'.good (h.good hg)⟩

/-- Records may go, and fields no record depends on may change. -/
theorem Later.of_removed {s s' : Plan} (hnodes : s'.pclusters = s.pclusters) (hroot : s'.root = s.root)
    (hb : ∀ i b, s'.builds i = some b → s.builds i = some b)
    (hc : ∀ i c, s'.compress i = some c → s.compress i = some c)
    (he : ∀ i e, s'.extracts i = some e → s.extracts i = some e) : Later P s s' where
  nodes := hnodes ▸ List.prefix_refl _
  root := hroot
  good hg :=
    { builds := fun i b h => hnodes ▸ hg.builds i b (hb i b h)
      compress := fun i c h => hg.compress i c (hc i c h)
      extracts := fun i e h => hg.extracts i e (he i e h)
      nodes := hnodes ▸ hg.nodes
      kids := fun i b h => hg.kids i b (hb i b h) }

/-- A new build that is good may be recorded. -/
theorem Later.insert_build {s : Plan} {i : ℕ} {b : Build} (h : s.Good P → b.Good P.tree i s.pclusters)
    (hkids : s.Good P → b.Kids P.tree i) : Later P s { s with builds := s.builds.insert i b } where
  nodes := List.prefix_refl _
  root := rfl
  good hg :=
    { builds := fun j b' hj => by
        rcases IdxMap.insert_eq_some hj with ⟨rfl, rfl⟩ | ⟨-, hj⟩
        · exact h hg
        · exact hg.builds j b' hj
      compress := hg.compress
      extracts := hg.extracts
      nodes := hg.nodes
      kids := fun j b' hj => by
        rcases IdxMap.insert_eq_some hj with ⟨rfl, rfl⟩ | ⟨-, hj⟩
        · exact hkids hg
        · exact hg.kids j b' hj }

/-! ### Pieces of splices -/

theorem tiled_eq_ok {segs tiling : List Seg} {size : ℕ} :
    tiled segs size = .ok tiling ↔ tileGaps segs size = some tiling := by
  rw [tiled]
  cases tileGaps segs size <;> simp

theorem mem_mapChild {runs cruns : List Run} {c : ℕ} {pieces : List Seg}
    (h : mapChild runs c cruns = some pieces) {p : Seg} (hp : p ∈ pieces) :
    ∃ r ∈ cruns, ∃ own ∈ runs, own.off ≤ r.off ∧ r.off + r.len ≤ own.off + own.len ∧
      p = .child c r.log r.len (own.log + (r.off - own.off)) r.off := by
  induction cruns generalizing pieces with
  | nil =>
    cases h
    cases hp
  | cons r rest ih =>
    rw [mapChild] at h
    split at h
    · next own hown =>
      obtain ⟨pieces', hrest, rfl⟩ := Option.map_eq_some_iff.mp h
      rcases List.mem_cons.mp hp with rfl | hp
      · have hin : own.off ≤ r.off ∧ r.off + r.len ≤ own.off + own.len := by
          simpa using List.find?_some hown
        exact ⟨r, List.mem_cons_self, own, List.mem_of_find?_eq_some hown, hin.1, hin.2, rfl⟩
      · obtain ⟨r', hr', hrest'⟩ := ih hrest hp
        exact ⟨r', List.mem_cons_of_mem r hr', hrest'⟩
    · cases h

theorem admitted_eq_some {taken : Intervals} {runs cruns : List Run} {c : ℕ} {pieces : List Seg} :
    admitted taken runs c cruns = some pieces ↔
      mapChild runs c cruns = some pieces ∧ fits taken pieces = true := by
  rw [admitted]
  cases mapChild runs c cruns with
  | none => simp
  | some p =>
    by_cases hf : fits taken p = true
    · simp only [hf, if_true, Option.some.injEq]
      exact ⟨fun h => ⟨h, h ▸ hf⟩, fun h => h.1⟩
    · simp only [hf]
      constructor
      · intro h
        cases h
      · intro ⟨h, hf'⟩
        rw [Option.some.inj h] at hf
        exact absurd hf' hf

/-- The pieces of an admitted child are good. -/
theorem good_of_mem_admitted {T : Tree} {i space c : ℕ} {runs cruns : List Run} {taken : Intervals}
    (hc : c ∈ T.kids i) (hruns : T.rangeable space c = some cruns) {pieces : List Seg}
    (h : admitted taken runs c cruns = some pieces) {p : Seg} (hp : p ∈ pieces) :
    p.Good T i space runs [] ∧ p.isGap = false ∧ ∀ c, p.refersTo c = true → c ∈ T.kids i := by
  obtain ⟨r, hr, own, hown, hlo, hhi, rfl⟩ := mem_mapChild (admitted_eq_some.mp h).1 hp
  refine ⟨⟨hc, ⟨own, hown, Nat.le_add_right _ _, by omega, by omega⟩, cruns, hruns, hr⟩, rfl, ?_⟩
  intro d hd
  rwa [← of_decide_eq_true hd]

/-- What the loop over a node's children has accepted is good. -/
def Accepted.Good (T : Tree) (i space : ℕ) (runs : List Run) (acc : Accepted) : Prop :=
  ∀ p ∈ acc.segs, p.Good T i space runs [] ∧ p.isGap = false ∧
    ∀ c, p.refersTo c = true → c ∈ T.kids i

theorem Accepted.good_none {T : Tree} {i space : ℕ} {runs : List Run} :
    Accepted.none.Good T i space runs := fun _ h => nomatch h

theorem Accepted.Good.mono {T : Tree} {i space : ℕ} {runs : List Run} {acc : Accepted}
    (h : acc.Good T i space runs) (pclusters : List PClusterNode) {p : Seg} (hp : p ∈ acc.segs) :
    p.Good T i space runs pclusters := (h p hp).1.mono (List.nil_prefix)

theorem Accepted.Good.solid {T : Tree} {i space : ℕ} {runs : List Run} {acc : Accepted}
    (h : acc.Good T i space runs) (p : Seg) (hp : p ∈ acc.segs) : p.isGap = false := (h p hp).2.1

/-- A good segment that is not a gap lies inside its node. -/
theorem Seg.Good.le_size {T : Tree} {i space size : ℕ} {runs : List Run}
    {pclusters : List PClusterNode} {s : Seg} (h : s.Good T i space runs pclusters)
    (hs : s.isGap = false) (hruns : Tiles Run.log Run.len 0 size runs) : s.pos + s.len ≤ size := by
  cases s with
  | child => exact h.2.1.le_size hruns
  | tabled => exact h.2.2.le_size hruns
  | pcluster => exact h.2.2.le_size hruns
  | gap => cases hs

/-- Good segments that are not gaps, filled in, make a good build. -/
theorem good_tiled {T : Tree} {i space dropped : ℕ} {runs : List Run}
    {pclusters : List PClusterNode} {segs tiling : List Seg} (hid : T.Identified i)
    (hground : T.ground i = some (space, runs))
    (h : tileGaps segs (T.member i).size = some tiling)
    (hsegs : ∀ s ∈ segs, s.Good T i space runs pclusters)
    (hsolid : ∀ s ∈ segs, s.isGap = false) :
    (Build.mk tiling dropped space runs).Good T i pclusters where
  identified := hid
  ground := hground
  tiles := tiles_tileGaps h fun s hs =>
    (hsegs s hs).le_size (hsolid s hs) (Tree.runs_tile hground)
  segs s hs := by
    rcases mem_tileLoop h hs with hs | ⟨p, q, rfl, hlt⟩
    · exact hsegs s hs
    · exact ⟨Nat.sub_pos_of_lt hlt, rfl, rfl⟩

/-- Gaps refer to nothing. -/
theorem kids_tiled {T : Tree} {i dropped space : ℕ} {runs : List Run} {segs tiling : List Seg}
    {size : ℕ} (h : tileGaps segs size = some tiling)
    (hsegs : ∀ s ∈ segs, ∀ c, s.refersTo c = true → c ∈ T.kids i) :
    (Build.mk tiling dropped space runs).Kids T i := by
  intro s hs c hc
  rcases mem_tileLoop h hs with hs | ⟨p, q, rfl, -⟩
  · exact hsegs s hs c hc
  · cases hc

/-- The all-literal build of a wrapper's child. -/
theorem good_syntheticBuild {i : ℕ} {w : Wrapper} (hw : P.wrapper i = some w)
    {pclusters : List PClusterNode} :
    (syntheticBuild w.space (P.tree.member w.child).size).Good P.tree w.child pclusters := by
  obtain ⟨-, -, hid, hspace, -⟩ := wrapper_eq_some hw
  have hsize : 0 < (P.tree.member w.child).size := by
    have hmin : identityMinBytes ≤ (P.tree.member w.child).size := hid.1
    rw [identityMinBytes] at hmin
    omega
  refine ⟨hid, ?_, ⟨rfl, Nat.zero_add _⟩, fun s hs => ?_⟩
  · rw [Tree.ground, hspace]
    rfl
  · rw [List.mem_singleton.mp hs]
    exact ⟨hsize, rfl, rfl⟩

/-! ### Batches of an image's passes -/

/-- A segment as the passes hand it over, its position not yet settled: it slices members of the
list. -/
def Seg.Fresh (idxs : List ℕ) (pclusters : List PClusterNode) : Seg → Prop
  | .tabled idx _ len _ _ => idx ∈ idxs ∧ 0 < len
  | .pcluster pc _ len _ => ∃ node, pclusters[pc]? = some node ∧ node.size = len ∧ node.Slices idxs
  | _ => False

theorem PClusterNode.Slices.mono {node : PClusterNode} {idxs idxs' : List ℕ}
    (h : node.Slices idxs) (hsub : ∀ i ∈ idxs, i ∈ idxs') : node.Slices idxs' :=
  ⟨fun i hi => hsub i (h.mem i hi), h.nonempty, h.size_pos⟩

theorem Seg.Fresh.mono {idxs idxs' : List ℕ} {pcs pcs' : List PClusterNode} {s : Seg}
    (h : s.Fresh idxs pcs) (hsub : ∀ i ∈ idxs, i ∈ idxs') (hpre : pcs <+: pcs') :
    s.Fresh idxs' pcs' := by
  cases s with
  | tabled idx _ _ _ _ => exact ⟨hsub idx h.1, h.2⟩
  | pcluster pc pos len rootOff =>
    obtain ⟨node, hnode, hsize, hslices⟩ := h
    exact ⟨node, getElem?_of_prefix hpre hnode, hsize, hslices.mono hsub⟩
  | _ => exact h

theorem Seg.Slices.fresh {idxs : List ℕ} {pclusters : List PClusterNode} {s : Seg}
    (h : s.Slices idxs) : s.Fresh idxs pclusters := by
  cases s with
  | tabled => exact h
  | _ => exact h.elim

/-- The members a fresh segment refers to are on the list, and there is at least one. -/
theorem Seg.Fresh.tabledMembers {idxs : List ℕ} {pclusters : List PClusterNode} {s : Seg}
    (h : s.Fresh idxs pclusters) :
    s.tabledMembers pclusters ≠ [] ∧ ∀ i ∈ s.tabledMembers pclusters, i ∈ idxs := by
  cases s with
  | tabled idx _ _ _ _ =>
    exact ⟨List.cons_ne_nil _ _, fun i hi => List.mem_singleton.mp hi ▸ h.1⟩
  | pcluster pc _ _ _ =>
    obtain ⟨node, hnode, -, hslices⟩ := h
    rw [Seg.tabledMembers, hnode]
    exact ⟨hslices.nonempty, hslices.mem⟩
  | _ => exact h.elim

/-- What the passes over an image have accumulated: members planned are identified children of it,
and only these are sliced. -/
structure Passes.Good (T : Tree) (i : ℕ) (pclusters : List PClusterNode) (acc : Passes) : Prop where
  segs : ∀ s ∈ acc.segs, s.Fresh acc.planned pclusters
  planned : ∀ c ∈ acc.planned, c ∈ T.kids i ∧ T.Identified c

theorem Passes.good_none {T : Tree} {i : ℕ} {pclusters : List PClusterNode} :
    Passes.none.Good T i pclusters := ⟨fun _ h => (nomatch h), fun _ h => nomatch h⟩

theorem Passes.Good.mono {T : Tree} {i : ℕ} {pcs pcs' : List PClusterNode} {acc : Passes}
    (h : acc.Good T i pcs) (hpre : pcs <+: pcs') : acc.Good T i pcs' :=
  ⟨fun s hs => (h.segs s hs).mono (fun _ hi => hi) hpre, h.planned⟩

/-- More members may be planned. -/
theorem Passes.Good.plan {T : Tree} {i : ℕ} {pcs : List PClusterNode} {acc : Passes}
    (h : acc.Good T i pcs) {cs : List ℕ} (hcs : ∀ c ∈ cs, c ∈ T.kids i ∧ T.Identified c) :
    ({ acc with planned := acc.planned ++ cs } : Passes).Good T i pcs where
  segs s hs := (h.segs s hs).mono (fun _ hi => List.mem_append_left _ hi) (List.prefix_refl _)
  planned c hc := (List.mem_append.mp hc).elim (h.planned c) (hcs c)

/-- A fresh segment that finds its place is good there. -/
theorem Seg.Fresh.good {T : Tree} {i space : ℕ} {runs : List Run} {pclusters : List PClusterNode}
    {idxs : List ℕ} (hid : ∀ i ∈ idxs, T.Identified i) {s s' : Seg} (h : s.Fresh idxs pclusters)
    (hs : placeSeg runs s = some s') :
    s'.Good T i space runs pclusters ∧ s'.isGap = false := by
  have hplace : ∀ {imageAt len rootOff : ℕ},
      ((runs.find? fun r => r.log ≤ imageAt ∧ imageAt + len ≤ r.log + r.len).map fun r =>
        r.off + (imageAt - r.log)) = some rootOff → Placed runs imageAt len rootOff := by
    intro imageAt len rootOff hmap
    obtain ⟨r, hfind, rfl⟩ := Option.map_eq_some_iff.mp hmap
    have hin : r.log ≤ imageAt ∧ imageAt + len ≤ r.log + r.len := by
      simpa using List.find?_some hfind
    exact ⟨r, List.mem_of_find?_eq_some hfind, hin.1, hin.2, rfl⟩
  cases s with
  | tabled idx start len pos imageAt =>
    obtain ⟨rootOff, hr, rfl⟩ := Option.map_eq_some_iff.mp hs
    exact ⟨⟨hid idx h.1, h.2, hplace hr⟩, rfl⟩
  | pcluster pc pos len imageAt =>
    obtain ⟨rootOff, hr, rfl⟩ := Option.map_eq_some_iff.mp hs
    obtain ⟨node, hnode, hsize, hslices⟩ := h
    exact ⟨⟨⟨node, hnode, hsize⟩, hsize ▸ hslices.size_pos, hplace hr⟩, rfl⟩
  | _ => cases hs

theorem mem_spliceExtra {runs : List Run} {taken : Intervals} {batch : List Seg} {s' : Seg}
    (h : s' ∈ spliceExtra runs taken batch) : ∃ s ∈ batch, placeSeg runs s = some s' := by
  induction batch generalizing taken with
  | nil => cases h
  | cons s rest ih =>
    have hrest : ∀ {taken}, s' ∈ spliceExtra runs taken rest →
        ∃ t ∈ s :: rest, placeSeg runs t = some s' := by
      intro taken h
      obtain ⟨t, ht, hplace⟩ := ih h
      exact ⟨t, List.mem_cons_of_mem s ht, hplace⟩
    rw [spliceExtra] at h
    split at h
    · next t ht =>
      split at h
      · rcases List.mem_cons.mp h with rfl | h
        · exact ⟨s, List.mem_cons_self, ht⟩
        · exact hrest h
      · exact hrest h
    · exact hrest h

/-- What a segment refers to does not change with its place. -/
theorem Seg.Fresh.kids {pclusters : List PClusterNode} {idxs : List ℕ} {runs : List Run} {s s' : Seg}
    (h : s.Fresh idxs pclusters) (hs : placeSeg runs s = some s') {c : ℕ}
    (hc : s'.refersTo c = true) : c ∈ idxs := by
  cases s with
  | tabled idx start len pos imageAt =>
    obtain ⟨rootOff, -, rfl⟩ := Option.map_eq_some_iff.mp hs
    rw [← of_decide_eq_true hc]
    exact h.1
  | pcluster pc pos len imageAt =>
    obtain ⟨rootOff, -, rfl⟩ := Option.map_eq_some_iff.mp hs
    cases hc
  | _ => cases hs

theorem kids_spliced {T : Tree} {i : ℕ} {b : Build} {pclusters : List PClusterNode} {idxs : List ℕ}
    (hidxs : ∀ j ∈ idxs, j ∈ T.kids i) {batch tiling : List Seg} {size : ℕ} (hb : b.Kids T i)
    (hbatch : ∀ s ∈ batch, s.Fresh idxs pclusters)
    (h : tileGaps (sortSegs (b.solid ++ b.extra batch)) size = some tiling) :
    ({ b with segs := tiling } : Build).Kids T i := by
  apply kids_tiled h
  intro s hs c hc
  rcases List.mem_append.mp (mem_sortSegs.mp hs) with hs | hs
  · exact hb s (List.mem_filter.mp hs).1 c hc
  · obtain ⟨t, ht, hplace⟩ := mem_spliceExtra hs
    exact hidxs c ((hbatch t ht).kids hplace hc)

/-- Splicing a fresh batch into a good build gives a good build. -/
theorem good_spliced {T : Tree} {i : ℕ} {b : Build} {pclusters : List PClusterNode}
    {idxs : List ℕ} (hid : ∀ i ∈ idxs, T.Identified i) {batch tiling : List Seg}
    (hb : b.Good T i pclusters) (hbatch : ∀ s ∈ batch, s.Fresh idxs pclusters)
    (h : tileGaps (sortSegs (b.solid ++ b.extra batch)) (b.runs.map Run.len).sum = some tiling) :
    ({ b with segs := tiling } : Build).Good T i pclusters := by
  have hsize : (b.runs.map Run.len).sum = (T.member i).size := by
    rw [← (Tree.runs_tile hb.ground).sum_len, Nat.zero_add]
  have hall : ∀ s ∈ sortSegs (b.solid ++ b.extra batch),
      s.Good T i b.space b.runs pclusters ∧ s.isGap = false := by
    intro s hs
    rcases List.mem_append.mp (mem_sortSegs.mp hs) with hs | hs
    · obtain ⟨hmem, hgap⟩ := List.mem_filter.mp hs
      exact ⟨hb.segs s hmem, by simpa using hgap⟩
    · obtain ⟨t, ht, hplace⟩ := mem_spliceExtra hs
      exact (hbatch t ht).good hid hplace
  rw [hsize] at h
  exact good_tiled hb.identified hb.ground h (fun s hs => (hall s hs).1) fun s hs => (hall s hs).2

/-! ### Parts that lead to a later plan -/

section Parts

variable {E : Oracle Proc Plan PlanPanic Bool} {α β : Type}

/-- The part calls and yields only in later plans, and yields with `Q`. -/
structure Leads (P : Planner) (E : Oracle Proc Plan PlanPanic Bool) (m : PlanM α) (s : Plan)
    (Q : α → Plan → Prop) : Prop where
  calls : ∀ n s', Reaches E m s n s' → Later P s s'
  yields : ∀ a s', Yields E m s a s' → Later P s s' ∧ Q a s'

theorem leads_pure {s : Plan} {a : α} {Q : α → Plan → Prop} (h : Q a s) :
    Leads P E (pure a : PlanM α) s Q where
  calls _ _ hr := absurd hr reaches_pure
  yields b s' hy := by
    obtain ⟨rfl, rfl⟩ := yields_pure.mp hy
    exact ⟨Later.refl s, h⟩

theorem leads_fail {s : Plan} {e : PlanPanic} {Q : α → Plan → Prop} :
    Leads P E (fail e : PlanM α) s Q where
  calls _ _ hr := absurd hr reaches_fail
  yields _ _ hy := absurd hy yields_fail

theorem leads_lift {s : Plan} {x : Except PlanPanic α} {Q : α → Plan → Prop}
    (h : ∀ a, x = .ok a → Q a s) : Leads P E (lift x : PlanM α) s Q where
  calls _ _ hr := absurd hr reaches_lift
  yields a s' hy := by
    obtain ⟨hx, rfl⟩ := yields_lift.mp hy
    exact ⟨Later.refl s, h a hx⟩

theorem leads_bind {m : PlanM α} {f : α → PlanM β} {s : Plan} {R : α → Plan → Prop}
    {Q : β → Plan → Prop} (hm : Leads P E m s R)
    (hf : ∀ a s', Later P s s' → R a s' → Leads P E (f a) s' Q) : Leads P E (m >>= f) s Q where
  calls n s'' hr := by
    rcases reaches_bind.mp hr with hr | ⟨a, s', ha, hr⟩
    · exact hm.calls n s'' hr
    · obtain ⟨hl, hR⟩ := hm.yields a s' ha
      exact hl.trans ((hf a s' hl hR).calls n s'' hr)
  yields b s'' hy := by
    obtain ⟨a, s', ha, hb⟩ := yields_bind.mp hy
    obtain ⟨hl, hR⟩ := hm.yields a s' ha
    obtain ⟨hl', hQ⟩ := (hf a s' hl hR).yields b s'' hb
    exact ⟨hl.trans hl', hQ⟩

theorem leads_getState {f : Plan → PlanM β} {s : Plan} {Q : β → Plan → Prop}
    (hf : Leads P E (f s) s Q) : Leads P E (getState >>= f) s Q := ⟨hf.calls, hf.yields⟩

theorem leads_putState {s t : Plan} {Q : Unit → Plan → Prop} (hl : Later P s t) (hQ : Q () t) :
    Leads P E (putState t : PlanM Unit) s Q where
  calls _ _ hr := absurd hr reaches_putState
  yields _ s' hy := by
    obtain rfl := yields_putState.mp hy
    exact ⟨hl, hQ⟩

theorem leads_update {f : Plan → Plan} {s : Plan} (hl : Later P s (f s)) :
    Leads P E (update f) s fun _ s' => s' = f s :=
  leads_getState (leads_putState hl rfl)

theorem Leads.imp {m : PlanM α} {s : Plan} {Q Q' : α → Plan → Prop} (hm : Leads P E m s Q)
    (h : ∀ a s', Later P s s' → Q a s' → Q' a s') : Leads P E m s Q' where
  calls := hm.calls
  yields a s' hy :=
    have hl := hm.yields a s' hy
    ⟨hl.1, h a s' hl.1 hl.2⟩

variable (hE : ∀ n s b s', E (n, s) (.ok (b, s')) → Later P s s')
include hE

theorem leads_recur (n : Proc) (s : Plan) :
    Leads P E (recur n : PlanM Bool) s fun _ _ => True :=
  { calls := fun _ s' hr => by
      obtain ⟨-, rfl⟩ := reaches_recur.mp hr
      exact Later.refl s'
    yields := fun b s' hy => ⟨hE n s b s' (yields_recur.mp hy), trivial⟩ }

/-! #### Taking back -/

theorem leads_removeChildren (segs : List Seg) (s : Plan) :
    Leads P E (removeChildren segs) s fun _ _ => True := by
  induction segs generalizing s with
  | nil => exact leads_pure trivial
  | cons seg segs ih =>
    cases seg with
    | child => exact leads_bind (leads_recur hE _ s) fun _ s' _ _ => ih s'
    | _ => exact ih s

theorem leads_removeAll (cs : List ℕ) (s : Plan) :
    Leads P E (removeAll cs) s fun _ _ => True := by
  induction cs generalizing s with
  | nil => exact leads_pure trivial
  | cons c cs ih => exact leads_bind (leads_recur hE _ s) fun _ s' _ _ => ih s'

theorem leads_dropUnusedSources (keep : Finset ℕ) (planned : List ℕ) (s : Plan) :
    Leads P E (P.dropUnusedSources keep planned) s fun _ _ => True :=
  leads_getState (leads_removeAll hE _ s)

theorem leads_removePlanSubtree (i : ℕ) (s : Plan) :
    Leads P E (removePlanSubtree i) s fun _ _ => True := by
  refine leads_bind (leads_update (Later.of_removed rfl rfl (fun _ _ h => h) (fun _ _ h => h)
    fun _ _ h => (IdxMap.remove_eq_some h).2)) fun _ s₁ _ _ => ?_
  refine leads_bind (R := fun _ _ => True) ?_ fun _ s₂ _ _ => ?_
  · refine leads_getState ?_
    split
    · refine leads_bind (leads_putState (Q := fun _ _ => True) (Later.of_removed rfl rfl
        (fun _ _ h => h) (fun _ _ h => (IdxMap.remove_eq_some h).2) fun _ _ h => h) trivial)
        fun _ s' _ _ => ?_
      exact leads_bind (leads_recur hE _ s') fun _ _ _ _ => leads_pure trivial
    · exact leads_pure trivial
  refine leads_bind (R := fun _ _ => True) ?_ fun _ _ _ _ => leads_pure trivial
  refine leads_getState ?_
  split
  · refine leads_bind (leads_putState (Q := fun _ _ => True) (Later.of_removed rfl rfl
      (fun _ _ h => (IdxMap.remove_eq_some h).2) (fun _ _ h => h) fun _ _ h => h) trivial)
      fun _ s' _ _ => leads_removeChildren hE _ s'
  · exact leads_pure trivial

/-! #### Leaves and candidates -/

omit hE in
theorem leads_planExtract (i : ℕ) (s : Plan) :
    Leads P E (P.planExtract i) s fun _ _ => True := by
  rw [Planner.planExtract]
  split
  · next e he =>
    have hlater : Later P s { s with extracts := s.extracts.insert i e } :=
      ⟨List.prefix_refl _, rfl, fun hg =>
        { builds := hg.builds
          compress := hg.compress
          extracts := fun j e' h => by
            rcases IdxMap.insert_eq_some h with ⟨rfl, rfl⟩ | ⟨-, h⟩
            · exact he
            · exact hg.extracts j e' h
          nodes := hg.nodes
          kids := hg.kids }⟩
    exact leads_bind (leads_update hlater) fun _ _ _ _ => leads_pure trivial
  · exact leads_pure trivial

theorem leads_planKid (c : ℕ) (s : Plan) : Leads P E (P.planKid c) s fun _ _ => True := by
  rw [Planner.planKid]
  split
  · exact leads_pure trivial
  · refine leads_bind (leads_recur hE _ s) fun b s' _ _ => ?_
    split
    · exact leads_pure trivial
    · exact leads_planExtract c s'

theorem leads_planCandidate (c : ℕ) (s : Plan) :
    Leads P E (P.planCandidate c) s fun _ _ => True := by
  rw [Planner.planCandidate]
  split
  · exact leads_pure trivial
  · refine leads_bind (leads_planExtract c s) fun b s' _ _ => ?_
    split
    · exact leads_pure trivial
    · rw [Planner.planSource]
      split
      · exact leads_recur hE _ s'
      · exact leads_pure trivial

/-! #### Compressors -/

omit hE in
theorem leads_recordCompress {i : ℕ} {w : Wrapper} {how : Comp} (hw : P.wrapper i = some w)
    (hhow : searchComp P.codecs w.probe w.bytes w.input = some how) (planned : Bool) (s : Plan) :
    Leads P E (P.recordCompress i w how planned) s fun _ _ => True := by
  refine leads_getState (leads_bind (leads_putState (Q := fun _ _ => True) ?_ trivial)
    fun _ _ _ _ => leads_pure trivial)
  refine ⟨List.prefix_refl _, rfl, fun hg => ⟨fun j b hj => ?_, fun j c hj => ?_, hg.extracts,
    hg.nodes, fun j b hj => ?_⟩⟩
  · cases planned with
    | true => exact hg.builds j b hj
    | false =>
      rcases IdxMap.insert_eq_some hj with ⟨rfl, rfl⟩ | ⟨-, hj⟩
      · exact good_syntheticBuild hw
      · exact hg.builds j b hj
  · rcases IdxMap.insert_eq_some hj with ⟨rfl, rfl⟩ | ⟨-, hj⟩
    · exact ⟨w, hw, rfl, hhow⟩
    · exact hg.compress j c hj
  · cases planned with
    | true => exact hg.kids j b hj
    | false =>
      rcases IdxMap.insert_eq_some hj with ⟨rfl, rfl⟩ | ⟨-, hj⟩
      · intro s hs c hc
        rw [List.mem_singleton.mp hs] at hc
        cases hc
      · exact hg.kids j b hj

theorem leads_planCompress (i : ℕ) (s : Plan) :
    Leads P E (P.planCompress i) s fun _ _ => True := by
  rw [Planner.planCompress]
  split
  · exact leads_pure trivial
  · next w hw =>
    refine leads_bind (leads_planKid hE w.child s) fun planned s' _ _ => ?_
    split
    · next how hhow => exact leads_recordCompress hw hhow planned s'
    · split
      · exact leads_bind (leads_recur hE _ s') fun _ _ _ _ => leads_pure trivial
      · exact leads_pure trivial

/-! #### Splices -/

theorem leads_spliceKid {i space : ℕ} {runs : List Run} {acc : Accepted} {c : ℕ}
    (hc : c ∈ P.tree.kids i) (hacc : acc.Good P.tree i space runs) (s : Plan) :
    Leads P E (P.spliceKid space runs acc c) s fun acc' _ => acc'.Good P.tree i space runs := by
  rw [Planner.spliceKid]
  split
  · exact leads_pure hacc
  · next cruns hruns =>
    refine leads_bind (leads_planKid hE c s) fun planned s' _ _ => ?_
    split
    · split
      · next pieces hpieces =>
        refine leads_pure fun p hp => ?_
        rcases List.mem_append.mp hp with hp | hp
        · exact hacc p hp
        · exact good_of_mem_admitted hc hruns hpieces hp
      · exact leads_bind (leads_recur hE _ s') fun _ _ _ _ => leads_pure hacc
    · exact leads_pure hacc

theorem leads_spliceKids {i space : ℕ} {runs : List Run} {cs : List ℕ} {acc : Accepted}
    (hcs : ∀ c ∈ cs, c ∈ P.tree.kids i) (hacc : acc.Good P.tree i space runs) (s : Plan) :
    Leads P E (P.spliceKids space runs cs acc) s fun acc' _ => acc'.Good P.tree i space runs := by
  induction cs generalizing acc s with
  | nil => exact leads_pure hacc
  | cons c cs ih =>
    refine leads_bind (leads_spliceKid hE (hcs c List.mem_cons_self) hacc s) fun acc' s' _ hacc' => ?_
    exact ih (fun d hd => hcs d (List.mem_cons_of_mem c hd)) hacc' s'

theorem leads_planBuildInner (i : ℕ) (keepEmpty : Bool) (s : Plan) :
    Leads P E (P.planBuildInner i keepEmpty) s fun _ _ => True := by
  rw [Planner.planBuildInner]
  split
  · next hid =>
    split
    · exact leads_pure trivial
    · next space runs hground =>
      refine leads_bind (leads_spliceKids hE (fun _ h => h) Accepted.good_none s)
        fun acc s' _ hacc => ?_
      refine leads_getState ?_
      split
      · exact leads_pure trivial
      · refine leads_bind (R := fun segs t => t = s' ∧
          tileGaps (sortSegs acc.segs) (P.tree.member i).size = some segs) ?_
          fun segs t _ ht => ?_
        · exact leads_lift fun segs hsegs => ⟨rfl, tiled_eq_ok.mp hsegs⟩
        · obtain ⟨rfl, hsegs⟩ := ht
          refine leads_getState (leads_bind (leads_putState (Q := fun _ _ => True) ?_ trivial)
            fun _ _ _ _ => leads_pure trivial)
          exact Later.insert_build (fun _ => good_tiled hid hground hsegs
            (fun seg hseg => hacc.mono _ (mem_sortSegs.mp hseg))
            (fun seg hseg => hacc.solid seg (mem_sortSegs.mp hseg))) fun _ =>
              kids_tiled hsegs fun seg hseg => (hacc seg (mem_sortSegs.mp hseg)).2.2
  · exact leads_pure trivial

omit hE in
theorem leads_spliceIn {i : ℕ} {batch : List Seg} {s : Plan} {idxs : List ℕ}
    (hidxs : ∀ j ∈ idxs, j ∈ P.tree.kids i ∧ P.tree.Identified j)
    (hbatch : ∀ seg ∈ batch, seg.Fresh idxs s.pclusters) :
    Leads P E (spliceIn i batch) s fun _ _ => True := by
  refine leads_getState ?_
  split
  · exact leads_pure trivial
  · next b hb =>
    refine leads_bind (R := fun segs t => t = s ∧
      tileGaps (sortSegs (b.solid ++ b.extra batch)) (b.runs.map Run.len).sum = some segs) ?_
      fun segs t _ ht => ?_
    · exact leads_lift fun segs hsegs => ⟨rfl, tiled_eq_ok.mp hsegs⟩
    · obtain ⟨rfl, hsegs⟩ := ht
      refine leads_bind (leads_putState (Q := fun _ _ => True) ?_ trivial)
        fun _ _ _ _ => leads_pure trivial
      exact Later.insert_build
        (fun hg => good_spliced (fun j hj => (hidxs j hj).2) (hg.builds i b hb) hbatch hsegs)
        fun hg => kids_spliced (fun j hj => (hidxs j hj).1) (hg.kids i b hb) hbatch hsegs

/-! #### Passes -/

omit hE in
theorem leads_outcome {α : Type} (x : Except Fault α) (s : Plan) :
    Leads P E (outcome x) s fun r s' => s' = s ∧ ∀ a, r = .ok a → x = .ok a := by
  unfold outcome
  split
  · exact leads_pure ⟨rfl, fun b hb => congrArg _ (Except.ok.inj hb)⟩
  · exact leads_fail
  · exact leads_pure ⟨rfl, fun _ h => nomatch h⟩
  · exact leads_pure ⟨rfl, fun _ h => nomatch h⟩

omit hE in
/-- Nodes that slice identified members may be appended; their segments are fresh. -/
theorem leads_pushNodes {nodes : List (PClusterNode × ℕ × ℕ)} {idxs : List ℕ}
    (hid : ∀ i ∈ idxs, P.tree.Identified i)
    (hnodes : ∀ n ∈ nodes, n.1.Slices idxs ∧ n.1.size = n.2.1) (s : Plan) :
    Leads P E (pushNodes nodes) s fun segs s' => ∀ seg ∈ segs, seg.Fresh idxs s'.pclusters := by
  induction nodes generalizing s with
  | nil => exact leads_pure fun _ h => nomatch h
  | cons n nodes ih =>
    obtain ⟨hslices, hsize⟩ := hnodes n List.mem_cons_self
    have hlater : Later P s { s with pclusters := s.pclusters ++ [n.1] } :=
      ⟨List.prefix_append _ _, rfl, fun hg =>
        { builds := fun i b h =>
            { (hg.builds i b h) with
              segs := fun seg hseg => ((hg.builds i b h).segs seg hseg).mono
                (List.prefix_append _ _) }
          compress := hg.compress
          extracts := hg.extracts
          nodes := fun node hnode => by
            rcases List.mem_append.mp hnode with hnode | hnode
            · exact hg.nodes node hnode
            · rw [List.mem_singleton.mp hnode]
              exact ⟨hslices.nonempty, fun i hi => hid i (hslices.mem i hi), hslices.size_pos⟩
          kids := hg.kids }⟩
    refine leads_getState (leads_bind (leads_putState
      (Q := fun _ t => t.pclusters = s.pclusters ++ [n.1]) hlater rfl) fun _ t _ ht => ?_)
    refine leads_bind (ih (fun m hm => hnodes m (List.mem_cons_of_mem n hm)) t)
      fun segs t' hl hsegs => leads_pure fun seg hseg => ?_
    rcases List.mem_cons.mp hseg with rfl | hseg
    · refine ⟨n.1, getElem?_of_prefix hl.nodes ?_, hsize, hslices⟩
      rw [ht, List.getElem?_append_right le_rfl, Nat.sub_self]
      rfl
    · exact hsegs seg hseg

theorem leads_ownTodo {i : ℕ} (files : List FileItem) (s : Plan) :
    Leads P E (P.ownTodo i files) s fun todo _ =>
      ∀ t ∈ todo, t.1 ∈ P.tree.kids i ∧ P.tree.Identified t.1 := by
  induction files generalizing s with
  | nil => exact leads_pure fun _ h => nomatch h
  | cons f files ih =>
    refine leads_bind (R := fun here _ => ∀ t ∈ here, t.1 ∈ P.tree.kids i ∧ P.tree.Identified t.1) ?_
      fun here s' _ hhere => ?_
    · rw [Planner.ownFile]
      split
      · next c hc =>
        have hkid : c ∈ P.tree.kids i ∧ P.tree.Identified c := by
          split at hc
          · exact byPath_eq_some hc
          · cases hc
        refine leads_bind (leads_planCandidate hE c s) fun planned s' _ _ => leads_pure ?_
        cases planned with
        | true => exact fun t ht => List.mem_singleton.mp ht ▸ hkid
        | false => exact fun t ht => absurd ht List.not_mem_nil
      · exact leads_pure fun t ht => absurd ht List.not_mem_nil
    · refine leads_bind (ih s') fun more s'' _ hmore => leads_pure fun t ht => ?_
      exact (List.mem_append.mp ht).elim (hhere t) (hmore t)

omit hE in
theorem leads_takeOwn {i : ℕ} {planned : List PlannedFile} {acc : Passes} {s : Plan}
    (hplanned : ∀ f ∈ planned, f.idx ∈ acc.planned ∧ (∀ n ∈ f.nodes, n.1.Slices [f.idx]) ∧
      ∀ seg ∈ f.segs, seg.Slices [f.idx])
    (hacc : acc.Good P.tree i s.pclusters) :
    Leads P E (Planner.takeOwn planned acc) s fun acc' s' =>
      acc'.Good P.tree i s'.pclusters ∧ acc'.planned = acc.planned := by
  induction planned generalizing acc s with
  | nil => exact leads_pure ⟨hacc, rfl⟩
  | cons f planned ih =>
    obtain ⟨hmem, hnodes, hsegs⟩ := hplanned f List.mem_cons_self
    have hone : ∀ j ∈ [f.idx], j ∈ acc.planned := fun j hj => List.mem_singleton.mp hj ▸ hmem
    refine leads_bind (leads_pushNodes (fun j hj => (hacc.planned j (hone j hj)).2) (fun n hn => ?_) s)
      fun placed s' hl hplaced => ?_
    · obtain ⟨m, hm, rfl⟩ := List.mem_map.mp hn
      exact ⟨hnodes m hm, rfl⟩
    · refine ih (fun g hg => hplanned g (List.mem_cons_of_mem f hg)) ⟨fun seg hseg => ?_, hacc.planned⟩
      rcases List.mem_append.mp hseg with hseg | hseg
      · rcases List.mem_append.mp hseg with hseg | hseg
        · exact (hacc.segs seg hseg).mono (fun _ hj => hj) hl.nodes
        · exact (hplaced seg hseg).mono hone (List.prefix_refl _)
      · exact (hsegs seg hseg).fresh.mono hone (List.prefix_refl _)

theorem leads_planOwnPclusters {i : ℕ} {img : ErofsImage} {files : List FileItem} {acc : Passes}
    {s : Plan} (hacc : acc.Good P.tree i s.pclusters) :
    Leads P E (P.planOwnPclusters i img files acc) s fun r s' => ∀ acc' proved,
      r = .ok (acc', proved) → acc'.Good P.tree i s'.pclusters ∧ ∀ c ∈ proved, c ∈ acc'.planned := by
  refine leads_bind (leads_ownTodo hE files s) fun todo s₁ hl₁ htodo => ?_
  have hkids : ∀ c ∈ todo.map Prod.fst, c ∈ P.tree.kids i ∧ P.tree.Identified c := by
    intro c hc
    obtain ⟨t, ht, rfl⟩ := List.mem_map.mp hc
    exact htodo t ht
  have hacc₁ := (hacc.mono hl₁.nodes).plan hkids
  dsimp only
  split
  · refine leads_pure fun acc' proved h => ?_
    obtain ⟨rfl, rfl⟩ := Prod.mk.inj (Except.ok.inj h)
    exact ⟨⟨hacc₁.segs, hacc₁.planned⟩, fun _ h => nomatch h⟩
  · refine leads_bind (leads_outcome (img.ownFiles todo) s₁) fun r s₂ _ hr => ?_
    split
    · exact leads_pure fun _ _ h => nomatch h
    · next planned =>
      obtain ⟨rfl, hok⟩ := hr
      have hslices := img.own_slices todo planned (hok planned rfl)
      refine leads_bind (leads_takeOwn (fun f hf => ?_) ⟨hacc₁.segs, hacc₁.planned⟩)
        fun acc' s₃ _ hacc' => leads_pure fun acc'' proved h => ?_
      · exact ⟨List.mem_append_right _ (hslices f hf).1, (hslices f hf).2⟩
      · obtain ⟨rfl, rfl⟩ := Prod.mk.inj (Except.ok.inj h)
        refine ⟨hacc'.1, fun c hc => ?_⟩
        obtain ⟨f, hf, rfl⟩ := List.mem_map.mp hc
        rw [hacc'.2]
        exact List.mem_append_right _ (hslices f (List.mem_filter.mp hf).1).1

theorem leads_packedCovers {i : ℕ} {proved : List ℕ} (files : List FileItem) (s : Plan) :
    Leads P E (P.packedCovers i proved files) s fun found _ =>
      (∀ c ∈ found.2, c ∈ P.tree.kids i ∧ P.tree.Identified c) ∧
        ∀ cv ∈ found.1, cv.idx ∈ found.2 ∨ cv.idx ∈ proved := by
  have hcovers : ∀ {c f}, ∀ cv ∈ Planner.coversOf c f, cv.idx = c := by
    intro c f cv hcv
    obtain ⟨e, -, rfl⟩ := List.mem_map.mp hcv
    rfl
  have hnone : (∀ c ∈ ([] : List ℕ), c ∈ P.tree.kids i ∧ P.tree.Identified c) ∧
      ∀ cv ∈ ([] : List Cover), cv.idx ∈ ([] : List ℕ) ∨ cv.idx ∈ proved :=
    ⟨fun _ h => (nomatch h), fun _ h => nomatch h⟩
  induction files generalizing s with
  | nil => exact leads_pure hnone
  | cons f files ih =>
    refine leads_bind (R := fun here _ =>
      (∀ c ∈ here.2, c ∈ P.tree.kids i ∧ P.tree.Identified c) ∧
        ∀ cv ∈ here.1, cv.idx ∈ here.2 ∨ cv.idx ∈ proved) ?_ fun here s' _ hhere => ?_
    · rw [Planner.packedFile]
      split
      · exact leads_pure hnone
      · next c hc =>
        have hkid : c ∈ P.tree.kids i ∧ P.tree.Identified c := by
          split at hc
          · cases hc
          · exact byPath_eq_some hc
        split
        · refine leads_bind (leads_planCandidate hE c s) fun planned s' _ _ => leads_pure ?_
          cases planned with
          | true =>
            refine ⟨fun d hd => List.mem_singleton.mp hd ▸ hkid, fun cv hcv => Or.inl ?_⟩
            exact List.mem_singleton.mpr (hcovers cv hcv)
          | false => exact hnone
        · refine leads_pure ?_
          split
          · next hproved =>
            exact ⟨fun _ h => (nomatch h), fun cv hcv => Or.inr (hcovers cv hcv ▸ hproved)⟩
          · exact hnone
    · refine leads_bind (ih s') fun more s'' _ hmore => leads_pure ⟨fun c hc => ?_, fun cv hcv => ?_⟩
      · exact (List.mem_append.mp hc).elim (hhere.1 c) (hmore.1 c)
      · rcases List.mem_append.mp hcv with hcv | hcv
        · exact (hhere.2 cv hcv).imp (List.mem_append_left _) id
        · exact (hmore.2 cv hcv).imp (List.mem_append_right _) id

omit hE in
theorem leads_takeSwept {i : ℕ} {pcs : List PCluster} {swept : Swept} {spool : Bytes} {acc : Passes}
    {s : Plan} (hnodes : ∀ n ∈ swept.nodes, n.2.size = (pcs.getD n.1 default).plen ∧
      n.2.Slices acc.planned)
    (hsegs : ∀ seg ∈ swept.segs, seg.Slices acc.planned) (hacc : acc.Good P.tree i s.pclusters) :
    Leads P E (Planner.takeSwept pcs swept spool acc) s fun acc' s' =>
      acc'.Good P.tree i s'.pclusters := by
  refine leads_bind (leads_update (Later.of_removed rfl rfl (fun _ _ h => h) (fun _ _ h => h)
    fun _ _ h => h)) fun _ s₁ hl₁ _ => ?_
  refine leads_bind (leads_pushNodes (fun j hj => (hacc.planned j hj).2) (fun n hn => ?_) s₁)
    fun placed s₂ hl₂ hplaced => leads_pure ⟨fun seg hseg => ?_, hacc.planned⟩
  · obtain ⟨m, hm, rfl⟩ := List.mem_map.mp hn
    have hm' := hnodes m (List.mem_filter.mp hm).1
    exact ⟨hm'.2, hm'.1⟩
  · rcases List.mem_append.mp hseg with hseg | hseg
    · rcases List.mem_append.mp hseg with hseg | hseg
      · exact (hacc.segs seg hseg).mono (fun _ hj => hj) (hl₁.trans hl₂).nodes
      · exact (hsegs seg (List.mem_filter.mp hseg).1).fresh
    · exact hplaced seg hseg

omit hE in
theorem leads_sweepPacked {i : ℕ} {img : ErofsImage} {pcs : List PCluster} {covers : List Cover}
    {acc : Passes} {s : Plan} (hcovers : ∀ c ∈ covers, c.idx ∈ acc.planned)
    (hacc : acc.Good P.tree i s.pclusters) :
    Leads P E (Planner.sweepPacked img pcs covers acc) s fun r s' => ∀ acc', r = .ok acc' →
      acc'.Good P.tree i s'.pclusters := by
  rw [Planner.sweepPacked]
  dsimp only
  split
  · exact leads_pure fun acc' h => Except.ok.inj h ▸ ⟨hacc.segs, hacc.planned⟩
  · refine leads_getState (leads_bind (leads_putState (Q := fun _ _ => True)
      (Later.of_removed rfl rfl (fun _ _ h => h) (fun _ _ h => h) fun _ _ h => h) trivial)
      fun _ s₁ hl₁ _ => ?_)
    refine leads_bind (leads_outcome _ s₁) fun r s₂ hl₂ hr => ?_
    split
    · exact leads_pure fun _ h => nomatch h
    · next swept spool =>
      obtain ⟨hnodes, hsegs⟩ := img.sweep_slices _ _ _ _ _ (hr.2 (swept, spool) rfl)
      have hused : ∀ j ∈ (sweepSet (sortCovers covers) pcs).used.map Cover.idx,
          j ∈ acc.planned := by
        intro j hj
        obtain ⟨cv, hcv, rfl⟩ := List.mem_map.mp hj
        exact hcovers cv ((List.mem_insertionSort _).mp (List.mem_filter.mp hcv).1)
      have hacc₂ := hacc.mono (hl₁.trans hl₂).nodes
      refine leads_bind (leads_takeSwept (fun n hn => ?_) (fun seg hseg => ?_)
        ⟨hacc₂.segs, hacc₂.planned⟩) fun acc' s' _ hacc' => leads_pure fun _ h =>
          Except.ok.inj h ▸ hacc'
      · exact ⟨(hnodes n hn).1, (hnodes n hn).2.mono hused⟩
      · exact (hsegs seg hseg).mono hused

theorem leads_planPackedInode {i : ℕ} {img : ErofsImage} {files : List FileItem} {proved : List ℕ}
    {acc : Passes} {s : Plan} (hproved : ∀ c ∈ proved, c ∈ acc.planned)
    (hacc : acc.Good P.tree i s.pclusters) :
    Leads P E (P.planPackedInode i img files proved acc) s fun r s' => ∀ acc', r = .ok acc' →
      acc'.Good P.tree i s'.pclusters := by
  rw [Planner.planPackedInode]
  split
  · exact leads_pure fun _ h => nomatch h
  · next pcs _ =>
    dsimp only
    split
    · exact leads_pure fun acc' h => Except.ok.inj h ▸ ⟨hacc.segs, hacc.planned⟩
    · refine leads_bind (leads_packedCovers hE files s) fun found s₁ hl₁ hfound => ?_
      have hacc₁ := (hacc.mono hl₁.nodes).plan hfound.1
      split
      · exact leads_pure fun acc' h => Except.ok.inj h ▸ ⟨hacc₁.segs, hacc₁.planned⟩
      · refine leads_sweepPacked (fun cv hcv => ?_) ⟨hacc₁.segs, hacc₁.planned⟩
        rcases hfound.2 cv hcv with h | h
        · exact List.mem_append_right _ h
        · exact List.mem_append_left _ (hproved _ h)

theorem leads_planPasses {i : ℕ} {img : ErofsImage} (s : Plan) :
    Leads P E (P.planPasses i img) s fun r s' => ∀ acc, r = .ok acc →
      acc.Good P.tree i s'.pclusters := by
  rw [Planner.planPasses]
  split
  · exact leads_pure fun _ h => nomatch h
  · exact leads_pure fun acc h => Except.ok.inj h ▸ Passes.good_none
  · split
    · exact leads_pure fun _ h => nomatch h
    · split
      · exact leads_pure fun _ h => nomatch h
      · next files _ =>
        refine leads_bind (leads_planOwnPclusters hE Passes.good_none) fun r s₁ _ hr => ?_
        split
        · exact leads_pure fun _ h => nomatch h
        · next acc proved =>
          obtain ⟨hacc, hproved⟩ := hr acc proved rfl
          exact leads_planPackedInode hE hproved hacc

theorem leads_planErofs (i : ℕ) (s : Plan) : Leads P E (P.planErofs i) s fun _ _ => True := by
  rw [Planner.planErofs]
  split
  · exact leads_pure trivial
  · next img _ =>
    refine leads_bind (leads_planPasses hE s) fun r s₁ _ hr => ?_
    split
    · exact leads_pure trivial
    · next acc =>
      have hacc := hr acc rfl
      refine leads_getState (leads_bind (leads_dropUnusedSources hE _ _ s₁) fun _ s₂ hl₂ _ => ?_)
      split
      · exact leads_pure trivial
      · refine leads_bind (leads_update (Later.of_removed rfl rfl (fun _ _ h => h)
          (fun _ _ h => h) fun _ _ h => h)) fun _ s₃ hl₃ _ => ?_
        refine leads_bind (leads_spliceIn hacc.planned
          (hacc.mono (hl₂.trans hl₃).nodes).segs) fun r s₄ _ _ => ?_
        split <;> exact leads_pure trivial

/-! #### Nodes -/

theorem leads_planNode (i : ℕ) (s : Plan) : Leads P E (P.planNode i) s fun _ _ => True := by
  refine leads_bind (R := fun _ _ => True) ?_ fun wrapped s₁ _ _ => ?_
  · rw [Planner.planWrapped]
    split
    · exact leads_planCompress hE i s
    · exact leads_pure trivial
  split
  · exact leads_pure trivial
  · split
    · refine leads_bind (leads_recur hE _ s₁) fun built s₂ _ _ => ?_
      split
      · refine leads_bind (R := fun _ _ => True) ?_ fun _ s₃ _ _ => ?_
        · refine leads_bind (leads_planErofs hE i s₂) fun r s' _ _ => ?_
          split
          · exact (leads_update (Later.of_removed rfl rfl (fun _ _ h => h) (fun _ _ h => h)
              fun _ _ h => h)).imp fun _ _ _ _ => trivial
          · exact leads_pure trivial
        · refine leads_getState ?_
          split
          · exact leads_bind (leads_recur hE _ s₃) fun _ _ _ _ => leads_pure trivial
          · exact leads_pure trivial
      · exact leads_pure trivial
    · exact leads_recur hE _ s₁

/-- **One call** leads to a later plan when the calls it makes do. -/
theorem leads_body (n : Proc) (s : Plan) : Leads P E (P.body n) s fun _ _ => True := by
  cases n with
  | node i => exact leads_planNode hE i s
  | build i keepEmpty => exact leads_planBuildInner hE i keepEmpty s
  | remove i => exact leads_removePlanSubtree hE i s

end Parts

/-- **Every call of the planner leads to a later plan.** -/
theorem planner_later {n : Proc} {s s' : Plan} {b : Bool}
    (h : Evaluates P.run (n, s) (.ok (b, s'))) : Later P s s' := by
  refine h.induct (P := fun c r => ∀ b s', r = .ok (b, s') → Later P c.2 s')
    (fun c r hret b s' hr => ?_) b s' rfl
  rw [hr] at hret
  exact ((leads_body (fun n s b s' hE => hE.2.2 b s' rfl) c.1 c.2).yields b s' hret).1

/-- Every call a run enters is made in a later plan. -/
theorem entered_later {c d : Proc × Plan} (h : Entered P.run c d) : Later P c.2 d.2 := by
  induction h with
  | refl => exact Later.refl c.2
  | tail _ hcall ih =>
    exact ih.trans ((leads_body (fun _ _ _ _ => planner_later) _ _).calls _ _ hcall)

end Hashdex
