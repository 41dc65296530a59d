import Hashdex.Erofs.Chunked
import Hashdex.Erofs.Tree
import Hashdex.Recipe.Sweep

/-!
# Opened images

What the passes of `plan_erofs` work with once an image is open.  `OpenImage.image` is the image that the
planner takes as its argument: its listing is that of the walk, and its two passes are `planOwnFile` over
the files and `sweepPclusters` over the packed stream.

* `planOwnFile_slices`, `sweepPclusters_slices`: only the members offered are sliced
* `listed_plan`: the plan of a listed file tiles it
-/

namespace Hashdex

open Zmap Serving Tiling WalkLog

/-! ### Listed files -/

/-- `own_pclusters`. -/
def Zmap.Plan.ownPclusters : Zmap.Plan → List PCluster
  | .ranged _ => []
  | .streamed zp => zp.ownPclusters

/-- `packed_extents`. -/
def Zmap.Plan.packedExtents : Zmap.Plan → List PackedExt
  | .ranged _ => []
  | .streamed zp => zp.exts.filterMap fun e =>
    match e.src with
    | .packed off => some ⟨e.la, e.llen, off⟩
    | _ => none

/-- `packed_whole`. -/
def Zmap.Plan.packedWhole : Zmap.Plan → Option ℕ
  | .streamed ⟨size, [⟨0, llen, .packed off⟩]⟩ => if llen = size then some off else none
  | _ => none

/-- What the passes ask of a file of the listing. -/
def Zmap.FileItem.listed (f : Zmap.FileItem) : Hashdex.FileItem where
  path := String.ofList f.path
  size := f.size
  ownPclusters := f.plan.ownPclusters
  packedExtents := f.plan.packedExtents
  packedWhole := f.plan.packedWhole.isSome

/-- `packed_pclusters`. -/
def Zmap.Erofs.packedPclusters (fs : Erofs) : Except String (List PCluster) :=
  if fs.packedNid = 0 then .ok []
  else
    match fs.packedPlan with
    | .ok plan => .ok plan.ownPclusters
    | .error e => .error (faultText e)

/-! ### The passes -/

/-- An image whose configuration and listing have been read. -/
structure OpenImage extends ImgCtx where
  cfg : Except String (Option LzmaCfg)
  dict : ∀ c, cfg = .ok (some c) → c.dictSize = dictSize
  listing : List Zmap.FileItem
  notes : List String
  files_eq : fs.files z = .ok (listing, notes)

/-- How the workers go about an image: the order in which they finish its files, and what is done to all
that they share before and during each; and the same of the sweep. -/
structure Workers (listing : List Zmap.FileItem) where
  order : List (ℕ × FileItem) → List (ℕ × Zmap.FileItem)
  perm : ∀ todo, (∀ t ∈ todo, t.2 ∈ listing.map Zmap.FileItem.listed) →
    ((order todo).map fun t => (t.1, t.2.listed)).Perm todo
  offered : ∀ todo, ∀ t ∈ order todo, t.1 ∈ todo.map Prod.fst
  found : ∀ todo, ∀ t ∈ order todo, t.2 ∈ listing
  others : ℕ → Others
  earlier : ℕ → List (ℕ × ℕ)
  preset : ℕ → Option UInt32
  jobs : Schedule
  known : Option UInt32

deriving instance DecidableEq for PackedExt, FileItem

/-- One worker after the other takes the files as they come, and no other image is at work. -/
def Workers.inOrder (listing : List Zmap.FileItem) : Workers listing where
  order todo := todo.filterMap fun t => (listing.find? fun f => f.listed = t.2).map (t.1, ·)
  perm := by
    intro todo htodo
    have heq : (todo.filterMap fun t => (listing.find? fun f => f.listed = t.2).map (t.1, ·)).map
        (fun t => (t.1, t.2.listed)) = todo := by
      induction todo with
      | nil => rfl
      | cons t rest ih =>
        obtain ⟨hhead, hrest⟩ := List.forall_mem_cons.mp htodo
        obtain ⟨f, hf, hlisted⟩ := List.mem_map.mp hhead
        cases hfind : listing.find? fun f => f.listed = t.2 with
        | none => exact absurd hlisted (by simpa using List.find?_eq_none.mp hfind f hf)
        | some g =>
          have hg : g.listed = t.2 := by simpa using List.find?_some hfind
          rw [List.filterMap_cons_some (b := (t.1, g)) (by rw [hfind]; rfl), List.map_cons, ih hrest, hg]
    rw [heq]
  offered := by
    intro todo t ht
    obtain ⟨t', ht', hfound⟩ := List.mem_filterMap.mp ht
    obtain ⟨f, -, rfl⟩ := Option.map_eq_some_iff.mp hfound
    exact List.mem_map_of_mem ht'
  found := by
    intro todo t ht
    obtain ⟨t', -, hfound⟩ := List.mem_filterMap.mp ht
    obtain ⟨f, hf, rfl⟩ := Option.map_eq_some_iff.mp hfound
    exact List.mem_of_find?_eq_some hf
  others _ := .none
  earlier _ := []
  preset _ := none
  jobs := .inOrder
  known := none

/-- The sha256 that the member was recorded with. -/
def Tree.sha256 (T : Tree) (i : ℕ) : Bytes := ((T.member i).digests.map Digests.sha256).getD []

section

variable (ctx : ImgCtx) (T : Tree) {listing : List Zmap.FileItem} (w : Workers listing)

/-- A file, when so many have been finished before it. -/
def Workers.planFile (t : ℕ × Zmap.FileItem) (n : ℕ) : Except Fault PlannedFile :=
  planOwnFile ctx (w.others n) t.2.plan t.1 (T.member t.1).size (T.sha256 t.1)
    (ctx.cacheAfter (w.earlier n) ⟨[], [], 0⟩) (w.preset n)

def Workers.planFiles : List (ℕ × Zmap.FileItem) → ℕ → Except Fault (List PlannedFile)
  | [], _ => .ok []
  | t :: rest, n => do
    let planned ← w.planFile ctx T t n
    let more ← planFiles rest (n + 1)
    .ok (planned :: more)

def Workers.sweep (pcs : List PCluster) (set : SweepSet) (spool : Option Bytes) :
    Except Fault (Swept × Bytes) :=
  match sweepPclusters ctx T.sha256 w.jobs w.known pcs set spool with
  | .ok out => .ok out
  | .error (.fault e) => .error e
  | .error .range => .error .panic

end

/-! ### What is sliced -/

/-- What has been emitted slices the member and nothing else. -/
structure OwnState.Slices (idx : ℕ) (s : OwnState) : Prop where
  nodes : ∀ n ∈ s.nodes, n.1.Slices [idx]
  segs : ∀ seg ∈ s.segs, seg.Slices [idx]

section

variable {ctx : ImgCtx} {others : Others} {plan : ZPlan} {idx size : ℕ} {s s' : OwnState}

theorem encodeOwn_slices {pc : PCluster} {want lo : ℕ} {stored : Bytes} (h : s.Slices idx)
    (hstored : stored.length = pc.plen)
    (hs : encodeOwn ctx others idx size pc want lo stored s = .ok s') : s'.Slices idx := by
  rw [encodeOwn] at hs
  obtain ⟨bytes, -, hs⟩ := inRange_bind_eq_ok.mp hs
  obtain ⟨out, hout, hs⟩ := inRange_bind_eq_ok.mp hs
  obtain ⟨e, spool, hencoded, hmade⟩ := encoded_of_ne_panic s.spool
    (@planPcluster_ne_panic ctx.encode ctx.sha256 pc stored ⟨bytes, want ≤ s.base + s.window.length⟩
      (ownCovers idx size) (others.preset s.ticks s.preset) ctx.dictSize s.spool)
  rw [hencoded] at hout
  cases hout
  cases e with
  | mismatch =>
    cases hs
    exact ⟨h.nodes, h.segs⟩
  | margin =>
    cases hs
    exact ⟨h.nodes, h.segs⟩
  | made node p =>
    cases hs
    constructor
    · intro n hn
      cases List.mem_append.mp hn with
      | inl hold => exact h.nodes n hold
      | inr hnew =>
        rw [List.mem_singleton.mp hnew]
        exact (planPcluster_slices hstored (hmade node p rfl)).1
    · exact h.segs

theorem spliceOwn_slices {pc : PCluster} {lo : ℕ} {stored : Bytes} (h : s.Slices idx)
    (hs : spliceOwn idx size pc lo stored s = .ok s') : s'.Slices idx := by
  rw [spliceOwn] at hs
  obtain ⟨room, -, hs⟩ := inRange_bind_eq_ok.mp hs
  obtain ⟨logical, -, hs⟩ := inRange_bind_eq_ok.mp hs
  cases hs
  constructor
  · exact h.nodes
  · intro seg hseg
    cases List.mem_append.mp hseg with
    | inl hold => exact h.segs seg hold
    | inr hnew => exact splicePlain_slices seg hnew

theorem ownPcluster_slices {pc : PCluster} (h : s.Slices idx)
    (hs : ownPcluster ctx others plan idx size s pc = .ok s') : s'.Slices idx := by
  rw [ownPcluster] at hs
  obtain ⟨stream, -, hs⟩ := faulty_bind_eq_ok.mp hs
  rw [ownRead] at hs
  split_ifs at hs with hback
  obtain ⟨lo, -, hs⟩ := inRange_bind_eq_ok.mp hs
  split_ifs at hs with hend
  · cases hs
    exact ⟨h.nodes, h.segs⟩
  · obtain ⟨stored, hstored, hs⟩ := faulty_bind_eq_ok.mp hs
    have hread : OwnState.Slices idx { s with toFileStream := stream } := ⟨h.nodes, h.segs⟩
    revert hs
    cases hout : ownStored ctx others idx size pc (pc.la + pc.llen + encodeMargin) lo stored
        { s with toFileStream := stream } with
    | error stop =>
      intro hs
      cases hs
    | ok s1 =>
      intro hs
      cases hs
      have hs1 : s1.Slices idx := by
        rw [ownStored] at hout
        split_ifs at hout
        · exact encodeOwn_slices hread (readStored_length hstored) hout
        · exact spliceOwn_slices hread hout
      exact ⟨hs1.nodes, hs1.segs⟩

theorem ownPclusters_slices {pcs : List PCluster} (h : s.Slices idx)
    (hs : ownPclusters ctx others plan idx size pcs s = .ok s') : s'.Slices idx := by
  induction pcs generalizing s with
  | nil =>
    cases hs
    exact h
  | cons pc pcs ih =>
    rw [ownPclusters] at hs
    revert hs
    cases hone : ownPcluster ctx others plan idx size s pc with
    | error stop =>
      intro hs
      cases hs
    | ok s1 => exact fun hs => ih (ownPcluster_slices h hone) hs

end

/-- **A file's pass slices its member only**, whatever its plan and its size are. -/
theorem planOwnFile_slices {ctx : ImgCtx} {others : Others} {plan : Zmap.Plan} {idx size : ℕ} {digest : Bytes}
    {cache : PackedCache} {preset : Option UInt32} {f : PlannedFile}
    (h : planOwnFile ctx others plan idx size digest cache preset = .ok f) :
    f.idx = idx ∧ (∀ n ∈ f.nodes, n.1.Slices [idx]) ∧ ∀ seg ∈ f.segs, seg.Slices [idx] := by
  have hrefused : ∀ stats, refusedFile idx stats = f →
      f.idx = idx ∧ (∀ n ∈ f.nodes, n.1.Slices [idx]) ∧ ∀ seg ∈ f.segs, seg.Slices [idx] := by
    intro stats heq
    cases heq
    exact ⟨rfl, fun n hn => absurd hn List.not_mem_nil, fun seg hseg => absurd hseg List.not_mem_nil⟩
  cases plan with
  | ranged exts => exact hrefused .zero (Except.ok.inj h)
  | streamed zp =>
    rw [planOwnFile] at h
    cases hrun : ownRun ctx others zp idx size cache preset with
    | error stop =>
      rw [hrun] at h
      cases stop with
      | fault e => cases h
      | range => cases h
      | early stats => exact hrefused stats (Except.ok.inj h)
    | ok s =>
      rw [hrun] at h
      dsimp only at h
      split_ifs at h with hdigest
      · cases h
        rw [ownRun] at hrun
        revert hrun
        cases hall : ownPclusters ctx others zp idx size zp.ownPclusters
            ⟨.start cache preset, [], [], .zero, []⟩ with
        | error stop =>
          intro hrun
          cases hrun
        | ok s1 =>
          intro hrun
          obtain ⟨stream, -, hrun⟩ := faulty_bind_eq_ok.mp hrun
          cases hrun
          have hstart : OwnState.Slices idx ⟨.start cache preset, [], [], .zero, []⟩ :=
            ⟨fun n hn => absurd hn List.not_mem_nil, fun seg hseg => absurd hseg List.not_mem_nil⟩
          have hs1 := ownPclusters_slices hstart hall
          exact ⟨rfl, hs1.nodes, hs1.segs⟩
      · exact hrefused _ (Except.ok.inj h)

/-- **The sweep slices covering members only**, whatever its orders are. -/
theorem sweepPclusters_slices {ctx : ImgCtx} {digest : ℕ → Bytes} {sched : Schedule} {preset : Option UInt32}
    {pcs : List PCluster} {set : SweepSet} {spool : Option Bytes} {swept : Swept} {spool' : Bytes}
    (h : sweepPclusters ctx digest sched preset pcs set spool = .ok (swept, spool')) :
    (∀ n ∈ swept.nodes, n.2.size = (pcs.getD n.1 default).plen ∧ n.2.Slices (set.used.map Cover.idx)) ∧
      ∀ seg ∈ swept.segs, seg.Slices (set.used.map Cover.idx) := by
  rw [sweepPclusters] at h
  revert h
  cases hitems : sweepItems ctx digest set.used (set.items pcs) (.start set.used) with
  | error stop =>
    intro h
    cases h
  | ok s =>
    intro h
    have hemits : SweepEmits pcs set.used (set.items pcs) s :=
      @sweepItems_emits ctx digest set.used pcs [] _ _ _ (SweepEmits.start _ _) (fun _ => mem_items) hitems
    obtain ⟨out, hout, -, hnodes⟩ := @runJobs_spec ctx set.used pcs sched.preset (sched.order s.jobs)
      (fun job hjob => hemits.jobs job ((sched.perm s.jobs).mem_iff.mp hjob)) 0 preset (spool.getD [])
    obtain ⟨done, hdone, h⟩ := inRange_bind_eq_ok.mp h
    rw [hout] at hdone
    cases hdone
    cases h
    constructor
    · intro n hn
      obtain ⟨hslices, pc, hpc, hsize⟩ := hnodes n hn
      rw [List.getD_eq_getElem?_getD, hpc]
      exact ⟨hsize, hslices⟩
    · exact hemits.segs

section

variable {ctx : ImgCtx} {T : Tree} {listing : List Zmap.FileItem} {w : Workers listing}

theorem mem_planFiles {ts : List (ℕ × Zmap.FileItem)} {n : ℕ} {planned : List PlannedFile}
    (h : w.planFiles ctx T ts n = .ok planned) {f : PlannedFile} (hf : f ∈ planned) :
    ∃ t ∈ ts, ∃ m, w.planFile ctx T t m = .ok f := by
  induction ts generalizing n planned with
  | nil =>
    cases h
    cases hf
  | cons t ts ih =>
    obtain ⟨one, hone, h⟩ := bind_eq_ok.mp h
    obtain ⟨more, hmore, h⟩ := bind_eq_ok.mp h
    cases h
    cases List.mem_cons.mp hf with
    | inl heq => exact ⟨t, List.mem_cons_self, n, heq ▸ hone⟩
    | inr hf =>
      obtain ⟨t', ht', m, hplan⟩ := ih hmore hf
      exact ⟨t', List.mem_cons_of_mem t ht', m, hplan⟩

theorem sweep_eq_ok {pcs : List PCluster} {set : SweepSet} {spool : Option Bytes} {out : Swept × Bytes} :
    w.sweep ctx T pcs set spool = .ok out ↔
      sweepPclusters ctx T.sha256 w.jobs w.known pcs set spool = .ok out := by
  rw [Workers.sweep]
  cases sweepPclusters ctx T.sha256 w.jobs w.known pcs set spool with
  | ok out' => simp
  | error stop =>
    cases stop with
    | early why => exact why.elim
    | _ => exact iff_of_false nofun nofun

end

/-- The image, as the planner takes it. -/
def OpenImage.image (o : OpenImage) (T : Tree) (w : Workers o.listing) : ErofsImage where
  lzmaCfg := o.cfg
  files := .ok (o.listing.map Zmap.FileItem.listed)
  packedPclusters := o.fs.packedPclusters
  ownFiles todo := w.planFiles o.toImgCtx T (w.order todo) 0
  sweep := w.sweep o.toImgCtx T
  own_slices := fun todo planned h f hf => by
    obtain ⟨t, ht, n, hplan⟩ := mem_planFiles h hf
    obtain ⟨hidx, hslices⟩ := planOwnFile_slices hplan
    rw [hidx]
    exact ⟨w.offered todo t ht, hslices⟩
  sweep_slices := fun pcs set spool swept spool' h => sweepPclusters_slices (sweep_eq_ok.mp h)

/-! ### What the listing gives -/

/-- What stands in the log of the walk about files is from their inodes. -/
def Zmap.Erofs.LogsFiles (fs : Erofs) (log : Log Event) : Prop :=
  ∀ addr item, (addr, Event.file item) ∈ log → ∃ nid, fs.filePlan nid = .ok (item.plan, item.size)

section

variable {fs : Erofs}

theorem logsFiles_append {log log' : Log Event} (h : fs.LogsFiles log) (h' : fs.LogsFiles log') :
    fs.LogsFiles (log ++ log') := by
  intro addr item hitem
  cases List.mem_append.mp hitem with
  | inl hitem => exact h addr item hitem
  | inr hitem => exact h' addr item hitem

theorem logsFiles_cons {addr : Address} {e : Event} {log : Log Event}
    (he : ∀ item, e = .file item → ∃ nid, fs.filePlan nid = .ok (item.plan, item.size))
    (h : fs.LogsFiles log) : fs.LogsFiles ((addr, e) :: log) := by
  intro addr' item hitem
  cases List.mem_cons.mp hitem with
  | inl heq => exact he item (Prod.mk.inj heq).2.symm
  | inr hitem => exact h addr' item hitem

theorem fileEvent_eq_file {path : List Char} {d : Dirent} {item : Zmap.FileItem}
    (h : fs.fileEvent path d = .file item) : ∃ nid, fs.filePlan nid = .ok (item.plan, item.size) := by
  rw [Erofs.fileEvent] at h
  split at h
  · next plan size hplan =>
    cases h
    exact ⟨d.nid, hplan⟩
  · cases h

theorem subDir_error_ne_file {path : List Char} {d : Dirent} {note : Event}
    (h : fs.subDir path d = .error note) (item : Zmap.FileItem) : note ≠ .file item := by
  rw [Erofs.subDir] at h
  split at h
  · split_ifs at h
    cases h
    intro heq
    cases heq
  · cases h
    intro heq
    cases heq

theorem walkEntries_logsFiles
    {walk : Address → FullInode → List Char → List ℕ → Except Fault (List ℕ × Log Event)}
    (hwalk : ∀ addr dir path seen out, walk addr dir path seen = .ok out → fs.LogsFiles out.2)
    {dir : Address} {path : List Char} {entries : List (Dirent × ℕ)} {seen : List ℕ}
    {out : List ℕ × Log Event} (h : fs.walkEntries walk dir path entries seen = .ok out) :
    fs.LogsFiles out.2 := by
  induction entries generalizing seen out with
  | nil =>
    cases h
    exact nofun
  | cons entry rest ih =>
    obtain ⟨d, i⟩ := entry
    rw [Erofs.walkEntries] at h
    split_ifs at h with hself
    · exact ih h
    · split at h
      · split at h
        · obtain ⟨below, hbelow, h⟩ := bind_eq_ok.mp h
          obtain ⟨next, hnext, h⟩ := bind_eq_ok.mp h
          cases h
          exact logsFiles_append (hwalk _ _ _ _ _ hbelow) (ih hnext)
        · next note hnote =>
          obtain ⟨next, hnext, h⟩ := bind_eq_ok.mp h
          cases h
          exact logsFiles_cons (fun item heq => absurd heq (subDir_error_ne_file hnote item)) (ih hnext)
      · obtain ⟨next, hnext, h⟩ := bind_eq_ok.mp h
        cases h
        exact logsFiles_cons (fun item => fileEvent_eq_file) (ih hnext)
      · exact ih h

theorem walkDir_logsFiles {z : Decoders} {left : ℕ} {addr : Address} {dir : FullInode} {path : List Char}
    {seen : List ℕ} {out : List ℕ × Log Event} (h : fs.walkDir z left addr dir path seen = .ok out) :
    fs.LogsFiles out.2 := by
  have hnil : fs.LogsFiles [] := fun _ _ hitem => absurd hitem List.not_mem_nil
  -- What the walk logs of a directory itself is no file.
  have hnote : ∀ (e : Event), (∀ item, e ≠ .file item) → ∀ item, e = .file item →
      ∃ nid, fs.filePlan nid = .ok (item.plan, item.size) := fun e he item heq => absurd heq (he item)
  induction left generalizing addr dir path seen out with
  | zero =>
    cases h
    exact logsFiles_cons (hnote _ fun _ => Event.noConfusion) hnil
  | succ left ih =>
    rw [Erofs.walkDir] at h
    split_ifs at h with hseen
    · cases h
      exact logsFiles_cons (hnote _ fun _ => Event.noConfusion) hnil
    · split at h
      · cases h
      · cases h
        exact logsFiles_cons (hnote _ fun _ => Event.noConfusion) hnil
      · obtain ⟨below, hbelow, h⟩ := bind_eq_ok.mp h
        cases h
        refine logsFiles_cons (hnote _ fun _ => Event.noConfusion) (walkEntries_logsFiles ?_ hbelow)
        exact fun _ _ _ _ _ => ih

end

/-- A listed file's plan and size are from an inode. -/
theorem OpenImage.filePlan_eq (o : OpenImage) {f : Zmap.FileItem} (hf : f ∈ o.listing) :
    ∃ nid, o.fs.filePlan nid = .ok (f.plan, f.size) := by
  obtain ⟨log, hlog, hfiles⟩ := bind_eq_ok.mp o.files_eq
  obtain ⟨root, -, hlog⟩ := bind_eq_ok.mp hlog
  obtain ⟨_, -, hlog⟩ := bind_eq_ok.mp hlog
  obtain ⟨out, hwalk, hlog⟩ := bind_eq_ok.mp hlog
  cases hlog
  obtain ⟨hlisting, -⟩ := Prod.mk.inj (Except.ok.inj hfiles)
  rw [← hlisting] at hf
  obtain ⟨p, hp, hitem⟩ := List.mem_filterMap.mp hf
  obtain ⟨addr, e⟩ := p
  cases e with
  | file item =>
    cases hitem
    exact walkDir_logsFiles hwalk addr f hp
  | descent dir => cases hitem
  | note text => cases hitem

theorem chunkExts_llen_pos {chunksz size n : ℕ} {chunks : List Chunk} (hpos : 0 < chunksz)
    (hcut : Cut chunksz size n chunks) (la : ℕ) : ∀ e ∈ chunkExts la chunks, 0 < e.llen := by
  induction chunks generalizing n la with
  | nil => exact nofun
  | cons chunk rest ih =>
    obtain ⟨hlt, hllen, hrest⟩ := hcut
    refine List.forall_mem_cons.mpr ⟨?_, ih hrest _⟩
    show 0 < chunk.llen
    omega

/-- The plan's extents tile the file, and are none of them empty unless it is. -/
structure Covering (plan : ZPlan) (size : ℕ) : Prop where
  size_eq : plan.size = size
  size_lt : size < 2 ^ 64
  tiles : Tiles ZExt.la ZExt.llen 0 plan.size plan.exts
  llen_pos : 0 < size → ∀ e ∈ plan.exts, 0 < e.llen

/-- **The plan of a file tiles it**, whatever the layout. -/
theorem filePlan_covering {fs : Erofs} {nid : ℕ} {plan : ZPlan} {size : ℕ}
    (h : fs.filePlan nid = .ok (.streamed plan, size)) : Covering plan size := by
  obtain ⟨ino, hino, h⟩ := bind_eq_ok.mp h
  obtain ⟨_, -, h⟩ := bind_eq_ok.mp h
  obtain ⟨plan', hplan, h⟩ := bind_eq_ok.mp h
  cases h
  have hlt : ino.size < 2 ^ 64 := by
    obtain ⟨ino', hino', hino⟩ := bind_eq_ok.mp hino
    cases hino
    exact inode_size_lt hino'
  have hflat : ∀ inline, fs.planFlat ino inline = .streamed plan → Covering plan ino.size := by
    intro inline hflat
    rw [Erofs.planFlat] at hflat
    split_ifs at hflat with hzero hnull
    · cases hflat
      refine ⟨rfl, hlt, ⟨rfl, Nat.zero_add _⟩, fun hpos e he => ?_⟩
      rw [List.mem_singleton.mp he]
      exact hpos
  have hmapped : ∀ {zp}, fs.buildZplan ino.toInode = .ok zp → zp = plan → Covering plan ino.size := by
    intro zp hzp heq
    subst heq
    have htiled := buildZplan_wellTiled hzp
    refine ⟨htiled.size_eq, hlt, ?_, htiled.llen_pos⟩
    rw [htiled.size_eq]
    exact htiled.tiles
  rw [Erofs.plan] at hplan
  split at hplan
  · exact hflat false (Except.ok.inj hplan)
  · exact hflat true (Except.ok.inj hplan)
  · obtain ⟨chunks, hchunks, hplan⟩ := bind_eq_ok.mp hplan
    by_cases hhole : chunks.any Chunk.hole = true
    · rw [if_pos hhole] at hplan
      cases hplan
      have hpos := (fs.chunkFormat ino).chunksz_pos
      have hcut := Erofs.chunks_cut hchunks
      have htiles := chunkExts_tiles hcut ((Nat.zero_mul _).le.trans (Nat.zero_le _))
      rw [Nat.zero_mul] at htiles
      exact ⟨rfl, hlt, htiles, fun _ => chunkExts_llen_pos hpos hcut 0⟩
    · rw [if_neg hhole] at hplan
      cases hplan
  · obtain ⟨zp, hzp, hplan⟩ := bind_eq_ok.mp hplan
    exact hmapped hzp (Plan.streamed.inj (Except.ok.inj hplan))
  · obtain ⟨zp, hzp, hplan⟩ := bind_eq_ok.mp hplan
    exact hmapped hzp (Plan.streamed.inj (Except.ok.inj hplan))
  · cases hplan

end Hashdex
