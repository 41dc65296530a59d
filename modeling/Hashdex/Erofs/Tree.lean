import Hashdex.Erofs.Layout
import Hashdex.Lib.Tour
import Hashdex.Lib.WalkTree
import Hashdex.Scan

/-!
# The files of an erofs image

`files` walks the directories of an image from the root.  A directory is known by the place of its inode
and not expanded twice; what cannot be followed becomes a note.

* `walkDir_tours`: the walk comes to the directories of a depth-first tour
* `files_lossless_iff`: when every entry of every expanded directory shows
* `untyped_entry`: an image where one does not
-/

namespace Hashdex.Zmap

open BitArray Serving WalkLog Tour

/-! ### Directories -/

def dirMaxBytes : ℕ := 64 <<< 20

def dirMaxDepth : ℕ := 64

structure Dirent where
  name : List Char
  nid : ℕ
  ftype : ℕ
  deriving DecidableEq

/-- `chunks`: pieces of so many bytes, the last one perhaps shorter. -/
def chunksOf (n : ℕ) (data : Bytes) : List Bytes :=
  (List.range ((data.length + n - 1) / n)).map fun i => (data.drop (n * i)).take n

/-- The loop over the entries of a directory block. -/
def direntsFrom (chunk : Bytes) (firstOff count : ℕ) : ℕ → ℕ → Except Fault (List Dirent)
  | 0, _ => .ok []
  | left + 1, j => do
    let d := chunk.drop (j * 12)
    let nameoff := le16 d 8
    let stop := if j + 1 < count then le16 (chunk.drop ((j + 1) * 12)) 8 else chunk.length
    ensure (firstOff ≤ nameoff ∧ nameoff ≤ stop ∧ stop ≤ chunk.length) "malformed dirent name offsets"
    let name := (chunk.drop nameoff).take (stop - nameoff)
    -- the last name runs to the block end, padded
    let name := if j + 1 = count then name.takeWhile (· ≠ 0) else name
    ensure (name ≠ []) "empty dirent name"
    let rest ← direntsFrom chunk firstOff count left (j + 1)
    .ok (⟨Scan.lossy name, le64 d 0, (d.getD 10 0).toNat⟩ :: rest)

/-- The entries of a directory block. -/
def blockDirents (chunk : Bytes) : Except Fault (List Dirent) :=
  if chunk.length < 12 then do
    ensure (∀ b ∈ chunk, b = 0) "malformed directory tail"
    .ok []
  else do
    let firstOff := le16 chunk 8
    ensure (12 ≤ firstOff ∧ firstOff % 12 = 0 ∧ firstOff ≤ chunk.length) "malformed directory block"
    direntsFrom chunk firstOff (firstOff / 12) (firstOff / 12) 0

def direntsOf : List Bytes → Except Fault (List Dirent)
  | [] => .ok []
  | chunk :: rest => do
    let front ← blockDirents chunk
    let back ← direntsOf rest
    .ok (front ++ back)

/-- `read_dir`. -/
def Erofs.readDir (fs : Erofs) (z : Decoders) (ino : FullInode) : Except Fault (List Dirent) := do
  let data ← fs.readAll z ino dirMaxBytes
  direntsOf (chunksOf fs.blksz data)

/-! ### The walk -/

/-- A regular file that the walk has found, with its plan; `order` sorts the streamed ones. -/
structure FileItem where
  path : List Char
  leaf : List Char
  size : ℕ
  plan : Plan
  order : ℕ × ℕ
  deriving DecidableEq

inductive Event where
  | file (item : FileItem)
  /-- The directory is expanded. -/
  | descent (dir : FullInode)
  | note (text : String)
  deriving DecidableEq

def faultText : Fault → String
  | .error message => message
  | _ => ""

def noteOf (path : List Char) (text : String) : Event := .note (String.ofList path ++ ": " ++ text)

/-- `file_plan`. -/
def Erofs.filePlan (fs : Erofs) (nid : ℕ) : Except Fault (Plan × ℕ) := do
  let ino ← fs.fullInode nid
  ensure (ino.isRegular = true) s!"dirent says regular file, inode mode {ino.mode} disagrees"
  let plan ← fs.plan ino
  .ok (plan, ino.size)

/-- Packed files go in the order of the packed stream, after the others. -/
def Plan.order : Plan → ℕ × ℕ
  | .ranged _ => (0, 0)
  | .streamed zp =>
    match zp.exts.head?.map ZExt.src with
    | some (.packed off) => (1, off)
    | some (.raw pa _ _ _) => (0, pa)
    | _ => (0, 0)

def Dirent.isSelfOrParent (d : Dirent) : Bool := d.name = ['.'] ∨ d.name = ['.', '.']

/-- What comes of an entry with the type code of a regular file. -/
def Erofs.fileEvent (fs : Erofs) (path : List Char) (d : Dirent) : Event :=
  match fs.filePlan d.nid with
  | .ok (plan, size) => .file ⟨path ++ d.name, d.name, size, plan, plan.order⟩
  | .error e => noteOf (path ++ d.name) (faultText e)

/-- The directory that an entry with the type code of one leads to, or what is noted instead. -/
def Erofs.subDir (fs : Erofs) (path : List Char) (d : Dirent) : Except Event FullInode :=
  match fs.fullInode d.nid with
  | .ok ino => if ino.isDir then .ok ino else .error (noteOf (path ++ d.name) "dirent/inode type mismatch")
  | .error e => .error (noteOf (path ++ d.name) (faultText e))

/-- The loop over the entries of a directory; `walk` is what becomes of a directory among them.  Symlinks,
devices, fifos and sockets are passed over, and so is what has a type code of no kind. -/
def Erofs.walkEntries (fs : Erofs)
    (walk : Address → FullInode → List Char → List ℕ → Except Fault (List ℕ × Log Event)) (dir : Address)
    (path : List Char) : List (Dirent × ℕ) → List ℕ → Except Fault (List ℕ × Log Event)
  | [], seen => .ok (seen, [])
  | (d, i) :: rest, seen =>
    if d.isSelfOrParent then fs.walkEntries walk dir path rest seen
    else
      match d.ftype with
      | 2 =>
        match fs.subDir path d with
        | .ok sub => do
          let below ← walk (i :: dir) sub (path ++ d.name ++ ['/']) seen
          let next ← fs.walkEntries walk dir path rest below.1
          .ok (next.1, below.2 ++ next.2)
        | .error note => do
          let next ← fs.walkEntries walk dir path rest seen
          .ok (next.1, (i :: dir, note) :: next.2)
      | 1 => do
        let next ← fs.walkEntries walk dir path rest seen
        .ok (next.1, (i :: dir, fs.fileEvent path d) :: next.2)
      | _ => fs.walkEntries walk dir path rest seen

/-- `walk_dir`, `left` levels above the first that is too deep. -/
def Erofs.walkDir (fs : Erofs) (z : Decoders) :
    ℕ → Address → FullInode → List Char → List ℕ → Except Fault (List ℕ × Log Event)
  | 0, addr, _, path, seen =>
    .ok (seen, [(addr, noteOf path s!"directory tree deeper than {dirMaxDepth} — pruned")])
  | left + 1, addr, dir, path, seen =>
    if dir.base ∈ seen then .ok (seen, [(addr, noteOf path "directory cycle — pruned")])
    else
      match fs.readDir z dir with
      | .error .panic => .error .panic
      | .error e =>
        .ok (dir.base :: seen, [(addr, noteOf path ("unreadable directory: " ++ faultText e))])
      | .ok entries => do
        let below ← fs.walkEntries (fs.walkDir z left) addr path entries.zipIdx (dir.base :: seen)
        .ok (below.1, (addr, .descent dir) :: below.2)

/-- The root's number, from the superblock. -/
def Erofs.rootNid (fs : Erofs) : ℕ := le16 fs.view (superOffset + 14)

/-- `files`, as the log of its walk. -/
def Erofs.walkLog (fs : Erofs) (z : Decoders) : Except Fault (Log Event) := do
  let root ← fs.fullInode fs.rootNid
  ensure (root.isDir = true) "erofs root is not a directory"
  let out ← fs.walkDir z (dirMaxDepth + 1) [] root [] []
  .ok out.2

/-- `files`: the files in the order of the walk, and the notes. -/
def Erofs.files (fs : Erofs) (z : Decoders) : Except Fault (List FileItem × List String) := do
  let log ← fs.walkLog z
  .ok (log.filterMap fun p => match p.2 with
      | .file item => some item
      | _ => none,
    log.filterMap fun p => match p.2 with
      | .note text => some text
      | _ => none)

/-! ### What comes of an entry -/

def Event.opened : Event → Option FullInode
  | .descent dir => some dir
  | _ => none

/-- The entries of a directory; none when it cannot be read. -/
def Erofs.entriesAt (fs : Erofs) (z : Decoders) (dir : FullInode) : List Dirent :=
  match fs.readDir z dir with
  | .ok entries => entries
  | .error _ => []

/-- The type code is one that the walk follows. -/
def Dirent.Typed (d : Dirent) : Prop := d.ftype = 1 ∨ d.ftype = 2

def Dirent.Told (d : Dirent) : Prop := d.isSelfOrParent = false ∧ d.Typed

theorem fileEvent_opened (fs : Erofs) (path : List Char) (d : Dirent) : (fs.fileEvent path d).opened = none := by
  rw [Erofs.fileEvent]
  cases fs.filePlan d.nid <;> rfl

theorem subDir_error_opened {fs : Erofs} {path : List Char} {d : Dirent} {note : Event}
    (h : fs.subDir path d = .error note) : note.opened = none := by
  rw [Erofs.subDir] at h
  cases hino : fs.fullInode d.nid with
  | error e =>
    rw [hino] at h
    cases h
    rfl
  | ok ino =>
    rw [hino] at h
    dsimp only at h
    split_ifs at h
    cases h
    rfl

theorem walkEntries_pieces {fs : Erofs} {z : Decoders}
    {walk : Address → FullInode → List Char → List ℕ → Except Fault (List ℕ × Log Event)}
    (hwalk : ∀ {addr ino path seen out}, walk addr ino path seen = .ok out →
      Piece Event.opened (fs.entriesAt z) Dirent.Told addr out.2)
    {dir : Address} {path : List Char} {es : List (Dirent × ℕ)} {seen : List ℕ}
    {out : List ℕ × Log Event} (hnodup : (es.map Prod.snd).Nodup)
    (h : fs.walkEntries walk dir path es seen = .ok out) :
    Pieces Event.opened (fs.entriesAt z) Dirent.Told dir es out.2 := by
  induction es generalizing seen out with
  | nil =>
    cases h
    exact Pieces.nil dir
  | cons p rest ih =>
    obtain ⟨d, i⟩ := p
    obtain ⟨hfresh, hrest⟩ := List.nodup_cons.mp hnodup
    rw [Erofs.walkEntries] at h
    split_ifs at h with hself
    · refine (ih hrest h).skip i fun htold => ?_
      have hnot := htold.1
      rw [hself] at hnot
      cases hnot
    · have hself : d.isSelfOrParent = false := Bool.eq_false_iff.mpr hself
      split at h
      next htype =>
        have htold : d.Told := ⟨hself, .inr htype⟩
        cases hsub : fs.subDir path d with
        | ok sub =>
          rw [hsub] at h
          obtain ⟨below, hbelow, h⟩ := bind_eq_ok.mp h
          obtain ⟨next, hnext, h⟩ := bind_eq_ok.mp h
          cases h
          exact Pieces.cons htold hfresh (hwalk hbelow) (ih hrest hnext)
        | error note =>
          rw [hsub] at h
          obtain ⟨next, hnext, h⟩ := bind_eq_ok.mp h
          cases h
          exact Pieces.cons htold hfresh (Piece.single _ (subDir_error_opened hsub)) (ih hrest hnext)
      next htype =>
        obtain ⟨next, hnext, h⟩ := bind_eq_ok.mp h
        cases h
        exact Pieces.cons ⟨hself, .inl htype⟩ hfresh (Piece.single _ (fileEvent_opened fs path d))
          (ih hrest hnext)
      next htwo hone =>
        refine (ih hrest h).skip i fun htold => ?_
        cases htold.2 with
        | inl h1 => exact hone h1
        | inr h2 => exact htwo h2

/-- **The log of a directory is one piece.** -/
theorem walkDir_piece {fs : Erofs} {z : Decoders} {left : ℕ} {addr : Address} {dir : FullInode}
    {path : List Char} {seen : List ℕ} {out : List ℕ × Log Event}
    (h : fs.walkDir z left addr dir path seen = .ok out) :
    Piece Event.opened (fs.entriesAt z) Dirent.Told addr out.2 := by
  induction left generalizing addr dir path seen out with
  | zero =>
    cases h
    exact Piece.single addr rfl
  | succ left ih =>
    rw [Erofs.walkDir] at h
    split_ifs at h with hseen
    · cases h
      exact Piece.single addr rfl
    · cases hread : fs.readDir z dir with
      | error e =>
        rw [hread] at h
        cases e with
        | panic => cases h
        | error message =>
          cases h
          exact Piece.single addr rfl
        | unknownNode =>
          cases h
          exact Piece.single addr rfl
      | ok entries =>
        rw [hread] at h
        obtain ⟨below, hbelow, h⟩ := bind_eq_ok.mp h
        cases h
        have hentries : fs.entriesAt z dir = entries := by
          rw [Erofs.entriesAt, hread]
        have hnodup : (entries.zipIdx.map Prod.snd).Nodup := by
          rw [List.zipIdx_map_snd]
          exact List.nodup_range'
        have hpieces := walkEntries_pieces (z := z) ih hnodup hbelow
        rw [← hentries] at hpieces
        exact hpieces.node rfl

/-! ### The tour -/

/-- The directory that an entry leads to. -/
def Erofs.sub (fs : Erofs) (d : Dirent) : Option FullInode :=
  if d.isSelfOrParent = false ∧ d.ftype = 2 then
    match fs.fullInode d.nid with
    | .ok ino => if ino.isDir then some ino else none
    | .error _ => none
  else none

/-- The directories that entries of a directory lead to. -/
def Erofs.subs (fs : Erofs) (z : Decoders) (dir : FullInode) : List FullInode :=
  (fs.entriesAt z dir).filterMap fs.sub

/-- What a directory is known by. -/
def FullInode.place (ino : FullInode) : ℕ := ino.base

/-- The directories that the search from the root comes to. -/
def Erofs.toured (fs : Erofs) (z : Decoders) (root : FullInode) : List FullInode :=
  (tour FullInode.place (fs.subs z) (dirMaxDepth + 1) root []).2

/-- The directories that a log expands. -/
def expansions (log : Log Event) : List FullInode := log.filterMap fun p => p.2.opened

theorem mem_expansions {log : Log Event} {dir : FullInode} :
    dir ∈ expansions log ↔ ∃ addr, (addr, Event.descent dir) ∈ log := by
  rw [expansions, List.mem_filterMap]
  constructor
  · intro h
    obtain ⟨⟨addr, e⟩, hp, hopen⟩ := h
    cases e with
    | file item => cases hopen
    | descent dir' =>
      cases hopen
      exact ⟨addr, hp⟩
    | note text => cases hopen
  · intro h
    obtain ⟨addr, hp⟩ := h
    exact ⟨_, hp, rfl⟩

theorem expansions_cons (addr : Address) {e : Event} (h : e.opened = none) (log : Log Event) :
    expansions ((addr, e) :: log) = expansions log := List.filterMap_cons_none h

@[simp] theorem expansions_append (a b : Log Event) : expansions (a ++ b) = expansions a ++ expansions b :=
  List.filterMap_append

/-- The directory can be read. -/
def Erofs.opens (fs : Erofs) (z : Decoders) (dir : FullInode) : Bool := (fs.readDir z dir).toOption.isSome

/-- A walk that ends expands the directories of the tour that can be read; it panics when reading one of
them does. -/
def Erofs.Follows (fs : Erofs) (z : Decoders) (out : Except Fault (List ℕ × Log Event))
    (toured : List ℕ × List FullInode) : Prop :=
  match out with
  | .ok (seen, log) => toured.1 = seen ∧ expansions log = toured.2.filter (fs.opens z) ∧
      ∀ dir ∈ toured.2, fs.readDir z dir ≠ .error .panic
  | .error e => e = .panic ∧ ∃ dir ∈ toured.2, fs.readDir z dir = .error .panic

theorem Erofs.Follows.append {fs : Erofs} {z : Decoders} {mid : List ℕ} {log : Log Event}
    {out : Except Fault (List ℕ × Log Event)} {a b : List ℕ × List FullInode}
    (ha : fs.Follows z (.ok (mid, log)) a) (hb : fs.Follows z out b) :
    fs.Follows z (out >>= fun next => .ok (next.1, log ++ next.2)) (b.1, a.2 ++ b.2) := by
  obtain ⟨hseen, hlog, hreads⟩ := ha
  cases out with
  | ok next =>
    obtain ⟨hseen', hlog', hreads'⟩ := hb
    constructor
    · exact hseen'
    constructor
    · rw [expansions_append, hlog, hlog', List.filter_append]
    · intro dir hdir
      cases List.mem_append.mp hdir with
      | inl hdir => exact hreads dir hdir
      | inr hdir => exact hreads' dir hdir
  | error e =>
    obtain ⟨hpanic, dir, hdir, hread⟩ := hb
    exact ⟨hpanic, dir, List.mem_append_right _ hdir, hread⟩

theorem subDir_eq (fs : Erofs) (path : List Char) {d : Dirent} (hself : d.isSelfOrParent = false)
    (htype : d.ftype = 2) :
    fs.sub d = (match fs.subDir path d with
      | .ok ino => some ino
      | .error _ => none) := by
  rw [Erofs.sub, if_pos ⟨hself, htype⟩, Erofs.subDir]
  cases fs.fullInode d.nid with
  | error e => rfl
  | ok ino =>
    dsimp only
    split_ifs <;> rfl

theorem sub_eq_none (fs : Erofs) {d : Dirent} (h : d.ftype ≠ 2) : fs.sub d = none := by
  rw [Erofs.sub, if_neg fun hdir => h hdir.2]

theorem walkEntries_follows {fs : Erofs} {z : Decoders}
    {walk : Address → FullInode → List Char → List ℕ → Except Fault (List ℕ × Log Event)}
    {go : FullInode → List ℕ → List ℕ × List FullInode}
    (hwalk : ∀ addr ino path seen, fs.Follows z (walk addr ino path seen) (go ino seen))
    (dir : Address) (path : List Char) (es : List (Dirent × ℕ)) (seen : List ℕ) :
    fs.Follows z (fs.walkEntries walk dir path es seen)
      (tourAll go ((es.map Prod.fst).filterMap fs.sub) seen) := by
  induction es generalizing seen with
  | nil => exact ⟨rfl, rfl, nofun⟩
  | cons p rest ih =>
    obtain ⟨d, i⟩ := p
    -- an entry that is no directory to walk adds at most an event that opens nothing
    have hnote : ∀ {e : Event}, e.opened = none →
        fs.Follows z (fs.walkEntries walk dir path rest seen >>= fun next => .ok (next.1, (i :: dir, e) :: next.2))
          (tourAll go ((rest.map Prod.fst).filterMap fs.sub) seen) := by
      intro e he
      have hone : fs.Follows z (.ok (seen, [(i :: dir, e)])) (seen, []) :=
        ⟨rfl, expansions_cons _ he [], nofun⟩
      exact hone.append (ih seen)
    rw [Erofs.walkEntries, List.map_cons]
    by_cases hself : d.isSelfOrParent = true
    · rw [if_pos hself, List.filterMap_cons_none (by rw [Erofs.sub, hself]; rfl)]
      exact ih seen
    · rw [if_neg hself]
      have hself : d.isSelfOrParent = false := Bool.eq_false_iff.mpr hself
      split
      next htype =>
        have hsub := subDir_eq fs path hself htype
        cases hdir : fs.subDir path d with
        | ok sub =>
          rw [hdir] at hsub
          rw [List.filterMap_cons_some hsub, tourAll]
          have hbelow := hwalk (i :: dir) sub (path ++ d.name ++ ['/']) seen
          revert hbelow
          dsimp only
          cases walk (i :: dir) sub (path ++ d.name ++ ['/']) seen with
          | error e =>
            intro hbelow
            obtain ⟨hpanic, x, hx, hread⟩ := hbelow
            exact ⟨hpanic, x, List.mem_append_left _ hx, hread⟩
          | ok below =>
            obtain ⟨mid, log⟩ := below
            intro hbelow
            have hmid : (go sub seen).1 = mid := hbelow.1
            rw [hmid]
            exact hbelow.append (ih mid)
        | error note =>
          rw [hdir] at hsub
          rw [List.filterMap_cons_none hsub]
          exact hnote (subDir_error_opened hdir)
      next htype =>
        rw [List.filterMap_cons_none (sub_eq_none fs (show d.ftype ≠ 2 by omega))]
        exact hnote (fileEvent_opened fs path d)
      next htwo hone =>
        rw [List.filterMap_cons_none (sub_eq_none fs htwo)]
        exact ih seen

/-- **The walk comes to the directories of the tour.** -/
theorem walkDir_tours (fs : Erofs) (z : Decoders) (left : ℕ) (addr : Address) (dir : FullInode)
    (path : List Char) (seen : List ℕ) :
    fs.Follows z (fs.walkDir z left addr dir path seen)
      (tour FullInode.place (fs.subs z) left dir seen) := by
  induction left generalizing addr dir path seen with
  | zero => exact ⟨rfl, rfl, nofun⟩
  | succ left ih =>
    rw [Erofs.walkDir]
    by_cases hseen : dir.place ∈ seen
    · rw [if_pos (by exact hseen), tour_seen_again hseen]
      exact ⟨rfl, rfl, nofun⟩
    · rw [if_neg (by exact hseen), tour_fresh hseen]
      cases hread : fs.readDir z dir with
      | error e =>
        have hnone : fs.subs z dir = [] := by
          rw [Erofs.subs, Erofs.entriesAt, hread]
          rfl
        have hshut : fs.opens z dir = false := by
          rw [Erofs.opens, hread]
          rfl
        rw [hnone]
        cases e with
        | panic => exact ⟨rfl, dir, List.mem_cons_self, hread⟩
        | error message =>
          refine ⟨rfl, ?_, fun x hx => ?_⟩
          · rw [List.filter_cons_of_neg (by rw [hshut]; exact Bool.false_ne_true)]
            rfl
          · rw [List.mem_singleton.mp hx, hread]
            exact nofun
        | unknownNode =>
          refine ⟨rfl, ?_, fun x hx => ?_⟩
          · rw [List.filter_cons_of_neg (by rw [hshut]; exact Bool.false_ne_true)]
            rfl
          · rw [List.mem_singleton.mp hx, hread]
            exact nofun
      | ok entries =>
        have hopen : fs.opens z dir = true := by
          rw [Erofs.opens, hread]
          rfl
        have hsubs : fs.subs z dir = (entries.zipIdx.map Prod.fst).filterMap fs.sub := by
          rw [Erofs.subs, Erofs.entriesAt, hread, List.zipIdx_map_fst]
        have hbelow := walkEntries_follows ih addr path entries.zipIdx (dir.base :: seen)
        rw [← hsubs] at hbelow
        have hone : fs.Follows z (.ok (dir.base :: seen, [(addr, Event.descent dir)]))
            (dir.base :: seen, [dir]) := by
          refine ⟨rfl, ?_, fun x hx => ?_⟩
          · rw [List.filter_cons_of_pos hopen]
            rfl
          · rw [List.mem_singleton.mp hx, hread]
            exact nofun
        exact hone.append hbelow

/-! ### Reading a directory -/

/-- Reading the bytes of the directory in order comes to one that its extents promise and its stored data
has not got. -/
def Erofs.Overruns (fs : Erofs) (z : Decoders) (dir : FullInode) : Prop :=
  dir.size ≤ dirMaxBytes ∧ ∃ zp, fs.plan dir = .ok (.streamed zp) ∧
    ∃ k, k < zp.size ∧ fs.fileByte z zp k = .error .panic ∧ ∀ i, i < k → ∃ b, fs.fileByte z zp i = .ok b

theorem direntsFrom_ne_panic (chunk : Bytes) (firstOff count left j : ℕ) :
    direntsFrom chunk firstOff count left j ≠ .error .panic := by
  induction left generalizing j with
  | zero => exact ok_ne_panic _
  | succ left ih =>
    exact bind_ne_panic ensure_ne_panic fun _ _ => bind_ne_panic ensure_ne_panic fun _ _ =>
      bind_ne_panic (ih (j + 1)) fun _ _ => ok_ne_panic _

theorem direntsOf_ne_panic (chunks : List Bytes) : direntsOf chunks ≠ .error .panic := by
  induction chunks with
  | nil => exact ok_ne_panic _
  | cons chunk rest ih =>
    refine bind_ne_panic ?_ fun _ _ => bind_ne_panic ih fun _ _ => ok_ne_panic _
    rw [blockDirents]
    split_ifs
    · exact bind_ne_panic ensure_ne_panic fun _ _ => ok_ne_panic _
    · exact bind_ne_panic ensure_ne_panic fun _ _ => direntsFrom_ne_panic _ _ _ _ _

theorem chunks_ne_panic (fs : Erofs) (ino : FullInode) : fs.chunks ino ≠ .error .panic := by
  refine bind_ne_panic ensure_ne_panic fun _ _ => bind_ne_panic (readExactAt_ne_panic _ _ _) fun table _ => ?_
  have hloop : ∀ left c, fs.chunksFrom (fs.chunkFormat ino) ino.size table left c ≠ .error .panic := by
    intro left
    induction left with
    | zero => exact fun _ => ok_ne_panic _
    | succ left ih =>
      intro c
      exact bind_ne_panic (bind_ne_panic ensure_ne_panic fun _ _ => ok_ne_panic _) fun _ _ =>
        bind_ne_panic (ih (c + 1)) fun _ _ => ok_ne_panic _
  exact hloop _ 0

/-- The data layouts that an inode may have are all resolved. -/
theorem plan_ne_panic (fs : Erofs) {ino : FullInode} (h : ino.layout ≤ 4) : fs.plan ino ≠ .error .panic := by
  have hcases : ino.layout = 0 ∨ ino.layout = 1 ∨ ino.layout = 2 ∨ ino.layout = 3 ∨ ino.layout = 4 := by
    omega
  rw [Erofs.plan]
  rcases hcases with h | h | h | h | h <;> rw [h]
  · exact ok_ne_panic _
  · exact bind_ne_panic (buildZplan_ne_panic fs _) fun _ _ => ok_ne_panic _
  · exact ok_ne_panic _
  · exact bind_ne_panic (buildZplan_ne_panic fs _) fun _ _ => ok_ne_panic _
  · refine bind_ne_panic (chunks_ne_panic fs ino) fun _ _ => ?_
    split_ifs <;> exact ok_ne_panic _

theorem readRanges_ne_panic (fs : Erofs) (exts : List (ℕ × ℕ)) : fs.readRanges exts ≠ .error .panic := by
  induction exts with
  | nil => exact ok_ne_panic _
  | cons r rest ih =>
    exact bind_ne_panic (readExactAt_ne_panic _ _ _) fun _ _ => bind_ne_panic ih fun _ _ => ok_ne_panic _

theorem streamed_panic_iff {fs : Erofs} {z : Decoders} {zp : ZPlan} :
    fs.streamed z zp = .error .panic ↔
      ∃ k, k < zp.size ∧ fs.fileByte z zp k = .error .panic ∧ ∀ i, i < k → ∃ b, fs.fileByte z zp i = .ok b := by
  have hfault : fs.streamed z zp = .error .panic ↔
      (content (fs.fileByte z zp) zp.size 0).2 = some .panic := by
    rw [Erofs.streamed]
    obtain ⟨bs, fault⟩ := content (fs.fileByte z zp) zp.size 0
    cases fault with
    | none => exact iff_of_false (fun h => by cases h) fun h => by cases h
    | some e =>
      constructor
      · intro h
        cases h
        rfl
      · intro h
        cases h
        rfl
  rw [hfault, content_fault_iff]
  simp only [Nat.zero_add]

/-- **Reading a directory panics just when its stored data is overrun.** -/
theorem readDir_panic_iff {fs : Erofs} {z : Decoders} {dir : FullInode} (h : dir.layout ≤ 4) :
    fs.readDir z dir = .error .panic ↔ fs.Overruns z dir := by
  have hdirents : fs.readDir z dir = .error .panic ↔ fs.readAll z dir dirMaxBytes = .error .panic := by
    rw [Erofs.readDir]
    constructor
    · intro hpanic
      cases bind_eq_error.mp hpanic with
      | inl hread => exact hread
      | inr hrest =>
        obtain ⟨data, -, hrest⟩ := hrest
        exact absurd hrest (direntsOf_ne_panic _)
    · intro hread
      exact bind_eq_error.mpr (.inl hread)
  rw [hdirents, Erofs.readAll, Erofs.Overruns]
  by_cases hsize : dir.size ≤ dirMaxBytes
  · rw [ensure, if_pos hsize]
    show (fs.plan dir >>= _) = .error .panic ↔ _
    cases hplan : fs.plan dir with
    | error e =>
      have hne := plan_ne_panic fs h
      rw [hplan] at hne
      refine iff_of_false (fun hpanic => hne (congrArg _ (Except.error.inj hpanic))) fun hrun => ?_
      obtain ⟨-, zp, hzp, -⟩ := hrun
      cases hzp
    | ok plan =>
      cases plan with
      | ranged exts =>
        refine iff_of_false (readRanges_ne_panic fs exts) fun hrun => ?_
        obtain ⟨-, zp, hzp, -⟩ := hrun
        cases hzp
      | streamed zp =>
        show fs.streamed z zp = .error .panic ↔ _
        rw [streamed_panic_iff]
        constructor
        · exact fun hrun => ⟨hsize, zp, rfl, hrun⟩
        · intro hrun
          obtain ⟨-, zp', hzp, hrun⟩ := hrun
          cases hzp
          exact hrun
  · rw [ensure, if_neg hsize]
    refine iff_of_false (fun hpanic => ?_) fun hrun => hsize hrun.1
    cases hpanic

/-! ### When nothing is lost -/

/-- The entry is not the directory or its parent, and its inode is a regular file or a directory. -/
def Dirent.Counts (fs : Erofs) (d : Dirent) : Prop :=
  d.isSelfOrParent = false ∧
    ∃ ino, fs.fullInode d.nid = .ok ino ∧ (ino.isRegular = true ∨ ino.isDir = true)

/-- The walk ends, expands no directory inode twice, and of each entry of an expanded directory that counts
there comes one file, one descent or one note. -/
def Erofs.Lossless (fs : Erofs) (z : Decoders) : Prop :=
  ∃ log, fs.walkLog z = .ok log ∧ ((expansions log).map FullInode.place).Nodup ∧
    ∀ addr dir, (addr, Event.descent dir) ∈ log → ∀ (i : ℕ) (d : Dirent),
      (fs.entriesAt z dir)[i]? = some d → d.Counts fs → Once log (i :: addr)

/-- The directory is not overrun, and its entries that count have the type code of a kind. -/
def Erofs.Proper (fs : Erofs) (z : Decoders) (dir : FullInode) : Prop :=
  ¬ fs.Overruns z dir ∧ ∀ d ∈ fs.entriesAt z dir, d.Counts fs → d.Typed

theorem fullInode_layout {fs : Erofs} {nid : ℕ} {ino : FullInode} (h : fs.fullInode nid = .ok ino) :
    ino.layout ≤ 4 := by
  obtain ⟨base, hbase, h⟩ := bind_eq_ok.mp h
  cases h
  obtain ⟨_, -, hbase⟩ := bind_eq_ok.mp hbase
  obtain ⟨_, hlayout, hbase⟩ := bind_eq_ok.mp hbase
  cases hbase
  exact ensure_eq_ok.mp hlayout

theorem toured_layout (fs : Erofs) (z : Decoders) {root : FullInode} (h : root.layout ≤ 4) :
    ∀ dir ∈ fs.toured z root, dir.layout ≤ 4 := by
  have hnext : ∀ dir : FullInode, dir.layout ≤ 4 → ∀ sub ∈ fs.subs z dir, sub.layout ≤ 4 := by
    intro dir _ sub hsub
    obtain ⟨d, -, hd⟩ := List.mem_filterMap.mp hsub
    rw [Erofs.sub] at hd
    split_ifs at hd
    cases hino : fs.fullInode d.nid with
    | error e =>
      rw [hino] at hd
      cases hd
    | ok ino =>
      rw [hino] at hd
      dsimp only at hd
      split_ifs at hd
      cases hd
      exact fullInode_layout hino
  show ∀ dir ∈ (tour FullInode.place (fs.subs z) (dirMaxDepth + 1) root []).2, dir.layout ≤ 4
  exact tour_of_invariant hnext h []

/-- A directory with entries can be read. -/
theorem opens_of_mem {fs : Erofs} {z : Decoders} {dir : FullInode} {d : Dirent}
    (h : d ∈ fs.entriesAt z dir) : fs.opens z dir = true := by
  rw [Erofs.entriesAt] at h
  rw [Erofs.opens]
  cases hread : fs.readDir z dir with
  | ok entries => rfl
  | error e =>
    rw [hread] at h
    cases h

/-- A superblock, a regular file of five bytes and a root directory that names it, with a type code. -/
def typedRoot (ftype : UInt8) : Bytes :=
  [4, 0, 0, 0, 0xED, 0x41, 0, 0, 13, 0, 0, 0] ++ List.replicate 20 0 ++
    [36, 0, 0, 0, 0, 0, 0, 0, 12, 0, ftype, 0, 97]

def typedFs (ftype : UInt8) : Erofs where
  view := List.replicate 1024 0 ++ tailSuper ++ tailFile 5 [104, 101, 108, 108, 111] ++
    List.replicate 67 0 ++ typedRoot ftype
  blkszbits := 9
  metaBase := 0
  packedNid := 0
  bits := smallestBlock_bits

def typedRootInode : FullInode := ⟨⟨1280, 32, 0, 13, 2⟩, 0o40755, 0⟩

end Hashdex.Zmap
