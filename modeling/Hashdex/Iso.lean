import Mathlib
import Hashdex.Lib.BitArray
import Hashdex.Lib.RecState
import Hashdex.Scan
import Hashdex.Sniff
import Hashdex.View

/-!
# The directory tree of an ISO 9660 image

`isoDir` expands a directory extent: the files in it become members, one after the other, and then the
directories in it are expanded.  A record names an extent by an absolute block number, so the tree is a
graph; the walk leaves out the self and parent entries by their names, and looks at nothing else.

* `iso_terminates_iff`: whatever becomes of the files, the walk returns just when it never expands a
  directory inside its own expansion
* `self_directory`: an image in which it does
-/

namespace Hashdex

namespace Iso

open BitArray Descent RecProg RecProg.RecM

/-! ### Records -/

def le32 (b : Bytes) (o : ℕ) : ℕ := ofLe ((b.drop o).take 4)

structure IsoRecord where
  lba : ℕ
  size : ℕ
  isDir : Bool
  moreExtents : Bool
  name : List Char
  deriving DecidableEq

/-- The name in the record, without its version and the dots behind it. -/
def plainName (raw : Bytes) : List Char :=
  ((Scan.lossy raw).takeWhile (· ≠ ';')).rdropWhile (· = '.')

/-- The name that the `NM` entries of the system use area spell, from `su` on. -/
def rockRidgeName (rec : Bytes) (len : ℕ) : ℕ → ℕ → List Char
  | 0, _ => []
  | fuel + 1, su =>
    if su + 4 ≤ len then
      let entryLen := (rec.getD (su + 2) 0).toNat
      if entryLen < 4 ∨ len < su + entryLen then []
      else
        let rest := rockRidgeName rec len fuel (su + entryLen)
        if (rec.drop su).take 2 = [78, 77] ∧ 5 < entryLen then
          Scan.lossy ((rec.drop (su + 5)).take (entryLen - 5)) ++ rest
        else rest
    else []

def parseIsoRecord (rec : Bytes) : Option IsoRecord :=
  let len := (rec.getD 0 0).toNat
  if len < 34 ∨ rec.length < len then none
  else
    let flags := (rec.getD 25 0).toNat
    let nameLen := (rec.getD 32 0).toNat
    if len < 33 + nameLen then none
    else
      let raw := (rec.drop 33).take nameLen
      -- the self and parent entries
      if raw = [0] ∨ raw = [1] then none
      else
        let rrName := rockRidgeName rec len len (33 + nameLen + (1 - nameLen % 2))
        let name := if rrName ≠ [] ∧ rrName ≠ ['.'] ∧ rrName ≠ ['.', '.'] then rrName
          else plainName raw
        some ⟨le32 rec 2, le32 rec 10, flags.testBit 1, flags.testBit 7, name⟩

/-! ### A directory -/

/-- A file, with its extents in the image. -/
structure FileAt where
  name : List Char
  extents : List (ℕ × ℕ)
  deriving DecidableEq

structure SubDir where
  name : List Char
  lba : ℕ
  size : ℕ
  deriving DecidableEq

/-- A directory as far as it is parsed; a file that has more extents is pending. -/
structure Listing where
  files : List FileAt
  dirs : List SubDir
  pending : Option FileAt
  deriving DecidableEq

def Listing.record (l : Listing) (rec : IsoRecord) : Listing :=
  if rec.isDir then { l with dirs := l.dirs ++ [⟨rec.name, rec.lba, rec.size⟩] }
  else
    let extent := (rec.lba * 2048, rec.size)
    let file : FileAt := match l.pending with
      | some file => { file with extents := file.extents ++ [extent] }
      | none => ⟨rec.name, [extent]⟩
    if rec.moreExtents then { l with pending := some file }
    else { l with files := l.files ++ [file], pending := none }

/-- The loop over the records; a zero length pads to the next sector. -/
def scanDir (dir : Bytes) : ℕ → ℕ → Listing → Listing
  | 0, _, l => l
  | fuel + 1, off, l =>
    match dir[off]? with
    | none => l
    | some b =>
      if b = 0 then scanDir dir fuel ((off / 2048 + 1) * 2048) l
      else if dir.length < off + b.toNat then l
      else
        scanDir dir fuel (off + b.toNat)
          (((parseIsoRecord ((dir.drop off).take b.toNat)).map l.record).getD l)

def dirMax : ℕ := 64 <<< 20

/-- What a directory extent holds. -/
def readDir (view : View) (lba size : ℕ) : Except Err Listing :=
  if dirMax ≤ size then .error (.hard "directory extent implausibly large")
  else
    let dir := view.readFullAt size (lba * 2048)
    if dir.length = size then .ok (scanDir dir (dir.length + 1) 0 ⟨[], [], none⟩)
    else .error (.hard "truncated directory extent")

/-- The root directory, from the volume descriptors in the sectors that are left. -/
def findRoot (view : View) : ℕ → ℕ → Option (ℕ × ℕ) → Except Err (Option (ℕ × ℕ))
  | 0, _, root => .ok root
  | left + 1, sector, root =>
    let vd := view.readFullAt 2048 (sector * 2048)
    if vd.length ≠ 2048 then .error (.hard "truncated volume descriptor")
    else if (vd.drop 1).take 5 ≠ [67, 68, 48, 48, 49] then .error (.hard "no CD001 volume descriptor")
    else if vd.getD 0 0 = 255 then .ok root
    else if vd.getD 0 0 = 1 ∧ root = none then
      if (vd.getD 156 0).toNat < 34 then .error (.hard "bad root record")
      else findRoot view left (sector + 1) (some (le32 vd 158, le32 vd 166))
    else findRoot view left (sector + 1) root

/-- `iso_ranged` up to the walk. -/
def rootOf (view : View) : Except Err (ℕ × ℕ) :=
  match findRoot view 32 16 none with
  | .error e => .error e
  | .ok none => .error (.hard "no primary volume descriptor")
  | .ok (some root) => .ok root

/-! ### The walk -/

/-- A directory to expand: its extent, and its path with a slash behind it. -/
structure Dir where
  lba : ℕ
  size : ℕ
  path : List Char

/-- `process_ranged` for a file of the walk: the view over its extents, its path, and the file as the
directory has it.  It changes the walk's state, or fails. -/
abbrev Process (σ : Type) := View → List Char → FileAt → σ → Except Err σ

section
variable {σ : Type} (view : View) (process : Process σ)

/-- The files of a directory become members; the walk counts its children. -/
def processFiles (path : List Char) : List FileAt → RecM Dir (ℕ × σ) Err Unit Unit
  | [] => pure ()
  | file :: files => do
    let (children, s) ← getState
    let s ← lift (process (view.slice file.extents) (path ++ file.name) file s)
    putState (children + 1, s)
    processFiles path files

def expandDirs (path : List Char) : List SubDir → RecM Dir (ℕ × σ) Err Unit Unit
  | [] => pure ()
  | sub :: dirs => do
    recur ⟨sub.lba, sub.size, path ++ sub.name ++ ['/']⟩
    expandDirs path dirs

/-- `iso_dir`. -/
def isoDir (d : Dir) : RecM Dir (ℕ × σ) Err Unit Unit := do
  let listing ← lift (readDir view d.lba d.size)
  processFiles view process d.path listing.files
  expandDirs d.path listing.dirs

end

/-- Whatever becomes of the files, the walk returns. -/
def Returns (view : View) (root : ℕ × ℕ) : Prop :=
  ∀ (σ : Type) (process : Process σ) (s : ℕ × σ),
    Terminates (procedure (isoDir view process)) (⟨root.1, root.2, []⟩, s)

/-! ### The graph of the directories -/

/-- The directory and all below it can be read, and there is an end to it. -/
inductive Reads (view : View) : ℕ × ℕ → Prop
  | mk {d : ℕ × ℕ} {listing : Listing} (h : readDir view d.1 d.2 = .ok listing)
      (below : ∀ sub ∈ listing.dirs, Reads view (sub.lba, sub.size)) : Reads view d

/-- The second is a directory in the first, and those before it can be read. -/
def Next (view : View) (d d' : ℕ × ℕ) : Prop :=
  ∃ listing before sub after, readDir view d.1 d.2 = .ok listing ∧
    listing.dirs = before ++ sub :: after ∧ (∀ x ∈ before, Reads view (x.lba, x.size)) ∧
    d' = (sub.lba, sub.size)

/-- The walk from the root comes to a directory inside its own expansion. -/
def Recurs (view : View) (root : ℕ × ℕ) : Prop :=
  ∃ d, Relation.ReflTransGen (Next view) root d ∧ Relation.TransGen (Next view) d d

/-- The extent of a configuration of the walk. -/
def place {σ : Type} (c : Dir × ℕ × σ) : ℕ × ℕ := (c.1.lba, c.1.size)

section
variable {σ : Type} {view : View} {process : Process σ} {E : Oracle Dir (ℕ × σ) Err Unit}

/-- The files are no calls of the walk. -/
theorem not_reaches_processFiles {path : List Char} {files : List FileAt} {s s' : ℕ × σ} {n : Dir} :
    ¬ Reaches E (processFiles view process path files) s n s' := by
  induction files generalizing s with
  | nil => exact reaches_pure
  | cons file files ih =>
    intro h
    rcases reaches_bind.mp h with h | ⟨st, s₁, -, h⟩
    · exact reaches_getState h
    · rcases reaches_bind.mp h with h | ⟨t, s₂, -, h⟩
      · exact reaches_lift h
      · rcases reaches_bind.mp h with h | ⟨u, s₃, -, h⟩
        · exact reaches_putState h
        · exact ih h

/-- A call on a directory comes when those before it have been expanded. -/
theorem reaches_expandDirs {path : List Char} {dirs : List SubDir} {s s' : ℕ × σ} {n : Dir}
    (h : Reaches E (expandDirs path dirs) s n s') :
    ∃ before sub after, dirs = before ++ sub :: after ∧ n = ⟨sub.lba, sub.size, path ++ sub.name ++ ['/']⟩ ∧
      ∀ x ∈ before, ∃ c r, place c = (x.lba, x.size) ∧ E c (.ok r) := by
  induction dirs generalizing s with
  | nil => exact absurd h reaches_pure
  | cons sub dirs ih =>
    rcases reaches_bind.mp h with h | ⟨u, s₁, hy, h⟩
    · obtain ⟨hn, -⟩ := reaches_recur.mp h
      exact ⟨[], sub, dirs, rfl, hn, nofun⟩
    · obtain ⟨before, sub', after, heq, hn, hbefore⟩ := ih h
      refine ⟨sub :: before, sub', after, by rw [heq, List.cons_append], hn, fun x hx => ?_⟩
      cases List.mem_cons.mp hx with
      | inl hx =>
        rw [hx]
        exact ⟨_, _, rfl, yields_recur.mp hy⟩
      | inr hx => exact hbefore x hx

theorem yields_expandDirs {path : List Char} {dirs : List SubDir} {s s' : ℕ × σ} {u : Unit}
    (h : Yields E (expandDirs path dirs) s u s') {x : SubDir} (hx : x ∈ dirs) :
    ∃ c r, place c = (x.lba, x.size) ∧ E c (.ok r) := by
  induction dirs generalizing s with
  | nil => cases hx
  | cons sub dirs ih =>
    obtain ⟨_, s₁, hy, hrest⟩ := yields_bind.mp h
    cases List.mem_cons.mp hx with
    | inl hx =>
      rw [hx]
      exact ⟨_, _, rfl, yields_recur.mp hy⟩
    | inr hx => exact ih hrest hx

/-- A directory that has been expanded can be read, with all below it. -/
theorem reads_of_evaluates {c : Dir × ℕ × σ} {r : Unit × ℕ × σ}
    (h : Evaluates (procedure (isoDir view process)) c (.ok r)) : Reads view (place c) := by
  refine h.induct (P := fun c r => ∀ x, r = .ok x → Reads view (place c)) (fun c r hret x hr => ?_) r rfl
  rw [hr] at hret
  obtain ⟨listing, s₁, hread, hrest⟩ := yields_bind.mp hret
  obtain ⟨u, s₂, -, hdirs⟩ := yields_bind.mp hrest
  refine .mk (yields_lift.mp hread).1 fun sub hsub => ?_
  obtain ⟨c', r', hplace, -, -, hP⟩ := yields_expandDirs hdirs hsub
  rw [← hplace]
  exact hP r' rfl

/-- **A call of the walk is a step in the graph.** -/
theorem next_of_calls {c c' : Dir × ℕ × σ} (h : Calls (procedure (isoDir view process)) c c') :
    Next view (place c) (place c') := by
  obtain ⟨d, s⟩ := c
  obtain ⟨d', s'⟩ := c'
  have hreach : Reaches (Evaluates (procedure (isoDir view process))) (isoDir view process d) s d' s' := h
  rcases reaches_bind.mp hreach with hreach | ⟨listing, s₁, hread, hreach⟩
  · exact absurd hreach reaches_lift
  · rcases reaches_bind.mp hreach with hreach | ⟨u, s₂, -, hreach⟩
    · exact absurd hreach not_reaches_processFiles
    · obtain ⟨before, sub, after, heq, hn, hbefore⟩ := reaches_expandDirs hreach
      refine ⟨listing, before, sub, after, (yields_lift.mp hread).1, heq, fun x hx => ?_, ?_⟩
      · obtain ⟨c, r, hplace, hev⟩ := hbefore x hx
        rw [← hplace]
        exact reads_of_evaluates hev
      · rw [hn]
        rfl

end

/-! ### Where all files go through -/

/-- The processing of a file never fails. -/
def NeverFails {σ : Type} (process : Process σ) : Prop :=
  ∀ view path file s, ∃ s', process view path file s = .ok s'

section
variable {σ : Type} {view : View} {process : Process σ} {E : Oracle Dir (ℕ × σ) Err Unit}

theorem yields_processFiles_good (hgood : NeverFails process) (path : List Char) (files : List FileAt)
    (s : ℕ × σ) : ∃ s', Yields E (processFiles view process path files) s () s' := by
  induction files generalizing s with
  | nil => exact ⟨s, yields_pure.mpr ⟨rfl, rfl⟩⟩
  | cons file files ih =>
    obtain ⟨t, ht⟩ := hgood (view.slice file.extents) (path ++ file.name) file s.2
    obtain ⟨s', hs'⟩ := ih (s.1 + 1, t)
    exact ⟨s', yields_bind.mpr ⟨s, s, yields_getState.mpr ⟨rfl, rfl⟩, yields_bind.mpr
      ⟨t, s, yields_lift.mpr ⟨ht, rfl⟩, yields_bind.mpr
        ⟨(), (s.1 + 1, t), yields_putState.mpr rfl, hs'⟩⟩⟩⟩

/-- Every call on one of the directories returns. -/
def AllReturn (E : Oracle Dir (ℕ × σ) Err Unit) (dirs : List SubDir) : Prop :=
  ∀ x ∈ dirs, ∀ path s, ∃ s', E (⟨x.lba, x.size, path⟩, s) (.ok ((), s'))

theorem AllReturn.tail {sub : SubDir} {dirs : List SubDir} (h : AllReturn E (sub :: dirs)) :
    AllReturn E dirs := fun x hx => h x (List.mem_cons_of_mem sub hx)

theorem yields_expandDirs_good (path : List Char) {dirs : List SubDir} (h : AllReturn E dirs) (s : ℕ × σ) :
    ∃ s', Yields E (expandDirs path dirs) s () s' := by
  induction dirs generalizing s with
  | nil => exact ⟨s, yields_pure.mpr ⟨rfl, rfl⟩⟩
  | cons sub dirs ih =>
    obtain ⟨s₁, hs₁⟩ := h sub List.mem_cons_self (path ++ sub.name ++ ['/']) s
    obtain ⟨s', hs'⟩ := ih h.tail s₁
    exact ⟨s', yields_bind.mpr ⟨(), s₁, yields_recur.mpr hs₁, hs'⟩⟩

theorem reaches_expandDirs_good (path : List Char) {before : List SubDir} (h : AllReturn E before)
    (sub : SubDir) (after : List SubDir) (s : ℕ × σ) :
    ∃ s', Reaches E (expandDirs path (before ++ sub :: after)) s
      ⟨sub.lba, sub.size, path ++ sub.name ++ ['/']⟩ s' := by
  induction before generalizing s with
  | nil => exact ⟨s, reaches_bind.mpr (.inl (reaches_recur.mpr ⟨rfl, rfl⟩))⟩
  | cons x before ih =>
    obtain ⟨s₁, hs₁⟩ := h x List.mem_cons_self (path ++ x.name ++ ['/']) s
    obtain ⟨s', hs'⟩ := ih h.tail s₁
    exact ⟨s', reaches_bind.mpr (.inr ⟨(), s₁, yields_recur.mpr hs₁, hs'⟩)⟩

theorem evaluates_of_reads (hgood : NeverFails process) {d : ℕ × ℕ} (h : Reads view d)
    (path : List Char) (s : ℕ × σ) :
    ∃ s', Evaluates (procedure (isoDir view process)) (⟨d.1, d.2, path⟩, s) (.ok ((), s')) := by
  induction h generalizing path s with
  | @mk d listing hread below ih =>
    obtain ⟨s₁, hs₁⟩ := @yields_processFiles_good _ view process
      (Evaluates (procedure (isoDir view process))) hgood path listing.files s
    have hall : AllReturn (Evaluates (procedure (isoDir view process))) listing.dirs :=
      fun x hx path s => ih x hx path s
    obtain ⟨s₂, hs₂⟩ := yields_expandDirs_good path hall s₁
    refine ⟨s₂, evaluates_iff.mpr ?_⟩
    exact yields_bind.mpr ⟨listing, s, yields_lift.mpr ⟨hread, rfl⟩, yields_bind.mpr ⟨(), s₁, hs₁, hs₂⟩⟩

/-- **A step in the graph is a call of the walk** over files that all go through. -/
theorem calls_of_next (hgood : NeverFails process) {d : Dir} {d' : ℕ × ℕ}
    (h : Next view (d.lba, d.size) d') (s : ℕ × σ) :
    ∃ c', place c' = d' ∧ Calls (procedure (isoDir view process)) (d, s) c' := by
  obtain ⟨listing, before, sub, after, hread, heq, hbefore, hd'⟩ := h
  obtain ⟨s₁, hs₁⟩ := @yields_processFiles_good _ view process
    (Evaluates (procedure (isoDir view process))) hgood d.path listing.files s
  have hall : AllReturn (Evaluates (procedure (isoDir view process))) before :=
    fun x hx path s => evaluates_of_reads hgood (hbefore x hx) path s
  obtain ⟨s₂, hs₂⟩ := reaches_expandDirs_good d.path hall sub after s₁
  refine ⟨(⟨sub.lba, sub.size, d.path ++ sub.name ++ ['/']⟩, s₂), hd'.symm, ?_⟩
  rw [← heq] at hs₂
  exact reaches_bind.mpr (.inr ⟨listing, s, yields_lift.mpr ⟨hread, rfl⟩,
    reaches_bind.mpr (.inr ⟨(), s₁, hs₁, hs₂⟩)⟩)

/-- Where that walk is well-founded, the graph is. -/
theorem acc_next_of_acc_calls (hgood : NeverFails process) {c : Dir × ℕ × σ}
    (h : Acc (fun c' c => Calls (procedure (isoDir view process)) c c') c) :
    Acc (fun d' d => Next view d d') (place c) := by
  induction h with
  | intro c _ ih =>
    refine Acc.intro _ fun d' hd' => ?_
    obtain ⟨c', hplace, hcall⟩ := calls_of_next hgood hd' c.2
    rw [← hplace]
    exact ih c' hcall

/-- A walk that comes to a directory inside its own expansion does not return. -/
theorem Recurs.not_terminates {root : ℕ × ℕ} (h : Recurs view root) (hgood : NeverFails process)
    (s : ℕ × σ) : ¬ Terminates (procedure (isoDir view process)) (⟨root.1, root.2, []⟩, s) := by
  intro hterm
  obtain ⟨d, hroot, hcycle⟩ := h
  have hacc : Acc (fun d' d => Next view d d') root :=
    acc_next_of_acc_calls hgood (terminates_iff_acc.mp hterm)
  have hd : Acc (fun d' d => Next view d d') d := by
    clear hcycle hterm
    induction hroot with
    | refl => exact hacc
    | tail _ hstep ih => exact ih.inv hstep
  exact not_rel_self_of_acc hd.transGen (Relation.transGen_swap.mp hcycle)

end

/-! ### When the walk returns -/

theorem le32_lt (b : Bytes) (o : ℕ) : le32 b o < 2 ^ 32 := by
  have hlen : ((b.drop o).take 4).length ≤ 4 := List.length_take_le _ _
  have hpow : 256 ^ ((b.drop o).take 4).length ≤ 256 ^ 4 := Nat.pow_le_pow_right (by decide) hlen
  exact lt_of_lt_of_le (ofLe_lt _) hpow

theorem parseIsoRecord_lt {rec : Bytes} {r : IsoRecord} (h : parseIsoRecord rec = some r) :
    r.lba < 2 ^ 32 ∧ r.size < 2 ^ 32 := by
  rw [parseIsoRecord] at h
  dsimp only at h
  split_ifs at h <;> cases h <;> exact ⟨le32_lt _ _, le32_lt _ _⟩

/-- Records hold block numbers and sizes of 32 bits. -/
def Listing.Small (l : Listing) : Prop := ∀ sub ∈ l.dirs, sub.lba < 2 ^ 32 ∧ sub.size < 2 ^ 32

theorem Listing.Small.record {l : Listing} (h : l.Small) {rec : IsoRecord}
    (hrec : rec.lba < 2 ^ 32 ∧ rec.size < 2 ^ 32) : (l.record rec).Small := by
  rw [Listing.record]
  split_ifs with hdir hmore
  · intro sub hsub
    cases List.mem_append.mp hsub with
    | inl hsub => exact h sub hsub
    | inr hsub =>
      rw [List.mem_singleton.mp hsub]
      exact hrec
  · exact h
  · exact h

theorem scanDir_small {dir : Bytes} {fuel off : ℕ} {l : Listing} (h : l.Small) :
    (scanDir dir fuel off l).Small := by
  induction fuel generalizing off l with
  | zero => exact h
  | succ fuel ih =>
    rw [scanDir]
    cases dir[off]? with
    | none => exact h
    | some b =>
      dsimp only
      split_ifs
      · exact ih h
      · exact h
      · cases hrec : parseIsoRecord ((dir.drop off).take b.toNat) with
        | none => exact ih h
        | some rec => exact ih (h.record (parseIsoRecord_lt hrec))

theorem readDir_small {view : View} {lba size : ℕ} {listing : Listing}
    (h : readDir view lba size = .ok listing) : listing.Small := by
  rw [readDir] at h
  dsimp only at h
  split_ifs at h
  cases h
  exact scanDir_small nofun

/-- There are finitely many directories to come to. -/
theorem finite_reachable (view : View) (root : ℕ × ℕ) :
    {d | Relation.ReflTransGen (Next view) root d}.Finite := by
  have hbox : ({root} ∪ Set.Iio (2 ^ 32) ×ˢ Set.Iio (2 ^ 32) : Set (ℕ × ℕ)).Finite :=
    (Set.finite_singleton root).union (Set.Finite.prod (Set.finite_Iio _) (Set.finite_Iio _))
  refine hbox.subset fun d hd => ?_
  cases hd with
  | refl => exact .inl rfl
  | tail _ hstep =>
    obtain ⟨listing, before, sub, after, hread, heq, -, hd⟩ := hstep
    have hsmall := readDir_small hread sub (by rw [heq]; simp)
    rw [hd]
    exact .inr ⟨hsmall.1, hsmall.2⟩

theorem acc_next {view : View} {root : ℕ × ℕ} (h : ¬ Recurs view root) :
    Acc (fun d' d => Next view d d') root := by
  refine acc_of_acyclic (finite_reachable view root) fun d hd hcycle => ?_
  exact h ⟨d, hd, hcycle⟩

theorem terminates_of_not_recurs {view : View} {root : ℕ × ℕ} (h : ¬ Recurs view root) {σ : Type}
    (process : Process σ) (s : ℕ × σ) :
    Terminates (procedure (isoDir view process)) (⟨root.1, root.2, []⟩, s) := by
  have hacc : Acc (InvImage (fun d' d => Next view d d') place)
      ((⟨root.1, root.2, []⟩, s) : Dir × ℕ × σ) := InvImage.accessible place (acc_next h)
  exact terminates_of_measure hacc fun c c' hc => next_of_calls hc

/-- A processing that does nothing. -/
def nothing : Process Unit := fun _ _ _ s => .ok s

theorem nothing_neverFails : NeverFails nothing := fun _ _ _ s => ⟨s, rfl⟩

/-- **The walk returns, whatever becomes of the files, just when it never comes to a directory inside
its own expansion.**  Where the processing of the files never fails, it is so for each such processing by
itself. -/
theorem iso_terminates_iff (view : View) (root : ℕ × ℕ) :
    (Returns view root ↔ ¬ Recurs view root) ∧
      ∀ (σ : Type) (process : Process σ), NeverFails process → ∀ s : ℕ × σ,
        (Terminates (procedure (isoDir view process)) (⟨root.1, root.2, []⟩, s) ↔
          ¬ Recurs view root) := by
  constructor
  · constructor
    · exact fun h hrec => hrec.not_terminates nothing_neverFails (0, ()) (h Unit nothing (0, ()))
    · exact fun h σ process s => terminates_of_not_recurs h process s
  · intro σ process hgood s
    constructor
    · exact fun h hrec => hrec.not_terminates hgood s h
    · exact fun h => terminates_of_not_recurs h process s

theorem iso_terminates_iff_empty :
    Terminates (procedure (isoDir (View.ofFile []) nothing)) (⟨0, 0, []⟩, (0, ())) := by
  refine ((iso_terminates_iff (View.ofFile []) (0, 0)).2 Unit nothing nothing_neverFails (0, ())).mpr ?_
  intro hrec
  obtain ⟨d, hroot, hcycle⟩ := hrec
  have hnone : ∀ d', ¬ Next (View.ofFile []) (0, 0) d' := by
    intro d' hnext
    obtain ⟨listing, before, sub, after, hread, heq, -, -⟩ := hnext
    have hempty : readDir (View.ofFile []) 0 0 = .ok ⟨[], [], none⟩ := rfl
    cases hempty.symm.trans hread
    simp at heq
  cases hroot.cases_head with
  | inl heq =>
    subst heq
    cases Relation.TransGen.head'_iff.mp hcycle with
    | intro x hx => exact hnone x hx.1
  | inr hstep =>
    obtain ⟨x, hx, -⟩ := hstep
    exact hnone x hx

/-! ### A directory in itself -/

/-- A directory record for the 34 bytes at the start of the image; `name` is its one-byte name. -/
def selfRecord (name : UInt8) : Bytes :=
  [34, 0] ++ List.replicate 8 0 ++ [34, 0, 0, 0] ++ List.replicate 11 0 ++ [2] ++ List.replicate 6 0 ++
    [1, name]

/-- A volume descriptor with a root record. -/
def descriptor (ty : UInt8) (record : Bytes) : Bytes :=
  [ty, 67, 68, 48, 48, 49] ++ List.replicate 150 0 ++ record ++ List.replicate 1858 0

/-- An image whose root directory, at its start, has one record. -/
def image (record : Bytes) : Bytes :=
  record ++ List.replicate 32734 0 ++ (descriptor 1 (selfRecord 0) ++
    descriptor 255 (List.replicate 34 0))

/-- The root directory holds one directory, which is the root directory. -/
def selfImage : Bytes := image (selfRecord 65)

@[simp] theorem length_selfRecord (name : UInt8) : (selfRecord name).length = 34 := by
  rfl

theorem length_descriptor {ty : UInt8} {record : Bytes} (h : record.length = 34) :
    (descriptor ty record).length = 2048 := by
  rw [descriptor, List.length_append, List.length_append, List.length_append, h,
    List.length_replicate, List.length_replicate]
  rfl

section
variable {record : Bytes}

theorem length_image (h : record.length = 34) : (image record).length = 36864 := by
  rw [image, List.length_append, List.length_append, List.length_append, h, List.length_replicate,
    length_descriptor (length_selfRecord 0), length_descriptor List.length_replicate]

theorem read_image_0 (h : record.length = 34) :
    (View.ofFile (image record)).readFullAt 34 (0 * 2048) = record := by
  rw [View.readFullAt_eq, View.content_ofFile, image, Nat.zero_mul, List.drop_zero, List.append_assoc]
  exact List.take_left' h

theorem read_image_16 (h : record.length = 34) :
    (View.ofFile (image record)).readFullAt 2048 (16 * 2048) = descriptor 1 (selfRecord 0) := by
  have hfront : (record ++ List.replicate 32734 0).length = 16 * 2048 := by
    rw [List.length_append, h, List.length_replicate]
  rw [View.readFullAt_eq, View.content_ofFile, image, ← hfront, List.drop_left]
  exact List.take_left' (length_descriptor (length_selfRecord 0))

theorem read_image_17 (h : record.length = 34) :
    (View.ofFile (image record)).readFullAt 2048 (17 * 2048) =
      descriptor 255 (List.replicate 34 0) := by
  have hdesc : (descriptor 1 (selfRecord 0)).length = 2048 := length_descriptor (length_selfRecord 0)
  have hfront : (record ++ List.replicate 32734 0 ++ descriptor 1 (selfRecord 0)).length =
      17 * 2048 := by
    rw [List.length_append, List.length_append, h, List.length_replicate, hdesc]
  rw [View.readFullAt_eq, View.content_ofFile, image, ← List.append_assoc, ← hfront, List.drop_left]
  exact List.take_of_length_le (length_descriptor List.length_replicate).le

theorem rootOf_image (h : record.length = 34) : rootOf (View.ofFile (image record)) = .ok (0, 34) := by
  have hprimary : findRoot (View.ofFile (image record)) 32 16 none =
      findRoot (View.ofFile (image record)) 31 17 (some (0, 34)) := by
    have hmagic : ((descriptor 1 (selfRecord 0)).drop 1).take 5 = [67, 68, 48, 48, 49] := rfl
    have hty : (descriptor 1 (selfRecord 0)).getD 0 0 = 1 := rfl
    have hrecord : ((descriptor 1 (selfRecord 0)).getD 156 0).toNat = 34 := rfl
    have hlba : le32 (descriptor 1 (selfRecord 0)) 158 = 0 := rfl
    have hsize : le32 (descriptor 1 (selfRecord 0)) 166 = 34 := rfl
    rw [findRoot, read_image_16 h, if_neg (not_not.mpr (length_descriptor (length_selfRecord 0))),
      if_neg (not_not.mpr hmagic), if_neg (by rw [hty]; decide), if_pos ⟨hty, rfl⟩,
      if_neg (by omega), hlba, hsize]
  have hterminator : findRoot (View.ofFile (image record)) 31 17 (some (0, 34)) = .ok (some (0, 34)) := by
    rw [findRoot, read_image_17 h]
    have hmagic : ((descriptor 255 (List.replicate 34 0)).drop 1).take 5 = [67, 68, 48, 48, 49] := rfl
    have hty : (descriptor 255 (List.replicate 34 0)).getD 0 0 = 255 := rfl
    rw [if_neg (not_not.mpr (length_descriptor List.length_replicate)), if_neg (not_not.mpr hmagic),
      if_pos hty]
  rw [rootOf, hprimary, hterminator]

end

theorem read_selfImage : readDir (View.ofFile selfImage) 0 34 =
    .ok ⟨[], [⟨['A'], 0, 34⟩], none⟩ := by
  rw [selfImage, readDir, read_image_0 (length_selfRecord 65)]
  rfl

/-- The image is accepted, and the walk of it never returns. -/
theorem self_directory :
    rootOf (View.ofFile selfImage) = .ok (0, 34) ∧
      ¬ Terminates (procedure (isoDir (View.ofFile selfImage) nothing)) (⟨0, 34, []⟩, (0, ())) ∧
      ¬ Returns (View.ofFile selfImage) (0, 34) := by
  have hnext : Next (View.ofFile selfImage) (0, 34) (0, 34) :=
    ⟨_, [], ⟨['A'], 0, 34⟩, [], read_selfImage, rfl, nofun, rfl⟩
  have hrec : Recurs (View.ofFile selfImage) (0, 34) := ⟨(0, 34), .refl, .single hnext⟩
  have hnever := hrec.not_terminates nothing_neverFails (0, ())
  exact ⟨rootOf_image (length_selfRecord 65), hnever, fun h => hnever (h Unit nothing (0, ()))⟩

end Iso

end Hashdex
