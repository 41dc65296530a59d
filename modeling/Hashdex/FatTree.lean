import Hashdex.Fat
import Hashdex.Lib.WalkLog
import Hashdex.Scan

/-!
# The directory tree of a FAT filesystem

`Fat.files` lists a filesystem: it expands a directory, which names files and more directories by the
clusters their chains start at, and then expands those.  A start that has been met is not followed again.

* `tree_lossless_iff`: when every chain is expanded once and every entry shows
* `twin_directories`: a filesystem where one does not
-/

namespace Hashdex

namespace Fat

open WalkLog

/-! ### Directory entries -/

/-- `from_utf16_lossy`. -/
def utf16Lossy : List ℕ → List Char
  | [] => []
  | [u] => [if 0xD800 ≤ u ∧ u < 0xE000 then '\uFFFD' else Char.ofNat u]
  | u :: v :: rest =>
    if 0xD800 ≤ u ∧ u < 0xDC00 ∧ 0xDC00 ≤ v ∧ v < 0xE000 then
      Char.ofNat (0x10000 + (u - 0xD800) * 0x400 + (v - 0xDC00)) :: utf16Lossy rest
    else (if 0xD800 ≤ u ∧ u < 0xE000 then '\uFFFD' else Char.ofNat u) :: utf16Lossy (v :: rest)

/-- White space as `trim_end` has it. -/
def isWhitespace (ch : Char) : Bool :=
  let n := ch.toNat
  (0x09 ≤ n ∧ n ≤ 0x0D) ∨ n ∈ [0x20, 0x85, 0xA0, 0x1680, 0x2028, 0x2029, 0x202F, 0x205F, 0x3000] ∨
    (0x2000 ≤ n ∧ n ≤ 0x200A)

/-- `long_name`: the fragments before an entry, put together by their ordinals. -/
def longName (parts : List (ℕ × List ℕ)) : Option (List Char) :=
  if parts = [] then none
  else
    let units := (parts.insertionSort fun a b => a.1 ≤ b.1).flatMap fun p =>
      p.2.takeWhile fun u => u ≠ 0 ∧ u ≠ 0xFFFF
    let name := utf16Lossy units
    if name = [] then none else some name

/-- The 13 units of a name fragment. -/
def fragment (e : Bytes) : List ℕ :=
  [1, 3, 5, 7, 9, 14, 16, 18, 20, 22, 24, 28, 30].map (le16 e)

/-- A live entry that is no name fragment. -/
structure Record where
  name : List Char
  attr : ℕ
  start : ℕ
  size : ℕ
  deriving DecidableEq

def Record.isLabel (r : Record) : Bool := r.attr.testBit 3

def Record.isDir (r : Record) : Bool := r.attr.testBit 4

section

-- `to_lowercase` of a text
variable (lower : List Char → List Char)

/-- `short_name`: the 8.3 name, with the case flags. -/
def shortName (e : Bytes) : List Char :=
  let raw (b : Bytes) := (Scan.lossy b).rdropWhile isWhitespace
  let base := raw (e.take 8)
  let ext := raw ((e.drop 8).take 3)
  let base := if byteAt e 0 = 0x05 then '\u00e5' :: base.drop 1 else base
  let base := if (byteAt e 12).testBit 3 then lower base else base
  let ext := if (byteAt e 12).testBit 4 then lower ext else ext
  if ext = [] then base else base ++ '.' :: ext

/-- The records of a directory, up to the end mark; `lfn` is the fragments since the last one. -/
def records : List Bytes → List (ℕ × List ℕ) → List Record
  | [], _ => []
  | e :: rest, lfn =>
    if byteAt e 0 = 0x00 then []
    -- a deleted entry voids its long name
    else if byteAt e 0 = 0xE5 then records rest []
    else if byteAt e 11 = 0x0F then records rest (lfn ++ [(byteAt e 0 % 64, fragment e)])
    else
      ⟨(longName lfn).getD (shortName lower e), byteAt e 11, le16 e 20 <<< 16 ||| le16 e 26, le32 e 28⟩ ::
        records rest []

/-- `chunks_exact(32)`. -/
def entriesOf (dir : Bytes) : List Bytes :=
  (List.range (dir.length / 32)).map fun i => (dir.drop (32 * i)).take 32

variable (fat : Fat) (view table : Bytes)

/-- What the runs of a directory hold. -/
def dirBytes (runs : List (ℕ × ℕ)) : Bytes := runs.flatMap fun r => (view.drop r.1).take r.2

def recordsIn (runs : List (ℕ × ℕ)) : List Record := records lower (entriesOf (dirBytes view runs)) []

/-! ### The walk -/

structure File where
  path : List Char
  runs : List (ℕ × ℕ)
  deriving DecidableEq

/-- What comes of an entry; of a directory, its start is told too. -/
inductive Event where
  | file (f : File)
  /-- The directory is expanded; FAT12 and FAT16 have a root that starts at no cluster. -/
  | descent (start : Option ℕ)
  | note (start : Option ℕ) (text : String)
  deriving DecidableEq

/-- A directory that an entry names. -/
structure SubDir where
  idx : ℕ
  name : List Char
  start : ℕ

def maxDirDepth : ℕ := 64

/-- The text of a fault. -/
def faultText : Fault → String
  | .error message => message
  | _ => ""

def noteOf (path : List Char) (e : Fault) : String := String.ofList path ++ ": " ++ faultText e

/-- The entry is skipped: a volume label, or the self and parent links. -/
def Record.Skipped (r : Record) : Prop :=
  r.isLabel = true ∨ r.name = [] ∨ r.name = ['.'] ∨ r.name = ['.', '.']

instance (r : Record) : Decidable r.Skipped := inferInstanceAs (Decidable (_ ∨ _))

/-- A file of a directory. -/
def fileEvent (path : List Char) (r : Record) : Event :=
  match fat.chain table r.start with
  | .ok runs => .file ⟨path ++ r.name, truncateRuns runs r.size⟩
  | .error e => .note none (noteOf (path ++ r.name) e)

/-- The loop over the entries of a directory: the starts seen so far, the directories to expand, and
what has come of the files. -/
def scanRecords (dir : Address) (path : List Char) :
    List (Record × ℕ) → List ℕ → List ℕ × List SubDir × Log Event
  | [], seen => (seen, [], [])
  | (r, i) :: rest, seen =>
    if r.Skipped then scanRecords dir path rest seen
    else if r.isDir = true then
      if 2 ≤ r.start ∧ r.start ∉ seen then
        let next := scanRecords dir path rest (r.start :: seen)
        (next.1, ⟨i, r.name, r.start⟩ :: next.2.1, next.2.2)
      else scanRecords dir path rest seen
    else if r.size = 0 ∨ r.start < 2 then scanRecords dir path rest seen
    else
      let next := scanRecords dir path rest seen
      (next.1, next.2.1, (i :: dir, fileEvent fat table path r) :: next.2.2)

/-- The loop over the directories of a directory. -/
def descend (walk : SubDir → List (ℕ × ℕ) → List ℕ → List ℕ × Log Event) (dir : Address)
    (path : List Char) : List SubDir → List ℕ → List ℕ × Log Event
  | [], seen => (seen, [])
  | sub :: rest, seen =>
    match fat.chain table sub.start with
    | .error e =>
      let next := descend walk dir path rest seen
      (next.1, (sub.idx :: dir, .note (some sub.start) (noteOf (path ++ sub.name ++ ['/']) e)) :: next.2)
    | .ok runs =>
      let below := walk sub runs seen
      let next := descend walk dir path rest below.1
      (next.1, below.2 ++ next.2)

/-- `walk_dir`, `left` levels above the deepest there may be. -/
def walkDir : ℕ → Address → Option ℕ → List (ℕ × ℕ) → List Char → List ℕ → List ℕ × Log Event
  | 0, dir, start, _, path, seen =>
    (seen, [(dir, .note start s!"{String.ofList path}: directory nesting past {maxDirDepth}")])
  | left + 1, dir, start, runs, path, seen =>
    let scanned := scanRecords fat table dir path (recordsIn lower view runs).zipIdx seen
    let below := descend fat table
      (fun sub runs seen => walkDir left (sub.idx :: dir) (some sub.start) runs (path ++ sub.name ++ ['/']) seen)
      dir path scanned.2.1 scanned.1
    (below.1, (dir, .descent start) :: (scanned.2.2 ++ below.2))

/-- Where the root directory starts: FAT32 gives it a cluster chain, the others a fixed region. -/
def rootStart : Option ℕ := if fat.kind = .fat32 then some fat.rootCluster else none

/-- The runs of a directory, by its start. -/
def dirRuns : Option ℕ → Except Fault (List (ℕ × ℕ))
  | some c => fat.chain table c
  | none => .ok [((fat.reserved + fat.numFats * fat.fatSectors) * fat.bytesPerSector, fat.rootEntries * 32)]

/-- The walk from the root. -/
def walkLog : Except Fault (Log Event) := do
  let root ← fat.dirRuns table fat.rootStart
  .ok (walkDir lower fat view table maxDirDepth [] fat.rootStart root [] []).2

/-- `Fat::files`: the files and the notes. -/
def files : Except Fault (List File × List String) := do
  let table ← fat.readTable view
  let log ← walkLog lower fat view table
  .ok (log.filterMap fun p => match p.2 with
      | .file f => some f
      | _ => none,
    log.filterMap fun p => match p.2 with
      | .note _ text => some text
      | _ => none)

/-! ### What comes of an entry -/

/-- The records of the directory with this start. -/
def recordsAt (start : Option ℕ) : List Record :=
  match fat.dirRuns table start with
  | .ok runs => recordsIn lower view runs
  | .error _ => []

/-- What the walk shows of an entry of a directory. -/
inductive Gives (r : Record) (dir : Address) : Event → Prop
  | file (path : List Char) : r.isDir = false → r.size ≠ 0 → Gives r dir (fileEvent fat table path r)
  | note (text : String) : r.isDir = true →
      (∃ e, fat.chain table r.start = .error e) ∨ maxDirDepth ≤ dir.length + 1 →
      Gives r dir (.note (some r.start) text)
  | descent : r.isDir = true → (∃ runs, fat.chain table r.start = .ok runs) →
      dir.length + 1 < maxDirDepth → Gives r dir (.descent (some r.start))

/-- The event is about an entry of a directory that the log expands. -/
def Comes (log : Log Event) (p : Address × Event) : Prop :=
  ∃ i d s r, p.1 = i :: d ∧ (d, .descent s) ∈ log ∧ (recordsAt lower fat view table s)[i]? = some r ∧
    ¬ r.Skipped ∧ 2 ≤ r.start ∧ Gives fat table r d p.2

/-- The start that the walk has taken note of. -/
def Event.start? : Event → Option ℕ
  | .file _ => none
  | .descent s => s
  | .note s _ => s

/-- The starts a log tells of. -/
def claimed (log : Log Event) : List ℕ := log.filterMap fun p => p.2.start?

@[simp] theorem claimed_append (a b : Log Event) : claimed (a ++ b) = claimed a ++ claimed b :=
  List.filterMap_append

/-- Every file of the directory is in the log, every directory's start has been seen. -/
structure Shows (dir : Address) (s : Option ℕ) (seen : List ℕ) (log : Log Event) : Prop where
  files : ∀ (i : ℕ) (r : Record), (recordsAt lower fat view table s)[i]? = some r → ¬ r.Skipped → 2 ≤ r.start →
    r.isDir = false → r.size ≠ 0 → ∃ e, (i :: dir, e) ∈ log
  dirs : ∀ (i : ℕ) (r : Record), (recordsAt lower fat view table s)[i]? = some r → ¬ r.Skipped → 2 ≤ r.start →
    r.isDir = true → r.start ∈ seen

/-- What is below an expanded directory. -/
structure Below (dir : Address) (s : Option ℕ) (seen seen' : List ℕ) (log : Log Event) : Prop where
  under : ∀ p ∈ log, ∃ i, i :: dir <:+ p.1
  distinct : Distinct log
  origin : ∀ p ∈ log, Comes lower fat view table ((dir, .descent s) :: log) p
  claims : ∀ x, seen'.count x = (claimed log).count x + seen.count x
  nodup : seen.Nodup → seen'.Nodup
  shows : ∀ d t, (d, .descent t) ∈ (dir, Event.descent s) :: log → Shows lower fat view table d t seen' log

/-- A call of the walk. -/
inductive Walked (dir : Address) (s : Option ℕ) (seen : List ℕ) : List ℕ × Log Event → Prop
  | pruned (text : String) : maxDirDepth ≤ dir.length → Walked dir s seen (seen, [(dir, .note s text)])
  | expanded {seen' : List ℕ} {log : Log Event} : dir.length < maxDirDepth →
      Below lower fat view table dir s seen seen' log →
      Walked dir s seen (seen', (dir, .descent s) :: log)

/-! ### The entries of a directory -/

/-- What the loop over the entries has done. -/
structure Scanned (dir : Address) (es : List (Record × ℕ)) (seen : List ℕ)
    (out : List ℕ × List SubDir × Log Event) : Prop where
  subs : ∀ sub ∈ out.2.1, ∃ r, (r, sub.idx) ∈ es ∧ ¬ r.Skipped ∧ r.isDir = true ∧ 2 ≤ r.start ∧
    sub.start = r.start
  log : ∀ p ∈ out.2.2, ∃ i r path, (r, i) ∈ es ∧ p = (i :: dir, fileEvent fat table path r) ∧
    ¬ r.Skipped ∧ r.isDir = false ∧ r.size ≠ 0 ∧ 2 ≤ r.start
  places : List.Sublist (out.2.2.map fun p => p.1) ((es.filter fun p => p.1.isDir = false).map fun p => p.2 :: dir)
  subPlaces : List.Sublist (out.2.1.map SubDir.idx) ((es.filter fun p => p.1.isDir = true).map Prod.snd)
  claims : ∀ x, out.1.count x = (out.2.1.map SubDir.start).count x + seen.count x
  nodup : seen.Nodup → out.1.Nodup
  files : ∀ i r, (r, i) ∈ es → ¬ r.Skipped → 2 ≤ r.start → r.isDir = false → r.size ≠ 0 →
    ∃ e, (i :: dir, e) ∈ out.2.2
  dirs : ∀ i r, (r, i) ∈ es → ¬ r.Skipped → 2 ≤ r.start → r.isDir = true → r.start ∈ out.1

theorem Scanned.seen_subset {dir : Address} {es : List (Record × ℕ)} {seen : List ℕ}
    {out : List ℕ × List SubDir × Log Event} (h : Scanned fat table dir es seen out) : seen ⊆ out.1 := by
  intro x hx
  have hcount := h.claims x
  have hpos := List.count_pos_iff.mpr hx
  exact List.count_pos_iff.mp (by omega)

/-- An entry that nothing comes of. -/
theorem Scanned.cons {dir : Address} {es : List (Record × ℕ)} {seen : List ℕ}
    {out : List ℕ × List SubDir × Log Event} (h : Scanned fat table dir es seen out) {r : Record} {i : ℕ}
    (hfile : ¬ r.Skipped → 2 ≤ r.start → r.isDir = false → r.size = 0)
    (hdir : ¬ r.Skipped → 2 ≤ r.start → r.isDir = true → r.start ∈ out.1) :
    Scanned fat table dir ((r, i) :: es) seen out where
  subs := by
    intro sub hsub
    obtain ⟨q, hq, hrest⟩ := h.subs sub hsub
    exact ⟨q, List.mem_cons_of_mem _ hq, hrest⟩
  log := by
    intro p hp
    obtain ⟨j, q, text, hq, hrest⟩ := h.log p hp
    exact ⟨j, q, text, List.mem_cons_of_mem _ hq, hrest⟩
  places := h.places.trans (((List.sublist_cons_self _ _).filter _).map _)
  subPlaces := h.subPlaces.trans (((List.sublist_cons_self _ _).filter _).map _)
  claims := h.claims
  nodup := h.nodup
  files := by
    intro j q hq hskip hstart hkind hsize
    cases List.mem_cons.mp hq with
    | inl heq =>
      cases heq
      exact absurd (hfile hskip hstart hkind) hsize
    | inr hmem => exact h.files j q hmem hskip hstart hkind hsize
  dirs := by
    intro j q hq hskip hstart hkind
    cases List.mem_cons.mp hq with
    | inl heq =>
      cases heq
      exact hdir hskip hstart hkind
    | inr hmem => exact h.dirs j q hmem hskip hstart hkind

theorem scanRecords_scanned (dir : Address) (path : List Char) (es : List (Record × ℕ)) (seen : List ℕ) :
    Scanned fat table dir es seen (scanRecords fat table dir path es seen) := by
  induction es generalizing seen with
  | nil => constructor <;> simp [scanRecords]
  | cons p rest ih =>
    obtain ⟨r, i⟩ := p
    rw [scanRecords]
    split_ifs with hskip hdir hfresh hempty
    · exact (ih seen).cons fat table (fun h => absurd hskip h) (fun h => absurd hskip h)
    · -- a directory that has not been met
      have h := ih (r.start :: seen)
      constructor
      · intro sub hsub
        cases List.mem_cons.mp hsub with
        | inl heq =>
          rw [heq]
          exact ⟨r, List.mem_cons_self, hskip, hdir, hfresh.1, rfl⟩
        | inr hmem =>
          obtain ⟨q, hq, hrest⟩ := h.subs sub hmem
          exact ⟨q, List.mem_cons_of_mem _ hq, hrest⟩
      · intro q hq
        obtain ⟨j, t, text, ht, hrest⟩ := h.log q hq
        exact ⟨j, t, text, List.mem_cons_of_mem _ ht, hrest⟩
      · exact h.places.trans (((List.sublist_cons_self _ _).filter _).map _)
      · rw [List.filter_cons_of_pos (by simpa using hdir)]
        exact h.subPlaces.cons_cons i
      · intro x
        have hcount := h.claims x
        simp only [List.map_cons, List.count_cons] at hcount ⊢
        omega
      · intro hnodup
        exact h.nodup (List.nodup_cons.mpr ⟨hfresh.2, hnodup⟩)
      · intro j q hq hskip' hstart hkind hsize
        cases List.mem_cons.mp hq with
        | inl heq =>
          cases heq
          rw [hdir] at hkind
          cases hkind
        | inr hmem => exact h.files j q hmem hskip' hstart hkind hsize
      · intro j q hq hskip' hstart hkind
        cases List.mem_cons.mp hq with
        | inl heq =>
          cases heq
          exact h.seen_subset fat table List.mem_cons_self
        | inr hmem => exact h.dirs j q hmem hskip' hstart hkind
    · have h := ih seen
      refine h.cons fat table ?_ ?_
      · intro _ _ hkind
        rw [hdir] at hkind
        cases hkind
      · intro _ hstart _
        have hseen : r.start ∈ seen := by
          by_contra hnot
          exact hfresh ⟨hstart, hnot⟩
        exact h.seen_subset fat table hseen
    · refine (ih seen).cons fat table ?_ ?_
      · intro _ hstart _
        omega
      · intro _ _ hkind
        exact absurd hkind hdir
    · -- a file that has bytes to point at
      have h := ih seen
      have hfile : r.isDir = false := by simpa using hdir
      constructor
      · intro sub hsub
        obtain ⟨q, hq, hrest⟩ := h.subs sub hsub
        exact ⟨q, List.mem_cons_of_mem _ hq, hrest⟩
      · intro q hq
        cases List.mem_cons.mp hq with
        | inl heq =>
          exact ⟨i, r, path, List.mem_cons_self, heq, hskip, hfile, fun h0 => hempty (.inl h0),
            Nat.le_of_not_lt fun hlt => hempty (.inr hlt)⟩
        | inr hmem =>
          obtain ⟨j, t, text, ht, hrest⟩ := h.log q hmem
          exact ⟨j, t, text, List.mem_cons_of_mem _ ht, hrest⟩
      · rw [List.filter_cons_of_pos (by simpa using hfile)]
        exact h.places.cons_cons (i :: dir)
      · exact h.subPlaces.trans (((List.sublist_cons_self _ _).filter _).map _)
      · exact h.claims
      · exact h.nodup
      · intro j q hq hskip' hstart hkind hsize
        cases List.mem_cons.mp hq with
        | inl heq =>
          cases heq
          exact ⟨_, List.mem_cons_self⟩
        | inr hmem =>
          obtain ⟨e, he⟩ := h.files j q hmem hskip' hstart hkind hsize
          exact ⟨e, List.mem_cons_of_mem _ he⟩
      · intro j q hq hskip' hstart hkind
        cases List.mem_cons.mp hq with
        | inl heq =>
          cases heq
          exact absurd hkind hdir
        | inr hmem => exact h.dirs j q hmem hskip' hstart hkind

/-! ### The directories of a directory -/

variable {lower fat view table}

theorem Comes.mono {log log' : Log Event} (h : log ⊆ log') {p : Address × Event}
    (hp : Comes lower fat view table log p) : Comes lower fat view table log' p := by
  obtain ⟨i, d, s, r, hplace, hdir, hrest⟩ := hp
  exact ⟨i, d, s, r, hplace, h hdir, hrest⟩

theorem Shows.mono {d : Address} {t : Option ℕ} {seen seen' : List ℕ} {log log' : Log Event}
    (hseen : seen ⊆ seen') (hlog : log ⊆ log') (h : Shows lower fat view table d t seen log) :
    Shows lower fat view table d t seen' log' where
  files := by
    intro i r hr hskip hstart hkind hsize
    obtain ⟨e, he⟩ := h.files i r hr hskip hstart hkind hsize
    exact ⟨e, hlog he⟩
  dirs := by
    intro i r hr hskip hstart hkind
    exact hseen (h.dirs i r hr hskip hstart hkind)

variable (lower fat view table)

/-- What the loop over the directories has done.  Their own starts had been seen before. -/
structure Descended (dir : Address) (subs : List SubDir) (seen : List ℕ) (out : List ℕ × Log Event) :
    Prop where
  under : ∀ p ∈ out.2, ∃ sub ∈ subs, sub.idx :: dir <:+ p.1
  distinct : Distinct out.2
  origin : ∀ p ∈ out.2, (∃ sub ∈ subs, p.1 = sub.idx :: dir ∧
    ∀ r : Record, r.isDir = true → r.start = sub.start → Gives fat table r dir p.2) ∨
      Comes lower fat view table out.2 p
  claims : ∀ x, out.1.count x + (subs.map SubDir.start).count x = (claimed out.2).count x + seen.count x
  subset : seen ⊆ out.1
  nodup : seen.Nodup → out.1.Nodup
  shows : ∀ d t, (d, .descent t) ∈ out.2 → Shows lower fat view table d t out.1 out.2

variable {lower fat view table}

theorem Descended.append {dir : Address} {subs subs' : List SubDir} {seen : List ℕ}
    {a b : List ℕ × Log Event} (ha : Descended lower fat view table dir subs seen a)
    (hb : Descended lower fat view table dir subs' a.1 b)
    (hne : ∀ sub ∈ subs, ∀ sub' ∈ subs', sub.idx ≠ sub'.idx) :
    Descended lower fat view table dir (subs ++ subs') seen (b.1, a.2 ++ b.2) where
  under := by
    intro p hp
    cases List.mem_append.mp hp with
    | inl hp =>
      obtain ⟨sub, hsub, hunder⟩ := ha.under p hp
      exact ⟨sub, List.mem_append_left _ hsub, hunder⟩
    | inr hp =>
      obtain ⟨sub, hsub, hunder⟩ := hb.under p hp
      exact ⟨sub, List.mem_append_right _ hsub, hunder⟩
  distinct := by
    rw [Distinct, List.map_append]
    refine List.nodup_append.mpr ⟨ha.distinct, hb.distinct, ?_⟩
    intro x hx y hy heq
    obtain ⟨p, hp, rfl⟩ := List.mem_map.mp hx
    obtain ⟨q, hq, rfl⟩ := List.mem_map.mp hy
    obtain ⟨sub, hsub, hunder⟩ := ha.under p hp
    obtain ⟨sub', hsub', hunder'⟩ := hb.under q hq
    have hi := childOf_under hunder
    rw [heq, childOf_under hunder'] at hi
    exact hne sub hsub sub' hsub' (Option.some.inj hi).symm
  origin := by
    intro p hp
    cases List.mem_append.mp hp with
    | inl hp =>
      cases ha.origin p hp with
      | inl hsub =>
        obtain ⟨sub, hsub, hrest⟩ := hsub
        exact .inl ⟨sub, List.mem_append_left _ hsub, hrest⟩
      | inr hcomes => exact .inr (hcomes.mono (List.subset_append_left _ _))
    | inr hp =>
      cases hb.origin p hp with
      | inl hsub =>
        obtain ⟨sub, hsub, hrest⟩ := hsub
        exact .inl ⟨sub, List.mem_append_right _ hsub, hrest⟩
      | inr hcomes => exact .inr (hcomes.mono (List.subset_append_right _ _))
  claims := by
    intro x
    have hcount := ha.claims x
    have hcount' := hb.claims x
    dsimp only
    rw [List.map_append, List.count_append, claimed_append, List.count_append]
    omega
  subset := fun x hx => hb.subset (ha.subset hx)
  nodup := fun h => hb.nodup (ha.nodup h)
  shows := by
    intro d t hd
    cases List.mem_append.mp hd with
    | inl hd => exact (ha.shows d t hd).mono hb.subset (List.subset_append_left _ _)
    | inr hd => exact (hb.shows d t hd).mono (List.Subset.refl _) (List.subset_append_right _ _)

/-- A directory whose chain cannot be followed, or that is too deep. -/
theorem descended_note (dir : Address) (sub : SubDir) (seen : List ℕ) (text : String)
    (hwhy : (∃ e, fat.chain table sub.start = .error e) ∨ maxDirDepth ≤ dir.length + 1) :
    Descended lower fat view table dir [sub] seen (seen, [(sub.idx :: dir, .note (some sub.start) text)]) where
  under := by
    intro p hp
    rw [List.mem_singleton.mp hp]
    exact ⟨sub, List.mem_singleton_self sub, List.suffix_rfl⟩
  distinct := List.nodup_singleton _
  origin := by
    intro p hp
    rw [List.mem_singleton.mp hp]
    refine .inl ⟨sub, List.mem_singleton_self sub, rfl, ?_⟩
    intro r hkind hstart
    rw [← hstart] at hwhy ⊢
    exact .note text hkind hwhy
  claims := fun x => Nat.add_comm _ _
  subset := List.Subset.refl _
  nodup := id
  shows := by
    intro d t hd
    cases List.mem_singleton.mp hd

/-- A directory that has been walked. -/
theorem Walked.descended {dir : Address} {sub : SubDir} {seen : List ℕ} {out : List ℕ × Log Event}
    {runs : List (ℕ × ℕ)} (hchain : fat.chain table sub.start = .ok runs)
    (h : Walked lower fat view table (sub.idx :: dir) (some sub.start) seen out) :
    Descended lower fat view table dir [sub] seen out := by
  cases h with
  | pruned text hdeep => exact descended_note dir sub seen text (.inr hdeep)
  | @expanded seen' log hdeep hbelow =>
    constructor
    · intro p hp
      refine ⟨sub, List.mem_singleton_self sub, ?_⟩
      cases List.mem_cons.mp hp with
      | inl heq => rw [heq]
      | inr hmem =>
        obtain ⟨i, hunder⟩ := hbelow.under p hmem
        exact (List.suffix_cons i _).trans hunder
    · refine List.nodup_cons.mpr ⟨?_, hbelow.distinct⟩
      intro hmem
      obtain ⟨p, hp, hplace⟩ := List.mem_map.mp hmem
      obtain ⟨i, hunder⟩ := hbelow.under p hp
      rw [hplace] at hunder
      exact not_under_self hunder
    · intro p hp
      cases List.mem_cons.mp hp with
      | inl heq =>
        rw [heq]
        refine .inl ⟨sub, List.mem_singleton_self sub, rfl, ?_⟩
        intro r hkind hstart
        rw [← hstart] at hchain ⊢
        exact .descent hkind ⟨runs, hchain⟩ hdeep
      | inr hmem => exact .inr (hbelow.origin p hmem)
    · intro x
      have hcount := hbelow.claims x
      show seen'.count x + [sub.start].count x = (sub.start :: claimed log).count x + seen.count x
      rw [List.count_cons, List.count_cons, List.count_nil]
      omega
    · intro x hx
      have hcount := hbelow.claims x
      have hpos := List.count_pos_iff.mpr hx
      exact List.count_pos_iff.mp (by dsimp only; omega)
    · exact hbelow.nodup
    · intro d t hd
      exact (hbelow.shows d t hd).mono (List.Subset.refl _) (List.subset_cons_self _ _)

theorem descend_descended {walk : SubDir → List (ℕ × ℕ) → List ℕ → List ℕ × Log Event} {dir : Address}
    {subs : List SubDir} (hne : (subs.map SubDir.idx).Nodup)
    (hwalk : ∀ sub ∈ subs, ∀ runs seen, fat.chain table sub.start = .ok runs →
      Walked lower fat view table (sub.idx :: dir) (some sub.start) seen (walk sub runs seen))
    (path : List Char) (seen : List ℕ) :
    Descended lower fat view table dir subs seen (descend fat table walk dir path subs seen) := by
  induction subs generalizing seen with
  | nil => constructor <;> simp [descend, Distinct, claimed]
  | cons sub rest ih =>
    obtain ⟨hhead, htail⟩ := List.nodup_cons.mp hne
    have hrest := ih htail fun sub' hsub' => hwalk sub' (List.mem_cons_of_mem sub hsub')
    have hidx : ∀ sub' ∈ [sub], ∀ sub'' ∈ rest, sub'.idx ≠ sub''.idx := by
      intro sub' hsub' sub'' hsub'' heq
      rw [List.mem_singleton.mp hsub'] at heq
      rw [heq] at hhead
      exact hhead (List.mem_map_of_mem hsub'')
    rw [descend]
    cases hchain : fat.chain table sub.start with
    | error e => exact (descended_note dir sub seen _ (.inl ⟨e, hchain⟩)).append (hrest seen) hidx
    | ok runs =>
      exact ((hwalk sub List.mem_cons_self runs seen hchain).descended hchain).append (hrest _) hidx

/-! ### The walk -/

theorem fileEvent_ne_descent {path : List Char} {r : Record} {t : Option ℕ} :
    fileEvent fat table path r ≠ .descent t := by
  rw [fileEvent]
  cases fat.chain table r.start <;> exact nofun

theorem start?_fileEvent {path : List Char} {r : Record} :
    (fileEvent fat table path r).start? = none := by
  rw [fileEvent]
  cases fat.chain table r.start <;> rfl

/-- The loops over the entries and over the directories make up what is below a directory. -/
theorem Scanned.below {dir : Address} {s : Option ℕ} {seen seen' : List ℕ} {log : Log Event}
    {out : List ℕ × List SubDir × Log Event}
    (h : Scanned fat table dir (recordsAt lower fat view table s).zipIdx seen out)
    (hdesc : Descended lower fat view table dir out.2.1 out.1 (seen', log)) :
    Below lower fat view table dir s seen seen' (out.2.2 ++ log) := by
  have hentry : ∀ {r : Record} {i : ℕ}, (r, i) ∈ (recordsAt lower fat view table s).zipIdx →
      (recordsAt lower fat view table s)[i]? = some r := List.mem_zipIdx_iff_getElem?.mp
  constructor
  · intro p hp
    cases List.mem_append.mp hp with
    | inl hp =>
      obtain ⟨i, r, path, -, rfl, -⟩ := h.log p hp
      exact ⟨i, List.suffix_rfl⟩
    | inr hp =>
      obtain ⟨sub, -, hunder⟩ := hdesc.under p hp
      exact ⟨sub.idx, hunder⟩
  · rw [Distinct, List.map_append]
    refine List.nodup_append.mpr ⟨?_, hdesc.distinct, ?_⟩
    · refine List.Nodup.sublist h.places ?_
      have hplaces := nodup_places (nodup_numbers (recordsAt lower fat view table s)
        fun p => decide (p.1.isDir = false)) dir
      rw [List.map_map] at hplaces
      exact hplaces
    · intro x hx y hy heq
      obtain ⟨p, hp, rfl⟩ := List.mem_map.mp hx
      obtain ⟨q, hq, rfl⟩ := List.mem_map.mp hy
      obtain ⟨i, r, path, hr, rfl, -, hfile, -⟩ := h.log p hp
      obtain ⟨sub, hsub, hunder⟩ := hdesc.under q hq
      obtain ⟨r', hr', -, hkind, -⟩ := h.subs sub hsub
      have hi := childOf_under hunder
      rw [← heq, childOf_under List.suffix_rfl] at hi
      cases hi
      have hsame := (hentry hr).symm.trans (hentry hr')
      cases hsame
      rw [hfile] at hkind
      cases hkind
  · intro p hp
    cases List.mem_append.mp hp with
    | inl hp =>
      obtain ⟨i, r, path, hr, rfl, hskip, hfile, hsize, hstart⟩ := h.log p hp
      exact ⟨i, dir, s, r, rfl, List.mem_cons_self, hentry hr, hskip, hstart, .file path hfile hsize⟩
    | inr hp =>
      cases hdesc.origin p hp with
      | inl hsub =>
        obtain ⟨sub, hsub, hplace, hgives⟩ := hsub
        obtain ⟨r, hr, hskip, hkind, hstart, heq⟩ := h.subs sub hsub
        exact ⟨sub.idx, dir, s, r, hplace, List.mem_cons_self, hentry hr, hskip, hstart,
          hgives r hkind heq.symm⟩
      | inr hcomes =>
        exact hcomes.mono fun q hq => List.mem_cons_of_mem _ (List.mem_append_right _ hq)
  · intro x
    have hcount := h.claims x
    have hcount' := hdesc.claims x
    have hnone : claimed out.2.2 = [] := by
      apply List.filterMap_eq_nil_iff.mpr
      intro p hp
      obtain ⟨i, r, path, -, rfl, -⟩ := h.log p hp
      exact start?_fileEvent
    rw [claimed_append, hnone, List.nil_append]
    dsimp only at hcount'
    omega
  · intro hnodup
    exact hdesc.nodup (h.nodup hnodup)
  · intro d t hd
    cases List.mem_cons.mp hd with
    | inl heq =>
      cases heq
      constructor
      · intro i r hr hskip hstart hkind hsize
        obtain ⟨e, he⟩ := h.files i r (List.mem_zipIdx_iff_getElem?.mpr hr) hskip hstart hkind hsize
        exact ⟨e, List.mem_append_left _ he⟩
      · intro i r hr hskip hstart hkind
        exact hdesc.subset (h.dirs i r (List.mem_zipIdx_iff_getElem?.mpr hr) hskip hstart hkind)
    | inr hd =>
      cases List.mem_append.mp hd with
      | inl hd =>
        obtain ⟨i, r, path, -, heq, -⟩ := h.log _ hd
        exact absurd (congrArg Prod.snd heq).symm fileEvent_ne_descent
      | inr hd => exact (hdesc.shows d t hd).mono (List.Subset.refl _) (List.subset_append_right _ _)

/-- **Every call of the walk** shows what is below its directory. -/
theorem walkDir_walked {left : ℕ} {dir : Address} (hleft : left + dir.length = maxDirDepth) {s : Option ℕ}
    {runs : List (ℕ × ℕ)} (hruns : fat.dirRuns table s = .ok runs) (path : List Char) (seen : List ℕ) :
    Walked lower fat view table dir s seen (walkDir lower fat view table left dir s runs path seen) := by
  induction left generalizing dir s runs path seen with
  | zero => exact .pruned _ (by omega)
  | succ left ih =>
    have hrecords : recordsAt lower fat view table s = recordsIn lower view runs := by
      rw [recordsAt, hruns]
    have hscan := scanRecords_scanned fat table dir path (recordsIn lower view runs).zipIdx seen
    rw [walkDir]
    refine .expanded (by omega) ?_
    rw [← hrecords] at hscan ⊢
    refine hscan.below (descend_descended ?_ ?_ path _)
    · exact List.Nodup.sublist hscan.subPlaces (nodup_numbers _ _)
    · intro sub _ runs seen hchain
      have hlen : left + (sub.idx :: dir).length = maxDirDepth := by
        rw [List.length_cons]
        omega
      exact ih hlen (s := some sub.start) hchain _ seen

/-! ### Nothing lost, nothing twice -/

/-- The entry is a directory other than the self and parent links, or a file with bytes. -/
def Record.Counts (r : Record) : Prop :=
  r.isLabel = false ∧ if r.isDir = true then r.name ≠ ['.'] ∧ r.name ≠ ['.', '.'] else r.size ≠ 0

instance (r : Record) : Decidable r.Counts := inferInstanceAs (Decidable (_ ∧ _))

/-- The start of a directory that is expanded. -/
def Event.expansion? : Event → Option ℕ
  | .descent s => s
  | _ => none

/-- The starts of the directories that are expanded. -/
def expansions (log : Log Event) : List ℕ := log.filterMap fun p => p.2.expansion?

theorem expansion?_eq_some {e : Event} {c : ℕ} : e.expansion? = some c ↔ e = .descent (some c) := by
  cases e with
  | file f => exact iff_of_false nofun nofun
  | descent s =>
    constructor
    · intro h
      rw [show s = some c from h]
    · intro h
      cases h
      rfl
  | note s text => exact iff_of_false nofun nofun

variable (lower fat view table)

/-- No chain is expanded twice, and of each entry of an expanded directory comes one thing. -/
structure Lossless (log : Log Event) : Prop where
  once : (expansions log).Nodup
  exactly : ∀ dir s, (dir, .descent s) ∈ log → ∀ (i : ℕ) (r : Record),
    (recordsAt lower fat view table s)[i]? = some r → r.Counts → Once log (i :: dir)

/-- The directories that entries lead to from the root, each by its place. -/
inductive DirAt : Address → Option ℕ → Prop
  | root : DirAt [] fat.rootStart
  | sub {dir : Address} {s : Option ℕ} {i : ℕ} {r : Record} : DirAt dir s →
      (recordsAt lower fat view table s)[i]? = some r → r.Counts → r.isDir = true →
      (∃ runs, fat.chain table r.start = .ok runs) → dir.length + 1 < maxDirDepth →
      DirAt (i :: dir) (some r.start)

/-- An entry of one of these directories. -/
def EntryAt (dir : Address) (i : ℕ) (r : Record) : Prop :=
  r.Counts ∧ ∃ s, DirAt lower fat view table dir s ∧ (recordsAt lower fat view table s)[i]? = some r

/-- The log of a walk from the root. -/
structure Rooted (log : Log Event) : Prop where
  distinct : Distinct log
  head : ∃ rest, log = ([], .descent fat.rootStart) :: rest ∧ (claimed rest).Nodup ∧
    (∀ p ∈ rest, p.1 ≠ [] ∧ Comes lower fat view table log p) ∧
    ∀ d t, (d, .descent t) ∈ log → Shows lower fat view table d t (claimed rest) log

/-- Every entry has a name and starts at a cluster; no two directories start at the same one, and none
that is expanded where the root does. -/
structure Proper : Prop where
  entry : ∀ dir i r, EntryAt lower fat view table dir i r → 2 ≤ r.start ∧ ¬ r.Skipped
  apart : ∀ dir i r dir' i' r', EntryAt lower fat view table dir i r →
    EntryAt lower fat view table dir' i' r' → r.isDir = true → r'.isDir = true → r.start = r'.start →
      i :: dir = i' :: dir'
  root : ∀ dir i r, EntryAt lower fat view table dir i r → r.isDir = true →
    dir.length + 1 < maxDirDepth → fat.rootStart ≠ some r.start

variable {lower fat view table}

theorem Record.counts_of_dir {r : Record} (hskip : ¬ r.Skipped) (hkind : r.isDir = true) : r.Counts := by
  rw [Record.Skipped, not_or, not_or, not_or] at hskip
  refine ⟨by simpa using hskip.1, ?_⟩
  rw [if_pos hkind]
  exact hskip.2.2

/-- In a log that names no place twice, what comes of an entry is what its record gives. -/
theorem comes_entry {log : Log Event} (hdistinct : Distinct log) {dir : Address} {s : Option ℕ}
    (hdir : (dir, .descent s) ∈ log) {i : ℕ} {r : Record}
    (hr : (recordsAt lower fat view table s)[i]? = some r) {e : Event}
    (h : Comes lower fat view table log (i :: dir, e)) :
    ¬ r.Skipped ∧ 2 ≤ r.start ∧ Gives fat table r dir e := by
  obtain ⟨j, d, t, q, hplace, hd, hq, hskip, hstart, hgives⟩ := h
  obtain ⟨rfl, rfl⟩ := List.cons.inj hplace
  have hsame := List.inj_on_of_nodup_map hdistinct hdir hd rfl
  cases hsame
  rw [hr] at hq
  cases hq
  exact ⟨hskip, hstart, hgives⟩

theorem Gives.start? {r : Record} {dir : Address} {e : Event} (h : Gives fat table r dir e) :
    e.start? = if r.isDir = true then some r.start else none := by
  cases h with
  | file path hkind =>
    rw [hkind, start?_fileEvent]
    rfl
  | note text hkind =>
    rw [if_pos hkind]
    rfl
  | descent hkind =>
    rw [if_pos hkind]
    rfl

theorem walkLog_rooted {log : Log Event} (h : walkLog lower fat view table = .ok log) :
    Rooted lower fat view table log := by
  obtain ⟨root, hroot, h⟩ := bind_eq_ok.mp h
  have hwalked : Walked lower fat view table [] fat.rootStart []
      (walkDir lower fat view table maxDirDepth [] fat.rootStart root [] []) :=
    walkDir_walked rfl hroot [] []
  cases h
  generalize walkDir lower fat view table maxDirDepth [] fat.rootStart root [] [] = out at hwalked
  cases hwalked with
  | pruned text hdeep => exact absurd hdeep (by decide)
  | @expanded seen' rest hdeep hbelow =>
    have hcount : ∀ x, seen'.count x = (claimed rest).count x := hbelow.claims
    have hplaces : ∀ p ∈ rest, p.1 ≠ [] := by
      intro p hp heq
      obtain ⟨i, hunder⟩ := hbelow.under p hp
      rw [heq] at hunder
      exact not_under_self hunder
    constructor
    · refine List.nodup_cons.mpr ⟨?_, hbelow.distinct⟩
      intro hmem
      obtain ⟨p, hp, hplace⟩ := List.mem_map.mp hmem
      exact hplaces p hp hplace
    · refine ⟨rest, rfl, ?_, fun p hp => ⟨hplaces p hp, hbelow.origin p hp⟩, ?_⟩
      · rw [List.nodup_iff_count_le_one]
        intro x
        rw [← hcount x]
        exact List.nodup_iff_count_le_one.mp (hbelow.nodup List.nodup_nil) x
      · intro d t hd
        refine (hbelow.shows d t hd).mono ?_ (List.subset_cons_self _ _)
        intro x hx
        have hpos := List.count_pos_iff.mpr hx
        rw [hcount x] at hpos
        exact List.count_pos_iff.mp hpos

variable {log : Log Event}

theorem Rooted.head_mem (h : Rooted lower fat view table log) :
    ([], .descent fat.rootStart) ∈ log := by
  obtain ⟨rest, rfl, -⟩ := h.head
  exact List.mem_cons_self

/-- What comes of an entry of an expanded directory. -/
theorem Rooted.gives (h : Rooted lower fat view table log) {dir : Address} {s : Option ℕ}
    (hdir : (dir, .descent s) ∈ log) {i : ℕ} {r : Record}
    (hr : (recordsAt lower fat view table s)[i]? = some r) {e : Event} (he : (i :: dir, e) ∈ log) :
    ¬ r.Skipped ∧ 2 ≤ r.start ∧ Gives fat table r dir e := by
  obtain ⟨rest, hlog, -, hcomes, -⟩ := h.head
  have hrest : (i :: dir, e) ∈ rest := by
    rw [hlog] at he
    cases List.mem_cons.mp he with
    | inl heq => cases heq
    | inr hmem => exact hmem
  exact comes_entry h.distinct hdir hr (hcomes _ hrest).2

/-- Where no entry is lost, every directory that entries lead to is expanded. -/
theorem Rooted.expanded (h : Rooted lower fat view table log) (hlossless : Lossless lower fat view table log)
    {dir : Address} {s : Option ℕ} (hdir : DirAt lower fat view table dir s) :
    (dir, .descent s) ∈ log := by
  induction hdir with
  | root => exact h.head_mem
  | @sub dir s i r _ hr hcounts hkind hchain hdepth ih =>
    obtain ⟨e, he⟩ := (once_iff h.distinct).mp (hlossless.exactly dir s ih i r hr hcounts)
    obtain ⟨-, -, hgives⟩ := h.gives ih hr he
    cases hgives with
    | file path hkind' =>
      rw [hkind] at hkind'
      cases hkind'
    | note text _ hwhy =>
      cases hwhy with
      | inl hfail =>
        obtain ⟨runs, hruns⟩ := hchain
        obtain ⟨err, herr⟩ := hfail
        rw [hruns] at herr
        cases herr
      | inr hdeep => omega
    | descent => exact he

/-- Entries lead to every directory that is expanded. -/
theorem Rooted.dirAt (h : Rooted lower fat view table log) {dir : Address} {s : Option ℕ}
    (hdir : (dir, .descent s) ∈ log) : DirAt lower fat view table dir s := by
  induction dir generalizing s with
  | nil =>
    have hsame := List.inj_on_of_nodup_map h.distinct hdir h.head_mem rfl
    cases hsame
    exact .root
  | cons i dir ih =>
    obtain ⟨rest, hlog, -, hcomes, -⟩ := h.head
    have hrest : (i :: dir, Event.descent s) ∈ rest := by
      rw [hlog] at hdir
      cases List.mem_cons.mp hdir with
      | inl heq => cases heq
      | inr hmem => exact hmem
    obtain ⟨j, d, t, r, hplace, hd, hr, hskip, hstart, hgives⟩ := (hcomes _ hrest).2
    obtain ⟨rfl, rfl⟩ := List.cons.inj hplace
    generalize heq : (i :: dir, Event.descent s).2 = e at hgives
    cases hgives with
    | file path => exact absurd heq.symm fileEvent_ne_descent
    | note => cases heq
    | descent hkind hchain hdepth =>
      cases heq
      exact .sub (ih hd) hr (Record.counts_of_dir hskip hkind) hkind hchain hdepth

/-- Two directories that something came of do not start at the same cluster. -/
theorem Rooted.apart (h : Rooted lower fat view table log) {a a' : Address} {e e' : Event}
    (ha : (a, e) ∈ log) (ha' : (a', e') ∈ log) (hne : a ≠ []) (hne' : a' ≠ []) {c : ℕ}
    (hc : e.start? = some c) (hc' : e'.start? = some c) : a = a' := by
  obtain ⟨rest, hlog, hnodup, -, -⟩ := h.head
  have hrest : ∀ {p : Address × Event}, p ∈ log → p.1 ≠ [] → p ∈ rest := by
    intro p hp hplace
    rw [hlog] at hp
    cases List.mem_cons.mp hp with
    | inl heq =>
      rw [heq] at hplace
      exact absurd rfl hplace
    | inr hmem => exact hmem
  exact congrArg Prod.fst (eq_of_nodup_filterMap hnodup (hrest ha hne) (hrest ha' hne') hc hc')

theorem Rooted.proper (h : Rooted lower fat view table log)
    (hlossless : Lossless lower fat view table log)
    (hroot : ∃ runs, fat.dirRuns table fat.rootStart = .ok runs) : Proper lower fat view table := by
  -- every entry of the directories that entries lead to has something come of it
  have hevent : ∀ {dir i r}, EntryAt lower fat view table dir i r →
      ∃ e, (i :: dir, e) ∈ log ∧ ¬ r.Skipped ∧ 2 ≤ r.start ∧ Gives fat table r dir e := by
    intro dir i r hentry
    obtain ⟨hcounts, s, hdir, hr⟩ := hentry
    have hexpanded := h.expanded hlossless hdir
    obtain ⟨e, he⟩ := (once_iff h.distinct).mp (hlossless.exactly dir s hexpanded i r hr hcounts)
    exact ⟨e, he, h.gives hexpanded hr he⟩
  constructor
  · intro dir i r hentry
    obtain ⟨e, -, hskip, hstart, -⟩ := hevent hentry
    exact ⟨hstart, hskip⟩
  · intro dir i r dir' i' r' hentry hentry' hkind hkind' hsame
    obtain ⟨e, he, -, -, hgives⟩ := hevent hentry
    obtain ⟨e', he', -, -, hgives'⟩ := hevent hentry'
    have hc := hgives.start?
    have hc' := hgives'.start?
    rw [if_pos hkind] at hc
    rw [if_pos hkind', ← hsame] at hc'
    exact h.apart he he' (List.cons_ne_nil i dir) (List.cons_ne_nil i' dir') hc hc'
  · intro dir i r hentry hkind hdepth heq
    obtain ⟨runs, hruns⟩ := hroot
    rw [heq] at hruns
    obtain ⟨e, he, -, -, hgives⟩ := hevent hentry
    have hdescent : e = .descent (some r.start) := by
      cases hgives with
      | file path hkind' =>
        rw [hkind] at hkind'
        cases hkind'
      | note text _ hwhy =>
        cases hwhy with
        | inl hfail =>
          obtain ⟨err, herr⟩ := hfail
          rw [show fat.chain table r.start = .ok runs from hruns] at herr
          cases herr
        | inr hdeep => omega
      | descent => rfl
    obtain ⟨rest, hlog, -⟩ := h.head
    have honce := hlossless.once
    rw [hlog] at he honce
    have hrest : (i :: dir, e) ∈ rest := by
      cases List.mem_cons.mp he with
      | inl heq' => cases heq'
      | inr hmem => exact hmem
    have htwice : r.start ∈ expansions rest :=
      List.mem_filterMap.mpr ⟨_, hrest, expansion?_eq_some.mpr hdescent⟩
    have hcons : expansions (([], .descent fat.rootStart) :: rest) = r.start :: expansions rest :=
      List.filterMap_cons_some heq
    rw [hcons] at honce
    exact (List.nodup_cons.mp honce).1 htwice

theorem Rooted.lossless (h : Rooted lower fat view table log) (hproper : Proper lower fat view table) :
    Lossless lower fat view table log := by
  obtain ⟨rest, hlog, hnodup, hcomes, hshows⟩ := h.head
  -- what an entry with a start gives is about the entry of a directory that entries lead to
  have hentry : ∀ {p : Address × Event}, p ∈ rest → ∀ {c : ℕ}, p.2.start? = some c →
      ∃ dir i r, p.1 = i :: dir ∧ EntryAt lower fat view table dir i r ∧ r.isDir = true ∧ r.start = c ∧
        Gives fat table r dir p.2 := by
    intro p hp c hc
    obtain ⟨i, dir, s, r, hplace, hdir, hr, hskip, hstart, hgives⟩ := (hcomes p hp).2
    have hkind := hgives.start?
    rw [hc] at hkind
    split_ifs at hkind with hdirectory
    exact ⟨dir, i, r, hplace, ⟨Record.counts_of_dir hskip hdirectory, s, h.dirAt hdir, hr⟩, hdirectory,
      (Option.some.inj hkind).symm, hgives⟩
  constructor
  · have hrest : (expansions rest).Nodup := by
      refine List.Nodup.sublist (filterMap_sublist ?_ rest) hnodup
      intro p c hc
      rw [expansion?_eq_some.mp hc]
      rfl
    rw [hlog]
    cases hstart : fat.rootStart with
    | none => exact hrest
    | some c =>
      refine List.nodup_cons.mpr ⟨?_, hrest⟩
      intro hmem
      obtain ⟨p, hp, hc⟩ := List.mem_filterMap.mp hmem
      have hdescent := expansion?_eq_some.mp hc
      have hsome : p.2.start? = some c := by
        rw [hdescent]
        rfl
      obtain ⟨dir, i, r, -, hat, hkind, hsame, hgives⟩ := hentry hp hsome
      rw [hdescent] at hgives
      generalize hev : Event.descent (some c) = e at hgives
      cases hgives with
      | file path => exact fileEvent_ne_descent hev.symm
      | note => cases hev
      | descent _ _ hdepth =>
        exact hproper.root dir i r hat hkind hdepth (hstart.trans (congrArg some hsame.symm))
  · intro dir s hdir i r hr hcounts
    have hat : EntryAt lower fat view table dir i r := ⟨hcounts, s, h.dirAt hdir, hr⟩
    obtain ⟨hstart, hskip⟩ := hproper.entry dir i r hat
    have hshow := hshows dir s hdir
    refine (once_iff h.distinct).mpr ?_
    cases hkind : r.isDir with
    | false =>
      have hsize := hcounts.2
      rw [hkind] at hsize
      exact hshow.files i r hr hskip hstart hkind hsize
    | true =>
      obtain ⟨p, hp, hc⟩ := List.mem_filterMap.mp (hshow.dirs i r hr hskip hstart hkind)
      obtain ⟨dir', i', r', hplace, hat', hkind', hsame, -⟩ := hentry hp hc
      rw [hproper.apart dir i r dir' i' r' hat hat' hkind hkind' hsame.symm, ← hplace, hlog]
      exact ⟨p.2, List.mem_cons_of_mem _ hp⟩

/-- **When a listing loses nothing.**  Every directory chain, the root's too, is expanded at most once and
of every entry of an expanded directory that is a directory, or a file with bytes, there comes one file,
one descent or one note, just when the entries of the directories that can be reached have names and start
at clusters, no two of the directories start at the same one, and none that is to be expanded where the
root does. -/
theorem tree_lossless_iff (lower : List Char → List Char) (fat : Fat) (view table : Bytes)
    (log : Log Event) (h : walkLog lower fat view table = .ok log) :
    Lossless lower fat view table log ↔ Proper lower fat view table := by
  have hrooted := walkLog_rooted h
  obtain ⟨root, hroot, -⟩ := bind_eq_ok.mp h
  exact ⟨fun hlossless => hrooted.proper hlossless ⟨root, hroot⟩, hrooted.lossless⟩

end

/-! ### Two directories in one place -/

/-- A boot sector of a filesystem of two clusters, FAT12. -/
def smallBoot : Bytes :=
  0xEB :: List.replicate 10 0 ++ [0, 2, 1, 1, 0, 1, 16, 0, 5, 0, 0xF8, 1, 0] ++ List.replicate 30 0 ++
    [70, 65, 84] ++ List.replicate 453 0 ++ [0x55, 0xAA]

/-- Cluster 2 ends a chain. -/
def smallTable : Bytes := [0xF8, 0xFF, 0xFF, 0xFF, 0x0F] ++ List.replicate 507 0

/-- A directory of one letter that starts at cluster 2. -/
def dirEntry (letter : UInt8) : Bytes :=
  letter :: List.replicate 10 32 ++ [0x10] ++ List.replicate 14 0 ++ [2, 0] ++ List.replicate 4 0

/-- The root names the directories A and B; the cluster both start at is an empty directory. -/
def twinImage : Bytes :=
  smallBoot ++ smallTable ++ dirEntry 65 ++ dirEntry 66 ++ List.replicate 448 0 ++ List.replicate 1024 0

def twinFat : Fat := ⟨512, 1, 1, 1, 16, 1, 5, 0, .fat12, 1536, 2, by decide⟩

def asciiLower (s : List Char) : List Char := s.map Char.toLower

def twinLog : Log Event := [([], .descent none), ([0], .descent (some 2))]

theorem twin_walk : walkLog asciiLower twinFat twinImage smallTable = .ok twinLog := by decide +kernel

theorem twins_lost : ¬ Lossless asciiLower twinFat twinImage smallTable twinLog := by
  intro h
  have honce := h.exactly [] none (by decide) 1 ⟨['B'], 16, 2, 0⟩ (by decide +kernel) (by decide)
  revert honce
  decide

theorem tree_lossless_iff_twins : ¬ Proper asciiLower twinFat twinImage smallTable := by
  intro h
  exact twins_lost ((tree_lossless_iff asciiLower twinFat twinImage smallTable twinLog twin_walk).mpr h)

/-- Of the directory B comes no descent and no note. -/
theorem twin_directories :
    Fat.open twinImage = .ok twinFat ∧ twinFat.readTable twinImage = .ok smallTable ∧
      walkLog asciiLower twinFat twinImage smallTable = .ok twinLog ∧
      files asciiLower twinFat twinImage = .ok ([], []) ∧
      ¬ Lossless asciiLower twinFat twinImage smallTable twinLog := by
  refine ⟨?_, ?_, twin_walk, ?_, twins_lost⟩
  · decide +kernel
  · decide +kernel
  · decide +kernel

end Fat

end Hashdex
