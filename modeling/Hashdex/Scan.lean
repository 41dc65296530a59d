import Mathlib
import Hashdex.Hex

/-!
# A scan and the entries it deletes from the index

The walk of the roots, what becomes of each file it finds, and the transaction at the end: fresh
entries in, and out with every cached path that no worker recorded as seen.

* `outcome_seen`: a nonempty file that nothing hides is recorded
* `deletes_only_gone_iff`: when a scan deletes only what it saw to be gone
-/

namespace Hashdex

namespace Scan

/-! ### Paths and their spellings -/

abbrev Name := Bytes

/-- An absolute path, by its components. -/
abbrev Path := List Name

/-- What the index is keyed by. -/
abbrev Key := List Char

def isCont (b : UInt8) : Bool := 0x80 ≤ b && b ≤ 0xBF

/-- Whether `c` can stand second in a sequence of three or four bytes that starts with `b`. -/
def isSecond (b c : UInt8) : Bool :=
  if b = 0xE0 then 0xA0 ≤ c && c ≤ 0xBF
  else if b = 0xED then 0x80 ≤ c && c ≤ 0x9F
  else if b = 0xF0 then 0x90 ≤ c && c ≤ 0xBF
  else if b = 0xF4 then 0x80 ≤ c && c ≤ 0x8F
  else isCont c

/-- The replacement character. -/
def replacement : Char := Char.ofNat 0xFFFD

/-- The low six bits of a continuation byte. -/
def low (b : UInt8) : ℕ := b.toNat % 64

/-- One character off the front; what starts no character, or breaks off in one, is replaced. -/
def lossyChar (b : UInt8) (rest : Bytes) : Char × Bytes :=
  if b < 0x80 then (Char.ofNat b.toNat, rest)
  else if 0xC2 ≤ b ∧ b ≤ 0xDF then
    match rest with
    | c :: after =>
      if isCont c then (Char.ofNat ((b.toNat - 0xC0) * 64 + low c), after) else (replacement, rest)
    | [] => (replacement, [])
  else if 0xE0 ≤ b ∧ b ≤ 0xEF then
    match rest with
    | c :: d :: after =>
      if isSecond b c = false then (replacement, rest)
      else if isCont d then
        (Char.ofNat (((b.toNat - 0xE0) * 64 + low c) * 64 + low d), after)
      else (replacement, d :: after)
    | [c] => if isSecond b c then (replacement, []) else (replacement, [c])
    | [] => (replacement, [])
  else if 0xF0 ≤ b ∧ b ≤ 0xF4 then
    match rest with
    | c :: d :: e :: after =>
      if isSecond b c = false then (replacement, rest)
      else if isCont d = false then (replacement, d :: e :: after)
      else if isCont e then
        (Char.ofNat ((((b.toNat - 0xF0) * 64 + low c) * 64 + low d) * 64 + low e), after)
      else (replacement, e :: after)
    | [c, d] =>
      if isSecond b c = false then (replacement, rest)
      else if isCont d then (replacement, [])
      else (replacement, [d])
    | [c] => if isSecond b c then (replacement, []) else (replacement, [c])
    | [] => (replacement, [])
  else (replacement, rest)

def lossyFrom : ℕ → Bytes → List Char
  | 0, _ => []
  | _ + 1, [] => []
  | n + 1, b :: rest => (lossyChar b rest).1 :: lossyFrom n (lossyChar b rest).2

/-- `to_string_lossy` of one component; a slash ends any sequence, so a path decodes by components. -/
def lossy (name : Name) : List Char := lossyFrom name.length name

def key (path : Path) : Key :=
  if path = [] then ['/'] else path.flatMap fun name => '/' :: lossy name

/-! ### The file system -/

inductive Obj
  | dir
  | file (size : ℕ) (mtime : ℤ)
  | other
  deriving DecidableEq

/-- The file system, held still: every path once, and above each entry only directories. -/
structure Fs where
  entries : List (Path × Obj)
  nodup : (entries.map Prod.fst).Nodup
  closed : ∀ p o, (p, o) ∈ entries → ∀ a, a <+: p → a ≠ p → (a, Obj.dir) ∈ entries

def Fs.at (fs : Fs) (p : Path) : Option Obj := (fs.entries.find? fun x => x.1 = p).map Prod.snd

/-- Nanoseconds since the epoch as the index has them: a time before it reads as 0, and the cast to
`i64` wraps. -/
def mtimeNs (mtime : ℤ) : ℤ := if mtime < 0 then 0 else (mtime + 2 ^ 63) % 2 ^ 64 - 2 ^ 63

structure CachedEntry where
  size : ℕ
  mtimeNs : ℤ
  sha1 : Bytes
  sha256 : Bytes
  deriving DecidableEq

abbrev Index := Key → Option CachedEntry

/-- What a scan meets: which directories can be listed, of which entries the type can be had, which
files can be stat'ed and read, which root files' descents succeed, for which digests a complete
descent is cached, what a file's bytes hash to, and its options. -/
structure ScanEnv where
  lists : Path → Bool
  types : Path → Bool
  stats : Path → Bool
  reads : Path → Bool
  descends : Path → Bool
  contained : Bytes → Bool
  digests : Path → Bytes × Bytes
  ownCache : Path
  rehash : Bool

/-! ### The walk -/

def isFile (fs : Fs) (p : Path) : Bool :=
  match fs.at p with
  | some (.file _ _) => true
  | _ => false

/-- `root.is_file()`, which has to stat it. -/
def rootIsFile (env : ScanEnv) (fs : Fs) (root : Path) : Bool := env.stats root && isFile fs root

/-- hdx's own cache is pruned, unless the root lies in it. -/
def prunes (env : ScanEnv) (root : Path) : Bool := !env.ownCache.isPrefixOf root

/-- The walk of a directory root gets to the entry: each directory on the way lists, each entry on
the way has a type and is not pruned. -/
def visits (env : ScanEnv) (root p : Path) : Bool :=
  root.isPrefixOf p && p.inits.all fun a =>
    !root.isPrefixOf a || (decide (a = p) || env.lists a) && env.types a
      && !(prunes env root && decide (a = env.ownCache))

inductive Job
  | file (p : Path)
  | root (p : Path)
  deriving DecidableEq

def jobs (env : ScanEnv) (fs : Fs) (root : Path) : List Job :=
  if rootIsFile env fs root then [.root root]
  else
    ((fs.entries.map Prod.fst).filter fun p => isFile fs p && visits env root p).map .file

/-- The keys `load_under` fetches for a root: its own, or the range below it. -/
def loads (env : ScanEnv) (fs : Fs) (root : Path) (k : Key) : Bool :=
  if rootIsFile env fs root then k = key root
  else
    let start := if root = [] then ['/'] else key root ++ ['/']
    decide (start ≤ k) && decide (k < start ++ [Char.ofNat 0x10FFFF])

/-- The cached entries, of all roots together. -/
def cached (env : ScanEnv) (fs : Fs) (index : Index) (roots : List Path) (k : Key) :
    Option CachedEntry :=
  if roots.any fun root => loads env fs root k then index k else none

/-! ### What becomes of a job -/

inductive Outcome
  | seen (k : Key) (fresh : Option CachedEntry)
  | skipped (k : Key)
  | unreadable
  deriving DecidableEq

/-- The indexed entry whose size and mtime the file still has; with `--rehash`, none. -/
def hit (rehash : Bool) (cache : Index) (p : Path) (size : ℕ) (mtime : ℤ) : Option CachedEntry :=
  (cache (key p)).filter fun e => !rehash && e.size = size && e.mtimeNs = mtimeNs mtime

/-- The entry whose cached descent replays for a named file. -/
def replay (env : ScanEnv) (cache : Index) (p : Path) (size : ℕ) (mtime : ℤ) : Option CachedEntry :=
  (hit env.rehash cache p size mtime).filter fun e => env.stats p && env.contained e.sha256

/-- Stat the file; reuse the indexed digests when size and mtime match, else read and hash. -/
def examine (env : ScanEnv) (fs : Fs) (cache : Index) (p : Path) : Outcome :=
  match fs.at p with
  | some (.file size mtime) =>
    if env.stats p = false then .unreadable
    else if size = 0 then .skipped (key p)
    else if (hit env.rehash cache p size mtime).isSome then .seen (key p) none
    else if env.reads p then
      .seen (key p) (some ⟨size, mtimeNs mtime, (env.digests p).1, (env.digests p).2⟩)
    else .unreadable
  | _ => .unreadable

/-- A named file: replay the cached descent of an unchanged copy, else descend.  Either way the entry
that goes in carries the mtime at the end. -/
def descendRoot (env : ScanEnv) (fs : Fs) (cache : Index) (p : Path) : Outcome :=
  match fs.at p with
  | some (.file size mtime) =>
    let ns := if env.stats p then mtimeNs mtime else 0
    match replay env cache p size mtime with
    | some e => .seen (key p) (some ⟨e.size, ns, e.sha1, e.sha256⟩)
    | none =>
      if env.descends p then
        .seen (key p) (some ⟨size, ns, (env.digests p).1, (env.digests p).2⟩)
      else .unreadable
  | _ => .unreadable

def Job.path : Job → Path
  | .file p => p
  | .root p => p

def Job.outcome (env : ScanEnv) (fs : Fs) (cache : Index) : Job → Outcome
  | .file p => examine env fs cache p
  | .root p => descendRoot env fs cache p

def Outcome.seenKey : Outcome → Option Key
  | .seen k _ => some k
  | _ => none

def Outcome.skippedKey : Outcome → Option Key
  | .skipped k => some k
  | _ => none

def Outcome.entry : Outcome → Option (Key × CachedEntry)
  | .seen k (some e) => some (k, e)
  | _ => none

/-- `commit_scan`: upsert the fresh entries, in their order, and then delete. -/
def commitScan (index : Index) (fresh : List (Key × CachedEntry)) (stale : Key → Bool) : Index :=
  fun k =>
    if stale k then none
    else (((fresh.reverse.find? fun x => x.1 = k).map Prod.snd).or (index k))

def Job.isRoot : Job → Bool
  | .file _ => false
  | .root _ => true

/-- The index after a scan.  The entries of examined files were flushed while it ran, those of the
root files go in at the end. -/
def scan (env : ScanEnv) (fs : Fs) (index : Index) (roots : List Path) : Index :=
  let cache := cached env fs index roots
  let js := roots.flatMap (jobs env fs)
  let outcomes := js.map (Job.outcome env fs cache)
  let entries := (js.filter (!·.isRoot) ++ js.filter Job.isRoot).filterMap fun j =>
    (j.outcome env fs cache).entry
  let seen := outcomes.filterMap Outcome.seenKey
  let skipped := outcomes.filterMap Outcome.skippedKey
  commitScan index entries fun k => (cache k).isSome && !seen.contains k || skipped.contains k

/-! ### What a scan can tell -/

section
variable {env : ScanEnv} {fs : Fs} {index : Index} {roots : List Path} {root p : Path} {k : Key}
variable {e : CachedEntry} {o : Obj} {j : Job} {size : ℕ} {mtime : ℤ}

theorem at_mem (h : fs.at p = some o) : (p, o) ∈ fs.entries := by
  rw [Fs.at, Option.map_eq_some_iff] at h
  obtain ⟨x, hfind, rfl⟩ := h
  have hp : x.1 = p := by simpa using List.find?_some hfind
  rw [← hp]
  exact List.mem_of_find?_eq_some hfind

theorem at_of_mem (h : (p, o) ∈ fs.entries) : fs.at p = some o := by
  cases hfind : fs.entries.find? fun x => x.1 = p with
  | none => exact absurd (List.find?_eq_none.mp hfind _ h) (by simp)
  | some x =>
    have hp : x.1 = p := by simpa using List.find?_some hfind
    have hx : x = (p, o) :=
      List.inj_on_of_nodup_map fs.nodup (List.mem_of_find?_eq_some hfind) h hp
    simp [Fs.at, hfind, hx]

/-- Above an entry stand directories. -/
theorem at_above {a : Path} (h : fs.at p = some o) (ha : a <+: p) (hne : a ≠ p) :
    fs.at a = some .dir :=
  at_of_mem (fs.closed p o (at_mem h) a ha hne)

theorem isFile_iff : isFile fs p = true ↔ ∃ size mtime, fs.at p = some (.file size mtime) := by
  cases h : fs.at p with
  | none => simp [isFile, h]
  | some o => cases o <;> simp [isFile, h]

theorem visits_iff : visits env root p = true ↔
    root <+: p ∧ ∀ a, root <+: a → a <+: p →
      (a = p ∨ env.lists a = true) ∧ env.types a = true
        ∧ (prunes env root = true → a ≠ env.ownCache) := by
  simp only [visits, Bool.and_eq_true, List.isPrefixOf_iff_prefix, List.all_eq_true, List.mem_inits]
  refine and_congr_right fun _ => forall_congr' fun a => ?_
  have hstarts : root <+: a ↔ root.isPrefixOf a = true := List.isPrefixOf_iff_prefix.symm
  rw [hstarts]
  cases root.isPrefixOf a <;> cases prunes env root <;> simp [and_assoc]

/-- Nothing stands between the walk of a directory root and the place: whatever is there on the way
has a type and is not pruned, and whatever directory is above it lists. -/
def Clear (env : ScanEnv) (fs : Fs) (root p : Path) : Prop :=
  root <+: p ∧ ∀ a, root <+: a → a <+: p → fs.at a ≠ none →
    (a ≠ p → fs.at a = some .dir → env.lists a = true) ∧ env.types a = true
      ∧ (prunes env root = true → a ≠ env.ownCache)

/-- The walk visits an entry to which the view is clear. -/
theorem visits_of_clear (h : Clear env fs root p) (hat : fs.at p = some o) :
    visits env root p = true := by
  rw [visits_iff]
  obtain ⟨hroot, hclear⟩ := h
  refine ⟨hroot, fun a hra hap => ?_⟩
  by_cases ha : a = p
  · subst ha
    obtain ⟨-, htypes, hkept⟩ := hclear a hra hap (by simp [hat])
    exact ⟨.inl rfl, htypes, hkept⟩
  · have hdir : fs.at a = some .dir := at_above hat hap ha
    obtain ⟨hlists, htypes, hkept⟩ := hclear a hra hap (by simp [hdir])
    exact ⟨.inr (hlists ha hdir), htypes, hkept⟩

/-- The file is not empty, and its entry is current or it can be hashed. -/
def Opens (env : ScanEnv) (fs : Fs) (cache : Index) (p : Path) : Prop :=
  ∃ size mtime, fs.at p = some (.file size mtime) ∧ env.stats p = true ∧ size ≠ 0
    ∧ ((hit env.rehash cache p size mtime).isSome ∨ env.reads p = true)

/-- The file is empty. -/
def EmptyFile (env : ScanEnv) (fs : Fs) (p : Path) : Prop :=
  env.stats p = true ∧ ∃ mtime, fs.at p = some (.file 0 mtime)

/-- The named file has a descent to replay, or can be descended. -/
def Descends (env : ScanEnv) (fs : Fs) (cache : Index) (p : Path) : Prop :=
  ∃ size mtime, fs.at p = some (.file size mtime)
    ∧ ((replay env cache p size mtime).isSome ∨ env.descends p = true)

/-- The scan of the root can tell what the place names: it sees that nothing is there, or gets
through with the file that is. -/
def Looks (env : ScanEnv) (fs : Fs) (cache : Index) (root p : Path) : Prop :=
  if rootIsFile env fs root then root <+: p ∧ (p = root → Descends env fs cache p)
  else Clear env fs root p ∧ (isFile fs p = true → Opens env fs cache p ∨ EmptyFile env fs p)

/-- Whether some file of that spelling is gone through. -/
def Recorded (env : ScanEnv) (fs : Fs) (cache : Index) (roots : List Path) (k : Key) : Prop :=
  ∃ root ∈ roots,
    if rootIsFile env fs root then key root = k ∧ Descends env fs cache root
    else ∃ p, key p = k ∧ visits env root p = true ∧ Opens env fs cache p

/-- Whether some empty file of that spelling is passed over. -/
def Skipped (env : ScanEnv) (fs : Fs) (roots : List Path) (k : Key) : Prop :=
  ∃ root ∈ roots, rootIsFile env fs root = false
    ∧ ∃ p, key p = k ∧ visits env root p = true ∧ EmptyFile env fs p

/-! ### One job -/

theorem examine_seenKey {cache : Index} :
    (examine env fs cache p).seenKey = some k ↔ key p = k ∧ Opens env fs cache p := by
  unfold examine Opens
  split
  next size mtime hat =>
    rw [hat]
    split_ifs with hstats hsize hhit hreads
    · simp [Outcome.seenKey, hstats]
    · subst hsize
      simp [Outcome.seenKey]
    · simpa [Outcome.seenKey, hstats, hhit] using fun _ => hsize
    · simpa [Outcome.seenKey, hstats, hreads] using fun _ => hsize
    · simp [Outcome.seenKey, hhit, hreads]
  next hnot =>
    constructor
    · intro h
      cases h
    · intro h
      obtain ⟨-, size, mtime, hat, -⟩ := h
      exact (hnot size mtime hat).elim

theorem examine_skippedKey {cache : Index} :
    (examine env fs cache p).skippedKey = some k ↔ key p = k ∧ EmptyFile env fs p := by
  unfold examine EmptyFile
  split
  next size mtime hat =>
    rw [hat]
    split_ifs with hstats hsize hhit hreads
    · simp [Outcome.skippedKey, hstats]
    · subst hsize
      simp [Outcome.skippedKey, hstats]
    · simp [Outcome.skippedKey, hsize]
    · simp [Outcome.skippedKey, hsize]
    · simp [Outcome.skippedKey, hsize]
  next hnot =>
    constructor
    · intro h
      cases h
    · intro h
      obtain ⟨-, -, mtime, hat⟩ := h
      exact (hnot 0 mtime hat).elim

theorem descendRoot_seenKey {cache : Index} :
    (descendRoot env fs cache p).seenKey = some k ↔ key p = k ∧ Descends env fs cache p := by
  unfold descendRoot Descends
  split
  next size mtime hat =>
    rw [hat]
    cases hreplay : replay env cache p size mtime with
    | some e => simp [Outcome.seenKey, hreplay]
    | none =>
      by_cases hdesc : env.descends p = true
      · simp [Outcome.seenKey, hdesc]
      · simp [Outcome.seenKey, hdesc, hreplay]
  next hnot =>
    constructor
    · intro h
      cases h
    · intro h
      obtain ⟨-, size, mtime, hat, -⟩ := h
      exact (hnot size mtime hat).elim

theorem descendRoot_skippedKey {cache : Index} :
    (descendRoot env fs cache p).skippedKey = none := by
  unfold descendRoot
  split
  · dsimp only
    split
    · rfl
    · split_ifs <;> rfl
  · rfl

/-! ### The whole scan -/

theorem mem_jobs_dir (hroot : ¬rootIsFile env fs root = true) :
    j ∈ jobs env fs root ↔ ∃ p, j = .file p ∧ isFile fs p = true ∧ visits env root p = true := by
  rw [jobs, if_neg hroot, List.mem_map]
  constructor
  · intro h
    obtain ⟨p, hmem, rfl⟩ := h
    obtain ⟨-, hp⟩ := List.mem_filter.mp hmem
    rw [Bool.and_eq_true] at hp
    exact ⟨p, rfl, hp⟩
  · intro h
    obtain ⟨p, rfl, hfile, hvisits⟩ := h
    obtain ⟨size, mtime, hat⟩ := isFile_iff.mp hfile
    have hmem : p ∈ fs.entries.map Prod.fst := List.mem_map.mpr ⟨_, at_mem hat, rfl⟩
    exact ⟨p, List.mem_filter.mpr ⟨hmem, by simp [hfile, hvisits]⟩, rfl⟩

theorem seen_iff {cache : Index} :
    k ∈ ((roots.flatMap (jobs env fs)).map (Job.outcome env fs cache)).filterMap Outcome.seenKey
      ↔ Recorded env fs cache roots k := by
  simp only [List.mem_filterMap, List.mem_map, List.mem_flatMap, Recorded]
  constructor
  · intro h
    obtain ⟨_, ⟨j, ⟨root, hroot, hj⟩, rfl⟩, hkey⟩ := h
    refine ⟨root, hroot, ?_⟩
    split_ifs with hfile
    · rw [jobs, if_pos hfile, List.mem_singleton] at hj
      subst hj
      exact descendRoot_seenKey.mp hkey
    · obtain ⟨p, rfl, -, hvisits⟩ := (mem_jobs_dir hfile).mp hj
      obtain ⟨hp, hopens⟩ := examine_seenKey.mp hkey
      exact ⟨p, hp, hvisits, hopens⟩
  · intro h
    obtain ⟨root, hroot, h⟩ := h
    split_ifs at h with hfile
    · refine ⟨_, ⟨.root root, ⟨root, hroot, ?_⟩, rfl⟩, descendRoot_seenKey.mpr h⟩
      simp [jobs, hfile]
    · obtain ⟨p, hp, hvisits, hopens⟩ := h
      have hisfile : isFile fs p = true := by
        obtain ⟨size, mtime, hat, -⟩ := hopens
        exact isFile_iff.mpr ⟨size, mtime, hat⟩
      exact ⟨_, ⟨.file p, ⟨root, hroot, (mem_jobs_dir hfile).mpr ⟨p, rfl, hisfile, hvisits⟩⟩, rfl⟩,
        examine_seenKey.mpr ⟨hp, hopens⟩⟩

theorem skipped_iff (cache : Index) :
    k ∈ ((roots.flatMap (jobs env fs)).map (Job.outcome env fs cache)).filterMap
        Outcome.skippedKey
      ↔ Skipped env fs roots k := by
  simp only [List.mem_filterMap, List.mem_map, List.mem_flatMap, Skipped]
  constructor
  · intro h
    obtain ⟨_, ⟨j, ⟨root, hroot, hj⟩, rfl⟩, hkey⟩ := h
    by_cases hfile : rootIsFile env fs root = true
    · rw [jobs, if_pos hfile, List.mem_singleton] at hj
      subst hj
      have hnone : (descendRoot env fs cache root).skippedKey = none := descendRoot_skippedKey
      rw [Job.outcome, hnone] at hkey
      cases hkey
    · obtain ⟨p, rfl, -, hvisits⟩ := (mem_jobs_dir hfile).mp hj
      obtain ⟨hp, hempty⟩ := examine_skippedKey.mp hkey
      exact ⟨root, hroot, Bool.eq_false_of_not_eq_true hfile, p, hp, hvisits, hempty⟩
  · intro h
    obtain ⟨root, hroot, hfile, p, hp, hvisits, hempty⟩ := h
    have hisfile : isFile fs p = true := by
      obtain ⟨-, mtime, hat⟩ := hempty
      exact isFile_iff.mpr ⟨0, mtime, hat⟩
    have hjob := (mem_jobs_dir (by simp [hfile])).mpr ⟨p, rfl, hisfile, hvisits⟩
    exact ⟨_, ⟨.file p, ⟨root, hroot, hjob⟩, rfl⟩, examine_skippedKey.mpr ⟨hp, hempty⟩⟩

/-- **Outcome of a looked-at file.** A scan that can tell what the place names goes through the file
there, or passes over it as empty. -/
theorem outcome_seen {cache : Index} (hroot : root ∈ roots) (hlook : Looks env fs cache root p)
    (hat : fs.at p = some (.file size mtime)) :
    Recorded env fs cache roots (key p) ∨ Skipped env fs roots (key p) := by
  rw [Looks] at hlook
  split_ifs at hlook with hfile
  · -- nothing stands below a file, so the place is the root itself
    obtain ⟨hlies, hdescends⟩ := hlook
    have hp : root = p := by
      by_contra hne
      have hdir := at_above hat hlies hne
      simp [rootIsFile, isFile, hdir] at hfile
    subst hp
    exact .inl ⟨root, hroot, by rw [if_pos hfile]; exact ⟨rfl, hdescends rfl⟩⟩
  · obtain ⟨hclear, hread⟩ := hlook
    have hvisits := visits_of_clear hclear hat
    obtain hopens | hempty := hread (isFile_iff.mpr ⟨size, mtime, hat⟩)
    · exact .inl ⟨root, hroot, by rw [if_neg hfile]; exact ⟨p, rfl, hvisits, hopens⟩⟩
    · exact .inr ⟨root, hroot, Bool.eq_false_of_not_eq_true hfile, p, rfl, hvisits, hempty⟩

/-- **What is deleted.** An entry goes when it was loaded and no file of its spelling was gone
through, or when an empty one was passed over. -/
theorem scan_none_iff (hindex : index k = some e) :
    scan env fs index roots k = none ↔
      (∃ root ∈ roots, loads env fs root k = true)
          ∧ ¬Recorded env fs (cached env fs index roots) roots k
        ∨ Skipped env fs roots k := by
  have hloaded : (cached env fs index roots k).isSome = true
      ↔ ∃ root ∈ roots, loads env fs root k = true := by
    rw [cached]
    split_ifs with hany
    · simpa [hindex] using hany
    · simpa using hany
  rw [← hloaded, ← seen_iff, ← skipped_iff (cached env fs index roots)]
  simp only [scan, commitScan]
  split_ifs with hstale
  · simpa using hstale
  · rw [hindex]
    simpa using hstale

/-! ### Deleting only what is gone -/

/-- The place lies under one of the roots. -/
def Below (roots : List Path) (p : Path) : Prop := ∃ root ∈ roots, root <+: p

def Looked (env : ScanEnv) (fs : Fs) (cache : Index) (roots : List Path) (p : Path) : Prop :=
  ∃ root ∈ roots, Looks env fs cache root p

/-- The place names a file that the entry may stand for: a nonempty one, or the very one the entry
was made from. -/
def Stands (fs : Fs) (e : CachedEntry) (p : Path) : Prop :=
  ∃ size mtime, fs.at p = some (.file size mtime)
    ∧ (size ≠ 0 ∨ e.size = size ∧ e.mtimeNs = mtimeNs mtime)

/-- The two halves of what the deletion owes: an entry goes only where the scan saw that no nonempty
file of its spelling is left, and the entry of an unchanged file stays. -/
structure DeletesOnlyGone (env : ScanEnv) (fs : Fs) (index : Index) (roots : List Path) : Prop where
  gone : ∀ k e, index k = some e → scan env fs index roots k = none → ∀ p, key p = k →
    (∀ size mtime, fs.at p = some (.file size mtime) → size = 0)
      ∧ (Below roots p → Looked env fs (cached env fs index roots) roots p)
  kept : ∀ k e p mtime, index k = some e → key p = k → fs.at p = some (.file e.size mtime) →
    e.mtimeNs = mtimeNs mtime → scan env fs index roots k ≠ none

/-- No loaded entry may be of a place that the scan could not look at, and none that an empty file
shares a spelling with may be of another place. -/
structure Unhidden (env : ScanEnv) (fs : Fs) (index : Index) (roots : List Path) : Prop where
  hidden : ∀ k e p, index k = some e → (∃ root ∈ roots, loads env fs root k = true) → key p = k →
    Below roots p ∨ Stands fs e p → ¬Looked env fs (cached env fs index roots) roots p →
    Recorded env fs (cached env fs index roots) roots k
  empties : ∀ k e p, index k = some e → Skipped env fs roots k → key p = k →
    ¬Stands fs e p ∧ (Below roots p → Looked env fs (cached env fs index roots) roots p)

theorem stands_of_nonempty (hat : fs.at p = some (.file size mtime)) (hsize : size ≠ 0) :
    Stands fs e p :=
  ⟨size, mtime, hat, .inl hsize⟩

theorem stands_of_unchanged (hat : fs.at p = some (.file e.size mtime))
    (hmtime : e.mtimeNs = mtimeNs mtime) : Stands fs e p :=
  ⟨e.size, mtime, hat, .inr ⟨rfl, hmtime⟩⟩

/-- Under the two halves, a place spelled like a deleted entry stands for nothing and was looked at. -/
theorem DeletesOnlyGone.clean (h : DeletesOnlyGone env fs index roots) (hindex : index k = some e)
    (hdel : scan env fs index roots k = none) (hp : key p = k) :
    ¬Stands fs e p ∧ (Below roots p → Looked env fs (cached env fs index roots) roots p) := by
  obtain ⟨hnonempty, hlooked⟩ := h.gone k e hindex hdel p hp
  refine ⟨fun hstands => ?_, hlooked⟩
  obtain ⟨size, mtime, hat, hsize | ⟨hsize, hmtime⟩⟩ := hstands
  · exact hsize (hnonempty size mtime hat)
  · exact h.kept k e p mtime hindex hp (by rw [hsize, hat]) hmtime hdel

/-- With nothing hidden, a place spelled like a deleted entry stands for nothing and was looked at. -/
theorem Unhidden.clean (h : Unhidden env fs index roots) (hindex : index k = some e)
    (hdel : scan env fs index roots k = none) (hp : key p = k) :
    ¬Stands fs e p ∧ (Below roots p → Looked env fs (cached env fs index roots) roots p) := by
  obtain ⟨hloads, hunrecorded⟩ | hskipped := (scan_none_iff hindex).mp hdel
  · have hlooked : Below roots p ∨ Stands fs e p →
        Looked env fs (cached env fs index roots) roots p := by
      intro hplace
      by_contra hmiss
      exact hunrecorded (h.hidden k e p hindex hloads hp hplace hmiss)
    refine ⟨fun hstands => ?_, fun hbelow => hlooked (.inl hbelow)⟩
    obtain ⟨root, hroot, hlooks⟩ := hlooked (.inr hstands)
    have ⟨size, mtime, hat, _⟩ := hstands
    subst hp
    obtain hrecorded | hskipped := outcome_seen hroot hlooks hat
    · exact hunrecorded hrecorded
    · exact (h.empties _ e p hindex hskipped rfl).1 hstands
  · exact h.empties k e p hindex hskipped hp

/-- **A scan deletes only what it saw to be gone** exactly when nothing it holds an entry for is
hidden from it. -/
theorem deletes_only_gone_iff (env : ScanEnv) (fs : Fs) (index : Index) (roots : List Path) :
    DeletesOnlyGone env fs index roots ↔ Unhidden env fs index roots := by
  constructor
  · intro h
    refine ⟨fun k e p hindex hloads hp hplace hmiss => ?_, fun k e p hindex hskipped hp => ?_⟩
    · by_contra hunrecorded
      have hdel := (scan_none_iff hindex).mpr (.inl ⟨hloads, hunrecorded⟩)
      obtain ⟨hstands, hlooked⟩ := h.clean hindex hdel hp
      exact hplace.elim (fun hbelow => hmiss (hlooked hbelow)) hstands
    · exact h.clean hindex ((scan_none_iff hindex).mpr (.inr hskipped)) hp
  · intro h
    refine ⟨fun k e hindex hdel p hp => ?_, fun k e p mtime hindex hp hat hmtime hdel => ?_⟩
    · obtain ⟨hstands, hlooked⟩ := h.clean hindex hdel hp
      refine ⟨fun size mtime hat => ?_, hlooked⟩
      by_contra hsize
      exact hstands (stands_of_nonempty hat hsize)
    · exact (h.clean hindex hdel hp).1 (stands_of_unchanged hat hmtime)

end

/-! ### A directory that cannot be listed -/

/-- `/d/s/f`, five bytes long. -/
def smallFs : Fs where
  entries := [([], .dir), ([[100]], .dir), ([[100], [115]], .dir),
    ([[100], [115], [102]], .file 5 7)]
  nodup := by decide
  closed := by
    intro p o hmem a hpre hne
    rw [← List.mem_inits] at hpre
    simp only [List.mem_cons, Prod.mk.injEq, List.not_mem_nil, or_false] at hmem
    rcases hmem with ⟨rfl, rfl⟩ | ⟨rfl, rfl⟩ | ⟨rfl, rfl⟩ | ⟨rfl, rfl⟩ <;>
      simp [List.inits] at hpre <;> grind

/-- The index as a scan of `/d` left it. -/
def smallIndex : Index := fun k =>
  if k = "/d/s/f".toList then some ⟨5, 7, [1], [2]⟩ else none

/-- Everything can be read but the directory `/d/s`. -/
def shutEnv : ScanEnv where
  lists := fun p => decide (p ≠ [[100], [115]])
  types := fun _ => true
  stats := fun _ => true
  reads := fun _ => true
  descends := fun _ => true
  contained := fun _ => false
  digests := fun _ => ([1], [2])
  ownCache := [[99]]
  rehash := false

/-- The file stands unchanged, and its entry goes. -/
theorem shut_directory_deletes : ¬DeletesOnlyGone shutEnv smallFs smallIndex [[[100]]] := by
  intro h
  exact h.kept "/d/s/f".toList ⟨5, 7, [1], [2]⟩ [[100], [115], [102]] 7 rfl (by decide) rfl rfl
    (by decide)

end Scan

end Hashdex
