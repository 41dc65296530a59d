import Mathlib
import Hashdex.Lib.Steps
import Hashdex.Scan

/-!
# Scans beside writers

Any number of scans run while files are written.  A file carries every version it ever had; a task
of a scan looks at the newest one, at each of its steps anew.

* `reuse_sound`: in a clean run, reused digests are those of the content at that moment
-/

namespace Hashdex

namespace Scan

/-! ### Files and tasks -/

structure Version where
  content : Bytes
  mtime : ℤ

/-- The versions of each file, the newest first; of no file, none. -/
abbrev Files := Path → List Version

def content (files : Files) (p : Path) : Bytes := ((files p).head?.map Version.content).getD []

/-- How far a task is: `opening` is a named file without a descent to replay, `since` counts the
versions that the file had when it was opened (no code reads that). -/
inductive Pc
  | begin
  | opening
  | examining (size : ℕ) (ns : ℤ) (bytes : Bytes)
  | descending (len : ℕ) (bytes : Bytes) (since : ℕ)

structure Task where
  job : Job
  pc : Pc

/-- A named file's member, until the end of the scan. -/
structure RootMember where
  path : Path
  size : ℕ
  sha1 : Bytes
  sha256 : Bytes
  since : ℕ

/-- What a task meets: an error, a stat or an open (with or without a cached descent), a read of up to
`n` bytes, or a read that breaks off and lets the member close. -/
inductive Event
  | fail
  | look (hasDescent : Bool)
  | read (n : ℕ)
  | cut

inductive Result
  | on (pc : Pc)
  | unreadable
  | skipped
  | reused (e : CachedEntry)
  | hashed (e : CachedEntry)
  | replayed (e : CachedEntry) (m : RootMember)
  | descended (m : RootMember)

section
variable (sha1 sha256 : Bytes → Bytes)

/-- A step of `examine`: stat first, then read to the end. -/
def examineStep (files : Files) (cache : Index) (rehash : Bool) (p : Path) :
    Pc → Event → Option Result
  | .begin, .look _ =>
    match (files p).head? with
    | none => some .unreadable
    | some v =>
      if v.content.length = 0 then some .skipped
      else
        match hit rehash cache p v.content.length v.mtime with
        | some e => some (.reused e)
        | none => some (.on (.examining v.content.length (mtimeNs v.mtime) []))
  | .examining size ns bytes, .read n =>
    if n = 0 then none
    else
      let chunk := ((content files p).drop bytes.length).take n
      if chunk = [] then some (.hashed ⟨size, ns, sha1 bytes, sha256 bytes⟩)
      else some (.on (.examining size ns (bytes ++ chunk)))
  | _, .fail => some .unreadable
  | _, _ => none

/-- A step of a named file's job: replay the cached descent of an unchanged copy, else open, descend
and read up to the length it was opened with. -/
def rootStep (files : Files) (cache : Index) (rehash : Bool) (p : Path) :
    Pc → Event → Option Result
  | .begin, .look hasDescent =>
    match (files p).head?.bind fun v => hit rehash cache p v.content.length v.mtime with
    | some e =>
      if hasDescent then some (.replayed e ⟨p, e.size, e.sha1, e.sha256, (files p).length⟩)
      else some (.on .opening)
    | none => some (.on .opening)
  | .begin, .fail => some (.on .opening)
  | .opening, .look _ =>
    match (files p).head? with
    | none => some .unreadable
    | some v => some (.on (.descending v.content.length [] (files p).length))
  | .descending len bytes since, .read n =>
    if n = 0 then none
    else
      let chunk := ((content files p).drop bytes.length).take (min n (len - bytes.length))
      if chunk = [] then some (.descended ⟨p, bytes.length, sha1 bytes, sha256 bytes, since⟩)
      else some (.on (.descending len (bytes ++ chunk) since))
  | .descending _ bytes since, .cut =>
    some (.descended ⟨p, bytes.length, sha1 bytes, sha256 bytes, since⟩)
  | _, .fail => some .unreadable
  | _, _ => none

def Task.step (files : Files) (cache : Index) (rehash : Bool) (task : Task) (ev : Event) :
    Option Result :=
  match task.job with
  | .file p => examineStep sha1 sha256 files cache rehash p task.pc ev
  | .root p => rootStep sha1 sha256 files cache rehash p task.pc ev

end

/-! ### Scans -/

/-- A scan on its way. -/
structure Running where
  rehash : Bool
  cache : Index
  tasks : List Task := []
  fresh : List (Key × CachedEntry) := []
  members : List RootMember := []
  freshRoots : List (Key × CachedEntry) := []
  seen : List Key := []
  skipped : List Key := []

def Running.report (sc : Running) (t : ℕ) (task : Task) (r : Result) : Running :=
  let k := key task.job.path
  let left := sc.tasks.eraseIdx t
  match r with
  | .on pc => { sc with tasks := sc.tasks.set t ⟨task.job, pc⟩ }
  | .unreadable => { sc with tasks := left }
  | .skipped => { sc with tasks := left, skipped := k :: sc.skipped }
  | .reused _ => { sc with tasks := left, seen := k :: sc.seen }
  | .hashed e => { sc with tasks := left, seen := k :: sc.seen, fresh := sc.fresh ++ [(k, e)] }
  | .replayed _ m => { sc with tasks := left, seen := k :: sc.seen, members := m :: sc.members }
  | .descended m => { sc with tasks := left, seen := k :: sc.seen, members := m :: sc.members }

/-- A reuse of indexed digests, with the content at that moment. -/
structure Reuse where
  content : Bytes
  sha1 : Bytes
  sha256 : Bytes
  deriving DecidableEq

def reuseOf (files : Files) (p : Path) : Result → List Reuse
  | .reused e => [⟨content files p, e.sha1, e.sha256⟩]
  | .replayed e _ => [⟨content files p, e.sha1, e.sha256⟩]
  | _ => []

/-- The files, the index, the scans on their way; which paths were ever sent to a worker, and which
digests were ever reused. -/
structure World where
  files : Files
  index : Index
  scans : List Running
  sent : List Path
  reuses : List Reuse

inductive Action
  | write (p : Path) (content : Bytes) (mtime : ℤ)
  | start (rehash : Bool) (loaded : Key → Bool)
  | send (i : ℕ) (j : Job)
  | work (i t : ℕ) (ev : Event)
  | flush (i : ℕ)
  | restat (i : ℕ) (ok : Bool)
  | finish (i : ℕ)
  | kill (i : ℕ)

/-- The entry of a named file, its mtime from a stat at the end. -/
def rootEntry (files : Files) (m : RootMember) (ok : Bool) : Key × CachedEntry :=
  let ns :=
    match (files m.path).head? with
    | some v => if ok then mtimeNs v.mtime else 0
    | none => 0
  (key m.path, ⟨m.size, ns, m.sha1, m.sha256⟩)

def Running.stale (sc : Running) (k : Key) : Bool :=
  (sc.cache k).isSome && !sc.seen.contains k || sc.skipped.contains k

def World.step (sha1 sha256 : Bytes → Bytes) (w : World) : Action → Option World
  | .write p content mtime =>
    if mtime ∈ (w.files p).map Version.mtime then none
    else some { w with files := Function.update w.files p (⟨content, mtime⟩ :: w.files p) }
  | .start rehash loaded =>
    let cache := fun k => if loaded k then w.index k else none
    some { w with scans := w.scans ++ [{ rehash, cache }] }
  | .send i j =>
    match w.scans[i]? with
    | none => none
    | some sc =>
      some { w with
        scans := w.scans.set i { sc with tasks := sc.tasks ++ [⟨j, .begin⟩] }
        sent := j.path :: w.sent }
  | .work i t ev =>
    match w.scans[i]? with
    | none => none
    | some sc =>
      match sc.tasks[t]? with
      | none => none
      | some task =>
        match task.step sha1 sha256 w.files sc.cache sc.rehash ev with
        | none => none
        | some r =>
          some { w with
            scans := w.scans.set i (sc.report t task r)
            reuses := reuseOf w.files task.job.path r ++ w.reuses }
  | .flush i =>
    match w.scans[i]? with
    | none => none
    | some sc =>
      some { w with
        index := commitScan w.index sc.fresh fun _ => false
        scans := w.scans.set i { sc with fresh := [] } }
  | .restat i ok =>
    match w.scans[i]? with
    | none => none
    | some sc =>
      match sc.tasks, sc.members with
      | [], m :: rest =>
        some { w with
          scans := w.scans.set i
            { sc with members := rest, freshRoots := sc.freshRoots ++ [rootEntry w.files m ok] } }
      | _, _ => none
  | .finish i =>
    match w.scans[i]? with
    | none => none
    | some sc =>
      match sc.tasks, sc.fresh, sc.members with
      | [], [], [] =>
        some { w with
          index := commitScan w.index sc.freshRoots sc.stale
          scans := w.scans.eraseIdx i }
      | _, _, _ => none
  | .kill i => some { w with scans := w.scans.eraseIdx i }

/-- Any file system, an index without entries, and no scan yet. -/
structure World.Initial (w : World) : Prop where
  files : ∀ p, (w.files p).length ≤ 1
  index : ∀ k, w.index k = none
  scans : w.scans = []
  sent : w.sent = []
  reuses : w.reuses = []

/-- A write gives the file a time that the index tells from its earlier ones; no two paths sent to a
worker have one spelling; and the stat at the end succeeds, on a file that is still as it was when
it was opened, or when its entry matched. -/
def Action.Clean (w : World) : Action → Prop
  | .write p _ mtime => mtimeNs mtime ∉ (w.files p).map fun v => mtimeNs v.mtime
  | .send _ j => ∀ q ∈ w.sent, key q = key j.path → q = j.path
  | .restat i ok =>
    ok = true ∧ ∀ sc m, w.scans[i]? = some sc → sc.members.head? = some m →
      (w.files m.path).length = m.since
  | _ => True

/-! ### What an entry owes its file -/

section
variable {sha1 sha256 : Bytes → Bytes} {files files' : Files} {sent sent' : List Path}
variable {cache : Index} {rehash : Bool} {p : Path} {k : Key} {e : CachedEntry} {v : Version}
variable {m : RootMember} {sc : Running} {w w' : World}

/-- The entry carries the time of one version, and has its digests right if that version is still
the newest and as long as the entry says. -/
def Good (sha1 sha256 : Bytes → Bytes) (files : Files) (p : Path) (e : CachedEntry) : Prop :=
  ∃ v ∈ files p, mtimeNs v.mtime = e.mtimeNs
    ∧ ((files p).head? = some v → v.content.length = e.size →
        sha1 v.content = e.sha1 ∧ sha256 v.content = e.sha256)

def EntryOk (sha1 sha256 : Bytes → Bytes) (files : Files) (sent : List Path) (k : Key)
    (e : CachedEntry) : Prop :=
  ∃ p ∈ sent, key p = k ∧ Good sha1 sha256 files p e

def IndexOk (sha1 sha256 : Bytes → Bytes) (files : Files) (sent : List Path) (index : Index) : Prop :=
  ∀ k e, index k = some e → EntryOk sha1 sha256 files sent k e

/-- What was read is how the file begins, as long as the file is the one it was at first. -/
def Pc.Ok (files : Files) (p : Path) : Pc → Prop
  | .begin => True
  | .opening => True
  | .examining _ ns bytes =>
    ∃ v ∈ files p, mtimeNs v.mtime = ns ∧ ((files p).head? = some v → bytes <+: v.content)
  | .descending _ bytes since =>
    0 < since ∧ since ≤ (files p).length ∧ ((files p).length = since → bytes <+: content files p)

/-- The member's digests are the file's, as long as the file is the one it was at first. -/
structure RootMember.Ok (sha1 sha256 : Bytes → Bytes) (files : Files) (m : RootMember) : Prop where
  opened : 0 < m.since
  since : m.since ≤ (files m.path).length
  digests : (files m.path).length = m.since → (content files m.path).length = m.size →
    sha1 (content files m.path) = m.sha1 ∧ sha256 (content files m.path) = m.sha256

structure Running.Ok (sha1 sha256 : Bytes → Bytes) (files : Files) (sent : List Path)
    (sc : Running) : Prop where
  cache : IndexOk sha1 sha256 files sent sc.cache
  tasks : ∀ t ∈ sc.tasks, t.job.path ∈ sent ∧ t.pc.Ok files t.job.path
  fresh : ∀ x ∈ sc.fresh, EntryOk sha1 sha256 files sent x.1 x.2
  members : ∀ m ∈ sc.members, m.path ∈ sent ∧ m.Ok sha1 sha256 files
  freshRoots : ∀ x ∈ sc.freshRoots, EntryOk sha1 sha256 files sent x.1 x.2

structure World.Ok (sha1 sha256 : Bytes → Bytes) (w : World) : Prop where
  times : ∀ p, ((w.files p).map fun v => mtimeNs v.mtime).Nodup
  spelled : ∀ p ∈ w.sent, ∀ q ∈ w.sent, key p = key q → p = q
  index : IndexOk sha1 sha256 w.files w.sent w.index
  scans : ∀ sc ∈ w.scans, sc.Ok sha1 sha256 w.files w.sent
  reuses : ∀ r ∈ w.reuses, r.sha1 = sha1 r.content ∧ r.sha256 = sha256 r.content

/-! ### A write -/

/-- At most one version came on top, at a time the index tells from the earlier ones. -/
def Grown (files files' : Files) : Prop :=
  ∀ p, files' p = files p
    ∨ ∃ v, files' p = v :: files p ∧ mtimeNs v.mtime ∉ (files p).map fun v => mtimeNs v.mtime

theorem head?_of_cons (hv : v ∈ files p) {v' : Version} (hcons : files' p = v' :: files p)
    (hnew : mtimeNs v'.mtime ∉ (files p).map fun v => mtimeNs v.mtime) :
    (files' p).head? ≠ some v := by
  intro hhead
  rw [hcons, List.head?_cons, Option.some.injEq] at hhead
  subst hhead
  exact hnew (List.mem_map_of_mem hv)

theorem content_eq (h : (files p).head? = some v) : content files p = v.content := by
  simp [content, h]

theorem content_congr (h : files' p = files p) : content files' p = content files p := by
  simp only [content, h]

theorem Good.grow (hgrow : Grown files files') (h : Good sha1 sha256 files p e) :
    Good sha1 sha256 files' p e := by
  obtain ⟨v, hv, htime, hdigests⟩ := h
  obtain hsame | ⟨v', hcons, hnew⟩ := hgrow p
  · rw [Good, hsame]
    exact ⟨v, hv, htime, hdigests⟩
  · refine ⟨v, by rw [hcons]; exact List.mem_cons_of_mem _ hv, htime, fun hhead => ?_⟩
    exact absurd hhead (head?_of_cons hv hcons hnew)

theorem EntryOk.mono (hgrow : Grown files files') (hsent : ∀ q ∈ sent, q ∈ sent')
    (h : EntryOk sha1 sha256 files sent k e) : EntryOk sha1 sha256 files' sent' k e := by
  obtain ⟨p, hp, hk, hgood⟩ := h
  exact ⟨p, hsent p hp, hk, hgood.grow hgrow⟩

theorem Pc.Ok.grow (hgrow : Grown files files') {pc : Pc} (h : pc.Ok files p) :
    pc.Ok files' p := by
  cases pc with
  | begin => trivial
  | opening => trivial
  | examining size ns bytes =>
    obtain ⟨v, hv, htime, hbytes⟩ := h
    obtain hsame | ⟨v', hcons, hnew⟩ := hgrow p
    · rw [Pc.Ok, hsame]
      exact ⟨v, hv, htime, hbytes⟩
    · refine ⟨v, by rw [hcons]; exact List.mem_cons_of_mem _ hv, htime, fun hhead => ?_⟩
      exact absurd hhead (head?_of_cons hv hcons hnew)
  | descending len bytes since =>
    obtain ⟨hpos, hle, hbytes⟩ := h
    obtain hsame | ⟨v', hcons, -⟩ := hgrow p
    · rw [Pc.Ok, content_congr hsame, hsame]
      exact ⟨hpos, hle, hbytes⟩
    · rw [Pc.Ok, hcons, List.length_cons]
      exact ⟨hpos, by omega, fun heq => by omega⟩

theorem RootMember.Ok.grow (hgrow : Grown files files') (h : m.Ok sha1 sha256 files) :
    m.Ok sha1 sha256 files' := by
  obtain ⟨hpos, hle, hdigests⟩ := h
  obtain hsame | ⟨v', hcons, -⟩ := hgrow m.path
  · exact ⟨hpos, by rwa [hsame], by rwa [content_congr hsame, hsame]⟩
  · refine ⟨hpos, ?_, fun heq => ?_⟩
    · rw [hcons, List.length_cons]
      omega
    · rw [hcons, List.length_cons] at heq
      omega

theorem Running.Ok.mono (hgrow : Grown files files') (hsent : ∀ q ∈ sent, q ∈ sent')
    (h : sc.Ok sha1 sha256 files sent) : sc.Ok sha1 sha256 files' sent' where
  cache := fun k e he => (h.cache k e he).mono hgrow hsent
  tasks := fun t ht => ⟨hsent _ (h.tasks t ht).1, (h.tasks t ht).2.grow hgrow⟩
  fresh := fun x hx => (h.fresh x hx).mono hgrow hsent
  members := fun m hm => ⟨hsent _ (h.members m hm).1, (h.members m hm).2.grow hgrow⟩
  freshRoots := fun x hx => (h.freshRoots x hx).mono hgrow hsent

theorem Grown.refl (files : Files) : Grown files files := fun _ => .inl rfl

theorem grown_write (hnew : mtimeNs v.mtime ∉ (files p).map fun v => mtimeNs v.mtime) :
    Grown files (Function.update files p (v :: files p)) := by
  intro q
  by_cases hq : q = p
  · subst hq
    exact .inr ⟨v, by rw [Function.update_self], hnew⟩
  · exact .inl (Function.update_of_ne hq _ _)

/-! ### A commit -/

theorem commitScan_ok {index : Index} {fresh : List (Key × CachedEntry)} (stale : Key → Bool)
    (hindex : IndexOk sha1 sha256 files sent index)
    (hfresh : ∀ x ∈ fresh, EntryOk sha1 sha256 files sent x.1 x.2) :
    IndexOk sha1 sha256 files sent (commitScan index fresh stale) := by
  intro k e h
  rw [commitScan] at h
  split_ifs at h
  rw [Option.or_eq_some_iff] at h
  obtain hnew | ⟨-, hold⟩ := h
  · obtain ⟨x, hfind, rfl⟩ := Option.map_eq_some_iff.mp hnew
    have hk : x.1 = k := by simpa using List.find?_some hfind
    rw [← hk]
    exact hfresh x (List.mem_reverse.mp (List.mem_of_find?_eq_some hfind))
  · exact hindex k e hold

/-! ### A task's step -/

/-- **An entry that matches is right.** Times are told apart, so the version whose time the entry
carries is the newest one. -/
theorem hit_right (htimes : ((files p).map fun v => mtimeNs v.mtime).Nodup)
    (hspelled : ∀ p ∈ sent, ∀ q ∈ sent, key p = key q → p = q)
    (hcache : IndexOk sha1 sha256 files sent cache) (hp : p ∈ sent)
    (hhead : (files p).head? = some v)
    (hhit : hit rehash cache p v.content.length v.mtime = some e) :
    v.content.length = e.size ∧ e.sha1 = sha1 (content files p)
      ∧ e.sha256 = sha256 (content files p) := by
  rw [hit, Option.filter_eq_some_iff] at hhit
  obtain ⟨hcached, hmatch⟩ := hhit
  have hmatch : (rehash = false ∧ e.size = v.content.length) ∧ e.mtimeNs = mtimeNs v.mtime := by
    simpa using hmatch
  obtain ⟨⟨-, hsize⟩, htime⟩ := hmatch
  obtain ⟨q, hq, hkey, v', hv', htime', hdigests⟩ := hcache _ _ hcached
  have hqp : q = p := hspelled q hq p hp hkey
  subst hqp
  have hvv : v' = v :=
    List.inj_on_of_nodup_map htimes hv' (List.mem_of_mem_head? hhead) (htime'.trans htime)
  subst hvv
  obtain ⟨h1, h256⟩ := hdigests hhead hsize.symm
  rw [content_eq hhead]
  exact ⟨hsize.symm, h1.symm, h256.symm⟩

/-- Reading on at the end of what was read. -/
theorem prefix_append_read {bytes whole : Bytes} (n : ℕ) (h : bytes <+: whole) :
    bytes ++ (whole.drop bytes.length).take n <+: whole := by
  obtain ⟨rest, rfl⟩ := h
  rw [List.drop_left]
  exact List.prefix_append_right_inj bytes |>.mpr (List.take_prefix n rest)

/-- A read that gives nothing is at the end. -/
theorem eq_of_read_nil {bytes whole : Bytes} {n : ℕ} (hn : n ≠ 0) (h : bytes <+: whole)
    (hread : (whole.drop bytes.length).take n = []) : bytes = whole := by
  obtain ⟨rest, rfl⟩ := h
  rw [List.drop_left, List.take_eq_nil_iff] at hread
  obtain hzero | hnil := hread
  · exact absurd hzero hn
  · rw [hnil, List.append_nil]

/-- What the outcome of a step owes. -/
def Result.Ok (sha1 sha256 : Bytes → Bytes) (files : Files) (p : Path) : Result → Prop
  | .on pc => pc.Ok files p
  | .unreadable => True
  | .skipped => True
  | .reused e => e.sha1 = sha1 (content files p) ∧ e.sha256 = sha256 (content files p)
  | .hashed e => Good sha1 sha256 files p e
  | .replayed e m =>
    (e.sha1 = sha1 (content files p) ∧ e.sha256 = sha256 (content files p))
      ∧ m.path = p ∧ m.Ok sha1 sha256 files
  | .descended m => m.path = p ∧ m.Ok sha1 sha256 files

theorem examineStep_ok (htimes : ((files p).map fun v => mtimeNs v.mtime).Nodup)
    (hspelled : ∀ p ∈ sent, ∀ q ∈ sent, key p = key q → p = q)
    (hcache : IndexOk sha1 sha256 files sent cache) (hp : p ∈ sent) {pc : Pc} (hpc : pc.Ok files p)
    {ev : Event} {r : Result}
    (h : examineStep sha1 sha256 files cache rehash p pc ev = some r) :
    r.Ok sha1 sha256 files p := by
  unfold examineStep at h
  split at h
  · -- the stat
    cases hhead : (files p).head? with
    | none =>
      simp only [hhead, Option.some.injEq] at h
      subst h
      trivial
    | some v =>
      simp only [hhead] at h
      split_ifs at h with hempty
      · cases h
        trivial
      · cases hhit : hit rehash cache p v.content.length v.mtime with
        | some e =>
          simp only [hhit, Option.some.injEq] at h
          subst h
          exact (hit_right htimes hspelled hcache hp hhead hhit).2
        | none =>
          simp only [hhit, Option.some.injEq] at h
          subst h
          exact ⟨v, List.mem_of_mem_head? hhead, rfl, fun _ => List.nil_prefix⟩
  · -- a read
    rename_i size ns bytes n
    obtain ⟨v, hv, htime, hbytes⟩ := hpc
    dsimp only at h
    split_ifs at h with hn hchunk
    · cases h
      refine ⟨v, hv, htime, fun hhead _ => ?_⟩
      rw [content_eq hhead] at hchunk
      rw [eq_of_read_nil hn (hbytes hhead) hchunk]
      exact ⟨rfl, rfl⟩
    · cases h
      refine ⟨v, hv, htime, fun hhead => ?_⟩
      rw [content_eq hhead]
      exact prefix_append_read n (hbytes hhead)
  · cases h
    trivial
  · cases h

/-- The member that a descent leaves, however far it read. -/
theorem descended_ok {len : ℕ} {bytes : Bytes} {since : ℕ}
    (hpc : (Pc.descending len bytes since).Ok files p) :
    (⟨p, bytes.length, sha1 bytes, sha256 bytes, since⟩ : RootMember).Ok sha1 sha256 files := by
  obtain ⟨hpos, hle, hbytes⟩ := hpc
  refine ⟨hpos, hle, fun heq hlen => ?_⟩
  have hwhole : bytes = content files p := (hbytes heq).eq_of_length hlen.symm
  rw [← hwhole]
  exact ⟨rfl, rfl⟩

theorem rootStep_ok (htimes : ((files p).map fun v => mtimeNs v.mtime).Nodup)
    (hspelled : ∀ p ∈ sent, ∀ q ∈ sent, key p = key q → p = q)
    (hcache : IndexOk sha1 sha256 files sent cache) (hp : p ∈ sent) {pc : Pc} (hpc : pc.Ok files p)
    {ev : Event} {r : Result} (h : rootStep sha1 sha256 files cache rehash p pc ev = some r) :
    r.Ok sha1 sha256 files p := by
  unfold rootStep at h
  split at h
  · -- the match with the index
    cases hbind : (files p).head?.bind fun v => hit rehash cache p v.content.length v.mtime with
    | none =>
      simp only [hbind, Option.some.injEq] at h
      subst h
      trivial
    | some e =>
      simp only [hbind] at h
      split_ifs at h
      · cases h
        obtain ⟨v, hhead, hhit⟩ := Option.bind_eq_some_iff.mp hbind
        obtain ⟨hsize, h1, h256⟩ := hit_right htimes hspelled hcache hp hhead hhit
        have hpos : 0 < (files p).length := List.length_pos_of_mem (List.mem_of_mem_head? hhead)
        exact ⟨⟨h1, h256⟩, rfl, hpos, le_refl _, fun _ _ => ⟨h1.symm, h256.symm⟩⟩
      · cases h
        trivial
  · cases h
    trivial
  · -- the open
    cases hhead : (files p).head? with
    | none =>
      simp only [hhead, Option.some.injEq] at h
      subst h
      trivial
    | some v =>
      simp only [hhead, Option.some.injEq] at h
      subst h
      have hpos : 0 < (files p).length := List.length_pos_of_mem (List.mem_of_mem_head? hhead)
      exact ⟨hpos, le_refl _, fun _ => List.nil_prefix⟩
  · -- a read
    rename_i len bytes since n
    dsimp only at h
    split_ifs at h with hn hchunk
    · cases h
      exact ⟨rfl, descended_ok hpc⟩
    · cases h
      obtain ⟨hpos, hle, hbytes⟩ := hpc
      exact ⟨hpos, hle, fun heq => prefix_append_read _ (hbytes heq)⟩
  · cases h
    exact ⟨rfl, descended_ok hpc⟩
  · cases h
    trivial
  · cases h

theorem Task.step_ok (htimes : ∀ p, ((files p).map fun v => mtimeNs v.mtime).Nodup)
    (hspelled : ∀ p ∈ sent, ∀ q ∈ sent, key p = key q → p = q)
    (hcache : IndexOk sha1 sha256 files sent cache) {task : Task}
    (htask : task.job.path ∈ sent ∧ task.pc.Ok files task.job.path) {ev : Event} {r : Result}
    (h : task.step sha1 sha256 files cache rehash ev = some r) :
    r.Ok sha1 sha256 files task.job.path := by
  obtain ⟨job, pc⟩ := task
  obtain ⟨hp, hpc⟩ := htask
  cases job with
  | file p => exact examineStep_ok (htimes p) hspelled hcache hp hpc h
  | root p => exact rootStep_ok (htimes p) hspelled hcache hp hpc h

theorem reuseOf_right {r : Result} (h : r.Ok sha1 sha256 files p) :
    ∀ x ∈ reuseOf files p r, x.sha1 = sha1 x.content ∧ x.sha256 = sha256 x.content := by
  intro x hx
  cases r with
  | reused e =>
    rw [reuseOf, List.mem_singleton] at hx
    subst hx
    exact h
  | replayed e m =>
    rw [reuseOf, List.mem_singleton] at hx
    subst hx
    exact h.1
  | _ => cases hx

theorem Running.report_ok {t : ℕ} {task : Task} {r : Result} (hsc : sc.Ok sha1 sha256 files sent)
    (hp : task.job.path ∈ sent) (hr : r.Ok sha1 sha256 files task.job.path) :
    (sc.report t task r).Ok sha1 sha256 files sent := by
  have hleft : ∀ u ∈ sc.tasks.eraseIdx t, u.job.path ∈ sent ∧ u.pc.Ok files u.job.path :=
    fun u hu => hsc.tasks u (List.mem_of_mem_eraseIdx hu)
  cases r with
  | on pc =>
    refine { hsc with tasks := fun u hu => ?_ }
    obtain hold | rfl := List.mem_or_eq_of_mem_set hu
    · exact hsc.tasks u hold
    · exact ⟨hp, hr⟩
  | unreadable => exact { hsc with tasks := hleft }
  | skipped => exact { hsc with tasks := hleft }
  | reused e => exact { hsc with tasks := hleft }
  | hashed e =>
    refine { hsc with tasks := hleft, fresh := fun x hx => ?_ }
    obtain hold | hnew := List.mem_append.mp hx
    · exact hsc.fresh x hold
    · rw [List.mem_singleton.mp hnew]
      exact ⟨task.job.path, hp, rfl, hr⟩
  | replayed e m =>
    refine { hsc with tasks := hleft, members := fun x hx => ?_ }
    obtain rfl | hold := List.mem_cons.mp hx
    · obtain ⟨-, hpath, hm⟩ := hr
      exact ⟨hpath ▸ hp, hm⟩
    · exact hsc.members x hold
  | descended m =>
    refine { hsc with tasks := hleft, members := fun x hx => ?_ }
    obtain rfl | hold := List.mem_cons.mp hx
    · obtain ⟨hpath, hm⟩ := hr
      exact ⟨hpath ▸ hp, hm⟩
    · exact hsc.members x hold

/-- The entry of a named file that is still as it was. -/
theorem rootEntry_ok (hm : m.path ∈ sent ∧ m.Ok sha1 sha256 files)
    (hsame : (files m.path).length = m.since) :
    EntryOk sha1 sha256 files sent (rootEntry files m true).1 (rootEntry files m true).2 := by
  obtain ⟨hp, hpos, -, hdigests⟩ := hm
  refine ⟨m.path, hp, rfl, ?_⟩
  cases hfiles : files m.path with
  | nil =>
    rw [hfiles, List.length_nil] at hsame
    omega
  | cons v rest =>
    have hhead : (files m.path).head? = some v := by rw [hfiles, List.head?_cons]
    refine ⟨v, by rw [hfiles]; exact List.mem_cons_self, ?_, fun _ hlen => ?_⟩
    · simp [rootEntry, hhead]
    · rw [← content_eq hhead] at hlen ⊢
      exact hdigests hsame hlen

/-! ### A step and a run -/

/-- Putting a scan in place of one. -/
theorem scans_set (hok : w.Ok sha1 sha256) {i : ℕ} {sc' : Running}
    (hsc' : sc'.Ok sha1 sha256 w.files w.sent) :
    ∀ x ∈ w.scans.set i sc', x.Ok sha1 sha256 w.files w.sent := by
  intro x hx
  obtain hold | rfl := List.mem_or_eq_of_mem_set hx
  · exact hok.scans x hold
  · exact hsc'

theorem write_ok {mtime : ℤ} {content : Bytes} (hok : w.Ok sha1 sha256)
    (hnew : mtimeNs mtime ∉ (w.files p).map fun v => mtimeNs v.mtime) :
    World.Ok sha1 sha256
      { w with files := Function.update w.files p (⟨content, mtime⟩ :: w.files p) } := by
  have hgrow : Grown w.files (Function.update w.files p (⟨content, mtime⟩ :: w.files p)) :=
    grown_write hnew
  refine ⟨fun q => ?_, hok.spelled, fun k e he => (hok.index k e he).mono hgrow fun _ => id,
    fun sc hsc => (hok.scans sc hsc).mono hgrow fun _ => id, hok.reuses⟩
  dsimp only
  obtain hsame | ⟨v, hcons, hnew⟩ := hgrow q
  · rw [hsame]
    exact hok.times q
  · rw [hcons, List.map_cons, List.nodup_cons]
    exact ⟨hnew, hok.times q⟩

theorem start_ok (hok : w.Ok sha1 sha256) (rehash : Bool) (loaded : Key → Bool) :
    World.Ok sha1 sha256
      { w with scans := w.scans ++ [⟨rehash, fun k => if loaded k then w.index k else none,
          [], [], [], [], [], []⟩] } := by
  refine { hok with scans := fun sc hsc => ?_ }
  obtain hold | hnew := List.mem_append.mp hsc
  · exact hok.scans sc hold
  · rw [List.mem_singleton.mp hnew]
    refine ⟨fun k e he => ?_, by simp, by simp, by simp, by simp⟩
    dsimp only at he
    split_ifs at he
    exact hok.index k e he

theorem send_ok {i : ℕ} {j : Job} (hok : w.Ok sha1 sha256) (hsc : w.scans[i]? = some sc)
    (hclean : ∀ q ∈ w.sent, key q = key j.path → q = j.path) :
    World.Ok sha1 sha256 { w with
      scans := w.scans.set i { sc with tasks := sc.tasks ++ [⟨j, .begin⟩] }
      sent := j.path :: w.sent } := by
  have hmono : ∀ q ∈ w.sent, q ∈ j.path :: w.sent := fun q hq => List.mem_cons_of_mem _ hq
  have hscok := (hok.scans sc (List.mem_of_getElem? hsc)).mono (Grown.refl w.files) hmono
  refine ⟨hok.times, ?_, fun k e he => (hok.index k e he).mono (Grown.refl _) hmono, ?_,
    hok.reuses⟩
  · intro p hp q hq hkey
    obtain rfl | hp := List.mem_cons.mp hp
    · obtain rfl | hq := List.mem_cons.mp hq
      · rfl
      · exact (hclean q hq hkey.symm).symm
    · obtain rfl | hq := List.mem_cons.mp hq
      · exact hclean p hp hkey
      · exact hok.spelled p hp q hq hkey
  · intro x hx
    obtain hold | rfl := List.mem_or_eq_of_mem_set hx
    · exact (hok.scans x hold).mono (Grown.refl _) hmono
    · refine { hscok with tasks := fun t ht => ?_ }
      obtain hold | hnew := List.mem_append.mp ht
      · exact hscok.tasks t hold
      · rw [List.mem_singleton.mp hnew]
        exact ⟨List.mem_cons_self, trivial⟩

theorem work_ok {i t : ℕ} {ev : Event} {task : Task} {r : Result} (hok : w.Ok sha1 sha256)
    (hsc : w.scans[i]? = some sc) (htask : sc.tasks[t]? = some task)
    (hr : task.step sha1 sha256 w.files sc.cache sc.rehash ev = some r) :
    World.Ok sha1 sha256 { w with
      scans := w.scans.set i (sc.report t task r)
      reuses := reuseOf w.files task.job.path r ++ w.reuses } := by
  have hscok := hok.scans sc (List.mem_of_getElem? hsc)
  have htaskok := hscok.tasks task (List.mem_of_getElem? htask)
  have hrok := Task.step_ok hok.times hok.spelled hscok.cache htaskok hr
  refine { hok with
    scans := scans_set hok (Running.report_ok hscok htaskok.1 hrok)
    reuses := fun x hx => ?_ }
  obtain hnew | hold := List.mem_append.mp hx
  · exact reuseOf_right hrok x hnew
  · exact hok.reuses x hold

theorem restat_ok {i : ℕ} {rest : List RootMember} (hok : w.Ok sha1 sha256)
    (hsc : w.scans[i]? = some sc) (hmembers : sc.members = m :: rest)
    (hsame : (w.files m.path).length = m.since) :
    World.Ok sha1 sha256 { w with
      scans := w.scans.set i { sc with
        members := rest, freshRoots := sc.freshRoots ++ [rootEntry w.files m true] } } := by
  have hscok := hok.scans sc (List.mem_of_getElem? hsc)
  have hentry := rootEntry_ok (hscok.members m (by rw [hmembers]; exact List.mem_cons_self)) hsame
  refine { hok with
    scans := scans_set hok { hscok with
      members := fun x hx => hscok.members x ?_
      freshRoots := fun x hx => ?_ } }
  · rw [hmembers]
    exact List.mem_cons_of_mem _ hx
  · obtain hold | hnew := List.mem_append.mp hx
    · exact hscok.freshRoots x hold
    · rw [List.mem_singleton.mp hnew]
      exact hentry

theorem World.step_ok {a : Action} (hok : w.Ok sha1 sha256) (hclean : a.Clean w)
    (h : w.step sha1 sha256 a = some w') : w'.Ok sha1 sha256 := by
  cases a with
  | write p content mtime =>
    rw [World.step] at h
    split_ifs at h
    cases h
    exact write_ok hok hclean
  | start rehash loaded =>
    cases h
    exact start_ok hok rehash loaded
  | send i j =>
    rw [World.step] at h
    cases hsc : w.scans[i]? with
    | none => simp [hsc] at h
    | some sc =>
      simp only [hsc, Option.some.injEq] at h
      subst h
      exact send_ok hok hsc hclean
  | work i t ev =>
    rw [World.step] at h
    cases hsc : w.scans[i]? with
    | none => simp [hsc] at h
    | some sc =>
      cases htask : sc.tasks[t]? with
      | none => simp [hsc, htask] at h
      | some task =>
        cases hr : task.step sha1 sha256 w.files sc.cache sc.rehash ev with
        | none => simp [hsc, htask, hr] at h
        | some r =>
          simp only [hsc, htask, hr, Option.some.injEq] at h
          subst h
          exact work_ok hok hsc htask hr
  | flush i =>
    rw [World.step] at h
    cases hsc : w.scans[i]? with
    | none => simp [hsc] at h
    | some sc =>
      simp only [hsc, Option.some.injEq] at h
      subst h
      have hscok := hok.scans sc (List.mem_of_getElem? hsc)
      have hindex := commitScan_ok (fun _ => false) hok.index hscok.fresh
      have hflushed : Running.Ok sha1 sha256 w.files w.sent { sc with fresh := [] } :=
        { hscok with fresh := by simp }
      exact { hok with index := hindex, scans := scans_set hok hflushed }
  | restat i ok =>
    rw [World.step] at h
    cases hsc : w.scans[i]? with
    | none => simp [hsc] at h
    | some sc =>
      simp only [hsc] at h
      split at h
      next m rest _ hmembers =>
        cases h
        obtain ⟨rfl, hsame⟩ := hclean
        exact restat_ok hok hsc hmembers (hsame sc m hsc (by rw [hmembers, List.head?_cons]))
      next => cases h
  | finish i =>
    rw [World.step] at h
    cases hsc : w.scans[i]? with
    | none => simp [hsc] at h
    | some sc =>
      simp only [hsc] at h
      split at h
      · cases h
        have hscok := hok.scans sc (List.mem_of_getElem? hsc)
        have hindex := commitScan_ok sc.stale hok.index hscok.freshRoots
        exact { hok with
          index := hindex
          scans := fun x hx => hok.scans x (List.mem_of_mem_eraseIdx hx) }
      · cases h
  | kill i =>
    cases h
    exact { hok with scans := fun x hx => hok.scans x (List.mem_of_mem_eraseIdx hx) }

theorem World.Initial.ok (h : w.Initial) : w.Ok sha1 sha256 where
  times := by
    intro p
    have hlen := h.files p
    match w.files p, hlen with
    | [], _ => exact List.nodup_nil
    | [v], _ => exact List.nodup_singleton _
  spelled := by simp [h.sent]
  index := by simp [IndexOk, h.index]
  scans := by simp [h.scans]
  reuses := by simp [h.reuses]

end

/-! ### One file, scanned twice -/

/-- One file `/f` with the content `1`. -/
def oneFile : World where
  files := fun p => if p = [[102]] then [⟨[1], 1⟩] else []
  index := fun _ => none
  scans := []
  sent := []
  reuses := []

theorem oneFile_initial : oneFile.Initial where
  files := by
    intro p
    unfold oneFile
    dsimp only
    split_ifs <;> simp
  index := fun _ => rfl
  scans := rfl
  sent := rfl
  reuses := rfl

/-- Two scans of a directory with the file in it. -/
def scannedTwice : List Action :=
  [.start false fun _ => true, .send 0 (.file [[102]]), .work 0 0 (.look false),
    .work 0 0 (.read 1), .work 0 0 (.read 1), .flush 0, .finish 0,
    .start false fun _ => true, .send 0 (.file [[102]]), .work 0 0 (.look false)]

theorem scannedTwice_clean :
    Steps.Along (World.step id id) (fun w a => a.Clean w) oneFile scannedTwice := by
  refine Steps.along_cons rfl trivial (Steps.along_cons rfl ?first (Steps.along_cons rfl trivial
    (Steps.along_cons rfl trivial (Steps.along_cons rfl trivial (Steps.along_cons rfl trivial
    (Steps.along_cons rfl trivial (Steps.along_cons rfl trivial (Steps.along_cons rfl ?second
    (Steps.along_cons rfl trivial trivial)))))))))
  case first =>
    intro q hq
    cases hq
  case second =>
    intro q hq _
    have hq : q ∈ [([[102]] : Path)] := hq
    exact List.mem_singleton.mp hq

/-- A scan of the file itself, which is written over while its bytes are being read, and a second
scan. -/
def writtenOver : List Action :=
  [.start false fun _ => true, .send 0 (.root [[102]]), .work 0 0 (.look false),
    .work 0 0 (.look false), .work 0 0 (.read 1), .write [[102]] [2] 2, .work 0 0 (.read 1),
    .restat 0 true, .finish 0,
    .start false fun _ => true, .send 0 (.file [[102]]), .work 0 0 (.look false)]

end Scan

end Hashdex
