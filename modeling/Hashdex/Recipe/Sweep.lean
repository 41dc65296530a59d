import Hashdex.Recipe.OwnFile

/-!
# The sweep of the packed stream

`sweepPclusters` goes over the stored pclusters of the packed inode in order.  It hashes the members
packed into them as their bytes come by, hands the compressed ones to the encoders and splices the others.
What slices a member whose bytes did not come out is dropped by the caller.

* `sweepItems_spec`: when a subtraction underflows, and the invariant of the loop
* `SweepInv.settles`: what becomes of each cover that came unproved
* `sweep_admits_iff`: the sweep admits proven members, and no more than that goes wrong, just when no cover
  it is hashing has a gap before a pcluster it comes to
-/

namespace Hashdex

open Zmap Serving Tiling

/-! ### Covers -/

/-- A cover being hashed. -/
structure Active where
  cover : Cover
  pos : ℕ
  /-- What the hasher has seen. -/
  hashed : Bytes

/-- The loop that moves the cursor over the covers that begin before the end of a pcluster. -/
def admitCovers (la stop : ℕ) : List Cover → List Active → List ℕ → List Cover × List Active × List ℕ
  | [], active, failed => ([], active, failed)
  | cv :: rest, active, failed =>
    if stop ≤ cv.pstart then (cv :: rest, active, failed)
    else if cv.proved then admitCovers la stop rest active failed
    -- its first bytes were never decoded
    else if cv.pstart < la then admitCovers la stop rest active (failed.insert cv.idx)
    else admitCovers la stop rest (active ++ [⟨cv, cv.pstart, []⟩]) failed

/-- Hash what a pcluster has of a cover. -/
def Active.feed (la : ℕ) (bytes : Bytes) (a : Active) : Except Fault Active := do
  let lo ← checkedSub a.pos la
  let hi ← checkedSub (min a.cover.stop (la + bytes.length)) la
  if lo < hi then do
    let piece ← slice bytes lo hi
    .ok { a with pos := la + hi, hashed := a.hashed ++ piece }
  else .ok a

/-- The covers that go on behind the pcluster; of the others, those whose digest did not come out fail. -/
def feedAll (sha256 : Bytes → Bytes) (digest : ℕ → Bytes) (la : ℕ) (bytes : Bytes) :
    List Active → List ℕ → Except Fault (List Active × List ℕ)
  | [], failed => .ok ([], failed)
  | a :: rest, failed => do
    let a ← a.feed la bytes
    if a.pos < a.cover.stop then do
      let out ← feedAll sha256 digest la bytes rest failed
      .ok (a :: out.1, out.2)
    else
      feedAll sha256 digest la bytes rest
        (if sha256 a.hashed = digest a.cover.idx then failed else failed.insert a.cover.idx)

/-! ### Pclusters -/

/-- A pcluster with its index and its orders. -/
structure SweepItem where
  k : ℕ
  pc : PCluster
  elig : Elig
  need : Bool

def SweepSet.items (set : SweepSet) (pcs : List PCluster) : List SweepItem :=
  (pcs.zip (set.eligible.zip set.need)).zipIdx.map fun x => ⟨x.2, x.1.1, x.1.2.1, x.1.2.2⟩

structure Job where
  k : ℕ
  pc : PCluster
  input : Bytes
  more : Bool
  stored : Bytes

structure SweepState where
  /-- The covers from the cursor on. -/
  ahead : List Cover
  active : List Active
  /-- The bytes of the next pcluster, when an encoder has been given some of them. -/
  cur : Option Bytes
  failed : List ℕ
  jobs : List Job
  segs : List Seg
  stats : PcStats

/-- The sweep ends early with nothing to tell. -/
abbrev SweepStop := Stop Empty

/-- `decode_pcluster`.  The algorithm is that of the extent the pcluster is made of. -/
def ImgCtx.decodePcluster (ctx : ImgCtx) (pc : PCluster) : Except Fault Bytes :=
  match ctx.fs.packedExts.find? fun e => decide (e.pcluster = some pc) with
  | some ⟨_, llen, .raw pa plen alg isPartial⟩ => ctx.fs.decodeRaw ctx.z pa plen llen alg isPartial
  | _ => .error .panic

/-- What an encoder is given: the bytes of its pcluster and some of the next, and whether the stream goes
on; and the bytes of the next one. -/
def ImgCtx.encoderInput (ctx : ImgCtx) (bytes : Bytes) :
    List SweepItem → Except Fault (Bytes × Bool × Option Bytes)
  | [] => .ok (bytes, false, none)
  | next :: rest => do
    let ahead ← ctx.decodePcluster next.pc
    let take := min ahead.length encodeMargin
    .ok (bytes ++ ahead.take take, take < ahead.length || !rest.isEmpty, some ahead)

section

variable (ctx : ImgCtx) (digest : ℕ → Bytes) (used : List Cover)

/-- What an eligible pcluster is made into. -/
def sweepEligible (item : SweepItem) (rest : List SweepItem) (bytes : Bytes) (s : SweepState) :
    Except SweepStop SweepState :=
  match item.elig with
  | .no => .ok s
  | .encode => do
    let (input, more, cur) ← faulty (ctx.encoderInput bytes rest)
    let stored ← faulty (readStored ctx.fs.view item.pc)
    .ok { s with cur := cur, jobs := s.jobs ++ [⟨item.k, item.pc, input, more, stored⟩] }
  | .verbatim => do
    let stored ← faulty (readStored ctx.fs.view item.pc)
    let out := splicePlain item.pc bytes stored used
    .ok { s with segs := s.segs ++ out.2, stats := s.stats.count out.1 }

/-- The bytes of a pcluster, decoded once. -/
def ImgCtx.itemBytes (s : SweepState) (pc : PCluster) : Except Fault Bytes :=
  match s.cur with
  | some bytes => .ok bytes
  | none => ctx.decodePcluster pc

/-- The covers after a pcluster of so many bytes. -/
def sweepCovers (la : ℕ) (bytes : Bytes) (s : SweepState) : Except Fault SweepState := do
  let met := admitCovers la (la + bytes.length) s.ahead s.active s.failed
  let fed ← feedAll ctx.sha256 digest la bytes met.2.1 met.2.2
  .ok { s with ahead := met.1, active := fed.1, failed := fed.2, cur := none }

/-- The body of the loop. -/
def sweepItem (item : SweepItem) (rest : List SweepItem) (s : SweepState) :
    Except SweepStop SweepState :=
  if item.need then do
    let bytes ← faulty (ctx.itemBytes s item.pc)
    let s ← inRange (sweepCovers ctx digest item.pc.la bytes s)
    sweepEligible ctx used item rest bytes s
  else .ok { s with cur := none }

def sweepItems : List SweepItem → SweepState → Except SweepStop SweepState
  | [], s => .ok s
  | item :: rest, s => do
    let s ← sweepItem ctx digest used item rest s
    sweepItems rest s

/-- The members that fail when the stream is at its end: those of covers that were not reached, and of those
that were not finished. -/
def SweepState.failures (s : SweepState) : List ℕ :=
  ((s.ahead.filter fun c => !c.proved).map Cover.idx ++ s.active.map fun a => a.cover.idx) ∪ s.failed

/-! ### Jobs -/

/-- The order in which the workers take the jobs, and what the shared preset is when they do. -/
structure Schedule where
  order : List Job → List Job
  perm : ∀ jobs, (order jobs).Perm jobs
  preset : ℕ → Option UInt32 → Option UInt32

/-- One worker after the other, and no other image at work. -/
def Schedule.inOrder : Schedule := ⟨id, fun _ => .refl _, fun _ p => p⟩

def runJob (known : Option UInt32) (job : Job) (spool : Bytes) : Except Fault (Encoded × Bytes) :=
  encoded spool
    (planPcluster ctx.encode ctx.sha256 job.pc job.stored ⟨job.input, job.more⟩ used known ctx.dictSize spool)

def runJobs (presets : ℕ → Option UInt32 → Option UInt32) : List Job → ℕ → Option UInt32 → Bytes →
    Except Fault (List (ℕ × PClusterNode) × List Outcome × Bytes)
  | [], _, _, spool => .ok ([], [], spool)
  | job :: jobs, n, preset, spool => do
    let known := presets n preset
    let out ← runJob ctx used known job spool
    match out.1 with
    | .made node p =>
      let rest ← runJobs presets jobs (n + 1) (some p) out.2
      .ok ((job.k, node) :: rest.1, .verified :: rest.2.1, rest.2.2)
    | other =>
      let rest ← runJobs presets jobs (n + 1) known out.2
      .ok (rest.1, other.outcome :: rest.2.1, rest.2.2)

end

def SweepState.start (used : List Cover) : SweepState := ⟨used, [], none, [], [], [], .zero⟩

/-- `sweep_pclusters`, with the literals spooled. -/
def sweepPclusters (ctx : ImgCtx) (digest : ℕ → Bytes) (sched : Schedule) (preset : Option UInt32)
    (pcs : List PCluster) (set : SweepSet) (spool : Option Bytes) : Except SweepStop (Swept × Bytes) := do
  let s ← sweepItems ctx digest set.used (set.items pcs) (.start set.used)
  let done ← inRange (runJobs ctx set.used sched.preset (sched.order s.jobs) 0 preset (spool.getD []))
  let stats := s.stats.counts done.2.1
  .ok (⟨done.1, s.segs, s.failures, { stats with unverifiedMembers := s.failures.length }⟩, done.2.2)

/-! ### Covers, once more -/

/-- What moving the cursor does: covers are met up to the end of the pcluster. -/
structure CursorMoves (la stop : ℕ) (ahead : List Cover) (active : List Active) (failed : List ℕ)
    (out : List Cover × List Active × List ℕ) (met : List Cover) : Prop where
  split : ahead = met ++ out.1
  beyond : ∀ c ∈ out.1, stop ≤ c.pstart
  reached : ∀ c ∈ met, c.pstart < stop
  actives : ∀ a, a ∈ out.2.1 ↔
    a ∈ active ∨ ∃ c ∈ met, c.proved = false ∧ la ≤ c.pstart ∧ a = ⟨c, c.pstart, []⟩
  failures : ∀ i, i ∈ out.2.2 ↔
    i ∈ failed ∨ ∃ c ∈ met, c.proved = false ∧ c.pstart < la ∧ c.idx = i

theorem admitCovers_spec {la stop : ℕ} {ahead : List Cover}
    (hsort : ahead.Pairwise fun a b => a.pstart ≤ b.pstart) (active : List Active) (failed : List ℕ) :
    ∃ met, CursorMoves la stop ahead active failed (admitCovers la stop ahead active failed) met := by
  induction ahead generalizing active failed with
  | nil =>
    refine ⟨[], rfl, nofun, nofun, ?_, ?_⟩ <;> simp [admitCovers]
  | cons cv rest ih =>
    obtain ⟨hhead, hrest⟩ := List.pairwise_cons.mp hsort
    rw [admitCovers]
    split_ifs with hbeyond hproved hmissed
    · refine ⟨[], rfl, ?_, nofun, ?_, ?_⟩
      · intro c hc
        cases List.mem_cons.mp hc with
        | inl heq => exact heq ▸ hbeyond
        | inr hmem => exact hbeyond.trans (hhead c hmem)
      · simp
      · simp
    · obtain ⟨met, h⟩ := ih hrest active failed
      refine ⟨cv :: met, congrArg _ h.split, h.beyond, ?_, ?_, ?_⟩
      · exact List.forall_mem_cons.mpr ⟨Nat.lt_of_not_le hbeyond, h.reached⟩
      · intro a
        rw [h.actives]
        simp [hproved]
      · intro i
        rw [h.failures]
        simp [hproved]
    · obtain ⟨met, h⟩ := ih hrest active (failed.insert cv.idx)
      refine ⟨cv :: met, congrArg _ h.split, h.beyond, ?_, ?_, ?_⟩
      · exact List.forall_mem_cons.mpr ⟨Nat.lt_of_not_le hbeyond, h.reached⟩
      · intro a
        rw [h.actives]
        simp [Nat.not_le.mpr hmissed]
      · intro i
        rw [h.failures, List.mem_insert_iff]
        simp only [List.mem_cons, exists_eq_or_imp, hmissed, true_and,
          Bool.eq_false_iff.mpr hproved, eq_comm (a := i)]
        tauto
    · obtain ⟨met, h⟩ := ih hrest (active ++ [⟨cv, cv.pstart, []⟩]) failed
      refine ⟨cv :: met, congrArg _ h.split, h.beyond, ?_, ?_, ?_⟩
      · exact List.forall_mem_cons.mpr ⟨Nat.lt_of_not_le hbeyond, h.reached⟩
      · intro a
        rw [h.actives]
        simp only [List.mem_append, List.mem_cons, exists_eq_or_imp,
          Nat.le_of_not_lt hmissed, true_and, Bool.eq_false_iff.mpr hproved]
        tauto
      · intro i
        rw [h.failures]
        simp [hmissed]

/-- The stream's bytes at the cover's places are so far what has been hashed, and have been decoded. -/
structure Active.Ok (byte : ℕ → Except Fault UInt8) (decoded : ℕ → Prop) (a : Active) : Prop where
  start_le : a.cover.pstart ≤ a.pos
  pos_le : a.pos ≤ a.cover.stop
  length_hashed : a.hashed.length = a.pos - a.cover.pstart
  hashed_at : At byte a.cover.pstart a.hashed
  decoded : ∀ x, a.cover.pstart ≤ x → x < a.pos → decoded x

theorem Active.Ok.start {byte : ℕ → Except Fault UInt8} {decoded : ℕ → Prop} (c : Cover) :
    Active.Ok byte decoded ⟨c, c.pstart, []⟩ where
  start_le := Nat.le_refl _
  pos_le := Nat.le_add_right _ _
  length_hashed := (Nat.sub_self _).symm
  hashed_at := at_nil _
  decoded := fun _ hlo hhi => absurd hlo (Nat.not_le.mpr hhi)

/-- **What a pcluster has of a cover is hashed**, where it does not begin behind what is hashed already. -/
theorem Active.feed_spec {byte : ℕ → Except Fault UInt8} {decoded decoded' : ℕ → Prop} {a : Active} {la : ℕ}
    {bytes : Bytes} (h : a.Ok byte decoded) (hla : la ≤ a.pos) (hbytes : At byte la bytes)
    (hold : ∀ x, decoded x → decoded' x) (hnew : ∀ x, la ≤ x → x < la + bytes.length → decoded' x) :
    ∃ a', a.feed la bytes = .ok a' ∧ a'.cover = a.cover ∧ a'.Ok byte decoded' ∧
      a'.pos = max a.pos (min a.cover.stop (la + bytes.length)) := by
  have hstop := h.pos_le
  have hstart := h.start_le
  rw [Active.feed, checkedSub_of_le hla, checkedSub_of_le (by omega)]
  dsimp only [bind, Except.bind]
  split_ifs with hmore
  · have hpiece : slice bytes (a.pos - la) (min a.cover.stop (la + bytes.length) - la) =
        .ok ((bytes.drop (a.pos - la)).take (min a.cover.stop (la + bytes.length) - a.pos)) := by
      rw [slice, if_pos (by omega)]
      congr 2
      omega
    rw [hpiece]
    refine ⟨_, rfl, rfl, ?_, ?_⟩
    · have hlen : ((bytes.drop (a.pos - la)).take (min a.cover.stop (la + bytes.length) - a.pos)).length =
          min a.cover.stop (la + bytes.length) - a.pos := by
        rw [List.length_take, List.length_drop]
        omega
      constructor
      · show a.cover.pstart ≤ la + _
        omega
      · show la + _ ≤ a.cover.stop
        omega
      · show (a.hashed ++ _).length = la + _ - a.cover.pstart
        rw [List.length_append, hlen, h.length_hashed]
        omega
      · refine at_append.mpr ⟨h.hashed_at, ?_⟩
        intro i hi
        rw [hlen] at hi
        have hplace : a.cover.pstart + a.hashed.length + i = la + (a.pos - la + i) := by
          rw [h.length_hashed]
          omega
        rw [hplace, List.getElem_take, List.getElem_drop]
        exact hbytes _ _
      · intro x hlo hhi
        replace hhi : x < la + (min a.cover.stop (la + bytes.length) - la) := hhi
        by_cases hpast : x < a.pos
        · exact hold x (h.decoded x hlo hpast)
        · exact hnew x (by omega) (by omega)
    · show la + _ = _
      omega
  · refine ⟨a, rfl, rfl, ?_, by omega⟩
    exact { h with decoded := fun x hlo hhi => hold x (h.decoded x hlo hhi) }

/-- The stream's bytes at the cover's places hash to the digest of its member. -/
def Cover.Hashes (sha256 : Bytes → Bytes) (digest : ℕ → Bytes) (byte : ℕ → Except Fault UInt8) (c : Cover) :
    Prop :=
  ∃ bs : Bytes, bs.length = c.len ∧ At byte c.pstart bs ∧ sha256 bs = digest c.idx

/-- All of the cover has been decoded. -/
def Cover.Whole (decoded : ℕ → Prop) (c : Cover) : Prop := ∀ x, c.pstart ≤ x → x < c.stop → decoded x

section

variable {sha256 : Bytes → Bytes} {digest : ℕ → Bytes} {byte : ℕ → Except Fault UInt8}
  {decoded decoded' : ℕ → Prop} {la : ℕ} {bytes : Bytes}

/-- A cover that is all hashed, when its digest came out. -/
theorem Active.Ok.hashes {a : Active} (h : a.Ok byte decoded) (hdone : ¬ a.pos < a.cover.stop)
    (hdigest : sha256 a.hashed = digest a.cover.idx) : a.cover.Hashes sha256 digest byte := by
  have hle := h.pos_le
  have hlen := h.length_hashed
  have hstop : a.cover.stop = a.cover.pstart + a.cover.len := rfl
  exact ⟨a.hashed, by omega, h.hashed_at, hdigest⟩

theorem feedAll_failed {active : List Active} {failed : List ℕ} {out : List Active × List ℕ}
    (h : feedAll sha256 digest la bytes active failed = .ok out) : ∀ i ∈ failed, i ∈ out.2 := by
  induction active generalizing failed out with
  | nil =>
    cases h
    exact fun i => id
  | cons a rest ih =>
    obtain ⟨a', -, h⟩ := bind_eq_ok.mp h
    split_ifs at h with hgoes hdigest
    · obtain ⟨out', hout', h⟩ := bind_eq_ok.mp h
      cases h
      exact fun i hi => (ih hout' i hi : i ∈ out'.2)
    · exact ih h
    · exact fun i hi => ih h i (List.mem_insert_of_mem hi)

/-- **What a pcluster has of the covers is hashed.**  Those it does not finish go on behind it; the others
are whole, and hash to their digests or have failed. -/
theorem feedAll_spec {active : List Active} (hok : ∀ a ∈ active, a.Ok byte decoded ∧ la ≤ a.pos)
    (hbytes : At byte la bytes) (hold : ∀ x, decoded x → decoded' x)
    (hnew : ∀ x, la ≤ x → x < la + bytes.length → decoded' x) (failed : List ℕ) :
    ∃ out, feedAll sha256 digest la bytes active failed = .ok out ∧
      (∀ a' ∈ out.1, (∃ a ∈ active, a.cover = a'.cover) ∧ a'.Ok byte decoded' ∧ a'.pos < a'.cover.stop ∧
        la + bytes.length ≤ a'.pos) ∧
      ∀ a ∈ active, (∃ a' ∈ out.1, a'.cover = a.cover) ∨
        a.cover.Whole decoded' ∧ (a.cover.Hashes sha256 digest byte ∨ a.cover.idx ∈ out.2) := by
  induction active generalizing failed with
  | nil => exact ⟨([], failed), rfl, nofun, nofun⟩
  | cons a rest ih =>
    obtain ⟨⟨ha, hla⟩, hrest⟩ := List.forall_mem_cons.mp hok
    obtain ⟨a', hfeed, hcover, ha', hpos⟩ := Active.feed_spec ha hla hbytes hold hnew
    rw [feedAll, hfeed]
    dsimp only [bind, Except.bind]
    by_cases hgoes : a'.pos < a'.cover.stop
    · obtain ⟨out, hout, hkept, hall⟩ := ih hrest failed
      rw [if_pos hgoes, hout]
      refine ⟨_, rfl, ?_, ?_⟩
      · refine List.forall_mem_cons.mpr ⟨⟨⟨a, List.mem_cons_self, hcover.symm⟩, ha', hgoes, ?_⟩, ?_⟩
        · rw [hcover] at hgoes
          omega
        · intro b hb
          obtain ⟨⟨b', hb', heq⟩, hmore⟩ := hkept b hb
          exact ⟨⟨b', List.mem_cons_of_mem a hb', heq⟩, hmore⟩
      · refine List.forall_mem_cons.mpr ⟨.inl ⟨a', List.mem_cons_self, hcover⟩, ?_⟩
        intro b hb
        refine (hall b hb).imp_left ?_
        intro hopen
        obtain ⟨b', hb', heq⟩ := hopen
        exact ⟨b', List.mem_cons_of_mem a' hb', heq⟩
    · have hwhole : a.cover.Whole decoded' := by
        intro x hlo hhi
        rw [← hcover] at hlo hhi
        exact ha'.decoded x hlo (by omega)
      rw [if_neg hgoes]
      generalize hfailed : (if sha256 a'.hashed = digest a'.cover.idx then failed
        else failed.insert a'.cover.idx) = failed'
      obtain ⟨out, hout, hkept, hall⟩ := ih hrest failed'
      rw [hout]
      refine ⟨out, rfl, ?_, ?_⟩
      · intro b hb
        obtain ⟨⟨b', hb', heq⟩, hmore⟩ := hkept b hb
        exact ⟨⟨b', List.mem_cons_of_mem a hb', heq⟩, hmore⟩
      · refine List.forall_mem_cons.mpr ⟨.inr ⟨hwhole, ?_⟩, hall⟩
        split_ifs at hfailed with hdigest
        · exact .inl (hcover ▸ ha'.hashes hgoes hdigest)
        · refine .inr (feedAll_failed hout _ ?_)
          rw [← hfailed, hcover]
          exact List.mem_insert_self

/-- **A cover that begins to lag behind underflows.** -/
theorem feedAll_underflows {active : List Active} (h : ∃ a ∈ active, a.pos < la) (failed : List ℕ) :
    ∃ e, feedAll sha256 digest la bytes active failed = .error e := by
  induction active generalizing failed with
  | nil =>
    obtain ⟨a, ha, -⟩ := h
    cases ha
  | cons a rest ih =>
    rw [feedAll]
    cases hfeed : a.feed la bytes with
    | error e => exact ⟨e, rfl⟩
    | ok a' =>
      have hrest : ∃ b ∈ rest, b.pos < la := by
        obtain ⟨b, hb, hlt⟩ := h
        cases List.mem_cons.mp hb with
        | inl heq =>
          subst heq
          rw [Active.feed, checkedSub, if_neg (Nat.not_le.mpr hlt)] at hfeed
          cases hfeed
        | inr hmem => exact ⟨b, hmem, hlt⟩
      dsimp only [bind, Except.bind]
      split_ifs
      · obtain ⟨e, he⟩ := ih hrest failed
        exact ⟨e, by rw [he]⟩
      · exact ih hrest _
      · exact ih hrest _

end

/-! ### The loop -/

section

variable (ctx : ImgCtx) (digest : ℕ → Bytes)

/-- The place is among the decoded bytes of a pcluster that was needed. -/
def Decoded (items : List SweepItem) (x : ℕ) : Prop :=
  ∃ item ∈ items, item.need = true ∧ ∃ bytes, ctx.decodePcluster item.pc = .ok bytes ∧
    item.pc.la ≤ x ∧ x < item.pc.la + bytes.length

/-- A cover that came unproved, begins among the bytes decoded so far and has a gap in them before a
pcluster. -/
def Gap (used : List Cover) (front : List SweepItem) (pc : PCluster) (c : Cover) : Prop :=
  c ∈ used ∧ c.proved = false ∧ Decoded ctx front c.pstart ∧
    ∃ x, c.pstart ≤ x ∧ x < min c.stop pc.la ∧ ¬ Decoded ctx front x

/-- Nothing that the sweep reads for an item is at fault. -/
structure SweepItem.Passes (item : SweepItem) (rest : List SweepItem) : Prop where
  decodes : item.need = true → ∃ bytes, ctx.decodePcluster item.pc = .ok bytes
  feeds : item.need = true → item.elig = .encode → ∀ next ∈ rest.head?,
    ∃ bytes, ctx.decodePcluster next.pc = .ok bytes
  stored : item.need = true → item.elig ≠ .no → ∃ stored, readStored ctx.fs.view item.pc = .ok stored

/-- The sweep comes past some items to the others. -/
def ComesTo : List SweepItem → List SweepItem → Prop
  | [], _ => True
  | item :: mid, back => item.Passes ctx (mid ++ back) ∧ ComesTo mid back

/-- The pclusters come in order and decode to bytes of the stream, within their spans. -/
structure InStream (byte : ℕ → Except Fault UInt8) (items : List SweepItem) : Prop where
  inOrder : InOrder (fun item : SweepItem => item.pc.la) (fun item => item.pc.llen) items
  decodes : ∀ item ∈ items, ∀ bytes, ctx.decodePcluster item.pc = .ok bytes →
    bytes.length ≤ item.pc.llen ∧ At byte item.pc.la bytes

/-- A cover that the cursor is past. -/
inductive Settled (byte : ℕ → Except Fault UInt8) (front all : List SweepItem) (s : SweepState) (c : Cover) :
    Prop
  | opened (h : ∃ a ∈ s.active, a.cover = c)
  | done (whole : c.Whole (Decoded ctx front))
      (out : c.Hashes ctx.sha256 digest byte ∨ c.idx ∈ s.failed)
  /-- Its first bytes are never decoded. -/
  | missed (h : ¬ Decoded ctx all c.pstart) (failed : c.idx ∈ s.failed)

/-- What holds between two items of the loop. -/
structure SweepInv (byte : ℕ → Except Fault UInt8) (used : List Cover) (front rest : List SweepItem)
    (s : SweepState) : Prop where
  ahead : ∃ met, used = met ++ s.ahead ∧
    ∀ c ∈ met, c.proved = false → Settled ctx digest byte front (front ++ rest) s c
  beyond : ∀ c ∈ s.ahead, ∀ x, Decoded ctx front x → x < c.pstart
  active : ∀ a ∈ s.active, a.cover ∈ used ∧ a.cover.proved = false ∧ a.Ok byte (Decoded ctx front) ∧
    a.cover.pstart < a.pos ∧ a.pos < a.cover.stop ∧ ∀ x, Decoded ctx front x → x < a.pos
  cur : ∀ bytes, s.cur = some bytes → ∀ item ∈ rest.head?, ctx.decodePcluster item.pc = .ok bytes

end

section

variable {ctx : ImgCtx} {digest : ℕ → Bytes} {byte : ℕ → Except Fault UInt8} {used : List Cover}
  {front rest : List SweepItem} {item : SweepItem} {s : SweepState}

theorem Decoded.mono {items items' : List SweepItem} (h : ∀ i ∈ items, i ∈ items') {x : ℕ}
    (hx : Decoded ctx items x) : Decoded ctx items' x := by
  obtain ⟨i, hi, hmore⟩ := hx
  exact ⟨i, h i hi, hmore⟩

theorem decoded_concat {x : ℕ} :
    Decoded ctx (front ++ [item]) x ↔ Decoded ctx front x ∨ Decoded ctx [item] x := by
  constructor
  · intro h
    obtain ⟨i, hi, hmore⟩ := h
    cases List.mem_append.mp hi with
    | inl hi => exact .inl ⟨i, hi, hmore⟩
    | inr hi => exact .inr ⟨i, hi, hmore⟩
  · intro h
    cases h with
    | inl h => exact h.mono fun i => List.mem_append_left _
    | inr h => exact h.mono fun i => List.mem_append_right _

theorem decoded_singleton {bytes : Bytes} (hneed : item.need = true)
    (hbytes : ctx.decodePcluster item.pc = .ok bytes) {x : ℕ} :
    Decoded ctx [item] x ↔ item.pc.la ≤ x ∧ x < item.pc.la + bytes.length := by
  constructor
  · intro h
    obtain ⟨i, hi, -, bytes', hbytes', hx⟩ := h
    rw [List.mem_singleton.mp hi, hbytes] at hbytes'
    cases hbytes'
    rw [List.mem_singleton.mp hi] at hx
    exact hx
  · intro h
    exact ⟨item, List.mem_singleton_self item, hneed, bytes, hbytes, h⟩

/-- What has been decoded lies before the item. -/
theorem InStream.before (h : InStream ctx byte (front ++ item :: rest)) {x : ℕ} (hx : Decoded ctx front x) :
    x < item.pc.la := by
  obtain ⟨i, hi, -, bytes, hbytes, -, hhi⟩ := hx
  have hlen := (h.decodes i (List.mem_append_left _ hi) bytes hbytes).1
  have horder := (List.pairwise_append.mp h.inOrder).2.2 i hi item List.mem_cons_self
  dsimp only at horder
  omega

/-- What is decoded later lies behind the item. -/
theorem InStream.behind (h : InStream ctx byte (front ++ item :: rest)) {x : ℕ} (hx : Decoded ctx rest x) :
    item.pc.la + item.pc.llen ≤ x := by
  obtain ⟨i, hi, -, bytes, hbytes, hlo, -⟩ := hx
  have horder := (List.pairwise_cons.mp (List.pairwise_append.mp h.inOrder).2.1).1 i hi
  dsimp only at horder
  omega

/-- **An open cover lags behind just when some cover has a gap.** -/
theorem SweepInv.lags_iff (h : SweepInv ctx digest byte used front (item :: rest) s) :
    (∃ a ∈ s.active, a.pos < item.pc.la) ↔ ∃ c, Gap ctx used front item.pc c := by
  constructor
  · intro hlag
    obtain ⟨a, ha, hlt⟩ := hlag
    obtain ⟨hused, hproved, hok, hpos, hstop, hbehind⟩ := h.active a ha
    refine ⟨a.cover, hused, hproved, hok.decoded _ le_rfl hpos, a.pos, hok.start_le, by omega, ?_⟩
    exact fun hx => Nat.lt_irrefl _ (hbehind _ hx)
  · intro hgap
    obtain ⟨c, hused, hproved, hstart, x, hlo, hhi, hnot⟩ := hgap
    obtain ⟨met, hsplit, hsettled⟩ := h.ahead
    have hmet : c ∈ met := by
      rw [hsplit] at hused
      cases List.mem_append.mp hused with
      | inl hmem => exact hmem
      | inr hahead => exact absurd (h.beyond c hahead _ hstart) (Nat.lt_irrefl _)
    cases hsettled c hmet hproved with
    | opened hopen =>
      obtain ⟨a, ha, rfl⟩ := hopen
      refine ⟨a, ha, ?_⟩
      by_contra hle
      obtain ⟨-, -, hok, -⟩ := h.active a ha
      exact hnot (hok.decoded x hlo (by omega))
    | done whole out => exact absurd (whole x hlo (by omega)) hnot
    | missed hmiss failed => exact absurd (hstart.mono fun i => List.mem_append_left _) hmiss

/-- Hashing emits nothing. -/
theorem sweepCovers_same {la : ℕ} {bytes : Bytes} {s1 : SweepState}
    (h : sweepCovers ctx digest la bytes s = .ok s1) :
    s1.cur = none ∧ s1.jobs = s.jobs ∧ s1.segs = s.segs ∧ s1.stats = s.stats := by
  obtain ⟨fed, -, h⟩ := bind_eq_ok.mp h
  cases h
  exact ⟨rfl, rfl, rfl, rfl⟩

/-- Where a cover has a gap, hashing underflows. -/
theorem sweepCovers_underflows (h : SweepInv ctx digest byte used front (item :: rest) s)
    (hsort : used.Pairwise fun a b => a.pstart ≤ b.pstart) (hgap : ∃ c, Gap ctx used front item.pc c)
    (bytes : Bytes) : ∃ e, sweepCovers ctx digest item.pc.la bytes s = .error e := by
  obtain ⟨met, hsplit, -⟩ := h.ahead
  rw [hsplit] at hsort
  obtain ⟨_, hadmits⟩ := @admitCovers_spec item.pc.la (item.pc.la + bytes.length) s.ahead
    (List.pairwise_append.mp hsort).2.1 s.active s.failed
  obtain ⟨a, ha, hlt⟩ := h.lags_iff.mpr hgap
  obtain ⟨e, he⟩ := @feedAll_underflows ctx.sha256 digest item.pc.la bytes _
    ⟨a, (hadmits.actives a).mpr (.inl ha), hlt⟩
    (admitCovers item.pc.la (item.pc.la + bytes.length) s.ahead s.active s.failed).2.2
  refine ⟨e, ?_⟩
  rw [sweepCovers, he]
  rfl

/-- **The covers over a pcluster**, when none has a gap. -/
theorem sweepCovers_inv (h : SweepInv ctx digest byte used front (item :: rest) s)
    (hstream : InStream ctx byte (front ++ item :: rest))
    (hsort : used.Pairwise fun a b => a.pstart ≤ b.pstart) (hneed : item.need = true) {bytes : Bytes}
    (hbytes : ctx.decodePcluster item.pc = .ok bytes) (hno : ¬ ∃ c, Gap ctx used front item.pc c) :
    ∃ s1, sweepCovers ctx digest item.pc.la bytes s = .ok s1 ∧
      SweepInv ctx digest byte used (front ++ [item]) rest s1 := by
  obtain ⟨old, hsplit, hsettled⟩ := h.ahead
  have hsort' := hsort
  rw [hsplit] at hsort'
  obtain ⟨met, hadmits⟩ := @admitCovers_spec item.pc.la (item.pc.la + bytes.length) s.ahead
    (List.pairwise_append.mp hsort').2.1 s.active s.failed
  obtain ⟨hlen, hat⟩ := hstream.decodes item (List.mem_append_right _ List.mem_cons_self) bytes hbytes
  have hold : ∀ x, Decoded ctx front x → Decoded ctx (front ++ [item]) x := fun x hx =>
    decoded_concat.mpr (.inl hx)
  have hnew : ∀ x, item.pc.la ≤ x → x < item.pc.la + bytes.length → Decoded ctx (front ++ [item]) x :=
    fun x hlo hhi => decoded_concat.mpr (.inr ((decoded_singleton hneed hbytes).mpr ⟨hlo, hhi⟩))
  have hlag : ∀ a ∈ s.active, item.pc.la ≤ a.pos := by
    intro a ha
    by_contra hlt
    exact hno (h.lags_iff.mp ⟨a, ha, Nat.lt_of_not_le hlt⟩)
  generalize hout : admitCovers item.pc.la (item.pc.la + bytes.length) s.ahead s.active s.failed = out
    at hadmits
  have hok : ∀ a ∈ out.2.1, a.Ok byte (Decoded ctx front) ∧ item.pc.la ≤ a.pos := by
    intro a ha
    cases (hadmits.actives a).mp ha with
    | inl hmem => exact ⟨(h.active a hmem).2.2.1, hlag a hmem⟩
    | inr hfresh =>
      obtain ⟨c, -, -, hla, rfl⟩ := hfresh
      exact ⟨Active.Ok.start c, hla⟩
  obtain ⟨fed, hfed, hkept, hall⟩ := @feedAll_spec ctx.sha256 digest byte _ _ item.pc.la bytes _ hok hat hold
    hnew out.2.2
  have hfailed := feedAll_failed hfed
  have hedge : ∀ x, Decoded ctx (front ++ [item]) x → x < item.pc.la + bytes.length := by
    intro x hx
    cases decoded_concat.mp hx with
    | inl hx => exact (hstream.before hx).trans_le (Nat.le_add_right _ _)
    | inr hx => exact ((decoded_singleton hneed hbytes).mp hx).2
  refine ⟨{ s with ahead := out.1, active := fed.1, failed := fed.2, cur := none }, ?_, ?_⟩
  · rw [sweepCovers, hout, hfed]
    rfl
  have hassoc : front ++ [item] ++ rest = front ++ item :: rest := by
    rw [List.append_assoc, List.singleton_append]
  have hactive : ∀ a ∈ out.2.1, Settled ctx digest byte (front ++ [item]) (front ++ item :: rest)
      { s with ahead := out.1, active := fed.1, failed := fed.2, cur := none } a.cover := by
    intro a ha
    cases hall a ha with
    | inl hopen => exact .opened hopen
    | inr hdone => exact .done hdone.1 hdone.2
  constructor
  · refine ⟨old ++ met, ?_, ?_⟩
    · rw [hsplit, hadmits.split, List.append_assoc]
    · rw [hassoc]
      intro c hc hproved
      cases List.mem_append.mp hc with
      | inl hc =>
        cases hsettled c hc hproved with
        | opened hopen =>
          obtain ⟨a, ha, rfl⟩ := hopen
          exact hactive a ((hadmits.actives a).mpr (.inl ha))
        | done whole hout =>
          refine .done (fun x hlo hhi => hold x (whole x hlo hhi)) (hout.imp_right fun hmem => ?_)
          exact hfailed _ ((hadmits.failures _).mpr (.inl hmem))
        | missed hmiss hmem =>
          exact .missed hmiss (hfailed _ ((hadmits.failures _).mpr (.inl hmem)))
      | inr hc =>
        by_cases hla : item.pc.la ≤ c.pstart
        · exact hactive ⟨c, c.pstart, []⟩ ((hadmits.actives _).mpr (.inr ⟨c, hc, hproved, hla, rfl⟩))
        · -- before the item, but behind all that was decoded
          refine .missed ?_ (hfailed _ ((hadmits.failures _).mpr (.inr ⟨c, hc, hproved, by omega, rfl⟩)))
          intro hdecoded
          have hahead : c ∈ s.ahead := by
            rw [hadmits.split]
            exact List.mem_append_left _ hc
          obtain ⟨i, hi, hmore⟩ := hdecoded
          cases List.mem_append.mp hi with
          | inl hi => exact absurd (h.beyond c hahead _ ⟨i, hi, hmore⟩) (Nat.lt_irrefl _)
          | inr hi =>
            cases List.mem_cons.mp hi with
            | inl heq =>
              subst heq
              obtain ⟨-, _, -, hlo, -⟩ := hmore
              omega
            | inr hi =>
              have hbehind := hstream.behind ⟨i, hi, hmore⟩
              omega
  · intro c hc x hx
    exact (hedge x hx).trans_le (hadmits.beyond c hc)
  · intro a' ha'
    obtain ⟨⟨a, ha, hcover⟩, haok, hgoes, hpast⟩ := hkept a' ha'
    have hbefore : a.cover ∈ used ∧ a.cover.proved = false ∧ a.cover.pstart < item.pc.la + bytes.length := by
      cases (hadmits.actives a).mp ha with
      | inl hmem =>
        obtain ⟨hused, hproved, hfront, hpos, -⟩ := h.active a hmem
        have hdec := hstream.before (hfront.decoded _ le_rfl hpos)
        exact ⟨hused, hproved, by omega⟩
      | inr hfresh =>
        obtain ⟨c, hc, hproved, -, rfl⟩ := hfresh
        refine ⟨?_, hproved, hadmits.reached c hc⟩
        rw [hsplit, hadmits.split]
        exact List.mem_append_right _ (List.mem_append_left _ hc)
    rw [← hcover] at hgoes ⊢
    refine ⟨hbefore.1, hbefore.2.1, haok, by omega, hgoes, ?_⟩
    exact fun x hx => (hedge x hx).trans_le hpast
  · exact nofun

end

section

variable {ctx : ImgCtx} {digest : ℕ → Bytes} {byte : ℕ → Except Fault UInt8} {used : List Cover}
  {front rest : List SweepItem} {item : SweepItem} {s : SweepState}

theorem encoderInput_spec (ctx : ImgCtx) (bytes : Bytes) (rest : List SweepItem) :
    match ctx.encoderInput bytes rest with
    | .error _ => ¬ ∀ next ∈ rest.head?, ∃ bytes, ctx.decodePcluster next.pc = .ok bytes
    | .ok out => (∀ next ∈ rest.head?, ∃ bytes, ctx.decodePcluster next.pc = .ok bytes) ∧
      ∀ bytes, out.2.2 = some bytes → ∀ next ∈ rest.head?, ctx.decodePcluster next.pc = .ok bytes := by
  cases rest with
  | nil => exact ⟨nofun, nofun⟩
  | cons next rest =>
    rw [ImgCtx.encoderInput]
    cases hnext : ctx.decodePcluster next.pc with
    | error e =>
      intro hall
      obtain ⟨bytes', hbytes'⟩ := hall next rfl
      rw [hnext] at hbytes'
      cases hbytes'
    | ok ahead =>
      constructor
      · intro next' heq
        cases heq
        exact ⟨ahead, hnext⟩
      · intro bytes' heq next' hnext'
        cases heq
        cases hnext'
        exact hnext

/-- **What an eligible pcluster is made into** leaves the covers as they are. -/
theorem sweepEligible_spec {bytes : Bytes} (hbytes : ctx.decodePcluster item.pc = .ok bytes)
    (hcur : s.cur = none) :
    match sweepEligible ctx used item rest bytes s with
    | .error stop => (∃ e, stop = .fault e) ∧ (item.need = true → ¬ item.Passes ctx rest)
    | .ok s' => item.Passes ctx rest ∧ s'.ahead = s.ahead ∧ s'.active = s.active ∧
      s'.failed = s.failed ∧
      ∀ bytes, s'.cur = some bytes → ∀ next ∈ rest.head?, ctx.decodePcluster next.pc = .ok bytes := by
  have hnone : ∀ bytes, s.cur = some bytes → ∀ next ∈ rest.head?, ctx.decodePcluster next.pc = .ok bytes := by
    rw [hcur]
    exact nofun
  have hstuck : ∀ e, readStored ctx.fs.view item.pc = .error e → item.elig ≠ .no → item.need = true →
      ¬ item.Passes ctx rest := by
    intro e he helig hneed hpass
    obtain ⟨stored, heq⟩ := hpass.stored hneed helig
    rw [he] at heq
    cases heq
  rw [sweepEligible]
  cases helig : item.elig with
  | no =>
    refine ⟨⟨fun _ => ⟨bytes, hbytes⟩, ?_, ?_⟩, rfl, rfl, rfl, hnone⟩
    · intro _ heq
      rw [helig] at heq
      cases heq
    · intro _ hne
      exact absurd helig hne
  | encode =>
    have hinput := encoderInput_spec ctx bytes rest
    dsimp only
    revert hinput
    cases ctx.encoderInput bytes rest with
    | error e =>
      intro hinput
      exact ⟨⟨e, rfl⟩, fun hneed hpass => hinput (hpass.feeds hneed helig)⟩
    | ok out =>
      intro hinput
      cases hstored : readStored ctx.fs.view item.pc with
      | error e => exact ⟨⟨e, rfl⟩, hstuck e hstored (by rw [helig]; exact nofun)⟩
      | ok stored =>
        exact ⟨⟨fun _ => ⟨bytes, hbytes⟩, fun _ _ => hinput.1, fun _ _ => ⟨stored, hstored⟩⟩, rfl, rfl, rfl,
          hinput.2⟩
  | verbatim =>
    dsimp only
    cases hstored : readStored ctx.fs.view item.pc with
    | error e => exact ⟨⟨e, rfl⟩, hstuck e hstored (by rw [helig]; exact nofun)⟩
    | ok stored =>
      refine ⟨⟨fun _ => ⟨bytes, hbytes⟩, ?_, fun _ _ => ⟨stored, hstored⟩⟩, rfl, rfl, rfl, hnone⟩
      intro _ heq
      rw [helig] at heq
      cases heq

end

/-- The sweep underflows at an item: it can decode it, and a cover has a gap before it. -/
def UnderflowsAt (ctx : ImgCtx) (used : List Cover) (front : List SweepItem) (item : SweepItem) : Prop :=
  item.need = true ∧ (∃ bytes, ctx.decodePcluster item.pc = .ok bytes) ∧
    ∃ c, Gap ctx used front item.pc c

/-- The sweep comes to an item where it underflows. -/
def Underflows (ctx : ImgCtx) (used : List Cover) (front rest : List SweepItem) : Prop :=
  ∃ mid item back, rest = mid ++ item :: back ∧ ComesTo ctx mid (item :: back) ∧
    UnderflowsAt ctx used (front ++ mid) item

section

variable {ctx : ImgCtx} {digest : ℕ → Bytes} {byte : ℕ → Except Fault UInt8} {used : List Cover}
  {front rest : List SweepItem} {item : SweepItem} {s : SweepState}

theorem underflows_cons :
    Underflows ctx used front (item :: rest) ↔
      UnderflowsAt ctx used front item ∨ item.Passes ctx rest ∧ Underflows ctx used (front ++ [item]) rest := by
  constructor
  · intro h
    obtain ⟨mid, q, back, hsplit, hreached, hat⟩ := h
    cases mid with
    | nil =>
      cases hsplit
      rw [List.append_nil] at hat
      exact .inl hat
    | cons m mid =>
      cases hsplit
      refine .inr ⟨hreached.1, mid, q, back, rfl, hreached.2, ?_⟩
      rwa [List.append_assoc, List.singleton_append]
  · intro h
    cases h with
    | inl hat =>
      refine ⟨[], item, rest, rfl, trivial, ?_⟩
      rwa [List.append_nil]
    | inr h =>
      obtain ⟨hpass, mid, q, back, rfl, hreached, hat⟩ := h
      refine ⟨item :: mid, q, back, rfl, ⟨hpass, hreached⟩, ?_⟩
      rwa [List.append_assoc, List.singleton_append] at hat

/-- An item that was not needed changes nothing. -/
theorem SweepInv.skip (h : SweepInv ctx digest byte used front (item :: rest) s) (hneed : item.need = false) :
    SweepInv ctx digest byte used (front ++ [item]) rest { s with cur := none } := by
  have hsame : Decoded ctx (front ++ [item]) = Decoded ctx front := by
    funext x
    refine propext ⟨fun hx => ?_, fun hx => decoded_concat.mpr (.inl hx)⟩
    cases decoded_concat.mp hx with
    | inl hx => exact hx
    | inr hx =>
      obtain ⟨i, hi, htrue, -⟩ := hx
      rw [List.mem_singleton.mp hi, hneed] at htrue
      cases htrue
  obtain ⟨met, hsplit, hsettled⟩ := h.ahead
  constructor
  · refine ⟨met, hsplit, ?_⟩
    rw [List.append_assoc, List.singleton_append]
    intro c hc hproved
    cases hsettled c hc hproved with
    | opened hopen => exact .opened hopen
    | done whole out => exact .done (hsame ▸ whole) out
    | missed hmiss failed => exact .missed hmiss failed
  · rw [hsame]
    exact h.beyond
  · rw [hsame]
    exact h.active
  · exact nofun

/-- **One item.** -/
theorem sweepItem_spec (h : SweepInv ctx digest byte used front (item :: rest) s)
    (hstream : InStream ctx byte (front ++ item :: rest))
    (hsort : used.Pairwise fun a b => a.pstart ≤ b.pstart) :
    match sweepItem ctx digest used item rest s with
    | .error .range => UnderflowsAt ctx used front item
    | .error _ => ¬ UnderflowsAt ctx used front item ∧ ¬ item.Passes ctx rest
    | .ok s' => ¬ UnderflowsAt ctx used front item ∧ item.Passes ctx rest ∧
      SweepInv ctx digest byte used (front ++ [item]) rest s' := by
  rw [sweepItem]
  cases hneed : item.need with
  | false =>
    refine ⟨fun hat => ?_, ⟨?_, ?_, ?_⟩, h.skip hneed⟩
    · rw [UnderflowsAt, hneed] at hat
      cases hat.1
    all_goals
      rw [hneed]
      exact nofun
  | true =>
    have hitem : ctx.itemBytes s item.pc = ctx.decodePcluster item.pc := by
      rw [ImgCtx.itemBytes]
      cases hcur : s.cur with
      | none => rfl
      | some bytes => exact (h.cur bytes hcur item rfl).symm
    rw [hitem, if_pos rfl]
    cases hbytes : ctx.decodePcluster item.pc with
    | error e =>
      constructor
      · intro hat
        obtain ⟨-, ⟨bytes, hok⟩, -⟩ := hat
        rw [hbytes] at hok
        cases hok
      · intro hpass
        obtain ⟨bytes, hok⟩ := hpass.decodes hneed
        rw [hbytes] at hok
        cases hok
    | ok bytes =>
      by_cases hgap : ∃ c, Gap ctx used front item.pc c
      · obtain ⟨e, he⟩ := sweepCovers_underflows h hsort hgap bytes
        dsimp only [faulty, bind, Except.bind]
        rw [he]
        exact ⟨hneed, ⟨bytes, hbytes⟩, hgap⟩
      · obtain ⟨s1, hs1, hinv⟩ := sweepCovers_inv h hstream hsort hneed hbytes hgap
        have hcur := (sweepCovers_same hs1).1
        have hno : ¬ UnderflowsAt ctx used front item := fun hat => hgap hat.2.2
        have hspec := @sweepEligible_spec ctx used rest item s1 bytes hbytes hcur
        dsimp only [faulty, bind, Except.bind]
        rw [hs1]
        dsimp only [inRange]
        revert hspec
        cases sweepEligible ctx used item rest bytes s1 with
        | error stop =>
          intro hspec
          obtain ⟨⟨e, rfl⟩, hstuck⟩ := hspec
          exact ⟨hno, hstuck hneed⟩
        | ok s2 =>
          intro hspec
          obtain ⟨hpass, hahead, hactive, hfailed, hnext⟩ := hspec
          refine ⟨hno, hpass, ?_⟩
          obtain ⟨met, hsplit, hsettled⟩ := hinv.ahead
          constructor
          · refine ⟨met, hahead ▸ hsplit, ?_⟩
            intro c hc hproved
            cases hsettled c hc hproved with
            | opened hopen => exact .opened (hactive ▸ hopen)
            | done whole out => exact .done whole (hfailed ▸ out)
            | missed hmiss failed => exact .missed hmiss (hfailed ▸ failed)
          · rw [hahead]
            exact hinv.beyond
          · rw [hactive]
            exact hinv.active
          · exact hnext

/-- **The whole loop**: it underflows just where it comes to an item at which a cover has a gap, and
otherwise settles the covers. -/
theorem sweepItems_spec (h : SweepInv ctx digest byte used front rest s)
    (hstream : InStream ctx byte (front ++ rest)) (hsort : used.Pairwise fun a b => a.pstart ≤ b.pstart) :
    match sweepItems ctx digest used rest s with
    | .error .range => Underflows ctx used front rest
    | .error _ => ¬ Underflows ctx used front rest
    | .ok s' => ¬ Underflows ctx used front rest ∧ SweepInv ctx digest byte used (front ++ rest) [] s' := by
  induction rest generalizing front s with
  | nil =>
    rw [List.append_nil]
    refine ⟨fun hunder => ?_, h⟩
    obtain ⟨mid, item, back, hsplit, -⟩ := hunder
    exact absurd hsplit (by simp)
  | cons item rest ih =>
    have hspec := sweepItem_spec h hstream hsort
    have hassoc : front ++ [item] ++ rest = front ++ item :: rest := by
      rw [List.append_assoc, List.singleton_append]
    rw [sweepItems, underflows_cons]
    revert hspec
    cases sweepItem ctx digest used item rest s with
    | error stop =>
      cases stop with
      | range => exact .inl
      | early why => exact why.elim
      | fault e =>
        intro hspec hunder
        cases hunder with
        | inl hat => exact hspec.1 hat
        | inr hlater => exact hspec.2 hlater.1
    | ok s1 =>
      intro hspec
      obtain ⟨hno, hpass, hinv⟩ := hspec
      have hrest := ih hinv (hassoc ▸ hstream)
      rw [hassoc] at hrest
      show match sweepItems ctx digest used rest s1 with
        | .error .range => _
        | .error _ => _
        | .ok s' => _
      revert hrest
      cases sweepItems ctx digest used rest s1 with
      | error stop =>
        cases stop with
        | range => exact fun hrest => .inr ⟨hpass, hrest⟩
        | early why => exact why.elim
        | fault e =>
          intro hrest hunder
          cases hunder with
          | inl hat => exact hno hat
          | inr hlater => exact hrest hlater.2
      | ok s' =>
        intro hrest
        refine ⟨fun hunder => ?_, hrest.2⟩
        cases hunder with
        | inl hat => exact hno hat
        | inr hlater => exact hrest.1 hlater.2

end

/-! ### The packed stream -/

/-- Decoding gives no more than the span. -/
theorem decodeRaw_length_le {fs : Erofs} {z : Decoders} {pa plen llen : ℕ} {alg : Alg} {isPartial : Bool}
    {bs : Bytes} (h : fs.decodeRaw z pa plen llen alg isPartial = .ok bs) : bs.length ≤ llen := by
  obtain ⟨_, hensure, h⟩ := bind_eq_ok.mp h
  obtain ⟨input, -, h⟩ := bind_eq_ok.mp h
  have hllen := (ensure_eq_ok.mp hensure).2
  cases alg with
  | shifted =>
    cases h
    exact List.length_take_le _ _
  | interlaced skip =>
    obtain ⟨_, -, h⟩ := bind_eq_ok.mp h
    obtain ⟨front, hfront, h⟩ := bind_eq_ok.mp h
    obtain ⟨back, hback, h⟩ := bind_eq_ok.mp h
    cases h
    rw [slice] at hfront hback
    split_ifs at hfront hback
    cases hfront
    cases hback
    rw [List.length_append, List.length_take, List.length_take]
    omega
  | lz4 => exact ((lz4Loop_exact hllen (by omega)).2 bs h).le
  | lzma => exact ((microlzmaDecode_exact _ _ _ _).2 bs h).le
  | deflate =>
    dsimp only at h
    split at h
    · cases h
    · obtain ⟨_, -, h⟩ := bind_eq_ok.mp h
      cases h
      exact (length_written _ _).le
  | zstd =>
    dsimp only at h
    split at h
    · cases h
    · cases h
      exact (length_written _ _).le

/-- **A pcluster of the packed inode decodes to bytes of its stream.** -/
theorem decodePcluster_at {ctx : ImgCtx} {plan : ZPlan} (hplan : ctx.fs.packedPlan = .ok plan)
    {pc : PCluster} {bytes : Bytes} (h : ctx.decodePcluster pc = .ok bytes) :
    bytes.length ≤ pc.llen ∧ At (ctx.fs.packedByte ctx.z) pc.la bytes := by
  have htiled := (packedPlan_wellTiled hplan).1
  have hexts : ctx.fs.packedExts = plan.exts := by
    rw [Erofs.packedExts, hplan]
  rw [ImgCtx.decodePcluster, hexts] at h
  split at h
  · next la llen pa plen alg isPartial hfind =>
    have hmem := List.mem_of_find?_eq_some hfind
    have hpc : (⟨la, llen, .raw pa plen alg isPartial⟩ : ZExt).pcluster = some pc := by
      simpa using List.find?_some hfind
    obtain ⟨hla, hllen⟩ := ZExt.pcluster_span hpc
    dsimp only at hla hllen
    have hlen := decodeRaw_length_le h
    refine ⟨hllen ▸ hlen, fun i hi => ?_⟩
    have hext : plan.extAt (pc.la + i) = some ⟨la, llen, .raw pa plen alg isPartial⟩ := by
      refine (htiled.tiles.find?_iff (Nat.zero_le _)).mpr ⟨hmem, ?_⟩
      dsimp only
      omega
    have hend := (Tiles.bounds htiled.tiles hmem).2
    dsimp only at hend
    have hbyte : byteOf (.ok bytes) i = .ok bytes[i] := by
      rw [byteOf, List.getElem?_eq_getElem hi]
      rfl
    rw [Erofs.packedByte, hplan]
    dsimp only
    rw [if_pos (by omega), hext]
    show byteOf (ctx.fs.decodeRaw ctx.z pa plen llen alg isPartial) (pc.la + i - la) = _
    rw [h, hla, Nat.add_sub_cancel_left, hbyte]
  · cases h

theorem mem_items {set : SweepSet} {pcs : List PCluster} {item : SweepItem} (h : item ∈ set.items pcs) :
    pcs[item.k]? = some item.pc := by
  obtain ⟨x, hx, rfl⟩ := List.mem_map.mp h
  have hget := List.mem_zipIdx_iff_getElem?.mp hx
  rw [List.getElem?_zip_eq_some] at hget
  exact hget.1

theorem map_fst_zip_sublist {α β : Type} (xs : List α) (ys : List β) :
    ((xs.zip ys).map Prod.fst).Sublist xs := by
  induction xs generalizing ys with
  | nil => exact List.nil_sublist _
  | cons x xs ih =>
    cases ys with
    | nil => exact List.nil_sublist _
    | cons y ys => exact (ih ys).cons_cons x

/-- The items come in the order of the pclusters. -/
theorem items_pairwise {set : SweepSet} {pcs : List PCluster} {R : PCluster → PCluster → Prop}
    (h : pcs.Pairwise R) : (set.items pcs).Pairwise fun a b => R a.pc b.pc := by
  have hmap : (set.items pcs).map SweepItem.pc = (pcs.zip (set.eligible.zip set.need)).map Prod.fst := by
    rw [SweepSet.items, List.map_map]
    show (List.zipIdx _).map (Prod.fst ∘ Prod.fst) = _
    rw [← List.map_map, List.zipIdx_map_fst]
  rw [← List.pairwise_map, hmap]
  exact h.sublist (map_fst_zip_sublist _ _)

theorem inStream_items {ctx : ImgCtx} {plan : ZPlan} (hplan : ctx.fs.packedPlan = .ok plan)
    (set : SweepSet) : InStream ctx (ctx.fs.packedByte ctx.z) (set.items plan.ownPclusters) where
  inOrder := items_pairwise (ownPclusters_order (packedPlan_wellTiled hplan).1.tiles).inOrder
  decodes := fun _ _ _ hbytes => decodePcluster_at hplan hbytes

/-! ### What is emitted -/

theorem splicePlain_slices {pc : PCluster} {logical stored : Bytes} {covers : List Cover} :
    ∀ s ∈ (splicePlain pc logical stored covers).2, s.Slices (covers.map Cover.idx) := by
  rw [splicePlain]
  split_ifs with hverbatim
  · exact fun s hs => spliceSpan_slices hs
  · intro s hs
    replace hs : s ∈ spliceRotated pc logical stored covers := hs
    rw [spliceRotated] at hs
    split at hs
    · cases hs
    · dsimp only at hs
      split_ifs at hs with hguard hturned
      · cases hs
      · cases hs
      · cases List.mem_append.mp hs with
        | inl hs => exact spliceSpan_slices hs
        | inr hs => exact spliceSpan_slices hs

def SweepItem.Eligible (item : SweepItem) : Bool := item.need && item.elig ≠ .no

/-- What the loop has emitted: each eligible pcluster is a job or has been counted. -/
structure SweepEmits (pcs : List PCluster) (used : List Cover) (front : List SweepItem) (s : SweepState) :
    Prop where
  jobs : ∀ job ∈ s.jobs, job.stored.length = job.pc.plen ∧ pcs[job.k]? = some job.pc
  segs : ∀ seg ∈ s.segs, seg.Slices (used.map Cover.idx)
  counted : s.stats.handled + s.jobs.length = (front.filter SweepItem.Eligible).length

theorem SweepEmits.start (pcs : List PCluster) (used : List Cover) : SweepEmits pcs used [] (.start used) where
  jobs := by
    intro job hjob
    cases hjob
  segs := by
    intro seg hseg
    cases hseg
  counted := rfl

theorem sweepItem_emits {ctx : ImgCtx} {digest : ℕ → Bytes} {used : List Cover} {pcs : List PCluster}
    {front rest : List SweepItem} {item : SweepItem} {s s' : SweepState} (h : SweepEmits pcs used front s)
    (hpc : pcs[item.k]? = some item.pc) (hs : sweepItem ctx digest used item rest s = .ok s') :
    SweepEmits pcs used (front ++ [item]) s' := by
  have hskip : item.Eligible = false → (front ++ [item]).filter SweepItem.Eligible =
      front.filter SweepItem.Eligible := by
    intro hno
    rw [List.filter_append, List.filter_singleton, hno]
    exact List.append_nil _
  have htake : item.Eligible = true → ((front ++ [item]).filter SweepItem.Eligible).length =
      (front.filter SweepItem.Eligible).length + 1 := by
    intro hyes
    rw [List.filter_append, List.filter_singleton, hyes]
    exact List.length_append
  have hcounted := h.counted
  rw [sweepItem] at hs
  cases hneed : item.need with
  | false =>
    rw [hneed] at hs
    cases hs
    refine ⟨h.jobs, h.segs, ?_⟩
    rw [hskip (by rw [SweepItem.Eligible, hneed, Bool.false_and])]
    exact hcounted
  | true =>
    rw [hneed, if_pos rfl] at hs
    obtain ⟨bytes, -, hs⟩ := faulty_bind_eq_ok.mp hs
    obtain ⟨s1, hs1, hs⟩ := inRange_bind_eq_ok.mp hs
    obtain ⟨-, hjobs, hsegs, hstats⟩ := sweepCovers_same hs1
    rw [← hjobs, ← hstats] at hcounted
    rw [sweepEligible] at hs
    cases helig : item.elig with
    | no =>
      rw [helig] at hs
      cases hs
      refine ⟨hjobs ▸ h.jobs, hsegs ▸ h.segs, ?_⟩
      rw [hskip (by rw [SweepItem.Eligible, helig]; exact Bool.and_false _)]
      exact hcounted
    | encode =>
      rw [helig] at hs
      obtain ⟨out, -, hs⟩ := faulty_bind_eq_ok.mp hs
      obtain ⟨stored, hstored, hs⟩ := faulty_bind_eq_ok.mp hs
      cases hs
      refine ⟨?_, hsegs ▸ h.segs, ?_⟩
      · intro job hjob
        cases List.mem_append.mp hjob with
        | inl hold => exact h.jobs job (hjobs ▸ hold)
        | inr hnew =>
          rw [List.mem_singleton.mp hnew]
          exact ⟨readStored_length hstored, hpc⟩
      · rw [htake (by rw [SweepItem.Eligible, hneed, helig]; rfl)]
        show s1.stats.handled + (s1.jobs ++ [_]).length = _
        rw [List.length_append, List.length_singleton]
        omega
    | verbatim =>
      rw [helig] at hs
      obtain ⟨stored, hstored, hs⟩ := faulty_bind_eq_ok.mp hs
      cases hs
      refine ⟨hjobs ▸ h.jobs, ?_, ?_⟩
      · intro seg hseg
        cases List.mem_append.mp hseg with
        | inl hold => exact h.segs seg (hsegs ▸ hold)
        | inr hnew => exact splicePlain_slices seg hnew
      · have hone := s1.stats.handled_counts [(splicePlain item.pc bytes stored used).1]
        rw [htake (by rw [SweepItem.Eligible, hneed, helig]; rfl)]
        show (s1.stats.counts [_]).handled + s1.jobs.length = _
        rw [hone, List.length_singleton]
        omega

theorem sweepItems_emits {ctx : ImgCtx} {digest : ℕ → Bytes} {used : List Cover} {pcs : List PCluster}
    {front rest : List SweepItem} {s s' : SweepState} (h : SweepEmits pcs used front s)
    (hpcs : ∀ item ∈ rest, pcs[item.k]? = some item.pc) (hs : sweepItems ctx digest used rest s = .ok s') :
    SweepEmits pcs used (front ++ rest) s' := by
  induction rest generalizing front s with
  | nil =>
    cases hs
    rw [List.append_nil]
    exact h
  | cons item rest ih =>
    rw [sweepItems] at hs
    cases hitem : sweepItem ctx digest used item rest s with
    | error stop =>
      rw [hitem] at hs
      cases hs
    | ok s1 =>
      rw [hitem] at hs
      have hstep := sweepItem_emits h (hpcs item List.mem_cons_self) hitem
      have hrest := ih hstep (fun i hi => hpcs i (List.mem_cons_of_mem item hi)) hs
      rwa [List.append_assoc, List.singleton_append] at hrest

/-- **The jobs**: each is counted once, and the nodes are of their pclusters and slice covering members. -/
theorem runJobs_spec {ctx : ImgCtx} {used : List Cover} {pcs : List PCluster}
    (presets : ℕ → Option UInt32 → Option UInt32) {jobs : List Job}
    (hjobs : ∀ job ∈ jobs, job.stored.length = job.pc.plen ∧ pcs[job.k]? = some job.pc) (n : ℕ)
    (preset : Option UInt32) (spool : Bytes) :
    ∃ out, runJobs ctx used presets jobs n preset spool = .ok out ∧ out.2.1.length = jobs.length ∧
      ∀ node ∈ out.1, node.2.Slices (used.map Cover.idx) ∧ ∃ pc, pcs[node.1]? = some pc ∧
        node.2.size = pc.plen := by
  induction jobs generalizing n preset spool with
  | nil => exact ⟨_, rfl, rfl, nofun⟩
  | cons job jobs ih =>
    obtain ⟨⟨hstored, hpc⟩, hrest⟩ := List.forall_mem_cons.mp hjobs
    obtain ⟨e, spool', he, hmade⟩ := encoded_of_ne_panic spool
      (@planPcluster_ne_panic ctx.encode ctx.sha256 job.pc job.stored ⟨job.input, job.more⟩ used
        (presets n preset) ctx.dictSize spool)
    have hrun : runJob ctx used (presets n preset) job spool = .ok (e, spool') := he
    rw [runJobs, hrun]
    cases e with
    | mismatch =>
      obtain ⟨out, hout, hlen, hnodes⟩ := ih hrest (n + 1) (presets n preset) spool'
      dsimp only [bind, Except.bind]
      rw [hout]
      exact ⟨_, rfl, congrArg Nat.succ hlen, hnodes⟩
    | margin =>
      obtain ⟨out, hout, hlen, hnodes⟩ := ih hrest (n + 1) (presets n preset) spool'
      dsimp only [bind, Except.bind]
      rw [hout]
      exact ⟨_, rfl, congrArg Nat.succ hlen, hnodes⟩
    | made node p =>
      obtain ⟨out, hout, hlen, hnodes⟩ := ih hrest (n + 1) (some p) spool'
      obtain ⟨hslices, hsize, -⟩ := planPcluster_slices hstored (hmade node p rfl)
      dsimp only [bind, Except.bind]
      rw [hout]
      refine ⟨_, rfl, congrArg Nat.succ hlen, ?_⟩
      exact List.forall_mem_cons.mpr ⟨⟨hslices, job.pc, hpc, hsize⟩, hnodes⟩

/-! ### What the sweep admits -/

theorem sortCovers_pairwise (covers : List Cover) :
    (sortCovers covers).Pairwise fun a b => a.pstart ≤ b.pstart := by
  have htotal : Std.Total fun a b : Cover => a.pstart < b.pstart ∨ (a.pstart = b.pstart ∧ b.len ≤ a.len) :=
    ⟨fun a b => by omega⟩
  have htrans : IsTrans Cover fun a b => a.pstart < b.pstart ∨ (a.pstart = b.pstart ∧ b.len ≤ a.len) :=
    ⟨fun a b c hab hbc => by omega⟩
  have hsorted := List.pairwise_insertionSort
    (fun a b : Cover => a.pstart < b.pstart ∨ (a.pstart = b.pstart ∧ b.len ≤ a.len)) covers
  exact hsorted.imp fun hab => by omega

theorem SweepInv.start {ctx : ImgCtx} {digest : ℕ → Bytes} {byte : ℕ → Except Fault UInt8}
    (used : List Cover) (items : List SweepItem) :
    SweepInv ctx digest byte used [] items (.start used) where
  ahead := ⟨[], rfl, nofun⟩
  beyond := by
    intro c _ x hx
    obtain ⟨i, hi, -⟩ := hx
    cases hi
  active := nofun
  cur := nofun

/-- **Every cover that came unproved is settled**: all of it was decoded and hashes to the digest, or its
member has failed. -/
theorem SweepInv.settles {ctx : ImgCtx} {digest : ℕ → Bytes} {byte : ℕ → Except Fault UInt8}
    {used : List Cover} {items : List SweepItem} {s : SweepState}
    (h : SweepInv ctx digest byte used items [] s) {c : Cover} (hc : c ∈ used) (hproved : c.proved = false) :
    c.Whole (Decoded ctx items) ∧ c.Hashes ctx.sha256 digest byte ∨ c.idx ∈ s.failures := by
  have hfailed : ∀ i ∈ s.failed, i ∈ s.failures := fun i hi => List.mem_union_iff.mpr (.inr hi)
  obtain ⟨met, hsplit, hsettled⟩ := h.ahead
  rw [hsplit] at hc
  cases List.mem_append.mp hc with
  | inr hahead =>
    refine .inr (List.mem_union_iff.mpr (.inl (List.mem_append_left _ ?_)))
    exact List.mem_map_of_mem (List.mem_filter.mpr ⟨hahead, by rw [hproved]; rfl⟩)
  | inl hmet =>
    cases hsettled c hmet hproved with
    | opened hopen =>
      obtain ⟨a, ha, rfl⟩ := hopen
      refine .inr (List.mem_union_iff.mpr (.inl (List.mem_append_right _ ?_)))
      exact List.mem_map_of_mem ha
    | done whole out => exact out.imp (fun hhash => ⟨whole, hhash⟩) (hfailed _)
    | missed _ failed => exact .inr (hfailed _ failed)

/-- A member that may be sliced: each of its covers in use arrived proved, or was all decoded and hashes to
the member's digest. -/
def Admitted (ctx : ImgCtx) (digest : ℕ → Bytes) (used : List Cover) (items : List SweepItem) (i : ℕ) :
    Prop :=
  i ∈ used.map Cover.idx ∧ ∀ c ∈ used, c.idx = i → c.proved = true ∨
    c.Whole (Decoded ctx items) ∧ c.Hashes ctx.sha256 digest (ctx.fs.packedByte ctx.z)

/-- The nodes that the caller keeps. -/
def Swept.keptNodes (swept : Swept) : List (ℕ × PClusterNode) :=
  swept.nodes.filter fun n => !Planner.badNode swept.failed n

/-- The splices that it keeps. -/
def Swept.keptSegs (swept : Swept) : List Seg := swept.segs.filter (Planner.keptSeg swept.failed)

/-- What the sweep is to do: no subtraction underflows, what is kept slices proven members only, and a cover
that came unproved and was not all decoded is failed, with all that slices its member. -/
structure SweepSound (ctx : ImgCtx) (digest : ℕ → Bytes) (used : List Cover) (items : List SweepItem)
    (r : Except SweepStop (Swept × Bytes)) : Prop where
  in_range : r ≠ .error .range
  nodes : ∀ swept spool, r = .ok (swept, spool) → ∀ n ∈ swept.keptNodes, ∀ i ∈ n.2.members,
    Admitted ctx digest used items i
  segs : ∀ swept spool, r = .ok (swept, spool) → ∀ seg ∈ swept.keptSegs, ∃ i, seg.Slices [i] ∧
    Admitted ctx digest used items i
  failed : ∀ swept spool, r = .ok (swept, spool) → ∀ c ∈ used, c.proved = false →
    ¬ c.Whole (Decoded ctx items) → c.idx ∈ swept.failed ∧
      (∀ n ∈ swept.keptNodes, c.idx ∉ n.2.members) ∧ ∀ seg ∈ swept.keptSegs, ¬ seg.Slices [c.idx]

/-- What slices a member whose bytes did not come out is not kept. -/
theorem Swept.kept_not_failed (swept : Swept) :
    (∀ n ∈ swept.keptNodes, ∀ i ∈ n.2.members, i ∉ swept.failed) ∧
      ∀ seg ∈ swept.keptSegs, ∀ i, seg.Slices [i] → i ∉ swept.failed := by
  constructor
  · intro n hn i hi hfailed
    have hbad : Planner.badNode swept.failed n = true :=
      List.any_eq_true.mpr ⟨i, hi, decide_eq_true hfailed⟩
    have hkept := (List.mem_filter.mp hn).2
    rw [hbad] at hkept
    cases hkept
  · intro seg hseg i hslices hfailed
    have hkept := (List.mem_filter.mp hseg).2
    cases seg with
    | tabled idx start len pos rootOff =>
      have heq : idx = i := List.mem_singleton.mp hslices.1
      subst heq
      exact of_decide_eq_true hkept hfailed
    | _ => exact hslices

/-- **The sweep admits only proven members**, and nothing underflows in it, just when at each needed
pcluster that it comes to and can decode, no cover in use that came unproved has a gap: one that begins
among the bytes decoded before it has all of them up to there, or to its end. -/
theorem sweep_admits_iff (ctx : ImgCtx) (digest : ℕ → Bytes) (sched : Schedule) (preset : Option UInt32)
    {plan : ZPlan} (hplan : ctx.fs.packedPlan = .ok plan) (covers : List Cover) (spool : Option Bytes) :
    SweepSound ctx digest (sweepSet (sortCovers covers) plan.ownPclusters).used
        ((sweepSet (sortCovers covers) plan.ownPclusters).items plan.ownPclusters)
        (sweepPclusters ctx digest sched preset plan.ownPclusters
          (sweepSet (sortCovers covers) plan.ownPclusters) spool) ↔
      ¬ Underflows ctx (sweepSet (sortCovers covers) plan.ownPclusters).used []
        ((sweepSet (sortCovers covers) plan.ownPclusters).items plan.ownPclusters) := by
  have hsort : (sweepSet (sortCovers covers) plan.ownPclusters).used.Pairwise
      fun a b => a.pstart ≤ b.pstart := (sortCovers_pairwise covers).filter _
  generalize sweepSet (sortCovers covers) plan.ownPclusters = set at hsort
  have hstream := inStream_items hplan set
  have hinv : SweepInv ctx digest (ctx.fs.packedByte ctx.z) set.used [] (set.items plan.ownPclusters)
      (.start set.used) := SweepInv.start set.used _
  have hspec := sweepItems_spec hinv hstream hsort
  have hemits : ∀ s, sweepItems ctx digest set.used (set.items plan.ownPclusters) (.start set.used) = .ok s →
      SweepEmits plan.ownPclusters set.used (set.items plan.ownPclusters) s := fun s hs =>
    @sweepItems_emits ctx digest set.used plan.ownPclusters [] _ _ _ (SweepEmits.start _ _) (fun _ => mem_items) hs
  rw [sweepPclusters]
  revert hspec hemits
  cases sweepItems ctx digest set.used (set.items plan.ownPclusters) (.start set.used) with
  | error stop =>
    intro hspec _
    cases stop with
    | range => exact iff_of_false (fun h => h.in_range rfl) (fun h => h hspec)
    | early why => exact why.elim
    | fault e => exact iff_of_true ⟨nofun, nofun, nofun, nofun⟩ hspec
  | ok s =>
    intro hspec hemits
    obtain ⟨hno, hend⟩ := hspec
    have hemitted := hemits s rfl
    obtain ⟨out, hout, -, hnodes⟩ := @runJobs_spec ctx set.used plan.ownPclusters sched.preset (sched.order s.jobs)
      (fun job hjob => hemitted.jobs job ((sched.perm s.jobs).mem_iff.mp hjob)) 0 preset (spool.getD [])
    dsimp only [bind, Except.bind]
    rw [hout]
    dsimp only [inRange]
    have hadmitted : ∀ i, i ∈ set.used.map Cover.idx → i ∉ s.failures →
        Admitted ctx digest set.used (set.items plan.ownPclusters) i := by
      intro i hi hkept
      refine ⟨hi, fun c hc heq => ?_⟩
      cases hproved : c.proved with
      | true => exact .inl rfl
      | false =>
        cases hend.settles hc hproved with
        | inl hdone => exact .inr hdone
        | inr hfailed => exact absurd (heq ▸ hfailed) hkept
    refine iff_of_true ⟨nofun, ?_, ?_, ?_⟩ hno
    · intro swept spool' heq n hn i hi
      cases heq
      have hmem := (hnodes n (List.mem_filter.mp hn).1).1.mem i hi
      exact hadmitted i hmem ((Swept.kept_not_failed _).1 n hn i hi)
    · intro swept spool' heq seg hseg
      cases heq
      have hslices := hemitted.segs seg (List.mem_filter.mp hseg).1
      cases seg with
      | tabled idx start len pos rootOff =>
        have hone : (Seg.tabled idx start len pos rootOff).Slices [idx] :=
          ⟨List.mem_singleton_self idx, hslices.2⟩
        exact ⟨idx, hone, hadmitted idx hslices.1 ((Swept.kept_not_failed _).2 _ hseg idx hone)⟩
      | _ => exact hslices.elim
    · intro swept spool' heq c hc hproved hpart
      cases heq
      have hfailed : c.idx ∈ s.failures := by
        cases hend.settles hc hproved with
        | inl hdone => exact absurd hdone.1 hpart
        | inr hfailed => exact hfailed
      refine ⟨hfailed, fun n hn hi => ?_, fun seg hseg hslices => ?_⟩
      · exact (Swept.kept_not_failed _).1 n hn _ hi hfailed
      · exact (Swept.kept_not_failed _).2 seg hseg _ hslices hfailed

/-! ### A hole in a packed file -/

/-- The packed inode, of three blocks the second of which is a hole, and behind it a file that is packed
whole. -/
def holeFs : Erofs where
  view :=
    List.replicate 1024 0 ++
      ([0xE2, 0xE1, 0xF5, 0xE0] ++ List.replicate 8 0 ++ [9, 0, 40, 0] ++ List.replicate 80 0 ++ [36] ++
        List.replicate 31 0) ++
      ([2, 0, 0, 0, 0xA4, 0x81, 0, 0, 0, 6, 0, 0] ++ List.replicate 36 0 ++
        [0, 0, 0, 0, 3, 0, 0, 0, 0, 0x40, 0, 0, 0, 0, 0, 0, 0, 0, 0, 0, 4, 0, 0, 0] ++
        List.replicate 184 0) ++
      ([2, 0, 0, 0, 0xA4, 0x81, 0, 0, 0, 6, 0, 0] ++ List.replicate 20 0 ++ [0, 0, 0, 0, 0, 0, 0, 0x80] ++
        List.replicate 88 0) ++
      List.replicate 512 7 ++ List.replicate 512 9
  blkszbits := 9
  metaBase := 0
  packedNid := 36
  bits := Zmap.smallestBlock_bits

def holePlan : ZPlan :=
  ⟨1536, [⟨0, 512, .raw 1536 512 .shifted false⟩, ⟨512, 512, .zero⟩, ⟨1024, 512, .raw 2048 512 .shifted false⟩]⟩

def holeCtx : ImgCtx where
  fs := holeFs
  z := Zmap.noDecoders
  encode := copyEncode
  sha256 := id
  dictSize := 0

def holeBytes : Bytes := List.replicate 512 7 ++ List.replicate 512 0 ++ List.replicate 512 9

def isRange {α : Type} : Except SweepStop α → Bool
  | .error .range => true
  | _ => false

theorem eq_range_of_isRange {α : Type} {r : Except SweepStop α} (h : isRange r = true) : r = .error .range := by
  cases r with
  | ok a => cases h
  | error stop =>
    cases stop with
    | range => rfl
    | fault e => cases h
    | early why => exact why.elim

set_option maxRecDepth 20000 in
/-- The file's cover goes on over the hole, and the next pcluster begins behind what has been hashed. -/
theorem hole_underflows :
    Erofs.open holeFs.view = .ok holeFs ∧ holeFs.packedPlan = .ok holePlan ∧
      (holeFs.inode 44 >>= holeFs.buildZplan) = .ok ⟨1536, [⟨0, 1536, .packed 0⟩]⟩ ∧
      sweepPclusters holeCtx (fun _ => holeBytes) .inOrder none holePlan.ownPclusters
        (sweepSet (sortCovers [⟨1, 0, 0, 1536, false⟩]) holePlan.ownPclusters) none = .error .range ∧
      ¬ SweepSound holeCtx (fun _ => holeBytes)
        (sweepSet (sortCovers [⟨1, 0, 0, 1536, false⟩]) holePlan.ownPclusters).used
        ((sweepSet (sortCovers [⟨1, 0, 0, 1536, false⟩]) holePlan.ownPclusters).items holePlan.ownPclusters)
        (sweepPclusters holeCtx (fun _ => holeBytes) .inOrder none holePlan.ownPclusters
          (sweepSet (sortCovers [⟨1, 0, 0, 1536, false⟩]) holePlan.ownPclusters) none) := by
  have hrun : sweepPclusters holeCtx (fun _ => holeBytes) .inOrder none holePlan.ownPclusters
      (sweepSet (sortCovers [⟨1, 0, 0, 1536, false⟩]) holePlan.ownPclusters) none = .error .range :=
    eq_range_of_isRange (by decide +kernel)
  refine ⟨rfl, rfl, rfl, hrun, ?_⟩
  rw [hrun]
  exact fun h => h.in_range rfl

set_option maxRecDepth 20000 in
/-- A file in the first block only is hashed and spliced. -/
theorem sweep_admits_iff_block :
    SweepSound holeCtx (fun _ => List.replicate 512 7)
      (sweepSet (sortCovers [⟨1, 0, 0, 512, false⟩]) holePlan.ownPclusters).used
      ((sweepSet (sortCovers [⟨1, 0, 0, 512, false⟩]) holePlan.ownPclusters).items holePlan.ownPclusters)
      (sweepPclusters holeCtx (fun _ => List.replicate 512 7) .inOrder none holePlan.ownPclusters
        (sweepSet (sortCovers [⟨1, 0, 0, 512, false⟩]) holePlan.ownPclusters) none) := by
  have hplan : holeCtx.fs.packedPlan = .ok holePlan := rfl
  refine (sweep_admits_iff holeCtx _ .inOrder none hplan [⟨1, 0, 0, 512, false⟩] none).mpr ?_
  have hused : (sweepSet (sortCovers [⟨1, 0, 0, 512, false⟩]) holePlan.ownPclusters).used =
      [⟨1, 0, 0, 512, false⟩] := rfl
  have hitems : (sweepSet (sortCovers [⟨1, 0, 0, 512, false⟩]) holePlan.ownPclusters).items
      holePlan.ownPclusters = [⟨0, ⟨0, 512, 1536, 512, false, none⟩, .verbatim, true⟩,
        ⟨1, ⟨1024, 512, 2048, 512, false, none⟩, .no, false⟩] := rfl
  rw [hused, hitems]
  intro hunder
  rw [underflows_cons, underflows_cons] at hunder
  rcases hunder with ⟨-, -, c, -, -, hstart, -⟩ | ⟨-, ⟨hneed, -⟩ | ⟨-, mid, item, back, hsplit, -⟩⟩
  · obtain ⟨i, hi, -⟩ := hstart
    cases hi
  · cases hneed
  · exact absurd hsplit (by simp)

end Hashdex
