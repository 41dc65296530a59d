import Hashdex.Filter
import Hashdex.Lib.Steps
import Hashdex.Recipe.Tree

/-!
# The minting pool

One hash job for each scheme of a member, fed by the member's producer, run by the pool's workers,
and sealed by whoever contributes last.  A step is what a thread does between two points where
another thread may run: a critical section, an atomic operation, or work on what it alone holds.

A task waiting in the queue is a thread of its job at `waiting`, and which of them a worker takes is
left open.  A read task is a producer that runs on a worker.  `hash` is the digest function of each
scheme, `probe` the filters' answer for a digest pair.
-/

namespace Hashdex

namespace Pool

/-- Chunk accumulation size for stream feeds. -/
def chunkMax : ℕ := 256 * 2 ^ 10

/-- Un-hashed bytes allowed in flight before feeders block. -/
def budgetMax : ℤ := 512 * 2 ^ 20

/-! ### A member's hash jobs -/

/-- One digest scheme's running state, as the bytes it has absorbed. -/
structure HState where
  scheme : Scheme
  absorbed : Bytes
  deriving DecidableEq

namespace HState

def update (h : HState) (b : Bytes) : HState := { h with absorbed := h.absorbed ++ b }

/-- `sha1_git` is sha1 over the length-prefixed header and the bytes. -/
def finalize (hash : Scheme → Bytes → Bytes) (h : HState) : Bytes :=
  match h.scheme with
  | .sha1Git => hash .sha1 h.absorbed
  | scheme => hash scheme h.absorbed

end HState

/-- What goes before the bytes of a blob of `len` bytes. -/
def gitHeader (len : ℕ) : Bytes := asciiBytes s!"blob {len}".toList ++ [0]

/-- `sha1_git` only exists when the enclosing format stated the member's length. -/
def hashers (len : Option ℕ) : List HState :=
  [⟨.md5, []⟩, ⟨.sha1, []⟩, ⟨.sha256, []⟩, ⟨.sha512, []⟩, ⟨.blake2s256, []⟩] ++
    match len with
    | some n => [⟨.sha1Git, gitHeader n⟩]
    | none => []

structure JobState where
  chunks : List Bytes
  /-- Taken out while a worker hashes; `queued` guards exclusivity. -/
  hasher : Option HState
  closed : Bool
  queued : Bool
  deriving DecidableEq

/-- Where a task of the job is: waiting in the queue, or at a point of `run_hash`. -/
inductive JobThread
  | waiting
  | entering
  | hashing (h : HState) (chunks : List Bytes)
  | releasing (h : HState) (freed : ℕ)
  | returning (h : HState)
  | finalizing (h : HState)
  | panicked (message : String)
  deriving DecidableEq

/-- A job with its tasks, and with what every call of `finalize` had absorbed. -/
structure Job where
  state : JobState
  threads : List JobThread
  finals : List Bytes
  deriving DecidableEq

/-- The loop body of `run_hash`, under the job's lock: the state it leaves, and where the worker goes
on, if it does. -/
def JobState.loopBody (st : JobState) : JobState × Option JobThread :=
  if st.chunks = [] then
    if st.closed then
      match st.hasher with
      | some h => ({ st with hasher := none, queued := false }, some (.finalizing h))
      | none => ({ st with queued := false }, none)
    else ({ st with queued := false }, none)
  else
    match st.hasher with
    | some h => ({ st with chunks := [], hasher := none }, some (.hashing h st.chunks))
    | none => ({ st with chunks := [] }, some (.panicked "hasher present while queued"))

/-- What a task's step does beyond its job: units of budget released, a hasher finalised. -/
structure JobEffect where
  released : ℕ
  part : Option HState

def bytesOf (chunks : List Bytes) : ℕ := (chunks.map List.length).sum

/-- A task's step: the job's state, where the task is next, the effect. -/
def JobThread.step (st : JobState) : JobThread → Option (JobState × Option JobThread × JobEffect)
  | .waiting => some (st, some .entering, ⟨0, none⟩)
  | .entering => some (st.loopBody.1, st.loopBody.2, ⟨0, none⟩)
  | .hashing h chunks => some (st, some (.releasing (chunks.foldl .update h) (bytesOf chunks)), ⟨0, none⟩)
  | .releasing h freed => some (st, some (.returning h), ⟨freed, none⟩)
  | .returning h =>
    let st := { st with hasher := some h }
    some (st.loopBody.1, st.loopBody.2, ⟨0, none⟩)
  | .finalizing h => some (st, none, ⟨0, some h⟩)
  | .panicked _ => none

/-- The `t`-th task of a job takes a step. -/
def Job.step (job : Job) (t : ℕ) : Option (Job × JobEffect) :=
  match job.threads[t]? with
  | none => none
  | some thread =>
    match thread.step job.state with
    | none => none
    | some (state, next, effect) =>
      some (⟨state, job.threads.take t ++ next.toList ++ job.threads.drop (t + 1),
        job.finals ++ (effect.part.map HState.absorbed).toList⟩, effect)

/-! ### The producer's half -/

/-- What a pass over the jobs hands to each of them. -/
inductive Errand
  | chunk (bytes : Bytes) (rest : Option Bytes)
  | close
  deriving DecidableEq

/-- Where a feed's holder is: between calls; in the loop of `push`, with the bytes left; waiting for
the budget; about to lock a job; about to enqueue a job it has marked queued.  A `flush` goes back to
the rest of its `push`, or on to the close. -/
inductive FeedAt
  | idle
  | pushing (rest : Bytes)
  | acquiring (chunk : Bytes) (rest : Option Bytes)
  | visiting (errand : Errand) (k : ℕ)
  | enqueuing (errand : Errand) (k : ℕ)
  | closed
  deriving DecidableEq

structure Feed where
  buf : Bytes
  pc : FeedAt
  deriving DecidableEq

def Errand.deliver (st : JobState) : Errand → JobState
  | .chunk bytes _ => { st with chunks := st.chunks ++ [bytes] }
  | .close => { st with closed := true }

/-- After the last job. -/
def Errand.done : Errand → FeedAt
  | .chunk _ (some rest) => .pushing rest
  | .chunk _ none => .visiting .close 0
  | .close => .closed

/-! ### A member under assembly -/

structure Meta where
  path : String
  depth : ℕ
  parent : Option ℕ
  ord : ℕ
  kind : String
  children : ℕ
  note : Option String
  deriving DecidableEq

structure Member where
  path : String
  depth : ℕ
  parent : Option ℕ
  ord : ℕ
  kind : String
  size : ℕ
  digests : Digests
  matched : List String
  children : ℕ
  note : Option String
  deriving DecidableEq

structure Build where
  size : ℕ
  info : Option Meta
  parts : Scheme → Option Bytes
  remaining : ℕ

/-- A created member: its build, its jobs, its two handles, and the threads that are past their part:
how many are about to count it off, how many found it the last, and the members about to be filled
in.  `pushed` is all that `push` was given, `seals` all that was filled in. -/
structure Entry where
  len : Option ℕ
  build : Build
  jobs : List Job
  feed : Feed
  metaOpen : Bool
  finishing : ℕ
  sealing : ℕ
  filling : List Member
  panicked : Option String
  pushed : Bytes
  seals : List Member

/-- `Pool::member`: the jobs are set up and both handles are open. -/
def Entry.new (path : String) (depth : ℕ) (parent : Option ℕ) (len ord : Option ℕ) (slot : ℕ) :
    Entry :=
  { len := len
    build :=
      { size := 0
        info := some ⟨path, depth, parent, ord.getD slot, "file", 0, none⟩
        parts := fun _ => none
        remaining := (hashers len).length + 1 }
    jobs := (hashers len).map fun h => ⟨⟨[], some h, false, false⟩, [], []⟩
    feed := ⟨[], .idle⟩
    metaOpen := true
    finishing := 0
    sealing := 0
    filling := []
    panicked := none
    pushed := []
    seals := [] }

/-- What a step does to the pool's counters. -/
structure Effect where
  acquired : ℕ
  released : ℕ
  filled : ℕ
  deriving DecidableEq

def Effect.none : Effect := ⟨0, 0, 0⟩

def addNote (info : Meta) (note : String) : Meta :=
  { info with
    note := some (match info.note with
      | some prev => s!"{prev}; {note}"
      | none => note) }

/-- The feed's holder goes on. -/
def Entry.feedStep (budget : ℤ) (e : Entry) : Option (Entry × Effect) :=
  match e.feed.pc with
  | .idle => none
  | .closed => none
  | .pushing [] => some ({ e with feed := { e.feed with pc := .idle } }, .none)
  | .pushing rest =>
    let room := chunkMax - e.feed.buf.length
    let buf := e.feed.buf ++ rest.take room
    let rest := rest.drop room
    if chunkMax ≤ buf.length then some ({ e with feed := ⟨[], .acquiring buf (some rest)⟩ }, .none)
    else some ({ e with feed := ⟨buf, .pushing rest⟩ }, .none)
  | .acquiring chunk rest =>
    let n := chunk.length * e.jobs.length
    if 0 < budget ∧ budgetMax < budget + n then none
    else
      some ({ e with feed := { e.feed with pc := .visiting (.chunk chunk rest) 0 } },
        { Effect.none with acquired := n })
  | .visiting errand k =>
    match e.jobs[k]? with
    | none => some ({ e with feed := { e.feed with pc := errand.done } }, .none)
    | some job =>
      let state := errand.deliver job.state
      let pc := if state.queued then FeedAt.visiting errand (k + 1) else .enqueuing errand k
      some ({ e with
        jobs := e.jobs.set k { job with state := { state with queued := true } }
        feed := { e.feed with pc := pc } }, .none)
  | .enqueuing errand k =>
    match e.jobs[k]? with
    | none => none
    | some job =>
      some ({ e with
        jobs := e.jobs.set k { job with threads := job.threads ++ [.waiting] }
        feed := { e.feed with pc := .visiting errand (k + 1) } }, .none)

section
variable (hash : Scheme → Bytes → Bytes) (probe : Bytes → Bytes → List String)

/-- A task of the `j`-th job goes on; a finalised part is stored and is then to be counted off. -/
def Entry.jobStep (e : Entry) (j t : ℕ) : Option (Entry × Effect) :=
  match e.jobs[j]? with
  | none => none
  | some job =>
    match job.step t with
    | none => none
    | some (job, effect) =>
      let e := { e with jobs := e.jobs.set j job }
      let out := { Effect.none with released := effect.released }
      match effect.part with
      | none => some (e, out)
      | some h =>
        let parts := Function.update e.build.parts h.scheme (some (h.finalize hash))
        some ({ e with build := { e.build with parts := parts }, finishing := e.finishing + 1 }, out)

/-- `finish_part`: count a part off; whoever counts off the last one seals. -/
def Entry.finishStep (e : Entry) : Option (Entry × Effect) :=
  if e.finishing = 0 then none
  else
    let last := e.build.remaining = 1
    some ({ e with
      build := { e.build with remaining := e.build.remaining - 1 }
      finishing := e.finishing - 1
      sealing := if last then e.sealing + 1 else e.sealing }, .none)

/-- `seal`, up to the probe: the metadata and the parts are taken out and the member is put
together. -/
def Entry.sealStep (e : Entry) : Option (Entry × Effect) :=
  if e.sealing = 0 then none
  else
    let e := { e with sealing := e.sealing - 1 }
    match e.build.info with
    | none => some ({ e with panicked := some "sealed twice" }, .none)
    | some info =>
      let p := e.build.parts
      let e := { e with build := { e.build with info := none, parts := fun _ => none } }
      match p .sha1, p .sha256 with
      | none, _ => some ({ e with panicked := some "sha1 part" }, .none)
      | some _, none => some ({ e with panicked := some "sha256 part" }, .none)
      | some sha1, some sha256 =>
        let digests : Digests := ⟨p .md5, sha1, sha256, p .sha512, p .blake2s256, p .sha1Git⟩
        let size := e.build.size
        let matched := if identityMinBytes ≤ size then probe sha1 sha256 else []
        let member : Member := ⟨info.path, info.depth, info.parent, info.ord, info.kind, size,
          digests, matched, info.children, info.note⟩
        some ({ e with filling := e.filling ++ [member] }, .none)

/-- `fill`: the member goes into its slot and counts as sealed. -/
def Entry.fillStep (e : Entry) : Option (Entry × Effect) :=
  match e.filling with
  | [] => none
  | member :: rest =>
    some ({ e with filling := rest, seals := e.seals ++ [member] }, { Effect.none with filled := 1 })

/-- What can happen to a member: its handles' calls, its feed's holder going on, and steps of the
threads at work on it. -/
inductive EntryAction
  | push (bytes : Bytes)
  | close
  | note (text : String)
  | closeMeta (kind : String) (children : ℕ) (note : Option String)
  | feed
  | job (j t : ℕ)
  | finish
  | sealUp
  | fill

def Entry.step (budget : ℤ) (e : Entry) : EntryAction → Option (Entry × Effect)
  | .push bytes =>
    if e.feed.pc = .idle then
      some ({ e with
        build := { e.build with size := e.build.size + bytes.length }
        feed := { e.feed with pc := .pushing bytes }
        pushed := e.pushed ++ bytes }, .none)
    else none
  | .close =>
    if e.feed.pc = .idle then
      let pc := if e.feed.buf = [] then FeedAt.visiting .close 0 else .acquiring e.feed.buf none
      some ({ e with feed := ⟨[], pc⟩ }, .none)
    else none
  | .note text =>
    if e.feed.pc = .idle then
      some ({ e with build := { e.build with info := e.build.info.map (addNote · text) } }, .none)
    else none
  | .closeMeta kind children note =>
    if e.metaOpen then
      match e.build.info with
      | none => some ({ e with panicked := some "meta closed twice" }, .none)
      | some info =>
        let info := { info with kind := kind, children := children }
        let info := match note with
          | some n => addNote info n
          | none => info
        some ({ e with
          build := { e.build with info := some info }
          metaOpen := false
          finishing := e.finishing + 1 }, .none)
    else none
  | .feed => e.feedStep budget
  | .job j t => e.jobStep hash j t
  | .finish => e.finishStep
  | .sealUp => e.sealStep probe
  | .fill => e.fillStep

/-! ### The pool -/

/-- The pool's members and counters.  `slots` counts the reserved slots that their holders have yet
to fill; `acquired` and `released` are all the units ever taken from the budget and given back. -/
structure State where
  entries : List Entry
  slots : ℕ
  budget : ℤ
  created : ℕ
  filled : ℕ
  acquired : ℕ
  released : ℕ

/-- `Pool::new`. -/
def State.new : State := ⟨[], 0, 0, 0, 0, 0, 0⟩

inductive Action
  | reserve
  | fillSlot
  | member (path : String) (depth : ℕ) (parent len ord : Option ℕ)
  | entry (i : ℕ) (a : EntryAction)

def State.step (s : State) : Action → Option State
  | .reserve => some { s with slots := s.slots + 1, created := s.created + 1 }
  | .fillSlot =>
    if s.slots = 0 then none
    else some { s with slots := s.slots - 1, filled := s.filled + 1 }
  | .member path depth parent len ord =>
    some { s with
      entries := s.entries ++ [Entry.new path depth parent len ord s.created]
      created := s.created + 1 }
  | .entry i a =>
    match s.entries[i]? with
    | none => none
    | some e =>
      match e.step hash probe s.budget a with
      | none => none
      | some (e, effect) =>
        some { s with
          entries := s.entries.set i e
          budget := s.budget + effect.acquired - effect.released
          filled := s.filled + effect.filled
          acquired := s.acquired + effect.acquired
          released := s.released + effect.released }

end

end Pool

end Hashdex
