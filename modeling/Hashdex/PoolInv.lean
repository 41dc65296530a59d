import Hashdex.Pool

/-!
# The minting pool keeps its protocol

`JobOk` says where a job can be: its task is in one place at most, and what its hasher has absorbed,
what a worker has in hand and what is queued are together what the producer handed over.

* `Job.step_ok`: a task's step keeps it there
* `Entry.step_ok`: a member's step keeps the parts, the count and the seal right
* `pool_protocol`: every run hashes each member's bytes once, seals it once, and gives back the
  budget it took
-/

namespace Hashdex

namespace Pool

/-! ### A job -/

/-- The job of a hasher that started as `init`, after `given` was handed to it; `shut` when the close
was, `marked` while the producer is about to enqueue it. -/
inductive JobOk (init : HState) (given : Bytes) : (shut marked : Bool) → Job → Prop
  | resting {a} (h : a = init.absorbed ++ given) :
    JobOk init given false false ⟨⟨[], some ⟨init.scheme, a⟩, false, false⟩, [], []⟩
  | marked {a chunks shut} (h : a ++ chunks.flatten = init.absorbed ++ given) :
    JobOk init given shut true ⟨⟨chunks, some ⟨init.scheme, a⟩, shut, true⟩, [], []⟩
  | waiting {a chunks shut} (h : a ++ chunks.flatten = init.absorbed ++ given) :
    JobOk init given shut false ⟨⟨chunks, some ⟨init.scheme, a⟩, shut, true⟩, [.waiting], []⟩
  | entering {a chunks shut} (h : a ++ chunks.flatten = init.absorbed ++ given) :
    JobOk init given shut false ⟨⟨chunks, some ⟨init.scheme, a⟩, shut, true⟩, [.entering], []⟩
  | hashing {a chunks inHand shut}
    (h : a ++ inHand.flatten ++ chunks.flatten = init.absorbed ++ given) :
    JobOk init given shut false
      ⟨⟨chunks, none, shut, true⟩, [.hashing ⟨init.scheme, a⟩ inHand], []⟩
  | releasing {a chunks shut} (freed : ℕ) (h : a ++ chunks.flatten = init.absorbed ++ given) :
    JobOk init given shut false
      ⟨⟨chunks, none, shut, true⟩, [.releasing ⟨init.scheme, a⟩ freed], []⟩
  | returning {a chunks shut} (h : a ++ chunks.flatten = init.absorbed ++ given) :
    JobOk init given shut false ⟨⟨chunks, none, shut, true⟩, [.returning ⟨init.scheme, a⟩], []⟩
  | finalizing {a} (h : a = init.absorbed ++ given) :
    JobOk init given true false ⟨⟨[], none, true, false⟩, [.finalizing ⟨init.scheme, a⟩], []⟩
  | done {a} (h : a = init.absorbed ++ given) :
    JobOk init given true false ⟨⟨[], none, true, false⟩, [], [a]⟩

/-- Units of the budget the task still has to give back. -/
def JobThread.inflight : JobThread → ℕ
  | .hashing _ chunks => bytesOf chunks
  | .releasing _ freed => freed
  | _ => 0

def Job.inflight (job : Job) : ℕ :=
  bytesOf job.state.chunks + (job.threads.map JobThread.inflight).sum

/-- How far a task is from its end, beside the chunks queued. -/
def JobThread.weight : JobThread → ℕ
  | .waiting => 9
  | .entering => 8
  | .hashing _ _ => 12
  | .releasing _ _ => 11
  | .returning _ => 10
  | .finalizing _ => 5
  | .panicked _ => 0

def Job.weight (job : Job) : ℕ :=
  10 * job.state.chunks.length + (job.threads.map JobThread.weight).sum

@[simp] theorem inflight_hashing (h : HState) (chunks : List Bytes) :
    (JobThread.hashing h chunks).inflight = bytesOf chunks := rfl

@[simp] theorem inflight_finalizing (h : HState) : (JobThread.finalizing h).inflight = 0 := rfl

@[simp] theorem weight_hashing (h : HState) (chunks : List Bytes) :
    (JobThread.hashing h chunks).weight = 12 := rfl

@[simp] theorem weight_finalizing (h : HState) : (JobThread.finalizing h).weight = 5 := rfl

@[simp] theorem bytesOf_nil : bytesOf [] = 0 := rfl

theorem bytesOf_append (xs ys : List Bytes) : bytesOf (xs ++ ys) = bytesOf xs + bytesOf ys := by
  rw [bytesOf, List.map_append, List.sum_append, bytesOf, bytesOf]

theorem foldl_update (chunks : List Bytes) (h : HState) :
    chunks.foldl HState.update h = ⟨h.scheme, h.absorbed ++ chunks.flatten⟩ := by
  induction chunks generalizing h with
  | nil => simp
  | cons c chunks ih => rw [List.foldl_cons, ih, HState.update, List.flatten_cons, List.append_assoc]

/-- What a step of a job's task does, as the rest of the member sees it. -/
structure JobStep (init : HState) (given : Bytes) (job job' : Job) (effect : JobEffect) : Prop where
  inflight : job.inflight = job'.inflight + effect.released
  weight : job'.weight + (if effect.part.isSome then 3 else 0) < job.weight
  part : effect.part = none ∧ job'.finals = job.finals
    ∨ effect.part = some ⟨init.scheme, init.absorbed ++ given⟩ ∧ job.finals = []
      ∧ job'.finals = [init.absorbed ++ given]

/-- **The loop body under the lock**, with the hasher in place: take the chunks, finalise, or rest. -/
theorem loopBody_ok {init : HState} {given a : Bytes} {chunks : List Bytes} {shut : Bool}
    (h : a ++ chunks.flatten = init.absorbed ++ given) (thread : JobThread)
    (hin : thread.inflight = 0) (hw : 8 ≤ thread.weight) {st : JobState} {threads : List JobThread}
    (hst : bytesOf st.chunks = bytesOf chunks ∧ st.chunks.length = chunks.length)
    (hthreads : threads = [thread]) :
    let out := JobState.loopBody ⟨chunks, some ⟨init.scheme, a⟩, shut, true⟩
    JobOk init given shut false ⟨out.1, out.2.toList, []⟩
      ∧ JobStep init given ⟨st, threads, []⟩ ⟨out.1, out.2.toList, []⟩ ⟨0, none⟩ := by
  subst hthreads
  cases chunks with
  | nil =>
    have ha : a = init.absorbed ++ given := by simpa using h
    have hnil : st.chunks = [] := List.length_eq_zero_iff.mp hst.2
    cases shut with
    | true =>
      refine ⟨.finalizing ha, ?_, ?_, Or.inl ⟨rfl, rfl⟩⟩
      · simp [Job.inflight, JobState.loopBody, hin, hnil]
      · simp [Job.weight, JobState.loopBody, hnil]
        omega
    | false =>
      refine ⟨.resting ha, ?_, ?_, Or.inl ⟨rfl, rfl⟩⟩
      · simp [Job.inflight, JobState.loopBody, hin, hnil]
      · simp [Job.weight, JobState.loopBody, hnil]
        omega
  | cons c chunks =>
    refine ⟨?_, ?_, ?_, Or.inl ⟨rfl, rfl⟩⟩
    · apply JobOk.hashing
      rw [List.flatten_nil, List.append_nil]
      exact h
    · simp [Job.inflight, JobState.loopBody, hin, hst.1]
    · have hlen := hst.2
      rw [List.length_cons] at hlen
      simp [Job.weight, JobState.loopBody]
      omega

/-- **A task's step keeps the job where it can be.** -/
theorem Job.step_ok {init : HState} {given : Bytes} {shut marked : Bool} {job job' : Job} {t : ℕ}
    {effect : JobEffect} (hok : JobOk init given shut marked job)
    (h : job.step t = some (job', effect)) :
    JobOk init given shut marked job' ∧ JobStep init given job job' effect := by
  have hone : ∀ {st : JobState} {thread : JobThread} {finals : List Bytes},
      Job.step ⟨st, [thread], finals⟩ t = some (job', effect) →
        ∃ state next, thread.step st = some (state, next, effect)
          ∧ job' = ⟨state, next.toList, finals ++ (effect.part.map HState.absorbed).toList⟩ := by
    intro st thread finals h
    cases t with
    | succ t => simp [Job.step] at h
    | zero =>
      rw [Job.step] at h
      simp only [List.getElem?_cons_zero] at h
      cases hstep : thread.step st with
      | none => rw [hstep] at h; cases h
      | some out =>
        obtain ⟨state, next, eff⟩ := out
        rw [hstep] at h
        cases h
        exact ⟨state, next, rfl, by simp⟩
  cases hok with
  | resting h' => simp [Job.step] at h
  | marked h' => simp [Job.step] at h
  | done h' => simp [Job.step] at h
  | waiting h' =>
    obtain ⟨state, next, hstep, rfl⟩ := hone h
    cases hstep
    exact ⟨.entering h', rfl, by simp [Job.weight, JobThread.weight], Or.inl ⟨rfl, rfl⟩⟩
  | entering h' =>
    obtain ⟨state, next, hstep, rfl⟩ := hone h
    cases hstep
    exact loopBody_ok h' .entering rfl (by simp [JobThread.weight]) ⟨rfl, rfl⟩ rfl
  | hashing h' =>
    obtain ⟨state, next, hstep, rfl⟩ := hone h
    cases hstep
    refine ⟨?_, ?_, by simp [Job.weight, JobThread.weight], Or.inl ⟨rfl, rfl⟩⟩
    · rw [foldl_update]
      exact .releasing _ h'
    · simp [Job.inflight, JobThread.inflight]
  | releasing freed h' =>
    obtain ⟨state, next, hstep, rfl⟩ := hone h
    cases hstep
    refine ⟨.returning h', ?_, by simp [Job.weight, JobThread.weight], Or.inl ⟨rfl, rfl⟩⟩
    simp [Job.inflight, JobThread.inflight]
  | returning h' =>
    obtain ⟨state, next, hstep, rfl⟩ := hone h
    cases hstep
    exact loopBody_ok h' (.returning _) rfl (by simp [JobThread.weight]) ⟨rfl, rfl⟩ rfl
  | finalizing h' =>
    obtain ⟨state, next, hstep, rfl⟩ := hone h
    cases hstep
    refine ⟨.done h', rfl, by simp [Job.weight, JobThread.weight], Or.inr ⟨?_, rfl, ?_⟩⟩
    · rw [← h']
    · rw [← h']
      rfl

/-! ### The producer's pass over the jobs -/

def Errand.bytes : Errand → Bytes
  | .chunk bytes _ => bytes
  | .close => []

/-- What is left of the push the errand belongs to. -/
def Errand.rest : Errand → Bytes
  | .chunk _ rest => rest.getD []
  | .close => []

def Errand.closes : Errand → Bool
  | .chunk _ _ => false
  | .close => true

/-- What the holder was given and has not yet handed to the `j`-th job. -/
def Feed.owed (f : Feed) (j : ℕ) : Bytes :=
  match f.pc with
  | .idle => f.buf
  | .closed => f.buf
  | .pushing rest => f.buf ++ rest
  | .acquiring chunk rest => chunk ++ (f.buf ++ rest.getD [])
  | .visiting errand k => (if j < k then [] else errand.bytes) ++ (f.buf ++ errand.rest)
  | .enqueuing errand k => (if j ≤ k then [] else errand.bytes) ++ (f.buf ++ errand.rest)

/-- The close has been handed to the `j`-th job. -/
def Feed.shut (f : Feed) (j : ℕ) : Bool :=
  match f.pc with
  | .closed => true
  | .visiting errand k => errand.closes && decide (j < k)
  | .enqueuing errand k => errand.closes && decide (j ≤ k)
  | _ => false

/-- The holder is about to enqueue the `j`-th job. -/
def Feed.marked (f : Feed) (j : ℕ) : Bool :=
  match f.pc with
  | .enqueuing _ k => decide (j = k)
  | _ => false

/-- The holder is handing the close to the jobs, or has. -/
def Feed.Ending (f : Feed) : Prop :=
  match f.pc with
  | .closed => True
  | .visiting errand _ => errand.closes
  | .enqueuing errand _ => errand.closes
  | _ => False

/-- No push comes after the errand. -/
def Errand.last : Errand → Bool
  | .chunk _ rest => rest.isNone
  | .close => true

/-- The holder has called `close`. -/
def Feed.CloseCalled (f : Feed) : Prop :=
  match f.pc with
  | .closed => True
  | .acquiring _ rest => rest.isNone
  | .visiting errand _ => errand.last
  | .enqueuing errand _ => errand.last
  | _ => False

/-- Units acquired for jobs that have not got the chunk yet. -/
def Feed.inflight (f : Feed) (n : ℕ) : ℕ :=
  match f.pc with
  | .visiting errand k => errand.bytes.length * (n - k)
  | .enqueuing errand k => errand.bytes.length * (n - (k + 1))
  | _ => 0

theorem JobOk.finals {init : HState} {given : Bytes} {shut marked : Bool} {job : Job}
    (h : JobOk init given shut marked job) :
    job.finals = [] ∨ shut = true ∧ job.finals = [init.absorbed ++ given] := by
  cases h with
  | done ha => exact Or.inr ⟨rfl, by rw [ha]⟩
  | _ => exact Or.inl rfl

/-- A visit hands the errand over and marks the job queued. -/
theorem JobOk.deliver {init : HState} {given : Bytes} {job : Job}
    (h : JobOk init given false false job) (errand : Errand) :
    JobOk init (given ++ errand.bytes) errand.closes (!job.state.queued)
      { job with state := { errand.deliver job.state with queued := true } } := by
  have hadd : ∀ {a : Bytes} {chunks : List Bytes} (c : Bytes),
      a ++ chunks.flatten = init.absorbed ++ given →
        a ++ (chunks ++ [c]).flatten = init.absorbed ++ (given ++ c) := by
    intro a chunks c h
    rw [List.flatten_append, ← List.append_assoc, h, List.append_assoc]
    simp
  have hsame : ∀ {x : Bytes}, x = init.absorbed ++ given → x = init.absorbed ++ (given ++ []) := by
    intro x h
    rwa [List.append_nil]
  cases errand with
  | chunk c rest =>
    cases h with
    | resting h => exact .marked (hadd c (by simpa using h))
    | waiting h => exact .waiting (hadd c h)
    | entering h => exact .entering (hadd c h)
    | hashing h => exact .hashing (hadd c h)
    | releasing freed h => exact .releasing freed (hadd c h)
    | returning h => exact .returning (hadd c h)
  | close =>
    cases h with
    | resting h => exact .marked (hsame (by rw [h]; exact List.append_nil _))
    | waiting h => exact .waiting (hsame h)
    | entering h => exact .entering (hsame h)
    | hashing h => exact .hashing (hsame h)
    | releasing freed h => exact .releasing freed (hsame h)
    | returning h => exact .returning (hsame h)

@[simp] theorem Errand.deliver_queued (errand : Errand) (st : JobState) :
    (errand.deliver st).queued = st.queued := by
  cases errand <;> rfl

/-- What a visit adds to the chunks queued. -/
theorem Errand.deliver_inflight (errand : Errand) (job : Job) :
    Job.inflight { job with state := { errand.deliver job.state with queued := true } }
      = job.inflight + errand.bytes.length := by
  cases errand with
  | chunk c rest =>
    simp only [Job.inflight, Errand.deliver, Errand.bytes, bytesOf_append]
    simp only [bytesOf, List.map_cons, List.map_nil, List.sum_cons, List.sum_nil]
    omega
  | close => simp [Job.inflight, Errand.deliver, Errand.bytes]

theorem JobOk.enqueue {init : HState} {given : Bytes} {shut : Bool} {job : Job}
    (h : JobOk init given shut true job) :
    JobOk init given shut false { job with threads := job.threads ++ [.waiting] } := by
  cases h with
  | marked h => exact .waiting h

/-! ### A member under assembly -/

def Job.unfinished (job : Job) : ℕ := if job.finals = [] then 1 else 0

/-- The parts still to come from the jobs. -/
def Entry.unfinished (e : Entry) : ℕ := (e.jobs.map Job.unfinished).sum

def Entry.inflight (e : Entry) : ℕ :=
  e.feed.inflight e.jobs.length + (e.jobs.map Job.inflight).sum

/-- How many steps the threads at work on the member have left, at most. -/
def Entry.weight (e : Entry) : ℕ :=
  (e.jobs.map Job.weight).sum + 3 * e.finishing + 2 * e.sealing + e.filling.length

/-- The digests of a member whose bytes are `bytes`. -/
def digestsOf (hash : Scheme → Bytes → Bytes) (len : Option ℕ) (bytes : Bytes) : Digests :=
  { md5 := some (hash .md5 bytes)
    sha1 := hash .sha1 bytes
    sha256 := hash .sha256 bytes
    sha512 := some (hash .sha512 bytes)
    blake2s := some (hash .blake2s256 bytes)
    sha1Git := len.map fun n => hash .sha1 (gitHeader n ++ bytes) }

/-- What holds of a member at any time. -/
structure Entry.Ok (hash : Scheme → Bytes → Bytes) (e : Entry) : Prop where
  jobs_length : e.jobs.length = (hashers e.len).length
  jobs : ∀ j job, e.jobs[j]? = some job → ∃ init given, (hashers e.len)[j]? = some init
    ∧ given ++ e.feed.owed j = e.pushed ∧ JobOk init given (e.feed.shut j) (e.feed.marked j) job
  buf : e.feed.CloseCalled → e.feed.buf = []
  size : e.build.size = e.pushed.length
  remaining : e.build.remaining = e.unfinished + (if e.metaOpen then 1 else 0) + e.finishing
  last : e.sealing + e.filling.length + e.seals.length = if e.build.remaining = 0 then 1 else 0
  info : e.build.info.isSome ↔ e.filling.length + e.seals.length = 0
  parts : e.build.info.isSome → ∀ (j : ℕ) (job : Job) (init : HState), e.jobs[j]? = some job →
    (hashers e.len)[j]? = some init → ∀ x ∈ job.finals,
      e.build.parts init.scheme = some (HState.finalize hash ⟨init.scheme, x⟩)
  noPart : ∀ s, e.build.parts s ≠ none → ∃ init ∈ hashers e.len, init.scheme = s
  members : ∀ m ∈ e.filling ++ e.seals,
    m.size = e.pushed.length ∧ m.digests = digestsOf hash e.len e.pushed
  running : e.panicked = none

@[simp] theorem Effect.none_acquired : Effect.none.acquired = 0 := rfl

@[simp] theorem Effect.none_released : Effect.none.released = 0 := rfl

/-- What a step of a member does, as the pool sees it. -/
structure EntryStep (e e' : Entry) (effect : Effect) : Prop where
  len : e'.len = e.len
  inflight : e.inflight + effect.acquired = e'.inflight + effect.released
  seals : e'.seals.length = e.seals.length + effect.filled

/-- What a step of a thread at work on the member does: it leaves the handles alone. -/
structure ThreadStep (e e' : Entry) (effect : Effect) : Prop extends EntryStep e e' effect where
  acquired : effect.acquired = 0
  weight : e'.weight < e.weight
  feed : e'.feed = e.feed
  metaOpen : e'.metaOpen = e.metaOpen

theorem schemes_nodup (len : Option ℕ) : ((hashers len).map HState.scheme).Nodup := by
  cases len with
  | none => decide
  | some n => show [Scheme.md5, .sha1, .sha256, .sha512, .blake2s256, .sha1Git].Nodup; decide

/-- Two hashers of a member have different schemes. -/
theorem scheme_inj {len : Option ℕ} {i j : ℕ} {x y : HState} (hx : (hashers len)[i]? = some x)
    (hy : (hashers len)[j]? = some y) (h : x.scheme = y.scheme) : i = j := by
  obtain ⟨hi, hx'⟩ := List.getElem?_eq_some_iff.mp hx
  obtain ⟨hj, hy'⟩ := List.getElem?_eq_some_iff.mp hy
  have hi' : i < ((hashers len).map HState.scheme).length := by rwa [List.length_map]
  have hj' : j < ((hashers len).map HState.scheme).length := by rwa [List.length_map]
  have hget : ((hashers len).map HState.scheme)[i] = ((hashers len).map HState.scheme)[j] := by
    rw [List.getElem_map, List.getElem_map, hx', hy', h]
  exact (schemes_nodup len).getElem_inj_iff.mp hget

theorem Entry.jobStep_ok {hash : Scheme → Bytes → Bytes} {e e' : Entry} {j t : ℕ} {effect : Effect}
    (hok : e.Ok hash) (h : e.jobStep hash j t = some (e', effect)) :
    e'.Ok hash ∧ ThreadStep e e' effect := by
  rw [jobStep] at h
  cases hjob : e.jobs[j]? with
  | none => rw [hjob] at h; cases h
  | some job =>
    rw [hjob] at h
    dsimp only at h
    cases hstep : job.step t with
    | none => rw [hstep] at h; cases h
    | some out =>
      obtain ⟨job', eff⟩ := out
      rw [hstep] at h
      dsimp only at h
      obtain ⟨init, given, hinit, hgiven, hjobok⟩ := hok.jobs j job hjob
      obtain ⟨hjobok', hwork⟩ := Job.step_ok hjobok hstep
      have hin := Steps.sum_map_set Job.inflight hjob job'
      have hweight := Steps.sum_map_set Job.weight hjob job'
      have hunf := Steps.sum_map_set Job.unfinished hjob job'
      have hlt := hwork.weight
      have hrel := hwork.inflight
      have hjobs : ∀ i job₀, (e.jobs.set j job')[i]? = some job₀ → ∃ init given,
          (hashers e.len)[i]? = some init ∧ given ++ e.feed.owed i = e.pushed
            ∧ JobOk init given (e.feed.shut i) (e.feed.marked i) job₀ := by
        intro i job₀ hi
        cases Steps.getElem?_set_cases hi with
        | inl hsame =>
          obtain ⟨rfl, rfl⟩ := hsame
          exact ⟨init, given, hinit, hgiven, hjobok'⟩
        | inr hother => exact hok.jobs i job₀ hother.2
      cases hwork.part with
      | inl hnone =>
        obtain ⟨hpart, hfinals⟩ := hnone
        have hsame : job'.unfinished = job.unfinished := by rw [Job.unfinished, hfinals, Job.unfinished]
        rw [hpart] at h hlt
        cases h
        refine ⟨{ hok with jobs_length := ?_, jobs := hjobs, remaining := ?_, parts := ?_ }, ?_⟩
        · rw [List.length_set]
          exact hok.jobs_length
        · have hrem := hok.remaining
          rw [Entry.unfinished] at hrem ⊢
          dsimp only
          omega
        · intro hinfo i job₀ init₀ hi hinit₀ x hx
          cases Steps.getElem?_set_cases hi with
          | inl hsame =>
            obtain ⟨rfl, rfl⟩ := hsame
            rw [hfinals] at hx
            exact hok.parts hinfo j job init₀ hjob hinit₀ x hx
          | inr hother => exact hok.parts hinfo i job₀ init₀ hother.2 hinit₀ x hx
        · refine ⟨⟨rfl, ?_, rfl⟩, rfl, ?_, rfl, rfl⟩
          · rw [Entry.inflight, Entry.inflight, List.length_set]
            simp only [Effect.none]
            omega
          · rw [Entry.weight, Entry.weight]
            dsimp only
            simp only [Option.isSome_none, Bool.false_eq_true, if_false] at hlt
            omega
      | inr hsome =>
        obtain ⟨hpart, hbefore, hafter⟩ := hsome
        have hcount : job.unfinished = 1 ∧ job'.unfinished = 0 := by
          rw [Job.unfinished, Job.unfinished, hbefore, hafter]
          exact ⟨rfl, rfl⟩
        rw [hpart] at h hlt
        cases h
        have hrem := hok.remaining
        have hlast := hok.last
        have hpos : e.build.remaining ≠ 0 := by
          rw [Entry.unfinished] at hrem
          omega
        refine ⟨{ hok with
          jobs_length := ?_
          jobs := hjobs
          remaining := ?_
          parts := ?_
          noPart := ?_ }, ?_⟩
        · rw [List.length_set]
          exact hok.jobs_length
        · rw [Entry.unfinished] at hrem ⊢
          dsimp only
          omega
        · intro hinfo i job₀ init₀ hi hinit₀ x hx
          dsimp only
          cases Steps.getElem?_set_cases hi with
          | inl hsame =>
            obtain ⟨rfl, rfl⟩ := hsame
            rw [hinit] at hinit₀
            cases hinit₀
            rw [hafter, List.mem_singleton] at hx
            rw [hx, Function.update_self]
          | inr hother =>
            obtain ⟨hne, hi⟩ := hother
            have hscheme : init₀.scheme ≠ init.scheme :=
              fun heq => hne (scheme_inj hinit hinit₀ heq.symm)
            rw [Function.update_of_ne hscheme]
            exact hok.parts hinfo i job₀ init₀ hi hinit₀ x hx
        · intro s hs
          dsimp only at hs
          by_cases hscheme : s = init.scheme
          · exact ⟨init, List.mem_of_getElem? hinit, hscheme.symm⟩
          · rw [Function.update_of_ne hscheme] at hs
            exact hok.noPart s hs
        · refine ⟨⟨rfl, ?_, rfl⟩, rfl, ?_, rfl, rfl⟩
          · rw [Entry.inflight, Entry.inflight, List.length_set]
            simp only [Effect.none]
            omega
          · rw [Entry.weight, Entry.weight]
            dsimp only
            simp only [Option.isSome_some, if_true] at hlt
            omega

theorem Feed.ending_of_shut {f : Feed} {j : ℕ} (h : f.shut j = true) : f.Ending := by
  obtain ⟨buf, pc⟩ := f
  cases pc with
  | closed => exact trivial
  | visiting errand k => exact (Bool.and_eq_true_iff.mp h).1
  | enqueuing errand k => exact (Bool.and_eq_true_iff.mp h).1
  | _ => cases h

theorem Feed.Ending.closeCalled {f : Feed} (h : f.Ending) : f.CloseCalled := by
  have hlast : ∀ errand : Errand, errand.closes = true → errand.last = true := by
    intro errand herrand
    cases errand with
    | chunk bytes rest => cases herrand
    | close => rfl
  obtain ⟨buf, pc⟩ := f
  cases pc with
  | closed => exact trivial
  | visiting errand k => exact hlast errand h
  | enqueuing errand k => exact hlast errand h
  | _ => cases h

theorem Feed.owed_of_ending {f : Feed} {j : ℕ} (h : f.Ending) (hbuf : f.buf = []) :
    f.owed j = [] := by
  have hclose : ∀ errand : Errand, errand.closes = true → errand = .close := by
    intro errand herrand
    cases errand with
    | chunk bytes rest => cases herrand
    | close => rfl
  obtain ⟨buf, pc⟩ := f
  subst hbuf
  cases pc with
  | closed => rfl
  | visiting errand k => cases hclose errand h; simp [Feed.owed, Errand.bytes, Errand.rest]
  | enqueuing errand k => cases hclose errand h; simp [Feed.owed, Errand.bytes, Errand.rest]
  | _ => cases h

section
variable {hash : Scheme → Bytes → Bytes} {probe : Bytes → Bytes → List String} {e e' : Entry}
  {effect : Effect}

/-- A hasher that was finalised had absorbed everything pushed, and its feed is ending. -/
theorem Entry.Ok.finals (hok : e.Ok hash) {j : ℕ} {job : Job} (hjob : e.jobs[j]? = some job)
    {init : HState} (hinit : (hashers e.len)[j]? = some init) :
    job.finals = [] ∨ e.feed.Ending ∧ job.finals = [init.absorbed ++ e.pushed] := by
  obtain ⟨init', given, hinit', hgiven, hjobok⟩ := hok.jobs j job hjob
  rw [hinit] at hinit'
  cases hinit'
  cases hjobok.finals with
  | inl hnil => exact Or.inl hnil
  | inr hdone =>
    obtain ⟨hshut, hfinals⟩ := hdone
    have hending := Feed.ending_of_shut hshut
    rw [Feed.owed_of_ending hending (hok.buf hending.closeCalled), List.append_nil] at hgiven
    rw [hgiven] at hfinals
    exact Or.inr ⟨hending, hfinals⟩

theorem Entry.exists_job (hok : e.Ok hash) {j : ℕ} {init : HState}
    (hinit : (hashers e.len)[j]? = some init) : ∃ job, e.jobs[j]? = some job := by
  obtain ⟨hj, -⟩ := List.getElem?_eq_some_iff.mp hinit
  rw [← hok.jobs_length] at hj
  exact ⟨e.jobs[j], List.getElem?_eq_getElem hj⟩

/-- When nothing remains, every hasher has been finalised over all the bytes. -/
theorem Entry.Ok.all_final (hok : e.Ok hash) (hzero : e.build.remaining = 0) {j : ℕ} {job : Job}
    (hjob : e.jobs[j]? = some job) {init : HState} (hinit : (hashers e.len)[j]? = some init) :
    e.feed.Ending ∧ job.finals = [init.absorbed ++ e.pushed] := by
  have hrem := hok.remaining
  have hsum : (e.jobs.map Job.unfinished).sum = 0 := by
    rw [Entry.unfinished] at hrem
    omega
  have hunf : job.unfinished = 0 :=
    List.sum_eq_zero_iff_forall_eq_nat.mp hsum _ (List.mem_map_of_mem (List.mem_of_getElem? hjob))
  cases hok.finals hjob hinit with
  | inl hnil =>
    rw [Job.unfinished, if_pos hnil] at hunf
    cases hunf
  | inr hdone => exact hdone

theorem Entry.Ok.all_parts (hok : e.Ok hash) (hzero : e.build.remaining = 0)
    (hinfo : e.build.info.isSome) {init : HState} (hinit : init ∈ hashers e.len) :
    e.build.parts init.scheme
      = some (HState.finalize hash ⟨init.scheme, init.absorbed ++ e.pushed⟩) := by
  obtain ⟨j, hj⟩ := List.mem_iff_getElem?.mp hinit
  obtain ⟨job, hjob⟩ := Entry.exists_job hok hj
  obtain ⟨-, hfinals⟩ := hok.all_final hzero hjob hj
  apply hok.parts hinfo j job init hjob hj
  rw [hfinals]
  exact List.mem_singleton_self _

/-- And the feed is ending. -/
theorem Entry.Ok.ending (hok : e.Ok hash) (hzero : e.build.remaining = 0) : e.feed.Ending := by
  have hfirst : (hashers e.len)[0]? = some ⟨.md5, []⟩ := rfl
  obtain ⟨job, hjob⟩ := Entry.exists_job hok hfirst
  exact (hok.all_final hzero hjob hfirst).1

/-- **Counting a part off.** -/
theorem Entry.finishStep_ok (hok : e.Ok hash) (h : e.finishStep = some (e', effect)) :
    e'.Ok hash ∧ ThreadStep e e' effect := by
  rw [finishStep] at h
  by_cases hzero : e.finishing = 0
  · rw [if_pos hzero] at h
    cases h
  rw [if_neg hzero] at h
  cases h
  have hrem := hok.remaining
  have hlast := hok.last
  rw [if_neg (by omega)] at hlast
  refine ⟨{ hok with remaining := ?_, last := ?_ }, ⟨rfl, rfl, rfl⟩, rfl, ?_, rfl, rfl⟩
  · show e.build.remaining - 1 = e.unfinished + (if e.metaOpen then 1 else 0) + (e.finishing - 1)
    omega
  · show (if e.build.remaining = 1 then e.sealing + 1 else e.sealing) + e.filling.length
      + e.seals.length = if e.build.remaining - 1 = 0 then 1 else 0
    by_cases hone : e.build.remaining = 1
    · rw [if_pos hone, if_pos (by omega)]
      omega
    · rw [if_neg hone, if_neg (by omega)]
      exact hlast
  · rw [Entry.weight, Entry.weight]
    dsimp only
    split <;> omega

/-- **Sealing**: the last one finds the metadata in place and every part present. -/
theorem Entry.sealStep_ok (hok : e.Ok hash) (h : e.sealStep probe = some (e', effect)) :
    e'.Ok hash ∧ ThreadStep e e' effect := by
  rw [sealStep] at h
  by_cases hnone : e.sealing = 0
  · rw [if_pos hnone] at h
    cases h
  rw [if_neg hnone] at h
  have hlast := hok.last
  have hzero : e.build.remaining = 0 := by
    by_contra hne
    rw [if_neg hne] at hlast
    omega
  rw [if_pos hzero] at hlast
  have hinfo : e.build.info.isSome := hok.info.mpr (by omega)
  have hpart : ∀ init ∈ hashers e.len, e.build.parts init.scheme
      = some (HState.finalize hash ⟨init.scheme, init.absorbed ++ e.pushed⟩) :=
    fun init hinit => hok.all_parts hzero hinfo hinit
  have hmd5 := hpart ⟨.md5, []⟩ (by simp [hashers])
  have hsha1 := hpart ⟨.sha1, []⟩ (by simp [hashers])
  have hsha256 := hpart ⟨.sha256, []⟩ (by simp [hashers])
  have hsha512 := hpart ⟨.sha512, []⟩ (by simp [hashers])
  have hblake := hpart ⟨.blake2s256, []⟩ (by simp [hashers])
  have hgit : e.build.parts .sha1Git = e.len.map fun n => hash .sha1 (gitHeader n ++ e.pushed) := by
    cases hlen : e.len with
    | none =>
      by_contra hsome
      obtain ⟨init, hinit, hscheme⟩ := hok.noPart _ hsome
      rw [hlen] at hinit
      simp [hashers] at hinit
      rcases hinit with rfl | rfl | rfl | rfl | rfl <;> cases hscheme
    | some n => exact hpart ⟨.sha1Git, gitHeader n⟩ (by simp [hashers, hlen])
  obtain ⟨info, hsome⟩ := Option.isSome_iff_exists.mp hinfo
  have hempty : e.filling = [] ∧ e.seals = [] :=
    ⟨List.length_eq_zero_iff.mp (by omega), List.length_eq_zero_iff.mp (by omega)⟩
  simp only [hsome, hsha1, hsha256] at h
  cases h
  refine ⟨{ hok with last := ?_, info := ?_, parts := ?_, noPart := ?_, members := ?_ },
    ⟨rfl, rfl, rfl⟩, rfl, ?_, rfl, rfl⟩
  · show e.sealing - 1 + (e.filling ++ [_]).length + e.seals.length
      = if e.build.remaining = 0 then 1 else 0
    rw [if_pos hzero, List.length_append, List.length_singleton]
    omega
  · simp
  · intro hinfo'
    cases hinfo'
  · intro s hs
    exact absurd rfl hs
  · intro m hm
    rw [hempty.1, hempty.2] at hm
    simp only [List.nil_append, List.append_nil, List.mem_singleton] at hm
    rw [hm]
    refine ⟨hok.size, ?_⟩
    rw [digestsOf, hmd5, hsha512, hblake, hgit]
    rfl
  · rw [Entry.weight, Entry.weight]
    dsimp only
    rw [List.length_append, List.length_singleton]
    omega

theorem Entry.fillStep_ok (hok : e.Ok hash) (h : e.fillStep = some (e', effect)) :
    e'.Ok hash ∧ ThreadStep e e' effect := by
  rw [fillStep] at h
  cases hfill : e.filling with
  | nil => rw [hfill] at h; cases h
  | cons m rest =>
    rw [hfill] at h
    cases h
    have hlast := hok.last
    have hinfo := hok.info
    have hmembers := hok.members
    rw [hfill] at hlast hinfo hmembers
    simp only [List.length_cons] at hlast hinfo
    refine ⟨{ hok with last := ?_, info := ?_, members := ?_ }, ⟨rfl, rfl, ?_⟩, rfl, ?_, rfl, rfl⟩
    · simp only [List.length_append, List.length_singleton]
      omega
    · rw [hinfo]
      simp only [List.length_append, List.length_singleton]
      omega
    · intro m' hm'
      apply hmembers m'
      simp only [List.mem_append, List.mem_cons, List.not_mem_nil] at hm' ⊢
      tauto
    · rw [List.length_append]
      rfl
    · rw [Entry.weight, Entry.weight, hfill]
      dsimp only
      rw [List.length_cons]
      omega

/-- A feed that moves on without touching a job. -/
theorem Entry.Ok.withFeed (hok : e.Ok hash) {feed : Feed}
    (hsame : ∀ j < e.jobs.length, feed.owed j = e.feed.owed j ∧ feed.shut j = e.feed.shut j
      ∧ feed.marked j = e.feed.marked j)
    (hbuf : feed.CloseCalled → feed.buf = []) : { e with feed := feed }.Ok hash := by
  refine { hok with jobs := ?_, buf := hbuf }
  intro j job hjob
  obtain ⟨hj, -⟩ := List.getElem?_eq_some_iff.mp hjob
  obtain ⟨howed, hshut, hmarked⟩ := hsame j hj
  dsimp only at hjob ⊢
  rw [howed, hshut, hmarked]
  exact hok.jobs j job hjob

/-- A feed that moves on past the `k`-th job. -/
theorem Entry.Ok.withJob (hok : e.Ok hash) {k : ℕ} {job job' : Job} {feed : Feed}
    (hjob : e.jobs[k]? = some job) (hfinals : job'.finals = job.finals)
    (hnew : ∀ init given, given ++ e.feed.owed k = e.pushed →
      JobOk init given (e.feed.shut k) (e.feed.marked k) job →
        ∃ given', given' ++ feed.owed k = e.pushed
          ∧ JobOk init given' (feed.shut k) (feed.marked k) job')
    (hsame : ∀ j, j ≠ k → feed.owed j = e.feed.owed j ∧ feed.shut j = e.feed.shut j
      ∧ feed.marked j = e.feed.marked j)
    (hbuf : feed.CloseCalled → feed.buf = []) :
    { e with jobs := e.jobs.set k job', feed := feed }.Ok hash := by
  have hunf := Steps.sum_map_set Job.unfinished hjob job'
  have hequal : job'.unfinished = job.unfinished := by rw [Job.unfinished, hfinals, Job.unfinished]
  refine { hok with jobs_length := ?_, jobs := ?_, buf := hbuf, remaining := ?_, parts := ?_ }
  · rw [List.length_set]
    exact hok.jobs_length
  · intro j job₀ hj
    dsimp only at hj ⊢
    cases Steps.getElem?_set_cases hj with
    | inl hkj =>
      obtain ⟨rfl, rfl⟩ := hkj
      obtain ⟨init, given, hinit, hgiven, hjobok⟩ := hok.jobs k job hjob
      obtain ⟨given', hgiven', hjobok'⟩ := hnew init given hgiven hjobok
      exact ⟨init, given', hinit, hgiven', hjobok'⟩
    | inr hother =>
      obtain ⟨hne, hj⟩ := hother
      obtain ⟨howed, hshut, hmarked⟩ := hsame j (Ne.symm hne)
      rw [howed, hshut, hmarked]
      exact hok.jobs j job₀ hj
  · have hrem := hok.remaining
    rw [Entry.unfinished] at hrem ⊢
    dsimp only
    omega
  · intro hinfo j job₀ init hj hinit x hx
    cases Steps.getElem?_set_cases hj with
    | inl hkj =>
      obtain ⟨rfl, rfl⟩ := hkj
      rw [hfinals] at hx
      exact hok.parts hinfo k job init hjob hinit x hx
    | inr hother => exact hok.parts hinfo j job₀ init hother.2 hinit x hx

/-- **The holder goes on**: through its push, past the budget, and from job to job. -/
theorem Entry.feedStep_ok {budget : ℤ} (hok : e.Ok hash)
    (h : e.feedStep budget = some (e', effect)) : e'.Ok hash ∧ EntryStep e e' effect := by
  have hbuf := hok.buf
  rw [feedStep] at h
  cases hpc : e.feed.pc with
  | idle => rw [hpc] at h; cases h
  | closed => rw [hpc] at h; cases h
  | pushing rest =>
    cases rest with
    | nil =>
      rw [hpc] at h
      cases h
      refine ⟨hok.withFeed ?_ ?_, rfl, ?_, rfl⟩
      · intro j _
        simp [Feed.owed, Feed.shut, Feed.marked, hpc]
      · exact fun hcalled => hcalled.elim
      · simp [Entry.inflight, Feed.inflight, hpc]
    | cons b rest =>
      rw [hpc] at h
      dsimp only at h
      have hcut : (b :: rest).take (chunkMax - e.feed.buf.length)
          ++ (b :: rest).drop (chunkMax - e.feed.buf.length) = b :: rest := List.take_append_drop _ _
      split at h
      · cases h
        refine ⟨hok.withFeed ?_ ?_, rfl, ?_, rfl⟩
        · intro j _
          simp [Feed.owed, Feed.shut, Feed.marked, hpc, hcut]
        · exact fun _ => rfl
        · simp [Entry.inflight, Feed.inflight, hpc]
      · cases h
        refine ⟨hok.withFeed ?_ ?_, rfl, ?_, rfl⟩
        · intro j _
          simp [Feed.owed, Feed.shut, Feed.marked, hpc, hcut]
        · exact fun hcalled => hcalled.elim
        · simp [Entry.inflight, Feed.inflight, hpc]
  | acquiring chunk rest =>
    rw [hpc] at h
    dsimp only at h
    split at h
    · cases h
    · cases h
      refine ⟨hok.withFeed ?_ ?_, rfl, ?_, rfl⟩
      · intro j _
        simp [Feed.owed, Feed.shut, Feed.marked, hpc, Errand.bytes, Errand.rest, Errand.closes]
      · intro hcalled
        apply hbuf
        rw [Feed.CloseCalled, hpc]
        exact hcalled
      · simp [Entry.inflight, Feed.inflight, hpc, Errand.bytes, Effect.none, Nat.add_comm]
  | visiting errand k =>
    rw [hpc] at h
    dsimp only at h
    cases hjob : e.jobs[k]? with
    | none =>
      rw [hjob] at h
      cases h
      have hk : e.jobs.length ≤ k := List.getElem?_eq_none_iff.mp hjob
      refine ⟨hok.withFeed ?_ ?_, rfl, ?_, rfl⟩
      · intro j hj
        have hjk : j < k := by omega
        rcases errand with ⟨bytes, rest | rest⟩ | _ <;>
          simp [Feed.owed, Feed.shut, Feed.marked, hpc, hjk, Errand.done, Errand.bytes,
            Errand.rest, Errand.closes]
      · intro hcalled
        apply hbuf
        rw [Feed.CloseCalled, hpc]
        rcases errand with ⟨bytes, rest | rest⟩ | _
        · rfl
        · exact hcalled.elim
        · rfl
      · have hzero : e.jobs.length - k = 0 := by omega
        rcases errand with ⟨bytes, rest | rest⟩ | _ <;>
          simp [Entry.inflight, Feed.inflight, hpc, hzero, Errand.done, Errand.bytes, Effect.none]
    | some job =>
      rw [hjob] at h
      obtain ⟨hk, -⟩ := List.getElem?_eq_some_iff.mp hjob
      have hin := Steps.sum_map_set Job.inflight hjob
        { job with state := { errand.deliver job.state with queued := true } }
      rw [Errand.deliver_inflight] at hin
      dsimp only at hin
      have hleft : errand.bytes.length * (e.jobs.length - k)
          = errand.bytes.length * (e.jobs.length - (k + 1)) + errand.bytes.length := by
        rw [← Nat.mul_succ]
        congr 1
        omega
      have hlt : ∀ j, j ≠ k → ((j < k + 1 ↔ j < k) ∧ (j ≤ k ↔ j < k)) := fun j hj => by omega
      have hgive : ∀ given, given ++ e.feed.owed k = e.pushed →
          given ++ errand.bytes ++ (e.feed.buf ++ errand.rest) = e.pushed := by
        intro given hgiven
        simp only [Feed.owed, hpc, lt_irrefl, if_false] at hgiven
        rw [List.append_assoc]
        exact hgiven
      have hbuf' : errand.last → e.feed.buf = [] := by
        intro hlast
        apply hbuf
        rw [Feed.CloseCalled, hpc]
        exact hlast
      have hfresh : ∀ init given, JobOk init given (e.feed.shut k) (e.feed.marked k) job →
          JobOk init given false false job := by
        intro init given hjobok
        simpa [Feed.shut, Feed.marked, hpc] using hjobok
      cases hqueued : job.state.queued with
      | true =>
        simp only [Errand.deliver_queued, hqueued, if_true] at h
        cases h
        refine ⟨hok.withJob hjob rfl ?_ ?_ hbuf', rfl, ?_, rfl⟩
        · intro init given hgiven hjobok
          refine ⟨given ++ errand.bytes, ?_, ?_⟩
          · simpa [Feed.owed] using hgive given hgiven
          · have hdeliver := (hfresh init given hjobok).deliver errand
            simpa [Feed.shut, Feed.marked, hqueued] using hdeliver
        · intro j hj
          simp [Feed.owed, Feed.shut, Feed.marked, hpc, hlt j hj]
        · rw [Entry.inflight, Entry.inflight, List.length_set, Feed.inflight, hpc, Feed.inflight]
          simp only [Effect.none_acquired, Effect.none_released]
          omega
      | false =>
        simp only [Errand.deliver_queued, hqueued, Bool.false_eq_true, if_false] at h
        cases h
        refine ⟨hok.withJob hjob rfl ?_ ?_ hbuf', rfl, ?_, rfl⟩
        · intro init given hgiven hjobok
          refine ⟨given ++ errand.bytes, ?_, ?_⟩
          · simpa [Feed.owed] using hgive given hgiven
          · have hdeliver := (hfresh init given hjobok).deliver errand
            simpa [Feed.shut, Feed.marked, hqueued] using hdeliver
        · intro j hj
          simp [Feed.owed, Feed.shut, Feed.marked, hpc, hlt j hj, hj]
        · rw [Entry.inflight, Entry.inflight, List.length_set, Feed.inflight, hpc, Feed.inflight]
          simp only [Effect.none_acquired, Effect.none_released]
          omega
  | enqueuing errand k =>
    rw [hpc] at h
    dsimp only at h
    cases hjob : e.jobs[k]? with
    | none => rw [hjob] at h; cases h
    | some job =>
      rw [hjob] at h
      cases h
      have hin := Steps.sum_map_set Job.inflight hjob
        { job with threads := job.threads ++ [.waiting] }
      have hjobin : Job.inflight { job with threads := job.threads ++ [.waiting] } = job.inflight := by
        simp [Job.inflight, JobThread.inflight]
      have hlt : ∀ j, j ≠ k → ((j < k + 1 ↔ j ≤ k)) := fun j hj => by omega
      refine ⟨hok.withJob hjob rfl ?_ ?_ ?_, rfl, ?_, rfl⟩
      · intro init given hgiven hjobok
        refine ⟨given, ?_, ?_⟩
        · simpa [Feed.owed, hpc] using hgiven
        · have hmarked : JobOk init given errand.closes true job := by
            simpa [Feed.shut, Feed.marked, hpc] using hjobok
          simpa [Feed.shut, Feed.marked] using hmarked.enqueue
      · intro j hj
        simp [Feed.owed, Feed.shut, Feed.marked, hpc, hlt j hj, hj]
      · intro hcalled
        apply hbuf
        rw [Feed.CloseCalled, hpc]
        exact hcalled
      · rw [Entry.inflight, Entry.inflight, List.length_set, Feed.inflight, hpc, Feed.inflight]
        simp only [Effect.none_acquired, Effect.none_released]
        omega

/-- While the metadata handle is open, or a push can come, nothing has been sealed. -/
theorem Entry.Ok.unsealed (hok : e.Ok hash) (h : e.metaOpen = true ∨ e.feed.pc = .idle) :
    e.build.remaining ≠ 0 := by
  intro hzero
  cases h with
  | inl hopen =>
    have hrem := hok.remaining
    rw [hopen] at hrem
    simp only [if_true] at hrem
    omega
  | inr hidle =>
    have hending := hok.ending hzero
    rw [Feed.Ending, hidle] at hending
    exact hending

theorem Entry.push_ok (hok : e.Ok hash) (bytes : Bytes) (hidle : e.feed.pc = .idle) :
    Entry.Ok hash { e with
      build := { e.build with size := e.build.size + bytes.length }
      feed := { e.feed with pc := .pushing bytes }
      pushed := e.pushed ++ bytes } := by
  have hlast := hok.last
  rw [if_neg (hok.unsealed (Or.inr hidle))] at hlast
  have hnone : e.filling = [] ∧ e.seals = [] :=
    ⟨List.length_eq_zero_iff.mp (by omega), List.length_eq_zero_iff.mp (by omega)⟩
  refine { hok with jobs := ?_, buf := ?_, size := ?_, members := ?_ }
  · intro j job hjob
    obtain ⟨init, given, hinit, hgiven, hjobok⟩ := hok.jobs j job hjob
    refine ⟨init, given, hinit, ?_, ?_⟩
    · simp only [Feed.owed, hidle] at hgiven ⊢
      rw [← List.append_assoc, hgiven]
    · simpa [Feed.shut, Feed.marked, hidle] using hjobok
  · exact fun hcalled => hcalled.elim
  · rw [List.length_append, ← hok.size]
  · intro m hm
    rw [hnone.1, hnone.2] at hm
    cases hm

theorem Entry.close_ok (hok : e.Ok hash) (hidle : e.feed.pc = .idle) :
    Entry.Ok hash { e with
      feed := ⟨[], if e.feed.buf = [] then .visiting .close 0 else .acquiring e.feed.buf none⟩ } := by
  apply hok.withFeed
  · intro j _
    by_cases hbuf : e.feed.buf = []
    · simp [Feed.owed, Feed.shut, Feed.marked, hidle, hbuf, Errand.bytes, Errand.rest]
    · simp [Feed.owed, Feed.shut, Feed.marked, hidle, hbuf]
  · exact fun _ => rfl

theorem Entry.closeMeta_ok (hok : e.Ok hash) (hopen : e.metaOpen = true) (info : Meta) :
    Entry.Ok hash { e with
      build := { e.build with info := some info }
      metaOpen := false
      finishing := e.finishing + 1 } := by
  have hrem := hok.remaining
  have hlast := hok.last
  rw [if_neg (hok.unsealed (Or.inl hopen))] at hlast
  rw [hopen] at hrem
  simp only [if_true] at hrem
  have hinfo : e.build.info.isSome := hok.info.mpr (by omega)
  refine { hok with remaining := ?_, info := ?_, parts := fun _ => hok.parts hinfo }
  · show e.build.remaining = e.unfinished + (if false = true then 1 else 0) + (e.finishing + 1)
    simp only [Bool.false_eq_true, if_false]
    omega
  · constructor
    · intro _
      exact hok.info.mp hinfo
    · exact fun _ => rfl

/-- **A member's step keeps everything that holds of it.** -/
theorem Entry.step_ok {budget : ℤ} {a : EntryAction} (hok : e.Ok hash)
    (h : e.step hash probe budget a = some (e', effect)) : e'.Ok hash ∧ EntryStep e e' effect := by
  cases a with
  | push bytes =>
    rw [step] at h
    by_cases hidle : e.feed.pc = .idle
    · rw [if_pos hidle] at h
      cases h
      refine ⟨Entry.push_ok hok bytes hidle, rfl, ?_, rfl⟩
      simp [Entry.inflight, Feed.inflight, hidle]
    · rw [if_neg hidle] at h
      cases h
  | close =>
    rw [step] at h
    by_cases hidle : e.feed.pc = .idle
    · rw [if_pos hidle] at h
      cases h
      refine ⟨Entry.close_ok hok hidle, rfl, ?_, rfl⟩
      by_cases hbuf : e.feed.buf = [] <;>
        simp [Entry.inflight, Feed.inflight, hidle, hbuf, Errand.bytes]
    · rw [if_neg hidle] at h
      cases h
  | note text =>
    rw [step] at h
    by_cases hidle : e.feed.pc = .idle
    · rw [if_pos hidle] at h
      cases h
      have hsome : (e.build.info.map (addNote · text)).isSome = e.build.info.isSome :=
        Option.isSome_map
      refine ⟨{ hok with info := ?_, parts := ?_ }, rfl, rfl, rfl⟩
      · show (e.build.info.map (addNote · text)).isSome ↔ _
        rw [hsome]
        exact hok.info
      · intro hinfo
        rw [hsome] at hinfo
        exact hok.parts hinfo
    · rw [if_neg hidle] at h
      cases h
  | closeMeta kind children note =>
    rw [step] at h
    by_cases hopen : e.metaOpen = true
    · rw [if_pos hopen] at h
      have hlast := hok.last
      rw [if_neg (hok.unsealed (Or.inl hopen))] at hlast
      obtain ⟨info, hinfo⟩ := Option.isSome_iff_exists.mp (hok.info.mpr (by omega))
      rw [hinfo] at h
      cases h
      exact ⟨Entry.closeMeta_ok hok hopen _, rfl, rfl, rfl⟩
    · rw [if_neg hopen] at h
      cases h
  | feed => exact Entry.feedStep_ok hok h
  | job j t =>
    obtain ⟨hok', hstep⟩ := Entry.jobStep_ok hok h
    exact ⟨hok', hstep.toEntryStep⟩
  | finish =>
    obtain ⟨hok', hstep⟩ := Entry.finishStep_ok hok h
    exact ⟨hok', hstep.toEntryStep⟩
  | sealUp =>
    obtain ⟨hok', hstep⟩ := Entry.sealStep_ok hok h
    exact ⟨hok', hstep.toEntryStep⟩
  | fill =>
    obtain ⟨hok', hstep⟩ := Entry.fillStep_ok hok h
    exact ⟨hok', hstep.toEntryStep⟩

theorem Entry.new_ok (hash : Scheme → Bytes → Bytes) (path : String) (depth : ℕ)
    (parent len ord : Option ℕ) (slot : ℕ) : (Entry.new path depth parent len ord slot).Ok hash := by
  have hfinals : ∀ job ∈ (Entry.new path depth parent len ord slot).jobs, job.finals = [] := by
    intro job hjob
    obtain ⟨init, -, rfl⟩ := List.mem_map.mp hjob
    rfl
  constructor
  case jobs_length => exact List.length_map _
  case jobs =>
    intro j job hjob
    simp only [Entry.new, List.getElem?_map, Option.map_eq_some_iff] at hjob
    obtain ⟨init, hinit, rfl⟩ := hjob
    exact ⟨init, [], hinit, rfl, .resting (List.append_nil _).symm⟩
  case buf => exact fun _ => rfl
  case size => rfl
  case remaining =>
    have hsum : (Entry.new path depth parent len ord slot).unfinished = (hashers len).length := by
      rw [Entry.unfinished, List.map_eq_map_iff.mpr fun job hjob => by
        rw [Job.unfinished, if_pos (hfinals job hjob)]]
      simp [Entry.new, Function.comp_def]
    rw [hsum]
    rfl
  case last => rfl
  case info => simp [Entry.new]
  case parts =>
    intro _ j job init hjob _ x hx
    rw [hfinals job (List.mem_of_getElem? hjob)] at hx
    cases hx
  case noPart => exact fun s hs => absurd rfl hs
  case members =>
    intro m hm
    cases hm
  case running => rfl

end

/-! ### The pool -/

/-- How many members have been filled in. -/
def State.seals (s : State) : ℕ := (s.entries.map fun e => e.seals.length).sum

def State.inflight (s : State) : ℕ := (s.entries.map Entry.inflight).sum

def State.weight (s : State) : ℕ := (s.entries.map Entry.weight).sum

/-- Every slot has been filled, and of every member both handles are closed. -/
structure State.HandlesClosed (s : State) : Prop where
  slots : s.slots = 0
  entries : ∀ e ∈ s.entries, e.feed.pc = .closed ∧ e.metaOpen = false

/-- A step of a thread at work on a member, as opposed to one of a handle's holder. -/
def Action.Works : Action → Prop
  | .entry _ (.job _ _) => True
  | .entry _ .finish => True
  | .entry _ .sealUp => True
  | .entry _ .fill => True
  | _ => False

structure State.Ok (hash : Scheme → Bytes → Bytes) (s : State) : Prop where
  entries : ∀ e ∈ s.entries, e.Ok hash
  budget : s.budget = s.acquired - s.released
  inflight : s.acquired = s.released + s.inflight
  filled : s.created + s.seals = s.filled + s.entries.length + s.slots

section
variable {hash : Scheme → Bytes → Bytes} {probe : Bytes → Bytes → List String} {s s' : State}

theorem State.new_ok : State.new.Ok hash :=
  ⟨fun _ he => absurd he List.not_mem_nil, rfl, rfl, rfl⟩

/-- What an action on a member does to the pool. -/
theorem State.step_entry {i : ℕ} {a : EntryAction}
    (h : s.step hash probe (.entry i a) = some s') :
    ∃ e e' effect, s.entries[i]? = some e ∧ e.step hash probe s.budget a = some (e', effect)
      ∧ s' = { s with
        entries := s.entries.set i e'
        budget := s.budget + effect.acquired - effect.released
        filled := s.filled + effect.filled
        acquired := s.acquired + effect.acquired
        released := s.released + effect.released } := by
  rw [State.step] at h
  cases hentry : s.entries[i]? with
  | none => rw [hentry] at h; cases h
  | some e =>
    rw [hentry] at h
    dsimp only at h
    cases hstep : e.step hash probe s.budget a with
    | none => rw [hstep] at h; cases h
    | some out =>
      obtain ⟨e', effect⟩ := out
      rw [hstep] at h
      cases h
      exact ⟨e, e', effect, rfl, hstep, rfl⟩

theorem State.step_ok {a : Action} (hok : s.Ok hash) (h : s.step hash probe a = some s') :
    s'.Ok hash := by
  have hfilled := hok.filled
  cases a with
  | reserve =>
    cases h
    refine { hok with filled := ?_ }
    show s.created + 1 + s.seals = s.filled + s.entries.length + (s.slots + 1)
    omega
  | fillSlot =>
    rw [State.step] at h
    by_cases hzero : s.slots = 0
    · rw [if_pos hzero] at h
      cases h
    rw [if_neg hzero] at h
    cases h
    refine { hok with filled := ?_ }
    show s.created + s.seals = s.filled + 1 + s.entries.length + (s.slots - 1)
    omega
  | member path depth parent len ord =>
    cases h
    refine { hok with entries := ?_, inflight := ?_, filled := ?_ }
    · intro e he
      cases List.mem_append.mp he with
      | inl hold => exact hok.entries e hold
      | inr hnew =>
        rw [List.mem_singleton.mp hnew]
        exact Entry.new_ok hash path depth parent len ord s.created
    · have hnone : (Entry.new path depth parent len ord s.created).inflight = 0 := by
        simp [Entry.inflight, Entry.new, Feed.inflight, Job.inflight, Function.comp_def]
      have hin := hok.inflight
      rw [State.inflight] at hin ⊢
      rw [List.map_append, List.sum_append, List.map_singleton, List.sum_singleton, hnone]
      exact hin
    · rw [State.seals] at hfilled ⊢
      simp only [List.map_append, List.sum_append, List.map_singleton, List.sum_singleton,
        List.length_append, List.length_singleton]
      have hnone : (Entry.new path depth parent len ord s.created).seals.length = 0 := rfl
      omega
  | entry i a =>
    obtain ⟨e, e', effect, hentry, hstep, rfl⟩ := State.step_entry h
    have he := hok.entries e (List.mem_of_getElem? hentry)
    obtain ⟨he', hmoved⟩ := Entry.step_ok he hstep
    have hin := Steps.sum_map_set Entry.inflight hentry e'
    have hseals := Steps.sum_map_set (fun e : Entry => e.seals.length) hentry e'
    have hmin := hmoved.inflight
    have hmseals := hmoved.seals
    have hbudget := hok.budget
    have hinflight := hok.inflight
    constructor
    case entries =>
      intro e₀ he₀
      cases List.mem_or_eq_of_mem_set he₀ with
      | inl hold => exact hok.entries e₀ hold
      | inr hnew => rwa [hnew]
    case budget =>
      dsimp only
      push_cast
      omega
    case inflight =>
      rw [State.inflight] at hinflight ⊢
      dsimp only
      omega
    case filled =>
      rw [State.seals] at hfilled ⊢
      simp only [List.length_set]
      omega

/-- **A thread's step** leaves every handle as it is and brings the end nearer. -/
theorem State.work_step {a : Action} (hok : s.Ok hash) (hclosed : s.HandlesClosed) (ha : a.Works)
    (h : s.step hash probe a = some s') : s'.HandlesClosed ∧ s'.weight < s.weight := by
  cases a with
  | reserve => exact ha.elim
  | fillSlot => exact ha.elim
  | member path depth parent len ord => exact ha.elim
  | entry i a =>
    obtain ⟨e, e', effect, hentry, hstep, rfl⟩ := State.step_entry h
    have hmem := List.mem_of_getElem? hentry
    have he := hok.entries e hmem
    have hwork : ThreadStep e e' effect := by
      cases a with
      | job j t => exact (Entry.jobStep_ok he hstep).2
      | finish => exact (Entry.finishStep_ok he hstep).2
      | sealUp => exact (Entry.sealStep_ok he hstep).2
      | fill => exact (Entry.fillStep_ok he hstep).2
      | _ => exact ha.elim
    refine ⟨⟨hclosed.slots, ?_⟩, ?_⟩
    · intro e₀ he₀
      cases List.mem_or_eq_of_mem_set he₀ with
      | inl hold => exact hclosed.entries e₀ hold
      | inr hnew =>
        rw [hnew, hwork.feed, hwork.metaOpen]
        exact hclosed.entries e hmem
    · have hsum := Steps.sum_map_set Entry.weight hentry e'
      have hlt := hwork.weight
      rw [State.weight, State.weight]
      dsimp only
      omega

/-- An entry on which no thread has anything to do. -/
theorem State.entry_quiet {i : ℕ} {e : Entry} (hentry : s.entries[i]? = some e)
    (hquiet : ∀ a : Action, a.Works → s.step hash probe a = none) {a : EntryAction}
    (ha : (Action.entry i a).Works) : e.step hash probe s.budget a = none := by
  have hnone := hquiet (.entry i a) ha
  rw [State.step, hentry] at hnone
  dsimp only at hnone
  cases hstep : e.step hash probe s.budget a with
  | none => rfl
  | some out => rw [hstep] at hnone; cases hnone

/-- A job with a task has a task that can go on. -/
theorem JobOk.threads_nil {init : HState} {given : Bytes} {shut marked : Bool} {job : Job}
    (h : JobOk init given shut marked job) (hnone : job.step 0 = none) : job.threads = [] := by
  cases h <;> first | rfl | cases hnone

/-- **Nothing is left over**: of a member with both handles closed, on which no thread can go on,
every hasher has been finalised and the member has been sealed. -/
theorem Entry.Ok.quiet {e : Entry} {budget : ℤ} (hok : e.Ok hash) (hfeed : e.feed.pc = .closed)
    (hmeta : e.metaOpen = false) (hjob : ∀ j, e.step hash probe budget (.job j 0) = none)
    (hfinish : e.step hash probe budget .finish = none)
    (hseal : e.step hash probe budget .sealUp = none)
    (hfill : e.step hash probe budget .fill = none) :
    e.seals.length = 1 ∧ e.inflight = 0 ∧ ∀ job ∈ e.jobs, job.finals.length = 1 := by
  have hjobs : ∀ job ∈ e.jobs, job.finals.length = 1 ∧ job.inflight = 0 := by
    intro job hmem
    obtain ⟨j, hj⟩ := List.mem_iff_getElem?.mp hmem
    obtain ⟨init, given, -, -, hjobok⟩ := hok.jobs j job hj
    have hstuck : job.step 0 = none := by
      have hnone := hjob j
      rw [Entry.step, Entry.jobStep, hj] at hnone
      dsimp only at hnone
      cases hstep : job.step 0 with
      | none => rfl
      | some out =>
        obtain ⟨job', eff⟩ := out
        rw [hstep] at hnone
        dsimp only at hnone
        cases hpart : eff.part with
        | none => rw [hpart] at hnone; cases hnone
        | some h => rw [hpart] at hnone; cases hnone
    have hnil := hjobok.threads_nil hstuck
    have hshut : e.feed.shut j = true ∧ e.feed.marked j = false := by
      simp [Feed.shut, Feed.marked, hfeed]
    rw [hshut.1, hshut.2] at hjobok
    cases hjobok with
    | done h => exact ⟨rfl, rfl⟩
    | _ => cases hnil
  have hfinish' : e.finishing = 0 := by
    by_contra hne
    rw [Entry.step, Entry.finishStep, if_neg hne] at hfinish
    cases hfinish
  have hfill' : e.filling = [] := by
    cases hcase : e.filling with
    | nil => rfl
    | cons m rest => rw [Entry.step, Entry.fillStep, hcase] at hfill; cases hfill
  have hunf : e.unfinished = 0 := by
    apply List.sum_eq_zero_iff_forall_eq_nat.mpr
    intro n hn
    obtain ⟨job, hmem, rfl⟩ := List.mem_map.mp hn
    have hlen := (hjobs job hmem).1
    rw [Job.unfinished, if_neg]
    intro hnil
    rw [hnil] at hlen
    cases hlen
  have hzero : e.build.remaining = 0 := by
    rw [hok.remaining, hunf, hmeta, hfinish']
    rfl
  have hlast := hok.last
  rw [if_pos hzero, hfill'] at hlast
  have hseal' : e.sealing = 0 := by
    by_contra hne
    have hinfo : e.build.info.isSome := by
      apply hok.info.mpr
      rw [hfill']
      simp only [List.length_nil] at hlast ⊢
      omega
    obtain ⟨info, hsome⟩ := Option.isSome_iff_exists.mp hinfo
    rw [Entry.step, Entry.sealStep, if_neg hne] at hseal
    simp only [hsome] at hseal
    split at hseal <;> cases hseal
  refine ⟨?_, ?_, fun job hmem => (hjobs job hmem).1⟩
  · simp only [List.length_nil] at hlast
    omega
  · have hin : (e.jobs.map Job.inflight).sum = 0 := by
      apply List.sum_eq_zero_iff_forall_eq_nat.mpr
      intro n hn
      obtain ⟨job, hmem, rfl⟩ := List.mem_map.mp hn
      exact (hjobs job hmem).2
    rw [Entry.inflight, Feed.inflight, hfeed, hin]

end

/-! ### Every run -/

/-- The job's hasher, in its place or in a worker's hands. -/
def Job.hasherAt (job : Job) : List HState :=
  job.state.hasher.toList ++ job.threads.filterMap fun
    | .hashing h _ => some h
    | .releasing h _ => some h
    | .returning h => some h
    | .finalizing h => some h
    | _ => none

/-- A job can only be where its one hasher is a prefix's, and no task of it has panicked. -/
theorem JobOk.hasherAt {init : HState} {given : Bytes} {shut marked : Bool} {job : Job}
    (h : JobOk init given shut marked job) :
    job.hasherAt.length + job.finals.length = 1
      ∧ (∀ x ∈ job.hasherAt, x.scheme = init.scheme ∧ x.absorbed <+: init.absorbed ++ given)
      ∧ ∀ message, JobThread.panicked message ∉ job.threads := by
  cases h with
  | resting h => simp [Job.hasherAt, h]
  | marked h => simp [Job.hasherAt, ← h]
  | waiting h => simp [Job.hasherAt, ← h]
  | entering h => simp [Job.hasherAt, ← h]
  | hashing h => simp [Job.hasherAt, ← h, List.append_assoc]
  | releasing freed h => simp [Job.hasherAt, ← h]
  | returning h => simp [Job.hasherAt, ← h]
  | finalizing h => simp [Job.hasherAt, h]
  | done h => simp [Job.hasherAt]

/-- **The pool's protocol**, over every interleaving of the producers, the workers and the metadata
closes.  Each job has one hasher, which has absorbed a prefix of the bytes pushed and is finalised
once, over all of them; each member is sealed once, with every part there; the budget is what was
acquired and not yet released, and that is what waits to be hashed.  Once all handles are closed the
threads come to an end, and then every member has been sealed and every unit given back. -/
theorem pool_protocol (hash : Scheme → Bytes → Bytes) (probe : Bytes → Bytes → List String)
    {actions : List Action} {s : State}
    (h : Steps.run (State.step hash probe) State.new actions = some s) :
    (∀ e ∈ s.entries, e.panicked = none ∧ e.seals.length ≤ 1
      ∧ (∀ m ∈ e.seals, m.size = e.pushed.length ∧ m.digests = digestsOf hash e.len e.pushed)
      ∧ e.jobs.length = (hashers e.len).length
      ∧ ∀ (j : ℕ) (job : Job) (init : HState), e.jobs[j]? = some job →
        (hashers e.len)[j]? = some init →
          job.hasherAt.length + job.finals.length = 1
          ∧ (∀ x ∈ job.hasherAt, x.scheme = init.scheme ∧ x.absorbed <+: init.absorbed ++ e.pushed)
          ∧ (∀ message, JobThread.panicked message ∉ job.threads)
          ∧ ∀ x ∈ job.finals, x = init.absorbed ++ e.pushed)
    ∧ s.budget = s.acquired - s.released ∧ s.acquired = s.released + s.inflight
    ∧ (s.HandlesClosed →
      (∀ (work : List Action) (s' : State), (∀ a ∈ work, a.Works) →
        Steps.run (State.step hash probe) s work = some s' →
          s'.HandlesClosed ∧ work.length + s'.weight ≤ s.weight)
      ∧ ((∀ a : Action, a.Works → s.step hash probe a = none) →
        s.filled = s.created ∧ s.released = s.acquired
          ∧ ∀ e ∈ s.entries, e.seals.length = 1 ∧ ∀ job ∈ e.jobs, job.finals.length = 1)) := by
  have hok : s.Ok hash :=
    Steps.run_invariant (fun _ _ _ hs hstep => State.step_ok hs hstep) State.new_ok h
  refine ⟨?_, hok.budget, hok.inflight, ?_⟩
  · intro e he
    have heok := hok.entries e he
    have hlast := heok.last
    refine ⟨heok.running, ?_, ?_, heok.jobs_length, ?_⟩
    · split at hlast <;> omega
    · exact fun m hm => heok.members m (List.mem_append_right _ hm)
    · intro j job init hjob hinit
      obtain ⟨init', given, hinit', hgiven, hjobok⟩ := heok.jobs j job hjob
      rw [hinit] at hinit'
      cases hinit'
      obtain ⟨hone, habsorbed, hrunning⟩ := hjobok.hasherAt
      refine ⟨hone, ?_, hrunning, ?_⟩
      · intro x hx
        obtain ⟨hscheme, hpre⟩ := habsorbed x hx
        refine ⟨hscheme, hpre.trans ?_⟩
        rw [← hgiven, ← List.append_assoc]
        exact List.prefix_append _ _
      · intro x hx
        cases heok.finals hjob hinit with
        | inl hnil => rw [hnil] at hx; cases hx
        | inr hdone =>
          rw [hdone.2] at hx
          exact List.mem_singleton.mp hx
  · intro hclosed
    constructor
    · intro work s' hwork hrun
      have hkeep : ∀ s : State, ∀ a ∈ work, ∀ s' : State, s.Ok hash ∧ s.HandlesClosed →
          s.step hash probe a = some s' → (s'.Ok hash ∧ s'.HandlesClosed) ∧ s'.weight < s.weight := by
        intro s a ha s' hs hstep
        obtain ⟨hclosed', hlt⟩ := State.work_step hs.1 hs.2 (hwork a ha) hstep
        exact ⟨⟨State.step_ok hs.1 hstep, hclosed'⟩, hlt⟩
      obtain ⟨hkept, hle⟩ := Steps.run_length_le hkeep ⟨hok, hclosed⟩ hrun
      exact ⟨hkept.2, hle⟩
    · intro hquiet
      have hdone : ∀ e ∈ s.entries,
          e.seals.length = 1 ∧ e.inflight = 0 ∧ ∀ job ∈ e.jobs, job.finals.length = 1 := by
        intro e he
        obtain ⟨i, hi⟩ := List.mem_iff_getElem?.mp he
        obtain ⟨hfeed, hmeta⟩ := hclosed.entries e he
        exact (hok.entries e he).quiet hfeed hmeta
          (fun j => State.entry_quiet hi hquiet trivial) (State.entry_quiet hi hquiet trivial)
          (State.entry_quiet hi hquiet trivial) (State.entry_quiet hi hquiet trivial)
      have hseals : s.seals = s.entries.length := by
        rw [State.seals, List.map_congr_left fun e he => (hdone e he).1]
        simp
      have hinflight : s.inflight = 0 := by
        rw [State.inflight, List.map_congr_left fun e he => (hdone e he).2.1]
        simp
      have hfilled := hok.filled
      have hslots := hclosed.slots
      have hacquired := hok.inflight
      refine ⟨by omega, by omega, fun e he => ⟨(hdone e he).1, (hdone e he).2.2⟩⟩

/-- One member of one byte, pushed, closed, hashed by five jobs and sealed. -/
theorem pool_protocol_once :
    ∃ actions s, Steps.run (State.step (fun _ bytes => bytes) fun _ _ => []) State.new actions = some s
      ∧ s.created = 1 ∧ s.filled = 1 ∧ s.acquired = 5 ∧ s.acquired = s.released + s.inflight
      ∧ ∀ e ∈ s.entries, ∀ m ∈ e.seals,
        m.size = e.pushed.length ∧ m.digests = digestsOf (fun _ bytes => bytes) e.len e.pushed := by
  have hrun : ∃ actions s,
      Steps.run (State.step (fun _ bytes => bytes) fun _ _ => []) State.new actions = some s
        ∧ s.created = 1 ∧ s.filled = 1 ∧ s.acquired = 5 :=
    ⟨[.member "a" 0 none none none, .entry 0 (.push [97]), .entry 0 .feed, .entry 0 .feed,
        .entry 0 .close] ++ List.replicate 18 (.entry 0 .feed)
        ++ (List.range 5).flatMap (fun j => List.replicate 6 (.entry 0 (.job j 0)))
        ++ [.entry 0 (.closeMeta "file" 0 none)] ++ List.replicate 6 (.entry 0 .finish)
        ++ [.entry 0 .sealUp, .entry 0 .fill], _, rfl, rfl, rfl, rfl⟩
  obtain ⟨actions, s, hs, hcreated, hfilled, hacquired⟩ := hrun
  obtain ⟨hentries, -, hin, -⟩ := pool_protocol (fun _ bytes => bytes) (fun _ _ => []) hs
  exact ⟨actions, s, hs, hcreated, hfilled, hacquired, hin, fun e he => (hentries e he).2.2.1⟩

end Pool

end Hashdex
