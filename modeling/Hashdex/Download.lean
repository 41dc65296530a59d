import Hashdex.IndexCmd
import Hashdex.Lib.Placing
import Hashdex.Lib.Steps

/-!
# Downloading a dataset's file in chunks

`download` fetches a large file as ranges of one size, several of them in flight, all writing into one
preallocated `.part` file; a chunk that fails is asked for again from its start.  The chunk jobs are
one step function, and a run interleaves them with whatever the server and the disk answer.

* `step_kept`: what every step keeps, whatever is answered
* `step_right`: what it keeps when the bodies are those that were asked for
* `download_exact`: a download that succeeds leaves the published file
-/

namespace Hashdex

namespace Download

open Placing

/-- The sizes and counts a download works with. -/
structure Limits where
  chunk : ℕ
  jobs : ℕ
  parallelMin : ℕ
  tries : ℕ
  chunk_pos : 0 < chunk
  jobs_pos : 0 < jobs
  tries_pos : 0 < tries

/-- `CHUNK`, `JOBS`, `PARALLEL_MIN` and `TRIES`. -/
def limits : Limits := ⟨16 * 2 ^ 20, 8, 32 * 2 ^ 20, 3, by decide, by decide, by decide⟩

/-! ### The counters -/

/-- What the display counts.  The clock and the last printed tick are not kept. -/
structure Progress where
  total : UInt64
  done : UInt64
  moved : UInt64
  fileDone : UInt64
  fileSize : UInt64
  deriving DecidableEq

namespace Progress

def new (total : ℕ) : Progress := ⟨.ofNat total, 0, 0, 0, 0⟩

def skip (p : Progress) (size : ℕ) : Progress := { p with done := p.done + .ofNat size }

def startFile (p : Progress) (size : ℕ) : Progress :=
  { p with fileDone := 0, fileSize := .ofNat size }

def finishFile (p : Progress) : Progress := { p with fileDone := 0 }

def advance (p : Progress) (n : ℕ) : Progress :=
  { p with
    fileDone := p.fileDone + .ofNat n
    done := p.done + .ofNat n
    moved := p.moved + .ofNat n }

/-- Un-count a failed attempt's bytes. -/
def rewind (p : Progress) (n : ℕ) : Progress :=
  { p with
    fileDone := p.fileDone - .ofNat n
    done := p.done - .ofNat n
    moved := p.moved - .ofNat n }

end Progress

/-! ### The jobs -/

/-- Where a chunk's job stands. -/
inductive Phase
  | queued
  | asking (attempt : ℕ)
  | streaming (attempt wrote : ℕ)
  | pausing (attempt : ℕ)
  | done (wrote : ℕ)
  | failed
  | taken (wrote : ℕ)
  deriving DecidableEq

/-- Polled, and its result not yet taken. -/
def Phase.inFlight : Phase → Bool
  | .queued => false
  | .taken _ => false
  | _ => true

def Phase.isStreaming : Phase → Bool
  | .streaming _ _ => true
  | _ => false

/-- The bytes a job is counted for. -/
def Phase.landed : Phase → ℕ
  | .streaming _ wrote => wrote
  | .done wrote => wrote
  | .taken wrote => wrote
  | _ => 0

/-- What `got` has of a job. -/
def Phase.got : Phase → ℕ
  | .taken wrote => wrote
  | _ => 0

structure State where
  file : Bytes
  phases : List Phase
  progress : Progress
  got : ℕ
  /-- The return value, `none` within for a failure. -/
  outcome : Option (Option ℕ)
  deriving DecidableEq

/-- What happens next: a job is polled first, its request is answered with partial content or not,
a piece of its body arrives and is written in full or in part, its body breaks off or ends, its pause is
over, its result is taken, or no job is left. -/
inductive Action
  | start
  | answered (k : ℕ)
  | refused (k : ℕ)
  | piece (k : ℕ) (bytes : Bytes)
  | unwritten (k : ℕ) (bytes : Bytes) (landed : ℕ)
  | cut (k : ℕ)
  | ended (k : ℕ)
  | wake (k : ℕ)
  | take (k : ℕ)
  | finish

section
variable (L : Limits) (size : ℕ)

/-- How many chunks a file is fetched in. -/
def count : ℕ := (size + L.chunk - 1) / L.chunk

/-- The length of a chunk: the last one may be shorter. -/
def len (k : ℕ) : ℕ := min L.chunk (size - k * L.chunk)

def start (progress : Progress) : State where
  file := List.replicate size 0
  phases := List.replicate (count L size) .queued
  progress := progress.startFile size
  got := 0
  outcome := none

namespace State
variable (s : State)

def setPhase (k : ℕ) (p : Phase) : State := { s with phases := s.phases.set k p }

/-- An attempt failed after `wrote` bytes. -/
def failAttempt (k attempt wrote : ℕ) : State :=
  { s with
    progress := s.progress.rewind wrote
    phases := s.phases.set k (if attempt < L.tries then .pausing attempt else .failed) }

/-- Bytes that reached the file at a job's place. -/
def write (k wrote : ℕ) (bytes : Bytes) : State :=
  { s with file := putAt 0 s.file (k * L.chunk + wrote) bytes }

def inFlight : ℕ := s.phases.countP Phase.inFlight

end State

def step (s : State) (action : Action) : Option State :=
  if s.outcome.isSome then none
  else
    match action with
    | .start =>
      let k := s.phases.idxOf .queued
      if k < s.phases.length ∧ s.inFlight < L.jobs then some (s.setPhase k (.asking 1)) else none
    | .answered k =>
      match s.phases[k]? with
      | some (.asking attempt) => some (s.setPhase k (.streaming attempt 0))
      | _ => none
    | .refused k =>
      match s.phases[k]? with
      | some (.asking attempt) => some (s.failAttempt L k attempt 0)
      | _ => none
    | .piece k bytes =>
      match s.phases[k]? with
      | some (.streaming attempt wrote) =>
        some { (s.write L k wrote bytes).setPhase k (.streaming attempt (wrote + bytes.length)) with
          progress := s.progress.advance bytes.length }
      | _ => none
    | .unwritten k bytes landed =>
      match s.phases[k]? with
      | some (.streaming attempt wrote) =>
        some ((s.write L k wrote (bytes.take landed)).failAttempt L k attempt wrote)
      | _ => none
    | .cut k =>
      match s.phases[k]? with
      | some (.streaming attempt wrote) => some (s.failAttempt L k attempt wrote)
      | _ => none
    | .ended k =>
      match s.phases[k]? with
      | some (.streaming attempt wrote) =>
        if wrote = len L size k then some (s.setPhase k (.done wrote))
        else some (s.failAttempt L k attempt wrote)
      | _ => none
    | .wake k =>
      match s.phases[k]? with
      | some (.pausing attempt) => some (s.setPhase k (.asking (attempt + 1)))
      | _ => none
    | .take k =>
      match s.phases[k]? with
      | some (.done wrote) => some { s.setPhase k (.taken wrote) with got := s.got + wrote }
      | some .failed => some { s with outcome := some none }
      | _ => none
    | .finish =>
      if s.phases.all (fun p => p matches .taken _) then some { s with outcome := some (some s.got) }
      else none

/-! ### What a step does -/

/-- How a job can move. -/
inductive Moves (k : ℕ) : Phase → Phase → Prop
  | started : Moves k .queued (.asking 1)
  | answered {a : ℕ} : Moves k (.asking a) (.streaming a 0)
  | piece {a w n : ℕ} : Moves k (.streaming a w) (.streaming a (w + n))
  | unanswered {a : ℕ} : a < L.tries → Moves k (.asking a) (.pausing a)
  | broken {a w : ℕ} : a < L.tries → Moves k (.streaming a w) (.pausing a)
  | refused {a : ℕ} : Moves k (.asking a) .failed
  | gaveUp {a w : ℕ} : Moves k (.streaming a w) .failed
  | ended {a : ℕ} : Moves k (.streaming a (len L size k)) (.done (len L size k))
  | woken {a : ℕ} : Moves k (.pausing a) (.asking (a + 1))
  | taken {w : ℕ} : Moves k (.done w) (.taken w)

/-- The counters after a job counted for `n` bytes is counted for `n'`. -/
def Progress.recount (p : Progress) (n n' : ℕ) : Progress :=
  { p with
    fileDone := p.fileDone + .ofNat n' - .ofNat n
    done := p.done + .ofNat n' - .ofNat n
    moved := p.moved + .ofNat n' - .ofNat n }

/-- One job's turn: it moves from `p` to `p'`, and bytes arrive in the file where it had come to. -/
structure Turn (s s' : State) (k : ℕ) (p p' : Phase) (bytes : Bytes) : Prop where
  at_k : s.phases[k]? = some p
  moves : Moves L size k p p'
  phases : s'.phases = s.phases.set k p'
  file : s'.file = putAt 0 s.file (k * L.chunk + p.landed) bytes
  counted : s'.progress = s.progress.recount p.landed p'.landed
  got : s'.got = s.got + p'.got
  outcome : s'.outcome = none
  room : p = .queued → s.inFlight < L.jobs
  source : bytes = [] ∨ ∃ a w, p = .streaming a w
  /-- A job that goes on streaming is counted for what arrived. -/
  landed : ∀ a w, p' = .streaming a w → w = p.landed + bytes.length

/-- The bytes an action brings to a job. -/
def Action.Brings (k : ℕ) (bytes : Bytes) : Action → Prop
  | .piece j arrived => j = k ∧ bytes = arrived
  | .unwritten j arrived landed => j = k ∧ bytes = arrived.take landed
  | _ => bytes = []

end

section
variable {L : Limits} {size : ℕ} {s s' : State} {k : ℕ}

theorem Progress.recount_same (p : Progress) (n : ℕ) : p.recount n n = p := by
  simp only [Progress.recount, UInt64.add_sub_cancel]

theorem Progress.recount_rewind (p : Progress) (n : ℕ) : p.recount n 0 = p.rewind n := by
  have hzero : UInt64.ofNat 0 = 0 := rfl
  simp only [Progress.recount, Progress.rewind, hzero, UInt64.add_zero]

theorem add_ofNat_sub (x : UInt64) (w n : ℕ) :
    x + UInt64.ofNat (w + n) - UInt64.ofNat w = x + UInt64.ofNat n := by
  rw [UInt64.ofNat_add, UInt64.add_comm (UInt64.ofNat w), ← UInt64.add_assoc, UInt64.add_sub_cancel]

theorem Progress.recount_advance (p : Progress) (w n : ℕ) : p.recount w (w + n) = p.advance n := by
  simp only [Progress.recount, Progress.advance, add_ofNat_sub]

/-- A job that moves without bytes and without a count. -/
theorem turn_setPhase {p p' : Phase} (hk : s.phases[k]? = some p) (hmoves : Moves L size k p p')
    (hlanded : p'.landed = p.landed) (hgot : p'.got = 0) (houtcome : s.outcome = none)
    (hroom : p = .queued → s.inFlight < L.jobs) : Turn L size s (s.setPhase k p') k p p' [] where
  at_k := hk
  moves := hmoves
  phases := rfl
  file := rfl
  counted := by rw [hlanded, Progress.recount_same]; rfl
  got := by rw [hgot]; rfl
  outcome := houtcome
  room := hroom
  source := Or.inl rfl
  landed := by
    intro a w hp'
    rw [hp'] at hlanded
    exact hlanded

/-- A failed attempt, after bytes that were written and are not counted. -/
theorem turn_failAttempt (L : Limits) (size : ℕ) {p : Phase} {attempt : ℕ} (hk : s.phases[k]? = some p) (bytes : Bytes)
    (hp : p = .asking attempt ∧ bytes = [] ∨ ∃ wrote, p = .streaming attempt wrote)
    (houtcome : s.outcome = none) :
    ∃ p', Turn L size s ((s.write L k p.landed bytes).failAttempt L k attempt p.landed) k p p' bytes
      ∧ p'.isStreaming = false := by
  refine ⟨if attempt < L.tries then .pausing attempt else .failed, ?_, by split <;> rfl⟩
  have hmoves : Moves L size k p (if attempt < L.tries then .pausing attempt else .failed) := by
    obtain ⟨rfl, -⟩ | ⟨wrote, rfl⟩ := hp
    · split
      · next htries => exact .unanswered htries
      · exact .refused
    · split
      · next htries => exact .broken htries
      · exact .gaveUp
  have hzero : (if attempt < L.tries then Phase.pausing attempt else .failed).landed = 0 := by
    split <;> rfl
  constructor
  · exact hk
  · exact hmoves
  · rfl
  · rfl
  · rw [hzero, Progress.recount_rewind]; rfl
  · split <;> rfl
  · exact houtcome
  · intro hqueued
    obtain ⟨rfl, -⟩ | ⟨wrote, rfl⟩ := hp <;> cases hqueued
  · obtain ⟨-, hbytes⟩ | ⟨wrote, rfl⟩ := hp
    · exact Or.inl hbytes
    · exact Or.inr ⟨attempt, wrote, rfl⟩
  · intro a w hp'
    split at hp' <;> cases hp'

/-- **What a step can do**: give up, come to the end, or give one job its turn. -/
theorem step_cases {a : Action} (h : step L size s a = some s') :
    s.outcome = none ∧
      ((∃ k : ℕ, s.phases[k]? = some .failed) ∧ s' = { s with outcome := some none } ∨
        (∀ p ∈ s.phases, ∃ n, p = .taken n) ∧ s' = { s with outcome := some (some s.got) } ∨
        ∃ k p p' bytes, Turn L size s s' k p p' bytes ∧ a.Brings k bytes
          ∧ (a = .piece k bytes ∨ p.isStreaming = false ∨ p'.isStreaming = false)) := by
  unfold step at h
  split at h
  · cases h
  next hrunning =>
  have hout : s.outcome = none := by simpa using hrunning
  refine ⟨hout, ?_⟩
  cases a with
  | start =>
    dsimp only at h
    split at h
    · next hroom =>
      cases h
      obtain ⟨hlt, hjobs⟩ := hroom
      have hk : s.phases[s.phases.idxOf .queued]? = some .queued := by
        rw [List.getElem?_eq_getElem hlt, List.getElem_idxOf]
      exact Or.inr (Or.inr ⟨_, _, _, [], turn_setPhase hk .started rfl rfl hout fun _ => hjobs, rfl,
        Or.inr (Or.inl rfl)⟩)
    · cases h
  | answered k =>
    dsimp only at h
    split at h
    · next attempt hk =>
      cases h
      exact Or.inr (Or.inr ⟨k, _, _, [], turn_setPhase hk .answered rfl rfl hout nofun, rfl,
        Or.inr (Or.inl rfl)⟩)
    · cases h
  | refused k =>
    dsimp only at h
    split at h
    · next attempt hk =>
      cases h
      obtain ⟨p', hturn, hnot⟩ := turn_failAttempt L size hk [] (Or.inl ⟨rfl, rfl⟩) hout
      exact Or.inr (Or.inr ⟨k, _, p', [], hturn, rfl, Or.inr (Or.inr hnot)⟩)
    · cases h
  | piece k bytes =>
    dsimp only at h
    split at h
    · next attempt wrote hk =>
      cases h
      refine Or.inr (Or.inr ⟨k, .streaming attempt wrote,
        .streaming attempt (wrote + bytes.length), bytes, ?_, ⟨rfl, rfl⟩, Or.inl rfl⟩)
      constructor
      · exact hk
      · exact .piece
      · rfl
      · rfl
      · exact (Progress.recount_advance _ _ _).symm
      · rfl
      · exact hout
      · exact nofun
      · exact Or.inr ⟨attempt, wrote, rfl⟩
      · intro a w hp'
        cases hp'
        rfl
    · cases h
  | unwritten k bytes landed =>
    dsimp only at h
    split at h
    · next attempt wrote hk =>
      cases h
      obtain ⟨p', hturn, hnot⟩ := turn_failAttempt L size hk (bytes.take landed)
        (Or.inr ⟨wrote, rfl⟩) hout
      exact Or.inr (Or.inr ⟨k, _, p', _, hturn, ⟨rfl, rfl⟩, Or.inr (Or.inr hnot)⟩)
    · cases h
  | cut k =>
    dsimp only at h
    split at h
    · next attempt wrote hk =>
      cases h
      obtain ⟨p', hturn, hnot⟩ := turn_failAttempt L size hk [] (Or.inr ⟨wrote, rfl⟩) hout
      exact Or.inr (Or.inr ⟨k, _, p', [], hturn, rfl, Or.inr (Or.inr hnot)⟩)
    · cases h
  | ended k =>
    dsimp only at h
    split at h
    · next attempt wrote hk =>
      split at h
      · next hlen =>
        cases h
        subst hlen
        exact Or.inr (Or.inr ⟨k, _, _, [], turn_setPhase hk .ended rfl rfl hout nofun, rfl,
          Or.inr (Or.inr rfl)⟩)
      · cases h
        obtain ⟨p', hturn, hnot⟩ := turn_failAttempt L size hk [] (Or.inr ⟨wrote, rfl⟩) hout
        exact Or.inr (Or.inr ⟨k, _, p', [], hturn, rfl, Or.inr (Or.inr hnot)⟩)
    · cases h
  | wake k =>
    dsimp only at h
    split at h
    · next attempt hk =>
      cases h
      exact Or.inr (Or.inr ⟨k, _, _, [], turn_setPhase hk .woken rfl rfl hout nofun, rfl,
        Or.inr (Or.inl rfl)⟩)
    · cases h
  | take k =>
    dsimp only at h
    split at h
    · next wrote hk =>
      cases h
      refine Or.inr (Or.inr ⟨k, .done wrote, .taken wrote, [], ?_, rfl, Or.inr (Or.inl rfl)⟩)
      constructor
      · exact hk
      · exact .taken
      · rfl
      · rfl
      · exact (Progress.recount_same _ _).symm
      · rfl
      · exact hout
      · exact nofun
      · exact Or.inl rfl
      · exact nofun
    · next hk =>
      cases h
      exact Or.inl ⟨⟨k, hk⟩, rfl⟩
    · cases h
  | finish =>
    dsimp only at h
    split at h
    · next hall =>
      cases h
      refine Or.inr (Or.inl ⟨?_, rfl⟩)
      intro p hp
      have hmatch := List.all_eq_true.mp hall p hp
      cases p with
      | taken n => exact ⟨n, rfl⟩
      | _ => cases hmatch
    · cases h

end

/-! ### What every download keeps -/

section
variable (L : Limits) (size : ℕ)

/-- A job within its tries, and a finished one of the chunk's length. -/
def Phase.Ok (k : ℕ) : Phase → Prop
  | .asking a => 1 ≤ a ∧ a ≤ L.tries
  | .streaming a _ => 1 ≤ a ∧ a ≤ L.tries
  | .pausing a => 1 ≤ a ∧ a < L.tries
  | .done w => w = len L size k
  | .taken w => w = len L size k
  | _ => True

/-- The bytes the jobs are counted for. -/
def State.landed (s : State) : ℕ := (s.phases.map Phase.landed).sum

/-- What holds in every state of a download begun under the counters `p₀`. -/
structure Kept (p₀ : Progress) (s : State) : Prop where
  count : s.phases.length = count L size
  phase : ∀ (k : ℕ) (p : Phase), s.phases[k]? = some p → p.Ok L size k
  flight : s.inFlight ≤ L.jobs
  got : s.got = (s.phases.map Phase.got).sum
  counted : s.progress = (p₀.startFile size).recount 0 s.landed
  outcome : ∀ n, s.outcome = some (some n) → n = size ∧ ∀ p ∈ s.phases, ∃ m, p = .taken m

end

section
variable {L : Limits} {size : ℕ} {s s' : State} {k : ℕ}

theorem start_lt (h : k < count L size) : k * L.chunk < size := by
  have hpos := L.chunk_pos
  rw [count, Nat.lt_div_iff_mul_lt hpos] at h
  omega

theorem start_add_len_le (h : k < count L size) : k * L.chunk + len L size k ≤ size := by
  have hstart := start_lt h
  rw [len]
  omega

theorem sum_len_take (n : ℕ) : ((List.range n).map (len L size)).sum = min size (n * L.chunk) := by
  induction n with
  | zero => simp
  | succ n ih =>
    rw [List.range_succ, List.map_append, List.sum_append, ih, List.map_singleton,
      List.sum_singleton, len, Nat.add_mul, Nat.one_mul]
    omega

/-- The chunks come to the file's size. -/
theorem sum_len : ((List.range (count L size)).map (len L size)).sum = size := by
  rw [sum_len_take]
  apply Nat.min_eq_left
  have hpos := L.chunk_pos
  have hdiv := Nat.div_add_mod (size + L.chunk - 1) L.chunk
  have hmod := Nat.mod_lt (size + L.chunk - 1) hpos
  rw [count, Nat.mul_comm]
  omega

theorem Turn.ok {p p' : Phase} {bytes : Bytes} (h : Turn L size s s' k p p' bytes)
    (hp : p.Ok L size k) : p'.Ok L size k := by
  have htries := L.tries_pos
  cases h.moves with
  | started => exact ⟨Nat.le_refl 1, htries⟩
  | answered => exact hp
  | piece => exact hp
  | unanswered hlt => exact ⟨hp.1, hlt⟩
  | broken hlt => exact ⟨hp.1, hlt⟩
  | refused => trivial
  | gaveUp => trivial
  | ended => rfl
  | woken => exact ⟨Nat.le_add_left 1 _, hp.2⟩
  | taken => exact hp

theorem Turn.flight {p p' : Phase} {bytes : Bytes} (h : Turn L size s s' k p p' bytes)
    (hs : s.inFlight ≤ L.jobs) : s'.inFlight ≤ L.jobs := by
  have hlt : k < s.phases.length := (List.getElem?_eq_some_iff.mp h.at_k).1
  have hget : s.phases[k] = p := (List.getElem?_eq_some_iff.mp h.at_k).2
  have hset : s'.inFlight = s.inFlight - (if p.inFlight then 1 else 0)
      + if p'.inFlight then 1 else 0 := by
    rw [State.inFlight, State.inFlight, h.phases, List.countP_set hlt, hget]
  have hroom := h.room
  have hone : p.inFlight = true → 1 ≤ s.inFlight := by
    intro hp
    rw [State.inFlight, Nat.one_le_iff_ne_zero, ← Nat.pos_iff_ne_zero, List.countP_pos_iff]
    exact ⟨p, List.mem_of_getElem? h.at_k, hp⟩
  cases h.moves with
  | started =>
    have hlt := hroom rfl
    simp only [Phase.inFlight, Bool.false_eq_true, if_false, if_true] at hset
    omega
  | taken =>
    simp only [Phase.inFlight, Bool.false_eq_true, if_false, if_true] at hset
    omega
  | _ =>
    have hin := hone rfl
    simp only [Phase.inFlight, if_true] at hset
    omega

/-- Counting a job for another number of bytes is counting the whole for another. -/
theorem Progress.recount_recount (p : Progress) {m m' n n' : ℕ} (h : m' + n = m + n') :
    (p.recount 0 m).recount n n' = p.recount 0 m' := by
  have hcount : ∀ x : UInt64, x + .ofNat m - .ofNat 0 + .ofNat n' - .ofNat n
      = x + .ofNat m' - .ofNat 0 := by
    intro x
    have hsum : UInt64.ofNat m' + .ofNat n = .ofNat m + .ofNat n' := by
      rw [← UInt64.ofNat_add, ← UInt64.ofNat_add, h]
    have hzero : UInt64.ofNat 0 = 0 := rfl
    rw [hzero, UInt64.sub_zero, UInt64.sub_zero, UInt64.add_assoc, ← hsum, ← UInt64.add_assoc,
      UInt64.add_sub_cancel]
  simp only [Progress.recount, hcount]

theorem Turn.counted_kept {p p' : Phase} {bytes : Bytes} {p₀ : Progress}
    (h : Turn L size s s' k p p' bytes)
    (hs : s.progress = (p₀.startFile size).recount 0 s.landed) :
    s'.progress = (p₀.startFile size).recount 0 s'.landed := by
  have hsum : s'.landed + p.landed = s.landed + p'.landed := by
    rw [State.landed, h.phases]
    exact Steps.sum_map_set Phase.landed h.at_k p'
  rw [h.counted, hs, Progress.recount_recount _ hsum]

theorem Turn.got_kept {p p' : Phase} {bytes : Bytes} (h : Turn L size s s' k p p' bytes)
    (hs : s.got = (s.phases.map Phase.got).sum) : s'.got = (s'.phases.map Phase.got).sum := by
  have hsum := Steps.sum_map_set Phase.got h.at_k p'
  have hzero : p.got = 0 := by cases h.moves <;> rfl
  rw [h.got, hs, h.phases]
  omega

/-- All jobs done and counted, `got` is the size. -/
theorem got_eq_of_kept {p₀ : Progress} (h : Kept L size p₀ s) (hall : ∀ p ∈ s.phases, ∃ n, p = .taken n) :
    s.got = size := by
  have hphases : s.phases.map Phase.got = (List.range (count L size)).map (len L size) := by
    apply List.ext_getElem
    · rw [List.length_map, List.length_map, List.length_range, h.count]
    · intro k hk hk'
      rw [List.length_map] at hk
      rw [List.getElem_map, List.getElem_map, List.getElem_range]
      obtain ⟨n, hn⟩ := hall _ (List.getElem_mem hk)
      have hok := h.phase k _ (List.getElem?_eq_getElem hk)
      rw [hn] at hok ⊢
      exact hok
  rw [h.got, hphases, sum_len]

theorem kept_start (L : Limits) (size : ℕ) (p₀ : Progress) : Kept L size p₀ (start L size p₀) where
  count := List.length_replicate
  phase := by
    intro k p hp
    have hqueued := List.eq_of_mem_replicate (List.mem_of_getElem? hp)
    rw [hqueued]
    trivial
  flight := by
    have hzero : (start L size p₀).inFlight = 0 := by
      rw [State.inFlight, List.countP_eq_zero]
      intro p hp
      rw [List.eq_of_mem_replicate hp]
      exact nofun
    rw [hzero]
    exact Nat.zero_le _
  got := by
    show 0 = ((List.replicate (count L size) Phase.queued).map Phase.got).sum
    simp [Phase.got]
  counted := by
    have hzero : (start L size p₀).landed = 0 := by
      show ((List.replicate (count L size) Phase.queued).map Phase.landed).sum = 0
      simp [Phase.landed]
    rw [hzero, Progress.recount_same]
    rfl
  outcome := nofun

/-- **Every step keeps it**, whatever the server and the disk answer. -/
theorem step_kept {p₀ : Progress} {a : Action} (h : Kept L size p₀ s)
    (hstep : step L size s a = some s') : Kept L size p₀ s' := by
  obtain ⟨-, ⟨-, rfl⟩ | ⟨hall, rfl⟩ | ⟨k, p, p', bytes, hturn, -, -⟩⟩ := step_cases hstep
  · exact { h with outcome := nofun }
  · refine { h with outcome := ?_ }
    intro n hn
    cases hn
    exact ⟨got_eq_of_kept h hall, hall⟩
  · constructor
    · rw [hturn.phases, List.length_set, h.count]
    · intro j q hq
      rw [hturn.phases] at hq
      obtain ⟨rfl, rfl⟩ | ⟨-, hold⟩ := Steps.getElem?_set_cases hq
      · exact hturn.ok (h.phase _ _ hturn.at_k)
      · exact h.phase j q hold
    · exact hturn.flight h.flight
    · exact hturn.got_kept h.got
    · exact hturn.counted_kept h.counted
    · rw [hturn.outcome]
      exact nofun

end

/-- **The counters of a download**, in every state it can reach: each job stays within its tries and no
more than `jobs` are in flight; the display's counters are where they were, and the bytes of the
attempts that stand; and a download that succeeds has got the size it was asked for. -/
theorem download_counts (L : Limits) (size : ℕ) (p₀ : Progress) (actions : List Action) (s : State)
    (hrun : Steps.run (step L size) (start L size p₀) actions = some s) :
    s.inFlight ≤ L.jobs ∧ (∀ (k : ℕ) (p : Phase), s.phases[k]? = some p → p.Ok L size k)
      ∧ s.progress = (p₀.startFile size).recount 0 s.landed
      ∧ ∀ n, s.outcome = some (some n) → n = size := by
  have hkept : Kept L size p₀ s :=
    Steps.run_invariant (fun _ _ _ h hstep => step_kept h hstep) (kept_start L size p₀) hrun
  exact ⟨hkept.flight, hkept.phase, hkept.counted, fun n hn => (hkept.outcome n hn).1⟩

/-! ### What an honest server's bodies leave -/

/-- The bodies are those that were asked for: what arrives continues the range where the job is. -/
def Honest (L : Limits) (published : Bytes) (s : State) : Action → Prop
  | .piece k bytes => ∀ a w, s.phases[k]? = some (.streaming a w) →
    bytes <+: (published.drop (k * L.chunk + w)).take (len L published.length k - w)
  | .unwritten k bytes _ => ∀ a w, s.phases[k]? = some (.streaming a w) →
    bytes <+: (published.drop (k * L.chunk + w)).take (len L published.length k - w)
  | _ => True

/-- Each job's bytes stand in the file, within its chunk. -/
structure Right (L : Limits) (published : Bytes) (s : State) : Prop where
  length : s.file.length = published.length
  within : ∀ k p, s.phases[k]? = some p → p.landed ≤ len L published.length k
  agree : ∀ k p, s.phases[k]? = some p →
    Agree s.file published (k * L.chunk) (k * L.chunk + p.landed)

section
variable {L : Limits} {published : Bytes} {s s' : State} {k : ℕ}

/-- What an honest action brings. -/
theorem Honest.brings {a : Action} {w attempt : ℕ} {bytes : Bytes} (h : Honest L published s a)
    (hk : s.phases[k]? = some (.streaming attempt w)) (hbrings : a.Brings k bytes) :
    bytes <+: (published.drop (k * L.chunk + w)).take (len L published.length k - w) := by
  cases a with
  | piece j arrived =>
    obtain ⟨rfl, rfl⟩ := hbrings
    exact h attempt w hk
  | unwritten j arrived landed =>
    obtain ⟨rfl, rfl⟩ := hbrings
    exact (List.take_prefix landed arrived).trans (h attempt w hk)
  | _ =>
    rw [hbrings]
    exact List.nil_prefix

theorem getElem?_of_prefix {bytes : Bytes} {off m i : ℕ} (h : bytes <+: (published.drop off).take m)
    (hi : i < bytes.length) : bytes[i]? = published[off + i]? := by
  obtain ⟨rest, hrest⟩ := h
  have hlen := congrArg List.length hrest
  rw [List.length_append, List.length_take] at hlen
  have hfront : bytes[i]? = (bytes ++ rest)[i]? := (List.getElem?_append_left hi).symm
  rw [hfront, hrest, List.getElem?_take_of_lt (by omega), List.getElem?_drop]

/-- Two chunks do not meet. -/
theorem chunks_apart {j k w n : ℕ} (hjk : j ≠ k) (hw : w ≤ L.chunk) (hn : n ≤ L.chunk) :
    j * L.chunk + n ≤ k * L.chunk ∨ k * L.chunk + w ≤ j * L.chunk := by
  obtain hlt | hlt := Nat.lt_or_gt_of_ne hjk
  · left
    have hmul := Nat.mul_le_mul_right L.chunk hlt
    rw [Nat.succ_mul] at hmul
    omega
  · right
    have hmul := Nat.mul_le_mul_right L.chunk hlt
    rw [Nat.succ_mul] at hmul
    omega

/-- **A turn with an honest body** leaves every job's bytes right. -/
theorem Turn.right {p p' : Phase} {bytes : Bytes}
    (h : Turn L published.length s s' k p p' bytes) (hs : Right L published s)
    (hcount : s.phases.length = count L published.length)
    (hbytes : ∀ a w, p = .streaming a w →
      bytes <+: (published.drop (k * L.chunk + w)).take (len L published.length k - w)) :
    Right L published s' := by
  have hk : k < count L published.length := by
    rw [← hcount]
    exact (List.getElem?_eq_some_iff.mp h.at_k).1
  have hend := start_add_len_le hk
  have hwithin := hs.within k p h.at_k
  have hchunk : ∀ j, len L published.length j ≤ L.chunk := fun j => Nat.min_le_left _ _
  have hlen : bytes.length ≤ len L published.length k - p.landed := by
    obtain rfl | ⟨a, w, rfl⟩ := h.source
    · exact Nat.zero_le _
    · exact (hbytes a w rfl).length_le.trans (List.length_take_le _ _)
  have hfit : k * L.chunk + p.landed + bytes.length ≤ s.file.length := by
    rw [hs.length]
    omega
  have hstands : ∀ i, i < bytes.length → bytes[i]? = published[k * L.chunk + p.landed + i]? := by
    intro i hi
    obtain rfl | ⟨a, w, rfl⟩ := h.source
    · exact absurd hi (Nat.not_lt_zero i)
    · exact getElem?_of_prefix (hbytes a w rfl) hi
  have hgrown : Agree s'.file published (k * L.chunk) (k * L.chunk + p.landed + bytes.length) := by
    rw [h.file]
    exact (hs.agree k p h.at_k).putAt (by omega) hstands
  have hp' : p'.landed ≤ p.landed + bytes.length := by
    have hlanded := h.landed
    cases h.moves with
    | piece => exact (hlanded _ _ rfl).le
    | _ => exact Nat.le_add_right_of_le (by first | exact Nat.zero_le _ | exact Nat.le_refl _)
  constructor
  · rw [h.file, length_putAt_of_le 0 hfit, hs.length]
  · intro j q hq
    rw [h.phases] at hq
    obtain ⟨rfl, rfl⟩ | ⟨-, hold⟩ := Steps.getElem?_set_cases hq
    · omega
    · exact hs.within j q hold
  · intro j q hq
    rw [h.phases] at hq
    obtain ⟨rfl, rfl⟩ | ⟨hjk, hold⟩ := Steps.getElem?_set_cases hq
    · exact fun i hlo hhi => hgrown i hlo (by omega)
    · have hj : j < count L published.length := by
        rw [← hcount]
        exact (List.getElem?_eq_some_iff.mp hold).1
      have hjend := start_add_len_le hj
      have hjwithin := hs.within j q hold
      have hjchunk := hchunk j
      have hkchunk := hchunk k
      rw [h.file]
      apply (hs.agree j q hold).frame
      · rw [hs.length]
        omega
      · have hqchunk : q.landed ≤ L.chunk := by omega
        obtain hbefore | hafter := chunks_apart (Ne.symm hjk) hkchunk hqchunk
        · left
          omega
        · right
          omega

theorem right_start (L : Limits) (published : Bytes) (p₀ : Progress) :
    Right L published (start L published.length p₀) := by
  have hqueued : ∀ (k : ℕ) (p : Phase),
      (List.replicate (count L published.length) Phase.queued)[k]? = some p → p = .queued :=
    fun k p hp => List.eq_of_mem_replicate (List.mem_of_getElem? hp)
  constructor
  · exact List.length_replicate
  · intro k p hp
    rw [hqueued k p hp]
    exact Nat.zero_le _
  · intro k p hp
    rw [hqueued k p hp]
    exact agree_empty _ _ _

/-- **An honest step keeps each job's bytes right.** -/
theorem step_right {p₀ : Progress} {a : Action} (hkept : Kept L published.length p₀ s)
    (h : Right L published s) (hhonest : Honest L published s a)
    (hstep : step L published.length s a = some s') : Right L published s' := by
  obtain ⟨-, ⟨-, rfl⟩ | ⟨-, rfl⟩ | ⟨k, p, p', bytes, hturn, hbrings, -⟩⟩ := step_cases hstep
  · exact ⟨h.length, h.within, h.agree⟩
  · exact ⟨h.length, h.within, h.agree⟩
  · apply hturn.right h hkept.count
    intro a w hp
    exact hhonest.brings (hp ▸ hturn.at_k) hbrings

end

/-- The chunk a position lies in. -/
theorem exists_chunk {L : Limits} {size i : ℕ} (hi : i < size) :
    ∃ k, k < count L size ∧ k * L.chunk ≤ i ∧ i < k * L.chunk + len L size k := by
  have hpos := L.chunk_pos
  have hdiv := Nat.div_add_mod i L.chunk
  have hmod := Nat.mod_lt i hpos
  rw [Nat.mul_comm] at hdiv
  refine ⟨i / L.chunk, ?_, by omega, ?_⟩
  · rw [count, Nat.lt_div_iff_mul_lt hpos]
    omega
  · rw [len]
    omega

/-- **A download that succeeds leaves the published file**, however its jobs were interleaved, cut off
and begun again, if the bodies are those that were asked for; and in every state before, what a finished
chunk covers is as published, whatever the others do. -/
theorem download_exact (L : Limits) (published : Bytes) (p₀ : Progress) (actions : List Action)
    (s : State)
    (hhonest : Steps.Along (step L published.length) (Honest L published)
      (start L published.length p₀) actions)
    (hrun : Steps.run (step L published.length) (start L published.length p₀) actions = some s) :
    (∀ got, s.outcome = some (some got) → s.file = published ∧ got = published.length)
      ∧ ∀ k w, s.phases[k]? = some (.done w) ∨ s.phases[k]? = some (.taken w) →
        Agree s.file published (k * L.chunk) (k * L.chunk + len L published.length k) := by
  have hinv : Kept L published.length p₀ s ∧ Right L published s := by
    refine Steps.run_invariant_along (P := fun s => Kept L published.length p₀ s ∧ Right L published s)
      ?_ ⟨kept_start L published.length p₀, right_start L published p₀⟩ hhonest hrun
    intro t a t' h hC hstep
    exact ⟨step_kept h.1 hstep, step_right h.1 h.2 hC hstep⟩
  obtain ⟨hkept, hright⟩ := hinv
  have hdone : ∀ k w, s.phases[k]? = some (.done w) ∨ s.phases[k]? = some (.taken w) →
      Agree s.file published (k * L.chunk) (k * L.chunk + len L published.length k) := by
    intro k w hk
    obtain hk | hk := hk
    · have hok : w = len L published.length k := hkept.phase k _ hk
      exact hok ▸ hright.agree k _ hk
    · have hok : w = len L published.length k := hkept.phase k _ hk
      exact hok ▸ hright.agree k _ hk
  refine ⟨?_, hdone⟩
  intro got hgot
  obtain ⟨rfl, hall⟩ := hkept.outcome got hgot
  refine ⟨eq_of_agree hright.length ?_, rfl⟩
  intro i hi
  obtain ⟨k, hk, hlo, hhi⟩ := exists_chunk (L := L) hi
  have hlt : k < s.phases.length := by rw [hkept.count]; exact hk
  obtain ⟨w, hw⟩ := hall _ (List.getElem_mem hlt)
  exact hdone k w (Or.inr (by rw [List.getElem?_eq_getElem hlt, hw])) i hlo hhi

/-! ### Every download ends -/

/-- The pieces have bytes in them. -/
def Action.Moving : Action → Prop
  | .piece _ bytes => bytes ≠ []
  | _ => True

section
variable (L : Limits)

/-- No fewer than the turns a job can still take. -/
def Phase.weight : Phase → ℕ
  | .queued => L.tries * (L.chunk + 4)
  | .asking a => (L.tries - a) * (L.chunk + 4) + (L.chunk + 3)
  | .streaming a w => (L.tries - a) * (L.chunk + 4) + (L.chunk - w + 2)
  | .pausing a => (L.tries - a) * (L.chunk + 4)
  | .done _ => 1
  | .failed => 1
  | .taken _ => 0

def State.weight (s : State) : ℕ :=
  (s.phases.map (Phase.weight L)).sum + if s.outcome = none then 1 else 0

end

section
variable {L : Limits} {published : Bytes} {s s' : State} {k : ℕ}

theorem sub_succ_mul {tries a c : ℕ} (h : a < tries) :
    (tries - (a + 1)) * c + c = (tries - a) * c := by
  rw [← Nat.succ_mul]
  congr 1
  omega

/-- A turn lowers the job's weight, if a job that goes on streaming got a byte. -/
theorem Turn.lowers {p p' : Phase} {bytes : Bytes}
    (h : Turn L published.length s s' k p p' bytes) (hs : Right L published s')
    (hok : p.Ok L published.length k)
    (hbytes : bytes ≠ [] ∨ p.isStreaming = false ∨ p'.isStreaming = false) :
    p'.weight L < p.weight L := by
  have htries := L.tries_pos
  have hk' : s'.phases[k]? = some p' := by
    rw [h.phases, List.getElem?_set_self (List.getElem?_eq_some_iff.mp h.at_k).1]
  have hwithin := hs.within k p' hk'
  have hchunk : len L published.length k ≤ L.chunk := Nat.min_le_left _ _
  have hlanded := h.landed
  cases h.moves with
  | started =>
    have hmul := sub_succ_mul (c := L.chunk + 4) htries
    simp only [Phase.weight, Nat.zero_add, Nat.sub_zero] at hmul ⊢
    omega
  | woken =>
    have hmul := sub_succ_mul (c := L.chunk + 4) hok.2
    simp only [Phase.weight]
    omega
  | @piece b w n =>
    have hn : w + n = w + bytes.length := hlanded b (w + n) rfl
    have hne : bytes ≠ [] := by
      obtain hne | hne | hne := hbytes
      · exact hne
      · cases hne
      · cases hne
    have hpos := List.length_pos_iff.mpr hne
    have hle : w + n ≤ len L published.length k := hwithin
    simp only [Phase.weight]
    omega
  | _ =>
    simp only [Phase.weight]
    omega

/-- **Each step lowers the weight** of a download with an honest server. -/
theorem step_lowers {p₀ : Progress} {a : Action} (hkept : Kept L published.length p₀ s)
    (hright : Right L published s) (hhonest : Honest L published s a) (hmoving : a.Moving)
    (hstep : step L published.length s a = some s') : s'.weight L < s.weight L := by
  have hright' := step_right hkept hright hhonest hstep
  obtain ⟨hout, ⟨-, rfl⟩ | ⟨-, rfl⟩ | ⟨k, p, p', bytes, hturn, -, hpiece⟩⟩ := step_cases hstep
  · simp [State.weight, hout]
  · simp [State.weight, hout]
  · have hbytes : bytes ≠ [] ∨ p.isStreaming = false ∨ p'.isStreaming = false := by
      obtain rfl | hother := hpiece
      · exact Or.inl hmoving
      · exact Or.inr hother
    have hlt := hturn.lowers hright' (hkept.phase k p hturn.at_k) hbytes
    have hsum := Steps.sum_map_set (Phase.weight L) hturn.at_k p'
    rw [State.weight, State.weight, hturn.phases, hturn.outcome, hout]
    omega

/-- While a download runs, something can happen to it. -/
theorem exists_step {p₀ : Progress} (hkept : Kept L published.length p₀ s) (hout : s.outcome = none) :
    ∃ a, Honest L published s a ∧ a.Moving ∧ (step L published.length s a).isSome := by
  have hrunning : s.outcome.isSome = false := by rw [hout]; rfl
  by_cases hflight : ∃ p ∈ s.phases, p.inFlight = true
  · obtain ⟨p, hp, hin⟩ := hflight
    obtain ⟨k, hk⟩ := List.getElem?_of_mem hp
    cases p with
    | queued => cases hin
    | taken w => cases hin
    | asking a => exact ⟨.refused k, trivial, trivial, by simp [step, hrunning, hk]⟩
    | streaming a w => exact ⟨.cut k, trivial, trivial, by simp [step, hrunning, hk]⟩
    | pausing a => exact ⟨.wake k, trivial, trivial, by simp [step, hrunning, hk]⟩
    | done w => exact ⟨.take k, trivial, trivial, by simp [step, hrunning, hk]⟩
    | failed => exact ⟨.take k, trivial, trivial, by simp [step, hrunning, hk]⟩
  · have hidle : ∀ p ∈ s.phases, p.inFlight = false := by simpa using hflight
    by_cases hqueued : Phase.queued ∈ s.phases
    · have hzero : s.inFlight = 0 := by
        rw [State.inFlight, List.countP_eq_zero]
        intro p hp
        rw [hidle p hp]
        exact Bool.false_ne_true
      have hlt := List.idxOf_lt_length_of_mem hqueued
      have hjobs := L.jobs_pos
      refine ⟨.start, trivial, trivial, ?_⟩
      simp [step, hrunning, hzero, hlt, hjobs]
    · have hall : s.phases.all (fun p => p matches .taken _) = true := by
        rw [List.all_eq_true]
        intro p hp
        have hnot := hidle p hp
        cases p with
        | taken w => rfl
        | queued => exact absurd hp hqueued
        | _ => cases hnot
      refine ⟨.finish, trivial, trivial, ?_⟩
      simp only [step, hrunning, Bool.false_eq_true, if_false, hall, if_true, Option.isSome_some]

end

/-- **Every download comes to an end**: with pieces that are not empty it takes no more steps than its
tries and bytes allow, and while it has not returned it is never stuck. -/
theorem download_ends (L : Limits) (published : Bytes) (p₀ : Progress) (actions : List Action)
    (s : State)
    (hhonest : Steps.Along (step L published.length) (fun s a => Honest L published s a ∧ a.Moving)
      (start L published.length p₀) actions)
    (hrun : Steps.run (step L published.length) (start L published.length p₀) actions = some s) :
    actions.length ≤ count L published.length * (L.tries * (L.chunk + 4)) + 1
      ∧ (s.outcome = none → ∃ a, Honest L published s a ∧ a.Moving
        ∧ (step L published.length s a).isSome) := by
  have hinv : (Kept L published.length p₀ s ∧ Right L published s)
      ∧ actions.length + s.weight L ≤ (start L published.length p₀).weight L := by
    refine Steps.run_length_le_along
      (P := fun s => Kept L published.length p₀ s ∧ Right L published s) ?_
      ⟨kept_start L published.length p₀, right_start L published p₀⟩ hhonest hrun
    intro t a t' h hC hstep
    exact ⟨⟨step_kept h.1 hstep, step_right h.1 h.2 hC.1 hstep⟩,
      step_lowers h.1 h.2 hC.1 hC.2 hstep⟩
  obtain ⟨⟨hkept, -⟩, hlength⟩ := hinv
  have hweight : (start L published.length p₀).weight L
      = count L published.length * (L.tries * (L.chunk + 4)) + 1 := by
    simp [State.weight, start, Phase.weight]
  refine ⟨by omega, fun hout => exists_step hkept hout⟩

/-- Chunks of two bytes, two at a time, each tried twice. -/
def pairs : Limits := ⟨2, 2, 3, 2, by decide, by decide, by decide⟩

/-- Three bytes in two chunks; the first one's body breaks off after a byte and is asked for again. -/
def cutOnce : List Action :=
  [.start, .start, .answered 1, .answered 0, .piece 0 [1], .piece 1 [3], .cut 0, .ended 1, .take 1,
    .wake 0, .answered 0, .piece 0 [1, 2], .ended 0, .take 0, .finish]

def allTaken : State := ⟨[1, 2, 3], [.taken 2, .taken 1], ⟨3, 3, 3, 3, 3⟩, 3, some (some 3)⟩

theorem cutOnce_run :
    Steps.run (step pairs 3) (start pairs 3 (.new 3)) cutOnce = some allTaken := by decide

theorem cutOnce_honest : Steps.Along (step pairs 3)
    (fun s a => Honest pairs [1, 2, 3] s a ∧ a.Moving) (start pairs 3 (.new 3)) cutOnce := by
  repeat' first
    | exact trivial
    | refine Steps.along_cons rfl ⟨?_, ?_⟩ ?_
    | exact List.cons_ne_nil _ _
    | (intro a w hk; cases hk; decide)

theorem download_counts_once :
    allTaken.progress = ((Progress.new 3).startFile 3).recount 0 allTaken.landed ∧ 3 = 3 := by
  obtain ⟨-, -, hcounted, hsize⟩ := download_counts pairs 3 (.new 3) cutOnce allTaken cutOnce_run
  exact ⟨hcounted, hsize 3 rfl⟩

theorem download_exact_once : allTaken.file = [1, 2, 3] ∧ 3 = 3 :=
  (download_exact pairs [1, 2, 3] (.new 3) cutOnce allTaken (cutOnce_honest.imp fun _ _ h => h.1)
    cutOnce_run).1 3 rfl

theorem download_ends_once : cutOnce.length ≤ 2 * (2 * (2 + 4)) + 1 :=
  (download_ends pairs [1, 2, 3] (.new 3) cutOnce allTaken cutOnce_honest cutOnce_run).1

/-! ### A fetch, and the pulls over it -/

/-- The single stream: small files, and any server that won't serve ranges. -/
def streamWhole : List Bytes → Bytes × ℕ → Bytes × ℕ
  | [], out => out
  | piece :: rest, (file, got) => streamWhole rest (file ++ piece, got + piece.length)

theorem streamWhole_eq (pieces : List Bytes) (file : Bytes) (got : ℕ) :
    streamWhole pieces (file, got) = (file ++ pieces.flatten, got + pieces.flatten.length) := by
  induction pieces generalizing file got with
  | nil => simp [streamWhole]
  | cons piece rest ih => simp [streamWhole, ih, Nat.add_assoc]

/-- What `download` can leave in the `.part` file of a published one, and what it returns, when it
succeeds over an honest transport: a single stream may stop early, which is for the caller to see. -/
inductive Downloaded (L : Limits) (published : Bytes) : Bytes → ℕ → Prop
  | whole {pieces : List Bytes} {file : Bytes} {got : ℕ} : pieces.flatten <+: published →
      streamWhole pieces ([], 0) = (file, got) → Downloaded L published file got
  | chunked {p₀ : Progress} {actions : List Action} {s : State} {got : ℕ} :
      L.parallelMin ≤ published.length →
      Steps.Along (step L published.length) (Honest L published) (start L published.length p₀)
        actions →
      Steps.run (step L published.length) (start L published.length p₀) actions = some s →
      s.outcome = some (some got) → Downloaded L published s.file got

/-- **A download that comes to the published size is the published file.** -/
theorem Downloaded.exact {L : Limits} {published file : Bytes} {got : ℕ}
    (h : Downloaded L published file got) :
    got = file.length ∧ (file.length = published.length → file = published) := by
  cases h with
  | whole hprefix hfile =>
    rw [streamWhole_eq, List.nil_append, Nat.zero_add] at hfile
    cases hfile
    exact ⟨rfl, fun hlen => hprefix.eq_of_length hlen⟩
  | chunked hlarge hhonest hrun hout =>
    obtain ⟨hdone, -⟩ := download_exact L published _ _ _ hhonest hrun
    obtain ⟨rfl, rfl⟩ := hdone got hout
    exact ⟨rfl, fun _ => rfl⟩

end Download

namespace IndexCmd

open Download

/-- Each file a pull downloads is one its revision publishes, over an honest transport. -/
def PullEnv.Honest (L : Limits) (hub : Hub) (env : PullEnv) : Prop :=
  ∀ rev, env.revision = some rev → ∀ path file, env.download path = some file →
    ∃ published got, hub.content rev path = some published ∧ Downloaded L published file got

/-- An effect that puts nothing but one revision's files, and its pin, into the directory. -/
def Effect.Mirrors (hub : Hub) (rev : Rev) : Effect → Prop
  | .install path bytes => hub.content rev path = some bytes
  | .pin pinned => pinned = rev
  | _ => True

/-- A directory with nothing but one revision's files where a lookup could look, and no other pin. -/
structure Dir.Mirrors (hub : Hub) (rev : Rev) (dir : Dir) : Prop where
  files : ∀ path bytes, isParquet path || isBloom path → dir.files path = some bytes →
    hub.content rev path = some bytes
  pin : ∀ pin, dir.pin = some pin → pin = rev

section
variable {sha256 gitBlob : Bytes → List Char} {hub : Hub} {spec : Spec} {dir : Dir} {rev : Rev}

/-- A quarantined name is neither a dataset's nor a filter's. -/
theorem drifted_unlisted (path : Path) : (isParquet (drifted path) || isBloom (drifted path)) = false := by
  have hlast : (drifted path).getLast? = some 'd' := by
    rw [drifted, List.getLast?_append]
    rfl
  have hnot : ∀ ending : List Char, ending.getLast? ≠ some 'd' → ending ≠ [] →
      ending.isSuffixOf (drifted path) = false := by
    intro ending hd hne
    rw [Bool.eq_false_iff, Ne, List.isSuffixOf_iff_suffix]
    intro hsuffix
    obtain ⟨front, hfront⟩ := hsuffix
    rw [← hfront, List.getLast?_append] at hlast
    cases hend : ending.getLast? with
    | none => exact hne (List.getLast?_eq_none_iff.mp hend)
    | some c =>
      rw [hend, Option.some_or] at hlast
      exact hd (hend.trans hlast)
  rw [isParquet, isBloom, hnot ".parquet".toList (by decide) (by decide),
    hnot ".bloom".toList (by decide) (by decide)]
  rfl

/-- **Such an effect keeps such a directory.** -/
theorem Dir.Mirrors.apply (h : dir.Mirrors hub rev) {e : Effect} (he : e.Mirrors hub rev) :
    (e.apply dir).Mirrors hub rev := by
  cases e with
  | unpin => exact ⟨h.files, nofun⟩
  | install path bytes =>
    refine ⟨?_, h.pin⟩
    intro q got hq hgot
    change Function.update dir.files path (some bytes) q = some got at hgot
    by_cases hpath : q = path
    · rw [hpath, Function.update_self] at hgot
      rw [hpath, ← hgot]
      exact he
    · rw [Function.update_of_ne hpath] at hgot
      exact h.files q got hq hgot
  | pin pinned =>
    refine ⟨h.files, ?_⟩
    intro pin hpin
    cases hpin
    exact he
  | quarantine path =>
    refine ⟨?_, h.pin⟩
    intro q got hq hgot
    change Function.update (Function.update dir.files (drifted path) (dir.files path)) path none q
      = some got at hgot
    have hdrifted : q ≠ drifted path := by
      rintro rfl
      rw [drifted_unlisted] at hq
      cases hq
    by_cases hpath : q = path
    · rw [hpath, Function.update_self] at hgot
      cases hgot
    · rw [Function.update_of_ne hpath, Function.update_of_ne hdrifted] at hgot
      exact h.files q got hq hgot
  | remove path =>
    refine ⟨?_, h.pin⟩
    intro q got hq hgot
    change Function.update dir.files path none q = some got at hgot
    by_cases hpath : q = path
    · rw [hpath, Function.update_self] at hgot
      cases hgot
    · rw [Function.update_of_ne hpath] at hgot
      exact h.files q got hq hgot

theorem Dir.Mirrors.applyAll (h : dir.Mirrors hub rev) {es : List Effect}
    (hes : ∀ e ∈ es, e.Mirrors hub rev) : (IndexCmd.applyAll dir es).Mirrors hub rev := by
  induction es generalizing dir with
  | nil => exact h
  | cons e es ih =>
    exact ih (h.apply (hes e List.mem_cons_self)) fun e' he' => hes e' (List.mem_cons_of_mem e he')

theorem Effect.Removes.mirrors {e : Effect} (h : e.Removes) : e.Mirrors hub rev := by
  cases e with
  | install => exact h.elim
  | pin => exact h.elim
  | _ => trivial

/-- A listed file's size is the published one's. -/
theorem size_of_listed {f : RemoteFile} (hf : f ∈ listRemoteFiles sha256 gitBlob hub rev)
    {published : Bytes} (h : hub.content rev f.path = some published) : f.size = published.length := by
  rw [listRemoteFiles, List.mem_insertionSort] at hf
  obtain ⟨g, hg, rfl⟩ := List.mem_map.mp hf
  have hmem := (List.mem_filter.mp hg).1
  rw [Hub.content, Option.map_eq_some_iff] at h
  obtain ⟨g', hfind, rfl⟩ := h
  have hpath : g'.path = g.path := by simpa using List.find?_some hfind
  have heq : g' = g := List.inj_on_of_nodup_map (hub.nodup rev) (List.mem_of_find?_eq_some hfind) hmem hpath
  rw [heq]

/-- What arrives over an honest transport is what is published. -/
theorem arrives_published {L : Limits} {env : PullEnv} {f : RemoteFile} {bytes : Bytes}
    (hhonest : env.Honest L hub) (hrev : env.revision = some rev)
    (hf : f ∈ listRemoteFiles sha256 gitBlob hub rev) (h : env.arrives f = some bytes) :
    hub.content rev f.path = some bytes := by
  rw [PullEnv.arrives] at h
  split at h
  · cases h
  next file hfile =>
  obtain ⟨published, got, hcontent, hdownloaded⟩ := hhonest rev hrev f.path file hfile
  obtain ⟨-, hexact⟩ := hdownloaded.exact
  have hsize := size_of_listed hf hcontent
  split at h
  · cases h
  next hlength =>
  split at h
  · cases h
    rw [hcontent]
    congr 1
    by_cases hzero : published.length = 0
    · cases hdownloaded with
      | whole hprefix hstream =>
        rw [streamWhole_eq, List.nil_append, Nat.zero_add] at hstream
        cases hstream
        rw [List.length_eq_zero_iff.mp hzero] at hprefix ⊢
        exact (List.prefix_nil.mp hprefix).symm
      | chunked hlarge hsteps hrun hout =>
        exact (((download_exact L published _ _ _ hsteps hrun).1 got hout).1).symm
    · exact (hexact (by omega)).symm
  · cases h

theorem fetchAll_installs (env : PullEnv) {files : List RemoteFile} {e : Effect}
    (h : e ∈ (fetchAll env dir files).1) :
    ∃ f ∈ files, ∃ bytes, e = .install f.path bytes ∧ env.arrives f = some bytes := by
  induction files generalizing dir with
  | nil => cases h
  | cons f rest ih =>
    rw [fetchAll] at h
    split at h
    · obtain ⟨g, hg, hrest⟩ := ih h
      exact ⟨g, List.mem_cons_of_mem f hg, hrest⟩
    · split at h
      · cases h
      next bytes hbytes =>
      obtain rfl | hrest := List.mem_cons.mp h
      · exact ⟨f, List.mem_cons_self, bytes, rfl, hbytes⟩
      · obtain ⟨g, hg, hrest⟩ := ih hrest
        exact ⟨g, List.mem_cons_of_mem f hg, hrest⟩

/-- **An honest pull's effects** put nothing but its revision into the directory. -/
theorem pull_mirrors {L : Limits} {env : PullEnv} (hhonest : env.Honest L hub)
    (hrev : ∀ r, env.revision = some r → r = rev) :
    ∀ e ∈ pull sha256 gitBlob hub env dir, e.Mirrors hub rev := by
  intro e he
  rw [pull] at he
  split at he
  · cases he
  next r hr =>
  obtain rfl := hrev r hr
  split at he
  · cases he
  dsimp only at he
  split at he
  · cases he
  have hcleared : ∀ e ∈ clearPin env dir r, e.Mirrors hub r :=
    fun e he => (clearPin_removes env dir r e he).mirrors
  have hfetched : ∀ d : Dir, ∀ e ∈ (fetchAll env d (listRemoteFiles sha256 gitBlob hub r)).1,
      e.Mirrors hub r := by
    intro d e he
    obtain ⟨f, hf, bytes, rfl, hbytes⟩ := fetchAll_installs env he
    exact arrives_published hhonest hr hf hbytes
  split at he
  · simp only [List.mem_append, List.mem_singleton] at he
    obtain ((he | he) | rfl) | he := he
    · exact hcleared e he
    · exact hfetched _ e he
    · rfl
    · exact (verify_removes env.verify e he).mirrors
  · obtain he | he := List.mem_append.mp he
    · exact hcleared e he
    · exact hfetched _ e he

end

end IndexCmd

end Hashdex
