import Hashdex.Lib.Steps
import Hashdex.RangeStore

/-!
# Cursors over one remote file

The ranges fetched of a remote file are shared by all its readers, in memory and on disk.  A cursor's
read first asks whether the byte at its position is there, then looks the bytes up again in ever
smaller numbers; each lookup takes the lock anew, and between two of them other readers insert, which
may clear the whole cache or put a shorter range nearer to the position.

* `step_kept`: what a read returns is the file's bytes at its position, whatever the others do
* `step_steady`: and it does not panic as long as no insertion takes away a byte that is being served
* `cursors_safe`: both, over whole runs
-/

namespace Hashdex.Remote

def headerBlock : ℕ := 16 <<< 10

def cacheMax : ℕ := 96 <<< 20

/-- A lookup in the ranges in memory: the one with the nearest start, if it reaches far enough. -/
def memCached (mem : List (ℕ × Bytes)) (start length : ℕ) : Option Bytes :=
  match (mem.filter fun x => x.1 ≤ start).getLast? with
  | none => none
  | some (s, b) =>
    if start - s + length ≤ b.length then some (byteRange b (start - s) length) else none

/-- One more range; past the cap all others go. -/
def remember (mem : List (ℕ × Bytes)) (start : ℕ) (b : Bytes) : List (ℕ × Bytes) :=
  insertRange start b
    (if cacheMax < (mem.map fun x => x.2.length).sum + b.length then [] else mem)

/-! ### Readers -/

/-- What a call of `cached` is for. -/
inductive Purpose where
  /-- Is the byte at the position there? -/
  | check
  | serve (n : ℕ)
  /-- The lookup whose result is unwrapped. -/
  | last
  /-- The lookup of `read_range`. -/
  | range (n : ℕ)

def Purpose.length : Purpose → ℕ
  | .check => 1
  | .serve n => n
  | .last => 1
  | .range n => n

/-- Where a reader stands.  Every stage but the first and the last ends with a lock, a file or the
network. -/
inductive Stage where
  | idle
  | memory (p : Purpose)
  | disk (p : Purpose)
  /-- A blob came from the disk and is to be put in memory. -/
  | promote (p : Purpose) (start : ℕ) (blob : Bytes)
  /-- `read_range` found nothing; one fetch is to be in flight for a start. -/
  | join (n : ℕ)
  | fetch (n : ℕ)
  | keep (n : ℕ)
  | panicked

/-- A cursor, or a caller of `get_bytes`: where it reads and how much it can take. -/
structure Reader where
  pos : ℕ
  avail : ℕ
  stage : Stage

/-- `returned` is what reads have returned so far: to whom, from what position, which bytes. -/
structure State (ι : Type*) where
  mem : List (ℕ × Bytes)
  inflight : List ℕ
  readers : ι → Reader
  returned : List (ι × ℕ × Bytes)

inductive Action (ι : Type*) where
  /-- `get_read`: a new cursor. -/
  | getRead (i : ι) (start : ℕ)
  /-- `read` into a buffer of so many bytes. -/
  | read (i : ι) (buf : ℕ)
  | getBytes (i : ι) (start length : ℕ)
  | memory (i : ι)
  /-- The disk's answer, if it has a blob over what is asked. -/
  | disk (i : ι) (answer : Option (ℕ × Bytes))
  | promote (i : ι)
  | join (i : ι)
  | fetch (i : ι) (ok : Bool)
  | keep (i : ι)

section

variable {ι : Type*} [DecidableEq ι]

namespace State

def put (s : State ι) (i : ι) (r : Reader) : State ι :=
  { s with readers := Function.update s.readers i r }

def goTo (s : State ι) (i : ι) (stage : Stage) : State ι :=
  s.put i { s.readers i with stage := stage }

/-- A read returns: as much of what it got as it can take. -/
def deliver (s : State ι) (i : ι) (got : Bytes) : State ι :=
  let r := s.readers i
  let bytes := got.take r.avail
  { s.put i ⟨r.pos + bytes.length, r.avail, .idle⟩ with
    returned := (i, r.pos, bytes) :: s.returned }

/-- What follows a lookup. -/
def resume (file : Bytes) (s : State ι) (i : ι) : Purpose → Option Bytes → State ι
  | .check, some _ => s.goTo i (.memory (.serve (s.readers i).avail))
  | .check, none =>
    let r := s.readers i
    s.goTo i (.memory (.range (max r.avail (min headerBlock (file.length - r.pos)))))
  | .serve _, some b => s.deliver i b
  | .serve n, none =>
    if n / 2 = 0 then s.goTo i (.memory .last) else s.goTo i (.memory (.serve (n / 2)))
  | .last, some b => s.deliver i b
  | .last, none => s.goTo i .panicked
  | .range _, some b => s.deliver i b
  | .range n, none => s.goTo i (.join n)

end State

/-- The bytes are the file's from a place on. -/
def OfFile (file : Bytes) (start : ℕ) (b : Bytes) : Prop := b = byteRange file start b.length

instance (file : Bytes) (start : ℕ) (b : Bytes) : Decidable (OfFile file start b) :=
  inferInstanceAs (Decidable (_ = _))

/-- A blob the disk can answer with. -/
def Covers (file : Bytes) (start length : ℕ) (blob : ℕ × Bytes) : Prop :=
  blob.1 ≤ start ∧ start + length ≤ blob.1 + blob.2.length ∧ OfFile file blob.1 blob.2

instance (file : Bytes) (start length : ℕ) (blob : ℕ × Bytes) :
    Decidable (Covers file start length blob) := inferInstanceAs (Decidable (_ ∧ _))

/-- One turn of a reader.  A fetch that succeeds brings the file's bytes of the range asked; blobs on
disk hold bytes of the file, and may be gone at any time. -/
def step (file : Bytes) (s : State ι) : Action ι → Option (State ι)
  | .getRead i start =>
    match (s.readers i).stage with
    | .idle => some (s.put i ⟨start, 0, .idle⟩)
    | _ => none
  | .read i buf =>
    match s.readers i with
    | ⟨pos, _, .idle⟩ =>
      if file.length ≤ pos ∨ buf = 0 then some { s with returned := (i, pos, []) :: s.returned }
      else some (s.put i ⟨pos, min (file.length - pos) buf, .memory .check⟩)
    | _ => none
  | .getBytes i start length =>
    match (s.readers i).stage with
    | .idle =>
      if length = 0 then some { s with returned := (i, start, []) :: s.returned }
      else some (s.put i ⟨start, length, .memory (.range length)⟩)
    | _ => none
  | .memory i =>
    match (s.readers i).stage with
    | .memory p =>
      match memCached s.mem (s.readers i).pos p.length with
      | some b => some (s.resume file i p (some b))
      | none => some (s.goTo i (.disk p))
    | _ => none
  | .disk i answer =>
    match (s.readers i).stage with
    | .disk p =>
      match answer with
      | none => some (s.resume file i p none)
      | some blob =>
        if Covers file (s.readers i).pos p.length blob then
          some (s.goTo i (.promote p blob.1 blob.2))
        else none
    | _ => none
  | .promote i =>
    match (s.readers i).stage with
    | .promote p start blob =>
      let s := { s with mem := remember s.mem start blob }
      some (s.resume file i p (some (byteRange blob ((s.readers i).pos - start) p.length)))
    | _ => none
  | .join i =>
    match (s.readers i).stage with
    | .join n =>
      let pos := (s.readers i).pos
      -- who waits for another's fetch looks again once woken
      if pos ∈ s.inflight then some (s.goTo i (.memory (.range n)))
      else some { s.goTo i (.fetch n) with inflight := pos :: s.inflight }
    | _ => none
  | .fetch i ok =>
    match (s.readers i).stage with
    | .fetch n =>
      let pos := (s.readers i).pos
      let s := { s with inflight := s.inflight.filter (· ≠ pos) }
      if ok then
        if pos + n ≤ file.length then some (s.goTo i (.keep n)) else none
      else some (s.goTo i .idle)
    | _ => none
  | .keep i =>
    match (s.readers i).stage with
    | .keep n =>
      let b := byteRange file (s.readers i).pos n
      some ({ s with mem := remember s.mem (s.readers i).pos b }.deliver i b)
    | _ => none

/-! ### The bytes of the file -/

theorem ofFile_byteRange (file : Bytes) (start n : ℕ) : OfFile file start (byteRange file start n) := by
  rw [OfFile, byteRange, byteRange, List.length_take]
  exact (List.take_eq_take_min ..).trans (by rw [List.length_drop])

theorem OfFile.take {file b : Bytes} {start : ℕ} (h : OfFile file start b) (n : ℕ) :
    OfFile file start (b.take n) := by
  have hb : b.take n = byteRange file start (min n b.length) := by
    conv_lhs => rw [h, byteRange, List.take_take]
    rfl
  rw [hb]
  exact ofFile_byteRange file start _

/-- A part of the file's bytes. -/
theorem OfFile.part {file b : Bytes} {start pos n : ℕ} (h : OfFile file start b) (hle : start ≤ pos)
    (hn : pos - start + n ≤ b.length) : byteRange b (pos - start) n = byteRange file pos n := by
  rw [h, byteRange_byteRange file start b.length _ _ hn]
  congr 1
  omega

theorem memCached_ofFile {file : Bytes} {mem : List (ℕ × Bytes)} {pos n : ℕ} {b : Bytes}
    (hmem : ∀ x ∈ mem, OfFile file x.1 x.2) (h : memCached mem pos n = some b) :
    OfFile file pos b := by
  rw [memCached] at h
  cases hlast : (mem.filter fun x => x.1 ≤ pos).getLast? with
  | none =>
    rw [hlast] at h
    cases h
  | some x =>
    rw [hlast] at h
    dsimp only at h
    obtain ⟨hx, hle⟩ := List.mem_filter.mp (List.mem_of_getLast? hlast)
    split at h
    · next hn =>
      cases h
      rw [(hmem x hx).part (of_decide_eq_true hle) hn]
      exact ofFile_byteRange file pos n
    · cases h

theorem Covers.ofFile {file : Bytes} {pos n start : ℕ} {blob : Bytes}
    (h : Covers file pos n (start, blob)) : OfFile file pos (byteRange blob (pos - start) n) := by
  obtain ⟨hle, hend, hblob⟩ := h
  simp only at hle hend hblob
  rw [hblob.part hle (by omega)]
  exact ofFile_byteRange file pos n

theorem mem_of_insertRange {start : ℕ} {b : Bytes} {ranges : List (ℕ × Bytes)} {x : ℕ × Bytes}
    (h : x ∈ insertRange start b ranges) : x = (start, b) ∨ x ∈ ranges := by
  induction ranges with
  | nil => exact Or.inl (List.mem_singleton.mp h)
  | cons y rest ih =>
    rw [insertRange] at h
    split at h
    · exact List.mem_cons.mp h
    · split at h
      · exact (List.mem_cons.mp h).imp_right (List.mem_cons_of_mem _)
      · rcases List.mem_cons.mp h with rfl | h
        · exact Or.inr List.mem_cons_self
        · exact (ih h).imp_right (List.mem_cons_of_mem _)

theorem remember_ofFile {file : Bytes} {mem : List (ℕ × Bytes)} {start : ℕ} {b : Bytes}
    (hmem : ∀ x ∈ mem, OfFile file x.1 x.2) (hb : OfFile file start b) :
    ∀ x ∈ remember mem start b, OfFile file x.1 x.2 := by
  intro x hx
  rcases mem_of_insertRange hx with rfl | hx
  · exact hb
  · split at hx
    · cases hx
    · exact hmem x hx

/-- What is in memory, what came from the disk and what was returned is the file's. -/
structure Kept (file : Bytes) (s : State ι) : Prop where
  mem : ∀ x ∈ s.mem, OfFile file x.1 x.2
  blob : ∀ i p start b, (s.readers i).stage = .promote p start b →
    Covers file (s.readers i).pos p.length (start, b)
  returned : ∀ x ∈ s.returned, OfFile file x.2.1 x.2.2

theorem Kept.put {file : Bytes} {s : State ι} (h : Kept file s) (i : ι) {r : Reader}
    (hr : ∀ p start b, r.stage = .promote p start b → Covers file r.pos p.length (start, b)) :
    Kept file (s.put i r) := by
  refine { h with blob := fun j p start b hj => ?_ }
  by_cases hji : j = i
  · subst hji
    simp only [State.put, Function.update_self] at hj ⊢
    exact hr p start b hj
  · simp only [State.put, Function.update_of_ne hji] at hj ⊢
    exact h.blob j p start b hj

theorem Kept.goTo {file : Bytes} {s : State ι} (h : Kept file s) (i : ι) {stage : Stage}
    (hstage : ∀ p start b, stage = .promote p start b →
      Covers file (s.readers i).pos p.length (start, b)) : Kept file (s.goTo i stage) :=
  h.put i hstage

theorem Kept.deliver {file : Bytes} {s : State ι} (h : Kept file s) (i : ι) {got : Bytes}
    (hgot : OfFile file (s.readers i).pos got) : Kept file (s.deliver i got) := by
  have hput := h.put i (r := ⟨(s.readers i).pos + (got.take (s.readers i).avail).length,
    (s.readers i).avail, .idle⟩) nofun
  refine { hput with returned := fun x hx => ?_ }
  rcases List.mem_cons.mp hx with rfl | hx
  · exact hgot.take _
  · exact h.returned x hx

theorem Kept.resume {file : Bytes} {s : State ι} (h : Kept file s) (i : ι) (p : Purpose)
    {got : Option Bytes} (hgot : ∀ b, got = some b → OfFile file (s.readers i).pos b) :
    Kept file (s.resume file i p got) := by
  cases p with
  | check => cases got <;> exact h.goTo i nofun
  | serve n =>
    cases got with
    | some b => exact h.deliver i (hgot b rfl)
    | none =>
      rw [State.resume]
      split <;> exact h.goTo i nofun
  | last =>
    cases got with
    | some b => exact h.deliver i (hgot b rfl)
    | none => exact h.goTo i nofun
  | range n =>
    cases got with
    | some b => exact h.deliver i (hgot b rfl)
    | none => exact h.goTo i nofun

/-- **Whatever the others do,** a turn returns nothing but bytes of the file. -/
theorem step_kept {file : Bytes} {s s' : State ι} (a : Action ι) (hs : Kept file s)
    (h : step file s a = some s') : Kept file s' := by
  cases a with
  | getRead i start =>
    simp only [step] at h
    split at h
    · cases h
      exact hs.put i nofun
    · cases h
  | read i buf =>
    simp only [step] at h
    split at h
    · split at h
      · cases h
        refine { hs with returned := fun x hx => ?_ }
        rcases List.mem_cons.mp hx with rfl | hx
        · rfl
        · exact hs.returned x hx
      · cases h
        exact hs.put i nofun
    · cases h
  | getBytes i start length =>
    simp only [step] at h
    split at h
    · split at h
      · cases h
        refine { hs with returned := fun x hx => ?_ }
        rcases List.mem_cons.mp hx with rfl | hx
        · rfl
        · exact hs.returned x hx
      · cases h
        exact hs.put i nofun
    · cases h
  | memory i =>
    simp only [step] at h
    split at h
    · next p _ =>
      split at h
      · next b hb =>
        cases h
        refine hs.resume i p fun b' hb' => ?_
        cases hb'
        exact memCached_ofFile hs.mem hb
      · cases h
        exact hs.goTo i nofun
    · cases h
  | disk i answer =>
    simp only [step] at h
    split at h
    · next p _ =>
      cases answer with
      | none =>
        cases h
        exact hs.resume i p fun b hb => by cases hb
      | some blob =>
        dsimp only at h
        split at h
        · next hcovers =>
          cases h
          refine hs.goTo i fun p' start b heq => ?_
          cases heq
          exact hcovers
        · cases h
    · cases h
  | promote i =>
    simp only [step] at h
    split at h
    · next p start blob hstage =>
      cases h
      have hcovers := hs.blob i p start blob hstage
      have hmem : Kept file { s with mem := remember s.mem start blob } :=
        { hs with mem := remember_ofFile hs.mem hcovers.2.2 }
      refine hmem.resume i p fun b hb => ?_
      cases hb
      exact hcovers.ofFile
    · cases h
  | join i =>
    simp only [step] at h
    split at h
    · next n _ =>
      split at h
      · cases h
        exact hs.goTo i nofun
      · cases h
        have hgo : Kept file (s.goTo i (.fetch n)) := hs.goTo i nofun
        exact { hgo with }
    · cases h
  | fetch i ok =>
    simp only [step] at h
    split at h
    · next n _ =>
      have hmem : Kept file { s with inflight := s.inflight.filter (· ≠ (s.readers i).pos) } :=
        { hs with }
      split at h
      · split at h
        · cases h
          exact hmem.goTo i nofun
        · cases h
      · cases h
        exact hmem.goTo i nofun
    · cases h
  | keep i =>
    simp only [step] at h
    split at h
    · next n _ =>
      cases h
      have hfile := ofFile_byteRange file (s.readers i).pos n
      have hmem : Kept file
          { s with mem := remember s.mem (s.readers i).pos (byteRange file (s.readers i).pos n) } :=
        { hs with mem := remember_ofFile hs.mem hfile }
      exact hmem.deliver i hfile
    · cases h

/-! ### Nothing is taken away -/

/-- The byte at a position is in memory. -/
def Served (mem : List (ℕ × Bytes)) (pos : ℕ) : Prop := memCached mem pos 1 ≠ none

instance (mem : List (ℕ × Bytes)) (pos : ℕ) : Decidable (Served mem pos) :=
  inferInstanceAs (Decidable (_ ≠ _))

/-- The reader has seen the byte at its position, and has not looked the bytes up to the end. -/
def Serving (r : Reader) : Prop :=
  (∃ n, r.stage = .memory (.serve n)) ∨ ∃ n, r.stage = .disk (.serve n)

/-- Putting a range in memory leaves there the byte of every other reader that is being served. -/
def Undisturbed (s : State ι) (i : ι) (start : ℕ) (b : Bytes) : Prop :=
  ∀ j, j ≠ i → Serving (s.readers j) → Served s.mem (s.readers j).pos →
    Served (remember s.mem start b) (s.readers j).pos

/-- No insertion takes away a byte that is being served; and a blob that was brought from the disk
for a check serves it, no shorter range standing nearer. -/
def Keeps (file : Bytes) (s : State ι) : Action ι → Prop
  | .promote i => ∀ p start b, (s.readers i).stage = .promote p start b →
    Undisturbed s i start b ∧
      ∀ _ : p = .check, Served (remember s.mem start b) (s.readers i).pos
  | .keep i => ∀ n, (s.readers i).stage = .keep n →
    Undisturbed s i (s.readers i).pos (byteRange file (s.readers i).pos n)
  | _ => True

/-- A reader that is being served has its byte in memory, so it never comes to the last lookup. -/
def Steady (mem : List (ℕ × Bytes)) (r : Reader) : Prop :=
  match r.stage with
  | .memory .check | .disk .check | .promote .check _ _ => 1 ≤ r.avail
  | .memory (.serve n) => 1 ≤ n ∧ Served mem r.pos
  | .disk (.serve n) => 2 ≤ n ∧ Served mem r.pos
  | .memory .last | .disk .last | .promote .last _ _ | .panicked => False
  | _ => True

omit [DecidableEq ι] in
/-- A reader elsewhere stays as it is. -/
theorem steady_of_undisturbed {s : State ι} {i j : ι} {start : ℕ} {b : Bytes}
    (h : Undisturbed s i start b) (hj : j ≠ i) (hs : Steady s.mem (s.readers j)) :
    Steady (remember s.mem start b) (s.readers j) := by
  have hund := h j hj
  revert hund hs
  cases hr : s.readers j with
  | mk pos avail stage =>
    intro hs hund
    cases stage with
    | memory p =>
      cases p with
      | serve n => exact ⟨hs.1, hund (Or.inl ⟨n, rfl⟩) hs.2⟩
      | _ => exact hs
    | disk p =>
      cases p with
      | serve n => exact ⟨hs.1, hund (Or.inr ⟨n, rfl⟩) hs.2⟩
      | _ => exact hs
    | promote p start blob => cases p <;> exact hs
    | _ => exact hs

theorem put_steady {s : State ι} {i : ι} {r : Reader} {mem : List (ℕ × Bytes)}
    (hothers : ∀ j, j ≠ i → Steady mem (s.readers j)) (hr : Steady mem r) :
    ∀ j, Steady mem ((s.put i r).readers j) := by
  intro j
  by_cases hji : j = i
  · subst hji
    simp only [State.put, Function.update_self]
    exact hr
  · simp only [State.put, Function.update_of_ne hji]
    exact hothers j hji

theorem resume_mem (file : Bytes) (s : State ι) (i : ι) (p : Purpose)
    (got : Option Bytes) : (s.resume file i p got).mem = s.mem := by
  cases p with
  | serve n =>
    cases got with
    | some b => rfl
    | none =>
      rw [State.resume]
      split <;> rfl
  | _ => cases got <;> rfl

/-- A lookup resumes steadily: a check that found the byte finds it again, and a lookup of more than
one byte that found nothing leaves some to look for. -/
theorem resume_steady {file : Bytes} {s : State ι} {i : ι} {p : Purpose} {got : Option Bytes}
    (hothers : ∀ j, j ≠ i → Steady s.mem (s.readers j))
    (hcheck : p = .check → got ≠ none →
      1 ≤ (s.readers i).avail ∧ Served s.mem (s.readers i).pos)
    (hserve : ∀ n, p = .serve n → got = none → 2 ≤ n ∧ Served s.mem (s.readers i).pos)
    (hlast : p ≠ .last) : ∀ j, Steady s.mem ((s.resume file i p got).readers j) := by
  cases p with
  | check =>
    cases got with
    | some b => exact put_steady hothers (hcheck rfl (Option.some_ne_none b))
    | none => exact put_steady hothers trivial
  | serve n =>
    cases got with
    | some b => exact put_steady hothers trivial
    | none =>
      obtain ⟨hn, hserved⟩ := hserve n rfl rfl
      rw [State.resume, if_neg (by omega)]
      exact put_steady hothers ⟨by omega, hserved⟩
  | last => exact absurd rfl hlast
  | range n =>
    cases got with
    | some b => exact put_steady hothers trivial
    | none => exact put_steady hothers trivial

/-- **Nothing panics where no insertion takes away what is being served.** -/
theorem step_steady {file : Bytes} {s s' : State ι} (a : Action ι)
    (hs : ∀ i, Steady s.mem (s.readers i)) (hk : Keeps file s a) (h : step file s a = some s') :
    ∀ i, Steady s'.mem (s'.readers i) := by
  cases a with
  | getRead i start =>
    simp only [step] at h
    split at h
    · cases h
      exact put_steady (fun j _ => hs j) trivial
    · cases h
  | read i buf =>
    simp only [step] at h
    split at h
    · split at h
      · cases h
        exact hs
      · next hin =>
        cases h
        rw [not_or, not_le] at hin
        refine put_steady (fun j _ => hs j) ?_
        show 1 ≤ min _ buf
        omega
    · cases h
  | getBytes i start length =>
    simp only [step] at h
    split at h
    · split at h
      · cases h
        exact hs
      · cases h
        exact put_steady (fun j _ => hs j) trivial
    · cases h
  | memory i =>
    simp only [step] at h
    split at h
    · next p hstage =>
      have hi := hs i
      rw [Steady, hstage] at hi
      split at h
      · next b hb =>
        cases h
        rw [resume_mem]
        refine resume_steady (fun j _ => hs j) ?_ (fun n _ hnone => by cases hnone) ?_
        · rintro rfl -
          exact ⟨hi, by rw [Served, show memCached s.mem _ 1 = _ from hb]; exact
            Option.some_ne_none b⟩
        · rintro rfl
          exact hi
      · next hb =>
        cases h
        refine put_steady (fun j _ => hs j) ?_
        cases p with
        | check => exact hi
        | serve n =>
          have hn : n ≠ 1 := by
            rintro rfl
            exact hi.2 hb
          exact ⟨by have := hi.1; omega, hi.2⟩
        | last => exact hi
        | range n => trivial
    · cases h
  | disk i answer =>
    simp only [step] at h
    split at h
    · next p hstage =>
      have hi := hs i
      rw [Steady, hstage] at hi
      cases answer with
      | none =>
        cases h
        rw [resume_mem]
        refine resume_steady (fun j _ => hs j) (fun _ hnone => absurd rfl hnone) ?_ ?_
        · rintro n rfl -
          exact hi
        · rintro rfl
          exact hi
      | some blob =>
        dsimp only at h
        split at h
        · cases h
          refine put_steady (fun j _ => hs j) ?_
          cases p with
          | check => exact hi
          | serve n => trivial
          | last => exact hi
          | range n => trivial
        · cases h
    · cases h
  | promote i =>
    simp only [step] at h
    split at h
    · next p start blob hstage =>
      cases h
      obtain ⟨hund, hself⟩ := hk p start blob hstage
      have hi := hs i
      rw [Steady, hstage] at hi
      rw [resume_mem]
      refine resume_steady (fun j hj => steady_of_undisturbed hund hj (hs j)) ?_
        (fun n _ hnone => by cases hnone) ?_
      · rintro rfl -
        exact ⟨hi, hself rfl⟩
      · rintro rfl
        exact hi
    · cases h
  | join i =>
    simp only [step] at h
    split at h
    · split at h
      · cases h
        exact put_steady (fun j _ => hs j) trivial
      · cases h
        exact put_steady (fun j _ => hs j) trivial
    · cases h
  | fetch i ok =>
    simp only [step] at h
    split at h
    · split at h
      · split at h
        · cases h
          exact put_steady (fun j _ => hs j) trivial
        · cases h
      · cases h
        exact put_steady (fun j _ => hs j) trivial
    · cases h
  | keep i =>
    simp only [step] at h
    split at h
    · next n hstage =>
      cases h
      have hund := hk n hstage
      exact put_steady (fun j hj => steady_of_undisturbed hund hj (hs j)) trivial
    · cases h

/-- A file as it is opened: some of it in memory, no read under way. -/
structure Opened (file : Bytes) (s : State ι) : Prop where
  mem : ∀ x ∈ s.mem, OfFile file x.1 x.2
  idle : ∀ i, (s.readers i).stage = .idle
  returned : s.returned = []

/-- **In every interleaving a read returns the file's bytes at its position**, and in every one whose
insertions take away no byte that is being served, no read panics. -/
theorem cursors_safe {file : Bytes} {s₀ s : State ι} {actions : List (Action ι)}
    (h₀ : Opened file s₀) (h : Steps.run (step file) s₀ actions = some s) :
    (∀ x ∈ s.returned, x.2.2 = byteRange file x.2.1 x.2.2.length) ∧
      (Steps.Along (step file) (Keeps file) s₀ actions →
        ∀ i, (s.readers i).stage ≠ .panicked) := by
  constructor
  · have hkept : Kept file s₀ := by
      refine ⟨h₀.mem, fun i p start b hi => ?_, fun x hx => ?_⟩
      · rw [h₀.idle i] at hi
        cases hi
      · rw [h₀.returned] at hx
        cases hx
    exact (Steps.run_invariant (fun _ a _ hs hstep => step_kept a hs hstep) hkept h).returned
  · intro hC i hpanic
    have hsteady : ∀ i, Steady s₀.mem (s₀.readers i) := by
      intro i
      rw [Steady, h₀.idle i]
      trivial
    have hall := Steps.run_invariant_along (P := fun s => ∀ i, Steady s.mem (s.readers i))
      (fun _ a _ hs hk hstep => step_steady a hs hk hstep) hsteady hC h
    have hi := hall i
    rw [Steady, hpanic] at hi
    exact hi

end

/-! ### Three cursors -/

/-- Nothing in memory; cursors at 1, at the start and at 20000. -/
def opening : State (Fin 3) :=
  { mem := []
    inflight := []
    readers := fun i => ⟨if i = 0 then 1 else if i = 1 then 0 else 20000, 0, .idle⟩
    returned := [] }

theorem opening_opened (file : Bytes) : Opened file opening := ⟨nofun, fun _ => rfl, rfl⟩

/-- A cursor that finds nothing fetches a range. -/
def fetchRange (i : Fin 3) : List (Action (Fin 3)) :=
  [.memory i, .disk i none, .memory i, .disk i none, .join i, .fetch i true]

theorem cursors_safe_alone :
    ∃ s, Steps.run (step [7, 8, 9]) opening ([.read 0 5] ++ fetchRange 0 ++ [.keep 0]) = some s ∧
      (∀ x ∈ s.returned, x.2.2 = byteRange [7, 8, 9] x.2.1 x.2.2.length) ∧
      (Steps.Along (step [7, 8, 9]) (Keeps [7, 8, 9]) opening
        ([.read 0 5] ++ fetchRange 0 ++ [.keep 0]) → ∀ i, (s.readers i).stage ≠ .panicked) := by
  obtain ⟨s, hs⟩ := Option.isSome_iff_exists.mp
    (show (Steps.run (step [7, 8, 9]) opening
      ([.read 0 5] ++ fetchRange 0 ++ [.keep 0])).isSome = true from rfl)
  exact ⟨s, hs, cursors_safe (opening_opened _) hs⟩

/-- The first cursor's range arrives when the third has seen its byte in the second's. -/
def overtaken : List (Action (Fin 3)) :=
  [.read 0 1] ++ fetchRange 0 ++ [.read 1 40000] ++ fetchRange 1 ++ [.keep 1] ++
    [.read 2 1, .memory 2, .keep 0, .memory 2, .disk 2 none, .memory 2, .disk 2 none]

theorem run_overtaken {file : Bytes} (hlen : file.length = 40000) :
    ∃ s, Steps.run (step file) opening overtaken = some s ∧
      (s.readers 2).stage = .panicked := by
  have h0 : (byteRange file 0 40000).length = 40000 := byteRange_length (by omega)
  have h1 : (byteRange file 1 16384).length = 16384 := byteRange_length (by omega)
  simp [Steps.run, step, opening, overtaken, fetchRange, State.put, State.goTo, State.resume,
    State.deliver, memCached, remember, insertRange, hlen, h0, h1, headerBlock, cacheMax,
    Function.update, Purpose.length]

theorem overtaken_panics :
    ¬ ∀ (file : Bytes) (s₀ s : State (Fin 3)) (actions : List (Action (Fin 3))), Opened file s₀ →
      Steps.run (step file) s₀ actions = some s → ∀ i, (s.readers i).stage ≠ .panicked := by
  intro h
  obtain ⟨s, hs, hpanic⟩ :=
    run_overtaken (List.length_replicate : (List.replicate 40000 (0 : UInt8)).length = 40000)
  exact h _ opening s overtaken (opening_opened _) hs 2 hpanic

end Hashdex.Remote
