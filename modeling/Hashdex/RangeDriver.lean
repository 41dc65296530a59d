import Mathlib
import Hashdex.Lib.Retry
import Hashdex.RangeStore

/-!
# Fetch and try again

A transport that cannot block inside a read serves a decode from a `RangeStore`.  A read of bytes that
are not there fails the decode; the driver takes the range that was missed, fetches it, inserts it and
runs the decode from the start again.

* `attempt_spec`: a run over a store that holds ranges of the file ends as the decode does on the whole
  file, or at a read that is not there
* `round_progress`: what a round that missed something has gained
* `driver_converges`: the loop ends as the decode does on the whole file
-/

namespace Hashdex.Driver

open RangeStore

/-- What a decode does next. -/
inductive Ask (ε β : Type*) where
  | done (r : Except ε β)
  | getBytes (start length : ℕ)
  /-- A cursor at a position reads into a buffer of so many bytes. -/
  | read (pos buf : ℕ)

/-- A deterministic decode: a state asks, and goes on with the bytes it gets. -/
structure Decode (σ ε β : Type*) where
  ask : σ → Ask ε β
  feed : σ → Bytes → σ

/-- How a run of a decode ends. -/
inductive Ended (ε β : Type*) where
  | result (r : Except ε β)
  /-- A read failed, and the decode with it. -/
  | missed
  | panicked
  | endless

section

variable {σ ε β : Type*} (D : Decode σ ε β) (w : ℕ)

/-- One run of the decode, of at most so many steps. -/
def attempt : ℕ → RangeStore → σ → RangeStore × Ended ε β
  | 0, s, _ => (s, .endless)
  | n + 1, s, d =>
    let go : RangeStore × Got → RangeStore × Ended ε β
      | (s', .bytes b) => attempt n s' (D.feed d b)
      | (s', .miss) => (s', .missed)
      | (s', .panics) => (s', .panicked)
    match D.ask d with
    | .done r => (s, .result r)
    | .getBytes start length => go (s.getBytes w start length)
    | .read pos buf => go (s.read w pos buf)

/-- Run; where that fails, fetch what was missed, if anything was, and insert it. -/
def round (file : Bytes) (steps : ℕ) (d : σ) (s : RangeStore) : Retry.Outcome RangeStore (Ended ε β) :=
  match attempt D w steps s d with
  | (_, .result (.ok v)) => .done (.result (.ok v))
  | (s', ended) =>
    match s'.miss with
    | some (start, length) =>
      .again ({ s' with miss := none }.insert start (byteRange file start length))
    | none => .done ended

/-- A store that starts with a suffix of the file. -/
def opened (file : Bytes) (fetchBlock start : ℕ) : RangeStore :=
  (withFetchBlock file.length fetchBlock).insert start (file.drop start)

/-- What a cursor's read may return: not more than there is, and something unless there is nothing. -/
def Cut (file : Bytes) (pos buf m : ℕ) : Prop :=
  m ≤ min (file.length - pos) buf ∧ (m = 0 → min (file.length - pos) buf = 0)

/-- Within so many reads, all inside the file, the decode ends with the result, wherever the reads of its
cursors are cut short. -/
def Steady (file : Bytes) (r : Except ε β) : ℕ → σ → Prop
  | 0, _ => False
  | n + 1, d =>
    match D.ask d with
    | .done r' => r' = r
    | .getBytes start length =>
      start + length ≤ file.length ∧ Steady file r n (D.feed d (byteRange file start length))
    | .read pos buf =>
      ∀ m, Cut file pos buf m → Steady file r n (D.feed d (byteRange file pos m))

end

/-! ### Ranges of one file -/

/-- The store has ranges of the file, and no miss is pending. -/
structure Holds (file : Bytes) (s : RangeStore) : Prop where
  len : s.len = file.length
  miss : s.miss = none
  ranges : ∀ x ∈ s.ranges, x.1 + x.2.length ≤ file.length ∧ x.2 = byteRange file x.1 x.2.length

/-- The nearest range at or below a position goes up to an end. -/
def Reach (s : RangeStore) (pos stop : ℕ) : Prop :=
  ∃ x, s.nearest pos = some x ∧ stop ≤ x.1 + x.2.length

section

variable {file : Bytes} {s : RangeStore}

theorem Reach.mono {pos stop stop' : ℕ} (h : Reach s pos stop) (hle : stop' ≤ stop) :
    Reach s pos stop' := by
  obtain ⟨x, hx, hstop⟩ := h
  exact ⟨x, hx, hle.trans hstop⟩

theorem Holds.insert (h : Holds file s) {start length : ℕ} (hend : start + length ≤ file.length) :
    Holds file (s.insert start (byteRange file start length)) := by
  refine ⟨h.len, h.miss, fun x hx => ?_⟩
  cases (mem_insertRange s.sorted).mp hx with
  | inl hnew =>
    rw [hnew]
    show start + (byteRange file start length).length ≤ _ ∧ byteRange file start length = _
    rw [byteRange_length hend]
    exact ⟨hend, rfl⟩
  | inr hold => exact h.ranges x hold.1

theorem nearest_insert_self (start : ℕ) (bytes : Bytes) :
    (s.insert start bytes).nearest start = some (start, bytes) := by
  refine nearest_eq_some.mpr ⟨(mem_insertRange s.sorted).mpr (.inl rfl), le_rfl, fun y _ hle => hle⟩

/-- The nearest range is the new one, or the one it was. -/
theorem nearest_insert (start : ℕ) (bytes : Bytes) {pos : ℕ} {x : ℕ × Bytes}
    (hx : s.nearest pos = some x) :
    (s.insert start bytes).nearest pos
      = if x.1 ≤ start ∧ start ≤ pos then some (start, bytes) else some x := by
  obtain ⟨hmem, hle, hmax⟩ := nearest_eq_some.mp hx
  split_ifs with hnew
  · refine nearest_eq_some.mpr ⟨(mem_insertRange s.sorted).mpr (.inl rfl), hnew.2,
      fun y hy hypos => ?_⟩
    cases (mem_insertRange s.sorted).mp hy with
    | inl heq => rw [heq]
    | inr hold => exact (hmax y hold.1 hypos).trans hnew.1
  · refine nearest_eq_some.mpr ⟨(mem_insertRange s.sorted).mpr (.inr ⟨hmem, by omega⟩), hle,
      fun y hy hypos => ?_⟩
    cases (mem_insertRange s.sorted).mp hy with
    | inl heq =>
      rw [heq] at hypos ⊢
      dsimp only at hypos ⊢
      omega
    | inr hold => exact hmax y hold.1 hypos

/-- **Nothing is hidden.**  A range that was missed where it starts reaches beyond what was nearest
there, so whatever could be read still can. -/
theorem reach_insert {start wanted pos stop : ℕ} {bytes : Bytes} (hlong : wanted ≤ bytes.length)
    (hmissed : ¬ Reach s start (start + wanted)) (h : Reach s pos stop) :
    Reach (s.insert start bytes) pos stop := by
  obtain ⟨x, hx, hstop⟩ := h
  obtain ⟨hmem, hle, hmax⟩ := nearest_eq_some.mp hx
  have hnearest := nearest_insert start bytes hx
  split_ifs at hnearest with hnew
  · -- the nearest range of `pos` is the one that `start` had, which ends before the new one does
    have hstart : s.nearest start = some x :=
      nearest_eq_some.mpr ⟨hmem, hnew.1, fun y hy hle => hmax y hy (hle.trans hnew.2)⟩
    have hshort : ¬ start + wanted ≤ x.1 + x.2.length := fun hreach => hmissed ⟨x, hstart, hreach⟩
    refine ⟨_, hnearest, ?_⟩
    show stop ≤ start + bytes.length
    omega
  · exact ⟨x, hnearest, hstop⟩

/-! ### What a read gets -/

variable {w : ℕ}

theorem cached_of_reach (hw : file.length < 2 ^ w) (h : Holds file s) {pos m : ℕ}
    (hend : pos + m ≤ file.length) (hreach : Reach s pos (pos + m)) :
    s.cached w pos m = .held (byteRange file pos m) := by
  obtain ⟨x, hx, hstop⟩ := hreach
  obtain ⟨hmem, hle, -⟩ := nearest_eq_some.mp hx
  obtain ⟨hxend, hbytes⟩ := h.ranges x hmem
  have hoff : (pos - x.1) % 2 ^ w = pos - x.1 := Nat.mod_eq_of_lt (by omega)
  rw [cached_of_nearest hx (by omega) (by omega), hoff, hbytes,
    byteRange_byteRange file x.1 x.2.length (pos - x.1) m (by omega)]
  congr 2
  omega

theorem cached_of_not_reach (hw : file.length < 2 ^ w) {pos m : ℕ}
    (hend : pos + m ≤ file.length) (hreach : ¬ Reach s pos (pos + m)) :
    s.cached w pos m = .absent := by
  unfold cached
  cases hx : s.nearest pos with
  | none => rfl
  | some x =>
    obtain ⟨-, hle, -⟩ := nearest_eq_some.mp hx
    have hshort : ¬ pos + m ≤ x.1 + x.2.length := fun hstop => hreach ⟨x, hx, hstop⟩
    dsimp only
    rw [Nat.mod_eq_of_lt (show pos - x.1 < 2 ^ w by omega),
      Nat.mod_eq_of_lt (show pos - x.1 + m < 2 ^ w by omega), if_pos (by omega)]

theorem getBytes_of_reach (hw : file.length < 2 ^ w) (h : Holds file s) {start length : ℕ}
    (hend : start + length ≤ file.length) (hreach : Reach s start (start + length)) :
    s.getBytes w start length = (s, .bytes (byteRange file start length)) := by
  unfold getBytes
  split_ifs with hzero
  · rw [hzero, byteRange, List.take_zero]
  · rw [cached_of_reach hw h hend hreach]

theorem getBytes_zero (file : Bytes) (start : ℕ) : s.getBytes w start 0 = (s, .bytes (byteRange file start 0)) := by
  rw [getBytes, if_pos rfl, byteRange, List.take_zero]

theorem getBytes_of_not_reach (hw : file.length < 2 ^ w) {start length : ℕ}
    (hpos : 0 < length) (hend : start + length ≤ file.length)
    (hreach : ¬ Reach s start (start + length)) :
    s.getBytes w start length = (s.missed w start length, .miss) := by
  unfold getBytes
  rw [if_neg (by omega), cached_of_not_reach hw hend hreach]

/-- By halves, some of what is asked for is found, if the first byte of it is there. -/
theorem serve_of_reach (hw : file.length < 2 ^ w) (h : Holds file s) {pos : ℕ}
    (hreach : Reach s pos (pos + 1)) (n : ℕ) (hpos : 0 < n) (hend : pos + n ≤ file.length) :
    ∃ m, 0 < m ∧ m ≤ n ∧ s.serve w pos n = .held (byteRange file pos m) := by
  induction n using Nat.strongRecOn with
  | _ n ih =>
    by_cases hall : Reach s pos (pos + n)
    · exact ⟨n, hpos, le_rfl, serve_of_cached hpos (cached_of_reach hw h hend hall)⟩
    · have hmore : n ≠ 1 := by
        intro hone
        rw [hone] at hall
        exact hall hreach
      obtain ⟨m, hm, hle, hserve⟩ := ih (n / 2) (by omega) (by omega) (by omega)
      refine ⟨m, hm, by omega, ?_⟩
      rw [serve, if_neg (by omega), cached_of_not_reach hw hend hall]
      exact hserve

theorem serve_of_not_reach (hw : file.length < 2 ^ w) {pos : ℕ}
    (hreach : ¬ Reach s pos (pos + 1)) (n : ℕ) (hend : pos + n ≤ file.length) :
    s.serve w pos n = .absent := by
  induction n using Nat.strongRecOn with
  | _ n ih =>
    rw [serve]
    split_ifs with hzero
    · rfl
    · have hnone : ¬ Reach s pos (pos + n) := fun hall => hreach (hall.mono (by omega))
      rw [cached_of_not_reach hw hend hnone]
      exact ih (n / 2) (by omega) (by omega)

theorem read_of_reach (hw : file.length < 2 ^ w) (h : Holds file s) {pos buf : ℕ}
    (hreach : pos < file.length → 0 < buf → Reach s pos (pos + 1)) :
    ∃ m, Cut file pos buf m ∧ s.read w pos buf = (s, .bytes (byteRange file pos m)) := by
  unfold RangeStore.read
  rw [h.len]
  split_ifs with hnone
  · refine ⟨0, ⟨Nat.zero_le _, fun _ => ?_⟩, by rw [byteRange, List.take_zero]⟩
    cases hnone with
    | inl hend => omega
    | inr hbuf => omega
  · obtain ⟨m, hm, hle, hserve⟩ := serve_of_reach hw h (hreach (by omega) (by omega))
      (min (file.length - pos) buf) (by omega) (by omega)
    refine ⟨m, ⟨hle, by omega⟩, ?_⟩
    dsimp only
    rw [hserve]

theorem read_of_not_reach (hw : file.length < 2 ^ w) (h : Holds file s) {pos buf : ℕ}
    (hpos : pos < file.length) (hbuf : 0 < buf) (hreach : ¬ Reach s pos (pos + 1)) :
    s.read w pos buf = (s.missed w pos (min (file.length - pos) buf), .miss) := by
  unfold RangeStore.read
  rw [h.len, if_neg (by omega)]
  dsimp only
  rw [serve_of_not_reach hw hreach _ (by omega)]

/-- What a miss asks for: at least what was read, and nothing past the end of the file. -/
theorem missed_miss (hw : file.length < 2 ^ w) (h : Holds file s) {start length : ℕ}
    (hend : start + length ≤ file.length) :
    ∃ asked, (s.missed w start length).miss = some (start, asked) ∧ length ≤ asked
      ∧ start + asked ≤ file.length := by
  have hrest : (s.len - start) % 2 ^ w = file.length - start := by
    rw [h.len]
    exact Nat.mod_eq_of_lt (by omega)
  refine ⟨_, rfl, le_max_right _ _, ?_⟩
  rw [hrest]
  omega

end

/-! ### One run, one round -/

section

variable {σ ε β : Type*} {D : Decode σ ε β} {w : ℕ} {file : Bytes} {r : Except ε β}

theorem attempt_done {n : ℕ} {s : RangeStore} {d : σ} (hask : D.ask d = .done r) :
    attempt D w (n + 1) s d = (s, .result r) := by
  unfold attempt
  rw [hask]

theorem attempt_getBytes {n : ℕ} {s s' : RangeStore} {d : σ} {start length : ℕ} {b : Bytes}
    (hask : D.ask d = .getBytes start length) (h : s.getBytes w start length = (s', .bytes b)) :
    attempt D w (n + 1) s d = attempt D w n s' (D.feed d b) := by
  rw [attempt, hask]
  dsimp only
  rw [h]

theorem attempt_getBytes_miss {n : ℕ} {s s' : RangeStore} {d : σ} {start length : ℕ}
    (hask : D.ask d = .getBytes start length) (h : s.getBytes w start length = (s', .miss)) :
    attempt D w (n + 1) s d = (s', .missed) := by
  rw [attempt, hask]
  dsimp only
  rw [h]

theorem attempt_read {n : ℕ} {s s' : RangeStore} {d : σ} {pos buf : ℕ} {b : Bytes}
    (hask : D.ask d = .read pos buf) (h : s.read w pos buf = (s', .bytes b)) :
    attempt D w (n + 1) s d = attempt D w n s' (D.feed d b) := by
  rw [attempt, hask]
  dsimp only
  rw [h]

theorem attempt_read_miss {n : ℕ} {s s' : RangeStore} {d : σ} {pos buf : ℕ}
    (hask : D.ask d = .read pos buf) (h : s.read w pos buf = (s', .miss)) :
    attempt D w (n + 1) s d = (s', .missed) := by
  rw [attempt, hask]
  dsimp only
  rw [h]

/-- **One run of the decode.**  It ends with the decode's result, or at a range that is not there. -/
theorem attempt_spec (hw : file.length < 2 ^ w) {s : RangeStore} (h : Holds file s) {n steps : ℕ}
    (hsteps : n ≤ steps) {d : σ} (hD : Steady D file r n d) :
    attempt D w steps s d = (s, .result r)
      ∨ ∃ start length, 0 < length ∧ start + length ≤ file.length
        ∧ ¬ Reach s start (start + length)
        ∧ attempt D w steps s d = (s.missed w start length, .missed) := by
  induction n generalizing steps d with
  | zero => exact absurd hD id
  | succ n ih =>
    obtain ⟨steps, rfl⟩ := Nat.exists_eq_add_one.mpr (show 0 < steps by omega)
    unfold Steady at hD
    cases hask : D.ask d with
    | done r' =>
      rw [hask] at hD
      left
      rw [attempt_done hask, show r' = r from hD]
    | getBytes start length =>
      rw [hask] at hD
      obtain ⟨hend, hnext⟩ := hD
      by_cases hreach : length = 0 ∨ Reach s start (start + length)
      · have hgot : s.getBytes w start length = (s, .bytes (byteRange file start length)) := by
          cases hreach with
          | inl hzero => rw [hzero]; exact getBytes_zero file start
          | inr hreach => exact getBytes_of_reach hw h hend hreach
        rw [attempt_getBytes hask hgot]
        exact ih (by omega) hnext
      · have hpos : 0 < length := Nat.pos_of_ne_zero fun hzero => hreach (.inl hzero)
        have hnot : ¬ Reach s start (start + length) := fun hr => hreach (.inr hr)
        exact .inr ⟨start, length, hpos, hend, hnot,
          attempt_getBytes_miss hask (getBytes_of_not_reach hw hpos hend hnot)⟩
    | read pos buf =>
      rw [hask] at hD
      by_cases hreach : pos < file.length → 0 < buf → Reach s pos (pos + 1)
      · obtain ⟨m, hcut, hgot⟩ := read_of_reach hw h hreach
        rw [attempt_read hask hgot]
        exact ih (by omega) (hD m hcut)
      · simp only [Classical.not_imp] at hreach
        obtain ⟨hpos, hbuf, hnot⟩ := hreach
        exact .inr ⟨pos, min (file.length - pos) buf, by omega, by omega,
          fun hall => hnot (hall.mono (by omega)),
          attempt_read_miss hask (read_of_not_reach hw h hpos hbuf hnot)⟩

/-- What the driver has gained by a round that missed a range. -/
structure Progress (w : ℕ) (file : Bytes) (s s' : RangeStore) (miss : ℕ × ℕ) : Prop where
  /-- A range that was readable still is. -/
  getBytes : ∀ start length, start + length ≤ file.length → ∀ b,
    (s.getBytes w start length).2 = .bytes b → (s'.getBytes w start length).2 = .bytes b
  /-- A cursor that got something still does. -/
  read : ∀ pos buf b, (s.read w pos buf).2 = .bytes b → ∃ b', (s'.read w pos buf).2 = .bytes b'
  /-- What was asked for is readable now, all of it in the file. -/
  asked : miss.1 + miss.2 ≤ file.length
    ∧ (s'.getBytes w miss.1 miss.2).2 = .bytes (byteRange file miss.1 miss.2)
  /-- And it was not. -/
  missed : ∃ length ≤ miss.2, (s.getBytes w miss.1 length).2 = .miss

theorem getBytes_bytes_iff (hw : file.length < 2 ^ w) {s : RangeStore} (h : Holds file s)
    {start length : ℕ} (hend : start + length ≤ file.length) {b : Bytes} :
    (s.getBytes w start length).2 = .bytes b
      ↔ b = byteRange file start length ∧ (length = 0 ∨ Reach s start (start + length)) := by
  by_cases hzero : length = 0
  · rw [hzero, getBytes_zero file start]
    simp [eq_comm]
  · by_cases hreach : Reach s start (start + length)
    · rw [getBytes_of_reach hw h hend hreach]
      simp [hreach, eq_comm]
    · rw [getBytes_of_not_reach hw (by omega) hend hreach]
      simp [hreach, hzero]

theorem read_bytes_iff (hw : file.length < 2 ^ w) {s : RangeStore} (h : Holds file s)
    {pos buf : ℕ} :
    (∃ b, (s.read w pos buf).2 = .bytes b)
      ↔ (pos < file.length → 0 < buf → Reach s pos (pos + 1)) := by
  constructor
  · intro ⟨b, hb⟩ hpos hbuf
    by_contra hnot
    rw [read_of_not_reach hw h hpos hbuf hnot] at hb
    cases hb
  · intro hreach
    obtain ⟨m, -, hgot⟩ := read_of_reach hw h hreach
    exact ⟨_, by rw [hgot]⟩

/-- **A fetch gains.**  Every range that was readable still is, and the one that was missed is. -/
theorem insert_progress (hw : file.length < 2 ^ w) {s : RangeStore} (h : Holds file s)
    {start length asked : ℕ} (hpos : 0 < length) (hle : length ≤ asked)
    (hend : start + asked ≤ file.length) (hmissed : ¬ Reach s start (start + length)) :
    Holds file (s.insert start (byteRange file start asked))
      ∧ Progress w file s (s.insert start (byteRange file start asked)) (start, asked) := by
  have hlength := byteRange_length hend
  have hstays : ∀ p stop, Reach s p stop → Reach (s.insert start (byteRange file start asked)) p stop :=
    fun p stop hreach => reach_insert (by rw [hlength]; exact hle) hmissed hreach
  have hholds := h.insert hend
  refine ⟨hholds, fun p n hp b hb => ?_, fun p n b hb => ?_, ⟨hend, ?_⟩, length, hle, ?_⟩
  · obtain ⟨hbytes, hreach⟩ := (getBytes_bytes_iff hw h hp).mp hb
    exact (getBytes_bytes_iff hw hholds hp).mpr ⟨hbytes, hreach.imp id (hstays p _)⟩
  · have hreach := (read_bytes_iff hw h).mp ⟨b, hb⟩
    exact (read_bytes_iff hw hholds).mpr fun hp hn => hstays p _ (hreach hp hn)
  · refine (getBytes_bytes_iff hw hholds hend).mpr ⟨rfl, .inr ⟨_, nearest_insert_self start _, ?_⟩⟩
    show start + asked ≤ start + (byteRange file start asked).length
    rw [hlength]
  · rw [getBytes_of_not_reach hw hpos (by omega) hmissed]

theorem round_missed (file : Bytes) {s s' : RangeStore} {steps start asked : ℕ} {d : σ}
    (hattempt : attempt D w steps s d = (s', .missed)) (hmiss : s'.miss = some (start, asked)) :
    round D w file steps d s
      = .again ({ s' with miss := none }.insert start (byteRange file start asked)) := by
  unfold round
  rw [hattempt]
  dsimp only
  rw [hmiss]

theorem round_result {s : RangeStore} {steps : ℕ} {d : σ} (hmiss : s.miss = none)
    (hattempt : attempt D w steps s d = (s, .result r)) :
    round D w file steps d s = .done (.result r) := by
  unfold round
  rw [hattempt]
  cases r with
  | ok v => rfl
  | error e =>
    dsimp only
    rw [hmiss]

/-- **One round.**  It ends with the decode's result, or fetches what it missed. -/
theorem round_spec (hw : file.length < 2 ^ w) {s : RangeStore} (h : Holds file s) {n steps : ℕ}
    (hsteps : n ≤ steps) {d : σ} (hD : Steady D file r n d) :
    round D w file steps d s = .done (.result r)
      ∨ ∃ s' miss, round D w file steps d s = .again s' ∧ (attempt D w steps s d).1.miss = some miss
        ∧ Holds file s' ∧ Progress w file s s' miss := by
  cases attempt_spec hw h hsteps hD with
  | inl hresult => exact .inl (round_result h.miss hresult)
  | inr hmissed =>
    obtain ⟨start, length, hpos, hend, hnot, hattempt⟩ := hmissed
    obtain ⟨asked, hmiss, hle, hasked⟩ := missed_miss hw h hend
    have hclear : { s.missed w start length with miss := none } = s := by
      show { s with miss := none } = s
      rw [← h.miss]
    have hround := round_missed file hattempt hmiss
    rw [hclear] at hround
    exact .inr ⟨_, (start, asked), hround, by rw [hattempt]; exact hmiss,
      insert_progress hw h hpos hle hasked hnot⟩

/-! ### The whole loop -/

/-- How many of the file's ranges cannot be read. -/
def unread (w : ℕ) (file : Bytes) (s : RangeStore) : ℕ :=
  ((Finset.range (file.length + 1) ×ˢ Finset.range (file.length + 1)).filter fun x =>
    x.1 + x.2 ≤ file.length ∧ (s.getBytes w x.1 x.2).2 = .miss).card

theorem getBytes_ne_miss (hw : file.length < 2 ^ w) {s : RangeStore} (h : Holds file s)
    {start length : ℕ} (hend : start + length ≤ file.length)
    (hhit : (s.getBytes w start length).2 ≠ .miss) :
    (s.getBytes w start length).2 = .bytes (byteRange file start length) := by
  by_contra hnot
  have hout : ¬ (length = 0 ∨ Reach s start (start + length)) := fun hreach =>
    hnot ((getBytes_bytes_iff hw h hend).mpr ⟨rfl, hreach⟩)
  rw [not_or] at hout
  exact hhit (by rw [getBytes_of_not_reach hw (by omega) hend hout.2])

theorem mem_unread {s : RangeStore} {x : ℕ × ℕ} :
    (x ∈ (Finset.range (file.length + 1) ×ˢ Finset.range (file.length + 1)).filter fun x =>
        x.1 + x.2 ≤ file.length ∧ (s.getBytes w x.1 x.2).2 = .miss)
      ↔ x.1 + x.2 ≤ file.length ∧ (s.getBytes w x.1 x.2).2 = .miss := by
  rw [Finset.mem_filter, Finset.mem_product, Finset.mem_range, Finset.mem_range]
  constructor
  · intro h
    exact h.2
  · intro h
    exact ⟨by omega, h⟩

/-- Progress leaves fewer ranges that cannot be read. -/
theorem Progress.unread_lt (hw : file.length < 2 ^ w) {s s' : RangeStore} {miss : ℕ × ℕ}
    (h : Holds file s) (h' : Holds file s') (hp : Progress w file s s' miss) :
    unread w file s' < unread w file s := by
  obtain ⟨length, hle, hmissed⟩ := hp.missed
  obtain ⟨hend, hasked⟩ := hp.asked
  apply Finset.card_lt_card
  refine (Finset.ssubset_iff_of_subset fun x hx => ?_).mpr ⟨(miss.1, length), ?_, fun hx => ?_⟩
  · obtain ⟨hxend, hxmiss⟩ := mem_unread.mp hx
    refine mem_unread.mpr ⟨hxend, ?_⟩
    by_contra hhit
    have hstays := hp.getBytes x.1 x.2 hxend _ (getBytes_ne_miss hw h hxend hhit)
    rw [hxmiss] at hstays
    cases hstays
  · exact mem_unread.mpr ⟨show miss.1 + length ≤ file.length by omega, hmissed⟩
  · obtain ⟨hxend, hxmiss⟩ := mem_unread.mp hx
    have hreach := ((getBytes_bytes_iff hw h' hend).mp hasked).2
    have hshort : length = 0 ∨ Reach s' miss.1 (miss.1 + length) := by
      cases hreach with
      | inl hzero => left; omega
      | inr hreach => exact .inr (hreach.mono (by omega))
    have hgot := (getBytes_bytes_iff hw h' hxend).mpr ⟨rfl, hshort⟩
    rw [hxmiss] at hgot
    cases hgot

theorem opened_holds (file : Bytes) (fetchBlock : ℕ) {start : ℕ} (hstart : start ≤ file.length) :
    Holds file (opened file fetchBlock start) := by
  have hsuffix : file.drop start = byteRange file start (file.length - start) := by
    rw [byteRange, List.take_of_length_le (by rw [List.length_drop])]
  have hempty : Holds file (withFetchBlock file.length fetchBlock) :=
    ⟨rfl, rfl, fun x hx => absurd hx List.not_mem_nil⟩
  unfold opened
  rw [hsuffix]
  exact hempty.insert (by omega)

/-- A store of the whole file misses nothing. -/
theorem attempt_whole (hw : file.length < 2 ^ w) (fetchBlock : ℕ) {n steps : ℕ} (hsteps : n ≤ steps)
    {d : σ} (hD : Steady D file r n d) :
    (attempt D w steps (opened file fetchBlock 0) d).2 = .result r := by
  cases attempt_spec hw (opened_holds file fetchBlock (Nat.zero_le _)) hsteps hD with
  | inl hresult => rw [hresult]
  | inr hmissed =>
    obtain ⟨start, length, -, hend, hnot, -⟩ := hmissed
    have hnearest : (opened file fetchBlock 0).nearest start = some (0, file) := by
      refine nearest_eq_some.mpr ⟨List.mem_singleton.mpr rfl, Nat.zero_le _, fun y hy _ => ?_⟩
      rw [show y = (0, file) from List.mem_singleton.mp hy]
    exact absurd ⟨_, hnearest, by show _ ≤ 0 + file.length; omega⟩ hnot

/-- **The driver converges.**  From any suffix of the file, whatever misses are rounded up to: each round
that does not end the loop makes progress, and the loop ends, as the decode does on the whole file. -/
theorem driver_converges (hw : file.length < 2 ^ w) (fetchBlock : ℕ) {start n steps : ℕ}
    (hstart : start ≤ file.length) (hsteps : n ≤ steps) {d : σ} (hD : Steady D file r n d) :
    (attempt D w steps (opened file fetchBlock 0) d).2 = .result r
      ∧ (∀ s s', Retry.Visits (round D w file steps d) (opened file fetchBlock start) s →
          round D w file steps d s = .again s' →
          ∃ miss, (attempt D w steps s d).1.miss = some miss ∧ Progress w file s s' miss)
      ∧ ∃ rounds, ∀ m, rounds ≤ m →
          Retry.loop (round D w file steps d) m (opened file fetchBlock start) = some (.result r) := by
  have hstep : ∀ s s', Holds file s → round D w file steps d s = .again s' → ∃ miss,
      (attempt D w steps s d).1.miss = some miss ∧ Holds file s' ∧ Progress w file s s' miss := by
    intro s s' h hround
    cases round_spec hw h hsteps hD with
    | inl hdone =>
      rw [hdone] at hround
      cases hround
    | inr hagain =>
      obtain ⟨s'', miss, hround', hmiss, hholds, hprogress⟩ := hagain
      rw [hround'] at hround
      cases hround
      exact ⟨miss, hmiss, hholds, hprogress⟩
  have hvisited : ∀ s, Retry.Visits (round D w file steps d) (opened file fetchBlock start) s →
      Holds file s := by
    intro s hs
    refine hs.invariant (opened_holds file fetchBlock hstart) fun t u ht hround => ?_
    obtain ⟨-, -, hu, -⟩ := hstep t u ht hround
    exact hu
  refine ⟨attempt_whole hw fetchBlock hsteps hD, fun s s' hs hround => ?_, ?_⟩
  · obtain ⟨miss, hmiss, -, hprogress⟩ := hstep s s' (hvisited s hs) hround
    exact ⟨miss, hmiss, hprogress⟩
  · obtain ⟨t, ended, ht, hdone, hloop⟩ := Retry.loop_ends (unread w file) fun s s' hs hround => by
      obtain ⟨miss, -, hholds, hprogress⟩ := hstep s s' (hvisited s hs) hround
      exact hprogress.unread_lt hw (hvisited s hs) hholds
    have hended : ended = .result r := by
      cases round_spec hw (hvisited t ht) hsteps hD with
      | inl hresult =>
        rw [hresult] at hdone
        cases hdone
        rfl
      | inr hagain =>
        obtain ⟨s', -, hround, -⟩ := hagain
        rw [hround] at hdone
        cases hdone
    rw [hended] at hloop
    exact ⟨_, fun m hm => hloop m (Nat.lt_of_succ_le hm)⟩

end

/-! ### Cursors read whole, and cursors cut short -/

/-- Reads the first bytes of the file, as `read_exact` does: until the buffer is full. -/
def readExact (len : ℕ) : Decode Bytes Empty Bytes where
  ask got := if len ≤ got.length then .done (.ok got) else .read got.length (len - got.length)
  feed got b := got ++ b

theorem readExact_steady (file : Bytes) {len : ℕ} (hlen : len ≤ file.length) {n : ℕ} (k : ℕ) (hk : k ≤ len)
    (hn : len - k < n) :
    Steady (readExact len) file (.ok (byteRange file 0 len)) n (byteRange file 0 k) := by
  induction n generalizing k with
  | zero => omega
  | succ n ih =>
    have hgot : (byteRange file 0 k).length = k := byteRange_length (by omega)
    have hask : (readExact len).ask (byteRange file 0 k)
        = if len ≤ k then .done (.ok (byteRange file 0 k)) else .read k (len - k) := by
      show (if len ≤ (byteRange file 0 k).length then _ else _) = _
      rw [hgot]
    unfold Steady
    rw [hask]
    split_ifs with hfull
    · show Except.ok (byteRange file 0 k) = .ok (byteRange file 0 len)
      rw [show k = len by omega]
    · intro m hm
      obtain ⟨hle, hsome⟩ := hm
      have hnext : byteRange file 0 k ++ byteRange file k m = byteRange file 0 (k + m) := by
        rw [byteRange, byteRange, byteRange, List.drop_zero, List.take_add]
      show Steady (readExact len) file _ n (byteRange file 0 k ++ byteRange file k m)
      rw [hnext]
      exact ih (k + m) (by omega) (by omega)

/-- Four bytes from a suffix of one, fetched by twos. -/
theorem driver_converges_exact :
    (attempt (readExact 4) 64 5 (opened [1, 2, 3, 4] 2 0) []).2 = .result (.ok [1, 2, 3, 4])
      ∧ (∀ s s', Retry.Visits (round (readExact 4) 64 [1, 2, 3, 4] 5 []) (opened [1, 2, 3, 4] 2 3) s →
          round (readExact 4) 64 [1, 2, 3, 4] 5 [] s = .again s' →
          ∃ miss, (attempt (readExact 4) 64 5 s []).1.miss = some miss
            ∧ Progress 64 [1, 2, 3, 4] s s' miss)
      ∧ ∃ rounds, ∀ m, rounds ≤ m →
          Retry.loop (round (readExact 4) 64 [1, 2, 3, 4] 5 []) m (opened [1, 2, 3, 4] 2 3)
            = some (.result (.ok [1, 2, 3, 4])) :=
  driver_converges (by decide) 2 (by decide) le_rfl
    (readExact_steady [1, 2, 3, 4] le_rfl 0 (Nat.zero_le 4) (by decide))

/-- Reads two bytes, then whatever a cursor gives of four, and says how many it gave. -/
def countRead : Decode ℕ Empty ℕ where
  ask
    | 0 => .getBytes 0 2
    | 1 => .read 0 4
    | n + 2 => .done (.ok n)
  feed
    | 0, _ => 1
    | _, b => b.length + 2

/-- The store after the first two bytes were missed. -/
def twoFetched : RangeStore := (opened [1, 2, 3, 4] 1 3).insert 0 [1, 2]

theorem read_whole : (opened [1, 2, 3, 4] 1 0).read 64 0 4
    = (opened [1, 2, 3, 4] 1 0, .bytes [1, 2, 3, 4]) := by
  have hcached : (opened [1, 2, 3, 4] 1 0).cached 64 0 4 = .held [1, 2, 3, 4] := by decide
  have hserve := serve_of_cached (by decide) hcached
  unfold RangeStore.read
  rw [if_neg (by decide)]
  dsimp only
  rw [show min ((opened [1, 2, 3, 4] 1 0).len - 0) 4 = 4 from rfl, hserve]

theorem read_twoFetched : twoFetched.read 64 0 4 = (twoFetched, .bytes [1, 2]) := by
  have hfour : twoFetched.cached 64 0 4 = .absent := by decide
  have htwo : twoFetched.cached 64 0 2 = .held [1, 2] := by decide
  have hserve : twoFetched.serve 64 0 4 = .held [1, 2] := by
    rw [serve, if_neg (by decide), hfour]
    exact serve_of_cached (by decide) htwo
  unfold RangeStore.read
  rw [if_neg (by decide)]
  dsimp only
  rw [show min (twoFetched.len - 0) 4 = 4 from rfl, hserve]

/-- Reads the first byte, then the one at `2^w`, and gives the latter. -/
def farRead (w : ℕ) : Decode (List Bytes) Empty Bytes where
  ask
    | [] => .getBytes 0 1
    | [_] => .getBytes (2 ^ w) 1
    | b :: _ => .done (.ok b)
  feed got b := b :: got

theorem farRead_steady {w : ℕ} {file : Bytes} (hlong : 2 ^ w + 1 < file.length) :
    Steady (farRead w) file (.ok (byteRange file (2 ^ w) 1)) 3 [] :=
  ⟨show 0 + 1 ≤ file.length by have := Nat.two_pow_pos w; omega, hlong.le, rfl⟩

theorem zeros_one (n : ℕ) (hn : 0 < n) :
    n + 1 < (List.replicate n (0 : UInt8) ++ [1, 0]).length
      ∧ byteRange (List.replicate n 0 ++ [1, 0]) 0 1 = [0]
      ∧ byteRange (List.replicate n 0 ++ [1, 0]) n 1 = [1] := by
  obtain ⟨m, rfl⟩ := Nat.exists_eq_add_one.mpr hn
  refine ⟨by simp, ?_, ?_⟩
  · rw [List.replicate_succ]
    rfl
  · rw [byteRange, List.drop_append_of_le_length (by simp)]
    simp

/-- The store of `farRead` after the first byte was missed. -/
def farFetched (w : ℕ) (file : Bytes) : RangeStore :=
  (opened file 1 (2 ^ w + 1)).insert 0 (byteRange file 0 1)

section

variable {w : ℕ} {file : Bytes}

theorem farRead_round :
    round (farRead w) w file 3 [] (opened file 1 (2 ^ w + 1)) = .again (farFetched w file) := by
  have hnone : (opened file 1 (2 ^ w + 1)).nearest 0 = none := by
    show (List.filter _ [(2 ^ w + 1, file.drop (2 ^ w + 1))]).getLast? = none
    simp
  have hget : (opened file 1 (2 ^ w + 1)).getBytes w 0 1
      = ((opened file 1 (2 ^ w + 1)).missed w 0 1, .miss) := by
    unfold getBytes cached
    rw [hnone, if_neg (by omega)]
  have hasked : ∀ rest, max (min (max 1 1) rest) 1 = 1 := by omega
  have hmiss : ((opened file 1 (2 ^ w + 1)).missed w 0 1).miss = some (0, 1) := by
    show some (0, max (min (max 1 1) _) 1) = _
    rw [hasked]
  exact round_missed file (attempt_getBytes_miss rfl hget) hmiss

/-- A distance of `2^w` is none: the read at `2^w` is served from the range at the start. -/
theorem farFetched_getBytes (hw : 0 < w) (hlong : 2 ^ w + 1 < file.length) {pos : ℕ}
    (hmod : pos % 2 ^ w = 0) (hle : pos ≤ 2 ^ w) :
    (farFetched w file).getBytes w pos 1 = (farFetched w file, .bytes (byteRange file 0 1)) := by
  have hwide : 1 < 2 ^ w := Nat.one_lt_two_pow (by omega)
  have hone : (byteRange file 0 1).length = 1 := byteRange_length (by omega)
  have hmem : ∀ y, y ∈ (farFetched w file).ranges ↔ _ := fun y =>
    mem_insertRange (opened file 1 (2 ^ w + 1)).sorted
  have hnearest : (farFetched w file).nearest pos = some (0, byteRange file 0 1) := by
    refine nearest_eq_some.mpr ⟨(hmem _).mpr (.inl rfl), Nat.zero_le _, fun y hy hypos => ?_⟩
    cases (hmem y).mp hy with
    | inl heq => rw [heq]
    | inr hold =>
      have hsuffix : y = (2 ^ w + 1, file.drop (2 ^ w + 1)) := List.mem_singleton.mp hold.1
      rw [hsuffix] at hypos
      dsimp only at hypos
      omega
  have hcached : (farFetched w file).cached w pos 1 = .held (byteRange (byteRange file 0 1) 0 1) := by
    rw [cached_of_nearest hnearest (by rw [hone]; exact hwide) (by rw [hone, Nat.sub_zero, hmod]),
      Nat.sub_zero, hmod]
  unfold getBytes
  rw [if_neg (by omega), hcached, byteRange_byteRange file 0 1 0 1 (by omega)]

theorem farRead_wraps (hw : 0 < w) (hlong : 2 ^ w + 1 < file.length) (rounds : ℕ) :
    Retry.loop (round (farRead w) w file 3 []) (rounds + 2) (opened file 1 (2 ^ w + 1))
      = some (.result (.ok (byteRange file 0 1))) := by
  have hattempt : attempt (farRead w) w 3 (farFetched w file) []
      = (farFetched w file, .result (.ok (byteRange file 0 1))) := by
    rw [attempt_getBytes rfl (farFetched_getBytes hw hlong (Nat.zero_mod _) (Nat.zero_le _)),
      attempt_getBytes rfl (farFetched_getBytes hw hlong (Nat.mod_self _) le_rfl)]
    exact attempt_done rfl
  rw [Retry.loop, farRead_round]
  dsimp only
  rw [Retry.loop, round_result rfl hattempt]

end

/-- A decode that takes a cursor's short read for all there is ends otherwise than on the whole file; so
does one that reads further from a range than `usize` can tell, as in a browser past 4 GiB. -/
theorem short_read_shows :
    (attempt countRead 64 3 (opened [1, 2, 3, 4] 1 0) 0).2 = .result (.ok 4)
      ∧ (∀ rounds, Retry.loop (round countRead 64 [1, 2, 3, 4] 3 0) (rounds + 2)
          (opened [1, 2, 3, 4] 1 3) = some (.result (.ok 2)))
      ∧ ∃ file : Bytes, Steady (farRead 32) file (.ok [1]) 3 []
        ∧ ∀ rounds, Retry.loop (round (farRead 32) 32 file 3 []) (rounds + 2)
            (opened file 1 (2 ^ 32 + 1)) = some (.result (.ok [0])) := by
  refine ⟨?_, fun rounds => ?_, List.replicate (2 ^ 32) 0 ++ [1, 0], ?_⟩
  · have hfirst : (opened [1, 2, 3, 4] 1 0).getBytes 64 0 2 = (opened [1, 2, 3, 4] 1 0, .bytes [1, 2]) :=
      rfl
    rw [attempt_getBytes rfl hfirst, attempt_read rfl read_whole, attempt_done rfl]
  · have hmissed : round countRead 64 [1, 2, 3, 4] 3 0 (opened [1, 2, 3, 4] 1 3) = .again twoFetched := rfl
    have hfirst : twoFetched.getBytes 64 0 2 = (twoFetched, .bytes [1, 2]) := rfl
    have hattempt : attempt countRead 64 3 twoFetched 0 = (twoFetched, .result (.ok 2)) := by
      rw [attempt_getBytes rfl hfirst, attempt_read rfl read_twoFetched]
      exact attempt_done rfl
    rw [Retry.loop, hmissed]
    dsimp only
    rw [Retry.loop, round_result rfl hattempt]
  · obtain ⟨hlong, hfirst, hfar⟩ := zeros_one (2 ^ 32) (by decide)
    generalize List.replicate (2 ^ 32) (0 : UInt8) ++ [1, 0] = file at hlong hfirst hfar
    constructor
    · rw [← hfar]
      exact farRead_steady hlong
    · intro rounds
      rw [← hfirst]
      exact farRead_wraps (by decide) hlong rounds

end Hashdex.Driver
