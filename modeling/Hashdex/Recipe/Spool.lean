import Mathlib
import Hashdex.Hex

/-!
# Spools and their range reads

A rebuilt container that slices address lives in memory or in a file, and each variant checks a
range in its own way.  Sums of offsets are 64-bit and wrap.

* `readLoop_eq`: the file loop feeds the range, or stops with an error at the end of the file
* `read_range_sound_iff`: a range request is handled as it should be exactly when its sum does not
  wrap, or when it starts beyond the end of a spool in memory
-/

namespace Hashdex

/-- How a check fails. -/
inductive Fault where
  | error (message : String)
  | unknownNode
  | panic
  deriving DecidableEq

inductive Spool where
  | mem (v : Bytes)
  | file (f : Bytes)
  deriving DecidableEq

namespace Spool

def content : Spool → Bytes
  | mem v => v
  | file f => f

/-- `len`. -/
def len (s : Spool) : ℕ := s.content.length

end Spool

def sliceOutOfRange : Fault := .error "slice out of range of built bytes"

/-- The read loop of the file variant, in chunks of a mebibyte. -/
def readLoop (f : Bytes) (pos stop : ℕ) : Except Fault Bytes :=
  if h : pos < stop then
    let want := min (stop - pos) (2 ^ 20)
    let got := (f.drop pos).take want
    if hgot : got.length = 0 then .error sliceOutOfRange
    else
      match readLoop f (pos + got.length) stop with
      | .error e => .error e
      | .ok rest => .ok (got ++ rest)
  else .ok []
termination_by stop - pos
decreasing_by
  have hpos : 0 < got.length := Nat.pos_of_ne_zero hgot
  show stop - (pos + got.length) < stop - pos
  omega

/-- `read_range`: the bytes fed, or the fault. -/
def Spool.readRange : Spool → UInt64 → UInt64 → Except Fault Bytes
  | .mem v, start, len =>
    let lo := min start.toNat v.length
    let hi := min (start + len).toNat v.length
    -- `hi - lo` wraps too, and the slice index is checked only afterwards.
    if (hi + 2 ^ 64 - lo) % 2 ^ 64 = len.toNat then
      if lo ≤ hi then .ok ((v.drop lo).take (hi - lo)) else .error .panic
    else .error sliceOutOfRange
  | .file f, start, len => readLoop f start.toNat (start + len).toNat

/-- What the file loop does, read off in one step. -/
theorem readLoop_eq (f : Bytes) (pos stop : ℕ) :
    readLoop f pos stop =
      if stop ≤ pos then .ok []
      else if stop ≤ f.length then .ok ((f.drop pos).take (stop - pos))
      else .error sliceOutOfRange := by
  induction hn : stop - pos using Nat.strong_induction_on generalizing pos with
  | _ n ih =>
    subst hn
    rw [readLoop]
    by_cases hlt : pos < stop
    · rw [dif_pos hlt, if_neg (not_le.mpr hlt)]
      have hlen : ((f.drop pos).take (min (stop - pos) (2 ^ 20))).length
          = min (min (stop - pos) (2 ^ 20)) (f.length - pos) := by
        rw [List.length_take, List.length_drop]
      dsimp only
      by_cases hend : f.length ≤ pos
      · have hzero : ((f.drop pos).take (min (stop - pos) (2 ^ 20))).length = 0 := by
          rw [hlen]
          omega
        rw [dif_pos hzero, if_neg (by omega)]
      · set got := (f.drop pos).take (min (stop - pos) (2 ^ 20)) with hgot
        have hpos : got.length ≠ 0 := by
          rw [hlen]
          omega
        rw [dif_neg hpos, ih (stop - (pos + got.length)) (by omega) _ rfl]
        by_cases hfit : stop ≤ f.length
        · rw [if_pos hfit]
          by_cases hdone : stop ≤ pos + got.length
          · have hexact : stop - pos = got.length := by omega
            have hgot' : (f.drop pos).take (stop - pos) = got := by
              rw [hgot]
              congr 1
              omega
            rw [if_pos hdone, if_pos hfit, hgot']
            show Except.ok (got ++ []) = Except.ok got
            rw [List.append_nil]
          · have hgotlen : got.length = min (stop - pos) (2 ^ 20) := by omega
            rw [if_neg hdone, if_pos hfit]
            have hsplit : stop - pos = got.length + (stop - (pos + got.length)) := by omega
            have hgot' : got = (f.drop pos).take got.length := by
              rw [hgotlen]
            conv_rhs => rw [hsplit, List.take_add, List.drop_drop, ← hgot']
        · rw [if_neg hfit, if_neg (by omega), if_neg hfit]
    · rw [dif_neg hlt, if_pos (not_lt.mp hlt)]

/-! ### When a range request is handled as it should be -/

/-- Every offset of the range lies inside the spool. -/
def Spool.Inside (s : Spool) (start len : UInt64) : Prop :=
  ∀ i < len.toNat, start.toNat + i < s.content.length

/-- A range inside is fed in full; one that is not gives an error, and nothing panics. -/
def Spool.RangeSound (s : Spool) (start len : UInt64) : Prop :=
  (s.Inside start len → s.readRange start len = .ok ((s.content.drop start.toNat).take len.toNat)) ∧
    (¬ s.Inside start len → ∃ message, s.readRange start len = .error (.error message))

/-- The end of the range is a 64-bit number; a spool in memory also refuses, correctly, a range that
wraps from beyond its end. -/
def Spool.RangeFits (s : Spool) (start len : UInt64) : Prop :=
  match s with
  | .mem v => start.toNat + len.toNat < 2 ^ 64 ∨ v.length < start.toNat
  | .file _ => start.toNat + len.toNat < 2 ^ 64

theorem Spool.inside_iff {s : Spool} {start len : UInt64} (h : 0 < len.toNat) :
    s.Inside start len ↔ start.toNat + len.toNat ≤ s.content.length := by
  constructor
  · intro hin
    have := hin (len.toNat - 1) (by omega)
    omega
  · intro hle i hi
    omega

theorem Spool.inside_zero {s : Spool} {start len : UInt64} (h : len.toNat = 0) :
    s.Inside start len := by
  intro i hi
  omega

theorem toNat_add_fits {a b : UInt64} (h : a.toNat + b.toNat < 2 ^ 64) :
    (a + b).toNat = a.toNat + b.toNat := by
  rw [UInt64.toNat_add, Nat.mod_eq_of_lt h]

theorem toNat_add_wraps {a b : UInt64} (h : ¬ a.toNat + b.toNat < 2 ^ 64) :
    (a + b).toNat = a.toNat + b.toNat - 2 ^ 64 := by
  have ha := a.toNat_lt
  have hb := b.toNat_lt
  rw [UInt64.toNat_add]
  omega

theorem readRange_mem (v : Bytes) (start len : UInt64) : (Spool.mem v).readRange start len =
    if (min (start + len).toNat v.length + 2 ^ 64 - min start.toNat v.length) % 2 ^ 64 = len.toNat
    then if min start.toNat v.length ≤ min (start + len).toNat v.length
      then .ok ((v.drop (min start.toNat v.length)).take
        (min (start + len).toNat v.length - min start.toNat v.length))
      else .error .panic
    else .error sliceOutOfRange := rfl

/-- A sum that does not wrap is checked correctly in memory. -/
theorem readRange_mem_fits {v : Bytes} {start len : UInt64}
    (h : start.toNat + len.toNat < 2 ^ 64) : (Spool.mem v).RangeSound start len := by
  have hsum := toNat_add_fits h
  rcases Nat.eq_zero_or_pos len.toNat with h0 | h0
  · refine ⟨fun _ => ?_, fun hout => absurd (Spool.inside_zero h0) hout⟩
    rw [readRange_mem, hsum, h0, Nat.add_zero, if_pos (by omega), if_pos le_rfl, Nat.sub_self,
      List.take_zero, List.take_zero]
  · have hin : (Spool.mem v).Inside start len ↔ start.toNat + len.toNat ≤ v.length :=
      Spool.inside_iff h0
    refine ⟨fun hinside => ?_, fun hout => ?_⟩
    · have hle := hin.mp hinside
      have hlo : min start.toNat v.length = start.toNat := by omega
      have hhi : min (start.toNat + len.toNat) v.length = start.toNat + len.toNat := by omega
      rw [readRange_mem, hsum, hlo, hhi, if_pos (by omega), if_pos (by omega),
        Nat.add_sub_cancel_left]
      rfl
    · have hgt := mt hin.mpr hout
      have herr : (Spool.mem v).readRange start len = .error sliceOutOfRange := by
        rw [readRange_mem, hsum, if_neg (by omega)]
      exact ⟨_, herr⟩

/-- A sum that wraps from beyond the end of the memory is refused. -/
theorem readRange_mem_beyond {v : Bytes} {start len : UInt64}
    (hw : ¬ start.toNat + len.toNat < 2 ^ 64) (h : v.length < start.toNat) :
    (Spool.mem v).RangeSound start len := by
  have hsum := toNat_add_wraps hw
  have hs := start.toNat_lt
  have hl := len.toNat_lt
  have hin : (Spool.mem v).Inside start len ↔ start.toNat + len.toNat ≤ v.length :=
    Spool.inside_iff (by omega)
  have herr : (Spool.mem v).readRange start len = .error sliceOutOfRange := by
    rw [readRange_mem, hsum, if_neg (by omega)]
  refine ⟨fun hinside => ?_, fun _ => ⟨_, herr⟩⟩
  have hle := hin.mp hinside
  omega

/-- A sum that wraps from inside the memory reaches the slice with its ends crossed. -/
theorem readRange_mem_panics {v : Bytes} {start len : UInt64}
    (hw : ¬ start.toNat + len.toNat < 2 ^ 64) (h : ¬ v.length < start.toNat) :
    (Spool.mem v).readRange start len = .error .panic := by
  have hsum := toNat_add_wraps hw
  have hs := start.toNat_lt
  have hl := len.toNat_lt
  rw [readRange_mem, hsum, if_pos (by omega), if_neg (by omega)]

/-- In a file a sum that does not wrap is checked correctly. -/
theorem readRange_file_fits {f : Bytes} {start len : UInt64}
    (h : start.toNat + len.toNat < 2 ^ 64) : (Spool.file f).RangeSound start len := by
  have hread : (Spool.file f).readRange start len
      = readLoop f start.toNat (start.toNat + len.toNat) := by
    rw [Spool.readRange, toNat_add_fits h]
  rw [readLoop_eq] at hread
  rcases Nat.eq_zero_or_pos len.toNat with h0 | h0
  · refine ⟨fun _ => ?_, fun hout => absurd (Spool.inside_zero h0) hout⟩
    rw [hread, h0, if_pos (by omega), List.take_zero]
  · have hin : (Spool.file f).Inside start len ↔ start.toNat + len.toNat ≤ f.length :=
      Spool.inside_iff h0
    rw [if_neg (by omega)] at hread
    refine ⟨fun hinside => ?_, fun hout => ?_⟩
    · rw [hread, if_pos (hin.mp hinside), Nat.add_sub_cancel_left]
      rfl
    · rw [if_neg (mt hin.mpr hout)] at hread
      exact ⟨_, hread⟩

/-- In a file a sum that wraps ends the loop before it starts. -/
theorem readRange_file_empty {f : Bytes} {start len : UInt64}
    (hw : ¬ start.toNat + len.toNat < 2 ^ 64) :
    (Spool.file f).readRange start len = .ok [] := by
  have hl := len.toNat_lt
  rw [Spool.readRange, readLoop_eq, toNat_add_wraps hw, if_pos (by omega)]

/-- **When a range request is handled as it should be.** -/
theorem readRange_sound_iff (s : Spool) (start len : UInt64) :
    s.RangeSound start len ↔ s.RangeFits start len := by
  cases s with
  | mem v =>
    show (Spool.mem v).RangeSound start len ↔
      (start.toNat + len.toNat < 2 ^ 64 ∨ v.length < start.toNat)
    by_cases hw : start.toNat + len.toNat < 2 ^ 64
    · exact iff_of_true (readRange_mem_fits hw) (Or.inl hw)
    · by_cases hb : v.length < start.toNat
      · exact iff_of_true (readRange_mem_beyond hw hb) (Or.inr hb)
      · refine iff_of_false (fun hsound => ?_) (by tauto)
        have hpanic := readRange_mem_panics hw hb
        by_cases hin : (Spool.mem v).Inside start len
        · cases hpanic.symm.trans (hsound.1 hin)
        · obtain ⟨message, hm⟩ := hsound.2 hin
          cases hpanic.symm.trans hm
  | file f =>
    show (Spool.file f).RangeSound start len ↔ start.toNat + len.toNat < 2 ^ 64
    by_cases hw : start.toNat + len.toNat < 2 ^ 64
    · exact iff_of_true (readRange_file_fits hw) hw
    · refine iff_of_false (fun hsound => ?_) hw
      have hempty := readRange_file_empty (f := f) hw
      have hs := start.toNat_lt
      have hl := len.toNat_lt
      have hin : (Spool.file f).Inside start len ↔ start.toNat + len.toNat ≤ f.length :=
        Spool.inside_iff (by omega)
      by_cases hinside : (Spool.file f).Inside start len
      · have hfull := congrArg (fun r => r.map List.length) (hempty.symm.trans (hsound.1 hinside))
        have hle := hin.mp hinside
        simp only [Except.map, List.length_nil, List.length_take, List.length_drop, Spool.content,
          Except.ok.injEq] at hfull
        omega
      · obtain ⟨message, hm⟩ := hsound.2 hinside
        cases hempty.symm.trans hm

/-- A range read that answers fed as many bytes as were asked for. -/
theorem length_of_readRange {s : Spool} {start len : UInt64} (h : s.RangeFits start len)
    {bytes : Bytes} (hr : s.readRange start len = .ok bytes) : bytes.length = len.toNat := by
  have hsound := (readRange_sound_iff s start len).mpr h
  by_cases hin : s.Inside start len
  · rw [hsound.1 hin] at hr
    rw [← Except.ok.inj hr, List.length_take, List.length_drop]
    rcases Nat.eq_zero_or_pos len.toNat with h0 | h0
    · omega
    · have := (Spool.inside_iff h0).mp hin
      omega
  · obtain ⟨message, hm⟩ := hsound.2 hin
    rw [hm] at hr
    cases hr

end Hashdex
