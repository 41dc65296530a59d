import Hashdex.View
import Hashdex.Recipe.Plan

/-!
# What views promise, on the machine's integers

`View` is a window that is as it should be.  `RawView` is what `new` makes of any extents: starts, length
and positions are `u64`s, and sums wrap.

* `cut`: the parts of a range under each extent, which `slice` and the planner's `map_range` both find
* `cut_cut`: a range of a slice
* `view_laws_iff`: when reading, slicing, slicing a slice and `map_range` do what they should
-/

namespace Hashdex

open Tiling

/-! ### A range through extents -/

/-- The part of a range that an extent holds. -/
def cutOne (start stop : ℕ) (e : Extent) : Option (ℕ × ℕ) :=
  let lo := max start e.log
  let hi := min stop (e.log + e.len)
  if lo < hi then some (e.off + (lo - e.log), hi - lo) else none

def cut (extents : List Extent) (start stop : ℕ) : List (ℕ × ℕ) :=
  extents.filterMap (cutOne start stop)

theorem cutOne_none {start stop : ℕ} {e : Extent}
    (h : min stop (e.log + e.len) ≤ max start e.log) : cutOne start stop e = none :=
  if_neg (by omega)

theorem cutOne_some {start stop : ℕ} {e : Extent}
    (h : max start e.log < min stop (e.log + e.len)) :
    cutOne start stop e =
      some (e.off + (max start e.log - e.log), min stop (e.log + e.len) - max start e.log) :=
  if_pos h

theorem cut_empty {extents : List Extent} {start stop : ℕ} (h : stop ≤ start) :
    cut extents start stop = [] := by
  rw [cut, List.filterMap_eq_nil_iff]
  intro e _
  exact cutOne_none (by omega)

/-- Nothing of a range lies past its end. -/
theorem cut_past {lo hi : ℕ} {extents : List Extent}
    (ht : Tiles Extent.log Extent.len lo hi extents) {start stop : ℕ} (h : stop ≤ lo) :
    cut extents start stop = [] := by
  rw [cut, List.filterMap_eq_nil_iff]
  intro e he
  have := (Tiles.bounds ht he).1
  exact cutOne_none (by omega)

/-- Where a range begins matters from the first extent on only. -/
theorem cut_start {lo hi : ℕ} {extents : List Extent}
    (ht : Tiles Extent.log Extent.len lo hi extents) {start start' stop : ℕ}
    (h : max start lo = max start' lo) : cut extents start stop = cut extents start' stop := by
  apply List.filterMap_congr
  intro e he
  have := (Tiles.bounds ht he).1
  have hmax : max start e.log = max start' e.log := by omega
  simp only [cutOne, hmax]

theorem cut_cons (e : Extent) (rest : List Extent) (start stop : ℕ) :
    cut (e :: rest) start stop = (cutOne start stop e).toList ++ cut rest start stop := by
  rw [cut, List.filterMap_cons]
  cases cutOne start stop e <;> rfl

theorem cut_append (xs ys : List Extent) (start stop : ℕ) :
    cut (xs ++ ys) start stop = cut xs start stop ++ cut ys start stop := List.filterMap_append

theorem cut_inSource {size : ℕ} {extents : List Extent} {start stop : ℕ}
    (h : ∀ e ∈ extents, e.off + e.len ≤ size) : ∀ r ∈ cut extents start stop, r.1 + r.2 ≤ size := by
  intro r hr
  obtain ⟨e, he, hone⟩ := List.mem_filterMap.mp hr
  have hsize := h e he
  by_cases hin : max start e.log < min stop (e.log + e.len)
  · rw [cutOne_some hin] at hone
    rw [← Option.some.inj hone]
    dsimp only
    omega
  · rw [cutOne_none (by omega)] at hone
    cases hone

/-- The loop of `slice` finds them. -/
theorem sliceRange_eq_cut {lo hi : ℕ} {extents : List Extent}
    (ht : Tiles Extent.log Extent.len lo hi extents) (hne : ∀ e ∈ extents, 0 < e.len)
    (start stop : ℕ) : View.sliceRange extents start stop = cut extents start stop := by
  induction extents generalizing lo start with
  | nil => rfl
  | cons e rest ih =>
    obtain ⟨hfirst, hrest⟩ := ht
    have he := hne e List.mem_cons_self
    have ih := fun start => ih hrest (fun x hx => hne x (List.mem_cons_of_mem e hx)) start
    rw [View.sliceRange, cut_cons]
    split_ifs with hstop hout
    · rw [cutOne_none (by omega), cut_empty hstop]
      rfl
    · rw [cutOne_none (by omega), ih]
      rfl
    · rw [cutOne_some (by omega)]
      show _ :: View.sliceRange rest (min stop (e.log + e.len)) stop = _ :: cut rest start stop
      rw [ih]
      congr 1
      by_cases hend : stop ≤ e.log + e.len
      · rw [cut_past hrest (by omega), cut_past hrest (by omega)]
      · exact cut_start hrest (by omega)

/-- So does the planner. -/
theorem mapRange_eq_cut (extents : List Extent) (start len : ℕ) :
    mapRange (extents.map fun e => ⟨e.log, e.off, e.len⟩) start len =
      cut extents start (start + len) := by
  rw [mapRange, List.filterMap_map]
  rfl

theorem total_append (xs ys : List (ℕ × ℕ)) :
    View.total (xs ++ ys) = View.total xs + View.total ys := by
  simp [View.total]

theorem mapped_append (logical : ℕ) (xs ys : List (ℕ × ℕ)) :
    View.mapped logical (xs ++ ys) =
      View.mapped logical xs ++ View.mapped (logical + View.total xs) ys := by
  induction xs generalizing logical with
  | nil => rfl
  | cons r xs ih =>
    obtain ⟨off, len⟩ := r
    have htotal : View.total ((off, len) :: xs) = len + View.total xs := by simp [View.total]
    rw [List.cons_append, View.mapped, View.mapped, htotal]
    split_ifs with hlen
    · rw [ih, ← Nat.add_assoc]
      rfl
    · have hzero : len = 0 := by omega
      rw [ih, hzero, Nat.zero_add]

theorem total_cut {lo hi : ℕ} {extents : List Extent}
    (ht : Tiles Extent.log Extent.len lo hi extents) {start stop : ℕ} (hlo : lo ≤ start)
    (hhi : stop ≤ hi) : View.total (cut extents start stop) = stop - start := by
  induction extents generalizing lo start with
  | nil =>
    have heq : lo = hi := ht
    rw [cut_empty (by omega)]
    show 0 = _
    omega
  | cons e rest ih =>
    obtain ⟨hfirst, hrest⟩ := ht
    rw [cut_cons, total_append]
    by_cases hin : max start e.log < min stop (e.log + e.len)
    · rw [cutOne_some hin]
      have hone : View.total (some (e.off + (max start e.log - e.log),
          min stop (e.log + e.len) - max start e.log)).toList =
            min stop (e.log + e.len) - max start e.log := by simp [View.total]
      rw [hone]
      by_cases hend : stop ≤ e.log + e.len
      · rw [cut_past hrest (by omega)]
        show _ + 0 = _
        omega
      · rw [cut_start hrest (show max start (lo + e.len) = max (lo + e.len) (lo + e.len) by omega),
          ih hrest (le_refl _)]
        omega
    · rw [cutOne_none (by omega)]
      show 0 + _ = _
      by_cases hempty : stop ≤ start
      · rw [cut_empty hempty]
        show 0 + 0 = _
        omega
      · rw [ih hrest (by omega)]
        omega

theorem total_flatMap_cut {hi : ℕ} {extents : List Extent}
    (ht : Tiles Extent.log Extent.len 0 hi extents) {ranges : List (ℕ × ℕ)}
    (hin : ∀ r ∈ ranges, r.1 + r.2 ≤ hi) :
    View.total (ranges.flatMap fun r => cut extents r.1 (r.1 + r.2)) = View.total ranges := by
  induction ranges with
  | nil => rfl
  | cons r ranges ih =>
    have hr := total_cut ht (Nat.zero_le r.1) (hin r List.mem_cons_self)
    have hcons : View.total (r :: ranges) = r.2 + View.total ranges := by simp [View.total]
    rw [List.flatMap_cons, total_append, hr, ih fun x hx => hin x (List.mem_cons_of_mem r hx), hcons]
    omega

/-- A range of what a range holds. -/
theorem cut_mapped_cut {lo hi : ℕ} {extents : List Extent}
    (ht : Tiles Extent.log Extent.len lo hi extents) {start stop : ℕ} (hlo : lo ≤ start)
    (base from' to' : ℕ) :
    cut (View.mapped base (cut extents start stop)) from' to' =
      cut extents (start + (from' - base)) (min stop (start + (to' - base))) := by
  induction extents generalizing lo start base with
  | nil => rfl
  | cons e rest ih =>
    obtain ⟨hfirst, hrest⟩ := ht
    by_cases hin : max start e.log < min stop (e.log + e.len)
    · rw [cut_cons, cutOne_some hin]
      set n := min stop (e.log + e.len) - max start e.log with hn
      have hmapped : View.mapped base ((some (e.off + (max start e.log - e.log), n)).toList ++
            cut rest start stop) =
          ⟨base, e.off + (max start e.log - e.log), n⟩ ::
            View.mapped (base + n) (cut rest start stop) := by
        show View.mapped base ((_, n) :: _) = _
        rw [View.mapped, if_pos (by omega)]
        rfl
      rw [hmapped, cut_cons, cut_cons]
      congr 1
      · by_cases hboth : max from' base < min to' (base + n)
        · rw [cutOne_some hboth, cutOne_some (by omega)]
          simp only [Option.toList_some, List.cons.injEq, Prod.mk.injEq, and_true]
          omega
        · rw [cutOne_none (by dsimp only; omega), cutOne_none (by omega)]
      · by_cases hend : stop ≤ e.log + e.len
        · rw [cut_past hrest (by omega), cut_past hrest (by omega)]
          rfl
        · rw [cut_start hrest (show max start (lo + e.len) = max (lo + e.len) (lo + e.len) by omega),
            ih hrest (le_refl _)]
          have hn' : lo + e.len = start + n := by omega
          have hto : min stop (lo + e.len + (to' - (base + n))) = min stop (start + (to' - base)) ∨
              to' ≤ base + n := by omega
          cases hto with
          | inl hto =>
            rw [hto]
            exact cut_start hrest (by omega)
          | inr hto => rw [cut_past hrest (by omega), cut_past hrest (by omega)]
    · rw [cut_cons, cutOne_none (by omega), cut_cons]
      have hnone : cutOne (start + (from' - base)) (min stop (start + (to' - base))) e = none :=
        cutOne_none (by omega)
      rw [hnone]
      show cut (View.mapped base (cut rest start stop)) from' to' = cut rest _ _
      by_cases hempty : stop ≤ start
      · have hrange : min stop (start + (to' - base)) ≤ start + (from' - base) := by omega
        rw [cut_empty hempty, cut_empty hrange]
        rfl
      · exact ih hrest (by omega) base

/-- **A range of a slice** is what the slice's own ranges make of it. -/
theorem cut_cut {hi : ℕ} {extents : List Extent} (ht : Tiles Extent.log Extent.len 0 hi extents)
    {ranges : List (ℕ × ℕ)} (hin : ∀ r ∈ ranges, r.1 + r.2 ≤ hi) (base from' to' : ℕ) :
    cut (View.mapped base (ranges.flatMap fun r => cut extents r.1 (r.1 + r.2))) from' to' =
      (cut (View.mapped base ranges) from' to').flatMap fun r => cut extents r.1 (r.1 + r.2) := by
  induction ranges generalizing base with
  | nil => rfl
  | cons r ranges ih =>
    have hr := hin r List.mem_cons_self
    rw [List.flatMap_cons, mapped_append, cut_append, total_cut ht (Nat.zero_le _) hr,
      Nat.add_sub_cancel_left, ih fun x hx => hin x (List.mem_cons_of_mem r hx),
      cut_mapped_cut ht (Nat.zero_le _)]
    obtain ⟨off, len⟩ := r
    rw [View.mapped]
    split_ifs with hlen
    · rw [cut_cons, List.flatMap_append]
      congr 1
      by_cases hone : max from' base < min to' (base + len)
      · rw [cutOne_some hone]
        show _ = (([_] : List (ℕ × ℕ)).flatMap _)
        rw [List.flatMap_singleton]
        congr 1
        · dsimp only
          omega
        · dsimp only
          omega
      · rw [cutOne_none (by dsimp only; omega), cut_empty (by dsimp only; omega)]
        rfl
    · rw [cut_empty (by dsimp only; omega)]
      have hzero : len = 0 := by omega
      rw [hzero]
      rfl

/-! ### The code's views -/

/-- A source; how many bytes it has is a `u64`. -/
structure Source where
  bytes : Bytes
  small : bytes.length < 2 ^ 64

/-- A sum of `u64`s in a release build. -/
def w64 (n : ℕ) : ℕ := n % 2 ^ 64

def saturatingAdd (a b : ℕ) : ℕ := min (a + b) (2 ^ 64 - 1)

theorem w64_of_lt {n : ℕ} (h : n < 2 ^ 64) : w64 n = n := Nat.mod_eq_of_lt h

structure RawView where
  src : Source
  extents : List Extent
  len : ℕ

namespace RawView

/-- The loop of `new`: the extents, and where it ends. -/
def mapped64 : ℕ → List (ℕ × ℕ) → List Extent × ℕ
  | logical, [] => ([], logical)
  | logical, (off, len) :: runs =>
    if 0 < len then
      let r := mapped64 (w64 (logical + len)) runs
      (⟨logical, off, len⟩ :: r.1, r.2)
    else mapped64 logical runs

def new (src : Source) (runs : List (ℕ × ℕ)) : RawView :=
  ⟨src, (mapped64 0 runs).1, (mapped64 0 runs).2⟩

/-- The loop of `slice` over the extents, for one range. -/
def sliceRange64 : List Extent → ℕ → ℕ → List (ℕ × ℕ)
  | [], _, _ => []
  | e :: rest, start, stop =>
    if stop ≤ start then []
    else if w64 (e.log + e.len) ≤ start ∨ stop ≤ e.log then sliceRange64 rest start stop
    else
      let lo := max start e.log
      let hi := min stop (w64 (e.log + e.len))
      (w64 (e.off + (lo - e.log)), hi - lo) :: sliceRange64 rest hi stop

/-- The ranges of the source that a slice is made of. -/
def sliceRuns (v : RawView) (ranges : List (ℕ × ℕ)) : List (ℕ × ℕ) :=
  ranges.flatMap fun r =>
    sliceRange64 v.extents (min r.1 v.len) (min (saturatingAdd r.1 r.2) v.len)

def slice (v : RawView) (ranges : List (ℕ × ℕ)) : RawView := new v.src (v.sliceRuns ranges)

/-- Where starts that wrapped do not ascend the search may find another extent; then the position is in
none, or the differences wrap. -/
def readAtLogical (v : RawView) (n pos : ℕ) : Bytes :=
  if v.len ≤ pos ∨ n = 0 then []
  else
    match v.extents[(v.extents.findIdx fun e => decide (pos < e.log)) - 1]? with
    | none => []
    | some e =>
      let within := pos - e.log
      (v.src.bytes.drop (w64 (e.off + within))).take (min (w64 (e.len + 2 ^ 64 - within)) n)

/-- The loop of `read_full_at`. -/
def readLoop (v : RawView) : ℕ → ℕ → ℕ → Bytes
  | 0, _, _ => []
  | fuel + 1, n, pos =>
    match v.readAtLogical n pos with
    | [] => []
    | got => got ++ readLoop v fuel (n - got.length) (w64 (pos + got.length))

def readFullAt (v : RawView) (n off : ℕ) : Bytes := v.readLoop n n off

/-- The extents as the planner keeps them. -/
def runs (v : RawView) : List Run := v.extents.map fun e => ⟨e.log, e.off, e.len⟩

/-- The ranges of a view, each within it. -/
def clamped (v : RawView) (ranges : List (ℕ × ℕ)) : List (ℕ × ℕ) :=
  ranges.map fun r => (min r.1 v.len, min (saturatingAdd r.1 r.2) v.len - min r.1 v.len)

/-- Ranges of a slice as ranges of the view that was sliced. -/
def composed (v : RawView) (ranges ranges' : List (ℕ × ℕ)) : List (ℕ × ℕ) :=
  (new v.src (v.clamped ranges)).sliceRuns ranges'

end RawView

/-! ### Where nothing wraps -/

/-- The code's view is the window that it should be. -/
structure RawView.Of (r : RawView) (v : View) : Prop where
  src : r.src.bytes = v.src
  extents : r.extents = v.extents
  len : r.len = v.len
  small : v.len < 2 ^ 64

theorem mapped64_eq {logical : ℕ} {runs : List (ℕ × ℕ)}
    (h : logical + View.total runs < 2 ^ 64) :
    RawView.mapped64 logical runs = (View.mapped logical runs, logical + View.total runs) := by
  induction runs generalizing logical with
  | nil => rfl
  | cons r runs ih =>
    obtain ⟨off, len⟩ := r
    have htotal : View.total ((off, len) :: runs) = len + View.total runs := by simp [View.total]
    rw [htotal] at h ⊢
    rw [RawView.mapped64, View.mapped]
    split_ifs with hlen
    · rw [w64_of_lt (by omega), ih (by omega), Nat.add_assoc]
    · have hzero : len = 0 := by omega
      rw [ih (by omega), hzero, Nat.zero_add]

/-- The length is what it is but for the wrapping. -/
theorem mapped64_len (logical : ℕ) (runs : List (ℕ × ℕ)) (h : logical < 2 ^ 64) :
    (RawView.mapped64 logical runs).2 = w64 (logical + View.total runs) := by
  induction runs generalizing logical with
  | nil => exact (w64_of_lt h).symm
  | cons r runs ih =>
    obtain ⟨off, len⟩ := r
    have htotal : View.total ((off, len) :: runs) = len + View.total runs := by simp [View.total]
    rw [htotal, RawView.mapped64]
    split_ifs with hlen
    · have hwrapped : w64 (logical + len) < 2 ^ 64 := Nat.mod_lt _ (by decide)
      show (RawView.mapped64 (w64 (logical + len)) runs).2 = _
      rw [ih _ hwrapped, w64, w64, w64, Nat.mod_add_mod, Nat.add_assoc]
    · have hzero : len = 0 := by omega
      rw [ih logical h, hzero, Nat.zero_add]

theorem RawView.new_of (src : Source) {runs : List (ℕ × ℕ)}
    (hin : ∀ r ∈ runs, r.1 + r.2 ≤ src.bytes.length) (h : View.total runs < 2 ^ 64) :
    (RawView.new src runs).Of (View.new src.bytes runs hin) := by
  have hmapped := mapped64_eq (show 0 + View.total runs < 2 ^ 64 by omega)
  constructor
  · rfl
  · show (RawView.mapped64 0 runs).1 = _
    rw [hmapped]
    rfl
  · show (RawView.mapped64 0 runs).2 = _
    rw [hmapped, Nat.zero_add]
    rfl
  · exact h

section

variable {r : RawView} {v : View}

theorem RawView.Of.readAt_eq (h : r.Of v) (n pos : ℕ) :
    r.readAtLogical n pos = v.readAtLogical n pos := by
  rw [RawView.readAtLogical, View.readAtLogical, h.len, h.extents]
  by_cases hstop : v.len ≤ pos ∨ n = 0
  · rw [if_pos hstop, if_pos hstop]
  · rw [if_neg hstop, if_neg hstop]
    obtain ⟨e, hget, he, hlo, hhi⟩ := View.last_before v.tiles (Nat.zero_le pos) (by omega)
    have hsrc := v.inSource e he
    have hend := (Tiles.bounds v.tiles he).2
    have hsmall := h.small
    have hbytes := r.src.small
    rw [h.src] at hbytes
    rw [hget, h.src]
    show (v.src.drop (w64 (e.off + (pos - e.log)))).take _ = _
    have havail : w64 (e.len + 2 ^ 64 - (pos - e.log)) = e.len - (pos - e.log) := by
      have hsum : e.len + 2 ^ 64 - (pos - e.log) = e.len - (pos - e.log) + 2 ^ 64 := by omega
      rw [hsum, w64, Nat.add_mod_right, Nat.mod_eq_of_lt (by omega)]
    rw [havail, w64_of_lt (by omega)]

theorem RawView.Of.readFullAt_eq (h : r.Of v) (n : ℕ) {off : ℕ} (hoff : off < 2 ^ 64) :
    r.readFullAt n off = (v.content.drop off).take n := by
  rw [← View.readFullAt_eq, RawView.readFullAt, View.readFullAt]
  have hloop : ∀ fuel n pos, pos < 2 ^ 64 → r.readLoop fuel n pos = v.readLoop fuel n pos := by
    intro fuel
    induction fuel with
    | zero => exact fun _ _ _ => rfl
    | succ fuel ih =>
      intro n pos hpos
      rw [RawView.readLoop, View.readLoop, h.readAt_eq]
      obtain ⟨k, hk, hle, hend⟩ := v.readAtLogical_eq n pos
      cases hgot : v.readAtLogical n pos with
      | nil => rfl
      | cons b bs =>
        have hlen : pos + (b :: bs).length < 2 ^ 64 := by
          have hcontent := congrArg List.length (hgot.symm.trans hk)
          rw [List.length_take, List.length_drop, View.length_content, List.length_cons] at hcontent
          have hsmall := h.small
          rw [List.length_cons]
          omega
        dsimp only
        rw [w64_of_lt hlen, ih _ _ hlen]
  exact hloop n n off hoff

theorem RawView.Of.sliceRange_eq (h : r.Of v) {start stop : ℕ} :
    RawView.sliceRange64 r.extents start stop = View.sliceRange v.extents start stop := by
  have hbytes := r.src.small
  rw [h.src] at hbytes
  rw [h.extents]
  have hloop : ∀ extents : List Extent, (∀ e ∈ extents, e ∈ v.extents) → ∀ start,
      RawView.sliceRange64 extents start stop = View.sliceRange extents start stop := by
    intro extents
    induction extents with
    | nil => exact fun _ _ => rfl
    | cons e rest ih =>
      intro hsub start
      have he := hsub e List.mem_cons_self
      have hsrc := v.inSource e he
      have hend := (Tiles.bounds v.tiles he).2
      have hsmall := h.small
      have hrest := ih fun x hx => hsub x (List.mem_cons_of_mem e hx)
      rw [RawView.sliceRange64, View.sliceRange, w64_of_lt (show e.log + e.len < 2 ^ 64 by omega)]
      split_ifs with hstop hout
      · rfl
      · exact hrest start
      · have hoff : w64 (e.off + (max start e.log - e.log)) = e.off + (max start e.log - e.log) :=
          w64_of_lt (by omega)
        dsimp only
        rw [hoff, hrest]
  exact hloop v.extents (fun _ he => he) start

theorem RawView.Of.sliceRuns_eq (h : r.Of v) (ranges : List (ℕ × ℕ)) :
    r.sliceRuns ranges =
      ranges.flatMap fun x => cut v.extents (min x.1 v.len) (min (x.1 + x.2) v.len) := by
  rw [RawView.sliceRuns, h.len]
  congr 1
  funext x
  have hsmall := h.small
  have hstop : min (saturatingAdd x.1 x.2) v.len = min (x.1 + x.2) v.len := by
    rw [saturatingAdd]
    omega
  rw [h.sliceRange_eq, sliceRange_eq_cut v.tiles v.nonempty, hstop]

theorem RawView.Of.sliceRuns_eq' (h : r.Of v) (ranges : List (ℕ × ℕ)) :
    r.sliceRuns ranges = ranges.flatMap fun x =>
      View.sliceRange v.extents (min x.1 v.len) (min (x.1 + x.2) v.len) := by
  rw [h.sliceRuns_eq]
  congr 1
  funext x
  rw [sliceRange_eq_cut v.tiles v.nonempty]

theorem RawView.Of.slice_of (h : r.Of v) {ranges : List (ℕ × ℕ)}
    (hsmall : (v.slice ranges).len < 2 ^ 64) : (r.slice ranges).Of (v.slice ranges) := by
  have hruns := h.sliceRuns_eq' ranges
  have hin : ∀ x ∈ r.sliceRuns ranges, x.1 + x.2 ≤ r.src.bytes.length := by
    intro x hx
    rw [hruns] at hx
    obtain ⟨range, -, hx⟩ := List.mem_flatMap.mp hx
    rw [h.src]
    exact View.sliceRange_inSource v.inSource x hx
  have htotal : View.total (r.sliceRuns ranges) < 2 ^ 64 := by
    rw [hruns]
    exact hsmall
  have hnew := RawView.new_of r.src hin htotal
  constructor
  · exact hnew.src.trans h.src
  · exact hnew.extents.trans (congrArg (View.mapped 0) hruns)
  · exact hnew.len.trans (congrArg View.total hruns)
  · exact hsmall

/-- **Slicing a slice** gives the source ranges of slicing once. -/
theorem RawView.Of.sliceRuns_slice (h : r.Of v) {ranges : List (ℕ × ℕ)}
    (hsmall : (v.slice ranges).len < 2 ^ 64) (ranges' : List (ℕ × ℕ)) :
    (r.slice ranges).sliceRuns ranges' = r.sliceRuns (r.composed ranges ranges') := by
  have hclamped : r.clamped ranges =
      ranges.map fun x => (min x.1 v.len, min (x.1 + x.2) v.len - min x.1 v.len) := by
    have hsmall := h.small
    rw [RawView.clamped, h.len]
    apply List.map_congr_left
    intro x _
    have hstop : min (saturatingAdd x.1 x.2) v.len = min (x.1 + x.2) v.len := by
      rw [saturatingAdd]
      omega
    rw [hstop]
  have hin : ∀ x ∈ r.clamped ranges, x.1 + x.2 ≤ v.len := by
    intro x hx
    rw [hclamped] at hx
    obtain ⟨y, -, rfl⟩ := List.mem_map.mp hx
    dsimp only
    omega
  have hruns : (ranges.flatMap fun x =>
        View.sliceRange v.extents (min x.1 v.len) (min (x.1 + x.2) v.len)) =
      (r.clamped ranges).flatMap fun x => cut v.extents x.1 (x.1 + x.2) := by
    rw [hclamped, List.flatMap_map]
    apply List.flatMap_congr
    intro x _
    rw [sliceRange_eq_cut v.tiles v.nonempty]
    by_cases hempty : min (x.1 + x.2) v.len ≤ min x.1 v.len
    · rw [cut_empty hempty, cut_empty (by dsimp only; omega)]
    · congr 1
      dsimp only
      omega
  have hextents : (v.slice ranges).extents =
      View.mapped 0 ((r.clamped ranges).flatMap fun x => cut v.extents x.1 (x.1 + x.2)) :=
    congrArg (View.mapped 0) hruns
  have htotal : View.total (r.clamped ranges) = (v.slice ranges).len := by
    rw [← total_flatMap_cut v.tiles hin, ← hruns]
    rfl
  have hlen : v.content.length < 2 ^ 64 := by
    rw [View.length_content]
    exact h.small
  have hin' : ∀ x ∈ r.clamped ranges, x.1 + x.2 ≤ v.content.length := by
    rw [View.length_content]
    exact hin
  have hof := RawView.new_of ⟨v.content, hlen⟩ hin' (by rwa [htotal])
  have hcomposed : r.composed ranges ranges' = ranges'.flatMap fun x =>
      cut (View.mapped 0 (r.clamped ranges)) (min x.1 (v.slice ranges).len)
        (min (x.1 + x.2) (v.slice ranges).len) := by
    rw [← htotal]
    exact hof.sliceRuns_eq ranges'
  rw [(h.slice_of hsmall).sliceRuns_eq, h.sliceRuns_eq, hcomposed, List.flatMap_assoc]
  apply List.flatMap_congr
  intro x _
  rw [hextents, cut_cut v.tiles hin]
  apply List.flatMap_congr
  intro y hy
  have hy' : y.1 + y.2 ≤ v.len := by
    apply cut_inSource _ y hy
    intro e he
    exact hin _ (View.mapped_spec he).2
  have hstart : min y.1 v.len = y.1 := by omega
  have hstop : min (y.1 + y.2) v.len = y.1 + y.2 := by omega
  rw [hstart, hstop]

end

/-! ### The laws -/

/-- Ranges of a source. -/
structure SourceRuns where
  src : Source
  runs : List (ℕ × ℕ)
  inSource : ∀ r ∈ runs, r.1 + r.2 ≤ src.bytes.length

namespace SourceRuns

def view (s : SourceRuns) : RawView := RawView.new s.src s.runs

/-- The bytes of the ranges, one after the other. -/
def content (s : SourceRuns) : Bytes := s.runs.flatMap fun r => (s.src.bytes.drop r.1).take r.2

theorem length_content (s : SourceRuns) : s.content.length = View.total s.runs := by
  have hlen := View.length_content (View.new s.src.bytes s.runs s.inSource)
  rwa [View.content_new] at hlen

theorem view_of (s : SourceRuns) (h : View.total s.runs < 2 ^ 64) :
    s.view.Of (View.new s.src.bytes s.runs s.inSource) := RawView.new_of s.src s.inSource h

/-- A view reads as it should exactly when its length is a `u64`. -/
theorem reads_iff (s : SourceRuns) :
    (∀ off < 2 ^ 64, ∀ n, s.view.readFullAt n off = (s.content.drop off).take n) ↔
      View.total s.runs < 2 ^ 64 := by
  constructor
  · intro h
    by_contra hlarge
    -- past the wrapped length nothing is read
    have hlen : s.view.len = View.total s.runs % 2 ^ 64 := by
      have hwrapped := mapped64_len 0 s.runs (by decide)
      rwa [Nat.zero_add] at hwrapped
    have hlt : View.total s.runs % 2 ^ 64 < 2 ^ 64 := Nat.mod_lt _ (by decide)
    have hread := congrArg List.length (h (View.total s.runs % 2 ^ 64) hlt 1)
    have hnone : s.view.readFullAt 1 (View.total s.runs % 2 ^ 64) = [] := by
      rw [RawView.readFullAt, RawView.readLoop, RawView.readAtLogical, if_pos (.inl hlen.le)]
    rw [hnone, List.length_nil, List.length_take, List.length_drop, s.length_content] at hread
    omega
  · intro h off hoff n
    rw [(s.view_of h).readFullAt_eq n hoff, View.content_new]
    rfl

end SourceRuns

/-- What a view is relied on for: it reads the bytes of its extents, a slice of it those of the ranges as
far as they lie in it, a slice of the slice is the slice that the ranges make together, and the planner
finds the source ranges that a slice has. -/
structure ViewLaws (s : SourceRuns) (ranges : List (ℕ × ℕ)) : Prop where
  read : ∀ off < 2 ^ 64, ∀ n, s.view.readFullAt n off = (s.content.drop off).take n
  slice : ∀ off < 2 ^ 64, ∀ n, (s.view.slice ranges).readFullAt n off =
    ((ranges.flatMap fun r => (s.content.drop r.1).take r.2).drop off).take n
  sliceLen : (s.view.slice ranges).len =
    (ranges.flatMap fun r => (s.content.drop r.1).take r.2).length
  sliceSlice : ∀ ranges', (s.view.slice ranges).slice ranges' =
    s.view.slice (s.view.composed ranges ranges')
  mapRange : ∀ start len, start + len < 2 ^ 64 → mapRange s.view.runs start len =
    (s.view.slice [(start, len)]).extents.map fun e => (e.off, e.len)

theorem mapped64_ranges (logical : ℕ) {runs : List (ℕ × ℕ)} (h : ∀ r ∈ runs, 0 < r.2) :
    (RawView.mapped64 logical runs).1.map (fun e => (e.off, e.len)) = runs := by
  induction runs generalizing logical with
  | nil => rfl
  | cons r runs ih =>
    have hr := h r List.mem_cons_self
    rw [RawView.mapped64, if_pos hr]
    show r :: (RawView.mapped64 _ runs).1.map _ = r :: runs
    rw [ih _ fun x hx => h x (List.mem_cons_of_mem r hx)]

theorem cut_pos {extents : List Extent} {start stop : ℕ} : ∀ r ∈ cut extents start stop, 0 < r.2 := by
  intro r hr
  obtain ⟨e, -, hone⟩ := List.mem_filterMap.mp hr
  by_cases hin : max start e.log < min stop (e.log + e.len)
  · rw [cutOne_some hin] at hone
    rw [← Option.some.inj hone]
    dsimp only
    omega
  · rw [cutOne_none (by omega)] at hone
    cases hone

/-- The planner and `slice` find the same ranges. -/
theorem RawView.Of.mapRange_eq {r : RawView} {v : View} (h : r.Of v) (start len : ℕ) :
    mapRange r.runs start len = (r.slice [(start, len)]).extents.map fun e => (e.off, e.len) := by
  have hcut : r.sliceRuns [(start, len)] = cut v.extents start (start + len) := by
    rw [h.sliceRuns_eq, List.flatMap_singleton]
    apply List.filterMap_congr
    intro e he
    -- the view's end bounds its extents
    have hend := (Tiles.bounds v.tiles he).2
    have hne := v.nonempty e he
    have hlo : max (min start v.len) e.log < min (min (start + len) v.len) (e.log + e.len) ↔
        max start e.log < min (start + len) (e.log + e.len) := by omega
    by_cases hin : max start e.log < min (start + len) (e.log + e.len)
    · rw [cutOne_some hin, cutOne_some (hlo.mpr hin)]
      simp only [Option.some.injEq, Prod.mk.injEq]
      omega
    · rw [cutOne_none (by omega), cutOne_none (by omega)]
  have hranges : (r.slice [(start, len)]).extents.map (fun e => (e.off, e.len)) =
      r.sliceRuns [(start, len)] := by
    apply mapped64_ranges
    rw [hcut]
    exact cut_pos
  rw [hranges, hcut, RawView.runs, h.extents]
  exact mapRange_eq_cut v.extents start len

section

variable {s : SourceRuns} {ranges : List (ℕ × ℕ)}

theorem length_windows (s : SourceRuns) (ranges : List (ℕ × ℕ)) :
    (ranges.flatMap fun r => (s.content.drop r.1).take r.2).length =
      (ranges.map fun r => min r.2 (View.total s.runs - r.1)).sum := by
  rw [List.length_flatMap]
  congr 1
  apply List.map_congr_left
  intro r _
  rw [List.length_take, List.length_drop, s.length_content]

theorem len_slice (s : SourceRuns) (ranges : List (ℕ × ℕ)) :
    ((View.new s.src.bytes s.runs s.inSource).slice ranges).len =
      (ranges.flatMap fun r => (s.content.drop r.1).take r.2).length := by
  rw [← View.length_content, View.content_slice, View.content_new]
  rfl

theorem ViewLaws.small (h : ViewLaws s ranges) :
    View.total s.runs < 2 ^ 64 ∧
      (ranges.map fun r => min r.2 (View.total s.runs - r.1)).sum < 2 ^ 64 := by
  have htotal := s.reads_iff.mp h.read
  have hof := s.view_of htotal
  refine ⟨htotal, ?_⟩
  rw [← length_windows, ← len_slice]
  -- the slice is a view of its own ranges, and reads as it should
  have hruns := hof.sliceRuns_eq' ranges
  have hin : ∀ x ∈ s.view.sliceRuns ranges, x.1 + x.2 ≤ s.src.bytes.length := by
    intro x hx
    rw [hruns] at hx
    obtain ⟨range, -, hx⟩ := List.mem_flatMap.mp hx
    exact View.sliceRange_inSource (View.new s.src.bytes s.runs s.inSource).inSource x hx
  have hcontent : (SourceRuns.content ⟨s.src, s.view.sliceRuns ranges, hin⟩) =
      ranges.flatMap fun r => (s.content.drop r.1).take r.2 := by
    have hwhole := View.content_slice (View.new s.src.bytes s.runs s.inSource) ranges
    rw [View.slice, View.content_new, View.content_new, ← hruns] at hwhole
    exact hwhole
  have hreads := (SourceRuns.reads_iff ⟨s.src, s.view.sliceRuns ranges, hin⟩).mp (by
    rw [hcontent]
    exact h.slice)
  have hsame : View.total (s.view.sliceRuns ranges) =
      ((View.new s.src.bytes s.runs s.inSource).slice ranges).len := congrArg View.total hruns
  rwa [← hsame]

theorem ViewLaws.of_small (htotal : View.total s.runs < 2 ^ 64)
    (hsmall : (ranges.map fun r => min r.2 (View.total s.runs - r.1)).sum < 2 ^ 64) :
    ViewLaws s ranges := by
  rw [← length_windows, ← len_slice] at hsmall
  have hof := s.view_of htotal
  have hofSlice := hof.slice_of hsmall
  constructor
  · exact s.reads_iff.mpr htotal
  · intro off hoff n
    rw [hofSlice.readFullAt_eq n hoff, View.content_slice, View.content_new]
    rfl
  · rw [hofSlice.len, len_slice]
  · intro ranges'
    show RawView.new _ ((s.view.slice ranges).sliceRuns ranges') = RawView.new _ _
    rw [hof.sliceRuns_slice hsmall]
    rfl
  · exact fun start len _ => hof.mapRange_eq start len

end

/-- **The laws of views** hold exactly when the bytes of the extents, and those of the slice, are so few
that a `u64` counts them. -/
theorem view_laws_iff (s : SourceRuns) (ranges : List (ℕ × ℕ)) :
    ViewLaws s ranges ↔ View.total s.runs < 2 ^ 64 ∧
      (ranges.map fun r => min r.2 (View.total s.runs - r.1)).sum < 2 ^ 64 := by
  constructor
  · exact fun h => h.small
  · rintro ⟨htotal, hsmall⟩
    exact .of_small htotal hsmall

/-! ### The largest file, three times over -/

/-- A file as long as a file can be. -/
def longestFile : SourceRuns where
  src := ⟨List.replicate (2 ^ 63 - 1) 0, by rw [List.length_replicate]; decide⟩
  runs := [(0, 2 ^ 63 - 1)]
  inSource r hr := by
    rw [List.mem_singleton.mp hr, List.length_replicate]
    decide

/-- The length of the slice wraps. -/
theorem longest_thrice :
    ¬ ∀ (s : SourceRuns) (ranges : List (ℕ × ℕ)),
      (∀ r ∈ ranges, r.1 < 2 ^ 64 ∧ r.2 < 2 ^ 64) → ViewLaws s ranges := by
  intro h
  have hlaws := h longestFile (List.replicate 3 (0, 2 ^ 64 - 1)) (by
    intro r hr
    rw [List.eq_of_mem_replicate hr]
    decide)
  have htotal : View.total longestFile.runs = 2 ^ 63 - 1 := rfl
  have hsum := hlaws.small.2
  rw [htotal] at hsum
  exact absurd hsum (by decide)

end Hashdex
