import Hashdex.Hex
import Hashdex.Lib.Tiling

/-!
# Views

A view is a window onto a source, as a list of extents; slicing a view gives a view of the same source.
An invalid one cannot be built: its extents tile the window, and lie in the source.

* `readFullAt_eq`: reading at an offset reads the content there
* `content_slice`: what a slice holds, clamped to the window as it is
* `length_slice_iff`: it is as long as what was asked for just when that lies in the window
-/

namespace Hashdex

open Tiling

/-- A stretch of a view: where it begins in the view and in the source, and its length. -/
structure Extent where
  log : ℕ
  off : ℕ
  len : ℕ
  deriving DecidableEq

structure View where
  src : Bytes
  extents : List Extent
  len : ℕ
  tiles : Tiles Extent.log Extent.len 0 len extents
  nonempty : ∀ e ∈ extents, 0 < e.len
  inSource : ∀ e ∈ extents, e.off + e.len ≤ src.length

namespace View

/-- The loop of `new`: empty runs are left out. -/
def mapped : ℕ → List (ℕ × ℕ) → List Extent
  | _, [] => []
  | logical, (off, len) :: runs =>
    if 0 < len then ⟨logical, off, len⟩ :: mapped (logical + len) runs else mapped logical runs

def total (runs : List (ℕ × ℕ)) : ℕ := (runs.map Prod.snd).sum

theorem mapped_tiles (logical : ℕ) (runs : List (ℕ × ℕ)) :
    Tiles Extent.log Extent.len logical (logical + total runs) (mapped logical runs) := by
  induction runs generalizing logical with
  | nil => rfl
  | cons r runs ih =>
    obtain ⟨off, len⟩ := r
    have htotal : logical + total ((off, len) :: runs) = logical + len + total runs := by
      rw [total, List.map_cons, List.sum_cons, total]
      omega
    rw [htotal, mapped]
    split_ifs with hlen
    · exact ⟨rfl, ih (logical + len)⟩
    · have hzero : len = 0 := by omega
      rw [hzero]
      exact ih logical

theorem mapped_spec {logical : ℕ} {runs : List (ℕ × ℕ)} {e : Extent} (h : e ∈ mapped logical runs) :
    0 < e.len ∧ (e.off, e.len) ∈ runs := by
  induction runs generalizing logical with
  | nil => cases h
  | cons r runs ih =>
    obtain ⟨off, len⟩ := r
    rw [mapped] at h
    split_ifs at h with hlen
    · cases List.mem_cons.mp h with
      | inl heq =>
        rw [heq]
        exact ⟨hlen, List.mem_cons_self⟩
      | inr hmem =>
        have hrest := ih hmem
        exact ⟨hrest.1, List.mem_cons_of_mem _ hrest.2⟩
    · have hrest := ih h
      exact ⟨hrest.1, List.mem_cons_of_mem _ hrest.2⟩

def new (src : Bytes) (runs : List (ℕ × ℕ)) (h : ∀ r ∈ runs, r.1 + r.2 ≤ src.length) : View where
  src := src
  extents := mapped 0 runs
  len := total runs
  tiles := by
    have htiles := mapped_tiles 0 runs
    rwa [Nat.zero_add] at htiles
  nonempty := fun _ he => (mapped_spec he).1
  inSource := fun _ he => h _ (mapped_spec he).2

/-- `of_file`: all of a file. -/
def ofFile (bytes : Bytes) : View :=
  new bytes [(0, bytes.length)] fun r hr => by
    rw [List.mem_singleton.mp hr]
    exact (Nat.zero_add _).le

/-- The bytes of some extents. -/
def bytesOf (src : Bytes) (extents : List Extent) : Bytes :=
  extents.flatMap fun e => (src.drop e.off).take e.len

def content (v : View) : Bytes := bytesOf v.src v.extents

/-! ### Reading -/

/-- `read_at_logical`: a read ends where the extent ends. -/
def readAtLogical (v : View) (n pos : ℕ) : Bytes :=
  if v.len ≤ pos ∨ n = 0 then []
  else
    match v.extents[(v.extents.findIdx fun e => decide (pos < e.log)) - 1]? with
    | none => []
    | some e =>
      let within := pos - e.log
      (v.src.drop (e.off + within)).take (min (e.len - within) n)

/-- The loop of `read_full_at`; a round that reads nothing ends it. -/
def readLoop (v : View) : ℕ → ℕ → ℕ → Bytes
  | 0, _, _ => []
  | fuel + 1, n, pos =>
    match v.readAtLogical n pos with
    | [] => []
    | got => got ++ readLoop v fuel (n - got.length) (pos + got.length)

def readFullAt (v : View) (n off : ℕ) : Bytes := v.readLoop n n off

/-! ### Slicing -/

/-- The loop of `slice` over the extents, for one range. -/
def sliceRange : List Extent → ℕ → ℕ → List (ℕ × ℕ)
  | [], _, _ => []
  | e :: rest, start, stop =>
    if stop ≤ start then []
    else if e.log + e.len ≤ start ∨ stop ≤ e.log then sliceRange rest start stop
    else
      let lo := max start e.log
      let hi := min stop (e.log + e.len)
      (e.off + (lo - e.log), hi - lo) :: sliceRange rest hi stop

theorem sliceRange_inSource {size : ℕ} {extents : List Extent} {start stop : ℕ}
    (h : ∀ e ∈ extents, e.off + e.len ≤ size) :
    ∀ r ∈ sliceRange extents start stop, r.1 + r.2 ≤ size := by
  induction extents generalizing start with
  | nil => exact nofun
  | cons e rest ih =>
    have hrest : ∀ e ∈ rest, e.off + e.len ≤ size := fun x hx => h x (List.mem_cons_of_mem e hx)
    rw [sliceRange]
    split_ifs with hstop hout
    · exact nofun
    · exact ih hrest
    · intro r hr
      cases List.mem_cons.mp hr with
      | inl heq =>
        have he := h e List.mem_cons_self
        rw [heq]
        show e.off + (max start e.log - e.log) + (min stop (e.log + e.len) - max start e.log) ≤ size
        omega
      | inr hmem => exact ih hrest r hmem

/-- `slice`: ranges of the view, each clamped to it. -/
def slice (v : View) (ranges : List (ℕ × ℕ)) : View :=
  new v.src (ranges.flatMap fun r => sliceRange v.extents (min r.1 v.len) (min (r.1 + r.2) v.len))
    fun r hr => by
      obtain ⟨range, -, hr⟩ := List.mem_flatMap.mp hr
      exact sliceRange_inSource v.inSource r hr

/-! ### Contents -/

theorem length_bytesOf {src : Bytes} {lo hi : ℕ} {extents : List Extent}
    (ht : Tiles Extent.log Extent.len lo hi extents) (hin : ∀ e ∈ extents, e.off + e.len ≤ src.length) :
    lo + (bytesOf src extents).length = hi := by
  induction extents generalizing lo with
  | nil => exact ht
  | cons e rest ih =>
    have hrest := ih ht.2 fun x hx => hin x (List.mem_cons_of_mem e hx)
    have he := hin e List.mem_cons_self
    have hcons : (bytesOf src (e :: rest)).length =
        ((src.drop e.off).take e.len).length + (bytesOf src rest).length := by
      rw [bytesOf, List.flatMap_cons, List.length_append]
      rfl
    rw [hcons, List.length_take, List.length_drop]
    omega

@[simp] theorem length_content (v : View) : v.content.length = v.len := by
  have hlen := length_bytesOf v.tiles v.inSource
  rwa [Nat.zero_add] at hlen

theorem bytesOf_mapped (src : Bytes) (logical : ℕ) (runs : List (ℕ × ℕ)) :
    bytesOf src (mapped logical runs) = runs.flatMap fun r => (src.drop r.1).take r.2 := by
  induction runs generalizing logical with
  | nil => rfl
  | cons r runs ih =>
    obtain ⟨off, len⟩ := r
    rw [mapped, List.flatMap_cons]
    split_ifs with hlen
    · rw [bytesOf, List.flatMap_cons]
      exact congrArg _ (ih (logical + len))
    · have hzero : len = 0 := by omega
      rw [hzero, List.take_zero, List.nil_append]
      exact ih logical

@[simp] theorem content_new {src : Bytes} {runs : List (ℕ × ℕ)}
    (h : ∀ r ∈ runs, r.1 + r.2 ≤ src.length) :
    (new src runs h).content = runs.flatMap fun r => (src.drop r.1).take r.2 :=
  bytesOf_mapped src 0 runs

@[simp] theorem content_ofFile (bytes : Bytes) : (ofFile bytes).content = bytes := by
  rw [ofFile, content_new, List.flatMap_cons, List.flatMap_nil, List.append_nil, List.drop_zero,
    List.take_length]

@[simp] theorem len_ofFile (bytes : Bytes) : (ofFile bytes).len = bytes.length := by
  rw [← length_content, content_ofFile]

/-- The bytes of a stretch that one extent holds. -/
theorem bytesOf_over {src : Bytes} {lo hi : ℕ} {extents : List Extent}
    (ht : Tiles Extent.log Extent.len lo hi extents) (hin : ∀ e ∈ extents, e.off + e.len ≤ src.length)
    {e : Extent} (he : e ∈ extents) {pos k : ℕ} (hlo : e.log ≤ pos) (hk : pos + k ≤ e.log + e.len) :
    ((bytesOf src extents).drop (pos - lo)).take k = (src.drop (e.off + (pos - e.log))).take k := by
  induction extents generalizing lo with
  | nil => cases he
  | cons x rest ih =>
    have hx := hin x List.mem_cons_self
    have hlen : ((src.drop x.off).take x.len).length = x.len := by
      rw [List.length_take, List.length_drop]
      omega
    have hcons : bytesOf src (x :: rest) = (src.drop x.off).take x.len ++ bytesOf src rest := by
      rw [bytesOf, List.flatMap_cons]
      rfl
    obtain ⟨hfirst, hrest⟩ := ht
    rw [hcons]
    cases List.mem_cons.mp he with
    | inl heq =>
      subst heq
      rw [List.drop_append_of_le_length (by omega), List.take_append_of_le_length (by
        rw [List.length_drop]
        omega)]
      rw [List.drop_take, List.take_take, List.drop_drop, hfirst]
      have hmin : min k (e.len - (pos - lo)) = k := by omega
      rw [hmin]
    | inr hmem =>
      have hbound := (Tiles.bounds hrest hmem).1
      have hdrop : pos - lo = x.len + (pos - (lo + x.len)) := by omega
      rw [hdrop, List.drop_append, hlen, Nat.add_sub_cancel_left,
        List.drop_of_length_le (by omega), List.nil_append]
      exact ih hrest (fun y hy => hin y (List.mem_cons_of_mem x hy)) hmem

/-- The last extent that begins at the position or before it is over the position. -/
theorem last_before {lo hi pos : ℕ} {extents : List Extent}
    (ht : Tiles Extent.log Extent.len lo hi extents) (hlo : lo ≤ pos) (hhi : pos < hi) :
    ∃ e, extents[(extents.findIdx fun e => decide (pos < e.log)) - 1]? = some e ∧ e ∈ extents ∧
      e.log ≤ pos ∧ pos < e.log + e.len := by
  induction extents generalizing lo with
  | nil =>
    have heq : lo = hi := ht
    omega
  | cons x rest ih =>
    obtain ⟨hfirst, hrest⟩ := ht
    have hnot : decide (pos < x.log) = false := decide_eq_false (by omega)
    rw [List.findIdx_cons, hnot, cond_false, Nat.add_sub_cancel]
    by_cases hover : pos < lo + x.len
    · have hzero : (rest.findIdx fun e => decide (pos < e.log)) = 0 := by
        cases rest with
        | nil => rfl
        | cons y rest =>
          have hy : y.log = lo + x.len := hrest.1
          rw [List.findIdx_cons, decide_eq_true (by omega), cond_true]
      rw [hzero]
      exact ⟨x, rfl, List.mem_cons_self, by omega, by omega⟩
    · obtain ⟨e, hget, hmem, helo, hehi⟩ := ih hrest (by omega)
      have hpos : 0 < rest.findIdx fun e => decide (pos < e.log) := by
        cases rest with
        | nil => cases hmem
        | cons y rest =>
          have hy : y.log = lo + x.len := hrest.1
          rw [List.findIdx_cons, decide_eq_false (by omega), cond_false]
          exact Nat.succ_pos _
      refine ⟨e, ?_, List.mem_cons_of_mem x hmem, helo, hehi⟩
      rw [← hget, ← Nat.sub_add_cancel hpos, List.getElem?_cons_succ, Nat.add_sub_cancel]

theorem readAtLogical_eq (v : View) (n pos : ℕ) :
    ∃ k, v.readAtLogical n pos = (v.content.drop pos).take k ∧ k ≤ n ∧
      (0 < n → pos < v.len → 0 < k ∧ pos + k ≤ v.len) := by
  rw [readAtLogical]
  by_cases hstop : v.len ≤ pos ∨ n = 0
  · rw [if_pos hstop]
    exact ⟨0, by rw [List.take_zero], Nat.zero_le n, fun hn hpos => by omega⟩
  · rw [if_neg hstop]
    obtain ⟨e, hget, he, hlo, hhi⟩ := last_before v.tiles (Nat.zero_le pos) (by omega)
    have hbound := (Tiles.bounds v.tiles he).2
    have hover := bytesOf_over v.tiles v.inSource he hlo
      (show pos + min (e.len - (pos - e.log)) n ≤ e.log + e.len by omega)
    rw [Nat.sub_zero] at hover
    rw [hget]
    refine ⟨min (e.len - (pos - e.log)) n, hover.symm, Nat.min_le_right _ _, fun hn _ => ?_⟩
    omega

/-- **Reading at an offset reads the content there**, and comes up short only at the end. -/
theorem readFullAt_eq (v : View) (n off : ℕ) : v.readFullAt n off = (v.content.drop off).take n := by
  rw [readFullAt]
  have hloop : ∀ fuel n pos, n ≤ fuel → v.readLoop fuel n pos = (v.content.drop pos).take n := by
    intro fuel
    induction fuel with
    | zero =>
      intro n pos hn
      rw [Nat.le_zero.mp hn, List.take_zero]
      rfl
    | succ fuel ih =>
      intro n pos hn
      obtain ⟨k, hk, hle, hpos⟩ := v.readAtLogical_eq n pos
      rw [readLoop, hk]
      by_cases hend : v.len ≤ pos ∨ n = 0
      · have hnil : (v.content.drop pos).take n = [] := by
          cases hend with
          | inl hlen => rw [List.drop_of_length_le (by rwa [length_content]), List.take_nil]
          | inr hzero => rw [hzero, List.take_zero]
        have hnil' : (v.content.drop pos).take k = [] := by
          cases hend with
          | inl hlen => rw [List.drop_of_length_le (by rwa [length_content]), List.take_nil]
          | inr hzero =>
            have hk : k = 0 := by omega
            rw [hk, List.take_zero]
        rw [hnil, hnil']
      · obtain ⟨hkpos, hkend⟩ := hpos (by omega) (by omega)
        have hlen : ((v.content.drop pos).take k).length = k := by
          rw [List.length_take, List.length_drop, length_content]
          omega
        cases hgot : (v.content.drop pos).take k with
        | nil =>
          rw [hgot, List.length_nil] at hlen
          omega
        | cons b bs =>
          dsimp only
          rw [← hgot, hlen, ih (n - k) (pos + k) (by omega), ← List.drop_drop,
            ← List.take_add]
          rw [Nat.add_sub_cancel' hle]
  exact hloop n n off (le_refl n)

theorem bytes_sliceRange {src : Bytes} {lo hi : ℕ} {extents : List Extent}
    (ht : Tiles Extent.log Extent.len lo hi extents) (hin : ∀ e ∈ extents, e.off + e.len ≤ src.length)
    {start stop : ℕ} (hlo : lo ≤ start) :
    ((sliceRange extents start stop).flatMap fun r => (src.drop r.1).take r.2) =
      ((bytesOf src extents).drop (start - lo)).take (stop - start) := by
  induction extents generalizing lo start with
  | nil => rw [sliceRange, bytesOf, List.flatMap_nil, List.flatMap_nil, List.drop_nil, List.take_nil]
  | cons e rest ih =>
    have he := hin e List.mem_cons_self
    have hrestIn : ∀ x ∈ rest, x.off + x.len ≤ src.length := fun x hx =>
      hin x (List.mem_cons_of_mem e hx)
    have hlen : ((src.drop e.off).take e.len).length = e.len := by
      rw [List.length_take, List.length_drop]
      omega
    have hcons : bytesOf src (e :: rest) = (src.drop e.off).take e.len ++ bytesOf src rest := by
      rw [bytesOf, List.flatMap_cons]
      rfl
    obtain ⟨hfirst, hrest⟩ := ht
    rw [sliceRange, hcons]
    by_cases hstop : stop ≤ start
    · rw [if_pos hstop, Nat.sub_eq_zero_of_le hstop, List.take_zero, List.flatMap_nil]
    · rw [if_neg hstop]
      by_cases hpast : e.log + e.len ≤ start
      · have hdrop : start - lo = e.len + (start - (lo + e.len)) := by omega
        rw [if_pos (Or.inl hpast), hdrop, List.drop_append, hlen, Nat.add_sub_cancel_left,
          List.drop_of_length_le (by omega), List.nil_append]
        exact ih hrest hrestIn (by omega)
      · rw [if_neg (by omega), List.flatMap_cons]
        have hmax : max start e.log = start := by omega
        have hnext := @ih _ hrest hrestIn (min stop (e.log + e.len))
        have hsub : start - e.log = start - lo := by omega
        rw [hmax, hsub, List.drop_append_of_le_length (by omega), List.take_append, List.length_drop,
          hlen]
        congr 1
        · rw [List.drop_take, List.take_take, List.drop_drop]
          congr 1
          omega
        · by_cases hends : stop ≤ e.log + e.len
          · have hmin : min stop (e.log + e.len) = stop := by omega
            have hzero : stop - start - (e.len - (start - lo)) = 0 := by omega
            rw [hmin, hzero, List.take_zero]
            cases rest with
            | nil => rfl
            | cons y rest =>
              rw [sliceRange, if_pos (le_refl stop)]
              rfl
          · have hmin : min stop (e.log + e.len) = lo + e.len := by omega
            rw [hmin, ih hrest hrestIn (le_refl _), Nat.sub_self, List.drop_zero]
            congr 1
            omega

/-- **What a slice holds.** -/
theorem content_slice (v : View) (ranges : List (ℕ × ℕ)) :
    (v.slice ranges).content = ranges.flatMap fun r => (v.content.drop r.1).take r.2 := by
  rw [slice, content_new, List.flatMap_assoc]
  congr 1
  funext r
  rw [bytes_sliceRange v.tiles v.inSource (Nat.zero_le _), Nat.sub_zero]
  by_cases hin : r.1 ≤ v.len
  · have hmin : min r.1 v.len = r.1 := by omega
    rw [hmin]
    show (v.content.drop r.1).take _ = _
    have hlen : (v.content.drop r.1).length = v.len - r.1 := by
      rw [List.length_drop, length_content]
    by_cases hend : r.1 + r.2 ≤ v.len
    · congr 1
      omega
    · rw [List.take_of_length_le (by omega), List.take_of_length_le (by omega)]
  · have hmin : min r.1 v.len = v.len := by omega
    rw [hmin]
    show (v.content.drop v.len).take _ = _
    rw [List.drop_of_length_le (by rw [length_content]), List.take_nil,
      List.drop_of_length_le (by rw [length_content]; omega), List.take_nil]

/-- The range lies in the view; an empty one always does. -/
def Within (v : View) (r : ℕ × ℕ) : Prop := r.2 ≤ v.len - r.1

instance (v : View) (r : ℕ × ℕ) : Decidable (v.Within r) := inferInstanceAs (Decidable (_ ≤ _))

theorem length_take_range (v : View) (r : ℕ × ℕ) :
    ((v.content.drop r.1).take r.2).length = min r.2 (v.len - r.1) := by
  rw [List.length_take, List.length_drop, length_content]

/-- **A slice is as long as what was asked for just when that lies in the view.** -/
theorem length_slice_iff (v : View) (ranges : List (ℕ × ℕ)) :
    (v.slice ranges).content.length = total ranges ↔ ∀ r ∈ ranges, v.Within r := by
  rw [content_slice]
  induction ranges with
  | nil => simp [total]
  | cons r ranges ih =>
    have hle : (ranges.flatMap fun r => (v.content.drop r.1).take r.2).length ≤ total ranges := by
      clear ih
      induction ranges with
      | nil => exact Nat.zero_le _
      | cons r ranges ih =>
        have hr := v.length_take_range r
        rw [List.flatMap_cons, List.length_append, total, List.map_cons, List.sum_cons]
        rw [total] at ih
        omega
    have htotal : total (r :: ranges) = r.2 + total ranges := by
      rw [total, List.map_cons, List.sum_cons, total]
    rw [List.flatMap_cons, List.length_append, htotal, length_take_range, List.forall_mem_cons, ← ih,
      Within]
    omega

end View

end Hashdex
