import Mathlib

/-!
# Windows over an interval

Spans that may overlap, nest or repeat, cut into windows: going through them in order, each gives what
it has beyond the place reached so far.

* `windows_inOrder`: no two windows have a place in common
* `mem_window_iff`: when the spans come by where they start, the windows are over just the places that
  some span is over

`SameRange` says that two lists hold the same entries over a range of each.
-/

namespace Windows

/-- The part of an item's span from `lo` up to `hi`. -/
structure Window (α : Type*) where
  item : α
  lo : ℕ
  hi : ℕ
  deriving DecidableEq

namespace Window

variable {α : Type*}

def len (w : Window α) : ℕ := w.hi - w.lo

end Window

section

variable {α : Type*} (start stop : α → ℕ)

/-- The windows of the items over `[at0, limit)`. -/
def windows (limit : ℕ) : ℕ → List α → List (Window α)
  | _, [] => []
  | at0, x :: xs =>
    if stop x ≤ at0 then windows limit at0 xs
    else if limit ≤ start x then []
    else
      let lo := max (start x) at0
      let hi := min (stop x) limit
      if hi ≤ lo then windows limit at0 xs else ⟨x, lo, hi⟩ :: windows limit hi xs

/-- The window is part of its item's span, is not empty and lies in `[at0, limit)`. -/
structure Window.Within (at0 limit : ℕ) (w : Window α) : Prop where
  start_le : start w.item ≤ w.lo
  le_stop : w.hi ≤ stop w.item
  at_le : at0 ≤ w.lo
  lt : w.lo < w.hi
  le_limit : w.hi ≤ limit

/-- What one item does to the windows. -/
theorem windows_cons (limit at0 : ℕ) (x : α) (xs : List α) :
    windows start stop limit at0 (x :: xs) = windows start stop limit at0 xs ∨
      (limit ≤ start x ∧ windows start stop limit at0 (x :: xs) = []) ∨
      ∃ w : Window α, w.item = x ∧ w.Within start stop at0 limit ∧
        windows start stop limit at0 (x :: xs) = w :: windows start stop limit w.hi xs := by
  rw [windows]
  dsimp only
  split_ifs with hpast hbeyond hempty
  · exact .inl rfl
  · exact .inr (.inl ⟨hbeyond, rfl⟩)
  · exact .inl rfl
  · refine .inr (.inr ⟨⟨x, max (start x) at0, min (stop x) limit⟩, rfl, ?_, rfl⟩)
    constructor <;> dsimp only <;> omega

variable {start stop}

theorem Window.Within.mono {at0 at1 limit : ℕ} {w : Window α} (h : w.Within start stop at1 limit)
    (hle : at0 ≤ at1) : w.Within start stop at0 limit :=
  { h with at_le := hle.trans h.at_le }

theorem mem_windows {limit at0 : ℕ} {xs : List α} {w : Window α}
    (h : w ∈ windows start stop limit at0 xs) : w.item ∈ xs ∧ w.Within start stop at0 limit := by
  induction xs generalizing at0 with
  | nil => cases h
  | cons x xs ih =>
    have hrest : ∀ {at1}, at0 ≤ at1 → w ∈ windows start stop limit at1 xs →
        w.item ∈ x :: xs ∧ w.Within start stop at0 limit := by
      intro at1 hle hw
      obtain ⟨hmem, hwithin⟩ := ih hw
      exact ⟨List.mem_cons_of_mem x hmem, hwithin.mono hle⟩
    rcases windows_cons start stop limit at0 x xs with heq | ⟨-, heq⟩ | ⟨v, hitem, hv, heq⟩
    · rw [heq] at h
      exact hrest (Nat.le_refl at0) h
    · rw [heq] at h
      cases h
    · rw [heq] at h
      cases List.mem_cons.mp h with
      | inl hhead =>
        subst hhead
        exact ⟨hitem ▸ List.mem_cons_self, hv⟩
      | inr htail =>
        have hle : at0 ≤ v.hi := by
          have h1 := hv.at_le
          have h2 := hv.lt
          omega
        exact hrest hle htail

/-- **Each window ends before the next begins.** -/
theorem windows_inOrder (limit at0 : ℕ) (xs : List α) :
    (windows start stop limit at0 xs).Pairwise fun v w => v.hi ≤ w.lo := by
  induction xs generalizing at0 with
  | nil => exact List.Pairwise.nil
  | cons x xs ih =>
    rcases windows_cons start stop limit at0 x xs with heq | ⟨-, heq⟩ | ⟨v, -, -, heq⟩
    · rw [heq]
      exact ih at0
    · rw [heq]
      exact List.Pairwise.nil
    · rw [heq]
      constructor
      · intro w hw
        exact (mem_windows hw).2.at_le
      · exact ih v.hi

/-- **When the items come by where they start, the windows leave out no place that one of them is
over.** -/
theorem mem_window_iff {limit at0 : ℕ} {xs : List α} (hsort : xs.Pairwise fun x y => start x ≤ start y)
    {p : ℕ} (hp : at0 ≤ p) (hlimit : p < limit) :
    (∃ w ∈ windows start stop limit at0 xs, w.lo ≤ p ∧ p < w.hi) ↔
      ∃ x ∈ xs, start x ≤ p ∧ p < stop x := by
  constructor
  · intro h
    obtain ⟨w, hw, hlo, hhi⟩ := h
    obtain ⟨hmem, hwithin⟩ := mem_windows hw
    exact ⟨w.item, hmem, hwithin.start_le.trans hlo, hhi.trans_le hwithin.le_stop⟩
  · intro h
    induction xs generalizing at0 with
    | nil =>
      obtain ⟨x, hx, -⟩ := h
      cases hx
    | cons x xs ih =>
      obtain ⟨hhead, htail⟩ := List.pairwise_cons.mp hsort
      obtain ⟨y, hy, hstart, hstop⟩ := h
      have hstart_le : start x ≤ p := by
        cases List.mem_cons.mp hy with
        | inl heq => exact heq ▸ hstart
        | inr hmem => exact (hhead y hmem).trans hstart
      rw [windows]
      dsimp only
      split_ifs with hpast hbeyond hempty
      · refine ih htail hp ?_
        cases List.mem_cons.mp hy with
        | inl heq =>
          subst heq
          omega
        | inr hmem => exact ⟨y, hmem, hstart, hstop⟩
      · omega
      · refine ih htail hp ?_
        cases List.mem_cons.mp hy with
        | inl heq =>
          subst heq
          omega
        | inr hmem => exact ⟨y, hmem, hstart, hstop⟩
      · by_cases hin : p < min (stop x) limit
        · exact ⟨_, List.mem_cons_self, by dsimp only; omega, hin⟩
        · have hnext : ∃ z ∈ xs, start z ≤ p ∧ p < stop z := by
            cases List.mem_cons.mp hy with
            | inl heq =>
              subst heq
              omega
            | inr hmem => exact ⟨y, hmem, hstart, hstop⟩
          have hmin : min (stop x) limit ≤ p := by omega
          obtain ⟨w, hw, hwlo, hwhi⟩ := ih htail hmin hnext
          exact ⟨w, List.mem_cons_of_mem _ hw, hwlo, hwhi⟩

end

/-! ### Equal ranges -/

section

variable {β : Type*}

/-- The `n` entries of `as` from `i` on are those of `bs` from `j` on. -/
structure SameRange (as : List β) (i : ℕ) (bs : List β) (j n : ℕ) : Prop where
  left : i + n ≤ as.length
  right : j + n ≤ bs.length
  entries : (as.drop i).take n = (bs.drop j).take n

namespace SameRange

variable {as bs cs : List β} {i j k n : ℕ}

theorem symm (h : SameRange as i bs j n) : SameRange bs j as i n := ⟨h.right, h.left, h.entries.symm⟩

theorem trans (h : SameRange as i bs j n) (h' : SameRange bs j cs k n) : SameRange as i cs k n :=
  ⟨h.left, h'.right, h.entries.trans h'.entries⟩

theorem refl (h : i + n ≤ as.length) : SameRange as i as i n := ⟨h, h, rfl⟩

/-- A part of the range. -/
theorem part (h : SameRange as i bs j n) (k m : ℕ) (hm : k + m ≤ n) :
    SameRange as (i + k) bs (j + k) m := by
  have hl := h.left
  have hr := h.right
  refine ⟨by omega, by omega, ?_⟩
  have hcut : ∀ (l : List β) (a : ℕ), (l.drop (a + k)).take m = (((l.drop a).take n).drop k).take m := by
    intro l a
    rw [List.drop_take, List.drop_drop, List.take_take]
    congr 1
    omega
  rw [hcut as i, hcut bs j, h.entries]

/-- A list and the range it is of another. -/
theorem of_take {m : ℕ} (h : as = (bs.drop j).take m) (hm : j + m ≤ bs.length) :
    SameRange as 0 bs j m := by
  have hlen : as.length = m := by
    rw [h, List.length_take, List.length_drop]
    omega
  refine ⟨by omega, hm, ?_⟩
  rw [List.drop_zero, List.take_of_length_le (Nat.le_of_eq hlen), h]

end SameRange

end

end Windows
