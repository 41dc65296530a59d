import Mathlib

/-!
# Lists written at a position

A list that pieces are written into at any position, past its end too, where the gap is filled; and
two lists that agree on a window.

* `getElem?_putAt`: the piece within its window, the old list elsewhere
* `Agree.putAt`: writing what should stand there widens the window on which two lists agree
* `eq_of_agree`: agreement everywhere
-/

namespace Placing

variable {α : Type*}

section
variable (fill : α)

/-- Write a piece at a position; an empty one changes nothing. -/
def putAt (xs : List α) (off : ℕ) (piece : List α) : List α :=
  if piece.isEmpty then xs
  else (xs ++ List.replicate (off - xs.length) fill).take off ++ piece
    ++ xs.drop (off + piece.length)

theorem putAt_nil (xs : List α) (off : ℕ) : putAt fill xs off [] = xs := rfl

theorem length_putAt (xs : List α) (off : ℕ) {piece : List α} (h : piece ≠ []) :
    (putAt fill xs off piece).length = max xs.length (off + piece.length) := by
  have hempty : piece.isEmpty = false := by simpa using h
  rw [putAt, hempty]
  simp only [Bool.false_eq_true, if_false, List.length_append, List.length_take,
    List.length_replicate, List.length_drop]
  omega

theorem length_putAt_of_le {xs : List α} {off : ℕ} {piece : List α}
    (h : off + piece.length ≤ xs.length) : (putAt fill xs off piece).length = xs.length := by
  by_cases hpiece : piece = []
  · rw [hpiece, putAt_nil]
  · rw [length_putAt fill xs off hpiece]
    omega

theorem getElem?_putAt_inside (xs : List α) {off i : ℕ} {piece : List α} (hlo : off ≤ i)
    (hhi : i < off + piece.length) : (putAt fill xs off piece)[i]? = piece[i - off]? := by
  have hempty : piece.isEmpty = false := by
    cases piece with
    | nil => rw [List.length_nil] at hhi; omega
    | cons x rest => rfl
  have hfront : ((xs ++ List.replicate (off - xs.length) fill).take off).length = off := by
    simp only [List.length_take, List.length_append, List.length_replicate]
    omega
  rw [putAt, hempty]
  simp only [Bool.false_eq_true, if_false]
  rw [List.append_assoc, List.getElem?_append_right (by omega), hfront,
    List.getElem?_append_left (by omega)]

theorem getElem?_putAt_outside {xs : List α} {off i : ℕ} {piece : List α} (hi : i < xs.length)
    (hout : i < off ∨ off + piece.length ≤ i) : (putAt fill xs off piece)[i]? = xs[i]? := by
  by_cases hpiece : piece = []
  · rw [hpiece, putAt_nil]
  have hempty : piece.isEmpty = false := by simpa using hpiece
  have hfront : ((xs ++ List.replicate (off - xs.length) fill).take off).length = off := by
    simp only [List.length_take, List.length_append, List.length_replicate]
    omega
  rw [putAt, hempty]
  simp only [Bool.false_eq_true, if_false]
  rw [List.append_assoc]
  obtain hbefore | hafter := hout
  · rw [List.getElem?_append_left (by omega), List.getElem?_take_of_lt hbefore,
      List.getElem?_append_left hi]
  · rw [List.getElem?_append_right (by omega), hfront, List.getElem?_append_right (by omega),
      List.getElem?_drop]
    congr 1
    omega

end

/-- Two lists have the same entries from `lo` up to `hi`. -/
def Agree (xs ys : List α) (lo hi : ℕ) : Prop := ∀ i, lo ≤ i → i < hi → xs[i]? = ys[i]?

theorem agree_empty (xs ys : List α) (lo : ℕ) : Agree xs ys lo lo := fun _ h h' =>
  absurd h' (Nat.not_lt.mpr h)

/-- Writing what should stand there widens the window. -/
theorem Agree.putAt {fill : α} {xs ys : List α} {lo off : ℕ} {piece : List α}
    (h : Agree xs ys lo off) (hoff : off ≤ xs.length)
    (hpiece : ∀ i, i < piece.length → piece[i]? = ys[off + i]?) :
    Agree (putAt fill xs off piece) ys lo (off + piece.length) := by
  intro i hlo hhi
  by_cases hi : i < off
  · rw [getElem?_putAt_outside fill (by omega) (Or.inl hi), h i hlo hi]
  · rw [getElem?_putAt_inside fill xs (by omega) hhi, hpiece (i - off) (by omega)]
    congr 1
    omega

/-- A write elsewhere leaves the window as it was. -/
theorem Agree.frame {fill : α} {xs ys : List α} {lo hi off : ℕ} {piece : List α}
    (h : Agree xs ys lo hi) (hlen : hi ≤ xs.length)
    (hapart : hi ≤ off ∨ off + piece.length ≤ lo) :
    Agree (Placing.putAt fill xs off piece) ys lo hi := by
  intro i hlo hhi
  rw [getElem?_putAt_outside fill (by omega) (by omega), h i hlo hhi]

theorem eq_of_agree {xs ys : List α} (hlen : xs.length = ys.length)
    (h : ∀ i, i < ys.length → xs[i]? = ys[i]?) : xs = ys := by
  apply List.ext_getElem?
  intro i
  by_cases hi : i < ys.length
  · exact h i hi
  · rw [List.getElem?_eq_none (by omega), List.getElem?_eq_none (by omega)]

end Placing
