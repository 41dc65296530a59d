import Mathlib

/-!
# Tilings of an interval by spans

A list of things that each have a position and a length, standing one after the other with no space
between them.

* `Tiles.pairwise`: the pieces of a tiling come in order and do not overlap
* `Tiles.sum_len`: and their lengths add up
* `Tiles.find?_iff`: the piece over a place
* `inOrder_of_sorted`: sorting pieces that are apart puts them in order
-/

namespace Tiling

variable {α : Type*} (pos len : α → ℕ)

/-- The spans tile `[lo, hi)`, in order. -/
def Tiles : ℕ → ℕ → List α → Prop
  | lo, hi, [] => lo = hi
  | lo, hi, x :: xs => pos x = lo ∧ Tiles (lo + len x) hi xs

/-- The two spans have no place in common. -/
def Apart (a b : α) : Prop := pos a + len a ≤ pos b ∨ pos b + len b ≤ pos a

/-- Each span ends before the next begins. -/
def InOrder (xs : List α) : Prop := xs.Pairwise fun a b => pos a + len a ≤ pos b

variable {pos len}

instance (a b : α) : Decidable (Apart pos len a b) := inferInstanceAs (Decidable (_ ∨ _))

@[simp] theorem tiles_nil {lo hi : ℕ} : Tiles pos len lo hi [] ↔ lo = hi := Iff.rfl

@[simp] theorem tiles_cons {lo hi : ℕ} {x : α} {xs : List α} :
    Tiles pos len lo hi (x :: xs) ↔ pos x = lo ∧ Tiles pos len (lo + len x) hi xs := Iff.rfl

instance Tiles.decidable : ∀ (lo hi : ℕ) (xs : List α), Decidable (Tiles pos len lo hi xs)
  | lo, hi, [] => inferInstanceAs (Decidable (lo = hi))
  | lo, hi, x :: xs =>
    have := Tiles.decidable (lo + len x) hi xs
    inferInstanceAs (Decidable (pos x = lo ∧ Tiles pos len (lo + len x) hi xs))

theorem tiles_append {lo hi : ℕ} {xs ys : List α} :
    Tiles pos len lo hi (xs ++ ys) ↔
      ∃ mid, Tiles pos len lo mid xs ∧ Tiles pos len mid hi ys := by
  induction xs generalizing lo with
  | nil => simp
  | cons x xs ih => simp only [List.cons_append, tiles_cons, ih, and_assoc, exists_and_left]

theorem Tiles.le {lo hi : ℕ} {xs : List α} (h : Tiles pos len lo hi xs) : lo ≤ hi := by
  induction xs generalizing lo with
  | nil => exact Nat.le_of_eq h
  | cons x xs ih => exact (Nat.le_add_right lo (len x)).trans (ih h.2)

theorem Tiles.bounds {lo hi : ℕ} {xs : List α} (h : Tiles pos len lo hi xs) {x : α} (hx : x ∈ xs) :
    lo ≤ pos x ∧ pos x + len x ≤ hi := by
  induction xs generalizing lo with
  | nil => cases hx
  | cons y ys ih =>
    obtain ⟨hy, hys⟩ := h
    rcases List.mem_cons.mp hx with rfl | hx
    · exact ⟨hy.ge, hy ▸ Tiles.le hys⟩
    · have hxs := ih hys hx
      exact ⟨(Nat.le_add_right lo (len y)).trans hxs.1, hxs.2⟩

/-- **The pieces of a tiling come in order.** -/
theorem Tiles.pairwise {lo hi : ℕ} {xs : List α} (h : Tiles pos len lo hi xs) :
    InOrder pos len xs := by
  induction xs generalizing lo with
  | nil => exact List.Pairwise.nil
  | cons x xs ih =>
    obtain ⟨hx, hxs⟩ := h
    refine List.Pairwise.cons (fun y hy => ?_) (ih hxs)
    exact hx ▸ (Tiles.bounds hxs hy).1

theorem Tiles.sum_len {lo hi : ℕ} {xs : List α} (h : Tiles pos len lo hi xs) :
    lo + (xs.map len).sum = hi := by
  induction xs generalizing lo with
  | nil => exact h
  | cons x xs ih =>
    have hxs := ih h.2
    rw [List.map_cons, List.sum_cons]
    omega

theorem Apart.symm {a b : α} (h : Apart pos len a b) : Apart pos len b a := Or.symm h

instance : Std.Symm (Apart pos len) := ⟨fun _ _ => Apart.symm⟩

theorem InOrder.apart {xs : List α} (h : InOrder pos len xs) : xs.Pairwise (Apart pos len) :=
  h.imp Or.inl

/-- Two pieces of a tiling are the same or apart. -/
theorem Tiles.eq_or_apart {lo hi : ℕ} {xs : List α} (h : Tiles pos len lo hi xs) {x y : α}
    (hx : x ∈ xs) (hy : y ∈ xs) : x = y ∨ Apart pos len x y := by
  by_cases hxy : x = y
  · exact Or.inl hxy
  · exact Or.inr (h.pairwise.apart.forall hx hy hxy)

/-- The piece over a place is the first that ends behind it. -/
theorem Tiles.find?_iff {lo hi q : ℕ} {xs : List α} (h : Tiles pos len lo hi xs) (hlo : lo ≤ q)
    {x : α} : xs.find? (fun y => decide (q < pos y + len y)) = some x ↔
      x ∈ xs ∧ pos x ≤ q ∧ q < pos x + len x := by
  induction xs generalizing lo with
  | nil => simp
  | cons y ys ih =>
    obtain ⟨hy, hys⟩ := h
    by_cases hq : q < pos y + len y
    · rw [List.find?_cons_of_pos (by simpa using hq)]
      constructor
      · intro heq
        cases heq
        exact ⟨List.mem_cons_self, by omega, hq⟩
      · intro hx
        cases List.mem_cons.mp hx.1 with
        | inl hxy => rw [hxy]
        | inr hxs =>
          have hge := (Tiles.bounds hys hxs).1
          omega
    · rw [List.find?_cons_of_neg (by simpa using hq), ih hys (by omega)]
      constructor
      · intro hx
        exact ⟨List.mem_cons_of_mem y hx.1, hx.2⟩
      · intro hx
        cases List.mem_cons.mp hx.1 with
        | inl hxy =>
          rw [hxy] at hx
          exact absurd hx.2.2 hq
        | inr hxs => exact ⟨hxs, hx.2⟩

/-- Every place of the interval has a piece. -/
theorem Tiles.exists_find? {lo hi q : ℕ} {xs : List α} (h : Tiles pos len lo hi xs) (hlo : lo ≤ q)
    (hhi : q < hi) : ∃ x, xs.find? (fun y => decide (q < pos y + len y)) = some x := by
  induction xs generalizing lo with
  | nil =>
    have heq : lo = hi := h
    omega
  | cons y ys ih =>
    obtain ⟨hy, hys⟩ := h
    by_cases hq : q < pos y + len y
    · exact ⟨y, List.find?_cons_of_pos (by simpa using hq)⟩
    · rw [List.find?_cons_of_neg (by simpa using hq)]
      exact ih hys (by omega)

/-- Sorted by position, nonempty pieces that are apart are in order. -/
theorem inOrder_of_sorted {xs : List α} (hsort : xs.Pairwise fun a b => pos a ≤ pos b)
    (hpos : ∀ x ∈ xs, 0 < len x) (hapart : xs.Pairwise (Apart pos len)) :
    InOrder pos len xs := by
  induction xs with
  | nil => exact List.Pairwise.nil
  | cons x xs ih =>
    obtain ⟨hx, hxs⟩ := List.pairwise_cons.mp hsort
    obtain ⟨hax, haxs⟩ := List.pairwise_cons.mp hapart
    refine List.Pairwise.cons (fun y hy => ?_) (ih hxs (fun z hz => hpos z ?_) haxs)
    · have hle := hx y hy
      have hlen := hpos y (List.mem_cons_of_mem x hy)
      rcases hax y hy with h | h
      · exact h
      · omega
    · exact List.mem_cons_of_mem x hz

end Tiling
