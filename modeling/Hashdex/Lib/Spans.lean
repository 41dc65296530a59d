import Mathlib

/-!
# Spans of places

A list of half-open spans, each where it starts and where it ends, over the places of a line.

* `count_cons`: spans that are apart are counted one by one
* `after_dropWhile`: of spans that are apart, those that end beyond a place are the rest of the list
-/

namespace Spans

/-- Some span is over the place. -/
def Over (spans : List (ℕ × ℕ)) (x : ℕ) : Prop := ∃ se ∈ spans, se.1 ≤ x ∧ x < se.2

instance (spans : List (ℕ × ℕ)) : DecidablePred (Over spans) := fun _ =>
  inferInstanceAs (Decidable (∃ se ∈ spans, _ ∧ _))

@[simp] theorem over_nil (x : ℕ) : ¬ Over [] x := by
  rintro ⟨se, hse, -⟩
  cases hse

@[simp] theorem over_cons (se : ℕ × ℕ) (rest : List (ℕ × ℕ)) (x : ℕ) :
    Over (se :: rest) x ↔ (se.1 ≤ x ∧ x < se.2) ∨ Over rest x := by
  simp only [Over, List.mem_cons, exists_eq_or_imp]

theorem over_reverse (spans : List (ℕ × ℕ)) (x : ℕ) : Over spans.reverse x ↔ Over spans x := by
  simp only [Over, List.mem_reverse]

/-- Ascending spans, none of which reaches the next. -/
structure Apart (spans : List (ℕ × ℕ)) : Prop where
  ordered : ∀ se ∈ spans, se.1 ≤ se.2
  apart : spans.Pairwise fun a b => a.2 < b.1

theorem Apart.tail {se : ℕ × ℕ} {rest : List (ℕ × ℕ)} (h : Apart (se :: rest)) : Apart rest :=
  ⟨fun x hx => h.ordered x (List.mem_cons_of_mem _ hx), h.apart.of_cons⟩

theorem Apart.head {se : ℕ × ℕ} {rest : List (ℕ × ℕ)} (h : Apart (se :: rest)) :
    ∀ x ∈ rest, se.2 < x.1 := (List.pairwise_cons.mp h.apart).1

/-- How many places of `[pos, stop)` the spans are over. -/
def count (spans : List (ℕ × ℕ)) (pos stop : ℕ) : ℕ := ((Finset.Ico pos stop).filter (Over spans)).card

theorem count_congr {p : ℕ → Prop} [DecidablePred p] {spans : List (ℕ × ℕ)} {pos stop : ℕ}
    (h : ∀ x, Over spans x ↔ p x) : count spans pos stop = ((Finset.Ico pos stop).filter p).card := by
  rw [count]
  congr 1
  exact Finset.filter_congr fun x _ => h x

/-- Spans that all start at or past the window's end are over none of it. -/
theorem count_of_after {spans : List (ℕ × ℕ)} {pos stop : ℕ} (h : ∀ se ∈ spans, stop ≤ se.1) :
    count spans pos stop = 0 := by
  rw [count, Finset.card_eq_zero, Finset.filter_eq_empty_iff]
  rintro x hx ⟨se, hse, hle, -⟩
  have hstop := h se hse
  have hlt := (Finset.mem_Ico.mp hx).2
  omega

/-- **Spans that are apart are counted one by one.** -/
theorem count_cons {se : ℕ × ℕ} {rest : List (ℕ × ℕ)} (h : Apart (se :: rest)) (pos stop : ℕ) :
    count (se :: rest) pos stop = (min se.2 stop - max se.1 pos) + count rest pos stop := by
  have hsplit : (Finset.Ico pos stop).filter (Over (se :: rest))
      = Finset.Ico (max se.1 pos) (min se.2 stop) ∪ (Finset.Ico pos stop).filter (Over rest) := by
    ext x
    simp only [Finset.mem_filter, Finset.mem_union, Finset.mem_Ico, over_cons, max_le_iff,
      lt_min_iff]
    tauto
  have hdisj : Disjoint (Finset.Ico (max se.1 pos) (min se.2 stop))
      ((Finset.Ico pos stop).filter (Over rest)) := by
    rw [Finset.disjoint_left]
    intro x hx hrest
    obtain ⟨other, hother, hle, -⟩ := (Finset.mem_filter.mp hrest).2
    have hbefore := h.head other hother
    have hlt := (Finset.mem_Ico.mp hx).2
    rw [lt_min_iff] at hlt
    omega
  rw [count, hsplit, Finset.card_union_of_disjoint hdisj, Nat.card_Ico, count]

/-- A span that ends at or before the window adds nothing to it. -/
theorem count_cons_before {se : ℕ × ℕ} {rest : List (ℕ × ℕ)} (h : Apart (se :: rest)) {pos : ℕ}
    (hpos : se.2 ≤ pos) (stop : ℕ) : count (se :: rest) pos stop = count rest pos stop := by
  rw [count_cons h]
  omega

/-- **Of spans that are apart, those that end beyond a place are the rest of the list from the first
such on**, so that a binary search for it finds them all. -/
theorem after_dropWhile {spans : List (ℕ × ℕ)} (h : Apart spans) (pos : ℕ) :
    ∀ se ∈ spans.dropWhile (fun se => decide (se.2 ≤ pos)), pos < se.2 := by
  induction spans with
  | nil => simp
  | cons se rest ih =>
    rw [List.dropWhile_cons]
    split
    · exact ih h.tail
    · next hlt =>
      rw [decide_eq_true_iff, not_le] at hlt
      intro x hx
      rcases List.mem_cons.mp hx with rfl | hx
      · exact hlt
      · have hbefore := h.head x hx
        have hord := h.ordered x (List.mem_cons_of_mem _ hx)
        omega

theorem count_dropWhile {spans : List (ℕ × ℕ)} (h : Apart spans) (pos stop : ℕ) :
    count (spans.dropWhile fun se => decide (se.2 ≤ pos)) pos stop = count spans pos stop := by
  induction spans with
  | nil => rfl
  | cons se rest ih =>
    rw [List.dropWhile_cons]
    split
    · next hle =>
      rw [ih h.tail, count_cons_before h (of_decide_eq_true hle)]
    · rfl

theorem Apart.dropWhile {spans : List (ℕ × ℕ)} (h : Apart spans) (p : ℕ × ℕ → Bool) :
    Apart (spans.dropWhile p) :=
  ⟨fun se hse => h.ordered se ((List.dropWhile_sublist p).subset hse),
    h.apart.sublist (List.dropWhile_sublist p)⟩

end Spans
