import Mathlib

/-!
# Depth-first tours

The order in which a depth-first search comes to the nodes of a graph, where a node is known by a key, no
key is come to twice, and the search goes no deeper than a limit.

* `tour_seen`: the keys seen are those of the nodes come to
* `tour_nodup`: no key is come to twice
* `tour_of_invariant`: what holds of the start and along the edges holds of the tour
-/

namespace Tour

variable {ι κ : Type*} [DecidableEq κ] (key : ι → κ) (next : ι → List ι)

/-- The tours from some nodes, one after the other. -/
def tourAll (go : ι → List κ → List κ × List ι) : List ι → List κ → List κ × List ι
  | [], seen => (seen, [])
  | x :: xs, seen => ((tourAll go xs (go x seen).1).1, (go x seen).2 ++ (tourAll go xs (go x seen).1).2)

/-- The tour from a node, `left` levels above the deepest there may be: the keys seen after it, and the
nodes in order. -/
def tour : ℕ → ι → List κ → List κ × List ι
  | 0, _, seen => (seen, [])
  | left + 1, x, seen =>
    if key x ∈ seen then (seen, [])
    else
      ((tourAll (tour left) (next x) (key x :: seen)).1,
        x :: (tourAll (tour left) (next x) (key x :: seen)).2)

variable {key next}

theorem tour_zero (x : ι) (seen : List κ) : tour key next 0 x seen = (seen, []) := rfl

theorem tour_seen_again {left : ℕ} {x : ι} {seen : List κ} (h : key x ∈ seen) :
    tour key next (left + 1) x seen = (seen, []) := by
  rw [tour, if_pos h]

theorem tour_fresh {left : ℕ} {x : ι} {seen : List κ} (h : key x ∉ seen) :
    tour key next (left + 1) x seen =
      ((tourAll (tour key next left) (next x) (key x :: seen)).1,
        x :: (tourAll (tour key next left) (next x) (key x :: seen)).2) := by
  rw [tour, if_neg h]

omit [DecidableEq κ] in
/-- What holds of the results of single tours holds of tours one after the other, when it holds of none and
can be put together. -/
theorem tourAll_induction (P : List κ → List κ × List ι → Prop) (xs : List ι) {go : ι → List κ → List κ × List ι}
    (hnil : ∀ seen, P seen (seen, []))
    (happend : ∀ seen mid after a b, P seen (mid, a) → P mid (after, b) → P seen (after, a ++ b))
    (hgo : ∀ x ∈ xs, ∀ seen, P seen (go x seen)) (seen : List κ) :
    P seen (tourAll go xs seen) := by
  induction xs generalizing seen with
  | nil => exact hnil seen
  | cons x xs ih =>
    have hx := hgo x List.mem_cons_self seen
    have hrest := ih (fun y hy => hgo y (List.mem_cons_of_mem x hy)) (go x seen).1
    exact happend _ _ _ _ _ hx hrest

/-- **The keys seen are those of the nodes come to.** -/
theorem tour_seen (left : ℕ) (x : ι) (seen : List κ) :
    (tour key next left x seen).1 = ((tour key next left x seen).2.map key).reverse ++ seen := by
  induction left generalizing x seen with
  | zero => rfl
  | succ left ih =>
    by_cases h : key x ∈ seen
    · rw [tour_seen_again h]
      rfl
    · have hall := tourAll_induction (fun seen out => out.1 = (out.2.map key).reverse ++ seen) (next x)
        (fun _ => rfl) (fun seen mid after a b ha hb => by
          simp only at ha hb ⊢
          rw [hb, ha, List.map_append, List.reverse_append, List.append_assoc])
        (fun y _ seen => ih y seen) (key x :: seen)
      rw [tour_fresh h]
      simp only
      rw [hall, List.map_cons, List.reverse_cons, List.append_assoc]
      rfl

/-- No key is seen twice. -/
theorem tour_seen_nodup {left : ℕ} {x : ι} {seen : List κ} (h : seen.Nodup) :
    (tour key next left x seen).1.Nodup := by
  induction left generalizing x seen with
  | zero => exact h
  | succ left ih =>
    by_cases hx : key x ∈ seen
    · rw [tour_seen_again hx]
      exact h
    · rw [tour_fresh hx]
      exact tourAll_induction (fun seen out => seen.Nodup → out.1.Nodup) (next x) (fun _ h => h)
        (fun _ _ _ _ _ ha hb h => hb (ha h)) (fun y _ seen h => ih h) (key x :: seen)
        (List.nodup_cons.mpr ⟨hx, h⟩)

/-- **No key is come to twice.** -/
theorem tour_nodup (left : ℕ) (x : ι) : ((tour key next left x []).2.map key).Nodup := by
  have hnodup := @tour_seen_nodup ι κ _ key next left x [] List.nodup_nil
  rw [tour_seen, List.append_nil] at hnodup
  exact List.nodup_reverse.mp hnodup

/-- **What holds of the start and along the edges holds of the tour.** -/
theorem tour_of_invariant {P : ι → Prop} (hnext : ∀ x, P x → ∀ y ∈ next x, P y) {left : ℕ} {x : ι}
    (hx : P x) (seen : List κ) : ∀ y ∈ (tour key next left x seen).2, P y := by
  induction left generalizing x seen with
  | zero => exact nofun
  | succ left ih =>
    by_cases h : key x ∈ seen
    · rw [tour_seen_again h]
      exact nofun
    · have hall := tourAll_induction (fun _ out => ∀ y ∈ out.2, P y) (next x) (fun _ => nofun)
        (fun _ _ _ a b ha hb y hy => by
          cases List.mem_append.mp hy with
          | inl hy => exact ha y hy
          | inr hy => exact hb y hy)
        (fun y hy seen => ih (hnext x hx y hy) seen) (key x :: seen)
      rw [tour_fresh h]
      intro y hy
      cases List.mem_cons.mp hy with
      | inl heq =>
        rw [heq]
        exact hx
      | inr hmem => exact hall y hmem

end Tour
