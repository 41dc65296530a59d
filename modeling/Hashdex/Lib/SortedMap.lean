import Mathlib

/-!
# Maps as lists sorted by key

* `lookup_insert`: a key holds what was last inserted under it
* `lookup_grouped`, `mem_grouped`: values pushed under their keys are, under each key, the ones pushed there, in that order
-/

namespace SortedMap

variable {κ β : Type*} [LinearOrder κ]

/-- A value under a key, in place of the one that is there. -/
def insert (k : κ) (v : β) : List (κ × β) → List (κ × β)
  | [] => [(k, v)]
  | x :: xs =>
    if k < x.1 then (k, v) :: x :: xs
    else if k = x.1 then (k, v) :: xs
    else x :: insert k v xs

/-- One more value at the end of those under a key. -/
def push (m : List (κ × List β)) (k : κ) (v : β) : List (κ × List β) :=
  match m with
  | [] => [(k, [v])]
  | x :: xs =>
    if k < x.1 then (k, [v]) :: x :: xs
    else if k = x.1 then (k, x.2 ++ [v]) :: xs
    else x :: push xs k v

/-- The keys stand in order, each once. -/
def Sorted (m : List (κ × β)) : Prop := m.Pairwise fun x y => x.1 < y.1

theorem lookup_cons (x : κ × β) (m : List (κ × β)) (j : κ) :
    (x :: m).lookup j = if j = x.1 then some x.2 else m.lookup j := by
  rw [List.lookup_cons]
  by_cases hj : j = x.1
  · rw [if_pos hj, beq_iff_eq.mpr hj]
  · rw [if_neg hj, beq_false_of_ne hj]

theorem lookup_insert (k : κ) (v : β) (m : List (κ × β)) (j : κ) :
    (insert k v m).lookup j = if j = k then some v else m.lookup j := by
  induction m with
  | nil => rw [insert, lookup_cons]
  | cons x m ih =>
    rw [insert]
    by_cases hlt : k < x.1
    · rw [if_pos hlt, lookup_cons]
    · rw [if_neg hlt]
      by_cases heq : k = x.1
      · rw [if_pos heq, lookup_cons, lookup_cons, heq]
        by_cases hj : j = x.1
        · rw [if_pos hj, if_pos hj]
        · rw [if_neg hj, if_neg hj, if_neg hj]
      · rw [if_neg heq, lookup_cons, lookup_cons, ih]
        by_cases hj : j = x.1
        · rw [if_pos hj, if_pos hj, if_neg (by rw [hj]; exact fun h => heq h.symm)]
        · rw [if_neg hj, if_neg hj]

theorem lookup_foldl_insert (g : κ → β) (ks : List κ) (m : List (κ × β)) (j : κ) :
    (ks.foldl (fun m k => insert k (g k) m) m).lookup j
      = if j ∈ ks then some (g j) else m.lookup j := by
  induction ks generalizing m with
  | nil => rfl
  | cons k ks ih =>
    rw [List.foldl_cons, ih, lookup_insert]
    by_cases hrest : j ∈ ks
    · rw [if_pos hrest, if_pos (List.mem_cons_of_mem k hrest)]
    · by_cases hk : j = k
      · rw [if_neg hrest, if_pos hk, if_pos (by rw [hk]; exact List.mem_cons_self), hk]
      · rw [if_neg hrest, if_neg hk, if_neg fun h => (List.mem_cons.mp h).elim hk hrest]

/-! ### Values pushed under their keys -/

theorem lookup_eq_none {m : List (κ × β)} {k : κ} (h : ∀ x ∈ m, k < x.1) : m.lookup k = none := by
  induction m with
  | nil => rfl
  | cons x m ih =>
    rw [lookup_cons, if_neg (ne_of_lt (h x List.mem_cons_self))]
    exact ih fun y hy => h y (List.mem_cons_of_mem x hy)

theorem lookup_of_mem {m : List (κ × β)} (hm : Sorted m) {x : κ × β} (hx : x ∈ m) :
    m.lookup x.1 = some x.2 := by
  induction m with
  | nil => exact absurd hx List.not_mem_nil
  | cons y m ih =>
    obtain ⟨hhead, hrest⟩ := List.pairwise_cons.mp hm
    rw [lookup_cons]
    cases List.mem_cons.mp hx with
    | inl heq => rw [heq, if_pos rfl]
    | inr hin => rw [if_neg (ne_of_gt (hhead x hin)), ih hrest hin]

theorem mem_of_lookup {m : List (κ × β)} {k : κ} {v : β} (h : m.lookup k = some v) : (k, v) ∈ m := by
  induction m with
  | nil => cases h
  | cons y m ih =>
    rw [lookup_cons] at h
    split_ifs at h with heq
    · cases h
      rw [heq]
      exact List.mem_cons_self
    · exact List.mem_cons_of_mem y (ih h)

theorem lookup_push {m : List (κ × List β)} (hm : Sorted m) (k : κ) (v : β) (j : κ) :
    (push m k v).lookup j = if j = k then some ((m.lookup k).getD [] ++ [v]) else m.lookup j := by
  induction m with
  | nil => rw [push, lookup_cons]; rfl
  | cons x m ih =>
    obtain ⟨hhead, hrest⟩ := List.pairwise_cons.mp hm
    rw [push]
    by_cases hlt : k < x.1
    · have hnone : (x :: m).lookup k = none := by
        apply lookup_eq_none
        intro y hy
        cases List.mem_cons.mp hy with
        | inl h => rwa [h]
        | inr h => exact lt_trans hlt (hhead y h)
      rw [if_pos hlt, lookup_cons, hnone]
      rfl
    · rw [if_neg hlt]
      by_cases heq : k = x.1
      · rw [if_pos heq, lookup_cons, lookup_cons, lookup_cons, heq, if_pos rfl]
        by_cases hj : j = x.1
        · rw [if_pos hj, if_pos hj]
          rfl
        · rw [if_neg hj, if_neg hj, if_neg hj]
      · rw [if_neg heq, lookup_cons, lookup_cons, lookup_cons, ih hrest, if_neg heq]
        by_cases hj : j = x.1
        · rw [if_pos hj, if_pos hj, if_neg (by rw [hj]; exact fun h => heq h.symm)]
        · rw [if_neg hj, if_neg hj]

theorem push_keys {m : List (κ × List β)} {k : κ} {v : β} {x : κ × List β} (h : x ∈ push m k v) :
    x.1 = k ∨ ∃ y ∈ m, y.1 = x.1 := by
  induction m with
  | nil =>
    left
    rw [List.mem_singleton.mp h]
  | cons y m ih =>
    rw [push] at h
    split_ifs at h with hlt heq
    · cases List.mem_cons.mp h with
      | inl h => left; rw [h]
      | inr h => exact .inr ⟨x, h, rfl⟩
    · cases List.mem_cons.mp h with
      | inl h => left; rw [h]
      | inr h => exact .inr ⟨x, List.mem_cons_of_mem y h, rfl⟩
    · cases List.mem_cons.mp h with
      | inl h => exact .inr ⟨y, List.mem_cons_self, by rw [h]⟩
      | inr h =>
        cases ih h with
        | inl h => exact .inl h
        | inr h =>
          obtain ⟨z, hz, heq⟩ := h
          exact .inr ⟨z, List.mem_cons_of_mem y hz, heq⟩

theorem push_sorted {m : List (κ × List β)} (hm : Sorted m) (k : κ) (v : β) : Sorted (push m k v) := by
  induction m with
  | nil => exact List.pairwise_singleton _ _
  | cons x m ih =>
    obtain ⟨hhead, hrest⟩ := List.pairwise_cons.mp hm
    rw [push]
    split_ifs with hlt heq
    · apply List.pairwise_cons.mpr
      refine ⟨fun y hy => ?_, hm⟩
      cases List.mem_cons.mp hy with
      | inl h => rwa [h]
      | inr h => exact lt_trans hlt (hhead y h)
    · apply List.pairwise_cons.mpr
      refine ⟨fun y hy => ?_, hrest⟩
      rw [heq]
      exact hhead y hy
    · apply List.pairwise_cons.mpr
      refine ⟨fun y hy => ?_, ih hrest⟩
      cases push_keys hy with
      | inl h => rw [h]; exact lt_of_le_of_ne (not_lt.mp hlt) fun h => heq h.symm
      | inr h =>
        obtain ⟨z, hz, h⟩ := h
        rw [← h]
        exact hhead z hz

/-- Each value pushed under its key, one after the other. -/
def grouped (xs : List (κ × β)) : List (κ × List β) := xs.foldl (fun m x => push m x.1 x.2) []

theorem grouped_sorted (xs : List (κ × β)) : Sorted (grouped xs) := by
  unfold grouped
  induction xs using List.reverseRecOn with
  | nil => exact .nil
  | append_singleton xs x ih =>
    rw [List.foldl_append]
    exact push_sorted ih x.1 x.2

/-- **What stands under a key** are the values that were pushed there. -/
theorem lookup_grouped (xs : List (κ × β)) (k : κ) :
    (grouped xs).lookup k = if k ∈ xs.map Prod.fst
      then some ((xs.filter fun x => x.1 = k).map Prod.snd) else none := by
  induction xs using List.reverseRecOn with
  | nil => rfl
  | append_singleton xs x ih =>
    have hstep : grouped (xs ++ [x]) = push (grouped xs) x.1 x.2 := by
      unfold grouped
      rw [List.foldl_append]
      rfl
    have hnone : ∀ {j}, j ∉ xs.map Prod.fst → xs.filter (fun y => y.1 = j) = [] := by
      intro j hj
      apply List.filter_eq_nil_iff.mpr
      intro y hy
      have hne : y.1 ≠ j := fun h => hj (by rw [← h]; exact List.mem_map_of_mem hy)
      simp [hne]
    have hmem : k ∈ (xs ++ [x]).map Prod.fst ↔ k ∈ xs.map Prod.fst ∨ k = x.1 := by
      rw [List.map_append, List.mem_append]
      exact or_congr_right List.mem_singleton
    rw [hstep, lookup_push (grouped_sorted xs), List.filter_append]
    by_cases hk : k = x.1
    · have hlast : [x].filter (fun y => decide (y.1 = k)) = [x] := by simp [hk]
      rw [if_pos hk, if_pos (hmem.mpr (.inr hk)), ← hk, ih, hlast, List.map_append]
      by_cases hin : k ∈ xs.map Prod.fst
      · rw [if_pos hin]
        rfl
      · rw [if_neg hin, hnone hin]
        rfl
    · have hlast : [x].filter (fun y => decide (y.1 = k)) = [] := by
        simp only [List.filter_cons, decide_eq_true_eq, if_neg fun h : x.1 = k => hk h.symm,
          List.filter_nil]
      rw [if_neg hk, ih, hlast, List.append_nil]
      by_cases hin : k ∈ xs.map Prod.fst
      · rw [if_pos hin, if_pos (hmem.mpr (.inl hin))]
      · rw [if_neg hin, if_neg fun h => (hmem.mp h).elim hin hk]

/-- The values under a key of the map. -/
theorem mem_grouped {xs : List (κ × β)} {k : κ} {vs : List β} :
    (k, vs) ∈ grouped xs ↔ vs = (xs.filter fun x => x.1 = k).map Prod.snd ∧ k ∈ xs.map Prod.fst := by
  constructor
  · intro h
    have hlookup := lookup_of_mem (grouped_sorted xs) h
    rw [lookup_grouped] at hlookup
    split_ifs at hlookup with hin
    exact ⟨(Option.some.inj hlookup).symm, hin⟩
  · intro ⟨hvs, hin⟩
    apply mem_of_lookup
    rw [lookup_grouped, if_pos hin, hvs]

end SortedMap
