import Mathlib

/-!
# Equal elements of a sorted list

In a list sorted by an antisymmetric relation the elements equal to a given one stand next to each other.

* `exists_run`: what is before them, they, and what is after them
* `filter_range_run`: the places where they stand
-/

namespace SortedRuns

variable {α : Type*} {le : α → α → Prop}

/-- **One run.**  Before it and after it nothing is equal to `k`. -/
theorem exists_run [DecidableEq α] (antisymm : ∀ a b, le a b → le b a → a = b) {xs : List α}
    (h : xs.Pairwise le) (k : α) :
    ∃ pre n post, xs = pre ++ List.replicate n k ++ post ∧ k ∉ pre ∧ k ∉ post := by
  induction xs with
  | nil => exact ⟨[], 0, [], rfl, List.not_mem_nil, List.not_mem_nil⟩
  | cons x xs ih =>
    obtain ⟨hfirst, hrest⟩ := List.pairwise_cons.mp h
    obtain ⟨pre, n, post, hxs, hpre, hpost⟩ := ih hrest
    by_cases hx : x = k
    · by_cases hn : n = 0
      · refine ⟨[], 1, pre ++ post, ?_, List.not_mem_nil, fun hmem => ?_⟩
        · rw [hxs, hx, hn]
          simp
        · exact (List.mem_append.mp hmem).elim hpre hpost
      · have hempty : pre = [] := by
          -- what is between two equal elements is equal to them
          apply List.eq_nil_iff_forall_not_mem.mpr
          intro p hp
          have hbelow : le x p := hfirst p (by rw [hxs]; simp [hp])
          have habove : le p k := by
            rw [hxs, List.append_assoc] at hrest
            apply (List.pairwise_append.mp hrest).2.2 p hp k
            exact List.mem_append_left _ (List.mem_replicate.mpr ⟨hn, rfl⟩)
          rw [hx] at hbelow
          exact hpre (by rw [antisymm k p hbelow habove]; exact hp)
        refine ⟨[], n + 1, post, ?_, List.not_mem_nil, hpost⟩
        rw [hxs, hempty, hx, List.replicate_succ]
        rfl
    · refine ⟨x :: pre, n, post, by rw [hxs]; rfl, fun hmem => ?_, hpost⟩
      cases List.mem_cons.mp hmem with
      | inl heq => exact hx heq.symm
      | inr hin => exact hpre hin

/-- The run's places are the ones where the list has `k`. -/
theorem filter_range_run [DecidableEq α] {pre post : List α} {n : ℕ} {k : α} (hpre : k ∉ pre)
    (hpost : k ∉ post) :
    (List.range (pre ++ List.replicate n k ++ post).length).filter
        (fun i => (pre ++ List.replicate n k ++ post)[i]? = some k)
      = List.range' pre.length n := by
  have hlength : (pre ++ List.replicate n k ++ post).length = pre.length + (n + post.length) := by
    simp only [List.length_append, List.length_replicate]
    omega
  have hbefore : (List.range' 0 pre.length).filter
      (fun i => (pre ++ List.replicate n k ++ post)[i]? = some k) = [] := by
    apply List.filter_eq_nil_iff.mpr
    intro i hi
    have hlt : i < pre.length := by simpa using hi
    rw [List.append_assoc, List.getElem?_append_left hlt, decide_eq_true_eq]
    exact fun h => hpre (List.mem_of_getElem? h)
  have hrun : (List.range' pre.length n).filter
      (fun i => (pre ++ List.replicate n k ++ post)[i]? = some k) = List.range' pre.length n := by
    apply List.filter_eq_self.mpr
    intro i hi
    obtain ⟨hle, hlt⟩ := List.mem_range'_1.mp hi
    rw [List.append_assoc, List.getElem?_append_right hle,
      List.getElem?_append_left (by rw [List.length_replicate]; omega), decide_eq_true_eq,
      List.getElem?_replicate, if_pos (by omega)]
  have hafter : (List.range' (pre.length + n) post.length).filter
      (fun i => (pre ++ List.replicate n k ++ post)[i]? = some k) = [] := by
    apply List.filter_eq_nil_iff.mpr
    intro i hi
    obtain ⟨hle, -⟩ := List.mem_range'_1.mp hi
    rw [List.getElem?_append_right (by rw [List.length_append, List.length_replicate]; exact hle),
      decide_eq_true_eq]
    exact fun h => hpost (List.mem_of_getElem? h)
  rw [hlength, List.range_eq_range', ← List.range'_append_1, ← List.range'_append_1, List.filter_append,
    List.filter_append, Nat.zero_add, hbefore, hrun, hafter, List.nil_append, List.append_nil]

end SortedRuns
