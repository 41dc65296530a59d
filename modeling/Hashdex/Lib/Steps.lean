import Mathlib

/-!
# Runs of a step function

A system steps by actions, each of which may be impossible in a state.

* `run_invariant`: what a step keeps, a run keeps
* `run_invariant_along`: the same where each step of the run meets a condition
* `run_length_le`: a run whose steps lower a weight is no longer than the weight it starts with
* `run_length_le_along`: the same where each step of the run meets a condition
* `sum_map_set`: a sum over the components of a system in which one steps
-/

namespace Steps

variable {σ α : Type*}

/-- The state after a list of actions, if each of them is possible in its turn. -/
def run (step : σ → α → Option σ) (s : σ) : List α → Option σ
  | [] => some s
  | a :: as =>
    match step s a with
    | none => none
    | some s' => run step s' as

section
variable {step : σ → α → Option σ} {s s' : σ}

theorem run_cons {a : α} {as : List α} :
    run step s (a :: as) = some s' ↔ ∃ t, step s a = some t ∧ run step t as = some s' := by
  rw [run]
  cases step s a with
  | none => simp
  | some t => simp

theorem run_append (as bs : List α) :
    run step s (as ++ bs) = some s' ↔ ∃ t, run step s as = some t ∧ run step t bs = some s' := by
  induction as generalizing s with
  | nil => simp [run]
  | cons a as ih =>
    rw [List.cons_append, run_cons]
    constructor
    · intro h
      obtain ⟨t, hstep, hrest⟩ := h
      obtain ⟨u, hrun, hlast⟩ := ih.mp hrest
      exact ⟨u, run_cons.mpr ⟨t, hstep, hrun⟩, hlast⟩
    · intro h
      obtain ⟨u, hrun, hlast⟩ := h
      obtain ⟨t, hstep, hrest⟩ := run_cons.mp hrun
      exact ⟨t, hstep, ih.mpr ⟨u, hrest, hlast⟩⟩

/-- **What a step keeps, a run keeps.** -/
theorem run_invariant {P : σ → Prop} (hstep : ∀ s a s', P s → step s a = some s' → P s')
    {as : List α} (hs : P s) (h : run step s as = some s') : P s' := by
  induction as generalizing s with
  | nil => cases h; exact hs
  | cons a as ih =>
    obtain ⟨t, ha, hrest⟩ := run_cons.mp h
    exact ih (hstep s a t hs ha) hrest

/-- Each action of the list meets a condition on the state it is taken in. -/
def Along (step : σ → α → Option σ) (C : σ → α → Prop) (s : σ) : List α → Prop
  | [] => True
  | a :: as => C s a ∧ ∀ s', step s a = some s' → Along step C s' as

theorem along_cons {C : σ → α → Prop} {a : α} {as : List α} (hstep : step s a = some s')
    (hC : C s a) (hrest : Along step C s' as) : Along step C s (a :: as) := by
  refine ⟨hC, fun t ht => ?_⟩
  rw [hstep, Option.some.injEq] at ht
  exact ht ▸ hrest

theorem Along.imp {C D : σ → α → Prop} (h : ∀ s a, C s a → D s a) {as : List α}
    (hC : Along step C s as) : Along step D s as := by
  induction as generalizing s with
  | nil => trivial
  | cons a as ih => exact ⟨h s a hC.1, fun s' hstep => ih (hC.2 s' hstep)⟩

/-- **What a step keeps under a condition,** a run keeps whose steps all meet it. -/
theorem run_invariant_along {P : σ → Prop} {C : σ → α → Prop}
    (hstep : ∀ s a s', P s → C s a → step s a = some s' → P s') {as : List α} (hs : P s)
    (hC : Along step C s as) (h : run step s as = some s') : P s' := by
  induction as generalizing s with
  | nil => cases h; exact hs
  | cons a as ih =>
    obtain ⟨t, ha, hrest⟩ := run_cons.mp h
    obtain ⟨hCa, hCas⟩ := hC
    exact ih (hstep s a t hs hCa ha) (hCas t ha) hrest

/-- **A run whose steps lower a weight** is no longer than the weight it starts with. -/
theorem run_length_le {P : σ → Prop} {w : σ → ℕ} {as : List α}
    (hstep : ∀ s, ∀ a ∈ as, ∀ s', P s → step s a = some s' → P s' ∧ w s' < w s)
    (hs : P s) (h : run step s as = some s') : P s' ∧ as.length + w s' ≤ w s := by
  induction as generalizing s with
  | nil => cases h; exact ⟨hs, by simp⟩
  | cons a as ih =>
    obtain ⟨t, ha, hrest⟩ := run_cons.mp h
    obtain ⟨ht, hlt⟩ := hstep s a List.mem_cons_self t hs ha
    obtain ⟨hs', hle⟩ := ih (fun s b hb => hstep s b (List.mem_cons_of_mem _ hb)) ht hrest
    rw [List.length_cons]
    exact ⟨hs', by omega⟩

/-- **A run whose steps lower a weight** where each of them meets a condition. -/
theorem run_length_le_along {P : σ → Prop} {C : σ → α → Prop} {w : σ → ℕ} {as : List α}
    (hstep : ∀ s a s', P s → C s a → step s a = some s' → P s' ∧ w s' < w s) (hs : P s)
    (hC : Along step C s as) (h : run step s as = some s') : P s' ∧ as.length + w s' ≤ w s := by
  induction as generalizing s with
  | nil => cases h; exact ⟨hs, by simp⟩
  | cons a as ih =>
    obtain ⟨t, ha, hrest⟩ := run_cons.mp h
    obtain ⟨hCa, hCas⟩ := hC
    obtain ⟨ht, hlt⟩ := hstep s a t hs hCa ha
    obtain ⟨hs', hle⟩ := ih ht (hCas t ha) hrest
    rw [List.length_cons]
    exact ⟨hs', by omega⟩

end

/-! ### Components -/

/-- Putting another component in place of one changes the sum by the difference of the two. -/
theorem sum_map_set (f : α → ℕ) {xs : List α} {i : ℕ} {x : α} (h : xs[i]? = some x) (y : α) :
    ((xs.set i y).map f).sum + f x = (xs.map f).sum + f y := by
  induction xs generalizing i with
  | nil => simp at h
  | cons z xs ih =>
    cases i with
    | zero =>
      have hz : z = x := by simpa using h
      simp only [List.set_cons_zero, List.map_cons, List.sum_cons, hz]
      omega
    | succ i =>
      have hi : xs[i]? = some x := by simpa using h
      have hsum := ih hi
      simp only [List.set_cons_succ, List.map_cons, List.sum_cons]
      omega

/-- A component of the changed list is the new one, or an old one at another place. -/
theorem getElem?_set_cases {xs : List α} {i j : ℕ} {y z : α} (h : (xs.set i y)[j]? = some z) :
    i = j ∧ z = y ∨ i ≠ j ∧ xs[j]? = some z := by
  rw [List.getElem?_set] at h
  by_cases hij : i = j
  · left
    rw [if_pos hij] at h
    split at h
    · exact ⟨hij, (Option.some.inj h).symm⟩
    · cases h
  · rw [if_neg hij] at h
    exact Or.inr ⟨hij, h⟩

end Steps
