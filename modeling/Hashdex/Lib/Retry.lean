import Mathlib

/-!
# Loops that try again

A round either ends with a result or leaves another state to try again from.

* `Visits.invariant`: what a round keeps, every state that is tried has
* `loop_ends`: when each round lowers a weight, the loop ends, with a result that some round had
-/

namespace Retry

variable {σ ρ : Type*}

/-- What a round comes to. -/
inductive Outcome (σ ρ : Type*) where
  | done (r : ρ)
  | again (s : σ)

/-- At most so many rounds. -/
def loop (round : σ → Outcome σ ρ) : ℕ → σ → Option ρ
  | 0, _ => none
  | n + 1, s =>
    match round s with
    | .done r => some r
    | .again s' => loop round n s'

/-- The states that rounds are tried from. -/
inductive Visits (round : σ → Outcome σ ρ) (s : σ) : σ → Prop where
  | start : Visits round s s
  | again {t u : σ} : Visits round s t → round t = .again u → Visits round s u

variable {round : σ → Outcome σ ρ} {s : σ}

theorem Visits.invariant {P : σ → Prop} (hs : P s)
    (hround : ∀ t u, P t → round t = .again u → P u) {t : σ} (h : Visits round s t) : P t := by
  induction h with
  | start => exact hs
  | again _ hstep ih => exact hround _ _ ih hstep

theorem Visits.first {t u : σ} (hstep : round s = .again t) (h : Visits round t u) :
    Visits round s u := by
  induction h with
  | start => exact .again .start hstep
  | again _ hnext ih => exact .again ih hnext

/-- **The loop ends.**  A weight that each round lowers bounds the rounds. -/
theorem loop_ends (weight : σ → ℕ)
    (hdown : ∀ t u, Visits round s t → round t = .again u → weight u < weight t) :
    ∃ t r, Visits round s t ∧ round t = .done r ∧ ∀ n, weight s < n → loop round n s = some r := by
  generalize hweight : weight s = m
  induction m using Nat.strongRecOn generalizing s with
  | _ m ih =>
    cases hround : round s with
    | done r =>
      refine ⟨s, r, .start, hround, fun n hn => ?_⟩
      obtain ⟨k, rfl⟩ := Nat.exists_eq_add_one.mpr (show 0 < n by omega)
      rw [loop, hround]
    | again s' =>
      have hless := hdown s s' .start hround
      obtain ⟨t, r, hvisits, hdone, hloop⟩ := ih (weight s') (by omega)
        (fun t u ht => hdown t u (ht.first hround)) rfl
      refine ⟨t, r, hvisits.first hround, hdone, fun n hn => ?_⟩
      obtain ⟨k, rfl⟩ := Nat.exists_eq_add_one.mpr (show 0 < n by omega)
      rw [loop, hround]
      exact hloop k (by omega)

end Retry
