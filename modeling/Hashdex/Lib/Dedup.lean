import Mathlib

/-!
# Dropping repeated neighbours

`dedupRuns` keeps one element of every run of equal neighbours, so on a sorted list one of every
value.
-/

/-- Drop an element equal to its predecessor. -/
def dedupRuns {α : Type*} [DecidableEq α] : List α → List α
  | [] => []
  | [a] => [a]
  | a :: b :: rest => if a = b then dedupRuns (b :: rest) else a :: dedupRuns (b :: rest)

theorem mem_dedupRuns {α : Type*} [DecidableEq α] {a : α} :
    ∀ {l : List α}, a ∈ dedupRuns l ↔ a ∈ l
  | [] => Iff.rfl
  | [_] => Iff.rfl
  | b :: c :: rest => by
    have ih := mem_dedupRuns (a := a) (l := c :: rest)
    rw [dedupRuns]
    split
    · rename_i hbc
      rw [ih]
      subst hbc
      simp
    · rw [List.mem_cons, ih, List.mem_cons (b := b)]

/-- What was sorted has no repetition left. -/
theorem pairwise_dedupRuns {α : Type*} [DecidableEq α] {r : α → α → Prop}
    (antisymm : ∀ a b, r a b → r b a → a = b) :
    ∀ {l : List α}, l.Pairwise r → (dedupRuns l).Pairwise fun a b => r a b ∧ a ≠ b
  | [], _ => List.Pairwise.nil
  | [a], _ => List.pairwise_singleton _ a
  | a :: b :: rest, h => by
    obtain ⟨ha, hrest⟩ := List.pairwise_cons.mp h
    have ih := pairwise_dedupRuns antisymm hrest
    rw [dedupRuns]
    split
    · exact ih
    · rename_i hab
      apply List.pairwise_cons.mpr
      refine ⟨?_, ih⟩
      intro x hx
      have hx' : x ∈ b :: rest := mem_dedupRuns.mp hx
      refine ⟨ha x hx', ?_⟩
      intro hax
      cases List.mem_cons.mp hx' with
      | inl hxb => exact hab (hax.trans hxb)
      | inr hxr =>
        have hbx : r b x := (List.pairwise_cons.mp hrest).1 x hxr
        rw [← hax] at hbx
        exact hab (antisymm a b (ha b List.mem_cons_self) hbx)
