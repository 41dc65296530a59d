import Mathlib

/-!
# First occurrences

`List.eraseDups` keeps the first occurrence of each element.  What is appended to a list counts for
what is new in it only.

* `eraseDups_append_same`: lists with the same first occurrences can be exchanged before an append
* `eraseDups_append_known`, `eraseDups_append_filter`: appended elements that are there already
* `eraseDups_snoc`, `eraseDups_skip`: one element more
-/

namespace Firsts

variable {α : Type*} [DecidableEq α]

theorem removeAll_eq_filter (bs as : List α) : bs.removeAll as = bs.filter fun b => b ∉ as := by
  rw [List.removeAll]
  apply List.filter_congr
  intro b _
  simp

theorem eraseDups_append_same {as as' : List α} (h : as.eraseDups = as'.eraseDups) (bs : List α) :
    (as ++ bs).eraseDups = (as' ++ bs).eraseDups := by
  have hmem : ∀ a, a ∈ as ↔ a ∈ as' := by
    intro a
    rw [← List.mem_eraseDups, h, List.mem_eraseDups]
  have hnew : bs.removeAll as = bs.removeAll as' := by
    rw [removeAll_eq_filter, removeAll_eq_filter]
    apply List.filter_congr
    intro b _
    simp only [hmem]
  rw [List.eraseDups_append, List.eraseDups_append, h, hnew]

theorem eraseDups_append_known {as bs : List α} (h : ∀ b ∈ bs, b ∈ as) :
    (as ++ bs).eraseDups = as.eraseDups := by
  have hnew : bs.removeAll as = [] := by
    rw [removeAll_eq_filter, List.filter_eq_nil_iff]
    intro b hb
    simp [h b hb]
  rw [List.eraseDups_append, hnew, List.eraseDups_nil, List.append_nil]

/-- Leaving out what is there already. -/
theorem eraseDups_append_filter {as bs : List α} {p : α → Bool} (h : ∀ b ∈ bs, ¬ p b → b ∈ as) :
    (as ++ bs.filter p).eraseDups = (as ++ bs).eraseDups := by
  have hnew : (bs.filter p).removeAll as = bs.removeAll as := by
    rw [removeAll_eq_filter, removeAll_eq_filter, List.filter_filter]
    apply List.filter_congr
    intro b hb
    by_cases hp : p b
    · simp [hp]
    · simp [h b hb hp]
  rw [List.eraseDups_append, List.eraseDups_append, hnew]

theorem eraseDups_snoc {as : List α} {a : α} (h : a ∉ as) :
    (as ++ [a]).eraseDups = as.eraseDups ++ [a] := by
  have hnew : [a].removeAll as = [a] := by
    rw [removeAll_eq_filter]
    simp [h]
  rw [List.eraseDups_append, hnew, List.eraseDups_cons]
  rfl

theorem eraseDups_skip {as : List α} {a : α} (h : a ∈ as) (bs : List α) :
    (as ++ a :: bs).eraseDups = (as ++ bs).eraseDups := by
  have hone : (as ++ [a]).eraseDups = as.eraseDups := by
    apply eraseDups_append_known
    intro b hb
    rwa [List.mem_singleton.mp hb]
  rw [List.append_cons]
  exact eraseDups_append_same hone bs

end Firsts
