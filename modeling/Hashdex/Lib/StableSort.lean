import Mathlib

/-!
# What a stable sort leaves open

A stable sort puts tied elements in the order they came in, so its result depends on the order of its
input exactly when two unlike elements tie.

* `filter_tied_mergeSort`: the elements tied with a given one keep their order
* `mergeSort_cons_eq`: one more element goes in at one place
* `mergeSort_eq_of_perm`: where only equal elements tie, the order of the input does not matter
* `sort_determined_iff`: and only there
-/

namespace StableSort

variable {α β : Type*} {le : α → α → Bool}

/-- Neither comes before the other. -/
def tied (le : α → α → Bool) (a b : α) : Bool := le a b && le b a

theorem tied_iff {a b : α} : tied le a b = true ↔ le a b = true ∧ le b a = true := by
  rw [tied, Bool.and_eq_true]

section

variable (trans : ∀ a b c : α, le a b → le b c → le a c) (total : ∀ a b : α, le a b || le b a)

include trans total

theorem filter_tied_mergeSort (a : α) (l : List α) :
    (l.mergeSort le).filter (tied le a) = l.filter (tied le a) := by
  have hpairwise : (l.filter (tied le a)).Pairwise fun x y => le x y = true := by
    apply List.pairwise_of_forall_mem_list
    intro x hx y hy
    have hx' := tied_iff.mp (List.mem_filter.mp hx).2
    have hy' := tied_iff.mp (List.mem_filter.mp hy).2
    exact trans x a y hx'.2 hy'.1
  have hsub : (l.filter (tied le a)).Sublist (l.mergeSort le) :=
    List.sublist_mergeSort trans total hpairwise List.filter_sublist
  have hsub' := hsub.filter (tied le a)
  rw [List.filter_filter] at hsub'
  simp only [Bool.and_self] at hsub'
  have hlen : ((l.mergeSort le).filter (tied le a)).length = (l.filter (tied le a)).length :=
    ((List.mergeSort_perm l le).filter _).length_eq
  exact (hsub'.eq_of_length hlen.symm).symm

/-- One more element goes between those before it and the rest. -/
theorem mergeSort_cons_eq (a : α) (l : List α) :
    (a :: l).mergeSort le = (l.mergeSort le).filter (fun b => !le a b) ++
      a :: (l.mergeSort le).filter fun b => le a b := by
  obtain ⟨l₁, l₂, hcons, hl, hbefore⟩ := List.mergeSort_cons trans total a l
  have hsorted := List.pairwise_mergeSort trans total (a :: l)
  rw [hcons] at hsorted
  have hafter : ∀ b ∈ l₂, le a b = true :=
    (List.pairwise_cons.mp (List.pairwise_append.mp hsorted).2.1).1
  have hfirst : ∀ b ∈ l₁, le a b = false := fun b hb => by
    simpa using hbefore b hb
  have hno₁ : l₁.filter (fun b => le a b) = [] :=
    List.filter_eq_nil_iff.mpr fun b hb => by simp [hfirst b hb]
  have hno₂ : l₂.filter (fun b => !le a b) = [] :=
    List.filter_eq_nil_iff.mpr fun b hb => by simp [hafter b hb]
  have hall₁ : l₁.filter (fun b => !le a b) = l₁ :=
    List.filter_eq_self.mpr fun b hb => by simp [hfirst b hb]
  have hall₂ : l₂.filter (fun b => le a b) = l₂ :=
    List.filter_eq_self.mpr fun b hb => hafter b hb
  rw [hcons, hl, List.filter_append, List.filter_append, hno₁, hno₂, hall₁, hall₂,
    List.append_nil, List.nil_append]

/-- Where only equal elements tie. -/
theorem mergeSort_eq_of_perm {k m : List α} (h : k.Perm m)
    (hties : ∀ a ∈ k, ∀ b ∈ k, tied le a b = true → a = b) : k.mergeSort le = m.mergeSort le := by
  have hperm : (k.mergeSort le).Perm (m.mergeSort le) :=
    (List.mergeSort_perm k le).trans (h.trans (List.mergeSort_perm m le).symm)
  apply hperm.eq_of_pairwise
  · intro a b ha hb hab hba
    apply hties a ((List.mergeSort_perm k le).mem_iff.mp ha) b
    · exact h.mem_iff.mpr ((List.mergeSort_perm m le).mem_iff.mp hb)
    · exact tied_iff.mpr ⟨hab, hba⟩
  · exact List.pairwise_mergeSort trans total k
  · exact List.pairwise_mergeSort trans total m

/-- Of the elements tied with each other the first to come in is the first to come out. -/
theorem eq_of_mergeSort_eq {a b : α} {k m : List α} (htied : tied le a b = true)
    (h : (a :: k).mergeSort le = (b :: m).mergeSort le) : a = b := by
  have hab := tied_iff.mp htied
  have hsame : ∀ x, tied le a x = tied le b x := by
    intro x
    rw [Bool.eq_iff_iff, tied_iff, tied_iff]
    constructor
    · exact fun hx => ⟨trans b a x hab.2 hx.1, trans x a b hx.2 hab.1⟩
    · exact fun hx => ⟨trans a b x hab.1 hx.1, trans x b a hx.2 hab.2⟩
  have hself : ∀ x, tied le x x = true := by
    intro x
    have := total x x
    rw [tied]
    simpa using this
  have hfilter : (a :: k).filter (tied le a) = (b :: m).filter (tied le b) := by
    rw [← filter_tied_mergeSort trans total a (a :: k), ← filter_tied_mergeSort trans total b (b :: m),
      h, funext hsame]
  rw [List.filter_cons_of_pos (hself a), List.filter_cons_of_pos (hself b)] at hfilter
  exact (List.cons.inj hfilter).1

/-- **What a stable sort determines.**  Elements that come in any order and are sorted by what `f` makes
of them give one result exactly when `f` makes the same of any two that tie. -/
theorem sort_determined_iff (f : β → α) (l : List β) :
    (∀ k m : List β, k.Perm l → m.Perm l → (k.map f).mergeSort le = (m.map f).mergeSort le) ↔
      ∀ x ∈ l, ∀ y ∈ l, tied le (f x) (f y) = true → f x = f y := by
  constructor
  · intro h x hx y hy htied
    obtain ⟨s, t, rfl⟩ := List.append_of_mem hx
    obtain ⟨s', t', hsplit⟩ := List.append_of_mem hy
    have hfirst := h (x :: (s ++ t)) (y :: (s' ++ t')) List.perm_middle.symm
      (by rw [hsplit]; exact List.perm_middle.symm)
    exact eq_of_mergeSort_eq trans total htied hfirst
  · intro hties k m hk hm
    apply mergeSort_eq_of_perm trans total ((hk.trans hm.symm).map f)
    intro a ha b hb htied
    obtain ⟨x, hx, rfl⟩ := List.mem_map.mp ha
    obtain ⟨y, hy, rfl⟩ := List.mem_map.mp hb
    exact hties x (hk.mem_iff.mp hx) y (hk.mem_iff.mp hy) htied

end

end StableSort
