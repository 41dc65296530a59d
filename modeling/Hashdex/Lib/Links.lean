import Mathlib

/-!
# Chains of links

A partial map leads from each place to the next one or nowhere.

* `Chain.unique`, `Chain.nodup`: from a place there is at most one chain, and it repeats no place
* `Chain.mem_iff_reach`: a chain is what can be reached
* `Chain.acyclic`, `exists_chain`: there is a chain where no loop can be reached
-/

namespace Links

variable {α : Type*} (next : α → Option α)

/-- The places from `a` on, up to one that leads nowhere. -/
inductive Chain : α → List α → Prop
  | last {a : α} : next a = none → Chain a [a]
  | link {a b : α} {xs : List α} : next a = some b → Chain b xs → Chain a (a :: xs)

/-- `a` leads to `b`. -/
def Leads (a b : α) : Prop := next a = some b

/-- `b` can be reached from `a`. -/
abbrev Reach : α → α → Prop := Relation.ReflTransGen (Leads next)

variable {next}

/-- **A place that leads nowhere comes last** of all that can be reached. -/
theorem Reach.last {a b c : α} (hb : Reach next a b) (hnone : next b = none) (hc : Reach next a c) :
    Reach next c b := by
  have hunique : Relator.RightUnique (Leads next) := by
    intro x y z hy hz
    rw [Leads, hz] at hy
    exact (Option.some.inj hy).symm
  cases Relation.ReflTransGen.total_of_right_unique hunique hb hc with
  | inr hcb => exact hcb
  | inl hbc =>
    cases hbc.cases_head with
    | inl heq =>
      rw [heq]
    | inr hsome =>
      obtain ⟨d, hd, -⟩ := hsome
      rw [Leads, hnone] at hd
      cases hd

theorem Chain.exists_eq_cons {a : α} {xs : List α} (h : Chain next a xs) : ∃ ys, xs = a :: ys := by
  cases h with
  | last => exact ⟨[], rfl⟩
  | link => exact ⟨_, rfl⟩

theorem Chain.unique {a : α} {xs ys : List α} (h : Chain next a xs) (h' : Chain next a ys) : xs = ys := by
  induction h generalizing ys with
  | last hnone =>
    cases h' with
    | last => rfl
    | link hsome =>
      rw [hnone] at hsome
      cases hsome
  | link hsome _ ih =>
    cases h' with
    | last hnone =>
      rw [hnone] at hsome
      cases hsome
    | link hsome' htail =>
      rw [hsome] at hsome'
      cases hsome'
      rw [ih htail]

/-- A place on a chain begins the rest of it. -/
theorem Chain.suffix {a b : α} {xs : List α} (h : Chain next a xs) (hb : b ∈ xs) :
    ∃ ys, ys <:+ xs ∧ Chain next b ys := by
  induction h with
  | last hnone =>
    rw [List.mem_singleton.mp hb]
    exact ⟨_, List.suffix_rfl, .last hnone⟩
  | @link a c tail hsome htail ih =>
    cases List.mem_cons.mp hb with
    | inl heq =>
      rw [heq]
      exact ⟨_, List.suffix_rfl, .link hsome htail⟩
    | inr hmem =>
      obtain ⟨ys, hsuffix, hchain⟩ := ih hmem
      exact ⟨ys, hsuffix.trans (List.suffix_cons a tail), hchain⟩

/-- **A chain repeats no place.** -/
theorem Chain.nodup {a : α} {xs : List α} (h : Chain next a xs) : xs.Nodup := by
  induction h with
  | last => exact List.nodup_singleton _
  | @link a b tail hsome htail ih =>
    refine List.nodup_cons.mpr ⟨?_, ih⟩
    intro hmem
    obtain ⟨ys, hsuffix, hchain⟩ := htail.suffix hmem
    have hlong : (a :: tail).length ≤ tail.length := by
      rw [Chain.unique (.link hsome htail) hchain]
      exact hsuffix.length_le
    rw [List.length_cons] at hlong
    omega

theorem Chain.reach {a b : α} {xs : List α} (h : Chain next a xs) (hb : b ∈ xs) : Reach next a b := by
  induction h with
  | last =>
    rw [List.mem_singleton.mp hb]
  | link hsome _ ih =>
    cases List.mem_cons.mp hb with
    | inl heq => rw [heq]
    | inr hmem => exact .head hsome (ih hmem)

/-- **A chain is what can be reached.** -/
theorem Chain.mem_iff_reach {a b : α} {xs : List α} (h : Chain next a xs) : b ∈ xs ↔ Reach next a b := by
  constructor
  · exact h.reach
  · intro hreach
    induction hreach with
    | refl =>
      obtain ⟨ys, rfl⟩ := h.exists_eq_cons
      exact List.mem_cons_self
    | @tail b c _ hbc ih =>
      obtain ⟨ys, hsuffix, hchain⟩ := h.suffix ih
      apply hsuffix.subset
      cases hchain with
      | last hnone =>
        rw [Leads, hnone] at hbc
        cases hbc
      | link hsome htail =>
        rw [Leads, hsome] at hbc
        cases hbc
        obtain ⟨zs, rfl⟩ := htail.exists_eq_cons
        exact List.mem_cons_of_mem _ List.mem_cons_self

/-- **No chain comes to a loop.** -/
theorem Chain.acyclic {a b : α} {xs : List α} (h : Chain next a xs) (hb : b ∈ xs) :
    ¬ Relation.TransGen (Leads next) b b := by
  intro hloop
  obtain ⟨ys, -, hchain⟩ := h.suffix hb
  obtain ⟨c, hbc, hcb⟩ := Relation.TransGen.head'_iff.mp hloop
  cases hchain with
  | last hnone =>
    rw [Leads, hnone] at hbc
    cases hbc
  | link hsome htail =>
    rw [Leads, hsome] at hbc
    cases hbc
    have hmem := htail.mem_iff_reach.mpr hcb
    exact (List.nodup_cons.mp (Chain.nodup (.link hsome htail))).1 hmem

/-- A chain inside a finite set is no longer than the set is large. -/
theorem Chain.length_le {a : α} {xs : List α} [DecidableEq α] (h : Chain next a xs) {s : Finset α}
    (hs : ∀ x ∈ xs, x ∈ s) : xs.length ≤ s.card := by
  rw [← List.toFinset_card_of_nodup h.nodup]
  apply Finset.card_le_card
  intro x hx
  exact hs x (List.mem_toFinset.mp hx)

/-- **Among finitely many places there is a chain, unless a loop can be reached.** -/
theorem exists_chain {a : α} (hfin : {b | Reach next a b}.Finite)
    (hloop : ∀ b, Reach next a b → ¬ Relation.TransGen (Leads next) b b) : ∃ xs, Chain next a xs := by
  have : Finite {b // Reach next a b} := hfin
  let after (x y : {b // Reach next a b}) : Prop := Relation.TransGen (Leads next) y.1 x.1
  have : IsTrans _ after := ⟨fun x y z hxy hyz => hyz.trans hxy⟩
  have : Std.Irrefl after := ⟨fun x => hloop x.1 x.2⟩
  have hwf : WellFounded after := Finite.wellFounded_of_trans_of_irrefl after
  suffices hall : ∀ x : {b // Reach next a b}, ∃ xs, Chain next x.1 xs from hall ⟨a, .refl⟩
  intro x
  induction x using hwf.induction with
  | _ x ih =>
    cases hnext : next x.1 with
    | none => exact ⟨_, .last hnext⟩
    | some b =>
      obtain ⟨xs, hxs⟩ := ih ⟨b, x.2.tail hnext⟩ (.single hnext)
      exact ⟨_, .link hnext hxs⟩

end Links
