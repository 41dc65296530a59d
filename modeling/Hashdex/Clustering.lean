import Mathlib
import Hashdex.Walk

/-!
# Identity clustering is exact

The abstract statement of what clustering is for: two findings are linked when they share an
identity-grade effective coordinate (`Linked`), and a cluster is a class of the reflexive-transitive
closure of that relation.  The union-find, the anchor table and the grouping loop are related to it
one at a time.

* `linkAll_represents` — the forest represents the closure of `Linked`.
* `groupAll_spec` — the grouping loop cuts the indices along the forest's roots.
* `cluster_exact` — the two together, for every iteration order of the hash map.
-/

namespace Hashdex

open ParentForest

/-! ### The abstract relation -/

/-- The coordinates a piece of evidence effectively carries. -/
def Effective (e : Evidence) (c : Coord) : Prop :=
  e.finding.States c ∨
    (c = e.foundAt ∧ ¬ ∃ d, e.finding.States d ∧ d.scheme = c.scheme ∧ d ≠ c)

/-- Findings `i` and `j` share an identity-grade effective coordinate. -/
def Linked (evidence : List Evidence) (i j : ℕ) : Prop :=
  ∃ ei ej c, evidence[i]? = some ei ∧ evidence[j]? = some ej ∧
    isIdentityGrade c.scheme = true ∧ Effective ei c ∧ Effective ej c

theorem Linked.symm {evidence : List Evidence} {i j : ℕ} (h : Linked evidence i j) :
    Linked evidence j i := by
  obtain ⟨ei, ej, c, hi, hj, hg, hci, hcj⟩ := h
  exact ⟨ej, ei, c, hj, hi, hg, hcj, hci⟩

/-- The link relation is symmetric, so its equivalence closure is its reflexive-transitive one. -/
theorem eqvGen_linked {evidence : List Evidence} {i j : ℕ} :
    Relation.EqvGen (Linked evidence) i j ↔ Relation.ReflTransGen (Linked evidence) i j := by
  constructor
  · intro h
    induction h with
    | rel _ _ h => exact Relation.ReflTransGen.single h
    | refl _ => exact Relation.ReflTransGen.refl
    | symm _ _ _ ih => exact Relation.ReflTransGen.mono (fun _ _ h => Linked.symm h) _ _ ih.swap
    | trans _ _ _ _ _ ih₁ ih₂ => exact ih₁.trans ih₂
  · intro h
    induction h with
    | refl => exact Relation.EqvGen.refl _
    | tail _ h ih => exact ih.trans _ _ _ (Relation.EqvGen.rel _ _ h)

/-! ### Effective coordinates as the code computes them -/

theorem mem_sortDedup {c : Coord} {cs : List Coord} : c ∈ sortDedup cs ↔ c ∈ cs := by
  rw [sortDedup, mem_dedupRuns, (List.mergeSort_perm cs coordLe).mem_iff]

theorem mem_coordsOf {e : Evidence} {c : Coord} : c ∈ coordsOf e ↔ Effective e c := by
  unfold coordsOf Effective
  simp only [mem_sortDedup]
  by_cases hcon : ∃ d, e.finding.States d ∧ d.scheme = e.foundAt.scheme ∧ d ≠ e.foundAt
  · have hany : (e.finding.stated.any fun c => c.scheme = e.foundAt.scheme ∧ c ≠ e.foundAt)
        = true := by
      obtain ⟨d, hd, hs, hne⟩ := hcon
      exact List.any_eq_true.mpr ⟨d, hd, by simp [hs, hne]⟩
    rw [hany, if_pos rfl]
    constructor
    · exact Or.inl
    · rintro (h | ⟨rfl, hno⟩)
      · exact h
      · exact absurd hcon hno
  · have hany : (e.finding.stated.any fun c => c.scheme = e.foundAt.scheme ∧ c ≠ e.foundAt)
        = false := by
      rw [List.any_eq_false]
      intro d hd hbad
      have hbad' : d.scheme = e.foundAt.scheme ∧ d ≠ e.foundAt := of_decide_eq_true hbad
      exact hcon ⟨d, hd, hbad'.1, hbad'.2⟩
    rw [hany, if_neg Bool.false_ne_true]
    simp only [List.mem_append, List.mem_singleton]
    constructor
    · rintro (h | rfl)
      · exact Or.inl h
      · exact Or.inr ⟨rfl, hcon⟩
    · rintro (h | ⟨rfl, _⟩)
      · exact Or.inl h
      · exact Or.inr rfl

/-! ### Linking -/

/-- The (finding, coordinate) pairs the linking loop visits, in order. -/
def linkPairs (evidence : List Evidence) : List (ℕ × Coord) :=
  evidence.zipIdx.flatMap fun p => (coordsOf p.1).map fun c => (p.2, c)

/-- Two findings meet in a list of pairs at an identity-grade coordinate. -/
def Meet (pairs : List (ℕ × Coord)) (i j : ℕ) : Prop :=
  ∃ c, isIdentityGrade c.scheme = true ∧ (i, c) ∈ pairs ∧ (j, c) ∈ pairs

theorem linkAll_eq (evidence : List Evidence) :
    linkAll evidence = (linkPairs evidence).foldl (fun st p => linkCoord p.1 st p.2)
      ⟨singletons evidence.length, []⟩ := by
  unfold linkAll linkPairs
  rw [List.foldl_flatMap]
  congr 1
  funext st p
  rw [List.foldl_map]

theorem mem_linkPairs {evidence : List Evidence} {i : ℕ} {c : Coord} :
    (i, c) ∈ linkPairs evidence ↔ ∃ e, evidence[i]? = some e ∧ Effective e c := by
  simp only [linkPairs, List.mem_flatMap, List.mem_map, Prod.exists, Prod.mk.injEq,
    List.mem_zipIdx_iff_getElem?]
  constructor
  · rintro ⟨e, k, hk, d, hd, rfl, rfl⟩
    exact ⟨e, hk, mem_coordsOf.mp hd⟩
  · rintro ⟨e, he, hc⟩
    exact ⟨e, i, he, c, mem_coordsOf.mpr hc, rfl, rfl⟩

/-- The linking invariant: the forest represents the meetings so far, and the anchor table knows one
finding for every identity-grade coordinate seen. -/
structure LinkInv (n : ℕ) (done : List (ℕ × Coord)) (st : LinkState) : Prop where
  represents : Represents st.parent n (Meet done)
  anchored : ∀ c j, st.anchor.lookup c = some j → isIdentityGrade c.scheme = true ∧ (j, c) ∈ done
  complete : ∀ c j, isIdentityGrade c.scheme = true → (j, c) ∈ done →
    ∃ k, st.anchor.lookup c = some k

theorem Meet.mono {done : List (ℕ × Coord)} {p : ℕ × Coord} {i j : ℕ} (h : Meet done i j) :
    Meet (done ++ [p]) i j := by
  obtain ⟨c, hg, hi, hj⟩ := h
  exact ⟨c, hg, List.mem_append_left _ hi, List.mem_append_left _ hj⟩

/-- The closure after one more pair: when the coordinate was already anchored at `j`, the pair adds
the link `i – j` and nothing else. -/
theorem eqvGen_meet_snoc {done : List (ℕ × Coord)} {i j : ℕ} {c : Coord}
    (hg : isIdentityGrade c.scheme = true) (hj : (j, c) ∈ done) {x y : ℕ} :
    Relation.EqvGen (fun x y => Meet done x y ∨ (x = i ∧ y = j)) x y ↔
      Relation.EqvGen (Meet (done ++ [(i, c)])) x y := by
  have hij : Meet (done ++ [(i, c)]) i j :=
    ⟨c, hg, List.mem_append_right _ (List.mem_singleton_self _), List.mem_append_left _ hj⟩
  constructor
  · intro h
    induction h with
    | rel x y h =>
      rcases h with h | ⟨rfl, rfl⟩
      · exact Relation.EqvGen.rel _ _ h.mono
      · exact Relation.EqvGen.rel _ _ hij
    | refl x => exact Relation.EqvGen.refl _
    | symm _ _ _ ih => exact ih.symm
    | trans _ _ _ _ _ ih₁ ih₂ => exact ih₁.trans _ _ _ ih₂
  · intro h
    have hlink : Relation.EqvGen (fun x y => Meet done x y ∨ (x = i ∧ y = j)) i j :=
      Relation.EqvGen.rel _ _ (Or.inr ⟨rfl, rfl⟩)
    -- an end of the pair at coordinate `c` is connected to the anchor `j`
    have hend : ∀ {x}, (x, c) ∈ done ++ [(i, c)] →
        Relation.EqvGen (fun x y => Meet done x y ∨ (x = i ∧ y = j)) x j := by
      intro x hx
      rcases List.mem_append.mp hx with hx | hx
      · exact Relation.EqvGen.rel _ _ (Or.inl ⟨c, hg, hx, hj⟩)
      · simp only [List.mem_singleton, Prod.mk.injEq] at hx
        rw [hx.1]
        exact hlink
    induction h with
    | rel x y h =>
      obtain ⟨d, hgd, hx, hy⟩ := h
      by_cases hdc : d = c
      · subst hdc
        exact (hend hx).trans _ _ _ (hend hy).symm
      · have hold : ∀ {x}, (x, d) ∈ done ++ [(i, c)] → (x, d) ∈ done := by
          intro x hx
          rcases List.mem_append.mp hx with hx | hx
          · exact hx
          · simp only [List.mem_singleton, Prod.mk.injEq] at hx
            exact absurd hx.2 hdc
        exact Relation.EqvGen.rel _ _ (Or.inl ⟨d, hgd, hold hx, hold hy⟩)
    | refl x => exact Relation.EqvGen.refl _
    | symm _ _ _ ih => exact ih.symm
    | trans _ _ _ _ _ ih₁ ih₂ => exact ih₁.trans _ _ _ ih₂

/-- A pair that brings a new coordinate, or a weak one, meets nobody else. -/
theorem meet_snoc_new {done : List (ℕ × Coord)} {i : ℕ} {c : Coord}
    (hnew : isIdentityGrade c.scheme = true → ∀ j, (j, c) ∉ done) {x y : ℕ} :
    Relation.EqvGen (Meet done) x y ↔ Relation.EqvGen (Meet (done ++ [(i, c)])) x y := by
  constructor
  · exact Relation.EqvGen.mono (fun _ _ h => h.mono) x y
  · intro h
    induction h with
    | rel x y h =>
      obtain ⟨d, hgd, hx, hy⟩ := h
      by_cases hdc : d = c
      · subst hdc
        have hself : ∀ {x}, (x, d) ∈ done ++ [(i, d)] → x = i := by
          intro x hx
          rcases List.mem_append.mp hx with hx | hx
          · exact absurd hx (hnew hgd x)
          · simp only [List.mem_singleton, Prod.mk.injEq] at hx
            exact hx.1
        rw [hself hx, hself hy]
        exact Relation.EqvGen.refl _
      · have hold : ∀ {x}, (x, d) ∈ done ++ [(i, c)] → (x, d) ∈ done := by
          intro x hx
          rcases List.mem_append.mp hx with hx | hx
          · exact hx
          · simp only [List.mem_singleton, Prod.mk.injEq] at hx
            exact absurd hx.2 hdc
        exact Relation.EqvGen.rel _ _ ⟨d, hgd, hold hx, hold hy⟩
    | refl x => exact Relation.EqvGen.refl _
    | symm _ _ _ ih => exact ih.symm
    | trans _ _ _ _ _ ih₁ ih₂ => exact ih₁.trans _ _ _ ih₂

/-- **One step of the linking loop.** -/
theorem LinkInv.step {n : ℕ} {done : List (ℕ × Coord)} {st : LinkState}
    (h : LinkInv n done st) (hdone : ∀ p ∈ done, p.1 < n) {i : ℕ} (hi : i < n) (c : Coord) :
    LinkInv n (done ++ [(i, c)]) (linkCoord i st c) := by
  unfold linkCoord
  by_cases hg : isIdentityGrade c.scheme = true
  · rw [if_pos hg]
    cases hl : st.anchor.lookup c with
    | some j =>
      obtain ⟨_, hj⟩ := h.anchored c j hl
      refine ⟨?_, fun d k hk => ?_, fun d k hgd hk => ?_⟩
      · exact (h.represents.union hi (hdone _ hj)).congr
          fun x y => eqvGen_meet_snoc hg hj
      · obtain ⟨h₁, h₂⟩ := h.anchored d k hk
        exact ⟨h₁, List.mem_append_left _ h₂⟩
      · rcases List.mem_append.mp hk with hk | hk
        · exact h.complete d k hgd hk
        · simp only [List.mem_singleton, Prod.mk.injEq] at hk
          exact ⟨j, by rw [hk.2]; exact hl⟩
    | none =>
      have hnew : ∀ j, (j, c) ∉ done := by
        intro j hj
        obtain ⟨k, hk⟩ := h.complete c j hg hj
        rw [hl] at hk
        cases hk
      refine ⟨h.represents.congr fun x y => meet_snoc_new fun _ => hnew,
        fun d k hk => ?_, fun d k hgd hk => ?_⟩
      · simp only [List.lookup_cons] at hk
        by_cases hdc : d = c
        · subst hdc
          simp only [beq_self_eq_true] at hk
          rw [← Option.some.inj hk]
          exact ⟨hg, List.mem_append_right _ (List.mem_singleton_self _)⟩
        · rw [beq_eq_false_iff_ne.mpr hdc] at hk
          obtain ⟨h₁, h₂⟩ := h.anchored d k hk
          exact ⟨h₁, List.mem_append_left _ h₂⟩
      · simp only [List.lookup_cons]
        by_cases hdc : d = c
        · exact ⟨i, by rw [hdc, beq_self_eq_true]⟩
        · rw [beq_eq_false_iff_ne.mpr hdc]
          rcases List.mem_append.mp hk with hk | hk
          · exact h.complete d k hgd hk
          · simp only [List.mem_singleton, Prod.mk.injEq] at hk
            exact absurd hk.2 hdc
  · rw [if_neg hg]
    refine ⟨h.represents.congr fun x y => meet_snoc_new fun hg' => absurd hg' hg,
      fun d k hk => ?_, fun d k hgd hk => ?_⟩
    · obtain ⟨h₁, h₂⟩ := h.anchored d k hk
      exact ⟨h₁, List.mem_append_left _ h₂⟩
    · rcases List.mem_append.mp hk with hk | hk
      · exact h.complete d k hgd hk
      · simp only [List.mem_singleton, Prod.mk.injEq] at hk
        rw [hk.2] at hgd
        exact absurd hgd hg

theorem LinkInv.foldl {n : ℕ} (pairs : List (ℕ × Coord)) :
    ∀ {done : List (ℕ × Coord)} {st : LinkState}, LinkInv n done st →
      (∀ p ∈ done ++ pairs, p.1 < n) →
      LinkInv n (done ++ pairs) (pairs.foldl (fun st p => linkCoord p.1 st p.2) st) := by
  induction pairs with
  | nil =>
    intro done st h _
    rwa [List.append_nil]
  | cons p pairs ih =>
    intro done st h hlt
    have hp : p.1 < n := hlt p (by simp)
    have hstep := h.step (fun q hq => hlt q (List.mem_append_left _ hq)) hp p.2
    have := ih hstep (by
      intro q hq
      apply hlt
      simpa [List.append_assoc] using hq)
    simpa [List.append_assoc] using this

/-- **The forest represents the closure of the link relation.** -/
theorem linkAll_represents (evidence : List Evidence) :
    Represents (linkAll evidence).parent evidence.length (Linked evidence) := by
  have hinit : LinkInv evidence.length [] ⟨singletons evidence.length, []⟩ := by
    refine ⟨(represents_singletons _).congr fun i j => ?_, fun c j h => ?_, fun c j _ h => ?_⟩
    · have hempty : (fun _ _ : ℕ => False) = Meet [] := by
        funext x y
        simp [Meet]
      rw [hempty]
    · simp at h
    · simp at h
  have hlt : ∀ p ∈ ([] : List (ℕ × Coord)) ++ linkPairs evidence, p.1 < evidence.length := by
    rintro ⟨i, c⟩ hp
    obtain ⟨e, he, _⟩ := mem_linkPairs.mp (by simpa using hp)
    exact (List.getElem?_eq_some_iff.mp he).1
  have h := hinit.foldl (linkPairs evidence) hlt
  rw [linkAll_eq]
  refine h.represents.congr fun i j => ?_
  have hrel : Meet ([] ++ linkPairs evidence) = Linked evidence := by
    funext x y
    simp only [Meet, Linked, List.nil_append, mem_linkPairs, eq_iff_iff]
    constructor
    · rintro ⟨c, hg, ⟨ei, hi, hci⟩, ⟨ej, hj, hcj⟩⟩
      exact ⟨ei, ej, c, hi, hj, hg, hci, hcj⟩
    · rintro ⟨ei, ej, c, hi, hj, hg, hci, hcj⟩
      exact ⟨c, hg, ⟨ei, hi, hci⟩, ⟨ej, hj, hcj⟩⟩
  rw [hrel]

/-! ### Grouping -/

theorem pushGroup_flatten (root i : ℕ) (gs : List (ℕ × List ℕ)) :
    ((pushGroup root i gs).map Prod.snd).flatten.Perm ((gs.map Prod.snd).flatten ++ [i]) := by
  induction gs with
  | nil => simp [pushGroup]
  | cons kg gs ih =>
    obtain ⟨k, g⟩ := kg
    rw [pushGroup]
    split
    · simp only [List.map_cons, List.flatten_cons, List.append_assoc]
      exact List.Perm.append_left g List.perm_append_comm
    · simp only [List.map_cons, List.flatten_cons, List.append_assoc]
      exact List.Perm.append_left g ih

theorem pushGroup_keys (root i : ℕ) (gs : List (ℕ × List ℕ)) :
    (pushGroup root i gs).map Prod.fst =
      if root ∈ gs.map Prod.fst then gs.map Prod.fst else gs.map Prod.fst ++ [root] := by
  induction gs with
  | nil => simp [pushGroup]
  | cons kg gs ih =>
    obtain ⟨k, g⟩ := kg
    rw [pushGroup]
    by_cases hk : k = root
    · simp [hk]
    · have hk' : ¬ root = k := fun h => hk h.symm
      rw [if_neg hk, List.map_cons, ih]
      by_cases hm : root ∈ gs.map Prod.fst <;> simp [hk', hm]

theorem mem_pushGroup {root i : ℕ} {gs : List (ℕ × List ℕ)} {k : ℕ} {g : List ℕ}
    (h : (k, g) ∈ pushGroup root i gs) :
    (k, g) ∈ gs ∨ (k = root ∧ ∃ g', g = g' ++ [i] ∧ (g' = [] ∨ (root, g') ∈ gs)) := by
  induction gs with
  | nil =>
    simp only [pushGroup, List.mem_singleton, Prod.mk.injEq] at h
    exact Or.inr ⟨h.1, [], by simpa using h.2, Or.inl rfl⟩
  | cons kg gs ih =>
    obtain ⟨k', g'⟩ := kg
    rw [pushGroup] at h
    split at h
    · rename_i hk
      rcases List.mem_cons.mp h with h | h
      · simp only [Prod.mk.injEq] at h
        exact Or.inr ⟨by omega, g', h.2, Or.inr (by simp [hk])⟩
      · exact Or.inl (List.mem_cons_of_mem _ h)
    · rcases List.mem_cons.mp h with h | h
      · exact Or.inl (by rw [h]; exact List.mem_cons_self)
      · rcases ih h with h | ⟨hk, g'', hg, hm⟩
        · exact Or.inl (List.mem_cons_of_mem _ h)
        · exact Or.inr ⟨hk, g'', hg, hm.imp id (List.mem_cons_of_mem _)⟩

/-- The grouping invariant after the indices `done`: one group for each root met, holding exactly
the indices below it. -/
structure GroupInv (p : List ℕ) (rank : ℕ → ℕ) (done : List ℕ)
    (st : List ℕ × List (ℕ × List ℕ)) : Prop where
  compressed : Compressed p st.1 rank
  flat : (st.2.map Prod.snd).flatten.Perm done
  keys : (st.2.map Prod.fst).Nodup
  roots : ∀ k g, (k, g) ∈ st.2 → ∀ i ∈ g, Root p i k
  nonempty : ∀ k g, (k, g) ∈ st.2 → g ≠ []

theorem GroupInv.step {p : List ℕ} {rank : ℕ → ℕ} (hp : Ranked p rank) {done : List ℕ}
    {st : List ℕ × List (ℕ × List ℕ)} (h : GroupInv p rank done st) {i : ℕ} (hi : i < p.length) :
    GroupInv p rank (done ++ [i]) (groupStep st i) := by
  have hi' : i < st.1.length := by rw [h.compressed.length]; exact hi
  obtain ⟨hc, hr⟩ := find_spec h.compressed.ranked hi'
  have hroot : Root p i (ParentForest.find st.1 i).2 := (h.compressed.root_iff hp hi).mp hr
  refine ⟨⟨hc.length.trans h.compressed.length, hc.ranked,
    fun j s hjs => hc.roots _ _ (h.compressed.roots _ _ hjs)⟩, ?_, ?_, ?_, ?_⟩
  · exact (pushGroup_flatten _ i st.2).trans (h.flat.append_right [i])
  · simp only [groupStep, pushGroup_keys]
    split
    · exact h.keys
    · rename_i hk
      exact List.nodup_append.mpr ⟨h.keys, List.nodup_singleton _, by
        intro a ha b hb
        rw [List.mem_singleton.mp hb]
        rintro rfl
        exact hk ha⟩
  · intro k g hkg j hj
    rcases mem_pushGroup hkg with hkg | ⟨rfl, g', rfl, hg'⟩
    · exact h.roots k g hkg j hj
    · rcases List.mem_append.mp hj with hj | hj
      · rcases hg' with rfl | hg'
        · simp at hj
        · exact h.roots _ _ hg' j hj
      · rw [List.mem_singleton.mp hj]
        exact hroot
  · intro k g hkg
    rcases mem_pushGroup hkg with hkg | ⟨_, g', rfl, _⟩
    · exact h.nonempty k g hkg
    · simp

theorem GroupInv.foldl {p : List ℕ} {rank : ℕ → ℕ} (hp : Ranked p rank) (todo : List ℕ) :
    ∀ {done : List ℕ} {st : List ℕ × List (ℕ × List ℕ)}, GroupInv p rank done st →
      (∀ i ∈ todo, i < p.length) →
      GroupInv p rank (done ++ todo) (todo.foldl groupStep st) := by
  induction todo with
  | nil =>
    intro done st h _
    rwa [List.append_nil]
  | cons i todo ih =>
    intro done st h hlt
    have hstep := h.step hp (hlt i List.mem_cons_self)
    have := ih hstep (fun j hj => hlt j (List.mem_cons_of_mem _ hj))
    simpa [List.append_assoc] using this

/-- **The grouping loop cuts `0 … n-1` along the classes of the forest.** -/
theorem groupAll_spec {p : List ℕ} {n : ℕ} {R : ℕ → ℕ → Prop} (h : Represents p n R) :
    (((groupAll p n).map Prod.snd).flatten.Perm (List.range n)) ∧
    (∀ g ∈ (groupAll p n).map Prod.snd, g ≠ []) ∧
    (∀ i j, i < n → j < n →
      ((∃ g ∈ (groupAll p n).map Prod.snd, i ∈ g ∧ j ∈ g) ↔ Relation.EqvGen R i j)) := by
  obtain ⟨rank, hp⟩ := h.ranked
  have hinit : GroupInv p rank [] (p, []) :=
    ⟨⟨rfl, hp, fun _ _ h => h⟩, by simp, by simp, by simp, by simp⟩
  have hinv := hinit.foldl hp (List.range n)
    (fun i hi => by rw [h.length]; exact List.mem_range.mp hi)
  rw [List.nil_append] at hinv
  refine ⟨hinv.flat, ?_, fun i j hi hj => ?_⟩
  · intro g hg
    obtain ⟨⟨k, g'⟩, hkg, rfl⟩ := List.mem_map.mp hg
    exact hinv.nonempty k g' hkg
  · have hmem : ∀ i, i < n → ∃ k g, (k, g) ∈ groupAll p n ∧ i ∈ g := by
      intro i hi
      have hf : i ∈ ((groupAll p n).map Prod.snd).flatten :=
        hinv.flat.mem_iff.mpr (List.mem_range.mpr hi)
      obtain ⟨g, hg, hig⟩ := List.mem_flatten.mp hf
      obtain ⟨⟨k, g'⟩, hkg, rfl⟩ := List.mem_map.mp hg
      exact ⟨k, g', hkg, hig⟩
    constructor
    · rintro ⟨g, hg, hig, hjg⟩
      obtain ⟨⟨k, g'⟩, hkg, rfl⟩ := List.mem_map.mp hg
      exact (h.find_eq_iff hi hj (hinv.roots k g' hkg i hig) (hinv.roots k g' hkg j hjg)).mp rfl
    · intro hij
      obtain ⟨k, g, hkg, hig⟩ := hmem i hi
      obtain ⟨l, g', hlg, hjg⟩ := hmem j hj
      have hkl : k = l := (h.find_eq_iff hi hj (hinv.roots k g hkg i hig)
        (hinv.roots l g' hlg j hjg)).mpr hij
      subst hkl
      have hsame : g = g' := by
        have := List.inj_on_of_nodup_map hinv.keys hkg hlg rfl
        simpa using this
      exact ⟨g, List.mem_map.mpr ⟨(k, g), hkg, rfl⟩, hig, hsame ▸ hjg⟩

/-! ### The clusters -/

/-- The cluster `cl` is what clustering promises for the finding indices `g`. -/
structure ClusterOf (evidence : List Evidence) (queried : Coord) (g : List ℕ) (cl : Cluster) :
    Prop where
  nonempty : g ≠ []
  findings : cl.findings.Perm (g.filterMap fun i => (evidence[i]?).map (·.finding))
  coords : ∀ c, c ∈ cl.coords ↔ ∃ i ∈ g, ∃ e, evidence[i]? = some e ∧ Effective e c
  anchored : cl.anchored = true ↔ ∃ c ∈ cl.coords, isIdentityGrade c.scheme = true
  primary : cl.primary = true ↔ queried ∈ cl.coords

theorem mkCluster_spec (evidence : List Evidence) (queried : Coord) {g : List ℕ} (hg : g ≠ []) :
    ClusterOf evidence queried g (mkCluster evidence queried g) := by
  refine ⟨hg, ?_, fun c => ?_, ?_, ?_⟩
  · exact (List.mergeSort_perm g _).filterMap _
  · simp only [mkCluster, mem_sortDedup, List.mem_flatMap]
    constructor
    · rintro ⟨i, hi, hc⟩
      cases he : evidence[i]? with
      | none => rw [he] at hc; simp at hc
      | some e =>
        rw [he] at hc
        exact ⟨i, hi, e, he, mem_coordsOf.mp hc⟩
    · rintro ⟨i, hi, e, he, hc⟩
      refine ⟨i, hi, ?_⟩
      rw [he]
      exact mem_coordsOf.mpr hc
  · simp [mkCluster, List.any_eq_true]
  · simp [mkCluster]

/-- Permuting a mapped list only reorders what is mapped. -/
theorem exists_perm_map {α β : Type*} {f : α → β} {k m : List β} (h : k.Perm m) :
    ∀ l : List α, k = l.map f → ∃ l' : List α, l'.Perm l ∧ m = l'.map f := by
  induction h with
  | nil =>
    intro l hl
    exact ⟨l, List.Perm.refl _, hl⟩
  | cons b _ ih =>
    intro l hl
    obtain ⟨a, l₁, rfl, rfl, hl₁⟩ := List.map_eq_cons_iff.mp hl.symm
    obtain ⟨l', hp, rfl⟩ := ih l₁ hl₁.symm
    exact ⟨a :: l', hp.cons a, rfl⟩
  | swap b c t =>
    intro l hl
    obtain ⟨x, l₁, rfl, rfl, hl₁⟩ := List.map_eq_cons_iff.mp hl.symm
    obtain ⟨y, l₂, rfl, rfl, rfl⟩ := List.map_eq_cons_iff.mp hl₁
    exact ⟨y :: x :: l₂, List.Perm.swap x y l₂, rfl⟩
  | trans _ _ ih₁ ih₂ =>
    intro l hl
    obtain ⟨l₁, hp₁, h₁⟩ := ih₁ l hl
    obtain ⟨l₂, hp₂, h₂⟩ := ih₂ l₁ h₁
    exact ⟨l₂, hp₂.trans hp₁, h₂⟩

/-- **The clusters are the classes of the chained links.**  Each cluster collects one group of
findings; the groups partition the evidence, and two findings share one exactly when a chain of
links joins them. -/
theorem cluster_groups (order : IterOrder) (evidence : List Evidence) (queried : Coord) :
    ∃ groups : List (List ℕ),
      groups.flatten.Perm (List.range evidence.length) ∧
      List.Forall₂ (ClusterOf evidence queried) groups (cluster order evidence queried).clusters ∧
      (∀ i j, i < evidence.length → j < evidence.length →
        ((∃ g ∈ groups, i ∈ g ∧ j ∈ g) ↔ Relation.ReflTransGen (Linked evidence) i j)) := by
  obtain ⟨hflat, hne, hclass⟩ := groupAll_spec (linkAll_represents evidence)
  set gs := groupAll (linkAll evidence).parent evidence.length with hgs
  have hperm : (cluster order evidence queried).clusters.Perm
      ((gs.map Prod.snd).map (mkCluster evidence queried)) := by
    have h₁ := List.mergeSort_perm
      ((order.perm gs).map fun g => mkCluster evidence queried g.2) clusterLe
    have h₂ := (order.isPerm gs).map fun g => mkCluster evidence queried g.2
    rw [List.map_map]
    exact h₁.trans h₂
  obtain ⟨groups, hgroups, hmap⟩ := exists_perm_map hperm.symm (gs.map Prod.snd) rfl
  refine ⟨groups, (hgroups.flatten).trans hflat, ?_, fun i j hi hj => ?_⟩
  · rw [hmap, List.forall₂_map_right_iff, List.forall₂_same]
    intro g hg
    exact mkCluster_spec evidence queried (hne g (hgroups.mem_iff.mp hg))
  · rw [← eqvGen_linked, ← hclass i j hi hj]
    simp only [hgroups.mem_iff]

/-- **Clustering is exact.**  For every list of evidence, every queried coordinate and every order
the hash map yields its groups in, the clusters are the classes of the reflexive-transitive closure
of "shares an identity-grade effective coordinate": every finding is in exactly one of them, a
cluster is primary exactly when its coordinates contain the queried one, and a collision is reported
exactly for a weak query with two anchored primary clusters. -/
theorem cluster_exact (order : IterOrder) (evidence : List Evidence) (queried : Coord) :
    (∃ groups : List (List ℕ),
      groups.flatten.Perm (List.range evidence.length) ∧
      List.Forall₂ (ClusterOf evidence queried) groups (cluster order evidence queried).clusters ∧
      (∀ i j, i < evidence.length → j < evidence.length →
        ((∃ g ∈ groups, i ∈ g ∧ j ∈ g) ↔ Relation.ReflTransGen (Linked evidence) i j))) ∧
    ((cluster order evidence queried).collision = true ↔
      isIdentityGrade queried.scheme = false ∧
      2 ≤ ((cluster order evidence queried).clusters.filter
        fun cl => cl.anchored && cl.primary).length) := by
  exact ⟨cluster_groups order evidence queried, by simp [cluster]⟩

end Hashdex
