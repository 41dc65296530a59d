import Mathlib

/-!
# Union-find on a bare parent array

The forest is a list of parent pointers; a root points at itself.  `find` compresses the path it
walks and `union` hangs one root under the other with no rank bookkeeping, so the well-formedness
witness is a rank that exists but is not stored (`Ranked`).

* `Root p i r` is the relational reading of "the chain of `i` ends in `r`".
* `find_spec` says that a `find` returns that root and moves no other root.
* `Represents p n R` says that the classes of the forest are the equivalence closure of `R`;
  `Represents.union` is the one rule a client needs.
-/

namespace ParentForest

/-- The parent of `i`; an index past the end is its own parent. -/
def parent (p : List ℕ) (i : ℕ) : ℕ := p.getD i i

/-- The singleton forest on `n` elements. -/
def singletons (n : ℕ) : List ℕ := List.range n

/-- Chase the parent pointers of `i` and re-point every element on the way at the root.  The fuel
is the length of the array: a chain never visits an element twice. -/
def findLoop : ℕ → List ℕ → ℕ → List ℕ × ℕ
  | 0, p, i => (p, i)
  | fuel + 1, p, i =>
    if parent p i ≠ i then
      let step := findLoop fuel p (parent p i)
      (step.1.set i step.2, step.2)
    else
      (p, i)

def find (p : List ℕ) (i : ℕ) : List ℕ × ℕ := findLoop p.length p i

/-- Hang the root of `a` under the root of `b`. -/
def union (p : List ℕ) (a b : ℕ) : List ℕ :=
  let fa := find p a
  let fb := find fa.1 b
  if fa.2 ≠ fb.2 then fb.1.set fa.2 fb.2 else fb.1

/-! ### Well-formedness and roots -/

/-- Parents stay in range and `rank` grows along every non-root pointer. -/
structure Ranked (p : List ℕ) (rank : ℕ → ℕ) : Prop where
  inRange : ∀ i, i < p.length → parent p i < p.length
  grows : ∀ i, i < p.length → parent p i ≠ i → rank i < rank (parent p i)

/-- The chain of `i` ends in the root `r`. -/
inductive Root (p : List ℕ) : ℕ → ℕ → Prop
  | here {r : ℕ} : parent p r = r → Root p r r
  | up {i r : ℕ} : parent p i ≠ i → Root p (parent p i) r → Root p i r

theorem parent_set_self (p : List ℕ) (i v : ℕ) (hi : i < p.length) :
    parent (p.set i v) i = v := by
  simp [parent, List.getD_eq_getElem?_getD, hi]

theorem parent_set_ne (p : List ℕ) {i j : ℕ} (v : ℕ) (hij : i ≠ j) :
    parent (p.set i v) j = parent p j := by
  simp [parent, List.getD_eq_getElem?_getD, List.getElem?_set_ne hij]

theorem Root.isRoot {p : List ℕ} {i r : ℕ} (h : Root p i r) : parent p r = r := by
  induction h with
  | here hr => exact hr
  | up _ _ ih => exact ih

theorem Root.unique {p : List ℕ} {i r s : ℕ} (hr : Root p i r) (hs : Root p i s) : r = s := by
  induction hr with
  | here h =>
    cases hs with
    | here _ => rfl
    | up hne _ => exact absurd h hne
  | up hne _ ih =>
    cases hs with
    | here h => exact absurd h hne
    | up _ hs => exact ih hs

theorem Root.lt {p : List ℕ} {rank : ℕ → ℕ} (hp : Ranked p rank) {i r : ℕ} (h : Root p i r) :
    i < p.length → r < p.length := by
  induction h with
  | here _ => exact id
  | up _ _ ih => exact fun hi => ih (hp.inRange _ hi)

theorem Root.rank_le {p : List ℕ} {rank : ℕ → ℕ} (hp : Ranked p rank) {i r : ℕ}
    (h : Root p i r) : i < p.length → rank i ≤ rank r ∧ (i ≠ r → rank i < rank r) := by
  induction h with
  | here _ => exact fun _ => ⟨le_rfl, fun hne => absurd rfl hne⟩
  | @up i r hne _ ih =>
    intro hi
    have hstep := hp.grows i hi hne
    have hrest := (ih (hp.inRange i hi)).1
    exact ⟨by omega, fun _ => by omega⟩

/-- The elements of larger rank than `i`: the fuel a `find` from `i` needs. -/
def above (n : ℕ) (rank : ℕ → ℕ) (i : ℕ) : Finset ℕ :=
  (Finset.range n).filter (fun j => rank i < rank j)

theorem above_card_lt {n : ℕ} {rank : ℕ → ℕ} {i j : ℕ} (hj : j < n) (hij : rank i < rank j) :
    (above n rank j).card < (above n rank i).card := by
  apply Finset.card_lt_card
  refine ⟨?_, fun hsub => ?_⟩
  · intro k hk
    simp only [above, Finset.mem_filter] at hk ⊢
    exact ⟨hk.1, lt_trans hij hk.2⟩
  · have hmem : j ∈ above n rank i := by simp [above, hj, hij]
    have := hsub hmem
    simp [above] at this

theorem above_card_bound {n : ℕ} {rank : ℕ → ℕ} {i : ℕ} (hi : i < n) :
    (above n rank i).card < n := by
  have hsub : above n rank i ⊆ (Finset.range n).erase i := by
    intro k hk
    simp only [above, Finset.mem_filter] at hk
    refine Finset.mem_erase.mpr ⟨?_, hk.1⟩
    rintro rfl
    exact lt_irrefl _ hk.2
  have hcard := Finset.card_le_card hsub
  rw [Finset.card_erase_of_mem (Finset.mem_range.mpr hi), Finset.card_range] at hcard
  omega

/-! ### Re-pointing an element at a root -/

/-- Re-pointing `i` at the root of its own chain moves no root. -/
theorem Root.set_own {p : List ℕ} {i r : ℕ}
    (hi : i < p.length) (hr : Root p i r) {j s : ℕ} (h : Root p j s) :
    Root (p.set i r) j s := by
  have hroot : parent (p.set i r) r = r := by
    by_cases hir : i = r
    · rw [hir, parent_set_self p r r (hir ▸ hi)]
    · rw [parent_set_ne p r hir, hr.isRoot]
  induction h with
  | @here s hs =>
    apply Root.here
    by_cases his : i = s
    · subst his
      rw [parent_set_self p i r hi]
      exact hr.unique (Root.here hs)
    · rw [parent_set_ne p r his, hs]
  | @up j s hne hrest ih =>
    by_cases hij : i = j
    · subst hij
      have hrs : r = s := hr.unique (Root.up hne hrest)
      subst hrs
      by_cases hir : i = r
      · exact absurd (hir ▸ hr.isRoot) hne
      · refine Root.up ?_ ?_
        · rw [parent_set_self p i r hi]
          exact fun h => hir h.symm
        · rw [parent_set_self p i r hi]
          exact Root.here hroot
    · refine Root.up ?_ ?_
      · rwa [parent_set_ne p r hij]
      · rwa [parent_set_ne p r hij]

theorem Ranked.set_own {p : List ℕ} {rank : ℕ → ℕ} (hp : Ranked p rank) {i r : ℕ}
    (hi : i < p.length) (hr : Root p i r) : Ranked (p.set i r) rank := by
  constructor
  · intro j hj
    rw [List.length_set] at hj ⊢
    by_cases hij : i = j
    · subst hij
      rw [parent_set_self p i r hi]
      exact hr.lt hp hi
    · rw [parent_set_ne p r hij]
      exact hp.inRange j hj
  · intro j hj hne
    rw [List.length_set] at hj
    by_cases hij : i = j
    · subst hij
      rw [parent_set_self p i r hi] at hne ⊢
      exact (hr.rank_le hp hi).2 (fun h => hne h.symm)
    · rw [parent_set_ne p r hij] at hne ⊢
      exact hp.grows j hj hne

/-- What a call that only compresses paths may do to the forest. -/
structure Compressed (p q : List ℕ) (rank : ℕ → ℕ) : Prop where
  length : q.length = p.length
  ranked : Ranked q rank
  roots : ∀ j s, Root p j s → Root q j s

theorem findLoop_spec {rank : ℕ → ℕ} :
    ∀ (fuel : ℕ) (p : List ℕ) (i : ℕ), Ranked p rank → i < p.length →
      (above p.length rank i).card < fuel →
      Compressed p (findLoop fuel p i).1 rank ∧ Root p i (findLoop fuel p i).2 := by
  intro fuel
  induction fuel with
  | zero => intro p i _ _ hfuel; omega
  | succ fuel ih =>
    intro p i hp hi hfuel
    by_cases hne : parent p i ≠ i
    · have hpi := hp.inRange i hi
      have hlt := above_card_lt hpi (hp.grows i hi hne)
      obtain ⟨hc, hr⟩ := ih p (parent p i) hp hpi (by omega)
      have hir : Root p i (findLoop fuel p (parent p i)).2 := Root.up hne hr
      have hi' : i < (findLoop fuel p (parent p i)).1.length := by rw [hc.length]; exact hi
      simp only [findLoop, if_pos hne]
      refine ⟨⟨?_, ?_, ?_⟩, hir⟩
      · rw [List.length_set, hc.length]
      · exact hc.ranked.set_own hi' (hc.roots _ _ hir)
      · intro j s hjs
        exact Root.set_own hi' (hc.roots _ _ hir) (hc.roots _ _ hjs)
    · simp only [findLoop, if_neg hne]
      exact ⟨⟨rfl, hp, fun _ _ h => h⟩, Root.here (not_not.mp hne)⟩

/-- **`find` returns the root and only compresses.** -/
theorem find_spec {p : List ℕ} {rank : ℕ → ℕ} (hp : Ranked p rank) {i : ℕ} (hi : i < p.length) :
    Compressed p (find p i).1 rank ∧ Root p i (find p i).2 :=
  findLoop_spec p.length p i hp hi (above_card_bound hi)

/-- Every element has a root. -/
theorem exists_root {p : List ℕ} {rank : ℕ → ℕ} (hp : Ranked p rank) {i : ℕ}
    (hi : i < p.length) : ∃ r, Root p i r :=
  ⟨_, (find_spec hp hi).2⟩

/-! ### Classes -/

/-- Two elements hang under one root. -/
def Same (p : List ℕ) (i j : ℕ) : Prop := ∃ r, Root p i r ∧ Root p j r

theorem Compressed.root_iff {p q : List ℕ} {rank : ℕ → ℕ} (hp : Ranked p rank)
    (h : Compressed p q rank) {i r : ℕ} (hi : i < p.length) : Root q i r ↔ Root p i r := by
  constructor
  · intro hq
    obtain ⟨s, hs⟩ := exists_root hp hi
    rwa [hq.unique (h.roots _ _ hs)]
  · exact h.roots _ _

theorem Compressed.same_iff {p q : List ℕ} {rank : ℕ → ℕ} (hp : Ranked p rank)
    (h : Compressed p q rank) {i j : ℕ} (hi : i < p.length) (hj : j < p.length) :
    Same q i j ↔ Same p i j := by
  simp only [Same, h.root_iff hp hi, h.root_iff hp hj]

/-- Hanging the root `ra` under the root `rb` sends the elements of `ra` to `rb` and leaves the
others where they were. -/
theorem Root.hang {p : List ℕ} {ra rb : ℕ} (ha : parent p ra = ra) (hb : parent p rb = rb)
    (hra : ra < p.length) (hne : ra ≠ rb) {j s : ℕ} (h : Root p j s) :
    Root (p.set ra rb) j (if s = ra then rb else s) := by
  have hbroot : Root (p.set ra rb) rb rb := by
    apply Root.here
    rw [parent_set_ne p rb hne, hb]
  induction h with
  | @here s hs =>
    by_cases hsa : s = ra
    · subst hsa
      rw [if_pos rfl]
      refine Root.up ?_ ?_
      · rw [parent_set_self p s rb hra]
        exact fun h => hne h.symm
      · rwa [parent_set_self p s rb hra]
    · rw [if_neg hsa]
      apply Root.here
      rw [parent_set_ne p rb (fun h => hsa h.symm), hs]
  | @up j s hnj _ ih =>
    have hja : ra ≠ j := by
      rintro rfl
      exact hnj ha
    refine Root.up ?_ ?_
    · rwa [parent_set_ne p rb hja]
    · rwa [parent_set_ne p rb hja]

theorem Ranked.hang {p : List ℕ} {rank : ℕ → ℕ} (hp : Ranked p rank) {ra rb : ℕ}
    (hb : parent p rb = rb) (hra : ra < p.length) (hrb : rb < p.length) (hne : ra ≠ rb) :
    Ranked (p.set ra rb) (fun i => if i = rb then rank rb + rank ra + 1 else rank i) := by
  constructor
  · intro j hj
    rw [List.length_set] at hj ⊢
    by_cases hja : ra = j
    · subst hja
      rwa [parent_set_self p ra rb hra]
    · rw [parent_set_ne p rb hja]
      exact hp.inRange j hj
  · intro j hj hnj
    rw [List.length_set] at hj
    by_cases hja : ra = j
    · subst hja
      rw [parent_set_self p ra rb hra, if_neg hne, if_pos rfl]
      omega
    · rw [parent_set_ne p rb hja] at hnj ⊢
      have hjb : j ≠ rb := by
        rintro rfl
        exact hnj hb
      have hlt := hp.grows j hj hnj
      rw [if_neg hjb]
      by_cases hpb : parent p j = rb
      · rw [if_pos hpb]
        rw [hpb] at hlt
        omega
      · rwa [if_neg hpb]

/-- The forest is well formed on `n` elements and its classes are the equivalence closure
of `R`. -/
structure Represents (p : List ℕ) (n : ℕ) (R : ℕ → ℕ → Prop) : Prop where
  length : p.length = n
  ranked : ∃ rank, Ranked p rank
  classes : ∀ i j, i < n → j < n → (Same p i j ↔ Relation.EqvGen R i j)

theorem parent_singletons (n i : ℕ) : parent (singletons n) i = i := by
  unfold parent singletons
  by_cases hi : i < n
  · simp [List.getD_eq_getElem?_getD, hi]
  · rw [List.getD_eq_getElem?_getD, List.getElem?_eq_none (by rw [List.length_range]; omega)]
    rfl

theorem root_singletons {n i r : ℕ} : Root (singletons n) i r ↔ i = r := by
  constructor
  · intro h
    cases h with
    | here _ => rfl
    | up hne _ => exact absurd (parent_singletons n i) hne
  · rintro rfl
    exact Root.here (parent_singletons n i)

theorem represents_singletons (n : ℕ) : Represents (singletons n) n (fun _ _ => False) := by
  refine ⟨List.length_range, ⟨fun _ => 0, ⟨?_, ?_⟩⟩, ?_⟩
  · intro i hi
    rwa [parent_singletons]
  · intro i _ hne
    exact absurd (parent_singletons n i) hne
  · intro i j hi hj
    clear hi hj
    simp only [Same, root_singletons]
    constructor
    · rintro ⟨r, rfl, rfl⟩
      exact Relation.EqvGen.refl _
    · intro h
      induction h with
      | rel _ _ h => exact h.elim
      | refl i => exact ⟨i, rfl, rfl⟩
      | symm _ _ _ ih =>
        obtain ⟨r, hi, hj⟩ := ih
        exact ⟨r, hj, hi⟩
      | trans _ _ _ _ _ ih₁ ih₂ =>
        obtain ⟨r, hi, hj⟩ := ih₁
        obtain ⟨s, hj', hk⟩ := ih₂
        exact ⟨r, hi, by omega⟩

/-- The closure of `R` with the one extra link `a – b`, written out. -/
theorem eqvGen_link {R : ℕ → ℕ → Prop} {a b : ℕ} {i j : ℕ} :
    Relation.EqvGen (fun x y => R x y ∨ (x = a ∧ y = b)) i j ↔
      Relation.EqvGen R i j ∨ (Relation.EqvGen R i a ∧ Relation.EqvGen R b j) ∨
        (Relation.EqvGen R i b ∧ Relation.EqvGen R a j) := by
  have hmono : ∀ {x y}, Relation.EqvGen R x y →
      Relation.EqvGen (fun x y => R x y ∨ (x = a ∧ y = b)) x y :=
    fun h => Relation.EqvGen.mono (fun _ _ h => Or.inl h) _ _ h
  have hlink : Relation.EqvGen (fun x y => R x y ∨ (x = a ∧ y = b)) a b :=
    Relation.EqvGen.rel _ _ (Or.inr ⟨rfl, rfl⟩)
  constructor
  · intro h
    induction h with
    | rel x y h =>
      rcases h with h | ⟨rfl, rfl⟩
      · exact Or.inl (Relation.EqvGen.rel _ _ h)
      · exact Or.inr (Or.inl ⟨Relation.EqvGen.refl _, Relation.EqvGen.refl _⟩)
    | refl x => exact Or.inl (Relation.EqvGen.refl _)
    | symm x y _ ih =>
      rcases ih with h | ⟨h₁, h₂⟩ | ⟨h₁, h₂⟩
      · exact Or.inl h.symm
      · exact Or.inr (Or.inr ⟨h₂.symm, h₁.symm⟩)
      · exact Or.inr (Or.inl ⟨h₂.symm, h₁.symm⟩)
    | trans x y z _ _ ih₁ ih₂ =>
      rcases ih₁ with h | ⟨h₁, h₂⟩ | ⟨h₁, h₂⟩ <;>
        rcases ih₂ with k | ⟨k₁, k₂⟩ | ⟨k₁, k₂⟩
      · exact Or.inl (h.trans _ _ _ k)
      · exact Or.inr (Or.inl ⟨h.trans _ _ _ k₁, k₂⟩)
      · exact Or.inr (Or.inr ⟨h.trans _ _ _ k₁, k₂⟩)
      · exact Or.inr (Or.inl ⟨h₁, h₂.trans _ _ _ k⟩)
      · exact Or.inr (Or.inl ⟨h₁, k₂⟩)
      · exact Or.inl (h₁.trans _ _ _ k₂)
      · exact Or.inr (Or.inr ⟨h₁, h₂.trans _ _ _ k⟩)
      · exact Or.inl (h₁.trans _ _ _ k₂)
      · exact Or.inr (Or.inr ⟨h₁, k₂⟩)
  · rintro (h | ⟨h₁, h₂⟩ | ⟨h₁, h₂⟩)
    · exact hmono h
    · exact ((hmono h₁).trans _ _ _ hlink).trans _ _ _ (hmono h₂)
    · exact ((hmono h₁).trans _ _ _ hlink.symm).trans _ _ _ (hmono h₂)

theorem Represents.congr {p : List ℕ} {n : ℕ} {R S : ℕ → ℕ → Prop} (h : Represents p n R)
    (hRS : ∀ i j, Relation.EqvGen R i j ↔ Relation.EqvGen S i j) : Represents p n S :=
  ⟨h.length, h.ranked, fun i j hi hj => (h.classes i j hi hj).trans (hRS i j)⟩

theorem Represents.find {p : List ℕ} {n : ℕ} {R : ℕ → ℕ → Prop} (h : Represents p n R) {i : ℕ}
    (hi : i < n) : Represents (ParentForest.find p i).1 n R := by
  obtain ⟨rank, hp⟩ := h.ranked
  have hi' : i < p.length := by rw [h.length]; exact hi
  obtain ⟨hc, _⟩ := find_spec hp hi'
  refine ⟨hc.length.trans h.length, ⟨rank, hc.ranked⟩, fun j k hj hk => ?_⟩
  rw [hc.same_iff hp (by rw [h.length]; exact hj) (by rw [h.length]; exact hk)]
  exact h.classes j k hj hk

/-- **Two elements get one `find` answer exactly when they are equivalent.** -/
theorem Represents.find_eq_iff {p : List ℕ} {n : ℕ} {R : ℕ → ℕ → Prop} (h : Represents p n R)
    {i j r s : ℕ} (hi : i < n) (hj : j < n) (hr : Root p i r) (hs : Root p j s) :
    r = s ↔ Relation.EqvGen R i j := by
  rw [← h.classes i j hi hj]
  constructor
  · rintro rfl
    exact ⟨r, hr, hs⟩
  · rintro ⟨t, hit, hjt⟩
    rw [hr.unique hit, hs.unique hjt]

/-- **A union adds exactly one link.** -/
theorem Represents.union {p : List ℕ} {n : ℕ} {R : ℕ → ℕ → Prop} (h : Represents p n R)
    {a b : ℕ} (ha : a < n) (hb : b < n) :
    Represents (ParentForest.union p a b) n (fun x y => R x y ∨ (x = a ∧ y = b)) := by
  obtain ⟨rank, hp⟩ := h.ranked
  have ha' : a < p.length := by rw [h.length]; exact ha
  obtain ⟨hc₁, hra⟩ := find_spec hp ha'
  have hR₁ := h.find ha
  have hb₁ : b < (ParentForest.find p a).1.length := by rw [hR₁.length]; exact hb
  obtain ⟨hc₂, hrb⟩ := find_spec hc₁.ranked hb₁
  have hR₂ := hR₁.find hb
  simp only [ParentForest.union]
  set ra := (ParentForest.find p a).2
  set fb := ParentForest.find (ParentForest.find p a).1 b
  have hra₂ : Root fb.1 a ra := hc₂.roots _ _ (hc₁.roots _ _ hra)
  have hrb₂ : Root fb.1 b fb.2 := hc₂.roots _ _ hrb
  have ha₂ : a < fb.1.length := by rw [hR₂.length]; exact ha
  have hb₂ : b < fb.1.length := by rw [hR₂.length]; exact hb
  have hra_lt := hra₂.lt hc₂.ranked ha₂
  have hrb_lt := hrb₂.lt hc₂.ranked hb₂
  by_cases hne : ra ≠ fb.2
  · rw [if_pos hne]
    refine ⟨by rw [List.length_set, hR₂.length],
      ⟨_, hc₂.ranked.hang hrb₂.isRoot hra_lt hrb_lt hne⟩, fun i j hi hj => ?_⟩
    have hi₂ : i < fb.1.length := by rw [hR₂.length]; exact hi
    have hj₂ : j < fb.1.length := by rw [hR₂.length]; exact hj
    obtain ⟨s, hs⟩ := exists_root hc₂.ranked hi₂
    obtain ⟨t, ht⟩ := exists_root hc₂.ranked hj₂
    have hs' := Root.hang hra₂.isRoot hrb₂.isRoot hra_lt hne hs
    have ht' := Root.hang hra₂.isRoot hrb₂.isRoot hra_lt hne ht
    rw [eqvGen_link, ← hR₂.find_eq_iff hi hj hs ht, ← hR₂.find_eq_iff hi ha hs hra₂,
      ← hR₂.find_eq_iff hb hj hrb₂ ht, ← hR₂.find_eq_iff hi hb hs hrb₂,
      ← hR₂.find_eq_iff ha hj hra₂ ht]
    have hsame : Same (fb.1.set ra fb.2) i j ↔
        (if s = ra then fb.2 else s) = (if t = ra then fb.2 else t) := by
      constructor
      · rintro ⟨r, h₁, h₂⟩
        rw [hs'.unique h₁, ht'.unique h₂]
      · intro heq
        exact ⟨_, hs', heq ▸ ht'⟩
    rw [hsame]
    by_cases h₁ : s = ra <;> by_cases h₂ : t = ra <;> simp only [h₁, h₂, if_true, if_false] <;>
      grind
  · rw [if_neg hne]
    rw [not_not] at hne
    refine hR₂.congr fun i j => ⟨fun h => Relation.EqvGen.mono (fun _ _ h => Or.inl h) _ _ h, ?_⟩
    have hab : Relation.EqvGen R a b := (hR₂.find_eq_iff ha hb hra₂ hrb₂).mp hne
    rw [eqvGen_link]
    rintro (h | ⟨h₁, h₂⟩ | ⟨h₁, h₂⟩)
    · exact h
    · exact (h₁.trans _ _ _ hab).trans _ _ _ h₂
    · exact (h₁.trans _ _ _ hab.symm).trans _ _ _ h₂

end ParentForest
