import Mathlib
import Hashdex.Descent

/-!
# The slots of a descent

Whatever a descent meets, the slots it gives up on are closed under descendants, and a parent's slot
comes before its children's.

* `Grown`: what a part of the walk does to the slots
* `runFound_seals`, `streamWalk_grows`, `entryWalk_grows`, …: one for each part of the walk
-/

namespace Hashdex

namespace Descent

section
variable {own : Option ℕ} {st st₁ st₂ st' : St} {new new₁ new₂ : List Member}
variable {kept kept₁ kept₂ died died₁ died₂ : List ℕ} {m : Opened} {cfg : Config}

/-- What a part of the walk under `own` does: the members it adds, which of their slots it keeps and
which die. -/
structure Grown (own : Option ℕ) (st st' : St) (new : List Member) (kept died : List ℕ) : Prop where
  members : st'.members = st.members ++ new
  slots : st'.slots = st.slots ++ kept
  dead : st'.dead = st.dead ++ died
  next : st.next ≤ st'.next
  settled : (kept ++ died).Perm (new.map Member.slot)
  above : ∀ x ∈ new, ∀ o ∈ own, o < x.slot
  parents : ∀ x ∈ new, x.parent = own ∨ ∃ y ∈ new, x.parent = some y.slot ∧ y.slot < x.slot
  closed : (new.map Member.slot).Nodup → ∀ x ∈ new, ∀ p ∈ died, x.parent = some p → x.slot ∈ died

def Grows (own : Option ℕ) (st st' : St) : Prop := ∃ new kept died, Grown own st st' new kept died

/-- A slot that died is one of a new member. -/
theorem Grown.exists_of_died (h : Grown own st st' new kept died) {p : ℕ} (hp : p ∈ died) :
    ∃ y ∈ new, y.slot = p := by
  have hmem : p ∈ new.map Member.slot := h.settled.subset (List.mem_append_right _ hp)
  exact List.mem_map.mp hmem

/-- What died was not the one under which it was found. -/
theorem Grown.own_not_died (h : Grown own st st' new kept died) {p : ℕ} (hp : p ∈ died) :
    own ≠ some p := by
  intro hown
  obtain ⟨y, hy, rfl⟩ := h.exists_of_died hp
  exact lt_irrefl _ (h.above y hy y.slot hown)

/-- A part of the walk that adds no member. -/
theorem Grown.same (hmembers : st'.members = st.members) (hslots : st'.slots = st.slots)
    (hdead : st'.dead = st.dead) (hnext : st.next ≤ st'.next) : Grown own st st' [] [] [] where
  members := by rw [hmembers, List.append_nil]
  slots := by rw [hslots, List.append_nil]
  dead := by rw [hdead, List.append_nil]
  next := hnext
  settled := List.Perm.refl _
  above := by simp
  parents := by simp
  closed := by simp

theorem Grows.refl : Grows own st st := ⟨[], [], [], Grown.same rfl rfl rfl le_rfl⟩

theorem ticked_grows : Grows own st st.ticked := ⟨[], [], [], Grown.same rfl rfl rfl le_rfl⟩

theorem alloc_grows : Grows own st (alloc cfg st).2 := by
  refine ⟨[], [], [], Grown.same rfl rfl rfl ?_⟩
  simp only [alloc]
  omega

theorem alloc_le : st.next ≤ (alloc cfg st).1 := by simp [alloc]

theorem alloc_lt : (alloc cfg st).1 < (alloc cfg st).2.next := by simp [alloc]

theorem perm_middle_swap {α : Type*} (a b c d : List α) :
    ((a ++ b) ++ (c ++ d)).Perm ((a ++ c) ++ (b ++ d)) := by
  simp only [List.append_assoc]
  exact List.Perm.append_left a (List.perm_append_comm_assoc b c d)

/-- **One part after the other.** Their slots being distinct, neither has a parent among the dead of
the other. -/
theorem Grown.trans (h₁ : Grown own st st₁ new₁ kept₁ died₁)
    (h₂ : Grown own st₁ st₂ new₂ kept₂ died₂) :
    Grown own st st₂ (new₁ ++ new₂) (kept₁ ++ kept₂) (died₁ ++ died₂) where
  members := by rw [h₂.members, h₁.members, List.append_assoc]
  slots := by rw [h₂.slots, h₁.slots, List.append_assoc]
  dead := by rw [h₂.dead, h₁.dead, List.append_assoc]
  next := h₁.next.trans h₂.next
  settled := by
    rw [List.map_append]
    exact (perm_middle_swap _ _ _ _).trans (h₁.settled.append h₂.settled)
  above := by
    intro x hx
    obtain hx | hx := List.mem_append.mp hx
    · exact h₁.above x hx
    · exact h₂.above x hx
  parents := by
    intro x hx
    obtain hx | hx := List.mem_append.mp hx
    · obtain hown | ⟨y, hy, hparent⟩ := h₁.parents x hx
      · exact .inl hown
      · exact .inr ⟨y, List.mem_append_left _ hy, hparent⟩
    · obtain hown | ⟨y, hy, hparent⟩ := h₂.parents x hx
      · exact .inl hown
      · exact .inr ⟨y, List.mem_append_right _ hy, hparent⟩
  closed := by
    intro hnodup x hx p hp hparent
    rw [List.map_append, List.nodup_append] at hnodup
    obtain ⟨hnodup₁, hnodup₂, hdisjoint⟩ := hnodup
    have hapart : ∀ y ∈ new₁, ∀ z ∈ new₂, y.slot ≠ z.slot := fun y hy z hz =>
      hdisjoint _ (List.mem_map_of_mem hy) _ (List.mem_map_of_mem hz)
    obtain hx | hx := List.mem_append.mp hx
    · obtain hp | hp := List.mem_append.mp hp
      · exact List.mem_append_left _ (h₁.closed hnodup₁ x hx p hp hparent)
      · obtain ⟨z, hz, hzp⟩ := h₂.exists_of_died hp
        obtain hown | ⟨y, hy, hy', -⟩ := h₁.parents x hx
        · exact absurd (hown.symm.trans hparent) (h₂.own_not_died hp)
        · rw [hy', Option.some.injEq] at hparent
          exact absurd (hparent.trans hzp.symm) (hapart y hy z hz)
    · obtain hp | hp := List.mem_append.mp hp
      · obtain ⟨y, hy, hyp⟩ := h₁.exists_of_died hp
        obtain hown | ⟨z, hz, hz', -⟩ := h₂.parents x hx
        · exact absurd (hown.symm.trans hparent) (h₁.own_not_died hp)
        · rw [hz', Option.some.injEq] at hparent
          exact absurd (hyp.trans hparent.symm) (hapart y hy z hz)
      · exact List.mem_append_right _ (h₂.closed hnodup₂ x hx p hp hparent)

theorem Grows.trans (h₁ : Grows own st st₁) (h₂ : Grows own st₁ st₂) : Grows own st st₂ := by
  obtain ⟨new₁, kept₁, died₁, h₁⟩ := h₁
  obtain ⟨new₂, kept₂, died₂, h₂⟩ := h₂
  exact ⟨_, _, _, h₁.trans h₂⟩

theorem Grows.next (h : Grows own st st') : st.next ≤ st'.next := by
  obtain ⟨_, _, _, h⟩ := h
  exact h.next

/-- All that was added can die. -/
theorem Grown.bury (h : Grown own st st' new kept died) {slots : List ℕ} (hslots : slots = st.slots) :
    Grown own st { st' with slots := slots, dead := st'.dead ++ kept } new [] (died ++ kept) where
  members := h.members
  slots := by rw [hslots, List.append_nil]
  dead := by rw [h.dead, List.append_assoc]
  next := h.next
  settled := by
    rw [List.nil_append]
    exact List.perm_append_comm.trans h.settled
  above := h.above
  parents := h.parents
  closed := by
    intro _ x hx p _ _
    exact (List.perm_append_comm.trans h.settled).mem_iff.mpr (List.mem_map_of_mem hx)

/-- **The discard** of all that was allocated since. -/
theorem discard_grows (h : Grows own st st') : Grows own st (st'.discard st.slots.length) := by
  obtain ⟨new, kept, died, h⟩ := h
  refine ⟨new, [], died ++ kept, ?_⟩
  have hslots : st'.slots.take st.slots.length = st.slots := by rw [h.slots, List.take_left]
  have hdrop : st'.slots.drop st.slots.length = kept := by rw [h.slots, List.drop_left]
  rw [St.discard, hdrop]
  exact h.bury hslots

/-! ### A member and what is below it -/

/-- What happens to an allocated slot: a walk under it, and the member is sealed. -/
def Seals (m : Opened) (st st' : St) : Prop :=
  ∃ st₁ x, Grows (some m.slot) st st₁ ∧ x.slot = m.slot ∧ x.parent = m.parent
    ∧ st' = { st₁ with members := st₁.members ++ [x] }

theorem seal_seals {st₁ : St} (h : Grows (some m.slot) st st₁) (source : Source) (kind : Kind)
    (pushed : Bytes) (lost : Bool) (r : Except Err (ℕ × Option String)) :
    Seals m st (st₁.seal m source kind pushed lost r).1 := by
  cases r with
  | ok x => exact ⟨st₁, _, h, rfl, rfl, rfl⟩
  | error e => exact ⟨st₁, _, h, rfl, rfl, rfl⟩

/-- **A sealed member with all below it**, once its slot is among those of the attempt. -/
theorem Seals.grows (h : Seals m (st.push m.slot) st') (hparent : m.parent = own)
    (hown : ∀ o ∈ own, o < m.slot) : Grows own st st' := by
  obtain ⟨st₁, x, ⟨new, kept, died, h⟩, hslot, hx, rfl⟩ := h
  have hbelow : ∀ y ∈ new, m.slot < y.slot := fun y hy => h.above y hy m.slot rfl
  refine ⟨new ++ [x], m.slot :: kept, died, ?_⟩
  refine ⟨by rw [h.members, St.push, List.append_assoc], ?_, h.dead, h.next, ?_, ?_, ?_, ?_⟩
  · rw [h.slots, St.push, List.append_assoc, List.singleton_append]
  · rw [List.map_append, List.cons_append]
    exact (List.perm_append_singleton _ _).symm.trans
      (by rw [← hslot]; exact h.settled.append_right _)
  · intro y hy o ho
    obtain hy | hy := List.mem_append.mp hy
    · exact (hown o ho).trans (hbelow y hy)
    · rw [List.mem_singleton.mp hy, hslot]
      exact hown o ho
  · intro y hy
    obtain hy | hy := List.mem_append.mp hy
    · obtain hxy | ⟨z, hz, hzy⟩ := h.parents y hy
      · refine .inr ⟨x, List.mem_append_right _ (List.mem_singleton_self x), ?_, ?_⟩
        · rw [hxy, hslot]
        · rw [hslot]
          exact hbelow y hy
      · exact .inr ⟨z, List.mem_append_left _ hz, hzy⟩
    · rw [List.mem_singleton.mp hy]
      exact .inl (hx.trans hparent)
  · intro hnodup y hy p hp hyp
    rw [List.map_append, List.nodup_append] at hnodup
    obtain hy | hy := List.mem_append.mp hy
    · exact h.closed hnodup.1 y hy p hp hyp
    · rw [List.mem_singleton.mp hy, hx, hparent] at hyp
      obtain ⟨z, hz, rfl⟩ := h.exists_of_died hp
      exact absurd (hown z.slot hyp) (lt_asymm (hbelow z hz))

/-- A slot is allocated, and the member sealed under it. -/
theorem open_grows {slot : ℕ} (hslot : slot = (alloc cfg st).1) (hm : m.slot = slot)
    (hparent : m.parent = own) (hown : ∀ o ∈ own, o < st.next)
    (h : Seals m ((alloc cfg st).2.push slot) st') : Grows own st st' := by
  subst hslot
  rw [← hm] at h
  refine alloc_grows.trans (h.grows hparent fun o ho => ?_)
  rw [hm]
  exact (hown o ho).trans_le alloc_le

/-! ### The parts of a member's walk -/

theorem descendRetrying_grows {kind : Kind} {attempt : Bool → St → St × Walked} {conservative : Bool}
    (hattempt : ∀ c st, (∀ o ∈ own, o < st.next) → Grows own st (attempt c st).1)
    (hown : ∀ o ∈ own, o < st.next) :
    Grows own st (descendRetrying kind attempt conservative st).1 := by
  have hfirst := hattempt conservative st hown
  unfold descendRetrying
  dsimp only
  split
  · split_ifs
    · exact hfirst
    · have hdiscard := discard_grows hfirst
      exact hdiscard.trans (hattempt true _ fun o ho => (hown o ho).trans_le hdiscard.next)
  · exact hfirst

theorem runMember_seals {conservative : Bool} {source : Source} {kind : Kind} {arms : St → St × Walked}
    {attempt : Bool → St → St × Walked} (hm : m.slot < st.next)
    (harms : ∀ st, m.slot < st.next → Grows (some m.slot) st (arms st).1)
    (hattempt : ∀ c st, m.slot < st.next → Grows (some m.slot) st (attempt c st).1) :
    Seals m st (runMember cfg conservative m source kind arms attempt st).1 := by
  have hown : ∀ o ∈ some m.slot, o < st.next := by simpa using hm
  unfold runMember
  split_ifs
  · exact seal_seals Grows.refl _ _ _ _ _
  · exact seal_seals Grows.refl _ _ _ _ _
  · exact seal_seals Grows.refl _ _ _ _ _
  · split
    · exact seal_seals Grows.refl _ _ _ _ _
    · refine seal_seals (descendRetrying_grows (fun c st h => hattempt c st ?_) hown) _ _ _ _ _
      simpa using h
  · exact seal_seals (harms st hm) _ _ _ _ _
  · exact seal_seals Grows.refl _ _ _ _ _

theorem runRanged_seals {conservative : Bool} {source : Source} {kind : Kind}
    {attempt : Bool → St → St × Walked} (hm : m.slot < st.next)
    (hattempt : ∀ c st, m.slot < st.next → Grows (some m.slot) st (attempt c st).1) :
    Seals m st (runRanged cfg conservative m source kind attempt st).1 := by
  have hown : ∀ o ∈ some m.slot, o < st.next := by simpa using hm
  unfold runRanged
  dsimp only
  split_ifs
  · exact seal_seals Grows.refl _ _ _ _ _
  · exact seal_seals Grows.refl _ _ _ _ _
  · refine seal_seals (descendRetrying_grows (fun c st h => hattempt c st ?_) hown) _ _ _ _ _
    simpa using h

theorem runSpooled_seals {conservative : Bool} {source : Source} {kind : Kind}
    {attempt : Bool → St → St × Walked} (hm : m.slot < st.next)
    (hattempt : ∀ c st, m.slot < st.next → Grows (some m.slot) st (attempt c st).1) :
    Seals m st (runSpooled cfg conservative m source kind attempt st).1 := by
  unfold runSpooled
  split
  · exact seal_seals Grows.refl _ _ _ _ _
  · exact runRanged_seals hm hattempt

/-! ### Items -/

/-- A worker's slots are its own until it is done. -/
theorem Grows.nested (h : Grows own { st with slots := [] } st') :
    Grows own st { st' with slots := st.slots ++ st'.slots } := by
  obtain ⟨new, kept, died, h⟩ := h
  have hkept : st'.slots = kept := by simpa using h.slots
  exact ⟨new, kept, died, h.members, by rw [hkept], h.dead, h.next, h.settled, h.above, h.parents,
    h.closed⟩

/-- Where the next slot may come from does not matter. -/
theorem Grows.rebased {base : ℕ} (h : Grows own { st with next := base } st') :
    Grows own st { st' with next := max st.next st'.next } := by
  obtain ⟨new, kept, died, h⟩ := h
  exact ⟨new, kept, died, h.members, h.slots, h.dead, le_max_left _ _, h.settled, h.above, h.parents,
    h.closed⟩

theorem bury_grows {o depth slot stated : ℕ} (ho : o < slot) :
    Grows (some o) st (bury o depth slot stated st) := by
  refine ⟨[_], [], [slot], rfl, by simp [bury, St.seal], rfl, le_rfl, List.Perm.refl _, ?_, ?_, ?_⟩
  · simpa using ho
  · simp
  · intro _ x hx p hp _
    rw [List.mem_singleton.mp hx]
    exact List.mem_singleton_self slot

theorem buryAll_grows {o depth : ℕ} {slots : List (ℕ × ℕ)} (ho : ∀ s ∈ slots, o < s.1) :
    Grows (some o) st (buryAll o depth slots st) := by
  induction slots generalizing st with
  | nil => exact Grows.refl
  | cons s slots ih =>
    rw [buryAll]
    exact (bury_grows (ho s List.mem_cons_self)).trans
      (ih fun x hx => ho x (List.mem_cons_of_mem _ hx))

theorem runItem_grows {conservative : Bool} {o depth slot stated : ℕ}
    {run : Bool → Opened → St → St × Option Err} (ho : o < slot) (hslot : slot < st.next)
    (hrun : ∀ c m st, m.slot < st.next → Seals m st (run c m st).1) :
    Grows (some o) st (runItem cfg conservative o depth slot stated run st).1 := by
  have hown : ∀ x ∈ some o, x < slot := by simpa using ho
  let m : Opened := ⟨slot, some o, depth, some stated, slot⟩
  have hseals : Seals m (({ st with slots := [] } : St).push m.slot)
      (run conservative m { st with slots := [slot] }).1 := hrun conservative m _ hslot
  have hfirst := hseals.grows rfl hown
  unfold runItem
  dsimp only
  split
  · split_ifs
    · exact hfirst.nested
    · -- the worker's first attempt dies as a whole, and the second one starts afresh
      obtain ⟨new, kept, died, h⟩ := hfirst
      have hkept := h.slots
      rw [List.nil_append] at hkept
      have hburied := h.bury rfl
      rw [← hkept] at hburied
      refine (Grows.trans ⟨_, _, _, hburied⟩ ?_).nested
      refine open_grows (m := ⟨_, some o, depth, some stated, slot⟩) rfl rfl rfl (fun x hx => ?_)
        (hrun true _ _ alloc_lt)
      exact ((hown x hx).trans hslot).trans_le hburied.next
  · exact hfirst.nested

/-- The slots of a batch are new, and taken. -/
theorem allocBatch_spec (own : Option ℕ) (cfg : Config) : ∀ (viewed : Viewed) (st : St),
    Grows own st (allocBatch cfg viewed st).2
      ∧ ∀ s ∈ (allocBatch cfg viewed st).1, st.next ≤ s ∧ s < (allocBatch cfg viewed st).2.next
  | .nil _, st => ⟨Grows.refl, by simp [allocBatch]⟩
  | .cons _ _ rest, st => by
    have hone : ∀ s ∈ [(alloc cfg st).1], st.next ≤ s ∧ s < (alloc cfg st).2.next := by
      intro s hs
      rw [List.mem_singleton.mp hs]
      exact ⟨alloc_le, alloc_lt⟩
    unfold allocBatch
    split_ifs
    · exact ⟨ticked_grows, by simp⟩
    · dsimp only
      split
      next how _ after =>
        split_ifs
        · exact ⟨alloc_grows, hone⟩
        · obtain ⟨hgrows, hslots⟩ := allocBatch_spec own cfg (.cons how _ after) (alloc cfg st).2
          refine ⟨alloc_grows.trans hgrows, fun s hs => ?_⟩
          obtain rfl | hs := List.mem_cons.mp hs
          · exact ⟨alloc_le, alloc_lt.trans_le hgrows.next⟩
          · obtain ⟨hle, hlt⟩ := hslots s hs
            have halloc : Grows own st (alloc cfg st).2 := alloc_grows
            exact ⟨halloc.next.trans hle, hlt⟩
      · exact ⟨alloc_grows, hone⟩

/-! ### The walks -/

/-- What the ways over the entries of a seekable container keep to. -/
structure Walkers.Grow (o : ℕ) (w : Walkers) : Prop where
  entries : ∀ kind st, o < st.next → Grows (some o) st (w.entries kind st).1
  squash : ∀ base slots st, (∀ s ∈ slots, o < s ∧ s < base) → base ≤ st.next →
    Grows (some o) st (w.squash base slots st).1
  erofsAlloc : ∀ st, o < st.next → Grows (some o) st (w.erofsAlloc st).1
    ∧ ∀ s ∈ (w.erofsAlloc st).2.1, o < s.1 ∧ s.1 < (w.erofsAlloc st).1.next
  erofsRun : ∀ base slots st, (∀ s ∈ slots, o < s.1 ∧ s.1 < base) → base ≤ st.next →
    Grows (some o) st (w.erofsRun base slots st).1

theorem Walkers.Grow.walk_grows {o : ℕ} {w : Walkers} (hw : w.Grow o) {viewed : Viewed} {depth : ℕ}
    {kind : Kind} (ho : o < st.next) :
    Grows (some o) st (Walkers.walk cfg viewed depth o kind w st).1 := by
  unfold Walkers.walk
  split
  · exact Grows.refl
  · exact Grows.refl
  · obtain ⟨hgrows, hslots⟩ := allocBatch_spec (some o) cfg viewed st
    refine hgrows.trans (hw.squash _ _ _ (fun s hs => ?_) le_rfl)
    exact ⟨ho.trans_le (hslots s hs).1, (hslots s hs).2⟩
  · obtain ⟨hgrows, hslots⟩ := hw.erofsAlloc st ho
    dsimp only
    split
    · exact hgrows.trans (buryAll_grows fun s hs => (hslots s hs).1)
    · have hrun := hgrows.trans (hw.erofsRun _ _ _ hslots le_rfl)
      split <;> exact hrun
  · exact hw.entries _ st ho

theorem processStream_grows (cfg : Config) (spooled : Bool) (depth : ℕ) {o : ℕ} (stated : Option ℕ)
    {run spool : Opened → St → St × Option Err} (ho : o < st.next)
    (hrun : ∀ m st, m.slot < st.next → Seals m st (run m st).1)
    (hspool : ∀ m st, m.slot < st.next → Seals m st (spool m st).1) :
    Grows (some o) st (processStream cfg spooled depth o stated run spool st).1 := by
  have hown : ∀ x ∈ some o, x < st.next := by simpa using ho
  unfold processStream
  split_ifs
  · exact ticked_grows
  · exact open_grows (m := ⟨_, some o, depth, none, _⟩) rfl rfl rfl hown (hspool _ _ alloc_lt)
  · exact open_grows (m := ⟨_, some o, depth, stated, _⟩) rfl rfl rfl hown (hrun _ _ alloc_lt)

theorem nameClosed_grows {o depth : ℕ} {note : String} (ho : o < st.next) :
    Grows (some o) st (nameClosed cfg depth o note st) := by
  have hown : ∀ x ∈ some o, x < st.next := by simpa using ho
  unfold nameClosed
  split_ifs
  · exact ticked_grows
  · exact open_grows (m := ⟨_, some o, depth, some 0, _⟩) rfl rfl rfl hown
      (seal_seals Grows.refl _ _ _ _ _)

mutual

theorem runFound_seals (cfg : Config) : ∀ (found : Found) (c : Bool) (m : Opened) (st : St),
    m.slot < st.next → Seals m st (runFound cfg found c m st).1
  | .mk source streamKind viewKind streamed viewed, c, m, st, hm => by
    rw [runFound]
    refine runMember_seals hm (fun st hst => streamWalk_grows cfg streamed c _ _ _ _ st hst)
      fun c st hst => Walkers.Grow.walk_grows ?_ hst
    exact ⟨fun kind st h => entryWalk_grows cfg viewed c _ _ kind _ st h,
      fun base slots st h hb => squashWalk_grows cfg viewed c _ _ base slots _ _ _ st h hb,
      fun st h => erofsAlloc_grows cfg viewed c _ _ _ st h,
      fun base slots st h hb => erofsRun_grows cfg viewed c _ _ base slots st h hb⟩

theorem spoolFound_seals (cfg : Config) : ∀ (found : Found) (c : Bool) (m : Opened) (st : St),
    m.slot < st.next → Seals m st (spoolFound cfg found c m st).1
  | .mk source streamKind viewKind streamed viewed, c, m, st, hm => by
    rw [spoolFound]
    refine runSpooled_seals hm fun c st hst => Walkers.Grow.walk_grows ?_ hst
    exact ⟨fun kind st h => entryWalk_grows cfg viewed c _ _ kind _ st h,
      fun base slots st h hb => squashWalk_grows cfg viewed c _ _ base slots _ _ _ st h hb,
      fun st h => erofsAlloc_grows cfg viewed c _ _ _ st h,
      fun base slots st h hb => erofsRun_grows cfg viewed c _ _ base slots st h hb⟩

theorem rangeFound_grows (cfg : Config) : ∀ (found : Found) (c : Bool) (depth : ℕ)
    (parent : Option ℕ) (len : ℕ) (st : St), (∀ o ∈ parent, o < st.next) →
    Grows parent st (rangeFound cfg found c depth parent len st).1
  | .mk source streamKind viewKind streamed viewed, c, depth, parent, len, st, hown => by
    rw [rangeFound]
    split_ifs
    · exact ticked_grows
    · exact ticked_grows
    · refine open_grows (m := ⟨_, parent, depth, some len, _⟩) rfl rfl rfl hown
        (runRanged_seals alloc_lt fun c st hst => Walkers.Grow.walk_grows ?_ hst)
      exact ⟨fun kind st h => entryWalk_grows cfg viewed c _ _ kind _ st h,
        fun base slots st h hb => squashWalk_grows cfg viewed c _ _ base slots _ _ _ st h hb,
        fun st h => erofsAlloc_grows cfg viewed c _ _ _ st h,
        fun base slots st h hb => erofsRun_grows cfg viewed c _ _ base slots st h hb⟩

theorem streamWalk_grows (cfg : Config) : ∀ (streamed : Streamed) (c : Bool) (depth o : ℕ)
    (kind : Kind) (children : ℕ) (st : St), o < st.next →
    Grows (some o) st (streamWalk cfg streamed c depth o kind children st).1
  | .nil _ _, _, _, _, _, _, _, _ => Grows.refl
  | .cons stated pulled found rest, c, depth, o, kind, children, st, ho => by
    have hchild := processStream_grows cfg (kind.wraps && cfg.spoolWrappers) depth stated ho
      (fun m st hm => runFound_seals cfg found c m st hm)
      (fun m st hm => spoolFound_seals cfg found c m st hm)
    rw [streamWalk]
    revert hchild
    generalize processStream _ _ _ _ _ _ _ _ = res
    intro hchild
    obtain ⟨st', _ | e⟩ := res
    · exact hchild.trans (streamWalk_grows cfg rest c depth o kind _ st' (ho.trans_le hchild.next))
    · exact hchild

theorem entryWalk_grows (cfg : Config) : ∀ (viewed : Viewed) (c : Bool) (depth o : ℕ)
    (kind : Kind) (children : ℕ) (st : St), o < st.next →
    Grows (some o) st (entryWalk cfg viewed c depth o kind children st).1
  | .nil _, _, _, _, _, _, _, _ => Grows.refl
  | .cons how found rest, c, depth, o, kind, children, st, ho => by
    have hstream (stated : Option ℕ) :=
      processStream_grows cfg (kind.wraps && cfg.spoolWrappers) depth stated ho
        (fun m st hm => runFound_seals cfg found c m st hm)
        (fun m st hm => spoolFound_seals cfg found c m st hm)
    have hrange (len : ℕ) := rangeFound_grows cfg found c depth (some o) len st (by simpa using ho)
    have hrest {st' : St} (children : ℕ) (h : Grows (some o) st st') :
        Grows (some o) st (entryWalk cfg rest c depth o kind children st').1 :=
      h.trans (entryWalk_grows cfg rest c depth o kind children st' (ho.trans_le h.next))
    cases how with
    | closed note =>
      rw [entryWalk]
      exact hrest children (nameClosed_grows ho)
    | range len =>
      have hchild := hrange len
      rw [entryWalk]
      revert hchild
      generalize rangeFound _ _ _ _ _ _ _ = res
      intro hchild
      obtain ⟨st', _ | e⟩ := res
      · exact hrest (children + 1) hchild
      · exact hchild
    | stream stated =>
      have hchild := hstream stated
      rw [entryWalk]
      revert hchild
      generalize processStream _ _ _ _ _ _ _ _ = res
      intro hchild
      obtain ⟨st', _ | e⟩ := res
      · exact hrest (children + 1) hchild
      · exact hchild
    | item batch stated =>
      have hchild := hstream (some stated)
      rw [entryWalk]
      revert hchild
      generalize processStream _ _ _ _ _ _ _ _ = res
      intro hchild
      obtain ⟨st', _ | e⟩ := res
      · exact hrest (children + 1) hchild
      · exact hchild

theorem squashWalk_grows (cfg : Config) : ∀ (viewed : Viewed) (c : Bool) (depth o base : ℕ)
    (slots : List ℕ) (failed : Option Err) (children : ℕ) (lost : Bool) (st : St),
    (∀ s ∈ slots, o < s ∧ s < base) → base ≤ st.next →
    Grows (some o) st
      (squashWalk cfg viewed c depth o base slots failed children lost st).1
  | .nil _, _, _, _, _, _, failed, _, _, _, _, _ => by
    cases failed <;> exact Grows.refl
  | .cons how found rest, c, depth, o, base, [], failed, children, lost, st, hslots, hbase => by
    cases failed <;> exact Grows.refl
  | .cons how found rest, c, depth, o, base, slot :: slots, failed, children, lost, st, hslots,
      hbase => by
    obtain ⟨ho, hslot⟩ := hslots slot List.mem_cons_self
    have hslots : ∀ s ∈ slots, o < s ∧ s < base := fun s hs => hslots s (List.mem_cons_of_mem _ hs)
    have hburied : Grows (some o) st (bury o depth slot how.stated st.ticked) :=
      ticked_grows.trans (bury_grows ho)
    have hrun : Grows (some o) { st with next := base } (runItem cfg c o depth slot how.stated
        (fun c m st => runFound cfg found c m st) { st with next := base }).1 :=
      runItem_grows ho hslot fun c m st hm => runFound_seals cfg found c m st hm
    have hrest (failed : Option Err) (children : ℕ) (lost : Bool) (st' : St)
        (h : Grows (some o) st st') : Grows (some o) st
          (match rest with
          | .cons next _ _ =>
            if next.startsBatch then
              match failed with
              | some e => (st', Walked.failed children e 0 true)
              | none =>
                squashWalk cfg rest c depth o (allocBatch cfg rest st').2.next
                  (allocBatch cfg rest st').1 none children lost (allocBatch cfg rest st').2
            else squashWalk cfg rest c depth o base slots failed children lost st'
          | .nil _ => squashWalk cfg rest c depth o base slots failed children lost st').1 := by
      split
      next next found' after =>
        split_ifs
        · cases failed with
          | some e => exact h
          | none =>
            obtain ⟨hbatch, hnew⟩ := allocBatch_spec (some o) cfg (.cons next found' after) st'
            refine h.trans (hbatch.trans (squashWalk_grows cfg (.cons next found' after) c depth o _ _
              none children lost _ (fun s hs => ⟨?_, (hnew s hs).2⟩) le_rfl))
            exact (ho.trans (hslot.trans_le (hbase.trans h.next))).trans_le (hnew s hs).1
        · exact h.trans (squashWalk_grows cfg _ c depth o base slots failed children lost st' hslots
            (hbase.trans h.next))
      · exact h.trans (squashWalk_grows cfg _ c depth o base slots failed children lost st' hslots
          (hbase.trans h.next))
    rw [squashWalk]
    by_cases hleft : (failed.isSome && !(cfg.ticks st.tick).taken) = true
    · rw [if_pos hleft]
      exact hrest failed children true _ hburied
    · rw [if_neg hleft]
      exact hrest _ (children + 1) lost _ hrun.rebased

theorem erofsAlloc_grows (cfg : Config) : ∀ (viewed : Viewed) (c : Bool) (depth o children : ℕ)
    (st : St), o < st.next → Grows (some o) st (erofsAlloc cfg viewed c depth o children st).1
      ∧ ∀ s ∈ (erofsAlloc cfg viewed c depth o children st).2.1,
        o < s.1 ∧ s.1 < (erofsAlloc cfg viewed c depth o children st).1.next
  | .nil _, _, _, _, _, _, _ => ⟨Grows.refl, by simp [erofsAlloc]⟩
  | .cons how found rest, c, depth, o, children, st, ho => by
    have hitem (stated : ℕ) : ∀ res, res =
        (if capped cfg st then (st.ticked, [], Walked.ended children .done 0)
        else
          let res := erofsAlloc cfg rest c depth o (children + 1) (alloc cfg st).2
          (res.1, ((alloc cfg st).1, stated) :: res.2.1, res.2.2)) →
        Grows (some o) st res.1 ∧ ∀ s ∈ res.2.1, o < s.1 ∧ s.1 < res.1.next := by
      intro res hres
      subst hres
      have halloc : Grows (some o) st (alloc cfg st).2 := alloc_grows
      obtain ⟨hgrows, hslots⟩ :=
        erofsAlloc_grows cfg rest c depth o (children + 1) _ (ho.trans_le halloc.next)
      split_ifs
      · exact ⟨ticked_grows, by simp⟩
      · refine ⟨halloc.trans hgrows, fun s hs => ?_⟩
        obtain rfl | hs := List.mem_cons.mp hs
        · exact ⟨ho.trans_le alloc_le, alloc_lt.trans_le hgrows.next⟩
        · exact hslots s hs
    cases how with
    | range len =>
      have hchild := rangeFound_grows cfg found c depth (some o) len st (by simpa using ho)
      rw [erofsAlloc]
      revert hchild
      generalize rangeFound _ _ _ _ _ _ _ = res
      intro hchild
      obtain ⟨st', _ | e⟩ := res
      · obtain ⟨hgrows, hslots⟩ :=
          erofsAlloc_grows cfg rest c depth o (children + 1) st' (ho.trans_le hchild.next)
        exact ⟨hchild.trans hgrows, hslots⟩
      · exact ⟨hchild, by simp⟩
    | stream stated => exact hitem _ _ rfl
    | item batch stated => exact hitem _ _ rfl
    | closed note => exact hitem _ _ rfl

theorem erofsRun_grows (cfg : Config) : ∀ (viewed : Viewed) (c : Bool) (depth o base : ℕ)
    (slots : List (ℕ × ℕ)) (st : St), (∀ s ∈ slots, o < s.1 ∧ s.1 < base) → base ≤ st.next →
    Grows (some o) st (erofsRun cfg viewed c depth o base slots st).1
  | .nil _, _, _, _, _, _, _, _, _ => Grows.refl
  | .cons how found rest, c, depth, o, base, slots, st, hslots, hbase => by
    have hitem (slot stated : ℕ) (left : List (ℕ × ℕ)) (h : slots = (slot, stated) :: left) :
        Grows (some o) st (erofsRun cfg rest c depth o base left
          { (runItem cfg c o depth slot stated (fun c m st => runFound cfg found c m st)
              { st with next := base }).1 with
            next := max st.next (runItem cfg c o depth slot stated
              (fun c m st => runFound cfg found c m st) { st with next := base }).1.next }).1 := by
      subst h
      obtain ⟨ho, hslot⟩ := hslots (slot, stated) List.mem_cons_self
      have hrun : Grows (some o) { st with next := base } (runItem cfg c o depth slot stated
          (fun c m st => runFound cfg found c m st) { st with next := base }).1 :=
        runItem_grows ho hslot fun c m st hm => runFound_seals cfg found c m st hm
      exact hrun.rebased.trans (erofsRun_grows cfg rest c depth o base left _
        (fun s hs => hslots s (List.mem_cons_of_mem _ hs)) (hbase.trans (le_max_left _ _)))
    cases how with
    | range len => exact erofsRun_grows cfg rest c depth o base slots st hslots hbase
    | _ =>
      cases slots with
      | nil => exact Grows.refl
      | cons s left =>
        have hrun := hitem s.1 s.2 left rfl
        rw [erofsRun]
        · dsimp only
          split <;> exact hrun
        · intro len h
          cases h

end

/-! ### The two ways in -/

theorem viewWalk_grows (cfg : Config) (viewed : Viewed) (c : Bool) (depth o : ℕ) (kind : Kind)
    (st : St) (ho : o < st.next) : Grows (some o) st (viewWalk cfg viewed c depth o kind st).1 :=
  Walkers.Grow.walk_grows ⟨fun kind st h => entryWalk_grows cfg viewed c _ _ kind _ st h,
    fun base slots st h hb => squashWalk_grows cfg viewed c _ _ base slots _ _ _ st h hb,
    fun st h => erofsAlloc_grows cfg viewed c _ _ _ st h,
    fun base slots st h hb => erofsRun_grows cfg viewed c _ _ base slots st h hb⟩ ho

theorem walkRoot_grows (cfg : Config) (next len : ℕ) (found : Found) :
    Grows none (St.start next) (walkRoot cfg next len found).1 := by
  have hgrows := rangeFound_grows cfg found false 0 none len (St.start next) (by simp)
  unfold walkRoot
  revert hgrows
  generalize rangeFound _ _ _ _ _ _ _ = res
  intro hgrows
  obtain ⟨st, _ | e⟩ := res
  · exact hgrows
  · exact discard_grows hgrows

theorem descendWithin_grows (cfg : Config) (next own depth : ℕ) (found : Found) (hown : own < next) :
    Grows (some own) (St.start next) (descendWithin cfg next own depth found).1 := by
  obtain ⟨source, streamKind, viewKind, streamed, viewed⟩ := found
  have hattempt : Grows (some own) (St.start next) (descendRetrying (unprobed viewKind)
      (fun c st => viewWalk cfg viewed c (depth + 1) own (unprobed viewKind) st) false
      (St.start next)).1 := by
    refine descendRetrying_grows (fun c st h => viewWalk_grows cfg viewed c _ own _ st ?_) ?_
    · simpa using h
    · simpa [St.start] using hown
  unfold descendWithin
  dsimp only
  split_ifs
  · exact Grows.refl
  · exact Grows.refl
  · split
    · exact hattempt
    · exact discard_grows hattempt

end

end Descent

end Hashdex
