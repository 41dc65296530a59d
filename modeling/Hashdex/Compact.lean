import Mathlib
import Hashdex.DescentSlots

/-!
# The member table

`compact_members` drops the dead slots from the pool's table and renumbers the parents.  It panics on
a survivor whose parent is gone.

* `compactMembers_spec`: where parents come first and survive, it keeps the survivors as they are
* `members_compact`: so it does after any descents
-/

namespace Hashdex

namespace Descent

/-! ### The function -/

/-- The dead slots are emptied; a slot beyond the table panics. -/
def emptied (table : List (Option Member)) : List ℕ → Option (List (Option Member))
  | [] => some table
  | slot :: dead => if slot < table.length then emptied (table.set slot none) dead else none

/-- Slot by slot: `remap` has where the survivors so far went. -/
def compactFrom (remap : List (Option ℕ)) (members : List Member) :
    List (Option Member) → Option (List Member)
  | [] => some members
  | none :: rest => compactFrom (remap ++ [none]) members rest
  | some m :: rest =>
    let remap := remap ++ [some members.length]
    match m.parent with
    | none => compactFrom remap (members ++ [{ m with fs := true }]) rest
    | some p =>
      match remap[p]? with
      | some (some q) => compactFrom remap (members ++ [{ m with parent := some q }]) rest
      -- `parent survived discard`
      | _ => none

def compactMembers (table : List (Option Member)) (dead : List ℕ) : Option (List Member) :=
  (emptied table dead).bind (compactFrom [] [])

/-! ### Survivors -/

/-- The members of a table with their slots, in the order of these. -/
def alive (table : List (Option Member)) : List (ℕ × Member) :=
  table.zipIdx.filterMap fun x => x.1.map fun m => (x.2, m)

section
variable {table rest : List (Option Member)} {members : List Member} {remap : List (Option ℕ)}
variable {m : Member} {i j p : ℕ} {dead : List ℕ}

@[simp] theorem alive_append_none : alive (table ++ [none]) = alive table := by
  simp [alive, List.zipIdx_append]

@[simp] theorem alive_append_some : alive (table ++ [some m]) = alive table ++ [(table.length, m)] := by
  simp [alive, List.zipIdx_append]

theorem mem_alive_iff : (i, m) ∈ alive table ↔ table[i]? = some (some m) := by
  simp only [alive, List.mem_filterMap, Option.map_eq_some_iff, Prod.mk.injEq, Prod.exists]
  constructor
  · intro h
    obtain ⟨x, k, hx, m', rfl, rfl, rfl⟩ := h
    simpa [List.mem_zipIdx_iff_getElem?] using hx
  · intro h
    exact ⟨some m, i, by simpa [List.mem_zipIdx_iff_getElem?] using h, m, rfl, rfl, rfl⟩

/-- The survivors in their order, each with its parent's new place. -/
structure Compacted (table : List (Option Member)) (members : List Member) : Prop where
  length : members.length = (alive table).length
  kept : ∀ (j i : ℕ) (m : Member), (alive table)[j]? = some (i, m) →
    m.parent = none ∧ members[j]? = some { m with parent := none, fs := true }
      ∨ ∃ p q parent, m.parent = some p ∧ (alive table)[q]? = some (p, parent)
          ∧ members[j]? = some { m with parent := some q }

/-- Every member's parent comes before it, and is in the table. -/
def ParentsFirst (table : List (Option Member)) : Prop :=
  ∀ (i : ℕ) (m : Member) (p : ℕ), table[i]? = some (some m) → m.parent = some p →
    p < i ∧ ∃ parent, table[p]? = some (some parent)

/-- What `remap` has for the slots so far. -/
def Remaps (table : List (Option Member)) (remap : List (Option ℕ)) : Prop :=
  remap.length = table.length ∧ ∀ (i : ℕ) (m : Member), table[i]? = some (some m) →
    ∃ q, remap[i]? = some (some q) ∧ (alive table)[q]? = some (i, m)

theorem Compacted.empty : Compacted [] [] where
  length := rfl
  kept := by simp [alive]

theorem Remaps.empty : Remaps [] [] := ⟨rfl, by simp⟩

theorem Compacted.append_none (h : Compacted table members) : Compacted (table ++ [none]) members where
  length := by rw [alive_append_none, h.length]
  kept := by simpa using h.kept

theorem Remaps.append_none (h : Remaps table remap) : Remaps (table ++ [none]) (remap ++ [none]) := by
  obtain ⟨hlength, hremap⟩ := h
  refine ⟨by simp [hlength], fun i m hi => ?_⟩
  have hlt : i < table.length := by
    by_contra hge
    rw [List.getElem?_append_right (by omega)] at hi
    have hzero : i - table.length = 0 := by
      by_contra hpos
      rw [List.getElem?_eq_none (by rw [List.length_singleton]; omega)] at hi
      cases hi
    rw [hzero] at hi
    cases hi
  rw [List.getElem?_append_left hlt] at hi
  obtain ⟨q, hq, halive⟩ := hremap i m hi
  refine ⟨q, ?_, by rwa [alive_append_none]⟩
  rw [List.getElem?_append_left (by omega), hq]

theorem Remaps.append_some (h : Remaps table remap) (hlen : members.length = (alive table).length) :
    Remaps (table ++ [some m]) (remap ++ [some members.length]) := by
  obtain ⟨hlength, hremap⟩ := h
  refine ⟨by simp [hlength], fun i m' hi => ?_⟩
  by_cases hlt : i < table.length
  · rw [List.getElem?_append_left hlt] at hi
    obtain ⟨q, hq, halive⟩ := hremap i m' hi
    refine ⟨q, ?_, ?_⟩
    · rw [List.getElem?_append_left (by omega), hq]
    · rw [alive_append_some, List.getElem?_append_left, halive]
      exact (List.getElem?_eq_some_iff.mp halive).1
  · have hi' := (List.getElem?_eq_some_iff.mp hi).1
    rw [List.length_append, List.length_singleton] at hi'
    obtain rfl : i = table.length := by omega
    rw [List.getElem?_concat_length, Option.some.injEq, Option.some.injEq] at hi
    subst hi
    refine ⟨members.length, ?_, ?_⟩
    · rw [← hlength, List.getElem?_concat_length]
    · rw [alive_append_some, hlen, List.getElem?_concat_length]

/-- One more survivor, with the given parent's new place. -/
theorem Compacted.append_some {m' : Member} (h : Compacted table members)
    (hm : m.parent = none ∧ m' = { m with parent := none, fs := true }
      ∨ ∃ p q parent, m.parent = some p ∧ (alive table)[q]? = some (p, parent)
          ∧ m' = { m with parent := some q }) :
    Compacted (table ++ [some m]) (members ++ [m']) where
  length := by simp [h.length]
  kept := by
    intro j i x hx
    rw [alive_append_some] at hx ⊢
    by_cases hlt : j < (alive table).length
    · rw [List.getElem?_append_left hlt] at hx
      rw [List.getElem?_append_left (by rw [h.length]; exact hlt)]
      obtain hnone | ⟨p, q, parent, hparent, hq, hkept⟩ := h.kept j i x hx
      · exact .inl hnone
      · refine .inr ⟨p, q, parent, hparent, ?_, hkept⟩
        rw [List.getElem?_append_left (List.getElem?_eq_some_iff.mp hq).1, hq]
    · have hj := (List.getElem?_eq_some_iff.mp hx).1
      rw [List.length_append, List.length_singleton] at hj
      obtain rfl : j = (alive table).length := by omega
      rw [List.getElem?_concat_length, Option.some.injEq, Prod.mk.injEq] at hx
      obtain ⟨rfl, rfl⟩ := hx
      rw [← h.length, List.getElem?_concat_length]
      obtain ⟨hnone, rfl⟩ | ⟨p, q, parent, hparent, hq, rfl⟩ := hm
      · exact .inl ⟨hnone, rfl⟩
      · refine .inr ⟨p, q, parent, hparent, ?_, rfl⟩
        rw [List.getElem?_append_left (List.getElem?_eq_some_iff.mp hq).1, hq]

/-- **Slot by slot.** What is done so far is right, and parents come first. -/
theorem compactFrom_spec (hparents : ParentsFirst (table ++ rest)) (hremap : Remaps table remap)
    (hmembers : Compacted table members) :
    ∃ ms, compactFrom remap members rest = some ms ∧ Compacted (table ++ rest) ms := by
  induction rest generalizing table remap members with
  | nil =>
    rw [List.append_nil]
    exact ⟨members, rfl, hmembers⟩
  | cons x rest ih =>
    have hsplit : table ++ x :: rest = (table ++ [x]) ++ rest := by simp
    rw [hsplit] at hparents ⊢
    cases x with
    | none => exact ih hparents hremap.append_none hmembers.append_none
    | some m =>
      have hremap' := hremap.append_some (m := m) hmembers.length
      have hhere : ((table ++ [some m]) ++ rest)[table.length]? = some (some m) := by simp
      rw [compactFrom]
      cases hparent : m.parent with
      | none =>
        dsimp only
        exact ih hparents hremap' (hmembers.append_some (.inl ⟨hparent, rfl⟩))
      | some p =>
        obtain ⟨hlt, parent, hp⟩ := hparents _ m p hhere hparent
        have hp : table[p]? = some (some parent) := by
          rw [List.append_assoc, List.getElem?_append_left hlt] at hp
          exact hp
        obtain ⟨q, hq, halive⟩ := hremap.2 p parent hp
        have hq : (remap ++ [some members.length])[p]? = some (some q) := by
          rw [List.getElem?_append_left (List.getElem?_eq_some_iff.mp hq).1, hq]
        dsimp only
        rw [hq]
        exact ih hparents hremap'
          (hmembers.append_some (.inr ⟨p, q, parent, hparent, halive, rfl⟩))

/-- The emptied table. -/
theorem emptied_spec (hrange : ∀ d ∈ dead, d < table.length) :
    ∃ t, emptied table dead = some t
      ∧ ∀ i x, t[i]? = some (some x) ↔ table[i]? = some (some x) ∧ i ∉ dead := by
  induction dead generalizing table with
  | nil => exact ⟨table, rfl, by simp⟩
  | cons d dead ih =>
    have hd := hrange d List.mem_cons_self
    have hrest : ∀ d' ∈ dead, d' < (table.set d none).length := by
      intro d' hd'
      rw [List.length_set]
      exact hrange d' (List.mem_cons_of_mem _ hd')
    obtain ⟨t, ht, hspec⟩ := ih hrest
    refine ⟨t, by rw [emptied, if_pos hd, ht], fun i x => ?_⟩
    rw [hspec, List.getElem?_set]
    by_cases hdi : d = i
    · subst hdi
      simp [hd]
    · simp [hdi, Ne.symm hdi]

/-- **Compacting.** Where every survivor's parent comes before it and survives, nothing panics; the
survivors keep their order, and each points to where its parent went. -/
theorem compactMembers_spec (hrange : ∀ d ∈ dead, d < table.length)
    (hparents : ∀ i m p, table[i]? = some (some m) → i ∉ dead → m.parent = some p →
      p < i ∧ p ∉ dead ∧ ∃ parent, table[p]? = some (some parent)) :
    ∃ t ms, emptied table dead = some t ∧ compactMembers table dead = some ms ∧ Compacted t ms
      ∧ ∀ i m, (i, m) ∈ alive t ↔ table[i]? = some (some m) ∧ i ∉ dead := by
  obtain ⟨t, ht, hspec⟩ := emptied_spec hrange
  have hfirst : ParentsFirst ([] ++ t) := by
    intro i m p hi hparent
    obtain ⟨hi, hdead⟩ := (hspec i m).mp hi
    obtain ⟨hlt, hp, parent, hparent⟩ := hparents i m p hi hdead hparent
    exact ⟨hlt, parent, (hspec p parent).mpr ⟨hparent, hp⟩⟩
  obtain ⟨ms, hms, hcompacted⟩ := compactFrom_spec hfirst Remaps.empty Compacted.empty
  refine ⟨t, ms, ht, by rw [compactMembers, ht]; exact hms, hcompacted, fun i m => ?_⟩
  rw [mem_alive_iff, hspec]

end

/-! ### A pool and its descents -/

/-- The descents that share a pool: of a named file, and of a file that a scan came to, under the slot
it has. -/
inductive Way
  | root (len : ℕ) (found : Found)
  | within (own depth : ℕ) (found : Found)

def Way.own : Way → Option ℕ
  | .root _ _ => none
  | .within own _ _ => some own

structure Run where
  cfg : Config
  next : ℕ
  way : Way

def Run.result (r : Run) : St :=
  match r.way with
  | .root len found => (walkRoot r.cfg r.next len found).1
  | .within own depth found => (descendWithin r.cfg r.next own depth found).1

/-- A pool's members: what a scan put there itself (directories, disk files, replayed members), and
what the descents sealed. -/
structure Session where
  outer : List Member
  runs : List Run

def Session.members (s : Session) : List Member :=
  s.outer ++ s.runs.flatMap fun r => r.result.members

def Session.dead (s : Session) : List ℕ := s.runs.flatMap fun r => r.result.dead

/-- The pool hands out each slot once, and all are sealed; a scan reserves a parent's slot before its
children's, and a file's before the descent into it. -/
structure Session.Ok (s : Session) (n : ℕ) : Prop where
  slots : (s.members.map Member.slot).Perm (List.range n)
  outer : ∀ m ∈ s.outer, ∀ p, m.parent = some p → p < m.slot ∧ ∃ parent ∈ s.outer, parent.slot = p
  within : ∀ r ∈ s.runs, ∀ o, r.way.own = some o → o < r.next ∧ ∃ m ∈ s.outer, m.slot = o

/-- The pool's table. -/
def Session.table (s : Session) (n : ℕ) : List (Option Member) :=
  (List.range n).map fun i => s.members.find? fun m => m.slot = i

/-- **A descent,** with its last discard. -/
theorem run_grown {r : Run} (hown : ∀ o, r.way.own = some o → o < r.next) :
    ∃ kept, Grown r.way.own (St.start r.next) r.result r.result.members kept r.result.dead := by
  have hgrows : Grows r.way.own (St.start r.next) r.result := by
    obtain ⟨cfg, next, way⟩ := r
    cases way with
    | root len found => exact walkRoot_grows cfg next len found
    | within own depth found => exact descendWithin_grows cfg next own depth found (hown own rfl)
  obtain ⟨new, kept, died, h⟩ := hgrows
  have hnew : r.result.members = new := h.members
  have hdied : r.result.dead = died := h.dead
  exact ⟨kept, by rwa [hnew, hdied]⟩

section
variable {s : Session} {n : ℕ}

theorem Session.Ok.nodup (h : s.Ok n) : (s.members.map Member.slot).Nodup :=
  h.slots.nodup_iff.mpr List.nodup_range

/-- A dead slot is that of a member of some descent. -/
theorem Session.Ok.exists_of_dead (h : s.Ok n) {p : ℕ} (hp : p ∈ s.dead) :
    ∃ r ∈ s.runs, p ∈ r.result.dead ∧ ∃ y ∈ r.result.members, y.slot = p := by
  obtain ⟨r, hr, hdead⟩ := List.mem_flatMap.mp hp
  obtain ⟨kept, hgrown⟩ := run_grown fun o ho => (h.within r hr o ho).1
  exact ⟨r, hr, hdead, hgrown.exists_of_died hdead⟩

/-- What the scan put into the pool itself is not dead. -/
theorem Session.Ok.outer_not_dead (h : s.Ok n) {x : Member} (hx : x ∈ s.outer) :
    x.slot ∉ s.dead := by
  intro hdead
  obtain ⟨r, hr, -, y, hy, hyx⟩ := h.exists_of_dead hdead
  have hnodup := h.nodup
  rw [Session.members, List.map_append, List.nodup_append] at hnodup
  obtain ⟨-, -, hdisjoint⟩ := hnodup
  have hy : y ∈ s.runs.flatMap fun r => r.result.members := List.mem_flatMap.mpr ⟨r, hr, hy⟩
  exact hdisjoint _ (List.mem_map_of_mem hx) _ (List.mem_map_of_mem hy) hyx.symm

/-- Two descents share no slot. -/
theorem Session.Ok.runs_apart (h : s.Ok n) {r r' : Run} (hr : r ∈ s.runs) (hr' : r' ∈ s.runs)
    {x y : Member} (hx : x ∈ r.result.members) (hy : y ∈ r'.result.members)
    (hslot : x.slot = y.slot) : r = r' := by
  have hnodup := h.nodup
  rw [Session.members, List.map_append, List.nodup_append, List.map_flatMap,
    List.nodup_flatMap] at hnodup
  obtain ⟨-, ⟨-, hpairwise⟩, -⟩ := hnodup
  by_contra hne
  have : Std.Symm (Function.onFun List.Disjoint fun r : Run => r.result.members.map Member.slot) :=
    ⟨fun _ _ hab _ hb ha => hab ha hb⟩
  have hdisjoint := hpairwise.forall hr hr' hne
  exact hdisjoint (List.mem_map_of_mem hx) (hslot ▸ List.mem_map_of_mem hy)

/-- **Parents come first, and take what is below them along.** -/
theorem Session.Ok.parent (h : s.Ok n) {x : Member} (hx : x ∈ s.members) {p : ℕ}
    (hparent : x.parent = some p) :
    p < x.slot ∧ (p ∈ s.dead → x.slot ∈ s.dead) ∧ ∃ y ∈ s.members, y.slot = p := by
  obtain hx | hx := List.mem_append.mp hx
  · obtain ⟨hlt, y, hy, rfl⟩ := h.outer x hx p hparent
    exact ⟨hlt, fun hdead => absurd hdead (h.outer_not_dead hy), y, List.mem_append_left _ hy, rfl⟩
  · obtain ⟨r, hr, hx⟩ := List.mem_flatMap.mp hx
    have hwithin := h.within r hr
    obtain ⟨kept, hgrown⟩ := run_grown fun o ho => (hwithin o ho).1
    obtain hown | ⟨y, hy, hyx, hlt⟩ := hgrown.parents x hx
    · rw [hparent] at hown
      obtain ⟨-, y, hy, rfl⟩ := hwithin p hown.symm
      exact ⟨hgrown.above x hx y.slot hown.symm, fun hdead => absurd hdead (h.outer_not_dead hy), y,
        List.mem_append_left _ hy, rfl⟩
    · rw [hparent, Option.some.injEq] at hyx
      subst hyx
      refine ⟨hlt, fun hdead => ?_, y, List.mem_append_right _ (List.mem_flatMap.mpr ⟨r, hr, hy⟩),
        rfl⟩
      obtain ⟨r', hr', hdead, y', hy', hslot⟩ := h.exists_of_dead hdead
      obtain rfl := h.runs_apart hr' hr hy' hy hslot
      have hnodup : (r'.result.members.map Member.slot).Nodup := by
        have hall := h.nodup
        rw [Session.members, List.map_append, List.nodup_append, List.map_flatMap,
          List.nodup_flatMap] at hall
        exact hall.2.1.1 r' hr'
      exact List.mem_flatMap.mpr ⟨r', hr', hgrown.closed hnodup x hx y.slot hdead hparent⟩

/-- The table has each member under its slot, and nothing else. -/
theorem Session.Ok.table_iff (h : s.Ok n) {i : ℕ} {x : Member} :
    (s.table n)[i]? = some (some x) ↔ x ∈ s.members ∧ x.slot = i := by
  have hrange : x ∈ s.members → x.slot < n := fun hx =>
    List.mem_range.mp (h.slots.subset (List.mem_map_of_mem hx))
  rw [Session.table, List.getElem?_map, Option.map_eq_some_iff]
  constructor
  · intro hi
    obtain ⟨k, hk, hfind⟩ := hi
    have hik : k = i := by
      obtain ⟨_, hget⟩ := List.getElem?_eq_some_iff.mp hk
      rw [← hget, List.getElem_range]
    subst hik
    exact ⟨List.mem_of_find?_eq_some hfind, by simpa using List.find?_some hfind⟩
  · intro hx
    obtain ⟨hx, rfl⟩ := hx
    refine ⟨x.slot, by rw [List.getElem?_range (hrange hx)], ?_⟩
    cases hfind : s.members.find? fun m => m.slot = x.slot with
    | none => exact absurd (List.find?_eq_none.mp hfind x hx) (by simp)
    | some y =>
      have hslot : y.slot = x.slot := by simpa using List.find?_some hfind
      rw [List.inj_on_of_nodup_map h.nodup (List.mem_of_find?_eq_some hfind) hx hslot]

/-- **The member table stays well formed.** In a pool that any descents shared, whatever they met, a
parent's slot comes before its children's, and what is below a dead slot is dead.  So
`compact_members` does not panic: it drops the dead slots and no others, keeps the order of the
survivors, and has each point to where its parent went. -/
theorem members_compact (s : Session) (n : ℕ) (h : s.Ok n) :
    (∀ x ∈ s.members, ∀ p, x.parent = some p → p < x.slot ∧ (p ∈ s.dead → x.slot ∈ s.dead))
      ∧ ∃ t ms, emptied (s.table n) s.dead = some t ∧ compactMembers (s.table n) s.dead = some ms
        ∧ Compacted t ms
        ∧ ∀ i m, (i, m) ∈ alive t ↔ (m ∈ s.members ∧ m.slot = i) ∧ i ∉ s.dead := by
  refine ⟨fun x hx p hparent => ?_, ?_⟩
  · obtain ⟨hlt, hdead, -⟩ := h.parent hx hparent
    exact ⟨hlt, hdead⟩
  · have hrange : ∀ d ∈ s.dead, d < (s.table n).length := by
      intro d hd
      obtain ⟨r, hr, -, y, hy, rfl⟩ := h.exists_of_dead hd
      have hmem : y ∈ s.members := List.mem_append_right _ (List.mem_flatMap.mpr ⟨r, hr, hy⟩)
      rw [Session.table, List.length_map, List.length_range]
      exact List.mem_range.mp (h.slots.subset (List.mem_map_of_mem hmem))
    obtain ⟨t, ms, ht, hms, hcompacted, halive⟩ := compactMembers_spec hrange
      fun i m p hi hdead hparent => by
        obtain ⟨hm, rfl⟩ := h.table_iff.mp hi
        obtain ⟨hlt, hclosed, y, hy, rfl⟩ := h.parent hm hparent
        exact ⟨hlt, fun hp => absurd (hclosed hp) hdead, y, h.table_iff.mpr ⟨hy, rfl⟩⟩
    refine ⟨t, ms, ht, hms, hcompacted, fun i m => ?_⟩
    rw [halive, h.table_iff]

end

/-! ### A zip that misbehaves -/

/-- A gzip with a zip in it whose local headers disagree with its central directory, and which has one
file in it. -/
def misbehaved : Found :=
  .mk ⟨[31, 139], none⟩ .gzip .gzip (.nil .done 0)
    (.cons (.stream none)
      (.mk ⟨[80, 75, 3, 4], none⟩ .zip .zip
        (.cons (some 1) 4 (.mk ⟨[7], none⟩ .plain .plain (.nil .done 0) (.nil .done))
          (.nil (.error "zip local headers disagree") 4))
        (.cons (.range 1) (.mk ⟨[7], none⟩ .plain .plain (.nil .done 0) (.nil .done)) (.nil .done)))
      (.nil .done))

def alone : Config := ⟨.full, 0, false, fun _ => ⟨false, 0, true⟩⟩

/-- The first attempt's zip and file have died, the second one's survive. -/
theorem members_compact_once :
    (∀ x ∈ (⟨[], [⟨alone, 0, .root 2 misbehaved⟩]⟩ : Session).members, ∀ p, x.parent = some p →
      p < x.slot ∧ (p ∈ (⟨[], [⟨alone, 0, .root 2 misbehaved⟩]⟩ : Session).dead →
        x.slot ∈ (⟨[], [⟨alone, 0, .root 2 misbehaved⟩]⟩ : Session).dead))
      ∧ (⟨[], [⟨alone, 0, .root 2 misbehaved⟩]⟩ : Session).dead = [1, 2] := by
  have hok : (⟨[], [⟨alone, 0, .root 2 misbehaved⟩]⟩ : Session).Ok 5 := by
    refine ⟨by decide, by simp, ?_⟩
    intro r hr o ho
    rw [List.mem_singleton.mp hr] at ho
    cases ho
  exact ⟨(members_compact _ 5 hok).1, by decide⟩

end Descent

end Hashdex
