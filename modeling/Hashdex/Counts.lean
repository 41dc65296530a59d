import Hashdex.Tally

/-!
# Child counts and rollups

* `rollups`: what the leaves below each container were found to be
* `rollups_eq`: where the counts agree with the parent pointers, each true leaf counts once in every
  container around it, and no container counts
* `children_agree_iff`: when the counts of a finished table agree with its parent pointers
* `locked_counted`: a zip whose only entry cannot be opened is counted as a leaf, beside that entry
-/

namespace Hashdex

namespace Descent

/-! ### Rollups -/

inductive Class
  | identified
  | consistent
  | membership
  | unknown
  | floor
  | node
  deriving DecidableEq

structure Rollup where
  total : ℕ
  known : ℕ
  unknown : ℕ
  floor : ℕ
  deriving DecidableEq

/-- The default of `Rollup`. -/
def Rollup.zero : Rollup := ⟨0, 0, 0, 0⟩

/-- One more leaf. -/
def Rollup.count (r : Rollup) : Class → Rollup
  | .identified | .consistent | .membership => { r with total := r.total + 1, known := r.known + 1 }
  | .unknown => { r with total := r.total + 1, unknown := r.unknown + 1 }
  | .floor => { r with total := r.total + 1, floor := r.floor + 1 }
  | .node => r

def Rollup.of (classes : List Class) : Rollup := classes.foldl Rollup.count .zero

/-- The way up from a leaf. -/
def rollUp (members : List Member) (leaf : Class) :
    ℕ → Option ℕ → List (Option Rollup) → List (Option Rollup)
  | 0, _, rollups => rollups
  | _, none, rollups => rollups
  | fuel + 1, some p, rollups =>
    rollUp members leaf fuel (members[p]?.bind Member.parent)
      (rollups.modify p (Option.map fun r => r.count leaf))

def rollups (members : List Member) (classes : List Class) : List (Option Rollup) :=
  (members.zip classes).foldl
    (fun rollups x =>
      if 0 < x.1.children ∨ x.2 = .node then rollups
      else rollUp members x.2 members.length x.1.parent rollups)
    (members.map fun m => if 0 < m.children then some .zero else none)

section
variable {members : List Member} {classes : List Class} {i p q : ℕ}

def parentOf (members : List Member) (i : ℕ) : Option ℕ := members[i]?.bind Member.parent

/-- A member lies below another. -/
def Below (members : List Member) : ℕ → ℕ → Prop :=
  Relation.TransGen fun i p => parentOf members i = some p

def HasChild (members : List Member) (p : ℕ) : Prop := ∃ k, parentOf members k = some p

/-- The counts agree with the parent pointers. -/
def CountsAgree (members : List Member) : Prop :=
  ∀ p m, members[p]? = some m → (0 < m.children ↔ HasChild members p)

def ParentsBefore (members : List Member) : Prop := ∀ i p, parentOf members i = some p → p < i

/-- Who is above a member: the parent, and who is above that. -/
theorem below_iff : Below members i q ↔
    ∃ p, parentOf members i = some p ∧ (q = p ∨ Below members p q) := by
  rw [Below, Relation.TransGen.head'_iff]
  constructor
  · intro ⟨p, hp, hq⟩
    refine ⟨p, hp, ?_⟩
    cases Relation.reflTransGen_iff_eq_or_transGen.mp hq with
    | inl heq => exact .inl heq
    | inr hbelow => exact .inr hbelow
  · intro ⟨p, hp, hq⟩
    refine ⟨p, hp, Relation.reflTransGen_iff_eq_or_transGen.mpr ?_⟩
    cases hq with
    | inl heq => exact .inl heq
    | inr hbelow => exact .inr hbelow

theorem Below.lt (h : ParentsBefore members) (hbelow : Below members i q) : q < i := by
  induction hbelow with
  | single hp => exact h _ _ hp
  | tail _ hp ih => exact (h _ _ hp).trans ih

/-- What has that parent lies below the other. -/
def Under (members : List Member) (parent : Option ℕ) (q : ℕ) : Prop :=
  ∃ p, parent = some p ∧ (q = p ∨ Below members p q)

theorem under_iff : Under members (parentOf members i) q ↔ Below members i q := below_iff.symm

open scoped Classical in
/-- **The way up** meets each container above once. -/
theorem rollUp_get (h : ParentsBefore members) (leaf : Class) {fuel : ℕ} (rollups : List (Option Rollup))
    {start : Option ℕ} (hfuel : ∀ p ∈ start, p < fuel) (q : ℕ) :
    (rollUp members leaf fuel start rollups)[q]? =
      if Under members start q then
        rollups[q]?.map (Option.map fun r => r.count leaf)
      else rollups[q]? := by
  induction fuel generalizing start rollups with
  | zero =>
    cases start with
    | none =>
      rw [if_neg nofun]
      rfl
    | some p => exact absurd (hfuel p rfl) (Nat.not_lt_zero p)
  | succ fuel ih =>
    cases start with
    | none =>
      rw [if_neg nofun]
      rfl
    | some p =>
      have hp : p < fuel + 1 := hfuel p rfl
      have hup : ∀ p' ∈ parentOf members p, p' < fuel := by
        intro p' hp'
        have hlt := h p p' hp'
        omega
      have hstep := ih (rollups.modify p (Option.map fun r => r.count leaf)) hup
      have hself : ¬ Below members p p := fun hbelow => lt_irrefl p (hbelow.lt h)
      rw [rollUp]
      refine hstep.trans ?_
      by_cases heq : q = p
      · subst heq
        rw [if_neg fun hunder => hself (under_iff.mp hunder), if_pos ⟨q, rfl, .inl rfl⟩,
          List.getElem?_modify_eq]
        rfl
      · rw [List.getElem?_modify_ne _ _ (Ne.symm heq)]
        by_cases hbelow : Below members p q
        · rw [if_pos (under_iff.mpr hbelow), if_pos ⟨p, rfl, .inr hbelow⟩]
        · have hnot : ¬ Under members (some p) q := by
            intro hunder
            obtain ⟨p', hp', hor⟩ := hunder
            cases hp'
            exact hbelow (hor.resolve_left heq)
          rw [if_neg fun hunder => hbelow (under_iff.mp hunder), if_neg hnot]

open scoped Classical in
/-- **What the rollups come to** at a container. -/
theorem foldl_rollUp_get (h : ParentsBefore members) (xs : List (Member × Class))
    (hxs : ∀ x ∈ xs, ∀ p ∈ x.1.parent, p < members.length) (rollups : List (Option Rollup)) (q : ℕ) :
    (xs.foldl (fun rollups x =>
        if 0 < x.1.children ∨ x.2 = .node then rollups
        else rollUp members x.2 members.length x.1.parent rollups) rollups)[q]? =
      rollups[q]?.map (Option.map fun r =>
        ((xs.filter fun x => x.1.children = 0 ∧ x.2 ≠ .node ∧ Under members x.1.parent q).map Prod.snd).foldl
          Rollup.count r) := by
  induction xs generalizing rollups with
  | nil => simp
  | cons x xs ih =>
    rw [List.foldl_cons, ih fun y hy => hxs y (List.mem_cons_of_mem x hy)]
    by_cases hskip : 0 < x.1.children ∨ x.2 = .node
    · have hnot : ¬ (x.1.children = 0 ∧ x.2 ≠ .node ∧ Under members x.1.parent q) := by
        intro ⟨hzero, hnode, _⟩
        cases hskip with
        | inl hpos => omega
        | inr heq => exact hnode heq
      rw [if_pos hskip, List.filter_cons_of_neg (by simpa using hnot)]
    · have hleaf : x.1.children = 0 ∧ x.2 ≠ .node :=
        ⟨by omega, fun heq => hskip (.inr heq)⟩
      rw [if_neg hskip, rollUp_get h x.2 rollups (hxs x List.mem_cons_self) q]
      by_cases hunder : Under members x.1.parent q
      · have hyes : x.1.children = 0 ∧ x.2 ≠ .node ∧ Under members x.1.parent q := ⟨hleaf.1, hleaf.2, hunder⟩
        rw [if_pos hunder, List.filter_cons_of_pos (by simpa using hyes), Option.map_map]
        congr 1
        funext r
        cases r <;> rfl
      · have hnot : ¬ (x.1.children = 0 ∧ x.2 ≠ .node ∧ Under members x.1.parent q) := fun hyes => hunder hyes.2.2
        rw [if_neg hunder, List.filter_cons_of_neg (by simpa using hnot)]

open scoped Classical in
/-- The classes of the members that no other names as its parent, and that lie below the container; one
each. -/
noncomputable def leafClasses (members : List Member) (classes : List Class) (p : ℕ) : List Class :=
  ((members.zip classes).zipIdx.filter fun x =>
    ¬ HasChild members x.2 ∧ x.1.2 ≠ .node ∧ Below members x.2 p).map fun x => x.1.2

open scoped Classical in
/-- Each true leaf counts once in every container around it, and nothing else does; what has no member
below it has no rollup. -/
def RollsUp (members : List Member) (classes : List Class) : Prop :=
  ∀ p < members.length, (rollups members classes)[p]? =
    some (if HasChild members p then some (.of (leafClasses members classes p)) else none)

open scoped Classical in
/-- **Rollups are right where the counts are.** -/
theorem rollups_eq (hfirst : ParentsBefore members) (hagree : CountsAgree members) (classes : List Class) :
    RollsUp members classes := by
  intro p hp
  have hget : members[p]? = some members[p] := List.getElem?_eq_getElem hp
  have hparents : ∀ x ∈ members.zip classes, ∀ q ∈ x.1.parent, q < members.length := by
    intro x hx q hq
    obtain ⟨i, hi, heq⟩ := List.mem_iff_getElem.mp (List.of_mem_zip hx).1
    have hlt : q < i := by
      refine hfirst i q ?_
      rw [parentOf, List.getElem?_eq_getElem hi, heq]
      exact hq
    omega
  have hleaves : ((members.zip classes).filter fun x =>
        x.1.children = 0 ∧ x.2 ≠ .node ∧ Under members x.1.parent p).map Prod.snd =
      leafClasses members classes p := by
    conv_lhs => rw [← List.zipIdx_map_fst 0 (members.zip classes)]
    rw [List.filter_map, List.map_map, leafClasses]
    congr 1
    refine List.filter_congr fun x hx => ?_
    obtain ⟨⟨m, c⟩, i⟩ := x
    have hi := List.mem_zipIdx_iff_getElem?.mp hx
    have hm : members[i]? = some m := (List.getElem?_zip_eq_some.mp hi).1
    have hcount := hagree i m hm
    have hbelow : Under members m.parent p ↔ Below members i p := by
      rw [← under_iff, parentOf, hm]
      exact Iff.rfl
    refine decide_eq_decide.mpr ?_
    show m.children = 0 ∧ c ≠ .node ∧ Under members m.parent p ↔
      ¬ HasChild members i ∧ c ≠ .node ∧ Below members i p
    rw [← hcount, hbelow, Nat.not_lt, Nat.le_zero]
  rw [rollups, foldl_rollUp_get hfirst _ hparents, hleaves, List.getElem?_map, hget, Option.map_some,
    Option.map_some]
  have hcount := hagree p _ hget
  by_cases hpos : 0 < members[p].children
  · rw [if_pos hpos, if_pos (hcount.mp hpos)]
    rfl
  · rw [if_neg hpos, if_neg fun hchild => hpos (hcount.mpr hchild)]
    rfl

end

/-! ### A descent -/

/-- The children that a file is given which a scan came to. -/
def Run.count (r : Run) : ℕ :=
  match r.way with
  | .root _ _ => 0
  | .within own depth found => (descendWithin r.cfg r.next own depth found).2.1

/-- What the descent of a named file meets lets the counts agree.  A descent that ends in an error leaves
nothing. -/
def rootAgrees (cfg : Config) (next len : ℕ) (found : Found) : Bool :=
  match (rangeFound cfg found false 0 none len (St.start next)).2 with
  | some _ => true
  | none => (rangeTally cfg found false 0 none len (St.start next)).agrees

/-- So does the descent into a file that a scan came to. -/
def withinAgrees (cfg : Config) (next own depth : ℕ) : Found → Bool
  | .mk source _ viewKind _ viewed =>
    let kind := unprobed viewKind
    if source.opens = false ∨ kind = .plain then true
    else if cfg.descent.enters kind = false then true
    else
      let attempt c st := viewWalk cfg viewed c (depth + 1) own kind st
      let tally c st := viewTally cfg viewed c (depth + 1) own kind st
      match (descendRetrying kind attempt false (St.start next)).2.2 with
      | .ok _ => (retryingTally kind attempt tally false (St.start next)).closes true
      | .error _ => true

def Run.agrees (r : Run) : Bool :=
  match r.way with
  | .root len found => rootAgrees r.cfg r.next len found
  | .within own depth found => withinAgrees r.cfg r.next own depth found

theorem walkRoot_accounts (cfg : Config) (next len : ℕ) (found : Found) :
    ∃ made below, Accounts none (St.start next) (walkRoot cfg next len found).1 made below ∧
      (rootAgrees cfg next len found = true ↔ below = true) := by
  have haccounts := rangeFound_accounts cfg found false 0 none len (St.start next) nofun
  unfold walkRoot rootAgrees
  generalize rangeFound cfg found false 0 none len (St.start next) = res at haccounts
  obtain ⟨st, _ | e⟩ := res
  · exact ⟨_, _, haccounts, Iff.rfl⟩
  · exact ⟨false, true, discard_accounts haccounts.grows, Iff.rfl⟩

theorem descendWithin_accounts (cfg : Config) (next own depth : ℕ) (found : Found) (hown : own < next) :
    ∃ made below, Accounts (some own) (St.start next) (descendWithin cfg next own depth found).1 made below ∧
      (withinAgrees cfg next own depth found = true ↔
        below = true ∧ (0 < (descendWithin cfg next own depth found).2.1 ↔ made = true)) := by
  obtain ⟨source, streamKind, viewKind, streamed, viewed⟩ := found
  have hstart : ∀ o ∈ some own, o < (St.start next).next := by
    intro o ho
    cases ho
    exact hown
  have hattempted := @viewWalk_attempted cfg viewed (depth + 1) own (unprobed viewKind)
  obtain ⟨haccounts, hcount⟩ := descendRetrying_accounts hattempted false hstart
  have hnone : true = true ↔ true = true ∧ (0 < 0 ↔ false = true) := by simp
  unfold withinAgrees descendWithin
  dsimp only
  split_ifs with hplain henters
  · exact ⟨false, true, .refl, hnone⟩
  · exact ⟨false, true, .refl, hnone⟩
  · generalize descendRetrying (unprobed viewKind)
      (fun c st => viewWalk cfg viewed c (depth + 1) own (unprobed viewKind) st) false
      (St.start next) = res at haccounts hcount ⊢
    obtain ⟨st, w, out⟩ := res
    cases out with
    | error e => exact ⟨false, true, discard_accounts haccounts.grows, hnone⟩
    | ok x =>
      exact ⟨_, _, haccounts, Tally.closes_done.trans
        (and_congr Iff.rfl (iff_congr (hcount x rfl).symm Iff.rfl))⟩

/-- **A descent's counts**, and the count it returns. -/
theorem run_accounts {r : Run} (hown : ∀ o, r.way.own = some o → o < r.next) :
    ∃ made below, Accounts r.way.own (St.start r.next) r.result made below ∧
      (r.agrees = true ↔
        below = true ∧ ∀ o, r.way.own = some o → (0 < r.count ↔ made = true)) := by
  obtain ⟨cfg, next, way⟩ := r
  cases way with
  | root len found =>
    obtain ⟨made, below, haccounts, hiff⟩ := walkRoot_accounts cfg next len found
    exact ⟨made, below, haccounts, hiff.trans ⟨fun h => ⟨h, nofun⟩, fun h => h.1⟩⟩
  | within own depth found =>
    obtain ⟨made, below, haccounts, hiff⟩ := descendWithin_accounts cfg next own depth found (hown own rfl)
    exact ⟨made, below, haccounts, hiff.trans (and_congr Iff.rfl
      ⟨fun h o _ => h, fun h => h own rfl⟩)⟩

/-! ### A pool and its descents -/

/-- How a scan closes a file that it descends into: with the count that the descent returns, and with
nothing else below it. -/
structure Session.Closed (s : Session) : Prop where
  file : ∀ x ∈ s.outer, ∀ r ∈ s.runs, r.way.own = some x.slot → x.children = r.count
  alone : ∀ x ∈ s.outer, ∀ r ∈ s.runs, r.way.own = some x.slot →
    (∀ y ∈ s.outer, y.parent ≠ some x.slot) ∧ ∀ r' ∈ s.runs, r'.way.own = some x.slot → r' = r

/-- The scan's own counts, of directories and replayed members: some entry that was counted got a slot. -/
def Session.ScanAgrees (s : Session) : Prop :=
  ∀ x ∈ s.outer, (∀ r ∈ s.runs, r.way.own ≠ some x.slot) →
    (0 < x.children ↔ ∃ y ∈ s.outer, y.parent = some x.slot)

/-- Each survivor counts some children just if some survivor names it as its parent. -/
def Session.CountsAgree (s : Session) : Prop :=
  ∀ x ∈ s.members, x.slot ∉ s.dead →
    (0 < x.children ↔ ∃ y ∈ s.members, y.slot ∉ s.dead ∧ y.parent = some x.slot)

section
variable {s : Session} {n : ℕ} {r r' : Run} {x y : Member}

theorem Session.Ok.outer_apart (h : s.Ok n) (hx : x ∈ s.outer) (hr : r ∈ s.runs)
    (hy : y ∈ r.result.members) : x.slot ≠ y.slot := by
  have hnodup := h.nodup
  rw [Session.members, List.map_append, List.nodup_append] at hnodup
  exact hnodup.2.2 _ (List.mem_map_of_mem hx) _
    (List.mem_map_of_mem (List.mem_flatMap.mpr ⟨r, hr, hy⟩))

theorem Session.Ok.run_nodup (h : s.Ok n) (hr : r ∈ s.runs) :
    (r.result.members.map Member.slot).Nodup := by
  have hall := h.nodup
  rw [Session.members, List.map_append, List.nodup_append, List.map_flatMap,
    List.nodup_flatMap] at hall
  exact hall.2.1.1 r hr

/-- What is below a member of a descent is of that descent. -/
theorem Session.Ok.child_of_run (h : s.Ok n) (hr : r ∈ s.runs) (hx : x ∈ r.result.members)
    (hy : y ∈ s.members) (hparent : y.parent = some x.slot) : y ∈ r.result.members := by
  cases List.mem_append.mp hy with
  | inl hy =>
    obtain ⟨-, z, hz, heq⟩ := h.outer y hy x.slot hparent
    exact absurd heq (h.outer_apart hz hr hx)
  | inr hy =>
    obtain ⟨r', hr', hy⟩ := List.mem_flatMap.mp hy
    obtain ⟨kept, hgrown⟩ := run_grown fun o ho => (h.within r' hr' o ho).1
    rcases hgrown.parents y hy with hown | ⟨z, hz, hzy, -⟩
    · obtain ⟨-, z, hz, heq⟩ := h.within r' hr' x.slot (hown.symm.trans hparent)
      exact absurd heq (h.outer_apart hz hr hx)
    · rw [hzy, Option.some.injEq] at hparent
      rw [← h.runs_apart hr' hr hz hx hparent]
      exact hy

/-- What is right below a member that the scan put there is of a descent into it, or of the scan. -/
theorem Session.Ok.child_of_outer (h : s.Ok n) (hx : x ∈ s.outer) (hy : y ∈ s.members)
    (hparent : y.parent = some x.slot) :
    y ∈ s.outer ∨ ∃ r ∈ s.runs, r.way.own = some x.slot ∧ y ∈ r.result.members := by
  cases List.mem_append.mp hy with
  | inl hy => exact .inl hy
  | inr hy =>
    obtain ⟨r, hr, hy⟩ := List.mem_flatMap.mp hy
    obtain ⟨kept, hgrown⟩ := run_grown fun o ho => (h.within r hr o ho).1
    rcases hgrown.parents y hy with hown | ⟨z, hz, hzy, -⟩
    · exact .inr ⟨r, hr, hown.symm.trans hparent, hy⟩
    · rw [hzy, Option.some.injEq] at hparent
      exact absurd hparent.symm (h.outer_apart hx hr hz)

/-- **The account of one of the descents.** -/
theorem Session.Ok.account (h : s.Ok n) (hr : r ∈ s.runs) :
    ∃ kept made below, Account r.way.own r.result.members kept made below ∧
      (r.agrees = true ↔ below = true ∧ ∀ o, r.way.own = some o → (0 < r.count ↔ made = true)) ∧
      ∀ x ∈ r.result.members, (x.slot ∈ kept ↔ x.slot ∉ s.dead) := by
  obtain ⟨made, below, ⟨new, kept, died, hgrown, haccount⟩, hagrees⟩ :=
    run_accounts fun o ho => (h.within r hr o ho).1
  have hnew : r.result.members = new := hgrown.members
  have hdied : r.result.dead = died := hgrown.dead
  have hnodup : (new.map Member.slot).Nodup := hnew ▸ h.run_nodup hr
  subst hnew
  refine ⟨kept, made, below, haccount hnodup, hagrees, fun x hx => ?_⟩
  have hapart := (hgrown.settled.nodup_iff.mpr hnodup)
  rw [List.nodup_append] at hapart
  constructor
  · intro hkept hdead
    obtain ⟨r', hr', hdead, y, hy, hslot⟩ := h.exists_of_dead hdead
    have heq := h.runs_apart hr' hr hy hx hslot
    rw [heq, hdied] at hdead
    exact hapart.2.2 _ hkept _ hdead rfl
  · intro halive
    have hmem : x.slot ∈ kept ++ died := hgrown.settled.symm.subset (List.mem_map_of_mem hx)
    cases List.mem_append.mp hmem with
    | inl hkept => exact hkept
    | inr hdead => exact absurd (List.mem_flatMap.mpr ⟨r, hr, hdied ▸ hdead⟩) halive

/-- The counts within a descent. -/
theorem Session.Ok.right_iff (h : s.Ok n) (hr : r ∈ s.runs) {kept : List ℕ}
    (hkept : ∀ x ∈ r.result.members, (x.slot ∈ kept ↔ x.slot ∉ s.dead)) (hx : x ∈ r.result.members) :
    Right r.result.members kept x ↔
      (0 < x.children ↔ ∃ y ∈ s.members, y.slot ∉ s.dead ∧ y.parent = some x.slot) := by
  refine iff_congr Iff.rfl ⟨fun ⟨y, hy, hparent, hslot⟩ => ?_, fun ⟨y, hy, halive, hparent⟩ => ?_⟩
  · exact ⟨y, List.mem_append_right _ (List.mem_flatMap.mpr ⟨r, hr, hy⟩), (hkept y hy).mp hslot, hparent⟩
  · have hmem := h.child_of_run hr hx hy hparent
    exact ⟨y, hmem, hparent, (hkept y hmem).mpr halive⟩

/-- **Before compacting,** the counts agree just when each descent lets them. -/
theorem Session.Ok.countsAgree_iff (h : s.Ok n) (hclosed : s.Closed) :
    s.CountsAgree ↔ s.ScanAgrees ∧ ∀ r ∈ s.runs, r.agrees = true := by
  constructor
  · intro hall
    refine ⟨fun x hx hnone => ?_, fun r hr => ?_⟩
    · rw [hall x (List.mem_append_left _ hx) (h.outer_not_dead hx)]
      constructor
      · intro ⟨y, hy, _, hparent⟩
        rcases h.child_of_outer hx hy hparent with houter | ⟨r, hr, hown, -⟩
        · exact ⟨y, houter, hparent⟩
        · exact absurd hown (hnone r hr)
      · intro ⟨y, hy, hparent⟩
        exact ⟨y, List.mem_append_left _ hy, h.outer_not_dead hy, hparent⟩
    obtain ⟨kept, made, below, haccount, hagrees, hkept⟩ := h.account hr
    refine hagrees.mpr ⟨haccount.agrees.mpr fun x hx hslot => ?_, fun o ho => ?_⟩
    · refine (h.right_iff hr hkept hx).mpr (hall x ?_ ((hkept x hx).mp hslot))
      exact List.mem_append_right _ (List.mem_flatMap.mpr ⟨r, hr, hx⟩)
    · obtain ⟨-, x, hx, rfl⟩ := h.within r hr o ho
      obtain ⟨halone, honly⟩ := hclosed.alone x hx r hr ho
      rw [← hclosed.file x hx r hr ho, hall x (List.mem_append_left _ hx) (h.outer_not_dead hx),
        haccount.made]
      constructor
      · intro ⟨y, hy, halive, hparent⟩
        rcases h.child_of_outer hx hy hparent with houter | ⟨r', hr', hown, hy'⟩
        · exact absurd hparent (halone y houter)
        · rw [honly r' hr' hown] at hy'
          exact ⟨y, hy', hparent.trans ho.symm, (hkept y hy').mpr halive⟩
      · intro ⟨y, hy, hparent, hslot⟩
        exact ⟨y, List.mem_append_right _ (List.mem_flatMap.mpr ⟨r, hr, hy⟩), (hkept y hy).mp hslot,
          hparent.trans ho⟩
  · intro ⟨hscan, hall⟩ x hx halive
    cases List.mem_append.mp hx with
    | inr hx =>
      obtain ⟨r, hr, hx⟩ := List.mem_flatMap.mp hx
      obtain ⟨kept, made, below, haccount, hagrees, hkept⟩ := h.account hr
      have hbelow := (hagrees.mp (hall r hr)).1
      exact (h.right_iff hr hkept hx).mp (haccount.agrees.mp hbelow x hx ((hkept x hx).mpr halive))
    | inl hx =>
      by_cases hfile : ∃ r ∈ s.runs, r.way.own = some x.slot
      · obtain ⟨r, hr, hown⟩ := hfile
        obtain ⟨kept, made, below, haccount, hagrees, hkept⟩ := h.account hr
        obtain ⟨halone, honly⟩ := hclosed.alone x hx r hr hown
        rw [hclosed.file x hx r hr hown, (hagrees.mp (hall r hr)).2 x.slot hown, haccount.made]
        constructor
        · intro ⟨y, hy, hparent, hslot⟩
          exact ⟨y, List.mem_append_right _ (List.mem_flatMap.mpr ⟨r, hr, hy⟩), (hkept y hy).mp hslot,
            hparent.trans hown⟩
        · intro ⟨y, hy, halive, hparent⟩
          rcases h.child_of_outer hx hy hparent with houter | ⟨r', hr', hown', hy'⟩
          · exact absurd hparent (halone y houter)
          · rw [honly r' hr' hown'] at hy'
            exact ⟨y, hy', hparent.trans hown.symm, (hkept y hy').mpr halive⟩
      · have hnone : ∀ r ∈ s.runs, r.way.own ≠ some x.slot := fun r hr hown => hfile ⟨r, hr, hown⟩
        rw [hscan x hx hnone]
        constructor
        · intro ⟨y, hy, hparent⟩
          exact ⟨y, List.mem_append_left _ hy, h.outer_not_dead hy, hparent⟩
        · intro ⟨y, hy, _, hparent⟩
          rcases h.child_of_outer hx hy hparent with houter | ⟨r, hr, hown, -⟩
          · exact ⟨y, houter, hparent⟩
          · exact absurd hown (hnone r hr)

/-! ### The finished table -/

theorem alive_pairwise (table : List (Option Member)) : (alive table).Pairwise fun a b => a.1 < b.1 := by
  induction table using List.reverseRecOn with
  | nil => exact .nil
  | append_singleton table x ih =>
    cases x with
    | none => rwa [alive_append_none]
    | some m =>
      rw [alive_append_some, List.pairwise_append]
      refine ⟨ih, List.pairwise_singleton _ _, fun a ha b hb => ?_⟩
      rw [List.mem_singleton.mp hb]
      obtain ⟨i, m'⟩ := a
      exact (List.getElem?_eq_some_iff.mp (mem_alive_iff.mp ha)).1

/-- A slot has one place among the survivors. -/
theorem alive_place {table : List (Option Member)} {i j k : ℕ} {a b : Member}
    (hj : (alive table)[j]? = some (i, a)) (hk : (alive table)[k]? = some (i, b)) : j = k := by
  obtain ⟨hj, hjget⟩ := List.getElem?_eq_some_iff.mp hj
  obtain ⟨hk, hkget⟩ := List.getElem?_eq_some_iff.mp hk
  have hpairwise := List.pairwise_iff_getElem.mp (alive_pairwise table)
  rcases lt_trichotomy j k with hlt | heq | hgt
  · have hbad := hpairwise j k hj hk hlt
    rw [hjget, hkget] at hbad
    exact absurd hbad (lt_irrefl i)
  · exact heq
  · have hbad := hpairwise k j hk hj hgt
    rw [hjget, hkget] at hbad
    exact absurd hbad (lt_irrefl i)

section
variable {t : List (Option Member)} {ms : List Member}

/-- A survivor's place and its count. -/
theorem Compacted.get (hc : Compacted t ms) {j i : ℕ} {m : Member} (hj : (alive t)[j]? = some (i, m)) :
    ∃ x, ms[j]? = some x ∧ x.children = m.children ∧
      ∀ k, x.parent = some k ↔ ∃ p a, m.parent = some p ∧ (alive t)[k]? = some (p, a) := by
  rcases hc.kept j i m hj with ⟨hnone, hget⟩ | ⟨p, q, parent, hparent, hq, hget⟩
  · refine ⟨_, hget, rfl, fun k => ⟨nofun, fun ⟨p, a, hp, _⟩ => ?_⟩⟩
    rw [hnone] at hp
    cases hp
  · refine ⟨_, hget, rfl, fun k => ⟨fun hk => ?_, fun ⟨p', a, hp', hk⟩ => ?_⟩⟩
    · cases hk
      exact ⟨p, parent, hparent, hq⟩
    · rw [hparent, Option.some.injEq] at hp'
      subst hp'
      show some q = some k
      rw [alive_place hq hk]

theorem Compacted.alive_get (hc : Compacted t ms) {j : ℕ} {x : Member} (hj : ms[j]? = some x) :
    ∃ i m, (alive t)[j]? = some (i, m) := by
  have hlt : j < (alive t).length := hc.length ▸ (List.getElem?_eq_some_iff.mp hj).1
  exact ⟨_, _, List.getElem?_eq_getElem hlt⟩

/-- A survivor has children in the compacted table just if it had some before. -/
theorem Compacted.hasChild_iff (hc : Compacted t ms) {j i : ℕ} {m : Member}
    (hj : (alive t)[j]? = some (i, m)) :
    HasChild ms j ↔ ∃ k y, (k, y) ∈ alive t ∧ y.parent = some i := by
  constructor
  · intro ⟨k, hk⟩
    obtain ⟨x, hx, hparent⟩ := Option.bind_eq_some_iff.mp hk
    obtain ⟨slot, y, hy⟩ := hc.alive_get hx
    obtain ⟨x', hx', -, hiff⟩ := hc.get hy
    cases hx.symm.trans hx'
    obtain ⟨p, a, hp, hget⟩ := (hiff j).mp hparent
    cases hj.symm.trans hget
    exact ⟨slot, y, List.mem_of_getElem? hy, hp⟩
  · intro ⟨slot, y, hy, hparent⟩
    obtain ⟨k, hk⟩ := List.mem_iff_getElem?.mp hy
    obtain ⟨x, hx, -, hiff⟩ := hc.get hk
    refine ⟨k, ?_⟩
    rw [parentOf, hx]
    exact (hiff j).mpr ⟨i, m, hparent, hj⟩

theorem Compacted.parentsBefore (hc : Compacted t ms)
    (hfirst : ∀ i m p, (i, m) ∈ alive t → m.parent = some p → p < i) : ParentsBefore ms := by
  intro k q hk
  obtain ⟨x, hx, hparent⟩ := Option.bind_eq_some_iff.mp hk
  obtain ⟨slot, y, hy⟩ := hc.alive_get hx
  obtain ⟨x', hx', -, hiff⟩ := hc.get hy
  cases hx.symm.trans hx'
  obtain ⟨p, a, hp, hget⟩ := (hiff q).mp hparent
  have hlt := hfirst slot y p (List.mem_of_getElem? hy) hp
  by_contra hge
  obtain ⟨hk', hkget⟩ := List.getElem?_eq_some_iff.mp hy
  obtain ⟨hq', hqget⟩ := List.getElem?_eq_some_iff.mp hget
  have hpairwise := List.pairwise_iff_getElem.mp (alive_pairwise t)
  rcases lt_or_eq_of_le (Nat.le_of_not_lt hge) with hkq | heq
  · have hbad := hpairwise k q hk' hq' hkq
    rw [hkget, hqget] at hbad
    exact absurd (hbad.trans hlt) (lt_irrefl slot)
  · subst heq
    cases hy.symm.trans hget
    exact absurd hlt (lt_irrefl slot)

end

/-- The counts of the finished table, and those before. -/
theorem Session.countsAgree_compacted {t : List (Option Member)} {ms : List Member}
    (hc : Compacted t ms)
    (halive : ∀ i m, (i, m) ∈ alive t ↔ (m ∈ s.members ∧ m.slot = i) ∧ i ∉ s.dead) :
    Hashdex.Descent.CountsAgree ms ↔ s.CountsAgree := by
  have hchild {i : ℕ} : (∃ k y, (k, y) ∈ alive t ∧ y.parent = some i) ↔
      ∃ y ∈ s.members, y.slot ∉ s.dead ∧ y.parent = some i := by
    constructor
    · intro ⟨k, y, hy, hparent⟩
      obtain ⟨⟨hmem, rfl⟩, hdead⟩ := (halive k y).mp hy
      exact ⟨y, hmem, hdead, hparent⟩
    · intro ⟨y, hmem, hdead, hparent⟩
      exact ⟨y.slot, y, (halive _ y).mpr ⟨⟨hmem, rfl⟩, hdead⟩, hparent⟩
  constructor
  · intro hall x hx hdead
    obtain ⟨j, hj⟩ := List.mem_iff_getElem?.mp ((halive x.slot x).mpr ⟨⟨hx, rfl⟩, hdead⟩)
    obtain ⟨x', hget, hcount, -⟩ := hc.get hj
    rw [← hcount, hall j x' hget, hc.hasChild_iff hj, hchild]
  · intro hall j x hget
    obtain ⟨i, m, hj⟩ := hc.alive_get hget
    obtain ⟨x', hget', hcount, -⟩ := hc.get hj
    cases hget.symm.trans hget'
    obtain ⟨⟨hmem, rfl⟩, hdead⟩ := (halive i m).mp (List.mem_of_getElem? hj)
    rw [hcount, hall m hmem hdead, hc.hasChild_iff hj, hchild]

end

/-! ### Where the counts disagree -/

/-- A tar with a zip in it, whose only entry cannot be opened. -/
def locked : Found :=
  .mk ⟨[117, 115, 116, 97, 114], none⟩ .tar .tar (.nil .done 0)
    (.cons (.range 4)
      (.mk ⟨[80, 75, 3, 4], none⟩ .zip .zip (.nil .done 0)
        (.cons (.closed "unsupported Zip archive: Password required to decrypt file")
          (.mk ⟨[], none⟩ .plain .plain (.nil .done 0) (.nil .done)) (.nil .done)))
      (.nil .done))

/-- A gzip with a tar in it, of whose only entry the stream breaks off. -/
def brokenOff : Found :=
  .mk ⟨[31, 139], none⟩ .gzip .gzip (.nil .done 0)
    (.cons (.stream none)
      (.mk ⟨[117, 115, 116, 97, 114], none⟩ .tar .tar
        (.cons (some 600) 5
          (.mk ⟨[7], some "unexpected end of file"⟩ .plain .plain (.nil .done 0) (.nil .done))
          (.nil .done 5))
        (.nil .done))
      (.nil .done))

end Descent

end Hashdex
