import Hashdex.Compact

/-!
# The children that a member counts

A walk counts the entries it comes to, and a member is given that count when it is closed; the entries
get slots of their own elsewhere.  An entry that comes when the cap on the members is exhausted, or whose
bytes cannot be read, is counted without a slot; a zip entry that cannot be opened gets a slot without
being counted; and a container that is left on an error is given no count.

* `Tally`: what of all this a walk meets
* `streamWalk_accounts`, `entryWalk_accounts`, …: one for each part of the walk
-/

namespace Hashdex

namespace Descent

/-! ### Tallies -/

/-- Of a walk over entries: whether one of them got a slot, how many were counted, and whether the counts
agree in all of them. -/
structure Tally where
  made : Bool
  counted : ℕ
  agrees : Bool
  deriving DecidableEq

def Tally.nil : Tally := ⟨false, 0, true⟩

def Tally.and (t t' : Tally) : Tally :=
  ⟨t.made || t'.made, t.counted + t'.counted, t.agrees && t'.agrees⟩

/-- Closed after the walk, the container has the children that were made: none were, if it was left on an
error; and otherwise some were just if some were counted. -/
def Tally.closes (t : Tally) (done : Bool) : Bool :=
  t.agrees && (if done then t.made == decide (0 < t.counted) else !t.made)

theorem Tally.closes_done {t : Tally} :
    t.closes true = true ↔ t.agrees = true ∧ (0 < t.counted ↔ t.made = true) := by
  rw [Tally.closes, if_pos rfl, Bool.and_eq_true, beq_iff_eq]
  refine and_congr Iff.rfl ⟨fun heq => ?_, fun hiff => ?_⟩
  · rw [heq, decide_eq_true_iff]
  · rw [Bool.eq_iff_iff, decide_eq_true_iff, hiff]

theorem Tally.closes_left {t : Tally} :
    t.closes false = true ↔ t.agrees = true ∧ (0 < 0 ↔ t.made = true) := by
  rw [Tally.closes, if_neg Bool.false_ne_true, Bool.and_eq_true]
  simp

/-- The ways over the entries of a seekable container. -/
structure Tallies where
  entries : Kind → St → Tally
  squash : ℕ → List ℕ → St → Tally
  erofsAlloc : St → Tally
  erofsRun : ℕ → List (ℕ × ℕ) → St → Tally

/-- `Walkers.walk`'s.  The first pass over an erofs counts the packed files when they get their slots. -/
def Tallies.walk (cfg : Config) (viewed : Viewed) (kind : Kind) (w : Walkers) (t : Tallies) (st : St) :
    Tally :=
  match kind with
  | .plain | .sevenZ => .nil
  | .squashFs =>
    let (slots, st) := allocBatch cfg viewed st
    t.squash st.next slots st
  | .erofs =>
    let first := t.erofsAlloc st
    let (st, slots, walked) := w.erofsAlloc st
    match walked with
    | .failed _ _ _ _ => first
    | .ended _ _ _ =>
      let second := t.erofsRun st.next slots st
      ⟨first.made || second.made, first.counted + slots.length, first.agrees && second.agrees⟩
  | kind => t.entries kind st

/-- `descendRetrying`'s: what an abandoned attempt made does not count. -/
def retryingTally (kind : Kind) (attempt : Bool → St → St × Walked) (tally : Bool → St → Tally)
    (conservative : Bool) (st : St) : Tally :=
  let (st', w) := attempt conservative st
  match viewResult kind w with
  | .error (.retry _) =>
    if conservative then tally conservative st else tally true (st'.discard st.slots.length)
  | _ => tally conservative st

/-- `runMember`'s. -/
def memberAgrees (cfg : Config) (conservative : Bool) (depth : ℕ) (source : Source) (kind : Kind)
    (arms : St → St × Walked) (attempt : Bool → St → St × Walked) (armsTally : St → Tally)
    (tally : Bool → St → Tally) (st : St) : Bool :=
  if source.opens = false then true
  else if tooDeep cfg depth kind then true
  else if cfg.descent.enters kind = false ∧ kind ≠ .plain then true
  else if spools cfg conservative kind ∧ cfg.descent.enters kind then
    match source.error with
    | some _ => true
    | none =>
      (retryingTally kind attempt tally conservative st).closes
        (descendRetrying kind attempt conservative st).2.2.isOk
  else if kind.hasEntries then
    (armsTally st).closes (streamResult kind source.bytes (arms st).2).2.isOk
  else true

/-- `runRanged`'s. -/
def rangedAgrees (cfg : Config) (conservative : Bool) (depth : ℕ) (kind : Kind)
    (attempt : Bool → St → St × Walked) (tally : Bool → St → Tally) (st : St) : Bool :=
  if tooDeep cfg depth kind then true
  else if cfg.descent.enters kind = false ∧ kind ≠ .plain then true
  else
    (retryingTally kind attempt tally conservative st).closes
      (descendRetrying kind attempt conservative st).2.2.isOk

/-- `processStream`'s. -/
def processTally (cfg : Config) (spooled : Bool) (depth own : ℕ) (stated : Option ℕ)
    (run spool : Opened → St → Bool) (st : St) : Tally :=
  if capped cfg st then ⟨false, 1, true⟩
  else
    let (slot, st) := alloc cfg st
    if spooled then ⟨true, 1, spool ⟨slot, some own, depth, none, slot⟩ (st.push slot)⟩
    else ⟨true, 1, run ⟨slot, some own, depth, stated, slot⟩ (st.push slot)⟩

/-- `runItem`'s. -/
def itemAgrees (cfg : Config) (conservative : Bool) (own depth slot stated : ℕ)
    (run : Bool → Opened → St → St × Option Err) (agrees : Bool → Opened → St → Bool) (st : St) : Bool :=
  let m : Opened := ⟨slot, some own, depth, some stated, slot⟩
  let (st', e) := run conservative m { st with slots := [slot] }
  match e with
  | some (.retry _) =>
    if conservative then agrees conservative m { st with slots := [slot] }
    else
      let (again, st) := alloc cfg { st' with slots := [], dead := st'.dead ++ st'.slots }
      agrees true ⟨again, some own, depth, some stated, slot⟩ (st.push again)
  | _ => agrees conservative m { st with slots := [slot] }

/-- The ways over the entries of `viewed`, as `viewWalk` takes them. -/
def viewWalkers (cfg : Config) (viewed : Viewed) (c : Bool) (depth own : ℕ) : Walkers :=
  ⟨fun kind st => entryWalk cfg viewed c depth own kind 0 st,
    fun base slots st => squashWalk cfg viewed c depth own base slots none 0 false st,
    fun st => erofsAlloc cfg viewed c depth own 0 st,
    fun base slots st => erofsRun cfg viewed c depth own base slots st⟩

mutual
def foundAgrees (cfg : Config) : Found → Bool → Opened → St → Bool
  | .mk source streamKind _ streamed viewed, conservative, m, st =>
    memberAgrees cfg conservative m.depth source streamKind
      (fun st => streamWalk cfg streamed conservative (m.depth + 1) m.slot streamKind 0 st)
      (fun c st => viewWalk cfg viewed c (m.depth + 1) m.slot streamKind st)
      (fun st => streamTally cfg streamed conservative (m.depth + 1) m.slot streamKind st)
      (fun c st => Tallies.walk cfg viewed streamKind (viewWalkers cfg viewed c (m.depth + 1) m.slot)
        ⟨fun kind st => entryTally cfg viewed c (m.depth + 1) m.slot kind st,
          fun base slots st => squashTally cfg viewed c (m.depth + 1) m.slot base slots none st,
          fun st => erofsAllocTally cfg viewed c (m.depth + 1) m.slot st,
          fun base slots st => erofsRunTally cfg viewed c (m.depth + 1) m.slot base slots st⟩ st) st

def streamTally (cfg : Config) : Streamed → Bool → ℕ → ℕ → Kind → St → Tally
  | .nil _ _, _, _, _, _, _ => .nil
  | .cons stated _ found rest, conservative, depth, own, kind, st =>
    let t := processTally cfg (kind.wraps && cfg.spoolWrappers) depth own stated
      (fun m st => foundAgrees cfg found conservative m st)
      (fun m st => spoolAgrees cfg found conservative m st) st
    match processStream cfg (kind.wraps && cfg.spoolWrappers) depth own stated
        (fun m st => runFound cfg found conservative m st)
        (fun m st => spoolFound cfg found conservative m st) st with
    | (_, some _) => t
    | (st, none) => t.and (streamTally cfg rest conservative depth own kind st)

def spoolAgrees (cfg : Config) : Found → Bool → Opened → St → Bool
  | .mk source _ viewKind _ viewed, conservative, m, st =>
    match source.error with
    | some _ => true
    | none => rangedAgrees cfg conservative m.depth (unprobed viewKind)
      (fun c st => viewWalk cfg viewed c (m.depth + 1) m.slot (unprobed viewKind) st)
      (fun c st => Tallies.walk cfg viewed (unprobed viewKind) (viewWalkers cfg viewed c (m.depth + 1) m.slot)
        ⟨fun kind st => entryTally cfg viewed c (m.depth + 1) m.slot kind st,
          fun base slots st => squashTally cfg viewed c (m.depth + 1) m.slot base slots none st,
          fun st => erofsAllocTally cfg viewed c (m.depth + 1) m.slot st,
          fun base slots st => erofsRunTally cfg viewed c (m.depth + 1) m.slot base slots st⟩ st) st

/-- A view that cannot be read is counted, and gets no slot. -/
def rangeTally (cfg : Config) : Found → Bool → ℕ → Option ℕ → ℕ → St → Tally
  | .mk source _ viewKind _ viewed, conservative, depth, _, len, st =>
    if capped cfg st then ⟨false, 1, true⟩
    else if source.opens = false ∨ source.probes viewKind len = false then ⟨false, 1, true⟩
    else
      let (slot, st) := alloc cfg st
      ⟨true, 1, rangedAgrees cfg conservative depth viewKind
        (fun c st => viewWalk cfg viewed c (depth + 1) slot viewKind st)
        (fun c st => Tallies.walk cfg viewed viewKind (viewWalkers cfg viewed c (depth + 1) slot)
        ⟨fun kind st => entryTally cfg viewed c (depth + 1) slot kind st,
          fun base slots st => squashTally cfg viewed c (depth + 1) slot base slots none st,
          fun st => erofsAllocTally cfg viewed c (depth + 1) slot st,
          fun base slots st => erofsRunTally cfg viewed c (depth + 1) slot base slots st⟩ st)
        (st.push slot)⟩

/-- An entry that cannot be opened gets a slot, and is not counted. -/
def entryTally (cfg : Config) : Viewed → Bool → ℕ → ℕ → Kind → St → Tally
  | .nil _, _, _, _, _, _ => .nil
  | .cons how found rest, conservative, depth, own, kind, st =>
    match how with
    | .closed note =>
      Tally.and ⟨!capped cfg st, 0, true⟩
        (entryTally cfg rest conservative depth own kind (nameClosed cfg depth own note st))
    | .range len =>
      let t := rangeTally cfg found conservative depth (some own) len st
      match rangeFound cfg found conservative depth (some own) len st with
      | (_, some _) => t
      | (st, none) => t.and (entryTally cfg rest conservative depth own kind st)
    | .stream stated | .item _ stated =>
      let t := processTally cfg (kind.wraps && cfg.spoolWrappers) depth own stated
        (fun m st => foundAgrees cfg found conservative m st)
        (fun m st => spoolAgrees cfg found conservative m st) st
      match processStream cfg (kind.wraps && cfg.spoolWrappers) depth own stated
          (fun m st => runFound cfg found conservative m st)
          (fun m st => spoolFound cfg found conservative m st) st with
      | (_, some _) => t
      | (st, none) => t.and (entryTally cfg rest conservative depth own kind st)

def squashTally (cfg : Config) : Viewed → Bool → ℕ → ℕ → ℕ → List ℕ → Option Err → St → Tally
  | .nil _, _, _, _, _, _, _, _ => .nil
  | .cons _ _ _, _, _, _, _, [], _, _ => .nil
  | .cons how found rest, conservative, depth, own, base, slot :: slots, failed, st =>
    let run := runItem cfg conservative own depth slot how.stated
      (fun c m st => runFound cfg found c m st) { st with next := base }
    let buried := failed.isSome && !(cfg.ticks st.tick).taken
    let t := if buried then Tally.nil
      else ⟨true, 1, itemAgrees cfg conservative own depth slot how.stated
        (fun c m st => runFound cfg found c m st) (fun c m st => foundAgrees cfg found c m st)
        { st with next := base }⟩
    let failed' := if buried then failed else failed.or run.2
    let st' := if buried then bury own depth slot how.stated st.ticked
      else { run.1 with next := max st.next run.1.next }
    match rest with
    | .cons next _ _ =>
      if next.startsBatch then
        match failed' with
        | some _ => t
        | none =>
          t.and (squashTally cfg rest conservative depth own (allocBatch cfg rest st').2.next
            (allocBatch cfg rest st').1 none (allocBatch cfg rest st').2)
      else t.and (squashTally cfg rest conservative depth own base slots failed' st')
    | .nil _ => t

def erofsAllocTally (cfg : Config) : Viewed → Bool → ℕ → ℕ → St → Tally
  | .nil _, _, _, _, _ => .nil
  | .cons how found rest, conservative, depth, own, st =>
    match how with
    | .range len =>
      let t := rangeTally cfg found conservative depth (some own) len st
      match rangeFound cfg found conservative depth (some own) len st with
      | (_, some _) => t
      | (st, none) => t.and (erofsAllocTally cfg rest conservative depth own st)
    | _ =>
      if capped cfg st then .nil
      else erofsAllocTally cfg rest conservative depth own (alloc cfg st).2

def erofsRunTally (cfg : Config) : Viewed → Bool → ℕ → ℕ → ℕ → List (ℕ × ℕ) → St → Tally
  | .nil _, _, _, _, _, _, _ => .nil
  | .cons how found rest, conservative, depth, own, base, slots, st =>
    match how, slots with
    | .range _, slots => erofsRunTally cfg rest conservative depth own base slots st
    | _, [] => .nil
    | _, (slot, stated) :: slots =>
      let run := runItem cfg conservative own depth slot stated
        (fun c m st => runFound cfg found c m st) { st with next := base }
      Tally.and ⟨true, 1, itemAgrees cfg conservative own depth slot stated
          (fun c m st => runFound cfg found c m st) (fun c m st => foundAgrees cfg found c m st)
          { st with next := base }⟩
        (erofsRunTally cfg rest conservative depth own base slots
          { run.1 with next := max st.next run.1.next })
end

/-- The tally of a seekable container. -/
def viewTally (cfg : Config) (viewed : Viewed) (c : Bool) (depth own : ℕ) (kind : Kind) (st : St) :
    Tally :=
  Tallies.walk cfg viewed kind (viewWalkers cfg viewed c depth own)
    ⟨fun kind st => entryTally cfg viewed c depth own kind st,
      fun base slots st => squashTally cfg viewed c depth own base slots none st,
      fun st => erofsAllocTally cfg viewed c depth own st,
      fun base slots st => erofsRunTally cfg viewed c depth own base slots st⟩ st

/-! ### What a part of the walk does to the counts -/

section
variable {own : Option ℕ} {st st₁ st₂ st' : St} {new new₁ new₂ : List Member}
variable {kept kept₁ kept₂ died died₁ died₂ : List ℕ} {m : Opened} {cfg : Config}
variable {made made₁ made₂ agrees agrees₁ agrees₂ : Bool}

/-- The children that a member counts are there: it counts some just if some are kept. -/
def Right (new : List Member) (kept : List ℕ) (x : Member) : Prop :=
  0 < x.children ↔ ∃ y ∈ new, y.parent = some x.slot ∧ y.slot ∈ kept

/-- Of the members added, whether some are kept right below `own`, and whether the counts of those kept
are right. -/
structure Account (own : Option ℕ) (new : List Member) (kept : List ℕ) (made agrees : Bool) : Prop where
  made : made = true ↔ ∃ x ∈ new, x.parent = own ∧ x.slot ∈ kept
  agrees : agrees = true ↔ ∀ x ∈ new, x.slot ∈ kept → Right new kept x

def Accounts (own : Option ℕ) (st st' : St) (made agrees : Bool) : Prop :=
  ∃ new kept died, Grown own st st' new kept died ∧
    ((new.map Member.slot).Nodup → Account own new kept made agrees)

theorem Accounts.grows (h : Accounts own st st' made agrees) : Grows own st st' := by
  obtain ⟨new, kept, died, h, -⟩ := h
  exact ⟨new, kept, died, h⟩

/-- Where nothing is kept, there is nothing to count. -/
theorem Account.none_kept : Account own new [] false true where
  made := by simp
  agrees := by simp

theorem Grows.accounts_same (hmembers : st'.members = st.members) (hslots : st'.slots = st.slots)
    (hdead : st'.dead = st.dead) (hnext : st.next ≤ st'.next) : Accounts own st st' false true :=
  ⟨[], [], [], Grown.same hmembers hslots hdead hnext, fun _ => .none_kept⟩

theorem Accounts.refl : Accounts own st st false true := Grows.accounts_same rfl rfl rfl le_rfl

theorem ticked_accounts : Accounts own st st.ticked false true :=
  Grows.accounts_same rfl rfl rfl le_rfl

theorem alloc_accounts : Accounts own st (alloc cfg st).2 false true :=
  Grows.accounts_same rfl rfl rfl (alloc_le.trans alloc_lt.le)

/-- What is kept is among what was added. -/
theorem Grown.exists_of_kept (h : Grown own st st' new kept died) {p : ℕ} (hp : p ∈ kept) :
    ∃ y ∈ new, y.slot = p := by
  have hmem : p ∈ new.map Member.slot := h.settled.subset (List.mem_append_left _ hp)
  exact List.mem_map.mp hmem

/-- Nothing added is the one under which it was found. -/
theorem Grown.slot_ne_own (h : Grown own st st' new kept died) {x : Member} (hx : x ∈ new) :
    own ≠ some x.slot := by
  intro hown
  exact lt_irrefl _ (h.above x hx x.slot hown)

/-- **One part after the other.** Neither has a parent in the other, nor keeps a slot of the other. -/
theorem Account.append (h₁ : Grown own st st₁ new₁ kept₁ died₁) (h₂ : Grown own st₁ st₂ new₂ kept₂ died₂)
    (hnodup : ((new₁ ++ new₂).map Member.slot).Nodup) (a₁ : Account own new₁ kept₁ made₁ agrees₁)
    (a₂ : Account own new₂ kept₂ made₂ agrees₂) :
    Account own (new₁ ++ new₂) (kept₁ ++ kept₂) (made₁ || made₂) (agrees₁ && agrees₂) := by
  rw [List.map_append, List.nodup_append] at hnodup
  obtain ⟨-, -, hdisjoint⟩ := hnodup
  have hapart : ∀ y ∈ new₁, ∀ z ∈ new₂, y.slot ≠ z.slot := fun y hy z hz =>
    hdisjoint _ (List.mem_map_of_mem hy) _ (List.mem_map_of_mem hz)
  have hkept₁ : ∀ x ∈ new₁, (x.slot ∈ kept₁ ++ kept₂ ↔ x.slot ∈ kept₁) := by
    intro x hx
    rw [List.mem_append]
    constructor
    · intro hor
      cases hor with
      | inl h => exact h
      | inr h =>
        obtain ⟨z, hz, heq⟩ := h₂.exists_of_kept h
        exact absurd heq.symm (hapart x hx z hz)
    · exact .inl
  have hkept₂ : ∀ x ∈ new₂, (x.slot ∈ kept₁ ++ kept₂ ↔ x.slot ∈ kept₂) := by
    intro x hx
    rw [List.mem_append]
    constructor
    · intro hor
      cases hor with
      | inl h =>
        obtain ⟨z, hz, heq⟩ := h₁.exists_of_kept h
        exact absurd heq (hapart z hz x hx)
      | inr h => exact h
    · exact .inr
  -- a parent of the one part is not in the other
  have hright₁ : ∀ x ∈ new₁, (Right (new₁ ++ new₂) (kept₁ ++ kept₂) x ↔ Right new₁ kept₁ x) := by
    intro x hx
    refine iff_congr Iff.rfl ⟨fun ⟨y, hy, hparent, hslot⟩ => ?_, fun ⟨y, hy, hparent, hslot⟩ => ?_⟩
    · cases List.mem_append.mp hy with
      | inl hy => exact ⟨y, hy, hparent, (hkept₁ y hy).mp hslot⟩
      | inr hy =>
        rcases h₂.parents y hy with hown | ⟨z, hz, hzy, -⟩
        · exact absurd (hown.symm.trans hparent) (h₁.slot_ne_own hx)
        · rw [hzy, Option.some.injEq] at hparent
          exact absurd hparent.symm (hapart x hx z hz)
    · exact ⟨y, List.mem_append_left _ hy, hparent, (hkept₁ y hy).mpr hslot⟩
  have hright₂ : ∀ x ∈ new₂, (Right (new₁ ++ new₂) (kept₁ ++ kept₂) x ↔ Right new₂ kept₂ x) := by
    intro x hx
    refine iff_congr Iff.rfl ⟨fun ⟨y, hy, hparent, hslot⟩ => ?_, fun ⟨y, hy, hparent, hslot⟩ => ?_⟩
    · cases List.mem_append.mp hy with
      | inr hy => exact ⟨y, hy, hparent, (hkept₂ y hy).mp hslot⟩
      | inl hy =>
        rcases h₁.parents y hy with hown | ⟨z, hz, hzy, -⟩
        · exact absurd (hown.symm.trans hparent) (h₂.slot_ne_own hx)
        · rw [hzy, Option.some.injEq] at hparent
          exact absurd hparent (hapart z hz x hx)
    · exact ⟨y, List.mem_append_right _ hy, hparent, (hkept₂ y hy).mpr hslot⟩
  constructor
  · rw [Bool.or_eq_true, a₁.made, a₂.made]
    constructor
    · intro hor
      rcases hor with ⟨x, hx, hown, hslot⟩ | ⟨x, hx, hown, hslot⟩
      · exact ⟨x, List.mem_append_left _ hx, hown, (hkept₁ x hx).mpr hslot⟩
      · exact ⟨x, List.mem_append_right _ hx, hown, (hkept₂ x hx).mpr hslot⟩
    · intro ⟨x, hx, hown, hslot⟩
      cases List.mem_append.mp hx with
      | inl hx => exact .inl ⟨x, hx, hown, (hkept₁ x hx).mp hslot⟩
      | inr hx => exact .inr ⟨x, hx, hown, (hkept₂ x hx).mp hslot⟩
  · rw [Bool.and_eq_true, a₁.agrees, a₂.agrees]
    constructor
    · intro ⟨hall₁, hall₂⟩ x hx hslot
      cases List.mem_append.mp hx with
      | inl hx => exact (hright₁ x hx).mpr (hall₁ x hx ((hkept₁ x hx).mp hslot))
      | inr hx => exact (hright₂ x hx).mpr (hall₂ x hx ((hkept₂ x hx).mp hslot))
    · intro hall
      constructor
      · intro x hx hslot
        exact (hright₁ x hx).mp (hall x (List.mem_append_left _ hx) ((hkept₁ x hx).mpr hslot))
      · intro x hx hslot
        exact (hright₂ x hx).mp (hall x (List.mem_append_right _ hx) ((hkept₂ x hx).mpr hslot))

theorem Accounts.trans (h₁ : Accounts own st st₁ made₁ agrees₁) (h₂ : Accounts own st₁ st₂ made₂ agrees₂) :
    Accounts own st st₂ (made₁ || made₂) (agrees₁ && agrees₂) := by
  obtain ⟨new₁, kept₁, died₁, h₁, a₁⟩ := h₁
  obtain ⟨new₂, kept₂, died₂, h₂, a₂⟩ := h₂
  refine ⟨_, _, _, h₁.trans h₂, fun hnodup => ?_⟩
  have hparts := hnodup
  rw [List.map_append, List.nodup_append] at hparts
  exact .append h₁ h₂ hnodup (a₁ hparts.1) (a₂ hparts.2.1)

/-- A part that keeps nothing comes before. -/
theorem Accounts.after (h₁ : Accounts own st st₁ false true) (h₂ : Accounts own st₁ st₂ made agrees) :
    Accounts own st st₂ made agrees := by
  have hboth := h₁.trans h₂
  rwa [Bool.false_or, Bool.true_and] at hboth

/-- What is discarded is not counted. -/
theorem discard_accounts (h : Grows own st st') :
    Accounts own st (st'.discard st.slots.length) false true := by
  obtain ⟨new, kept, died, h⟩ := h
  refine ⟨new, [], died ++ kept, ?_, fun _ => .none_kept⟩
  have hslots : st'.slots.take st.slots.length = st.slots := by rw [h.slots, List.take_left]
  have hdrop : st'.slots.drop st.slots.length = kept := by rw [h.slots, List.drop_left]
  rw [St.discard, hdrop]
  exact h.bury hslots

/-! ### A member and what is below it -/

/-- What happens to an allocated slot: a walk under it, and the member is sealed with a count of its
children. -/
def Closes (m : Opened) (st st' : St) (agrees : Bool) : Prop :=
  ∃ st₁ x made below, Accounts (some m.slot) st st₁ made below ∧ x.slot = m.slot ∧ x.parent = m.parent ∧
    st' = { st₁ with members := st₁.members ++ [x] } ∧
    (agrees = true ↔ below = true ∧ (0 < x.children ↔ made = true))

theorem Closes.seals {agrees : Bool} (h : Closes m st st' agrees) : Seals m st st' := by
  obtain ⟨st₁, x, made, below, haccounts, hslot, hparent, heq, -⟩ := h
  exact ⟨st₁, x, haccounts.grows, hslot, hparent, heq⟩

/-- What a member is sealed with. -/
theorem seal_closes {t : Tally} {source : Source} {kind : Kind} {pushed : Bytes} {lost : Bool}
    {r : Except Err (ℕ × Option String)} (h : Accounts (some m.slot) st st₁ t.made t.agrees)
    (hcount : ∀ x, r = .ok x → (0 < x.1 ↔ 0 < t.counted)) :
    Closes m st (st₁.seal m source kind pushed lost r).1 (t.closes r.isOk) := by
  cases r with
  | ok x =>
    refine ⟨st₁, _, _, _, h, rfl, rfl, rfl, Tally.closes_done.trans ?_⟩
    exact and_congr Iff.rfl (iff_congr (hcount x rfl).symm Iff.rfl)
  | error e => exact ⟨st₁, _, _, _, h, rfl, rfl, rfl, Tally.closes_left⟩

/-- A member without a walk. -/
theorem shut_closes {source : Source} {kind : Kind} {pushed : Bytes} {lost : Bool}
    {r : Except Err (ℕ × Option String)} (hcount : ∀ x, r = .ok x → x.1 = 0) :
    Closes m st (st.seal m source kind pushed lost r).1 true := by
  have hnil : Tally.nil.closes r.isOk = true := by cases r <;> rfl
  rw [← hnil]
  refine seal_closes (t := .nil) Accounts.refl fun x hx => ?_
  rw [hcount x hx]
  exact Iff.rfl

/-- **A sealed member with all below it**, once its slot is among those of the attempt. -/
theorem Closes.accounts (h : Closes m (st.push m.slot) st' agrees) (hparent : m.parent = own)
    (hown : ∀ o ∈ own, o < m.slot) : Accounts own st st' true agrees := by
  obtain ⟨st₁, x, made, below, ⟨new, kept, died, h, haccount⟩, hslot, hx, rfl, hagrees⟩ := h
  have hbelow : ∀ y ∈ new, m.slot < y.slot := fun y hy => h.above y hy m.slot rfl
  have hgrown : Grown own st { st₁ with members := st₁.members ++ [x] } (new ++ [x]) (m.slot :: kept)
      died := by
    have hseals : Seals m (st.push m.slot) { st₁ with members := st₁.members ++ [x] } :=
      ⟨st₁, x, ⟨new, kept, died, h⟩, hslot, hx, rfl⟩
    obtain ⟨new', kept', died', hgrown⟩ := hseals.grows hparent hown
    have hnew : new' = new ++ [x] := by
      have heq := hgrown.members
      rw [h.members, St.push, List.append_assoc] at heq
      exact (List.append_cancel_left heq).symm
    have hkept : kept' = m.slot :: kept := by
      have heq := hgrown.slots
      rw [h.slots, St.push, List.append_assoc, List.singleton_append] at heq
      exact (List.append_cancel_left heq).symm
    have hdied : died' = died := by
      have heq := hgrown.dead
      rw [h.dead] at heq
      exact (List.append_cancel_left heq).symm
    rwa [← hnew, ← hkept, ← hdied]
  refine ⟨_, _, _, hgrown, fun hnodup => ?_⟩
  rw [List.map_append, List.nodup_append] at hnodup
  have haccount := haccount hnodup.1
  have hkept : ∀ y ∈ new, (y.slot ∈ m.slot :: kept ↔ y.slot ∈ kept) := by
    intro y hy
    have hne : y.slot ≠ m.slot := (hbelow y hy).ne'
    rw [List.mem_cons, or_iff_right hne]
  have hright : ∀ y ∈ new, (Right (new ++ [x]) (m.slot :: kept) y ↔ Right new kept y) := by
    intro y hy
    refine iff_congr Iff.rfl ⟨?_, ?_⟩
    · rintro ⟨z, hz, hzparent, hzslot⟩
      cases List.mem_append.mp hz with
      | inl hz => exact ⟨z, hz, hzparent, (hkept z hz).mp hzslot⟩
      | inr hz =>
        rw [List.mem_singleton.mp hz, hx, hparent] at hzparent
        exact absurd ((hown y.slot hzparent).trans (hbelow y hy)) (lt_irrefl _)
    · rintro ⟨z, hz, hzparent, hzslot⟩
      exact ⟨z, List.mem_append_left _ hz, hzparent, (hkept z hz).mpr hzslot⟩
  have hrightx : Right (new ++ [x]) (m.slot :: kept) x ↔ (0 < x.children ↔ made = true) := by
    rw [haccount.made, Right, hslot]
    refine iff_congr Iff.rfl ⟨?_, ?_⟩
    · rintro ⟨z, hz, hzparent, hzslot⟩
      cases List.mem_append.mp hz with
      | inl hz => exact ⟨z, hz, hzparent, (hkept z hz).mp hzslot⟩
      | inr hz =>
        rw [List.mem_singleton.mp hz, hx, hparent] at hzparent
        exact absurd (hown m.slot hzparent) (lt_irrefl _)
    · rintro ⟨z, hz, hzparent, hzslot⟩
      exact ⟨z, List.mem_append_left _ hz, hzparent, (hkept z hz).mpr hzslot⟩
  constructor
  · refine ⟨fun _ => ⟨x, List.mem_append_right _ (List.mem_singleton_self x), hx.trans hparent, ?_⟩,
      fun _ => rfl⟩
    rw [hslot]
    exact List.mem_cons_self
  · rw [hagrees, haccount.agrees]
    constructor
    · rintro ⟨hall, hcount⟩ y hy hyslot
      cases List.mem_append.mp hy with
      | inl hy => exact (hright y hy).mpr (hall y hy ((hkept y hy).mp hyslot))
      | inr hy =>
        rw [List.mem_singleton.mp hy]
        exact hrightx.mpr hcount
    · intro hall
      constructor
      · intro y hy hyslot
        exact (hright y hy).mp (hall y (List.mem_append_left _ hy) ((hkept y hy).mpr hyslot))
      · refine hrightx.mp (hall x (List.mem_append_right _ (List.mem_singleton_self x)) ?_)
        rw [hslot]
        exact List.mem_cons_self

/-- A slot is allocated, and the member sealed under it. -/
theorem open_accounts {slot : ℕ} (hslot : slot = (alloc cfg st).1) (hm : m.slot = slot)
    (hparent : m.parent = own) (hown : ∀ o ∈ own, o < st.next)
    (h : Closes m ((alloc cfg st).2.push slot) st' agrees) : Accounts own st st' true agrees := by
  subst hslot
  rw [← hm] at h
  refine alloc_accounts.after (h.accounts hparent fun o ho => ?_)
  rw [hm]
  exact (hown o ho).trans_le alloc_le

/-! ### How a walk's count is returned -/

def Walked.children : Walked → ℕ
  | .ended children _ _ => children
  | .failed children _ _ _ => children

theorem swallow_children {r : Except Err (ℕ × Option String)} {children : ℕ} {what : String}
    {x : ℕ × Option String} (hr : ∀ y, r = .ok y → y.1 = children)
    (h : swallow r children what = .ok x) : x.1 = children := by
  cases r with
  | ok y => exact hr x h
  | error e =>
    cases e with
    | retry why => cases h
    | hard e =>
      cases h
      rfl

theorem viewResult_children {kind : Kind} {w : Walked} {x : ℕ × Option String}
    (h : viewResult kind w = .ok x) : x.1 = if kind.hasEntries then w.children else 0 := by
  have herror (e : Err) (children : ℕ) (what : String)
      (h : swallow (.error e) children what = .ok x) : x.1 = children :=
    swallow_children (fun y hy => by cases hy) h
  cases w with
  | ended children stop pulled =>
    cases kind <;> cases stop <;> first
      | exact herror _ _ _ h
      | (cases h; rfl)
  | failed children e pulled lost =>
    cases kind <;> first
      | exact herror _ _ _ h
      | (cases h; rfl)
      | cases h

theorem streamResult_children {kind : Kind} {bytes : Bytes} {w : Walked} {x : ℕ × Option String}
    (h : (streamResult kind bytes w).2 = .ok x) : x.1 = if kind.hasEntries then w.children else 0 := by
  cases w with
  | ended children stop pulled =>
    cases kind <;> cases stop <;> cases h <;> rfl
  | failed children e pulled lost =>
    cases kind <;> cases e <;> cases h <;> rfl

/-- A walk, and its tally. -/
structure Tallied (own : Option ℕ) (children : ℕ) (st : St) (t : Tally) (res : St × Walked) : Prop where
  accounts : Accounts own st res.1 t.made t.agrees
  counted : res.2.children = children + t.counted

/-- The attempts at a seekable container. -/
structure Attempted (own : Option ℕ) (kind : Kind) (attempt : Bool → St → St × Walked)
    (tally : Bool → St → Tally) : Prop where
  tallied : ∀ c st, (∀ o ∈ own, o < st.next) → Tallied own 0 st (tally c st) (attempt c st)
  entries : kind.hasEntries = false → ∀ c st, (tally c st).counted = 0

theorem Attempted.count {kind : Kind} {attempt : Bool → St → St × Walked} {tally : Bool → St → Tally}
    (h : Attempted own kind attempt tally) (c : Bool) (hown : ∀ o ∈ own, o < st.next)
    {x : ℕ × Option String} (hx : viewResult kind (attempt c st).2 = .ok x) :
    0 < x.1 ↔ 0 < (tally c st).counted := by
  have hcounted := (h.tallied c st hown).counted
  rw [viewResult_children hx]
  cases hkind : kind.hasEntries with
  | true => rw [if_pos rfl, hcounted, Nat.zero_add]
  | false => rw [if_neg Bool.false_ne_true, h.entries hkind]

theorem retryingTally_first {kind : Kind} {attempt : Bool → St → St × Walked} {tally : Bool → St → Tally}
    {c : Bool} (h : ∀ why, viewResult kind (attempt c st).2 ≠ .error (.retry why)) :
    retryingTally kind attempt tally c st = tally c st := by
  unfold retryingTally
  dsimp only
  split
  next why hwhy => exact absurd hwhy (h why)
  next => rfl

/-- **Behind a retry boundary** only the last attempt counts. -/
theorem descendRetrying_accounts {kind : Kind} {attempt : Bool → St → St × Walked}
    {tally : Bool → St → Tally} (h : Attempted own kind attempt tally) (c : Bool)
    (hown : ∀ o ∈ own, o < st.next) :
    Accounts own st (descendRetrying kind attempt c st).1 (retryingTally kind attempt tally c st).made
        (retryingTally kind attempt tally c st).agrees ∧
      ∀ x, (descendRetrying kind attempt c st).2.2 = .ok x →
        (0 < x.1 ↔ 0 < (retryingTally kind attempt tally c st).counted) := by
  have hfirst := (h.tallied c st hown).accounts
  unfold descendRetrying
  dsimp only
  split
  next why hwhy =>
    unfold retryingTally
    dsimp only
    rw [hwhy]
    dsimp only
    split_ifs with hc
    · exact ⟨hfirst, nofun⟩
    · have hdiscard : Accounts own st ((attempt c st).1.discard st.slots.length) false true :=
        discard_accounts hfirst.grows
      have hown' : ∀ o ∈ own, o < ((attempt c st).1.discard st.slots.length).next := fun o ho =>
        (hown o ho).trans_le hdiscard.grows.next
      exact ⟨hdiscard.after (h.tallied true _ hown').accounts, fun x hx => h.count true hown' hx⟩
  next r hr =>
    rw [retryingTally_first hr]
    exact ⟨hfirst, fun x hx => h.count c hown hx⟩

theorem runRanged_closes {c : Bool} {source : Source} {kind : Kind} {attempt : Bool → St → St × Walked}
    {tally : Bool → St → Tally} (hm : m.slot < st.next)
    (h : Attempted (some m.slot) kind attempt tally) :
    Closes m st (runRanged cfg c m source kind attempt st).1
      (rangedAgrees cfg c m.depth kind attempt tally st) := by
  have hown : ∀ o ∈ some m.slot, o < st.next := by simpa using hm
  unfold runRanged rangedAgrees
  dsimp only
  split_ifs
  · exact shut_closes fun x hx => by cases hx; rfl
  · exact shut_closes fun x hx => by cases hx; rfl
  · obtain ⟨haccounts, hcount⟩ := descendRetrying_accounts h c hown
    generalize hres : descendRetrying kind attempt c st = res at haccounts hcount
    obtain ⟨st', w, r⟩ := res
    cases r with
    | ok x => exact seal_closes haccounts fun y hy => by cases hy; exact hcount x rfl
    | error e => exact seal_closes haccounts fun y hy => nomatch hy

theorem runMember_closes {c : Bool} {source : Source} {kind : Kind} {arms : St → St × Walked}
    {attempt : Bool → St → St × Walked} {armsTally : St → Tally} {tally : Bool → St → Tally}
    (hm : m.slot < st.next)
    (harms : m.slot < st.next → Tallied (some m.slot) 0 st (armsTally st) (arms st))
    (h : Attempted (some m.slot) kind attempt tally) :
    Closes m st (runMember cfg c m source kind arms attempt st).1
      (memberAgrees cfg c m.depth source kind arms attempt armsTally tally st) := by
  have hown : ∀ o ∈ some m.slot, o < st.next := by simpa using hm
  unfold runMember memberAgrees
  split_ifs with hopens hdeep henters hspools hkind
  · exact shut_closes fun x hx => by cases hx
  · exact shut_closes fun x hx => by cases hx; rfl
  · exact shut_closes fun x hx => by cases hx; rfl
  · cases source.error with
    | some e => exact shut_closes fun x hx => by cases hx
    | none =>
      obtain ⟨haccounts, hcount⟩ := descendRetrying_accounts h c hown
      exact seal_closes haccounts hcount
  · have htallied := harms hm
    refine seal_closes htallied.accounts fun x hx => ?_
    rw [streamResult_children hx, if_pos hkind, htallied.counted, Nat.zero_add]
  · refine shut_closes fun x hx => ?_
    rw [streamResult_children hx, if_neg hkind]

theorem runSpooled_closes {c : Bool} {source : Source} {kind : Kind} {attempt : Bool → St → St × Walked}
    {tally : Bool → St → Tally} (hm : m.slot < st.next)
    (h : Attempted (some m.slot) kind attempt tally) :
    Closes m st (runSpooled cfg c m source kind attempt st).1
      (match source.error with
      | some _ => true
      | none => rangedAgrees cfg c m.depth kind attempt tally st) := by
  unfold runSpooled
  cases source.error with
  | some e => exact shut_closes fun x hx => by cases hx
  | none => exact runRanged_closes hm h

/-! ### Entries -/

theorem processStream_accounts (cfg : Config) (spooled : Bool) (depth : ℕ) {o : ℕ} (stated : Option ℕ)
    {run spool : Opened → St → St × Option Err} {runAgrees spoolAgrees : Opened → St → Bool}
    (ho : o < st.next) (hrun : ∀ m st, m.slot < st.next → Closes m st (run m st).1 (runAgrees m st))
    (hspool : ∀ m st, m.slot < st.next → Closes m st (spool m st).1 (spoolAgrees m st)) :
    Accounts (some o) st (processStream cfg spooled depth o stated run spool st).1
      (processTally cfg spooled depth o stated runAgrees spoolAgrees st).made
      (processTally cfg spooled depth o stated runAgrees spoolAgrees st).agrees := by
  have hown : ∀ x ∈ some o, x < st.next := by simpa using ho
  unfold processStream processTally
  split_ifs
  · exact ticked_accounts
  · exact open_accounts (m := ⟨_, some o, depth, none, _⟩) rfl rfl rfl hown (hspool _ _ alloc_lt)
  · exact open_accounts (m := ⟨_, some o, depth, stated, _⟩) rfl rfl rfl hown (hrun _ _ alloc_lt)

theorem processTally_counted (cfg : Config) (spooled : Bool) (depth o : ℕ) (stated : Option ℕ)
    (run spool : Opened → St → Bool) (st : St) :
    (processTally cfg spooled depth o stated run spool st).counted = 1 := by
  unfold processTally
  split_ifs <;> rfl

theorem nameClosed_accounts {o depth : ℕ} {note : String} (ho : o < st.next) :
    Accounts (some o) st (nameClosed cfg depth o note st) (!capped cfg st) true := by
  have hown : ∀ x ∈ some o, x < st.next := by simpa using ho
  unfold nameClosed
  cases hcap : capped cfg st with
  | true =>
    rw [if_pos rfl]
    exact ticked_accounts
  | false =>
    rw [if_neg Bool.false_ne_true]
    exact open_accounts (m := ⟨_, some o, depth, some 0, _⟩) rfl rfl rfl hown
      (shut_closes fun x hx => by cases hx; rfl)

/-! ### Items -/

theorem Accounts.nested (h : Accounts own { st with slots := [] } st' made agrees) :
    Accounts own st { st' with slots := st.slots ++ st'.slots } made agrees := by
  obtain ⟨new, kept, died, h, haccount⟩ := h
  have hkept : st'.slots = kept := by simpa using h.slots
  exact ⟨new, kept, died, ⟨h.members, by rw [hkept], h.dead, h.next, h.settled, h.above, h.parents,
    h.closed⟩, haccount⟩

theorem Accounts.rebased {base : ℕ} (h : Accounts own { st with next := base } st' made agrees) :
    Accounts own st { st' with next := max st.next st'.next } made agrees := by
  obtain ⟨new, kept, died, h, haccount⟩ := h
  exact ⟨new, kept, died, ⟨h.members, h.slots, h.dead, le_max_left _ _, h.settled, h.above, h.parents,
    h.closed⟩, haccount⟩

theorem bury_accounts {o depth slot stated : ℕ} (ho : o < slot) :
    Accounts (some o) st (bury o depth slot stated st) false true := by
  obtain ⟨new, kept, died, h⟩ := @bury_grows st o depth slot stated ho
  have hkept : kept = [] := by
    have heq := h.slots
    rw [bury, St.seal] at heq
    exact List.self_eq_append_right.mp heq
  subst hkept
  exact ⟨new, [], died, h, fun _ => .none_kept⟩

theorem buryAll_accounts {o depth : ℕ} {slots : List (ℕ × ℕ)} (ho : ∀ s ∈ slots, o < s.1) :
    Accounts (some o) st (buryAll o depth slots st) false true := by
  induction slots generalizing st with
  | nil => exact .refl
  | cons s slots ih =>
    rw [buryAll]
    exact (bury_accounts (ho s List.mem_cons_self)).trans
      (ih fun x hx => ho x (List.mem_cons_of_mem _ hx))

theorem allocBatch_accounts (own : Option ℕ) (cfg : Config) : ∀ (viewed : Viewed) (st : St),
    Accounts own st (allocBatch cfg viewed st).2 false true
  | .nil _, st => .refl
  | .cons _ _ rest, st => by
    unfold allocBatch
    split_ifs
    · exact ticked_accounts
    · dsimp only
      split
      next how _ after =>
        split_ifs
        · exact alloc_accounts
        · exact alloc_accounts.trans (allocBatch_accounts own cfg (.cons how _ after) (alloc cfg st).2)
      · exact alloc_accounts

/-- **An item** has one member that is kept, whichever of its attempts that is of. -/
theorem runItem_accounts {c : Bool} {o depth slot stated : ℕ}
    {run : Bool → Opened → St → St × Option Err} {runAgrees : Bool → Opened → St → Bool}
    (ho : o < slot) (hslot : slot < st.next)
    (hrun : ∀ c m st, m.slot < st.next → Closes m st (run c m st).1 (runAgrees c m st)) :
    Accounts (some o) st (runItem cfg c o depth slot stated run st).1 true
      (itemAgrees cfg c o depth slot stated run runAgrees st) := by
  have hown : ∀ x ∈ some o, x < slot := by simpa using ho
  let m : Opened := ⟨slot, some o, depth, some stated, slot⟩
  have hcloses : Closes m (({ st with slots := [] } : St).push m.slot)
      (run c m { st with slots := [slot] }).1 (runAgrees c m { st with slots := [slot] }) :=
    hrun c m _ hslot
  have hfirst := hcloses.accounts rfl hown
  unfold runItem itemAgrees
  cases hres : (run c m { st with slots := [slot] }).2 with
  | none =>
    dsimp only
    rw [hres]
    exact hfirst.nested
  | some err =>
    cases err with
    | hard what =>
      dsimp only
      rw [hres]
      exact hfirst.nested
    | retry why =>
      dsimp only
      rw [hres]
      dsimp only
      split_ifs
      · exact hfirst.nested
      · -- the worker's first attempt dies as a whole, and the second one starts afresh
        obtain ⟨new, kept, died, h, -⟩ := hfirst
        have hkept := h.slots
        rw [List.nil_append] at hkept
        have hburied := h.bury rfl
        rw [← hkept] at hburied
        refine (Accounts.after ⟨_, _, _, hburied, fun _ => .none_kept⟩ ?_).nested
        refine open_accounts (m := ⟨_, some o, depth, some stated, slot⟩) rfl rfl rfl (fun x hx => ?_)
          (hrun true _ _ alloc_lt)
        exact ((hown x hx).trans hslot).trans_le hburied.next

/-! ### The walks -/

/-- The ways over the entries of a seekable container, and their tallies. -/
structure WalkersTallied (o : ℕ) (w : Walkers) (t : Tallies) : Prop where
  entries : ∀ kind st, o < st.next → Tallied (some o) 0 st (t.entries kind st) (w.entries kind st)
  squash : ∀ base slots st, (∀ s ∈ slots, o < s ∧ s < base) → base ≤ st.next →
    Tallied (some o) 0 st (t.squash base slots st) (w.squash base slots st)
  erofsAlloc : ∀ st, o < st.next →
    Accounts (some o) st (w.erofsAlloc st).1 (t.erofsAlloc st).made (t.erofsAlloc st).agrees ∧
      (w.erofsAlloc st).2.2.children = 0 + (t.erofsAlloc st).counted + (w.erofsAlloc st).2.1.length ∧
      ∀ s ∈ (w.erofsAlloc st).2.1, o < s.1 ∧ s.1 < (w.erofsAlloc st).1.next
  erofsRun : ∀ base slots st, (∀ s ∈ slots, o < s.1 ∧ s.1 < base) → base ≤ st.next →
    Accounts (some o) st (w.erofsRun base slots st).1 (t.erofsRun base slots st).made
      (t.erofsRun base slots st).agrees

theorem Tallied.after {o children : ℕ} {t : Tally} {res : St × Walked}
    (h₁ : Accounts (some o) st st₁ false true) (h₂ : Tallied (some o) children st₁ t res) :
    Tallied (some o) children st t res := ⟨h₁.after h₂.accounts, h₂.counted⟩

theorem WalkersTallied.walk {o : ℕ} {w : Walkers} {t : Tallies} (hw : WalkersTallied o w t)
    (viewed : Viewed) (depth : ℕ) (kind : Kind) (ho : o < st.next) :
    Tallied (some o) 0 st (t.walk cfg viewed kind w st) (Walkers.walk cfg viewed depth o kind w st) := by
  unfold Walkers.walk Tallies.walk
  split
  · exact ⟨.refl, rfl⟩
  · exact ⟨.refl, rfl⟩
  · obtain ⟨hgrows, hslots⟩ := allocBatch_spec (some o) cfg viewed st
    refine (hw.squash _ _ _ (fun s hs => ?_) le_rfl).after (allocBatch_accounts (some o) cfg viewed st)
    exact ⟨ho.trans_le (hslots s hs).1, (hslots s hs).2⟩
  · obtain ⟨haccounts, hcounted, hslots⟩ := hw.erofsAlloc st ho
    generalize hres : w.erofsAlloc st = res at haccounts hcounted hslots
    obtain ⟨st', slots, walked⟩ := res
    cases walked with
    | failed children e pulled lost =>
      refine ⟨?_, ?_⟩
      · have hbury : Accounts (some o) st' (buryAll o depth slots st') false true :=
          buryAll_accounts fun s hs => (hslots s hs).1
        have hall := haccounts.trans hbury
        rwa [Bool.or_false, Bool.and_true] at hall
      · show children - slots.length = 0 + (t.erofsAlloc st).counted
        have hchildren : children = 0 + (t.erofsAlloc st).counted + slots.length := hcounted
        omega
    | ended children stop pulled =>
      have hrun := haccounts.trans (hw.erofsRun _ _ _ hslots le_rfl)
      have hchildren : children = 0 + (t.erofsAlloc st).counted + slots.length := hcounted
      dsimp only
      split <;> exact ⟨hrun, hchildren.trans (Nat.add_assoc _ _ _)⟩
  next hsquash herofs =>
    -- where the two matches split together, nothing is left to split
    first
      | exact hw.entries _ st ho
      | split <;> first
          | exact hw.entries _ st ho
          | contradiction

theorem Tallies.walk_entries {viewed : Viewed} {kind : Kind} {w : Walkers} {t : Tallies}
    (h : kind.hasEntries = false) : (t.walk cfg viewed kind w st).counted = 0 := by
  cases kind <;> first
    | rfl
    | cases h

/-- An entry's part, and what comes after it. -/
theorem Tallied.entry {o children : ℕ} {t t' : Tally} {res : St × Walked}
    (h : Accounts (some o) st st₁ t.made t.agrees) (hcounted : t.counted = 1)
    (hrest : Tallied (some o) (children + 1) st₁ t' res) :
    Tallied (some o) children st (t.and t') res where
  accounts := h.trans hrest.accounts
  counted := by
    rw [hrest.counted]
    show children + 1 + t'.counted = children + (t.counted + t'.counted)
    omega

/-- An entry's error ends the walk. -/
theorem Tallied.left {o children pulled : ℕ} {t : Tally} {e : Err} {lost : Bool}
    (h : Accounts (some o) st st₁ t.made t.agrees) (hcounted : t.counted = 1) :
    Tallied (some o) children st t (st₁, .failed (children + 1) e pulled lost) where
  accounts := h
  counted := by rw [hcounted]; rfl

theorem rangeTally_counted (cfg : Config) (found : Found) (c : Bool) (depth : ℕ) (parent : Option ℕ)
    (len : ℕ) (st : St) : (rangeTally cfg found c depth parent len st).counted = 1 := by
  cases found
  unfold rangeTally
  split_ifs <;> rfl

mutual

theorem runFound_closes (cfg : Config) : ∀ (found : Found) (c : Bool) (m : Opened) (st : St),
    m.slot < st.next → Closes m st (runFound cfg found c m st).1 (foundAgrees cfg found c m st)
  | .mk source streamKind viewKind streamed viewed, c, m, st, hm => by
    rw [runFound, foundAgrees]
    refine runMember_closes hm (fun hst => streamWalk_tallied cfg streamed c _ _ _ 0 st hst)
      ⟨fun c st h => WalkersTallied.walk ?_ viewed _ _ (h m.slot rfl), fun hkind c st =>
        Tallies.walk_entries hkind⟩
    exact ⟨fun kind st h => entryWalk_tallied cfg viewed c _ _ kind 0 st h,
      fun base slots st h hb => squashWalk_tallied cfg viewed c _ _ base slots none 0 false st h hb,
      fun st h => erofsAlloc_accounts cfg viewed c _ _ 0 st h,
      fun base slots st h hb => erofsRun_accounts cfg viewed c _ _ base slots st h hb⟩

theorem spoolFound_closes (cfg : Config) : ∀ (found : Found) (c : Bool) (m : Opened) (st : St),
    m.slot < st.next → Closes m st (spoolFound cfg found c m st).1 (spoolAgrees cfg found c m st)
  | .mk source streamKind viewKind streamed viewed, c, m, st, hm => by
    rw [spoolFound, spoolAgrees]
    refine runSpooled_closes hm
      ⟨fun c st h => WalkersTallied.walk ?_ viewed _ _ (h m.slot rfl), fun hkind c st =>
        Tallies.walk_entries hkind⟩
    exact ⟨fun kind st h => entryWalk_tallied cfg viewed c _ _ kind 0 st h,
      fun base slots st h hb => squashWalk_tallied cfg viewed c _ _ base slots none 0 false st h hb,
      fun st h => erofsAlloc_accounts cfg viewed c _ _ 0 st h,
      fun base slots st h hb => erofsRun_accounts cfg viewed c _ _ base slots st h hb⟩

theorem rangeFound_accounts (cfg : Config) : ∀ (found : Found) (c : Bool) (depth : ℕ)
    (parent : Option ℕ) (len : ℕ) (st : St), (∀ o ∈ parent, o < st.next) →
    Accounts parent st (rangeFound cfg found c depth parent len st).1
      (rangeTally cfg found c depth parent len st).made
      (rangeTally cfg found c depth parent len st).agrees
  | .mk source streamKind viewKind streamed viewed, c, depth, parent, len, st, hown => by
    rw [rangeFound, rangeTally]
    split_ifs
    · exact ticked_accounts
    · exact ticked_accounts
    · refine open_accounts (m := ⟨_, parent, depth, some len, _⟩) rfl rfl rfl hown
        (runRanged_closes alloc_lt ⟨fun c st h => WalkersTallied.walk ?_ viewed _ _ (h _ rfl),
          fun hkind c st => Tallies.walk_entries hkind⟩)
      exact ⟨fun kind st h => entryWalk_tallied cfg viewed c _ _ kind 0 st h,
        fun base slots st h hb => squashWalk_tallied cfg viewed c _ _ base slots none 0 false st h hb,
        fun st h => erofsAlloc_accounts cfg viewed c _ _ 0 st h,
        fun base slots st h hb => erofsRun_accounts cfg viewed c _ _ base slots st h hb⟩

theorem streamWalk_tallied (cfg : Config) : ∀ (streamed : Streamed) (c : Bool) (depth o : ℕ)
    (kind : Kind) (children : ℕ) (st : St), o < st.next →
    Tallied (some o) children st (streamTally cfg streamed c depth o kind st)
      (streamWalk cfg streamed c depth o kind children st)
  | .nil _ _, _, _, _, _, _, _, _ => ⟨.refl, rfl⟩
  | .cons stated pulled found rest, c, depth, o, kind, children, st, ho => by
    have hchild := processStream_accounts cfg (kind.wraps && cfg.spoolWrappers) depth stated ho
      (fun m st hm => runFound_closes cfg found c m st hm)
      (fun m st hm => spoolFound_closes cfg found c m st hm)
    have hcounted := processTally_counted cfg (kind.wraps && cfg.spoolWrappers) depth o stated
      (fun m st => foundAgrees cfg found c m st) (fun m st => spoolAgrees cfg found c m st) st
    rw [streamWalk, streamTally]
    generalize processStream _ _ _ _ _ _ _ _ = res at hchild ⊢
    obtain ⟨st', _ | e⟩ := res
    · exact .entry hchild hcounted
        (streamWalk_tallied cfg rest c depth o kind _ st' (ho.trans_le hchild.grows.next))
    · exact .left hchild hcounted

theorem entryWalk_tallied (cfg : Config) : ∀ (viewed : Viewed) (c : Bool) (depth o : ℕ)
    (kind : Kind) (children : ℕ) (st : St), o < st.next →
    Tallied (some o) children st (entryTally cfg viewed c depth o kind st)
      (entryWalk cfg viewed c depth o kind children st)
  | .nil _, _, _, _, _, _, _, _ => ⟨.refl, rfl⟩
  | .cons how found rest, c, depth, o, kind, children, st, ho => by
    have hstream (stated : Option ℕ) :=
      processStream_accounts cfg (kind.wraps && cfg.spoolWrappers) depth stated ho
        (fun m st hm => runFound_closes cfg found c m st hm)
        (fun m st hm => spoolFound_closes cfg found c m st hm)
    have hcounted (stated : Option ℕ) :=
      processTally_counted cfg (kind.wraps && cfg.spoolWrappers) depth o stated
        (fun m st => foundAgrees cfg found c m st) (fun m st => spoolAgrees cfg found c m st) st
    have hrest {st' : St} {t : Tally} (h : Accounts (some o) st st' t.made t.agrees)
        (ht : t.counted = 1) :=
      Tallied.entry h ht (entryWalk_tallied cfg rest c depth o kind (children + 1) st'
        (ho.trans_le h.grows.next))
    cases how with
    | closed note =>
      have hclosed : Accounts (some o) st (nameClosed cfg depth o note st) (!capped cfg st) true :=
        nameClosed_accounts ho
      have hlater := entryWalk_tallied cfg rest c depth o kind children _
        (ho.trans_le hclosed.grows.next)
      rw [entryWalk, entryTally]
      refine ⟨hclosed.trans hlater.accounts, ?_⟩
      rw [hlater.counted]
      show children + _ = children + (0 + _)
      rw [Nat.zero_add]
    | range len =>
      have hchild := rangeFound_accounts cfg found c depth (some o) len st (by simpa using ho)
      have hone := rangeTally_counted cfg found c depth (some o) len st
      rw [entryWalk, entryTally]
      generalize rangeFound _ _ _ _ _ _ _ = res at hchild ⊢
      obtain ⟨st', _ | e⟩ := res
      · exact hrest hchild hone
      · exact .left hchild hone
    | stream stated =>
      have hchild := hstream stated
      rw [entryWalk, entryTally]
      generalize processStream _ _ _ _ _ _ _ _ = res at hchild ⊢
      obtain ⟨st', _ | e⟩ := res
      · exact hrest hchild (hcounted stated)
      · exact .left hchild (hcounted stated)
    | item batch stated =>
      have hchild := hstream (some stated)
      rw [entryWalk, entryTally]
      generalize processStream _ _ _ _ _ _ _ _ = res at hchild ⊢
      obtain ⟨st', _ | e⟩ := res
      · exact hrest hchild (hcounted (some stated))
      · exact .left hchild (hcounted (some stated))

theorem squashWalk_tallied (cfg : Config) : ∀ (viewed : Viewed) (c : Bool) (depth o base : ℕ)
    (slots : List ℕ) (failed : Option Err) (children : ℕ) (lost : Bool) (st : St),
    (∀ s ∈ slots, o < s ∧ s < base) → base ≤ st.next →
    Tallied (some o) children st (squashTally cfg viewed c depth o base slots failed st)
      (squashWalk cfg viewed c depth o base slots failed children lost st)
  | .nil _, _, _, _, _, _, failed, _, _, _, _, _ => by
    cases failed <;> exact ⟨.refl, rfl⟩
  | .cons how found rest, c, depth, o, base, [], failed, children, lost, st, hslots, hbase => by
    cases failed <;> exact ⟨.refl, rfl⟩
  | .cons how found rest, c, depth, o, base, slot :: slots, failed, children, lost, st, hslots,
      hbase => by
    obtain ⟨ho, hslot⟩ := hslots slot List.mem_cons_self
    have hslots : ∀ s ∈ slots, o < s ∧ s < base := fun s hs => hslots s (List.mem_cons_of_mem _ hs)
    have hburied : Accounts (some o) st (bury o depth slot how.stated st.ticked) false true :=
      ticked_accounts.after (bury_accounts ho)
    have hrun : Accounts (some o) { st with next := base } (runItem cfg c o depth slot how.stated
          (fun c m st => runFound cfg found c m st) { st with next := base }).1 true
        (itemAgrees cfg c o depth slot how.stated (fun c m st => runFound cfg found c m st)
          (fun c m st => foundAgrees cfg found c m st) { st with next := base }) :=
      runItem_accounts ho hslot fun c m st hm => runFound_closes cfg found c m st hm
    have hrest (t : Tally) (failed : Option Err) (n : ℕ) (lost : Bool) (st' : St)
        (h : Accounts (some o) st st' t.made t.agrees) (hn : n = children + t.counted) :
        Tallied (some o) children st
          (match rest with
          | .cons next _ _ =>
            if next.startsBatch then
              match failed with
              | some _ => t
              | none =>
                t.and (squashTally cfg rest c depth o (allocBatch cfg rest st').2.next
                  (allocBatch cfg rest st').1 none (allocBatch cfg rest st').2)
            else t.and (squashTally cfg rest c depth o base slots failed st')
          | .nil _ => t)
          (match rest with
          | .cons next _ _ =>
            if next.startsBatch then
              match failed with
              | some e => (st', Walked.failed n e 0 true)
              | none =>
                squashWalk cfg rest c depth o (allocBatch cfg rest st').2.next
                  (allocBatch cfg rest st').1 none n lost (allocBatch cfg rest st').2
            else squashWalk cfg rest c depth o base slots failed n lost st'
          | .nil _ => squashWalk cfg rest c depth o base slots failed n lost st') := by
      have hboth {t' : Tally} {st₂ : St} {res : St × Walked} (hbetween : Accounts (some o) st' st₂ false true)
          (hlater : Tallied (some o) n st₂ t' res) : Tallied (some o) children st (t.and t') res := by
        refine ⟨h.trans (hbetween.after hlater.accounts), ?_⟩
        rw [hlater.counted, hn]
        exact Nat.add_assoc _ _ _
      split
      next next found' after =>
        split_ifs
        · cases failed with
          | some e => exact ⟨h, hn⟩
          | none =>
            obtain ⟨-, hnew⟩ := allocBatch_spec (some o) cfg (.cons next found' after) st'
            refine hboth (allocBatch_accounts (some o) cfg (.cons next found' after) st')
              (squashWalk_tallied cfg (.cons next found' after) c depth o _ _ none n lost _
                (fun s hs => ⟨?_, (hnew s hs).2⟩) le_rfl)
            exact (ho.trans (hslot.trans_le (hbase.trans h.grows.next))).trans_le (hnew s hs).1
        · exact hboth .refl (squashWalk_tallied cfg _ c depth o base slots failed n lost st' hslots
            (hbase.trans h.grows.next))
      · cases failed <;> exact ⟨h, hn⟩
    rw [squashWalk]
    unfold squashTally
    by_cases hleft : (failed.isSome && !(cfg.ticks st.tick).taken) = true
    · simp only [hleft, if_true]
      exact hrest .nil failed children true _ hburied rfl
    · simp only [hleft, Bool.false_eq_true, if_false]
      exact hrest ⟨true, 1, _⟩ _ (children + 1) lost _ hrun.rebased rfl

theorem erofsAlloc_accounts (cfg : Config) : ∀ (viewed : Viewed) (c : Bool) (depth o children : ℕ)
    (st : St), o < st.next →
    Accounts (some o) st (erofsAlloc cfg viewed c depth o children st).1
        (erofsAllocTally cfg viewed c depth o st).made (erofsAllocTally cfg viewed c depth o st).agrees ∧
      (erofsAlloc cfg viewed c depth o children st).2.2.children =
        children + (erofsAllocTally cfg viewed c depth o st).counted +
          (erofsAlloc cfg viewed c depth o children st).2.1.length ∧
      ∀ s ∈ (erofsAlloc cfg viewed c depth o children st).2.1,
        o < s.1 ∧ s.1 < (erofsAlloc cfg viewed c depth o children st).1.next
  | .nil _, _, _, _, _, _, _ => ⟨.refl, rfl, nofun⟩
  | .cons how found rest, c, depth, o, children, st, ho => by
    have hitem (stated : ℕ) : ∀ res t, res =
        (if capped cfg st then (st.ticked, [], Walked.ended children .done 0)
        else
          let res := erofsAlloc cfg rest c depth o (children + 1) (alloc cfg st).2
          (res.1, ((alloc cfg st).1, stated) :: res.2.1, res.2.2)) →
        t = (if capped cfg st then Tally.nil else erofsAllocTally cfg rest c depth o (alloc cfg st).2) →
        Accounts (some o) st res.1 t.made t.agrees ∧
          res.2.2.children = children + t.counted + res.2.1.length ∧
          ∀ s ∈ res.2.1, o < s.1 ∧ s.1 < res.1.next := by
      intro res t hres ht
      subst hres ht
      have halloc : Accounts (some o) st (alloc cfg st).2 false true := alloc_accounts
      obtain ⟨haccounts, hcounted, hslots⟩ :=
        erofsAlloc_accounts cfg rest c depth o (children + 1) _ (ho.trans_le halloc.grows.next)
      split_ifs
      · exact ⟨ticked_accounts, rfl, nofun⟩
      · refine ⟨halloc.after haccounts, ?_, fun s hs => ?_⟩
        · show (erofsAlloc cfg rest c depth o (children + 1) (alloc cfg st).2).2.2.children =
            children + _ + ((erofsAlloc cfg rest c depth o (children + 1) (alloc cfg st).2).2.1.length + 1)
          omega
        · obtain rfl | hs := List.mem_cons.mp hs
          · exact ⟨ho.trans_le alloc_le, alloc_lt.trans_le haccounts.grows.next⟩
          · exact hslots s hs
    cases how with
    | range len =>
      have hchild := rangeFound_accounts cfg found c depth (some o) len st (by simpa using ho)
      have hone := rangeTally_counted cfg found c depth (some o) len st
      rw [erofsAlloc, erofsAllocTally]
      generalize rangeFound _ _ _ _ _ _ _ = res at hchild ⊢
      obtain ⟨st', _ | e⟩ := res
      · obtain ⟨haccounts, hcounted, hslots⟩ :=
          erofsAlloc_accounts cfg rest c depth o (children + 1) st' (ho.trans_le hchild.grows.next)
        refine ⟨hchild.trans haccounts, ?_, hslots⟩
        show (erofsAlloc cfg rest c depth o (children + 1) st').2.2.children =
          children + ((rangeTally cfg found c depth (some o) len st).counted +
            (erofsAllocTally cfg rest c depth o st').counted) + _
        rw [hcounted, hone]
        dsimp only
        omega
      · refine ⟨hchild, ?_, nofun⟩
        rw [hone]
        rfl
    | stream stated => exact hitem _ _ _ rfl rfl
    | item batch stated => exact hitem _ _ _ rfl rfl
    | closed note => exact hitem _ _ _ rfl rfl

theorem erofsRun_accounts (cfg : Config) : ∀ (viewed : Viewed) (c : Bool) (depth o base : ℕ)
    (slots : List (ℕ × ℕ)) (st : St), (∀ s ∈ slots, o < s.1 ∧ s.1 < base) → base ≤ st.next →
    Accounts (some o) st (erofsRun cfg viewed c depth o base slots st).1
      (erofsRunTally cfg viewed c depth o base slots st).made
      (erofsRunTally cfg viewed c depth o base slots st).agrees
  | .nil _, _, _, _, _, _, _, _, _ => .refl
  | .cons how found rest, c, depth, o, base, slots, st, hslots, hbase => by
    have hitem (slot stated : ℕ) (left : List (ℕ × ℕ)) (h : slots = (slot, stated) :: left) :
        Accounts (some o) st (erofsRun cfg rest c depth o base left
            { (runItem cfg c o depth slot stated (fun c m st => runFound cfg found c m st)
                { st with next := base }).1 with
              next := max st.next (runItem cfg c o depth slot stated
                (fun c m st => runFound cfg found c m st) { st with next := base }).1.next }).1
          (erofsRunTally cfg (.cons (.item false stated) found rest) c depth o base slots st).made
          (erofsRunTally cfg (.cons (.item false stated) found rest) c depth o base slots st).agrees := by
      subst h
      obtain ⟨ho, hslot⟩ := hslots (slot, stated) List.mem_cons_self
      have hrun : Accounts (some o) { st with next := base }
          (runItem cfg c o depth slot stated (fun c m st => runFound cfg found c m st)
            { st with next := base }).1 true
          (itemAgrees cfg c o depth slot stated _ _ { st with next := base }) :=
        runItem_accounts ho hslot fun c m st hm => runFound_closes cfg found c m st hm
      rw [erofsRunTally]
      · exact hrun.rebased.trans (erofsRun_accounts cfg rest c depth o base left _
          (fun s hs => hslots s (List.mem_cons_of_mem _ hs)) (hbase.trans (le_max_left _ _)))
      · exact nofun
    cases how with
    | range len =>
      rw [erofsRun, erofsRunTally]
      exact erofsRun_accounts cfg rest c depth o base slots st hslots hbase
    | _ =>
      cases slots with
      | nil => exact Accounts.refl
      | cons s left =>
        have hrun := hitem s.1 s.2 left rfl
        rw [erofsRun]
        · dsimp only
          split <;> exact hrun
        · intro len h
          cases h

end

theorem viewWalk_attempted (viewed : Viewed) (depth o : ℕ) (kind : Kind) :
    Attempted (some o) kind (fun c st => viewWalk cfg viewed c depth o kind st)
      (fun c st => viewTally cfg viewed c depth o kind st) where
  tallied := by
    intro c st h
    refine WalkersTallied.walk ?_ viewed depth kind (h o rfl)
    exact ⟨fun kind st h => entryWalk_tallied cfg viewed c _ _ kind 0 st h,
      fun base slots st h hb => squashWalk_tallied cfg viewed c _ _ base slots none 0 false st h hb,
      fun st h => erofsAlloc_accounts cfg viewed c _ _ 0 st h,
      fun base slots st h hb => erofsRun_accounts cfg viewed c _ _ base slots st h hb⟩
  entries := fun hkind _ _ => Tallies.walk_entries hkind

end

end Descent

end Hashdex
