import Hashdex.Cache
import Hashdex.WalkOrder

/-!
# Resolving a coordinate

`resolve` asks the backends about the queried coordinate only, puts their answers into the observation
store and walks from the coordinate over the local datasets and the store.  Without the store the answers
are added after the walk, and what they state is not followed.

* `Store.get`, `resolve`: the code
* `fetchAll_stored`, `fetchAll_bare`: what is fresh, and what is in a store that was empty
* `fresh_of_stored`, `stored_of_fresh`: what the store answers then
* `LedTo`, `Origin`: what the local datasets lead to, and where a finding may be kept
* `resolve_agree`: when `--no-cache` comes to the same clusters
-/

namespace Hashdex

/-- Whether the network has to be asked again. -/
inductive Store.Cached where
  | hit
  | miss
  | absent
  deriving DecidableEq

def missTtlSecs : ℕ := 3 * 24 * 3600

def Store.get (st : Store) (backend : String) (coord : Coord) (now : ℕ) : Store.Cached :=
  match st.observations.find? fun o => o.backend == backend && o.coordinate == coord.display with
  | none => .absent
  | some row =>
    if row.hit then (if row.finding.isSome then .hit else .absent)
    else if missTtlSecs < now - row.fetchedAt then .absent else .miss

structure Backend where
  name : String
  supports : Scheme → Bool
  /-- What the network answers, or the text of the failure. -/
  lookup : Coord → Except String (List Finding)

/-- `backends::all`. -/
structure Backends where
  all : List Backend
  distinct : (all.map Backend.name).Nodup

/-- A pulled dataset. -/
structure Dataset where
  name : String
  lookup : Coord → List Finding

structure ResolveOptions where
  refresh : Bool
  noCache : Bool
  offline : Bool
  only : Option (List String)

structure Resolution where
  coord : Coord
  clusters : List Cluster
  collision : Bool
  truncated : Bool
  misses : List String
  errors : List (String × String)
  offline : Bool

/-- One backend: skipped, known to have nothing, or to be asked. -/
def considerBackend (opts : ResolveOptions) (datasets : List Dataset) (cache : Option Store)
    (coord : Coord) (now : ℕ) (st : List Backend × List String) (b : Backend) :
    List Backend × List String :=
  if !b.supports coord.scheme then st
  -- a pulled dataset answers from disk in the walk
  else if datasets.any fun d => d.name == b.name then st
  else if opts.only.any fun only => !only.contains b.name then st
  else
    let cached := if opts.refresh then none else cache.map fun c => c.get b.name coord now
    match cached with
    -- a stored hit is picked up by the walk
    | some Store.Cached.hit => st
    | some Store.Cached.miss => (st.1, st.2 ++ [b.name])
    | some Store.Cached.absent => (st.1 ++ [b], st.2)
    | none => (st.1 ++ [b], st.2)

/-- The backends to ask, and those known to have nothing. -/
def toFetch (opts : ResolveOptions) (backends : Backends) (datasets : List Dataset)
    (cache : Option Store) (coord : Coord) (now : ℕ) : List Backend × List String :=
  if opts.offline then ([], [])
  else backends.all.foldl (considerBackend opts datasets cache coord now) ([], [])

structure Fetched where
  cache : Option Store
  misses : List String
  errors : List (String × String)
  fresh : List Finding

/-- One outcome: failures are reported, but not stored. -/
def Fetched.record (coord : Coord) (now : ℕ) (st : Fetched)
    (outcome : String × Except String (List Finding)) : Fetched :=
  match outcome.2 with
  | .ok findings =>
    let cache := st.cache.map fun c => c.put ⟨outcome.1, coord, findings, now⟩
    if findings.isEmpty then { st with cache := cache, misses := st.misses ++ [outcome.1] }
    else { st with cache := cache, fresh := st.fresh ++ findings }
  | .error e => { st with errors := st.errors ++ [(outcome.1, e)] }

/-- The fresh findings that the walk has not seen. -/
def mergeFresh (coord : Coord) (fresh : List Finding) (evidence : List Evidence) : List Evidence :=
  let seen := evidence.map fun e => e.finding
  evidence ++ (fresh.filter fun f => f ∉ seen).map fun f => ⟨coord, f⟩

/-- What all datasets know of a coordinate. -/
def localOf (datasets : List Dataset) (c : Coord) : List Finding :=
  datasets.flatMap fun d => d.lookup c

def fetchAll (opts : ResolveOptions) (opened : Option Store) (backends : Backends)
    (datasets : List Dataset) (coord : Coord) (now : ℕ) : Fetched :=
  let cache := if opts.noCache then none else opened
  let asked := toFetch opts backends datasets cache coord now
  (asked.1.map fun b => (b.name, b.lookup coord)).foldl (Fetched.record coord now)
    ⟨cache, asked.2, [], []⟩

def resolveEvidence (opts : ResolveOptions) (opened : Option Store) (backends : Backends)
    (datasets : List Dataset) (coord : Coord) (now : ℕ) : List Evidence :=
  let fetched := fetchAll opts opened backends datasets coord now
  mergeFresh coord fetched.fresh
    (walk [coord] (localOf datasets) (fetched.cache.map Store.findingsFor))

/-- `resolve`; `opened` is the store, if it could be opened. -/
def resolve (order : IterOrder) (opts : ResolveOptions) (opened : Option Store) (backends : Backends)
    (datasets : List Dataset) (coord : Coord) (now : ℕ) : Resolution :=
  let fetched := fetchAll opts opened backends datasets coord now
  let result := cluster order (resolveEvidence opts opened backends datasets coord now) coord
  { coord := coord
    clusters := result.clusters
    collision := result.collision
    truncated := result.truncated
    misses := fetched.misses
    errors := fetched.errors
    offline := opts.offline }

/-! ### What is asked and what is fresh -/

/-- The answers there were. -/
def okAnswers (outcomes : List (String × Except String (List Finding))) :
    List (String × List Finding) :=
  outcomes.filterMap fun o =>
    match o.2 with
    | .ok findings => some (o.1, findings)
    | .error _ => none

def putsOf (coord : Coord) (now : ℕ) (outcomes : List (String × Except String (List Finding))) :
    List Put :=
  (okAnswers outcomes).map fun a => ⟨a.1, coord, a.2, now⟩

theorem record_spec (coord : Coord) (now : ℕ)
    (outcomes : List (String × Except String (List Finding))) (st : Fetched) :
    (outcomes.foldl (Fetched.record coord now) st).cache =
        st.cache.map (fun c => (putsOf coord now outcomes).foldl Store.put c) ∧
      (outcomes.foldl (Fetched.record coord now) st).fresh =
        st.fresh ++ (okAnswers outcomes).flatMap Prod.snd := by
  induction outcomes generalizing st with
  | nil => simp [putsOf, okAnswers]
  | cons o rest ih =>
    obtain ⟨name, outcome⟩ := o
    obtain ⟨hcache, hfresh⟩ := ih (Fetched.record coord now st (name, outcome))
    rw [List.foldl_cons, hcache, hfresh]
    cases outcome with
    | error e => simp [Fetched.record, putsOf, okAnswers]
    | ok findings =>
      cases findings with
      | nil => simp [Fetched.record, putsOf, okAnswers, Option.map_map, Function.comp_def]
      | cons f fs => simp [Fetched.record, putsOf, okAnswers, Option.map_map, Function.comp_def]

/-- Each backend is asked at most once. -/
theorem toFetch_sublist (opts : ResolveOptions) (backends : Backends) (datasets : List Dataset)
    (cache : Option Store) (coord : Coord) (now : ℕ) :
    (toFetch opts backends datasets cache coord now).1.Sublist backends.all := by
  have hfold : ∀ (bs : List Backend) (st : List Backend × List String),
      (bs.foldl (considerBackend opts datasets cache coord now) st).1.Sublist (st.1 ++ bs) := by
    intro bs
    induction bs with
    | nil => intro st; simp
    | cons b rest ih =>
      intro st
      have hstep : (considerBackend opts datasets cache coord now st b).1.Sublist (st.1 ++ [b]) := by
        rw [considerBackend]
        split_ifs
        · exact List.sublist_append_left _ _
        · exact List.sublist_append_left _ _
        · exact List.sublist_append_left _ _
        · exact List.Sublist.refl _
        · dsimp only
          split
          · exact List.sublist_append_left _ _
          · exact List.sublist_append_left _ _
          · exact List.Sublist.refl _
          · exact List.Sublist.refl _
      have happend := hstep.append_right rest
      rw [List.append_assoc, List.singleton_append] at happend
      exact (ih _).trans happend
  rw [toFetch]
  split_ifs
  · exact List.nil_sublist _
  · have := hfold backends.all ([], [])
    rwa [List.nil_append] at this

theorem get_empty (backend : String) (coord : Coord) (now : ℕ) :
    Store.empty.get backend coord now = .absent := rfl

/-- A store with nothing in it keeps nothing from being asked. -/
theorem considerBackend_empty (opts opts' : ResolveOptions) (datasets : List Dataset) (coord : Coord)
    (now : ℕ) (honly : opts.only = opts'.only) :
    considerBackend opts datasets (some Store.empty) coord now =
      considerBackend opts' datasets none coord now := by
  funext st b
  rw [considerBackend, considerBackend, honly]
  cases opts.refresh <;> simp [get_empty]

section

variable (opts : ResolveOptions) (backends : Backends) (datasets : List Dataset) (coord : Coord)
  (now : ℕ)

/-- What the backends answer that are asked when nothing is stored. -/
def outcomesOf : List (String × Except String (List Finding)) :=
  (toFetch opts backends datasets none coord now).1.map fun b => (b.name, b.lookup coord)

/-- The fresh network findings. -/
def freshOf : List Finding := (okAnswers (outcomesOf opts backends datasets coord now)).flatMap Prod.snd

/-- What the store answers after that. -/
def storedFor (c : Coord) : List Finding :=
  (Store.replay (putsOf coord now (outcomesOf opts backends datasets coord now))).findingsFor c

variable {opts backends datasets coord now}

theorem fetchAll_stored :
    (fetchAll { opts with noCache := false } (some Store.empty) backends datasets coord now).cache =
        some (Store.replay (putsOf coord now (outcomesOf opts backends datasets coord now))) ∧
      (fetchAll { opts with noCache := false } (some Store.empty) backends datasets coord now).fresh =
        freshOf opts backends datasets coord now := by
  have hstep := considerBackend_empty { opts with noCache := false } opts datasets coord now rfl
  have hasked : toFetch { opts with noCache := false } backends datasets (some Store.empty) coord now =
      toFetch opts backends datasets none coord now := by
    rw [toFetch, toFetch, hstep]
  have hfetch : fetchAll { opts with noCache := false } (some Store.empty) backends datasets coord now =
      (outcomesOf opts backends datasets coord now).foldl (Fetched.record coord now)
        ⟨some Store.empty, (toFetch opts backends datasets none coord now).2, [], []⟩ := by
    rw [outcomesOf, ← hasked]
    rfl
  rw [hfetch]
  exact record_spec coord now _ _

theorem fetchAll_bare (opened : Option Store) :
    (fetchAll { opts with noCache := true } opened backends datasets coord now).cache = none ∧
      (fetchAll { opts with noCache := true } opened backends datasets coord now).fresh =
        freshOf opts backends datasets coord now := by
  have hfetch : fetchAll { opts with noCache := true } opened backends datasets coord now =
      (outcomesOf opts backends datasets coord now).foldl (Fetched.record coord now)
        ⟨none, (toFetch opts backends datasets none coord now).2, [], []⟩ := rfl
  rw [hfetch]
  exact record_spec coord now _ _

/-! ### What the store answers -/

theorem mem_freshOf {f : Finding} : f ∈ freshOf opts backends datasets coord now ↔
    ∃ op ∈ putsOf coord now (outcomesOf opts backends datasets coord now), f ∈ op.findings := by
  simp [freshOf, putsOf, List.mem_flatMap]

theorem fresh_of_stored {c : Coord} {f : Finding}
    (h : f ∈ storedFor opts backends datasets coord now c) :
    f ∈ freshOf opts backends datasets coord now := by
  obtain ⟨b, q, fs, hlast, hf, -⟩ := mem_findingsFor.mp h
  rw [lastAnswer, Option.map_eq_some_iff] at hlast
  obtain ⟨op, hop, rfl⟩ := hlast
  exact mem_freshOf.mpr ⟨op, List.mem_reverse.mp (List.mem_of_find?_eq_some hop), hf⟩

/-- Each backend has answered once. -/
theorem puts_distinct :
    ((putsOf coord now (outcomesOf opts backends datasets coord now)).map Put.backend).Nodup := by
  have hnames : ((toFetch opts backends datasets none coord now).1.map Backend.name).Nodup :=
    backends.distinct.sublist ((toFetch_sublist opts backends datasets none coord now).map _)
  have hsub : ∀ bs : List Backend, ((putsOf coord now
      (bs.map fun b => (b.name, b.lookup coord))).map Put.backend).Sublist (bs.map Backend.name) := by
    intro bs
    induction bs with
    | nil => exact List.Sublist.refl _
    | cons b rest ih =>
      cases hlookup : b.lookup coord with
      | error e =>
        have hskip : putsOf coord now ((b :: rest).map fun b => (b.name, b.lookup coord)) =
            putsOf coord now (rest.map fun b => (b.name, b.lookup coord)) := by
          simp [putsOf, okAnswers, hlookup]
        rw [hskip]
        exact ih.cons _
      | ok fs =>
        have htake : putsOf coord now ((b :: rest).map fun b => (b.name, b.lookup coord)) =
            ⟨b.name, coord, fs, now⟩ ::
              putsOf coord now (rest.map fun b => (b.name, b.lookup coord)) := by
          simp [putsOf, okAnswers, hlookup]
        rw [htake]
        exact ih.cons_cons _
  exact hnames.sublist (hsub _)

theorem lastAnswer_of_distinct {ops : List Put} (hdistinct : (ops.map Put.backend).Nodup) {op : Put}
    (hop : op ∈ ops) : lastAnswer ops op.backend op.coord = some op.findings := by
  rw [lastAnswer]
  have hfind : (ops.reverse.find? fun o => o.backend == op.backend && o.coord == op.coord) =
      some op := by
    cases h : ops.reverse.find? fun o => o.backend == op.backend && o.coord == op.coord with
    | none =>
      have hnot := List.find?_eq_none.mp h op (List.mem_reverse.mpr hop)
      simp at hnot
    | some o =>
      have hmem := List.mem_reverse.mp (List.mem_of_find?_eq_some h)
      have hkey := List.find?_some h
      simp only [Bool.and_eq_true, beq_iff_eq] at hkey
      rw [List.inj_on_of_nodup_map hdistinct hmem hop hkey.1]
  rw [hfind]
  rfl

theorem stored_of_fresh {f : Finding} (h : f ∈ freshOf opts backends datasets coord now) :
    f ∈ storedFor opts backends datasets coord now coord := by
  obtain ⟨op, hop, hf⟩ := mem_freshOf.mp h
  have hcoord : op.coord = coord := by
    rw [putsOf, List.mem_map] at hop
    obtain ⟨a, -, rfl⟩ := hop
    rfl
  have hlast := lastAnswer_of_distinct puts_distinct hop
  exact mem_findingsFor.mpr ⟨op.backend, op.coord, op.findings, hlast, hf, .inr hcoord⟩

end

/-! ### What the datasets lead to -/

/-- The finding can be come to from these coordinates. -/
def LedTo (lookup : Coord → List Finding) (seeds : List Coord) (f : Finding) : Prop :=
  ∃ n, FoundWithin lookup seeds n f

section

variable {lookup lookup' : Coord → List Finding} {seeds seeds' : List Coord}

theorem WithinHops.wider (hseeds : ∀ c ∈ seeds, c ∈ seeds')
    (hlookup : ∀ c, ∀ f ∈ lookup c, f ∈ lookup' c) {n : ℕ} {c : Coord}
    (h : WithinHops lookup seeds n c) : WithinHops lookup' seeds' n c := by
  induction n generalizing c with
  | zero => exact hseeds c h
  | succ n ih =>
    cases h with
    | inl h => exact .inl (ih h)
    | inr h =>
      obtain ⟨d, hd, f, hf, hc⟩ := h
      exact .inr ⟨d, ih hd, f, hlookup d f hf, hc⟩

/-- A link is added in front. -/
theorem WithinHops.after {n k : ℕ} {c : Coord} (h : WithinHops lookup seeds' n c)
    (hseeds : ∀ d ∈ seeds', WithinHops lookup seeds k d) : WithinHops lookup seeds (k + n) c := by
  induction n generalizing c with
  | zero => exact hseeds c h
  | succ n ih =>
    cases h with
    | inl h => exact .inl (ih h)
    | inr h =>
      obtain ⟨d, hd, f, hf, hc⟩ := h
      exact .inr ⟨d, ih hd, f, hf, hc⟩

theorem withinHops_append {n : ℕ} {c : Coord} :
    WithinHops lookup (seeds ++ seeds') n c ↔
      WithinHops lookup seeds n c ∨ WithinHops lookup seeds' n c := by
  constructor
  · intro h
    induction n generalizing c with
    | zero => exact List.mem_append.mp h
    | succ n ih =>
      cases h with
      | inl h => exact (ih h).imp .inl .inl
      | inr h =>
        obtain ⟨d, hd, hc⟩ := h
        exact (ih hd).imp (fun hd => .inr ⟨d, hd, hc⟩) fun hd => .inr ⟨d, hd, hc⟩
  · rintro (h | h)
    · exact h.wider (fun _ => List.mem_append_left _) fun _ _ => id
    · exact h.wider (fun _ => List.mem_append_right _) fun _ _ => id

theorem ledTo_append {f : Finding} :
    LedTo lookup (seeds ++ seeds') f ↔ LedTo lookup seeds f ∨ LedTo lookup seeds' f := by
  simp only [LedTo, FoundWithin, withinHops_append, or_and_right, exists_or]

end

/-- A walk that no limit stops finds all that it is led to. -/
theorem Unlimited.has_iff {seeds : List Coord} {localSources : Coord → List Finding}
    {findingsFor : Option (Coord → List Finding)} (h : Unlimited seeds localSources findingsFor)
    (f : Finding) :
    Has (walk seeds localSources findingsFor) f ↔
      LedTo (lookupOf localSources findingsFor) seeds f := by
  rw [walk_has_iff h.room]
  constructor
  · exact fun hf => ⟨_, hf⟩
  · rintro ⟨n, c, hc, hf⟩
    have hclosed := ((walkState_reached seeds localSources findingsFor).closed_iff h.room).mp h.closed
    have hstable : ∀ k c, WithinHops (lookupOf localSources findingsFor) seeds (maxHops - 1 + k) c →
        WithinHops (lookupOf localSources findingsFor) seeds (maxHops - 1) c := by
      intro k
      induction k with
      | zero => exact fun c hc => hc
      | succ k ih =>
        intro c hc
        apply hclosed
        cases hc with
        | inl hc => exact .inl (ih c hc)
        | inr hc =>
          obtain ⟨d, hd, hlead⟩ := hc
          exact .inr ⟨d, ih d hd, hlead⟩
    exact ⟨c, hstable n c (hc.mono (by omega)), hf⟩

/-! ### The two evidence lists -/

section

variable (opts : ResolveOptions) (backends : Backends) (datasets : List Dataset) (coord : Coord)
  (now : ℕ)

/-- What the fresh findings state. -/
def freshCoords : List Coord := (freshOf opts backends datasets coord now).flatMap Finding.stated

/-- The finding is fresh, or the datasets lead to it from the coordinate or from what fresh findings
state, and this is where it is answered. -/
def Origin (f : Finding) (c : Coord) : Prop :=
  (f ∈ freshOf opts backends datasets coord now ∧ c = coord) ∨
    (f ∈ localOf datasets c ∧
      ∃ n, WithinHops (localOf datasets) (coord :: freshCoords opts backends datasets coord now) n c)

/-- No finding carries different coordinates depending on where it is answered. -/
def Unmoved : Prop :=
  ∀ f c c', Origin opts backends datasets coord now f c → Origin opts backends datasets coord now f c' →
    ∀ d, Effective ⟨c, f⟩ d ↔ Effective ⟨c', f⟩ d

/-- What the datasets lead to from the coordinates that fresh findings state is known without. -/
def Covered : Prop :=
  ∀ f, LedTo (localOf datasets) (freshCoords opts backends datasets coord now) f →
    f ∈ freshOf opts backends datasets coord now ∨ LedTo (localOf datasets) [coord] f

end

theorem mem_mergeFresh {coord : Coord} {fresh : List Finding} {evidence : List Evidence}
    {e : Evidence} : e ∈ mergeFresh coord fresh evidence ↔
      e ∈ evidence ∨ (e.foundAt = coord ∧ e.finding ∈ fresh ∧ ¬ Has evidence e.finding) := by
  have hseen : ∀ f, f ∈ evidence.map (fun e => e.finding) ↔ Has evidence f := by
    intro f
    rw [List.mem_map]
    rfl
  rw [mergeFresh, List.mem_append, List.mem_map]
  apply or_congr_right
  constructor
  · rintro ⟨f, hf, rfl⟩
    have hkept := List.mem_filter.mp hf
    exact ⟨rfl, hkept.1, mt (hseen f).mpr (by simpa using hkept.2)⟩
  · rintro ⟨hat, hf, hnew⟩
    refine ⟨e.finding, List.mem_filter.mpr ⟨hf, ?_⟩, ?_⟩
    · exact decide_eq_true (mt (hseen e.finding).mp hnew)
    · rw [← hat]

theorem mergeFresh_has {coord : Coord} {fresh : List Finding} {evidence : List Evidence}
    {f : Finding} : Has (mergeFresh coord fresh evidence) f ↔ Has evidence f ∨ f ∈ fresh := by
  constructor
  · rintro ⟨e, he, rfl⟩
    cases mem_mergeFresh.mp he with
    | inl he => exact .inl ⟨e, he, rfl⟩
    | inr he => exact .inr he.2.1
  · intro h
    by_cases hf : Has evidence f
    · obtain ⟨e, he, rfl⟩ := hf
      exact ⟨e, mem_mergeFresh.mpr (.inl he), rfl⟩
    · exact ⟨⟨coord, f⟩, mem_mergeFresh.mpr (.inr ⟨rfl, h.resolve_left hf, hf⟩), rfl⟩

theorem mergeFresh_oneOrigin {coord : Coord} {fresh : List Finding} {evidence : List Evidence}
    (h : OneOrigin evidence) : OneOrigin (mergeFresh coord fresh evidence) := by
  intro e he e' he' hfinding
  cases mem_mergeFresh.mp he with
  | inl hold =>
    cases mem_mergeFresh.mp he' with
    | inl hold' => exact h e hold e' hold' hfinding
    | inr hnew' => exact absurd ⟨e, hold, hfinding⟩ hnew'.2.2
  | inr hnew =>
    cases mem_mergeFresh.mp he' with
    | inl hold' => exact absurd ⟨e', hold', hfinding.symm⟩ hnew.2.2
    | inr hnew' =>
      obtain ⟨c, f⟩ := e
      obtain ⟨c', f'⟩ := e'
      obtain ⟨rfl, -⟩ := hnew
      obtain ⟨rfl, -⟩ := hnew'
      cases hfinding
      rfl

theorem resolveEvidence_oneOrigin (opts : ResolveOptions) (opened : Option Store)
    (backends : Backends) (datasets : List Dataset) (coord : Coord) (now : ℕ) :
    OneOrigin (resolveEvidence opts opened backends datasets coord now) :=
  mergeFresh_oneOrigin (walk_oneOrigin _ _ _)

section

variable {opts : ResolveOptions} {backends : Backends} {datasets : List Dataset} {coord : Coord}
  {now : ℕ}

theorem resolveEvidence_stored :
    resolveEvidence { opts with noCache := false } (some Store.empty) backends datasets coord now =
      mergeFresh coord (freshOf opts backends datasets coord now)
        (walk [coord] (localOf datasets) (some (storedFor opts backends datasets coord now))) := by
  obtain ⟨hcache, hfresh⟩ := @fetchAll_stored opts backends datasets coord now
  rw [resolveEvidence, hcache, hfresh]
  rfl

theorem resolveEvidence_bare (opened : Option Store) :
    resolveEvidence { opts with noCache := true } opened backends datasets coord now =
      mergeFresh coord (freshOf opts backends datasets coord now)
        (walk [coord] (localOf datasets) none) := by
  obtain ⟨hcache, hfresh⟩ := @fetchAll_bare opts backends datasets coord now opened
  rw [resolveEvidence, hcache, hfresh]
  rfl

theorem mem_lookupOf_some {localSources g : Coord → List Finding} {c : Coord} {f : Finding} :
    f ∈ lookupOf localSources (some g) c ↔ f ∈ localSources c ∨ f ∈ g c :=
  List.mem_append

theorem lookupOf_none (localSources : Coord → List Finding) :
    lookupOf localSources none = localSources := by
  funext c
  exact List.append_nil _

/-- The walk over the store goes where the datasets lead from the coordinate and from what fresh findings
state. -/
theorem stored_within {n : ℕ} {c : Coord}
    (h : WithinHops (lookupOf (localOf datasets) (some (storedFor opts backends datasets coord now)))
      [coord] n c) :
    ∃ m, WithinHops (localOf datasets) (coord :: freshCoords opts backends datasets coord now) m c := by
  induction n generalizing c with
  | zero =>
    rw [List.mem_singleton.mp h]
    exact ⟨0, List.mem_cons_self⟩
  | succ n ih =>
    cases h with
    | inl h => exact ih h
    | inr h =>
      obtain ⟨d, hd, f, hf, hc⟩ := h
      cases mem_lookupOf_some.mp hf with
      | inl hlocal =>
        obtain ⟨m, hm⟩ := ih hd
        exact ⟨m + 1, .inr ⟨d, hm, f, hlocal, hc⟩⟩
      | inr hstored =>
        have hcoord : c ∈ freshCoords opts backends datasets coord now :=
          List.mem_flatMap.mpr ⟨f, fresh_of_stored hstored, hc⟩
        exact ⟨0, List.mem_cons_of_mem _ hcoord⟩

theorem stored_led {f : Finding} :
    LedTo (lookupOf (localOf datasets) (some (storedFor opts backends datasets coord now))) [coord] f ↔
      f ∈ freshOf opts backends datasets coord now ∨ LedTo (localOf datasets) [coord] f ∨
        LedTo (localOf datasets) (freshCoords opts backends datasets coord now) f := by
  have hlocal : ∀ c, ∀ f ∈ localOf datasets c,
      f ∈ lookupOf (localOf datasets) (some (storedFor opts backends datasets coord now)) c :=
    fun c f hf => mem_lookupOf_some.mpr (.inl hf)
  have hstored : ∀ f ∈ freshOf opts backends datasets coord now,
      f ∈ lookupOf (localOf datasets) (some (storedFor opts backends datasets coord now)) coord :=
    fun f hf => mem_lookupOf_some.mpr (.inr (stored_of_fresh hf))
  constructor
  · rintro ⟨n, c, hc, hf⟩
    cases mem_lookupOf_some.mp hf with
    | inl hf =>
      obtain ⟨m, hm⟩ := stored_within hc
      exact .inr (ledTo_append.mp ⟨m, c, hm, hf⟩)
    | inr hf => exact .inl (fresh_of_stored hf)
  · rintro (hf | ⟨n, c, hc, hf⟩ | ⟨n, c, hc, hf⟩)
    · exact ⟨0, coord, List.mem_cons_self, hstored f hf⟩
    · exact ⟨n, c, hc.wider (fun _ => id) hlocal, hlocal c f hf⟩
    · have hone : ∀ d ∈ freshCoords opts backends datasets coord now,
          WithinHops (lookupOf (localOf datasets) (some (storedFor opts backends datasets coord now)))
            [coord] 1 d := by
        intro d hd
        obtain ⟨g, hg, hstated⟩ := List.mem_flatMap.mp hd
        exact .inr ⟨coord, List.mem_cons_self, g, hstored g hg, hstated⟩
      have hwide := hc.wider (fun _ => id) hlocal
      exact ⟨1 + n, c, hwide.after hone, hlocal c f hf⟩

theorem stored_has
    (hlimit : Unlimited [coord] (localOf datasets) (some (storedFor opts backends datasets coord now)))
    (f : Finding) :
    Has (resolveEvidence { opts with noCache := false } (some Store.empty) backends datasets coord now)
        f ↔
      f ∈ freshOf opts backends datasets coord now ∨ LedTo (localOf datasets) [coord] f ∨
        LedTo (localOf datasets) (freshCoords opts backends datasets coord now) f := by
  rw [resolveEvidence_stored, mergeFresh_has, hlimit.has_iff, stored_led]
  tauto

theorem bare_has (opened : Option Store) (hlimit : Unlimited [coord] (localOf datasets) none)
    (f : Finding) :
    Has (resolveEvidence { opts with noCache := true } opened backends datasets coord now) f ↔
      f ∈ freshOf opts backends datasets coord now ∨ LedTo (localOf datasets) [coord] f := by
  rw [resolveEvidence_bare, mergeFresh_has, hlimit.has_iff, lookupOf_none]
  tauto

/-! ### Where the findings are kept -/

theorem stored_origin
    (hlimit : Unlimited [coord] (localOf datasets) (some (storedFor opts backends datasets coord now))) :
    ∀ e ∈ resolveEvidence { opts with noCache := false } (some Store.empty) backends datasets coord now,
      Origin opts backends datasets coord now e.finding e.foundAt := by
  intro e he
  rw [resolveEvidence_stored] at he
  cases mem_mergeFresh.mp he with
  | inr hnew => exact .inl ⟨hnew.2.1, hnew.1⟩
  | inl hold =>
    obtain ⟨hanswer, k, -, hwithin, hfirst⟩ := walk_first hlimit.room e hold
    cases mem_lookupOf_some.mp hanswer with
    | inl hlocal => exact .inr ⟨hlocal, stored_within hwithin⟩
    | inr hstored =>
      -- the coordinate itself is looked up first, and the store answers it with all that is fresh
      have hfresh := fresh_of_stored hstored
      have hatcoord : FoundWithin (lookupOf (localOf datasets)
          (some (storedFor opts backends datasets coord now))) [coord] 0 e.finding :=
        ⟨coord, List.mem_cons_self, mem_lookupOf_some.mpr (.inr (stored_of_fresh hfresh))⟩
      cases k with
      | zero => exact .inl ⟨hfresh, List.mem_singleton.mp hwithin⟩
      | succ k => exact absurd hatcoord (hfirst 0 (Nat.succ_pos k))

theorem bare_origin (opened : Option Store) (hlimit : Unlimited [coord] (localOf datasets) none) :
    ∀ e ∈ resolveEvidence { opts with noCache := true } opened backends datasets coord now,
      Origin opts backends datasets coord now e.finding e.foundAt := by
  intro e he
  rw [resolveEvidence_bare] at he
  cases mem_mergeFresh.mp he with
  | inr hnew => exact .inl ⟨hnew.2.1, hnew.1⟩
  | inl hold =>
    obtain ⟨hanswer, k, -, hwithin, -⟩ := walk_first hlimit.room e hold
    rw [lookupOf_none] at hanswer hwithin
    have hseeds : ∀ c ∈ [coord], c ∈ coord :: freshCoords opts backends datasets coord now := by
      simp
    exact .inr ⟨hanswer, k, hwithin.wider hseeds fun _ _ => id⟩

theorem Unmoved.carriedBy (hunmoved : Unmoved opts backends datasets coord now)
    {evidence evidence' : List Evidence} (hhas : ∀ f, Has evidence f ↔ Has evidence' f)
    (horigin : ∀ e ∈ evidence, Origin opts backends datasets coord now e.finding e.foundAt)
    (horigin' : ∀ e ∈ evidence', Origin opts backends datasets coord now e.finding e.foundAt)
    (f : Finding) (c : Coord) : CarriedBy evidence f c ↔ CarriedBy evidence' f c := by
  constructor
  · rintro ⟨e, he, rfl, hc⟩
    obtain ⟨e', he', hfinding⟩ := (hhas e.finding).mp ⟨e, he, rfl⟩
    have hat := horigin' e' he'
    rw [hfinding] at hat
    refine ⟨e', he', hfinding, ?_⟩
    have heffective := (hunmoved _ _ _ (horigin e he) hat c).mp hc
    rwa [← hfinding] at heffective
  · rintro ⟨e', he', rfl, hc⟩
    obtain ⟨e, he, hfinding⟩ := (hhas e'.finding).mpr ⟨e', he', rfl⟩
    have hat := horigin e he
    rw [hfinding] at hat
    refine ⟨e, he, hfinding, ?_⟩
    have heffective := (hunmoved _ _ _ (horigin' e' he') hat c).mp hc
    rwa [← hfinding] at heffective

end

/-- The same clusters and the same collision flag. -/
structure SameAnswer (r r' : Resolution) : Prop where
  clusters : SameClusters r.clusters r'.clusters
  collision : r.collision = r'.collision

/-- With a store that is empty at the start. -/
def resolveStored (order : IterOrder) (opts : ResolveOptions) (backends : Backends)
    (datasets : List Dataset) (coord : Coord) (now : ℕ) : Resolution :=
  resolve order { opts with noCache := false } (some Store.empty) backends datasets coord now

/-- With `--no-cache`, whatever store there is. -/
def resolveBare (order : IterOrder) (opts : ResolveOptions) (opened : Option Store)
    (backends : Backends) (datasets : List Dataset) (coord : Coord) (now : ℕ) : Resolution :=
  resolve order { opts with noCache := true } opened backends datasets coord now

def echoDataset : Dataset := ⟨"census", fun c => [echoFinding c]⟩

/-- The one backend answers with a finding that states this coordinate. -/
def crosswalkTo (c : Coord) : Backends where
  all := [⟨"depsdev", fun _ => true, fun _ => .ok [⟨"depsdev", [], [c.display], none⟩]⟩]
  distinct := List.nodup_singleton _

def defaultOptions : ResolveOptions := ⟨false, false, false, none⟩

theorem freshOf_crosswalk (c coord : Coord) :
    freshOf defaultOptions (crosswalkTo c) [echoDataset] coord 0 =
      [⟨"depsdev", [], [c.display], none⟩] := by
  simp [freshOf, outcomesOf, toFetch, considerBackend, crosswalkTo, echoDataset, defaultOptions,
    okAnswers]

theorem echoDataset_stated (c : Coord) : ∀ f ∈ localOf [echoDataset] c, f.stated = [c] := by
  simp [localOf, echoDataset, echoFinding, Finding.stated, Coord.parse_display]

theorem unmoved_crosswalk (coord : Coord) :
    Unmoved defaultOptions (crosswalkTo coord) [echoDataset] coord 0 := by
  have hstates : ∀ {f c}, Origin defaultOptions (crosswalkTo coord) [echoDataset] coord 0 f c →
      f.States c := by
    rintro f c (⟨hf, rfl⟩ | ⟨hf, -⟩)
    · rw [freshOf_crosswalk, List.mem_singleton] at hf
      rw [hf]
      exact Finding.states_of_display List.mem_cons_self
    · rw [Finding.States, echoDataset_stated c f hf]
      exact List.mem_singleton_self c
  intro f c c' hc hc' d
  rw [effective_of_states (hstates hc), effective_of_states (hstates hc')]

theorem unlimited_iff {seeds : List Coord} {localSources : Coord → List Finding}
    {findingsFor : Option (Coord → List Finding)} :
    Unlimited seeds localSources findingsFor ↔
      (walkState seeds localSources findingsFor).evidence.length < maxEvidence ∧
      (∀ c ∈ seeds, c ∈ (walkState seeds localSources findingsFor).visited) ∧
      ∀ e ∈ (walkState seeds localSources findingsFor).evidence, ∀ c ∈ e.finding.stated,
        c ∈ (walkState seeds localSources findingsFor).visited :=
  ⟨fun h => ⟨h.room, h.closed.seeds, h.closed.stated⟩, fun h => ⟨h.1, h.2.1, h.2.2⟩⟩

end Hashdex
