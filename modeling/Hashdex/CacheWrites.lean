import Hashdex.Lib.Steps
import Hashdex.Resolve

/-!
# Writing observations, statement by statement

`put` writes the row of an answer and then an index entry for each coordinate, each by a statement of its
own whose failure is ignored, and the process may stop after any of them.  Opening the store fills the
index from the rows, but only when it has no entry at all.

* `exec_all`: with no failure, `put` is the `put` of whole answers
* `call_kept`: a call keeps the rows listed when it leaves no entry of a written row out
* `writes_reach`: then every hit is found through its query and through whatever it states
-/

namespace Hashdex

/-- A statement that writes to the store. -/
inductive Statement where
  | row (o : Observation)
  | coord (r : ObservationCoord)

namespace Store

def apply (st : Store) : Statement → Store
  | .row o => st.replaceRow o
  | .coord r => st.insertCoord r

/-- The statements of `index_coords`. -/
def entries (backend coordinate : String) (f : Finding) : List Statement :=
  (f.stated ++ (Coord.parse coordinate).toList).map fun c => .coord ⟨c, backend, coordinate⟩

/-- What `backfill_coords` runs when the store is opened. -/
def backfill (st : Store) : List Statement :=
  if st.observationCoords.isEmpty && st.observations.any (·.hit) then
    (st.observations.filter (·.hit)).flatMap fun o =>
      (o.finding.getD []).flatMap (entries o.backend o.coordinate)
  else []

end Store

/-- The statements of `put`. -/
def Put.statements (op : Put) : List Statement :=
  .row op.row :: op.findings.flatMap (Store.entries op.backend op.coord.display)

/-- Of the statements that are run one after the other, those that succeed; where there are fewer answers
than statements, the process stopped. -/
def written : List Statement → List Bool → List Statement
  | s :: ss, ok :: oks => if ok then s :: written ss oks else written ss oks
  | _, _ => []

def Store.exec (st : Store) (ss : List Statement) (oks : List Bool) : Store :=
  (written ss oks).foldl Store.apply st

/-- The store on disk, and whether a process has it open. -/
structure Life where
  store : Store
  opened : Bool

inductive Call where
  | put (op : Put) (oks : List Bool)
  | reopen (oks : List Bool)
  /-- The process ends, or cannot open the store. -/
  | stop

def Life.step (s : Life) : Call → Option Life
  | .put op oks =>
    if s.opened then
      some ⟨s.store.exec op.statements oks, decide (op.statements.length ≤ oks.length)⟩
    else none
  | .reopen oks =>
    some ⟨s.store.exec s.store.backfill oks, decide (s.store.backfill.length ≤ oks.length)⟩
  | .stop => some ⟨s.store, false⟩

/-! ### What statements do -/

section

variable {st : Store} {ss : List Statement} {oks : List Bool} {r : ObservationCoord} {o : Observation}

theorem written_sublist (ss : List Statement) (oks : List Bool) : (written ss oks).Sublist ss := by
  induction ss generalizing oks with
  | nil => exact List.Sublist.slnil
  | cons s ss ih =>
    cases oks with
    | nil => exact List.nil_sublist _
    | cons ok oks =>
      rw [written]
      split_ifs with hok
      · exact (ih oks).cons_cons s
      · exact (ih oks).cons s

theorem written_all (ss : List Statement) : written ss (List.replicate ss.length true) = ss := by
  induction ss with
  | nil => rfl
  | cons s ss ih =>
    rw [List.length_cons, List.replicate_succ, written, if_pos rfl, ih]

theorem Store.mem_apply_index {s : Statement} :
    r ∈ (st.apply s).observationCoords ↔ r ∈ st.observationCoords ∨ .coord r = s := by
  cases s with
  | row o => simp [Store.apply, Store.replaceRow]
  | coord r' =>
    rw [Store.apply, Store.mem_insertCoord]
    simp

theorem mem_foldl_index : r ∈ (ss.foldl Store.apply st).observationCoords
    ↔ r ∈ st.observationCoords ∨ .coord r ∈ ss := by
  induction ss generalizing st with
  | nil => simp
  | cons s ss ih =>
    rw [List.foldl_cons, ih, Store.mem_apply_index, List.mem_cons, or_assoc]

theorem mem_exec_index : r ∈ (st.exec ss oks).observationCoords
    ↔ r ∈ st.observationCoords ∨ .coord r ∈ written ss oks := mem_foldl_index

/-- Statements on the index leave the rows alone. -/
theorem foldl_observations (hss : ∀ s ∈ ss, ∃ r, s = .coord r) :
    (ss.foldl Store.apply st).observations = st.observations := by
  induction ss generalizing st with
  | nil => rfl
  | cons s ss ih =>
    obtain ⟨r, rfl⟩ := hss s List.mem_cons_self
    rw [List.foldl_cons, ih fun t ht => hss t (List.mem_cons_of_mem _ ht)]
    exact st.insertCoord_observations r

theorem mem_entries {b q : String} {f : Finding} {s : Statement} : s ∈ Store.entries b q f
    ↔ ∃ c, (f.States c ∨ Coord.parse q = some c) ∧ s = .coord ⟨c, b, q⟩ := by
  simp only [Store.entries, List.mem_map, List.mem_append, Option.mem_toList]
  constructor
  · intro ⟨c, hc, heq⟩
    exact ⟨c, hc, heq.symm⟩
  · intro ⟨c, hc, heq⟩
    exact ⟨c, hc, heq.symm⟩

theorem exec_observations_of_coords (hss : ∀ s ∈ ss, ∃ r, s = .coord r) :
    (st.exec ss oks).observations = st.observations :=
  foldl_observations fun s hs => hss s ((written_sublist ss oks).subset hs)

theorem flatMap_entries_coord {b q : String} {fs : List Finding} :
    ∀ s ∈ fs.flatMap (Store.entries b q), ∃ r, s = .coord r := by
  intro s hs
  obtain ⟨f, -, hf⟩ := List.mem_flatMap.mp hs
  obtain ⟨c, -, heq⟩ := mem_entries.mp hf
  exact ⟨_, heq⟩

theorem backfill_coord : ∀ s ∈ st.backfill, ∃ r, s = .coord r := by
  intro s hs
  unfold Store.backfill at hs
  split_ifs at hs
  · obtain ⟨o, -, ho⟩ := List.mem_flatMap.mp hs
    exact flatMap_entries_coord s ho
  · exact absurd hs List.not_mem_nil

/-- With no failure, the statements put the whole answer. -/
theorem exec_all (st : Store) (op : Put) :
    st.exec op.statements (List.replicate op.statements.length true) = st.put op := by
  rw [Store.exec, written_all, Put.statements, List.foldl_cons, List.foldl_flatMap]
  show List.foldl _ (st.replaceRow op.row) op.findings = List.foldl _ (st.replaceRow op.row) op.findings
  congr 1
  funext st f
  rw [Store.entries, List.foldl_map]
  rfl

end

/-! ### What the index owes the rows -/

/-- The index lists each hit's row under its query and whatever its findings state. -/
def RowsListed (st : Store) : Prop :=
  ∀ o ∈ st.observations, o.hit = true → ∀ fs, o.finding = some fs → ∀ f ∈ fs,
    ∀ s ∈ Store.entries o.backend o.coordinate f, ∃ r ∈ st.observationCoords, s = .coord r

/-- Every entry is in the index already or is written. -/
def Entered (st : Store) (ss : List Statement) (oks : List Bool) : Prop :=
  ∀ r, .coord r ∈ ss → r ∈ st.observationCoords ∨ .coord r ∈ written ss oks

/-- The process stops with no entry in the index. -/
def Untouched (st : Store) (ss : List Statement) (oks : List Bool) : Prop :=
  st.observationCoords = [] ∧ oks.length < ss.length ∧ ∀ r, .coord r ∉ written ss oks

/-- The call leaves no entry of a written row out, or stops before there is any entry at all. -/
def Kept (s : Life) : Call → Prop
  | .put op oks =>
    oks.head? ≠ some true ∨ Entered s.store op.statements oks ∨ Untouched s.store op.statements oks
  | .reopen oks => Entered s.store s.store.backfill oks ∨ Untouched s.store s.store.backfill oks
  | .stop => True

/-- What holds between calls: where the store is open its rows are listed, and else they are or there is
no entry. -/
structure Sound (s : Life) : Prop where
  opened : s.opened = true → RowsListed s.store
  closed : RowsListed s.store ∨ s.store.observationCoords = []

section

variable {st : Store} {ss : List Statement} {oks : List Bool}

theorem listed_of_index {st st' : Store} (h : RowsListed st) (hobs : st'.observations = st.observations)
    (hindex : ∀ r ∈ st.observationCoords, r ∈ st'.observationCoords) : RowsListed st' := by
  intro o ho hhit fs hfs f hf s hs
  rw [hobs] at ho
  obtain ⟨r, hr, heq⟩ := h o ho hhit fs hfs f hf s hs
  exact ⟨r, hindex r hr, heq⟩

theorem Untouched.index (h : Untouched st ss oks) : (st.exec ss oks).observationCoords = [] := by
  apply List.eq_nil_iff_forall_not_mem.mpr
  intro r hr
  cases mem_exec_index.mp hr with
  | inl hold => rw [h.1] at hold; exact absurd hold List.not_mem_nil
  | inr hnew => exact h.2.2 r hnew

/-- `put` whose row is not written. -/
theorem exec_put_unwritten (op : Put) (hrow : oks.head? ≠ some true) :
    (st.exec op.statements oks).observations = st.observations := by
  have hcoords : ∀ s ∈ written op.statements oks, ∃ r, s = .coord r := by
    unfold Put.statements
    cases oks with
    | nil => simp [written]
    | cons ok oks =>
      have hok : ok = false := by simpa using hrow
      rw [hok, written, if_neg Bool.false_ne_true]
      intro s hs
      exact flatMap_entries_coord s ((written_sublist _ _).subset hs)
  exact foldl_observations hcoords

theorem mem_exec_put {op : Put} {o : Observation}
    (ho : o ∈ (st.exec op.statements oks).observations) : o ∈ st.observations ∨ o = op.row := by
  by_cases hrow : oks.head? = some true
  · cases oks with
    | nil => cases hrow
    | cons ok oks =>
      have hok : ok = true := by simpa using hrow
      rw [Store.exec, Put.statements, hok, written, if_pos rfl, List.foldl_cons,
        foldl_observations fun s hs => flatMap_entries_coord s ((written_sublist _ _).subset hs)] at ho
      simp only [Store.apply, Store.replaceRow, List.mem_append, List.mem_filter,
        List.mem_singleton] at ho
      exact ho.imp And.left id
  · rw [exec_put_unwritten op hrow] at ho
    exact .inl ho

/-- **A `put` that leaves no entry out** keeps the rows listed. -/
theorem RowsListed.put {op : Put} (h : RowsListed st) (hall : Entered st op.statements oks) :
    RowsListed (st.exec op.statements oks) := by
  intro o ho hhit fs hfs f hf s hs
  cases mem_exec_put ho with
  | inl hold =>
    obtain ⟨r, hr, heq⟩ := h o hold hhit fs hfs f hf s hs
    exact ⟨r, mem_exec_index.mpr (.inl hr), heq⟩
  | inr hnew =>
    rw [hnew] at hs hfs
    have hfindings : fs = op.findings := by
      simp only [Put.row] at hfs
      split_ifs at hfs
      exact (Option.some.inj hfs).symm
    rw [hfindings] at hf
    have hstatement : s ∈ op.statements :=
      List.mem_cons_of_mem _ (List.mem_flatMap.mpr ⟨f, hf, hs⟩)
    obtain ⟨c, -, heq⟩ := mem_entries.mp hs
    rw [heq] at hstatement ⊢
    exact ⟨_, mem_exec_index.mpr (hall _ hstatement), rfl⟩

/-- **The backfill lists all rows** when there is no entry at all. -/
theorem listed_of_backfill (hindex : st.observationCoords = []) (hall : Entered st st.backfill oks) :
    RowsListed (st.exec st.backfill oks) := by
  intro o ho hhit fs hfs f hf s hs
  rw [exec_observations_of_coords backfill_coord] at ho
  have hstatement : s ∈ st.backfill := by
    have hany : (st.observationCoords.isEmpty && st.observations.any (·.hit)) = true := by
      rw [hindex]
      exact List.any_eq_true.mpr ⟨o, ho, hhit⟩
    rw [Store.backfill, if_pos hany]
    refine List.mem_flatMap.mpr ⟨o, List.mem_filter.mpr ⟨ho, hhit⟩, List.mem_flatMap.mpr ⟨f, ?_, hs⟩⟩
    rw [hfs]
    exact hf
  obtain ⟨r, rfl⟩ := backfill_coord s hstatement
  exact ⟨r, mem_exec_index.mpr (hall r hstatement), rfl⟩

/-- **One call.** -/
theorem call_kept {s s' : Life} {call : Call} (h : Sound s) (hkept : Kept s call)
    (hstep : s.step call = some s') : Sound s' := by
  cases call with
  | put op oks =>
    simp only [Life.step] at hstep
    split_ifs at hstep with hopen
    cases hstep
    have hlisted := h.opened hopen
    have hgrows : ∀ r ∈ s.store.observationCoords,
        r ∈ (s.store.exec op.statements oks).observationCoords := fun r hr =>
      mem_exec_index.mpr (.inl hr)
    obtain hrow | hall | hnone := hkept
    · have hnext := listed_of_index hlisted (exec_put_unwritten op hrow) hgrows
      exact ⟨fun _ => hnext, .inl hnext⟩
    · exact ⟨fun _ => hlisted.put hall, .inl (hlisted.put hall)⟩
    · refine ⟨fun hdone => ?_, .inr hnone.index⟩
      have hstopped := hnone.2.1
      have hran := of_decide_eq_true hdone
      omega
  | reopen oks =>
    simp only [Life.step] at hstep
    cases hstep
    cases hkept with
    | inl hall =>
      have hnext : RowsListed (s.store.exec s.store.backfill oks) := by
        cases h.closed with
        | inl hlisted =>
          exact listed_of_index hlisted (exec_observations_of_coords backfill_coord) fun r hr =>
            mem_exec_index.mpr (.inl hr)
        | inr hindex => exact listed_of_backfill hindex hall
      exact ⟨fun _ => hnext, .inl hnext⟩
    | inr hnone =>
      refine ⟨fun hdone => ?_, .inr hnone.index⟩
      have hstopped := hnone.2.1
      have hran := of_decide_eq_true hdone
      omega
  | stop =>
    cases hstep
    exact ⟨fun hopen => absurd hopen Bool.false_ne_true, h.closed⟩

end

/-! ### Hits -/

/-- The answer that is stored under a key. -/
def Store.stored (st : Store) (backend : String) (coord : Coord) : Option (List Finding) :=
  (st.observations.find? fun o => o.backend == backend && o.coordinate == coord.display).bind
    (·.finding)

/-- Every hit is found through its query and through whatever it states. -/
def Reachable (st : Store) : Prop :=
  ∀ backend q now, st.get backend q now = .hit → ∃ fs, st.stored backend q = some fs
    ∧ ∀ c, (c = q ∨ ∃ f ∈ fs, f.States c) → ∀ g ∈ fs, g ∈ st.findingsFor c

theorem RowsListed.reachable {st : Store} (h : RowsListed st) : Reachable st := by
  intro backend q now hget
  unfold Store.get at hget
  unfold Store.stored
  cases hrow : st.observations.find? fun o => o.backend == backend && o.coordinate == q.display with
  | none =>
    rw [hrow] at hget
    cases hget
  | some o =>
    rw [hrow] at hget
    have ho := List.mem_of_find?_eq_some hrow
    have hkey : o.backend = backend ∧ o.coordinate = q.display := by
      have := List.find?_some hrow
      simpa using this
    dsimp only at hget
    split_ifs at hget with hhit hsome
    obtain ⟨fs, hfs⟩ := Option.isSome_iff_exists.mp hsome
    refine ⟨fs, hfs, fun c hc g hg => ?_⟩
    have hentry : (⟨c, o.backend, o.coordinate⟩ : ObservationCoord) ∈ st.observationCoords := by
      have hlisted : ∀ f ∈ fs, (f.States c ∨ Coord.parse o.coordinate = some c) →
          (⟨c, o.backend, o.coordinate⟩ : ObservationCoord) ∈ st.observationCoords := by
        intro f hf hstates
        obtain ⟨r, hr, heq⟩ := h o ho hhit fs hfs f hf _ (mem_entries.mpr ⟨c, hstates, rfl⟩)
        cases heq
        exact hr
      obtain rfl | ⟨f, hf, hstates⟩ := hc
      · exact hlisted g hg (.inr (by rw [hkey.2, Coord.parse_display]))
      · exact hlisted f hf (.inl hstates)
    refine List.mem_flatten.mpr ⟨fs, List.mem_dedup.mpr (List.mem_flatMap.mpr ⟨_,
      List.mem_filter.mpr ⟨hentry, decide_eq_true rfl⟩, List.mem_filterMap.mpr ⟨o,
      List.mem_filter.mpr ⟨ho, ?_⟩, hfs⟩⟩), hg⟩
    simp [hhit]

/-- **When every hit is found.**  In a run in which each `put` that writes its row, and each backfill,
writes all the index entries that are not there yet, or stops while there is none at all, the walk sees
whatever the store says it has. -/
theorem writes_reach {calls : List Call} {s : Life}
    (hrun : Steps.run Life.step ⟨Store.empty, false⟩ calls = some s)
    (hkept : Steps.Along Life.step Kept ⟨Store.empty, false⟩ calls) (hopen : s.opened = true) :
    Reachable s.store := by
  have hempty : RowsListed Store.empty := fun o ho => absurd ho List.not_mem_nil
  have hstart : Sound ⟨Store.empty, false⟩ := ⟨fun _ => hempty, .inl hempty⟩
  have hsound := Steps.run_invariant_along (P := Sound) (fun _ _ _ h hC hstep => call_kept h hC hstep)
    hstart hkept hrun
  exact (hsound.opened hopen).reachable

/-- A source's answer to a query, which states what was queried. -/
def echoed (c : Coord) : Put := ⟨"fatcat", c, [⟨"fatcat", [], [c.display], none⟩], 0⟩

theorem echoed_statements (c : Coord) : (echoed c).statements
    = [.row (echoed c).row, .coord ⟨c, "fatcat", c.display⟩, .coord ⟨c, "fatcat", c.display⟩] := by
  simp [Put.statements, echoed, Store.entries, Finding.stated, Coord.parse_display]

def sampleEntry : ObservationCoord := ⟨sampleSha1, "fatcat", sampleSha1.display⟩

theorem step_crash : Life.step ⟨Store.empty, true⟩ (.put (echoed sampleSha1) [true])
    = some ⟨⟨[(echoed sampleSha1).row], []⟩, false⟩ := by
  simp only [Life.step, echoed_statements]
  rfl

theorem backfill_crashed : Store.backfill ⟨[(echoed sampleSha1).row], []⟩
    = [.coord sampleEntry, .coord sampleEntry] := by
  simp [Store.backfill, Put.row, echoed, Store.entries, Finding.stated, Coord.parse_display, sampleEntry]

theorem step_repair : Life.step ⟨⟨[(echoed sampleSha1).row], []⟩, false⟩ (.reopen [true, true])
    = some ⟨⟨[(echoed sampleSha1).row], [sampleEntry]⟩, true⟩ := by
  simp only [Life.step, backfill_crashed]
  simp [Store.exec, written, Store.apply, Store.insertCoord]

/-- The process stops after the row, and the next one fills the index. -/
theorem writes_reach_repaired : Reachable ⟨[(echoed sampleSha1).row], [sampleEntry]⟩ := by
  have hcrash : Untouched Store.empty (echoed sampleSha1).statements [true] := by
    rw [echoed_statements]
    refine ⟨rfl, by decide, fun r hr => ?_⟩
    have hrow : Statement.coord r = .row (echoed sampleSha1).row := List.mem_singleton.mp hr
    cases hrow
  have hrepair : Entered ⟨[(echoed sampleSha1).row], []⟩
      (Store.backfill ⟨[(echoed sampleSha1).row], []⟩) [true, true] := by
    rw [backfill_crashed]
    exact fun r hr => .inr hr
  have hfirst : Entered Store.empty Store.empty.backfill [] := fun r hr => absurd hr List.not_mem_nil
  refine @writes_reach [.reopen [], .put (echoed sampleSha1) [true], .reopen [true, true]]
    ⟨_, true⟩ ?_ ?_ rfl
  · exact Steps.run_cons.mpr ⟨_, rfl, Steps.run_cons.mpr ⟨_, step_crash,
      Steps.run_cons.mpr ⟨_, step_repair, rfl⟩⟩⟩
  · exact Steps.along_cons rfl (.inl hfirst) (Steps.along_cons step_crash (.inr (.inr hcrash))
      (Steps.along_cons step_repair (.inl hrepair) trivial))

/-- The process stops after the row of a second answer: the index has an entry, so the next one fills
nothing in. -/
theorem row_without_entry : ∃ calls s, Steps.run Life.step ⟨Store.empty, false⟩ calls = some s
    ∧ s.opened = true ∧ s.store.get "fatcat" sampleSha256 0 = .hit
    ∧ s.store.findingsFor sampleSha256 = [] ∧ ¬ Reachable s.store := by
  have hrun : (Steps.run Life.step ⟨Store.empty, false⟩ [.reopen [],
      .put (echoed sampleSha1) [true, true, true], .put (echoed sampleSha256) [true],
      .reopen []]).map (fun s => (s.opened, s.store.get "fatcat" sampleSha256 0,
        (s.store.findingsFor sampleSha256).length,
        (s.store.stored "fatcat" sampleSha256).map (·.length))) = some (true, .hit, 0, some 1) := by
    decide +kernel
  obtain ⟨s, hs, hseen⟩ := Option.map_eq_some_iff.mp hrun
  simp only [Prod.mk.injEq] at hseen
  obtain ⟨hopen, hhit, hnone, hone⟩ := hseen
  have hnone := List.length_eq_zero_iff.mp hnone
  refine ⟨_, s, hs, hopen, hhit, hnone, fun h => ?_⟩
  obtain ⟨fs, hfs, hfound⟩ := h "fatcat" sampleSha256 0 hhit
  rw [hfs, Option.map_some, Option.some.injEq] at hone
  obtain ⟨g, rfl⟩ := List.length_eq_one_iff.mp hone
  have hmem := hfound sampleSha256 (.inl rfl) g (List.mem_singleton_self g)
  rw [hnone] at hmem
  exact absurd hmem List.not_mem_nil

end Hashdex
