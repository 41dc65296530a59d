import Hashdex.Clustering

/-!
# The observation store

Two tables: one row for each (backend, queried coordinate) holding that backend's whole answer, and
a secondary index from every co-observed coordinate to the row.  A row's answer is stored as one
JSON text in the code; since serialization is injective the model keeps the list of findings itself.

* `replay_row` — the row of a key is the last answer put under it.
* `replay_index` — the index lists a coordinate under a key exactly when some answer ever put there
  stated it, or it is the queried one.
* `coobserved_iff` — when a lookup returns only findings that co-observe the coordinate.
-/

namespace Hashdex

/-- A row of `observations`, keyed by backend and displayed coordinate. -/
structure Observation where
  backend : String
  coordinate : String
  hit : Bool
  finding : Option (List Finding)
  fetchedAt : ℕ

/-- A row of `observation_coords`. -/
structure ObservationCoord where
  coord : Coord
  backend : String
  coordinate : String
  deriving DecidableEq

structure Store where
  observations : List Observation
  observationCoords : List ObservationCoord

namespace Store

def empty : Store := ⟨[], []⟩

/-- `INSERT OR REPLACE` on the primary key. -/
def replaceRow (st : Store) (row : Observation) : Store :=
  { st with
    observations := st.observations.filter
      (fun o => !(o.backend == row.backend && o.coordinate == row.coordinate)) ++ [row] }

/-- `INSERT OR IGNORE` into the index. -/
def insertCoord (st : Store) (row : ObservationCoord) : Store :=
  if row ∈ st.observationCoords then st
  else { st with observationCoords := st.observationCoords ++ [row] }

/-- Register every coordinate a finding co-observes, plus the queried one. -/
def indexCoords (st : Store) (backend coordinate : String) (f : Finding) : Store :=
  (f.stated ++ (Coord.parse coordinate).toList).foldl
    (fun st c => st.insertCoord ⟨c, backend, coordinate⟩) st

end Store

/-- One call of `Cache::put`: a backend's whole answer for one coordinate. -/
structure Put where
  backend : String
  coord : Coord
  findings : List Finding
  now : ℕ

namespace Store

def put (st : Store) (op : Put) : Store :=
  let row : Observation :=
    { backend := op.backend
      coordinate := op.coord.display
      hit := !op.findings.isEmpty
      finding := if op.findings.isEmpty then none else some op.findings
      fetchedAt := op.now }
  op.findings.foldl (fun st f => st.indexCoords op.backend op.coord.display f) (st.replaceRow row)

/-- The store after a sequence of puts. -/
def replay (ops : List Put) : Store := ops.foldl put empty

/-- The distinct answers the join of the two tables selects for a coordinate. -/
def answersFor (st : Store) (c : Coord) : List (List Finding) :=
  ((st.observationCoords.filter fun oc => oc.coord = c).flatMap fun oc =>
    (st.observations.filter fun o =>
      o.backend == oc.backend && o.coordinate == oc.coordinate && o.hit).filterMap
        (·.finding)).dedup

def findingsFor (st : Store) (c : Coord) : List Finding := (st.answersFor c).flatten

end Store

/-- The answer last put under a key. -/
def lastAnswer (ops : List Put) (backend : String) (q : Coord) : Option (List Finding) :=
  (ops.reverse.find? fun op => op.backend == backend && op.coord == q).map (·.findings)

/-- Some answer ever put under the key held a finding that states `c`. -/
def EverStated (ops : List Put) (backend : String) (q c : Coord) : Prop :=
  ∃ op ∈ ops, op.backend = backend ∧ op.coord = q ∧ ∃ f ∈ op.findings, f.States c

/-! ### The index -/

theorem Store.mem_insertCoord {st : Store} {row r : ObservationCoord} :
    r ∈ (st.insertCoord row).observationCoords ↔ r ∈ st.observationCoords ∨ r = row := by
  unfold Store.insertCoord
  split
  · rename_i h
    constructor
    · exact Or.inl
    · rintro (hr | rfl)
      · exact hr
      · exact h
  · simp

theorem Store.insertCoord_observations (st : Store) (row : ObservationCoord) :
    (st.insertCoord row).observations = st.observations := by
  unfold Store.insertCoord
  split <;> rfl

theorem Store.mem_indexCoords {st : Store} {b q : String} {f : Finding} {r : ObservationCoord} :
    r ∈ (st.indexCoords b q f).observationCoords ↔ r ∈ st.observationCoords ∨
      (r.backend = b ∧ r.coordinate = q ∧ (f.States r.coord ∨ Coord.parse q = some r.coord)) := by
  have hgen : ∀ (cs : List Coord) (st : Store),
      r ∈ (cs.foldl (fun st c => st.insertCoord ⟨c, b, q⟩) st).observationCoords ↔
        r ∈ st.observationCoords ∨ (r.backend = b ∧ r.coordinate = q ∧ r.coord ∈ cs) := by
    intro cs
    induction cs with
    | nil => simp
    | cons c cs ih =>
      intro st
      rw [List.foldl_cons, ih, Store.mem_insertCoord, List.mem_cons]
      obtain ⟨rc, rb, rq⟩ := r
      simp only [ObservationCoord.mk.injEq]
      tauto
  unfold Store.indexCoords
  rw [hgen, List.mem_append, Option.mem_toList]
  rfl

theorem Store.indexCoords_observations (st : Store) (b q : String) (f : Finding) :
    (st.indexCoords b q f).observations = st.observations := by
  have hgen : ∀ (cs : List Coord) (st : Store),
      (cs.foldl (fun st c => st.insertCoord ⟨c, b, q⟩) st).observations = st.observations := by
    intro cs
    induction cs with
    | nil => exact fun _ => rfl
    | cons c cs ih =>
      intro st
      rw [List.foldl_cons, ih, Store.insertCoord_observations]
  exact hgen _ st

/-- The row `put` writes. -/
def Put.row (op : Put) : Observation :=
  { backend := op.backend
    coordinate := op.coord.display
    hit := !op.findings.isEmpty
    finding := if op.findings.isEmpty then none else some op.findings
    fetchedAt := op.now }

theorem Store.put_observations (st : Store) (op : Put) :
    (st.put op).observations = (st.replaceRow op.row).observations := by
  have hgen : ∀ (fs : List Finding) (st : Store),
      (fs.foldl (fun st f => st.indexCoords op.backend op.coord.display f) st).observations
        = st.observations := by
    intro fs
    induction fs with
    | nil => exact fun _ => rfl
    | cons f fs ih =>
      intro st
      rw [List.foldl_cons, ih, Store.indexCoords_observations]
  exact hgen _ _

theorem Store.mem_put_index {st : Store} {op : Put} {r : ObservationCoord} :
    r ∈ (st.put op).observationCoords ↔ r ∈ st.observationCoords ∨
      (r.backend = op.backend ∧ r.coordinate = op.coord.display ∧
        ∃ f ∈ op.findings, f.States r.coord ∨ op.coord = r.coord) := by
  have hgen : ∀ (fs : List Finding) (st : Store),
      r ∈ (fs.foldl (fun st f => st.indexCoords op.backend op.coord.display f)
        st).observationCoords ↔ r ∈ st.observationCoords ∨
      (r.backend = op.backend ∧ r.coordinate = op.coord.display ∧
        ∃ f ∈ fs, f.States r.coord ∨ op.coord = r.coord) := by
    intro fs
    induction fs with
    | nil => simp
    | cons f fs ih =>
      intro st
      rw [List.foldl_cons, ih, Store.mem_indexCoords, Coord.parse_display, Option.some.injEq]
      simp only [List.mem_cons, exists_eq_or_imp]
      tauto
  exact hgen op.findings (st.replaceRow op.row)

/-- **The index after a history.** -/
theorem replay_index {ops : List Put} {c q : Coord} {b : String} :
    (⟨c, b, q.display⟩ : ObservationCoord) ∈ (Store.replay ops).observationCoords ↔
      EverStated ops b q c ∨
        (c = q ∧ ∃ op ∈ ops, op.backend = b ∧ op.coord = q ∧ op.findings ≠ []) := by
  induction ops using List.reverseRecOn with
  | nil => simp [Store.replay, Store.empty, EverStated]
  | append_singleton ops op ih =>
    rw [show Store.replay (ops ++ [op]) = (Store.replay ops).put op by
      simp [Store.replay]]
    rw [Store.mem_put_index, ih]
    simp only [EverStated, List.mem_append, List.mem_singleton]
    constructor
    · rintro ((⟨o, ho, h⟩ | ⟨rfl, o, ho, h⟩) | ⟨rfl, hq, f, hf, hs | rfl⟩)
      · exact Or.inl ⟨o, Or.inl ho, h⟩
      · exact Or.inr ⟨rfl, o, Or.inl ho, h⟩
      · exact Or.inl ⟨op, Or.inr rfl, rfl, (Coord.display_injective hq).symm, f, hf, hs⟩
      · exact Or.inr ⟨(Coord.display_injective hq).symm, op, Or.inr rfl, rfl,
          (Coord.display_injective hq).symm, List.ne_nil_of_mem hf⟩
    · rintro (⟨o, ho | rfl, hb, hq, f, hf, hs⟩ | ⟨rfl, o, ho | rfl, hb, hq, hne⟩)
      · exact Or.inl (Or.inl ⟨o, ho, hb, hq, f, hf, hs⟩)
      · exact Or.inr ⟨hb.symm, by rw [hq], f, hf, Or.inl hs⟩
      · exact Or.inl (Or.inr ⟨rfl, o, ho, hb, hq, hne⟩)
      · obtain ⟨f, hf⟩ := List.exists_mem_of_ne_nil _ hne
        exact Or.inr ⟨hb.symm, by rw [hq], f, hf, Or.inr hq⟩

/-- Every index row names a displayed coordinate that was put. -/
theorem index_coordinate {ops : List Put} {r : ObservationCoord}
    (h : r ∈ (Store.replay ops).observationCoords) : ∃ q : Coord, r.coordinate = q.display := by
  induction ops using List.reverseRecOn with
  | nil => simp [Store.replay, Store.empty] at h
  | append_singleton ops op ih =>
    rw [show Store.replay (ops ++ [op]) = (Store.replay ops).put op by
      simp [Store.replay]] at h
    rcases Store.mem_put_index.mp h with h | ⟨_, hq, _⟩
    · exact ih h
    · exact ⟨op.coord, hq⟩

/-! ### The rows -/

theorem lastAnswer_append (ops : List Put) (op : Put) (b : String) (q : Coord) :
    lastAnswer (ops ++ [op]) b q =
      if op.backend = b ∧ op.coord = q then some op.findings else lastAnswer ops b q := by
  unfold lastAnswer
  rw [List.reverse_append, List.reverse_singleton, List.singleton_append, List.find?_cons]
  by_cases h : op.backend = b ∧ op.coord = q
  · rw [if_pos h]
    simp [h.1, h.2]
  · rw [if_neg h]
    have hf : (op.backend == b && op.coord == q) = false := by
      rw [Bool.and_eq_false_iff, beq_eq_false_iff_ne, beq_eq_false_iff_ne]
      tauto
    rw [hf]

/-- **The row of a key is the last answer put under it.** -/
theorem replay_row {ops : List Put} {b : String} {q : Coord} {fs : List Finding} :
    (∃ o ∈ (Store.replay ops).observations, o.backend = b ∧ o.coordinate = q.display ∧
      o.hit = true ∧ o.finding = some fs) ↔ lastAnswer ops b q = some fs ∧ fs ≠ [] := by
  induction ops using List.reverseRecOn with
  | nil => simp [Store.replay, Store.empty, lastAnswer]
  | append_singleton ops op ih =>
    rw [show Store.replay (ops ++ [op]) = (Store.replay ops).put op by
      simp [Store.replay]]
    rw [Store.put_observations, lastAnswer_append]
    simp only [Store.replaceRow, List.mem_append, List.mem_filter, List.mem_singleton]
    by_cases hkey : op.backend = b ∧ op.coord = q
    · obtain ⟨rfl, rfl⟩ := hkey
      rw [if_pos ⟨rfl, rfl⟩]
      constructor
      · rintro ⟨o, ⟨_, hkeep⟩ | rfl, hb, hq, hhit, hf⟩
        · simp [Put.row, hb, hq] at hkeep
        · by_cases hne : op.findings = []
          · simp [Put.row, hne] at hhit
          · have hfs : op.findings = fs := by simpa [Put.row, hne] using hf
            exact ⟨by rw [hfs], hfs ▸ hne⟩
      · rintro ⟨hfs, hne⟩
        have hfs' : op.findings = fs := Option.some.inj hfs
        subst hfs'
        exact ⟨op.row, Or.inr rfl, rfl, rfl, by simp [Put.row, hne], by simp [Put.row, hne]⟩
    · rw [if_neg hkey, ← ih]
      constructor
      · rintro ⟨o, ⟨ho, _⟩ | rfl, hb, hq, hhit, hf⟩
        · exact ⟨o, ho, hb, hq, hhit, hf⟩
        · exact absurd ⟨hb, Coord.display_injective hq⟩ hkey
      · rintro ⟨o, ho, hb, hq, hhit, hf⟩
        refine ⟨o, Or.inl ⟨ho, ?_⟩, hb, hq, hhit, hf⟩
        simp only [Put.row, Bool.not_eq_true', Bool.and_eq_false_iff, beq_eq_false_iff_ne, hb, hq]
        by_cases hb' : b = op.backend
        · right
          intro hd
          exact hkey ⟨hb'.symm, (Coord.display_injective hd).symm⟩
        · exact Or.inl hb'

/-! ### What a lookup returns -/

/-- **A lookup returns the rows the index points at.** -/
theorem mem_findingsFor {ops : List Put} {c : Coord} {f : Finding} :
    f ∈ (Store.replay ops).findingsFor c ↔
      ∃ b q fs, lastAnswer ops b q = some fs ∧ f ∈ fs ∧ (EverStated ops b q c ∨ q = c) := by
  simp only [Store.findingsFor, Store.answersFor, List.mem_flatten, List.mem_dedup,
    List.mem_flatMap, List.mem_filter, List.mem_filterMap, Bool.and_eq_true, beq_iff_eq,
    decide_eq_true_eq]
  constructor
  · rintro ⟨fs, ⟨⟨c', b, qs⟩, ⟨hoc, rfl⟩, o, ⟨ho, ⟨hb, hq⟩, hhit⟩, hfs⟩, hf⟩
    obtain ⟨q, hqd⟩ := index_coordinate hoc
    simp only at hqd
    subst hqd
    obtain ⟨hlast, _⟩ := replay_row.mp ⟨o, ho, hb, hq, hhit, hfs⟩
    rcases replay_index.mp hoc with h | ⟨rfl, _⟩
    · exact ⟨b, q, fs, hlast, hf, Or.inl h⟩
    · exact ⟨b, _, fs, hlast, hf, Or.inr rfl⟩
  · rintro ⟨b, q, fs, hlast, hf, hidx⟩
    have hne : fs ≠ [] := List.ne_nil_of_mem hf
    obtain ⟨o, ho, hb, hq, hhit, hfs⟩ := replay_row.mpr ⟨hlast, hne⟩
    have hput : ∃ op ∈ ops, op.backend = b ∧ op.coord = q ∧ op.findings ≠ [] := by
      unfold lastAnswer at hlast
      obtain ⟨op, hfind, rfl⟩ := Option.map_eq_some_iff.mp hlast
      have hmem := List.mem_of_find?_eq_some hfind
      have hkey := List.find?_some hfind
      simp only [Bool.and_eq_true, beq_iff_eq] at hkey
      exact ⟨op, List.mem_reverse.mp hmem, hkey.1, hkey.2, hne⟩
    have hoc : (⟨c, b, q.display⟩ : ObservationCoord) ∈ (Store.replay ops).observationCoords := by
      rcases hidx with h | rfl
      · exact replay_index.mpr (Or.inl h)
      · exact replay_index.mpr (Or.inr ⟨rfl, hput⟩)
    exact ⟨fs, ⟨_, ⟨hoc, rfl⟩, o, ⟨ho, ⟨hb, hq⟩, hhit⟩, hfs⟩, hf⟩

/-! ### Co-observation -/

/-- A finding co-observes `c`: it states `c`, or a source returned it for the query `c` in the row
now stored. -/
def CoObserves (ops : List Put) (c : Coord) (f : Finding) : Prop :=
  f.States c ∨ ∃ b fs, lastAnswer ops b c = some fs ∧ f ∈ fs

/-- The stored answers that the index lists under `c` hold nothing but co-observers of `c`. -/
def KeepsTo (ops : List Put) (c : Coord) : Prop :=
  ∀ b q fs, q ≠ c → EverStated ops b q c → lastAnswer ops b q = some fs →
    ∀ f ∈ fs, CoObserves ops c f

theorem coobserved_iff (ops : List Put) (c : Coord) :
    (∀ f ∈ (Store.replay ops).findingsFor c, CoObserves ops c f) ↔ KeepsTo ops c := by
  constructor
  · intro h b q fs _ hever hlast f hf
    exact h f (mem_findingsFor.mpr ⟨b, q, fs, hlast, hf, Or.inl hever⟩)
  · intro h f hf
    obtain ⟨b, q, fs, hlast, hmem, hidx⟩ := mem_findingsFor.mp hf
    by_cases hqc : q = c
    · subst hqc
      exact Or.inr ⟨b, fs, hlast, hmem⟩
    · exact h b q fs hqc (hidx.resolve_right hqc) hlast f hmem

/-- A coordinate that evidence effectively carries was associated with it by a source. -/
def Associated (ops : List Put) (localSources : Coord → List Finding) (e : Evidence) (c : Coord) :
    Prop :=
  CoObserves ops c e.finding ∨ e.finding ∈ localSources c

/-- **When the store welds nothing unwitnessed.**  Lookups return only co-observers, and no walk over
the store carries an unwitnessed effective coordinate, exactly when every stored answer holds
nothing but co-observers of the coordinates the index lists it under. -/
theorem store_never_welds_iff (ops : List Put) :
    ((∀ c, ∀ f ∈ (Store.replay ops).findingsFor c, CoObserves ops c f) ∧
      (∀ seeds localSources,
        ∀ e ∈ walk seeds localSources (some (Store.replay ops).findingsFor),
          ∀ c, Effective e c → Associated ops localSources e c)) ↔
      ∀ c, KeepsTo ops c := by
  constructor
  · intro h c
    exact (coobserved_iff ops c).mp (h.1 c)
  · intro h
    have hco := fun c => (coobserved_iff ops c).mpr (h c)
    refine ⟨hco, fun seeds localSources e he c hc => ?_⟩
    rcases hc with hs | ⟨rfl, _⟩
    · exact Or.inl (Or.inl hs)
    · rcases walk_answered he with hloc | ⟨g, hg, hmem⟩
      · exact Or.inr hloc
      · cases hg
        exact Or.inl (hco _ _ hmem)

/-! ### A welded pair -/

theorem sampleSha1_length : (List.replicate 20 (0x33 : UInt8)).length = Scheme.sha1.digestLen := rfl

def sampleSha1 : Coord := ⟨.sha1, List.replicate 20 0x33, sampleSha1_length⟩

theorem sampleSha256_length : (List.replicate 32 (0x11 : UInt8)).length = Scheme.sha256.digestLen := rfl

def sampleSha256 : Coord := ⟨.sha256, List.replicate 32 0x11, sampleSha256_length⟩

/-- One source's answer to a sha1 query: two rows, and only the first states a sha256. -/
def sampleAnswer : Put :=
  { backend := "fatcat"
    coord := sampleSha1
    findings := [⟨"fatcat", [], [sampleSha1.display, sampleSha256.display], none⟩,
      ⟨"fatcat", [], [sampleSha1.display], none⟩]
    now := 0 }

/-- The second row comes back for the first row's sha256, and a walk from that sha256 gives it the
digest as an effective coordinate. -/
theorem store_welds_sibling_rows :
    ∃ ops c f, f ∈ (Store.replay ops).findingsFor c ∧ ¬ CoObserves ops c f ∧
      (⟨c, f⟩ : Evidence) ∈ walk [c] (fun _ => []) (some (Store.replay ops).findingsFor) ∧
      Effective ⟨c, f⟩ c := by
  have hstated : (⟨"fatcat", [], [sampleSha1.display], none⟩ : Finding).stated = [sampleSha1] := by
    simp [Finding.stated, Coord.parse_display]
  have hno : ¬ (⟨"fatcat", [], [sampleSha1.display], none⟩ : Finding).States sampleSha256 := by
    rw [Finding.States, hstated]
    decide
  refine ⟨[sampleAnswer], sampleSha256, ⟨"fatcat", [], [sampleSha1.display], none⟩, ?_, ?_, ?_, ?_⟩
  · refine mem_findingsFor.mpr ⟨"fatcat", sampleSha1, sampleAnswer.findings, by decide +kernel,
      by simp [sampleAnswer], Or.inl ⟨sampleAnswer, List.mem_singleton_self _, rfl, rfl, _,
        List.mem_cons_self, Finding.states_of_display (by simp)⟩⟩
  · rintro (h | ⟨b, fs, hlast, hf⟩)
    · exact hno h
    · rw [show [sampleAnswer] = ([] ++ [sampleAnswer]) from rfl, lastAnswer_append,
        if_neg (fun h => by exact absurd h.2 (by decide))] at hlast
      cases hlast
  · decide +kernel
  · refine Or.inr ⟨rfl, ?_⟩
    rintro ⟨d, hd, hs, _⟩
    rw [Finding.States, hstated, List.mem_singleton] at hd
    subst hd
    exact absurd hs (by decide)

end Hashdex
