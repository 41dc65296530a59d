import Hashdex.Walk

/-!
# When the walk is complete

`truncated` tells of the evidence cap only.  The walk ends after five hops as well, and then what the
last hop discovered is not looked up.

* `WithinHops`: what can be reached from the seeds by so many links
* `walkLoop_reached`: what has been looked up when the loop ends
* `walk_complete_iff`: when evidence that is not reported as truncated is closed
-/

namespace Hashdex

/-- What `walk` asks: the local sources, then the observation store when there is one. -/
def lookupOf (localSources : Coord → List Finding) (findingsFor : Option (Coord → List Finding))
    (c : Coord) : List Finding :=
  localSources c ++ (findingsFor.map (fun g => g c)).getD []

/-- The state that `walk` ends in. -/
def walkState (seeds : List Coord) (localSources : Coord → List Finding)
    (findingsFor : Option (Coord → List Finding)) : WalkState :=
  walkLoop (lookupOf localSources findingsFor) maxHops seeds ⟨[], [], [], []⟩

theorem walk_eq (seeds : List Coord) (localSources : Coord → List Finding)
    (findingsFor : Option (Coord → List Finding)) :
    walk seeds localSources findingsFor = (walkState seeds localSources findingsFor).evidence := rfl

/-- Each seed, and each coordinate that a finding of the evidence states, has been looked up. -/
structure Closed (seeds : List Coord) (st : WalkState) : Prop where
  seeds : ∀ c ∈ seeds, c ∈ st.visited
  stated : ∀ e ∈ st.evidence, ∀ c ∈ e.finding.stated, c ∈ st.visited

section

variable (lookup : Coord → List Finding) (seeds : List Coord)

/-- Reached from the seeds by that many links at most; a link leads from a coordinate to those stated by
the findings it is answered with. -/
def WithinHops : ℕ → Coord → Prop
  | 0, c => c ∈ seeds
  | k + 1, c => WithinHops k c ∨ ∃ d, WithinHops k d ∧ ∃ f ∈ lookup d, c ∈ f.stated

/-- A finding that answers something within that many links. -/
def FoundWithin (k : ℕ) (f : Finding) : Prop := ∃ c, WithinHops lookup seeds k c ∧ f ∈ lookup c

variable {lookup seeds}

theorem WithinHops.mono {k n : ℕ} {c : Coord} (h : WithinHops lookup seeds k c) (hle : k ≤ n) :
    WithinHops lookup seeds n c := by
  induction n with
  | zero =>
    rw [Nat.le_zero.mp hle] at h
    exact h
  | succ n ih =>
    by_cases heq : k = n + 1
    · rwa [heq] at h
    · exact .inl (ih (by omega))

end

/-! ### One lookup -/

/-- What one lookup adds. -/
structure Taken (coord : Coord) (fs : List Finding) (st st' : WalkState) : Prop where
  visited : st'.visited = st.visited
  longer : st.evidence.length ≤ st'.evidence.length
  seen : ∀ f ∈ st.seen, f ∈ st'.seen
  new : ∀ f ∈ st'.seen, f ∈ st.seen ∨ f ∈ fs
  all : st'.evidence.length < maxEvidence → ∀ f ∈ fs, f ∈ st'.seen
  kept : ∀ c ∈ st.next, c ∈ st'.next
  leads : ∀ f ∈ st'.seen, f ∉ st.seen → ∀ c ∈ f.stated, c ∈ st.visited ∨ c ∈ st'.next
  next : ∀ c ∈ st'.next, c ∈ st.next ∨ ∃ f ∈ fs, c ∈ f.stated
  found : st.seen.Perm (st.evidence.map fun e => e.finding) →
    st'.seen.Perm (st'.evidence.map fun e => e.finding)
  nodup : st.seen.Nodup → st'.seen.Nodup

theorem Taken.refl (coord : Coord) (st : WalkState) : Taken coord [] st st where
  visited := rfl
  longer := le_rfl
  seen _ h := h
  new _ h := .inl h
  all _ _ h := absurd h List.not_mem_nil
  kept _ h := h
  leads _ h hnew := absurd h hnew
  next _ h := .inl h
  found h := h
  nodup h := h

/-- The finding is taken. -/
def pushFinding (coord : Coord) (f : Finding) (st : WalkState) : WalkState :=
  { st with
    seen := f :: st.seen
    next := st.next ++ f.stated.filter (fun c => c ∉ st.visited)
    evidence := st.evidence ++ [⟨coord, f⟩] }

theorem pushFinding_taken {coord : Coord} {f : Finding} {st : WalkState} (hf : f ∉ st.seen) :
    Taken coord [f] st (pushFinding coord f st) where
  visited := rfl
  longer := by simp [pushFinding]
  seen _ h := List.mem_cons_of_mem _ h
  new g h := by
    cases List.mem_cons.mp h with
    | inl h => exact .inr (by rw [h]; exact List.mem_singleton.mpr rfl)
    | inr h => exact .inl h
  all _ g h := by
    rw [List.mem_singleton.mp h]
    exact List.mem_cons_self
  kept _ h := List.mem_append_left _ h
  leads g h hnew c hc := by
    have hg : g = f := (List.mem_cons.mp h).resolve_right hnew
    by_cases hv : c ∈ st.visited
    · exact .inl hv
    · right
      apply List.mem_append_right
      rw [hg] at hc
      simp [hc, hv]
  next c h := by
    cases List.mem_append.mp h with
    | inl h => exact .inl h
    | inr h => exact .inr ⟨f, List.mem_singleton.mpr rfl, (List.mem_filter.mp h).1⟩
  found h := by
    have hpush : (pushFinding coord f st).evidence.map (fun e => e.finding)
        = st.evidence.map (fun e => e.finding) ++ [f] := by
      simp [pushFinding]
    rw [hpush]
    exact (h.cons f).trans (List.perm_append_singleton _ _).symm
  nodup h := List.nodup_cons.mpr ⟨hf, h⟩

theorem Taken.trans {coord : Coord} {fs gs : List Finding} {st st' st'' : WalkState}
    (h : Taken coord fs st st') (h' : Taken coord gs st' st'') : Taken coord (fs ++ gs) st st'' where
  visited := h'.visited.trans h.visited
  longer := h.longer.trans h'.longer
  seen f hf := h'.seen f (h.seen f hf)
  new f hf := by
    cases h'.new f hf with
    | inl hf => exact (h.new f hf).imp id fun hf => List.mem_append_left gs hf
    | inr hf => exact .inr (List.mem_append_right fs hf)
  all hroom f hf := by
    cases List.mem_append.mp hf with
    | inl hf => exact h'.seen f (h.all (lt_of_le_of_lt h'.longer hroom) f hf)
    | inr hf => exact h'.all hroom f hf
  kept c hc := h'.kept c (h.kept c hc)
  leads f hf hnew c hc := by
    by_cases hmid : f ∈ st'.seen
    · exact (h.leads f hmid hnew c hc).imp id (h'.kept c)
    · have hlead := h'.leads f hf hmid c hc
      rwa [h.visited] at hlead
  next c hc := by
    cases h'.next c hc with
    | inl hc =>
      exact (h.next c hc).imp id fun ⟨f, hf, hcf⟩ => ⟨f, List.mem_append_left gs hf, hcf⟩
    | inr hc =>
      obtain ⟨f, hf, hcf⟩ := hc
      exact .inr ⟨f, List.mem_append_right fs hf, hcf⟩
  found hst := h'.found (h.found hst)
  nodup hst := h'.nodup (h.nodup hst)

/-- A finding that was there before adds nothing. -/
theorem Taken.skip {coord : Coord} {f : Finding} {fs : List Finding} {st st' : WalkState}
    (hf : f ∈ st.seen) (h : Taken coord fs st st') : Taken coord (f :: fs) st st' where
  visited := h.visited
  longer := h.longer
  seen := h.seen
  new g hg := (h.new g hg).imp id fun hg => List.mem_cons_of_mem f hg
  all hroom g hg := by
    cases List.mem_cons.mp hg with
    | inl hg => exact h.seen g (by rwa [hg])
    | inr hg => exact h.all hroom g hg
  kept := h.kept
  leads := h.leads
  next c hc := (h.next c hc).imp id fun ⟨g, hg, hcg⟩ => ⟨g, List.mem_cons_of_mem f hg, hcg⟩
  found := h.found
  nodup := h.nodup

theorem takeFindings_taken (coord : Coord) (fs : List Finding) (st : WalkState) :
    Taken coord fs st (takeFindings coord fs st) := by
  induction fs generalizing st with
  | nil => exact .refl coord st
  | cons f rest ih =>
    rw [takeFindings]
    split_ifs with hseen
    · exact .skip hseen (ih st)
    · show Taken coord (f :: rest) st (if maxEvidence ≤ (pushFinding coord f st).evidence.length
        then pushFinding coord f st else takeFindings coord rest (pushFinding coord f st))
      have hpush : Taken coord [f] st (pushFinding coord f st) := pushFinding_taken hseen
      split_ifs with hcap
      · -- the cap: the rest of the answer is not taken
        exact ⟨hpush.visited, hpush.longer, hpush.seen,
          fun g hg => (hpush.new g hg).imp id fun hg => by
            rw [List.mem_singleton.mp hg]
            exact List.mem_cons_self,
          fun hroom => absurd hcap (by omega), hpush.kept, hpush.leads,
          fun c hc => (hpush.next c hc).imp id fun hlead => hlead.imp fun g hlead => ⟨by
            rw [List.mem_singleton.mp hlead.1]
            exact List.mem_cons_self, hlead.2⟩,
          hpush.found, hpush.nodup⟩
      · exact hpush.trans (ih _)

/-! ### One hop -/

section

variable (lookup : Coord → List Finding) (seeds : List Coord)

/-- What has been looked up is within so many links, and unless the evidence is full all of that has
been looked up but for the rest of the frontier. -/
structure Reached (k : ℕ) (rest : List Coord) (st : WalkState) : Prop where
  visited : ∀ c ∈ st.visited, WithinHops lookup seeds k c
  waits : ∀ c ∈ rest, WithinHops lookup seeds k c
  found : ∀ f ∈ st.seen, FoundWithin lookup seeds k f
  counted : st.seen.Perm (st.evidence.map fun e => e.finding)
  nodup : st.seen.Nodup
  reach : st.evidence.length < maxEvidence →
    ∀ c, WithinHops lookup seeds k c → c ∈ st.visited ∨ c ∈ rest
  answered : st.evidence.length < maxEvidence → ∀ c ∈ st.visited, ∀ f ∈ lookup c, f ∈ st.seen

/-- During a hop: what the findings state has been looked up, waits, or is for the next hop. -/
structure Hop (k : ℕ) (rest : List Coord) (st : WalkState) : Prop
    extends Reached lookup seeds k rest st where
  next : ∀ c ∈ st.next, WithinHops lookup seeds (k + 1) c
  leads : ∀ f ∈ st.seen, ∀ c ∈ f.stated, c ∈ st.visited ∨ c ∈ rest ∨ c ∈ st.next

variable {lookup seeds}

theorem Hop.visit {k : ℕ} {coord : Coord} {rest : List Coord} {st : WalkState}
    (h : Hop lookup seeds k (coord :: rest) st) :
    Hop lookup seeds k rest (visitCoord lookup st coord) := by
  rw [visitCoord]
  split_ifs with hv
  · have hdrop : ∀ c, c ∈ coord :: rest → c ∈ st.visited ∨ c ∈ rest := by
      intro c hc
      cases List.mem_cons.mp hc with
      | inl hc => exact .inl (by rwa [hc])
      | inr hc => exact .inr hc
    exact
      { visited := h.visited
        waits := fun c hc => h.waits c (List.mem_cons_of_mem _ hc)
        found := h.found
        counted := h.counted
        nodup := h.nodup
        reach := fun hroom c hc => (h.reach hroom c hc).elim .inl (hdrop c)
        answered := h.answered
        next := h.next
        leads := fun f hf c hc => by
          have := h.leads f hf c hc
          have := hdrop c
          tauto }
  · have hcoord : WithinHops lookup seeds k coord := h.waits coord List.mem_cons_self
    have htake := takeFindings_taken coord (lookup coord)
      { st with visited := coord :: st.visited }
    have hroom : (takeFindings coord (lookup coord)
        { st with visited := coord :: st.visited }).evidence.length < maxEvidence →
        st.evidence.length < maxEvidence := lt_of_le_of_lt htake.longer
    generalize takeFindings coord (lookup coord) { st with visited := coord :: st.visited } = st'
      at htake hroom
    have hvis : st'.visited = coord :: st.visited := htake.visited
    exact
      { visited := fun c hc => by
          rw [hvis] at hc
          cases List.mem_cons.mp hc with
          | inl hc => rwa [hc]
          | inr hc => exact h.visited c hc
        waits := fun c hc => h.waits c (List.mem_cons_of_mem _ hc)
        found := fun f hf => (htake.new f hf).elim (h.found f) fun hf => ⟨coord, hcoord, hf⟩
        counted := htake.found h.counted
        nodup := htake.nodup h.nodup
        reach := fun hlt c hc => by
          rw [hvis, List.mem_cons]
          have := h.reach (hroom hlt) c hc
          rw [List.mem_cons] at this
          tauto
        answered := fun hlt c hc f hf => by
          rw [hvis] at hc
          cases List.mem_cons.mp hc with
          | inl hc => exact htake.all hlt f (by rwa [← hc])
          | inr hc => exact htake.seen f (h.answered (hroom hlt) c hc f hf)
        next := fun c hc => by
          cases htake.next c hc with
          | inl hc => exact h.next c hc
          | inr hc =>
            obtain ⟨f, hf, hcf⟩ := hc
            exact .inr ⟨coord, hcoord, f, hf, hcf⟩
        leads := fun f hf c hc => by
          by_cases hold : f ∈ st.seen
          · have := h.leads f hold c hc
            have := htake.kept c
            rw [hvis, List.mem_cons]
            rw [List.mem_cons] at *
            tauto
          · have : c ∈ coord :: st.visited ∨ c ∈ st'.next := htake.leads f hf hold c hc
            rw [hvis]
            tauto }

theorem Hop.visitAll {k : ℕ} {rest : List Coord} {st : WalkState}
    (h : Hop lookup seeds k rest st) :
    Hop lookup seeds k [] (rest.foldl (visitCoord lookup) st) := by
  induction rest generalizing st with
  | nil => exact h
  | cons coord rest ih => exact ih h.visit

/-- The next hop: what the last one discovered is the frontier. -/
theorem Hop.succ {k : ℕ} {st : WalkState} (h : Hop lookup seeds k [] st) :
    Hop lookup seeds (k + 1) st.next { st with next := [] } where
  visited c hc := .inl (h.visited c hc)
  waits := h.next
  found f hf := by
    obtain ⟨c, hc, hfc⟩ := h.found f hf
    exact ⟨c, .inl hc, hfc⟩
  counted := h.counted
  nodup := h.nodup
  reach hroom c hc := by
    have hall : ∀ d, WithinHops lookup seeds k d → d ∈ st.visited := fun d hd =>
      (h.reach hroom d hd).resolve_right List.not_mem_nil
    cases hc with
    | inl hc => exact .inl (hall c hc)
    | inr hc =>
      obtain ⟨d, hd, f, hf, hcf⟩ := hc
      have := h.leads f (h.answered hroom d (hall d hd) f hf) c hcf
      simpa using this
  answered := h.answered
  next c hc := absurd hc List.not_mem_nil
  leads f hf c hc := by
    have := h.leads f hf c hc
    simpa using this

/-- A hop that discovers nothing is the last: there is nothing further off. -/
theorem Hop.settled {k : ℕ} {st : WalkState}
    (h : Hop lookup seeds k [] { st with next := [] }) (n : ℕ) :
    Hop lookup seeds (k + n) [] { st with next := [] } := by
  induction n with
  | zero => exact h
  | succ n ih => exact ih.succ

/-- The state's own frontier does not matter here. -/
theorem Reached.keep {k : ℕ} {rest next : List Coord} {st : WalkState}
    (h : Reached lookup seeds k rest { st with next := next }) : Reached lookup seeds k rest st :=
  ⟨h.visited, h.waits, h.found, h.counted, h.nodup, h.reach, h.answered⟩

/-- Full evidence stays what it was. -/
theorem Reached.full {k n : ℕ} {st : WalkState} {rest : List Coord}
    (h : Reached lookup seeds k rest st) (hfull : maxEvidence ≤ st.evidence.length) (hle : k ≤ n) :
    Reached lookup seeds n [] st where
  visited c hc := (h.visited c hc).mono hle
  waits c hc := absurd hc List.not_mem_nil
  found f hf := by
    obtain ⟨c, hc, hfc⟩ := h.found f hf
    exact ⟨c, hc.mono hle, hfc⟩
  counted := h.counted
  nodup := h.nodup
  reach hroom := absurd hfull (by omega)
  answered hroom := absurd hfull (by omega)

theorem walkLoop_reached {hops k : ℕ} {rest : List Coord} {st : WalkState}
    (h : Hop lookup seeds k rest { st with next := [] }) :
    Reached lookup seeds (k + hops) [] (walkLoop lookup (hops + 1) rest st) := by
  induction hops generalizing k rest st with
  | zero =>
    rw [walkLoop]
    split_ifs with hstop
    · cases hstop with
      | inl hnil =>
        rw [hnil] at h
        exact h.toReached.keep
      | inr hfull => exact h.toReached.keep.full hfull le_rfl
    · exact h.visitAll.toReached
  | succ hops ih =>
    rw [walkLoop]
    split_ifs with hstop
    · cases hstop with
      | inl hnil =>
        rw [hnil] at h
        exact (h.settled (hops + 1)).toReached.keep
      | inr hfull => exact h.toReached.keep.full hfull (by omega)
    · have hnext := ih h.visitAll.succ
      rwa [Nat.add_right_comm, Nat.add_assoc] at hnext

end

/-! ### The whole walk -/

theorem walkState_reached (seeds : List Coord) (localSources : Coord → List Finding)
    (findingsFor : Option (Coord → List Finding)) :
    Reached (lookupOf localSources findingsFor) seeds (maxHops - 1) []
      (walkState seeds localSources findingsFor) := by
  have hstart : Hop (lookupOf localSources findingsFor) seeds 0 seeds ⟨[], [], [], []⟩ :=
    { visited := by simp
      waits := fun c hc => hc
      found := by simp
      counted := by simp
      nodup := by simp
      reach := fun _ c hc => .inr hc
      answered := by simp
      next := by simp
      leads := by simp }
  have hend : Reached (lookupOf localSources findingsFor) seeds (0 + 4) []
      (walkState seeds localSources findingsFor) := walkLoop_reached hstart
  exact hend

section

variable {lookup : Coord → List Finding} {seeds : List Coord} {k : ℕ} {st : WalkState}

theorem Reached.visited_iff (h : Reached lookup seeds k [] st)
    (hroom : st.evidence.length < maxEvidence) (c : Coord) :
    c ∈ st.visited ↔ WithinHops lookup seeds k c :=
  ⟨h.visited c, fun hc => (h.reach hroom c hc).resolve_right List.not_mem_nil⟩

theorem Reached.seen_iff (h : Reached lookup seeds k [] st)
    (hroom : st.evidence.length < maxEvidence) (f : Finding) :
    f ∈ st.seen ↔ FoundWithin lookup seeds k f := by
  constructor
  · exact h.found f
  · rintro ⟨c, hc, hf⟩
    exact h.answered hroom c ((h.visited_iff hroom c).mpr hc) f hf

/-- The evidence fills up exactly when there are so many findings to find. -/
theorem Reached.full_iff (h : Reached lookup seeds k [] st) :
    maxEvidence ≤ st.evidence.length ↔
      ∃ fs : List Finding, fs.Nodup ∧ fs.length = maxEvidence ∧
        ∀ f ∈ fs, FoundWithin lookup seeds k f := by
  have hlen : st.seen.length = st.evidence.length := by
    rw [h.counted.length_eq, List.length_map]
  constructor
  · intro hfull
    have htake : (st.seen.take maxEvidence).Sublist st.seen := List.take_sublist _ _
    have hmem : ∀ f ∈ st.seen.take maxEvidence, FoundWithin lookup seeds k f :=
      fun f hf => h.found f (htake.subset hf)
    exact ⟨st.seen.take maxEvidence, h.nodup.sublist htake,
      by rw [List.length_take, hlen]; omega, hmem⟩
  · rintro ⟨fs, hnodup, hfs, hfound⟩
    by_contra hroom
    have hsub : fs ⊆ st.seen := fun f hf => (h.seen_iff (by omega) f).mpr (hfound f hf)
    have := (hnodup.subperm hsub).length_le
    omega

/-- Evidence that did not fill up is closed exactly when one more link reaches nothing new. -/
theorem Reached.closed_iff (h : Reached lookup seeds k [] st)
    (hroom : st.evidence.length < maxEvidence) :
    Closed seeds st ↔ ∀ c, WithinHops lookup seeds (k + 1) c → WithinHops lookup seeds k c := by
  have hevidence : ∀ f : Finding, f ∈ st.seen ↔ ∃ e ∈ st.evidence, e.finding = f := by
    intro f
    rw [h.counted.mem_iff, List.mem_map]
  constructor
  · intro hclosed c hc
    cases hc with
    | inl hc => exact hc
    | inr hc =>
      obtain ⟨d, hd, f, hf, hcf⟩ := hc
      obtain ⟨e, he, rfl⟩ := (hevidence f).mp ((h.seen_iff hroom f).mpr ⟨d, hd, hf⟩)
      exact h.visited c (hclosed.stated e he c hcf)
  · intro hnone
    constructor
    · intro c hc
      exact (h.visited_iff hroom c).mpr (WithinHops.mono (k := 0) hc (Nat.zero_le k))
    · intro e he c hc
      obtain ⟨d, hd, hf⟩ := (h.seen_iff hroom e.finding).mp ((hevidence _).mpr ⟨e, he, rfl⟩)
      exact (h.visited_iff hroom c).mpr (hnone c (.inr ⟨d, hd, e.finding, hf, hc⟩))

end

/-- Evidence that is not reported as truncated is closed exactly when there is too much to gather in
five rounds of lookups, which is reported, or the fifth discovers nothing new. -/
theorem walk_complete_iff (seeds : List Coord) (localSources : Coord → List Finding)
    (findingsFor : Option (Coord → List Finding)) (order : IterOrder) (queried : Coord) :
    ((cluster order (walk seeds localSources findingsFor) queried).truncated = false →
        Closed seeds (walkState seeds localSources findingsFor)) ↔
      (∃ fs : List Finding, fs.Nodup ∧ fs.length = maxEvidence ∧
        ∀ f ∈ fs, FoundWithin (lookupOf localSources findingsFor) seeds (maxHops - 1) f) ∨
      ∀ c, WithinHops (lookupOf localSources findingsFor) seeds maxHops c →
        WithinHops (lookupOf localSources findingsFor) seeds (maxHops - 1) c := by
  have hend := walkState_reached seeds localSources findingsFor
  have htruncated : (cluster order (walk seeds localSources findingsFor) queried).truncated = false ↔
      (walkState seeds localSources findingsFor).evidence.length < maxEvidence := by
    show decide (maxEvidence ≤ (walk seeds localSources findingsFor).length) = false ↔ _
    rw [walk_eq, decide_eq_false_iff_not, not_le]
  rw [htruncated, ← hend.full_iff]
  constructor
  · intro h
    by_cases hroom : (walkState seeds localSources findingsFor).evidence.length < maxEvidence
    · exact .inr ((hend.closed_iff hroom).mp (h hroom))
    · exact .inl (by omega)
  · intro h hroom
    exact (hend.closed_iff hroom).mpr (h.resolve_left (by omega))

/-! ### A chain of mirrors -/

/-- The coordinate of the `n`th file. -/
def chainCoord (n : UInt8) : Coord := ⟨.sha256, List.replicate 32 n, by simp [Scheme.digestLen]⟩

/-- Each file's finding states the next one. -/
def chainLocal (c : Coord) : List Finding :=
  match c.digest with
  | n :: _ => [⟨"mirror", [], [(chainCoord (n + 1)).display], none⟩]
  | [] => []

/-- The fifth lookup discovers a sixth coordinate; no limit is reported, and it was not looked up. -/
theorem chain_not_closed :
    ¬ ∀ (seeds : List Coord) (localSources : Coord → List Finding)
        (findingsFor : Option (Coord → List Finding)) (order : IterOrder) (queried : Coord),
      (cluster order (walk seeds localSources findingsFor) queried).truncated = false →
        Closed seeds (walkState seeds localSources findingsFor) := by
  intro h
  have hseen := h [chainCoord 0] chainLocal none ⟨id, fun l => .refl l⟩ (chainCoord 0)
    (by decide +kernel)
  have hnot : ¬ ∀ e ∈ (walkState [chainCoord 0] chainLocal none).evidence,
      ∀ c ∈ e.finding.stated, c ∈ (walkState [chainCoord 0] chainLocal none).visited := by
    decide +kernel
  exact hnot hseen.stated

end Hashdex
