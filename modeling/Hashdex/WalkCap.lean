import Mathlib
import Hashdex.WalkClosure
import Hashdex.Lib.Firsts

/-!
# What the evidence cap stops

At the cap `walk` leaves the findings of one lookup and, later, the hops; the frontier of the hop it is
in goes on being looked up, and each lookup takes one more finding.

* `walkLookups`: the lookups of a walk, each with the evidence there was
* `known`: the coordinates in the order in which they become known, with no cap
* `walk_capped_iff`: when no lookup is made at the cap, and the evidence stays within it
-/

namespace Hashdex

/-! ### The lookups of a walk -/

/-- The lookups made for a frontier: the coordinate, and the evidence so far. -/
def hopLookups (lookup : Coord → List Finding) : List Coord → WalkState →
    List (Coord × List Evidence)
  | [], _ => []
  | coord :: rest, st =>
    (if coord ∈ st.visited then [] else [(coord, st.evidence)]) ++
      hopLookups lookup rest (visitCoord lookup st coord)

/-- Those of `walkLoop`. -/
def loopLookups (lookup : Coord → List Finding) : ℕ → List Coord → WalkState →
    List (Coord × List Evidence)
  | 0, _, _ => []
  | hops + 1, frontier, st =>
    if frontier = [] ∨ maxEvidence ≤ st.evidence.length then []
    else
      let st' := frontier.foldl (visitCoord lookup) { st with next := [] }
      hopLookups lookup frontier { st with next := [] } ++ loopLookups lookup hops st'.next st'

/-- Those of `walk`. -/
def walkLookups (seeds : List Coord) (localSources : Coord → List Finding)
    (findingsFor : Option (Coord → List Finding)) : List (Coord × List Evidence) :=
  loopLookups (lookupOf localSources findingsFor) maxHops seeds ⟨[], [], [], []⟩

/-- The evidence stays within the cap, and at the cap nothing more is looked up. -/
structure Capped (seeds : List Coord) (localSources : Coord → List Finding)
    (findingsFor : Option (Coord → List Finding)) : Prop where
  evidence : (walk seeds localSources findingsFor).length ≤ maxEvidence
  lookups : ∀ l ∈ walkLookups seeds localSources findingsFor, l.2.length < maxEvidence

section

variable {lookup : Coord → List Finding}

theorem visitCoord_visited (st : WalkState) (coord : Coord) :
    (visitCoord lookup st coord).visited =
      if coord ∈ st.visited then st.visited else coord :: st.visited := by
  rw [visitCoord]
  split_ifs
  · rfl
  · exact (takeFindings_taken coord (lookup coord) _).visited

theorem hopLookups_visited (frontier : List Coord) (st : WalkState) :
    (frontier.foldl (visitCoord lookup) st).visited =
      ((hopLookups lookup frontier st).map Prod.fst).reverse ++ st.visited := by
  induction frontier generalizing st with
  | nil => rfl
  | cons coord rest ih =>
    rw [List.foldl_cons, ih, visitCoord_visited, hopLookups]
    split_ifs <;> simp

/-- What has been visited in the end is what was looked up. -/
theorem loopLookups_visited (hops : ℕ) (frontier : List Coord) (st : WalkState) :
    (walkLoop lookup hops frontier st).visited =
      ((loopLookups lookup hops frontier st).map Prod.fst).reverse ++ st.visited := by
  induction hops generalizing frontier st with
  | zero => rfl
  | succ hops ih =>
    rw [walkLoop, loopLookups]
    split_ifs
    · rfl
    · show (walkLoop lookup hops _ _).visited = _
      rw [ih, hopLookups_visited]
      simp

/-! ### One lookup -/

theorem visitCoord_longer (st : WalkState) (coord : Coord) :
    st.evidence.length ≤ (visitCoord lookup st coord).evidence.length := by
  rw [visitCoord]
  split_ifs
  · exact le_rfl
  · exact (takeFindings_taken coord (lookup coord)
      { st with visited := coord :: st.visited }).longer

theorem takeFindings_le (coord : Coord) (fs : List Finding) (st : WalkState)
    (hroom : st.evidence.length < maxEvidence) :
    (takeFindings coord fs st).evidence.length ≤ maxEvidence := by
  induction fs generalizing st with
  | nil => exact hroom.le
  | cons f rest ih =>
    rw [takeFindings]
    split_ifs with hseen
    · exact ih st hroom
    · have hpush : (pushFinding coord f st).evidence.length = st.evidence.length + 1 := by
        simp [pushFinding]
      show (if maxEvidence ≤ (pushFinding coord f st).evidence.length
        then pushFinding coord f st
        else takeFindings coord rest (pushFinding coord f st)).evidence.length ≤ maxEvidence
      split_ifs with hcap
      · omega
      · exact ih _ (by omega)

/-- Lookups below the cap do not leave it behind. -/
theorem foldl_visit_le (frontier : List Coord) (st : WalkState)
    (hle : st.evidence.length ≤ maxEvidence)
    (hroom : ∀ l ∈ hopLookups lookup frontier st, l.2.length < maxEvidence) :
    (frontier.foldl (visitCoord lookup) st).evidence.length ≤ maxEvidence := by
  induction frontier generalizing st with
  | nil => exact hle
  | cons coord rest ih =>
    rw [hopLookups] at hroom
    have hone : (visitCoord lookup st coord).evidence.length ≤ maxEvidence := by
      rw [visitCoord]
      split_ifs with hv
      · exact hle
      · have hlookup := hroom (coord, st.evidence) (by simp [hv])
        exact takeFindings_le coord (lookup coord) _ hlookup
    exact ih _ hone fun l hl => hroom l (List.mem_append_right _ hl)

theorem walkLoop_le (hops : ℕ) (frontier : List Coord) (st : WalkState)
    (hle : st.evidence.length ≤ maxEvidence)
    (hroom : ∀ l ∈ loopLookups lookup hops frontier st, l.2.length < maxEvidence) :
    (walkLoop lookup hops frontier st).evidence.length ≤ maxEvidence := by
  induction hops generalizing frontier st with
  | zero => exact hle
  | succ hops ih =>
    rw [walkLoop]
    rw [loopLookups] at hroom
    split_ifs with hstop
    · exact hle
    · rw [if_neg hstop] at hroom
      apply ih
      · exact foldl_visit_le frontier _ hle fun l hl => hroom l (List.mem_append_left _ hl)
      · exact fun l hl => hroom l (List.mem_append_right _ hl)

end

/-! ### The order of discovery -/

section

variable (lookup : Coord → List Finding) (seeds : List Coord)

/-- What the answers to a lookup state. -/
def leads (c : Coord) : List Coord := (lookup c).flatMap Finding.stated

/-- The coordinates known to the first `k` hops, in the order in which they become known. -/
def known : ℕ → List Coord
  | 0 => []
  | k + 1 => (known k ++ seeds ++ (known k).flatMap (leads lookup)).eraseDups

/-- How many findings there are to these coordinates. -/
def answers (cs : List Coord) : ℕ := (cs.flatMap lookup).toFinset.card

variable {lookup seeds}

theorem answers_mono {cs ds : List Coord} (h : ∀ c ∈ cs, c ∈ ds) :
    answers lookup cs ≤ answers lookup ds := by
  apply Finset.card_le_card
  intro f hf
  rw [List.mem_toFinset, List.mem_flatMap] at *
  obtain ⟨c, hc, hfc⟩ := hf
  exact ⟨c, h c hc, hfc⟩

theorem known_sub (k : ℕ) : ∀ c ∈ known lookup seeds k, c ∈ known lookup seeds (k + 1) := by
  intro c hc
  rw [known, List.mem_eraseDups]
  simp [hc]

theorem known_mono {k n : ℕ} (hle : k ≤ n) :
    ∀ c ∈ known lookup seeds k, c ∈ known lookup seeds n := by
  induction n, hle using Nat.le_induction with
  | base => exact fun c hc => hc
  | succ n _ ih => exact fun c hc => known_sub n c (ih c hc)

theorem seeds_known (k : ℕ) : ∀ c ∈ seeds, c ∈ known lookup seeds (k + 1) := by
  intro c hc
  rw [known, List.mem_eraseDups]
  simp [hc]

theorem leads_known (k : ℕ) :
    ∀ c ∈ (known lookup seeds k).flatMap (leads lookup), c ∈ known lookup seeds (k + 1) := by
  intro c hc
  rw [known, List.mem_eraseDups]
  exact List.mem_append_right _ hc

/-- Once nothing new becomes known, nothing new ever does. -/
theorem known_stable {k n : ℕ} (h : known lookup seeds (k + 1) = known lookup seeds k)
    (hle : k ≤ n) : known lookup seeds n = known lookup seeds k := by
  induction n, hle using Nat.le_induction with
  | base => rfl
  | succ n _ ih =>
    show (known lookup seeds n ++ seeds ++
      (known lookup seeds n).flatMap (leads lookup)).eraseDups = _
    rw [ih]
    exact h

/-- The seeds count for nothing after the first hop. -/
theorem known_succ_succ (k : ℕ) :
    known lookup seeds (k + 2) = (known lookup seeds (k + 1) ++
      (known lookup seeds (k + 1)).flatMap (leads lookup)).eraseDups := by
  show (known lookup seeds (k + 1) ++ seeds ++ _).eraseDups = _
  exact Firsts.eraseDups_append_same (Firsts.eraseDups_append_known (seeds_known k)) _

end

/-! ### A lookup that the cap does not cut short -/

section

variable {lookup : Coord → List Finding} {seeds : List Coord}

/-- The next frontier becomes known in the order of what the findings state. -/
theorem takeFindings_next {coord : Coord} {fs : List Finding} {st : WalkState} {before : List Coord}
    (hvisited : ∀ c ∈ st.visited, c ∈ before)
    (hseen : ∀ f ∈ st.seen, ∀ c ∈ f.stated, c ∈ before ++ st.next)
    (hroom : (takeFindings coord fs st).evidence.length < maxEvidence) :
    (before ++ (takeFindings coord fs st).next).eraseDups =
      (before ++ st.next ++ fs.flatMap Finding.stated).eraseDups := by
  induction fs generalizing st with
  | nil => simp [takeFindings]
  | cons f rest ih =>
    rw [takeFindings] at hroom ⊢
    rw [List.flatMap_cons, ← List.append_assoc]
    split_ifs at hroom ⊢ with hf
    · rw [ih hvisited hseen hroom]
      have hold : (before ++ st.next ++ f.stated).eraseDups = (before ++ st.next).eraseDups :=
        Firsts.eraseDups_append_known (hseen f hf)
      exact (Firsts.eraseDups_append_same hold _).symm
    · dsimp only at hroom ⊢
      split_ifs at hroom ⊢ with hcap
      · exact absurd hroom (not_lt.mpr hcap)
      · have hnew : (before ++ (pushFinding coord f st).next).eraseDups =
            (before ++ st.next ++ f.stated).eraseDups := by
          show (before ++ (st.next ++ f.stated.filter fun c => c ∉ st.visited)).eraseDups = _
          rw [← List.append_assoc]
          apply Firsts.eraseDups_append_filter
          intro c _ hc
          exact List.mem_append_left _ (hvisited c (by simpa using hc))
        have hmem : ∀ c, c ∈ before ++ (pushFinding coord f st).next ↔
            c ∈ before ++ st.next ++ f.stated := by
          intro c
          rw [← List.mem_eraseDups, hnew, List.mem_eraseDups]
        have hrest := @ih (pushFinding coord f st) hvisited
          (by
            intro g hg c hc
            rw [hmem]
            cases List.mem_cons.mp hg with
            | inl hg => exact List.mem_append_right _ (by rwa [← hg])
            | inr hg => exact List.mem_append_left _ (hseen g hg c hc))
          hroom
        exact hrest.trans (Firsts.eraseDups_append_same hnew _)

variable (lookup) in
/-- The findings taken answer what was looked up, each taken once. -/
structure Gathered (st : WalkState) : Prop where
  counted : st.seen.Perm (st.evidence.map fun e => e.finding)
  nodup : st.seen.Nodup
  found : ∀ f ∈ st.seen, ∃ c ∈ st.visited, f ∈ lookup c

theorem Gathered.length_le {st : WalkState} (h : Gathered lookup st) :
    st.evidence.length ≤ answers lookup st.visited := by
  have hlen : st.evidence.length = st.seen.toFinset.card := by
    rw [List.toFinset_card_of_nodup h.nodup, h.counted.length_eq, List.length_map]
  rw [hlen]
  apply Finset.card_le_card
  intro f hf
  rw [List.mem_toFinset] at *
  exact List.mem_flatMap.mpr (h.found f hf)

theorem Gathered.visit {st : WalkState} (h : Gathered lookup st) (coord : Coord) :
    Gathered lookup (visitCoord lookup st coord) := by
  rw [visitCoord]
  split_ifs
  · exact h
  · have htake := takeFindings_taken coord (lookup coord) { st with visited := coord :: st.visited }
    constructor
    · exact htake.found h.counted
    · exact htake.nodup h.nodup
    · intro f hf
      rw [htake.visited]
      cases htake.new f hf with
      | inl hf =>
        obtain ⟨c, hc, hfc⟩ := h.found f hf
        exact ⟨c, List.mem_cons_of_mem _ hc, hfc⟩
      | inr hf => exact ⟨coord, List.mem_cons_self, hf⟩

theorem Gathered.visitAll {st : WalkState} (h : Gathered lookup st) (frontier : List Coord) :
    Gathered lookup (frontier.foldl (visitCoord lookup) st) := by
  induction frontier generalizing st with
  | nil => exact h
  | cons coord rest ih => exact ih (h.visit coord)

theorem foldl_visit_longer (frontier : List Coord) (st : WalkState) :
    st.evidence.length ≤ (frontier.foldl (visitCoord lookup) st).evidence.length := by
  induction frontier generalizing st with
  | nil => exact le_rfl
  | cons coord rest ih => exact (visitCoord_longer st coord).trans (ih _)

theorem foldl_visit_mem {frontier : List Coord} {st : WalkState} {c : Coord}
    (h : c ∈ (frontier.foldl (visitCoord lookup) st).visited) : c ∈ st.visited ∨ c ∈ frontier := by
  induction frontier generalizing st with
  | nil => exact .inl h
  | cons coord rest ih =>
    have hstep := ih h
    rw [visitCoord_visited] at hstep
    split_ifs at hstep
    · exact hstep.imp id (List.mem_cons_of_mem _)
    · rw [List.mem_cons] at *
      tauto

variable (lookup seeds) in
/-- In hop `k`, below the cap: the coordinates become known in their order, all findings of what was
looked up are taken, and what they state is next. -/
structure Exact (k : ℕ) (rest : List Coord) (st : WalkState) : Prop extends Gathered lookup st where
  order : (st.visited.reverse ++ rest).eraseDups = known lookup seeds (k + 1)
  once : st.visited.reverse.eraseDups = st.visited.reverse
  taken : ∀ c ∈ st.visited, ∀ f ∈ lookup c, f ∈ st.seen
  next : (known lookup seeds (k + 1) ++ st.next).eraseDups =
    (known lookup seeds (k + 1) ++ st.visited.reverse.flatMap (leads lookup)).eraseDups

variable {k : ℕ} {rest : List Coord} {st : WalkState}

theorem Exact.mem_known (h : Exact lookup seeds k rest st) (c : Coord) :
    c ∈ known lookup seeds (k + 1) ↔ c ∈ st.visited ∨ c ∈ rest := by
  rw [← h.order, List.mem_eraseDups, List.mem_append, List.mem_reverse]

theorem Exact.length_eq (h : Exact lookup seeds k rest st) :
    st.evidence.length = answers lookup st.visited := by
  apply le_antisymm h.length_le
  have hlen : st.evidence.length = st.seen.toFinset.card := by
    rw [List.toFinset_card_of_nodup h.nodup, h.counted.length_eq, List.length_map]
  rw [hlen]
  apply Finset.card_le_card
  intro f hf
  rw [List.mem_toFinset] at *
  obtain ⟨c, hc, hfc⟩ := List.mem_flatMap.mp hf
  exact h.taken c hc f hfc

/-- The frontier names a coordinate again. -/
theorem Exact.skip {coord : Coord} (h : Exact lookup seeds k (coord :: rest) st)
    (hv : coord ∈ st.visited) : Exact lookup seeds k rest st where
  toGathered := h.toGathered
  order := by
    rw [← h.order]
    exact (Firsts.eraseDups_skip (List.mem_reverse.mpr hv) rest).symm
  once := h.once
  taken := h.taken
  next := h.next

theorem Exact.visit {coord : Coord} (h : Exact lookup seeds k (coord :: rest) st)
    (hv : coord ∉ st.visited)
    (hroom : (visitCoord lookup st coord).evidence.length < maxEvidence) :
    Exact lookup seeds k rest (visitCoord lookup st coord) := by
  have hvisited : (visitCoord lookup st coord).visited = coord :: st.visited := by
    rw [visitCoord_visited, if_neg hv]
  have hfresh : coord ∉ st.visited.reverse := fun hc => hv (List.mem_reverse.mp hc)
  have hstated : ∀ c, c ∈ known lookup seeds (k + 1) ++ st.next ↔
      c ∈ known lookup seeds (k + 1) ++ st.visited.reverse.flatMap (leads lookup) := by
    intro c
    rw [← List.mem_eraseDups, h.next, List.mem_eraseDups]
  refine { toGathered := h.toGathered.visit coord, order := ?_, once := ?_, taken := ?_, next := ?_ }
  · rw [hvisited, List.reverse_cons, ← List.append_cons, h.order]
  · rw [hvisited, List.reverse_cons, Firsts.eraseDups_snoc hfresh, h.once]
  · intro c hc f hf
    rw [hvisited] at hc
    rw [visitCoord, if_neg hv] at hroom ⊢
    have htake := takeFindings_taken coord (lookup coord) { st with visited := coord :: st.visited }
    cases List.mem_cons.mp hc with
    | inl hc => exact htake.all hroom f (by rwa [← hc])
    | inr hc => exact htake.seen f (h.taken c hc f hf)
  · rw [hvisited, List.reverse_cons, List.flatMap_append, ← List.append_assoc]
    rw [visitCoord, if_neg hv] at hroom ⊢
    have hnext : (known lookup seeds (k + 1) ++ (takeFindings coord (lookup coord)
          { st with visited := coord :: st.visited }).next).eraseDups =
        (known lookup seeds (k + 1) ++ st.next ++
          (lookup coord).flatMap Finding.stated).eraseDups := takeFindings_next
      (by
        intro c hc
        rw [h.mem_known]
        have : c = coord ∨ c ∈ st.visited := List.mem_cons.mp hc
        rw [List.mem_cons]
        tauto)
      (by
        intro f hf c hc
        show c ∈ known lookup seeds (k + 1) ++ st.next
        obtain ⟨d, hd, hfd⟩ := h.found f hf
        rw [hstated]
        apply List.mem_append_right
        rw [List.mem_flatMap]
        exact ⟨d, List.mem_reverse.mpr hd, List.mem_flatMap.mpr ⟨f, hfd, hc⟩⟩)
      hroom
    rw [hnext]
    have hlast : [coord].flatMap (leads lookup) = (lookup coord).flatMap Finding.stated := by
      simp [leads]
    rw [hlast]
    exact Firsts.eraseDups_append_same h.next _

theorem Exact.visitAll (h : Exact lookup seeds k rest st)
    (hroom : (rest.foldl (visitCoord lookup) st).evidence.length < maxEvidence) :
    Exact lookup seeds k [] (rest.foldl (visitCoord lookup) st) := by
  induction rest generalizing st with
  | nil => exact h
  | cons coord rest ih =>
    apply ih _ hroom
    by_cases hv : coord ∈ st.visited
    · rw [visitCoord, if_pos hv]
      exact h.skip hv
    · apply h.visit hv
      exact lt_of_le_of_lt (foldl_visit_longer rest _) hroom

/-! ### One hop -/

/-- At the cap: no more lookups exactly when the frontier names nothing new. -/
theorem hopLookups_full (hfull : maxEvidence ≤ st.evidence.length) :
    (∀ l ∈ hopLookups lookup rest st, l.2.length < maxEvidence) ↔ ∀ c ∈ rest, c ∈ st.visited := by
  induction rest generalizing st with
  | nil => simp [hopLookups]
  | cons coord rest ih =>
    have hlater : maxEvidence ≤ (visitCoord lookup st coord).evidence.length :=
      hfull.trans (visitCoord_longer st coord)
    rw [hopLookups]
    by_cases hv : coord ∈ st.visited
    · rw [if_pos hv, List.nil_append, ih hlater, visitCoord_visited, if_pos hv]
      simp [hv]
    · rw [if_neg hv]
      constructor
      · intro h
        have : st.evidence.length < maxEvidence := h (coord, st.evidence) (by simp)
        omega
      · intro h
        exact absurd (h coord List.mem_cons_self) hv

/-- A hop makes no lookup at the cap exactly when the cap is not reached before its last one. -/
theorem Exact.capped_iff (h : Exact lookup seeds k rest st)
    (hroom : st.evidence.length < maxEvidence) :
    (∀ l ∈ hopLookups lookup rest st, l.2.length < maxEvidence) ↔
      answers lookup (known lookup seeds (k + 1)).dropLast < maxEvidence := by
  induction rest generalizing st with
  | nil =>
    have hvisited : answers lookup (known lookup seeds (k + 1)).dropLast ≤
        answers lookup st.visited := by
      apply answers_mono
      intro c hc
      simpa using (h.mem_known c).mp (List.dropLast_subset _ hc)
    have hlen := h.length_eq
    constructor
    · intro _
      omega
    · intro _ l hl
      exact absurd hl List.not_mem_nil
  | cons coord rest ih =>
    rw [hopLookups]
    by_cases hv : coord ∈ st.visited
    · rw [if_pos hv, List.nil_append, visitCoord, if_pos hv]
      exact ih (h.skip hv) hroom
    · have hvisited : (visitCoord lookup st coord).visited = coord :: st.visited := by
        rw [visitCoord_visited, if_neg hv]
      have hfirst : (∀ l ∈ (if coord ∈ st.visited then [] else [(coord, st.evidence)]) ++
            hopLookups lookup rest (visitCoord lookup st coord), l.2.length < maxEvidence) ↔
          ∀ l ∈ hopLookups lookup rest (visitCoord lookup st coord), l.2.length < maxEvidence := by
        simp [hv, hroom]
      rw [hfirst]
      by_cases hcap : (visitCoord lookup st coord).evidence.length < maxEvidence
      · exact ih (h.visit hv hcap) hcap
      · -- the lookup that reaches the cap: what is left of the frontier decides
        have hfull : maxEvidence ≤ (visitCoord lookup st coord).evidence.length := by omega
        have hsnoc : (st.visited.reverse ++ [coord]).eraseDups = st.visited.reverse ++ [coord] := by
          rw [Firsts.eraseDups_snoc fun hc => hv (List.mem_reverse.mp hc), h.once]
        have horder : known lookup seeds (k + 1) = (st.visited.reverse ++ [coord]) ++
            (rest.removeAll (st.visited.reverse ++ [coord])).eraseDups := by
          rw [← h.order, List.append_cons, List.eraseDups_append, hsnoc]
        rw [hopLookups_full hfull, hvisited]
        constructor
        · intro hold
          have hnone : rest.removeAll (st.visited.reverse ++ [coord]) = [] := by
            rw [Firsts.removeAll_eq_filter, List.filter_eq_nil_iff]
            intro c hc
            have := hold c hc
            simp only [List.mem_cons] at this
            simp [this.symm]
          rw [horder, hnone, List.eraseDups_nil, List.append_nil, List.dropLast_concat]
          have hlen := h.length_eq
          have hle : answers lookup st.visited.reverse ≤ answers lookup st.visited :=
            answers_mono fun c hc => List.mem_reverse.mp hc
          omega
        · intro hlast c hc
          by_contra hnew
          have hmore : (rest.removeAll (st.visited.reverse ++ [coord])).eraseDups ≠ [] := by
            apply List.ne_nil_of_mem (a := c)
            rw [List.mem_eraseDups, Firsts.removeAll_eq_filter, List.mem_filter]
            rw [List.mem_cons] at hnew
            refine ⟨hc, ?_⟩
            simp only [List.mem_append, List.mem_reverse, List.mem_singleton, decide_eq_true_eq]
            tauto
          rw [horder, List.dropLast_append_of_ne_nil hmore] at hlast
          have hheld := (h.toGathered.visit coord).length_le
          have hle : answers lookup (visitCoord lookup st coord).visited ≤ answers lookup
              (st.visited.reverse ++ [coord] ++
                (rest.removeAll (st.visited.reverse ++ [coord])).eraseDups.dropLast) := by
            apply answers_mono
            intro d hd
            rw [hvisited, List.mem_cons] at hd
            simp only [List.mem_append, List.mem_reverse, List.mem_singleton]
            tauto
          omega

/-- The next hop. -/
theorem Exact.succ (h : Exact lookup seeds k [] st) :
    Exact lookup seeds (k + 1) st.next { st with next := [] } := by
  have hvisited : st.visited.reverse = known lookup seeds (k + 1) := by
    rw [← h.order, List.append_nil, h.once]
  refine { toGathered := ⟨h.counted, h.nodup, h.found⟩, order := ?_, once := h.once, taken := h.taken,
           next := ?_ }
  · show (st.visited.reverse ++ st.next).eraseDups = _
    rw [known_succ_succ, hvisited, h.next, hvisited]
  · show (known lookup seeds (k + 2) ++ []).eraseDups =
      (known lookup seeds (k + 2) ++ st.visited.reverse.flatMap (leads lookup)).eraseDups
    rw [List.append_nil, hvisited]
    exact (Firsts.eraseDups_append_known (leads_known (k + 1))).symm

/-! ### The whole walk -/

/-- Where a hop begins: what became known before it is what was looked up. -/
structure HopStart (lookup : Coord → List Finding) (seeds : List Coord) (k : ℕ)
    (frontier : List Coord) (st : WalkState) : Prop where
  full : maxEvidence ≤ st.evidence.length → maxEvidence ≤ answers lookup (known lookup seeds k)
  visited : st.evidence.length < maxEvidence → st.visited.reverse = known lookup seeds k
  exact : st.evidence.length < maxEvidence → Exact lookup seeds k frontier { st with next := [] }

theorem HopStart.hop {frontier : List Coord} (h : HopStart lookup seeds k frontier st)
    (hroom : st.evidence.length < maxEvidence) :
    HopStart lookup seeds (k + 1) (frontier.foldl (visitCoord lookup) { st with next := [] }).next
      (frontier.foldl (visitCoord lookup) { st with next := [] }) := by
  have hexact := h.exact hroom
  constructor
  · intro hfull
    apply (hfull.trans (hexact.toGathered.visitAll frontier).length_le).trans
    apply answers_mono
    intro c hc
    exact (hexact.mem_known c).mpr (foldl_visit_mem hc)
  · intro hroom'
    have hend := hexact.visitAll hroom'
    rw [← hend.order, List.append_nil, hend.once]
  · intro hroom'
    exact (hexact.visitAll hroom').succ

/-- With nothing on the frontier nothing more becomes known. -/
theorem HopStart.stable (h : HopStart lookup seeds k [] st)
    (hroom : st.evidence.length < maxEvidence) :
    known lookup seeds (k + 1) = known lookup seeds k := by
  have hexact := h.exact hroom
  have hvisited := h.visited hroom
  rw [← hexact.order, List.append_nil, hexact.once]
  exact hvisited

theorem HopStart.capped_iff {hops : ℕ} {frontier : List Coord}
    (h : HopStart lookup seeds k frontier st) :
    (∀ l ∈ loopLookups lookup hops frontier st, l.2.length < maxEvidence) ↔
      ∀ n, k ≤ n → n < k + hops → answers lookup (known lookup seeds n) < maxEvidence →
        answers lookup (known lookup seeds (n + 1)).dropLast < maxEvidence := by
  induction hops generalizing k frontier st with
  | zero =>
    simp only [loopLookups, List.not_mem_nil, false_imp_iff, implies_true, true_iff]
    intro n hk hn
    omega
  | succ hops ih =>
    rw [loopLookups]
    by_cases hfull : maxEvidence ≤ st.evidence.length
    · rw [if_pos (.inr hfull)]
      simp only [List.not_mem_nil, false_imp_iff, implies_true, true_iff]
      intro n hk _ hroom
      have hmany := h.full hfull
      have hmono : answers lookup (known lookup seeds k) ≤ answers lookup (known lookup seeds n) :=
        answers_mono (known_mono hk)
      omega
    · have hroom : st.evidence.length < maxEvidence := by omega
      by_cases hnil : frontier = []
      · rw [if_pos (.inl hnil)]
        subst hnil
        simp only [List.not_mem_nil, false_imp_iff, implies_true, true_iff]
        intro n hk _ hn
        have hn' : known lookup seeds (n + 1) = known lookup seeds n := by
          rw [known_stable (h.stable hroom) hk, known_stable (h.stable hroom) (by omega)]
        rw [hn']
        exact lt_of_le_of_lt (answers_mono fun c hc => List.dropLast_subset _ hc) hn
      · rw [if_neg (by tauto)]
        have hbegin : answers lookup (known lookup seeds k) < maxEvidence := by
          have hlen : st.evidence.length = answers lookup st.visited := (h.exact hroom).length_eq
          rw [← h.visited hroom]
          have hle : answers lookup st.visited.reverse ≤ answers lookup st.visited :=
            answers_mono fun c hc => List.mem_reverse.mp hc
          omega
        have hone := (h.exact hroom).capped_iff hroom
        have hrest := ih (h.hop hroom)
        simp only [List.mem_append, or_imp, forall_and]
        rw [hone, hrest]
        constructor
        · rintro ⟨hfirst, hlater⟩ n hk hn
          by_cases heq : n = k
          · intro _
            rwa [heq]
          · exact hlater n (by omega) (by omega)
        · intro hall
          constructor
          · exact hall k le_rfl (by omega) hbegin
          · intro n hk hn
            exact hall n (by omega) (by omega)

end

theorem hopStart_init (lookup : Coord → List Finding) (seeds : List Coord) :
    HopStart lookup seeds 0 seeds ⟨[], [], [], []⟩ where
  full h := absurd h (by decide)
  visited _ := rfl
  exact _ :=
    { counted := by simp
      nodup := by simp
      found := by simp
      order := by simp [known]
      once := by simp
      taken := by simp
      next := by simp }

theorem lookups_capped_iff (seeds : List Coord) (localSources : Coord → List Finding)
    (findingsFor : Option (Coord → List Finding)) :
    (∀ l ∈ walkLookups seeds localSources findingsFor, l.2.length < maxEvidence) ↔
      ∀ k < maxHops,
        answers (lookupOf localSources findingsFor)
          (known (lookupOf localSources findingsFor) seeds k) < maxEvidence →
        answers (lookupOf localSources findingsFor)
          (known (lookupOf localSources findingsFor) seeds (k + 1)).dropLast < maxEvidence := by
  have hloop : (∀ l ∈ walkLookups seeds localSources findingsFor, l.2.length < maxEvidence) ↔ _ :=
    (hopStart_init (lookupOf localSources findingsFor) seeds).capped_iff
  rw [hloop]
  constructor
  · intro h k hk
    exact h k (Nat.zero_le k) (by omega)
  · intro h k _ hk
    exact h k (by omega)

/-- **The evidence cap.**  The evidence stays within the cap, and nothing is looked up at the cap,
exactly when no hop that begins below the cap reaches it before the last coordinate of the hop. -/
theorem walk_capped_iff (seeds : List Coord) (localSources : Coord → List Finding)
    (findingsFor : Option (Coord → List Finding)) :
    Capped seeds localSources findingsFor ↔
      ∀ k < maxHops,
        answers (lookupOf localSources findingsFor)
          (known (lookupOf localSources findingsFor) seeds k) < maxEvidence →
        answers (lookupOf localSources findingsFor)
          (known (lookupOf localSources findingsFor) seeds (k + 1)).dropLast < maxEvidence := by
  rw [← lookups_capped_iff]
  constructor
  · exact fun h => h.lookups
  · intro hlookups
    constructor
    · rw [walk_eq]
      exact walkLoop_le maxHops seeds _ (by decide) hlookups
    · exact hlookups

/-! ### A file that everybody has -/

/-- One of the names a file goes by. -/
def copyFinding (n : ℕ) : Finding :=
  ⟨"mirror", [⟨String.ofList (List.replicate n 'a'), none⟩], [], none⟩

/-- A thousand names for the first file, one for any other. -/
def crowdedLocal (c : Coord) : List Finding :=
  if c = chainCoord 0 then (List.range maxEvidence).map copyFinding else [copyFinding maxEvidence]

theorem copyFinding_injective : Function.Injective copyFinding := by
  intro m n h
  simp only [copyFinding, Finding.mk.injEq, List.cons.injEq, Claim.mk.injEq, String.ofList_inj] at h
  have hlen := congrArg List.length h.2.1.1.1
  rwa [List.length_replicate, List.length_replicate] at hlen

theorem answers_crowded : answers crowdedLocal [chainCoord 0] = maxEvidence := by
  have hone : [chainCoord 0].flatMap crowdedLocal = (List.range maxEvidence).map copyFinding := by
    rw [List.flatMap_singleton, crowdedLocal, if_pos rfl]
  rw [answers, hone, List.toFinset_card_of_nodup (List.nodup_range.map copyFinding_injective),
    List.length_map, List.length_range]

/-- The first lookup fills the evidence, and the second coordinate is looked up all the same. -/
theorem crowded_over :
    ¬ ∀ (seeds : List Coord) (localSources : Coord → List Finding)
        (findingsFor : Option (Coord → List Finding)), Capped seeds localSources findingsFor := by
  intro h
  have hlookup : lookupOf crowdedLocal none = crowdedLocal := by
    funext c
    simp [lookupOf]
  have hcapped := (h [chainCoord 0, chainCoord 1] crowdedLocal none).lookups
  rw [lookups_capped_iff, hlookup] at hcapped
  have hfirst := hcapped 0 (by decide) (by decide)
  have hknown : (known crowdedLocal [chainCoord 0, chainCoord 1] 1).dropLast = [chainCoord 0] := by
    decide +kernel
  rw [hknown, answers_crowded] at hfirst
  exact lt_irrefl _ hfirst

end Hashdex
