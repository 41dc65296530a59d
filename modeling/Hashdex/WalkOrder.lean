import Hashdex.WalkClosure
import Hashdex.Partition

/-!
# The order of seeds and answers

A finding that several coordinates are answered with is kept at the one of them that is looked up first.
Which that is depends on the order of the seeds and of the answers, and the finding carries it.

* `FirstAt`, `walk_first`: a finding is kept at one of its first coordinates
* `walk_has_iff`: which findings there are does not depend on the order
* `CanCarry`, `MustCarry`: what the finding carries in some order, and in each
* `walk_order_agree`: when the order makes no difference to the clusters
-/

namespace Hashdex

section

variable (lookup : Coord → List Finding) (seeds : List Coord)

/-- The coordinate is answered with the finding, and no coordinate fewer links away is. -/
def FirstAt (f : Finding) (c : Coord) : Prop :=
  f ∈ lookup c ∧ ∃ k < maxHops, WithinHops lookup seeds k c ∧
    ∀ j < k, ¬ FoundWithin lookup seeds j f

/-- The finding, kept at one of its first coordinates, carries the coordinate. -/
def CanCarry (f : Finding) (d : Coord) : Prop :=
  ∃ c, FirstAt lookup seeds f c ∧ Effective ⟨c, f⟩ d

/-- It carries the coordinate at whichever of them it is kept. -/
def MustCarry (f : Finding) (d : Coord) : Prop :=
  CanCarry lookup seeds f d ∧ ∀ c, FirstAt lookup seeds f c → Effective ⟨c, f⟩ d

/-- The two carry one identity-grade coordinate in any order. -/
def MustShare (f g : Finding) : Prop :=
  ∃ d, isIdentityGrade d.scheme = true ∧ MustCarry lookup seeds f d ∧ MustCarry lookup seeds g d

/-- Findings that may share an identity-grade coordinate are chained in any order. -/
def OrderSettled : Prop :=
  ∀ f g d, isIdentityGrade d.scheme = true → CanCarry lookup seeds f d → CanCarry lookup seeds g d →
    Relation.ReflTransGen (MustShare lookup seeds) f g

end

/-! ### The same answers in another order -/

section

variable {lookup lookup' : Coord → List Finding} {seeds seeds' : List Coord}

theorem withinHops_congr (hseeds : ∀ c, c ∈ seeds ↔ c ∈ seeds')
    (hlookup : ∀ c f, f ∈ lookup c ↔ f ∈ lookup' c) (k : ℕ) (c : Coord) :
    WithinHops lookup seeds k c ↔ WithinHops lookup' seeds' k c := by
  induction k generalizing c with
  | zero => exact hseeds c
  | succ k ih => simp only [WithinHops, ih, hlookup]

theorem foundWithin_congr (hseeds : ∀ c, c ∈ seeds ↔ c ∈ seeds')
    (hlookup : ∀ c f, f ∈ lookup c ↔ f ∈ lookup' c) (k : ℕ) (f : Finding) :
    FoundWithin lookup seeds k f ↔ FoundWithin lookup' seeds' k f := by
  simp only [FoundWithin, withinHops_congr hseeds hlookup, hlookup]

theorem firstAt_congr (hseeds : ∀ c, c ∈ seeds ↔ c ∈ seeds')
    (hlookup : ∀ c f, f ∈ lookup c ↔ f ∈ lookup' c) (f : Finding) (c : Coord) :
    FirstAt lookup seeds f c ↔ FirstAt lookup' seeds' f c := by
  simp only [FirstAt, withinHops_congr hseeds hlookup, foundWithin_congr hseeds hlookup, hlookup]

/-- A finding within reach has a first coordinate. -/
theorem FoundWithin.firstAt {k : ℕ} {f : Finding} (h : FoundWithin lookup seeds k f)
    (hk : k < maxHops) : ∃ c, FirstAt lookup seeds f c := by
  induction k with
  | zero =>
    obtain ⟨c, hc, hf⟩ := h
    exact ⟨c, hf, 0, hk, hc, fun j hj => absurd hj (Nat.not_lt_zero j)⟩
  | succ k ih =>
    by_cases hbefore : FoundWithin lookup seeds k f
    · exact ih hbefore (by omega)
    · obtain ⟨c, hc, hf⟩ := h
      refine ⟨c, hf, k + 1, hk, hc, fun j hj hfound => hbefore ?_⟩
      obtain ⟨d, hd, hfd⟩ := hfound
      exact ⟨d, hd.mono (by omega), hfd⟩

/-! ### Where a finding is kept -/

variable (lookup seeds) in
/-- During a hop, below the cap: all that is fewer links away has been looked up, and each finding is
kept at one of its first coordinates. -/
structure FirstHop (k : ℕ) (rest : List Coord) (st : WalkState) : Prop
    extends Hop lookup seeds k rest st where
  below : st.evidence.length < maxEvidence →
    ∀ j < k, ∀ c, WithinHops lookup seeds j c → c ∈ st.visited
  first : st.evidence.length < maxEvidence →
    ∀ e ∈ st.evidence, FirstAt lookup seeds e.finding e.foundAt

theorem FirstHop.visit {k : ℕ} {coord : Coord} {rest : List Coord} {st : WalkState}
    (h : FirstHop lookup seeds k (coord :: rest) st) (hk : k < maxHops) :
    FirstHop lookup seeds k rest (visitCoord lookup st coord) := by
  have hop := h.toHop.visit
  rw [visitCoord] at hop ⊢
  split_ifs at hop ⊢ with hv
  · exact { hop with below := h.below, first := h.first }
  · have htake := takeFindings_taken coord (lookup coord) { st with visited := coord :: st.visited }
    have hroom : (takeFindings coord (lookup coord)
        { st with visited := coord :: st.visited }).evidence.length < maxEvidence →
        st.evidence.length < maxEvidence := lt_of_le_of_lt htake.longer
    refine { hop with below := fun hlt j hj c hc => ?_, first := fun hlt e he => ?_ }
    · rw [htake.visited]
      exact List.mem_cons_of_mem _ (h.below (hroom hlt) j hj c hc)
    · cases takeFindings_evidence he with
      | inl he => exact h.first (hroom hlt) e he
      | inr hnew =>
        obtain ⟨hat, hanswer, hunseen⟩ := hnew
        rw [hat]
        refine ⟨hanswer, k, hk, h.waits coord List.mem_cons_self, fun j hj hfound => hunseen ?_⟩
        obtain ⟨c, hc, hf⟩ := hfound
        exact h.answered (hroom hlt) c (h.below (hroom hlt) j hj c hc) _ hf

theorem FirstHop.visitAll {k : ℕ} {rest : List Coord} {st : WalkState}
    (h : FirstHop lookup seeds k rest st) (hk : k < maxHops) :
    FirstHop lookup seeds k [] (rest.foldl (visitCoord lookup) st) := by
  induction rest generalizing st with
  | nil => exact h
  | cons coord rest ih => exact ih (h.visit hk)

theorem FirstHop.succ {k : ℕ} {st : WalkState} (h : FirstHop lookup seeds k [] st) :
    FirstHop lookup seeds (k + 1) st.next { st with next := [] } where
  toHop := h.toHop.succ
  below hroom j hj c hc :=
    (h.reach hroom c (hc.mono (by omega))).resolve_right List.not_mem_nil
  first := h.first

theorem walkLoop_first {hops k : ℕ} {rest : List Coord} {st : WalkState}
    (h : FirstHop lookup seeds k rest { st with next := [] }) (hk : k + hops ≤ maxHops)
    (hroom : (walkLoop lookup hops rest st).evidence.length < maxEvidence) :
    ∀ e ∈ (walkLoop lookup hops rest st).evidence, FirstAt lookup seeds e.finding e.foundAt := by
  induction hops generalizing k rest st with
  | zero => exact h.first hroom
  | succ hops ih =>
    rw [walkLoop] at hroom ⊢
    split_ifs at hroom ⊢
    · exact h.first hroom
    · exact ih (h.visitAll (by omega)).succ (by omega) hroom

end

/-! ### The whole walk -/

section

variable {seeds : List Coord} {localSources : Coord → List Finding}
  {findingsFor : Option (Coord → List Finding)}

/-- **A finding is kept at one of its first coordinates.** -/
theorem walk_first (hroom : (walk seeds localSources findingsFor).length < maxEvidence) :
    ∀ e ∈ walk seeds localSources findingsFor,
      FirstAt (lookupOf localSources findingsFor) seeds e.finding e.foundAt := by
  have hstart : FirstHop (lookupOf localSources findingsFor) seeds 0 seeds ⟨[], [], [], []⟩ :=
    { visited := by simp
      waits := fun c hc => hc
      found := by simp
      counted := by simp
      nodup := by simp
      reach := fun _ c hc => .inr hc
      answered := by simp
      next := by simp
      leads := by simp
      below := by simp
      first := by simp }
  have hhops : 0 + maxHops ≤ maxHops := by omega
  exact walkLoop_first hstart hhops hroom

theorem walk_oneOrigin (seeds : List Coord) (localSources : Coord → List Finding)
    (findingsFor : Option (Coord → List Finding)) :
    OneOrigin (walk seeds localSources findingsFor) := by
  have hreach := walkState_reached seeds localSources findingsFor
  have hnodup := hreach.counted.nodup_iff.mp hreach.nodup
  intro e he e' he' hfinding
  exact List.inj_on_of_nodup_map hnodup he he' hfinding

/-- **The findings are those within reach.** -/
theorem walk_has_iff (hroom : (walk seeds localSources findingsFor).length < maxEvidence)
    (f : Finding) :
    Has (walk seeds localSources findingsFor) f ↔
      FoundWithin (lookupOf localSources findingsFor) seeds (maxHops - 1) f := by
  have hreach := walkState_reached seeds localSources findingsFor
  rw [← hreach.seen_iff hroom, hreach.counted.mem_iff, List.mem_map]
  rfl

/-- Findings that are chained are chained in any order. -/
theorem walk_chained_iff (hroom : (walk seeds localSources findingsFor).length < maxEvidence)
    (hsettled : OrderSettled (lookupOf localSources findingsFor) seeds) (f g : Finding) :
    Chained (walk seeds localSources findingsFor) f g ↔
      Relation.ReflTransGen (MustShare (lookupOf localSources findingsFor) seeds) f g := by
  have hcan : ∀ f d, CarriedBy (walk seeds localSources findingsFor) f d →
      CanCarry (lookupOf localSources findingsFor) seeds f d := by
    rintro f d ⟨e, he, rfl, hd⟩
    exact ⟨e.foundAt, walk_first hroom e he, hd⟩
  have hmust : ∀ f d, MustCarry (lookupOf localSources findingsFor) seeds f d →
      CarriedBy (walk seeds localSources findingsFor) f d := by
    rintro f d ⟨⟨c, ⟨hf, k, hk, hc, -⟩, -⟩, hall⟩
    have hfound : FoundWithin (lookupOf localSources findingsFor) seeds (maxHops - 1) f :=
      ⟨c, hc.mono (by omega), hf⟩
    obtain ⟨e, he, rfl⟩ := (walk_has_iff hroom f).mpr hfound
    exact ⟨e, he, rfl, hall e.foundAt (walk_first hroom e he)⟩
  constructor
  · intro h
    induction h with
    | refl => exact .refl
    | tail _ hshare ih =>
      obtain ⟨d, hgrade, hf, hg⟩ := hshare
      exact ih.trans (hsettled _ _ d hgrade (hcan _ d hf) (hcan _ d hg))
  · intro h
    induction h with
    | refl => exact .refl
    | tail _ hshare ih =>
      obtain ⟨d, hgrade, hf, hg⟩ := hshare
      exact ih.tail ⟨d, hgrade, hmust _ d hf, hmust _ d hg⟩

end

/-- The walk ends because there is nothing more to look up. -/
structure Unlimited (seeds : List Coord) (localSources : Coord → List Finding)
    (findingsFor : Option (Coord → List Finding)) : Prop where
  room : (walk seeds localSources findingsFor).length < maxEvidence
  closed : Closed seeds (walkState seeds localSources findingsFor)

section

variable {seeds seeds' : List Coord} {localSources localSources' : Coord → List Finding}
  {findingsFor findingsFor' : Option (Coord → List Finding)}

/-- The same findings fill the evidence in any order. -/
theorem walk_room_iff (hseeds : ∀ c, c ∈ seeds ↔ c ∈ seeds')
    (hlookup : ∀ c f, f ∈ lookupOf localSources findingsFor c ↔
      f ∈ lookupOf localSources' findingsFor' c) :
    (walk seeds localSources findingsFor).length < maxEvidence ↔
      (walk seeds' localSources' findingsFor').length < maxEvidence := by
  have hreach := walkState_reached seeds localSources findingsFor
  have hreach' := walkState_reached seeds' localSources' findingsFor'
  rw [← not_le, ← not_le, walk_eq, walk_eq, hreach.full_iff, hreach'.full_iff]
  simp only [foundWithin_congr hseeds hlookup]

/-- **Seeds and answers in another order.**  There are the same findings, and they are in the same
clusters if those that may share an identity-grade coordinate are chained in any order. -/
theorem walk_order_agree (hseeds : seeds.Perm seeds')
    (hlookup : ∀ c, (lookupOf localSources findingsFor c).Perm (lookupOf localSources' findingsFor' c))
    (hroom : (walk seeds localSources findingsFor).length < maxEvidence) :
    (∀ f, Has (walk seeds localSources findingsFor) f ↔
      Has (walk seeds' localSources' findingsFor') f) ∧
    (OrderSettled (lookupOf localSources findingsFor) seeds →
      ∀ (order order' : IterOrder) (queried : Coord),
        SamePartition (cluster order (walk seeds localSources findingsFor) queried).clusters
          (cluster order' (walk seeds' localSources' findingsFor') queried).clusters) := by
  have hseeds' : ∀ c, c ∈ seeds ↔ c ∈ seeds' := fun c => hseeds.mem_iff
  have hlookup' : ∀ c f, f ∈ lookupOf localSources findingsFor c ↔
      f ∈ lookupOf localSources' findingsFor' c := fun c f => (hlookup c).mem_iff
  have hroom' := (walk_room_iff hseeds' hlookup').mp hroom
  have hhas : ∀ f, Has (walk seeds localSources findingsFor) f ↔
      Has (walk seeds' localSources' findingsFor') f := by
    intro f
    rw [walk_has_iff hroom, walk_has_iff hroom', foundWithin_congr hseeds' hlookup']
  constructor
  · exact hhas
  · intro hsettled order order' queried
    have hmust : MustShare (lookupOf localSources findingsFor) seeds =
        MustShare (lookupOf localSources' findingsFor') seeds' := by
      funext f g
      simp only [MustShare, MustCarry, CanCarry, firstAt_congr hseeds' hlookup']
    have hsettled' : OrderSettled (lookupOf localSources' findingsFor') seeds' := by
      intro f g d hgrade hf hg
      rw [← hmust]
      simp only [CanCarry, ← firstAt_congr hseeds' hlookup'] at hf hg
      exact hsettled f g d hgrade hf hg
    apply samePartition_of_chained (walk_oneOrigin _ _ _) (walk_oneOrigin _ _ _) hhas
    intro f g
    rw [walk_chained_iff hroom hsettled, walk_chained_iff hroom' hsettled', hmust]

/-- A finding that states where it is kept carries what it states. -/
theorem effective_of_states {f : Finding} {c : Coord} (h : f.States c) (d : Coord) :
    Effective ⟨c, f⟩ d ↔ f.States d := by
  constructor
  · rintro (hd | ⟨rfl, -⟩)
    · exact hd
    · exact h
  · exact .inl

/-- Nothing depends on the order where each answer states the coordinate it answers. -/
theorem settled_of_stated {lookup : Coord → List Finding} (h : ∀ c, ∀ f ∈ lookup c, f.States c) :
    OrderSettled lookup seeds := by
  have hstates : ∀ {f c d}, FirstAt lookup seeds f c → (Effective ⟨c, f⟩ d ↔ f.States d) :=
    fun hfirst => effective_of_states (h _ _ hfirst.1) _
  have hmust : ∀ {f d}, CanCarry lookup seeds f d → MustCarry lookup seeds f d := by
    intro f d hcan
    refine ⟨hcan, fun c hc => ?_⟩
    obtain ⟨c', hc', hd⟩ := hcan
    exact (hstates hc).mpr ((hstates hc').mp hd)
  intro f g d hgrade hf hg
  exact .single ⟨d, hgrade, hmust hf, hmust hg⟩

end

def echoFinding (c : Coord) : Finding := ⟨"mirror", [], [c.display], none⟩

theorem walk_order_agree_echo :
    SamePartition
      (cluster ⟨id, fun l => .refl l⟩
        (walk [chainCoord 0, chainCoord 1] (fun c => [echoFinding c]) none) (chainCoord 0)).clusters
      (cluster ⟨id, fun l => .refl l⟩
        (walk [chainCoord 1, chainCoord 0] (fun c => [echoFinding c]) none) (chainCoord 0)).clusters := by
  have hstated : ∀ c, ∀ f ∈ lookupOf (fun c => [echoFinding c]) none c, f.States c := by
    intro c f hf
    have hecho : f = echoFinding c := by simpa [lookupOf] using hf
    rw [hecho]
    exact Finding.states_of_display List.mem_cons_self
  exact (walk_order_agree (.swap _ _ _) (fun c => .refl _) (by decide +kernel)).2
    (settled_of_stated hstated) _ _ _

/-! ### Two digests and a finding without any -/

def bareFinding : Finding := ⟨"rekor", [], [], none⟩

/-- Each coordinate is answered with a finding that states nothing, and with one that states it. -/
def echoLocal (c : Coord) : List Finding := [bareFinding, echoFinding c]

def echoEvidence (a b : Coord) : List Evidence :=
  [⟨a, bareFinding⟩, ⟨a, echoFinding a⟩, ⟨b, echoFinding b⟩]

/-- Where findings state the coordinate they are kept at and no other, that is what they share. -/
theorem shares_kept {evidence : List Evidence}
    (hkept : ∀ e ∈ evidence, ∀ c ∈ e.finding.stated, c = e.foundAt) {f g : Finding} :
    Shares evidence f g ↔ ∃ e ∈ evidence, ∃ e' ∈ evidence, e.finding = f ∧ e'.finding = g ∧
      e.foundAt = e'.foundAt ∧ isIdentityGrade e.foundAt.scheme = true := by
  have heffective : ∀ e ∈ evidence, ∀ c, Effective e c ↔ c = e.foundAt := by
    intro e he c
    constructor
    · rintro (hstated | ⟨hat, -⟩)
      · exact hkept e he c hstated
      · exact hat
    · intro hat
      refine .inr ⟨hat, ?_⟩
      rintro ⟨d, hd, -, hne⟩
      exact hne ((hkept e he d hd).trans hat.symm)
  constructor
  · rintro ⟨c, hgrade, ⟨e, he, hf, hc⟩, ⟨e', he', hg, hc'⟩⟩
    rw [heffective e he] at hc
    rw [heffective e' he'] at hc'
    rw [hc] at hgrade
    exact ⟨e, he, e', he', hf, hg, hc.symm.trans hc', hgrade⟩
  · rintro ⟨e, he, e', he', hf, hg, hat, hgrade⟩
    exact ⟨e.foundAt, hgrade, ⟨e, he, hf, (heffective e he _).mpr rfl⟩,
      ⟨e', he', hg, (heffective e' he' _).mpr hat⟩⟩

theorem echo_kept (a b : Coord) :
    ∀ e ∈ echoEvidence a b, ∀ c ∈ e.finding.stated, c = e.foundAt := by
  simp [echoEvidence, bareFinding, echoFinding, Finding.stated, Coord.parse_display]

theorem echo_unlimited {a b : Coord} (hwalk : walk [a, b] echoLocal none = echoEvidence a b)
    (hvisited : ∀ c ∈ [a, b], c ∈ (walkState [a, b] echoLocal none).visited) :
    Unlimited [a, b] echoLocal none := by
  constructor
  · rw [hwalk]
    show 3 < 1000
    omega
  · constructor
    · exact hvisited
    · intro e he c hc
      have he' : e ∈ echoEvidence a b := by rwa [← hwalk]
      rw [echo_kept a b e he' c hc]
      apply hvisited
      simp only [echoEvidence, List.mem_cons, List.not_mem_nil, or_false] at he'
      rcases he' with rfl | rfl | rfl <;> simp

/-- Which digest the first of these is clustered with is up to the order of the seeds. -/
theorem echo_order_differs :
    ¬ ∀ (seeds seeds' : List Coord) (localSources localSources' : Coord → List Finding)
        (findingsFor findingsFor' : Option (Coord → List Finding)) (order order' : IterOrder)
        (queried : Coord),
      seeds.Perm seeds' →
      (∀ c, (lookupOf localSources findingsFor c).Perm (lookupOf localSources' findingsFor' c)) →
      Unlimited seeds localSources findingsFor → Unlimited seeds' localSources' findingsFor' →
        (∀ f, Has (walk seeds localSources findingsFor) f ↔
          Has (walk seeds' localSources' findingsFor') f) ∧
        SamePartition (cluster order (walk seeds localSources findingsFor) queried).clusters
          (cluster order' (walk seeds' localSources' findingsFor') queried).clusters := by
  intro h
  have hwalk : walk [chainCoord 0, chainCoord 1] echoLocal none =
      echoEvidence (chainCoord 0) (chainCoord 1) := by decide +kernel
  have hwalk' : walk [chainCoord 1, chainCoord 0] echoLocal none =
      echoEvidence (chainCoord 1) (chainCoord 0) := by decide +kernel
  obtain ⟨-, hsame⟩ := h [chainCoord 0, chainCoord 1] [chainCoord 1, chainCoord 0] echoLocal echoLocal
    none none ⟨id, fun l => .refl l⟩ ⟨id, fun l => .refl l⟩ (chainCoord 0) (.swap _ _ _)
    (fun c => .refl _) (echo_unlimited hwalk (by decide +kernel))
    (echo_unlimited hwalk' (by decide +kernel))
  have horigin := walk_oneOrigin [chainCoord 0, chainCoord 1] echoLocal none
  have horigin' := walk_oneOrigin [chainCoord 1, chainCoord 0] echoLocal none
  rw [hwalk] at horigin hsame
  rw [hwalk'] at horigin' hsame
  have hshares : Shares (echoEvidence (chainCoord 0) (chainCoord 1)) bareFinding
      (echoFinding (chainCoord 0)) := by
    rw [shares_kept (echo_kept _ _)]
    decide +kernel
  have hhas : ∃ e ∈ echoEvidence (chainCoord 0) (chainCoord 1), e.finding = bareFinding := by
    decide +kernel
  have hapart : ∀ e ∈ echoEvidence (chainCoord 1) (chainCoord 0),
      ∀ e' ∈ echoEvidence (chainCoord 1) (chainCoord 0), e.foundAt = e'.foundAt →
        e'.finding = echoFinding (chainCoord 0) → e.finding = echoFinding (chainCoord 0) := by
    decide +kernel
  have hback : ∀ {f g : Finding}, Chained (echoEvidence (chainCoord 1) (chainCoord 0)) f g →
      g = echoFinding (chainCoord 0) → f = echoFinding (chainCoord 0) := by
    intro f g hfg
    induction hfg with
    | refl => exact id
    | tail _ hstep ih =>
      intro hg
      obtain ⟨e, he, e', he', rfl, rfl, hat, -⟩ := (shares_kept (echo_kept _ _)).mp hstep
      exact ih (hapart e he e' he' hat hg)
  have hchain := hsame.chained horigin horigin' hhas (.single hshares)
  exact absurd (hback hchain rfl) (by decide)

end Hashdex
