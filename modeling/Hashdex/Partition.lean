import Hashdex.ClusterOrder

/-!
# What the clusters are of

The clusters of evidence that has each finding from one origin only, as sets: which findings and which
coordinates they have follows from which finding carries which coordinate, and from nothing else.

* `Shares`: two findings carry one identity-grade coordinate
* `chain_iff`: chains of these are the chains of links
* `ClusterAt`, `exists_clusterAt`, `clusterAt_of_mem`: the clusters are the classes
* `samePartition_of_chained`, `sameClusters_of_carries`: evidence that cannot be told apart
-/

namespace Hashdex

/-- The evidence has the finding. -/
def Has (evidence : List Evidence) (f : Finding) : Prop := ∃ e ∈ evidence, e.finding = f

/-- One finding, one origin. -/
def OneOrigin (evidence : List Evidence) : Prop :=
  ∀ e ∈ evidence, ∀ e' ∈ evidence, e.finding = e'.finding → e = e'

/-- The finding carries the coordinate: states it, or was found at it. -/
def CarriedBy (evidence : List Evidence) (f : Finding) (c : Coord) : Prop :=
  ∃ e ∈ evidence, e.finding = f ∧ Effective e c

/-- The two carry one identity-grade coordinate. -/
def Shares (evidence : List Evidence) (f g : Finding) : Prop :=
  ∃ c, isIdentityGrade c.scheme = true ∧ CarriedBy evidence f c ∧ CarriedBy evidence g c

/-- A chain of shared coordinates joins the two. -/
abbrev Chained (evidence : List Evidence) : Finding → Finding → Prop :=
  Relation.ReflTransGen (Shares evidence)

/-- The cluster is the class of the finding. -/
structure ClusterAt (evidence : List Evidence) (f : Finding) (cl : Cluster) : Prop where
  findings : ∀ g, g ∈ cl.findings ↔ Chained evidence f g
  coords : ∀ c, c ∈ cl.coords ↔ ∃ g, Chained evidence f g ∧ CarriedBy evidence g c

/-- The clusters are sets of the same findings. -/
structure SamePartition (as bs : List Cluster) : Prop where
  left : ∀ a ∈ as, ∃ b ∈ bs, ∀ f, f ∈ a.findings ↔ f ∈ b.findings
  right : ∀ b ∈ bs, ∃ a ∈ as, ∀ f, f ∈ a.findings ↔ f ∈ b.findings

/-- The same cluster, whatever the order of its findings. -/
structure SameCluster (a b : Cluster) : Prop where
  findings : ∀ f, f ∈ a.findings ↔ f ∈ b.findings
  coords : a.coords = b.coords
  anchored : a.anchored = b.anchored
  primary : a.primary = b.primary

/-- The same clusters, in whatever order. -/
structure SameClusters (as bs : List Cluster) : Prop where
  left : ∀ a ∈ as, ∃ b ∈ bs, SameCluster a b
  right : ∀ b ∈ bs, ∃ a ∈ as, SameCluster a b

section

variable {evidence : List Evidence}

theorem Has.getElem {f : Finding} (h : Has evidence f) :
    ∃ (i : ℕ) (e : Evidence), evidence[i]? = some e ∧ e.finding = f := by
  obtain ⟨e, he, hf⟩ := h
  obtain ⟨i, hi⟩ := List.mem_iff_getElem?.mp he
  exact ⟨i, e, hi, hf⟩

theorem CarriedBy.has {f : Finding} {c : Coord} (h : CarriedBy evidence f c) : Has evidence f := by
  obtain ⟨e, he, hf, -⟩ := h
  exact ⟨e, he, hf⟩

theorem Shares.symm {f g : Finding} (h : Shares evidence f g) : Shares evidence g f := by
  obtain ⟨c, hgrade, hf, hg⟩ := h
  exact ⟨c, hgrade, hg, hf⟩

theorem Chained.symm {f g : Finding} (h : Chained evidence f g) : Chained evidence g f := by
  induction h with
  | refl => exact .refl
  | tail _ hstep ih => exact .head hstep.symm ih

theorem Chained.has {f g : Finding} (h : Chained evidence f g) (hf : Has evidence f) :
    Has evidence g := by
  cases h with
  | refl => exact hf
  | tail _ hstep =>
    obtain ⟨c, -, -, hg⟩ := hstep
    exact hg.has

/-! ### Chains of findings and chains of positions -/

theorem chained_of_linked {i j : ℕ} {e : Evidence} (hi : evidence[i]? = some e)
    (h : Relation.ReflTransGen (Linked evidence) i j) :
    ∃ e', evidence[j]? = some e' ∧ Chained evidence e.finding e'.finding := by
  induction h with
  | refl => exact ⟨e, hi, .refl⟩
  | tail _ hlink ih =>
    obtain ⟨e', hj, hchain⟩ := ih
    obtain ⟨ej, ek, c, hj', hk, hgrade, hcj, hck⟩ := hlink
    have hsame : ej = e' := Option.some.inj (hj'.symm.trans hj)
    rw [← hsame] at hchain
    exact ⟨ek, hk, hchain.tail ⟨c, hgrade, ⟨ej, List.mem_of_getElem? hj', rfl, hcj⟩,
      ⟨ek, List.mem_of_getElem? hk, rfl, hck⟩⟩⟩

theorem linked_of_chained (horigin : OneOrigin evidence) {i : ℕ} {e : Evidence} {g : Finding}
    (hi : evidence[i]? = some e) (h : Chained evidence e.finding g) :
    ∃ j e', evidence[j]? = some e' ∧ e'.finding = g ∧
      Relation.ReflTransGen (Linked evidence) i j := by
  induction h with
  | refl => exact ⟨i, e, hi, rfl, .refl⟩
  | tail _ hshare ih =>
    obtain ⟨j, e', hj, hfinding, hchain⟩ := ih
    obtain ⟨c, hgrade, ⟨ef, hef, hf, hcf⟩, ⟨eg, heg, hg, hcg⟩⟩ := hshare
    obtain ⟨k, hk⟩ := List.mem_iff_getElem?.mp heg
    have hsame : ef = e' := horigin ef hef e' (List.mem_of_getElem? hj) (hf.trans hfinding.symm)
    rw [hsame] at hcf
    exact ⟨k, eg, hk, hg, hchain.tail ⟨e', eg, c, hj, hk, hgrade, hcf, hcg⟩⟩

end

/-! ### The clusters are the classes -/

section

variable {order : IterOrder} {evidence : List Evidence} {queried : Coord}

theorem mem_clusters_groups {cl : Cluster} :
    cl ∈ (cluster order evidence queried).clusters ↔
      ∃ x ∈ groupsOf evidence, mkCluster evidence queried x.2 = cl := by
  show cl ∈ List.mergeSort _ clusterLe ↔ _
  rw [(List.mergeSort_perm _ _).mem_iff, List.mem_map]
  simp only [(order.isPerm _).mem_iff]
  rfl

/-- A cluster is the class of a position. -/
theorem mem_clusters_iff {cl : Cluster} :
    cl ∈ (cluster order evidence queried).clusters ↔
      ∃ i < evidence.length, cl = mkCluster evidence queried (classMembers evidence i) := by
  rw [mem_clusters_groups]
  constructor
  · rintro ⟨x, hx, rfl⟩
    obtain ⟨i, hix, hi⟩ := group_member hx
    exact ⟨i, hi, mkCluster_group (List.mem_map_of_mem hx) hix⟩
  · rintro ⟨i, hi, rfl⟩
    obtain ⟨x, hx, hix⟩ := exists_group hi
    exact ⟨x, hx, mkCluster_group (List.mem_map_of_mem hx) hix⟩

theorem clusterAt_class (horigin : OneOrigin evidence) {i : ℕ} {e : Evidence}
    (hi : evidence[i]? = some e) :
    ClusterAt evidence e.finding (mkCluster evidence queried (classMembers evidence i)) := by
  constructor
  · intro g
    rw [mkCluster_classFindings, classFindings, List.mem_filterMap]
    simp only [mem_classMembers, Option.map_eq_some_iff]
    constructor
    · rintro ⟨j, ⟨-, hij⟩, e', hj, rfl⟩
      obtain ⟨e'', hj', hchain⟩ := chained_of_linked hi hij
      rwa [Option.some.inj (hj.symm.trans hj')]
    · intro hchain
      obtain ⟨j, e', hj, hfinding, hij⟩ := linked_of_chained horigin hi hchain
      exact ⟨j, ⟨(List.getElem?_eq_some_iff.mp hj).1, hij⟩, e', hj, hfinding⟩
  · intro c
    rw [mem_classCoords]
    constructor
    · rintro ⟨j, e', hij, hj, hc⟩
      obtain ⟨e'', hj', hchain⟩ := chained_of_linked hi hij
      rw [← Option.some.inj (hj.symm.trans hj')] at hchain
      exact ⟨e'.finding, hchain, e', List.mem_of_getElem? hj, rfl, hc⟩
    · rintro ⟨g, hchain, e', he', hg, hc⟩
      obtain ⟨j, e'', hj, hfinding, hij⟩ := linked_of_chained horigin hi hchain
      have hsame : e' = e'' :=
        horigin e' he' e'' (List.mem_of_getElem? hj) (hg.trans hfinding.symm)
      rw [hsame] at hc
      exact ⟨j, e'', hij, hj, hc⟩

/-- Each finding has its class among the clusters. -/
theorem exists_clusterAt (horigin : OneOrigin evidence) {f : Finding} (hf : Has evidence f) :
    ∃ cl ∈ (cluster order evidence queried).clusters, ClusterAt evidence f cl := by
  obtain ⟨i, e, hi, rfl⟩ := hf.getElem
  exact ⟨_, mem_clusters_iff.mpr ⟨i, (List.getElem?_eq_some_iff.mp hi).1, rfl⟩,
    clusterAt_class horigin hi⟩

/-- Each cluster is the class of a finding. -/
theorem clusterAt_of_mem (horigin : OneOrigin evidence) {cl : Cluster}
    (hcl : cl ∈ (cluster order evidence queried).clusters) :
    ∃ f, Has evidence f ∧ ClusterAt evidence f cl := by
  obtain ⟨i, hi, rfl⟩ := mem_clusters_iff.mp hcl
  have hget : evidence[i]? = some evidence[i] := List.getElem?_eq_getElem hi
  exact ⟨_, ⟨evidence[i], List.getElem_mem hi, rfl⟩, clusterAt_class horigin hget⟩

end

/-! ### Evidence that cannot be told apart -/

section

variable {order order' : IterOrder} {evidence evidence' : List Evidence} {queried : Coord}

theorem shares_congr (h : ∀ f c, CarriedBy evidence f c ↔ CarriedBy evidence' f c) :
    Shares evidence = Shares evidence' := by
  funext f g
  simp only [Shares, h]

/-- The same findings, chained alike. -/
theorem samePartition_of_chained {queried' : Coord} (horigin : OneOrigin evidence)
    (horigin' : OneOrigin evidence') (hhas : ∀ f, Has evidence f ↔ Has evidence' f)
    (hchained : ∀ f g, Chained evidence f g ↔ Chained evidence' f g) :
    SamePartition (cluster order evidence queried).clusters
      (cluster order' evidence' queried').clusters := by
  constructor
  · intro a ha
    obtain ⟨f, hf, hat⟩ := clusterAt_of_mem horigin ha
    obtain ⟨b, hb, hbt⟩ := exists_clusterAt horigin' ((hhas f).mp hf)
    refine ⟨b, hb, fun g => ?_⟩
    rw [hat.findings, hbt.findings, hchained]
  · intro b hb
    obtain ⟨f, hf, hbt⟩ := clusterAt_of_mem horigin' hb
    obtain ⟨a, ha, hat⟩ := exists_clusterAt horigin ((hhas f).mpr hf)
    refine ⟨a, ha, fun g => ?_⟩
    rw [hat.findings, hbt.findings, hchained]

theorem SamePartition.has {queried' : Coord} (horigin : OneOrigin evidence)
    (horigin' : OneOrigin evidence')
    (h : SamePartition (cluster order evidence queried).clusters
      (cluster order' evidence' queried').clusters) {f : Finding} (hf : Has evidence f) :
    Has evidence' f := by
  obtain ⟨a, ha, hat⟩ := exists_clusterAt horigin hf
  obtain ⟨b, hb, hsame⟩ := h.left a ha
  obtain ⟨g, hg, hbt⟩ := clusterAt_of_mem horigin' hb
  exact Chained.has ((hbt.findings f).mp ((hsame f).mp ((hat.findings f).mpr .refl))) hg

theorem SamePartition.chained {queried' : Coord} (horigin : OneOrigin evidence)
    (horigin' : OneOrigin evidence')
    (h : SamePartition (cluster order evidence queried).clusters
      (cluster order' evidence' queried').clusters)
    {f g : Finding} (hf : Has evidence f) (hchain : Chained evidence f g) : Chained evidence' f g := by
  obtain ⟨a, ha, hat⟩ := exists_clusterAt horigin hf
  obtain ⟨b, hb, hsame⟩ := h.left a ha
  obtain ⟨f', -, hbt⟩ := clusterAt_of_mem horigin' hb
  have hf' : Chained evidence' f' f :=
    (hbt.findings f).mp ((hsame f).mp ((hat.findings f).mpr .refl))
  have hg' : Chained evidence' f' g :=
    (hbt.findings g).mp ((hsame g).mp ((hat.findings g).mpr hchain))
  exact hf'.symm.trans hg'

theorem sameCluster_of_mem {a b : Cluster} (ha : a ∈ (cluster order evidence queried).clusters)
    (hb : b ∈ (cluster order' evidence' queried).clusters)
    (hfindings : ∀ f, f ∈ a.findings ↔ f ∈ b.findings) (hcoords : ∀ c, c ∈ a.coords ↔ c ∈ b.coords) :
    SameCluster a b := by
  obtain ⟨i, -, rfl⟩ := mem_clusters_iff.mp ha
  obtain ⟨j, -, rfl⟩ := mem_clusters_iff.mp hb
  have hlist : (mkCluster evidence queried (classMembers evidence i)).coords =
      (mkCluster evidence' queried (classMembers evidence' j)).coords := by
    apply sortDedup_eq_iff.mpr
    intro c
    exact mem_sortDedup.symm.trans ((hcoords c).trans mem_sortDedup)
  constructor
  · exact hfindings
  · exact hlist
  · exact congrArg (fun cs => cs.any fun c => isIdentityGrade c.scheme) hlist
  · exact congrArg (fun cs => cs.contains queried) hlist

/-- The same findings, and each carries the same coordinates. -/
theorem sameClusters_of_carries (horigin : OneOrigin evidence) (horigin' : OneOrigin evidence')
    (hhas : ∀ f, Has evidence f ↔ Has evidence' f)
    (hcarries : ∀ f c, CarriedBy evidence f c ↔ CarriedBy evidence' f c) :
    SameClusters (cluster order evidence queried).clusters
      (cluster order' evidence' queried).clusters := by
  have hshares : Shares evidence = Shares evidence' := shares_congr hcarries
  have hsame : ∀ {f a b}, a ∈ (cluster order evidence queried).clusters →
      b ∈ (cluster order' evidence' queried).clusters → ClusterAt evidence f a →
      ClusterAt evidence' f b → SameCluster a b := by
    intro f a b ha hb hat hbt
    apply sameCluster_of_mem ha hb
    · intro g
      rw [hat.findings, hbt.findings, Chained, hshares]
    · intro c
      rw [hat.coords, hbt.coords, Chained, hshares]
      simp only [hcarries]
  constructor
  · intro a ha
    obtain ⟨f, hf, hat⟩ := clusterAt_of_mem horigin ha
    obtain ⟨b, hb, hbt⟩ := exists_clusterAt horigin' ((hhas f).mp hf)
    exact ⟨b, hb, hsame ha hb hat hbt⟩
  · intro b hb
    obtain ⟨f, hf, hbt⟩ := clusterAt_of_mem horigin' hb
    obtain ⟨a, ha, hat⟩ := exists_clusterAt horigin ((hhas f).mpr hf)
    exact ⟨a, ha, hsame ha hb hat hbt⟩

end

theorem SameClusters.partition {as bs : List Cluster} (h : SameClusters as bs) :
    SamePartition as bs where
  left a ha := by
    obtain ⟨b, hb, hsame⟩ := h.left a ha
    exact ⟨b, hb, hsame.findings⟩
  right b hb := by
    obtain ⟨a, ha, hsame⟩ := h.right b hb
    exact ⟨a, ha, hsame.findings⟩

/-! ### Collisions -/

section

variable {order : IterOrder} {evidence : List Evidence} {queried : Coord}

theorem groups_disjoint : (groupsOf evidence).Pairwise fun x y => List.Disjoint x.2 y.2 := by
  obtain ⟨hflat, -, -⟩ := groupAll_spec (linkAll_represents evidence)
  have hnodup : ((groupsOf evidence).map Prod.snd).flatten.Nodup :=
    hflat.nodup_iff.mpr List.nodup_range
  exact List.pairwise_map.mp (List.nodup_flatten.mp hnodup).2

/-- In an anchored class each finding carries an identity-grade coordinate. -/
theorem graded_of_anchored {i : ℕ} {e : Evidence} (hi : evidence[i]? = some e)
    (hanchored : (mkCluster evidence queried (classMembers evidence i)).anchored = true) :
    ∃ c, isIdentityGrade c.scheme = true ∧ Effective e c := by
  obtain ⟨c, ⟨j, e', hij, hj, hc⟩, hgrade⟩ := class_anchored.mp hanchored
  cases hij.cases_head with
  | inl heq =>
    rw [← heq] at hj
    rw [← Option.some.inj (hi.symm.trans hj)] at hc
    exact ⟨c, hgrade, hc⟩
  | inr hstep =>
    obtain ⟨k, ⟨ei, ek, d, hi', -, hgrade', hd, -⟩, -⟩ := hstep
    rw [← Option.some.inj (hi.symm.trans hi')] at hd
    exact ⟨d, hgrade', hd⟩

/-- Two groups are two classes, and an anchored one has no finding of another. -/
theorem groups_apart (horigin : OneOrigin evidence) {x y : ℕ × List ℕ} (hx : x ∈ groupsOf evidence)
    (hy : y ∈ groupsOf evidence) (hdisjoint : List.Disjoint x.2 y.2)
    (hanchored : (mkCluster evidence queried x.2).anchored = true) :
    ∃ f ∈ (mkCluster evidence queried x.2).findings,
      f ∉ (mkCluster evidence queried y.2).findings := by
  obtain ⟨i, hix, hi⟩ := group_member hx
  obtain ⟨j, hjy, hj⟩ := group_member hy
  have hgroupx : x.2 ∈ (groupsOf evidence).map Prod.snd := List.mem_map_of_mem hx
  have hgroupy : y.2 ∈ (groupsOf evidence).map Prod.snd := List.mem_map_of_mem hy
  have hgeti : evidence[i]? = some evidence[i] := List.getElem?_eq_getElem hi
  have hgetj : evidence[j]? = some evidence[j] := List.getElem?_eq_getElem hj
  rw [mkCluster_group hgroupx hix] at hanchored ⊢
  rw [mkCluster_group hgroupy hjy]
  refine ⟨evidence[i].finding, ((clusterAt_class horigin hgeti).findings _).mpr .refl, ?_⟩
  intro hmem
  obtain ⟨k, e, hk, hfinding, hjk⟩ :=
    linked_of_chained horigin hgetj (((clusterAt_class horigin hgetj).findings _).mp hmem)
  have hsame : e = evidence[i] :=
    horigin e (List.mem_of_getElem? hk) _ (List.getElem_mem hi) hfinding
  obtain ⟨c, hgrade, hc⟩ := graded_of_anchored hgeti hanchored
  rw [hsame] at hk
  have hji : Relation.ReflTransGen (Linked evidence) j i :=
    hjk.tail ⟨evidence[i], evidence[i], c, hk, hgeti, hgrade, hc, hc⟩
  obtain ⟨hflat, -, hclass⟩ := groupAll_spec (linkAll_represents evidence)
  have hnodup : ((groupsOf evidence).map Prod.snd).flatten.Nodup :=
    hflat.nodup_iff.mpr List.nodup_range
  obtain ⟨g, hg, hjg, hig⟩ := (hclass j i hj hi).mpr (eqvGen_linked.mpr hji)
  have : Std.Symm (@List.Disjoint ℕ) := ⟨fun _ _ h => h.symm⟩
  have hunique : ∀ {g' : List ℕ} {n : ℕ}, g' ∈ (groupsOf evidence).map Prod.snd → n ∈ g → n ∈ g' →
      g = g' := by
    intro g' n hg' hn hn'
    by_contra hne
    exact (List.nodup_flatten.mp hnodup).2.forall hg hg' hne hn hn'
  have hgx : g = x.2 := hunique hgroupx hig hix
  have hgy : g = y.2 := hunique hgroupy hjg hjy
  rw [← hgx, ← hgy] at hdisjoint
  exact hdisjoint hig hig

/-- **Collisions.**  A collision is two anchored primary clusters, one with a finding that the other does
not have. -/
theorem collision_iff (horigin : OneOrigin evidence) :
    (cluster order evidence queried).collision = true ↔
      isIdentityGrade queried.scheme = false ∧
      ∃ a ∈ (cluster order evidence queried).clusters,
        ∃ b ∈ (cluster order evidence queried).clusters,
          (a.anchored = true ∧ a.primary = true) ∧ (b.anchored = true ∧ b.primary = true) ∧
            ∃ f ∈ a.findings, f ∉ b.findings := by
  have hperm : (cluster order evidence queried).clusters.Perm
      ((groupsOf evidence).map fun x => mkCluster evidence queried x.2) :=
    (List.mergeSort_perm _ _).trans ((order.isPerm _).map _)
  have hcollision : (cluster order evidence queried).collision = true ↔
      isIdentityGrade queried.scheme = false ∧ 2 ≤ ((cluster order evidence queried).clusters.filter
        fun cl => cl.anchored && cl.primary).length := by
    simp [cluster]
  rw [hcollision]
  apply and_congr_right
  intro _
  constructor
  · intro htwo
    rw [(hperm.filter _).length_eq, List.filter_map, List.length_map] at htwo
    have hpair := (@groups_disjoint evidence).filter
      ((fun cl : Cluster => cl.anchored && cl.primary) ∘ fun x => mkCluster evidence queried x.2)
    have hmem : ∀ x ∈ (groupsOf evidence).filter ((fun cl : Cluster => cl.anchored && cl.primary) ∘
        fun x => mkCluster evidence queried x.2), x ∈ groupsOf evidence ∧
          (mkCluster evidence queried x.2).anchored = true ∧
            (mkCluster evidence queried x.2).primary = true := by
      intro x hx
      simpa using List.mem_filter.mp hx
    generalize (groupsOf evidence).filter _ = groups at htwo hpair hmem
    cases groups with
    | nil => simp at htwo
    | cons x rest =>
      cases rest with
      | nil => simp at htwo
      | cons y rest =>
        obtain ⟨hx, hpx⟩ := hmem x List.mem_cons_self
        obtain ⟨hy, hpy⟩ := hmem y (by simp)
        have hdisjoint := (List.pairwise_cons.mp hpair).1 y List.mem_cons_self
        have hcluster : ∀ z ∈ groupsOf evidence,
            mkCluster evidence queried z.2 ∈ (cluster order evidence queried).clusters := by
          intro z hz
          exact hperm.mem_iff.mpr (List.mem_map_of_mem hz)
        exact ⟨_, hcluster x hx, _, hcluster y hy, hpx, hpy,
          groups_apart horigin hx hy hdisjoint hpx.1⟩
  · rintro ⟨a, ha, b, hb, hpa, hpb, f, hfa, hfb⟩
    have hne : a ≠ b := by
      rintro rfl
      exact hfb hfa
    have hnodup : [a, b].Nodup := by simp [hne]
    apply List.Subperm.length_le (List.subperm_of_subset hnodup ?_)
    intro cl hcl
    rw [List.mem_filter, Bool.and_eq_true]
    cases List.mem_cons.mp hcl with
    | inl heq =>
      rw [heq]
      exact ⟨ha, hpa⟩
    | inr hcl =>
      rw [List.mem_singleton.mp hcl]
      exact ⟨hb, hpb⟩

end

section

variable {order order' : IterOrder} {evidence evidence' : List Evidence} {queried : Coord}

theorem SameClusters.collision (horigin : OneOrigin evidence) (horigin' : OneOrigin evidence')
    (h : SameClusters (cluster order evidence queried).clusters
      (cluster order' evidence' queried).clusters) :
    (cluster order evidence queried).collision = (cluster order' evidence' queried).collision := by
  rw [Bool.eq_iff_iff, collision_iff horigin, collision_iff horigin']
  apply and_congr_right
  intro _
  constructor
  · rintro ⟨a, ha, b, hb, hpa, hpb, f, hfa, hfb⟩
    obtain ⟨a', ha', hsa⟩ := h.left a ha
    obtain ⟨b', hb', hsb⟩ := h.left b hb
    rw [hsa.anchored, hsa.primary] at hpa
    rw [hsb.anchored, hsb.primary] at hpb
    exact ⟨a', ha', b', hb', hpa, hpb, f, (hsa.findings f).mp hfa, mt (hsb.findings f).mpr hfb⟩
  · rintro ⟨a, ha, b, hb, hpa, hpb, f, hfa, hfb⟩
    obtain ⟨a', ha', hsa⟩ := h.right a ha
    obtain ⟨b', hb', hsb⟩ := h.right b hb
    rw [← hsa.anchored, ← hsa.primary] at hpa
    rw [← hsb.anchored, ← hsb.primary] at hpb
    exact ⟨a', ha', b', hb', hpa, hpb, f, (hsa.findings f).mpr hfa, mt (hsb.findings f).mp hfb⟩

end

end Hashdex
