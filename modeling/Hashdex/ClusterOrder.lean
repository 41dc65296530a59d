import Hashdex.Clustering
import Hashdex.Lib.StableSort

/-!
# The order of the clusters

The groups come out of a hash map and are sorted by what they are, how large they are and their first
coordinate, so two groups alike in all of that stay in the order of the map.

* `sortDedup_eq_iff`: the sorted coordinates are those of a set
* `Alike`, `Same`: what the order looks at, and what a cluster is
* `cluster_determined_iff`: when the list of clusters does not depend on the map
-/

namespace Hashdex

open StableSort

/-! ### The order of coordinates -/

theorem asStr_injective : Function.Injective Scheme.asStr := by
  intro s t h
  cases s <;> cases t <;> first | rfl | exact absurd h (by decide)

theorem coordLe_iff {a b : Coord} : coordLe a b = true ↔
    a.scheme.asStr < b.scheme.asStr ∨ (a.scheme = b.scheme ∧ a.digest ≤ b.digest) := by
  simp [coordLe]

theorem coordLe_trans (a b c : Coord) (hab : coordLe a b = true) (hbc : coordLe b c = true) :
    coordLe a c = true := by
  rw [coordLe_iff] at *
  cases hab with
  | inl hab =>
    cases hbc with
    | inl hbc => exact .inl (String.lt_trans hab hbc)
    | inr hbc => exact .inl (by rwa [← hbc.1])
  | inr hab =>
    cases hbc with
    | inl hbc => exact .inl (by rwa [hab.1])
    | inr hbc => exact .inr ⟨hab.1.trans hbc.1, List.le_trans hab.2 hbc.2⟩

theorem coordLe_total (a b : Coord) : (coordLe a b || coordLe b a) = true := by
  rw [Bool.or_eq_true, coordLe_iff, coordLe_iff]
  by_cases hab : a.scheme.asStr < b.scheme.asStr
  · exact .inl (.inl hab)
  · by_cases hba : b.scheme.asStr < a.scheme.asStr
    · exact .inr (.inl hba)
    · have hscheme : a.scheme = b.scheme :=
        asStr_injective (String.le_antisymm (String.not_lt.mp hba) (String.not_lt.mp hab))
      cases List.le_total a.digest b.digest with
      | inl hle => exact .inl (.inr ⟨hscheme, hle⟩)
      | inr hle => exact .inr (.inr ⟨hscheme.symm, hle⟩)

theorem coordLe_antisymm (a b : Coord) (hab : coordLe a b = true) (hba : coordLe b a = true) :
    a = b := by
  rw [coordLe_iff] at *
  cases hab with
  | inl hab =>
    cases hba with
    | inl hba => exact absurd (String.lt_trans hab hba) (String.lt_irrefl _)
    | inr hba =>
      rw [hba.1] at hab
      exact absurd hab (String.lt_irrefl _)
  | inr hab =>
    cases hba with
    | inl hba =>
      rw [hab.1] at hba
      exact absurd hba (String.lt_irrefl _)
    | inr hba =>
      exact Coord.ext hab.1 (List.le_antisymm hab.2 hba.2)

theorem sortDedup_strict (cs : List Coord) :
    (sortDedup cs).Pairwise fun a b => coordLe a b = true ∧ a ≠ b :=
  pairwise_dedupRuns coordLe_antisymm (List.pairwise_mergeSort coordLe_trans coordLe_total cs)

/-- The coordinates, sorted, are those of a set. -/
theorem sortDedup_eq_iff {cs ds : List Coord} :
    sortDedup cs = sortDedup ds ↔ ∀ c, c ∈ cs ↔ c ∈ ds := by
  constructor
  · intro h c
    rw [← mem_sortDedup, h, mem_sortDedup]
  · intro h
    have hnodup : ∀ cs, (sortDedup cs).Nodup := fun cs => (sortDedup_strict cs).imp fun hab => hab.2
    have hperm : (sortDedup cs).Perm (sortDedup ds) := by
      rw [List.perm_ext_iff_of_nodup (hnodup cs) (hnodup ds)]
      intro c
      rw [mem_sortDedup, mem_sortDedup, h]
    have hsorted : ∀ cs, (sortDedup cs).Pairwise fun a b => coordLe a b = true :=
      fun cs => (sortDedup_strict cs).imp fun hab => hab.1
    exact hperm.eq_of_pairwise (fun a b _ _ => coordLe_antisymm a b) (hsorted cs) (hsorted ds)

theorem head_sortDedup {cs : List Coord} {c : Coord} :
    (sortDedup cs).head? = some c ↔ c ∈ cs ∧ ∀ d ∈ cs, coordLe c d = true := by
  have hrefl : ∀ c, coordLe c c = true := by
    intro c
    simpa using coordLe_total c c
  have hstrict := sortDedup_strict cs
  have hmem : ∀ d, d ∈ sortDedup cs ↔ d ∈ cs := fun d => mem_sortDedup
  constructor
  · intro h
    obtain ⟨rest, hsplit⟩ := List.head?_eq_some_iff.mp h
    rw [hsplit] at hstrict hmem
    constructor
    · exact (hmem c).mp List.mem_cons_self
    · intro d hd
      cases List.mem_cons.mp ((hmem d).mpr hd) with
      | inl heq =>
        rw [heq]
        exact hrefl c
      | inr hrest => exact ((List.pairwise_cons.mp hstrict).1 d hrest).1
  · rintro ⟨hc, hleast⟩
    cases hlist : sortDedup cs with
    | nil =>
      have := (hmem c).mpr hc
      rw [hlist] at this
      exact absurd this List.not_mem_nil
    | cons d rest =>
      rw [hlist] at hstrict hmem
      have hcd : coordLe c d = true := hleast d ((hmem d).mp List.mem_cons_self)
      have hdc : coordLe d c = true := by
        cases List.mem_cons.mp ((hmem c).mpr hc) with
        | inl heq =>
          rw [heq]
          exact hrefl d
        | inr hrest => exact ((List.pairwise_cons.mp hstrict).1 c hrest).1
      rw [coordLe_antisymm c d hcd hdc]
      rfl

/-! ### The order of clusters -/

/-- The comparison that `sort_by` is given. -/
def clusterCmp (a b : Cluster) : Ordering :=
  (compare b.primary a.primary).then <|
    (compare b.anchored a.anchored).then <|
    (compare b.findings.length a.findings.length).then <|
    compare (a.coords.head?.map Coord.display) (b.coords.head?.map Coord.display)

theorem clusterLe_eq (a b : Cluster) : clusterLe a b = (clusterCmp a b).isLE := by
  show (clusterCmp a b != .gt) = (clusterCmp a b).isLE
  cases clusterCmp a b <;> rfl

instance : Std.TransCmp clusterCmp := by
  have h₁ : Std.TransCmp fun a b : Cluster => compare b.primary a.primary :=
    @Std.TransCmp.opposite _ (compareOn Cluster.primary) inferInstance
  have h₂ : Std.TransCmp fun a b : Cluster => compare b.anchored a.anchored :=
    @Std.TransCmp.opposite _ (compareOn Cluster.anchored) inferInstance
  have h₃ : Std.TransCmp fun a b : Cluster => compare b.findings.length a.findings.length :=
    @Std.TransCmp.opposite _ (compareOn fun a : Cluster => a.findings.length) inferInstance
  have h₄ : Std.TransCmp (compareOn fun a : Cluster => a.coords.head?.map Coord.display) :=
    inferInstance
  show Std.TransCmp (compareLex _ (compareLex _ (compareLex _
    (compareOn fun a : Cluster => a.coords.head?.map Coord.display))))
  infer_instance

theorem clusterCmp_swap (a b : Cluster) : clusterCmp b a = (clusterCmp a b).swap :=
  Std.OrientedCmp.eq_swap

theorem clusterLe_trans (a b c : Cluster) (hab : clusterLe a b = true) (hbc : clusterLe b c = true) :
    clusterLe a c = true := by
  rw [clusterLe_eq] at *
  exact Std.TransCmp.isLE_trans hab hbc

theorem clusterLe_total (a b : Cluster) : (clusterLe a b || clusterLe b a) = true := by
  rw [clusterLe_eq, clusterLe_eq, clusterCmp_swap a b]
  cases clusterCmp a b <;> rfl

theorem clusters_tied_iff {a b : Cluster} : tied clusterLe a b = true ↔
    a.primary = b.primary ∧ a.anchored = b.anchored ∧ a.findings.length = b.findings.length ∧
      a.coords.head? = b.coords.head? := by
  have hdisplay : Function.Injective Coord.display := fun _ _ h => Coord.display_injective h
  have heq : tied clusterLe a b = true ↔ clusterCmp a b = .eq := by
    rw [tied_iff, clusterLe_eq, clusterLe_eq, clusterCmp_swap a b]
    cases clusterCmp a b <;> simp
  rw [heq, clusterCmp]
  simp only [Ordering.then_eq_eq, Std.LawfulEqOrd.compare_eq_iff_eq]
  rw [(Option.map_injective hdisplay).eq_iff]
  tauto

/-! ### The classes of chained links -/

section

variable (evidence : List Evidence)

open Classical in
/-- The findings that a chain of links joins to the `i`th, in the order of the evidence. -/
noncomputable def classMembers (i : ℕ) : List ℕ :=
  (List.range evidence.length).filter fun j => Relation.ReflTransGen (Linked evidence) i j

noncomputable def classFindings (i : ℕ) : List Finding :=
  (classMembers evidence i).filterMap fun j => (evidence[j]?).map (·.finding)

/-- A finding of the class effectively carries the coordinate. -/
def Carries (i : ℕ) (c : Coord) : Prop :=
  ∃ j e, Relation.ReflTransGen (Linked evidence) i j ∧ evidence[j]? = some e ∧ Effective e c

/-- The least coordinate of the class. -/
def FirstCoord (i : ℕ) (c : Coord) : Prop :=
  Carries evidence i c ∧ ∀ d, Carries evidence i d → coordLe c d = true

/-- Alike in all that the clusters are ordered by: whether they have the queried coordinate, whether they
have one of identity grade, how many findings they have, and which coordinate comes first. -/
structure Alike (queried : Coord) (i j : ℕ) : Prop where
  primary : Carries evidence i queried ↔ Carries evidence j queried
  anchored : (∃ c, Carries evidence i c ∧ isIdentityGrade c.scheme = true) ↔
    ∃ c, Carries evidence j c ∧ isIdentityGrade c.scheme = true
  size : (classFindings evidence i).length = (classFindings evidence j).length
  first : ∀ c, FirstCoord evidence i c ↔ FirstCoord evidence j c

/-- The same findings in the same order, with the same coordinates. -/
structure Same (i j : ℕ) : Prop where
  findings : classFindings evidence i = classFindings evidence j
  coords : ∀ c, Carries evidence i c ↔ Carries evidence j c

end

section

variable {evidence : List Evidence} {queried : Coord}

theorem mem_classMembers {i j : ℕ} :
    j ∈ classMembers evidence i ↔
      j < evidence.length ∧ Relation.ReflTransGen (Linked evidence) i j := by
  simp [classMembers]

theorem mem_mkCluster_coords {g : List ℕ} {c : Coord} :
    c ∈ (mkCluster evidence queried g).coords ↔
      ∃ i ∈ g, ∃ e, evidence[i]? = some e ∧ Effective e c := by
  show c ∈ sortDedup _ ↔ _
  rw [mem_sortDedup, List.mem_flatMap]
  constructor
  · rintro ⟨i, hi, hc⟩
    cases he : evidence[i]? with
    | none =>
      rw [he] at hc
      exact absurd hc List.not_mem_nil
    | some e =>
      rw [he] at hc
      exact ⟨i, hi, e, he, mem_coordsOf.mp hc⟩
  · rintro ⟨i, hi, e, he, hc⟩
    refine ⟨i, hi, ?_⟩
    rw [he]
    exact mem_coordsOf.mpr hc

/-- A group is one cluster in whatever order its members are. -/
theorem mkCluster_perm {g g' : List ℕ} (h : g.Perm g') :
    mkCluster evidence queried g = mkCluster evidence queried g' := by
  have hmembers : g.mergeSort (fun a b => decide (a ≤ b)) =
      g'.mergeSort fun a b => decide (a ≤ b) := by
    apply mergeSort_eq_of_perm
    · intro a b c
      simp only [decide_eq_true_eq]
      omega
    · intro a b
      simp only [Bool.or_eq_true, decide_eq_true_eq]
      omega
    · exact h
    · intro a _ b _ htied
      simp only [tied, Bool.and_eq_true, decide_eq_true_eq] at htied
      omega
  have hcoords : sortDedup (g.flatMap fun i => ((evidence[i]?).map coordsOf).getD []) =
      sortDedup (g'.flatMap fun i => ((evidence[i]?).map coordsOf).getD []) := by
    rw [sortDedup_eq_iff]
    exact fun c => (h.flatMap_right _).mem_iff
  rw [mkCluster, mkCluster, hmembers, hcoords]

theorem mem_classCoords {i : ℕ} {c : Coord} :
    c ∈ (mkCluster evidence queried (classMembers evidence i)).coords ↔ Carries evidence i c := by
  rw [mem_mkCluster_coords]
  constructor
  · rintro ⟨j, hj, e, he, hc⟩
    exact ⟨j, e, (mem_classMembers.mp hj).2, he, hc⟩
  · rintro ⟨j, e, hj, he, hc⟩
    exact ⟨j, mem_classMembers.mpr ⟨(List.getElem?_eq_some_iff.mp he).1, hj⟩, e, he, hc⟩

theorem mkCluster_classFindings (i : ℕ) :
    (mkCluster evidence queried (classMembers evidence i)).findings = classFindings evidence i := by
  have hsorted : (classMembers evidence i).Pairwise fun a b => decide (a ≤ b) = true := by
    apply (List.Pairwise.filter _ List.pairwise_lt_range).imp
    intro a b hab
    exact decide_eq_true hab.le
  show ((classMembers evidence i).mergeSort _).filterMap _ = _
  rw [List.mergeSort_of_pairwise hsorted]
  rfl

theorem head_classCoords {i : ℕ} {c : Coord} :
    (mkCluster evidence queried (classMembers evidence i)).coords.head? = some c ↔
      FirstCoord evidence i c := by
  have hmem : ∀ c, c ∈ (classMembers evidence i).flatMap
      (fun i => ((evidence[i]?).map coordsOf).getD []) ↔ Carries evidence i c := by
    intro c
    rw [← @mem_classCoords evidence queried]
    exact mem_sortDedup.symm
  show (sortDedup _).head? = some c ↔ _
  rw [head_sortDedup, hmem]
  simp only [hmem]
  rfl

theorem class_anchored {i : ℕ} :
    (mkCluster evidence queried (classMembers evidence i)).anchored = true ↔
      ∃ c, Carries evidence i c ∧ isIdentityGrade c.scheme = true := by
  show ((mkCluster evidence queried (classMembers evidence i)).coords.any _) = true ↔ _
  simp only [List.any_eq_true, mem_classCoords]

theorem class_primary {i : ℕ} :
    (mkCluster evidence queried (classMembers evidence i)).primary = true ↔
      Carries evidence i queried := by
  show ((mkCluster evidence queried (classMembers evidence i)).coords.contains queried) = true ↔ _
  rw [List.contains_iff_mem, mem_classCoords]

theorem class_tied_iff {i j : ℕ} :
    tied clusterLe (mkCluster evidence queried (classMembers evidence i))
        (mkCluster evidence queried (classMembers evidence j)) = true ↔
      Alike evidence queried i j := by
  have hbool : ∀ a b : Bool, a = b ↔ (a = true ↔ b = true) := fun a b => Bool.eq_iff_iff
  rw [clusters_tied_iff, mkCluster_classFindings, mkCluster_classFindings,
    hbool (mkCluster evidence queried _).primary, class_primary, class_primary,
    hbool (mkCluster evidence queried _).anchored, class_anchored, class_anchored]
  constructor
  · rintro ⟨hprimary, hanchored, hsize, hfirst⟩
    refine ⟨hprimary, hanchored, hsize, fun c => ?_⟩
    rw [← @head_classCoords evidence queried, hfirst, head_classCoords]
  · rintro ⟨hprimary, hanchored, hsize, hfirst⟩
    refine ⟨hprimary, hanchored, hsize, Option.ext fun c => ?_⟩
    rw [head_classCoords, hfirst, head_classCoords]

theorem class_eq_iff {i j : ℕ} :
    mkCluster evidence queried (classMembers evidence i) =
        mkCluster evidence queried (classMembers evidence j) ↔ Same evidence i j := by
  constructor
  · intro h
    constructor
    · rw [← @mkCluster_classFindings evidence queried, h, mkCluster_classFindings]
    · intro c
      rw [← @mem_classCoords evidence queried, h, mem_classCoords]
  · rintro ⟨hfindings, hcoords⟩
    have hlist : (mkCluster evidence queried (classMembers evidence i)).coords =
        (mkCluster evidence queried (classMembers evidence j)).coords := by
      apply sortDedup_eq_iff.mpr
      intro c
      have hc := hcoords c
      rw [← @mem_classCoords evidence queried, ← @mem_classCoords evidence queried] at hc
      exact mem_sortDedup.symm.trans (hc.trans mem_sortDedup)
    have hall : ∀ g, mkCluster evidence queried g =
        ⟨(mkCluster evidence queried g).findings, (mkCluster evidence queried g).coords,
          (mkCluster evidence queried g).coords.any fun c => isIdentityGrade c.scheme,
          (mkCluster evidence queried g).coords.contains queried⟩ := fun _ => rfl
    rw [hall (classMembers evidence i), hall (classMembers evidence j), hlist,
      mkCluster_classFindings, mkCluster_classFindings, hfindings]

/-! ### The groups are the classes -/

/-- What the hash map holds. -/
def groupsOf (evidence : List Evidence) : List (ℕ × List ℕ) :=
  groupAll (linkAll evidence).parent evidence.length

/-- A group is the class of each of its members. -/
theorem mkCluster_group {g : List ℕ} (hg : g ∈ (groupsOf evidence).map Prod.snd) {i : ℕ}
    (hi : i ∈ g) :
    mkCluster evidence queried g = mkCluster evidence queried (classMembers evidence i) := by
  obtain ⟨hflat, _, hclass⟩ := groupAll_spec (linkAll_represents evidence)
  have hlt : ∀ j ∈ g, j < evidence.length := fun j hj =>
    List.mem_range.mp (hflat.mem_iff.mp (List.mem_flatten.mpr ⟨g, hg, hj⟩))
  have hnodup : ((groupsOf evidence).map Prod.snd).flatten.Nodup :=
    hflat.nodup_iff.mpr List.nodup_range
  apply mkCluster_perm
  have hnodup' : (classMembers evidence i).Nodup := List.Nodup.filter _ List.nodup_range
  rw [List.perm_ext_iff_of_nodup ((List.nodup_flatten.mp hnodup).1 g hg) hnodup']
  intro j
  rw [mem_classMembers]
  constructor
  · intro hj
    exact ⟨hlt j hj,
      eqvGen_linked.mp ((hclass i j (hlt i hi) (hlt j hj)).mp ⟨g, hg, hi, hj⟩)⟩
  · rintro ⟨hj, hij⟩
    obtain ⟨g', hg', hi', hj'⟩ := (hclass i j (hlt i hi) hj).mpr (eqvGen_linked.mpr hij)
    have hsame : g = g' := by
      by_contra hne
      have : Std.Symm (@List.Disjoint ℕ) := ⟨fun _ _ h => h.symm⟩
      have hdisjoint := (List.nodup_flatten.mp hnodup).2.forall hg hg' hne
      exact hdisjoint hi hi'
    rwa [hsame]

theorem exists_group {i : ℕ} (hi : i < evidence.length) :
    ∃ x ∈ groupsOf evidence, i ∈ x.2 := by
  obtain ⟨hflat, _, _⟩ := groupAll_spec (linkAll_represents evidence)
  obtain ⟨g, hg, hig⟩ := List.mem_flatten.mp (hflat.mem_iff.mpr (List.mem_range.mpr hi))
  obtain ⟨x, hx, rfl⟩ := List.mem_map.mp hg
  exact ⟨x, hx, hig⟩

theorem group_member {x : ℕ × List ℕ} (hx : x ∈ groupsOf evidence) :
    ∃ i ∈ x.2, i < evidence.length := by
  obtain ⟨hflat, hne, _⟩ := groupAll_spec (linkAll_represents evidence)
  have hg : x.2 ∈ (groupsOf evidence).map Prod.snd := List.mem_map.mpr ⟨x, hx, rfl⟩
  obtain ⟨i, hi⟩ := List.exists_mem_of_ne_nil _ (hne x.2 hg)
  exact ⟨i, hi, List.mem_range.mp (hflat.mem_iff.mp (List.mem_flatten.mpr ⟨x.2, hg, hi⟩))⟩

/-- The order that puts one list into that order, and leaves others as they are. -/
def orderOf {l k : List (ℕ × List ℕ)} (h : k.Perm l) : IterOrder where
  perm m := if m = l then k else m
  isPerm m := by
    split_ifs with hm
    · rwa [hm]
    · exact .refl m

theorem orders_iff :
    (∀ order order' : IterOrder,
        (cluster order evidence queried).clusters = (cluster order' evidence queried).clusters) ↔
      ∀ k m : List (ℕ × List ℕ), k.Perm (groupsOf evidence) → m.Perm (groupsOf evidence) →
        (k.map fun g => mkCluster evidence queried g.2).mergeSort clusterLe =
          (m.map fun g => mkCluster evidence queried g.2).mergeSort clusterLe := by
  constructor
  · intro h k m hk hm
    have hkm := h (orderOf hk) (orderOf hm)
    have hput : ∀ {l : List (ℕ × List ℕ)} (hl : l.Perm (groupsOf evidence)),
        (orderOf hl).perm (groupsOf evidence) = l := fun _ => if_pos rfl
    show (k.map _).mergeSort clusterLe = (m.map _).mergeSort clusterLe
    rw [← hput hk, ← hput hm]
    exact hkm
  · intro h order order'
    exact h _ _ (order.isPerm _) (order'.isPerm _)

/-- **The order of the clusters.**  The clusters and their order are the same whatever order the hash map
has exactly when no two classes of chained links are alike in what the order looks at but differ. -/
theorem cluster_determined_iff (evidence : List Evidence) (queried : Coord) :
    (∀ order order' : IterOrder,
        (cluster order evidence queried).clusters = (cluster order' evidence queried).clusters) ↔
      ∀ i j, i < evidence.length → j < evidence.length →
        Alike evidence queried i j → Same evidence i j := by
  rw [orders_iff, sort_determined_iff clusterLe_trans clusterLe_total]
  constructor
  · intro h i j hi hj halike
    obtain ⟨x, hx, hix⟩ := exists_group hi
    obtain ⟨y, hy, hjy⟩ := exists_group hj
    have hxi := @mkCluster_group evidence queried _ (List.mem_map.mpr ⟨x, hx, rfl⟩) _ hix
    have hyj := @mkCluster_group evidence queried _ (List.mem_map.mpr ⟨y, hy, rfl⟩) _ hjy
    have hxy := h x hx y hy
    rw [hxi, hyj] at hxy
    exact class_eq_iff.mp (hxy (class_tied_iff.mpr halike))
  · intro h x hx y hy htied
    obtain ⟨i, hix, hi⟩ := group_member hx
    obtain ⟨j, hjy, hj⟩ := group_member hy
    rw [mkCluster_group (List.mem_map.mpr ⟨x, hx, rfl⟩) hix,
      mkCluster_group (List.mem_map.mpr ⟨y, hy, rfl⟩) hjy] at htied ⊢
    exact class_eq_iff.mpr (h i j hi hj (class_tied_iff.mp htied))

end

/-! ### Two weak witnesses -/

/-- What two backends say of one SHA-1 that they know no other digest of. -/
def weakEvidence : List Evidence :=
  [⟨⟨.sha1, List.replicate 20 0, rfl⟩, ⟨"circl", [], [], none⟩⟩,
    ⟨⟨.sha1, List.replicate 20 0, rfl⟩, ⟨"nsrl", [], [], none⟩⟩]

/-- Which of the two comes first is up to the map. -/
theorem weak_undetermined :
    ¬ ∀ (evidence : List Evidence) (queried : Coord) (order order' : IterOrder),
      (cluster order evidence queried).clusters = (cluster order' evidence queried).clusters := by
  intro h
  have hties := (sort_determined_iff clusterLe_trans clusterLe_total _ _).mp
    (orders_iff.mp (h weakEvidence ⟨.sha1, List.replicate 20 0, rfl⟩))
  have hgroups : groupsOf weakEvidence = [(0, [0]), (1, [1])] := by decide +kernel
  rw [hgroups] at hties
  have hsame := hties (0, [0]) (by decide) (1, [1]) (by decide)
    (clusters_tied_iff.mpr (by decide +kernel))
  have hfindings := congrArg Cluster.findings hsame
  exact absurd hfindings (by decide +kernel)

end Hashdex
