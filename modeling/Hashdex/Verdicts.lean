import Hashdex.Clustering

/-!
# Scan verdicts

`localVerdicts` resolves one file's digests offline: walk from both, cluster on the strong one, and
read two tiers off the clusters.

* `mem_primary_iff`: the findings of primary clusters are those chained to the file's sha256
* `local_verdicts_sound_iff`: no contradicted row is in either tier exactly when no row chained to
  the file's sha256 contradicts the file
-/

namespace Hashdex

/-- The two digests minted from a file. -/
structure FileDigests where
  sha256 : Bytes
  sha1 : Bytes
  sha256_length : sha256.length = 32
  sha1_length : sha1.length = 20

namespace FileDigests

def sha256Coord (d : FileDigests) : Coord := ⟨.sha256, d.sha256, d.sha256_length⟩

def sha1Coord (d : FileDigests) : Coord := ⟨.sha1, d.sha1, d.sha1_length⟩

end FileDigests

/-- An installed dataset: its name and its point lookup. -/
structure LocalDataset where
  name : String
  lookup : Coord → List Finding

/-- The datasets' answers, each behind its gate. -/
def localAnswers (datasets : List LocalDataset) (admits : String → Coord → Bool) (c : Coord) :
    List Finding :=
  (datasets.filter fun d => admits d.name c).flatMap fun d => d.lookup c

/-- A coordinate differs from the file's digest of its scheme. -/
def contradicts (d : FileDigests) (c : Coord) : Bool :=
  match c.scheme with
  | .sha256 => c.digest ≠ d.sha256
  | .sha1 => c.digest ≠ d.sha1
  | _ => false

structure Verdicts where
  identified : List Finding
  consistent : List Finding
  /-- Findings already placed; the code keys them by their JSON text. -/
  seen : List Finding

def verdictStep (d : FileDigests) (primary : Bool) (v : Verdicts) (f : Finding) : Verdicts :=
  if primary then
    if f ∈ v.seen then v
    else { v with identified := v.identified ++ [f], seen := f :: v.seen }
  else
    let contradicted := f.stated.any (contradicts d)
    let weakMatch := f.stated.any fun c => c.scheme = .sha1 ∧ c.digest = d.sha1
    if !contradicted && weakMatch && !decide (f ∈ v.seen) then
      { v with consistent := v.consistent ++ [f], seen := f :: v.seen }
    else v

def verdictCluster (d : FileDigests) (v : Verdicts) (cl : Cluster) : Verdicts :=
  cl.findings.foldl (verdictStep d cl.primary) v

/-- The evidence the verdicts are read off: the walk from both digests. -/
def fileEvidence (d : FileDigests) (datasets : List LocalDataset)
    (admits : String → Coord → Bool) (cache : Option (Coord → List Finding)) : List Evidence :=
  walk [d.sha256Coord, d.sha1Coord] (localAnswers datasets admits) cache

def fileClusters (order : IterOrder) (d : FileDigests) (evidence : List Evidence) :
    List Cluster := (cluster order evidence d.sha256Coord).clusters

/-- `local_verdicts`: the identified findings and the consistent ones. -/
def localVerdicts (order : IterOrder) (d : FileDigests) (datasets : List LocalDataset)
    (admits : String → Coord → Bool) (cache : Option (Coord → List Finding)) :
    List Finding × List Finding :=
  let ev := fileEvidence d datasets admits cache
  let v := (fileClusters order d ev).foldl (verdictCluster d) ⟨[], [], []⟩
  (v.identified, v.consistent)

/-! ### The two tiers -/

/-- The finding states a sha256 or a sha1 that is not the file's. -/
def Finding.ContradictsFile (f : Finding) (d : FileDigests) : Prop :=
  ∃ c, f.States c ∧ (c.scheme = .sha256 ∧ c ≠ d.sha256Coord ∨ c.scheme = .sha1 ∧ c ≠ d.sha1Coord)

theorem any_contradicts_iff {f : Finding} {d : FileDigests} :
    f.stated.any (contradicts d) = true ↔ f.ContradictsFile d := by
  have hc : ∀ c : Coord, contradicts d c = true ↔
      (c.scheme = .sha256 ∧ c ≠ d.sha256Coord ∨ c.scheme = .sha1 ∧ c ≠ d.sha1Coord) := by
    intro c
    have hext : ∀ c' : Coord, c.scheme = c'.scheme → (c ≠ c' ↔ c.digest ≠ c'.digest) :=
      fun c' hs => not_congr ⟨fun h => by rw [h], fun h => Coord.ext hs h⟩
    rw [contradicts]
    split
    · next hs =>
      rw [decide_eq_true_iff, hext d.sha256Coord hs]
      simp [hs, FileDigests.sha256Coord]
    · next hs =>
      rw [decide_eq_true_iff, hext d.sha1Coord hs]
      simp [hs, FileDigests.sha1Coord]
    · next h₁ h₂ =>
      constructor
      · intro h
        cases h
      · rintro (⟨h, -⟩ | ⟨h, -⟩)
        · exact absurd h h₁
        · exact absurd h h₂
  simp only [List.any_eq_true, hc]
  rfl

theorem any_weakMatch_iff {f : Finding} {d : FileDigests} :
    (f.stated.any fun c => c.scheme = .sha1 ∧ c.digest = d.sha1) = true ↔ f.States d.sha1Coord := by
  rw [List.any_eq_true]
  constructor
  · rintro ⟨c, hc, h⟩
    rw [decide_eq_true_iff] at h
    have heq : c = d.sha1Coord := Coord.ext h.1 h.2
    exact heq ▸ hc
  · intro h
    exact ⟨_, h, by simp [FileDigests.sha1Coord]⟩

/-- Every finding of the clusters, marked with whether its cluster is primary. -/
def marked (clusters : List Cluster) : List (Bool × Finding) :=
  clusters.flatMap fun cl => cl.findings.map fun f => (cl.primary, f)

theorem mem_marked {clusters : List Cluster} {f : Finding} :
    (true, f) ∈ marked clusters ↔ ∃ cl ∈ clusters, cl.primary = true ∧ f ∈ cl.findings := by
  simp [marked, and_comm]

/-- What holds of the tiers when the findings `done` have been read. -/
structure TierInv (d : FileDigests) (done : List (Bool × Finding)) (v : Verdicts) : Prop where
  seen : ∀ f, f ∈ v.seen ↔ f ∈ v.identified ∨ f ∈ v.consistent
  identified : ∀ f ∈ v.identified, (true, f) ∈ done
  consistent : ∀ f ∈ v.consistent, f.States d.sha1Coord ∧ ¬ f.ContradictsFile d
  taken : ∀ f, (true, f) ∈ done → f ∈ v.identified ∨ f ∈ v.consistent

/-- What reading one finding of a cluster does. -/
theorem verdictStep_cases (d : FileDigests) (primary : Bool) (v : Verdicts) (f : Finding) :
    (verdictStep d primary v f = v ∧ (primary = true → f ∈ v.seen)) ∨
      (primary = true ∧ verdictStep d primary v f
        = { v with identified := v.identified ++ [f], seen := f :: v.seen }) ∨
      (primary = false ∧ f.States d.sha1Coord ∧ ¬ f.ContradictsFile d ∧
        verdictStep d primary v f
          = { v with consistent := v.consistent ++ [f], seen := f :: v.seen }) := by
  rw [verdictStep]
  cases primary with
  | true =>
    by_cases hseen : f ∈ v.seen
    · exact Or.inl ⟨by rw [if_pos rfl, if_pos hseen], fun _ => hseen⟩
    · exact Or.inr (Or.inl ⟨rfl, by rw [if_pos rfl, if_neg hseen]⟩)
  | false =>
    rw [if_neg Bool.false_ne_true]
    dsimp only
    split
    · next h =>
      simp only [Bool.and_eq_true, Bool.not_eq_true'] at h
      refine Or.inr (Or.inr ⟨rfl, any_weakMatch_iff.mp h.1.2, fun hc => ?_, rfl⟩)
      rw [any_contradicts_iff.mpr hc] at h
      exact absurd h.1.1.symm Bool.false_ne_true
    · exact Or.inl ⟨rfl, fun h => absurd h Bool.false_ne_true⟩

theorem TierInv.step {d : FileDigests} {done : List (Bool × Finding)} {v : Verdicts}
    (h : TierInv d done v) (p : Bool × Finding) :
    TierInv d (done ++ [p]) (verdictStep d p.1 v p.2) := by
  obtain ⟨primary, f⟩ := p
  have hid : ∀ g ∈ v.identified, (true, g) ∈ done ++ [(primary, f)] :=
    fun g hg => List.mem_append_left _ (h.identified g hg)
  have hnew : ∀ g, (true, g) ∈ done ++ [(primary, f)] ↔
      (true, g) ∈ done ∨ (primary = true ∧ g = f) := by
    intro g
    rw [List.mem_append, List.mem_singleton, Prod.mk.injEq, eq_comm (a := true)]
  obtain ⟨heq, hseen⟩ | ⟨rfl, heq⟩ | ⟨rfl, hw, hc, heq⟩ := verdictStep_cases d primary v f <;>
    rw [heq]
  · refine ⟨h.seen, hid, h.consistent, fun g hg => ?_⟩
    rcases (hnew g).mp hg with hg | ⟨hp, rfl⟩
    · exact h.taken g hg
    · exact (h.seen g).mp (hseen hp)
  · refine ⟨fun g => ?_, fun g hg => ?_, h.consistent, fun g hg => ?_⟩
    · rw [List.mem_cons, h.seen, List.mem_append, List.mem_singleton]
      tauto
    · rcases List.mem_append.mp hg with hg | hg
      · exact hid g hg
      · exact (hnew g).mpr (Or.inr ⟨rfl, List.mem_singleton.mp hg⟩)
    · rcases (hnew g).mp hg with hg | ⟨-, rfl⟩
      · exact (h.taken g hg).imp (List.mem_append_left _) id
      · exact Or.inl (List.mem_append_right _ (List.mem_singleton_self _))
  · refine ⟨fun g => ?_, hid, fun g hg => ?_, fun g hg => ?_⟩
    · rw [List.mem_cons, h.seen, List.mem_append, List.mem_singleton]
      tauto
    · rcases List.mem_append.mp hg with hg | hg
      · exact h.consistent g hg
      · rw [List.mem_singleton.mp hg]
        exact ⟨hw, hc⟩
    · rcases (hnew g).mp hg with hg | ⟨hp, -⟩
      · exact (h.taken g hg).imp id (List.mem_append_left _)
      · exact absurd hp Bool.false_ne_true

theorem TierInv.foldl {d : FileDigests} {done : List (Bool × Finding)} {v : Verdicts}
    (h : TierInv d done v) (todo : List (Bool × Finding)) :
    TierInv d (done ++ todo) (todo.foldl (fun v p => verdictStep d p.1 v p.2) v) := by
  induction todo generalizing done v with
  | nil => rwa [List.append_nil]
  | cons p todo ih =>
    have hstep := ih (h.step p)
    rwa [List.append_assoc] at hstep

/-- The invariant at the end of `local_verdicts`. -/
theorem tierInv_clusters (d : FileDigests) (clusters : List Cluster) :
    TierInv d (marked clusters) (clusters.foldl (verdictCluster d) ⟨[], [], []⟩) := by
  have hstart : TierInv d [] ⟨[], [], []⟩ :=
    ⟨fun _ => by simp, fun _ h => absurd h List.not_mem_nil, fun _ h => absurd h List.not_mem_nil,
      fun _ h => absurd h List.not_mem_nil⟩
  have hfold := hstart.foldl (marked clusters)
  rw [marked, List.foldl_flatMap] at hfold
  simp only [List.foldl_map] at hfold
  exact hfold

/-! ### What a primary cluster holds -/

/-- The evidence at `i` is chained, link by link, to evidence that carries `c`. -/
def ChainedTo (evidence : List Evidence) (c : Coord) (i : ℕ) : Prop :=
  ∃ j e, evidence[j]? = some e ∧ Effective e c ∧ Relation.ReflTransGen (Linked evidence) j i

/-- **A primary cluster holds exactly the findings chained to the queried coordinate.** -/
theorem mem_primary_iff (order : IterOrder) (evidence : List Evidence) (queried : Coord)
    (f : Finding) :
    (∃ cl ∈ (cluster order evidence queried).clusters, cl.primary = true ∧ f ∈ cl.findings) ↔
      ∃ i e, evidence[i]? = some e ∧ e.finding = f ∧ ChainedTo evidence queried i := by
  obtain ⟨groups, hflat, hclusters, hclass⟩ := cluster_groups order evidence queried
  have hlt : ∀ g ∈ groups, ∀ i ∈ g, i < evidence.length := fun g hg i hi =>
    List.mem_range.mp (hflat.mem_iff.mp (List.mem_flatten.mpr ⟨g, hg, hi⟩))
  constructor
  · rintro ⟨cl, hcl, hp, hf⟩
    obtain ⟨n, hn, hget⟩ := List.getElem_of_mem hcl
    have hg : n < groups.length := by rw [hclusters.length_eq]; exact hn
    have hof := (List.forall₂_iff_get.mp hclusters).2 n hg hn
    rw [List.get_eq_getElem, List.get_eq_getElem, hget] at hof
    have hmemg : groups[n] ∈ groups := List.getElem_mem hg
    obtain ⟨j, hj, e, he, heff⟩ := (hof.coords queried).mp (hof.primary.mp hp)
    rw [hof.findings.mem_iff, List.mem_filterMap] at hf
    obtain ⟨i, hi, hfi⟩ := hf
    rw [Option.map_eq_some_iff] at hfi
    obtain ⟨e', he', hfe⟩ := hfi
    exact ⟨i, e', he', hfe, j, e, he, heff,
      (hclass j i (hlt _ hmemg j hj) (hlt _ hmemg i hi)).mp ⟨_, hmemg, hj, hi⟩⟩
  · rintro ⟨i, e, he, rfl, j, e', he', heff, hchain⟩
    have hj := (List.getElem?_eq_some_iff.mp he').1
    have hi := (List.getElem?_eq_some_iff.mp he).1
    obtain ⟨g, hg, hjg, hig⟩ := (hclass j i hj hi).mpr hchain
    obtain ⟨n, hn, rfl⟩ := List.getElem_of_mem hg
    have hn' : n < (cluster order evidence queried).clusters.length := by
      rw [← hclusters.length_eq]; exact hn
    have hof := (List.forall₂_iff_get.mp hclusters).2 n hn hn'
    refine ⟨_, List.getElem_mem hn', hof.primary.mpr ((hof.coords queried).mpr
      ⟨j, hjg, e', he', heff⟩), ?_⟩
    rw [List.get_eq_getElem] at hof
    exact hof.findings.mem_iff.mpr (List.mem_filterMap.mpr ⟨i, hig, by rw [he]; rfl⟩)

/-! ### The tiers against the file -/

/-- The tiers are sound: no finding in either contradicts the file, an identified finding stands in
a cluster with the file's sha256, and a consistent one states the file's sha1. -/
def TiersSound (d : FileDigests) (clusters : List Cluster) (r : List Finding × List Finding) :
    Prop :=
  (∀ f, f ∈ r.1 ∨ f ∈ r.2 → ¬ f.ContradictsFile d) ∧
    (∀ f ∈ r.1, ∃ cl ∈ clusters, f ∈ cl.findings ∧ d.sha256Coord ∈ cl.coords) ∧
    ∀ f ∈ r.2, f.States d.sha1Coord ∧ ¬ f.ContradictsFile d

/-- A primary cluster's coordinates hold the queried one. -/
theorem queried_mem_of_primary {order : IterOrder} {evidence : List Evidence} {queried : Coord}
    {cl : Cluster} (hcl : cl ∈ (cluster order evidence queried).clusters)
    (hp : cl.primary = true) : queried ∈ cl.coords := by
  obtain ⟨groups, -, hclusters, -⟩ := cluster_groups order evidence queried
  obtain ⟨n, hn, hget⟩ := List.getElem_of_mem hcl
  have hof := (List.forall₂_iff_get.mp hclusters).2 n (by rw [hclusters.length_eq]; exact hn) hn
  rw [List.get_eq_getElem, List.get_eq_getElem, hget] at hof
  exact hof.primary.mp hp

section Tiers

variable (order : IterOrder) (d : FileDigests) (datasets : List LocalDataset)
  (admits : String → Coord → Bool) (cache : Option (Coord → List Finding))

theorem mem_marked_iff (f : Finding) :
    (true, f) ∈ marked (fileClusters order d (fileEvidence d datasets admits cache)) ↔
      ∃ i e, (fileEvidence d datasets admits cache)[i]? = some e ∧ e.finding = f ∧
        ChainedTo (fileEvidence d datasets admits cache) d.sha256Coord i :=
  mem_marked.trans (mem_primary_iff order _ d.sha256Coord f)

/-- A contradicted finding that is chained to the file's sha256 comes out identified. -/
theorem identified_of_chained {i : ℕ} {e : Evidence}
    (he : (fileEvidence d datasets admits cache)[i]? = some e)
    (hchain : ChainedTo (fileEvidence d datasets admits cache) d.sha256Coord i)
    (hc : e.finding.ContradictsFile d) :
    e.finding ∈ (localVerdicts order d datasets admits cache).1 := by
  have hinv := tierInv_clusters d (fileClusters order d (fileEvidence d datasets admits cache))
  have hmarked := (mem_marked_iff order d datasets admits cache e.finding).mpr
    ⟨i, e, he, rfl, hchain⟩
  exact (hinv.taken _ hmarked).resolve_right fun h => (hinv.consistent _ h).2 hc

/-- **When the verdict tiers are sound.**  Exactly when no finding chained, identity digest by
identity digest, to one that carries the file's sha256 states a different sha256 or sha1. -/
theorem local_verdicts_sound_iff :
    TiersSound d (fileClusters order d (fileEvidence d datasets admits cache))
        (localVerdicts order d datasets admits cache) ↔
      ∀ i e, (fileEvidence d datasets admits cache)[i]? = some e →
        ChainedTo (fileEvidence d datasets admits cache) d.sha256Coord i →
          ¬ e.finding.ContradictsFile d := by
  have hinv := tierInv_clusters d (fileClusters order d (fileEvidence d datasets admits cache))
  constructor
  · rintro ⟨hsound, -, -⟩ i e he hchain hc
    exact hsound _ (Or.inl (identified_of_chained order d datasets admits cache he hchain hc)) hc
  · intro hchained
    refine ⟨fun f hf => ?_, fun f hf => ?_, hinv.consistent⟩
    · rcases hf with hf | hf
      · obtain ⟨i, e, he, rfl, hchain⟩ :=
          (mem_marked_iff order d datasets admits cache f).mp (hinv.identified f hf)
        exact hchained i e he hchain
      · exact (hinv.consistent f hf).2
    · obtain ⟨cl, hcl, hp, hfcl⟩ := mem_marked.mp (hinv.identified f hf)
      exact ⟨cl, hcl, hfcl, queried_mem_of_primary hcl hp⟩

end Tiers

/-! ### A contradicted row, identified -/

def sampleFile : FileDigests := ⟨List.replicate 32 0x11, List.replicate 20 0x22, rfl, rfl⟩

/-- A row that names the file's sha256 together with another sha1. -/
def otherSha1Row : Finding :=
  ⟨"tarballs", [], [sampleFile.sha256Coord.display,
    (⟨.sha1, List.replicate 20 0x33, rfl⟩ : Coord).display], none⟩

def tarballs : LocalDataset :=
  ⟨"tarballs", fun c => if c = sampleFile.sha256Coord then [otherSha1Row] else []⟩

/-- The row is identified although it states a sha1 that is not the file's. -/
theorem contradicted_row_identified :
    otherSha1Row ∈ (localVerdicts ⟨id, fun _ => List.Perm.refl _⟩ sampleFile [tarballs]
        (fun _ _ => true) none).1 ∧
      otherSha1Row.ContradictsFile sampleFile := by
  have hstates : ∀ c ∈ [sampleFile.sha256Coord, ⟨.sha1, List.replicate 20 0x33, rfl⟩],
      otherSha1Row.States c := by
    intro c hc
    refine Finding.states_of_display ?_
    simp only [List.mem_cons, List.not_mem_nil, or_false] at hc
    rcases hc with rfl | rfl <;> simp [otherSha1Row]
  have hev : (fileEvidence sampleFile [tarballs] (fun _ _ => true) none)[0]?
      = some ⟨sampleFile.sha256Coord, otherSha1Row⟩ := by decide +kernel
  have hcontra : otherSha1Row.ContradictsFile sampleFile :=
    ⟨_, hstates _ (List.mem_cons_of_mem _ List.mem_cons_self), Or.inr ⟨rfl, by decide⟩⟩
  refine ⟨?_, hcontra⟩
  exact identified_of_chained ⟨id, fun _ => List.Perm.refl _⟩ sampleFile [tarballs] _ none hev
    ⟨0, _, hev, Or.inl (hstates _ List.mem_cons_self), Relation.ReflTransGen.refl⟩ hcontra

end Hashdex
