import Mathlib
import Hashdex.Recipe.Image
import Hashdex.Recipe.PlanTiles

/-!
# The tally of an image

Each stored pcluster of an image is counted in the total and should fall into one of the buckets that the
summary prints.  The passes count it once; merging the tallies of the files leaves two buckets out.

* `splicePlain_own_iff`: what falls into those two
* `planOwnPclusters_tallies`, `planPackedInode_tallies`: what the passes do to the tally
* `tally_conserved_iff`: the buckets of an image add up just when no pcluster of a file that is read back
  falls into the two
-/

namespace Hashdex

open Zmap Serving Tiling RecProg RecProg.RecM

/-! ### Buckets -/

/-- The buckets that the summary prints add up to the total. -/
def PcStats.Conserved (st : PcStats) : Prop := st.total = st.handled + st.uncovered

instance (st : PcStats) : Decidable st.Conserved := inferInstanceAs (Decidable (_ = _))

/-- The buckets that are left out when the tally of a file reaches the image's. -/
def PcStats.unmerged (st : PcStats) : ℕ := st.thin + st.rotated

/-- An outcome that falls into one of these. -/
def Outcome.unmerged (o : Outcome) : Bool := o = .thin ∨ o = .rotated

theorem PcStats.counts_cons (st : PcStats) (o : Outcome) (outcomes : List Outcome) :
    st.counts (o :: outcomes) = (st.count o).counts outcomes := rfl

/-- Outcomes change their buckets only. -/
theorem PcStats.counts_frame (st : PcStats) (outcomes : List Outcome) :
    (st.counts outcomes).total = st.total ∧ (st.counts outcomes).uncovered = st.uncovered ∧
      (st.counts outcomes).unverifiedMembers = st.unverifiedMembers := by
  induction outcomes generalizing st with
  | nil => exact ⟨rfl, rfl, rfl⟩
  | cons o rest ih =>
    obtain ⟨htotal, huncovered, hunverified⟩ := ih (st.count o)
    rw [counts_cons, htotal, huncovered, hunverified]
    cases o <;> exact ⟨rfl, rfl, rfl⟩

theorem PcStats.unmerged_counts (st : PcStats) (outcomes : List Outcome) :
    (st.counts outcomes).unmerged = st.unmerged + outcomes.countP Outcome.unmerged := by
  induction outcomes generalizing st with
  | nil => rfl
  | cons o rest ih =>
    have hone : (st.count o).unmerged = st.unmerged + if o.unmerged then 1 else 0 := by
      cases o <;> simp [unmerged, count, Outcome.unmerged] <;> omega
    rw [counts_cons, ih, hone, List.countP_cons]
    omega

/-- Merging a file's tally loses what is in the two buckets. -/
theorem handled_ownStats (acc st : PcStats) :
    (Planner.ownStats acc st).handled + st.unmerged = acc.handled + st.handled := by
  simp only [Planner.ownStats, PcStats.handled, PcStats.unmerged]
  omega

theorem PcStats.handled_add (a b : PcStats) : (a.add b).handled = a.handled + b.handled := by
  simp only [PcStats.add, PcStats.handled]
  omega

/-! ### Splices of a file's own pclusters -/

/-- The stored bytes begin with those of the span, which are too few for a slice. -/
def Short (span stored : Bytes) : Prop := span <+: stored ∧ span.length ≤ inlineMax

/-- The stored bytes do not begin with those of the span, but are those turned, and one of the two pieces is
long enough for a slice. -/
def Turned (pc : PCluster) (span stored : Bytes) : Prop :=
  ¬ span <+: stored ∧ span.length = pc.plen ∧ ∃ skip, pc.interlaceSkip = some skip ∧ skip ≠ 0 ∧
    Rotated skip span stored ∧ (inlineMax < skip ∨ inlineMax < pc.plen - skip)

/-- The cover of the whole member is cut once. -/
theorem spliceSpan_own_eq_nil {la len size : ℕ} (h : la + len ≤ size) (idx rootAt : ℕ) :
    spliceSpan (ownCovers idx size) la len rootAt = [] ↔ len ≤ inlineMax := by
  have hstop : (⟨idx, 0, 0, size, true⟩ : Cover).stop = size := Nat.zero_add size
  have hmin : min size (la + len) = la + len := Nat.min_eq_right h
  rw [spliceSpan, ownCovers, spliceLoop, hstop]
  dsimp only
  rw [Nat.zero_max, hmin, Nat.add_sub_cancel_left]
  split_ifs with hend hbegin hempty hlong
  · exact iff_of_true rfl (by omega)
  · exact iff_of_true rfl (by omega)
  · exact iff_of_true rfl (by omega)
  · exact iff_of_false (by simp) (by omega)
  · exact iff_of_true rfl (by omega)

theorem spliceRotated_own_ne_nil {pc : PCluster} {span stored : Bytes} {size : ℕ}
    (hstored : stored.length = pc.plen) (hspan : pc.la + span.length ≤ size)
    (hskip : ∀ skip, pc.interlaceSkip = some skip → skip < pc.plen) (idx : ℕ) :
    spliceRotated pc span stored (ownCovers idx size) ≠ [] ↔
      span.length = pc.plen ∧ ∃ skip, pc.interlaceSkip = some skip ∧ skip ≠ 0 ∧
        Rotated skip span stored ∧ (inlineMax < skip ∨ inlineMax < pc.plen - skip) := by
  cases hturn : pc.interlaceSkip with
  | none =>
    rw [spliceRotated, hturn]
    exact iff_of_false (fun h => h rfl) (fun h => by obtain ⟨-, skip, heq, -⟩ := h; cases heq)
  | some skip =>
    have hlt := hskip skip hturn
    by_cases hguard : skip ≠ 0 ∧ span.length = pc.plen
    · obtain ⟨hne, hlen⟩ := hguard
      rw [spliceRotated_eq pc hturn hne hlen hstored]
      by_cases hrot : Rotated skip span stored
      · rw [if_pos hrot]
        have htail := spliceSpan_own_eq_nil (show pc.la + (pc.plen - skip) + skip ≤ size by omega) idx pc.pa
        have hhead := spliceSpan_own_eq_nil (show pc.la + (pc.plen - skip) ≤ size by omega) idx (pc.pa + skip)
        rw [Ne, List.append_eq_nil_iff, htail, hhead]
        constructor
        · intro h
          exact ⟨hlen, skip, rfl, hne, hrot, by omega⟩
        · intro h
          obtain ⟨-, skip', heq, -, -, hlong⟩ := h
          cases heq
          omega
      · rw [if_neg hrot]
        refine iff_of_false (fun h => h rfl) (fun h => ?_)
        obtain ⟨-, skip', heq, -, hrot', -⟩ := h
        cases heq
        exact hrot hrot'
    · rw [spliceRotated, hturn]
      dsimp only
      rw [if_pos (by omega)]
      refine iff_of_false (fun h => h rfl) (fun h => ?_)
      obtain ⟨hlen, skip', heq, hne, -⟩ := h
      cases heq
      exact hguard ⟨hne, hlen⟩

/-- **What is left out**: a pcluster of a file stored as it is, and short, or stored turned. -/
theorem splicePlain_own_iff {pc : PCluster} {span stored : Bytes} {size : ℕ}
    (hstored : stored.length = pc.plen) (hspan : pc.la + span.length ≤ size)
    (hskip : ∀ skip, pc.interlaceSkip = some skip → skip < pc.plen) (idx : ℕ) :
    (splicePlain pc span stored (ownCovers idx size)).1.unmerged = true ↔
      Short span stored ∨ Turned pc span stored := by
  have hpre : span.length ≤ stored.length ∧ stored.take span.length = span ↔ span <+: stored := by
    rw [List.prefix_iff_eq_take, eq_comm (a := span)]
    refine and_iff_right_of_imp fun heq => ?_
    rw [← heq]
    exact List.length_take_le' _ _
  rw [splicePlain]
  by_cases hverbatim : span <+: stored
  · rw [if_pos (hpre.mpr hverbatim)]
    have hcut := spliceSpan_own_eq_nil hspan idx pc.pa
    dsimp only [spliceVerbatim]
    split_ifs with hcovered
    · refine iff_of_false Bool.false_ne_true (fun h => ?_)
      cases h with
      | inl hshort => exact hcovered (hcut.mpr hshort.2)
      | inr hturned => exact hturned.1 hverbatim
    · exact iff_of_true rfl (.inl ⟨hverbatim, hcut.mp (not_not.mp hcovered)⟩)
  · rw [if_neg (fun h => hverbatim (hpre.mp h))]
    have hrot := spliceRotated_own_ne_nil hstored hspan hskip idx
    dsimp only
    split_ifs with hturned
    · exact iff_of_true rfl (.inr ⟨hverbatim, hrot.mp hturned⟩)
    · refine iff_of_false Bool.false_ne_true (fun h => ?_)
      cases h with
      | inl hshort => exact hverbatim hshort.1
      | inr hturn => exact hturned (hrot.mpr hturn.2)

/-! ### One file -/

/-- A pcluster of a file that no bucket of the image counts once the file has been read back. -/
def ImgCtx.LeavesOut (ctx : ImgCtx) (f : Zmap.FileItem) (pc : PCluster) : Prop :=
  pc.lzma = false ∧ ∃ plan content stored, f.plan = .streamed plan ∧
    ctx.fs.streamed ctx.z plan = .ok content ∧ readStored ctx.fs.view pc = .ok stored ∧
    (Short ((content.drop pc.la).take pc.llen) stored ∨ Turned pc ((content.drop pc.la).take pc.llen) stored)

theorem endsAs_unmerged {ctx : ImgCtx} {f : Zmap.FileItem} {plan : ZPlan} {content : Bytes} {idx : ℕ}
    {pc : PCluster} {o : Outcome} (hplan : f.plan = .streamed plan)
    (hcontent : ctx.fs.streamed ctx.z plan = .ok content) (hin : pc.la + pc.llen ≤ content.length)
    (hskip : ∀ skip, pc.interlaceSkip = some skip → skip < pc.plen) (h : pc.EndsAs ctx idx content o) :
    o.unmerged = true ↔ ctx.LeavesOut f pc := by
  rw [PCluster.EndsAs] at h
  by_cases hlzma : pc.lzma = true
  · rw [if_pos hlzma] at h
    refine iff_of_false ?_ (fun hout => ?_)
    · rcases h with rfl | rfl | rfl <;> exact Bool.false_ne_true
    · have hplain := hout.1
      rw [hlzma] at hplain
      cases hplain
  · rw [if_neg hlzma] at h
    obtain ⟨stored, hstored, rfl⟩ := h
    have hspan : ((content.drop pc.la).take pc.llen).length = pc.llen := by
      rw [List.length_take, List.length_drop]
      omega
    rw [splicePlain_own_iff (readStored_length hstored) (hspan.symm ▸ hin) hskip]
    constructor
    · intro hout
      exact ⟨Bool.eq_false_iff.mpr hlzma, plan, content, stored, hplan, hcontent, hstored, hout⟩
    · intro hout
      obtain ⟨-, plan', content', stored', hplan', hcontent', hstored', hout⟩ := hout
      rw [hplan] at hplan'
      cases hplan'
      rw [hcontent] at hcontent'
      cases hcontent'
      rw [hstored] at hstored'
      cases hstored'
      exact hout

theorem countP_unmerged {ctx : ImgCtx} {f : Zmap.FileItem} {idx : ℕ} {content : Bytes} {pcs : List PCluster}
    {outcomes : List Outcome} (h : List.Forall₂ (PCluster.EndsAs ctx idx content) pcs outcomes)
    (hpcs : ∀ pc ∈ pcs, ∀ o, pc.EndsAs ctx idx content o → (o.unmerged = true ↔ ctx.LeavesOut f pc)) :
    outcomes.countP Outcome.unmerged = 0 ↔ ∀ pc ∈ pcs, ¬ ctx.LeavesOut f pc := by
  rw [List.countP_eq_zero]
  induction h with
  | nil => simp
  | cons hone _ ih =>
    rw [List.forall_mem_cons, List.forall_mem_cons, hpcs _ List.mem_cons_self _ hone,
      ih fun pc hpc => hpcs pc (List.mem_cons_of_mem _ hpc)]

/-- **A file that is read back and comes out**: each of its pclusters is in a bucket of its tally. -/
theorem planOwnFile_counts {ctx : ImgCtx} {others : Others} {f : Zmap.FileItem} {idx : ℕ} {digest : Bytes}
    {cache : PackedCache} {preset : Option UInt32} {planned : PlannedFile}
    (hcovering : ∀ plan, f.plan = .streamed plan → Covering plan f.size) (hpos : 0 < f.size)
    (hsound : cache.Sound ctx.fs ctx.z)
    (h : planOwnFile ctx others f.plan idx f.size digest cache preset = .ok planned)
    (hverified : planned.stats.unverifiedMembers = 0) :
    planned.stats.handled = f.plan.ownPclusters.length ∧
      (planned.stats.unmerged = 0 ↔ ∀ pc ∈ f.plan.ownPclusters, ¬ ctx.LeavesOut f pc) := by
  cases hplan : f.plan with
  | ranged exts =>
    rw [hplan] at h
    cases h
    exact ⟨rfl, iff_of_true rfl nofun⟩
  | streamed plan =>
    obtain ⟨hsize, hlt, htiles, hllen⟩ := hcovering plan hplan
    have hrun := ownRun_spec htiles (hsize ▸ hlt) others idx hsound preset
    rw [hplan, planOwnFile, ← hsize] at h
    revert h hrun
    cases ownRun ctx others plan idx plan.size cache preset with
    | error stop =>
      intro h hrun
      obtain ⟨e, rfl, -⟩ := hrun
      cases h
    | ok s =>
      intro h hrun
      obtain ⟨hstreamed, hlen, -, hcounted⟩ := hrun
      have horder := ownPclusters_order htiles
      obtain ⟨outcomes, hstats, hends⟩ := hcounted fun pc hpc => by
        obtain ⟨e, he, hpc⟩ := List.mem_filterMap.mp hpc
        rw [(ZExt.pcluster_span hpc).2]
        exact hllen hpos e he
      have hout := countP_unmerged (f := f) hends fun pc hpc o hend =>
        endsAs_unmerged hplan hstreamed (hlen ▸ horder.within pc hpc) (horder.turn pc hpc) hend
      dsimp only at h
      split_ifs at h with hdigest
      · cases h
        show s.stats.handled = plan.ownPclusters.length ∧
          (s.stats.unmerged = 0 ↔ ∀ pc ∈ plan.ownPclusters, ¬ ctx.LeavesOut f pc)
        rw [hstats, PcStats.handled_counts, PcStats.unmerged_counts]
        constructor
        · rw [hends.length_eq]
          exact Nat.zero_add _
        · rw [← hout]
          show 0 + _ = 0 ↔ _
          rw [Nat.zero_add]
      · cases h
        cases hverified

/-! ### The files -/

section

variable {o : OpenImage} {T : Tree} {w : Workers o.listing}

theorem OpenImage.covering (o : OpenImage) {f : Zmap.FileItem} (hf : f ∈ o.listing) (plan : ZPlan)
    (hplan : f.plan = .streamed plan) : Covering plan f.size := by
  obtain ⟨nid, hnid⟩ := o.filePlan_eq hf
  rw [hplan] at hnid
  exact filePlan_covering hnid

theorem planFile_counts {t : ℕ × Zmap.FileItem} {n : ℕ} {planned : PlannedFile} (hlisted : t.2 ∈ o.listing)
    (hsize : (T.member t.1).size = t.2.size) (hpos : 0 < t.2.size)
    (h : w.planFile o.toImgCtx T t n = .ok planned) (hverified : planned.stats.unverifiedMembers = 0) :
    planned.stats.handled = t.2.plan.ownPclusters.length ∧
      (planned.stats.unmerged = 0 ↔ ∀ pc ∈ t.2.plan.ownPclusters, ¬ o.toImgCtx.LeavesOut t.2 pc) := by
  have hempty : PackedCache.Sound o.fs o.z ⟨[], [], 0⟩ := nofun
  rw [Workers.planFile, hsize] at h
  exact planOwnFile_counts (o.covering hlisted) hpos (o.toImgCtx.cacheAfter_sound _ hempty) h hverified

/-- What merging the tallies of files does. -/
structure Merged (st st' : PcStats) (attempted lost : ℕ) : Prop where
  total : st'.total = st.total
  uncovered : st'.uncovered = st.uncovered
  handled : st'.handled + lost = st.handled + attempted

theorem merge_files {ts : List (ℕ × Zmap.FileItem)} {n : ℕ} {planned : List PlannedFile}
    (hts : ∀ t ∈ ts, t.2 ∈ o.listing ∧ (T.member t.1).size = t.2.size ∧ 0 < t.2.size)
    (h : w.planFiles o.toImgCtx T ts n = .ok planned) (st : PcStats) :
    st.unverifiedMembers ≤ ((planned.map PlannedFile.stats).foldl Planner.ownStats st).unverifiedMembers ∧
      (((planned.map PlannedFile.stats).foldl Planner.ownStats st).unverifiedMembers = 0 →
        ∃ lost, Merged st ((planned.map PlannedFile.stats).foldl Planner.ownStats st)
            (ts.map fun t => t.2.plan.ownPclusters.length).sum lost ∧
          (lost = 0 ↔ ∀ t ∈ ts, ∀ pc ∈ t.2.plan.ownPclusters, ¬ o.toImgCtx.LeavesOut t.2 pc)) := by
  induction ts generalizing n planned st with
  | nil =>
    cases h
    exact ⟨Nat.le_refl _, fun _ => ⟨0, ⟨rfl, rfl, rfl⟩, iff_of_true rfl nofun⟩⟩
  | cons t ts ih =>
    obtain ⟨one, hone, h⟩ := bind_eq_ok.mp h
    obtain ⟨more, hmore, h⟩ := bind_eq_ok.mp h
    cases h
    obtain ⟨⟨hlisted, hsize, hpos⟩, hrest⟩ := List.forall_mem_cons.mp hts
    obtain ⟨hle, hall⟩ := ih hrest hmore (Planner.ownStats st one.stats)
    have hadd : (Planner.ownStats st one.stats).unverifiedMembers =
        st.unverifiedMembers + one.stats.unverifiedMembers := rfl
    rw [List.map_cons, List.foldl_cons]
    constructor
    · omega
    · intro hzero
      obtain ⟨lost, hmerged, hlost⟩ := hall hzero
      obtain ⟨hhandled, hout⟩ := planFile_counts hlisted hsize hpos hone (by omega)
      have hone' := handled_ownStats st one.stats
      have htail := hmerged.handled
      refine ⟨one.stats.unmerged + lost, ⟨hmerged.total, hmerged.uncovered, ?_⟩, ?_⟩
      · rw [List.map_cons, List.sum_cons]
        omega
      · rw [List.forall_mem_cons, ← hout, ← hlost]
        omega

end

/-! ### The pass over the files -/

/-- The member that a file is has its size, and is identified. -/
theorem byPath_member {P : Planner} {i member : ℕ} {f : FileItem} (h : P.byPath i f = some member) :
    (P.tree.member member).size = f.size ∧ P.tree.Identified member := by
  rw [Planner.byPath] at h
  split at h
  · split_ifs at h with hmember
    cases h
    exact hmember
  · cases h

section

variable {P : Planner} {E : Oracle Proc Plan PlanPanic Bool} {i : ℕ} {s s' : Plan}

theorem yields_outcome {α : Type} {x : Except Fault α} {a : α} (h : Yields E (outcome x) s (.ok a) s') :
    x = .ok a := by
  cases x with
  | ok b =>
    obtain ⟨heq, -⟩ := yields_pure.mp h
    exact congrArg _ (Except.ok.inj heq)
  | error e =>
    cases e with
    | panic => exact absurd h yields_fail
    | error message => cases (yields_pure.mp h).1
    | unknownNode => cases (yields_pure.mp h).1

theorem takeOwn_stats {planned : List PlannedFile} {acc acc' : Passes}
    (h : Yields E (Planner.takeOwn planned acc) s acc' s') :
    acc'.stats = (planned.map PlannedFile.stats).foldl Planner.ownStats acc.stats := by
  induction planned generalizing acc s with
  | nil =>
    obtain ⟨rfl, -⟩ := yields_pure.mp h
    rfl
  | cons f rest ih =>
    obtain ⟨placed, s1, -, h⟩ := yields_bind.mp h
    exact ih h

/-- The files that a pass reads back are files of the listing, as members of their size. -/
theorem ownTodo_yields {files : List FileItem} {todo : List (ℕ × FileItem)}
    (h : Yields E (P.ownTodo i files) s todo s') :
    (todo.map Prod.snd).Sublist files ∧
      ∀ t ∈ todo, (P.tree.member t.1).size = t.2.size ∧ 0 < t.2.size := by
  induction files generalizing todo s s' with
  | nil =>
    obtain ⟨rfl, -⟩ := yields_pure.mp h
    exact ⟨.slnil, nofun⟩
  | cons f rest ih =>
    obtain ⟨here, s1, hhere, h⟩ := yields_bind.mp h
    obtain ⟨more, s2, hmore, h⟩ := yields_bind.mp h
    obtain ⟨rfl, -⟩ := yields_pure.mp h
    obtain ⟨hsub, hsizes⟩ := ih hmore
    have hone : here = [] ∨ ∃ c, P.byPath i f = some c ∧ here = [(c, f)] := by
      rw [Planner.ownFile] at hhere
      split at hhere
      · next c hc =>
        obtain ⟨planned, s3, -, hhere⟩ := yields_bind.mp hhere
        obtain ⟨rfl, -⟩ := yields_pure.mp hhere
        cases planned with
        | false => exact .inl rfl
        | true =>
          split_ifs at hc
          exact .inr ⟨c, hc, rfl⟩
      · obtain ⟨rfl, -⟩ := yields_pure.mp hhere
        exact .inl rfl
    cases hone with
    | inl hnone =>
      subst hnone
      exact ⟨hsub.cons f, hsizes⟩
    | inr hsome =>
      obtain ⟨c, hc, rfl⟩ := hsome
      obtain ⟨hsize, hbig, -⟩ := byPath_member hc
      rw [hsize, identityMinBytes] at hbig
      have hpos : 0 < f.size := by omega
      exact ⟨hsub.cons_cons f, List.forall_mem_cons.mpr ⟨⟨hsize, hpos⟩, hsizes⟩⟩

end

/-- What a pass does to the tally of an image: of the pclusters that it adds to the total, all but some come
into buckets, unless a member fails. -/
structure Tallies (st st' : PcStats) (lost : ℕ) : Prop where
  unverified_le : st.unverifiedMembers ≤ st'.unverifiedMembers
  counted : st'.unverifiedMembers = 0 →
    st'.handled + st'.uncovered + lost + st.total = st.handled + st.uncovered + st'.total

section

variable {P : Planner} {E : Oracle Proc Plan PlanPanic Bool} {i : ℕ} {s s' : Plan} {o : OpenImage}
  {w : Workers o.listing}

/-- The workers take the files that are to be read back, and no others. -/
theorem order_spec {todo : List (ℕ × FileItem)} (hsub : (todo.map Prod.snd).Sublist (o.listing.map FileItem.listed))
    (hsizes : ∀ t ∈ todo, (P.tree.member t.1).size = t.2.size ∧ 0 < t.2.size) :
    (∀ t ∈ w.order todo, t.2 ∈ o.listing ∧ (P.tree.member t.1).size = t.2.size ∧ 0 < t.2.size) ∧
      ((w.order todo).map fun t => t.2.plan.ownPclusters.length).sum =
        (todo.map fun t => t.2.ownPclusters.length).sum := by
  have hperm := w.perm todo fun t ht => hsub.subset (List.mem_map_of_mem ht)
  constructor
  · intro t ht
    have hmem : (t.1, t.2.listed) ∈ todo := hperm.mem_iff.mp (List.mem_map_of_mem ht)
    exact ⟨w.found todo t ht, hsizes _ hmem⟩
  · have hsum := (hperm.map fun t => t.2.ownPclusters.length).sum_nat
    rw [List.map_map] at hsum
    exact hsum

/-- **The pass over the files**: what it loses are pclusters that no bucket counts. -/
theorem planOwnPclusters_tallies {acc acc' : Passes} {proved : List ℕ}
    (h : Yields E (P.planOwnPclusters i (o.image P.tree w) (o.listing.map FileItem.listed) acc) s
      (.ok (acc', proved)) s') :
    ∃ todo s1, Yields E (P.ownTodo i (o.listing.map FileItem.listed)) s todo s1 ∧
      ∃ lost, Tallies acc.stats acc'.stats lost ∧ (acc'.stats.unverifiedMembers = 0 →
        (lost = 0 ↔ ∀ t ∈ w.order todo, ∀ pc ∈ t.2.plan.ownPclusters, ¬ o.toImgCtx.LeavesOut t.2 pc)) := by
  obtain ⟨todo, s1, htodo, h⟩ := yields_bind.mp h
  obtain ⟨hsub, hsizes⟩ := ownTodo_yields htodo
  obtain ⟨hfiles, hsum⟩ := order_spec (w := w) hsub hsizes
  have hattempted : (todo.map fun t => t.2.ownPclusters.length).sum ≤
      ((o.listing.map FileItem.listed).map fun f => f.ownPclusters.length).sum := by
    have hle := (hsub.map fun f => f.ownPclusters.length).sum_le_sum fun _ _ => Nat.zero_le _
    rw [List.map_map] at hle
    exact hle
  refine ⟨todo, s1, htodo, ?_⟩
  dsimp only at h
  split_ifs at h with hnil
  · obtain ⟨heq, -⟩ := yields_pure.mp h
    cases heq
    subst hnil
    refine ⟨0, ⟨Nat.le_refl _, fun _ => ?_⟩, fun _ => iff_of_true rfl ?_⟩
    · have hnone : (([] : List (ℕ × FileItem)).map fun t => t.2.ownPclusters.length).sum = 0 := rfl
      dsimp only [PcStats.handled]
      omega
    · intro t ht
      have hnone := w.offered [] t ht
      cases hnone
  · obtain ⟨r, s2, hr, h⟩ := yields_bind.mp h
    cases r with
    | error e => cases (yields_pure.mp h).1
    | ok planned =>
      obtain ⟨acc1, s3, htake, h⟩ := yields_bind.mp h
      obtain ⟨heq, -⟩ := yields_pure.mp h
      cases heq
      have hstats := takeOwn_stats htake
      obtain ⟨hle, hmerge⟩ := merge_files hfiles (yields_outcome hr)
        { acc.stats with
          total := acc.stats.total + ((o.listing.map FileItem.listed).map fun f => f.ownPclusters.length).sum
          uncovered := acc.stats.uncovered +
            (((o.listing.map FileItem.listed).map fun f => f.ownPclusters.length).sum -
              (todo.map fun t => t.2.ownPclusters.length).sum) }
      dsimp only at hstats
      rw [← hstats] at hle hmerge
      by_cases hzero : acc'.stats.unverifiedMembers = 0
      · obtain ⟨lost, hmerged, hlost⟩ := hmerge hzero
        refine ⟨lost, ⟨hle, fun _ => ?_⟩, fun _ => hlost⟩
        have hhandled := hmerged.handled
        rw [hsum] at hhandled
        rw [hmerged.total, hmerged.uncovered]
        dsimp only [PcStats.handled] at hhandled ⊢
        omega
      · exact ⟨0, ⟨hle, fun h => absurd h hzero⟩, fun h => absurd h hzero⟩

end

/-! ### The sweep -/

section

variable {ctx : ImgCtx} {digest : ℕ → Bytes} {used : List Cover} {s s' : SweepState}

/-- The loop tallies outcomes and nothing else. -/
theorem sweepItem_outcomes {item : SweepItem} {rest : List SweepItem}
    (h : sweepItem ctx digest used item rest s = .ok s') :
    ∃ outcomes, s'.stats = s.stats.counts outcomes := by
  rw [sweepItem] at h
  split_ifs at h with hneed
  · obtain ⟨bytes, -, h⟩ := faulty_bind_eq_ok.mp h
    obtain ⟨s1, hs1, h⟩ := inRange_bind_eq_ok.mp h
    obtain ⟨-, -, -, hstats⟩ := sweepCovers_same hs1
    rw [← hstats]
    rw [sweepEligible] at h
    cases helig : item.elig with
    | no =>
      rw [helig] at h
      cases h
      exact ⟨[], rfl⟩
    | encode =>
      rw [helig] at h
      obtain ⟨out, -, h⟩ := faulty_bind_eq_ok.mp h
      obtain ⟨stored, -, h⟩ := faulty_bind_eq_ok.mp h
      cases h
      exact ⟨[], rfl⟩
    | verbatim =>
      rw [helig] at h
      obtain ⟨stored, -, h⟩ := faulty_bind_eq_ok.mp h
      cases h
      exact ⟨[_], rfl⟩
  · cases h
    exact ⟨[], rfl⟩

theorem sweepItems_outcomes {items : List SweepItem} (h : sweepItems ctx digest used items s = .ok s') :
    ∃ outcomes, s'.stats = s.stats.counts outcomes := by
  induction items generalizing s with
  | nil =>
    cases h
    exact ⟨[], rfl⟩
  | cons item rest ih =>
    rw [sweepItems] at h
    cases hitem : sweepItem ctx digest used item rest s with
    | error stop =>
      rw [hitem] at h
      cases h
    | ok s1 =>
      rw [hitem] at h
      obtain ⟨here, hhere⟩ := sweepItem_outcomes hitem
      obtain ⟨more, hmore⟩ := ih h
      refine ⟨here ++ more, ?_⟩
      rw [hmore, hhere, PcStats.counts, PcStats.counts, PcStats.counts, List.foldl_append]

end

/-- **The sweep's tally**: each eligible pcluster is in a bucket. -/
theorem sweepPclusters_tally {ctx : ImgCtx} {digest : ℕ → Bytes} {sched : Schedule} {preset : Option UInt32}
    {pcs : List PCluster} {set : SweepSet} {spool : Option Bytes} {swept : Swept} {spool' : Bytes}
    (h : sweepPclusters ctx digest sched preset pcs set spool = .ok (swept, spool')) :
    swept.stats.total = 0 ∧ swept.stats.uncovered = 0 ∧
      swept.stats.unverifiedMembers = swept.failed.length ∧
      swept.stats.handled = ((set.items pcs).filter SweepItem.Eligible).length := by
  rw [sweepPclusters] at h
  revert h
  cases hitems : sweepItems ctx digest set.used (set.items pcs) (.start set.used) with
  | error stop =>
    intro h
    cases h
  | ok s =>
    intro h
    have hemits : SweepEmits pcs set.used (set.items pcs) s :=
      @sweepItems_emits ctx digest set.used pcs [] _ _ _ (SweepEmits.start _ _) (fun _ => mem_items) hitems
    obtain ⟨out, hout, hlen, -⟩ := @runJobs_spec ctx set.used pcs sched.preset (sched.order s.jobs)
      (fun job hjob => hemits.jobs job ((sched.perm s.jobs).mem_iff.mp hjob)) 0 preset (spool.getD [])
    obtain ⟨done, hdone, h⟩ := inRange_bind_eq_ok.mp h
    rw [hout] at hdone
    cases hdone
    cases h
    obtain ⟨outcomes, hstats⟩ := sweepItems_outcomes hitems
    obtain ⟨htotal, huncovered, -⟩ := s.stats.counts_frame out.2.1
    obtain ⟨htotal', huncovered', -⟩ := PcStats.zero.counts_frame outcomes
    have hhandled := s.stats.handled_counts out.2.1
    rw [hlen, (sched.perm s.jobs).length_eq, hemits.counted] at hhandled
    refine ⟨?_, ?_, rfl, hhandled⟩
    · show (s.stats.counts out.2.1).total = 0
      rw [htotal, hstats]
      exact htotal'
    · show (s.stats.counts out.2.1).uncovered = 0
      rw [huncovered, hstats]
      exact huncovered'

/-- A pcluster is eligible, or counted as uncovered. -/
theorem eligible_items (covers : List Cover) (pcs : List PCluster) :
    ((sweepSet covers pcs).eligible.filter (· = .no)).length +
      (((sweepSet covers pcs).items pcs).filter SweepItem.Eligible).length = pcs.length := by
  let elig : PCluster → Elig := fun pc => eligibility (overlap (mergeSpans covers) pc.la pc.llen) pc
  let need : PCluster → Bool := fun pc =>
    elig pc ≠ .no || (sweepSet covers pcs).used.any fun c => !c.proved && c.touches pc
  have hneed : (sweepSet covers pcs).need = pcs.map need := by
    show (pcs.zip (pcs.map elig)).map (fun pe : PCluster × Elig =>
      pe.2 ≠ .no || (sweepSet covers pcs).used.any fun c => !c.proved && c.touches pe.1) = _
    rw [← List.map_prod_left_eq_zip, List.map_map]
    rfl
  have hzip : pcs.zip ((sweepSet covers pcs).eligible.zip (sweepSet covers pcs).need) =
      pcs.map fun pc => (pc, elig pc, need pc) := by
    rw [hneed]
    show pcs.zip ((pcs.map elig).zip (pcs.map need)) = _
    rw [List.zip_map', List.map_prod_left_eq_zip]
  have hyes : (((sweepSet covers pcs).items pcs).filter SweepItem.Eligible).length =
      pcs.countP fun pc => elig pc ≠ .no := by
    rw [← List.countP_eq_length_filter, SweepSet.items, hzip, List.countP_map]
    show ((pcs.map fun pc => (pc, elig pc, need pc)).zipIdx).countP
      ((fun x : PCluster × Elig × Bool => x.2.2 && x.2.1 ≠ .no) ∘ Prod.fst) = _
    rw [← List.countP_map, List.zipIdx_map_fst, List.countP_map]
    congr 1
    funext pc
    show (need pc && decide (elig pc ≠ .no)) = decide (elig pc ≠ .no)
    cases h : decide (elig pc ≠ .no) with
    | false => exact Bool.and_false _
    | true =>
      show (decide (elig pc ≠ .no) || _) && true = true
      rw [h]
      rfl
  have hno : ((sweepSet covers pcs).eligible.filter (· = .no)).length = pcs.countP fun pc => elig pc = .no := by
    rw [← List.countP_eq_length_filter]
    show (pcs.map elig).countP _ = _
    rw [List.countP_map]
    rfl
  rw [hyes, hno]
  have hsplit := pcs.length_eq_countP_add_countP fun pc => elig pc = .no
  rw [hsplit]
  congr 2
  funext pc
  simp

/-! ### The packed pass -/

section

variable {P : Planner} {E : Oracle Proc Plan PlanPanic Bool} {i : ℕ} {s s' : Plan} {o : OpenImage}
  {w : Workers o.listing}

/-- Nothing is taken back from the tally when no member failed. -/
theorem takeSwept_stats {pcs : List PCluster} {swept : Swept} {spool : Bytes} {acc acc' : Passes}
    (h : Yields E (Planner.takeSwept pcs swept spool acc) s acc' s') :
    acc'.stats.unverifiedMembers = acc.stats.unverifiedMembers + swept.stats.unverifiedMembers ∧
      acc'.stats.total = acc.stats.total + swept.stats.total ∧
      acc'.stats.uncovered = acc.stats.uncovered + swept.stats.uncovered ∧
      (swept.failed = [] → acc'.stats.handled = acc.stats.handled + swept.stats.handled) := by
  obtain ⟨_, s1, -, h⟩ := yields_bind.mp h
  obtain ⟨placed, s2, -, h⟩ := yields_bind.mp h
  obtain ⟨rfl, -⟩ := yields_pure.mp h
  refine ⟨rfl, rfl, rfl, fun hnone => ?_⟩
  have hgood : swept.nodes.filter (Planner.badNode swept.failed) = [] := by
    rw [hnone, List.filter_eq_nil_iff]
    intro n _
    rw [Planner.badNode]
    simp
  dsimp only
  rw [hgood, List.length_nil, Nat.sub_zero]
  exact PcStats.handled_add acc.stats swept.stats

theorem sweepPacked_tallies {pcs : List PCluster} {covers : List Cover} {acc acc' : Passes}
    (h : Yields E (Planner.sweepPacked (o.image P.tree w) pcs covers acc) s (.ok acc') s') :
    acc.stats.unverifiedMembers ≤ acc'.stats.unverifiedMembers ∧
      acc'.stats.total = acc.stats.total ∧ (acc'.stats.unverifiedMembers = 0 →
        acc'.stats.handled + acc'.stats.uncovered =
          acc.stats.handled + acc.stats.uncovered + pcs.length) := by
  have hitems := eligible_items (sortCovers covers) pcs
  rw [Planner.sweepPacked] at h
  dsimp only at h
  split_ifs at h with hall
  · obtain ⟨heq, -⟩ := yields_pure.mp h
    cases heq
    have hnone : ((sweepSet (sortCovers covers) pcs).eligible.filter (· = .no)).length = pcs.length := by
      rw [List.filter_eq_self.mpr (fun e he => List.all_eq_true.mp hall e he)]
      exact List.length_map _
    refine ⟨Nat.le_refl _, rfl, fun _ => ?_⟩
    dsimp only [PcStats.handled]
    omega
  · obtain ⟨plan, s1, -, h⟩ := yields_bind.mp h
    obtain ⟨_, s2, -, h⟩ := yields_bind.mp h
    obtain ⟨r, s3, hr, h⟩ := yields_bind.mp h
    cases r with
    | error e => cases (yields_pure.mp h).1
    | ok out =>
      obtain ⟨swept, spool⟩ := out
      obtain ⟨acc1, s4, htake, h⟩ := yields_bind.mp h
      obtain ⟨heq, -⟩ := yields_pure.mp h
      cases heq
      obtain ⟨htotal, huncovered, hfailed, hhandled⟩ :=
        sweepPclusters_tally (sweep_eq_ok.mp (yields_outcome hr))
      obtain ⟨hunverified, htotal', huncovered', hkept⟩ := takeSwept_stats htake
      dsimp only at hunverified htotal' huncovered'
      refine ⟨by omega, by omega, fun hzero => ?_⟩
      have hnone : swept.failed = [] := List.length_eq_zero_iff.mp (by omega)
      have hsum := hkept hnone
      dsimp only [PcStats.handled] at hsum hhandled ⊢
      omega

/-- **The packed pass** loses nothing. -/
theorem planPackedInode_tallies {files : List FileItem} {proved : List ℕ} {acc acc' : Passes}
    (h : Yields E (P.planPackedInode i (o.image P.tree w) files proved acc) s (.ok acc') s') :
    Tallies acc.stats acc'.stats 0 := by
  rw [Planner.planPackedInode] at h
  split at h
  · cases (yields_pure.mp h).1
  · next pcs _ =>
    dsimp only at h
    split_ifs at h with hnil
    · obtain ⟨heq, -⟩ := yields_pure.mp h
      cases heq
      subst hnil
      refine ⟨Nat.le_refl _, fun _ => ?_⟩
      dsimp only [PcStats.handled, List.length_nil]
      omega
    · obtain ⟨found, s1, -, h⟩ := yields_bind.mp h
      split_ifs at h with hnone
      · obtain ⟨heq, -⟩ := yields_pure.mp h
        cases heq
        refine ⟨Nat.le_refl _, fun _ => ?_⟩
        dsimp only [PcStats.handled]
        omega
      · obtain ⟨hle, htotal, hall⟩ := sweepPacked_tallies h
        refine ⟨hle, fun hzero => ?_⟩
        have hcount := hall hzero
        dsimp only [PcStats.handled] at hcount htotal ⊢
        omega

end

/-! ### The tally of an image -/

/-- A file that the pass over an image's files reads back, from a plan, with its member. -/
def OpenImage.ReadsBack (o : OpenImage) (P : Planner) (w : Workers o.listing) (i : ℕ) (s : Plan)
    (t : ℕ × Zmap.FileItem) : Prop :=
  (∃ cfg, o.cfg = .ok (some cfg)) ∧ ∃ todo s', Yields (Evaluates P.run)
    (P.ownTodo i (o.listing.map FileItem.listed)) s todo s' ∧ t ∈ w.order todo

theorem planPasses_tallies {P : Planner} {i : ℕ} {s s' : Plan} {o : OpenImage} {w : Workers o.listing}
    {acc : Passes} (h : Yields (Evaluates P.run) (P.planPasses i (o.image P.tree w)) s (.ok acc) s')
    (hverified : acc.stats.unverifiedMembers = 0) :
    ∃ lost, Tallies .zero acc.stats lost ∧ (lost = 0 ↔
      ∀ t, o.ReadsBack P w i s t → ∀ pc ∈ t.2.plan.ownPclusters, ¬ o.toImgCtx.LeavesOut t.2 pc) := by
  rw [Planner.planPasses] at h
  split at h
  · cases (yields_pure.mp h).1
  · next hcfg =>
    obtain ⟨heq, -⟩ := yields_pure.mp h
    cases heq
    refine ⟨0, ⟨Nat.le_refl _, fun _ => rfl⟩, iff_of_true rfl ?_⟩
    intro t hread
    obtain ⟨⟨cfg, hsome⟩, -⟩ := hread
    have hnone : o.cfg = .ok none := hcfg
    rw [hnone] at hsome
    cases hsome
  · next cfg hcfg =>
    split_ifs at h with hformat
    · cases (yields_pure.mp h).1
    · obtain ⟨r, s1, hown, h⟩ := yields_bind.mp h
      cases r with
      | error e => cases (yields_pure.mp h).1
      | ok out =>
        obtain ⟨acc1, proved⟩ := out
        obtain ⟨todo, s2, htodo, lost, htallies, hlost⟩ := planOwnPclusters_tallies hown
        have hpacked := planPackedInode_tallies h
        have hle := hpacked.unverified_le
        have hzero : acc1.stats.unverifiedMembers = 0 := by omega
        refine ⟨lost, ⟨Nat.zero_le _, fun _ => ?_⟩, (hlost hzero).trans ?_⟩
        · have hfirst := htallies.counted hzero
          have hsecond := hpacked.counted hverified
          have hnone : Passes.none.stats = PcStats.zero := rfl
          rw [hnone] at hfirst
          omega
        · constructor
          · intro hall t hread
            obtain ⟨-, todo', s3, htodo', ht⟩ := hread
            obtain ⟨rfl, -⟩ := planner_yields_unique htodo htodo'
            exact hall t ht
          · intro hall t ht
            exact hall t ⟨⟨cfg, hcfg⟩, todo, s2, htodo, ht⟩

/-- **The buckets of an image add up** to its total, in a run that fails no member, just when no file that
the run reads back has a pcluster stored as it is whose bytes are too few for a slice, or one stored turned
with a piece that is long enough. -/
theorem tally_conserved_iff {P : Planner} {i : ℕ} {s s' : Plan} (o : OpenImage) (w : Workers o.listing)
    (himage : P.image i = .ok (o.image P.tree w)) {stats : PcStats}
    (hrun : Yields (Evaluates P.run) (P.planErofs i) s (.ok stats) s')
    (hverified : stats.unverifiedMembers = 0) :
    stats.Conserved ↔
      ∀ t, o.ReadsBack P w i s t → ∀ pc ∈ t.2.plan.ownPclusters, ¬ o.toImgCtx.LeavesOut t.2 pc := by
  rw [Planner.planErofs, himage] at hrun
  obtain ⟨r, s1, hpasses, hrun⟩ := yields_bind.mp hrun
  cases r with
  | error e => cases (yields_pure.mp hrun).1
  | ok acc =>
    have hstats : acc.stats = stats := by
      obtain ⟨plan, s2, -, hrun⟩ := yields_bind.mp hrun
      obtain ⟨_, s3, -, hrun⟩ := yields_bind.mp hrun
      split_ifs at hrun with hnil
      · exact Except.ok.inj (yields_pure.mp hrun).1
      · obtain ⟨_, s4, -, hrun⟩ := yields_bind.mp hrun
        obtain ⟨r, s5, -, hrun⟩ := yields_bind.mp hrun
        cases r with
        | error e => cases (yields_pure.mp hrun).1
        | ok _ => exact Except.ok.inj (yields_pure.mp hrun).1
    subst hstats
    obtain ⟨lost, htallies, hlost⟩ := planPasses_tallies hpasses hverified
    have hcounted := htallies.counted hverified
    have hzero : PcStats.zero.handled + PcStats.zero.uncovered = 0 := rfl
    have htotal : PcStats.zero.total = 0 := rfl
    rw [← hlost, PcStats.Conserved]
    omega

/-! ### A file stored inline -/

/-- An image whose root directory has one file, of so many bytes, in an inline tail. -/
def tallyFs (n : UInt8) : Erofs where
  view := (inlineFs n (countingBytes n.toNat)).view ++ List.replicate (72 - n.toNat) 0 ++ tailRoot
  blkszbits := 9
  metaBase := 0
  packedNid := 0
  bits := Zmap.smallestBlock_bits

def tallyItem (n : ℕ) : Zmap.FileItem := ⟨['a'], ['a'], n, .streamed (inlinePlan n), (0, 1208)⟩

def openTally (n : UInt8) (h : (tallyFs n).files noDecoders = .ok ([tallyItem n.toNat], [])) : OpenImage where
  fs := tallyFs n
  z := noDecoders
  encode := copyEncode
  sha256 := id
  dictSize := 0
  cfg := .ok (some ⟨0, 0⟩)
  dict := by
    intro cfg hcfg
    cases hcfg
    rfl
  listing := [tallyItem n.toNat]
  notes := []
  files_eq := h

/-- The image and its file, which a witness claims. -/
def tallyTree (n : UInt8) : Tree where
  members :=
    [ { path := "image", depth := 0, parent := none, ord := 0, kind := "erofs", size := 1325,
        digests := some someDigests, extents := some ⟨0, [⟨0, 0, 1325⟩], by decide, by decide⟩,
        space := none, size_lt := by decide },
      { path := "image!a", depth := 1, parent := some 0, ord := 0, kind := "", size := n.toNat,
        digests := some { someDigests with sha256 := countingBytes n.toNat }, extents := none,
        space := none, size_lt := n.toNat_lt.trans (by decide) } ]
  evidence := [[], [offered]]
  deeper i p h := by
    match i with
    | 0 => cases h
    | 1 =>
      cases h
      exact Nat.zero_lt_one
    | _ + 2 => cases h

def tallyPlanner (n : UInt8) (h : (tallyFs n).files noDecoders = .ok ([tallyItem n.toNat], [])) : Planner where
  tree := tallyTree n
  spaces _ := none
  codecs := Codecs.idle
  image _ := .ok ((openTally n h).image (tallyTree n) (.inOrder _))

/-- The plan once the image has its build. -/
def tallyPlan : Plan :=
  { Plan.empty 0 with builds := (Plan.empty 0).builds.insert 0 ⟨[.gap 0 1325 none none], 0, 0, [⟨0, 0, 1325⟩]⟩ }

/-- A run with fuel for its calls. -/
theorem yields_of_interp {P : Planner} {m : PlanM (Except String PcStats)} {s : Plan} {stats : PcStats} {n : ℕ}
    (h : (((m s).interp (eval P.run n)).map fun r => r.toOption.map fun a => a.1.toOption) =
      some (some (some stats))) : ∃ s', Yields (Evaluates P.run) m s (.ok stats) s' := by
  obtain ⟨r, hr, h⟩ := Option.map_eq_some_iff.mp h
  have hreturns := (Prog.interp_iff.mp hr).mono fun c r h => (⟨n, h⟩ : Evaluates P.run c r)
  cases r with
  | error e => cases h
  | ok out =>
    obtain ⟨result, s'⟩ := out
    cases result with
    | error e => cases h
    | ok stats' =>
      cases h
      exact ⟨s', hreturns⟩

set_option maxRecDepth 20000 in
theorem tallyFs_files_short : (tallyFs 40).files noDecoders = .ok ([tallyItem 40], []) := by decide +kernel

set_option maxRecDepth 20000 in
theorem tallyFs_files_long : (tallyFs 70).files noDecoders = .ok ([tallyItem 70], []) := by decide +kernel

set_option maxRecDepth 20000 in
/-- A file of 40 bytes comes out, and its one pcluster is in no bucket. -/
theorem thin_uncounted :
    Erofs.open (tallyFs 40).view = .ok (tallyFs 40) ∧
      ∃ stats s', Yields (Evaluates (tallyPlanner 40 tallyFs_files_short).run)
        ((tallyPlanner 40 tallyFs_files_short).planErofs 0) tallyPlan (.ok stats) s' ∧
        stats = { PcStats.zero with total := 1 } ∧ stats.unverifiedMembers = 0 ∧ ¬ stats.Conserved := by
  have hrun : ((((tallyPlanner 40 tallyFs_files_short).planErofs 0 tallyPlan).interp
      (eval (tallyPlanner 40 tallyFs_files_short).run 1)).map fun r => r.toOption.map fun a => a.1.toOption) =
        some (some (some { PcStats.zero with total := 1 })) := by decide +kernel
  obtain ⟨s', hs'⟩ := yields_of_interp hrun
  exact ⟨rfl, _, s', hs', rfl, rfl, by decide⟩

set_option maxRecDepth 20000 in
/-- One of 70 bytes is spliced, and counted. -/
theorem tally_conserved_iff_long :
    ∃ stats s', Yields (Evaluates (tallyPlanner 70 tallyFs_files_long).run)
      ((tallyPlanner 70 tallyFs_files_long).planErofs 0) tallyPlan (.ok stats) s' ∧
      stats = { PcStats.zero with total := 1, verbatim := 1 } ∧ (stats.Conserved ↔
        ∀ t, (openTally 70 tallyFs_files_long).ReadsBack (tallyPlanner 70 tallyFs_files_long)
          (.inOrder [tallyItem 70]) 0 tallyPlan t → ∀ pc ∈ t.2.plan.ownPclusters,
          ¬ (openTally 70 tallyFs_files_long).toImgCtx.LeavesOut t.2 pc) := by
  have hrun : ((((tallyPlanner 70 tallyFs_files_long).planErofs 0 tallyPlan).interp
      (eval (tallyPlanner 70 tallyFs_files_long).run 1)).map fun r => r.toOption.map fun a => a.1.toOption) =
        some (some (some { PcStats.zero with total := 1, verbatim := 1 })) := by decide +kernel
  obtain ⟨s', hs'⟩ := yields_of_interp hrun
  exact ⟨_, s', hs', rfl, tally_conserved_iff (openTally 70 tallyFs_files_long) (.inOrder _) rfl hs' rfl⟩

end Hashdex
