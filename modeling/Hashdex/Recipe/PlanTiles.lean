import Hashdex.Recipe.PlanInv

/-!
# Planning tiles its nodes

The admission test of `plan_build_inner` holds each piece of a child against what earlier siblings
took, never against the child's other pieces.

* `planning_tiles`: planning never trips over its tiling assertion, and every splice it records tiles
  its node, in a run that admits no child two of whose pieces overlap
* `planning_trips`: a child that maps one block range twice is admitted, and planning panics
-/

namespace Hashdex

open RecProg RecProg.RecM Tiling

variable {P : Planner}

/-! ### Holding what was taken -/

/-- Segments that are apart, with the interval set that holds all of them. -/
structure Held (taken : Intervals) (segs : List Seg) : Prop where
  proper : taken.Proper
  mem : ∀ s ∈ segs, (s.pos, s.pos + s.len) ∈ taken
  apart : segs.Pairwise (Apart Seg.pos Seg.len)
  pos : ∀ s ∈ segs, 0 < s.len

theorem Held.nil : Held [] [] :=
  ⟨Intervals.Proper.nil, fun _ h => (nomatch h), List.Pairwise.nil, fun _ h => (nomatch h)⟩

/-- **One segment** clear of the set may be taken. -/
theorem Held.push {taken : Intervals} {segs : List Seg} (h : Held taken segs) {s : Seg}
    (hs : 0 < s.len) (hc : taken.Clear s.pos s.len) :
    Held (taken.insert s.pos s.len) (segs ++ [s]) where
  proper := h.proper.insert hs hc
  mem t ht := by
    rcases List.mem_append.mp ht with ht | ht
    · exact Intervals.mem_insert_of_mem (fun e he => hc.ne_start h.proper hs he) (h.mem t ht)
    · rw [List.mem_singleton.mp ht]
      exact Intervals.mem_insert_self taken s.pos s.len
  apart := by
    refine List.pairwise_append.mpr ⟨h.apart, List.pairwise_singleton _ _, fun t ht u hu => ?_⟩
    rw [List.mem_singleton.mp hu]
    exact hc _ (h.mem t ht)
  pos t ht := by
    rcases List.mem_append.mp ht with ht | ht
    · exact h.pos t ht
    · exact List.mem_singleton.mp ht ▸ hs

/-- **The pieces of a child** that are clear of the set, and apart, may all be taken. -/
theorem Held.pushAll {taken : Intervals} {segs pieces : List Seg} (h : Held taken segs)
    (hpos : ∀ p ∈ pieces, 0 < p.len) (hclear : ∀ p ∈ pieces, taken.Clear p.pos p.len)
    (hapart : pieces.Pairwise (Apart Seg.pos Seg.len)) :
    Held (insertAll taken pieces) (segs ++ pieces) := by
  induction pieces generalizing taken segs with
  | nil => rwa [List.append_nil]
  | cons p pieces ih =>
    obtain ⟨hp, hrest⟩ := List.pairwise_cons.mp hapart
    have hheld := h.push (hpos p List.mem_cons_self) (hclear p List.mem_cons_self)
    have hall := ih hheld (fun q hq => hpos q (List.mem_cons_of_mem p hq)) (fun q hq e he => ?_) hrest
    · rwa [List.append_assoc] at hall
    · rcases Intervals.mem_insert he with rfl | he
      · exact hp q hq
      · exact hclear q (List.mem_cons_of_mem p hq) e he

/-- What is spliced into a build keeps its segments apart. -/
theorem Held.spliceExtra {taken : Intervals} {segs batch : List Seg} {runs : List Run}
    (h : Held taken segs) (hbatch : ∀ s ∈ batch, ∀ s', placeSeg runs s = some s' → 0 < s'.len) :
    ∃ taken', Held taken' (segs ++ Hashdex.spliceExtra runs taken batch) := by
  induction batch generalizing taken segs with
  | nil => exact ⟨taken, by rwa [Hashdex.spliceExtra, List.append_nil]⟩
  | cons s batch ih =>
    have hrest : ∀ t ∈ batch, ∀ t', placeSeg runs t = some t' → 0 < t'.len :=
      fun t ht => hbatch t (List.mem_cons_of_mem s ht)
    rw [Hashdex.spliceExtra]
    split
    · next s' hs' =>
      have hlen := hbatch s List.mem_cons_self s' hs'
      split
      · next hadmit =>
        have hclear := (Intervals.admits_iff h.proper hlen).mp hadmit
        obtain ⟨taken', hheld⟩ := ih (h.push hlen hclear) hrest
        exact ⟨taken', by rwa [List.append_assoc] at hheld⟩
      · exact ih h hrest
    · exact ih h hrest

/-- The pieces of an admitted child are clear of what was taken. -/
theorem Held.clear_of_fits {taken : Intervals} {segs pieces : List Seg} (h : Held taken segs)
    (hpos : ∀ p ∈ pieces, 0 < p.len) (hfits : fits taken pieces = true) :
    ∀ p ∈ pieces, taken.Clear p.pos p.len := fun p hp =>
  (Intervals.admits_iff h.proper (hpos p hp)).mp (List.all_eq_true.mp hfits p hp)

/-- Held segments can be filled in. -/
theorem Held.tileGaps_isSome {taken : Intervals} {segs : List Seg} (h : Held taken segs) (size : ℕ) :
    ∃ tiling, tileGaps (sortSegs segs) size = some tiling :=
  Option.isSome_iff_exists.mp
    (Hashdex.tileGaps_isSome.mpr ((inOrder_sortSegs h.pos).mpr h.apart))

/-- The segments of a good build are held by the set `splice_in` makes of them. -/
theorem Build.Good.held {i : ℕ} {pclusters : List PClusterNode} {b : Build}
    (h : b.Good P.tree i pclusters) : Held (insertAll [] b.solid) b.solid := by
  have hlen : ∀ p ∈ b.solid, 0 < p.len := fun p hp => (h.segs p (List.mem_filter.mp hp).1).len_pos
  have hheld := Held.nil.pushAll hlen (fun _ _ _ he => (nomatch he))
    (h.tiles.pairwise.apart.filter _)
  rwa [List.nil_append] at hheld

/-! ### Steps that go wrong -/

/-- In a call of `plan_build_inner` on `i` from plan `s`, the loop over the children comes to a child
that has earned a place, and the admission test lets these pieces of it in. -/
def Admits (P : Planner) (i : ℕ) (s : Plan) (pieces : List Seg) : Prop :=
  ∃ space runs before c after acc s₁ s₂ cruns,
    P.tree.Identified i ∧ P.tree.ground i = some (space, runs) ∧
    P.tree.kids i = before ++ c :: after ∧
    Yields (Evaluates P.run) (P.spliceKids space runs before .none) s acc s₁ ∧
    P.tree.rangeable space c = some cruns ∧
    Yields (Evaluates P.run) (P.planKid c) s₁ true s₂ ∧
    admitted acc.taken runs c cruns = some pieces

/-- No child this call admits has two pieces that overlap. -/
def AdmitsUnfolded (P : Planner) (c : Proc × Plan) : Prop :=
  ∀ i keepEmpty, c.1 = .build i keepEmpty → ∀ pieces, Admits P i c.2 pieces →
    pieces.Pairwise (Apart Seg.pos Seg.len)

/-- No call below this one admits a child with pieces that overlap. -/
def Unfolded (P : Planner) (n : Proc) (s : Plan) : Prop :=
  ∀ d, Entered P.run (n, s) d → AdmitsUnfolded P d

/-! ### Depth -/

/-- A bound on the depth of the members. -/
def Tree.maxDepth (T : Tree) : ℕ := (T.members.map Member.depth).foldr max 0

theorem Tree.depth_le {T : Tree} {i : ℕ} (h : i < T.members.length) :
    (T.member i).depth ≤ T.maxDepth := by
  have hmem : (T.member i).depth ∈ T.members.map Member.depth := by
    rw [Tree.member, List.getD_eq_getElem?_getD, List.getElem?_eq_getElem h, Option.getD_some]
    exact List.mem_map_of_mem (List.getElem_mem h)
  rw [Tree.maxDepth]
  generalize T.members.map Member.depth = l at hmem ⊢
  induction l with
  | nil => cases hmem
  | cons d l ih =>
    rcases List.mem_cons.mp hmem with heq | hmem
    · exact heq ▸ le_max_left _ _
    · exact (ih hmem).trans (le_max_right _ _)

/-- How far below the deepest member a call stands: calls go down it. -/
def Proc.rank (T : Tree) : Proc → ℕ
  | .node i => 3 * (T.maxDepth - (T.member i).depth) + 2
  | .build i _ => 3 * (T.maxDepth - (T.member i).depth) + 1
  | .remove i => 3 * (T.maxDepth - (T.member i).depth)

/-- Every call on a child ranks below every call on its parent. -/
theorem Proc.rank_kid {T : Tree} {p c : ℕ} (h : c ∈ T.kids p) :
    3 * (T.maxDepth - (T.member c).depth) + 2 < 3 * (T.maxDepth - (T.member p).depth) := by
  have hdepth := Tree.depth_kid h
  have hle := Tree.depth_le (Tree.mem_kids.mp h).1
  omega

/-! ### Parts that end -/

/-- From a good plan the part ends well: without the assertion tripping, in a good plan, with `Q`. -/
abbrev Ends {α : Type} (P : Planner) (m : PlanM α) (s : Plan) (Q : α → Plan → Prop) : Prop :=
  Total (Evaluates P.run) (Unfolded P) (· = .inPass) m s fun a s' => s'.Good P ∧ Q a s'

section Parts

variable {α β : Type} {s : Plan}

theorem ends_pure {a : α} {Q : α → Plan → Prop} (hs : s.Good P) (h : Q a s) :
    Ends P (pure a : PlanM α) s Q := total_pure ⟨hs, h⟩

theorem ends_bind {m : PlanM α} {f : α → PlanM β} {R : α → Plan → Prop} {Q : β → Plan → Prop}
    (hm : Ends P m s R)
    (hf : ∀ a s', Yields (Evaluates P.run) m s a s' → s'.Good P → R a s' → Ends P (f a) s' Q) :
    Ends P (m >>= f) s Q :=
  total_bind hm fun a s' hy h => hf a s' hy h.1 h.2

theorem ends_getState {f : Plan → PlanM β} {Q : β → Plan → Prop} (hf : Ends P (f s) s Q) :
    Ends P (getState >>= f) s Q :=
  total_bind (R := fun a s' => a = s ∧ s' = s) (total_getState ⟨rfl, rfl⟩) fun a s' _ h => by
    obtain ⟨rfl, rfl⟩ := h
    exact hf

theorem ends_putState {t : Plan} (ht : t.Good P) :
    Ends P (putState t : PlanM Unit) s fun _ s' => s' = t := total_putState ⟨ht, rfl⟩

theorem ends_update {f : Plan → Plan} (hf : (f s).Good P) :
    Ends P (update f) s fun _ s' => s' = f s :=
  ends_getState (ends_putState hf)

/-- A part that ends also ends with what it keeps. -/
theorem ends_keeps {m : PlanM α} {Q Q' : α → Plan → Prop} (hm : Ends P m s Q)
    (hk : Leads P (Evaluates P.run) m s Q') : Ends P m s fun a s' => Q a s' ∧ Q' a s' :=
  hm.imp fun a s' hy h => ⟨h.1, h.2, (hk.yields a s' hy).2⟩

/-- The part ends, wherever it ends. -/
abbrev Runs (P : Planner) (m : PlanM α) (s : Plan) : Prop :=
  Total (Evaluates P.run) (Unfolded P) (· = .inPass) m s fun _ _ => True

theorem runs_pure (a : α) (s : Plan) : Runs P (pure a : PlanM α) s := total_pure trivial

theorem runs_getState (s : Plan) : Runs P (getState : PlanM Plan) s := total_getState trivial

theorem runs_putState (t s : Plan) : Runs P (putState t : PlanM Unit) s := total_putState trivial

theorem runs_bind {m : PlanM α} {f : α → PlanM β} (hm : Runs P m s)
    (hf : ∀ a s', Runs P (f a) s') : Runs P (m >>= f) s :=
  total_bind hm fun a s' _ _ => hf a s'

theorem runs_update (f : Plan → Plan) (s : Plan) : Runs P (update f) s :=
  runs_bind (runs_getState s) fun _ s' => runs_putState _ s'

/-- A part that ends, and leads to a later plan, ends in a good one. -/
theorem ends_of_leads {m : PlanM α} {Q : α → Plan → Prop} (hs : s.Good P) (hm : Runs P m s)
    (hl : Leads P (Evaluates P.run) m s Q) : Ends P m s Q :=
  hm.imp fun a s' hy _ =>
    have hyields := hl.yields a s' hy
    ⟨hyields.1.good hs, hyields.2⟩

theorem ends_planExtract {c : ℕ} (hs : s.Good P) :
    Ends P (P.planExtract c) s fun _ _ => True := by
  refine ends_of_leads hs ?_ (leads_planExtract c s)
  rw [Planner.planExtract]
  split
  · exact runs_bind (runs_update _ s) fun _ s' => runs_pure true s'
  · exact runs_pure false s

/-! #### Parts of the passes that call nothing -/

theorem runs_outcome (x : Except Fault α) (s : Plan) : Runs P (outcome x) s := by
  unfold outcome
  split
  · exact runs_pure _ s
  · exact total_fail rfl
  · exact runs_pure _ s
  · exact runs_pure _ s

theorem runs_pushNodes (nodes : List (PClusterNode × ℕ × ℕ)) (s : Plan) :
    Runs P (pushNodes nodes) s := by
  induction nodes generalizing s with
  | nil => exact runs_pure [] s
  | cons n nodes ih =>
    refine runs_bind (runs_getState s) fun plan t => runs_bind (runs_putState _ t) fun _ u => ?_
    exact runs_bind (ih u) fun _ v => runs_pure _ v

theorem runs_takeOwn (planned : List PlannedFile) (acc : Passes) (s : Plan) :
    Runs P (Planner.takeOwn planned acc) s := by
  induction planned generalizing acc s with
  | nil => exact runs_pure acc s
  | cons f planned ih => exact runs_bind (runs_pushNodes _ s) fun _ t => ih _ t

theorem runs_sweepPacked (img : ErofsImage) (pcs : List PCluster) (covers : List Cover)
    (acc : Passes) (s : Plan) : Runs P (Planner.sweepPacked img pcs covers acc) s := by
  rw [Planner.sweepPacked]
  dsimp only
  split
  · exact runs_pure _ s
  · refine runs_bind (runs_getState s) fun plan t => runs_bind (runs_putState _ t) fun _ u => ?_
    refine runs_bind (runs_outcome _ u) fun r v => ?_
    split
    · exact runs_pure _ v
    · refine runs_bind (runs_bind (runs_update _ v) fun _ w => ?_) fun _ x => runs_pure _ x
      exact runs_bind (runs_pushNodes _ w) fun _ x => runs_pure _ x

/-- Splicing a fresh batch into a good build never trips. -/
theorem ends_spliceIn {i : ℕ} {batch : List Seg} {idxs : List ℕ} (hs : s.Good P)
    (hidxs : ∀ j ∈ idxs, j ∈ P.tree.kids i ∧ P.tree.Identified j)
    (hbatch : ∀ seg ∈ batch, seg.Fresh idxs s.pclusters) :
    Ends P (spliceIn i batch) s fun _ _ => True := by
  refine ends_getState ?_
  split
  · exact ends_pure hs trivial
  · next b hb =>
    have hgood := hs.builds i b hb
    have hheld := hgood.held
    have hlen : ∀ seg ∈ batch, ∀ seg', placeSeg b.runs seg = some seg' → 0 < seg'.len := by
      intro seg hseg seg' hplace
      have hplaced : seg'.Good P.tree i b.space b.runs s.pclusters ∧ seg'.isGap = false :=
        (hbatch seg hseg).good (fun j hj => (hidxs j hj).2) hplace
      exact hplaced.1.len_pos
    obtain ⟨taken, hheld⟩ := hheld.spliceExtra hlen
    obtain ⟨segs, hsegs⟩ := hheld.tileGaps_isSome (b.runs.map Run.len).sum
    refine total_bind (R := fun a s' => a = segs ∧ s' = s) (total_lift (tiled_eq_ok.mpr hsegs)
      ⟨rfl, rfl⟩) fun a s' _ h => ?_
    obtain ⟨rfl, rfl⟩ := h
    refine ends_bind (ends_putState ?_) fun _ s' _ hs' _ => ends_pure hs' trivial
    exact (Later.insert_build
      (fun _ => good_spliced (fun j hj => (hidxs j hj).2) hgood hbatch hsegs)
      fun _ => kids_spliced (fun j hj => (hidxs j hj).1) (hs.kids i b hb) hbatch hsegs).good hs

end Parts

section Calls

variable {bound : ℕ} {s : Plan}

/-- What is known of calls ranked below `bound`. -/
def CallsEnd (P : Planner) (bound : ℕ) : Prop :=
  ∀ n s, n.rank P.tree < bound → s.Good P → Unfolded P n s →
    ∃ r, Evaluates P.run (n, s) r ∧ r ≠ .error .overlapping

variable (ih : CallsEnd P bound)
include ih

theorem ends_recur {n : Proc} (hn : n.rank P.tree < bound) (hs : s.Good P) :
    Ends P (recur n : PlanM Bool) s fun _ _ => True := by
  refine total_recur fun hunfolded => ?_
  obtain ⟨r, hr, hne⟩ := ih n s hn hs hunfolded
  cases r with
  | error e =>
    cases e with
    | overlapping => exact absurd rfl hne
    | inPass => exact Or.inl ⟨.inPass, rfl, hr⟩
  | ok p => exact Or.inr ⟨p.1, p.2, hr, (planner_later hr).good hs, trivial⟩

/-- A removal below the bound. -/
theorem ends_recur_remove {c : ℕ} (hc : (Proc.remove c).rank P.tree < bound) (hs : s.Good P) :
    Ends P (recur (.remove c) : PlanM Bool) s fun _ _ => True := ends_recur ih hc hs

theorem ends_removeAll {cs : List ℕ} (hcs : ∀ c ∈ cs, (Proc.remove c).rank P.tree < bound)
    (hs : s.Good P) : Ends P (removeAll cs) s fun _ _ => True := by
  induction cs generalizing s with
  | nil => exact ends_pure hs trivial
  | cons c cs ihcs =>
    refine ends_bind (ends_recur ih (hcs c List.mem_cons_self) hs) fun _ s' _ hs' _ => ?_
    exact ihcs (fun d hd => hcs d (List.mem_cons_of_mem c hd)) hs'

theorem ends_removeChildren {segs : List Seg} (hsegs : ∀ idx start len pos rootOff,
      Seg.child idx start len pos rootOff ∈ segs → (Proc.remove idx).rank P.tree < bound)
    (hs : s.Good P) : Ends P (removeChildren segs) s fun _ _ => True := by
  induction segs generalizing s with
  | nil => exact ends_pure hs trivial
  | cons seg segs ihsegs =>
    have hrest := fun idx start len pos rootOff h =>
      hsegs idx start len pos rootOff (List.mem_cons_of_mem seg h)
    cases seg with
    | child idx start len pos rootOff =>
      refine ends_bind (ends_recur ih (hsegs idx start len pos rootOff List.mem_cons_self) hs)
        fun _ s' _ hs' _ => ihsegs hrest hs'
    | _ => exact ihsegs hrest hs

theorem ends_removePlanSubtree {i : ℕ} (hi : (Proc.remove i).rank P.tree ≤ bound) (hs : s.Good P) :
    Ends P (removePlanSubtree i) s fun _ _ => True := by
  have hkid : ∀ {c}, c ∈ P.tree.kids i → (Proc.remove c).rank P.tree < bound := by
    intro c hc
    have hlt := Proc.rank_kid hc
    simp only [Proc.rank] at hi ⊢
    omega
  have hremoved : ∀ {t t' : Plan}, t.Good P → Later P t t' → t'.Good P := fun ht hl => hl.good ht
  refine ends_bind (ends_update (hremoved hs (Later.of_removed rfl rfl (fun _ _ h => h)
    (fun _ _ h => h) fun _ _ h => (IdxMap.remove_eq_some h).2))) fun _ s₁ _ hs₁ _ => ?_
  refine ends_bind (R := fun _ _ => True) ?_ fun _ s₂ _ hs₂ _ => ?_
  · refine ends_getState ?_
    split
    · next c hc =>
      obtain ⟨w, hw, hchild, -⟩ := hs₁.compress i c hc
      have hmem : c.child ∈ P.tree.kids i := by
        rw [(wrapper_eq_some hw).2.1, hchild]
        exact List.mem_singleton_self _
      refine ends_bind (ends_putState (hremoved hs₁ (Later.of_removed rfl rfl (fun _ _ h => h)
        (fun _ _ h => (IdxMap.remove_eq_some h).2) fun _ _ h => h))) fun _ t _ ht _ => ?_
      exact ends_bind (ends_recur ih (hkid hmem) ht) fun _ t' _ ht' _ => ends_pure ht' trivial
    · exact ends_pure hs₁ trivial
  refine ends_bind (R := fun _ _ => True) ?_ fun _ s₃ _ hs₃ _ => ends_pure hs₃ trivial
  refine ends_getState ?_
  split
  · next b hb =>
    have hsegs := (hs₂.builds i b hb).segs
    refine ends_bind (ends_putState (hremoved hs₂ (Later.of_removed rfl rfl
      (fun _ _ h => (IdxMap.remove_eq_some h).2) (fun _ _ h => h) fun _ _ h => h)))
      fun _ t _ ht _ => ?_
    exact ends_removeChildren ih (fun idx _ _ _ _ h => hkid (hsegs _ h).1) ht
  · exact ends_pure hs₂ trivial

/-! #### Calls on the children of a member -/

variable {i : ℕ} (hbound : 3 * (P.tree.maxDepth - (P.tree.member i).depth) ≤ bound)
include hbound

omit ih in
theorem rank_kid_lt {c : ℕ} (hc : c ∈ P.tree.kids i) :
    (Proc.node c).rank P.tree < bound ∧ (Proc.remove c).rank P.tree < bound := by
  have hlt := Proc.rank_kid hc
  simp only [Proc.rank]
  omega

theorem ends_planKid {c : ℕ} (hc : c ∈ P.tree.kids i) (hs : s.Good P) :
    Ends P (P.planKid c) s fun _ _ => True := by
  rw [Planner.planKid]
  split
  · exact ends_pure hs trivial
  · refine ends_bind (ends_recur ih (rank_kid_lt hbound hc).1 hs) fun b s' _ hs' _ => ?_
    split
    · exact ends_pure hs' trivial
    · exact ends_planExtract hs'

theorem ends_planCandidate {c : ℕ} (hc : c ∈ P.tree.kids i) (hs : s.Good P) :
    Ends P (P.planCandidate c) s fun _ _ => True := by
  rw [Planner.planCandidate]
  split
  · exact ends_pure hs trivial
  · refine ends_bind (ends_planExtract hs) fun b s' _ hs' _ => ?_
    split
    · exact ends_pure hs' trivial
    · rw [Planner.planSource]
      split
      · exact ends_recur ih (rank_kid_lt hbound hc).1 hs'
      · exact ends_pure hs' trivial

theorem ends_planCompress (hs : s.Good P) : Ends P (P.planCompress i) s fun _ _ => True := by
  rw [Planner.planCompress]
  split
  · exact ends_pure hs trivial
  · next w hw =>
    have hkid : w.child ∈ P.tree.kids i := by
      rw [(wrapper_eq_some hw).2.1]
      exact List.mem_singleton_self _
    refine ends_bind (ends_planKid ih hbound hkid hs) fun planned s' _ hs' _ => ?_
    split
    · next how hhow =>
      refine ends_of_leads hs' ?_ (leads_recordCompress hw hhow planned s')
      exact runs_bind (runs_getState s') fun _ t => runs_bind (runs_putState _ t) fun _ u =>
        runs_pure true u
    · split
      · exact ends_bind (ends_recur ih (rank_kid_lt hbound hkid).2 hs') fun _ t _ ht _ =>
          ends_pure ht trivial
      · exact ends_pure hs' trivial

/-! #### The loop over the children -/

/-- What the loop has accepted can be tiled. -/
def Accepted.Tileable (T : Tree) (i space : ℕ) (runs : List Run) (acc : Accepted) : Prop :=
  Held acc.taken acc.segs ∧ acc.Good T i space runs

variable {space : ℕ} {runs : List Run}

omit ih hbound in
/-- The loop takes the children one after the other. -/
theorem yields_spliceKids_append {before : List ℕ} {c : ℕ} {acc₀ acc acc' : Accepted}
    {s₀ s s' : Plan} (h : Yields (Evaluates P.run) (P.spliceKids space runs before acc₀) s₀ acc s)
    (hc : Yields (Evaluates P.run) (P.spliceKid space runs acc c) s acc' s') :
    Yields (Evaluates P.run) (P.spliceKids space runs (before ++ [c]) acc₀) s₀ acc' s' := by
  induction before generalizing acc₀ s₀ with
  | nil =>
    obtain ⟨rfl, rfl⟩ := yields_pure.mp h
    exact yields_bind.mpr ⟨acc', s', hc, yields_pure.mpr ⟨rfl, rfl⟩⟩
  | cons d before ihb =>
    obtain ⟨acc₁, s₁, hd, hrest⟩ := yields_bind.mp h
    exact yields_bind.mpr ⟨acc₁, s₁, hd, ihb hrest⟩

/-- **One child**: what the loop holds stays tileable, if no piece of the child overlaps another. -/
theorem ends_spliceKid {s₀ : Plan} {before after : List ℕ} {c : ℕ} {acc : Accepted}
    (hid : P.tree.Identified i) (hground : P.tree.ground i = some (space, runs))
    (hkids : P.tree.kids i = before ++ c :: after)
    (hsofar : Yields (Evaluates P.run) (P.spliceKids space runs before .none) s₀ acc s)
    (hunfolded : ∀ pieces, Admits P i s₀ pieces → pieces.Pairwise (Apart Seg.pos Seg.len))
    (hacc : acc.Tileable P.tree i space runs) (hs : s.Good P) :
    Ends P (P.spliceKid space runs acc c) s fun acc' _ => acc'.Tileable P.tree i space runs := by
  have hc : c ∈ P.tree.kids i := by
    rw [hkids]
    exact List.mem_append_right before List.mem_cons_self
  rw [Planner.spliceKid]
  split
  · exact ends_pure hs hacc
  · next cruns hruns =>
    refine ends_bind (ends_planKid ih hbound hc hs) fun planned s' hplanned hs' _ => ?_
    split
    · next hp =>
      subst hp
      split
      · next pieces hpieces =>
        have hapart := hunfolded pieces
          ⟨space, runs, before, c, after, acc, s, s', cruns, hid, hground, hkids, hsofar, hruns,
            hplanned, hpieces⟩
        have hgood := fun p hp => good_of_mem_admitted hc hruns hpieces (p := p) hp
        have hlen : ∀ p ∈ pieces, 0 < p.len := fun p hp => (hgood p hp).1.len_pos
        have hclear := hacc.1.clear_of_fits hlen (admitted_eq_some.mp hpieces).2
        refine ends_pure hs' ⟨hacc.1.pushAll hlen hclear hapart, fun p hp => ?_⟩
        exact (List.mem_append.mp hp).elim (hacc.2 p) (hgood p)
      · exact ends_bind (ends_recur ih (rank_kid_lt hbound hc).2 hs') fun _ t _ ht _ =>
          ends_pure ht hacc
    · exact ends_pure hs' hacc

/-- **The whole loop.** -/
theorem ends_spliceKids {s₀ : Plan} {before rest : List ℕ} {acc : Accepted}
    (hid : P.tree.Identified i) (hground : P.tree.ground i = some (space, runs))
    (hkids : P.tree.kids i = before ++ rest)
    (hsofar : Yields (Evaluates P.run) (P.spliceKids space runs before .none) s₀ acc s)
    (hunfolded : ∀ pieces, Admits P i s₀ pieces → pieces.Pairwise (Apart Seg.pos Seg.len))
    (hacc : acc.Tileable P.tree i space runs) (hs : s.Good P) :
    Ends P (P.spliceKids space runs rest acc) s fun acc' _ =>
      acc'.Tileable P.tree i space runs := by
  induction rest generalizing before acc s with
  | nil => exact ends_pure hs hacc
  | cons c rest ihrest =>
    refine ends_bind (ends_spliceKid ih hbound hid hground hkids hsofar hunfolded hacc hs)
      fun acc' s' hyields hs' hacc' => ?_
    exact ihrest (by rw [hkids, List.append_assoc]; rfl) (yields_spliceKids_append hsofar hyields)
      hacc' hs'

theorem ends_planBuildInner {keepEmpty : Bool} (hs : s.Good P)
    (hunfolded : AdmitsUnfolded P (.build i keepEmpty, s)) :
    Ends P (P.planBuildInner i keepEmpty) s fun _ _ => True := by
  rw [Planner.planBuildInner]
  split
  · next hid =>
    split
    · exact ends_pure hs trivial
    · next space runs hground =>
      have hstart : Yields (Evaluates P.run) (P.spliceKids space runs [] .none) s .none s :=
        yields_pure.mpr ⟨rfl, rfl⟩
      refine ends_bind (ends_spliceKids ih hbound hid hground (List.nil_append _).symm hstart
        (hunfolded i keepEmpty rfl) ⟨Held.nil, Accepted.good_none⟩ hs) fun acc s' _ hs' hacc => ?_
      refine ends_getState ?_
      split
      · exact ends_pure hs' trivial
      · obtain ⟨segs, hsegs⟩ := hacc.1.tileGaps_isSome (P.tree.member i).size
        refine ends_bind (R := fun a t => a = segs ∧ t = s')
          (total_lift (tiled_eq_ok.mpr hsegs) ⟨hs', rfl, rfl⟩) fun a t _ _ h => ?_
        obtain ⟨rfl, rfl⟩ := h
        refine ends_getState (ends_bind (ends_putState ?_) fun _ u _ hu _ => ends_pure hu trivial)
        refine (Later.insert_build (fun _ => ?_) fun _ => ?_).good hs'
        · exact good_tiled hid hground hsegs
            (fun seg hseg => hacc.2.mono _ (mem_sortSegs.mp hseg))
            fun seg hseg => hacc.2.solid seg (mem_sortSegs.mp hseg)
        · exact kids_tiled hsegs fun seg hseg => (hacc.2 seg (mem_sortSegs.mp hseg)).2.2
  · exact ends_pure hs trivial

/-! #### The passes over an image -/

theorem ends_ownTodo (files : List FileItem) (hs : s.Good P) :
    Ends P (P.ownTodo i files) s fun todo _ =>
      ∀ t ∈ todo, t.1 ∈ P.tree.kids i ∧ P.tree.Identified t.1 := by
  refine ends_of_leads hs ?_ (leads_ownTodo (fun _ _ _ _ => planner_later) files s)
  induction files generalizing s with
  | nil => exact runs_pure [] s
  | cons f files ihf =>
    suffices h : Ends P (P.ownFile i f) s fun _ _ => True from
      total_bind h fun _ s' _ h' => total_bind (ihf h'.1) fun _ t _ _ => runs_pure _ t
    rw [Planner.ownFile]
    split
    · next c hc =>
      have hkid : c ∈ P.tree.kids i := by
        split at hc
        · exact (byPath_eq_some hc).1
        · cases hc
      exact ends_bind (ends_planCandidate ih hbound hkid hs) fun _ s' _ hs' _ =>
        ends_pure hs' trivial
    · exact ends_pure hs trivial

theorem ends_planOwnPclusters {img : ErofsImage} {files : List FileItem} {acc : Passes}
    (hacc : acc.Good P.tree i s.pclusters) (hs : s.Good P) :
    Ends P (P.planOwnPclusters i img files acc) s fun r s' => ∀ acc' proved,
      r = .ok (acc', proved) → acc'.Good P.tree i s'.pclusters ∧ ∀ c ∈ proved, c ∈ acc'.planned := by
  refine ends_of_leads hs ?_ (leads_planOwnPclusters (fun _ _ _ _ => planner_later) hacc)
  refine total_bind (ends_ownTodo ih hbound files hs) fun todo t _ _ => ?_
  dsimp only
  split
  · exact runs_pure _ t
  · refine runs_bind (runs_outcome _ t) fun r u => ?_
    split
    · exact runs_pure _ u
    · exact runs_bind (runs_takeOwn _ _ u) fun _ v => runs_pure _ v

theorem ends_packedCovers {proved : List ℕ} (files : List FileItem) (hs : s.Good P) :
    Ends P (P.packedCovers i proved files) s fun _ _ => True := by
  induction files generalizing s with
  | nil => exact ends_pure hs trivial
  | cons f files ihf =>
    refine ends_bind (R := fun _ _ => True) ?_ fun _ s' _ hs' _ => ends_bind (ihf hs')
      fun _ t _ ht _ => ends_pure ht trivial
    rw [Planner.packedFile]
    split
    · exact ends_pure hs trivial
    · next c hc =>
      have hkid : c ∈ P.tree.kids i := by
        split at hc
        · cases hc
        · exact (byPath_eq_some hc).1
      split
      · exact ends_bind (ends_planCandidate ih hbound hkid hs) fun _ s' _ hs' _ =>
          ends_pure hs' trivial
      · exact ends_pure hs trivial

theorem ends_planPackedInode {img : ErofsImage} {files : List FileItem} {proved : List ℕ}
    {acc : Passes} (hproved : ∀ c ∈ proved, c ∈ acc.planned)
    (hacc : acc.Good P.tree i s.pclusters) (hs : s.Good P) :
    Ends P (P.planPackedInode i img files proved acc) s fun r s' => ∀ acc', r = .ok acc' →
      acc'.Good P.tree i s'.pclusters := by
  refine ends_of_leads hs ?_ (leads_planPackedInode (fun _ _ _ _ => planner_later) hproved hacc)
  rw [Planner.planPackedInode]
  split
  · exact runs_pure _ s
  · dsimp only
    split
    · exact runs_pure _ s
    · refine total_bind (ends_packedCovers ih hbound files hs) fun found t _ _ => ?_
      split
      · exact runs_pure _ t
      · exact runs_sweepPacked _ _ _ _ t

theorem ends_planPasses {img : ErofsImage} (hs : s.Good P) :
    Ends P (P.planPasses i img) s fun r s' => ∀ acc, r = .ok acc →
      acc.Good P.tree i s'.pclusters := by
  refine ends_of_leads hs ?_ (leads_planPasses (fun _ _ _ _ => planner_later) s)
  rw [Planner.planPasses]
  split
  · exact runs_pure _ s
  · exact runs_pure _ s
  · split
    · exact runs_pure _ s
    · split
      · exact runs_pure _ s
      · next files _ =>
        refine total_bind (ends_planOwnPclusters ih hbound Passes.good_none hs)
          fun r t hr h => ?_
        split
        · exact runs_pure _ t
        · next acc proved =>
          obtain ⟨hacc, hproved⟩ := h.2 acc proved rfl
          exact (ends_planPackedInode ih hbound hproved hacc h.1).imp fun _ _ _ _ => trivial

theorem ends_planErofs (hs : s.Good P) : Ends P (P.planErofs i) s fun _ _ => True := by
  rw [Planner.planErofs]
  split
  · exact ends_pure hs trivial
  · next img _ =>
    refine ends_bind (ends_planPasses ih hbound hs) fun r s₁ hy hs₁ hr => ?_
    split
    · exact ends_pure hs₁ trivial
    · next acc =>
      have hacc := hr acc rfl
      have hunused : ∀ c ∈ acc.planned.filter fun c => c ∉ tabledOf acc.segs s₁.pclusters ∧
          c ∉ s₁.tabled ∧ ¬ s₁.referencedBy P.tree.members.length c,
          (Proc.remove c).rank P.tree < bound := fun c hc =>
        (rank_kid_lt hbound (hacc.planned c (List.mem_filter.mp hc).1).1).2
      have hdrop : Ends P (P.dropUnusedSources (tabledOf acc.segs s₁.pclusters) acc.planned) s₁
          fun _ s₂ => s₁.pclusters <+: s₂.pclusters :=
        (ends_getState (ends_removeAll ih hunused hs₁)).imp fun _ s₂ hyields h =>
          ⟨h.1, ((leads_dropUnusedSources (fun _ _ _ _ => planner_later) _ _ s₁).yields _ s₂
            hyields).1.nodes⟩
      refine ends_getState (ends_bind hdrop fun _ s₂ _ hs₂ hpre => ?_)
      split
      · exact ends_pure hs₂ trivial
      · have htabled : ({ s₂ with
            tabled := s₂.tabled ∪ tabledOf acc.segs s₂.pclusters } : Plan).Good P :=
          ⟨hs₂.builds, hs₂.compress, hs₂.extracts, hs₂.nodes, hs₂.kids⟩
        refine ends_bind (ends_update htabled) fun _ s₃ _ hs₃ h₃ => ?_
        subst h₃
        refine ends_bind (ends_spliceIn hs₃ hacc.planned
          (hacc.mono hpre).segs) fun r s₄ _ hs₄ _ => ?_
        split <;> exact ends_pure hs₄ trivial

/-! #### Nodes -/

theorem ends_planImage (hs : s.Good P) : Ends P (P.planImage i) s fun _ _ => True := by
  refine ends_bind (ends_planErofs ih hbound hs) fun r s₁ _ hs₁ _ => ?_
  split
  · refine (ends_update ?_).imp fun _ _ _ h => ⟨h.1, trivial⟩
    exact ⟨hs₁.builds, hs₁.compress, hs₁.extracts, hs₁.nodes, hs₁.kids⟩
  · exact ends_pure hs₁ trivial

theorem ends_planNode (hnode : (Proc.node i).rank P.tree ≤ bound) (hs : s.Good P) :
    Ends P (P.planNode i) s fun _ _ => True := by
  have hbuild : ∀ keepEmpty, (Proc.build i keepEmpty).rank P.tree < bound := by
    intro keepEmpty
    simp only [Proc.rank] at hnode ⊢
    omega
  have hremove : (Proc.remove i).rank P.tree < bound := by
    simp only [Proc.rank] at hnode ⊢
    omega
  refine ends_bind (R := fun _ _ => True) ?_ fun wrapped s₁ _ hs₁ _ => ?_
  · rw [Planner.planWrapped]
    split
    · exact ends_planCompress ih hbound hs
    · exact ends_pure hs trivial
  split
  · exact ends_pure hs₁ trivial
  · split
    · refine ends_bind (ends_recur ih (hbuild true) hs₁) fun built s₂ _ hs₂ _ => ?_
      split
      · refine ends_bind (ends_planImage ih hbound hs₂) fun _ s₃ _ hs₃ _ => ends_getState ?_
        split
        · exact ends_bind (ends_recur ih hremove hs₃) fun _ t _ ht _ => ends_pure ht trivial
        · exact ends_pure hs₃ trivial
      · exact ends_pure hs₂ trivial
    · exact ends_recur ih (hbuild false) hs₁

end Calls

/-- **One call** ends without tripping when the calls that rank below it do. -/
theorem ends_body {n : Proc} {s : Plan} (ih : CallsEnd P (n.rank P.tree)) (hs : s.Good P)
    (hunfolded : AdmitsUnfolded P (n, s)) : Ends P (P.body n) s fun _ _ => True := by
  cases n with
  | node i => exact ends_planNode ih (Nat.le_add_right _ 2) le_rfl hs
  | build i keepEmpty => exact ends_planBuildInner ih (Nat.le_add_right _ 1) hs hunfolded
  | remove i => exact ends_removePlanSubtree ih le_rfl hs

/-- **Every call** ends without tripping in a run that admits no child with pieces that overlap. -/
theorem calls_end (P : Planner) (bound : ℕ) : CallsEnd P bound := by
  induction bound with
  | zero => exact fun n s h => absurd h (Nat.not_lt_zero _)
  | succ bound ih =>
    intro n s hn hs hunfolded
    have hbelow : CallsEnd P (n.rank P.tree) := fun m t hm =>
      ih m t (hm.trans_le (Nat.lt_succ_iff.mp hn))
    rcases ends_body hbelow hs (hunfolded _ Relation.ReflTransGen.refl) fun m t hreach d hd =>
        hunfolded d (Relation.ReflTransGen.head hreach hd) with ⟨e, rfl, he⟩ | ⟨b, s', hy, -⟩
    · exact ⟨.error .inPass, evaluates_iff.mpr he, fun h => nomatch h⟩
    · exact ⟨.ok (b, s'), evaluates_iff.mpr hy, fun h => nomatch h⟩

/-! ### A step that goes wrong never returns -/

theorem planner_yields_unique {α : Type} {m : PlanM α} {s s₁ s₂ : Plan} {a b : α}
    (ha : Yields (Evaluates P.run) m s a s₁) (hb : Yields (Evaluates P.run) m s b s₂) :
    a = b ∧ s₁ = s₂ :=
  Prod.mk.inj (Except.ok.inj (Prog.Returns.unique (E := Evaluates P.run)
    (fun _ _ _ => Evaluates.unique) ha hb))

/-- The loop gives up nothing it has accepted. -/
theorem spliceKids_grows {space : ℕ} {runs : List Run} {rest : List ℕ} {acc acc' : Accepted}
    {s s' : Plan}
    (h : Yields (Evaluates P.run) (P.spliceKids space runs rest acc) s acc' s') :
    acc.segs <+: acc'.segs := by
  induction rest generalizing acc s with
  | nil =>
    obtain ⟨rfl, -⟩ := yields_pure.mp h
    exact List.prefix_refl _
  | cons c rest ih =>
    obtain ⟨acc₁, s₁, hc, hrest⟩ := yields_bind.mp h
    suffices hpre : acc.segs <+: acc₁.segs from hpre.trans (ih hrest)
    rw [Planner.spliceKid] at hc
    split at hc
    · exact (yields_pure.mp hc).1 ▸ List.prefix_refl _
    · obtain ⟨planned, s₂, -, hc⟩ := yields_bind.mp hc
      split at hc
      · split at hc
        · exact (yields_pure.mp hc).1 ▸ List.prefix_append _ _
        · obtain ⟨_, _, -, hc⟩ := yields_bind.mp hc
          exact (yields_pure.mp hc).1 ▸ List.prefix_refl _
      · exact (yields_pure.mp hc).1 ▸ List.prefix_refl _

/-- What the loop gives is what it gives on a first part of the children, and goes on from. -/
theorem yields_spliceKids_split {space : ℕ} {runs : List Run} {before after : List ℕ}
    {acc₀ acc : Accepted} {s₀ s : Plan}
    (h : Yields (Evaluates P.run) (P.spliceKids space runs (before ++ after) acc₀) s₀ acc s) :
    ∃ acc₁ s₁, Yields (Evaluates P.run) (P.spliceKids space runs before acc₀) s₀ acc₁ s₁ ∧
      Yields (Evaluates P.run) (P.spliceKids space runs after acc₁) s₁ acc s := by
  induction before generalizing acc₀ s₀ with
  | nil => exact ⟨acc₀, s₀, yields_pure.mpr ⟨rfl, rfl⟩, h⟩
  | cons c before ih =>
    obtain ⟨acc₁, s₁, hc, hrest⟩ := yields_bind.mp h
    obtain ⟨acc₂, s₂, hbefore, hafter⟩ := ih hrest
    exact ⟨acc₂, s₂, yields_bind.mpr ⟨acc₁, s₁, hc, hbefore⟩, hafter⟩

/-- **A call that admits a child with overlapping pieces does not return.** -/
theorem not_returns_of_folded {d : Proc × Plan} (h : ¬ AdmitsUnfolded P d) (b : Bool)
    (plan : Plan) : ¬ Evaluates P.run d (.ok (b, plan)) := by
  intro hd
  refine h fun i keepEmpty hcall pieces hadmits => ?_
  obtain ⟨space, runs, before, c, after, acc, s₁, s₂, cruns, hid, hground, hkids, hbefore, hcruns,
    hplanned, hpieces⟩ := hadmits
  obtain ⟨n, s⟩ := d
  obtain rfl : n = .build i keepEmpty := hcall
  have hbody : Yields (Evaluates P.run) (P.planBuildInner i keepEmpty) s b plan :=
    evaluates_iff.mp hd
  rw [Planner.planBuildInner, if_pos hid, hground] at hbody
  obtain ⟨acc', s', hkidsy, hbody⟩ := yields_bind.mp hbody
  have hgood := ((leads_spliceKids (fun _ _ _ _ => planner_later) (fun _ h => h)
    Accepted.good_none s).yields acc' s' hkidsy).2
  rw [hkids] at hkidsy
  obtain ⟨acc₁, t₁, hbefore', hrest⟩ := yields_spliceKids_split hkidsy
  obtain ⟨rfl, rfl⟩ := planner_yields_unique hbefore' hbefore
  obtain ⟨acc₂, t₂, hc, hafter⟩ := yields_bind.mp hrest
  have hsegs : acc₁.segs ++ pieces <+: acc'.segs := by
    refine List.IsPrefix.trans ?_ (spliceKids_grows hafter)
    simp only [Planner.spliceKid, hcruns] at hc
    obtain ⟨planned, t, hplanned', hc⟩ := yields_bind.mp hc
    obtain ⟨rfl, rfl⟩ := planner_yields_unique hplanned' hplanned
    rw [if_pos rfl, hpieces] at hc
    exact (yields_pure.mp hc).1 ▸ List.prefix_refl _
  have hsub : pieces.Sublist acc'.segs :=
    (List.sublist_append_right acc₁.segs pieces).trans hsegs.sublist
  obtain ⟨plan', t', hget, hbody⟩ := yields_bind.mp hbody
  split at hbody
  · next hempty =>
    rw [hempty.1, List.sublist_nil] at hsub
    exact hsub ▸ List.Pairwise.nil
  · obtain ⟨segs, t₃, htiled, -⟩ := yields_bind.mp hbody
    have htiled' := tiled_eq_ok.mp (yields_lift.mp htiled).1
    have hlen : ∀ p ∈ acc'.segs, 0 < p.len := fun p hp => (hgood p hp).1.len_pos
    have hapart := (inOrder_sortSegs hlen).mp
      (tileGaps_isSome.mp (Option.isSome_iff_exists.mpr ⟨segs, htiled'⟩))
    exact hapart.sublist hsub

/-! ### Members that map no place twice -/

/-- Runs that share no place of the source, mapped into a node, share no place of the node. -/
theorem mapChild_apart {runs cruns : List Run} {size c : ℕ} {pieces : List Seg}
    (hruns : Tiles Run.log Run.len 0 size runs) (hcruns : cruns.Pairwise (Apart Run.off Run.len))
    (h : mapChild runs c cruns = some pieces) : pieces.Pairwise (Apart Seg.pos Seg.len) := by
  induction cruns generalizing pieces with
  | nil =>
    cases h
    exact List.Pairwise.nil
  | cons r rest ih =>
    obtain ⟨hr, hrest⟩ := List.pairwise_cons.mp hcruns
    rw [mapChild] at h
    split at h
    · next own hown =>
      obtain ⟨pieces', hpieces', rfl⟩ := Option.map_eq_some_iff.mp h
      refine List.pairwise_cons.mpr ⟨fun q hq => ?_, ih hrest hpieces'⟩
      obtain ⟨r', hr', own', hown', hlo', hhi', rfl⟩ := mem_mapChild hpieces' hq
      have hin : own.off ≤ r.off ∧ r.off + r.len ≤ own.off + own.len := by
        simpa using List.find?_some hown
      have hmem := List.mem_of_find?_eq_some hown
      simp only [Apart, Seg.pos, Seg.len]
      rcases hruns.eq_or_apart hmem hown' with rfl | hlog
      · -- In one run, positions differ as the offsets do.
        rcases hr r' hr' with hoff | hoff
        · exact Or.inl (by omega)
        · exact Or.inr (by omega)
      · rcases hlog with hlog | hlog
        · exact Or.inl (by omega)
        · exact Or.inr (by omega)
    · cases h

/-- No call goes wrong when no member maps a place of its source twice. -/
theorem unfolded_of_apart (h : ∀ c e, (P.tree.member c).extents = some e →
    e.runs.Pairwise (Apart Run.off Run.len)) (n : Proc) (s : Plan) : Unfolded P n s := by
  intro d _ i keepEmpty _ pieces hadmits
  obtain ⟨space, runs, before, c, after, acc, s₁, s₂, cruns, -, hground, -, -, hcruns, -, hpieces⟩ :=
    hadmits
  refine mapChild_apart (Tree.runs_tile hground) ?_ (admitted_eq_some.mp hpieces).1
  rw [Tree.rangeable] at hcruns
  split at hcruns
  · split at hcruns
    · next e he =>
      split at hcruns
      · exact Option.some.inj hcruns ▸ h c e he
      · cases hcruns
    · cases hcruns
  · cases hcruns

/-- Every splice of the plan is ascending, without overlaps, and covers its node. -/
def Plan.Tiled (T : Tree) (plan : Plan) : Prop :=
  ∀ i b, plan.builds i = some b → Tiles Seg.pos Seg.len 0 (T.member i).size b.segs ∧
    InOrder Seg.pos Seg.len b.segs

theorem Plan.Good.tiled {plan : Plan} (h : plan.Good P) : plan.Tiled P.tree := fun i b hb =>
  have htiles := (h.builds i b hb).tiles
  ⟨htiles, htiles.pairwise⟩

/-- **When planning tiles its nodes.**  In a run that admits no child two of whose pieces overlap,
every call entered ends without tripping over the assertion, and leaves a plan whose splices tile their
nodes; and a call that admits such a child leaves no plan at all. -/
theorem planning_tiles (P : Planner) (root : ℕ) :
    (Unfolded P (.node root) (Plan.empty root) →
      ∀ d, Entered P.run (.node root, Plan.empty root) d →
        ∃ r, Evaluates P.run d r ∧ r ≠ .error .overlapping ∧
          ∀ b plan, r = .ok (b, plan) → plan.Tiled P.tree) ∧
    ∀ d, ¬ AdmitsUnfolded P d → ∀ b plan, ¬ Evaluates P.run d (.ok (b, plan)) := by
  refine ⟨fun h d hd => ?_, fun d => not_returns_of_folded⟩
  have hgood : d.2.Good P := (entered_later hd).good (Plan.good_empty P root)
  obtain ⟨r, hr, hne⟩ := calls_end P _ d.1 d.2 (Nat.lt_succ_self _) hgood fun d' hd' =>
    h d' (hd.trans hd')
  refine ⟨r, hr, hne, fun b plan heq => ?_⟩
  subst heq
  exact ((planner_later hr).good hgood).tiled

/-! ### A child that maps one block twice -/

/-- Encoders that give nothing. -/
def Codecs.idle : Codecs where
  sha256 _ := List.replicate 32 0
  gzipBody _ _ := .error "no gzip"
  zstdBody _ _ _ := .error "no zstd"
  zstdVersion := ""
  microlzmaEncode _ _ _ _ := .error "no lzma"
  archiveExtract _ _ := .error "no archive"

def someDigests : Digests :=
  ⟨none, List.replicate 20 0, List.replicate 32 0, none, none, none⟩

/-- A finding that offers the very bytes. -/
def offered : Finding := ⟨"mirror", [⟨"published", some "https://mirror/file"⟩], [], none⟩

theorem threeBlocks_tile : Tiling.Tiles Run.log Run.len 0 12288 [⟨0, 0, 12288⟩] := by decide

theorem threeBlocks_pos : ∀ r ∈ ([⟨0, 0, 12288⟩] : List Run), 0 < r.len := by decide

theorem threeBlocks_lt : 12288 < 2 ^ 64 := by decide

theorem twoBlocks_lt : 8192 < 2 ^ 64 := by decide

/-- An image of three blocks with a file of two blocks in it. -/
def blockTree (file : Extents 8192) : Tree where
  members :=
    [ { path := "image", depth := 0, parent := none, ord := 0, kind := "erofs", size := 12288,
        digests := some someDigests, extents := some ⟨0, [⟨0, 0, 12288⟩], threeBlocks_tile, threeBlocks_pos⟩,
        space := none, size_lt := threeBlocks_lt },
      { path := "image!/file", depth := 1, parent := some 0, ord := 0, kind := "", size := 8192,
        digests := some someDigests, extents := some file, space := none, size_lt := twoBlocks_lt } ]
  evidence := [[], [offered]]
  deeper i p h := by
    match i with
    | 0 => cases h
    | 1 =>
      cases h
      exact Nat.zero_lt_one
    | _ + 2 => cases h

def blockPlanner (file : Extents 8192) : Planner where
  tree := blockTree file
  spaces _ := none
  codecs := Codecs.idle
  image _ := .error "not opened"

/-- A file that is the image's second block, twice. -/
def folded : Extents 8192 := ⟨0, [⟨0, 4096, 4096⟩, ⟨4096, 4096, 4096⟩], by decide, by decide⟩

/-- A file that is the second block and the third. -/
def straight : Extents 8192 := ⟨0, [⟨0, 4096, 8192⟩], by decide, by decide⟩

/-- The folded file is admitted, and the assertion fails. -/
theorem planning_trips :
    Evaluates (blockPlanner folded).run (.node 0, Plan.empty 0) (.error .overlapping) :=
  ⟨2, rfl⟩

/-- With the straight file the image is tiled. -/
theorem planning_tiles_straight :
    ∃ r, Evaluates (blockPlanner straight).run (.node 0, Plan.empty 0) r ∧
      r ≠ .error .overlapping ∧
        ∀ b plan, r = .ok (b, plan) → plan.Tiled (blockTree straight) := by
  refine (planning_tiles (blockPlanner straight) 0).1 (unfolded_of_apart (fun c e h => ?_) _ _)
    _ Relation.ReflTransGen.refl
  match c with
  | 0 =>
    cases h
    decide
  | 1 =>
    cases h
    decide
  | _ + 2 => cases h

end Hashdex
