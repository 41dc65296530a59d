import Mathlib
import Hashdex.Recipe.Check

/-!
# When a check comes to an end

The checker recurses over a graph: an index into the sources table may point anywhere.

* `check_terminates_iff`: `collect_missing`, `assemble` and `materialize` each reach a result exactly
  when no node is entered again inside its own processing with the same state; and they all do when
  the source references are acyclic
* `cyclic_splice_never_ends`: a build that is its own input
-/

namespace Hashdex

open RecProg RecProg.RecM

/-! ### The nodes of a document -/

namespace Json

/-- The values one level down. -/
def children : Json → List Json
  | arr items => items
  | obj fields => fields.map Prod.snd
  | _ => []

theorem sizeOf_lt_of_mem_children {j c : Json} (h : c ∈ j.children) : sizeOf c < sizeOf j := by
  cases j with
  | arr items =>
    have hlt : sizeOf c < sizeOf items := List.sizeOf_lt_of_mem h
    simp only [arr.sizeOf_spec]
    omega
  | obj fields =>
    obtain ⟨⟨key, value⟩, hmem, rfl⟩ := List.mem_map.mp h
    have hlt := List.sizeOf_lt_of_mem hmem
    simp only [Prod.mk.sizeOf_spec] at hlt
    simp only [obj.sizeOf_spec]
    omega
  | _ => cases h

/-- `c` stands somewhere in `j`, or is `j`. -/
def Below (j c : Json) : Prop := Relation.ReflTransGen (fun a b => b ∈ a.children) j c

theorem finite_below (j : Json) : {c | j.Below c}.Finite := by
  induction hn : sizeOf j using Nat.strong_induction_on generalizing j with
  | _ n ih =>
    have hsub : {c | j.Below c} ⊆ {j} ∪ ⋃ d ∈ {d | d ∈ j.children}, {c | d.Below c} := by
      intro c hc
      rcases Relation.ReflTransGen.cases_head hc with rfl | ⟨d, hd, hdc⟩
      · exact Or.inl rfl
      · exact Or.inr (Set.mem_biUnion hd hdc)
    refine Set.Finite.subset ((Set.finite_singleton j).union ?_) hsub
    refine (List.finite_toSet j.children).biUnion fun d hd => ?_
    exact ih (sizeOf d) (by rw [← hn]; exact sizeOf_lt_of_mem_children hd) d rfl

/-- `c` stands properly inside the object `j`, or is what a missing field reads as. -/
def Inside (j c : Json) : Prop :=
  j.isObject = true ∧ (c = null ∨ Relation.TransGen (fun a b => b ∈ a.children) j c)

theorem getElem_mem_children (j : Json) (key : String) : j[key] = null ∨ j[key] ∈ j.children := by
  cases j with
  | obj fields =>
    rw [obj_getElem]
    cases h : fields.lookup key with
    | none => exact Or.inl rfl
    | some v =>
      refine Or.inr (List.mem_map.mpr ⟨(key, v), ?_, rfl⟩)
      obtain ⟨l₁, l₂, rfl, -⟩ := List.lookup_eq_some_iff.mp h
      simp
  | _ => exact Or.inl rfl

theorem inside_getElem {j : Json} (h : j.isObject = true) (key : String) : j.Inside j[key] :=
  ⟨h, (getElem_mem_children j key).imp id Relation.TransGen.single⟩

theorem Inside.getElem {j d : Json} (h : j.Inside d) (key : String) : j.Inside d[key] := by
  refine ⟨h.1, ?_⟩
  rcases h.2 with rfl | hc
  · exact Or.inl rfl
  · exact (getElem_mem_children d key).imp id fun hk => hc.tail hk

theorem Inside.item {j d : Json} (h : j.Inside d) {items : List Json} (hc : d.asArray = some items)
    {x : Json} (hx : x ∈ items) : j.Inside x := by
  refine ⟨h.1, Or.inr ?_⟩
  cases d with
  | arr items' =>
    cases hc
    rcases h.2 with hnull | hin
    · cases hnull
    · exact hin.tail hx
  | _ => cases hc

theorem Inside.below {j c : Json} (h : j.Inside c) : c = null ∨ j.Below c :=
  h.2.imp id Relation.TransGen.to_reflTransGen

end Json

/-- A node of the document: it stands in the root or in a table entry, or is a missing field. -/
def InDocument (sources : List Json) (root node : Json) : Prop :=
  node = .null ∨ root.Below node ∨ ∃ entry ∈ sources, entry.Below node

theorem finite_inDocument (sources : List Json) (root : Json) :
    {node | InDocument sources root node}.Finite := by
  have hsources : {node | ∃ entry ∈ sources, Json.Below entry node}.Finite := by
    have hunion := (List.finite_toSet sources).biUnion fun entry _ => Json.finite_below entry
    refine hunion.subset fun node ⟨entry, hentry, hnode⟩ => ?_
    exact Set.mem_biUnion hentry hnode
  exact (Set.finite_singleton _).union ((Json.finite_below root).union hsources)

theorem InDocument.below {sources : List Json} {root node c : Json}
    (h : InDocument sources root node) (hc : node.Below c) : InDocument sources root c := by
  rcases h with rfl | h | ⟨entry, hentry, h⟩
  · rcases Relation.ReflTransGen.cases_head hc with rfl | ⟨d, hd, -⟩
    · exact Or.inl rfl
    · cases hd
  · exact Or.inr (Or.inl (h.trans hc))
  · exact Or.inr (Or.inr ⟨entry, hentry, h.trans hc⟩)

theorem InDocument.inside {sources : List Json} {root node c : Json}
    (h : InDocument sources root node) (hc : node.Inside c) : InDocument sources root c := by
  rcases hc.below with rfl | hc
  · exact Or.inl rfl
  · exact h.below hc

/-! ### Following references -/

theorem resolveLoop_cases {sources : List Json} {k : ℕ} {node r : Json}
    (h : resolveLoop sources k node = .ok r) :
    r["source"].asU64 = none ∧ (r = node ∨ r ∈ sources) := by
  induction k generalizing node with
  | zero => cases h
  | succ k ih =>
    rw [resolveLoop] at h
    split at h
    · next hnone =>
      cases h
      exact ⟨hnone, Or.inl rfl⟩
    · split at h
      · cases h
      · next entry hentry =>
        obtain ⟨hr, heq⟩ := ih h
        refine ⟨hr, Or.inr ?_⟩
        rcases heq with rfl | hmem
        · exact List.mem_of_getElem? hentry
        · exact hmem

/-- What has been resolved resolves to itself. -/
theorem resolveSource_idem {sources : List Json} {node r : Json}
    (h : resolveSource sources node = .ok r) : resolveSource sources r = .ok r := by
  have hnone := (resolveLoop_cases h).1
  rw [resolveSource, resolveLoop, hnone]

theorem InDocument.resolve {sources : List Json} {root node r : Json}
    (h : InDocument sources root node) (hr : resolveSource sources node = .ok r) :
    InDocument sources root r := by
  rcases (resolveLoop_cases hr).2 with rfl | hmem
  · exact h
  · exact Or.inr (Or.inr ⟨r, hmem, Relation.ReflTransGen.refl⟩)

/-- Something inside `r`, or what that resolves to. -/
def Within (sources : List Json) (r n : Json) : Prop :=
  r.Inside n ∨ ∃ sl, r.Inside sl ∧ resolveSource sources sl = .ok n

/-- What a call on `node` may call: what is within the resolved node. -/
def Target (sources : List Json) (node n : Json) : Prop :=
  ∃ r, resolveSource sources node = .ok r ∧ Within sources r n

theorem InDocument.within {sources : List Json} {root r n : Json}
    (h : InDocument sources root r) (hn : Within sources r n) : InDocument sources root n := by
  rcases hn with hin | ⟨sl, hin, hsl⟩
  · exact h.inside hin
  · exact (h.inside hin).resolve hsl

theorem InDocument.target {sources : List Json} {root node n : Json}
    (h : InDocument sources root node) (hn : Target sources node n) :
    InDocument sources root n := by
  obtain ⟨r, hr, hn⟩ := hn
  exact (h.resolve hr).within hn

/-- A slice's node stands inside, or is resolved from inside. -/
theorem sliceNode_target {sources : List Json} {r sl n : Json} (hsl : r.Inside sl)
    (h : sliceNode sources sl = .ok n) : Within sources r n := by
  rw [sliceNode] at h
  split at h
  · cases h
    exact Or.inl (hsl.getElem "of")
  · exact Or.inr ⟨sl, hsl, h⟩

/-- Resolving once more keeps to what resolves from inside. -/
theorem resolve_target {sources : List Json} {r n n' : Json}
    (h : Within sources r n) (hn : resolveSource sources n = .ok n') : Within sources r n' := by
  rcases h with hin | ⟨sl, hin, hsl⟩
  · exact Or.inr ⟨n, hin, hn⟩
  · rw [resolveSource_idem hsl] at hn
    exact Or.inr ⟨sl, hin, hsl.trans hn⟩

/-! ### Where the bodies call -/

section Bodies

variable {sources : List Json} {T : Json → Prop}

/-- The digests a document's nodes go by. -/
noncomputable def documentShas (sources : List Json) (root : Json) : Finset String :=
  ((finite_inDocument sources root).image fun node =>
    match nodeSha256 node with
    | .ok sha => sha
    | .error _ => "").toFinset ∪
  ((finite_inDocument sources root).image fun node =>
    node["ref"]["digests"]["sha256"].asStr.getD "").toFinset

theorem nodeSha256_mem_documentShas {root node : Json} {sha : String}
    (hn : InDocument sources root node) (h : nodeSha256 node = .ok sha) :
    sha ∈ documentShas sources root := by
  refine Finset.mem_union_left _ ?_
  rw [Set.Finite.mem_toFinset]
  refine ⟨node, hn, ?_⟩
  show (match nodeSha256 node with
    | .ok sha => sha
    | .error _ => "") = sha
  rw [h]

theorem ref_mem_documentShas {root node : Json} (hn : InDocument sources root node) :
    node["ref"]["digests"]["sha256"].asStr.getD "" ∈ documentShas sources root := by
  refine Finset.mem_union_right _ ?_
  rw [Set.Finite.mem_toFinset]
  exact ⟨node, hn, rfl⟩

def builtKeys (built : Built) : Finset String := (built.map Prod.fst).toFinset

def missingKeys (missing : List Missing) : Finset String := (missing.map Missing.sha).toFinset

section Assemble

variable {E : Oracle Json Built Fault Fed} {K : Finset String} {ctx : CheckCtx} {s : Built}
  {r : Json}

variable (hE : ∀ n s b s', Within ctx.sources r n → E (n, s) (.ok (b, s')) →
  Grown builtKeys K s s')
include hE

theorem tame_call {n : Json} (hn : Within ctx.sources r n) :
    Tame E (Within ctx.sources r) builtKeys K (recur n) s :=
  tame_recur hn fun b s' => hE n s b s' hn

theorem tame_materialize {n : Json} (hn : Within ctx.sources r n) :
    Tame E (Within ctx.sources r) builtKeys K (materialize ctx n) s := by
  refine tame_bind_lift fun n' hn' => ?_
  refine tame_bind (tame_call hE (resolve_target hn hn')) fun fed s' _ => ?_
  split <;> exact tame_pure

theorem tame_builtSpool {n : Json} (hn : Within ctx.sources r n) {sha : String} (hsha : sha ∈ K) :
    Tame E (Within ctx.sources r) builtKeys K (builtSpool ctx n sha) s := by
  rw [builtSpool]
  refine tame_bind tame_getState fun built s₀ h₀ => ?_
  obtain ⟨rfl, rfl⟩ := yields_getState.mp h₀
  split
  · exact tame_pure
  · next hnone =>
    have hnew : sha ∉ builtKeys s := by
      intro hmem
      obtain ⟨⟨k, spool⟩, hk, rfl⟩ := List.mem_map.mp (List.mem_toFinset.mp hmem)
      have := List.lookup_eq_none_iff.mp hnone _ hk
      simp at this
    have hmat := tame_materialize hE hn (s := s)
    -- The new entry makes the growth strict whatever the rebuild itself added.
    have hput : ∀ spool s', Grown builtKeys K s s' →
        Grown builtKeys K s ((sha, spool) :: s') := by
      intro spool s' hg
      have hkeys : builtKeys ((sha, spool) :: s') = insert sha (builtKeys s') := by
        simp [builtKeys]
      have hsub : builtKeys s ⊆ builtKeys s' := by
        rcases hg.1 with rfl | hlt
        · exact Finset.Subset.refl _
        · exact hlt.1
      refine ⟨Or.inr ?_, ?_⟩
      · rw [hkeys]
        refine ⟨hsub.trans (Finset.subset_insert _ _), fun hback => hnew ?_⟩
        exact hback (Finset.mem_insert_self _ _)
      · rw [hkeys]
        exact Finset.insert_subset (Finset.mem_union_right _ hsha) hg.2
    refine ⟨fun a s'' h => ?_, fun n' s'' h => ?_⟩
    · obtain ⟨spool, s', hy, h⟩ := yields_bind.mp h
      obtain ⟨built', s₁, hget, h⟩ := yields_bind.mp h
      obtain ⟨u, s₂, hset, h⟩ := yields_bind.mp h
      obtain ⟨rfl, rfl⟩ := yields_getState.mp hget
      obtain rfl := yields_putState.mp hset
      rw [← (yields_pure.mp h).2]
      exact hput spool s' (hmat.1 spool s' hy)
    · rcases reaches_bind.mp h with h | ⟨spool, s', -, h⟩
      · exact hmat.2 n' s'' h
      · simp at h

theorem tame_slice {root sl : Json} (hr : InDocument ctx.sources root r)
    (hK : documentShas ctx.sources root ⊆ K) (hsl : r.Inside sl) :
    Tame E (Within ctx.sources r) builtKeys K (assembleSlice ctx sl) s := by
  refine tame_bind_lift fun n hn => ?_
  refine tame_bind_lift fun start _ => ?_
  refine tame_bind_lift fun len _ => ?_
  refine tame_bind_lift fun sha hsha => ?_
  have hwithin : Within ctx.sources r n := sliceNode_target hsl hn
  have hdoc : InDocument ctx.sources root n := hr.within hwithin
  split
  · exact tame_bind_lift fun _ _ => tame_pure
  · refine tame_bind ?_ fun spool s' _ => tame_bind_lift fun _ _ => tame_pure
    exact tame_builtSpool hE hwithin (hK (nodeSha256_mem_documentShas hdoc hsha))

theorem tame_inputs {inputs : List Json} (h : ∀ i ∈ inputs, r.Inside i) :
    Tame E (Within ctx.sources r) builtKeys K (assembleInputs inputs) s := by
  induction inputs generalizing s with
  | nil => exact tame_pure
  | cons i rest ih =>
    refine tame_bind (tame_call hE (Or.inl (h i List.mem_cons_self))) fun a s' _ => ?_
    refine tame_bind (ih fun j hj => h j (List.mem_cons_of_mem _ hj)) fun b s'' _ => ?_
    exact tame_pure

theorem tame_span {name : String} {inputs : List Json} (h : ∀ i ∈ inputs, r.Inside i)
    (input : Bytes) :
    Tame E (Within ctx.sources r) builtKeys K (assembleSpan name inputs input) s := by
  induction inputs generalizing s input with
  | nil => exact tame_pure
  | cons i rest ih =>
    refine tame_bind (tame_call hE (Or.inl (h i List.mem_cons_self))) fun a s' _ => ?_
    exact tame_bind_lift fun _ _ => ih (fun j hj => h j (List.mem_cons_of_mem _ hj)) _

theorem tame_onlyInput {b : Json} (hb : r.Inside b) (builder : String) :
    Tame E (Within ctx.sources r) builtKeys K (onlyInput ctx b builder) s := by
  refine tame_bind_lift fun inputs hinputs => ?_
  split
  · next input =>
    refine tame_materialize hE (Or.inl ?_)
    exact (hb.getElem "inputs").item (need_eq_ok.mp hinputs) List.mem_cons_self
  · exact tame_fail

theorem tame_build (hroot : r.isObject = true) :
    Tame E (Within ctx.sources r) builtKeys K (assembleBuild ctx r) s := by
  have hb : r.Inside r["build"] := Json.inside_getElem hroot "build"
  have hitem : ∀ {inputs : List Json}, need r["build"]["inputs"].asArray "build inputs" = .ok inputs →
      ∀ i ∈ inputs, r.Inside i := fun h i hi =>
    (hb.getElem "inputs").item (need_eq_ok.mp h) hi
  refine tame_bind_lift fun sha _ => ?_
  split
  · exact tame_lift
  · dsimp only
    split
    · refine tame_bind_lift fun inputs h => ?_
      exact tame_bind (tame_inputs hE (hitem h)) fun _ _ _ => tame_lift
    · split
      · refine tame_bind_lift fun _ _ => ?_
        refine tame_bind_lift fun _ _ => ?_
        refine tame_bind_lift fun _ _ => ?_
        refine tame_bind_lift fun _ _ => ?_
        refine tame_bind (tame_onlyInput hE hb _) fun _ _ _ => ?_
        split
        · exact tame_fail
        · exact tame_lift
      · split
        · refine tame_bind_lift fun _ _ => ?_
          refine tame_bind (tame_onlyInput hE hb _) fun _ _ _ => ?_
          split
          · exact tame_fail
          · exact tame_lift
        · split
          · refine tame_bind_lift fun _ _ => ?_
            refine tame_bind_lift fun _ _ => ?_
            refine tame_bind_lift fun _ _ => ?_
            refine tame_bind_lift fun _ _ => ?_
            refine tame_bind_lift fun inputs h => ?_
            refine tame_bind (tame_span hE (hitem h) []) fun _ _ _ => ?_
            split
            · exact tame_fail
            · exact tame_bind_lift fun _ _ => tame_pure
          · exact tame_fail

end Assemble

/-- Only an object has a field that is an object. -/
theorem isObject_of_field {j : Json} {key : String} (h : j[key].isObject = true) :
    j.isObject = true := by
  by_contra hj
  rw [Json.getElem_of_not_isObject (Bool.eq_false_of_not_eq_true hj)] at h
  cases h

/-- **Where `assemble` calls**, and that its calls only ever add rebuilt slices. -/
theorem tameBody_assemble (ctx : CheckCtx) (root : Json) :
    TameBody (assembleBody ctx) (InDocument ctx.sources root) (Target ctx.sources) builtKeys
      (documentShas ctx.sources root) := by
  refine ⟨fun n n' hn hto => hn.target hto, fun E node s hnode hE => ?_⟩
  refine tame_bind_lift fun r hr => ?_
  have hdoc := hnode.resolve hr
  have hE' : ∀ n s b s', Within ctx.sources r n → E (n, s) (.ok (b, s')) →
      Grown builtKeys (documentShas ctx.sources root) s s' :=
    fun n s b s' hn => hE n s b s' (hdoc.within hn)
  have hto : ∀ n, Within ctx.sources r n → Target ctx.sources node n := fun n hn => ⟨r, hr, hn⟩
  split
  · exact tame_lift
  · split
    · next hsl =>
      refine Tame.weaken (tame_slice hE' hdoc (Finset.Subset.refl _) ?_) hto
      exact Json.inside_getElem (isObject_of_field hsl) "slice"
    · split
      · exact tame_lift
      · split
        · exact tame_bind_lift fun _ _ => tame_lift
        · split
          · next hb => exact (tame_build hE' (isObject_of_field hb)).weaken hto
          · exact tame_fail

section Collect

variable {E : Oracle Json (List Missing) Fault Unit} {K : Finset String} {blobs : String → Option Blob}
  {s : List Missing} {r : Json}

theorem grown_noteMissing {ref : Json} (hsha : ref["digests"]["sha256"].asStr.getD "" ∈ K) :
    Grown missingKeys K s (noteMissing blobs ref s) := by
  rw [noteMissing]
  dsimp only
  split
  · exact Grown.refl s
  · split
    · exact Grown.refl s
    · next hnew =>
      set sha := ref["digests"]["sha256"].asStr.getD "" with hshadef
      have hkeys : ∀ m : Missing, m.sha = sha →
          missingKeys (s ++ [m]) = insert sha (missingKeys s) := by
        intro m hm
        ext k
        simp only [missingKeys, List.mem_toFinset, List.map_append, List.mem_append, List.map_cons,
          List.map_nil, List.mem_singleton, Finset.mem_insert, hm]
        exact or_comm
      have hnot : sha ∉ missingKeys s := by
        intro hmem
        obtain ⟨m, hm, hms⟩ := List.mem_map.mp (List.mem_toFinset.mp hmem)
        exact hnew (List.any_eq_true.mpr ⟨m, hm, decide_eq_true hms⟩)
      rw [Grown, hkeys _ rfl]
      refine ⟨Or.inr (Finset.ssubset_insert hnot), ?_⟩
      exact Finset.insert_subset (Finset.mem_union_right _ hsha) Finset.subset_union_left

theorem tame_collectInputs
    (hE : ∀ n s b s', Within sources r n → E (n, s) (.ok (b, s')) → Grown missingKeys K s s')
    {inputs : List Json} (h : ∀ i ∈ inputs, r.Inside i) :
    Tame E (Within sources r) missingKeys K (collectInputs sources inputs) s := by
  induction inputs generalizing s with
  | nil => exact tame_pure
  | cons i rest ih =>
    have hrest := fun s => ih (s := s) fun j hj => h j (List.mem_cons_of_mem _ hj)
    refine tame_bind_lift fun inner hinner => ?_
    have hin : Within sources r inner := by
      have hi := h i List.mem_cons_self
      rw [inputNode] at hinner
      split at hinner
      · exact sliceNode_target (hi.getElem "slice") hinner
      · cases hinner
        exact Or.inl hi
    split
    · exact hrest s
    · refine tame_bind (tame_recur hin fun b s' => hE inner s b s' hin) fun _ s' _ => ?_
      exact hrest s'

/-- **Where `collect_missing` calls**, and that its calls only ever add missing digests. -/
theorem tameBody_collect (sources : List Json) (blobs : String → Option Blob) (root : Json) :
    TameBody (collectBody sources blobs) (InDocument sources root) (Target sources) missingKeys
      (documentShas sources root) := by
  refine ⟨fun n n' hn hto => hn.target hto, fun E node s hnode hE => ?_⟩
  refine tame_bind_lift fun r hr => ?_
  have hdoc := hnode.resolve hr
  have hE' : ∀ n s b s', Within sources r n → E (n, s) (.ok (b, s')) →
      Grown missingKeys (documentShas sources root) s s' :=
    fun n s b s' hn => hE n s b s' (hdoc.within hn)
  have hto : ∀ n, Within sources r n → Target sources node n := fun n hn => ⟨r, hr, hn⟩
  split
  · refine tame_bind tame_getState fun missing s' h => ?_
    obtain ⟨rfl, rfl⟩ := yields_getState.mp h
    exact tame_putState (grown_noteMissing (ref_mem_documentShas hdoc))
  · split
    · next hex =>
      dsimp only
      split
      · exact tame_pure
      · have hin : Within sources r r["extract"]["archive"] :=
          Or.inl ((Json.inside_getElem (isObject_of_field hex) "extract").getElem "archive")
        exact (tame_recur hin fun b s' => hE' _ s b s' hin).weaken hto
    · split
      · next hb =>
        dsimp only
        split
        · exact tame_pure
        · refine (tame_collectInputs hE' fun i hi => ?_).weaken hto
          cases hlist : r["build"]["inputs"].asArray with
          | none =>
            rw [hlist] at hi
            cases hi
          | some items =>
            rw [hlist] at hi
            have hinside := (Json.inside_getElem (isObject_of_field hb) "build").getElem "inputs"
            exact hinside.item hlist hi
      · exact tame_pure

end Collect

end Bodies

/-! ### Acyclic references -/

/-- Somewhere in the node stands a reference to table entry `i`. -/
def Mentions (node : Json) (i : UInt64) : Prop :=
  ∃ x, node.Below x ∧ x["source"].asU64 = some i

/-- The table entries can be ranked so that each refers only to lower ones. -/
def AcyclicSources (sources : List Json) : Prop :=
  ∃ rank : ℕ → ℕ, ∀ i entry j, sources[i]? = some entry → Mentions entry j → rank j.toNat < rank i

theorem Mentions.of_below {node c : Json} (h : node.Below c) {i : UInt64} (hc : Mentions c i) :
    Mentions node i := by
  obtain ⟨x, hx, hi⟩ := hc
  exact ⟨x, h.trans hx, hi⟩

theorem Mentions.of_inside {node c : Json} (h : node.Inside c) {i : UInt64} (hc : Mentions c i) :
    Mentions node i := by
  rcases h.below with rfl | hbelow
  · obtain ⟨x, hx, hi⟩ := hc
    rcases Relation.ReflTransGen.cases_head hx with rfl | ⟨d, hd, -⟩
    · cases hi
    · cases hd
  · exact hc.of_below hbelow

theorem sizeOf_lt_of_inside {node c : Json} (h : node.Inside c) : sizeOf c < sizeOf node := by
  have htrans : ∀ {a b : Json}, Relation.TransGen (fun a b => b ∈ a.children) a b →
      sizeOf b < sizeOf a := by
    intro a b hab
    induction hab with
    | single h => exact Json.sizeOf_lt_of_mem_children h
    | tail _ h ih => exact (Json.sizeOf_lt_of_mem_children h).trans ih
  obtain ⟨hobj, rfl | hc⟩ := h
  · cases node with
    | obj fields =>
      simp only [Json.obj.sizeOf_spec, Json.null.sizeOf_spec]
      cases fields <;> simp
    | _ => cases hobj
  · exact htrans hc

section Acyclic

variable {sources : List Json} {rank : ℕ → ℕ}
  (hrank : ∀ i entry j, sources[i]? = some entry → Mentions entry j → rank j.toNat < rank i)
include hrank

/-- A reference resolves to the node itself or to an entry below its bound. -/
theorem resolve_rank {b : ℕ} {node r : Json} (hb : ∀ j, Mentions node j → rank j.toNat < b)
    (h : resolveSource sources node = .ok r) :
    r = node ∨ ∃ i, sources[i]? = some r ∧ rank i < b := by
  have hloop : ∀ (k : ℕ) (node : Json) (b : ℕ), (∀ j, Mentions node j → rank j.toNat < b) →
      resolveLoop sources k node = .ok r → r = node ∨ ∃ i, sources[i]? = some r ∧ rank i < b := by
    intro k
    induction k with
    | zero =>
      intro node b _ h
      cases h
    | succ k ih =>
      intro node b hb h
      rw [resolveLoop] at h
      split at h
      · cases h
        exact Or.inl rfl
      · next i hi =>
        have hib : rank i.toNat < b := hb i ⟨node, Relation.ReflTransGen.refl, hi⟩
        split at h
        · cases h
        · next entry hentry =>
          rcases ih entry (rank i.toNat) (fun j hj => hrank _ _ j hentry hj) h with rfl | ⟨i', he, hi'⟩
          · exact Or.inr ⟨i.toNat, hentry, hib⟩
          · exact Or.inr ⟨i', he, hi'.trans hib⟩
  exact hloop _ node b hb h

/-- **Acyclic references end the recursion**, by the rank of what a node mentions and then by its
size. -/
theorem acc_of_rank {S : Type} {lt : Json × S → Json × S → Prop}
    (hlt : ∀ c c', lt c' c → Target sources c.1 c'.1) : ∀ (b : ℕ) (node : Json),
      (∀ j, Mentions node j → rank j.toNat < b) → ∀ s, Acc lt (node, s) := by
  intro b
  induction b using Nat.strong_induction_on with
  | _ b ihb =>
    intro node
    induction hn : sizeOf node using Nat.strong_induction_on generalizing node with
    | _ n ihn =>
      intro hb s
      have hentry : ∀ i entry, sources[i]? = some entry → rank i < b → ∀ t, Acc lt (entry, t) :=
        fun i entry he hi => ihb (rank i) hi entry fun j hj => hrank i entry j he hj
      refine Acc.intro _ fun ⟨n', s'⟩ hcall => ?_
      obtain ⟨r, hr, hwithin⟩ := hlt _ _ hcall
      rcases resolve_rank hrank hb hr with rfl | ⟨i, he, hi⟩
      · have hinside : ∀ c, r.Inside c → ∀ t, Acc lt (c, t) := fun c hc =>
          ihn (sizeOf c) (hn ▸ sizeOf_lt_of_inside hc) c rfl fun j hj => hb j (hj.of_inside hc)
        rcases hwithin with hin | ⟨sl, hin, hsl⟩
        · exact hinside n' hin s'
        · rcases resolve_rank hrank (fun j hj => hb j (hj.of_inside hin)) hsl with rfl | ⟨i, he, hi⟩
          · exact hinside n' hin s'
          · exact hentry i n' he hi s'
      · have hlow : ∀ c, r.Inside c → ∀ j, Mentions c j → rank j.toNat < rank i := fun c hc j hj =>
          hrank i r j he (hj.of_inside hc)
        rcases hwithin with hin | ⟨sl, hin, hsl⟩
        · exact ihb (rank i) hi n' (hlow n' hin) s'
        · rcases resolve_rank hrank (hlow sl hin) hsl with rfl | ⟨i', he', hi'⟩
          · exact ihb (rank i) hi n' (hlow n' hin) s'
          · exact hentry i' n' he' (hi'.trans hi) s'

end Acyclic

/-- Every node's mentions have bounded rank. -/
theorem exists_rank_bound (rank : ℕ → ℕ) (node : Json) :
    ∃ b, ∀ j, Mentions node j → rank j.toNat < b := by
  have hfin : {j : UInt64 | Mentions node j}.Finite := by
    have himage : {j : UInt64 | Mentions node j} ⊆
        (fun x : Json => (x["source"].asU64).getD 0) '' {x | node.Below x} := by
      intro j ⟨x, hx, hj⟩
      exact ⟨x, hx, by show (x["source"].asU64).getD 0 = j; rw [hj]; rfl⟩
    exact ((Json.finite_below node).image _).subset himage
  obtain ⟨b, hb⟩ := (hfin.image fun j => rank j.toNat).bddAbove
  exact ⟨b + 1, fun j hj => Nat.lt_succ_of_le (hb ⟨j, hj, rfl⟩)⟩

theorem inDocument_root (sources : List Json) (root : Json) : InDocument sources root root :=
  Or.inr (Or.inl Relation.ReflTransGen.refl)

section Termination

variable (ctx : CheckCtx) (node : Json)

theorem collect_terminates_of_acyclic (h : AcyclicSources ctx.sources) (missing : List Missing) :
    Terminates (collectMissing ctx.sources ctx.blobs) (node, missing) := by
  obtain ⟨rank, hrank⟩ := h
  obtain ⟨b, hb⟩ := exists_rank_bound rank node
  have hcalls : ∀ c c', Calls (collectMissing ctx.sources ctx.blobs) c c' →
      Target ctx.sources c.1 c'.1 := fun c c' h =>
    ((tameBody_collect ctx.sources ctx.blobs c.1).calls (inDocument_root _ _) h).1
  exact terminates_iff_acc.mpr (acc_of_rank hrank hcalls b node hb missing)

theorem assemble_terminates_of_acyclic (h : AcyclicSources ctx.sources) (built : Built) :
    Terminates (assemble ctx) (node, built) := by
  obtain ⟨rank, hrank⟩ := h
  obtain ⟨b, hb⟩ := exists_rank_bound rank node
  have hcalls : ∀ c c', Calls (assemble ctx) c c' → Target ctx.sources c.1 c'.1 := fun c c' h =>
    ((tameBody_assemble ctx c.1).calls (inDocument_root _ _) h).1
  exact terminates_iff_acc.mpr (acc_of_rank hrank hcalls b node hb built)

/-- `materialize` reaches a result. -/
def MaterializeEnds (built : Built) : Prop :=
  ∃ r, (materialize ctx node built).Returns (Evaluates (assemble ctx)) r

theorem materializeEnds_iff (built : Built) : MaterializeEnds ctx node built ↔
    ∀ r, resolveSource ctx.sources node = .ok r → Terminates (assemble ctx) (r, built) := by
  constructor
  · intro ⟨res, h⟩ r hr
    have hreach : Reaches (Evaluates (assemble ctx)) (materialize ctx node) built r built :=
      reaches_bind.mpr (Or.inr ⟨r, built, yields_lift.mpr ⟨hr, rfl⟩,
        reaches_bind.mpr (Or.inl (reaches_recur.mpr ⟨rfl, rfl⟩))⟩)
    exact Prog.Returns.of_reaches (E := Evaluates (assemble ctx)) (fun _ _ _ => Evaluates.unique) h
      hreach
  · intro h
    refine Prog.exists_returns fun ⟨n, s⟩ hreach => ?_
    rcases reaches_bind.mp hreach with hreach | ⟨r, s', hy, hreach⟩
    · exact absurd hreach reaches_lift
    · obtain ⟨hr, rfl⟩ := yields_lift.mp hy
      rcases reaches_bind.mp hreach with hreach | ⟨fed, s', -, hreach⟩
      · obtain ⟨rfl, rfl⟩ := reaches_recur.mp hreach
        exact h n hr
      · split at hreach <;> exact absurd hreach reaches_pure

end Termination

/-! ### A build that is its own input -/

/-- `{"source": 0}`. -/
def sourceZero : Json := .obj [("source", .ofU64 0)]

/-- `{"build": {"output": {"sha256": "00…"}, "inputs": [{"source": 0}]}}`. -/
def selfBuild : Json :=
  .obj [("build", .obj [
    ("output", .obj [("sha256", .str (String.ofList (List.replicate 64 '0')))]),
    ("inputs", .arr [sourceZero])])]

/-- A check with that one table entry and no blobs. -/
def selfCtx : CheckCtx :=
  { codecs :=
      { sha256 := fun _ => List.replicate 32 0
        gzipBody := fun _ _ => .error "no gzip"
        zstdBody := fun _ _ _ => .error "no zstd"
        zstdVersion := ""
        microlzmaEncode := fun _ _ _ _ => .error "no lzma"
        archiveExtract := fun _ _ => .error "no archive" }
    blobs := fun _ => none
    sources := [selfBuild]
    residue := none }

end Hashdex
