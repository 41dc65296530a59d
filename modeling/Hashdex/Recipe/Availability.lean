import Hashdex.Lib.RecTotal
import Hashdex.Recipe.CheckTerm
import Hashdex.Recipe.Emit

/-!
# What a check finds missing

`collect_missing` goes over a document for the blobs it lacks before anything is rebuilt, and `assemble`
decides again, node by node, whether a local blob spares it the work.  The documents the emitter writes
are made of five kinds of parts, and both passes are followed over these.

* `collect_spec`: the availability pass reports something exactly for a node that lacks a blob
* `calls_have`: a rebuild of what lacks nothing never comes to a node that lacks something
* `assembled_has`: what could be assembled lacks nothing, unless it was served from other bytes
* `assemble_ends`: a rebuild of a part comes to an end
-/

namespace Hashdex

open RecProg RecProg.RecM

/-! ### Parts of a document -/

/-- `node` is `n` or an index of it, and reads as neither a slice nor a literal. -/
structure Stands (sources : List Json) (node n : Json) : Prop where
  resolve : resolveSource sources node = .ok n
  not_slice : node["slice"].isObject = false
  not_literal : node["literal"].isObject = false

/-- What `assemble` is called on in a document that the emitter writes. -/
inductive Part (sources : List Json) : Json → Prop
  | literal {l : Json} : l.isObject = true → Part sources (.obj [("literal", l)])
  | slice {sl n : Json} {sha : String} : sl.isObject = true → sliceNode sources sl = .ok n →
    resolveSource sources n = .ok n → nodeSha256 n = .ok sha → Part sources n →
    Part sources (.obj [("slice", sl)])
  | ref {node r : Json} {sha : String} : Stands sources node (.obj [("ref", r)]) →
    r.isObject = true → r["digests"]["sha256"].asStr = some sha → Part sources node
  | extract {node e a : Json} {sha asha : String} {size : UInt64} :
    Stands sources node (.obj [("extract", e)]) → e.isObject = true →
    e["output"]["sha256"].asStr = some sha → e["output"]["size"].asU64 = some size →
    resolveSource sources e["archive"] = .ok (.obj [("ref", a)]) →
    a.isObject = true → a["digests"]["sha256"].asStr = some asha → Part sources node
  | build {node b : Json} {sha : String} {inputs : List Json} :
    Stands sources node (.obj [("build", b)]) → b.isObject = true →
    b["output"]["sha256"].asStr = some sha → b["inputs"].asArray = some inputs →
    (∀ i ∈ inputs, Part sources i) → Part sources node

/-- A call on the node fails for want of a blob: of its own, or of the archive it comes from. -/
inductive Wants (sources : List Json) (blobs : String → Option Blob) (node : Json) : Prop
  | ref {r : Json} {sha : String} : resolveSource sources node = .ok (.obj [("ref", r)]) →
    r["digests"]["sha256"].asStr = some sha → blobs sha = none → Wants sources blobs node
  | extract {e a : Json} {sha asha : String} :
    resolveSource sources node = .ok (.obj [("extract", e)]) → e["output"]["sha256"].asStr = some sha →
    blobs sha = none → resolveSource sources e["archive"] = .ok (.obj [("ref", a)]) →
    a["digests"]["sha256"].asStr = some asha → blobs asha = none → Wants sources blobs node

/-- The part wants a blob, or has none of its own and something it is made of lacks one. -/
inductive Lacks (sources : List Json) (blobs : String → Option Blob) : Json → Prop
  | wants {node : Json} : Wants sources blobs node → Lacks sources blobs node
  | build {node b i : Json} {sha : String} {inputs : List Json} :
    resolveSource sources node = .ok (.obj [("build", b)]) → b["output"]["sha256"].asStr = some sha →
    blobs sha = none → b["inputs"].asArray = some inputs → i ∈ inputs → Lacks sources blobs i →
    Lacks sources blobs node
  | slice {sl n : Json} : sliceNode sources sl = .ok n → Lacks sources blobs n →
    Lacks sources blobs (.obj [("slice", sl)])

/-- What a part is rebuilt from when no blob spares it. -/
inductive Uses (sources : List Json) (blobs : String → Option Blob) : Json → Json → Prop
  | slice {sl n : Json} {sha : String} : sliceNode sources sl = .ok n → nodeSha256 n = .ok sha →
    blobs sha = none → Uses sources blobs (.obj [("slice", sl)]) n
  | input {node b i : Json} {sha : String} {inputs : List Json} :
    resolveSource sources node = .ok (.obj [("build", b)]) → b["output"]["sha256"].asStr = some sha →
    blobs sha = none → b["inputs"].asArray = some inputs → i ∈ inputs → Uses sources blobs node i

section

variable {sources : List Json} {blobs : String → Option Blob} {node : Json}

theorem field_self (key : String) (v : Json) : (Json.obj [(key, v)])[key] = v := by
  rw [Json.obj_getElem, lookup_cons, if_pos rfl]
  rfl

theorem field_ne {key key' : String} (h : key' ≠ key) (v : Json) :
    (Json.obj [(key, v)])[key'] = .null := by
  rw [Json.obj_getElem, lookup_cons, if_neg h]
  rfl

theorem field_not_object {key key' : String} (h : key' ≠ key) (v : Json) :
    (Json.obj [(key, v)])[key'].isObject = false := by
  rw [field_ne h]
  rfl

theorem resolve_field {key : String} (h : "source" ≠ key) (v : Json) :
    resolveSource sources (.obj [(key, v)]) = .ok (.obj [(key, v)]) := by
  have hnone : (Json.obj [(key, v)])["source"].asU64 = none := by
    rw [field_ne h]
    rfl
  rw [resolveSource, resolveLoop, hnone]

theorem stands_self {key : String} (hsource : "source" ≠ key) (hslice : "slice" ≠ key)
    (hliteral : "literal" ≠ key) (v : Json) : Stands sources (.obj [(key, v)]) (.obj [(key, v)]) :=
  ⟨resolve_field hsource v, field_not_object hslice v, field_not_object hliteral v⟩

/-- A node resolves to one thing. -/
theorem resolved_inj {key key' : String} {v v' : Json}
    (h : resolveSource sources node = .ok (.obj [(key, v)]))
    (h' : resolveSource sources node = .ok (.obj [(key', v')])) : key = key' ∧ v = v' := by
  rw [h] at h'
  cases h'
  exact ⟨rfl, rfl⟩

/-- What an object of one field goes by is read off that field. -/
theorem nodeSha256_other {key : String} (href : "ref" ≠ key) (hbuild : "build" ≠ key)
    (hextract : "extract" ≠ key) (v : Json) :
    nodeSha256 (.obj [(key, v)]) = .error (.error "node is neither ref, build, nor extract") := by
  rw [nodeSha256, if_neg (by rw [field_not_object href]; decide),
    if_neg (by rw [field_not_object hbuild]; decide),
    if_neg (by rw [field_not_object hextract]; decide)]

theorem nodeSha256_ref {r : Json} {sha : String} (hr : r.isObject = true)
    (hsha : r["digests"]["sha256"].asStr = some sha) : nodeSha256 (.obj [("ref", r)]) = .ok sha := by
  rw [nodeSha256, field_self, if_pos hr, hsha]
  rfl

theorem nodeSha256_build {b : Json} {sha : String} (hb : b.isObject = true)
    (hsha : b["output"]["sha256"].asStr = some sha) : nodeSha256 (.obj [("build", b)]) = .ok sha := by
  rw [nodeSha256, field_not_object (by decide), if_neg Bool.false_ne_true, field_self, if_pos hb, hsha]
  rfl

theorem nodeSha256_extract {e : Json} {sha : String} (he : e.isObject = true)
    (hsha : e["output"]["sha256"].asStr = some sha) : nodeSha256 (.obj [("extract", e)]) = .ok sha := by
  rw [nodeSha256, field_not_object (by decide), if_neg Bool.false_ne_true, field_not_object (by decide),
    if_neg Bool.false_ne_true, field_self, if_pos he, hsha]
  rfl

/-- A part that goes by a digest is neither a slice nor a literal. -/
theorem Part.stands {sha : String} (h : Part sources node) (hself : resolveSource sources node = .ok node)
    (hsha : nodeSha256 node = .ok sha) : Stands sources node node := by
  cases h with
  | literal =>
    rw [nodeSha256_other (by decide) (by decide) (by decide)] at hsha
    cases hsha
  | slice =>
    rw [nodeSha256_other (by decide) (by decide) (by decide)] at hsha
    cases hsha
  | ref hstands => exact ⟨hself, hstands.not_slice, hstands.not_literal⟩
  | extract hstands => exact ⟨hself, hstands.not_slice, hstands.not_literal⟩
  | build hstands => exact ⟨hself, hstands.not_slice, hstands.not_literal⟩

theorem resolved_field {key key' : String} (hkey : "source" ≠ key) {v v' : Json}
    (h : resolveSource sources (.obj [(key, v)]) = .ok (.obj [(key', v')])) : key = key' ∧ v = v' :=
  resolved_inj (resolve_field hkey v) h

/-! ### Lacking a blob -/

theorem not_wants {key : String} {v : Json} (href : key ≠ "ref") (hextract : key ≠ "extract")
    (hres : resolveSource sources node = .ok (.obj [(key, v)])) : ¬ Wants sources blobs node := by
  intro h
  cases h with
  | ref hres' => exact href (resolved_inj hres hres').1
  | extract hres' => exact hextract (resolved_inj hres hres').1

theorem lacks_ref {r : Json} {sha : String} (hres : resolveSource sources node = .ok (.obj [("ref", r)]))
    (hsha : r["digests"]["sha256"].asStr = some sha) : Lacks sources blobs node ↔ blobs sha = none := by
  refine ⟨fun h => ?_, fun h => .wants (.ref hres hsha h)⟩
  cases h with
  | wants h =>
    cases h with
    | ref hres' hsha' hnone =>
      obtain ⟨-, rfl⟩ := resolved_inj hres hres'
      rw [hsha] at hsha'
      cases hsha'
      exact hnone
    | extract hres' => exact absurd (resolved_inj hres hres').1 (by decide)
  | build hres' => exact absurd (resolved_inj hres hres').1 (by decide)
  | slice => exact absurd (resolved_field (by decide) hres).1 (by decide)

theorem lacks_extract {e a : Json} {sha asha : String}
    (hres : resolveSource sources node = .ok (.obj [("extract", e)]))
    (hsha : e["output"]["sha256"].asStr = some sha)
    (harchive : resolveSource sources e["archive"] = .ok (.obj [("ref", a)]))
    (hasha : a["digests"]["sha256"].asStr = some asha) :
    Lacks sources blobs node ↔ blobs sha = none ∧ blobs asha = none := by
  refine ⟨fun h => ?_, fun ⟨hnone, hanone⟩ => .wants (.extract hres hsha hnone harchive hasha hanone)⟩
  cases h with
  | wants h =>
    cases h with
    | ref hres' => exact absurd (resolved_inj hres hres').1 (by decide)
    | extract hres' hsha' hnone harchive' hasha' hanone =>
      obtain ⟨-, rfl⟩ := resolved_inj hres hres'
      obtain ⟨-, rfl⟩ := resolved_inj harchive harchive'
      rw [hsha] at hsha'
      rw [hasha] at hasha'
      cases hsha'
      cases hasha'
      exact ⟨hnone, hanone⟩
  | build hres' => exact absurd (resolved_inj hres hres').1 (by decide)
  | slice => exact absurd (resolved_field (by decide) hres).1 (by decide)

theorem lacks_build {b : Json} {sha : String} {inputs : List Json}
    (hres : resolveSource sources node = .ok (.obj [("build", b)]))
    (hsha : b["output"]["sha256"].asStr = some sha) (hinputs : b["inputs"].asArray = some inputs) :
    Lacks sources blobs node ↔ blobs sha = none ∧ ∃ i ∈ inputs, Lacks sources blobs i := by
  refine ⟨fun h => ?_, fun ⟨hnone, i, hi, hlacks⟩ => Lacks.build hres hsha hnone hinputs hi hlacks⟩
  cases h with
  | wants h => exact absurd h (not_wants (by decide) (by decide) hres)
  | build hres' hsha' hnone hinputs' hi hlacks =>
    obtain ⟨-, rfl⟩ := resolved_inj hres hres'
    rw [hsha] at hsha'
    rw [hinputs] at hinputs'
    cases hsha'
    cases hinputs'
    exact ⟨hnone, _, hi, hlacks⟩
  | slice => exact absurd (resolved_field (by decide) hres).1 (by decide)

theorem not_lacks_literal {l : Json} : ¬ Lacks sources blobs (.obj [("literal", l)]) := by
  intro h
  generalize heq : Json.obj [("literal", l)] = node at h
  cases h with
  | wants h =>
    subst heq
    exact absurd h (not_wants (by decide) (by decide) (resolve_field (by decide) l))
  | build hres =>
    subst heq
    exact absurd (resolved_field (by decide) hres).1 (by decide)
  | slice => simp at heq

theorem lacks_slice {sl n : Json} (hn : sliceNode sources sl = .ok n) :
    Lacks sources blobs (.obj [("slice", sl)]) ↔ Lacks sources blobs n := by
  refine ⟨fun h => ?_, Lacks.slice hn⟩
  generalize heq : Json.obj [("slice", sl)] = node at h
  cases h with
  | wants h =>
    subst heq
    exact absurd h (not_wants (by decide) (by decide) (resolve_field (by decide) sl))
  | build hres =>
    subst heq
    exact absurd (resolved_field (by decide) hres).1 (by decide)
  | slice hsl hlacks =>
    cases heq
    rw [hn] at hsl
    cases hsl
    exact hlacks

/-- What has a blob of its own lacks nothing. -/
theorem not_lacks_of_blob {sha : String} (h : Part sources node)
    (hself : resolveSource sources node = .ok node) (hsha : nodeSha256 node = .ok sha)
    (hblob : blobs sha ≠ none) : ¬ Lacks sources blobs node := by
  cases h with
  | literal =>
    rw [nodeSha256_other (by decide) (by decide) (by decide)] at hsha
    cases hsha
  | slice =>
    rw [nodeSha256_other (by decide) (by decide) (by decide)] at hsha
    cases hsha
  | ref hstands hr hsha' =>
    have hres := hstands.resolve
    rw [hself] at hres
    cases hres
    rw [nodeSha256_ref hr hsha'] at hsha
    cases hsha
    rw [lacks_ref hself hsha']
    exact hblob
  | extract hstands he hsha' hsize harchive ha hasha =>
    have hres := hstands.resolve
    rw [hself] at hres
    cases hres
    rw [nodeSha256_extract he hsha'] at hsha
    cases hsha
    rw [lacks_extract hself hsha' harchive hasha]
    exact fun h => hblob h.1
  | build hstands hb hsha' hinputs =>
    have hres := hstands.resolve
    rw [hself] at hres
    cases hres
    rw [nodeSha256_build hb hsha'] at hsha
    cases hsha
    rw [lacks_build hself hsha' hinputs]
    exact fun h => hblob h.1

/-- A part lacks what it is rebuilt from. -/
theorem Uses.lacks {i : Json} (h : Uses sources blobs node i) (hi : Lacks sources blobs i) :
    Lacks sources blobs node := by
  cases h with
  | slice hsl => exact .slice hsl hi
  | input hres hsha hnone hinputs hmem => exact .build hres hsha hnone hinputs hmem hi

/-- **Part induction**, along what a part is rebuilt from. -/
theorem Part.induct_uses {P : Json → Prop}
    (step : ∀ node, Part sources node →
      (∀ i, Uses sources blobs node i → Part sources i ∧ P i) → P node)
    (h : Part sources node) : P node := by
  induction h with
  | literal hl =>
    refine step _ (.literal hl) fun i hi => ?_
    generalize heq : Json.obj [("literal", _)] = node at hi
    cases hi with
    | slice => simp at heq
    | input hres =>
      subst heq
      exact absurd (resolved_field (by decide) hres).1 (by decide)
  | @slice sl n sha hsl hn hself hsha hpart ih =>
    refine step _ (.slice hsl hn hself hsha hpart) fun i hi => ?_
    generalize heq : Json.obj [("slice", sl)] = node at hi
    cases hi with
    | slice hn' =>
      cases heq
      rw [hn] at hn'
      cases hn'
      exact ⟨hpart, ih⟩
    | input hres =>
      subst heq
      exact absurd (resolved_field (by decide) hres).1 (by decide)
  | ref hstands hr hsha =>
    refine step _ (.ref hstands hr hsha) fun i hi => ?_
    cases hi with
    | slice => exact absurd (resolved_field (by decide) hstands.resolve).1 (by decide)
    | input hres => exact absurd (resolved_inj hstands.resolve hres).1 (by decide)
  | extract hstands he hsha hsize harchive ha hasha =>
    refine step _ (.extract hstands he hsha hsize harchive ha hasha) fun i hi => ?_
    cases hi with
    | slice => exact absurd (resolved_field (by decide) hstands.resolve).1 (by decide)
    | input hres => exact absurd (resolved_inj hstands.resolve hres).1 (by decide)
  | build hstands hb hsha hinputs hparts ih =>
    refine step _ (.build hstands hb hsha hinputs hparts) fun i hi => ?_
    cases hi with
    | slice => exact absurd (resolved_field (by decide) hstands.resolve).1 (by decide)
    | input hres _ _ hinputs' hmem =>
      obtain ⟨-, rfl⟩ := resolved_inj hstands.resolve hres
      rw [hinputs] at hinputs'
      cases hinputs'
      exact ⟨hparts i hmem, ih i hmem⟩

theorem Part.uses {i : Json} (h : Part sources node) (hi : Uses sources blobs node i) :
    Part sources i :=
  h.induct_uses (P := fun node => ∀ i, Uses sources blobs node i → Part sources i)
    (fun _ _ ih i hi => (ih i hi).1) i hi

/-- `n` is `i`, or what that resolves to. -/
def Means (sources : List Json) (i n : Json) : Prop := n = i ∨ resolveSource sources i = .ok n

/-- What an index stands for is the same part. -/
theorem Part.means {i n : Json} (h : Part sources i) (hn : Means sources i n) :
    Part sources n ∧ (Lacks sources blobs n ↔ Lacks sources blobs i) := by
  rcases hn with rfl | hn
  · exact ⟨h, Iff.rfl⟩
  · have hself := resolveSource_idem hn
    cases h with
    | literal hl =>
      rw [resolve_field (by decide)] at hn
      cases hn
      exact ⟨.literal hl, Iff.rfl⟩
    | slice hsl hm hself' hsha hpart =>
      rw [resolve_field (by decide)] at hn
      cases hn
      exact ⟨.slice hsl hm hself' hsha hpart, Iff.rfl⟩
    | ref hstands hr hsha =>
      rw [hstands.resolve] at hn
      cases hn
      refine ⟨.ref (stands_self (by decide) (by decide) (by decide) _) hr hsha, ?_⟩
      rw [lacks_ref hself hsha, lacks_ref hstands.resolve hsha]
    | extract hstands he hsha hsize harchive ha hasha =>
      rw [hstands.resolve] at hn
      cases hn
      refine ⟨.extract (stands_self (by decide) (by decide) (by decide) _) he hsha hsize harchive ha hasha, ?_⟩
      rw [lacks_extract hself hsha harchive hasha, lacks_extract hstands.resolve hsha harchive hasha]
    | build hstands hb hsha hinputs hparts =>
      rw [hstands.resolve] at hn
      cases hn
      refine ⟨.build (stands_self (by decide) (by decide) (by decide) _) hb hsha hinputs hparts, ?_⟩
      rw [lacks_build hself hsha hinputs, lacks_build hstands.resolve hsha hinputs]

/-! ### The availability pass -/

/-- What is missing afterwards: something when `p`, else what was missing before. -/
def Notes (p : Prop) (missing missing' : List Missing) : Prop :=
  (p ∧ missing' ≠ []) ∨ (¬ p ∧ missing' = missing)

theorem Notes.congr {p p' : Prop} {m m' : List Missing} (h : Notes p m m') (hp : p ↔ p') :
    Notes p' m m' := by
  rcases h with ⟨h, hm⟩ | ⟨h, hm⟩
  · exact Or.inl ⟨hp.mp h, hm⟩
  · exact Or.inr ⟨fun h' => h (hp.mpr h'), hm⟩

theorem Notes.trans {p p' : Prop} {m m' m'' : List Missing} (h : Notes p m m') (h' : Notes p' m' m'') :
    Notes (p ∨ p') m m'' := by
  rcases h with ⟨hp, hm⟩ | ⟨hp, rfl⟩
  · rcases h' with ⟨-, hm'⟩ | ⟨-, rfl⟩
    · exact Or.inl ⟨Or.inl hp, hm'⟩
    · exact Or.inl ⟨Or.inl hp, hm⟩
  · rcases h' with ⟨hp', hm'⟩ | ⟨hp', rfl⟩
    · exact Or.inl ⟨Or.inr hp', hm'⟩
    · exact Or.inr ⟨fun h => h.elim hp hp', rfl⟩

/-- From any list of missing blobs, the pass over the node ends and notes whether `p`. -/
def Collects (sources : List Json) (blobs : String → Option Blob) (node : Json) (p : Prop) : Prop :=
  ∀ missing, ∃ missing', Evaluates (collectMissing sources blobs) (node, missing)
    (.ok ((), missing')) ∧ Notes p missing missing'

/-- The input of a build adds what it lacks: a literal nothing, another part what it is collected
through. -/
def Gathers (sources : List Json) (blobs : String → Option Blob) (input : Json) : Prop :=
  ∃ inner, inputNode sources input = .ok inner ∧
    ((inner["literal"].isObject = true ∧ ¬ Lacks sources blobs input) ∨
      (inner["literal"].isObject = false ∧
        Collects sources blobs inner (Lacks sources blobs input)))

theorem noteMissing_notes {r : Json} {sha : String} (hsha : r["digests"]["sha256"].asStr = some sha)
    (missing : List Missing) : Notes (blobs sha = none) missing (noteMissing blobs r missing) := by
  rw [noteMissing, hsha]
  dsimp only [Option.getD_some]
  by_cases hnone : blobs sha = none
  · refine Or.inl ⟨hnone, ?_⟩
    have hsome : ¬ (blobs sha).isSome = true := by rw [hnone]; decide
    rw [if_neg hsome]
    split
    · next hany =>
      rintro rfl
      cases hany
    · exact List.append_ne_nil_of_right_ne_nil _ (List.cons_ne_nil _ _)
  · exact Or.inr ⟨hnone, if_pos (Option.isSome_iff_ne_none.mpr hnone)⟩

theorem collect_ref {r : Json} {sha : String} (hres : resolveSource sources node = .ok (.obj [("ref", r)]))
    (hr : r.isObject = true) (hsha : r["digests"]["sha256"].asStr = some sha) :
    Collects sources blobs node (blobs sha = none) := by
  intro missing
  refine ⟨noteMissing blobs r missing, evaluates_iff.mpr ?_, noteMissing_notes hsha missing⟩
  show Yields _ (collectBody sources blobs node) missing () _
  refine yields_bind.mpr ⟨_, missing, yields_lift.mpr ⟨hres, rfl⟩, ?_⟩
  rw [field_self, if_pos hr]
  exact yields_bind.mpr ⟨missing, missing, yields_getState.mpr ⟨rfl, rfl⟩, yields_putState.mpr rfl⟩

/-- A local copy of its output spares a node the rest. -/
theorem collects_local (output : Json) (rest : Collect Unit) {sha : String} {p : Prop}
    (hbody : ∀ missing missing', Yields (Evaluates (collectMissing sources blobs))
      (if hasBlob blobs output then pure () else rest) missing () missing' →
      Evaluates (collectMissing sources blobs) (node, missing) (.ok ((), missing')))
    (hsha : output.asStr = some sha)
    (hrest : ∀ missing, ∃ missing', Yields (Evaluates (collectMissing sources blobs)) rest missing ()
      missing' ∧ Notes p missing missing') : Collects sources blobs node (blobs sha = none ∧ p) := by
  intro missing
  have hhas : hasBlob blobs output = (blobs sha).isSome := by rw [hasBlob, hsha]
  cases hblob : blobs sha with
  | some blob =>
    refine ⟨missing, hbody missing missing ?_, Or.inr ⟨fun h => (nomatch h.1), rfl⟩⟩
    rw [hhas, hblob, Option.isSome_some, if_pos rfl]
    exact yields_pure.mpr ⟨rfl, rfl⟩
  | none =>
    obtain ⟨missing', hy, hnotes⟩ := hrest missing
    refine ⟨missing', hbody missing missing' ?_, hnotes.congr ⟨fun h => ⟨rfl, h⟩, And.right⟩⟩
    rw [hhas, hblob, Option.isSome_none, if_neg Bool.false_ne_true]
    exact hy

theorem collect_extract {e a : Json} {sha asha : String}
    (hres : resolveSource sources node = .ok (.obj [("extract", e)])) (he : e.isObject = true)
    (hsha : e["output"]["sha256"].asStr = some sha)
    (harchive : resolveSource sources e["archive"] = .ok (.obj [("ref", a)])) (ha : a.isObject = true)
    (hasha : a["digests"]["sha256"].asStr = some asha) :
    Collects sources blobs node (blobs sha = none ∧ blobs asha = none) := by
  refine collects_local e["output"]["sha256"] (recur e["archive"]) (fun missing missing' h => ?_) hsha
    fun missing => ?_
  · refine evaluates_iff.mpr ?_
    show Yields _ (collectBody sources blobs node) missing () _
    refine yields_bind.mpr ⟨_, missing, yields_lift.mpr ⟨hres, rfl⟩, ?_⟩
    rw [field_not_object (by decide), if_neg Bool.false_ne_true, field_self, if_pos he]
    exact h
  · obtain ⟨missing', hev, hnotes⟩ := collect_ref harchive ha hasha missing
    exact ⟨missing', yields_recur.mpr hev, hnotes⟩

/-- The inputs of a build are gone over in order. -/
theorem collectInputs_spec {inputs : List Json} (h : ∀ i ∈ inputs, Gathers sources blobs i)
    (missing : List Missing) :
    ∃ missing', Yields (Evaluates (collectMissing sources blobs)) (collectInputs sources inputs) missing
      () missing' ∧ Notes (∃ i ∈ inputs, Lacks sources blobs i) missing missing' := by
  induction inputs generalizing missing with
  | nil => exact ⟨missing, yields_pure.mpr ⟨rfl, rfl⟩, Or.inr ⟨fun ⟨_, hi, _⟩ => (nomatch hi), rfl⟩⟩
  | cons input rest ih =>
    have hrest : ∀ i ∈ rest, Gathers sources blobs i := fun i hi => h i (List.mem_cons_of_mem _ hi)
    have hor : (Lacks sources blobs input ∨ ∃ i ∈ rest, Lacks sources blobs i) ↔
        ∃ i ∈ input :: rest, Lacks sources blobs i := by
      simp only [List.mem_cons, exists_eq_or_imp]
    obtain ⟨inner, hinner, hliteral | ⟨hliteral, hcollects⟩⟩ := h input List.mem_cons_self
    · obtain ⟨missing', hy, hnotes⟩ := ih hrest missing
      refine ⟨missing', yields_bind.mpr ⟨inner, missing, yields_lift.mpr ⟨hinner, rfl⟩, ?_⟩, ?_⟩
      · rw [if_pos hliteral.1]
        exact hy
      · exact hnotes.congr (by rw [← hor, or_iff_right hliteral.2])
    · obtain ⟨missing₁, hev, hnotes₁⟩ := hcollects missing
      obtain ⟨missing', hy, hnotes⟩ := ih hrest missing₁
      refine ⟨missing', yields_bind.mpr ⟨inner, missing, yields_lift.mpr ⟨hinner, rfl⟩, ?_⟩, ?_⟩
      · rw [hliteral, if_neg Bool.false_ne_true]
        exact yields_bind.mpr ⟨(), missing₁, yields_recur.mpr hev, hy⟩
      · exact (hnotes₁.trans hnotes).congr hor

theorem collect_build {b : Json} {sha : String} {inputs : List Json}
    (hres : resolveSource sources node = .ok (.obj [("build", b)])) (hb : b.isObject = true)
    (hsha : b["output"]["sha256"].asStr = some sha) (hinputs : b["inputs"].asArray = some inputs)
    (h : ∀ i ∈ inputs, Gathers sources blobs i) :
    Collects sources blobs node (blobs sha = none ∧ ∃ i ∈ inputs, Lacks sources blobs i) := by
  have hrest : collectInputs sources inputs = collectInputs sources (b["inputs"].asArray.getD []) := by
    rw [hinputs]
    rfl
  refine collects_local b["output"]["sha256"] (collectInputs sources inputs) (fun missing missing' h => ?_)
    hsha (collectInputs_spec h)
  rw [hrest] at h
  refine evaluates_iff.mpr ?_
  show Yields _ (collectBody sources blobs node) missing () _
  refine yields_bind.mpr ⟨_, missing, yields_lift.mpr ⟨hres, rfl⟩, ?_⟩
  rw [field_not_object (by decide), if_neg Bool.false_ne_true, field_not_object (by decide),
    if_neg Bool.false_ne_true, field_self, if_pos hb]
  exact h

/-- A part that is no slice is collected through itself. -/
theorem Stands.gathers {n : Json} (h : Stands sources node n)
    (hcollects : Collects sources blobs node (Lacks sources blobs node)) :
    Gathers sources blobs node := by
  refine ⟨node, ?_, Or.inr ⟨h.not_literal, hcollects⟩⟩
  rw [inputNode, h.not_slice, if_neg Bool.false_ne_true]

theorem Part.gathers (h : Part sources node) : Gathers sources blobs node := by
  induction h with
  | @literal l hl =>
    refine ⟨.obj [("literal", l)], ?_, Or.inl ⟨?_, not_lacks_literal⟩⟩
    · rw [inputNode, field_not_object (by decide), if_neg Bool.false_ne_true]
    · rw [field_self]
      exact hl
  | @slice sl n sha hsl hn hself hsha hpart ih =>
    have hstands := hpart.stands hself hsha
    obtain ⟨inner, hinner, hcases⟩ := ih
    rw [inputNode, hstands.not_slice, if_neg Bool.false_ne_true] at hinner
    cases hinner
    refine ⟨n, ?_, ?_⟩
    · rw [inputNode, field_self, if_pos hsl, hn]
    · rw [lacks_slice hn]
      exact hcases
  | ref hstands hr hsha =>
    refine hstands.gathers fun missing => ?_
    rw [lacks_ref hstands.resolve hsha]
    exact collect_ref hstands.resolve hr hsha missing
  | extract hstands he hsha hsize harchive ha hasha =>
    refine hstands.gathers fun missing => ?_
    rw [lacks_extract hstands.resolve hsha harchive hasha]
    exact collect_extract hstands.resolve he hsha harchive ha hasha missing
  | build hstands hb hsha hinputs _ ih =>
    refine hstands.gathers fun missing => ?_
    rw [lacks_build hstands.resolve hsha hinputs]
    exact collect_build hstands.resolve hb hsha hinputs ih missing

/-- **The availability pass reports something exactly for a node that lacks a blob.** -/
theorem collect_spec {sha : String} (h : Part sources node)
    (hself : resolveSource sources node = .ok node) (hsha : nodeSha256 node = .ok sha) :
    Collects sources blobs node (Lacks sources blobs node) := by
  have hstands := h.stands hself hsha
  obtain ⟨inner, hinner, hcases⟩ := h.gathers
  rw [inputNode, hstands.not_slice, if_neg Bool.false_ne_true] at hinner
  cases hinner
  rcases hcases with ⟨hliteral, -⟩ | ⟨-, hcollects⟩
  · rw [hstands.not_literal] at hliteral
    cases hliteral
  · exact hcollects

end

/-! ### The parts of a rebuild -/

/-- Calls on `i` go to nodes with `T`, and from good builds they leave good builds and show `Has i`. -/
def Callable (sources : List Json) (E : Oracle Json Built Fault Fed) (T : Json → Prop)
    (Good : Built → Prop) (Has : Json → Prop) (i : Json) : Prop :=
  ∀ n, Means sources i n → T n ∧
    ∀ s fed s', Good s → E (n, s) (.ok (fed, s')) → Has i ∧ Good s'

section Rebuild

variable {ctx : CheckCtx} {E : Oracle Json Built Fault Fed} {T : Json → Prop} {Good : Built → Prop}
  {Has : Json → Prop} {s : Built} {i : Json} {inputs : List Json}

theorem goes_call (hi : Callable ctx.sources E T Good Has i) (hs : Good s) :
    Goes E T (recur i) s fun _ s' => Has i ∧ Good s' :=
  goes_recur (hi i (Or.inl rfl)).1 fun fed s' => (hi i (Or.inl rfl)).2 s fed s' hs

theorem goes_materialize (hi : Callable ctx.sources E T Good Has i) (hs : Good s) :
    Goes E T (materialize ctx i) s fun _ s' => Has i ∧ Good s' := by
  refine goes_bind_lift fun n hn => ?_
  have hcall := hi n (Or.inr hn)
  refine goes_bind (goes_recur hcall.1 fun fed s' => hcall.2 s fed s' hs) fun fed s' h => ?_
  split <;> exact goes_pure h

theorem goes_inputs (hi : ∀ i ∈ inputs, Callable ctx.sources E T Good Has i) (hs : Good s) :
    Goes E T (assembleInputs inputs) s fun _ s' => (∀ i ∈ inputs, Has i) ∧ Good s' := by
  induction inputs generalizing s with
  | nil => exact goes_pure ⟨fun _ h => (nomatch h), hs⟩
  | cons input rest ih =>
    refine goes_bind (goes_call (hi input List.mem_cons_self) hs) fun a s' ⟨hhas, hs'⟩ => ?_
    refine goes_bind (ih (fun j hj => hi j (List.mem_cons_of_mem _ hj)) hs') fun b s'' ⟨hall, hs''⟩ => ?_
    exact goes_pure ⟨List.forall_mem_cons.mpr ⟨hhas, hall⟩, hs''⟩

theorem goes_span {name : String} (hi : ∀ i ∈ inputs, Callable ctx.sources E T Good Has i) (hs : Good s)
    (input : Bytes) :
    Goes E T (assembleSpan name inputs input) s fun _ s' => (∀ i ∈ inputs, Has i) ∧ Good s' := by
  induction inputs generalizing s input with
  | nil => exact goes_pure ⟨fun _ h => (nomatch h), hs⟩
  | cons j rest ih =>
    refine goes_bind (goes_call (hi j List.mem_cons_self) hs) fun a s' ⟨hhas, hs'⟩ => ?_
    refine goes_bind_lift fun _ _ => ?_
    refine (ih (fun k hk => hi k (List.mem_cons_of_mem _ hk)) hs' _).imp fun _ s'' ⟨hall, hs''⟩ => ?_
    exact ⟨List.forall_mem_cons.mpr ⟨hhas, hall⟩, hs''⟩

theorem goes_onlyInput {b : Json} (builder : String) (hinputs : b["inputs"].asArray = some inputs)
    (hi : ∀ i ∈ inputs, Callable ctx.sources E T Good Has i) (hs : Good s) :
    Goes E T (onlyInput ctx b builder) s fun _ s' => (∀ i ∈ inputs, Has i) ∧ Good s' := by
  refine goes_bind_lift fun inputs' hinputs' => ?_
  rw [need_eq_ok, hinputs] at hinputs'
  cases hinputs'
  split
  · refine (goes_materialize (hi _ List.mem_cons_self) hs).imp fun _ s' ⟨hhas, hs'⟩ => ?_
    exact ⟨List.forall_mem_singleton.mpr hhas, hs'⟩
  · exact goes_fail

theorem goes_slice {sl n : Json} {sha : String} (hn : sliceNode ctx.sources sl = .ok n)
    (hsha : nodeSha256 n = .ok sha) (hnone : ctx.blobs sha = none)
    (hi : Callable ctx.sources E T Good Has n) (hs : Good s)
    (hcached : ∀ spool, s.lookup sha = some spool → Has n)
    (hput : ∀ spool s', Has n → Good s' → Good ((sha, spool) :: s')) :
    Goes E T (assembleSlice ctx sl) s fun _ s' => Has n ∧ Good s' := by
  refine goes_bind_lift fun n' hn' => ?_
  rw [hn] at hn'
  cases hn'
  refine goes_bind_lift fun start _ => goes_bind_lift fun len _ => goes_bind_lift fun sha' hsha' => ?_
  rw [hsha] at hsha'
  cases hsha'
  rw [hnone]
  refine goes_bind (R := fun _ s' => Has n ∧ Good s') ?_ fun spool s' h =>
    goes_bind_lift fun _ _ => goes_pure h
  refine goes_bind (goes_getState (Q := fun built s' => built = s ∧ s' = s) ⟨rfl, rfl⟩) ?_
  rintro built s' ⟨rfl, rfl⟩
  split
  · next spool hlookup => exact goes_pure ⟨hcached spool hlookup, hs⟩
  · refine goes_bind (goes_materialize hi hs) fun spool s' ⟨hhas, hs'⟩ => ?_
    refine goes_bind (goes_getState (Q := fun built t => built = s' ∧ t = s') ⟨rfl, rfl⟩) ?_
    rintro built t ⟨rfl, rfl⟩
    refine goes_bind (goes_putState (Q := fun _ t => Good t) (hput spool _ hhas hs')) fun _ t ht => ?_
    exact goes_pure ⟨hhas, ht⟩

/-- A build without a copy of its output comes to each of its inputs. -/
theorem goes_build {b : Json} {sha : String} (hb : b.isObject = true)
    (hsha : b["output"]["sha256"].asStr = some sha) (hnone : ctx.blobs sha = none)
    (hinputs : b["inputs"].asArray = some inputs)
    (hi : ∀ i ∈ inputs, Callable ctx.sources E T Good Has i) (hs : Good s) :
    Goes E T (assembleBuild ctx (.obj [("build", b)])) s fun _ s' => (∀ i ∈ inputs, Has i) ∧ Good s' := by
  have hneed : ∀ {inputs'}, need b["inputs"].asArray "build inputs" = .ok inputs' → inputs' = inputs := by
    intro inputs' h
    rw [need_eq_ok, hinputs] at h
    exact (Option.some.inj h).symm
  rw [assembleBuild, nodeSha256_build hb hsha, field_self]
  refine goes_bind_lift fun sha' hsha' => ?_
  cases hsha'
  have hblob : ¬ (ctx.blobs sha).isSome = true := by rw [hnone]; decide
  rw [if_neg hblob]
  dsimp only
  split
  · refine goes_bind_lift fun inputs' h => ?_
    rw [hneed h]
    exact goes_bind (goes_inputs hi hs) fun _ _ h => goes_lift fun _ _ => h
  · split
    · refine goes_bind_lift fun _ _ => ?_
      refine goes_bind_lift fun _ _ => ?_
      refine goes_bind_lift fun _ _ => ?_
      refine goes_bind_lift fun _ _ => ?_
      refine goes_bind (goes_onlyInput _ hinputs hi hs) fun _ _ h => ?_
      split
      · exact goes_fail
      · exact goes_lift fun _ _ => h
    · split
      · refine goes_bind_lift fun _ _ => ?_
        refine goes_bind (goes_onlyInput _ hinputs hi hs) fun _ _ h => ?_
        split
        · exact goes_fail
        · exact goes_lift fun _ _ => h
      · split
        · refine goes_bind_lift fun _ _ => ?_
          refine goes_bind_lift fun _ _ => ?_
          refine goes_bind_lift fun _ _ => ?_
          refine goes_bind_lift fun _ _ => ?_
          refine goes_bind_lift fun inputs' h => ?_
          rw [hneed h]
          refine goes_bind (goes_span hi hs []) fun _ _ h => ?_
          split
          · exact goes_fail
          · exact goes_bind_lift fun _ _ => goes_pure h
        · exact goes_fail

/-- What a blob spares is streamed or fails. -/
theorem assembleBlob_some {sha name : String} {fed : Fed} (h : assembleBlob ctx sha name = .ok fed) :
    ctx.blobs sha ≠ none := by
  obtain ⟨blob, hblob, -⟩ := bind_eq_ok.mp h
  rw [need_eq_ok] at hblob
  rw [hblob]
  exact Option.some_ne_none blob

theorem assembleExtract_some {e a : Json} {sha asha : String} {fed : Fed}
    (hsha : e["output"]["sha256"].asStr = some sha)
    (harchive : resolveSource ctx.sources e["archive"] = .ok (.obj [("ref", a)]))
    (ha : a.isObject = true) (hasha : a["digests"]["sha256"].asStr = some asha)
    (h : assembleExtract ctx (.obj [("extract", e)]) = .ok fed) :
    ctx.blobs sha ≠ none ∨ ctx.blobs asha ≠ none := by
  rw [assembleExtract, field_self] at h
  obtain ⟨want, hwant, h⟩ := bind_eq_ok.mp h
  rw [need_eq_ok, hsha] at hwant
  cases hwant
  obtain ⟨size, -, h⟩ := bind_eq_ok.mp h
  by_cases hblob : ctx.blobs sha = none
  · right
    have hnone : ¬ (ctx.blobs sha).isSome = true := by rw [hblob]; decide
    rw [if_neg hnone] at h
    obtain ⟨archive, harchive', h⟩ := bind_eq_ok.mp h
    rw [harchive] at harchive'
    cases harchive'
    obtain ⟨asha', hasha', h⟩ := bind_eq_ok.mp h
    rw [nodeSha256_ref ha hasha] at hasha'
    cases hasha'
    obtain ⟨ablob, hablob, -⟩ := bind_eq_ok.mp h
    rw [need_eq_ok] at hablob
    rw [hablob]
    exact Option.some_ne_none ablob
  · exact Or.inl hblob

/-- **One call of `assemble`.**  It calls on what the part is rebuilt from; and if it succeeds on a part
that lacks something, so did a call on something that lacks something. -/
theorem part_goes {node : Json} (h : Part ctx.sources node)
    (hi : ∀ i, Uses ctx.sources ctx.blobs node i → Callable ctx.sources E T Good Has i) (hs : Good s)
    (hslice : ∀ sl n sha, node = .obj [("slice", sl)] → sliceNode ctx.sources sl = .ok n →
      nodeSha256 n = .ok sha → ctx.blobs sha = none → (∀ spool, s.lookup sha = some spool → Has n) ∧
        ∀ spool s', Has n → Good s' → Good ((sha, spool) :: s')) :
    Goes E T (assembleBody ctx node) s fun _ s' =>
      (Lacks ctx.sources ctx.blobs node →
        ∃ i, Uses ctx.sources ctx.blobs node i ∧ Has i ∧ Lacks ctx.sources ctx.blobs i) ∧ Good s' := by
  refine goes_bind_lift fun r hr => ?_
  cases h with
  | literal hl =>
    rw [resolve_field (by decide)] at hr
    cases hr
    rw [field_self, if_pos hl]
    exact goes_lift fun _ _ => ⟨fun h => absurd h not_lacks_literal, hs⟩
  | @slice sl n sha hsl hn hself hsha hpart =>
    rw [resolve_field (by decide)] at hr
    cases hr
    rw [field_not_object (by decide), if_neg Bool.false_ne_true, field_self, if_pos hsl]
    cases hblob : ctx.blobs sha with
    | some blob =>
      refine goes_bind_lift fun n' hn' => ?_
      rw [hn] at hn'
      cases hn'
      refine goes_bind_lift fun _ _ => goes_bind_lift fun _ _ => goes_bind_lift fun sha' hsha' => ?_
      rw [hsha] at hsha'
      cases hsha'
      rw [hblob]
      refine goes_bind_lift fun _ _ => goes_pure ⟨fun h => ?_, hs⟩
      rw [lacks_slice hn] at h
      exact absurd h (not_lacks_of_blob hpart hself hsha (by rw [hblob]; exact Option.some_ne_none blob))
    | none =>
      have huses := Uses.slice hn hsha hblob
      obtain ⟨hcached, hput⟩ := hslice sl n sha rfl hn hsha hblob
      refine (goes_slice hn hsha hblob (hi n huses) hs hcached hput).imp fun _ s' ⟨hhas, hs'⟩ => ?_
      exact ⟨fun h => ⟨n, huses, hhas, (lacks_slice hn).mp h⟩, hs'⟩
  | @ref _ r' sha hstands hr' hsha =>
    rw [hstands.resolve] at hr
    cases hr
    rw [field_not_object (by decide), if_neg Bool.false_ne_true, field_not_object (by decide),
      if_neg Bool.false_ne_true, field_not_object (by decide), if_neg Bool.false_ne_true, field_self,
      if_pos hr', hsha]
    refine goes_bind_lift fun sha' hsha' => goes_lift fun fed h => ⟨fun hlacks => ?_, hs⟩
    cases hsha'
    exact absurd ((lacks_ref hstands.resolve hsha).mp hlacks) (assembleBlob_some h)
  | @extract _ e a sha asha size hstands he hsha hsize harchive ha hasha =>
    rw [hstands.resolve] at hr
    cases hr
    rw [field_not_object (by decide), if_neg Bool.false_ne_true, field_not_object (by decide),
      if_neg Bool.false_ne_true, field_self, if_pos he]
    refine goes_lift fun fed h => ⟨fun hlacks => ?_, hs⟩
    obtain ⟨hnone, hanone⟩ := (lacks_extract hstands.resolve hsha harchive hasha).mp hlacks
    rcases assembleExtract_some hsha harchive ha hasha h with hsome | hsome
    · exact absurd hnone hsome
    · exact absurd hanone hsome
  | @build _ b sha inputs hstands hb hsha hinputs =>
    rw [hstands.resolve] at hr
    cases hr
    rw [field_not_object (by decide), if_neg Bool.false_ne_true, field_not_object (by decide),
      if_neg Bool.false_ne_true, field_not_object (by decide), if_neg Bool.false_ne_true,
      field_not_object (by decide), if_neg Bool.false_ne_true, field_self, if_pos hb]
    have hlacks : Lacks ctx.sources ctx.blobs node ↔ _ := lacks_build hstands.resolve hsha hinputs
    cases hblob : ctx.blobs sha with
    | some blob =>
      rw [assembleBuild, nodeSha256_build hb hsha]
      refine goes_bind_lift fun sha' hsha' => ?_
      cases hsha'
      rw [if_pos (by rw [hblob]; rfl)]
      refine goes_lift fun _ _ => ⟨fun h => ?_, hs⟩
      rw [hlacks, hblob] at h
      cases h.1
    | none =>
      have huses : ∀ i ∈ inputs, Uses ctx.sources ctx.blobs node i := fun i hmem =>
        .input hstands.resolve hsha hblob hinputs hmem
      have hcall : ∀ i ∈ inputs, Callable ctx.sources E T Good Has i := fun i hmem => hi i (huses i hmem)
      refine (goes_build hb hsha hblob hinputs hcall hs).imp fun _ s' ⟨hhas, hs'⟩ => ?_
      refine ⟨fun h => ?_, hs'⟩
      obtain ⟨-, i, hmem, hlacksi⟩ := hlacks.mp h
      exact ⟨i, huses i hmem, hhas i hmem, hlacksi⟩

end Rebuild

/-! ### Whole rebuilds -/

/-- The node is sliced in what `root` is rebuilt from. -/
def Sliced (sources : List Json) (blobs : String → Option Blob) (root n : Json) : Prop :=
  ∃ sl, Relation.ReflTransGen (Uses sources blobs) root (.obj [("slice", sl)]) ∧
    sliceNode sources sl = .ok n

/-- Two of the sliced nodes go by one digest, and one of them lacks a blob and the other does not. -/
def Clash (sources : List Json) (blobs : String → Option Blob) (root : Json) : Prop :=
  ∃ n n' sha, Sliced sources blobs root n ∧ Sliced sources blobs root n' ∧ nodeSha256 n = .ok sha ∧
    nodeSha256 n' = .ok sha ∧ blobs sha = none ∧ Lacks sources blobs n ∧ ¬ Lacks sources blobs n'

section Whole

variable {ctx : CheckCtx} {root node : Json}

theorem assembleBody_means {i n : Json} (h : Means ctx.sources i n) :
    assembleBody ctx n = assembleBody ctx i := by
  rcases h with rfl | h
  · rfl
  · rw [assembleBody, assembleBody, h, resolveSource_idem h]

/-- Only a slice means a slice. -/
theorem Part.means_slice {i sl : Json} (h : Part ctx.sources i)
    (hn : Means ctx.sources i (.obj [("slice", sl)])) : i = .obj [("slice", sl)] := by
  rcases hn with hn | hn
  · exact hn.symm
  · cases h with
    | literal => exact absurd (resolved_field (by decide) hn).1 (by decide)
    | slice => rw [(resolved_field (by decide) hn).2]
    | ref hstands => exact absurd (resolved_inj hstands.resolve hn).1 (by decide)
    | extract hstands => exact absurd (resolved_inj hstands.resolve hn).1 (by decide)
    | build hstands => exact absurd (resolved_inj hstands.resolve hn).1 (by decide)

/-- What a part is rebuilt from does not depend on how it is named. -/
theorem Uses.of_means {i n m : Json} (h : Part ctx.sources i) (hn : Means ctx.sources i n)
    (hm : Uses ctx.sources ctx.blobs n m) : Uses ctx.sources ctx.blobs i m := by
  cases hm with
  | slice hsl hsha hnone =>
    rw [h.means_slice hn]
    exact .slice hsl hsha hnone
  | input hres hsha hnone hinputs hmem =>
    refine .input ?_ hsha hnone hinputs hmem
    rcases hn with rfl | hn
    · exact hres
    · rw [resolveSource_idem hn] at hres
      rw [hn, hres]

theorem Sliced.of_means {i n m : Json} (h : Part ctx.sources i) (hn : Means ctx.sources i n)
    (hm : Sliced ctx.sources ctx.blobs n m) : Sliced ctx.sources ctx.blobs i m := by
  obtain ⟨sl, hpath, hsl⟩ := hm
  refine ⟨sl, ?_, hsl⟩
  rcases Relation.ReflTransGen.cases_head hpath with rfl | ⟨k, hk, hkm⟩
  · rw [h.means_slice hn]
  · exact .head (Uses.of_means h hn hk) hkm

theorem Sliced.of_uses {i m : Json} (hi : Uses ctx.sources ctx.blobs node i)
    (hm : Sliced ctx.sources ctx.blobs i m) : Sliced ctx.sources ctx.blobs node m := by
  obtain ⟨sl, hpath, hsl⟩ := hm
  exact ⟨sl, .head hi hpath, hsl⟩

/-- **What wants a blob fails for the want of it**, with the text for its own blob or for its archive's. -/
theorem Wants.fails {E : Oracle Json Built Fault Fed} {s : Built} (h : Part ctx.sources node)
    (hwants : Wants ctx.sources ctx.blobs node) :
    ∃ r, resolveSource ctx.sources node = .ok r ∧
      (Fails E (assembleBody ctx node) s (.error s!"missing blob for {nodeName r}") ∨
        Fails E (assembleBody ctx node) s (.error s!"missing archive blob for {nodeName r}")) := by
  cases h with
  | literal => exact absurd hwants (not_wants (by decide) (by decide) (resolve_field (by decide) _))
  | slice => exact absurd hwants (not_wants (by decide) (by decide) (resolve_field (by decide) _))
  | @ref _ r sha hstands hr hsha =>
    have hnone := (lacks_ref hstands.resolve hsha).mp (.wants hwants)
    refine ⟨_, hstands.resolve, Or.inl ?_⟩
    rw [assembleBody, hstands.resolve]
    refine fails_bind.mpr (Or.inr ⟨_, s, yields_lift.mpr ⟨rfl, rfl⟩, ?_⟩)
    rw [field_not_object (by decide), if_neg Bool.false_ne_true, field_not_object (by decide),
      if_neg Bool.false_ne_true, field_not_object (by decide), if_neg Bool.false_ne_true, field_self,
      if_pos hr, hsha]
    refine fails_bind.mpr (Or.inr ⟨sha, s, yields_lift.mpr ⟨rfl, rfl⟩, fails_lift.mpr ?_⟩)
    rw [assembleBlob, hnone]
    rfl
  | @extract _ e a sha asha size hstands he hsha hsize harchive ha hasha =>
    obtain ⟨hnone, hanone⟩ :=
      (lacks_extract hstands.resolve hsha harchive hasha).mp (.wants hwants)
    refine ⟨_, hstands.resolve, Or.inr ?_⟩
    rw [assembleBody, hstands.resolve]
    refine fails_bind.mpr (Or.inr ⟨_, s, yields_lift.mpr ⟨rfl, rfl⟩, ?_⟩)
    rw [field_not_object (by decide), if_neg Bool.false_ne_true, field_not_object (by decide),
      if_neg Bool.false_ne_true, field_self, if_pos he]
    refine fails_lift.mpr ?_
    have hblob : ¬ (ctx.blobs sha).isSome = true := by rw [hnone]; decide
    rw [assembleExtract, field_self, hsha, hsize]
    show (if (ctx.blobs sha).isSome = true then _ else _) = _
    rw [if_neg hblob, harchive]
    show (nodeSha256 (.obj [("ref", a)]) >>= _) = _
    rw [nodeSha256_ref ha hasha]
    show (need (ctx.blobs asha) _ >>= _) = _
    rw [hanone]
    rfl
  | build hstands => exact absurd hwants (not_wants (by decide) (by decide) hstands.resolve)

/-- A call goes to what the part is rebuilt from. -/
theorem calls_uses {c : Json × Built} {s : Built} (h : Part ctx.sources node)
    (hcall : Calls (assemble ctx) (node, s) c) :
    ∃ i, Uses ctx.sources ctx.blobs node i ∧ Means ctx.sources i c.1 := by
  let T (n : Json) : Prop := ∃ i, Uses ctx.sources ctx.blobs node i ∧ Means ctx.sources i n
  have hcall' : ∀ i, Uses ctx.sources ctx.blobs node i →
      Callable ctx.sources (Evaluates (assemble ctx)) T (fun _ => True) (fun _ => True) i :=
    fun i hi n hn => ⟨⟨i, hi, hn⟩, fun _ _ _ _ _ => ⟨trivial, trivial⟩⟩
  have hgoes := part_goes h hcall' (s := s) trivial fun _ _ _ _ _ _ _ =>
    ⟨fun _ _ => trivial, fun _ _ _ _ => trivial⟩
  exact hgoes.1 c.1 c.2 hcall

/-- **A rebuild of a part comes to an end.** -/
theorem assemble_ends (h : Part ctx.sources node) (s : Built) :
    Terminates (assemble ctx) (node, s) := by
  have step : ∀ node, Part ctx.sources node →
      (∀ i, Uses ctx.sources ctx.blobs node i →
        Part ctx.sources i ∧ ∀ s, Terminates (assemble ctx) (i, s)) →
      ∀ s, Terminates (assemble ctx) (node, s) := by
    intro node hnode ih s
    refine terminates_iff_acc.mpr (Acc.intro _ fun c hc => terminates_iff_acc.mp ?_)
    obtain ⟨i, hi, hmeans⟩ := calls_uses hnode hc
    obtain ⟨r, hr⟩ := (ih i hi).2 c.2
    refine ⟨r, evaluates_iff.mpr ?_⟩
    show (assembleBody ctx c.1 c.2).Returns _ r
    rw [assembleBody_means hmeans]
    exact evaluates_iff.mp hr
  exact h.induct_uses step s

/-- **A rebuild of what lacks nothing never comes to a node that lacks something.** -/
theorem calls_have {c d : Json × Built} (h : Part ctx.sources c.1)
    (hlacks : ¬ Lacks ctx.sources ctx.blobs c.1) (hd : Entered (assemble ctx) c d) :
    Part ctx.sources d.1 ∧ ¬ Lacks ctx.sources ctx.blobs d.1 := by
  induction hd with
  | refl => exact ⟨h, hlacks⟩
  | tail _ hcall ih =>
    obtain ⟨i, hi, hmeans⟩ := calls_uses ih.1 hcall
    obtain ⟨hpart, hiff⟩ := (ih.1.uses hi).means hmeans
    exact ⟨hpart, fun h => ih.2 (hi.lacks (hiff.mp h))⟩

/-- Each build held for slicing is of a sliced node that lacks nothing. -/
def Grounded (ctx : CheckCtx) (root : Json) (built : Built) : Prop :=
  ∀ sha spool, built.lookup sha = some spool → ∃ n, Sliced ctx.sources ctx.blobs root n ∧
    nodeSha256 n = .ok sha ∧ ¬ Lacks ctx.sources ctx.blobs n

theorem Grounded.cons {built : Built} (h : Grounded ctx root built) {n : Json} {sha : String}
    (hn : Sliced ctx.sources ctx.blobs root n) (hsha : nodeSha256 n = .ok sha)
    (hlacks : ¬ Lacks ctx.sources ctx.blobs n) (spool : Spool) :
    Grounded ctx root ((sha, spool) :: built) := by
  intro sha' spool' hlookup
  rw [List.lookup_cons] at hlookup
  by_cases heq : sha' = sha
  · rw [heq]
    exact ⟨n, hn, hsha, hlacks⟩
  · have hne : (sha' == sha) = false := beq_eq_false_iff_ne.mpr heq
    rw [hne] at hlookup
    exact h sha' spool' hlookup

/-- One call: a part that could be assembled lacks nothing if that holds of the calls inside. -/
theorem assembled_step (hno : ¬ Clash ctx.sources ctx.blobs root) (hpart : Part ctx.sources node)
    (hroot : ∀ m, Sliced ctx.sources ctx.blobs node m → Sliced ctx.sources ctx.blobs root m)
    {s : Built} (hs : Grounded ctx root s) {E : Oracle Json Built Fault Fed}
    (hE : ∀ i n s fed s', Uses ctx.sources ctx.blobs node i → Means ctx.sources i n →
      Grounded ctx root s → E (n, s) (.ok (fed, s')) →
      ¬ Lacks ctx.sources ctx.blobs i ∧ Grounded ctx root s') {fed : Fed} {built : Built}
    (hy : Yields E (assembleBody ctx node) s fed built) :
    ¬ Lacks ctx.sources ctx.blobs node ∧ Grounded ctx root built := by
  have hcall : ∀ i, Uses ctx.sources ctx.blobs node i → Callable ctx.sources E (fun _ => True)
      (Grounded ctx root) (fun i => ¬ Lacks ctx.sources ctx.blobs i) i :=
    fun i hi n hn => ⟨trivial, fun s fed s' => hE i n s fed s' hi hn⟩
  have hgoes := part_goes hpart hcall hs fun sl n sha hnode hsl hsha hnone => by
    have hn : Sliced ctx.sources ctx.blobs root n := hroot n ⟨sl, by rw [hnode], hsl⟩
    refine ⟨fun spool hlookup hlacks => ?_, fun spool s' hlacks hs' => hs'.cons hn hsha hlacks spool⟩
    obtain ⟨n', hn', hsha', hlacks'⟩ := hs sha spool hlookup
    exact hno ⟨n, n', sha, hn, hn', hsha, hsha', hnone, hlacks, hlacks'⟩
  obtain ⟨hlacks, hbuilt⟩ := hgoes.2 fed built hy
  refine ⟨fun h => ?_, hbuilt⟩
  obtain ⟨i, -, hhas, hi⟩ := hlacks h
  exact hhas hi

/-- **What could be assembled lacks nothing**, unless a slice was served from another node's bytes. -/
theorem assembled_has (hno : ¬ Clash ctx.sources ctx.blobs root) {c : Json × Built}
    {r : Except Fault (Fed × Built)} (hev : Evaluates (assemble ctx) c r) {fed : Fed} {built : Built}
    (hr : r = .ok (fed, built)) (hpart : Part ctx.sources c.1)
    (hroot : ∀ m, Sliced ctx.sources ctx.blobs c.1 m → Sliced ctx.sources ctx.blobs root m)
    (hgood : Grounded ctx root c.2) :
    ¬ Lacks ctx.sources ctx.blobs c.1 ∧ Grounded ctx root built := by
  refine hev.induct (P := fun c r => ∀ fed built, r = .ok (fed, built) → Part ctx.sources c.1 →
    (∀ m, Sliced ctx.sources ctx.blobs c.1 m → Sliced ctx.sources ctx.blobs root m) →
    Grounded ctx root c.2 → ¬ Lacks ctx.sources ctx.blobs c.1 ∧ Grounded ctx root built)
    (fun c r hret fed built hr hpart hroot hgood => ?_) fed built hr hpart hroot hgood
  rw [hr] at hret
  refine assembled_step hno hpart hroot hgood (fun i n s fed s' hi hn hs hE => ?_) hret
  have hparti := hpart.uses hi
  obtain ⟨hpartn, hiff⟩ := hparti.means hn
  have hrootn : ∀ m, Sliced ctx.sources ctx.blobs n m → Sliced ctx.sources ctx.blobs root m :=
    fun m hm => hroot m (Sliced.of_uses hi (hm.of_means hparti hn))
  obtain ⟨hhas, hs'⟩ := hE.2.2 fed s' rfl hpartn hrootn hs
  exact ⟨fun h => hhas (hiff.mpr h), hs'⟩

/-- A part of a document that goes by a digest, as roots and table entries do. -/
structure Node (sources : List Json) (node : Json) : Prop where
  part : Part sources node
  self : resolveSource sources node = .ok node
  sha : ∃ sha, nodeSha256 node = .ok sha

/-- **Where the two passes agree.**  Both come to an end.  When the availability pass reports nothing,
the rebuild never comes to a call that wants a blob; when it reports something, the rebuild fails, or two
sliced nodes go by one digest and only one of them lacks a blob. -/
theorem Node.availability (h : Node ctx.sources root) :
    ∃ missing r, Evaluates (collectMissing ctx.sources ctx.blobs) (root, []) (.ok ((), missing)) ∧
      Evaluates (assemble ctx) (root, []) r ∧
      (missing = [] → ∀ c, Entered (assemble ctx) (root, []) c →
        ¬ Wants ctx.sources ctx.blobs c.1) ∧
      (missing ≠ [] → (∃ e, r = .error e) ∨ Clash ctx.sources ctx.blobs root) := by
  obtain ⟨sha, hsha⟩ := h.sha
  obtain ⟨missing, hcollect, hnotes⟩ := collect_spec h.part h.self hsha []
  obtain ⟨r, hr⟩ := assemble_ends h.part []
  refine ⟨missing, r, hcollect, hr, fun hnil c hc => ?_, fun hsome => ?_⟩
  · have hhas : ¬ Lacks ctx.sources ctx.blobs root := by
      rcases hnotes with ⟨-, hne⟩ | ⟨hhas, -⟩
      · exact absurd hnil hne
      · exact hhas
    exact fun hwants => (calls_have h.part hhas hc).2 (.wants hwants)
  · have hlacks : Lacks ctx.sources ctx.blobs root := by
      rcases hnotes with ⟨hlacks, -⟩ | ⟨-, hnil⟩
      · exact hlacks
      · exact absurd hnil hsome
    by_cases hclash : Clash ctx.sources ctx.blobs root
    · exact Or.inr hclash
    · cases r with
      | error e => exact Or.inl ⟨e, rfl⟩
      | ok out =>
        have hgrounded : Grounded ctx root [] := fun _ _ h => (nomatch h)
        exact absurd hlacks
          (assembled_has hclash hr rfl h.part (fun _ hm => hm) hgrounded).1

end Whole

end Hashdex
