import Mathlib
import Hashdex.Recipe.Availability
import Hashdex.Recipe.Coverage

/-!
# Recipe documents

What `hdx recipe` writes down: the table of sources, an archive ref for each archive that extract nodes
fetch from and then the nodes of tabled members, and the root's node.

* `tableArchives_spec`, `tableNodes_spec`: what the indices of the table point at
* `node_nodeJson`: every node the emitter writes is made of the parts a check follows
* `availability_agrees`: where the availability pass of a check agrees with the rebuild
-/

namespace Hashdex

open RecProg Json

/-! ### The table -/

/-- The entry of an archive, with the claims of the extract that came first. -/
def archiveJson (e : Extract) : Json :=
  obj [("ref", obj [("digests", obj [("sha256", str e.archive.digest)]), ("name", str e.archive.name),
    ("claims", arr [claimJson e.attestor e.statement e.archive.url])])]

/-- The entries of archives so far, by digest, and the entry of each extract. -/
structure ArchiveTable where
  sources : List Json
  idxOf : List (String × ℕ)
  srcOf : IdxMap ℕ

namespace ArchiveTable

def empty : ArchiveTable := ⟨[], [], fun _ => none⟩

def add (t : ArchiveTable) (i : ℕ) (e : Extract) : ArchiveTable :=
  match t.idxOf.lookup e.archive.digest with
  | some idx => { t with srcOf := t.srcOf.insert i idx }
  | none =>
    { sources := t.sources ++ [archiveJson e]
      idxOf := (e.archive.digest, t.sources.length) :: t.idxOf
      srcOf := t.srcOf.insert i t.sources.length }

end ArchiveTable

def tableArchives (plan : Plan) : List ℕ → ArchiveTable → ArchiveTable
  | [], t => t
  | i :: rest, t =>
    match plan.extracts i with
    | some e => tableArchives plan rest (t.add i e)
    | none => tableArchives plan rest t

section

variable (T : Tree) (plan : Plan)

/-- The nodes of tabled members; they refer to archives only. -/
def tableNodes (srcOf : IdxMap ℕ) (fuel : ℕ) :
    List ℕ → List Json → IdxMap ℕ → Except Fault (List Json × IdxMap ℕ)
  | [], sources, nodeOf => pure (sources, nodeOf)
  | i :: rest, sources, nodeOf => do
    let node ← nodeJson T plan srcOf (fun _ => none) fuel i
    tableNodes srcOf fuel rest (sources ++ [node]) (nodeOf.insert i sources.length)

/-- `sources_json`: the table, the archive entry of each extract and the entry of each tabled member. -/
def sourcesJson (fuel : ℕ) : Except Fault (List Json × IdxMap ℕ × IdxMap ℕ) := do
  let order := (List.range T.members.length).filter fun i => (plan.extracts i).isSome
  let t := tableArchives plan order ArchiveTable.empty
  let (sources, nodeOf) ←
    tableNodes T plan t.srcOf fuel (plan.tabled.sort (· ≤ ·)) t.sources fun _ => none
  pure (sources, t.srcOf, nodeOf)

/-- The documents of a member: the table and the node of the root.  A root that is claimed as a whole is
written as a ref, without a table. -/
inductive Emits (root : ℕ) : List Json → Json → Prop
  | claimed {node : Json} : claimsJson (T.findings root) ≠ [] →
    refJson (T.member root) (claimsJson (T.findings root)) = .ok node → Emits root [] node
  | planned {fuel : ℕ} {sources : List Json} {srcOf nodeOf : IdxMap ℕ} {node : Json} :
    sourcesJson T plan fuel = .ok (sources, srcOf, nodeOf) →
    nodeJson T plan srcOf nodeOf fuel root = .ok node →
    -- A `Vec` holds fewer entries than a `u64` counts.
    sources.length < 2 ^ 64 → Emits root sources node

end

/-! ### What the indices point at -/

/-- Entry `k` is that of an archive. -/
def ArchiveAt (sources : List Json) (k : ℕ) : Prop := ∃ e, sources[k]? = some (archiveJson e)

theorem getElem?_append {sources : List Json} {k : ℕ} {n : Json} (h : sources[k]? = some n)
    (rest : List Json) : (sources ++ rest)[k]? = some n := by
  rw [List.getElem?_append_left (List.getElem?_eq_some_iff.mp h).1, h]

theorem ArchiveAt.append {sources : List Json} {k : ℕ} (h : ArchiveAt sources k) (rest : List Json) :
    ArchiveAt (sources ++ rest) k := by
  obtain ⟨e, he⟩ := h
  exact ⟨e, getElem?_append he rest⟩

structure ArchiveTable.Sound (t : ArchiveTable) : Prop where
  idxOf : ∀ p ∈ t.idxOf, ArchiveAt t.sources p.2
  srcOf : ∀ i k, t.srcOf i = some k → ArchiveAt t.sources k

theorem ArchiveTable.Sound.add {t : ArchiveTable} (h : t.Sound) (i : ℕ) (e : Extract) :
    (t.add i e).Sound := by
  rw [ArchiveTable.add]
  split
  · next idx hidx =>
    obtain ⟨l₁, l₂, heq, -⟩ := List.lookup_eq_some_iff.mp hidx
    have hat : ArchiveAt t.sources idx := h.idxOf (e.archive.digest, idx) (by rw [heq]; simp)
    refine ⟨h.idxOf, fun j k hk => ?_⟩
    rcases IdxMap.insert_eq_some hk with ⟨-, rfl⟩ | ⟨-, hk⟩
    · exact hat
    · exact h.srcOf j k hk
  · have hnew : ArchiveAt (t.sources ++ [archiveJson e]) t.sources.length := ⟨e, by simp⟩
    refine ⟨fun p hp => ?_, fun j k hk => ?_⟩
    · rcases List.mem_cons.mp hp with rfl | hp
      · exact hnew
      · exact (h.idxOf p hp).append _
    · rcases IdxMap.insert_eq_some hk with ⟨-, rfl⟩ | ⟨-, hk⟩
      · exact hnew
      · exact (h.srcOf j k hk).append _

theorem tableArchives_spec {plan : Plan} {order : List ℕ} {t : ArchiveTable} (h : t.Sound) :
    (tableArchives plan order t).Sound := by
  induction order generalizing t with
  | nil => exact h
  | cons i rest ih =>
    rw [tableArchives]
    split
    · next e _ => exact ih (h.add i e)
    · exact ih h

/-- The table grows at its end, and the entry of a member is its node. -/
theorem tableNodes_spec {T : Tree} {plan : Plan} {srcOf : IdxMap ℕ} {fuel : ℕ} {order : List ℕ}
    {sources table : List Json} {nodeOf nodeOf' : IdxMap ℕ}
    (h : tableNodes T plan srcOf fuel order sources nodeOf = .ok (table, nodeOf'))
    (hold : ∀ i k, nodeOf i = some k →
      ∃ n, sources[k]? = some n ∧ nodeJson T plan srcOf (fun _ => none) fuel i = .ok n) :
    (∃ rest, table = sources ++ rest) ∧ ∀ i k, nodeOf' i = some k →
      ∃ n, table[k]? = some n ∧ nodeJson T plan srcOf (fun _ => none) fuel i = .ok n := by
  induction order generalizing sources nodeOf with
  | nil =>
    cases h
    exact ⟨⟨[], (List.append_nil _).symm⟩, hold⟩
  | cons i rest ih =>
    obtain ⟨node, hnode, h⟩ := bind_eq_ok.mp h
    obtain ⟨⟨more, hmore⟩, hnew⟩ := ih h fun j k hk => by
      rcases IdxMap.insert_eq_some hk with ⟨rfl, rfl⟩ | ⟨-, hk⟩
      · exact ⟨node, by simp, hnode⟩
      · obtain ⟨n, hn, hjson⟩ := hold j k hk
        exact ⟨n, getElem?_append hn _, hjson⟩
    exact ⟨⟨node :: more, by rw [hmore]; simp⟩, hnew⟩

/-! ### What is emitted is made of parts -/

section

variable {sources : List Json} {k : ℕ} {n node : Json}

/-- An index of the table leads to its entry. -/
theorem resolve_index (hfits : sources.length < 2 ^ 64) (hk : sources[k]? = some n)
    (hself : resolveSource sources n = .ok n)
    (hnode : node["source"].asU64 = some (UInt64.ofNat k)) : resolveSource sources node = .ok n := by
  have hlt := (List.getElem?_eq_some_iff.mp hk).1
  obtain ⟨m, hm⟩ : ∃ m, sources.length = m + 1 := ⟨sources.length - 1, by omega⟩
  have hentry : sources[(UInt64.ofNat k).toNat]? = some n := by
    rw [toNat_ofNat_of_lt (by omega), hk]
  rw [resolveSource, resolveLoop, hnode]
  dsimp only
  rw [hentry]
  dsimp only
  rw [hm, resolveLoop, (resolveLoop_cases hself).1]

theorem stands_index (hfits : sources.length < 2 ^ 64) (hk : sources[k]? = some n)
    (hself : resolveSource sources n = .ok n) :
    Stands sources (obj [("source", ofNat k)]) n :=
  ⟨resolve_index hfits hk hself rfl, rfl, rfl⟩

/-- An index of a node is as good a part as the node. -/
theorem Node.part_of_stands (h : Node sources n) (hnode : Stands sources node n) :
    Part sources node := by
  obtain ⟨hpart, hself, sha, hsha⟩ := h
  cases hpart with
  | literal => cases hsha
  | slice => cases hsha
  | ref hstands hr hsha' =>
    have hres := hstands.resolve
    rw [hself] at hres
    cases hres
    exact .ref hnode hr hsha'
  | extract hstands he hsha' hsize harchive ha hasha =>
    have hres := hstands.resolve
    rw [hself] at hres
    cases hres
    exact .extract hnode he hsha' hsize harchive ha hasha
  | build hstands hb hsha' hinputs hparts =>
    have hres := hstands.resolve
    rw [hself] at hres
    cases hres
    exact .build hnode hb hsha' hinputs hparts

theorem Node.isObject (h : Node sources n) : n.isObject = true := by
  obtain ⟨sha, hsha⟩ := h.sha
  by_contra hnot
  have hnull := fun key => getElem_of_not_isObject (eq_false_of_ne_true hnot) key
  rw [nodeSha256, hnull "ref", hnull "build", hnull "extract"] at hsha
  cases hsha

/-- Entry `k` is a node. -/
def NodeAt (sources : List Json) (k : ℕ) : Prop := ∃ n, sources[k]? = some n ∧ Node sources n

theorem part_sourceJson (hfits : sources.length < 2 ^ 64) (hk : NodeAt sources k)
    (start len size : ℕ) : Part sources (sourceJson k start len size) := by
  obtain ⟨n, hn, hnode⟩ := hk
  rw [sourceJson]
  split
  · exact hnode.part_of_stands (stands_index hfits hn hnode.self)
  · obtain ⟨sha, hsha⟩ := hnode.sha
    have hres : resolveSource sources (obj [("source", ofNat k), ("from", ofNat start),
        ("len", ofNat len)]) = .ok n := resolve_index hfits hn hnode.self rfl
    exact .slice rfl hres hnode.self hsha hnode.part

/-- A slice of an inline node. -/
theorem Node.part_slice (h : Node sources n) (start len : ℕ) :
    Part sources (obj [("slice", obj [("of", n), ("from", ofNat start), ("len", ofNat len)])]) := by
  obtain ⟨sha, hsha⟩ := h.sha
  refine .slice rfl ?_ h.self hsha h.part
  exact if_pos h.isObject

theorem part_literalJson {len : ℕ} {residueOff : Option ℕ} {inline : Option Bytes} {json : Json}
    (h : literalJson len residueOff inline = .ok json) : Part sources json := by
  cases inline with
  | some bytes =>
    cases h
    exact .literal rfl
  | none =>
    obtain ⟨off, -, h⟩ := bind_eq_ok.mp h
    cases h
    exact .literal rfl

theorem node_ref {r : Json} {sha : String} (hr : r.isObject = true)
    (hsha : r["digests"]["sha256"].asStr = some sha) : Node sources (obj [("ref", r)]) where
  part := .ref (stands_self (by decide) (by decide) (by decide) _) hr hsha
  self := resolve_field (by decide) _
  sha := ⟨sha, nodeSha256_ref hr hsha⟩

theorem node_build {b : Json} {sha : String} {inputs : List Json} (hb : b.isObject = true)
    (hsha : b["output"]["sha256"].asStr = some sha) (hinputs : b["inputs"].asArray = some inputs)
    (hparts : ∀ i ∈ inputs, Part sources i) : Node sources (obj [("build", b)]) where
  part := .build (stands_self (by decide) (by decide) (by decide) _) hb hsha hinputs hparts
  self := resolve_field (by decide) _
  sha := ⟨sha, nodeSha256_build hb hsha⟩

theorem node_archiveJson (e : Extract) : Node sources (archiveJson e) := node_ref rfl rfl

theorem node_refJson {m : Member} {claims : List Json} {json : Json}
    (h : refJson m claims = .ok json) : Node sources json := by
  obtain ⟨digests, -, h⟩ := bind_eq_ok.mp h
  cases h
  split
  · exact node_ref rfl rfl
  · exact node_ref rfl rfl

/-- Each result of a fallible map comes from an item. -/
theorem of_mem_mapM {α β : Type} {f : α → Except Fault β} {xs : List α} {ys : List β}
    (h : xs.mapM f = .ok ys) {y : β} (hy : y ∈ ys) : ∃ x ∈ xs, f x = .ok y := by
  induction xs generalizing ys with
  | nil =>
    cases h
    cases hy
  | cons x rest ih =>
    rw [List.mapM_cons] at h
    obtain ⟨z, hz, h⟩ := bind_eq_ok.mp h
    obtain ⟨tail, htail, h⟩ := bind_eq_ok.mp h
    cases h
    rcases List.mem_cons.mp hy with rfl | hy
    · exact ⟨x, List.mem_cons_self, hz⟩
    · obtain ⟨x', hx', hfx'⟩ := ih htail hy
      exact ⟨x', List.mem_cons_of_mem x hx', hfx'⟩

end

section

variable {T : Tree} {plan : Plan} {srcOf nodeOf : IdxMap ℕ} {sources : List Json}
  (hfits : sources.length < 2 ^ 64) (hsrc : ∀ i k, srcOf i = some k → ArchiveAt sources k)
  (hnode : ∀ i k, nodeOf i = some k → NodeAt sources k)

include hfits

include hsrc in
theorem node_extractJson {i : ℕ} {e : Extract} {json : Json}
    (h : extractJson T srcOf i e = .ok json) : Node sources json := by
  obtain ⟨k, hk, h⟩ := bind_eq_ok.mp h
  obtain ⟨digests, -, h⟩ := bind_eq_ok.mp h
  cases h
  obtain ⟨e', he'⟩ := hsrc i k (expect_eq_ok.mp hk)
  have harchive : resolveSource sources (obj [("source", ofNat k)]) = .ok (archiveJson e') :=
    resolve_index hfits he' (node_archiveJson e').self rfl
  refine ⟨?_, resolve_field (by decide) _, _, nodeSha256_extract rfl rfl⟩
  exact .extract (stands_self (by decide) (by decide) (by decide) _) rfl rfl rfl harchive rfl rfl

include hnode

theorem node_pclusterJson {node : PClusterNode} {json : Json}
    (h : pclusterJson T nodeOf node = .ok json) : Node sources json := by
  obtain ⟨inputs, hinputs, h⟩ := bind_eq_ok.mp h
  cases h
  refine node_build rfl rfl rfl fun input hinput => ?_
  obtain ⟨x, -, hx⟩ := of_mem_mapM hinputs hinput
  cases x with
  | member idx start len =>
    obtain ⟨k, hk, hx⟩ := bind_eq_ok.mp hx
    cases hx
    exact part_sourceJson hfits (hnode idx k (expect_eq_ok.mp hk)) start len _
  | literal spoolOff len residueOff inline => exact part_literalJson hx

theorem part_segJson {node : ℕ → Except Fault Json} (hchild : ∀ i json, node i = .ok json → Node sources json)
    {seg : Seg} {json : Json} (h : segJson T plan nodeOf node seg = .ok json) : Part sources json := by
  cases seg with
  | child idx start len pos rootOff =>
    obtain ⟨child, hc, h⟩ := bind_eq_ok.mp h
    have hpart := hchild idx child hc
    cases h
    split
    · exact hpart.part
    · exact hpart.part_slice start len
  | tabled idx start len pos rootOff =>
    obtain ⟨k, hk, h⟩ := bind_eq_ok.mp h
    cases h
    exact part_sourceJson hfits (hnode idx k (expect_eq_ok.mp hk)) start len _
  | pcluster pc pos len rootOff =>
    obtain ⟨pnode, -, h⟩ := bind_eq_ok.mp h
    exact (node_pclusterJson hfits hnode h).part
  | gap pos len residueOff inline => exact part_literalJson h

include hsrc

/-- **Every node the emitter writes is made of the parts a check follows.** -/
theorem node_nodeJson {fuel i : ℕ} {json : Json} (h : nodeJson T plan srcOf nodeOf fuel i = .ok json) :
    Node sources json := by
  induction fuel generalizing i json with
  | zero => cases h
  | succ fuel ih =>
    rw [nodeJson] at h
    split at h
    · exact node_extractJson hfits hsrc h
    · split at h
      · obtain ⟨child, hchild, h⟩ := bind_eq_ok.mp h
        obtain ⟨digests, -, h⟩ := bind_eq_ok.mp h
        cases h
        refine node_build rfl rfl rfl fun input hinput => ?_
        obtain rfl := List.mem_singleton.mp hinput
        exact (ih hchild).part
      · split at h
        · exact node_refJson h
        · next b _ =>
          obtain ⟨inputs, hinputs, h⟩ := bind_eq_ok.mp h
          obtain ⟨digests, -, h⟩ := bind_eq_ok.mp h
          cases h
          refine node_build rfl rfl rfl fun input hinput => ?_
          obtain ⟨seg, -, hseg⟩ := of_mem_mapM hinputs hinput
          exact part_segJson hfits hnode (fun _ _ => ih) hseg

end

/-- The root of a document is a node over its table. -/
theorem Emits.node {T : Tree} {plan : Plan} {root : ℕ} {sources : List Json} {node : Json}
    (h : Emits T plan root sources node) : Node sources node := by
  cases h with
  | claimed _ href => exact node_refJson href
  | @planned fuel _ srcOf nodeOf _ htable hnode hfits =>
    obtain ⟨⟨table, nodeOf'⟩, hnodes, htable⟩ := bind_eq_ok.mp htable
    cases htable
    have hempty : ArchiveTable.Sound .empty := ⟨fun _ h => (nomatch h), fun _ _ h => (nomatch h)⟩
    obtain ⟨⟨rest, hrest⟩, hentries⟩ := tableNodes_spec hnodes fun _ _ h => (nomatch h)
    have hsrc : ∀ order i k, (tableArchives plan order .empty).srcOf i = some k →
        (tableArchives plan order .empty).sources ++ rest = sources → ArchiveAt sources k := by
      intro order i k hk heq
      rw [← heq]
      exact ((tableArchives_spec hempty).srcOf i k hk).append rest
    have hsrc := fun i k hk => hsrc _ i k hk hrest.symm
    refine node_nodeJson hfits hsrc (fun i k hk => ?_) hnode
    obtain ⟨n, hn, hjson⟩ := hentries i k hk
    -- The nodes of the table refer to no other member of it.
    have hnone : ∀ i k, (fun _ => none : IdxMap ℕ) i = some k → NodeAt sources k :=
      fun _ _ h => (nomatch h)
    exact ⟨n, hn, node_nodeJson hfits hsrc hnone hjson⟩

/-- **Where the availability pass agrees with the rebuild.**  Over every document the emitter writes both
come to an end.  When the pass reports nothing, the rebuild never comes to a call that wants a blob; when
it reports something the rebuild fails, unless two of the sliced nodes go by one digest, one of them lacks
a blob and the other does not. -/
theorem availability_agrees {T : Tree} {plan : Plan} {root : ℕ} {node : Json} (ctx : CheckCtx)
    (h : Emits T plan root ctx.sources node) :
    ∃ missing r, Evaluates (collectMissing ctx.sources ctx.blobs) (node, []) (.ok ((), missing)) ∧
      Evaluates (assemble ctx) (node, []) r ∧
      (missing = [] → ∀ c, Entered (assemble ctx) (node, []) c → ¬ Wants ctx.sources ctx.blobs c.1) ∧
      (missing ≠ [] → (∃ e, r = .error e) ∨ Clash ctx.sources ctx.blobs node) :=
  h.node.availability

/-! ### An image that holds a file twice -/

/-- Three blocks of 32 bytes, and their digests and those of what they make up. -/
def firstBlock : Bytes := List.replicate 32 1

def secondBlock : Bytes := List.replicate 32 2

def packedBlock : Bytes := List.replicate 32 3

def twiceBytes : Bytes := firstBlock ++ firstBlock ++ secondBlock ++ packedBlock

def firstSha : Bytes :=
  [114, 205, 110, 132, 34, 196, 7, 251, 109, 9, 134, 144, 241, 19, 11, 125, 237, 126, 194, 247, 245, 225,
    211, 11, 217, 213, 33, 240, 21, 54, 55, 147]

def fileSha : Bytes :=
  [248, 24, 175, 211, 122, 109, 195, 188, 146, 251, 68, 115, 16, 17, 39, 112, 6, 219, 78, 250, 110, 144,
    35, 205, 116, 104, 192, 35, 53, 210, 42, 77]

def twiceSha : Bytes :=
  [183, 203, 209, 250, 15, 59, 213, 40, 80, 101, 47, 5, 80, 177, 177, 100, 14, 113, 95, 45, 202, 105,
    130, 29, 185, 212, 6, 155, 221, 139, 67, 105]

/-- An archive that has the file, and the finding that says so. -/
def packArchive : Archive :=
  ⟨"sha256", "00112233445566778899aabbccddeeff00112233445566778899aabbccddeeff", "/file", "pack.rpm",
    some "https://repo/pack.rpm"⟩

def packaged : Finding :=
  ⟨"repo", [⟨"shipped", some "https://repo/pack.rpm"⟩], [], some packArchive⟩

/-- An image with two copies of a file, the one as two ranges of the image, the other partly compressed;
the first block of either is a published file. -/
def twiceTree : Tree where
  members :=
    [ { path := "image", depth := 0, parent := none, ord := 0, kind := "erofs", size := 128,
        digests := some { someDigests with sha256 := twiceSha },
        extents := some ⟨0, [⟨0, 0, 128⟩], by decide, by decide⟩, space := none, size_lt := by decide },
      { path := "image!plain", depth := 1, parent := some 0, ord := 0, kind := "", size := 64,
        digests := some { someDigests with sha256 := fileSha },
        extents := some ⟨0, [⟨0, 0, 32⟩, ⟨32, 64, 32⟩], by decide, by decide⟩, space := none,
        size_lt := by decide },
      { path := "image!packed", depth := 1, parent := some 0, ord := 1, kind := "", size := 64,
        digests := some { someDigests with sha256 := fileSha }, extents := none, space := some 1,
        size_lt := by decide },
      { path := "image!plain!part", depth := 2, parent := some 1, ord := 0, kind := "", size := 32,
        digests := some { someDigests with sha256 := firstSha },
        extents := some ⟨0, [⟨0, 0, 32⟩], by decide, by decide⟩, space := none, size_lt := by decide },
      { path := "image!packed!part", depth := 2, parent := some 2, ord := 0, kind := "", size := 32,
        digests := some { someDigests with sha256 := firstSha },
        extents := some ⟨1, [⟨0, 0, 32⟩], by decide, by decide⟩, space := none, size_lt := by decide } ]
  evidence := [[], [packaged], [packaged], [offered], [offered]]
  deeper i p h := by
    match i with
    | 0 => cases h
    | 1 =>
      cases h
      exact Nat.zero_lt_one
    | 2 =>
      cases h
      exact Nat.zero_lt_one
    | 3 =>
      cases h
      exact Nat.one_lt_two
    | 4 =>
      cases h
      exact Nat.one_lt_two
    | _ + 5 => cases h

/-- The image stores the first block of the second copy as it is, and the other one compressed, in a way
no encoder gives. -/
def twiceImage : ErofsImage where
  lzmaCfg := .ok (some ⟨4096, 0⟩)
  files := .ok [⟨"packed", 64, [⟨0, 32, 32, 32, false, none⟩, ⟨32, 32, 96, 32, true, none⟩], [], false⟩]
  packedPclusters := .ok []
  ownFiles todo := .ok (todo.map fun t => ⟨t.1, [], [.tabled t.1 0 32 0 32], PcStats.zero, false⟩)
  sweep _ _ _ := .error (.error "no packed stream")
  own_slices todo planned h f hf := by
    cases h
    obtain ⟨t, ht, rfl⟩ := List.mem_map.mp hf
    refine ⟨List.mem_map_of_mem ht, fun n hn => (nomatch hn), fun s hs => ?_⟩
    rw [List.mem_singleton.mp hs]
    exact ⟨List.mem_singleton_self _, by decide⟩
  sweep_slices pcs set spool swept spool' h := nomatch h

def twicePlanner : Planner where
  tree := twiceTree
  spaces _ := none
  codecs := Codecs.idle
  image _ := .ok twiceImage

/-- The first copy is a splice of its published block; the second is extracted from the archive. -/
def twicePlan : Plan :=
  { Plan.empty 0 with
    builds := (((Plan.empty 0).builds.insert 1
      ⟨[.child 3 0 32 0 0, .gap 32 32 none none], 0, 0, [⟨0, 0, 32⟩, ⟨32, 64, 32⟩]⟩).insert 0
      -- the image's splice before the passes over it
      ⟨[.child 1 0 32 0 0, .gap 32 32 none none, .child 1 32 32 64 64, .gap 96 32 none none], 0, 0,
        [⟨0, 0, 128⟩]⟩).insert 0
      ⟨[.child 1 0 32 0 0, .tabled 2 0 32 32 32, .child 1 32 32 64 64, .gap 96 32 none none], 0, 0,
        [⟨0, 0, 128⟩]⟩
    extracts := (Plan.empty 0).extracts.insert 2 ⟨packArchive, "repo", "shipped"⟩
    tabled := ∅ ∪ {2}
    pcstats := ⟨2, 0, 0, 0, 0, 0, 0, 0, 0, 0⟩ }

/-- The literal blocks are short enough to stand in the document. -/
def twiceMinted : Plan :=
  { twicePlan with
    builds := (twicePlan.builds.insert 1
      ⟨[.child 3 0 32 0 0, .gap 32 32 none (some secondBlock)], 0, 0, [⟨0, 0, 32⟩, ⟨32, 64, 32⟩]⟩).insert 0
      ⟨[.child 1 0 32 0 0, .tabled 2 0 32 32 32, .child 1 32 32 64 64,
        .gap 96 32 none (some packedBlock)], 0, 0, [⟨0, 0, 128⟩]⟩ }

theorem twicePlan_run : Evaluates twicePlanner.run (.node 0, Plan.empty 0) (.ok (true, twicePlan)) :=
  ⟨6, rfl⟩

theorem twice_verified : Verified twicePlan twiceMinted where
  builds i := by
    match i with
    | 0 => exact .some ⟨.cons (.same _) (.cons (.same _) (.cons (.same _) (.cons (.gap ..) .nil))), rfl,
        rfl, rfl⟩
    | 1 => exact .some ⟨.cons (.same _) (.cons (.gap ..) .nil), rfl, rfl, rfl⟩
    | i + 2 => exact .none
  pclusters := .nil
  compress := rfl
  extracts := rfl
  root := rfl
  planned := Or.inl rfl

/-- The archive, and the second copy as an extract from it. -/
def twiceSources : List Json :=
  [ archiveJson ⟨packArchive, "repo", "shipped"⟩,
    obj [("extract", obj [("name", str "packed"), ("archive", obj [("source", ofNat 0)]),
      ("path", str "/file"), ("output", outputJson fileSha 64),
      ("claims", arr [claimJson "repo" "shipped" (some "https://repo/pack.rpm")])])] ]

/-- The first copy: the published block, and a literal one. -/
def plainJson : Json :=
  obj [("build", obj [("builder", str "splice@0"), ("name", str "plain"), ("output", outputJson fileSha 64),
    ("inputs", arr
      [ obj [("ref", obj [("digests", digestsJson { someDigests with sha256 := firstSha }),
          ("size", ofNat 32), ("name", str "part"),
          ("claims", arr [claimJson "mirror" "published" (some "https://mirror/file")])])],
        obj [("literal", obj [("inline_hex", hexJson secondBlock), ("len", ofNat 32)])] ])])]

/-- The image: the first copy's two blocks, and between them the first block of the second copy. -/
def twiceJson : Json :=
  obj [("build", obj [("builder", str "splice@0"), ("name", str "image"), ("output", outputJson twiceSha 128),
    ("inputs", arr
      [ obj [("slice", obj [("of", plainJson), ("from", ofNat 0), ("len", ofNat 32)])],
        obj [("slice", obj [("source", ofNat 1), ("from", ofNat 0), ("len", ofNat 32)])],
        obj [("slice", obj [("of", plainJson), ("from", ofNat 32), ("len", ofNat 32)])],
        obj [("literal", obj [("inline_hex", hexJson packedBlock), ("len", ofNat 32)])] ])])]

theorem twice_emitted : Emits twiceTree twiceMinted 0 twiceSources twiceJson := by
  have hsort : twiceMinted.tabled.sort (· ≤ ·) = [2] := by
    show (∅ ∪ {2} : Finset ℕ).sort (· ≤ ·) = [2]
    rw [Finset.empty_union, Finset.sort_singleton]
  have htable : sourcesJson twiceTree twiceMinted 4 = .ok (twiceSources,
      (IdxMap.insert (fun _ => none) 2 0), (IdxMap.insert (fun _ => none) 2 1)) := by
    rw [sourcesJson, hsort]
    rfl
  exact @Emits.planned _ _ _ 4 _ _ _ _ htable rfl (by decide)

/-- A directory with the published block alone. -/
def twiceCtx : CheckCtx where
  codecs :=
    { Codecs.idle with
      sha256 := fun bytes =>
        if bytes = firstBlock then firstSha
        else if bytes = firstBlock ++ secondBlock then fileSha
        else if bytes = twiceBytes then twiceSha
        else List.replicate 32 0 }
  blobs sha := if sha = String.ofList (hexLower firstSha) then some ⟨"part", firstBlock⟩ else none
  sources := twiceSources
  residue := none

theorem twice_missing : Evaluates (collectMissing twiceCtx.sources twiceCtx.blobs) (twiceJson, [])
    (.ok ((), [⟨"pack.rpm", packArchive.digest, ["https://repo/pack.rpm"]⟩])) :=
  ⟨4, rfl⟩

theorem twice_assembled : ∃ built,
    Evaluates (assemble twiceCtx) (twiceJson, []) (.ok (⟨twiceBytes, 128⟩, built)) :=
  ⟨_, 5, rfl⟩

/-- The second copy lacks its archive, and its slice is served from the first. -/
theorem availability_agrees_twice : Clash twiceSources twiceCtx.blobs twiceJson := by
  obtain ⟨missing, r, hmissing, hr, -, hfails⟩ := availability_agrees twiceCtx twice_emitted
  obtain ⟨built, hbuilt⟩ := twice_assembled
  cases hmissing.unique twice_missing
  cases hr.unique hbuilt
  rcases hfails (List.cons_ne_nil _ _) with ⟨e, he⟩ | hclash
  · cases he
  · exact hclash

/-- Not everything that is reported makes a rebuild fail. -/
theorem availability_disagrees :
    ¬ ∀ (P : Planner) (plan₀ plan : Plan) (root : ℕ) (node : Json) (ctx : CheckCtx),
      Evaluates P.run (.node root, Plan.empty root) (.ok (true, plan₀)) → Verified plan₀ plan →
        Emits P.tree plan root ctx.sources node →
        ∀ missing, Evaluates (collectMissing ctx.sources ctx.blobs) (node, []) (.ok ((), missing)) →
          missing ≠ [] → ∃ e, Evaluates (assemble ctx) (node, []) (.error e) := by
  intro h
  obtain ⟨e, he⟩ := h twicePlanner twicePlan twiceMinted 0 twiceJson twiceCtx twicePlan_run twice_verified
    twice_emitted _ twice_missing (List.cons_ne_nil _ _)
  obtain ⟨built, hbuilt⟩ := twice_assembled
  cases he.unique hbuilt

end Hashdex
