import Hashdex.Recipe.Emit
import Hashdex.Recipe.Jigdo
import Hashdex.Recipe.PlanTiles

/-!
# The jigdo projection of a recipe

`flatten` lays a recipe out as the regions of the image: claimed refs become parts, the rest is literal.
It takes every build for the concatenation of its inputs.

* `flatten_nodeJson`: what it makes of a node that the minter wrote
* `projection_covers_iff`: when the regions cover the image
-/

namespace Hashdex

namespace Jigdo

/-- Adjacent literals merge.  Lengths of bytes that were read stay far below `2^64`. -/
def pushLiteral (out : List Region) (len : ℕ) : List Region :=
  if len = 0 then out
  else
    match out.getLast? with
    | some (.literal l) => out.dropLast ++ [.literal (l + len)]
    | _ => out ++ [.literal len]

/-- `HEXLOWER.decode_mut` into 32 bytes, which panics when the text is not that long. -/
def decodeSha256 (hex : String) : Except Fault Sha256 :=
  if (hex.toList.map Char.utf8Size).sum = 64 then
    match decodeHexLower hex.toList with
    | some bytes =>
      if h : bytes.length = 32 then .ok ⟨bytes, h⟩ else .error .panic
    | none => .error (.error "bad sha256 hex in ref")
  else .error .panic

/-- A ref is a part when some claim of it has a URL. -/
def flattenRef (r : Json) (out : List Region) : Except Fault (List Region) := do
  let len ← need r["size"].asU64 "ref size"
  let urls := (r["claims"].asArray.getD []).filterMap fun claim => claim["url"].asStr
  if urls = [] then pure (pushLiteral out len.toNat)
  else do
    let hex ← need r["digests"]["sha256"].asStr "ref sha256"
    let sha256 ← decodeSha256 hex
    pure (out ++ [.part len.toNat sha256 urls])

theorem sizeOf_index_le (j : Json) (key : String) : sizeOf (j.index key) ≤ sizeOf j := by
  cases j with
  | obj fields =>
    have hlookup : ∀ fs : List (String × Json),
        sizeOf ((fs.lookup key).getD Json.null) ≤ sizeOf fs := by
      intro fs
      induction fs with
      | nil => simp
      | cons f rest ih =>
        obtain ⟨k, v⟩ := f
        rw [List.lookup_cons]
        cases key == k with
        | true => simp; omega
        | false =>
          simp at ih ⊢
          omega
    have := hlookup fields
    rw [Json.index]
    simp at this ⊢
    omega
  | _ => simp [Json.index]

theorem sizeOf_asArray {j : Json} {items : List Json} (h : j.asArray = some items) :
    sizeOf items < sizeOf j := by
  cases j with
  | arr xs =>
    cases h
    simp
  | _ => cases h

/-- `jigdo_flatten`. -/
def flatten (node : Json) (out : List Region) : Except Fault (List Region) :=
  if node["literal"].isObject then do
    let len ← need node["literal"]["len"].asU64 "literal len"
    pure (pushLiteral out len.toNat)
  else if node["slice"].isObject then do
    let len ← need node["slice"]["len"].asU64 "slice len"
    pure (pushLiteral out len.toNat)
  else if node["extract"].isObject then do
    let len ← need node["extract"]["output"]["size"].asU64 "extract size"
    pure (pushLiteral out len.toNat)
  else if node["ref"].isObject then flattenRef node["ref"] out
  else if node["build"].isObject then
    match h : node["build"]["inputs"].asArray with
    | some inputs => inputs.attach.foldlM (fun out input => flatten input.1 out) out
    | none => .error (.error "build inputs")
  else .error (.error "unknown recipe node in jigdo projection")
termination_by sizeOf node
decreasing_by
  have hitem := List.sizeOf_lt_of_mem input.2
  have harr := sizeOf_asArray h
  have hinputs := sizeOf_index_le (node.index "build") "inputs"
  have hbuild := sizeOf_index_le node "build"
  change sizeOf inputs < sizeOf ((node.index "build").index "inputs") at harr
  omega

/-- The inputs of a build, one after another. -/
def flattenAll (inputs : List Json) (out : List Region) : Except Fault (List Region) :=
  inputs.foldlM (fun out input => flatten input out) out

theorem flatten_build {node : Json} {inputs : List Json} (out : List Region)
    (hlit : node["literal"].isObject = false) (hslice : node["slice"].isObject = false)
    (hextract : node["extract"].isObject = false) (href : node["ref"].isObject = false)
    (hbuild : node["build"].isObject = true) (hinputs : node["build"]["inputs"].asArray = some inputs) :
    flatten node out = flattenAll inputs out := by
  rw [flatten]
  simp only [hlit, hslice, hextract, href, hbuild, Bool.false_eq_true, if_false, if_true]
  split
  · next items hitems =>
    rw [hinputs] at hitems
    cases hitems
    conv_rhs => rw [flattenAll, ← List.attach_map_subtype_val inputs, List.foldlM_map]
  · next hnone =>
    rw [hinputs] at hnone
    cases hnone

/-! ### The regions, leaf by leaf -/

theorem placed_append (pos : ℕ) (a b : List Region) :
    placed pos (a ++ b) = placed pos a ++ placed (pos + totalLen a) b := by
  induction a generalizing pos with
  | nil => rfl
  | cons r rest ih =>
    have htotal : totalLen (r :: rest) = r.len + totalLen rest := rfl
    rw [List.cons_append, placed, placed, ih, htotal, List.cons_append, Nat.add_assoc]

theorem totalLen_append (a b : List Region) : totalLen (a ++ b) = totalLen a + totalLen b := by
  simp [totalLen]

/-- The parts and the offsets they stand at. -/
def partsAt (regions : List Region) : List (ℕ × Region) :=
  (placed 0 regions).filter fun p => match p.2 with | .part .. => true | .literal _ => false

theorem partsAt_append_literal (a : List Region) (len : ℕ) :
    partsAt (a ++ [.literal len]) = partsAt a := by
  simp [partsAt, placed_append, placed]

theorem partsAt_append_part (a : List Region) (len : ℕ) (sha256 : Sha256) (urls : List String) :
    partsAt (a ++ [.part len sha256 urls])
      = partsAt a ++ [(totalLen a, .part len sha256 urls)] := by
  simp [partsAt, placed_append, placed]

theorem mem_partsAt {regions : List Region} {pos len : ℕ} {sha256 : Sha256} {urls : List String} :
    (pos, Region.part len sha256 urls) ∈ partsAt regions ↔
      (pos, Region.part len sha256 urls) ∈ placed 0 regions := by
  simp [partsAt]

theorem pushLiteral_eq (out : List Region) (len : ℕ) :
    pushLiteral out len = out ∧ len = 0 ∨
      (∃ a l, out = a ++ [.literal l] ∧ pushLiteral out len = a ++ [.literal (l + len)]) ∨
      pushLiteral out len = out ++ [.literal len] := by
  rw [pushLiteral]
  split_ifs with hzero
  · exact .inl ⟨rfl, hzero⟩
  · right
    split
    · next l hlast =>
      left
      have hne : out ≠ [] := fun h => by simp [h] at hlast
      have hsplit := List.dropLast_append_getLast hne
      have hl : out.getLast hne = .literal l := by
        rw [List.getLast?_eq_getLast_of_ne_nil hne] at hlast
        exact Option.some.inj hlast
      rw [hl] at hsplit
      exact ⟨out.dropLast, l, hsplit.symm, rfl⟩
    · exact .inr rfl

theorem totalLen_pushLiteral (out : List Region) (len : ℕ) :
    totalLen (pushLiteral out len) = totalLen out + len := by
  obtain ⟨h, hzero⟩ | ⟨a, l, hout, h⟩ | h := pushLiteral_eq out len
  · rw [h, hzero, Nat.add_zero]
  · rw [h, hout, totalLen_append, totalLen_append]
    simp [totalLen, Region.len]
    omega
  · rw [h, totalLen_append]
    rfl

theorem partsAt_pushLiteral (out : List Region) (len : ℕ) :
    partsAt (pushLiteral out len) = partsAt out := by
  obtain ⟨h, -⟩ | ⟨a, l, hout, h⟩ | h := pushLiteral_eq out len
  · rw [h]
  · rw [h, hout, partsAt_append_literal, partsAt_append_literal]
  · rw [h, partsAt_append_literal]

end Jigdo

/-! ### What the minter's nodes flatten to -/

open Jigdo Tiling RecProg

/-- What flattening meets, in order. -/
inductive Leaf where
  | bytes (len : ℕ)
  /-- A ref that some witness claims at a URL. -/
  | claimed (i : ℕ)
  /-- A whole member of the sources table. -/
  | source
  deriving DecidableEq

section

variable (T : Tree) (plan : Plan)

def Leaf.len : Leaf → ℕ
  | bytes len => len
  | claimed i => (T.member i).size
  | source => 0

def inputLeaf : PcInput → Leaf
  | .member idx start len => if start = 0 ∧ len = (T.member idx).size then .source else .bytes len
  | .literal _ len _ _ => .bytes len

def segLeaves (node : ℕ → List Leaf) : Seg → List Leaf
  | .child idx start len _ _ =>
    if start = 0 ∧ len = (T.member idx).size then node idx else [.bytes len]
  | .tabled idx start len _ _ =>
    [if start = 0 ∧ len = (T.member idx).size then .source else .bytes len]
  | .pcluster pc _ _ _ => (plan.pclusters[pc]?.map fun node => node.inputs.map (inputLeaf T)).getD []
  | .gap _ len _ _ => [.bytes len]

/-- The leaves below a member's node, with the same fuel as `nodeJson`. -/
def leaves : ℕ → ℕ → List Leaf
  | 0, i => [.bytes (T.member i).size]
  | fuel + 1, i =>
    match plan.extracts i with
    | some _ => [.bytes (T.member i).size]
    | none =>
      match plan.compress i with
      | some comp => leaves fuel comp.child
      | none =>
        match plan.builds i with
        | none => [if T.directClaimed i then .claimed i else .bytes (T.member i).size]
        | some b => b.segs.flatMap (segLeaves T plan (leaves fuel))

/-- The part a claimed member becomes. -/
def claimedUrls (i : ℕ) : List String :=
  (claimsJson (T.findings i)).filterMap fun claim => claim["url"].asStr

/-- A member's sha256, as a hash of 32 bytes. -/
def shaOf (i : ℕ) : Sha256 :=
  if h : (((T.member i).digests.map Digests.sha256).getD []).length = 32 then ⟨_, h⟩
  else ⟨List.replicate 32 0, List.length_replicate⟩

def pushLeaf (out : List Region) : Leaf → Except Fault (List Region)
  | .bytes len => .ok (pushLiteral out len)
  | .claimed i => .ok (out ++ [.part (T.member i).size (shaOf T i) (claimedUrls T i)])
  | .source => .error (.error "unknown recipe node in jigdo projection")

end

/-- The fields of a plan have their types: 64-bit lengths, digests of 32 bytes. -/
structure Plan.Typed (T : Tree) (plan : Plan) : Prop where
  segs : ∀ i b, plan.builds i = some b → ∀ s ∈ b.segs, s.len < 2 ^ 64
  inputs : ∀ node ∈ plan.pclusters, ∀ input ∈ node.inputs, input.len < 2 ^ 64
  sha256 : ∀ i d, (T.member i).digests = some d → d.sha256.length = 32

theorem flatten_literalJson {len : ℕ} {residueOff : Option ℕ} {inline : Option Bytes} {json : Json}
    (h : literalJson len residueOff inline = .ok json) (hlen : len < 2 ^ 64) (out : List Region) :
    flatten json out = .ok (pushLiteral out len) := by
  cases inline with
  | some bytes =>
    cases h
    rw [flatten]
    simp [lookup_cons, need, toNat_ofNat_of_lt hlen, bind, Except.bind, pure, Except.pure]
  | none =>
    obtain ⟨off, -, h⟩ := bind_eq_ok.mp h
    cases h
    rw [flatten]
    simp [lookup_cons, need, toNat_ofNat_of_lt hlen, bind, Except.bind, pure, Except.pure]

theorem flatten_slice {key : String} {inner start : Json} {len : ℕ} (hkey : key ≠ "len")
    (hlen : len < 2 ^ 64) (out : List Region) :
    flatten (.obj [("slice", .obj [(key, inner), ("from", start), ("len", .ofNat len)])]) out
      = .ok (pushLiteral out len) := by
  rw [flatten]
  simp [lookup_cons, need, toNat_ofNat_of_lt hlen, hkey.symm, bind, Except.bind, pure, Except.pure]

theorem flatten_sourceJson {source start len size : ℕ} (hlen : len < 2 ^ 64) {T : Tree}
    (out : List Region) :
    flatten (sourceJson source start len size) out
      = pushLeaf T out (if start = 0 ∧ len = size then .source else .bytes len) := by
  rw [sourceJson]
  split_ifs with hwhole
  · rw [flatten]
    simp [lookup_cons, pushLeaf]
  · exact flatten_slice (by decide) hlen out

theorem foldlM_leaf {T : Tree} (leaf : Leaf) (out : List Region) :
    [leaf].foldlM (pushLeaf T) out = pushLeaf T out leaf := by
  rw [List.foldlM_cons]
  cases pushLeaf T out leaf <;> rfl

/-- Each input of a pcluster is one leaf. -/
theorem flattenAll_inputs {T : Tree} {nodeOf : ℕ → Option ℕ} {inputs : List PcInput}
    {jsons : List Json} (h : inputs.mapM (pcInputJson T nodeOf) = .ok jsons)
    (hlen : ∀ input ∈ inputs, input.len < 2 ^ 64) (out : List Region) :
    flattenAll jsons out = (inputs.map (inputLeaf T)).foldlM (pushLeaf T) out := by
  induction inputs generalizing jsons out with
  | nil =>
    cases h
    rfl
  | cons input rest ih =>
    rw [List.mapM_cons] at h
    obtain ⟨json, hjson, h⟩ := bind_eq_ok.mp h
    obtain ⟨tail, htail, h⟩ := bind_eq_ok.mp h
    cases h
    have hin := hlen input List.mem_cons_self
    have hone : flatten json out = pushLeaf T out (inputLeaf T input) := by
      cases input with
      | member idx start len =>
        obtain ⟨source, -, hjson⟩ := bind_eq_ok.mp hjson
        cases hjson
        exact flatten_sourceJson hin out
      | literal spoolOff len residueOff inline => exact flatten_literalJson hjson hin out
    rw [flattenAll, List.foldlM_cons, List.map_cons, List.foldlM_cons, hone]
    congr 1
    funext out'
    exact ih htail (fun input hi => hlen input (List.mem_cons_of_mem _ hi)) out'

/-! ### Refs -/

theorem offersOf_nil (backend : String) {claims : List Claim} :
    (offersOf backend claims []).1 = [] ↔ claims.any (fun claim => claim.url.isSome) = false := by
  induction claims with
  | nil => simp [offersOf]
  | cons claim rest ih =>
    rw [offersOf]
    cases hurl : claim.url with
    | none => simp [hurl, ih]
    | some url => simp [hurl]

theorem offersOf_seen {backend : String} {claims : List Claim}
    (h : (offersOf backend claims []).1 = []) : (offersOf backend claims []).2 = [] := by
  induction claims with
  | nil => rfl
  | cons claim rest ih =>
    rw [offersOf] at h ⊢
    cases hurl : claim.url with
    | none =>
      rw [hurl] at h
      exact ih h
    | some url => simp [hurl] at h

/-- A member has claims to state exactly when it is claimed. -/
theorem claimsJson_nil {T : Tree} {i : ℕ} :
    claimsJson (T.findings i) = [] ↔ T.directClaimed i = false := by
  rw [claimsJson, Tree.directClaimed]
  induction T.findings i with
  | nil => simp [claimsLoop]
  | cons f rest ih =>
    rw [claimsLoop, List.any_cons, Bool.or_eq_false_iff]
    split_ifs with harch
    · have hnone : f.archive.isNone = false := by simpa using harch
      simp [hnone, ih]
    · have hnone : f.archive.isNone = true := by simpa using harch
      rw [hnone, Bool.true_and, ← offersOf_nil f.backend, List.append_eq_nil_iff]
      constructor
      · intro ⟨hout, hrest⟩
        rw [offersOf_seen hout] at hrest
        exact ⟨hout, ih.mp hrest⟩
      · intro ⟨hout, hrest⟩
        rw [offersOf_seen hout]
        exact ⟨hout, ih.mpr hrest⟩

theorem url_of_mem_offersOf {backend : String} {claims : List Claim} {seen : List (String × String)}
    {json : Json} (h : json ∈ (offersOf backend claims seen).1) :
    ∃ url, json["url"].asStr = some url := by
  induction claims generalizing seen with
  | nil => cases h
  | cons claim rest ih =>
    rw [offersOf] at h
    split at h
    · exact ih h
    · next url _ =>
      split_ifs at h with hseen
      · exact ih h
      · cases List.mem_cons.mp h with
        | inl h =>
          rw [h]
          exact ⟨url, by simp [claimJson, lookup_cons, Json.ofOption]⟩
        | inr h => exact ih h

theorem url_of_mem_claimsLoop {fs : List Finding} {seen : List (String × String)} {json : Json}
    (h : json ∈ claimsLoop fs seen) : ∃ url, json["url"].asStr = some url := by
  induction fs generalizing seen with
  | nil => cases h
  | cons f rest ih =>
    rw [claimsLoop] at h
    split_ifs at h
    · exact ih h
    · cases List.mem_append.mp h with
      | inl h => exact url_of_mem_offersOf h
      | inr h => exact ih h

/-- A claimed member has a URL to be fetched from. -/
theorem claimedUrls_nil {T : Tree} {i : ℕ} : claimedUrls T i = [] ↔ T.directClaimed i = false := by
  rw [← claimsJson_nil, claimedUrls]
  constructor
  · intro h
    cases hclaims : claimsJson (T.findings i) with
    | nil => rfl
    | cons json rest =>
      have hmem : json ∈ claimsJson (T.findings i) := by
        rw [hclaims]
        exact List.mem_cons_self
      obtain ⟨url, hurl⟩ := url_of_mem_claimsLoop hmem
      simp [hclaims, hurl] at h
  · intro h
    rw [h]
    rfl

theorem decodeSha256_hex {bytes : Bytes} (h : bytes.length = 32) :
    decodeSha256 (String.ofList (hexLower bytes)) = .ok ⟨bytes, h⟩ := by
  have hone : ∀ c ∈ hexLower bytes, c.utf8Size = 1 := by
    intro c hc
    obtain ⟨d, hd, rfl⟩ := mem_hexLower hc
    interval_cases d <;> rfl
  have hsize : ((hexLower bytes).map Char.utf8Size).sum = 64 := by
    rw [List.map_congr_left hone, List.map_const', List.sum_replicate, hexLower_length, h]
    rfl
  simp [decodeSha256, hsize, decodeHexLower_hexLower, h]

theorem flatten_refJson {T : Tree} {i : ℕ} {json : Json}
    (h : refJson (T.member i) (claimsJson (T.findings i)) = .ok json)
    (hsha : ∀ d, (T.member i).digests = some d → d.sha256.length = 32) (out : List Region) :
    flatten json out
      = pushLeaf T out (if T.directClaimed i then .claimed i else .bytes (T.member i).size) := by
  obtain ⟨d, hd, h⟩ := bind_eq_ok.mp h
  have hd := expect_eq_ok.mp hd
  have hlen := hsha d hd
  have hsize := toNat_ofNat_of_lt (T.member i).size_lt
  cases h
  rw [flatten]
  cases hclaimed : T.directClaimed i with
  | false =>
    have hnil := claimsJson_nil.mpr hclaimed
    simp [lookup_cons, hnil, flattenRef, need, hsize, pushLeaf, bind, Except.bind, pure, Except.pure]
  | true =>
    have hne : claimsJson (T.findings i) ≠ [] := fun h => by
      rw [claimsJson_nil, hclaimed] at h
      cases h
    have hurls : claimedUrls T i ≠ [] := fun h => by
      rw [claimedUrls_nil, hclaimed] at h
      cases h
    have hsha : shaOf T i = ⟨d.sha256, hlen⟩ := by
      simp [shaOf, hd, hlen]
    rw [claimedUrls] at hurls
    simp [lookup_cons, hne, flattenRef, need, hsize, pushLeaf, hurls,
      digestsJson, hexJson, decodeSha256_hex hlen, hsha, claimedUrls, bind, Except.bind, pure,
      Except.pure]

/-! ### Whole nodes -/

section

variable {T : Tree} {plan : Plan} {srcOf nodeOf : ℕ → Option ℕ}

theorem flatten_extractJson {i : ℕ} {e : Extract} {json : Json}
    (h : extractJson T srcOf i e = .ok json) (out : List Region) :
    flatten json out = .ok (pushLiteral out (T.member i).size) := by
  obtain ⟨source, -, h⟩ := bind_eq_ok.mp h
  obtain ⟨d, -, h⟩ := bind_eq_ok.mp h
  cases h
  have hsize := toNat_ofNat_of_lt (T.member i).size_lt
  rw [flatten]
  simp [lookup_cons, outputJson, need, hsize, bind, Except.bind, pure, Except.pure]

theorem flatten_compressJson {i : ℕ} {how : Comp} {child json : Json}
    (h : compressJson T i how child = .ok json) (out : List Region) :
    flatten json out = flatten child out := by
  obtain ⟨d, -, h⟩ := bind_eq_ok.mp h
  have hinputs : flattenAll [child] out = flatten child out := by
    rw [flattenAll, List.foldlM_cons]
    cases flatten child out <;> rfl
  rw [← hinputs]
  cases h
  apply flatten_build <;> simp [lookup_cons]

theorem flatten_pclusterJson {node : PClusterNode} {json : Json}
    (h : pclusterJson T nodeOf node = .ok json) (hlen : ∀ input ∈ node.inputs, input.len < 2 ^ 64)
    (out : List Region) :
    flatten json out = (node.inputs.map (inputLeaf T)).foldlM (pushLeaf T) out := by
  obtain ⟨inputs, hinputs, h⟩ := bind_eq_ok.mp h
  rw [← flattenAll_inputs hinputs hlen out]
  cases h
  apply flatten_build <;> simp [lookup_cons]

theorem flatten_spliceJson {i dropped : ℕ} {inputs : List Json} {json : Json}
    (h : spliceJson T i dropped inputs = .ok json) (out : List Region) :
    flatten json out = flattenAll inputs out := by
  obtain ⟨d, -, h⟩ := bind_eq_ok.mp h
  cases h
  apply flatten_build <;> simp [lookup_cons]

/-- One input of a splice. -/
theorem flatten_segJson (htyped : plan.Typed T) {fuel : ℕ}
    (ih : ∀ i json out, nodeJson T plan srcOf nodeOf fuel i = .ok json →
      flatten json out = (leaves T plan fuel i).foldlM (pushLeaf T) out)
    {s : Seg} {json : Json} (hlen : s.len < 2 ^ 64)
    (h : segJson T plan nodeOf (nodeJson T plan srcOf nodeOf fuel) s = .ok json)
    (out : List Region) :
    flatten json out = (segLeaves T plan (leaves T plan fuel) s).foldlM (pushLeaf T) out := by
  cases s with
  | child idx start len pos rootOff =>
    obtain ⟨inner, hinner, h⟩ := bind_eq_ok.mp h
    rw [segLeaves]
    split_ifs with hwhole
    · rw [if_pos hwhole] at h
      cases h
      exact ih idx json out hinner
    · rw [if_neg hwhole] at h
      cases h
      rw [foldlM_leaf]
      exact flatten_slice (by decide) hlen out
  | tabled idx start len pos rootOff =>
    obtain ⟨source, -, h⟩ := bind_eq_ok.mp h
    cases h
    rw [segLeaves, foldlM_leaf]
    exact flatten_sourceJson hlen out
  | pcluster pc pos len rootOff =>
    obtain ⟨node, hnode, h⟩ := bind_eq_ok.mp h
    have hnode := expect_eq_ok.mp hnode
    rw [segLeaves, hnode]
    exact flatten_pclusterJson h (htyped.inputs node (List.mem_of_getElem? hnode)) out
  | gap pos len residueOff inline =>
    rw [segLeaves, foldlM_leaf]
    exact flatten_literalJson h hlen out

theorem flattenAll_segs (htyped : plan.Typed T) {fuel : ℕ}
    (ih : ∀ i json out, nodeJson T plan srcOf nodeOf fuel i = .ok json →
      flatten json out = (leaves T plan fuel i).foldlM (pushLeaf T) out)
    {segs : List Seg} {inputs : List Json} (hlen : ∀ s ∈ segs, s.len < 2 ^ 64)
    (h : segs.mapM (segJson T plan nodeOf (nodeJson T plan srcOf nodeOf fuel)) = .ok inputs)
    (out : List Region) :
    flattenAll inputs out
      = (segs.flatMap (segLeaves T plan (leaves T plan fuel))).foldlM (pushLeaf T) out := by
  induction segs generalizing inputs out with
  | nil =>
    cases h
    rfl
  | cons s rest ihrest =>
    rw [List.mapM_cons] at h
    obtain ⟨json, hs, h⟩ := bind_eq_ok.mp h
    obtain ⟨tail, htail, h⟩ := bind_eq_ok.mp h
    cases h
    have hone := flatten_segJson htyped ih (hlen s List.mem_cons_self) hs out
    rw [flattenAll, List.foldlM_cons, List.flatMap_cons, List.foldlM_append, hone]
    congr 1
    funext out'
    exact ihrest (fun s hs => hlen s (List.mem_cons_of_mem _ hs)) htail out'

/-- **The projection of a minted node** pushes the leaves below it, one after another. -/
theorem flatten_nodeJson (htyped : plan.Typed T) {fuel i : ℕ} {json : Json}
    (h : nodeJson T plan srcOf nodeOf fuel i = .ok json) (out : List Region) :
    flatten json out = (leaves T plan fuel i).foldlM (pushLeaf T) out := by
  induction fuel generalizing i json out with
  | zero => cases h
  | succ fuel ih =>
    rw [nodeJson] at h
    rw [leaves]
    cases hext : plan.extracts i with
    | some e =>
      simp only [hext] at h ⊢
      rw [foldlM_leaf]
      exact flatten_extractJson h out
    | none =>
      cases hcomp : plan.compress i with
      | some comp =>
        simp only [hext, hcomp] at h ⊢
        obtain ⟨child, hchild, h⟩ := bind_eq_ok.mp h
        rw [flatten_compressJson h]
        exact ih hchild out
      | none =>
        cases hb : plan.builds i with
        | none =>
          simp only [hext, hcomp, hb] at h ⊢
          rw [foldlM_leaf]
          exact flatten_refJson h (htyped.sha256 i) out
        | some b =>
          simp only [hext, hcomp, hb] at h ⊢
          obtain ⟨inputs, hinputs, h⟩ := bind_eq_ok.mp h
          rw [flatten_spliceJson h]
          exact flattenAll_segs htyped (fun i json out h => ih h out) (htyped.segs i b hb) hinputs out

end

/-! ### Coverage -/

section

variable (T : Tree) (plan : Plan)

def leafTotal (ls : List Leaf) : ℕ := (ls.map (Leaf.len T)).sum

/-- The claimed members among the leaves, with the offsets they get. -/
def claimedAt : ℕ → List Leaf → List (ℕ × ℕ)
  | _, [] => []
  | pos, .claimed i :: rest => (pos, i) :: claimedAt (pos + (T.member i).size) rest
  | pos, leaf :: rest => claimedAt (pos + leaf.len T) rest

def claimedRegion (i : ℕ) : Region := .part (T.member i).size (shaOf T i) (claimedUrls T i)

variable {T}

theorem pushLeaves_source {ls : List Leaf} (h : Leaf.source ∈ ls) (out : List Region) :
    ∃ e, ls.foldlM (pushLeaf T) out = .error e := by
  induction ls generalizing out with
  | nil => cases h
  | cons leaf rest ih =>
    rw [List.foldlM_cons]
    cases leaf with
    | source => exact ⟨_, rfl⟩
    | bytes len => exact ih ((List.mem_cons.mp h).resolve_left (fun h => nomatch h)) _
    | claimed i => exact ih ((List.mem_cons.mp h).resolve_left (fun h => nomatch h)) _

theorem pushLeaves {ls : List Leaf} (h : Leaf.source ∉ ls) (out : List Region) :
    ∃ regions, ls.foldlM (pushLeaf T) out = .ok regions ∧
      totalLen regions = totalLen out + leafTotal T ls ∧
      partsAt regions = partsAt out ++
        (claimedAt T (totalLen out) ls).map fun p => (p.1, claimedRegion T p.2) := by
  induction ls generalizing out with
  | nil => exact ⟨out, rfl, rfl, (List.append_nil _).symm⟩
  | cons leaf rest ih =>
    have hrest : Leaf.source ∉ rest := fun hmem => h (List.mem_cons_of_mem _ hmem)
    have htotal : leafTotal T (leaf :: rest) = leaf.len T + leafTotal T rest := rfl
    rw [List.foldlM_cons]
    cases leaf with
    | source => exact absurd List.mem_cons_self h
    | bytes len =>
      obtain ⟨regions, hrun, hlen, hparts⟩ := ih hrest (pushLiteral out len)
      rw [totalLen_pushLiteral] at hlen hparts
      rw [partsAt_pushLiteral] at hparts
      exact ⟨regions, hrun, by rw [hlen, htotal, Nat.add_assoc]; rfl, hparts⟩
    | claimed i =>
      obtain ⟨regions, hrun, hlen, hparts⟩ := ih hrest (out ++ [claimedRegion T i])
      have hpush : totalLen (out ++ [claimedRegion T i]) = totalLen out + (T.member i).size :=
        totalLen_append _ _
      rw [hpush] at hlen hparts
      refine ⟨regions, hrun, by rw [hlen, htotal, Nat.add_assoc]; rfl, ?_⟩
      rw [hparts, claimedRegion, partsAt_append_part, List.append_assoc]
      rfl

variable (T)

/-- What the encoder of a pcluster is given. -/
def inputSpan (pc : ℕ) : ℕ :=
  (plan.pclusters[pc]?.map fun node => (node.inputs.map PcInput.len).sum).getD 0

/-- How many more bytes the compressors take in than they put out, over all those that flattening goes
through. -/
def segDrift (node : ℕ → ℤ) : Seg → ℤ
  | .child idx start len _ _ => if start = 0 ∧ len = (T.member idx).size then node idx else 0
  | .tabled .. => 0
  | .pcluster pc _ len _ => inputSpan plan pc - len
  | .gap .. => 0

def drift : ℕ → ℕ → ℤ
  | 0, _ => 0
  | fuel + 1, i =>
    match plan.extracts i with
    | some _ => 0
    | none =>
      match plan.compress i with
      | some comp => drift fuel comp.child + ((T.member comp.child).size - (T.member i).size)
      | none =>
        match plan.builds i with
        | none => 0
        | some b => (b.segs.map (segDrift T plan (drift fuel))).sum

/-- Below the node there is no compressor run, and no member that is taken whole from the sources
table. -/
def PlainSeg (node : ℕ → Prop) : Seg → Prop
  | .child idx start len _ _ => start = 0 ∧ len = (T.member idx).size → node idx
  | .tabled idx start len _ _ => ¬ (start = 0 ∧ len = (T.member idx).size)
  | .pcluster .. => False
  | .gap .. => True

def PlainBelow : ℕ → ℕ → Prop
  | 0, _ => True
  | fuel + 1, i =>
    (plan.extracts i).isSome ∨ plan.compress i = none ∧
      ∀ b, plan.builds i = some b → ∀ s ∈ b.segs, PlainSeg T (PlainBelow fuel) s

variable {T} {plan}

theorem leafTotal_append (a b : List Leaf) : leafTotal T (a ++ b) = leafTotal T a + leafTotal T b := by
  simp [leafTotal]

theorem leafTotal_inputs {inputs : List PcInput} (h : Leaf.source ∉ inputs.map (inputLeaf T)) :
    leafTotal T (inputs.map (inputLeaf T)) = (inputs.map PcInput.len).sum := by
  have hone : ∀ input ∈ inputs, (inputLeaf T input).len T = input.len := by
    intro input hin
    cases input with
    | literal => rfl
    | member idx start len =>
      have hne : inputLeaf T (.member idx start len) ≠ .source := fun heq =>
        h (heq ▸ List.mem_map_of_mem hin)
      rw [inputLeaf] at hne ⊢
      split_ifs with hwhole
      · rw [if_pos hwhole] at hne
        exact absurd rfl hne
      · rfl
  rw [leafTotal, List.map_map]
  exact congrArg List.sum (List.map_congr_left hone)

theorem leafTotal_seg {node : ℕ → List Leaf} {dr : ℕ → ℤ}
    (ih : ∀ i, Leaf.source ∉ node i → (leafTotal T (node i) : ℤ) = (T.member i).size + dr i) {s : Seg}
    (h : Leaf.source ∉ segLeaves T plan node s) :
    (leafTotal T (segLeaves T plan node s) : ℤ) = s.len + segDrift T plan dr s := by
  cases s with
  | child idx start len pos rootOff =>
    rw [segLeaves] at h ⊢
    rw [segDrift]
    split_ifs with hwhole
    · rw [if_pos hwhole] at h
      rw [ih idx h, hwhole.2.symm]
      rfl
    · simp [leafTotal, Leaf.len, Seg.len]
  | tabled idx start len pos rootOff =>
    rw [segLeaves] at h ⊢
    split_ifs at h ⊢ with hwhole
    · exact absurd List.mem_cons_self h
    · simp [leafTotal, Leaf.len, Seg.len, segDrift]
  | pcluster pc pos len rootOff =>
    rw [segLeaves] at h ⊢
    rw [segDrift]
    cases hpc : plan.pclusters[pc]? with
    | none => simp [leafTotal, Seg.len, inputSpan, hpc]
    | some node =>
      rw [hpc] at h
      have htotal := leafTotal_inputs h
      simp only [Option.map_some, Option.getD_some, htotal, Seg.len, inputSpan, hpc]
      omega
  | gap pos len residueOff inline => simp [segLeaves, segDrift, leafTotal, Leaf.len, Seg.len]

theorem leafTotal_segs {node : ℕ → List Leaf} {dr : ℕ → ℤ}
    (ih : ∀ i, Leaf.source ∉ node i → (leafTotal T (node i) : ℤ) = (T.member i).size + dr i)
    {segs : List Seg} (h : Leaf.source ∉ segs.flatMap (segLeaves T plan node)) :
    (leafTotal T (segs.flatMap (segLeaves T plan node)) : ℤ)
      = (segs.map Seg.len).sum + (segs.map (segDrift T plan dr)).sum := by
  induction segs with
  | nil => rfl
  | cons s rest ihrest =>
    rw [List.flatMap_cons, List.mem_append, not_or] at h
    have hs := leafTotal_seg ih h.1
    have hrest := ihrest h.2
    rw [List.flatMap_cons, leafTotal_append, List.map_cons, List.map_cons, List.sum_cons,
      List.sum_cons]
    rw [Nat.cast_add, Nat.cast_add]
    omega

/-- **The leaves have the node's bytes**, but for what the compressors between gain or lose. -/
theorem leafTotal_leaves (htiles : ∀ i b, plan.builds i = some b →
      Tiles Seg.pos Seg.len 0 (T.member i).size b.segs) {fuel i : ℕ}
    (h : Leaf.source ∉ leaves T plan fuel i) :
    (leafTotal T (leaves T plan fuel i) : ℤ) = (T.member i).size + drift T plan fuel i := by
  induction fuel generalizing i with
  | zero => simp [leaves, leafTotal, Leaf.len, drift]
  | succ fuel ih =>
    rw [leaves] at h ⊢
    rw [drift]
    cases hext : plan.extracts i with
    | some e => simp [leafTotal, Leaf.len]
    | none =>
      simp only [hext] at h ⊢
      cases hcomp : plan.compress i with
      | some comp =>
        simp only [hcomp] at h ⊢
        rw [ih h]
        omega
      | none =>
        simp only [hcomp] at h ⊢
        cases hb : plan.builds i with
        | none =>
          simp only []
          split_ifs <;> simp [leafTotal, Leaf.len]
        | some b =>
          simp only [hb] at h ⊢
          rw [leafTotal_segs (fun i => ih) h, ← (htiles i b hb).sum_len, Nat.zero_add]

end

/-! ### The members' bytes -/

/-- A run lies inside the space. -/
def Run.Inside (space : Bytes) (r : Run) : Prop := r.off + r.len ≤ space.length

theorem length_viewBytes {space : Bytes} {lo hi : ℕ} {runs : List Run}
    (htiles : Tiles Run.log Run.len lo hi runs) (hin : ∀ r ∈ runs, r.Inside space) :
    (viewBytes space runs).length = hi - lo := by
  induction runs generalizing lo with
  | nil =>
    have : lo = hi := htiles
    simp [viewBytes, this]
  | cons r rest ih =>
    have hr : r.off + r.len ≤ space.length := hin r List.mem_cons_self
    have hrest := ih htiles.2 fun r hr => hin r (List.mem_cons_of_mem _ hr)
    have hle := htiles.2.le
    rw [viewBytes] at hrest ⊢
    rw [List.flatMap_cons, List.length_append, hrest, List.length_take, List.length_drop]
    omega

/-- A range inside one run is where the run says. -/
theorem viewBytes_slice {space : Bytes} {lo hi : ℕ} {runs : List Run}
    (htiles : Tiles Run.log Run.len lo hi runs) (hin : ∀ r ∈ runs, r.Inside space) {r : Run}
    (hr : r ∈ runs) {pos len : ℕ} (hlo : r.log ≤ pos) (hhi : pos + len ≤ r.log + r.len) :
    ((viewBytes space runs).drop (pos - lo)).take len
      = (space.drop (r.off + (pos - r.log))).take len := by
  induction runs generalizing lo with
  | nil => cases hr
  | cons x rest ih =>
    have hx : x.off + x.len ≤ space.length := hin x List.mem_cons_self
    obtain ⟨hlog, hrest⟩ := htiles
    have hlen : ((space.drop x.off).take x.len).length = x.len := by
      rw [List.length_take, List.length_drop]
      omega
    cases List.mem_cons.mp hr with
    | inl h =>
      rw [h] at hlo hhi ⊢
      rw [viewBytes, List.flatMap_cons, List.drop_append_of_le_length (by omega),
        List.take_append_of_le_length (by rw [List.length_drop]; omega), List.drop_take, List.drop_drop,
        List.take_take]
      have hmin : min len (x.len - (pos - lo)) = len := by omega
      rw [hmin, hlog]
    | inr h =>
      have hstart := (hrest.bounds h).1
      have hstep := ih hrest (fun r hr => hin r (List.mem_cons_of_mem _ hr)) h
      have hskip : ((viewBytes space (x :: rest)).drop (pos - lo))
          = (viewBytes space rest).drop (pos - (lo + x.len)) := by
        rw [viewBytes, List.flatMap_cons, List.drop_append, hlen,
          List.drop_eq_nil_of_le (by omega), List.nil_append]
        congr 1
        omega
      rw [hskip, hstep]

namespace Planner

variable (P : Planner)

def spaceBytes (space : ℕ) : Bytes := (P.spaces space).getD []

/-- A member's bytes, where its children are spliced. -/
def nodeBytes (i : ℕ) : Bytes :=
  match P.tree.ground i with
  | some (space, runs) => viewBytes (P.spaceBytes space) runs
  | none => []

/-- What the walk recorded: runs lie inside their spaces, a spool holds its member's bytes, and equal
sha256 means equal bytes. -/
structure Recorded : Prop where
  inside : ∀ i e, (P.tree.member i).extents = some e → ∀ r ∈ e.runs, r.Inside (P.spaceBytes e.src)
  spool : ∀ i v, (P.tree.member i).space = some v →
    (P.spaceBytes v).length = (P.tree.member i).size
  spooled : ∀ i v e, (P.tree.member i).space = some v → (P.tree.member i).extents = some e →
    P.spaceBytes v = viewBytes (P.spaceBytes e.src) e.runs
  same : ∀ i j d d', (P.tree.member i).digests = some d → (P.tree.member j).digests = some d' →
    d.sha256 = d'.sha256 → P.nodeBytes i = P.nodeBytes j

variable {P}

theorem Recorded.ground_inside (h : P.Recorded) {i space : ℕ} {runs : List Run}
    (hground : P.tree.ground i = some (space, runs)) :
    ∀ r ∈ runs, r.Inside (P.spaceBytes space) := by
  rw [Tree.ground] at hground
  cases hv : (P.tree.member i).space with
  | some v =>
    rw [hv] at hground
    cases hground
    intro r hr
    rw [List.mem_singleton.mp hr, Run.Inside, h.spool i space hv]
    exact (Nat.zero_add _).le
  | none =>
    simp only [hv] at hground
    split at hground
    · next e he =>
      cases hground
      exact h.inside i e he
    · cases hground

/-- A member's bytes are those of its runs, also when it has been spooled. -/
theorem Recorded.nodeBytes_eq (h : P.Recorded) {i : ℕ}
    {e : Extents (P.tree.member i).size} (he : (P.tree.member i).extents = some e) :
    P.nodeBytes i = viewBytes (P.spaceBytes e.src) e.runs := by
  rw [nodeBytes, Tree.ground]
  cases hv : (P.tree.member i).space with
  | none => simp only [he]
  | some v =>
    show viewBytes (P.spaceBytes v) [⟨0, 0, (P.tree.member i).size⟩] = _
    rw [← h.spooled i v e hv he, viewBytes, ← h.spool i v hv]
    simp

end Planner

/-- The verify pass fills a gap in; nothing else changes. -/
inductive Seg.Filled : Seg → Seg → Prop
  | same (s : Seg) : Filled s s
  | gap (pos len : ℕ) (residueOff : Option ℕ) (inline : Option Bytes) :
    Filled (.gap pos len none none) (.gap pos len residueOff inline)

/-- A plan that a recipe is written from: one of the planner's, with the gaps filled in. -/
structure Mintable (P : Planner) (plan : Plan) : Prop where
  typed : plan.Typed P.tree
  builds : ∀ i b, plan.builds i = some b →
    ∃ b₀ : Build, b₀.Good P.tree i plan.pclusters ∧ List.Forall₂ Seg.Filled b₀.segs b.segs

/-- The regions cover the member: they have its length, and at each part's place there are that file's
bytes. -/
structure Covers (P : Planner) (root : ℕ) (regions : List Region) : Prop where
  total : totalLen regions = (P.tree.member root).size
  stands : ∀ pos len sha256 urls, (pos, Region.part len sha256 urls) ∈ placed 0 regions →
    ∃ j d, (P.tree.member j).digests = some d ∧ d.sha256 = sha256.1 ∧
      len = (P.tree.member j).size ∧ readFullAt (P.nodeBytes root) len pos = P.nodeBytes j

section

variable {P : Planner} {plan : Plan}

theorem Mintable.tiles (h : Mintable P plan) (i : ℕ) (b : Build) (hb : plan.builds i = some b) :
    Tiles Seg.pos Seg.len 0 (P.tree.member i).size b.segs := by
  obtain ⟨b₀, hgood, hfilled⟩ := h.builds i b hb
  have hmap : ∀ (lo hi : ℕ) (xs ys : List Seg), List.Forall₂ Seg.Filled xs ys →
      Tiles Seg.pos Seg.len lo hi xs → Tiles Seg.pos Seg.len lo hi ys := by
    intro lo hi xs ys hxy
    induction hxy generalizing lo with
    | nil => exact id
    | cons hone _ ih =>
      rintro ⟨hpos, hrest⟩
      cases hone with
      | same s => exact ⟨hpos, ih _ hrest⟩
      | gap pos len residueOff inline => exact ⟨hpos, ih _ hrest⟩
  exact hmap _ _ _ _ hfilled hgood.tiles

/-- A child that is spliced in whole is where its node's runs say. -/
theorem Mintable.child (h : Mintable P plan) (hrec : P.Recorded) {i idx len pos rootOff : ℕ} {b : Build}
    (hb : plan.builds i = some b) (hs : Seg.child idx 0 len pos rootOff ∈ b.segs)
    (hwhole : len = (P.tree.member idx).size) :
    ((P.nodeBytes i).drop pos).take len = P.nodeBytes idx := by
  obtain ⟨b₀, hgood, hfilled⟩ := h.builds i b hb
  have hmem : ∀ (xs ys : List Seg), List.Forall₂ Seg.Filled xs ys →
      Seg.child idx 0 len pos rootOff ∈ ys → Seg.child idx 0 len pos rootOff ∈ xs := by
    intro xs ys hxy
    induction hxy with
    | nil => exact id
    | cons hone _ ih =>
      intro hmem
      cases List.mem_cons.mp hmem with
      | inl heq =>
        rw [← heq] at hone
        cases hone with
        | same s => exact List.mem_cons_self
      | inr hmem => exact List.mem_cons_of_mem _ (ih hmem)
  obtain ⟨hkid, ⟨r, hr, hlo, hhi, hoff⟩, cruns, hcruns, hrun⟩ := hgood.segs _ (hmem _ _ hfilled hs)
  have hnode : P.nodeBytes i = viewBytes (P.spaceBytes b₀.space) b₀.runs := by
    rw [Planner.nodeBytes, hgood.ground]
  have hparent := viewBytes_slice (Tree.runs_tile hgood.ground) (hrec.ground_inside hgood.ground) hr
    hlo hhi
  rw [Nat.sub_zero, ← hoff] at hparent
  rw [hnode, hparent]
  -- the child's own runs: one run has all of it
  obtain ⟨e, he, hsrc, hruns⟩ : ∃ e, (P.tree.member idx).extents = some e ∧ e.src = b₀.space ∧
      e.runs = cruns := by
    rw [Tree.rangeable] at hcruns
    split_ifs at hcruns with hid
    split at hcruns
    · next e he =>
      split_ifs at hcruns with hsrc
      cases hcruns
      exact ⟨e, he, hsrc, rfl⟩
    · cases hcruns
  have hin := hrec.inside idx e he
  rw [hrec.nodeBytes_eq he, hruns, hsrc]
  rw [hruns, hsrc] at hin
  have htiles : Tiles Run.log Run.len 0 (P.tree.member idx).size cruns := hruns ▸ e.tiled
  have hslice := @viewBytes_slice _ _ _ _ htiles hin _ hrun 0 len (Nat.le_refl 0)
    (Nat.le_refl _)
  have hfull := length_viewBytes htiles hin
  rw [Nat.sub_zero, List.drop_zero, Nat.add_zero,
    List.take_of_length_le (by rw [hfull, hwhole]; omega)] at hslice
  exact hslice.symm

theorem claimedAt_append {T : Tree} (pos : ℕ) (a b : List Leaf) :
    claimedAt T pos (a ++ b) = claimedAt T pos a ++ claimedAt T (pos + leafTotal T a) b := by
  induction a generalizing pos with
  | nil => rfl
  | cons leaf rest ih =>
    have htotal : leafTotal T (leaf :: rest) = leaf.len T + leafTotal T rest := rfl
    cases leaf with
    | claimed i =>
      rw [List.cons_append, claimedAt, claimedAt, ih, htotal, List.cons_append, Nat.add_assoc]
      rfl
    | bytes len =>
      rw [List.cons_append, claimedAt, claimedAt, ih, htotal, Nat.add_assoc]
      · exact fun i h => nomatch h
      · exact fun i h => nomatch h
    | source =>
      rw [List.cons_append, claimedAt, claimedAt, ih, htotal, Nat.add_assoc]
      · exact fun i h => nomatch h
      · exact fun i h => nomatch h

/-- What is owed of a node that is flattened at an offset of the image where its bytes are. -/
structure Lies (P : Planner) (image : Bytes) (i : ℕ) (ls : List Leaf) : Prop where
  noSource : Leaf.source ∉ ls
  total : leafTotal P.tree ls = (P.tree.member i).size
  stands : ∀ off, readFullAt image (P.tree.member i).size off = P.nodeBytes i →
    ∀ p ∈ claimedAt P.tree off ls,
      readFullAt image (P.tree.member p.2).size p.1 = P.nodeBytes p.2

theorem lies_bytes {image : Bytes} {i : ℕ} :
    Lies P image i [.bytes (P.tree.member i).size] where
  noSource := by simp
  total := by simp [leafTotal, Leaf.len]
  stands off _ p hp := by simp [claimedAt] at hp

theorem lies_claimed {image : Bytes} {i : ℕ} : Lies P image i [.claimed i] where
  noSource := by simp
  total := by simp [leafTotal, Leaf.len]
  stands off himage p hp := by
    have hp : p = (off, i) := by simpa [claimedAt] using hp
    rw [hp]
    exact himage

/-- A splice: each of its segments starts where the ones before it end. -/
theorem lies_segs (h : Mintable P plan) (hrec : P.Recorded) {image : Bytes} {i : ℕ} {b : Build}
    (hb : plan.builds i = some b) {node : ℕ → List Leaf} {plain : ℕ → Prop}
    (ih : ∀ j, plain j → Lies P image j (node j))
    (hplain : ∀ s ∈ b.segs, PlainSeg P.tree plain s) :
    Lies P image i (b.segs.flatMap (segLeaves P.tree plan node)) := by
  have hseg : ∀ s ∈ b.segs, Leaf.source ∉ segLeaves P.tree plan node s ∧
      leafTotal P.tree (segLeaves P.tree plan node s) = s.len := by
    intro s hs
    have hp := hplain s hs
    cases s with
    | child idx start len pos rootOff =>
      rw [segLeaves]
      split_ifs with hwhole
      · have hlies := ih idx (hp hwhole)
        exact ⟨hlies.noSource, hlies.total.trans hwhole.2.symm⟩
      · exact ⟨by simp, by simp [leafTotal, Leaf.len, Seg.len]⟩
    | tabled idx start len pos rootOff =>
      rw [segLeaves, if_neg hp]
      exact ⟨by simp, by simp [leafTotal, Leaf.len, Seg.len]⟩
    | pcluster => exact hp.elim
    | gap pos len residueOff inline =>
      exact ⟨by simp [segLeaves], by simp [segLeaves, leafTotal, Leaf.len, Seg.len]⟩
  have hstands : ∀ (off : ℕ), readFullAt image (P.tree.member i).size off = P.nodeBytes i →
      ∀ (lo : ℕ) (segs : List Seg), (∀ s ∈ segs, s ∈ b.segs) →
        Tiles Seg.pos Seg.len lo (P.tree.member i).size segs →
        ∀ p ∈ claimedAt P.tree (off + lo) (segs.flatMap (segLeaves P.tree plan node)),
          readFullAt image (P.tree.member p.2).size p.1 = P.nodeBytes p.2 := by
    intro off himage lo segs
    induction segs generalizing lo with
    | nil => exact fun _ _ p hp => absurd hp List.not_mem_nil
    | cons s rest ihrest =>
      intro hsub htiles p hp
      have hs := hsub s List.mem_cons_self
      rw [List.flatMap_cons, claimedAt_append, (hseg s hs).2, Nat.add_assoc] at hp
      cases List.mem_append.mp hp with
      | inr hp =>
        exact ihrest _ (fun s hs => hsub s (List.mem_cons_of_mem _ hs)) htiles.2 p hp
      | inl hfirst =>
        cases s with
        | child idx start len pos rootOff =>
          rw [segLeaves] at hfirst
          split_ifs at hfirst with hwhole
          · obtain ⟨rfl, hlen⟩ := hwhole
            have hin := h.child hrec hb hs hlen
            have hpos : pos = lo := htiles.1
            have hend : pos + len ≤ (P.tree.member i).size :=
              ((h.tiles i b hb).bounds hs).2
            -- the child's bytes in the image, by way of its node's
            have hplace : readFullAt image (P.tree.member idx).size (off + lo)
                = P.nodeBytes idx := by
              rw [← hin, ← himage, ← hlen, ← hpos, readFullAt, readFullAt, List.drop_take,
                List.drop_drop, List.take_take]
              congr 1
              omega
            exact (ih idx (hplain _ hs ⟨rfl, hlen⟩)).stands _ hplace p hfirst
          · simp [claimedAt] at hfirst
        | tabled idx start len pos rootOff =>
          rw [segLeaves, if_neg (hplain _ hs)] at hfirst
          simp [claimedAt] at hfirst
        | pcluster => exact (hplain _ hs).elim
        | gap => simp [segLeaves, claimedAt] at hfirst
  constructor
  · intro hmem
    obtain ⟨s, hs, hmem⟩ := List.mem_flatMap.mp hmem
    exact (hseg s hs).1 hmem
  · have hsum : ∀ segs : List Seg, (∀ s ∈ segs, s ∈ b.segs) →
        leafTotal P.tree (segs.flatMap (segLeaves P.tree plan node)) = (segs.map Seg.len).sum := by
      intro segs hsub
      induction segs with
      | nil => rfl
      | cons s rest ihrest =>
        rw [List.flatMap_cons, leafTotal_append, (hseg s (hsub s List.mem_cons_self)).2,
          ihrest fun s hs => hsub s (List.mem_cons_of_mem _ hs), List.map_cons, List.sum_cons]
    rw [hsum b.segs fun _ hs => hs]
    have := (h.tiles i b hb).sum_len
    omega
  · intro off himage p hp
    exact hstands off himage 0 b.segs (fun _ hs => hs) (h.tiles i b hb) p hp

/-- **A plain recipe lies in the image as it says.** -/
theorem lies_of_plain (h : Mintable P plan) (hrec : P.Recorded) {image : Bytes} {fuel i : ℕ}
    (hplain : PlainBelow P.tree plan fuel i) : Lies P image i (leaves P.tree plan fuel i) := by
  induction fuel generalizing i with
  | zero => exact lies_bytes
  | succ fuel ih =>
    rw [leaves]
    cases hext : plan.extracts i with
    | some e => exact lies_bytes
    | none =>
      obtain hsome | ⟨hcomp, hsegs⟩ := hplain
      · rw [hext] at hsome
        cases hsome
      · simp only [hcomp]
        cases hb : plan.builds i with
        | none =>
          simp only []
          split_ifs
          · exact lies_claimed
          · exact lies_bytes
        | some b => exact lies_segs h hrec hb (fun j => ih) (hsegs b hb)

end

/-! ### When the regions cover the image -/

theorem mapM_ok {α β : Type} {f : α → Except Fault β} {xs : List α} {ys : List β}
    (h : xs.mapM f = .ok ys) {x : α} (hx : x ∈ xs) : ∃ y, f x = .ok y := by
  induction xs generalizing ys with
  | nil => cases hx
  | cons a rest ih =>
    rw [List.mapM_cons] at h
    obtain ⟨y, hy, h⟩ := bind_eq_ok.mp h
    obtain ⟨tail, htail, -⟩ := bind_eq_ok.mp h
    cases List.mem_cons.mp hx with
    | inl hx => exact ⟨y, by rw [hx, hy]⟩
    | inr hx => exact ih htail hx

/-- A claimed leaf of a minted node has been hashed. -/
theorem claimed_hashed {T : Tree} {plan : Plan} {srcOf nodeOf : ℕ → Option ℕ} {fuel i j : ℕ}
    {json : Json} (h : nodeJson T plan srcOf nodeOf fuel i = .ok json)
    (hj : Leaf.claimed j ∈ leaves T plan fuel i) : ∃ d, (T.member j).digests = some d := by
  induction fuel generalizing i json with
  | zero => cases h
  | succ fuel ih =>
    rw [nodeJson] at h
    rw [leaves] at hj
    cases hext : plan.extracts i with
    | some e => simp [hext] at hj
    | none =>
      cases hcomp : plan.compress i with
      | some comp =>
        simp only [hext, hcomp] at h hj
        obtain ⟨child, hchild, -⟩ := bind_eq_ok.mp h
        exact ih hchild hj
      | none =>
        cases hb : plan.builds i with
        | none =>
          simp only [hext, hcomp, hb] at h hj
          split_ifs at hj
          · obtain ⟨d, hd, -⟩ := bind_eq_ok.mp h
            have hij : j = i := by simpa using hj
            exact ⟨d, hij ▸ expect_eq_ok.mp hd⟩
          · simp at hj
        | some b =>
          simp only [hext, hcomp, hb] at h hj
          obtain ⟨inputs, hinputs, -⟩ := bind_eq_ok.mp h
          obtain ⟨s, hs, hj⟩ := List.mem_flatMap.mp hj
          obtain ⟨one, hone⟩ := mapM_ok hinputs hs
          cases s with
          | child idx start len pos rootOff =>
            obtain ⟨inner, hinner, -⟩ := bind_eq_ok.mp hone
            rw [segLeaves] at hj
            split_ifs at hj
            · exact ih hinner hj
            · simp at hj
          | tabled idx start len pos rootOff =>
            rw [segLeaves] at hj
            split_ifs at hj <;> simp at hj
          | pcluster pc pos len rootOff =>
            obtain ⟨node, hnode, -⟩ := bind_eq_ok.mp hone
            rw [segLeaves, expect_eq_ok.mp hnode] at hj
            obtain ⟨input, -, hinput⟩ := List.mem_map.mp hj
            cases input with
            | member idx start len =>
              rw [inputLeaf] at hinput
              split_ifs at hinput
            | literal => cases hinput
          | gap => simp [segLeaves] at hj

theorem mem_claimedAt {T : Tree} {pos : ℕ} {ls : List Leaf} {p : ℕ × ℕ}
    (h : p ∈ claimedAt T pos ls) : Leaf.claimed p.2 ∈ ls := by
  induction ls generalizing pos with
  | nil => cases h
  | cons leaf rest ih =>
    cases leaf with
    | claimed i =>
      rw [claimedAt] at h
      cases List.mem_cons.mp h with
      | inl h =>
        rw [h]
        exact List.mem_cons_self
      | inr h => exact List.mem_cons_of_mem _ (ih h)
    | bytes len =>
      rw [claimedAt] at h
      · exact List.mem_cons_of_mem _ (ih h)
      · exact fun i h => nomatch h
    | source =>
      rw [claimedAt] at h
      · exact List.mem_cons_of_mem _ (ih h)
      · exact fun i h => nomatch h

theorem Planner.Recorded.length_le {P : Planner} (h : P.Recorded) (i : ℕ) :
    (P.nodeBytes i).length ≤ (P.tree.member i).size := by
  rw [nodeBytes]
  cases hground : P.tree.ground i with
  | none => simp
  | some g =>
    obtain ⟨space, runs⟩ := g
    show (viewBytes (P.spaceBytes space) runs).length ≤ _
    rw [length_viewBytes (Tree.runs_tile hground) (h.ground_inside hground), Nat.sub_zero]

/-- **When the projection covers the image.**  Flattening succeeds with regions that cover it exactly
when it meets no whole member of the sources table, the compressors it goes through take in as many bytes
as they put out, and each claimed file has its bytes where that shifts it to.  In a plain recipe, where
it goes through no compressor, that is so. -/
theorem projection_covers_iff (P : Planner) (plan : Plan) (srcOf nodeOf : ℕ → Option ℕ) (fuel root : ℕ)
    (json : Json) (hmint : Mintable P plan) (hrec : P.Recorded)
    (hemit : nodeJson P.tree plan srcOf nodeOf fuel root = .ok json) :
    ((∃ regions, flatten json [] = .ok regions ∧ Covers P root regions) ↔
      Leaf.source ∉ leaves P.tree plan fuel root ∧ drift P.tree plan fuel root = 0 ∧
        ∀ p ∈ claimedAt P.tree 0 (leaves P.tree plan fuel root),
          readFullAt (P.nodeBytes root) (P.tree.member p.2).size p.1 = P.nodeBytes p.2) ∧
    (PlainBelow P.tree plan fuel root →
      ∃ regions, flatten json [] = .ok regions ∧ Covers P root regions) := by
  have hflat := flatten_nodeJson hmint.typed hemit []
  have hiff : (∃ regions, flatten json [] = .ok regions ∧ Covers P root regions) ↔
      Leaf.source ∉ leaves P.tree plan fuel root ∧ drift P.tree plan fuel root = 0 ∧
        ∀ p ∈ claimedAt P.tree 0 (leaves P.tree plan fuel root),
          readFullAt (P.nodeBytes root) (P.tree.member p.2).size p.1 = P.nodeBytes p.2 := by
    rw [hflat]
    by_cases hsource : Leaf.source ∈ leaves P.tree plan fuel root
    · obtain ⟨e, he⟩ := pushLeaves_source (T := P.tree) hsource []
      simp [he, hsource]
    · obtain ⟨regions, hrun, htotal, hparts⟩ := pushLeaves (T := P.tree) hsource []
      have htotal : totalLen regions = leafTotal P.tree (leaves P.tree plan fuel root) := by
        rw [htotal]
        exact Nat.zero_add _
      have hparts : partsAt regions = (claimedAt P.tree 0 (leaves P.tree plan fuel root)).map
          fun p => (p.1, claimedRegion P.tree p.2) := hparts
      have hdrift := leafTotal_leaves hmint.tiles hsource
      constructor
      · rintro ⟨_, heq, hcovers⟩
        rw [hrun] at heq
        cases heq
        have hsize := hcovers.total
        refine ⟨hsource, by omega, fun p hp => ?_⟩
        obtain ⟨d, hd⟩ := claimed_hashed hemit (mem_claimedAt hp)
        have hmem : (p.1, claimedRegion P.tree p.2) ∈ partsAt regions := by
          rw [hparts]
          exact List.mem_map_of_mem (f := fun p => (p.1, claimedRegion P.tree p.2)) hp
        obtain ⟨j, d', hd', hsha, -, hread⟩ := hcovers.stands _ _ _ _ (mem_partsAt.mp hmem)
        have hshaOf : (shaOf P.tree p.2).1 = d.sha256 := by
          simp [shaOf, hd, hmint.typed.sha256 p.2 d hd]
        rw [hread]
        exact hrec.same j p.2 d' d hd' hd (hsha.trans hshaOf)
      · rintro ⟨-, hzero, hstands⟩
        refine ⟨regions, hrun, by omega, fun pos len sha256 urls hmem => ?_⟩
        have hmem := mem_partsAt.mpr hmem
        rw [hparts] at hmem
        obtain ⟨p, hp, heq⟩ := List.mem_map.mp hmem
        obtain ⟨d, hd⟩ := claimed_hashed hemit (mem_claimedAt hp)
        cases heq
        exact ⟨p.2, d, hd, by simp [shaOf, hd, hmint.typed.sha256 p.2 d hd], rfl, hstands p hp⟩
  refine ⟨hiff, fun hplain => hiff.mpr ?_⟩
  have hlies : Lies P (P.nodeBytes root) root (leaves P.tree plan fuel root) :=
    lies_of_plain hmint hrec hplain
  have hdrift := leafTotal_leaves hmint.tiles hlies.noSource
  have htotal := hlies.total
  refine ⟨hlies.noSource, by omega, hlies.stands 0 ?_⟩
  rw [readFullAt, List.drop_zero, List.take_of_length_le (hrec.length_le root)]

/-! ### A compressed image -/

/-- The file inside. -/
def plainText : Bytes :=
  [104, 97, 115, 104, 100, 101, 120, 32, 114, 101, 99, 105, 112, 101, 115, 32, 104, 97, 115,
   104, 100, 101, 120, 32, 114, 101, 99, 105, 112, 101, 115, 32, 104, 97, 115, 104, 100, 101,
   120, 32, 114, 101, 99, 105, 112, 101, 115, 32, 104, 97, 115, 104, 100, 101, 120, 32, 114,
   101, 99, 105, 112, 101, 115, 32, 104, 97, 115, 104, 100, 101, 120, 32, 114, 101, 99, 105,
   112, 101, 115, 32, 48, 49, 50, 51, 52, 53, 54, 55, 56, 57]

/-- What `gzip -9n` makes of it. -/
def gzipped : Bytes :=
  [31, 139, 8, 0, 0, 0, 0, 0, 2, 3, 203, 72, 44, 206, 72, 73, 173, 80, 40, 74, 77, 206, 44, 72,
   45, 86, 200, 160, 144, 111, 96, 104, 100, 108, 98, 106, 102, 110, 97, 9, 0, 242, 125, 175,
   251, 90, 0, 0, 0]

def hashOf (sha1 sha256 : Bytes) : Digests := ⟨none, sha1, sha256, none, none, none⟩

def textDigests : Digests :=
  hashOf [118, 249, 8, 2, 72, 73, 164, 197, 244, 247, 1, 244, 180, 125, 167, 240, 239, 18, 240,
          110]
    [121, 231, 245, 105, 21, 244, 242, 111, 58, 246, 61, 99, 228, 205, 22, 169, 119, 21, 227,
     47, 181, 170, 156, 39, 26, 161, 13, 58, 220, 117, 193, 152]

def gzipDigests : Digests :=
  hashOf [254, 187, 50, 88, 195, 237, 152, 118, 116, 39, 229, 88, 244, 230, 30, 49, 170, 140,
          24, 249]
    [224, 239, 56, 52, 192, 202, 193, 178, 158, 84, 116, 104, 44, 249, 190, 126, 188, 209, 77,
     163, 185, 89, 107, 137, 158, 63, 239, 47, 77, 86, 40, 170]

/-- A mirror has the file inside. -/
def mirrored : Finding :=
  ⟨"mirror", [⟨"shipped", some "https://deb/pool/recipes"⟩], [], none⟩

/-- The table of `recipes.gz`. -/
def gzipTree : Tree where
  members := [
    { path := "recipes.gz", depth := 0, parent := none, ord := 0, kind := "gzip", size := 49,
      digests := some gzipDigests, extents := some ⟨0, [⟨0, 0, 49⟩], by decide, by decide⟩,
      space := none, size_lt := by decide },
    { path := "recipes.gz!recipes", depth := 1, parent := some 0, ord := 0, kind := "", size := 90,
      digests := some textDigests, extents := none, space := some 1, size_lt := by decide } ]
  evidence := [[], [mirrored]]
  deeper i p h := by
    match i with
    | 0 => cases h
    | 1 =>
      cases h
      exact Nat.zero_lt_one
    | _ + 2 => cases h

def gzipPlanner : Planner where
  tree := gzipTree
  spaces
    | 0 => some gzipped
    | 1 => some plainText
    | _ => none
  codecs := { Codecs.idle with gzipBody := fun _ _ => .ok (gzipped.drop 10) }
  image _ := .error "not opened"

/-- The whole file is one compressor run over the mirrored one. -/
def gzipPlan : Plan :=
  { Plan.empty 0 with
    compress := (Plan.empty 0).compress.insert 0 ⟨1, .gzip ⟨9, false⟩ (gzipped.take 10)⟩ }

theorem gzipPlan_run :
    Evaluates gzipPlanner.run (.node 0, Plan.empty 0) (.ok (true, gzipPlan)) :=
  ⟨2, rfl⟩

theorem gzip_member {i : ℕ} (h : 2 ≤ i) : gzipTree.member i = default := by
  rw [Tree.member, List.getD_eq_default]
  exact h

theorem gzip_mintable : Mintable gzipPlanner gzipPlan where
  typed :=
    { segs := fun i b hb => by cases hb
      inputs := fun node hnode => by cases hnode
      sha256 := fun i d hd => by
        match i with
        | 0 =>
          cases hd
          rfl
        | 1 =>
          cases hd
          rfl
        | i + 2 =>
          have hd : (gzipTree.member (i + 2)).digests = some d := hd
          rw [gzip_member (by omega)] at hd
          cases hd }
  builds i b hb := by cases hb

theorem gzip_recorded : gzipPlanner.Recorded where
  inside i e he r hr := by
    match i with
    | 0 =>
      cases he
      rw [List.mem_singleton.mp hr]
      show 0 + 49 ≤ gzipped.length
      decide
    | 1 => cases he
    | i + 2 =>
      have hnone : ∀ m : Member, m = default → m.extents = none := by
        rintro m rfl
        rfl
      have hi : (gzipTree.member (i + 2)).extents = none := hnone _ (gzip_member (by omega))
      have he : (gzipTree.member (i + 2)).extents = some e := he
      rw [hi] at he
      cases he
  spool i v hv := by
    match i with
    | 0 => cases hv
    | 1 =>
      cases hv
      rfl
    | i + 2 =>
      have hv : (gzipTree.member (i + 2)).space = some v := hv
      rw [gzip_member (by omega)] at hv
      cases hv
  spooled i v e hv he := by
    match i with
    | 0 => cases hv
    | 1 => cases he
    | i + 2 =>
      have hv : (gzipTree.member (i + 2)).space = some v := hv
      rw [gzip_member (by omega)] at hv
      cases hv
  same i j d d' hd hd' heq := by
    match i, j with
    | 0, 0 => rfl
    | 1, 1 => rfl
    | 0, 1 =>
      cases hd
      cases hd'
      exact absurd heq (by decide)
    | 1, 0 =>
      cases hd
      cases hd'
      exact absurd heq (by decide)
    | i + 2, _ =>
      have hd : (gzipTree.member (i + 2)).digests = some d := hd
      rw [gzip_member (by omega)] at hd
      cases hd
    | _, j + 2 =>
      have hd' : (gzipTree.member (j + 2)).digests = some d' := hd'
      rw [gzip_member (by omega)] at hd'
      cases hd'

theorem gzip_emitted : ∃ json, nodeJson gzipTree gzipPlan (fun _ => none) (fun _ => none) 2 0 = .ok json :=
  ⟨_, rfl⟩

theorem gzip_leaves : leaves gzipTree gzipPlan 2 0 = [.claimed 1] := rfl

/-- The part of 90 bytes does not cover the 49 of the image. -/
theorem projection_covers_iff_gzip :
    ∃ json, nodeJson gzipTree gzipPlan (fun _ => none) (fun _ => none) 2 0 = .ok json ∧
      ¬ ∃ regions, flatten json [] = .ok regions ∧ Covers gzipPlanner 0 regions := by
  obtain ⟨json, hjson⟩ := gzip_emitted
  have hiff := (projection_covers_iff gzipPlanner gzipPlan (fun _ => none) (fun _ => none) 2 0 json
    gzip_mintable gzip_recorded hjson).1
  have hdrift : drift gzipTree gzipPlan 2 0 = 41 := rfl
  refine ⟨json, hjson, fun h => ?_⟩
  have hzero : drift gzipTree gzipPlan 2 0 = 0 := (hiff.mp h).2.1
  rw [hdrift] at hzero
  cases hzero

/-- `recipes.gz`, whose content a mirror has: the projection is longer than the image. -/
theorem projection_of_gzip :
    ¬ ∀ (P : Planner) (plan : Plan) (srcOf nodeOf : ℕ → Option ℕ) (fuel : ℕ) (json : Json),
      Evaluates P.run (.node plan.root, Plan.empty plan.root) (.ok (true, plan)) →
        Mintable P plan → P.Recorded →
        nodeJson P.tree plan srcOf nodeOf fuel plan.root = .ok json →
        (∃ j, Leaf.claimed j ∈ leaves P.tree plan fuel plan.root) →
        ∃ regions, flatten json [] = .ok regions ∧ Covers P plan.root regions := by
  intro h
  obtain ⟨json, hjson⟩ := gzip_emitted
  obtain ⟨regions, hflat, hcovers⟩ := h gzipPlanner gzipPlan _ _ 2 json gzipPlan_run gzip_mintable
    gzip_recorded hjson ⟨1, List.mem_singleton.mpr rfl⟩
  have hpush := flatten_nodeJson gzip_mintable.typed hjson []
  have hone : flatten json [] = .ok [claimedRegion gzipTree 1] := hpush
  rw [hone] at hflat
  cases hflat
  exact absurd hcovers.total (by decide)

end Hashdex
