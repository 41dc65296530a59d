import Hashdex.Recipe.Plan
import Hashdex.Recipe.Check

/-!
# The nodes of a recipe

`nodeJson` writes a member's part of a plan as the JSON node that a recipe carries for it.  The verify
pass has by then put the bytes of the gaps somewhere, so each gap states its bytes or their place in the
residue.

The recursion of the code has no bound of its own; it runs with fuel here.
-/

namespace Hashdex

namespace Json

/-- `json!(n)` of a `u64`. -/
def ofNat (n : ℕ) : Json := ofU64 (UInt64.ofNat n)

/-- `json!(n)` of a signed number. -/
def ofInt (n : Int) : Json := if 0 ≤ n then ofNat n.toNat else num (.negInt n)

/-- `json!(s)` of an optional text. -/
def ofOption : Option String → Json
  | some s => str s
  | none => null

@[simp] theorem asU64_ofNat (n : ℕ) : (ofNat n).asU64 = some (UInt64.ofNat n) := rfl

end Json

theorem toNat_ofNat_of_lt {n : ℕ} (h : n < 2 ^ 64) : (UInt64.ofNat n).toNat = n := by
  rw [UInt64.toNat_ofNat', Nat.mod_eq_of_lt h]

theorem lookup_cons (key key' : String) (v : Json) (rest : List (String × Json)) :
    ((key', v) :: rest).lookup key = if key = key' then some v else rest.lookup key := by
  rw [List.lookup_cons]
  by_cases h : key = key'
  · simp [h]
  · have hne : (key == key') = false := by
      rw [beq_eq_false_iff_ne]
      exact h
    rw [if_neg h, hne]

@[simp] theorem asStr_str (text : String) : (Json.str text).asStr = some text := rfl

@[simp] theorem asArray_null : Json.null.asArray = none := rfl

@[simp] theorem asArray_arr (items : List Json) : (Json.arr items).asArray = some items := rfl

open Json

def hexJson (bytes : Bytes) : Json := str (String.ofList (hexLower bytes))

/-- `leaf_name`: what follows the last `!`. -/
def leafName (m : Member) : String :=
  String.ofList (m.path.toList.reverse.takeWhile (· ≠ '!')).reverse

/-- One claim: who attests what, and where. -/
def claimJson (attestor statement : String) (url : Option String) : Json :=
  obj [("attestor", str attestor), ("statement", str statement), ("url", ofOption url)]

/-- The claims of one finding that offer a URL not seen before. -/
def offersOf (backend : String) : List Claim → List (String × String) →
    List Json × List (String × String)
  | [], seen => ([], seen)
  | claim :: rest, seen =>
    match claim.url with
    | none => offersOf backend rest seen
    | some url =>
      if (backend, url) ∈ seen then offersOf backend rest seen
      else
        let (out, seen) := offersOf backend rest ((backend, url) :: seen)
        (claimJson backend claim.statement (some url) :: out, seen)

def claimsLoop : List Finding → List (String × String) → List Json
  | [], _ => []
  | f :: rest, seen =>
    if f.archive.isSome then claimsLoop rest seen
    else
      let (out, seen) := offersOf f.backend f.claims seen
      out ++ claimsLoop rest seen

/-- `claims_json`: the claims of these very bytes, one for each backend and URL. -/
def claimsJson (findings : List Finding) : List Json := claimsLoop findings []

/-- A field that is stated when the digest is known. -/
def optDigest (key : String) : Option Bytes → List (String × Json)
  | some d => [(key, hexJson d)]
  | none => []

def digestsJson (d : Digests) : Json :=
  obj (("sha1", hexJson d.sha1) :: ("sha256", hexJson d.sha256) :: (optDigest "md5" d.md5 ++
    optDigest "sha512" d.sha512 ++ optDigest "blake2s256" d.blake2s ++ optDigest "sha1_git" d.sha1Git))

/-- `expect`: the value, or a panic. -/
def expect {α : Type} : Option α → Except Fault α
  | some a => .ok a
  | none => .error .panic

theorem expect_eq_ok {α : Type} {x : Option α} {a : α} : expect x = .ok a ↔ x = some a := by
  cases x <;> simp [expect]

def refJson (m : Member) (claims : List Json) : Except Fault Json := do
  let digests ← expect m.digests
  let fields := [("digests", digestsJson digests), ("size", ofNat m.size), ("name", str (leafName m))]
  pure (obj [("ref", obj (if claims = [] then fields else fields ++ [("claims", arr claims)]))])

/-- A literal: its bytes, or where the residue has them. -/
def literalJson (len : ℕ) (residueOff : Option ℕ) (inline : Option Bytes) : Except Fault Json :=
  match inline with
  | some bytes => pure (obj [("literal", obj [("inline_hex", hexJson bytes), ("len", ofNat len)])])
  | none => do
    let off ← expect residueOff
    pure (obj [("literal", obj [("residue_offset", ofNat off), ("len", ofNat len)])])

/-- A member of the sources table, or a slice of it. -/
def sourceJson (source start len size : ℕ) : Json :=
  if start = 0 ∧ len = size then obj [("source", ofNat source)]
  else obj [("slice", obj [("source", ofNat source), ("from", ofNat start), ("len", ofNat len)])]

/-- An output: digest and size. -/
def outputJson (sha256 : Bytes) (size : ℕ) : Json :=
  obj [("sha256", hexJson sha256), ("size", ofNat size)]

section

variable (T : Tree) (plan : Plan) (srcOf nodeOf : ℕ → Option ℕ)

def pcInputJson : PcInput → Except Fault Json
  | .member idx start len => do
    let source ← expect (nodeOf idx)
    pure (sourceJson source start len (T.member idx).size)
  | .literal _ len residueOff inline => literalJson len residueOff inline

/-- `pcluster_json`. -/
def pclusterJson (node : PClusterNode) : Except Fault Json := do
  let inputs ← node.inputs.mapM (pcInputJson T nodeOf)
  let params := [("preset", ofNat (node.preset &&& ~~~lzmaPresetExtreme).toNat),
    ("dict_size", ofNat node.dictSize.toNat), ("pad", ofNat node.pad)]
  let extreme := if node.preset &&& lzmaPresetExtreme = 0 then [] else [("extreme", bool true)]
  pure (obj [("build", obj [("builder", str "microlzma@0"), ("name", str node.name),
    ("params", obj (params ++ extreme)), ("output", outputJson node.sha256 node.size),
    ("inputs", arr inputs)])])

def extractJson (i : ℕ) (e : Extract) : Except Fault Json := do
  let source ← expect (srcOf i)
  let digests ← expect (T.member i).digests
  pure (obj [("extract", obj [("name", str (leafName (T.member i))),
    ("archive", obj [("source", ofNat source)]), ("path", str e.archive.path),
    ("output", outputJson digests.sha256 (T.member i).size),
    ("claims", arr [claimJson e.attestor e.statement e.archive.url])])])

/-- The builder of a compression node and its parameters. -/
def compParams : Comp → String × Json
  | .gzip params header =>
    ("gzip@0", obj [("compressor", str params.name), ("header_hex", hexJson header)])
  | .zstd params =>
    ("zstd@0", obj (("level", ofInt params.level) ::
      ((if params.singleThread then [("single_thread", bool true)] else []) ++
        (if params.checksum then [] else [("checksum", bool false)]) ++
        (if params.contentSize then [("content_size", bool true)] else []))))

def compressJson (i : ℕ) (how : Comp) (child : Json) : Except Fault Json := do
  let digests ← expect (T.member i).digests
  pure (obj [("build", obj [("builder", str (compParams how).1), ("name", str (leafName (T.member i))),
    ("params", (compParams how).2), ("output", outputJson digests.sha256 (T.member i).size),
    ("inputs", arr [child])])])

/-- One input of a splice; `node` writes the nodes of members. -/
def segJson (node : ℕ → Except Fault Json) : Seg → Except Fault Json
  | .child idx start len _ _ => do
    let child ← node idx
    pure (if start = 0 ∧ len = (T.member idx).size then child
      else obj [("slice", obj [("of", child), ("from", ofNat start), ("len", ofNat len)])])
  | .tabled idx start len _ _ => do
    let source ← expect (nodeOf idx)
    pure (sourceJson source start len (T.member idx).size)
  | .pcluster pc _ _ _ => do
    let node ← expect plan.pclusters[pc]?
    pclusterJson T nodeOf node
  | .gap _ len residueOff inline => literalJson len residueOff inline

def spliceJson (i : ℕ) (dropped : ℕ) (inputs : List Json) : Except Fault Json := do
  let digests ← expect (T.member i).digests
  let plural := if dropped = 1 then "" else "s"
  let note := if 0 < dropped then [("note", str
    s!"{dropped} member{plural} share extents with an accepted sibling and are covered by it")] else []
  pure (obj [("build", obj ([("builder", str "splice@0"), ("name", str (leafName (T.member i))),
    ("output", outputJson digests.sha256 (T.member i).size), ("inputs", arr inputs)] ++ note))])

/-- `node_json`. -/
def nodeJson : ℕ → ℕ → Except Fault Json
  | 0, _ => .error .panic
  | fuel + 1, i =>
    match plan.extracts i with
    | some e => extractJson T srcOf i e
    | none =>
      match plan.compress i with
      | some comp => do
        let child ← nodeJson fuel comp.child
        compressJson T i comp.how child
      | none =>
        match plan.builds i with
        | none => refJson (T.member i) (claimsJson (T.findings i))
        | some b => do
          let inputs ← b.segs.mapM (segJson T plan nodeOf (nodeJson fuel))
          spliceJson T i b.dropped inputs

end

end Hashdex
