import Hashdex.Compressors
import Hashdex.Lib.RecState
import Hashdex.Recipe.Json
import Hashdex.Recipe.Spool

/-!
# Checking a recipe

`collectMissing` walks a document for the blobs it lacks, `assemble` rebuilds a node's bytes and
`check` is the command over both.  All three recurse over a graph of JSON nodes rather than a tree,
so their bodies are written in `RecM` and run with fuel; what reaches the sink is returned as the
bytes fed together with the count the code reports.

The hash, the encoders and the archive reader are arguments (`Codecs`).
-/

namespace Hashdex

open RecProg RecProg.RecM

/-- What a check calls out to. -/
structure Codecs where
  sha256 : Bytes → Bytes
  /-- The body after the fixed header.  A rebuild's sink accepts every chunk, so a run that
  succeeds is complete. -/
  gzipBody : GnuGzip → Bytes → Except String Bytes
  zstdBody : Zstd → ℕ → Bytes → Except String Bytes
  zstdVersion : String
  /-- Input, output size, preset and dictionary size. -/
  microlzmaEncode : Bytes → ℕ → UInt32 → UInt32 → Except String Bytes
  archiveExtract : Bytes → String → Except String Bytes

/-- The lower-case hex a document spells a digest in. -/
def Codecs.sha256Hex (c : Codecs) (bytes : Bytes) : String :=
  String.ofList (hexLower (c.sha256 bytes))

/-- A local file, indexed under the sha256 it had when it was indexed. -/
structure Blob where
  path : String
  bytes : Bytes

structure CheckCtx where
  codecs : Codecs
  blobs : String → Option Blob
  /-- The document's top-level sources table. -/
  sources : List Json
  residue : Option Spool

def checkSpoolMax : ℕ := 64 * 2 ^ 20

def pclusterMaxSize : ℕ := 2 ^ 20

def pclusterMaxDsize : ℕ := 12 * 2 ^ 20

def encodeMargin : ℕ := 2 ^ 20

def lzmaPresetExtreme : UInt32 := 2147483648

/-- `context`: the value, or an error with this text. -/
def need {α : Type} (x : Option α) (message : String) : Except Fault α :=
  match x with
  | some a => .ok a
  | none => .error (.error message)

/-- `ensure!`. -/
def ensure (p : Prop) [Decidable p] (message : String) : Except Fault Unit :=
  if p then .ok () else .error (.error message)

/-! ### Faults -/

theorem bind_eq_ok {α β : Type} {x : Except Fault α} {f : α → Except Fault β} {b : β} :
    (x >>= f) = .ok b ↔ ∃ a, x = .ok a ∧ f a = .ok b := by
  cases x with
  | error e => exact ⟨fun h => (nomatch h), fun ⟨a, h, _⟩ => (nomatch h)⟩
  | ok a => exact ⟨fun h => ⟨a, rfl, h⟩, fun ⟨_, h, hb⟩ => Except.ok.inj h ▸ hb⟩

theorem bind_eq_error {α β : Type} {x : Except Fault α} {f : α → Except Fault β} {e : Fault} :
    (x >>= f) = .error e ↔ x = .error e ∨ ∃ a, x = .ok a ∧ f a = .error e := by
  cases x with
  | error e' => simp [bind, Except.bind]
  | ok a => simp [bind, Except.bind]

theorem need_eq_ok {α : Type} {x : Option α} {message : String} {a : α} :
    need x message = .ok a ↔ x = some a := by
  cases x <;> simp [need]

theorem need_ne_panic {α : Type} {x : Option α} {message : String} :
    need x message ≠ .error .panic := by
  cases x <;> simp [need]

theorem ensure_eq_ok {p : Prop} [Decidable p] {message : String} {u : Unit} :
    ensure p message = .ok u ↔ p := by
  by_cases h : p <;> simp [ensure, h]

theorem ensure_ne_panic {p : Prop} [Decidable p] {message : String} :
    ensure p message ≠ .error .panic := by
  by_cases h : p <;> simp [ensure, h]

/-! ### Nodes -/

def resolveLoop (sources : List Json) : ℕ → Json → Except Fault Json
  | 0, _ => .error (.error "source indirection loop in recipe")
  | k + 1, node =>
    match node["source"].asU64 with
    | none => .ok node
    | some i =>
      match sources[i.toNat]? with
      | none => .error (.error s!"source index {i} out of range")
      | some node' => resolveLoop sources k node'

/-- Follow `{"source": i}` indirections into the sources table. -/
def resolveSource (sources : List Json) (node : Json) : Except Fault Json :=
  resolveLoop sources (sources.length + 1) node

/-- The node a slice addresses: an inline one, or an entry of the sources table. -/
def sliceNode (sources : List Json) (sl : Json) : Except Fault Json :=
  if sl["of"].isObject then .ok sl["of"] else resolveSource sources sl

def nodeSha256 (node : Json) : Except Fault String :=
  if node["ref"].isObject then
    need node["ref"]["digests"]["sha256"].asStr "ref without sha256"
  else if node["build"].isObject then
    need node["build"]["output"]["sha256"].asStr "build without output sha256"
  else if node["extract"].isObject then
    need node["extract"]["output"]["sha256"].asStr "extract without output sha256"
  else .error (.error "node is neither ref, build, nor extract")

def nodeName (node : Json) : String :=
  ((node["ref"]["name"].asStr.or node["build"]["name"].asStr).or
    node["extract"]["name"].asStr).getD "?"

/-! ### Availability -/

structure Missing where
  name : String
  sha : String
  urls : List String
  deriving DecidableEq

/-- Is there a blob for the digest, when the field states one? -/
def hasBlob (blobs : String → Option Blob) (sha : Json) : Bool :=
  match sha.asStr with
  | some s => (blobs s).isSome
  | none => false

def noteMissing (blobs : String → Option Blob) (r : Json) (missing : List Missing) :
    List Missing :=
  let sha := r["digests"]["sha256"].asStr.getD ""
  if (blobs sha).isSome then missing
  else
    let urls := (r["claims"].asArray.getD []).filterMap fun claim => claim["url"].asStr
    if missing.any fun m => m.sha = sha then missing
    else missing ++ [⟨r["name"].asStr.getD "?", sha, urls⟩]

abbrev Collect := RecM Json (List Missing) Fault Unit

/-- What an input of a build is collected through: a slice's node, else itself. -/
def inputNode (sources : List Json) (input : Json) : Except Fault Json :=
  if input["slice"].isObject then sliceNode sources input["slice"] else .ok input

def collectInputs (sources : List Json) : List Json → Collect Unit
  | [] => pure ()
  | input :: rest => do
    let inner ← lift (inputNode sources input)
    if inner["literal"].isObject then collectInputs sources rest
    else do
      recur inner
      collectInputs sources rest

/-- One call of `collect_missing`. -/
def collectBody (sources : List Json) (blobs : String → Option Blob) (node : Json) :
    Collect Unit := do
  let node ← lift (resolveSource sources node)
  if node["ref"].isObject then do
    let missing ← getState
    putState (noteMissing blobs node["ref"] missing)
  else if node["extract"].isObject then
    let e := node["extract"]
    if hasBlob blobs e["output"]["sha256"] then pure () else recur e["archive"]
  else if node["build"].isObject then
    let b := node["build"]
    if hasBlob blobs b["output"]["sha256"] then pure ()
    else collectInputs sources (b["inputs"].asArray.getD [])
  else pure ()

/-- `collect_missing`, as calls on a node with what is missing so far. -/
def collectMissing (sources : List Json) (blobs : String → Option Blob) :
    Json × List Missing →
      Prog (Json × List Missing) (Except Fault (Unit × List Missing))
        (Except Fault (Unit × List Missing)) :=
  procedure (collectBody sources blobs)

/-! ### Assembly -/

/-- What a call of `assemble` did: the bytes it fed, and the count it returned. -/
structure Fed where
  bytes : Bytes
  n : UInt64

def Fed.of (bytes : Bytes) : Fed := ⟨bytes, UInt64.ofNat bytes.length⟩

/-- Builds materialized for slicing, by output sha256. -/
abbrev Built := List (String × Spool)

abbrev Asm := RecM Json Built Fault Fed

def assembleLiteral (ctx : CheckCtx) (l : Json) : Except Fault Fed :=
  match l["inline_hex"].asStr with
  | some hexs => do
    let bytes ← need (decodeHexLower hexs.toList) "bad inline_hex literal"
    return Fed.of bytes
  | none => do
    let off ← need l["residue_offset"].asU64 "literal offset"
    let len ← need l["len"].asU64 "literal len"
    let res ← need ctx.residue "recipe has literals but no residue"
    let bytes ← res.readRange off len
    return ⟨bytes, len⟩

/-- Stream a local blob, and hold it to the digest it is wanted for. -/
def assembleBlob (ctx : CheckCtx) (sha name : String) : Except Fault Fed := do
  let blob ← need (ctx.blobs sha) s!"missing blob for {name}"
  let got := ctx.codecs.sha256Hex blob.bytes
  let path := blob.path
  ensure (got = sha) s!"{path}: changed since indexing (sha256 {got})"
  return Fed.of blob.bytes

/-- Materialize a node's bytes for random access. -/
def materialize (ctx : CheckCtx) (node : Json) : Asm Spool := do
  let node ← lift (resolveSource ctx.sources node)
  let size := ((node["build"]["output"]["size"].asU64.or node["ref"]["size"].asU64).or
    node["extract"]["output"]["size"].asU64).getD 0
  let fed ← recur node
  if checkSpoolMax < size.toNat then pure (.file fed.bytes) else pure (.mem fed.bytes)

/-- The built bytes of a node, materialized at their first use. -/
def builtSpool (ctx : CheckCtx) (node : Json) (sha : String) : Asm Spool := do
  let built ← getState
  match built.lookup sha with
  | some spool => pure spool
  | none => do
    let spool ← materialize ctx node
    let built ← getState
    putState ((sha, spool) :: built)
    pure spool

def assembleSlice (ctx : CheckCtx) (sl : Json) : Asm Fed := do
  let node ← lift (sliceNode ctx.sources sl)
  let start ← lift (need sl["from"].asU64 "slice from")
  let len ← lift (need sl["len"].asU64 "slice len")
  let sha ← lift (nodeSha256 node)
  match ctx.blobs sha with
  | some blob => do
    let bytes ← lift ((Spool.file blob.bytes).readRange start len)
    pure ⟨bytes, len⟩
  | none => do
    let spool ← builtSpool ctx node sha
    let bytes ← lift (spool.readRange start len)
    pure ⟨bytes, len⟩

def assembleExtract (ctx : CheckCtx) (node : Json) : Except Fault Fed := do
  let e := node["extract"]
  let name := nodeName node
  let want ← need e["output"]["sha256"].asStr "extract sha256"
  let size ← need e["output"]["size"].asU64 "extract size"
  if (ctx.blobs want).isSome then assembleBlob ctx want (e["name"].asStr.getD "?")
  else do
    let archive ← resolveSource ctx.sources e["archive"]
    let asha ← nodeSha256 archive
    let ablob ← need (ctx.blobs asha) s!"missing archive blob for {name}"
    let path ← need e["path"].asStr "extract path"
    let archiveName := nodeName archive
    match ctx.codecs.archiveExtract ablob.bytes path with
    | .error _ => .error (.error s!"{name}: extracting {path} from {archiveName}")
    | .ok bytes => do
      let got := ctx.codecs.sha256Hex bytes
      let n := UInt64.ofNat bytes.length
      ensure (got = want)
        (s!"{name}: extracted bytes hash to {got}, recipe says {want} — stale attestation, " ++
          "or a different build of the archive?")
      ensure (n = size) s!"{name}: extracted {n} bytes, recipe says {size}"
      return ⟨bytes, n⟩

/-- The digest check every build ends in, and the size check when a size is stated. -/
def checkOutput (ctx : CheckCtx) (b : Json) (sha : String) (mismatch : String → String)
    (name : String) (fed : Fed) : Except Fault Fed := do
  let got := ctx.codecs.sha256Hex fed.bytes
  ensure (got = sha) (mismatch got)
  match b["output"]["size"].asU64 with
  | some size => do
    let n := fed.n
    ensure (n = size) s!"{name}: rebuilt {n} bytes, recipe says {size}"
    return fed
  | none => return fed

/-- Assemble the inputs of a splice in order. -/
def assembleInputs : List Json → Asm Fed
  | [] => pure ⟨[], 0⟩
  | input :: rest => do
    let a ← recur input
    let b ← assembleInputs rest
    pure ⟨a.bytes ++ b.bytes, a.n + b.n⟩

def assembleSplice (ctx : CheckCtx) (node b : Json) (sha : String) : Asm Fed := do
  let inputs ← lift (need b["inputs"].asArray "build inputs")
  let fed ← assembleInputs inputs
  let name := nodeName node
  lift (checkOutput ctx b sha
    (fun got => s!"{name}: rebuilt bytes hash to {got}, recipe says {sha}") name fed)

/-- The one input a compressor node has, materialized. -/
def onlyInput (ctx : CheckCtx) (b : Json) (builder : String) : Asm Spool := do
  let inputs ← lift (need b["inputs"].asArray "build inputs")
  match inputs with
  | [input] => materialize ctx input
  | _ => fail (.error s!"{builder} takes exactly one input")

def assembleGzip (ctx : CheckCtx) (b : Json) (sha : String) : Asm Fed := do
  let name := b["name"].asStr.getD "?"
  let cname ← lift (need b["params"]["compressor"].asStr "gzip@0 compressor name")
  let quoted := cname.quote
  let params ← lift (need (GnuGzip.parse cname)
    s!"unknown compressor {quoted} — this recipe needs a newer hdx")
  let hexs ← lift (need b["params"]["header_hex"].asStr "gzip@0 header_hex")
  let header ← lift (need (decodeHexLower hexs.toList) "bad gzip@0 header_hex")
  let spool ← onlyInput ctx b "gzip@0"
  match ctx.codecs.gzipBody params spool.content with
  | .error _ => fail (.error s!"{name}: running {cname}")
  | .ok body =>
    lift (checkOutput ctx b sha
      (fun got => s!"{name}: recompression hashes to {got}, recipe says {sha} — is the system " ++
        "gzip the same GNU gzip that minted this?") name (Fed.of (header ++ body)))

def assembleZstd (ctx : CheckCtx) (b : Json) (sha : String) : Asm Fed := do
  let name := b["name"].asStr.getD "?"
  let p := b["params"]
  let level ← lift (need p["level"].asI64 "zstd@0 level")
  let params : Zstd :=
    { level := Int.bmod level (2 ^ 32)
      singleThread := p["single_thread"].isBool true
      checksum := !p["checksum"].isBool false
      contentSize := p["content_size"].isBool true }
  let spool ← onlyInput ctx b "zstd@0"
  let zname := params.name
  let version := ctx.codecs.zstdVersion
  match ctx.codecs.zstdBody params spool.len spool.content with
  | .error _ => fail (.error s!"{name}: running {zname}")
  | .ok body =>
    lift (checkOutput ctx b sha
      (fun got => s!"{name}: recompression hashes to {got}, recipe says {sha} — is this the " ++
        "same libzstd that minted it (this hdx links " ++ version ++ ")?") name (Fed.of body))

/-- Concatenate the inputs of a pcluster, bounded by the format's span. -/
def assembleSpan (name : String) : List Json → Bytes → Asm Bytes
  | [], input => pure input
  | i :: rest, input => do
    let fed ← recur i
    let input := input ++ fed.bytes
    lift (ensure (input.length ≤ pclusterMaxDsize + encodeMargin)
      s!"{name}: pcluster inputs exceed the format's maximum span")
    assembleSpan name rest input

/-- `Vec::resize` with zeros. -/
def resize (bytes : Bytes) (size : ℕ) : Bytes :=
  bytes.take size ++ List.replicate (size - bytes.length) 0

def assembleMicrolzma (ctx : CheckCtx) (b : Json) (sha : String) : Asm Fed := do
  let name := b["name"].asStr.getD "?"
  let p := b["params"]
  let presetNum ← lift (need p["preset"].asU64 "microlzma@0 preset")
  let preset := presetNum.toUInt32 ||| if p["extreme"].isBool true then lzmaPresetExtreme else 0
  let dictSize ← lift (need p["dict_size"].asU64 "microlzma@0 dict_size")
  let pad := p["pad"].asU64.getD 0
  let size ← lift (need b["output"]["size"].asU64 "microlzma@0 output size")
  lift (ensure (pad.toNat < size.toNat ∧ size.toNat ≤ pclusterMaxSize)
    s!"{name}: implausible pcluster ({size} bytes, {pad} padding)")
  let inputs ← lift (need b["inputs"].asArray "build inputs")
  let input ← assembleSpan name inputs []
  match ctx.codecs.microlzmaEncode input (size.toNat - pad.toNat) preset dictSize.toUInt32 with
  | .error _ => fail (.error s!"{name}: re-encoding")
  | .ok out => do
    let bytes := resize (List.replicate pad.toNat 0 ++ out) size.toNat
    let got := ctx.codecs.sha256Hex bytes
    lift (ensure (got = sha)
      (s!"{name}: re-encoded pcluster hashes to {got}, recipe says {sha} — is this the same " ++
        "liblzma that minted it?"))
    pure ⟨bytes, size⟩

def assembleBuild (ctx : CheckCtx) (node : Json) : Asm Fed := do
  let b := node["build"]
  let sha ← lift (nodeSha256 node)
  if (ctx.blobs sha).isSome then lift (assembleBlob ctx sha (b["name"].asStr.getD "?"))
  else
    let builder := b["builder"].asStr.getD "splice@0"
    let name := nodeName node
    let quoted := builder.quote
    if builder = "splice@0" then assembleSplice ctx node b sha
    else if builder = "gzip@0" then assembleGzip ctx b sha
    else if builder = "zstd@0" then assembleZstd ctx b sha
    else if builder = "microlzma@0" then assembleMicrolzma ctx b sha
    else fail (.error s!"{name}: unknown builder {quoted} — this recipe needs a newer hdx")

/-- One call of `assemble`. -/
def assembleBody (ctx : CheckCtx) (node : Json) : Asm Fed := do
  let node ← lift (resolveSource ctx.sources node)
  if node["literal"].isObject then lift (assembleLiteral ctx node["literal"])
  else if node["slice"].isObject then assembleSlice ctx node["slice"]
  else if node["extract"].isObject then lift (assembleExtract ctx node)
  else if node["ref"].isObject then do
    let sha ← lift (need node["ref"]["digests"]["sha256"].asStr "ref sha256")
    lift (assembleBlob ctx sha (nodeName node))
  else if node["build"].isObject then assembleBuild ctx node
  else fail .unknownNode

/-- `assemble`, as calls on a node with what has been built so far. -/
def assemble (ctx : CheckCtx) :
    Json × Built → Prog (Json × Built) (Except Fault (Fed × Built)) (Except Fault (Fed × Built)) :=
  procedure (assembleBody ctx)

end Hashdex
