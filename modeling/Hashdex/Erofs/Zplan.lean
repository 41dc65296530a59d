import Hashdex.Lib.BitArray
import Hashdex.Lib.Tiling
import Hashdex.Recipe.Check

/-!
# The extent map of a compressed inode

`buildZplan` scans the cluster indexes of a compressed inode front to back and makes of them the extents
of the file: stored clusters, holes, and ranges of the packed inode.  Every number it goes by is read from
the image.

* `extsOf_tiles`: the extents of ascending heads tile the file
* `buildZplan_wellTiled`: what an accepted map is like
* `buildZplan_ne_panic`: no image makes the scan index outside what it read
-/

namespace Hashdex.Zmap

open BitArray Tiling

/-! ### The image -/

def le16 (b : Bytes) (o : ℕ) : ℕ := ofLe ((b.drop o).take 2)

def le32 (b : Bytes) (o : ℕ) : ℕ := ofLe ((b.drop o).take 4)

def le64 (b : Bytes) (o : ℕ) : ℕ := ofLe ((b.drop o).take 8)

/-- `next_multiple_of(8)`. -/
def align8 (n : ℕ) : ℕ := (n + 7) / 8 * 8

/-- The bytes of a range, all of them. -/
def readExactAt (view : Bytes) (len off : ℕ) : Except Fault Bytes :=
  let got := (view.drop off).take len
  if got.length = len then .ok got
  else .error (.error s!"truncated read of {len} bytes at offset {off}")

/-- An opened image.  `open` refuses any other block size. -/
structure Erofs where
  view : Bytes
  blkszbits : ℕ
  metaBase : ℕ
  packedNid : ℕ
  bits : 9 ≤ blkszbits ∧ blkszbits ≤ 16

/-- The smallest blocks an image may have. -/
theorem smallestBlock_bits : 9 ≤ 9 ∧ 9 ≤ 16 := by decide

def superOffset : ℕ := 1024

def magic : ℕ := 0xE0F5E1E2

def feat48bit : ℕ := 0x80

def featMetabox : ℕ := 0x100

def featKnown : ℕ := 0x1ff

/-- `Erofs::open`. -/
def Erofs.open (view : Bytes) : Except Fault Erofs := do
  let sb ← readExactAt view 128 superOffset
  ensure (le32 sb 0 = magic) "not an erofs image"
  let blkszbits := (sb.getD 12 0).toNat
  let incompat := le32 sb 80
  if h : 9 ≤ blkszbits ∧ blkszbits ≤ 16 then do
    ensure (incompat ≤ featKnown) s!"unknown erofs incompat features {incompat}"
    ensure (incompat &&& (feat48bit ||| featMetabox) = 0)
      "unsupported erofs feature (48-bit or metabox)"
    ensure (le16 sb 86 = 0) "multi-device erofs is not supported"
    let dirblkbits := (sb.getD 90 0).toNat
    ensure (dirblkbits = 0 ∨ dirblkbits = blkszbits) "unsupported erofs directory block size"
    .ok { view := view
          blkszbits := blkszbits
          metaBase := le32 sb 40 <<< blkszbits
          packedNid := le64 sb 96
          bits := h }
  else .error (.error "implausible erofs block size")

def Erofs.blksz (fs : Erofs) : ℕ := 1 <<< fs.blkszbits

structure Inode where
  base : ℕ
  isize : ℕ
  xattr : ℕ
  size : ℕ
  layout : ℕ

/-- Where the inode and its xattrs end. -/
def Inode.stop (ino : Inode) : ℕ := ino.base + ino.isize + ino.xattr

/-! ### Indexes -/

def advCompacted2b : ℕ := 0x0001

/-- What the same bit means in the full layout. -/
def advExtents : ℕ := 0x0001

def advBigPcluster1 : ℕ := 0x0002

def advBigPcluster2 : ℕ := 0x0004

def advInlinePcluster : ℕ := 0x0008

def advInterlaced : ℕ := 0x0010

def advFragment : ℕ := 0x0020

def cblkcntFlag : ℕ := 1 <<< 11

def pclusterMaxSize : ℕ := 1 <<< 20

def pclusterMaxDsize : ℕ := 12 <<< 20

inductive LclType where
  | plain
  | head1
  | nonhead
  | head2
  deriving DecidableEq

/-- The two type bits. -/
def LclType.ofBits (n : ℕ) : LclType :=
  match n % 4 with
  | 0 => .plain
  | 1 => .head1
  | 2 => .nonhead
  | _ => .head2

structure Lcl where
  ty : LclType
  clusterofs : ℕ
  blkaddr : ℕ
  cblkcnt : Option ℕ
  isPartial : Bool
  hole : Bool

/-- A count of blocks, when the field holds one. -/
def cblkcntOf (delta : ℕ) : Option ℕ :=
  if delta &&& cblkcntFlag = 0 then none else some (delta ^^^ cblkcntFlag)

structure Compact where
  ebase : ℕ
  lclusterbits : ℕ
  totalidx : ℕ
  c4init : ℕ
  c2b : ℕ
  big : Bool

inductive IndexKind where
  | full
  | compact (k : Compact)

structure Indexes where
  buf : Bytes
  /-- First byte past the index area. -/
  stop : ℕ
  kind : IndexKind

/-- `&buf[a..b]`. -/
def slice (buf : Bytes) (a b : ℕ) : Except Fault Bytes :=
  if a ≤ b ∧ b ≤ buf.length then .ok ((buf.drop a).take (b - a)) else .error .panic

/-- Where the pack entry of a cluster is, and the logarithm of its amortized size. -/
def posOf (ebase c4init c2b lcn : ℕ) : ℕ × ℕ :=
  if c4init ≤ lcn then
    let l := lcn - c4init
    if l < c2b then (ebase + c4init * 4 + l * 2, 1)
    else (ebase + c4init * 4 + c2b * 2 + (l - c2b) * 4, 2)
  else (ebase + lcn * 4, 2)

/-- Entries of a pack. -/
def vcntOf (shift : ℕ) : ℕ := if shift = 2 then 2 else 16

def Indexes.getFull (idx : Indexes) (lcn : ℕ) : Except Fault Lcl := do
  let d ← slice idx.buf (lcn * 8) (lcn * 8 + 8)
  let advise := le16 d 0
  match LclType.ofBits advise with
  | .nonhead => .ok ⟨.nonhead, 0, 0, cblkcntOf (le16 d 4), false, false⟩
  | ty =>
    let hole := advise.testBit 14
    .ok ⟨ty, le16 d 2, if hole then 0 else le32 d 4, none, advise.testBit 15, hole⟩

/-- One entry of a pack: the low bits and the type. -/
def packEntry (pack : Bytes) (lobits encodebits i : ℕ) : ℕ × LclType :=
  let bitpos := encodebits * i
  let v := le32 pack (bitpos / 8) >>> (bitpos % 8)
  (v % 2 ^ lobits, .ofBits (v >>> lobits))

/-- The blocks used by the heads before an entry, without big clusters. -/
def blocksBefore (entry : ℕ → ℕ × LclType) : ℕ → ℕ
  | 0 => 0
  | j + 1 =>
    let (lo, ty) := entry j
    if ty = .nonhead then if lo ≤ j then 1 + blocksBefore entry (j - lo) else 0
    else 1 + blocksBefore entry j

/-- The same with big clusters, whose second entry counts their blocks. -/
def blocksBeforeBig (entry : ℕ → ℕ × LclType) : ℕ → Except Fault ℕ
  | 0 => .ok 0
  | j + 1 =>
    let (lo, ty) := entry j
    if ty = .nonhead then
      match cblkcntOf lo with
      | some n => do
        let before ← blocksBeforeBig entry (j - 1)
        .ok (n + before)
      | none =>
        if 1 < lo then blocksBeforeBig entry (j - (lo - 2))
        else .error (.error "corrupt compact index (d0 <= 1 in big pcluster)")
    else do
      let before ← blocksBeforeBig entry j
      .ok (1 + before)

/-- The bytes of a pack.  The offsets into the buffer do not go below its start. -/
def Indexes.packAt (idx : Indexes) (ebase base packsz : ℕ) : Except Fault Bytes :=
  if ebase ≤ base then slice idx.buf (base - ebase) (base - ebase + packsz) else .error .panic

/-- The blocks of a pack up to and with a head. -/
def blocksUpTo (big : Bool) (entry : ℕ → ℕ × LclType) (i : ℕ) : Except Fault ℕ :=
  if big then blocksBeforeBig entry i else .ok (1 + blocksBefore entry i)

/-- `get_compact`. -/
def Indexes.getCompact (idx : Indexes) (k : Compact) (lcn : ℕ) : Except Fault Lcl := do
  ensure (lcn < k.totalidx ∧ k.lclusterbits ≤ 14) "lcn out of range"
  let (pos, shift) := posOf k.ebase k.c4init k.c2b lcn
  let vcnt := vcntOf shift
  let packsz := vcnt <<< shift
  let base := pos / packsz * packsz
  let pack ← idx.packAt k.ebase base packsz
  let lobits := max k.lclusterbits 12
  let encodebits := (packsz - 4) * 8 / vcnt
  let i := (pos - base) >>> shift
  let entry := packEntry pack lobits encodebits
  let (lo, ty) := entry i
  match ty with
  | .nonhead => .ok ⟨.nonhead, 0, 0, cblkcntOf lo, false, false⟩
  | ty => do
    let nblk ← blocksUpTo k.big entry i
    let blkaddr := le32 pack (packsz - 4) + nblk
    ensure (blkaddr < 2 ^ 32) "blkaddr overflow"
    .ok ⟨ty, lo, blkaddr, none, false, false⟩

def Indexes.get (idx : Indexes) (lcn : ℕ) : Except Fault Lcl :=
  match idx.kind with
  | .full => idx.getFull lcn
  | .compact k => idx.getCompact k lcn

/-- `load_indexes`. -/
def Erofs.loadIndexes (fs : Erofs) (ino : Inode) (hpos advise nlcl lcb : ℕ) : Except Fault Indexes :=
  if ino.layout = 1 then do
    let start := hpos + 8 + 8
    let buf ← readExactAt fs.view (nlcl * 8) start
    .ok ⟨buf, start + nlcl * 8, .full⟩
  else do
    let ebase := hpos + 8
    let totalidx := (ino.size + fs.blksz - 1) / fs.blksz
    let c4init := (32 - ebase % 32) / 4 % 8
    let c2b := if advise &&& advCompacted2b ≠ 0 ∧ c4init < totalidx then
      (totalidx - c4init) / 16 * 16 else 0
    let (lastPos, lastShift) := posOf ebase c4init c2b (nlcl - 1)
    let packsz := vcntOf lastShift <<< lastShift
    let stop := lastPos / packsz * packsz + packsz
    let buf ← readExactAt fs.view (stop - ebase) ebase
    .ok ⟨buf, stop, .compact ⟨ebase, lcb, totalidx, c4init, c2b, advise &&& advBigPcluster1 ≠ 0⟩⟩

/-! ### Extents -/

inductive Alg where
  | shifted
  /-- The data begins so many bytes in and wraps around. -/
  | interlaced (skip : ℕ)
  | lz4
  | lzma
  | deflate
  | zstd
  deriving DecidableEq

inductive ZSrc where
  | raw (pa plen : ℕ) (alg : Alg) (isPartial : Bool)
  | packed (off : ℕ)
  | zero
  deriving DecidableEq

structure ZExt where
  la : ℕ
  llen : ℕ
  src : ZSrc
  deriving DecidableEq

structure ZPlan where
  size : ℕ
  exts : List ZExt
  deriving DecidableEq

structure Head where
  lcn : ℕ
  la : ℕ
  ty : LclType
  pblk : ℕ
  cblks : Option ℕ
  nextNonhead : Bool
  isPartial : Bool
  hole : Bool

/-- A continuation right after the latest head tells of its blocks. -/
def noteNonhead (lcn : ℕ) (l : Lcl) : List Head → List Head
  | [] => []
  | h :: heads =>
    if lcn = h.lcn + 1 then { h with nextNonhead := true, cblks := l.cblkcnt } :: heads
    else h :: heads

/-- The scan over the clusters; the heads are collected latest first.  A head at the end of the file or
behind it owns no data, and ends the scan. -/
def scanHeads (get : ℕ → Except Fault Lcl) (lcb size : ℕ) :
    ℕ → ℕ → List Head → Except Fault (List Head)
  | 0, _, heads => .ok heads
  | left + 1, lcn, heads => do
    let l ← get lcn
    if l.ty = .nonhead then scanHeads get lcb size left (lcn + 1) (noteNonhead lcn l heads)
    else do
      ensure (l.clusterofs < 1 <<< lcb) s!"corrupt clusterofs at lcn {lcn}"
      let la := lcn <<< lcb ||| l.clusterofs
      let head : Head := ⟨lcn, la, l.ty, l.blkaddr, none, false, l.isPartial, l.hole⟩
      if size ≤ la then .ok heads else scanHeads get lcb size left (lcn + 1) (head :: heads)

def algOf (code : ℕ) : Except Fault Alg :=
  match code with
  | 0 => .ok .lz4
  | 1 => .ok .lzma
  | 2 => .ok .deflate
  | 3 => .ok .zstd
  | n => .error (.error s!"unsupported erofs compression algorithm {n}")

/-- What the map header and the inode say to the extents. -/
structure MapCtx where
  size : ℕ
  layout : ℕ
  blkszbits : ℕ
  lcb : ℕ
  advise : ℕ
  algtype : ℕ
  idataSize : ℕ
  /-- Where the indexes end. -/
  idxEnd : ℕ
  fragoff : ℕ

/-- Whether a bit of the header's advice is set. -/
def MapCtx.advises (k : MapCtx) (flag : ℕ) : Bool := k.advise &&& flag ≠ 0

def headAlg (k : MapCtx) (head : Head) : Except Fault Alg :=
  match head.ty with
  | .plain =>
    if k.advises advInterlaced then .ok (.interlaced (head.la % 2 ^ k.blkszbits)) else .ok .shifted
  | .head2 => algOf (k.algtype / 16)
  | _ => algOf (k.algtype % 16)

/-- The blocks of a stored cluster. -/
def headBlocks (k : MapCtx) (head : Head) : Except Fault ℕ :=
  let one := (head.ty = .head1 ∧ ¬ k.advises advBigPcluster1) ∨
    ((head.ty = .plain ∨ head.ty = .head2) ∧ ¬ k.advises advBigPcluster2) ∨
    k.size ≤ ((head.lcn + 1) <<< k.lcb) % 2 ^ 64
  if one then .ok 1
  else
    match head.cblks with
    | some n => .ok n
    | none =>
      if head.nextNonhead then
        .error (.error s!"big pcluster without CBLKCNT at lcn {head.lcn}")
      else .ok 1

/-- Raw storage. -/
def Alg.isPlain : Alg → Bool
  | .shifted => true
  | .interlaced _ => true
  | _ => false

def storedSrc (k : MapCtx) (head : Head) (alg : Alg) (llen : ℕ) : Except Fault ZSrc := do
  let blocks ← headBlocks k head
  if blocks = 0 then .ok .zero
  else do
    let plen := blocks <<< k.blkszbits
    ensure (plen ≤ pclusterMaxSize) "oversized pcluster"
    ensure (alg.isPlain = true → llen ≤ plen) "plain pcluster shorter than its span"
    .ok (.raw (head.pblk <<< k.blkszbits) plen alg head.isPartial)

/-- Where the bytes of a head's extent are. -/
def headSrc (k : MapCtx) (head : Head) (last : Bool) (alg : Alg) (llen : ℕ) : Except Fault ZSrc :=
  if last && k.advises advFragment then
    -- full-layout indexes carry the offset's high half in the tail head
    .ok (.packed (if k.layout = 1 then k.fragoff ||| head.pblk <<< 32 else k.fragoff))
  else if last && k.advises advInlinePcluster then
    .ok (.raw k.idxEnd k.idataSize alg head.isPartial)
  else if head.hole then .ok .zero
  else storedSrc k head alg llen

def extsOf (k : MapCtx) : List Head → Except Fault (List ZExt)
  | [] => .ok []
  | head :: rest => do
    let endLa := (rest.head?.map Head.la).getD k.size
    ensure (head.la < endLa) s!"empty pcluster at lcn {head.lcn}"
    let llen := endLa - head.la
    ensure (llen ≤ pclusterMaxDsize) "oversized pcluster span"
    let alg ← headAlg k head
    let src ← headSrc k head rest.isEmpty alg llen
    let exts ← extsOf k rest
    .ok (⟨head.la, llen, src⟩ :: exts)

/-- `build_zplan`. -/
def Erofs.buildZplan (fs : Erofs) (ino : Inode) : Except Fault ZPlan := do
  let hpos := align8 ino.stop
  let h ← readExactAt fs.view 8 hpos
  let raw := le64 h 0
  if 2 ^ 63 ≤ raw then
    -- the whole file lives in the packed inode
    .ok ⟨ino.size, [⟨0, ino.size, .packed (raw - 2 ^ 63)⟩]⟩
  else do
    let advise := le16 h 4
    let clusterbits := (h.getD 7 0).toNat
    let lcb := fs.blkszbits + clusterbits % 16
    ensure (lcb ≤ 14 ∨ ino.layout = 1) "oversized lclusters in compact index"
    ensure (¬ (ino.layout = 1 ∧ advise &&& advExtents ≠ 0))
      "erofs extent-metadata layout not supported"
    ensure (ino.layout = 3 → clusterbits % 16 = 0)
      "compact indexes with lclusters larger than blocks"
    if ino.size = 0 then .ok ⟨0, []⟩
    else do
      let nlcl := (ino.size + (1 <<< lcb) - 1) / (1 <<< lcb)
      let idx ← fs.loadIndexes ino hpos advise nlcl lcb
      let heads ← scanHeads idx.get lcb ino.size nlcl 0 []
      ensure ((heads.reverse.head?.map Head.la) = some 0)
        "compressed file does not start with a head lcluster"
      let exts ← extsOf
        { size := ino.size, layout := ino.layout, blkszbits := fs.blkszbits, lcb := lcb
          advise := advise, algtype := (h.getD 6 0).toNat, idataSize := le16 h 2
          idxEnd := idx.stop, fragoff := le32 h 0 } heads.reverse
      .ok ⟨ino.size, exts⟩

/-! ### What an accepted map is like -/

theorem le16_lt (b : Bytes) (o : ℕ) : le16 b o < 2 ^ 16 := by
  have hlen : ((b.drop o).take 2).length ≤ 2 := List.length_take_le _ _
  have hlt := ofLe_lt ((b.drop o).take 2)
  have hpow : 256 ^ ((b.drop o).take 2).length ≤ 256 ^ 2 := Nat.pow_le_pow_right (by decide) hlen
  exact lt_of_lt_of_le hlt hpow

/-- What the extent map owes a stored cluster: the decoder accepts it. -/
def ZExt.Plausible (e : ZExt) : Prop :=
  ∀ pa plen alg isPartial, e.src = .raw pa plen alg isPartial →
    plen ≤ pclusterMaxSize ∧ e.llen ≤ pclusterMaxDsize

theorem storedSrc_plen {k : MapCtx} {head : Head} {alg : Alg} {llen : ℕ} {src : ZSrc}
    (h : storedSrc k head alg llen = .ok src) {pa plen : ℕ} {alg' : Alg} {isPartial : Bool}
    (hsrc : src = .raw pa plen alg' isPartial) : plen ≤ pclusterMaxSize := by
  obtain ⟨blocks, -, h⟩ := bind_eq_ok.mp h
  split_ifs at h with hzero
  · cases h
    cases hsrc
  · obtain ⟨_, hmax, h⟩ := bind_eq_ok.mp h
    obtain ⟨_, -, h⟩ := bind_eq_ok.mp h
    cases h
    cases hsrc
    exact ensure_eq_ok.mp hmax

theorem headSrc_plen {k : MapCtx} {head : Head} {last : Bool} {alg : Alg} {llen : ℕ} {src : ZSrc}
    (h : headSrc k head last alg llen = .ok src) (hidata : k.idataSize ≤ pclusterMaxSize)
    {pa plen : ℕ} {alg' : Alg} {isPartial : Bool} (hsrc : src = .raw pa plen alg' isPartial) :
    plen ≤ pclusterMaxSize := by
  rw [headSrc] at h
  split_ifs at h with hfrag hfull hinline hhole
  · cases h
    cases hsrc
  · cases h
    cases hsrc
  · cases h
    cases hsrc
    exact hidata
  · cases h
    cases hsrc
  · exact storedSrc_plen h hsrc

/-- **The extents of the heads tile the file**, from the first head to the end, each of a sane
span. -/
theorem extsOf_tiles {k : MapCtx} {head : Head} {rest : List Head} {exts : List ZExt}
    (hidata : k.idataSize ≤ pclusterMaxSize) (h : extsOf k (head :: rest) = .ok exts) :
    exts ≠ [] ∧ Tiles ZExt.la ZExt.llen head.la k.size exts ∧
      ∀ e ∈ exts, 0 < e.llen ∧ e.llen ≤ pclusterMaxDsize ∧ e.Plausible := by
  induction rest generalizing head exts with
  | nil =>
    rw [extsOf] at h
    obtain ⟨_, hend, h⟩ := bind_eq_ok.mp h
    obtain ⟨_, hspan, h⟩ := bind_eq_ok.mp h
    obtain ⟨alg, -, h⟩ := bind_eq_ok.mp h
    obtain ⟨src, hsrc, h⟩ := bind_eq_ok.mp h
    cases h
    have hend : head.la < k.size := ensure_eq_ok.mp hend
    have hspan : k.size - head.la ≤ pclusterMaxDsize := ensure_eq_ok.mp hspan
    constructor
    · exact List.cons_ne_nil _ _
    constructor
    · exact ⟨rfl, Nat.add_sub_cancel' hend.le⟩
    · intro e he
      rw [List.mem_singleton.mp he]
      exact ⟨Nat.sub_pos_of_lt hend, hspan, fun pa plen alg' isPartial heq =>
        ⟨headSrc_plen hsrc hidata heq, hspan⟩⟩
  | cons next rest ih =>
    rw [extsOf] at h
    obtain ⟨_, hend, h⟩ := bind_eq_ok.mp h
    obtain ⟨_, hspan, h⟩ := bind_eq_ok.mp h
    obtain ⟨alg, -, h⟩ := bind_eq_ok.mp h
    obtain ⟨src, hsrc, h⟩ := bind_eq_ok.mp h
    obtain ⟨tail, htail, h⟩ := bind_eq_ok.mp h
    cases h
    have hend : head.la < next.la := ensure_eq_ok.mp hend
    have hspan : next.la - head.la ≤ pclusterMaxDsize := ensure_eq_ok.mp hspan
    obtain ⟨-, htiles, hall⟩ := ih htail
    have hnext : head.la + (next.la - head.la) = next.la := Nat.add_sub_cancel' hend.le
    constructor
    · exact List.cons_ne_nil _ _
    constructor
    · refine ⟨rfl, ?_⟩
      show Tiles ZExt.la ZExt.llen (head.la + (next.la - head.la)) k.size tail
      rwa [hnext]
    · intro e he
      cases List.mem_cons.mp he with
      | inl he =>
        rw [he]
        exact ⟨Nat.sub_pos_of_lt hend, hspan, fun pa plen alg' isPartial heq =>
          ⟨headSrc_plen hsrc hidata heq, hspan⟩⟩
      | inr he => exact hall e he

/-- What an accepted map is like, of an empty file too. -/
structure ZPlan.WellTiled (plan : ZPlan) (size : ℕ) : Prop where
  size_eq : plan.size = size
  tiles : Tiles ZExt.la ZExt.llen 0 size plan.exts
  llen_pos : 0 < size → ∀ e ∈ plan.exts, 0 < e.llen
  span : ∀ e ∈ plan.exts, e.llen ≤ pclusterMaxDsize ∨ ∃ off, e.src = .packed off ∧ plan.exts = [e]
  sane : ∀ e ∈ plan.exts, e.Plausible

theorem buildZplan_wellTiled {fs : Erofs} {ino : Inode} {plan : ZPlan}
    (h : fs.buildZplan ino = .ok plan) : plan.WellTiled ino.size := by
  obtain ⟨hdr, -, h⟩ := bind_eq_ok.mp h
  dsimp only at h
  split_ifs at h with hpacked hzero
  · -- the whole file is a fragment
    cases h
    constructor
    · rfl
    · exact ⟨rfl, Nat.zero_add _⟩
    · intro hsize e he
      rw [List.mem_singleton.mp he]
      exact hsize
    · intro e he
      rw [List.mem_singleton.mp he]
      exact .inr ⟨_, rfl, rfl⟩
    · intro e he pa plen alg isPartial heq
      rw [List.mem_singleton.mp he] at heq
      cases heq
  · obtain ⟨_, -, h⟩ := bind_eq_ok.mp h
    obtain ⟨_, -, h⟩ := bind_eq_ok.mp h
    obtain ⟨_, -, h⟩ := bind_eq_ok.mp h
    cases h
    constructor
    · exact hzero.symm
    · exact hzero.symm
    · intro hsize e he
      cases he
    · intro e he
      cases he
    · intro e he
      cases he
  · obtain ⟨_, -, h⟩ := bind_eq_ok.mp h
    obtain ⟨_, -, h⟩ := bind_eq_ok.mp h
    obtain ⟨_, -, h⟩ := bind_eq_ok.mp h
    obtain ⟨idx, -, h⟩ := bind_eq_ok.mp h
    obtain ⟨heads, -, h⟩ := bind_eq_ok.mp h
    obtain ⟨_, hfirst, h⟩ := bind_eq_ok.mp h
    obtain ⟨exts, hexts, h⟩ := bind_eq_ok.mp h
    cases h
    have hfirst := ensure_eq_ok.mp hfirst
    cases hrev : heads.reverse with
    | nil => simp [hrev] at hfirst
    | cons head rest =>
      rw [hrev] at hfirst hexts
      have hla : head.la = 0 := Option.some.inj hfirst
      have hidata : le16 hdr 2 ≤ pclusterMaxSize := by
        have hlt := le16_lt hdr 2
        have hmax : pclusterMaxSize = 1048576 := rfl
        omega
      obtain ⟨-, htiles, hall⟩ := extsOf_tiles hidata hexts
      rw [hla] at htiles
      constructor
      · rfl
      · exact htiles
      · exact fun _ e he => (hall e he).1
      · exact fun e he => .inl (hall e he).2.1
      · exact fun e he => (hall e he).2.2

/-- **An accepted map tiles the file.**  Its extents are contiguous from 0 to the file's size, in
ascending order and none of them empty; only a fragment that is the whole file spans more than the format
allows, and whatever is stored passes the decoder's plausibility check. -/
theorem build_zplan_tiles (fs : Erofs) (ino : Inode) (plan : ZPlan) (hsize : 0 < ino.size)
    (h : fs.buildZplan ino = .ok plan) :
    plan.size = ino.size ∧ plan.exts ≠ [] ∧ Tiles ZExt.la ZExt.llen 0 ino.size plan.exts ∧
      (∀ e ∈ plan.exts, 0 < e.llen) ∧
      (∀ e ∈ plan.exts, e.llen ≤ pclusterMaxDsize ∨
        ∃ off, e.src = .packed off ∧ plan.exts = [e]) ∧
      (∀ e ∈ plan.exts, ∀ pa plen alg isPartial, e.src = .raw pa plen alg isPartial →
        plen ≤ pclusterMaxSize ∧ e.llen ≤ pclusterMaxDsize) := by
  have hplan := buildZplan_wellTiled h
  have hne : plan.exts ≠ [] := by
    intro hnil
    have htiles := hplan.tiles
    rw [hnil] at htiles
    have heq : 0 = ino.size := htiles
    omega
  exact ⟨hplan.size_eq, hne, hplan.tiles, hplan.llen_pos hsize, hplan.span, hplan.sane⟩

/-- An image of one file, a hundred bytes stored in one block: the inode, the map header behind it, and
one full index. -/
def plainImage : Erofs where
  view := List.replicate 56 0
  blkszbits := 12
  metaBase := 0
  packedNid := 0
  bits := by decide

def plainInode : Inode := ⟨0, 32, 0, 100, 1⟩

theorem build_zplan_tiles_plain :
    let plan : ZPlan := ⟨100, [⟨0, 100, .raw 0 4096 .shifted false⟩]⟩
    0 < plainInode.size ∧ plainImage.buildZplan plainInode = .ok plan ∧
      Tiles ZExt.la ZExt.llen 0 100 plan.exts := by
  have hbuild : plainImage.buildZplan plainInode =
      .ok ⟨100, [⟨0, 100, .raw 0 4096 .shifted false⟩]⟩ := by rfl
  have htiles := build_zplan_tiles plainImage plainInode _ (by decide) hbuild
  exact ⟨by decide, hbuild, htiles.2.2.1⟩

/-! ### The scan stays inside what it read -/

theorem slice_ne_panic {buf : Bytes} {a b : ℕ} (hab : a ≤ b) (hb : b ≤ buf.length) :
    slice buf a b ≠ .error .panic := by
  rw [slice, if_pos ⟨hab, hb⟩]
  exact nofun

theorem readExactAt_ne_panic (view : Bytes) (len off : ℕ) : readExactAt view len off ≠ .error .panic := by
  rw [readExactAt]
  split_ifs <;> exact nofun

theorem readExactAt_length {view got : Bytes} {len off : ℕ} (h : readExactAt view len off = .ok got) :
    got.length = len := by
  rw [readExactAt] at h
  split_ifs at h with hlen
  cases h
  exact hlen

/-- A chain of steps faults only where one of them does. -/
theorem bind_ne_panic {α β : Type} {x : Except Fault α} {f : α → Except Fault β}
    (hx : x ≠ .error .panic) (hf : ∀ a, x = .ok a → f a ≠ .error .panic) :
    (x >>= f) ≠ .error .panic := by
  intro h
  cases bind_eq_error.mp h with
  | inl h => exact hx h
  | inr h =>
    obtain ⟨a, ha, hfa⟩ := h
    exact hf a ha hfa

theorem ok_ne_panic {α : Type} (a : α) : (.ok a : Except Fault α) ≠ .error .panic := nofun

theorem getFull_ne_panic {idx : Indexes} {lcn : ℕ} (h : lcn * 8 + 8 ≤ idx.buf.length) :
    idx.getFull lcn ≠ .error .panic := by
  refine bind_ne_panic (slice_ne_panic (Nat.le_add_right _ _) h) fun d _ => ?_
  dsimp only
  cases LclType.ofBits (le16 d 0) <;> exact nofun

theorem blocksBeforeBig_ne_panic (entry : ℕ → ℕ × LclType) (j : ℕ) :
    blocksBeforeBig entry j ≠ .error .panic := by
  induction j using Nat.strong_induction_on with
  | _ j ih =>
    cases j with
    | zero =>
      rw [blocksBeforeBig]
      exact ok_ne_panic _
    | succ j =>
      rw [blocksBeforeBig]
      dsimp only
      by_cases hty : (entry j).2 = .nonhead
      · rw [if_pos hty]
        cases cblkcntOf (entry j).1 with
        | some n => exact bind_ne_panic (ih (j - 1) (by omega)) fun _ _ => ok_ne_panic _
        | none =>
          by_cases hlo : 1 < (entry j).1
          · simp only [if_pos hlo]
            exact ih _ (by omega)
          · simp only [if_neg hlo]
            exact nofun
      · rw [if_neg hty]
        exact bind_ne_panic (ih j (by omega)) fun _ _ => ok_ne_panic _

theorem blocksUpTo_ne_panic (big : Bool) (entry : ℕ → ℕ × LclType) (i : ℕ) :
    blocksUpTo big entry i ≠ .error .panic := by
  cases big with
  | true => exact blocksBeforeBig_ne_panic entry i
  | false => exact ok_ne_panic _

/-- Where the pack of a cluster begins, and its bytes. -/
def packOf (ebase c4init c2b lcn : ℕ) : ℕ × ℕ :=
  let (pos, shift) := posOf ebase c4init c2b lcn
  let packsz := vcntOf shift <<< shift
  (pos / packsz * packsz, packsz)

/-- The packs stand behind the base, and no pack reaches behind a later cluster's. -/
theorem packOf_mono {ebase c4init c2b lcn last : ℕ} (hbase : ebase % 8 = 0)
    (hinit : c4init = (32 - ebase % 32) / 4 % 8) (hc2b : c2b % 16 = 0) (hle : lcn ≤ last) :
    ebase ≤ (packOf ebase c4init c2b lcn).1 ∧
      (packOf ebase c4init c2b lcn).1 + (packOf ebase c4init c2b lcn).2 ≤
        (packOf ebase c4init c2b last).1 + (packOf ebase c4init c2b last).2 := by
  have h4 : vcntOf 2 <<< 2 = 8 := rfl
  have h2 : vcntOf 1 <<< 1 = 32 := rfl
  simp only [packOf, posOf]
  split_ifs <;> simp only [h4, h2] <;> omega

theorem packAt_ne_panic {idx : Indexes} {ebase base packsz : ℕ} (hlo : ebase ≤ base)
    (hhi : base + packsz ≤ ebase + idx.buf.length) :
    idx.packAt ebase base packsz ≠ .error .panic := by
  rw [Indexes.packAt, if_pos hlo]
  exact slice_ne_panic (Nat.le_add_right _ _) (by omega)

theorem getCompact_ne_panic {idx : Indexes} {k : Compact} {lcn : ℕ}
    (hlo : k.ebase ≤ (packOf k.ebase k.c4init k.c2b lcn).1)
    (hhi : (packOf k.ebase k.c4init k.c2b lcn).1 + (packOf k.ebase k.c4init k.c2b lcn).2 ≤
      k.ebase + idx.buf.length) :
    idx.getCompact k lcn ≠ .error .panic := by
  refine bind_ne_panic ensure_ne_panic fun _ _ => ?_
  show (idx.packAt k.ebase (packOf k.ebase k.c4init k.c2b lcn).1
    (packOf k.ebase k.c4init k.c2b lcn).2 >>= _) ≠ .error .panic
  refine bind_ne_panic (packAt_ne_panic hlo hhi) fun pack _ => ?_
  dsimp only
  split
  · exact ok_ne_panic _
  · exact bind_ne_panic (blocksUpTo_ne_panic _ _ _) fun nblk _ =>
      bind_ne_panic ensure_ne_panic fun _ _ => ok_ne_panic _

/-- The indexes of every cluster of the file are within the bytes read for them. -/
theorem loadIndexes_get {fs : Erofs} {ino : Inode} {advise nlcl lcb : ℕ} {idx : Indexes}
    (h : fs.loadIndexes ino (align8 ino.stop) advise nlcl lcb = .ok idx) {lcn : ℕ} (hlcn : lcn < nlcl) :
    idx.get lcn ≠ .error .panic := by
  rw [Erofs.loadIndexes] at h
  split_ifs at h with hfull
  · obtain ⟨buf, hbuf, h⟩ := bind_eq_ok.mp h
    cases h
    have hlen := readExactAt_length hbuf
    exact getFull_ne_panic (by show lcn * 8 + 8 ≤ buf.length; omega)
  · obtain ⟨buf, hbuf, h⟩ := bind_eq_ok.mp h
    cases h
    have hlen := readExactAt_length hbuf
    have hbase : (align8 ino.stop + 8) % 8 = 0 := by
      rw [align8]
      omega
    set c2b := if advise &&& advCompacted2b ≠ 0 ∧
        (32 - (align8 ino.stop + 8) % 32) / 4 % 8 < (ino.size + fs.blksz - 1) / fs.blksz then
      ((ino.size + fs.blksz - 1) / fs.blksz - (32 - (align8 ino.stop + 8) % 32) / 4 % 8) / 16 * 16
      else 0 with hdef
    have hc2b : c2b % 16 = 0 := by
      rw [hdef]
      split_ifs <;> omega
    obtain ⟨hlo, hhi⟩ := packOf_mono hbase rfl hc2b (show lcn ≤ nlcl - 1 by omega)
    obtain ⟨hlast, -⟩ := packOf_mono hbase rfl hc2b (le_refl (nlcl - 1))
    have hstop : buf.length = (packOf (align8 ino.stop + 8) ((32 - (align8 ino.stop + 8) % 32) / 4 % 8)
        c2b (nlcl - 1)).1 + (packOf (align8 ino.stop + 8) ((32 - (align8 ino.stop + 8) % 32) / 4 % 8)
        c2b (nlcl - 1)).2 - (align8 ino.stop + 8) := hlen
    apply getCompact_ne_panic hlo
    refine hhi.trans ?_
    show _ ≤ align8 ino.stop + 8 + buf.length
    omega

theorem scanHeads_ne_panic {get : ℕ → Except Fault Lcl} {lcb size nlcl : ℕ}
    (hget : ∀ lcn, lcn < nlcl → get lcn ≠ .error .panic) (left lcn : ℕ) (heads : List Head)
    (h : lcn + left ≤ nlcl) : scanHeads get lcb size left lcn heads ≠ .error .panic := by
  induction left generalizing lcn heads with
  | zero => exact ok_ne_panic _
  | succ left ih =>
    refine bind_ne_panic (hget lcn (by omega)) fun l _ => ?_
    by_cases hty : l.ty = .nonhead
    · rw [if_pos hty]
      exact ih _ _ (by omega)
    · rw [if_neg hty]
      refine bind_ne_panic ensure_ne_panic fun _ _ => ?_
      by_cases hend : size ≤ lcn <<< lcb ||| l.clusterofs
      · simp only [if_pos hend]
        exact ok_ne_panic _
      · simp only [if_neg hend]
        exact ih _ _ (by omega)

theorem algOf_ne_panic (code : ℕ) : algOf code ≠ .error .panic := by
  unfold algOf
  split
  all_goals exact nofun

theorem headAlg_ne_panic (k : MapCtx) (head : Head) : headAlg k head ≠ .error .panic := by
  rw [headAlg]
  split
  · split_ifs <;> exact nofun
  · exact algOf_ne_panic _
  · exact algOf_ne_panic _

theorem headBlocks_ne_panic (k : MapCtx) (head : Head) : headBlocks k head ≠ .error .panic := by
  unfold headBlocks
  dsimp only
  split
  · exact ok_ne_panic _
  · split
    · exact ok_ne_panic _
    · split
      · exact nofun
      · exact ok_ne_panic _

theorem storedSrc_ne_panic (k : MapCtx) (head : Head) (alg : Alg) (llen : ℕ) :
    storedSrc k head alg llen ≠ .error .panic := by
  refine bind_ne_panic (headBlocks_ne_panic k head) fun blocks _ => ?_
  by_cases hzero : blocks = 0
  · rw [if_pos hzero]
    exact ok_ne_panic _
  · rw [if_neg hzero]
    exact bind_ne_panic ensure_ne_panic fun _ _ =>
      bind_ne_panic ensure_ne_panic fun _ _ => ok_ne_panic _

theorem extsOf_ne_panic (k : MapCtx) (heads : List Head) : extsOf k heads ≠ .error .panic := by
  induction heads with
  | nil => exact ok_ne_panic _
  | cons head rest ih =>
    refine bind_ne_panic ensure_ne_panic fun _ _ => ?_
    refine bind_ne_panic ensure_ne_panic fun _ _ => ?_
    refine bind_ne_panic (headAlg_ne_panic k head) fun alg _ => ?_
    refine bind_ne_panic ?_ fun src _ => bind_ne_panic ih fun exts _ => ok_ne_panic _
    rw [headSrc]
    split_ifs
    · exact ok_ne_panic _
    · exact ok_ne_panic _
    · exact ok_ne_panic _
    · exact ok_ne_panic _
    · exact storedSrc_ne_panic _ _ _ _

/-- **No image makes the scan index outside what it read.** -/
theorem buildZplan_ne_panic (fs : Erofs) (ino : Inode) : fs.buildZplan ino ≠ .error .panic := by
  refine bind_ne_panic (readExactAt_ne_panic _ _ _) fun hdr _ => ?_
  dsimp only
  split_ifs with hpacked hzero
  · exact ok_ne_panic _
  all_goals refine bind_ne_panic ensure_ne_panic fun _ _ => ?_
  all_goals refine bind_ne_panic ensure_ne_panic fun _ _ => ?_
  all_goals refine bind_ne_panic ensure_ne_panic fun _ _ => ?_
  · exact ok_ne_panic _
  · refine bind_ne_panic ?_ fun idx hidx => ?_
    · rw [Erofs.loadIndexes]
      split_ifs
      · exact bind_ne_panic (readExactAt_ne_panic _ _ _) fun _ _ => ok_ne_panic _
      · exact bind_ne_panic (readExactAt_ne_panic _ _ _) fun _ _ => ok_ne_panic _
    · refine bind_ne_panic ?_ fun heads _ => ?_
      · exact scanHeads_ne_panic (fun lcn hlcn => loadIndexes_get hidx hlcn) _ _ _ (by omega)
      · exact bind_ne_panic ensure_ne_panic fun _ _ =>
          bind_ne_panic (extsOf_ne_panic _ _) fun _ _ => ok_ne_panic _

end Hashdex.Zmap
