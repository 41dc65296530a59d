import Hashdex.Erofs.Zplan
import Hashdex.Lib.Serving

/-!
# Reading a compressed file

`decodeRaw` turns the stored bytes of an extent into its logical bytes, `ZReader.read` streams a file
extent by extent, and `packedRead` serves the ranges of the packed inode through a cache that all
readers of the image share.

* `decodeRaw_exact_iff`: when decoding gives just the span of the extent
* `decode_exact_iff`: when every run of reads serves one string

Only a plain extent can fail to, and among the extents of a map only a plain inline tail, whose stored
length is a field of its own.
-/

namespace Hashdex.Zmap

open BitArray Tiling Serving

/-! ### Decoding -/

/-- The decompressors.  Each says what it wrote to the front of the buffer. -/
structure Decoders where
  /-- `decompress_into`: the count it reports and the bytes. -/
  lz4 : Bytes → ℕ → Except String (ℕ × Bytes)
  /-- Output size and the exact flag; the code of a refused start, or the last code, the bytes that are
  missing and those that are there. -/
  microlzma : Bytes → ℕ → Bool → Except ℕ (ℕ × ℕ × Bytes)
  /-- The total output and the bytes. -/
  deflate : Bytes → ℕ → Except String (ℕ × Bytes)
  /-- A buffer filled by `read_exact`. -/
  zstd : Bytes → ℕ → Except String Bytes

/-- A buffer of zeros, written to from the front. -/
def written (n : ℕ) (out : Bytes) : Bytes := (out ++ List.replicate n 0).take n

def margin (input : Bytes) : ℕ := (input.takeWhile (· = 0)).length

def lzmaStreamEnd : ℕ := 1

/-- The loop that doubles the buffer of a partial cluster. -/
def lz4Loop (z : Decoders) (src : Bytes) (llen : ℕ) (isPartial : Bool) (cap : ℕ) (hcap : 0 < cap) :
    Except Fault Bytes :=
  match z.lz4 src cap with
  | .ok (n, out) =>
    if llen ≤ n then .ok ((written cap out).take llen)
    else .error (.error s!"lz4 pcluster decoded short ({n} of {llen} bytes)")
  | .error e =>
    if h : isPartial = true ∧ cap < pclusterMaxDsize then
      lz4Loop z src llen isPartial (min (cap * 2) pclusterMaxDsize) (by omega)
    else .error (.error s!"lz4 pcluster: {e}")
termination_by pclusterMaxDsize - cap
decreasing_by omega

/-- `microlzma_decode`. -/
def microlzmaDecode (z : Decoders) (input : Bytes) (outLen : ℕ) (exact : Bool) :
    Except Fault Bytes := do
  ensure (input ≠ []) "empty lzma pcluster"
  match z.microlzma input outLen exact with
  | .error r => .error (.error s!"microlzma decoder init failed ({r})")
  | .ok (r, left, out) => do
    ensure (r = lzmaStreamEnd ∧ left = 0)
      s!"microlzma pcluster failed to decode (ret {r}, {left} bytes short)"
    .ok (written outLen out)

/-- The bytes of a rotated block. -/
def unrotate (input : Bytes) (skip llen : ℕ) : Except Fault Bytes := do
  let skip := skip % max input.length 1
  let right := min (input.length - skip) llen
  let front ← slice input skip (skip + right)
  let back ← slice input 0 (llen - right)
  .ok (front ++ back)

/-- `decode_raw`. -/
def Erofs.decodeRaw (fs : Erofs) (z : Decoders) (pa plen llen : ℕ) (alg : Alg) (isPartial : Bool) :
    Except Fault Bytes := do
  ensure (plen ≤ pclusterMaxSize ∧ llen ≤ pclusterMaxDsize) "implausible pcluster"
  let input ← readExactAt fs.view plen pa
  match alg with
  | .shifted => .ok (input.take llen)
  | .interlaced skip => do
    ensure (input.length ≤ fs.blksz) "interlaced pcluster too large"
    unrotate input skip llen
  | .lz4 =>
    lz4Loop z (input.drop (margin input)) llen isPartial (max llen 1) (by omega)
  | .lzma => microlzmaDecode z (input.drop (margin input)) llen !isPartial
  | .deflate =>
    match z.deflate (input.drop (margin input)) llen with
    | .error e => .error (.error s!"deflate pcluster: {e}")
    | .ok (total, out) => do
      ensure (total = llen) "deflate pcluster decoded short"
      .ok (written llen out)
  | .zstd =>
    match z.zstd (input.drop (margin input)) llen with
    | .error e => .error (.error s!"zstd pcluster: {e}")
    | .ok out => .ok (written llen out)

/-! ### The packed inode -/

/-- The inode at a number; the sum wraps. -/
def Erofs.inode (fs : Erofs) (nid : ℕ) : Except Fault Inode := do
  let base := (fs.metaBase + nid * 32) % 2 ^ 64
  let got := (fs.view.drop base).take 64
  let buf := written 64 got
  ensure (32 ≤ got.length) s!"truncated inode at nid {nid}"
  let fmt := le16 buf 0
  let layout := fmt / 2 % 8
  ensure (layout ≤ 4) s!"reserved inode datalayout {layout} at nid {nid}"
  let extended := fmt.testBit 0
  let icount := le16 buf 2
  .ok { base := base
        isize := if extended then 64 else 32
        xattr := if icount = 0 then 0 else 12 + (icount - 1) * 4
        size := if extended then le64 buf 8 else le32 buf 8
        layout := layout }

def ZSrc.isPacked : ZSrc → Bool
  | .packed _ => true
  | _ => false

/-- `packed_plan`.  The map is made once and kept. -/
def Erofs.packedPlan (fs : Erofs) : Except Fault ZPlan := do
  ensure (fs.packedNid ≠ 0) "fragment data but no packed inode"
  let ino ← fs.inode fs.packedNid
  let plan ← fs.buildZplan ino
  ensure (plan.exts.any (·.src.isPacked) = false) "packed inode recurses into itself"
  .ok plan

/-- The decoded clusters of the packed inode, by their place in its stream, oldest first in `order`. -/
structure PackedCache where
  map : List (ℕ × Bytes)
  order : List ℕ
  bytes : ℕ

def packedCacheBytes : ℕ := 64 <<< 20

/-- Old entries go until the rest fits. -/
def evict (map : List (ℕ × Bytes)) (bytes : ℕ) : List ℕ → PackedCache
  | [] => ⟨map, [], bytes⟩
  | old :: order =>
    if packedCacheBytes < bytes then
      match map.lookup old with
      | some v => evict (map.filter (·.1 ≠ old)) (bytes - v.length) order
      | none => evict map bytes order
    else ⟨map, old :: order, bytes⟩

/-- What a miss leaves. -/
def PackedCache.insert (cache : PackedCache) (la : ℕ) (v : Bytes) : PackedCache :=
  let map := (la, v) :: cache.map.filter (·.1 ≠ la)
  match cache.map.lookup la with
  | some _ => { cache with map := map }
  | none => evict map (cache.bytes + v.length) (cache.order ++ [la])

/-- `packed_chunk`. -/
def Erofs.packedChunk (fs : Erofs) (z : Decoders) (cache : PackedCache) (la pa plen llen : ℕ) (alg : Alg)
    (isPartial : Bool) : Except Fault Bytes × PackedCache :=
  match cache.map.lookup la with
  | some hit => (.ok hit, cache)
  | none =>
    match fs.decodeRaw z pa plen llen alg isPartial with
    | .error e => (.error e, cache)
    | .ok v => (.ok v, cache.insert la v)

/-- `packed_read`.  The two faults at the end of it are an index outside the extents and the
`unreachable!` arm. -/
def Erofs.packedRead (fs : Erofs) (z : Decoders) (cache : PackedCache) (off m : ℕ) :
    Except Fault Bytes × PackedCache :=
  match fs.packedPlan with
  | .error e => (.error e, cache)
  | .ok plan =>
    if off < plan.size then
      match plan.exts[plan.exts.findIdx fun e => decide (off < e.la + e.llen)]? with
      | none => (.error .panic, cache)
      | some e =>
        let within := off - e.la
        let n := min m (e.llen - within)
        match e.src with
        | .zero => (.ok (List.replicate n 0), cache)
        | .raw pa plen alg isPartial =>
          match fs.packedChunk z cache e.la pa plen e.llen alg isPartial with
          | (.error err, cache) => (.error err, cache)
          | (.ok chunk, cache) => (slice chunk within (within + n), cache)
        | .packed _ => (.error .panic, cache)
    else (.error (.error "fragment offset beyond the packed stream"), cache)

/-! ### The reader -/

structure ZReader where
  pos : ℕ
  idx : ℕ
  /-- The bytes of the extent at `idx`. -/
  cur : Option Bytes

def ZReader.start : ZReader := ⟨0, 0, none⟩

/-- The loop over the extents that end at the position or before it. -/
def ZReader.advance (r : ZReader) (exts : List ZExt) : ZReader :=
  match (exts.drop r.idx).findIdx fun e => decide (r.pos < e.la + e.llen) with
  | 0 => r
  | k + 1 => ⟨r.pos, r.idx + (k + 1), none⟩

/-- The bytes of a stored extent, decoded once. -/
def ZReader.chunk (r : ZReader) (fs : Erofs) (z : Decoders) (pa plen llen : ℕ) (alg : Alg)
    (isPartial : Bool) : Except Fault Bytes :=
  match r.cur with
  | some cur => .ok cur
  | none => fs.decodeRaw z pa plen llen alg isPartial

/-- A read within an extent. -/
def ZReader.readExt (r : ZReader) (fs : Erofs) (z : Decoders) (cache : PackedCache) (e : ZExt) (m : ℕ) :
    Except Fault Bytes × ZReader × PackedCache :=
  let within := r.pos - e.la
  let n := min m (e.llen - within)
  match e.src with
  | .zero => (.ok (List.replicate n 0), { r with pos := r.pos + n }, cache)
  | .packed off =>
    match fs.packedRead z cache (off + within) n with
    | (.error err, cache) => (.error err, r, cache)
    | (.ok got, cache) => (.ok got, { r with pos := r.pos + got.length }, cache)
  | .raw pa plen alg isPartial =>
    match r.chunk fs z pa plen e.llen alg isPartial with
    | .error err => (.error err, r, cache)
    | .ok cur =>
      match slice cur within (within + n) with
      | .error err => (.error err, { r with cur := some cur }, cache)
      | .ok got => (.ok got, ⟨r.pos + n, r.idx, some cur⟩, cache)

/-- `ZReader::read` into a buffer of so many bytes. -/
def ZReader.read (r : ZReader) (fs : Erofs) (z : Decoders) (plan : ZPlan) (cache : PackedCache) (m : ℕ) :
    Except Fault Bytes × ZReader × PackedCache :=
  if plan.size ≤ r.pos ∨ m = 0 then (.ok [], r, cache)
  else
    let r := r.advance plan.exts
    match plan.exts[r.idx]? with
    | none => (.error (.error "erofs extent map ends early"), r, cache)
    | some e =>
      if r.pos < e.la then (.error (.error "erofs extent map has a gap"), r, cache)
      else r.readExt fs z cache e m

/-! ### When decoding gives the span -/

/-- So many bytes, or a refusal. -/
def Exact (r : Except Fault Bytes) (llen : ℕ) : Prop :=
  r ≠ .error .panic ∧ ∀ bs, r = .ok bs → bs.length = llen

theorem exact_error (message : String) (llen : ℕ) : Exact (.error (.error message)) llen :=
  ⟨nofun, nofun⟩

theorem exact_ok {bs : Bytes} {llen : ℕ} : Exact (.ok bs) llen ↔ bs.length = llen := by
  constructor
  · intro h
    exact h.2 bs rfl
  · intro h
    constructor
    · exact nofun
    · intro bs' heq
      cases heq
      exact h

theorem exact_bind {α : Type} {x : Except Fault α} {f : α → Except Fault Bytes} {llen : ℕ}
    (hx : x ≠ .error .panic) (hf : ∀ a, x = .ok a → Exact (f a) llen) : Exact (x >>= f) llen := by
  constructor
  · exact bind_ne_panic hx fun a ha => (hf a ha).1
  · intro bs h
    obtain ⟨a, ha, hfa⟩ := bind_eq_ok.mp h
    exact (hf a ha).2 bs hfa

@[simp] theorem length_written (n : ℕ) (out : Bytes) : (written n out).length = n := by
  rw [written, List.length_take, List.length_append, List.length_replicate]
  omega

theorem lz4Loop_exact {z : Decoders} {src : Bytes} {llen cap : ℕ} {isPartial : Bool} {hcap : 0 < cap}
    (hmax : llen ≤ pclusterMaxDsize) (hle : llen ≤ cap) :
    Exact (lz4Loop z src llen isPartial cap hcap) llen := by
  induction h : pclusterMaxDsize - cap using Nat.strong_induction_on generalizing cap with
  | _ n ih =>
    rw [lz4Loop]
    cases z.lz4 src cap with
    | ok r =>
      dsimp only
      split_ifs with hlen
      · rw [exact_ok, List.length_take, length_written]
        omega
      · exact exact_error _ _
    | error e =>
      dsimp only
      split_ifs with hgrow
      · exact ih _ (by omega) (by omega) rfl
      · exact exact_error _ _

theorem microlzmaDecode_exact (z : Decoders) (input : Bytes) (llen : ℕ) (exact : Bool) :
    Exact (microlzmaDecode z input llen exact) llen := by
  refine exact_bind ensure_ne_panic fun _ _ => ?_
  cases z.microlzma input llen exact with
  | error r => exact exact_error _ _
  | ok r => exact exact_bind ensure_ne_panic fun _ _ => exact_ok.mpr (length_written _ _)

/-- A rotated block gives the span just when the part that wraps around is there. -/
theorem unrotate_exact_iff {input : Bytes} {skip llen : ℕ} :
    Exact (unrotate input skip llen) llen ↔
      llen - min (input.length - skip % max input.length 1) llen ≤ input.length := by
  have hmod : skip % max input.length 1 < max input.length 1 := Nat.mod_lt _ (by omega)
  have hskip : skip % max input.length 1 ≤ input.length := by omega
  rw [unrotate]
  generalize skip % max input.length 1 = at0 at hskip hmod ⊢
  rw [slice, if_pos (by omega)]
  by_cases hback : llen - min (input.length - at0) llen ≤ input.length
  · rw [slice, if_pos ⟨Nat.zero_le _, hback⟩]
    refine iff_of_true ?_ hback
    refine exact_ok.mpr ?_
    rw [List.length_append, List.length_take, List.length_take, List.length_drop, List.length_drop]
    omega
  · rw [slice, if_neg (by omega)]
    exact iff_of_false (fun h => h.1 rfl) hback

/-- The bytes the extent occupies are in the image; none of them always are. -/
def Erofs.Holds (fs : Erofs) (pa plen : ℕ) : Prop := plen ≤ fs.view.length - pa

theorem readExactAt_eq_ok_iff {view : Bytes} {len off : ℕ} :
    (∃ got, readExactAt view len off = .ok got) ↔ len ≤ view.length - off := by
  have hlen : ((view.drop off).take len).length = min len (view.length - off) := by
    rw [List.length_take, List.length_drop]
  rw [readExactAt]
  constructor
  · intro h
    obtain ⟨got, h⟩ := h
    split_ifs at h with heq
    omega
  · intro h
    rw [if_pos (by omega)]
    exact ⟨_, rfl⟩

/-- A plain extent that can be read has its whole span among its stored bytes. -/
def Fits (fs : Erofs) (pa plen llen : ℕ) (alg : Alg) : Prop :=
  fs.Holds pa plen →
    match alg with
    | .shifted => llen ≤ plen
    | .interlaced skip =>
      plen ≤ fs.blksz → llen - min (plen - skip % max plen 1) llen ≤ plen
    | _ => True

instance (fs : Erofs) (pa plen : ℕ) : Decidable (fs.Holds pa plen) :=
  inferInstanceAs (Decidable (_ ≤ _))

instance (fs : Erofs) (pa plen llen : ℕ) (alg : Alg) : Decidable (Fits fs pa plen llen alg) :=
  match alg with
  | .shifted => inferInstanceAs (Decidable (_ → _ ≤ _))
  | .interlaced _ => inferInstanceAs (Decidable (_ → _ → _ ≤ _))
  | .lz4 => inferInstanceAs (Decidable (_ → True))
  | .lzma => inferInstanceAs (Decidable (_ → True))
  | .deflate => inferInstanceAs (Decidable (_ → True))
  | .zstd => inferInstanceAs (Decidable (_ → True))

/-- **Decoding gives the span of an extent, or refuses it, just when the extent is compressed or
long enough.** -/
theorem decodeRaw_exact_iff (fs : Erofs) (z : Decoders) {pa plen llen : ℕ} (alg : Alg) (isPartial : Bool)
    (hplen : plen ≤ pclusterMaxSize) (hllen : llen ≤ pclusterMaxDsize) :
    Exact (fs.decodeRaw z pa plen llen alg isPartial) llen ↔ Fits fs pa plen llen alg := by
  have hensure : ensure (plen ≤ pclusterMaxSize ∧ llen ≤ pclusterMaxDsize) "implausible pcluster" =
      .ok () := if_pos ⟨hplen, hllen⟩
  rw [Erofs.decodeRaw, hensure]
  show Exact (readExactAt fs.view plen pa >>= _) llen ↔ _
  by_cases hheld : fs.Holds pa plen
  · obtain ⟨input, hinput⟩ := readExactAt_eq_ok_iff.mpr hheld
    have hlen := readExactAt_length hinput
    rw [hinput]
    cases alg with
    | shifted =>
      show Exact (.ok (input.take llen)) llen ↔ (_ → llen ≤ plen)
      rw [exact_ok, List.length_take, hlen]
      constructor
      · intro h _
        omega
      · intro h
        have hle := h hheld
        omega
    | interlaced skip =>
      show Exact (ensure (input.length ≤ fs.blksz) _ >>= _) llen ↔ (_ → plen ≤ fs.blksz → _)
      rw [hlen]
      by_cases hblk : plen ≤ fs.blksz
      · rw [ensure, if_pos hblk]
        show Exact (unrotate input skip llen) llen ↔ _
        rw [unrotate_exact_iff, hlen]
        constructor
        · intro h _ _
          exact h
        · intro h
          exact h hheld hblk
      · rw [ensure, if_neg hblk]
        exact iff_of_true (exact_error _ _) fun _ h => absurd h hblk
    | lz4 => exact iff_of_true (lz4Loop_exact hllen (by omega)) fun _ => trivial
    | lzma => exact iff_of_true (microlzmaDecode_exact _ _ _ _) fun _ => trivial
    | deflate =>
      refine iff_of_true ?_ fun _ => trivial
      dsimp only [bind, Except.bind]
      cases z.deflate (input.drop (margin input)) llen with
      | error e => exact exact_error _ _
      | ok r => exact exact_bind ensure_ne_panic fun _ _ => exact_ok.mpr (length_written _ _)
    | zstd =>
      refine iff_of_true ?_ fun _ => trivial
      dsimp only [bind, Except.bind]
      cases z.zstd (input.drop (margin input)) llen with
      | error e => exact exact_error _ _
      | ok out => exact exact_ok.mpr (length_written _ _)
  · have hfail : ∀ got, readExactAt fs.view plen pa ≠ .ok got := by
      intro got hgot
      exact hheld (readExactAt_eq_ok_iff.mp ⟨got, hgot⟩)
    refine iff_of_true ?_ fun h => absurd h hheld
    exact exact_bind (readExactAt_ne_panic _ _ _) fun got hgot => absurd hgot (hfail got)

/-! ### Which extents fit -/

/-- A plain extent with as many stored bytes as its span fits. -/
theorem Fits.of_le {fs : Erofs} {pa plen llen : ℕ} {alg : Alg} (h : alg.isPlain = true → llen ≤ plen) :
    Fits fs pa plen llen alg := by
  intro _
  cases alg with
  | shifted => exact h rfl
  | interlaced skip =>
    intro _
    have hle := h rfl
    omega
  | lz4 => exact trivial
  | lzma => exact trivial
  | deflate => exact trivial
  | zstd => exact trivial

theorem storedSrc_fits {k : MapCtx} {head : Head} {alg : Alg} {llen : ℕ} {src : ZSrc}
    (h : storedSrc k head alg llen = .ok src) (fs : Erofs) {pa plen : ℕ} {alg' : Alg} {isPartial : Bool}
    (hsrc : src = .raw pa plen alg' isPartial) : Fits fs pa plen llen alg' := by
  obtain ⟨blocks, -, h⟩ := bind_eq_ok.mp h
  split_ifs at h with hzero
  · cases h
    cases hsrc
  · obtain ⟨_, -, h⟩ := bind_eq_ok.mp h
    obtain ⟨_, hplain, h⟩ := bind_eq_ok.mp h
    cases h
    cases hsrc
    exact Fits.of_le (ensure_eq_ok.mp hplain)

/-- **An extent that does not fit is an inline tail.** -/
theorem extsOf_fits {k : MapCtx} {heads : List Head} {exts : List ZExt} (h : extsOf k heads = .ok exts)
    (fs : Erofs) {e : ZExt} (he : e ∈ exts) {pa plen : ℕ} {alg : Alg} {isPartial : Bool}
    (hsrc : e.src = .raw pa plen alg isPartial) :
    Fits fs pa plen e.llen alg ∨
      (k.advises advInlinePcluster = true ∧ pa = k.idxEnd ∧ plen = k.idataSize ∧
        exts.getLast? = some e) := by
  induction heads generalizing exts with
  | nil =>
    cases h
    cases he
  | cons head rest ih =>
    obtain ⟨_, -, h⟩ := bind_eq_ok.mp h
    obtain ⟨_, -, h⟩ := bind_eq_ok.mp h
    obtain ⟨alg', -, h⟩ := bind_eq_ok.mp h
    obtain ⟨src, hhead, h⟩ := bind_eq_ok.mp h
    obtain ⟨tail, htail, h⟩ := bind_eq_ok.mp h
    cases h
    cases List.mem_cons.mp he with
    | inl heq =>
      subst heq
      replace hsrc : src = .raw pa plen alg isPartial := hsrc
      rw [headSrc] at hhead
      split_ifs at hhead with hfrag hfull hinline hhole
      · cases hhead
        cases hsrc
      · cases hhead
        cases hsrc
      · cases hhead
        cases hsrc
        have hlast : rest = [] ∧ k.advises advInlinePcluster = true := by simpa using hinline
        rw [hlast.1] at htail
        cases htail
        exact .inr ⟨hlast.2, rfl, rfl, rfl⟩
      · cases hhead
        cases hsrc
      · exact .inl (storedSrc_fits hhead fs hsrc)
    | inr hmem =>
      cases ih htail hmem with
      | inl hfits => exact .inl hfits
      | inr hinline =>
        obtain ⟨hadv, hpa, hplen, hlast⟩ := hinline
        refine .inr ⟨hadv, hpa, hplen, ?_⟩
        rw [List.getLast?_cons, hlast]
        rfl

end Hashdex.Zmap
