import Hashdex.Erofs.Layout
import Hashdex.View

/-!
# Files in chunks

A chunk-based file is a table of chunks, each somewhere in the image or a hole.  Without holes the file is
read as ranges of the image, with a hole it is streamed as an extent map.

* `ranged_reads`, `streamed_reads_iff`: what comes of the two ways to read
* `chunked_reads_iff`: the file is read right just when it has no hole or its mapped chunks are short
-/

namespace Hashdex.Zmap

open Tiling Serving

/-! ### What the file holds -/

/-- The byte of a file at an offset: that of the chunk over it, or zero in a hole. -/
def Erofs.chunkByte (fs : Erofs) (chunksz : ℕ) (chunks : List Chunk) (p : ℕ) : UInt8 :=
  match chunks[p / chunksz]? with
  | some c => if c.hole then 0 else fs.view.getD (c.pa + p % chunksz) 0
  | none => 0

def Erofs.chunkContent (fs : Erofs) (ino : FullInode) (chunks : List Chunk) : Bytes :=
  (List.range ino.size).map (fs.chunkByte (fs.chunkFormat ino).chunksz chunks)

/-- Reading a plan gives the string.  Ranges are read through a view, at any offset; a stream in any run of
reads, between reads of other files. -/
def Plan.Reads (fs : Erofs) (z : Decoders) (whole : Bytes) : Plan → Prop
  | .ranged exts => ∀ v : View, v.content = fs.view →
      ∀ n off, (v.slice exts).readFullAt n off = (whole.drop off).take n
  | .streamed plan => ∀ calls, (Session.after fs z plan calls).out <+: whole ∧
      ∀ m, 0 < m → Continues whole none (Session.after fs z plan calls).out m
        ((Session.after fs z plan calls).reader.read fs z plan (Session.after fs z plan calls).cache m).1

/-! ### The table -/

/-- The chunks of a file from a number on. -/
def Cut (chunksz size : ℕ) : ℕ → List Chunk → Prop
  | c, [] => size ≤ c * chunksz
  | c, chunk :: rest =>
    c * chunksz < size ∧ chunk.llen = min chunksz (size - c * chunksz) ∧ Cut chunksz size (c + 1) rest

theorem ChunkFormat.chunksz_pos (k : ChunkFormat) : 0 < k.chunksz := by
  rw [ChunkFormat.chunksz, Nat.one_shiftLeft]
  exact Nat.two_pow_pos _

theorem lt_nchunks {k : ChunkFormat} {c size : ℕ} : c < k.nchunks size ↔ c * k.chunksz < size := by
  have hpos := k.chunksz_pos
  rw [ChunkFormat.nchunks, Nat.lt_div_iff_mul_lt hpos]
  omega

theorem chunksFrom_cut {fs : Erofs} {k : ChunkFormat} {size : ℕ} {table : Bytes} {left c : ℕ}
    {chunks : List Chunk} (h : fs.chunksFrom k size table left c = .ok chunks)
    (hleft : c + left = k.nchunks size) : Cut k.chunksz size c chunks := by
  induction left generalizing c chunks with
  | zero =>
    cases h
    have hnot : ¬ c < k.nchunks size := by omega
    rw [lt_nchunks] at hnot
    exact Nat.le_of_not_lt hnot
  | succ left ih =>
    obtain ⟨chunk, hchunk, h⟩ := bind_eq_ok.mp h
    obtain ⟨rest, hrest, h⟩ := bind_eq_ok.mp h
    cases h
    obtain ⟨_, -, hchunk⟩ := bind_eq_ok.mp hchunk
    cases hchunk
    exact ⟨lt_nchunks.mp (by omega), rfl, ih hrest (by omega)⟩

theorem Erofs.chunks_cut {fs : Erofs} {ino : FullInode} {chunks : List Chunk}
    (h : fs.chunks ino = .ok chunks) : Cut (fs.chunkFormat ino).chunksz ino.size 0 chunks := by
  obtain ⟨_, -, h⟩ := bind_eq_ok.mp h
  obtain ⟨table, -, h⟩ := bind_eq_ok.mp h
  exact chunksFrom_cut h (Nat.zero_add _)

/-- The chunk over an offset. -/
theorem Cut.over {chunksz size c : ℕ} {chunk : Chunk} {rest : List Chunk}
    (h : Cut chunksz size c (chunk :: rest)) (hpos : 0 < chunksz) {p : ℕ} (hlo : c * chunksz ≤ p)
    (hhi : p < size) : p < c * chunksz + chunk.llen ↔ p / chunksz = c := by
  have hsucc : (c + 1) * chunksz = c * chunksz + chunksz := Nat.succ_mul c chunksz
  rw [h.2.1, Nat.div_eq_iff hpos]
  omega

/-! ### As image ranges -/

/-- Of the chunks, what is not a hole lies in the image. -/
def InImage (fs : Erofs) (chunks : List Chunk) : Prop :=
  ∀ c ∈ chunks, c.hole = false → c.pa + c.llen ≤ fs.view.length

instance (fs : Erofs) (chunks : List Chunk) : Decidable (InImage fs chunks) :=
  inferInstanceAs (Decidable (∀ c ∈ chunks, _ → _))

/-- The bytes of a mapped chunk. -/
theorem chunkByte_mapped {fs : Erofs} {chunksz size : ℕ} {all : List Chunk} {c : ℕ} {chunk : Chunk}
    (hpos : 0 < chunksz) (hget : all[c]? = some chunk) (hmapped : chunk.hole = false)
    (hin : chunk.pa + chunk.llen ≤ fs.view.length) (hllen : chunk.llen = min chunksz (size - c * chunksz))
    {i : ℕ} (hi : i < chunk.llen) :
    fs.chunkByte chunksz all (c * chunksz + i) = fs.view[chunk.pa + i] := by
  have hdiv : (c * chunksz + i) / chunksz = c := by
    rw [Nat.div_eq_iff hpos]
    omega
  have hmod : (c * chunksz + i) % chunksz = i := by
    rw [Nat.mul_add_mod_self_right]
    exact Nat.mod_eq_of_lt (by omega)
  rw [Erofs.chunkByte, hdiv, hget]
  dsimp only
  rw [hmapped, hmod, List.getD_eq_getElem _ _ (by omega)]
  rfl

/-- All chunks but the last are whole. -/
theorem Cut.llen_eq {chunksz size c : ℕ} {chunk : Chunk} {rest : List Chunk}
    (h : Cut chunksz size c (chunk :: rest)) :
    rest = [] ∧ c * chunksz + chunk.llen = size ∨ c * chunksz + chunk.llen = (c + 1) * chunksz := by
  obtain ⟨hlt, hllen, hrest⟩ := h
  have hsucc : (c + 1) * chunksz = c * chunksz + chunksz := Nat.succ_mul c chunksz
  cases rest with
  | nil =>
    have hle : size ≤ (c + 1) * chunksz := hrest
    exact .inl ⟨rfl, by omega⟩
  | cons next rest =>
    have hnext := hrest.1
    right
    omega

theorem getElem?_of_drop {α : Type} {xs rest : List α} {c : ℕ} {x : α} (h : xs.drop c = x :: rest) :
    xs[c]? = some x ∧ xs.drop (c + 1) = rest := by
  constructor
  · have hget := congrArg (·[0]?) h
    rwa [List.getElem?_drop, Nat.add_zero] at hget
  · rw [← List.drop_drop, h]
    rfl

/-- Every chunk of the file begins in it. -/
theorem chunk_llen {chunksz size c n : ℕ} {all rest : List Chunk} {chunk : Chunk}
    (hcut : Cut chunksz size c rest) (hdrop : all.drop c = rest) (hle : c ≤ n)
    (hget : all[n]? = some chunk) : n * chunksz < size ∧ chunk.llen = min chunksz (size - n * chunksz) := by
  induction rest generalizing c with
  | nil =>
    have hlen := List.drop_eq_nil_iff.mp hdrop
    rw [List.getElem?_eq_none (hlen.trans hle)] at hget
    cases hget
  | cons x rest ih =>
    obtain ⟨hx, hnext⟩ := getElem?_of_drop hdrop
    by_cases heq : n = c
    · subst heq
      rw [hx] at hget
      cases hget
      exact ⟨hcut.1, hcut.2.1⟩
    · exact ih hcut.2.2 hnext (by omega)

section
variable {fs : Erofs} {chunksz size : ℕ} {all : List Chunk} (hpos : 0 < chunksz)
  (hin : InImage fs all)
include hpos hin

/-- The ranges of a file without holes hold the bytes of its chunks. -/
theorem ranges_at {c : ℕ} {rest : List Chunk} (hcut : Cut chunksz size c rest) (hdrop : all.drop c = rest)
    (hmapped : ∀ chunk ∈ rest, chunk.hole = false) :
    let bytes := rest.flatMap fun chunk => (fs.view.drop chunk.pa).take chunk.llen
    At (fun p => (.ok (fs.chunkByte chunksz all p) : Except Fault UInt8)) (c * chunksz) bytes ∧
      bytes.length = size - c * chunksz := by
  induction rest generalizing c with
  | nil =>
    have hle : size ≤ c * chunksz := hcut
    constructor
    · exact at_nil _
    · show 0 = size - c * chunksz
      omega
  | cons chunk rest ih =>
    obtain ⟨hget, hnext⟩ := getElem?_of_drop hdrop
    have hfits := hin chunk (List.mem_of_getElem? hget) (hmapped chunk List.mem_cons_self)
    have hlen : ((fs.view.drop chunk.pa).take chunk.llen).length = chunk.llen := by
      rw [List.length_take, List.length_drop]
      omega
    have hfront : At (fun p => (.ok (fs.chunkByte chunksz all p) : Except Fault UInt8)) (c * chunksz)
        ((fs.view.drop chunk.pa).take chunk.llen) := by
      intro i hi
      rw [hlen] at hi
      show Except.ok (fs.chunkByte chunksz all (c * chunksz + i)) = _
      rw [chunkByte_mapped hpos hget (hmapped chunk List.mem_cons_self) hfits hcut.2.1 hi,
        List.getElem_take, List.getElem_drop]
    obtain ⟨hback, hblen⟩ := ih hcut.2.2 hnext fun x hx => hmapped x (List.mem_cons_of_mem _ hx)
    rw [List.flatMap_cons]
    cases hcut.llen_eq with
    | inl hlast =>
      obtain ⟨hnil, hend⟩ := hlast
      rw [hnil, List.flatMap_nil, List.append_nil]
      constructor
      · exact hfront
      · rw [hlen]
        omega
    | inr hwhole =>
      constructor
      · refine at_append.mpr ⟨hfront, ?_⟩
        rw [hlen, hwhole]
        exact hback
      · have hlt := hcut.1
        have hllen := hcut.2.1
        rw [List.length_append, hlen, hblen]
        omega

omit hpos hin in
theorem chunkExts_tiles {c : ℕ} {rest : List Chunk} (hcut : Cut chunksz size c rest)
    (hle : c * chunksz ≤ size) :
    Tiles ZExt.la ZExt.llen (c * chunksz) size (chunkExts (c * chunksz) rest) := by
  induction rest generalizing c with
  | nil => exact Nat.le_antisymm hle hcut
  | cons chunk rest ih =>
    constructor
    · rfl
    · show Tiles ZExt.la ZExt.llen (c * chunksz + chunk.llen) size (chunkExts (c * chunksz + chunk.llen) rest)
      cases hcut.llen_eq with
      | inl hlast =>
        rw [hlast.1, hlast.2]
        rfl
      | inr hwhole =>
        have hlt := hcut.1
        have hllen := hcut.2.1
        rw [hwhole]
        exact ih hcut.2.2 (by omega)

omit hin in
/-- The extent over an offset is that of the chunk over it. -/
theorem chunkExts_find {c : ℕ} {rest : List Chunk} (hcut : Cut chunksz size c rest)
    (hdrop : all.drop c = rest) {p : ℕ} (hlo : c * chunksz ≤ p) (hhi : p < size) :
    ∃ chunk, all[p / chunksz]? = some chunk ∧
      chunk.llen = min chunksz (size - p / chunksz * chunksz) ∧
      (chunkExts (c * chunksz) rest).find? (fun e => decide (p < e.la + e.llen)) =
        some (chunk.ext (p / chunksz * chunksz)) := by
  induction rest generalizing c with
  | nil =>
    have hle : size ≤ c * chunksz := hcut
    omega
  | cons chunk rest ih =>
    obtain ⟨hget, hnext⟩ := getElem?_of_drop hdrop
    have hover := hcut.over hpos hlo hhi
    rw [chunkExts]
    by_cases hhere : p < c * chunksz + chunk.llen
    · have hdiv := hover.mp hhere
      rw [List.find?_cons_of_pos (by exact decide_eq_true hhere), hdiv]
      exact ⟨chunk, hget, hcut.2.1, rfl⟩
    · rw [List.find?_cons_of_neg (by exact fun h => hhere (of_decide_eq_true h))]
      cases hcut.llen_eq with
      | inl hlast => omega
      | inr hwhole =>
        rw [hwhole]
        exact ih hcut.2.2 hnext (by omega)

end

/-! ### Streams -/

/-- A stream whose bytes are all there is read right. -/
theorem streamed_reads {fs : Erofs} {z : Decoders} {plan : ZPlan} {whole : Bytes}
    (htiles : Tiles ZExt.la ZExt.llen 0 plan.size plan.exts) (hat : At (fs.fileByte z plan) 0 whole)
    (hlen : whole.length = plan.size) : (Plan.streamed plan).Reads fs z whole := by
  intro calls
  have hok := @Session.after_ok fs z plan htiles calls
  have hcontent := content_of_full hat hlen
  have hpre : ∀ {out : Bytes}, At (fs.fileByte z plan) 0 out → out.length ≤ plan.size → out <+: whole := by
    intro out hout hle
    have h := prefix_content hout hle
    rwa [hcontent] at h
  constructor
  · apply hpre hok.out_at
    rw [hok.length_out]
    exact hok.follows.pos_le
  · intro m hm
    obtain ⟨hkeeps, hreplies, hend⟩ := read_replies htiles hok.follows hok.sound m
    have hcall := hok.call htiles (.file m)
    have hout : At (fs.fileByte z plan) 0 ((Session.after fs z plan calls).out ++
        gotten ((Session.after fs z plan calls).reader.read fs z plan
          (Session.after fs z plan calls).cache m).1) := hcall.out_at
    have hle : ((Session.after fs z plan calls).out ++
        gotten ((Session.after fs z plan calls).reader.read fs z plan
          (Session.after fs z plan calls).cache m).1).length ≤ plan.size :=
      hcall.length_out.le.trans hcall.follows.pos_le
    by_cases hlt : (Session.after fs z plan calls).reader.pos < plan.size
    · obtain ⟨e, -, -, hlo, hhi, hsize, -, hreply⟩ := hreplies hlt
      cases hread : ((Session.after fs z plan calls).reader.read fs z plan
          (Session.after fs z plan calls).cache m).1 with
      | ok got =>
        rw [hread] at hreply hout hle
        refine ⟨hreply.2.1.trans (Nat.min_le_left _ _), hpre hout hle, fun hnil => ?_⟩
        exact absurd hnil (hreply.1 (by omega))
      | error err =>
        -- no byte of the file is a fault
        rw [hread] at hreply
        obtain ⟨front, -, hfault, hwhich⟩ := hreply
        have hplace : (Session.after fs z plan calls).reader.pos + front.length < whole.length := by
          rw [hlen]
          cases hwhich with
          | inl hnil =>
            rw [hnil]
            exact hlt
          | inr hfatal => omega
        have hbyte := hat _ hplace
        rw [Nat.zero_add, hfault] at hbyte
        cases hbyte
    · have hfull : (Session.after fs z plan calls).out = whole := by
        have hpos := hok.follows.pos_le
        have h := content_of_full hok.out_at (hok.length_out.trans (Nat.le_antisymm hpos (Nat.le_of_not_lt hlt)))
        rw [hcontent] at h
        exact (congrArg Prod.fst h).symm
      rw [hend (Nat.le_of_not_lt hlt)]
      exact ⟨Nat.zero_le _, by rw [hfull, List.append_nil], fun _ => ⟨hfull, rfl⟩⟩

/-- Enough reads bring the whole of it. -/
theorem exists_whole {fs : Erofs} {z : Decoders} {plan : ZPlan} {whole : Bytes}
    (h : (Plan.streamed plan).Reads fs z whole) : ∃ calls, (Session.after fs z plan calls).out = whole := by
  have hfrom : ∀ (left : ℕ) (calls : List Call),
      whole.length - (Session.after fs z plan calls).out.length = left →
      ∃ calls, (Session.after fs z plan calls).out = whole := by
    intro left
    induction left with
    | zero =>
      intro calls hleft
      have hpre := (h calls).1
      exact ⟨calls, hpre.eq_of_length (Nat.le_antisymm hpre.length_le (Nat.le_of_sub_eq_zero hleft))⟩
    | succ left ih =>
      intro calls hleft
      have hnext := (h calls).2 1 Nat.one_pos
      have hstep : (Session.after fs z plan (calls ++ [.file 1])).out =
          (Session.after fs z plan calls).out ++ gotten ((Session.after fs z plan calls).reader.read fs z plan
            (Session.after fs z plan calls).cache 1).1 := by
        rw [Session.after, List.foldl_append]
        rfl
      cases hread : ((Session.after fs z plan calls).reader.read fs z plan
          (Session.after fs z plan calls).cache 1).1 with
      | error e =>
        rw [hread] at hnext
        cases hnext.2.2
      | ok got =>
        rw [hread] at hnext hstep
        cases hgot : got with
        | nil => exact ⟨calls, (hnext.2.2 hgot).1⟩
        | cons b bs =>
          apply ih (calls ++ [.file 1])
          have hlen := hnext.1
          rw [hstep, hgot]
          rw [hgot] at hlen
          show whole.length - ((Session.after fs z plan calls).out ++ b :: bs).length = left
          rw [List.length_append]
          rw [List.length_cons] at hlen ⊢
          omega
  exact hfrom _ [] rfl

/-- So the bytes of a stream that is read right are all there. -/
theorem Reads.at_whole {fs : Erofs} {z : Decoders} {plan : ZPlan} {whole : Bytes}
    (htiles : Tiles ZExt.la ZExt.llen 0 plan.size plan.exts)
    (h : (Plan.streamed plan).Reads fs z whole) : At (fs.fileByte z plan) 0 whole := by
  obtain ⟨calls, hcalls⟩ := exists_whole h
  rw [← hcalls]
  exact (Session.after_ok z htiles calls).out_at

/-! ### The two ways to read -/

section
variable {fs : Erofs} {ino : FullInode} {chunks : List Chunk} (hchunks : fs.chunks ino = .ok chunks)
  (hin : InImage fs chunks)
include hchunks hin

omit hchunks hin in
theorem at_chunkContent (fs : Erofs) (ino : FullInode) (chunks : List Chunk) :
    At (fun p => (.ok (fs.chunkByte (fs.chunkFormat ino).chunksz chunks p) : Except Fault UInt8)) 0
      (fs.chunkContent ino chunks) := by
  intro i hi
  rw [Nat.zero_add]
  simp [Erofs.chunkContent]

omit hchunks hin in
@[simp] theorem length_chunkContent (fs : Erofs) (ino : FullInode) (chunks : List Chunk) :
    (fs.chunkContent ino chunks).length = ino.size := by
  rw [Erofs.chunkContent, List.length_map, List.length_range]

/-- **A file without holes reads right**, at any offset. -/
theorem ranged_reads (z : Decoders) (hmapped : ∀ chunk ∈ chunks, chunk.hole = false) :
    (Plan.ranged (chunks.map fun c => (c.pa, c.llen))).Reads fs z (fs.chunkContent ino chunks) := by
  intro v hv n off
  obtain ⟨hat, hlen⟩ := ranges_at (fs.chunkFormat ino).chunksz_pos hin (fs.chunks_cut hchunks)
    List.drop_zero hmapped
  rw [Nat.zero_mul] at hat hlen
  have hcontent : (v.slice (chunks.map fun c => (c.pa, c.llen))).content = fs.chunkContent ino chunks := by
    rw [View.content_slice, List.flatMap_map, hv]
    have hwhole := content_of_full hat hlen
    rw [Nat.sub_zero] at hwhole
    have hspec := content_of_full (at_chunkContent fs ino chunks) (length_chunkContent fs ino chunks)
    rw [hwhole] at hspec
    exact congrArg Prod.fst hspec
  rw [View.readFullAt_eq, hcontent]

/-- The byte of a streamed file at an offset, where its chunk can be decoded. -/
theorem chunk_fileByte (z : Decoders) {p : ℕ} (hp : p < ino.size) :
    ∃ chunk ∈ chunks, chunks[p / (fs.chunkFormat ino).chunksz]? = some chunk ∧
      (chunk.hole = false → pclusterMaxSize < chunk.llen →
        fs.fileByte z ⟨ino.size, chunkExts 0 chunks⟩ p = .error (.error "implausible pcluster")) ∧
      ((chunk.hole = false → chunk.llen ≤ pclusterMaxSize) →
        fs.fileByte z ⟨ino.size, chunkExts 0 chunks⟩ p =
          .ok (fs.chunkByte (fs.chunkFormat ino).chunksz chunks p)) := by
  have hpos := (fs.chunkFormat ino).chunksz_pos
  set sz := (fs.chunkFormat ino).chunksz with hsz
  obtain ⟨chunk, hget, hllen, hfind⟩ := chunkExts_find hpos (fs.chunks_cut hchunks) List.drop_zero
    (by rw [Nat.zero_mul]; exact Nat.zero_le p) hp
  rw [Nat.zero_mul] at hfind
  have hmem := List.mem_of_getElem? hget
  have hrem : p / sz * sz + p % sz = p := Nat.div_add_mod' p sz
  have hlt : p % sz < sz := Nat.mod_lt p hpos
  have hbyte : fs.fileByte z ⟨ino.size, chunkExts 0 chunks⟩ p =
      fs.extByte z (fs.packedByte z) (chunk.ext (p / sz * sz)) p := by
    rw [Erofs.fileByte, ZPlan.extAt, hfind]
    rfl
  refine ⟨chunk, hmem, hget, fun hmapped hlong => ?_, fun hshort => ?_⟩
  · rw [hbyte, Chunk.ext_mapped hmapped]
    show byteOf (fs.decodeRaw z chunk.pa chunk.llen chunk.llen .shifted false) _ = _
    rw [Erofs.decodeRaw, ensure, if_neg (by omega)]
    rfl
  · rw [hbyte, Erofs.chunkByte, hget]
    cases hhole : chunk.hole with
    | true =>
      rw [Chunk.ext_hole hhole]
      show Except.ok 0 = .ok (if chunk.hole then 0 else fs.view.getD (chunk.pa + p % sz) 0)
      rw [if_pos hhole]
    | false =>
      have hfits := hin chunk hmem hhole
      have hmax := hshort hhole
      have hdmax : pclusterMaxSize ≤ pclusterMaxDsize := by decide
      have hread : readExactAt fs.view chunk.llen chunk.pa = .ok ((fs.view.drop chunk.pa).take chunk.llen) := by
        rw [readExactAt, if_pos]
        rw [List.length_take, List.length_drop]
        omega
      rw [Chunk.ext_mapped hhole]
      show byteOf (fs.decodeRaw z chunk.pa chunk.llen chunk.llen .shifted false) (p - p / sz * sz) =
        .ok (if chunk.hole then 0 else fs.view.getD (chunk.pa + p % sz) 0)
      rw [if_neg (by rw [hhole]; exact Bool.false_ne_true)]
      have hensure : ensure (chunk.llen ≤ pclusterMaxSize ∧ chunk.llen ≤ pclusterMaxDsize)
          "implausible pcluster" = .ok () := if_pos ⟨hmax, hmax.trans hdmax⟩
      have hwithin : p - p / sz * sz = p % sz := by omega
      rw [Erofs.decodeRaw, hensure, hread, hwithin]
      show byteOf (.ok (((fs.view.drop chunk.pa).take chunk.llen).take chunk.llen)) (p % sz) =
        .ok (fs.view.getD (chunk.pa + p % sz) 0)
      rw [List.take_take, Nat.min_self, byteOf, List.getElem?_take_of_lt (by omega), List.getElem?_drop,
        List.getElem?_eq_getElem (by omega), List.getD_eq_getElem _ _ (by omega)]
      rfl

/-- **A file with a hole reads right just when its mapped chunks are short enough to decode.** -/
theorem streamed_reads_iff (z : Decoders) :
    (Plan.streamed ⟨ino.size, chunkExts 0 chunks⟩).Reads fs z (fs.chunkContent ino chunks) ↔
      ∀ chunk ∈ chunks, chunk.hole = false → chunk.llen ≤ pclusterMaxSize := by
  have hpos := (fs.chunkFormat ino).chunksz_pos
  have hcut := fs.chunks_cut hchunks
  have htiles : Tiles ZExt.la ZExt.llen 0 ino.size (chunkExts 0 chunks) := by
    have h := chunkExts_tiles hcut (by rw [Nat.zero_mul]; exact Nat.zero_le _)
    rwa [Nat.zero_mul] at h
  constructor
  · intro h chunk hmem hmapped
    have hat := Reads.at_whole htiles h
    apply le_of_not_gt
    intro hlong
    obtain ⟨c, hc, hget⟩ := List.getElem_of_mem hmem
    -- the byte where the chunk begins
    obtain ⟨hlt, hllen⟩ := chunk_llen hcut (List.drop_zero) (Nat.zero_le c)
      (List.getElem?_eq_getElem hc)
    rw [hget] at hllen
    obtain ⟨chunk', -, hover, hfault, -⟩ := chunk_fileByte hchunks hin z hlt
    rw [Nat.mul_div_cancel c hpos, List.getElem?_eq_getElem hc, hget] at hover
    cases hover
    have hbyte := hat (c * (fs.chunkFormat ino).chunksz) (by rwa [length_chunkContent])
    rw [Nat.zero_add, hfault hmapped hlong] at hbyte
    cases hbyte
  · intro hshort
    refine streamed_reads htiles (fun p hp => ?_) (length_chunkContent fs ino chunks)
    rw [length_chunkContent] at hp
    obtain ⟨chunk, hmem, -, -, hbyte⟩ := chunk_fileByte hchunks hin z hp
    have hspec := at_chunkContent fs ino chunks p (by rwa [length_chunkContent])
    rw [Nat.zero_add] at hspec ⊢
    rw [hbyte (hshort chunk hmem)]
    exact hspec

end

/-- **A chunk-based file is read right, in either representation, just when it has no hole or none of its
mapped chunks is too long to be decoded.** -/
theorem chunked_reads_iff (fs : Erofs) (z : Decoders) (ino : FullInode) (chunks : List Chunk) (plan : Plan)
    (hchunks : fs.chunks ino = .ok chunks) (hplan : fs.planChunked ino = .ok plan)
    (hin : InImage fs chunks) :
    plan.Reads fs z (fs.chunkContent ino chunks) ↔
      (∀ chunk ∈ chunks, chunk.hole = false) ∨
        ∀ chunk ∈ chunks, chunk.hole = false → chunk.llen ≤ pclusterMaxSize := by
  rw [Erofs.planChunked, hchunks] at hplan
  replace hplan : (if chunks.any Chunk.hole then Except.ok (Plan.streamed ⟨ino.size, chunkExts 0 chunks⟩)
    else .ok (.ranged (chunks.map fun c => (c.pa, c.llen)))) = .ok plan := hplan
  by_cases hhole : chunks.any Chunk.hole = true
  · rw [if_pos hhole] at hplan
    cases hplan
    rw [streamed_reads_iff hchunks hin]
    constructor
    · exact .inr
    · intro h
      cases h with
      | inl hnone =>
        obtain ⟨chunk, hmem, hchunk⟩ := List.any_eq_true.mp hhole
        rw [hnone chunk hmem] at hchunk
        cases hchunk
      | inr hshort => exact hshort
  · rw [if_neg hhole] at hplan
    cases hplan
    have hnone : ∀ chunk ∈ chunks, chunk.hole = false := by
      intro chunk hmem
      exact Bool.eq_false_iff.mpr fun h => hhole (List.any_eq_true.mpr ⟨chunk, hmem, h⟩)
    exact iff_of_true (ranged_reads hchunks hin z hnone) (.inl hnone)

/-- An image that begins with a chunk-based inode of two chunks: a hole, and one that is mapped from block
1 on.  A chunk is 32 blocks. -/
def holeFs (b : ℕ) (h : 9 ≤ b ∧ b ≤ 16) (size n : ℕ) : Erofs where
  view := [8, 0, 0, 0, 0xA4, 0x81, 0, 0] ++ BitArray.leBytes 4 size ++ List.replicate 4 0 ++ [5, 0, 0, 0] ++
    List.replicate 12 0 ++ [255, 255, 255, 255, 1, 0, 0, 0] ++ List.replicate n 0
  blkszbits := b
  metaBase := 0
  packedNid := 0
  bits := h

def holeInode (size : ℕ) : FullInode := ⟨⟨0, 32, 0, size, 4⟩, 0o100644, 5⟩

/-- Chunks of 2 MiB, of which the second one has a byte more than 1 MiB. -/
def longFs : Erofs := holeFs 16 (by decide) 3145729 1200000

def longChunks : List Chunk := [⟨281474976645120, 2097152, true⟩, ⟨65536, 1048577, false⟩]

theorem longFs_inImage : InImage longFs longChunks := by
  intro chunk hmem hmapped
  have hlen : longFs.view.length = 1200040 := by
    simp only [longFs, holeFs, List.length_append, List.length_replicate, List.length_cons,
      List.length_nil, BitArray.length_leBytes]
  cases List.mem_cons.mp hmem with
  | inl heq =>
    rw [heq] at hmapped
    cases hmapped
  | inr hmem =>
    rw [List.mem_singleton.mp hmem, hlen]
    show 65536 + 1048577 ≤ 1200040
    decide

theorem long_chunk_with_hole :
    longFs.fullInode 0 = .ok (holeInode 3145729) ∧ longFs.chunks (holeInode 3145729) = .ok longChunks ∧
      longFs.planChunked (holeInode 3145729) = .ok (.streamed ⟨3145729, chunkExts 0 longChunks⟩) ∧
      InImage longFs longChunks ∧
      ∀ z, ¬ (Plan.streamed ⟨3145729, chunkExts 0 longChunks⟩).Reads longFs z
        (longFs.chunkContent (holeInode 3145729) longChunks) := by
  have hchunks : longFs.chunks (holeInode 3145729) = .ok longChunks := by decide +kernel
  refine ⟨by decide +kernel, hchunks, by decide +kernel, longFs_inImage, fun z hreads => ?_⟩
  have hshort := (streamed_reads_iff hchunks longFs_inImage z).mp hreads
    ⟨65536, 1048577, false⟩ (by decide) rfl
  exact absurd hshort (by decide)

/-- The same with chunks of 16 KiB is fine. -/
def shortFs : Erofs := holeFs 9 smallestBlock_bits 16484 600

theorem chunked_reads_iff_short :
    (Plan.streamed ⟨16484, chunkExts 0 [⟨2199023255040, 16384, true⟩, ⟨512, 100, false⟩]⟩).Reads shortFs
      noDecoders (shortFs.chunkContent (holeInode 16484) [⟨2199023255040, 16384, true⟩, ⟨512, 100, false⟩]) := by
  have hin : InImage shortFs [⟨2199023255040, 16384, true⟩, ⟨512, 100, false⟩] := by decide +kernel
  exact (chunked_reads_iff shortFs noDecoders (holeInode 16484)
    [⟨2199023255040, 16384, true⟩, ⟨512, 100, false⟩] _ (by decide +kernel) (by decide +kernel) hin).mpr
    (.inr (by decide))

end Hashdex.Zmap
