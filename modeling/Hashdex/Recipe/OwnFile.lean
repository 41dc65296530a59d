import Hashdex.Erofs.Layout
import Hashdex.Recipe.Cutting
import Hashdex.Recipe.Planner

/-!
# Planning one partly packed file

`planOwnFile` reads a file back through a window that slides along it, hashing what passes, and re-encodes
or splices each of the file's own pclusters from the window.  Nothing is emitted unless the digest of the
member comes back.

* `fill_spec`: reading ahead
* `ownPcluster_spec`, `ownPclusters_spec`: what one pcluster adds, and what they all add
* `planOwnFile_exact`: what is hashed is the file, and what is emitted is cut out of the member
-/

namespace Hashdex

open Zmap Serving Tiling Windows

/-! ### The shared image -/

/-- An image being planned, with the decoders, the encoder and the hash. -/
structure ImgCtx where
  fs : Erofs
  z : Decoders
  encode : MicrolzmaEncoder
  sha256 : Bytes → Bytes
  dictSize : UInt32

/-- What the workers of other files do to what all of them share, each time this one comes to it: reads of
the packed inode, and a change of the preset the image is known to use. -/
structure Others where
  reads : ℕ → List (ℕ × ℕ)
  preset : ℕ → Option UInt32 → Option UInt32

/-- No other worker. -/
def Others.none : Others := ⟨fun _ => [], fun _ p => p⟩

/-- The cache after reads of the packed inode. -/
def ImgCtx.cacheAfter (ctx : ImgCtx) (reads : List (ℕ × ℕ)) (cache : PackedCache) : PackedCache :=
  reads.foldl (fun cache r => (ctx.fs.packedRead ctx.z cache r.1 r.2).2) cache

theorem ImgCtx.cacheAfter_sound (ctx : ImgCtx) (reads : List (ℕ × ℕ)) {cache : PackedCache}
    (h : cache.Sound ctx.fs ctx.z) : (ctx.cacheAfter reads cache).Sound ctx.fs ctx.z := by
  induction reads generalizing cache with
  | nil => exact h
  | cons r reads ih => exact ih (packedRead_replies h r.1 r.2).1

/-! ### The window -/

/-- A file being read back. -/
structure FileStream where
  reader : ZReader
  cache : PackedCache
  preset : Option UInt32
  /-- How often the shared state has been used. -/
  ticks : ℕ
  /-- What the hasher has seen. -/
  hashed : Bytes
  window : Bytes
  /-- `at`: the logical offset of the window. -/
  base : ℕ

def FileStream.start (cache : PackedCache) (preset : Option UInt32) : FileStream :=
  ⟨.start, cache, preset, 0, [], [], 0⟩

/-- What a read of so many bytes does to the window. -/
def FileStream.push (s : FileStream) (got : Bytes) (reader : ZReader) (cache : PackedCache) : FileStream :=
  { s with reader, cache, ticks := s.ticks + 1, hashed := s.hashed ++ got, window := s.window ++ got }

/-- `fill`. -/
def fill (ctx : ImgCtx) (others : Others) (plan : ZPlan) (want : ℕ) (s : FileStream) :
    Except Fault FileStream :=
  if s.base + s.window.length < want then
    match s.reader.read ctx.fs ctx.z plan (ctx.cacheAfter (others.reads s.ticks) s.cache) (2 ^ 16) with
    | (.error e, _, _) => .error e
    | (.ok [], reader, cache) => .ok (s.push [] reader cache)
    | (.ok (b :: got), reader, cache) => fill ctx others plan want (s.push (b :: got) reader cache)
  else .ok s
termination_by want - (s.base + s.window.length)
decreasing_by
  simp only [FileStream.push, List.length_append, List.length_cons]
  omega

/-- A subtraction that panics below zero. -/
def checkedSub (a b : ℕ) : Except Fault ℕ := if b ≤ a then .ok (a - b) else .error .panic

theorem checkedSub_of_le {a b : ℕ} (h : b ≤ a) : checkedSub a b = .ok (a - b) := if_pos h

/-- Drop what lies before a place of the file, as far as it has been read. -/
def FileStream.dropTo (s : FileStream) (keep : ℕ) : FileStream :=
  if s.base < keep then
    let drop := min (keep - s.base) s.window.length
    { s with window := s.window.drop drop, base := s.base + drop }
  else s

/-! ### One pcluster -/

/-- `read_stored`. -/
def readStored (view : Bytes) (pc : PCluster) : Except Fault Bytes :=
  let stored := (view.drop pc.pa).take pc.plen
  if stored.length = pc.plen then .ok stored else .error (.error s!"truncated pcluster at {pc.pa}")

/-- How a stored pcluster ends up. -/
inductive Outcome where
  | verified
  | mismatch
  | margin
  | verbatim
  /-- Covered, but by runs too short to be worth a slice. -/
  | thin
  | rotated
  | notVerbatim
  deriving DecidableEq

def PcStats.count (st : PcStats) : Outcome → PcStats
  | .verified => { st with verified := st.verified + 1 }
  | .mismatch => { st with mismatch := st.mismatch + 1 }
  | .margin => { st with margin := st.margin + 1 }
  | .verbatim => { st with verbatim := st.verbatim + 1 }
  | .thin => { st with thin := st.thin + 1 }
  | .rotated => { st with rotated := st.rotated + 1 }
  | .notVerbatim => { st with notVerbatim := st.notVerbatim + 1 }

/-- The pclusters of all buckets that an outcome falls into. -/
def PcStats.handled (st : PcStats) : ℕ :=
  st.verified + st.verbatim + st.rotated + st.notVerbatim + st.thin + st.mismatch + st.margin

/-- The tally after some outcomes. -/
def PcStats.counts (st : PcStats) (outcomes : List Outcome) : PcStats := outcomes.foldl PcStats.count st

/-- Each outcome falls into one bucket. -/
theorem PcStats.handled_counts (st : PcStats) (outcomes : List Outcome) :
    (st.counts outcomes).handled = st.handled + outcomes.length := by
  induction outcomes generalizing st with
  | nil => rfl
  | cons o rest ih =>
    have hone : (st.count o).handled = st.handled + 1 := by
      cases o <;> simp only [PcStats.handled, PcStats.count] <;> omega
    rw [PcStats.counts, List.foldl_cons, ← PcStats.counts, ih, hone, List.length_cons]
    omega

/-- A pcluster that is stored uncompressed: the stored bytes must be the logical ones, or those turned. -/
def splicePlain (pc : PCluster) (logical stored : Bytes) (covers : List Cover) : Outcome × List Seg :=
  if logical.length ≤ stored.length ∧ stored.take logical.length = logical then
    let segs := spliceVerbatim pc logical.length covers
    (if segs ≠ [] then .verbatim else .thin, segs)
  else
    let segs := spliceRotated pc logical stored covers
    (if segs ≠ [] then .rotated else .notVerbatim, segs)

/-- A node with its preset, or why there is none. -/
inductive Encoded where
  | made (node : PClusterNode) (preset : UInt32)
  | mismatch
  | margin
  deriving DecidableEq

def Encoded.outcome : Encoded → Outcome
  | .made _ _ => .verified
  | .mismatch => .mismatch
  | .margin => .margin

/-- What the arms of the match on `plan_pcluster` come to, with the literals spooled; only a panic is
passed on. -/
def encoded (spool : Bytes) :
    Except Fault (Option (PClusterNode × UInt32) × Bytes) → Except Fault (Encoded × Bytes)
  | .ok (some (node, p), spool) => .ok (.made node p, spool)
  | .ok (none, spool) => .ok (.mismatch, spool)
  | .error .panic => .error .panic
  | .error (.error message) =>
    .ok (if message = marginShort then .margin else .mismatch, spool)
  | .error .unknownNode => .ok (.mismatch, spool)

/-- The state of the loop over a file's pclusters. -/
structure OwnState extends FileStream where
  nodes : List (PClusterNode × ℕ)
  segs : List Seg
  stats : PcStats
  spool : Bytes

/-- How a loop over pclusters can end early. -/
inductive Stop (σ : Type) where
  /-- Something it reads or decodes is at fault. -/
  | fault (e : Fault)
  /-- An index or a subtraction of its own is out of range. -/
  | range
  /-- It leaves off, with so much to tell. -/
  | early (why : σ)

def faulty {σ α : Type} : Except Fault α → Except (Stop σ) α
  | .ok a => .ok a
  | .error e => .error (.fault e)

def inRange {σ α : Type} : Except Fault α → Except (Stop σ) α
  | .ok a => .ok a
  | .error _ => .error .range

theorem faulty_bind_eq_ok {σ α β : Type} {x : Except Fault α} {f : α → Except (Stop σ) β} {b : β} :
    (faulty x >>= f) = .ok b ↔ ∃ a, x = .ok a ∧ f a = .ok b := by
  cases x with
  | error e => exact ⟨nofun, fun ⟨_, h, _⟩ => nomatch h⟩
  | ok a => exact ⟨fun h => ⟨a, rfl, h⟩, fun ⟨_, h, hb⟩ => Except.ok.inj h ▸ hb⟩

theorem inRange_bind_eq_ok {σ α β : Type} {x : Except Fault α} {f : α → Except (Stop σ) β} {b : β} :
    (inRange x >>= f) = .ok b ↔ ∃ a, x = .ok a ∧ f a = .ok b := by
  cases x with
  | error e => exact ⟨nofun, fun ⟨_, h, _⟩ => nomatch h⟩
  | ok a => exact ⟨fun h => ⟨a, rfl, h⟩, fun ⟨_, h, hb⟩ => Except.ok.inj h ▸ hb⟩

/-- "Extents out of order" comes with the tally. -/
abbrev OwnStop := Stop PcStats

/-- The whole member is the cover. -/
def ownCovers (idx size : ℕ) : List Cover := [⟨idx, 0, 0, size, true⟩]

/-- A compressed pcluster, from what the window holds of it and past it. -/
def encodeOwn (ctx : ImgCtx) (others : Others) (idx size : ℕ) (pc : PCluster) (want lo : ℕ) (stored : Bytes)
    (s : OwnState) : Except OwnStop OwnState := do
  let known := others.preset s.ticks s.preset
  let bytes ← inRange (slice s.window lo s.window.length)
  let feed : Feed := ⟨bytes, want ≤ s.base + s.window.length⟩
  let out ← inRange (encoded s.spool
    (planPcluster ctx.encode ctx.sha256 pc stored feed (ownCovers idx size) known ctx.dictSize s.spool))
  match out with
  | (.made node p, spool) =>
    .ok { s with
      ticks := s.ticks + 1
      preset := some p
      nodes := s.nodes ++ [(node, pc.pa)]
      stats := s.stats.count .verified
      spool }
  | (other, spool) =>
    .ok { s with ticks := s.ticks + 1, preset := known, stats := s.stats.count other.outcome, spool }

/-- A pcluster stored uncompressed. -/
def spliceOwn (idx size : ℕ) (pc : PCluster) (lo : ℕ) (stored : Bytes) (s : OwnState) :
    Except OwnStop OwnState := do
  let room ← inRange (checkedSub s.window.length lo)
  let logical ← inRange (slice s.window lo (lo + min pc.llen room))
  let out := splicePlain pc logical stored (ownCovers idx size)
  .ok { s with segs := s.segs ++ out.2, stats := s.stats.count out.1 }

/-- A pcluster with its stored bytes. -/
def ownStored (ctx : ImgCtx) (others : Others) (idx size : ℕ) (pc : PCluster) (want lo : ℕ) (stored : Bytes)
    (s : OwnState) : Except OwnStop OwnState :=
  if pc.lzma then encodeOwn ctx others idx size pc want lo stored s
  else spliceOwn idx size pc lo stored s

/-- The tally of a file whose nodes and splices are dropped. -/
def PcStats.refused (st : PcStats) : PcStats :=
  { st with
    verified := 0
    verbatim := 0
    rotated := 0
    thin := 0
    unverifiedMembers := st.unverifiedMembers + 1 }

/-- A pcluster, once the window reaches as far as it may need. -/
def ownRead (ctx : ImgCtx) (others : Others) (idx size : ℕ) (pc : PCluster) (want : ℕ) (s : OwnState) :
    Except OwnStop OwnState :=
  if pc.la < s.base then .error (.early s.stats.refused)
  else do
    let lo ← inRange (checkedSub pc.la s.base)
    if s.window.length ≤ lo then .ok s
    else do
      let stored ← faulty (readStored ctx.fs.view pc)
      let s ← ownStored ctx others idx size pc want lo stored s
      .ok { s with toFileStream := s.dropTo (pc.la + pc.llen) }

/-- The body of the loop. -/
def ownPcluster (ctx : ImgCtx) (others : Others) (plan : ZPlan) (idx size : ℕ) (s : OwnState) (pc : PCluster) :
    Except OwnStop OwnState := do
  let want := pc.la + pc.llen + encodeMargin
  let stream ← faulty (fill ctx others plan want s.toFileStream)
  ownRead ctx others idx size pc want { s with toFileStream := stream }

def ownPclusters (ctx : ImgCtx) (others : Others) (plan : ZPlan) (idx size : ℕ) :
    List PCluster → OwnState → Except OwnStop OwnState
  | [], s => .ok s
  | pc :: pcs, s => do
    let s ← ownPcluster ctx others plan idx size s pc
    ownPclusters ctx others plan idx size pcs s

/-- The loop, and the rest of the member. -/
def ownRun (ctx : ImgCtx) (others : Others) (plan : ZPlan) (idx size : ℕ) (cache : PackedCache)
    (preset : Option UInt32) : Except OwnStop OwnState := do
  let s ← ownPclusters ctx others plan idx size plan.ownPclusters
    ⟨.start cache preset, [], [], .zero, []⟩
  let stream ← faulty (fill ctx others plan (2 ^ 64 - 1) s.toFileStream)
  .ok { s with toFileStream := stream }

def refusedFile (idx : ℕ) (stats : PcStats) : PlannedFile := ⟨idx, [], [], stats, false⟩

/-- `plan_own_file`, for a member with a size and a digest. -/
def planOwnFile (ctx : ImgCtx) (others : Others) (plan : Zmap.Plan) (idx size : ℕ) (digest : Bytes)
    (cache : PackedCache) (preset : Option UInt32) : Except Fault PlannedFile :=
  match plan with
  | .ranged _ => .ok (refusedFile idx .zero)
  | .streamed zp =>
    match ownRun ctx others zp idx size cache preset with
    | .error (.fault e) => .error e
    | .error .range => .error .panic
    | .error (.early stats) => .ok (refusedFile idx stats)
    | .ok s =>
      if ctx.sha256 s.hashed = digest then .ok ⟨idx, s.nodes, s.segs, s.stats, true⟩
      else .ok (refusedFile idx s.stats.refused)

/-! ### Reading ahead -/

/-- The window is what has been hashed from its base on, and the reader is at its end. -/
structure FileStream.Ok (ctx : ImgCtx) (plan : ZPlan) (s : FileStream) : Prop where
  session : (⟨s.reader, s.cache, s.hashed⟩ : Zmap.Session).Ok ctx.fs ctx.z plan
  base_le : s.base ≤ s.hashed.length
  window : s.window = s.hashed.drop s.base

namespace FileStream.Ok

variable {ctx : ImgCtx} {plan : ZPlan} {s : FileStream}

theorem stop_eq (h : s.Ok ctx plan) : s.base + s.window.length = s.hashed.length := by
  have hle := h.base_le
  rw [h.window, List.length_drop]
  omega

theorem length_le (h : s.Ok ctx plan) : s.hashed.length ≤ plan.size :=
  h.session.length_out.le.trans h.session.follows.pos_le

/-- At the end of the file it is all hashed. -/
theorem streamed_eq (h : s.Ok ctx plan) (hend : plan.size ≤ s.hashed.length) :
    ctx.fs.streamed ctx.z plan = .ok s.hashed :=
  streamed_of_full h.session.out_at (Nat.le_antisymm h.length_le hend)

theorem start {cache : PackedCache} (hsound : cache.Sound ctx.fs ctx.z) (preset : Option UInt32) :
    (FileStream.start cache preset).Ok ctx plan where
  session :=
    { follows := ZReader.start_follows ctx.fs ctx.z plan
      sound := hsound
      length_out := rfl
      out_at := at_nil 0 }
  base_le := Nat.le_refl 0
  window := rfl

/-- **One read**: it moves the end of the window on, or there is a fault, which is that of the file. -/
theorem read (htiles : Tiles ZExt.la ZExt.llen 0 plan.size plan.exts) (h : s.Ok ctx plan)
    (reads : List (ℕ × ℕ)) :
    match s.reader.read ctx.fs ctx.z plan (ctx.cacheAfter reads s.cache) (2 ^ 16) with
    | (.error e, _, _) => ctx.fs.streamed ctx.z plan = .error e
    | (.ok got, reader, cache) =>
      (s.push got reader cache).Ok ctx plan ∧ (got = [] → plan.size ≤ s.hashed.length) := by
  have hsession : (⟨s.reader, ctx.cacheAfter reads s.cache, s.hashed⟩ : Zmap.Session).Ok ctx.fs ctx.z plan :=
    { h.session with sound := ctx.cacheAfter_sound reads h.session.sound }
  have hcall := hsession.call htiles (.file (2 ^ 16))
  obtain ⟨-, hreplies, hend⟩ := read_replies htiles hsession.follows hsession.sound (2 ^ 16)
  have hpos : s.hashed.length = s.reader.pos := h.session.length_out
  have hle := h.length_le
  dsimp only [Zmap.Session.call] at hcall hreplies hend
  revert hcall hreplies hend
  cases s.reader.read ctx.fs ctx.z plan (ctx.cacheAfter reads s.cache) (2 ^ 16) with
  | mk a next =>
    obtain ⟨reader, cache⟩ := next
    intro hcall hreplies hend
    cases a with
    | error e =>
      by_cases hlt : s.reader.pos < plan.size
      · obtain ⟨x, -, -, hlo, hhi, hsize, -, front, hfront, hfault, hwhich⟩ := hreplies hlt
        have hflen : front.length < x.llen - (s.reader.pos - x.la) := by
          cases hwhich with
          | inl hnil =>
            rw [hnil]
            show 0 < _
            omega
          | inr hfatal => omega
        have hat : At (ctx.fs.fileByte ctx.z plan) 0 (s.hashed ++ front) := by
          refine at_append.mpr ⟨h.session.out_at, ?_⟩
          rwa [Nat.zero_add, hpos]
        show ctx.fs.streamed ctx.z plan = .error e
        apply streamed_of_fault hat
        · rw [List.length_append]
          omega
        · rwa [List.length_append, hpos]
      · cases hend (Nat.le_of_not_lt hlt)
    | ok got =>
      constructor
      · constructor
        · exact hcall
        · show s.base ≤ (s.hashed ++ got).length
          rw [List.length_append]
          exact h.base_le.trans (Nat.le_add_right _ _)
        · show s.window ++ got = (s.hashed ++ got).drop s.base
          rw [List.drop_append_of_le_length h.base_le, h.window]
      · intro hnil
        by_contra hmore
        obtain ⟨x, -, -, hlo, hhi, hsize, -, hne, -⟩ := hreplies (by omega)
        exact hne (by omega) hnil

/-- Dropping moves the base on, to the place or the end of what has been read. -/
theorem dropTo (h : s.Ok ctx plan) (keep : ℕ) :
    (s.dropTo keep).Ok ctx plan ∧ (s.dropTo keep).hashed = s.hashed ∧
      (s.dropTo keep).base = max s.base (min keep s.hashed.length) := by
  have hstop := h.stop_eq
  rw [FileStream.dropTo]
  split_ifs with hkeep
  · refine ⟨⟨h.session, ?_, ?_⟩, rfl, ?_⟩
    · show s.base + min (keep - s.base) s.window.length ≤ s.hashed.length
      omega
    · show s.window.drop _ = s.hashed.drop (s.base + _)
      rw [h.window, List.drop_drop]
    · show s.base + min (keep - s.base) s.window.length = _
      omega
  · refine ⟨h, rfl, ?_⟩
    omega

end FileStream.Ok

/-- **Reading ahead**: the window comes to reach so far, or to the end of the file, and stays where it
begins. -/
theorem fill_spec {ctx : ImgCtx} {plan : ZPlan}
    (htiles : Tiles ZExt.la ZExt.llen 0 plan.size plan.exts) (others : Others) (want : ℕ) {s : FileStream}
    (h : s.Ok ctx plan) :
    match fill ctx others plan want s with
    | .error e => ctx.fs.streamed ctx.z plan = .error e
    | .ok s' => s'.Ok ctx plan ∧ s'.base = s.base ∧ s.hashed <+: s'.hashed ∧
        min want plan.size ≤ s'.hashed.length := by
  induction hn : want - (s.base + s.window.length) using Nat.strong_induction_on generalizing s with
  | _ n ih =>
    rw [fill]
    split_ifs with hmore
    · have hread := h.read htiles (others.reads s.ticks)
      revert hread
      cases s.reader.read ctx.fs ctx.z plan (ctx.cacheAfter (others.reads s.ticks) s.cache) (2 ^ 16) with
      | mk a next =>
        obtain ⟨reader, cache⟩ := next
        intro hread
        cases a with
        | error e => exact hread
        | ok got =>
          obtain ⟨hok, hend⟩ := hread
          cases got with
          | nil =>
            have hsize := hend rfl
            refine ⟨hok, rfl, List.prefix_append _ _, ?_⟩
            show _ ≤ (s.hashed ++ []).length
            rw [List.append_nil]
            omega
          | cons b got =>
            have hlen : (s.push (b :: got) reader cache).window.length =
                s.window.length + (got.length + 1) := by
              show (s.window ++ b :: got).length = _
              rw [List.length_append, List.length_cons]
            have hrest := ih _ (by rw [← hn, hlen]; show want - (s.base + _) < _; omega) hok rfl
            revert hrest
            dsimp only
            cases fill ctx others plan want (s.push (b :: got) reader cache) with
            | error e => exact id
            | ok s' =>
              intro hrest
              obtain ⟨hok', hbase, hpre, hwant⟩ := hrest
              exact ⟨hok', hbase, (List.prefix_append _ _).trans hpre, hwant⟩
    · refine ⟨h, rfl, List.prefix_refl _, ?_⟩
      have hstop := h.stop_eq
      omega

/-! ### One pcluster -/

/-- The node re-encodes the member's bytes from the pcluster's place on, and nothing else, into the bytes
the image stores. -/
structure CutFrom (ctx : ImgCtx) (idx : ℕ) (file : Bytes) (pc : PCluster) (fed : ℕ)
    (n : PClusterNode × ℕ) : Prop where
  pos : 0 < fed
  le : pc.la + fed ≤ file.length
  inputs : n.1.inputs = [.member idx pc.la fed]
  place : n.2 = pc.pa
  rebuilds : ∃ stored out consumed, readStored ctx.fs.view pc = .ok stored ∧ n.1.size = pc.plen ∧
    n.1.sha256 = ctx.sha256 stored ∧
    ctx.encode ((file.drop pc.la).take fed) (n.1.size - n.1.pad) n.1.preset n.1.dictSize =
      .ok (out, consumed) ∧
    padded n.1.pad n.1.size out = stored

/-- What has been emitted for a member is cut out of its bytes. -/
structure OwnState.Exact (ctx : ImgCtx) (idx : ℕ) (pcs : List PCluster) (file : Bytes) (s : OwnState) :
    Prop where
  nodes : ∀ n ∈ s.nodes, ∃ pc ∈ pcs, ∃ fed, CutFrom ctx idx file pc fed n
  segs : ∀ seg ∈ s.segs, seg.Slices [idx] ∧ seg.Places (fun _ => file) ctx.fs.view

theorem readStored_length {view stored : Bytes} {pc : PCluster} (h : readStored view pc = .ok stored) :
    stored.length = pc.plen := by
  rw [readStored] at h
  split_ifs at h with hlen
  cases h
  exact hlen

/-- The stored bytes as a range of the image. -/
theorem sameRange_readStored {view stored : Bytes} {pc : PCluster} (h : readStored view pc = .ok stored)
    (hpos : 0 < pc.plen) : SameRange stored 0 view pc.pa pc.plen := by
  have hlen := readStored_length h
  rw [readStored] at h
  split_ifs at h with hfull
  have heq : (view.drop pc.pa).take pc.plen = stored := Except.ok.inj h
  refine SameRange.of_take heq.symm ?_
  rw [List.length_take, List.length_drop] at hfull
  omega

/-- The one cover is over all that is fed. -/
theorem cutInputs_own {la fed size : ℕ} (hla : la < size) (hle : la + fed ≤ size) (idx : ℕ)
    (stream spool : Bytes) :
    cutInputs la stream (la + fed) la (ownCovers idx size) spool =
      .ok (if 0 < fed then [.member idx la fed] else [], spool) := by
  have hnone : ∀ p, cutGap la stream p p spool = .ok ([], spool) := fun p =>
    if_neg (Nat.lt_irrefl p)
  have hstop : (⟨idx, 0, 0, size, true⟩ : Cover).stop = size := Nat.zero_add size
  have hlo : max 0 la = la := Nat.zero_max la
  have hhi : min size (la + fed) = la + fed := by omega
  rw [ownCovers, cutInputs, hstop, if_neg (show ¬ size ≤ la by omega)]
  dsimp only
  rw [hlo, hhi]
  by_cases hfed : 0 < fed
  · rw [if_neg (show ¬ la + fed ≤ 0 by omega), if_neg (show ¬ la + fed ≤ la by omega), if_pos hfed, hnone]
    dsimp only
    rw [cutInputs, hnone]
    show Except.ok ([PcInput.member idx (0 + (la - 0)) (la + fed - la)], spool) = _
    rw [Nat.zero_add, Nat.sub_zero, Nat.add_sub_cancel_left]
  · have hzero : fed = 0 := by omega
    subst hzero
    rw [if_neg hfed, Nat.add_zero]
    split_ifs with hbegin hempty
    · exact hnone la
    · rw [cutInputs]
      exact hnone la
    · omega

theorem searchLengths_ne_panic {encode : MicrolzmaEncoder} {stored : Bytes} {feed : Feed}
    {dictSize preset : UInt32} {lengths : List ℕ} {short : Bool} :
    searchLengths encode stored feed dictSize preset lengths short ≠ .error .panic := by
  induction lengths generalizing short with
  | nil =>
    intro hpanic
    cases hpanic
  | cons n rest ih =>
    rw [searchLengths]
    split
    · intro hpanic
      cases hpanic
    · split_ifs
      · exact ih
      · intro hpanic
        cases hpanic
      · exact ih

theorem searchPresets_ne_panic {encode : MicrolzmaEncoder} {llen : ℕ} {stored : Bytes} {feed : Feed}
    {dictSize : UInt32} {presets : List UInt32} {short : Bool} :
    searchPresets encode llen stored feed dictSize presets short ≠ .error .panic := by
  induction presets generalizing short with
  | nil =>
    intro hpanic
    cases hpanic
  | cons p rest ih =>
    rw [searchPresets]
    split
    · next e he =>
      intro hpanic
      cases hpanic
      exact searchLengths_ne_panic he
    · intro hpanic
      cases hpanic
    · exact ih

/-- Cutting what has been fed never indexes past it. -/
theorem planPcluster_ne_panic {encode : MicrolzmaEncoder} {sha256 : Bytes → Bytes} {pc : PCluster}
    {stored : Bytes} {feed : Feed} {covers : List Cover} {known : Option UInt32} {dictSize : UInt32}
    {spool : Bytes} : planPcluster encode sha256 pc stored feed covers known dictSize spool ≠ .error .panic := by
  rw [planPcluster]
  dsimp only
  split_ifs with hpad
  · intro hpanic
    cases hpanic
  · split
    · next e he =>
      intro hpanic
      cases hpanic
      exact searchPresets_ne_panic he
    · split_ifs <;> intro hpanic <;> cases hpanic
    · next p fed hhit =>
      have hfed := (ladder_le (searchPresets_hit hhit).1).1
      obtain ⟨inputs, more, hcut, -⟩ := cutInputs_cut le_rfl (Nat.le_add_right pc.la fed)
        (Nat.add_le_add_left hfed pc.la) covers spool
      rw [hcut]
      dsimp only
      split_ifs <;> intro hpanic <;> cases hpanic

/-- What there is when a node of a file's own pcluster is planned. -/
theorem planPcluster_own {ctx : ImgCtx} {pc : PCluster} {stored file : Bytes} {feed : Feed} {idx : ℕ}
    {known : Option UInt32} {spool spool' : Bytes} {node : PClusterNode} {preset : UInt32}
    (hstored : readStored ctx.fs.view pc = .ok stored) (hla : pc.la < file.length)
    (hfeed : feed.bytes <+: file.drop pc.la)
    (h : planPcluster ctx.encode ctx.sha256 pc stored feed (ownCovers idx file.length) known ctx.dictSize
      spool = .ok (some (node, preset), spool')) :
    ∃ fed, CutFrom ctx idx file pc fed (node, pc.pa) := by
  have hslices := (planPcluster_slices (readStored_length hstored) h).1
  obtain ⟨-, fed, hladder, ⟨out, consumed, hencode, hout⟩, inputs, name, hcut, rfl⟩ :=
    planPcluster_hit h
  have hlen := readStored_length hstored
  have hfed := (ladder_le hladder).1
  have hfeedlen := hfeed.length_le
  rw [List.length_drop] at hfeedlen
  have hle : pc.la + fed ≤ file.length := by omega
  rw [cutInputs_own hla hle] at hcut
  have hinputs : inputs = if 0 < fed then [.member idx pc.la fed] else [] := by
    cases hcut
    rfl
  have hpos : 0 < fed := by
    by_contra hzero
    rw [if_neg hzero] at hinputs
    subst hinputs
    exact hslices.nonempty rfl
  rw [if_pos hpos] at hinputs
  have hbytes : (file.drop pc.la).take fed = feed.bytes.take fed := by
    obtain ⟨tail, htail⟩ := hfeed
    rw [← htail, List.take_append_of_le_length hfed]
  refine ⟨fed, hpos, hle, hinputs, rfl, stored, out, consumed, hstored, rfl, rfl, ?_, ?_⟩
  · rw [hbytes, ← hlen]
    exact hencode
  · show padded _ pc.plen out = stored
    rw [← hlen]
    exact hout

/-- Nothing is spliced over an empty span. -/
theorem spliceSpan_empty (covers : List Cover) (lstart rootAt : ℕ) :
    spliceSpan covers lstart 0 rootAt = [] := by
  rw [spliceSpan_eq, List.map_eq_nil_iff, List.filter_eq_nil_iff]
  intro w hw
  have hwithin := (mem_windows hw).2
  have hat := hwithin.at_le
  have hlt := hwithin.lt
  have hlimit := hwithin.le_limit
  omega

/-- What a member's own pcluster is spliced as is in its place. -/
theorem splicePlain_places {view file stored : Bytes} {pc : PCluster} {logical : Bytes} {idx : ℕ}
    (hstored : readStored view pc = .ok stored) (hle : pc.la + logical.length ≤ file.length)
    (hlogical : (file.drop pc.la).take logical.length = logical)
    (hskip : ∀ skip, pc.interlaceSkip = some skip → skip < pc.plen) :
    ∀ s ∈ (splicePlain pc logical stored (ownCovers idx file.length)).2,
      s.Slices [idx] ∧ s.Places (fun _ => file) view := by
  have hlen := readStored_length hstored
  have hcovers : ∀ c ∈ ownCovers idx file.length, c.Truthful (fun _ => file) file := by
    intro c hc
    rw [List.mem_singleton.mp hc]
    exact SameRange.refl (Nat.zero_add _).le
  have hstream : ∀ n, 0 < n → n ≤ logical.length → SameRange file pc.la logical 0 n := by
    intro n hn hnle
    refine ⟨by omega, by omega, ?_⟩
    rw [List.drop_zero, ← hlogical, List.take_take, Nat.min_eq_left hnle]
  rw [splicePlain]
  split_ifs with hverbatim
  · intro s hs
    replace hs : s ∈ spliceSpan (ownCovers idx file.length) pc.la logical.length pc.pa := hs
    refine ⟨spliceSpan_slices hs, ?_⟩
    by_cases hempty : logical.length = 0
    · rw [hempty, spliceSpan_empty] at hs
      cases hs
    · have hrange := hstream logical.length (by omega) le_rfl
      have himage := (sameRange_readStored hstored (by omega)).part 0 logical.length (by omega)
      have hturn : SameRange logical 0 stored 0 logical.length :=
        ⟨by omega, by omega, by
          rw [List.drop_zero, List.drop_zero, hverbatim.2, List.take_length]⟩
      rw [Nat.add_zero, Nat.add_zero] at himage
      exact (spliceSpan_places hcovers ((hrange.trans hturn).trans himage) hs).1
  · intro s hs
    replace hs : s ∈ spliceRotated pc logical stored (ownCovers idx file.length) := hs
    cases hturn : pc.interlaceSkip with
    | none =>
      rw [spliceRotated, hturn] at hs
      cases hs
    | some skip =>
      by_cases hguard : skip ≠ 0 ∧ logical.length = pc.plen
      · rw [spliceRotated_eq pc hturn hguard.1 hguard.2 hlen] at hs
        split_ifs at hs with hrot
        · have hlt := hskip skip hturn
          obtain ⟨htail, hhead⟩ := rotated_pieces hrot hguard.2 hlen hlt.le
            (hstream pc.plen (by omega) hguard.2.ge) (sameRange_readStored hstored (by omega))
          cases List.mem_append.mp hs with
          | inl hs => exact ⟨spliceSpan_slices hs, (spliceSpan_places hcovers htail hs).1⟩
          | inr hs => exact ⟨spliceSpan_slices hs, (spliceSpan_places hcovers hhead hs).1⟩
        · cases hs
      · rw [spliceRotated, hturn] at hs
        dsimp only at hs
        rw [if_pos (by omega)] at hs
        cases hs

/-- How a pcluster of the file ends up: a compressed one as its encoder has it, any other as its stored
bytes compare with its part of the file. -/
def PCluster.EndsAs (ctx : ImgCtx) (idx : ℕ) (file : Bytes) (pc : PCluster) (o : Outcome) : Prop :=
  if pc.lzma then o = .verified ∨ o = .mismatch ∨ o = .margin
  else ∃ stored, readStored ctx.fs.view pc = .ok stored ∧
    o = (splicePlain pc ((file.drop pc.la).take pc.llen) stored (ownCovers idx file.length)).1

/-- What planning a pcluster does to the state, whatever the rest of the file turns out to be. -/
structure OwnStep (ctx : ImgCtx) (plan : ZPlan) (idx : ℕ) (pcs : List PCluster) (pc : PCluster)
    (s s' : OwnState) : Prop where
  ok : s'.toFileStream.Ok ctx plan
  base_le : s'.base ≤ max s.base (pc.la + pc.llen)
  hashed : s.hashed <+: s'.hashed
  counted : 0 < pc.llen → ∃ o, s'.stats = s.stats.count o ∧
    ∀ file, file.length = plan.size → s'.hashed <+: file → pc.EndsAs ctx idx file o
  exact : ∀ file, file.length = plan.size → s'.hashed <+: file → s.Exact ctx idx pcs file →
    s'.Exact ctx idx pcs file

/-- All that is not a panic is counted. -/
theorem encoded_of_ne_panic (spool : Bytes) {r : Except Fault (Option (PClusterNode × UInt32) × Bytes)}
    (h : r ≠ .error .panic) :
    ∃ e spool', encoded spool r = .ok (e, spool') ∧
      ∀ node p, e = .made node p → r = .ok (some (node, p), spool') := by
  cases r with
  | ok out =>
    obtain ⟨found, spool'⟩ := out
    cases found with
    | none => exact ⟨.mismatch, spool', rfl, nofun⟩
    | some made =>
      refine ⟨.made made.1 made.2, spool', rfl, ?_⟩
      intro node p heq
      cases heq
      rfl
  | error fault =>
    cases fault with
    | panic => exact absurd rfl h
    | unknownNode => exact ⟨.mismatch, spool, rfl, nofun⟩
    | error message =>
      refine ⟨_, spool, rfl, ?_⟩
      split_ifs <;> exact nofun

/-- The window from the pcluster on. -/
theorem FileStream.Ok.slice_window {ctx : ImgCtx} {plan : ZPlan} {s : FileStream} (h : s.Ok ctx plan) {la : ℕ}
    (hbase : s.base ≤ la) {n : ℕ} (hn : la + n ≤ s.hashed.length) :
    slice s.window (la - s.base) (la - s.base + n) = .ok ((s.hashed.drop la).take n) := by
  have hstop := h.stop_eq
  rw [slice, if_pos (by omega), Nat.add_sub_cancel_left, h.window, List.drop_drop,
    Nat.add_sub_cancel' hbase]

section

variable {ctx : ImgCtx} {others : Others} {plan : ZPlan} {idx : ℕ} {pcs : List PCluster} {pc : PCluster}
  {s : OwnState} {stored : Bytes}

/-- A step that leaves the window where it is. -/
theorem OwnStep.still (h : s.toFileStream.Ok ctx plan) {s' : OwnState} {ticks : ℕ} {preset : Option UInt32}
    (hsame : s'.toFileStream = { s.toFileStream with ticks, preset }) {o : Outcome}
    (hstats : s'.stats = s.stats.count o)
    (hends : ∀ file : Bytes, file.length = plan.size → s.hashed <+: file → pc.EndsAs ctx idx file o)
    (hexact : ∀ file : Bytes, file.length = plan.size → s.hashed <+: file → s.Exact ctx idx pcs file →
      s'.Exact ctx idx pcs file) : OwnStep ctx plan idx pcs pc s s' := by
  have hhashed : s'.hashed = s.hashed := by rw [hsame]
  have hbase : s'.base = s.base := by rw [hsame]
  constructor
  · rw [hsame]
    exact ⟨h.session, h.base_le, h.window⟩
  · rw [hbase]
    exact Nat.le_max_left _ _
  · rw [hhashed]
  · rw [hhashed]
    exact fun _ => ⟨o, hstats, hends⟩
  · rw [hhashed]
    exact hexact

theorem encodeOwn_spec (h : s.toFileStream.Ok ctx plan) (hstored : readStored ctx.fs.view pc = .ok stored)
    (hbase : s.base ≤ pc.la) (hla : pc.la < s.hashed.length) (hmem : pc ∈ pcs) (hlzma : pc.lzma = true)
    (want : ℕ) :
    ∃ s', encodeOwn ctx others idx plan.size pc want (pc.la - s.base) stored s = .ok s' ∧
      OwnStep ctx plan idx pcs pc s s' := by
  have hstop := h.stop_eq
  have hsize := h.length_le
  have hslice : slice s.window (pc.la - s.base) s.window.length = .ok (s.hashed.drop pc.la) := by
    have hwindow := h.slice_window hbase (Nat.add_sub_cancel' hla.le).le
    have hend : pc.la - s.base + (s.hashed.length - pc.la) = s.window.length := by omega
    rw [hend] at hwindow
    rw [hwindow, List.take_of_length_le (List.length_drop).le]
  have hlen : (s.hashed.drop pc.la).length = s.hashed.length - pc.la := List.length_drop
  have hends : ∀ e : Encoded, ∀ file : Bytes, pc.EndsAs ctx idx file e.outcome := by
    intro e file
    rw [PCluster.EndsAs, if_pos hlzma]
    cases e with
    | made node p => exact .inl rfl
    | mismatch => exact .inr (.inl rfl)
    | margin => exact .inr (.inr rfl)
  obtain ⟨e, spool, hencoded, hmade⟩ := encoded_of_ne_panic s.spool
    (@planPcluster_ne_panic ctx.encode ctx.sha256 pc stored
      ⟨s.hashed.drop pc.la, want ≤ s.base + s.window.length⟩ (ownCovers idx plan.size)
      (others.preset s.ticks s.preset) ctx.dictSize s.spool)
  rw [encodeOwn, hslice]
  show ∃ s', (inRange (encoded s.spool _) >>= _) = Except.ok s' ∧ _
  rw [hencoded]
  cases e with
  | mismatch =>
    refine ⟨_, rfl, OwnStep.still h rfl (o := .mismatch) rfl (fun file _ _ => hends .mismatch file) ?_⟩
    exact fun file _ _ hs => ⟨hs.nodes, hs.segs⟩
  | margin =>
    refine ⟨_, rfl, OwnStep.still h rfl (o := .margin) rfl (fun file _ _ => hends .margin file) ?_⟩
    exact fun file _ _ hs => ⟨hs.nodes, hs.segs⟩
  | made node p =>
    refine ⟨_, rfl, OwnStep.still h rfl (o := .verified) rfl (fun file _ _ => hends (.made node p) file) ?_⟩
    intro file hfile hpre hs
    constructor
    · intro n hn
      cases List.mem_append.mp hn with
      | inl hold => exact hs.nodes n hold
      | inr hnew =>
        have hfeed : s.hashed.drop pc.la <+: file.drop pc.la := hpre.drop pc.la
        rw [List.mem_singleton.mp hnew]
        have hplan := hmade node p rfl
        rw [← hfile] at hplan
        exact ⟨pc, hmem, planPcluster_own hstored (by omega) hfeed hplan⟩
    · exact hs.segs

theorem spliceOwn_spec (h : s.toFileStream.Ok ctx plan) (hstored : readStored ctx.fs.view pc = .ok stored)
    (hbase : s.base ≤ pc.la) (hread : pc.la + pc.llen ≤ s.hashed.length) (hlzma : pc.lzma = false)
    (hskip : ∀ skip, pc.interlaceSkip = some skip → skip < pc.plen) :
    ∃ s', spliceOwn idx plan.size pc (pc.la - s.base) stored s = .ok s' ∧
      OwnStep ctx plan idx pcs pc s s' := by
  have hstop := h.stop_eq
  have hroom : min pc.llen (s.window.length - (pc.la - s.base)) = pc.llen := by omega
  rw [spliceOwn, checkedSub_of_le (by omega)]
  show ∃ s', (inRange (slice s.window (pc.la - s.base)
    (pc.la - s.base + min pc.llen (s.window.length - (pc.la - s.base)))) >>= _) = Except.ok s' ∧ _
  rw [hroom, h.slice_window hbase hread]
  have hlogical : ∀ file : Bytes, s.hashed <+: file →
      (s.hashed.drop pc.la).take pc.llen = (file.drop pc.la).take pc.llen := by
    intro file hpre
    obtain ⟨tail, rfl⟩ := hpre
    rw [List.drop_append_of_le_length (by omega), List.take_append_of_le_length]
    rw [List.length_drop]
    omega
  refine ⟨_, rfl, OwnStep.still h rfl rfl ?_ ?_⟩
  · intro file hfile hpre
    rw [PCluster.EndsAs, if_neg (by rw [hlzma]; exact Bool.false_ne_true)]
    exact ⟨stored, hstored, by rw [hlogical file hpre, hfile]⟩
  · intro file hfile hpre hs
    have hle := hpre.length_le
    constructor
    · exact hs.nodes
    · intro seg hseg
      cases List.mem_append.mp hseg with
      | inl hold => exact hs.segs seg hold
      | inr hnew =>
        have hlen : ((s.hashed.drop pc.la).take pc.llen).length = pc.llen := by
          rw [List.length_take, List.length_drop]
          omega
        rw [← hfile] at hnew
        refine splicePlain_places hstored ?_ ?_ hskip seg hnew
        · omega
        · rw [hlen, hlogical file hpre]

end

/-- What follows the reading of more of the file. -/
theorem OwnStep.after {ctx : ImgCtx} {plan : ZPlan} {idx : ℕ} {pcs : List PCluster} {pc : PCluster}
    {s s' : OwnState} {stream : FileStream} (hbase : stream.base = s.base) (hhashed : s.hashed <+: stream.hashed)
    (h : OwnStep ctx plan idx pcs pc { s with toFileStream := stream } s') :
    OwnStep ctx plan idx pcs pc s s' where
  ok := h.ok
  base_le := hbase ▸ h.base_le
  hashed := hhashed.trans h.hashed
  counted := h.counted
  exact := fun file hfile hpre hs => h.exact file hfile hpre ⟨hs.nodes, hs.segs⟩

/-- What precedes the dropping of what is behind. -/
theorem OwnStep.drop {ctx : ImgCtx} {plan : ZPlan} {idx : ℕ} {pcs : List PCluster} {pc : PCluster}
    {s s' : OwnState} (h : OwnStep ctx plan idx pcs pc s s') :
    OwnStep ctx plan idx pcs pc s { s' with toFileStream := s'.dropTo (pc.la + pc.llen) } := by
  obtain ⟨hok, hhashed, hbase⟩ := h.ok.dropTo (pc.la + pc.llen)
  have hle := h.base_le
  constructor
  · exact hok
  · show (s'.dropTo _).base ≤ _
    omega
  · show _ <+: (s'.dropTo _).hashed
    rw [hhashed]
    exact h.hashed
  · show _ → ∃ o, _ ∧ ∀ file, _ → (s'.dropTo _).hashed <+: file → _
    rw [hhashed]
    exact h.counted
  · show ∀ file, _ → (s'.dropTo _).hashed <+: file → _
    rw [hhashed]
    intro file hfile hpre hs
    have hexact := h.exact file hfile hpre hs
    exact ⟨hexact.nodes, hexact.segs⟩

/-- A pcluster with its stored bytes. -/
theorem ownStored_spec {ctx : ImgCtx} (others : Others) {plan : ZPlan} {idx : ℕ} {pcs : List PCluster}
    {pc : PCluster} {s : OwnState} {stored : Bytes} (h : s.toFileStream.Ok ctx plan)
    (hstored : readStored ctx.fs.view pc = .ok stored) (hbase : s.base ≤ pc.la)
    (hla : pc.la < s.hashed.length) (hread : pc.la + pc.llen ≤ s.hashed.length) (hmem : pc ∈ pcs)
    (hskip : ∀ skip, pc.interlaceSkip = some skip → skip < pc.plen) (want : ℕ) :
    ∃ s', ownStored ctx others idx plan.size pc want (pc.la - s.base) stored s = .ok s' ∧
      OwnStep ctx plan idx pcs pc s s' := by
  rw [ownStored]
  cases hlzma : pc.lzma with
  | true => exact encodeOwn_spec h hstored hbase hla hmem hlzma want
  | false => exact spliceOwn_spec h hstored hbase hread hlzma hskip

/-- A pcluster whose place the window has come to. -/
theorem ownRead_spec {ctx : ImgCtx} {plan : ZPlan} (others : Others) {idx : ℕ} {pcs : List PCluster}
    {pc : PCluster} {s : OwnState} {want : ℕ} (h : s.toFileStream.Ok ctx plan) (hbase : s.base ≤ pc.la)
    (hsize : pc.la + pc.llen ≤ plan.size) (hwant : pc.la + pc.llen ≤ want)
    (hread : min want plan.size ≤ s.hashed.length) (hmem : pc ∈ pcs)
    (hskip : ∀ skip, pc.interlaceSkip = some skip → skip < pc.plen) :
    match ownRead ctx others idx plan.size pc want s with
    | .error stop => ∃ e, stop = .fault e ∧ readStored ctx.fs.view pc = .error e
    | .ok s' => OwnStep ctx plan idx pcs pc s s' := by
  have hstop := h.stop_eq
  rw [ownRead, if_neg (Nat.not_lt.mpr hbase), checkedSub_of_le hbase]
  dsimp only [inRange, bind, Except.bind]
  by_cases hend : s.window.length ≤ pc.la - s.base
  · rw [if_pos hend]
    -- only a pcluster of no bytes can be at the end of the file
    constructor
    · exact h
    · exact Nat.le_max_left _ _
    · exact List.prefix_refl _
    · intro hpos
      omega
    · exact fun file _ _ hs => hs
  · rw [if_neg hend]
    cases hstored : readStored ctx.fs.view pc with
    | error e => exact ⟨e, rfl, rfl⟩
    | ok stored =>
      obtain ⟨s', hs', hstep⟩ := ownStored_spec others h hstored hbase (by omega) (by omega) hmem
        hskip want
      dsimp only [faulty]
      rw [hs']
      exact hstep.drop

/-- **One pcluster**: it is planned, or its bytes or the file's could not be read. -/
theorem ownPcluster_spec {ctx : ImgCtx} {plan : ZPlan}
    (htiles : Tiles ZExt.la ZExt.llen 0 plan.size plan.exts) (others : Others) (idx : ℕ)
    {pcs : List PCluster} {pc : PCluster} {s : OwnState} (h : s.toFileStream.Ok ctx plan)
    (hbase : s.base ≤ pc.la) (hsize : pc.la + pc.llen ≤ plan.size) (hmem : pc ∈ pcs)
    (hskip : ∀ skip, pc.interlaceSkip = some skip → skip < pc.plen) :
    match ownPcluster ctx others plan idx plan.size s pc with
    | .error stop => ∃ e, stop = .fault e ∧
      (ctx.fs.streamed ctx.z plan = .error e ∨ readStored ctx.fs.view pc = .error e)
    | .ok s' => OwnStep ctx plan idx pcs pc s s' := by
  have hfill := fill_spec htiles others (pc.la + pc.llen + encodeMargin) h
  rw [ownPcluster]
  revert hfill
  cases fill ctx others plan (pc.la + pc.llen + encodeMargin) s.toFileStream with
  | error e => exact fun hfill => ⟨e, rfl, .inl hfill⟩
  | ok stream =>
    intro hfill
    obtain ⟨hok, hsame, hhashed, hwant⟩ := hfill
    have hspec := @ownRead_spec ctx plan others idx pcs pc { s with toFileStream := stream }
      (pc.la + pc.llen + encodeMargin) hok (hsame.le.trans hbase) hsize (Nat.le_add_right _ _) hwant hmem hskip
    revert hspec
    show _ → match ownRead ctx others idx plan.size pc (pc.la + pc.llen + encodeMargin)
        { s with toFileStream := stream } with
      | .error stop => _
      | .ok s' => _
    cases ownRead ctx others idx plan.size pc (pc.la + pc.llen + encodeMargin)
        { s with toFileStream := stream } with
    | error stop =>
      intro hspec
      obtain ⟨e, he, hstored⟩ := hspec
      exact ⟨e, he, .inr hstored⟩
    | ok s' => exact fun hspec => OwnStep.after hsame hhashed hspec

/-! ### The whole file -/

/-- The pclusters of a file come in order, within it; a turn is less than the block. -/
structure OwnOrder (plan : ZPlan) (pcs : List PCluster) : Prop where
  inOrder : InOrder PCluster.la PCluster.llen pcs
  within : ∀ pc ∈ pcs, pc.la + pc.llen ≤ plan.size
  turn : ∀ pc ∈ pcs, ∀ skip, pc.interlaceSkip = some skip → skip < pc.plen

theorem Zmap.ZExt.pcluster_span {e : ZExt} {pc : PCluster} (h : e.pcluster = some pc) :
    pc.la = e.la ∧ pc.llen = e.llen := by
  rw [ZExt.pcluster] at h
  split at h
  · cases h
    exact ⟨rfl, rfl⟩
  · cases h

theorem Zmap.ZExt.pcluster_turn {e : ZExt} {pc : PCluster} (h : e.pcluster = some pc) {skip : ℕ}
    (hskip : pc.interlaceSkip = some skip) : skip < pc.plen := by
  rw [ZExt.pcluster] at h
  split at h
  · next pa plen alg isPartial _ =>
    cases h
    replace hskip : alg.interlaceSkip plen = some skip := hskip
    cases alg with
    | interlaced turn =>
      dsimp only [Alg.interlaceSkip] at hskip
      split_ifs at hskip with hpos
      cases hskip
      exact Nat.mod_lt _ hpos
    | _ => cases hskip
  · cases h

theorem ownPclusters_order {plan : ZPlan} (htiles : Tiles ZExt.la ZExt.llen 0 plan.size plan.exts) :
    OwnOrder plan plan.ownPclusters where
  inOrder := by
    rw [InOrder, ZPlan.ownPclusters, List.pairwise_filterMap]
    refine htiles.pairwise.imp ?_
    intro a b hab pc hpc pc' hpc'
    obtain ⟨hla, hllen⟩ := ZExt.pcluster_span hpc
    obtain ⟨hla', -⟩ := ZExt.pcluster_span hpc'
    rw [hla, hllen, hla']
    exact hab
  within := by
    intro pc hpc
    obtain ⟨e, he, hpc⟩ := List.mem_filterMap.mp hpc
    obtain ⟨hla, hllen⟩ := ZExt.pcluster_span hpc
    rw [hla, hllen]
    exact (Tiles.bounds htiles he).2
  turn := by
    intro pc hpc skip hskip
    obtain ⟨e, -, hpc⟩ := List.mem_filterMap.mp hpc
    exact ZExt.pcluster_turn hpc hskip

/-- What planning some of the pclusters does to the state. -/
structure OwnSteps (ctx : ImgCtx) (plan : ZPlan) (idx : ℕ) (pcs rest : List PCluster) (s s' : OwnState) :
    Prop where
  ok : s'.toFileStream.Ok ctx plan
  hashed : s.hashed <+: s'.hashed
  counted : (∀ pc ∈ rest, 0 < pc.llen) → ∃ outcomes, s'.stats = s.stats.counts outcomes ∧
    ∀ file, file.length = plan.size → s'.hashed <+: file →
      List.Forall₂ (PCluster.EndsAs ctx idx file) rest outcomes
  exact : ∀ file, file.length = plan.size → s'.hashed <+: file → s.Exact ctx idx pcs file →
    s'.Exact ctx idx pcs file

/-- **All the pclusters**, one after the other. -/
theorem ownPclusters_spec {ctx : ImgCtx} {plan : ZPlan}
    (htiles : Tiles ZExt.la ZExt.llen 0 plan.size plan.exts) (others : Others) {idx : ℕ}
    {pcs rest : List PCluster} (horder : OwnOrder plan rest) (hsub : ∀ pc ∈ rest, pc ∈ pcs) {s : OwnState}
    (h : s.toFileStream.Ok ctx plan) (hbase : ∀ pc ∈ rest, s.base ≤ pc.la) :
    match ownPclusters ctx others plan idx plan.size rest s with
    | .error stop => ∃ e, stop = .fault e ∧
      (ctx.fs.streamed ctx.z plan = .error e ∨ ∃ pc ∈ rest, readStored ctx.fs.view pc = .error e)
    | .ok s' => OwnSteps ctx plan idx pcs rest s s' := by
  induction rest generalizing s with
  | nil =>
    rw [ownPclusters]
    exact ⟨h, List.prefix_refl _, fun _ => ⟨[], rfl, fun _ _ _ => .nil⟩, fun _ _ _ hs => hs⟩
  | cons pc rest ih =>
    obtain ⟨hnext, hrest⟩ := List.pairwise_cons.mp horder.inOrder
    have hstep := ownPcluster_spec htiles others idx h (hbase pc List.mem_cons_self)
      (horder.within pc List.mem_cons_self) (hsub pc List.mem_cons_self) (horder.turn pc List.mem_cons_self)
    rw [ownPclusters]
    revert hstep
    cases ownPcluster ctx others plan idx plan.size s pc with
    | error stop =>
      intro hstop
      obtain ⟨e, he, hwhich⟩ := hstop
      exact ⟨e, he, hwhich.imp_right fun hstored => ⟨pc, List.mem_cons_self, hstored⟩⟩
    | ok s1 =>
      intro hstep
      have hbase1 : ∀ pc' ∈ rest, s1.base ≤ pc'.la := by
        intro pc' hpc'
        have hle := hstep.base_le
        have hnext' := hnext pc' hpc'
        have hold := hbase pc' (List.mem_cons_of_mem pc hpc')
        omega
      have hmore := ih ⟨hrest, fun pc' hpc' => horder.within pc' (List.mem_cons_of_mem pc hpc'),
        fun pc' hpc' => horder.turn pc' (List.mem_cons_of_mem pc hpc')⟩
        (fun pc' hpc' => hsub pc' (List.mem_cons_of_mem pc hpc')) hstep.ok hbase1
      revert hmore
      show _ → match ownPclusters ctx others plan idx plan.size rest s1 with
        | .error stop => _
        | .ok s' => _
      cases ownPclusters ctx others plan idx plan.size rest s1 with
      | error stop =>
        intro hstop
        obtain ⟨e, he, hwhich⟩ := hstop
        refine ⟨e, he, hwhich.imp_right ?_⟩
        intro hstored
        obtain ⟨pc', hpc', hstored⟩ := hstored
        exact ⟨pc', List.mem_cons_of_mem pc hpc', hstored⟩
      | ok s' =>
        intro hmore
        constructor
        · exact hmore.ok
        · exact hstep.hashed.trans hmore.hashed
        · intro hpos
          obtain ⟨o, ho, hends⟩ := hstep.counted (hpos pc List.mem_cons_self)
          obtain ⟨outcomes, hout, hall⟩ := hmore.counted fun pc' hpc' =>
            hpos pc' (List.mem_cons_of_mem pc hpc')
          refine ⟨o :: outcomes, ?_, ?_⟩
          · rw [hout, ho]
            rfl
          · intro file hfile hpre
            exact .cons (hends file hfile (hmore.hashed.trans hpre)) (hall file hfile hpre)
        · intro file hfile hpre hs
          exact hmore.exact file hfile hpre (hstep.exact file hfile (hmore.hashed.trans hpre) hs)

/-- **The run over a file**: either something could not be read, or all of the file has been hashed and
what is emitted is cut out of it. -/
theorem ownRun_spec {ctx : ImgCtx} {plan : ZPlan}
    (htiles : Tiles ZExt.la ZExt.llen 0 plan.size plan.exts) (hsize : plan.size < 2 ^ 64) (others : Others)
    (idx : ℕ) {cache : PackedCache} (hsound : cache.Sound ctx.fs ctx.z) (preset : Option UInt32) :
    match ownRun ctx others plan idx plan.size cache preset with
    | .error stop => ∃ e, stop = .fault e ∧ (ctx.fs.streamed ctx.z plan = .error e ∨
        ∃ pc ∈ plan.ownPclusters, readStored ctx.fs.view pc = .error e)
    | .ok s => ctx.fs.streamed ctx.z plan = .ok s.hashed ∧ s.hashed.length = plan.size ∧
      s.Exact ctx idx plan.ownPclusters s.hashed ∧
      ((∀ pc ∈ plan.ownPclusters, 0 < pc.llen) → ∃ outcomes, s.stats = PcStats.zero.counts outcomes ∧
        List.Forall₂ (PCluster.EndsAs ctx idx s.hashed) plan.ownPclusters outcomes) := by
  have hsteps := @ownPclusters_spec ctx plan htiles others idx plan.ownPclusters plan.ownPclusters
    (ownPclusters_order htiles) (fun _ h => h) ⟨.start cache preset, [], [], .zero, []⟩
    (FileStream.Ok.start hsound preset) fun _ _ => Nat.zero_le _
  rw [ownRun]
  revert hsteps
  cases ownPclusters ctx others plan idx plan.size plan.ownPclusters
      ⟨.start cache preset, [], [], .zero, []⟩ with
  | error stop => exact id
  | ok s =>
    intro hsteps
    have hfill := fill_spec htiles others (2 ^ 64 - 1) hsteps.ok
    dsimp only [bind, Except.bind]
    revert hfill
    cases fill ctx others plan (2 ^ 64 - 1) s.toFileStream with
    | error e => exact fun hfill => ⟨e, rfl, .inl hfill⟩
    | ok stream =>
      intro hfill
      obtain ⟨hok, -, hhashed, hwant⟩ := hfill
      have hlen : stream.hashed.length = plan.size := by
        have hle := hok.length_le
        omega
      refine ⟨hok.streamed_eq hlen.ge, hlen, ?_, ?_⟩
      · have hexact := hsteps.exact stream.hashed hlen hhashed ⟨nofun, nofun⟩
        exact ⟨hexact.nodes, hexact.segs⟩
      · intro hpos
        obtain ⟨outcomes, hout, hall⟩ := hsteps.counted hpos
        exact ⟨outcomes, hout, hall stream.hashed hlen hhashed⟩

theorem inode_size_lt {fs : Erofs} {nid : ℕ} {ino : Inode} (h : fs.inode nid = .ok ino) :
    ino.size < 2 ^ 64 := by
  obtain ⟨_, -, h⟩ := bind_eq_ok.mp h
  obtain ⟨_, -, h⟩ := bind_eq_ok.mp h
  cases h
  have hlt : ∀ (b : Bytes) (o n : ℕ), n ≤ 8 → BitArray.ofLe ((b.drop o).take n) < 2 ^ 64 := by
    intro b o n hn
    have hlen : ((b.drop o).take n).length ≤ 8 := (List.length_take_le _ _).trans hn
    have hpow : 256 ^ ((b.drop o).take n).length ≤ 256 ^ 8 := Nat.pow_le_pow_right (by decide) hlen
    exact lt_of_lt_of_le (BitArray.ofLe_lt _) hpow
  dsimp only
  split_ifs
  · exact hlt _ 8 8 le_rfl
  · exact hlt _ 8 4 (by decide)

/-- **The window is exact.**  For a plan made from an inode, a member recorded with the file's size and any
doings of the other workers: no index or subtraction is out of range, so the loop ends early only where the file or a
stored pcluster cannot be read; otherwise what has been hashed is the file.  Where that is the member, each
node re-encodes a slice of the member, and each splice places bytes of it where the image holds them; where
it is not, nothing is emitted. -/
theorem planOwnFile_exact (ctx : ImgCtx) (others : Others) {nid : ℕ} {ino : Inode} {plan : ZPlan}
    (hino : ctx.fs.inode nid = .ok ino) (hplan : ctx.fs.buildZplan ino = .ok plan)
    (earlier : List (ℕ × ℕ)) (preset : Option UInt32) (idx : ℕ) (member : Bytes)
    (hsha : ∀ bs, ctx.sha256 bs = ctx.sha256 member → bs = member) :
    (∀ stop, ownRun ctx others plan idx plan.size (ctx.cacheAfter earlier ⟨[], [], 0⟩) preset = .error stop →
      ∃ e, stop = .fault e ∧ (ctx.fs.streamed ctx.z plan = .error e ∨
        ∃ pc ∈ plan.ownPclusters, readStored ctx.fs.view pc = .error e)) ∧
    (∀ s, ownRun ctx others plan idx plan.size (ctx.cacheAfter earlier ⟨[], [], 0⟩) preset = .ok s →
      ctx.fs.streamed ctx.z plan = .ok s.hashed ∧ s.hashed.length = plan.size) ∧
    ∀ f, planOwnFile ctx others (.streamed plan) idx plan.size (ctx.sha256 member)
        (ctx.cacheAfter earlier ⟨[], [], 0⟩) preset = .ok f →
      (f.proved = true ↔ ctx.fs.streamed ctx.z plan = .ok member) ∧
      (f.proved = false → f.nodes = [] ∧ f.segs = []) ∧
      (∀ n ∈ f.nodes, ∃ pc ∈ plan.ownPclusters, ∃ fed, CutFrom ctx idx member pc fed n) ∧
      ∀ seg ∈ f.segs, seg.Slices [idx] ∧ seg.Places (fun _ => member) ctx.fs.view := by
  have htiled := buildZplan_wellTiled hplan
  have hsize : plan.size < 2 ^ 64 := by
    rw [htiled.size_eq]
    exact inode_size_lt hino
  have htiles : Tiles ZExt.la ZExt.llen 0 plan.size plan.exts := by
    rw [htiled.size_eq]
    exact htiled.tiles
  have hempty : PackedCache.Sound ctx.fs ctx.z ⟨[], [], 0⟩ := nofun
  have hrun := ownRun_spec htiles hsize others idx (ctx.cacheAfter_sound earlier hempty) preset
  rw [planOwnFile]
  revert hrun
  cases ownRun ctx others plan idx plan.size (ctx.cacheAfter earlier ⟨[], [], 0⟩) preset with
  | error stop =>
    intro hrun
    refine ⟨fun _ heq => Except.error.inj heq ▸ hrun, nofun, ?_⟩
    obtain ⟨e, rfl, -⟩ := hrun
    exact nofun
  | ok s =>
    intro hrun
    obtain ⟨hstreamed, hlen, hexact, -⟩ := hrun
    refine ⟨nofun, ?_, ?_⟩
    · intro s' heq
      cases heq
      exact ⟨hstreamed, hlen⟩
    · intro f
      dsimp only
      rw [hstreamed]
      split_ifs with hdigest
      · have hsame := hsha _ hdigest
        rw [hsame] at hexact
        intro hf
        cases hf
        exact ⟨iff_of_true rfl (congrArg _ hsame), nofun, hexact.nodes, hexact.segs⟩
      · intro hf
        cases hf
        refine ⟨iff_of_false Bool.false_ne_true ?_, fun _ => ⟨rfl, rfl⟩, nofun, nofun⟩
        intro heq
        exact hdigest (congrArg ctx.sha256 (Except.ok.inj heq))

/-- An image with a regular file of so many bytes, full indexes, whose one extent is an inline tail. -/
def inlineFs (n : UInt8) (tail : Bytes) : Erofs where
  view := List.replicate 1024 0 ++ tailSuper ++
    [2, 0, 0, 0, 0xA4, 0x81, 0, 0, n, 0, 0, 0] ++ List.replicate 20 0 ++
    [0, 0, n, 0, 8, 0, 0, 0] ++ List.replicate 16 0 ++ tail
  blkszbits := 9
  metaBase := 0
  packedNid := 0
  bits := Zmap.smallestBlock_bits

def inlineCtx (n : UInt8) : ImgCtx where
  fs := inlineFs n (countingBytes n.toNat)
  z := Zmap.noDecoders
  encode := copyEncode
  sha256 := id
  dictSize := 0

def inlineInode (n : ℕ) : Inode := ⟨1152, 32, 0, n, 1⟩

def inlinePlan (n : ℕ) : ZPlan := ⟨n, [⟨0, n, .raw 1208 n .shifted false⟩]⟩

set_option maxRecDepth 20000 in
theorem planOwnFile_exact_inline :
    ((planOwnFile (inlineCtx 70) .none (.streamed (inlinePlan 70)) 3 70 (countingBytes 70) ⟨[], [], 0⟩
      none).toOption.map fun f => (f.proved, f.segs)) = some (true, [.tabled 3 0 70 0 1208]) ∧
    ∀ seg ∈ [Seg.tabled 3 0 70 0 1208], seg.Slices [3] ∧
      seg.Places (fun _ => countingBytes 70) (inlineCtx 70).fs.view := by
  have hino : (inlineCtx 70).fs.inode 36 = .ok (inlineInode 70) := rfl
  have hplan : (inlineCtx 70).fs.buildZplan (inlineInode 70) = .ok (inlinePlan 70) := rfl
  have hrun : ((planOwnFile (inlineCtx 70) .none (.streamed (inlinePlan 70)) 3 70 (countingBytes 70)
      ⟨[], [], 0⟩ none).toOption.map fun f => (f.proved, f.segs)) =
        some (true, [.tabled 3 0 70 0 1208]) := by decide +kernel
  obtain ⟨-, -, hexact⟩ := planOwnFile_exact (inlineCtx 70) .none hino hplan [] none 3 (countingBytes 70)
    fun _ => id
  refine ⟨hrun, ?_⟩
  revert hrun hexact
  show _ → (∀ f, planOwnFile (inlineCtx 70) .none (.streamed (inlinePlan 70)) 3 70 (countingBytes 70)
      ⟨[], [], 0⟩ none = .ok f → _) → _
  cases planOwnFile (inlineCtx 70) .none (.streamed (inlinePlan 70)) 3 70 (countingBytes 70) ⟨[], [], 0⟩
      none with
  | error e => exact nofun
  | ok f =>
    intro hrun hexact
    obtain ⟨-, hsegs⟩ := Prod.mk.inj (Option.some.inj hrun)
    obtain ⟨-, -, -, hplaces⟩ := hexact f rfl
    rw [hsegs] at hplaces
    exact hplaces

end Hashdex
