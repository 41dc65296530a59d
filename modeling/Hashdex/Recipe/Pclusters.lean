import Hashdex.Recipe.Check
import Hashdex.Recipe.Plan

/-!
# Cutting pclusters out of members

A stored pcluster of an erofs image is either spliced straight from the members its bytes are, or
re-encoded from the member slices packed into it.  Both cut a span of the packed stream by the covers
over it.

* `spliceSpan_slices`, `planPcluster_slices`: only covering members are sliced

-/

namespace Hashdex

/-- Gap runs at or under this many bytes inline into the document. -/
def inlineMax : ℕ := 64

/-- One stored pcluster: `plen` bytes at `pa` of the image decode to the `llen` bytes at `la`. -/
structure PCluster where
  la : ℕ
  llen : ℕ
  pa : ℕ
  plen : ℕ
  lzma : Bool
  /-- Where the logical bytes begin inside a rotated raw pcluster. -/
  interlaceSkip : Option ℕ
  deriving DecidableEq, Inhabited

/-- A span of the packed stream that is a range of a member. -/
structure Cover where
  idx : ℕ
  start : ℕ
  pstart : ℕ
  len : ℕ
  /-- Whether the claim is already proven. -/
  proved : Bool
  deriving DecidableEq

/-- `end`. -/
def Cover.stop (c : Cover) : ℕ := c.pstart + c.len

/-- Merge cover spans into a disjoint ascending union. -/
def mergeSpans (covers : List Cover) : List (ℕ × ℕ) :=
  (covers.foldl (fun out c =>
    match out with
    | (s, e) :: rest =>
      if c.pstart ≤ e then (s, max e c.stop) :: rest else (c.pstart, c.stop) :: out
    | [] => [(c.pstart, c.stop)]) []).reverse

def overlapLoop (pos stop : ℕ) : List (ℕ × ℕ) → ℕ
  | [] => 0
  | (s, e) :: rest =>
    if stop ≤ s then 0 else min e stop - max s pos + overlapLoop pos stop rest

/-- Bytes of a span that the union covers. -/
def overlap (union : List (ℕ × ℕ)) (pos len : ℕ) : ℕ :=
  overlapLoop pos (pos + len) (union.dropWhile fun se => se.2 ≤ pos)

/-! ### Verbatim splices -/

/-- The loop of `splice_span`: `pos` is what has been spliced so far, up to `stop`. -/
def spliceLoop (lstart stop rootAt : ℕ) : ℕ → List Cover → List Seg
  | _, [] => []
  | pos, cv :: rest =>
    if cv.stop ≤ pos then spliceLoop lstart stop rootAt pos rest
    else if stop ≤ cv.pstart then []
    else
      let lo := max cv.pstart pos
      let hi := min cv.stop stop
      if hi ≤ lo then spliceLoop lstart stop rootAt pos rest
      else
        (if inlineMax < hi - lo then
          [Seg.tabled cv.idx (cv.start + (lo - cv.pstart)) (hi - lo) 0 (rootAt + (lo - lstart))]
        else []) ++ spliceLoop lstart stop rootAt hi rest

/-- Splice the logical range out of whichever members cover it, landing at an image offset. -/
def spliceSpan (covers : List Cover) (lstart len rootAt : ℕ) : List Seg :=
  spliceLoop lstart (lstart + len) rootAt lstart covers

def spliceVerbatim (pc : PCluster) (llen : ℕ) (covers : List Cover) : List Seg :=
  spliceSpan covers pc.la llen pc.pa

/-- A raw pcluster stored rotated, as the member's own bytes in two pieces: the tail of the logical
span lands first. -/
def spliceRotated (pc : PCluster) (logical stored : Bytes) (covers : List Cover) : List Seg :=
  match pc.interlaceSkip with
  | none => []
  | some skip =>
    if skip = 0 ∨ logical.length ≠ pc.plen ∨ stored.length ≠ pc.plen then []
    else
      let head := pc.plen - skip
      if stored.take skip ≠ logical.drop head ∨ stored.drop skip ≠ logical.take head then []
      else
        spliceSpan covers (pc.la + head) skip pc.pa ++ spliceSpan covers pc.la head (pc.pa + skip)

/-- The segment is a nonempty slice of one of the members. -/
def Seg.Slices (idxs : List ℕ) : Seg → Prop
  | .tabled idx _ len _ _ => idx ∈ idxs ∧ 0 < len
  | _ => False

theorem Seg.Slices.mono {idxs idxs' : List ℕ} (h : ∀ i ∈ idxs, i ∈ idxs') {s : Seg}
    (hs : s.Slices idxs) : s.Slices idxs' := by
  cases s with
  | tabled idx _ _ _ _ => exact ⟨h idx hs.1, hs.2⟩
  | _ => exact hs

/-- **Only covering members are spliced.** -/
theorem spliceSpan_slices {covers : List Cover} {lstart len rootAt : ℕ} {s : Seg}
    (hs : s ∈ spliceSpan covers lstart len rootAt) : s.Slices (covers.map Cover.idx) := by
  rw [spliceSpan] at hs
  generalize lstart + len = stop at hs
  suffices hloop : ∀ pos, s ∈ spliceLoop lstart stop rootAt pos covers →
      s.Slices (covers.map Cover.idx) from hloop lstart hs
  clear hs
  intro pos hs
  induction covers generalizing pos with
  | nil => cases hs
  | cons cv rest ih =>
    have hrest : ∀ {pos}, s ∈ spliceLoop lstart stop rootAt pos rest →
        s.Slices ((cv :: rest).map Cover.idx) :=
      fun h => (ih _ h).mono fun i => List.mem_cons_of_mem _
    rw [spliceLoop] at hs
    dsimp only at hs
    split at hs
    · exact hrest hs
    · split at hs
      · cases hs
      · split at hs
        · exact hrest hs
        · rcases List.mem_append.mp hs with hs | hs
          · split at hs
            · next hlt =>
              rw [List.mem_singleton.mp hs]
              exact ⟨List.mem_cons_self, (Nat.zero_le _).trans_lt hlt⟩
            · cases hs
          · exact hrest hs

/-! ### Re-encoded pclusters -/

/-- The bytes there are for the encoder, and whether the stream continues past them. -/
structure Feed where
  bytes : Bytes
  more : Bool

/-- Leading zero bytes of a stored pcluster. -/
def pclusterPadding (stored : Bytes) : ℕ := (stored.takeWhile (· == 0)).length

/-- The presets to try: the one the image is known to use, or all of them. -/
def presets : Option UInt32 → List UInt32
  | some p => [p]
  | none =>
    6 :: (List.range 10).map UInt32.ofNat ++
      (List.range 10).map fun p => UInt32.ofNat p ||| lzmaPresetExtreme

def ladderLoop (llen streamLen : ℕ) : ℕ → List ℕ → List ℕ
  | _, [] => []
  | acc, n :: ns =>
    let acc := if acc = 0 then n else llen + n
    min acc streamLen :: ladderLoop llen streamLen acc ns

/-- How much input to hand the encoder: the span alone, then ever more past it. -/
def ladder (llen streamLen : ℕ) : List ℕ :=
  (ladderLoop llen streamLen 0 [llen, 2 ^ 12, 2 ^ 16, encodeMargin]).dedup

def marginShort : String := "encoder ran out of input before filling the pcluster"

/-- The encoder: input, output size, preset and dictionary size give the output and how much of the
input it took. -/
abbrev MicrolzmaEncoder := Bytes → ℕ → UInt32 → UInt32 → Except String (Bytes × ℕ)

section Encode

variable (encode : MicrolzmaEncoder)

/-- The stored bytes an encoder output stands for. -/
def padded (pad size : ℕ) (out : Bytes) : Bytes := resize (List.replicate pad 0 ++ out) size

/-- The inner loop of the search, over input lengths.  `inl short` when no length of this preset
reproduces the stored bytes. -/
def searchLengths (stored : Bytes) (feed : Feed) (dictSize preset : UInt32) :
    List ℕ → Bool → Except Fault (Bool ⊕ ℕ)
  | [], short => .ok (.inl short)
  | fed :: rest, short =>
    let pad := pclusterPadding stored
    let cap := stored.length - pad
    match encode (feed.bytes.take fed) cap preset dictSize with
    | .error e => .error (.error e)
    | .ok (out, consumed) =>
      if out.length < cap ∧ consumed = fed ∧ (fed < feed.bytes.length ∨ feed.more) then
        searchLengths stored feed dictSize preset rest true
      else if padded pad stored.length out = stored then .ok (.inr fed)
      else searchLengths stored feed dictSize preset rest short

def searchPresets (llen : ℕ) (stored : Bytes) (feed : Feed) (dictSize : UInt32) :
    List UInt32 → Bool → Except Fault (Bool ⊕ (UInt32 × ℕ))
  | [], short => .ok (.inl short)
  | p :: rest, short =>
    match searchLengths encode stored feed dictSize p (ladder llen feed.bytes.length) short with
    | .error e => .error e
    | .ok (.inr fed) => .ok (.inr (p, fed))
    | .ok (.inl short) => searchPresets llen stored feed dictSize rest short

/-- The `literal` closure of `plan_pcluster`. -/
def cutLiteral (la : ℕ) (stream : Bytes) (lo hi : ℕ) (spool : Bytes) :
    Except Fault (PcInput × Bytes) :=
  if hi - la ≤ stream.length then
    let bytes := (stream.drop (lo - la)).take (hi - lo)
    let len := hi - lo
    if len ≤ inlineMax then .ok (.literal 0 len none (some bytes), spool)
    else .ok (.literal spool.length len none none, spool ++ bytes)
  else .error .panic

def cutGap (la : ℕ) (stream : Bytes) (lo hi : ℕ) (spool : Bytes) :
    Except Fault (List PcInput × Bytes) :=
  if lo < hi then
    match cutLiteral la stream lo hi spool with
    | .error e => .error e
    | .ok (i, spool) => .ok ([i], spool)
  else .ok ([], spool)

/-- Tile the span that was fed: one cover per byte, the rest literal. -/
def cutInputs (la : ℕ) (stream : Bytes) (stop : ℕ) :
    ℕ → List Cover → Bytes → Except Fault (List PcInput × Bytes)
  | pos, [], spool => cutGap la stream pos stop spool
  | pos, cv :: rest, spool =>
    if cv.stop ≤ pos then cutInputs la stream stop pos rest spool
    else if stop ≤ cv.pstart then cutGap la stream pos stop spool
    else
      let lo := max cv.pstart pos
      let hi := min cv.stop stop
      if hi ≤ lo then cutInputs la stream stop pos rest spool
      else
        match cutGap la stream pos lo spool with
        | .error e => .error e
        | .ok (before, spool) =>
          match cutInputs la stream stop hi rest spool with
          | .error e => .error e
          | .ok (after, spool) =>
            .ok (before ++ .member cv.idx (cv.start + (lo - cv.pstart)) (hi - lo) :: after, spool)

/-- Re-encode one stored pcluster and, when it comes back byte-exact, tile the span it was fed with the
members that cover it.  The spool is the image's literals, which tiling may append to. -/
def planPcluster (sha256 : Bytes → Bytes) (pc : PCluster) (stored : Bytes) (feed : Feed)
    (covers : List Cover) (known : Option UInt32) (dictSize : UInt32) (spool : Bytes) :
    Except Fault (Option (PClusterNode × UInt32) × Bytes) :=
  let pad := pclusterPadding stored
  if stored.length ≤ pad then .error (.error "pcluster is all padding")
  else
    match searchPresets encode pc.llen stored feed dictSize (presets known) false with
    | .error e => .error e
    | .ok (.inl short) => if short then .error (.error marginShort) else .ok (none, spool)
    | .ok (.inr (preset, fed)) =>
      match cutInputs pc.la feed.bytes (pc.la + fed) pc.la covers spool with
      | .error e => .error e
      | .ok (inputs, spool) =>
        if inputs.any fun i => match i with
            | .member .. => true
            | .literal .. => false then
          let pa := pc.pa
          .ok (some (⟨pc.plen, sha256 stored, pad, preset, dictSize, inputs, s!"pcluster@{pa}"⟩,
            preset), spool)
        else .ok (none, spool)

end Encode

/-- A node that slices members of the list, at least one, and has bytes to stand for. -/
structure PClusterNode.Slices (node : PClusterNode) (idxs : List ℕ) : Prop where
  mem : ∀ i ∈ node.members, i ∈ idxs
  nonempty : node.members ≠ []
  size_pos : 0 < node.size

theorem cutGap_slices {la lo hi : ℕ} {stream spool spool' : Bytes} {inputs : List PcInput}
    (h : cutGap la stream lo hi spool = .ok (inputs, spool')) : slicedMembers inputs = [] := by
  rw [cutGap] at h
  split at h
  · split at h
    · cases h
    · next i sp hcut =>
      cases h
      rw [cutLiteral] at hcut
      split at hcut
      · dsimp only at hcut
        split at hcut <;> (cases hcut; rfl)
      · cases hcut
  · cases h
    rfl

theorem cutInputs_slices {la stop pos : ℕ} {stream spool spool' : Bytes} {covers : List Cover}
    {inputs : List PcInput} (h : cutInputs la stream stop pos covers spool = .ok (inputs, spool')) :
    ∀ i ∈ slicedMembers inputs, i ∈ covers.map Cover.idx := by
  induction covers generalizing pos spool inputs spool' with
  | nil =>
    rw [cutInputs] at h
    rw [cutGap_slices h]
    exact fun i hi => absurd hi List.not_mem_nil
  | cons cv rest ih =>
    rw [cutInputs] at h
    dsimp only at h
    split at h
    · exact fun i hi => List.mem_cons_of_mem _ (ih h i hi)
    · split at h
      · rw [cutGap_slices h]
        exact fun i hi => absurd hi List.not_mem_nil
      · split at h
        · exact fun i hi => List.mem_cons_of_mem _ (ih h i hi)
        · split at h
          · cases h
          · next before sp hbefore =>
            split at h
            · cases h
            · next after sp' hafter =>
              cases h
              intro i hi
              rw [slicedMembers_append, cutGap_slices hbefore, List.nil_append,
                slicedMembers_member] at hi
              rcases List.mem_cons.mp hi with rfl | hi
              · exact List.mem_cons_self
              · exact List.mem_cons_of_mem _ (ih hafter i hi)

/-- **A planned node slices only covering members**, at least one, and stands for the stored bytes. -/
theorem planPcluster_slices {encode : MicrolzmaEncoder} {sha256 : Bytes → Bytes} {pc : PCluster}
    {stored : Bytes} {feed : Feed} {covers : List Cover} {known : Option UInt32} {dictSize : UInt32}
    {spool spool' : Bytes} {node : PClusterNode} {preset : UInt32}
    (hstored : stored.length = pc.plen)
    (h : planPcluster encode sha256 pc stored feed covers known dictSize spool
      = .ok (some (node, preset), spool')) :
    node.Slices (covers.map Cover.idx) ∧ node.size = pc.plen ∧ node.sha256 = sha256 stored := by
  rw [planPcluster] at h
  dsimp only at h
  split at h
  · cases h
  · next hpad =>
    split at h
    · cases h
    · split at h <;> cases h
    · next p fed hsearch =>
      split at h
      · cases h
      · next inputs sp hcut =>
        split at h
        · next hany =>
          cases h
          refine ⟨⟨cutInputs_slices hcut, ?_, ?_⟩, rfl, rfl⟩
          · obtain ⟨i, hi, him⟩ := List.any_eq_true.mp hany
            cases i with
            | member idx start len =>
              exact List.ne_nil_of_mem (List.mem_filterMap.mpr ⟨_, hi, rfl⟩)
            | literal => cases him
          · show 0 < pc.plen
            omega
        · cases h

end Hashdex
