import Hashdex.Erofs.Decode
import Hashdex.Lib.Windows
import Hashdex.Recipe.Emit
import Hashdex.Recipe.Pclusters

/-!
# The bytes a pcluster is cut into

The covers over a pcluster are cut into windows, and what planning makes of a window is a slice of the
member behind it.  When every cover is true, so is every slice.

* `spliceRotated_inverts`: a rotated block is spliced just when decoding turns it into its span, and then
  each piece is where the image holds it
* `planPcluster_cuts`: the inputs of a node are the bytes fed to the encoder, and rebuild the pcluster
-/

namespace Hashdex

open Windows

/-- The member range is the stream bytes it covers. -/
abbrev Cover.Truthful (member : ℕ → Bytes) (stream : Bytes) (c : Cover) : Prop :=
  SameRange (member c.idx) c.start stream c.pstart c.len

/-- By start, then longest first. -/
def Cover.Before (a b : Cover) : Prop := a.pstart < b.pstart ∨ a.pstart = b.pstart ∧ b.len ≤ a.len

instance (a b : Cover) : Decidable (a.Before b) := inferInstanceAs (Decidable (_ ∨ _))

/-- The windows of the covers over `[lo, hi)` of the stream. -/
abbrev coverWindows (hi lo : ℕ) (covers : List Cover) : List (Window Cover) :=
  windows Cover.pstart Cover.stop hi lo covers

/-- Where the member has the bytes of a window. -/
def memberStart (w : Window Cover) : ℕ := w.item.start + (w.lo - w.item.pstart)

/-- A window of a true cover is as true. -/
theorem sameRange_window {member : ℕ → Bytes} {stream : Bytes} {covers : List Cover}
    (hcovers : ∀ c ∈ covers, c.Truthful member stream) {hi lo : ℕ} {w : Window Cover}
    (hw : w ∈ coverWindows hi lo covers) :
    SameRange (member w.item.idx) (memberStart w) stream w.lo w.len := by
  obtain ⟨hmem, hwithin⟩ := mem_windows hw
  have hstart := hwithin.start_le
  have hstop : w.hi ≤ w.item.pstart + w.item.len := hwithin.le_stop
  have hlt := hwithin.lt
  have hpart := (hcovers w.item hmem).part (w.lo - w.item.pstart) w.len
    (by rw [Window.len]; omega)
  rwa [Nat.add_sub_cancel' hstart] at hpart

/-! ### Verbatim splices -/

/-- The segment a window is spliced as. -/
def windowSeg (lstart rootAt : ℕ) (w : Window Cover) : Seg :=
  .tabled w.item.idx (memberStart w) w.len 0 (rootAt + (w.lo - lstart))

theorem spliceLoop_eq (lstart stop rootAt pos : ℕ) (covers : List Cover) :
    spliceLoop lstart stop rootAt pos covers =
      ((coverWindows stop pos covers).filter fun w => inlineMax < w.len).map
        (windowSeg lstart rootAt) := by
  induction covers generalizing pos with
  | nil => rfl
  | cons cv rest ih =>
    rw [spliceLoop, coverWindows, windows]
    dsimp only
    split_ifs with hpast hbeyond hempty hlong
    · exact ih pos
    · rfl
    · exact ih pos
    · have hkeep : inlineMax < (Window.mk cv (max cv.pstart pos) (min cv.stop stop)).len := hlong
      rw [List.filter_cons, if_pos (decide_eq_true hkeep), List.map_cons, ih]
      rfl
    · have hskip : ¬ inlineMax < (Window.mk cv (max cv.pstart pos) (min cv.stop stop)).len := hlong
      rw [List.filter_cons, if_neg (mt of_decide_eq_true hskip), ih]
      rfl

/-- **A span is spliced as the windows over it**, the short ones left out. -/
theorem spliceSpan_eq (covers : List Cover) (lstart len rootAt : ℕ) :
    spliceSpan covers lstart len rootAt =
      ((coverWindows (lstart + len) lstart covers).filter fun w => inlineMax < w.len).map
        (windowSeg lstart rootAt) :=
  spliceLoop_eq lstart (lstart + len) rootAt lstart covers

/-- Where in the image the segment goes. -/
def Seg.imageAt : Seg → ℕ
  | .child _ _ _ _ r => r
  | .tabled _ _ _ _ r => r
  | .pcluster _ _ _ r => r
  | .gap p _ _ _ => p

/-- The segment is bytes of a member, and the image holds those bytes where it goes. -/
def Seg.Places (member : ℕ → Bytes) (image : Bytes) : Seg → Prop
  | .tabled idx start len _ rootOff => SameRange (member idx) start image rootOff len
  | _ => False

/-- **What is spliced over a span that the image holds is in its place.** -/
theorem spliceSpan_places {member : ℕ → Bytes} {stream image : Bytes} {covers : List Cover}
    (hcovers : ∀ c ∈ covers, c.Truthful member stream) {lstart len rootAt : ℕ}
    (hspan : SameRange stream lstart image rootAt len) {s : Seg}
    (hs : s ∈ spliceSpan covers lstart len rootAt) :
    s.Places member image ∧ rootAt ≤ s.imageAt ∧ s.imageAt + s.len ≤ rootAt + len := by
  rw [spliceSpan_eq] at hs
  obtain ⟨w, hw, rfl⟩ := List.mem_map.mp hs
  have hmem := (List.mem_filter.mp hw).1
  obtain ⟨-, hwithin⟩ := mem_windows hmem
  have hat := hwithin.at_le
  have hlt := hwithin.lt
  have hlimit := hwithin.le_limit
  have hlen : w.lo - lstart + w.len ≤ len := by
    rw [Window.len]
    omega
  constructor
  · have hpart := hspan.part (w.lo - lstart) w.len hlen
    rw [Nat.add_sub_cancel' hat] at hpart
    exact (sameRange_window hcovers hmem).trans hpart
  · show rootAt ≤ rootAt + (w.lo - lstart) ∧ rootAt + (w.lo - lstart) + w.len ≤ rootAt + len
    omega

/-- Pieces of a span follow each other in the image. -/
theorem spliceSpan_inOrder (covers : List Cover) (lstart len rootAt : ℕ) :
    Tiling.InOrder Seg.imageAt Seg.len (spliceSpan covers lstart len rootAt) := by
  rw [spliceSpan_eq, Tiling.InOrder, List.pairwise_map]
  refine ((windows_inOrder (lstart + len) lstart covers).filter _).imp_of_mem ?_
  intro v w hv hw hvw
  have hv := (mem_windows (List.mem_filter.mp hv).1).2
  have hat := hv.at_le
  have hlt := hv.lt
  show rootAt + (v.lo - lstart) + v.len ≤ rootAt + (w.lo - lstart)
  rw [Window.len]
  omega

/-! ### Rotated blocks -/

/-- `PCluster::interlace_skip`. -/
def Zmap.Alg.interlaceSkip (alg : Zmap.Alg) (plen : ℕ) : Option ℕ :=
  match alg with
  | .interlaced skip => if 0 < plen then some (skip % plen) else none
  | _ => none

/-- The stored pcluster of an extent. -/
def Zmap.ZExt.pcluster (e : Zmap.ZExt) : Option PCluster :=
  match e.src with
  | .raw pa plen alg _ => some ⟨e.la, e.llen, pa, plen, decide (alg = .lzma), alg.interlaceSkip plen⟩
  | _ => none

/-- `own_pclusters`, and `packed_pclusters` of the packed inode. -/
def Zmap.ZPlan.ownPclusters (plan : Zmap.ZPlan) : List PCluster := plan.exts.filterMap Zmap.ZExt.pcluster

/-- What `splice_rotated` compares: the stored bytes are the logical ones turned by `skip`. -/
def Rotated (skip : ℕ) (logical stored : Bytes) : Prop :=
  stored.take skip = logical.drop (logical.length - skip) ∧
    stored.drop skip = logical.take (logical.length - skip)

instance (skip : ℕ) (logical stored : Bytes) : Decidable (Rotated skip logical stored) :=
  inferInstanceAs (Decidable (_ ∧ _))

theorem spliceRotated_eq (pc : PCluster) {logical stored : Bytes} {skip : ℕ}
    (hskip : pc.interlaceSkip = some skip) (hne : skip ≠ 0) (hlogical : logical.length = pc.plen)
    (hstored : stored.length = pc.plen) (covers : List Cover) :
    spliceRotated pc logical stored covers =
      if Rotated skip logical stored then
        spliceSpan covers (pc.la + (pc.plen - skip)) skip pc.pa ++
          spliceSpan covers pc.la (pc.plen - skip) (pc.pa + skip)
      else [] := by
  rw [spliceRotated, hskip]
  dsimp only
  rw [if_neg (by omega)]
  have hiff : ¬ Rotated skip logical stored ↔
      stored.take skip ≠ logical.drop (pc.plen - skip) ∨
        stored.drop skip ≠ logical.take (pc.plen - skip) := by
    rw [Rotated, hlogical, not_and_or]
  by_cases h : Rotated skip logical stored
  · rw [if_neg (fun hne => hiff.mpr hne h), if_pos h]
  · rw [if_pos (hiff.mp h), if_neg h]

/-- **The comparison and the decoder agree**: a turned block decodes to the logical bytes. -/
theorem rotated_iff_unrotate {logical stored : Bytes} {n skip : ℕ} (hlogical : logical.length = n)
    (hstored : stored.length = n) (hn : 0 < n) :
    Rotated (skip % n) logical stored ↔ Zmap.unrotate stored skip n = .ok logical := by
  have hlt : skip % n < n := Nat.mod_lt skip hn
  rw [Zmap.unrotate, hstored, Nat.max_eq_left hn, Rotated, hlogical]
  generalize skip % n = at0 at hlt
  rw [Nat.min_eq_left (by omega), Zmap.slice, if_pos (by omega), Zmap.slice, if_pos (by omega)]
  rw [Nat.add_sub_cancel' hlt.le, Nat.sub_zero, List.drop_zero]
  have hback : n - (n - at0) = at0 := by omega
  have hfront : (stored.drop at0).take (n - at0) = stored.drop at0 := by
    apply List.take_of_length_le
    rw [List.length_drop, hstored]
  rw [hfront, hback]
  show _ ↔ Except.ok (stored.drop at0 ++ stored.take at0) = Except.ok logical
  have hlen : (stored.drop at0).length = n - at0 := by rw [List.length_drop, hstored]
  constructor
  · intro h
    rw [h.1, h.2, List.take_append_drop]
  · intro h
    have heq : stored.drop at0 ++ stored.take at0 = logical := Except.ok.inj h
    rw [← heq]
    constructor
    · rw [← hlen, List.drop_left]
    · rw [← hlen, List.take_left]

/-- The stored bytes as a range of the image. -/
theorem sameRange_of_read {view stored : Bytes} {n off : ℕ} (h : Zmap.readExactAt view n off = .ok stored)
    (hn : 0 < n) : SameRange stored 0 view off n := by
  have hlen := Zmap.readExactAt_eq_ok_iff.mp ⟨stored, h⟩
  rw [Zmap.readExactAt] at h
  split_ifs at h
  exact SameRange.of_take (Except.ok.inj h).symm (by omega)

/-- The two pieces of a turned block are where the image holds them. -/
theorem rotated_pieces {logical stored stream view : Bytes} {la pa n skip : ℕ}
    (h : Rotated skip logical stored) (hlogical : logical.length = n) (hstored : stored.length = n)
    (hskip : skip ≤ n) (hstream : SameRange stream la logical 0 n) (hview : SameRange stored 0 view pa n) :
    SameRange stream (la + (n - skip)) view pa skip ∧ SameRange stream la view (pa + skip) (n - skip) := by
  rw [Rotated, hlogical] at h
  have htail : SameRange logical (n - skip) stored 0 skip := by
    refine ⟨by omega, by omega, ?_⟩
    rw [List.drop_zero, h.1]
    apply List.take_of_length_le
    rw [List.length_drop]
    omega
  have hhead : SameRange logical 0 stored skip (n - skip) := by
    refine ⟨by omega, by omega, ?_⟩
    rw [List.drop_zero, h.2, List.take_take, Nat.min_self]
  have htail' := hstream.part (n - skip) skip (by omega)
  have hhead' := hstream.part 0 (n - skip) (by omega)
  have hfront := hview.part 0 skip (by omega)
  have hback := hview.part skip (n - skip) (by omega)
  rw [Nat.zero_add] at htail' hback
  rw [Nat.add_zero] at hhead' hfront
  exact ⟨(htail'.trans htail).trans hfront, (hhead'.trans hhead).trans hback⟩

/-- **Splicing a rotated block inverts decoding it.**  It splices just when the decoder makes the logical
bytes of the stored ones, and then it splices the windows over the tail of the span and those over its
head, each where the image holds its bytes. -/
theorem spliceRotated_inverts (fs : Zmap.Erofs) (z : Zmap.Decoders) {e : Zmap.ZExt} {pc : PCluster}
    {pa plen turn skip : ℕ} {isPartial : Bool} (hsrc : e.src = .raw pa plen (.interlaced turn) isPartial)
    (hpc : e.pcluster = some pc) (hblock : plen ≤ fs.blksz) (hskip : pc.interlaceSkip = some skip)
    (hne : skip ≠ 0) {logical stored : Bytes} (hlogical : logical.length = plen)
    (hread : Zmap.readExactAt fs.view plen pa = .ok stored) :
    (Rotated skip logical stored ↔
      fs.decodeRaw z pa plen plen (.interlaced turn) isPartial = .ok logical) ∧
    (∀ covers, spliceRotated pc logical stored covers =
      if Rotated skip logical stored then
        spliceSpan covers (pc.la + (plen - skip)) skip pa ++
          spliceSpan covers pc.la (plen - skip) (pa + skip)
      else []) ∧
    ∀ (member : ℕ → Bytes) (stream : Bytes) (covers : List Cover),
      (∀ c ∈ covers, c.Truthful member stream) → SameRange stream pc.la logical 0 plen →
      (∀ s ∈ spliceRotated pc logical stored covers,
        s.Places member fs.view ∧ pa ≤ s.imageAt ∧ s.imageAt + s.len ≤ pa + plen) ∧
      Tiling.InOrder Seg.imageAt Seg.len (spliceRotated pc logical stored covers) := by
  have hstored : stored.length = plen := Zmap.readExactAt_length hread
  rw [Zmap.ZExt.pcluster, hsrc] at hpc
  cases hpc
  dsimp only [Zmap.Alg.interlaceSkip] at hskip
  split_ifs at hskip with hpos
  cases hskip
  have hlt : turn % plen < plen := Nat.mod_lt turn hpos
  have heq := spliceRotated_eq ⟨e.la, e.llen, pa, plen, decide (Zmap.Alg.interlaced turn = .lzma),
    (Zmap.Alg.interlaced turn).interlaceSkip plen⟩ (if_pos hpos) hne hlogical hstored
  refine ⟨?_, heq, ?_⟩
  · have hbits := fs.bits.2
    have hblksz : fs.blksz ≤ 1 <<< 16 := by
      rw [Zmap.Erofs.blksz, Nat.one_shiftLeft, Nat.one_shiftLeft]
      exact Nat.pow_le_pow_right (by omega) hbits
    have hsizes : plen ≤ Zmap.pclusterMaxSize ∧ plen ≤ Zmap.pclusterMaxDsize := by
      rw [Zmap.pclusterMaxSize, Zmap.pclusterMaxDsize]
      omega
    rw [Zmap.Erofs.decodeRaw, ensure, if_pos hsizes, hread, rotated_iff_unrotate hlogical hstored hpos]
    show _ ↔ (ensure (stored.length ≤ fs.blksz) _ >>= fun _ => Zmap.unrotate stored turn plen) = _
    rw [ensure, if_pos (hstored.trans_le hblock)]
    exact Iff.rfl
  · intro member stream covers hcovers hstream
    rw [heq covers]
    split_ifs with hrot
    · obtain ⟨htail, hhead⟩ := rotated_pieces hrot hlogical hstored hlt.le hstream
        (sameRange_of_read hread hpos)
      have hplaces_tail := fun s => spliceSpan_places hcovers htail (s := s)
      have hplaces_head := fun s => spliceSpan_places hcovers hhead (s := s)
      constructor
      · intro s hs
        cases List.mem_append.mp hs with
        | inl hs =>
          obtain ⟨hplace, hlo, hhi⟩ := hplaces_tail s hs
          exact ⟨hplace, hlo, by omega⟩
        | inr hs =>
          obtain ⟨hplace, hlo, hhi⟩ := hplaces_head s hs
          exact ⟨hplace, by omega, by omega⟩
      · refine List.pairwise_append.mpr ⟨spliceSpan_inOrder .., spliceSpan_inOrder .., ?_⟩
        intro s hs t ht
        exact (hplaces_tail s hs).2.2.trans (hplaces_head t ht).2.1
    · exact ⟨fun s hs => absurd hs List.not_mem_nil, List.Pairwise.nil⟩

/-- A file of so many bytes, no two the same. -/
def countingBytes (n : ℕ) : Bytes := (List.range n).map UInt8.ofNat

/-- An image that is one block, the file turned by half. -/
def turnedImage : Zmap.Erofs where
  view := (countingBytes 130).drop 65 ++ (countingBytes 130).take 65
  blkszbits := 9
  metaBase := 0
  packedNid := 0
  bits := Zmap.smallestBlock_bits

def turnedExt : Zmap.ZExt := ⟨0, 130, .raw 0 130 (.interlaced 65) false⟩

def noDecoders : Zmap.Decoders where
  lz4 _ _ := .error ""
  microlzma _ _ _ := .error 0
  deflate _ _ := .error ""
  zstd _ _ := .error ""

theorem spliceRotated_inverts_half :
    (∀ s ∈ spliceRotated ⟨0, 130, 0, 130, false, some 65⟩ (countingBytes 130) turnedImage.view
        [⟨0, 0, 0, 130, true⟩],
      s.Places (fun _ => countingBytes 130) turnedImage.view ∧ 0 ≤ s.imageAt ∧
        s.imageAt + s.len ≤ 0 + 130) ∧
    spliceRotated ⟨0, 130, 0, 130, false, some 65⟩ (countingBytes 130) turnedImage.view
      [⟨0, 0, 0, 130, true⟩] = [.tabled 0 65 65 0 0, .tabled 0 0 65 0 65] := by
  have hlen : (countingBytes 130).length = 130 := by decide +kernel
  have hread : Zmap.readExactAt turnedImage.view 130 0 = .ok turnedImage.view := by decide +kernel
  have h := spliceRotated_inverts turnedImage noDecoders (e := turnedExt) rfl rfl (by decide) rfl
    (by decide) hlen hread
  refine ⟨(h.2.2 (fun _ => countingBytes 130) (countingBytes 130) [⟨0, 0, 0, 130, true⟩] ?_ ?_).1, ?_⟩
  · intro c hc
    rw [List.mem_singleton.mp hc]
    exact SameRange.refl hlen.ge
  · exact SameRange.refl hlen.ge
  · decide +kernel

/-! ### Re-encoded pclusters -/

def PcInput.isMember : PcInput → Bool
  | .member .. => true
  | .literal .. => false

/-- The bytes an input stands for, given what has been spooled. -/
def PcInput.bytes (member : ℕ → Bytes) (spool : Bytes) : PcInput → Bytes
  | .member idx start len => ((member idx).drop start).take len
  | .literal off len _ inline => inline.getD ((spool.drop off).take len)

/-- The input a window is packed as. -/
def windowInput (w : Window Cover) : PcInput := .member w.item.idx (memberStart w) w.len

/-- Inputs with their places, one after the other. -/
def placedInputs : ℕ → List PcInput → List (ℕ × PcInput)
  | _, [] => []
  | pos, i :: rest => (pos, i) :: placedInputs (pos + i.len) rest

/-- The placed inputs tile `[lo, hi)`. -/
abbrev TilesInputs (lo hi : ℕ) (inputs : List PcInput) : Prop :=
  Tiling.Tiles Prod.fst (fun p => p.2.len) lo hi (placedInputs lo inputs)

theorem placedInputs_append {lo mid : ℕ} {a : List PcInput} (h : TilesInputs lo mid a)
    (b : List PcInput) : placedInputs lo (a ++ b) = placedInputs lo a ++ placedInputs mid b := by
  induction a generalizing lo with
  | nil =>
    have hlo : lo = mid := h
    rw [hlo]
    rfl
  | cons i rest ih => rw [List.cons_append, placedInputs, placedInputs, ih h.2, List.cons_append]

/-- The inputs over `[lo, hi)` are the windows, and literals for what is between them.  The literals keep
their bytes whatever else is spooled. -/
structure CutAs (la : ℕ) (stream spool : Bytes) (lo hi : ℕ) (ws : List (Window Cover))
    (inputs : List PcInput) : Prop where
  tiles : TilesInputs lo hi inputs
  nonempty : ∀ i ∈ inputs, 0 < i.len
  members : (placedInputs lo inputs).filter (fun p => p.2.isMember) = ws.map fun w => (w.lo, windowInput w)
  literals : ∀ p ∈ placedInputs lo inputs, p.2.isMember = false → ∀ member more,
    p.2.bytes member (spool ++ more) = (stream.drop (p.1 - la)).take p.2.len

theorem CutAs.append {la lo mid hi : ℕ} {stream spool more : Bytes} {ws ws' : List (Window Cover)}
    {a b : List PcInput} (ha : CutAs la stream spool lo mid ws a)
    (hb : CutAs la stream (spool ++ more) mid hi ws' b) :
    CutAs la stream (spool ++ more) lo hi (ws ++ ws') (a ++ b) := by
  have hplaced := placedInputs_append ha.tiles b
  constructor
  · show Tiling.Tiles _ _ lo hi (placedInputs lo (a ++ b))
    rw [hplaced]
    exact Tiling.tiles_append.mpr ⟨mid, ha.tiles, hb.tiles⟩
  · intro i hi
    cases List.mem_append.mp hi with
    | inl hi => exact ha.nonempty i hi
    | inr hi => exact hb.nonempty i hi
  · rw [hplaced, List.filter_append, ha.members, hb.members, List.map_append]
  · intro p hp hlit member more'
    rw [hplaced] at hp
    cases List.mem_append.mp hp with
    | inl hp =>
      rw [List.append_assoc]
      exact ha.literals p hp hlit member (more ++ more')
    | inr hp => exact hb.literals p hp hlit member more'

theorem cutAs_nil (la : ℕ) (stream spool : Bytes) (lo : ℕ) : CutAs la stream spool lo lo [] [] where
  tiles := rfl
  nonempty := nofun
  members := rfl
  literals := nofun

theorem cutAs_window (la : ℕ) (stream spool : Bytes) {w : Window Cover} (hlt : w.lo < w.hi) :
    CutAs la stream spool w.lo w.hi [w] [windowInput w] where
  tiles := ⟨rfl, Nat.add_sub_cancel' hlt.le⟩
  nonempty := by
    intro i hi
    rw [List.mem_singleton.mp hi]
    exact Nat.sub_pos_of_lt hlt
  members := rfl
  literals := by
    intro p hp hlit
    rw [List.mem_singleton.mp hp] at hlit
    cases hlit

/-- A gap is cut as a literal. -/
theorem cutGap_cut {la lo hi : ℕ} {stream : Bytes} (hla : la ≤ lo) (hle : lo ≤ hi)
    (hhi : hi ≤ la + stream.length) (spool : Bytes) :
    ∃ inputs more, cutGap la stream lo hi spool = .ok (inputs, spool ++ more) ∧
      CutAs la stream (spool ++ more) lo hi [] inputs := by
  rw [cutGap]
  by_cases hlt : lo < hi
  · rw [if_pos hlt, cutLiteral, if_pos (by omega)]
    dsimp only
    have hcut : ∀ (i : PcInput) (more : Bytes), i.isMember = false → i.len = hi - lo →
        (∀ member more', i.bytes member (spool ++ more ++ more') = (stream.drop (lo - la)).take (hi - lo)) →
        CutAs la stream (spool ++ more) lo hi [] [i] := by
      intro i more hlit hlen hbytes
      constructor
      · refine ⟨rfl, ?_⟩
        show lo + i.len = hi
        omega
      · intro j hj
        rw [List.mem_singleton.mp hj, hlen]
        omega
      · show List.filter _ [(lo, i)] = []
        rw [List.filter_singleton, hlit]
        rfl
      · intro p hp _ member more'
        rw [List.mem_singleton.mp hp]
        show i.bytes member _ = (stream.drop (lo - la)).take i.len
        rw [hlen]
        exact hbytes member more'
    split_ifs with hshort
    · refine ⟨_, [], by rw [List.append_nil], hcut _ [] rfl rfl fun _ _ => rfl⟩
    · refine ⟨_, _, rfl, hcut _ _ rfl rfl ?_⟩
      intro member more'
      show ((spool ++ _ ++ more').drop spool.length).take (hi - lo) = _
      have hlen : ((stream.drop (lo - la)).take (hi - lo)).length = hi - lo := by
        rw [List.length_take, List.length_drop]
        omega
      rw [List.append_assoc, List.drop_left, List.take_append_of_le_length hlen.ge, List.take_take,
        Nat.min_self]
  · rw [if_neg hlt, show hi = lo by omega]
    refine ⟨[], [], by rw [List.append_nil], cutAs_nil ..⟩

/-- **The span that was fed is cut at the windows over it.** -/
theorem cutInputs_cut {la stop pos : ℕ} {stream : Bytes} (hla : la ≤ pos) (hle : pos ≤ stop)
    (hstop : stop ≤ la + stream.length) (covers : List Cover) (spool : Bytes) :
    ∃ inputs more, cutInputs la stream stop pos covers spool = .ok (inputs, spool ++ more) ∧
      CutAs la stream (spool ++ more) pos stop (coverWindows stop pos covers) inputs := by
  induction covers generalizing pos spool with
  | nil => exact cutGap_cut hla hle hstop spool
  | cons cv rest ih =>
    rw [cutInputs, coverWindows, windows]
    dsimp only
    split_ifs with hpast hbeyond hempty
    · exact ih hla hle spool
    · exact cutGap_cut hla hle hstop spool
    · exact ih hla hle spool
    · have hlo : max cv.pstart pos ≤ la + stream.length := by omega
      have hfrom : la ≤ min cv.stop stop := by omega
      obtain ⟨before, more, hbefore, hgap⟩ := cutGap_cut hla (Nat.le_max_right ..) hlo spool
      obtain ⟨after, more', hafter, hcut⟩ := ih hfrom (Nat.min_le_right ..) (spool ++ more)
      have hwindow := cutAs_window la stream (spool ++ more)
        (w := ⟨cv, max cv.pstart pos, min cv.stop stop⟩) (Nat.lt_of_not_le hempty)
      have hall := hgap.append (hwindow.append hcut)
      rw [List.append_assoc spool more more'] at hall hafter
      rw [hbefore]
      dsimp only
      rw [hafter]
      exact ⟨_, _, rfl, hall⟩

/-- Inputs that hold the bytes of their places, one after the other, hold the bytes of the whole. -/
theorem flatMap_bytes {member : ℕ → Bytes} {stream spool : Bytes} {la lo hi : ℕ} {inputs : List PcInput}
    (hla : la ≤ lo) (htiles : TilesInputs lo hi inputs)
    (hbytes : ∀ p ∈ placedInputs lo inputs,
      p.2.bytes member spool = (stream.drop (p.1 - la)).take p.2.len) :
    inputs.flatMap (PcInput.bytes member spool) = (stream.drop (lo - la)).take (hi - lo) := by
  induction inputs generalizing lo with
  | nil =>
    have hlo : lo = hi := htiles
    rw [hlo, Nat.sub_self, List.take_zero]
    rfl
  | cons i rest ih =>
    have hrest : TilesInputs (lo + i.len) hi rest := htiles.2
    have hhi := Tiling.Tiles.le hrest
    have hhead := hbytes (lo, i) List.mem_cons_self
    rw [List.flatMap_cons, hhead, ih (by omega) hrest fun p hp => hbytes p (List.mem_cons_of_mem _ hp)]
    dsimp only
    rw [show hi - lo = i.len + (hi - (lo + i.len)) by omega, List.take_add, List.drop_drop,
      show lo + i.len - la = lo - la + i.len by omega]

/-- The member inputs hold the bytes of their windows. -/
theorem CutAs.bytes {member : ℕ → Bytes} {stream feed spool : Bytes} {covers : List Cover}
    {la hi : ℕ} {inputs : List PcInput} (hcovers : ∀ c ∈ covers, c.Truthful member stream)
    (hfeed : feed <+: stream.drop la) (hhi : hi ≤ la + feed.length)
    (h : CutAs la feed spool la hi (coverWindows hi la covers) inputs) (more : Bytes) :
    ∀ p ∈ placedInputs la inputs,
      p.2.bytes member (spool ++ more) = (feed.drop (p.1 - la)).take p.2.len := by
  intro p hp
  cases hkind : p.2.isMember with
  | false => exact h.literals p hp hkind member more
  | true =>
    have hmem : p ∈ (placedInputs la inputs).filter fun p => p.2.isMember :=
      List.mem_filter.mpr ⟨hp, hkind⟩
    rw [h.members] at hmem
    obtain ⟨w, hw, rfl⟩ := List.mem_map.mp hmem
    have hwithin := (mem_windows hw).2
    have hat := hwithin.at_le
    have hlt := hwithin.lt
    have hlimit := hwithin.le_limit
    have hsame := (sameRange_window hcovers hw).entries
    show ((member w.item.idx).drop (memberStart w)).take w.len = (feed.drop (w.lo - la)).take w.len
    rw [hsame]
    obtain ⟨tail, htail⟩ := hfeed
    have hdrop : stream.drop w.lo = (feed ++ tail).drop (w.lo - la) := by
      rw [htail, List.drop_drop, Nat.add_sub_cancel' hat]
    rw [hdrop, List.drop_append_of_le_length (by omega), List.take_append_of_le_length]
    rw [List.length_drop, Window.len]
    omega

theorem mem_ladderLoop {llen streamLen acc n : ℕ} {ns : List ℕ}
    (h : n ∈ ladderLoop llen streamLen acc ns) :
    n ≤ streamLen ∧ ∃ m ∈ ns, n ≤ llen + m := by
  induction ns generalizing acc with
  | nil => cases h
  | cons m ns ih =>
    rw [ladderLoop] at h
    cases List.mem_cons.mp h with
    | inl heq =>
      subst heq
      refine ⟨Nat.min_le_right .., m, List.mem_cons_self, ?_⟩
      split_ifs <;> omega
    | inr hmem =>
      obtain ⟨hle, k, hk, hkle⟩ := ih hmem
      exact ⟨hle, k, List.mem_cons_of_mem m hk, hkle⟩

/-- What is fed is there, and is no more than the span and the margin past it. -/
theorem ladder_le {llen streamLen n : ℕ} (h : n ∈ ladder llen streamLen) :
    n ≤ streamLen ∧ n ≤ llen + encodeMargin := by
  have h := List.mem_dedup.mp h
  rw [ladderLoop] at h
  cases List.mem_cons.mp h with
  | inl heq =>
    rw [heq, if_pos rfl]
    omega
  | inr hrest =>
    obtain ⟨hle, m, hm, hnm⟩ := mem_ladderLoop hrest
    have hmargin : m ≤ encodeMargin := by
      simp only [List.mem_cons, List.not_mem_nil, or_false] at hm
      rw [encodeMargin] at hm ⊢
      omega
    omega

section

variable {encode : MicrolzmaEncoder} {stored : Bytes} {feed : Feed} {dictSize : UInt32}

/-- So much input makes the encoder give the stored bytes. -/
def Reproduces (encode : MicrolzmaEncoder) (stored : Bytes) (feed : Feed) (dictSize preset : UInt32)
    (fed : ℕ) : Prop :=
  ∃ out consumed, encode (feed.bytes.take fed) (stored.length - pclusterPadding stored) preset dictSize =
    .ok (out, consumed) ∧ padded (pclusterPadding stored) stored.length out = stored

theorem searchLengths_hit {preset : UInt32} {fed : ℕ} {lengths : List ℕ} {short : Bool}
    (h : searchLengths encode stored feed dictSize preset lengths short = .ok (.inr fed)) :
    fed ∈ lengths ∧ Reproduces encode stored feed dictSize preset fed := by
  induction lengths generalizing short with
  | nil => cases h
  | cons n rest ih =>
    rw [searchLengths] at h
    split at h
    · cases h
    · next out consumed hencode =>
      split_ifs at h with hshort hhit
      · exact ⟨List.mem_cons_of_mem n (ih h).1, (ih h).2⟩
      · cases h
        exact ⟨List.mem_cons_self, out, consumed, hencode, hhit⟩
      · exact ⟨List.mem_cons_of_mem n (ih h).1, (ih h).2⟩

theorem searchPresets_hit {llen : ℕ} {preset : UInt32} {fed : ℕ} {presets : List UInt32} {short : Bool}
    (h : searchPresets encode llen stored feed dictSize presets short = .ok (.inr (preset, fed))) :
    fed ∈ ladder llen feed.bytes.length ∧ Reproduces encode stored feed dictSize preset fed := by
  induction presets generalizing short with
  | nil => cases h
  | cons p rest ih =>
    rw [searchPresets] at h
    split at h
    · cases h
    · next n hhit =>
      cases h
      exact searchLengths_hit hhit
    · exact ih h

end

/-! ### Rebuilding -/

section

open RecProg RecProg.RecM

variable {E : Oracle Json Built Fault Fed}

/-- Calling on the node feeds just these bytes, whatever has been built. -/
def Feeds (E : Oracle Json Built Fault Fed) (json : Json) (bytes : Bytes) : Prop :=
  ∀ built, ∃ n built', E (json, built) (.ok (⟨bytes, n⟩, built'))

/-- Inputs that feed their bytes are put together, as long as they stay within the format's span. -/
theorem yields_span (name : String) {jsons : List Json} {chunks : List Bytes}
    (h : List.Forall₂ (Feeds E) jsons chunks) {input : Bytes}
    (hmax : input.length + chunks.flatten.length ≤ pclusterMaxDsize + encodeMargin) (built : Built) :
    ∃ built', Yields E (assembleSpan name jsons input) built (input ++ chunks.flatten) built' := by
  induction h generalizing input built with
  | nil =>
    rw [List.flatten_nil, List.append_nil]
    exact ⟨built, yields_pure.mpr ⟨rfl, rfl⟩⟩
  | @cons json chunk jsons chunks hhead hrest ih =>
    rw [List.flatten_cons, List.length_append] at hmax
    obtain ⟨n, built1, hfed⟩ := hhead built
    have hsum : (input ++ chunk).length + chunks.flatten.length ≤ pclusterMaxDsize + encodeMargin := by
      rw [List.length_append]
      omega
    obtain ⟨built2, htail⟩ := ih hsum built1
    rw [List.append_assoc, ← List.flatten_cons] at htail
    refine ⟨built2, yields_bind.mpr ⟨_, built1, yields_recur.mpr hfed, ?_⟩⟩
    refine yields_bind.mpr ⟨(), built1, yields_lift.mpr ⟨?_, rfl⟩, htail⟩
    exact ensure_eq_ok.mpr (by dsimp only; omega)

/-- The flag and the number carry the preset. -/
theorem preset_split (p : UInt32) :
    (p &&& ~~~lzmaPresetExtreme) |||
      (if p &&& lzmaPresetExtreme = 0 then 0 else lzmaPresetExtreme) = p := by
  have hbits : p &&& lzmaPresetExtreme = 0 ∨ p &&& lzmaPresetExtreme = lzmaPresetExtreme := by
    rw [← UInt32.toNat_inj, ← UInt32.toNat_inj, UInt32.toNat_and]
    show p.toNat &&& 2 ^ 31 = 0 ∨ p.toNat &&& 2 ^ 31 = 2 ^ 31
    rw [Nat.and_two_pow]
    cases p.toNat.testBit 31 <;> simp
  have hsplit : (p &&& ~~~lzmaPresetExtreme) ||| (p &&& lzmaPresetExtreme) = p := by
    rw [← UInt32.toBitVec_inj]
    show (p.toBitVec &&& _) ||| (p.toBitVec &&& _) = p.toBitVec
    rw [← BitVec.and_or_distrib_left]
    exact BitVec.and_allOnes
  cases hbits with
  | inl h =>
    rw [h] at hsplit
    rw [if_pos h]
    exact hsplit
  | inr h =>
    rw [h] at hsplit
    rw [h, if_neg (by decide)]
    exact hsplit

/-- What a checker reads off the node of a pcluster. -/
structure ReadsAs (b : Json) (node : PClusterNode) (jsons : List Json) : Prop where
  name : b["name"].asStr.getD "?" = node.name
  preset : b["params"]["preset"].asU64 = some (UInt64.ofNat (node.preset &&& ~~~lzmaPresetExtreme).toNat)
  extreme : b["params"]["extreme"].isBool true = decide (node.preset &&& lzmaPresetExtreme ≠ 0)
  dictSize : b["params"]["dict_size"].asU64 = some (UInt64.ofNat node.dictSize.toNat)
  pad : b["params"]["pad"].asU64 = some (UInt64.ofNat node.pad)
  size : b["output"]["size"].asU64 = some (UInt64.ofNat node.size)
  inputs : b["inputs"].asArray = some jsons

theorem pclusterJson_reads {T : Tree} {nodeOf : ℕ → Option ℕ} {node : PClusterNode} {json : Json}
    (h : pclusterJson T nodeOf node = .ok json) :
    ∃ jsons, node.inputs.mapM (pcInputJson T nodeOf) = .ok jsons ∧ ReadsAs json["build"] node jsons := by
  obtain ⟨jsons, hjsons, h⟩ := bind_eq_ok.mp h
  cases h
  refine ⟨jsons, hjsons, ?_⟩
  refine ⟨rfl, rfl, ?_, rfl, rfl, rfl, rfl⟩
  by_cases hextreme : node.preset &&& lzmaPresetExtreme = 0
  · simp [lookup_cons, hextreme, Json.isBool]
  · simp [lookup_cons, hextreme, Json.isBool]

/-- **A node whose inputs feed what was fed to the encoder is rebuilt.** -/
theorem yields_microlzma {ctx : CheckCtx} {node : PClusterNode} {b : Json} {jsons : List Json}
    (hreads : ReadsAs b node jsons) {chunks : List Bytes} (hfeeds : List.Forall₂ (Feeds E) jsons chunks)
    (hmax : chunks.flatten.length ≤ pclusterMaxDsize + encodeMargin) (hpad : node.pad < node.size)
    (hsize : node.size ≤ pclusterMaxSize) {stored out : Bytes}
    (hencode : ctx.codecs.microlzmaEncode chunks.flatten (node.size - node.pad) node.preset node.dictSize =
      .ok out)
    (hout : padded node.pad node.size out = stored) (built : Built) :
    ∃ built', Yields E (assembleMicrolzma ctx b (ctx.codecs.sha256Hex stored)) built
      ⟨stored, UInt64.ofNat node.size⟩ built' := by
  have hsize64 : (UInt64.ofNat node.size).toNat = node.size := by
    apply toNat_ofNat_of_lt
    rw [pclusterMaxSize] at hsize
    omega
  have hpad64 : (UInt64.ofNat node.pad).toNat = node.pad := by
    apply toNat_ofNat_of_lt
    rw [pclusterMaxSize] at hsize
    omega
  have hpreset : (UInt64.ofNat (node.preset &&& ~~~lzmaPresetExtreme).toNat).toUInt32 |||
      (if b["params"]["extreme"].isBool true = true then lzmaPresetExtreme else 0) = node.preset := by
    rw [hreads.extreme, UInt64.toUInt32_ofNat', UInt32.ofNat_toNat]
    have hsplit := preset_split node.preset
    by_cases hextreme : node.preset &&& lzmaPresetExtreme = 0
    · rw [if_pos hextreme] at hsplit
      rw [if_neg (by simpa using hextreme)]
      exact hsplit
    · rw [if_neg hextreme] at hsplit
      rw [if_pos (decide_eq_true hextreme)]
      exact hsplit
  have hdict : (UInt64.ofNat node.dictSize.toNat).toUInt32 = node.dictSize := by
    rw [UInt64.toUInt32_ofNat', UInt32.ofNat_toNat]
  have hmax' : ([] : Bytes).length + chunks.flatten.length ≤ pclusterMaxDsize + encodeMargin := by
    rw [List.length_nil, Nat.zero_add]
    exact hmax
  obtain ⟨built', hspan⟩ := yields_span (b["name"].asStr.getD "?") hfeeds hmax' built
  refine ⟨built', ?_⟩
  rw [assembleMicrolzma]
  refine yields_bind.mpr ⟨_, built, yields_lift.mpr ⟨need_eq_ok.mpr hreads.preset, rfl⟩, ?_⟩
  refine yields_bind.mpr ⟨_, built, yields_lift.mpr ⟨need_eq_ok.mpr hreads.dictSize, rfl⟩, ?_⟩
  refine yields_bind.mpr ⟨_, built, yields_lift.mpr ⟨need_eq_ok.mpr hreads.size, rfl⟩, ?_⟩
  dsimp only
  rw [hreads.pad, Option.getD_some, hsize64, hpad64, hpreset, hdict]
  refine yields_bind.mpr ⟨(), built, yields_lift.mpr ⟨ensure_eq_ok.mpr ⟨hpad, hsize⟩, rfl⟩, ?_⟩
  refine yields_bind.mpr ⟨_, built, yields_lift.mpr ⟨need_eq_ok.mpr hreads.inputs, rfl⟩, ?_⟩
  refine yields_bind.mpr ⟨_, built', hspan, ?_⟩
  rw [List.nil_append, hencode]
  dsimp only
  have hbytes : resize (List.replicate node.pad 0 ++ out) node.size = stored := hout
  rw [hbytes]
  refine yields_bind.mpr ⟨(), built', yields_lift.mpr ⟨ensure_eq_ok.mpr rfl, rfl⟩, ?_⟩
  exact yields_pure.mpr ⟨rfl, rfl⟩

end

/-! ### Planned nodes -/

/-- The covers come by where they start. -/
theorem Cover.before_pstart {covers : List Cover} (h : covers.Pairwise Cover.Before) :
    covers.Pairwise fun a b => a.pstart ≤ b.pstart := by
  apply h.imp
  intro a b hab
  cases hab with
  | inl hlt => exact hlt.le
  | inr heq => exact heq.1.le

/-- **No cover is over a literal.** -/
theorem CutAs.uncovered {la hi : ℕ} {stream spool : Bytes} {covers : List Cover} {inputs : List PcInput}
    (hsorted : covers.Pairwise Cover.Before)
    (h : CutAs la stream spool la hi (coverWindows hi la covers) inputs) {p : ℕ × PcInput}
    (hp : p ∈ placedInputs la inputs) (hlit : p.2.isMember = false) {c : Cover} (hc : c ∈ covers) {q : ℕ}
    (hlo : p.1 ≤ q) (hhi : q < p.1 + p.2.len) : ¬ (c.pstart ≤ q ∧ q < c.stop) := by
  intro hover
  have hbounds := Tiling.Tiles.bounds h.tiles hp
  have hwindow : ∃ w ∈ coverWindows hi la covers, w.lo ≤ q ∧ q < w.hi :=
    (mem_window_iff (Cover.before_pstart hsorted) (hbounds.1.trans hlo) (hhi.trans_le hbounds.2)).mpr
      ⟨c, hc, hover⟩
  obtain ⟨w, hw, hwlo, hwhi⟩ := hwindow
  have hplaced : (w.lo, windowInput w) ∈ (placedInputs la inputs).filter fun p => p.2.isMember := by
    rw [h.members]
    exact List.mem_map_of_mem hw
  have hlen : (windowInput w).len = w.hi - w.lo := rfl
  cases Tiling.Tiles.eq_or_apart h.tiles hp (List.mem_filter.mp hplaced).1 with
  | inl heq =>
    rw [heq] at hlit
    cases hlit
  | inr hapart =>
    rw [Tiling.Apart] at hapart
    dsimp only at hapart
    omega

/-- The verify pass says where the residue has a literal; nothing else changes. -/
inductive PcInput.Filled : PcInput → PcInput → Prop
  | same (i : PcInput) : Filled i i
  | literal (off len : ℕ) (residueOff : Option ℕ) (inline : Option Bytes) :
    Filled (.literal off len none inline) (.literal off len residueOff inline)

/-- What there is when a node is planned. -/
theorem planPcluster_hit {encode : MicrolzmaEncoder} {sha256 : Bytes → Bytes} {pc : PCluster}
    {stored : Bytes} {feed : Feed} {covers : List Cover} {known : Option UInt32}
    {dictSize preset : UInt32} {spool spool' : Bytes} {node : PClusterNode}
    (h : planPcluster encode sha256 pc stored feed covers known dictSize spool
      = .ok (some (node, preset), spool')) :
    pclusterPadding stored < stored.length ∧ ∃ fed ∈ ladder pc.llen feed.bytes.length,
      Reproduces encode stored feed dictSize preset fed ∧
      ∃ inputs name, cutInputs pc.la feed.bytes (pc.la + fed) pc.la covers spool = .ok (inputs, spool') ∧
        node = ⟨pc.plen, sha256 stored, pclusterPadding stored, preset, dictSize, inputs, name⟩ := by
  rw [planPcluster] at h
  dsimp only at h
  split at h
  · cases h
  · next hpad =>
    split at h
    · cases h
    · split at h <;> cases h
    · next p fed hsearch =>
      obtain ⟨hladder, hencode⟩ := searchPresets_hit hsearch
      split at h
      · cases h
      · next inputs sp hcut =>
        split at h
        · cases h
          exact ⟨Nat.lt_of_not_le hpad, fed, hladder, hencode, inputs, _, hcut, rfl⟩
        · cases h

/-- **A pcluster is cut exactly.**  The inputs of a planned node tile the bytes fed to the encoder: the
windows of the covers over them, which `splice_span` splices too, and literals where no cover is.  So they
are those bytes, and a checker whose encoder is the planner's makes the stored bytes of them again. -/
theorem planPcluster_cuts {encode : MicrolzmaEncoder} {sha256 : Bytes → Bytes} {member : ℕ → Bytes}
    {stream : Bytes} {pc : PCluster} {stored : Bytes} {feed : Feed} {covers : List Cover}
    {known : Option UInt32} {dictSize preset : UInt32} {spool spool' : Bytes} {node : PClusterNode}
    (hcovers : ∀ c ∈ covers, c.Truthful member stream) (hsorted : covers.Pairwise Cover.Before)
    (hfeed : feed.bytes <+: stream.drop pc.la) (hstored : stored.length = pc.plen)
    (hplen : pc.plen ≤ pclusterMaxSize) (hllen : pc.llen ≤ pclusterMaxDsize)
    (hplan : planPcluster encode sha256 pc stored feed covers known dictSize spool
      = .ok (some (node, preset), spool')) :
    ∃ fed ≤ feed.bytes.length,
      CutAs pc.la feed.bytes spool' pc.la (pc.la + fed) (coverWindows (pc.la + fed) pc.la covers)
        node.inputs ∧
      (∀ p ∈ placedInputs pc.la node.inputs, p.2.isMember = false → ∀ c ∈ covers, ∀ q,
        p.1 ≤ q → q < p.1 + p.2.len → ¬ (c.pstart ≤ q ∧ q < c.stop)) ∧
      node.inputs.flatMap (PcInput.bytes member spool') = (stream.drop pc.la).take fed ∧
      (∀ rootAt, spliceSpan covers pc.la fed rootAt =
        ((coverWindows (pc.la + fed) pc.la covers).filter fun w => inlineMax < w.len).map
          (windowSeg pc.la rootAt)) ∧
      ∀ (E : RecProg.RecM.Oracle Json Built Fault Fed) (ctx : CheckCtx) (T : Tree) (nodeOf : ℕ → Option ℕ)
        (inputs : List PcInput) (json : Json) (jsons : List Json) (built : Built),
        ctx.codecs.sha256 = sha256 →
        (∀ input size p d, ctx.codecs.microlzmaEncode input size p d = (encode input size p d).map Prod.fst) →
        List.Forall₂ PcInput.Filled node.inputs inputs →
        pclusterJson T nodeOf { node with inputs := inputs } = .ok json →
        json["build"]["inputs"].asArray = some jsons →
        List.Forall₂ (Feeds E) jsons (node.inputs.map (PcInput.bytes member spool')) →
        ∃ built', RecProg.RecM.Yields E
          (assembleMicrolzma ctx json["build"] (String.ofList (hexLower node.sha256))) built
          ⟨stored, UInt64.ofNat stored.length⟩ built' := by
  obtain ⟨hpad, fed, hladder, ⟨out, consumed, hencode, hout⟩, cut, name, hcut, rfl⟩ :=
    planPcluster_hit hplan
  obtain ⟨hfed, hmargin⟩ := ladder_le hladder
  have hend : pc.la + fed ≤ pc.la + feed.bytes.length := by omega
  obtain ⟨made, more, hcut', hcutAs⟩ := cutInputs_cut le_rfl (Nat.le_add_right pc.la fed) hend covers spool
  rw [hcut'] at hcut
  cases hcut
  have hplaces := hcutAs.bytes hcovers hfeed hend []
  rw [List.append_nil] at hplaces
  have hbytes := flatMap_bytes le_rfl hcutAs.tiles hplaces
  rw [Nat.sub_self, List.drop_zero, Nat.add_sub_cancel_left] at hbytes
  have hstream : (stream.drop pc.la).take fed = feed.bytes.take fed := by
    obtain ⟨tail, htail⟩ := hfeed
    rw [← htail, List.take_append_of_le_length hfed]
  refine ⟨fed, hfed, hcutAs, ?_, hbytes.trans hstream.symm, ?_, ?_⟩
  · intro p hp hlit c hc q
    exact hcutAs.uncovered hsorted hp hlit hc
  · exact spliceSpan_eq covers pc.la fed
  · intro E ctx T nodeOf inputs json jsons built hsha hcodec hfilled hjson hjsons hfeeds
    obtain ⟨jsons', -, hreads⟩ := pclusterJson_reads hjson
    have hsame : jsons' = jsons := Option.some.inj (hreads.inputs.symm.trans hjsons)
    subst hsame
    have hflat : (cut.map (PcInput.bytes member (spool ++ more))).flatten = feed.bytes.take fed := by
      rw [← List.flatMap_def]
      exact hbytes
    have hfedlen : (feed.bytes.take fed).length = fed := by
      rw [List.length_take]
      omega
    have hsha256 : String.ofList (hexLower (sha256 stored)) = ctx.codecs.sha256Hex stored := by
      rw [Codecs.sha256Hex, hsha]
    show ∃ built', RecProg.RecM.Yields E (assembleMicrolzma ctx json["build"]
      (String.ofList (hexLower (sha256 stored)))) built _ built'
    rw [hsha256, hstored]
    have hmax : (cut.map (PcInput.bytes member (spool ++ more))).flatten.length ≤
        pclusterMaxDsize + encodeMargin := by
      rw [hflat, hfedlen]
      omega
    have hroom : pclusterPadding stored < pc.plen := by omega
    have hagain : ctx.codecs.microlzmaEncode (cut.map (PcInput.bytes member (spool ++ more))).flatten
        (pc.plen - pclusterPadding stored) preset dictSize = .ok out := by
      rw [hflat, hcodec, ← hstored, hencode]
      rfl
    have hstands : padded (pclusterPadding stored) pc.plen out = stored := by
      rw [← hstored]
      exact hout
    exact yields_microlzma hreads hfeeds hmax hroom hplen hagain hstands built

/-- An encoder that copies what fits. -/
def copyEncode : MicrolzmaEncoder := fun input size _ _ => .ok (input.take size, min input.length size)

def copyCtx : CheckCtx :=
  { codecs :=
      { sha256 := fun bytes => bytes
        gzipBody := fun _ _ => .error "no gzip"
        zstdBody := fun _ _ _ => .error "no zstd"
        zstdVersion := ""
        microlzmaEncode := fun input size p d => (copyEncode input size p d).map Prod.fst
        archiveExtract := fun _ _ => .error "no archive" }
    blobs := fun _ => none
    sources := []
    residue := none }

def noTree : Tree where
  members := []
  evidence := []
  deeper := nofun

def copyNode : PClusterNode := ⟨3, [1, 2, 3], 0, 6, 0, [.member 0 0 3], "pcluster@0"⟩

theorem planPcluster_cuts_copy :
    ∃ fed ≤ 3, copyNode.inputs.flatMap (PcInput.bytes (fun _ => [1, 2, 3]) []) =
        (([1, 2, 3] : Bytes).drop 0).take fed ∧
      ∀ json jsons, pclusterJson noTree some copyNode = .ok json →
        json["build"]["inputs"].asArray = some jsons →
        List.Forall₂ (Feeds fun c r => r = .ok (⟨[1, 2, 3], 3⟩, c.2)) jsons [[1, 2, 3]] →
        ∃ built', RecProg.RecM.Yields (fun c r => r = .ok (⟨[1, 2, 3], 3⟩, c.2))
          (assembleMicrolzma copyCtx json["build"] (String.ofList (hexLower [1, 2, 3]))) []
          ⟨[1, 2, 3], 3⟩ built' := by
  have hcovers : ∀ c ∈ [(⟨0, 0, 0, 3, true⟩ : Cover)], c.Truthful (fun _ => [1, 2, 3]) [1, 2, 3] := by
    intro c hc
    rw [List.mem_singleton.mp hc]
    exact SameRange.refl (by decide)
  have hplan : planPcluster copyEncode (fun bytes => bytes) ⟨0, 3, 0, 3, true, none⟩ [1, 2, 3]
      ⟨[1, 2, 3], false⟩ [⟨0, 0, 0, 3, true⟩] none 0 [] = .ok (some (copyNode, 6), []) := by
    decide +kernel
  obtain ⟨fed, hfed, -, -, hbytes, -, hrebuild⟩ := planPcluster_cuts hcovers (List.pairwise_singleton ..)
    (List.prefix_refl _) rfl (by decide) (by decide) hplan
  refine ⟨fed, hfed, hbytes, ?_⟩
  intro json jsons hjson hjsons hfeeds
  exact hrebuild _ copyCtx noTree some copyNode.inputs json jsons [] rfl (fun _ _ _ _ => rfl)
    (.cons (.same _) .nil) hjson hjsons hfeeds

end Hashdex
