import Hashdex.Erofs.Zplan

/-!
# The packs of a compact index

A compact index area has three regions: 4-byte entries up to an alignment, 2-byte entries in packs of
sixteen, and 4-byte entries again.  The entries of a pack are packed as bits, before the block address
that the pack ends with, and their width depends on the size of a cluster.

* `walkBack_eq`: the walk back through a pack ends, whatever the entries say
* `packEntry_eq`: the bits that an entry is decoded from
* `bitsOf_disjoint_iff`: two clusters are decoded from different bits, unless the 2-byte entries of large
  clusters overlap
-/

namespace Hashdex.Zmap

open BitArray

/-! ### The walk back through a pack -/

/-- The counters of the walk. -/
structure BackState where
  j : ℤ
  nblk : ℕ

/-- One turn of the loop, while `j` is positive. -/
def backStep (big : Bool) (entry : ℕ → ℕ × LclType) (s : BackState) : Except Fault BackState :=
  let j := s.j - 1
  let (lo, ty) := entry j.toNat
  if big then
    if ty = .nonhead then
      match cblkcntOf lo with
      | some n => .ok ⟨j - 1, s.nblk + n⟩
      | none =>
        if 1 < lo then .ok ⟨j - (lo - 2), s.nblk⟩
        else .error (.error "corrupt compact index (d0 <= 1 in big pcluster)")
    else .ok ⟨j, s.nblk + 1⟩
  else
    let j := if ty = .nonhead then j - lo else j
    .ok ⟨j, if 0 ≤ j then s.nblk + 1 else s.nblk⟩

/-- The loop, for so many turns at most; `none` when they do not suffice. -/
def walkBack (big : Bool) (entry : ℕ → ℕ × LclType) : ℕ → BackState → Option (Except Fault ℕ)
  | fuel, s =>
    if s.j ≤ 0 then some (.ok s.nblk)
    else
      match fuel with
      | 0 => none
      | fuel + 1 =>
        match backStep big entry s with
        | .ok s' => walkBack big entry fuel s'
        | .error e => some (.error e)

/-- Where the walk back from an entry begins. -/
def backFrom (big : Bool) (i : ℕ) : BackState := ⟨i, if big then 0 else 1⟩

theorem walkBack_done {big : Bool} {entry : ℕ → ℕ × LclType} (fuel : ℕ) {s : BackState}
    (h : s.j ≤ 0) : walkBack big entry fuel s = some (.ok s.nblk) := by
  unfold walkBack
  exact if_pos h

theorem walkBack_small {entry : ℕ → ℕ × LclType} {fuel j : ℕ} (h : j ≤ fuel) (n : ℕ) :
    walkBack false entry fuel ⟨j, n⟩ = some (.ok (n + blocksBefore entry j)) := by
  induction fuel generalizing j n with
  | zero =>
    have hj : j = 0 := by omega
    subst hj
    rw [walkBack_done 0 (le_refl _), blocksBefore, Nat.add_zero]
  | succ fuel ih =>
    cases j with
    | zero => rw [walkBack_done _ (le_refl _), blocksBefore, Nat.add_zero]
    | succ j =>
      have hpos : ¬ ((j + 1 : ℕ) : ℤ) ≤ 0 := by omega
      have hnat : (((j + 1 : ℕ) : ℤ) - 1).toNat = j := by omega
      rw [walkBack, if_neg hpos, blocksBefore]
      simp only [backStep, hnat, Bool.false_eq_true, if_false]
      by_cases hty : (entry j).2 = .nonhead
      · by_cases hlo : (entry j).1 ≤ j
        · have hback : ((j + 1 : ℕ) : ℤ) - 1 - (entry j).1 = ((j - (entry j).1 : ℕ) : ℤ) := by omega
          have hkept : (0 : ℤ) ≤ ((j - (entry j).1 : ℕ) : ℤ) := by omega
          simp only [if_pos hty, if_pos hlo, hback, if_pos hkept]
          rw [ih (by omega)]
          congr 2
          omega
        · have hgone : ((j + 1 : ℕ) : ℤ) - 1 - (entry j).1 < 0 := by omega
          simp only [if_pos hty, if_neg hlo, if_neg (not_le.mpr hgone)]
          rw [walkBack_done _ hgone.le]
          rfl
      · have hback : ((j + 1 : ℕ) : ℤ) - 1 = (j : ℤ) := by omega
        simp only [if_neg hty, hback, if_pos (Int.natCast_nonneg j)]
        rw [ih (by omega)]
        congr 2
        omega

/-- What is counted so far is added to what the rest of the walk counts. -/
def addBlocks (n : ℕ) (r : Except Fault ℕ) : Except Fault ℕ := (n + ·) <$> r

theorem walkBack_big {entry : ℕ → ℕ × LclType} {fuel j : ℕ} (h : j ≤ fuel) (n : ℕ) :
    walkBack true entry fuel ⟨j, n⟩ = some (addBlocks n (blocksBeforeBig entry j)) := by
  induction fuel generalizing j n with
  | zero =>
    have hj : j = 0 := by omega
    subst hj
    rw [walkBack_done 0 (le_refl _), blocksBeforeBig]
    rfl
  | succ fuel ih =>
    cases j with
    | zero =>
      rw [walkBack_done _ (le_refl _), blocksBeforeBig]
      rfl
    | succ j =>
      have hpos : ¬ ((j + 1 : ℕ) : ℤ) ≤ 0 := by omega
      have hnat : (((j + 1 : ℕ) : ℤ) - 1).toNat = j := by omega
      rw [walkBack, if_neg hpos, blocksBeforeBig]
      simp only [backStep, hnat, if_true]
      by_cases hty : (entry j).2 = .nonhead
      · simp only [if_pos hty]
        cases cblkcntOf (entry j).1 with
        | some m =>
          cases j with
          | zero =>
            have hgone : ((0 + 1 : ℕ) : ℤ) - 1 - 1 ≤ 0 := by omega
            simp only
            rw [walkBack_done _ hgone]
            simp [addBlocks, blocksBeforeBig, bind, Except.bind]
          | succ j =>
            have hback : ((j + 1 + 1 : ℕ) : ℤ) - 1 - 1 = (j : ℤ) := by omega
            simp only [hback, Nat.add_sub_cancel]
            rw [ih (by omega)]
            cases blocksBeforeBig entry j <;> simp [addBlocks, bind, Except.bind, Nat.add_assoc]
        | none =>
          by_cases hlo : 1 < (entry j).1
          · simp only [if_pos hlo]
            by_cases hkept : (entry j).1 - 2 ≤ j
            · have hback : ((j + 1 : ℕ) : ℤ) - 1 - ((entry j).1 - 2) =
                  ((j - ((entry j).1 - 2) : ℕ) : ℤ) := by omega
              rw [hback, ih (by omega)]
            · have hgone : ((j + 1 : ℕ) : ℤ) - 1 - ((entry j).1 - 2) ≤ 0 := by omega
              have hzero : j - ((entry j).1 - 2) = 0 := by omega
              rw [walkBack_done _ hgone, hzero, blocksBeforeBig]
              rfl
          · simp only [if_neg hlo]
            rfl
      · have hback : ((j + 1 : ℕ) : ℤ) - 1 = (j : ℤ) := by omega
        simp only [if_neg hty, hback]
        rw [ih (by omega)]
        cases blocksBeforeBig entry j <;> simp [addBlocks, bind, Except.bind, Nat.add_assoc]

/-- **The walk back ends**, within as many turns as there are entries before the head, and counts the
blocks up to it. -/
theorem walkBack_eq (big : Bool) (entry : ℕ → ℕ × LclType) {fuel i : ℕ} (h : i ≤ fuel) :
    walkBack big entry fuel (backFrom big i) = some (blocksUpTo big entry i) := by
  cases big with
  | false => exact walkBack_small h 1
  | true =>
    have hwalk := @walkBack_big entry _ _ h 0
    have hzero : addBlocks 0 (blocksBeforeBig entry i) = blocksBeforeBig entry i := by
      cases blocksBeforeBig entry i <;> simp [addBlocks]
    rwa [hzero] at hwalk

/-! ### Where an entry is -/

/-- The position function of `load_indexes`, whose index and position move together. -/
def loadPosOf (ebase c4init c2b lcn : ℕ) : ℕ × ℕ :=
  let (pos, l, shift) :=
    if c4init ≤ lcn then
      let pos := ebase + c4init * 4
      let l := lcn - c4init
      if l < c2b then (pos, l, 1) else (pos + c2b * 2, l - c2b, 2)
    else (ebase, lcn, 2)
  (pos + l <<< shift, shift)

/-- The two position functions are one. -/
theorem loadPosOf_eq (ebase c4init c2b lcn : ℕ) :
    loadPosOf ebase c4init c2b lcn = posOf ebase c4init c2b lcn := by
  have hone (l : ℕ) : l <<< 1 = l * 2 := Nat.shiftLeft_eq l 1
  have htwo (l : ℕ) : l <<< 2 = l * 4 := Nat.shiftLeft_eq l 2
  rw [loadPosOf, posOf]
  by_cases hlead : c4init ≤ lcn
  · by_cases hmid : lcn - c4init < c2b
    · simp only [if_pos hlead, if_pos hmid, hone]
    · simp only [if_pos hlead, if_neg hmid, htwo]
  · simp only [if_neg hlead, htwo]

/-- Entries before the 2-byte packs, which begin at a multiple of 32 bytes. -/
def c4initOf (ebase : ℕ) : ℕ := (32 - ebase % 32) / 4 % 8

/-- Entries in 2-byte packs, which are full. -/
def c2bOf (advise totalidx c4init : ℕ) : ℕ :=
  if advise &&& advCompacted2b ≠ 0 ∧ c4init < totalidx then (totalidx - c4init) / 16 * 16 else 0

def blocksOf (fs : Erofs) (size : ℕ) : ℕ := (size + fs.blksz - 1) / fs.blksz

/-- What the indexes of a compact inode are decoded by. -/
def Erofs.compactOf (fs : Erofs) (ino : Inode) (hpos advise lcb : ℕ) : Compact where
  ebase := hpos + 8
  lclusterbits := lcb
  totalidx := blocksOf fs ino.size
  c4init := c4initOf (hpos + 8)
  c2b := c2bOf advise (blocksOf fs ino.size) (c4initOf (hpos + 8))
  big := advise &&& advBigPcluster1 ≠ 0

/-- The pack that `get_compact` reads for a cluster: its first byte and its size. -/
def Compact.packOf (k : Compact) (lcn : ℕ) : ℕ × ℕ := Zmap.packOf k.ebase k.c4init k.c2b lcn

/-- The pack that `load_indexes` finds a cluster in. -/
def Compact.loadPackOf (k : Compact) (lcn : ℕ) : ℕ × ℕ :=
  let (pos, shift) := loadPosOf k.ebase k.c4init k.c2b lcn
  let packsz := vcntOf shift <<< shift
  (pos / packsz * packsz, packsz)

theorem Compact.loadPackOf_eq (k : Compact) (lcn : ℕ) : k.loadPackOf lcn = k.packOf lcn := by
  rw [Compact.loadPackOf, Compact.packOf, Zmap.packOf, loadPosOf_eq]

/-- Which entry of its pack a cluster's is. -/
def Compact.entryNo (k : Compact) (lcn : ℕ) : ℕ :=
  let (pos, shift) := posOf k.ebase k.c4init k.c2b lcn
  (pos - (k.packOf lcn).1) >>> shift

/-- The bits of an entry and the room for each in a pack. -/
def Compact.lobits (k : Compact) : ℕ := max k.lclusterbits 12

def Compact.encodebits (k : Compact) (lcn : ℕ) : ℕ :=
  ((k.packOf lcn).2 - 4) * 8 / vcntOf (posOf k.ebase k.c4init k.c2b lcn).2

/-- The first bit of a cluster's entry, from the start of the index area. -/
def Compact.firstBit (k : Compact) (lcn : ℕ) : ℕ :=
  8 * ((k.packOf lcn).1 - k.ebase) + k.encodebits lcn * k.entryNo lcn

/-- How many bits an entry is decoded from, its type being the last two. -/
def Compact.width (k : Compact) : ℕ := k.lobits + 2

/-- The index area of a compact inode, as `load_indexes` lays it out. -/
structure Compact.Aligned (k : Compact) : Prop where
  ebase : k.ebase % 8 = 0
  c4init : k.c4init = c4initOf k.ebase
  c2b : k.c2b % 16 = 0

theorem Erofs.compactOf_aligned (fs : Erofs) (ino : Inode) (advise lcb : ℕ) :
    (fs.compactOf ino (align8 ino.stop) advise lcb).Aligned := by
  constructor
  · show (align8 ino.stop + 8) % 8 = 0
    rw [align8]
    omega
  · rfl
  · show c2bOf _ _ _ % 16 = 0
    rw [c2bOf]
    split_ifs
    · omega
    · rfl

/-- The region of a cluster, with what its pack and its entry are there. -/
inductive Compact.Region (k : Compact) (lcn : ℕ) : Prop where
  /-- The 4-byte entries up to the alignment. -/
  | leading (h : lcn < k.c4init) (hpack : k.packOf lcn = (k.ebase + lcn / 2 * 8, 8))
      (hno : k.entryNo lcn = lcn % 2) (hbits : k.encodebits lcn = 16)
  /-- The 2-byte entries. -/
  | middle (l : ℕ) (h : lcn = k.c4init + l) (hl : l < k.c2b)
      (hpack : k.packOf lcn = (k.ebase + k.c4init * 4 + l / 16 * 32, 32))
      (hno : k.entryNo lcn = l % 16) (hbits : k.encodebits lcn = 14)
  /-- The 4-byte entries behind them. -/
  | trailing (l : ℕ) (h : lcn = k.c4init + k.c2b + l)
      (hpack : k.packOf lcn = (k.ebase + k.c4init * 4 + k.c2b * 2 + l / 2 * 8, 8))
      (hno : k.entryNo lcn = l % 2) (hbits : k.encodebits lcn = 16)

theorem Compact.Aligned.region {k : Compact} (hk : k.Aligned) (lcn : ℕ) : k.Region lcn := by
  have h4 : vcntOf 2 <<< 2 = 8 := rfl
  have h2 : vcntOf 1 <<< 1 = 32 := rfl
  have hroom4 : (8 - 4) * 8 / vcntOf 2 = 16 := rfl
  have hroom2 : (32 - 4) * 8 / vcntOf 1 = 14 := rfl
  have hebase := hk.ebase
  have hc4 := hk.c4init
  have hc2b := hk.c2b
  rw [c4initOf] at hc4
  by_cases hlead : k.c4init ≤ lcn
  · by_cases hmid : lcn - k.c4init < k.c2b
    · have hpos : posOf k.ebase k.c4init k.c2b lcn =
          (k.ebase + k.c4init * 4 + (lcn - k.c4init) * 2, 1) := by
        rw [posOf, if_pos hlead, if_pos hmid]
      have hpack : k.packOf lcn = (k.ebase + k.c4init * 4 + (lcn - k.c4init) / 16 * 32, 32) := by
        rw [Compact.packOf, Zmap.packOf, hpos]
        simp only [h2]
        congr 1
        omega
      refine .middle (lcn - k.c4init) (by omega) hmid hpack ?_ ?_
      · rw [Compact.entryNo, hpos, hpack]
        show (_ - _) >>> 1 = _
        rw [Nat.shiftRight_eq_div_pow]
        omega
      · rw [Compact.encodebits, hpos, hpack]
        exact hroom2
    · have hpos : posOf k.ebase k.c4init k.c2b lcn =
          (k.ebase + k.c4init * 4 + k.c2b * 2 + (lcn - k.c4init - k.c2b) * 4, 2) := by
        rw [posOf, if_pos hlead, if_neg hmid]
      have hpack : k.packOf lcn =
          (k.ebase + k.c4init * 4 + k.c2b * 2 + (lcn - k.c4init - k.c2b) / 2 * 8, 8) := by
        rw [Compact.packOf, Zmap.packOf, hpos]
        simp only [h4]
        congr 1
        omega
      refine .trailing (lcn - k.c4init - k.c2b) (by omega) hpack ?_ ?_
      · rw [Compact.entryNo, hpos, hpack]
        show (_ - _) >>> 2 = _
        rw [Nat.shiftRight_eq_div_pow]
        omega
      · rw [Compact.encodebits, hpos, hpack]
        exact hroom4
  · have hpos : posOf k.ebase k.c4init k.c2b lcn = (k.ebase + lcn * 4, 2) := by
      rw [posOf, if_neg hlead]
    have hpack : k.packOf lcn = (k.ebase + lcn / 2 * 8, 8) := by
      rw [Compact.packOf, Zmap.packOf, hpos]
      simp only [h4]
      congr 1
      omega
    refine .leading (by omega) hpack ?_ ?_
    · rw [Compact.entryNo, hpos, hpack]
      show (_ - _) >>> 2 = _
      rw [Nat.shiftRight_eq_div_pow]
      omega
    · rw [Compact.encodebits, hpos, hpack]
      exact hroom4

/-! ### Packs stay inside the buffer -/

/-- **No pack reaches behind a later cluster's**, and none begins before the area. -/
theorem Compact.Aligned.packOf_le {k : Compact} (hk : k.Aligned) {lcn last : ℕ} (h : lcn ≤ last) :
    k.ebase ≤ (k.packOf lcn).1 ∧
      (k.packOf lcn).1 + (k.packOf lcn).2 ≤ (k.packOf last).1 + (k.packOf last).2 :=
  packOf_mono hk.ebase hk.c4init hk.c2b h

/-! ### The bits of an entry -/

theorem Compact.Aligned.c4init_even {k : Compact} (hk : k.Aligned) : k.c4init % 2 = 0 := by
  have hebase := hk.ebase
  rw [hk.c4init, c4initOf]
  omega

/-- Later clusters are decoded from later bits, when an entry fits in the room it has. -/
theorem Compact.Aligned.firstBit_lt {k : Compact} (hk : k.Aligned) (hlcb : k.lclusterbits ≤ 14)
    (hfit : k.c2b = 0 ∨ k.lclusterbits ≤ 12) {lcn later : ℕ} (h : lcn < later) :
    k.firstBit lcn + k.width ≤ k.firstBit later := by
  have heven := hk.c4init_even
  have hc2b := hk.c2b
  have hwidth : k.width = max k.lclusterbits 12 + 2 := rfl
  rw [hwidth, Compact.firstBit, Compact.firstBit]
  cases hk.region lcn with
  | leading hl hpack hno hbits =>
    rw [hpack, hno, hbits]
    cases hk.region later with
    | leading hl' hpack' hno' hbits' =>
      rw [hpack', hno', hbits']
      omega
    | middle l' hl' hlt' hpack' hno' hbits' =>
      rw [hpack', hno', hbits']
      omega
    | trailing l' hl' hpack' hno' hbits' =>
      rw [hpack', hno', hbits']
      omega
  | middle l hl hlt hpack hno hbits =>
    rw [hpack, hno, hbits]
    cases hk.region later with
    | leading hl' hpack' hno' hbits' =>
      rw [hpack', hno', hbits']
      omega
    | middle l' hl' hlt' hpack' hno' hbits' =>
      rw [hpack', hno', hbits']
      omega
    | trailing l' hl' hpack' hno' hbits' =>
      rw [hpack', hno', hbits']
      omega
  | trailing l hl hpack hno hbits =>
    rw [hpack, hno, hbits]
    cases hk.region later with
    | leading hl' hpack' hno' hbits' =>
      rw [hpack', hno', hbits']
      omega
    | middle l' hl' hlt' hpack' hno' hbits' =>
      rw [hpack', hno', hbits']
      omega
    | trailing l' hl' hpack' hno' hbits' =>
      rw [hpack', hno', hbits']
      omega

/-- The clusters below a bound are decoded from bits of their own. -/
def Compact.Disjoint (k : Compact) (nlcl : ℕ) : Prop :=
  ∀ a b, a < nlcl → b < nlcl → a ≠ b →
    k.firstBit a + k.width ≤ k.firstBit b ∨ k.firstBit b + k.width ≤ k.firstBit a

/-- **Two clusters are decoded from different bits**, unless large clusters have 2-byte entries: there is
no room for the offset of one in the pack. -/
theorem Compact.Aligned.disjoint_iff {k : Compact} (hk : k.Aligned) (hlcb : k.lclusterbits ≤ 14)
    {nlcl : ℕ} (hnlcl : k.c2b = 0 ∨ k.c4init + k.c2b ≤ nlcl) :
    k.Disjoint nlcl ↔ k.c2b = 0 ∨ k.lclusterbits ≤ 12 := by
  constructor
  · intro h
    by_cases hzero : k.c2b = 0
    · exact .inl hzero
    · -- the first two 2-byte entries are neighbours in one pack
      have hc2b := hk.c2b
      have hbits := h k.c4init (k.c4init + 1) (by omega) (by omega) (by omega)
      have hwidth : k.width = max k.lclusterbits 12 + 2 := rfl
      have hfirst : k.firstBit k.c4init = 32 * k.c4init := by
        rw [Compact.firstBit]
        cases hk.region k.c4init with
        | leading hl hpack hno hbits => omega
        | middle l hl hlt hpack hno hbits =>
          rw [hpack, hno, hbits]
          omega
        | trailing l hl hpack hno hbits => omega
      have hsecond : k.firstBit (k.c4init + 1) = 32 * k.c4init + 14 := by
        rw [Compact.firstBit]
        cases hk.region (k.c4init + 1) with
        | leading hl hpack hno hbits => omega
        | middle l hl hlt hpack hno hbits =>
          rw [hpack, hno, hbits]
          omega
        | trailing l hl hpack hno hbits => omega
      right
      omega
  · intro hfit a b ha hb hab
    cases Nat.lt_or_gt_of_ne hab with
    | inl h => exact .inl (hk.firstBit_lt hlcb hfit h)
    | inr h => exact .inr (hk.firstBit_lt hlcb hfit h)

/-- An entry made of its bits. -/
def entryOfBits (lobits n : ℕ) : ℕ × LclType := (n % 2 ^ lobits, .ofBits (n / 2 ^ lobits))

theorem LclType.ofBits_mod (n : ℕ) : LclType.ofBits (n % 4) = LclType.ofBits n := by
  rw [LclType.ofBits, LclType.ofBits, Nat.mod_mod]

/-- **The bits that an entry is decoded from**, and no others of the pack. -/
theorem packEntry_eq (pack : Bytes) {lobits : ℕ} (hlo : lobits ≤ 14) (encodebits i : ℕ) :
    packEntry pack lobits encodebits i =
      entryOfBits lobits (bits (ofLe pack) (encodebits * i) (lobits + 2)) := by
  set bitpos := encodebits * i with hbitpos
  have hstart : 8 * (bitpos / 8) + bitpos % 8 = bitpos := Nat.div_add_mod bitpos 8
  have hword : le32 pack (bitpos / 8) = bits (ofLe pack) (8 * (bitpos / 8)) 32 :=
    ofLe_field_eq_bits pack (bitpos / 8) 4
  have hlow : (le32 pack (bitpos / 8) >>> (bitpos % 8)) % 2 ^ lobits = bits (ofLe pack) bitpos lobits := by
    rw [hword, Nat.shiftRight_eq_div_pow]
    show bits (bits (ofLe pack) (8 * (bitpos / 8)) 32) (bitpos % 8) lobits = _
    rw [bits_bits _ (by omega), hstart]
  have hhigh : (le32 pack (bitpos / 8) >>> (bitpos % 8) >>> lobits) % 4 =
      bits (ofLe pack) (bitpos + lobits) 2 := by
    rw [hword, Nat.shiftRight_eq_div_pow, Nat.shiftRight_eq_div_pow, Nat.div_div_eq_div_mul, ← pow_add]
    show bits (bits (ofLe pack) (8 * (bitpos / 8)) 32) (bitpos % 8 + lobits) 2 = _
    rw [bits_bits _ (by omega), ← Nat.add_assoc, hstart]
  have hlow' : bits (ofLe pack) bitpos (lobits + 2) % 2 ^ lobits = bits (ofLe pack) bitpos lobits := by
    have hbits := @bits_bits (ofLe pack) bitpos (lobits + 2) 0 lobits (by omega)
    rwa [bits, pow_zero, Nat.div_one, Nat.add_zero] at hbits
  have hhigh' : bits (ofLe pack) bitpos (lobits + 2) / 2 ^ lobits % 4 =
      bits (ofLe pack) (bitpos + lobits) 2 :=
    @bits_bits (ofLe pack) bitpos (lobits + 2) lobits 2 (le_refl _)
  rw [packEntry, entryOfBits, ← hbitpos, hlow', ← LclType.ofBits_mod (bits _ _ _ / _), hhigh', ← hhigh,
    LclType.ofBits_mod, ← hlow]

/-- What `get_compact` says of a cluster, by the bits of the index area. -/
def Indexes.entryOf (idx : Indexes) (k : Compact) (lcn : ℕ) : ℕ × LclType :=
  entryOfBits k.lobits (bits (ofLe idx.buf) (k.firstBit lcn) k.width)

theorem Compact.entryNo_lt {k : Compact} (hk : k.Aligned) (hlcb : k.lclusterbits ≤ 14) (lcn : ℕ) :
    k.encodebits lcn * k.entryNo lcn + k.width ≤ 8 * (k.packOf lcn).2 := by
  have hwidth : k.width = max k.lclusterbits 12 + 2 := rfl
  rw [hwidth]
  cases hk.region lcn with
  | leading hl hpack hno hbits =>
    rw [hpack, hno, hbits]
    omega
  | middle l hl hlt hpack hno hbits =>
    rw [hpack, hno, hbits]
    omega
  | trailing l hl hpack hno hbits =>
    rw [hpack, hno, hbits]
    omega

/-- The entry of a cluster in its pack is its bits of the index area. -/
theorem packEntry_slice {idx : Indexes} {k : Compact} (hk : k.Aligned) (hlcb : k.lclusterbits ≤ 14)
    {lcn : ℕ} {pack : Bytes} (hpack : idx.packAt k.ebase (k.packOf lcn).1 (k.packOf lcn).2 = .ok pack) :
    packEntry pack k.lobits (k.encodebits lcn) (k.entryNo lcn) = idx.entryOf k lcn := by
  have hroom := Compact.entryNo_lt hk hlcb lcn
  have hlo : k.lobits ≤ 14 := by
    rw [Compact.lobits]
    omega
  rw [Indexes.packAt] at hpack
  split_ifs at hpack with hbase
  rw [slice] at hpack
  split_ifs at hpack with hin
  cases hpack
  rw [packEntry_eq _ hlo, Nat.add_sub_cancel_left, ofLe_field_eq_bits,
    show k.lobits + 2 = k.width from rfl, bits_bits _ hroom]
  rfl

/-- `get_compact` with its position function named. -/
theorem Indexes.getCompact_eq (idx : Indexes) (k : Compact) (lcn : ℕ) :
    idx.getCompact k lcn = (do
      ensure (lcn < k.totalidx ∧ k.lclusterbits ≤ 14) "lcn out of range"
      let pack ← idx.packAt k.ebase (k.packOf lcn).1 (k.packOf lcn).2
      let entry := packEntry pack k.lobits (k.encodebits lcn)
      match (entry (k.entryNo lcn)).2 with
      | .nonhead => .ok ⟨.nonhead, 0, 0, cblkcntOf (entry (k.entryNo lcn)).1, false, false⟩
      | ty => do
        let nblk ← blocksUpTo k.big entry (k.entryNo lcn)
        let blkaddr := le32 pack ((k.packOf lcn).2 - 4) + nblk
        ensure (blkaddr < 2 ^ 32) "blkaddr overflow"
        .ok ⟨ty, (entry (k.entryNo lcn)).1, blkaddr, none, false, false⟩) := rfl

/-- **A cluster is decoded from its bits**: the type, and the offset of a head or the block count of a
continuation. -/
theorem Indexes.getCompact_decodes {idx : Indexes} {k : Compact} (hk : k.Aligned) {lcn : ℕ} {l : Lcl}
    (h : idx.getCompact k lcn = .ok l) :
    l.ty = (idx.entryOf k lcn).2 ∧
      (l.ty ≠ .nonhead → l.clusterofs = (idx.entryOf k lcn).1) ∧
      (l.ty = .nonhead → l.cblkcnt = cblkcntOf (idx.entryOf k lcn).1) := by
  rw [Indexes.getCompact_eq] at h
  obtain ⟨_, hrange, h⟩ := bind_eq_ok.mp h
  obtain ⟨pack, hpack, h⟩ := bind_eq_ok.mp h
  have hentry := packEntry_slice hk (ensure_eq_ok.mp hrange).2 hpack
  dsimp only at h
  rw [hentry] at h
  cases hty : (idx.entryOf k lcn).2 with
  | nonhead =>
    rw [hty] at h
    cases h
    exact ⟨rfl, fun hne => absurd rfl hne, fun _ => rfl⟩
  | plain =>
    rw [hty] at h
    obtain ⟨nblk, -, h⟩ := bind_eq_ok.mp h
    obtain ⟨_, -, h⟩ := bind_eq_ok.mp h
    cases h
    exact ⟨rfl, fun _ => rfl, nofun⟩
  | head1 =>
    rw [hty] at h
    obtain ⟨nblk, -, h⟩ := bind_eq_ok.mp h
    obtain ⟨_, -, h⟩ := bind_eq_ok.mp h
    cases h
    exact ⟨rfl, fun _ => rfl, nofun⟩
  | head2 =>
    rw [hty] at h
    obtain ⟨nblk, -, h⟩ := bind_eq_ok.mp h
    obtain ⟨_, -, h⟩ := bind_eq_ok.mp h
    cases h
    exact ⟨rfl, fun _ => rfl, nofun⟩

/-! ### The indexes of an accepted inode -/

/-- The area that `load_indexes` reads ends with the pack of the last cluster. -/
theorem Erofs.loadIndexes_compact {fs : Erofs} {ino : Inode} {hpos advise nlcl lcb : ℕ} {idx : Indexes}
    (hlayout : ino.layout ≠ 1) (h : fs.loadIndexes ino hpos advise nlcl lcb = .ok idx) :
    let k := fs.compactOf ino hpos advise lcb
    idx.kind = .compact k ∧
      idx.stop = (k.loadPackOf (nlcl - 1)).1 + (k.loadPackOf (nlcl - 1)).2 ∧
      idx.buf.length = idx.stop - k.ebase := by
  intro k
  rw [Erofs.loadIndexes, if_neg hlayout] at h
  obtain ⟨buf, hbuf, h⟩ := bind_eq_ok.mp h
  have hlen := readExactAt_length hbuf
  cases h
  constructor
  · rfl
  constructor
  · rw [Compact.loadPackOf_eq]
    rfl
  · exact hlen

/-- What the index arithmetic owes the scan. -/
structure Indexes.Consistent (idx : Indexes) (k : Compact) (nlcl : ℕ) : Prop where
  stop_eq : idx.stop = (k.loadPackOf (nlcl - 1)).1 + (k.loadPackOf (nlcl - 1)).2
  same_pack : ∀ lcn, lcn < nlcl → k.loadPackOf lcn = k.packOf lcn
  pack_in : ∀ lcn, lcn < nlcl → k.ebase ≤ (k.packOf lcn).1 ∧
    (k.packOf lcn).1 - k.ebase + (k.packOf lcn).2 ≤ idx.buf.length
  decodes : ∀ lcn l, lcn < nlcl → idx.get lcn = .ok l →
    l.ty = (idx.entryOf k lcn).2 ∧
      (l.ty ≠ .nonhead → l.clusterofs = (idx.entryOf k lcn).1) ∧
      (l.ty = .nonhead → l.cblkcnt = cblkcntOf (idx.entryOf k lcn).1)
  disjoint : k.Disjoint nlcl
  walk_ends : ∀ (pack : Bytes) (lcn : ℕ), lcn < nlcl →
    let entry := packEntry pack k.lobits (k.encodebits lcn)
    walkBack k.big entry (k.entryNo lcn) (backFrom k.big (k.entryNo lcn)) =
      some (blocksUpTo k.big entry (k.entryNo lcn))

/-- All but the bits follows from the layout of the area. -/
theorem Indexes.consistent_iff {idx : Indexes} {k : Compact} {nlcl : ℕ} (hk : k.Aligned)
    (hkind : idx.kind = .compact k)
    (hstop : idx.stop = (k.loadPackOf (nlcl - 1)).1 + (k.loadPackOf (nlcl - 1)).2)
    (hlen : idx.buf.length = idx.stop - k.ebase) : idx.Consistent k nlcl ↔ k.Disjoint nlcl := by
  constructor
  · exact fun h => h.disjoint
  · intro hdisjoint
    constructor
    · exact hstop
    · exact fun lcn _ => k.loadPackOf_eq lcn
    · intro lcn hlcn
      obtain ⟨hlo, hhi⟩ := hk.packOf_le (show lcn ≤ nlcl - 1 by omega)
      rw [k.loadPackOf_eq] at hstop
      constructor
      · exact hlo
      · omega
    · intro lcn l hlcn hget
      rw [Indexes.get, hkind] at hget
      exact Indexes.getCompact_decodes hk hget
    · exact hdisjoint
    · exact fun pack lcn _ => walkBack_eq _ _ (le_refl _)

/-- The clusters of a file, and the indexes read for them, as `build_zplan` goes by its map header. -/
def clustersOf (lcb size : ℕ) : ℕ := (size + (1 <<< lcb) - 1) / (1 <<< lcb)

def Erofs.lcbOf (fs : Erofs) (hdr : Bytes) : ℕ := fs.blkszbits + (hdr.getD 7 0).toNat % 16

/-- The map header of an inode that has indexes. -/
def Erofs.MapHeader (fs : Erofs) (ino : Inode) (hdr : Bytes) : Prop :=
  readExactAt fs.view 8 (align8 ino.stop) = .ok hdr ∧ le64 hdr 0 < 2 ^ 63 ∧ 0 < ino.size

/-- The indexes of an inode are consistent, when it has any. -/
def Erofs.IndexesConsistent (fs : Erofs) (ino : Inode) : Prop :=
  ∀ hdr, fs.MapHeader ino hdr →
    ∃ idx k, fs.loadIndexes ino (align8 ino.stop) (le16 hdr 4)
        (clustersOf (fs.lcbOf hdr) ino.size) (fs.lcbOf hdr) = .ok idx ∧
      idx.kind = .compact k ∧ idx.Consistent k (clustersOf (fs.lcbOf hdr) ino.size)

/-- No 2-byte packs, or clusters whose offsets fit in them. -/
def Erofs.PacksFit (fs : Erofs) (ino : Inode) : Prop :=
  ∀ hdr, fs.MapHeader ino hdr → le16 hdr 4 &&& advCompacted2b ≠ 0 →
    blocksOf fs ino.size < c4initOf (align8 ino.stop + 8) + 16 ∨ fs.blkszbits ≤ 12

theorem c2bOf_eq_zero {advise totalidx c4init : ℕ} :
    c2bOf advise totalidx c4init = 0 ↔
      (advise &&& advCompacted2b ≠ 0 → totalidx < c4init + 16) := by
  rw [c2bOf]
  by_cases h2b : advise &&& advCompacted2b = 0
  · simp [h2b]
  · by_cases hinit : c4init < totalidx
    · rw [if_pos ⟨h2b, hinit⟩]
      constructor
      · intro h _
        omega
      · intro h
        have hlt := h h2b
        omega
    · rw [if_neg fun h => hinit h.2]
      constructor
      · intro _ _
        omega
      · exact fun _ => rfl

theorem c2bOf_le (advise totalidx c4init : ℕ) :
    c2bOf advise totalidx c4init = 0 ∨ c4init + c2bOf advise totalidx c4init ≤ totalidx := by
  rw [c2bOf]
  split_ifs with h
  · right
    omega
  · exact .inl rfl

/-- What the scan of an accepted compact inode went by. -/
theorem Erofs.buildZplan_indexes {fs : Erofs} {ino : Inode} {plan : ZPlan} (hcompact : ino.layout = 3)
    (h : fs.buildZplan ino = .ok plan) {hdr : Bytes} (hhdr : fs.MapHeader ino hdr) :
    fs.lcbOf hdr = fs.blkszbits ∧ fs.blkszbits ≤ 14 ∧
      ∃ idx, fs.loadIndexes ino (align8 ino.stop) (le16 hdr 4)
        (clustersOf (fs.lcbOf hdr) ino.size) (fs.lcbOf hdr) = .ok idx := by
  obtain ⟨hread, hindexed, hsize⟩ := hhdr
  rw [Erofs.buildZplan] at h
  obtain ⟨hdr', hread', h⟩ := bind_eq_ok.mp h
  rw [hread] at hread'
  cases hread'
  dsimp only at h
  rw [if_neg (not_le.mpr hindexed)] at h
  obtain ⟨_, hlcb, h⟩ := bind_eq_ok.mp h
  obtain ⟨_, -, h⟩ := bind_eq_ok.mp h
  obtain ⟨_, hbits, h⟩ := bind_eq_ok.mp h
  rw [if_neg (show ino.size ≠ 0 by omega)] at h
  obtain ⟨idx, hidx, h⟩ := bind_eq_ok.mp h
  have hbits := ensure_eq_ok.mp hbits hcompact
  have hlcb := ensure_eq_ok.mp hlcb
  constructor
  · rw [Erofs.lcbOf, hbits, Nat.add_zero]
  constructor
  · omega
  · exact ⟨idx, hidx⟩

/-- **The index arithmetic of a compact inode is consistent if and only if its packs fit.**  Reading and
decoding go by one position function, every pack lies inside what was read, and the walk back ends; but
2-byte packs have 14 bits for an entry, and with blocks above 4 KiB an entry is wider. -/
theorem compact_indexes_consistent_iff (fs : Erofs) (ino : Inode) (plan : ZPlan)
    (hcompact : ino.layout = 3) (h : fs.buildZplan ino = .ok plan) :
    fs.IndexesConsistent ino ↔ fs.PacksFit ino := by
  have hfit (hdr : Bytes) (hhdr : fs.MapHeader ino hdr) :
      (fs.compactOf ino (align8 ino.stop) (le16 hdr 4) (fs.lcbOf hdr)).Disjoint
          (clustersOf (fs.lcbOf hdr) ino.size) ↔
        (le16 hdr 4 &&& advCompacted2b ≠ 0 →
          blocksOf fs ino.size < c4initOf (align8 ino.stop + 8) + 16 ∨ fs.blkszbits ≤ 12) := by
    obtain ⟨hlcb, hmax, -⟩ := Erofs.buildZplan_indexes hcompact h hhdr
    have hk := fs.compactOf_aligned ino (le16 hdr 4) (fs.lcbOf hdr)
    have hall := c2bOf_le (le16 hdr 4) (blocksOf fs ino.size) (c4initOf (align8 ino.stop + 8))
    rw [hlcb] at hk ⊢
    have hclusters : clustersOf fs.blkszbits ino.size = blocksOf fs ino.size := rfl
    rw [hclusters, hk.disjoint_iff hmax hall]
    show c2bOf _ _ _ = 0 ∨ fs.blkszbits ≤ 12 ↔ _
    rw [c2bOf_eq_zero]
    tauto
  have hload (hdr : Bytes) (hhdr : fs.MapHeader ino hdr) {idx : Indexes}
      (hidx : fs.loadIndexes ino (align8 ino.stop) (le16 hdr 4)
        (clustersOf (fs.lcbOf hdr) ino.size) (fs.lcbOf hdr) = .ok idx) :
      idx.kind = .compact (fs.compactOf ino (align8 ino.stop) (le16 hdr 4) (fs.lcbOf hdr)) ∧
        (idx.Consistent (fs.compactOf ino (align8 ino.stop) (le16 hdr 4) (fs.lcbOf hdr))
            (clustersOf (fs.lcbOf hdr) ino.size) ↔
          (fs.compactOf ino (align8 ino.stop) (le16 hdr 4) (fs.lcbOf hdr)).Disjoint
            (clustersOf (fs.lcbOf hdr) ino.size)) := by
    obtain ⟨hkind, hstop, hlen⟩ := Erofs.loadIndexes_compact (by omega) hidx
    exact ⟨hkind, Indexes.consistent_iff (fs.compactOf_aligned ino _ _) hkind hstop hlen⟩
  constructor
  · intro hall hdr hhdr
    obtain ⟨idx, k, hidx, hkind, hconsistent⟩ := hall hdr hhdr
    obtain ⟨hkind', -⟩ := hload hdr hhdr hidx
    rw [hkind] at hkind'
    cases hkind'
    exact (hfit hdr hhdr).mp hconsistent.disjoint
  · intro hpacks hdr hhdr
    obtain ⟨-, -, idx, hidx⟩ := Erofs.buildZplan_indexes hcompact h hhdr
    obtain ⟨hkind, hconsistent⟩ := hload hdr hhdr hidx
    exact ⟨idx, _, hidx, hkind, hconsistent.mpr ((hfit hdr hhdr).mpr (hpacks hdr hhdr))⟩

/-- An image with one compact inode at its start: six 4-byte entries and a pack of 2-byte ones.  The
first cluster is a head, the others continue it; `bits` is the logarithm of the block size. -/
def compactImage (b : ℕ) (h : 9 ≤ b ∧ b ≤ 16) : Erofs where
  view := List.replicate 32 0 ++ [0, 0, 0, 0, 1, 0, 0, 0] ++
    leBytes 8 (0x20001000 * 2 ^ (b - 12)) ++ leBytes 8 (0x20002000 * 2 ^ (b - 12)) ++
    leBytes 8 (0x20002000 * 2 ^ (b - 12)) ++
    leBytes 32 (((List.range 16).map fun i => 2 ^ (14 * i + 13)).sum * 2 ^ (b - 12))
  blkszbits := b
  metaBase := 0
  packedNid := 0
  bits := h

def compactInode (b : ℕ) : Inode := ⟨0, 32, 0, 22 * 2 ^ b, 3⟩

/-- The map header of the inode: the advice says that there are 2-byte packs. -/
def compactHeader : Bytes := [0, 0, 0, 0, 1, 0, 0, 0]

theorem compact_indexes_consistent_iff_blocks4k :
    let fs := compactImage 12 (by decide)
    let ino := compactInode 12
    ∃ plan, ino.layout = 3 ∧ fs.buildZplan ino = .ok plan ∧ (fs.IndexesConsistent ino ↔ fs.PacksFit ino) := by
  intro fs ino
  have hbuild : (fs.buildZplan ino).toOption.isSome = true := by decide +kernel
  cases hplan : fs.buildZplan ino with
  | error e =>
    rw [hplan] at hbuild
    cases hbuild
  | ok plan => exact ⟨plan, rfl, rfl, compact_indexes_consistent_iff fs ino plan rfl hplan⟩

/-- The first two 2-byte entries of an image with blocks of 8 KiB share a bit. -/
theorem wide_entries_overlap :
    let fs := compactImage 13 (by decide)
    let ino := compactInode 13
    ino.layout = 3 ∧ (fs.buildZplan ino).toOption.isSome = true ∧ ¬ fs.IndexesConsistent ino := by
  intro fs ino
  have hhdr : fs.MapHeader ino compactHeader := ⟨by decide +kernel, by decide, by decide⟩
  constructor
  · rfl
  constructor
  · decide +kernel
  · intro h
    obtain ⟨idx, k, hidx, hkind, hconsistent⟩ := h compactHeader hhdr
    obtain ⟨hkind', -⟩ := Erofs.loadIndexes_compact (by decide) hidx
    rw [hkind] at hkind'
    cases hkind'
    have hbits := hconsistent.disjoint 6 7 (by decide) (by decide) (by decide)
    revert hbits
    decide +kernel

end Hashdex.Zmap
