import Hashdex.Lib.BitArray
import Hashdex.Lib.Links
import Hashdex.Lib.Runs
import Hashdex.Recipe.Check

/-!
# Cluster chains of a FAT filesystem

`Fat.open` reads the geometry off a boot sector and `Fat.chain` follows the links of the table from a
cluster.  The links are numbers of 12, 16 or 28 bits that anyone may have written.

* `next_eq`: a link is read off the table's bits, also where it straddles bytes
* `chain_follows`: what comes back is the chain, and only what loops or leaves the data area is refused

-/

namespace Hashdex

open BitArray Links Runs

/-! ### The boot sector -/

inductive Bits where
  | fat12
  | fat16
  | fat32
  deriving DecidableEq

/-- The geometry of a filesystem.  A boot sector with empty clusters is not one. -/
structure Fat where
  bytesPerSector : ℕ
  sectorsPerCluster : ℕ
  reserved : ℕ
  numFats : ℕ
  rootEntries : ℕ
  fatSectors : ℕ
  totalSectors : ℕ
  rootCluster : ℕ
  kind : Bits
  /-- Where cluster 2 begins, in bytes. -/
  dataStart : ℕ
  clusterCount : ℕ
  clusters_pos : 0 < bytesPerSector * sectorsPerCluster
  deriving DecidableEq

namespace Fat

/-- The whole table is held in memory. -/
def tableMax : ℕ := 64 <<< 20

def le16 (b : Bytes) (i : ℕ) : ℕ := ofLe ((b.drop i).take 2)

def le32 (b : Bytes) (i : ℕ) : ℕ := ofLe ((b.drop i).take 4)

def byteAt (b : Bytes) (i : ℕ) : ℕ := (b.getD i 0).toNat

/-- The geometry of a boot sector is sane. -/
structure Sane (head : Bytes) : Prop where
  sector : le16 head 11 ∈ [512, 1024, 2048, 4096]
  cluster : byteAt head 13 ∈ [1, 2, 4, 8, 16, 32, 64, 128]

instance (head : Bytes) : Decidable (Sane head) :=
  decidable_of_iff (le16 head 11 ∈ [512, 1024, 2048, 4096] ∧
      byteAt head 13 ∈ [1, 2, 4, 8, 16, 32, 64, 128])
    ⟨fun h => ⟨h.1, h.2⟩, fun h => ⟨h.1, h.2⟩⟩

/-- `looks_like`: whether a boot sector starts a FAT filesystem. -/
def LooksLike (head : Bytes) : Prop :=
  512 ≤ head.length ∧ byteAt head 510 = 0x55 ∧ byteAt head 511 = 0xAA ∧
  byteAt head 0 ∈ [0xEB, 0xE9] ∧ Sane head ∧
  le16 head 14 ≠ 0 ∧ byteAt head 16 ∈ [1, 2] ∧ 0xF0 ≤ byteAt head 21 ∧
  ((head.drop 54).take 3 = [70, 65, 84] ∨ (head.drop 82).take 3 = [70, 65, 84])

instance (head : Bytes) : Decidable (LooksLike head) :=
  inferInstanceAs (Decidable (_ ∧ _))

theorem Sane.clusters_pos {head : Bytes} (h : Sane head) : 0 < le16 head 11 * byteAt head 13 := by
  apply Nat.mul_pos
  · apply Nat.pos_of_ne_zero
    intro hzero
    have hmem := h.sector
    rw [hzero] at hmem
    simp at hmem
  · apply Nat.pos_of_ne_zero
    intro hzero
    have hmem := h.cluster
    rw [hzero] at hmem
    simp at hmem

/-- A number of sectors, in the small field or else in the large one. -/
def sectorsAt (boot : Bytes) (small large : ℕ) : ℕ :=
  if le16 boot small = 0 then le32 boot large else le16 boot small

def kindOf (clusters : ℕ) : Bits :=
  if clusters < 4085 then .fat12 else if clusters < 65525 then .fat16 else .fat32

/-- `Fat::open`. -/
def «open» (view : Bytes) : Except Fault Fat := do
  let boot := view.take 512
  ensure (boot.length = 512) "truncated boot sector"
  if h : LooksLike boot then do
    let bytesPerSector := le16 boot 11
    let sectorsPerCluster := byteAt boot 13
    let reserved := le16 boot 14
    let numFats := byteAt boot 16
    let rootEntries := le16 boot 17
    let fatSectors := sectorsAt boot 22 36
    let totalSectors := sectorsAt boot 19 32
    ensure (0 < fatSectors ∧ 0 < totalSectors) "empty FAT geometry"
    let rootSectors := (rootEntries * 32 + bytesPerSector - 1) / bytesPerSector
    let firstData := reserved + numFats * fatSectors + rootSectors
    ensure (firstData < totalSectors) "no data area"
    let clusters := (totalSectors - firstData) / sectorsPerCluster
    let tableBytes := fatSectors * bytesPerSector
    ensure (tableBytes ≤ tableMax) s!"FAT table too large to follow ({tableBytes} bytes)"
    .ok { bytesPerSector, sectorsPerCluster, reserved, numFats, rootEntries, fatSectors, totalSectors
          rootCluster := le32 boot 44
          kind := kindOf clusters
          dataStart := firstData * bytesPerSector
          clusterCount := min clusters (2 ^ 32 - 1)
          clusters_pos := h.2.2.2.2.1.clusters_pos }
  else .error (.error "not a FAT boot sector")

variable (fat : Fat)

def clusterBytes : ℕ := fat.bytesPerSector * fat.sectorsPerCluster

/-- `cluster_at`. -/
def clusterAt (c : ℕ) : ℕ := fat.dataStart + (c - 2) * fat.clusterBytes

/-- `read_table`. -/
def readTable (view : Bytes) : Except Fault Bytes := do
  let table := (view.drop (fat.reserved * fat.bytesPerSector)).take (fat.fatSectors * fat.bytesPerSector)
  ensure (table.length = fat.fatSectors * fat.bytesPerSector) "truncated FAT table"
  .ok table

/-! ### The table -/

/-- `n` bytes of the table as a number; nothing when they are not all there. -/
def bytesAt (table : Bytes) (i n : ℕ) : Option ℕ :=
  if i + n ≤ table.length then some (ofLe ((table.drop i).take n)) else none

/-- The entry of a cluster, as `next` reads it. -/
def readEntry (kind : Bits) (table : Bytes) (c : ℕ) : Option ℕ :=
  match kind with
  | .fat12 => (bytesAt table (c + c / 2) 2).map fun raw =>
      if c % 2 = 1 then raw >>> 4 else raw &&& 0x0FFF
  | .fat16 => bytesAt table (c * 2) 2
  | .fat32 => (bytesAt table (c * 4) 4).map fun raw => raw &&& 0x0FFF_FFFF

/-- From here on a value is a bad cluster or an end mark. -/
def badMark : Bits → ℕ
  | .fat12 => 0x0FF7
  | .fat16 => 0xFFF7
  | .fat32 => 0x0FFF_FFF7

/-- The next cluster in a chain, or nothing at its end. -/
def next (table : Bytes) (c : ℕ) : Option ℕ :=
  (readEntry fat.kind table c).bind fun v => if 2 ≤ v ∧ v < badMark fat.kind then some v else none

/-- The cluster is one of the data area. -/
def InData (c : ℕ) : Prop := 2 ≤ c ∧ c - 2 < fat.clusterCount

instance (c : ℕ) : Decidable (fat.InData c) := inferInstanceAs (Decidable (_ ∧ _))

/-- The loop of `chain`; `left` is how many more steps it may take. -/
def chainLoop (table : Bytes) : ℕ → ℕ → List (ℕ × ℕ) → Except Fault (List (ℕ × ℕ))
  | left, cur, runs =>
    if 2 ≤ cur ∧ cur - 2 < max fat.clusterCount 1 then
      let runs := push runs (fat.clusterAt cur) fat.clusterBytes
      match left with
      | 0 => .error (.error "cluster chain loops")
      | left + 1 =>
        match fat.next table cur with
        | some n => chainLoop table left n runs
        | none => .ok runs
    else .error (.error s!"cluster {cur} outside the data area")

/-- A cluster chain as contiguous byte runs. -/
def chain (table : Bytes) (start : ℕ) : Except Fault (List (ℕ × ℕ)) :=
  fat.chainLoop table fat.clusterCount start []

/-- Cluster runs cut down to the file's real length. -/
def truncateRuns (runs : List (ℕ × ℕ)) (size : ℕ) : List (ℕ × ℕ) := truncate size runs

/-! ### What the table says -/

/-- How far apart the entries are, in bits. -/
def entryWidth : Bits → ℕ
  | .fat12 => 12
  | .fat16 => 16
  | .fat32 => 32

/-- How many bits of an entry count. -/
def entryBits : Bits → ℕ
  | .fat12 => 12
  | .fat16 => 16
  | .fat32 => 28

/-- The entry of a cluster: so many bits of the table, taken as one number, from the entry's place on.
An entry that is not all in the table is not there. -/
def entryAt (kind : Bits) (table : Bytes) (c : ℕ) : Option ℕ :=
  if entryWidth kind * (c + 1) ≤ 8 * table.length then
    some (ofLe table / 2 ^ (entryWidth kind * c) % 2 ^ entryBits kind)
  else none

theorem bytesAt_eq (table : Bytes) (i n : ℕ) :
    bytesAt table i n =
      if i + n ≤ table.length then some (ofLe table / 2 ^ (8 * i) % 2 ^ (8 * n)) else none := by
  rw [bytesAt, ofLe_field, pow_mul, pow_mul, show (2 : ℕ) ^ 8 = 256 by norm_num]

/-- **Reading an entry reads its bits**, those of FAT12 out of a byte and half of another. -/
theorem readEntry_eq (kind : Bits) (table : Bytes) (c : ℕ) :
    readEntry kind table c = entryAt kind table c := by
  cases kind with
  | fat12 =>
    rw [readEntry, entryAt, bytesAt_eq]
    have hroom : c + c / 2 + 2 ≤ table.length ↔ entryWidth .fat12 * (c + 1) ≤ 8 * table.length := by
      rw [entryWidth]
      omega
    by_cases h : c + c / 2 + 2 ≤ table.length
    · rw [if_pos h, if_pos (hroom.mp h), Option.map_some]
      generalize ofLe table = n
      congr 1
      rcases Nat.even_or_odd' c with ⟨k, hk | hk⟩
      · rw [if_neg (by omega), show (0x0FFF : ℕ) = 2 ^ 12 - 1 by norm_num, Nat.and_two_pow_sub_one_eq_mod,
          Nat.mod_mod_of_dvd _ (Nat.pow_dvd_pow 2 (by omega)), entryWidth, entryBits,
          show 8 * (c + c / 2) = 12 * c by omega]
      · rw [if_pos (by omega), Nat.shiftRight_eq_div_pow, entryWidth, entryBits,
          show 12 * c = 8 * (c + c / 2) + 4 by omega, pow_add, ← Nat.div_div_eq_div_mul]
        rw [show (2 : ℕ) ^ (8 * 2) = 2 ^ 4 * 2 ^ 12 by norm_num, Nat.mod_mul_right_div_self]
    · rw [if_neg h, if_neg (fun hr => h (hroom.mpr hr)), Option.map_none]
  | fat16 =>
    rw [readEntry, entryAt, bytesAt_eq, entryWidth, entryBits, show 8 * (c * 2) = 16 * c by omega]
    exact if_congr (by omega) rfl rfl
  | fat32 =>
    rw [readEntry, entryAt, bytesAt_eq, entryWidth, entryBits, show 8 * (c * 4) = 32 * c by omega]
    by_cases h : c * 4 + 4 ≤ table.length
    · rw [if_pos h, if_pos (by omega), Option.map_some, show (0x0FFF_FFFF : ℕ) = 2 ^ 28 - 1 by norm_num,
        Nat.and_two_pow_sub_one_eq_mod, Nat.mod_mod_of_dvd _ (Nat.pow_dvd_pow 2 (by omega))]
    · rw [if_neg h, if_neg (by omega), Option.map_none]

/-- The link of a cluster: its entry, unless that is 0 or 1, a bad cluster, an end mark, or not in the
table. -/
def linkOf (kind : Bits) (table : Bytes) (c : ℕ) : Option ℕ :=
  (entryAt kind table c).filter fun v => 2 ≤ v ∧ v < badMark kind

theorem next_eq (table : Bytes) : fat.next table = linkOf fat.kind table := by
  funext c
  rw [next, linkOf, readEntry_eq]
  cases entryAt fat.kind table c with
  | none => rfl
  | some v =>
    rw [Option.bind_some, Option.filter_some]
    exact if_congr (by rw [decide_eq_true_eq]) rfl rfl

/-! ### Following a chain -/

/-- The runs of a list of clusters. -/
def runsOf (cs : List ℕ) : List (ℕ × ℕ) :=
  cs.foldl (fun runs c => push runs (fat.clusterAt c) fat.clusterBytes) []

/-- **What the loop returns** is the chain, when it stays in the data area and there are steps for it. -/
theorem chainLoop_eq_ok {table : Bytes} {left cur : ℕ} {runs out : List (ℕ × ℕ)}
    (hleft : left ≤ fat.clusterCount) :
    fat.chainLoop table left cur runs = .ok out ↔
      ∃ cs, Chain (fat.next table) cur cs ∧ (∀ c ∈ cs, fat.InData c) ∧ cs.length ≤ left ∧
        out = cs.foldl (fun runs c => push runs (fat.clusterAt c) fat.clusterBytes) runs := by
  induction left generalizing cur runs with
  | zero =>
    constructor
    · intro h
      rw [chainLoop] at h
      split_ifs at h
    · intro h
      obtain ⟨cs, hchain, -, hlen, -⟩ := h
      obtain ⟨tail, rfl⟩ := hchain.exists_eq_cons
      cases hlen
  | succ left ih =>
    rw [chainLoop]
    have hin : (2 ≤ cur ∧ cur - 2 < max fat.clusterCount 1) ↔ fat.InData cur := by
      rw [InData]
      omega
    by_cases hcur : fat.InData cur
    · rw [if_pos (hin.mpr hcur)]
      cases hnext : fat.next table cur with
      | none =>
        constructor
        · intro h
          cases h
          exact ⟨[cur], .last hnext, by simpa using hcur, Nat.succ_pos left, rfl⟩
        · intro h
          obtain ⟨cs, hchain, -, -, hout⟩ := h
          rw [Chain.unique hchain (.last hnext)] at hout
          rw [hout]
          rfl
      | some n =>
        rw [ih (by omega)]
        constructor
        · intro h
          obtain ⟨cs, hchain, hdata, hlen, hout⟩ := h
          refine ⟨cur :: cs, .link hnext hchain, ?_, Nat.succ_le_succ hlen, hout⟩
          intro c hc
          cases List.mem_cons.mp hc with
          | inl heq => exact heq ▸ hcur
          | inr hmem => exact hdata c hmem
        · intro h
          obtain ⟨cs, hchain, hdata, hlen, hout⟩ := h
          cases hchain with
          | last hnone =>
            rw [hnone] at hnext
            cases hnext
          | link hsome htail =>
            rw [hsome] at hnext
            cases hnext
            exact ⟨_, htail, fun c hc => hdata c (List.mem_cons_of_mem cur hc),
              Nat.le_of_succ_le_succ hlen, hout⟩
    · rw [if_neg (fun h => hcur (hin.mp h))]
      constructor
      · intro h
        cases h
      · intro h
        obtain ⟨cs, hchain, hdata, -, -⟩ := h
        obtain ⟨tail, rfl⟩ := hchain.exists_eq_cons
        exact absurd (hdata cur List.mem_cons_self) hcur

/-- The clusters of the data area. -/
theorem inData_iff {c : ℕ} : fat.InData c ↔ c ∈ Finset.Ico 2 (2 + fat.clusterCount) := by
  rw [InData, Finset.mem_Ico]
  omega

/-- **A chain comes back just when it ends and stays in the data area.** -/
theorem chain_eq_ok {table : Bytes} {start : ℕ} {runs : List (ℕ × ℕ)} :
    fat.chain table start = .ok runs ↔
      ∃ cs, Chain (linkOf fat.kind table) start cs ∧ (∀ c ∈ cs, fat.InData c) ∧ runs = fat.runsOf cs := by
  rw [chain, fat.chainLoop_eq_ok (Nat.le_refl _), next_eq]
  constructor
  · intro h
    obtain ⟨cs, hchain, hdata, -, hruns⟩ := h
    exact ⟨cs, hchain, hdata, hruns⟩
  · intro h
    obtain ⟨cs, hchain, hdata, hruns⟩ := h
    have hlen := hchain.length_le fun c hc => fat.inData_iff.mp (hdata c hc)
    rw [Nat.card_Ico, Nat.add_sub_cancel_left] at hlen
    exact ⟨cs, hchain, hdata, hlen, hruns⟩

/-! ### The runs of a chain -/

/-- The bytes of a cluster. -/
def clusterPlaces (c : ℕ) : List ℕ := List.range' (fat.clusterAt c) fat.clusterBytes

/-- Folding clusters into runs that are merged keeps them merged and adds the clusters' bytes. -/
theorem fold_runs (cs : List ℕ) {runs : List (ℕ × ℕ)} (hmerged : Merged runs) (hpos : ∀ r ∈ runs, 0 < r.2) :
    let out := cs.foldl (fun runs c => push runs (fat.clusterAt c) fat.clusterBytes) runs
    places out = places runs ++ cs.flatMap fat.clusterPlaces ∧ Merged out ∧ ∀ r ∈ out, 0 < r.2 := by
  induction cs generalizing runs with
  | nil => exact ⟨(List.append_nil _).symm, hmerged, hpos⟩
  | cons c cs ih =>
    have hstep := ih (push_merged hmerged (fat.clusterAt c) fat.clusterBytes)
      (push_pos hpos fat.clusters_pos)
    dsimp only at hstep ⊢
    rw [places_push, List.append_assoc] at hstep
    exact hstep

theorem places_runsOf (cs : List ℕ) : places (fat.runsOf cs) = cs.flatMap fat.clusterPlaces := by
  have h := (fat.fold_runs cs (List.isChain_nil : Merged []) nofun).1
  exact h

theorem runsOf_merged (cs : List ℕ) : Merged (fat.runsOf cs) :=
  (fat.fold_runs cs (List.isChain_nil : Merged []) nofun).2.1

theorem runsOf_pos (cs : List ℕ) : ∀ r ∈ fat.runsOf cs, 0 < r.2 :=
  (fat.fold_runs cs (List.isChain_nil : Merged []) nofun).2.2

/-- Two clusters of the data area share no byte. -/
theorem clusterPlaces_disjoint {c d : ℕ} (hc : fat.InData c) (hd : fat.InData d) (hne : c ≠ d) :
    ∀ x ∈ fat.clusterPlaces c, ∀ y ∈ fat.clusterPlaces d, x ≠ y := by
  intro x hx y hy heq
  subst heq
  rw [clusterPlaces, List.mem_range'_1, clusterAt] at hx hy
  have hc2 := hc.1
  have hd2 := hd.1
  rcases Nat.lt_or_gt_of_ne hne with hlt | hlt
  · have hstep : (c - 2 + 1) * fat.clusterBytes ≤ (d - 2) * fat.clusterBytes :=
      Nat.mul_le_mul_right _ (by omega)
    rw [Nat.add_mul, Nat.one_mul] at hstep
    omega
  · have hstep : (d - 2 + 1) * fat.clusterBytes ≤ (c - 2) * fat.clusterBytes :=
      Nat.mul_le_mul_right _ (by omega)
    rw [Nat.add_mul, Nat.one_mul] at hstep
    omega

theorem nodup_flatMap_places {cs : List ℕ} (hdata : ∀ c ∈ cs, fat.InData c) (h : cs.Nodup) :
    (cs.flatMap fat.clusterPlaces).Nodup := by
  refine List.pairwise_flatMap.mpr ⟨?_, ?_⟩
  · intro c _
    exact List.nodup_range'
  · refine List.Pairwise.imp_of_mem ?_ h
    intro c d hc hd hne
    exact fat.clusterPlaces_disjoint (hdata c hc) (hdata d hd) hne

/-- A byte of a cluster of the data area is in the data area. -/
theorem place_inData {c x : ℕ} (hc : fat.InData c) (hx : x ∈ fat.clusterPlaces c) :
    fat.dataStart ≤ x ∧ x < fat.dataStart + fat.clusterCount * fat.clusterBytes := by
  rw [clusterPlaces, List.mem_range'_1, clusterAt] at hx
  have hstep : (c - 2 + 1) * fat.clusterBytes ≤ fat.clusterCount * fat.clusterBytes :=
    Nat.mul_le_mul_right _ hc.2
  rw [Nat.add_mul, Nat.one_mul] at hstep
  omega

/-- A run whose bytes are all in the data area lies in it. -/
theorem run_inData {cs : List ℕ} (hdata : ∀ c ∈ cs, fat.InData c) {r : ℕ × ℕ} (hr : r ∈ fat.runsOf cs) :
    fat.dataStart ≤ r.1 ∧ r.1 + r.2 ≤ fat.dataStart + fat.clusterCount * fat.clusterBytes := by
  have hpos := fat.runsOf_pos cs r hr
  have hplace : ∀ x, r.1 ≤ x → x < r.1 + r.2 →
      fat.dataStart ≤ x ∧ x < fat.dataStart + fat.clusterCount * fat.clusterBytes := by
    intro x hlo hhi
    have hx : x ∈ places (fat.runsOf cs) :=
      List.mem_flatMap.mpr ⟨r, hr, List.mem_range'_1.mpr ⟨hlo, hhi⟩⟩
    rw [places_runsOf] at hx
    obtain ⟨c, hc, hxc⟩ := List.mem_flatMap.mp hx
    exact fat.place_inData (hdata c hc) hxc
  have hfirst := hplace r.1 (Nat.le_refl _) (by omega)
  have hlast := hplace (r.1 + r.2 - 1) (by omega) (by omega)
  omega

/-- **Chains are followed exactly.**  The runs that come back are the clusters of the chain that the
table's entries make, in its order, each once; adjacent clusters are merged, and the runs are apart and in
the data area.  A chain is refused just when it comes to a loop or leaves the data area.  Cut down to a
size, the runs go through the first so many of their bytes. -/
theorem chain_follows (fat : Fat) (table : Bytes) (start : ℕ) :
    (∀ runs, fat.chain table start = .ok runs →
      ∃ cs, Chain (linkOf fat.kind table) start cs ∧ cs.Nodup ∧ (∀ c ∈ cs, fat.InData c) ∧
        places runs = cs.flatMap fat.clusterPlaces ∧ Merged runs ∧
        (runs.Pairwise fun a b => a.1 + a.2 ≤ b.1 ∨ b.1 + b.2 ≤ a.1) ∧
        (∀ r ∈ runs, 0 < r.2 ∧ fat.dataStart ≤ r.1 ∧
          r.1 + r.2 ≤ fat.dataStart + fat.clusterCount * fat.clusterBytes) ∧
        ∀ size, places (truncateRuns runs size) = (places runs).take size ∧
          ((truncateRuns runs size).map Prod.snd).sum = min size (runs.map Prod.snd).sum) ∧
    ((∃ e, fat.chain table start = .error e) ↔
      ∃ c, Reach (linkOf fat.kind table) start c ∧
        (¬ fat.InData c ∨ Relation.TransGen (Leads (linkOf fat.kind table)) c c)) := by
  constructor
  · intro runs hruns
    obtain ⟨cs, hchain, hdata, rfl⟩ := fat.chain_eq_ok.mp hruns
    have hnodup : (places (fat.runsOf cs)).Nodup := by
      rw [places_runsOf]
      exact fat.nodup_flatMap_places hdata hchain.nodup
    refine ⟨cs, hchain, hchain.nodup, hdata, fat.places_runsOf cs, fat.runsOf_merged cs,
      apart_of_nodup (fat.runsOf_pos cs) hnodup, ?_, ?_⟩
    · intro r hr
      exact ⟨fat.runsOf_pos cs r hr, fat.run_inData hdata hr⟩
    · intro size
      refine ⟨places_truncate size _, ?_⟩
      rw [← length_places, ← length_places, truncateRuns, places_truncate, List.length_take]
  · constructor
    · intro herror
      by_contra hgood
      have hdata : ∀ c, Reach (linkOf fat.kind table) start c → fat.InData c := by
        intro c hc
        by_contra hout
        exact hgood ⟨c, hc, .inl hout⟩
      have hloop : ∀ c, Reach (linkOf fat.kind table) start c →
          ¬ Relation.TransGen (Leads (linkOf fat.kind table)) c c := by
        intro c hc hloop
        exact hgood ⟨c, hc, .inr hloop⟩
      have hfin : {c | Reach (linkOf fat.kind table) start c}.Finite := by
        apply (Finset.Ico 2 (2 + fat.clusterCount)).finite_toSet.subset
        intro c hc
        exact fat.inData_iff.mp (hdata c hc)
      obtain ⟨cs, hchain⟩ := exists_chain hfin hloop
      have hok := fat.chain_eq_ok.mpr ⟨cs, hchain, fun c hc => hdata c (hchain.reach hc), rfl⟩
      obtain ⟨e, he⟩ := herror
      rw [he] at hok
      cases hok
    · intro h
      obtain ⟨c, hreach, hbad⟩ := h
      cases hresult : fat.chain table start with
      | error e => exact ⟨e, rfl⟩
      | ok runs =>
        obtain ⟨cs, hchain, hdata, -⟩ := fat.chain_eq_ok.mp hresult
        have hmem := hchain.mem_iff_reach.mpr hreach
        cases hbad with
        | inl hout => exact absurd (hdata c hmem) hout
        | inr hloop => exact absurd hloop (hchain.acyclic hmem)

end Fat

end Hashdex
