import Mathlib
import Hashdex.Filter

/-!
# Folding a filter

`fold` halves a filter by ORing the second half of its bit array onto the first.  `fillOf` and
`powi` are the float arithmetic of the false-positive rate it writes back; no bit depends on them.

* `testBit_fold`: the bits of the folded array, tail included
* `Answers.fold`: what the filter answered for, the folded one answers for
* `fold_built`: folding commutes with building
* `bloom_whole_life`: the three together, over any number of folds
-/

namespace Hashdex

open Dcso

/-- The words of a filter file's bit array. -/
def fileWords (file : Bytes) (m : UInt64) : List UInt64 :=
  (List.range (wordsFor m)).map fun i => BitArray.wordOf ((file.drop (headerLen + i * 8)).take 8)

/-- `count_ones`. -/
def countOnes (w : UInt64) : ℕ := (List.range 64).countP fun i => w.toNat.testBit i

/-- Word `i` of the source bit array; out of range and tail bits read as zero. -/
def foldWord (file : Bytes) (m : UInt64) (i : ℕ) : UInt64 :=
  let wordsTotal := wordsFor m
  if wordsTotal ≤ i then 0
  else
    let w := BitArray.wordOf ((file.drop (headerLen + i * 8)).take 8)
    if i = wordsTotal - 1 ∧ m.toNat % 64 ≠ 0 then
      w &&& ((1 : UInt64) <<< UInt64.ofNat (m.toNat % 64) - 1)
    else w

/-- Word `j` of the folded array: source bits `i` and `i + m/2` together. -/
def foldOut (file : Bytes) (m : UInt64) (j : ℕ) : UInt64 :=
  let word := foldWord file m
  let m2 := m.toNat / 2
  let words2 := (m2 + 63) / 64
  let o := m2 + 64 * j
  let hi :=
    if o % 64 = 0 then word (o / 64)
    else word (o / 64) >>> UInt64.ofNat (o % 64)
      ||| word (o / 64 + 1) <<< UInt64.ofNat (64 - o % 64)
  let d := word j ||| hi
  if j = words2 - 1 ∧ m2 % 64 ≠ 0 then
    d &&& ((1 : UInt64) <<< UInt64.ofNat (m2 % 64) - 1)
  else d

/-- Seek to `pos` and write over what is there. -/
def writeAt (file : Bytes) (pos : ℕ) (data : Bytes) : Bytes :=
  file.take pos ++ data ++ file.drop (pos + data.length)

structure FoldStats where
  mOld : UInt64
  mNew : UInt64
  fill : UInt64
  pNew : UInt64
  deriving DecidableEq

section
variable (fillOf powi : UInt64 → UInt64 → UInt64)

/-- The file `fold` writes, and its statistics.  The header goes out with a zero rate, which is
patched once the ones have been counted. -/
def fold (file : Bytes) (src : String) : Except String (Bytes × FoldStats) :=
  match Header.parse file src with
  | .error e => .error e
  | .ok h =>
    let m := h.m
    if m % 2 ≠ 0 then
      .error (s!"cannot fold: bit count m={m} is odd (folding needs the new size to divide the " ++
        "old; this filter has already been folded or was built with an odd m)")
    else if file.length < headerLen + wordsFor m * 8 then
      .error s!"bloom filter truncated: {src}"
    else
      let m2 := m / 2
      let header : Header := ⟨1, h.nCapacity, 0, h.k, m2, h.nElements⟩
      let words := (List.range (wordsFor m2)).map (foldOut file m)
      let ones := UInt64.ofNat (words.map countOnes).sum
      let fill := fillOf ones m2
      let pNew := powi fill h.k
      .ok (writeAt (header.toBytes ++ words.flatMap BitArray.wordBytes) 16 (BitArray.wordBytes pNew),
        ⟨m, m2, fill, pNew⟩)

/-- `dst` is what some number of folds, each of them successful, makes of `src`. -/
def FoldsTo : Bytes → Bytes → Prop :=
  Relation.ReflTransGen fun src dst => ∃ path stats, fold fillOf powi src path = .ok (dst, stats)

end

/-! ### The words read -/

theorem length_fileWords (file : Bytes) (m : UInt64) : (fileWords file m).length = wordsFor m := by
  rw [fileWords, List.length_map, List.length_range]

theorem fileWords_getD (file : Bytes) (m : UInt64) {i : ℕ} (hi : i < wordsFor m) :
    (fileWords file m).getD i 0 = BitArray.wordOf ((file.drop (headerLen + i * 8)).take 8) := by
  rw [List.getD_eq_getElem _ _ (by rwa [length_fileWords])]
  simp only [fileWords, List.getElem_map, List.getElem_range]

theorem fileWords_eq (header words tail) (m : UInt64) (hh : header.length = headerLen)
    (hw : words.length = wordsFor m) :
    fileWords (header ++ words.flatMap BitArray.wordBytes ++ tail) m = words := by
  apply List.ext_getElem
  · rw [length_fileWords, hw]
  intro i hi hi'
  have hword := BitArray.word_of_flatMap header words tail hi'
  simp only [fileWords, List.getElem_map, List.getElem_range]
  rw [← hh, Nat.mul_comm, hword, BitArray.wordOf_wordBytes]

theorem fileWords_write (b : BloomBuilder) : fileWords b.write b.m = b.bits := by
  have h := fileWords_eq b.header.toBytes b.bits [] b.m (Header.length_toBytes _) b.bits_length
  rwa [List.append_nil] at h

/-- **The tail mask**: a word reads as its bits below `m`. -/
theorem testBit_foldWord (file : Bytes) (m : UInt64) (i : ℕ) :
    BitArray.bitAt (foldWord file m) i
      = (decide (i < m.toNat) && BitArray.testBit (fileWords file m) i) := by
  have hlow : i % 64 < 64 := Nat.mod_lt i (by omega)
  rw [BitArray.bitAt, foldWord]
  by_cases hin : wordsFor m ≤ i / 64
  · have hout : ¬ i < m.toNat := by
      rw [wordsFor] at hin
      omega
    simp [hin, hout]
  simp only [if_neg hin]
  rw [BitArray.testBit, fileWords_getD file m (not_le.mp hin)]
  by_cases hlast : i / 64 = wordsFor m - 1 ∧ m.toNat % 64 ≠ 0
  · have hr : m.toNat % 64 < 64 := Nat.mod_lt _ (by omega)
    rw [if_pos hlast, BitArray.testBit_and_lowMask _ hr, Bool.and_comm]
    congr 1
    rw [decide_eq_decide]
    rw [wordsFor] at hlast hin
    omega
  · have hbelow : i < m.toNat := by
      rw [wordsFor] at hlast hin
      omega
    rw [if_neg hlast, decide_eq_true hbelow, Bool.true_and]

theorem testBit_or (v w : UInt64) (i : ℕ) :
    (v ||| w).toNat.testBit i = (v.toNat.testBit i || w.toNat.testBit i) := by
  rw [UInt64.toNat_or, Nat.testBit_or]

/-- Bit `i` of the folded words. -/
theorem testBit_foldOut (file : Bytes) (m : UInt64) {i : ℕ} (hi : i / 64 < (m.toNat / 2 + 63) / 64) :
    (foldOut file m (i / 64)).toNat.testBit (i % 64)
      = (decide (i < m.toNat / 2) && (BitArray.bitAt (foldWord file m) i
          || BitArray.bitAt (foldWord file m) (m.toNat / 2 + i))) := by
  have hlow : i % 64 < 64 := Nat.mod_lt i (by omega)
  have hsplit : m.toNat / 2 + 64 * (i / 64) + i % 64 = m.toNat / 2 + i := by omega
  rw [foldOut]
  by_cases hlast : i / 64 = (m.toNat / 2 + 63) / 64 - 1 ∧ m.toNat / 2 % 64 ≠ 0
  · have hr : m.toNat / 2 % 64 < 64 := Nat.mod_lt _ (by omega)
    rw [if_pos hlast, BitArray.testBit_and_lowMask _ hr, testBit_or,
      BitArray.testBit_window (foldWord file m) _ hlow, hsplit, ← BitArray.bitAt, Bool.and_comm]
    congr 1
    rw [decide_eq_decide]
    omega
  · have hbelow : i < m.toNat / 2 := by omega
    rw [if_neg hlast, testBit_or, BitArray.testBit_window (foldWord file m) _ hlow, hsplit,
      ← BitArray.bitAt, decide_eq_true hbelow, Bool.true_and]

/-! ### The file written -/

theorem writeAt_append (before old rest data : Bytes) (h : data.length = old.length) :
    writeAt (before ++ (old ++ rest)) before.length data = before ++ (data ++ rest) := by
  have hdrop : (before ++ (old ++ rest)).drop (before.length + data.length) = rest := by
    rw [h, ← List.drop_drop, List.drop_left, List.drop_left]
  rw [writeAt, List.take_left, hdrop, List.append_assoc]

/-- The rate is patched in place. -/
theorem writeAt_header (h : Header) (rest : Bytes) (p : UInt64) :
    writeAt (h.toBytes ++ rest) 16 (BitArray.wordBytes p) = { h with p := p }.toBytes ++ rest := by
  have hcut : ∀ q : UInt64, { h with p := q }.toBytes ++ rest
      = [h.version, h.nCapacity].flatMap BitArray.wordBytes ++ (BitArray.wordBytes q
        ++ ([h.k, h.m, h.nElements].flatMap BitArray.wordBytes ++ rest)) := by
    intro q
    simp only [Header.toBytes, List.flatMap_cons, List.flatMap_nil, List.append_assoc,
      List.nil_append]
  have hlen : ([h.version, h.nCapacity].flatMap BitArray.wordBytes).length = 16 :=
    BitArray.length_flatMap_wordBytes _
  have hpatch := writeAt_append ([h.version, h.nCapacity].flatMap BitArray.wordBytes)
    (BitArray.wordBytes h.p) ([h.k, h.m, h.nElements].flatMap BitArray.wordBytes ++ rest)
    (BitArray.wordBytes p) (by rw [BitArray.length_wordBytes, BitArray.length_wordBytes])
  rw [hlen, ← hcut h.p, ← hcut p] at hpatch
  exact hpatch

theorem toNat_half (m : UInt64) : (m / 2).toNat = m.toNat / 2 := by
  rw [UInt64.toNat_div]
  rfl

theorem toNat_even {m : UInt64} : m % 2 ≠ 0 ↔ m.toNat % 2 ≠ 0 := by
  have h2 : (m % 2).toNat = m.toNat % 2 := by
    rw [UInt64.toNat_mod]
    rfl
  rw [← h2]
  exact not_congr ⟨fun h => by rw [h]; rfl, fun h => UInt64.toNat_inj.mp h⟩

section
variable {fillOf powi : UInt64 → UInt64 → UInt64}

/-- What a fold that succeeds read and wrote. -/
theorem fold_spec {file dst : Bytes} {path : String} {stats : FoldStats}
    (h : fold fillOf powi file path = .ok (dst, stats)) :
    ∃ old new : Header, Header.parse file path = .ok old ∧ old.m.toNat % 2 = 0
      ∧ headerLen + old.bitsLen ≤ file.length
      ∧ new.version = 1 ∧ new.k = old.k ∧ new.m = old.m / 2
      ∧ dst = new.toBytes ++ ((List.range (wordsFor new.m)).map
          (foldOut file old.m)).flatMap BitArray.wordBytes := by
  rw [fold] at h
  cases hparse : Header.parse file path with
  | error e => rw [hparse] at h; cases h
  | ok old =>
    rw [hparse] at h
    dsimp only at h
    by_cases hodd : old.m % 2 ≠ 0
    · rw [if_pos hodd] at h
      cases h
    rw [if_neg hodd] at h
    by_cases hshort : file.length < headerLen + wordsFor old.m * 8
    · rw [if_pos hshort] at h
      cases h
    rw [if_neg hshort, writeAt_header] at h
    cases h
    have heven : old.m.toNat % 2 = 0 := by
      by_contra hne
      exact hodd (toNat_even.mpr hne)
    exact ⟨old, ⟨1, old.nCapacity, _, old.k, old.m / 2, old.nElements⟩, rfl, heven,
      not_lt.mp hshort, rfl, rfl, rfl, rfl⟩

/-- A whole file of even bit count folds. -/
theorem fold_ok {file : Bytes} {path : String} {h : Header} (hparse : Header.parse file path = .ok h)
    (heven : h.m.toNat % 2 = 0) (hlen : headerLen + h.bitsLen ≤ file.length) :
    ∃ dst stats, fold fillOf powi file path = .ok (dst, stats) := by
  have hodd : ¬ h.m % 2 ≠ 0 := fun hne => toNat_even.mp hne heven
  rw [fold, hparse]
  dsimp only
  rw [if_neg hodd, if_neg (by rw [Header.bitsLen] at hlen; omega)]
  exact ⟨_, _, rfl⟩

theorem length_foldOuts (file : Bytes) (m m2 : UInt64) :
    ((List.range (wordsFor m2)).map (foldOut file m)).length = wordsFor m2 := by
  rw [List.length_map, List.length_range]

theorem testBit_foldOuts (file : Bytes) (m : UInt64) (i : ℕ) :
    BitArray.testBit ((List.range (wordsFor (m / 2))).map (foldOut file m)) i
      = (decide (i < m.toNat / 2) && (BitArray.testBit (fileWords file m) i
          || BitArray.testBit (fileWords file m) (m.toNat / 2 + i))) := by
  have hwords : wordsFor (m / 2) = (m.toNat / 2 + 63) / 64 := by rw [wordsFor, toNat_half]
  rw [BitArray.testBit]
  by_cases hin : i / 64 < wordsFor (m / 2)
  · rw [List.getD_eq_getElem _ _ (by rwa [length_foldOuts])]
    simp only [List.getElem_map, List.getElem_range]
    rw [testBit_foldOut file m (by rwa [hwords] at hin), testBit_foldWord, testBit_foldWord]
    by_cases hi : i < m.toNat / 2
    · have hlow : i < m.toNat := by omega
      have hhigh : m.toNat / 2 + i < m.toNat := by omega
      simp [hi, hlow, hhigh]
    · simp [hi]
  · have hi : ¬ i < m.toNat / 2 := by
      rw [hwords] at hin
      omega
    have hnone : ((List.range (wordsFor (m / 2))).map (foldOut file m)).getD (i / 64) 0 = 0 := by
      apply List.getD_eq_default
      rw [length_foldOuts]
      omega
    rw [hnone, decide_eq_false hi, Bool.false_and, UInt64.toNat_zero, Nat.zero_testBit]

/-! ### Positions under the fold -/

/-- A position is its remainder, or its remainder in the second half. -/
theorem mod_half {m j : ℕ} (hj : j < m) (heven : m % 2 = 0) :
    j % (m / 2) = j ∨ j % (m / 2) + m / 2 = j := by
  by_cases hfirst : j < m / 2
  · exact Or.inl (Nat.mod_eq_of_lt hfirst)
  · right
    rw [Nat.mod_eq_sub_mod (by omega), Nat.mod_eq_of_lt (by omega)]
    omega

/-- The probe positions of the halved filter are the old ones, reduced. -/
theorem positionsFrom_half {m : UInt64} (heven : m.toNat % 2 = 0) (k : ℕ) (h : UInt64) :
    (positionsFrom (m / 2) k h).map UInt64.toNat
      = ((positionsFrom m k h).map UInt64.toNat).map fun b => b % (m.toNat / 2) := by
  induction k generalizing h with
  | zero => rfl
  | succ k ih =>
    have hdvd : m.toNat / 2 ∣ m.toNat := ⟨2, by omega⟩
    simp only [positionsFrom, List.map_cons]
    rw [ih]
    congr 1
    rw [UInt64.toNat_mod _ (m / 2), UInt64.toNat_mod _ m, toNat_half, Nat.mod_mod_of_dvd _ hdvd]

theorem bitPositions_half {m : UInt64} (heven : m.toNat % 2 = 0) (value : Bytes) (k : UInt64) :
    (bitPositions value k (m / 2)).map UInt64.toNat
      = ((bitPositions value k m).map UInt64.toNat).map fun b => b % (m.toNat / 2) :=
  positionsFrom_half heven _ _

/-! ### What a filter file answers -/

/-- The file is a whole filter of `k` probes that has every position of every key set. -/
structure Answers (file : Bytes) (k : UInt64) (keys : List Bytes) (h : Header) : Prop where
  parses : ∀ what, Header.parse file what = .ok h
  k_eq : h.k = k
  m_pos : 0 < h.m.toNat
  whole : headerLen + h.bitsLen ≤ file.length
  bits : ∀ key ∈ keys, ∀ i ∈ (bitPositions key k h.m).map UInt64.toNat,
    BitArray.testBit (fileWords file h.m) i

theorem parse_any {file : Bytes} {path : String} {h : Header} (hp : Header.parse file path = .ok h)
    (what : String) : Header.parse file what = .ok h := by
  rw [Header.parse] at hp ⊢
  by_cases hshort : file.length < headerLen
  · rw [if_pos hshort] at hp
    cases hp
  rw [if_neg hshort] at hp ⊢
  dsimp only at hp ⊢
  split at hp
  · cases hp
  · rename_i hv
    rw [if_neg hv, hp]

theorem wordFrom_file {file : Bytes} {m : UInt64} (hlen : headerLen + wordsFor m * 8 ≤ file.length)
    {bit : UInt64} (hbit : bit.toNat < m.toNat) :
    wordFrom file (bitLocation bit).1 = some ((fileWords file m).getD (bit.toNat / 64) 0) := by
  have hw : bit.toNat / 64 < wordsFor m := word_lt_wordsFor hbit
  rw [fileWords_getD file m hw, wordFrom, bitLocation_fst, if_pos (by omega), Nat.mul_comm]

/-- **A filter that answers opens, and denies none of its keys.** -/
theorem Answers.check {file : Bytes} {k : UInt64} {keys : List Bytes} {h : Header}
    (ha : Answers file k keys h) (path : String) :
    ∃ bloom, Bloom.open file path = .ok bloom ∧ ∀ key ∈ keys, bloom.check key = some true := by
  have hwhole := ha.whole
  have hopen : Bloom.open file path = .ok ⟨h.k, h.m, file, h.nElements⟩ := by
    rw [Bloom.open, ha.parses path]
    dsimp only
    rw [if_neg (by omega)]
  refine ⟨_, hopen, ?_⟩
  intro key hkey
  have hread : ∀ bit : UInt64, bit.toNat < h.m.toNat →
      wordFrom file (bitLocation bit).1 = some ((fileWords file h.m).getD (bit.toNat / 64) 0) :=
    fun bit hbit => wordFrom_file hwhole hbit
  rw [Bloom.check, checkWith_eq ha.m_pos hread, Option.some_inj, List.all_eq_true]
  intro bit hbit
  apply ha.bits key hkey
  rw [ha.k_eq] at hbit
  exact List.mem_map_of_mem hbit

/-- The built file answers for the keys added. -/
theorem answers_write (b : BloomBuilder) (keys : List Bytes) :
    Answers (keys.foldl BloomBuilder.add b).write b.k keys (keys.foldl BloomBuilder.add b).header := by
  have hkm := BloomBuilder.foldl_add_km keys b
  generalize hb : keys.foldl BloomBuilder.add b = full at hkm
  have hwords := fileWords_write full
  constructor
  case parses => exact fun what => Header.parse_toBytes _ _ _ rfl
  case k_eq => exact hkm.1
  case m_pos => exact full.m_pos
  case whole =>
    show headerLen + wordsFor full.m * 8 ≤ _
    rw [BloomBuilder.write, List.length_append, Header.length_toBytes,
      BitArray.length_flatMap_wordBytes, full.bits_length, Nat.mul_comm]
  case bits =>
    intro key hkey i hi
    show BitArray.testBit (fileWords full.write full.m) i
    rw [hwords, ← hb]
    apply b.testBit_member hkey
    rw [hb, BloomBuilder.positions, hkm.1]
    exact hi

/-- **The bits of a folded filter**: bit `i` is the old bit `i` or the old bit `i + m/2`, and
nothing is set past the last one. -/
theorem testBit_fold {file dst : Bytes} {path : String} {stats : FoldStats} {old : Header}
    (h : fold fillOf powi file path = .ok (dst, stats)) (hold : Header.parse file path = .ok old)
    (i : ℕ) :
    BitArray.testBit (fileWords dst (old.m / 2)) i
      = (decide (i < old.m.toNat / 2) && (BitArray.testBit (fileWords file old.m) i
          || BitArray.testBit (fileWords file old.m) (i + old.m.toNat / 2))) := by
  obtain ⟨old', new, hparse, -, -, -, -, hm, rfl⟩ := fold_spec h
  rw [hold] at hparse
  cases hparse
  have hwords := fileWords_eq new.toBytes _ [] new.m (Header.length_toBytes new)
    (length_foldOuts file old.m new.m)
  rw [List.append_nil] at hwords
  rw [hm] at hwords ⊢
  rw [hwords, testBit_foldOuts, Nat.add_comm i]

/-- **One fold keeps the answers.** -/
theorem Answers.fold {file dst : Bytes} {path : String} {stats : FoldStats} {k : UInt64}
    {keys : List Bytes} {old : Header} (ha : Answers file k keys old)
    (h : fold fillOf powi file path = .ok (dst, stats)) :
    ∃ new, Answers dst k keys new := by
  have hbits := testBit_fold h (ha.parses path)
  obtain ⟨old', new, hparse, heven, hlen, hversion, hk, hm, hdst⟩ := fold_spec h
  rw [ha.parses path] at hparse
  cases hparse
  have hpos := ha.m_pos
  have hhalf : new.m.toNat = old.m.toNat / 2 := by rw [hm, toNat_half]
  refine ⟨new, ?_⟩
  constructor
  case parses =>
    intro what
    rw [hdst]
    exact Header.parse_toBytes _ _ _ hversion
  case k_eq => rw [hk, ha.k_eq]
  case m_pos => omega
  case whole =>
    rw [hdst, List.length_append, Header.length_toBytes, BitArray.length_flatMap_wordBytes,
      length_foldOuts, Header.bitsLen, Nat.mul_comm]
  case bits =>
    intro key hkey i hi
    rw [hm, bitPositions_half heven] at hi
    obtain ⟨b, hb, rfl⟩ := List.mem_map.mp hi
    have hset := ha.bits key hkey b hb
    have hlt : b < old.m.toNat := by
      obtain ⟨bit, hbit, rfl⟩ := List.mem_map.mp hb
      exact mem_bitPositions_lt hpos hbit
    have hin : b % (old.m.toNat / 2) < old.m.toNat / 2 := Nat.mod_lt _ (by omega)
    rw [hm, hbits, decide_eq_true hin, Bool.true_and, Bool.or_eq_true]
    cases mod_half hlt heven with
    | inl hfirst =>
      rw [hfirst]
      exact Or.inl hset
    | inr hsecond =>
      rw [hsecond]
      exact Or.inr hset

/-- And so does any number of them. -/
theorem Answers.foldsTo {file dst : Bytes} {k : UInt64} {keys : List Bytes} {old : Header}
    (ha : Answers file k keys old) (h : FoldsTo fillOf powi file dst) :
    ∃ new, Answers dst k keys new := by
  induction h with
  | refl => exact ⟨old, ha⟩
  | tail _ hstep ih =>
    obtain ⟨mid, hmid⟩ := ih
    obtain ⟨path, stats, hfold⟩ := hstep
    exact hmid.fold hfold

/-! ### Folding and building -/

theorem new_bits {sizeFor : UInt64 → UInt64 → Except String Sizing} {n p : UInt64}
    {b : BloomBuilder} (h : BloomBuilder.new sizeFor n p = .ok b) (i : ℕ) :
    BitArray.testBit b.bits i = false := by
  rw [BloomBuilder.new] at h
  cases hs : sizeFor n p with
  | error e => rw [hs] at h; cases h
  | ok s =>
    rw [hs] at h
    cases h
    exact BitArray.testBit_zeros _ _

/-- A key's positions in the halved builder. -/
theorem mem_positions_half {b b' : BloomBuilder} (hk : b'.k = b.k) (hm : b'.m = b.m / 2)
    (heven : b.m.toNat % 2 = 0) (value : Bytes) {i : ℕ} (hi : i < b.m.toNat / 2) :
    i ∈ b'.positions value ↔ i ∈ b.positions value ∨ i + b.m.toNat / 2 ∈ b.positions value := by
  have hpos := b.m_pos
  have hlt : ∀ j ∈ b.positions value, j < b.m.toNat := by
    intro j hj
    obtain ⟨bit, hbit, rfl⟩ := List.mem_map.mp hj
    exact mem_bitPositions_lt hpos hbit
  rw [BloomBuilder.positions, hk, hm, bitPositions_half heven, ← BloomBuilder.positions,
    List.mem_map]
  constructor
  · rintro ⟨j, hj, rfl⟩
    cases mod_half (hlt j hj) heven with
    | inl hfirst =>
      rw [hfirst]
      exact Or.inl hj
    | inr hsecond =>
      rw [hsecond]
      exact Or.inr hj
  · intro hor
    cases hor with
    | inl hj => exact ⟨i, hj, Nat.mod_eq_of_lt hi⟩
    | inr hj =>
      refine ⟨_, hj, ?_⟩
      rw [Nat.add_mod_right, Nat.mod_eq_of_lt hi]

/-- **Folding commutes with building**: the folded array is the one that the same keys give in a
filter of half the bits. -/
theorem fold_built {b b' : BloomBuilder} {keys : List Bytes} {dst : Bytes} {path : String}
    {stats : FoldStats} (hzero : ∀ i, BitArray.testBit b.bits i = false)
    (hzero' : ∀ i, BitArray.testBit b'.bits i = false) (hk : b'.k = b.k) (hm : b'.m = b.m / 2)
    (h : fold fillOf powi (keys.foldl BloomBuilder.add b).write path = .ok (dst, stats)) :
    dst.drop headerLen = (keys.foldl BloomBuilder.add b').write.drop headerLen := by
  have hkm := BloomBuilder.foldl_add_km keys b
  have hkm' := BloomBuilder.foldl_add_km keys b'
  have hset := BloomBuilder.testBit_foldl_add keys b
  have hset' := BloomBuilder.testBit_foldl_add keys b'
  generalize keys.foldl BloomBuilder.add b = full at h hkm hset
  generalize keys.foldl BloomBuilder.add b' = half at hkm' hset'
  have hwords := fileWords_write full
  obtain ⟨old, new, hparse, heven, -, -, -, hnew, rfl⟩ := fold_spec h
  rw [BloomBuilder.write, Header.parse_toBytes _ _ _ rfl] at hparse
  cases hparse
  have hheven : b.m.toNat % 2 = 0 := by
    rw [← hkm.2]
    exact heven
  have hhalf : half.m = full.m / 2 := by rw [hkm'.2, hm, hkm.2]
  have harray : (List.range (wordsFor (full.m / 2))).map (foldOut full.write full.m)
      = half.bits := by
    apply BitArray.ext_testBit
    · rw [length_foldOuts, half.bits_length, hhalf]
    intro i
    rw [testBit_foldOuts, hwords, hset, hset, hset', hzero, hzero, hzero', hkm.2]
    simp only [Bool.false_or]
    by_cases hi : i < b.m.toNat / 2
    · rw [decide_eq_true hi, Bool.true_and, ← Bool.decide_or, decide_eq_decide]
      simp only [mem_positions_half hk hm hheven _ hi, Nat.add_comm i, and_or_left, exists_or]
    · have hout : ¬ ∃ key ∈ keys, i ∈ b'.positions key := by
        rintro ⟨key, -, hpos⟩
        obtain ⟨bit, hbit, rfl⟩ := List.mem_map.mp hpos
        have hlt := mem_bitPositions_lt b'.m_pos hbit
        rw [hm, toNat_half] at hlt
        exact hi hlt
      rw [decide_eq_false hi, decide_eq_false hout, Bool.false_and]
  have hhalf' : half.write.drop headerLen = half.bits.flatMap BitArray.wordBytes :=
    List.drop_left' (Header.length_toBytes _)
  rw [hhalf', ← harray, List.drop_left' (Header.length_toBytes _), hnew]
  rfl

end

/-! ### The filter's whole life -/

/-- **No false negatives through the filter's whole life**: whatever number of folds it went
through, the file opens and has every key that was added; a fold sets bit `i` exactly when bit `i`
or bit `i + m/2` was set, tail and trailing data notwithstanding; and the fold of a built filter
holds the array that building with half the bits gives. -/
theorem bloom_whole_life (fillOf powi : UInt64 → UInt64 → UInt64) :
    (∀ (b : BloomBuilder) (keys : List Bytes) (file : Bytes) (path : String),
      FoldsTo fillOf powi (keys.foldl BloomBuilder.add b).write file →
        ∃ bloom, Bloom.open file path = .ok bloom ∧ ∀ key ∈ keys, bloom.check key = some true)
    ∧ (∀ (file dst : Bytes) (path : String) (stats : FoldStats),
      fold fillOf powi file path = .ok (dst, stats) →
        ∃ old new, Header.parse file path = .ok old ∧ Header.parse dst path = .ok new
          ∧ new.k = old.k ∧ new.m.toNat = old.m.toNat / 2
          ∧ dst.length = headerLen + new.bitsLen
          ∧ ∀ i, BitArray.testBit (fileWords dst new.m) i
            = (decide (i < old.m.toNat / 2) && (BitArray.testBit (fileWords file old.m) i
                || BitArray.testBit (fileWords file old.m) (i + old.m.toNat / 2))))
    ∧ ∀ (sizeFor sizeFor' : UInt64 → UInt64 → Except String Sizing) (n p n' p' : UInt64)
        (b b' : BloomBuilder) (keys : List Bytes) (dst : Bytes) (path : String)
        (stats : FoldStats),
      BloomBuilder.new sizeFor n p = .ok b → BloomBuilder.new sizeFor' n' p' = .ok b' →
      b'.k = b.k → b'.m = b.m / 2 →
      fold fillOf powi (keys.foldl BloomBuilder.add b).write path = .ok (dst, stats) →
        dst.drop headerLen = (keys.foldl BloomBuilder.add b').write.drop headerLen := by
  refine ⟨?_, ?_, ?_⟩
  · intro b keys file path hfolds
    obtain ⟨h, ha⟩ := (answers_write b keys).foldsTo hfolds
    exact ha.check path
  · intro file dst path stats h
    obtain ⟨old, new, hparse, -, -, hversion, hk, hm, hdst⟩ := fold_spec h
    have hbits := testBit_fold h hparse
    refine ⟨old, new, hparse, ?_, hk, ?_, ?_, ?_⟩
    · rw [hdst]
      exact Header.parse_toBytes _ _ _ hversion
    · rw [hm, toNat_half]
    · rw [hdst, List.length_append, Header.length_toBytes, BitArray.length_flatMap_wordBytes,
        length_foldOuts, Header.bitsLen, Nat.mul_comm]
    · rw [hm]
      exact hbits
  · intro sizeFor sizeFor' n p n' p' b b' keys dst path stats hb hb' hk hm h
    exact fold_built (new_bits hb) (new_bits hb') hk hm h

/-- One key in 64 bits, folded to 32: two ones in 32, and their square. -/
theorem bloom_whole_life_once :
    ∃ (b b' : BloomBuilder) (dst : Bytes) (stats : FoldStats),
      BloomBuilder.new (fun _ _ => .ok ⟨64, 2, by decide, by decide⟩) 1 0 = .ok b
      ∧ BloomBuilder.new (fun _ _ => .ok ⟨32, 2, by decide, by decide⟩) 1 0 = .ok b'
      ∧ fold (fun _ _ => 0x3FB0000000000000) (fun _ _ => 0x3F70000000000000)
          (b.add [65]).write "a.bloom" = .ok (dst, stats)
      ∧ (∃ bloom, Bloom.open dst "a.bloom" = .ok bloom ∧ ∀ key ∈ [[65]], bloom.check key = some true)
      ∧ dst.length = 56 ∧ dst.drop headerLen = (b'.add [65]).write.drop headerLen := by
  let b : BloomBuilder := ⟨2, 64, 1, 0, 0, [0], by decide, by decide⟩
  let b' : BloomBuilder := ⟨2, 32, 1, 0, 0, [0], by decide, by decide⟩
  have hparse : Header.parse (b.add [65]).write "a.bloom" = .ok (b.add [65]).header :=
    Header.parse_toBytes _ _ _ rfl
  have hwhole : headerLen + (b.add [65]).header.bitsLen ≤ (b.add [65]).write.length := by
    rw [BloomBuilder.write, List.length_append, Header.length_toBytes,
      BitArray.length_flatMap_wordBytes]
    decide
  obtain ⟨dst, stats, h⟩ := @fold_ok (fun _ _ => 0x3FB0000000000000)
    (fun _ _ => 0x3F70000000000000) _ _ _ hparse (by decide) hwhole
  obtain ⟨hkept, hbits, hbuilt⟩ :=
    bloom_whole_life (fun _ _ => 0x3FB0000000000000) (fun _ _ => 0x3F70000000000000)
  have hlen : dst.length = 56 := by
    obtain ⟨old, new, hold, -, -, hm, hlen, -⟩ := hbits _ _ _ _ h
    rw [hparse] at hold
    cases hold
    rw [hlen, Header.bitsLen, wordsFor, hm]
    decide
  exact ⟨b, b', dst, stats, rfl, rfl, h,
    hkept b [[65]] dst "a.bloom" (Relation.ReflTransGen.single ⟨"a.bloom", stats, h⟩), hlen,
    hbuilt (fun _ _ => .ok ⟨64, 2, by decide, by decide⟩) (fun _ _ => .ok ⟨32, 2, by decide, by decide⟩)
      1 0 1 0 b b' [[65]] dst "a.bloom" stats rfl rfl rfl (by decide) h⟩

end Hashdex
