import Hashdex.Hex

/-!
# The in-memory range store

`RangeStore` holds the ranges of a remote file that were fetched so far, in a map from where they start.
A read is served from the range with the nearest start at or below it, or recorded as a miss.  `usize`
has `w` bits: 64 in the native build, 32 in the browser's.

* `cached_held`: what a read is served with
* `range_store_faithful_iff`: when every range that was inserted can be read back, and no read gives
  other bytes than the file's
-/

namespace Hashdex

/-- The bytes `[start, start+length)`. -/
def byteRange (file : Bytes) (start length : ℕ) : Bytes := (file.drop start).take length

theorem byteRange_length {file : Bytes} {start length : ℕ} (h : start + length ≤ file.length) :
    (byteRange file start length).length = length := by
  rw [byteRange, List.length_take, List.length_drop]
  omega

/-- A range of a range. -/
theorem byteRange_byteRange (file : Bytes) (start length off n : ℕ) (h : off + n ≤ length) :
    byteRange (byteRange file start length) off n = byteRange file (start + off) n := by
  rw [byteRange, byteRange, byteRange, List.drop_take, List.take_take, List.drop_drop,
    Nat.min_eq_left (by omega)]

/-! ### The map -/

/-- `BTreeMap::insert`: a range that starts where another does takes its place. -/
def insertRange (start : ℕ) (bytes : Bytes) : List (ℕ × Bytes) → List (ℕ × Bytes)
  | [] => [(start, bytes)]
  | x :: rest =>
    if start < x.1 then (start, bytes) :: x :: rest
    else if start = x.1 then (start, bytes) :: rest
    else x :: insertRange start bytes rest

theorem mem_insertRange {start : ℕ} {bytes : Bytes} {ranges : List (ℕ × Bytes)} {x : ℕ × Bytes}
    (hsorted : ranges.Pairwise fun x y => x.1 < y.1) :
    x ∈ insertRange start bytes ranges ↔ x = (start, bytes) ∨ (x ∈ ranges ∧ x.1 ≠ start) := by
  induction ranges with
  | nil => simp [insertRange]
  | cons y rest ih =>
    have hhead := (List.pairwise_cons.mp hsorted).1
    have hrest := ih (List.pairwise_cons.mp hsorted).2
    have habove : ∀ z ∈ rest, y.1 < z.1 := fun z hz => hhead z hz
    rw [insertRange]
    split_ifs with hlt heq
    · have hne : ∀ z ∈ y :: rest, z.1 ≠ start := by
        intro z hz
        cases List.mem_cons.mp hz with
        | inl h => rw [h]; omega
        | inr h => have := habove z h; omega
      rw [List.mem_cons]
      constructor
      · intro h
        exact h.imp id fun hx => ⟨hx, hne x hx⟩
      · intro h
        exact h.imp id And.left
    · have hne : ∀ z ∈ rest, z.1 ≠ start := by
        intro z hz
        have := habove z hz
        omega
      rw [List.mem_cons]
      constructor
      · intro h
        exact h.imp id fun hx => ⟨List.mem_cons_of_mem y hx, hne x hx⟩
      · intro h
        cases h with
        | inl h => exact .inl h
        | inr h =>
          cases List.mem_cons.mp h.1 with
          | inl hy => exact absurd (by rw [hy, heq]) h.2
          | inr hx => exact .inr hx
    · rw [List.mem_cons, hrest]
      constructor
      · intro h
        cases h with
        | inl h => exact .inr ⟨by rw [h]; exact List.mem_cons_self, by rw [h]; omega⟩
        | inr h => exact h.imp id fun hx => ⟨List.mem_cons_of_mem y hx.1, hx.2⟩
      · intro h
        cases h with
        | inl h => exact .inr (.inl h)
        | inr h =>
          cases List.mem_cons.mp h.1 with
          | inl hy => exact .inl hy
          | inr hx => exact .inr (.inr ⟨hx, h.2⟩)

theorem insertRange_sorted (start : ℕ) (bytes : Bytes) {ranges : List (ℕ × Bytes)}
    (hsorted : ranges.Pairwise fun x y => x.1 < y.1) :
    (insertRange start bytes ranges).Pairwise fun x y => x.1 < y.1 := by
  induction ranges with
  | nil => exact List.pairwise_singleton _ _
  | cons y rest ih =>
    have hhead := (List.pairwise_cons.mp hsorted).1
    have hrest := (List.pairwise_cons.mp hsorted).2
    rw [insertRange]
    split_ifs with hlt heq
    · apply List.pairwise_cons.mpr
      constructor
      · intro z hz
        show start < z.1
        cases List.mem_cons.mp hz with
        | inl h => rwa [h]
        | inr h => exact hlt.trans (hhead z h)
      · exact hsorted
    · apply List.pairwise_cons.mpr
      constructor
      · intro z hz
        show start < z.1
        rw [heq]
        exact hhead z hz
      · exact hrest
    · apply List.pairwise_cons.mpr
      constructor
      · intro z hz
        cases (mem_insertRange hrest).mp hz with
        | inl h => rw [h]; show y.1 < start; omega
        | inr h => exact hhead z h.1
      · exact ih hrest

structure RangeStore where
  /-- The remote file's total length. -/
  len : ℕ
  fetchBlock : ℕ
  ranges : List (ℕ × Bytes)
  sorted : ranges.Pairwise fun x y => x.1 < y.1
  /-- The range the last failing read needed. -/
  miss : Option (ℕ × ℕ)

namespace RangeStore

def withFetchBlock (len fetchBlock : ℕ) : RangeStore := ⟨len, fetchBlock, [], .nil, none⟩

/-- Make `[start, start+bytes.len())` readable. -/
def insert (s : RangeStore) (start : ℕ) (bytes : Bytes) : RangeStore :=
  { s with
    ranges := insertRange start bytes s.ranges
    sorted := insertRange_sorted start bytes s.sorted }

/-- `ranges.range(..=start).next_back()`. -/
def nearest (s : RangeStore) (start : ℕ) : Option (ℕ × Bytes) :=
  (s.ranges.filter fun x => x.1 ≤ start).getLast?

end RangeStore

/-- What the map has for a read; with offsets past `usize` the slice panics. -/
inductive Cached
  | held (bytes : Bytes)
  | absent
  | panics
  deriving DecidableEq

inductive Got
  | bytes (bytes : Bytes)
  | miss
  | panics
  deriving DecidableEq

namespace RangeStore

variable (w : ℕ)

def cached (s : RangeStore) (start length : ℕ) : Cached :=
  match s.nearest start with
  | none => .absent
  | some (lo, bytes) =>
    let off := (start - lo) % 2 ^ w
    let reach := (off + length) % 2 ^ w
    if bytes.length < reach then .absent
    else if reach < off then .panics
    else .held (byteRange bytes off length)

/-- Small reads are rounded up to a block, but never past the end of the file. -/
def missed (s : RangeStore) (start length : ℕ) : RangeStore :=
  { s with miss := some (start, max (min (max length s.fetchBlock) ((s.len - start) % 2 ^ w)) length) }

def getBytes (s : RangeStore) (start length : ℕ) : RangeStore × Got :=
  if length = 0 then (s, .bytes [])
  else
    match s.cached w start length with
    | .held bytes => (s, .bytes bytes)
    | .absent => (s.missed w start length, .miss)
    | .panics => (s, .panics)

/-- As much as the covering range holds, by halves. -/
def serve (s : RangeStore) (pos n : ℕ) : Cached :=
  if n = 0 then .absent
  else
    match s.cached w pos n with
    | .absent => serve s pos (n / 2)
    | got => got
termination_by n
decreasing_by omega

/-- `StoreCursor::read` at a position; the cursor moves by what is read. -/
def read (s : RangeStore) (pos buf : ℕ) : RangeStore × Got :=
  if s.len ≤ pos ∨ buf = 0 then (s, .bytes [])
  else
    let avail := min (s.len - pos) buf
    match s.serve w pos avail with
    | .held bytes => (s, .bytes bytes)
    | .absent => (s.missed w pos avail, .miss)
    | .panics => (s, .panics)

/-! ### What a read is served with -/

theorem nearest_eq_some {s : RangeStore} {start : ℕ} {x : ℕ × Bytes} :
    s.nearest start = some x ↔
      x ∈ s.ranges ∧ x.1 ≤ start ∧ ∀ y ∈ s.ranges, y.1 ≤ start → y.1 ≤ x.1 := by
  have hsorted : (s.ranges.filter fun x => x.1 ≤ start).Pairwise fun x y => x.1 < y.1 :=
    s.sorted.filter _
  have hmem : ∀ y, y ∈ (s.ranges.filter fun x => x.1 ≤ start) ↔ y ∈ s.ranges ∧ y.1 ≤ start := by
    intro y
    simp
  rw [nearest]
  generalize s.ranges.filter (fun x => x.1 ≤ start) = below at hsorted hmem
  constructor
  · intro h
    have hx := (hmem x).mp (List.mem_of_getLast? h)
    show x ∈ s.ranges ∧ x.1 ≤ start ∧ _
    exact ⟨hx.1, hx.2, fun y hy hle => by
      obtain ⟨init, hinit⟩ := List.getLast?_eq_some_iff.mp h
      have hy' := (hmem y).mpr ⟨hy, hle⟩
      rw [hinit] at hy' hsorted
      cases List.mem_append.mp hy' with
      | inl hin =>
        exact ((List.pairwise_append.mp hsorted).2.2 y hin x (List.mem_singleton.mpr rfl)).le
      | inr hin => rw [List.mem_singleton.mp hin]⟩
  · intro ⟨hx, hle, hmax⟩
    have hin := (hmem x).mpr ⟨hx, hle⟩
    cases hlast : below.getLast? with
    | none =>
      rw [List.getLast?_eq_none_iff.mp hlast] at hin
      exact absurd hin List.not_mem_nil
    | some y =>
      obtain ⟨init, hinit⟩ := List.getLast?_eq_some_iff.mp hlast
      have hy := (hmem y).mp (List.mem_of_getLast? hlast)
      have hyx := hmax y hy.1 hy.2
      rw [hinit] at hin hsorted
      cases List.mem_append.mp hin with
      | inl h =>
        have := (List.pairwise_append.mp hsorted).2.2 x h y (List.mem_singleton.mpr rfl)
        omega
      | inr h => rw [List.mem_singleton.mp h]

theorem nearest_isSome {s : RangeStore} {start : ℕ} {x : ℕ × Bytes} (hx : x ∈ s.ranges)
    (hle : x.1 ≤ start) : ∃ y, s.nearest start = some y ∧ x.1 ≤ y.1 := by
  cases h : s.nearest start with
  | none =>
    have hnil := List.getLast?_eq_none_iff.mp h
    have hin : x ∈ s.ranges.filter fun x => x.1 ≤ start := by simp [hx, hle]
    rw [hnil] at hin
    exact absurd hin List.not_mem_nil
  | some y => exact ⟨y, rfl, (nearest_eq_some.mp h).2.2 x hx hle⟩

variable {w}

/-- A read is served from the nearest range, as far as `usize` tells the distance. -/
theorem cached_held {s : RangeStore} {start length : ℕ} {bytes : Bytes} (hlength : length < 2 ^ w)
    (h : s.cached w start length = .held bytes) :
    ∃ x, s.nearest start = some x ∧ (start - x.1) % 2 ^ w + length ≤ x.2.length
      ∧ bytes = byteRange x.2 ((start - x.1) % 2 ^ w) length := by
  unfold cached at h
  cases hnear : s.nearest start with
  | none => rw [hnear] at h; cases h
  | some x =>
    rw [hnear] at h
    dsimp only at h
    have hoff : (start - x.1) % 2 ^ w < 2 ^ w := Nat.mod_lt _ (Nat.two_pow_pos w)
    generalize hoffset : (start - x.1) % 2 ^ w = off at h hoff
    split_ifs at h with hshort hwrap
    cases h
    have hreach : (off + length) % 2 ^ w = off + length := by
      by_cases hover : off + length < 2 ^ w
      · exact Nat.mod_eq_of_lt hover
      · have hwrapped : (off + length) % 2 ^ w = off + length - 2 ^ w := by
          rw [Nat.mod_eq_sub_mod (by omega)]
          exact Nat.mod_eq_of_lt (by omega)
        omega
    exact ⟨x, rfl, by rw [hoffset]; omega, by rw [hoffset]⟩

/-- A read that ends within the nearest range is served. -/
theorem cached_of_nearest {s : RangeStore} {start length : ℕ} {x : ℕ × Bytes}
    (hx : s.nearest start = some x) (hwide : x.2.length < 2 ^ w)
    (hfit : (start - x.1) % 2 ^ w + length ≤ x.2.length) :
    s.cached w start length = .held (byteRange x.2 ((start - x.1) % 2 ^ w) length) := by
  unfold cached
  rw [hx]
  dsimp only
  generalize (start - x.1) % 2 ^ w = off at hfit
  rw [Nat.mod_eq_of_lt (show off + length < 2 ^ w by omega), if_neg (by omega), if_neg (by omega)]

/-- What is served by halves is a read of some length that is no greater. -/
theorem serve_held {s : RangeStore} {pos : ℕ} {bytes : Bytes} (n : ℕ)
    (h : s.serve w pos n = .held bytes) : ∃ m, 0 < m ∧ m ≤ n ∧ s.cached w pos m = .held bytes := by
  induction n using Nat.strongRecOn with
  | _ n ih =>
    rw [serve] at h
    split_ifs at h with hzero
    cases hcached : s.cached w pos n with
    | held got =>
      rw [hcached] at h
      cases h
      exact ⟨n, by omega, le_rfl, hcached⟩
    | absent =>
      rw [hcached] at h
      obtain ⟨m, hpos, hle, hm⟩ := ih (n / 2) (by omega) h
      exact ⟨m, hpos, by omega, hm⟩
    | panics =>
      rw [hcached] at h
      cases h

theorem serve_of_cached {s : RangeStore} {pos n : ℕ} {bytes : Bytes} (hpos : 0 < n)
    (h : s.cached w pos n = .held bytes) : s.serve w pos n = .held bytes := by
  rw [serve, if_neg (by omega), h]

end RangeStore

/-! ### Any inserts -/

/-- The store after the inserts. -/
def filled (len fetchBlock : ℕ) (inserts : List (ℕ × Bytes)) : RangeStore :=
  inserts.foldl (fun s x => s.insert x.1 x.2) (RangeStore.withFetchBlock len fetchBlock)

/-- The last insert that starts where it does. -/
def LastAt (inserts : List (ℕ × Bytes)) (x : ℕ × Bytes) : Prop :=
  ∃ before after, inserts = before ++ x :: after ∧ ∀ y ∈ after, y.1 ≠ x.1

theorem lastAt_concat {inserts : List (ℕ × Bytes)} {x y : ℕ × Bytes} :
    LastAt (inserts ++ [y]) x ↔ x = y ∨ (LastAt inserts x ∧ x.1 ≠ y.1) := by
  constructor
  · intro ⟨before, after, heq, hafter⟩
    cases after using List.reverseRecOn with
    | nil =>
      have h := List.append_inj' heq rfl
      exact .inl (List.singleton_inj.mp h.2).symm
    | append_singleton after z =>
      have h := List.append_inj' (show inserts ++ [y] = (before ++ x :: after) ++ [z] by simpa using heq)
        rfl
      have hz : y = z := List.singleton_inj.mp h.2
      exact .inr ⟨⟨before, after, h.1, fun u hu => hafter u (List.mem_append_left _ hu)⟩,
        fun hne => hafter z (by simp) (by rw [← hz, hne])⟩
  · intro h
    cases h with
    | inl h => exact ⟨inserts, [], by rw [h], fun u hu => absurd hu List.not_mem_nil⟩
    | inr h =>
      obtain ⟨⟨before, after, heq, hafter⟩, hne⟩ := h
      exact ⟨before, after ++ [y], by simp [heq], fun u hu => by
        cases List.mem_append.mp hu with
        | inl hu => exact hafter u hu
        | inr hu =>
          rw [List.mem_singleton.mp hu]
          exact fun heq => hne heq.symm⟩

theorem mem_filled {len fetchBlock : ℕ} {inserts : List (ℕ × Bytes)} {x : ℕ × Bytes} :
    x ∈ (filled len fetchBlock inserts).ranges ↔ LastAt inserts x := by
  induction inserts using List.reverseRecOn with
  | nil =>
    show x ∈ [] ↔ _
    constructor
    · intro h
      exact absurd h List.not_mem_nil
    · intro ⟨before, after, heq, _⟩
      simp at heq
  | append_singleton inserts y ih =>
    rw [lastAt_concat, ← ih, filled, List.foldl_append]
    exact mem_insertRange (filled len fetchBlock inserts).sorted

theorem LastAt.mem {inserts : List (ℕ × Bytes)} {x : ℕ × Bytes} (h : LastAt inserts x) :
    x ∈ inserts := by
  obtain ⟨before, after, heq, _⟩ := h
  rw [heq]
  simp

/-- Something was last inserted where a range starts. -/
theorem exists_lastAt {inserts : List (ℕ × Bytes)} {x : ℕ × Bytes} (h : x ∈ inserts) :
    ∃ y, LastAt inserts y ∧ y.1 = x.1 := by
  induction inserts using List.reverseRecOn with
  | nil => exact absurd h List.not_mem_nil
  | append_singleton inserts z ih =>
    by_cases hz : z.1 = x.1
    · exact ⟨z, lastAt_concat.mpr (.inl rfl), hz⟩
    · cases List.mem_append.mp h with
      | inl h =>
        obtain ⟨y, hy, heq⟩ := ih h
        exact ⟨y, lastAt_concat.mpr (.inr ⟨hy, by rw [heq]; exact fun h => hz h.symm⟩), heq⟩
      | inr h => exact absurd (by rw [List.mem_singleton.mp h]) hz

/-! ### What the store owes -/

/-- The inserts are ranges of one file, each of a size that memory holds. -/
def Consistent (w : ℕ) (file : Bytes) (inserts : List (ℕ × Bytes)) : Prop :=
  ∀ x ∈ inserts, x.1 + x.2.length ≤ file.length ∧ x.2 = byteRange file x.1 x.2.length
    ∧ x.2.length < 2 ^ w

instance (w : ℕ) (file : Bytes) (inserts : List (ℕ × Bytes)) : Decidable (Consistent w file inserts) :=
  inferInstanceAs (Decidable (∀ x ∈ inserts, _))

def Inside (inserts : List (ℕ × Bytes)) (start length : ℕ) : Prop :=
  ∃ x ∈ inserts, x.1 ≤ start ∧ start + length ≤ x.1 + x.2.length

/-- A read of the file's `[start, start+length)` gives these bytes if it is inside something inserted,
and never gives others. -/
def Honest (file : Bytes) (inserts : List (ℕ × Bytes)) (start length : ℕ) (got : Got) : Prop :=
  (Inside inserts start length → got = .bytes (byteRange file start length))
    ∧ ∀ bytes, got = .bytes bytes → bytes = byteRange file start bytes.length

/-- Both ways to read are honest. -/
structure Faithful (w : ℕ) (file : Bytes) (inserts : List (ℕ × Bytes)) (s : RangeStore) : Prop where
  getBytes : ∀ start length, length < 2 ^ w → start + length ≤ file.length →
    Honest file inserts start length (s.getBytes w start length).2
  read : ∀ pos buf, buf < 2 ^ w → pos ≤ file.length →
    Honest file inserts pos (min (file.length - pos) buf) (s.read w pos buf).2

/-- Nothing that is kept starts inside an inserted range and ends before it does. -/
def Uncut (inserts : List (ℕ × Bytes)) : Prop :=
  ∀ x ∈ inserts, ∀ y, LastAt inserts y → x.1 ≤ y.1 → y.1 < x.1 + x.2.length →
    x.1 + x.2.length ≤ y.1 + y.2.length

/-- Where a place of the file is `2^w` or more above the nearest start, the bytes that the truncated
distance leads to, if there are any, are the file's own there. -/
def Near (w : ℕ) (file : Bytes) (inserts : List (ℕ × Bytes)) : Prop :=
  ∀ p y, LastAt inserts y → y.1 + 2 ^ w ≤ p → (∀ z, LastAt inserts z → z.1 ≤ p → z.1 ≤ y.1) →
    ∀ i, (p - y.1) % 2 ^ w + i < y.2.length → p + i < file.length →
      file[p + i]? = y.2[(p - y.1) % 2 ^ w + i]?

/-- On files of up to `2^w` bytes no distance is truncated. -/
theorem near_of_length {w : ℕ} {file : Bytes} (h : file.length ≤ 2 ^ w) (inserts : List (ℕ × Bytes)) :
    Near w file inserts := by
  intro p y _ hfar _ i _ hi
  omega

section

variable {w : ℕ} {file : Bytes} {inserts : List (ℕ × Bytes)} {len fetchBlock : ℕ}

theorem nearest_filled {p : ℕ} {x : ℕ × Bytes} :
    (filled len fetchBlock inserts).nearest p = some x ↔
      LastAt inserts x ∧ x.1 ≤ p ∧ ∀ y, LastAt inserts y → y.1 ≤ p → y.1 ≤ x.1 := by
  rw [RangeStore.nearest_eq_some, mem_filled]
  constructor
  · intro h
    exact ⟨h.1, h.2.1, fun y hy => h.2.2 y (mem_filled.mpr hy)⟩
  · intro h
    exact ⟨h.1, h.2.1, fun y hy => h.2.2 y (mem_filled.mp hy)⟩

/-- What is served is the file's. -/
theorem cached_sound (hfile : Consistent w file inserts) (hnear : Near w file inserts)
    {start length : ℕ} {bytes : Bytes} (hlength : length < 2 ^ w) (hend : start + length ≤ file.length)
    (h : (filled len fetchBlock inserts).cached w start length = .held bytes) :
    bytes = byteRange file start length := by
  obtain ⟨x, hx, hfit, hbytes⟩ := RangeStore.cached_held hlength h
  obtain ⟨hlast, hle, hmax⟩ := nearest_filled.mp hx
  obtain ⟨hxend, hxbytes, hxlen⟩ := hfile x hlast.mem
  rw [hbytes]
  by_cases hfar : x.1 + 2 ^ w ≤ start
  · -- the distance was truncated: byte by byte
    apply List.ext_getElem?
    intro i
    by_cases hi : i < length
    · have heq := hnear start x hlast hfar hmax i (by omega) (by omega)
      rw [byteRange, byteRange, List.getElem?_take_of_lt hi, List.getElem?_take_of_lt hi,
        List.getElem?_drop, List.getElem?_drop, heq]
    · rw [byteRange, byteRange, List.getElem?_take_eq_none (by omega),
        List.getElem?_take_eq_none (by omega)]
  · have hmod : (start - x.1) % 2 ^ w = start - x.1 := Nat.mod_eq_of_lt (by omega)
    rw [hmod] at hfit ⊢
    rw [hxbytes, byteRange_byteRange file x.1 x.2.length _ _ hfit]
    congr 1
    omega

/-- Inside an inserted range nothing is missed. -/
theorem cached_complete (hfile : Consistent w file inserts) (huncut : Uncut inserts)
    {start length : ℕ} (hpos : 0 < length) (hin : Inside inserts start length) :
    (filled len fetchBlock inserts).cached w start length = .held (byteRange file start length) := by
  obtain ⟨x, hx, hle, hend⟩ := hin
  obtain ⟨z, hz, hzx⟩ := exists_lastAt hx
  obtain ⟨y, hy, hzy⟩ : ∃ y, (filled len fetchBlock inserts).nearest start = some y ∧ z.1 ≤ y.1 :=
    RangeStore.nearest_isSome (mem_filled.mpr hz) (by omega)
  obtain ⟨hlast, hyle, -⟩ := nearest_filled.mp hy
  have hreach := huncut x hx y hlast (by omega) (by omega)
  obtain ⟨hyend, hybytes, hylen⟩ := hfile y hlast.mem
  have hmod : (start - y.1) % 2 ^ w = start - y.1 := Nat.mod_eq_of_lt (by omega)
  have hfit : (start - y.1) % 2 ^ w + length ≤ y.2.length := by rw [hmod]; omega
  rw [RangeStore.cached_of_nearest hy hylen hfit, hmod]
  congr 1
  rw [hybytes, byteRange_byteRange file y.1 y.2.length _ _ (by omega)]
  congr 1
  omega

theorem getBytes_honest (hfile : Consistent w file inserts) (huncut : Uncut inserts)
    (hnear : Near w file inserts) {start length : ℕ} (hlength : length < 2 ^ w)
    (hend : start + length ≤ file.length) :
    Honest file inserts start length ((filled len fetchBlock inserts).getBytes w start length).2 := by
  unfold RangeStore.getBytes
  split_ifs with hzero
  · subst hzero
    constructor
    · intro _
      show Got.bytes [] = .bytes (byteRange file start 0)
      rw [byteRange, List.take_zero]
    · intro bytes h
      cases h
      show [] = byteRange file start 0
      rw [byteRange, List.take_zero]
  · constructor
    · intro hin
      rw [cached_complete hfile huncut (by omega) hin]
    · intro bytes h
      cases hcached : (filled len fetchBlock inserts).cached w start length with
      | held got =>
        rw [hcached] at h
        cases h
        have hbytes := cached_sound hfile hnear hlength hend hcached
        rw [hbytes, byteRange_length hend]
      | absent =>
        rw [hcached] at h
        cases h
      | panics =>
        rw [hcached] at h
        cases h

theorem filled_len : (filled len fetchBlock inserts).len = len := by
  induction inserts using List.reverseRecOn with
  | nil => rfl
  | append_singleton inserts x ih =>
    rw [filled, List.foldl_append]
    exact ih

theorem read_honest (hfile : Consistent w file inserts) (huncut : Uncut inserts)
    (hnear : Near w file inserts) {pos buf : ℕ} (hbuf : buf < 2 ^ w) (hpos : pos ≤ file.length) :
    Honest file inserts pos (min (file.length - pos) buf)
      ((filled file.length fetchBlock inserts).read w pos buf).2 := by
  unfold RangeStore.read
  rw [filled_len]
  split_ifs with hend
  · have hnone : min (file.length - pos) buf = 0 := by
      cases hend with
      | inl h => omega
      | inr h => omega
    rw [hnone]
    constructor
    · intro _
      show Got.bytes [] = .bytes (byteRange file pos 0)
      rw [byteRange, List.take_zero]
    · intro bytes h
      cases h
      show [] = byteRange file pos 0
      rw [byteRange, List.take_zero]
  · have havail : 0 < min (file.length - pos) buf := by omega
    dsimp only
    constructor
    · intro hin
      rw [RangeStore.serve_of_cached havail (cached_complete hfile huncut havail hin)]
    · intro bytes h
      cases hserve : (filled file.length fetchBlock inserts).serve w pos
          (min (file.length - pos) buf) with
      | held got =>
        rw [hserve] at h
        cases h
        obtain ⟨m, -, hm, hcached⟩ := RangeStore.serve_held _ hserve
        have hbytes := cached_sound hfile hnear (by omega) (by omega) hcached
        rw [hbytes, byteRange_length (by omega)]
      | absent =>
        rw [hserve] at h
        cases h
      | panics =>
        rw [hserve] at h
        cases h

/-- **When the store keeps what it was given.**  Every read inside an inserted range succeeds with the
file's bytes, and none gives others, exactly when nothing kept starts inside an inserted range and ends
before it, and no truncated distance leads to other bytes. -/
theorem range_store_faithful_iff (fetchBlock : ℕ) (hfile : Consistent w file inserts) :
    Faithful w file inserts (filled file.length fetchBlock inserts)
      ↔ Uncut inserts ∧ Near w file inserts := by
  constructor
  · intro h
    constructor
    · intro x hx y hy hle hlt
      by_contra hshort
      obtain ⟨hxend, -, hxlen⟩ := hfile x hx
      obtain ⟨-, -, hylen⟩ := hfile y hy.mem
      have hread := (h.getBytes y.1 (x.1 + x.2.length - y.1) (by omega) (by omega)).1
        ⟨x, hx, hle, by omega⟩
      have hnearest : (filled file.length fetchBlock inserts).nearest y.1 = some y :=
        nearest_filled.mpr ⟨hy, le_rfl, fun z _ hz => hz⟩
      have habsent : (filled file.length fetchBlock inserts).cached w y.1 (x.1 + x.2.length - y.1)
          = .absent := by
        unfold RangeStore.cached
        rw [hnearest]
        dsimp only
        rw [Nat.sub_self, Nat.zero_mod, Nat.zero_add, Nat.mod_eq_of_lt (by omega), if_pos (by omega)]
      unfold RangeStore.getBytes at hread
      rw [if_neg (by omega), habsent] at hread
      cases hread
    · intro p y hy hfar hmax i hi hend
      obtain ⟨-, -, hylen⟩ := hfile y hy.mem
      have hnearest : (filled file.length fetchBlock inserts).nearest p = some y :=
        nearest_filled.mpr ⟨hy, by omega, hmax⟩
      have hheld : (filled file.length fetchBlock inserts).cached w p (i + 1)
          = .held (byteRange y.2 ((p - y.1) % 2 ^ w) (i + 1)) :=
        RangeStore.cached_of_nearest hnearest hylen (by omega)
      have hread := (h.getBytes p (i + 1) (by omega) (by omega)).2
        (byteRange y.2 ((p - y.1) % 2 ^ w) (i + 1))
      unfold RangeStore.getBytes at hread
      rw [if_neg (by omega), hheld] at hread
      have hbytes := hread rfl
      rw [byteRange_length (by omega)] at hbytes
      have hbyte := congrArg (fun b => b[i]?) hbytes
      simp only [byteRange] at hbyte
      rw [List.getElem?_take_of_lt (by omega), List.getElem?_take_of_lt (by omega),
        List.getElem?_drop, List.getElem?_drop] at hbyte
      exact hbyte.symm
  · intro ⟨huncut, hnear⟩
    exact ⟨fun start length hlength hend => getBytes_honest hfile huncut hnear hlength hend,
      fun pos buf hbuf hpos => read_honest hfile huncut hnear hbuf hpos⟩

end

/-- The first two bytes, and then the last two. -/
theorem range_store_faithful_halves :
    Faithful 64 [1, 2, 3, 4] [(0, [1, 2]), (2, [3, 4])] (filled 4 65536 [(0, [1, 2]), (2, [3, 4])]) := by
  refine (range_store_faithful_iff 65536 (by decide)).mpr ⟨?_, near_of_length (by decide) _⟩
  intro x hx y hy
  have hy := hy.mem
  simp only [List.mem_cons, List.not_mem_nil, or_false] at hx hy
  obtain hx | hx := hx <;> obtain hy | hy := hy <;> subst hx hy <;> decide

/-- A whole file, and then its first half again: the second half cannot be read any more. -/
theorem prefix_hides_range :
    Consistent 64 [1, 2, 3, 4] [(0, [1, 2, 3, 4]), (0, [1, 2])]
      ∧ Inside [(0, [1, 2, 3, 4]), (0, [1, 2])] 2 2
      ∧ ((filled 4 65536 [(0, [1, 2, 3, 4]), (0, [1, 2])]).getBytes 64 2 2).2 = .miss
      ∧ ¬ Faithful 64 [1, 2, 3, 4] [(0, [1, 2, 3, 4]), (0, [1, 2])]
        (filled 4 65536 [(0, [1, 2, 3, 4]), (0, [1, 2])]) := by
  have hmiss : ((filled 4 65536 [(0, [1, 2, 3, 4]), (0, [1, 2])]).getBytes 64 2 2).2 = .miss := by decide
  have hin : Inside [(0, [1, 2, 3, 4]), (0, [1, 2])] 2 2 := ⟨(0, [1, 2, 3, 4]), by decide, by decide⟩
  refine ⟨by decide, hin, hmiss, fun h => ?_⟩
  have hread := (h.getBytes 2 2 (by decide) (by decide)).1 hin
  rw [hmiss] at hread
  cases hread

end Hashdex
