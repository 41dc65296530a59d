import Hashdex.Coord
import Hashdex.Dcso

/-!
# Membership filters: builder, reader and key convention

* `Bloom.check_of_write`: a written filter answers for a key exactly when all the key's bits were
  set by the keys added
* `Bloom.check_member`: so no key that was added is ever denied
* `bloomKey`: how a prober spells a digest
* `Bloom.probes_iff`: what an opened filter needs of its header for every probe to be safe
-/

namespace Hashdex

open Dcso

/-- The bytes of an ASCII string. -/
def asciiBytes (s : List Char) : Bytes := s.map fun c => UInt8.ofNat c.toNat

/-- A filter under construction. -/
structure BloomBuilder where
  k : UInt64
  m : UInt64
  nCapacity : UInt64
  p : UInt64
  nElements : UInt64
  bits : List UInt64
  m_pos : 0 < m.toNat
  bits_length : bits.length = wordsFor m

namespace BloomBuilder

/-- `sizeFor` is the float arithmetic that picks `m` and `k`. -/
def new (sizeFor : UInt64 → UInt64 → Except String Sizing) (n p : UInt64) :
    Except String BloomBuilder :=
  match sizeFor n p with
  | .error e => .error e
  | .ok s =>
    .ok
      { k := s.k
        m := s.m
        nCapacity := n
        p := p
        nElements := 0
        bits := List.replicate (wordsFor s.m) 0
        m_pos := s.m_pos
        bits_length := List.length_replicate }

def positions (b : BloomBuilder) (value : Bytes) : List ℕ :=
  (bitPositions value b.k b.m).map UInt64.toNat

def add (b : BloomBuilder) (value : Bytes) : BloomBuilder :=
  { b with
    bits := BitArray.setAll b.bits (b.positions value)
    nElements := b.nElements + 1
    bits_length := by rw [BitArray.length_setAll, b.bits_length] }

def header (b : BloomBuilder) : Header := ⟨1, b.nCapacity, b.p, b.k, b.m, b.nElements⟩

/-- The file `write` produces. -/
def write (b : BloomBuilder) : Bytes := b.header.toBytes ++ b.bits.flatMap BitArray.wordBytes

end BloomBuilder

/-- A filter mapped for probing. -/
structure Bloom where
  k : UInt64
  m : UInt64
  mmap : Bytes
  nElements : UInt64
  deriving DecidableEq

namespace Bloom

def «open» (file : Bytes) (path : String) : Except String Bloom :=
  match Header.parse file path with
  | .error e => .error e
  | .ok h =>
    if file.length < headerLen + h.bitsLen then
      let bits := h.m
      let len := file.length
      .error s!"bloom filter truncated: header says {bits} bits but file has {len} bytes"
    else .ok ⟨h.k, h.m, file, h.nElements⟩

def check (b : Bloom) (value : Bytes) : Option Bool :=
  checkWith value b.k b.m (wordFrom b.mmap)

end Bloom

/-- How a digest is spelled as a filter key; the other schemes have no filters. -/
def bloomKey (scheme : Scheme) (digest : Bytes) : Option (List Char) :=
  match scheme with
  | .sha1 => some (hexUpper digest)
  | .md5 => some (hexUpper digest)
  | .sha256 => some (hexLower digest)
  | _ => none

/-- A named membership filter bound to the scheme it keys on. -/
structure NamedFilter where
  name : String
  scheme : Scheme
  bloom : Bloom
  bytes : ℕ

/-! ### What the builder sets -/

namespace BloomBuilder

theorem positions_in_range (b : BloomBuilder) (value : Bytes) {i : ℕ} (hi : i ∈ b.positions value) :
    i / 64 < b.bits.length := by
  obtain ⟨bit, hbit, rfl⟩ := List.mem_map.mp hi
  rw [b.bits_length]
  exact word_lt_wordsFor (mem_bitPositions_lt b.m_pos hbit)

theorem testBit_add (b : BloomBuilder) (value : Bytes) (i : ℕ) :
    BitArray.testBit (b.add value).bits i
      = (BitArray.testBit b.bits i || decide (i ∈ b.positions value)) :=
  BitArray.testBit_setAll (fun _ hj => b.positions_in_range value hj) i

/-- Adding keys changes neither of the two numbers that fix the positions. -/
theorem foldl_add_km (keys : List Bytes) (b : BloomBuilder) :
    (keys.foldl add b).k = b.k ∧ (keys.foldl add b).m = b.m := by
  induction keys generalizing b with
  | nil => exact ⟨rfl, rfl⟩
  | cons key keys ih => exact ih (b.add key)

/-- **The bits set are those of the keys added.** -/
theorem testBit_foldl_add (keys : List Bytes) (b : BloomBuilder) (i : ℕ) :
    BitArray.testBit (keys.foldl add b).bits i
      = (BitArray.testBit b.bits i || decide (∃ key ∈ keys, i ∈ b.positions key)) := by
  induction keys generalizing b with
  | nil => simp
  | cons key keys ih =>
    have hpos : ∀ value, (b.add key).positions value = b.positions value := fun _ => rfl
    rw [List.foldl_cons, ih, testBit_add, Bool.or_assoc]
    congr 1
    simp only [hpos, List.mem_cons, exists_eq_or_imp, Bool.decide_or]

theorem testBit_member (b : BloomBuilder) {keys : List Bytes} {key : Bytes} (hkey : key ∈ keys) :
    ∀ i ∈ (keys.foldl add b).positions key, BitArray.testBit (keys.foldl add b).bits i := by
  intro i hi
  have hkm := foldl_add_km keys b
  rw [positions, hkm.1, hkm.2] at hi
  rw [testBit_foldl_add, Bool.or_eq_true, decide_eq_true_iff]
  exact Or.inr ⟨key, hkey, hi⟩

end BloomBuilder

/-! ### The written file -/

namespace Bloom

theorem open_write (b : BloomBuilder) (path : String) :
    Bloom.open b.write path = .ok ⟨b.k, b.m, b.write, b.nElements⟩ := by
  have hlen : b.write.length = headerLen + 8 * wordsFor b.m := by
    rw [BloomBuilder.write, List.length_append, Header.length_toBytes,
      BitArray.length_flatMap_wordBytes, b.bits_length]
  have hbits : b.header.bitsLen = wordsFor b.m * 8 := rfl
  rw [Bloom.open, BloomBuilder.write, Header.parse_toBytes _ _ _ rfl, ← BloomBuilder.write]
  dsimp only
  rw [if_neg (by rw [hlen, hbits]; omega)]
  rfl

/-- The words a probe of a written filter reads are the builder's. -/
theorem wordFrom_write (b : BloomBuilder) {bit : UInt64} (h : bit.toNat < b.m.toNat) :
    wordFrom b.write (bitLocation bit).1 = some (b.bits.getD (bit.toNat / 64) 0) := by
  have hw : wordFrom (b.header.toBytes ++ b.bits.flatMap BitArray.wordBytes ++ [])
      (bitLocation bit).1 = some (b.bits.getD (bit.toNat / 64) 0) :=
    wordFrom_bitLocation (Header.length_toBytes _)
      (by rw [b.bits_length]; exact word_lt_wordsFor h)
  rwa [List.append_nil] at hw

/-- **A written filter answers for a key exactly by the builder's bits.** -/
theorem check_of_write {b : BloomBuilder} {path : String} {bloom : Bloom}
    (h : Bloom.open b.write path = .ok bloom) (value : Bytes) :
    bloom.check value = some (decide (∀ i ∈ b.positions value, BitArray.testBit b.bits i)) := by
  rw [open_write] at h
  cases h
  rw [check, checkWith_eq b.m_pos fun bit hbit => wordFrom_write b hbit]
  congr 1
  rw [Bool.eq_iff_iff, List.all_eq_true, decide_eq_true_iff, BloomBuilder.positions,
    List.forall_mem_map]

/-- **Nothing that was added is denied.** -/
theorem check_member {b : BloomBuilder} {keys : List Bytes} {path : String} {bloom : Bloom}
    (h : Bloom.open (keys.foldl BloomBuilder.add b).write path = .ok bloom) {key : Bytes}
    (hkey : key ∈ keys) : bloom.check key = some true := by
  rw [check_of_write h, Option.some_inj, decide_eq_true_iff]
  exact b.testBit_member hkey

/-! ### Any file that opens -/

/-- Word `i` of a file's header. -/
def headerWord (file : Bytes) (i : ℕ) : UInt64 := BitArray.wordOf ((file.drop (i * 8)).take 8)

/-- The hash count is zero, or the bit count is not. -/
def Answerable (file : Bytes) : Prop := headerWord file 3 = 0 ∨ headerWord file 4 ≠ 0

instance (file : Bytes) : Decidable (Answerable file) := inferInstanceAs (Decidable (_ ∨ _))

/-- What a probe for `value` does, position by position, in the numbers of the source. -/
structure Probes (b : Bloom) (value : Bytes) : Prop where
  /-- A remainder is taken by the bit count as soon as one position is asked for. -/
  divides : b.k ≠ 0 → b.m ≠ 0
  /-- Neither a word's offset nor its end leaves 64 bits. -/
  exact : ∀ bit ∈ bitPositions value b.k b.m, headerLen + bit.toNat / 64 * 8 + 8 < 2 ^ 64
  inside : ∀ bit ∈ bitPositions value b.k b.m,
    headerLen + bit.toNat / 64 * 8 + 8 ≤ b.mmap.length

theorem parse_words {file : Bytes} {path : String} {h : Header}
    (hp : Header.parse file path = .ok h) :
    h.k = headerWord file 3 ∧ h.m = headerWord file 4 := by
  rw [Header.parse] at hp
  split at hp
  · cases hp
  · dsimp only at hp
    split at hp
    · cases hp
    · cases hp
      exact ⟨rfl, rfl⟩

/-- What opening a file checks, and what it keeps of it. -/
theorem open_ok {file : Bytes} {path : String} {bloom : Bloom}
    (h : Bloom.open file path = .ok bloom) :
    bloom.k = headerWord file 3 ∧ bloom.m = headerWord file 4 ∧ bloom.mmap = file ∧
      headerLen + wordsFor bloom.m * 8 ≤ file.length := by
  rw [Bloom.open] at h
  cases hp : Header.parse file path with
  | error e =>
    rw [hp] at h
    cases h
  | ok header =>
    rw [hp] at h
    obtain ⟨hk, hm⟩ := parse_words hp
    dsimp only at h
    split at h
    · cases h
    · rename_i hlen
      cases h
      exact ⟨hk, hm, rfl, Nat.le_of_not_lt hlen⟩

/-- The words a probe reads lie in the bit array, which the length check covers. -/
theorem probes_of_pos {file : Bytes} {path : String} {bloom : Bloom}
    (h : Bloom.open file path = .ok bloom) (hm : bloom.m ≠ 0) (value : Bytes) :
    bloom.Probes value := by
  obtain ⟨-, -, hmap, hlen⟩ := open_ok h
  have hpos : 0 < bloom.m.toNat := by
    refine Nat.pos_of_ne_zero fun h0 => hm ?_
    exact UInt64.toNat_inj.mp h0
  have hword : ∀ bit ∈ bitPositions value bloom.k bloom.m, bit.toNat / 64 < wordsFor bloom.m :=
    fun bit hbit => word_lt_wordsFor (mem_bitPositions_lt hpos hbit)
  refine ⟨fun _ => hm, fun bit hbit => ?_, fun bit hbit => ?_⟩
  · have hlt := bit.toNat_lt
    simp only [headerLen]
    omega
  · have hw := hword bit hbit
    rw [hmap]
    omega

/-- Reads that all stay inside leave nothing to panic on. -/
theorem checkBits_ne_none {file : Bytes} {bits : List UInt64}
    (h : ∀ bit ∈ bits, headerLen + bit.toNat / 64 * 8 + 8 ≤ file.length) :
    checkBits (wordFrom file) bits ≠ none := by
  induction bits with
  | nil => exact Option.some_ne_none true
  | cons bit rest ih =>
    have hbit := h bit List.mem_cons_self
    have hw : wordFrom file (bitLocation bit).1
        = some (BitArray.wordOf ((file.drop (bitLocation bit).1.toNat).take 8)) := by
      rw [wordFrom, if_pos (by rw [bitLocation_fst]; omega)]
    rw [checkBits]
    simp only [hw]
    split
    · exact Option.some_ne_none false
    · exact ih fun b hb => h b (List.mem_cons_of_mem _ hb)

theorem check_ne_none {bloom : Bloom} {value : Bytes} (h : bloom.Probes value) :
    bloom.check value ≠ none := by
  have hm : ¬ (bloom.m = 0 ∧ bloom.k ≠ 0) := fun h0 => h.divides h0.2 h0.1
  rw [check, checkWith, if_neg hm]
  exact checkBits_ne_none h.inside

/-- **A filter that opens can be probed for every key exactly when its header asks for no position
at all or counts at least one bit.** -/
theorem probes_iff {file : Bytes} {path : String} {bloom : Bloom}
    (h : Bloom.open file path = .ok bloom) :
    (∀ value, bloom.check value ≠ none ∧ bloom.Probes value) ↔ Answerable file := by
  obtain ⟨hk, hm, -, -⟩ := open_ok h
  rw [Answerable, ← hk, ← hm]
  constructor
  · intro hall
    by_cases hk0 : bloom.k = 0
    · exact Or.inl hk0
    · exact Or.inr ((hall []).2.divides hk0)
  · intro hmod value
    have hprobes : bloom.Probes value := by
      by_cases hm0 : bloom.m = 0
      · -- no position is asked for
        have hk0 : bloom.k = 0 := hmod.resolve_right (not_not.mpr hm0)
        have hnone : bitPositions value bloom.k bloom.m = [] := by
          rw [hk0]
          rfl
        exact ⟨fun hne => absurd hk0 hne, by simp [hnone], by simp [hnone]⟩
      · exact probes_of_pos h hm0 value
    exact ⟨check_ne_none hprobes, hprobes⟩

theorem probes_iff_at :
    let file := (⟨1, 100, 0, 1, 64, 0⟩ : Header).toBytes ++ List.replicate 8 0
    (∀ value, (⟨1, 64, file, 0⟩ : Bloom).check value ≠ none ∧
      (⟨1, 64, file, 0⟩ : Bloom).Probes value) ↔ Answerable file :=
  @probes_iff _ "f.bloom" _ rfl

/-- A header alone, with one hash and no bits, opens, and every probe of it takes a remainder by
zero. -/
theorem open_without_bits :
    ¬ ∀ file path bloom, Bloom.open file path = .ok bloom →
      ∀ value, bloom.check value ≠ none ∧ bloom.Probes value := by
  intro h
  have hopen : Bloom.open (⟨1, 100, 0, 1, 0, 0⟩ : Header).toBytes "f.bloom"
      = .ok ⟨1, 0, (⟨1, 100, 0, 1, 0, 0⟩ : Header).toBytes, 0⟩ := rfl
  exact (h _ _ _ hopen []).1 rfl

end Bloom

end Hashdex
