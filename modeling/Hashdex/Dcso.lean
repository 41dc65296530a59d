import Hashdex.Hex
import Hashdex.Lib.BitArray

/-!
# The DCSO filter format

The header codec and the membership hashing, without any transport.  A probe reads one word for each
bit position; `checkWith` takes the word reader as an argument, so the same code serves a mapped
file and ranged reads.  A read that falls outside the file is a panic, rendered as `none`.

* `Header.parse_toBytes`: the header is read back as written
* `checkWith_eq`: a probe asks whether every bit position of the key is set
-/

namespace Hashdex

def headerLen : ℕ := 48

namespace Dcso

/-- `2^64 - 87`. -/
def modulus : UInt64 := 18446744073709551529

def g : UInt64 := 18446744073709550147

def fnv1_64 (data : Bytes) : UInt64 :=
  data.foldl (fun h b => (h * 0x100000001b3) ^^^ b.toUInt64) 0xcbf29ce484222325

/-- The positions probed from hash state `h` on, `k` of them.  The product wraps before the
reduction, as in the reference implementation. -/
def positionsFrom (m : UInt64) : ℕ → UInt64 → List UInt64
  | 0, _ => []
  | k + 1, h =>
    let h' := h * g % modulus
    h' % m :: positionsFrom m k h'

/-- The `k` bit positions a key probes, in probe order. -/
def bitPositions (value : Bytes) (k m : UInt64) : List UInt64 :=
  positionsFrom m k.toNat (fnv1_64 value % modulus)

/-- The file offset of the word that holds a bit, and the mask to test within it. -/
def bitLocation (bit : UInt64) : UInt64 × UInt64 :=
  (UInt64.ofNat headerLen + (bit >>> 6) * 8, 1 <<< (bit &&& 63))

/-- Test the positions in order, stopping at the first clear bit. -/
def checkBits (wordAt : UInt64 → Option UInt64) : List UInt64 → Option Bool
  | [] => some true
  | bit :: rest =>
    let (off, mask) := bitLocation bit
    match wordAt off with
    | none => none
    | some w => if w &&& mask = 0 then some false else checkBits wordAt rest

/-- Membership over any word reader.  Taking a remainder by zero panics. -/
def checkWith (value : Bytes) (k m : UInt64) (wordAt : UInt64 → Option UInt64) : Option Bool :=
  if m = 0 ∧ k ≠ 0 then none else checkBits wordAt (bitPositions value k m)

/-- The little-endian word at a byte offset of a mapped file; slicing past its end panics. -/
def wordFrom (file : Bytes) (off : UInt64) : Option UInt64 :=
  if off.toNat + 8 ≤ file.length then
    some (BitArray.wordOf ((file.drop off.toNat).take 8))
  else none

/-- `m.div_ceil(64)`. -/
def wordsFor (m : UInt64) : ℕ := (m.toNat + 63) / 64

/-- What `size_for` returns: a bit count and a hash count. -/
structure Sizing where
  m : UInt64
  k : UInt64
  /-- `ceil` of a positive number. -/
  m_pos : 0 < m.toNat
  /-- `max(1.0)`. -/
  k_pos : 0 < k.toNat

/-- The six header words.  The float `p` is carried as its bits. -/
structure Header where
  version : UInt64
  nCapacity : UInt64
  p : UInt64
  k : UInt64
  m : UInt64
  nElements : UInt64
  deriving DecidableEq

namespace Header

def toBytes (h : Header) : Bytes :=
  [h.version, h.nCapacity, h.p, h.k, h.m, h.nElements].flatMap BitArray.wordBytes

/-- Read the leading 48 bytes; `what` names the filter in errors. -/
def parse (bytes : Bytes) (what : String) : Except String Header :=
  if bytes.length < headerLen then .error s!"bloom filter too short: {what}"
  else
    let u64At := fun i : ℕ => BitArray.wordOf ((bytes.drop (i * 8)).take 8)
    let version := u64At 0
    if version &&& 0xff ≠ 1 then .error s!"unsupported bloom filter version {version}"
    else .ok ⟨version, u64At 1, u64At 2, u64At 3, u64At 4, u64At 5⟩

/-- Bytes of bit array the header promises after itself. -/
def bitsLen (h : Header) : ℕ := wordsFor h.m * 8

@[simp] theorem length_toBytes (h : Header) : h.toBytes.length = headerLen := by
  rw [toBytes, BitArray.length_flatMap_wordBytes]
  rfl

/-- **The header is read back as written**, whatever follows it. -/
theorem parse_toBytes (h : Header) (rest : Bytes) (what : String) (hv : h.version = 1) :
    parse (h.toBytes ++ rest) what = .ok h := by
  have hword : ∀ (i : ℕ) (hi : i < 6), BitArray.wordOf (((h.toBytes ++ rest).drop (i * 8)).take 8)
      = [h.version, h.nCapacity, h.p, h.k, h.m, h.nElements][i] := by
    intro i hi
    have hw := BitArray.word_of_flatMap []
      [h.version, h.nCapacity, h.p, h.k, h.m, h.nElements] rest (i := i) hi
    rw [List.nil_append, List.length_nil, Nat.zero_add, Nat.mul_comm] at hw
    rw [toBytes, hw, BitArray.wordOf_wordBytes]
  have hlen : ¬ (h.toBytes ++ rest).length < headerLen := by
    rw [List.length_append, length_toBytes]
    omega
  have hver : ¬ (h.version &&& 0xff ≠ 1) := by
    rw [hv]
    decide
  rw [parse, if_neg hlen]
  simp only [hword 0 (by omega), hword 1 (by omega), hword 2 (by omega), hword 3 (by omega),
    hword 4 (by omega), hword 5 (by omega), List.getElem_cons_zero, List.getElem_cons_succ]
  rw [if_neg hver]

/-- Only the first 48 bytes are looked at. -/
theorem parse_take (bytes : Bytes) (what : String) (h : headerLen ≤ bytes.length) :
    parse (bytes.take headerLen) what = parse bytes what := by
  have hword : ∀ i : ℕ, i < 6 →
      ((bytes.take headerLen).drop (i * 8)).take 8 = (bytes.drop (i * 8)).take 8 := by
    intro i hi
    rw [List.drop_take, List.take_take, Nat.min_eq_left (by simp only [headerLen]; omega)]
  have hlen : (bytes.take headerLen).length = headerLen := by
    rw [List.length_take, Nat.min_eq_left h]
  rw [parse, parse, hlen, if_neg (lt_irrefl _), if_neg (not_lt.mpr h)]
  simp only [hword 0 (by omega), hword 1 (by omega), hword 2 (by omega), hword 3 (by omega),
    hword 4 (by omega), hword 5 (by omega)]

end Header

/-! ### Bit positions -/

theorem mem_positionsFrom_lt {m : UInt64} (hm : 0 < m.toNat) {k : ℕ} {h b : UInt64}
    (hb : b ∈ positionsFrom m k h) : b.toNat < m.toNat := by
  induction k generalizing h with
  | zero => cases hb
  | succ k ih =>
    rcases List.mem_cons.mp hb with rfl | hb
    · rw [UInt64.toNat_mod]
      exact Nat.mod_lt _ hm
    · exact ih hb

theorem mem_bitPositions_lt {value : Bytes} {k m : UInt64} (hm : 0 < m.toNat) {b : UInt64}
    (hb : b ∈ bitPositions value k m) : b.toNat < m.toNat := mem_positionsFrom_lt hm hb

theorem word_lt_wordsFor {m : UInt64} {i : ℕ} (h : i < m.toNat) : i / 64 < wordsFor m := by
  rw [wordsFor]
  omega

theorem bitLocation_fst (bit : UInt64) :
    (bitLocation bit).1.toNat = headerLen + 8 * (bit.toNat / 64) := by
  have hlt := bit.toNat_lt
  have hs : (bit >>> 6).toNat = bit.toNat / 64 := by
    rw [UInt64.toNat_shiftRight, Nat.shiftRight_eq_div_pow]
    rfl
  rw [bitLocation, UInt64.toNat_add, UInt64.toNat_mul, hs]
  simp only [headerLen]
  have h8 : (8 : UInt64).toNat = 8 := rfl
  have h48 : (UInt64.ofNat 48).toNat = 48 := rfl
  rw [h8, h48]
  omega

theorem bitLocation_snd (bit : UInt64) :
    (bitLocation bit).2 = 1 <<< UInt64.ofNat (bit.toNat % 64) := by
  have hand : bit &&& 63 = UInt64.ofNat (bit.toNat % 64) := by
    rw [← UInt64.toNat_inj, UInt64.toNat_and,
      UInt64.toNat_ofNat_of_lt' (by simp [UInt64.size]; omega)]
    exact Nat.and_two_pow_sub_one_eq_mod bit.toNat 6
  rw [bitLocation, hand]

/-- Over a reader that serves the words of a bit array, testing positions reads the array. -/
theorem checkBits_eq {wordAt : UInt64 → Option UInt64} {words : List UInt64} {bits : List UInt64}
    (h : ∀ b ∈ bits, wordAt (bitLocation b).1 = some (words.getD (b.toNat / 64) 0)) :
    checkBits wordAt bits = some (bits.all fun b => BitArray.testBit words b.toNat) := by
  induction bits with
  | nil => rfl
  | cons b rest ih =>
    have hb := h b List.mem_cons_self
    have hmask := BitArray.and_mask_eq_zero (w := words.getD (b.toNat / 64) 0)
      (Nat.mod_lt b.toNat (by omega : 0 < 64))
    rw [checkBits, List.all_cons]
    simp only [hb, bitLocation_snd]
    rw [ih fun c hc => h c (List.mem_cons_of_mem _ hc), BitArray.testBit]
    by_cases ht : (words.getD (b.toNat / 64) 0).toNat.testBit (b.toNat % 64) = false
    · rw [if_pos (hmask.mpr ht), ht, Bool.false_and]
    · rw [if_neg fun h0 => ht (hmask.mp h0), Bool.eq_true_of_not_eq_false ht, Bool.true_and]

/-- **A probe asks whether every bit position of the key is set.** -/
theorem checkWith_eq {value : Bytes} {k m : UInt64} {wordAt : UInt64 → Option UInt64}
    {words : List UInt64} (hm : 0 < m.toNat)
    (h : ∀ b : UInt64, b.toNat < m.toNat →
      wordAt (bitLocation b).1 = some (words.getD (b.toNat / 64) 0)) :
    checkWith value k m wordAt
      = some ((bitPositions value k m).all fun b => BitArray.testBit words b.toNat) := by
  have hne : ¬ (m = 0 ∧ k ≠ 0) := by
    rintro ⟨rfl, -⟩
    exact absurd hm (lt_irrefl _)
  rw [checkWith, if_neg hne]
  exact checkBits_eq fun b hb => h b (mem_bitPositions_lt hm hb)

/-- The words of the array are where the bit locations point. -/
theorem wordFrom_bitLocation {header tail : Bytes} (hh : header.length = headerLen)
    {words : List UInt64} {b : UInt64} (hb : b.toNat / 64 < words.length) :
    wordFrom (header ++ words.flatMap BitArray.wordBytes ++ tail) (bitLocation b).1
      = some (words.getD (b.toNat / 64) 0) := by
  have hlen : (header ++ words.flatMap BitArray.wordBytes ++ tail).length
      = headerLen + 8 * words.length + tail.length := by
    rw [List.length_append, List.length_append, hh, BitArray.length_flatMap_wordBytes]
  have hword := BitArray.word_of_flatMap header words tail hb
  rw [hh] at hword
  rw [wordFrom, bitLocation_fst, if_pos (by rw [hlen]; omega), hword, BitArray.wordOf_wordBytes,
    List.getD_eq_getElem _ _ hb]

end Dcso

end Hashdex
