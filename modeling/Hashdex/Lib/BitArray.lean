import Mathlib

/-!
# Bit arrays in 64-bit words, and their little-endian bytes

* `testBit_setBit`: setting a bit sets that bit and no other
* `testBit_setAll`: a sequence of insertions sets exactly the bits inserted
* `testBit_window`: 64 bits at any bit offset, put together from two words
* `ext_testBit`: an array is determined by its length and its bits
* `ofLe_leBytes`: a number survives its little-endian bytes up to the width
* `bits_bits`: a field of bits within another one
* `word_of_flatMap`: the word array is read back from its bytes word by word
-/

namespace BitArray

/-! ### Bits -/

/-- Bit `i` of the array; beyond the last word it reads as zero. -/
def testBit (words : List UInt64) (i : ℕ) : Bool :=
  (words.getD (i / 64) 0).toNat.testBit (i % 64)

def setBit (words : List UInt64) (i : ℕ) : List UInt64 :=
  words.modify (i / 64) fun w => w ||| 1 <<< UInt64.ofNat (i % 64)

def setAll (words : List UInt64) (is : List ℕ) : List UInt64 := is.foldl setBit words

theorem toNat_mask {b : ℕ} (h : b < 64) : ((1 : UInt64) <<< UInt64.ofNat b).toNat = 2 ^ b := by
  have hb : (UInt64.ofNat b).toNat = b := UInt64.toNat_ofNat_of_lt' (by simp [UInt64.size]; omega)
  rw [UInt64.toNat_shiftLeft, hb, Nat.mod_eq_of_lt h, UInt64.toNat_one, Nat.shiftLeft_eq, one_mul]
  exact Nat.mod_eq_of_lt (Nat.pow_lt_pow_right (by omega) h)

/-- **The mask test reads one bit.** -/
theorem and_mask_eq_zero {w : UInt64} {b : ℕ} (h : b < 64) :
    w &&& 1 <<< UInt64.ofNat b = 0 ↔ w.toNat.testBit b = false := by
  rw [← UInt64.toNat_inj, UInt64.toNat_and, toNat_mask h, UInt64.toNat_zero, Nat.and_two_pow]
  cases w.toNat.testBit b <;> simp

theorem testBit_or_mask (w : UInt64) {b i : ℕ} (h : b < 64) :
    (w ||| 1 <<< UInt64.ofNat b).toNat.testBit i = (w.toNat.testBit i || decide (b = i)) := by
  rw [UInt64.toNat_or, toNat_mask h, Nat.testBit_or, Nat.testBit_two_pow]

@[simp] theorem length_setBit (words : List UInt64) (i : ℕ) :
    (setBit words i).length = words.length := List.length_modify ..

@[simp] theorem length_setAll (words : List UInt64) (is : List ℕ) :
    (setAll words is).length = words.length := by
  induction is generalizing words with
  | nil => rfl
  | cons i is ih => rw [setAll, List.foldl_cons, ← setAll, ih, length_setBit]

/-- **Setting a bit sets that bit and no other.** -/
theorem testBit_setBit {words : List UInt64} {i : ℕ} (h : i / 64 < words.length) (j : ℕ) :
    testBit (setBit words i) j = (testBit words j || decide (i = j)) := by
  have hi : i % 64 < 64 := Nat.mod_lt _ (by omega)
  rw [testBit, testBit, setBit, List.getD_eq_getElem?_getD, List.getD_eq_getElem?_getD,
    List.getElem?_modify]
  by_cases hw : i / 64 = j / 64
  · simp only [if_pos hw, List.getElem?_eq_getElem (hw ▸ h), Option.map_eq_map, Option.map_some,
      Option.getD_some]
    rw [testBit_or_mask _ hi]
    congr 1
    exact decide_eq_decide.mpr (by omega)
  · have hne : i ≠ j := fun e => hw (by rw [e])
    simp [if_neg hw, hne]

/-- **A sequence of insertions sets exactly the bits inserted.** -/
theorem testBit_setAll {words : List UInt64} {is : List ℕ}
    (h : ∀ i ∈ is, i / 64 < words.length) (j : ℕ) :
    testBit (setAll words is) j = (testBit words j || decide (j ∈ is)) := by
  induction is generalizing words with
  | nil => simp [setAll]
  | cons i is ih =>
    have hi : i / 64 < words.length := h i List.mem_cons_self
    have hrest : ∀ k ∈ is, k / 64 < (setBit words i).length := fun k hk => by
      rw [length_setBit]
      exact h k (List.mem_cons_of_mem _ hk)
    rw [setAll, List.foldl_cons, ← setAll, ih hrest, testBit_setBit hi, Bool.or_assoc]
    congr 1
    simp [List.mem_cons, eq_comm]

@[simp] theorem testBit_zeros (n j : ℕ) : testBit (List.replicate n 0) j = false := by
  have hz : (List.replicate n (0 : UInt64)).getD (j / 64) 0 = 0 := by
    rw [List.getD_eq_getElem?_getD, List.getElem?_replicate]
    split <;> rfl
  rw [testBit, hz]
  simp

/-! ### Words at a bit offset -/

/-- Bit `i` of an array given by its word reader. -/
def bitAt (word : ℕ → UInt64) (i : ℕ) : Bool := (word (i / 64)).toNat.testBit (i % 64)

theorem testBit_eq_bitAt (words : List UInt64) (i : ℕ) :
    testBit words i = bitAt (fun w => words.getD w 0) i := rfl

theorem bitAt_word (word : ℕ → UInt64) {w i : ℕ} (hi : i < 64) :
    bitAt word (64 * w + i) = (word w).toNat.testBit i := by
  have hdiv : (64 * w + i) / 64 = w := by omega
  have hmod : (64 * w + i) % 64 = i := by omega
  rw [bitAt, hdiv, hmod]

theorem testBit_shiftRight (w : UInt64) {s : ℕ} (hs : s < 64) (i : ℕ) :
    (w >>> UInt64.ofNat s).toNat.testBit i = w.toNat.testBit (s + i) := by
  have hs' : (UInt64.ofNat s).toNat % 64 = s := by
    rw [UInt64.toNat_ofNat_of_lt' (by simp [UInt64.size]; omega), Nat.mod_eq_of_lt hs]
  rw [UInt64.toNat_shiftRight, hs', Nat.testBit_shiftRight]

theorem testBit_shiftLeft (w : UInt64) {s : ℕ} (hs : s < 64) {i : ℕ} (hi : i < 64) :
    (w <<< UInt64.ofNat s).toNat.testBit i = (decide (s ≤ i) && w.toNat.testBit (i - s)) := by
  have hs' : (UInt64.ofNat s).toNat % 64 = s := by
    rw [UInt64.toNat_ofNat_of_lt' (by simp [UInt64.size]; omega), Nat.mod_eq_of_lt hs]
  rw [UInt64.toNat_shiftLeft, hs', Nat.testBit_mod_two_pow, Nat.testBit_shiftLeft]
  simp [hi]

theorem testBit_of_le (w : UInt64) {i : ℕ} (hi : 64 ≤ i) : w.toNat.testBit i = false :=
  Nat.testBit_lt_two_pow (lt_of_lt_of_le w.toNat_lt (Nat.pow_le_pow_right (by omega) hi))

/-- **64 bits at any bit offset**, put together from the two words they lie in. -/
theorem testBit_window (word : ℕ → UInt64) (o : ℕ) {i : ℕ} (hi : i < 64) :
    (if o % 64 = 0 then word (o / 64)
      else word (o / 64) >>> UInt64.ofNat (o % 64)
        ||| word (o / 64 + 1) <<< UInt64.ofNat (64 - o % 64)).toNat.testBit i
      = bitAt word (o + i) := by
  by_cases haligned : o % 64 = 0
  · have hoi : o + i = 64 * (o / 64) + i := by omega
    rw [if_pos haligned, hoi, bitAt_word word hi]
  rw [if_neg haligned, UInt64.toNat_or, Nat.testBit_or, testBit_shiftRight _ (by omega),
    testBit_shiftLeft _ (by omega) hi]
  by_cases hlow : o % 64 + i < 64
  · have hoi : o + i = 64 * (o / 64) + (o % 64 + i) := by omega
    have hclear : ¬ 64 - o % 64 ≤ i := by omega
    rw [hoi, bitAt_word word hlow, decide_eq_false hclear, Bool.false_and, Bool.or_false]
  · have hoi : o + i = 64 * (o / 64 + 1) + (i - (64 - o % 64)) := by omega
    have hset : 64 - o % 64 ≤ i := by omega
    rw [hoi, bitAt_word word (by omega), decide_eq_true hset, Bool.true_and,
      testBit_of_le _ (by omega), Bool.false_or]

/-- The mask of the `r` low bits. -/
theorem testBit_and_lowMask (w : UInt64) {r : ℕ} (hr : r < 64) (i : ℕ) :
    (w &&& ((1 : UInt64) <<< UInt64.ofNat r - 1)).toNat.testBit i
      = (w.toNat.testBit i && decide (i < r)) := by
  have hone : (1 : UInt64) ≤ 1 <<< UInt64.ofNat r := by
    rw [UInt64.le_iff_toNat_le, toNat_mask hr]
    exact Nat.one_le_two_pow
  rw [UInt64.toNat_and, UInt64.toNat_sub_of_le _ _ hone, toNat_mask hr, UInt64.toNat_one,
    Nat.testBit_and, Nat.testBit_two_pow_sub_one]

/-- **An array is determined by its length and its bits.** -/
theorem ext_testBit {xs ys : List UInt64} (hlen : xs.length = ys.length)
    (h : ∀ i, testBit xs i = testBit ys i) : xs = ys := by
  apply List.ext_getElem hlen
  intro w hx hy
  apply UInt64.toNat_inj.mp
  apply Nat.eq_of_testBit_eq
  intro i
  by_cases hi : i < 64
  · have hbit := h (64 * w + i)
    rwa [testBit_eq_bitAt, testBit_eq_bitAt, bitAt_word _ hi, bitAt_word _ hi,
      List.getD_eq_getElem _ _ hx, List.getD_eq_getElem _ _ hy] at hbit
  · rw [testBit_of_le _ (by omega), testBit_of_le _ (by omega)]

/-! ### Little-endian bytes -/

/-- The `n` low bytes of a number, lowest first. -/
def leBytes : ℕ → ℕ → List UInt8
  | 0, _ => []
  | n + 1, v => UInt8.ofNat v :: leBytes n (v / 256)

def ofLe : List UInt8 → ℕ
  | [] => 0
  | b :: rest => b.toNat + 256 * ofLe rest

@[simp] theorem length_leBytes (n v : ℕ) : (leBytes n v).length = n := by
  induction n generalizing v with
  | zero => rfl
  | succ n ih => rw [leBytes, List.length_cons, ih]

theorem ofLe_leBytes (n v : ℕ) : ofLe (leBytes n v) = v % 256 ^ n := by
  induction n generalizing v with
  | zero => simp [leBytes, ofLe, Nat.mod_one]
  | succ n ih =>
    have hb : (UInt8.ofNat v).toNat = v % 256 := by simp
    rw [leBytes, ofLe, ih, hb, pow_succ, mul_comm (256 ^ n), Nat.mod_mul]

theorem ofLe_lt (bs : List UInt8) : ofLe bs < 256 ^ bs.length := by
  induction bs with
  | nil => exact Nat.one_pos
  | cons b rest ih =>
    have hb : b.toNat < 256 := b.toNat_lt
    show b.toNat + 256 * ofLe rest < 256 ^ (rest.length + 1)
    rw [pow_succ]
    omega

theorem ofLe_drop (i : ℕ) (bs : List UInt8) : ofLe (bs.drop i) = ofLe bs / 256 ^ i := by
  induction i generalizing bs with
  | zero => rw [List.drop_zero, pow_zero, Nat.div_one]
  | succ i ih =>
    cases bs with
    | nil => rw [List.drop_nil, ofLe, Nat.zero_div]
    | cons b rest =>
      have hb : b.toNat < 256 := b.toNat_lt
      have hrest : ofLe (b :: rest) / 256 = ofLe rest := by
        rw [ofLe]
        omega
      rw [List.drop_succ_cons, ih, pow_succ, mul_comm (256 ^ i), ← Nat.div_div_eq_div_mul, hrest]

theorem ofLe_take (n : ℕ) (bs : List UInt8) : ofLe (bs.take n) = ofLe bs % 256 ^ n := by
  induction n generalizing bs with
  | zero => rw [List.take_zero, pow_zero, Nat.mod_one, ofLe]
  | succ n ih =>
    cases bs with
    | nil => rw [List.take_nil, ofLe, Nat.zero_mod]
    | cons b rest =>
      have hb : b.toNat < 256 := b.toNat_lt
      have hlow : ofLe (b :: rest) % 256 = b.toNat := by
        rw [ofLe]
        omega
      have hhigh : ofLe (b :: rest) / 256 = ofLe rest := by
        rw [ofLe]
        omega
      rw [List.take_succ_cons, ofLe, ih, pow_succ, mul_comm (256 ^ n), Nat.mod_mul, hlow, hhigh]

/-- **A field of a number's bytes is its digits there.** -/
theorem ofLe_field (bs : List UInt8) (i n : ℕ) :
    ofLe ((bs.drop i).take n) = ofLe bs / 256 ^ i % 256 ^ n := by rw [ofLe_take, ofLe_drop]

/-! ### Bit fields of a number -/

/-- The `n` bits of a number from bit `start` on. -/
def bits (x start n : ℕ) : ℕ := x / 2 ^ start % 2 ^ n

/-- **Bits of a field are bits of the number.** -/
theorem bits_bits (x : ℕ) {start n a m : ℕ} (h : a + m ≤ n) :
    bits (bits x start n) a m = bits x (start + a) m := by
  have hsplit : 2 ^ n = 2 ^ a * 2 ^ (n - a) := by
    rw [← pow_add]
    congr 1
    omega
  have hdvd : 2 ^ m ∣ 2 ^ (n - a) := pow_dvd_pow 2 (by omega)
  rw [bits, bits, bits, hsplit, Nat.mod_mul_right_div_self, Nat.mod_mod_of_dvd _ hdvd,
    Nat.div_div_eq_div_mul, ← pow_add]

/-- A field of bytes is a field of bits. -/
theorem ofLe_field_eq_bits (bs : List UInt8) (i n : ℕ) :
    ofLe ((bs.drop i).take n) = bits (ofLe bs) (8 * i) (8 * n) := by
  have hbyte : 2 ^ 8 = 256 := rfl
  rw [ofLe_field, bits, pow_mul, pow_mul, hbyte]

/-- A 64-bit word and its eight bytes. -/
def wordBytes (w : UInt64) : List UInt8 := leBytes 8 w.toNat

def wordOf (bs : List UInt8) : UInt64 := UInt64.ofNat (ofLe bs)

@[simp] theorem length_wordBytes (w : UInt64) : (wordBytes w).length = 8 := length_leBytes ..

theorem wordOf_wordBytes (w : UInt64) : wordOf (wordBytes w) = w := by
  have hlt : w.toNat < 256 ^ 8 := lt_of_lt_of_eq w.toNat_lt (by decide)
  rw [wordOf, wordBytes, ofLe_leBytes, Nat.mod_eq_of_lt hlt, UInt64.ofNat_toNat]

@[simp] theorem length_flatMap_wordBytes (words : List UInt64) :
    (words.flatMap wordBytes).length = 8 * words.length := by
  induction words with
  | nil => rfl
  | cons w words ih =>
    rw [List.flatMap_cons, List.length_append, ih, length_wordBytes, List.length_cons]
    omega

/-- **The array is read back from its bytes word by word**, past any header. -/
theorem word_of_flatMap (header : List UInt8) (words : List UInt64) (tail : List UInt8) {i : ℕ}
    (h : i < words.length) :
    ((header ++ words.flatMap wordBytes ++ tail).drop (header.length + 8 * i)).take 8
      = wordBytes words[i] := by
  have hsplit : words = words.take i ++ words[i] :: words.drop (i + 1) := by simp
  have hlen : (header ++ (words.take i).flatMap wordBytes).length = header.length + 8 * i := by
    rw [List.length_append, length_flatMap_wordBytes, List.length_take, Nat.min_eq_left h.le]
  have hcut : header ++ words.flatMap wordBytes ++ tail
      = (header ++ (words.take i).flatMap wordBytes)
        ++ (wordBytes words[i] ++ ((words.drop (i + 1)).flatMap wordBytes ++ tail)) := by
    conv_lhs => rw [hsplit]
    simp only [List.flatMap_append, List.flatMap_cons, List.append_assoc]
  rw [hcut, ← hlen, List.drop_left, List.take_left' (length_wordBytes _)]

end BitArray
