import Mathlib

/-!
# Byte strings and their hex spellings

`hexLower` and `hexUpper` are the two renderings of a digest, `decodeHex` the tolerant reader of
user input (blanks around it, either case) and `decodeHexLower` the strict one the recipe checker
uses.  The round trips between them are what every key and every digest field rests on.
-/

namespace Hashdex

abbrev Bytes := List UInt8

/-- The value of an ASCII hex digit, in either case. -/
def hexVal (c : Char) : Option ℕ :=
  if '0' ≤ c ∧ c ≤ '9' then some (c.toNat - 48)
  else if 'a' ≤ c ∧ c ≤ 'f' then some (c.toNat - 87)
  else if 'A' ≤ c ∧ c ≤ 'F' then some (c.toNat - 55)
  else none

def isAsciiHexdigit (c : Char) : Bool := (hexVal c).isSome

def lowerDigit (n : ℕ) : Char := "0123456789abcdef".toList.getD n '0'

def upperDigit (n : ℕ) : Char := "0123456789ABCDEF".toList.getD n '0'

/-- Two digits a byte, high half first, in the alphabet `digit`. -/
def hexWith (digit : ℕ → Char) (bs : Bytes) : List Char :=
  bs.flatMap fun b => [digit (b.toNat / 16), digit (b.toNat % 16)]

def hexLower (bs : Bytes) : List Char := hexWith lowerDigit bs

def hexUpper (bs : Bytes) : List Char := hexWith upperDigit bs

/-- The bytes of a string of hex digits, two digits at a time. -/
def hexPairs : List Char → Bytes
  | a :: b :: rest =>
    UInt8.ofNat (16 * (hexVal a).getD 0 + (hexVal b).getD 0) :: hexPairs rest
  | _ => []

/-- `White_Space` of Unicode, which is what `str::trim` removes. -/
def isWhiteSpace (c : Char) : Bool :=
  let n := c.toNat
  (9 ≤ n && n ≤ 13) || n == 0x20 || n == 0x85 || n == 0xA0 || n == 0x1680 ||
    (0x2000 ≤ n && n ≤ 0x200A) || n == 0x2028 || n == 0x2029 || n == 0x202F || n == 0x205F ||
    n == 0x3000

def trim (s : List Char) : List Char := (s.dropWhile isWhiteSpace).rdropWhile isWhiteSpace

/-- `decode_hex`: blanks around the digits are dropped, both cases are read. -/
def decodeHex (s : List Char) : Option Bytes :=
  let t := trim s
  if t.length % 2 = 0 ∧ t.all isAsciiHexdigit then some (hexPairs t) else none

/-- `HEXLOWER.decode`: lower-case digits only, an even number of them. -/
def decodeHexLower (s : List Char) : Option Bytes :=
  if s.length % 2 = 0 ∧ s.all (fun c => isAsciiHexdigit c && !('A' ≤ c && c ≤ 'F')) then
    some (hexPairs s)
  else none

/-! ### Digits -/

theorem hexVal_lowerDigit {d : ℕ} (h : d < 16) : hexVal (lowerDigit d) = some d := by
  interval_cases d <;> rfl

theorem hexVal_upperDigit {d : ℕ} (h : d < 16) : hexVal (upperDigit d) = some d := by
  interval_cases d <;> rfl

/-- The three ranges a hex digit comes from. -/
theorem hexVal_cases {c : Char} {d : ℕ} (h : hexVal c = some d) :
    (48 ≤ c.toNat ∧ c.toNat ≤ 57 ∧ d = c.toNat - 48) ∨
    (97 ≤ c.toNat ∧ c.toNat ≤ 102 ∧ d = c.toNat - 87) ∨
    (65 ≤ c.toNat ∧ c.toNat ≤ 70 ∧ d = c.toNat - 55) := by
  unfold hexVal at h
  split at h
  · rename_i hc
    exact Or.inl ⟨hc.1, hc.2, (Option.some.inj h).symm⟩
  · split at h
    · rename_i hc
      exact Or.inr (Or.inl ⟨hc.1, hc.2, (Option.some.inj h).symm⟩)
    · split at h
      · rename_i hc
        exact Or.inr (Or.inr ⟨hc.1, hc.2, (Option.some.inj h).symm⟩)
      · cases h

theorem char_eq_of_toNat {c : Char} {n : ℕ} (h : c.toNat = n) : c = Char.ofNat n := by
  rw [← h, Char.ofNat_toNat]

theorem lowerDigit_of_hexVal {c : Char} {d : ℕ} (h : hexVal c = some d) :
    d < 16 ∧ lowerDigit d = c.toLower := by
  rcases hexVal_cases h with ⟨h₁, h₂, rfl⟩ | ⟨h₁, h₂, rfl⟩ | ⟨h₁, h₂, rfl⟩ <;>
  · refine ⟨by omega, ?_⟩
    generalize hn : c.toNat = n at h₁ h₂ ⊢
    rw [char_eq_of_toNat hn]
    interval_cases n <;> decide

theorem upperDigit_of_hexVal {c : Char} {d : ℕ} (h : hexVal c = some d) :
    d < 16 ∧ upperDigit d = c.toUpper := by
  rcases hexVal_cases h with ⟨h₁, h₂, rfl⟩ | ⟨h₁, h₂, rfl⟩ | ⟨h₁, h₂, rfl⟩ <;>
  · refine ⟨by omega, ?_⟩
    generalize hn : c.toNat = n at h₁ h₂ ⊢
    rw [char_eq_of_toNat hn]
    interval_cases n <;> decide

/-! ### Round trips -/

theorem hexWith_length (digit : ℕ → Char) (bs : Bytes) :
    (hexWith digit bs).length = 2 * bs.length := by
  induction bs with
  | nil => rfl
  | cons b bs ih =>
    simp only [hexWith, List.flatMap_cons, List.length_append, List.length_cons,
      List.length_nil] at ih ⊢
    omega

theorem hexPairs_hexWith {digit : ℕ → Char} (hd : ∀ d, d < 16 → hexVal (digit d) = some d)
    (bs : Bytes) : hexPairs (hexWith digit bs) = bs := by
  induction bs with
  | nil => rfl
  | cons b bs ih =>
    have hb := b.toNat_lt
    have hsum : 16 * (b.toNat / 16) + b.toNat % 16 = b.toNat := by omega
    simp only [hexWith, List.flatMap_cons, List.cons_append, List.nil_append, hexPairs] at ih ⊢
    rw [hd _ (by omega), hd _ (by omega), ih]
    simp [hsum]

theorem hexPairs_hexLower (bs : Bytes) : hexPairs (hexLower bs) = bs :=
  hexPairs_hexWith (fun _ h => hexVal_lowerDigit h) bs

/-- Reading digits and writing them back in one alphabet recases every digit. -/
theorem hexWith_hexPairs {digit : ℕ → Char} {recase : Char → Char}
    (hd : ∀ c d, hexVal c = some d → d < 16 ∧ digit d = recase c) :
    ∀ s : List Char, s.length % 2 = 0 → s.all isAsciiHexdigit = true →
      hexWith digit (hexPairs s) = s.map recase
  | [], _, _ => rfl
  | [_], h, _ => by simp at h
  | a :: b :: rest, hlen, hall => by
    simp only [List.all_cons, Bool.and_eq_true, isAsciiHexdigit, Option.isSome_iff_exists] at hall
    obtain ⟨⟨x, hx⟩, ⟨y, hy⟩, hrest⟩ := hall
    have ih := hexWith_hexPairs hd rest (by simp only [List.length_cons] at hlen; omega) hrest
    obtain ⟨hx16, hxa⟩ := hd a x hx
    obtain ⟨hy16, hyb⟩ := hd b y hy
    have hn : (UInt8.ofNat (16 * x + y)).toNat = 16 * x + y := by
      rw [UInt8.toNat_ofNat']
      omega
    simp only [hexPairs, hx, hy, Option.getD_some, hexWith, List.flatMap_cons, hn,
      List.map_cons] at ih ⊢
    rw [ih, show (16 * x + y) / 16 = x by omega, show (16 * x + y) % 16 = y by omega, hxa, hyb]
    rfl

theorem hexLower_hexPairs (s : List Char) (hlen : s.length % 2 = 0)
    (hall : s.all isAsciiHexdigit = true) : hexLower (hexPairs s) = s.map Char.toLower :=
  hexWith_hexPairs (fun _ _ h => lowerDigit_of_hexVal h) s hlen hall

theorem hexUpper_hexPairs (s : List Char) (hlen : s.length % 2 = 0)
    (hall : s.all isAsciiHexdigit = true) : hexUpper (hexPairs s) = s.map Char.toUpper :=
  hexWith_hexPairs (fun _ _ h => upperDigit_of_hexVal h) s hlen hall

theorem mem_hexLower {bs : Bytes} {c : Char} (h : c ∈ hexLower bs) :
    ∃ d, d < 16 ∧ c = lowerDigit d := by
  simp only [hexLower, hexWith, List.mem_flatMap, List.mem_cons, List.not_mem_nil, or_false] at h
  obtain ⟨b, _, rfl | rfl⟩ := h
  · have := b.toNat_lt
    exact ⟨b.toNat / 16, by omega, rfl⟩
  · exact ⟨b.toNat % 16, by omega, rfl⟩

theorem hexLower_all {p : Char → Bool} (hp : ∀ d, d < 16 → p (lowerDigit d) = true) (bs : Bytes) :
    (hexLower bs).all p = true := by
  rw [List.all_eq_true]
  intro c hc
  obtain ⟨d, hd, rfl⟩ := mem_hexLower hc
  exact hp d hd

theorem hexLower_length (bs : Bytes) : (hexLower bs).length = 2 * bs.length :=
  hexWith_length lowerDigit bs

theorem hexLower_injective {a b : Bytes} (h : hexLower a = hexLower b) : a = b := by
  rw [← hexPairs_hexLower a, h, hexPairs_hexLower]

theorem decodeHexLower_hexLower (bs : Bytes) : decodeHexLower (hexLower bs) = some bs := by
  unfold decodeHexLower
  rw [if_pos, hexPairs_hexLower]
  refine ⟨by rw [hexLower_length]; omega, hexLower_all (fun d hd => ?_) bs⟩
  interval_cases d <;> decide

/-! ### Trimming -/

theorem dropWhile_eq_self {p : Char → Bool} {s : List Char} (h : s.all (fun c => !p c) = true) :
    s.dropWhile p = s := by
  cases s with
  | nil => rfl
  | cons a s =>
    simp only [List.all_cons, Bool.and_eq_true, Bool.not_eq_true'] at h
    rw [List.dropWhile_cons_of_neg (by rw [h.1]; decide)]

/-- A string with no blank in it is its own trim. -/
theorem trim_eq_self {s : List Char} (h : s.all (fun c => !isWhiteSpace c) = true) :
    trim s = s := by
  unfold trim
  rw [dropWhile_eq_self h, List.rdropWhile, dropWhile_eq_self (by rwa [List.all_reverse]),
    List.reverse_reverse]

theorem trim_hexLower (bs : Bytes) : trim (hexLower bs) = hexLower bs := by
  apply trim_eq_self
  apply hexLower_all
  intro d hd
  interval_cases d <;> decide

theorem decodeHex_hexLower (bs : Bytes) : decodeHex (hexLower bs) = some bs := by
  unfold decodeHex
  rw [trim_hexLower, if_pos, hexPairs_hexLower]
  refine ⟨by rw [hexLower_length]; omega, hexLower_all (fun d hd => ?_) bs⟩
  simp [isAsciiHexdigit, hexVal_lowerDigit hd]

end Hashdex
