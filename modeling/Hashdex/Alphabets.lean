import Hashdex.Coord

/-!
# Base64 and base32, both ways

The parser only decodes.  What it decodes is told here by the encoders of RFC 4648.

* `base64Decode_iff`: base64 text is the encodings of consecutive pieces, one after the other
* `base32Decode_iff`: base32 text without padding is the encoding
-/

namespace Hashdex

theorem toNat_ofNat_lt {n : ℕ} (h : n < 256) : (UInt8.ofNat n).toNat = n := by
  rw [UInt8.toNat_ofNat']
  exact Nat.mod_eq_of_lt h

/-! ### Base64 -/

def base64Char (v : ℕ) : Char :=
  if v < 26 then Char.ofNat (v + 65)
  else if v < 52 then Char.ofNat (v + 71)
  else if v < 62 then Char.ofNat (v - 4)
  else if v = 62 then '+' else '/'

theorem base64Val_char {v : ℕ} (h : v < 64) : base64Val (base64Char v) = some v := by
  interval_cases v <;> decide

theorem base64Char_ne_pad {v : ℕ} (h : v < 64) : base64Char v ≠ '=' := by
  interval_cases v <;> decide

/-- The ranges a symbol comes from. -/
theorem base64Val_cases {c : Char} {v : ℕ} (h : base64Val c = some v) :
    (65 ≤ c.toNat ∧ c.toNat ≤ 90 ∧ v = c.toNat - 65)
      ∨ (97 ≤ c.toNat ∧ c.toNat ≤ 122 ∧ v = c.toNat - 71)
      ∨ (48 ≤ c.toNat ∧ c.toNat ≤ 57 ∧ v = c.toNat + 4)
      ∨ (c = '+' ∧ v = 62) ∨ (c = '/' ∧ v = 63) := by
  unfold base64Val at h
  split_ifs at h with hupper hlower hdigit hplus hslash
  · exact .inl ⟨hupper.1, hupper.2, (Option.some.inj h).symm⟩
  · exact .inr (.inl ⟨hlower.1, hlower.2, (Option.some.inj h).symm⟩)
  · exact .inr (.inr (.inl ⟨hdigit.1, hdigit.2, (Option.some.inj h).symm⟩))
  · exact .inr (.inr (.inr (.inl ⟨hplus, (Option.some.inj h).symm⟩)))
  · exact .inr (.inr (.inr (.inr ⟨hslash, (Option.some.inj h).symm⟩)))

theorem base64Val_eq_some {c : Char} {v : ℕ} (h : base64Val c = some v) :
    v < 64 ∧ c = base64Char v := by
  obtain ⟨h₁, h₂, rfl⟩ | ⟨h₁, h₂, rfl⟩ | ⟨h₁, h₂, rfl⟩ | ⟨rfl, rfl⟩ | ⟨rfl, rfl⟩ := base64Val_cases h
  · refine ⟨by omega, ?_⟩
    generalize hn : c.toNat = n at h₁ h₂ ⊢
    rw [char_eq_of_toNat hn]
    interval_cases n <;> decide
  · refine ⟨by omega, ?_⟩
    generalize hn : c.toNat = n at h₁ h₂ ⊢
    rw [char_eq_of_toNat hn]
    interval_cases n <;> decide
  · refine ⟨by omega, ?_⟩
    generalize hn : c.toNat = n at h₁ h₂ ⊢
    rw [char_eq_of_toNat hn]
    interval_cases n <;> decide
  · exact ⟨by decide, rfl⟩
  · exact ⟨by decide, rfl⟩

/-- `BASE64.encode`. -/
def base64Encode : Bytes → List Char
  | [] => []
  | [x] => [base64Char (x.toNat / 4), base64Char (x.toNat % 4 * 16), '=', '=']
  | [x, y] => [base64Char (x.toNat / 4), base64Char (x.toNat % 4 * 16 + y.toNat / 16),
      base64Char (y.toNat % 16 * 4), '=']
  | x :: y :: z :: rest => [base64Char (x.toNat / 4), base64Char (x.toNat % 4 * 16 + y.toNat / 16),
      base64Char (y.toNat % 16 * 4 + z.toNat / 64), base64Char (z.toNat % 64)] ++ base64Encode rest

theorem base64Block_one (x : UInt8) :
    base64Block (base64Char (x.toNat / 4)) (base64Char (x.toNat % 4 * 16)) '=' '=' = some [x] := by
  have hx := x.toNat_lt
  unfold base64Block
  rw [base64Val_char (show x.toNat / 4 < 64 by omega),
    base64Val_char (show x.toNat % 4 * 16 < 64 by omega)]
  dsimp only
  rw [if_pos ⟨rfl, rfl⟩, if_pos (by omega),
    show x.toNat / 4 * 4 + x.toNat % 4 * 16 / 16 = x.toNat by omega, UInt8.ofNat_toNat]

theorem base64Block_two (x y : UInt8) :
    base64Block (base64Char (x.toNat / 4)) (base64Char (x.toNat % 4 * 16 + y.toNat / 16))
      (base64Char (y.toNat % 16 * 4)) '=' = some [x, y] := by
  have hx := x.toNat_lt
  have hy := y.toNat_lt
  unfold base64Block
  rw [base64Val_char (show x.toNat / 4 < 64 by omega),
    base64Val_char (show x.toNat % 4 * 16 + y.toNat / 16 < 64 by omega)]
  dsimp only
  rw [if_neg fun h => base64Char_ne_pad (show y.toNat % 16 * 4 < 64 by omega) h.1,
    base64Val_char (show y.toNat % 16 * 4 < 64 by omega)]
  dsimp only
  rw [if_pos rfl, if_pos (by omega),
    show x.toNat / 4 * 4 + (x.toNat % 4 * 16 + y.toNat / 16) / 16 = x.toNat by omega,
    show (x.toNat % 4 * 16 + y.toNat / 16) % 16 * 16 + y.toNat % 16 * 4 / 4 = y.toNat by omega,
    UInt8.ofNat_toNat, UInt8.ofNat_toNat]

theorem base64Block_three (x y z : UInt8) :
    base64Block (base64Char (x.toNat / 4)) (base64Char (x.toNat % 4 * 16 + y.toNat / 16))
      (base64Char (y.toNat % 16 * 4 + z.toNat / 64)) (base64Char (z.toNat % 64))
      = some [x, y, z] := by
  have hx := x.toNat_lt
  have hy := y.toNat_lt
  have hz := z.toNat_lt
  unfold base64Block
  rw [base64Val_char (show x.toNat / 4 < 64 by omega),
    base64Val_char (show x.toNat % 4 * 16 + y.toNat / 16 < 64 by omega)]
  dsimp only
  rw [if_neg fun h => base64Char_ne_pad (show z.toNat % 64 < 64 by omega) h.2,
    base64Val_char (show y.toNat % 16 * 4 + z.toNat / 64 < 64 by omega)]
  dsimp only
  rw [if_neg (base64Char_ne_pad (show z.toNat % 64 < 64 by omega)),
    base64Val_char (show z.toNat % 64 < 64 by omega)]
  dsimp only
  rw [show x.toNat / 4 * 4 + (x.toNat % 4 * 16 + y.toNat / 16) / 16 = x.toNat by omega,
    show (x.toNat % 4 * 16 + y.toNat / 16) % 16 * 16 + (y.toNat % 16 * 4 + z.toNat / 64) / 4
      = y.toNat by omega,
    show (y.toNat % 16 * 4 + z.toNat / 64) % 4 * 64 + z.toNat % 64 = z.toNat by omega,
    UInt8.ofNat_toNat, UInt8.ofNat_toNat, UInt8.ofNat_toNat]

/-- A block that decodes is what its bytes encode to. -/
theorem base64Encode_of_block {a b c d : Char} {bs : Bytes} (h : base64Block a b c d = some bs) :
    base64Encode bs = [a, b, c, d] := by
  unfold base64Block at h
  cases hx : base64Val a with
  | none => rw [hx] at h; cases h
  | some x =>
    cases hy : base64Val b with
    | none => rw [hx, hy] at h; cases h
    | some y =>
      rw [hx, hy] at h
      obtain ⟨hx64, rfl⟩ := base64Val_eq_some hx
      obtain ⟨hy64, rfl⟩ := base64Val_eq_some hy
      dsimp only at h
      by_cases hpad : c = '=' ∧ d = '='
      · rw [if_pos hpad] at h
        split_ifs at h with hbits
        cases h
        rw [hpad.1, hpad.2, base64Encode, toNat_ofNat_lt (by omega),
          show (x * 4 + y / 16) / 4 = x by omega, show (x * 4 + y / 16) % 4 * 16 = y by omega]
      · rw [if_neg hpad] at h
        cases hz : base64Val c with
        | none => rw [hz] at h; cases h
        | some z =>
          rw [hz] at h
          obtain ⟨hz64, rfl⟩ := base64Val_eq_some hz
          dsimp only at h
          by_cases hlast : d = '='
          · rw [if_pos hlast] at h
            split_ifs at h with hbits
            cases h
            rw [hlast, base64Encode, toNat_ofNat_lt (show x * 4 + y / 16 < 256 by omega),
              toNat_ofNat_lt (show y % 16 * 16 + z / 4 < 256 by omega),
              show (x * 4 + y / 16) / 4 = x by omega,
              show (x * 4 + y / 16) % 4 * 16 + (y % 16 * 16 + z / 4) / 16 = y by omega,
              show (y % 16 * 16 + z / 4) % 16 * 4 = z by omega]
          · rw [if_neg hlast] at h
            cases hv : base64Val d with
            | none => rw [hv] at h; cases h
            | some v =>
              rw [hv] at h
              obtain ⟨hv64, rfl⟩ := base64Val_eq_some hv
              cases h
              rw [base64Encode, toNat_ofNat_lt (show x * 4 + y / 16 < 256 by omega),
                toNat_ofNat_lt (show y % 16 * 16 + z / 4 < 256 by omega),
                toNat_ofNat_lt (show z % 4 * 64 + v < 256 by omega), base64Encode, List.append_nil,
                show (x * 4 + y / 16) / 4 = x by omega,
                show (x * 4 + y / 16) % 4 * 16 + (y % 16 * 16 + z / 4) / 16 = y by omega,
                show (y % 16 * 16 + z / 4) % 16 * 4 + (z % 4 * 64 + v) / 64 = z by omega,
                show (z % 4 * 64 + v) % 64 = v by omega]

/-- Encoded bytes decode, whatever follows. -/
theorem base64Decode_append (bs : Bytes) (rest : List Char) :
    base64Decode (base64Encode bs ++ rest) = (base64Decode rest).map (bs ++ ·) := by
  induction bs using base64Encode.induct with
  | case1 => simp [base64Encode]
  | case2 x =>
    simp only [base64Encode, List.cons_append, List.nil_append]
    rw [base64Decode, base64Block_one]
    cases base64Decode rest <;> rfl
  | case3 x y =>
    simp only [base64Encode, List.cons_append, List.nil_append]
    rw [base64Decode, base64Block_two]
    cases base64Decode rest <;> rfl
  | case4 x y z bs ih =>
    simp only [base64Encode, List.cons_append, List.nil_append]
    rw [base64Decode, base64Block_three, ih]
    cases base64Decode rest <;> rfl

/-- **Base64 text.**  The encodings of consecutive pieces of the bytes, one after the other. -/
theorem base64Decode_iff {t : List Char} {bs : Bytes} : base64Decode t = some bs
    ↔ ∃ pieces : List Bytes, pieces.flatten = bs ∧ (pieces.map base64Encode).flatten = t := by
  constructor
  · intro h
    induction t using base64Decode.induct generalizing bs with
    | case1 =>
      cases h
      exact ⟨[], rfl, rfl⟩
    | case2 a b c d rest ih =>
      rw [base64Decode] at h
      obtain ⟨block, hblock, h⟩ := Option.bind_eq_some_iff.mp h
      obtain ⟨tail, htail, h⟩ := Option.bind_eq_some_iff.mp h
      obtain ⟨pieces, hbytes, htext⟩ := ih htail
      refine ⟨block :: pieces, ?_, ?_⟩
      · rw [List.flatten_cons, hbytes]
        exact Option.some.inj h
      · rw [List.map_cons, List.flatten_cons, htext, base64Encode_of_block hblock]
        rfl
    | case3 t hnil hcons =>
      rw [base64Decode] at h
      · cases h
      · exact hnil
      · exact hcons
  · intro ⟨pieces, hbytes, htext⟩
    induction pieces generalizing bs t with
    | nil =>
      rw [← htext, ← hbytes]
      rfl
    | cons piece pieces ih =>
      rw [← htext, ← hbytes, List.map_cons, List.flatten_cons, base64Decode_append, ih rfl rfl]
      rfl

theorem base64Decode_encode (bs : Bytes) : base64Decode (base64Encode bs) = some bs :=
  base64Decode_iff.mpr ⟨[bs], by simp, by simp⟩

/-! ### Base32 -/

def base32Char (v : ℕ) : Char := if v < 26 then Char.ofNat (v + 65) else Char.ofNat (v + 24)

theorem base32Val_char {v : ℕ} (h : v < 32) : base32Val (base32Char v) = some v := by
  interval_cases v <;> decide

theorem base32Val_cases {c : Char} {v : ℕ} (h : base32Val c = some v) :
    (65 ≤ c.toNat ∧ c.toNat ≤ 90 ∧ v = c.toNat - 65)
      ∨ (50 ≤ c.toNat ∧ c.toNat ≤ 55 ∧ v = c.toNat - 24) := by
  unfold base32Val at h
  split_ifs at h with hupper hdigit
  · exact .inl ⟨hupper.1, hupper.2, (Option.some.inj h).symm⟩
  · exact .inr ⟨hdigit.1, hdigit.2, (Option.some.inj h).symm⟩

theorem base32Val_eq_some {c : Char} {v : ℕ} (h : base32Val c = some v) :
    v < 32 ∧ c = base32Char v := by
  obtain ⟨h₁, h₂, rfl⟩ | ⟨h₁, h₂, rfl⟩ := base32Val_cases h
  · refine ⟨by omega, ?_⟩
    generalize hn : c.toNat = n at h₁ h₂ ⊢
    rw [char_eq_of_toNat hn]
    interval_cases n <;> decide
  · refine ⟨by omega, ?_⟩
    generalize hn : c.toNat = n at h₁ h₂ ⊢
    rw [char_eq_of_toNat hn]
    interval_cases n <;> decide

/-- Five bytes as one number. -/
def number (a b c d e : UInt8) : ℕ :=
  (((a.toNat * 256 + b.toNat) * 256 + c.toNat) * 256 + d.toNat) * 256 + e.toNat

/-- Eight digits of five bits as one number. -/
def quints (a b c d e f g h : ℕ) : ℕ :=
  ((((((a * 32 + b) * 32 + c) * 32 + d) * 32 + e) * 32 + f) * 32 + g) * 32 + h

/-- `BASE32.encode` of bytes whose number is a multiple of five. -/
def base32Encode : Bytes → List Char
  | a :: b :: c :: d :: e :: rest =>
    let n := number a b c d e
    [base32Char (n / 2 ^ 35 % 32), base32Char (n / 2 ^ 30 % 32), base32Char (n / 2 ^ 25 % 32),
      base32Char (n / 2 ^ 20 % 32), base32Char (n / 2 ^ 15 % 32), base32Char (n / 2 ^ 10 % 32),
      base32Char (n / 2 ^ 5 % 32), base32Char (n % 32)] ++ base32Encode rest
  | _ => []

theorem quints_lt {a b c d e f g h : ℕ} (ha : a < 32) (hb : b < 32) (hc : c < 32) (hd : d < 32)
    (he : e < 32) (hf : f < 32) (hg : g < 32) (hh : h < 32) : quints a b c d e f g h < 2 ^ 40 := by
  unfold quints
  omega

theorem number_lt (a b c d e : UInt8) : number a b c d e < 2 ^ 40 := by
  have ha := a.toNat_lt
  have hb := b.toNat_lt
  have hc := c.toNat_lt
  have hd := d.toNat_lt
  have he := e.toNat_lt
  unfold number
  omega

/-- The bytes of a number make it again. -/
theorem number_bytes {n : ℕ} (h : n < 2 ^ 40) :
    number (UInt8.ofNat (n / 2 ^ 32)) (UInt8.ofNat (n / 2 ^ 24)) (UInt8.ofNat (n / 2 ^ 16))
      (UInt8.ofNat (n / 2 ^ 8)) (UInt8.ofNat n) = n := by
  unfold number
  simp only [UInt8.toNat_ofNat']
  omega

/-- The five-bit digits of a number make it again. -/
theorem quints_digits {n : ℕ} (h : n < 2 ^ 40) :
    quints (n / 2 ^ 35 % 32) (n / 2 ^ 30 % 32) (n / 2 ^ 25 % 32) (n / 2 ^ 20 % 32) (n / 2 ^ 15 % 32)
      (n / 2 ^ 10 % 32) (n / 2 ^ 5 % 32) (n % 32) = n := by
  unfold quints
  omega

/-- The digits of a number made of digits. -/
theorem digits_quints {a b c d e f g h : ℕ} (ha : a < 32) (hb : b < 32) (hc : c < 32) (hd : d < 32)
    (he : e < 32) (hf : f < 32) (hg : g < 32) (hh : h < 32) :
    quints a b c d e f g h / 2 ^ 35 % 32 = a ∧ quints a b c d e f g h / 2 ^ 30 % 32 = b
      ∧ quints a b c d e f g h / 2 ^ 25 % 32 = c ∧ quints a b c d e f g h / 2 ^ 20 % 32 = d
      ∧ quints a b c d e f g h / 2 ^ 15 % 32 = e ∧ quints a b c d e f g h / 2 ^ 10 % 32 = f
      ∧ quints a b c d e f g h / 2 ^ 5 % 32 = g ∧ quints a b c d e f g h % 32 = h := by
  unfold quints
  refine ⟨?_, ?_, ?_, ?_, ?_, ?_, ?_, ?_⟩ <;> omega

/-- The bytes of a number made of bytes. -/
theorem bytes_number (a b c d e : UInt8) :
    UInt8.ofNat (number a b c d e / 2 ^ 32) = a ∧ UInt8.ofNat (number a b c d e / 2 ^ 24) = b
      ∧ UInt8.ofNat (number a b c d e / 2 ^ 16) = c ∧ UInt8.ofNat (number a b c d e / 2 ^ 8) = d
      ∧ UInt8.ofNat (number a b c d e) = e := by
  have ha := a.toNat_lt
  have hb := b.toNat_lt
  have hc := c.toNat_lt
  have hd := d.toNat_lt
  have he := e.toNat_lt
  unfold number
  refine ⟨?_, ?_, ?_, ?_, ?_⟩ <;> apply UInt8.toNat_inj.mp <;> rw [UInt8.toNat_ofNat'] <;> omega

/-- The bytes of eight digits are encoded by the digits' symbols. -/
theorem base32Encode_quints {a b c d e f g h : ℕ} (ha : a < 32) (hb : b < 32) (hc : c < 32)
    (hd : d < 32) (he : e < 32) (hf : f < 32) (hg : g < 32) (hh : h < 32) (tail : Bytes) :
    let n := quints a b c d e f g h
    base32Encode (UInt8.ofNat (n / 2 ^ 32) :: UInt8.ofNat (n / 2 ^ 24) :: UInt8.ofNat (n / 2 ^ 16)
        :: UInt8.ofNat (n / 2 ^ 8) :: UInt8.ofNat n :: tail)
      = base32Char a :: base32Char b :: base32Char c :: base32Char d :: base32Char e :: base32Char f
        :: base32Char g :: base32Char h :: base32Encode tail := by
  intro n
  obtain ⟨h₁, h₂, h₃, h₄, h₅, h₆, h₇, h₈⟩ := digits_quints ha hb hc hd he hf hg hh
  rw [base32Encode, number_bytes (quints_lt ha hb hc hd he hf hg hh),
    h₁, h₂, h₃, h₄, h₅, h₆, h₇, h₈]
  rfl

theorem base32Encode_of_decode {t : List Char} {bs : Bytes} (ht : base32Decode t = some bs) :
    bs.length % 5 = 0 ∧ base32Encode bs = t := by
  induction t using base32Decode.induct generalizing bs with
  | case1 =>
    cases ht
    exact ⟨rfl, rfl⟩
  | case2 a b c d e f g h rest ih =>
    rw [base32Decode] at ht
    simp only [Option.bind_eq_bind, Option.bind_eq_some_iff, Option.pure_def, Option.some.injEq] at ht
    obtain ⟨va, ha, vb, hb, vc, hc, vd, hd, ve, he, vf, hf, vg, hg, vh, hh, tail, htail, rfl⟩ := ht
    obtain ⟨hlength, hrest⟩ := ih htail
    obtain ⟨ha32, rfl⟩ := base32Val_eq_some ha
    obtain ⟨hb32, rfl⟩ := base32Val_eq_some hb
    obtain ⟨hc32, rfl⟩ := base32Val_eq_some hc
    obtain ⟨hd32, rfl⟩ := base32Val_eq_some hd
    obtain ⟨he32, rfl⟩ := base32Val_eq_some he
    obtain ⟨hf32, rfl⟩ := base32Val_eq_some hf
    obtain ⟨hg32, rfl⟩ := base32Val_eq_some hg
    obtain ⟨hh32, rfl⟩ := base32Val_eq_some hh
    constructor
    · simp only [List.cons_append, List.nil_append, List.length_cons]
      omega
    · rw [← hrest]
      exact base32Encode_quints ha32 hb32 hc32 hd32 he32 hf32 hg32 hh32 tail
  | case3 t hnil hcons =>
    rw [base32Decode] at ht
    · cases ht
    · exact hnil
    · exact hcons

theorem base32Decode_encode (bs : Bytes) (h : bs.length % 5 = 0) :
    base32Decode (base32Encode bs) = some bs := by
  induction bs using base32Encode.induct with
  | case1 a b c d e rest ih =>
    simp only [List.length_cons] at h
    have hdigit : ∀ k, k % 32 < 32 := fun k => Nat.mod_lt k (by omega)
    obtain ⟨h₁, h₂, h₃, h₄, h₅⟩ := bytes_number a b c d e
    have hsum := quints_digits (number_lt a b c d e)
    unfold quints at hsum
    simp only [base32Encode, List.cons_append, List.nil_append]
    rw [base32Decode]
    simp only [base32Val_char (hdigit _), ih (by omega), Option.bind_eq_bind, Option.bind_some,
      Option.pure_def]
    rw [hsum, h₁, h₂, h₃, h₄, h₅]
    rfl
  | case2 bs hshort =>
    cases bs with
    | nil => rfl
    | cons a bs =>
      have hlong : ∃ b c d e rest, bs = b :: c :: d :: e :: rest := by
        rw [List.length_cons] at h
        match bs with
        | [] | [_] | [_, _] | [_, _, _] => simp at h
        | b :: c :: d :: e :: rest => exact ⟨b, c, d, e, rest, rfl⟩
      obtain ⟨b, c, d, e, rest, rfl⟩ := hlong
      exact absurd rfl (hshort a b c d e rest)

/-- **Base32 text** without padding is what its bytes encode to. -/
theorem base32Decode_iff {t : List Char} {bs : Bytes} :
    base32Decode t = some bs ↔ bs.length % 5 = 0 ∧ base32Encode bs = t := by
  constructor
  · exact base32Encode_of_decode
  · intro ⟨hlength, ht⟩
    rw [← ht]
    exact base32Decode_encode bs hlength

end Hashdex
