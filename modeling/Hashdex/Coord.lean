import Hashdex.Hex

/-!
# Coordinates

A coordinate is a digest together with the scheme that produced it; the same bytes under another
scheme are another coordinate.  `Coord.parse` reads every accepted spelling, `Coord.display` writes
the canonical one, and `Coord.parse_display` says that the canonical spelling reads back.
-/

namespace Hashdex

inductive Scheme
  | md5
  | sha1
  | sha256
  | sha512
  | sha1Git
  | blake2s256
  deriving DecidableEq, Repr

namespace Scheme

def asStr : Scheme → String
  | md5 => "md5"
  | sha1 => "sha1"
  | sha256 => "sha256"
  | sha512 => "sha512"
  | sha1Git => "sha1_git"
  | blake2s256 => "blake2s256"

def digestLen : Scheme → ℕ
  | md5 => 16
  | sha1 => 20
  | sha1Git => 20
  | sha256 => 32
  | blake2s256 => 32
  | sha512 => 64

/-- The aliases of a scheme prefix, in any ASCII case. -/
def fromPrefix (s : List Char) : Option Scheme :=
  let low := String.ofList (s.map Char.toLower)
  if low = "md5" then some md5
  else if low = "sha1" ∨ low = "sha-1" then some sha1
  else if low = "sha256" ∨ low = "sha-256" then some sha256
  else if low = "sha512" ∨ low = "sha-512" then some sha512
  else if low = "sha1_git" ∨ low = "sha1-git" ∨ low = "git" then some sha1Git
  else if low = "blake2s256" ∨ low = "blake2s" then some blake2s256
  else none

end Scheme

/-- A coordinate carries a digest of its scheme's length: `Coord::new` refuses any other, and the
digests minted locally are arrays of that length. -/
structure Coord where
  scheme : Scheme
  digest : Bytes
  length_eq : digest.length = scheme.digestLen
  deriving DecidableEq

namespace Coord

theorem ext {a b : Coord} (hs : a.scheme = b.scheme) (hd : a.digest = b.digest) : a = b := by
  cases a
  cases b
  simp_all

/-- `Coord::new`. -/
def new (scheme : Scheme) (digest : Bytes) : Option Coord :=
  if h : digest.length = scheme.digestLen then some ⟨scheme, digest, h⟩ else none

def hex (c : Coord) : List Char := hexLower c.digest

/-- The `Display` form, `scheme:hex`. -/
def display (c : Coord) : String := String.ofList (c.scheme.asStr.toList ++ ':' :: c.hex)

end Coord

/-! ### The two RFC 4648 alphabets the parser reads -/

/-- The value of a base64 symbol of the standard alphabet. -/
def base64Val (c : Char) : Option ℕ :=
  if 'A' ≤ c ∧ c ≤ 'Z' then some (c.toNat - 65)
  else if 'a' ≤ c ∧ c ≤ 'z' then some (c.toNat - 71)
  else if '0' ≤ c ∧ c ≤ '9' then some (c.toNat + 4)
  else if c = '+' then some 62
  else if c = '/' then some 63
  else none

/-- One block of four symbols: three bytes, or a padded block whose spare bits are zero. -/
def base64Block (a b c d : Char) : Option Bytes :=
  match base64Val a, base64Val b with
  | some x, some y =>
    if c = '=' ∧ d = '=' then
      if y % 16 = 0 then some [UInt8.ofNat (x * 4 + y / 16)] else none
    else
      match base64Val c with
      | none => none
      | some z =>
        if d = '=' then
          if z % 4 = 0 then
            some [UInt8.ofNat (x * 4 + y / 16), UInt8.ofNat (y % 16 * 16 + z / 4)]
          else none
        else
          match base64Val d with
          | none => none
          | some w =>
            some [UInt8.ofNat (x * 4 + y / 16), UInt8.ofNat (y % 16 * 16 + z / 4),
              UInt8.ofNat (z % 4 * 64 + w)]
  | _, _ => none

/-- `BASE64.decode`: a sequence of canonical blocks, padded ones included. -/
def base64Decode : List Char → Option Bytes
  | [] => some []
  | a :: b :: c :: d :: rest => do
    let block ← base64Block a b c d
    let tail ← base64Decode rest
    return block ++ tail
  | _ => none

/-- The value of a base32 symbol. -/
def base32Val (c : Char) : Option ℕ :=
  if 'A' ≤ c ∧ c ≤ 'Z' then some (c.toNat - 65)
  else if '2' ≤ c ∧ c ≤ '7' then some (c.toNat - 24)
  else none

/-- `BASE32.decode` on unpadded input whose length is a multiple of eight. -/
def base32Decode : List Char → Option Bytes
  | [] => some []
  | a :: b :: c :: d :: e :: f :: g :: h :: rest => do
    let va ← base32Val a
    let vb ← base32Val b
    let vc ← base32Val c
    let vd ← base32Val d
    let ve ← base32Val e
    let vf ← base32Val f
    let vg ← base32Val g
    let vh ← base32Val h
    let n := ((((((va * 32 + vb) * 32 + vc) * 32 + vd) * 32 + ve) * 32 + vf) * 32 + vg) * 32 + vh
    let tail ← base32Decode rest
    return [UInt8.ofNat (n / 2 ^ 32), UInt8.ofNat (n / 2 ^ 24), UInt8.ofNat (n / 2 ^ 16),
      UInt8.ofNat (n / 2 ^ 8), UInt8.ofNat n] ++ tail
  | _ => none

/-! ### Parsing -/

/-- `split_once`: what stands before and after the first `sep`. -/
def splitOnce (sep : Char) : List Char → Option (List Char × List Char)
  | [] => none
  | c :: cs =>
    if c = sep then some ([], cs)
    else (splitOnce sep cs).map fun p => (c :: p.1, p.2)

/-- `strip_prefix`. -/
def stripPrefix (pre s : List Char) : Option (List Char) :=
  if pre <+: s then some (s.drop pre.length) else none

/-- The SRI branch (`sha512-<b64>`): only without a colon, and only when the decoded length is the
scheme's; anything else falls through to the other spellings. -/
def parseSri (s : List Char) : Option Coord :=
  match splitOnce '-' s with
  | none => none
  | some (pre, b64) =>
    if ':' ∈ s then none
    else
      match Scheme.fromPrefix pre, base64Decode b64 with
      | some scheme, some bytes => Coord.new scheme bytes
      | _, _ => none

/-- Bare base32, the CDX convention: 32 symbols, not all of them hex digits. -/
def isBareBase32 (s : List Char) : Bool :=
  s.length == 32 && s.all (fun c => ('A' ≤ c && c ≤ 'Z') || ('2' ≤ c && c ≤ '7')) &&
    !s.all isAsciiHexdigit

/-- Bare hex, told apart by its length. -/
def parseBareHex (s : List Char) : Option Coord := do
  let bytes ← decodeHex s
  if bytes.length = 16 then Coord.new .md5 bytes
  else if bytes.length = 20 then Coord.new .sha1 bytes
  else if bytes.length = 32 then Coord.new .sha256 bytes
  else if bytes.length = 64 then Coord.new .sha512 bytes
  else none

/-- `Coord::parse` on the characters of the input. -/
def Coord.parseChars (input : List Char) : Option Coord :=
  let s := trim input
  match stripPrefix "swh:1:cnt:".toList s with
  | some rest => (decodeHex rest).bind (Coord.new .sha1Git)
  | none =>
    match parseSri s with
    | some c => some c
    | none =>
      match splitOnce ':' s with
      | some (pre, hex) =>
        match Scheme.fromPrefix pre with
        | none => none
        | some scheme => (decodeHex hex).bind (Coord.new scheme)
      | none =>
        if isBareBase32 s then (base32Decode s).bind (Coord.new .sha1)
        else parseBareHex s

/-- `Coord::parse`; an error is `none`. -/
def Coord.parse (input : String) : Option Coord := Coord.parseChars input.toList

/-! ### The canonical spelling reads back -/

theorem Coord.new_self (c : Coord) : Coord.new c.scheme c.digest = some c := by
  unfold Coord.new
  rw [dif_pos c.length_eq]

theorem splitOnce_none {sep : Char} {s : List Char} (h : sep ∉ s) : splitOnce sep s = none := by
  induction s with
  | nil => rfl
  | cons a s ih =>
    simp only [List.mem_cons, not_or] at h
    rw [splitOnce, if_neg (fun h' => h.1 h'.symm), ih h.2]
    rfl

theorem splitOnce_append {sep : Char} {pre : List Char} (h : sep ∉ pre) (rest : List Char) :
    splitOnce sep (pre ++ sep :: rest) = some (pre, rest) := by
  induction pre with
  | nil => simp [splitOnce]
  | cons a pre ih =>
    simp only [List.mem_cons, not_or] at h
    rw [List.cons_append, splitOnce, if_neg (fun h' => h.1 h'.symm), ih h.2]
    rfl

theorem Scheme.fromPrefix_asStr (s : Scheme) : Scheme.fromPrefix s.asStr.toList = some s := by
  cases s <;> decide

theorem not_mem_hexLower {c : Char} (hc : ∀ d, d < 16 → lowerDigit d ≠ c) (bs : Bytes) :
    c ∉ hexLower bs := by
  intro h
  obtain ⟨d, hd, rfl⟩ := mem_hexLower h
  exact hc d hd rfl

/-- The characters of a displayed coordinate. -/
theorem Coord.toList_display (c : Coord) :
    c.display.toList = c.scheme.asStr.toList ++ ':' :: c.hex := by
  unfold Coord.display
  rw [String.toList_ofList]

theorem Scheme.asStr_plain (s : Scheme) :
    '-' ∉ s.asStr.toList ∧ ':' ∉ s.asStr.toList ∧
      s.asStr.toList.all (fun c => !isWhiteSpace c) = true := by
  cases s <;> decide

theorem stripPrefix_display (c : Coord) :
    stripPrefix "swh:1:cnt:".toList (c.scheme.asStr.toList ++ ':' :: c.hex) = none := by
  unfold stripPrefix
  rw [if_neg]
  rintro ⟨t, ht⟩
  cases hs : c.scheme <;> rw [hs] at ht <;> simp [Scheme.asStr] at ht

/-- **Display, then parse, is the identity.** -/
theorem Coord.parse_display (c : Coord) : Coord.parse c.display = some c := by
  obtain ⟨hdash, hcolon, hblank⟩ := Scheme.asStr_plain c.scheme
  have htrim : trim (c.scheme.asStr.toList ++ ':' :: c.hex)
      = c.scheme.asStr.toList ++ ':' :: c.hex := by
    apply trim_eq_self
    rw [List.all_append, hblank, List.all_cons, Coord.hex]
    rw [hexLower_all (fun d hd => by interval_cases d <;> decide)]
    decide
  have hnodash : '-' ∉ c.scheme.asStr.toList ++ ':' :: c.hex := by
    simp only [List.mem_append, List.mem_cons, not_or]
    exact ⟨hdash, by decide,
      not_mem_hexLower (fun d hd => by interval_cases d <;> decide) c.digest⟩
  have hsri : parseSri (c.scheme.asStr.toList ++ ':' :: c.hex) = none := by
    unfold parseSri
    rw [splitOnce_none hnodash]
  unfold Coord.parse Coord.parseChars
  simp only [Coord.toList_display, htrim, stripPrefix_display, hsri, splitOnce_append hcolon,
    Scheme.fromPrefix_asStr]
  rw [Coord.hex, decodeHex_hexLower]
  exact c.new_self

theorem Coord.display_injective {a b : Coord} (h : a.display = b.display) : a = b := by
  have ha := Coord.parse_display a
  rw [h, Coord.parse_display] at ha
  exact (Option.some.inj ha).symm

example : Coord.parse "  SHA-256:ba7816bf8f01cfea414140de5dae2223b00361a396177a9cb410ff61f20015AD\n"
    = Coord.parse "sha256-ungWv48Bz+pBQUDeXa4iI7ADYaOWF3qctBD/YfIAFa0=" := by decide +kernel

end Hashdex
