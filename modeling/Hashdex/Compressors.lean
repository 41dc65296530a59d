import Hashdex.Hex

/-!
# The compressor catalog

The names recipes carry for the compressors they re-run, the orders a search tries them in, and what a
wrapper's own head states about the run that wrote it.

* `GnuGzip.parse_name`: names round-trip
* `parseGzipHeader_append`: a parsed gzip header is a prefix of the wrapper
-/

namespace Hashdex

/-- One GNU gzip entry: a level, optionally with the rsyncable resets. -/
structure GnuGzip where
  level : ℕ
  rsyncable : Bool
  deriving DecidableEq

/-- One zstd entry: the level and what the frame says about itself. -/
structure Zstd where
  level : Int
  singleThread : Bool
  checksum : Bool
  contentSize : Bool
  deriving DecidableEq

/-- `str::parse::<u8>`: digits, after an optional plus sign. -/
def parseU8 (s : List Char) : Option ℕ :=
  let digits := match s with
    | '+' :: rest => rest
    | _ => s
  if digits = [] ∨ ¬ digits.all Char.isDigit then none
  else
    let n := digits.foldl (fun n c => 10 * n + (c.toNat - 48)) 0
    if n < 256 then some n else none

def stripSuffix (suffix s : List Char) : Option (List Char) :=
  if suffix <:+ s then some (s.take (s.length - suffix.length)) else none

def stripGnu : List Char → Option (List Char)
  | 'g' :: 'n' :: 'u' :: '-' :: rest => some rest
  | _ => none

namespace GnuGzip

def name (g : GnuGzip) : String :=
  let level := g.level
  if g.rsyncable then s!"gnu-{level}-rsyncable" else s!"gnu-{level}"

def parse (name : String) : Option GnuGzip :=
  let (levelStr, rsyncable) := match stripSuffix "-rsyncable".toList name.toList with
    | some rest => (rest, true)
    | none => (name.toList, false)
  match (stripGnu levelStr).bind parseU8 with
  | none => none
  | some level => if 1 ≤ level ∧ level ≤ 9 then some ⟨level, rsyncable⟩ else none

/-- **Names round-trip** over the catalog's levels. -/
theorem parse_name {g : GnuGzip} (h : 1 ≤ g.level ∧ g.level ≤ 9) : parse g.name = some g := by
  obtain ⟨level, rsyncable⟩ := g
  obtain ⟨hlo, hhi⟩ := h
  dsimp only at hlo hhi
  interval_cases level <;> cases rsyncable <;> decide +kernel

end GnuGzip

namespace Zstd

def name (z : Zstd) : String :=
  let level := z.level
  if z.singleThread then s!"zstd-{level}-single" else s!"zstd-{level}"

end Zstd

/-! ### Search orders -/

/-- Search order of the levels; each is tried plain before rsyncable. -/
def gnuGzipCandidates : List ℕ := [9, 6, 1, 8, 7, 5, 4, 3, 2]

def zstdLevelCandidates : List Int := [15, 3, 19, 9, 1, 6, 22, 17, 12, 5, 8, 11]

/-! ### What a wrapper's head states -/

/-- What a zstd frame says about itself; nothing when no catalog run writes such a head. -/
def parseZstdHeader (head : Bytes) : Option Zstd :=
  match head with
  | 0x28 :: 0xb5 :: 0x2f :: 0xfd :: fhd :: _ =>
    if fhd &&& 0x08 ≠ 0 ∨ fhd &&& 0x03 ≠ 0 then none
    else some
      { level := 0
        singleThread := false
        checksum := fhd &&& 0x04 ≠ 0
        contentSize := fhd >>> 6 ≠ 0 ∨ fhd &&& 0x20 ≠ 0 }
  | _ => none

def gzipHeaderCap : ℕ := 64 * 2 ^ 10

/-- A zero-terminated field, moved from what is left to the header. -/
def takeName (hdr : Bytes) : Bytes → Option (Bytes × Bytes)
  | [] => none
  | b :: rest =>
    if b = 0 then some (hdr ++ [b], rest)
    else if gzipHeaderCap < (hdr ++ [b]).length then none
    else takeName (hdr ++ [b]) rest

def takeExact (n : ℕ) (hdr rest : Bytes) : Option (Bytes × Bytes) :=
  if n ≤ rest.length then some (hdr ++ rest.take n, rest.drop n) else none

/-- The extra field: two bytes of length, then as many bytes. -/
def takeExtra (hdr rest : Bytes) : Option (Bytes × Bytes) :=
  match rest with
  | lo :: hi :: _ => takeExact (2 + (lo.toNat + 256 * hi.toNat)) hdr rest
  | _ => none

/-- A field that is there when its flag is set. -/
def takeIf (flag : UInt8) (field : Bytes → Bytes → Option (Bytes × Bytes)) (hdr rest : Bytes) :
    Option (Bytes × Bytes) :=
  if flag ≠ 0 then field hdr rest else some (hdr, rest)

/-- The raw bytes of a gzip member header; nothing when this is no healthy gzip head. -/
def parseGzipHeader (wrapper : Bytes) : Option Bytes := do
  let (hdr, rest) ← takeExact 10 [] wrapper
  let flg := hdr.getD 3 0
  if hdr.take 3 ≠ [0x1f, 0x8b, 8] ∨ flg &&& 0xe0 ≠ 0 then none
  else
    let (hdr, rest) ← takeIf (flg &&& 0x04) takeExtra hdr rest
    let (hdr, rest) ← takeIf (flg &&& 0x08) takeName hdr rest
    let (hdr, rest) ← takeIf (flg &&& 0x10) takeName hdr rest
    let (hdr, _) ← takeIf (flg &&& 0x02) (takeExact 2) hdr rest
    some hdr

/-- What has been taken and what is left stay the wrapper. -/
theorem takeExact_append {n : ℕ} {hdr rest hdr' rest' : Bytes}
    (h : takeExact n hdr rest = some (hdr', rest')) : hdr' ++ rest' = hdr ++ rest := by
  rw [takeExact] at h
  split at h
  · cases h
    rw [List.append_assoc, List.take_append_drop]
  · cases h

theorem takeExtra_append {hdr rest hdr' rest' : Bytes}
    (h : takeExtra hdr rest = some (hdr', rest')) : hdr' ++ rest' = hdr ++ rest := by
  unfold takeExtra at h
  split at h
  · exact takeExact_append h
  · cases h

theorem takeName_append {hdr rest hdr' rest' : Bytes}
    (h : takeName hdr rest = some (hdr', rest')) : hdr' ++ rest' = hdr ++ rest := by
  induction rest generalizing hdr with
  | nil => cases h
  | cons b rest ih =>
    have hmove : hdr ++ [b] ++ rest = hdr ++ b :: rest := by
      rw [List.append_assoc, List.singleton_append]
    rw [takeName] at h
    split at h
    · cases h
      exact hmove
    · split at h
      · cases h
      · exact (ih h).trans hmove

theorem takeIf_append {flag : UInt8} {field : Bytes → Bytes → Option (Bytes × Bytes)}
    (hfield : ∀ {hdr rest hdr' rest'}, field hdr rest = some (hdr', rest') →
      hdr' ++ rest' = hdr ++ rest)
    {hdr rest hdr' rest' : Bytes} (h : takeIf flag field hdr rest = some (hdr', rest')) :
    hdr' ++ rest' = hdr ++ rest := by
  rw [takeIf] at h
  split at h
  · exact hfield h
  · cases h
    rfl

/-- **A parsed header is a prefix of the wrapper.** -/
theorem parseGzipHeader_append {wrapper header : Bytes} (h : parseGzipHeader wrapper = some header) :
    ∃ rest, header ++ rest = wrapper := by
  rw [parseGzipHeader] at h
  obtain ⟨⟨hdr, rest⟩, h0, h⟩ := Option.bind_eq_some_iff.mp h
  dsimp only at h
  split at h
  · cases h
  · obtain ⟨⟨hdr₁, rest₁⟩, h1, h⟩ := Option.bind_eq_some_iff.mp h
    obtain ⟨⟨hdr₂, rest₂⟩, h2, h⟩ := Option.bind_eq_some_iff.mp h
    obtain ⟨⟨hdr₃, rest₃⟩, h3, h⟩ := Option.bind_eq_some_iff.mp h
    obtain ⟨⟨hdr₄, rest₄⟩, h4, h⟩ := Option.bind_eq_some_iff.mp h
    cases h
    refine ⟨rest₄, ?_⟩
    calc hdr₄ ++ rest₄ = hdr₃ ++ rest₃ := takeIf_append takeExact_append h4
      _ = hdr₂ ++ rest₂ := takeIf_append takeName_append h3
      _ = hdr₁ ++ rest₁ := takeIf_append takeName_append h2
      _ = hdr ++ rest := takeIf_append takeExtra_append h1
      _ = wrapper := takeExact_append h0

end Hashdex
