import Hashdex.Descent

/-!
# What a member is recognized as

`sniff` looks at the head and, where no magic fits, at the name; a view can also be asked for the magic
of an iso9660 and for a FAT.
-/

namespace Hashdex

namespace Descent

def hasMagic (head magic : Bytes) (offset : ℕ) : Bool := magic.isPrefixOf (head.drop offset)

def endsWith (name suffix : List Char) : Bool := suffix.isSuffixOf (name.map Char.toLower)

def sniff (head : Bytes) (name : List Char) : Kind :=
  if hasMagic head [33, 60, 97, 114, 99, 104, 62, 10] 0 then .ar
  else if hasMagic head [0x1f, 0x8b] 0 then .gzip
  else if hasMagic head [0xfd, 55, 122, 88, 90, 0] 0 then .xz
  else if hasMagic head [0x28, 0xb5, 0x2f, 0xfd] 0 then .zstd
  else if hasMagic head [66, 90, 104] 0 && head[3]?.any (fun b => 48 ≤ b && b ≤ 57) then .bzip2
  else if hasMagic head [0x50, 0x4b, 3, 4] 0 then .zip
  else if hasMagic head [0xed, 0xab, 0xee, 0xdb] 0 then .rpm
  else if hasMagic head [48, 55, 48, 55, 48, 49] 0 || hasMagic head [48, 55, 48, 55, 48, 50] 0 then .cpio
  else if 262 < head.length ∧ hasMagic head [117, 115, 116, 97, 114] 257 then .tar
  else if hasMagic head [104, 115, 113, 115] 0 then .squashFs
  else if hasMagic head [0x37, 0x7a, 0xbc, 0xaf, 0x27, 0x1c] 0 then .sevenZ
  else if hasMagic head [0xe2, 0xe1, 0xf5, 0xe0] 1024 then .erofs
  else if endsWith name ".iso".toList then .iso
  else .plain

def le16 (head : Bytes) (i : ℕ) : ℕ := (head.getD i 0).toNat + 256 * (head.getD (i + 1) 0).toNat

/-- `fat::looks_like`: FAT has no magic, so the whole BPB has to make sense. -/
def looksLikeFat (head : Bytes) : Bool :=
  512 ≤ head.length && head.getD 510 0 = 0x55 && head.getD 511 0 = 0xAA
    && (head.getD 0 0 = 0xEB || head.getD 0 0 = 0xE9)
    && (le16 head 11 = 512 || le16 head 11 = 1024 || le16 head 11 = 2048 || le16 head 11 = 4096)
    && [1, 2, 4, 8, 16, 32, 64, 128].contains (head.getD 13 0)
    && le16 head 14 ≠ 0 && (head.getD 16 0 = 1 || head.getD 16 0 = 2) && 0xF0 ≤ head.getD 21 0
    && (hasMagic head [70, 65, 84] 54 || hasMagic head [70, 65, 84] 82)

/-- The primary volume descriptor's magic, which only a seekable member can be asked for. -/
def probeIso (bytes : Bytes) : Kind → Kind
  | .plain => if 32774 ≤ bytes.length ∧ hasMagic bytes [67, 68, 48, 48, 49] 32769 then .iso else .plain
  | kind => kind

/-- FAT is recognized only from a view, never from a stream's head. -/
def probeFat (bytes : Bytes) : Kind → Kind
  | .plain => if looksLikeFat (bytes.take headLen) then .fat else .plain
  | kind => kind

/-- What `run_member` takes a stream for. -/
def streamedKind (bytes : Bytes) (name : List Char) : Kind := sniff (bytes.take headLen) name

/-- What `process_ranged` takes a view for. -/
def rangedKind (bytes : Bytes) (name : List Char) : Kind :=
  probeFat bytes (probeIso bytes (sniff (bytes.take headLen) name))

/-- A view is taken for what a stream of the same bytes is, unless the probes find more. -/
theorem rangedKind_cases (bytes : Bytes) (name : List Char) :
    rangedKind bytes name = streamedKind bytes name
      ∨ streamedKind bytes name = .plain
        ∧ (rangedKind bytes name = .iso ∨ rangedKind bytes name = .fat) := by
  unfold rangedKind streamedKind
  cases sniff (bytes.take headLen) name with
  | plain =>
    rw [probeIso]
    split_ifs
    · exact .inr ⟨rfl, .inl rfl⟩
    · rw [probeFat]
      split_ifs
      · exact .inr ⟨rfl, .inr rfl⟩
      · exact .inl rfl
  | _ => exact .inl rfl

end Descent

end Hashdex
