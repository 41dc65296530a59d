import Hashdex.Filter

/-!
# Building a filter from digest lines

`build` reads the input twice: once to check and count the lines, once to insert their keys.

* `build_spec`: what a successful build wrote
* `build_lines`: and that every nonblank line was a digest of the scheme
-/

namespace Hashdex

open Dcso

/-- One input of `hdx filters build`, split into lines. -/
structure InputFile where
  path : String
  lines : List String
  deriving DecidableEq

def filterHexLen : Scheme → Option ℕ
  | .md5 => some 32
  | .sha1 => some 40
  | .sha256 => some 64
  | _ => none

/-- The trimmed line is a digest of the expected length. -/
def isDigestLine (hexLen : ℕ) (t : List Char) : Bool :=
  t.length == hexLen && t.all isAsciiHexdigit

/-- Pass 1 over one file: count the digest lines, refuse anything else that is not blank. -/
def countLines (hexLen : ℕ) (path : String) : List String → UInt64 → Except String UInt64
  | [], n => .ok n
  | line :: rest, n =>
    let t := trim line.toList
    if isDigestLine hexLen t then countLines hexLen path rest (n + 1)
    else if t = [] then countLines hexLen path rest n
    else
      let quoted := (String.ofList t).quote
      .error s!"{path}: line {quoted} is not a {hexLen}-char hex digest"

def countAll (hexLen : ℕ) : List InputFile → UInt64 → Except String UInt64
  | [], n => .ok n
  | f :: rest, n =>
    match countLines hexLen f.path f.lines n with
    | .error e => .error e
    | .ok n' => countAll hexLen rest n'

/-- The key of one digest line: upper case for sha1, lower case for everything else. -/
def buildKey (scheme : Scheme) (t : List Char) : List Char :=
  let uppercase := scheme = .sha1
  if uppercase then t.map Char.toUpper else t.map Char.toLower

/-- The keys pass 2 inserts, in order. -/
def inputKeys (scheme : Scheme) (inputs : List InputFile) : List Bytes :=
  inputs.flatMap fun f => f.lines.filterMap fun line =>
    let t := trim line.toList
    if t = [] then none else some (asciiBytes (buildKey scheme t))

/-- The name and the contents of the file `build` installs. -/
def filtersBuild (sizeFor : UInt64 → UInt64 → Except String Sizing) (name : String)
    (scheme : Scheme) (inputs : List InputFile) (fpp : UInt64) : Except String (String × Bytes) :=
  let schemeName := scheme.asStr
  match filterHexLen scheme with
  | none => .error s!"filters build: unsupported scheme {schemeName}"
  | some hexLen =>
    match countAll hexLen inputs 0 with
    | .error e => .error e
    | .ok n =>
      if n = 0 then .error "filters build: no digests found in input"
      else
        match BloomBuilder.new sizeFor n fpp with
        | .error e => .error e
        | .ok builder =>
          .ok (s!"{name}.{schemeName}.bloom",
            ((inputKeys scheme inputs).foldl BloomBuilder.add builder).write)

/-- The digest `c` stands on some line of the input. -/
def Listed (inputs : List InputFile) (c : Coord) : Prop :=
  ∃ f ∈ inputs, ∃ line ∈ f.lines, trim line.toList ≠ [] ∧ hexPairs (trim line.toList) = c.digest

/-! ### What a successful build did -/

theorem countLines_ok {hexLen : ℕ} {path : String} {lines : List String} {n n' : UInt64}
    (h : countLines hexLen path lines n = .ok n') {line : String} (hline : line ∈ lines)
    (hne : trim line.toList ≠ []) : isDigestLine hexLen (trim line.toList) = true := by
  induction lines generalizing n with
  | nil => cases hline
  | cons l rest ih =>
    rw [countLines] at h
    dsimp only at h
    split at h
    · next hd =>
      rcases List.mem_cons.mp hline with rfl | hmem
      · exact hd
      · exact ih h hmem
    · split at h
      · next hblank =>
        rcases List.mem_cons.mp hline with rfl | hmem
        · exact absurd hblank hne
        · exact ih h hmem
      · cases h

theorem countAll_ok {hexLen : ℕ} {inputs : List InputFile} {n n' : UInt64}
    (h : countAll hexLen inputs n = .ok n') {f : InputFile} (hf : f ∈ inputs) {line : String}
    (hline : line ∈ f.lines) (hne : trim line.toList ≠ []) :
    isDigestLine hexLen (trim line.toList) = true := by
  induction inputs generalizing n with
  | nil => cases hf
  | cons g rest ih =>
    rw [countAll] at h
    split at h
    · cases h
    · next n₁ hg =>
      rcases List.mem_cons.mp hf with rfl | hmem
      · exact countLines_ok hg hline hne
      · exact ih h hmem

section Built

variable {sizeFor : UInt64 → UInt64 → Except String Sizing} {name dest : String} {scheme : Scheme}
  {inputs : List InputFile} {fpp : UInt64} {file : Bytes}

/-- The numbers a build settles on: its input counted and the filter sized for the count. -/
def BuildSizing (sizeFor : UInt64 → UInt64 → Except String Sizing) (scheme : Scheme)
    (inputs : List InputFile) (fpp : UInt64) (s : Sizing) : Prop :=
  ∃ hexLen n, filterHexLen scheme = some hexLen ∧ countAll hexLen inputs 0 = .ok n ∧
    sizeFor n fpp = .ok s

/-- **What a successful build wrote.**  The file holds the input's keys and nothing else. -/
theorem build_spec (h : filtersBuild sizeFor name scheme inputs fpp = .ok (dest, file)) :
    ∃ (b : BloomBuilder) (s : Sizing), BuildSizing sizeFor scheme inputs fpp s ∧
      b.m = s.m ∧ b.k = s.k ∧ b.bits = List.replicate (wordsFor b.m) 0 ∧
      file = ((inputKeys scheme inputs).foldl BloomBuilder.add b).write := by
  rw [filtersBuild] at h
  split at h
  · cases h
  · next hexLen hlen =>
    split at h
    · cases h
    · next n hn =>
      split at h
      · cases h
      · split at h
        · cases h
        · next b hb =>
          cases h
          rw [BloomBuilder.new] at hb
          split at hb
          · cases hb
          · next s hs =>
            cases hb
            exact ⟨_, s, ⟨hexLen, n, hlen, hn, hs⟩, rfl, rfl, rfl, rfl⟩

theorem BuildSizing.unique {s s' : Sizing} (h : BuildSizing sizeFor scheme inputs fpp s)
    (h' : BuildSizing sizeFor scheme inputs fpp s') : s = s' := by
  obtain ⟨hexLen, n, hlen, hn, hs⟩ := h
  obtain ⟨hexLen', n', hlen', hn', hs'⟩ := h'
  cases hlen.symm.trans hlen'
  cases hn.symm.trans hn'
  cases hs.symm.trans hs'
  rfl

/-- Every nonblank line was a digest of the scheme. -/
theorem build_lines (h : filtersBuild sizeFor name scheme inputs fpp = .ok (dest, file))
    {f : InputFile} (hf : f ∈ inputs) {line : String} (hline : line ∈ f.lines)
    (hne : trim line.toList ≠ []) :
    ∃ hexLen, filterHexLen scheme = some hexLen ∧
      isDigestLine hexLen (trim line.toList) = true := by
  rw [filtersBuild] at h
  split at h
  · cases h
  · next hexLen hlen =>
    split at h
    · cases h
    · next n hn => exact ⟨hexLen, hlen, countAll_ok hn hf hline hne⟩

end Built

/-- A digest line spells its bytes: recased, it is one of the two renderings. -/
theorem isDigestLine_hex {scheme : Scheme} {hexLen : ℕ} {t : List Char}
    (hs : filterHexLen scheme = some hexLen) (h : isDigestLine hexLen t = true) :
    t.map Char.toLower = hexLower (hexPairs t) ∧ t.map Char.toUpper = hexUpper (hexPairs t) := by
  rw [isDigestLine, Bool.and_eq_true, beq_iff_eq] at h
  have heven : t.length % 2 = 0 := by
    rw [h.1]
    cases scheme <;> cases hs <;> rfl
  exact ⟨(hexLower_hexPairs t heven h.2).symm, (hexUpper_hexPairs t heven h.2).symm⟩

/-- What pass 2 inserts for a listed digest. -/
theorem mem_inputKeys_of_listed {sizeFor : UInt64 → UInt64 → Except String Sizing}
    {name dest : String} {scheme : Scheme} {inputs : List InputFile} {fpp : UInt64} {file : Bytes}
    (h : filtersBuild sizeFor name scheme inputs fpp = .ok (dest, file)) {c : Coord}
    (hc : Listed inputs c) :
    asciiBytes (if scheme = .sha1 then hexUpper c.digest else hexLower c.digest)
      ∈ inputKeys scheme inputs := by
  obtain ⟨f, hf, line, hline, hne, hdigest⟩ := hc
  obtain ⟨hexLen, hlen, hline'⟩ := build_lines h hf hline hne
  obtain ⟨hlow, hup⟩ := isDigestLine_hex hlen hline'
  refine List.mem_flatMap.mpr ⟨f, hf, List.mem_filterMap.mpr ⟨line, hline, ?_⟩⟩
  dsimp only
  rw [if_neg hne, buildKey, hlow, hup, hdigest]

end Hashdex
