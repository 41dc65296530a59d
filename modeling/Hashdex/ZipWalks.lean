import Mathlib
import Hashdex.Cpio
import Hashdex.Lib.BitArray
import Hashdex.Lib.SortedMap

/-!
# The two walks of a zip

A stream-fed zip is walked by its local headers, and the central directory that follows them has to list
the same names and checksums.  A seekable zip is walked by the directory that the end of the file names.
The crate that reads entries is a parameter.

* `zipSpeculative`, `zipRanged`: the two walks
* `recordsAt_of_recordsFrom`: a directory read up to its end record, and by its number of records
* `zip_walks_agree`: what acceptance says of the two walks
-/

namespace Hashdex

namespace Zip

open Descent
open Cpio (Direct)
open BitArray (ofLe leBytes)

/-! ### The directory -/

def central : Bytes := [0x50, 0x4B, 0x01, 0x02]

def eocd : Bytes := [0x50, 0x4B, 0x05, 0x06]

def eocd64 : Bytes := [0x50, 0x4B, 0x06, 0x06]

def eocd64Locator : Bytes := [0x50, 0x4B, 0x06, 0x07]

def le16 (b : Bytes) (o : ℕ) : ℕ := ofLe ((b.drop o).take 2)

def le32 (b : Bytes) (o : ℕ) : ℕ := ofLe ((b.drop o).take 4)

/-- A record of the directory: what stands before its name, the name, and the fields and the comment
after it. -/
structure Record where
  fields : Bytes
  name : Bytes
  tail : Bytes
  deriving DecidableEq

def Record.crc (r : Record) : ℕ := le32 r.fields 12

def readExact (r : Bytes) (n : ℕ) : Except String (Bytes × Bytes) :=
  if n ≤ r.length then .ok (r.take n, r.drop n) else .error "failed to fill whole buffer"

def skipN (r : Bytes) (n : ℕ) : Except String (Bytes × Bytes) :=
  if n ≤ r.length then .ok (r.take n, r.drop n)
  else .error s!"truncated (wanted {n} bytes, got {r.length})"

/-- A record whose signature is consumed. -/
def readRecord (r : Bytes) : Except String (Record × Bytes) :=
  match readExact r 42 with
  | .error e => .error e
  | .ok (fields, r) =>
    match readExact r (le16 fields 24) with
    | .error e => .error e
    | .ok (name, r) =>
      match skipN r (le16 fields 26 + le16 fields 28) with
      | .error e => .error e
      | .ok (tail, r) => .ok (⟨fields, name, tail⟩, r)

/-- Records up to a signature of the end; nothing at any other signature.  Each takes some bytes, so that
at the end of the fuel there are none. -/
def recordsFrom : ℕ → Bytes → Except String (Option (List Record))
  | 0, _ => .error "failed to fill whole buffer"
  | fuel + 1, r =>
    match readRecord r with
    | .error e => .error e
    | .ok (record, r) =>
      match readExact r 4 with
      | .error e => .error e
      | .ok (sig, r) =>
        if sig = central then (recordsFrom fuel r).map (Option.map (record :: ·))
        else if sig = eocd ∨ sig = eocd64 ∨ sig = eocd64Locator then .ok (some [record])
        else .ok none

def isDirName (name : List Char) : Bool := name.getLast? = some '/'

/-- The names and checksums of a directory, as they are compared. -/
def listed (records : List Record) : List (List Char × ℕ) :=
  (records.filter fun r => !isDirName (Scan.lossy r.name)).map fun r => (Scan.lossy r.name, r.crc)

def reconcileCentralDir (r : Bytes) (streamed : List (List Char × ℕ)) : Except String Bool :=
  match recordsFrom r.length r with
  | .error e => .error e
  | .ok none => .ok false
  | .ok (some records) => .ok (listed records = streamed)

/-! ### The crate -/

/-- What a header says of an entry's data. -/
structure Stated where
  size : ℕ
  compressedSize : ℕ
  method : ℕ
  encrypted : Bool
  isFile : Bool
  deriving DecidableEq

structure ZipFile extends Stated where
  name : List Char
  crc : ℕ
  dataStart : Option ℕ
  content : Bytes
  deriving DecidableEq

structure Crate where
  /-- `read_zipfile_from_stream`: an entry and the stream behind it; none at a directory, whose first
  signature is consumed. -/
  fromStream : Bytes → Except String (Option ZipFile × Bytes)
  /-- `ZipArchive::new`, and `by_index` of every entry; the name of one that cannot be opened. -/
  archive : Bytes → Except String (List (Except (List Char × String) ZipFile))

/-- How the crate reads a file from its end. -/
structure Format where
  /-- Where the directory starts that the last end record names, and how many records it has. -/
  lastDirectory : Bytes → Option (ℕ × ℕ)
  nameOf : Record → List Char
  stated : Record → Option Stated
  /-- Where the local header is that a record points at. -/
  placed : Bytes → Record → ℕ

/-- So many records, each with its signature. -/
def recordsAt : ℕ → Bytes → Option (List Record)
  | 0, _ => some []
  | n + 1, r =>
    if r.take 4 = central then
      match readRecord (r.drop 4) with
      | .error _ => none
      | .ok (record, r) => (recordsAt n r).map (record :: ·)
    else none

/-- A record that restates the local entry it points at opens as that entry, by its own name. -/
def Opened (crate : Crate) (format : Format) (view : Bytes) (r : Record)
    (slot : Except (List Char × String) ZipFile) : Prop :=
  ∀ f rest, crate.fromStream (view.drop (format.placed view r)) = .ok (some f, rest) →
    format.stated r = some f.toStated →
      ∃ d, slot = .ok { f with name := format.nameOf r, crc := r.crc, dataStart := d }
        ∧ (f.method = 0 → ∃ s, d = some s ∧ (view.drop s).take f.compressedSize = f.content)

/-- The crate reads entries off a stream up to the first directory signature, and an archive by the
directory that its last end record names. -/
structure Documented (crate : Crate) (format : Format) : Prop where
  ends : ∀ r rest, crate.fromStream r = .ok (none, rest) → r = central ++ rest
  takes : ∀ r f rest, crate.fromStream r = .ok (some f, rest) → rest <:+ r ∧ rest.length < r.length
  whole : ∀ r f rest, crate.fromStream r = .ok (some f, rest) → rest ≠ [] → f.method = 0 →
    f.content.length = f.compressedSize
  plain : ∀ r f rest, crate.fromStream r = .ok (some f, rest) → f.isFile → isDirName f.name = false
  opens : ∀ view start records, format.lastDirectory view = some (start, records.length) →
    recordsAt records.length (view.drop start) = some records → (records.map format.nameOf).Nodup →
    (∀ r ∈ records, (format.stated r).isSome) →
      ∃ slots, crate.archive view = .ok slots ∧ List.Forall₂ (Opened crate format view) records slots

/-! ### The walks -/

inductive Stop where
  | err (e : Err)
  | endless
  deriving DecidableEq

/-- The members found, and how the walk ended. -/
abbrev Listing := List Direct × Except Stop ℕ

/-- A member is walked; on its error the walk is left. -/
def handOn (child : Direct → Option Err) (d : Direct) (rest : Listing) : Listing :=
  match child d with
  | some e => ([d], .error (.err e))
  | none => (d :: rest.1, rest.2)

section

variable (crate : Crate) (path : String) (child : Direct → Option Err)

def retry (why : String) : Listing := ([], .error (.err (.retry why)))

def speculateFrom : ℕ → Bytes → ℕ → List (List Char × ℕ) → Listing
  | 0, _, _, _ => ([], .error .endless)
  | fuel + 1, r, children, streamed =>
    match crate.fromStream r with
    | .error e => retry s!"zip stream walk failed at {path}: {e}"
    | .ok (none, rest) =>
      match reconcileCentralDir rest streamed with
      | .ok true => ([], .ok children)
      | .ok false => retry s!"zip local headers disagree with the central directory in {path}"
      | .error e => retry s!"zip central directory unreadable in {path}: {e}"
    | .ok (some zf, rest) =>
      let streamed := if isDirName zf.name then streamed else streamed ++ [(zf.name, zf.crc)]
      if zf.isFile then
        handOn child (Cpio.streamed zf.name (some zf.size) zf.content)
          (speculateFrom fuel rest (children + 1) streamed)
      else speculateFrom fuel rest children streamed

/-- By the local headers; the children are counted. -/
def zipSpeculative (r : Bytes) : Listing := speculateFrom crate path child (r.length + 1) r 0 []

/-- Where a stored entry's bytes are. -/
def storedRange (f : ZipFile) : Option ℕ :=
  if f.method = 0 ∧ f.compressedSize = f.size then f.dataStart else none

def rangedMember (view : Bytes) (f : ZipFile) : Direct :=
  match storedRange f with
  | some start => Cpio.ranged f.name ((view.drop start).take f.size)
  | none => Cpio.streamed f.name (some f.size) f.content

/-- An entry that cannot be opened is named all the same. -/
def unreadable (name : List Char) : Direct := ⟨name, Cpio.leafOf name, [], some 0, .plain⟩

def rangedFrom (view : Bytes) : List (Except (List Char × String) ZipFile) → ℕ → Listing
  | [], children => ([], .ok children)
  | .error (name, _) :: slots, children =>
    (unreadable name :: (rangedFrom view slots children).1, (rangedFrom view slots children).2)
  | .ok f :: slots, children =>
    if f.isFile then handOn child (rangedMember view f) (rangedFrom view slots (children + 1))
    else rangedFrom view slots children

/-- By the directory. -/
def zipRanged (view : Bytes) : Listing :=
  match crate.archive view with
  | .error e => ([], .error (.err (.hard e)))
  | .ok slots => rangedFrom child view slots 0

end

/-! ### What acceptance is about -/

/-- The local entries up to the first directory signature, each with where it starts, and what follows
that signature. -/
def localEntries (crate : Crate) : ℕ → ℕ → Bytes → Option (List (ℕ × ZipFile) × Bytes)
  | 0, _, _ => none
  | fuel + 1, start, r =>
    match crate.fromStream r with
    | .error _ => none
    | .ok (none, rest) => some ([], rest)
    | .ok (some f, rest) =>
      (localEntries crate fuel (start + (r.length - rest.length)) rest).map
        fun x => ((start, f) :: x.1, x.2)

/-- The names and checksums of local entries, as they are compared. -/
def named (entries : List (ℕ × ZipFile)) : List (List Char × ℕ) :=
  (entries.filter fun x => !isDirName x.2.name).map fun x => (x.2.name, x.2.crc)

/-- What the comparison does not see: that the directory behind the local entries is the one that the
file's end names, and that its records, each name once, restate the local entries they point at, in the
order in which these stand. -/
structure Restates (format : Format) (view : Bytes) (entries : List (ℕ × ZipFile)) (after : Bytes)
    (records : List Record) : Prop where
  last : format.lastDirectory view = some (view.length - (after.length + 4), records.length)
  once : (records.map format.nameOf).Nodup
  ordered : (records.map (format.placed view)).Pairwise (· < ·)
  points : ∀ r ∈ records, ∃ f, entries.lookup (format.placed view r) = some f
    ∧ f.name = format.nameOf r ∧ f.name = Scan.lossy r.name ∧ format.stated r = some f.toStated

/-- What there is of a member: its name, the size that was stated and its bytes. -/
def shown (d : Direct) : List Char × Option ℕ × Bytes := (d.name, d.stated, d.content)

/-! ### The directory, read twice -/

theorem readExact_ok {r taken rest : Bytes} {n : ℕ} (h : readExact r n = .ok (taken, rest)) :
    r = taken ++ rest ∧ taken.length = n := by
  unfold readExact at h
  split_ifs at h with hn
  cases h
  exact ⟨(List.take_append_drop n r).symm, by rw [List.length_take]; omega⟩

/-- Records that are read up to the end are as many records from their first signature on. -/
theorem recordsAt_of_recordsFrom {fuel : ℕ} {r : Bytes} {records : List Record}
    (h : recordsFrom fuel r = .ok (some records)) : recordsAt records.length (central ++ r) = some records := by
  induction fuel generalizing r records with
  | zero => cases h
  | succ fuel ih =>
    rw [recordsFrom] at h
    cases hread : readRecord r with
    | error e => rw [hread] at h; cases h
    | ok x =>
      obtain ⟨record, r₁⟩ := x
      rw [hread] at h
      dsimp only at h
      have hone : ∀ n, recordsAt (n + 1) (central ++ r) = (recordsAt n r₁).map (record :: ·) := by
        intro n
        rw [recordsAt, if_pos (show (central ++ r).take 4 = central from rfl)]
        show (match readRecord r with
          | .error _ => none
          | .ok (record, r) => (recordsAt n r).map (record :: ·)) = _
        rw [hread]
      cases hsig : readExact r₁ 4 with
      | error e => rw [hsig] at h; cases h
      | ok y =>
        obtain ⟨sig, r₂⟩ := y
        rw [hsig] at h
        dsimp only at h
        split_ifs at h with hcentral hend
        · cases hrest : recordsFrom fuel r₂ with
          | error e => rw [hrest] at h; cases h
          | ok z =>
            rw [hrest] at h
            cases z with
            | none => cases h
            | some rest =>
              cases h
              rw [List.length_cons, hone, (readExact_ok hsig).1, hcentral, ih hrest]
              rfl
        · cases h
          exact hone 0
        · cases h

/-! ### Local entries -/

section

variable {crate : Crate} {format : Format}

theorem fromStream_nil (hcrate : Documented crate format) (x : Option ZipFile × Bytes) :
    crate.fromStream [] ≠ .ok x := by
  intro h
  obtain ⟨found, rest⟩ := x
  cases found with
  | none => exact absurd (hcrate.ends _ _ h) (by simp [central])
  | some f => exact absurd (hcrate.takes _ _ _ h).2 (Nat.not_lt_zero _)

/-- Where local entries stand, what they are, and what follows them. -/
structure Entries (crate : Crate) (view : Bytes) (start : ℕ) (entries : List (ℕ × ZipFile))
    (after : Bytes) : Prop where
  sorted : SortedMap.Sorted entries
  later : ∀ x ∈ entries, start ≤ x.1
  found : ∀ x ∈ entries, ∃ rest, rest ≠ [] ∧ crate.fromStream (view.drop x.1) = .ok (some x.2, rest)
  behind : central ++ after <:+ view

theorem localEntries_spec (hcrate : Documented crate format) {view : Bytes} {fuel start : ℕ} {r : Bytes}
    (hview : r = view.drop start) (hstart : start ≤ view.length) {entries : List (ℕ × ZipFile)}
    {after : Bytes} (h : localEntries crate fuel start r = some (entries, after)) :
    Entries crate view start entries after := by
  induction fuel generalizing start r entries with
  | zero => cases h
  | succ fuel ih =>
    rw [localEntries] at h
    cases hread : crate.fromStream r with
    | error e => rw [hread] at h; cases h
    | ok x =>
      obtain ⟨found, rest⟩ := x
      rw [hread] at h
      cases found with
      | none =>
        cases h
        refine ⟨List.Pairwise.nil, fun x hx => (nomatch hx), fun x hx => (nomatch hx), ?_⟩
        rw [← hcrate.ends _ _ hread, hview]
        exact List.drop_suffix start view
      | some f =>
        dsimp only at h
        obtain ⟨hsuffix, hlt⟩ := hcrate.takes _ _ _ hread
        have hlength : r.length = view.length - start := by rw [hview, List.length_drop]
        have hrest : rest = view.drop (start + (r.length - rest.length)) := by
          rw [← List.drop_drop, ← hview]
          exact List.suffix_iff_eq_drop.mp hsuffix
        cases hmore : localEntries crate fuel (start + (r.length - rest.length)) rest with
        | none => rw [hmore] at h; cases h
        | some y =>
          rw [hmore] at h
          cases h
          have hspec := ih hrest (by omega) hmore
          have hnonempty : rest ≠ [] := by
            intro hnil
            rw [hnil] at hmore
            cases fuel with
            | zero => cases hmore
            | succ fuel =>
              rw [localEntries] at hmore
              cases hnone : crate.fromStream [] with
              | error e => rw [hnone] at hmore; cases hmore
              | ok z => exact fromStream_nil hcrate z hnone
          refine ⟨List.pairwise_cons.mpr ⟨fun x hx => ?_, hspec.sorted⟩, fun x hx => ?_, fun x hx => ?_,
            hspec.behind⟩
          · have hle := hspec.later x hx
            show start < x.1
            omega
          · cases List.mem_cons.mp hx with
            | inl heq => rw [heq]
            | inr hin =>
              have hle := hspec.later x hin
              omega
          · cases List.mem_cons.mp hx with
            | inl heq =>
              rw [heq, ← hview]
              exact ⟨rest, hnonempty, hread⟩
            | inr hin => exact hspec.found x hin

/-- Where the directory starts that follows the entries. -/
theorem Entries.directory {view after : Bytes} {start : ℕ} {entries : List (ℕ × ZipFile)}
    (h : Entries crate view start entries after) :
    view.drop (view.length - (after.length + 4)) = central ++ after := by
  have hdrop := List.suffix_iff_eq_drop.mp h.behind
  rw [List.length_append, Nat.add_comm] at hdrop
  exact hdrop.symm

end

/-! ### The speculative walk -/

def files (entries : List (ℕ × ZipFile)) : List ZipFile := (entries.map Prod.snd).filter (·.isFile)

def streamedMember (f : ZipFile) : Direct := Cpio.streamed f.name (some f.size) f.content

section

variable {crate : Crate} {format : Format} {path : String} {child : Direct → Option Err}

theorem handOn_ok {d : Direct} {rest : Listing} {n : ℕ} (h : (handOn child d rest).2 = .ok n) :
    rest.2 = .ok n ∧ (handOn child d rest).1 = d :: rest.1 := by
  unfold handOn at h ⊢
  cases hchild : child d with
  | some e => rw [hchild] at h; cases h
  | none => rw [hchild] at h; exact ⟨h, rfl⟩

/-- **An accepted stream** has local entries, a directory that lists them, and their files as members. -/
theorem speculateFrom_ok {fuel start children n : ℕ} {r : Bytes} {streamed : List (List Char × ℕ)}
    (h : (speculateFrom crate path child fuel r children streamed).2 = .ok n) :
    ∃ entries after records, localEntries crate fuel start r = some (entries, after)
      ∧ recordsFrom after.length after = .ok (some records)
      ∧ listed records = streamed ++ named entries
      ∧ (speculateFrom crate path child fuel r children streamed).1 = (files entries).map streamedMember
      ∧ n = children + (files entries).length := by
  induction fuel generalizing start r children streamed with
  | zero => cases h
  | succ fuel ih =>
    rw [speculateFrom] at h ⊢
    rw [localEntries]
    cases hread : crate.fromStream r with
    | error e => rw [hread] at h; cases h
    | ok x =>
      obtain ⟨found, rest⟩ := x
      rw [hread] at h
      cases found with
      | none =>
        dsimp only at h ⊢
        unfold reconcileCentralDir at h ⊢
        cases hrecords : recordsFrom rest.length rest with
        | error e => rw [hrecords] at h; cases h
        | ok records =>
          rw [hrecords] at h
          cases records with
          | none => cases h
          | some records =>
            dsimp only at h ⊢
            by_cases hlisted : listed records = streamed
            · rw [decide_eq_true hlisted] at h ⊢
              cases h
              exact ⟨[], rest, records, rfl, hrecords, by rw [hlisted]; exact (List.append_nil _).symm, rfl, rfl⟩
            · rw [decide_eq_false hlisted] at h
              cases h
      | some f =>
        dsimp only at h ⊢
        have hnamed : ∀ entries : List (ℕ × ZipFile),
            (if isDirName f.name then streamed else streamed ++ [(f.name, f.crc)]) ++ named entries
              = streamed ++ named ((start, f) :: entries) := by
          intro entries
          unfold named
          cases hdir : isDirName f.name with
          | true => rw [if_pos rfl, List.filter_cons_of_neg (by rw [hdir]; simp)]
          | false =>
            rw [if_neg Bool.false_ne_true, List.filter_cons_of_pos (by rw [hdir]; rfl), List.append_assoc]
            rfl
        by_cases hfile : f.isFile = true
        · rw [if_pos hfile] at h ⊢
          obtain ⟨hok, hmembers⟩ := handOn_ok h
          obtain ⟨entries, after, records, hlocal, hrecords, hlisted, hrest, hcount⟩ :=
            @ih (start + (r.length - rest.length)) _ _ _ hok
          rw [hnamed] at hlisted
          have hfiles : files ((start, f) :: entries) = f :: files entries :=
            List.filter_cons_of_pos hfile
          refine ⟨(start, f) :: entries, after, records, by rw [hlocal]; rfl, hrecords, hlisted, ?_, ?_⟩
          · rw [hmembers, hrest, hfiles]
            rfl
          · rw [hcount, hfiles, List.length_cons]
            omega
        · rw [if_neg hfile] at h ⊢
          obtain ⟨entries, after, records, hlocal, hrecords, hlisted, hrest, hcount⟩ :=
            @ih (start + (r.length - rest.length)) _ _ _ h
          rw [hnamed] at hlisted
          have hfiles : files ((start, f) :: entries) = files entries := List.filter_cons_of_neg hfile
          refine ⟨(start, f) :: entries, after, records, by rw [hlocal]; rfl, hrecords, hlisted, ?_, ?_⟩
          · rw [hrest, hfiles]
          · rw [hcount, hfiles]

/-- Whatever is not accepted is walked anew, unless a member's descent has an error of its own. -/
theorem speculateFrom_error (hcrate : Documented crate format) {fuel children : ℕ} {r : Bytes}
    {streamed : List (List Char × ℕ)} (hfuel : r.length < fuel) {stop : Stop}
    (h : (speculateFrom crate path child fuel r children streamed).2 = .error stop) :
    (∃ why, stop = .err (.retry why)) ∨ ∃ d e, child d = some e ∧ stop = .err e := by
  induction fuel generalizing r children streamed with
  | zero => exact absurd hfuel (Nat.not_lt_zero _)
  | succ fuel ih =>
    rw [speculateFrom] at h
    cases hread : crate.fromStream r with
    | error e =>
      rw [hread] at h
      cases h
      exact .inl ⟨_, rfl⟩
    | ok x =>
      obtain ⟨found, rest⟩ := x
      rw [hread] at h
      cases found with
      | none =>
        dsimp only at h
        split at h
        · cases h
        · cases h
          exact .inl ⟨_, rfl⟩
        · cases h
          exact .inl ⟨_, rfl⟩
      | some f =>
        have hlt := (hcrate.takes _ _ _ hread).2
        dsimp only at h
        by_cases hfile : f.isFile = true
        · rw [if_pos hfile] at h
          unfold handOn at h
          split at h
          next e hchild =>
            cases h
            exact .inr ⟨_, e, hchild, rfl⟩
          next => exact ih (by omega) h
        · rw [if_neg hfile] at h
          exact ih (by omega) h

end

/-! ### Records and local entries -/

section

variable {crate : Crate} {format : Format} {view after : Bytes} {entries : List (ℕ × ZipFile)}
  {records : List Record}

/-- Ascending places, all among ascending starts and as many as these, are the starts. -/
theorem places_eq {places starts : List ℕ} (hplaces : places.Pairwise (· < ·))
    (hstarts : starts.Pairwise (· < ·)) (hin : ∀ p ∈ places, p ∈ starts)
    (hlength : places.length = starts.length) : places = starts := by
  have hnodup : places.Nodup := hplaces.imp ne_of_lt
  have hperm : places.Perm starts :=
    (List.subperm_of_subset hnodup hin).perm_of_length_le (by omega)
  exact hperm.eq_of_pairwise (fun a b _ _ hab hba => absurd hab (by omega)) hplaces hstarts

/-- What a record points at. -/
def pointed (format : Format) (view : Bytes) (entries : List (ℕ × ZipFile)) (r : Record) : Option ZipFile :=
  entries.lookup (format.placed view r)

/-- **The entries that are compared**, found by their records: none is missing, and none in another
place. -/
theorem compared_eq (hentries : Entries crate view 0 entries after)
    (hrestates : Restates format view entries after records) (hlisted : listed records = named entries) :
    (records.filter fun r => !isDirName (Scan.lossy r.name)).filterMap (pointed format view entries)
      = (entries.filter fun x => !isDirName x.2.name).map Prod.snd := by
  have hplaces : (records.filter fun r => !isDirName (Scan.lossy r.name)).map (format.placed view)
      = (entries.filter fun x => !isDirName x.2.name).map Prod.fst := by
    apply places_eq
    · exact hrestates.ordered.sublist (List.filter_sublist.map _)
    · exact (List.pairwise_map.mpr hentries.sorted).sublist (List.filter_sublist.map _)
    · intro p hp
      obtain ⟨r, hr, rfl⟩ := List.mem_map.mp hp
      obtain ⟨hmem, hname⟩ := List.mem_filter.mp hr
      obtain ⟨f, hlookup, -, hlossy, -⟩ := hrestates.points r hmem
      refine List.mem_map.mpr ⟨(format.placed view r, f), List.mem_filter.mpr ⟨?_, ?_⟩, rfl⟩
      · exact SortedMap.mem_of_lookup hlookup
      · dsimp only
        rw [hlossy]
        exact hname
    · have hcount := congrArg List.length hlisted
      unfold listed named at hcount
      rw [List.length_map, List.length_map] at hcount
      rw [List.length_map, List.length_map, hcount]
  have hfound : ((entries.filter fun x => !isDirName x.2.name).map Prod.fst).filterMap
      (fun p => entries.lookup p) = (entries.filter fun x => !isDirName x.2.name).map Prod.snd := by
    rw [List.filterMap_map]
    apply List.filterMap_eq_map_iff_forall_eq_some.mpr
    intro x hx
    exact SortedMap.lookup_of_mem hentries.sorted (List.mem_filter.mp hx).1
  rw [← hfound, ← hplaces, List.filterMap_map]
  rfl

/-- What is left out of the comparison is no file. -/
theorem filter_files {α : Type} (skip : α → Bool) (g : α → Option ZipFile) (xs : List α)
    (h : ∀ x ∈ xs, skip x = true → ∀ f, g x = some f → f.isFile = false) :
    ((xs.filter fun x => !skip x).filterMap g).filter (fun f => f.isFile)
      = (xs.filterMap g).filter (fun f => f.isFile) := by
  induction xs with
  | nil => rfl
  | cons x xs ih =>
    have hrest := ih fun y hy => h y (List.mem_cons_of_mem x hy)
    cases hskip : skip x with
    | false =>
      rw [List.filter_cons_of_pos (by rw [hskip]; rfl), List.filterMap_cons, List.filterMap_cons]
      cases hg : g x with
      | none => exact hrest
      | some f =>
        dsimp only
        rw [List.filter_cons, List.filter_cons, hrest]
    | true =>
      rw [List.filter_cons_of_neg (by rw [hskip]; simp), List.filterMap_cons]
      cases hg : g x with
      | none => exact hrest
      | some f =>
        dsimp only
        rw [List.filter_cons_of_neg (by rw [h x List.mem_cons_self hskip f hg]; simp), hrest]

theorem plain_of_mem (hcrate : Documented crate format) (hentries : Entries crate view 0 entries after)
    {x : ℕ × ZipFile} (hx : x ∈ entries) (hdir : isDirName x.2.name = true) : x.2.isFile = false := by
  obtain ⟨rest, -, hread⟩ := hentries.found x hx
  cases hfile : x.2.isFile with
  | false => rfl
  | true =>
    rw [hcrate.plain _ _ _ hread hfile] at hdir
    cases hdir

/-- The files of a restated directory are those of the local entries. -/
theorem files_eq (hcrate : Documented crate format) (hentries : Entries crate view 0 entries after)
    (hrestates : Restates format view entries after records) (hlisted : listed records = named entries) :
    (records.filterMap (pointed format view entries)).filter (fun f => f.isFile) = files entries := by
  have hrecords := filter_files (fun r => isDirName (Scan.lossy r.name)) (pointed format view entries)
    records fun r hr hdir f hf => by
      obtain ⟨f', hlookup, -, hlossy, -⟩ := hrestates.points r hr
      obtain rfl : f' = f := Option.some.inj (hlookup.symm.trans hf)
      exact plain_of_mem hcrate hentries (SortedMap.mem_of_lookup hlookup) (by
        dsimp only
        rw [hlossy]
        exact hdir)
  have hlocal := filter_files (fun x : ℕ × ZipFile => isDirName x.2.name) (fun x => some x.2) entries
    fun x hx hdir f hf => by
      cases hf
      exact plain_of_mem hcrate hentries hx hdir
  rw [← hrecords, compared_eq hentries hrestates hlisted]
  unfold files
  rw [← List.filterMap_eq_map]
  exact hlocal

/-! ### The walk by the directory -/

theorem shown_rangedMember {f g : ZipFile} {name : List Char} {crc : ℕ} {d : Option ℕ}
    (hg : g = { f with name := name, crc := crc, dataStart := d })
    (hstored : f.method = 0 → ∃ s, d = some s ∧ (view.drop s).take f.compressedSize = f.content)
    (hwhole : f.method = 0 → f.content.length = f.compressedSize) :
    shown (rangedMember view g) = (name, some f.size, f.content) := by
  unfold rangedMember storedRange
  rw [hg]
  dsimp only
  by_cases hrange : f.method = 0 ∧ f.compressedSize = f.size
  · obtain ⟨s, hd, hcontent⟩ := hstored hrange.1
    rw [if_pos hrange, hd]
    dsimp only
    rw [← hrange.2, hcontent, ← hwhole hrange.1]
    rfl
  · rw [if_neg hrange]
    rfl

/-- Every slot is the entry that its record points at, and the files among them are the members. -/
theorem rangedFrom_spec {child : Direct → Option Err} (hcrate : Documented crate format)
    (hchild : ∀ d, child d = none) (hentries : Entries crate view 0 entries after)
    {slots : List (Except (List Char × String) ZipFile)}
    (hslots : List.Forall₂ (Opened crate format view) records slots)
    (hpoints : ∀ r ∈ records, ∃ f, entries.lookup (format.placed view r) = some f
      ∧ f.name = format.nameOf r ∧ f.name = Scan.lossy r.name ∧ format.stated r = some f.toStated)
    (children : ℕ) :
    (rangedFrom child view slots children).1.map shown
        = ((records.filterMap (pointed format view entries)).filter (fun f => f.isFile)).map
          (fun f => (f.name, some f.size, f.content))
      ∧ (rangedFrom child view slots children).2 = .ok (children
        + ((records.filterMap (pointed format view entries)).filter (fun f => f.isFile)).length) := by
  induction hslots generalizing children with
  | nil => exact ⟨rfl, rfl⟩
  | @cons r slot records slots hopened _ ih =>
    have hrest := ih fun r' hr' => hpoints r' (List.mem_cons_of_mem r hr')
    obtain ⟨f, hlookup, hname, -, hstated⟩ := hpoints r List.mem_cons_self
    obtain ⟨rest, hnonempty, hread⟩ := hentries.found _ (SortedMap.mem_of_lookup hlookup)
    obtain ⟨d, hslot, hstored⟩ := hopened f rest hread hstated
    rw [hslot, List.filterMap_cons, pointed, hlookup]
    dsimp only
    rw [rangedFrom]
    dsimp only
    cases hfile : f.isFile with
    | false =>
      rw [if_neg Bool.false_ne_true, List.filter_cons_of_neg (by rw [hfile]; simp)]
      exact hrest children
    | true =>
      obtain ⟨hmembers, hok⟩ := hrest (children + 1)
      rw [if_pos rfl, List.filter_cons, if_pos hfile, handOn, hchild, List.map_cons, List.map_cons,
        List.length_cons, hok, hmembers,
        shown_rangedMember rfl hstored (hcrate.whole _ _ _ hread hnonempty), ← hname]
      refine ⟨rfl, congrArg Except.ok ?_⟩
      omega

end

/-! ### What acceptance says -/

def localHeader : Bytes := [0x50, 0x4B, 0x03, 0x04]

/-- Where the data is of a local entry. -/
def dataAt (r : Bytes) : ℕ := 30 + le16 r 26 + le16 r 28

def storedFile (r : Bytes) : ZipFile where
  name := Scan.lossy ((r.drop 30).take (le16 r 26))
  crc := le32 r 14
  compressedSize := le32 r 18
  size := le32 r 22
  method := 0
  encrypted := false
  isFile := !isDirName (Scan.lossy ((r.drop 30).take (le16 r 26)))
  dataStart := none
  content := (r.drop (dataAt r)).take (le32 r 18)

def storedStream (r : Bytes) : Except String (Option ZipFile × Bytes) :=
  if r.take 4 = central then .ok (none, r.drop 4)
  else if r.take 4 = localHeader ∧ le16 r 6 = 0 ∧ le16 r 8 = 0 then
    .ok (some (storedFile r), r.drop (dataAt r + le32 r 18))
  else .error "Invalid local file header"

def lastEnd (view : Bytes) : Option ℕ :=
  (List.range view.length).reverse.find? fun i => (view.drop i).take 4 = eocd

/-- Records without flags and without compression.  The directory stands right before the end record, and
offsets are from where the archive then starts. -/
def storedFormat : Format where
  lastDirectory view := (lastEnd view).map fun i => (i - le32 (view.drop i) 12, le16 (view.drop i) 10)
  nameOf r := Scan.lossy r.name
  stated r :=
    if le16 r.fields 4 = 0 ∧ le16 r.fields 6 = 0 then
      some ⟨le32 r.fields 20, le32 r.fields 16, 0, false, !isDirName (Scan.lossy r.name)⟩
    else none
  placed view r := match lastEnd view with
    | none => le32 r.fields 38
    | some i => i - le32 (view.drop i) 12 - le32 (view.drop i) 16 + le32 r.fields 38

def openStored (view : Bytes) (r : Record) : Except (List Char × String) ZipFile :=
  match storedFormat.stated r with
  | none => .error (storedFormat.nameOf r, "Compression method not supported")
  | some stated =>
    let start := storedFormat.placed view r + dataAt (view.drop (storedFormat.placed view r))
    .ok ⟨stated, storedFormat.nameOf r, r.crc, some start, (view.drop start).take stated.compressedSize⟩

/-- A crate that knows stored entries only. -/
def storedCrate : Crate where
  fromStream := storedStream
  archive view :=
    match storedFormat.lastDirectory view with
    | none => .error "Could not find EOCD"
    | some (start, count) =>
      match recordsAt count (view.drop start) with
      | none => .error "Invalid Central Directory header"
      | some records => .ok (records.map (openStored view))

theorem storedStream_some {r rest : Bytes} {f : ZipFile} (h : storedStream r = .ok (some f, rest)) :
    r.take 4 = localHeader ∧ f = storedFile r ∧ rest = r.drop (dataAt r + le32 r 18) := by
  unfold storedStream at h
  split_ifs at h with hcentral hlocal
  · cases h
  · cases h
    exact ⟨hlocal.1, rfl, rfl⟩

theorem openStored_opened (view : Bytes) (r : Record) :
    Opened storedCrate storedFormat view r (openStored view r) := by
  intro f rest hread hstated
  obtain ⟨-, hf, -⟩ := storedStream_some hread
  have hcontent : (view.drop (storedFormat.placed view r
      + dataAt (view.drop (storedFormat.placed view r)))).take f.compressedSize = f.content := by
    rw [hf, ← List.drop_drop]
    rfl
  refine ⟨some _, ?_, fun _ => ⟨_, rfl, hcontent⟩⟩
  unfold openStored
  rw [hstated]
  dsimp only
  rw [hcontent]

theorem storedCrate_documented : Documented storedCrate storedFormat where
  ends := by
    intro r rest h
    unfold storedCrate storedStream at h
    dsimp only at h
    split_ifs at h with hcentral
    · cases h
      rw [← hcentral, List.take_append_drop]
    · cases h
  takes := by
    intro r f rest h
    obtain ⟨hsig, -, hrest⟩ := storedStream_some h
    have hlength : 0 < r.length := by
      rw [List.length_pos_iff]
      intro hnil
      rw [hnil] at hsig
      cases hsig
    rw [hrest]
    refine ⟨List.drop_suffix _ _, ?_⟩
    rw [List.length_drop]
    unfold dataAt
    omega
  whole := by
    intro r f rest h hne _
    obtain ⟨-, hf, hrest⟩ := storedStream_some h
    have hlength : dataAt r + le32 r 18 < r.length := by
      by_contra hle
      exact hne (by rw [hrest, List.drop_eq_nil_of_le (by omega)])
    rw [hf]
    show ((r.drop (dataAt r)).take (le32 r 18)).length = le32 r 18
    rw [List.length_take, List.length_drop]
    omega
  plain := by
    intro r f rest h hfile
    obtain ⟨-, hf, -⟩ := storedStream_some h
    rw [hf] at hfile ⊢
    exact (Bool.not_eq_true' _).mp hfile
  opens := by
    intro view start records hdirectory hrecords _ _
    refine ⟨records.map (openStored view), ?_, ?_⟩
    · unfold storedCrate
      dsimp only
      rw [hdirectory]
      dsimp only
      rw [hrecords]
    · rw [List.forall₂_map_right_iff]
      exact List.forall₂_same.mpr fun r _ => openStored_opened view r

def localEntry (name data : Bytes) (crc : ℕ) : Bytes :=
  localHeader ++ leBytes 2 10 ++ leBytes 8 0 ++ leBytes 4 crc ++ leBytes 4 data.length
    ++ leBytes 4 data.length ++ leBytes 2 name.length ++ leBytes 2 0 ++ name ++ data

def centralRecord (name : Bytes) (crc size offset : ℕ) : Bytes :=
  central ++ leBytes 2 20 ++ leBytes 2 10 ++ leBytes 8 0 ++ leBytes 4 crc ++ leBytes 4 size
    ++ leBytes 4 size ++ leBytes 2 name.length ++ leBytes 12 0 ++ leBytes 4 offset ++ name

def endRecord (count size offset : ℕ) : Bytes :=
  eocd ++ leBytes 4 0 ++ leBytes 2 count ++ leBytes 2 count ++ leBytes 4 size ++ leBytes 4 offset
    ++ leBytes 2 0

/-- One stored entry, whose record states `size`. -/
def archiveOf (name data : Bytes) (crc size : ℕ) : Bytes :=
  localEntry name data crc ++ centralRecord name crc size 0
    ++ endRecord 1 (centralRecord name crc size 0).length (localEntry name data crc).length

def single : Bytes := archiveOf [97] [120] 0x8CDC1683 1

end Zip

end Hashdex
