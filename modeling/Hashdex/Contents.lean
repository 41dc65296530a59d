import Mathlib
import Hashdex.Sniff

/-!
# What a descent gives

The members below a container in tree order, each with the path, the kind, the size, the digests and
the note it is shown with.  What the parsers find in a byte string is a parameter; what is made of it
depends on the names, on the policy, on how a member is reached, and on the workers of a squashfs.

* `Level.next`: how a member is visited, given how the members in it are
* `walkRoot`, `descendWithin`: the two ways in
-/

namespace Hashdex

namespace Replay

open Descent

/-! ### Names -/

/-- The suffixes of compressed files, and what takes their place. -/
def suffixes : Kind → List (String × String)
  | .gzip => [(".tgz", ".tar"), (".gz", "")]
  | .xz => [(".txz", ".tar"), (".xz", "")]
  | .zstd => [(".tzst", ".tar"), (".zst", "")]
  | .bzip2 => [(".tbz2", ".tar"), (".tbz", ".tar"), (".bz2", "")]
  | _ => []

/-- What a wrapper's decompressed child is called. -/
def unwrappedName (name : List Char) (kind : Kind) : List Char :=
  match (suffixes kind).find? fun s => endsWith name s.1.toList with
  | some (suffix, replacement) => name.take (name.length - suffix.length) ++ replacement.toList
  | none => name ++ "~unpacked".toList

/-! ### What the parsers find -/

/-- An entry: its path in the container, the name it is sniffed with, how the container holds it, the
place of its data in the image, how much of a stream is through when the walk is left on its error, and
its bytes. -/
structure Entry where
  name : List Char
  leaf : List Char
  how : How
  rank : ℕ
  pulled : ℕ
  source : Source

structure Listing where
  entries : List Entry
  stop : Descent.Stop
  pulled : ℕ

/-- The decoders, the parsers of streams and of views, and the digests of a member's bytes, the stated
length being in the git preimage. -/
structure Parsers (D : Type) where
  decoded : Kind → Source → Source
  streamed : Kind → Source → Listing
  viewed : Kind → Source → Listing
  mint : Option ℕ → Bytes → D

/-- The workers on a batch of squashfs files when one of these fails: how many more of the batch they
have taken by then, and which of the errors comes first.  It is asked by the image's place in the tree
and whether the walk is conservative. -/
structure Schedule where
  more : List ℕ → Bool → ℕ
  blamed : List ℕ → Bool → ℕ

/-! ### What is seen of a member -/

structure Shown (D : Type) where
  path : List Char
  depth : ℕ
  kind : String
  size : ℕ
  digests : Option D
  children : ℕ
  note : Option String
  deriving DecidableEq

/-- `named` tells that the note names the path of the file descended into; the code does not record
it. -/
structure Seen (D : Type) extends Shown D where
  named : Bool

/-- A member visited: what there is of it and below it, how often the cap was asked, and its error. -/
structure Visit (D : Type) where
  members : List (Seen D)
  calls : ℕ
  error : Option Err

/-- What there is below a container. -/
structure Inside (D : Type) where
  members : List (Seen D)
  calls : ℕ
  walked : Walked
  named : Bool

def Inside.nothing {D : Type} : Inside D := ⟨[], 0, .ended 0 .done 0, false⟩

/-- Where a member is: its path, its depth, its place in the tree, and the size its container states. -/
structure Spot where
  path : List Char
  depth : ℕ
  place : List ℕ
  stated : Option ℕ

/-- `{path}!{name}`. -/
def Spot.child (spot : Spot) (i : ℕ) (name : List Char) (stated : Option ℕ) : Spot :=
  ⟨spot.path ++ '!' :: name, spot.depth + 1, i :: spot.place, stated⟩

section

variable {D : Type} (P : Parsers D)

/-- `meta.close`: on an error the member keeps its kind, but neither children nor note. -/
def closeMeta (spot : Spot) (kind : Kind) (pushed : Bytes) (inside : Inside D)
    (r : Except Err (ℕ × Option String)) : Visit D :=
  let member (children : ℕ) (note : Option String) (named : Bool) : Seen D :=
    ⟨⟨spot.path, spot.depth, kind.label, pushed.length, some (P.mint spot.stated pushed), children,
      note⟩, named⟩
  match r with
  | .ok (children, note) => ⟨member children note inside.named :: inside.members, inside.calls + 1, none⟩
  | .error e => ⟨member 0 none false :: inside.members, inside.calls + 1, some e⟩

/-! ### A member -/

/-- A scan does not spool wrappers; depths count from the container. -/
def scanning (policy : Policy) : Config := ⟨policy, 0, false, fun _ => ⟨false, 0, false⟩⟩

/-- The retry boundary: what a misbehaved zip below made of the attempt is discarded, and it is made
again conservatively. -/
def retrying (kind : Kind) (attempt : Bool → Inside D) (conservative : Bool) :
    Inside D × Except Err (ℕ × Option String) :=
  let first := attempt conservative
  match viewResult kind first.walked with
  | .error (.retry why) =>
    if conservative then (first, .error (.retry why))
    else
      let again := attempt true
      ({ again with calls := first.calls + again.calls }, viewResult kind again.walked)
  | r => (first, r)

def nestedTooDeep (tooDeep : Bool) (kind : Kind) : Bool := tooDeep && kind.hasEntries

/-- `run_member`. -/
def runMember (policy : Policy) (tooDeep conservative : Bool) (spot : Spot) (source : Source)
    (kind : Kind) (arms : Inside D) (attempt : Bool → Inside D) : Visit D :=
  if source.opens = false then
    closeMeta P spot .plain [] Inside.nothing (.error (.hard (source.error.getD "")))
  else if nestedTooDeep tooDeep kind then
    closeMeta P spot kind source.bytes Inside.nothing (.ok (0, some tooDeepNote))
  else if policy.enters kind = false ∧ kind ≠ .plain then
    closeMeta P spot kind source.bytes Inside.nothing (.ok (0, none))
  else if spools (scanning policy) conservative kind then
    match source.error with
    | some e => closeMeta P spot kind source.bytes Inside.nothing (.error (.hard e))
    | none =>
      let (inside, r) := retrying kind attempt conservative
      closeMeta P spot kind source.bytes inside r
  else
    let (pushed, r) := streamResult kind source.bytes arms.walked
    closeMeta P spot kind pushed arms r

/-- A read that fails in the middle leaves a note. -/
def readNote (source : Source) (note : Option String) : Option String :=
  match source.error, note with
  | none, note => note
  | some e, some note => some s!"read failed mid-member: {e}; {note}"
  | some e, none => some s!"read failed mid-member: {e}"

/-- `process_ranged`. -/
def processRanged (policy : Policy) (tooDeep conservative : Bool) (spot : Spot) (source : Source)
    (kind : Kind) (attempt : Bool → Inside D) : Visit D :=
  let sealed (inside : Inside D) (r : Except Err (ℕ × Option String)) :=
    closeMeta P spot kind source.bytes inside (r.map fun x => (x.1, readNote source x.2))
  if source.opens = false ∨ source.probes kind (spot.stated.getD 0) = false then
    ⟨[], 1, some (.hard (source.error.getD ""))⟩
  else if nestedTooDeep tooDeep kind then sealed Inside.nothing (.ok (0, some tooDeepNote))
  else if policy.enters kind = false ∧ kind ≠ .plain then sealed Inside.nothing (.ok (0, none))
  else
    let (inside, r) := retrying kind attempt conservative
    sealed inside r

/-! ### The entries of a container -/

abbrev Visitor (D : Type) := Bool → Spot → List Char → Source → Visit D

/-- How members are visited that flow by, and that lie in a view. -/
structure Level (D : Type) where
  stream : Visitor D
  range : Visitor D

/-- A zip entry that cannot be opened is named all the same. -/
def closedEntry (spot : Spot) (note : String) : Visit D :=
  ⟨[⟨⟨spot.path, spot.depth, Kind.plain.label, 0, some (P.mint spot.stated []), 0,
    some s!"unreadable zip member: {note}"⟩, false⟩], 1, none⟩

def visitEntry (below : Level D) (spot : Spot) (conservative : Bool) (i : ℕ) (e : Entry) : Visit D :=
  match e.how with
  | .closed note => closedEntry P (spot.child i e.name (some 0)) note
  | .range len => below.range conservative (spot.child i e.name (some len)) e.leaf e.source
  | .stream stated => below.stream conservative (spot.child i e.name stated) e.leaf e.source
  | .item _ stated => below.stream conservative (spot.child i e.name (some stated)) e.leaf e.source

def How.counts : How → ℕ
  | .closed _ => 0
  | _ => 1

/-- One entry after the other, up to the first error. -/
def walkEntries (visit : ℕ → Entry → Visit D) (stop : Descent.Stop) (pulled : ℕ) :
    ℕ → ℕ → List Entry → Inside D
  | _, children, [] => ⟨[], 0, .ended children stop pulled, false⟩
  | i, children, e :: rest =>
    let v := visit i e
    match v.error with
    | some err =>
      ⟨v.members, v.calls, .failed (children + How.counts e.how) err e.pulled !rest.isEmpty, false⟩
    | none =>
      let w := walkEntries visit stop pulled (i + 1) (children + How.counts e.how) rest
      ⟨v.members ++ w.members, v.calls + w.calls, w.walked, false⟩

/-- A file of a squashfs or of a packed erofs is a retry boundary of its own. -/
def retryItem (run : Bool → Visit D) (conservative : Bool) : Visit D :=
  let first := run conservative
  match first.error with
  | some (.retry _) =>
    if conservative then first
    else
      let again := run true
      { again with calls := first.calls - 1 + again.calls }
  | _ => first

def batches (entries : List Entry) : List (List (Entry × ℕ)) :=
  entries.zipIdx.splitBy fun _ y => !y.1.how.startsBatch

/-- The files of a squashfs, batch by batch: after the first error those that no worker took are
dropped. -/
def walkBatches (visit : ℕ → Entry → Visit D) (stop : Descent.Stop) (more blamed : ℕ) :
    ℕ → List (List (Entry × ℕ)) → Inside D
  | children, [] => ⟨[], 0, .ended children stop 0, false⟩
  | children, batch :: rest =>
    let visits := batch.map fun x => visit x.2 x.1
    match visits.findIdx? (·.error.isSome) with
    | some first =>
      let taken := visits.take (first + 1 + more)
      let errors := taken.filterMap (·.error)
      ⟨taken.flatMap (·.members), (taken.map (·.calls)).sum + (visits.length - taken.length),
        .failed (children + taken.length) (errors.getD (blamed % errors.length) (.hard "")) 0 true, false⟩
    | none =>
      let w := walkBatches visit stop more blamed (children + visits.length) rest
      ⟨visits.flatMap (·.members) ++ w.members, (visits.map (·.calls)).sum + w.calls, w.walked, false⟩

def How.ranged : How → Bool
  | .range _ => true
  | _ => false

/-- What a packed file that cannot be read leaves in the notes. -/
def packedNote (path name : List Char) (e : Err) : String :=
  String.ofList (path ++ '!' :: name) ++ ": " ++ errText e

/-- The errors of the packed files, in the order of their data. -/
def packedErrors (packed : List (Entry × Option Err)) : List (List Char × Err) :=
  (packed.insertionSort fun x y => x.1.rank ≤ y.1.rank).filterMap fun x => x.2.map fun e => (x.1.name, e)

/-- Over an erofs: the flat files first, then the packed ones, whose errors are notes. -/
def walkErofs (visit : ℕ → Entry → Visit D) (stop : Descent.Stop) (path : List Char) (entries : List Entry) :
    Inside D :=
  let visits := entries.zipIdx.map fun x => (x.1, visit x.2 x.1)
  match visits.findIdx? fun x => How.ranged x.1.how && x.2.error.isSome with
  | some first =>
    let tried := visits.take (first + 1)
    let flat := tried.filter fun x => How.ranged x.1.how
    let e := (flat.getLast?.bind (·.2.error)).getD (.hard "")
    ⟨flat.flatMap (·.2.members), (flat.map (·.2.calls)).sum + (tried.length - flat.length),
      .failed flat.length (e.withNotes stop) 0 true, false⟩
  | none =>
    let packed := (visits.filter fun x => !How.ranged x.1.how).map fun x => (x.1, x.2.error)
    let texts := (packedErrors packed).map fun x => packedNote path x.1 x.2
    let ended (stop : Descent.Stop) (named : Bool) : Inside D :=
      ⟨visits.flatMap (·.2.members), (visits.map (·.2.calls)).sum, .ended visits.length stop 0, named⟩
    match stop with
    | .done => ended (.notes texts) !texts.isEmpty
    | .notes before => ended (.notes (before ++ texts)) (before.length < 4 && !texts.isEmpty)
    | .error what => ended (.error what) false

/-- What is found in a container: a wrapper holds one child, named after the wrapper. -/
def Parsers.list (parse : Kind → Source → Listing) (leaf : List Char) (kind : Kind) (source : Source) :
    Listing :=
  if kind.wraps then
    let child := unwrappedName leaf kind
    ⟨[⟨child, child, .stream none, 0, 0, P.decoded kind source⟩], .done, 0⟩
  else parse kind source

/-- `stream_arms`. -/
def insideStream (below : Level D) (spot : Spot) (leaf : List Char) (kind : Kind) (source : Source)
    (conservative : Bool) : Inside D :=
  if kind.hasEntries then
    let found := P.list P.streamed leaf kind source
    walkEntries (visitEntry P below spot conservative) found.stop found.pulled 0 0 found.entries
  else Inside.nothing

/-- `descend_seekable`. -/
def insideView (threads : Schedule) (below : Level D) (spot : Spot) (leaf : List Char) (kind : Kind)
    (source : Source) (conservative : Bool) : Inside D :=
  let found := P.list P.viewed leaf kind source
  let visit := visitEntry P below spot
  let item (i : ℕ) (e : Entry) := retryItem (fun c => visit c i e) conservative
  match kind with
  | .plain | .sevenZ => Inside.nothing
  | .squashFs =>
    walkBatches item found.stop (threads.more spot.place conservative)
      (threads.blamed spot.place conservative) 0 (batches found.entries)
  | .erofs =>
    walkErofs (fun i e => if How.ranged e.how then visit conservative i e else item i e) found.stop
      spot.path found.entries
  | _ => walkEntries (visit conservative) found.stop found.pulled 0 0 found.entries

/-! ### The walk -/

variable (threads : Schedule) (policy : Policy)

/-- A level, given the one below it. -/
def Level.next (tooDeep : Bool) (below : Level D) : Level D where
  stream conservative spot leaf source :=
    let kind := streamedKind source.bytes leaf
    runMember P policy tooDeep conservative spot source kind
      (insideStream P below spot leaf kind source conservative)
      (insideView P threads below spot leaf kind source)
  range conservative spot leaf source :=
    let kind := rangedKind source.bytes leaf
    processRanged P policy tooDeep conservative spot source kind
      (insideView P threads below spot leaf kind source)

/-- Nothing is visited below the last level. -/
def Level.none : Level D := ⟨fun _ _ _ _ => ⟨[], 0, .none⟩, fun _ _ _ _ => ⟨[], 0, .none⟩⟩

/-- The level with so many containers still to be nested in it before `MAX_DEPTH`. -/
def level : ℕ → Level D
  | 0 => Level.next P threads policy true Level.none
  | left + 1 => Level.next P threads policy false (level left)

/-- What a descent gives: what the container is taken for, what is said of it, and what is below it. -/
structure Outcome (D : Type) where
  kind : Kind
  children : ℕ
  note : Option String
  named : Bool
  members : List (Seen D)
  calls : ℕ

/-- A walk in which the cap on the members is hit is cut short somewhere, and never stored. -/
def maxMembers : ℕ := 1000000

/-- A container in a file that can be read, walked under its path. -/
def descendFile (path : List Char) (depth : ℕ) (name : List Char) (bytes : Bytes) (kind : Kind) :
    Inside D × Except Err (ℕ × Option String) :=
  retrying kind
    (insideView P threads (level P threads policy (maxDepth - 1)) ⟨path, depth, [], some bytes.length⟩ name
      kind ⟨bytes, .none⟩) false

/-- `walk_root`: a file named, which is a member of its own walk. -/
def walkRoot (path name : List Char) (bytes : Bytes) : Option (Outcome D) :=
  let kind := rangedKind bytes name
  match descendFile P threads .full path 0 name bytes kind with
  | (inside, .ok (children, note)) =>
    some ⟨kind, children, note, inside.named, inside.members, inside.calls + 1⟩
  | (_, .error _) => .none

/-- `descend_within`: a file that a scan came to.  It is not probed for FAT. -/
def descendWithin (path : List Char) (depth : ℕ) (name : List Char) (bytes : Bytes) : Outcome D :=
  let kind := probeIso bytes (streamedKind bytes name)
  if kind = .plain then ⟨.plain, 0, .none, false, [], 0⟩
  else if policy.enters kind = false then ⟨kind, 0, .none, false, [], 0⟩
  else
    match descendFile P threads policy path depth name bytes kind with
    | (inside, .ok (children, note)) =>
      ⟨kind, children, note, inside.named, inside.members, inside.calls⟩
    | (inside, .error e) =>
      ⟨kind, 0, some s!"descent failed: {errText e}", false, [], inside.calls⟩

end

end Replay

end Hashdex
