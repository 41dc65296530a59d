import Hashdex.Hex

/-!
# The descent into a container

What the parsers find in a container is a tree; the walk allocates a member slot for each thing it
finds, hashes its bytes, and goes on inside.  Nested errors end walks, or become notes; a zip that
turns out misbehaved makes the next boundary above it discard what it has and start again.

* `walkRoot`, `descendWithin`: the two ways in
* `processStream`, `processRanged`: a member whose bytes flow by, or lie in a view
* `descendRetrying`: the retry boundary
-/

namespace Hashdex

namespace Descent

/-! ### Kinds -/

inductive Kind
  | gzip | xz | zstd | bzip2 | tar | zip | ar | rpm | cpio
  | squashFs | erofs | sevenZ | iso | fat | plain
  deriving DecidableEq

def Kind.label : Kind → String
  | .gzip => "gzip"
  | .xz => "xz"
  | .zstd => "zstd"
  | .bzip2 => "bzip2"
  | .tar => "tar"
  | .zip => "zip"
  | .ar => "ar"
  | .rpm => "rpm"
  | .cpio => "cpio"
  | .squashFs => "squashfs"
  | .erofs => "erofs"
  | .sevenZ => "7z"
  | .iso => "iso9660"
  | .fat => "fat"
  | .plain => "file"

def Kind.wraps : Kind → Bool
  | .gzip | .xz | .zstd | .bzip2 => true
  | _ => false

/-- Whether there is something to walk in it. -/
def Kind.hasEntries : Kind → Bool
  | .plain | .sevenZ => false
  | _ => true

/-- How far a walk follows containers. -/
inductive Policy
  | none
  | cheap
  | full
  deriving DecidableEq

def Policy.enters : Policy → Kind → Bool
  | .none, _ => false
  | .full, _ => true
  | .cheap, .tar | .cheap, .zip | .cheap, .ar | .cheap, .cpio | .cheap, .squashFs
  | .cheap, .erofs | .cheap, .iso | .cheap, .fat => true
  | .cheap, _ => false

def maxDepth : ℕ := 16

/-- The bytes sniffed. -/
def headLen : ℕ := 2048

/-- `RetryConservative`, or any other error. -/
inductive Err
  | retry (why : String)
  | hard (what : String)
  deriving DecidableEq

/-- `swallow`: errors become notes, but for the retry marker. -/
def swallow (r : Except Err (ℕ × Option String)) (children : ℕ) (what : String) :
    Except Err (ℕ × Option String) :=
  match r with
  | .error (.hard e) => .ok (children, some s!"{what}: {e}")
  | r => r

/-! ### What there is to find -/

/-- The bytes a reader delivers, and the error that may come where the end would be. -/
structure Source where
  bytes : Bytes
  error : Option String
  deriving DecidableEq

/-- Whether the head can be read. -/
def Source.opens (s : Source) : Bool := s.error.isNone || headLen ≤ s.bytes.length

/-- Whether the place of iso9660's magic can be read, where that is looked for. -/
def Source.probes (s : Source) (viewKind : Kind) (len : ℕ) : Bool :=
  s.error.isNone || !(viewKind = .plain || viewKind = .fat) || len < 32774 || 32774 ≤ s.bytes.length

/-- How a parser ends: at the end, with notes, or in an error. -/
inductive Stop
  | done
  | notes (texts : List String)
  | error (what : String)

/-- How a seekable container holds an entry: as a stream of a stated length or none, as a range of its
own bytes, as a squashfs or packed erofs file, which gets its slot before any is read (the first of
a batch is marked), or as a zip entry that cannot be opened. -/
inductive How
  | stream (stated : Option ℕ)
  | range (len : ℕ)
  | item (batch : Bool) (stated : ℕ)
  | closed (note : String)

mutual
/-- A member to be found: its bytes, what it is recognized as from a stream and from a view, and what
the parser for it finds in the stream and in the view. -/
inductive Found
  | mk (source : Source) (streamKind viewKind : Kind) (streamed : Streamed) (viewed : Viewed)

/-- The entries of a stream; `pulled` bytes of it are through when the walk is left on an error, of the
entry or at the end. -/
inductive Streamed
  | nil (stop : Stop) (pulled : ℕ)
  | cons (stated : Option ℕ) (pulled : ℕ) (found : Found) (rest : Streamed)

inductive Viewed
  | nil (stop : Stop)
  | cons (how : How) (found : Found) (rest : Viewed)
end

def Streamed.isNil : Streamed → Bool
  | .nil _ _ => true
  | .cons _ _ _ _ => false

/-- What the parser ends with. -/
def Viewed.stop : Viewed → Stop
  | .nil stop => stop
  | .cons _ _ rest => rest.stop

def Viewed.isNil : Viewed → Bool
  | .nil _ => true
  | .cons _ _ _ => false

/-! ### The walk's state -/

/-- A member's slot and what `pool.member` is told about it. -/
structure Opened where
  slot : ℕ
  parent : Option ℕ
  depth : ℕ
  stated : Option ℕ
  ord : ℕ

/-- A sealed member.  `source` is what its reader had to give, and `lost` tells that a nested error
ended its walk before the last entry; the code records neither. -/
structure Member where
  slot : ℕ
  parent : Option ℕ
  depth : ℕ
  ord : ℕ
  kind : Kind
  stated : Option ℕ
  pushed : Bytes
  children : ℕ
  note : Option String
  fs : Bool
  source : Source
  lost : Bool
  deriving DecidableEq

/-- What other threads do to this one where it comes to its next member: they may have exhausted the
cap on the members of a descent, taken slots, or left it an item of a batch that failed. -/
structure Tick where
  capped : Bool
  gap : ℕ
  taken : Bool

structure Config where
  descent : Policy
  baseDepth : ℕ
  spoolWrappers : Bool
  ticks : ℕ → Tick

/-- The lowest slot that is free, the slots of the current retry boundary's attempt (`ctx.slots`), the
dead ones, and the members sealed so far. -/
structure St where
  next : ℕ
  tick : ℕ
  slots : List ℕ
  dead : List ℕ
  members : List Member

def capped (cfg : Config) (st : St) : Bool := (cfg.ticks st.tick).capped

def St.ticked (st : St) : St := { st with tick := st.tick + 1 }

/-- `reserve`: slots taken by other threads meanwhile are skipped. -/
def alloc (cfg : Config) (st : St) : ℕ × St :=
  let slot := st.next + (cfg.ticks st.tick).gap
  (slot, { st with next := slot + 1, tick := st.tick + 1 })

def St.push (st : St) (slot : ℕ) : St := { st with slots := st.slots ++ [slot] }

/-- `discard`: what was allocated since is abandoned. -/
def St.discard (st : St) (start : ℕ) : St :=
  { st with slots := st.slots.take start, dead := st.dead ++ st.slots.drop start }

/-- `meta.close`: on an error the member keeps its kind, but neither children nor note. -/
def St.seal (st : St) (m : Opened) (source : Source) (kind : Kind) (pushed : Bytes) (lost : Bool)
    (r : Except Err (ℕ × Option String)) : St × Option Err :=
  let member (children : ℕ) (note : Option String) : Member :=
    ⟨m.slot, m.parent, m.depth, m.ord, kind, m.stated, pushed, children, note, false, source, lost⟩
  match r with
  | .ok (children, note) => ({ st with members := st.members ++ [member children note] }, none)
  | .error e => ({ st with members := st.members ++ [member 0 none] }, some e)

/-! ### How a walk over entries ends -/

/-- The parser's own end, or an error that came out of an entry. -/
inductive Walked
  | ended (children : ℕ) (stop : Stop) (pulled : ℕ)
  | failed (children : ℕ) (e : Err) (pulled : ℕ) (lost : Bool)

def Walked.lost : Walked → Bool
  | .ended _ _ _ => false
  | .failed _ _ _ lost => lost

def unsupported (kind : Kind) : String :=
  s!"{kind.label} recognized — descending into it is not supported yet"

def tooDeepNote : String := s!"nested deeper than {maxDepth} levels — not descended"

/-- The parser's own notes, as each walker words them. -/
def notesText (kind : Kind) (texts : List String) : Option String :=
  match texts with
  | [] => none
  | texts =>
    match kind with
    | .erofs =>
      let shown := "; ".intercalate (texts.take 4)
      if 4 < texts.length then some s!"{shown}; … and {texts.length - 4} more member notes"
      else some shown
    | .fat =>
      let shown := "; ".intercalate (texts.take 3)
      some s!"fat walk skipped {texts.length}: {shown}"
    | _ => some ("; ".intercalate texts)

/-- What a stream arm prefixes to a nested error that it turns into a note. -/
def streamSwallows : Kind → Option String
  | .gzip | .xz | .zstd | .bzip2 => some "decompression stopped"
  | .cpio => some "cpio walk stopped"
  | _ => none

/-- What a seekable arm prefixes to a nested error that it turns into a note. -/
def viewSwallows : Kind → Option String
  | .gzip | .xz | .zstd | .bzip2 => some "decompression stopped"
  | .cpio => some "cpio walk stopped"
  | .zip => some "zip parse failed"
  | .squashFs => some "squashfs parse failed"
  | .erofs => some "erofs parse failed"
  | .iso => some "iso9660 parse failed"
  | .fat => some "fat parse failed"
  | _ => none

/-- `stream_arms`, after the walk over the entries: how much of the stream was pulled through, and
what is returned. -/
def streamResult (kind : Kind) (bytes : Bytes) (w : Walked) :
    Bytes × Except Err (ℕ × Option String) :=
  match kind, w with
  | .plain, _ => (bytes, .ok (0, none))
  | .sevenZ, _ => (bytes, .ok (0, some (unsupported .sevenZ)))
  | .zip, .ended _ (.error what) pulled => (bytes.take pulled, .error (.retry what))
  | kind, .ended children .done _ => (bytes, .ok (children, notesText kind []))
  | kind, .ended children (.notes texts) _ => (bytes, .ok (children, notesText kind texts))
  | kind, .ended children (.error what) _ =>
    match streamSwallows kind with
    | some prefixed => (bytes, .ok (children, some s!"{prefixed}: {what}"))
    | none => (bytes, .ok (children, some what))
  | kind, .failed children e pulled _ =>
    match streamSwallows kind, e with
    -- the note goes in, and what is left of the stream is drained
    | some prefixed, .hard what => (bytes, .ok (children, some s!"{prefixed}: {what}"))
    | _, e => (bytes.take pulled, .error e)

/-- `descend_seekable`, after the walk over the entries. -/
def viewResult (kind : Kind) (w : Walked) : Except Err (ℕ × Option String) :=
  match kind, w with
  | .plain, _ => .ok (0, none)
  | .sevenZ, _ => .ok (0, some (unsupported .sevenZ))
  | kind, .ended children .done _ => .ok (children, notesText kind [])
  | kind, .ended children (.notes texts) _ => .ok (children, notesText kind texts)
  | kind, .ended children (.error what) _ =>
    match viewSwallows kind with
    | some prefixed => swallow (.error (.hard what)) children prefixed
    | none => .ok (children, some what)
  | kind, .failed children e _ _ =>
    match viewSwallows kind with
    | some prefixed => swallow (.error e) children prefixed
    | none => .error e

/-! ### A member -/

def tooDeep (cfg : Config) (depth : ℕ) (kind : Kind) : Bool :=
  maxDepth ≤ depth - cfg.baseDepth && !(kind = .plain || kind = .sevenZ)

/-- Containers that need to seek are spooled first; a zip in a conservative walk, a cpio for recipes. -/
def spools (cfg : Config) (conservative : Bool) : Kind → Bool
  | .squashFs | .erofs | .iso | .fat => true
  | .zip => conservative
  | .cpio => cfg.spoolWrappers
  | _ => false

/-- The retry boundary: what a misbehaved zip below made of the attempt is discarded, and it is made
again conservatively. -/
def descendRetrying (kind : Kind) (attempt : Bool → St → St × Walked) (conservative : Bool) (st : St) :
    St × Walked × Except Err (ℕ × Option String) :=
  let start := st.slots.length
  let (st, w) := attempt conservative st
  match viewResult kind w with
  | .error (.retry why) =>
    if conservative then (st, w, .error (.retry why))
    else
      let (st, w) := attempt true (st.discard start)
      (st, w, viewResult kind w)
  | r => (st, w, r)

/-- `run_member`, its arms given: the walk over the entries of the stream, and of the spooled view. -/
def runMember (cfg : Config) (conservative : Bool) (m : Opened) (source : Source) (kind : Kind)
    (arms : St → St × Walked) (attempt : Bool → St → St × Walked) (st : St) : St × Option Err :=
  if source.opens = false then
    st.seal m source .plain [] false (.error (.hard (source.error.getD "")))
  else if tooDeep cfg m.depth kind then
    st.seal m source kind source.bytes false (.ok (0, some tooDeepNote))
  else if cfg.descent.enters kind = false ∧ kind ≠ .plain then
    st.seal m source kind source.bytes false (.ok (0, none))
  else if spools cfg conservative kind ∧ cfg.descent.enters kind then
    match source.error with
    | some e => st.seal m source kind source.bytes false (.error (.hard e))
    | none =>
      let (st, w, r) := descendRetrying kind attempt conservative st
      st.seal m source kind source.bytes w.lost r
  else
    let (st, w) := if kind.hasEntries then arms st else (st, .ended 0 .done 0)
    let (pushed, r) := streamResult kind source.bytes w
    st.seal m source kind pushed w.lost r

/-- A member over a view: its bytes are read by the pool while the walk descends.  A read that fails
leaves a note. -/
def runRanged (cfg : Config) (conservative : Bool) (m : Opened) (source : Source) (kind : Kind)
    (attempt : Bool → St → St × Walked) (st : St) : St × Option Err :=
  let noted (note : Option String) : Option String :=
    match source.error, note with
    | none, note => note
    | some e, some note => some s!"read failed mid-member: {e}; {note}"
    | some e, none => some s!"read failed mid-member: {e}"
  let sealed (st : St) (lost : Bool) (r : Except Err (ℕ × Option String)) :=
    st.seal m source kind source.bytes lost (r.map fun x => (x.1, noted x.2))
  if tooDeep cfg m.depth kind then sealed st false (.ok (0, some tooDeepNote))
  else if cfg.descent.enters kind = false ∧ kind ≠ .plain then sealed st false (.ok (0, none))
  else
    let (st, w, r) := descendRetrying kind attempt conservative st
    sealed st w.lost r

/-- `process_stream_spooled`, once the slot is there: the stream is spooled, and walked as a view. -/
def runSpooled (cfg : Config) (conservative : Bool) (m : Opened) (source : Source) (kind : Kind)
    (attempt : Bool → St → St × Walked) (st : St) : St × Option Err :=
  match source.error with
  | some e => st.seal m source .plain source.bytes false (.error (.hard e))
  | none => runRanged cfg conservative m source kind attempt st

/-- `process_stream`; a compressed wrapper's child, in a walk that spools these, goes through
`process_stream_spooled`. -/
def processStream (cfg : Config) (spooled : Bool) (depth own : ℕ) (stated : Option ℕ)
    (run spool : Opened → St → St × Option Err) (st : St) : St × Option Err :=
  if capped cfg st then (st.ticked, none)
  else
    let (slot, st) := alloc cfg st
    if spooled then spool ⟨slot, some own, depth, none, slot⟩ (st.push slot)
    else run ⟨slot, some own, depth, stated, slot⟩ (st.push slot)

/-- A zip entry that cannot be opened is named all the same. -/
def nameClosed (cfg : Config) (depth own : ℕ) (note : String) (st : St) : St :=
  if capped cfg st then st.ticked
  else
    let (slot, st) := alloc cfg st
    ((st.push slot).seal ⟨slot, some own, depth, some 0, slot⟩ ⟨[], some note⟩ .plain [] false
      (.ok (0, some s!"unreadable zip member: {note}"))).1

/-- A spooled wrapper's child and a scanned file are not probed for FAT. -/
def unprobed : Kind → Kind
  | .fat => .plain
  | kind => kind

/-! ### Items with slots of their own -/

def How.startsBatch : How → Bool
  | .item batch _ => batch
  | _ => false

/-- The slots of the entries up to the next batch, unless the cap is reached before. -/
def allocBatch (cfg : Config) : Viewed → St → List ℕ × St
  | .nil _, st => ([], st)
  | .cons _ _ rest, st =>
    if capped cfg st then ([], st.ticked)
    else
      let (slot, st) := alloc cfg st
      match rest with
      | .cons how _ _ =>
        if how.startsBatch then ([slot], st)
        else
          let (slots, st) := allocBatch cfg rest st
          (slot :: slots, st)
      | .nil _ => ([slot], st)

/-- An item whose worker never came to it: closed, and dropped from the table. -/
def bury (own depth : ℕ) (slot stated : ℕ) (st : St) : St :=
  let st := { st with dead := st.dead ++ [slot] }
  (st.seal ⟨slot, some own, depth, some stated, slot⟩ ⟨[], none⟩ .plain [] false (.ok (0, none))).1

/-- A worker runs an item, with slots of its own; if a zip in it misbehaved, once more conservatively,
under a new slot that keeps the place among the siblings. -/
def runItem (cfg : Config) (conservative : Bool) (own depth slot stated : ℕ)
    (run : Bool → Opened → St → St × Option Err) (st : St) : St × Option Err :=
  let outer := st.slots
  let (st, e) := run conservative ⟨slot, some own, depth, some stated, slot⟩ { st with slots := [slot] }
  match e with
  | some (.retry why) =>
    if conservative then ({ st with slots := outer ++ st.slots }, some (.retry why))
    else
      let (again, st) := alloc cfg { st with slots := [], dead := st.dead ++ st.slots }
      let (st, e) := run true ⟨again, some own, depth, some stated, slot⟩ (st.push again)
      ({ st with slots := outer ++ st.slots }, e)
  | e => ({ st with slots := outer ++ st.slots }, e)

def How.stated : How → ℕ
  | .item _ stated => stated
  | .range len => len
  | .stream stated => stated.getD 0
  | .closed _ => 0

/-- The items that a walk cut short never came to. -/
def buryAll (own depth : ℕ) : List (ℕ × ℕ) → St → St
  | [], st => st
  | (slot, stated) :: slots, st => buryAll own depth slots (bury own depth slot stated st)

def errText : Err → String
  | .retry why => why
  | .hard what => what

/-- An error, followed by the notes there were before. -/
def Err.withNotes (e : Err) (stop : Stop) : Err :=
  match e, stop with
  | .hard what, .notes texts =>
    match notesText .erofs texts with
    | some shown => .hard s!"{what}; {shown}"
    | none => .hard what
  | e, _ => e

/-- The ways over the entries of a seekable container. -/
structure Walkers where
  entries : Kind → St → St × Walked
  squash : ℕ → List ℕ → St → St × Walked
  erofsAlloc : St → St × List (ℕ × ℕ) × Walked
  erofsRun : ℕ → List (ℕ × ℕ) → St → St × List String

/-- The walker of a seekable container.  An error in erofs' first pass leaves what it allocated
unrun; the packed files' errors join the notes. -/
def Walkers.walk (cfg : Config) (viewed : Viewed) (depth own : ℕ) (kind : Kind) (w : Walkers)
    (st : St) : St × Walked :=
  match kind with
  | .plain | .sevenZ => (st, .ended 0 .done 0)
  | .squashFs =>
    let (slots, st) := allocBatch cfg viewed st
    w.squash st.next slots st
  | .erofs =>
    let (st, slots, first) := w.erofsAlloc st
    match first with
    | .failed children e pulled lost =>
      (buryAll own depth slots st,
        .failed (children - slots.length) (e.withNotes viewed.stop) pulled lost)
    | .ended children stop pulled =>
      let (st, texts) := w.erofsRun st.next slots st
      match stop with
      | .done => (st, .ended children (.notes texts) pulled)
      | .notes before => (st, .ended children (.notes (before ++ texts)) pulled)
      | .error what => (st, .ended children (.error what) pulled)
  | kind => w.entries kind st

/-! ### The walk -/

mutual
/-- `run_member` of what was found. -/
def runFound (cfg : Config) : Found → Bool → Opened → St → St × Option Err
  | .mk source streamKind _ streamed viewed, conservative, m, st =>
    runMember cfg conservative m source streamKind
      (fun st => streamWalk cfg streamed conservative (m.depth + 1) m.slot streamKind 0 st)
      (fun c st => Walkers.walk cfg viewed (m.depth + 1) m.slot streamKind
        ⟨fun kind st => entryWalk cfg viewed c (m.depth + 1) m.slot kind 0 st,
        fun base slots st => squashWalk cfg viewed c (m.depth + 1) m.slot base slots none 0 false st,
        fun st => erofsAlloc cfg viewed c (m.depth + 1) m.slot 0 st,
        fun base slots st => erofsRun cfg viewed c (m.depth + 1) m.slot base slots st⟩ st) st

/-- Over the entries of a stream.  The child of a compressed wrapper is spooled for recipes. -/
def streamWalk (cfg : Config) : Streamed → Bool → ℕ → ℕ → Kind → ℕ → St → St × Walked
  | .nil stop pulled, _, _, _, _, children, st => (st, .ended children stop pulled)
  | .cons stated pulled found rest, conservative, depth, own, kind, children, st =>
    match processStream cfg (kind.wraps && cfg.spoolWrappers) depth own stated
        (fun m st => runFound cfg found conservative m st)
        (fun m st => spoolFound cfg found conservative m st) st with
    | (st, some e) => (st, .failed (children + 1) e pulled !rest.isNil)
    | (st, none) => streamWalk cfg rest conservative depth own kind (children + 1) st

/-- `process_stream_spooled` of what was found. -/
def spoolFound (cfg : Config) : Found → Bool → Opened → St → St × Option Err
  | .mk source _ viewKind _ viewed, conservative, m, st =>
    runSpooled cfg conservative m source (unprobed viewKind)
      (fun c st => Walkers.walk cfg viewed (m.depth + 1) m.slot (unprobed viewKind)
        ⟨fun kind st => entryWalk cfg viewed c (m.depth + 1) m.slot kind 0 st,
        fun base slots st => squashWalk cfg viewed c (m.depth + 1) m.slot base slots none 0 false st,
        fun st => erofsAlloc cfg viewed c (m.depth + 1) m.slot 0 st,
        fun base slots st => erofsRun cfg viewed c (m.depth + 1) m.slot base slots st⟩ st) st

/-- `process_ranged`. -/
def rangeFound (cfg : Config) : Found → Bool → ℕ → Option ℕ → ℕ → St → St × Option Err
  | .mk source _ viewKind _ viewed, conservative, depth, parent, len, st =>
    if capped cfg st then (st.ticked, none)
    else if source.opens = false ∨ source.probes viewKind len = false then
      (st.ticked, some (.hard (source.error.getD "")))
    else
      let (slot, st) := alloc cfg st
      runRanged cfg conservative ⟨slot, parent, depth, some len, slot⟩ source viewKind
        (fun c st => Walkers.walk cfg viewed (depth + 1) slot viewKind
        ⟨fun kind st => entryWalk cfg viewed c (depth + 1) slot kind 0 st,
        fun base slots st => squashWalk cfg viewed c (depth + 1) slot base slots none 0 false st,
        fun st => erofsAlloc cfg viewed c (depth + 1) slot 0 st,
        fun base slots st => erofsRun cfg viewed c (depth + 1) slot base slots st⟩ st) (st.push slot)

/-- Over the entries of a seekable container, one after the other. -/
def entryWalk (cfg : Config) : Viewed → Bool → ℕ → ℕ → Kind → ℕ → St → St × Walked
  | .nil stop, _, _, _, _, children, st => (st, .ended children stop 0)
  | .cons how found rest, conservative, depth, own, kind, children, st =>
    match how with
    | .closed note =>
      entryWalk cfg rest conservative depth own kind children (nameClosed cfg depth own note st)
    | .range len =>
      match rangeFound cfg found conservative depth (some own) len st with
      | (st, some e) => (st, .failed (children + 1) e 0 !rest.isNil)
      | (st, none) => entryWalk cfg rest conservative depth own kind (children + 1) st
    | .stream stated | .item _ stated =>
      match processStream cfg (kind.wraps && cfg.spoolWrappers) depth own stated
          (fun m st => runFound cfg found conservative m st)
          (fun m st => spoolFound cfg found conservative m st) st with
      | (st, some e) => (st, .failed (children + 1) e 0 !rest.isNil)
      | (st, none) => entryWalk cfg rest conservative depth own kind (children + 1) st

/-- Over the files of a squashfs, batch by batch: each has its slot already.  The files of a batch run
side by side, so each may get any slots from `base` on; after the first error those that no worker
took yet are buried. -/
def squashWalk (cfg : Config) : Viewed → Bool → ℕ → ℕ → ℕ → List ℕ → Option Err → ℕ → Bool → St →
    St × Walked
  | .nil stop, _, _, _, _, _, failed, children, lost, st =>
    match failed with
    | some e => (st, .failed children e 0 lost)
    | none => (st, .ended children stop 0)
  | .cons how found rest, conservative, depth, own, base, slots, failed, children, lost, st =>
    match slots with
    | [] =>
      match failed with
      | some e => (st, .failed children e 0 true)
      | none => (st, .ended children .done 0)
    | slot :: slots =>
      let (st, failed, children, lost) :=
        if failed.isSome && !(cfg.ticks st.tick).taken then
          (bury own depth slot how.stated st.ticked, failed, children, true)
        else
          let (st', e) := runItem cfg conservative own depth slot how.stated
            (fun c m st => runFound cfg found c m st) { st with next := base }
          ({ st' with next := max st.next st'.next }, failed.or e, children + 1, lost)
      match rest with
      | .cons next _ _ =>
        if next.startsBatch then
          match failed with
          | some e => (st, .failed children e 0 true)
          | none =>
            let (slots, st) := allocBatch cfg rest st
            squashWalk cfg rest conservative depth own st.next slots none children lost st
        else squashWalk cfg rest conservative depth own base slots failed children lost st
      | .nil _ => squashWalk cfg rest conservative depth own base slots failed children lost st

/-- The first pass over an erofs: flat files are walked, packed ones get their slots. -/
def erofsAlloc (cfg : Config) : Viewed → Bool → ℕ → ℕ → ℕ → St → St × List (ℕ × ℕ) × Walked
  | .nil stop, _, _, _, children, st => (st, [], .ended children stop 0)
  | .cons how found rest, conservative, depth, own, children, st =>
    match how with
    | .range len =>
      match rangeFound cfg found conservative depth (some own) len st with
      | (st, some e) => (st, [], .failed (children + 1) e 0 !rest.isNil)
      | (st, none) => erofsAlloc cfg rest conservative depth own (children + 1) st
    | _ =>
      if capped cfg st then (st.ticked, [], .ended children .done 0)
      else
        let (slot, st) := alloc cfg st
        let (st, slots, w) := erofsAlloc cfg rest conservative depth own (children + 1) st
        (st, (slot, how.stated) :: slots, w)

/-- The second pass: the packed files, in the order of their data, whichever that is.  An error of one
is a note. -/
def erofsRun (cfg : Config) : Viewed → Bool → ℕ → ℕ → ℕ → List (ℕ × ℕ) → St → St × List String
  | .nil _, _, _, _, _, _, st => (st, [])
  | .cons how found rest, conservative, depth, own, base, slots, st =>
    match how, slots with
    | .range _, slots => erofsRun cfg rest conservative depth own base slots st
    | _, [] => (st, [])
    | _, (slot, stated) :: slots =>
      let (st', e) := runItem cfg conservative own depth slot stated
        (fun c m st => runFound cfg found c m st) { st with next := base }
      let (st, texts) := erofsRun cfg rest conservative depth own base slots
        { st' with next := max st.next st'.next }
      match e with
      | some e => (st, errText e :: texts)
      | none => (st, texts)
end

/-- The walk of a seekable container. -/
def viewWalk (cfg : Config) (viewed : Viewed) (c : Bool) (depth own : ℕ) (kind : Kind) (st : St) :
    St × Walked :=
  Walkers.walk cfg viewed depth own kind
    ⟨fun kind st => entryWalk cfg viewed c depth own kind 0 st,
      fun base slots st => squashWalk cfg viewed c depth own base slots none 0 false st,
      fun st => erofsAlloc cfg viewed c depth own 0 st,
      fun base slots st => erofsRun cfg viewed c depth own base slots st⟩ st

def St.start (next : ℕ) : St := ⟨next, 0, [], [], []⟩

/-- A named file. -/
def walkRoot (cfg : Config) (next : ℕ) (len : ℕ) (found : Found) : St × Option Err :=
  match rangeFound cfg found false 0 none len (St.start next) with
  | (st, some e) => (st.discard 0, some e)
  | (st, none) => (st, none)

/-- A file that a scan came to: the walk of its inside, under the slot it has. -/
def descendWithin (cfg : Config) (next own depth : ℕ) : Found → St × ℕ × Option String × Kind
  | .mk source _ viewKind _ viewed =>
    let kind := unprobed viewKind
    if source.opens = false ∨ kind = .plain then (St.start next, 0, none, .plain)
    else if cfg.descent.enters kind = false then (St.start next, 0, none, kind)
    else
      let (st, _, r) := descendRetrying kind
        (fun c st => viewWalk cfg viewed c (depth + 1) own kind st) false (St.start next)
      match r with
      | .ok (children, note) => (st, children, note, kind)
      | .error e => (st.discard 0, 0, some s!"descent failed: {errText e}", kind)

end Descent

end Hashdex
