import Hashdex.Scan
import Hashdex.Sniff
import Hashdex.PoolInv

/-!
# The two walks of a cpio

A cpio is walked as its bytes flow by, or over a view of them.  Each member is a 110-byte header of
hexadecimal fields, a name and the data, the last two padded to 4; after the trailer and zeros whatever
is left is a member of its own.

* `cpioStream`, `cpioRanged`: the two walks
* `cpio_walks_agree`: what they have in common
-/

namespace Hashdex

namespace Cpio

open Descent

/-! ### Headers -/

/-- What a walk stops at. -/
inductive Fault
  | field
  | name
  | truncated (wanted got : ℕ)
  | child (e : Err)
  deriving DecidableEq

/-- `u64::from_str_radix`, which takes a plus sign too. -/
def fromStrRadix16 (f : Bytes) : Option ℕ :=
  let digits := match f with
    | 43 :: rest => rest
    | f => f
  if digits = [] then none
  else digits.foldlM (fun n b => (hexVal (Char.ofNat b.toNat)).map (16 * n + ·)) 0

def hexfield (hdr : Bytes) (i : ℕ) : Except Fault ℕ :=
  match fromStrRadix16 ((hdr.drop (6 + 8 * i)).take 8) with
  | some n => .ok n
  | none => .error .field

/-- `n.div_ceil(4) * 4`. -/
def pad4 (n : ℕ) : ℕ := (n + 3) / 4 * 4

def trimDotSlash : List Char → List Char
  | '.' :: '/' :: rest => trimDotSlash rest
  | name => name

/-- A header, whose name is then read, padded; none on a bad magic.  The mode, the length, the name, and
where the reader is. -/
def cpioHeader {σ : Type} (hdr : Bytes) (readName : ℕ → Except Fault (Bytes × σ)) :
    Except Fault (Option (ℕ × ℕ × List Char × σ)) :=
  if hdr.take 6 ≠ [48, 55, 48, 55, 48, 49] ∧ hdr.take 6 ≠ [48, 55, 48, 55, 48, 50] then .ok none
  else
    match hexfield hdr 1, hexfield hdr 6, hexfield hdr 11 with
    | .ok mode, .ok filesize, .ok namesize =>
      match readName (pad4 (110 + namesize) - 110) with
      | .ok (raw, s) =>
        .ok (some (mode, filesize, trimDotSlash (Scan.lossy (raw.take (namesize - 1))), s))
      | .error e => .error e
    | .error e, _, _ | _, .error e, _ | _, _, .error e => .error e

theorem cpioHeader_reads {σ : Type} {hdr : Bytes} {readName : ℕ → Except Fault (Bytes × σ)}
    {mode filesize : ℕ} {name : List Char} {s : σ}
    (h : cpioHeader hdr readName = .ok (some (mode, filesize, name, s))) :
    ∃ n raw, readName n = .ok (raw, s) := by
  unfold cpioHeader at h
  split_ifs at h
  · cases h
  · split at h
    · split at h
      next raw s' hread =>
        cases h
        exact ⟨_, raw, hread⟩
      · cases h
    all_goals cases h

/-! ### Members -/

/-- A member directly below, as `process_stream` or `process_ranged` is handed it. -/
structure Direct where
  name : List Char
  leaf : List Char
  content : Bytes
  stated : Option ℕ
  kind : Kind
  deriving DecidableEq

/-- The digests that the pool records of it. -/
def Direct.digests (hash : Scheme → Bytes → Bytes) (d : Direct) : Digests :=
  Pool.digestsOf hash d.stated d.content

def leafOf (name : List Char) : List Char := (name.reverse.takeWhile (· ≠ '/')).reverse

def streamed (name : List Char) (stated : Option ℕ) (content : Bytes) : Direct :=
  ⟨name, leafOf name, content, stated, streamedKind content (leafOf name)⟩

def ranged (name : List Char) (content : Bytes) : Direct :=
  ⟨name, leafOf name, content, some content.length, rangedKind content (leafOf name)⟩

def isRegular (mode : ℕ) : Bool := mode &&& 0o170000 = 0o100000

def trailer : List Char := "TRAILER!!!".toList

/-- What is left after a trailer. -/
def cpioTail : List Char := "segment-2".toList

def withoutTrailer : String := "cpio ended without trailer"

def badMagic : String := "cpio walk stopped: bad member magic"

/-- The members found, and how the walk ended. -/
abbrev Listing := List Direct × Except Fault (Option String)

/-- A member is walked; on its error the walk is left. -/
def Direct.then (d : Direct) (child : Direct → Option Err) (rest : Listing) : Listing :=
  match child d with
  | some e => ([d], .error (.child e))
  | none => (d :: rest.1, rest.2)

/-! ### The stream -/

def readExact (r : Bytes) (n : ℕ) : Except Fault (Bytes × Bytes) :=
  if n ≤ r.length then .ok (r.take n, r.drop n) else .error .name

def skipN (r : Bytes) (n : ℕ) : Except Fault Bytes :=
  if n ≤ r.length then .ok (r.drop n) else .error (.truncated n r.length)

def cpioTailStream (child : Direct → Option Err) (r : Bytes) : Listing :=
  match r.dropWhile (· = 0) with
  | [] => ([], .ok none)
  | rest => (streamed cpioTail none rest).then child ([], .ok none)

theorem readExact_length {r raw rest : Bytes} {n : ℕ} (h : readExact r n = .ok (raw, rest)) :
    rest.length ≤ r.length := by
  unfold readExact at h
  split_ifs at h
  cases h
  rw [List.length_drop]
  omega

theorem skipN_length {r rest : Bytes} {n : ℕ} (h : skipN r n = .ok rest) :
    rest.length ≤ r.length := by
  unfold skipN at h
  split_ifs at h
  cases h
  rw [List.length_drop]
  omega

/-- A header takes its bytes. -/
theorem header_length {r rest : Bytes} {mode filesize : ℕ} {name : List Char} (hr : ¬r.length < 110)
    (h : cpioHeader (r.take 110) (readExact (r.drop 110)) = .ok (some (mode, filesize, name, rest))) :
    rest.length < r.length := by
  obtain ⟨n, raw, hread⟩ := cpioHeader_reads h
  have hle := readExact_length hread
  rw [List.length_drop] at hle
  omega

set_option linter.unusedVariables false in
/-- Over what is left of the stream; each child's descent ends in an error or not. -/
def cpioStream (child : Direct → Option Err) (r : Bytes) : Listing :=
  if hr : r.length < 110 then ([], .ok (some withoutTrailer))
  else
    match hheader : cpioHeader (r.take 110) (readExact (r.drop 110)) with
    | .error e => ([], .error e)
    | .ok none => ([], .ok (some badMagic))
    | .ok (some (mode, filesize, name, rest)) =>
      if name = trailer then
        match skipN rest (pad4 filesize - filesize) with
        | .error e => ([], .error e)
        | .ok rest => cpioTailStream child rest
      else if isRegular mode then
        (streamed name (some filesize) (rest.take filesize)).then child
          (match hpad : skipN (rest.drop filesize) (pad4 filesize - filesize) with
          | .error e => ([], .error e)
          | .ok rest => cpioStream child rest)
      else
        match hdata : skipN rest filesize with
        | .error e => ([], .error e)
        | .ok rest =>
          match hpad : skipN rest (pad4 filesize - filesize) with
          | .error e => ([], .error e)
          | .ok rest => cpioStream child rest
termination_by r.length
decreasing_by
  · have hlt := header_length hr hheader
    have hle := skipN_length hpad
    rw [List.length_drop] at hle
    omega
  · have hlt := header_length hr hheader
    have hle := skipN_length hdata
    have hle' := skipN_length hpad
    omega

/-! ### The view -/

def readNameAt (view : Bytes) (off n : ℕ) : Except Fault (Bytes × ℕ) :=
  let buf := (view.drop off).take n
  if buf.length < n then .error .name else .ok (buf, off + buf.length)

/-- The first byte at or after `start` that is not zero padding. -/
def firstNonzero (view : Bytes) (start : ℕ) : Option ℕ :=
  let next := start + ((view.drop start).takeWhile (· = 0)).length
  if next < view.length then some next else none

theorem readNameAt_length {view raw : Bytes} {off n nameOff : ℕ}
    (h : readNameAt view off n = .ok (raw, nameOff)) : off ≤ nameOff := by
  unfold readNameAt at h
  dsimp only at h
  split_ifs at h
  cases h
  omega

set_option linter.unusedVariables false in
/-- From `pos` on. -/
def cpioRanged (child : Direct → Option Err) (view : Bytes) (pos : ℕ) : Listing :=
  if hpos : ((view.drop pos).take 110).length < 110 then ([], .ok (some withoutTrailer))
  else
    match hheader : cpioHeader ((view.drop pos).take 110) (readNameAt view (pos + 110)) with
    | .error e => ([], .error e)
    | .ok none => ([], .ok (some badMagic))
    | .ok (some (mode, filesize, name, nameOff)) =>
      if name = trailer then
        match firstNonzero view (nameOff + pad4 filesize) with
        | none => ([], .ok none)
        | some next => (ranged cpioTail (view.drop next)).then child ([], .ok none)
      else if isRegular mode then
        (ranged name ((view.drop nameOff).take filesize)).then child
          (cpioRanged child view (nameOff + filesize + (pad4 filesize - filesize)))
      else cpioRanged child view (nameOff + filesize + (pad4 filesize - filesize))
termination_by view.length - pos
decreasing_by
  all_goals
    obtain ⟨n, raw, hread⟩ := cpioHeader_reads hheader
    have hle := readNameAt_length hread
    rw [List.length_take, List.length_drop] at hpos
    omega

/-! ### What they have in common -/

/-- One member, found by both walks.  A view may be recognized as an iso9660 or a FAT where a stream is
not.  A stream's `sha1_git` is the view's where the length was stated and that many bytes are there. -/
structure Same (a b : Direct) : Prop where
  name : b.name = a.name
  content : b.content = a.content
  kind : b.kind = a.kind ∨ a.kind = .plain ∧ (b.kind = .iso ∨ b.kind = .fat)
  digests : ∀ hash, { b.digests hash with sha1Git := none } = { a.digests hash with sha1Git := none }
  git : ∀ n, a.stated = some n → n ≤ a.content.length → ∀ hash, b.digests hash = a.digests hash

/-- The next header of a stream, where there is one. -/
def header (r : Bytes) : Except Fault (Option (ℕ × ℕ × List Char × Bytes)) :=
  if r.length < 110 then .ok none else cpioHeader (r.take 110) (readExact (r.drop 110))

/-- The archive's trailer, if it is reached, states no data but zeros. -/
inductive Blank : Bytes → Prop
  | ended {r : Bytes} (h : ∀ x, header r ≠ .ok (some x)) : Blank r
  | last {r : Bytes} {mode filesize : ℕ} {rest : Bytes}
      (h : header r = .ok (some (mode, filesize, trailer, rest)))
      (hzeros : ∀ b ∈ rest.take (pad4 filesize), b = 0) : Blank r
  | member {r : Bytes} {mode filesize : ℕ} {name : List Char} {rest : Bytes}
      (h : header r = .ok (some (mode, filesize, name, rest))) (hname : name ≠ trailer)
      (hrest : Blank (rest.drop (pad4 filesize))) : Blank r

section
variable {view r rest : Bytes} {pos mode filesize : ℕ} {name : List Char}
variable {child child' : Direct → Option Err}

theorem le_pad4 (n : ℕ) : n ≤ pad4 n := by
  unfold pad4
  omega

theorem digests_stated (hash : Scheme → Bytes → Bytes) (len len' : Option ℕ) (bytes : Bytes) :
    { Pool.digestsOf hash len' bytes with sha1Git := none }
      = { Pool.digestsOf hash len bytes with sha1Git := none } := rfl

theorem same_member (name : List Char) (stated : ℕ) (bytes : Bytes) :
    Same (streamed name (some stated) (bytes.take stated)) (ranged name (bytes.take stated)) where
  name := rfl
  content := rfl
  kind := rangedKind_cases _ _
  digests := fun hash => digests_stated hash _ _ _
  git := by
    intro n hn hle hash
    cases hn
    have hlen : (bytes.take stated).length = stated := by
      refine le_antisymm ?_ hle
      rw [List.length_take]
      exact min_le_left _ _
    show Pool.digestsOf hash (some (bytes.take stated).length) _ = Pool.digestsOf hash (some stated) _
    rw [hlen]
    rfl

theorem same_tail (bytes : Bytes) : Same (streamed cpioTail none bytes) (ranged cpioTail bytes) where
  name := rfl
  content := rfl
  kind := rangedKind_cases _ _
  digests := fun hash => digests_stated hash _ _ _
  git := fun _ hn => nomatch hn

/-! ### One header, read twice -/

/-- The reader of the name passes its place on. -/
theorem cpioHeader_map {σ τ : Type} (k : σ → τ) (hdr : Bytes) (f : ℕ → Except Fault (Bytes × σ)) :
    cpioHeader hdr (fun n => (f n).map (Prod.map id k))
      = (cpioHeader hdr f).map (Option.map fun x => (x.1, x.2.1, x.2.2.1, k x.2.2.2)) := by
  unfold cpioHeader
  split_ifs
  · rfl
  · cases hexfield hdr 1 with
    | error e => rfl
    | ok mode =>
      cases hexfield hdr 6 with
      | error e => rfl
      | ok filesize =>
        cases hexfield hdr 11 with
        | error e => rfl
        | ok namesize =>
          dsimp only
          cases f (pad4 (110 + namesize) - 110) with
          | error e => rfl
          | ok x => rfl

/-- A view's reader is the stream's, up to where it counts from. -/
theorem readNameAt_eq {off : ℕ} (hoff : off ≤ view.length) (n : ℕ) :
    readNameAt view off n
      = (readExact (view.drop off) n).map (Prod.map id fun rest => view.length - rest.length) := by
  unfold readNameAt readExact
  rw [List.length_drop]
  dsimp only
  rw [List.length_take, List.length_drop]
  split_ifs with h₁ h₂ h₂
  · omega
  · rfl
  · have hplace : off + min n (view.length - off)
        = view.length - ((view.drop off).drop n).length := by
      rw [List.length_drop, List.length_drop]
      omega
    rw [hplace]
    rfl
  · omega

/-- Both walks read the same header, and are in the same place after it. -/
theorem header_ranged (hpos : pos + 110 ≤ view.length) :
    cpioHeader ((view.drop pos).take 110) (readNameAt view (pos + 110))
      = (header (view.drop pos)).map
        (Option.map fun x => (x.1, x.2.1, x.2.2.1, view.length - x.2.2.2.length)) := by
  have hlen : ¬(view.drop pos).length < 110 := by
    rw [List.length_drop]
    omega
  have hread : readNameAt view (pos + 110) = fun n =>
      (readExact ((view.drop pos).drop 110) n).map
        (Prod.map id fun rest => view.length - rest.length) := by
    funext n
    rw [List.drop_drop]
    exact readNameAt_eq hpos n
  rw [header, if_neg hlen, hread, cpioHeader_map]

theorem header_eq_some {x : ℕ × ℕ × List Char × Bytes} (h : header r = .ok (some x)) :
    ¬r.length < 110 ∧ cpioHeader (r.take 110) (readExact (r.drop 110)) = .ok (some x) := by
  unfold header at h
  split_ifs at h with hlen
  · cases h
  · exact ⟨hlen, h⟩

/-- The stream goes on behind the header. -/
theorem header_rest (h : header r = .ok (some (mode, filesize, name, rest))) :
    ∃ n, 110 ≤ n ∧ n ≤ r.length ∧ rest = r.drop n := by
  obtain ⟨hlen, h⟩ := header_eq_some h
  obtain ⟨n, raw, hread⟩ := cpioHeader_reads h
  unfold readExact at hread
  split_ifs at hread with hn
  cases hread
  rw [List.length_drop] at hn
  exact ⟨110 + n, by omega, by omega, by rw [List.drop_drop]⟩

/-! ### The walks, header by header -/

theorem cpioStream_ended (h : ∀ x, header r ≠ .ok (some x)) : (cpioStream child r).1 = [] := by
  rw [cpioStream]
  split_ifs with hlen
  · rfl
  · split
    · rfl
    · rfl
    next hheader =>
      rw [header, if_neg hlen] at h
      exact absurd hheader (h _)

theorem cpioStream_next (h : header r = .ok (some (mode, filesize, name, rest))) :
    cpioStream child r =
      if name = trailer then
        match skipN rest (pad4 filesize - filesize) with
        | .error e => ([], .error e)
        | .ok rest => cpioTailStream child rest
      else if isRegular mode then
        (streamed name (some filesize) (rest.take filesize)).then child
          (match skipN (rest.drop filesize) (pad4 filesize - filesize) with
          | .error e => ([], .error e)
          | .ok rest => cpioStream child rest)
      else
        match skipN rest filesize with
        | .error e => ([], .error e)
        | .ok rest =>
          match skipN rest (pad4 filesize - filesize) with
          | .error e => ([], .error e)
          | .ok rest => cpioStream child rest := by
  obtain ⟨hlen, hheader⟩ := header_eq_some h
  rw [cpioStream, dif_neg hlen]
  split
  next e he => rw [hheader] at he; cases he
  next he => rw [hheader] at he; cases he
  next mode' filesize' name' rest' he =>
    rw [hheader] at he
    cases he
    split_ifs
    · rfl
    · congr 1
      split
      next e he => rw [he]
      next rest he => rw [he]
    · split
      next e he => rw [he]
      next rest he =>
        rw [he]
        dsimp only
        split
        next e he' => rw [he']
        next rest he' => rw [he']

theorem cpioRanged_ended (h : ∀ x, header (view.drop pos) ≠ .ok (some x)) :
    (cpioRanged child view pos).1 = [] := by
  rw [cpioRanged]
  split_ifs with hlen
  · rfl
  · have hpos : pos + 110 ≤ view.length := by
      rw [List.length_take, List.length_drop] at hlen
      omega
    have hheader := header_ranged hpos
    split
    · rfl
    · rfl
    next he =>
      rw [he] at hheader
      cases hres : header (view.drop pos) with
      | error e => rw [hres] at hheader; cases hheader
      | ok x =>
        cases x with
        | none => rw [hres] at hheader; cases hheader
        | some x => exact absurd hres (h x)

theorem cpioRanged_next (h : header (view.drop pos) = .ok (some (mode, filesize, name, rest))) :
    cpioRanged child view pos =
      if name = trailer then
        match firstNonzero view (view.length - rest.length + pad4 filesize) with
        | none => ([], .ok none)
        | some next => (ranged cpioTail (view.drop next)).then child ([], .ok none)
      else if isRegular mode then
        (ranged name ((view.drop (view.length - rest.length)).take filesize)).then child
          (cpioRanged child view
            (view.length - rest.length + filesize + (pad4 filesize - filesize)))
      else cpioRanged child view
        (view.length - rest.length + filesize + (pad4 filesize - filesize)) := by
  obtain ⟨hlen, -⟩ := header_eq_some h
  rw [List.length_drop] at hlen
  have hheader := header_ranged (by omega : pos + 110 ≤ view.length)
  rw [h] at hheader
  rw [cpioRanged, dif_neg (by rw [List.length_take, List.length_drop]; omega)]
  split
  next e he => rw [hheader] at he; cases he
  next he => rw [hheader] at he; cases he
  next mode' filesize' name' nameOff' he =>
    rw [hheader] at he
    cases he
    rfl

/-! ### The padding -/

theorem dropWhile_drop_zeros {l : Bytes} {n : ℕ} (h : ∀ b ∈ l.take n, b = 0) :
    (l.drop n).dropWhile (· = 0) = l.dropWhile (· = 0) := by
  conv_rhs => rw [← List.take_append_drop n l]
  rw [List.dropWhile_append_of_pos fun b hb => by simpa using h b hb]

theorem drop_takeWhile_length {l : Bytes} :
    l.drop (l.takeWhile (· = 0)).length = l.dropWhile (· = 0) :=
  calc l.drop (l.takeWhile (· = 0)).length
      = (l.takeWhile (· = 0) ++ l.dropWhile (· = 0)).drop (l.takeWhile (· = 0)).length := by
        rw [List.takeWhile_append_dropWhile]
    _ = l.dropWhile (· = 0) := List.drop_left

/-- Where a view's zeros end is where the stream's do. -/
theorem firstNonzero_eq (view : Bytes) (start : ℕ) :
    (∃ next, firstNonzero view start = some next
        ∧ view.drop next = (view.drop start).dropWhile (· = 0)
        ∧ (view.drop start).dropWhile (· = 0) ≠ [])
      ∨ firstNonzero view start = none ∧ (view.drop start).dropWhile (· = 0) = [] := by
  have hdrop : view.drop (start + ((view.drop start).takeWhile (· = 0)).length)
      = (view.drop start).dropWhile (· = 0) := by
    rw [← List.drop_drop]
    exact drop_takeWhile_length
  unfold firstNonzero
  dsimp only
  split_ifs with hnext
  · refine .inl ⟨_, rfl, hdrop, ?_⟩
    rw [← hdrop]
    intro hnil
    rw [List.drop_eq_nil_iff] at hnil
    omega
  · refine .inr ⟨rfl, ?_⟩
    rw [← hdrop, List.drop_eq_nil_iff]
    omega

/-! ### The walks agree -/

/-- What both walks find from a place on. -/
structure Agree (view : Bytes) (stream ranged : List Direct) : Prop where
  same : List.Forall₂ Same stream ranged
  tails : ∀ d ∈ stream, d.stated = none → d.content <:+ view

theorem Agree.nil : Agree view [] [] := ⟨.nil, by simp⟩

/-- A walk all of whose children end without an error goes on after each. -/
theorem Direct.then_fst {d : Direct} {rest : Listing}
    (h : ∀ x ∈ (d.then child rest).1, child x = none) :
    (d.then child rest).1 = d :: rest.1 ∧ ∀ x ∈ rest.1, child x = none := by
  unfold Direct.then at h ⊢
  cases hd : child d with
  | none =>
    rw [hd] at h
    exact ⟨rfl, fun x hx => h x (List.mem_cons_of_mem _ hx)⟩
  | some e =>
    rw [hd] at h
    have hnone := h d List.mem_cons_self
    rw [hd] at hnone
    cases hnone

theorem Agree.cons {a b : Direct} {stream ranged : List Direct} (h : Agree view stream ranged)
    (hsame : Same a b) (htail : a.stated = none → a.content <:+ view) :
    Agree view (a :: stream) (b :: ranged) where
  same := .cons hsame h.same
  tails := by
    intro d hd
    obtain rfl | hd := List.mem_cons.mp hd
    · exact htail
    · exact h.tails d hd

/-- Past its end a view has no header. -/
theorem cpioRanged_past (hpos : view.length ≤ pos) : (cpioRanged child view pos).1 = [] := by
  refine cpioRanged_ended fun x hx => ?_
  have hlen := (header_eq_some hx).1
  rw [List.length_drop] at hlen
  omega

theorem skipN_cases (r : Bytes) (n : ℕ) :
    (n ≤ r.length ∧ skipN r n = .ok (r.drop n))
      ∨ (r.length < n ∧ ∃ e, skipN r n = .error e) := by
  unfold skipN
  split_ifs with h
  · exact .inl ⟨h, rfl⟩
  · exact .inr ⟨by omega, _, rfl⟩

/-- **After the trailer.** A stream skips the trailer's padding and no data, so the data has to be
zeros. -/
theorem agree_tail {place : ℕ} {stream found : Listing} (hrest : rest = view.drop place)
    (hzeros : ∀ b ∈ rest.take (pad4 filesize), b = 0)
    (hstream : stream = match skipN rest (pad4 filesize - filesize) with
      | .error e => ([], .error e)
      | .ok rest => cpioTailStream child rest)
    (hfound : found = match firstNonzero view (place + pad4 filesize) with
      | none => ([], .ok none)
      | some next => (ranged cpioTail (view.drop next)).then child' ([], .ok none))
    (hchild : ∀ d ∈ stream.1, child d = none) (hchild' : ∀ d ∈ found.1, child' d = none) :
    Agree view stream.1 found.1 := by
  have hpad := le_pad4 filesize
  have hview : view.drop (place + pad4 filesize) = rest.drop (pad4 filesize) := by
    rw [hrest, List.drop_drop]
  have hleft : (rest.drop (pad4 filesize)).dropWhile (· = 0) = rest.dropWhile (· = 0) :=
    dropWhile_drop_zeros hzeros
  have hskipped : (rest.drop (pad4 filesize - filesize)).dropWhile (· = 0)
      = rest.dropWhile (· = 0) := by
    refine dropWhile_drop_zeros fun b hb => hzeros b ?_
    exact (List.take_subset_take_left rest (Nat.sub_le _ _)) hb
  obtain ⟨next, hnext, hdrop, hne⟩ | ⟨hnone, hnil⟩ :=
    firstNonzero_eq view (place + pad4 filesize)
  · rw [hview, hleft] at hdrop hne
    obtain ⟨-, hskip⟩ | ⟨hshort, -⟩ := skipN_cases rest (pad4 filesize - filesize)
    · rw [hskip] at hstream
      rw [hnext] at hfound
      dsimp only at hstream hfound
      have htail : cpioTailStream child (rest.drop (pad4 filesize - filesize))
          = (streamed cpioTail none (rest.dropWhile (· = 0))).then child ([], .ok none) := by
        unfold cpioTailStream
        rw [hskipped]
        split
        · contradiction
        · rfl
      rw [htail] at hstream
      rw [hdrop] at hfound
      subst hstream hfound
      rw [(Direct.then_fst hchild).1, (Direct.then_fst hchild').1]
      refine Agree.nil.cons (same_tail _) fun _ => ?_
      exact (List.dropWhile_suffix _).trans (hrest ▸ List.drop_suffix _ _)
    · refine absurd ?_ hne
      rw [← hleft, List.drop_of_length_le (by omega)]
      rfl
  · rw [hview, hleft] at hnil
    have hempty : stream.1 = [] := by
      obtain ⟨-, hskip⟩ | ⟨-, e, hskip⟩ := skipN_cases rest (pad4 filesize - filesize)
      · rw [hstream, hskip]
        unfold cpioTailStream
        dsimp only
        rw [hskipped, hnil]
      · rw [hstream, hskip]
    rw [hempty, hfound, hnone]
    exact Agree.nil

/-- **From any place on.** The induction goes along the headers, which both walks read alike. -/
theorem blank_agree (hblank : Blank r) : ∀ pos, r = view.drop pos →
    (∀ d ∈ (cpioStream child r).1, child d = none) →
    (∀ d ∈ (cpioRanged child' view pos).1, child' d = none) →
    Agree view (cpioStream child r).1 (cpioRanged child' view pos).1 := by
  induction hblank with
  | ended h =>
    intro pos hr _ _
    subst hr
    rw [cpioStream_ended h, cpioRanged_ended h]
    exact Agree.nil
  | @last r mode filesize rest h hzeros =>
    intro pos hr hchild hchild'
    subst hr
    obtain ⟨n, h110, hn, hrest⟩ := header_rest h
    rw [List.length_drop] at hn
    have hplace : view.length - rest.length = pos + n := by
      rw [hrest, List.length_drop, List.length_drop]
      omega
    rw [cpioStream_next h, if_pos rfl] at hchild ⊢
    rw [cpioRanged_next h, if_pos rfl, hplace] at hchild' ⊢
    rw [List.drop_drop] at hrest
    exact agree_tail hrest hzeros rfl rfl hchild hchild'
  | @member r mode filesize name rest h hname hrest' ih =>
    intro pos hr hchild hchild'
    subst hr
    obtain ⟨n, h110, hn, hrest⟩ := header_rest h
    rw [List.length_drop] at hn
    have hplace : view.length - rest.length = pos + n := by
      rw [hrest, List.length_drop, List.length_drop]
      omega
    rw [List.drop_drop] at hrest
    have hpad := le_pad4 filesize
    have hnext : view.length - rest.length + filesize + (pad4 filesize - filesize)
        = pos + n + pad4 filesize := by omega
    have hdrop : rest.drop (pad4 filesize) = view.drop (pos + n + pad4 filesize) := by
      rw [hrest, List.drop_drop]
    have hlength : rest.length = view.length - (pos + n) := by rw [hrest, List.length_drop]
    rw [cpioStream_next h, if_neg hname] at hchild ⊢
    rw [cpioRanged_next h, if_neg hname, hnext, hplace, ← hrest] at hchild' ⊢
    by_cases hregular : isRegular mode = true
    · rw [if_pos hregular] at hchild hchild'
      rw [if_pos hregular, if_pos hregular]
      obtain ⟨hstream, hlater⟩ := Direct.then_fst hchild
      obtain ⟨hfound, hlater'⟩ := Direct.then_fst hchild'
      rw [hstream, hfound]
      refine Agree.cons ?_ (same_member name filesize rest) fun hstated => nomatch hstated
      obtain ⟨-, hskip⟩ | ⟨hshort, e, hskip⟩ :=
        skipN_cases (rest.drop filesize) (pad4 filesize - filesize)
      · have hrest₂ : (rest.drop filesize).drop (pad4 filesize - filesize)
            = rest.drop (pad4 filesize) := by
          rw [List.drop_drop]
          congr 1
          omega
        rw [hskip, hrest₂] at hlater ⊢
        exact ih (pos + n + pad4 filesize) hdrop hlater hlater'
      · rw [List.length_drop] at hshort
        rw [hskip, cpioRanged_past (by omega)]
        exact Agree.nil
    · rw [if_neg hregular] at hchild hchild'
      rw [if_neg hregular, if_neg hregular]
      obtain ⟨-, hskip⟩ | ⟨hshort, e, hskip⟩ := skipN_cases rest filesize
      · rw [hskip] at hchild ⊢
        dsimp only at hchild ⊢
        obtain ⟨-, hskip'⟩ | ⟨hshort, e, hskip'⟩ :=
          skipN_cases (rest.drop filesize) (pad4 filesize - filesize)
        · have hrest₂ : (rest.drop filesize).drop (pad4 filesize - filesize)
              = rest.drop (pad4 filesize) := by
            rw [List.drop_drop]
            congr 1
            omega
          rw [hskip', hrest₂] at hchild ⊢
          exact ih (pos + n + pad4 filesize) hdrop hchild hchild'
        · rw [List.length_drop] at hshort
          rw [hskip', cpioRanged_past (by omega)]
          exact Agree.nil
      · rw [hskip, cpioRanged_past (by omega)]
        exact Agree.nil

end

/-- **The walks agree.** Of bytes whose trailer, if it is reached, states no data but zeros, both walks
find the same members with the same digests, as long as no member's descent ends in an error; but a view
may be recognized as more than a stream, and a stream's `sha1_git` needs a length that is stated and
kept.  What follows the trailer starts at the same byte. -/
theorem cpio_walks_agree (bytes : Bytes) (child child' : Direct → Option Err) (hblank : Blank bytes)
    (hchild : ∀ d ∈ (cpioStream child bytes).1, child d = none)
    (hchild' : ∀ d ∈ (cpioRanged child' bytes 0).1, child' d = none) :
    List.Forall₂ Same (cpioStream child bytes).1 (cpioRanged child' bytes 0).1
      ∧ ∀ d ∈ (cpioStream child bytes).1, d.stated = none → d.content <:+ bytes := by
  have hagree := blank_agree hblank 0 rfl hchild hchild'
  exact ⟨hagree.same, hagree.tails⟩

/-! ### A FAT after the trailer -/

/-- A trailer that states no data. -/
def bareTrailer : Bytes :=
  asciiBytes ("070701".toList ++ List.replicate 95 '0' ++ ['B'] ++ List.replicate 8 '0' ++ trailer)
    ++ [0, 0, 0, 0]

/-- The boot sector of a FAT. -/
def bootSector : Bytes :=
  [0xEB, 0, 0x90] ++ List.replicate 8 0 ++ [0, 2, 1, 1, 0, 2, 0, 0, 0, 0, 0xF8] ++ List.replicate 32 0
    ++ [70, 65, 84] ++ List.replicate 453 0 ++ [0x55, 0xAA]

set_option maxRecDepth 8000 in
theorem header_bareTrailer : header (bareTrailer ++ bootSector) = .ok (some (0, 0, trailer, bootSector)) := by
  decide

theorem blank_bareTrailer : Blank (bareTrailer ++ bootSector) :=
  .last header_bareTrailer (by simp [pad4])

set_option maxRecDepth 8000 in
theorem stream_bareTrailer : (cpioStream (fun _ => none) (bareTrailer ++ bootSector)).1
    = [streamed cpioTail none bootSector] := by
  rw [cpioStream_next header_bareTrailer]
  decide

set_option maxRecDepth 8000 in
theorem ranged_bareTrailer : (cpioRanged (fun _ => none) (bareTrailer ++ bootSector) 0).1
    = [ranged cpioTail bootSector] := by
  have hheader : header ((bareTrailer ++ bootSector).drop 0) = _ := header_bareTrailer
  rw [cpioRanged_next hheader]
  decide

set_option maxRecDepth 8000 in
/-- The stream's continuation is a plain file without `sha1_git`, the view's a FAT with one. -/
theorem continuation_differs : ∃ a b,
    (cpioStream (fun _ => none) (bareTrailer ++ bootSector)).1 = [a]
      ∧ (cpioRanged (fun _ => none) (bareTrailer ++ bootSector) 0).1 = [b]
      ∧ a.kind = .plain ∧ b.kind = .fat
      ∧ ∀ hash, (a.digests hash).sha1Git = none ∧ (b.digests hash).sha1Git.isSome = true := by
  refine ⟨_, _, stream_bareTrailer, ranged_bareTrailer, by decide, by decide, fun hash => ⟨rfl, rfl⟩⟩

theorem cpio_walks_agree_once : List.Forall₂ Same [streamed cpioTail none bootSector]
    [ranged cpioTail bootSector] ∧ bootSector <:+ bareTrailer ++ bootSector := by
  have hagree := cpio_walks_agree (bareTrailer ++ bootSector) (fun _ => none) (fun _ => none)
    blank_bareTrailer (fun _ _ => rfl) fun _ _ => rfl
  rw [stream_bareTrailer, ranged_bareTrailer] at hagree
  exact ⟨hagree.1, hagree.2 _ List.mem_cons_self rfl⟩

end Cpio

end Hashdex
