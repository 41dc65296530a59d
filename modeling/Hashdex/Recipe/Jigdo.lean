import Hashdex.Lib.BitArray
import Hashdex.Recipe.Check

/-!
# The jigdo template

`emitJigdo` writes the regions of an image as a template: the bytes of the literal regions go into
deflated DATA parts, cut by a rule of their own, and the DESC part lists the regions.  `Template.read` and
`rebuild` are the reader's side.

* `litLoop_ok`, `emitRegion_ok`, `emitRegions_ok`: what the writer adds for a region
* `template_round_trip`: reading the template back rebuilds the image
-/

namespace Hashdex.Jigdo

open BitArray

/-! ### The writer -/

def blocklen : ℕ := 1024

/-- Literal bytes per DATA part. -/
def chunkLen : ℕ := 1 <<< 20

def bufLen : ℕ := 1 <<< 20

def rsyncTable : Array UInt32 := #[
  0x51d65c0f, 0x083cd94b, 0x77f73dd8, 0xa0187d36, 0x29803d07, 0x7ea8ac0e, 0xea4c16c9, 0xfc576443,
  0x6213df29, 0x1c012392, 0xb38946ae, 0x2e20ca31, 0xe4dc532f, 0xcb281c47, 0x8508b6a5, 0xb93c210d,
  0xef02b5f3, 0x66548c74, 0x9ae2deab, 0x3b59f472, 0x4e546447, 0x45232d1f, 0x0ac0a4b1, 0x6c4c264b,
  0x5d24ce84, 0x0f2752cc, 0xa35c7ac7, 0x3e31af51, 0x79675a59, 0x581f0e81, 0x49053122, 0x7339c9d8,
  0xf9833565, 0xa3dbe5b3, 0xcc06eeb9, 0x92d0671c, 0x3eb220a7, 0x64864eae, 0xca100872, 0xc50977a1,
  0xd90378e1, 0x7a36cab9, 0x15c15f4b, 0x8b9ef749, 0xcc1432dc, 0x1ec578ed, 0x27e6e092, 0xbb06db8f,
  0x67f661ac, 0x8dd1a3db, 0x2a0ca16b, 0xb229ab84, 0x127a3337, 0x347d846f, 0xe1ea4b50, 0x008dbb91,
  0x414c1426, 0xd2be76f0, 0x08789a39, 0xb4d93e30, 0x61667760, 0x8871bee9, 0xab7da12d, 0xe3c58620,
  0xe9fdfbbe, 0x64fb04f7, 0x8cc5bbf0, 0xf5272d30, 0x8f161b50, 0x11122b05, 0x7695e72e, 0xa1c5d169,
  0x1bfd0e20, 0xef7e6169, 0xf652d08e, 0xa9d0f139, 0x2f70aa04, 0xae2c7d6d, 0xa3cb9241, 0x3ae7d364,
  0x348788f8, 0xf483b8f1, 0x55a011da, 0x189719dc, 0xb0c5d723, 0x8b344e33, 0x300d46eb, 0xd44fe34f,
  0x1a2016c1, 0x66ce4cd7, 0xa45ea5e3, 0x55cb708a, 0xbce430df, 0xb01ae6e0, 0x3551163b, 0x2c5b157a,
  0x574c4209, 0x430fd0e4, 0x3387e4a5, 0xee1d7451, 0xa9635623, 0x873ab89b, 0xb96bc6aa, 0x59898937,
  0xe646c6e7, 0xb79f8792, 0x3f3235d8, 0xef1b5acf, 0xd975b22b, 0x427acce6, 0xe47a2411, 0x75f8c1e8,
  0xa63f799d, 0x53886ad8, 0x9b2d6d32, 0xea822016, 0xcdee2254, 0xd98bcd98, 0x2933a544, 0x961f379f,
  0x49219792, 0xc61c360f, 0x77cc0c64, 0x7b872046, 0xb91c7c12, 0x7577154b, 0x196573be, 0xf788813f,
  0x41e2e56a, 0xec3cd244, 0x8c7401f1, 0xc2e805fe, 0xe8872fbe, 0x9e2faf7d, 0x6766456b, 0x888e2197,
  0x28535c6d, 0x2ce45f3f, 0x24261d2a, 0xd6faab8b, 0x7a7b42b8, 0x15f0f6fa, 0xfe1711df, 0x7e5685a6,
  0x00930268, 0x74755331, 0x1998912c, 0x7b60498b, 0x501a5786, 0x92ace0f6, 0x1d9752fe, 0x5a731add,
  0x5b3b44fc, 0x473673f9, 0xa42c0321, 0xd82f9f18, 0xb4b225da, 0xfc89ece2, 0x072e1130, 0x5772aae3,
  0x29010857, 0x542c970c, 0x94f67fe5, 0x71209e9b, 0xdb97ea39, 0x2689b41b, 0xae815804, 0xfc5e2651,
  0xd4521674, 0x48ed979a, 0x2f617da3, 0xc350353d, 0xc3accd94, 0xbd8d313a, 0xc61a8e77, 0xf34940a4,
  0x8d2c6b0f, 0x0f0e7225, 0x39e183db, 0xd19ebba9, 0x6a0f37b9, 0xd18922f3, 0x106420c5, 0xaa5a640b,
  0x7cf0d273, 0xcf3238a7, 0x3b33204f, 0x476be7bb, 0x09d23bca, 0xbe84b2f7, 0xb7a3bace, 0x2528cee1,
  0x3dcaa1dd, 0x900ad31a, 0xf21dea6d, 0x9ce51463, 0xf1540bba, 0x0fab1bdd, 0x89cfb79a, 0x01a2a6e6,
  0x6f85d67c, 0xd1669ec4, 0x355db722, 0x00ebd5c4, 0x926eb385, 0x69ead869, 0x0da2b122, 0x402779fe,
  0xdaed92d0, 0x57e9aabb, 0x3df64854, 0xfcc774b5, 0x2e1740ed, 0xa615e024, 0xf7bac938, 0x377dfd1a,
  0xd0559d66, 0x25499be8, 0x2d8f2006, 0xfaa9e486, 0x95e980e7, 0x82aeba67, 0x5a7f2561, 0xbc60dff6,
  0x6c8739a2, 0x7ec59a8b, 0x9998f265, 0xdfe37e5e, 0xb47cee1e, 0x4dd8bc9e, 0x35c57e09, 0x07850b63,
  0x06eadbcb, 0x6c1f2956, 0x01685c2c, 0xf5725eef, 0xf13b98b5, 0xaab739c2, 0x200b1da2, 0xa716b98b,
  0xd9ee3058, 0x76acf20b, 0x2f259e04, 0xed11658b, 0x1532b331, 0x0ab43204, 0xf0beb023, 0xb1685483,
  0x58cbdc4f, 0x079384d3, 0x049b141c, 0xc38184b9, 0xaf551d9a, 0x66222560, 0x059deeca, 0x535f99e2]

/-- The rolling checksum: a sum of table entries and the sum of the sums. -/
def rsync64 (data : Bytes) : Bytes :=
  let sums := data.foldl (fun (s : UInt32 × UInt32) byte =>
    let a := s.1 + rsyncTable.getD byte.toNat 0
    (a, s.2 + a)) (0, 0)
  leBytes 4 sums.1.toNat ++ leBytes 4 sums.2.toNat

/-- `b"DATA"` -/
def dataTag : Bytes := [0x44, 0x41, 0x54, 0x41]

/-- `b"DESC"` -/
def descTag : Bytes := [0x44, 0x45, 0x53, 0x43]

/-- The six low bytes of a length. -/
def u48 (n : ℕ) : Bytes := leBytes 6 n

/-- A sha256, which has 32 bytes. -/
abbrev Sha256 : Type := { d : Bytes // d.length = 32 }

/-- The hash and the compressor of one DATA part. -/
structure Codecs where
  sha256 : Bytes → Sha256
  deflate : Bytes → Bytes

/-- One flattened region of the image, in image order (`JRegion`). -/
inductive Region where
  | part (len : ℕ) (sha256 : Sha256) (urls : List String)
  | literal (len : ℕ)
  deriving DecidableEq

def Region.len : Region → ℕ
  | part len _ _ => len
  | literal len => len

/-- `View::read_full_at`: fewer bytes only at the end of the file. -/
def readFullAt (image : Bytes) (want pos : ℕ) : Bytes := (image.drop pos).take want

/-- Literal bytes that wait for their DATA part; a full chunk does not wait. -/
abbrev Pending : Type := { b : Bytes // b.length < chunkLen }

def Pending.empty : Pending := ⟨[], by decide⟩

structure Emit where
  /-- The template, after its header. -/
  tf : Bytes
  desc : Bytes
  /-- What the image's hash has been fed. -/
  imageHash : Bytes
  litChunk : Pending
  pos : ℕ

variable (c : Codecs)

/-- One DATA part. -/
def dataBytes (chunk : Bytes) : Bytes :=
  let zbytes := c.deflate chunk
  dataTag ++ u48 (16 + zbytes.length) ++ u48 chunk.length ++ zbytes

def flushChunk (tf chunk : Bytes) : Bytes :=
  if chunk = [] then tf else tf ++ dataBytes c chunk

/-- What one read of a literal region leaves. -/
def Emit.take (st : Emit) (got : Bytes) : Emit :=
  let chunk := st.litChunk.1 ++ got
  if h : chunk.length < chunkLen then
    { st with imageHash := st.imageHash ++ got, litChunk := ⟨chunk, h⟩, pos := st.pos + got.length }
  else
    { st with
      tf := flushChunk c st.tf chunk
      imageHash := st.imageHash ++ got
      litChunk := .empty
      pos := st.pos + got.length }

/-- The read loop of a literal region. -/
def litLoop (image : Bytes) (left : ℕ) (st : Emit) : Except Fault Emit :=
  if _h : 0 < left then
    let want := min (min left bufLen) (chunkLen - st.litChunk.1.length)
    let got := readFullAt image want st.pos
    if _hgot : got.length = want then litLoop image (left - got.length) (st.take c got)
    else .error (.error s!"short read at {st.pos}")
  else .ok st
termination_by left
decreasing_by
  have hroom := st.litChunk.2
  have hbuf : 0 < bufLen := by decide
  show left - got.length < left
  have : want = min (min left bufLen) (chunkLen - st.litChunk.1.length) := rfl
  omega

/-- The read loop of a part: what its hash is fed. -/
def partLoop (image : Bytes) (left p : ℕ) (fed : Bytes) : Except Fault Bytes :=
  if _h : 0 < left then
    let want := min left bufLen
    let got := readFullAt image want p
    if _hgot : got.length = want then
      partLoop image (left - got.length) (p + got.length) (fed ++ got)
    else .error (.error s!"short read at {p}")
  else .ok fed
termination_by left
decreasing_by
  have hbuf : 0 < bufLen := by decide
  show left - got.length < left
  have : want = min left bufLen := rfl
  omega

def emitRegion (image : Bytes) (region : Region) (st : Emit) : Except Fault Emit :=
  match region with
  | .literal len =>
    litLoop c image len { st with desc := st.desc ++ 2 :: u48 len }
  | .part len sha256 _ => do
    let tf := flushChunk c st.tf st.litChunk.1
    let head := readFullAt image (min blocklen len) st.pos
    ensure (head.length = min blocklen len) s!"short read at {st.pos}"
    let fed ← partLoop image len st.pos []
    ensure (c.sha256 fed = sha256)
      s!"part at {st.pos} does not hash to its recipe digest — image changed?"
    .ok { tf := tf
          desc := st.desc ++ 9 :: (u48 len ++ rsync64 head ++ sha256.1)
          imageHash := st.imageHash ++ fed
          litChunk := .empty
          pos := st.pos + len }

def emitRegions (image : Bytes) : List Region → Emit → Except Fault Emit
  | [], st => .ok st
  | region :: rest, st =>
    match emitRegion c image region st with
    | .error e => .error e
    | .ok st => emitRegions image rest st

def header (version imageName : String) : Bytes :=
  (s!"JigsawDownload template 2.0 hashdex-hdx/{version} \r\n" ++
    s!"Projected from {imageName}.recipe.json ; " ++
    "hdx at https://github.com/davidar/hashdex \r\n\r\n").toUTF8.toList

/-- `emit_jigdo`, from the flattened regions to the template. -/
def emitJigdo (version imageName : String) (imageSize : ℕ) (imageSha : String) (regions : List Region)
    (image : Bytes) : Except Fault Bytes := do
  ensure (regions.any fun r => match r with | .part .. => true | .literal _ => false)
    "recipe has no claimed refs — a jigdo projection would be one big template"
  ensure (image.length = imageSize) "size differs from the recipe — re-mint first"
  let st ← emitRegions c image regions ⟨header version imageName, [], [], .empty, 0⟩
  let tf := flushChunk c st.tf st.litChunk.1
  ensure (st.pos = imageSize) s!"regions tile {st.pos} of {imageSize} bytes"
  let gotImage := c.sha256 st.imageHash
  ensure (String.ofList (hexLower gotImage.1) = imageSha)
    "image no longer matches the recipe — re-mint first"
  let desc := st.desc ++ 8 :: (u48 imageSize ++ gotImage.1 ++ leBytes 4 blocklen)
  let total := 4 + 6 + desc.length + 6
  .ok (tf ++ descTag ++ u48 total ++ desc ++ u48 total)

/-! ### The reader -/

/-- A DATA part: its two length fields and what is stored. -/
structure DataPart where
  stored : ℕ
  inflated : ℕ
  zbytes : Bytes

/-- An entry of DESC. -/
inductive Entry where
  | literal (len : ℕ)
  | matched (len : ℕ) (rsum : Bytes) (sha256 : Bytes)
  | image (len : ℕ) (sha256 : Bytes) (blocklen : ℕ)

structure Template where
  parts : List DataPart
  /-- The length field of DESC. -/
  total : ℕ
  entries : List Entry

def readU48 (bs : Bytes) : Option (ℕ × Bytes) :=
  if 6 ≤ bs.length then some (ofLe (bs.take 6), bs.drop 6) else none

/-- So many bytes, and the rest. -/
def readBytes (n : ℕ) (bs : Bytes) : Option (Bytes × Bytes) :=
  if n ≤ bs.length then some (bs.take n, bs.drop n) else none

/-- The DATA parts, as their stored lengths cut them. -/
def readData : ℕ → Bytes → Option (List DataPart × Bytes)
  | 0, _ => none
  | fuel + 1, bs =>
    if dataTag.isPrefixOf bs then do
      let (stored, bs) ← readU48 (bs.drop 4)
      let (inflated, bs) ← readU48 bs
      let (zbytes, bs) ← readBytes (stored - 16) bs
      let (parts, rest) ← readData fuel bs
      some (⟨stored, inflated, zbytes⟩ :: parts, rest)
    else some ([], bs)

def readEntries : ℕ → Bytes → Option (List Entry)
  | _, [] => some []
  | 0, _ => none
  | fuel + 1, tag :: bs =>
    if tag = 2 then do
      let (len, bs) ← readU48 bs
      let entries ← readEntries fuel bs
      some (.literal len :: entries)
    else if tag = 9 then do
      let (len, bs) ← readU48 bs
      let (rsum, bs) ← readBytes 8 bs
      let (sha256, bs) ← readBytes 32 bs
      let entries ← readEntries fuel bs
      some (.matched len rsum sha256 :: entries)
    else if tag = 8 then do
      let (len, bs) ← readU48 bs
      let (sha256, bs) ← readBytes 32 bs
      let (block, bs) ← readBytes 4 bs
      let entries ← readEntries fuel bs
      some (.image len sha256 (ofLe block) :: entries)
    else none

/-- The DESC part, which is the rest of the file: its length stands before and after its entries. -/
def readDesc (bs : Bytes) : Option (ℕ × List Entry) :=
  if descTag.isPrefixOf bs then do
    let (total, inner) ← readU48 (bs.drop 4)
    let (body, trailer) ← readBytes (total - 16) inner
    let (again, rest) ← readU48 trailer
    if total = bs.length ∧ again = total ∧ rest = [] then do
      let entries ← readEntries body.length body
      some (total, entries)
    else none
  else none

/-- What follows the header. -/
def Template.read (bs : Bytes) : Option Template := do
  let (parts, rest) ← readData bs.length bs
  let (total, entries) ← readDesc rest
  some ⟨parts, total, entries⟩

/-- The inflated DATA parts, one after another; each has the length its field states. -/
def pool (inflate : Bytes → Option Bytes) : List DataPart → Option Bytes
  | [] => some []
  | part :: parts => do
    let bytes ← inflate part.zbytes
    if bytes.length = part.inflated then do
      let rest ← pool inflate parts
      some (bytes ++ rest)
    else none

/-- Literal entries take their bytes from the pool, matched ones from the file with their sha256; in the
end the pool is used up. -/
def rebuild (fileWith : Bytes → Option Bytes) : List Entry → Bytes → Option Bytes
  | [], lits => if lits = [] then some [] else none
  | .literal len :: entries, lits => do
    let (bytes, lits) ← readBytes len lits
    let rest ← rebuild fileWith entries lits
    some (bytes ++ rest)
  | .matched len _ sha256 :: entries, lits => do
    let file ← fileWith sha256
    if file.length = len then do
      let rest ← rebuild fileWith entries lits
      some (file ++ rest)
    else none
  | .image .. :: entries, lits => rebuild fileWith entries lits

/-! ### What the writer writes -/

/-- The regions with the offsets they stand at. -/
def placed : ℕ → List Region → List (ℕ × Region)
  | _, [] => []
  | pos, r :: rest => (pos, r) :: placed (pos + r.len) rest

def Region.entry (image : Bytes) (pos : ℕ) : Region → Entry
  | .part len sha256 _ => .matched len (rsync64 (readFullAt image (min blocklen len) pos)) sha256.1
  | .literal len => .literal len

/-- What a region adds to the literal bytes. -/
def Region.lits (image : Bytes) (pos : ℕ) : Region → Bytes
  | .part .. => []
  | .literal len => readFullAt image len pos

/-- A part's digest is that of the bytes it stands at. -/
def Region.Holds (image : Bytes) (pos : ℕ) : Region → Prop
  | .part len sha256 _ => c.sha256 (readFullAt image len pos) = sha256
  | .literal _ => True

def Entry.bytes : Entry → Bytes
  | .literal len => 2 :: u48 len
  | .matched len rsum sha256 => 9 :: (u48 len ++ rsum ++ sha256)
  | .image len sha256 blocklen => 8 :: (u48 len ++ sha256 ++ leBytes 4 blocklen)

def totalLen (regions : List Region) : ℕ := (regions.map Region.len).sum

theorem readFullAt_add (image : Bytes) (a b pos : ℕ) :
    readFullAt image (a + b) pos = readFullAt image a pos ++ readFullAt image b (pos + a) := by
  rw [readFullAt, readFullAt, readFullAt, List.take_add, List.drop_drop]

theorem length_readFullAt (image : Bytes) (want pos : ℕ) :
    (readFullAt image want pos).length = min want (image.length - pos) := by
  rw [readFullAt, List.length_take, List.length_drop]

/-- The template grew by DATA parts, and with what waits they hold so many more literal bytes. -/
def Wrote (st st' : Emit) (lits : Bytes) : Prop :=
  ∃ chunks : List Bytes, st'.tf = st.tf ++ chunks.flatMap (dataBytes c) ∧
    (∀ b ∈ chunks, b.length ≤ chunkLen) ∧
    chunks.flatten ++ st'.litChunk.1 = st.litChunk.1 ++ lits

/-- What the writer does for so many bytes of the image. -/
structure Advance (image : Bytes) (len : ℕ) (entry lits : Bytes) (st st' : Emit) : Prop where
  fits : st.pos + len ≤ image.length
  desc : st'.desc = st.desc ++ entry
  hash : st'.imageHash = st.imageHash ++ readFullAt image len st.pos
  pos : st'.pos = st.pos + len
  wrote : Wrote c st st' lits

section

variable {c} {image : Bytes} {st st' st'' : Emit}

theorem Wrote.trans {l l' : Bytes} (h : Wrote c st st' l) (h' : Wrote c st' st'' l') :
    Wrote c st st'' (l ++ l') := by
  obtain ⟨xs, htf, hlen, hlits⟩ := h
  obtain ⟨ys, htf', hlen', hlits'⟩ := h'
  use xs ++ ys
  constructor
  · rw [htf', htf, List.flatMap_append, List.append_assoc]
  constructor
  · intro b hb
    cases List.mem_append.mp hb with
    | inl hb => exact hlen b hb
    | inr hb => exact hlen' b hb
  · rw [List.flatten_append, List.append_assoc, hlits', ← List.append_assoc, hlits,
      List.append_assoc]

theorem Advance.trans {n n' : ℕ} {e e' l l' : Bytes} (h : Advance c image n e l st st')
    (h' : Advance c image n' e' l' st' st'') :
    Advance c image (n + n') (e ++ e') (l ++ l') st st'' where
  fits := by
    have := h'.fits
    rw [h.pos] at this
    omega
  desc := by rw [h'.desc, h.desc, List.append_assoc]
  hash := by rw [h'.hash, h.hash, h.pos, readFullAt_add, List.append_assoc]
  pos := by rw [h'.pos, h.pos, Nat.add_assoc]
  wrote := h.wrote.trans h'.wrote

theorem Advance.refl (hpos : st.pos ≤ image.length) : Advance c image 0 [] [] st st where
  fits := hpos
  desc := (List.append_nil _).symm
  hash := by simp [readFullAt]
  pos := rfl
  wrote := ⟨[], by simp, by simp, by simp⟩

theorem flushChunk_wrote (tf chunk : Bytes) (hlen : chunk.length ≤ chunkLen) :
    ∃ chunks : List Bytes, flushChunk c tf chunk = tf ++ chunks.flatMap (dataBytes c) ∧
      (∀ b ∈ chunks, b.length ≤ chunkLen) ∧ chunks.flatten = chunk := by
  rw [flushChunk]
  split_ifs with hnil
  · exact ⟨[], by simp, by simp, by simp [hnil]⟩
  · exact ⟨[chunk], by simp, by simpa using hlen, by simp⟩

theorem Emit.take_advance {got : Bytes} (hgot : got = readFullAt image got.length st.pos)
    (hfits : st.pos + got.length ≤ image.length)
    (hroom : st.litChunk.1.length + got.length ≤ chunkLen) :
    Advance c image got.length [] got st (st.take c got) := by
  have hlen : (st.litChunk.1 ++ got).length ≤ chunkLen := by rwa [List.length_append]
  rw [Emit.take]
  split_ifs with hfull
  · exact ⟨hfits, (List.append_nil _).symm, by rw [← hgot], rfl, [], by simp, by simp, by simp⟩
  · obtain ⟨chunks, htf, hchunks, hflat⟩ := flushChunk_wrote (c := c) st.tf _ hlen
    exact ⟨hfits, (List.append_nil _).symm, by rw [← hgot], rfl, chunks, htf, hchunks,
      by rw [hflat]; exact List.append_nil _⟩

/-- A literal region: the loop ends well exactly when its bytes are there. -/
theorem litLoop_ok {left : ℕ} (h : litLoop c image left st = .ok st')
    (hpos : st.pos ≤ image.length) :
    Advance c image left [] (readFullAt image left st.pos) st st' := by
  induction left using Nat.strong_induction_on generalizing st with
  | _ left ih =>
    rw [litLoop] at h
    split_ifs at h with hleft
    · dsimp only at h
      split_ifs at h with hgot
      have hroom := st.litChunk.2
      have hbuf : 0 < bufLen := by decide
      have hlen := length_readFullAt image
        (min (min left bufLen) (chunkLen - st.litChunk.1.length)) st.pos
      generalize hwant : min (min left bufLen) (chunkLen - st.litChunk.1.length) = want at *
      have hstep : Advance c image want [] (readFullAt image want st.pos) st
          (st.take c (readFullAt image want st.pos)) := by
        have htake : Advance c image (readFullAt image want st.pos).length []
            (readFullAt image want st.pos) st (st.take c (readFullAt image want st.pos)) :=
          Emit.take_advance (by rw [hgot]) (by omega) (by omega)
        rwa [hgot] at htake
      rw [hgot] at h
      have hrest := ih (left - want) (by omega) h (by
        rw [hstep.pos]
        omega)
      rw [hstep.pos] at hrest
      have hall := hstep.trans hrest
      rw [← readFullAt_add, Nat.add_sub_cancel' (by omega)] at hall
      exact hall
    · cases h
      have hzero : left = 0 := by omega
      rw [hzero]
      exact .refl hpos

theorem litLoop_total {left : ℕ} (hfits : st.pos + left ≤ image.length) :
    ∃ st', litLoop c image left st = .ok st' := by
  induction left using Nat.strong_induction_on generalizing st with
  | _ left ih =>
    rw [litLoop]
    split_ifs with hleft
    · have hroom := st.litChunk.2
      have hbuf : 0 < bufLen := by decide
      have hlen := length_readFullAt image
        (min (min left bufLen) (chunkLen - st.litChunk.1.length)) st.pos
      dsimp only
      generalize hwant : min (min left bufLen) (chunkLen - st.litChunk.1.length) = want at *
      have hgot : (readFullAt image want st.pos).length = want := by omega
      rw [dif_pos hgot]
      have hpos : (st.take c (readFullAt image want st.pos)).pos = st.pos + want := by
        rw [Emit.take]
        split_ifs <;> simp [hgot]
      exact ih _ (by omega) (by
        rw [hpos]
        omega)
    · exact ⟨st, rfl⟩

theorem partLoop_ok {left pos : ℕ} {fed out : Bytes} (h : partLoop image left pos fed = .ok out)
    (hpos : pos ≤ image.length) :
    pos + left ≤ image.length ∧ out = fed ++ readFullAt image left pos := by
  induction left using Nat.strong_induction_on generalizing pos fed with
  | _ left ih =>
    rw [partLoop] at h
    split_ifs at h with hleft
    · dsimp only at h
      split_ifs at h with hgot
      have hbuf : 0 < bufLen := by decide
      have hlen := length_readFullAt image (min left bufLen) pos
      generalize hwant : min left bufLen = want at *
      rw [hgot] at h
      obtain ⟨hfits, hout⟩ := ih (left - want) (by omega) h (by omega)
      constructor
      · omega
      · rw [hout, List.append_assoc, ← readFullAt_add, Nat.add_sub_cancel' (by omega)]
    · cases h
      have hzero : left = 0 := by omega
      rw [hzero]
      exact ⟨hpos, by simp [readFullAt]⟩

theorem partLoop_total {left pos : ℕ} {fed : Bytes} (hfits : pos + left ≤ image.length) :
    ∃ out, partLoop image left pos fed = .ok out := by
  induction left using Nat.strong_induction_on generalizing pos fed with
  | _ left ih =>
    rw [partLoop]
    split_ifs with hleft
    · have hbuf : 0 < bufLen := by decide
      have hlen := length_readFullAt image (min left bufLen) pos
      dsimp only
      generalize hwant : min left bufLen = want at *
      have hgot : (readFullAt image want pos).length = want := by omega
      rw [dif_pos hgot]
      exact ih _ (by omega) (by omega)
    · exact ⟨fed, rfl⟩

/-- A region of either kind. -/
theorem emitRegion_ok {r : Region} (h : emitRegion c image r st = .ok st')
    (hpos : st.pos ≤ image.length) :
    Advance c image r.len (r.entry image st.pos).bytes (r.lits image st.pos) st st' ∧
      r.Holds c image st.pos := by
  cases r with
  | literal len =>
    have hloop := litLoop_ok h hpos
    exact ⟨⟨hloop.fits, by rw [hloop.desc, List.append_nil]; rfl, hloop.hash, hloop.pos,
      hloop.wrote⟩, trivial⟩
  | part len sha256 urls =>
    obtain ⟨_, -, h⟩ := bind_eq_ok.mp h
    obtain ⟨fed, hfed, h⟩ := bind_eq_ok.mp h
    obtain ⟨_, hsha, h⟩ := bind_eq_ok.mp h
    obtain ⟨hfits, hout⟩ := partLoop_ok hfed hpos
    rw [List.nil_append] at hout
    cases h
    obtain ⟨chunks, htf, hchunks, hflat⟩ :=
      flushChunk_wrote (c := c) st.tf st.litChunk.1 st.litChunk.2.le
    constructor
    · exact ⟨hfits, by simp [Region.entry, Entry.bytes], by rw [hout]; rfl, rfl, chunks, htf,
        hchunks, by rw [hflat]; rfl⟩
    · rw [hout] at hsha
      have hholds := ensure_eq_ok.mp hsha
      exact hholds

theorem emitRegion_total {r : Region} (hfits : st.pos + r.len ≤ image.length)
    (hholds : r.Holds c image st.pos) : ∃ st', emitRegion c image r st = .ok st' := by
  cases r with
  | literal len => exact litLoop_total hfits
  | part len sha256 urls =>
    have hfits : st.pos + len ≤ image.length := hfits
    have hhead : (readFullAt image (min blocklen len) st.pos).length = min blocklen len := by
      rw [length_readFullAt]
      omega
    obtain ⟨fed, hfed⟩ : ∃ out, partLoop image len st.pos [] = .ok out := partLoop_total hfits
    obtain ⟨-, hout⟩ := partLoop_ok hfed (by omega)
    have hsha : c.sha256 fed = sha256 := by
      rw [hout]
      exact hholds
    simp [emitRegion, ensure, hhead, hfed, hsha, bind, Except.bind]

theorem emitRegions_ok {regions : List Region} (h : emitRegions c image regions st = .ok st')
    (hpos : st.pos ≤ image.length) :
    Advance c image (totalLen regions)
        ((placed st.pos regions).flatMap fun p => (p.2.entry image p.1).bytes)
        ((placed st.pos regions).flatMap fun p => p.2.lits image p.1) st st' ∧
      ∀ p ∈ placed st.pos regions, p.2.Holds c image p.1 := by
  induction regions generalizing st with
  | nil =>
    cases h
    exact ⟨.refl hpos, by simp [placed]⟩
  | cons r rest ih =>
    rw [emitRegions] at h
    cases hr : emitRegion c image r st with
    | error e => simp [hr] at h
    | ok mid =>
      rw [hr] at h
      obtain ⟨hstep, hholds⟩ := emitRegion_ok hr hpos
      have hmid : mid.pos ≤ image.length := by
        rw [hstep.pos]
        exact hstep.fits
      obtain ⟨hrest, hall⟩ := ih h hmid
      rw [hstep.pos] at hrest hall
      constructor
      · exact hstep.trans hrest
      · intro p hp
        cases List.mem_cons.mp hp with
        | inl hp =>
          rw [hp]
          exact hholds
        | inr hp => exact hall p hp

theorem emitRegions_total {regions : List Region} (hfits : st.pos + totalLen regions ≤ image.length)
    (hholds : ∀ p ∈ placed st.pos regions, p.2.Holds c image p.1) :
    ∃ st', emitRegions c image regions st = .ok st' := by
  induction regions generalizing st with
  | nil => exact ⟨st, rfl⟩
  | cons r rest ih =>
    have htotal : totalLen (r :: rest) = r.len + totalLen rest := by
      simp [totalLen]
    obtain ⟨mid, hr⟩ : ∃ st', emitRegion c image r st = .ok st' :=
      emitRegion_total (by omega) (hholds _ List.mem_cons_self)
    obtain ⟨hstep, -⟩ := emitRegion_ok hr (by omega)
    rw [emitRegions, hr]
    apply ih
    · rw [hstep.pos]
      omega
    · intro p hp
      rw [hstep.pos] at hp
      exact hholds p (List.mem_cons_of_mem _ hp)

end

/-! ### The whole template -/

/-- DESC, from its entries to its end. -/
def descBytes (entries : List Entry) : Bytes :=
  let body := entries.flatMap Entry.bytes
  descTag ++ u48 (16 + body.length) ++ body ++ u48 (16 + body.length)

/-- The entries of the regions, and the image's own. -/
def entriesOf (image : Bytes) (regions : List Region) : List Entry :=
  ((placed 0 regions).map fun p => p.2.entry image p.1) ++
    [.image image.length (c.sha256 image).1 blocklen]

def litsOf (image : Bytes) (regions : List Region) : Bytes :=
  (placed 0 regions).flatMap fun p => p.2.lits image p.1

/-- Some region is a part. -/
def HasPart (regions : List Region) : Prop := ∃ len sha256 urls, Region.part len sha256 urls ∈ regions

section

variable {c} {version imageName imageSha : String} {imageSize : ℕ} {regions : List Region}
  {image : Bytes}

theorem emitJigdo_ok {file : Bytes}
    (h : emitJigdo c version imageName imageSize imageSha regions image = .ok file) :
    (∀ p ∈ placed 0 regions, p.2.Holds c image p.1) ∧ totalLen regions = image.length ∧
      ∃ chunks : List Bytes, (∀ b ∈ chunks, b.length ≤ chunkLen) ∧
        chunks.flatten = litsOf image regions ∧
        file = header version imageName ++
          (chunks.flatMap (dataBytes c) ++ descBytes (entriesOf c image regions)) := by
  obtain ⟨_, -, h⟩ := bind_eq_ok.mp h
  obtain ⟨_, hsize, h⟩ := bind_eq_ok.mp h
  obtain ⟨st, hst, h⟩ := bind_eq_ok.mp h
  obtain ⟨_, htiles, h⟩ := bind_eq_ok.mp h
  obtain ⟨_, -, h⟩ := bind_eq_ok.mp h
  have hsize := ensure_eq_ok.mp hsize
  have htiles := ensure_eq_ok.mp htiles
  obtain ⟨hrun, hholds⟩ := emitRegions_ok hst (Nat.zero_le _)
  obtain ⟨chunks, htf, hchunks, hflat⟩ := hrun.wrote
  obtain ⟨last, hflush, hlast, hlastflat⟩ :=
    flushChunk_wrote (c := c) st.tf st.litChunk.1 st.litChunk.2.le
  have hpos : st.pos = totalLen regions := by
    rw [hrun.pos]
    exact Nat.zero_add _
  have htotal : totalLen regions = image.length := by omega
  have hdesc : st.desc = ((placed 0 regions).map fun p => p.2.entry image p.1).flatMap Entry.bytes := by
    rw [hrun.desc, List.flatMap_map]
    rfl
  have hhash : st.imageHash = image := by
    rw [hrun.hash, htotal]
    simp [readFullAt]
  constructor
  · exact hholds
  constructor
  · exact htotal
  use chunks ++ last
  constructor
  · intro b hb
    cases List.mem_append.mp hb with
    | inl hb => exact hchunks b hb
    | inr hb => exact hlast b hb
  constructor
  · rw [List.flatten_append, hlastflat, hflat]
    rfl
  · have hbody : (entriesOf c image regions).flatMap Entry.bytes
        = st.desc ++ 8 :: (u48 imageSize ++ (c.sha256 st.imageHash).1 ++ leBytes 4 blocklen) := by
      rw [entriesOf, List.flatMap_append, hdesc, hhash, ← hsize]
      simp [Entry.bytes]
    cases h
    rw [descBytes, hbody, hflush, htf]
    have hlen : ∀ n, 4 + 6 + n + 6 = 16 + n := by omega
    simp only [hlen, List.flatMap_append, List.append_assoc]

/-- When the writer succeeds. -/
theorem emitJigdo_succeeds :
    (∃ file, emitJigdo c version imageName imageSize imageSha regions image = .ok file) ↔
      HasPart regions ∧ image.length = imageSize ∧ totalLen regions = image.length ∧
        (∀ p ∈ placed 0 regions, p.2.Holds c image p.1) ∧
        String.ofList (hexLower (c.sha256 image).1) = imageSha := by
  have hpart : (regions.any fun r => match r with | .part .. => true | .literal _ => false) = true ↔
      HasPart regions := by
    rw [List.any_eq_true]
    constructor
    · rintro ⟨r, hr, h⟩
      cases r with
      | part len sha256 urls => exact ⟨len, sha256, urls, hr⟩
      | literal len => cases h
    · rintro ⟨len, sha256, urls, h⟩
      exact ⟨_, h, rfl⟩
  constructor
  · rintro ⟨file, h⟩
    obtain ⟨hholds, htotal, -⟩ := emitJigdo_ok h
    obtain ⟨_, hany, h⟩ := bind_eq_ok.mp h
    obtain ⟨_, hsize, h⟩ := bind_eq_ok.mp h
    obtain ⟨st, hst, h⟩ := bind_eq_ok.mp h
    obtain ⟨_, -, h⟩ := bind_eq_ok.mp h
    obtain ⟨_, hsha, -⟩ := bind_eq_ok.mp h
    have hhash := (emitRegions_ok hst (Nat.zero_le _)).1.hash
    have himage : st.imageHash = image := by
      rw [hhash, htotal]
      simp [readFullAt]
    rw [himage] at hsha
    exact ⟨hpart.mp (ensure_eq_ok.mp hany), ensure_eq_ok.mp hsize, htotal, hholds,
      ensure_eq_ok.mp hsha⟩
  · rintro ⟨hany, hsize, htotal, hholds, hsha⟩
    obtain ⟨st, hst⟩ : ∃ st, emitRegions c image regions ⟨header version imageName, [], [], .empty, 0⟩ =
        .ok st := emitRegions_total (by simp [htotal]) hholds
    have hrun := (emitRegions_ok hst (Nat.zero_le _)).1
    have himage : st.imageHash = image := by
      rw [hrun.hash, htotal]
      simp [readFullAt]
    have hpos : st.pos = imageSize := by
      rw [hrun.pos, htotal, hsize]
      exact Nat.zero_add _
    simp [emitJigdo, ensure, hpart.mpr hany, hsize, hst, hpos, himage, hsha, bind, Except.bind]

end

/-! ### Reading it back -/

@[simp] theorem length_u48 (n : ℕ) : (u48 n).length = 6 := length_leBytes 6 n

theorem readU48_append {n : ℕ} (h : n < 2 ^ 48) (rest : Bytes) :
    readU48 (u48 n ++ rest) = some (n, rest) := by
  have hle : 6 ≤ (u48 n ++ rest).length := by simp
  have htake : (u48 n ++ rest).take 6 = u48 n := List.take_left' (length_u48 n)
  have hdrop : (u48 n ++ rest).drop 6 = rest := List.drop_left' (length_u48 n)
  rw [readU48, if_pos hle, htake, hdrop, u48, ofLe_leBytes, Nat.mod_eq_of_lt (by omega)]

theorem readBytes_append {n : ℕ} {a : Bytes} (h : a.length = n) (rest : Bytes) :
    readBytes n (a ++ rest) = some (a, rest) := by
  rw [readBytes, if_pos (by simp [h]), List.take_left' h, List.drop_left' h]

/-- The part that a chunk is written as. -/
def dataPart (chunk : Bytes) : DataPart :=
  ⟨16 + (c.deflate chunk).length, chunk.length, c.deflate chunk⟩

theorem readData_dataBytes {chunks : List Bytes} {desc : Bytes} {fuel : ℕ}
    (hfit : ∀ b ∈ chunks, 16 + (c.deflate b).length < 2 ^ 48 ∧ b.length < 2 ^ 48)
    (hdesc : dataTag.isPrefixOf desc = false) (hfuel : chunks.length < fuel) :
    readData fuel (chunks.flatMap (dataBytes c) ++ desc) = some (chunks.map (dataPart c), desc) := by
  induction chunks generalizing fuel with
  | nil =>
    cases fuel with
    | zero => simp at hfuel
    | succ fuel => simp [readData, hdesc]
  | cons b rest ih =>
    cases fuel with
    | zero => simp at hfuel
    | succ fuel =>
      obtain ⟨hstored, hinflated⟩ := hfit b List.mem_cons_self
      have hrest := ih (fun b hb => hfit b (List.mem_cons_of_mem _ hb))
        (Nat.lt_of_succ_lt_succ hfuel)
      have hbytes : (b :: rest).flatMap (dataBytes c) ++ desc = dataTag ++
          (u48 (16 + (c.deflate b).length) ++ (u48 b.length ++
            (c.deflate b ++ (rest.flatMap (dataBytes c) ++ desc)))) := by
        simp [dataBytes]
      have htag : ∀ bs : Bytes, dataTag.isPrefixOf (dataTag ++ bs) = true := fun bs => by
        rw [List.isPrefixOf_iff_prefix]
        exact List.prefix_append _ _
      have hdrop : ∀ bs : Bytes, (dataTag ++ bs).drop 4 = bs := fun bs => List.drop_left' rfl
      have hzbytes : 16 + (c.deflate b).length - 16 = (c.deflate b).length := by omega
      rw [hbytes, readData, if_pos (htag _), hdrop]
      simp only [readU48_append hstored, readU48_append hinflated, hzbytes, readBytes_append rfl,
        hrest, Option.bind_eq_bind, Option.bind_some]
      rfl

/-- The fields of an entry have their widths. -/
def Entry.Fits : Entry → Prop
  | .literal len => len < 2 ^ 48
  | .matched len rsum sha256 => len < 2 ^ 48 ∧ rsum.length = 8 ∧ sha256.length = 32
  | .image len sha256 blocklen => len < 2 ^ 48 ∧ sha256.length = 32 ∧ blocklen < 2 ^ 32

theorem readEntries_bytes {entries : List Entry} {fuel : ℕ} (hfit : ∀ e ∈ entries, e.Fits)
    (hfuel : entries.length ≤ fuel) :
    readEntries fuel (entries.flatMap Entry.bytes) = some entries := by
  induction entries generalizing fuel with
  | nil => cases fuel <;> rfl
  | cons e rest ih =>
    cases fuel with
    | zero => simp at hfuel
    | succ fuel =>
      have hrest := ih (fun e he => hfit e (List.mem_cons_of_mem _ he))
        (Nat.le_of_succ_le_succ hfuel)
      have he := hfit e List.mem_cons_self
      cases e with
      | literal len =>
        have hlen : len < 2 ^ 48 := he
        simp [Entry.bytes, readEntries, readU48_append hlen, hrest]
      | matched len rsum sha256 =>
        obtain ⟨hlen, hrsum, hsha⟩ := he
        simp [Entry.bytes, readEntries, readU48_append hlen, readBytes_append hrsum,
          readBytes_append hsha, hrest]
      | image len sha256 blocklen =>
        obtain ⟨hlen, hsha, hblock⟩ := he
        have hblocklen : ofLe (leBytes 4 blocklen) = blocklen := by
          rw [ofLe_leBytes, Nat.mod_eq_of_lt (by omega)]
        simp [Entry.bytes, readEntries, readU48_append hlen, readBytes_append hsha,
          readBytes_append (length_leBytes 4 blocklen), hblocklen, hrest]

theorem length_entry_pos (e : Entry) : 0 < e.bytes.length := by
  cases e <;> simp [Entry.bytes]

theorem length_le_flatMap_bytes (entries : List Entry) :
    entries.length ≤ (entries.flatMap Entry.bytes).length := by
  induction entries with
  | nil => exact le_rfl
  | cons e rest ih =>
    have := length_entry_pos e
    rw [List.flatMap_cons, List.length_append, List.length_cons]
    omega

theorem readDesc_descBytes {entries : List Entry} (hfit : ∀ e ∈ entries, e.Fits)
    (hlen : (descBytes entries).length < 2 ^ 48) :
    readDesc (descBytes entries) = some ((descBytes entries).length, entries) := by
  have htotal : (descBytes entries).length = 16 + (entries.flatMap Entry.bytes).length := by
    simp [descBytes, descTag]
    omega
  have hbytes : descBytes entries = descTag ++ (u48 (descBytes entries).length ++
      (entries.flatMap Entry.bytes ++ (u48 (descBytes entries).length ++ []))) := by
    rw [htotal]
    simp [descBytes]
  have htag : descTag.isPrefixOf (descBytes entries) = true := by
    rw [List.isPrefixOf_iff_prefix, hbytes]
    exact List.prefix_append _ _
  have hdrop : (descBytes entries).drop 4 = u48 (descBytes entries).length ++
      (entries.flatMap Entry.bytes ++ (u48 (descBytes entries).length ++ [])) := by
    conv_lhs => rw [hbytes]
    exact List.drop_left' rfl
  have hbody : (entries.flatMap Entry.bytes).length = (descBytes entries).length - 16 := by omega
  have hentries := readEntries_bytes hfit (length_le_flatMap_bytes entries)
  rw [readDesc, if_pos htag, hdrop]
  simp only [readU48_append hlen, readBytes_append hbody, hentries, Option.bind_eq_bind,
    Option.bind_some, and_self, if_true]

theorem pool_dataParts {inflate : Bytes → Option Bytes}
    (hinflate : ∀ b, inflate (c.deflate b) = some b) (chunks : List Bytes) :
    pool inflate (chunks.map (dataPart c)) = some chunks.flatten := by
  induction chunks with
  | nil => rfl
  | cons b rest ih =>
    rw [List.map_cons, pool]
    simp only [dataPart, hinflate, Option.bind_eq_bind, Option.bind_some, if_true]
    change pool inflate (rest.map (dataPart c)) = some rest.flatten at ih
    show (pool inflate (rest.map (dataPart c))).bind (fun x => some (b ++ x)) = _
    rw [ih]
    rfl

/-- The files a reader can fetch by their sha256.  Each part's is there, and equal digests mean equal
bytes. -/
structure Library (image : Bytes) (regions : List Region) (fileWith : Bytes → Option Bytes) :
    Prop where
  right : ∀ sha256 file, fileWith sha256 = some file → (c.sha256 file).1 = sha256
  has : ∀ pos len sha256 urls, (pos, Region.part len sha256 urls) ∈ placed 0 regions →
    (fileWith sha256.1).isSome
  same : ∀ pos len sha256 urls file, (pos, Region.part len sha256 urls) ∈ placed 0 regions →
    fileWith sha256.1 = some file → c.sha256 file = c.sha256 (readFullAt image len pos) →
    file = readFullAt image len pos

/-- All lengths are below `2^48`: the regions', the image's, and those of the parts of the template. -/
structure Lengths48 (image : Bytes) (regions : List Region) : Prop where
  region : ∀ r ∈ regions, r.len < 2 ^ 48
  whole : image.length < 2 ^ 48
  desc : (descBytes (entriesOf c image regions)).length < 2 ^ 48
  data : ∀ chunk : Bytes, chunk.length ≤ chunkLen → 16 + (c.deflate chunk).length < 2 ^ 48

section

variable {c} {image : Bytes} {regions : List Region} {fileWith : Bytes → Option Bytes}

theorem Library.fetch (h : Library c image regions fileWith)
    (hholds : ∀ p ∈ placed 0 regions, p.2.Holds c image p.1) {pos len : ℕ} {sha256 : Sha256}
    {urls : List String} (hp : (pos, Region.part len sha256 urls) ∈ placed 0 regions) :
    fileWith sha256.1 = some (readFullAt image len pos) := by
  obtain ⟨file, hfile⟩ := Option.isSome_iff_exists.mp (h.has pos len sha256 urls hp)
  have hsha : c.sha256 file = sha256 := Subtype.ext (h.right _ _ hfile)
  have hpart : c.sha256 (readFullAt image len pos) = sha256 := hholds _ hp
  rw [hfile, h.same pos len sha256 urls file hp hfile (hsha.trans hpart.symm)]

theorem rebuild_literal {len : ℕ} {entries : List Entry} {bytes lits rest : Bytes}
    (hlen : bytes.length = len) (hrest : rebuild fileWith entries lits = some rest) :
    rebuild fileWith (.literal len :: entries) (bytes ++ lits) = some (bytes ++ rest) := by
  rw [rebuild]
  simp only [readBytes_append hlen, hrest, Option.bind_eq_bind, Option.bind_some]

theorem rebuild_matched {len : ℕ} {rsum sha256 file : Bytes} {entries : List Entry}
    {lits rest : Bytes} (hfile : fileWith sha256 = some file) (hlen : file.length = len)
    (hrest : rebuild fileWith entries lits = some rest) :
    rebuild fileWith (.matched len rsum sha256 :: entries) lits = some (file ++ rest) := by
  rw [rebuild]
  simp only [hfile, hlen, hrest, Option.bind_eq_bind, Option.bind_some, if_true]

/-- The reader takes the regions one by one; the two streams stay in step. -/
theorem rebuild_placed (pos : ℕ) (entries : List Entry) (tail : Bytes) (rs : List Region)
    (hfetch : ∀ q len sha256 urls, (q, Region.part len sha256 urls) ∈ placed pos rs →
      fileWith sha256.1 = some (readFullAt image len q))
    (hfits : pos + totalLen rs ≤ image.length) (htail : rebuild fileWith entries [] = some tail) :
    rebuild fileWith ((placed pos rs).map (fun p => p.2.entry image p.1) ++ entries)
        ((placed pos rs).flatMap fun p => p.2.lits image p.1)
      = some (readFullAt image (totalLen rs) pos ++ tail) := by
  induction rs generalizing pos with
  | nil => simpa [placed, totalLen, readFullAt] using htail
  | cons r rest ih =>
    have htotal : totalLen (r :: rest) = r.len + totalLen rest := by
      simp [totalLen]
    have hrest := @ih (pos + r.len)
      (fun q len sha256 urls hq => hfetch q len sha256 urls (List.mem_cons_of_mem _ hq)) (by omega)
    have hlen : (readFullAt image r.len pos).length = r.len := by
      rw [length_readFullAt]
      omega
    rw [htotal, readFullAt_add, List.append_assoc]
    cases r with
    | literal len => exact rebuild_literal hlen hrest
    | part len sha256 urls =>
      exact rebuild_matched (hfetch pos len sha256 urls List.mem_cons_self) hlen hrest

theorem length_rsync64 (data : Bytes) : (rsync64 data).length = 8 := by
  simp [rsync64]

theorem placed_len {pos : ℕ} {rs : List Region} {p : ℕ × Region} (hp : p ∈ placed pos rs) :
    p.2 ∈ rs := by
  induction rs generalizing pos with
  | nil => simp [placed] at hp
  | cons r rest ih =>
    cases List.mem_cons.mp hp with
    | inl hp =>
      rw [hp]
      exact List.mem_cons_self
    | inr hp => exact List.mem_cons_of_mem _ (ih hp)

theorem Lengths48.entries_fit (h : Lengths48 c image regions) :
    ∀ e ∈ entriesOf c image regions, e.Fits := by
  intro e he
  cases List.mem_append.mp he with
  | inl he =>
    obtain ⟨⟨pos, r⟩, hp, rfl⟩ := List.mem_map.mp he
    have hlen := h.region r (placed_len hp)
    cases r with
    | literal len => exact hlen
    | part len sha256 urls => exact ⟨hlen, length_rsync64 _, sha256.2⟩
  | inr he =>
    rw [List.mem_singleton.mp he]
    exact ⟨h.whole, (c.sha256 image).2, by decide⟩

end

/-- **The template reads back.**  The writer succeeds on every tiling whose parts and image have the
recipe's digests.  What it writes after the header is read as DATA parts whose length fields are right
and a DESC whose length, before and after its entries, is its own; and the reader rebuilds the image from
them. -/
theorem template_round_trip (inflate : Bytes → Option Bytes) (fileWith : Bytes → Option Bytes)
    (version imageName imageSha : String) (imageSize : ℕ) (regions : List Region) (image : Bytes)
    (hinflate : ∀ chunk, inflate (c.deflate chunk) = some chunk)
    (hlen : Lengths48 c image regions) (hfiles : Library c image regions fileWith) :
    ((∃ file, emitJigdo c version imageName imageSize imageSha regions image = .ok file) ↔
      HasPart regions ∧ image.length = imageSize ∧ totalLen regions = image.length ∧
        (∀ p ∈ placed 0 regions, p.2.Holds c image p.1) ∧
        String.ofList (hexLower (c.sha256 image).1) = imageSha) ∧
    ∀ file, emitJigdo c version imageName imageSize imageSha regions image = .ok file →
      ∃ body t lits, file = header version imageName ++ body ∧ Template.read body = some t ∧
        (∀ part ∈ t.parts, part.stored = 16 + part.zbytes.length ∧
          ∃ chunk, inflate part.zbytes = some chunk ∧ part.inflated = chunk.length) ∧
        body.length = (t.parts.map fun part => 16 + part.zbytes.length).sum + t.total ∧
        pool inflate t.parts = some lits ∧ rebuild fileWith t.entries lits = some image := by
  constructor
  · exact emitJigdo_succeeds
  intro file hfile
  obtain ⟨hholds, htotal, chunks, hchunks, hflat, hbytes⟩ := emitJigdo_ok hfile
  have hfit : ∀ b ∈ chunks, 16 + (c.deflate b).length < 2 ^ 48 ∧ b.length < 2 ^ 48 := by
    intro b hb
    have hb := hchunks b hb
    have hchunk : chunkLen < 2 ^ 48 := by decide
    exact ⟨hlen.data b hb, by omega⟩
  have hdata : ∀ b, (dataBytes c b).length = 16 + (c.deflate b).length := by
    intro b
    simp [dataBytes, dataTag]
    omega
  have hlong : (chunks.flatMap (dataBytes c)).length
      = (chunks.map fun b => 16 + (c.deflate b).length).sum := by
    simp [List.length_flatMap, hdata]
  have hfuel : chunks.length < (chunks.flatMap (dataBytes c)
      ++ descBytes (entriesOf c image regions)).length := by
    have hmany : chunks.length ≤ (chunks.map fun b => 16 + (c.deflate b).length).sum := by
      have := List.length_le_sum_of_one_le (chunks.map fun b => 16 + (c.deflate b).length) (by
        intro n hn
        obtain ⟨b, -, rfl⟩ := List.mem_map.mp hn
        omega)
      rwa [List.length_map] at this
    have hdesc : 0 < (descBytes (entriesOf c image regions)).length := by
      simp [descBytes, descTag]
    rw [List.length_append, hlong]
    omega
  have hnot : dataTag.isPrefixOf (descBytes (entriesOf c image regions)) = false := rfl
  have hread := readData_dataBytes c hfit hnot hfuel
  have hdesc := readDesc_descBytes hlen.entries_fit hlen.desc
  use chunks.flatMap (dataBytes c) ++ descBytes (entriesOf c image regions),
    ⟨chunks.map (dataPart c), (descBytes (entriesOf c image regions)).length,
      entriesOf c image regions⟩, chunks.flatten
  constructor
  · exact hbytes
  constructor
  · simp only [Template.read, hread, hdesc, Option.bind_eq_bind, Option.bind_some]
  constructor
  · intro part hpart
    obtain ⟨b, -, rfl⟩ := List.mem_map.mp hpart
    exact ⟨rfl, b, hinflate b, rfl⟩
  constructor
  · rw [List.length_append, hlong, List.map_map]
    rfl
  constructor
  · exact pool_dataParts c hinflate chunks
  · rw [hflat]
    have himage : readFullAt image (totalLen regions) 0 = image := by
      rw [htotal]
      simp [readFullAt]
    have hrun := rebuild_placed 0 [.image image.length (c.sha256 image).1 blocklen] [] regions
      (fun q len sha256 urls hq => hfiles.fetch hholds hq) (by omega) rfl
    rwa [himage, List.append_nil] at hrun

/-! ### Two letters -/

/-- The sha256 of `a`. -/
def shaOfA : Sha256 :=
  ⟨[0xca, 0x97, 0x81, 0x12, 0xca, 0x1b, 0xbd, 0xca, 0xfa, 0xc2, 0x31, 0xb3, 0x9a, 0x23, 0xdc, 0x4d,
    0xa7, 0x86, 0xef, 0xf8, 0x14, 0x7c, 0x4e, 0x72, 0xb9, 0x80, 0x77, 0x85, 0xaf, 0xee, 0x48, 0xbb],
    rfl⟩

/-- The sha256 of `aa`. -/
def shaOfAa : Sha256 :=
  ⟨[0x96, 0x1b, 0x6d, 0xd3, 0xed, 0xe3, 0xcb, 0x8e, 0xcb, 0xaa, 0xcb, 0xd6, 0x8d, 0xe0, 0x40, 0xcd,
    0x78, 0xeb, 0x2e, 0xd5, 0x88, 0x91, 0x30, 0xcc, 0xeb, 0x4c, 0x49, 0x26, 0x8e, 0xa4, 0xd5, 0x06],
    rfl⟩

/-- `a`, deflated. -/
def deflatedA : Bytes := [0x78, 0x9c, 0x4b, 0x04, 0x00, 0x00, 0x62, 0x00, 0x62]

/-- Right about the two letters. -/
def twoLetters : Codecs where
  sha256 b := if b = [97] then shaOfA else shaOfAa
  deflate b := if b = [97] then deflatedA else 0 :: b

def inflateTwo : Bytes → Option Bytes
  | 0 :: b => some b
  | z => if z = deflatedA then some [97] else none

def letterFile (d : Bytes) : Option Bytes := if d = shaOfA.1 then some [97] else none

/-- A letter in the template, and one from a mirror. -/
theorem template_round_trip_letters :
    ∃ file, emitJigdo twoLetters "0.1.0" "aa" 2 (String.ofList (hexLower shaOfAa.1))
        [.literal 1, .part 1 shaOfA ["http://deb/pool/a"]] [97, 97] = .ok file ∧
      ∃ body t lits, file = header "0.1.0" "aa" ++ body ∧ Template.read body = some t ∧
        pool inflateTwo t.parts = some lits ∧ rebuild letterFile t.entries lits = some [97, 97] := by
  have hinflate : ∀ chunk, inflateTwo (twoLetters.deflate chunk) = some chunk := by
    intro chunk
    by_cases h : chunk = [97]
    · rw [h]
      rfl
    · simp [twoLetters, h, inflateTwo]
  have hlen : Lengths48 twoLetters [97, 97] [.literal 1, .part 1 shaOfA ["http://deb/pool/a"]] := by
    refine ⟨by decide, by decide, by decide, fun chunk hchunk => ?_⟩
    have hmax : chunkLen = 1048576 := rfl
    have hsize : (twoLetters.deflate chunk).length ≤ 9 + chunk.length := by
      by_cases h : chunk = [97]
      · rw [h]
        decide
      · have hdeflate : twoLetters.deflate chunk = 0 :: chunk := if_neg h
        rw [hdeflate, List.length_cons]
        omega
    omega
  have hfiles : Library twoLetters [97, 97] [.literal 1, .part 1 shaOfA ["http://deb/pool/a"]]
      letterFile := by
    have hplaced : placed 0 [.literal 1, .part 1 shaOfA ["http://deb/pool/a"]]
        = [(0, .literal 1), (1, .part 1 shaOfA ["http://deb/pool/a"])] := rfl
    constructor
    · intro sha256 file hfile
      rw [letterFile] at hfile
      split_ifs at hfile with h
      cases hfile
      exact h.symm
    · intro pos len sha256 urls hp
      simp only [hplaced, List.mem_cons, Prod.mk.injEq, reduceCtorEq, and_false,
        Region.part.injEq, List.not_mem_nil, or_false, false_or] at hp
      rw [hp.2.2.1]
      rfl
    · intro pos len sha256 urls file hp hfile hsha
      simp only [hplaced, List.mem_cons, Prod.mk.injEq, reduceCtorEq, and_false,
        Region.part.injEq, List.not_mem_nil, or_false, false_or] at hp
      rw [hp.2.2.1] at hfile
      rw [hp.1, hp.2.1]
      cases hfile
      rfl
  have htrip := template_round_trip twoLetters inflateTwo letterFile "0.1.0" "aa"
    (String.ofList (hexLower shaOfAa.1)) 2 _ [97, 97] hinflate hlen hfiles
  obtain ⟨file, hfile⟩ := htrip.1.mpr ⟨⟨1, shaOfA, ["http://deb/pool/a"], by decide⟩, rfl, rfl,
    by
      intro p hp
      have hp : p = (0, .literal 1) ∨ p = (1, .part 1 shaOfA ["http://deb/pool/a"]) := by
        simpa [placed, Region.len] using hp
      cases hp with
      | inl hp =>
        rw [hp]
        trivial
      | inr hp =>
        rw [hp]
        rfl, rfl⟩
  obtain ⟨body, t, lits, hbytes, hread, -, -, hpool, hrebuild⟩ := htrip.2 file hfile
  exact ⟨file, hfile, body, t, lits, hbytes, hread, hpool, hrebuild⟩

end Hashdex.Jigdo
