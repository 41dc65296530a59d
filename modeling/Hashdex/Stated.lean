import Hashdex.Cpio
import Hashdex.Iso

/-!
# What the entries of a container state

The walks over views hand what an entry states, an offset and a length or several of them, to
`View.slice`, which clamps it to the container.  A member then has the bytes that are there; nothing
compares them with what was stated.

* `walkItems`, and `tarRanged`, `zipRanged`, `erofsRanged`, `fatRanged`, `IsoRanged` over it: the walks
* `cpio_whole`: a cpio's walk runs into the end of the view and says so
* `stated_members_iff`: in the other formats no member is silently shortened just when every range that
  an entry states lies in the container, or the parser has a note of its own
* `short_image`: an ISO 9660 image that it happens in
-/

namespace Hashdex

namespace Stated

open Descent RecProg RecProg.RecM

/-! ### Members over views -/

/-- An entry whose bytes lie in the container: the length that it states, and where the walk looks for
them. -/
structure Entry where
  path : List Char
  leaf : List Char
  stated : ℕ
  ranges : List (ℕ × ℕ)

/-- A member, of the entry it was made for. -/
structure Member where
  entry : Entry
  bytes : Bytes
  note : Option String

/-- What comes of the inside of a member: over a view its note or its error, over a stream its error. -/
structure Inner where
  ranged : View → List Char → Except Err (Option String)
  stream : List Char → Option Err

/-- The walk's state: how many entries it has come to, the members, and the files put off until the walk
is through.  `capped` tells at which of the entries the cap on the members is exhausted. -/
structure St where
  count : ℕ
  members : List Member
  pending : List (List Char)

def St.start : St := ⟨0, [], []⟩

def St.seal (st : St) (view : View) (e : Entry) (note : Option String) : St :=
  { st with
    count := st.count + 1
    members := st.members ++ [⟨e, (view.slice e.ranges).content, note⟩] }

/-- `process_ranged`. -/
def processRanged (capped : ℕ → Bool) (inner : Inner) (view : View) (e : Entry) (st : St) :
    St × Option Err :=
  if capped st.count then ({ st with count := st.count + 1 }, none)
  else
    match inner.ranged (view.slice e.ranges) e.leaf with
    | .ok note => (st.seal view e note, none)
    | .error err => (st.seal view e none, some err)

/-- What a parser yields: an entry in the container, an entry that cannot be opened, one that is
streamed at once or put off, or one that is no file. -/
inductive Item
  | ranged (e : Entry)
  | unreadable (path : List Char) (why : String)
  | streamed (name : List Char)
  | putOff (path : List Char)
  | skipped

def walkItem (capped : ℕ → Bool) (inner : Inner) (view : View) (item : Item) (st : St) :
    St × Option Err :=
  match item with
  | .ranged e => processRanged capped inner view e st
  | .unreadable path why =>
    if capped st.count then ({ st with count := st.count + 1 }, none)
    else (st.seal view ⟨path, path, 0, []⟩ (some s!"unreadable zip member: {why}"), none)
  | .streamed name =>
    if capped st.count then ({ st with count := st.count + 1 }, none)
    else ({ st with count := st.count + 1 }, inner.stream name)
  | .putOff path =>
    if capped st.count then ({ st with count := st.count + 1 }, none)
    else ({ st with count := st.count + 1, pending := st.pending ++ [path] }, none)
  | .skipped => (st, none)

/-- The loop over the entries, left on the first error. -/
def walkItems (capped : ℕ → Bool) (inner : Inner) (view : View) : List Item → St → St × Option Err
  | [], st => (st, none)
  | item :: items, st =>
    match walkItem capped inner view item st with
    | (st, some err) => (st, some err)
    | (st, none) => walkItems capped inner view items st

/-- How the walk of a container ends: with its own note or none, or in an error. -/
abbrev Outcome := Except Err (Option String)

/-- What a walker returns when the loop is through or left. -/
def outcomeOf (note : Option String) : Option Err → Outcome
  | none => .ok note
  | some err => .error err

/-- `swallow`: errors become notes, but for the retry marker; the parser's notes come behind. -/
def swallowed (what : String) (notes : Option String) : Outcome → Outcome
  | .error (.retry e) => .error (.retry e)
  | .error (.hard e) =>
    match notes with
    | some n => .ok (some s!"{what}: {e}; {n}")
    | none => .ok (some s!"{what}: {e}")
  | .ok (some note) => .ok (some note)
  | .ok none => .ok notes

def Outcome.noted : Outcome → Bool
  | .ok none => false
  | _ => true

/-! ### The walkers -/

/-- An entry of a tar: no file, a sparse file, or a file with its place. -/
inductive TarEntry
  | other
  | sparse (name : List Char)
  | file (name : List Char) (pos size : ℕ)

def TarEntry.item : TarEntry → Item
  | .other => .skipped
  | .sparse name => .streamed name
  | .file name pos size => .ranged ⟨name, Cpio.leafOf name, size, [(pos, size)]⟩

/-- `tar_ranged`, over what the tar reader yields and the note it stops with. -/
def tarRanged (view : View) (entries : List TarEntry) (stop : Option String) (capped : ℕ → Bool)
    (inner : Inner) : St × Outcome :=
  let r := walkItems capped inner view (entries.map TarEntry.item) .start
  (r.1, outcomeOf stop r.2)

/-- An entry of a zip's central directory. -/
inductive ZipEntry
  | unreadable (name : List Char) (why : String)
  | directory
  | compressed (name : List Char)
  | stored (name : List Char) (dataStart size : ℕ)

def ZipEntry.item : ZipEntry → Item
  | .unreadable name why => .unreadable name why
  | .directory => .skipped
  | .compressed name => .streamed name
  | .stored name dataStart size => .ranged ⟨name, Cpio.leafOf name, size, [(dataStart, size)]⟩

/-- `zip_ranged`, over a central directory that could be read. -/
def zipRanged (view : View) (entries : List ZipEntry) (capped : ℕ → Bool) (inner : Inner) :
    St × Outcome :=
  let r := walkItems capped inner view (entries.map ZipEntry.item) .start
  (r.1, swallowed "zip parse failed" none (outcomeOf none r.2))

/-- Where an erofs has the bytes of a file: from a block on, the tail perhaps behind the inode; or in
chunks of one size. -/
inductive Layout
  | flat (blksz start : ℕ) (tail : Option ℕ)
  | chunked (chunksz : ℕ) (starts : List ℕ)

/-- The chunks of a file of which that many bytes are left. -/
def chunkExtents (chunksz : ℕ) : List ℕ → ℕ → List (ℕ × ℕ)
  | [], _ => []
  | start :: starts, left => (start, min chunksz left) :: chunkExtents chunksz starts (left - chunksz)

/-- The blocks of a flat file, and its tail. -/
def flatExtents (blksz start : ℕ) (tail : Option ℕ) (size : ℕ) : List (ℕ × ℕ) :=
  if size = 0 then []
  else
    match tail with
    | none => [(start, size)]
    | some tail =>
      let head := ((size + blksz - 1) / blksz - 1) * blksz
      if 0 < head then [(start, head), (tail, size - head)] else [(tail, size - head)]

/-- `plan` and `plan_chunked`, where they come to extents. -/
def Layout.extents (size : ℕ) : Layout → List (ℕ × ℕ)
  | .flat blksz start tail => flatExtents blksz start tail size
  | .chunked chunksz starts => chunkExtents chunksz starts size

/-- A file of an erofs: flat or chunked, or compressed. -/
inductive ErofsFile
  | ranged (path leaf : List Char) (size : ℕ) (layout : Layout)
  | streamed (path : List Char)

def ErofsFile.item : ErofsFile → Item
  | .ranged path leaf size layout => .ranged ⟨path, leaf, size, layout.extents size⟩
  | .streamed path => .putOff path

/-- `erofs_ranged`: the flat and chunked files in one pass, the compressed ones in a second, whose errors
are notes. -/
def erofsRanged (view : View) (files : List ErofsFile) (notes : List String) (capped : ℕ → Bool)
    (inner : Inner) : St × Outcome :=
  let r := walkItems capped inner view (files.map ErofsFile.item) .start
  let errors := match r.2 with
    | some _ => []
    | none => r.1.pending.filterMap fun path => (inner.stream path).map errText
  (r.1, swallowed "erofs parse failed" (notesText .erofs (notes ++ errors)) (outcomeOf none r.2))

/-- `truncate_runs`. -/
def truncateRuns : List (ℕ × ℕ) → ℕ → List (ℕ × ℕ)
  | [], _ => []
  | (start, len) :: runs, left =>
    if left = 0 then []
    else (start, min len left) :: truncateRuns runs (left - min len left)

/-- A file of a FAT: the runs of its cluster chain, and the size that its directory entry states. -/
structure FatFile where
  path : List Char
  runs : List (ℕ × ℕ)
  size : ℕ

def FatFile.item (f : FatFile) : Item :=
  .ranged ⟨f.path, Cpio.leafOf f.path, f.size, truncateRuns f.runs f.size⟩

/-- `fat_ranged`, whose notes come when the loop is through. -/
def fatRanged (view : View) (files : List FatFile) (notes : List String) (capped : ℕ → Bool)
    (inner : Inner) : St × Outcome :=
  let r := walkItems capped inner view (files.map FatFile.item) .start
  let shown := match r.2 with
    | some _ => none
    | none => notesText .fat notes
  (r.1, swallowed "fat parse failed" shown (outcomeOf none r.2))

/-- A boot image as an El Torito catalog names it: where it is, the length stated, and the length of the
FAT that is there, if one is. -/
structure BootEntry where
  name : List Char
  start : ℕ
  stated : ℕ
  fat : Option ℕ

/-- `boot_images`, which leaves out what does not lie in the image. -/
def bootImage (view : View) (boot : BootEntry) : Option Entry :=
  if view.len ≤ boot.start then none
  else
    let len := match boot.fat with
      | some size => if boot.stated ≤ size ∧ boot.start + size ≤ view.len then size else boot.stated
      | none => boot.stated
    if len = 0 ∨ view.len < boot.start + len then none
    else some ⟨"el-torito/".toList ++ boot.name, boot.name, len, [(boot.start, len)]⟩

/-- The entry of a file of an ISO 9660 directory. -/
def isoEntry (path : List Char) (file : Iso.FileAt) : Entry :=
  ⟨path ++ file.name, file.name, View.total file.extents, file.extents⟩

def isoProcess (capped : ℕ → Bool) (inner : Inner) (view : View) : Iso.Process St :=
  fun _ path file st =>
    match processRanged capped inner view { isoEntry [] file with path := path } st with
    | (st, none) => .ok st
    | (_, some err) => .error err

/-- `iso_ranged` from the root directory on: the boot images, and then the directories. -/
inductive IsoRanged (view : View) (root : ℕ × ℕ) (boots : List BootEntry) (capped : ℕ → Bool)
    (inner : Inner) : St × Outcome → Prop
  | boot {st : St} {err : Err}
      (h : walkItems capped inner view ((boots.filterMap (bootImage view)).map .ranged) .start
        = (st, some err)) :
      IsoRanged view root boots capped inner
        (st, swallowed "iso9660 parse failed" none (.error err))
  | dirs {st st' : St} {n : ℕ}
      (h : walkItems capped inner view ((boots.filterMap (bootImage view)).map .ranged) .start
        = (st, none))
      (hdirs : Evaluates (procedure (Iso.isoDir view (isoProcess capped inner view)))
        (⟨root.1, root.2, []⟩, ((boots.filterMap (bootImage view)).length, st)) (.ok ((), (n, st')))) :
      IsoRanged view root boots capped inner (st', .ok none)
  | failed {st st' : St} {err : Err}
      (h : walkItems capped inner view ((boots.filterMap (bootImage view)).map .ranged) .start
        = (st, none))
      (hdirs : Evaluates (procedure (Iso.isoDir view (isoProcess capped inner view)))
        (⟨root.1, root.2, []⟩, ((boots.filterMap (bootImage view)).length, st)) (.error err)) :
      IsoRanged view root boots capped inner
        (st', swallowed "iso9660 parse failed" none (.error err))

/-! ### What is asked of the members -/

/-- A member has the bytes that its entry states, all of them. -/
structure Member.Whole (view : View) (m : Member) : Prop where
  bytes : m.bytes = m.entry.ranges.flatMap fun r => (view.content.drop r.1).take r.2
  length : m.bytes.length = m.entry.stated

/-- A member is whole, or it has a note, or its container has a note or an error. -/
def Sound (view : View) (r : St × Outcome) : Prop :=
  ∀ m ∈ r.1.members, m.Whole view ∨ m.note.isSome = true ∨ r.2.noted = true

/-- No walk passes a shortened member off as complete, whatever comes of the insides and wherever the
cap is reached. -/
def Honest (view : View) (walk : (ℕ → Bool) → Inner → St × Outcome) : Prop :=
  ∀ capped inner, Sound view (walk capped inner)

/-- The ranges of an entry lie in the container, and make up the length it states. -/
def Entry.Within (view : View) (e : Entry) : Prop :=
  View.total e.ranges = e.stated ∧ ∀ r ∈ e.ranges, view.Within r

instance (view : View) (e : Entry) : Decidable (e.Within view) :=
  inferInstanceAs (Decidable (_ ∧ _))

/-- An entry's ranges never hold more than it states. -/
def Entry.Fair (e : Entry) : Prop := View.total e.ranges ≤ e.stated

theorem length_slice_le (view : View) (ranges : List (ℕ × ℕ)) :
    (view.slice ranges).content.length ≤ View.total ranges := by
  rw [View.content_slice]
  induction ranges with
  | nil => exact Nat.zero_le _
  | cons r ranges ih =>
    have hr := view.length_take_range r
    rw [List.flatMap_cons, List.length_append, View.total, List.map_cons, List.sum_cons]
    rw [View.total] at ih
    omega

/-- **A member is whole just when its entry lies in the container.** -/
theorem whole_iff {view : View} {e : Entry} (hfair : e.Fair) (note : Option String) :
    Member.Whole view ⟨e, (view.slice e.ranges).content, note⟩ ↔ e.Within view := by
  have hle := length_slice_le view e.ranges
  have hiff := view.length_slice_iff e.ranges
  constructor
  · intro h
    have hlen : (view.slice e.ranges).content.length = e.stated := h.length
    have htotal : View.total e.ranges = e.stated := le_antisymm hfair (hlen ▸ hle)
    exact ⟨htotal, hiff.mp (hlen.trans htotal.symm)⟩
  · intro h
    exact ⟨view.content_slice e.ranges, (hiff.mpr h.2).trans h.1⟩

/-! ### The loop -/

section
variable {capped : ℕ → Bool} {inner : Inner} {view : View}

/-- Each member was there before, or is noted, or was made for one of the entries. -/
def Made (view : View) (P : Entry → Prop) (st st' : St) : Prop :=
  ∀ m ∈ st'.members, m ∈ st.members ∨ m.note.isSome = true ∨
    ∃ e, P e ∧ m = ⟨e, (view.slice e.ranges).content, m.note⟩

theorem Made.refl {P : Entry → Prop} {st st' : St} (h : st'.members = st.members) :
    Made view P st st' := fun _ hm => .inl (h ▸ hm)

theorem Made.trans {P : Entry → Prop} {st st₁ st' : St} (h : Made view P st st₁)
    (h' : Made view P st₁ st') : Made view P st st' := by
  intro m hm
  cases h' m hm with
  | inl hold => exact h m hold
  | inr hnew => exact .inr hnew

theorem Made.mono {P Q : Entry → Prop} {st st' : St} (h : Made view P st st') (hPQ : ∀ e, P e → Q e) :
    Made view Q st st' := by
  intro m hm
  rcases h m hm with hold | hnoted | ⟨e, he, heq⟩
  · exact .inl hold
  · exact .inr (.inl hnoted)
  · exact .inr (.inr ⟨e, hPQ e he, heq⟩)

theorem made_seal (st : St) (e : Entry) (note : Option String) :
    Made view (· = e) st (st.seal view e note) := by
  intro m hm
  cases List.mem_append.mp hm with
  | inl hold => exact .inl hold
  | inr hnew =>
    rw [List.mem_singleton.mp hnew]
    exact .inr (.inr ⟨e, rfl, rfl⟩)

theorem processRanged_made (e : Entry) (st : St) :
    Made view (· = e) st (processRanged capped inner view e st).1 := by
  rw [processRanged]
  split_ifs with hcap
  · exact .refl rfl
  · cases inner.ranged (view.slice e.ranges) e.leaf with
    | ok note => exact made_seal st e note
    | error err => exact made_seal st e none

theorem walkItem_made (item : Item) (st : St) :
    Made view (fun e => .ranged e = item) st (walkItem capped inner view item st).1 := by
  cases item with
  | ranged e => exact (processRanged_made e st).mono fun e' he => congrArg Item.ranged he
  | unreadable path why =>
    rw [walkItem]
    split_ifs with hcap
    · exact .refl rfl
    · intro m hm
      cases List.mem_append.mp hm with
      | inl hold => exact .inl hold
      | inr hnew =>
        rw [List.mem_singleton.mp hnew]
        exact .inr (.inl rfl)
  | streamed name =>
    rw [walkItem]
    split_ifs <;> exact .refl rfl
  | putOff path =>
    rw [walkItem]
    split_ifs <;> exact .refl rfl
  | skipped => exact .refl rfl

/-- **Each new member of the loop is noted or of a ranged entry.** -/
theorem walkItems_made (items : List Item) (st : St) :
    Made view (fun e => .ranged e ∈ items) st (walkItems capped inner view items st).1 := by
  induction items generalizing st with
  | nil => exact .refl rfl
  | cons item items ih =>
    have hfirst : Made view (fun e => .ranged e ∈ item :: items) st
        (walkItem capped inner view item st).1 :=
      (walkItem_made item st).mono fun e he => he ▸ List.mem_cons_self
    rw [walkItems]
    cases hwalk : walkItem capped inner view item st with
    | mk st₁ r =>
      rw [hwalk] at hfirst
      cases r with
      | some err => exact hfirst
      | none => exact hfirst.trans ((ih st₁).mono fun e he => List.mem_cons_of_mem item he)

/-- Insides without notes or errors. -/
def quiet : Inner := ⟨fun _ _ => .ok none, fun _ => none⟩

def neverCapped : ℕ → Bool := fun _ => false

/-- With quiet insides and no cap, every entry becomes a member. -/
theorem walkItems_quiet (items : List Item) (st : St) :
    (walkItems neverCapped quiet view items st).2 = none ∧
      st.members ⊆ (walkItems neverCapped quiet view items st).1.members ∧
      ∀ e, .ranged e ∈ items → ⟨e, (view.slice e.ranges).content, none⟩ ∈
        (walkItems neverCapped quiet view items st).1.members := by
  induction items generalizing st with
  | nil => exact ⟨rfl, List.Subset.refl _, nofun⟩
  | cons item items ih =>
    have hstep : ∃ st₁, walkItem neverCapped quiet view item st = (st₁, none) ∧
        st.members ⊆ st₁.members ∧ ∀ e, item = .ranged e →
          (⟨e, (view.slice e.ranges).content, none⟩ : Member) ∈ st₁.members := by
      cases item with
      | ranged e =>
        refine ⟨_, rfl, List.subset_append_left _ _, fun e' he' => ?_⟩
        cases he'
        exact List.mem_append_right _ (List.mem_singleton_self _)
      | unreadable path why => exact ⟨_, rfl, List.subset_append_left _ _, nofun⟩
      | streamed name => exact ⟨_, rfl, List.Subset.refl _, nofun⟩
      | putOff path => exact ⟨_, rfl, List.Subset.refl _, nofun⟩
      | skipped => exact ⟨_, rfl, List.Subset.refl _, nofun⟩
    obtain ⟨st₁, hwalk, hsub, hmade⟩ := hstep
    obtain ⟨hend, hrest, hall⟩ := ih st₁
    rw [walkItems, hwalk]
    refine ⟨hend, fun m hm => hrest (hsub hm), fun e he => ?_⟩
    cases List.mem_cons.mp he with
    | inl heq => exact hrest (hmade e heq.symm)
    | inr hmem => exact hall e hmem

/-- Every range that an entry states lies in the container. -/
def AllWithin (view : View) (items : List Item) : Prop := ∀ e, .ranged e ∈ items → e.Within view

/-- A loop that is left on an error, or whose end is noted, hides nothing; one that ends without a note
hides nothing just when nothing is short. -/
theorem walk_honest_iff {items : List Item} (finish : Inner → St × Option Err → Outcome) {own : Prop}
    (hfair : ∀ e, .ranged e ∈ items → e.Fair)
    (herr : ∀ inner st err, (finish inner (st, some err)).noted = true)
    (hown : own → ∀ inner st, (finish inner (st, none)).noted = true)
    (hquiet : ¬ own → ∀ st, (finish quiet (st, none)).noted = false) :
    Honest view (fun capped inner =>
        ((walkItems capped inner view items .start).1,
          finish inner (walkItems capped inner view items .start))) ↔
      own ∨ AllWithin view items := by
  constructor
  · intro h
    by_cases hnoted : own
    · exact .inl hnoted
    · right
      intro e he
      have hwalk := @walkItems_quiet view items .start
      obtain ⟨hend, -, hmade⟩ := hwalk
      have hsilent : (finish quiet (walkItems neverCapped quiet view items .start)).noted = false := by
        have heq : walkItems neverCapped quiet view items .start =
            ((walkItems neverCapped quiet view items .start).1, none) := Prod.ext rfl hend
        rw [heq]
        exact hquiet hnoted _
      rcases h neverCapped quiet _ (hmade e he) with hwhole | hnote | hout
      · exact (whole_iff (hfair e he) none).mp hwhole
      · cases hnote
      · cases hsilent.symm.trans hout
  · intro h capped inner m hm
    cases hend : (walkItems capped inner view items .start).2 with
    | some err =>
      have heq : walkItems capped inner view items .start =
          ((walkItems capped inner view items .start).1, some err) := Prod.ext rfl hend
      right; right
      show (finish inner (walkItems capped inner view items .start)).noted = true
      rw [heq]
      exact herr inner _ err
    | none =>
      cases h with
      | inl hnoted =>
        have heq : walkItems capped inner view items .start =
            ((walkItems capped inner view items .start).1, none) := Prod.ext rfl hend
        right; right
        show (finish inner (walkItems capped inner view items .start)).noted = true
        rw [heq]
        exact hown hnoted inner _
      | inr hwithin =>
        rcases walkItems_made items .start m hm with hold | hnote | ⟨e, he, heq⟩
        · cases hold
        · exact .inr (.inl hnote)
        · left
          rw [heq]
          exact (whole_iff (hfair e he) _).mpr (hwithin e he)

end

/-! ### Archives and images -/

section
variable {view : View}

theorem total_pair (r : ℕ × ℕ) : View.total [r] = r.2 := rfl

theorem swallowed_error (what : String) (notes : Option String) (err : Err) :
    (swallowed what notes (.error err)).noted = true := by
  cases err with
  | hard e => cases notes <;> rfl
  | retry e => rfl

theorem swallowed_noted {what : String} {notes : Option String} (h : notes.isSome = true)
    (note : Option String) : (swallowed what notes (.ok note)).noted = true := by
  cases note with
  | some note => rfl
  | none =>
    cases notes with
    | some n => rfl
    | none => cases h

theorem notesText_isSome {kind : Kind} (hkind : kind = .erofs ∨ kind = .fat) {texts : List String} :
    (notesText kind texts).isSome = true ↔ texts ≠ [] := by
  cases texts with
  | nil => exact ⟨nofun, fun h => absurd rfl h⟩
  | cons t texts =>
    refine ⟨fun _ => List.cons_ne_nil _ _, fun _ => ?_⟩
    rcases hkind with rfl | rfl
    · simp only [notesText]
      split_ifs <;> rfl
    · rfl

theorem tar_honest_iff (entries : List TarEntry) (stop : Option String) :
    Honest view (tarRanged view entries stop) ↔
      stop.isSome = true ∨ AllWithin view (entries.map TarEntry.item) := by
  refine walk_honest_iff (fun _ r => outcomeOf stop r.2) (fun e he => ?_) (fun _ _ _ => rfl)
    (fun hstop _ _ => ?_) fun hstop _ => ?_
  · obtain ⟨entry, -, heq⟩ := List.mem_map.mp he
    cases entry with
    | other => cases heq
    | sparse name => cases heq
    | file name pos size =>
      cases heq
      exact le_refl size
  · obtain ⟨note, rfl⟩ := Option.isSome_iff_exists.mp hstop
    rfl
  · rw [Option.not_isSome_iff_eq_none.mp hstop]
    rfl

theorem zip_honest_iff (entries : List ZipEntry) :
    Honest view (zipRanged view entries) ↔ AllWithin view (entries.map ZipEntry.item) := by
  have h : Honest view (zipRanged view entries) ↔ False ∨ AllWithin view (entries.map ZipEntry.item) := by
    refine walk_honest_iff (fun _ r => swallowed "zip parse failed" none (outcomeOf none r.2))
      (fun e he => ?_) (fun _ _ _ => swallowed_error _ _ _) (fun h => h.elim) fun _ _ => rfl
    obtain ⟨entry, -, heq⟩ := List.mem_map.mp he
    cases entry with
    | unreadable name why => cases heq
    | directory => cases heq
    | compressed name => cases heq
    | stored name dataStart size =>
      cases heq
      exact le_refl size
  rwa [false_or] at h

theorem total_chunkExtents (chunksz : ℕ) (starts : List ℕ) (left : ℕ) :
    View.total (chunkExtents chunksz starts left) ≤ left := by
  induction starts generalizing left with
  | nil => exact Nat.zero_le left
  | cons start starts ih =>
    have hrest := ih (left - chunksz)
    rw [chunkExtents, View.total, List.map_cons, List.sum_cons]
    rw [View.total] at hrest
    omega

theorem total_flatExtents (blksz start : ℕ) (tail : Option ℕ) (size : ℕ) :
    View.total (flatExtents blksz start tail size) ≤ size := by
  unfold flatExtents
  by_cases hzero : size = 0
  · rw [if_pos hzero]
    exact Nat.zero_le size
  · rw [if_neg hzero]
    cases tail with
    | none => exact le_refl size
    | some tail =>
      have hhead : ((size + blksz - 1) / blksz - 1) * blksz ≤ size := by
        have hdiv := Nat.div_mul_le_self (size + blksz - 1) blksz
        rw [Nat.sub_mul]
        omega
      dsimp only
      split_ifs with hpos
      · show ((size + blksz - 1) / blksz - 1) * blksz +
          (size - ((size + blksz - 1) / blksz - 1) * blksz + 0) ≤ size
        omega
      · exact Nat.sub_le _ _

theorem total_extents (size : ℕ) (layout : Layout) : View.total (layout.extents size) ≤ size := by
  cases layout with
  | flat blksz start tail => exact total_flatExtents blksz start tail size
  | chunked chunksz starts => exact total_chunkExtents chunksz starts size

theorem erofs_honest_iff (files : List ErofsFile) (notes : List String) :
    Honest view (erofsRanged view files notes) ↔
      notes ≠ [] ∨ AllWithin view (files.map ErofsFile.item) := by
  refine walk_honest_iff
    (fun inner r =>
      swallowed "erofs parse failed" (notesText .erofs (notes ++ match r.2 with
        | some _ => []
        | none => r.1.pending.filterMap fun path => (inner.stream path).map errText))
        (outcomeOf none r.2))
    (fun e he => ?_) (fun _ _ _ => swallowed_error _ _ _) (fun hnotes _ _ => ?_) fun hnotes st => ?_
  · obtain ⟨file, -, heq⟩ := List.mem_map.mp he
    cases file with
    | streamed path => cases heq
    | ranged path leaf size layout =>
      cases heq
      exact total_extents size layout
  · refine swallowed_noted ((notesText_isSome (.inl rfl)).mpr ?_) none
    exact List.append_ne_nil_of_left_ne_nil hnotes _
  · have hnone : (st.pending.filterMap fun path => (quiet.stream path).map errText) = [] := by
      rw [List.filterMap_eq_nil_iff]
      exact fun _ _ => rfl
    rw [not_not.mp hnotes]
    show (swallowed _ (notesText .erofs ([] ++ _)) (.ok none)).noted = false
    rw [hnone]
    rfl

theorem total_truncateRuns (runs : List (ℕ × ℕ)) (left : ℕ) :
    View.total (truncateRuns runs left) ≤ left := by
  induction runs generalizing left with
  | nil => exact Nat.zero_le left
  | cons r runs ih =>
    obtain ⟨start, len⟩ := r
    have hrest := ih (left - min len left)
    rw [truncateRuns]
    split_ifs with hleft
    · exact Nat.zero_le left
    · rw [View.total, List.map_cons, List.sum_cons]
      rw [View.total] at hrest
      omega

theorem fat_honest_iff (files : List FatFile) (notes : List String) :
    Honest view (fatRanged view files notes) ↔
      notes ≠ [] ∨ AllWithin view (files.map FatFile.item) := by
  refine walk_honest_iff
    (fun _ r => swallowed "fat parse failed"
      (match r.2 with
        | some _ => none
        | none => notesText .fat notes) (outcomeOf none r.2))
    (fun e he => ?_) (fun _ _ _ => swallowed_error _ _ _) (fun hnotes _ _ => ?_) fun hnotes st => ?_
  · obtain ⟨file, -, heq⟩ := List.mem_map.mp he
    cases heq
    exact total_truncateRuns file.runs file.size
  · exact swallowed_noted ((notesText_isSome (.inr rfl)).mpr hnotes) none
  · rw [not_not.mp hnotes]
    rfl

end

/-! ### The directories of an ISO 9660 -/

/-- The entries of the files in a directory and below it. -/
inductive IsoHolds (view : View) : Iso.Dir → Entry → Prop
  | here {d : Iso.Dir} {listing : Iso.Listing} {file : Iso.FileAt}
      (h : Iso.readDir view d.lba d.size = .ok listing) (hfile : file ∈ listing.files) :
      IsoHolds view d (isoEntry d.path file)
  | deeper {d : Iso.Dir} {listing : Iso.Listing} {sub : Iso.SubDir} {e : Entry}
      (h : Iso.readDir view d.lba d.size = .ok listing) (hsub : sub ∈ listing.dirs)
      (he : IsoHolds view ⟨sub.lba, sub.size, d.path ++ sub.name ++ ['/']⟩ e) : IsoHolds view d e

theorem IsoHolds.fair {view : View} {d : Iso.Dir} {e : Entry} (h : IsoHolds view d e) : e.Fair := by
  induction h with
  | here => exact le_refl _
  | deeper _ _ _ ih => exact ih

section
variable {view : View} {capped : ℕ → Bool} {inner : Inner} {E : Oracle Iso.Dir (ℕ × St) Err Unit}

theorem isoProcess_made {sub : View} {path : List Char} {file : Iso.FileAt} {st st' : St}
    (h : isoProcess capped inner view sub (path ++ file.name) file st = .ok st') :
    Made view (· = isoEntry path file) st st' := by
  have hmade : Made view (· = isoEntry path file) st
      (processRanged capped inner view (isoEntry path file) st).1 := processRanged_made _ st
  have heq : { isoEntry [] file with path := path ++ file.name } = isoEntry path file := rfl
  rw [isoProcess, heq] at h
  split at h
  next st₁ hp =>
    cases h
    rw [hp] at hmade
    exact hmade
  next => cases h

theorem yields_processFiles_made {path : List Char} {files : List Iso.FileAt} {s s' : ℕ × St} {u : Unit}
    (h : Yields E (Iso.processFiles view (isoProcess capped inner view) path files) s u s') :
    Made view (fun e => ∃ file ∈ files, e = isoEntry path file) s.2 s'.2 := by
  induction files generalizing s with
  | nil =>
    obtain ⟨-, rfl⟩ := yields_pure.mp h
    exact .refl rfl
  | cons file files ih =>
    obtain ⟨st, s₁, hget, h⟩ := yields_bind.mp h
    obtain ⟨rfl, rfl⟩ := yields_getState.mp hget
    obtain ⟨t, s₂, hlift, h⟩ := yields_bind.mp h
    obtain ⟨hprocess, rfl⟩ := yields_lift.mp hlift
    obtain ⟨_, s₃, hput, h⟩ := yields_bind.mp h
    cases yields_putState.mp hput
    have hfirst : Made view (fun e => ∃ x ∈ file :: files, e = isoEntry path x) s.2 t :=
      (isoProcess_made hprocess).mono fun e he => ⟨file, List.mem_cons_self, he⟩
    exact hfirst.trans ((ih h).mono fun e ⟨x, hx, he⟩ => ⟨x, List.mem_cons_of_mem file hx, he⟩)

theorem yields_expandDirs_made {path : List Char} {dirs : List Iso.SubDir}
    (hE : ∀ (d : Iso.Dir) s u s', E (d, s) (.ok (u, s')) → Made view (IsoHolds view d) s.2 s'.2)
    {s s' : ℕ × St} {u : Unit} (h : Yields E (Iso.expandDirs path dirs) s u s') :
    Made view (fun e => ∃ sub ∈ dirs, IsoHolds view ⟨sub.lba, sub.size, path ++ sub.name ++ ['/']⟩ e)
      s.2 s'.2 := by
  induction dirs generalizing s with
  | nil =>
    obtain ⟨-, rfl⟩ := yields_pure.mp h
    exact .refl rfl
  | cons sub dirs ih =>
    obtain ⟨u₁, s₁, hrec, h⟩ := yields_bind.mp h
    have hfirst : Made view (fun e => ∃ x ∈ sub :: dirs,
        IsoHolds view ⟨x.lba, x.size, path ++ x.name ++ ['/']⟩ e) s.2 s₁.2 :=
      (hE _ s u₁ s₁ (yields_recur.mp hrec)).mono fun e he => ⟨sub, List.mem_cons_self, he⟩
    exact hfirst.trans ((ih h).mono fun e ⟨x, hx, he⟩ => ⟨x, List.mem_cons_of_mem sub hx, he⟩)

/-- **What the walk of a directory makes** is of the files in it and below it. -/
theorem isoDir_made {d : Iso.Dir} {s s' : ℕ × St} {u : Unit}
    (h : Evaluates (procedure (Iso.isoDir view (isoProcess capped inner view))) (d, s) (.ok (u, s'))) :
    Made view (IsoHolds view d) s.2 s'.2 := by
  refine h.induct (P := fun c r => ∀ u s', r = .ok (u, s') → Made view (IsoHolds view c.1) c.2.2 s'.2)
    (fun c r hret u s' hr => ?_) u s' rfl
  rw [hr] at hret
  obtain ⟨listing, s₁, hlift, hrest⟩ := yields_bind.mp hret
  obtain ⟨hread, rfl⟩ := yields_lift.mp hlift
  obtain ⟨_, s₂, hfiles, hdirs⟩ := yields_bind.mp hrest
  have hmadeFiles : Made view (IsoHolds view c.1) c.2.2 s₂.2 :=
    (yields_processFiles_made hfiles).mono fun e ⟨file, hfile, he⟩ => he ▸ .here hread hfile
  have hmadeDirs := yields_expandDirs_made (fun d s u s' hE => hE.2.2 u s' rfl) hdirs
  exact hmadeFiles.trans (hmadeDirs.mono fun e ⟨sub, hsub, he⟩ => .deeper hread hsub he)

/-- A member stands for an entry, in full view. -/
def Plain (view : View) (e : Entry) : Member := ⟨e, (view.slice e.ranges).content, none⟩

theorem isoProcess_quiet (sub : View) (path : List Char) (file : Iso.FileAt) (st : St) :
    isoProcess neverCapped quiet view sub (path ++ file.name) file st =
      .ok (st.seal view (isoEntry path file) none) := rfl

theorem yields_processFiles_quiet (path : List Char) (files : List Iso.FileAt) (s : ℕ × St) :
    ∃ s', Yields E (Iso.processFiles view (isoProcess neverCapped quiet view) path files) s () s' ∧
      s.2.members ⊆ s'.2.members ∧
      ∀ file ∈ files, Plain view (isoEntry path file) ∈ s'.2.members := by
  induction files generalizing s with
  | nil => exact ⟨s, yields_pure.mpr ⟨rfl, rfl⟩, List.Subset.refl _, nofun⟩
  | cons file files ih =>
    obtain ⟨s', hs', hsub, hall⟩ := ih (s.1 + 1, s.2.seal view (isoEntry path file) none)
    refine ⟨s', ?_, fun m hm => hsub (List.mem_append_left _ hm), fun x hx => ?_⟩
    · exact yields_bind.mpr ⟨s, s, yields_getState.mpr ⟨rfl, rfl⟩, yields_bind.mpr
        ⟨_, s, yields_lift.mpr ⟨isoProcess_quiet _ _ _ _, rfl⟩, yields_bind.mpr
          ⟨(), _, yields_putState.mpr rfl, hs'⟩⟩⟩
    · cases List.mem_cons.mp hx with
      | inl heq =>
        rw [heq]
        exact hsub (List.mem_append_right _ (List.mem_singleton_self _))
      | inr hmem => exact hall x hmem

theorem yields_expandDirs_quiet {path : List Char} {dirs : List Iso.SubDir}
    (hE : ∀ sub ∈ dirs, ∀ path s, ∃ s', E (⟨sub.lba, sub.size, path⟩, s) (.ok ((), s')) ∧
      s.2.members ⊆ s'.2.members ∧
      ∀ e, IsoHolds view ⟨sub.lba, sub.size, path⟩ e → Plain view e ∈ s'.2.members) (s : ℕ × St) :
    ∃ s', Yields E (Iso.expandDirs path dirs) s () s' ∧ s.2.members ⊆ s'.2.members ∧
      ∀ sub ∈ dirs, ∀ e, IsoHolds view ⟨sub.lba, sub.size, path ++ sub.name ++ ['/']⟩ e →
        Plain view e ∈ s'.2.members := by
  induction dirs generalizing s with
  | nil => exact ⟨s, yields_pure.mpr ⟨rfl, rfl⟩, List.Subset.refl _, nofun⟩
  | cons sub dirs ih =>
    obtain ⟨s₁, hs₁, hsub₁, hall₁⟩ := hE sub List.mem_cons_self (path ++ sub.name ++ ['/']) s
    obtain ⟨s', hs', hsub', hall'⟩ := ih (fun x hx => hE x (List.mem_cons_of_mem sub hx)) s₁
    refine ⟨s', yields_bind.mpr ⟨(), s₁, yields_recur.mpr hs₁, hs'⟩, fun m hm => hsub' (hsub₁ hm),
      fun x hx e he => ?_⟩
    cases List.mem_cons.mp hx with
    | inl heq =>
      rw [heq] at he
      exact hsub' (hall₁ e he)
    | inr hmem => exact hall' x hmem e he

/-- The runs with quiet insides and no cap. -/
abbrev quietRuns (view : View) : Oracle Iso.Dir (ℕ × St) Err Unit :=
  Evaluates (procedure (Iso.isoDir view (isoProcess neverCapped quiet view)))

/-- In these each file of a tree that can be read becomes a member. -/
theorem isoDir_quiet {d : ℕ × ℕ} (h : Iso.Reads view d) (path : List Char) (s : ℕ × St) :
    ∃ s', quietRuns view (⟨d.1, d.2, path⟩, s) (.ok ((), s')) ∧ s.2.members ⊆ s'.2.members ∧
      ∀ e, IsoHolds view ⟨d.1, d.2, path⟩ e → Plain view e ∈ s'.2.members := by
  induction h generalizing path s with
  | @mk d listing hread below ih =>
    have hfiles := @yields_processFiles_quiet view (quietRuns view) path listing.files s
    obtain ⟨s₁, hs₁, hsub₁, hall₁⟩ := hfiles
    have hdirs := @yields_expandDirs_quiet view (quietRuns view) path _
      (fun sub hsub path s => ih sub hsub path s) s₁
    obtain ⟨s₂, hs₂, hsub₂, hall₂⟩ := hdirs
    refine ⟨s₂, evaluates_iff.mpr ?_, fun m hm => hsub₂ (hsub₁ hm), fun e he => ?_⟩
    · exact yields_bind.mpr ⟨listing, s, yields_lift.mpr ⟨hread, rfl⟩, yields_bind.mpr ⟨(), s₁, hs₁, hs₂⟩⟩
    · cases he with
      | here hread' hfile =>
        cases hread.symm.trans hread'
        exact hsub₂ (hall₁ _ hfile)
      | deeper hread' hsub he =>
        cases hread.symm.trans hread'
        exact hall₂ _ hsub e he

end

/-- The boot images lie in the image. -/
theorem bootImage_within {view : View} {boot : BootEntry} {e : Entry} (h : bootImage view boot = some e) :
    e.Within view := by
  rw [bootImage] at h
  dsimp only at h
  split_ifs at h with hpast hout
  cases h
  refine ⟨rfl, fun r hr => ?_⟩
  rw [List.mem_singleton.mp hr, View.Within]
  omega

/-- No walk of the image passes a shortened member off as complete. -/
def IsoHonest (view : View) (root : ℕ × ℕ) (boots : List BootEntry) : Prop :=
  ∀ capped inner r, IsoRanged view root boots capped inner r → Sound view r

/-- With quiet insides and no cap, the walk of a tree that can be read ends without a note. -/
theorem isoRanged_quiet {view : View} {root : ℕ × ℕ} (h : Iso.Reads view root)
    (boots : List BootEntry) :
    ∃ st, IsoRanged view root boots neverCapped quiet (st, .ok none) ∧
      ∀ e, IsoHolds view ⟨root.1, root.2, []⟩ e → Plain view e ∈ st.members := by
  obtain ⟨hend, -, -⟩ := @walkItems_quiet view ((boots.filterMap (bootImage view)).map .ranged) .start
  obtain ⟨s', hrun, -, hall⟩ := isoDir_quiet h [] ((boots.filterMap (bootImage view)).length,
    (walkItems neverCapped quiet view ((boots.filterMap (bootImage view)).map .ranged) .start).1)
  exact ⟨s'.2, .dirs (Prod.ext rfl hend) hrun, hall⟩

theorem iso_honest_iff (view : View) (root : ℕ × ℕ) (boots : List BootEntry) :
    IsoHonest view root boots ↔
      (Iso.Reads view root → ∀ e, IsoHolds view ⟨root.1, root.2, []⟩ e → e.Within view) := by
  constructor
  · intro h hreads e he
    obtain ⟨st, hwalk, hall⟩ := isoRanged_quiet hreads boots
    rcases h neverCapped quiet _ hwalk _ (hall e he) with hwhole | hnote | hout
    · exact (whole_iff he.fair none).mp hwhole
    · cases hnote
    · cases hout
  · intro h capped inner r hr m hm
    cases hr with
    | boot hwalk => exact .inr (.inr (swallowed_error "iso9660 parse failed" none _))
    | failed hwalk hdirs => exact .inr (.inr (swallowed_error "iso9660 parse failed" none _))
    | @dirs st st' n hwalk hdirs =>
      have hreads : Iso.Reads view root := Iso.reads_of_evaluates hdirs
      have hboots := @walkItems_made capped inner view ((boots.filterMap (bootImage view)).map .ranged)
        .start
      rw [hwalk] at hboots
      rcases isoDir_made hdirs m hm with hold | hnote | ⟨e, he, heq⟩
      · rcases hboots m hold with hstart | hnote | ⟨e, he, heq⟩
        · cases hstart
        · exact .inr (.inl hnote)
        · left
          obtain ⟨e', he', hitem⟩ := List.mem_map.mp he
          cases hitem
          obtain ⟨boot, -, hboot⟩ := List.mem_filterMap.mp he'
          have hin := bootImage_within hboot
          rw [heq]
          exact (whole_iff hin.1.le _).mpr hin
      · exact .inr (.inl hnote)
      · left
        rw [heq]
        exact (whole_iff he.fair _).mpr (h hreads e he)

/-! ### The members of a cpio -/

/-- From a place on, the walk of a cpio comes to an entry of that name, whose bytes are stated to be at the
offset and to be so many. -/
inductive CpioStates (view : Bytes) : ℕ → List Char → ℕ → ℕ → Prop
  | here {pos mode size : ℕ} {name : List Char} {rest : Bytes}
      (h : Cpio.header (view.drop pos) = .ok (some (mode, size, name, rest)))
      (hname : name ≠ Cpio.trailer) (hmode : Cpio.isRegular mode = true) :
      CpioStates view pos name (view.length - rest.length) size
  | next {pos mode size off len : ℕ} {name name' : List Char} {rest : Bytes}
      (h : Cpio.header (view.drop pos) = .ok (some (mode, size, name, rest)))
      (hname : name ≠ Cpio.trailer)
      (hnext : CpioStates view
        (view.length - rest.length + size + (Cpio.pad4 size - size)) name' off len) :
      CpioStates view pos name' off len
  | tail {pos mode size next : ℕ} {rest : Bytes}
      (h : Cpio.header (view.drop pos) = .ok (some (mode, size, Cpio.trailer, rest)))
      (hnext : Cpio.firstNonzero view (view.length - rest.length + Cpio.pad4 size) = some next) :
      CpioStates view pos Cpio.cpioTail next (view.length - next)

section
variable {view : Bytes} {child : Cpio.Direct → Option Err} {pos : ℕ}

/-- A member has the bytes that its entry states, and they are there. -/
def CpioWhole (view : Bytes) (pos : ℕ) (d : Cpio.Direct) : Prop :=
  ∃ off size, CpioStates view pos d.name off size ∧ off + size ≤ view.length ∧
    d.content = (view.drop off).take size

theorem then_ok {d : Cpio.Direct} {rest : Cpio.Listing} (h : (d.then child rest).2 = .ok none) :
    (d.then child rest).1 = d :: rest.1 ∧ rest.2 = .ok none := by
  unfold Cpio.Direct.then at h ⊢
  cases hd : child d with
  | none =>
    rw [hd] at h
    exact ⟨rfl, h⟩
  | some e =>
    rw [hd] at h
    cases h

/-- A walk without a note ends at a trailer, for which there is room. -/
theorem cpio_ends_inside (h : (Cpio.cpioRanged child view pos).2 = .ok none) :
    pos + 110 ≤ view.length := by
  rw [Cpio.cpioRanged] at h
  split_ifs at h with hlen
  · cases h
  · rw [List.length_take, List.length_drop] at hlen
    omega

/-- **A cpio's members are whole, unless the walk ends with a note or an error.**  What follows a member
that is cut off has no header, so the walk ends there. -/
theorem cpio_whole (h : (Cpio.cpioRanged child view pos).2 = .ok none) :
    ∀ d ∈ (Cpio.cpioRanged child view pos).1, CpioWhole view pos d := by
  induction hn : view.length - pos using Nat.strong_induction_on generalizing pos with
  | _ n ih =>
    subst hn
    cases hres : Cpio.header (view.drop pos) with
    | error e =>
      rw [Cpio.cpioRanged_ended (by rw [hres]; nofun)]
      nofun
    | ok x =>
      cases x with
      | none =>
        rw [Cpio.cpioRanged_ended (by rw [hres]; nofun)]
        nofun
      | some x =>
        obtain ⟨mode, size, name, rest⟩ := x
        have hroom := cpio_ends_inside h
        rw [Cpio.cpioRanged_next hres] at h ⊢
        by_cases hname : name = Cpio.trailer
        · subst hname
          rw [if_pos rfl] at h ⊢
          cases hfirst : Cpio.firstNonzero view (view.length - rest.length + Cpio.pad4 size) with
          | none => nofun
          | some next =>
            rw [hfirst] at h
            obtain ⟨hmembers, -⟩ := then_ok h
            rw [hmembers]
            intro d hd
            rw [List.mem_singleton.mp hd]
            refine ⟨next, view.length - next, .tail hres hfirst, ?_, ?_⟩
            · unfold Cpio.firstNonzero at hfirst
              dsimp only at hfirst
              split_ifs at hfirst with hlt
              cases hfirst
              omega
            · show view.drop next = (view.drop next).take (view.length - next)
              rw [List.take_of_length_le (by rw [List.length_drop])]
        · rw [if_neg hname] at h ⊢
          have hforward : pos < view.length - rest.length + size + (Cpio.pad4 size - size) := by
            obtain ⟨n, hn, -, hdrop⟩ := Cpio.header_rest hres
            rw [hdrop, List.length_drop, List.length_drop]
            omega
          by_cases hmode : Cpio.isRegular mode = true
          · rw [if_pos hmode] at h ⊢
            obtain ⟨hmembers, hrest⟩ := then_ok h
            have hafter := cpio_ends_inside hrest
            rw [hmembers]
            intro d hd
            cases List.mem_cons.mp hd with
            | inl heq =>
              rw [heq]
              exact ⟨_, size, .here hres hname hmode, by omega, rfl⟩
            | inr hmem =>
              obtain ⟨off, len, hstates, hfit, hcontent⟩ := ih _ (by omega) hrest rfl d hmem
              exact ⟨off, len, .next hres hname hstates, hfit, hcontent⟩
          · rw [if_neg hmode] at h ⊢
            intro d hd
            obtain ⟨off, len, hstates, hfit, hcontent⟩ := ih _ (by omega) h rfl d hd
            exact ⟨off, len, .next hres hname hstates, hfit, hcontent⟩

end

/-! ### When no member is silently shortened -/

/-- **No member is silently shortened, just when every range that an entry states lies in the container,
or the container's own parse ends with a note.**  A cpio's members never are. -/
theorem stated_members_iff (view : View) :
    (∀ entries stop, Honest view (tarRanged view entries stop) ↔
        stop.isSome = true ∨ AllWithin view (entries.map TarEntry.item)) ∧
      (∀ entries, Honest view (zipRanged view entries) ↔ AllWithin view (entries.map ZipEntry.item)) ∧
      (∀ files notes, Honest view (erofsRanged view files notes) ↔
        notes ≠ [] ∨ AllWithin view (files.map ErofsFile.item)) ∧
      (∀ files notes, Honest view (fatRanged view files notes) ↔
        notes ≠ [] ∨ AllWithin view (files.map FatFile.item)) ∧
      (∀ root boots, IsoHonest view root boots ↔
        (Iso.Reads view root → ∀ e, IsoHolds view ⟨root.1, root.2, []⟩ e → e.Within view)) ∧
      ∀ child, (Cpio.cpioRanged child view.content 0).2 = .ok none →
        ∀ d ∈ (Cpio.cpioRanged child view.content 0).1, CpioWhole view.content 0 d :=
  ⟨tar_honest_iff, zip_honest_iff, erofs_honest_iff, fat_honest_iff, iso_honest_iff view,
    fun _ => cpio_whole⟩

theorem plain_nil {view : View} {e : Entry} (h : ∀ r ∈ e.ranges, view.len ≤ r.1) :
    (Plain view e).bytes = [] := by
  rw [Plain, View.content_slice, List.flatMap_eq_nil_iff]
  intro r hr
  rw [List.drop_of_length_le (by rw [View.length_content]; exact h r hr), List.take_nil]

/-- A file of 5 bytes at block 1000, which the image does not have. -/
def fileRecord : Bytes :=
  [34, 0, 232, 3, 0, 0] ++ List.replicate 4 0 ++ [5, 0, 0, 0] ++ List.replicate 18 0 ++ [1, 65]

theorem read_fileRecord : Iso.readDir (View.ofFile (Iso.image fileRecord)) 0 34 =
    .ok ⟨[⟨['A'], [(2048000, 5)]⟩], [], none⟩ := by
  rw [Iso.readDir, Iso.read_image_0 rfl]
  rfl

/-- The walk of an image gives a file that is not in it as a complete member of no bytes. -/
theorem short_image :
    Iso.rootOf (View.ofFile (Iso.image fileRecord)) = .ok (0, 34) ∧
      (∃ st, IsoRanged (View.ofFile (Iso.image fileRecord)) (0, 34) [] neverCapped quiet (st, .ok none) ∧
        ∃ m ∈ st.members, m.entry.stated = 5 ∧ m.bytes = [] ∧ m.note = none) ∧
      ¬ IsoHonest (View.ofFile (Iso.image fileRecord)) (0, 34) [] := by
  have hreads : Iso.Reads (View.ofFile (Iso.image fileRecord)) (0, 34) := .mk read_fileRecord nofun
  have hholds : IsoHolds (View.ofFile (Iso.image fileRecord)) ⟨0, 34, []⟩
      (isoEntry [] ⟨['A'], [(2048000, 5)]⟩) := .here read_fileRecord (List.mem_singleton_self _)
  have hlen : (Iso.image fileRecord).length = 36864 := Iso.length_image rfl
  refine ⟨Iso.rootOf_image rfl, ?_, fun h => ?_⟩
  · obtain ⟨st, hwalk, hall⟩ := isoRanged_quiet hreads []
    refine ⟨st, hwalk, _, hall _ hholds, rfl, ?_, rfl⟩
    refine plain_nil fun r hr => ?_
    rw [List.mem_singleton.mp hr, View.len_ofFile, hlen]
    omega
  · have hwithin := ((iso_honest_iff _ _ _).mp h hreads _ hholds).2 (2048000, 5)
      (List.mem_singleton_self _)
    rw [View.Within, View.len_ofFile, hlen] at hwithin
    omega

end Stated

end Hashdex
