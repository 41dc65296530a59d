import Mathlib
import Hashdex.Hex

/-!
# The local copies of the published datasets

`pull`, `verify` and `rm` as what they do to a dataset's directory, one effect after another; a
command that fails or is stopped has done the first few.  What the Hub, the transport and the file
system answer is the environment of a command.  Partial downloads are left out: nothing opens a
`.part` but the rename that installs it.

* `Effect.sound_iff`: when an effect keeps the pin honest
* `pull_clean_iff`: which pulls do
* `pin_vouches`: every run of clean pulls, verifies and removals keeps it
-/

namespace Hashdex

namespace IndexCmd

/-- A path below the dataset's directory. -/
abbrev Path := List Char

/-- A revision's name.  It has no blanks, so trimming the pin that holds it changes nothing. -/
abbrev Rev := List Char

def isParquet (path : Path) : Bool :=
  ".parquet".toList.isSuffixOf path
    && ("data/".toList.isPrefixOf path || "maps/".toList.isPrefixOf path)

def isBloom (path : Path) : Bool := ".bloom".toList.isSuffixOf path && !path.contains '/'

/-- A published dataset: its name and the parquet files its routing can name. -/
structure Spec where
  name : List Char
  routes : List Path
  routes_parquet : ∀ path ∈ routes, isParquet path
  name_flat : '/' ∉ name

/-- The files a lookup can open: routed parquet, and the dataset's own filters. -/
def Spec.opens (spec : Spec) : List Path :=
  spec.routes ++ ["md5", "sha1", "sha256"].map fun scheme =>
    spec.name ++ '.' :: scheme.toList ++ ".bloom".toList

/-! ### The Hub -/

/-- A file of a published revision; a large one is stored by its sha256. -/
structure Published where
  path : Path
  bytes : Bytes
  lfs : Bool
  deriving DecidableEq

/-- The dataset's repository: the files of each revision, every path once. -/
structure Hub where
  files : Rev → List Published
  nodup : ∀ rev, ((files rev).map Published.path).Nodup

/-- The file published at a path. -/
def Hub.content (hub : Hub) (rev : Rev) (path : Path) : Option Bytes :=
  ((hub.files rev).find? fun f => f.path = path).map Published.bytes

structure RemoteFile where
  path : Path
  size : ℕ
  sha256 : Option (List Char)
  gitOid : List Char
  deriving DecidableEq

section
variable (sha256 gitBlob : Bytes → List Char)

def listRemoteFiles (hub : Hub) (rev : Rev) : List RemoteFile :=
  (((hub.files rev).filter fun f => isParquet f.path || isBloom f.path).map fun f =>
    { path := f.path
      size := f.bytes.length
      sha256 := if f.lfs then some (sha256 f.bytes) else none
      gitOid := gitBlob f.bytes }).insertionSort fun a b => a.path ≤ b.path

end

/-! ### The directory -/

/-- The dataset's directory: its files, and the text of its `revision` file. -/
structure Dir where
  files : Path → Option Bytes
  pin : Option Rev

/-- Where a quarantined file goes. -/
def drifted (path : Path) : Path := path ++ ".drifted".toList

inductive Effect
  | unpin
  | install (path : Path) (bytes : Bytes)
  | pin (rev : Rev)
  | quarantine (path : Path)
  | remove (path : Path)
  deriving DecidableEq

def Effect.apply (dir : Dir) : Effect → Dir
  | .unpin => { dir with pin := none }
  | .install path bytes => { dir with files := Function.update dir.files path (some bytes) }
  | .pin rev => { dir with pin := some rev }
  | .quarantine path =>
    { dir with
      files := Function.update (Function.update dir.files (drifted path) (dir.files path)) path none }
  | .remove path => { dir with files := Function.update dir.files path none }

def applyAll (dir : Dir) (effects : List Effect) : Dir := effects.foldl Effect.apply dir

/-! ### verify -/

inductive Answer
  | ok
  | notFound
  | failed
  deriving DecidableEq

/-- What `verify` meets: the listing of the pinned revision, where main is and whether it lists, which
files can be read to their end, what the walk of the directory finds, which renames succeed, and
whether the pin can be removed. -/
structure VerifyEnv where
  pinListing : Answer
  mainRev : Rev
  mainListing : Bool
  reads : Path → Bool
  walk : List Path
  renames : Path → Bool
  unpins : Bool

/-- The file name's extension. -/
def extension (path : Path) : Option (List Char) :=
  let name := (path.reverse.takeWhile (· ≠ '/')).reverse
  let stem := (name.reverse.dropWhile (· ≠ '.')).drop 1
  if stem = [] then none else some (name.reverse.takeWhile (· ≠ '.')).reverse

/-- Rename files out of the way one by one, up to the first that cannot be. -/
def quarantineAll (renames : Path → Bool) : List Path → List Effect × Bool
  | [] => ([], true)
  | path :: rest =>
    if renames path then
      let (effects, done) := quarantineAll renames rest
      (.quarantine path :: effects, done)
    else ([], false)

section
variable (sha256 gitBlob : Bytes → List Char)

/-- Whether the local bytes hash to what the listing says. -/
def RemoteFile.hashesTo (f : RemoteFile) (bytes : Bytes) : Bool :=
  match f.sha256 with
  | some want => sha256 bytes = want
  | none => gitBlob bytes = f.gitOid

/-- Check the listed files: those to quarantine, and how many are missing; a file that cannot be
read to its end fails the whole check. -/
def inspect (env : VerifyEnv) (dir : Dir) : List RemoteFile → Option (List Path × ℕ)
  | [] => some ([], 0)
  | f :: rest =>
    match dir.files f.path with
    | none => (inspect env dir rest).map fun (bad, missing) => (bad, missing + 1)
    | some bytes =>
      if bytes.length ≠ f.size then
        (inspect env dir rest).map fun (bad, missing) => (f.path :: bad, missing)
      else if env.reads f.path = false then none
      else if f.hashesTo sha256 gitBlob bytes then inspect env dir rest
      else (inspect env dir rest).map fun (bad, missing) => (f.path :: bad, missing)

/-- The listing `verify` goes by: the pinned revision's, or main's where there is none. -/
def verifyListing (hub : Hub) (env : VerifyEnv) (pin : Rev) : Option (List RemoteFile) :=
  let isSha := pin.length = 40 ∧ pin.all isAsciiHexdigit
  let main := if env.mainListing then some (listRemoteFiles sha256 gitBlob hub env.mainRev) else none
  if isSha then
    match env.pinListing with
    | .ok => some (listRemoteFiles sha256 gitBlob hub pin)
    | .notFound => main
    | .failed => none
  else main

def verify (hub : Hub) (env : VerifyEnv) (dir : Dir) : List Effect :=
  match dir.pin with
  | none => []
  | some pin =>
    match verifyListing sha256 gitBlob hub env pin with
    | none => []
    | some files =>
      match inspect sha256 gitBlob env dir files with
      | none => []
      | some (bad, missing) =>
        let strays := env.walk.filter fun path =>
          (dir.files path).isSome && !(files.map RemoteFile.path).contains path
            && extension path = some "bloom".toList
        let (moved, done) := quarantineAll env.renames strays
        if done = false then moved
        else if bad = [] ∧ missing = 0 then moved
        else
          let (moved', done') := quarantineAll env.renames bad
          moved ++ moved' ++ (if done' && env.unpins then [.unpin] else [])

/-! ### pull and rm -/

/-- What `pull` meets: the revision main names, whether it lists, whether a stale pin can be removed,
what each download leaves in the `.part` file, which renames succeed, whether the pin can be
written, and what its `verify` meets. -/
structure PullEnv where
  revision : Option Rev
  listing : Bool
  unpins : Bool
  download : Path → Option Bytes
  renames : Path → Bool
  pins : Bool
  verify : VerifyEnv

/-- A file whose size already matches is kept. -/
def keeps (dir : Dir) (f : RemoteFile) : Bool :=
  match dir.files f.path with
  | some bytes => bytes.length = f.size ∧ 0 < f.size
  | none => false

/-- The bytes a fetch puts at the file's path: the download must come to its size, where the listing
gives one. -/
def PullEnv.arrives (env : PullEnv) (f : RemoteFile) : Option Bytes :=
  match env.download f.path with
  | none => none
  | some bytes =>
    if 0 < f.size ∧ bytes.length ≠ f.size then none
    else if env.renames f.path then some bytes
    else none

/-- Fetch the files that are not kept, up to the first that fails. -/
def fetchAll (env : PullEnv) (dir : Dir) : List RemoteFile → List Effect × Bool
  | [] => ([], true)
  | f :: rest =>
    if keeps dir f then fetchAll env dir rest
    else
      match env.arrives f with
      | none => ([], false)
      | some bytes =>
        let (effects, done) := fetchAll env (Effect.apply dir (.install f.path bytes)) rest
        (.install f.path bytes :: effects, done)

/-- Clear a stale pin; that it cannot be removed is passed over. -/
def clearPin (env : PullEnv) (dir : Dir) (rev : Rev) : List Effect :=
  match dir.pin with
  | some old => if old ≠ rev ∧ env.unpins then [.unpin] else []
  | none => []

def pull (hub : Hub) (env : PullEnv) (dir : Dir) : List Effect :=
  match env.revision with
  | none => []
  | some rev =>
    if env.listing = false then []
    else
      let files := listRemoteFiles sha256 gitBlob hub rev
      if files.any (fun f => ".parquet".toList.isSuffixOf f.path) = false then []
      else
        let cleared := clearPin env dir rev
        let dir := applyAll dir cleared
        let (fetched, done) := fetchAll env dir files
        if done && env.pins then
          let dir := applyAll dir (fetched ++ [.pin rev])
          cleared ++ fetched ++ [.pin rev] ++ verify sha256 gitBlob hub env.verify dir
        else cleared ++ fetched

/-- `rm` deletes the directory, its entries in the order `remove_dir_all` meets them; `none` is the
pin. -/
def rm (order : List (Option Path)) : List Effect :=
  order.map fun
    | some path => .remove path
    | none => .unpin

inductive Command
  | pull (env : PullEnv)
  | verify (env : VerifyEnv)
  | rm (order : List (Option Path))

def Command.effects (hub : Hub) (dir : Dir) : Command → List Effect
  | .pull env => IndexCmd.pull sha256 gitBlob hub env dir
  | .verify env => IndexCmd.verify sha256 gitBlob hub env dir
  | .rm order => IndexCmd.rm order

/-- Commands in their order, each with the number of effects after which it is stopped. -/
def runAll (hub : Hub) : Dir → List (Command × ℕ) → Dir
  | dir, [] => dir
  | dir, (command, n) :: rest =>
    runAll hub (applyAll dir ((command.effects sha256 gitBlob hub dir).take n)) rest

end

/-! ### The pin vouches -/

/-- While a revision is pinned, every file a lookup can open is the one it publishes. -/
def Vouched (hub : Hub) (spec : Spec) (dir : Dir) : Prop :=
  ∀ pin, dir.pin = some pin → ∀ path ∈ spec.opens, ∀ bytes, dir.files path = some bytes →
    hub.content pin path = some bytes

/-- What an effect must not do to keep the pin honest. -/
def Effect.Honest (hub : Hub) (spec : Spec) (dir : Dir) : Effect → Prop
  | .install path bytes =>
    ∀ pin, dir.pin = some pin → path ∈ spec.opens → hub.content pin path = some bytes
  | .pin rev =>
    ∀ path ∈ spec.opens, ∀ bytes, dir.files path = some bytes → hub.content rev path = some bytes
  | _ => True

/-- Every effect is honest when its turn comes. -/
def HonestAll (hub : Hub) (spec : Spec) : Dir → List Effect → Prop
  | _, [] => True
  | dir, e :: es => e.Honest hub spec dir ∧ HonestAll hub spec (e.apply dir) es

theorem Spec.listed_of_opens {spec : Spec} {path : Path} (h : path ∈ spec.opens) :
    isParquet path || isBloom path := by
  cases List.mem_append.mp h with
  | inl hroute => rw [spec.routes_parquet path hroute, Bool.true_or]
  | inr hbloom =>
    obtain ⟨scheme, hscheme, rfl⟩ := List.mem_map.mp hbloom
    have hflat : '/' ∉ scheme.toList := by
      simp only [List.mem_cons, List.not_mem_nil, or_false] at hscheme
      rcases hscheme with rfl | rfl | rfl <;> decide
    have hend : ".bloom".toList <:+ spec.name ++ '.' :: scheme.toList ++ ".bloom".toList :=
      List.suffix_append _ _
    have hname : '/' ∉ spec.name ++ '.' :: scheme.toList ++ ".bloom".toList := by
      simp only [List.mem_append, List.mem_cons, not_or]
      exact ⟨⟨spec.name_flat, by decide, hflat⟩, by decide⟩
    have hbloom : isBloom (spec.name ++ '.' :: scheme.toList ++ ".bloom".toList) = true := by
      rw [isBloom, Bool.and_eq_true, List.isSuffixOf_iff_suffix, Bool.not_eq_true',
        List.contains_eq_mem, decide_eq_false_iff_not]
      exact ⟨hend, hname⟩
    rw [hbloom, Bool.or_true]

/-- A quarantined file is out of the lookups' reach. -/
theorem drifted_not_opens (spec : Spec) (path : Path) : drifted path ∉ spec.opens := by
  intro h
  have hend : ".drifted".toList <:+ drifted path := List.suffix_append _ _
  have hno : ∀ ext : List Char, ext.length ≤ ".drifted".toList.length →
      ¬ ext <:+ ".drifted".toList → ¬ ext <:+ drifted path :=
    fun ext hlen hnot hext => hnot (List.suffix_of_suffix_length_le hext hend hlen)
  have hlisted := Spec.listed_of_opens h
  rw [Bool.or_eq_true, isParquet, isBloom, Bool.and_eq_true, Bool.and_eq_true,
    List.isSuffixOf_iff_suffix, List.isSuffixOf_iff_suffix] at hlisted
  cases hlisted with
  | inl hparquet => exact hno ".parquet".toList (by decide) (by decide) hparquet.1
  | inr hbloom => exact hno ".bloom".toList (by decide) (by decide) hbloom.1

section
variable {hub : Hub} {spec : Spec} {dir : Dir}

/-- **An effect keeps the pin honest exactly when it is honest.** -/
theorem Effect.honest_iff (hv : Vouched hub spec dir) (e : Effect) :
    Vouched hub spec (e.apply dir) ↔ e.Honest hub spec dir := by
  cases e with
  | unpin => exact iff_of_true (fun pin hpin => by cases hpin) trivial
  | pin rev =>
    constructor
    · intro h
      exact h rev rfl
    · intro h pin hpin
      cases hpin
      exact h
  | install path bytes =>
    constructor
    · intro h pin hpin hopen
      apply h pin hpin path hopen
      exact Function.update_self ..
    · intro h pin hpin path' hopen bytes' hbytes
      dsimp only [Effect.apply] at hbytes
      by_cases hpath : path' = path
      · subst hpath
        rw [Function.update_self] at hbytes
        cases hbytes
        exact h pin hpin hopen
      · rw [Function.update_of_ne hpath] at hbytes
        exact hv pin hpin path' hopen bytes' hbytes
  | quarantine path =>
    refine iff_of_true ?_ trivial
    intro pin hpin path' hopen bytes' hbytes
    dsimp only [Effect.apply] at hbytes
    by_cases hpath : path' = path
    · rw [hpath, Function.update_self] at hbytes
      cases hbytes
    · have hdrifted : path' ≠ drifted path := by
        intro heq
        rw [heq] at hopen
        exact drifted_not_opens spec path hopen
      rw [Function.update_of_ne hpath, Function.update_of_ne hdrifted] at hbytes
      exact hv pin hpin path' hopen bytes' hbytes
  | remove path =>
    refine iff_of_true ?_ trivial
    intro pin hpin path' hopen bytes' hbytes
    dsimp only [Effect.apply] at hbytes
    by_cases hpath : path' = path
    · rw [hpath, Function.update_self] at hbytes
      cases hbytes
    · rw [Function.update_of_ne hpath] at hbytes
      exact hv pin hpin path' hopen bytes' hbytes

/-- **However far a command gets**, it keeps the pin honest exactly when all its effects are. -/
theorem honestAll_iff (hv : Vouched hub spec dir) (es : List Effect) :
    (∀ n, Vouched hub spec (applyAll dir (es.take n))) ↔ HonestAll hub spec dir es := by
  induction es generalizing dir with
  | nil =>
    refine iff_of_true (fun n => ?_) trivial
    rw [List.take_nil]
    exact hv
  | cons e es ih =>
    constructor
    · intro h
      have hfirst : Vouched hub spec (e.apply dir) := h 1
      refine ⟨(Effect.honest_iff hv e).mp hfirst, (ih hfirst).mp fun n => ?_⟩
      exact h (n + 1)
    · intro h n
      have hfirst := (Effect.honest_iff hv e).mpr h.1
      cases n with
      | zero => exact hv
      | succ n => exact (ih hfirst).mpr h.2 n

theorem honestAll_append (es fs : List Effect) :
    HonestAll hub spec dir (es ++ fs)
      ↔ HonestAll hub spec dir es ∧ HonestAll hub spec (applyAll dir es) fs := by
  induction es generalizing dir with
  | nil => exact (and_iff_right trivial).symm
  | cons e es ih =>
    have hih : HonestAll hub spec (e.apply dir) (es ++ fs) ↔ _ := ih
    show _ ∧ HonestAll hub spec (e.apply dir) (es ++ fs) ↔ (_ ∧ _) ∧ _
    rw [hih, and_assoc]
    exact Iff.rfl

/-- Effects that only take files away, or the pin. -/
def Effect.Removes : Effect → Prop
  | .install _ _ => False
  | .pin _ => False
  | _ => True

theorem honestAll_of_removes {es : List Effect} (h : ∀ e ∈ es, e.Removes) :
    HonestAll hub spec dir es := by
  induction es generalizing dir with
  | nil => trivial
  | cons e es ih =>
    have he := h e List.mem_cons_self
    refine ⟨?_, ih fun e' he' => h e' (List.mem_cons_of_mem _ he')⟩
    cases e with
    | install path bytes => exact he.elim
    | pin rev => exact he.elim
    | _ => trivial

end

/-! ### verify and rm only take away -/

section
variable {sha256 gitBlob : Bytes → List Char} {hub : Hub} {spec : Spec} {dir : Dir}

theorem quarantineAll_removes (renames : Path → Bool) (paths : List Path) :
    ∀ e ∈ (quarantineAll renames paths).1, e.Removes := by
  induction paths with
  | nil => exact fun e he => absurd he List.not_mem_nil
  | cons path rest ih =>
    intro e he
    rw [quarantineAll] at he
    by_cases hrename : renames path
    · rw [if_pos hrename] at he
      cases List.mem_cons.mp he with
      | inl heq => rw [heq]; trivial
      | inr hmem => exact ih e hmem
    · rw [if_neg hrename] at he
      cases he

theorem verify_removes (env : VerifyEnv) : ∀ e ∈ verify sha256 gitBlob hub env dir, e.Removes := by
  intro e he
  rw [verify] at he
  split at he
  · cases he
  · split at he
    · cases he
    · split at he
      · cases he
      · dsimp only at he
        split at he
        · exact quarantineAll_removes _ _ e he
        · split at he
          · exact quarantineAll_removes _ _ e he
          · rw [List.mem_append, List.mem_append] at he
            rcases he with (hstray | hbad) | hpin
            · exact quarantineAll_removes _ _ e hstray
            · exact quarantineAll_removes _ _ e hbad
            · split at hpin
              · rw [List.mem_singleton.mp hpin]
                trivial
              · cases hpin

theorem rm_removes (order : List (Option Path)) : ∀ e ∈ rm order, e.Removes := by
  intro e he
  obtain ⟨entry, -, rfl⟩ := List.mem_map.mp he
  cases entry <;> trivial

/-! ### pull -/

/-- The pin a pull works under: a stale one is gone, if it could be removed. -/
def leftPin (env : PullEnv) (dir : Dir) (rev : Rev) : Option Rev :=
  match dir.pin with
  | some old => if old ≠ rev ∧ env.unpins then none else some old
  | none => none

theorem applyAll_clearPin (env : PullEnv) (dir : Dir) (rev : Rev) :
    applyAll dir (clearPin env dir rev) = { dir with pin := leftPin env dir rev } := by
  obtain ⟨files, pin⟩ := dir
  cases pin with
  | none => rfl
  | some old =>
    by_cases hclear : old ≠ rev ∧ env.unpins
    · simp only [clearPin, leftPin, if_pos hclear]
      rfl
    · simp only [clearPin, leftPin, if_neg hclear]
      rfl

theorem clearPin_removes (env : PullEnv) (dir : Dir) (rev : Rev) :
    ∀ e ∈ clearPin env dir rev, e.Removes := by
  intro e he
  rw [clearPin] at he
  split at he
  · split at he
    · rw [List.mem_singleton.mp he]
      trivial
    · cases he
  · cases he

/-- What becomes of a listed file: kept, or what arrives. -/
def PullEnv.outcome (env : PullEnv) (dir : Dir) (f : RemoteFile) : Option Bytes :=
  if keeps dir f then dir.files f.path else env.arrives f

/-- A listed file is in place once the fetch is past it. -/
theorem PullEnv.outcome_isSome (env : PullEnv) (dir : Dir) (f : RemoteFile) :
    (env.outcome dir f).isSome ↔ keeps dir f ∨ (env.arrives f).isSome := by
  rw [outcome]
  by_cases hkeep : keeps dir f
  · rw [if_pos hkeep]
    refine iff_of_true ?_ (Or.inl hkeep)
    rw [keeps] at hkeep
    split at hkeep
    · next bytes hbytes => rw [hbytes]; rfl
    · cases hkeep
  · rw [if_neg hkeep]
    exact (or_iff_right hkeep).symm

theorem keeps_congr {dir' : Dir} {f : RemoteFile} (h : dir'.files f.path = dir.files f.path) :
    keeps dir' f = keeps dir f := by
  rw [keeps, keeps, h]

/-- **What a fetch leaves**: the pin as it was, unlisted paths as they were, and, when it came to its
end, every listed file's outcome. -/
theorem fetchAll_spec (env : PullEnv) (dir : Dir) {files : List RemoteFile}
    (hnodup : (files.map RemoteFile.path).Nodup) :
    (applyAll dir (fetchAll env dir files).1).pin = dir.pin
    ∧ (∀ path, (∀ f ∈ files, f.path ≠ path) →
      (applyAll dir (fetchAll env dir files).1).files path = dir.files path)
    ∧ ((fetchAll env dir files).2 = true ↔ ∀ f ∈ files, (env.outcome dir f).isSome)
    ∧ ((fetchAll env dir files).2 = true → ∀ f ∈ files,
      (applyAll dir (fetchAll env dir files).1).files f.path = env.outcome dir f) := by
  induction files generalizing dir with
  | nil =>
    refine ⟨rfl, fun _ _ => rfl, ?_, ?_⟩
    · exact iff_of_true rfl fun f hf => absurd hf List.not_mem_nil
    · exact fun _ f hf => absurd hf List.not_mem_nil
  | cons f rest ih =>
    rw [List.map_cons, List.nodup_cons] at hnodup
    obtain ⟨hfresh, hnodup⟩ := hnodup
    have hne : ∀ g ∈ rest, g.path ≠ f.path := by
      intro g hg heq
      exact hfresh (List.mem_map.mpr ⟨g, hg, heq⟩)
    by_cases hkeep : keeps dir f
    · obtain ⟨hpin, hother, hdone, hout⟩ := ih dir hnodup
      have hsome : (env.outcome dir f).isSome := (env.outcome_isSome dir f).mpr (Or.inl hkeep)
      have hf : env.outcome dir f = dir.files f.path := by rw [PullEnv.outcome, if_pos hkeep]
      rw [fetchAll, if_pos hkeep]
      refine ⟨hpin, ?_, ?_, ?_⟩
      · intro path hpath
        exact hother path fun g hg => hpath g (List.mem_cons_of_mem _ hg)
      · rw [hdone, List.forall_mem_cons]
        exact (and_iff_right hsome).symm
      · intro h g hg
        cases List.mem_cons.mp hg with
        | inl heq => rw [heq, hf]; exact hother f.path hne
        | inr hmem => exact hout h g hmem
    · have hf : env.outcome dir f = env.arrives f := by rw [PullEnv.outcome, if_neg hkeep]
      rw [fetchAll, if_neg hkeep]
      cases harrive : env.arrives f with
      | none =>
        refine ⟨rfl, fun _ _ => rfl, ?_, ?_⟩
        · refine iff_of_false (by simp) fun h => ?_
          have hsome := h f List.mem_cons_self
          rw [hf, harrive] at hsome
          cases hsome
        · intro h
          cases h
      | some bytes =>
        have hsame : ∀ path, path ≠ f.path →
            (Effect.apply dir (.install f.path bytes)).files path = dir.files path :=
          fun path hpath => Function.update_of_ne hpath _ _
        have houtcome : ∀ g ∈ rest,
            env.outcome (Effect.apply dir (.install f.path bytes)) g = env.outcome dir g := by
          intro g hg
          rw [PullEnv.outcome, PullEnv.outcome, keeps_congr (hsame g.path (hne g hg)),
            hsame g.path (hne g hg)]
        obtain ⟨hpin, hother, hdone, hout⟩ :=
          ih (Effect.apply dir (.install f.path bytes)) hnodup
        refine ⟨hpin, ?_, ?_, ?_⟩
        · intro path hpath
          have hrest := hother path fun g hg => hpath g (List.mem_cons_of_mem _ hg)
          rw [hsame path (hpath f List.mem_cons_self).symm] at hrest
          exact hrest
        · show (fetchAll env (Effect.apply dir (.install f.path bytes)) rest).2 = true ↔ _
          rw [hdone, List.forall_mem_cons, hf, harrive]
          constructor
          · intro h
            exact ⟨rfl, fun g hg => by rw [← houtcome g hg]; exact h g hg⟩
          · intro h g hg
            rw [houtcome g hg]
            exact h.2 g hg
        · intro h g hg
          cases List.mem_cons.mp hg with
          | inl heq =>
            have hrest := hother f.path hne
            rw [heq, hf, harrive]
            exact hrest.trans (Function.update_self ..)
          | inr hmem => rw [← houtcome g hmem]; exact hout h g hmem

/-- **When a fetch is honest**: each file it installs under a pin is the pinned revision's. -/
theorem fetchAll_honest (env : PullEnv) (dir : Dir) {files : List RemoteFile}
    (hnodup : (files.map RemoteFile.path).Nodup) :
    HonestAll hub spec dir (fetchAll env dir files).1
      ↔ ∀ before f after, files = before ++ f :: after →
        (∀ g ∈ before, (env.outcome dir g).isSome) → keeps dir f = false →
        ∀ bytes, env.arrives f = some bytes → ∀ pin, dir.pin = some pin → f.path ∈ spec.opens →
          hub.content pin f.path = some bytes := by
  induction files generalizing dir with
  | nil =>
    refine iff_of_true trivial fun before f after h => ?_
    cases before <;> cases h
  | cons f rest ih =>
    rw [List.map_cons, List.nodup_cons] at hnodup
    obtain ⟨hfresh, hnodup⟩ := hnodup
    by_cases hkeep : keeps dir f
    · have hsome : (env.outcome dir f).isSome := (env.outcome_isSome dir f).mpr (Or.inl hkeep)
      rw [fetchAll, if_pos hkeep, ih dir hnodup]
      constructor
      · intro h before g after hsplit hbefore hnot
        cases before with
        | nil =>
          cases hsplit
          rw [hkeep] at hnot
          cases hnot
        | cons b before =>
          cases hsplit
          exact h before g after rfl (fun x hx => hbefore x (List.mem_cons_of_mem _ hx)) hnot
      · intro h before g after hsplit hbefore
        apply h (f :: before) g after (by rw [hsplit]; rfl)
        exact List.forall_mem_cons.mpr ⟨hsome, hbefore⟩
    · have hf : env.outcome dir f = env.arrives f := by rw [PullEnv.outcome, if_neg hkeep]
      rw [fetchAll, if_neg hkeep]
      cases harrive : env.arrives f with
      | none =>
        refine iff_of_true trivial fun before g after hsplit hbefore _ bytes hbytes => ?_
        cases before with
        | nil =>
          cases hsplit
          rw [harrive] at hbytes
          cases hbytes
        | cons b before =>
          cases hsplit
          have hsome := hbefore f List.mem_cons_self
          rw [hf, harrive] at hsome
          cases hsome
      | some bytes =>
        have houtcome : ∀ g ∈ rest, keeps (Effect.apply dir (.install f.path bytes)) g = keeps dir g
            ∧ env.outcome (Effect.apply dir (.install f.path bytes)) g = env.outcome dir g := by
          intro g hg
          have hne : g.path ≠ f.path := fun heq => hfresh (List.mem_map.mpr ⟨g, hg, heq⟩)
          have hsame : (Effect.apply dir (.install f.path bytes)).files g.path = dir.files g.path :=
            Function.update_of_ne hne _ _
          refine ⟨keeps_congr hsame, ?_⟩
          rw [PullEnv.outcome, PullEnv.outcome, keeps_congr hsame, hsame]
        show _ ∧ HonestAll hub spec _ (fetchAll env (Effect.apply dir (.install f.path bytes)) rest).1
          ↔ _
        rw [ih _ hnodup]
        constructor
        · intro h before g after hsplit hbefore hnot bytes' hbytes'
          cases before with
          | nil =>
            cases hsplit
            rw [harrive] at hbytes'
            cases hbytes'
            exact h.1
          | cons b before =>
            cases hsplit
            have hg : g ∈ before ++ g :: after := by simp
            apply h.2 before g after rfl
            · intro x hx
              rw [(houtcome x (List.mem_append_left _ hx)).2]
              exact hbefore x (List.mem_cons_of_mem _ hx)
            · rw [(houtcome g hg).1]
              exact hnot
            · exact hbytes'
        · intro h
          constructor
          · exact h [] f rest rfl (fun _ hx => absurd hx List.not_mem_nil) (by simpa using hkeep)
              bytes harrive
          · intro before g after hsplit hbefore hnot
            have hg : g ∈ rest := by rw [hsplit]; simp
            rw [(houtcome g hg).1] at hnot
            apply h (f :: before) g after (by rw [hsplit]; rfl) ?_ hnot
            refine List.forall_mem_cons.mpr ⟨by rw [hf, harrive]; rfl, fun x hx => ?_⟩
            have hx' : x ∈ rest := by rw [hsplit]; exact List.mem_append_left _ hx
            rw [← (houtcome x hx').2]
            exact hbefore x hx

/-! ### Which pulls are clean -/

/-- A pull that lists parquet files works on this listing. -/
def PullEnv.lists (sha256 gitBlob : Bytes → List Char) (hub : Hub) (env : PullEnv) (rev : Rev)
    (files : List RemoteFile) : Prop :=
  env.revision = some rev ∧ env.listing = true ∧ files = listRemoteFiles sha256 gitBlob hub rev
    ∧ files.any (fun f => ".parquet".toList.isSuffixOf f.path) = true

/-- What a pull must find, in the directory and on the wire.  Under a pin that stays, what it gets to
install is that pin's; and if it gets to pin its revision, then each listed file it keeps is the
published one although only the sizes were compared, each one it fetched is, and no file that a
lookup can open is there unpublished. -/
structure Clean (sha256 gitBlob : Bytes → List Char) (hub : Hub) (spec : Spec) (env : PullEnv)
    (dir : Dir) : Prop where
  underPin : ∀ rev files, env.lists sha256 gitBlob hub rev files →
    ∀ before f after, files = before ++ f :: after →
      (∀ g ∈ before, (env.outcome dir g).isSome) → keeps dir f = false →
      ∀ bytes, env.arrives f = some bytes → ∀ pin, leftPin env dir rev = some pin →
        f.path ∈ spec.opens → hub.content pin f.path = some bytes
  atPin : ∀ rev files, env.lists sha256 gitBlob hub rev files →
    (∀ f ∈ files, (env.outcome dir f).isSome) → env.pins = true →
      (∀ f ∈ files, f.path ∈ spec.opens → env.outcome dir f = hub.content rev f.path)
      ∧ ∀ path ∈ spec.opens, (∀ f ∈ files, f.path ≠ path) → dir.files path = none

theorem listRemoteFiles_perm (hub : Hub) (rev : Rev) :
    ((listRemoteFiles sha256 gitBlob hub rev).map RemoteFile.path).Perm
      (((hub.files rev).filter fun f => isParquet f.path || isBloom f.path).map Published.path) := by
  refine ((List.perm_insertionSort _ _).map RemoteFile.path).trans ?_
  rw [List.map_map]
  exact List.Perm.refl _

theorem listRemoteFiles_nodup (hub : Hub) (rev : Rev) :
    ((listRemoteFiles sha256 gitBlob hub rev).map RemoteFile.path).Nodup := by
  rw [(listRemoteFiles_perm hub rev).nodup_iff]
  exact ((List.filter_sublist).map _).nodup (hub.nodup rev)

/-- A path that is listed has a published file. -/
theorem content_of_listed {rev : Rev} {f : RemoteFile}
    (hf : f ∈ listRemoteFiles sha256 gitBlob hub rev) : (hub.content rev f.path).isSome := by
  have hmem := (listRemoteFiles_perm hub rev).mem_iff.mp (List.mem_map_of_mem hf)
  obtain ⟨g, hg, hpath⟩ := List.mem_map.mp hmem
  rw [Hub.content, Option.isSome_map, List.find?_isSome]
  exact ⟨g, (List.mem_filter.mp hg).1, by simpa using hpath⟩

/-- And one that a lookup can open, but is not listed, has none. -/
theorem content_of_unlisted {rev : Rev} {path : Path} (hopen : path ∈ spec.opens)
    (h : ∀ f ∈ listRemoteFiles sha256 gitBlob hub rev, f.path ≠ path) :
    hub.content rev path = none := by
  cases hcontent : hub.content rev path with
  | none => rfl
  | some bytes =>
    rw [Hub.content, Option.map_eq_some_iff] at hcontent
    obtain ⟨g, hg, -⟩ := hcontent
    have hpath : g.path = path := by simpa using List.find?_some hg
    have hmem : path ∈ (listRemoteFiles sha256 gitBlob hub rev).map RemoteFile.path := by
      rw [(listRemoteFiles_perm hub rev).mem_iff, List.mem_map]
      refine ⟨g, List.mem_filter.mpr ⟨List.mem_of_find?_eq_some hg, ?_⟩, hpath⟩
      rw [hpath]
      exact Spec.listed_of_opens hopen
    obtain ⟨f, hf, hfpath⟩ := List.mem_map.mp hmem
    exact absurd hfpath (h f hf)

theorem outcome_setPin (env : PullEnv) (dir : Dir) (pin : Option Rev) (f : RemoteFile) :
    env.outcome { dir with pin := pin } f = env.outcome dir f := rfl

/-- **The pin a completed fetch writes is honest** exactly when every file is as published. -/
theorem pin_honest_iff (env : PullEnv) (rev : Rev) {files : List RemoteFile}
    (hfiles : files = listRemoteFiles sha256 gitBlob hub rev)
    (hdone : (fetchAll env dir files).2 = true) :
    (Effect.pin rev).Honest hub spec (applyAll dir (fetchAll env dir files).1)
      ↔ (∀ f ∈ files, f.path ∈ spec.opens → env.outcome dir f = hub.content rev f.path)
        ∧ ∀ path ∈ spec.opens, (∀ f ∈ files, f.path ≠ path) → dir.files path = none := by
  subst hfiles
  obtain ⟨-, hother, hall, hout⟩ := fetchAll_spec env dir (listRemoteFiles_nodup hub rev)
  have hsome := hall.mp hdone
  have hplace := hout hdone
  constructor
  · intro h
    constructor
    · intro f hf hopen
      obtain ⟨bytes, hbytes⟩ := Option.isSome_iff_exists.mp (hsome f hf)
      have hat := h f.path hopen bytes (by rw [hplace f hf, hbytes])
      rw [hbytes, hat]
    · intro path hopen hnone
      cases hlocal : dir.files path with
      | none => rfl
      | some bytes =>
        have hat := h path hopen bytes (by rw [hother path hnone, hlocal])
        rw [content_of_unlisted hopen hnone] at hat
        cases hat
  · intro h path hopen bytes hbytes
    by_cases hlisted : ∃ f ∈ listRemoteFiles sha256 gitBlob hub rev, f.path = path
    · obtain ⟨f, hf, rfl⟩ := hlisted
      rw [hplace f hf] at hbytes
      rw [← h.1 f hf hopen, hbytes]
    · have hnone : ∀ f ∈ listRemoteFiles sha256 gitBlob hub rev, f.path ≠ path :=
        fun f hf heq => hlisted ⟨f, hf, heq⟩
      rw [hother path hnone, h.2 path hopen hnone] at hbytes
      cases hbytes

/-- **A pull keeps the pin honest, wherever it is stopped, exactly when it is clean.** -/
theorem pull_clean_iff (env : PullEnv) (hv : Vouched hub spec dir) :
    (∀ n, Vouched hub spec (applyAll dir ((pull sha256 gitBlob hub env dir).take n)))
      ↔ Clean sha256 gitBlob hub spec env dir := by
  rw [honestAll_iff hv]
  by_cases hlists : ∃ rev files, env.lists sha256 gitBlob hub rev files
  · obtain ⟨rev, files, hrev, hlisting, hfiles, hany⟩ := hlists
    have honly : ∀ rev' files', env.lists sha256 gitBlob hub rev' files' → rev' = rev ∧ files' = files := by
      intro rev' files' hlists'
      obtain ⟨hrev', -, hfiles', -⟩ := hlists'
      rw [hrev] at hrev'
      cases hrev'
      exact ⟨rfl, by rw [hfiles', hfiles]⟩
    have hnodup : (files.map RemoteFile.path).Nodup := by
      rw [hfiles]
      exact listRemoteFiles_nodup hub rev
    have hsplit : ∀ es, HonestAll hub spec dir (clearPin env dir rev ++ es)
        ↔ HonestAll hub spec { dir with pin := leftPin env dir rev } es := by
      intro es
      rw [honestAll_append, applyAll_clearPin]
      exact and_iff_right (honestAll_of_removes (clearPin_removes env dir rev))
    have hfetch : HonestAll hub spec { dir with pin := leftPin env dir rev } _ ↔ _ :=
      fetchAll_honest env { dir with pin := leftPin env dir rev } hnodup
    have hdone := (fetchAll_spec env { dir with pin := leftPin env dir rev } hnodup).2.2.1
    have hpin (h : (fetchAll env { dir with pin := leftPin env dir rev } files).2 = true) :
        (Effect.pin rev).Honest hub spec (applyAll { dir with pin := leftPin env dir rev } _) ↔ _ :=
      pin_honest_iff env rev hfiles h
    have hpull : pull sha256 gitBlob hub env dir =
        if (fetchAll env { dir with pin := leftPin env dir rev } files).2 && env.pins then
          clearPin env dir rev ++ (fetchAll env { dir with pin := leftPin env dir rev } files).1
            ++ [.pin rev] ++ verify sha256 gitBlob hub env.verify
              (applyAll { dir with pin := leftPin env dir rev }
                ((fetchAll env { dir with pin := leftPin env dir rev } files).1 ++ [.pin rev]))
        else clearPin env dir rev
          ++ (fetchAll env { dir with pin := leftPin env dir rev } files).1 := by
      rw [pull, hrev]
      dsimp only
      rw [if_neg (by rw [hlisting]; simp), ← hfiles, if_neg (by rw [hany]; simp),
        applyAll_clearPin]
    rw [hpull]
    by_cases hreach : ((fetchAll env { dir with pin := leftPin env dir rev } files).2 && env.pins) = true
    · rw [if_pos hreach, List.append_assoc, List.append_assoc, hsplit, honestAll_append, hfetch]
      rw [Bool.and_eq_true] at hreach
      have hrest : HonestAll hub spec (applyAll { dir with pin := leftPin env dir rev }
          (fetchAll env { dir with pin := leftPin env dir rev } files).1)
          ([.pin rev] ++ verify sha256 gitBlob hub env.verify
            (applyAll { dir with pin := leftPin env dir rev }
              ((fetchAll env { dir with pin := leftPin env dir rev } files).1 ++ [.pin rev])))
          ↔ (Effect.pin rev).Honest hub spec (applyAll { dir with pin := leftPin env dir rev }
            (fetchAll env { dir with pin := leftPin env dir rev } files).1) :=
        and_iff_left (honestAll_of_removes (verify_removes env.verify))
      rw [hrest, hpin hreach.1]
      constructor
      · intro h
        constructor
        · intro rev' files' hlists'
          obtain ⟨rfl, rfl⟩ := honly rev' files' hlists'
          exact h.1
        · intro rev' files' hlists' _ _
          obtain ⟨rfl, rfl⟩ := honly rev' files' hlists'
          exact h.2
      · intro h
        exact ⟨h.underPin rev files ⟨hrev, hlisting, hfiles, hany⟩,
          h.atPin rev files ⟨hrev, hlisting, hfiles, hany⟩ (hdone.mp hreach.1) hreach.2⟩
    · rw [if_neg hreach, hsplit, hfetch]
      constructor
      · intro h
        constructor
        · intro rev' files' hlists'
          obtain ⟨rfl, rfl⟩ := honly rev' files' hlists'
          exact h
        · intro rev' files' hlists' hall hpins
          obtain ⟨rfl, rfl⟩ := honly rev' files' hlists'
          exact absurd (Bool.and_eq_true_iff.mpr ⟨hdone.mpr hall, hpins⟩) hreach
      · exact fun h => h.underPin rev files ⟨hrev, hlisting, hfiles, hany⟩
  · have hnone : pull sha256 gitBlob hub env dir = [] := by
      rw [pull]
      split
      · rfl
      · next rev hrev =>
        by_cases hlisting : env.listing = false
        · rw [if_pos hlisting]
        rw [if_neg hlisting]
        by_cases hany : (listRemoteFiles sha256 gitBlob hub rev).any
            (fun f => ".parquet".toList.isSuffixOf f.path) = false
        · exact if_pos hany
        · exact absurd ⟨rev, _, hrev, by simpa using hlisting, rfl, by simpa using hany⟩ hlists
    rw [hnone]
    refine iff_of_true trivial ⟨?_, ?_⟩
    · exact fun rev files h => absurd ⟨rev, files, h⟩ hlists
    · exact fun rev files h => absurd ⟨rev, files, h⟩ hlists

end

/-! ### Every run -/

/-- Every pull of the run is clean where it starts. -/
def CleanRun (sha256 gitBlob : Bytes → List Char) (hub : Hub) (spec : Spec) :
    Dir → List (Command × ℕ) → Prop
  | _, [] => True
  | dir, (command, n) :: rest =>
    (∀ env, command = .pull env → Clean sha256 gitBlob hub spec env dir)
      ∧ CleanRun sha256 gitBlob hub spec
        (applyAll dir ((command.effects sha256 gitBlob hub dir).take n)) rest

theorem command_vouched {sha256 gitBlob : Bytes → List Char} {hub : Hub} {spec : Spec} {dir : Dir}
    (hv : Vouched hub spec dir) {command : Command}
    (hclean : ∀ env, command = .pull env → Clean sha256 gitBlob hub spec env dir) (n : ℕ) :
    Vouched hub spec (applyAll dir ((command.effects sha256 gitBlob hub dir).take n)) := by
  cases command with
  | pull env => exact (pull_clean_iff env hv).mpr (hclean env rfl) n
  | verify env => exact (honestAll_iff hv _).mpr (honestAll_of_removes (verify_removes env)) n
  | rm order => exact (honestAll_iff hv _).mpr (honestAll_of_removes (rm_removes order)) n

section
variable (path : String) (published : Bytes)

/-- One revision, which publishes one file. -/
def oneFile : Hub where
  files rev := if rev = List.replicate 40 'a' then [⟨path.toList, published, true⟩] else []
  nodup rev := by split <;> simp

/-- Nothing fails, and what is downloaded is what is published. -/
def allWell : PullEnv where
  revision := some (List.replicate 40 'a')
  listing := true
  unpins := true
  download := fun p => if p = path.toList then some published else none
  renames := fun _ => true
  pins := true
  verify := ⟨.ok, List.replicate 40 'a', true, fun _ => true, [path.toList], fun _ => true, true⟩

end

/-- The `debs` dataset. -/
def debs : Spec :=
  ⟨"debs".toList, ["data/debs.parquet".toList, "maps/sha1.parquet".toList,
    "maps/md5.parquet".toList], by decide, by decide⟩

/-- The digest of the byte 2. -/
def sha256OfTwo : List Char :=
  "dbc1b4c900ffe48d575b5da5c638040125f65db0fe3e24494b76ea986457d986".toList

end IndexCmd

end Hashdex
