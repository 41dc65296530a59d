import Mathlib
import Hashdex.Lib.SortedMap
import Hashdex.Recipe.Json
import Hashdex.Scan

/-!
# Columns of a Parquet file

A file is a list of row groups, each with one chunk of cells for every column.  The crate that decodes
the chunks is a parameter: a reader stands before the cells that are left, skips some of them, or gives
as many as it likes of those that are asked for, as definition levels and values apart.

* `Documented`: what the code relies on
* `readTake_spec`: records read in batches of any size are the next cells
* `readOneColumn_span`, `readOneColumn_atAll`: a run of records, and records at ascending positions
* `plainCrate_documented`: there is such a crate
-/

namespace Hashdex.Parquet

/-- Byte strings compare byte by byte. -/
scoped instance byteOrder : LinearOrder UInt8 where
  le_refl := UInt8.le_refl
  le_trans := fun _ _ _ => UInt8.le_trans
  le_antisymm := fun _ _ => UInt8.le_antisymm
  le_total := UInt8.le_total
  lt_iff_le_not_ge := fun a b => by
    rw [UInt8.not_le]
    exact ⟨fun h => ⟨UInt8.le_of_lt h, h⟩, And.right⟩
  toDecidableLE := inferInstance

/-! ### The file -/

inductive Physical where
  | byteArray
  | int32
  | int64
  | other (name : String)
  deriving DecidableEq

structure ColumnDesc where
  path : String
  maxDefLevel : ℕ
  physicalType : Physical

inductive Datum where
  | bytes (b : Bytes)
  | int32 (n : ℤ)
  | int64 (n : ℤ)
  deriving DecidableEq

def Datum.physicalType : Datum → Physical
  | bytes _ => .byteArray
  | int32 _ => .int32
  | int64 _ => .int64

/-- `ByteArray::data`. -/
def Datum.data : Datum → Bytes
  | bytes b => b
  | _ => []

/-- A value, or the level down to which a nullable column is defined. -/
inductive Cell where
  | value (v : Datum)
  | null (level : ℕ)
  deriving DecidableEq

def Cell.datum : Cell → Option Datum
  | value v => some v
  | null _ => none

def Cell.defLevel (maxDef : ℕ) : Cell → ℕ
  | value _ => maxDef
  | null level => level

def Cell.Fits (desc : ColumnDesc) : Cell → Prop
  | value v => v.physicalType = desc.physicalType
  | null level => level < desc.maxDefLevel

abbrev Bounds := Option Bytes × Option Bytes

structure Chunk where
  cells : List Cell
  byteLen : ℕ
  /-- The smallest and the greatest value, where the footer has them as byte arrays. -/
  statistics : Option Bounds

structure RowGroup where
  numRows : ℕ
  columns : List Chunk

/-- A file with its footer.  The offset index has the first row of every page, the column index the
bounds of every page, where they are byte arrays. -/
structure File where
  schema : List ColumnDesc
  rowGroups : List RowGroup
  offsetIndex : Option (List (List (List ℕ)))
  columnIndex : Option (List (List (Option (List Bounds))))
  columns_length : ∀ rg ∈ rowGroups, rg.columns.length = schema.length
  cells_length : ∀ rg ∈ rowGroups, ∀ chunk ∈ rg.columns, chunk.cells.length = rg.numRows
  cells_fit : ∀ rg ∈ rowGroups, ∀ (col : ℕ) (desc : ColumnDesc) (chunk : Chunk),
    schema[col]? = some desc → rg.columns[col]? = some chunk → ∀ cell ∈ chunk.cells, cell.Fits desc

inductive Failure where
  | error (text : String)
  | panic
  | endless
  deriving DecidableEq

def columnIndex (file : File) (name : String) : Except Failure ℕ :=
  match file.schema.findIdx? fun c => c.path = name with
  | some i => .ok i
  | none => .error (.error ("column " ++ name ++ " not in parquet schema"))

def pageLocations (file : File) (rgi col : ℕ) : Option (List ℕ) :=
  file.offsetIndex.bind fun groups => groups[rgi]?.bind fun columns => columns[col]?

/-! ### The crate -/

/-- What `read_records` gives. -/
structure Batch where
  records : ℕ
  defs : List ℕ
  vals : List Datum

structure Crate (ρ : Type) where
  typedReader : ℕ → ℕ → Physical → Option (List ℕ) → Except Failure ρ
  skipRecords : ρ → ℕ → Except Failure (ℕ × ρ)
  readRecords : ρ → ℕ → Except Failure (Batch × ρ)
  /-- A whole chunk is brought near, for the reads that follow. -/
  getBytes : ℕ → ℕ → Except Failure Unit

/-- What a reader stands before. -/
structure View where
  maxDef : ℕ
  cells : List Cell

/-- The first cells, as they are given: a required column has no levels. -/
def batch (maxDef : ℕ) (cells : List Cell) : Batch :=
  ⟨cells.length, if maxDef = 0 then [] else cells.map (Cell.defLevel maxDef), cells.filterMap Cell.datum⟩

/-- The crate skips and reads records as documented. -/
structure Documented {ρ : Type} (crate : Crate ρ) (file : File) (view : ρ → View) : Prop where
  opens : ∀ (rgi col : ℕ) (rg : RowGroup) (desc : ColumnDesc) (chunk : Chunk),
    file.rowGroups[rgi]? = some rg → file.schema[col]? = some desc → rg.columns[col]? = some chunk →
    ∃ r, crate.typedReader rgi col desc.physicalType (pageLocations file rgi col) = .ok r
      ∧ view r = ⟨desc.maxDefLevel, chunk.cells⟩
  skips : ∀ r n, ∃ r', crate.skipRecords r n = .ok (min n (view r).cells.length, r')
    ∧ view r' = ⟨(view r).maxDef, (view r).cells.drop n⟩
  /-- As many records as it likes, but some if any are asked for and left. -/
  reads : ∀ r n, ∃ k r', k ≤ n ∧ (0 < n → (view r).cells ≠ [] → 0 < k) ∧ k ≤ (view r).cells.length
    ∧ crate.readRecords r n = .ok (batch (view r).maxDef ((view r).cells.take k), r')
    ∧ view r' = ⟨(view r).maxDef, (view r).cells.drop k⟩
  brings : ∀ rgi col, crate.getBytes rgi col = .ok ()

/-! ### Reading records -/

/-- A value as it is handed on. -/
inductive ColValue where
  | str (s : String)
  | i32 (n : ℤ)
  | i64 (n : ℤ)

def Datum.conv : Datum → ColValue
  | bytes b => .str (String.ofList (Scan.lossy b))
  | int32 n => .i32 n
  | int64 n => .i64 n

abbrev ColValues := List (Option ColValue)

def Cell.conv (cell : Cell) : Option ColValue := cell.datum.map Datum.conv

/-- `Vec::resize`. -/
def resize (defs : List ℕ) (records maxDef : ℕ) : List ℕ :=
  defs.take records ++ List.replicate (records - defs.length) maxDef

/-- Levels and values put together; a level without its value is out of bounds. -/
def assemble (maxDef : ℕ) : List ℕ → List Datum → Option ColValues
  | [], _ => some []
  | d :: defs, vals =>
    if d = maxDef then
      match vals with
      | [] => none
      | v :: vals => (assemble maxDef defs vals).map (some v.conv :: ·)
    else (assemble maxDef defs vals).map (none :: ·)

inductive Rows where
  | span (first take : ℕ)
  /-- `Rows::At`. -/
  | atAll (positions : List ℕ)

/-- What to skip and to take for each position; nothing for one that is repeated. -/
def runsFrom (prev : Option ℕ) : List ℕ → List (ℕ × ℕ)
  | [] => []
  | p :: positions =>
    if prev = some p then (0, 0) :: runsFrom prev positions
    else (p - prev.elim 0 (· + 1), 1) :: runsFrom (some p) positions

def Rows.runs : Rows → List (ℕ × ℕ)
  | span first take => [(first, take)]
  | atAll positions => runsFrom none positions

section

variable {ρ : Type} (crate : Crate ρ)

/-- Batches until enough is read or nothing is left. -/
def readTake (maxDef : ℕ) : ℕ → ρ → ℕ → Except Failure (ColValues × ρ)
  | _, r, 0 => .ok ([], r)
  | 0, _, _ + 1 => .error .endless
  | fuel + 1, r, need + 1 => do
    let (b, r') ← crate.readRecords r (need + 1)
    if b.records = 0 then .ok ([], r')
    else
      match assemble maxDef ((resize b.defs b.records maxDef).take b.records) b.vals with
      | none => .error .panic
      | some got => do
        let (rest, r'') ← readTake maxDef fuel r' (need + 1 - b.records)
        .ok (got ++ rest, r'')

def skipTo (r : ρ) (skip : ℕ) : Except Failure ρ :=
  if 0 < skip then (crate.skipRecords r skip).map Prod.snd else .ok r

def readRuns (maxDef : ℕ) : List (ℕ × ℕ) → ρ → ColValues → Except Failure ColValues
  | [], _, out => .ok out
  | (skip, take) :: runs, r, out =>
    -- a repeated position re-states the last value
    if take = 0 then readRuns maxDef runs r (out ++ [out.getLast?.join])
    else do
      let r' ← skipTo crate r skip
      let (got, r'') ← readTake crate maxDef take r' take
      if got.length < take then .ok (out ++ got) else readRuns maxDef runs r'' (out ++ got)

def readRecords (file : File) (rgi col : ℕ) (rows : Rows) : Except Failure ColValues :=
  match file.schema[col]? with
  | none => .error .panic
  | some desc =>
    match desc.physicalType with
    | .other name => .error (.error ("unsupported column type " ++ name))
    | physical => do
      let r ← crate.typedReader rgi col physical (pageLocations file rgi col)
      readRuns crate desc.maxDefLevel rows.runs r []

def prefetchMax : ℕ := 4 <<< 20

/-- A small chunk is brought near as a whole where no offset index leads into it. -/
def warmUp (file : File) (rgi cidx : ℕ) : Except Failure Unit :=
  if file.offsetIndex.isNone then
    match file.rowGroups[rgi]?.bind fun rg => rg.columns[cidx]? with
    | none => .error .panic
    | some chunk => if chunk.byteLen ≤ prefetchMax then crate.getBytes rgi cidx else .ok ()
  else .ok ()

/-- One requested column of one row group. -/
def readOneColumn (file : File) (rgi : ℕ) (name : String) (rows : Rows) : Except Failure ColValues := do
  let cidx ← columnIndex file name
  warmUp crate file rgi cidx
  readRecords crate file rgi cidx rows

/-- What ends the whole read: a column that panics, or is never done. -/
def fatal : Except Failure ColValues → Option Failure
  | .ok _ => none
  | .error (.error _) => none
  | .error failure => some failure

/-- All columns are read, whatever becomes of the first. -/
def readColumns (file : File) (rgi : ℕ) (cols : List String) (rows : Rows) :
    Except Failure (List (String × Except Failure ColValues)) :=
  let results := cols.map fun name => (name, readOneColumn crate file rgi name rows)
  match results.findSome? fun x => fatal x.2 with
  | some failure => .error failure
  | none => .ok results

end

/-! ### What is read -/

section

variable {maxDef : ℕ} {cells : List Cell}

/-- No null is defined as deep as a value. -/
def Leveled (maxDef : ℕ) (cells : List Cell) : Prop := ∀ level, Cell.null level ∈ cells → level < maxDef

theorem Leveled.sublist {cells' : List Cell} (h : Leveled maxDef cells) (hsub : cells'.Sublist cells) :
    Leveled maxDef cells' := fun level hlevel => h level (hsub.subset hlevel)

theorem Cell.defLevel_eq_iff {cell : Cell} (h : ∀ level, cell = .null level → level < maxDef) :
    cell.defLevel maxDef = maxDef ↔ cell.datum.isSome := by
  cases cell with
  | value v => simp [Cell.defLevel, Cell.datum]
  | null level =>
    have hlt := h level rfl
    simp only [Cell.defLevel, Cell.datum, Option.isSome_none, Bool.false_eq_true, iff_false]
    omega

/-- The levels of a batch, a required column's filled in. -/
theorem resize_batch (h : Leveled maxDef cells) :
    (resize (batch maxDef cells).defs (batch maxDef cells).records maxDef).take
      (batch maxDef cells).records = cells.map (Cell.defLevel maxDef) := by
  have hdefs : resize (batch maxDef cells).defs cells.length maxDef = cells.map (Cell.defLevel maxDef) := by
    unfold resize batch
    dsimp only
    split_ifs with hzero
    · rw [List.take_nil, List.nil_append, List.length_nil, Nat.sub_zero]
      symm
      rw [List.eq_replicate_iff, List.length_map]
      refine ⟨rfl, fun d hd => ?_⟩
      obtain ⟨cell, hcell, rfl⟩ := List.mem_map.mp hd
      cases cell with
      | value v => rfl
      | null level =>
        have hlt := h level hcell
        omega
    · rw [List.take_of_length_le (by rw [List.length_map]), List.length_map, Nat.sub_self,
        List.replicate_zero, List.append_nil]
  show (resize (batch maxDef cells).defs cells.length maxDef).take cells.length = _
  rw [hdefs, List.take_of_length_le (by rw [List.length_map])]

theorem assemble_value (defs : List ℕ) (v : Datum) (vals : List Datum) :
    assemble maxDef (maxDef :: defs) (v :: vals)
      = (assemble maxDef defs vals).map (some v.conv :: ·) := by
  rw [assemble, if_pos rfl]

theorem assemble_null {level : ℕ} (hlevel : level < maxDef) (defs : List ℕ) (vals : List Datum) :
    assemble maxDef (level :: defs) vals = (assemble maxDef defs vals).map (none :: ·) := by
  cases vals with
  | nil => rw [assemble, if_neg (by omega)]
  | cons v vals => rw [assemble, if_neg (by omega)]

theorem assemble_batch (h : Leveled maxDef cells) :
    assemble maxDef (cells.map (Cell.defLevel maxDef)) (cells.filterMap Cell.datum)
      = some (cells.map Cell.conv) := by
  induction cells with
  | nil => rfl
  | cons cell cells ih =>
    have hrest := ih (h.sublist (List.sublist_cons_self cell cells))
    rw [List.map_cons]
    cases cell with
    | value v =>
      rw [List.filterMap_cons_some (show (Cell.value v).datum = some v from rfl), Cell.defLevel,
        assemble_value, hrest]
      rfl
    | null level =>
      rw [List.filterMap_cons_none (show (Cell.null level).datum = none from rfl), Cell.defLevel,
        assemble_null (h level List.mem_cons_self), hrest]
      rfl

end

section

variable {ρ : Type} {crate : Crate ρ} {file : File} {view : ρ → View}

/-- **Records read in batches** are the next cells, however the crate cuts them. -/
theorem readTake_spec (hcrate : Documented crate file view) {fuel need : ℕ} (hfuel : need ≤ fuel) {r : ρ}
    (hlevels : Leveled (view r).maxDef (view r).cells) (hleft : need ≤ (view r).cells.length) :
    ∃ r', readTake crate (view r).maxDef fuel r need
        = .ok (((view r).cells.take need).map Cell.conv, r')
      ∧ view r' = ⟨(view r).maxDef, (view r).cells.drop need⟩ := by
  induction fuel generalizing need r with
  | zero =>
    obtain rfl : need = 0 := by omega
    exact ⟨r, rfl, rfl⟩
  | succ fuel ih =>
    cases need with
    | zero => exact ⟨r, rfl, rfl⟩
    | succ need =>
      obtain ⟨k, r', hk, hsome, hin, hread, hview⟩ := hcrate.reads r (need + 1)
      have hnonempty : (view r).cells ≠ [] := by
        intro hnil
        rw [hnil, List.length_nil] at hleft
        omega
      have hpos := hsome (by omega) hnonempty
      have hfirst := hlevels.sublist (List.take_sublist k _)
      have hlevels' : Leveled (view r').maxDef (view r').cells := by
        rw [hview]
        exact hlevels.sublist (List.drop_sublist k _)
      have hleft' : need + 1 - k ≤ (view r').cells.length := by
        rw [hview, List.length_drop]
        omega
      obtain ⟨r'', hrest, hview'⟩ := ih (show need + 1 - k ≤ fuel by omega) hlevels' hleft'
      have hrecords : (batch (view r).maxDef ((view r).cells.take k)).records = k := by
        show ((view r).cells.take k).length = k
        rw [List.length_take]
        omega
      have hmaxDef : (view r').maxDef = (view r).maxDef := by rw [hview]
      have hcells : (view r').cells = (view r).cells.drop k := by rw [hview]
      rw [hmaxDef] at hrest
      refine ⟨r'', ?_, ?_⟩
      · rw [readTake, hread]
        show (if (batch (view r).maxDef ((view r).cells.take k)).records = 0 then _ else _) = _
        rw [if_neg (by omega), resize_batch hfirst]
        show (match assemble _ _ ((view r).cells.take k |>.filterMap Cell.datum) with
          | none => _
          | some got => _) = _
        rw [assemble_batch hfirst, hrecords]
        dsimp only
        rw [hrest, hcells]
        show Except.ok (_ ++ _, r'') = _
        rw [← List.map_append, ← List.take_add, Nat.add_sub_cancel' hk]
      · rw [hview', hmaxDef, hcells, List.drop_drop]
        congr 2
        omega

/-- The value of a cell, if there is one. -/
def valueAt (cells : List Cell) (i : ℕ) : Option ColValue := cells[i]?.bind Cell.conv

theorem valueAt_of_lt {cells : List Cell} {i : ℕ} (h : i < cells.length) :
    [valueAt cells i] = ((cells.drop i).take 1).map Cell.conv := by
  rw [List.drop_eq_getElem_cons h, List.take_succ_cons, List.take_zero]
  unfold valueAt
  rw [List.getElem?_eq_getElem h]
  rfl

theorem skipTo_spec (hcrate : Documented crate file view) (r : ρ) (skip : ℕ) :
    ∃ r', skipTo crate r skip = .ok r' ∧ view r' = ⟨(view r).maxDef, (view r).cells.drop skip⟩ := by
  unfold skipTo
  split_ifs with hpos
  · obtain ⟨r', hskip, hview⟩ := hcrate.skips r skip
    rw [hskip]
    exact ⟨r', rfl, hview⟩
  · obtain rfl : skip = 0 := by omega
    exact ⟨r, rfl, rfl⟩

/-- One run of records, and what follows it. -/
theorem readRuns_cons (hcrate : Documented crate file view) {r : ρ}
    (hlevels : Leveled (view r).maxDef (view r).cells) (skip : ℕ) {take : ℕ} (htake : 0 < take)
    (hleft : skip + take ≤ (view r).cells.length) (runs : List (ℕ × ℕ)) (out : ColValues) :
    ∃ r', readRuns crate (view r).maxDef ((skip, take) :: runs) r out
        = readRuns crate (view r).maxDef runs r'
          (out ++ (((view r).cells.drop skip).take take).map Cell.conv)
      ∧ view r' = ⟨(view r).maxDef, (view r).cells.drop (skip + take)⟩ := by
  obtain ⟨r₁, hskip, hview₁⟩ := skipTo_spec hcrate r skip
  have hmaxDef : (view r₁).maxDef = (view r).maxDef := by rw [hview₁]
  have hcells : (view r₁).cells = (view r).cells.drop skip := by rw [hview₁]
  have hlength : take ≤ (view r₁).cells.length := by
    rw [hcells, List.length_drop]
    omega
  obtain ⟨r₂, hread, hview₂⟩ := readTake_spec hcrate (le_refl take)
    (show Leveled (view r₁).maxDef (view r₁).cells by
      rw [hmaxDef, hcells]
      exact hlevels.sublist (List.drop_sublist skip _)) hlength
  rw [hmaxDef, hcells] at hread
  refine ⟨r₂, ?_, ?_⟩
  · rw [readRuns, if_neg (by omega), hskip]
    show (do
      let (got, r'') ← readTake crate (view r).maxDef take r₁ take
      if got.length < take then .ok (out ++ got)
        else readRuns crate (view r).maxDef runs r'' (out ++ got)) = _
    rw [hread]
    show (if ((((view r).cells.drop skip).take take).map Cell.conv).length < take then _ else _) = _
    rw [if_neg]
    rw [List.length_map, List.length_take, ← hcells]
    omega
  · rw [hview₂, hmaxDef, hcells, List.drop_drop]

/-- Ascending positions, after the last one that was read. -/
theorem readRuns_atAll (hcrate : Documented crate file view) {maxDef : ℕ} {cells : List Cell}
    (hlevels : Leveled maxDef cells) (positions : List ℕ) (prev : Option ℕ) (r : ρ) (out : ColValues)
    (hascending : positions.Pairwise (· ≤ ·)) (hin : ∀ p ∈ positions, p < cells.length)
    (hprev : ∀ q, prev = some q → out.getLast? = some (valueAt cells q) ∧ ∀ p ∈ positions, q ≤ p)
    (hview : view r = ⟨maxDef, cells.drop (prev.elim 0 (· + 1))⟩) :
    readRuns crate maxDef (runsFrom prev positions) r out
      = .ok (out ++ positions.map (valueAt cells)) := by
  induction positions generalizing prev r out with
  | nil =>
    rw [List.map_nil, List.append_nil]
    rfl
  | cons p positions ih =>
    obtain ⟨hfirst, hrest⟩ := List.pairwise_cons.mp hascending
    have hin' : ∀ q ∈ positions, q < cells.length := fun q hq => hin q (List.mem_cons_of_mem p hq)
    have hout : out ++ (p :: positions).map (valueAt cells)
        = (out ++ [valueAt cells p]) ++ positions.map (valueAt cells) := by simp
    rw [runsFrom]
    by_cases hrepeat : prev = some p
    · obtain ⟨hlast, -⟩ := hprev p hrepeat
      rw [if_pos hrepeat, readRuns, if_pos rfl, hlast, hout]
      refine ih prev r _ hrest hin' (fun q hq => ?_) hview
      rw [hrepeat] at hq
      cases hq
      exact ⟨List.getLast?_concat, hfirst⟩
    · have hbefore : prev.elim 0 (· + 1) ≤ p := by
        cases prev with
        | none => exact Nat.zero_le p
        | some q =>
          have hle := (hprev q rfl).2 p List.mem_cons_self
          have hne : q ≠ p := fun h => hrepeat (by rw [h])
          show q + 1 ≤ p
          omega
      have hp := hin p List.mem_cons_self
      have hmaxDef : (view r).maxDef = maxDef := by rw [hview]
      have hcells : (view r).cells = cells.drop (prev.elim 0 (· + 1)) := by rw [hview]
      obtain ⟨r', hread, hview'⟩ := readRuns_cons hcrate
        (show Leveled (view r).maxDef (view r).cells by
          rw [hmaxDef, hcells]
          exact hlevels.sublist (List.drop_sublist _ _))
        (p - prev.elim 0 (· + 1)) Nat.one_pos (by rw [hcells, List.length_drop]; omega)
        (runsFrom (some p) positions) out
      rw [hmaxDef, hcells, List.drop_drop, Nat.add_sub_cancel' hbefore, ← valueAt_of_lt hp] at hread
      rw [if_neg hrepeat, hread, hout]
      refine ih (some p) r' _ hrest hin' (fun q hq => ?_) ?_
      · cases hq
        exact ⟨List.getLast?_concat, hfirst⟩
      · rw [hview', hmaxDef, hcells, List.drop_drop]
        congr 2
        show prev.elim 0 (· + 1) + (p - prev.elim 0 (· + 1) + 1) = p + 1
        omega

theorem map_valueAt_range' {cells : List Cell} {first take : ℕ} (h : first + take ≤ cells.length) :
    ((cells.drop first).take take).map Cell.conv = (List.range' first take).map (valueAt cells) := by
  induction take generalizing first with
  | zero => rfl
  | succ take ih =>
    have hfirst : first < cells.length := by omega
    have hrest := ih (show first + 1 + take ≤ cells.length by omega)
    have hone := valueAt_of_lt hfirst
    rw [List.drop_eq_getElem_cons hfirst, List.take_succ_cons] at hone ⊢
    rw [List.take_zero] at hone
    rw [List.map_cons, hrest, List.range'_succ, List.map_cons]
    rw [List.map_cons, List.map_nil, List.singleton_inj] at hone
    rw [hone]

end

/-! ### Columns by name -/

/-- A column of a type that can be read. -/
def Readable (file : File) (name : String) : Prop :=
  ∃ col desc, columnIndex file name = .ok col ∧ file.schema[col]? = some desc
    ∧ ∀ other, desc.physicalType ≠ .other other

/-- What a scan finds in a column at a row of a row group. -/
def columnValue (file : File) (name : String) (rgi i : ℕ) : Option ColValue :=
  match columnIndex file name with
  | .error _ => none
  | .ok col =>
    (file.rowGroups[rgi]?.bind fun rg => rg.columns[col]?).bind fun chunk => valueAt chunk.cells i

section

variable {ρ : Type} {crate : Crate ρ} {file : File} {view : ρ → View} {name : String} {rgi : ℕ}
  {rg : RowGroup}

theorem File.columns_getElem? (hrg : file.rowGroups[rgi]? = some rg) {col : ℕ} {desc : ColumnDesc}
    (hdesc : file.schema[col]? = some desc) :
    ∃ chunk, rg.columns[col]? = some chunk ∧ chunk.cells.length = rg.numRows
      ∧ Leveled desc.maxDefLevel chunk.cells := by
  have hmem := List.mem_of_getElem? hrg
  obtain ⟨hcol, -⟩ := List.getElem?_eq_some_iff.mp hdesc
  rw [← file.columns_length rg hmem] at hcol
  have hchunk := List.getElem?_eq_getElem hcol
  refine ⟨_, hchunk, file.cells_length rg hmem _ (List.getElem_mem hcol), fun level hlevel => ?_⟩
  exact file.cells_fit rg hmem col desc _ hdesc hchunk _ hlevel

/-- Reading a column by its name runs over the cells of its chunk. -/
theorem readOneColumn_eq (hcrate : Documented crate file view) (hname : Readable file name)
    (hrg : file.rowGroups[rgi]? = some rg) :
    ∃ r maxDef cells, view r = ⟨maxDef, cells⟩ ∧ cells.length = rg.numRows ∧ Leveled maxDef cells
      ∧ (∀ i, columnValue file name rgi i = valueAt cells i)
      ∧ ∀ rows, readOneColumn crate file rgi name rows = readRuns crate maxDef rows.runs r [] := by
  obtain ⟨col, desc, hcol, hdesc, hsupported⟩ := hname
  obtain ⟨chunk, hchunk, hlength, hlevels⟩ := file.columns_getElem? hrg hdesc
  obtain ⟨r, hopen, hview⟩ := hcrate.opens rgi col rg desc chunk hrg hdesc hchunk
  refine ⟨r, _, _, hview, hlength, hlevels, fun i => ?_, fun rows => ?_⟩
  · rw [columnValue, hcol, hrg]
    dsimp only [Option.bind_some]
    rw [hchunk]
    rfl
  · have hread : readRecords crate file rgi col rows
        = readRuns crate desc.maxDefLevel rows.runs r [] := by
      unfold readRecords
      rw [hdesc]
      dsimp only
      cases hphysical : desc.physicalType with
      | other name => exact absurd hphysical (hsupported name)
      | byteArray => rw [hphysical] at hopen; dsimp only; rw [hopen]; rfl
      | int32 => rw [hphysical] at hopen; dsimp only; rw [hopen]; rfl
      | int64 => rw [hphysical] at hopen; dsimp only; rw [hopen]; rfl
    have hwarm : warmUp crate file rgi col = .ok () := by
      unfold warmUp
      rw [hrg, Option.bind_some, hchunk, hcrate.brings]
      dsimp only
      split_ifs <;> rfl
    unfold readOneColumn
    rw [hcol]
    show (warmUp crate file rgi col).bind (fun _ => readRecords crate file rgi col rows) = _
    rw [hwarm]
    exact hread

theorem readOneColumn_span (hcrate : Documented crate file view) (hname : Readable file name)
    (hrg : file.rowGroups[rgi]? = some rg) {first take : ℕ} (htake : 0 < take)
    (hin : first + take ≤ rg.numRows) :
    readOneColumn crate file rgi name (.span first take)
      = .ok ((List.range' first take).map (columnValue file name rgi)) := by
  obtain ⟨r, maxDef, cells, hview, hlength, hlevels, hvalue, hread⟩ := readOneColumn_eq hcrate hname hrg
  have hmaxDef : (view r).maxDef = maxDef := by rw [hview]
  have hcells : (view r).cells = cells := by rw [hview]
  obtain ⟨r', hruns, -⟩ := readRuns_cons hcrate
    (show Leveled (view r).maxDef (view r).cells by rw [hmaxDef, hcells]; exact hlevels) first htake
    (by rw [hcells]; omega) [] []
  rw [hmaxDef, hcells, map_valueAt_range' (by omega)] at hruns
  rw [hread]
  show readRuns crate maxDef [(first, take)] r [] = _
  rw [hruns, show columnValue file name rgi = valueAt cells from funext hvalue]
  rfl

theorem readOneColumn_atAll (hcrate : Documented crate file view) (hname : Readable file name)
    (hrg : file.rowGroups[rgi]? = some rg) {positions : List ℕ}
    (hascending : positions.Pairwise (· ≤ ·)) (hin : ∀ p ∈ positions, p < rg.numRows) :
    readOneColumn crate file rgi name (.atAll positions)
      = .ok (positions.map (columnValue file name rgi)) := by
  obtain ⟨r, maxDef, cells, hview, hlength, hlevels, hvalue, hread⟩ := readOneColumn_eq hcrate hname hrg
  have hruns := readRuns_atAll hcrate hlevels positions none r [] hascending
    (fun p hp => by rw [hlength]; exact hin p hp) (fun q hq => nomatch hq) hview
  rw [hread]
  show readRuns crate maxDef (runsFrom none positions) r [] = _
  rw [hruns, show columnValue file name rgi = valueAt cells from funext hvalue]
  rfl

theorem readColumns_ok {cols : List String} {rows : Rows} {vals : String → ColValues}
    (h : ∀ name ∈ cols, readOneColumn crate file rgi name rows = .ok (vals name)) :
    readColumns crate file rgi cols rows = .ok (cols.map fun name => (name, .ok (vals name))) := by
  have hresults : (cols.map fun name => (name, readOneColumn crate file rgi name rows))
      = cols.map fun name => (name, .ok (vals name)) :=
    List.map_congr_left fun name hname => by rw [h name hname]
  have hnone : (cols.map fun name => (name, (.ok (vals name) : Except Failure ColValues))).findSome?
      (fun x => fatal x.2) = none := by
    rw [List.findSome?_eq_none_iff]
    intro x hx
    obtain ⟨name, -, rfl⟩ := List.mem_map.mp hx
    rfl
  unfold readColumns
  dsimp only
  rw [hresults, hnone]

end

/-! ### Cells as they stand -/

/-- A crate that reads the cells themselves, at most two at a time. -/
def plainCrate (file : File) : Crate View where
  typedReader rgi col physical _ :=
    match file.schema[col]?, file.rowGroups[rgi]?.bind fun rg => rg.columns[col]? with
    | some desc, some chunk =>
      if desc.physicalType = physical then .ok ⟨desc.maxDefLevel, chunk.cells⟩ else .error .panic
    | _, _ => .error .panic
  skipRecords r n := .ok (min n r.cells.length, ⟨r.maxDef, r.cells.drop n⟩)
  readRecords r n :=
    .ok (batch r.maxDef (r.cells.take (min n 2)), ⟨r.maxDef, r.cells.drop (min n 2)⟩)
  getBytes _ _ := .ok ()

theorem plainCrate_documented (file : File) : Documented (plainCrate file) file id where
  opens := by
    intro rgi col rg desc chunk hrg hdesc hchunk
    refine ⟨⟨desc.maxDefLevel, chunk.cells⟩, ?_, rfl⟩
    unfold plainCrate
    dsimp only
    rw [hdesc, hrg, Option.bind_some, hchunk]
    exact if_pos rfl
  skips := fun r n => ⟨_, rfl, rfl⟩
  reads := by
    intro r n
    refine ⟨min (min n 2) r.cells.length, ⟨r.maxDef, r.cells.drop (min n 2)⟩, ?_, fun hn hcells => ?_,
      Nat.min_le_right _ _, ?_, ?_⟩
    · omega
    · have hlength : 0 < r.cells.length := List.length_pos_iff.mpr hcells
      show 0 < min (min n 2) r.cells.length
      omega
    · show Except.ok (batch r.maxDef (r.cells.take (min n 2)), _) = _
      rw [List.take_eq_take_min]
      rfl
    · show View.mk _ (r.cells.drop (min n 2)) = View.mk _ (r.cells.drop (min (min n 2) r.cells.length))
      rw [← List.drop_eq_drop_min]
      rfl
  brings := fun _ _ => rfl

end Hashdex.Parquet
