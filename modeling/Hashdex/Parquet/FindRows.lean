import Hashdex.Lib.SortedRuns
import Hashdex.Parquet.RowsAt

/-!
# Rows by a sorted key

`find_rows` takes the row groups whose statistics admit a key, and in each scans the key column from the
first page that admits it up to the first greater key.  The other columns are read for the records that
were found, up to the cap.

* `scanKeys_run`: what the scan finds where equal keys stand together
* `route_spec`: the pages that are left out hold no such key
* `find_rows_eq_scan`: the total and the rows are those of a scan of the whole file
-/

namespace Hashdex.Parquet

/-! ### The code -/

def groupAdmits (col : ℕ) (key : Bytes) (rg : RowGroup) : Bool :=
  match rg.columns[col]?.bind Chunk.statistics with
  | some (some lo, some hi) => lo ≤ key ∧ key ≤ hi
  | _ => false

/-- The row groups whose least and greatest key admit `key`. -/
def candidateRowGroups (file : File) (col : ℕ) (key : Bytes) : List ℕ :=
  (file.rowGroups.zipIdx.filter fun x => groupAdmits col key x.1).map Prod.snd

/-- The column index of one chunk, if it is of byte arrays. -/
def pageBounds (file : File) (rgi col : ℕ) : Option (List Bounds) :=
  file.columnIndex.bind fun groups => groups[rgi]?.bind fun columns => columns[col]?.join

def admits (ix : List Bounds) (key : Bytes) (page : ℕ) : Bool :=
  match ix[page]? with
  | some (some lo, some hi) => lo ≤ key ∧ key ≤ hi
  | _ => false

/-- Where a scan is at, and what it has found. -/
structure KeyScan where
  record : ℕ
  first : Option ℕ
  count : ℕ

def KeyScan.hit (s : KeyScan) : KeyScan := ⟨s.record + 1, s.first.or (some s.record), s.count + 1⟩

def KeyScan.miss (s : KeyScan) : KeyScan := ⟨s.record + 1, s.first, s.count⟩

/-- One batch, and whether a greater key ends the scan; a level without its value is out of bounds. -/
def scanBatch (maxDef : ℕ) (key : Bytes) : List ℕ → List Datum → KeyScan → Option (KeyScan × Bool)
  | [], _, s => some (s, false)
  | d :: defs, vals, s =>
    if d = maxDef then
      match vals with
      | [] => none
      | v :: vals =>
        if v.data = key then scanBatch maxDef key defs vals s.hit
        else if key < v.data then some (s, true)
        else scanBatch maxDef key defs vals s.miss
    else scanBatch maxDef key defs vals s.miss

section

variable {ρ : Type} (crate : Crate ρ)

/-- Where to start: at the first page that admits the key, or nowhere; without an index of both kinds at
the first record, the whole chunk brought near. -/
def route (file : File) (rgi col : ℕ) (key : Bytes) : Except Failure (Option ℕ) :=
  match pageLocations file rgi col, pageBounds file rgi col with
  | some locs, some ix =>
    match (List.range locs.length).find? (admits ix key) with
    | none => .ok none
    | some page =>
      match locs[page]? with
      | some first => .ok (some first)
      | none => .error .panic
  | _, _ => (crate.getBytes rgi col).map fun _ => some 0

def scanLoop (maxDef : ℕ) (key : Bytes) : ℕ → ρ → KeyScan → Except Failure KeyScan
  | 0, _, _ => .error .endless
  | fuel + 1, r, s => do
    let (b, r') ← crate.readRecords r 256
    if b.records = 0 then .ok s
    else
      match scanBatch maxDef key ((resize b.defs b.records maxDef).take b.records) b.vals s with
      | none => .error .panic
      | some (s', true) => .ok s'
      | some (s', false) => scanLoop maxDef key fuel r' s'

def scanFrom (file : File) (rgi col : ℕ) (rg : RowGroup) (maxDef : ℕ) (key : Bytes) (skip : ℕ) :
    Except Failure (Option (ℕ × ℕ)) := do
  let r ← crate.typedReader rgi col .byteArray (pageLocations file rgi col)
  let r' ← skipTo crate r skip
  let s ← scanLoop crate maxDef key (rg.numRows + 1) r' ⟨skip, none, 0⟩
  .ok (s.first.map fun first => (first, s.count))

/-- The first record with the key, and how many have it. -/
def scanKeyColumn (file : File) (rgi col : ℕ) (key : Bytes) : Except Failure (Option (ℕ × ℕ)) :=
  match file.rowGroups[rgi]?, file.schema[col]? with
  | some rg, some desc => do
    match ← route crate file rgi col key with
    | none => .ok none
    | some skip => scanFrom crate file rgi col rg desc.maxDefLevel key skip
  | _, _ => .error .panic

/-- One column's values, into the objects in their order. -/
def fill (objs : List Fields) (x : String × Except Failure ColValues) : Except Failure (List Fields) := do
  let vals ← x.2
  if vals.length < objs.length then .error .panic
  else .ok (List.zipWith (fun obj v => SortedMap.insert x.1 (jsonOf v) obj) objs vals)

/-- The rows that were found, with the key they were found by. -/
def readFound (file : File) (rgi : ℕ) (keyCol : String) (cols : List String) (key : String)
    (first take : ℕ) : Except Failure (List Json) := do
  let results ← readColumns crate file rgi cols (.span first take)
  let objs ← results.foldlM fill (List.replicate take [])
  .ok (objs.map fun obj => Json.obj (SortedMap.insert keyCol (.str key) obj))

/-- The rows of a row group that are found and fit under the cap, and how many are found. -/
def findGroup (file : File) (kidx : ℕ) (keyCol : String) (cols : List String) (key : String) (cap : ℕ)
    (acc : List Json × ℕ) (rgi : ℕ) : Except Failure (List Json × ℕ) := do
  match ← scanKeyColumn crate file rgi kidx key.toUTF8.toList with
  | none => .ok acc
  | some (first, count) =>
    let take := min count (cap - acc.1.length)
    if take = 0 then .ok (acc.1, acc.2 + count)
    else do
      let rows ← readFound crate file rgi keyCol cols key first take
      .ok (acc.1 ++ rows, acc.2 + count)

def findRows (file : File) (keyCol : String) (cols : List String) (key : String) (cap : ℕ) :
    Except Failure (List Json × ℕ) := do
  let kidx ← columnIndex file keyCol
  (candidateRowGroups file kidx key.toUTF8.toList).foldlM
    (findGroup crate file kidx keyCol cols key cap) ([], 0)

end

/-! ### The keys -/

def Cell.key (cell : Cell) : Option Bytes := cell.datum.map Datum.data

/-- The key of a row; `none` where it has none. -/
def keyAt (file : File) (col : ℕ) (row : ℕ × ℕ) : Option Bytes :=
  ((file.rowGroups[row.1]?.bind fun rg => rg.columns[col]?).bind fun chunk => chunk.cells[row.2]?).bind
    Cell.key

/-- The order of the keys, with those that are null before or after all others. -/
def KeyLe (nullsFirst : Bool) : Option Bytes → Option Bytes → Prop
  | none, none => True
  | none, some _ => nullsFirst = true
  | some _, none => nullsFirst = false
  | some a, some b => a ≤ b

instance (nullsFirst : Bool) (a b : Option Bytes) : Decidable (KeyLe nullsFirst a b) :=
  match a, b with
  | none, none => inferInstanceAs (Decidable True)
  | none, some _ => inferInstanceAs (Decidable (nullsFirst = true))
  | some _, none => inferInstanceAs (Decidable (nullsFirst = false))
  | some a, some b => inferInstanceAs (Decidable (a ≤ b))

/-- The key column is sorted, over all row groups. -/
def KeySorted (file : File) (col : ℕ) : Prop :=
  ∃ nullsFirst, (file.rows.map (keyAt file col)).Pairwise (KeyLe nullsFirst)

/-- Every row group has statistics, and they bound its keys. -/
def GroupsBounded (file : File) (col : ℕ) : Prop :=
  ∀ rgi rg chunk, file.rowGroups[rgi]? = some rg → rg.columns[col]? = some chunk →
    ∃ lo hi, chunk.statistics = some (some lo, some hi)
      ∧ ∀ i k, keyAt file col (rgi, i) = some k → lo ≤ k ∧ k ≤ hi

/-- A record from the first of a page on, and before the first of the next. -/
def OnPage (locs : List ℕ) (page i : ℕ) : Prop :=
  (∃ first, locs[page]? = some first ∧ first ≤ i) ∧ ∀ next, locs[page + 1]? = some next → i < next

/-- Where there is a page index, its pages stand in order and their bounds bound their keys. -/
def PagesBounded (file : File) (col : ℕ) : Prop :=
  ∀ rgi locs ix, pageLocations file rgi col = some locs → pageBounds file rgi col = some ix →
    locs.Pairwise (· ≤ ·) ∧ ∀ i k, keyAt file col (rgi, i) = some k →
      ∃ page lo hi, OnPage locs page i ∧ ix[page]? = some (some lo, some hi) ∧ lo ≤ k ∧ k ≤ hi

/-- The rows with the key, as a scan over the file finds them. -/
def File.matching (file : File) (col : ℕ) (key : Bytes) : List (ℕ × ℕ) :=
  file.rows.filter fun row => keyAt file col row = some key

/-! ### A scan for a key -/

/-- A row group's keys around the run of one of them. -/
structure KeyRun (ks : List (Option Bytes)) (key : Bytes) (pre post : List (Option Bytes)) (n : ℕ) :
    Prop where
  split : ks = pre ++ List.replicate n (some key) ++ post
  before : some key ∉ pre
  after : some key ∉ post
  smaller : 0 < n → ∀ v, some v ∈ pre → v < key

/-- The scan over the keys themselves. -/
def scanKeys (key : Bytes) : List (Option Bytes) → KeyScan → KeyScan × Bool
  | [], s => (s, false)
  | none :: ks, s => scanKeys key ks s.miss
  | some v :: ks, s =>
    if v = key then scanKeys key ks s.hit
    else if key < v then (s, true)
    else scanKeys key ks s.miss

section

variable {key : Bytes} {maxDef : ℕ} {cells : List Cell}

theorem scanBatch_value (v : Datum) (defs : List ℕ) (vals : List Datum) (s : KeyScan) :
    scanBatch maxDef key (maxDef :: defs) (v :: vals) s
      = if v.data = key then scanBatch maxDef key defs vals s.hit
        else if key < v.data then some (s, true)
        else scanBatch maxDef key defs vals s.miss := by
  rw [scanBatch, if_pos rfl]

theorem scanBatch_null {level : ℕ} (hlevel : level < maxDef) (defs : List ℕ) (vals : List Datum)
    (s : KeyScan) :
    scanBatch maxDef key (level :: defs) vals s = scanBatch maxDef key defs vals s.miss := by
  cases vals with
  | nil => rw [scanBatch, if_neg (by omega)]
  | cons v vals => rw [scanBatch, if_neg (by omega)]

theorem scanBatch_eq (h : Leveled maxDef cells) (s : KeyScan) :
    scanBatch maxDef key (cells.map (Cell.defLevel maxDef)) (cells.filterMap Cell.datum) s
      = some (scanKeys key (cells.map Cell.key) s) := by
  induction cells generalizing s with
  | nil => rfl
  | cons cell cells ih =>
    have hrest := fun s => ih (h.sublist (List.sublist_cons_self cell cells)) s
    rw [List.map_cons, List.map_cons]
    cases cell with
    | value v =>
      rw [List.filterMap_cons_some (show (Cell.value v).datum = some v from rfl), Cell.defLevel,
        scanBatch_value, hrest, hrest]
      show _ = some (if v.data = key then _ else if key < v.data then _ else _)
      split_ifs <;> rfl
    | null level =>
      rw [List.filterMap_cons_none (show (Cell.null level).datum = none from rfl), Cell.defLevel,
        scanBatch_null (h level List.mem_cons_self), hrest]
      rfl

theorem scanKeys_append (ks ks' : List (Option Bytes)) (s : KeyScan) :
    scanKeys key (ks ++ ks') s
      = if (scanKeys key ks s).2 then scanKeys key ks s else scanKeys key ks' (scanKeys key ks s).1 := by
  induction ks generalizing s with
  | nil => rfl
  | cons k ks ih =>
    cases k with
    | none => exact ih s.miss
    | some v =>
      rw [List.cons_append, scanKeys, scanKeys]
      by_cases hkey : v = key
      · rw [if_pos hkey, if_pos hkey]
        exact ih s.hit
      · rw [if_neg hkey, if_neg hkey]
        by_cases hgreater : key < v
        · rw [if_pos hgreater, if_pos hgreater, if_pos rfl]
        · rw [if_neg hgreater, if_neg hgreater]
          exact ih s.miss

/-- Where the key is not, nothing is found. -/
theorem scanKeys_absent {ks : List (Option Bytes)} (h : some key ∉ ks) (s : KeyScan) :
    (scanKeys key ks s).1.first = s.first ∧ (scanKeys key ks s).1.count = s.count := by
  induction ks generalizing s with
  | nil => exact ⟨rfl, rfl⟩
  | cons k ks ih =>
    have hrest : some key ∉ ks := fun hmem => h (List.mem_cons_of_mem k hmem)
    cases k with
    | none => exact ih hrest s.miss
    | some v =>
      have hne : v ≠ key := fun heq => h (by rw [heq]; exact List.mem_cons_self)
      rw [scanKeys, if_neg hne]
      split_ifs
      · exact ⟨rfl, rfl⟩
      · exact ih hrest s.miss

/-- Past smaller keys the scan goes on. -/
theorem scanKeys_smaller {ks : List (Option Bytes)} (h : ∀ v, some v ∈ ks → v < key) (s : KeyScan) :
    scanKeys key ks s = (⟨s.record + ks.length, s.first, s.count⟩, false) := by
  induction ks generalizing s with
  | nil => rfl
  | cons k ks ih =>
    have hrest := ih (fun v hv => h v (List.mem_cons_of_mem k hv)) s.miss
    have hmiss : scanKeys key (k :: ks) s = scanKeys key ks s.miss := by
      cases k with
      | none => rfl
      | some v =>
        have hlt := h v List.mem_cons_self
        rw [scanKeys, if_neg (ne_of_lt hlt), if_neg (not_lt_of_gt hlt)]
    rw [hmiss, hrest, List.length_cons, KeyScan.miss]
    simp only [Prod.mk.injEq, and_true, KeyScan.mk.injEq]
    omega

theorem scanKeys_equal (n : ℕ) (s : KeyScan) :
    scanKeys key (List.replicate n (some key)) s
      = (⟨s.record + n, if n = 0 then s.first else s.first.or (some s.record), s.count + n⟩, false) := by
  induction n generalizing s with
  | zero => rfl
  | succ n ih =>
    rw [List.replicate_succ, scanKeys, if_pos rfl, ih, KeyScan.hit]
    simp only [Prod.mk.injEq, and_true, KeyScan.mk.injEq, if_neg (Nat.succ_ne_zero n)]
    refine ⟨by omega, ?_, by omega⟩
    cases s.first <;> simp

section

variable {ks pre post : List (Option Bytes)} {n : ℕ}

/-- **Where equal keys stand together**, the scan finds the first of them and how many there are. -/
theorem scanKeys_run (h : KeyRun ks key pre post n) (record : ℕ) :
    (scanKeys key ks ⟨record, none, 0⟩).1.first = (if n = 0 then none else some (record + pre.length))
      ∧ (scanKeys key ks ⟨record, none, 0⟩).1.count = n := by
  by_cases hn : n = 0
  · have habsent : some key ∉ ks := by
      rw [h.split, hn, List.replicate_zero, List.append_nil]
      exact fun hmem => (List.mem_append.mp hmem).elim h.before h.after
    obtain ⟨hfirst, hcount⟩ := scanKeys_absent habsent ⟨record, none, 0⟩
    rw [hfirst, hcount, if_pos hn]
    exact ⟨rfl, hn.symm⟩
  · obtain ⟨hfirst, hcount⟩ := scanKeys_absent h.after
      ⟨record + pre.length + n, some (record + pre.length), 0 + n⟩
    have hscan : scanKeys key ks ⟨record, none, 0⟩
        = scanKeys key post ⟨record + pre.length + n, some (record + pre.length), 0 + n⟩ := by
      rw [h.split, List.append_assoc, scanKeys_append,
        scanKeys_smaller (h.smaller (Nat.pos_of_ne_zero hn)), if_neg Bool.false_ne_true, scanKeys_append,
        scanKeys_equal, if_neg Bool.false_ne_true, if_neg hn]
      rfl
    rw [hscan, hfirst, hcount, if_neg hn, Nat.zero_add]
    exact ⟨rfl, rfl⟩

/-- Skipping no key of the run. -/
theorem KeyRun.drop (h : KeyRun ks key pre post n) {skip : ℕ} (hskip : 0 < n → skip ≤ pre.length) :
    ∃ pre' post', KeyRun (ks.drop skip) key pre' post' n
      ∧ (0 < n → skip + pre'.length = pre.length) := by
  by_cases hn : n = 0
  · have habsent : some key ∉ ks.drop skip := by
      rw [h.split, hn, List.replicate_zero, List.append_nil]
      exact fun hmem => (List.mem_append.mp (List.mem_of_mem_drop hmem)).elim h.before h.after
    refine ⟨ks.drop skip, [], ⟨?_, habsent, List.not_mem_nil, fun hpos => ?_⟩, fun hpos => ?_⟩
    · rw [hn, List.replicate_zero, List.append_nil, List.append_nil]
    · omega
    · omega
  · have hpos := Nat.pos_of_ne_zero hn
    have hle := hskip hpos
    refine ⟨pre.drop skip, post, ⟨?_, fun hmem => h.before (List.mem_of_mem_drop hmem), h.after,
      fun _ v hv => h.smaller hpos v (List.mem_of_mem_drop hv)⟩, fun _ => ?_⟩
    · rw [h.split, List.append_assoc, List.append_assoc, List.drop_append_of_le_length hle]
    · rw [List.length_drop]
      omega

end

end

section

variable {ρ : Type} {crate : Crate ρ} {file : File} {view : ρ → View} {key : Bytes}

/-- **The loop over batches** scans the keys that are left, however the crate cuts them. -/
theorem scanLoop_spec (hcrate : Documented crate file view) {fuel : ℕ} {r : ρ}
    (hlevels : Leveled (view r).maxDef (view r).cells) (hfuel : (view r).cells.length < fuel)
    (s : KeyScan) :
    scanLoop crate (view r).maxDef key fuel r s
      = .ok (scanKeys key ((view r).cells.map Cell.key) s).1 := by
  induction fuel generalizing r s with
  | zero => exact absurd hfuel (Nat.not_lt_zero _)
  | succ fuel ih =>
    obtain ⟨k, r', hk, hsome, hin, hread, hview⟩ := hcrate.reads r 256
    have hmaxDef : (view r').maxDef = (view r).maxDef := by rw [hview]
    have hcells : (view r').cells = (view r).cells.drop k := by rw [hview]
    have hfirst := hlevels.sublist (List.take_sublist k _)
    have hrecords : (batch (view r).maxDef ((view r).cells.take k)).records = k := by
      show ((view r).cells.take k).length = k
      rw [List.length_take]
      omega
    rw [scanLoop, hread]
    show (if (batch (view r).maxDef ((view r).cells.take k)).records = 0 then _ else _) = _
    by_cases hzero : k = 0
    · have hempty : (view r).cells = [] := by
        by_contra hne
        exact absurd (hsome (by omega) hne) (by omega)
      rw [if_pos (by omega), hempty]
      rfl
    · rw [if_neg (by omega), resize_batch hfirst]
      show (match scanBatch _ _ _ ((view r).cells.take k |>.filterMap Cell.datum) s with
        | none => _
        | some (s', true) => _
        | some (s', false) => _) = _
      have happend := @scanKeys_append key (((view r).cells.take k).map Cell.key)
        (((view r).cells.drop k).map Cell.key) s
      rw [← List.map_append, List.take_append_drop] at happend
      rw [scanBatch_eq hfirst, happend]
      obtain ⟨s', stopped⟩ := scanKeys key (((view r).cells.take k).map Cell.key) s
      cases stopped with
      | true => rfl
      | false =>
        have hrest := ih (r := r') (by rw [hmaxDef, hcells]; exact hlevels.sublist (List.drop_sublist k _))
          (by rw [hcells, List.length_drop]; omega) s'
        rw [hmaxDef, hcells] at hrest
        exact hrest

end

/-! ### One row group -/

section

variable {file : File} {col rgi : ℕ} {rg : RowGroup} {chunk : Chunk}

theorem keyAt_eq (hrg : file.rowGroups[rgi]? = some rg) (hchunk : rg.columns[col]? = some chunk) (i : ℕ) :
    keyAt file col (rgi, i) = (chunk.cells.map Cell.key)[i]?.join := by
  unfold keyAt
  rw [hrg, Option.bind_some, hchunk, Option.bind_some, List.getElem?_map]
  cases chunk.cells[i]? <;> rfl

theorem keyAt_eq_some_iff (hrg : file.rowGroups[rgi]? = some rg)
    (hchunk : rg.columns[col]? = some chunk) (i : ℕ) (key : Bytes) :
    keyAt file col (rgi, i) = some key ↔ (chunk.cells.map Cell.key)[i]? = some (some key) := by
  rw [keyAt_eq hrg hchunk]
  cases (chunk.cells.map Cell.key)[i]? with
  | none => simp
  | some k => simp

theorem KeyLe.antisymm {nullsFirst : Bool} (a b : Option Bytes) (hab : KeyLe nullsFirst a b)
    (hba : KeyLe nullsFirst b a) : a = b := by
  cases a with
  | none =>
    cases b with
    | none => rfl
    | some b => exact absurd ((show nullsFirst = false from hba).symm.trans hab) Bool.false_ne_true
  | some a =>
    cases b with
    | none => exact absurd ((show nullsFirst = false from hab).symm.trans hba) Bool.false_ne_true
    | some b => rw [le_antisymm (show a ≤ b from hab) hba]

/-- The keys of a row group are sorted as those of the file are. -/
theorem KeySorted.group (h : KeySorted file col) (hrg : file.rowGroups[rgi]? = some rg)
    (hchunk : rg.columns[col]? = some chunk) :
    ∃ nullsFirst, (chunk.cells.map Cell.key).Pairwise (KeyLe nullsFirst) := by
  obtain ⟨nullsFirst, hsorted⟩ := h
  refine ⟨nullsFirst, hsorted.sublist ?_⟩
  have hlength := file.cells_length rg (List.mem_of_getElem? hrg) chunk (List.mem_of_getElem? hchunk)
  have hkeys : chunk.cells.map Cell.key
      = ((List.range rg.numRows).map (rgi, ·)).map (keyAt file col) := by
    apply List.ext_getElem?
    intro i
    rw [List.getElem?_map, List.getElem?_map, List.getElem?_map]
    by_cases hi : i < rg.numRows
    · rw [List.getElem?_range hi, Option.map_some, Option.map_some, keyAt_eq hrg hchunk,
        List.getElem?_map, List.getElem?_eq_getElem (by omega)]
      rfl
    · rw [List.getElem?_eq_none (by omega), List.getElem?_eq_none (by rw [List.length_range]; omega)]
      rfl
  rw [hkeys]
  apply List.Sublist.map
  unfold File.rows
  rw [List.flatMap_def]
  apply List.sublist_flatten_of_mem
  exact List.mem_map.mpr ⟨(rg, rgi), List.mem_zipIdx_iff_getElem?.mpr hrg, rfl⟩

theorem KeySorted.run (h : KeySorted file col) (hrg : file.rowGroups[rgi]? = some rg)
    (hchunk : rg.columns[col]? = some chunk) (key : Bytes) :
    ∃ pre post n, KeyRun (chunk.cells.map Cell.key) key pre post n := by
  obtain ⟨nullsFirst, hsorted⟩ := h.group hrg hchunk
  obtain ⟨pre, n, post, hsplit, hpre, hpost⟩ := SortedRuns.exists_run KeyLe.antisymm hsorted (some key)
  refine ⟨pre, post, n, hsplit, hpre, hpost, fun hn v hv => ?_⟩
  rw [hsplit, List.append_assoc] at hsorted
  have hle : KeyLe nullsFirst (some v) (some key) := (List.pairwise_append.mp hsorted).2.2 _ hv _
    (List.mem_append_left _ (List.mem_replicate.mpr ⟨hn.ne', rfl⟩))
  exact lt_of_le_of_ne hle fun heq => hpre (by rw [← heq]; exact hv)

theorem KeyRun.getElem?_first {ks pre post : List (Option Bytes)} {key : Bytes} {n : ℕ}
    (h : KeyRun ks key pre post n) (hn : 0 < n) : ks[pre.length]? = some (some key) := by
  rw [h.split, List.append_assoc, List.getElem?_append_right le_rfl, Nat.sub_self,
    List.getElem?_append_left (by rw [List.length_replicate]; exact hn), List.getElem?_replicate, if_pos hn]

/-- The rows of the group with the key. -/
theorem KeyRun.matching {pre post : List (Option Bytes)} {key : Bytes} {n : ℕ}
    (h : KeyRun (chunk.cells.map Cell.key) key pre post n) (hrg : file.rowGroups[rgi]? = some rg)
    (hchunk : rg.columns[col]? = some chunk) :
    ((List.range rg.numRows).map (rgi, ·)).filter (fun row => keyAt file col row = some key)
      = (List.range' pre.length n).map (rgi, ·) := by
  have hlength : (chunk.cells.map Cell.key).length = rg.numRows := by
    rw [List.length_map]
    exact file.cells_length rg (List.mem_of_getElem? hrg) chunk (List.mem_of_getElem? hchunk)
  have hkeys : ∀ i, decide (keyAt file col (rgi, i) = some key)
      = decide ((chunk.cells.map Cell.key)[i]? = some (some key)) :=
    fun i => decide_eq_decide.mpr (keyAt_eq_some_iff hrg hchunk i key)
  have hrun := @SortedRuns.filter_range_run _ _ pre post n (some key) h.before h.after
  rw [← h.split, hlength] at hrun
  rw [List.filter_map, ← hrun]
  congr 1
  exact List.filter_congr fun i _ => hkeys i

end

/-! ### Pages -/

section

variable {ρ : Type} {crate : Crate ρ} {file : File} {view : ρ → View} {col rgi : ℕ} {key : Bytes}

/-- **Pages that are left out** hold no such key: it is nowhere, or not before the start. -/
theorem route_spec (hcrate : Documented crate file view) (hpages : PagesBounded file col) :
    (route crate file rgi col key = .ok none ∧ ∀ i, keyAt file col (rgi, i) ≠ some key)
      ∨ ∃ skip, route crate file rgi col key = .ok (some skip)
        ∧ ∀ i, keyAt file col (rgi, i) = some key → skip ≤ i := by
  unfold route
  cases hlocs : pageLocations file rgi col with
  | none =>
    right
    refine ⟨0, ?_, fun i _ => Nat.zero_le i⟩
    dsimp only
    rw [hcrate.brings]
    rfl
  | some locs =>
    cases hix : pageBounds file rgi col with
    | none =>
      right
      refine ⟨0, ?_, fun i _ => Nat.zero_le i⟩
      dsimp only
      rw [hcrate.brings]
      rfl
    | some ix =>
      obtain ⟨hascending, hbounds⟩ := hpages rgi locs ix hlocs hix
      have hadmits : ∀ i, keyAt file col (rgi, i) = some key →
          ∃ page first, locs[page]? = some first ∧ first ≤ i ∧ admits ix key page = true := by
        intro i hi
        obtain ⟨page, lo, hi', ⟨⟨first, hfirst, hle⟩, -⟩, hpage, hlow, hhigh⟩ := hbounds i key hi
        refine ⟨page, first, hfirst, hle, ?_⟩
        unfold admits
        rw [hpage]
        exact decide_eq_true ⟨hlow, hhigh⟩
      dsimp only
      cases hfind : (List.range locs.length).find? (admits ix key) with
      | none =>
        left
        refine ⟨rfl, fun i hi => ?_⟩
        obtain ⟨page, first, hfirst, -, hadmitted⟩ := hadmits i hi
        obtain ⟨hlt, -⟩ := List.getElem?_eq_some_iff.mp hfirst
        have hnot := List.find?_range_eq_none.mp hfind page hlt
        rw [hadmitted] at hnot
        cases hnot
      | some page =>
        obtain ⟨-, hmem, hearlier⟩ := List.find?_range_eq_some.mp hfind
        have hlt := List.mem_range.mp hmem
        right
        refine ⟨locs[page], ?_, fun i hi => ?_⟩
        · dsimp only
          rw [List.getElem?_eq_getElem hlt]
        · obtain ⟨page', first, hfirst, hle, hadmitted⟩ := hadmits i hi
          have hnot : ¬page' < page := by
            intro h
            have hno := hearlier page' h
            rw [hadmitted] at hno
            cases hno
          obtain ⟨hlt', heq⟩ := List.getElem?_eq_some_iff.mp hfirst
          rw [← heq] at hle
          refine le_trans ?_ hle
          by_cases hsame : page = page'
          · simp only [hsame, le_refl]
          · exact List.pairwise_iff_getElem.mp hascending page page' hlt hlt' (by omega)

end

/-! ### All row groups -/

section

variable {ρ : Type} {crate : Crate ρ} {file : File} {view : ρ → View} {col rgi : ℕ} {rg : RowGroup}
  {desc : ColumnDesc} {chunk : Chunk} {pre post : List (Option Bytes)} {n : ℕ}

/-- **The key column of a row group**: the first record of the run, and how long it is. -/
theorem scanKeyColumn_spec (hcrate : Documented crate file view) (hpages : PagesBounded file col)
    (hdesc : file.schema[col]? = some desc) (htype : desc.physicalType = .byteArray)
    (hrg : file.rowGroups[rgi]? = some rg) (hchunk : rg.columns[col]? = some chunk) {key : Bytes}
    (hrun : KeyRun (chunk.cells.map Cell.key) key pre post n) :
    scanKeyColumn crate file rgi col key = .ok (if n = 0 then none else some (pre.length, n)) := by
  have hfirst : 0 < n → keyAt file col (rgi, pre.length) = some key := fun hn =>
    (keyAt_eq_some_iff hrg hchunk _ _).mpr (hrun.getElem?_first hn)
  unfold scanKeyColumn
  rw [hrg, hdesc]
  dsimp only
  obtain ⟨hroute, hnone⟩ | ⟨skip, hroute, hskip⟩ := @route_spec _ crate file view col rgi key hcrate hpages
  · have hzero : n = 0 := by
      by_contra hn
      exact hnone _ (hfirst (Nat.pos_of_ne_zero hn))
    rw [hroute, if_pos hzero]
    rfl
  · rw [hroute]
    show scanFrom crate file rgi col rg desc.maxDefLevel key skip = _
    obtain ⟨r, hopen, hview⟩ := hcrate.opens rgi col rg desc chunk hrg hdesc hchunk
    obtain ⟨r', hskipTo, hview'⟩ := skipTo_spec hcrate r skip
    rw [hview] at hview'
    have hmaxDef : (view r').maxDef = desc.maxDefLevel := by rw [hview']
    have hcells : (view r').cells = chunk.cells.drop skip := by rw [hview']
    obtain ⟨chunk', hchunk', hlength, hlevels⟩ := file.columns_getElem? hrg hdesc
    obtain rfl : chunk' = chunk := Option.some.inj (hchunk'.symm.trans hchunk)
    have hloop := @scanLoop_spec _ _ _ _ key hcrate _ _
      (show Leveled (view r').maxDef (view r').cells by
        rw [hmaxDef, hcells]
        exact hlevels.sublist (List.drop_sublist skip _))
      (show (view r').cells.length < rg.numRows + 1 by
        rw [hcells, List.length_drop]
        omega) ⟨skip, none, 0⟩
    rw [hmaxDef, hcells, List.map_drop] at hloop
    obtain ⟨pre', post', hrest, hstart⟩ := hrun.drop fun hn => hskip _ (hfirst hn)
    obtain ⟨hfound, hcount⟩ := scanKeys_run hrest skip
    unfold scanFrom
    rw [← htype, hopen]
    show (skipTo crate r skip).bind _ = _
    rw [hskipTo]
    show (scanLoop crate desc.maxDefLevel key (rg.numRows + 1) r' ⟨skip, none, 0⟩).bind _ = _
    rw [hloop]
    show Except.ok (Option.map _ _) = _
    rw [hfound, hcount]
    by_cases hn : n = 0
    · rw [if_pos hn, if_pos hn]
      rfl
    · rw [if_neg hn, if_neg hn, hstart (Nat.pos_of_ne_zero hn)]
      rfl

theorem fill_map {name : String} {is : List ℕ} (f : ℕ → Fields) (g : ℕ → Option ColValue) :
    fill (is.map f) (name, .ok (is.map g))
      = .ok (is.map fun i => SortedMap.insert name (jsonOf (g i)) (f i)) := by
  show (if (is.map g).length < (is.map f).length then _ else _) = _
  rw [if_neg (by rw [List.length_map, List.length_map]; omega), List.zipWith_map, List.zipWith_self]

theorem fill_cols (cols : List String) (is : List ℕ) (f : ℕ → Fields) :
    (cols.map fun name => (name, Except.ok (is.map (columnValue file name rgi)))).foldlM fill (is.map f)
      = .ok (is.map fun i => cols.foldl
        (fun obj name => SortedMap.insert name (jsonOf (columnValue file name rgi i)) obj) (f i)) := by
  induction cols generalizing f with
  | nil => rfl
  | cons name cols ih =>
    rw [List.map_cons, List.foldlM_cons, fill_map]
    exact ih _

/-- The object of a row with the key. -/
def foundRow (file : File) (keyCol : String) (cols : List String) (key : String) (row : ℕ × ℕ) : Json :=
  Json.obj (SortedMap.insert keyCol (.str key) (rowFields file cols row))

/-- What is returned for the rows that are found: the first of them, and how many there are. -/
def answer (file : File) (keyCol : String) (cols : List String) (key : String) (cap : ℕ)
    (rows : List (ℕ × ℕ)) : List Json × ℕ :=
  ((rows.take cap).map (foundRow file keyCol cols key), rows.length)

variable {keyCol : String} {cols : List String} {key : String} {cap : ℕ}

theorem answer_nil : answer file keyCol cols key cap [] = ([], 0) := by
  unfold answer
  rw [List.take_nil]
  rfl

theorem answer_append (rows ms : List (ℕ × ℕ)) :
    answer file keyCol cols key cap (rows ++ ms)
      = ((answer file keyCol cols key cap rows).1
          ++ (ms.take (cap - rows.length)).map (foundRow file keyCol cols key),
        (answer file keyCol cols key cap rows).2 + ms.length) := by
  unfold answer
  rw [List.take_append, List.map_append, List.length_append]

theorem take_range' (first n k : ℕ) : (List.range' first n).take k = List.range' first (min n k) := by
  cases Nat.le_total n k with
  | inl h => rw [List.take_range'_of_length_le h, Nat.min_eq_left h]
  | inr h => rw [List.take_range'_of_length_ge h, Nat.min_eq_right h]

theorem readFound_spec (hcrate : Documented crate file view) (hcols : ∀ name ∈ cols, Readable file name)
    (hrg : file.rowGroups[rgi]? = some rg) {first take : ℕ} (htake : 0 < take)
    (hin : first + take ≤ rg.numRows) :
    readFound crate file rgi keyCol cols key first take
      = .ok ((List.range' first take).map fun i => foundRow file keyCol cols key (rgi, i)) := by
  have hread := readColumns_ok fun name hname =>
    readOneColumn_span hcrate (hcols name hname) hrg htake hin
  have hempty : List.replicate take ([] : Fields) = (List.range' first take).map fun _ => [] := by
    rw [List.map_const', List.length_range']
  unfold readFound
  rw [hread]
  show ((cols.map _).foldlM fill (List.replicate take [])).bind _ = _
  rw [hempty, fill_cols]
  show Except.ok _ = _
  rw [List.map_map]
  rfl

/-- One row group, after the rows that were found before. -/
theorem findGroup_spec (hcrate : Documented crate file view) (hpages : PagesBounded file col)
    (hdesc : file.schema[col]? = some desc) (htype : desc.physicalType = .byteArray)
    (hcols : ∀ name ∈ cols, Readable file name) (hrg : file.rowGroups[rgi]? = some rg)
    (hchunk : rg.columns[col]? = some chunk)
    (hrun : KeyRun (chunk.cells.map Cell.key) key.toUTF8.toList pre post n) (rows : List (ℕ × ℕ)) :
    findGroup crate file col keyCol cols key cap (answer file keyCol cols key cap rows) rgi
      = .ok (answer file keyCol cols key cap (rows ++ (List.range' pre.length n).map (rgi, ·))) := by
  have hscan := scanKeyColumn_spec hcrate hpages hdesc htype hrg hchunk hrun
  have hlength : pre.length + n ≤ rg.numRows := by
    have hcells := file.cells_length rg (List.mem_of_getElem? hrg) chunk (List.mem_of_getElem? hchunk)
    rw [← List.length_map Cell.key, hrun.split] at hcells
    simp only [List.length_append, List.length_replicate] at hcells
    omega
  unfold findGroup
  rw [hscan]
  by_cases hn : n = 0
  · rw [if_pos hn, hn, List.range'_zero, List.map_nil, List.append_nil]
    rfl
  · have hcap : cap - (answer file keyCol cols key cap rows).1.length = cap - rows.length := by
      show cap - ((rows.take cap).map _).length = _
      rw [List.length_map, List.length_take]
      omega
    have htaken : (((List.range' pre.length n).map (rgi, ·)).take (cap - rows.length)).map
          (foundRow file keyCol cols key)
        = (List.range' pre.length (min n (cap - rows.length))).map
          fun i => foundRow file keyCol cols key (rgi, i) := by
      rw [← List.map_take, List.map_map, take_range']
      rfl
    rw [if_neg hn, answer_append, htaken, List.length_map, List.length_range']
    show (if min n (cap - (answer file keyCol cols key cap rows).1.length) = 0 then _ else _) = _
    rw [hcap]
    by_cases htake : min n (cap - rows.length) = 0
    · rw [if_pos htake, htake, List.range'_zero, List.map_nil, List.append_nil]
    · rw [if_neg htake, readFound_spec hcrate hcols hrg (Nat.pos_of_ne_zero htake) (by omega)]
      rfl

/-- A row group that is passed over has no such key. -/
theorem groupAdmits_of_run (hbounded : GroupsBounded file col) (hrg : file.rowGroups[rgi]? = some rg)
    (hchunk : rg.columns[col]? = some chunk) {key : Bytes}
    (hrun : KeyRun (chunk.cells.map Cell.key) key pre post n) (hn : 0 < n) :
    groupAdmits col key rg = true := by
  obtain ⟨lo, hi, hstatistics, hbounds⟩ := hbounded rgi rg chunk hrg hchunk
  have hkey := hbounds pre.length key ((keyAt_eq_some_iff hrg hchunk _ _).mpr (hrun.getElem?_first hn))
  unfold groupAdmits
  rw [hchunk, Option.bind_some, hstatistics]
  exact decide_eq_true hkey

theorem findGroups_spec (hcrate : Documented crate file view) (hpages : PagesBounded file col)
    (hbounded : GroupsBounded file col) (hsorted : KeySorted file col)
    (hdesc : file.schema[col]? = some desc) (htype : desc.physicalType = .byteArray)
    (hcols : ∀ name ∈ cols, Readable file name) {groups : List (RowGroup × ℕ)}
    (hgroups : ∀ x ∈ groups, file.rowGroups[x.2]? = some x.1) (rows : List (ℕ × ℕ)) :
    ((groups.filter fun x => groupAdmits col key.toUTF8.toList x.1).map Prod.snd).foldlM
        (findGroup crate file col keyCol cols key cap) (answer file keyCol cols key cap rows)
      = .ok (answer file keyCol cols key cap (rows
        ++ (groups.flatMap fun x => (List.range x.1.numRows).map (x.2, ·)).filter
          fun row => keyAt file col row = some key.toUTF8.toList)) := by
  induction groups generalizing rows with
  | nil =>
    show Except.ok _ = Except.ok (answer file keyCol cols key cap (rows ++ []))
    rw [List.append_nil]
  | cons x groups ih =>
    obtain ⟨rg, rgi⟩ := x
    have hrg := hgroups _ List.mem_cons_self
    have hrest := fun rows => ih (fun x hx => hgroups x (List.mem_cons_of_mem _ hx)) rows
    obtain ⟨chunk, hchunk, -⟩ := file.columns_getElem? hrg hdesc
    obtain ⟨pre, post, n, hrun⟩ := hsorted.run hrg hchunk key.toUTF8.toList
    rw [List.flatMap_cons, List.filter_append, hrun.matching hrg hchunk, ← List.append_assoc,
      List.filter_cons]
    by_cases hadmits : groupAdmits col key.toUTF8.toList rg = true
    · rw [if_pos hadmits, List.map_cons, List.foldlM_cons,
        findGroup_spec hcrate hpages hdesc htype hcols hrg hchunk hrun]
      exact hrest _
    · have hzero : n = 0 := by
        by_contra hn
        exact hadmits (groupAdmits_of_run hbounded hrg hchunk hrun (Nat.pos_of_ne_zero hn))
      rw [if_neg hadmits, hzero, List.range'_zero, List.map_nil, List.append_nil]
      exact hrest rows

/-- **A lookup by key is a scan of the file.**  Where the key column is sorted over the whole file,
however it is cut into row groups and pages, the total is how many rows have the key, and the rows are the
first of them up to the cap. -/
theorem find_rows_eq_scan (hcrate : Documented crate file view) (hcol : columnIndex file keyCol = .ok col)
    (hdesc : file.schema[col]? = some desc) (htype : desc.physicalType = .byteArray)
    (hsorted : KeySorted file col) (hbounded : GroupsBounded file col) (hpages : PagesBounded file col)
    (hcols : ∀ name ∈ cols, Readable file name) (key : String) (cap : ℕ) :
    findRows crate file keyCol cols key cap
      = .ok (((file.matching col key.toUTF8.toList).take cap).map (foundRow file keyCol cols key),
        (file.matching col key.toUTF8.toList).length) := by
  have hgroups := @findGroups_spec _ _ _ _ _ _ keyCol _ key cap hcrate hpages hbounded hsorted hdesc htype
    hcols file.rowGroups.zipIdx (fun x hx => List.mem_zipIdx_iff_getElem?.mp hx) []
  rw [answer_nil] at hgroups
  unfold findRows
  rw [hcol]
  exact hgroups

end

theorem parcels_sorted : KeySorted parcels 0 := by
  refine ⟨true, ?_⟩
  show List.Pairwise (KeyLe true) [some [97], some [98], some [98], some [98], some [99]]
  decide

theorem parcels_groupsBounded : GroupsBounded parcels 0 := by
  intro rgi rg chunk hrg hchunk
  match rgi with
  | 0 =>
    cases hrg
    cases hchunk
    refine ⟨[97], [98], rfl, fun i k hk => ?_⟩
    match i with
    | 0 => cases hk; decide
    | 1 => cases hk; decide
    | _ + 2 => cases hk
  | 1 =>
    cases hrg
    cases hchunk
    refine ⟨[98], [99], rfl, fun i k hk => ?_⟩
    match i with
    | 0 => cases hk; decide
    | 1 => cases hk; decide
    | 2 => cases hk; decide
    | _ + 3 => cases hk
  | _ + 2 => cases hrg

theorem parcels_pagesBounded : PagesBounded parcels 0 := by
  intro rgi locs ix hlocs hix
  match rgi with
  | 0 =>
    cases hlocs
    cases hix
    refine ⟨by decide, fun i k hk => ?_⟩
    match i with
    | 0 => cases hk; exact ⟨0, [97], [97], ⟨⟨0, rfl, by decide⟩, by decide⟩, rfl, by decide⟩
    | 1 => cases hk; exact ⟨1, [98], [98], ⟨⟨1, rfl, by decide⟩, fun next h => nomatch h⟩, rfl, by decide⟩
    | _ + 2 => cases hk
  | 1 =>
    cases hlocs
    cases hix
    refine ⟨by decide, fun i k hk => ?_⟩
    match i with
    | 0 => cases hk; exact ⟨0, [98], [98], ⟨⟨0, rfl, by decide⟩, by decide⟩, rfl, by decide⟩
    | 1 => cases hk; exact ⟨0, [98], [98], ⟨⟨0, rfl, by decide⟩, by decide⟩, rfl, by decide⟩
    | 2 => cases hk; exact ⟨1, [99], [99], ⟨⟨2, rfl, by decide⟩, fun next h => nomatch h⟩, rfl, by decide⟩
    | _ + 3 => cases hk
  | _ + 2 => cases hlocs

theorem find_rows_eq_scan_parcels :
    findRows (plainCrate parcels) parcels "digest" ["size"] "b" 2
      = .ok (((parcels.matching 0 "b".toUTF8.toList).take 2).map
          (foundRow parcels "digest" ["size"] "b"),
        (parcels.matching 0 "b".toUTF8.toList).length) :=
  find_rows_eq_scan (plainCrate_documented parcels) (by decide) rfl rfl parcels_sorted
    parcels_groupsBounded parcels_pagesBounded
    (fun name hname => by
      rw [List.mem_singleton.mp hname]
      exact ⟨1, ⟨"size", 1, .int64⟩, by decide, rfl, fun other h => nomatch h⟩) "b" 2

end Hashdex.Parquet
