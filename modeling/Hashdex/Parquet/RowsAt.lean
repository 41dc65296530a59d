import Mathlib
import Hashdex.Parquet.File

/-!
# Rows by their index

`rows_at` reads rows by their place in the file, given in any order and any number of times.  The indices
are grouped by row group, the positions within a group sorted, each column read in one pass over them, and
the values scattered to where they were asked for.

* `rows_locate`: the row group and the place in it of an index
* `fillGroup_spec`, `fillGroups_spec`: what one row group, and what all of them do to the object of a request
* `rows_at_positional`: each object has the values of the row that was asked for there
-/

namespace Hashdex.Parquet

/-! ### Rows as JSON objects -/

def ColValue.json : ColValue → Json
  | str s => .str s
  | i32 n => .num (if n < 0 then .negInt n else .posInt (UInt64.ofNat n.toNat))
  | i64 n => .num (if n < 0 then .negInt n else .posInt (UInt64.ofNat n.toNat))

def jsonOf (v : Option ColValue) : Json := v.elim .null ColValue.json

abbrev Fields := List (String × Json)

/-- The rows in the order of the file: row group, and place in it. -/
def File.rows (file : File) : List (ℕ × ℕ) :=
  file.rowGroups.zipIdx.flatMap fun x => (List.range x.1.numRows).map (x.2, ·)

/-- The object of a row, as a scan over the file makes it. -/
def rowFields (file : File) (cols : List String) (row : ℕ × ℕ) : Fields :=
  cols.foldl (fun obj name => SortedMap.insert name (jsonOf (columnValue file name row.1 row.2)) obj) []

theorem lookup_rowFields (file : File) (cols : List String) (row : ℕ × ℕ) {name : String}
    (h : name ∈ cols) :
    (rowFields file cols row).lookup name = some (jsonOf (columnValue file name row.1 row.2)) := by
  unfold rowFields
  rw [SortedMap.lookup_foldl_insert (fun name => jsonOf (columnValue file name row.1 row.2)), if_pos h]

/-! ### The code -/

/-- Where each row group starts, and where the last one ends. -/
def startsFrom (acc : ℕ) : List RowGroup → List ℕ × ℕ
  | [] => ([], acc)
  | rg :: rgs => (acc :: (startsFrom (acc + rg.numRows) rgs).1, (startsFrom (acc + rg.numRows) rgs).2)

/-- `partition_point` of ascending starts. -/
def partitionPoint (starts : List ℕ) (idx : ℕ) : ℕ := (starts.takeWhile (· ≤ idx)).length

/-- The row group of an index, and the place in it. -/
def locate (starts : List ℕ) (idx : ℕ) : ℕ × ℕ :=
  let rgi := partitionPoint starts idx - 1
  (rgi, idx - starts.getD rgi 0)

def grouping (file : File) (indices : List ℕ) : Except Failure (List (ℕ × List (ℕ × ℕ))) :=
  let (starts, acc) := startsFrom 0 file.rowGroups
  indices.zipIdx.foldlM (fun groups x =>
    if x.1 < acc then
      let (rgi, within) := locate starts x.1
      .ok (SortedMap.push groups rgi (within, x.2))
    else .error (.error ("row index " ++ toString x.1 ++ " past end of file"))) []

/-- By place, then by slot. -/
def wantedLe (x y : ℕ × ℕ) : Bool := x.1 < y.1 ∨ (x.1 = y.1 ∧ x.2 ≤ y.2)

/-- One column's values, each into the object it is for. -/
def scatter (name : String) (wanted : List (ℕ × ℕ)) (objs : List Fields) (vals : ColValues) :
    List Fields :=
  wanted.zipIdx.foldl
    (fun objs x => objs.modify x.1.2 (SortedMap.insert name (jsonOf vals[x.2]?.join))) objs

section

variable {ρ : Type} (crate : Crate ρ)

def fillGroup (file : File) (cols : List String) (objs : List Fields) (group : ℕ × List (ℕ × ℕ)) :
    Except Failure (List Fields) := do
  let wanted := group.2.mergeSort wantedLe
  let positions := wanted.map Prod.fst
  let results ← readColumns crate file group.1 cols (.atAll positions)
  results.foldlM (fun objs x => x.2.map (scatter x.1 wanted objs)) objs

def rowsAt (file : File) (cols : List String) (indices : List ℕ) : Except Failure (List Json) := do
  let groups ← grouping file indices
  let objs ← groups.foldlM (fillGroup crate file cols) (List.replicate indices.length [])
  .ok (objs.map .obj)

end

/-! ### Where an index lies -/

theorem startsFrom_ge {acc : ℕ} {rgs : List RowGroup} :
    ∀ s ∈ (startsFrom acc rgs).1, acc ≤ s := by
  induction rgs generalizing acc with
  | nil => exact fun s hs => absurd hs List.not_mem_nil
  | cons rg rgs ih =>
    intro s hs
    cases List.mem_cons.mp hs with
    | inl h => rw [h]
    | inr h => exact (Nat.le_add_right acc rg.numRows).trans (ih s h)

def rowsFrom (base : ℕ) (rgs : List RowGroup) : List (ℕ × ℕ) :=
  (rgs.zipIdx base).flatMap fun x => (List.range x.1.numRows).map (x.2, ·)

theorem rowsFrom_cons (base : ℕ) (rg : RowGroup) (rgs : List RowGroup) :
    rowsFrom base (rg :: rgs) = (List.range rg.numRows).map (base, ·) ++ rowsFrom (base + 1) rgs := by
  rw [rowsFrom, List.zipIdx_cons, List.flatMap_cons]
  rfl

theorem startsFrom_total (acc base : ℕ) (rgs : List RowGroup) :
    (startsFrom acc rgs).2 = acc + (rowsFrom base rgs).length := by
  induction rgs generalizing acc base with
  | nil => rfl
  | cons rg rgs ih =>
    rw [startsFrom, rowsFrom_cons, List.length_append, List.length_map, List.length_range,
      ih (acc + rg.numRows) (base + 1)]
    omega

theorem locate_spec (acc : ℕ) {base j : ℕ} {rgs : List RowGroup} (hj : j < (rowsFrom base rgs).length) :
    0 < partitionPoint (startsFrom acc rgs).1 (acc + j)
      ∧ (rowsFrom base rgs)[j]? = some (base + (locate (startsFrom acc rgs).1 (acc + j)).1,
        (locate (startsFrom acc rgs).1 (acc + j)).2) := by
  induction rgs generalizing acc base j with
  | nil => exact absurd hj (Nat.not_lt_zero j)
  | cons rg rgs ih =>
    have hfirst : (acc :: (startsFrom (acc + rg.numRows) rgs).1).takeWhile (· ≤ acc + j)
        = acc :: (startsFrom (acc + rg.numRows) rgs).1.takeWhile (· ≤ acc + j) :=
      List.takeWhile_cons_of_pos (by simp)
    rw [startsFrom]
    unfold locate partitionPoint
    rw [hfirst, rowsFrom_cons, List.length_cons]
    refine ⟨Nat.succ_pos _, ?_⟩
    by_cases hin : j < rg.numRows
    · have hnone : (startsFrom (acc + rg.numRows) rgs).1.takeWhile (· ≤ acc + j) = [] := by
        apply List.takeWhile_eq_nil_iff.mpr
        intro hpos
        have hge := startsFrom_ge _ (List.getElem_mem hpos)
        simp only [List.get_eq_getElem, decide_eq_true_eq, not_le]
        omega
      rw [hnone, List.getElem?_append_left (by simpa using hin), List.getElem?_map,
        List.getElem?_range hin]
      simp
    · have hidx : acc + j = acc + rg.numRows + (j - rg.numRows) := by omega
      have hrest : j - rg.numRows < (rowsFrom (base + 1) rgs).length := by
        rw [rowsFrom_cons, List.length_append, List.length_map, List.length_range] at hj
        omega
      obtain ⟨hpos, hrow⟩ := ih (acc + rg.numRows) hrest
      rw [← hidx] at hpos hrow
      unfold locate partitionPoint at hrow
      unfold partitionPoint at hpos
      rw [List.getElem?_append_right (by simpa using hin), List.length_map, List.length_range, hrow]
      generalize ((startsFrom (acc + rg.numRows) rgs).1.takeWhile (· ≤ acc + j)).length = p at hpos
      obtain ⟨q, rfl⟩ := Nat.exists_eq_add_one.mpr hpos
      simp only [Nat.add_sub_cancel, List.getD_cons_succ]
      congr 2
      omega

/-- **Every index in the file** lies in the row group, and at the place, that a scan finds it at. -/
theorem rows_locate (file : File) {idx : ℕ} (h : idx < file.rows.length) :
    file.rows[idx]? = some (locate (startsFrom 0 file.rowGroups).1 idx) := by
  have hspec := (locate_spec 0 (show idx < (rowsFrom 0 file.rowGroups).length from h)).2
  rw [Nat.zero_add, Nat.zero_add] at hspec
  exact hspec

theorem rows_total (file : File) : (startsFrom 0 file.rowGroups).2 = file.rows.length := by
  rw [startsFrom_total 0 0, Nat.zero_add]
  rfl

/-! ### Values to where they were asked for -/

section

variable {name : String} {g : ℕ → Option ColValue}

theorem scatter_eq (name : String) (g : ℕ → Option ColValue) (wanted : List (ℕ × ℕ))
    (objs : List Fields) :
    scatter name wanted objs ((wanted.map Prod.fst).map g)
      = wanted.foldl (fun objs x => objs.modify x.2 (SortedMap.insert name (jsonOf (g x.1)))) objs := by
  have hvals : ∀ (before : List (ℕ × ℕ)) (rest : List (ℕ × ℕ)) (objs : List Fields),
      (rest.zipIdx before.length).foldl (fun objs x => objs.modify x.1.2 (SortedMap.insert name
          (jsonOf ((((before ++ rest).map Prod.fst).map g)[x.2]?.join)))) objs
        = rest.foldl (fun objs x => objs.modify x.2 (SortedMap.insert name (jsonOf (g x.1)))) objs := by
    intro before rest
    induction rest generalizing before with
    | nil => exact fun objs => rfl
    | cons x rest ih =>
      intro objs
      have hhead : (((before ++ x :: rest).map Prod.fst).map g)[before.length]?.join = g x.1 := by
        rw [List.getElem?_map, List.getElem?_map, List.getElem?_append_right le_rfl, Nat.sub_self]
        rfl
      have hrest := ih (before ++ [x])
      rw [List.length_append, List.length_singleton, List.append_assoc, List.singleton_append] at hrest
      rw [List.zipIdx_cons, List.foldl_cons, List.foldl_cons]
      dsimp only
      rw [hhead, hrest]
  exact hvals [] wanted objs

theorem getElem?_modify_ne {objs : List Fields} {f : Fields → Fields} {i j : ℕ} (h : i ≠ j) :
    (objs.modify i f)[j]? = objs[j]? := by
  rw [List.getElem?_modify]
  simp [h]

theorem scatter_not_mem {wanted : List (ℕ × ℕ)} {slot : ℕ} (h : ∀ w, (w, slot) ∉ wanted)
    (objs : List Fields) :
    (scatter name wanted objs ((wanted.map Prod.fst).map g))[slot]? = objs[slot]? := by
  rw [scatter_eq]
  induction wanted generalizing objs with
  | nil => rfl
  | cons x wanted ih =>
    have hne : x.2 ≠ slot := fun heq => h x.1 (by rw [← heq]; exact List.mem_cons_self)
    rw [List.foldl_cons, ih fun w hw => h w (List.mem_cons_of_mem x hw), getElem?_modify_ne hne]

theorem scatter_mem {wanted : List (ℕ × ℕ)} {slot w : ℕ} (hnodup : (wanted.map Prod.snd).Nodup)
    (h : (w, slot) ∈ wanted) (objs : List Fields) :
    (scatter name wanted objs ((wanted.map Prod.fst).map g))[slot]?
      = objs[slot]?.map (SortedMap.insert name (jsonOf (g w))) := by
  rw [scatter_eq]
  induction wanted generalizing objs with
  | nil => exact absurd h List.not_mem_nil
  | cons x wanted ih =>
    rw [List.map_cons, List.nodup_cons] at hnodup
    rw [List.foldl_cons]
    cases List.mem_cons.mp h with
    | inl heq =>
      have hrest : ∀ w', (w', slot) ∉ wanted := fun w' hw' =>
        hnodup.1 (by rw [← heq]; exact List.mem_map.mpr ⟨_, hw', rfl⟩)
      have hlast := @scatter_not_mem name g _ _ hrest
        (objs.modify x.2 (SortedMap.insert name (jsonOf (g x.1))))
      rw [scatter_eq] at hlast
      rw [hlast, ← heq, List.getElem?_modify]
      simp
    | inr hin =>
      have hne : x.2 ≠ slot := fun heq => hnodup.1 (by rw [heq]; exact List.mem_map_of_mem hin)
      rw [ih hnodup.2 hin, getElem?_modify_ne hne]

end

/-! ### A row group -/

theorem wanted_sorted (wanted : List (ℕ × ℕ)) :
    ((wanted.mergeSort wantedLe).map Prod.fst).Pairwise (· ≤ ·) := by
  have hsorted : (wanted.mergeSort wantedLe).Pairwise fun x y => wantedLe x y = true := by
    apply List.pairwise_mergeSort
    · intro x y z hxy hyz
      simp only [wantedLe, decide_eq_true_eq] at hxy hyz ⊢
      omega
    · intro x y
      simp only [wantedLe, Bool.or_eq_true, decide_eq_true_eq]
      omega
  rw [List.pairwise_map]
  refine hsorted.imp fun {x y} h => ?_
  simp only [wantedLe, decide_eq_true_eq] at h
  omega

section

variable {ρ : Type} {crate : Crate ρ} {file : File} {view : ρ → View} {cols : List String}

/-- A row group's columns are read and scattered one after the other. -/
theorem fillGroup_eq (hcrate : Documented crate file view) (hcols : ∀ name ∈ cols, Readable file name)
    {rgi : ℕ} {rg : RowGroup} (hrg : file.rowGroups[rgi]? = some rg) {wanted : List (ℕ × ℕ)}
    (hin : ∀ x ∈ wanted, x.1 < rg.numRows) (objs : List Fields) :
    fillGroup crate file cols objs (rgi, wanted) = .ok (cols.foldl (fun objs name =>
      scatter name (wanted.mergeSort wantedLe) objs
        (((wanted.mergeSort wantedLe).map Prod.fst).map (columnValue file name rgi))) objs) := by
  have hpositions : ∀ p ∈ (wanted.mergeSort wantedLe).map Prod.fst, p < rg.numRows := by
    intro p hp
    obtain ⟨x, hx, rfl⟩ := List.mem_map.mp hp
    exact hin x ((List.mergeSort_perm wanted wantedLe).mem_iff.mp hx)
  have hread := readColumns_ok fun name hname =>
    readOneColumn_atAll hcrate (hcols name hname) hrg (wanted_sorted wanted) hpositions
  unfold fillGroup
  dsimp only
  rw [hread]
  show (cols.map _).foldlM _ objs = _
  rw [List.foldlM_map]
  exact List.foldlM_pure

/-- What a row group does to the object of one request: every column's value, or nothing. -/
theorem fillGroup_spec (hcrate : Documented crate file view) (hcols : ∀ name ∈ cols, Readable file name)
    {rgi : ℕ} {rg : RowGroup} (hrg : file.rowGroups[rgi]? = some rg) {wanted : List (ℕ × ℕ)}
    (hin : ∀ x ∈ wanted, x.1 < rg.numRows) (hnodup : (wanted.map Prod.snd).Nodup)
    (objs : List Fields) :
    ∃ objs', fillGroup crate file cols objs (rgi, wanted) = .ok objs'
      ∧ (∀ slot, (∀ w, (w, slot) ∉ wanted) → objs'[slot]? = objs[slot]?)
      ∧ ∀ slot w, (w, slot) ∈ wanted → objs'[slot]? = objs[slot]?.map fun obj =>
          cols.foldl (fun obj name => SortedMap.insert name (jsonOf (columnValue file name rgi w)) obj)
            obj := by
  refine ⟨_, fillGroup_eq hcrate hcols hrg hin objs, ?_⟩
  have hperm := List.mergeSort_perm wanted wantedLe
  have hsorted : ((wanted.mergeSort wantedLe).map Prod.snd).Nodup :=
    ((hperm.map Prod.snd).nodup_iff).mpr hnodup
  have hmem : ∀ x, x ∈ wanted.mergeSort wantedLe ↔ x ∈ wanted := fun x => hperm.mem_iff
  generalize wanted.mergeSort wantedLe = sorted at hsorted hmem ⊢
  clear hcols
  induction cols generalizing objs with
  | nil =>
    refine ⟨fun _ _ => rfl, fun slot w _ => ?_⟩
    exact Option.map_id'.symm
  | cons name cols ih =>
    obtain ⟨hnone, hsome⟩ :=
      ih (scatter name sorted objs ((sorted.map Prod.fst).map (columnValue file name rgi)))
    refine ⟨fun slot hslot => ?_, fun slot w hw => ?_⟩
    · rw [List.foldl_cons, hnone slot hslot, scatter_not_mem fun w hw => hslot w ((hmem _).mp hw)]
    · rw [List.foldl_cons, hsome slot w hw, scatter_mem hsorted ((hmem _).mpr hw), Option.map_map]
      rfl

/-- All row groups, each request in one of them. -/
theorem fillGroups_spec (hcrate : Documented crate file view) (hcols : ∀ name ∈ cols, Readable file name)
    {groups : List (ℕ × List (ℕ × ℕ))} (hkeys : (groups.map Prod.fst).Nodup)
    (hin : ∀ group ∈ groups, ∃ rg, file.rowGroups[group.1]? = some rg ∧ ∀ x ∈ group.2, x.1 < rg.numRows)
    (hnodup : ∀ group ∈ groups, (group.2.map Prod.snd).Nodup) (place : ℕ → ℕ × ℕ)
    (hplace : ∀ group ∈ groups, ∀ x ∈ group.2, (group.1, x.1) = place x.2) (objs : List Fields) :
    ∃ objs', groups.foldlM (fillGroup crate file cols) objs = .ok objs'
      ∧ (∀ slot, (∀ group ∈ groups, ∀ w, (w, slot) ∉ group.2) → objs'[slot]? = objs[slot]?)
      ∧ ∀ slot, (∃ group ∈ groups, ∃ w, (w, slot) ∈ group.2) →
        objs'[slot]? = objs[slot]?.map fun obj => cols.foldl (fun obj name =>
          SortedMap.insert name (jsonOf (columnValue file name (place slot).1 (place slot).2)) obj) obj := by
  induction groups generalizing objs with
  | nil => exact ⟨objs, rfl, fun _ _ => rfl, fun slot ⟨group, hgroup, _⟩ => nomatch hgroup⟩
  | cons group groups ih =>
    obtain ⟨rgi, wanted⟩ := group
    obtain ⟨rg, hrg, hrows⟩ := hin _ List.mem_cons_self
    obtain ⟨objs₁, hfill, hnone₁, hsome₁⟩ := fillGroup_spec hcrate hcols hrg hrows
      (hnodup _ List.mem_cons_self) objs
    rw [List.map_cons, List.nodup_cons] at hkeys
    obtain ⟨objs₂, hrest, hnone₂, hsome₂⟩ := ih hkeys.2
      (fun g hg => hin g (List.mem_cons_of_mem _ hg)) (fun g hg => hnodup g (List.mem_cons_of_mem _ hg))
      (fun g hg => hplace g (List.mem_cons_of_mem _ hg)) objs₁
    refine ⟨objs₂, ?_, fun slot hslot => ?_, fun slot hslot => ?_⟩
    · rw [List.foldlM_cons, hfill]
      exact hrest
    · rw [hnone₂ slot fun g hg => hslot g (List.mem_cons_of_mem _ hg),
        hnone₁ slot (hslot _ List.mem_cons_self)]
    · by_cases hfirst : ∃ w, (w, slot) ∈ wanted
      · obtain ⟨w, hw⟩ := hfirst
        have hhere := hplace _ List.mem_cons_self _ hw
        have hlater : ∀ g ∈ groups, ∀ w', (w', slot) ∉ g.2 := by
          intro g hg w' hw'
          have hthere := hplace g (List.mem_cons_of_mem _ hg) _ hw'
          rw [← hhere] at hthere
          have hkey : g.1 = rgi := congrArg Prod.fst hthere
          exact hkeys.1 (List.mem_map.mpr ⟨g, hg, hkey⟩)
        rw [hnone₂ slot hlater, hsome₁ slot w hw, ← hhere]
      · have hlater : ∃ g ∈ groups, ∃ w, (w, slot) ∈ g.2 := by
          obtain ⟨g, hg, w, hw⟩ := hslot
          cases List.mem_cons.mp hg with
          | inl heq =>
            rw [heq] at hw
            exact absurd ⟨w, hw⟩ hfirst
          | inr hin => exact ⟨g, hin, w, hw⟩
        rw [hsome₂ slot hlater, hnone₁ slot fun w hw => hfirst ⟨w, hw⟩]

end

/-! ### All requests -/

section

variable {file : File} {indices : List ℕ}

/-- Each request under the row group it is for. -/
def requests (file : File) (indices : List ℕ) : List (ℕ × ℕ × ℕ) :=
  indices.zipIdx.map fun x =>
    ((locate (startsFrom 0 file.rowGroups).1 x.1).1, (locate (startsFrom 0 file.rowGroups).1 x.1).2, x.2)

theorem mem_requests {rgi w slot : ℕ} : (rgi, w, slot) ∈ requests file indices
    ↔ ∃ idx, indices[slot]? = some idx ∧ locate (startsFrom 0 file.rowGroups).1 idx = (rgi, w) := by
  unfold requests
  rw [List.mem_map]
  constructor
  · intro ⟨x, hx, heq⟩
    obtain ⟨idx, slot'⟩ := x
    cases heq
    exact ⟨idx, List.mem_zipIdx_iff_getElem?.mp hx, rfl⟩
  · intro ⟨idx, hidx, hloc⟩
    exact ⟨(idx, slot), List.mem_zipIdx_iff_getElem?.mpr hidx, by rw [hloc]⟩

theorem grouping_ok (h : ∀ idx ∈ indices, idx < file.rows.length) :
    grouping file indices = .ok (SortedMap.grouped (requests file indices)) := by
  unfold grouping SortedMap.grouped requests
  rw [← rows_total] at h
  generalize startsFrom 0 file.rowGroups = starts at h ⊢
  dsimp only
  have hin : ∀ x ∈ indices.zipIdx, x.1 < starts.2 := fun x hx =>
    h x.1 (List.fst_mem_of_mem_zipIdx hx)
  generalize ([] : List (ℕ × List (ℕ × ℕ))) = groups
  rw [List.foldl_map]
  generalize indices.zipIdx = pairs at hin ⊢
  induction pairs generalizing groups with
  | nil => rfl
  | cons x xs ih =>
    rw [List.foldlM_cons, if_pos (hin x List.mem_cons_self), List.foldl_cons]
    exact ih _ (fun y hy => hin y (List.mem_cons_of_mem x hy))

theorem grouping_error (h : ∃ idx ∈ indices, file.rows.length ≤ idx) :
    ∃ text, grouping file indices = .error (.error text) := by
  unfold grouping
  rw [← rows_total] at h
  generalize startsFrom 0 file.rowGroups = starts at h ⊢
  dsimp only
  have hout : ∃ x ∈ indices.zipIdx, starts.2 ≤ x.1 := by
    obtain ⟨idx, hidx, hle⟩ := h
    obtain ⟨slot, hslot⟩ := List.mem_iff_getElem?.mp hidx
    exact ⟨(idx, slot), List.mem_zipIdx_iff_getElem?.mpr hslot, hle⟩
  generalize ([] : List (ℕ × List (ℕ × ℕ))) = groups
  generalize indices.zipIdx = pairs at hout ⊢
  induction pairs generalizing groups with
  | nil =>
    obtain ⟨x, hx, -⟩ := hout
    exact absurd hx List.not_mem_nil
  | cons x xs ih =>
    rw [List.foldlM_cons]
    by_cases hx : x.1 < starts.2
    · rw [if_pos hx]
      refine ih _ ?_
      obtain ⟨y, hy, hle⟩ := hout
      cases List.mem_cons.mp hy with
      | inl heq =>
        rw [heq] at hle
        omega
      | inr hin => exact ⟨y, hin, hle⟩
    · rw [if_neg hx]
      exact ⟨_, rfl⟩

/-- A row of the file is in one of its row groups. -/
theorem rowGroup_of_mem_rows {rgi i : ℕ} (h : (rgi, i) ∈ file.rows) :
    ∃ rg, file.rowGroups[rgi]? = some rg ∧ i < rg.numRows := by
  obtain ⟨x, hx, hin⟩ := List.mem_flatMap.mp h
  obtain ⟨j, hj, heq⟩ := List.mem_map.mp hin
  cases heq
  exact ⟨x.1, List.mem_zipIdx_iff_getElem?.mp hx, List.mem_range.mp hj⟩

/-- A group of requests is of one row group of the file, and asks for rows it has, each for a slot of its
own. -/
theorem grouped_requests (h : ∀ idx ∈ indices, idx < file.rows.length) {group : ℕ × List (ℕ × ℕ)}
    (hgroup : group ∈ SortedMap.grouped (requests file indices)) :
    (∃ rg, file.rowGroups[group.1]? = some rg ∧ ∀ x ∈ group.2, x.1 < rg.numRows)
      ∧ (group.2.map Prod.snd).Nodup
      ∧ ∀ x, x ∈ group.2 ↔ (group.1, x) ∈ requests file indices := by
  obtain ⟨rgi, wanted⟩ := group
  obtain ⟨hwanted, hkey⟩ := SortedMap.mem_grouped.mp hgroup
  have hmem : ∀ x, x ∈ wanted ↔ (rgi, x) ∈ requests file indices := by
    intro x
    rw [hwanted, List.mem_map]
    constructor
    · intro ⟨y, hy, heq⟩
      obtain ⟨hy, hrgi⟩ := List.mem_filter.mp hy
      rw [← heq, ← of_decide_eq_true hrgi]
      exact hy
    · intro hx
      exact ⟨(rgi, x), List.mem_filter.mpr ⟨hx, decide_eq_true rfl⟩, rfl⟩
  have hrow : ∀ x, (rgi, x) ∈ requests file indices →
      ∃ rg, file.rowGroups[rgi]? = some rg ∧ x.1 < rg.numRows := by
    intro x hx
    obtain ⟨idx, hidx, hloc⟩ := mem_requests.mp hx
    apply rowGroup_of_mem_rows
    have hat := rows_locate file (h idx (List.mem_of_getElem? hidx))
    rw [hloc] at hat
    exact List.mem_of_getElem? hat
  refine ⟨?_, ?_, hmem⟩
  · obtain ⟨x, hx, hrgi⟩ := List.mem_map.mp hkey
    obtain ⟨rgi', x⟩ := x
    cases hrgi
    obtain ⟨rg, hrg, -⟩ := hrow x hx
    refine ⟨rg, hrg, fun y hy => ?_⟩
    obtain ⟨rg', hrg', hlt⟩ := hrow y ((hmem y).mp hy)
    rw [hrg] at hrg'
    cases hrg'
    exact hlt
  · have hslots : ((requests file indices).map fun x => x.2.2) = List.range indices.length := by
      unfold requests
      rw [List.map_map]
      exact List.zipIdx_map_snd 0 indices |>.trans (List.range_eq_range' ..).symm
    have hnodup : ((requests file indices).map fun x => x.2.2).Nodup := by
      rw [hslots]
      exact List.nodup_range
    rw [hwanted, List.map_map]
    exact hnodup.sublist ((List.filter_sublist).map _)

end

section

variable {ρ : Type} {crate : Crate ρ} {file : File} {view : ρ → View} {cols : List String}

theorem rowsAt_eq (hcrate : Documented crate file view) (hcols : ∀ name ∈ cols, Readable file name)
    {indices : List ℕ} (h : ∀ idx ∈ indices, idx < file.rows.length) :
    rowsAt crate file cols indices = .ok (indices.map fun idx =>
      Json.obj (rowFields file cols (locate (startsFrom 0 file.rowGroups).1 idx))) := by
  have hgroup := fun group (hg : group ∈ SortedMap.grouped (requests file indices)) =>
    grouped_requests h hg
  have hkeys : ((SortedMap.grouped (requests file indices)).map Prod.fst).Nodup :=
    (List.pairwise_map.mpr (SortedMap.grouped_sorted _)).imp ne_of_lt
  obtain ⟨objs, hfill, hnone, hsome⟩ := fillGroups_spec hcrate hcols hkeys
    (fun group hg => (hgroup group hg).1) (fun group hg => (hgroup group hg).2.1)
    (fun slot => locate (startsFrom 0 file.rowGroups).1 (indices.getD slot 0))
    (fun group hg x hx => by
      obtain ⟨idx, hidx, hloc⟩ := mem_requests.mp (((hgroup group hg).2.2 x).mp hx)
      rw [List.getD_eq_getElem?_getD, hidx, Option.getD_some, hloc]) (List.replicate indices.length [])
  have hobjs : objs = indices.map fun idx =>
      rowFields file cols (locate (startsFrom 0 file.rowGroups).1 idx) := by
    apply List.ext_getElem?
    intro slot
    rw [List.getElem?_map]
    cases hslot : indices[slot]? with
    | none =>
      rw [hnone slot fun group hg w hw => ?_]
      · exact List.getElem?_eq_none (by rw [List.length_replicate]; exact List.getElem?_eq_none_iff.mp hslot)
      · obtain ⟨idx, hidx, -⟩ := mem_requests.mp (((hgroup group hg).2.2 _).mp hw)
        rw [hslot] at hidx
        cases hidx
    | some idx =>
      obtain ⟨rgi, w, hloc⟩ : ∃ rgi w, locate (startsFrom 0 file.rowGroups).1 idx = (rgi, w) := ⟨_, _, rfl⟩
      have hrequest : (rgi, w, slot) ∈ requests file indices := mem_requests.mpr ⟨idx, hslot, hloc⟩
      have hg := SortedMap.mem_grouped.mpr ⟨rfl, List.mem_map.mpr ⟨_, hrequest, rfl⟩⟩
      obtain ⟨hlt, -⟩ := List.getElem?_eq_some_iff.mp hslot
      rw [hsome slot ⟨_, hg, _, ((hgroup _ hg).2.2 _).mpr hrequest⟩, List.getElem?_replicate, if_pos hlt,
        List.getD_eq_getElem?_getD, hslot]
      rfl
  unfold rowsAt
  rw [grouping_ok h]
  show ((SortedMap.grouped (requests file indices)).foldlM (fillGroup crate file cols)
    (List.replicate indices.length [])).bind (fun objs => .ok (objs.map Json.obj)) = _
  rw [hfill, hobjs]
  show Except.ok _ = _
  rw [List.map_map]
  rfl

/-- **Rows by their index.**  However the file is laid out and whatever is asked for, the objects are as
many as the indices, each has in every requested column what a scan finds in the row of its index; and an
index past the end is an error. -/
theorem rows_at_positional (hcrate : Documented crate file view)
    (hcols : ∀ name ∈ cols, Readable file name) (indices : List ℕ) :
    ((∀ idx ∈ indices, idx < file.rows.length) →
        ∃ objs : List Json, rowsAt crate file cols indices = .ok objs ∧ objs.length = indices.length
          ∧ ∀ slot idx : ℕ, indices[slot]? = some idx → ∃ (fields : Fields) (rgi i : ℕ),
            objs[slot]? = some (Json.obj fields) ∧ file.rows[idx]? = some (rgi, i)
              ∧ ∀ name ∈ cols, fields.lookup name = some (jsonOf (columnValue file name rgi i)))
      ∧ ((∃ idx ∈ indices, file.rows.length ≤ idx) →
        ∃ text, rowsAt crate file cols indices = .error (.error text)) := by
  constructor
  · intro h
    refine ⟨_, rowsAt_eq hcrate hcols h, List.length_map _, fun slot idx hslot => ?_⟩
    have hrow := rows_locate file (h idx (List.mem_of_getElem? hslot))
    rw [List.getElem?_map, hslot, hrow]
    exact ⟨_, _, _, rfl, rfl, fun name hname => lookup_rowFields file cols _ hname⟩
  · intro h
    obtain ⟨text, herror⟩ := grouping_error h
    refine ⟨text, ?_⟩
    unfold rowsAt
    rw [herror]
    rfl

end

def parcels : File where
  schema := [⟨"digest", 0, .byteArray⟩, ⟨"size", 1, .int64⟩]
  rowGroups :=
    [⟨2, [⟨[.value (.bytes [97]), .value (.bytes [98])], 40, some (some [97], some [98])⟩,
        ⟨[.value (.int64 5), .null 0], 40, none⟩]⟩,
      ⟨3, [⟨[.value (.bytes [98]), .value (.bytes [98]), .value (.bytes [99])], 40,
          some (some [98], some [99])⟩,
        ⟨[.value (.int64 6), .value (.int64 7), .null 0], 40, none⟩]⟩]
  offsetIndex := some [[[0, 1], [0]], [[0, 2], [0]]]
  columnIndex := some
    [[some [(some [97], some [97]), (some [98], some [98])], none],
      [some [(some [98], some [98]), (some [99], some [99])], none]]
  columns_length := by decide
  cells_length := by decide
  cells_fit := by
    intro rg hrg col desc chunk hdesc hchunk
    obtain rfl | rfl : rg = _ ∨ rg = _ := by simpa using hrg
    all_goals
      match col with
      | 0 => cases hdesc; cases hchunk; simp [Cell.Fits, Datum.physicalType]
      | 1 => cases hdesc; cases hchunk; simp [Cell.Fits, Datum.physicalType]
      | _ + 2 => cases hdesc

theorem rows_at_positional_parcels :
    ∃ objs : List Json, rowsAt (plainCrate parcels) parcels ["size"] [4, 0, 4, 3] = .ok objs
      ∧ objs.length = 4
      ∧ ∀ slot idx : ℕ, [4, 0, 4, 3][slot]? = some idx → ∃ (fields : Fields) (rgi i : ℕ),
        objs[slot]? = some (Json.obj fields) ∧ parcels.rows[idx]? = some (rgi, i)
          ∧ ∀ name ∈ ["size"], fields.lookup name = some (jsonOf (columnValue parcels name rgi i)) :=
  (rows_at_positional (plainCrate_documented parcels)
    (fun name hname => by
      rw [List.mem_singleton.mp hname]
      exact ⟨1, ⟨"size", 1, .int64⟩, by decide, rfl, fun other h => nomatch h⟩) [4, 0, 4, 3]).1
    (by decide)

end Hashdex.Parquet
