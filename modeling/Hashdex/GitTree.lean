import Hashdex.Lib.PathTree
import Hashdex.Lib.StableSort
import Hashdex.Scan

/-!
# Git tree hashing

A directory tree filled from an archive's entries by path, and the tree hash git gives it, under SHA-1
and SHA-256 at once.  The two hash functions are parameters.

* `insert_eq_insertAt`: an insertion is the one of `PathTree`
* `hash_of_kinds`: the hash follows from what stands at each path, whatever order the maps go in
* `order_free_iff`: the hash is free of the order of the entries exactly when none is above another
-/

namespace Hashdex.Git

open PathTree StableSort

/-- What `TNode` has besides directories. -/
inductive Blob where
  | file (exec : Bool) (sha1 sha256 : Bytes)
  | symlink (sha1 sha256 : Bytes)
  deriving DecidableEq

abbrev TNode := PathTree.Node Bytes Blob

abbrev Tree := PathTree.Tree Bytes Blob

def slash : UInt8 := 47

/-- The nonempty parts of a path. -/
def components (path : Bytes) : List Bytes := (path.splitOn slash).filter (· ≠ [])

/-- Parts, joined again for the directory they go into. -/
def joined (parts : List Bytes) : Bytes := [slash].intercalate parts

/-- `insert` once the path is in parts; `path` is the spelling of them that errors show. -/
def insertParts (path : Bytes) (node : TNode) : List Bytes → Tree → Except String Tree
  | [], _ => .error "empty path in tar"
  | [first], t => .ok (put first node t)
  | first :: second :: rest, t =>
    match (get t first).getD (.dir []) with
    | .dir sub =>
      match insertParts (joined (second :: rest)) node (second :: rest) sub with
      | .error e => .error e
      | .ok sub => .ok (put first (.dir sub) t)
    | .leaf _ =>
      let shown := String.ofList (Scan.lossy path)
      .error s!"tar places a file inside a non-directory: {shown}"

def Tree.insert (t : Tree) (path : Bytes) (node : TNode) : Except String Tree :=
  insertParts path node (components path) t

/-! ### The hash -/

/-- An entry as the hash sees it. -/
structure Item where
  name : Bytes
  isDir : Bool
  mode : Bytes
  sha1 : Bytes
  sha256 : Bytes

/-- Directory names sort as if they ended in a slash. -/
def Item.key (i : Item) : Bytes := i.name ++ if i.isDir then [slash] else []

def Item.record (i : Item) (digest : Bytes) : Bytes := i.mode ++ 32 :: (i.name ++ 0 :: digest)

def ascii (s : String) : Bytes := s.toList.map fun c => UInt8.ofNat c.toNat

/-- What is hashed for a tree, from the records of its entries. -/
def treeObject (nodes : Bytes) : Bytes :=
  ascii "tree " ++ (Nat.toDigits 10 nodes.length).map (fun c => UInt8.ofNat c.toNat) ++ 0 :: nodes

/-- SHA-1 and SHA-256. -/
structure Hashers where
  sha1 : Bytes → Bytes
  sha256 : Bytes → Bytes

def itemLe (a b : Item) : Bool := decide (a.key ≤ b.key)

/-- The records of the sorted items, each with one of its digests. -/
def records (digest : Item → Bytes) (items : List Item) : Bytes :=
  (items.mergeSort itemLe).flatMap fun i => i.record (digest i)

def digests (H : Hashers) (items : List Item) : Bytes × Bytes :=
  (H.sha1 (treeObject (records Item.sha1 items)), H.sha256 (treeObject (records Item.sha256 items)))

def Blob.item (name : Bytes) : Blob → Item
  | .file exec sha1 sha256 =>
    ⟨name, false, ascii (if exec then "100755" else "100644"), sha1, sha256⟩
  | .symlink sha1 sha256 => ⟨name, false, ascii "120000", sha1, sha256⟩

mutual

def nodeItem (H : Hashers) (name : Bytes) : PathTree.Node Bytes Blob → Item
  | .leaf b => b.item name
  | .dir t =>
    let h := digests H (treeItems H t)
    ⟨name, true, ascii "40000", h.1, h.2⟩

def treeItems (H : Hashers) : List (Bytes × PathTree.Node Bytes Blob) → List Item
  | [] => []
  | (name, node) :: rest => nodeItem H name node :: treeItems H rest

end

/-- The order of the list is the order the map is gone through in. -/
def Tree.hash (H : Hashers) (t : Tree) : Bytes × Bytes := digests H (treeItems H t)

/-! ### Insertions -/

theorem slash_notMem_splitOn {path l : Bytes} (h : l ∈ path.splitOn slash) : slash ∉ l := by
  induction path generalizing l with
  | nil => simp_all
  | cons b path ih =>
    rw [List.splitOn_cons_eq_if_modifyHead] at h
    split at h
    · rcases List.mem_cons.mp h with rfl | h
      · simp
      · exact ih h
    · next hb =>
      obtain ⟨first, rest, hsplit⟩ := List.exists_cons_of_ne_nil (List.splitOn_ne_nil slash path)
      rw [hsplit, List.modifyHead_cons] at h
      rcases List.mem_cons.mp h with rfl | h
      · have hfirst := ih (hsplit ▸ List.mem_cons_self)
        have hne : slash ≠ b := fun heq => hb (beq_iff_eq.mpr heq.symm)
        simp [hne, hfirst]
      · exact ih (hsplit ▸ List.mem_cons_of_mem _ h)

/-- A part of a path: not empty, and without a slash. -/
def Plain (name : Bytes) : Prop := name ≠ [] ∧ slash ∉ name

theorem components_plain {path n : Bytes} (h : n ∈ components path) : Plain n := by
  obtain ⟨hmem, hne⟩ := List.mem_filter.mp h
  exact ⟨of_decide_eq_true hne, slash_notMem_splitOn hmem⟩

/-- Parts that were joined come apart as they were. -/
theorem components_joined {parts : List Bytes} (h : ∀ n ∈ parts, Plain n) :
    components (joined parts) = parts := by
  cases parts with
  | nil => rfl
  | cons first rest =>
    rw [components, joined, List.splitOn_intercalate slash (fun l hl => (h l hl).2)
      (List.cons_ne_nil _ _), List.filter_eq_self]
    exact fun n hn => decide_eq_true (h n hn).1

/-- **Going down a directory is the same insertion again**, at the parts that are left, joined. -/
theorem insert_below {t sub : Tree} {path first : Bytes} {rest : List Bytes} (node : TNode)
    (hpath : components path = first :: rest) (hrest : rest ≠ [])
    (hsub : (get t first).getD (.dir []) = .dir sub) :
    Tree.insert t path node =
      match Tree.insert sub (joined rest) node with
      | .error e => .error e
      | .ok sub => .ok (put first (.dir sub) t) := by
  obtain ⟨second, rest, rfl⟩ := List.exists_cons_of_ne_nil hrest
  have hplain : ∀ n ∈ second :: rest, Plain n := fun n hn =>
    components_plain (hpath ▸ List.mem_cons_of_mem _ hn)
  rw [Tree.insert, hpath, insertParts, hsub, Tree.insert, components_joined hplain]

theorem insertParts_eq_insertAt (path : Bytes) (node : TNode) (parts : List Bytes) (t : Tree) :
    (insertParts path node parts t).toOption = insertAt node parts t := by
  induction parts generalizing path t with
  | nil => rfl
  | cons first rest ih =>
    cases rest with
    | nil => rfl
    | cons second rest =>
      rw [insertParts, insertAt, below]
      cases (get t first).getD (.dir []) with
      | leaf b => rfl
      | dir sub =>
        dsimp only
        rw [Option.bind_some, ← ih (joined (second :: rest)) sub]
        cases insertParts (joined (second :: rest)) node (second :: rest) sub with
        | error e => rfl
        | ok u => rfl

/-- An insertion by path is the insertion at its parts. -/
theorem insert_eq_insertAt (t : Tree) (path : Bytes) (node : TNode) :
    (t.insert path node).toOption = insertAt node (components path) t :=
  insertParts_eq_insertAt path node (components path) t

/-- An entry of an archive: a file, a symlink, or a directory as such, which comes without what is
in it. -/
structure Entry where
  path : Bytes
  kind : Kind Blob

def Entry.at (e : Entry) : List Bytes × Kind Blob := (components e.path, e.kind)

/-- The entries, in the order of the archive, up to the first that fails. -/
def insertAll : List Entry → Tree → Except String Tree
  | [], t => .ok t
  | e :: es, t =>
    match t.insert e.path e.kind.node with
    | .error err => .error err
    | .ok t => insertAll es t

theorem insertAll_eq_build (es : List Entry) (t : Tree) :
    (insertAll es t).toOption = build (es.map Entry.at) t := by
  induction es generalizing t with
  | nil => rfl
  | cons e es ih =>
    rw [insertAll, List.map_cons, Entry.at, build, ← insert_eq_insertAt]
    cases t.insert e.path e.kind.node with
    | error err => rfl
    | ok u => exact ih u

/-! ### What the hash depends on -/

theorem itemLe_trans (a b c : Item) (hab : itemLe a b = true) (hbc : itemLe b c = true) :
    itemLe a c = true := by
  simp only [itemLe, decide_eq_true_eq] at hab hbc ⊢
  exact List.le_trans hab hbc

theorem itemLe_total (a b : Item) : (itemLe a b || itemLe b a) = true := by
  simp only [itemLe, Bool.or_eq_true, decide_eq_true_eq]
  exact List.le_total a.key b.key

theorem nodeItem_name (H : Hashers) (name : Bytes) (node : TNode) :
    (nodeItem H name node).name = name := by
  cases node with
  | leaf b =>
    cases b with
    | file exec sha1 sha256 => rfl
    | symlink sha1 sha256 => rfl
  | dir t => rfl

theorem treeItems_eq_map (H : Hashers) (t : Tree) :
    treeItems H t = t.map fun e => nodeItem H e.1 e.2 := by
  induction t with
  | nil => rfl
  | cons e rest ih =>
    obtain ⟨name, node⟩ := e
    rw [treeItems, ih, List.map_cons]

theorem names_treeItems (H : Hashers) (t : Tree) :
    (treeItems H t).map Item.name = t.map Prod.fst := by
  rw [treeItems_eq_map, List.map_map]
  exact List.map_congr_left fun e _ => nodeItem_name H e.1 e.2

/-- The items of a tree are those of its names. -/
theorem mem_treeItems {H : Hashers} {t : Tree} (ht : (t.map Prod.fst).Nodup) {i : Item} :
    i ∈ treeItems H t ↔ ∃ node, get t i.name = some node ∧ i = nodeItem H i.name node := by
  rw [treeItems_eq_map, List.mem_map]
  constructor
  · rintro ⟨⟨name, node⟩, hmem, rfl⟩
    rw [nodeItem_name]
    exact ⟨node, (get_eq_some_iff ht).mpr hmem, rfl⟩
  · rintro ⟨node, hget, hi⟩
    exact ⟨(i.name, node), (get_eq_some_iff ht).mp hget, hi.symm⟩

theorem treeItems_nodup {H : Hashers} {t : Tree} (ht : (t.map Prod.fst).Nodup) :
    (treeItems H t).Nodup := by
  refine List.Nodup.of_map Item.name ?_
  rwa [names_treeItems]

/-- Two items of one tree have different keys. -/
theorem tied_items {H : Hashers} {t : Tree} (ht : (t.map Prod.fst).Nodup) (hplain : PathTree.Within Plain t)
    {a b : Item} (ha : a ∈ treeItems H t) (hb : b ∈ treeItems H t) (htied : tied itemLe a b = true) :
    a = b := by
  obtain ⟨hab, hba⟩ := tied_iff.mp htied
  simp only [itemLe, decide_eq_true_eq] at hab hba
  have hkey : a.key = b.key := List.le_antisymm hab hba
  have hname : ∀ i ∈ treeItems H t, slash ∉ i.name := by
    intro i hi
    obtain ⟨node, hget, -⟩ := (mem_treeItems ht).mp hi
    refine (hplain [i.name] ?_ i.name List.mem_cons_self).2
    rw [kindAt_cons, hget]
    cases node with
    | leaf b => simp
    | dir s => simp
  have hnames : a.name = b.name := by
    rw [Item.key, Item.key] at hkey
    cases hda : a.isDir with
    | true =>
      cases hdb : b.isDir with
      | true =>
        rw [hda, hdb] at hkey
        exact List.append_cancel_right hkey
      | false =>
        rw [hda, hdb] at hkey
        simp only [if_true, Bool.false_eq_true, if_false, List.append_nil] at hkey
        exact absurd (hkey ▸ by simp) (hname b hb)
    | false =>
      cases hdb : b.isDir with
      | true =>
        rw [hda, hdb] at hkey
        simp only [if_true, Bool.false_eq_true, if_false, List.append_nil] at hkey
        exact absurd (hkey ▸ by simp) (hname a ha)
      | false =>
        rw [hda, hdb] at hkey
        simpa using hkey
  obtain ⟨na, hna, ha'⟩ := (mem_treeItems ht).mp ha
  obtain ⟨nb, hnb, hb'⟩ := (mem_treeItems ht).mp hb
  rw [hnames, hnb] at hna
  cases hna
  rw [ha', hb', hnames]

/-- Items in another order are sorted to the same list. -/
theorem mergeSort_items {H : Hashers} {t : Tree} (ht : (t.map Prod.fst).Nodup)
    (hplain : PathTree.Within Plain t) {items : List Item} (h : items.Perm (treeItems H t)) :
    items.mergeSort itemLe = (treeItems H t).mergeSort itemLe :=
  mergeSort_eq_of_perm itemLe_trans itemLe_total h fun _ ha _ hb htied =>
    tied_items ht hplain (h.mem_iff.mp ha) (h.mem_iff.mp hb) htied

/-- A name's item is settled by what stands at the paths from it. -/
theorem item_of_kinds {H : Hashers} {t t' : Tree} (hplain : PathTree.Within Plain t) {name : Bytes}
    (hsub : ∀ s, get t name = some (.dir s) → ∀ s', get t' name = some (.dir s') →
      PathTree.Within Plain s → (∀ q, kindAt q s = kindAt q s') → Tree.hash H s = Tree.hash H s')
    (hkinds : ∀ q, kindAt (name :: q) t = kindAt (name :: q) t') {node : TNode}
    (hnode : get t name = some node) :
    ∃ node', get t' name = some node' ∧ nodeItem H name node' = nodeItem H name node := by
  have hself := hkinds []
  rw [kindAt_cons, kindAt_cons, hnode] at hself
  cases hnode' : get t' name with
  | none =>
    rw [hnode'] at hself
    cases node with
    | leaf b => simp at hself
    | dir s => simp at hself
  | some node' =>
    refine ⟨node', rfl, ?_⟩
    rw [hnode'] at hself
    cases node with
    | leaf b =>
      cases node' with
      | leaf b' =>
        simp only [if_true, Option.some_inj, Kind.leaf.injEq] at hself
        rw [hself]
      | dir s' => simp at hself
    | dir s =>
      cases node' with
      | leaf b' => simp at hself
      | dir s' =>
        have hdown : ∀ q, kindAt q s = kindAt q s' := by
          intro q
          have hq := hkinds q
          rwa [kindAt_cons, kindAt_cons, hnode, hnode'] at hq
        have hhash := hsub s hnode s' hnode' (hplain.sub hnode) hdown
        rw [Tree.hash, Tree.hash] at hhash
        rw [nodeItem, nodeItem, hhash]

/-- **The hash follows from what stands at each path**: neither the order the entries came in nor
the order a map goes through them shows. -/
theorem hash_of_kinds {H : Hashers} {t t' : Tree} (ht : Distinct t) (ht' : Distinct t')
    (hplain : PathTree.Within Plain t) (h : ∀ q, kindAt q t = kindAt q t') :
    Tree.hash H t = Tree.hash H t' := by
  induction ht generalizing t' with
  | @intro t names sub ih =>
    have hplain' : PathTree.Within Plain t' := by
      intro q hq
      exact hplain q (by rwa [h q])
    have hperm : (treeItems H t').Perm (treeItems H t) := by
      rw [List.perm_ext_iff_of_nodup (treeItems_nodup ht'.names) (treeItems_nodup names)]
      intro i
      rw [mem_treeItems ht'.names, mem_treeItems names]
      constructor
      · rintro ⟨node', hget', hi⟩
        obtain ⟨node, hget, hitem⟩ := item_of_kinds (H := H) hplain'
          (fun s' hs' s hs _ hkinds => (ih _ s ((get_eq_some_iff names).mp hs)
            (ht'.sub ((get_eq_some_iff ht'.names).mp hs')) (hplain.sub hs)
            fun q => (hkinds q).symm).symm) (fun q => (h _).symm) hget'
        exact ⟨node, hget, hi.trans hitem.symm⟩
      · rintro ⟨node, hget, hi⟩
        obtain ⟨node', hget', hitem⟩ := item_of_kinds (H := H) hplain
          (fun s hs s' hs' hw hkinds => ih _ s ((get_eq_some_iff names).mp hs)
            (ht'.sub ((get_eq_some_iff ht'.names).mp hs')) hw hkinds) (fun q => h _) hget
        exact ⟨node', hget', hi.trans hitem.symm⟩
    rw [Tree.hash, Tree.hash, digests, digests, records, records, records, records,
      mergeSort_items names hplain hperm]

/-! ### Telling two trees apart -/

theorem length_toDigits_mono {a b : ℕ} (h : a ≤ b) :
    (Nat.toDigits 10 a).length ≤ (Nat.toDigits 10 b).length := by
  have hpos : 0 < (Nat.toDigits 10 b).length := Nat.length_toDigits_pos
  have hb := (Nat.length_toDigits_le_iff (by decide) hpos).mp (le_refl _)
  exact (Nat.length_toDigits_le_iff (by decide) hpos).mpr (h.trans_lt hb)

theorem length_treeObject (nodes : Bytes) :
    (treeObject nodes).length = 6 + (Nat.toDigits 10 nodes.length).length + nodes.length := by
  have htree : (ascii "tree ").length = 5 := rfl
  rw [treeObject, List.length_append, List.length_append, List.length_map, List.length_cons, htree]
  omega

theorem length_treeObject_inj {a b : Bytes} (h : (treeObject a).length = (treeObject b).length) :
    a.length = b.length := by
  rw [length_treeObject, length_treeObject] at h
  rcases Nat.le_total a.length b.length with hle | hle
  · have hmono := length_toDigits_mono hle
    omega
  · have hmono := length_toDigits_mono hle
    omega

theorem treeObject_inj {a b : Bytes} (h : treeObject a = treeObject b) : a = b := by
  have hlen := length_treeObject_inj (congrArg List.length h)
  rw [treeObject, treeObject, hlen] at h
  exact (List.cons.inj (List.append_cancel_left h)).2

/-- Hash functions that keep the whole of what they hash, and a tail of zeros. -/
def keeping (n : ℕ) : Hashers :=
  ⟨fun bytes => bytes ++ List.replicate n 0, fun bytes => bytes ++ List.replicate n 0⟩

/-- Two items of one name that do not look the same in a record: they sort at one place and differ,
or their records differ in length. -/
structure Tells (i j : Item) : Prop where
  name : i.name = j.name
  ne : i ≠ j
  how : i.isDir = j.isDir ∧ i.mode.length = j.mode.length ∨
    (i.record i.sha1).length ≠ (j.record j.sha1).length

theorem record_inj {i j : Item} {d d' : Bytes} (hname : i.name = j.name)
    (hmode : i.mode.length = j.mode.length) (h : i.record d = j.record d') :
    i.mode = j.mode ∧ d = d' := by
  rw [Item.record, Item.record, hname] at h
  obtain ⟨hm, hrest⟩ := List.append_inj h hmode
  exact ⟨hm, (List.cons.inj (List.append_cancel_left (List.cons.inj hrest).2)).2⟩

/-- The records before one item, its own, and those after it. -/
theorem records_cons (digest : Item → Bytes) (i : Item) (rest : List Item) :
    records digest (i :: rest) =
      (((rest.mergeSort itemLe).filter fun b => !itemLe i b).flatMap fun b => b.record (digest b)) ++
        (i.record (digest i) ++
          ((rest.mergeSort itemLe).filter fun b => itemLe i b).flatMap
            fun b => b.record (digest b)) := by
  rw [records, mergeSort_cons_eq itemLe_trans itemLe_total, List.flatMap_append, List.flatMap_cons]

theorem length_records (digest : Item → Bytes) (i : Item) (rest : List Item) :
    (records digest (i :: rest)).length
      = (i.record (digest i)).length + (rest.flatMap fun b => b.record (digest b)).length := by
  have hperm := (List.mergeSort_perm (i :: rest) itemLe).flatMap_right fun b => b.record (digest b)
  rw [records, hperm.length_eq, List.flatMap_cons, List.length_append]

/-- **A difference in one item shows in the hash.** -/
theorem digests_differ (n : ℕ) {items items' rest rest' : List Item} {i j : Item} (h : Tells i j)
    (hi : items.mergeSort itemLe = (i :: rest).mergeSort itemLe)
    (hj : items'.mergeSort itemLe = (j :: rest').mergeSort itemLe)
    (hrest : rest.Perm rest') (hsorted : rest.mergeSort itemLe = rest'.mergeSort itemLe) :
    digests (keeping n) items ≠ digests (keeping n) items' := by
  intro heq
  rw [digests, digests, Prod.mk.injEq] at heq
  have hone : ∀ digest : Item → Bytes,
      treeObject (records digest items) ++ List.replicate n 0 =
        treeObject (records digest items') ++ List.replicate n 0 →
      records digest (i :: rest) = records digest (j :: rest') := by
    intro digest h
    have hrec := treeObject_inj (List.append_cancel_right h)
    rwa [records, records, hi, hj] at hrec
  have h₁ := hone Item.sha1 heq.1
  have h₂ := hone Item.sha256 heq.2
  rcases h.how with ⟨hdir, hmode⟩ | hlen
  · have hkey : i.key = j.key := by
      rw [Item.key, Item.key, h.name, hdir]
    have hle : itemLe i = itemLe j := by
      funext b
      rw [itemLe, itemLe, hkey]
    rw [records_cons, records_cons, hle, hsorted] at h₁ h₂
    obtain ⟨hm, hd₁⟩ := record_inj h.name hmode
      (List.append_cancel_right (List.append_cancel_left h₁))
    obtain ⟨-, hd₂⟩ := record_inj h.name hmode
      (List.append_cancel_right (List.append_cancel_left h₂))
    refine h.ne ?_
    cases i
    cases j
    simp only at hm hd₁ hd₂ hdir
    have hname := h.name
    simp only at hname
    rw [hname, hdir, hm, hd₁, hd₂]
  · have hlens := congrArg List.length h₁
    rw [length_records, length_records, (hrest.flatMap_right fun b => b.record b.sha1).length_eq]
      at hlens
    exact hlen (Nat.add_right_cancel hlens)

/-! ### The two trees of two orders -/

/-- The items of the other names. -/
def others (H : Hashers) (t : Tree) (name : Bytes) : List Item :=
  (treeItems H t).filter fun i => i.name ≠ name

theorem perm_others {H : Hashers} {t : Tree} (ht : (t.map Prod.fst).Nodup) {name : Bytes}
    {node : TNode} (h : get t name = some node) :
    (nodeItem H name node :: others H t name).Perm (treeItems H t) := by
  have hself : nodeItem H name node ∈ treeItems H t := by
    rw [mem_treeItems ht, nodeItem_name]
    exact ⟨node, h, rfl⟩
  have hnodup : (nodeItem H name node :: others H t name).Nodup := by
    rw [List.nodup_cons]
    refine ⟨fun hmem => ?_, (treeItems_nodup ht).filter _⟩
    have hne := of_decide_eq_true (List.mem_filter.mp hmem).2
    exact hne (nodeItem_name H name node)
  rw [List.perm_ext_iff_of_nodup hnodup (treeItems_nodup ht)]
  intro i
  constructor
  · intro hi
    rcases List.mem_cons.mp hi with rfl | hi
    · exact hself
    · exact List.mem_of_mem_filter hi
  · intro hi
    by_cases hname : i.name = name
    · obtain ⟨node', hget, hitem⟩ := (mem_treeItems ht).mp hi
      rw [hname, h] at hget
      cases hget
      rw [hitem, hname]
      exact List.mem_cons_self
    · exact List.mem_cons_of_mem _ (List.mem_filter.mpr ⟨hi, by simpa using hname⟩)

/-- Trees that are the same but for what stands under one name. -/
structure SameBut (name : Bytes) (t t' : Tree) : Prop where
  distinct : Distinct t
  distinct' : Distinct t'
  plain : PathTree.Within Plain t
  plain' : PathTree.Within Plain t'
  same : ∀ m q, m ≠ name → kindAt (m :: q) t = kindAt (m :: q) t'

theorem mem_others_of {H : Hashers} {t t' : Tree} {name : Bytes} (h : SameBut name t t') {i : Item}
    (hi : i ∈ others H t name) : i ∈ others H t' name := by
  obtain ⟨hmem, hne⟩ := List.mem_filter.mp hi
  obtain ⟨node, hget, hitem⟩ := (mem_treeItems h.distinct.names).mp hmem
  obtain ⟨node', hget', hitem'⟩ := item_of_kinds (H := H) h.plain
    (fun s hs s' hs' hw hkinds => hash_of_kinds
      (h.distinct.sub ((get_eq_some_iff h.distinct.names).mp hs))
      (h.distinct'.sub ((get_eq_some_iff h.distinct'.names).mp hs')) hw hkinds)
    (fun q => h.same i.name q (of_decide_eq_true hne)) hget
  refine List.mem_filter.mpr ⟨?_, hne⟩
  rw [mem_treeItems h.distinct'.names]
  exact ⟨node', hget', hitem.trans hitem'.symm⟩

theorem SameBut.symm {t t' : Tree} {name : Bytes} (h : SameBut name t t') : SameBut name t' t :=
  ⟨h.distinct', h.distinct, h.plain', h.plain, fun m q hm => (h.same m q hm).symm⟩

theorem others_perm {H : Hashers} {t t' : Tree} {name : Bytes} (h : SameBut name t t') :
    (others H t name).Perm (others H t' name) := by
  show ((treeItems H t).filter _).Perm ((treeItems H t').filter _)
  rw [List.perm_ext_iff_of_nodup ((treeItems_nodup h.distinct.names).filter _)
    ((treeItems_nodup h.distinct'.names).filter _)]
  exact fun i => ⟨mem_others_of h, mem_others_of h.symm⟩

/-- **A difference under one name shows in the hash of the tree.** -/
theorem hash_differs (n : ℕ) {t t' : Tree} {name : Bytes} (h : SameBut name t t')
    {node node' : TNode} (hnode : get t name = some node) (hnode' : get t' name = some node')
    (htells : Tells (nodeItem (keeping n) name node) (nodeItem (keeping n) name node')) :
    Tree.hash (keeping n) t ≠ Tree.hash (keeping n) t' := by
  have hperm := perm_others (H := keeping n) h.distinct.names hnode
  have hperm' := perm_others (H := keeping n) h.distinct'.names hnode'
  refine digests_differ n htells (mergeSort_items h.distinct.names h.plain hperm).symm
    (mergeSort_items h.distinct'.names h.plain' hperm').symm (others_perm h) ?_
  exact mergeSort_eq_of_perm itemLe_trans itemLe_total (others_perm h) fun a ha b hb htied =>
    tied_items h.distinct.names h.plain (List.mem_of_mem_filter ha) (List.mem_of_mem_filter hb) htied

theorem tells_dirs {H : Hashers} {s s' : Tree} (h : Tree.hash H s ≠ Tree.hash H s') (name : Bytes) :
    Tells (nodeItem H name (.dir s)) (nodeItem H name (.dir s')) := by
  refine ⟨rfl, fun heq => h ?_, Or.inl ⟨rfl, rfl⟩⟩
  rw [nodeItem, nodeItem, Item.mk.injEq] at heq
  exact Prod.ext heq.2.2.2.1 heq.2.2.2.2

/-- A directory with something in it does not hash like an empty one. -/
theorem hash_ne_empty (n : ℕ) {s : Tree} (hs : s ≠ []) :
    Tree.hash (keeping n) s ≠ Tree.hash (keeping n) [] := by
  intro heq
  obtain ⟨⟨name, node⟩, rest, rfl⟩ := List.exists_cons_of_ne_nil hs
  have hsha1 := congrArg Prod.fst heq
  have hrec : records Item.sha1 (treeItems (keeping n) ((name, node) :: rest))
      = records Item.sha1 [] := treeObject_inj (List.append_cancel_right hsha1)
  have hlen := congrArg List.length hrec
  have hempty : (records Item.sha1 []).length = 0 := by
    rw [records, List.mergeSort_nil]
    rfl
  rw [treeItems, length_records, hempty, Item.record, List.length_append, List.length_cons] at hlen
  omega

theorem Blob.item_inj {b b' : Blob} {name : Bytes} (h : b.item name = b'.item name) : b = b' := by
  cases b with
  | file exec sha1 sha256 =>
    cases b' with
    | file exec' sha1' sha256' =>
      simp only [Blob.item, Item.mk.injEq, true_and] at h
      obtain ⟨hmode, rfl, rfl⟩ := h
      cases exec <;> cases exec' <;> first | rfl | exact absurd hmode (by decide)
    | symlink sha1' sha256' =>
      simp only [Blob.item, Item.mk.injEq, true_and] at h
      obtain ⟨hmode, -, -⟩ := h
      cases exec <;> exact absurd hmode (by decide)
  | symlink sha1 sha256 =>
    cases b' with
    | file exec' sha1' sha256' =>
      simp only [Blob.item, Item.mk.injEq, true_and] at h
      obtain ⟨hmode, -, -⟩ := h
      cases exec' <;> exact absurd hmode (by decide)
    | symlink sha1' sha256' =>
      simp only [Blob.item, Item.mk.injEq, true_and] at h
      obtain ⟨rfl, rfl⟩ := h
      rfl

theorem Blob.item_shape (b : Blob) (name : Bytes) :
    (b.item name).isDir = false ∧ (b.item name).mode.length = 6 := by
  cases b with
  | file exec sha1 sha256 => cases exec <;> exact ⟨rfl, rfl⟩
  | symlink sha1 sha256 => exact ⟨rfl, rfl⟩

theorem length_record (i : Item) (digest : Bytes) :
    (i.record digest).length = i.mode.length + i.name.length + digest.length + 2 := by
  rw [Item.record, List.length_append, List.length_cons, List.length_append, List.length_cons]
  omega

/-- A leaf and an empty directory have records of different lengths, for a hash of the right
length. -/
theorem length_leaf_ne_dir (b : Blob) (name name' : Bytes) :
    ((b.item name).record (b.item name).sha1).length ≠
      ((nodeItem (keeping (b.item name').sha1.length) name (.dir [])).record
        (nodeItem (keeping (b.item name').sha1.length) name (.dir [])).sha1).length := by
  have hsha1 : (b.item name').sha1 = (b.item name).sha1 := by
    cases b with
    | file exec sha1 sha256 => rfl
    | symlink sha1 sha256 => rfl
  have hname : (b.item name).name = name := nodeItem_name (keeping 0) name (.leaf b)
  have hdir : (nodeItem (keeping (b.item name).sha1.length) name (.dir [])).sha1.length
      = 7 + (b.item name).sha1.length := by
    show (treeObject (records Item.sha1 []) ++ List.replicate _ 0).length = _
    rw [records, List.mergeSort_nil, List.length_append, List.length_replicate]
    rfl
  have hmode : (nodeItem (keeping (b.item name).sha1.length) name (.dir [])).mode.length = 5 := rfl
  have hself : (nodeItem (keeping (b.item name).sha1.length) name (.dir [])).name = name := rfl
  rw [hsha1, length_record, length_record, hdir, hmode, hself, hname, (b.item_shape name).2]
  omega

/-- Some hash tells the two nodes of `PartAt` apart, under any name. -/
theorem exists_tells {c : List Bytes} {t t' : Tree} (h : PartAt c t t') :
    ∃ n u u', nodeAt c t = some u ∧ nodeAt c t' = some u' ∧
      ∀ name, Tells (nodeItem (keeping n) name u) (nodeItem (keeping n) name u') := by
  rcases h.differ with ⟨s, hs, hu, hu'⟩ | ⟨k, k', hne, hu, hu'⟩
  · exact ⟨0, _, _, hu, hu', tells_dirs (hash_ne_empty 0 hs)⟩
  · cases k with
    | leaf b =>
      cases k' with
      | leaf b' =>
        refine ⟨0, _, _, hu, hu', fun name => ⟨?_, fun heq => hne ?_, Or.inl ⟨?_, ?_⟩⟩⟩
        · rw [nodeItem_name, nodeItem_name]
        · rw [Blob.item_inj heq]
        · exact (b.item_shape name).1.trans (b'.item_shape name).1.symm
        · exact (b.item_shape name).2.trans (b'.item_shape name).2.symm
      | dir =>
        refine ⟨(b.item []).sha1.length, _, _, hu, hu', fun name =>
          ⟨?_, fun heq => ?_, Or.inr (length_leaf_ne_dir b name [])⟩⟩
        · rw [nodeItem_name, nodeItem_name]
        · exact length_leaf_ne_dir b name [] (congrArg (fun i => (i.record i.sha1).length) heq)
    | dir =>
      cases k' with
      | leaf b =>
        refine ⟨(b.item []).sha1.length, _, _, hu, hu', fun name =>
          ⟨?_, fun heq => ?_, Or.inr (length_leaf_ne_dir b name []).symm⟩⟩
        · rw [nodeItem_name, nodeItem_name]
        · exact length_leaf_ne_dir b name [] (congrArg (fun i => (i.record i.sha1).length) heq.symm)
      | dir => exact absurd rfl hne

/-- **Up the path, the difference stays.** -/
theorem hash_of_nodes (n : ℕ) {u u' : TNode}
    (htells : ∀ name, Tells (nodeItem (keeping n) name u) (nodeItem (keeping n) name u'))
    {c : List Bytes} (hc : c ≠ []) {t t' : Tree} (ht : Distinct t) (ht' : Distinct t')
    (hplain : PathTree.Within Plain t) (hplain' : PathTree.Within Plain t')
    (hout : ∀ q, ¬ c <+: q → kindAt q t = kindAt q t') (hu : nodeAt c t = some u)
    (hu' : nodeAt c t' = some u') : Tree.hash (keeping n) t ≠ Tree.hash (keeping n) t' := by
  induction c generalizing t t' with
  | nil => exact absurd rfl hc
  | cons name rest ih =>
    have hbut : SameBut name t t' := by
      refine ⟨ht, ht', hplain, hplain', fun m q hm => hout _ fun hpre => hm ?_⟩
      exact (List.cons_prefix_cons.mp hpre).1.symm
    by_cases hrest : rest = []
    · subst hrest
      rw [nodeAt_singleton] at hu hu'
      exact hash_differs n hbut hu hu' (htells name)
    · obtain ⟨s, hs, hdown⟩ := nodeAt_through hrest hu
      obtain ⟨s', hs', hdown'⟩ := nodeAt_through hrest hu'
      have hsub : Tree.hash (keeping n) s ≠ Tree.hash (keeping n) s' := by
        refine ih hrest (ht.sub ((get_eq_some_iff ht.names).mp hs))
          (ht'.sub ((get_eq_some_iff ht'.names).mp hs')) (hplain.sub hs) (hplain'.sub hs') ?_
          hdown hdown'
        intro q hq
        have hname := hout (name :: q) fun hpre => hq (List.cons_prefix_cons.mp hpre).2
        rwa [kindAt_cons, kindAt_cons, hs, hs'] at hname
      exact hash_differs n hbut hs hs' (tells_dirs hsub name)

/-! ### Every order -/

/-- The same maps, gone through in another order. -/
structure Reorders (t u : Tree) : Prop where
  distinct : Distinct u
  same : ∀ q, kindAt q u = kindAt q t

/-- Both fail, or both have one pair of hashes, whatever order their maps are gone through in. -/
def SameHash (H : Hashers) : Except String Tree → Except String Tree → Prop
  | .ok t, .ok t' => ∀ u u', Reorders t u → Reorders t' u' → Tree.hash H u = Tree.hash H u'
  | .error _, .error _ => True
  | _, _ => False

/-- Any two orders of the entries end alike, whatever the hash functions. -/
def OrderFree (es : List Entry) : Prop :=
  ∀ H es₁ es₂, es₁.Perm es → es₂.Perm es → SameHash H (insertAll es₁ []) (insertAll es₂ [])

/-- Some entry has no path at all, or none has the path of another or one that continues it. -/
def Orderly (es : List Entry) : Prop :=
  (∃ e ∈ es, components e.path = []) ∨
    ∀ x ∈ es, ∀ y ∈ es, components x.path <+: components y.path →
      components x.path = components y.path ∧ x.kind = y.kind

theorem insertAll_of_build {es : List Entry} {t : Tree} (h : build (es.map Entry.at) [] = some t) :
    insertAll es [] = .ok t := by
  have hto := insertAll_eq_build es []
  rw [h] at hto
  cases hall : insertAll es [] with
  | error e =>
    rw [hall] at hto
    cases hto
  | ok u =>
    rw [hall] at hto
    exact congrArg Except.ok (Option.some.inj hto)

theorem insertAll_build {es : List Entry} {t : Tree} (h : insertAll es [] = .ok t) :
    build (es.map Entry.at) [] = some t := by
  rw [← insertAll_eq_build, h]
  rfl

theorem insertAll_of_none {es : List Entry} (h : build (es.map Entry.at) [] = none) :
    ∃ e, insertAll es [] = .error e := by
  have hto := insertAll_eq_build es []
  rw [h] at hto
  cases hall : insertAll es [] with
  | error e => exact ⟨e, rfl⟩
  | ok u =>
    rw [hall] at hto
    cases hto

theorem built_plain {es : List Entry} {t : Tree} (h : build (es.map Entry.at) [] = some t) :
    PathTree.Within Plain t := by
  refine build_within (fun x hx n hn => ?_) (within_nil Plain) h
  obtain ⟨e, -, rfl⟩ := List.mem_map.mp hx
  exact components_plain hn

theorem clear_iff (es : List Entry) :
    Clear (es.map Entry.at) ↔ ∀ x ∈ es, ∀ y ∈ es, components x.path <+: components y.path →
      components x.path = components y.path ∧ x.kind = y.kind := by
  simp only [Clear, List.forall_mem_map, Entry.at, Prod.mk.injEq]

theorem order_free_of_orderly {es : List Entry} (h : Orderly es) : OrderFree es := by
  intro H es₁ es₂ hperm₁ hperm₂
  by_cases hempty : ∃ e ∈ es, components e.path = []
  · have hfail : ∀ es', es'.Perm es → ∃ err, insertAll es' [] = .error err := by
      intro es' hperm
      obtain ⟨e, he, hnil⟩ := hempty
      exact insertAll_of_none
        (build_of_nil ⟨e.at, List.mem_map_of_mem (hperm.mem_iff.mpr he), hnil⟩ [])
    obtain ⟨err₁, h₁⟩ := hfail es₁ hperm₁
    obtain ⟨err₂, h₂⟩ := hfail es₂ hperm₂
    rw [h₁, h₂]
    trivial
  · have hclear : Clear (es.map Entry.at) := (clear_iff es).mpr (h.resolve_left hempty)
    have hnil : ∀ x ∈ es.map Entry.at, x.1 ≠ [] := by
      intro x hx hxnil
      obtain ⟨e, he, rfl⟩ := List.mem_map.mp hx
      exact hempty ⟨e, he, hxnil⟩
    obtain ⟨t, t₁, ht, ht₁, hsame₁⟩ := order_free_of_clear hclear hnil (hperm₁.map Entry.at)
    obtain ⟨t', t₂, ht', ht₂, hsame₂⟩ := order_free_of_clear hclear hnil (hperm₂.map Entry.at)
    rw [ht] at ht'
    cases ht'
    rw [insertAll_of_build ht₁, insertAll_of_build ht₂]
    intro u u' hu hu'
    refine hash_of_kinds hu.distinct hu'.distinct (fun q hq => ?_) fun q => ?_
    · exact built_plain ht₁ q (by rwa [← hu.same q])
    · rw [hu.same q, hu'.same q, ← hsame₁ q, hsame₂ q]

theorem orderly_of_order_free {es : List Entry} (h : OrderFree es) : Orderly es := by
  by_cases hempty : ∃ e ∈ es, components e.path = []
  · exact Or.inl hempty
  · refine Or.inr ((clear_iff es).mp (Classical.not_not.mp fun hclear => ?_))
    have hnil : ∀ x ∈ es.map Entry.at, x.1 ≠ [] := by
      intro x hx hxnil
      obtain ⟨e, he, rfl⟩ := List.mem_map.mp hx
      exact hempty ⟨e, he, hxnil⟩
    have hsource : ∀ l : List (List Bytes × Kind Blob), l.Perm (es.map Entry.at) →
        ∃ es' : List Entry, l = es'.map Entry.at ∧ es'.Perm es := by
      intro l hl
      exact (congrFun (congrFun (List.eq_map_comp_perm Entry.at) l) es).mpr hl
    rcases order_matters hnil hclear with ⟨l₁, l₂, t, hl₁, hl₂, hb₁, hb₂⟩ |
      ⟨l₁, l₂, t₁, t₂, c, hl₁, hl₂, hb₁, hb₂, hpart⟩
    · obtain ⟨es₁, rfl, hes₁⟩ := hsource l₁ hl₁
      obtain ⟨es₂, rfl, hes₂⟩ := hsource l₂ hl₂
      have hsame := h (keeping 0) es₁ es₂ hes₁ hes₂
      obtain ⟨err, herr⟩ := insertAll_of_none hb₁
      rw [herr, insertAll_of_build hb₂] at hsame
      exact hsame
    · obtain ⟨es₁, rfl, hes₁⟩ := hsource l₁ hl₁
      obtain ⟨es₂, rfl, hes₂⟩ := hsource l₂ hl₂
      obtain ⟨n, u, u', hu, hu', htells⟩ := exists_tells hpart
      have ht₁ : Distinct t₁ := build_distinct distinct_nil hb₁
      have ht₂ : Distinct t₂ := build_distinct distinct_nil hb₂
      have hsame := h (keeping n) es₁ es₂ hes₁ hes₂
      rw [insertAll_of_build hb₁, insertAll_of_build hb₂] at hsame
      exact hash_of_nodes n htells hpart.inside ht₁ ht₂ (built_plain hb₁) (built_plain hb₂)
        hpart.outside hu hu' (hsame t₁ t₂ ⟨ht₁, fun _ => rfl⟩ ⟨ht₂, fun _ => rfl⟩)

/-- **The pair of hashes is free of the order of the entries exactly when no entry has the path of
another, or one that goes on from it.** -/
theorem order_free_iff (es : List Entry) : OrderFree es ↔ Orderly es :=
  ⟨orderly_of_order_free, order_free_of_orderly⟩

/-- A file, and the directory it is in, listed after it. -/
def listedAfter : List Entry :=
  [⟨[97, 47, 98], .leaf (.file false (List.replicate 20 1) (List.replicate 32 2))⟩, ⟨[97], .dir⟩]

theorem order_shows :
    (listedAfter.map Entry.path).Nodup ∧
      insertAll listedAfter [] = .ok [([97], .dir [])] ∧
      insertAll listedAfter.reverse [] = .ok [([97], .dir
        [([98], .leaf (.file false (List.replicate 20 1) (List.replicate 32 2)))])] ∧
      (∀ H, Function.Injective H.sha1 → Tree.hash H [([97], .dir [])] ≠ Tree.hash H [([97], .dir
        [([98], .leaf (.file false (List.replicate 20 1) (List.replicate 32 2)))])]) ∧
      ¬ OrderFree listedAfter := by
  have hpath : components [97, 47, 98] = [[97], [98]] :=
    components_joined (by simp [Plain, slash] : ∀ n ∈ [[97], [98]], Plain n)
  have hdir : components [97] = [[97]] :=
    components_joined (by simp [Plain, slash] : ∀ n ∈ [[97]], Plain n)
  have hfile : ∀ t node,
      Tree.insert t [97, 47, 98] node = insertParts [97, 47, 98] node [[97], [98]] t :=
    fun t node => by rw [Tree.insert, hpath]
  have hdirs : ∀ t node, Tree.insert t [97] node = insertParts [97] node [[97]] t :=
    fun t node => by rw [Tree.insert, hdir]
  have hfirst : insertAll listedAfter [] = .ok [([97], .dir [])] := by
    simp only [listedAfter, insertAll, hfile, hdirs]
    rfl
  have hlast : insertAll listedAfter.reverse [] = .ok [([97], .dir
      [([98], .leaf (.file false (List.replicate 20 1) (List.replicate 32 2)))])] := by
    simp only [listedAfter, List.reverse_cons, List.reverse_nil, List.nil_append,
      List.singleton_append, insertAll, hfile, hdirs]
    rfl
  have hhash : ∀ H, Function.Injective H.sha1 →
      Tree.hash H [([97], .dir [])] ≠ Tree.hash H [([97], .dir
        [([98], .leaf (.file false (List.replicate 20 1) (List.replicate 32 2)))])] := by
    intro H hinj heq
    have hrec := treeObject_inj (hinj (congrArg Prod.fst heq))
    simp only [records, treeItems, List.mergeSort_singleton, List.flatMap_singleton] at hrec
    obtain ⟨-, hsha1⟩ := record_inj rfl rfl hrec
    have hlen := congrArg List.length (treeObject_inj (hinj hsha1))
    simp [records, treeItems, nodeItem, Blob.item, Item.record] at hlen
  refine ⟨by decide, hfirst, hlast, hhash, fun h => ?_⟩
  have hsame := h (keeping 0) listedAfter listedAfter.reverse (List.Perm.refl _)
    (List.reverse_perm _)
  rw [hfirst, hlast] at hsame
  refine hhash (keeping 0) (fun a b hab => List.append_cancel_right hab) (hsame _ _ ?_ ?_)
  · exact ⟨build_distinct distinct_nil (insertAll_build hfirst), fun _ => rfl⟩
  · exact ⟨build_distinct distinct_nil (insertAll_build hlast), fun _ => rfl⟩

end Hashdex.Git
