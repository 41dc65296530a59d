import Mathlib

/-!
# Trees filled by path

A tree of named entries, filled by putting a node at a path: the directories on the way are made, and
what stood at the path is replaced.  A leaf on the way is an error.

* `kindAt_insertAt`: what an insertion does to every path
* `build_holds`: if no path continues another, the result has just what was put into it
* `order_free_of_clear`, `order_matters`: so it does not depend on the order, and only then
-/

namespace PathTree

/-- A leaf, or a directory with its entries. -/
inductive Node (ν α : Type*) where
  | leaf (a : α)
  | dir (entries : List (ν × Node ν α))

abbrev Tree (ν α : Type*) := List (ν × Node ν α)

/-- A node without what is below it. -/
inductive Kind (α : Type*) where
  | leaf (a : α)
  | dir
  deriving DecidableEq

section
variable {ν α : Type*}

def Node.kind : Node ν α → Kind α
  | .leaf a => .leaf a
  | .dir _ => .dir

/-- The node with nothing below it. -/
def Kind.node : Kind α → Node ν α
  | .leaf a => .leaf a
  | .dir => .dir []

/-- No entry has the path of another, or one that continues it. -/
def Clear (es : List (List ν × Kind α)) : Prop := ∀ x ∈ es, ∀ y ∈ es, x.1 <+: y.1 → x = y

theorem Clear.mono {es es' : List (List ν × Kind α)} (h : Clear es) (hsub : ∀ x ∈ es', x ∈ es) :
    Clear es' := fun x hx y hy => h x (hsub x hx) y (hsub y hy)

/-- Two different entries may come first. -/
theorem perm_two {es : List (List ν × Kind α)} {x y : List ν × Kind α} (hx : x ∈ es) (hy : y ∈ es)
    (hne : x ≠ y) : ∃ rest, (x :: y :: rest).Perm es := by
  obtain ⟨pre, post, rfl⟩ := List.append_of_mem hx
  have hy' : y ∈ pre ++ post := by
    rcases List.mem_append.mp hy with hy | hy
    · exact List.mem_append_left _ hy
    · exact List.mem_append_right _ ((List.mem_cons.mp hy).resolve_left (Ne.symm hne))
  obtain ⟨pre', post', hsplit⟩ := List.append_of_mem hy'
  refine ⟨pre' ++ post', (List.Perm.cons x ?_).trans List.perm_middle.symm⟩
  rw [hsplit]
  exact List.perm_middle.symm

/-- No directory has two entries of one name. -/
inductive Distinct : Tree ν α → Prop where
  | intro {t : Tree ν α} (names : (t.map Prod.fst).Nodup)
      (sub : ∀ n s, (n, .dir s) ∈ t → Distinct s) : Distinct t

theorem Distinct.names {t : Tree ν α} (h : Distinct t) : (t.map Prod.fst).Nodup := by
  cases h with
  | intro names _ => exact names

theorem Distinct.sub {t s : Tree ν α} {n : ν} (h : Distinct t) (hs : (n, .dir s) ∈ t) :
    Distinct s := by
  cases h with
  | intro _ sub => exact sub n s hs

theorem distinct_nil : Distinct ([] : Tree ν α) := ⟨List.nodup_nil, nofun⟩

theorem kind_node_distinct (k : Kind α) (s : Tree ν α) (h : k.node = .dir s) : Distinct s := by
  cases k with
  | leaf a => cases h
  | dir =>
    cases h
    exact distinct_nil

end

variable {ν α : Type*} [DecidableEq ν]

/-- The node of a name. -/
def get (t : Tree ν α) (n : ν) : Option (Node ν α) := t.lookup n

/-- Replace the node of a name, or add one. -/
def put (n : ν) (node : Node ν α) : Tree ν α → Tree ν α
  | [] => [(n, node)]
  | (m, old) :: rest => if m = n then (n, node) :: rest else (m, old) :: put n node rest

/-- The entries below a name, where a directory stands or one can be made. -/
def below (t : Tree ν α) (n : ν) : Option (Tree ν α) :=
  match (get t n).getD (.dir []) with
  | .dir sub => some sub
  | .leaf _ => none

def insertAt (node : Node ν α) : List ν → Tree ν α → Option (Tree ν α)
  | [], _ => none
  | [n], t => some (put n node t)
  | n :: m :: rest, t =>
    (below t n).bind fun sub =>
      (insertAt node (m :: rest) sub).map fun sub => put n (.dir sub) t

/-- What stands at a path. -/
def nodeAt : List ν → Tree ν α → Option (Node ν α)
  | [], t => some (.dir t)
  | n :: rest, t =>
    match get t n with
    | none => none
    | some (.leaf a) => if rest = [] then some (.leaf a) else none
    | some (.dir sub) => nodeAt rest sub

def kindAt (p : List ν) (t : Tree ν α) : Option (Kind α) := (nodeAt p t).map Node.kind

/-- Put all entries, one after the other. -/
def build : List (List ν × Kind α) → Tree ν α → Option (Tree ν α)
  | [], t => some t
  | (p, k) :: es, t => (insertAt k.node p t).bind (build es)

/-! ### Names -/

theorem get_cons (n m : ν) (node : Node ν α) (t : Tree ν α) :
    get ((n, node) :: t) m = if m = n then some node else get t m := by
  rw [get, List.lookup_cons]
  by_cases h : m = n
  · simp [h]
  · rw [if_neg h, beq_false_of_ne h]
    rfl

theorem get_put (n m : ν) (node : Node ν α) (t : Tree ν α) :
    get (put n node t) m = if m = n then some node else get t m := by
  induction t with
  | nil => exact get_cons n m node []
  | cons entry rest ih =>
    obtain ⟨l, old⟩ := entry
    rw [put]
    by_cases hl : l = n
    · subst hl
      rw [if_pos rfl, get_cons, get_cons]
      by_cases h : m = l
      · rw [if_pos h, if_pos h]
      · rw [if_neg h, if_neg h, if_neg h]
    · rw [if_neg hl, get_cons, get_cons, ih]
      by_cases h : m = l
      · rw [if_pos h, if_pos h, if_neg (h ▸ hl)]
      · rw [if_neg h, if_neg h]

theorem names_put (n : ν) (node : Node ν α) (t : Tree ν α) :
    (put n node t).map Prod.fst
      = if n ∈ t.map Prod.fst then t.map Prod.fst else t.map Prod.fst ++ [n] := by
  induction t with
  | nil => rfl
  | cons entry rest ih =>
    obtain ⟨l, old⟩ := entry
    rw [put]
    by_cases hl : l = n
    · subst hl
      simp
    · rw [if_neg hl, List.map_cons, ih]
      by_cases hn : n ∈ rest.map Prod.fst
      · simp [hn]
      · have hne : ¬ n = l := fun h => hl h.symm
        simp [hn, hne]

theorem mem_put {n : ν} {node : Node ν α} {t : Tree ν α} {entry : ν × Node ν α}
    (h : entry ∈ put n node t) : entry = (n, node) ∨ entry ∈ t := by
  induction t with
  | nil => exact Or.inl (List.mem_singleton.mp h)
  | cons first rest ih =>
    obtain ⟨l, old⟩ := first
    rw [put] at h
    split at h
    · rcases List.mem_cons.mp h with heq | hmem
      · exact Or.inl heq
      · exact Or.inr (List.mem_cons_of_mem _ hmem)
    · rcases List.mem_cons.mp h with heq | hmem
      · exact Or.inr (heq ▸ List.mem_cons_self)
      · exact (ih hmem).imp_right (List.mem_cons_of_mem _)

theorem get_eq_some_iff {t : Tree ν α} (h : (t.map Prod.fst).Nodup) {n : ν} {node : Node ν α} :
    get t n = some node ↔ (n, node) ∈ t := by
  induction t with
  | nil => simp [get]
  | cons entry rest ih =>
    obtain ⟨l, old⟩ := entry
    rw [List.map_cons, List.nodup_cons] at h
    rw [get_cons]
    by_cases hn : n = l
    · subst hn
      have hfresh : (n, node) ∉ rest := fun hmem => h.1 (List.mem_map.mpr ⟨_, hmem, rfl⟩)
      simp [hfresh, eq_comm]
    · simp [ih h.2, hn]

theorem below_some {t s : Tree ν α} {n : ν} (h : below t n = some s) :
    get t n = some (.dir s) ∨ get t n = none ∧ s = [] := by
  rw [below] at h
  cases hl : get t n with
  | none =>
    rw [hl] at h
    cases h
    exact Or.inr ⟨rfl, rfl⟩
  | some node =>
    rw [hl] at h
    cases node with
    | leaf a => cases h
    | dir sub =>
      cases h
      exact Or.inl rfl

theorem put_distinct {n : ν} {node : Node ν α} {t : Tree ν α} (ht : Distinct t)
    (hnode : ∀ s, node = .dir s → Distinct s) : Distinct (put n node t) := by
  refine ⟨?_, ?_⟩
  · rw [names_put]
    split
    · exact ht.names
    · next hn => exact List.nodup_append.mpr ⟨ht.names, List.nodup_singleton n, by
        intro a ha b hb heq
        exact hn (List.mem_singleton.mp hb ▸ heq ▸ ha)⟩
  · intro m s hs
    rcases mem_put hs with heq | hmem
    · exact hnode s (Prod.mk.inj heq).2.symm
    · exact ht.sub hmem

/-- An insertion keeps names distinct. -/
theorem insertAt_distinct {node : Node ν α} (hnode : ∀ s, node = .dir s → Distinct s) {p : List ν}
    {t t' : Tree ν α} (ht : Distinct t) (h : insertAt node p t = some t') : Distinct t' := by
  induction p generalizing t t' with
  | nil => cases h
  | cons n rest ih =>
    cases rest with
    | nil =>
      cases h
      exact put_distinct ht hnode
    | cons m rest =>
      obtain ⟨s, hs, h⟩ := Option.bind_eq_some_iff.mp h
      obtain ⟨s', hs', rfl⟩ := Option.map_eq_some_iff.mp h
      have hsub : Distinct s := by
        rcases below_some hs with hl | ⟨-, rfl⟩
        · exact ht.sub ((get_eq_some_iff ht.names).mp hl)
        · exact distinct_nil
      exact put_distinct ht fun s hdir => by
        cases hdir
        exact ih hsub hs'

theorem build_distinct {es : List (List ν × Kind α)} {t t' : Tree ν α} (ht : Distinct t)
    (h : build es t = some t') : Distinct t' := by
  induction es generalizing t with
  | nil =>
    cases h
    exact ht
  | cons e es ih =>
    obtain ⟨u, hu, h⟩ := Option.bind_eq_some_iff.mp h
    exact ih (insertAt_distinct (kind_node_distinct e.2) ht hu) h

/-! ### What stands where -/

@[simp] theorem kindAt_root (t : Tree ν α) : kindAt [] t = some .dir := rfl

theorem kindAt_cons (n : ν) (rest : List ν) (t : Tree ν α) :
    kindAt (n :: rest) t =
      match get t n with
      | none => none
      | some (.leaf a) => if rest = [] then some (.leaf a) else none
      | some (.dir s) => kindAt rest s := by
  rw [kindAt, nodeAt]
  cases get t n with
  | none => rfl
  | some node =>
    cases node with
    | leaf a =>
      by_cases h : rest = []
      · simp only [if_pos h, Option.map_some, Node.kind]
      · simp only [if_neg h, Option.map_none]
    | dir s => rfl

theorem kindAt_cons_nil (n : ν) (rest : List ν) : kindAt (n :: rest) ([] : Tree ν α) = none := rfl

theorem kindAt_put_ne {n m : ν} (h : m ≠ n) (rest : List ν) (node : Node ν α) (t : Tree ν α) :
    kindAt (m :: rest) (put n node t) = kindAt (m :: rest) t := by
  rw [kindAt_cons, kindAt_cons, get_put, if_neg h]

theorem kindAt_put_dir (n : ν) (rest : List ν) (s t : Tree ν α) :
    kindAt (n :: rest) (put n (.dir s) t) = kindAt rest s := by
  rw [kindAt_cons, get_put, if_pos rfl]

theorem kindAt_put_kind (n : ν) (rest : List ν) (k : Kind α) (t : Tree ν α) :
    kindAt (n :: rest) (put n k.node t) = if rest = [] then some k else none := by
  rw [kindAt_cons, get_put, if_pos rfl]
  cases k with
  | leaf a => rfl
  | dir =>
    cases rest with
    | nil => rfl
    | cons m rest => rfl

/-- A path through a name that can be gone below. -/
theorem kindAt_below {t s : Tree ν α} {n : ν} (h : below t n = some s) {q : List ν} (hq : q ≠ []) :
    kindAt (n :: q) t = kindAt q s := by
  rw [kindAt_cons]
  rcases below_some h with hl | ⟨hl, rfl⟩
  · rw [hl]
  · rw [hl]
    obtain ⟨m, rest, rfl⟩ := List.exists_cons_of_ne_nil hq
    rfl

/-- **What an insertion does to every path:** the node stands at its own, nothing below it,
directories above it, and what stood elsewhere stands there still. -/
theorem kindAt_insertAt {k : Kind α} {p : List ν} {t t' : Tree ν α}
    (h : insertAt k.node p t = some t') (q : List ν) :
    kindAt q t' =
      if p <+: q then (if q = p then some k else none)
      else if q <+: p then some .dir else kindAt q t := by
  induction p generalizing t t' q with
  | nil => cases h
  | cons n rest ih =>
    cases q with
    | nil => simp
    | cons x q =>
      by_cases hx : x = n
      · subst hx
        simp only [List.cons_prefix_cons, true_and, List.cons.injEq]
        cases rest with
        | nil =>
          cases h
          rw [kindAt_put_kind, if_pos List.nil_prefix]
        | cons m rest =>
          obtain ⟨s, hs, h⟩ := Option.bind_eq_some_iff.mp h
          obtain ⟨s', hs', rfl⟩ := Option.map_eq_some_iff.mp h
          rw [kindAt_put_dir, ih hs' q]
          by_cases hq : q = []
          · subst hq
            simp
          · rw [kindAt_below hs hq]
      · have hp : ¬ n :: rest <+: x :: q := fun hpre => hx (List.cons_prefix_cons.mp hpre).1.symm
        have hq : ¬ x :: q <+: n :: rest := fun hpre => hx (List.cons_prefix_cons.mp hpre).1
        rw [if_neg hp, if_neg hq]
        cases rest with
        | nil =>
          cases h
          exact kindAt_put_ne hx q k.node t
        | cons m rest =>
          obtain ⟨s, hs, h⟩ := Option.bind_eq_some_iff.mp h
          obtain ⟨s', hs', rfl⟩ := Option.map_eq_some_iff.mp h
          exact kindAt_put_ne hx q (.dir s') t

/-- A path without a leaf on the way can be filled. -/
theorem insertAt_of_no_leaf (node : Node ν α) {p : List ν} {t : Tree ν α} (hp : p ≠ [])
    (h : ∀ q a, q <+: p → q ≠ p → kindAt q t ≠ some (.leaf a)) :
    ∃ t', insertAt node p t = some t' := by
  induction p generalizing t with
  | nil => exact absurd rfl hp
  | cons n rest ih =>
    cases rest with
    | nil => exact ⟨_, rfl⟩
    | cons m rest =>
      have hbelow : ∃ s, below t n = some s := by
        rw [below]
        cases hl : get t n with
        | none => exact ⟨[], rfl⟩
        | some old =>
          cases old with
          | dir s => exact ⟨s, rfl⟩
          | leaf a =>
            have hleaf : kindAt [n] t = some (.leaf a) := by
              rw [kindAt_cons, hl]
              rfl
            refine absurd hleaf (h [n] a ?_ (by simp))
            exact List.cons_prefix_cons.mpr ⟨rfl, List.nil_prefix⟩
      obtain ⟨s, hs⟩ := hbelow
      obtain ⟨s', hs'⟩ := ih (List.cons_ne_nil m rest) fun q a hpre hne hleaf => by
        have hq : q ≠ [] := by
          rintro rfl
          simp at hleaf
        refine h (n :: q) a (List.cons_prefix_cons.mpr ⟨rfl, hpre⟩) (fun heq => hne ?_) ?_
        · exact (List.cons.inj heq).2
        · rw [kindAt_below hs hq]
          exact hleaf
      exact ⟨put n (.dir s') t, by rw [insertAt, hs, Option.bind_some, hs', Option.map_some]⟩

/-- Nothing can be put below a leaf. -/
theorem insertAt_of_leaf (node : Node ν α) {p q : List ν} {t : Tree ν α} {a : α} (hpre : q <+: p)
    (hne : q ≠ p) (h : kindAt q t = some (.leaf a)) : insertAt node p t = none := by
  induction p generalizing q t with
  | nil => exact absurd (List.prefix_nil.mp hpre) hne
  | cons n rest ih =>
    cases q with
    | nil => simp at h
    | cons x q =>
      obtain ⟨rfl, hrest⟩ := List.cons_prefix_cons.mp hpre
      have hne' : q ≠ rest := fun heq => hne (by rw [heq])
      cases rest with
      | nil => exact absurd (List.prefix_nil.mp hrest) hne'
      | cons m rest =>
        rw [insertAt]
        cases hs : below t x with
        | none => rfl
        | some s =>
          rw [Option.bind_some, Option.map_eq_none_iff]
          by_cases hq : q = []
          · -- the leaf is right here, so there is no going below
            subst hq
            rw [kindAt_cons] at h
            rcases below_some hs with hl | ⟨hl, -⟩
            · rw [hl] at h
              cases h
            · rw [hl] at h
              cases h
          · exact ih hrest hne' ((kindAt_below hs hq).symm.trans h)

/-- All names in the tree are of a kind. -/
def Within (P : ν → Prop) (t : Tree ν α) : Prop := ∀ q, kindAt q t ≠ none → ∀ n ∈ q, P n

theorem within_nil (P : ν → Prop) : Within P ([] : Tree ν α) := by
  intro q hq n hn
  cases q with
  | nil => cases hn
  | cons m rest => exact absurd rfl hq

theorem Within.sub {P : ν → Prop} {t s : Tree ν α} {n : ν} (h : Within P t)
    (hs : get t n = some (.dir s)) : Within P s := by
  intro q hq m hm
  refine h (n :: q) ?_ m (List.mem_cons_of_mem _ hm)
  rw [kindAt_cons, hs]
  exact hq

/-- A tree built of paths with such names has only such names. -/
theorem build_within {P : ν → Prop} {es : List (List ν × Kind α)} {t t' : Tree ν α}
    (hes : ∀ e ∈ es, ∀ n ∈ e.1, P n) (ht : Within P t) (h : build es t = some t') :
    Within P t' := by
  induction es generalizing t with
  | nil =>
    cases h
    exact ht
  | cons e es ih =>
    obtain ⟨u, hu, h⟩ := Option.bind_eq_some_iff.mp h
    have he := hes e List.mem_cons_self
    refine ih (fun x hx => hes x (List.mem_cons_of_mem _ hx)) (fun q hq n hn => ?_) h
    rw [kindAt_insertAt hu q] at hq
    split at hq
    · split at hq
      · next heq => exact he n (heq ▸ hn)
      · exact absurd rfl hq
    · split at hq
      · next hpre => exact he n (hpre.subset hn)
      · exact ht q hq n hn

/-! ### Any order -/

/-- What stands in the tree is the entries, and the directories above them. -/
def Holds (t : Tree ν α) (es : List (List ν × Kind α)) : Prop :=
  ∀ q k, kindAt q t = some k ↔
    (q, k) ∈ es ∨ k = .dir ∧ (q = [] ∨ ∃ e ∈ es, q <+: e.1 ∧ q ≠ e.1)

theorem holds_nil : Holds ([] : Tree ν α) [] := by
  intro q k
  cases q with
  | nil => simp [eq_comm]
  | cons n rest => simp [kindAt_cons_nil]

theorem insertAt_holds {x : List ν × Kind α} {es : List (List ν × Kind α)} {t : Tree ν α}
    (hclear : Clear (x :: es)) (hx : x.1 ≠ []) (h : Holds t es) :
    ∃ t', insertAt x.2.node x.1 t = some t' ∧ Holds t' (x :: es) := by
  have hxmem : x ∈ x :: es := List.mem_cons_self
  have hleaf : ∀ q a, q <+: x.1 → q ≠ x.1 → kindAt q t ≠ some (.leaf a) := by
    intro q a hpre hne hq
    rcases (h q (.leaf a)).mp hq with hmem | ⟨hk, -⟩
    · exact hne (congrArg Prod.fst (hclear _ (List.mem_cons_of_mem _ hmem) x hxmem hpre))
    · cases hk
  obtain ⟨t', ht'⟩ := insertAt_of_no_leaf x.2.node hx hleaf
  refine ⟨t', ht', fun q k => ?_⟩
  rw [kindAt_insertAt ht' q]
  by_cases hxq : x.1 <+: q
  · rw [if_pos hxq]
    by_cases hq : q = x.1
    · -- at the path itself nothing else was put
      subst hq
      rw [if_pos rfl]
      constructor
      · rintro ⟨⟩
        exact Or.inl hxmem
      · rintro (hmem | ⟨-, hnil | ⟨y, hy, hpre, hne⟩⟩)
        · exact congrArg some (congrArg Prod.snd (hclear x hxmem _ hmem List.prefix_rfl))
        · exact absurd hnil hx
        · exact absurd (congrArg Prod.fst (hclear x hxmem y hy hpre)) hne
    · rw [if_neg hq]
      constructor
      · rintro ⟨⟩
      · rintro (hmem | ⟨-, hnil | ⟨y, hy, hpre, -⟩⟩)
        · exact absurd (congrArg Prod.fst (hclear x hxmem _ hmem hxq)).symm hq
        · exact absurd (List.prefix_nil.mp (hnil ▸ hxq)) hx
        · have hy' := hclear x hxmem y hy (hxq.trans hpre)
          subst hy'
          exact absurd (hpre.eq_of_length_le hxq.length_le) hq
  · rw [if_neg hxq]
    have hself : (q, k) ∈ x :: es ↔ (q, k) ∈ es := by
      refine ⟨fun hmem => (List.mem_cons.mp hmem).resolve_left fun heq => ?_,
        List.mem_cons_of_mem _⟩
      subst heq
      exact hxq List.prefix_rfl
    by_cases hqx : q <+: x.1
    · have hne : q ≠ x.1 := fun heq => hxq (heq ▸ List.prefix_rfl)
      rw [if_pos hqx]
      constructor
      · rintro ⟨⟩
        exact Or.inr ⟨rfl, Or.inr ⟨x, hxmem, hqx, hne⟩⟩
      · rintro (hmem | ⟨rfl, -⟩)
        · exact absurd (congrArg Prod.fst (hclear _ hmem x hxmem hqx)) hne
        · rfl
    · rw [if_neg hqx, h q k, hself]
      refine or_congr_right (and_congr_right fun _ => or_congr_right ?_)
      constructor
      · rintro ⟨y, hy, hpre⟩
        exact ⟨y, List.mem_cons_of_mem _ hy, hpre⟩
      · rintro ⟨y, hy, hpre⟩
        rcases List.mem_cons.mp hy with rfl | hy
        · exact absurd hpre.1 hqx
        · exact ⟨y, hy, hpre⟩

/-- **Entries none of which continues another can be put in any order**, and the tree holds them. -/
theorem build_holds {es done : List (List ν × Kind α)} {t : Tree ν α}
    (hclear : Clear (es.reverse ++ done)) (hnil : ∀ e ∈ es, e.1 ≠ []) (h : Holds t done) :
    ∃ t', build es t = some t' ∧ Holds t' (es.reverse ++ done) := by
  induction es generalizing t done with
  | nil => exact ⟨t, rfl, h⟩
  | cons e es ih =>
    rw [List.reverse_cons, List.append_assoc, List.singleton_append] at hclear ⊢
    obtain ⟨t', ht', hholds⟩ := insertAt_holds (hclear.mono fun x => List.mem_append_right _)
      (hnil e List.mem_cons_self) h
    obtain ⟨u, hu, hfinal⟩ := ih hclear (fun x hx => hnil x (List.mem_cons_of_mem _ hx)) hholds
    exact ⟨u, by rw [build, ht', Option.bind_some, hu], hfinal⟩

/-- What stands in a tree is settled by the entries it holds, in whatever order they are listed. -/
theorem kindAt_of_holds {t t' : Tree ν α} {es es' : List (List ν × Kind α)} (h : Holds t es)
    (h' : Holds t' es') (hsame : ∀ x, x ∈ es ↔ x ∈ es') (q : List ν) : kindAt q t = kindAt q t' := by
  refine Option.ext fun k => ?_
  rw [h q k, h' q k]
  simp only [hsame]

theorem order_free_of_clear {es es' : List (List ν × Kind α)} (hclear : Clear es)
    (hnil : ∀ e ∈ es, e.1 ≠ []) (hperm : es'.Perm es) :
    ∃ t t', build es [] = some t ∧ build es' [] = some t' ∧ ∀ q, kindAt q t = kindAt q t' := by
  have hall : ∀ es', es'.Perm es → ∃ t, build es' [] = some t ∧ Holds t (es'.reverse ++ []) := by
    intro es' hperm
    refine build_holds (hclear.mono fun x hx => ?_) (fun e he => hnil e (hperm.mem_iff.mp he))
      holds_nil
    rw [List.append_nil, List.mem_reverse] at hx
    exact hperm.mem_iff.mp hx
  obtain ⟨t, ht, hholds⟩ := hall es (List.Perm.refl es)
  obtain ⟨t', ht', hholds'⟩ := hall es' hperm
  refine ⟨t, t', ht, ht', kindAt_of_holds hholds hholds' fun x => ?_⟩
  simp [hperm.mem_iff]

theorem build_of_nil {es : List (List ν × Kind α)} (h : ∃ e ∈ es, e.1 = []) (t : Tree ν α) :
    build es t = none := by
  induction es generalizing t with
  | nil =>
    obtain ⟨e, he, -⟩ := h
    cases he
  | cons e es ih =>
    obtain ⟨p, k⟩ := e
    rw [build]
    cases hins : insertAt k.node p t with
    | none => rfl
    | some t' =>
      obtain ⟨x, hx, hxnil⟩ := h
      rcases List.mem_cons.mp hx with rfl | hx
      · have hp : p = [] := hxnil
        subst hp
        cases hins
      · exact ih ⟨x, hx, hxnil⟩ t'

/-! ### Where the order matters -/

/-- Every leaf of the tree was put there. -/
def LeavesOf (t : Tree ν α) (es : List (List ν × Kind α)) : Prop :=
  ∀ q a, kindAt q t = some (.leaf a) → (q, .leaf a) ∈ es

theorem leavesOf_nil : LeavesOf ([] : Tree ν α) [] := by
  intro q a h
  cases q with
  | nil => cases h
  | cons n rest => cases h

theorem insertAt_leaves {x : List ν × Kind α} {es : List (List ν × Kind α)} {t t' : Tree ν α}
    (h : insertAt x.2.node x.1 t = some t') (hleaves : LeavesOf t es) : LeavesOf t' (x :: es) := by
  intro q a hq
  rw [kindAt_insertAt h q] at hq
  split at hq
  · split at hq
    · next heq =>
      subst heq
      have hk := Option.some.inj hq
      exact hk ▸ List.mem_cons_self
    · cases hq
  · split at hq
    · cases hq
    · exact List.mem_cons_of_mem _ (hleaves q a hq)

/-- A leaf, and a path that goes on below it. -/
def Blocks (x y : List ν × Kind α) : Prop := (∃ a, x.2 = .leaf a) ∧ x.1 <+: y.1 ∧ x.1 ≠ y.1

/-- As long as no leaf comes before what goes below it, nothing fails. -/
theorem build_of_pairwise {es done : List (List ν × Kind α)} {t : Tree ν α}
    (hnil : ∀ e ∈ es, e.1 ≠ []) (hes : es.Pairwise fun x y => ¬ Blocks x y)
    (hdone : ∀ x ∈ done, ∀ y ∈ es, ¬ Blocks x y) (hleaves : LeavesOf t done) :
    ∃ t', build es t = some t' := by
  induction es generalizing t done with
  | nil => exact ⟨t, rfl⟩
  | cons e es ih =>
    obtain ⟨hfirst, hrest⟩ := List.pairwise_cons.mp hes
    have hclear : ∀ q a, q <+: e.1 → q ≠ e.1 → kindAt q t ≠ some (.leaf a) := by
      intro q a hpre hne hq
      exact hdone _ (hleaves q a hq) e List.mem_cons_self ⟨⟨a, rfl⟩, hpre, hne⟩
    obtain ⟨t', ht'⟩ := insertAt_of_no_leaf e.2.node (hnil e List.mem_cons_self) hclear
    have hdone' : ∀ x ∈ e :: done, ∀ y ∈ es, ¬ Blocks x y := by
      intro x hx y hy
      rcases List.mem_cons.mp hx with rfl | hx
      · exact hfirst y hy
      · exact hdone x hx y (List.mem_cons_of_mem _ hy)
    obtain ⟨u, hu⟩ := ih (fun x hx => hnil x (List.mem_cons_of_mem _ hx)) hrest hdone'
      (insertAt_leaves ht' hleaves)
    exact ⟨u, by rw [build, ht', Option.bind_some, hu]⟩

/-- Deepest paths first, nothing fails. -/
theorem build_deepest_first {es : List (List ν × Kind α)} (hnil : ∀ e ∈ es, e.1 ≠ []) :
    ∃ es' t, es'.Perm es ∧ build es' [] = some t := by
  let deeper : List ν × Kind α → List ν × Kind α → Bool := fun x y =>
    decide (y.1.length ≤ x.1.length)
  have hperm := List.mergeSort_perm es deeper
  have hsorted : (es.mergeSort deeper).Pairwise fun x y => deeper x y = true := by
    apply List.pairwise_mergeSort
    · intro a b c hab hbc
      simp only [deeper, decide_eq_true_eq] at hab hbc ⊢
      omega
    · intro a b
      simp only [deeper, Bool.or_eq_true, decide_eq_true_eq]
      omega
  have hpairwise : (es.mergeSort deeper).Pairwise fun x y => ¬ Blocks x y := by
    refine hsorted.imp fun {x y} hxy hblocks => ?_
    simp only [deeper, decide_eq_true_eq] at hxy
    exact hblocks.2.2 (hblocks.2.1.eq_of_length_le hxy)
  obtain ⟨t, ht⟩ := build_of_pairwise (fun e he => hnil e (hperm.mem_iff.mp he)) hpairwise
    (by simp) leavesOf_nil
  exact ⟨_, t, hperm, ht⟩

/-- A leaf put first, what goes below it fails. -/
theorem build_blocked {x y : List ν × Kind α} (h : Blocks x y)
    (es : List (List ν × Kind α)) : build (x :: y :: es) [] = none := by
  obtain ⟨⟨a, ha⟩, hpre, hne⟩ := h
  cases hins : insertAt x.2.node x.1 ([] : Tree ν α) with
  | none => rw [build, hins, Option.bind_none]
  | some t =>
    have hleaf : kindAt x.1 t = some (.leaf a) := by
      rw [kindAt_insertAt hins, if_pos List.prefix_rfl, if_pos rfl, ha]
    rw [build, hins, Option.bind_some, build, insertAt_of_leaf y.2.node hpre hne hleaf,
      Option.bind_none]

theorem build_append (es es' : List (List ν × Kind α)) (t : Tree ν α) :
    build (es ++ es') t = (build es t).bind (build es') := by
  induction es generalizing t with
  | nil => rfl
  | cons e es ih =>
    rw [List.cons_append, build, build]
    cases insertAt e.2.node e.1 t with
    | none => rfl
    | some u => exact ih u

theorem nodeAt_insertAt {node : Node ν α} {p : List ν} {t t' : Tree ν α}
    (h : insertAt node p t = some t') : nodeAt p t' = some node := by
  induction p generalizing t t' with
  | nil => cases h
  | cons n rest ih =>
    cases rest with
    | nil =>
      cases h
      rw [nodeAt, get_put, if_pos rfl]
      cases node with
      | leaf a => rfl
      | dir s => rfl
    | cons m rest =>
      obtain ⟨s, hs, h⟩ := Option.bind_eq_some_iff.mp h
      obtain ⟨s', hs', rfl⟩ := Option.map_eq_some_iff.mp h
      rw [nodeAt, get_put, if_pos rfl]
      exact ih hs'

theorem nodeAt_singleton (n : ν) (t : Tree ν α) : nodeAt [n] t = get t n := by
  rw [nodeAt]
  cases get t n with
  | none => rfl
  | some node =>
    cases node with
    | leaf a => rfl
    | dir s => rfl

/-- A longer path goes through a directory. -/
theorem nodeAt_through {n : ν} {rest : List ν} (hrest : rest ≠ []) {t : Tree ν α} {node : Node ν α}
    (h : nodeAt (n :: rest) t = some node) :
    ∃ s, get t n = some (.dir s) ∧ nodeAt rest s = some node := by
  rw [nodeAt] at h
  cases hget : get t n with
  | none =>
    rw [hget] at h
    cases h
  | some first =>
    rw [hget] at h
    cases first with
    | leaf a =>
      dsimp only at h
      rw [if_neg hrest] at h
      cases h
    | dir s => exact ⟨s, rfl, h⟩

/-- Below a directory paths go on inside it. -/
theorem nodeAt_append {p : List ν} {t s : Tree ν α} (h : nodeAt p t = some (.dir s)) (q : List ν) :
    nodeAt (p ++ q) t = nodeAt q s := by
  induction p generalizing t with
  | nil =>
    cases h
    rfl
  | cons n rest ih =>
    rw [nodeAt] at h
    rw [List.cons_append, nodeAt]
    cases hl : get t n with
    | none =>
      rw [hl] at h
      cases h
    | some node =>
      rw [hl] at h
      cases node with
      | leaf a =>
        dsimp only at h
        split at h
        · cases h
        · cases h
      | dir sub => exact ih h

/-- Two trees that are the same outside a path, where they hold different nodes: a directory with
something in it and an empty one, or nodes with nothing below them. -/
structure PartAt (c : List ν) (t t' : Tree ν α) : Prop where
  inside : c ≠ []
  outside : ∀ q, ¬ c <+: q → kindAt q t = kindAt q t'
  differ : (∃ s, s ≠ [] ∧ nodeAt c t = some (.dir s) ∧ nodeAt c t' = some (.dir [])) ∨
    ∃ k k' : Kind α, k ≠ k' ∧ nodeAt c t = some k.node ∧ nodeAt c t' = some k'.node

/-- Two entries, put in both orders. -/
theorem insert_both_orders {x y : List ν × Kind α} (hne : x ≠ y) (hpre : x.1 <+: y.1)
    (hx : x.1 ≠ []) (hxy : ¬ Blocks x y) {t t₁ t₂ u₁ u₂ : Tree ν α}
    (h₁ : insertAt x.2.node x.1 t = some t₁) (h₁' : insertAt y.2.node y.1 t₁ = some u₁)
    (h₂ : insertAt y.2.node y.1 t = some t₂) (h₂' : insertAt x.2.node x.1 t₂ = some u₂) :
    PartAt x.1 u₁ u₂ := by
  refine ⟨hx, fun q hq => ?_, ?_⟩
  · have hyq : ¬ y.1 <+: q := fun h => hq (hpre.trans h)
    rw [kindAt_insertAt h₁', kindAt_insertAt h₁, kindAt_insertAt h₂', kindAt_insertAt h₂,
      if_neg hyq, if_neg hq, if_neg hq, if_neg hyq]
    by_cases hqx : q <+: x.1
    · rw [if_pos (hqx.trans hpre), if_pos hqx]
    · rw [if_neg hqx, if_neg hqx]
  · by_cases heq : x.1 = y.1
    · refine Or.inr ⟨y.2, x.2, fun hk => hne (Prod.ext heq hk.symm), ?_, nodeAt_insertAt h₂'⟩
      rw [heq]
      exact nodeAt_insertAt h₁'
    · -- the upper entry is a directory
      have hdir : x.2 = .dir := by
        cases hk : x.2 with
        | dir => rfl
        | leaf a => exact absurd ⟨⟨a, hk⟩, hpre, heq⟩ hxy
      obtain ⟨r, hr⟩ := hpre
      have hrne : r ≠ [] := by
        rintro rfl
        exact heq (by rw [← hr, List.append_nil])
      have hnode : nodeAt x.1 u₂ = some (.dir []) := by
        rw [nodeAt_insertAt h₂', hdir]
        rfl
      have hkind : kindAt x.1 u₁ = some .dir := by
        rw [kindAt_insertAt h₁', if_neg fun h => heq (h.eq_of_length_le
          (List.IsPrefix.length_le ⟨r, hr⟩)).symm, if_pos ⟨r, hr⟩]
      obtain ⟨node, hs, hdirkind⟩ := Option.map_eq_some_iff.mp hkind
      cases node with
      | leaf a => cases hdirkind
      | dir s =>
        refine Or.inl ⟨s, ?_, hs, hnode⟩
        rintro rfl
        have hat : nodeAt y.1 u₁ = nodeAt r [] := by
          rw [← hr]
          exact nodeAt_append hs r
        rw [nodeAt_insertAt h₁'] at hat
        obtain ⟨n, rest, rfl⟩ := List.exists_cons_of_ne_nil hrne
        cases hat

/-- The last two steps of an order that fails nowhere. -/
theorem build_last_two {es rest : List (List ν × Kind α)} {a b : List ν × Kind α}
    (hnil : ∀ e ∈ es, e.1 ≠ []) (hfree : ∀ x ∈ es, ∀ y ∈ es, ¬ Blocks x y)
    (hperm : (a :: b :: rest).Perm es) :
    ∃ t t₁ u, build rest [] = some t ∧ insertAt a.2.node a.1 t = some t₁ ∧
      insertAt b.2.node b.1 t₁ = some u ∧ build (rest ++ [a, b]) [] = some u ∧
      (rest ++ [a, b]).Perm es := by
  have hlast : (rest ++ [a, b]).Perm es := List.perm_append_comm.trans hperm
  obtain ⟨u, hu⟩ := build_of_pairwise (fun e he => hnil e (hlast.mem_iff.mp he))
    (List.pairwise_of_forall_mem_list fun c hc d hd =>
      hfree c (hlast.mem_iff.mp hc) d (hlast.mem_iff.mp hd)) (by simp) leavesOf_nil
  have hbuild := hu
  rw [build_append] at hu
  obtain ⟨t, ht, hu⟩ := Option.bind_eq_some_iff.mp hu
  rw [build] at hu
  obtain ⟨t₁, ht₁, hu⟩ := Option.bind_eq_some_iff.mp hu
  rw [build] at hu
  obtain ⟨u', hu', hend⟩ := Option.bind_eq_some_iff.mp hu
  cases hend
  exact ⟨t, t₁, u, ht, ht₁, hu', hbuild, hlast⟩

/-- **If an entry continues another, the order matters**: some order fails where another does not,
or two orders end in trees that differ at one path. -/
theorem order_matters {es : List (List ν × Kind α)} (hnil : ∀ e ∈ es, e.1 ≠ []) (h : ¬ Clear es) :
    (∃ es₁ es₂ t, es₁.Perm es ∧ es₂.Perm es ∧ build es₁ [] = none ∧ build es₂ [] = some t) ∨
      ∃ es₁ es₂ t₁ t₂ c, es₁.Perm es ∧ es₂.Perm es ∧ build es₁ [] = some t₁ ∧
        build es₂ [] = some t₂ ∧ PartAt c t₁ t₂ := by
  by_cases hblocks : ∃ x ∈ es, ∃ y ∈ es, Blocks x y
  · obtain ⟨x, hx, y, hy, hxy⟩ := hblocks
    have hne : x ≠ y := by
      rintro rfl
      exact hxy.2.2 rfl
    obtain ⟨rest, hperm⟩ := perm_two hx hy hne
    obtain ⟨es', t, hperm', ht⟩ := build_deepest_first hnil
    exact Or.inl ⟨_, es', t, hperm, hperm', build_blocked hxy rest, ht⟩
  · have hfree : ∀ x ∈ es, ∀ y ∈ es, ¬ Blocks x y := fun x hx y hy hxy =>
      hblocks ⟨x, hx, y, hy, hxy⟩
    rw [Clear] at h
    push Not at h
    obtain ⟨x, hx, y, hy, hpre, hne⟩ := h
    obtain ⟨rest, hperm⟩ := perm_two hx hy hne
    obtain ⟨t, t₁, u₁, ht, h₁, h₁', hb₁, hp₁⟩ := build_last_two hnil hfree hperm
    obtain ⟨t', t₂, u₂, ht', h₂, h₂', hb₂, hp₂⟩ :=
      build_last_two hnil hfree ((List.Perm.swap x y rest).trans hperm)
    rw [ht] at ht'
    cases ht'
    exact Or.inr ⟨_, _, u₁, u₂, x.1, hp₁, hp₂, hb₁, hb₂,
      insert_both_orders hne hpre (hnil x hx) (hfree x hx y hy) h₁ h₁' h₂ h₂'⟩

end PathTree
