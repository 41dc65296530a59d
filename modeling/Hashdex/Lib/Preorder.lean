import Mathlib

/-!
# The preorder of a forest

A forest has each node's parent, and each node's children in some order.

* `tree_eq`, `mem_tree`: a node, then what is below it, child by child
* `nodup_flatMap`, `exists_split`: the trees of siblings have nothing in common, and each node's tree is
  in one piece
* `takeWhile_split`: of what follows a node, its tree is what is deeper than it
* `drain_eq`: the traversal by a stack
* `tree_map`: relabelling
-/

namespace Preorder

/-- `height` falls from a node to its children. -/
structure Forest (α : Type*) where
  parent : α → Option α
  kids : α → List α
  height : α → ℕ
  mem_kids : ∀ k a, k ∈ kids a ↔ parent k = some a
  nodup_kids : ∀ a, (kids a).Nodup
  height_lt : ∀ k a, parent k = some a → height k < height a

namespace Forest

variable {α β : Type*} (F : Forest α)

/-- `x` is `a` or below it. -/
def Under (x a : α) : Prop := Relation.ReflTransGen (fun k p => F.parent k = some p) x a

/-- A node and what is so many levels below it. -/
def walk : ℕ → α → List α
  | 0, _ => []
  | levels + 1, a => a :: (F.kids a).flatMap (walk levels)

def tree (a : α) : List α := F.walk (F.height a + 1) a

variable {F} {a b k p x y : α}

/-- From the leaves up. -/
theorem induction {P : α → Prop} (step : ∀ a, (∀ k ∈ F.kids a, P k) → P a) (a : α) : P a := by
  induction h : F.height a using Nat.strongRecOn generalizing a with
  | ind n ih =>
    apply step
    intro k hk
    have hlt : F.height k < n := by
      rw [← h]
      exact F.height_lt k a ((F.mem_kids k a).mp hk)
    exact ih _ hlt k rfl

theorem walk_eq (F : Forest α) {m n : ℕ} : ∀ {a : α}, F.height a < m → F.height a < n →
    F.walk m a = F.walk n a := by
  induction m generalizing n with
  | zero =>
    intro a hm
    omega
  | succ m ih =>
    intro a hm hn
    cases n with
    | zero => omega
    | succ n =>
      have hkids : ∀ k ∈ F.kids a, F.walk m k = F.walk n k := by
        intro k hk
        have hlt := F.height_lt k a ((F.mem_kids k a).mp hk)
        exact ih (by omega) (by omega)
      show a :: (F.kids a).flatMap (F.walk m) = a :: (F.kids a).flatMap (F.walk n)
      rw [List.flatMap_congr hkids]

theorem tree_eq (F : Forest α) (a : α) : F.tree a = a :: (F.kids a).flatMap F.tree := by
  have hkids : ∀ k ∈ F.kids a, F.walk (F.height a) k = F.tree k := by
    intro k hk
    have hlt := F.height_lt k a ((F.mem_kids k a).mp hk)
    exact F.walk_eq hlt (by omega)
  show a :: (F.kids a).flatMap (F.walk (F.height a)) = _
  rw [List.flatMap_congr hkids]

/-! ### What is in a tree -/

theorem mem_tree : x ∈ F.tree a ↔ F.Under x a := by
  induction a using F.induction with
  | step a ih =>
    rw [tree_eq, List.mem_cons, List.mem_flatMap, Under, Relation.ReflTransGen.cases_tail_iff]
    constructor
    · intro h
      cases h with
      | inl h => exact .inl h.symm
      | inr h =>
        obtain ⟨k, hk, hx⟩ := h
        exact .inr ⟨k, (ih k hk).mp hx, (F.mem_kids k a).mp hk⟩
    · intro h
      cases h with
      | inl h => exact .inl h.symm
      | inr h =>
        obtain ⟨k, hx, hparent⟩ := h
        have hk := (F.mem_kids k a).mpr hparent
        exact .inr ⟨k, hk, (ih k hk).mpr hx⟩

theorem self_mem_tree (a : α) : a ∈ F.tree a := mem_tree.mpr .refl

theorem Under.height_le (h : F.Under x a) : F.height x ≤ F.height a := by
  induction h with
  | refl => exact Nat.le_refl _
  | tail _ hparent ih =>
    have hlt := F.height_lt _ _ hparent
    omega

/-- A node below one of two siblings is not below the other. -/
theorem Under.eq_of_siblings (ha : F.Under x a) (hb : F.Under x b) (h : F.parent a = F.parent b) :
    a = b := by
  have huniq : Relator.RightUnique fun k p => F.parent k = some p := by
    intro k p q hp hq
    exact Option.some.inj (hp.symm.trans hq)
  have hbelow : ∀ {a b : α}, F.parent a = F.parent b → F.Under a b → a = b := by
    intro a b h hab
    cases Relation.ReflTransGen.cases_head hab with
    | inl heq => exact heq
    | inr hstep =>
      obtain ⟨p, hp, hup⟩ := hstep
      have hle := Under.height_le hup
      have hlt := F.height_lt b p (h ▸ hp)
      omega
  cases Relation.ReflTransGen.total_of_right_unique huniq ha hb with
  | inl hab => exact hbelow h hab
  | inr hba => exact (hbelow h.symm hba).symm

theorem disjoint_siblings {l : List α} (hl : l.Nodup)
    (hp : ∀ a ∈ l, ∀ b ∈ l, F.parent a = F.parent b) :
    l.Pairwise (Function.onFun List.Disjoint F.tree) := by
  apply hl.pairwise_of_forall_ne
  intro a ha b hb hne x hxa hxb
  exact hne ((mem_tree.mp hxa).eq_of_siblings (mem_tree.mp hxb) (hp a ha b hb))

theorem siblings (k₁ : k ∈ F.kids a) (k₂ : p ∈ F.kids a) : F.parent k = F.parent p := by
  rw [(F.mem_kids k a).mp k₁, (F.mem_kids p a).mp k₂]

theorem nodup_tree (a : α) : (F.tree a).Nodup := by
  induction a using F.induction with
  | step a ih =>
    rw [tree_eq, List.nodup_cons, List.nodup_flatMap]
    constructor
    · intro ha
      obtain ⟨k, hk, hak⟩ := List.mem_flatMap.mp ha
      have hle := (mem_tree.mp hak).height_le
      have hlt := F.height_lt k a ((F.mem_kids k a).mp hk)
      omega
    · exact ⟨ih, disjoint_siblings (F.nodup_kids a) fun k hk j hj => siblings hk hj⟩

/-- The trees of siblings, or of roots. -/
theorem nodup_flatMap {l : List α} (hl : l.Nodup)
    (hp : ∀ a ∈ l, ∀ b ∈ l, F.parent a = F.parent b) : (l.flatMap F.tree).Nodup := by
  rw [List.nodup_flatMap]
  exact ⟨fun a _ => nodup_tree a, disjoint_siblings hl hp⟩

/-- The roots of trees stand in their order. -/
theorem sublist_flatMap (F : Forest α) (l : List α) : l.Sublist (l.flatMap F.tree) := by
  induction l with
  | nil => exact List.Sublist.slnil
  | cons a l ih =>
    rw [List.flatMap_cons, tree_eq, List.cons_append]
    exact (ih.trans (List.sublist_append_right _ _)).cons_cons a

/-! ### A node's tree is in one piece -/

section Depth

variable {depth : α → ℕ} (hdepth : ∀ k a, F.parent k = some a → depth k = depth a + 1)
include hdepth

theorem Under.depth_lt (h : F.Under x a) : x = a ∨ depth a < depth x := by
  induction h with
  | refl => exact .inl rfl
  | tail _ hparent ih =>
    have hone := hdepth _ _ hparent
    cases ih with
    | inl heq =>
      subst heq
      right
      omega
    | inr hlt =>
      right
      omega

/-- What comes next after a tree is no deeper than its root. -/
theorem exists_split_of {l : List α} (hl : ∀ a ∈ l, ∀ b ∈ l, depth a = depth b)
    (htree : ∀ a ∈ l, x ∈ F.tree a → ∃ before after, F.tree a = before ++ F.tree x ++ after
      ∧ ∀ y ∈ after.head?, depth y ≤ depth x)
    (hx : x ∈ l.flatMap F.tree) :
    ∃ before after, l.flatMap F.tree = before ++ F.tree x ++ after
      ∧ ∀ y ∈ after.head?, depth y ≤ depth x := by
  obtain ⟨a, ha, hxa⟩ := List.mem_flatMap.mp hx
  obtain ⟨l₁, l₂, rfl⟩ := List.append_of_mem ha
  obtain ⟨before, after, htree, hnext⟩ := htree a ha hxa
  refine ⟨l₁.flatMap F.tree ++ before, after ++ l₂.flatMap F.tree, ?_, ?_⟩
  · rw [List.flatMap_append, List.flatMap_cons, htree]
    simp only [List.append_assoc]
  · intro y hy
    cases after with
    | cons z after => exact hnext y hy
    | nil =>
      cases l₂ with
      | nil => cases hy
      | cons b l₂ =>
        rw [List.nil_append, List.flatMap_cons, tree_eq] at hy
        have hyb : b = y := Option.some.inj hy
        have hab := hl a ha b (by simp)
        have hle := (mem_tree.mp hxa).depth_lt hdepth
        subst hyb
        cases hle with
        | inl heq =>
          rw [heq]
          omega
        | inr hlt => omega

theorem exists_split_tree (a : α) (hx : x ∈ F.tree a) :
    ∃ before after, F.tree a = before ++ F.tree x ++ after
      ∧ ∀ y ∈ after.head?, depth y ≤ depth x := by
  induction a using F.induction with
  | step a ih =>
    rw [tree_eq, List.mem_cons] at hx
    cases hx with
    | inl hx =>
      subst hx
      exact ⟨[], [], by simp, by simp⟩
    | inr hx =>
      have hkids : ∀ k ∈ F.kids a, ∀ j ∈ F.kids a, depth k = depth j := by
        intro k hk j hj
        rw [hdepth k a ((F.mem_kids k a).mp hk), hdepth j a ((F.mem_kids j a).mp hj)]
      obtain ⟨before, after, hsplit, hnext⟩ := exists_split_of hdepth hkids ih hx
      refine ⟨a :: before, after, ?_, hnext⟩
      rw [tree_eq F a, hsplit, List.cons_append, List.cons_append]

/-- **Each tree is in one piece, and is cut off by its depth.** -/
theorem exists_split {l : List α} (hl : ∀ a ∈ l, ∀ b ∈ l, depth a = depth b)
    (hx : x ∈ l.flatMap F.tree) :
    ∃ before after, l.flatMap F.tree = before ++ F.tree x ++ after
      ∧ ∀ y ∈ after.head?, depth y ≤ depth x :=
  exists_split_of hdepth hl (fun a _ => exists_split_tree hdepth a) hx

/-- A node comes before what is below it. -/
theorem parent_mem_before {l before after : List α} (hl : ∀ a ∈ l, ∀ b ∈ l, depth a = depth b)
    (hnodup : (l.flatMap F.tree).Nodup) (hsplit : l.flatMap F.tree = before ++ k :: after)
    (hparent : F.parent k = some p) (hp : p ∈ l.flatMap F.tree) : p ∈ before := by
  obtain ⟨before', after', hp', _⟩ := exists_split hdepth hl hp
  have hk : k ∈ (F.kids p).flatMap F.tree :=
    List.mem_flatMap.mpr ⟨k, (F.mem_kids k p).mpr hparent, self_mem_tree k⟩
  obtain ⟨u, v, huv⟩ := List.append_of_mem hk
  have hsplit' : l.flatMap F.tree = (before' ++ p :: u) ++ k :: (v ++ after') := by
    rw [hp', tree_eq, huv]
    simp
  rw [hsplit] at hsplit' hnodup
  have hbefore : k ∉ before := by
    intro hmem
    exact (List.nodup_append.mp hnodup).2.2 k hmem k List.mem_cons_self rfl
  have hafter : k ∉ after := (List.nodup_cons.mp (List.nodup_append.mp hnodup).2.1).1
  have heq := (List.append_cons_inj_of_notMem hbefore hafter).mp hsplit'
  rw [heq.1]
  simp

/-- Of what follows a node, the nodes deeper than it are those below it. -/
theorem takeWhile_split {after : List α} (hnext : ∀ y ∈ after.head?, depth y ≤ depth x) :
    ((F.kids x).flatMap F.tree ++ after).takeWhile (fun y => depth x < depth y)
      = (F.kids x).flatMap F.tree := by
  have hbelow : ∀ y ∈ (F.kids x).flatMap F.tree, decide (depth x < depth y) = true := by
    intro y hy
    obtain ⟨k, hk, hyk⟩ := List.mem_flatMap.mp hy
    have hone := hdepth k x ((F.mem_kids k x).mp hk)
    rw [decide_eq_true_eq]
    cases (mem_tree.mp hyk).depth_lt hdepth with
    | inl heq =>
      rw [heq]
      omega
    | inr hlt => omega
  rw [List.takeWhile_append_of_pos hbelow]
  cases after with
  | nil => simp
  | cons y after =>
    have hle : depth y ≤ depth x := hnext y rfl
    rw [List.takeWhile_cons_of_neg (by simpa using hle), List.append_nil]

end Depth

/-! ### Traversal by a stack -/

/-- A node's children are taken out of their list when it is popped. -/
def drain [DecidableEq α] : ℕ → (α → List α) → List α → List α
  | 0, _, _ => []
  | _ + 1, _, [] => []
  | fuel + 1, kids, a :: stack => a :: drain fuel (Function.update kids a []) (kids a ++ stack)

/-- **The stack pops the trees of what is on it.** -/
theorem drain_eq [DecidableEq α] {fuel : ℕ} : ∀ {kids : α → List α} {stack : List α},
    (stack.flatMap F.tree).Nodup → (∀ x ∈ stack.flatMap F.tree, kids x = F.kids x) →
    (stack.flatMap F.tree).length ≤ fuel → drain fuel kids stack = stack.flatMap F.tree := by
  induction fuel with
  | zero =>
    intro kids stack _ _ hlength
    have hnil : stack.flatMap F.tree = [] := List.length_eq_zero_iff.mp (by omega)
    rw [hnil]
    rfl
  | succ fuel ih =>
    intro kids stack hnodup hkids hlength
    cases stack with
    | nil => rfl
    | cons a stack =>
      have hstack : (a :: stack).flatMap F.tree = a :: (F.kids a ++ stack).flatMap F.tree := by
        rw [List.flatMap_cons, tree_eq, List.flatMap_append, List.cons_append]
      have ha : kids a = F.kids a := hkids a (by rw [hstack]; exact List.mem_cons_self)
      rw [hstack] at hnodup hkids hlength ⊢
      rw [List.nodup_cons] at hnodup
      show a :: drain fuel (Function.update kids a []) (kids a ++ stack) = _
      rw [ha, ih hnodup.2 ?_ (by rw [List.length_cons] at hlength; omega)]
      intro x hx
      have hne : x ≠ a := by
        intro heq
        exact hnodup.1 (heq ▸ hx)
      rw [Function.update_of_ne hne]
      exact hkids x (List.mem_cons_of_mem a hx)

/-! ### Relabelling -/

theorem tree_map {G : Forest β} (f : α → β) (a : α)
    (h : ∀ x ∈ F.tree a, G.kids (f x) = (F.kids x).map f) : G.tree (f a) = (F.tree a).map f := by
  induction a using F.induction with
  | step a ih =>
    rw [tree_eq] at h
    rw [tree_eq, tree_eq, h a List.mem_cons_self, List.map_cons, List.flatMap_map, List.map_flatMap]
    congr 1
    apply List.flatMap_congr
    intro k hk
    apply ih k hk
    intro x hx
    exact h x (List.mem_cons_of_mem a (List.mem_flatMap.mpr ⟨k, hk, hx⟩))

end Forest

end Preorder
