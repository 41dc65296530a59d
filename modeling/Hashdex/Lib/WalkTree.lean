import Hashdex.Lib.WalkLog

/-!
# The log of a walk that opens directories

Some events of a log open a directory, which has entries, and of some of its entries the walk goes on to
tell.  The log of an entry and all below it is a piece of the whole (`Piece`); the pieces of the entries
of a directory, one after the other, make the piece of the directory.

* `Pieces.cons`, `Pieces.skip`: one more entry
* `Pieces.node`: from the entries to the directory
* `Piece.once_iff`: just one thing is told of an entry of an opened directory, or nothing
-/

namespace WalkLog

section
variable {ε δ ρ : Type*} (opened : ε → Option δ) (entries : δ → List ρ) (told : ρ → Prop)

/-- The event is about an entry of an opened directory. -/
def Child (log : Log ε) (p : Address × ε) : Prop :=
  ∃ i d e x r, p.1 = i :: d ∧ (d, e) ∈ log ∧ opened e = some x ∧ (entries x)[i]? = some r ∧ told r

/-- Something is told of the entries of the opened directories. -/
def Shows (log : Log ε) : Prop :=
  ∀ d e x, (d, e) ∈ log → opened e = some x →
    ∀ (i : ℕ) (r : ρ), (entries x)[i]? = some r → told r → ∃ e', (i :: d, e') ∈ log

/-- The log of a place and of all below it. -/
structure Piece (addr : Address) (log : Log ε) : Prop where
  under : Under addr log
  distinct : Distinct log
  here : ∃ e, (addr, e) ∈ log
  origin : ∀ p ∈ log, p.1 = addr ∨ Child opened entries told log p
  shows : Shows opened entries told log

/-- The log of some of a directory's entries, given with their numbers. -/
structure Pieces (dir : Address) (es : List (ρ × ℕ)) (log : Log ε) : Prop where
  under : ∀ p ∈ log, ∃ r i, (r, i) ∈ es ∧ i :: dir <:+ p.1
  distinct : Distinct log
  here : ∀ r i, (r, i) ∈ es → told r → ∃ e, (i :: dir, e) ∈ log
  origin : ∀ p ∈ log, (∃ r i, (r, i) ∈ es ∧ told r ∧ p.1 = i :: dir) ∨ Child opened entries told log p
  shows : Shows opened entries told log

variable {opened entries told}

theorem Child.mono {log log' : Log ε} {p : Address × ε} (h : Child opened entries told log p)
    (hsub : log ⊆ log') : Child opened entries told log' p := by
  obtain ⟨i, d, e, x, r, hp, hd, hopen, hr, htold⟩ := h
  exact ⟨i, d, e, x, r, hp, hsub hd, hopen, hr, htold⟩

theorem Shows.append {a b : Log ε} (ha : Shows opened entries told a) (hb : Shows opened entries told b) :
    Shows opened entries told (a ++ b) := by
  intro d e x hd hopen i r hr htold
  cases List.mem_append.mp hd with
  | inl hd =>
    obtain ⟨e', he'⟩ := ha d e x hd hopen i r hr htold
    exact ⟨e', List.mem_append_left b he'⟩
  | inr hd =>
    obtain ⟨e', he'⟩ := hb d e x hd hopen i r hr htold
    exact ⟨e', List.mem_append_right a he'⟩

/-- A place that opens nothing. -/
theorem Piece.single (addr : Address) {e : ε} (h : opened e = none) :
    Piece opened entries told addr [(addr, e)] where
  under := by
    intro p hp
    rw [List.mem_singleton.mp hp]
  distinct := List.nodup_singleton addr
  here := ⟨e, List.mem_singleton_self _⟩
  origin := by
    intro p hp
    rw [List.mem_singleton.mp hp]
    exact .inl rfl
  shows := by
    intro d e' x hd hopen
    cases List.mem_singleton.mp hd
    rw [h] at hopen
    cases hopen

theorem Pieces.nil (dir : Address) : Pieces opened entries told dir [] [] := by
  constructor <;> simp [Distinct, Shows]

/-- An entry that nothing is told of. -/
theorem Pieces.skip {dir : Address} {es : List (ρ × ℕ)} {log : Log ε} {r : ρ} (i : ℕ) (hr : ¬ told r)
    (h : Pieces opened entries told dir es log) : Pieces opened entries told dir ((r, i) :: es) log where
  under := by
    intro p hp
    obtain ⟨q, j, hq, hplace⟩ := h.under p hp
    exact ⟨q, j, List.mem_cons_of_mem _ hq, hplace⟩
  distinct := h.distinct
  here := by
    intro q j hq htold
    cases List.mem_cons.mp hq with
    | inl heq =>
      cases heq
      exact absurd htold hr
    | inr hmem => exact h.here q j hmem htold
  origin := by
    intro p hp
    refine (h.origin p hp).imp_left fun hentry => ?_
    obtain ⟨q, j, hq, hrest⟩ := hentry
    exact ⟨q, j, List.mem_cons_of_mem _ hq, hrest⟩
  shows := h.shows

/-- **One more entry**, told of before the others. -/
theorem Pieces.cons {dir : Address} {es : List (ρ × ℕ)} {a b : Log ε} {r : ρ} {i : ℕ} (hr : told r)
    (hfresh : i ∉ es.map Prod.snd) (ha : Piece opened entries told (i :: dir) a)
    (hb : Pieces opened entries told dir es b) :
    Pieces opened entries told dir ((r, i) :: es) (a ++ b) where
  under := by
    intro p hp
    cases List.mem_append.mp hp with
    | inl hp => exact ⟨r, i, List.mem_cons_self, ha.under p hp⟩
    | inr hp =>
      obtain ⟨q, j, hq, hplace⟩ := hb.under p hp
      exact ⟨q, j, List.mem_cons_of_mem _ hq, hplace⟩
  distinct := by
    rw [Distinct, List.map_append]
    refine List.Nodup.append ha.distinct hb.distinct fun x hx hx' => ?_
    obtain ⟨p, hp, rfl⟩ := List.mem_map.mp hx
    obtain ⟨p', hp', heq⟩ := List.mem_map.mp hx'
    obtain ⟨q, j, hq, hplace⟩ := hb.under p' hp'
    have hi := childOf_under (ha.under p hp)
    rw [← heq, childOf_under hplace] at hi
    cases hi
    exact hfresh (List.mem_map_of_mem hq)
  here := by
    intro q j hq htold
    cases List.mem_cons.mp hq with
    | inl heq =>
      cases heq
      obtain ⟨e, he⟩ := ha.here
      exact ⟨e, List.mem_append_left b he⟩
    | inr hmem =>
      obtain ⟨e, he⟩ := hb.here q j hmem htold
      exact ⟨e, List.mem_append_right a he⟩
  origin := by
    intro p hp
    cases List.mem_append.mp hp with
    | inl hp =>
      cases ha.origin p hp with
      | inl heq => exact .inl ⟨r, i, List.mem_cons_self, hr, heq⟩
      | inr hchild => exact .inr (hchild.mono (List.subset_append_left a b))
    | inr hp =>
      cases hb.origin p hp with
      | inl hentry =>
        obtain ⟨q, j, hq, hrest⟩ := hentry
        exact .inl ⟨q, j, List.mem_cons_of_mem _ hq, hrest⟩
      | inr hchild => exact .inr (hchild.mono (List.subset_append_right a b))
  shows := ha.shows.append hb.shows

/-- **From the entries to the directory.** -/
theorem Pieces.node {dir : Address} {log : Log ε} {e : ε} {x : δ} (hopen : opened e = some x)
    (h : Pieces opened entries told dir (entries x).zipIdx log) :
    Piece opened entries told dir ((dir, e) :: log) where
  under := by
    intro p hp
    cases List.mem_cons.mp hp with
    | inl heq => rw [heq]
    | inr hmem =>
      obtain ⟨q, j, -, hplace⟩ := h.under p hmem
      exact (List.suffix_cons j dir).trans hplace
  distinct := by
    refine List.nodup_cons.mpr ⟨fun hmem => ?_, h.distinct⟩
    obtain ⟨p, hp, heq⟩ := List.mem_map.mp hmem
    obtain ⟨q, j, -, hplace⟩ := h.under p hp
    rw [heq] at hplace
    exact not_under_self hplace
  here := ⟨e, List.mem_cons_self⟩
  origin := by
    intro p hp
    cases List.mem_cons.mp hp with
    | inl heq => exact .inl (congrArg Prod.fst heq)
    | inr hmem =>
      right
      cases h.origin p hmem with
      | inl hentry =>
        obtain ⟨r, i, hr, htold, hplace⟩ := hentry
        have hget : (entries x)[i]? = some r := List.mem_zipIdx_iff_getElem?.mp hr
        exact ⟨i, dir, e, x, r, hplace, List.mem_cons_self, hopen, hget, htold⟩
      | inr hchild => exact hchild.mono (List.subset_cons_self _ _)
  shows := by
    intro d e' y hd hopen' i r hr htold
    cases List.mem_cons.mp hd with
    | inl heq =>
      cases heq
      rw [hopen] at hopen'
      cases hopen'
      obtain ⟨e'', he''⟩ := h.here r i (List.mem_zipIdx_iff_getElem?.mpr hr) htold
      exact ⟨e'', List.mem_cons_of_mem _ he''⟩
    | inr hmem =>
      obtain ⟨e'', he''⟩ := h.shows d e' y hmem hopen' i r hr htold
      exact ⟨e'', List.mem_cons_of_mem _ he''⟩

/-- In a log that names no place twice, a place has one event. -/
theorem Distinct.unique {log : Log ε} (h : Distinct log) {a : Address} {e e' : ε} (he : (a, e) ∈ log)
    (he' : (a, e') ∈ log) : e = e' :=
  congrArg Prod.snd (List.inj_on_of_nodup_map h he he' rfl)

/-- **Just one thing is told of an entry of an opened directory**, or nothing. -/
theorem Piece.once_iff {log : Log ε} (h : Piece opened entries told [] log) {d : Address} {e : ε} {x : δ}
    (hd : (d, e) ∈ log) (hopen : opened e = some x) {i : ℕ} {r : ρ} (hr : (entries x)[i]? = some r) :
    Once log (i :: d) ↔ told r := by
  rw [WalkLog.once_iff h.distinct]
  constructor
  · intro hsome
    obtain ⟨e', he'⟩ := hsome
    cases h.origin _ he' with
    | inl heq => cases heq
    | inr hchild =>
      obtain ⟨j, d', f, y, q, hplace, hd', hopen', hq, htold⟩ := hchild
      cases hplace
      rw [h.distinct.unique hd hd'] at hopen
      rw [hopen] at hopen'
      cases hopen'
      rw [hr] at hq
      cases hq
      exact htold
  · exact h.shows d e x hd hopen i r hr

end

end WalkLog
