import Hashdex.Contents

/-!
# The walk does not look at the path

Two descents into the same bytes that differ in the path and the depth they start from give the same
members: below the one path what the other has below its own, and the same notes, but where a note names
the path.

* `packedNotes_inj`: such a note tells the paths apart
* `level_twin`, by induction on the levels, and from it `insideView_twin`
-/

namespace Hashdex

namespace Replay

open Descent

/-! ### Notes that name the path -/

theorem packedNote_length (path name : List Char) (e : Err) :
    (packedNote path name e).toList.length
      = path.length + (1 + name.length + 2 + (errText e).toList.length) := by
  simp [packedNote]
  omega

theorem packedNotes_length (errors : List (List Char × Err)) : ∃ c, ∀ path : List Char,
    ("; ".intercalate (errors.map fun x => packedNote path x.1 x.2)).toList.length
      = c + errors.length * path.length := by
  induction errors with
  | nil => exact ⟨0, fun path => by simp⟩
  | cons x rest ih =>
    obtain ⟨c, hc⟩ := ih
    cases rest with
    | nil =>
      refine ⟨1 + x.1.length + 2 + (errText x.2).toList.length, fun path => ?_⟩
      rw [List.map_singleton, String.intercalate_singleton, packedNote_length]
      simp [Nat.add_comm]
    | cons y rest =>
      refine ⟨1 + x.1.length + 2 + (errText x.2).toList.length + 2 + c, fun path => ?_⟩
      have hrest := hc path
      rw [List.map_cons, String.intercalate_cons_of_ne_nil (by simp), String.toList_append,
        String.toList_append, List.length_append, List.length_append, packedNote_length, hrest]
      simp only [List.length_cons, Nat.add_mul, Nat.one_mul]
      show _ + 2 + _ = _
      omega

/-- The notes of packed files start with the path. -/
theorem packedNotes_path (x : List Char × Err) (errors : List (List Char × Err)) (path : List Char) :
    ∃ rest, ("; ".intercalate ((x :: errors).map fun y => packedNote path y.1 y.2)).toList
      = path ++ rest := by
  cases errors with
  | nil => exact ⟨_, by simp [packedNote]; rfl⟩
  | cons y errors =>
    rw [List.map_cons, String.intercalate_cons_of_ne_nil (by simp), packedNote]
    exact ⟨_, by simp only [String.toList_append, String.toList_ofList, List.append_assoc]; rfl⟩

theorem packedNotes_inj {p q : List Char} (before : List String) (errors : List (List Char × Err))
    (hne : errors ≠ [])
    (h : "; ".intercalate (before ++ errors.map fun x => packedNote p x.1 x.2)
      = "; ".intercalate (before ++ errors.map fun x => packedNote q x.1 x.2)) : p = q := by
  induction before with
  | nil =>
    obtain ⟨x, rest, rfl⟩ := List.exists_cons_of_ne_nil hne
    simp only [List.nil_append] at h
    obtain ⟨c, hc⟩ := packedNotes_length (x :: rest)
    have hlength : p.length = q.length := by
      have hsum : c + (x :: rest).length * p.length = c + (x :: rest).length * q.length := by
        rw [← hc p, ← hc q, h]
      exact Nat.eq_of_mul_eq_mul_left (by simp) (Nat.add_left_cancel hsum)
    obtain ⟨r, hr⟩ := packedNotes_path x rest p
    obtain ⟨r', hr'⟩ := packedNotes_path x rest q
    rw [h, hr'] at hr
    exact (List.append_inj hr hlength.symm).1.symm
  | cons s before ih =>
    apply ih
    have hcons : ∀ path : List Char,
        (before ++ errors.map fun x => packedNote path x.1 x.2) ≠ [] := by
      intro path
      simp [hne]
    rw [List.cons_append, List.cons_append, String.intercalate_cons_of_ne_nil (hcons p),
      String.intercalate_cons_of_ne_nil (hcons q)] at h
    exact String.append_right_inj _ |>.mp h

/-- What erofs shows of its notes: the first four. -/
theorem notesText_erofs {texts : List String} (h : texts ≠ []) :
    notesText .erofs texts
      = some (if 4 < texts.length
          then "; ".intercalate (texts.take 4) ++ s!"; … and {texts.length - 4} more member notes"
          else "; ".intercalate (texts.take 4)) := by
  cases texts with
  | nil => exact absurd rfl h
  | cons t texts =>
    simp only [notesText]
    split_ifs
    · simp only [String.append_assoc]
      rfl
    · rfl

/-- Under two paths, the notes of packed files show the same or tell the paths apart. -/
theorem notesText_packed (before : List String) (errors : List (List Char × Err)) (p q : List Char) :
    (before.length < 4 ∧ errors ≠ [] →
      notesText .erofs (before ++ errors.map fun x => packedNote p x.1 x.2)
        = notesText .erofs (before ++ errors.map fun x => packedNote q x.1 x.2) → p = q)
      ∧ (¬(before.length < 4 ∧ errors ≠ []) →
        notesText .erofs (before ++ errors.map fun x => packedNote p x.1 x.2)
          = notesText .erofs (before ++ errors.map fun x => packedNote q x.1 x.2)) := by
  have hshown : ∀ path : List Char, (before ++ errors.map fun x => packedNote path x.1 x.2).take 4
      = before.take 4 ++ (errors.take (4 - before.length)).map fun x => packedNote path x.1 x.2 := by
    intro path
    rw [List.take_append, List.map_take]
  constructor
  · intro ⟨hfew, hne⟩ h
    have htexts : ∀ path : List Char,
        (before ++ errors.map fun x => packedNote path x.1 x.2) ≠ [] := by
      intro path
      simp [hne]
    rw [notesText_erofs (htexts p), notesText_erofs (htexts q), hshown, hshown] at h
    have hlength : ∀ path : List Char,
        (before ++ errors.map fun x => packedNote path x.1 x.2).length
          = before.length + errors.length := by
      intro path
      simp
    rw [hlength, hlength, Option.some.injEq] at h
    apply packedNotes_inj (before.take 4) (errors.take (4 - before.length))
    · have hpos : 0 < errors.length := List.length_pos_iff.mpr hne
      rw [← List.length_pos_iff, List.length_take]
      omega
    · split_ifs at h
      · exact String.append_left_inj _ |>.mp h
      · exact h
  · intro hnone
    by_cases hne : errors = []
    · rw [hne]
      rfl
    · have hmany : 4 ≤ before.length := by
        by_contra hfew
        exact hnone ⟨by omega, hne⟩
      have htexts : ∀ path : List Char,
          (before ++ errors.map fun x => packedNote path x.1 x.2) ≠ [] := by
        intro path
        simp [hne]
      rw [notesText_erofs (htexts p), notesText_erofs (htexts q), hshown, hshown,
        Nat.sub_eq_zero_of_le hmany]
      simp

/-! ### Twins -/

/-- Of a member's note in two descents, one under each path: it may be the only difference. -/
structure NoteTwin (p q : List Char) (named : Bool) (m n : Option String) : Prop where
  same : named = false ∨ p = q → m = n
  apart : named = true → m = n → p = q

theorem NoteTwin.rfl {p q : List Char} (m : Option String) : NoteTwin p q false m m where
  same _ := Eq.refl m
  apart h := by cases h

/-- The same member seen below two containers. -/
structure Twin {D : Type} (p q : List Char) (d e : ℕ) (x y : Seen D) : Prop where
  path : ∃ rel, x.path = p ++ '!' :: rel ∧ y.path = q ++ '!' :: rel
  depth : ∃ k, x.depth = d + k ∧ y.depth = e + k
  kind : x.kind = y.kind
  size : x.size = y.size
  digests : x.digests = y.digests
  children : x.children = y.children
  named : x.named = y.named
  note : NoteTwin p q x.named x.note y.note

/-- The same place below two containers, or in their place. -/
structure Beside (p q : List Char) (d e : ℕ) (s t : Spot) : Prop where
  path : ∃ tail, s.path = p ++ tail ∧ t.path = q ++ tail ∧ (tail = [] ∨ ∃ rel, tail = '!' :: rel)
  depth : ∃ k, s.depth = d + k ∧ t.depth = e + k
  place : s.place = t.place
  stated : s.stated = t.stated

/-- The same place below two containers. -/
structure Below (p q : List Char) (d e : ℕ) (s t : Spot) : Prop extends Beside p q d e s t where
  inside : ∃ rel, s.path = p ++ '!' :: rel ∧ t.path = q ++ '!' :: rel

theorem Beside.child {p q : List Char} {d e : ℕ} {s t : Spot} (h : Beside p q d e s t) (i : ℕ)
    (name : List Char) (stated : Option ℕ) :
    Below p q d e (s.child i name stated) (t.child i name stated) := by
  have hinside : ∃ rel, s.path ++ '!' :: name = p ++ '!' :: rel
      ∧ t.path ++ '!' :: name = q ++ '!' :: rel := by
    obtain ⟨tail, hs, ht, htail⟩ := h.path
    rw [hs, ht]
    cases htail with
    | inl htail => exact ⟨name, by simp [htail]⟩
    | inr htail =>
      obtain ⟨rel, htail⟩ := htail
      exact ⟨rel ++ '!' :: name, by simp [htail]⟩
  obtain ⟨k, hs, ht⟩ := h.depth
  constructor
  · constructor
    · obtain ⟨rel, hrel⟩ := hinside
      exact ⟨'!' :: rel, hrel.1, hrel.2, .inr ⟨rel, rfl⟩⟩
    · exact ⟨k + 1, by simp only [Spot.child, hs, ht]; omega⟩
    · simp only [Spot.child, h.place]
    · rfl
  · exact hinside

variable {D : Type} {p q : List Char} {d e : ℕ}

structure VisitTwin (p q : List Char) (d e : ℕ) (v w : Visit D) : Prop where
  members : List.Forall₂ (Twin p q d e) v.members w.members
  calls : v.calls = w.calls
  error : v.error = w.error

/-- What is said of the container, in its note or as an error. -/
inductive ResultTwin (p q : List Char) : Bool → Except Err (ℕ × Option String) →
    Except Err (ℕ × Option String) → Prop
  | ok {named : Bool} (children : ℕ) {m n : Option String} (h : NoteTwin p q named m n) :
    ResultTwin p q named (.ok (children, m)) (.ok (children, n))
  | error (named : Bool) (e : Err) : ResultTwin p q named (.error e) (.error e)

theorem ResultTwin.rfl (r : Except Err (ℕ × Option String)) : ResultTwin p q false r r := by
  cases r with
  | error e => exact .error false e
  | ok r => exact .ok r.1 (.rfl r.2)

structure InsideTwin (p q : List Char) (d e : ℕ) (kind : Kind) (v w : Inside D) : Prop where
  members : List.Forall₂ (Twin p q d e) v.members w.members
  calls : v.calls = w.calls
  named : v.named = w.named
  result : ResultTwin p q v.named (viewResult kind v.walked) (viewResult kind w.walked)

/-- Nothing in the walk over the entries tells the paths apart. -/
structure Alike (p q : List Char) (d e : ℕ) (v w : Inside D) : Prop where
  members : List.Forall₂ (Twin p q d e) v.members w.members
  calls : v.calls = w.calls
  walked : v.walked = w.walked
  unnamed : v.named = false ∧ w.named = false

theorem Alike.inside {v w : Inside D} (h : Alike p q d e v w) (kind : Kind) :
    InsideTwin p q d e kind v w where
  members := h.members
  calls := h.calls
  named := by rw [h.unnamed.1, h.unnamed.2]
  result := by
    rw [h.walked, h.unnamed.1]
    exact .rfl _

theorem Alike.nothing : Alike (D := D) p q d e Inside.nothing Inside.nothing :=
  ⟨.nil, rfl, rfl, rfl, rfl⟩

/-! ### A member -/

variable (P : Parsers D) (threads : Schedule) (policy : Policy)

theorem closeMeta_twin {s t : Spot} {kind : Kind} (pushed : Bytes) {v w : Inside D}
    {r r' : Except Err (ℕ × Option String)} (hspot : Below p q d e s t)
    (hmembers : List.Forall₂ (Twin p q d e) v.members w.members) (hcalls : v.calls = w.calls)
    (hnamed : v.named = w.named) (hr : ResultTwin p q v.named r r') :
    VisitTwin p q d e (closeMeta P s kind pushed v r) (closeMeta P t kind pushed w r') := by
  have hmint : some (P.mint s.stated pushed) = some (P.mint t.stated pushed) := by rw [hspot.stated]
  cases hr with
  | ok children h =>
    refine ⟨.cons ?_ hmembers, ?_, rfl⟩
    · exact ⟨hspot.inside, hspot.depth, rfl, rfl, hmint, rfl, hnamed, h⟩
    · show v.calls + 1 = w.calls + 1
      rw [hcalls]
  | error err =>
    refine ⟨.cons ?_ hmembers, ?_, rfl⟩
    · exact ⟨hspot.inside, hspot.depth, rfl, rfl, hmint, rfl, rfl, .rfl none⟩
    · show v.calls + 1 = w.calls + 1
      rw [hcalls]

theorem closeMeta_nothing {s t : Spot} (kind : Kind) (pushed : Bytes)
    (r : Except Err (ℕ × Option String)) (hspot : Below p q d e s t) :
    VisitTwin p q d e (closeMeta P s kind pushed Inside.nothing r)
      (closeMeta P t kind pushed Inside.nothing r) :=
  closeMeta_twin P pushed hspot .nil rfl rfl (.rfl r)

theorem retrying_twin {kind : Kind} {attempt attempt' : Bool → Inside D} (conservative : Bool)
    (h : ∀ c, InsideTwin p q d e kind (attempt c) (attempt' c)) :
    let v := retrying kind attempt conservative
    let w := retrying kind attempt' conservative
    List.Forall₂ (Twin p q d e) v.1.members w.1.members ∧ v.1.calls = w.1.calls
      ∧ v.1.named = w.1.named ∧ ResultTwin p q v.1.named v.2 w.2 := by
  have hfirst := h conservative
  have hagain := h true
  have hresult := hfirst.result
  unfold retrying
  dsimp only
  generalize hr : viewResult kind (attempt conservative).walked = r at hresult
  generalize hr' : viewResult kind (attempt' conservative).walked = r' at hresult
  cases hresult with
  | ok children hnote =>
    exact ⟨hfirst.members, hfirst.calls, hfirst.named, .ok children hnote⟩
  | error err =>
    cases err with
    | hard what => exact ⟨hfirst.members, hfirst.calls, hfirst.named, .error _ _⟩
    | retry why =>
      cases conservative with
      | true => exact ⟨hfirst.members, hfirst.calls, hfirst.named, .error _ _⟩
      | false =>
        refine ⟨hagain.members, ?_, hagain.named, hagain.result⟩
        show (attempt false).calls + _ = (attempt' false).calls + _
        rw [hfirst.calls, hagain.calls]

theorem runMember_twin (tooDeep conservative : Bool) {s t : Spot} (source : Source) (kind : Kind)
    {arms arms' : Inside D} {attempt attempt' : Bool → Inside D} (hspot : Below p q d e s t)
    (harms : Alike p q d e arms arms') (h : ∀ c, InsideTwin p q d e kind (attempt c) (attempt' c)) :
    VisitTwin p q d e (runMember P policy tooDeep conservative s source kind arms attempt)
      (runMember P policy tooDeep conservative t source kind arms' attempt') := by
  unfold runMember
  split_ifs
  · exact closeMeta_nothing P _ _ _ hspot
  · exact closeMeta_nothing P _ _ _ hspot
  · exact closeMeta_nothing P _ _ _ hspot
  · cases source.error with
    | some what => exact closeMeta_nothing P _ _ _ hspot
    | none =>
      obtain ⟨hmembers, hcalls, hnamed, hresult⟩ := retrying_twin conservative h
      exact closeMeta_twin P _ hspot hmembers hcalls hnamed hresult
  · rw [harms.walked]
    refine closeMeta_twin P _ hspot harms.members harms.calls ?_ ?_
    · rw [harms.unnamed.1, harms.unnamed.2]
    · rw [harms.unnamed.1]
      exact .rfl _

/-- The reader's note comes before the walk's, which it leaves readable. -/
theorem readNote_injective (source : Source) : Function.Injective (readNote source) := by
  intro m n h
  obtain ⟨bytes, error⟩ := source
  have hlonger : ∀ head tail : String, head ≠ head ++ "; " ++ tail := by
    intro head tail heq
    have hlength := congrArg (fun s => s.toList.length) heq
    simp only [String.toList_append, List.length_append] at hlength
    change _ = _ + 2 + _ at hlength
    omega
  cases error with
  | none => exact h
  | some what =>
    cases m with
    | none =>
      cases n with
      | none => rfl
      | some n =>
        exact absurd (Option.some.inj h) (hlonger _ n)
    | some m =>
      cases n with
      | none => exact absurd (Option.some.inj h).symm (hlonger _ m)
      | some n => exact congrArg some (String.append_right_inj _ |>.mp (Option.some.inj h))

theorem ResultTwin.read {named : Bool} {r r' : Except Err (ℕ × Option String)} (source : Source)
    (h : ResultTwin p q named r r') :
    ResultTwin p q named (r.map fun x => (x.1, readNote source x.2))
      (r'.map fun x => (x.1, readNote source x.2)) := by
  cases h with
  | ok children h =>
    refine .ok children ⟨fun hsame => ?_, fun hnamed heq => ?_⟩
    · rw [h.same hsame]
    · exact h.apart hnamed (readNote_injective source heq)
  | error err => exact .error named err

theorem processRanged_twin (tooDeep conservative : Bool) {s t : Spot} (source : Source) (kind : Kind)
    {attempt attempt' : Bool → Inside D} (hspot : Below p q d e s t)
    (h : ∀ c, InsideTwin p q d e kind (attempt c) (attempt' c)) :
    VisitTwin p q d e (processRanged P policy tooDeep conservative s source kind attempt)
      (processRanged P policy tooDeep conservative t source kind attempt') := by
  unfold processRanged
  rw [hspot.stated]
  split_ifs
  · exact ⟨.nil, rfl, rfl⟩
  · exact closeMeta_nothing P _ _ _ hspot
  · exact closeMeta_nothing P _ _ _ hspot
  · obtain ⟨hmembers, hcalls, hnamed, hresult⟩ := retrying_twin conservative h
    exact closeMeta_twin P _ hspot hmembers hcalls hnamed (hresult.read source)

/-! ### The entries of a container -/

structure LevelTwin (p q : List Char) (d e : ℕ) (below : Level D) : Prop where
  stream : ∀ conservative s t leaf source, Below p q d e s t →
    VisitTwin p q d e (below.stream conservative s leaf source) (below.stream conservative t leaf source)
  range : ∀ conservative s t leaf source, Below p q d e s t →
    VisitTwin p q d e (below.range conservative s leaf source) (below.range conservative t leaf source)

theorem visitEntry_twin {below : Level D} (hbelow : LevelTwin p q d e below) {s t : Spot}
    (hspot : Beside p q d e s t) (conservative : Bool) (i : ℕ) (x : Entry) :
    VisitTwin p q d e (visitEntry P below s conservative i x) (visitEntry P below t conservative i x) := by
  unfold visitEntry
  cases x.how with
  | closed note =>
    have hchild := hspot.child i x.name (some 0)
    refine ⟨.cons ⟨hchild.inside, hchild.depth, rfl, rfl, rfl, rfl, rfl, .rfl _⟩ .nil, rfl, rfl⟩
  | range len => exact hbelow.range _ _ _ _ _ (hspot.child i x.name (some len))
  | stream stated => exact hbelow.stream _ _ _ _ _ (hspot.child i x.name stated)
  | item batch stated => exact hbelow.stream _ _ _ _ _ (hspot.child i x.name (some stated))

theorem retryItem_twin {run run' : Bool → Visit D} (h : ∀ c, VisitTwin p q d e (run c) (run' c))
    (conservative : Bool) :
    VisitTwin p q d e (retryItem run conservative) (retryItem run' conservative) := by
  have hfirst := h conservative
  have hagain := h true
  unfold retryItem
  dsimp only
  rw [← hfirst.error]
  cases (run conservative).error with
  | none => exact hfirst
  | some err =>
    cases err with
    | hard what => exact hfirst
    | retry why =>
      cases conservative with
      | true => exact hfirst
      | false =>
        refine ⟨hagain.members, ?_, hagain.error⟩
        show (run false).calls - 1 + _ = (run' false).calls - 1 + _
        rw [hfirst.calls, hagain.calls]

theorem walkEntries_twin {visit visit' : ℕ → Entry → Visit D}
    (h : ∀ i x, VisitTwin p q d e (visit i x) (visit' i x)) (stop : Descent.Stop) (pulled : ℕ)
    (entries : List Entry) : ∀ i children,
      Alike p q d e (walkEntries visit stop pulled i children entries)
        (walkEntries visit' stop pulled i children entries) := by
  induction entries with
  | nil =>
    intro i children
    exact ⟨.nil, rfl, rfl, rfl, rfl⟩
  | cons x rest ih =>
    intro i children
    have hvisit := h i x
    simp only [walkEntries]
    rw [← hvisit.error]
    cases (visit i x).error with
    | some err => exact ⟨hvisit.members, hvisit.calls, rfl, rfl, rfl⟩
    | none =>
      have hrest := ih (i + 1) (children + How.counts x.how)
      refine ⟨List.rel_append hvisit.members hrest.members, ?_, hrest.walked, rfl, rfl⟩
      show (visit i x).calls + _ = (visit' i x).calls + _
      rw [hvisit.calls, hrest.calls]

/-- The members of visits that are twins one by one. -/
theorem flatMap_twin {α : Type} {visit visit' : α → Visit D}
    (h : ∀ x, VisitTwin p q d e (visit x) (visit' x)) (entries : List α) :
    List.Forall₂ (Twin p q d e) ((entries.map visit).flatMap (·.members))
      ((entries.map visit').flatMap (·.members)) := by
  induction entries with
  | nil => exact .nil
  | cons x rest ih => exact List.rel_append (h x).members ih

end Replay

end Hashdex
