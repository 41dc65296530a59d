import Hashdex.DescentSlots

/-!
# What a descent may come to

A nested error may end the walk of the container around it before its bytes are through.  Whether it
can is read off the tree that the parsers find.

* `Outlook`: what the walk of a part of the tree may come to
* `runFound_meets`, `streamWalk_meets`, `entryWalk_meets`, …: it comes to nothing else
-/

namespace Hashdex

namespace Descent

/-! ### Members -/

/-- A member that is hashed over all it had to give, and has a note if it lost entries. -/
structure Member.Whole (x : Member) : Prop where
  bytes : x.source.error = none → x.pushed = x.source.bytes
  lost : x.lost = true → x.note.isSome = true

/-- The length in the git preimage, if there is one, is that of the bytes hashed. -/
def Member.OneSize (x : Member) : Prop := ∀ n, x.stated = some n → n = x.pushed.length

/-- What is asked of the survivors: the lengths, or all the bytes. -/
def Member.Good (sized : Bool) (x : Member) : Prop :=
  (sized = false → x.Whole) ∧ (sized = true → x.OneSize)

/-! ### The outlook of a part of the tree -/

/-- Whether a walk may be left for a conservative repetition, whether it may be left on an error, and
whether all that it seals is as it should be. -/
structure Outlook where
  retries : Bool
  fails : Bool
  sound : Bool
  deriving DecidableEq

namespace Outlook

def fine : Outlook := ⟨false, false, true⟩

/-- An error, but nothing sealed that is not as it should be. -/
def broken : Outlook := ⟨false, true, true⟩

def and (o o' : Outlook) : Outlook :=
  ⟨o.retries || o'.retries, o.fails || o'.fails, o.sound && o'.sound⟩

def provided (o : Outlook) (sound : Bool) : Outlook := { o with sound := o.sound && sound }

def swallowed (o : Outlook) (what : Option String) : Outlook :=
  { o with fails := what.isNone && o.fails }

/-- Conservatively once more, if it may have to be. -/
def redone (f : Bool → Outlook) (c : Bool) : Outlook :=
  if (f c).retries then (f c).and (f true) else f c

/-- Behind a retry boundary. -/
def contained (kind : Kind) (f : Bool → Outlook) (c : Bool) : Outlook :=
  { (redone f c).swallowed (viewSwallows kind) with retries := false }

/-- An entry's error that is passed on loses nothing that counts. -/
def harmless (o : Outlook) (swallowed : Option String) (spared : Bool) : Bool :=
  !o.fails || swallowed.isSome || spared

end Outlook

/-- The length stated for a stream is what it delivers. -/
def Source.fits (source : Source) (sized : Bool) (stated : Option ℕ) : Bool :=
  !sized || stated.all fun n => n = if source.opens then source.bytes.length else 0

/-- How much of a stream has to come through, its length being stated as it is. -/
def Source.due (source : Source) (sized : Bool) (stated : Option ℕ) : ℕ :=
  if (if sized then stated.isNone else source.error.isSome) then 0 else source.bytes.length

def Stop.isError : Stop → Bool
  | .error _ => true
  | _ => false

/-- How the walker of the kind takes an entry. -/
def How.walked (kind : Kind) (how : How) : How :=
  match kind, how with
  | .squashFs, how => .item false how.stated
  | .erofs, .range len => .range len
  | .erofs, how => .item false how.stated
  | _, how => how

/-- `runRanged`'s. -/
def insideOutlook (cfg : Config) (kind : Kind) (viewed : Bool → Outlook) (c : Bool) (depth : ℕ) :
    Outlook :=
  if tooDeep cfg depth kind then .fine
  else if cfg.descent.enters kind = false ∧ kind ≠ .plain then .fine
  else .contained kind viewed c

/-- `runMember`'s. -/
def memberOutlook (cfg : Config) (source : Source) (kind : Kind) (streamed : Outlook)
    (viewed : Bool → Outlook) (c : Bool) (depth : ℕ) : Outlook :=
  if source.opens = false then .broken
  else if tooDeep cfg depth kind then .fine
  else if cfg.descent.enters kind = false ∧ kind ≠ .plain then .fine
  else if spools cfg c kind ∧ cfg.descent.enters kind then
    if source.error.isSome then .broken else .contained kind viewed c
  else if kind.hasEntries then streamed.swallowed (streamSwallows kind)
  else .fine

/-- `processStream`'s. -/
def entryOutlook (cfg : Config) (kind : Kind) (spooled streamed : Outlook) : Outlook :=
  if kind.wraps && cfg.spoolWrappers then spooled else streamed

mutual
def Found.streamOutlook (cfg : Config) (sized : Bool) : Found → Bool → ℕ → Option ℕ → Outlook
  | .mk source kind _ streamed viewed, c, depth, stated =>
    (memberOutlook cfg source kind
      (streamed.outlook cfg sized kind (source.due sized stated) c (depth + 1))
      (fun c => viewed.outlook cfg sized kind c (depth + 1)) c depth).provided
        (source.fits sized stated)

def Found.spoolOutlook (cfg : Config) (sized : Bool) : Found → Bool → ℕ → Outlook
  | .mk source _ viewKind _ viewed, c, depth =>
    if source.error.isSome then .broken
    else insideOutlook cfg (unprobed viewKind)
      (fun c => viewed.outlook cfg sized (unprobed viewKind) c (depth + 1)) c depth

def Found.rangeOutlook (cfg : Config) (sized : Bool) : Found → ℕ → Bool → ℕ → Outlook
  | .mk source _ viewKind _ viewed, len, c, depth =>
    if source.opens = false ∨ source.probes viewKind len = false then .broken
    else (insideOutlook cfg viewKind
      (fun c => viewed.outlook cfg sized viewKind c (depth + 1)) c depth).provided
        (!sized || len = source.bytes.length)

def Streamed.outlook (cfg : Config) (sized : Bool) : Streamed → Kind → ℕ → Bool → ℕ → Outlook
  | .nil stop _, kind, _, _, _ => ⟨kind = .zip && stop.isError, false, true⟩
  | .cons stated pulled found rest, kind, due, c, depth =>
    let o := entryOutlook cfg kind (found.spoolOutlook cfg sized c depth)
      (found.streamOutlook cfg sized c depth stated)
    (o.and (rest.outlook cfg sized kind due c depth)).provided
      (o.harmless (streamSwallows kind) ((sized || rest.isNil) && due ≤ pulled))

def Viewed.outlook (cfg : Config) (sized : Bool) : Viewed → Kind → Bool → ℕ → Outlook
  | .nil _, _, _, _ => .fine
  | .cons how found rest, kind, c, depth =>
    let later := rest.outlook cfg sized kind c depth
    match how.walked kind with
    | .closed _ => later
    | .range len =>
      let o := found.rangeOutlook cfg sized len c depth
      (o.and later).provided (o.harmless (viewSwallows kind) (sized || rest.isNil))
    | .stream stated | .item _ stated =>
      let o := Outlook.redone (fun c => entryOutlook cfg kind (found.spoolOutlook cfg sized c depth)
        (found.streamOutlook cfg sized c depth stated)) c
      (o.and later).provided (o.harmless (viewSwallows kind) (sized || rest.isNil))
end

section
variable {own : Option ℕ} {st st₁ st₂ st' : St} {m : Opened} {cfg : Config} {sized c : Bool}
variable {o o' : Outlook} {kind : Kind} {source : Source} {f : Bool → Outlook}

@[simp] theorem Outlook.sound_and : (o.and o').sound = (o.sound && o'.sound) := rfl

@[simp] theorem Outlook.sound_provided {b : Bool} : (o.provided b).sound = (o.sound && b) := rfl

@[simp] theorem Outlook.sound_contained :
    (Outlook.contained kind f c).sound = (Outlook.redone f c).sound := rfl

/-- The first attempt, and the second one if there may be one. -/
theorem Outlook.redone_sound (h : (Outlook.redone f c).sound = true) :
    (f c).sound = true ∧ ((f c).retries = true → (f true).sound = true) := by
  unfold Outlook.redone at h
  split_ifs at h with hretries
  · obtain ⟨hfirst, hagain⟩ := Bool.and_eq_true_iff.mp h
    exact ⟨hfirst, fun _ => hagain⟩
  · exact ⟨h, fun hyes => absurd hyes hretries⟩

theorem Outlook.redone_fails (h : (f c).fails = true ∨ (f c).retries = true ∧ (f true).fails = true) :
    (Outlook.redone f c).fails = true := by
  unfold Outlook.redone
  obtain h | ⟨hretries, h⟩ := h
  · split_ifs
    · show ((f c).fails || (f true).fails) = true
      rw [h, Bool.true_or]
    · exact h
  · rw [if_pos hretries]
    show ((f c).fails || (f true).fails) = true
    rw [h, Bool.or_true]

/-! ### What is sealed -/

/-- What was sealed meanwhile is good, or its slot is dead. -/
def Settles (sized : Bool) (st st' : St) : Prop :=
  ∀ x ∈ st'.members, x ∈ st.members ∨ x.slot ∈ st'.dead ∨ x.Good sized

theorem Settles.refl : Settles sized st st := fun _ hx => .inl hx

theorem Settles.trans (h₁ : Settles sized st st₁) (h₂ : Settles sized st₁ st₂)
    (hdead : st₁.dead ⊆ st₂.dead) : Settles sized st st₂ := by
  intro x hx
  obtain hx | hx := h₂ x hx
  · obtain hx | hx | hx := h₁ x hx
    · exact .inl hx
    · exact .inr (.inl (hdead hx))
    · exact .inr (.inr hx)
  · exact .inr hx

theorem Grows.dead (h : Grows own st st') : st.dead ⊆ st'.dead := by
  obtain ⟨_, _, _, h⟩ := h
  rw [h.dead]
  exact List.subset_append_left _ _

theorem Seals.dead (h : Seals m st st') : st.dead ⊆ st'.dead := by
  obtain ⟨st₁, x, hgrows, -, -, rfl⟩ := h
  exact hgrows.dead

/-- After a discard all that was sealed since is dead. -/
theorem discard_settles (h : Grows own st st') :
    Settles sized st (st'.discard st.slots.length) := by
  obtain ⟨new, kept, died, h⟩ := h
  intro x hx
  have hx : x ∈ st'.members := hx
  rw [h.members] at hx
  obtain hx | hx := List.mem_append.mp hx
  · exact .inl hx
  · have hslot : x.slot ∈ kept ++ died := h.settled.symm.subset (List.mem_map_of_mem hx)
    have hdrop : st'.slots.drop st.slots.length = kept := by rw [h.slots, List.drop_left]
    refine .inr (.inl ?_)
    show x.slot ∈ st'.dead ++ st'.slots.drop st.slots.length
    rw [hdrop, h.dead]
    obtain hslot | hslot := List.mem_append.mp hslot
    · exact List.mem_append_right _ hslot
    · exact List.mem_append_left _ (List.mem_append_right _ hslot)

/-- The error that a walk is left on. -/
def Walked.error : Walked → Option Err
  | .ended _ _ _ => none
  | .failed _ e _ _ => some e

def Err.isRetry : Err → Bool
  | .retry _ => true
  | .hard _ => false

/-- A part of the walk, and the error that comes out of it. -/
structure Meets (sized : Bool) (o : Outlook) (c : Bool) (st st' : St) (e : Option Err) : Prop where
  retries : ∀ why, e = some (.retry why) → c = false ∧ o.retries = true
  fails : ∀ what, e = some (.hard what) → o.fails = true
  settles : (∀ why, e ≠ some (.retry why)) → Settles sized st st'

/-- A walk over entries, whose errors are `swallowed` or else lose nothing. -/
structure Walks (sized : Bool) (swallowed : Option String) (due : ℕ) (o : Outlook) (c : Bool)
    (st st' : St) (w : Walked) : Prop where
  retries : ∀ why, w.error = some (.retry why) → c = false ∧ o.retries = true
  fails : ∀ children what pulled lost, w = .failed children (.hard what) pulled lost →
    swallowed.isSome = true ∨ o.fails = true ∧ (sized = true ∨ lost = false) ∧ due ≤ pulled
  settles : (∀ why, w.error ≠ some (.retry why)) → Settles sized st st'

theorem Meets.refl : Meets sized o c st st none :=
  ⟨fun _ h => (nomatch h), fun _ h => (nomatch h), fun _ => Settles.refl⟩

theorem Walks.ended {swallowed : Option String} {due children pulled : ℕ} {stop : Stop}
    (h : Settles sized st st') : Walks sized swallowed due o c st st' (.ended children stop pulled) :=
  ⟨fun _ h => (nomatch h), fun _ _ _ _ h => (nomatch h), fun _ => h⟩

/-- A member is sealed. -/
theorem seal_meets {pushed : Bytes} {lost : Bool} {r : Except Err (ℕ × Option String)}
    (hst : (∀ why, r ≠ .error (.retry why)) → Settles sized st st₁)
    (hretries : ∀ why, r = .error (.retry why) → c = false ∧ o.retries = true)
    (hfails : ∀ what, r = .error (.hard what) → o.fails = true ∧ (sized = true ∨ lost = false))
    (hnoted : ∀ x, r = .ok x → lost = true → x.2.isSome = true)
    (hbytes : (∀ why, r ≠ .error (.retry why)) → sized = false → source.error = none →
      pushed = source.bytes)
    (hsize : (∀ why, r ≠ .error (.retry why)) → sized = true →
      ∀ n, m.stated = some n → n = pushed.length) :
    Meets sized o c st (st₁.seal m source kind pushed lost r).1
      (st₁.seal m source kind pushed lost r).2 := by
  cases r with
  | ok x =>
    have hok : ∀ why, Except.ok x ≠ (.error (.retry why) : Except Err (ℕ × Option String)) := by simp
    refine ⟨fun _ h => (nomatch h), fun _ h => (nomatch h), fun _ y hy => ?_⟩
    obtain hy | hy := List.mem_append.mp hy
    · exact hst hok y hy
    · rw [List.mem_singleton.mp hy]
      exact .inr (.inr ⟨fun hsized => ⟨hbytes hok hsized, hnoted x rfl⟩, hsize hok⟩)
  | error e =>
    refine ⟨fun why h => hretries why ?_, fun what h => (hfails what ?_).1, fun h y hy => ?_⟩
    · exact congrArg Except.error (Option.some.inj h)
    · exact congrArg Except.error (Option.some.inj h)
    · have hhard : ∀ why, (.error e : Except Err (ℕ × Option String)) ≠ .error (.retry why) := by
        intro why he
        exact h why (congrArg some (Except.error.inj he))
      obtain hy | hy := List.mem_append.mp hy
      · exact hst hhard y hy
      · rw [List.mem_singleton.mp hy]
        have hlost : sized = true ∨ lost = false := by
          cases e with
          | retry why => exact absurd rfl (hhard why)
          | hard what => exact (hfails what rfl).2
        refine .inr (.inr ⟨fun hsized => ⟨hbytes hhard hsized, fun hyes => ?_⟩, hsize hhard⟩)
        simp only [hsized, Bool.false_eq_true, false_or] at hlost
        rw [hlost] at hyes
        cases hyes

/-! ### How walks end -/

theorem viewResult_ended (kind : Kind) (children : ℕ) (stop : Stop) (pulled : ℕ) :
    ∃ x, viewResult kind (.ended children stop pulled) = .ok x := by
  cases kind <;> cases stop <;> exact ⟨_, rfl⟩

theorem viewResult_failed {children pulled : ℕ} {e : Err} {lost : Bool} (h : kind.hasEntries = true) :
    viewResult kind (.failed children e pulled lost)
      = match viewSwallows kind with
        | some what => swallow (.error e) children what
        | none => .error e := by
  cases kind <;> first | rfl | cases h

theorem streamResult_ended (bytes : Bytes) (children pulled : ℕ) {stop : Stop}
    (h : kind = .zip → stop.isError = false) :
    ∃ x, streamResult kind bytes (.ended children stop pulled) = (bytes, .ok x) := by
  cases kind <;> cases stop <;> first | exact ⟨_, rfl⟩ | cases h rfl

theorem streamResult_failed {bytes : Bytes} {children pulled : ℕ} {e : Err} {lost : Bool}
    (h : kind.hasEntries = true) :
    streamResult kind bytes (.failed children e pulled lost)
      = match streamSwallows kind, e with
        | some prefixed, .hard what => (bytes, .ok (children, some s!"{prefixed}: {what}"))
        | _, e => (bytes.take pulled, .error e) := by
  cases kind <;> first | rfl | cases h

/-- What comes out of a retry boundary. -/
structure Inside (sized : Bool) (o : Outlook) (st st' : St) (w : Walked)
    (r : Except Err (ℕ × Option String)) : Prop where
  settles : Settles sized st st'
  retries : ∀ why, r ≠ .error (.retry why)
  fails : ∀ what, r = .error (.hard what) → o.fails = true ∧ (sized = true ∨ w.lost = false)
  noted : ∀ x, r = .ok x → w.lost = true → x.2.isSome = true

/-- A walk of a view that need not be made again. -/
theorem Walks.inside {w : Walked} (h : Walks sized (viewSwallows kind) 0 o c st st' w)
    (hentries : kind.hasEntries = false → ∃ children stop pulled, w = .ended children stop pulled)
    (hretries : ∀ why, viewResult kind w ≠ .error (.retry why)) :
    Inside sized (o.swallowed (viewSwallows kind)) st st' w (viewResult kind w) := by
  cases w with
  | ended children stop pulled =>
    obtain ⟨x, hx⟩ := viewResult_ended kind children stop pulled
    rw [hx]
    exact ⟨h.settles (by simp [Walked.error]), by simp, by simp, by simp [Walked.lost]⟩
  | failed children e pulled lost =>
    have hkind : kind.hasEntries = true := by
      by_contra hkind
      obtain ⟨_, _, _, hended⟩ := hentries (by simpa using hkind)
      cases hended
    rw [viewResult_failed hkind] at hretries ⊢
    cases hswallows : viewSwallows kind with
    | some what =>
      rw [hswallows] at hretries
      cases e with
      | retry why => exact absurd rfl (hretries why)
      | hard text =>
        exact ⟨h.settles (by simp [Walked.error]), by simp [swallow], by simp [swallow],
          by simp [swallow]⟩
    | none =>
      rw [hswallows] at hretries
      cases e with
      | retry why => exact absurd rfl (hretries why)
      | hard text =>
        obtain hsome | ⟨hfails, hlost, -⟩ := h.fails children text pulled lost rfl
        · rw [hswallows] at hsome
          cases hsome
        · refine ⟨h.settles (by simp [Walked.error]), by simp, fun what _ => ⟨?_, hlost⟩, by simp⟩
          rw [Outlook.swallowed, hfails]
          rfl

/-- Whether a walk of a view has to be made again. -/
theorem Walks.retried {w : Walked} (h : Walks sized (viewSwallows kind) 0 o c st st' w) {why : String}
    (hw : viewResult kind w = .error (.retry why)) : c = false ∧ o.retries = true := by
  cases w with
  | ended children stop pulled =>
    obtain ⟨x, hx⟩ := viewResult_ended kind children stop pulled
    rw [hx] at hw
    cases hw
  | failed children e pulled lost =>
    cases e with
    | retry why => exact h.retries why rfl
    | hard text =>
      by_cases hkind : kind.hasEntries = true
      · rw [viewResult_failed hkind] at hw
        cases hswallows : viewSwallows kind <;> simp [hswallows, swallow] at hw
      · cases kind <;> first | exact absurd rfl hkind | cases hw

/-- What the walk of a view keeps to, in a first attempt or in the repetition. -/
structure Attempts (sized : Bool) (kind : Kind) (own : Option ℕ) (f : Bool → Outlook)
    (attempt : Bool → St → St × Walked) : Prop where
  grows : ∀ c st, (∀ x ∈ own, x < st.next) → Grows own st (attempt c st).1
  entries : kind.hasEntries = false → ∀ c st, ∃ children stop pulled,
    (attempt c st).2 = .ended children stop pulled
  walks : ∀ c st, (∀ x ∈ own, x < st.next) → (f c).sound = true →
    Walks sized (viewSwallows kind) 0 (f c) c st (attempt c st).1 (attempt c st).2

/-- **The retry boundary.** What is settled in the repetition is, and the first attempt is dead. -/
theorem descendRetrying_inside {attempt : Bool → St → St × Walked}
    (h : Attempts sized kind own f attempt) (hown : ∀ x ∈ own, x < st.next) (hsound : (Outlook.contained kind f c).sound = true) :
    Inside sized (Outlook.contained kind f c) st (descendRetrying kind attempt c st).1
      (descendRetrying kind attempt c st).2.1 (descendRetrying kind attempt c st).2.2 := by
  obtain ⟨hfirst, hagain⟩ := Outlook.redone_sound hsound
  have hgrown := h.grows c st hown
  have hwalked := h.walks c st hown hfirst
  have hmask : ∀ {o : Outlook}, (o.swallowed (viewSwallows kind)).fails = true →
      (o.fails = true → (Outlook.redone f c).fails = true) →
      (Outlook.contained kind f c).fails = true := by
    intro o ho himp
    obtain ⟨hnone, ho⟩ := Bool.and_eq_true_iff.mp ho
    exact Bool.and_eq_true_iff.mpr ⟨hnone, himp ho⟩
  unfold descendRetrying
  dsimp only
  split
  · rename_i why hretry
    obtain ⟨hc, hretries⟩ := hwalked.retried hretry
    rw [if_neg (by simp [hc])]
    have hdiscard := discard_grows hgrown
    have hown' : ∀ x ∈ own, x < ((attempt c st).1.discard st.slots.length).next := fun x hx =>
      (hown x hx).trans_le hdiscard.next
    have hwalked' := h.walks true _ hown' (hagain hretries)
    have hinside := hwalked'.inside (fun hkind => h.entries hkind true _) fun why hwhy => by
      cases (hwalked'.retried hwhy).1
    refine ⟨?_, hinside.retries, fun what hwhat => ?_, hinside.noted⟩
    · exact (discard_settles hgrown).trans hinside.settles (h.grows true _ hown').dead
    · obtain ⟨hfails, hlost⟩ := hinside.fails what hwhat
      exact ⟨hmask hfails fun h => Outlook.redone_fails (.inr ⟨hretries, h⟩), hlost⟩
  · rename_i hretry
    have hinside := hwalked.inside (fun hkind => h.entries hkind c st) fun why hwhy => hretry why hwhy
    refine ⟨hinside.settles, hinside.retries, fun what hwhat => ?_, hinside.noted⟩
    obtain ⟨hfails, hlost⟩ := hinside.fails what hwhat
    exact ⟨hmask hfails fun h => Outlook.redone_fails (.inl h), hlost⟩

/-! ### A member -/

theorem Inside.seal {w : Walked} {r : Except Err (ℕ × Option String)}
    (h : Inside sized o st st₁ w r) (hsize : sized = true →
      ∀ n, m.stated = some n → n = source.bytes.length) :
    Meets sized o c st (st₁.seal m source kind source.bytes w.lost r).1
      (st₁.seal m source kind source.bytes w.lost r).2 :=
  seal_meets (fun _ => h.settles) (fun why hr => absurd hr (h.retries why)) h.fails h.noted
    (fun _ _ _ => rfl) fun _ => hsize

/-- Nothing below it is walked. -/
theorem shut_meets {pushed : Bytes} {r : Except Err (ℕ × Option String)}
    (hretries : ∀ why, r ≠ .error (.retry why))
    (hfails : ∀ what, r = .error (.hard what) → o.fails = true)
    (hbytes : source.error = none → pushed = source.bytes)
    (hsize : sized = true → ∀ n, m.stated = some n → n = pushed.length) :
    Meets sized o c st (st.seal m source kind pushed false r).1
      (st.seal m source kind pushed false r).2 :=
  seal_meets (fun _ => Settles.refl) (fun why hr => absurd hr (hretries why))
    (fun what hr => ⟨hfails what hr, .inr rfl⟩) (by simp) (fun _ _ => hbytes) fun _ => hsize

theorem Source.fits_opens (h : source.fits sized m.stated = true) (hopens : source.opens = true) :
    sized = true → ∀ n, m.stated = some n → n = source.bytes.length := by
  intro hsized n hn
  simpa [Source.fits, hsized, hopens, hn] using h

theorem Source.opens_error (h : source.opens = false) : source.error ≠ none := by
  intro hnone
  simp [Source.opens, hnone] at h

theorem runRanged_meets {attempt : Bool → St → St × Walked}
    (h : Attempts sized kind (some m.slot) f attempt) (hm : m.slot < st.next) (hsound : (insideOutlook cfg kind f c m.depth).sound = true)
    (hsize : sized = true → ∀ n, m.stated = some n → n = source.bytes.length) :
    Meets sized (insideOutlook cfg kind f c m.depth) c st
      (runRanged cfg c m source kind attempt st).1 (runRanged cfg c m source kind attempt st).2 := by
  have hown : ∀ x ∈ some m.slot, x < st.next := by simpa using hm
  unfold runRanged
  dsimp only
  split_ifs with hdeep henters
  · exact shut_meets (by simp [Except.map]) (by simp [Except.map]) (fun _ => rfl) hsize
  · exact shut_meets (by simp [Except.map]) (by simp [Except.map]) (fun _ => rfl) hsize
  · have ho : insideOutlook cfg kind f c m.depth = .contained kind f c := by
      rw [insideOutlook, if_neg hdeep, if_neg henters]
    rw [ho] at hsound ⊢
    have hinside := descendRetrying_inside h hown hsound
    refine Inside.seal ⟨hinside.settles, fun why hr => ?_, fun what hr => ?_, fun x hx hlost => ?_⟩
      hsize
    · cases hres : (descendRetrying kind attempt c st).2.2 with
      | ok x => simp [hres, Except.map] at hr
      | error e =>
        rw [hres] at hr
        exact hinside.retries why (hres.trans hr)
    · cases hres : (descendRetrying kind attempt c st).2.2 with
      | ok x => simp [hres, Except.map] at hr
      | error e =>
        rw [hres] at hr
        exact hinside.fails what (hres.trans hr)
    · cases hres : (descendRetrying kind attempt c st).2.2 with
      | ok y =>
        have hnoted := hinside.noted y hres hlost
        obtain ⟨children, note⟩ := y
        rw [hres] at hx
        cases Except.ok.inj hx
        cases note with
        | none => cases hnoted
        | some text => cases source.error <;> rfl
      | error e => simp [hres, Except.map] at hx

theorem runSpooled_meets {attempt : Bool → St → St × Walked}
    (h : Attempts sized kind (some m.slot) f attempt) (hm : m.slot < st.next) (hstated : m.stated = none)
    (hsound : (if source.error.isSome then .broken
      else insideOutlook cfg kind f c m.depth : Outlook).sound = true) :
    Meets sized (if source.error.isSome then .broken else insideOutlook cfg kind f c m.depth) c st
      (runSpooled cfg c m source kind attempt st).1
      (runSpooled cfg c m source kind attempt st).2 := by
  have hsize : sized = true → ∀ n, m.stated = some n → n = source.bytes.length := by
    intro _ n hn
    rw [hstated] at hn
    cases hn
  unfold runSpooled
  cases herror : source.error with
  | some e =>
    refine shut_meets (by simp) (fun _ _ => rfl) (fun _ => rfl) hsize
  | none =>
    rw [herror] at hsound
    exact runRanged_meets h hm hsound hsize

/-- A stream is sealed with what was pulled of it. -/
theorem Walks.seal {w : Walked}
    (h : Walks sized (streamSwallows kind) (source.due sized m.stated) o c st st' w)
    (hentries : kind.hasEntries = true) (hc : c = true → kind ≠ .zip)
    (hstop : ∀ children stop pulled, w = .ended children stop pulled → kind = .zip →
      stop.isError = true → o.retries = true)
    (hsize : sized = true → ∀ n, m.stated = some n → n = source.bytes.length) :
    Meets sized (o.swallowed (streamSwallows kind)) c st
      (st'.seal m source kind (streamResult kind source.bytes w).1 w.lost
        (streamResult kind source.bytes w).2).1
      (st'.seal m source kind (streamResult kind source.bytes w).1 w.lost
        (streamResult kind source.bytes w).2).2 := by
  cases w with
  | ended children stop pulled =>
    have hsettles := h.settles (by simp [Walked.error])
    by_cases hzip : kind = .zip ∧ stop.isError = true
    · obtain ⟨rfl, hstop'⟩ := hzip
      have hretries := hstop children stop pulled rfl rfl hstop'
      have hfirst : c = false := by
        by_contra hc'
        exact hc (by simpa using hc') rfl
      cases stop with
      | done => cases hstop'
      | notes texts => cases hstop'
      | error what =>
        exact seal_meets (fun _ => hsettles) (fun _ _ => ⟨hfirst, hretries⟩) (by simp [streamResult])
          (by simp [streamResult]) (fun hr => absurd rfl (hr what)) fun hr => absurd rfl (hr what)
    · have hquiet : kind = .zip → stop.isError = false := fun hkind => by simpa [hkind] using hzip
      obtain ⟨x, hx⟩ := streamResult_ended source.bytes children pulled hquiet
      rw [hx]
      exact seal_meets (fun _ => hsettles) (by simp) (by simp) (by simp [Walked.lost])
        (fun _ _ _ => rfl) fun _ => hsize
  | failed children e pulled lost =>
    rw [streamResult_failed hentries]
    cases e with
    | retry why =>
      have hretries := h.retries why rfl
      cases hswallows : streamSwallows kind <;>
        exact seal_meets (fun hr => absurd rfl (hr why)) (fun _ _ => hretries) (by simp) (by simp)
          (fun hr => absurd rfl (hr why)) fun hr => absurd rfl (hr why)
    | hard what =>
      have hsettles := h.settles (by simp [Walked.error])
      cases hswallows : streamSwallows kind with
      | some prefixed =>
        exact seal_meets (fun _ => hsettles) (by simp) (by simp) (by simp) (fun _ _ _ => rfl)
          fun _ => hsize
      | none =>
        obtain hsome | ⟨hfails, hlost, hpulled⟩ := h.fails children what pulled lost rfl
        · rw [hswallows] at hsome
          cases hsome
        · refine seal_meets (fun _ => hsettles) (by simp) (fun _ _ => ⟨?_, hlost⟩) (by simp)
            (fun _ hsized hnone => ?_) fun _ hsized n hn => ?_
          · rw [Outlook.swallowed, hfails]
            rfl
          · rw [Source.due, hsized, hnone] at hpulled
            exact List.take_of_length_le hpulled
          · rw [Source.due, hsized, hn] at hpulled
            rw [List.take_of_length_le hpulled]
            exact hsize hsized n hn

theorem runMember_meets {arms : St → St × Walked} {attempt : Bool → St → St × Walked}
    {streamed : Outlook}
    (harms : ∀ st, m.slot < st.next → (c = true → kind ≠ .zip) → streamed.sound = true →
      Walks sized (streamSwallows kind) (source.due sized m.stated) streamed c st (arms st).1
        (arms st).2
        ∧ ∀ children stop pulled, (arms st).2 = .ended children stop pulled → kind = .zip →
          stop.isError = true → streamed.retries = true)
    (h : Attempts sized kind (some m.slot) f attempt) (hm : m.slot < st.next)
    (hfits : source.fits sized m.stated = true)
    (hsound : (memberOutlook cfg source kind streamed f c m.depth).sound = true) :
    Meets sized (memberOutlook cfg source kind streamed f c m.depth) c st
      (runMember cfg c m source kind arms attempt st).1
      (runMember cfg c m source kind arms attempt st).2 := by
  have hown : ∀ x ∈ some m.slot, x < st.next := by simpa using hm
  unfold runMember
  by_cases hopens : source.opens = false
  · rw [if_pos hopens]
    rw [memberOutlook, if_pos hopens] at hsound ⊢
    refine shut_meets (by simp) (fun _ _ => rfl) (fun hnone => ?_) fun hsized n hn => ?_
    · exact absurd hnone (Source.opens_error hopens)
    · simpa [Source.fits, hsized, hopens, hn] using hfits
  · have hsize := Source.fits_opens hfits (by simpa using hopens)
    rw [memberOutlook, if_neg hopens] at hsound ⊢
    rw [if_neg hopens]
    split_ifs at hsound ⊢ with hdeep henters hspools herror hkind
    · exact shut_meets (by simp) (by simp) (fun _ => rfl) hsize
    · exact shut_meets (by simp) (by simp) (fun _ => rfl) hsize
    · obtain ⟨e, he⟩ := Option.isSome_iff_exists.mp herror
      rw [he]
      exact shut_meets (by simp) (fun _ _ => rfl) (fun _ => rfl) hsize
    · have hnone : source.error = none := by simpa using herror
      rw [hnone]
      exact (descendRetrying_inside h hown hsound).seal hsize
    · have hc : c = true → kind ≠ .zip := by
        intro hc hzip
        subst hc hzip
        refine hspools ⟨rfl, ?_⟩
        simpa using henters
      obtain ⟨hwalked, hstop⟩ := harms st hm hc hsound
      exact hwalked.seal hkind hc hstop hsize
    · have hkind : kind.hasEntries = false := by simpa using hkind
      have hquiet : kind = .zip → Stop.done.isError = false := fun _ => rfl
      obtain ⟨x, hx⟩ := streamResult_ended source.bytes 0 0 hquiet
      dsimp only
      rw [hx]
      exact shut_meets (by simp) (by simp) (fun _ => rfl) hsize

/-! ### An entry -/

/-- Only the members that were there count. -/
theorem Settles.since (h : Settles sized st₁ st') (hmembers : st₁.members = st.members) :
    Settles sized st st' := by
  intro x hx
  rw [← hmembers]
  exact h x hx

theorem Meets.since {e : Option Err} (h : Meets sized o c st₁ st' e)
    (hmembers : st₁.members = st.members) : Meets sized o c st st' e :=
  ⟨h.retries, h.fails, fun hretries => (h.settles hretries).since hmembers⟩

theorem Meets.ended (h : Settles sized st st') : Meets sized o c st st' none :=
  ⟨fun _ h => (nomatch h), fun _ h => (nomatch h), fun _ => h⟩

theorem processStream_meets (cfg : Config) (kind : Kind) (depth : ℕ) {own : ℕ} {stated : Option ℕ}
    {run spool : Opened → St → St × Option Err} {spooled streamed : Outlook}
    (hsound : (entryOutlook cfg kind spooled streamed).sound = true)
    (hrun : ∀ m st, m.depth = depth → m.stated = stated → m.slot < st.next →
      streamed.sound = true → Meets sized streamed c st (run m st).1 (run m st).2)
    (hspool : ∀ m st, m.depth = depth → m.stated = none → m.slot < st.next →
      spooled.sound = true → Meets sized spooled c st (spool m st).1 (spool m st).2) :
    Meets sized (entryOutlook cfg kind spooled streamed) c st
      (processStream cfg (kind.wraps && cfg.spoolWrappers) depth own stated run spool st).1
      (processStream cfg (kind.wraps && cfg.spoolWrappers) depth own stated run spool st).2 := by
  unfold processStream
  split_ifs with hcapped hspooled
  · exact Meets.ended Settles.refl
  · rw [entryOutlook, if_pos hspooled] at hsound ⊢
    have h := hspool ⟨(alloc cfg st).1, some own, depth, none, (alloc cfg st).1⟩
      ((alloc cfg st).2.push (alloc cfg st).1) rfl rfl alloc_lt hsound
    exact h.since rfl
  · rw [entryOutlook, if_neg hspooled] at hsound ⊢
    have h := hrun ⟨(alloc cfg st).1, some own, depth, stated, (alloc cfg st).1⟩
      ((alloc cfg st).2.push (alloc cfg st).1) rfl rfl alloc_lt hsound
    exact h.since rfl

theorem nameClosed_settles {own depth : ℕ} {note : String} :
    Settles sized st (nameClosed cfg depth own note st) := by
  unfold nameClosed
  split_ifs
  · exact Settles.refl
  · intro x hx
    obtain hx | hx := List.mem_append.mp hx
    · exact .inl hx
    · rw [List.mem_singleton.mp hx]
      refine .inr (.inr ⟨fun _ => ⟨by simp, by simp⟩, fun _ n hn => ?_⟩)
      cases hn
      rfl

theorem bury_settles {own depth slot stated : ℕ} :
    Settles sized st (bury own depth slot stated st) := by
  intro x hx
  obtain hx | hx := List.mem_append.mp hx
  · exact .inl hx
  · rw [List.mem_singleton.mp hx]
    exact .inr (.inl (List.mem_append_right _ (List.mem_singleton_self slot)))

theorem buryAll_dead {own depth : ℕ} {slots : List (ℕ × ℕ)} :
    st.dead ⊆ (buryAll own depth slots st).dead := by
  induction slots generalizing st with
  | nil => exact List.Subset.refl _
  | cons s slots ih =>
    rw [buryAll]
    intro x hx
    exact ih (List.mem_append_left _ hx)

theorem buryAll_settles {own depth : ℕ} {slots : List (ℕ × ℕ)} :
    Settles sized st (buryAll own depth slots st) := by
  induction slots generalizing st with
  | nil => exact Settles.refl
  | cons s slots ih =>
    rw [buryAll]
    exact bury_settles.trans ih buryAll_dead

/-- Slots that are taken in advance are not sealed yet. -/
theorem allocBatch_members (cfg : Config) : ∀ (viewed : Viewed) (st : St),
    (allocBatch cfg viewed st).2.members = st.members
  | .nil _, st => rfl
  | .cons _ _ rest, st => by
    unfold allocBatch
    split_ifs
    · rfl
    · dsimp only
      split
      · split_ifs
        · rfl
        · exact allocBatch_members cfg _ _
      · rfl

theorem allocBatch_settles {viewed : Viewed} : Settles sized st (allocBatch cfg viewed st).2 := by
  intro x hx
  rw [allocBatch_members] at hx
  exact .inl hx

/-- A worker's item, which it runs again conservatively if it has to. -/
theorem runItem_meets {own depth slot stated : ℕ} {run : Bool → Opened → St → St × Option Err}
    (hown : own < slot) (hslot : slot < st.next) (hsound : (Outlook.redone f c).sound = true)
    (hseals : ∀ c m st, m.slot < st.next → Seals m st (run c m st).1)
    (hrun : ∀ c m st, m.depth = depth → m.stated = some stated → m.slot < st.next →
      (f c).sound = true → Meets sized (f c) c st (run c m st).1 (run c m st).2) :
    (∀ why, (runItem cfg c own depth slot stated run st).2 ≠ some (.retry why)) ∧
      Settles sized st (runItem cfg c own depth slot stated run st).1 := by
  obtain ⟨hfirst, hagain⟩ := Outlook.redone_sound hsound
  have hfirst := hrun c ⟨slot, some own, depth, some stated, slot⟩ { st with slots := [slot] } rfl rfl
    hslot hfirst
  have hgrown : Grows (some own) { st with slots := [] }
      (run c ⟨slot, some own, depth, some stated, slot⟩ { st with slots := [slot] }).1 :=
    (hseals c ⟨slot, some own, depth, some stated, slot⟩ { st with slots := [slot] } hslot).grows rfl
      (by simpa using hown)
  have hdiscard : Settles sized { st with slots := [] } _ := discard_settles hgrown
  have hnext := hgrown.next
  revert hfirst hdiscard hnext
  unfold runItem
  dsimp only
  generalize run c ⟨slot, some own, depth, some stated, slot⟩ { st with slots := [slot] } = first
  intro hfirst hdiscard hnext
  obtain ⟨st₁, e⟩ := first
  cases e with
  | none => exact ⟨by simp, (hfirst.settles (by simp)).since rfl⟩
  | some e =>
    cases e with
    | hard what => exact ⟨by simp, (hfirst.settles (by simp)).since rfl⟩
    | retry why =>
      obtain ⟨rfl, hretries⟩ := hfirst.retries why rfl
      let st₂ : St := { st₁ with slots := [], dead := st₁.dead ++ st₁.slots }
      let again := (alloc cfg st₂).1
      let m : Opened := ⟨again, some own, depth, some stated, slot⟩
      have hm : m.slot < ((alloc cfg st₂).2.push again).next := alloc_lt
      have hsecond := hrun true m _ rfl rfl hm (hagain hretries)
      have hretries : ∀ why, (run true m ((alloc cfg st₂).2.push again)).2 ≠ some (.retry why) := by
        intro why hwhy
        cases (hsecond.retries why hwhy).1
      refine ⟨hretries, ?_⟩
      have hsettles : Settles sized st₂ (run true m ((alloc cfg st₂).2.push again)).1 :=
        (hsecond.settles hretries).since rfl
      have hfirst : Settles sized st st₂ := hdiscard.since rfl
      exact hfirst.trans hsettles (hseals true m _ hm).dead

/-! ### The walks -/

theorem Walks.since_settled {swallowed : Option String} {due : ℕ} {w : Walked}
    (h₁ : Settles sized st st₁) (h₂ : Walks sized swallowed due o c st₁ st₂ w)
    (hdead : st₁.dead ⊆ st₂.dead) : Walks sized swallowed due o c st st₂ w :=
  ⟨h₂.retries, h₂.fails, fun hretries => h₁.trans (h₂.settles hretries) hdead⟩

/-- After an entry, the later ones. -/
theorem Walks.later {swallowed : Option String} {due : ℕ} {w : Walked} {b : Bool}
    (h₁ : Meets sized o c st st₁ none) (h₂ : Walks sized swallowed due o' c st₁ st₂ w)
    (hdead : st₁.dead ⊆ st₂.dead) :
    Walks sized swallowed due ((o.and o').provided b) c st st₂ w := by
  refine ⟨fun why hw => ?_, fun children what pulled lost hw => ?_, fun hretries => ?_⟩
  · obtain ⟨hc, hretries⟩ := h₂.retries why hw
    refine ⟨hc, ?_⟩
    show (o.retries || o'.retries) = true
    rw [hretries, Bool.or_true]
  · obtain hsome | ⟨hfails, hlost, hdue⟩ := h₂.fails children what pulled lost hw
    · exact .inl hsome
    · refine .inr ⟨?_, hlost, hdue⟩
      show (o.fails || o'.fails) = true
      rw [hfails, Bool.or_true]
  · exact (h₁.settles (by simp)).trans (h₂.settles hretries) hdead

/-- The walk is left on an entry's error. -/
theorem Walks.left {swallowed : Option String} {due children pulled : ℕ} {e : Err} {spared lost b : Bool}
    (h : Meets sized o c st st₁ (some e)) (hharmless : o.harmless swallowed spared = true)
    (hspared : spared = true → (sized = true ∨ lost = false) ∧ due ≤ pulled) :
    Walks sized swallowed due ((o.and o').provided b) c st st₁ (.failed children e pulled lost) := by
  refine ⟨fun why hw => ?_, fun children what pulled lost hw => ?_, fun hretries => h.settles hretries⟩
  · obtain ⟨hc, hretries⟩ := h.retries why hw
    refine ⟨hc, ?_⟩
    show (o.retries || o'.retries) = true
    rw [hretries, Bool.true_or]
  · cases hw
    have hfails := h.fails what rfl
    rw [Outlook.harmless, hfails, Bool.not_true, Bool.false_or, Bool.or_eq_true] at hharmless
    obtain hsome | hyes := hharmless
    · exact .inl hsome
    · obtain ⟨hlost, hdue⟩ := hspared hyes
      refine .inr ⟨?_, hlost, hdue⟩
      show (o.fails || o'.fails) = true
      rw [hfails, Bool.true_or]

/-- An entry, and the later ones unless it ends the walk. -/
theorem Walks.entry {swallowed : Option String} {own children : ℕ} {res : St × Option Err}
    {next : St → St × Walked} {last : Bool} (ho : own < st.next)
    (hchild : Meets sized o c st res.1 res.2) (hgrows : Grows (some own) st res.1)
    (hharmless : o.harmless swallowed (sized || last) = true)
    (hrest : ∀ st', own < st'.next → Walks sized swallowed 0 o' c st' (next st').1 (next st').2
      ∧ Grows (some own) st' (next st').1) :
    Walks sized swallowed 0 ((o.and o').provided (o.harmless swallowed (sized || last))) c st
      (match res with
      | (st, some e) => (st, Walked.failed children e 0 !last)
      | (st, none) => next st).1
      (match res with
      | (st, some e) => (st, Walked.failed children e 0 !last)
      | (st, none) => next st).2 := by
  obtain ⟨st', _ | e⟩ := res
  · obtain ⟨hwalks, hgrows'⟩ := hrest st' (ho.trans_le hgrows.next)
    exact Walks.later hchild hwalks hgrows'.dead
  · refine Walks.left hchild hharmless fun hspared => ⟨?_, Nat.zero_le _⟩
    obtain hsized | hlast := Bool.or_eq_true_iff.mp hspared
    · exact .inl hsized
    · exact .inr (by rw [hlast]; rfl)

theorem Meets.redone {e : Option Err} (h : Meets sized (f c) c st st' e) :
    Meets sized (Outlook.redone f c) c st st' e := by
  refine ⟨fun why he => ?_, fun what he => Outlook.redone_fails (.inl (h.fails what he)), h.settles⟩
  obtain ⟨hc, hretries⟩ := h.retries why he
  refine ⟨hc, ?_⟩
  rw [Outlook.redone, if_pos hretries]
  show ((f c).retries || (f true).retries) = true
  rw [hretries, Bool.true_or]

theorem insideOutlook_retries {depth : ℕ} : (insideOutlook cfg kind f c depth).retries = false := by
  unfold insideOutlook
  split_ifs <;> rfl

theorem rangeOutlook_retries {found : Found} {len depth : ℕ} :
    (found.rangeOutlook cfg sized len c depth).retries = false := by
  obtain ⟨source, streamKind, viewKind, streamed, viewed⟩ := found
  rw [Found.rangeOutlook]
  split_ifs
  · rfl
  · exact insideOutlook_retries

theorem How.walked_eq {how : How} (hsquash : kind ≠ .squashFs) (herofs : kind ≠ .erofs) :
    how.walked kind = how := by
  cases kind <;> first | rfl | exact absurd rfl hsquash | exact absurd rfl herofs

/-- The lengths of the packed files of an erofs. -/
def Viewed.packed : Viewed → List ℕ
  | .nil _ => []
  | .cons (.range _) _ rest => rest.packed
  | .cons how _ rest => how.stated :: rest.packed

/-- The first pass takes a slot for each packed file, as far as it gets. -/
theorem erofsAlloc_packed (cfg : Config) : ∀ (viewed : Viewed) (c : Bool) (depth own children : ℕ)
    (st : St), (erofsAlloc cfg viewed c depth own children st).2.1.map Prod.snd <+: viewed.packed
  | .nil _, _, _, _, _, _ => List.prefix_rfl
  | .cons how found rest, c, depth, own, children, st => by
    have hitem (stated : ℕ) : ∀ res, res =
          (if capped cfg st then (st.ticked, [], Walked.ended children .done 0)
          else
            let res := erofsAlloc cfg rest c depth own (children + 1) (alloc cfg st).2
            (res.1, ((alloc cfg st).1, stated) :: res.2.1, res.2.2)) →
        res.2.1.map Prod.snd <+: stated :: rest.packed := by
      intro res hres
      subst hres
      split_ifs
      · exact List.nil_prefix
      · exact List.cons_prefix_cons.mpr
          ⟨rfl, erofsAlloc_packed cfg rest c depth own (children + 1) (alloc cfg st).2⟩
    cases how with
    | range len =>
      rw [erofsAlloc]
      generalize rangeFound _ _ _ _ _ _ _ = res
      obtain ⟨st', _ | e⟩ := res
      · exact erofsAlloc_packed cfg rest c depth own (children + 1) st'
      · exact List.nil_prefix
    | stream stated => exact hitem _ _ rfl
    | item batch stated => exact hitem _ _ rfl
    | closed note => exact hitem _ _ rfl

/-- What the walkers of a seekable container keep to. -/
structure Walkers.Meet (sized : Bool) (o : Outlook) (c : Bool) (own : ℕ) (kind : Kind)
    (viewed : Viewed) (w : Walkers) : Prop where
  entries : kind ≠ .squashFs → kind ≠ .erofs → ∀ st, own < st.next →
    Walks sized (viewSwallows kind) 0 o c st (w.entries kind st).1 (w.entries kind st).2
  squash : kind = .squashFs → ∀ base slots st, (∀ s ∈ slots, own < s ∧ s < base) → base ≤ st.next →
    (∀ why, (w.squash base slots st).2.error ≠ some (.retry why)) ∧
      Settles sized st (w.squash base slots st).1
  erofsAlloc : kind = .erofs → ∀ st, own < st.next →
    (∀ why, (w.erofsAlloc st).2.2.error ≠ some (.retry why)) ∧ Settles sized st (w.erofsAlloc st).1
  packed : ∀ st, (w.erofsAlloc st).2.1.map Prod.snd <+: viewed.packed
  erofsRun : kind = .erofs → ∀ base slots st, (∀ s ∈ slots, own < s.1 ∧ s.1 < base) →
    base ≤ st.next → slots.map Prod.snd <+: viewed.packed →
    Settles sized st (w.erofsRun base slots st).1

theorem Err.withNotes_retry {e : Err} {stop : Stop} {why : String}
    (h : e.withNotes stop = .retry why) : e = .retry why := by
  cases e with
  | retry text => exact h
  | hard text =>
    unfold Err.withNotes at h
    split at h
    · split at h <;> cases h
    · exact h

theorem Walkers.Meet.walk_meets {own depth : ℕ} {w : Walkers} {viewed : Viewed}
    (h : w.Meet sized o c own kind viewed) (hgrow : w.Grow own) (hown : own < st.next) :
    Walks sized (viewSwallows kind) 0 o c st (Walkers.walk cfg viewed depth own kind w st).1
      (Walkers.walk cfg viewed depth own kind w st).2 := by
  unfold Walkers.walk
  split
  · exact Walks.ended Settles.refl
  · exact Walks.ended Settles.refl
  · obtain ⟨hgrows, hslots⟩ := allocBatch_spec (some own) cfg viewed st
    have hslots : ∀ s ∈ (allocBatch cfg viewed st).1,
        own < s ∧ s < (allocBatch cfg viewed st).2.next :=
      fun s hs => ⟨hown.trans_le (hslots s hs).1, (hslots s hs).2⟩
    obtain ⟨hretries, hsettles⟩ := h.squash rfl _ _ _ hslots le_rfl
    refine ⟨fun why hw => absurd hw (hretries why), fun _ _ _ _ _ => .inl rfl, fun _ => ?_⟩
    exact allocBatch_settles.trans hsettles (hgrow.squash _ _ _ hslots le_rfl).dead
  · obtain ⟨hgrows, hslots⟩ := hgrow.erofsAlloc st hown
    obtain ⟨hretries, hsettles⟩ := h.erofsAlloc rfl st hown
    have hrun := h.erofsRun rfl _ _ _ hslots le_rfl (h.packed st)
    have hdead := (hgrow.erofsRun _ _ _ hslots le_rfl).dead
    dsimp only
    split
    · rename_i children e pulled lost hfirst
      refine ⟨fun why hw => ?_, fun _ _ _ _ _ => .inl rfl, fun _ => ?_⟩
      · have he : e = .retry why := Err.withNotes_retry (Option.some.inj hw)
        refine absurd ?_ (hretries why)
        rw [hfirst, he]
        rfl
      · exact hsettles.trans buryAll_settles buryAll_dead
    · split <;> exact Walks.ended (hsettles.trans hrun hdead)
  · exact h.entries (by assumption) (by assumption) st hown

theorem walkers_grow (viewed : Viewed) (depth own : ℕ) : Walkers.Grow own
    ⟨fun kind st => entryWalk cfg viewed c depth own kind 0 st,
      fun base slots st => squashWalk cfg viewed c depth own base slots none 0 false st,
      fun st => erofsAlloc cfg viewed c depth own 0 st,
      fun base slots st => erofsRun cfg viewed c depth own base slots st⟩ :=
  ⟨fun kind st h => entryWalk_grows cfg viewed c _ _ kind _ st h,
    fun base slots st h hb => squashWalk_grows cfg viewed c _ _ base slots _ _ _ st h hb,
    fun st h => erofsAlloc_grows cfg viewed c _ _ _ st h,
    fun base slots st h hb => erofsRun_grows cfg viewed c _ _ base slots st h hb⟩

/-- **The walk of a view,** whose walkers keep to the outlook. -/
theorem viewWalk_attempts {viewed : Viewed} {depth own : ℕ}
    (hentries : ∀ c st, own < st.next → kind ≠ .squashFs → kind ≠ .erofs →
      (viewed.outlook cfg sized kind c depth).sound = true →
      Walks sized (viewSwallows kind) 0 (viewed.outlook cfg sized kind c depth) c st
        (entryWalk cfg viewed c depth own kind 0 st).1 (entryWalk cfg viewed c depth own kind 0 st).2)
    (hsquash : ∀ c base slots st, (∀ s ∈ slots, own < s ∧ s < base) → base ≤ st.next →
      (viewed.outlook cfg sized .squashFs c depth).sound = true →
      (∀ why, (squashWalk cfg viewed c depth own base slots none 0 false st).2.error
          ≠ some (.retry why))
        ∧ Settles sized st (squashWalk cfg viewed c depth own base slots none 0 false st).1)
    (halloc : ∀ c st, own < st.next → (viewed.outlook cfg sized .erofs c depth).sound = true →
      (∀ why, (erofsAlloc cfg viewed c depth own 0 st).2.2.error ≠ some (.retry why))
        ∧ Settles sized st (erofsAlloc cfg viewed c depth own 0 st).1)
    (hrun : ∀ c base slots st, (∀ s ∈ slots, own < s.1 ∧ s.1 < base) → base ≤ st.next →
      slots.map Prod.snd <+: viewed.packed → (viewed.outlook cfg sized .erofs c depth).sound = true →
      Settles sized st (erofsRun cfg viewed c depth own base slots st).1) :
    Attempts sized kind (some own) (fun c => viewed.outlook cfg sized kind c depth)
      fun c st => viewWalk cfg viewed c depth own kind st where
  grows := fun c st ho => (walkers_grow viewed depth own).walk_grows (by simpa using ho)
  entries := by
    intro hkind c st
    cases kind <;> first | exact ⟨_, _, _, rfl⟩ | cases hkind
  walks := by
    intro c st ho hsound
    have hmeet : Walkers.Meet sized (viewed.outlook cfg sized kind c depth) c own kind viewed
        ⟨fun kind st => entryWalk cfg viewed c depth own kind 0 st,
          fun base slots st => squashWalk cfg viewed c depth own base slots none 0 false st,
          fun st => erofsAlloc cfg viewed c depth own 0 st,
          fun base slots st => erofsRun cfg viewed c depth own base slots st⟩ :=
      ⟨fun h₁ h₂ st ho => hentries c st ho h₁ h₂ hsound,
        fun hkind base slots st hs hb => hsquash c base slots st hs hb (hkind ▸ hsound),
        fun hkind st ho => halloc c st ho (hkind ▸ hsound),
        fun st => erofsAlloc_packed cfg viewed c depth own 0 st,
        fun hkind base slots st hs hb hpacked =>
          hrun c base slots st hs hb hpacked (hkind ▸ hsound)⟩
    exact hmeet.walk_meets (walkers_grow viewed depth own) (by simpa using ho)

/-- A streamed entry, given what is below it. -/
theorem streamEntry_meets {found : Found} {depth own : ℕ} {stated : Option ℕ} (ho : own < st.next)
    (hsound : (entryOutlook cfg kind (found.spoolOutlook cfg sized c depth)
      (found.streamOutlook cfg sized c depth stated)).sound = true)
    (hrun : ∀ m st, m.slot < st.next →
      (found.streamOutlook cfg sized c m.depth m.stated).sound = true →
      Meets sized (found.streamOutlook cfg sized c m.depth m.stated) c st
        (runFound cfg found c m st).1 (runFound cfg found c m st).2)
    (hspool : ∀ m st, m.slot < st.next → m.stated = none →
      (found.spoolOutlook cfg sized c m.depth).sound = true →
      Meets sized (found.spoolOutlook cfg sized c m.depth) c st
        (spoolFound cfg found c m st).1 (spoolFound cfg found c m st).2) :
    Meets sized (entryOutlook cfg kind (found.spoolOutlook cfg sized c depth)
        (found.streamOutlook cfg sized c depth stated)) c st
      (processStream cfg (kind.wraps && cfg.spoolWrappers) depth own stated
        (fun m st => runFound cfg found c m st) (fun m st => spoolFound cfg found c m st) st).1
      (processStream cfg (kind.wraps && cfg.spoolWrappers) depth own stated
        (fun m st => runFound cfg found c m st) (fun m st => spoolFound cfg found c m st) st).2
      ∧ Grows (some own) st
        (processStream cfg (kind.wraps && cfg.spoolWrappers) depth own stated
          (fun m st => runFound cfg found c m st) (fun m st => spoolFound cfg found c m st) st).1 := by
  refine ⟨processStream_meets cfg kind depth hsound (fun m st hdepth hstated hm hs => ?_)
    (fun m st hdepth hstated hm hs => ?_), processStream_grows cfg _ depth stated ho
      (fun m st hm => runFound_seals cfg found c m st hm)
      fun m st hm => spoolFound_seals cfg found c m st hm⟩
  · rw [← hdepth, ← hstated] at hs ⊢
    exact hrun m st hm hs
  · rw [← hdepth] at hs ⊢
    exact hspool m st hm hstated hs

/-- An item of a squashfs, and those after it. -/
theorem Viewed.outlook_squash {how : How} {found : Found} {rest : Viewed} {depth : ℕ}
    (h : (Viewed.outlook cfg sized (.cons how found rest) .squashFs c depth).sound = true) :
    (Outlook.redone (fun c => found.streamOutlook cfg sized c depth (some how.stated)) c).sound = true
      ∧ (rest.outlook cfg sized .squashFs c depth).sound = true := by
  rw [Viewed.outlook] at h
  cases how <;> exact Bool.and_eq_true_iff.mp (Bool.and_eq_true_iff.mp h).1

/-- A packed file of an erofs, and what comes after it. -/
theorem Viewed.outlook_packed {how : How} {found : Found} {rest : Viewed} {depth : ℕ}
    (hhow : ∀ len, how ≠ .range len)
    (h : (Viewed.outlook cfg sized (.cons how found rest) .erofs c depth).sound = true) :
    (Outlook.redone (fun c => found.streamOutlook cfg sized c depth (some how.stated)) c).sound = true
      ∧ (rest.outlook cfg sized .erofs c depth).sound = true := by
  rw [Viewed.outlook] at h
  cases how with
  | range len => exact absurd rfl (hhow len)
  | stream stated => exact Bool.and_eq_true_iff.mp (Bool.and_eq_true_iff.mp h).1
  | item batch stated => exact Bool.and_eq_true_iff.mp (Bool.and_eq_true_iff.mp h).1
  | closed note => exact Bool.and_eq_true_iff.mp (Bool.and_eq_true_iff.mp h).1

/-- A flat file of an erofs, and what comes after it. -/
theorem Viewed.outlook_flat {len : ℕ} {found : Found} {rest : Viewed} {depth : ℕ}
    (h : (Viewed.outlook cfg sized (.cons (.range len) found rest) .erofs c depth).sound = true) :
    (found.rangeOutlook cfg sized len c depth).sound = true
      ∧ (rest.outlook cfg sized .erofs c depth).sound = true := by
  rw [Viewed.outlook] at h
  exact Bool.and_eq_true_iff.mp (Bool.and_eq_true_iff.mp h).1

/-- An item that a worker runs, given what is below it. -/
theorem item_meets (st : St) {found : Found} {depth own base slot stated : ℕ} (hown : own < slot)
    (hslot : slot < base)
    (hsound : (Outlook.redone (fun c => found.streamOutlook cfg sized c depth (some stated)) c).sound
      = true)
    (hrun : ∀ c m st, m.slot < st.next →
      (found.streamOutlook cfg sized c m.depth m.stated).sound = true →
      Meets sized (found.streamOutlook cfg sized c m.depth m.stated) c st
        (runFound cfg found c m st).1 (runFound cfg found c m st).2) :
    (∀ why, (runItem cfg c own depth slot stated (fun c m st => runFound cfg found c m st)
        { st with next := base }).2 ≠ some (.retry why))
      ∧ Settles sized st (runItem cfg c own depth slot stated
        (fun c m st => runFound cfg found c m st) { st with next := base }).1 := by
  refine runItem_meets hown hslot hsound (fun c m st hm => runFound_seals cfg found c m st hm)
    fun c m st hdepth hstated hm hs => ?_
  rw [← hdepth, ← hstated] at hs ⊢
  exact hrun c m st hm hs

end

mutual

theorem runFound_meets (cfg : Config) (sized : Bool) : ∀ (found : Found) (c : Bool) (m : Opened)
    (st : St), m.slot < st.next → (found.streamOutlook cfg sized c m.depth m.stated).sound = true →
    Meets sized (found.streamOutlook cfg sized c m.depth m.stated) c st
      (runFound cfg found c m st).1 (runFound cfg found c m st).2
  | .mk source streamKind viewKind streamed viewed, c, m, st, hm, hsound => by
    rw [Found.streamOutlook, Outlook.sound_provided, Bool.and_eq_true] at hsound
    rw [runFound]
    have hmeets := runMember_meets
      (fun st hst hc => streamWalk_meets cfg sized streamed c (m.depth + 1) m.slot streamKind _ 0 st
        hst hc)
      (viewWalk_attempts (fun c st => entryWalk_meets cfg sized viewed c _ _ _ 0 st)
        (fun c base slots st hs hb => squashWalk_meets cfg sized viewed c _ _ base slots none 0 false
          st hs hb (by simp))
        (fun c st => erofsAlloc_meets cfg sized viewed c _ _ 0 st)
        fun c base slots st => erofsRun_meets cfg sized viewed c _ _ base slots st)
      hm hsound.2 hsound.1
    exact ⟨hmeets.retries, hmeets.fails, hmeets.settles⟩

theorem spoolFound_meets (cfg : Config) (sized : Bool) : ∀ (found : Found) (c : Bool) (m : Opened)
    (st : St), m.slot < st.next → m.stated = none →
    (found.spoolOutlook cfg sized c m.depth).sound = true →
    Meets sized (found.spoolOutlook cfg sized c m.depth) c st
      (spoolFound cfg found c m st).1 (spoolFound cfg found c m st).2
  | .mk source streamKind viewKind streamed viewed, c, m, st, hm, hstated, hsound => by
    rw [Found.spoolOutlook] at hsound ⊢
    rw [spoolFound]
    exact runSpooled_meets
      (viewWalk_attempts (fun c st => entryWalk_meets cfg sized viewed c _ _ _ 0 st)
        (fun c base slots st hs hb => squashWalk_meets cfg sized viewed c _ _ base slots none 0 false
          st hs hb (by simp))
        (fun c st => erofsAlloc_meets cfg sized viewed c _ _ 0 st)
        fun c base slots st => erofsRun_meets cfg sized viewed c _ _ base slots st)
      hm hstated hsound

theorem rangeFound_meets (cfg : Config) (sized : Bool) : ∀ (found : Found) (c : Bool) (depth : ℕ)
    (parent : Option ℕ) (len : ℕ) (st : St),
    (found.rangeOutlook cfg sized len c depth).sound = true →
    Meets sized (found.rangeOutlook cfg sized len c depth) c st
      (rangeFound cfg found c depth parent len st).1 (rangeFound cfg found c depth parent len st).2
  | .mk source streamKind viewKind streamed viewed, c, depth, parent, len, st, hsound => by
    rw [Found.rangeOutlook] at hsound ⊢
    rw [rangeFound]
    by_cases hcapped : capped cfg st = true
    · rw [if_pos hcapped]
      exact Meets.ended Settles.refl
    rw [if_neg hcapped]
    split_ifs at hsound ⊢ with hopens
    · exact ⟨by simp, fun _ _ => rfl, fun _ => Settles.refl⟩
    · rw [Outlook.sound_provided, Bool.and_eq_true] at hsound
      let slot := (alloc cfg st).1
      let m : Opened := ⟨slot, parent, depth, some len, slot⟩
      have hm : m.slot < ((alloc cfg st).2.push slot).next := alloc_lt
      have hsize : sized = true → ∀ n, m.stated = some n → n = source.bytes.length := by
        intro hsized n hn
        cases hn
        simpa [hsized] using hsound.2
      have hmeets := runRanged_meets (m := m)
        (viewWalk_attempts (fun c st => entryWalk_meets cfg sized viewed c _ _ _ 0 st)
          (fun c base slots st hs hb => squashWalk_meets cfg sized viewed c _ _ base slots none 0 false
            st hs hb (by simp))
          (fun c st => erofsAlloc_meets cfg sized viewed c _ _ 0 st)
          fun c base slots st => erofsRun_meets cfg sized viewed c _ _ base slots st)
        hm hsound.1 hsize
      have hmeets : Meets sized _ c st _ _ := hmeets.since rfl
      exact ⟨hmeets.retries, hmeets.fails, hmeets.settles⟩

theorem streamWalk_meets (cfg : Config) (sized : Bool) : ∀ (streamed : Streamed) (c : Bool)
    (depth own : ℕ) (kind : Kind) (due children : ℕ) (st : St), own < st.next →
    (c = true → kind ≠ .zip) → (streamed.outlook cfg sized kind due c depth).sound = true →
    Walks sized (streamSwallows kind) due (streamed.outlook cfg sized kind due c depth) c st
        (streamWalk cfg streamed c depth own kind children st).1
        (streamWalk cfg streamed c depth own kind children st).2
      ∧ ∀ n stop pulled,
        (streamWalk cfg streamed c depth own kind children st).2 = .ended n stop pulled →
        kind = .zip → stop.isError = true →
          (streamed.outlook cfg sized kind due c depth).retries = true
  | .nil stop pulled, c, depth, own, kind, due, children, st, ho, hc, hsound => by
    refine ⟨Walks.ended Settles.refl, fun n stop' pulled' hw hzip hstop => ?_⟩
    cases hw
    show (decide (kind = .zip) && stop.isError) = true
    rw [hstop, decide_eq_true hzip]
    rfl
  | .cons stated pulled found rest, c, depth, own, kind, due, children, st, ho, hc, hsound => by
    rw [Streamed.outlook] at hsound ⊢
    rw [Outlook.sound_provided, Outlook.sound_and, Bool.and_eq_true, Bool.and_eq_true] at hsound
    obtain ⟨⟨hentry, hrest⟩, hharmless⟩ := hsound
    have hchild := streamEntry_meets ho hentry
      (fun m st hm hs => runFound_meets cfg sized found c m st hm hs)
      (fun m st hm hstated hs => spoolFound_meets cfg sized found c m st hm hstated hs)
    rw [streamWalk]
    revert hchild
    generalize processStream _ _ _ _ _ _ _ _ = res
    rintro ⟨hchild, hgrows⟩
    obtain ⟨st', _ | e⟩ := res
    · have ho' : own < st'.next := ho.trans_le hgrows.next
      obtain ⟨hwalks, hstop⟩ := streamWalk_meets cfg sized rest c depth own kind due (children + 1) st'
        ho' hc hrest
      have hdead := (streamWalk_grows cfg rest c depth own kind (children + 1) st' ho').dead
      refine ⟨Walks.later hchild hwalks hdead, fun n stop pulled hw hzip hstop' => ?_⟩
      show (_ || (rest.outlook cfg sized kind due c depth).retries) = true
      rw [hstop n stop pulled hw hzip hstop', Bool.or_true]
    · refine ⟨Walks.left hchild hharmless fun hspared => ?_, fun n stop pulled hw => nomatch hw⟩
      obtain ⟨hspared, hdue⟩ := Bool.and_eq_true_iff.mp hspared
      refine ⟨?_, by simpa using hdue⟩
      obtain hsized | hnil := Bool.or_eq_true_iff.mp hspared
      · exact .inl hsized
      · exact .inr (by rw [hnil]; rfl)

theorem entryWalk_meets (cfg : Config) (sized : Bool) : ∀ (viewed : Viewed) (c : Bool)
    (depth own : ℕ) (kind : Kind) (children : ℕ) (st : St), own < st.next → kind ≠ .squashFs →
    kind ≠ .erofs → (viewed.outlook cfg sized kind c depth).sound = true →
    Walks sized (viewSwallows kind) 0 (viewed.outlook cfg sized kind c depth) c st
      (entryWalk cfg viewed c depth own kind children st).1
      (entryWalk cfg viewed c depth own kind children st).2
  | .nil stop, c, depth, own, kind, children, st, ho, hsquash, herofs, hsound =>
    Walks.ended Settles.refl
  | .cons how found rest, c, depth, own, kind, children, st, ho, hsquash, herofs, hsound => by
    rw [Viewed.outlook, How.walked_eq hsquash herofs] at hsound ⊢
    have hrest (children : ℕ) (hsound : (rest.outlook cfg sized kind c depth).sound = true) :
        ∀ st', own < st'.next →
          Walks sized (viewSwallows kind) 0 (rest.outlook cfg sized kind c depth) c st'
              (entryWalk cfg rest c depth own kind children st').1
              (entryWalk cfg rest c depth own kind children st').2
            ∧ Grows (some own) st' (entryWalk cfg rest c depth own kind children st').1 :=
      fun st' ho' => ⟨entryWalk_meets cfg sized rest c depth own kind children st' ho' hsquash herofs
        hsound, entryWalk_grows cfg rest c depth own kind children st' ho'⟩
    have hstream (stated : Option ℕ) (hsound : (Outlook.redone (fun c => entryOutlook cfg kind
        (found.spoolOutlook cfg sized c depth) (found.streamOutlook cfg sized c depth stated)) c).sound
        = true) := streamEntry_meets ho (Outlook.redone_sound hsound).1
      (fun m st hm hs => runFound_meets cfg sized found c m st hm hs)
      (fun m st hm hstated hs => spoolFound_meets cfg sized found c m st hm hstated hs)
    cases how with
    | closed note =>
      rw [entryWalk]
      have hgrows : Grows (some own) st (nameClosed cfg depth own note st) := nameClosed_grows ho
      obtain ⟨hwalks, hgrows'⟩ := hrest children hsound _ (ho.trans_le hgrows.next)
      exact Walks.since_settled nameClosed_settles hwalks hgrows'.dead
    | range len =>
      dsimp only at hsound
      rw [Outlook.sound_provided, Outlook.sound_and, Bool.and_eq_true, Bool.and_eq_true] at hsound
      obtain ⟨⟨hentry, hlater⟩, hharmless⟩ := hsound
      rw [entryWalk]
      exact Walks.entry ho (rangeFound_meets cfg sized found c depth (some own) len st hentry)
        (rangeFound_grows cfg found c depth (some own) len st (by simpa using ho)) hharmless
        (hrest (children + 1) hlater)
    | stream stated =>
      dsimp only at hsound
      rw [Outlook.sound_provided, Outlook.sound_and, Bool.and_eq_true, Bool.and_eq_true] at hsound
      obtain ⟨⟨hentry, hlater⟩, hharmless⟩ := hsound
      obtain ⟨hchild, hgrows⟩ := hstream stated hentry
      rw [entryWalk]
      exact Walks.entry ho hchild.redone hgrows hharmless (hrest (children + 1) hlater)
    | item batch stated =>
      dsimp only at hsound
      rw [Outlook.sound_provided, Outlook.sound_and, Bool.and_eq_true, Bool.and_eq_true] at hsound
      obtain ⟨⟨hentry, hlater⟩, hharmless⟩ := hsound
      obtain ⟨hchild, hgrows⟩ := hstream (some stated) hentry
      rw [entryWalk]
      exact Walks.entry ho hchild.redone hgrows hharmless (hrest (children + 1) hlater)

theorem squashWalk_meets (cfg : Config) (sized : Bool) : ∀ (viewed : Viewed) (c : Bool)
    (depth own base : ℕ) (slots : List ℕ) (failed : Option Err) (children : ℕ) (lost : Bool) (st : St),
    (∀ s ∈ slots, own < s ∧ s < base) → base ≤ st.next → (∀ why, failed ≠ some (.retry why)) →
    (viewed.outlook cfg sized .squashFs c depth).sound = true →
    (∀ why, (squashWalk cfg viewed c depth own base slots failed children lost st).2.error
        ≠ some (.retry why))
      ∧ Settles sized st (squashWalk cfg viewed c depth own base slots failed children lost st).1
  | .nil _, _, _, _, _, _, failed, _, _, st, _, _, hfailed, _ => by
    cases failed with
    | none => exact ⟨fun _ h => (nomatch h), Settles.refl⟩
    | some e => exact ⟨hfailed, Settles.refl⟩
  | .cons _ _ _, _, _, _, _, [], failed, _, _, st, _, _, hfailed, _ => by
    cases failed with
    | none => exact ⟨fun _ h => (nomatch h), Settles.refl⟩
    | some e => exact ⟨hfailed, Settles.refl⟩
  | .cons how found rest, c, depth, own, base, slot :: slots, failed, children, lost, st, hslots, hbase,
      hfailed, hsound => by
    obtain ⟨hitem, hlater⟩ := Viewed.outlook_squash hsound
    obtain ⟨hown, hslot⟩ := hslots slot List.mem_cons_self
    have hslots : ∀ s ∈ slots, own < s ∧ s < base := fun s hs => hslots s (List.mem_cons_of_mem _ hs)
    have hburied : Grows (some own) st (bury own depth slot how.stated st.ticked) :=
      ticked_grows.trans (bury_grows hown)
    have hrun : Grows (some own) { st with next := base } (runItem cfg c own depth slot how.stated
        (fun c m st => runFound cfg found c m st) { st with next := base }).1 :=
      runItem_grows hown hslot fun c m st hm => runFound_seals cfg found c m st hm
    obtain ⟨hretries, hsettles⟩ := item_meets st hown hslot hitem
      fun c m st hm hs => runFound_meets cfg sized found c m st hm hs
    have hrest (failed : Option Err) (children : ℕ) (lost : Bool) (st' : St)
        (hgrows : Grows (some own) st st') (hsettles : Settles sized st st')
        (hfailed : ∀ why, failed ≠ some (.retry why)) : ∀ res, res =
          (match rest with
          | .cons next _ _ =>
            if next.startsBatch then
              match failed with
              | some e => (st', Walked.failed children e 0 true)
              | none =>
                squashWalk cfg rest c depth own (allocBatch cfg rest st').2.next
                  (allocBatch cfg rest st').1 none children lost (allocBatch cfg rest st').2
            else squashWalk cfg rest c depth own base slots failed children lost st'
          | .nil _ => squashWalk cfg rest c depth own base slots failed children lost st') →
        (∀ why, res.2.error ≠ some (.retry why)) ∧ Settles sized st res.1 := by
      intro res hres
      have hnext : base ≤ st'.next := hbase.trans hgrows.next
      have hsame := squashWalk_meets cfg sized rest c depth own base slots failed children lost st'
        hslots hnext hfailed hlater
      have hdead := (squashWalk_grows cfg rest c depth own base slots failed children lost st' hslots
        hnext).dead
      revert hres
      split
      next next found' after =>
        intro hres
        split_ifs at hres
        · cases failed with
          | some e => subst hres; exact ⟨hfailed, hsettles⟩
          | none =>
            obtain ⟨hbatch, hnew⟩ := allocBatch_spec (some own) cfg (.cons next found' after) st'
            have hnew : ∀ s ∈ (allocBatch cfg (.cons next found' after) st').1, own < s
                ∧ s < (allocBatch cfg (.cons next found' after) st').2.next := fun s hs =>
              ⟨(hown.trans (hslot.trans_le hnext)).trans_le (hnew s hs).1, (hnew s hs).2⟩
            obtain ⟨hretries', hsettles'⟩ := squashWalk_meets cfg sized (.cons next found' after) c
              depth own _ _ none children lost _ hnew le_rfl (by simp) hlater
            have hdead' := (squashWalk_grows cfg (.cons next found' after) c depth own _ _ none children
              lost _ hnew le_rfl).dead
            subst hres
            exact ⟨hretries', (hsettles.trans allocBatch_settles hbatch.dead).trans hsettles' hdead'⟩
        · subst hres
          exact ⟨hsame.1, hsettles.trans hsame.2 hdead⟩
      · intro hres
        subst hres
        exact ⟨hsame.1, hsettles.trans hsame.2 hdead⟩
    rw [squashWalk]
    by_cases hleft : (failed.isSome && !(cfg.ticks st.tick).taken) = true
    · rw [if_pos hleft]
      exact hrest failed children true _ hburied (bury_settles.since rfl) hfailed _ rfl
    · rw [if_neg hleft]
      refine hrest _ (children + 1) lost _ hrun.rebased hsettles (fun why h => ?_) _ rfl
      cases failed with
      | none => exact hretries why h
      | some e => exact hfailed why h

theorem erofsAlloc_meets (cfg : Config) (sized : Bool) : ∀ (viewed : Viewed) (c : Bool)
    (depth own children : ℕ) (st : St), own < st.next →
    (viewed.outlook cfg sized .erofs c depth).sound = true →
    (∀ why, (erofsAlloc cfg viewed c depth own children st).2.2.error ≠ some (.retry why))
      ∧ Settles sized st (erofsAlloc cfg viewed c depth own children st).1
  | .nil _, _, _, _, _, _, _, _ => ⟨fun _ h => (nomatch h), Settles.refl⟩
  | .cons how found rest, c, depth, own, children, st, ho, hsound => by
    have hitem (stated : ℕ) (hlater : (rest.outlook cfg sized .erofs c depth).sound = true) :
        ∀ res, res =
          (if capped cfg st then (st.ticked, [], Walked.ended children .done 0)
          else
            let res := erofsAlloc cfg rest c depth own (children + 1) (alloc cfg st).2
            (res.1, ((alloc cfg st).1, stated) :: res.2.1, res.2.2)) →
        (∀ why, res.2.2.error ≠ some (.retry why)) ∧ Settles sized st res.1 := by
      intro res hres
      subst hres
      have halloc : Grows (some own) st (alloc cfg st).2 := alloc_grows
      obtain ⟨hretries, hsettles⟩ := erofsAlloc_meets cfg sized rest c depth own (children + 1) _
        (ho.trans_le halloc.next) hlater
      split_ifs
      · exact ⟨fun _ h => (nomatch h), Settles.refl⟩
      · exact ⟨hretries, hsettles.since rfl⟩
    cases how with
    | range len =>
      obtain ⟨hentry, hlater⟩ := Viewed.outlook_flat hsound
      have hchild := rangeFound_meets cfg sized found c depth (some own) len st hentry
      have hgrows := rangeFound_grows cfg found c depth (some own) len st (by simpa using ho)
      rw [erofsAlloc]
      revert hchild hgrows
      generalize rangeFound _ _ _ _ _ _ _ = res
      intro hchild hgrows
      obtain ⟨st', _ | e⟩ := res
      · have ho' : own < st'.next := ho.trans_le hgrows.next
        obtain ⟨hretries, hsettles⟩ :=
          erofsAlloc_meets cfg sized rest c depth own (children + 1) st' ho' hlater
        have hdead := (erofsAlloc_grows cfg rest c depth own (children + 1) st' ho').1.dead
        exact ⟨hretries, (hchild.settles (by simp)).trans hsettles hdead⟩
      · have hretries : ∀ why, some e ≠ some (.retry why) := by
          intro why he
          have hyes := (hchild.retries why he).2
          rw [rangeOutlook_retries] at hyes
          cases hyes
        exact ⟨hretries, hchild.settles hretries⟩
    | stream stated => exact hitem _ (Viewed.outlook_packed (by simp) hsound).2 _ rfl
    | item batch stated => exact hitem _ (Viewed.outlook_packed (by simp) hsound).2 _ rfl
    | closed note => exact hitem _ (Viewed.outlook_packed (by simp) hsound).2 _ rfl

theorem erofsRun_meets (cfg : Config) (sized : Bool) : ∀ (viewed : Viewed) (c : Bool)
    (depth own base : ℕ) (slots : List (ℕ × ℕ)) (st : St),
    (∀ s ∈ slots, own < s.1 ∧ s.1 < base) → base ≤ st.next →
    slots.map Prod.snd <+: viewed.packed → (viewed.outlook cfg sized .erofs c depth).sound = true →
    Settles sized st (erofsRun cfg viewed c depth own base slots st).1
  | .nil _, _, _, _, _, _, _, _, _, _, _ => Settles.refl
  | .cons how found rest, c, depth, own, base, slots, st, hslots, hbase, hpacked, hsound => by
    have hitem (slot : ℕ) (left : List (ℕ × ℕ)) (h : slots = (slot, how.stated) :: left)
        (hleft : left.map Prod.snd <+: rest.packed) (hentry : (Outlook.redone
          (fun c => found.streamOutlook cfg sized c depth (some how.stated)) c).sound = true)
        (hlater : (rest.outlook cfg sized .erofs c depth).sound = true) :
        Settles sized st (erofsRun cfg rest c depth own base left
          { (runItem cfg c own depth slot how.stated (fun c m st => runFound cfg found c m st)
              { st with next := base }).1 with
            next := max st.next (runItem cfg c own depth slot how.stated
              (fun c m st => runFound cfg found c m st) { st with next := base }).1.next }).1 := by
      subst h
      obtain ⟨hown, hslot⟩ := hslots (slot, how.stated) List.mem_cons_self
      have hslots : ∀ s ∈ left, own < s.1 ∧ s.1 < base := fun s hs =>
        hslots s (List.mem_cons_of_mem _ hs)
      have hmeets := item_meets st hown hslot hentry
        fun c m st hm hs => runFound_meets cfg sized found c m st hm hs
      revert hmeets
      generalize runItem _ _ _ _ _ _ _ _ = res
      intro hmeets
      let st' : St := { res.1 with next := max st.next res.1.next }
      have hnext : base ≤ st'.next := hbase.trans (le_max_left _ _)
      have hfirst : Settles sized st st' := hmeets.2.since rfl
      exact hfirst.trans
        (erofsRun_meets cfg sized rest c depth own base left st' hslots hnext hleft hlater)
        (erofsRun_grows cfg rest c depth own base left st' hslots hnext).dead
    cases how with
    | range len =>
      exact erofsRun_meets cfg sized rest c depth own base slots st hslots hbase hpacked
        (Viewed.outlook_flat hsound).2
    | _ =>
      obtain ⟨hentry, hlater⟩ := Viewed.outlook_packed (by simp) hsound
      cases slots with
      | nil => exact Settles.refl
      | cons s left =>
        obtain ⟨slot, stated⟩ := s
        obtain ⟨hstated, hleft⟩ := List.cons_prefix_cons.mp hpacked
        cases hstated
        have hrun := hitem slot left rfl hleft hentry hlater
        rw [erofsRun]
        · dsimp only
          split <;> exact hrun
        · intro len h
          cases h

end

theorem viewWalk_meets (cfg : Config) (sized : Bool) (viewed : Viewed) (depth own : ℕ) (kind : Kind) :
    Attempts sized kind (some own) (fun c => viewed.outlook cfg sized kind c depth)
      fun c st => viewWalk cfg viewed c depth own kind st :=
  viewWalk_attempts (fun c st => entryWalk_meets cfg sized viewed c _ _ _ 0 st)
    (fun c base slots st hs hb => squashWalk_meets cfg sized viewed c _ _ base slots none 0 false
      st hs hb (by simp))
    (fun c st => erofsAlloc_meets cfg sized viewed c _ _ 0 st)
    fun c base slots st => erofsRun_meets cfg sized viewed c _ _ base slots st

end Descent

end Hashdex
