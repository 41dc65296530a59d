import Hashdex.Compact
import Hashdex.Outlook
import Hashdex.PoolInv

/-!
# What the survivors of a descent were hashed over

* `survivors_whole`: all the bytes that they had to give
* `survivors_one_size`: with one length for all the digests
-/

namespace Hashdex

namespace Descent

/-! ### What the pool records -/

def Member.size (x : Member) : ℕ := x.pushed.length

/-- What a sealed member's digests are, by `Pool.pool_protocol`. -/
def Member.digests (hash : Scheme → Bytes → Bytes) (x : Member) : Digests :=
  Pool.digestsOf hash x.stated x.pushed

/-- The outlook of a descent; `sized` asks for the lengths too. -/
def Run.outlook (r : Run) (sized : Bool) : Outlook :=
  match r.way with
  | .root len found => found.rangeOutlook r.cfg sized len false 0
  | .within _ depth (.mk source _ viewKind _ viewed) =>
    if source.opens = false ∨ unprobed viewKind = .plain then .fine
    else if r.cfg.descent.enters (unprobed viewKind) = false then .fine
    else .contained (unprobed viewKind)
      (fun c => viewed.outlook r.cfg sized (unprobed viewKind) c (depth + 1)) false

/-- **A descent settles** what its outlook promises. -/
theorem run_settles {r : Run} {sized : Bool} (hown : ∀ o, r.way.own = some o → o < r.next)
    (h : (r.outlook sized).sound = true) :
    ∀ x ∈ r.result.members, x.slot ∉ r.result.dead → x.Good sized := by
  have hsettles : Settles sized (St.start r.next) r.result := by
    obtain ⟨cfg, next, way⟩ := r
    cases way with
    | root len found =>
      have hmeets := rangeFound_meets cfg sized found false 0 none len (St.start next) h
      have hgrows := rangeFound_grows cfg found false 0 none len (St.start next) (by simp)
      show Settles sized (St.start next) (walkRoot cfg next len found).1
      unfold walkRoot
      revert hmeets hgrows
      generalize rangeFound _ _ _ _ _ _ _ = res
      intro hmeets hgrows
      obtain ⟨st', _ | e⟩ := res
      · exact hmeets.settles (by simp)
      · exact discard_settles hgrows
    | within own depth found =>
      have hlt : own < next := hown own rfl
      obtain ⟨source, streamKind, viewKind, streamed, viewed⟩ := found
      show Settles sized (St.start next) (descendWithin cfg next own depth _).1
      rw [Run.outlook] at h
      unfold descendWithin
      dsimp only at h ⊢
      split_ifs at h ⊢
      · exact Settles.refl
      · exact Settles.refl
      · have hstart : ∀ o ∈ some own, o < (St.start next).next := by
          intro o ho
          cases ho
          exact hlt
        have hattempts := viewWalk_meets cfg sized viewed (depth + 1) own (unprobed viewKind)
        have hinside := descendRetrying_inside hattempts hstart h
        have hgrows : Grows (some own) (St.start next) (descendRetrying (unprobed viewKind)
            (fun c st => viewWalk cfg viewed c (depth + 1) own (unprobed viewKind) st) false
            (St.start next)).1 := descendRetrying_grows hattempts.grows hstart
        split
        · exact hinside.settles
        · exact discard_settles hgrows
  intro x hx hdead
  obtain hx | hx | hx := hsettles x hx
  · cases hx
  · exact absurd hx hdead
  · exact hx

/-! ### All of the bytes -/

/-- A stream whose walk a nested error has ended is whole exactly if its arm notes the error and drains
what is left, or if nothing was left. -/
theorem failed_stream_whole_iff (st : St) (m : Opened) (source : Source) {kind : Kind}
    (hkind : kind.hasEntries = true) (children pulled : ℕ) (what : String) (lost : Bool) :
    let (pushed, r) := streamResult kind source.bytes (.failed children (.hard what) pulled lost)
    ∃ x, (st.seal m source kind pushed lost r).1.members = st.members ++ [x]
      ∧ (x.Whole ↔ (streamSwallows kind).isSome = true
        ∨ lost = false ∧ (source.error = none → source.bytes.length ≤ pulled)) := by
  rw [streamResult_failed hkind]
  cases hswallows : streamSwallows kind with
  | some prefixed =>
    refine ⟨_, rfl, fun _ => .inl rfl, fun _ => ⟨fun _ => rfl, fun _ => rfl⟩⟩
  | none =>
    refine ⟨_, rfl, fun h => .inr ⟨?_, fun herror => ?_⟩, fun h => ⟨fun herror => ?_, fun hlost => ?_⟩⟩
    · by_contra hlost
      exact nomatch h.lost (by simpa using hlost)
    · exact List.take_eq_self_iff _ |>.mp (h.bytes herror)
    · obtain h | h := h
      · cases h
      · exact List.take_of_length_le (h.2 herror)
    · obtain h | h := h
      · cases h
      · cases hlost.symm.trans h.1

/-- **All of the bytes.** If no nested error can end the walk of a tar, an ar or an rpm, or of a zip
that is walked by its local headers, before what is left of it is through, then each survivor of the
descent whose bytes could be read to the end has the size and the digests of all of them; and each that
lost entries to a nested error has a note. -/
theorem survivors_whole (r : Run) (hown : ∀ o, r.way.own = some o → o < r.next)
    (h : (r.outlook false).sound = true) (hash : Scheme → Bytes → Bytes) :
    ∀ x ∈ r.result.members, x.slot ∉ r.result.dead →
      (x.source.error = none → x.size = x.source.bytes.length
        ∧ x.digests hash = Pool.digestsOf hash x.stated x.source.bytes)
      ∧ (x.lost = true → x.note.isSome = true) := by
  intro x hx hdead
  obtain ⟨hwhole, -⟩ := run_settles hown h x hx hdead
  obtain ⟨hbytes, hlost⟩ := hwhole rfl
  refine ⟨fun herror => ?_, hlost⟩
  rw [Member.size, Member.digests, hbytes herror]
  exact ⟨rfl, rfl⟩

/-- The zip in `misbehaved`, as its conservative repetition leaves it. -/
def redone : Member :=
  ⟨3, some 0, 1, 3, .zip, none, [80, 75, 3, 4], 1, none, false, ⟨[80, 75, 3, 4], none⟩, false⟩

theorem survivors_whole_once :
    (redone.source.error = none → redone.size = redone.source.bytes.length
      ∧ redone.digests (fun _ bytes => bytes)
        = Pool.digestsOf (fun _ bytes => bytes) redone.stated redone.source.bytes)
      ∧ (redone.lost = true → redone.note.isSome = true) :=
  survivors_whole ⟨alone, 0, .root 2 misbehaved⟩ (by simp [Way.own]) (by decide) _ redone (by decide)
    (by decide)

/-- A gzip of a tar with a zip in it, whose first entry cannot be read, and a file after it. -/
def cutShort : Found :=
  .mk ⟨[31, 139], none⟩ .gzip .gzip (.nil .done 0)
    (.cons (.stream none)
      (.mk ⟨[1, 2, 80, 75, 3, 4, 5, 6, 7], none⟩ .tar .tar
        (.cons (some 5) 6
          (.mk ⟨[80, 75, 3, 4, 5], none⟩ .zip .zip
            (.cons (some 9) 4 (.mk ⟨[], some "corrupt deflate stream"⟩ .plain .plain (.nil .done 0)
              (.nil .done)) (.nil .done 5))
            (.nil .done))
          (.cons (some 1) 8 (.mk ⟨[7], none⟩ .plain .plain (.nil .done 0) (.nil .done))
            (.nil .done 9)))
        (.nil .done))
      (.nil .done))

/-- The tar and the zip survive with the digests of what was through by then, and neither says that it
lost a file. -/
theorem nested_error_cuts_short :
    ∃ tar ∈ (⟨alone, 0, .root 2 cutShort⟩ : Run).result.members,
      tar.slot ∉ (⟨alone, 0, .root 2 cutShort⟩ : Run).result.dead
      ∧ tar.kind = .tar ∧ tar.source.error = none ∧ tar.size = 6 ∧ tar.source.bytes.length = 9
      ∧ tar.lost = true ∧ tar.note = none := by
  decide

/-! ### One length -/

/-- **One length.** If besides each stated length is what the entry delivers, then the digests of each
survivor, the git preimage's length included, are those of one byte string that has its size. -/
theorem survivors_one_size (r : Run) (hown : ∀ o, r.way.own = some o → o < r.next)
    (h : (r.outlook true).sound = true) (hash : Scheme → Bytes → Bytes) :
    ∀ x ∈ r.result.members, x.slot ∉ r.result.dead → ∃ bytes : Bytes, bytes.length = x.size
      ∧ x.digests hash = Pool.digestsOf hash (x.stated.map fun _ => x.size) bytes := by
  intro x hx hdead
  obtain ⟨-, hsize⟩ := run_settles hown h x hx hdead
  refine ⟨x.pushed, rfl, ?_⟩
  have hstated : x.stated = x.stated.map fun _ => x.size := by
    cases hn : x.stated with
    | none => rfl
    | some n => rw [hsize rfl n hn]; rfl
  rw [Member.digests, ← hstated]

theorem survivors_one_size_once : ∃ bytes : Bytes, bytes.length = redone.size
    ∧ redone.digests (fun _ bytes => bytes)
      = Pool.digestsOf (fun _ bytes => bytes) (redone.stated.map fun _ => redone.size) bytes :=
  survivors_one_size ⟨alone, 0, .root 2 misbehaved⟩ (by simp [Way.own]) (by decide) _ redone (by decide)
    (by decide)

/-- A gzip of a cpio whose only file states ten bytes, of which three are there. -/
def cutOff : Found :=
  .mk ⟨[31, 139], none⟩ .gzip .gzip (.nil .done 0)
    (.cons (.stream none)
      (.mk ⟨[48, 55, 48, 7, 8, 9], none⟩ .cpio .cpio
        (.cons (some 10) 6 (.mk ⟨[7, 8, 9], none⟩ .plain .plain (.nil .done 0) (.nil .done))
          (.nil (.error "member truncated") 6))
        (.cons (.range 3) (.mk ⟨[7, 8, 9], none⟩ .plain .plain (.nil .done 0) (.nil .done))
          (.nil (.error "member truncated"))))
      (.nil .done))

/-- The file's `sha1_git` is that of no byte string that the other digests are of. -/
theorem truncated_false_preimage :
    ∃ file ∈ (⟨alone, 0, .root 2 cutOff⟩ : Run).result.members,
      file.slot ∉ (⟨alone, 0, .root 2 cutOff⟩ : Run).result.dead ∧ file.size = 3
      ∧ ¬ ∃ bytes : Bytes, bytes.length = file.size ∧ file.digests (fun _ bytes => bytes)
        = Pool.digestsOf (fun _ bytes => bytes) (file.stated.map fun _ => file.size) bytes := by
  refine ⟨⟨2, some 1, 2, 2, .plain, some 10, [7, 8, 9], 0, none, false, ⟨[7, 8, 9], none⟩, false⟩,
    by decide, by decide, rfl, ?_⟩
  intro h
  obtain ⟨bytes, -, hdigests⟩ := h
  have hbytes : [7, 8, 9] = bytes := congrArg Digests.sha1 hdigests
  subst hbytes
  have hgit := congrArg Digests.sha1Git hdigests
  revert hgit
  decide

end Descent

end Hashdex
