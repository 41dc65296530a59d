import Hashdex.Erofs.Decode

/-!
# What the reads of a compressed file deliver

The bytes of a file by their places (`fileByte`), those of the packed stream (`packedByte`), and the reads
that serve them in pieces.  The cache of the packed inode holds decoded clusters and nothing else
(`PackedCache.Sound`), so a read through it is a read of the image.

* `packedRead_answers`, `read_answers`: what one read does
* `session_delivers`: what a run of reads does, of the file and of the packed inode in any order
* `decode_exact_iff`: it all comes down to the plain extents fitting
-/

namespace Hashdex.Zmap

open Tiling Serving

/-! ### Bytes by their places -/

/-- A byte of a decoded extent. -/
def byteOf (r : Except Fault Bytes) (i : ℕ) : Except Fault UInt8 :=
  match r with
  | .error e => .error e
  | .ok bs => (bs[i]?).elim (.error .panic) .ok

/-- The byte of an extent over a place. -/
def Erofs.extByte (fs : Erofs) (z : Decoders) (fragment : ℕ → Except Fault UInt8) (e : ZExt) (p : ℕ) :
    Except Fault UInt8 :=
  match e.src with
  | .zero => .ok 0
  | .raw pa plen alg isPartial => byteOf (fs.decodeRaw z pa plen e.llen alg isPartial) (p - e.la)
  | .packed off => fragment (off + (p - e.la))

/-- The extent over a place. -/
def ZPlan.extAt (plan : ZPlan) (p : ℕ) : Option ZExt :=
  plan.exts.find? fun e => decide (p < e.la + e.llen)

/-- A byte of the packed stream. -/
def Erofs.packedByte (fs : Erofs) (z : Decoders) (p : ℕ) : Except Fault UInt8 :=
  match fs.packedPlan with
  | .error e => .error e
  | .ok plan =>
    if p < plan.size then
      (plan.extAt p).elim (.error .panic) fun e => fs.extByte z (fun _ => .error .panic) e p
    else .error (.error "fragment offset beyond the packed stream")

/-- A byte of the file. -/
def Erofs.fileByte (fs : Erofs) (z : Decoders) (plan : ZPlan) (p : ℕ) : Except Fault UInt8 :=
  (plan.extAt p).elim (.error .panic) fun e => fs.extByte z (fs.packedByte z) e p

/-- The extents of the packed inode, where it has a map. -/
def Erofs.packedExts (fs : Erofs) : List ZExt :=
  match fs.packedPlan with
  | .error _ => []
  | .ok plan => plan.exts

/-- A stored extent can be decoded to its span. -/
def ZExt.Fits (fs : Erofs) (e : ZExt) : Prop :=
  match e.src with
  | .raw pa plen alg _ => Zmap.Fits fs pa plen e.llen alg
  | _ => True

instance (fs : Erofs) (e : ZExt) : Decidable (e.Fits fs) := by
  unfold ZExt.Fits
  split
  · exact inferInstance
  · exact inferInstance

/-! ### Single reads -/

theorem slice_piece {bs : Bytes} {a n : ℕ} (h : a + n ≤ bs.length) :
    ∃ got, slice bs a (a + n) = .ok got ∧ got.length = n ∧
      ∀ i (hi : i < got.length), bs[a + i]? = some got[i] := by
  refine ⟨(bs.drop a).take n, ?_, ?_, fun i hi => ?_⟩
  · rw [slice, if_pos ⟨Nat.le_add_right a n, h⟩, Nat.add_sub_cancel_left]
  · rw [List.length_take, List.length_drop]
    omega
  · rw [List.length_take, List.length_drop] at hi
    rw [List.getElem_take, List.getElem_drop, List.getElem?_eq_getElem (by omega)]

/-- The extent over a place is over all places of its span. -/
theorem ZPlan.WellTiled.extAt {plan : ZPlan} {size p : ℕ} (h : plan.WellTiled size) (hp : p < size) :
    ∃ e, plan.extAt p = some e ∧ e ∈ plan.exts ∧ e.la ≤ p ∧ p < e.la + e.llen ∧
      e.la + e.llen ≤ size ∧ ∀ q, e.la ≤ q → q < e.la + e.llen → plan.extAt q = some e := by
  obtain ⟨e, he⟩ := h.tiles.exists_find? (Nat.zero_le p) hp
  obtain ⟨hmem, hlo, hhi⟩ := (h.tiles.find?_iff (Nat.zero_le p)).mp he
  exact ⟨e, he, hmem, hlo, hhi, (Tiles.bounds h.tiles hmem).2, fun q hqlo hqhi =>
    (h.tiles.find?_iff (Nat.zero_le q)).mpr ⟨hmem, hqlo, hqhi⟩⟩

/-- Extents with one place are one extent. -/
theorem ZPlan.WellTiled.la_inj {plan : ZPlan} {size : ℕ} (h : plan.WellTiled size) {e e' : ZExt}
    (he : e ∈ plan.exts) (he' : e' ∈ plan.exts) (hla : e.la = e'.la) (hpos : 0 < e.llen) : e = e' := by
  have hpos' : 0 < e'.llen := by
    have hhi := (Tiles.bounds h.tiles he).2
    exact h.llen_pos (by omega) e' he'
  cases h.tiles.eq_or_apart he he' with
  | inl heq => exact heq
  | inr hapart =>
    cases hapart with
    | inl hle => omega
    | inr hle => omega

/-- Each entry is the decoded cluster of its place. -/
def PackedCache.Sound (fs : Erofs) (z : Decoders) (cache : PackedCache) : Prop :=
  ∀ la v, (la, v) ∈ cache.map → ∀ e ∈ fs.packedExts, e.la = la →
    ∀ pa plen alg isPartial, e.src = .raw pa plen alg isPartial →
      fs.decodeRaw z pa plen e.llen alg isPartial = .ok v

theorem evict_sub {map : List (ℕ × Bytes)} {bytes : ℕ} {order : List ℕ} {x : ℕ × Bytes}
    (h : x ∈ (evict map bytes order).map) : x ∈ map := by
  induction order generalizing map bytes with
  | nil => exact h
  | cons old order ih =>
    rw [evict] at h
    split_ifs at h with hfull
    · cases hold : map.lookup old with
      | some v =>
        rw [hold] at h
        exact List.mem_of_mem_filter (ih h)
      | none =>
        rw [hold] at h
        exact ih h
    · exact h

theorem insert_sub {cache : PackedCache} {la : ℕ} {v : Bytes} {x : ℕ × Bytes}
    (h : x ∈ (cache.insert la v).map) : x = (la, v) ∨ x ∈ cache.map := by
  have hnew : x ∈ (la, v) :: cache.map.filter (·.1 ≠ la) := by
    rw [PackedCache.insert] at h
    cases hold : cache.map.lookup la with
    | some w =>
      rw [hold] at h
      exact h
    | none =>
      rw [hold] at h
      exact evict_sub h
  cases List.mem_cons.mp hnew with
  | inl heq => exact .inl heq
  | inr hmem => exact .inr (List.mem_of_mem_filter hmem)

/-- **A read through the cache is a read of the image**, and leaves the cache sound. -/
theorem packedChunk_eq {fs : Erofs} {z : Decoders} {cache : PackedCache} {plan : ZPlan} {size : ℕ}
    (hsound : cache.Sound fs z) (hplan : fs.packedPlan = .ok plan) (htiled : plan.WellTiled size)
    {e : ZExt} (he : e ∈ plan.exts) (hpos : 0 < e.llen) {pa plen : ℕ} {alg : Alg} {isPartial : Bool}
    (hsrc : e.src = .raw pa plen alg isPartial) :
    (fs.packedChunk z cache e.la pa plen e.llen alg isPartial).1 =
        fs.decodeRaw z pa plen e.llen alg isPartial ∧
      (fs.packedChunk z cache e.la pa plen e.llen alg isPartial).2.Sound fs z := by
  have hexts : fs.packedExts = plan.exts := by
    rw [Erofs.packedExts, hplan]
  rw [Erofs.packedChunk]
  cases hhit : cache.map.lookup e.la with
  | some hit =>
    have hmem : (e.la, hit) ∈ cache.map := by
      obtain ⟨l₁, l₂, heq, -⟩ := List.lookup_eq_some_iff.mp hhit
      rw [heq]
      simp
    constructor
    · exact (hsound e.la hit hmem e (hexts ▸ he) rfl pa plen alg isPartial hsrc).symm
    · exact hsound
  | none =>
    cases hdec : fs.decodeRaw z pa plen e.llen alg isPartial with
    | error err => exact ⟨rfl, hsound⟩
    | ok v =>
      constructor
      · rfl
      · intro la w hmem e' he' hla pa' plen' alg' isPartial' hsrc'
        cases insert_sub hmem with
        | inl heq =>
          cases heq
          have hsame := htiled.la_inj he (hexts ▸ he') hla.symm hpos
          subst hsame
          rw [hsrc] at hsrc'
          cases hsrc'
          exact hdec
        | inr hold => exact hsound la w hold e' he' hla pa' plen' alg' isPartial' hsrc'

theorem zero_answers {byte : ℕ → Except Fault UInt8} {e : ZExt} {p m : ℕ} (hlo : e.la ≤ p)
    (hhi : p < e.la + e.llen) (hbyte : ∀ q, e.la ≤ q → q < e.la + e.llen → byte q = .ok 0) :
    Serving.Answers byte p m (.ok (List.replicate (min m (e.llen - (p - e.la))) 0)) := by
  constructor
  · intro hm hnil
    have hlen := congrArg List.length hnil
    rw [List.length_replicate, List.length_nil] at hlen
    omega
  constructor
  · rw [List.length_replicate]
    exact Nat.min_le_left _ _
  · intro i hi
    rw [List.length_replicate] at hi
    rw [List.getElem_replicate]
    exact hbyte _ (by omega) (by omega)

/-- A piece of a decoded extent, which may turn out shorter than the span. -/
theorem raw_replies {byte : ℕ → Except Fault UInt8} {e : ZExt} {p n : ℕ} {bs : Bytes} (hlo : e.la ≤ p)
    (hn : p - e.la + n ≤ e.llen) (hhi : p < e.la + e.llen)
    (hbyte : ∀ q, e.la ≤ q → q < e.la + e.llen → byte q = byteOf (.ok bs) (q - e.la)) :
    Replies byte .panic p n (slice bs (p - e.la) (p - e.la + n)) ∧
      ∀ got, slice bs (p - e.la) (p - e.la + n) = .ok got → got.length = n := by
  by_cases hin : p - e.la + n ≤ bs.length
  · obtain ⟨got, hgot, hglen, hbytes⟩ := slice_piece hin
    rw [hgot]
    constructor
    · constructor
      · intro hpos hnil
        rw [hnil, List.length_nil] at hglen
        omega
      constructor
      · exact hglen.le
      · intro i hi
        have hplace : p + i - e.la = p - e.la + i := by omega
        rw [hbyte _ (by omega) (by omega), hplace, byteOf, hbytes i hi]
        rfl
    · intro got' heq
      cases heq
      exact hglen
  · have hslice : slice bs (p - e.la) (p - e.la + n) = .error .panic := by
      rw [slice, if_neg fun h => hin h.2]
    have hbehind : ∀ q, e.la + bs.length ≤ q → q < e.la + e.llen → byte q = .error .panic := by
      intro q hq hqhi
      rw [hbyte q (by omega) hqhi, byteOf, List.getElem?_eq_none (by omega)]
      rfl
    rw [hslice]
    constructor
    · by_cases hwithin : p - e.la < bs.length
      · have hlen : (bs.drop (p - e.la)).length = bs.length - (p - e.la) := List.length_drop
        refine ⟨bs.drop (p - e.la), ?_, ?_, .inr ⟨rfl, by omega⟩⟩
        · intro i hi
          have hplace : p + i - e.la = p - e.la + i := by omega
          rw [hbyte _ (by omega) (by omega), hplace, byteOf, List.getElem?_eq_getElem (by omega),
            List.getElem_drop]
          rfl
        · exact hbehind _ (by omega) (by omega)
      · exact Replies.of_fault (hbehind p (by omega) hhi)
    · exact nofun

theorem ZPlan.WellTiled.exact {fs : Erofs} {plan : ZPlan} {size : ℕ} (h : plan.WellTiled size)
    (z : Decoders) {e : ZExt} (he : e ∈ plan.exts) (hfits : e.Fits fs) {pa plen : ℕ} {alg : Alg}
    {isPartial : Bool} (hsrc : e.src = .raw pa plen alg isPartial) :
    Exact (fs.decodeRaw z pa plen e.llen alg isPartial) e.llen := by
  obtain ⟨hplen, hllen⟩ := h.sane e he pa plen alg isPartial hsrc
  rw [ZExt.Fits, hsrc] at hfits
  exact (decodeRaw_exact_iff fs z alg isPartial hplen hllen).mpr hfits

theorem inode_ne_panic (fs : Erofs) (nid : ℕ) : fs.inode nid ≠ .error .panic :=
  bind_ne_panic ensure_ne_panic fun _ _ => bind_ne_panic ensure_ne_panic fun _ _ => ok_ne_panic _

theorem packedPlan_ne_panic (fs : Erofs) : fs.packedPlan ≠ .error .panic :=
  bind_ne_panic ensure_ne_panic fun _ _ => bind_ne_panic (inode_ne_panic fs _) fun _ _ =>
    bind_ne_panic (buildZplan_ne_panic fs _) fun _ _ =>
      bind_ne_panic ensure_ne_panic fun _ _ => ok_ne_panic _

theorem packedPlan_wellTiled {fs : Erofs} {plan : ZPlan} (h : fs.packedPlan = .ok plan) :
    plan.WellTiled plan.size ∧ ∀ e ∈ plan.exts, e.src.isPacked = false := by
  obtain ⟨_, -, h⟩ := bind_eq_ok.mp h
  obtain ⟨ino, -, h⟩ := bind_eq_ok.mp h
  obtain ⟨plan', hbuild, h⟩ := bind_eq_ok.mp h
  obtain ⟨_, hpacked, h⟩ := bind_eq_ok.mp h
  cases h
  have htiled := buildZplan_wellTiled hbuild
  constructor
  · rw [htiled.size_eq]
    exact htiled
  · have hany := ensure_eq_ok.mp hpacked
    intro e he
    exact Bool.eq_false_iff.mpr (List.any_eq_false.mp hany e he)

/-- **One read of the packed inode** replies with bytes of its stream, or with a fault that stands
there. -/
theorem packedRead_replies {fs : Erofs} {z : Decoders} {cache : PackedCache} (hsound : cache.Sound fs z)
    (off m : ℕ) :
    (fs.packedRead z cache off m).2.Sound fs z ∧
      Replies (fs.packedByte z) .panic off m (fs.packedRead z cache off m).1 := by
  cases hplan : fs.packedPlan with
  | error err =>
    rw [Erofs.packedRead, hplan]
    constructor
    · exact hsound
    · apply Replies.of_fault
      rw [Erofs.packedByte, hplan]
  | ok plan =>
    obtain ⟨htiled, hpacked⟩ := packedPlan_wellTiled hplan
    rw [Erofs.packedRead, hplan]
    dsimp only
    by_cases hoff : off < plan.size
    · obtain ⟨e, hext, he, hlo, hhi, hend, hover⟩ := htiled.extAt hoff
      have hfind : plan.exts[plan.exts.findIdx fun e => decide (off < e.la + e.llen)]? = some e := by
        rw [← List.find?_eq_getElem?_findIdx]
        exact hext
      have hbyte : ∀ q, e.la ≤ q → q < e.la + e.llen →
          fs.packedByte z q = fs.extByte z (fun _ => .error .panic) e q := by
        intro q hqlo hqhi
        rw [Erofs.packedByte, hplan]
        dsimp only
        rw [if_pos (by omega), hover q hqlo hqhi]
        rfl
      rw [if_pos hoff, hfind]
      dsimp only
      cases hsrc : e.src with
      | zero =>
        refine ⟨hsound, zero_answers hlo hhi fun q hqlo hqhi => ?_⟩
        rw [hbyte q hqlo hqhi, Erofs.extByte, hsrc]
      | packed off' =>
        have hno := hpacked e he
        rw [hsrc] at hno
        cases hno
      | raw pa plen alg isPartial =>
        obtain ⟨hchunk, hsound'⟩ := packedChunk_eq hsound hplan htiled he (by omega) hsrc
        have hraw : ∀ q, e.la ≤ q → q < e.la + e.llen → fs.packedByte z q =
            byteOf (fs.packedChunk z cache e.la pa plen e.llen alg isPartial).1 (q - e.la) := by
          intro q hqlo hqhi
          rw [hbyte q hqlo hqhi, Erofs.extByte, hsrc, hchunk]
        dsimp only
        revert hraw hsound'
        cases fs.packedChunk z cache e.la pa plen e.llen alg isPartial with
        | mk r cache' =>
          cases r with
          | error err =>
            intro hsound' hraw
            exact ⟨hsound', Replies.of_fault (hraw off hlo hhi)⟩
          | ok bs =>
            intro hsound' hraw
            obtain ⟨hreplies, -⟩ := raw_replies hlo
              (show off - e.la + min m (e.llen - (off - e.la)) ≤ e.llen by omega) hhi hraw
            exact ⟨hsound', hreplies.mono (Nat.min_le_left _ _) (by omega)⟩
    · rw [if_neg hoff]
      constructor
      · exact hsound
      · apply Replies.of_fault
        rw [Erofs.packedByte, hplan]
        exact if_neg hoff

/-- A byte of an extent that decodes to its span is no index outside a buffer. -/
theorem byteOf_ne_panic {r : Except Fault Bytes} {llen i : ℕ} (h : Exact r llen) (hi : i < llen) :
    byteOf r i ≠ .error .panic := by
  cases r with
  | error e => exact fun he => h.1 (congrArg _ (Except.error.inj he))
  | ok bs =>
    rw [byteOf, List.getElem?_eq_getElem (by rw [exact_ok.mp h]; exact hi)]
    intro hpanic
    cases hpanic

theorem packedByte_ne_panic {fs : Erofs} (z : Decoders) (hfits : ∀ e ∈ fs.packedExts, e.Fits fs) (p : ℕ) :
    fs.packedByte z p ≠ .error .panic := by
  rw [Erofs.packedByte]
  cases hplan : fs.packedPlan with
  | error err =>
    have hne : (.error err : Except Fault ZPlan) ≠ .error .panic := hplan ▸ packedPlan_ne_panic fs
    exact fun hpanic => hne (congrArg _ (Except.error.inj hpanic))
  | ok plan =>
    have hexts : fs.packedExts = plan.exts := by
      rw [Erofs.packedExts, hplan]
    obtain ⟨htiled, hpacked⟩ := packedPlan_wellTiled hplan
    dsimp only
    split_ifs with hp
    · obtain ⟨e, hext, he, hlo, hhi, -, -⟩ := htiled.extAt hp
      rw [hext]
      show fs.extByte z (fun _ => .error .panic) e p ≠ .error .panic
      rw [Erofs.extByte]
      cases hsrc : e.src with
      | zero => exact nofun
      | packed off =>
        have hno := hpacked e he
        rw [hsrc] at hno
        cases hno
      | raw pa plen alg isPartial =>
        exact byteOf_ne_panic (htiled.exact z he (hfits e (hexts ▸ he)) hsrc) (by omega)
    · exact nofun

/-- The same where its plain extents fit: the fault is that of the place, and none is an index outside a
buffer. -/
theorem packedRead_answers {fs : Erofs} {z : Decoders} {cache : PackedCache}
    (hfits : ∀ e ∈ fs.packedExts, e.Fits fs) (hsound : cache.Sound fs z) (off m : ℕ) :
    (fs.packedRead z cache off m).2.Sound fs z ∧
      (fs.packedRead z cache off m).1 ≠ .error .panic ∧
      Serving.Answers (fs.packedByte z) off m (fs.packedRead z cache off m).1 := by
  obtain ⟨hsound', hreplies⟩ := packedRead_replies hsound off m
  have hans := hreplies.answers fun q _ _ => packedByte_ne_panic z hfits q
  refine ⟨hsound', fun hpanic => ?_, hans⟩
  rw [hpanic] at hans
  exact packedByte_ne_panic z hfits off hans

/-- A reader between two reads: the extents before its index are behind it, and what it has decoded is
the extent at its index. -/
structure ZReader.Follows (fs : Erofs) (z : Decoders) (plan : ZPlan) (r : ZReader) : Prop where
  pos_le : r.pos ≤ plan.size
  passed : ∀ e ∈ plan.exts.take r.idx, e.la + e.llen ≤ r.pos
  cur : ∀ bs, r.cur = some bs → ∀ e, plan.exts[r.idx]? = some e →
    ∀ pa plen alg isPartial, e.src = .raw pa plen alg isPartial →
      fs.decodeRaw z pa plen e.llen alg isPartial = .ok bs

theorem ZReader.start_follows (fs : Erofs) (z : Decoders) (plan : ZPlan) :
    ZReader.start.Follows fs z plan where
  pos_le := Nat.zero_le _
  passed := by
    intro e he
    rw [ZReader.start, List.take_zero] at he
    cases he
  cur := nofun

@[simp] theorem ZReader.advance_pos (r : ZReader) (exts : List ZExt) : (r.advance exts).pos = r.pos := by
  rw [ZReader.advance]
  split <;> rfl

/-- Advancing brings the reader to the extent over its position. -/
theorem ZReader.Follows.advance {fs : Erofs} {z : Decoders} {plan : ZPlan} {r : ZReader}
    (h : r.Follows fs z plan) :
    (r.advance plan.exts).Follows fs z plan ∧
      plan.exts[(r.advance plan.exts).idx]? = plan.extAt r.pos := by
  have hfind : plan.extAt r.pos =
      (plan.exts.drop r.idx).find? fun e => decide (r.pos < e.la + e.llen) := by
    have hnone : (plan.exts.take r.idx).find? (fun e => decide (r.pos < e.la + e.llen)) = none := by
      rw [List.find?_eq_none]
      intro e he
      have hle := h.passed e he
      simpa using hle
    rw [ZPlan.extAt]
    conv_lhs => rw [← List.take_append_drop r.idx plan.exts]
    rw [List.find?_append, hnone, Option.none_or]
  rw [hfind, List.find?_eq_getElem?_findIdx, List.getElem?_drop]
  rw [ZReader.advance]
  cases hk : (plan.exts.drop r.idx).findIdx fun e => decide (r.pos < e.la + e.llen) with
  | zero => exact ⟨h, rfl⟩
  | succ k =>
    refine ⟨⟨h.pos_le, fun e he => ?_, nofun⟩, rfl⟩
    show e.la + e.llen ≤ r.pos
    replace he : e ∈ plan.exts.take (r.idx + (k + 1)) := he
    rw [List.take_add, List.mem_append] at he
    cases he with
    | inl hold => exact h.passed e hold
    | inr hnew =>
      obtain ⟨i, hi, hget⟩ := List.getElem_of_mem hnew
      rw [List.length_take] at hi
      have hnot := @List.not_of_lt_findIdx _ (fun e => decide (r.pos < e.la + e.llen))
        (plan.exts.drop r.idx) i (by omega)
      rw [List.getElem_take] at hget
      rw [hget] at hnot
      simpa using hnot

/-- A reader that has moved on within its extent. -/
theorem ZReader.Follows.move {fs : Erofs} {z : Decoders} {plan : ZPlan} {r : ZReader}
    (h : r.Follows fs z plan) {n : ℕ} (hle : r.pos + n ≤ plan.size) :
    ({ r with pos := r.pos + n } : ZReader).Follows fs z plan where
  pos_le := hle
  passed := fun e he => (h.passed e he).trans (Nat.le_add_right _ _)
  cur := h.cur

/-- A reader that holds the bytes of its extent. -/
theorem ZReader.Follows.hold {fs : Erofs} {z : Decoders} {plan : ZPlan} {r : ZReader}
    (h : r.Follows fs z plan) {e : ZExt} (he : plan.exts[r.idx]? = some e) {pa plen : ℕ} {alg : Alg}
    {isPartial : Bool} (hsrc : e.src = .raw pa plen alg isPartial) {bs : Bytes}
    (hbs : fs.decodeRaw z pa plen e.llen alg isPartial = .ok bs) :
    ({ r with cur := some bs } : ZReader).Follows fs z plan where
  pos_le := h.pos_le
  passed := h.passed
  cur := by
    intro bs' hbs' e' he' pa' plen' alg' isPartial' hsrc'
    cases hbs'
    cases Option.some.inj (he.symm.trans he')
    rw [hsrc] at hsrc'
    cases hsrc'
    exact hbs

theorem ZReader.Follows.chunk_eq {fs : Erofs} {z : Decoders} {plan : ZPlan} {r : ZReader}
    (h : r.Follows fs z plan) {e : ZExt} (he : plan.exts[r.idx]? = some e) {pa plen : ℕ} {alg : Alg}
    {isPartial : Bool} (hsrc : e.src = .raw pa plen alg isPartial) :
    r.chunk fs z pa plen e.llen alg isPartial = fs.decodeRaw z pa plen e.llen alg isPartial := by
  rw [ZReader.chunk]
  cases hcur : r.cur with
  | none => rfl
  | some bs => exact (h.cur bs hcur e he pa plen alg isPartial hsrc).symm

/-- The bytes an answer brings. -/
def gotten : Except Fault Bytes → Bytes
  | .ok bs => bs
  | .error _ => []

/-- What a read leaves behind: a reader and a cache for the next. -/
structure ReadKeeps (fs : Erofs) (z : Decoders) (plan : ZPlan) (r : ZReader)
    (out : Except Fault Bytes × ZReader × PackedCache) : Prop where
  follows : out.2.1.Follows fs z plan
  pos : out.2.1.pos = r.pos + (gotten out.1).length
  sound : out.2.2.Sound fs z

/-- The same, and no index outside a buffer. -/
structure ReadOk (fs : Erofs) (z : Decoders) (plan : ZPlan) (r : ZReader)
    (out : Except Fault Bytes × ZReader × PackedCache) : Prop where
  ne_panic : out.1 ≠ .error .panic
  follows : out.2.1.Follows fs z plan
  pos : out.2.1.pos = r.pos + (gotten out.1).length
  sound : out.2.2.Sound fs z

/-- **One read within an extent.** -/
theorem readExt_replies {fs : Erofs} {z : Decoders} {plan : ZPlan} {r : ZReader} {cache : PackedCache}
    (hr : r.Follows fs z plan) (hsound : cache.Sound fs z)
    {e : ZExt} (he : plan.exts[r.idx]? = some e) (hlo : e.la ≤ r.pos) (hhi : r.pos < e.la + e.llen)
    (hend : e.la + e.llen ≤ plan.size)
    (hover : ∀ q, e.la ≤ q → q < e.la + e.llen → plan.extAt q = some e) (m : ℕ) :
    ReadKeeps fs z plan r (r.readExt fs z cache e m) ∧
      Replies (fs.fileByte z plan) .panic r.pos (min m (e.llen - (r.pos - e.la)))
        (r.readExt fs z cache e m).1 := by
  have hbyte : ∀ q, e.la ≤ q → q < e.la + e.llen →
      fs.fileByte z plan q = fs.extByte z (fs.packedByte z) e q := by
    intro q hqlo hqhi
    rw [Erofs.fileByte, hover q hqlo hqhi]
    rfl
  rw [ZReader.readExt]
  cases hsrc : e.src with
  | zero =>
    have hzero : Serving.Answers (fs.fileByte z plan) r.pos (min m (e.llen - (r.pos - e.la)))
        (.ok (List.replicate (min m (e.llen - (r.pos - e.la))) 0)) := by
      have hans := @zero_answers (fs.fileByte z plan) e r.pos (min m (e.llen - (r.pos - e.la))) hlo hhi
        fun q hqlo hqhi => by rw [hbyte q hqlo hqhi, Erofs.extByte, hsrc]
      rwa [Nat.min_eq_left (Nat.min_le_right m _)] at hans
    refine ⟨⟨hr.move (by omega), ?_, hsound⟩, hzero⟩
    show r.pos + _ = r.pos + (List.replicate _ 0).length
    rw [List.length_replicate]
  | packed off =>
    dsimp only
    obtain ⟨hsound', hreplies⟩ := packedRead_replies hsound (off + (r.pos - e.la))
      (min m (e.llen - (r.pos - e.la)))
    have hat : ∀ {piece : Bytes}, piece.length ≤ min m (e.llen - (r.pos - e.la)) →
        At (fs.packedByte z) (off + (r.pos - e.la)) piece → At (fs.fileByte z plan) r.pos piece := by
      intro piece hlen hpiece i hi
      have hplace : off + (r.pos + i - e.la) = off + (r.pos - e.la) + i := by omega
      rw [hbyte _ (by omega) (by omega), Erofs.extByte, hsrc]
      show fs.packedByte z (off + (r.pos + i - e.la)) = _
      rw [hplace]
      exact hpiece i hi
    revert hsound' hreplies
    cases fs.packedRead z cache (off + (r.pos - e.la)) (min m (e.llen - (r.pos - e.la))) with
    | mk a cache' =>
      intro hsound' hreplies
      cases a with
      | error err =>
        constructor
        · exact ⟨hr, rfl, hsound'⟩
        · obtain ⟨front, hfront, hfault, hwhich⟩ := hreplies
          have hlen : front.length < e.llen - (r.pos - e.la) := by
            cases hwhich with
            | inl hnil =>
              rw [hnil]
              show 0 < _
              omega
            | inr hfatal => omega
          refine ⟨front, ?_, ?_, hwhich⟩
          · cases hwhich with
            | inl hnil =>
              rw [hnil]
              exact at_nil _
            | inr hfatal => exact hat hfatal.2.le hfront
          · have hplace : off + (r.pos + front.length - e.la) = off + (r.pos - e.la) + front.length := by
              omega
            rw [hbyte _ (by omega) (by omega), Erofs.extByte, hsrc]
            show fs.packedByte z (off + (r.pos + front.length - e.la)) = _
            rw [hplace]
            exact hfault
      | ok got =>
        obtain ⟨hne, hlen, hgot⟩ := hreplies
        exact ⟨⟨hr.move (by omega), rfl, hsound'⟩, hne, hlen, hat hlen hgot⟩
  | raw pa plen alg isPartial =>
    dsimp only
    have hraw : ∀ q, e.la ≤ q → q < e.la + e.llen → fs.fileByte z plan q =
        byteOf (fs.decodeRaw z pa plen e.llen alg isPartial) (q - e.la) := by
      intro q hqlo hqhi
      rw [hbyte q hqlo hqhi, Erofs.extByte, hsrc]
    rw [hr.chunk_eq he hsrc]
    cases hdec : fs.decodeRaw z pa plen e.llen alg isPartial with
    | error err =>
      rw [hdec] at hraw
      exact ⟨⟨hr, rfl, hsound⟩, Replies.of_fault (hraw r.pos hlo hhi)⟩
    | ok bs =>
      rw [hdec] at hraw
      obtain ⟨hreplies, hlen⟩ := raw_replies hlo
        (show r.pos - e.la + min m (e.llen - (r.pos - e.la)) ≤ e.llen by omega) hhi hraw
      dsimp only
      cases hgot : slice bs (r.pos - e.la) (r.pos - e.la + min m (e.llen - (r.pos - e.la))) with
      | error err =>
        rw [hgot] at hreplies
        exact ⟨⟨hr.hold he hsrc hdec, rfl, hsound⟩, hreplies⟩
      | ok got =>
        rw [hgot] at hreplies
        have hglen := hlen got hgot
        refine ⟨⟨(hr.hold he hsrc hdec).move ?_, ?_, hsound⟩, hreplies⟩
        · show r.pos + _ ≤ plan.size
          omega
        · show r.pos + _ = r.pos + got.length
          rw [hglen]

/-- The extent over a place of a plan that covers the file. -/
theorem ZPlan.extAt_of_tiles {plan : ZPlan} {p : ℕ}
    (h : Tiles ZExt.la ZExt.llen 0 plan.size plan.exts) (hp : p < plan.size) :
    ∃ e, plan.extAt p = some e ∧ e ∈ plan.exts ∧ e.la ≤ p ∧ p < e.la + e.llen ∧
      e.la + e.llen ≤ plan.size ∧ ∀ q, e.la ≤ q → q < e.la + e.llen → plan.extAt q = some e := by
  obtain ⟨e, he⟩ := h.exists_find? (Nat.zero_le p) hp
  obtain ⟨hmem, hlo, hhi⟩ := (h.find?_iff (Nat.zero_le p)).mp he
  exact ⟨e, he, hmem, hlo, hhi, (Tiles.bounds h hmem).2, fun q hqlo hqhi =>
    (h.find?_iff (Nat.zero_le q)).mpr ⟨hmem, hqlo, hqhi⟩⟩

/-- **One read of the file** replies with bytes of it, or with a fault that stands there. -/
theorem read_replies {fs : Erofs} {z : Decoders} {plan : ZPlan} {r : ZReader} {cache : PackedCache}
    (htiles : Tiles ZExt.la ZExt.llen 0 plan.size plan.exts) (hr : r.Follows fs z plan)
    (hsound : cache.Sound fs z) (m : ℕ) :
    ReadKeeps fs z plan r (r.read fs z plan cache m) ∧
      (r.pos < plan.size →
        ∃ e, plan.extAt r.pos = some e ∧ e ∈ plan.exts ∧ e.la ≤ r.pos ∧ r.pos < e.la + e.llen ∧
          e.la + e.llen ≤ plan.size ∧
          (∀ q, e.la ≤ q → q < e.la + e.llen → plan.extAt q = some e) ∧
          Replies (fs.fileByte z plan) .panic r.pos (min m (e.llen - (r.pos - e.la)))
            (r.read fs z plan cache m).1) ∧
      (plan.size ≤ r.pos → (r.read fs z plan cache m).1 = .ok []) := by
  rw [ZReader.read]
  by_cases hend : plan.size ≤ r.pos
  · rw [if_pos (.inl hend)]
    exact ⟨⟨hr, rfl, hsound⟩, fun hlt => by omega, fun _ => rfl⟩
  · obtain ⟨e, hext, hmem, hlo, hhi, hsize, hover⟩ := ZPlan.extAt_of_tiles htiles
      (show r.pos < plan.size by omega)
    by_cases hzero : m = 0
    · rw [if_pos (.inr hzero)]
      refine ⟨⟨hr, rfl, hsound⟩, fun _ => ⟨e, hext, hmem, hlo, hhi, hsize, hover, ?_⟩, fun _ => rfl⟩
      exact ⟨fun hpos => by omega, Nat.zero_le _, at_nil _⟩
    · rw [if_neg (by omega)]
      obtain ⟨hadv, hidx⟩ := hr.advance
      rw [hext] at hidx
      dsimp only
      rw [hidx]
      dsimp only
      rw [if_neg (by rw [ZReader.advance_pos]; omega)]
      have hread := readExt_replies hadv hsound hidx (by rwa [ZReader.advance_pos])
        (by rwa [ZReader.advance_pos]) hsize hover m
      rw [ZReader.advance_pos] at hread
      obtain ⟨⟨hfollows, hpos, hsound'⟩, hreplies⟩ := hread
      rw [ZReader.advance_pos] at hpos
      exact ⟨⟨hfollows, hpos, hsound'⟩, fun _ => ⟨e, hext, hmem, hlo, hhi, hsize, hover, hreplies⟩,
        fun hle => absurd hle hend⟩

theorem fileByte_ne_panic {fs : Erofs} (z : Decoders) {plan : ZPlan} (htiled : plan.WellTiled plan.size)
    (hfits : ∀ e ∈ plan.exts, e.Fits fs) (hpacked : ∀ e ∈ fs.packedExts, e.Fits fs) {p : ℕ}
    (hp : p < plan.size) : fs.fileByte z plan p ≠ .error .panic := by
  obtain ⟨e, hext, he, hlo, hhi, -, -⟩ := htiled.extAt hp
  rw [Erofs.fileByte, hext]
  show fs.extByte z (fs.packedByte z) e p ≠ .error .panic
  rw [Erofs.extByte]
  cases hsrc : e.src with
  | zero => exact nofun
  | packed off => exact packedByte_ne_panic z hpacked _
  | raw pa plen alg isPartial =>
    exact byteOf_ne_panic (htiled.exact z he (hfits e he) hsrc) (by omega)

/-- The same where the plain extents fit. -/
theorem read_answers {fs : Erofs} {z : Decoders} {plan : ZPlan} {r : ZReader} {cache : PackedCache}
    (htiled : plan.WellTiled plan.size) (hfits : ∀ e ∈ plan.exts, e.Fits fs)
    (hpacked : ∀ e ∈ fs.packedExts, e.Fits fs) (hr : r.Follows fs z plan) (hsound : cache.Sound fs z)
    (m : ℕ) :
    ReadOk fs z plan r (r.read fs z plan cache m) ∧
      (r.pos < plan.size → Serving.Answers (fs.fileByte z plan) r.pos m (r.read fs z plan cache m).1) ∧
      (plan.size ≤ r.pos → (r.read fs z plan cache m).1 = .ok []) := by
  obtain ⟨hkeeps, hreplies, hend⟩ := read_replies htiled.tiles hr hsound m
  have hans : r.pos < plan.size → Serving.Answers (fs.fileByte z plan) r.pos m (r.read fs z plan cache m).1 := by
    intro hlt
    obtain ⟨e, -, -, hlo, hhi, hsize, -, hreply⟩ := hreplies hlt
    have hanswer := hreply.answers fun q _ hq =>
      fileByte_ne_panic z htiled hfits hpacked (show q < plan.size by omega)
    exact hanswer.mono (Nat.min_le_left _ _) (by omega)
  have hne : (r.read fs z plan cache m).1 ≠ .error .panic := by
    intro hpanic
    by_cases hlt : r.pos < plan.size
    · have hfault := hans hlt
      rw [hpanic] at hfault
      exact fileByte_ne_panic z htiled hfits hpacked hlt hfault
    · rw [hend (by omega)] at hpanic
      cases hpanic
  exact ⟨⟨hne, hkeeps.follows, hkeeps.pos, hkeeps.sound⟩, hans, hend⟩

/-! ### Runs of reads -/

/-- A call on the image: a read of the file, or a read of the packed inode, as the readers of other files
make them. -/
inductive Call where
  | file (m : ℕ)
  | packed (off m : ℕ)

structure Session where
  reader : ZReader
  cache : PackedCache
  /-- What the reads of the file have brought so far. -/
  out : Bytes

def Session.start : Session := ⟨.start, ⟨[], [], 0⟩, []⟩

def Session.call (fs : Erofs) (z : Decoders) (plan : ZPlan) (s : Session) : Call → Session
  | .file m =>
    let r := s.reader.read fs z plan s.cache m
    ⟨r.2.1, r.2.2, s.out ++ gotten r.1⟩
  | .packed off m => { s with cache := (fs.packedRead z s.cache off m).2 }

def Session.after (fs : Erofs) (z : Decoders) (plan : ZPlan) (calls : List Call) : Session :=
  calls.foldl (Session.call fs z plan) .start

/-- What the next read may answer when the file is a string, perhaps with a fault behind it, and some of
the string is out already. -/
def Continues (whole : Bytes) (fault : Option Fault) (out : Bytes) (m : ℕ) : Except Fault Bytes → Prop
  | .ok got => got.length ≤ m ∧ out ++ got <+: whole ∧ (got = [] → out = whole ∧ fault = none)
  | .error e => e ≠ .panic ∧ out = whole ∧ fault = some e

/-- A file is served: its extents and those of the packed inode decode to their spans or not at all; there
is one string, as long as the file or stopped by a fault, that every run of reads delivers; and the packed
inode answers from one stream. -/
structure Served (fs : Erofs) (z : Decoders) (plan : ZPlan) : Prop where
  decodes : ∀ e ∈ plan.exts ++ fs.packedExts, ∀ pa plen alg isPartial,
    e.src = .raw pa plen alg isPartial → Exact (fs.decodeRaw z pa plen e.llen alg isPartial) e.llen
  file : ∃ whole fault, whole.length ≤ plan.size ∧ (fault = none → whole.length = plan.size) ∧
    ∀ calls, (Session.after fs z plan calls).out <+: whole ∧
      ∀ m, 0 < m → Continues whole fault (Session.after fs z plan calls).out m
        ((Session.after fs z plan calls).reader.read fs z plan
          (Session.after fs z plan calls).cache m).1
  packed : ∃ byte, ∀ calls off m,
    (fs.packedRead z (Session.after fs z plan calls).cache off m).1 ≠ .error .panic ∧
      Serving.Answers byte off m (fs.packedRead z (Session.after fs z plan calls).cache off m).1

/-- What holds between two calls. -/
structure Session.Ok (fs : Erofs) (z : Decoders) (plan : ZPlan) (s : Session) : Prop where
  follows : s.reader.Follows fs z plan
  sound : s.cache.Sound fs z
  length_out : s.out.length = s.reader.pos
  out_at : At (fs.fileByte z plan) 0 s.out

theorem Session.start_ok (fs : Erofs) (z : Decoders) (plan : ZPlan) :
    Session.start.Ok fs z plan where
  follows := ZReader.start_follows fs z plan
  sound := nofun
  length_out := rfl
  out_at := at_nil 0

/-- What a read brings stands where the reader was. -/
theorem at_gotten {byte : ℕ → Except Fault UInt8} {p m : ℕ} {a : Except Fault Bytes}
    (h : Replies byte .panic p m a) : At byte p (gotten a) := by
  cases a with
  | ok bs => exact h.2.2
  | error e => exact at_nil p

theorem Session.Ok.call {fs : Erofs} {z : Decoders} {plan : ZPlan} {s : Session}
    (htiles : Tiles ZExt.la ZExt.llen 0 plan.size plan.exts) (h : s.Ok fs z plan) (k : Call) :
    (s.call fs z plan k).Ok fs z plan := by
  cases k with
  | file m =>
    obtain ⟨hkeeps, hreplies, hend⟩ := read_replies htiles h.follows h.sound m
    refine ⟨hkeeps.follows, hkeeps.sound, ?_, ?_⟩
    · show (s.out ++ gotten (s.reader.read fs z plan s.cache m).1).length =
        (s.reader.read fs z plan s.cache m).2.1.pos
      rw [List.length_append, h.length_out, hkeeps.pos]
    · refine at_append.mpr ⟨h.out_at, ?_⟩
      rw [Nat.zero_add, h.length_out]
      by_cases hlt : s.reader.pos < plan.size
      · obtain ⟨e, -, -, -, -, -, -, hreply⟩ := hreplies hlt
        exact at_gotten hreply
      · rw [hend (Nat.le_of_not_lt hlt)]
        exact at_nil _
  | packed off m =>
    exact ⟨h.follows, (packedRead_replies h.sound off m).1, h.length_out, h.out_at⟩

theorem Session.after_ok {fs : Erofs} (z : Decoders) {plan : ZPlan}
    (htiles : Tiles ZExt.la ZExt.llen 0 plan.size plan.exts) (calls : List Call) :
    (Session.after fs z plan calls).Ok fs z plan := by
  rw [Session.after]
  have hrun : ∀ s : Session, s.Ok fs z plan → (calls.foldl (Session.call fs z plan) s).Ok fs z plan := by
    induction calls with
    | nil => exact fun s hs => hs
    | cons k calls ih => exact fun s hs => ih _ (hs.call htiles k)
  exact hrun _ (Session.start_ok fs z plan)

section
variable {fs : Erofs} {z : Decoders} {plan : ZPlan} (htiled : plan.WellTiled plan.size)
  (hfits : ∀ e ∈ plan.exts, e.Fits fs) (hpacked : ∀ e ∈ fs.packedExts, e.Fits fs)
include htiled hfits hpacked

/-- **Every run of reads delivers the content of the file.** -/
theorem session_delivers {s : Session} (h : s.Ok fs z plan) {m : ℕ} (hm : 0 < m) :
    Continues (content (fs.fileByte z plan) plan.size 0).1 (content (fs.fileByte z plan) plan.size 0).2
      s.out m (s.reader.read fs z plan s.cache m).1 := by
  obtain ⟨hok, hans, hend⟩ := read_answers htiled hfits hpacked h.follows h.sound m
  have hcall := h.call htiled.tiles (.file m)
  have hout : At (fs.fileByte z plan) 0 (s.out ++ gotten (s.reader.read fs z plan s.cache m).1) :=
    hcall.out_at
  have hle : (s.out ++ gotten (s.reader.read fs z plan s.cache m).1).length ≤ plan.size :=
    hcall.length_out.le.trans hcall.follows.pos_le
  have hne := hok.ne_panic
  by_cases hlt : s.reader.pos < plan.size
  · have hans := hans hlt
    cases hread : (s.reader.read fs z plan s.cache m).1 with
    | ok got =>
      rw [hread] at hans hout hle
      exact ⟨hans.2.1, prefix_content hout hle, fun hnil => absurd hnil (hans.1 hm)⟩
    | error e =>
      rw [hread] at hans hne
      have hfault : fs.fileByte z plan (0 + s.out.length) = .error e := by
        rw [Nat.zero_add, h.length_out]
        exact hans
      have hcontent := content_of_fault h.out_at (h.length_out ▸ hlt) hfault
      refine ⟨fun he => hne (congrArg _ he), ?_, ?_⟩
      · rw [hcontent]
      · rw [hcontent]
  · have hfull : content (fs.fileByte z plan) plan.size 0 = (s.out, none) := by
      refine content_of_full h.out_at ?_
      have hpos := h.follows.pos_le
      rw [h.length_out]
      omega
    rw [hend (by omega), hfull]
    exact ⟨Nat.zero_le _, by rw [List.append_nil], fun _ => ⟨rfl, rfl⟩⟩

end

/-- **A compressed file is served just when its plain extents fit**, and those of the packed inode. -/
theorem decode_exact_iff (fs : Erofs) (z : Decoders) (ino : Inode) (plan : ZPlan)
    (h : fs.buildZplan ino = .ok plan) :
    Served fs z plan ↔ ∀ e ∈ plan.exts ++ fs.packedExts, e.Fits fs := by
  have htiled : plan.WellTiled plan.size := by
    have hplan := buildZplan_wellTiled h
    rwa [← hplan.size_eq] at hplan
  have hsane : ∀ e ∈ plan.exts ++ fs.packedExts, e.Plausible := by
    intro e he
    cases List.mem_append.mp he with
    | inl he => exact htiled.sane e he
    | inr he =>
      rw [Erofs.packedExts] at he
      cases hpacked : fs.packedPlan with
      | error err =>
        rw [hpacked] at he
        cases he
      | ok packed =>
        rw [hpacked] at he
        exact (packedPlan_wellTiled hpacked).1.sane e he
  constructor
  · intro hserved e he
    rw [ZExt.Fits]
    cases hsrc : e.src with
    | zero => exact trivial
    | packed off => exact trivial
    | raw pa plen alg isPartial =>
      obtain ⟨hplen, hllen⟩ := hsane e he pa plen alg isPartial hsrc
      exact (decodeRaw_exact_iff fs z alg isPartial hplen hllen).mp
        (hserved.decodes e he pa plen alg isPartial hsrc)
  · intro hall
    have hfits : ∀ e ∈ plan.exts, e.Fits fs := fun e he => hall e (List.mem_append_left _ he)
    have hpacked : ∀ e ∈ fs.packedExts, e.Fits fs := fun e he => hall e (List.mem_append_right _ he)
    constructor
    · intro e he pa plen alg isPartial hsrc
      obtain ⟨hplen, hllen⟩ := hsane e he pa plen alg isPartial hsrc
      have hfit := hall e he
      rw [ZExt.Fits, hsrc] at hfit
      exact (decodeRaw_exact_iff fs z alg isPartial hplen hllen).mpr hfit
    · refine ⟨(content (fs.fileByte z plan) plan.size 0).1, (content (fs.fileByte z plan) plan.size 0).2,
        length_content_le _ _, length_content_of_none, fun calls => ?_⟩
      have hok : (Session.after fs z plan calls).Ok fs z plan :=
        Session.after_ok z htiled.tiles calls
      constructor
      · refine prefix_content hok.out_at ?_
        rw [hok.length_out]
        exact hok.follows.pos_le
      · exact fun m hm => session_delivers htiled hfits hpacked hok hm
    · refine ⟨fs.packedByte z, fun calls off m => ?_⟩
      have hok : (Session.after fs z plan calls).Ok fs z plan :=
        Session.after_ok z htiled.tiles calls
      exact (packedRead_answers hpacked hok.sound off m).2

/-! ### An inline tail that is too short -/

/-- No plain extent ever calls one of these. -/
def noDecoders : Decoders where
  lz4 := fun _ _ => .error "no lz4"
  microlzma := fun _ _ _ => .error 0
  deflate := fun _ _ => .error "no deflate"
  zstd := fun _ _ => .error "no zstd"

/-- A superblock of 512-byte blocks, with the root directory at inode 40. -/
def tailSuper : Bytes :=
  [0xE2, 0xE1, 0xF5, 0xE0] ++ List.replicate 8 0 ++ [9, 0, 40, 0] ++ List.replicate 112 0

/-- A regular file of five bytes, full indexes, whose one extent is an inline tail of `idata` bytes: the
inode, the map header, eight reserved bytes, the index and the tail. -/
def tailFile (idata : UInt8) (tail : Bytes) : Bytes :=
  [2, 0, 0, 0, 0xA4, 0x81, 0, 0, 5, 0, 0, 0] ++ List.replicate 20 0 ++
    [0, 0, idata, 0, 8, 0, 0, 0] ++ List.replicate 16 0 ++ tail

/-- A directory of one entry, with its data behind the inode. -/
def tailRoot : Bytes :=
  [4, 0, 0, 0, 0xED, 0x41, 0, 0, 13, 0, 0, 0] ++ List.replicate 20 0 ++
    [36, 0, 0, 0, 0, 0, 0, 0, 12, 0, 1, 0, 97]

/-- The root directory is at byte 1280. -/
def tailImage (idata : UInt8) (tail : Bytes) : Bytes :=
  List.replicate 1024 0 ++ tailSuper ++ tailFile idata tail ++
    List.replicate (72 - tail.length) 0 ++ tailRoot

def tailFs (idata : UInt8) (tail : Bytes) : Erofs where
  view := tailImage idata tail
  blkszbits := 9
  metaBase := 0
  packedNid := 0
  bits := smallestBlock_bits

def tailInode : Inode := ⟨1152, 32, 0, 5, 1⟩

set_option maxRecDepth 20000 in
theorem short_tail :
    Erofs.open (tailImage 2 [104, 105]) = .ok (tailFs 2 [104, 105]) ∧
      (tailFs 2 [104, 105]).inode 36 = .ok tailInode ∧
      (tailFs 2 [104, 105]).buildZplan tailInode = .ok ⟨5, [⟨0, 5, .raw 1208 2 .shifted false⟩]⟩ ∧
      (ZReader.start.read (tailFs 2 [104, 105]) noDecoders ⟨5, [⟨0, 5, .raw 1208 2 .shifted false⟩]⟩
        ⟨[], [], 0⟩ 8).1 = .error .panic ∧
      ¬ Served (tailFs 2 [104, 105]) noDecoders ⟨5, [⟨0, 5, .raw 1208 2 .shifted false⟩]⟩ := by
  refine ⟨rfl, rfl, rfl, rfl, fun hserved => ?_⟩
  have hexact := hserved.decodes _ List.mem_cons_self 1208 2 .shifted false rfl
  have hdecode : (tailFs 2 [104, 105]).decodeRaw noDecoders 1208 2 5 .shifted false =
      .ok [104, 105] := rfl
  have hlen := hexact.2 _ hdecode
  exact absurd hlen (by decide)

set_option maxRecDepth 20000 in
theorem decode_exact_iff_tail :
    (tailFs 5 [104, 101, 108, 108, 111]).buildZplan tailInode =
        .ok ⟨5, [⟨0, 5, .raw 1208 5 .shifted false⟩]⟩ ∧
      Served (tailFs 5 [104, 101, 108, 108, 111]) noDecoders
        ⟨5, [⟨0, 5, .raw 1208 5 .shifted false⟩]⟩ := by
  have hbuild : (tailFs 5 [104, 101, 108, 108, 111]).buildZplan tailInode =
      .ok ⟨5, [⟨0, 5, .raw 1208 5 .shifted false⟩]⟩ := rfl
  refine ⟨hbuild, (decode_exact_iff _ _ tailInode _ hbuild).mpr fun e he => ?_⟩
  have hone : e ∈ [(⟨0, 5, .raw 1208 5 .shifted false⟩ : ZExt)] := he
  cases List.mem_singleton.mp hone
  show _ → 5 ≤ 5
  exact fun _ => le_refl 5

end Hashdex.Zmap
