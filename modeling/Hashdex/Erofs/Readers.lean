import Hashdex.Erofs.Reading
import Hashdex.Lib.Steps

/-!
# The packed inode's cache under many readers

The cache is behind a lock, and a cluster that is not in it is decoded with the lock released: a
reader looks up, decodes on its own and comes back to insert.  Between the two any number of other
readers may look up, insert and evict, also the same cluster.

* `insert_balanced`: an insertion keeps counter, queue and map in step, and within the cache's size
* `readers_keep_accounts`: so does every run of the readers, and what any of them is handed is what
  decoding gives
-/

namespace Hashdex.Zmap

open Tiling

/-! ### Counter, queue and map -/

/-- The counter is what the map holds, and the queue has each of its keys once. -/
structure Balanced (cache : PackedCache) : Prop where
  keys : (cache.map.map Prod.fst).Nodup
  queue : cache.order.Perm (cache.map.map Prod.fst)
  counter : cache.bytes = (cache.map.map fun kv => kv.2.length).sum

/-- The entry at a key, and the rest. -/
theorem perm_cons_filter {map : List (ℕ × Bytes)} {la : ℕ} {v : Bytes}
    (hkeys : (map.map Prod.fst).Nodup) (h : map.lookup la = some v) :
    map.Perm ((la, v) :: map.filter (·.1 ≠ la)) := by
  obtain ⟨pre, post, rfl, hpre⟩ := List.lookup_eq_some_iff.mp h
  have hpost : ∀ kv ∈ post, kv.1 ≠ la := by
    rw [List.map_append, List.map_cons, List.nodup_append] at hkeys
    intro kv hkv heq
    exact (List.nodup_cons.mp hkeys.2.1).1 (List.mem_map.mpr ⟨kv, hkv, heq⟩)
  have hfilter : (pre ++ (la, v) :: post).filter (·.1 ≠ la) = pre ++ post := by
    rw [List.filter_append, List.filter_cons_of_neg (by simp), List.filter_eq_self.mpr,
      List.filter_eq_self.mpr]
    · intro kv hkv
      simpa using hpost kv hkv
    · intro kv hkv
      have hne := bne_iff_ne.mp (hpre kv hkv)
      simpa using hne.symm
  rw [hfilter]
  exact List.perm_middle

/-- Dropping an entry: its key leaves the queue, its length leaves the sum. -/
theorem drop_entry {map : List (ℕ × Bytes)} {la : ℕ} {v : Bytes}
    (hkeys : (map.map Prod.fst).Nodup) (h : map.lookup la = some v) :
    (map.map Prod.fst).Perm (la :: (map.filter (·.1 ≠ la)).map Prod.fst) ∧
      (map.map fun kv => kv.2.length).sum
        = v.length + ((map.filter (·.1 ≠ la)).map fun kv => kv.2.length).sum := by
  have hperm := perm_cons_filter hkeys h
  exact ⟨hperm.map Prod.fst, (hperm.map fun kv => kv.2.length).sum_eq⟩

theorem lookup_of_mem_keys {map : List (ℕ × Bytes)} {la : ℕ} (h : la ∈ map.map Prod.fst) :
    ∃ v, map.lookup la = some v := by
  cases hl : map.lookup la with
  | some v => exact ⟨v, rfl⟩
  | none =>
    obtain ⟨kv, hkv, rfl⟩ := List.mem_map.mp h
    have hne := List.lookup_eq_none_iff.mp hl kv hkv
    simp at hne

theorem not_mem_keys_of_lookup {map : List (ℕ × Bytes)} {la : ℕ} (h : map.lookup la = none) :
    la ∉ map.map Prod.fst := by
  intro hmem
  obtain ⟨v, hv⟩ := lookup_of_mem_keys hmem
  rw [h] at hv
  cases hv

theorem filter_keys_of_lookup {map : List (ℕ × Bytes)} {la : ℕ} (h : map.lookup la = none) :
    map.filter (·.1 ≠ la) = map := by
  rw [List.filter_eq_self]
  intro kv hkv
  have hne : kv.1 ≠ la := fun heq =>
    not_mem_keys_of_lookup h (heq ▸ List.mem_map_of_mem hkv)
  simpa using hne

/-- **Eviction keeps the accounts**, and ends with the counter within the cache's size: the queue
does not run out before the map is empty. -/
theorem evict_balanced {map : List (ℕ × Bytes)} {bytes : ℕ} {order : List ℕ}
    (h : Balanced ⟨map, order, bytes⟩) :
    Balanced (evict map bytes order) ∧ (evict map bytes order).bytes ≤ packedCacheBytes := by
  induction order generalizing map bytes with
  | nil =>
    have hmap : map = [] := by
      have hnil : map.map Prod.fst = [] := List.perm_nil.mp h.queue.symm
      exact List.map_eq_nil_iff.mp hnil
    have hbytes : bytes = 0 := by
      have hcounter := h.counter
      rwa [hmap] at hcounter
    rw [evict]
    exact ⟨h, by rw [hbytes]; exact Nat.zero_le _⟩
  | cons old order ih =>
    rw [evict]
    split
    · obtain ⟨v, hv⟩ := lookup_of_mem_keys (h.queue.mem_iff.mp List.mem_cons_self)
      have hkeys : (map.map Prod.fst).Nodup := h.keys
      obtain ⟨hperm, hsum⟩ := drop_entry hkeys hv
      rw [hv]
      refine ih ⟨?_, ?_, ?_⟩
      · exact (List.nodup_cons.mp (hperm.nodup_iff.mp hkeys)).2
      · exact List.Perm.cons_inv (h.queue.trans hperm)
      · have hcounter := h.counter
        dsimp only at hcounter ⊢
        -- the counter holds at least what is taken off it
        omega
    · next hfits => exact ⟨h, Nat.le_of_not_lt hfits⟩

/-- **An insertion keeps the accounts.**  A key that is there already has a value of the same
length. -/
theorem insert_balanced {cache : PackedCache} (h : Balanced cache)
    (hsize : cache.bytes ≤ packedCacheBytes) {la : ℕ} {v : Bytes}
    (hsame : ∀ w, cache.map.lookup la = some w → w.length = v.length) :
    Balanced (cache.insert la v) ∧ (cache.insert la v).bytes ≤ packedCacheBytes := by
  rw [PackedCache.insert]
  cases hl : cache.map.lookup la with
  | some w =>
    obtain ⟨hperm, hsum⟩ := drop_entry h.keys hl
    refine ⟨⟨?_, ?_, ?_⟩, hsize⟩
    · exact hperm.nodup_iff.mp h.keys
    · exact h.queue.trans hperm
    · rw [h.counter, hsum, hsame w hl]
      rfl
  | none =>
    have hfresh := not_mem_keys_of_lookup hl
    refine evict_balanced ⟨?_, ?_, ?_⟩
    · rw [filter_keys_of_lookup hl, List.map_cons, List.nodup_cons]
      exact ⟨hfresh, h.keys⟩
    · rw [filter_keys_of_lookup hl, List.map_cons]
      exact (List.perm_append_singleton la cache.order).trans (h.queue.cons la)
    · rw [filter_keys_of_lookup hl, List.map_cons, List.sum_cons, h.counter]
      exact Nat.add_comm _ _

/-! ### The readers -/

/-- A stored pcluster as `packed_read` asks for it. -/
structure Ask where
  la : ℕ
  pa : ℕ
  plen : ℕ
  llen : ℕ
  alg : Alg
  isPartial : Bool

def Ask.decode (a : Ask) (fs : Erofs) (z : Decoders) : Except Fault Bytes :=
  fs.decodeRaw z a.pa a.plen a.llen a.alg a.isPartial

/-- What a read at an offset of the packed stream asks of the cache. -/
def Erofs.askAt (fs : Erofs) (off : ℕ) : Option Ask :=
  match fs.packedPlan with
  | .error _ => none
  | .ok plan =>
    if off < plan.size then
      match plan.exts[plan.exts.findIdx fun e => decide (off < e.la + e.llen)]? with
      | none => none
      | some e =>
        match e.src with
        | .raw pa plen alg isPartial => some ⟨e.la, pa, plen, e.llen, alg, isPartial⟩
        | _ => none
    else none

/-- Any number of readers of one image.  `decoding` are those between their two turns with the lock;
`returned` is what `packed_chunk` has returned so far, to whom and for what. -/
structure Readers (ι : Type*) where
  cache : PackedCache
  decoding : ι → Option Ask
  returned : List (ι × Ask × Except Fault Bytes)

/-- A turn with the lock: a lookup, or the end of a decode. -/
inductive Turn (ι : Type*) where
  | lookup (reader : ι) (off : ℕ)
  | decoded (reader : ι)

namespace Readers

variable {ι : Type*} [DecidableEq ι]

/-- Nothing cached, nobody decoding. -/
def start : Readers ι := ⟨⟨[], [], 0⟩, fun _ => none, []⟩

def step (fs : Erofs) (z : Decoders) (s : Readers ι) : Turn ι → Option (Readers ι)
  | .lookup reader off =>
    match s.decoding reader, fs.askAt off with
    | none, some a =>
      match s.cache.map.lookup a.la with
      | some hit => some { s with returned := (reader, a, .ok hit) :: s.returned }
      | none => some { s with decoding := Function.update s.decoding reader (some a) }
    | _, _ => none
  | .decoded reader =>
    match s.decoding reader with
    | none => none
    | some a =>
      let decoding := Function.update s.decoding reader none
      match a.decode fs z with
      | .error e => some { s with decoding, returned := (reader, a, .error e) :: s.returned }
      | .ok v => some ⟨s.cache.insert a.la v, decoding, (reader, a, .ok v) :: s.returned⟩

end Readers

/-- The extent an ask is for. -/
def Ask.Of (fs : Erofs) (a : Ask) : Prop :=
  ∃ plan e, fs.packedPlan = .ok plan ∧ e ∈ plan.exts ∧ 0 < e.llen ∧
    a = ⟨e.la, a.pa, a.plen, e.llen, a.alg, a.isPartial⟩ ∧
    e.src = .raw a.pa a.plen a.alg a.isPartial

theorem askAt_of {fs : Erofs} {off : ℕ} {a : Ask} (h : fs.askAt off = some a) : a.Of fs := by
  rw [Erofs.askAt] at h
  cases hplan : fs.packedPlan with
  | error e =>
    rw [hplan] at h
    cases h
  | ok plan =>
    rw [hplan] at h
    dsimp only at h
    obtain ⟨htiled, -⟩ := packedPlan_wellTiled hplan
    split at h
    · next hoff =>
      obtain ⟨e, hext, he, hlo, hhi, -, -⟩ := htiled.extAt hoff
      have hfind : plan.exts[plan.exts.findIdx fun e => decide (off < e.la + e.llen)]? = some e := by
        rw [← List.find?_eq_getElem?_findIdx]
        exact hext
      rw [hfind] at h
      dsimp only at h
      split at h
      · next hsrc =>
        cases h
        exact ⟨plan, e, hplan, he, by omega, rfl, hsrc⟩
      · cases h
    · cases h

/-- A read of the packed stream is a slice of what the ask is answered with. -/
theorem packedRead_ask {fs : Erofs} {z : Decoders} {cache : PackedCache} {off m : ℕ} {a : Ask}
    (h : fs.askAt off = some a) :
    fs.packedRead z cache off m =
      match fs.packedChunk z cache a.la a.pa a.plen a.llen a.alg a.isPartial with
      | (.error err, cache) => (.error err, cache)
      | (.ok chunk, cache) =>
        (slice chunk (off - a.la) (off - a.la + min m (a.llen - (off - a.la))), cache) := by
  rw [Erofs.askAt] at h
  rw [Erofs.packedRead]
  cases hplan : fs.packedPlan with
  | error e =>
    rw [hplan] at h
    cases h
  | ok plan =>
    rw [hplan] at h
    dsimp only at h ⊢
    split at h
    · next hoff =>
      rw [if_pos hoff]
      cases hfind : plan.exts[plan.exts.findIdx fun e => decide (off < e.la + e.llen)]? with
      | none =>
        rw [hfind] at h
        cases h
      | some e =>
        rw [hfind] at h
        dsimp only at h ⊢
        split at h
        · next hsrc =>
          cases h
          obtain ⟨la, llen, src⟩ := e
          cases hsrc
          rfl
        · cases h
    · cases h

/-! ### Every interleaving -/

/-- What holds between turns. -/
structure Readers.Kept {ι : Type*} (fs : Erofs) (z : Decoders) (s : Readers ι) : Prop where
  accounts : Balanced s.cache
  size : s.cache.bytes ≤ packedCacheBytes
  sound : s.cache.Sound fs z
  asked : ∀ reader a, s.decoding reader = some a → a.Of fs
  answered : ∀ x ∈ s.returned, x.2.2 = x.2.1.decode fs z

theorem Readers.start_kept {ι : Type*} (fs : Erofs) (z : Decoders) :
    (Readers.start : Readers ι).Kept fs z :=
  ⟨⟨List.nodup_nil, List.Perm.nil, rfl⟩, Nat.zero_le _, nofun, nofun, nofun⟩

theorem lookup_mem {map : List (ℕ × Bytes)} {la : ℕ} {v : Bytes} (h : map.lookup la = some v) :
    (la, v) ∈ map := by
  obtain ⟨pre, post, rfl, -⟩ := List.lookup_eq_some_iff.mp h
  exact List.mem_append_right _ List.mem_cons_self

/-- **A hit is what decoding gives.** -/
theorem hit_eq_decode {fs : Erofs} {z : Decoders} {cache : PackedCache} (hsound : cache.Sound fs z)
    {a : Ask} (ha : a.Of fs) {hit : Bytes} (hl : cache.map.lookup a.la = some hit) :
    a.decode fs z = .ok hit := by
  obtain ⟨plan, e, hplan, he, -, heq, hsrc⟩ := ha
  have hexts : fs.packedExts = plan.exts := by
    rw [Erofs.packedExts, hplan]
  rw [heq] at hl ⊢
  exact hsound e.la hit (lookup_mem hl) e (hexts ▸ he) rfl _ _ _ _ hsrc

/-- A decoded cluster may be put under its place. -/
theorem insert_sound {fs : Erofs} {z : Decoders} {cache : PackedCache} (hsound : cache.Sound fs z)
    {a : Ask} (ha : a.Of fs) {v : Bytes} (hv : a.decode fs z = .ok v) :
    (cache.insert a.la v).Sound fs z := by
  obtain ⟨plan, e, hplan, he, hpos, heq, hsrc⟩ := ha
  obtain ⟨htiled, -⟩ := packedPlan_wellTiled hplan
  have hexts : fs.packedExts = plan.exts := by
    rw [Erofs.packedExts, hplan]
  rw [heq] at hv ⊢
  intro la w hmem e' he' hla pa' plen' alg' isPartial' hsrc'
  cases insert_sub hmem with
  | inl hnew =>
    cases hnew
    have hone := htiled.la_inj he (hexts ▸ he') hla.symm hpos
    subst hone
    rw [hsrc] at hsrc'
    cases hsrc'
    exact hv
  | inr hold => exact hsound la w hold e' he' hla pa' plen' alg' isPartial' hsrc'

/-- **A turn keeps all of it.** -/
theorem step_kept {ι : Type*} [DecidableEq ι] {fs : Erofs} {z : Decoders} {s s' : Readers ι}
    (turn : Turn ι) (hs : s.Kept fs z) (h : s.step fs z turn = some s') : s'.Kept fs z := by
  cases turn with
  | lookup reader off =>
    simp only [Readers.step] at h
    split at h
    · next a _ hask =>
      have ha := askAt_of hask
      split at h
      · next hit hl =>
        cases h
        refine { hs with answered := fun x hx => ?_ }
        rcases List.mem_cons.mp hx with rfl | hx
        · exact (hit_eq_decode hs.sound ha hl).symm
        · exact hs.answered x hx
      · cases h
        refine { hs with asked := fun other b hb => ?_ }
        by_cases hother : other = reader
        · subst hother
          simp only [Function.update_self, Option.some_inj] at hb
          exact hb ▸ ha
        · simp only [Function.update_of_ne hother] at hb
          exact hs.asked other b hb
    · cases h
  | decoded reader =>
    simp only [Readers.step] at h
    cases hdec : s.decoding reader with
    | none =>
      rw [hdec] at h
      cases h
    | some a =>
      rw [hdec] at h
      dsimp only at h
      have ha := hs.asked reader a hdec
      have hasked : ∀ other b, Function.update s.decoding reader none other = some b → b.Of fs := by
        intro other b hb
        by_cases hother : other = reader
        · subst hother
          simp at hb
        · rw [Function.update_of_ne hother] at hb
          exact hs.asked other b hb
      have hanswered : ∀ x ∈ (reader, a, a.decode fs z) :: s.returned,
          x.2.2 = x.2.1.decode fs z := by
        intro x hx
        rcases List.mem_cons.mp hx with rfl | hx
        · rfl
        · exact hs.answered x hx
      cases hv : a.decode fs z with
      | error e =>
        rw [hv] at h hanswered
        cases h
        exact { hs with asked := hasked, answered := hanswered }
      | ok v =>
        rw [hv] at h hanswered
        cases h
        -- a key already there was put by a decode of the same cluster
        have hsame : ∀ w, s.cache.map.lookup a.la = some w → w.length = v.length := by
          intro w hw
          have hhit := hit_eq_decode hs.sound ha hw
          rw [hv] at hhit
          cases hhit
          rfl
        obtain ⟨haccounts, hsize⟩ := insert_balanced hs.accounts hs.size hsame
        exact ⟨haccounts, hsize, insert_sound hs.sound ha hv, hasked, hanswered⟩

/-- **Whatever the interleaving,** the counter is the sum of the cached lengths, the queue holds each
cached key once, the counter stays within the cache's size, and every reader is handed what decoding
its cluster gives. -/
theorem readers_keep_accounts {ι : Type*} [DecidableEq ι] {fs : Erofs} {z : Decoders}
    {turns : List (Turn ι)} {s : Readers ι} (h : Steps.run (Readers.step fs z) Readers.start turns = some s) :
    Balanced s.cache ∧ s.cache.bytes ≤ packedCacheBytes ∧
      ∀ x ∈ s.returned, x.2.2 = x.2.1.decode fs z := by
  have hkept := Steps.run_invariant (fun _ turn _ hs hstep => step_kept turn hs hstep)
    (Readers.start_kept fs z) h
  exact ⟨hkept.accounts, hkept.size, hkept.answered⟩

/-- An image whose packed inode is the file of five bytes. -/
def sharedFs : Erofs := { tailFs 5 [104, 101, 108, 108, 111] with packedNid := 36 }

/-- Two readers miss the one pcluster, both decode it, and the first comes back for more of it. -/
def sharedTurns : List (Turn Bool) :=
  [.lookup false 0, .lookup true 3, .decoded true, .decoded false, .lookup false 2]

set_option maxRecDepth 20000 in
theorem readers_keep_accounts_shared :
    ∃ s, Steps.run (Readers.step sharedFs noDecoders) Readers.start sharedTurns = some s ∧
      Balanced s.cache ∧ s.cache.bytes ≤ packedCacheBytes ∧
      ∀ x ∈ s.returned, x.2.2 = x.2.1.decode sharedFs noDecoders := by
  obtain ⟨s, hs⟩ := Option.isSome_iff_exists.mp
    (show (Steps.run (Readers.step sharedFs noDecoders) Readers.start sharedTurns).isSome = true
      from rfl)
  exact ⟨s, hs, readers_keep_accounts hs⟩

end Hashdex.Zmap
