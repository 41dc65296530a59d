import Hashdex.Recipe.Check

/-!
# What an assembly that succeeds has fed

* `assembly_sound_iff`: in a run, every call that returns `n` has fed exactly `n` bytes, which hash
  to the digest its node declares, and every range request is honoured or refused, exactly when no
  range request of the run wraps around where it matters
-/

namespace Hashdex

open RecProg RecProg.RecM

/-! ### Range requests of a run -/

/-- A range that a slice or a residue literal asks of a spool. -/
structure Request where
  spool : Spool
  start : UInt64
  len : UInt64

def Request.Sound (q : Request) : Prop := q.spool.RangeSound q.start q.len

def Request.Fits (q : Request) : Prop := q.spool.RangeFits q.start q.len

/-- The residue range a literal stands for. -/
def LiteralRequest (ctx : CheckCtx) (l : Json) (q : Request) : Prop :=
  l["inline_hex"].asStr = none ∧ l["residue_offset"].asU64 = some q.start ∧
    l["len"].asU64 = some q.len ∧ ctx.residue = some q.spool

/-- The range a slice takes of a local blob, or of what was rebuilt for it. -/
def SliceRequest (ctx : CheckCtx) (sl : Json) (built : Built) (q : Request) : Prop :=
  ∃ node sha, sliceNode ctx.sources sl = .ok node ∧ sl["from"].asU64 = some q.start ∧
    sl["len"].asU64 = some q.len ∧ nodeSha256 node = .ok sha ∧
    ((∃ blob, ctx.blobs sha = some blob ∧ q.spool = .file blob.bytes) ∨
      (ctx.blobs sha = none ∧ ∃ built',
        Yields (Evaluates (assemble ctx)) (builtSpool ctx node sha) built q.spool built'))

/-- The range request a call of `assemble` makes itself. -/
def Requests (ctx : CheckCtx) (c : Json × Built) (q : Request) : Prop :=
  ∃ node, resolveSource ctx.sources c.1 = .ok node ∧
    ((node["literal"].isObject = true ∧ LiteralRequest ctx node["literal"] q) ∨
      (node["literal"].isObject = false ∧ node["slice"].isObject = true ∧
        SliceRequest ctx node["slice"] c.2 q))

/-! ### What a call owes -/

/-- The digest the bytes of a resolved node are held to; literals and slices have none. -/
def declaredSha256 (node : Json) : Option String :=
  if node["literal"].isObject ∨ node["slice"].isObject then none
  else if node["extract"].isObject then node["extract"]["output"]["sha256"].asStr
  else if node["ref"].isObject then node["ref"]["digests"]["sha256"].asStr
  else node["build"]["output"]["sha256"].asStr

/-- The count is right. -/
def Fed.Counted (fed : Fed) : Prop := fed.n = UInt64.ofNat fed.bytes.length

/-- The bytes hash to what the node declares. -/
def Fed.Hashed (ctx : CheckCtx) (node : Json) (fed : Fed) : Prop :=
  ∀ node' sha, resolveSource ctx.sources node = .ok node' → declaredSha256 node' = some sha →
    ctx.codecs.sha256Hex fed.bytes = sha

/-- A result a call may have: a sound success, or a failure that is not a panic. -/
def ResultSound (ctx : CheckCtx) (node : Json) : Except Fault (Fed × Built) → Prop
  | .error e => e ≠ .panic
  | .ok (fed, _) => fed.Counted ∧ fed.Hashed ctx node

/-- What is owed of a call: its range request is honoured or refused, and its result is sound. -/
def CallSound (ctx : CheckCtx) (c : Json × Built) : Prop :=
  (∀ q, Requests ctx c q → q.Sound) ∧
    ∀ r, Evaluates (assemble ctx) c r → ResultSound ctx c.1 r

/-! ### Counting -/

theorem Fed.counted_of (bytes : Bytes) : (Fed.of bytes).Counted := rfl

theorem Fed.counted_slice {bytes : Bytes} {len : UInt64} (h : bytes.length = len.toNat) :
    Fed.Counted ⟨bytes, len⟩ := by
  rw [Fed.Counted, h, UInt64.ofNat_toNat]

theorem Fed.counted_append {a b : Fed} (ha : a.Counted) (hb : b.Counted) :
    Fed.Counted ⟨a.bytes ++ b.bytes, a.n + b.n⟩ := by
  rw [Fed.Counted] at *
  rw [List.length_append, UInt64.ofNat_add, ha, hb]

/-! ### The pieces that make no calls -/

theorem resolveLoop_ne_panic {sources : List Json} {k : ℕ} {node : Json} :
    resolveLoop sources k node ≠ .error .panic := by
  induction k generalizing node with
  | zero => simp [resolveLoop]
  | succ k ih =>
    rw [resolveLoop]
    split
    · simp
    · split
      · simp
      · exact ih

theorem resolveSource_ne_panic {sources : List Json} {node : Json} :
    resolveSource sources node ≠ .error .panic := resolveLoop_ne_panic

theorem sliceNode_ne_panic {sources : List Json} {sl : Json} :
    sliceNode sources sl ≠ .error .panic := by
  rw [sliceNode]
  split
  · simp
  · exact resolveSource_ne_panic

theorem nodeSha256_ne_panic {node : Json} : nodeSha256 node ≠ .error .panic := by
  rw [nodeSha256]
  split
  · exact need_ne_panic
  · split
    · exact need_ne_panic
    · split
      · exact need_ne_panic
      · simp

/-- A range that fits is honoured or refused. -/
theorem readRange_ne_panic {s : Spool} {start len : UInt64} (h : s.RangeFits start len) :
    s.readRange start len ≠ .error .panic := by
  have hsound := (readRange_sound_iff s start len).mpr h
  intro hp
  by_cases hin : s.Inside start len
  · cases hp.symm.trans (hsound.1 hin)
  · obtain ⟨message, hm⟩ := hsound.2 hin
    cases hp.symm.trans hm

theorem assembleLiteral_spec {ctx : CheckCtx} {l : Json}
    (hfit : ∀ q, LiteralRequest ctx l q → q.Fits) :
    assembleLiteral ctx l ≠ .error .panic ∧
      ∀ fed, assembleLiteral ctx l = .ok fed → fed.Counted := by
  rw [assembleLiteral]
  cases hin : l["inline_hex"].asStr with
  | some hexs =>
    refine ⟨fun h => ?_, fun fed h => ?_⟩
    · rcases bind_eq_error.mp h with h | ⟨bytes, -, h⟩
      · exact need_ne_panic h
      · cases h
    · obtain ⟨bytes, -, h⟩ := bind_eq_ok.mp h
      cases h
      exact Fed.counted_of bytes
  | none =>
    have hrange : ∀ off len res, l["residue_offset"].asU64 = some off → l["len"].asU64 = some len →
        ctx.residue = some res → res.RangeFits off len :=
      fun off len res ho hl hr => hfit ⟨res, off, len⟩ ⟨hin, ho, hl, hr⟩
    refine ⟨fun h => ?_, fun fed h => ?_⟩
    · rcases bind_eq_error.mp h with h | ⟨off, ho, h⟩
      · exact need_ne_panic h
      rcases bind_eq_error.mp h with h | ⟨len, hl, h⟩
      · exact need_ne_panic h
      rcases bind_eq_error.mp h with h | ⟨res, hr, h⟩
      · exact need_ne_panic h
      rcases bind_eq_error.mp h with h | ⟨bytes, -, h⟩
      · exact readRange_ne_panic (hrange _ _ _ (need_eq_ok.mp ho) (need_eq_ok.mp hl)
          (need_eq_ok.mp hr)) h
      · cases h
    · obtain ⟨off, ho, h⟩ := bind_eq_ok.mp h
      obtain ⟨len, hl, h⟩ := bind_eq_ok.mp h
      obtain ⟨res, hr, h⟩ := bind_eq_ok.mp h
      obtain ⟨bytes, hb, h⟩ := bind_eq_ok.mp h
      cases h
      exact Fed.counted_slice (length_of_readRange (hrange _ _ _ (need_eq_ok.mp ho)
        (need_eq_ok.mp hl) (need_eq_ok.mp hr)) hb)

theorem assembleBlob_spec {ctx : CheckCtx} {sha name : String} :
    assembleBlob ctx sha name ≠ .error .panic ∧
      ∀ fed, assembleBlob ctx sha name = .ok fed →
        fed.Counted ∧ ctx.codecs.sha256Hex fed.bytes = sha := by
  rw [assembleBlob]
  refine ⟨fun h => ?_, fun fed h => ?_⟩
  · rcases bind_eq_error.mp h with h | ⟨blob, -, h⟩
    · exact need_ne_panic h
    rcases bind_eq_error.mp h with h | ⟨_, -, h⟩
    · exact ensure_ne_panic h
    · cases h
  · obtain ⟨blob, -, h⟩ := bind_eq_ok.mp h
    obtain ⟨_, hsha, h⟩ := bind_eq_ok.mp h
    cases h
    exact ⟨Fed.counted_of _, ensure_eq_ok.mp hsha⟩

theorem checkOutput_spec {ctx : CheckCtx} {b : Json} {sha name : String}
    {mismatch : String → String} {fed : Fed} :
    checkOutput ctx b sha mismatch name fed ≠ .error .panic ∧
      ∀ fed', checkOutput ctx b sha mismatch name fed = .ok fed' →
        fed' = fed ∧ ctx.codecs.sha256Hex fed.bytes = sha := by
  rw [checkOutput]
  refine ⟨fun h => ?_, fun fed' h => ?_⟩
  · rcases bind_eq_error.mp h with h | ⟨_, -, h⟩
    · exact ensure_ne_panic h
    · split at h
      · rcases bind_eq_error.mp h with h | ⟨_, -, h⟩
        · exact ensure_ne_panic h
        · cases h
      · cases h
  · obtain ⟨_, hsha, h⟩ := bind_eq_ok.mp h
    refine ⟨?_, ensure_eq_ok.mp hsha⟩
    split at h
    · obtain ⟨_, -, h⟩ := bind_eq_ok.mp h
      cases h
      rfl
    · cases h
      rfl

theorem assembleExtract_spec {ctx : CheckCtx} {node : Json} :
    assembleExtract ctx node ≠ .error .panic ∧
      ∀ fed, assembleExtract ctx node = .ok fed → fed.Counted ∧
        node["extract"]["output"]["sha256"].asStr = some (ctx.codecs.sha256Hex fed.bytes) := by
  rw [assembleExtract]
  dsimp only
  refine ⟨fun h => ?_, fun fed h => ?_⟩
  · rcases bind_eq_error.mp h with h | ⟨want, -, h⟩
    · exact need_ne_panic h
    rcases bind_eq_error.mp h with h | ⟨size, -, h⟩
    · exact need_ne_panic h
    split at h
    · exact assembleBlob_spec.1 h
    · rcases bind_eq_error.mp h with h | ⟨archive, -, h⟩
      · exact resolveSource_ne_panic h
      rcases bind_eq_error.mp h with h | ⟨asha, -, h⟩
      · exact nodeSha256_ne_panic h
      rcases bind_eq_error.mp h with h | ⟨ablob, -, h⟩
      · exact need_ne_panic h
      rcases bind_eq_error.mp h with h | ⟨path, -, h⟩
      · exact need_ne_panic h
      split at h
      · cases h
      · rcases bind_eq_error.mp h with h | ⟨_, -, h⟩
        · exact ensure_ne_panic h
        rcases bind_eq_error.mp h with h | ⟨_, -, h⟩
        · exact ensure_ne_panic h
        · cases h
  · obtain ⟨want, hwant, h⟩ := bind_eq_ok.mp h
    obtain ⟨size, -, h⟩ := bind_eq_ok.mp h
    rw [need_eq_ok.mp hwant]
    split at h
    · obtain ⟨hcount, hsha⟩ := assembleBlob_spec.2 fed h
      exact ⟨hcount, by rw [hsha]⟩
    · obtain ⟨archive, -, h⟩ := bind_eq_ok.mp h
      obtain ⟨asha, -, h⟩ := bind_eq_ok.mp h
      obtain ⟨ablob, -, h⟩ := bind_eq_ok.mp h
      obtain ⟨path, -, h⟩ := bind_eq_ok.mp h
      split at h
      · cases h
      · next bytes _ =>
        obtain ⟨_, hsha, h⟩ := bind_eq_ok.mp h
        obtain ⟨_, -, h⟩ := bind_eq_ok.mp h
        cases h
        exact ⟨rfl, by rw [ensure_eq_ok.mp hsha]⟩

/-! ### The pieces that call -/

/-- A piece that does not panic and yields only results with `Q`. -/
def Meets {α : Type} (E : Oracle Json Built Fault Fed) (m : Asm α) (s : Built) (Q : α → Prop) :
    Prop :=
  ¬ Fails E m s .panic ∧ ∀ a s', Yields E m s a s' → Q a

section Pieces

variable {E : Oracle Json Built Fault Fed} {ctx : CheckCtx} {s : Built}

theorem meets_lift {α : Type} {x : Except Fault α} {Q : α → Prop} (hp : x ≠ .error .panic)
    (hQ : ∀ a, x = .ok a → Q a) : Meets E (lift x) s Q := by
  refine ⟨fun h => hp (fails_lift.mp h), fun a s' h => ?_⟩
  exact hQ a (yields_lift.mp h).1

theorem meets_pure {α : Type} {a : α} {Q : α → Prop} (hQ : Q a) :
    Meets E (pure a : Asm α) s Q := by
  refine ⟨fails_pure, fun b s' h => ?_⟩
  rw [← (yields_pure.mp h).1]
  exact hQ

theorem meets_fail {α : Type} {e : Fault} {Q : α → Prop} (he : e ≠ .panic) :
    Meets E (fail e : Asm α) s Q :=
  ⟨fun h => he (fails_fail.mp h), fun _ _ h => absurd h yields_fail⟩

/-- **Sequencing.**  The second part is met from every state and value the first can leave. -/
theorem meets_bind {α β : Type} {m : Asm α} {f : α → Asm β} {R : α → Prop} {Q : β → Prop}
    (hm : Meets E m s R) (hf : ∀ a s', Yields E m s a s' → R a → Meets E (f a) s' Q) :
    Meets E (m >>= f) s Q := by
  refine ⟨fun h => ?_, fun b s'' h => ?_⟩
  · rcases fails_bind.mp h with h | ⟨a, s', ha, h⟩
    · exact hm.1 h
    · exact (hf a s' ha (hm.2 a s' ha)).1 h
  · obtain ⟨a, s', ha, hb⟩ := yields_bind.mp h
    exact (hf a s' ha (hm.2 a s' ha)).2 b s'' hb

/-- A step that asks for a field, or checks a condition, only refuses. -/
theorem meets_bind_lift {α β : Type} {x : Except Fault α} {f : α → Asm β} {Q : β → Prop}
    (hp : x ≠ .error .panic) (hf : ∀ a, x = .ok a → Meets E (f a) s Q) :
    Meets E (lift x >>= f) s Q := by
  refine meets_bind (meets_lift (Q := fun a => x = .ok a) hp fun _ h => h) fun a s' ha hx => ?_
  rw [← (yields_lift.mp ha).2]
  exact hf a hx

variable (hE : ∀ n s r, E (n, s) r → ResultSound ctx n r)
include hE

theorem meets_recur (node : Json) :
    Meets E (recur node) s fun fed => fed.Counted ∧ fed.Hashed ctx node :=
  ⟨fun h => hE node s _ (fails_recur.mp h) rfl, fun _ _ h => hE node s _ (yields_recur.mp h)⟩

theorem meets_materialize (node : Json) : Meets E (materialize ctx node) s fun _ => True := by
  refine meets_bind_lift resolveSource_ne_panic fun node' _ => ?_
  refine meets_bind (meets_recur hE node') fun fed s' _ _ => ?_
  split <;> exact meets_pure trivial

theorem meets_builtSpool (node : Json) (sha : String) :
    Meets E (builtSpool ctx node sha) s fun _ => True := by
  refine meets_bind (R := fun _ => True) ⟨fails_getState, fun _ _ _ => trivial⟩ fun built s' _ _ => ?_
  split
  · exact meets_pure trivial
  · refine meets_bind (meets_materialize hE node) fun spool s' _ _ => ?_
    refine meets_bind (R := fun _ => True) ⟨fails_getState, fun _ _ _ => trivial⟩ fun _ _ _ _ => ?_
    refine meets_bind (R := fun _ => True) ⟨fails_putState, fun _ _ _ => trivial⟩ fun _ _ _ _ => ?_
    exact meets_pure trivial

theorem meets_slice (hsub : ∀ c r, E c r → Evaluates (assemble ctx) c r) {sl : Json}
    (hfit : ∀ q, SliceRequest ctx sl s q → q.Fits) :
    Meets E (assembleSlice ctx sl) s Fed.Counted := by
  refine meets_bind_lift sliceNode_ne_panic fun node hnode => ?_
  refine meets_bind_lift need_ne_panic fun start hstart => ?_
  refine meets_bind_lift need_ne_panic fun len hlen => ?_
  refine meets_bind_lift nodeSha256_ne_panic fun sha hsha => ?_
  have hslice : ∀ spool, ((∃ blob, ctx.blobs sha = some blob ∧ spool = .file blob.bytes) ∨
      (ctx.blobs sha = none ∧ ∃ built',
        Yields (Evaluates (assemble ctx)) (builtSpool ctx node sha) s spool built')) →
      spool.RangeFits start len := fun spool h =>
    hfit ⟨spool, start, len⟩ ⟨node, sha, hnode, need_eq_ok.mp hstart, need_eq_ok.mp hlen, hsha, h⟩
  have hread : ∀ (spool : Spool) (t : Built), spool.RangeFits start len →
      Meets E (do let bytes ← lift (spool.readRange start len); pure ⟨bytes, len⟩ : Asm Fed) t
        Fed.Counted := fun spool t h => by
    refine meets_bind_lift (readRange_ne_panic h) fun bytes hb => ?_
    exact meets_pure (Fed.counted_slice (length_of_readRange h hb))
  split
  · next blob hblob => exact hread _ s (hslice _ (Or.inl ⟨blob, hblob, rfl⟩))
  · next hnone =>
    refine meets_bind (meets_builtSpool hE node sha) fun spool s' hy _ => ?_
    exact hread spool s' (hslice spool (Or.inr ⟨hnone, s', hy.mono hsub⟩))

theorem meets_inputs (inputs : List Json) : Meets E (assembleInputs inputs) s Fed.Counted := by
  induction inputs generalizing s with
  | nil => exact meets_pure rfl
  | cons input rest ih =>
    refine meets_bind (meets_recur hE input) fun a s' _ ha => ?_
    refine meets_bind ih fun b s'' _ hb => ?_
    exact meets_pure (Fed.counted_append ha.1 hb)

theorem meets_span (name : String) (inputs : List Json) (input : Bytes) :
    Meets E (assembleSpan name inputs input) s fun _ => True := by
  induction inputs generalizing s input with
  | nil => exact meets_pure trivial
  | cons i rest ih =>
    refine meets_bind (meets_recur hE i) fun fed s' _ _ => ?_
    exact meets_bind_lift ensure_ne_panic fun _ _ => ih _

theorem meets_onlyInput (b : Json) (builder : String) :
    Meets E (onlyInput ctx b builder) s fun _ => True := by
  refine meets_bind_lift need_ne_panic fun inputs _ => ?_
  split
  · exact meets_materialize hE _
  · exact meets_fail (by simp)

/-- Counted bytes with the digest `sha`. -/
def FedAs (ctx : CheckCtx) (sha : String) (fed : Fed) : Prop :=
  fed.Counted ∧ ctx.codecs.sha256Hex fed.bytes = sha

omit hE in
theorem meets_checkOutput {b : Json} {sha name : String} {mismatch : String → String} {fed : Fed}
    (hc : fed.Counted) :
    Meets E (lift (checkOutput ctx b sha mismatch name fed)) s (FedAs ctx sha) := by
  refine meets_lift checkOutput_spec.1 fun fed' h => ?_
  obtain ⟨rfl, hsha⟩ := checkOutput_spec.2 fed' h
  exact ⟨hc, hsha⟩

theorem meets_splice (node b : Json) (sha : String) :
    Meets E (assembleSplice ctx node b sha) s (FedAs ctx sha) := by
  refine meets_bind_lift need_ne_panic fun inputs _ => ?_
  refine meets_bind (meets_inputs hE inputs) fun fed s' _ hc => ?_
  exact meets_checkOutput hc

theorem meets_gzip (b : Json) (sha : String) :
    Meets E (assembleGzip ctx b sha) s (FedAs ctx sha) := by
  refine meets_bind_lift need_ne_panic fun cname _ => ?_
  refine meets_bind_lift need_ne_panic fun params _ => ?_
  refine meets_bind_lift need_ne_panic fun hexs _ => ?_
  refine meets_bind_lift need_ne_panic fun header _ => ?_
  refine meets_bind (meets_onlyInput hE b "gzip@0") fun spool s' _ _ => ?_
  split
  · exact meets_fail (by simp)
  · exact meets_checkOutput (Fed.counted_of _)

theorem meets_zstd (b : Json) (sha : String) :
    Meets E (assembleZstd ctx b sha) s (FedAs ctx sha) := by
  refine meets_bind_lift need_ne_panic fun level _ => ?_
  refine meets_bind (meets_onlyInput hE b "zstd@0") fun spool s' _ _ => ?_
  split
  · exact meets_fail (by simp)
  · exact meets_checkOutput (Fed.counted_of _)

omit hE in
theorem length_resize (bytes : Bytes) (size : ℕ) : (resize bytes size).length = size := by
  rw [resize, List.length_append, List.length_take, List.length_replicate]
  omega

theorem meets_microlzma (b : Json) (sha : String) :
    Meets E (assembleMicrolzma ctx b sha) s (FedAs ctx sha) := by
  refine meets_bind_lift need_ne_panic fun presetNum _ => ?_
  refine meets_bind_lift need_ne_panic fun dictSize _ => ?_
  refine meets_bind_lift need_ne_panic fun size _ => ?_
  refine meets_bind_lift ensure_ne_panic fun _ _ => ?_
  refine meets_bind_lift need_ne_panic fun inputs _ => ?_
  refine meets_bind (meets_span hE _ inputs []) fun input s' _ _ => ?_
  split
  · exact meets_fail (by simp)
  · refine meets_bind_lift ensure_ne_panic fun _ hsha => ?_
    exact meets_pure ⟨Fed.counted_slice (length_resize _ _), ensure_eq_ok.mp hsha⟩

theorem meets_build (node : Json) : Meets E (assembleBuild ctx node) s fun fed =>
    ∃ sha, nodeSha256 node = .ok sha ∧ FedAs ctx sha fed := by
  refine meets_bind_lift nodeSha256_ne_panic fun sha hsha => ?_
  have hweak : ∀ {m : Asm Fed}, Meets E m s (FedAs ctx sha) →
      Meets E m s fun fed => ∃ sha, nodeSha256 node = .ok sha ∧ FedAs ctx sha fed :=
    fun h => ⟨h.1, fun a s' ha => ⟨sha, hsha, h.2 a s' ha⟩⟩
  split
  · exact hweak (meets_lift assembleBlob_spec.1 assembleBlob_spec.2)
  · dsimp only
    split
    · exact hweak (meets_splice hE node _ sha)
    · split
      · exact hweak (meets_gzip hE _ sha)
      · split
        · exact hweak (meets_zstd hE _ sha)
        · split
          · exact hweak (meets_microlzma hE _ sha)
          · exact meets_fail (by simp)

/-- **One call of `assemble`.**  If its own range request fits and the calls inside are sound, so is
its result. -/
theorem meets_assemble (hsub : ∀ c r, E c r → Evaluates (assemble ctx) c r) (node : Json)
    (hfit : ∀ q, Requests ctx (node, s) q → q.Fits) :
    Meets E (assembleBody ctx node) s fun fed => fed.Counted ∧ fed.Hashed ctx node := by
  refine meets_bind_lift resolveSource_ne_panic fun node' hnode => ?_
  have hhashed : ∀ {fed : Fed}, (∀ sha, declaredSha256 node' = some sha →
      ctx.codecs.sha256Hex fed.bytes = sha) → fed.Hashed ctx node := by
    intro fed h node'' sha hnode'' hsha
    cases hnode.symm.trans hnode''
    exact h sha hsha
  split
  · next hlit =>
    have hrequest : ∀ q, LiteralRequest ctx node'["literal"] q → q.Fits :=
      fun q hq => hfit q ⟨node', hnode, Or.inl ⟨hlit, hq⟩⟩
    have hspec := assembleLiteral_spec hrequest
    refine meets_lift hspec.1 fun fed h => ⟨hspec.2 fed h, hhashed fun sha hsha => ?_⟩
    rw [declaredSha256, if_pos (Or.inl hlit)] at hsha
    cases hsha
  · next hlit =>
    have hlit' := Bool.eq_false_of_not_eq_true hlit
    split
    · next hsl =>
      have hrequest : ∀ q, SliceRequest ctx node'["slice"] s q → q.Fits :=
        fun q hq => hfit q ⟨node', hnode, Or.inr ⟨hlit', hsl, hq⟩⟩
      have hm := meets_slice hE hsub hrequest
      refine ⟨hm.1, fun fed s' h => ⟨hm.2 fed s' h, hhashed fun sha hsha => ?_⟩⟩
      rw [declaredSha256, if_pos (Or.inr hsl)] at hsha
      cases hsha
    · next hsl =>
      have hnot : ¬ ( node'["literal"].isObject = true ∨ node'["slice"].isObject = true) :=
        not_or.mpr ⟨hlit, hsl⟩
      split
      · next hex =>
        refine meets_lift assembleExtract_spec.1 fun fed h => ?_
        obtain ⟨hcount, hstated⟩ := assembleExtract_spec.2 fed h
        refine ⟨hcount, hhashed fun sha hsha => ?_⟩
        rw [declaredSha256, if_neg hnot, if_pos hex, hstated] at hsha
        exact Option.some_inj.mp hsha
      · next hex =>
        split
        · next href =>
          refine meets_bind_lift need_ne_panic fun sha' hsha' => ?_
          refine meets_lift assembleBlob_spec.1 fun fed h => ?_
          obtain ⟨hcount, hblob⟩ := assembleBlob_spec.2 fed h
          refine ⟨hcount, hhashed fun sha hsha => ?_⟩
          rw [declaredSha256, if_neg hnot, if_neg hex, if_pos href, need_eq_ok.mp hsha'] at hsha
          rw [hblob]
          exact Option.some_inj.mp hsha
        · next href =>
          split
          · next hb =>
            have hm := meets_build hE (s := s) node'
            refine ⟨hm.1, fun fed s' h => ?_⟩
            obtain ⟨sha', hsha', hcount, hgot⟩ := hm.2 fed s' h
            refine ⟨hcount, hhashed fun sha hsha => ?_⟩
            rw [declaredSha256, if_neg hnot, if_neg hex, if_neg href] at hsha
            rw [nodeSha256, if_neg href, if_pos hb, hsha] at hsha'
            rw [hgot]
            exact (Except.ok.inj hsha').symm
          · exact meets_fail (by simp)

end Pieces

/-! ### Whole runs -/

/-- In a run whose range requests all fit, every call's result is sound. -/
theorem result_sound_of_fits {ctx : CheckCtx} {c : Json × Built}
    {r : Except Fault (Fed × Built)} (h : Evaluates (assemble ctx) c r)
    (hfit : ∀ d q, Entered (assemble ctx) c d → Requests ctx d q → q.Fits) :
    ResultSound ctx c.1 r := by
  revert hfit
  refine h.induct (P := fun c r => (∀ d q, Entered (assemble ctx) c d → Requests ctx d q → q.Fits) →
    ResultSound ctx c.1 r) fun c r hret hfit => ?_
  obtain ⟨node, s⟩ := c
  set E : Oracle Json Built Fault Fed := fun c' r' => Calls (assemble ctx) (node, s) c' ∧
    Evaluates (assemble ctx) c' r' ∧
      ((∀ d q, Entered (assemble ctx) c' d → Requests ctx d q → q.Fits) →
        ResultSound ctx c'.1 r') with hE
  have hsound : ∀ n t r, E (n, t) r → ResultSound ctx n r := fun n t r hr =>
    hr.2.2 fun d q hd hq => hfit d q (Relation.ReflTransGen.head hr.1 hd) hq
  have hm := meets_assemble hsound (fun c r hr => hr.2.1) node
    (fun q hq => hfit _ q Relation.ReflTransGen.refl hq)
  cases r with
  | error e =>
    intro he
    rw [he] at hret
    exact hm.1 hret
  | ok p => exact hm.2 p.1 p.2 hret

/-- **When a run of `assemble` is sound.**  Every call it enters counts and hashes what it feeds,
never panics and has its range requests honoured or refused, exactly when each of those requests
keeps its end within 64 bits or, in memory, starts beyond the end. -/
theorem assembly_sound_iff (ctx : CheckCtx) (c : Json × Built) :
    (∀ d, Entered (assemble ctx) c d → CallSound ctx d) ↔
      ∀ d q, Entered (assemble ctx) c d → Requests ctx d q → q.Fits := by
  constructor
  · intro h d q hd hq
    exact (readRange_sound_iff q.spool q.start q.len).mp ((h d hd).1 q hq)
  · intro h d hd
    refine ⟨fun q hq => (readRange_sound_iff q.spool q.start q.len).mpr (h d q hd hq), ?_⟩
    intro r hr
    exact result_sound_of_fits hr fun e q he hq => h e q (hd.trans he) hq

/-! ### A wrapped range -/

def zeroSha256 : String := String.ofList (List.replicate 64 '0')

/-- One blob of one byte, and one byte of residue in memory. -/
def wrapCtx : CheckCtx :=
  { codecs :=
      { sha256 := fun _ => List.replicate 32 0
        gzipBody := fun _ _ => .error "no gzip"
        zstdBody := fun _ _ _ => .error "no zstd"
        zstdVersion := ""
        microlzmaEncode := fun _ _ _ _ => .error "no lzma"
        archiveExtract := fun _ _ => .error "no archive" }
    blobs := fun sha => if sha = zeroSha256 then some ⟨"blob", [7]⟩ else none
    sources := []
    residue := some (.mem [7]) }

/-- `{"slice": {"of": {"ref": …}, "from": 1, "len": 18446744073709551615}}`. -/
def wrapSlice : Json :=
  .obj [("slice", .obj [
    ("of", .obj [("ref", .obj [("digests", .obj [("sha256", .str zeroSha256)])])]),
    ("from", .ofU64 1), ("len", .ofU64 18446744073709551615)])]

/-- `{"literal": {"residue_offset": 1, "len": 18446744073709551615}}`. -/
def wrapLiteral : Json :=
  .obj [("literal", .obj [("residue_offset", .ofU64 1), ("len", .ofU64 18446744073709551615)])]

/-- A slice whose end wraps succeeds with nothing fed; a residue literal whose end wraps panics. -/
theorem wrapped_range_feeds_nothing :
    Evaluates (assemble wrapCtx) (wrapSlice, []) (.ok (⟨[], 18446744073709551615⟩, [])) ∧
      ¬ Fed.Counted ⟨[], 18446744073709551615⟩ ∧
      Evaluates (assemble wrapCtx) (wrapLiteral, []) (.error .panic) := by
  have hfile : (Spool.file [7]).readRange 1 18446744073709551615 = .ok [] :=
    readRange_file_empty (by decide)
  have hmem : (Spool.mem [7]).readRange 1 18446744073709551615 = .error .panic :=
    readRange_mem_panics (by decide) (by decide)
  have hblob : wrapCtx.blobs zeroSha256 = some ⟨"blob", [7]⟩ := by
    simp [wrapCtx]
  have hcount : ¬ Fed.Counted ⟨[], 18446744073709551615⟩ := by
    rw [Fed.Counted]
    decide
  refine ⟨evaluates_iff.mpr ?_, hcount, evaluates_iff.mpr ?_⟩
  · show Yields _ (assembleBody wrapCtx wrapSlice) [] _ []
    refine yields_bind.mpr ⟨wrapSlice, [], yields_lift.mpr ⟨rfl, rfl⟩, ?_⟩
    show Yields _ (assembleSlice wrapCtx wrapSlice["slice"]) [] _ []
    refine yields_bind.mpr ⟨_, [], yields_lift.mpr ⟨rfl, rfl⟩, ?_⟩
    refine yields_bind.mpr ⟨_, [], yields_lift.mpr ⟨rfl, rfl⟩, ?_⟩
    refine yields_bind.mpr ⟨_, [], yields_lift.mpr ⟨rfl, rfl⟩, ?_⟩
    refine yields_bind.mpr ⟨zeroSha256, [], yields_lift.mpr ⟨rfl, rfl⟩, ?_⟩
    rw [hblob]
    exact yields_bind.mpr ⟨[], [], yields_lift.mpr ⟨hfile, rfl⟩, yields_pure.mpr ⟨rfl, rfl⟩⟩
  · show Fails _ (assembleBody wrapCtx wrapLiteral) [] _
    refine fails_bind.mpr (Or.inr ⟨wrapLiteral, [], yields_lift.mpr ⟨rfl, rfl⟩, ?_⟩)
    show Fails _ (lift (assembleLiteral wrapCtx wrapLiteral["literal"])) [] _
    refine fails_lift.mpr ?_
    refine bind_eq_error.mpr (Or.inr ⟨1, rfl, ?_⟩)
    refine bind_eq_error.mpr (Or.inr ⟨18446744073709551615, rfl, ?_⟩)
    refine bind_eq_error.mpr (Or.inr ⟨.mem [7], rfl, ?_⟩)
    exact bind_eq_error.mpr (Or.inl hmem)

end Hashdex
