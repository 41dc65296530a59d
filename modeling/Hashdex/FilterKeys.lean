import Hashdex.Probes

/-!
# The key convention, end to end

The builder, the shared key function and the browser each choose how a digest is spelled.  This
module puts them against each other over a built file.

* `sha_listed_everywhere`: sha1 and sha256 filters answer for every digest they were built from
* `md5_browser_finds`: so does the browser for md5
* `listed_digests_found_iff`: the dataset gate finds the md5 digests exactly when the upper-case
  keys it probes are covered by the lower-case keys the builder set
-/

namespace Hashdex

open Dcso

/-! ### What it means to be found -/

/-- The gate of any dataset in front of which the filter stands admits the digest. -/
def GateFinds (file : Bytes) (c : Coord) : Prop :=
  ∀ (path : String) (gates : Gates) (dataset : String) (gate : Gate),
    Bloom.open file path = .ok gate.bloom → gates.gateFor dataset c.scheme = some gate →
      gates.admits dataset c = some true

/-- A scan of content with the digest reports the filter, or reports that it skipped it. -/
def PoolFinds (file : Bytes) (c : Coord) : Prop :=
  ∀ (path : String) (order : List NamedFilter) (f : NamedFilter) (sha1 sha256 : Bytes)
    (probeAll : Bool) (matched : List String) (skipped : Bool),
    f ∈ order → Bloom.open file path = .ok f.bloom → f.scheme = c.scheme →
      (c.scheme = .sha1 ∧ sha1 = c.digest ∨ c.scheme = .sha256 ∧ sha256 = c.digest) →
        Pool.probe order sha1 sha256 probeAll = some (matched, skipped) →
          f.name ∈ matched ∨
            (probeAll = false ∧ expensiveFilterBytes ≤ f.bytes ∧ skipped = true)

/-- Any spelling of the digest, probed at the place the file is served from, is present. -/
def BrowserFinds (file : Bytes) (c : Coord) : Prop :=
  ∀ (s : Session) (blooms : List BloomEntry) (name coord : String) (entry : BloomEntry),
    Coord.parse coord = some c →
      blooms.find? (fun e => e.name = name ∧ e.scheme = c.scheme.asStr) = some entry →
        s.served (entry.urls.head entry.urls_ne_nil) = file →
          s.probeFilter blooms name c.scheme.asStr coord = .ok true

/-! ### From the filter to the provers -/

theorem gateFinds_of_check {file : Bytes} {c : Coord}
    (h : ∀ path bloom key, Bloom.open file path = .ok bloom → bloomKey c.scheme c.digest = some key →
      bloom.check (asciiBytes key) = some true) : GateFinds file c := by
  intro path gates dataset gate hopen hgate
  rw [Gates.admits, hgate]
  dsimp only
  split
  · next key hkey => exact h path _ key hopen hkey
  · rfl

/-- What the pool's loop keeps, and that it takes every filter that answers. -/
theorem probeLoop_spec {sha1 sha256 : Bytes} {probeAll : Bool} {order : List NamedFilter}
    {m₀ m : List String} {s₀ s : Bool}
    (h : Pool.probeLoop sha1 sha256 probeAll order m₀ s₀ = some (m, s)) :
    m₀ ⊆ m ∧ (s₀ = true → s = true) ∧
      ∀ f ∈ order, (∃ key, Pool.probeKey sha1 sha256 f.scheme = some key ∧
          f.bloom.check (asciiBytes key) = some true) →
        f.name ∈ m ∨ (probeAll = false ∧ expensiveFilterBytes ≤ f.bytes ∧ s = true) := by
  induction order generalizing m₀ s₀ with
  | nil =>
    cases h
    exact ⟨List.Subset.refl _, id, fun f hf => absurd hf List.not_mem_nil⟩
  | cons f rest ih =>
    rw [Pool.probeLoop] at h
    split at h
    · next hskip =>
      obtain ⟨hm, hs, hrest⟩ := ih h
      refine ⟨hm, fun _ => hs rfl, fun g hg hkey => ?_⟩
      rcases List.mem_cons.mp hg with rfl | hg
      · exact Or.inr ⟨hskip.1, hskip.2.1, hs rfl⟩
      · exact hrest g hg hkey
    · split at h
      · next hnone =>
        obtain ⟨hm, hs, hrest⟩ := ih h
        refine ⟨hm, hs, fun g hg hkey => ?_⟩
        rcases List.mem_cons.mp hg with rfl | hg
        · obtain ⟨key, hkey, -⟩ := hkey
          rw [hnone] at hkey
          cases hkey
        · exact hrest g hg hkey
      · next key hsome =>
        split at h
        · cases h
        · obtain ⟨hm, hs, hrest⟩ := ih h
          refine ⟨fun x hx => hm (List.mem_append_left _ hx), hs, fun g hg hkey => ?_⟩
          rcases List.mem_cons.mp hg with rfl | hg
          · exact Or.inl (hm (List.mem_append_right _ (List.mem_singleton_self _)))
          · exact hrest g hg hkey
        · next hfalse =>
          obtain ⟨hm, hs, hrest⟩ := ih h
          refine ⟨hm, hs, fun g hg hkey => ?_⟩
          rcases List.mem_cons.mp hg with rfl | hg
          · obtain ⟨key', hkey', htrue⟩ := hkey
            cases hsome.symm.trans hkey'
            rw [hfalse] at htrue
            cases htrue
          · exact hrest g hg hkey

theorem poolFinds_of_check {file : Bytes} {c : Coord}
    (h : ∀ path bloom key, Bloom.open file path = .ok bloom → bloomKey c.scheme c.digest = some key →
      bloom.check (asciiBytes key) = some true) : PoolFinds file c := by
  intro path order f sha1 sha256 probeAll matched skipped hf hopen hscheme hdigest hprobe
  rw [Pool.probe, Option.map_eq_some_iff] at hprobe
  obtain ⟨⟨m, s⟩, hloop, heq⟩ := hprobe
  cases heq
  have hkey : ∃ key, Pool.probeKey sha1 sha256 f.scheme = some key ∧
      bloomKey c.scheme c.digest = some key := by
    rw [hscheme]
    rcases hdigest with ⟨hs, rfl⟩ | ⟨hs, rfl⟩ <;> rw [hs] <;> exact ⟨_, rfl, rfl⟩
  obtain ⟨key, hpool, hbloom⟩ := hkey
  refine (probeLoop_spec hloop).2.2 f hf ⟨key, hpool, h path _ key hopen hbloom⟩ |>.imp ?_ id
  intro hmem
  rw [mem_dedupRuns, (List.mergeSort_perm m _).mem_iff]
  exact hmem

/-! ### The keys each side spells -/

theorem map_toUpper_hexLower (bs : Bytes) : (hexLower bs).map Char.toUpper = hexUpper bs := by
  have hall : (hexLower bs).all isAsciiHexdigit = true :=
    hexLower_all (fun d hd => by rw [isAsciiHexdigit, hexVal_lowerDigit hd]; rfl) bs
  have heven : (hexLower bs).length % 2 = 0 := by
    rw [hexLower_length]
    omega
  rw [← hexUpper_hexPairs _ heven hall, hexPairs_hexLower]

/-- The browser spells a digest as the builder did. -/
theorem browser_key (c : Coord) : Session.probeKey c.scheme c
    = if c.scheme = .sha1 then hexUpper c.digest else hexLower c.digest := by
  have hup : c.hex.map Char.toUpper = hexUpper c.digest := map_toUpper_hexLower c.digest
  cases hs : c.scheme <;> first | exact hup | rfl

/-- So does the shared key function, for sha1 and sha256. -/
theorem bloomKey_sha {c : Coord} (h : c.scheme = .sha1 ∨ c.scheme = .sha256) :
    bloomKey c.scheme c.digest
      = some (if c.scheme = .sha1 then hexUpper c.digest else hexLower c.digest) := by
  rcases h with hs | hs <;> rw [hs] <;> rfl

section Built

variable {sizeFor : UInt64 → UInt64 → Except String Sizing} {name dest : String} {scheme : Scheme}
  {inputs : List InputFile} {fpp : UInt64} {file : Bytes}

theorem exists_open_built (h : filtersBuild sizeFor name scheme inputs fpp = .ok (dest, file))
    (path : String) : ∃ bloom, Bloom.open file path = .ok bloom := by
  obtain ⟨b, _, -, -, -, -, rfl⟩ := build_spec h
  exact ⟨_, Bloom.open_write _ path⟩

/-- A key the builder inserted is answered for. -/
theorem check_inputKey (h : filtersBuild sizeFor name scheme inputs fpp = .ok (dest, file))
    {path : String} {bloom : Bloom} (hopen : Bloom.open file path = .ok bloom) {key : Bytes}
    (hkey : key ∈ inputKeys scheme inputs) : bloom.check key = some true := by
  obtain ⟨b, s, -, -, -, -, rfl⟩ := build_spec h
  exact Bloom.check_member hopen hkey

/-- **The browser finds every digest listed**, whatever the scheme. -/
theorem browser_finds (h : filtersBuild sizeFor name scheme inputs fpp = .ok (dest, file))
    {c : Coord} (hs : c.scheme = scheme) (hc : Listed inputs c) : BrowserFinds file c := by
  intro s blooms entryName coord entry hparse hfind hserved
  have hmem := mem_inputKeys_of_listed h hc
  rw [← hs] at hmem
  have hscheme : schemeOf entry.scheme = some c.scheme := by
    have hentry := List.find?_some hfind
    rw [decide_eq_true_iff] at hentry
    obtain ⟨f, hf, line, hline, hne, -⟩ := id hc
    obtain ⟨hexLen, hlen, -⟩ := build_lines h hf hline hne
    rw [hentry.2, hs]
    cases scheme <;> first | rfl | cases hlen
  obtain ⟨b, _, -, -, -, -, rfl⟩ := build_spec h
  rw [Session.probeFilter_of_write hparse hfind hscheme hserved, browser_key, ← hs,
    decide_eq_true (b.testBit_member hmem)]

/-- **sha1 and sha256 filters answer everywhere.** -/
theorem sha_listed_everywhere (h : filtersBuild sizeFor name scheme inputs fpp = .ok (dest, file))
    {c : Coord} (hs : c.scheme = scheme) (hsha : scheme = .sha1 ∨ scheme = .sha256)
    (hc : Listed inputs c) : GateFinds file c ∧ PoolFinds file c ∧ BrowserFinds file c := by
  have hcheck : ∀ path bloom key, Bloom.open file path = .ok bloom →
      bloomKey c.scheme c.digest = some key → bloom.check (asciiBytes key) = some true := by
    intro path bloom key hopen hkey
    rw [bloomKey_sha (hs ▸ hsha), hs] at hkey
    cases hkey
    exact check_inputKey h hopen (mem_inputKeys_of_listed h hc)
  exact ⟨gateFinds_of_check hcheck, poolFinds_of_check hcheck, browser_finds h hs hc⟩

/-- The upper-case spelling of every listed digest falls on bits the inserted keys set. -/
def UpperCovered (sizeFor : UInt64 → UInt64 → Except String Sizing) (scheme : Scheme)
    (inputs : List InputFile) (fpp : UInt64) : Prop :=
  ∀ s c, BuildSizing sizeFor scheme inputs fpp s → c.scheme = scheme → Listed inputs c →
    ∀ bit ∈ bitPositions (asciiBytes (hexUpper c.digest)) s.k s.m,
      ∃ key ∈ inputKeys scheme inputs, bit ∈ bitPositions key s.k s.m

/-- A built filter answers for a key exactly when the inserted keys cover its bits. -/
theorem check_built_iff (h : filtersBuild sizeFor name scheme inputs fpp = .ok (dest, file))
    {s : Sizing} (hs : BuildSizing sizeFor scheme inputs fpp s) {path : String} {bloom : Bloom}
    (hopen : Bloom.open file path = .ok bloom) (value : Bytes) :
    bloom.check value = some true ↔ ∀ bit ∈ bitPositions value s.k s.m,
      ∃ key ∈ inputKeys scheme inputs, bit ∈ bitPositions key s.k s.m := by
  obtain ⟨b, s', hs', hm, hk, hbits, rfl⟩ := build_spec h
  cases hs.unique hs'
  have hkm := BloomBuilder.foldl_add_km (inputKeys scheme inputs) b
  rw [Bloom.check_of_write hopen, Option.some_inj, decide_eq_true_iff, BloomBuilder.positions,
    hkm.1, hkm.2, List.forall_mem_map, hm, hk]
  refine forall₂_congr fun bit _ => ?_
  rw [BloomBuilder.testBit_foldl_add, hbits, BitArray.testBit_zeros, Bool.false_or,
    decide_eq_true_iff]
  simp only [BloomBuilder.positions, hm, hk, List.mem_map, UInt64.toNat_inj, exists_eq_right]

/-- **Where the key convention holds.**  Every place that probes a built filter finds every digest
it was built from, exactly when the scheme is sha1 or sha256 or the upper-case md5 keys are covered
by what the builder inserted. -/
theorem listed_digests_found_iff
    (h : filtersBuild sizeFor name scheme inputs fpp = .ok (dest, file)) :
    (∀ c, c.scheme = scheme → Listed inputs c →
        GateFinds file c ∧ PoolFinds file c ∧ BrowserFinds file c) ↔
      (scheme = .md5 → UpperCovered sizeFor scheme inputs fpp) := by
  constructor
  · rintro hall rfl s c hs hc hlisted
    obtain ⟨bloom, hopen⟩ := exists_open_built h ""
    have hfound : Gates.gateFor ⟨[⟨name, .md5, bloom⟩]⟩ name c.scheme
        = some ⟨name, .md5, bloom⟩ := by
      simp [Gates.gateFor, hc]
    have hgate := (hall c hc hlisted).1 "" _ name _ hopen hfound
    rw [Gates.admits, hfound, hc] at hgate
    exact (check_built_iff h hs hopen _).mp hgate
  · intro hcond c hs hc
    by_cases hmd5 : scheme = .md5
    · have hcheck : ∀ path bloom key, Bloom.open file path = .ok bloom →
          bloomKey c.scheme c.digest = some key → bloom.check (asciiBytes key) = some true := by
        intro path bloom key hopen hkey
        rw [hs, hmd5] at hkey
        cases hkey
        obtain ⟨b, s, hsizing, -⟩ := build_spec h
        exact (check_built_iff h hsizing hopen _).mpr (hcond hmd5 s c hsizing hs hc)
      exact ⟨gateFinds_of_check hcheck, poolFinds_of_check hcheck, browser_finds h hs hc⟩
    · refine sha_listed_everywhere h hs ?_ hc
      obtain ⟨f, hf, line, hline, hne, -⟩ := id hc
      obtain ⟨hexLen, hlen, -⟩ := build_lines h hf hline hne
      cases scheme <;>
        first | exact Or.inl rfl | exact Or.inr rfl | exact absurd rfl hmd5 | cases hlen

end Built

/-! ### One md5 digest, denied -/

/-- The sizing of a filter for one key at a false-positive rate of one percent. -/
def oneKeySizing (n p : UInt64) : Except String Sizing :=
  if n = 1 ∧ p = 0x3F847AE147AE147B then .ok ⟨10, 7, by decide, by decide⟩
  else .error "bloom: need n > 0 and 0 < p < 1"

def md5Input : List InputFile := [⟨"md5.txt", ["d41d8cd98f00b204e9800998ecf8427e", ""]⟩]

def md5Listed : Coord :=
  ⟨.md5, [0xd4, 0x1d, 0x8c, 0xd9, 0x8f, 0x00, 0xb2, 0x04, 0xe9, 0x80, 0x09, 0x98, 0xec, 0xf8, 0x42,
    0x7e], rfl⟩

/-- The filter built from it. -/
def md5Filter : Bytes :=
  [1, 0, 0, 0, 0, 0, 0, 0, 1, 0, 0, 0, 0, 0, 0, 0, 0x7b, 0x14, 0xae, 0x47, 0xe1, 0x7a, 0x84, 0x3f,
    7, 0, 0, 0, 0, 0, 0, 0, 10, 0, 0, 0, 0, 0, 0, 0, 1, 0, 0, 0, 0, 0, 0, 0, 0x44, 1, 0, 0, 0, 0, 0,
    0]

/-- The filter in front of its dataset. -/
def md5Gate : Gate := ⟨"files", .md5, ⟨7, 10, md5Filter, 1⟩⟩

theorem build_md5Filter : filtersBuild oneKeySizing "files" .md5 md5Input 0x3F847AE147AE147B
    = .ok ("files.md5.bloom", md5Filter) := by decide +kernel

/-- The dataset's gate denies the one digest its filter was built from. -/
theorem md5_gate_denies_listed :
    filtersBuild oneKeySizing "files" .md5 md5Input 0x3F847AE147AE147B
        = .ok ("files.md5.bloom", md5Filter) ∧
      Listed md5Input md5Listed ∧ ¬ GateFinds md5Filter md5Listed := by
  have hopen : Bloom.open md5Filter "files.md5.bloom" = .ok md5Gate.bloom := by decide +kernel
  have hdenied : (Gates.mk [md5Gate]).admits "files" md5Listed = some false := by decide +kernel
  refine ⟨build_md5Filter, ?_, fun h => ?_⟩
  · exact ⟨_, List.mem_singleton_self _, _, List.mem_cons_self, by decide, by decide⟩
  · have hfound := h "files.md5.bloom" ⟨[md5Gate]⟩ "files" md5Gate hopen rfl
    rw [hdenied] at hfound
    cases hfound

theorem listed_digests_found_iff_md5 :
    (∀ c, c.scheme = .md5 → Listed md5Input c →
        GateFinds md5Filter c ∧ PoolFinds md5Filter c ∧ BrowserFinds md5Filter c) ↔
      (Scheme.md5 = .md5 → UpperCovered oneKeySizing .md5 md5Input 0x3F847AE147AE147B) :=
  listed_digests_found_iff build_md5Filter

end Hashdex
