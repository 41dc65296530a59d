import Hashdex.Finding
import Hashdex.Lib.BitArray
import Hashdex.Lib.Tiling

/-!
# Microcode archives

A microcode archive is a bare run of entries that state their own lengths.  `split` finds the boundaries,
and `ucodeRuns` groups consecutive entries into the longest runs that a witness names.

* `Entries`: what the loop of `split` reads, entry by entry
* `Entries.append`: archives one after the other
* `Picks`: what the greedy search has to pick
* `split_laws`: the two together
-/

namespace Hashdex

namespace Microcode

open Tiling BitArray

inductive Vendor where
  | intel
  | amd
  deriving DecidableEq

def maxEntries : ℕ := 8192

def maxIntelEntry : ℕ := 32 * 2 ^ 20

def amdMagic : Bytes := [0x44, 0x4D, 0x41, 0]

def u32At (b : Bytes) (pos : ℕ) : ℕ := ofLe ((b.drop pos).take 4)

/-- mmddyyyy in BCD. -/
def bcdDate (d : ℕ) : Bool :=
  let month := d / 2 ^ 24
  let day := d / 2 ^ 16 % 2 ^ 8
  let year := d % 2 ^ 16
  (List.range 8).all (fun i => d / 16 ^ i % 16 ≤ 9) &&
    (0x01 ≤ month && month ≤ 0x12) && (0x01 ≤ day && day ≤ 0x31) &&
    (0x1990 ≤ year && year ≤ 0x2099)

/-- The total size that an Intel header states, when it is one to believe. -/
def intelHeader (b : Bytes) (pos : ℕ) : Option ℕ :=
  if b.length < pos + 48 then none
  else
    let h := (b.drop pos).take 48
    if u32At h 0 ≠ 1 ∨ u32At h 20 ≠ 1 ∨ 0xff < u32At h 24 ∨ bcdDate (u32At h 8) = false then none
    else
      let data := if u32At h 28 = 0 then 2000 else u32At h 28
      let total := if u32At h 32 = 0 then 2048 else u32At h 32
      if total % 1024 = 0 ∧ total ≤ maxIntelEntry ∧ data + 48 ≤ total then some total else none

/-- The entry must also fit in what is left. -/
def intelEntry (b : Bytes) (pos : ℕ) : Option ℕ :=
  (intelHeader b pos).filter fun total => pos + total ≤ b.length

/-- The sections of a container, up to the next magic or the end; yields where it ends. -/
def amdSections (b : Bytes) (pos : ℕ) : Option ℕ :=
  if pos < b.length ∧ ¬ amdMagic <+: b.drop pos then
    if b.length < pos + 8 then none
    else if 1 < u32At b pos then none
    else if b.length < pos + 8 + u32At b (pos + 4) then none
    else amdSections b (pos + 8 + u32At b (pos + 4))
  else some pos
termination_by b.length - pos

def amdContainer (b : Bytes) (pos : ℕ) : Option ℕ :=
  if amdMagic <+: b.drop pos then (amdSections b (pos + 4)).map fun stop => stop - pos else none

def entry : Vendor → Bytes → ℕ → Option ℕ
  | .intel => intelEntry
  | .amd => amdContainer

def vendorOf (b : Bytes) : Option Vendor :=
  if amdMagic <+: b then some .amd else if (intelHeader b 0).isSome then some .intel else none

/-- The loop of `split`, with the number of entries it may still take: the entries, and where it ends. -/
def splitLoop (vendor : Vendor) (b : Bytes) : ℕ → ℕ → Option (List (ℕ × ℕ) × ℕ)
  | 0, pos => if pos < b.length then none else some ([], pos)
  | left + 1, pos =>
    if pos < b.length then
      (entry vendor b pos).bind fun len =>
        (splitLoop vendor b left (pos + len)).map fun r => ((pos, len) :: r.1, r.2)
    else some ([], pos)

/-- Entry boundaries as offset and length; nothing unless the entries tile the bytes. -/
def split (b : Bytes) : Option (Vendor × List (ℕ × ℕ)) :=
  (vendorOf b).bind fun vendor =>
    (splitLoop vendor b maxEntries 0).bind fun r =>
      if r.2 = b.length ∧ r.1 ≠ [] then some (vendor, r.1) else none

/-! ### One entry -/

/-- Bytes past what is looked at do not matter. -/
theorem u32At_append {a : Bytes} (b : Bytes) {pos : ℕ} (h : pos + 4 ≤ a.length) :
    u32At (a ++ b) pos = u32At a pos := by
  rw [u32At, u32At, List.drop_append_of_le_length (by omega),
    List.take_append_of_le_length (by rw [List.length_drop]; omega)]

theorem drop_shift (a b : Bytes) (pos : ℕ) : (a ++ b).drop (a.length + pos) = b.drop pos := by
  rw [← List.drop_drop, List.drop_left]

theorem u32At_shift (a b : Bytes) (pos : ℕ) : u32At (a ++ b) (a.length + pos) = u32At b pos := by
  rw [u32At, u32At, drop_shift]

theorem magic_append {a : Bytes} (b : Bytes) {pos : ℕ} (h : pos + 4 ≤ a.length) :
    amdMagic <+: (a ++ b).drop pos ↔ amdMagic <+: a.drop pos := by
  rw [List.drop_append_of_le_length (by omega)]
  constructor
  · intro hpre
    exact List.prefix_of_prefix_length_le hpre (List.prefix_append _ _)
      (by rw [List.length_drop]; show 4 ≤ _; omega)
  · exact fun hpre => hpre.trans (List.prefix_append _ _)

theorem intelHeader_append {a : Bytes} (b : Bytes) {pos total : ℕ}
    (h : intelHeader a pos = some total) : intelHeader (a ++ b) pos = some total := by
  rw [intelHeader] at h ⊢
  split_ifs at h with hlen
  have hlen' : ¬ (a ++ b).length < pos + 48 := by
    rw [List.length_append]
    omega
  have hsame : ((a ++ b).drop pos).take 48 = (a.drop pos).take 48 := by
    rw [List.drop_append_of_le_length (by omega),
      List.take_append_of_le_length (by rw [List.length_drop]; omega)]
  rw [if_neg hlen', hsame]
  exact h

theorem intelHeader_shift (a b : Bytes) (pos : ℕ) :
    intelHeader (a ++ b) (a.length + pos) = intelHeader b pos := by
  have hlen : (a ++ b).length < a.length + pos + 48 ↔ b.length < pos + 48 := by
    rw [List.length_append]
    omega
  simp only [intelHeader, hlen, drop_shift]

theorem intelHeader_pos {b : Bytes} {pos total : ℕ} (h : intelHeader b pos = some total) :
    pos + 48 ≤ b.length ∧ 0 < total := by
  rw [intelHeader] at h
  by_cases hlen : b.length < pos + 48
  · rw [if_pos hlen] at h
    cases h
  · rw [if_neg hlen] at h
    dsimp only at h
    generalize (if u32At ((b.drop pos).take 48) 28 = 0 then 2000
      else u32At ((b.drop pos).take 48) 28) = data at h
    generalize (if u32At ((b.drop pos).take 48) 32 = 0 then 2048
      else u32At ((b.drop pos).take 48) 32) = total' at h
    split_ifs at h with hbad hgood
    have htotal := Option.some.inj h
    have hfits := hgood.2.2
    omega

/-- Where the sections end does not depend on the next container. -/
theorem amdSections_append {a b : Bytes} (hb : b = [] ∨ amdMagic <+: b) {pos stop : ℕ}
    (h : amdSections a pos = some stop) (hstop : stop ≤ a.length) :
    amdSections (a ++ b) pos = some stop := by
  induction pos using amdSections.induct a with
  | case1 pos hin hshort =>
    rw [amdSections, if_pos hin, if_pos hshort] at h
    cases h
  | case2 pos hin hshort hkind =>
    rw [amdSections, if_pos hin, if_neg hshort, if_pos hkind] at h
    cases h
  | case3 pos hin hshort hkind hpast =>
    rw [amdSections, if_pos hin, if_neg hshort, if_neg hkind, if_pos hpast] at h
    cases h
  | case4 pos hin hshort hkind hpast ih =>
    rw [amdSections, if_pos hin, if_neg hshort, if_neg hkind, if_neg hpast] at h
    have hlen : (a ++ b).length = a.length + b.length := List.length_append
    have hin' : pos < (a ++ b).length ∧ ¬ amdMagic <+: (a ++ b).drop pos := by
      rw [magic_append b (by omega)]
      exact ⟨by omega, hin.2⟩
    rw [amdSections, if_pos hin', u32At_append b (by omega), u32At_append b (by omega),
      if_neg (by omega), if_neg hkind, if_neg (by omega)]
    exact ih h
  | case5 pos hout =>
    rw [amdSections, if_neg hout] at h
    cases h
    rw [amdSections]
    apply if_neg
    rintro ⟨hlt, hnot⟩
    by_cases hend : stop = a.length
    · -- the end of the first archive: the next one begins, or there is none
      rw [hend, List.drop_left] at hnot
      cases hb with
      | inl hnil =>
        rw [hnil, List.append_nil] at hlt
        omega
      | inr hmagic => exact hnot hmagic
    · have hmagic : amdMagic <+: a.drop stop := by
        by_contra hno
        exact hout ⟨by omega, hno⟩
      exact hnot (by
        rw [List.drop_append_of_le_length hstop]
        exact hmagic.trans (List.prefix_append _ _))

theorem amdSections_shift (a b : Bytes) (pos : ℕ) :
    amdSections (a ++ b) (a.length + pos) = (amdSections b pos).map (a.length + ·) := by
  have hlen : (a ++ b).length = a.length + b.length := List.length_append
  have hmore : ∀ pos, a.length + pos < (a ++ b).length ∧ ¬ amdMagic <+: (a ++ b).drop (a.length + pos) ↔
      pos < b.length ∧ ¬ amdMagic <+: b.drop pos := by
    intro pos
    rw [drop_shift, hlen, Nat.add_lt_add_iff_left]
  induction pos using amdSections.induct b with
  | case1 pos hin hshort =>
    rw [amdSections, if_pos ((hmore pos).mpr hin), if_pos (by omega), amdSections, if_pos hin,
      if_pos hshort]
    rfl
  | case2 pos hin hshort hkind =>
    rw [amdSections, if_pos ((hmore pos).mpr hin), if_neg (by omega), u32At_shift, if_pos hkind,
      amdSections, if_pos hin, if_neg hshort, if_pos hkind]
    rfl
  | case3 pos hin hshort hkind hpast =>
    rw [amdSections, if_pos ((hmore pos).mpr hin), if_neg (by omega), u32At_shift, if_neg hkind,
      Nat.add_assoc a.length pos 4, u32At_shift, if_pos (by omega), amdSections, if_pos hin,
      if_neg hshort, if_neg hkind, if_pos hpast]
    rfl
  | case4 pos hin hshort hkind hpast ih =>
    have hnext : a.length + pos + 8 + u32At b (pos + 4) = a.length + (pos + 8 + u32At b (pos + 4)) := by
      omega
    rw [amdSections, if_pos ((hmore pos).mpr hin), if_neg (by omega), u32At_shift, if_neg hkind,
      Nat.add_assoc a.length pos 4, u32At_shift, if_neg (by omega), hnext, ih]
    congr 1
    rw [amdSections.eq_def b pos, if_pos hin, if_neg hshort, if_neg hkind, if_neg hpast]
  | case5 pos hout =>
    rw [amdSections, if_neg (mt (hmore pos).mp hout), amdSections, if_neg hout]
    rfl

theorem amdSections_bounds {b : Bytes} {pos stop : ℕ} (h : amdSections b pos = some stop)
    (hpos : pos ≤ b.length) : pos ≤ stop ∧ stop ≤ b.length := by
  induction pos using amdSections.induct b with
  | case1 pos hin hshort =>
    rw [amdSections, if_pos hin, if_pos hshort] at h
    cases h
  | case2 pos hin hshort hkind =>
    rw [amdSections, if_pos hin, if_neg hshort, if_pos hkind] at h
    cases h
  | case3 pos hin hshort hkind hpast =>
    rw [amdSections, if_pos hin, if_neg hshort, if_neg hkind, if_pos hpast] at h
    cases h
  | case4 pos hin hshort hkind hpast ih =>
    rw [amdSections, if_pos hin, if_neg hshort, if_neg hkind, if_neg hpast] at h
    have hrest := ih h (by omega)
    omega
  | case5 pos hout =>
    rw [amdSections, if_neg hout] at h
    have hstop := Option.some.inj h
    omega

theorem magic_length {b : Bytes} {pos : ℕ} (h : amdMagic <+: b.drop pos) : pos + 4 ≤ b.length := by
  have hlen : 4 ≤ (b.drop pos).length := h.length_le
  rw [List.length_drop] at hlen
  omega

/-- An entry has bytes, and they lie in the archive. -/
theorem entry_bounds {vendor : Vendor} {b : Bytes} {pos len : ℕ} (h : entry vendor b pos = some len) :
    0 < len ∧ pos + len ≤ b.length := by
  cases vendor with
  | intel =>
    have hfilter := Option.filter_eq_some_iff.mp h
    exact ⟨(intelHeader_pos hfilter.1).2, of_decide_eq_true hfilter.2⟩
  | amd =>
    have h : amdContainer b pos = some len := h
    rw [amdContainer] at h
    split_ifs at h with hmagic
    obtain ⟨stop, hstop, rfl⟩ := Option.map_eq_some_iff.mp h
    have hroom := magic_length hmagic
    have hbounds := amdSections_bounds hstop hroom
    omega

/-- What may follow an archive: nothing, or what the vendor's entries begin with. -/
def Follows (vendor : Vendor) (b : Bytes) : Prop := vendor = .amd → b = [] ∨ amdMagic <+: b

theorem entry_append {vendor : Vendor} {a b : Bytes} (hb : Follows vendor b) {pos len : ℕ}
    (h : entry vendor a pos = some len) : entry vendor (a ++ b) pos = some len := by
  have hbounds := entry_bounds h
  cases vendor with
  | intel =>
    have hfilter := Option.filter_eq_some_iff.mp h
    apply Option.filter_eq_some_iff.mpr
    refine ⟨intelHeader_append b hfilter.1, decide_eq_true ?_⟩
    rw [List.length_append]
    omega
  | amd =>
    have h : amdContainer a pos = some len := h
    show amdContainer (a ++ b) pos = some len
    rw [amdContainer] at h ⊢
    split_ifs at h with hmagic
    obtain ⟨stop, hstop, rfl⟩ := Option.map_eq_some_iff.mp h
    have hroom := magic_length hmagic
    have hend := amdSections_bounds hstop hroom
    rw [if_pos ((magic_append b hroom).mpr hmagic), amdSections_append (hb rfl) hstop hend.2]
    rfl

theorem entry_shift (vendor : Vendor) (a b : Bytes) (pos : ℕ) :
    entry vendor (a ++ b) (a.length + pos) = entry vendor b pos := by
  cases vendor with
  | intel =>
    have hfits : ∀ total, a.length + pos + total ≤ (a ++ b).length ↔ pos + total ≤ b.length := by
      intro total
      rw [List.length_append]
      omega
    show intelEntry (a ++ b) (a.length + pos) = intelEntry b pos
    simp only [intelEntry, intelHeader_shift, hfits]
  | amd =>
    show amdContainer (a ++ b) (a.length + pos) = amdContainer b pos
    rw [amdContainer, amdContainer, drop_shift, Nat.add_assoc, amdSections_shift, Option.map_map]
    congr 2
    funext stop
    show a.length + stop - (a.length + pos) = stop - pos
    omega

/-! ### The entries of an archive -/

/-- From a position on, the entries and where they end. -/
inductive Entries (vendor : Vendor) (b : Bytes) : ℕ → List (ℕ × ℕ) → ℕ → Prop
  | done {pos : ℕ} : b.length ≤ pos → Entries vendor b pos [] pos
  | more {pos len stop : ℕ} {es : List (ℕ × ℕ)} : pos < b.length → entry vendor b pos = some len →
      Entries vendor b (pos + len) es stop → Entries vendor b pos ((pos, len) :: es) stop

/-- **The loop reads the entries**, if there are not too many. -/
theorem splitLoop_iff {vendor : Vendor} {b : Bytes} {left pos stop : ℕ} {es : List (ℕ × ℕ)} :
    splitLoop vendor b left pos = some (es, stop) ↔
      Entries vendor b pos es stop ∧ es.length ≤ left := by
  induction left generalizing pos es with
  | zero =>
    rw [splitLoop]
    split_ifs with hlt
    · constructor
      · exact nofun
      · rintro ⟨hentries, hlen⟩
        cases hentries with
        | done hge => omega
        | more => simp at hlen
    · constructor
      · intro h
        cases h
        exact ⟨.done (by omega), le_rfl⟩
      · rintro ⟨hentries, -⟩
        cases hentries with
        | done => rfl
        | more hlt' => exact absurd hlt' hlt
  | succ left ih =>
    rw [splitLoop]
    split_ifs with hlt
    · constructor
      · intro h
        obtain ⟨len, hlen, h⟩ := Option.bind_eq_some_iff.mp h
        obtain ⟨⟨rest, stop'⟩, hrest, heq⟩ := Option.map_eq_some_iff.mp h
        cases heq
        obtain ⟨hentries, hfew⟩ := ih.mp hrest
        exact ⟨.more hlt hlen hentries, Nat.succ_le_succ hfew⟩
      · rintro ⟨hentries, hfew⟩
        cases hentries with
        | done hge => omega
        | more _ hlen hrest =>
          rw [hlen]
          show (splitLoop vendor b left _).map _ = _
          rw [ih.mpr ⟨hrest, Nat.le_of_succ_le_succ hfew⟩]
          rfl
    · constructor
      · intro h
        cases h
        exact ⟨.done (by omega), Nat.zero_le _⟩
      · rintro ⟨hentries, -⟩
        cases hentries with
        | done => rfl
        | more hlt' => exact absurd hlt' hlt

theorem Entries.tiles {vendor : Vendor} {b : Bytes} {pos stop : ℕ} {es : List (ℕ × ℕ)}
    (h : Entries vendor b pos es stop) :
    Tiles Prod.fst Prod.snd pos stop es ∧ ∀ e ∈ es, 0 < e.2 := by
  induction h with
  | done => exact ⟨rfl, nofun⟩
  | more _ hlen _ ih =>
    constructor
    · exact ⟨rfl, ih.1⟩
    · intro e he
      cases List.mem_cons.mp he with
      | inl heq =>
        rw [heq]
        exact (entry_bounds hlen).1
      | inr hmem => exact ih.2 e hmem

def shifted (start : ℕ) (es : List (ℕ × ℕ)) : List (ℕ × ℕ) := es.map fun e => (start + e.1, e.2)

theorem Entries.shift {vendor : Vendor} (a : Bytes) {b : Bytes} {pos stop : ℕ} {es : List (ℕ × ℕ)}
    (h : Entries vendor b pos es stop) :
    Entries vendor (a ++ b) (a.length + pos) (shifted a.length es) (a.length + stop) := by
  induction h with
  | done hge =>
    apply Entries.done
    rw [List.length_append]
    omega
  | @more pos len stop es hlt hlen _ ih =>
    apply Entries.more
    · rw [List.length_append]
      omega
    · rw [entry_shift]
      exact hlen
    · rwa [Nat.add_assoc]

/-- **One archive after the other.** -/
theorem Entries.append {vendor : Vendor} {a b : Bytes} (hb : Follows vendor b) {pos stop : ℕ}
    {es es' : List (ℕ × ℕ)} (h : Entries vendor a pos es a.length) (h' : Entries vendor b 0 es' stop) :
    Entries vendor (a ++ b) pos (es ++ shifted a.length es') (a.length + stop) := by
  generalize hend : a.length = last at h
  induction h with
  | done hge =>
    subst hend
    exact h'.shift a
  | more hlt hlen _ ih =>
    apply Entries.more
    · rw [List.length_append]
      omega
    · exact entry_append hb hlen
    · exact ih hend

/-- What `split` accepts. -/
theorem split_iff {b : Bytes} {vendor : Vendor} {es : List (ℕ × ℕ)} :
    split b = some (vendor, es) ↔ vendorOf b = some vendor ∧
      Entries vendor b 0 es b.length ∧ es.length ≤ maxEntries ∧ es ≠ [] := by
  rw [split]
  constructor
  · intro h
    obtain ⟨v, hv, h⟩ := Option.bind_eq_some_iff.mp h
    obtain ⟨⟨out, stop⟩, hout, h⟩ := Option.bind_eq_some_iff.mp h
    dsimp only at h
    split_ifs at h with hend
    cases h
    obtain ⟨hentries, hfew⟩ := splitLoop_iff.mp hout
    rw [hend.1] at hentries
    exact ⟨hv, hentries, hfew, hend.2⟩
  · rintro ⟨hv, hentries, hfew, hne⟩
    rw [hv]
    show (splitLoop vendor b maxEntries 0).bind _ = _
    rw [splitLoop_iff.mpr ⟨hentries, hfew⟩]
    exact if_pos ⟨rfl, hne⟩

theorem vendorOf_append {a b : Bytes} {vendor : Vendor} (h : vendorOf a = some vendor) :
    vendorOf (a ++ b) = some vendor := by
  rw [vendorOf] at h ⊢
  split_ifs at h with hmagic hintel
  · rw [if_pos (hmagic.trans (List.prefix_append a b))]
    exact h
  · obtain ⟨total, htotal⟩ := Option.isSome_iff_exists.mp hintel
    have hroom := (intelHeader_pos htotal).1
    have hno : ¬ amdMagic <+: a ++ b := by
      have hsame := magic_append b (show 0 + 4 ≤ a.length by omega)
      rw [List.drop_zero, List.drop_zero] at hsame
      rwa [hsame]
    rw [if_neg hno, intelHeader_append b htotal]
    exact h

/-- What is split is fit to follow. -/
theorem follows_of_split {b : Bytes} {vendor : Vendor} {es : List (ℕ × ℕ)}
    (h : split b = some (vendor, es)) : Follows vendor b := by
  intro hamd
  have hv := (split_iff.mp h).1
  rw [hamd, vendorOf] at hv
  split_ifs at hv with hmagic
  · exact .inr hmagic
  · exact absurd (Option.some.inj hv) (by decide)

/-- **Splitting two archives, one after the other.** -/
theorem split_append {a b : Bytes} {vendor : Vendor} {es es' : List (ℕ × ℕ)}
    (ha : split a = some (vendor, es)) (hb : split b = some (vendor, es'))
    (hfew : es.length + es'.length ≤ maxEntries) :
    split (a ++ b) = some (vendor, es ++ shifted a.length es') := by
  obtain ⟨hv, hentries, -, hne⟩ := split_iff.mp ha
  obtain ⟨-, hentries', -, -⟩ := split_iff.mp hb
  apply split_iff.mpr
  refine ⟨vendorOf_append hv, ?_, ?_, ?_⟩
  · rw [List.length_append]
    exact hentries.append (follows_of_split hb) hentries'
  · rw [List.length_append, shifted, List.length_map]
    exact hfew
  · exact List.append_ne_nil_of_left_ne_nil hne _

/-! ### The greedy search -/

def ucodeMaxRun : ℕ := 8

/-- A run of entries that a witness names. -/
structure UcodeRun where
  off : ℕ
  len : ℕ
  sha256 : Bytes
  sha1 : Bytes
  evidence : List Finding

/-- A witness names the bytes at a URL, or in an archive that has a sha256. -/
def ucodeWitnessed (evidence : List Finding) : Bool :=
  evidence.any fun f =>
    match f.archive with
    | none => f.claims.any fun c => c.url.isSome
    | some a => a.scheme = "sha256" && a.url.isSome

section

variable (sha256 sha1 : Bytes → Bytes) (verdicts : Bytes → Bytes → List Finding)

/-- The candidates at a start: the hash states after one entry, two, and so on. -/
def cands (bytes : Bytes) (start : ℕ) : ℕ → Bytes → List (ℕ × ℕ) → List (ℕ × Bytes × Bytes)
  | left + 1, hashed, (off, len) :: rest =>
    let hashed' := hashed ++ (bytes.drop off).take len
    (off + len - start, sha256 hashed', sha1 hashed') :: cands bytes start left hashed' rest
  | _, _, _ => []

/-- The longest candidate that a witness names. -/
def longestHit (cs : List (ℕ × Bytes × Bytes)) : Option (ℕ × (ℕ × Bytes × Bytes) × List Finding) :=
  cs.zipIdx.reverse.findSome? fun p =>
    let evidence := verdicts p.1.2.1 p.1.2.2
    if ucodeWitnessed evidence then some (p.2, p.1, evidence) else none

/-- The loop over the entries of an archive. -/
def ucodeFrom (bytes : Bytes) (entries : List (ℕ × ℕ)) (pos : ℕ) : List UcodeRun :=
  if h : pos < entries.length then
    let start := entries[pos].1
    match longestHit verdicts
        (cands sha256 sha1 bytes start ucodeMaxRun [] (entries.drop pos)) with
    | some (k, (len, d256, d1), evidence) =>
      ⟨start, len, d256, d1, evidence⟩ :: ucodeFrom bytes entries (pos + k + 1)
    | none => ucodeFrom bytes entries (pos + 1)
  else []
termination_by entries.length - pos

def ucodeRuns (bytes : Bytes) (entries : List (ℕ × ℕ)) : List UcodeRun :=
  ucodeFrom sha256 sha1 verdicts bytes entries 0

/-- How many bytes so many entries have, from the `i`th on. -/
def groupLen (entries : List (ℕ × ℕ)) (i k : ℕ) : ℕ := (((entries.drop i).take k).map Prod.snd).sum

/-- The run of so many consecutive entries, and what the witnesses say of it. -/
def runOf (bytes : Bytes) (entries : List (ℕ × ℕ)) (i k : ℕ) : UcodeRun :=
  let off := (entries.getD i (0, 0)).1
  let len := groupLen entries i k
  let run := (bytes.drop off).take len
  ⟨off, len, sha256 run, sha1 run, verdicts (sha256 run) (sha1 run)⟩

def Named (bytes : Bytes) (entries : List (ℕ × ℕ)) (i k : ℕ) : Prop :=
  ucodeWitnessed (runOf sha256 sha1 verdicts bytes entries i k).evidence = true

/-- What has to be picked from the `i`th entry on: the longest run of entries from there that a witness
names, and then from behind it on; where no run is named, from the next entry on. -/
inductive Picks (bytes : Bytes) (entries : List (ℕ × ℕ)) : ℕ → List (ℕ × ℕ) → Prop
  | done {i : ℕ} : entries.length ≤ i → Picks bytes entries i []
  | skip {i : ℕ} {rest : List (ℕ × ℕ)} : i < entries.length →
      (∀ k, 0 < k → k ≤ ucodeMaxRun → i + k ≤ entries.length →
        ¬ Named sha256 sha1 verdicts bytes entries i k) →
      Picks bytes entries (i + 1) rest → Picks bytes entries i rest
  | take {i k : ℕ} {rest : List (ℕ × ℕ)} : 0 < k → k ≤ ucodeMaxRun → i + k ≤ entries.length →
      Named sha256 sha1 verdicts bytes entries i k →
      (∀ j, k < j → j ≤ ucodeMaxRun → i + j ≤ entries.length →
        ¬ Named sha256 sha1 verdicts bytes entries i j) →
      Picks bytes entries (i + k) rest → Picks bytes entries i ((i, k) :: rest)

variable {sha256 sha1 verdicts} {bytes : Bytes} {entries : List (ℕ × ℕ)}

theorem longestHit_spec (cs : List (ℕ × Bytes × Bytes)) :
    match longestHit verdicts cs with
    | some (k, c, evidence) => cs[k]? = some c ∧ evidence = verdicts c.2.1 c.2.2 ∧
        ucodeWitnessed evidence = true ∧
        ∀ (j : ℕ) (d : ℕ × Bytes × Bytes), k < j → cs[j]? = some d →
          ucodeWitnessed (verdicts d.2.1 d.2.2) = false
    | none => ∀ (j : ℕ) (d : ℕ × Bytes × Bytes), cs[j]? = some d →
        ucodeWitnessed (verdicts d.2.1 d.2.2) = false := by
  induction cs using List.reverseRecOn with
  | nil =>
    show ∀ j d, ([] : List (ℕ × Bytes × Bytes))[j]? = some d → _
    intro j d hd
    rw [List.getElem?_nil] at hd
    cases hd
  | append_singleton cs c ih =>
    have hlast : (cs ++ [c])[cs.length]? = some c := by
      rw [List.getElem?_append_right le_rfl, Nat.sub_self]
      rfl
    have hbefore : ∀ j d, j ≠ cs.length → (cs ++ [c])[j]? = some d → cs[j]? = some d := by
      intro j d hj hd
      have hlt : j < cs.length := by
        have := (List.getElem?_eq_some_iff.mp hd).1
        rw [List.length_append, List.length_singleton] at this
        omega
      rwa [List.getElem?_append_left hlt] at hd
    have hstep : longestHit verdicts (cs ++ [c]) =
        if ucodeWitnessed (verdicts c.2.1 c.2.2) = true
          then some (cs.length, c, verdicts c.2.1 c.2.2) else longestHit verdicts cs := by
      rw [longestHit, List.zipIdx_append, List.reverse_append, List.zipIdx_singleton,
        List.reverse_singleton, List.singleton_append, List.findSome?_cons, Nat.zero_add]
      dsimp only
      split_ifs <;> rfl
    rw [hstep]
    by_cases hnamed : ucodeWitnessed (verdicts c.2.1 c.2.2) = true
    · rw [if_pos hnamed]
      refine ⟨hlast, rfl, hnamed, ?_⟩
      intro j d hj hd
      have := (List.getElem?_eq_some_iff.mp hd).1
      rw [List.length_append, List.length_singleton] at this
      omega
    · rw [if_neg hnamed]
      have hlater : ∀ (j : ℕ) (d : ℕ × Bytes × Bytes), (cs ++ [c])[j]? = some d →
          cs[j]? = some d ∨ ucodeWitnessed (verdicts d.2.1 d.2.2) = false := by
        intro j d hd
        by_cases hj : j = cs.length
        · rw [hj, hlast] at hd
          right
          rw [← Option.some.inj hd]
          exact Bool.eq_false_iff.mpr hnamed
        · exact .inl (hbefore j d hj hd)
      cases hhit : longestHit verdicts cs with
      | none =>
        rw [hhit] at ih
        exact fun j d hd => (hlater j d hd).elim (ih j d) id
      | some hit =>
        rw [hhit] at ih
        obtain ⟨k, d, evidence⟩ := hit
        obtain ⟨hget, hev, hwit, hlong⟩ := ih
        have hlt := (List.getElem?_eq_some_iff.mp hget).1
        refine ⟨?_, hev, hwit, ?_⟩
        · rwa [List.getElem?_append_left hlt]
        · exact fun j d' hj hd => (hlater j d' hd).elim (hlong j d' hj) id

/-- The candidates are the runs of one entry, two, and so on. -/
theorem cands_get {lo hi : ℕ} {es : List (ℕ × ℕ)} (ht : Tiles Prod.fst Prod.snd lo hi es)
    {start : ℕ} (hstart : start ≤ lo) (left k : ℕ) :
    (cands sha256 sha1 bytes start left ((bytes.drop start).take (lo - start)) es)[k]? =
      if k < left ∧ k < es.length then
        some (lo - start + ((es.take (k + 1)).map Prod.snd).sum,
          sha256 ((bytes.drop start).take (lo - start + ((es.take (k + 1)).map Prod.snd).sum)),
          sha1 ((bytes.drop start).take (lo - start + ((es.take (k + 1)).map Prod.snd).sum)))
      else none := by
  induction es generalizing lo left k with
  | nil =>
    rw [if_neg (by simp)]
    cases left <;> rfl
  | cons e es ih =>
    obtain ⟨off, len⟩ := e
    obtain ⟨hoff, hrest⟩ := ht
    have hoff : off = lo := hoff
    cases left with
    | zero =>
      rw [if_neg (by omega)]
      rfl
    | succ left =>
      have hhashed : (bytes.drop start).take (lo - start) ++ (bytes.drop off).take len =
          (bytes.drop start).take (lo + len - start) := by
        have hsplit : lo + len - start = (lo - start) + len := by omega
        have hdrop : bytes.drop off = (bytes.drop start).drop (lo - start) := by
          rw [List.drop_drop, hoff]
          congr 1
          omega
        rw [hsplit, List.take_add, hdrop]
      rw [cands, hhashed]
      cases k with
      | zero =>
        have hsum : lo - start + ((((off, len) :: es).take (0 + 1)).map Prod.snd).sum =
            lo + len - start := by
          simp
          omega
        rw [if_pos ⟨Nat.succ_pos _, Nat.succ_pos _⟩, hsum, hoff]
        rfl
      | succ k =>
        have hsum : lo - start + ((((off, len) :: es).take (k + 1 + 1)).map Prod.snd).sum =
            lo + len - start + ((es.take (k + 1)).map Prod.snd).sum := by
          rw [List.take_succ_cons, List.map_cons, List.sum_cons]
          show lo - start + (len + _) = _
          omega
        rw [hsum, List.getElem?_cons_succ, ih hrest (by omega)]
        simp only [Nat.succ_lt_succ_iff, List.length_cons]

theorem tiles_drop {lo hi i : ℕ} {es : List (ℕ × ℕ)} (ht : Tiles Prod.fst Prod.snd lo hi es)
    (h : i < es.length) : Tiles Prod.fst Prod.snd es[i].1 hi (es.drop i) := by
  induction es generalizing lo i with
  | nil => exact absurd h (Nat.not_lt_zero i)
  | cons e es ih =>
    obtain ⟨hfirst, hrest⟩ := ht
    cases i with
    | zero => exact ⟨rfl, by rw [List.getElem_cons_zero, hfirst]; exact hrest⟩
    | succ i => exact ih hrest (Nat.lt_of_succ_lt_succ h)

theorem cands_start (ht : Tiles Prod.fst Prod.snd 0 bytes.length entries) {pos : ℕ}
    (hpos : pos < entries.length) (k : ℕ) :
    (cands sha256 sha1 bytes entries[pos].1 ucodeMaxRun [] (entries.drop pos))[k]? =
      if k < ucodeMaxRun ∧ k < entries.length - pos then
        some ((runOf sha256 sha1 verdicts bytes entries pos (k + 1)).len,
          (runOf sha256 sha1 verdicts bytes entries pos (k + 1)).sha256,
          (runOf sha256 sha1 verdicts bytes entries pos (k + 1)).sha1)
      else none := by
  have hget := @cands_get sha256 sha1 bytes _ _ _ (tiles_drop ht hpos) entries[pos].1 le_rfl
    ucodeMaxRun k
  have hoff : (entries.getD pos (0, 0)).1 = entries[pos].1 := by
    rw [List.getD_eq_getElem _ _ hpos]
  rw [Nat.sub_self, List.take_zero, List.length_drop] at hget
  rw [hget]
  simp only [runOf, groupLen, hoff, Nat.zero_add]

/-- **The search picks what it has to pick.** -/
theorem ucodeFrom_picks (ht : Tiles Prod.fst Prod.snd 0 bytes.length entries) (pos : ℕ) :
    ∃ picks, Picks sha256 sha1 verdicts bytes entries pos picks ∧
      ucodeFrom sha256 sha1 verdicts bytes entries pos =
        picks.map fun p => runOf sha256 sha1 verdicts bytes entries p.1 p.2 := by
  induction hn : entries.length - pos using Nat.strong_induction_on generalizing pos with
  | _ n ih =>
    rw [ucodeFrom]
    by_cases hpos : pos < entries.length
    · rw [dif_pos hpos]
      dsimp only
      have hcands := @cands_start sha256 sha1 verdicts bytes entries ht pos hpos
      have hspec := @longestHit_spec verdicts
        (cands sha256 sha1 bytes entries[pos].1 ucodeMaxRun [] (entries.drop pos))
      cases hhit : longestHit verdicts
          (cands sha256 sha1 bytes entries[pos].1 ucodeMaxRun [] (entries.drop pos)) with
      | none =>
        rw [hhit] at hspec
        obtain ⟨picks, hpicks, hrest⟩ := ih (entries.length - (pos + 1)) (by omega) (pos + 1) rfl
        refine ⟨picks, .skip hpos ?_ hpicks, hrest⟩
        intro k hk hmax hfits hnamed
        have hget := hcands (k - 1)
        rw [if_pos (by omega), Nat.sub_add_cancel hk] at hget
        have hnot := hspec (k - 1) _ hget
        exact absurd hnamed (by rw [Named]; exact Bool.eq_false_iff.mp hnot)
      | some hit =>
        rw [hhit] at hspec
        obtain ⟨k, c, evidence⟩ := hit
        obtain ⟨hget, hev, hwit, hlong⟩ := hspec
        have hget' := hcands k
        by_cases hk : k < ucodeMaxRun ∧ k < entries.length - pos
        · rw [if_pos hk, hget] at hget'
          have hc := Option.some.inj hget'
          subst hc
          obtain ⟨picks, hpicks, hrest⟩ :=
            ih (entries.length - (pos + k + 1)) (by omega) (pos + k + 1) rfl
          have hrun : (⟨entries[pos].1, (runOf sha256 sha1 verdicts bytes entries pos (k + 1)).len,
              (runOf sha256 sha1 verdicts bytes entries pos (k + 1)).sha256,
              (runOf sha256 sha1 verdicts bytes entries pos (k + 1)).sha1, evidence⟩ : UcodeRun) =
                runOf sha256 sha1 verdicts bytes entries pos (k + 1) := by
            rw [hev]
            simp only [runOf, List.getD_eq_getElem _ _ hpos]
          refine ⟨(pos, k + 1) :: picks, .take (Nat.succ_pos k) (by omega) (by omega) ?_ ?_ hpicks, ?_⟩
          · rw [Named, ← hrun]
            exact hwit
          · intro j hj hmax hfits hnamed
            have hget := hcands (j - 1)
            rw [if_pos (by omega), Nat.sub_add_cancel (by omega)] at hget
            have hnot := hlong (j - 1) _ (by omega) hget
            exact absurd hnamed (by rw [Named]; exact Bool.eq_false_iff.mp hnot)
          · rw [List.map_cons, ← hrest, ← hrun]
        · rw [if_neg hk, hget] at hget'
          cases hget'
    · rw [dif_neg hpos]
      exact ⟨[], .done (by omega), rfl⟩

/-- Where an entry begins. -/
theorem entry_start {lo hi i : ℕ} {es : List (ℕ × ℕ)} (ht : Tiles Prod.fst Prod.snd lo hi es)
    (h : i < es.length) : (es.getD i (0, 0)).1 = lo + ((es.take i).map Prod.snd).sum := by
  induction es generalizing lo i with
  | nil => exact absurd h (Nat.not_lt_zero i)
  | cons e es ih =>
    obtain ⟨hfirst, hrest⟩ := ht
    cases i with
    | zero => exact hfirst
    | succ i =>
      rw [List.getD_cons_succ, ih hrest (Nat.lt_of_succ_lt_succ h), List.take_succ_cons, List.map_cons,
        List.sum_cons, Nat.add_assoc]

/-- Picks follow each other. -/
theorem Picks.inOrder {i : ℕ} {picks : List (ℕ × ℕ)}
    (h : Picks sha256 sha1 verdicts bytes entries i picks) :
    (∀ p ∈ picks, i ≤ p.1 ∧ 0 < p.2 ∧ p.2 ≤ ucodeMaxRun ∧ p.1 + p.2 ≤ entries.length) ∧
      picks.Pairwise fun p q => p.1 + p.2 ≤ q.1 := by
  induction h with
  | done => exact ⟨nofun, .nil⟩
  | skip _ _ _ ih =>
    refine ⟨fun p hp => ?_, ih.2⟩
    have := ih.1 p hp
    omega
  | take hk hmax hfits _ _ _ ih =>
    constructor
    · intro p hp
      cases List.mem_cons.mp hp with
      | inl heq =>
        rw [heq]
        exact ⟨le_rfl, hk, hmax, hfits⟩
      | inr hmem =>
        have := ih.1 p hmem
        omega
    · exact List.pairwise_cons.mpr ⟨fun q hq => (ih.1 q hq).1, ih.2⟩

/-- Runs of entries that follow each other are apart. -/
theorem runs_inOrder (ht : Tiles Prod.fst Prod.snd 0 bytes.length entries) {i : ℕ}
    {picks : List (ℕ × ℕ)} (h : Picks sha256 sha1 verdicts bytes entries i picks) :
    InOrder UcodeRun.off UcodeRun.len
      (picks.map fun p => runOf sha256 sha1 verdicts bytes entries p.1 p.2) := by
  obtain ⟨hin, horder⟩ := h.inOrder
  rw [InOrder, List.pairwise_map]
  apply horder.imp_of_mem
  intro p q hp hq hpq
  have hp' := hin p hp
  have hq' := hin q hq
  show (entries.getD p.1 (0, 0)).1 + groupLen entries p.1 p.2 ≤ (entries.getD q.1 (0, 0)).1
  rw [entry_start ht (by omega), entry_start ht (by omega)]
  have hgroup : ((entries.take p.1).map Prod.snd).sum + groupLen entries p.1 p.2 =
      ((entries.take (p.1 + p.2)).map Prod.snd).sum := by
    rw [groupLen, ← List.sum_append, ← List.map_append, List.take_add]
  have hmore : ((entries.take q.1).map Prod.snd).sum =
      ((entries.take (p.1 + p.2)).map Prod.snd).sum +
        (((entries.drop (p.1 + p.2)).take (q.1 - (p.1 + p.2))).map Prod.snd).sum := by
    rw [← List.sum_append, ← List.map_append, ← List.take_add, Nat.add_sub_cancel' hpq]
  omega

end

/-- **Splitting a microcode archive.**  The entries have bytes and tile the archive; the entries of another
archive of the vendor behind it are added, if they are not too many together; and the runs that are picked
out of them come one after the other, each the longest run of entries from where the search stands that a
witness names. -/
theorem split_laws {a : Bytes} {vendor : Vendor} {entries : List (ℕ × ℕ)}
    (h : split a = some (vendor, entries)) :
    (Tiles Prod.fst Prod.snd 0 a.length entries ∧ (∀ e ∈ entries, 0 < e.2) ∧ entries ≠ []) ∧
    (∀ b entries', split b = some (vendor, entries') →
      entries.length + entries'.length ≤ maxEntries →
        split (a ++ b) = some (vendor, entries ++ shifted a.length entries')) ∧
    ∀ (sha256 sha1 : Bytes → Bytes) (verdicts : Bytes → Bytes → List Finding),
      InOrder UcodeRun.off UcodeRun.len (ucodeRuns sha256 sha1 verdicts a entries) ∧
      ∃ picks, Picks sha256 sha1 verdicts a entries 0 picks ∧
        ucodeRuns sha256 sha1 verdicts a entries =
          picks.map fun p => runOf sha256 sha1 verdicts a entries p.1 p.2 := by
  obtain ⟨-, hentries, -, hne⟩ := split_iff.mp h
  have htiles := hentries.tiles
  refine ⟨⟨htiles.1, htiles.2, hne⟩, fun b entries' hb hfew => split_append h hb hfew, ?_⟩
  intro sha256 sha1 verdicts
  obtain ⟨picks, hpicks, hruns⟩ := @ucodeFrom_picks sha256 sha1 verdicts a entries htiles.1 0
  refine ⟨?_, picks, hpicks, hruns⟩
  rw [ucodeRuns, hruns]
  exact runs_inOrder htiles.1 hpicks

/-- Two containers that have a section each. -/
def twoContainers : Bytes :=
  amdMagic ++ leBytes 4 0 ++ leBytes 4 2 ++ [7, 7] ++ amdMagic ++ leBytes 4 1 ++ leBytes 4 1 ++ [9]

theorem split_laws_two :
    split (twoContainers ++ amdMagic) = some (.amd, [(0, 14), (14, 13), (27, 4)]) :=
  (split_laws (show split twoContainers = some (.amd, [(0, 14), (14, 13)]) by decide +kernel)).2.1
    amdMagic [(0, 4)] (by decide +kernel) (by decide)

end Microcode

end Hashdex
