import Hashdex.Alphabets

/-!
# Which strings are coordinates

`Coord::parse` tells many overlapping spellings apart by prefix, separator, length and alphabet.  Here
they are listed by what writes them, and a string is parsed to a coordinate exactly when it is one of
that coordinate's spellings with blanks around it.

* `Spells`: the spellings
* `spells_of_parse`, `parse_of_spells`: the two directions, one case for each spelling
* `parse_iff`: the parser, told by the spellings
-/

namespace Hashdex

/-! ### Blanks -/

def Blank (s : List Char) : Prop := s.all isWhiteSpace = true

/-- No blank stands at either end. -/
structure Tight (s : List Char) : Prop where
  first : ∀ c ∈ s.head?, isWhiteSpace c = false
  last : ∀ c ∈ s.getLast?, isWhiteSpace c = false

theorem Blank.append {l r : List Char} (hl : Blank l) (hr : Blank r) : Blank (l ++ r) := by
  unfold Blank
  rw [List.all_append, hl, hr]
  rfl

theorem Blank.reverse {l : List Char} (h : Blank l) : Blank l.reverse := by
  unfold Blank
  rw [List.all_reverse]
  exact h

theorem dropWhile_blank_append {l s : List Char} (hl : Blank l)
    (hs : ∀ c ∈ s.head?, isWhiteSpace c = false) : (l ++ s).dropWhile isWhiteSpace = s := by
  rw [List.dropWhile_append_of_pos (List.all_eq_true.mp hl)]
  cases s with
  | nil => rfl
  | cons a s =>
    rw [List.dropWhile_cons_of_neg]
    rw [hs a rfl]
    exact Bool.false_ne_true

theorem trim_surround {l s r : List Char} (hl : Blank l) (hr : Blank r) (hs : Tight s) :
    trim (l ++ s ++ r) = s := by
  have hback : (s ++ r).rdropWhile isWhiteSpace = s := by
    rw [List.rdropWhile, List.reverse_append, dropWhile_blank_append hr.reverse, List.reverse_reverse]
    intro c hc
    rw [List.head?_reverse] at hc
    exact hs.last c hc
  unfold trim
  cases s with
  | nil =>
    have hall := dropWhile_blank_append (s := []) (hl.append hr) (fun c hc => nomatch hc)
    rw [List.append_nil] at hall ⊢
    rw [hall]
    rfl
  | cons a s =>
    have hfront := dropWhile_blank_append (s := (a :: s) ++ r) hl (fun c hc => hs.first c hc)
    rw [List.append_assoc, hfront]
    exact hback

theorem blank_takeWhile (s : List Char) : Blank (s.takeWhile isWhiteSpace) :=
  List.all_eq_true.mpr fun _ hc => List.mem_takeWhile_imp hc

/-- What `trim` takes away. -/
theorem trim_parts (s : List Char) : ∃ l r, s = l ++ trim s ++ r ∧ Blank l ∧ Blank r := by
  obtain ⟨r, hr⟩ : ∃ r, s.dropWhile isWhiteSpace = trim s ++ r ∧ Blank r := by
    refine ⟨((s.dropWhile isWhiteSpace).reverse.takeWhile isWhiteSpace).reverse, ?_,
      (blank_takeWhile _).reverse⟩
    show _ = ((s.dropWhile isWhiteSpace).reverse.dropWhile isWhiteSpace).reverse ++ _
    rw [← List.reverse_append, List.takeWhile_append_dropWhile, List.reverse_reverse]
  refine ⟨s.takeWhile isWhiteSpace, r, ?_, blank_takeWhile s, hr.2⟩
  rw [List.append_assoc, ← hr.1, List.takeWhile_append_dropWhile]

theorem tight_of_plain {s : List Char} (h : ∀ c ∈ s, isWhiteSpace c = false) : Tight s :=
  ⟨fun c hc => h c (List.mem_of_mem_head? hc), fun c hc => h c (List.mem_of_getLast? hc)⟩

/-- Only the ends have to be free of blanks. -/
theorem tight_append {a m b : List Char} (ha : a ≠ []) (hb : b ≠ [])
    (hfirst : ∀ c ∈ a, isWhiteSpace c = false) (hlast : ∀ c ∈ b, isWhiteSpace c = false) :
    Tight (a ++ (m ++ b)) := by
  constructor
  · intro c hc
    rw [List.head?_append_of_ne_nil _ ha] at hc
    exact hfirst c (List.mem_of_mem_head? hc)
  · intro c hc
    rw [← List.append_assoc, List.getLast?_append_of_ne_nil _ hb] at hc
    exact hlast c (List.mem_of_getLast? hc)

/-! ### Hex digits in either case -/

/-- The hex of the bytes, in any case. -/
def HexText (t : List Char) (bs : Bytes) : Prop := t.map Char.toLower = hexLower bs

theorem isAsciiHexdigit_of_toLower {c : Char} (h : isAsciiHexdigit c.toLower = true) :
    isAsciiHexdigit c = true := by
  by_cases hupper : c.val ≥ 'A'.val ∧ c.val ≤ 'Z'.val
  · have hrange : 65 ≤ c.toNat ∧ c.toNat ≤ 90 := hupper
    generalize hn : c.toNat = n at hrange
    rw [char_eq_of_toNat hn] at h ⊢
    obtain ⟨hlow, hhigh⟩ := hrange
    interval_cases n <;> revert h <;> decide
  · rwa [Char.toLower, dif_neg hupper] at h

theorem isAsciiHexdigit_lowerDigit {d : ℕ} (h : d < 16) : isAsciiHexdigit (lowerDigit d) = true := by
  rw [isAsciiHexdigit, hexVal_lowerDigit h]
  rfl

theorem isAsciiHexdigit_plain {c : Char} (h : isAsciiHexdigit c = true) :
    isWhiteSpace c = false ∧ c ≠ '-' ∧ c ≠ ':' := by
  obtain ⟨d, hd⟩ := Option.isSome_iff_exists.mp h
  obtain ⟨h₁, h₂, -⟩ | ⟨h₁, h₂, -⟩ | ⟨h₁, h₂, -⟩ := hexVal_cases hd
  · generalize hn : c.toNat = n at h₁ h₂
    rw [char_eq_of_toNat hn]
    interval_cases n <;> decide
  · generalize hn : c.toNat = n at h₁ h₂
    rw [char_eq_of_toNat hn]
    interval_cases n <;> decide
  · generalize hn : c.toNat = n at h₁ h₂
    rw [char_eq_of_toNat hn]
    interval_cases n <;> decide

section

variable {t : List Char} {bs : Bytes}

theorem HexText.digits (h : HexText t bs) : ∀ c ∈ t, isAsciiHexdigit c = true := by
  intro c hc
  apply isAsciiHexdigit_of_toLower
  have hmem : c.toLower ∈ hexLower bs := by
    rw [← h]
    exact List.mem_map_of_mem hc
  obtain ⟨d, hd, heq⟩ := mem_hexLower hmem
  rw [heq]
  exact isAsciiHexdigit_lowerDigit hd

theorem HexText.length (h : HexText t bs) : t.length = 2 * bs.length := by
  rw [← hexLower_length, ← h, List.length_map]

theorem HexText.plain (h : HexText t bs) : ∀ c ∈ t, isWhiteSpace c = false := fun c hc =>
  (isAsciiHexdigit_plain (h.digits c hc)).1

theorem decodeHex_iff {s : List Char} : decodeHex s = some bs ↔ HexText (trim s) bs := by
  unfold decodeHex
  dsimp only
  constructor
  · intro h
    split_ifs at h with hdigits
    cases h
    exact (hexLower_hexPairs _ hdigits.1 hdigits.2).symm
  · intro h
    have heven : (trim s).length % 2 = 0 := by
      rw [h.length]
      omega
    have hall : (trim s).all isAsciiHexdigit = true := List.all_eq_true.mpr h.digits
    rw [if_pos ⟨heven, hall⟩]
    congr 1
    apply hexLower_injective
    rw [hexLower_hexPairs _ heven hall]
    exact h

/-- Blanks before the digits are dropped. -/
theorem decodeHex_gap {gap : List Char} (hgap : Blank gap) (h : HexText t bs) :
    decodeHex (gap ++ t) = some bs := by
  apply decodeHex_iff.mpr
  have htrim := trim_surround hgap (r := []) rfl (tight_of_plain h.plain)
  rw [List.append_nil] at htrim
  rw [htrim]
  exact h

end

/-! ### Symbols of the alphabets -/

/-- The characters of base64 text. -/
theorem mem_base64Encode {bs : Bytes} {c : Char} (h : c ∈ base64Encode bs) :
    c = '=' ∨ ∃ v < 64, c = base64Char v := by
  induction bs using base64Encode.induct with
  | case1 => exact absurd h List.not_mem_nil
  | case2 x =>
    have hx := x.toNat_lt
    simp only [base64Encode, List.mem_cons, List.not_mem_nil, or_false] at h
    obtain h | h | h | h := h
    · exact .inr ⟨_, by omega, h⟩
    · exact .inr ⟨_, by omega, h⟩
    · exact .inl h
    · exact .inl h
  | case3 x y =>
    have hx := x.toNat_lt
    have hy := y.toNat_lt
    simp only [base64Encode, List.mem_cons, List.not_mem_nil, or_false] at h
    obtain h | h | h | h := h
    · exact .inr ⟨_, by omega, h⟩
    · exact .inr ⟨_, by omega, h⟩
    · exact .inr ⟨_, by omega, h⟩
    · exact .inl h
  | case4 x y z rest ih =>
    have hx := x.toNat_lt
    have hy := y.toNat_lt
    have hz := z.toNat_lt
    simp only [base64Encode, List.mem_cons, List.mem_append, List.not_mem_nil, or_false] at h
    obtain (h | h | h | h) | h := h
    · exact .inr ⟨_, by omega, h⟩
    · exact .inr ⟨_, by omega, h⟩
    · exact .inr ⟨_, by omega, h⟩
    · exact .inr ⟨_, by omega, h⟩
    · exact ih h

theorem base64Encode_plain {bs : Bytes} {c : Char} (h : c ∈ base64Encode bs) :
    isWhiteSpace c = false ∧ c ≠ ':' := by
  obtain rfl | ⟨v, hv, rfl⟩ := mem_base64Encode h
  · decide
  · interval_cases v <;> decide

theorem mem_base32Encode {bs : Bytes} {c : Char} (h : c ∈ base32Encode bs) :
    ∃ v < 32, c = base32Char v := by
  induction bs using base32Encode.induct with
  | case1 a b c d e rest ih =>
    have hdigit : ∀ k, k % 32 < 32 := fun k => Nat.mod_lt k (by omega)
    simp only [base32Encode, List.mem_append, List.mem_cons, List.not_mem_nil, or_false] at h
    obtain (h | h | h | h | h | h | h | h) | h := h
    all_goals first | exact ih h | exact ⟨_, hdigit _, h⟩
  | case2 bs hshort =>
    rw [base32Encode] at h
    · exact absurd h List.not_mem_nil
    · exact hshort

theorem base32Char_plain {v : ℕ} (h : v < 32) : isWhiteSpace (base32Char v) = false
    ∧ base32Char v ≠ '-' ∧ base32Char v ≠ ':' ∧ (('A' ≤ base32Char v && base32Char v ≤ 'Z')
      || ('2' ≤ base32Char v && base32Char v ≤ '7')) = true := by
  interval_cases v <;> decide

theorem base32Encode_length (bs : Bytes) (h : bs.length % 5 = 0) :
    5 * (base32Encode bs).length = 8 * bs.length := by
  induction bs using base32Encode.induct with
  | case1 a b c d e rest ih =>
    simp only [List.length_cons] at h
    simp only [base32Encode, List.length_append, List.length_cons, List.length_nil]
    have hrest := ih (by omega)
    omega
  | case2 bs hshort =>
    cases bs with
    | nil => rfl
    | cons a bs =>
      rcases bs with _ | ⟨b, _ | ⟨c, _ | ⟨d, _ | ⟨e, rest⟩⟩⟩⟩
      · simp at h
      · simp at h
      · simp at h
      · simp at h
      · exact absurd rfl (hshort a b c d e rest)

/-! ### Prefixes -/

/-- How a scheme is written before a colon. -/
def Scheme.aliases : Scheme → List String
  | .md5 => ["md5"]
  | .sha1 => ["sha1", "sha-1"]
  | .sha256 => ["sha256", "sha-256"]
  | .sha512 => ["sha512", "sha-512"]
  | .sha1Git => ["sha1_git", "sha1-git", "git"]
  | .blake2s256 => ["blake2s256", "blake2s"]

/-- One of the scheme's names, in any case. -/
def Named (pre : List Char) (scheme : Scheme) : Prop :=
  String.ofList (pre.map Char.toLower) ∈ scheme.aliases

instance (pre : List Char) (scheme : Scheme) : Decidable (Named pre scheme) :=
  inferInstanceAs (Decidable (_ ∈ _))

theorem fromPrefix_iff {pre : List Char} {scheme : Scheme} :
    Scheme.fromPrefix pre = some scheme ↔ Named pre scheme := by
  unfold Scheme.fromPrefix Named
  generalize String.ofList (pre.map Char.toLower) = low
  constructor
  · intro h
    dsimp only at h
    split_ifs at h with h₁ h₂ h₃ h₄ h₅ h₆ <;> cases h <;> simp_all [Scheme.aliases]
  · intro h
    cases scheme <;> simp only [Scheme.aliases, List.mem_cons, List.not_mem_nil, or_false] at h
    all_goals
      first
        | subst h
        | (rcases h with h | h | h <;> subst h)
        | (rcases h with h | h <;> subst h)
    all_goals decide

theorem toLower_blank {c : Char} (h : isWhiteSpace c = true ∨ c = ':') : c.toLower = c := by
  by_cases hupper : c.val ≥ 'A'.val ∧ c.val ≤ 'Z'.val
  · have hrange : 65 ≤ c.toNat ∧ c.toNat ≤ 90 := hupper
    generalize hn : c.toNat = n at hrange
    rw [char_eq_of_toNat hn] at h ⊢
    obtain ⟨hlow, hhigh⟩ := hrange
    interval_cases n <;> revert h <;> decide
  · rw [Char.toLower, dif_neg hupper]

theorem aliases_plain (scheme : Scheme) : ∀ name ∈ scheme.aliases,
    name ≠ "" ∧ ∀ c ∈ name.toList, isWhiteSpace c = false ∧ c ≠ ':' := by
  have hall : scheme.aliases.all (fun name => name ≠ "" &&
      name.toList.all fun c => !isWhiteSpace c && c ≠ ':') = true := by
    cases scheme <;> decide
  simpa using hall

theorem Named.ne_nil {pre : List Char} {scheme : Scheme} (h : Named pre scheme) : pre ≠ [] := by
  rintro rfl
  exact (aliases_plain scheme _ h).1 rfl

theorem Named.plain {pre : List Char} {scheme : Scheme} (h : Named pre scheme) {c : Char}
    (hc : c ∈ pre) : isWhiteSpace c = false ∧ c ≠ ':' := by
  have hname := (aliases_plain scheme _ h).2
  rw [String.toList_ofList] at hname
  by_contra hnot
  have hbad : isWhiteSpace c = true ∨ c = ':' := by
    rw [not_and_or, Bool.not_eq_false, not_not] at hnot
    exact hnot
  have hmem := List.mem_map_of_mem (f := Char.toLower) hc
  rw [toLower_blank hbad] at hmem
  exact hnot (hname c hmem)

/-! ### The spellings -/

/-- How a coordinate may be written, but for blanks around it. -/
inductive Spells : List Char → Coord → Prop where
  /-- `scheme:hex`; there may be blanks after the colon. -/
  | prefixed {pre gap t : List Char} {c : Coord} : Named pre c.scheme → Blank gap →
      HexText t c.digest → Spells (pre ++ ':' :: gap ++ t) c
  /-- `swh:1:cnt:hex`, likewise. -/
  | swhid {gap t : List Char} {c : Coord} : c.scheme = .sha1Git → Blank gap →
      HexText t c.digest → Spells ("swh:1:cnt:".toList ++ gap ++ t) c
  /-- A name without a dash, a dash and base64, which may be of the digest's pieces in turn. -/
  | sri {pre : List Char} {pieces : List Bytes} {c : Coord} : Named pre c.scheme → '-' ∉ pre →
      pieces.flatten = c.digest → Spells (pre ++ '-' :: (pieces.map base64Encode).flatten) c
  | bareHex {t : List Char} {c : Coord} : c.scheme ∈ [.md5, .sha1, .sha256, .sha512] →
      HexText t c.digest → Spells t c
  /-- Base32 of a sha1, unless all of it are hex digits. -/
  | bareBase32 {c : Coord} : c.scheme = .sha1 → ¬ (base32Encode c.digest).all isAsciiHexdigit →
      Spells (base32Encode c.digest) c

theorem Coord.digest_ne_nil (c : Coord) : c.digest ≠ [] := by
  intro hnil
  have hlength := c.length_eq
  rw [hnil] at hlength
  cases hscheme : c.scheme <;> rw [hscheme] at hlength <;> cases hlength

theorem HexText.ne_nil {t : List Char} {c : Coord} (h : HexText t c.digest) : t ≠ [] := by
  rintro rfl
  have hlength := h.length
  rw [List.length_nil] at hlength
  exact c.digest_ne_nil (List.length_eq_zero_iff.mp (by omega))

theorem mem_pieces {pieces : List Bytes} {ch : Char} (h : ch ∈ (pieces.map base64Encode).flatten) :
    isWhiteSpace ch = false ∧ ch ≠ ':' := by
  obtain ⟨text, htext, hch⟩ := List.mem_flatten.mp h
  obtain ⟨piece, -, rfl⟩ := List.mem_map.mp htext
  exact base64Encode_plain hch

theorem Spells.tight {s : List Char} {c : Coord} (h : Spells s c) : Tight s := by
  cases h with
  | @prefixed pre gap t c hname hgap ht =>
    have htight := tight_append (m := ':' :: gap) hname.ne_nil ht.ne_nil
      (fun ch hch => (hname.plain hch).1) ht.plain
    rwa [← List.append_assoc] at htight
  | @swhid gap t c hscheme hgap ht =>
    have hplain : "swh:1:cnt:".toList.all (fun ch => !isWhiteSpace ch) = true := by decide
    have htight := tight_append (a := "swh:1:cnt:".toList) (m := gap) (by decide) ht.ne_nil
      (by simpa using hplain) ht.plain
    rwa [← List.append_assoc] at htight
  | @sri pre pieces c hname hdash hpieces =>
    apply tight_of_plain
    intro ch hch
    obtain hch | hch := List.mem_append.mp hch
    · exact (hname.plain hch).1
    · obtain rfl | hch := List.mem_cons.mp hch
      · decide
      · exact (mem_pieces hch).1
  | bareHex hscheme ht => exact tight_of_plain ht.plain
  | bareBase32 hscheme hdigits =>
    apply tight_of_plain
    intro ch hch
    obtain ⟨v, hv, rfl⟩ := mem_base32Encode hch
    exact (base32Char_plain hv).1

/-! ### Reading a spelling -/

theorem Coord.new_iff {scheme : Scheme} {bs : Bytes} {c : Coord} :
    Coord.new scheme bs = some c ↔ c.scheme = scheme ∧ c.digest = bs := by
  constructor
  · intro h
    unfold Coord.new at h
    split_ifs at h
    cases h
    exact ⟨rfl, rfl⟩
  · rintro ⟨hscheme, hdigest⟩
    rw [← hscheme, ← hdigest]
    exact c.new_self

theorem splitOnce_eq_some {sep : Char} {s pre rest : List Char}
    (h : splitOnce sep s = some (pre, rest)) : s = pre ++ sep :: rest ∧ sep ∉ pre := by
  induction s generalizing pre with
  | nil => cases h
  | cons a s ih =>
    rw [splitOnce] at h
    split_ifs at h with heq
    · cases h
      exact ⟨by rw [heq]; rfl, List.not_mem_nil⟩
    · obtain ⟨⟨pre', rest'⟩, hsplit, heq'⟩ := Option.map_eq_some_iff.mp h
      cases heq'
      obtain ⟨rfl, hnot⟩ := ih hsplit
      refine ⟨rfl, fun hmem => ?_⟩
      obtain rfl | hmem := List.mem_cons.mp hmem
      · exact heq rfl
      · exact hnot hmem

/-- Only with three colons does a string start like a content id. -/
theorem stripPrefix_none {s : List Char} (h : ∀ pre rest, splitOnce ':' s = some (pre, rest) →
    pre ≠ "swh".toList) : stripPrefix "swh:1:cnt:".toList s = none := by
  unfold stripPrefix
  rw [if_neg]
  intro ⟨rest, hrest⟩
  have hsplit : splitOnce ':' s = some ("swh".toList, "1:cnt:".toList ++ rest) := by
    rw [← hrest]
    exact @splitOnce_append _ "swh".toList (by decide) _
  exact h _ _ hsplit rfl

theorem not_named_swh (scheme : Scheme) : ¬ Named "swh".toList scheme := by
  cases scheme <;> decide

theorem parseSri_colon {s : List Char} (h : ':' ∈ s) : parseSri s = none := by
  unfold parseSri
  cases splitOnce '-' s with
  | none => rfl
  | some p =>
    dsimp only
    rw [if_pos h]

section

variable {input pre gap t : List Char} {c : Coord}

theorem parse_prefixed (htrim : trim input = pre ++ ':' :: gap ++ t) (hname : Named pre c.scheme)
    (hgap : Blank gap) (ht : HexText t c.digest) : Coord.parseChars input = some c := by
  have hsplit : splitOnce ':' (pre ++ ':' :: gap ++ t) = some (pre, gap ++ t) := by
    rw [List.append_assoc]
    exact splitOnce_append (fun hmem => (hname.plain hmem).2 rfl) _
  have hswh : stripPrefix "swh:1:cnt:".toList (pre ++ ':' :: gap ++ t) = none := by
    apply stripPrefix_none
    intro pre' rest' hsplit' heq
    rw [hsplit] at hsplit'
    cases hsplit'
    rw [heq] at hname
    exact not_named_swh _ hname
  unfold Coord.parseChars
  simp only [htrim, hswh, parseSri_colon (show ':' ∈ pre ++ ':' :: gap ++ t by simp), hsplit,
    fromPrefix_iff.mpr hname, decodeHex_gap hgap ht]
  exact c.new_self

theorem parse_swhid (htrim : trim input = "swh:1:cnt:".toList ++ gap ++ t)
    (hscheme : c.scheme = .sha1Git) (hgap : Blank gap) (ht : HexText t c.digest) :
    Coord.parseChars input = some c := by
  have hswh : stripPrefix "swh:1:cnt:".toList ("swh:1:cnt:".toList ++ gap ++ t) = some (gap ++ t) := by
    unfold stripPrefix
    rw [List.append_assoc, if_pos (List.prefix_append _ _), List.drop_left]
  unfold Coord.parseChars
  simp only [htrim, hswh, decodeHex_gap hgap ht]
  exact Coord.new_iff.mpr ⟨hscheme, rfl⟩

theorem parse_sri {pieces : List Bytes}
    (htrim : trim input = pre ++ '-' :: (pieces.map base64Encode).flatten)
    (hname : Named pre c.scheme) (hdash : '-' ∉ pre) (hpieces : pieces.flatten = c.digest) :
    Coord.parseChars input = some c := by
  generalize htext : (pieces.map base64Encode).flatten = text at htrim
  have hcolon : ':' ∉ pre ++ '-' :: text := by
    rw [List.mem_append, List.mem_cons, ← htext]
    rintro (hmem | hmem | hmem)
    · exact (hname.plain hmem).2 rfl
    · cases hmem
    · exact (mem_pieces hmem).2 rfl
  have hswh : stripPrefix "swh:1:cnt:".toList (pre ++ '-' :: text) = none := by
    apply stripPrefix_none
    intro pre' rest' hsplit
    rw [splitOnce_none hcolon] at hsplit
    cases hsplit
  have hsri : parseSri (pre ++ '-' :: text) = some c := by
    unfold parseSri
    rw [splitOnce_append hdash]
    dsimp only
    rw [if_neg hcolon, fromPrefix_iff.mpr hname, base64Decode_iff.mpr ⟨pieces, hpieces, htext⟩]
    exact c.new_self
  unfold Coord.parseChars
  simp only [htrim, hswh, hsri]

theorem parse_bare (hdash : '-' ∉ trim input) (hcolon : ':' ∉ trim input) :
    Coord.parseChars input = if isBareBase32 (trim input)
      then (base32Decode (trim input)).bind (Coord.new .sha1) else parseBareHex (trim input) := by
  have hswh : stripPrefix "swh:1:cnt:".toList (trim input) = none := by
    apply stripPrefix_none
    intro pre' rest' hsplit
    rw [splitOnce_none hcolon] at hsplit
    cases hsplit
  have hsri : parseSri (trim input) = none := by
    unfold parseSri
    rw [splitOnce_none hdash]
  unfold Coord.parseChars
  simp only [hswh, hsri, splitOnce_none hcolon]

theorem parseBareHex_iff : parseBareHex t = some c ↔
    c.scheme ∈ [.md5, .sha1, .sha256, .sha512] ∧ HexText (trim t) c.digest := by
  unfold parseBareHex
  rw [Option.bind_eq_bind, Option.bind_eq_some_iff]
  constructor
  · intro ⟨bs, hbs, h⟩
    have hboth : c.scheme ∈ [.md5, .sha1, .sha256, .sha512] ∧ c.digest = bs := by
      split_ifs at h <;> obtain ⟨hscheme, hdigest⟩ := Coord.new_iff.mp h <;>
        exact ⟨by rw [hscheme]; decide, hdigest⟩
    rw [hboth.2]
    exact ⟨hboth.1, decodeHex_iff.mp hbs⟩
  · intro ⟨hscheme, ht⟩
    refine ⟨c.digest, decodeHex_iff.mpr ht, ?_⟩
    have hlength := c.length_eq
    simp only [List.mem_cons, List.not_mem_nil, or_false] at hscheme
    obtain hs | hs | hs | hs := hscheme <;> rw [hs] at hlength <;> rw [hlength] <;>
      exact Coord.new_iff.mpr ⟨hs, rfl⟩

theorem parse_bareHex (htrim : trim input = t) (hscheme : c.scheme ∈ [.md5, .sha1, .sha256, .sha512])
    (ht : HexText t c.digest) : Coord.parseChars input = some c := by
  have hdigits : t.all isAsciiHexdigit = true := List.all_eq_true.mpr ht.digits
  have hnot : isBareBase32 t = false := by
    unfold isBareBase32
    rw [hdigits, Bool.not_true, Bool.and_false]
  have hself : trim t = t := trim_eq_self (List.all_eq_true.mpr fun ch hch => by
    rw [ht.plain ch hch]
    rfl)
  rw [parse_bare, htrim, hnot, if_neg Bool.false_ne_true]
  · exact parseBareHex_iff.mpr ⟨hscheme, by rw [hself]; exact ht⟩
  · rw [htrim]
    exact fun hmem => (isAsciiHexdigit_plain (ht.digits _ hmem)).2.1 rfl
  · rw [htrim]
    exact fun hmem => (isAsciiHexdigit_plain (ht.digits _ hmem)).2.2 rfl

theorem isBareBase32_encode (hscheme : c.scheme = .sha1)
    (hdigits : ¬ (base32Encode c.digest).all isAsciiHexdigit) :
    isBareBase32 (base32Encode c.digest) = true := by
  have hdigest : c.digest.length = 20 := by
    rw [c.length_eq, hscheme]
    rfl
  have hlength := base32Encode_length c.digest (by rw [hdigest])
  rw [hdigest] at hlength
  have hsymbols : (base32Encode c.digest).all
      (fun ch => ('A' ≤ ch && ch ≤ 'Z') || ('2' ≤ ch && ch ≤ '7')) = true := by
    apply List.all_eq_true.mpr
    intro ch hch
    obtain ⟨v, hv, rfl⟩ := mem_base32Encode hch
    exact (base32Char_plain hv).2.2.2
  unfold isBareBase32
  rw [hsymbols, Bool.eq_false_of_not_eq_true hdigits, show (base32Encode c.digest).length = 32 by omega]
  rfl

theorem parse_bareBase32 (htrim : trim input = base32Encode c.digest) (hscheme : c.scheme = .sha1)
    (hdigits : ¬ (base32Encode c.digest).all isAsciiHexdigit) :
    Coord.parseChars input = some c := by
  have hdigest : c.digest.length % 5 = 0 := by
    rw [c.length_eq, hscheme]
    rfl
  rw [parse_bare, htrim, isBareBase32_encode hscheme hdigits, if_pos rfl,
    base32Decode_encode _ hdigest]
  · exact Coord.new_iff.mpr ⟨hscheme, rfl⟩
  · intro hmem
    rw [htrim] at hmem
    obtain ⟨v, hv, heq⟩ := mem_base32Encode hmem
    exact (base32Char_plain hv).2.1 heq.symm
  · intro hmem
    rw [htrim] at hmem
    obtain ⟨v, hv, heq⟩ := mem_base32Encode hmem
    exact (base32Char_plain hv).2.2.1 heq.symm

end

/-- **Every spelling reads as its coordinate,** with any blanks around it. -/
theorem parse_of_spells {l s r : List Char} {c : Coord} (hl : Blank l) (hr : Blank r)
    (h : Spells s c) : Coord.parseChars (l ++ s ++ r) = some c := by
  have htrim := trim_surround hl hr h.tight
  cases h with
  | prefixed hname hgap ht => exact parse_prefixed htrim hname hgap ht
  | swhid hscheme hgap ht => exact parse_swhid htrim hscheme hgap ht
  | sri hname hdash hpieces => exact parse_sri htrim hname hdash hpieces
  | bareHex hscheme ht => exact parse_bareHex htrim hscheme ht
  | bareBase32 hscheme hdigits => exact parse_bareBase32 htrim hscheme hdigits

/-! ### What is read is a spelling -/

/-- A spelling of the coordinate stands in the input, with blanks around it. -/
def Written (input : List Char) (c : Coord) : Prop :=
  ∃ l s r, input = l ++ s ++ r ∧ Blank l ∧ Blank r ∧ Spells s c

/-- Hex after a prefix may have blanks on both sides: those before it belong to the spelling. -/
theorem written_of_decodeHex (before : List Char) {input rest : List Char} {c : Coord}
    (htrim : trim input = before ++ rest) (hrest : decodeHex rest = some c.digest)
    (hspells : ∀ gap t, Blank gap → HexText t c.digest → Spells (before ++ gap ++ t) c) :
    Written input c := by
  obtain ⟨l, r, hinput, hl, hr⟩ := trim_parts input
  obtain ⟨gap, r', heq, hgap, hr'⟩ := trim_parts rest
  refine ⟨l, before ++ gap ++ trim rest, r' ++ r, ?_, hl, hr'.append hr,
    hspells gap _ hgap (decodeHex_iff.mp hrest)⟩
  calc input = l ++ (before ++ rest) ++ r := by rw [← htrim, ← hinput]
    _ = l ++ (before ++ (gap ++ trim rest ++ r')) ++ r := by rw [← heq]
    _ = _ := by simp only [List.append_assoc]

theorem spells_of_parseSri {s : List Char} {c : Coord} (h : parseSri s = some c) : Spells s c := by
  unfold parseSri at h
  cases hsplit : splitOnce '-' s with
  | none =>
    rw [hsplit] at h
    cases h
  | some p =>
    obtain ⟨pre, b64⟩ := p
    obtain ⟨rfl, hdash⟩ := splitOnce_eq_some hsplit
    rw [hsplit] at h
    dsimp only at h
    split_ifs at h
    cases hname : Scheme.fromPrefix pre with
    | none =>
      rw [hname] at h
      cases h
    | some scheme =>
      cases hbytes : base64Decode b64 with
      | none =>
        rw [hname, hbytes] at h
        cases h
      | some bs =>
        rw [hname, hbytes] at h
        obtain ⟨rfl, rfl⟩ := Coord.new_iff.mp h
        obtain ⟨pieces, hpieces, rfl⟩ := base64Decode_iff.mp hbytes
        exact .sri (fromPrefix_iff.mp hname) hdash hpieces

theorem spells_of_bareBase32 {s : List Char} {c : Coord} (hbare : isBareBase32 s = true)
    (h : (base32Decode s).bind (Coord.new .sha1) = some c) : Spells s c := by
  obtain ⟨bs, hbs, hnew⟩ := Option.bind_eq_some_iff.mp h
  obtain ⟨hscheme, rfl⟩ := Coord.new_iff.mp hnew
  obtain ⟨-, rfl⟩ := base32Decode_iff.mp hbs
  refine .bareBase32 hscheme fun hdigits => ?_
  unfold isBareBase32 at hbare
  rw [hdigits, Bool.not_true, Bool.and_false] at hbare
  exact Bool.false_ne_true hbare

/-- **What is read is a spelling** of the coordinate it is read as. -/
theorem spells_of_parse {input : List Char} {c : Coord} (h : Coord.parseChars input = some c) :
    Written input c := by
  obtain ⟨l, r, hinput, hl, hr⟩ := trim_parts input
  have hwhole : Spells (trim input) c → Written input c := fun hs => ⟨l, _, r, hinput, hl, hr, hs⟩
  unfold Coord.parseChars at h
  dsimp only at h
  cases hswh : stripPrefix "swh:1:cnt:".toList (trim input) with
  | some rest =>
    rw [hswh] at h
    obtain ⟨bs, hbs, hnew⟩ := Option.bind_eq_some_iff.mp h
    obtain ⟨hscheme, rfl⟩ := Coord.new_iff.mp hnew
    have htrim : trim input = "swh:1:cnt:".toList ++ rest := by
      unfold stripPrefix at hswh
      split_ifs at hswh with hpre
      cases hswh
      exact (List.prefix_iff_eq_append.mp hpre).symm
    exact written_of_decodeHex _ htrim hbs fun gap t hgap ht => .swhid hscheme hgap ht
  | none =>
    rw [hswh] at h
    dsimp only at h
    cases hsri : parseSri (trim input) with
    | some c' =>
      rw [hsri] at h
      cases h
      exact hwhole (spells_of_parseSri hsri)
    | none =>
      rw [hsri] at h
      dsimp only at h
      cases hsplit : splitOnce ':' (trim input) with
      | some p =>
        obtain ⟨pre, hex⟩ := p
        obtain ⟨htrim, -⟩ := splitOnce_eq_some hsplit
        rw [hsplit] at h
        dsimp only at h
        cases hname : Scheme.fromPrefix pre with
        | none =>
          rw [hname] at h
          cases h
        | some scheme =>
          rw [hname] at h
          obtain ⟨bs, hbs, hnew⟩ := Option.bind_eq_some_iff.mp h
          obtain ⟨rfl, rfl⟩ := Coord.new_iff.mp hnew
          refine written_of_decodeHex (pre ++ [':']) (by rw [htrim]; simp) hbs
            fun gap t hgap ht => ?_
          have hspells := Spells.prefixed (fromPrefix_iff.mp hname) hgap ht
          rwa [show pre ++ [':'] ++ gap ++ t = pre ++ ':' :: gap ++ t by simp]
      | none =>
        rw [hsplit] at h
        dsimp only at h
        split_ifs at h with hbare
        · exact hwhole (spells_of_bareBase32 hbare h)
        · obtain ⟨hscheme, ht⟩ := parseBareHex_iff.mp h
          obtain ⟨l', r', heq, hl', hr'⟩ := trim_parts (trim input)
          refine ⟨l ++ l', trim (trim input), r' ++ r, ?_, hl.append hl', hr'.append hr,
            .bareHex hscheme ht⟩
          calc input = l ++ trim input ++ r := hinput
            _ = l ++ (l' ++ trim (trim input) ++ r') ++ r := by rw [← heq]
            _ = _ := by simp only [List.append_assoc]

/-- **Coordinates parse canonically.**  A displayed coordinate reads back, every spelling with blanks
around it reads as exactly the coordinate it spells, and nothing else is read at all. -/
theorem parse_iff : (∀ c : Coord, Coord.parse c.display = some c)
    ∧ ∀ (input : String) (c : Coord), Coord.parse input = some c ↔ Written input.toList c := by
  refine ⟨Coord.parse_display, fun input c => ⟨spells_of_parse, fun h => ?_⟩⟩
  obtain ⟨l, s, r, hinput, hl, hr, hs⟩ := h
  unfold Coord.parse
  rw [hinput]
  exact parse_of_spells hl hr hs

/-- The digest of twenty zeros. -/
theorem zeroSha1_length : (List.replicate 20 (0 : UInt8)).length = Scheme.sha1.digestLen := rfl

def zeroSha1 : Coord := ⟨.sha1, List.replicate 20 0, zeroSha1_length⟩

/-- A blank inside the spelling is read over, a name with a dash does not go with base64, and base64 may
come in pieces. -/
theorem inner_blank_parses :
    Coord.parse "sha1: 0000000000000000000000000000000000000000" = some zeroSha1
      ∧ Named "sha-1".toList .sha1 ∧ base64Encode zeroSha1.digest = "AAAAAAAAAAAAAAAAAAAAAAAAAAA=".toList
      ∧ Coord.parse "sha-1-AAAAAAAAAAAAAAAAAAAAAAAAAAA=" = none
      ∧ Coord.parse "sha1-AA==AA==AAAAAAAAAAAAAAAAAAAAAAAA" = some zeroSha1 := by
  decide +kernel

end Hashdex
