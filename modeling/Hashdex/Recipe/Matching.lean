import Hashdex.Recipe.Planner
import Hashdex.View

/-!
# Matching a compressor's output as it streams

A candidate's output comes in chunks and is compared with the wrapper's own bytes, which are read through
its view, until the first disagreement.

* `feed_iff`: what one chunk has to be
* `feedAll_iff`: what all of them have to be, however they are cut
* `searchGzip_eq`, `searchZstd_eq`: the searches are those of the planner's model
* `matcher_laws`: the verdict is exact
-/

namespace Hashdex

/-- The wrapper, how far it has been matched, and where it ends. -/
structure Matcher where
  wrapper : View
  pos : ℕ
  stop : ℕ

namespace Matcher

/-- The length of the buffer that the wrapper is read into. -/
def bufLen : ℕ := 2 ^ 20

def new (wrapper : View) (start : ℕ) : Matcher := ⟨wrapper, start, wrapper.len⟩

/-- The loop of `feed`. -/
def feedLoop (m : Matcher) (b : Bytes) : Bool × Matcher :=
  if b = [] then (true, m)
  else
    let n := min b.length bufLen
    let got := m.wrapper.readFullAt n m.pos
    if got.length < n ∨ got ≠ b.take n then (false, m)
    else feedLoop { m with pos := m.pos + n } (b.drop n)
termination_by b.length
decreasing_by
  rw [List.length_drop]
  have hpos := List.length_pos_of_ne_nil (by assumption)
  have hbuf : 0 < bufLen := by decide
  omega

def feed (m : Matcher) (b : Bytes) : Bool × Matcher :=
  if m.stop < m.pos + b.length then (false, m) else feedLoop m b

def complete (m : Matcher) : Bool := m.pos = m.stop

/-- The chunks in order, up to one that is refused. -/
def feedAll (m : Matcher) : List Bytes → Bool × Matcher
  | [] => (true, m)
  | b :: rest =>
    match m.feed b with
    | (true, m') => feedAll m' rest
    | (false, m') => (false, m')

/-- Every feed returned true, and the wrapper was matched to its end. -/
def Passes (wrapper : View) (start : ℕ) (chunks : List Bytes) : Prop :=
  ((new wrapper start).feedAll chunks).1 = true ∧ ((new wrapper start).feedAll chunks).2.complete = true

instance (wrapper : View) (start : ℕ) (chunks : List Bytes) :
    Decidable (Passes wrapper start chunks) := inferInstanceAs (Decidable (_ ∧ _))

/-! ### The searches -/

/-- What a run of an encoder puts out, cut as it happens to be, and whether it ends well. -/
structure EncoderRun where
  chunks : List Bytes
  success : Bool

/-- The loop of `gzip_body` leaves out the first bytes, and what it has nothing left of. -/
def skipHeader : ℕ → List Bytes → List Bytes
  | _, [] => []
  | skip, b :: rest =>
    let k := min skip b.length
    if b.drop k = [] then skipHeader (skip - k) rest else b.drop k :: skipHeader (skip - k) rest

/-- The body is handed to the matcher: no verdict when the encoder cannot be run or fails. -/
def runBody (m : Matcher) (success : Bool) (chunks : List Bytes) : Option Bool × Matcher :=
  match m.feedAll chunks with
  | (true, m') => (if success then some true else none, m')
  | (false, m') => (some false, m')

def gzipBody (run : Option EncoderRun) (m : Matcher) : Option Bool × Matcher :=
  match run with
  | none => (none, m)
  | some r => runBody m r.success (skipHeader 10 r.chunks)

def zstdBody (run : Option EncoderRun) (m : Matcher) : Option Bool × Matcher :=
  match run with
  | none => (none, m)
  | some r => runBody m r.success r.chunks

def accepts (r : Option Bool × Matcher) : Bool := r.1 = some true && r.2.complete

def searchGzip (gzip : GnuGzip → Bytes → Option EncoderRun) (wrapper : View) (headerLen : ℕ)
    (input : Bytes) : Option GnuGzip :=
  if wrapper.len ≤ headerLen then none
  else
    (gnuGzipCandidates.flatMap fun level => [⟨level, false⟩, ⟨level, true⟩]).find? fun params =>
      accepts (gzipBody (gzip params input) (new wrapper headerLen))

def searchZstd (zstd : Zstd → ℕ → Bytes → Option EncoderRun) (wrapper : View) (input : Bytes)
    (flags : Zstd) : Option Zstd :=
  (zstdLevelCandidates.flatMap fun level =>
    [{ flags with level, singleThread := false }, { flags with level, singleThread := true }]).find?
      fun params => accepts (zstdBody (zstd params input.length input) (new wrapper 0))

/-! ### One chunk -/

section

variable {m : Matcher} {b : Bytes}

/-- The next bytes of the wrapper. -/
def Next (m : Matcher) (b : Bytes) : Prop := (m.wrapper.content.drop m.pos).take b.length = b

theorem next_split {n : ℕ} (hn : n ≤ b.length) :
    Next m b ↔ (m.wrapper.content.drop m.pos).take n = b.take n ∧
      Next { m with pos := m.pos + n } (b.drop n) := by
  have hlen : b.length = n + (b.drop n).length := by
    rw [List.length_drop]
    omega
  show (m.wrapper.content.drop m.pos).take b.length = b ↔
    _ ∧ (m.wrapper.content.drop (m.pos + n)).take (b.drop n).length = b.drop n
  rw [← List.drop_drop]
  constructor
  · intro h
    have hfirst := congrArg (List.take n) h
    have hrest := congrArg (List.drop n) h
    rw [List.take_take, Nat.min_eq_left hn] at hfirst
    rw [List.drop_take] at hrest
    rw [List.length_drop]
    exact ⟨hfirst, hrest⟩
  · rintro ⟨hfirst, hrest⟩
    rw [hlen, List.take_add, hfirst, hrest, List.take_append_drop]

theorem feedLoop_spec (hpos : m.pos ≤ m.wrapper.len) :
    ((m.feedLoop b).1 = true ↔ Next m b) ∧
      (Next m b → (m.feedLoop b).2 = { m with pos := m.pos + b.length }) := by
  induction hlen : b.length using Nat.strong_induction_on generalizing m b with
  | _ len ih =>
    rw [feedLoop]
    by_cases hnil : b = []
    · rw [if_pos hnil]
      subst hnil
      constructor
      · simp [Next]
      · intro _
        rw [← hlen]
        rfl
    · rw [if_neg hnil]
      have hb : 0 < b.length := List.length_pos_of_ne_nil hnil
      have hbuf : 0 < bufLen := by decide
      set n := min b.length bufLen with hn
      have hsplit := @next_split m b n (by omega)
      dsimp only
      rw [View.readFullAt_eq]
      by_cases hsame : (m.wrapper.content.drop m.pos).take n = b.take n
      · have hlong : ((m.wrapper.content.drop m.pos).take n).length = n := by
          rw [hsame, List.length_take]
          omega
        have hroom : m.pos + n ≤ m.wrapper.len := by
          rw [List.length_take, List.length_drop, View.length_content] at hlong
          omega
        rw [if_neg (by rw [hlong, hsame]; simp), hsplit]
        have hrest := @ih (b.drop n).length (by rw [List.length_drop]; omega)
          { m with pos := m.pos + n } (b.drop n) hroom rfl
        constructor
        · rw [hrest.1]
          exact ⟨fun h => ⟨hsame, h⟩, fun h => h.2⟩
        · rintro ⟨-, hnext⟩
          rw [hrest.2 hnext]
          show (⟨m.wrapper, m.pos + n + (b.drop n).length, m.stop⟩ : Matcher) = ⟨_, m.pos + len, _⟩
          rw [List.length_drop]
          congr 1
          omega
      · rw [if_pos (.inr hsame), hsplit]
        constructor
        · exact ⟨nofun, fun h => absurd h.1 hsame⟩
        · exact fun h => absurd h.1 hsame

/-- **What one chunk has to be**: the bytes that come next in the wrapper. -/
theorem feed_iff (hpos : m.pos ≤ m.wrapper.len) (hstop : m.stop = m.wrapper.len) :
    ((m.feed b).1 = true ↔ Next m b) ∧
      (Next m b → (m.feed b).2 = { m with pos := m.pos + b.length } ∧
        m.pos + b.length ≤ m.wrapper.len) := by
  have hfits : Next m b → m.pos + b.length ≤ m.wrapper.len := by
    intro h
    have hlen := congrArg List.length h
    rw [List.length_take, List.length_drop, View.length_content] at hlen
    omega
  rw [feed]
  by_cases hlong : m.stop < m.pos + b.length
  · rw [if_pos hlong]
    have hnot : ¬ Next m b := fun h => by
      have := hfits h
      omega
    exact ⟨⟨nofun, fun h => absurd h hnot⟩, fun h => absurd h hnot⟩
  · rw [if_neg hlong]
    have hloop := @feedLoop_spec m b hpos
    exact ⟨hloop.1, fun h => ⟨hloop.2 h, hfits h⟩⟩

/-! ### All of them -/

/-- **What all chunks have to be**: together, the bytes that come next. -/
theorem feedAll_iff {chunks : List Bytes} (hpos : m.pos ≤ m.wrapper.len)
    (hstop : m.stop = m.wrapper.len) :
    ((m.feedAll chunks).1 = true ↔ Next m chunks.flatten) ∧
      (Next m chunks.flatten →
        (m.feedAll chunks).2 = { m with pos := m.pos + chunks.flatten.length } ∧
          m.pos + chunks.flatten.length ≤ m.wrapper.len) := by
  induction chunks generalizing m with
  | nil =>
    have hnext : Next m ([] : List Bytes).flatten := by simp [Next]
    exact ⟨⟨fun _ => hnext, fun _ => rfl⟩, fun _ => ⟨rfl, hpos⟩⟩
  | cons b rest ih =>
    have hone := @feed_iff m b hpos hstop
    have hsplit : Next m (b :: rest).flatten ↔
        Next m b ∧ Next { m with pos := m.pos + b.length } rest.flatten := by
      rw [List.flatten_cons, @next_split m (b ++ rest.flatten) b.length (by simp), List.take_left,
        List.drop_left]
      rfl
    rw [hsplit, feedAll]
    cases hfeed : m.feed b with
    | mk ok m' =>
      rw [hfeed] at hone
      cases ok with
      | false =>
        have hnot : ¬ Next m b := fun h => by
          have := hone.1.mpr h
          cases this
        exact ⟨⟨nofun, fun h => absurd h.1 hnot⟩, fun h => absurd h.1 hnot⟩
      | true =>
        have hnext := hone.1.mp rfl
        obtain ⟨hm', hroom⟩ := hone.2 hnext
        have hm' : m' = { m with pos := m.pos + b.length } := hm'
        subst hm'
        have hrest := @ih { m with pos := m.pos + b.length } hroom hstop
        constructor
        · rw [hrest.1]
          exact ⟨fun h => ⟨hnext, h⟩, fun h => h.2⟩
        · rintro ⟨-, h⟩
          obtain ⟨hend, hlen⟩ := hrest.2 h
          rw [List.flatten_cons, List.length_append, ← Nat.add_assoc]
          exact ⟨hend, hlen⟩

end

/-- **The verdict is about the output, however it is cut.** -/
theorem passes_iff {wrapper : View} {start : ℕ} (h : start ≤ wrapper.len) (chunks : List Bytes) :
    Passes wrapper start chunks ↔ chunks.flatten = wrapper.content.drop start := by
  have hall := @feedAll_iff (new wrapper start) chunks h rfl
  have hnext : Next (new wrapper start) chunks.flatten ↔
      (wrapper.content.drop start).take chunks.flatten.length = chunks.flatten := Iff.rfl
  rw [Passes, hall.1]
  constructor
  · rintro ⟨hn, hcomplete⟩
    rw [(hall.2 hn).1] at hcomplete
    have hend : start + chunks.flatten.length = wrapper.len := of_decide_eq_true hcomplete
    rw [← hnext.mp hn]
    apply List.take_of_length_le
    rw [List.length_drop, View.length_content]
    omega
  · intro heq
    have hn : Next (new wrapper start) chunks.flatten := by
      rw [hnext, heq, List.take_length]
    refine ⟨hn, ?_⟩
    rw [(hall.2 hn).1]
    apply decide_eq_true
    show start + chunks.flatten.length = wrapper.len
    rw [heq, List.length_drop, View.length_content]
    omega

/-! ### What the searches find -/

theorem flatten_skipHeader (skip : ℕ) (chunks : List Bytes) :
    (skipHeader skip chunks).flatten = chunks.flatten.drop skip := by
  induction chunks generalizing skip with
  | nil => simp [skipHeader]
  | cons b rest ih =>
    have hdrop : b.drop (min skip b.length) = b.drop skip := by
      by_cases hle : skip ≤ b.length
      · rw [Nat.min_eq_left hle]
      · rw [Nat.min_eq_right (by omega), List.drop_length, List.drop_of_length_le (by omega)]
    have hskip : skip - min skip b.length = skip - b.length := by omega
    rw [skipHeader, List.flatten_cons, List.drop_append, hdrop, hskip]
    split_ifs with hnil
    · rw [ih, hnil, List.nil_append]
    · rw [List.flatten_cons, ih]

theorem accepts_runBody {wrapper : View} {start : ℕ} {success : Bool} {chunks : List Bytes} :
    accepts (runBody (new wrapper start) success chunks) = true ↔
      success = true ∧ Passes wrapper start chunks := by
  rw [accepts, runBody, Passes]
  cases hall : (new wrapper start).feedAll chunks with
  | mk ok m' => cases ok <;> cases success <;> simp

/-- A run that ends well and whose output, without the first bytes, passes. -/
def Reproduces (wrapper : View) (start skip : ℕ) (run : Option EncoderRun) : Prop :=
  ∃ r, run = some r ∧ r.success = true ∧ r.chunks.flatten.drop skip = wrapper.content.drop start

theorem accepts_gzipBody {wrapper : View} {start : ℕ} (h : start ≤ wrapper.len)
    (run : Option EncoderRun) :
    accepts (gzipBody run (new wrapper start)) = true ↔ Reproduces wrapper start 10 run := by
  cases run with
  | none => simp [gzipBody, accepts, Reproduces]
  | some r =>
    rw [gzipBody, accepts_runBody, passes_iff h, flatten_skipHeader]
    simp [Reproduces]

theorem accepts_zstdBody {wrapper : View} {start : ℕ} (h : start ≤ wrapper.len)
    (run : Option EncoderRun) :
    accepts (zstdBody run (new wrapper start)) = true ↔ Reproduces wrapper start 0 run := by
  cases run with
  | none => simp [zstdBody, accepts, Reproduces]
  | some r =>
    rw [zstdBody, accepts_runBody, passes_iff h]
    simp [Reproduces]

/-- What a rebuild gets of a run. -/
def outputOf (skip : ℕ) : Option EncoderRun → Except String Bytes
  | some ⟨chunks, true⟩ => .ok (chunks.flatten.drop skip)
  | some ⟨_, false⟩ => .error "the encoder failed"
  | none => .error "the encoder could not be run"

theorem gives_outputOf {wrapper : View} {start skip : ℕ} {run : Option EncoderRun} :
    gives (outputOf skip run) (wrapper.content.drop start) = true ↔
      Reproduces wrapper start skip run := by
  rw [Reproduces]
  cases run with
  | none => simp [outputOf, gives]
  | some r =>
    obtain ⟨chunks, success⟩ := r
    cases success <;> simp [outputOf, gives]

/-- **The streamed search is the planner's**, which compares whole outputs. -/
theorem searchGzip_eq {codecs : Codecs} {gzip : GnuGzip → Bytes → Option EncoderRun}
    (hcodecs : ∀ params input, codecs.gzipBody params input = outputOf 10 (gzip params input))
    (wrapper : View) (headerLen : ℕ) (input : Bytes) :
    searchGzip gzip wrapper headerLen input =
      Hashdex.searchGzip codecs wrapper.content input headerLen := by
  rw [searchGzip, Hashdex.searchGzip, View.length_content]
  split_ifs with hlen
  · rfl
  · congr 1
    funext params
    rw [Bool.eq_iff_iff, accepts_gzipBody (by omega), hcodecs, gives_outputOf]

theorem searchZstd_eq {codecs : Codecs} {zstd : Zstd → ℕ → Bytes → Option EncoderRun}
    (hcodecs : ∀ params len input,
      codecs.zstdBody params len input = outputOf 0 (zstd params len input))
    (wrapper : View) (input : Bytes) (flags : Zstd) :
    searchZstd zstd wrapper input flags =
      Hashdex.searchZstd codecs wrapper.content input flags := by
  rw [searchZstd, Hashdex.searchZstd]
  congr 1
  funext params
  have hgives := @gives_outputOf wrapper 0 0 (zstd params input.length input)
  rw [List.drop_zero] at hgives
  rw [Bool.eq_iff_iff, accepts_zstdBody (Nat.zero_le _), hcodecs, hgives]

/-- **The matcher is exact.**  A candidate passes exactly when its output is the wrapper's bytes from the
start to the end, so that the cutting does not matter, and what a search finds has an encoder that ends well
on the input and whose output passes. -/
theorem matcher_laws {wrapper : View} {start : ℕ} (h : start ≤ wrapper.len) :
    (∀ chunks, Passes wrapper start chunks ↔ chunks.flatten = wrapper.content.drop start) ∧
    (∀ chunks chunks' : List Bytes, chunks.flatten = chunks'.flatten →
      (Passes wrapper start chunks ↔ Passes wrapper start chunks')) ∧
    (∀ gzip input params, searchGzip gzip wrapper start input = some params →
      ∃ r, gzip params input = some r ∧ r.success = true ∧
        Passes wrapper start (skipHeader 10 r.chunks)) ∧
    ∀ zstd input flags params, searchZstd zstd wrapper input flags = some params →
      ∃ r, zstd params input.length input = some r ∧ r.success = true ∧ Passes wrapper 0 r.chunks := by
  refine ⟨passes_iff h, ?_, ?_, ?_⟩
  · intro chunks chunks' hsame
    rw [passes_iff h, passes_iff h, hsame]
  · intro gzip input params hfound
    rw [searchGzip] at hfound
    split_ifs at hfound
    have haccepts := List.find?_some hfound
    obtain ⟨r, hr, hsuccess, hout⟩ := (accepts_gzipBody h _).mp haccepts
    refine ⟨r, hr, hsuccess, ?_⟩
    rwa [passes_iff h, flatten_skipHeader]
  · intro zstd input flags params hfound
    rw [searchZstd] at hfound
    have haccepts := List.find?_some hfound
    obtain ⟨r, hr, hsuccess, hout⟩ := (accepts_zstdBody (Nat.zero_le _) _).mp haccepts
    refine ⟨r, hr, hsuccess, ?_⟩
    rwa [passes_iff (Nat.zero_le _)]

/-- Of a wrapper with a header of two bytes, whose body comes in three chunks. -/
theorem matcher_laws_three : Passes (View.ofFile [31, 139, 1, 2, 3]) 2 [[1], [], [2, 3]] := by
  have hlaws := matcher_laws (show 2 ≤ (View.ofFile [31, 139, 1, 2, 3]).len by decide)
  exact (hlaws.1 [[1], [], [2, 3]]).mpr (by decide)

end Matcher

end Hashdex
