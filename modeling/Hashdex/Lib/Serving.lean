import Mathlib

/-!
# Serving a string in pieces

A source has at each place below its size a byte, or a fault.  What it holds is the bytes up to the first
fault, and that fault (`content`); a reader that hands them out in pieces of any size is right when every
piece stands at its place (`At`).

* `prefix_content`: pieces that stand at their places make a prefix of the content
* `content_of_fault`, `content_of_full`: and all of it, when a fault or the end stopped them
-/

namespace Serving

variable {β ε : Type*} (byte : ℕ → Except ε β)

/-- The bytes of so many places from one place on, up to the first fault, and that fault. -/
def content : ℕ → ℕ → List β × Option ε
  | 0, _ => ([], none)
  | left + 1, p =>
    match byte p with
    | .ok b => (b :: (content left (p + 1)).1, (content left (p + 1)).2)
    | .error e => ([], some e)

/-- The piece stands at the place. -/
def At (p : ℕ) (piece : List β) : Prop := ∀ i (h : i < piece.length), byte (p + i) = .ok piece[i]

/-- What a read of up to `m` bytes at a place may answer: a piece, empty only when nothing was asked for,
or the fault of the place. -/
def Answers (p m : ℕ) : Except ε (List β) → Prop
  | .ok piece => (0 < m → piece ≠ []) ∧ piece.length ≤ m ∧ At byte p piece
  | .error e => byte p = .error e

/-- What a read may answer whose buffers may turn out too short: the fatal fault may also stand behind the
place, among the bytes asked for. -/
def Replies (fatal : ε) (p m : ℕ) : Except ε (List β) → Prop
  | .ok piece => (0 < m → piece ≠ []) ∧ piece.length ≤ m ∧ At byte p piece
  | .error e => ∃ front, At byte p front ∧ byte (p + front.length) = .error e ∧
      (front = [] ∨ e = fatal ∧ front.length < m)

variable {byte}

theorem Replies.of_fault {fatal : ε} {p m : ℕ} {e : ε} (h : byte p = .error e) :
    Replies byte fatal p m (.error e) :=
  ⟨[], fun _ h => absurd h (Nat.not_lt_zero _), h, .inl rfl⟩

/-- A read of fewer bytes is one of more. -/
theorem Replies.mono {fatal : ε} {p n m : ℕ} {a : Except ε (List β)} (h : Replies byte fatal p n a)
    (hle : n ≤ m) (hpos : 0 < m → 0 < n) : Replies byte fatal p m a := by
  cases a with
  | ok piece => exact ⟨fun hm => h.1 (hpos hm), h.2.1.trans hle, h.2.2⟩
  | error e =>
    obtain ⟨front, hat, he, hfront⟩ := h
    exact ⟨front, hat, he, hfront.imp_right fun hfatal => ⟨hfatal.1, hfatal.2.trans_le hle⟩⟩

/-- Where no byte asked for is the fatal fault, a fault is that of the place. -/
theorem Replies.answers {fatal : ε} {p m : ℕ} {a : Except ε (List β)} (h : Replies byte fatal p m a)
    (hnone : ∀ q, p ≤ q → q < p + m → byte q ≠ .error fatal) : Answers byte p m a := by
  cases a with
  | ok piece => exact h
  | error e =>
    obtain ⟨front, -, he, hfront⟩ := h
    cases hfront with
    | inl hnil =>
      rw [hnil] at he
      exact he
    | inr hfatal =>
      obtain ⟨rfl, hlt⟩ := hfatal
      exact absurd he (hnone _ (by omega) (by omega))

theorem Answers.mono {p n m : ℕ} {a : Except ε (List β)} (h : Answers byte p n a) (hle : n ≤ m)
    (hpos : 0 < m → 0 < n) : Answers byte p m a := by
  cases a with
  | ok piece => exact ⟨fun hm => h.1 (hpos hm), h.2.1.trans hle, h.2.2⟩
  | error e => exact h

theorem at_nil (p : ℕ) : At byte p [] := fun _ h => absurd h (Nat.not_lt_zero _)

theorem at_cons {p : ℕ} {b : β} {piece : List β} :
    At byte p (b :: piece) ↔ byte p = .ok b ∧ At byte (p + 1) piece := by
  constructor
  · intro h
    constructor
    · exact h 0 (Nat.succ_pos _)
    · intro i hi
      have hplace : p + 1 + i = p + (i + 1) := by omega
      rw [hplace]
      exact h (i + 1) (Nat.succ_lt_succ hi)
  · intro h i hi
    cases i with
    | zero => exact h.1
    | succ i =>
      have hplace : p + (i + 1) = p + 1 + i := by omega
      rw [hplace]
      exact h.2 i (Nat.lt_of_succ_lt_succ hi)

theorem at_append {p : ℕ} {xs ys : List β} :
    At byte p (xs ++ ys) ↔ At byte p xs ∧ At byte (p + xs.length) ys := by
  induction xs generalizing p with
  | nil => simp [at_nil]
  | cons x xs ih =>
    have hlen : p + (x :: xs).length = p + 1 + xs.length := by
      rw [List.length_cons]
      omega
    rw [List.cons_append, at_cons, at_cons, ih, hlen, and_assoc]

theorem length_content_le (left p : ℕ) : (content byte left p).1.length ≤ left := by
  induction left generalizing p with
  | zero => exact Nat.le_refl _
  | succ left ih =>
    rw [content]
    cases byte p with
    | ok b => exact Nat.succ_le_succ (ih (p + 1))
    | error e => exact Nat.zero_le _

theorem length_content_of_none {left p : ℕ} (h : (content byte left p).2 = none) :
    (content byte left p).1.length = left := by
  induction left generalizing p with
  | zero => rfl
  | succ left ih =>
    rw [content] at h ⊢
    cases hp : byte p with
    | ok b =>
      rw [hp] at h
      exact congrArg Nat.succ (ih h)
    | error e =>
      rw [hp] at h
      cases h

/-- The fault of the content is the first there is. -/
theorem content_fault_iff {left p : ℕ} {e : ε} :
    (content byte left p).2 = some e ↔
      ∃ k, k < left ∧ byte (p + k) = .error e ∧ ∀ i, i < k → ∃ b, byte (p + i) = .ok b := by
  induction left generalizing p with
  | zero =>
    constructor
    · exact nofun
    · intro h
      obtain ⟨k, hk, -⟩ := h
      exact absurd hk (Nat.not_lt_zero k)
  | succ left ih =>
    rw [content]
    cases hp : byte p with
    | error e' =>
      constructor
      · intro h
        cases h
        exact ⟨0, Nat.succ_pos left, hp, fun i hi => absurd hi (Nat.not_lt_zero i)⟩
      · intro h
        obtain ⟨k, -, hk, hbefore⟩ := h
        cases k with
        | zero =>
          rw [Nat.add_zero, hp] at hk
          cases hk
          rfl
        | succ k =>
          obtain ⟨b, hb⟩ := hbefore 0 (Nat.succ_pos k)
          rw [Nat.add_zero, hp] at hb
          cases hb
    | ok b =>
      have hshift : ∀ i, p + 1 + i = p + (i + 1) := fun i => by omega
      show (content byte left (p + 1)).2 = some e ↔ _
      rw [ih]
      constructor
      · intro h
        obtain ⟨k, hk, hfault, hbefore⟩ := h
        refine ⟨k + 1, Nat.succ_lt_succ hk, hshift k ▸ hfault, fun i hi => ?_⟩
        cases i with
        | zero => exact ⟨b, hp⟩
        | succ i => exact hshift i ▸ hbefore i (Nat.lt_of_succ_lt_succ hi)
      · intro h
        obtain ⟨k, hk, hfault, hbefore⟩ := h
        cases k with
        | zero =>
          rw [Nat.add_zero, hp] at hfault
          cases hfault
        | succ k =>
          exact ⟨k, Nat.lt_of_succ_lt_succ hk, (hshift k).symm ▸ hfault, fun i hi =>
            (hshift i).symm ▸ hbefore (i + 1) (Nat.succ_lt_succ hi)⟩

/-- **Pieces that stand at their places make a prefix of the content.** -/
theorem prefix_content {left p : ℕ} {out : List β} (h : At byte p out) (hlen : out.length ≤ left) :
    out <+: (content byte left p).1 := by
  induction out generalizing left p with
  | nil => exact List.nil_prefix
  | cons b out ih =>
    obtain ⟨hb, hout⟩ := at_cons.mp h
    cases left with
    | zero => exact absurd hlen (Nat.not_succ_le_zero _)
    | succ left =>
      rw [content, hb]
      exact (List.cons_prefix_cons).mpr ⟨rfl, ih hout (Nat.le_of_succ_le_succ hlen)⟩

/-- Stopped by a fault, they are all of it. -/
theorem content_of_fault {left p : ℕ} {out : List β} {e : ε} (h : At byte p out)
    (hlen : out.length < left) (he : byte (p + out.length) = .error e) :
    content byte left p = (out, some e) := by
  induction out generalizing left p with
  | nil =>
    cases left with
    | zero => exact absurd hlen (Nat.not_lt_zero _)
    | succ left =>
      have hp : byte p = .error e := he
      rw [content, hp]
  | cons b out ih =>
    obtain ⟨hb, hout⟩ := at_cons.mp h
    cases left with
    | zero => exact absurd hlen (Nat.not_lt_zero _)
    | succ left =>
      have hnext : byte (p + 1 + out.length) = .error e := by
        rwa [List.length_cons, Nat.add_comm out.length 1, ← Nat.add_assoc] at he
      rw [content, hb, ih hout (Nat.lt_of_succ_lt_succ hlen) hnext]

/-- And so they are at the end. -/
theorem content_of_full {left p : ℕ} {out : List β} (h : At byte p out) (hlen : out.length = left) :
    content byte left p = (out, none) := by
  induction out generalizing left p with
  | nil =>
    cases hlen
    rfl
  | cons b out ih =>
    obtain ⟨hb, hout⟩ := at_cons.mp h
    cases hlen
    rw [List.length_cons, content, hb, ih hout rfl]

end Serving
