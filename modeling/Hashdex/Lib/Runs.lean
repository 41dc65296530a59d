import Mathlib

/-!
# Runs of places

A list of runs, each where it starts and how long it is, stands for the places it goes through.

* `places_push`: joining a run to the last one it touches changes no place
* `places_truncate`: cutting runs down cuts their places
* `apart_of_nodup`: runs that repeat no place are apart
-/

namespace Runs

/-- The places of the runs, in order. -/
def places (runs : List (ℕ × ℕ)) : List ℕ := runs.flatMap fun r => List.range' r.1 r.2

/-- One more run: part of the last one when it goes on where that one ends. -/
def push (runs : List (ℕ × ℕ)) (start len : ℕ) : List (ℕ × ℕ) :=
  match runs.getLast? with
  | some (s, n) => if s + n = start then runs.dropLast ++ [(s, n + len)] else runs ++ [(start, len)]
  | none => [(start, len)]

/-- As much of the runs as there is room for. -/
def truncate : ℕ → List (ℕ × ℕ) → List (ℕ × ℕ)
  | _, [] => []
  | left, (start, len) :: rest =>
    if left = 0 then [] else (start, min len left) :: truncate (left - min len left) rest

@[simp] theorem places_nil : places [] = [] := rfl

@[simp] theorem places_append (a b : List (ℕ × ℕ)) : places (a ++ b) = places a ++ places b :=
  List.flatMap_append

@[simp] theorem places_cons (r : ℕ × ℕ) (rest : List (ℕ × ℕ)) :
    places (r :: rest) = List.range' r.1 r.2 ++ places rest := rfl

theorem length_places (runs : List (ℕ × ℕ)) : (places runs).length = (runs.map Prod.snd).sum := by
  induction runs with
  | nil => rfl
  | cons r rest ih =>
    rw [places_cons, List.length_append, List.length_range', ih, List.map_cons, List.sum_cons]

/-- The last run, when there is one. -/
theorem eq_dropLast_append {runs : List (ℕ × ℕ)} {r : ℕ × ℕ} (h : runs.getLast? = some r) :
    runs = runs.dropLast ++ [r] := (List.dropLast_append_getLast? r h).symm

/-- **Joining changes no place.** -/
theorem places_push (runs : List (ℕ × ℕ)) (start len : ℕ) :
    places (push runs start len) = places runs ++ List.range' start len := by
  rw [push]
  cases hlast : runs.getLast? with
  | none =>
    rw [List.getLast?_eq_none_iff.mp hlast]
    simp
  | some r =>
    obtain ⟨s, n⟩ := r
    dsimp only
    split_ifs with htouch
    · have hruns := eq_dropLast_append hlast
      have hsplit : List.range' s (n + len) = List.range' s n ++ List.range' start len := by
        rw [← htouch, ← List.range'_append_1]
      conv_rhs => rw [hruns]
      simp only [places_append, places_cons, places_nil, List.append_nil, hsplit, List.append_assoc]
    · simp

/-- No run goes on where the one before it ends. -/
def Merged (runs : List (ℕ × ℕ)) : Prop := runs.IsChain fun a b => a.1 + a.2 ≠ b.1

theorem push_merged {runs : List (ℕ × ℕ)} (h : Merged runs) (start len : ℕ) :
    Merged (push runs start len) := by
  rw [push]
  cases hlast : runs.getLast? with
  | none => exact List.isChain_singleton _
  | some r =>
    obtain ⟨s, n⟩ := r
    have hruns := eq_dropLast_append hlast
    dsimp only
    split_ifs with htouch
    · rw [Merged, hruns] at h
      obtain ⟨hfront, -, hjoin⟩ := List.isChain_append.mp h
      refine List.isChain_append.mpr ⟨hfront, List.isChain_singleton _, ?_⟩
      intro a ha b hb
      have hb : b = (s, n + len) := by simpa using hb.symm
      rw [hb]
      exact hjoin a ha (s, n) rfl
    · refine List.isChain_append.mpr ⟨h, List.isChain_singleton _, ?_⟩
      intro a ha b hb
      have ha : a = (s, n) := by
        rw [hlast] at ha
        exact (Option.some.inj ha).symm
      have hb : b = (start, len) := by simpa using hb.symm
      rw [ha, hb]
      exact htouch

theorem push_pos {runs : List (ℕ × ℕ)} (h : ∀ r ∈ runs, 0 < r.2) {start len : ℕ} (hlen : 0 < len) :
    ∀ r ∈ push runs start len, 0 < r.2 := by
  intro r hr
  rw [push] at hr
  cases hlast : runs.getLast? with
  | none =>
    rw [hlast] at hr
    rw [List.mem_singleton.mp hr]
    exact hlen
  | some q =>
    obtain ⟨s, n⟩ := q
    rw [hlast] at hr
    dsimp only at hr
    split_ifs at hr with htouch
    · cases List.mem_append.mp hr with
      | inl hmem => exact h r (List.mem_of_mem_dropLast hmem)
      | inr hmem =>
        rw [List.mem_singleton.mp hmem]
        exact Nat.add_pos_right n hlen
    · cases List.mem_append.mp hr with
      | inl hmem => exact h r hmem
      | inr hmem =>
        rw [List.mem_singleton.mp hmem]
        exact hlen

/-- **Cutting runs down cuts their places.** -/
theorem places_truncate (left : ℕ) (runs : List (ℕ × ℕ)) :
    places (truncate left runs) = (places runs).take left := by
  induction runs generalizing left with
  | nil => rw [truncate, places_nil, List.take_nil]
  | cons r rest ih =>
    obtain ⟨start, len⟩ := r
    rw [truncate]
    split_ifs with hzero
    · rw [hzero, List.take_zero]
      rfl
    · rw [places_cons, places_cons, ih, List.take_append, List.length_range']
      dsimp only
      by_cases hle : left ≤ len
      · rw [Nat.min_eq_right hle, List.take_range'_of_length_ge hle, Nat.sub_self,
          Nat.sub_eq_zero_of_le hle]
      · have hle : len ≤ left := Nat.le_of_not_le hle
        rw [Nat.min_eq_left hle, List.take_range'_of_length_le hle]

/-- **Runs that repeat no place are apart.** -/
theorem apart_of_nodup {runs : List (ℕ × ℕ)} (hpos : ∀ r ∈ runs, 0 < r.2) (h : (places runs).Nodup) :
    runs.Pairwise fun a b => a.1 + a.2 ≤ b.1 ∨ b.1 + b.2 ≤ a.1 := by
  refine (List.pairwise_flatMap.mp h).2.imp_of_mem ?_
  intro a b ha hb hne
  by_contra hover
  have hapos := hpos a ha
  have hbpos := hpos b hb
  have hshared : max a.1 b.1 ∈ List.range' a.1 a.2 ∧ max a.1 b.1 ∈ List.range' b.1 b.2 := by
    rw [List.mem_range'_1, List.mem_range'_1]
    omega
  exact hne _ hshared.1 _ hshared.2 rfl

end Runs
