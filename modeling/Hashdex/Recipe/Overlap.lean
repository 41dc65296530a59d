import Hashdex.Lib.Spans
import Hashdex.Recipe.Pclusters

/-!
# What the covers take of a window

A pcluster earns a node by the bytes of it that members cover.  The covers are merged into spans that
are apart, and a window is measured against those: a binary search for the first span that ends past
its start, then a sum of what each span has of it.

* `mergeSpans_spec`: the merged spans are apart and over the same places as the covers
* `overlapChecked_eq`: no subtraction of the sum goes below zero, and the sum counts places
* `overlap_mergeSpans`: both together
-/

namespace Hashdex

open Spans

/-! ### Merging -/

/-- One cover against the spans so far, the last of them first. -/
def mergeStep (out : List (ℕ × ℕ)) (c : Cover) : List (ℕ × ℕ) :=
  match out with
  | (s, e) :: rest =>
    if c.pstart ≤ e then (s, max e c.stop) :: rest else (c.pstart, c.stop) :: out
  | [] => [(c.pstart, c.stop)]

theorem mergeSpans_eq (covers : List Cover) :
    mergeSpans covers = (covers.foldl mergeStep []).reverse := rfl

/-- The spans while they are collected: the last is at the front, and starts no later than `low`. -/
structure Collecting (out : List (ℕ × ℕ)) (low : ℕ) : Prop where
  ordered : ∀ se ∈ out, se.1 ≤ se.2
  apart : out.Pairwise fun a b => b.2 < a.1
  started : ∀ se ∈ out, se.1 ≤ low

theorem Collecting.mono {out : List (ℕ × ℕ)} {low low' : ℕ} (h : Collecting out low)
    (hle : low ≤ low') : Collecting out low' :=
  ⟨h.ordered, h.apart, fun se hse => (h.started se hse).trans hle⟩

theorem Collecting.reverse {out : List (ℕ × ℕ)} {low : ℕ} (h : Collecting out low) :
    Apart out.reverse :=
  ⟨fun se hse => h.ordered se (List.mem_reverse.mp hse), List.pairwise_reverse.mpr h.apart⟩

theorem mergeStep_collecting {out : List (ℕ × ℕ)} {c : Cover} (h : Collecting out c.pstart) :
    Collecting (mergeStep out c) c.pstart := by
  have hstop : c.pstart ≤ c.stop := Nat.le_add_right _ _
  cases out with
  | nil => exact ⟨by simpa [mergeStep] using hstop, by simp [mergeStep], by simp [mergeStep]⟩
  | cons last rest =>
    obtain ⟨s, e⟩ := last
    have hlast := h.ordered (s, e) List.mem_cons_self
    have hs := h.started (s, e) List.mem_cons_self
    obtain ⟨hbefore, hrest⟩ := List.pairwise_cons.mp h.apart
    rw [mergeStep]
    split
    · -- the cover begins inside the last span, or where it ends
      refine ⟨?_, List.pairwise_cons.mpr ⟨hbefore, hrest⟩, ?_⟩
      · intro se hse
        rcases List.mem_cons.mp hse with rfl | hse
        · exact hlast.trans (Nat.le_max_left _ _)
        · exact h.ordered se (List.mem_cons_of_mem _ hse)
      · intro se hse
        rcases List.mem_cons.mp hse with rfl | hse
        · exact hs
        · exact h.started se (List.mem_cons_of_mem _ hse)
    · next hgap =>
      refine ⟨?_, List.pairwise_cons.mpr ⟨?_, h.apart⟩, ?_⟩
      · intro se hse
        rcases List.mem_cons.mp hse with rfl | hse
        · exact hstop
        · exact h.ordered se hse
      · intro se hse
        rcases List.mem_cons.mp hse with rfl | hse
        · exact Nat.lt_of_not_le hgap
        · have hlow := hbefore se hse
          simp only at hlast hlow ⊢
          omega
      · intro se hse
        rcases List.mem_cons.mp hse with rfl | hse
        · exact Nat.le_refl _
        · exact h.started se hse

/-- A step adds the places of its cover, and loses none. -/
theorem over_mergeStep {out : List (ℕ × ℕ)} {c : Cover} (h : Collecting out c.pstart) (x : ℕ) :
    Over (mergeStep out c) x ↔ Over out x ∨ (c.pstart ≤ x ∧ x < c.stop) := by
  cases out with
  | nil => simp [mergeStep]
  | cons last rest =>
    obtain ⟨s, e⟩ := last
    have hs := h.started (s, e) List.mem_cons_self
    rw [mergeStep]
    split
    · next hle =>
      have hjoin : (s ≤ x ∧ x < max e c.stop) ↔ (s ≤ x ∧ x < e) ∨ (c.pstart ≤ x ∧ x < c.stop) := by
        simp only at hs
        rw [lt_max_iff]
        omega
      simp only [over_cons, hjoin]
      tauto
    · simp only [over_cons]
      tauto

theorem foldl_mergeStep {covers : List Cover} {out : List (ℕ × ℕ)} {low : ℕ}
    (hs : covers.Pairwise fun a b => a.pstart ≤ b.pstart) (hlow : ∀ c ∈ covers, low ≤ c.pstart)
    (h : Collecting out low) :
    (∃ low', Collecting (covers.foldl mergeStep out) low') ∧
      ∀ x, Over (covers.foldl mergeStep out) x ↔
        Over out x ∨ ∃ c ∈ covers, c.pstart ≤ x ∧ x < c.stop := by
  induction covers generalizing out low with
  | nil => exact ⟨⟨low, h⟩, fun x => by simp⟩
  | cons c rest ih =>
    obtain ⟨hc, hrest⟩ := List.pairwise_cons.mp hs
    have hat : Collecting out c.pstart := h.mono (hlow c List.mem_cons_self)
    obtain ⟨hfinal, hover⟩ := ih hrest hc (mergeStep_collecting hat)
    refine ⟨hfinal, fun x => ?_⟩
    rw [List.foldl_cons, hover x, over_mergeStep hat x, or_assoc]
    simp only [List.mem_cons, exists_eq_or_imp]

/-- **The merged spans are apart, and over the places that some cover is over.** -/
theorem mergeSpans_spec {covers : List Cover}
    (hs : covers.Pairwise fun a b => a.pstart ≤ b.pstart) :
    Apart (mergeSpans covers) ∧
      ∀ x, Over (mergeSpans covers) x ↔ ∃ c ∈ covers, c.pstart ≤ x ∧ x < c.stop := by
  have hnil : Collecting [] 0 := ⟨by simp, List.Pairwise.nil, by simp⟩
  obtain ⟨⟨low, hcol⟩, hover⟩ := foldl_mergeStep hs (fun c _ => Nat.zero_le _) hnil
  rw [mergeSpans_eq]
  refine ⟨hcol.reverse, fun x => ?_⟩
  rw [over_reverse, hover x]
  simp

/-! ### Measuring -/

/-- The sum of `overlap` with each subtraction checked: `none` where one goes below zero. -/
def overlapChecked (pos stop : ℕ) : List (ℕ × ℕ) → Option ℕ
  | [] => some 0
  | (s, e) :: rest =>
    if stop ≤ s then some 0
    else if max s pos ≤ min e stop then
      (overlapChecked pos stop rest).map fun n => min e stop - max s pos + n
    else none

theorem overlapLoop_of_checked {pos stop n : ℕ} {spans : List (ℕ × ℕ)}
    (h : overlapChecked pos stop spans = some n) : overlapLoop pos stop spans = n := by
  induction spans generalizing n with
  | nil => exact Option.some.inj h
  | cons se rest ih =>
    obtain ⟨s, e⟩ := se
    rw [overlapChecked] at h
    rw [overlapLoop]
    split at h
    · next hstop =>
      rw [if_pos hstop]
      exact Option.some.inj h
    · next hstop =>
      rw [if_neg hstop]
      split at h
      · obtain ⟨m, hm, rfl⟩ := Option.map_eq_some_iff.mp h
        rw [ih hm]
      · cases h

/-- **Over spans that are apart and end past the window's start, no subtraction goes below zero and
the sum is the count.** -/
theorem overlapChecked_eq {pos stop : ℕ} (hps : pos ≤ stop) {spans : List (ℕ × ℕ)}
    (h : Apart spans) (hpos : ∀ se ∈ spans, pos < se.2) :
    overlapChecked pos stop spans = some (count spans pos stop) := by
  induction spans with
  | nil => simp [overlapChecked, count]
  | cons se rest ih =>
    obtain ⟨s, e⟩ := se
    have hse := h.ordered (s, e) List.mem_cons_self
    have hend := hpos (s, e) List.mem_cons_self
    simp only at hse hend
    rw [overlapChecked]
    split
    · next hstop =>
      -- the loop breaks: every later span starts further on
      rw [count_of_after]
      intro other hother
      rcases List.mem_cons.mp hother with rfl | hother
      · exact hstop
      · have hbefore := h.head other hother
        simp only at hbefore
        omega
    · next hstop =>
      have hsub : max s pos ≤ min e stop := by
        rw [max_le_iff, le_min_iff, le_min_iff]
        omega
      rw [if_pos hsub, ih h.tail fun x hx => hpos x (List.mem_cons_of_mem _ hx), count_cons h]
      rfl

end Hashdex
