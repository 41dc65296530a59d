import Hashdex.Lib.RecState

/-!
# Reasoning about bodies over a state

Two judgements over the parts of a body: `Total`, that a part ends, in a fault from `G` or with a
result and a state that satisfy `Q`, and `Goes`, that it calls only on nodes with `T` and that whatever
it succeeds with satisfies `Q`.  `Total` may assume that the calls the part gets to make are `C`, so
what is known of every call of a run is at hand where the call is made.
-/

namespace RecProg.RecM

variable {N S F B α β : Type} {E : Oracle N S F B} {C : N → S → Prop}

/-- If its calls are `C`, the body ends: in a fault from `G`, or with `Q`. -/
def Total (E : Oracle N S F B) (C : N → S → Prop) (G : F → Prop) (m : RecM N S F B α) (s : S)
    (Q : α → S → Prop) : Prop :=
  (∀ n s', Reaches E m s n s' → C n s') →
    (∃ e, G e ∧ Fails E m s e) ∨ ∃ a s', Yields E m s a s' ∧ Q a s'

/-- The body calls only on nodes with `T`, and succeeds only with `Q`. -/
def Goes (E : Oracle N S F B) (T : N → Prop) (m : RecM N S F B α) (s : S) (Q : α → S → Prop) :
    Prop :=
  (∀ n s', Reaches E m s n s' → T n) ∧ ∀ a s', Yields E m s a s' → Q a s'

section Total

variable {G : F → Prop} {s : S} {Q : α → S → Prop}

theorem total_pure {a : α} (h : Q a s) : Total E C G (pure a : RecM N S F B α) s Q :=
  fun _ => Or.inr ⟨a, s, yields_pure.mpr ⟨rfl, rfl⟩, h⟩

theorem total_fail {e : F} (h : G e) : Total E C G (fail e : RecM N S F B α) s Q :=
  fun _ => Or.inl ⟨e, h, fails_fail.mpr rfl⟩

theorem total_lift {x : Except F α} {a : α} (hx : x = .ok a) (h : Q a s) :
    Total E C G (lift x : RecM N S F B α) s Q :=
  fun _ => Or.inr ⟨a, s, yields_lift.mpr ⟨hx, rfl⟩, h⟩

theorem total_getState {Q : S → S → Prop} (h : Q s s) :
    Total E C G (getState : RecM N S F B S) s Q :=
  fun _ => Or.inr ⟨s, s, yields_getState.mpr ⟨rfl, rfl⟩, h⟩

theorem total_putState {t : S} {Q : Unit → S → Prop} (h : Q () t) :
    Total E C G (putState t : RecM N S F B Unit) s Q :=
  fun _ => Or.inr ⟨(), t, yields_putState.mpr rfl, h⟩

theorem total_recur {n : N} {Q : B → S → Prop}
    (h : C n s → (∃ e, G e ∧ E (n, s) (.error e)) ∨ ∃ b s', E (n, s) (.ok (b, s')) ∧ Q b s') :
    Total E C G (recur n : RecM N S F B B) s Q := by
  intro hC
  rcases h (hC n s (reaches_recur.mpr ⟨rfl, rfl⟩)) with ⟨e, he, hE⟩ | ⟨b, s', hE, hQ⟩
  · exact Or.inl ⟨e, he, fails_recur.mpr hE⟩
  · exact Or.inr ⟨b, s', yields_recur.mpr hE, hQ⟩

/-- **Sequencing.** -/
theorem total_bind {m : RecM N S F B α} {f : α → RecM N S F B β} {R : α → S → Prop}
    {Q : β → S → Prop} (hm : Total E C G m s R)
    (hf : ∀ a s', Yields E m s a s' → R a s' → Total E C G (f a) s' Q) :
    Total E C G (m >>= f) s Q := by
  intro hC
  rcases hm fun n t h => hC n t (reaches_bind.mpr (Or.inl h)) with ⟨e, he, hE⟩ | ⟨a, s', ha, hR⟩
  · exact Or.inl ⟨e, he, fails_bind.mpr (Or.inl hE)⟩
  · rcases hf a s' ha hR fun n t h => hC n t (reaches_bind.mpr (Or.inr ⟨a, s', ha, h⟩)) with
      ⟨e, he, hE⟩ | ⟨b, s'', hb, hQ⟩
    · exact Or.inl ⟨e, he, fails_bind.mpr (Or.inr ⟨a, s', ha, hE⟩)⟩
    · exact Or.inr ⟨b, s'', yields_bind.mpr ⟨a, s', ha, hb⟩, hQ⟩

theorem Total.imp {m : RecM N S F B α} {Q' : α → S → Prop} (hm : Total E C G m s Q)
    (h : ∀ a s', Yields E m s a s' → Q a s' → Q' a s') : Total E C G m s Q' := by
  intro hC
  rcases hm hC with hE | ⟨a, s', ha, hQ⟩
  · exact Or.inl hE
  · exact Or.inr ⟨a, s', ha, h a s' ha hQ⟩

end Total

section Goes

variable {T : N → Prop} {s : S} {Q : α → S → Prop}

theorem goes_pure {a : α} (h : Q a s) : Goes E T (pure a : RecM N S F B α) s Q := by
  refine ⟨fun _ _ hr => absurd hr reaches_pure, fun b s' hy => ?_⟩
  obtain ⟨rfl, rfl⟩ := yields_pure.mp hy
  exact h

theorem goes_fail {e : F} : Goes E T (fail e : RecM N S F B α) s Q :=
  ⟨fun _ _ hr => absurd hr reaches_fail, fun _ _ hy => absurd hy yields_fail⟩

theorem goes_lift {x : Except F α} (h : ∀ a, x = .ok a → Q a s) :
    Goes E T (lift x : RecM N S F B α) s Q := by
  refine ⟨fun _ _ hr => absurd hr reaches_lift, fun a s' hy => ?_⟩
  obtain ⟨hx, rfl⟩ := yields_lift.mp hy
  exact h a hx

theorem goes_getState {Q : S → S → Prop} (h : Q s s) :
    Goes E T (getState : RecM N S F B S) s Q := by
  refine ⟨fun _ _ hr => absurd hr reaches_getState, fun a s' hy => ?_⟩
  obtain ⟨rfl, rfl⟩ := yields_getState.mp hy
  exact h

theorem goes_putState {t : S} {Q : Unit → S → Prop} (h : Q () t) :
    Goes E T (putState t : RecM N S F B Unit) s Q := by
  refine ⟨fun _ _ hr => absurd hr reaches_putState, fun a s' hy => ?_⟩
  obtain rfl := yields_putState.mp hy
  exact h

theorem goes_recur {n : N} {Q : B → S → Prop} (hn : T n)
    (h : ∀ b s', E (n, s) (.ok (b, s')) → Q b s') :
    Goes E T (recur n : RecM N S F B B) s Q := by
  refine ⟨fun n' s' hr => ?_, fun b s' hy => h b s' (yields_recur.mp hy)⟩
  obtain ⟨rfl, -⟩ := reaches_recur.mp hr
  exact hn

/-- **Sequencing.** -/
theorem goes_bind {m : RecM N S F B α} {f : α → RecM N S F B β} {R : α → S → Prop}
    {Q : β → S → Prop} (hm : Goes E T m s R)
    (hf : ∀ a s', R a s' → Goes E T (f a) s' Q) : Goes E T (m >>= f) s Q := by
  refine ⟨fun n s'' hr => ?_, fun b s'' hy => ?_⟩
  · rcases reaches_bind.mp hr with hr | ⟨a, s', ha, hr⟩
    · exact hm.1 n s'' hr
    · exact (hf a s' (hm.2 a s' ha)).1 n s'' hr
  · obtain ⟨a, s', ha, hb⟩ := yields_bind.mp hy
    exact (hf a s' (hm.2 a s' ha)).2 b s'' hb

/-- A step that makes no call and leaves the state alone. -/
theorem goes_bind_lift {x : Except F α} {f : α → RecM N S F B β} {Q : β → S → Prop}
    (hf : ∀ a, x = .ok a → Goes E T (f a) s Q) : Goes E T (lift x >>= f) s Q := by
  refine goes_bind (R := fun a s' => x = .ok a ∧ s' = s) (goes_lift fun a h => ⟨h, rfl⟩) ?_
  rintro a s' ⟨ha, rfl⟩
  exact hf a ha

theorem Goes.imp {m : RecM N S F B α} {Q' : α → S → Prop} (hm : Goes E T m s Q)
    (h : ∀ a s', Q a s' → Q' a s') : Goes E T m s Q' :=
  ⟨hm.1, fun a s' hy => h a s' (hm.2 a s' hy)⟩

end Goes

end RecProg.RecM
