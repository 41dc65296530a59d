import Mathlib
import Hashdex.Lib.RecProg

/-!
# Recursive procedures over a state, with faults

A procedure that works on a node, reads and updates a state `S`, may fail with a fault and calls
itself on other nodes.  `RecM` is the monad its body is written in; the lemmas read the big-step
meaning and the calls of a body off its text.

* `yields_bind`, `fails_bind`, `reaches_bind`: sequencing
* `tame_bind`: where a body calls and how its state grows, part by part
* `TameBody.terminates_iff_no_reentry`: over finitely many nodes, and with a state that only ever gains
  keys, a run terminates exactly when nothing is entered again inside its own processing
-/

namespace RecProg

/-- A body over nodes `N` and states `S`, whose recursive calls produce a `B`. -/
def RecM (N S F B α : Type) : Type :=
  S → Prog (N × S) (Except F (B × S)) (Except F (α × S))

namespace RecM

variable {N S F B α β : Type}

protected def pure (a : α) : RecM N S F B α := fun s => .ret (.ok (a, s))

protected def bind (m : RecM N S F B α) (f : α → RecM N S F B β) : RecM N S F B β := fun s =>
  (m s).bind fun
    | .error e => .ret (.error e)
    | .ok (a, s') => f a s'

instance : Monad (RecM N S F B) where
  pure := RecM.pure
  bind := RecM.bind

/-- Call the procedure on another node, in the current state. -/
def recur (n : N) : RecM N S F B B := fun s => .call (n, s) .ret

def fail (e : F) : RecM N S F B α := fun _ => .ret (.error e)

def lift (x : Except F α) : RecM N S F B α := fun s =>
  .ret (match x with
    | .error e => .error e
    | .ok a => .ok (a, s))

def getState : RecM N S F B S := fun s => .ret (.ok (s, s))

def putState (s : S) : RecM N S F B Unit := fun _ => .ret (.ok ((), s))

/-- Which results the recursive calls have. -/
abbrev Oracle (N S F B : Type) := N × S → Except F (B × S) → Prop

/-- From state `s` the body succeeds with `a` and leaves state `s'`. -/
def Yields (E : Oracle N S F B) (m : RecM N S F B α) (s : S) (a : α) (s' : S) : Prop :=
  (m s).Returns E (.ok (a, s'))

/-- From state `s` the body gets to call the procedure on `n` in state `s'`. -/
def Reaches (E : Oracle N S F B) (m : RecM N S F B α) (s : S) (n : N) (s' : S) : Prop :=
  Prog.Reaches E (m s) (n, s')

/-- From state `s` the body fails with `e`. -/
def Fails (E : Oracle N S F B) (m : RecM N S F B α) (s : S) (e : F) : Prop :=
  (m s).Returns E (.error e)

variable {E : Oracle N S F B}

theorem Yields.mono {E' : Oracle N S F B} (h : ∀ c r, E c r → E' c r) {m : RecM N S F B α}
    {s s' : S} {a : α} (hm : Yields E m s a s') : Yields E' m s a s' :=
  Prog.Returns.mono h hm

/-- A body that answers at once yields its answer. -/
theorem yields_of_ret {m : RecM N S F B α} {s s' : S} {a : α} {r : Except F (α × S)}
    (h : m s = .ret r) : Yields E m s a s' ↔ r = .ok (a, s') := by
  rw [Yields, h, Prog.returns_ret]

@[simp] theorem yields_pure {a b : α} {s s' : S} :
    Yields E (Pure.pure a : RecM N S F B α) s b s' ↔ a = b ∧ s = s' :=
  (yields_of_ret rfl).trans (by simp)

@[simp] theorem yields_fail {e : F} {b : α} {s s' : S} :
    ¬ Yields E (fail e : RecM N S F B α) s b s' :=
  (yields_of_ret rfl).not.mpr (by simp)

@[simp] theorem yields_lift {x : Except F α} {b : α} {s s' : S} :
    Yields E (lift x : RecM N S F B α) s b s' ↔ x = .ok b ∧ s = s' := by
  cases x <;> exact (yields_of_ret rfl).trans (by simp)

@[simp] theorem yields_getState {b s s' : S} :
    Yields E (getState : RecM N S F B S) s b s' ↔ s = b ∧ s = s' :=
  (yields_of_ret rfl).trans (by simp)

@[simp] theorem yields_putState {t : S} {b : Unit} {s s' : S} :
    Yields E (putState t : RecM N S F B Unit) s b s' ↔ t = s' :=
  (yields_of_ret rfl).trans (by simp)

@[simp] theorem yields_recur {n : N} {b : B} {s s' : S} :
    Yields E (recur n : RecM N S F B B) s b s' ↔ E (n, s) (.ok (b, s')) := by
  rw [Yields, recur, Prog.returns_call]
  simp

/-- **Sequencing.** -/
@[simp] theorem yields_bind {m : RecM N S F B α} {f : α → RecM N S F B β} {b : β} {s s'' : S} :
    Yields E (m >>= f) s b s'' ↔ ∃ a s', Yields E m s a s' ∧ Yields E (f a) s' b s'' := by
  rw [Yields]
  show Prog.Returns E ((m s).bind _) _ ↔ _
  rw [Prog.returns_bind]
  constructor
  · intro ⟨r, hr, hb⟩
    cases r with
    | error e => cases hb
    | ok p => exact ⟨p.1, p.2, hr, hb⟩
  · intro ⟨a, s', ha, hb⟩
    exact ⟨.ok (a, s'), ha, hb⟩

theorem fails_of_ret {m : RecM N S F B α} {s : S} {e : F} {r : Except F (α × S)}
    (h : m s = .ret r) : Fails E m s e ↔ r = .error e := by
  rw [Fails, h, Prog.returns_ret]

@[simp] theorem fails_pure {a : α} {s : S} {e : F} :
    ¬ Fails E (Pure.pure a : RecM N S F B α) s e :=
  (fails_of_ret rfl).not.mpr (by simp)

@[simp] theorem fails_fail {e e' : F} {s : S} :
    Fails E (fail e : RecM N S F B α) s e' ↔ e = e' :=
  (fails_of_ret rfl).trans (by simp)

@[simp] theorem fails_lift {x : Except F α} {s : S} {e : F} :
    Fails E (lift x : RecM N S F B α) s e ↔ x = .error e := by
  cases x <;> exact (fails_of_ret rfl).trans (by simp)

@[simp] theorem fails_getState {s : S} {e : F} : ¬ Fails E (getState : RecM N S F B S) s e :=
  (fails_of_ret rfl).not.mpr (by simp)

@[simp] theorem fails_putState {t s : S} {e : F} :
    ¬ Fails E (putState t : RecM N S F B Unit) s e :=
  (fails_of_ret rfl).not.mpr (by simp)

@[simp] theorem fails_recur {n : N} {s : S} {e : F} :
    Fails E (recur n : RecM N S F B B) s e ↔ E (n, s) (.error e) := by
  rw [Fails, recur, Prog.returns_call]
  simp

/-- A sequence fails in its first part or in its second. -/
@[simp] theorem fails_bind {m : RecM N S F B α} {f : α → RecM N S F B β} {s : S} {e : F} :
    Fails E (m >>= f) s e ↔ Fails E m s e ∨ ∃ a s', Yields E m s a s' ∧ Fails E (f a) s' e := by
  rw [Fails]
  show Prog.Returns E ((m s).bind _) _ ↔ _
  rw [Prog.returns_bind]
  constructor
  · intro ⟨r, hr, hb⟩
    cases r with
    | error e' =>
      cases hb
      exact Or.inl hr
    | ok p => exact Or.inr ⟨p.1, p.2, hr, hb⟩
  · intro h
    rcases h with h | ⟨a, s', ha, hb⟩
    · exact ⟨.error e, h, rfl⟩
    · exact ⟨.ok (a, s'), ha, hb⟩

@[simp] theorem reaches_pure {a : α} {s s' : S} {n : N} :
    ¬ Reaches E (Pure.pure a : RecM N S F B α) s n s' := id

@[simp] theorem reaches_fail {e : F} {s s' : S} {n : N} :
    ¬ Reaches E (fail e : RecM N S F B α) s n s' := id

@[simp] theorem reaches_lift {x : Except F α} {s s' : S} {n : N} :
    ¬ Reaches E (lift x : RecM N S F B α) s n s' := id

@[simp] theorem reaches_getState {s s' : S} {n : N} :
    ¬ Reaches E (getState : RecM N S F B S) s n s' := id

@[simp] theorem reaches_putState {t s s' : S} {n : N} :
    ¬ Reaches E (putState t : RecM N S F B Unit) s n s' := id

@[simp] theorem reaches_recur {n n' : N} {s s' : S} :
    Reaches E (recur n : RecM N S F B B) s n' s' ↔ n' = n ∧ s' = s := by
  rw [Reaches, recur, Prog.reaches_call]
  simp

@[simp] theorem reaches_bind {m : RecM N S F B α} {f : α → RecM N S F B β} {n : N} {s s'' : S} :
    Reaches E (m >>= f) s n s'' ↔
      Reaches E m s n s'' ∨ ∃ a s', Yields E m s a s' ∧ Reaches E (f a) s' n s'' := by
  rw [Reaches]
  show Prog.Reaches E ((m s).bind _) _ ↔ _
  rw [Prog.reaches_bind]
  constructor
  · intro h
    rcases h with h | ⟨r, hr, hb⟩
    · exact Or.inl h
    · cases r with
      | error e => exact absurd hb Prog.reaches_ret
      | ok p => exact Or.inr ⟨p.1, p.2, hr, hb⟩
  · intro h
    rcases h with h | ⟨a, s', ha, hb⟩
    · exact Or.inl h
    · exact Or.inr ⟨.ok (a, s'), ha, hb⟩

theorem yields_ite {p : Prop} [Decidable p] {m m' : RecM N S F B α} {s s' : S} {a : α} :
    Yields E (if p then m else m') s a s' ↔ (p ∧ Yields E m s a s') ∨ (¬ p ∧ Yields E m' s a s') := by
  by_cases h : p <;> simp [h]

theorem fails_ite {p : Prop} [Decidable p] {m m' : RecM N S F B α} {s : S} {e : F} :
    Fails E (if p then m else m') s e ↔ (p ∧ Fails E m s e) ∨ (¬ p ∧ Fails E m' s e) := by
  by_cases h : p <;> simp [h]

theorem reaches_ite {p : Prop} [Decidable p] {m m' : RecM N S F B α} {s s' : S} {n : N} :
    Reaches E (if p then m else m') s n s' ↔
      (p ∧ Reaches E m s n s') ∨ (¬ p ∧ Reaches E m' s n s') := by
  by_cases h : p <;> simp [h]

/-! ### Growth of the state -/

section Growth

variable {κ : Type*} [DecidableEq κ] {key : S → Finset κ} {K : Finset κ} {T : N → Prop}

/-- The state is unchanged or has gained keys, all of them from `K`. -/
def Grown (key : S → Finset κ) (K : Finset κ) (s s' : S) : Prop :=
  (s' = s ∨ key s ⊂ key s') ∧ key s' ⊆ key s ∪ K

theorem Grown.refl (s : S) : Grown key K s s := ⟨Or.inl rfl, Finset.subset_union_left⟩

theorem Grown.trans {s s' s'' : S} (h : Grown key K s s') (h' : Grown key K s' s'') :
    Grown key K s s'' := by
  refine ⟨?_, fun k hk => ?_⟩
  · rcases h.1 with rfl | hlt
    · exact h'.1
    · rcases h'.1 with rfl | hlt'
      · exact Or.inr hlt
      · exact Or.inr (hlt.trans hlt')
  · rcases Finset.mem_union.mp (h'.2 hk) with hk | hk
    · exact h.2 hk
    · exact Finset.mem_union_right _ hk

/-- A body that calls only on nodes with `T` and only grows the state. -/
def Tame (E : Oracle N S F B) (T : N → Prop) (key : S → Finset κ) (K : Finset κ)
    (m : RecM N S F B α) (s : S) : Prop :=
  (∀ a s', Yields E m s a s' → Grown key K s s') ∧
    ∀ n s', Reaches E m s n s' → T n ∧ Grown key K s s'

theorem tame_pure {a : α} {s : S} : Tame E T key K (Pure.pure a : RecM N S F B α) s :=
  ⟨fun _ _ h => (yields_pure.mp h).2 ▸ Grown.refl s, fun _ _ h => absurd h reaches_pure⟩

theorem tame_fail {e : F} {s : S} : Tame E T key K (fail e : RecM N S F B α) s :=
  ⟨fun _ _ h => absurd h yields_fail, fun _ _ h => absurd h reaches_fail⟩

theorem tame_lift {x : Except F α} {s : S} : Tame E T key K (lift x : RecM N S F B α) s :=
  ⟨fun _ _ h => (yields_lift.mp h).2 ▸ Grown.refl s, fun _ _ h => absurd h reaches_lift⟩

theorem tame_getState {s : S} : Tame E T key K (getState : RecM N S F B S) s :=
  ⟨fun _ _ h => (yields_getState.mp h).2 ▸ Grown.refl s, fun _ _ h => absurd h reaches_getState⟩

theorem tame_putState {s t : S} (h : Grown key K s t) :
    Tame E T key K (putState t : RecM N S F B Unit) s :=
  ⟨fun _ _ hy => yields_putState.mp hy ▸ h, fun _ _ h => absurd h reaches_putState⟩

theorem tame_recur {n : N} {s : S} (hn : T n)
    (hE : ∀ b s', E (n, s) (.ok (b, s')) → Grown key K s s') :
    Tame E T key K (recur n : RecM N S F B B) s := by
  refine ⟨fun b s' h => hE b s' (yields_recur.mp h), fun n' s' h => ?_⟩
  obtain ⟨rfl, rfl⟩ := reaches_recur.mp h
  exact ⟨hn, Grown.refl s'⟩

theorem tame_bind {m : RecM N S F B α} {f : α → RecM N S F B β} {s : S}
    (hm : Tame E T key K m s) (hf : ∀ a s', Yields E m s a s' → Tame E T key K (f a) s') :
    Tame E T key K (m >>= f) s := by
  refine ⟨fun b s'' h => ?_, fun n s'' h => ?_⟩
  · obtain ⟨a, s', ha, hb⟩ := yields_bind.mp h
    exact (hm.1 a s' ha).trans ((hf a s' ha).1 b s'' hb)
  · rcases reaches_bind.mp h with h | ⟨a, s', ha, h⟩
    · exact hm.2 n s'' h
    · have hr := (hf a s' ha).2 n s'' h
      exact ⟨hr.1, (hm.1 a s' ha).trans hr.2⟩

/-- A step that makes no call and leaves the state alone. -/
theorem tame_bind_lift {x : Except F α} {f : α → RecM N S F B β} {s : S}
    (hf : ∀ a, x = .ok a → Tame E T key K (f a) s) :
    Tame E T key K (lift x >>= f) s := by
  refine tame_bind tame_lift fun a s' h => ?_
  obtain ⟨hx, rfl⟩ := yields_lift.mp h
  exact hf a hx

theorem Tame.weaken {T' : N → Prop} {m : RecM N S F B α} {s : S} (hm : Tame E T key K m s)
    (h : ∀ n, T n → T' n) : Tame E T' key K m s :=
  ⟨hm.1, fun n s' hr => ⟨h n (hm.2 n s' hr).1, (hm.2 n s' hr).2⟩⟩

/-- A procedure that, on a node of `D`, calls only on nodes `To` relates it to, all of them in `D`,
and that grows the state if its calls do. -/
structure TameBody (body : N → RecM N S F B B) (D : N → Prop) (To : N → N → Prop)
    (key : S → Finset κ) (K : Finset κ) : Prop where
  closed : ∀ n n', D n → To n n' → D n'
  tame : ∀ (E : Oracle N S F B) (n : N) (s : S), D n →
    (∀ n s b s', D n → E (n, s) (.ok (b, s')) → Grown key K s s') →
      Tame E (To n) key K (body n) s

/-- The procedure a body defines. -/
abbrev procedure (body : N → RecM N S F B B) :
    N × S → Prog (N × S) (Except F (B × S)) (Except F (B × S)) := fun c => body c.1 c.2

variable {body : N → RecM N S F B B} {D : N → Prop} {To : N → N → Prop}

/-- Every call that returns has grown the state. -/
theorem TameBody.grown (h : TameBody body D To key K) {n : N} (hn : D n) {s s' : S} {b : B}
    (hev : Evaluates (procedure body) (n, s) (.ok (b, s'))) : Grown key K s s' := by
  refine hev.induct (P := fun c r => D c.1 → ∀ b s', r = .ok (b, s') → Grown key K c.2 s')
    (fun c r hret hc b s' hr => ?_) hn b s' rfl
  rw [hr] at hret
  exact (h.tame _ c.1 c.2 hc fun n s b s' hn hE => hE.2.2 hn b s' rfl).1 b s' hret

theorem TameBody.calls (h : TameBody body D To key K) {c c' : N × S} (hc : D c.1)
    (hcall : Calls (procedure body) c c') : To c.1 c'.1 ∧ Grown key K c.2 c'.2 :=
  (h.tame _ c.1 c.2 hc fun _ _ _ _ hn hE => h.grown hn hE).2 c'.1 c'.2 hcall

/-- **Termination is the absence of re-entry**, over finitely many nodes and a state that only ever
gains keys. -/
theorem TameBody.terminates_iff_no_reentry (h : TameBody body D To key K)
    (hfin : {n | D n}.Finite) {n : N} (hn : D n) (s : S) :
    Terminates (procedure body) (n, s) ↔ ¬ Reenters (procedure body) (n, s) := by
  have hentered : ∀ c', Entered (procedure body) (n, s) c' → D c'.1 ∧ Grown key K s c'.2 := by
    intro c' hc'
    induction hc' with
    | refl => exact ⟨hn, Grown.refl s⟩
    | tail _ hstep ih =>
      have hnext := h.calls ih.1 hstep
      exact ⟨h.closed _ _ ih.1 hnext.1, ih.2.trans hnext.2⟩
  suffices hbounded : Bounded (procedure body) (n, s) Prod.fst Prod.snd
      (fun s => (key s).card) (key s ∪ K).card from
    RecProg.terminates_iff_no_reentry hbounded
  refine ⟨fun d d' h h' => Prod.ext h h', hfin.subset ?_, fun d d' hd hcall => ?_, fun d hd => ?_⟩
  · intro m ⟨d, hd, hdm⟩
    exact hdm ▸ (hentered d hd).1
  · rcases (h.calls (hentered d hd).1 hcall).2.1 with heq | hlt
    · exact Or.inr heq
    · exact Or.inl (Finset.card_lt_card hlt)
  · exact Finset.card_le_card (hentered d hd).2.2

end Growth

end RecM

end RecProg
