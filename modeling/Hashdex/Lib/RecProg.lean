import Mathlib

/-!
# Recursive programs as call trees

A body that calls itself is a map from a configuration to a tree of calls: an answer, or one call
and a continuation waiting for its result.  Running the body with fuel, its big-step meaning and its
call graph are all read off that tree.

* `evaluates_iff`: the big-step equation of a recursive body
* `Evaluates.induct`: what one step keeps, every terminating run keeps
* `terminates_iff_acc`: a run terminates exactly when its call graph is well-founded below it
* `acc_of_acyclic`: finitely many places and no cycle
* `terminates_iff_no_reentry`: and, over finitely many places with a state that only grows, exactly
  when no configuration is entered again inside its own processing
-/

namespace RecProg

universe u v

variable {C R : Type u}

/-- A computation over a recursive procedure with configurations `C` and results `R`. -/
inductive Prog (C R : Type u) (α : Type v) where
  | ret (a : α)
  | call (c : C) (k : R → Prog C R α)

namespace Prog

variable {α β : Type v}

def bind : Prog C R α → (α → Prog C R β) → Prog C R β
  | ret a, f => f a
  | call c k, f => call c fun r => (k r).bind f

/-- Run the computation with `f` answering its calls. -/
def interp (f : C → Option R) : Prog C R α → Option α
  | ret a => some a
  | call c k => (f c).bind fun r => (k r).interp f

/-- The answers of the computation when `E` relates each call to its results. -/
def Returns (E : C → R → Prop) : Prog C R α → α → Prop
  | ret a, b => a = b
  | call c k, b => ∃ r, E c r ∧ (k r).Returns E b

/-- The calls the computation gets to make. -/
def Reaches (E : C → R → Prop) : Prog C R α → C → Prop
  | ret _, _ => False
  | call c k, c' => c' = c ∨ ∃ r, E c r ∧ (k r).Reaches E c'

@[simp] theorem returns_ret {E : C → R → Prop} {a b : α} :
    (ret a : Prog C R α).Returns E b ↔ a = b := Iff.rfl

@[simp] theorem returns_call {E : C → R → Prop} {c : C} {k : R → Prog C R α} {b : α} :
    (call c k).Returns E b ↔ ∃ r, E c r ∧ (k r).Returns E b := Iff.rfl

@[simp] theorem reaches_ret {E : C → R → Prop} {a : α} {c : C} :
    ¬ (ret a : Prog C R α).Reaches E c := id

@[simp] theorem reaches_call {E : C → R → Prop} {c c' : C} {k : R → Prog C R α} :
    (call c k).Reaches E c' ↔ c' = c ∨ ∃ r, E c r ∧ (k r).Reaches E c' := Iff.rfl

/-- **Sequencing.**  The answers of a sequence are the answers of its second part. -/
@[simp] theorem returns_bind {E : C → R → Prop} {p : Prog C R α} {f : α → Prog C R β} {b : β} :
    (p.bind f).Returns E b ↔ ∃ a, p.Returns E a ∧ (f a).Returns E b := by
  induction p with
  | ret a => simp [bind]
  | call c k ih =>
    simp only [bind, returns_call, ih]
    constructor
    · intro ⟨r, hr, a, ha, hb⟩
      exact ⟨a, ⟨r, hr, ha⟩, hb⟩
    · intro ⟨a, ⟨r, hr, ha⟩, hb⟩
      exact ⟨r, hr, a, ha, hb⟩

@[simp] theorem reaches_bind {E : C → R → Prop} {p : Prog C R α} {f : α → Prog C R β} {c : C} :
    (p.bind f).Reaches E c ↔ p.Reaches E c ∨ ∃ a, p.Returns E a ∧ (f a).Reaches E c := by
  induction p with
  | ret a => simp [bind]
  | call c' k ih =>
    simp only [bind, reaches_call, returns_call, ih]
    constructor
    · intro h
      rcases h with rfl | ⟨r, hr, h | ⟨a, ha, h⟩⟩
      · exact Or.inl (Or.inl rfl)
      · exact Or.inl (Or.inr ⟨r, hr, h⟩)
      · exact Or.inr ⟨a, ⟨r, hr, ha⟩, h⟩
    · intro h
      rcases h with (rfl | ⟨r, hr, h⟩) | ⟨a, ⟨r, hr, ha⟩, h⟩
      · exact Or.inl rfl
      · exact Or.inr ⟨r, hr, Or.inl h⟩
      · exact Or.inr ⟨r, hr, Or.inr ⟨a, ha, h⟩⟩

theorem Returns.mono {E E' : C → R → Prop} (h : ∀ c r, E c r → E' c r) {p : Prog C R α} {a : α}
    (hp : p.Returns E a) : p.Returns E' a := by
  induction p with
  | ret _ => exact hp
  | call c k ih =>
    obtain ⟨r, hr, hk⟩ := hp
    exact ⟨r, h c r hr, ih r hk⟩

theorem Reaches.mono {E E' : C → R → Prop} (h : ∀ c r, E c r → E' c r) {p : Prog C R α} {c : C}
    (hp : p.Reaches E c) : p.Reaches E' c := by
  induction p with
  | ret _ => exact hp
  | call d k ih =>
    rcases hp with rfl | ⟨r, hr, hk⟩
    · exact Or.inl rfl
    · exact Or.inr ⟨r, h d r hr, ih r hk⟩

/-- An answer only rests on calls that the computation gets to make. -/
theorem Returns.with_reaches {E : C → R → Prop} {p : Prog C R α} {a : α} (hp : p.Returns E a) :
    p.Returns (fun c r => p.Reaches E c ∧ E c r) a := by
  induction p with
  | ret _ => exact hp
  | call c k ih =>
    obtain ⟨r, hr, hk⟩ := hp
    refine ⟨r, ⟨Or.inl rfl, hr⟩, (ih r hk).mono fun c' r' h => ?_⟩
    exact ⟨Or.inr ⟨r, hr, h.1⟩, h.2⟩

/-- With each call's result determined, so is the answer. -/
theorem Returns.unique {E : C → R → Prop} (h : ∀ c r r', E c r → E c r' → r = r')
    {p : Prog C R α} {a b : α} (ha : p.Returns E a) (hb : p.Returns E b) : a = b := by
  induction p with
  | ret _ => exact ha.symm.trans hb
  | call c k ih =>
    obtain ⟨r, hr, hk⟩ := ha
    obtain ⟨r', hr', hk'⟩ := hb
    rw [h c r' r hr' hr] at hk'
    exact ih r hk hk'

/-- A computation all of whose calls return returns. -/
theorem exists_returns {E : C → R → Prop} {p : Prog C R α}
    (h : ∀ c, p.Reaches E c → ∃ r, E c r) : ∃ a, p.Returns E a := by
  induction p with
  | ret a => exact ⟨a, rfl⟩
  | call c k ih =>
    obtain ⟨r, hr⟩ := h c (Or.inl rfl)
    obtain ⟨a, ha⟩ := ih r fun c' hc' => h c' (Or.inr ⟨r, hr, hc'⟩)
    exact ⟨a, r, hr, ha⟩

/-- A computation that returns got an answer to each of its calls. -/
theorem Returns.of_reaches {E : C → R → Prop} (hdet : ∀ c r r', E c r → E c r' → r = r')
    {p : Prog C R α} {a : α} (hp : p.Returns E a) {c : C} (hc : p.Reaches E c) : ∃ r, E c r := by
  induction p with
  | ret _ => exact absurd hc reaches_ret
  | call c' k ih =>
    obtain ⟨r, hr, hk⟩ := hp
    rcases hc with rfl | ⟨r', hr', hc⟩
    · exact ⟨r, hr⟩
    · rw [hdet c' r' r hr' hr] at hc
      exact ih r hk hc

theorem interp_iff {f : C → Option R} {p : Prog C R α} {a : α} :
    p.interp f = some a ↔ p.Returns (fun c r => f c = some r) a := by
  induction p with
  | ret _ => simp [interp]
  | call c k ih =>
    rw [interp, Option.bind_eq_some_iff]
    simp only [ih, returns_call]

end Prog

/-! ### Running a body -/

/-- `n` bounds the depth of the calls. -/
def eval (body : C → Prog C R R) : ℕ → C → Option R
  | 0, _ => none
  | n + 1, c => (body c).interp (eval body n)

def Evaluates (body : C → Prog C R R) (c : C) (r : R) : Prop := ∃ n, eval body n c = some r

def Terminates (body : C → Prog C R R) (c : C) : Prop := ∃ r, Evaluates body c r

/-- The call graph: processing `c` gets to call `c'`. -/
def Calls (body : C → Prog C R R) (c c' : C) : Prop := (body c).Reaches (Evaluates body) c'

variable {body : C → Prog C R R}

theorem eval_succ {n : ℕ} {c : C} {r : R} (h : eval body n c = some r) :
    eval body (n + 1) c = some r := by
  induction n generalizing c r with
  | zero => cases h
  | succ n ih =>
    rw [eval, Prog.interp_iff] at h ⊢
    exact h.mono fun c r => ih

theorem eval_mono {n m : ℕ} (hnm : n ≤ m) {c : C} {r : R} (h : eval body n c = some r) :
    eval body m c = some r := by
  induction hnm with
  | refl => exact h
  | step _ ih => exact eval_succ ih

theorem Evaluates.unique {c : C} {r r' : R} (h : Evaluates body c r) (h' : Evaluates body c r') :
    r = r' := by
  obtain ⟨n, hn⟩ := h
  obtain ⟨m, hm⟩ := h'
  have hn' := eval_mono (Nat.le_max_left n m) hn
  have hm' := eval_mono (Nat.le_max_right n m) hm
  exact Option.some_inj.mp (hn'.symm.trans hm')

theorem exists_fuel {α : Type v} {p : Prog C R α} {a : α} (h : p.Returns (Evaluates body) a) :
    ∃ n, p.Returns (fun c r => eval body n c = some r) a := by
  induction p with
  | ret _ => exact ⟨0, h⟩
  | call c k ih =>
    obtain ⟨r, ⟨n, hn⟩, hk⟩ := h
    obtain ⟨m, hm⟩ := ih r hk
    refine ⟨max n m, r, eval_mono (Nat.le_max_left n m) hn, ?_⟩
    exact hm.mono fun _ _ => eval_mono (Nat.le_max_right n m)

/-- **The big-step equation.**  A call evaluates to what its body returns when the calls inside are
evaluated. -/
theorem evaluates_iff {c : C} {r : R} :
    Evaluates body c r ↔ (body c).Returns (Evaluates body) r := by
  constructor
  · intro ⟨n, hn⟩
    cases n with
    | zero => cases hn
    | succ n =>
      rw [eval, Prog.interp_iff] at hn
      exact hn.mono fun _ _ h => ⟨n, h⟩
  · intro h
    obtain ⟨n, hn⟩ := exists_fuel h
    exact ⟨n + 1, by rw [eval, Prog.interp_iff]; exact hn⟩

/-- **Run induction.**  A property of configuration and result that one body keeps, given it of the
calls inside, holds of every terminating run. -/
theorem Evaluates.induct {P : C → R → Prop}
    (step : ∀ c r, (body c).Returns
      (fun c' r' => Calls body c c' ∧ Evaluates body c' r' ∧ P c' r') r → P c r)
    {c : C} {r : R} (h : Evaluates body c r) : P c r := by
  obtain ⟨n, hn⟩ := h
  induction n generalizing c r with
  | zero => cases hn
  | succ n ih =>
    rw [eval, Prog.interp_iff] at hn
    have hreach := hn.with_reaches
    refine step c r (hreach.mono fun c' r' h => ?_)
    exact ⟨h.1.mono fun _ _ he => ⟨n, he⟩, ⟨n, h.2⟩, ih h.2⟩

/-! ### Termination -/

/-- **A run terminates exactly when its call graph is well-founded below it.** -/
theorem terminates_iff_acc {c : C} :
    Terminates body c ↔ Acc (fun c' c => Calls body c c') c := by
  constructor
  · intro ⟨r, n, hn⟩
    induction n generalizing c r with
    | zero => cases hn
    | succ n ih =>
      refine Acc.intro c fun c' hc' => ?_
      rw [eval, Prog.interp_iff] at hn
      have hfuel : ∃ r', eval body n c' = some r' := by
        have hret : (body c).Returns (Evaluates body) r := hn.mono fun _ _ h => ⟨n, h⟩
        have hreach : (body c).Reaches (fun c r => eval body n c = some r) c' := by
          clear hret ih
          revert hc' hn
          rw [Calls]
          generalize body c = p
          intro hn hc'
          induction p with
          | ret _ => exact absurd hc' Prog.reaches_ret
          | call d k ihk =>
            obtain ⟨s, hs, hk⟩ := hn
            rcases hc' with rfl | ⟨s', hs', hc'⟩
            · exact Or.inl rfl
            · have hss : s' = s := Evaluates.unique hs' ⟨n, hs⟩
              rw [hss] at hc'
              exact Or.inr ⟨s, hs, ihk s hk hc'⟩
        exact hn.of_reaches (fun c r r' h h' => Option.some_inj.mp (h.symm.trans h')) hreach
      obtain ⟨r', hr'⟩ := hfuel
      exact ih r' hr'
  · intro h
    induction h with
    | intro c _ ih =>
      obtain ⟨r, hr⟩ := Prog.exists_returns (p := body c) (E := Evaluates body) ih
      exact ⟨r, evaluates_iff.mpr hr⟩

/-- Calls that only go down some well-founded order always return. -/
theorem terminates_of_measure {c : C} {lt : C → C → Prop} (hwf : Acc lt c)
    (h : ∀ c c', Calls body c c' → lt c' c) : Terminates body c :=
  terminates_iff_acc.mpr (Subrelation.accessible (fun {c' c} hc => h c c' hc) hwf)

/-- **A relation with finitely many places to go to and no cycle among them is well-founded there.** -/
theorem acc_of_acyclic {N : Type*} {next : N → N → Prop} {root : N}
    (hfin : {n | Relation.ReflTransGen next root n}.Finite)
    (hno : ∀ n, Relation.ReflTransGen next root n → ¬ Relation.TransGen next n n) :
    Acc (fun n' n => next n n') root := by
  -- Steps away from the root are searched backwards, among the places it leads to.
  let back (n' n : N) : Prop := Relation.ReflTransGen next root n ∧ next n n'
  have hforward : ∀ {n' n}, Relation.TransGen back n' n → Relation.TransGen next n n' := by
    intro n' n h
    induction h with
    | single h => exact .single h.2
    | tail _ h ih => exact .head h.2 ih
  have hirrefl : ∀ n, ¬ Relation.TransGen back n n := by
    intro n hn
    obtain ⟨m, hroot, -⟩ : ∃ m, Relation.ReflTransGen next root n ∧ m = n := by
      cases hn with
      | single h => exact ⟨n, h.1, rfl⟩
      | tail _ h => exact ⟨n, h.1, rfl⟩
    exact hno n hroot (hforward hn)
  haveI : IsStrictOrder N (Relation.TransGen back) :=
    { irrefl := hirrefl, trans := fun _ _ _ => Relation.TransGen.trans }
  have hwf := hfin.wellFoundedOn (r := Relation.TransGen back)
  refine hwf.induction (P := fun n => Acc (fun n' n => next n n') n) .refl fun n hn ih => ?_
  refine Acc.intro n fun n' hstep => ?_
  exact ih n' (hn.tail hstep) (.single ⟨hn, hstep⟩)

/-! ### Re-entry -/

section Reentry

variable {N : Type v} {S : Type*}

/-- The configurations a run from `c` gets to enter. -/
def Entered (body : C → Prog C R R) : C → C → Prop := Relation.ReflTransGen (Calls body)

/-- The run from `c` enters a configuration again inside its own processing. -/
def Reenters (body : C → Prog C R R) (c : C) : Prop :=
  ∃ d, Entered body c d ∧ Relation.TransGen (Calls body) d d

theorem Entered.acc {c d : C} (h : Entered body c d)
    (hacc : Acc (fun c' c => Calls body c c') c) : Acc (fun c' c => Calls body c c') d := by
  induction h with
  | refl => exact hacc
  | tail _ hstep ih => exact ih.inv hstep

theorem not_rel_self_of_acc {r : C → C → Prop} {d : C} (h : Acc r d) : ¬ r d d := by
  induction h with
  | intro d _ ih =>
    intro hdd
    exact ih d hdd hdd

/-- An accessible configuration is not below itself. -/
theorem not_transGen_self {d : C} (h : Acc (fun c' c => Calls body c c') d) :
    ¬ Relation.TransGen (Calls body) d d := by
  have htrans : Acc (Relation.TransGen fun c' c => Calls body c c') d := h.transGen
  intro hdd
  have hback : Relation.TransGen (fun c' c => Calls body c c') d d :=
    Relation.transGen_swap.mp hdd
  exact not_rel_self_of_acc htrans hback

/-- **A run that enters a configuration inside its own processing does not terminate.** -/
theorem not_terminates_of_reenters {c : C} (h : Reenters body c) : ¬ Terminates body c := by
  intro hterm
  obtain ⟨d, hcd, hdd⟩ := h
  exact not_transGen_self (hcd.acc (terminates_iff_acc.mp hterm)) hdd

/-- The configurations of a run stand at finitely many places and carry a state that only grows, up
to a bound. -/
structure Bounded (body : C → Prog C R R) (c : C) (place : C → N) (state : C → S) (rank : S → ℕ)
    (bound : ℕ) : Prop where
  inj : ∀ d d', place d = place d' → state d = state d' → d = d'
  finite : {n | ∃ d, Entered body c d ∧ place d = n}.Finite
  grows : ∀ d d', Entered body c d → Calls body d d' →
    rank (state d) < rank (state d') ∨ state d' = state d
  le_bound : ∀ d, Entered body c d → rank (state d) ≤ bound

variable {place : C → N} {state : C → S} {rank : S → ℕ} {bound : ℕ}

/-- A call between two places that leaves the state at `s`. -/
def CallsAt (body : C → Prog C R R) (c : C) (place : C → N) (state : C → S) (s : S) (n' n : N) :
    Prop :=
  ∃ d d', Entered body c d ∧ Calls body d d' ∧ state d = s ∧ state d' = s ∧ place d = n ∧
    place d' = n'

theorem Bounded.calls_of_callsAt {c : C} (h : Bounded body c place state rank bound) {s : S}
    {n n' : N} (hcalls : Relation.TransGen (CallsAt body c place state s) n' n) :
    ∃ d d', Entered body c d ∧ Relation.TransGen (Calls body) d d' ∧ state d = s ∧ state d' = s ∧
      place d = n ∧ place d' = n' := by
  induction hcalls with
  | single hone =>
    obtain ⟨d, d', he, hc, hs, hs', hn, hn'⟩ := hone
    exact ⟨d, d', he, Relation.TransGen.single hc, hs, hs', hn, hn'⟩
  | tail _ hone ih =>
    obtain ⟨d, d', he, hc, hs, hs', hn, hn'⟩ := hone
    obtain ⟨e, e', -, hce, hse, hse', hne, hne'⟩ := ih
    have hmid : d' = e := h.inj d' e (hn'.trans hne.symm) (hs'.trans hse.symm)
    rw [← hmid] at hce
    exact ⟨d, e', he, Relation.TransGen.head hc hce, hs, hse', hn, hne'⟩

theorem Bounded.acc_of_no_reentry {c : C} (h : Bounded body c place state rank bound)
    (hno : ¬ Reenters body c) : ∀ (m : ℕ) (d : C), Entered body c d →
      bound - rank (state d) ≤ m → Acc (fun c' c => Calls body c c') d := by
  intro m
  induction m using Nat.strong_induction_on with
  | _ m ihm =>
    intro d hd hm
    -- The state stays at `s` until it grows, so the places are searched with `s` fixed.
    generalize hs : state d = s at hm
    have hirrefl : ∀ n, ¬ Relation.TransGen (CallsAt body c place state s) n n := by
      intro n hn
      obtain ⟨e, e', he, hee, hse, hse', hne, hne'⟩ := h.calls_of_callsAt hn
      have hsame : e' = e := h.inj e' e (hne'.trans hne.symm) (hse'.trans hse.symm)
      rw [hsame] at hee
      exact hno ⟨e, he, hee⟩
    haveI : IsStrictOrder N (Relation.TransGen (CallsAt body c place state s)) :=
      { irrefl := hirrefl, trans := fun _ _ _ => Relation.TransGen.trans }
    have hwf := h.finite.wellFoundedOn (r := Relation.TransGen (CallsAt body c place state s))
    refine hwf.induction (P := fun n => ∀ d, Entered body c d → state d = s → place d = n →
      Acc (fun c' c => Calls body c c') d) ⟨d, hd, rfl⟩ (fun n _ ihn d hd hs hn => ?_) d hd hs rfl
    refine Acc.intro d fun d' hd' => ?_
    have he' : Entered body c d' := hd.tail hd'
    rcases h.grows d d' hd hd' with hlt | heq
    · have hb := h.le_bound d' he'
      rw [hs] at hlt
      exact ihm (bound - rank (state d')) (by omega) d' he' le_rfl
    · have hs' : state d' = s := heq.trans hs
      exact ihn (place d') ⟨d', he', rfl⟩
        (Relation.TransGen.single ⟨d, d', hd, hd', hs, hs', hn, rfl⟩) d' he' hs' rfl

/-- **Termination is the absence of re-entry.** -/
theorem terminates_iff_no_reentry {c : C} (h : Bounded body c place state rank bound) :
    Terminates body c ↔ ¬ Reenters body c := by
  constructor
  · intro hterm hre
    exact not_terminates_of_reenters hre hterm
  · intro hno
    exact terminates_iff_acc.mpr
      (h.acc_of_no_reentry hno _ c Relation.ReflTransGen.refl le_rfl)

end Reentry

end RecProg
