import Mathlib.Data.List.Induction
import Mathlib.Logic.Relation

/-!
# Transition systems

A system is an initial state and a partial step function indexed by labels.  A
label says which party moves (and resolves whatever choice that party has), so
that a list of labels is a schedule and can be executed.  This file gives
reachability with its induction rule, runs restricted by a condition on their
steps, histories of observable events, and forward simulation.

Main results:

- Theorem {lit}`System.Reachable.invariant`: a property that holds initially and
  is kept by every step holds in every reachable state.
- Theorem {lit}`System.Reachable.run`: a schedule executed from a reachable state ends
  in one.
- Theorem {lit}`System.along_iff_guarded`: when a property holds after a step exactly if
  the step meets a condition, it holds all along a run exactly if all steps meet it.
- Theorem {lit}`System.Simulation.traced`: a forward simulation carries every
  history of the concrete system to the abstract one.
-/

universe u v w x y

/-- A labelled transition system with one initial state and partial steps. -/
structure System (σ : Type u) (ℓ : Type v) where
  /-- The initial state. -/
  init : σ
  /-- The state after the step with a given label, if that step is enabled. -/
  step : σ → ℓ → Option σ

namespace System

variable {σ : Type u} {ℓ : Type v} {τ : Type w} {m : Type x} {ε : Type y}
variable (S : System σ ℓ)

/-! ## Runs and reachable states -/

/-- Execute a schedule; {lean}`none` when one of its steps is not enabled. -/
def run (s : σ) : List ℓ → Option σ
  | [] => some s
  | a :: as => (S.step s a).bind fun s' => run s' as

/-- States that some run from the initial state reaches. -/
inductive Reachable : σ → Prop
  | init : Reachable S.init
  | step {s s' : σ} {a : ℓ} : Reachable s → S.step s a = some s' → Reachable s'

/-- One step with some label. -/
def Step (s s' : σ) : Prop := ∃ a, S.step s a = some s'

/-- Zero or more steps. -/
def Steps : σ → σ → Prop := Relation.ReflTransGen S.Step

/-- A label whose step can be taken. -/
def Enabled (s : σ) (a : ℓ) : Prop := (S.step s a).isSome

variable {S}

@[simp]
theorem run_nil (s : σ) : S.run s [] = some s :=
  rfl

theorem run_cons (s : σ) (a : ℓ) (as : List ℓ) :
    S.run s (a :: as) = (S.step s a).bind fun s' => S.run s' as :=
  rfl

/-- Running a concatenation is running the parts one after the other. -/
theorem run_append (s : σ) (as bs : List ℓ) :
    S.run s (as ++ bs) = (S.run s as).bind fun s' => S.run s' bs := by
  induction as generalizing s with
  | nil => simp
  | cons a as ih =>
      rw [List.cons_append, run_cons, run_cons]
      cases S.step s a with
      | none => rfl
      | some s' => exact ih s'

/-- The invariant rule: what holds initially and is kept by every step out of a
reachable state holds in every reachable state. -/
theorem Reachable.invariant {P : σ → Prop} (hinit : P S.init)
    (hstep : ∀ s a s', S.Reachable s → P s → S.step s a = some s' → P s')
    {s : σ} (hs : S.Reachable s) : P s := by
  induction hs with
  | init => exact hinit
  | step hr ha ih => exact hstep _ _ _ hr ih ha

/-- Executing a schedule from a reachable state ends in a reachable state. -/
theorem Reachable.run {s s' : σ} {as : List ℓ} (hs : S.Reachable s)
    (h : S.run s as = some s') : S.Reachable s' := by
  induction as generalizing s with
  | nil =>
      rw [run_nil, Option.some.injEq] at h
      exact h ▸ hs
  | cons a as ih =>
      rw [run_cons, Option.bind_eq_some_iff] at h
      rcases h with ⟨s₁, ha, h⟩
      exact ih (hs.step ha) h

/-- The final state of an enabled schedule is reachable. -/
theorem reachable_get_run (as : List ℓ) (h : (S.run S.init as).isSome = true) :
    S.Reachable ((S.run S.init as).get h) :=
  Reachable.init.run (Option.some_get h).symm

/-- Reachability is closed under further steps. -/
theorem Reachable.steps {s s' : σ} (hs : S.Reachable s) (h : S.Steps s s') :
    S.Reachable s' := by
  induction h with
  | refl => exact hs
  | tail _ h ih =>
      rcases h with ⟨a, ha⟩
      exact ih.step ha

/-- The invariant rule for the states that follow a given reachable state. -/
theorem Steps.invariant {P : σ → Prop} {s s' : σ} (hs : S.Reachable s) (h₀ : P s)
    (hstep : ∀ r a r', S.Reachable r → P r → S.step r a = some r' → P r')
    (h : S.Steps s s') : P s' := by
  induction h with
  | refl => exact h₀
  | tail hpre h ih =>
      rcases h with ⟨a, ha⟩
      exact hstep _ _ _ (hs.steps hpre) ih ha

/-- Executing a schedule is a sequence of steps. -/
theorem Steps.of_run {s s' : σ} {as : List ℓ} (h : S.run s as = some s') :
    S.Steps s s' := by
  induction as generalizing s with
  | nil =>
      rw [run_nil, Option.some.injEq] at h
      exact h ▸ Relation.ReflTransGen.refl
  | cons a as ih =>
      rw [run_cons, Option.bind_eq_some_iff] at h
      rcases h with ⟨s₁, ha, h⟩
      exact Relation.ReflTransGen.head ⟨a, ha⟩ (ih h)

/-- The state after a schedule leads to the state after a longer one. -/
theorem steps_get_run (as bs : List ℓ) (has : (S.run S.init as).isSome = true)
    (hbs : (S.run S.init (as ++ bs)).isSome = true) :
    S.Steps ((S.run S.init as).get has) ((S.run S.init (as ++ bs)).get hbs) := by
  have hrun : S.run ((S.run S.init as).get has) bs =
      some ((S.run S.init (as ++ bs)).get hbs) := by
    have h := S.run_append S.init as bs
    rw [← Option.some_get has, Option.bind_some] at h
    exact h.symm.trans (Option.some_get hbs).symm
  exact Steps.of_run hrun

/-! ## Runs whose steps all meet a condition -/

section Guarded

variable (S) (ok : σ → ℓ → Prop) [∀ s a, Decidable (ok s a)]

/-- The system that takes only the steps meeting {lit}`ok`: its runs are the runs
of {lit}`S` whose steps all meet the condition in the state they start from. -/
def guarded : System σ ℓ where
  init := S.init
  step s a := if ok s a then S.step s a else none

variable {S ok}

theorem guarded_step {s s' : σ} {a : ℓ} :
    (S.guarded ok).step s a = some s' ↔ ok s a ∧ S.step s a = some s' := by
  by_cases h : ok s a <;> simp [guarded, h]

/-- A guarded run is a run. -/
theorem Reachable.of_guarded {s : σ} (hs : (S.guarded ok).Reachable s) :
    S.Reachable s := by
  induction hs with
  | init => exact Reachable.init
  | step _ ha ih => exact ih.step (guarded_step.mp ha).2

/-- A guarded schedule can be executed without the guard. -/
theorem run_of_guarded {s s' : σ} {as : List ℓ} (h : (S.guarded ok).run s as = some s') :
    S.run s as = some s' := by
  induction as generalizing s with
  | nil => exact h
  | cons a as ih =>
      rw [run_cons, Option.bind_eq_some_iff] at h ⊢
      rcases h with ⟨s₁, ha, h⟩
      exact ⟨s₁, (guarded_step.mp ha).2, ih h⟩

variable (S) in
/-- {lit}`P` holds in every state that executing the schedule passes through. -/
def Along (P : σ → Prop) (as : List ℓ) : Prop :=
  ∀ bs, bs <+: as → ∀ s, S.run S.init bs = some s → P s

omit [∀ s a, Decidable (ok s a)] in
/-- A longer run passes through one state more. -/
theorem along_append_singleton {P : σ → Prop} {as : List ℓ} {a : ℓ} :
    S.Along P (as ++ [a]) ↔
      S.Along P as ∧ ∀ s, S.run S.init (as ++ [a]) = some s → P s := by
  constructor
  · intro h
    exact ⟨fun bs hbs => h bs (hbs.trans (List.prefix_append as [a])),
      h (as ++ [a]) List.prefix_rfl⟩
  · rintro ⟨h, hlast⟩ bs hbs
    rcases List.prefix_concat_iff.mp hbs with rfl | hbs
    · exact hlast
    · exact h bs hbs

/-- When a property holds after a step exactly if the step meets the condition, it holds in
all states of a run exactly if all steps of the run meet the condition. -/
theorem along_iff_guarded {P : σ → Prop} (hinit : P S.init)
    (hstep : ∀ s a s', (S.guarded ok).Reachable s → P s → S.step s a = some s' →
      (P s' ↔ ok s a)) {as : List ℓ} {s : σ} (hrun : S.run S.init as = some s) :
    S.Along P as ↔ (S.guarded ok).run S.init as = some s := by
  induction as using List.reverseRecOn generalizing s with
  | nil =>
      rw [run_nil, Option.some.injEq] at hrun
      subst hrun
      refine ⟨fun _ => rfl, fun _ bs hbs s hs => ?_⟩
      rw [List.prefix_nil.mp hbs, run_nil, Option.some.injEq] at hs
      exact hs ▸ hinit
  | append_singleton as a ih =>
      rw [run_append, Option.bind_eq_some_iff] at hrun
      rcases hrun with ⟨s₁, hs₁, ha⟩
      rw [run_cons, Option.bind_eq_some_iff] at ha
      rcases ha with ⟨_, ha, heq⟩
      rw [run_nil, Option.some.injEq] at heq
      rw [heq] at ha
      have hlast : S.run S.init (as ++ [a]) = some s := by
        rw [run_append, hs₁, Option.bind_some, run_cons, ha]
        rfl
      have hguarded : (S.guarded ok).run S.init (as ++ [a]) = some s ↔
          (S.guarded ok).run S.init as = some s₁ ∧ ok s₁ a := by
        rw [run_append, Option.bind_eq_some_iff]
        constructor
        · rintro ⟨s₂, hs₂, ha₂⟩
          rw [run_cons, Option.bind_eq_some_iff] at ha₂
          rcases ha₂ with ⟨s₃, ha₃, -⟩
          have heq := run_of_guarded hs₂
          rw [hs₁, Option.some.injEq] at heq
          subst heq
          exact ⟨hs₂, (guarded_step.mp ha₃).1⟩
        · rintro ⟨hs₂, hok⟩
          refine ⟨s₁, hs₂, ?_⟩
          rw [run_cons, guarded_step.mpr ⟨hok, ha⟩]
          rfl
      rw [along_append_singleton, ih hs₁, hguarded, hlast]
      refine and_congr_right fun hs₂ => ?_
      have hP : P s₁ := (ih hs₁).mpr hs₂ as List.prefix_rfl s₁ hs₁
      rw [← hstep s₁ a s (Reachable.init.run hs₂) hP ha]
      simp

end Guarded

/-! ## Histories -/

variable (S) in
/-- A reachable state together with the observable events of a run to it;
{lit}`obs` gives the events of one step. -/
inductive Traced (obs : σ → ℓ → List ε) : σ → List ε → Prop
  | init : Traced obs S.init []
  | step {s s' : σ} {a : ℓ} {tr : List ε} :
      Traced obs s tr → S.step s a = some s' → Traced obs s' (tr ++ obs s a)

theorem Traced.reachable {obs : σ → ℓ → List ε} {s : σ} {tr : List ε}
    (h : S.Traced obs s tr) : S.Reachable s := by
  induction h with
  | init => exact Reachable.init
  | step _ ha ih => exact ih.step ha

/-- Every reachable state has a history. -/
theorem Reachable.traced (obs : σ → ℓ → List ε) {s : σ} (hs : S.Reachable s) :
    ∃ tr, S.Traced obs s tr := by
  induction hs with
  | init => exact ⟨[], Traced.init⟩
  | step _ ha ih =>
      rcases ih with ⟨tr, h⟩
      exact ⟨_, h.step ha⟩

variable (S) in
/-- The events of an executed schedule. -/
def history (obs : σ → ℓ → List ε) (s : σ) : List ℓ → List ε
  | [] => []
  | a :: as =>
      obs s a ++ match S.step s a with
        | some s' => history obs s' as
        | none => []

theorem Traced.run {obs : σ → ℓ → List ε} {s s' : σ} {tr : List ε} {as : List ℓ}
    (hs : S.Traced obs s tr) (h : S.run s as = some s') :
    S.Traced obs s' (tr ++ S.history obs s as) := by
  induction as generalizing s tr with
  | nil =>
      rw [run_nil, Option.some.injEq] at h
      rw [history, List.append_nil]
      exact h ▸ hs
  | cons a as ih =>
      rw [run_cons, Option.bind_eq_some_iff] at h
      rcases h with ⟨s₁, ha, h⟩
      rw [history, ha, ← List.append_assoc]
      exact ih (hs.step ha) h

/-- An executed schedule gives a state with its history. -/
theorem traced_get_run (obs : σ → ℓ → List ε) (as : List ℓ)
    (h : (S.run S.init as).isSome = true) :
    S.Traced obs ((S.run S.init as).get h) (S.history obs S.init as) :=
  Traced.init.run (Option.some_get h).symm

/-- The invariant rule for properties of the state and its history. -/
theorem Traced.invariant {obs : σ → ℓ → List ε} {P : σ → List ε → Prop}
    (hinit : P S.init [])
    (hstep : ∀ s a s' tr, S.Reachable s → P s tr → S.step s a = some s' →
      P s' (tr ++ obs s a))
    {s : σ} {tr : List ε} (h : S.Traced obs s tr) : P s tr := by
  induction h with
  | init => exact hinit
  | step hpre ha ih => exact hstep _ _ _ _ hpre.reachable ih ha

/-! ## Forward simulation -/

/-- A forward simulation that preserves observable events: each concrete step is
matched by one abstract step with the same events, or is silent and matched by
none. -/
structure Simulation (C : System σ ℓ) (A : System τ m)
    (obsC : σ → ℓ → List ε) (obsA : τ → m → List ε) (R : σ → τ → Prop) : Prop where
  /-- The initial states are related. -/
  init : R C.init A.init
  /-- Each concrete step out of a reachable state is matched. -/
  step : ∀ {s a s' t}, C.Reachable s → R s t → C.step s a = some s' →
    (obsC s a = [] ∧ R s' t) ∨
      ∃ b t', A.step t b = some t' ∧ obsA t b = obsC s a ∧ R s' t'

/-- A simulation carries each concrete history to an abstract one. -/
theorem Simulation.traced {C : System σ ℓ} {A : System τ m}
    {obsC : σ → ℓ → List ε} {obsA : τ → m → List ε} {R : σ → τ → Prop}
    (sim : Simulation C A obsC obsA R) {s : σ} {tr : List ε}
    (h : C.Traced obsC s tr) : ∃ t, A.Traced obsA t tr ∧ R s t := by
  induction h with
  | init => exact ⟨A.init, Traced.init, sim.init⟩
  | @step s s' a tr hpre ha ih =>
      rcases ih with ⟨t, ht, hr⟩
      rcases sim.step hpre.reachable hr ha with ⟨hobs, hr'⟩ | ⟨b, t', hb, hobs, hr'⟩
      · refine ⟨t, ?_, hr'⟩
        rw [hobs, List.append_nil]
        exact ht
      · refine ⟨t', ?_, hr'⟩
        rw [← hobs]
        exact ht.step hb

/-- A simulation relates every reachable concrete state to a reachable abstract
one, so that abstract invariants hold of what the relation exposes. -/
theorem Simulation.reachable {C : System σ ℓ} {A : System τ m}
    {obsC : σ → ℓ → List ε} {obsA : τ → m → List ε} {R : σ → τ → Prop}
    (sim : Simulation C A obsC obsA R) {s : σ} (hs : C.Reachable s) :
    ∃ t, A.Reachable t ∧ R s t := by
  rcases hs.traced obsC with ⟨tr, h⟩
  rcases sim.traced h with ⟨t, ht, hr⟩
  exact ⟨t, ht.reachable, hr⟩

/-- A simulation carries the steps that follow a concrete state to abstract ones. -/
theorem Simulation.steps {C : System σ ℓ} {A : System τ m}
    {obsC : σ → ℓ → List ε} {obsA : τ → m → List ε} {R : σ → τ → Prop}
    (sim : Simulation C A obsC obsA R) {s s' : σ} {t : τ} (hs : C.Reachable s)
    (hr : R s t) (h : C.Steps s s') : ∃ t', A.Steps t t' ∧ R s' t' := by
  induction h with
  | refl => exact ⟨t, Relation.ReflTransGen.refl, hr⟩
  | tail hpre h ih =>
      rcases ih with ⟨t₁, ht₁, hr₁⟩
      rcases h with ⟨a, ha⟩
      rcases sim.step (hs.steps hpre) hr₁ ha with ⟨-, hr'⟩ | ⟨b, t', hb, -, hr'⟩
      · exact ⟨t₁, ht₁, hr'⟩
      · exact ⟨t', ht₁.tail ⟨b, hb⟩, hr'⟩

end System

/-! ## Systems of one or two threads -/

/-- The numeral that names the thread of a system of one. -/
instance neZero_one : @NeZero Nat Zero.ofOfNat0 1 :=
  ⟨Nat.one_ne_zero⟩

/-- The numerals that name the threads of a system of two. -/
instance neZero_two : @NeZero Nat Zero.ofOfNat0 2 :=
  ⟨Nat.succ_ne_zero 1⟩
