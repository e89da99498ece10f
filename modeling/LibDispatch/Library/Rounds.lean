import LibDispatch.Library.Transition

/-!
# Schedules by rounds

A schedule names the thread that gets the processor; a thread whose step is not enabled waits
and leaves the state as it is.  When every step that changes the state takes something off a
potential, and the schedule consists of rounds in each of which every thread gets a turn, as
many rounds as the potential at the start lead to a state that no thread changes any more.

Main results:

- Theorem {lit}`Descending.quiescent_of_rounds`: enough rounds lead to a quiescent state.
-/

universe u v w

namespace System

variable {σ : Type u} {ℓ : Type v} {S : System σ ℓ}

variable (S) in
/-- A thread gets a turn: it takes its step, or waits. -/
def attempt (s : σ) (a : ℓ) : σ :=
  (S.step s a).getD s

variable (S) in
/-- The state after a schedule. -/
def attempts (s : σ) (as : List ℓ) : σ :=
  as.foldl S.attempt s

variable (S) in
/-- No thread changes the state. -/
def Quiescent (s : σ) : Prop :=
  ∀ a, S.attempt s a = s

variable (S) in
/-- A schedule in rounds gives every thread a turn in each round. -/
def Rounds (rounds : List (List ℓ)) : Prop :=
  ∀ round ∈ rounds, ∀ a, a ∈ round

variable (S) in
/-- Out of a reachable state, a step changes nothing or takes something off the potential. -/
def Descending (Φ : σ → Nat) : Prop :=
  ∀ s a s', S.Reachable s → S.step s a = some s' → s' = s ∨ Φ s' < Φ s

variable {s s' : σ} {a : ℓ} {as : List ℓ} {Φ : σ → Nat}

/-! ## Turns -/

theorem attempt_of_step (h : S.step s a = some s') : S.attempt s a = s' := by
  rw [attempt, h, Option.getD_some]

theorem attempt_of_none (h : S.step s a = none) : S.attempt s a = s := by
  rw [attempt, h, Option.getD_none]

@[simp]
theorem attempts_nil (s : σ) : S.attempts s [] = s :=
  rfl

@[simp]
theorem attempts_cons (s : σ) (a : ℓ) (as : List ℓ) :
    S.attempts s (a :: as) = S.attempts (S.attempt s a) as :=
  rfl

theorem attempts_append (s : σ) (as bs : List ℓ) :
    S.attempts s (as ++ bs) = S.attempts (S.attempts s as) bs :=
  List.foldl_append

theorem Reachable.attempt (hs : S.Reachable s) (a : ℓ) : S.Reachable (S.attempt s a) := by
  cases h : S.step s a with
  | none => rwa [attempt_of_none h]
  | some s' =>
      rw [attempt_of_step h]
      exact hs.step h

theorem Reachable.attempts (hs : S.Reachable s) (as : List ℓ) :
    S.Reachable (S.attempts s as) := by
  induction as generalizing s with
  | nil => exact hs
  | cons a as ih => exact ih (hs.attempt a)

/-- A quiescent state lasts. -/
theorem Quiescent.attempts (hs : S.Quiescent s) (as : List ℓ) : S.attempts s as = s := by
  induction as with
  | nil => rfl
  | cons a as ih => rw [attempts_cons, hs a, ih]

/-! ## Part of the labels -/

section Scheduled

variable {m : Type w} {s₀ : σ} {f : m → ℓ}

variable (S) in
/-- The system from a state on, when the schedule names only some of the labels. -/
def scheduled (s₀ : σ) (f : m → ℓ) : System σ m where
  init := s₀
  step s a := S.step s (f a)

theorem Reachable.of_scheduled (hs₀ : S.Reachable s₀) (hs : (S.scheduled s₀ f).Reachable s) :
    S.Reachable s := by
  induction hs with
  | init => exact hs₀
  | step _ ha ih => exact ih.step ha

end Scheduled

/-! ## Potentials -/

section Potential

variable (hΦ : S.Descending Φ)
include hΦ

/-- A turn changes nothing or takes something off the potential. -/
theorem Descending.attempt (hs : S.Reachable s) (a : ℓ) :
    S.attempt s a = s ∨ Φ (S.attempt s a) < Φ s := by
  cases h : S.step s a with
  | none => exact Or.inl (attempt_of_none h)
  | some s' =>
      rw [attempt_of_step h]
      exact hΦ s a s' hs h

theorem Descending.attempts_le (hs : S.Reachable s) (as : List ℓ) :
    Φ (S.attempts s as) ≤ Φ s := by
  induction as generalizing s with
  | nil => exact Nat.le_refl _
  | cons a as ih =>
      refine Nat.le_trans (ih (hs.attempt a)) ?_
      rcases hΦ.attempt hs a with heq | hlt
      · exact Nat.le_of_eq (congrArg Φ heq)
      · exact Nat.le_of_lt hlt

/-- No reachable state has a higher potential than the initial one. -/
theorem Descending.le_init (hs : S.Reachable s) : Φ s ≤ Φ S.init := by
  refine hs.invariant (P := fun s => Φ s ≤ Φ S.init) (Nat.le_refl _) ?_
  intro s a s' hr hle hstep
  rcases hΦ s a s' hr hstep with rfl | hlt
  · exact hle
  · omega

/-- A schedule that keeps the potential changes nothing on its way. -/
theorem Descending.attempt_eq_of_le (hs : S.Reachable s) (as : List ℓ)
    (hle : Φ s ≤ Φ (S.attempts s as)) (ha : a ∈ as) : S.attempt s a = s := by
  induction as with
  | nil => cases ha
  | cons b as ih =>
      have hfirst : S.attempt s b = s := by
        rcases hΦ.attempt hs b with heq | hlt
        · exact heq
        · have hrest := hΦ.attempts_le (hs.attempt b) as
          rw [attempts_cons] at hle
          omega
      rcases List.mem_cons.mp ha with rfl | ha
      · exact hfirst
      · rw [attempts_cons, hfirst] at hle
        exact ih hle ha

/-- A round leads on or finds a quiescent state. -/
theorem Descending.round (hs : S.Reachable s) (hround : ∀ a, a ∈ as) :
    S.Quiescent s ∨ Φ (S.attempts s as) < Φ s := by
  by_cases hle : Φ s ≤ Φ (S.attempts s as)
  · exact Or.inl fun a => hΦ.attempt_eq_of_le hs as hle (hround a)
  · exact Or.inr (Nat.lt_of_not_le hle)

/-- As many rounds as the potential says lead to a quiescent state. -/
theorem Descending.quiescent_of_rounds (hs : S.Reachable s) {rounds : List (List ℓ)}
    (hrounds : Rounds rounds) (hlength : Φ s ≤ rounds.length) :
    S.Quiescent (S.attempts s rounds.flatten) := by
  induction rounds generalizing s with
  | nil =>
      intro a
      rcases hΦ.attempt hs a with heq | hlt
      · exact heq
      · simp only [List.length_nil] at hlength
        omega
  | cons round rounds ih =>
      rw [List.flatten_cons, attempts_append]
      rcases hΦ.round hs (hrounds round List.mem_cons_self) with hquiet | hlt
      · rw [hquiet.attempts]
        rw [hquiet.attempts]
        exact hquiet
      · refine ih (hs.attempts round) (fun r hr => hrounds r (List.mem_cons_of_mem _ hr)) ?_
        rw [List.length_cons] at hlength
        omega

end Potential

end System
