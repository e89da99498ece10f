import Mathlib.Logic.Function.Basic
import LibDispatch.Library.Transition

/-!
# Locks with an owner

A lock is modelled by its owner, {lit}`none` when it is free.  The program text
says at which points a thread holds the lock; {lit}`OwnedBy owner holds` states
that the two agree.  The three rules below are what one step of one thread can do
to this agreement: leave the lock alone, take it while it is free, give it back.

A lock as a system of its own has these two moves only.  Whatever takes and gives back a
lock by the three rules, in one step or in many, is simulated by it.

Main results:

- Theorem {lit}`OwnedBy.exclusive`: at most one thread is at a holding point.
- Theorems {lit}`OwnedBy.keep`, {lit}`OwnedBy.acquire`, {lit}`OwnedBy.release`: the
  step rules, and {lit}`OwnedBy.step`, the three in one.
- Theorem {lit}`atomicLock_simulation`: positions that change by the three rules refine
  the atomic lock.
-/

universe u v w x

variable {ι : Type u} {π : Type v}

/-- The recorded owner is exactly the thread whose position holds the lock. -/
def OwnedBy (owner : Option ι) (holds : π → Prop) (pos : ι → π) : Prop :=
  ∀ t, owner = some t ↔ holds (pos t)

namespace OwnedBy

variable {owner : Option ι} {holds : π → Prop} {pos : ι → π} {t u : ι} {p : π}

/-- Mutual exclusion. -/
theorem exclusive (h : OwnedBy owner holds pos) (ht : holds (pos t)) (hu : holds (pos u)) :
    t = u :=
  Option.some.inj (((h t).mpr ht).symm.trans ((h u).mpr hu))

theorem not_holds_of_free (h : OwnedBy none holds pos) (t : ι) : ¬ holds (pos t) := by
  intro ht
  cases (h t).mpr ht

variable [DecidableEq ι]

/-- A step that leaves the lock alone. -/
theorem keep (h : OwnedBy owner holds pos) (hp : holds p ↔ holds (pos t)) :
    OwnedBy owner holds (Function.update pos t p) := by
  intro u
  by_cases hu : u = t
  · subst hu
    rw [Function.update_self, hp]
    exact h u
  · rw [Function.update_of_ne hu]
    exact h u

/-- Taking a free lock. -/
theorem acquire (h : OwnedBy none holds pos) (hp : holds p) :
    OwnedBy (some t) holds (Function.update pos t p) := by
  intro u
  by_cases hu : u = t
  · subst hu
    simpa using hp
  · rw [Function.update_of_ne hu]
    constructor
    · intro heq
      exact absurd (Option.some.inj heq).symm hu
    · intro hh
      exact absurd hh (h.not_holds_of_free u)

/-- Giving the lock back. -/
theorem release (h : OwnedBy owner holds pos) (ht : holds (pos t)) (hp : ¬ holds p) :
    OwnedBy none holds (Function.update pos t p) := by
  intro u
  by_cases hu : u = t
  · subst hu
    simpa using hp
  · rw [Function.update_of_ne hu]
    constructor
    · intro heq
      cases heq
    · intro hh
      exact absurd (h.exclusive hh ht) hu

/-- The three rules in one, for a step that is known to do one of the three. -/
theorem step {owner' : Option ι} (h : OwnedBy owner holds pos)
    (hcases : (owner' = owner ∧ (holds p ↔ holds (pos t))) ∨
      (owner = none ∧ owner' = some t ∧ holds p) ∨
      (holds (pos t) ∧ owner' = none ∧ ¬ holds p)) :
    OwnedBy owner' holds (Function.update pos t p) := by
  rcases hcases with ⟨rfl, hp⟩ | ⟨rfl, rfl, hp⟩ | ⟨ht, rfl, hp⟩
  · exact h.keep hp
  · exact h.acquire hp
  · exact h.release ht hp

end OwnedBy

/-! ## The atomic lock -/

/-- The moves of a lock. -/
inductive LockMove (ι : Type u) where
  | acquire (t : ι)
  | release (t : ι)
deriving DecidableEq, Repr

/-- A lock whose owner changes in one step: a free lock is taken by a thread, and given
back by its owner. -/
def atomicLock (ι : Type u) [DecidableEq ι] : System (Option ι) (LockMove ι) where
  init := none
  step owner
    | .acquire t => if owner = none then some (some t) else none
    | .release t => if owner = some t then some none else none

/-- Every move of the atomic lock is observed. -/
def LockMove.events (_ : Option ι) (a : LockMove ι) : List (LockMove ι) :=
  [a]

section Simulation

variable {σ : Type w} {ℓ : Type x} [DecidableEq ι] {C : System σ ℓ} {pos : σ → ι → π}
  {holds : π → Prop} {obs : σ → ℓ → List (LockMove ι)}

/-- What one step does to the lock: thread {lit}`t` goes on, and the holding positions do
not change, or it gets to one while there is nobody at any, or it leaves one. -/
inductive LockStep (holds : π → Prop) (pos pos' : ι → π) : List (LockMove ι) → Prop where
  | keep (t : ι) (p : π) (hpos : pos' = Function.update pos t p)
      (hp : holds p ↔ holds (pos t)) : LockStep holds pos pos' []
  | acquire (t : ι) (p : π) (hpos : pos' = Function.update pos t p)
      (hnone : ∀ u, ¬ holds (pos u)) (hp : holds p) : LockStep holds pos pos' [.acquire t]
  | release (t : ι) (p : π) (hpos : pos' = Function.update pos t p) (ht : holds (pos t))
      (hp : ¬ holds p) : LockStep holds pos pos' [.release t]

/-- A system whose positions change by the three rules refines the atomic lock, and the
owner of the atomic lock is the thread at a holding position. -/
theorem atomicLock_simulation (hinit : ∀ t, ¬ holds (pos C.init t))
    (hstep : ∀ s a s', C.Reachable s → C.step s a = some s' →
      LockStep holds (pos s) (pos s') (obs s a)) :
    System.Simulation C (atomicLock ι) obs LockMove.events
      fun s owner => OwnedBy owner holds (pos s) where
  init := by
    intro t
    simp [atomicLock, hinit t]
  step := by
    intro s a s' owner hs hr ha
    generalize hobs : obs s a = events
    have hlock := hstep s a s' hs ha
    rw [hobs] at hlock
    cases hlock with
    | keep t p hpos hp => exact Or.inl ⟨rfl, hpos ▸ hr.keep hp⟩
    | acquire t p hpos hnone hp =>
        have hfree : owner = none := by
          cases howner : owner with
          | none => rfl
          | some u => exact absurd ((hr u).mp howner) (hnone u)
        subst hfree
        exact Or.inr ⟨.acquire t, some t, by simp [atomicLock], rfl, hpos ▸ hr.acquire hp⟩
    | release t p hpos ht hp =>
        have howner : owner = some t := (hr t).mpr ht
        exact Or.inr ⟨.release t, none, by simp [atomicLock, howner], rfl, hpos ▸ hr.release ht hp⟩

end Simulation
