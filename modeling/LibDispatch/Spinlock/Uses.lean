import LibDispatch.Spinlock.Exclusion
import LibDispatch.Metal.LockDiscipline

/-!
# The spinlock of the condition variable

The model of the bare-metal queue takes {lit}`cv->lock` in one step.  The atomic lock that
the instructions of the spinlock refine is the lock that this model uses: in every run of
every caller, the owner recorded in the queue is the state of an atomic lock that makes
the moves of the threads.

Main results:

- Theorem {lit}`cvLock_simulation`: the bare-metal queue uses an atomic lock.
-/

namespace LibDispatch
namespace Metal

variable {ι χ α κ μ : Type} [DecidableEq ι] [DecidableEq χ]

/-- The moves of the spinlock in a step of a thread. -/
def cvLockEvents (wiring : Wiring ι χ) (s : State ι χ α κ μ) (t : ι) : List (LockMove ι) :=
  match s.thread t with
  | .outside _ => []
  | .inside _ pc =>
      match s.queue.step wiring t pc with
      | some (_, c) =>
          if c.holdsCvLock = pc.holdsCvLock then []
          else if c.holdsCvLock = true then [.acquire t] else [.release t]
      | none => []

/-- The threads take and give back {lit}`cv->lock` as an atomic lock is taken and given back,
and the owner recorded in the queue is its state. -/
theorem cvLock_simulation (wiring : Wiring ι χ) (caller : Caller ι κ μ α) (length : Nat)
    (env : μ) (start : ι → κ) :
    System.Simulation (threads wiring caller length env start) (atomicLock ι)
      (cvLockEvents wiring) LockMove.events fun s owner => owner = s.queue.cvLock where
  init := rfl
  step := by
    rintro s t s' owner hs rfl h
    have hlocked := locked_of_reachable hs
    rcases threads_step_cases h with
      ⟨k, c, hk, -, rfl⟩ | ⟨k, k', env', hk, -, -, rfl⟩ | ⟨k, pc, q', c, hk, hstep, rfl⟩
    · exact Or.inl ⟨by simp [cvLockEvents, hk], rfl⟩
    · exact Or.inl ⟨by simp [cvLockEvents, hk], rfl⟩
    · rcases Queue.step_cvLock hstep with
        ⟨hq, hc⟩ | ⟨hfree, hq, hpc, hc⟩ | ⟨hpc, hq, hc⟩
      · exact Or.inl ⟨by simp [cvLockEvents, hk, hstep, hc], hq.symm⟩
      · refine Or.inr ⟨.acquire t, some t, by simp [atomicLock, hfree], ?_, hq.symm⟩
        simp [cvLockEvents, LockMove.events, hk, hstep, hpc, hc]
      · have howner : s.queue.cvLock = some t := (hlocked.cvLock t).mpr (by simp [hk, hpc])
        refine Or.inr ⟨.release t, none, by simp [atomicLock, howner], ?_, hq.symm⟩
        simp [cvLockEvents, LockMove.events, hk, hstep, hpc, hc]

end Metal
end LibDispatch
