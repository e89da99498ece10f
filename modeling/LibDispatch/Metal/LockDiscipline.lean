import LibDispatch.Library.Ownership
import LibDispatch.Metal.QueueSteps
import LibDispatch.Metal.Threads

/-!
# Who holds the mutex and the spinlock

The mutex of a queue is taken by the queue function, given back and taken again
inside {lit}`condition_variable_wait`, and given back at the end.  This file says at
which positions a thread holds the mutex and the spinlock of the condition
variable, and proves that this agrees with the owners recorded in the locks in
every reachable state of every caller, {lit}`queue_delete` included.

Main results:

- Theorem {lit}`Queue.step_mutex`: what a statement does to the mutex.
- Theorem {lit}`Queue.step_cvLock`: what a statement does to the spinlock.
- Theorem {lit}`locked_of_reachable`: positions and owners agree.
-/

namespace LibDispatch
namespace Metal

variable {ι χ α κ μ : Type}

/-! ## Positions that hold a lock -/

/-- Positions at which a thread holds the queue's mutex. -/
def Pc.holdsMutex : Pc α → Bool
  | .test _ => true
  | .wait _ at_ => match at_ with
      | .lock | .link | .unlock | .release => true
      | .chanIn | .reacquire | .leave => false
  | .store _ | .overwrite _ | .advanceHead _ | .setFull _ => true
  | .load | .clearFull _ | .advanceTail _ => true
  | .broadcast _ _ | .unlock _ | .sizeRead => true
  | _ => false

/-- Positions of {lit}`conditionVariableWake` inside the spinlock. -/
def WakePc.holdsLock : WakePc → Bool
  | .lock => false
  | .test | .ack | .unlink | .unlock => true

/-- Positions at which a thread holds the spinlock of the condition variable. -/
def Pc.holdsCvLock : Pc α → Bool
  | .wait _ at_ => match at_ with
      | .link | .unlock => true
      | .lock | .release | .chanIn | .reacquire | .leave => false
  | .broadcast _ at_ | .terminate at_ => at_.holdsLock
  | _ => false

/-- The mutex is held after a step of a queue function. -/
def Control.holdsMutex : Control α → Bool
  | .goto pc => pc.holdsMutex
  | .ret _ => false

/-- The spinlock is held after a step of a queue function. -/
def Control.holdsCvLock : Control α → Bool
  | .goto pc => pc.holdsCvLock
  | .ret _ => false

/-- The thread holds the mutex. -/
def Thread.HoldsMutex : Thread κ α → Prop
  | .outside _ => False
  | .inside _ pc => pc.holdsMutex = true

/-- The thread holds the spinlock. -/
def Thread.HoldsCvLock : Thread κ α → Prop
  | .outside _ => False
  | .inside _ pc => pc.holdsCvLock = true

@[simp]
theorem Thread.holdsMutex_outside (k : κ) : ¬ (Thread.outside k : Thread κ α).HoldsMutex :=
  id

@[simp]
theorem Thread.holdsMutex_inside (k : κ) (pc : Pc α) :
    (Thread.inside k pc).HoldsMutex ↔ pc.holdsMutex = true :=
  Iff.rfl

@[simp]
theorem Thread.holdsCvLock_outside (k : κ) : ¬ (Thread.outside k : Thread κ α).HoldsCvLock :=
  id

@[simp]
theorem Thread.holdsCvLock_inside (k : κ) (pc : Pc α) :
    (Thread.inside k pc).HoldsCvLock ↔ pc.holdsCvLock = true :=
  Iff.rfl

@[simp]
theorem Thread.holdsMutex_resume (caller : Caller ι κ μ α) (t : ι) (k : κ) (c : Control α) :
    (Thread.resume caller t k c).HoldsMutex ↔ c.holdsMutex = true := by
  cases c <;> simp [Thread.resume, Control.holdsMutex]

@[simp]
theorem Thread.holdsCvLock_resume (caller : Caller ι κ μ α) (t : ι) (k : κ) (c : Control α) :
    (Thread.resume caller t k c).HoldsCvLock ↔ c.holdsCvLock = true := by
  cases c <;> simp [Thread.resume, Control.holdsCvLock]

/-- A call starts without the mutex. -/
@[simp]
theorem Call.holdsMutex_entry (c : Call α) : c.entry.holdsMutex = false := by
  cases c <;> rfl

/-- A call starts without the spinlock. -/
@[simp]
theorem Call.holdsCvLock_entry (c : Call α) : c.entry.holdsCvLock = false := by
  cases c <;> rfl

/-- The position after the waiting loop is inside the critical section. -/
@[simp]
theorem QueueOp.holdsMutex_proceed (op : QueueOp α) : op.proceed.holdsMutex = true := by
  cases op <;> rfl

@[simp]
theorem QueueOp.holdsCvLock_proceed (op : QueueOp α) : op.proceed.holdsCvLock = false := by
  cases op <;> rfl

/-! ## What a statement does to the locks -/

section Steps

variable [DecidableEq ι] [DecidableEq χ] {wiring : Wiring ι χ} {q q' : Queue ι χ α} {t : ι}
  {pc : Pc α} {c : Control α}

omit [DecidableEq ι] in
/-- The waking loop does not touch the mutex. -/
theorem WakeStep.mutex_eq {evt : ConditionEvent} {at_ at' : WakePc}
    (h : WakeStep evt wiring q t at_ q' at') : q'.mutex = q.mutex := by
  cases h <;> rfl

/-- A statement leaves the mutex alone, takes it while it is free, or gives it
back while holding it. -/
theorem Queue.step_mutex (h : q.step wiring t pc = some (q', c)) :
    (q'.mutex = q.mutex ∧ c.holdsMutex = pc.holdsMutex) ∨
    (q.mutex = none ∧ q'.mutex = some t ∧ pc.holdsMutex = false ∧ c.holdsMutex = true) ∨
    (pc.holdsMutex = true ∧ q'.mutex = none ∧ c.holdsMutex = false) := by
  cases queueStep_of_step h with
  | lock op hfree => exact Or.inr (Or.inl ⟨hfree, rfl, rfl, rfl⟩)
  | reacquire op hfree => exact Or.inr (Or.inl ⟨hfree, rfl, rfl, rfl⟩)
  | sizeLock hfree => exact Or.inr (Or.inl ⟨hfree, rfl, rfl, rfl⟩)
  | waitRelease op => exact Or.inr (Or.inr ⟨rfl, rfl, rfl⟩)
  | unlock result => exact Or.inr (Or.inr ⟨rfl, rfl, rfl⟩)
  | testProceed op _ => exact Or.inl ⟨rfl, op.holdsMutex_proceed⟩
  | overwrite item =>
      refine Or.inl ⟨?_, rfl⟩
      split <;> rfl
  | broadcast result at_ at' _ hwake =>
      exact Or.inl ⟨(wakeStep_of_wake hwake).mutex_eq, rfl⟩
  | terminate at_ at' _ hwake =>
      exact Or.inl ⟨(wakeStep_of_wake hwake).mutex_eq, rfl⟩
  | _ => exact Or.inl ⟨rfl, rfl⟩

omit [DecidableEq ι] in
/-- A turn of the waking loop takes the spinlock at its start and keeps it. -/
theorem WakeStep.cvLock_cases {evt : ConditionEvent} {at_ at' : WakePc}
    (h : WakeStep evt wiring q t at_ q' at') :
    (q'.cvLock = q.cvLock ∧ at'.holdsLock = at_.holdsLock) ∨
    (q.cvLock = none ∧ q'.cvLock = some t ∧ at_.holdsLock = false ∧ at'.holdsLock = true) := by
  cases h with
  | lock hfree => exact Or.inr ⟨hfree, rfl, rfl, rfl⟩
  | _ => exact Or.inl ⟨rfl, rfl⟩

/-- A statement leaves the spinlock alone, takes it while it is free, or gives it
back while holding it. -/
theorem Queue.step_cvLock (h : q.step wiring t pc = some (q', c)) :
    (q'.cvLock = q.cvLock ∧ c.holdsCvLock = pc.holdsCvLock) ∨
    (q.cvLock = none ∧ q'.cvLock = some t ∧ pc.holdsCvLock = false ∧
      c.holdsCvLock = true) ∨
    (pc.holdsCvLock = true ∧ q'.cvLock = none ∧ c.holdsCvLock = false) := by
  cases queueStep_of_step h with
  | waitLock op hfree => exact Or.inr (Or.inl ⟨hfree, rfl, rfl, rfl⟩)
  | waitUnlock op => exact Or.inr (Or.inr ⟨rfl, rfl, rfl⟩)
  | broadcastDone result => exact Or.inr (Or.inr ⟨rfl, rfl, rfl⟩)
  | terminateDone => exact Or.inr (Or.inr ⟨rfl, rfl, rfl⟩)
  | testProceed op _ => exact Or.inl ⟨rfl, op.holdsCvLock_proceed⟩
  | overwrite item =>
      refine Or.inl ⟨?_, rfl⟩
      split <;> rfl
  | broadcast result at_ at' _ hwake =>
      rcases (wakeStep_of_wake hwake).cvLock_cases with hsame | htake
      · exact Or.inl hsame
      · exact Or.inr (Or.inl htake)
  | terminate at_ at' _ hwake =>
      rcases (wakeStep_of_wake hwake).cvLock_cases with hsame | htake
      · exact Or.inl hsame
      · exact Or.inr (Or.inl htake)
  | _ => exact Or.inl ⟨rfl, rfl⟩

end Steps

/-! ## The invariant -/

/-- The owners recorded in the two locks are the threads at holding positions. -/
structure Locked (s : State ι χ α κ μ) : Prop where
  mutex : OwnedBy s.queue.mutex Thread.HoldsMutex s.thread
  cvLock : OwnedBy s.queue.cvLock Thread.HoldsCvLock s.thread

variable [DecidableEq ι] [DecidableEq χ] {wiring : Wiring ι χ} {caller : Caller ι κ μ α}
  {length : Nat} {env : μ} {start : ι → κ}

theorem locked_init : Locked (threads wiring caller length env start).init where
  mutex := by
    intro t
    simp [threads, queueCreate]
  cvLock := by
    intro t
    simp [threads, queueCreate]

/-- One step of one thread keeps positions and owners in agreement. -/
theorem Locked.step {s s' : State ι χ α κ μ} {t : ι} (hs : Locked s)
    (h : (threads wiring caller length env start).step s t = some s') : Locked s' := by
  rcases threads_step_cases h with
    ⟨k, c, hk, -, rfl⟩ | ⟨k, k', env', hk, -, -, rfl⟩ | ⟨k, pc, q', c, hk, hstep, rfl⟩
  · exact ⟨hs.mutex.keep (by simp [hk]), hs.cvLock.keep (by simp [hk])⟩
  · exact ⟨hs.mutex.keep (by simp [hk]), hs.cvLock.keep (by simp [hk])⟩
  · constructor
    · apply hs.mutex.step
      rcases Queue.step_mutex hstep with ⟨hq, hc⟩ | ⟨hfree, hq, -, hc⟩ | ⟨hpc, hq, hc⟩
      · exact Or.inl ⟨hq, by simp [hk, hc]⟩
      · exact Or.inr (Or.inl ⟨hfree, hq, by simp [hc]⟩)
      · exact Or.inr (Or.inr ⟨by simp [hk, hpc], hq, by simp [hc]⟩)
    · apply hs.cvLock.step
      rcases Queue.step_cvLock hstep with ⟨hq, hc⟩ | ⟨hfree, hq, -, hc⟩ | ⟨hpc, hq, hc⟩
      · exact Or.inl ⟨hq, by simp [hk, hc]⟩
      · exact Or.inr (Or.inl ⟨hfree, hq, by simp [hc]⟩)
      · exact Or.inr (Or.inr ⟨by simp [hk, hpc], hq, by simp [hc]⟩)

/-- In every reachable state of every caller, the mutex and the spinlock are owned
by exactly the threads whose positions hold them. -/
theorem locked_of_reachable {s : State ι χ α κ μ}
    (hs : (threads wiring caller length env start).Reachable s) : Locked s :=
  hs.invariant locked_init fun _ _ _ _ hl h => hl.step h

end Metal
end LibDispatch
