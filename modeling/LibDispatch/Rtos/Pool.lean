import LibDispatch.Library.WorkPool
import LibDispatch.Rtos.Barrier

/-!
# The FreeRTOS dispatch queue is a work pool

Seen from outside, a dispatch queue is a pool of {lit}`N` workers over a list of bounded
length.  A task is submitted by {lit}`xQueueSend`, taken by {lit}`xQueueReceive`, and finished
when its function returns; all other statements are invisible.

Main results:

- Theorem {lit}`pool_simulation`: every step is a move of the pool or none.
- Theorem {lit}`rtos_work_pool`: the history of the pool is that of the queue.
-/

namespace LibDispatch
namespace Rtos

variable {N : Nat} {β υ : Type}

/-- The pool that a state stands for. -/
def State.pool (s : State N β υ) : Pool (Fin N) Nat υ where
  queue := s.xQueue
  running i := (s.worker i).pending
  user := s.user

/-- The moves of the pool in a step. -/
def poolEvents (s : State N β υ) : Party N → List (PoolMove (Fin N) Nat)
  | .client =>
      match s.client with
      | .send t _ => [.submit t]
      | _ => []
  | .worker i =>
      match s.worker i, s.xQueue with
      | .receive, t :: _ => [.take i t]
      | .running t, _ => [.finish i t]
      | _, _ => []

/-- What the function of a task does, as the client has prepared it. -/
def DispatchConfig.perform (d : DispatchConfig N β υ) (t : Nat) (u : υ) : υ :=
  dispatchTaskPerform (d.heap.task t) u

section Steps

variable {d : DispatchConfig N β υ} {s s' : State N β υ} {i : Fin N}

/-- The functions and arguments of the tasks stay as they were prepared. -/
def Unchanged (d : DispatchConfig N β υ) (s : State N β υ) : Prop :=
  ∀ t, dispatchTaskPerform (s.heap.task t) = dispatchTaskPerform (d.heap.task t)

/-- A store to {lit}`private_data` changes no function. -/
theorem State.perform_storePrivateData (s : State N β υ) (t : Nat) (p : Option Nat)
    (t' : Nat) : dispatchTaskPerform ((s.storePrivateData t p).heap.task t') =
      dispatchTaskPerform (s.heap.task t') := by
  by_cases h : t' = t
  · subst h
    funext u
    simp [State.storePrivateData, dispatchTaskPerform]
  · simp [State.storePrivateData, h]

theorem unchanged_of_reachable (hs : d.system.Reachable s) : Unchanged d s := by
  refine hs.invariant (P := Unchanged d) (fun _ => rfl) ?_
  intro s a s' _ h hstep
  cases a with
  | worker i => cases (workerStep_of_step hstep).2 <;> exact h
  | client =>
      cases clientStep_of_step hstep with
      | taskAddWaitable t _ _ _ =>
          intro t'
          exact ((s.setCounter s.ip (eventCounterCreate 1)).perform_storePrivateData t _ t').trans
            (h t')
      | groupStore g i t counter _ _ =>
          intro t'
          exact (s.perform_storePrivateData t counter t').trans (h t')
      | send t site _ _ => cases site <;> exact h
      | _ => exact h

/-- The pool after a step of a worker. -/
theorem pool_workerGoto (s : State N β υ) (i : Fin N) (pc : WorkerPc) :
    (s.workerGoto i pc).pool =
      { s.pool with running := Function.update s.pool.running i pc.pending } := by
  have hrunning : (fun j => (Function.update s.worker i pc j).pending) =
      Function.update (fun j => (s.worker j).pending) i pc.pending :=
    Function.comp_update WorkerPc.pending s.worker i pc
  simp only [State.pool, State.workerGoto, hrunning]

/-- A worker that keeps its task. -/
theorem pool_workerGoto_eq (s : State N β υ) {pc : WorkerPc}
    (hpc : pc.pending = (s.worker i).pending) : (s.workerGoto i pc).pool = s.pool := by
  rw [pool_workerGoto, hpc]
  change { s.pool with running := Function.update s.pool.running i (s.pool.running i) } = _
  rw [Function.update_eq_self]

/-- A step of a worker is a move of the pool or none. -/
theorem WorkerStep.pool_step (h : WorkerStep s i s') (hperform : Unchanged d s) :
    (poolEvents s (.worker i) = [] ∧ s'.pool = s.pool) ∨
      ∃ a, (workPool d.perform (some d.length) d.user).step s.pool a = some s'.pool ∧
        [a] = poolEvents s (.worker i) := by
  cases h with
  | receive t rest hk hqueue =>
      refine Or.inr ⟨.take i t, ?_, by simp [poolEvents, hk, hqueue]⟩
      rw [pool_workerGoto]
      simp [workPool, State.pool, hk, hqueue, WorkerPc.pending]
  | running t hk =>
      refine Or.inr ⟨.finish i t, ?_, by simp [poolEvents, hk]⟩
      rw [pool_workerGoto]
      simp [workPool, State.pool, State.record, hk, WorkerPc.pending, DispatchConfig.perform,
        hperform t]
  | _ =>
      have hk := (by assumption : s.worker i = _)
      refine Or.inl ⟨by simp [poolEvents, hk], ?_⟩
      exact pool_workerGoto_eq _ (by
        simp [State.record, State.setCounter, hk, WorkerPc.pending])

/-- A step of the client is a move of the pool or none. -/
theorem ClientStep.pool_step (h : ClientStep d s s') :
    (poolEvents s .client = [] ∧ s'.pool = s.pool) ∨
      ∃ a, (workPool d.perform (some d.length) d.user).step s.pool a = some s'.pool ∧
        [a] = poolEvents s .client := by
  cases h with
  | send t site hk hroom =>
      refine Or.inr ⟨.submit t, ?_, by simp [poolEvents, hk]⟩
      have hpool : (({ s with xQueue := s.xQueue ++ [t] }.record fun h =>
          { h with sent := h.sent ++ [t] }).sent site).pool =
          { s.pool with queue := s.pool.queue ++ [t] } := by
        cases site <;> rfl
      rw [hpool]
      simp [workPool, State.pool, hroom]
  | _ =>
      have hk := (by assumption : s.client = _)
      exact Or.inl ⟨by simp [poolEvents, hk], rfl⟩

/-- The FreeRTOS dispatch queue simulates a pool of its workers over a list of its length. -/
theorem pool_simulation (d : DispatchConfig N β υ) :
    System.Simulation d.system (workPool d.perform (some d.length) d.user) poolEvents
      PoolMove.events fun s p => p = s.pool where
  init := rfl
  step := by
    rintro s a s' _ hs rfl h
    have hcases : (poolEvents s a = [] ∧ s'.pool = s.pool) ∨
        ∃ b, (workPool d.perform (some d.length) d.user).step s.pool b = some s'.pool ∧
          [b] = poolEvents s a := by
      cases a with
      | client => exact (clientStep_of_step h).pool_step
      | worker i => exact (workerStep_of_step h).2.pool_step (unchanged_of_reachable hs)
    rcases hcases with ⟨hobs, hpool⟩ | ⟨b, hstep, hobs⟩
    · exact Or.inl ⟨hobs, hpool.symm⟩
    · exact Or.inr ⟨b, s'.pool, hstep, hobs, rfl⟩

/-- The tasks that the pool has taken in and finished are those that were sent and those that
have returned. -/
theorem poolHistory_of_traced {tr : List (PoolMove (Fin N) Nat)}
    (h : d.system.Traced poolEvents s tr) :
    submittedTasks tr = s.history.sent ∧ finishedTasks tr = s.history.returned := by
  refine h.invariant (P := fun s tr => submittedTasks tr = s.history.sent ∧
    finishedTasks tr = s.history.returned) ⟨rfl, rfl⟩ ?_
  rintro s a s' tr - ⟨hsent, hreturned⟩ hstep
  rw [submittedTasks_append, finishedTasks_append, hsent, hreturned]
  cases a with
  | client =>
      cases clientStep_of_step hstep with
      | send t site hk _ => cases site <;> simp [poolEvents, hk, State.sent, State.record,
          State.ret, State.goto]
      | _ =>
          have hk := (by assumption : s.client = _)
          simp [poolEvents, hk, submittedTasks, finishedTasks, State.goto, State.ret,
            State.record, State.release, State.setCounter, State.storePrivateData]
  | worker i =>
      cases (workerStep_of_step hstep).2 with
      | receive t rest hk hqueue => simp [poolEvents, hk, hqueue, State.workerGoto]
      | _ =>
          have hk := (by assumption : s.worker i = _)
          simp [poolEvents, hk, submittedTasks, finishedTasks, State.workerGoto, State.record,
            State.setCounter]

/-- The pool has the events of the run. -/
theorem pool_of_traced {tr : List (PoolMove (Fin N) Nat)} (h : d.system.Traced poolEvents s tr) :
    (workPool d.perform (some d.length) d.user).Traced PoolMove.events s.pool tr := by
  rcases (pool_simulation d).traced h with ⟨_, hpool, rfl⟩
  exact hpool

end Steps

/-- The FreeRTOS dispatch queue is a work pool: every run is a run of the pool that submits
what the client has sent and takes it in that order; the queue never exceeds its length; and
the user state is the effect of the functions that have returned, in the order of their
returns. -/
theorem rtos_work_pool (d : DispatchConfig N β υ) {s : State N β υ}
    {tr : List (PoolMove (Fin N) Nat)} (h : d.system.Traced poolEvents s tr) :
    (workPool d.perform (some d.length) d.user).Traced PoolMove.events s.pool tr ∧
      submittedTasks tr = s.history.sent ∧ finishedTasks tr = s.history.returned ∧
      s.history.sent = takenTasks tr ++ s.xQueue ∧ s.xQueue.length ≤ d.length ∧
      s.user = s.history.returned.foldl (fun u t => d.perform t u) d.user := by
  have hpool := pool_of_traced h
  rcases poolHistory_of_traced h with ⟨hsent, hreturned⟩
  rcases workPool_history hpool with ⟨hqueue, huser, hlength⟩
  exact ⟨hpool, hsent, hreturned, hsent ▸ hqueue, hlength d.length rfl, hreturned ▸ huser⟩

/-- A task is submitted, taken and finished. -/
theorem rtos_work_pool_oneTask :
    (workPool oneTask.perform (some 1) 0).Traced PoolMove.events
        (oneTaskAfter (oneTaskSent ++ oneTaskDone) (by decide)).pool
        (oneTask.system.history poolEvents oneTask.system.init
          (oneTaskSent ++ oneTaskDone)) ∧
      (oneTaskAfter (oneTaskSent ++ oneTaskDone) (by decide)).user = 1 := by
  have h := rtos_work_pool oneTask
    (oneTask.system.traced_get_run poolEvents (oneTaskSent ++ oneTaskDone) (by decide))
  exact ⟨h.1, h.2.2.2.2.2.trans (by decide)⟩

end Rtos
end LibDispatch
