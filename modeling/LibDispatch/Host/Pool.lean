import LibDispatch.Library.WorkPool
import LibDispatch.Host.Tickets

/-!
# The host dispatch queue is a work pool

Seen from outside, the host dispatch queue is a pool of {lit}`N` workers over an unbounded list,
whatever the number of its clients.  A task is submitted by {lit}`push_back`, taken by
{lit}`pop_front`, and finished when its function returns.  The lock, the condition variable with
its lost notifications and spurious wake-ups, and the ready semaphores are invisible.

Main results:

- Theorem {lit}`pool_simulation`: every step is a move of the pool or none.
- Theorem {lit}`host_work_pool`: the history of the pool is that of the queue.
-/

namespace LibDispatch
namespace Host

variable {C : Type} {N : Nat} {β υ : Type}

/-- The task that a worker has popped and whose function has not returned. -/
def WorkerPc.pending : WorkerPc C → Option Nat
  | .unlock t | .perform t | .running t => some t
  | _ => none

/-- The pool that a state stands for. -/
def State.pool (s : State C N β υ) : Pool (Fin N) Nat υ where
  queue := s.deque
  running i := (s.worker i).pending
  user := s.user

/-- The moves of the pool in a step. -/
def poolEvents (s : State C N β υ) : Label C N → List (PoolMove (Fin N) Nat)
  | .client c =>
      match (s.client c).pc with
      | .push t _ => [.submit t]
      | _ => []
  | .worker i =>
      match s.worker i, s.deque with
      | .pop, t :: _ => [.take i t]
      | .running t, _ => [.finish i t]
      | _, _ => []
  | _ => []

/-- What the function of a task does, as the clients have prepared it. -/
def DispatchConfig.perform (d : DispatchConfig C N β υ) (t : Nat) (u : υ) : υ :=
  dispatchTaskPerform (d.heap.task t) u

/-- The functions and arguments of the tasks stay as they were prepared. -/
def Unchanged (d : DispatchConfig C N β υ) (s : State C N β υ) : Prop :=
  ∀ t, dispatchTaskPerform (s.heap.task t) = dispatchTaskPerform (d.heap.task t)

theorem WorkerPc.WokenTo.pending_eq {pc pc' : WorkerPc C} (h : pc.WokenTo pc') :
    pc'.pending = pc.pending := by
  rcases h with rfl | ⟨rfl, rfl⟩ <;> rfl

/-- A wake-up is invisible. -/
theorem pool_wakeWorker {s : State C N β υ} {i : Fin N} (hw : s.worker i = .blocked) :
    (s.wakeWorker i).pool = s.pool := by
  have hrunning : ∀ j, ((s.wakeWorker i).worker j).pending = (s.worker j).pending :=
    fun j => (State.wokenTo_wakeWorker hw j).pending_eq
  simp only [State.pool, hrunning]
  rfl

/-- The pool after a step of a worker. -/
theorem pool_workerGoto (s : State C N β υ) (i : Fin N) (pc : WorkerPc C) :
    (s.workerGoto i pc).pool =
      { s.pool with running := Function.update s.pool.running i pc.pending } := by
  have hrunning : (fun j => (Function.update s.worker i pc j).pending) =
      Function.update (fun j => (s.worker j).pending) i pc.pending :=
    Function.comp_update WorkerPc.pending s.worker i pc
  simp only [State.pool, State.workerGoto, hrunning]

/-- A worker that keeps its task. -/
theorem pool_workerGoto_eq (s : State C N β υ) {i : Fin N} {pc : WorkerPc C}
    (hpc : pc.pending = (s.worker i).pending) : (s.workerGoto i pc).pool = s.pool := by
  rw [pool_workerGoto, hpc]
  change { s.pool with running := Function.update s.pool.running i (s.pool.running i) } = _
  rw [Function.update_eq_self]

variable [DecidableEq C]

section Steps

variable {d : DispatchConfig C N β υ} {s s' : State C N β υ} {c : C} {i : Fin N}

theorem unchanged_of_reachable (hs : d.system.Reachable s) : Unchanged d s := by
  refine hs.invariant (P := Unchanged d) (fun _ => rfl) fun s l s' hs h hstep => ?_
  refine step_rule hs h hstep (fun s c s' _ h hstep => ?_) (fun _ _ _ _ h hstep => ?_)
    (fun _ _ _ h _ => h) (fun s c site h _ => ?_) fun _ _ _ h _ _ => h
  · cases hstep with
    | store t site counter _ _ =>
        intro t'
        rw [← h t']
        by_cases ht : t' = t
        · subst ht
          funext u
          simp [State.goto, State.storePrivateData, dispatchTaskPerform]
        · simp [State.goto, State.storePrivateData, ht]
    | notifyLost site _ _ => cases site <;> exact h
    | _ => exact h
  · cases hstep <;> exact h
  · cases site <;> exact h

/-- A step of a worker is a move of the pool or none. -/
theorem WorkerStep.pool_step (h : WorkerStep s i s') (hperform : Unchanged d s) :
    (poolEvents s (.worker i) = [] ∧ s'.pool = s.pool) ∨
      ∃ a, (workPool d.perform none d.user).step s.pool a = some s'.pool ∧
        [a] = poolEvents s (.worker i) := by
  cases h with
  | pop t rest hk hdeque =>
      refine Or.inr ⟨.take i t, ?_, by simp [poolEvents, hk, hdeque]⟩
      rw [pool_workerGoto]
      simp [workPool, State.pool, State.record, hk, hdeque, WorkerPc.pending]
  | running t hk =>
      refine Or.inr ⟨.finish i t, ?_, by simp [poolEvents, hk]⟩
      rw [pool_workerGoto]
      simp [workPool, State.pool, State.record, hk, WorkerPc.pending, DispatchConfig.perform,
        hperform t]
  | _ =>
      have hk := (by assumption : s.worker i = _)
      refine Or.inl ⟨by simp [poolEvents, hk], ?_⟩
      exact pool_workerGoto_eq _ (by
        simp [State.record, State.setCounter, State.notifySemaphore, State.notifyCounter, hk,
          WorkerPc.pending])

/-- A step of a client is a move of the pool or none. -/
theorem ClientStep.pool_step (h : ClientStep d s c s') :
    (poolEvents s (.client c) = [] ∧ s'.pool = s.pool) ∨
      ∃ a, (workPool d.perform none d.user).step s.pool a = some s'.pool ∧
        [a] = poolEvents s (.client c) := by
  cases h with
  | push t site hk =>
      refine Or.inr ⟨.submit t, ?_, by simp [poolEvents, hk]⟩
      simp [workPool, State.pool, State.goto, State.record]
  | notifyLost site hk _ =>
      refine Or.inl ⟨by simp [poolEvents, hk], ?_⟩
      cases site <;> rfl
  | notifyAll hk =>
      refine Or.inl ⟨by simp [poolEvents, hk], ?_⟩
      have hrunning : ∀ j, ((s.notifyWorkers).worker j).pending = (s.worker j).pending :=
        fun j => (WorkerPc.wokenTo_wake (s.worker j)).pending_eq
      simp only [State.pool, State.goto, hrunning]
      rfl
  | _ =>
      have hk := (by assumption : (s.client c).pc = _)
      exact Or.inl ⟨by simp [poolEvents, hk], rfl⟩

/-- Every step is a move of the pool or none. -/
theorem pool_step {l : Label C N} (hs : d.system.Reachable s)
    (h : d.system.step s l = some s') :
    (poolEvents s l = [] ∧ s'.pool = s.pool) ∨
      ∃ a, (workPool d.perform none d.user).step s.pool a = some s'.pool ∧
        [a] = poolEvents s l := by
  rcases step_cases h with ⟨c, rfl, hclient⟩ | ⟨i, rfl, hworker⟩ |
    ⟨c, i, site, rfl, -, hw, rfl⟩ | ⟨i, rfl, hw, rfl⟩ | ⟨c, counter, ts, rfl, -, rfl⟩ |
    ⟨c, i, rfl, -, rfl⟩
  · exact hclient.pool_step
  · exact hworker.pool_step (unchanged_of_reachable hs)
  · refine Or.inl ⟨rfl, Eq.trans ?_ (pool_wakeWorker hw)⟩
    cases site <;> rfl
  · exact Or.inl ⟨rfl, pool_wakeWorker hw⟩
  · exact Or.inl ⟨rfl, rfl⟩
  · exact Or.inl ⟨rfl, rfl⟩

/-- The host dispatch queue simulates a pool of its workers over an unbounded list. -/
theorem pool_simulation (d : DispatchConfig C N β υ) :
    System.Simulation d.system (workPool d.perform none d.user) poolEvents PoolMove.events
      fun s p => p = s.pool where
  init := rfl
  step := by
    rintro s l s' _ hs rfl h
    rcases pool_step hs h with ⟨hobs, hpool⟩ | ⟨a, hstep, hobs⟩
    · exact Or.inl ⟨hobs, hpool.symm⟩
    · exact Or.inr ⟨a, s'.pool, hstep, hobs, rfl⟩

/-- The tasks that the pool has taken in, handed out and finished are those that were pushed,
those that were popped, and those whose function has returned. -/
theorem poolHistory_of_traced {tr : List (PoolMove (Fin N) Nat)}
    (h : d.system.Traced poolEvents s tr) :
    submittedTasks tr = s.history.pushed ∧ takenTasks tr = s.history.popped ∧
      finishedTasks tr = s.history.tasksOf s.history.returned ∧
      ∀ k ∈ s.history.returned, k < s.history.popped.length := by
  refine h.invariant (P := fun s tr => submittedTasks tr = s.history.pushed ∧
    takenTasks tr = s.history.popped ∧
    finishedTasks tr = s.history.tasksOf s.history.returned ∧
    ∀ k ∈ s.history.returned, k < s.history.popped.length) ⟨rfl, rfl, rfl, by rintro k ⟨⟩⟩ ?_
  rintro s l s' tr hs ⟨hpushed, hpopped, hreturned, hlt⟩ hstep
  rw [submittedTasks_append, takenTasks_append, finishedTasks_append, hpushed, hpopped, hreturned]
  have hsame : ∀ {s' : State C N β υ}, s'.history.pushed = s.history.pushed →
      s'.history.popped = s.history.popped → s'.history.returned = s.history.returned →
      poolEvents s l = [] →
      s.history.pushed ++ submittedTasks (poolEvents s l) = s'.history.pushed ∧
      s.history.popped ++ takenTasks (poolEvents s l) = s'.history.popped ∧
      s.history.tasksOf s.history.returned ++ finishedTasks (poolEvents s l) =
        s'.history.tasksOf s'.history.returned ∧
      ∀ k ∈ s'.history.returned, k < s'.history.popped.length := by
    intro s' hpush hpop hret hobs
    rw [hobs, hpush, hpop, hret]
    refine ⟨List.append_nil _, List.append_nil _, ?_, hlt⟩
    rw [show finishedTasks ([] : List (PoolMove (Fin N) Nat)) = [] from rfl, List.append_nil,
      History.tasksOf, History.tasksOf, hpop]
  rcases step_cases hstep with ⟨c, rfl, hclient⟩ | ⟨i, rfl, hworker⟩ |
    ⟨c, i, site, rfl, -, hw, rfl⟩ | ⟨i, rfl, hw, rfl⟩ | ⟨c, counter, ts, rfl, -, rfl⟩ |
    ⟨c, i, rfl, -, rfl⟩
  · cases hclient with
    | push t site hk =>
        refine ⟨by simp [poolEvents, hk, State.goto, State.record], ?_, ?_, hlt⟩
        · simp [poolEvents, hk, State.goto, State.record]
        · simp [poolEvents, hk, State.goto, State.record, History.tasksOf]
    | notifyLost site hk _ => cases site <;> exact hsame rfl rfl rfl (by simp [poolEvents, hk])
    | _ =>
        have hk := (by assumption : (s.client c).pc = _)
        exact hsame rfl rfl rfl (by simp [poolEvents, hk])
  · cases hworker with
    | pop t rest hk hdeque =>
        refine ⟨by simp [poolEvents, hk, hdeque, State.workerGoto, State.record],
          by simp [poolEvents, hk, hdeque, State.workerGoto, State.record], ?_, fun k hk => ?_⟩
        · rw [show finishedTasks (poolEvents s (.worker i)) = [] by simp [poolEvents, hk, hdeque],
            List.append_nil]
          exact (History.tasksOf_mono (List.prefix_append _ [t]) hlt).symm
        · simpa [State.workerGoto, State.record] using Nat.lt_succ_of_lt (hlt k hk)
    | running t hk =>
        have hticket : s.history.popped[s.history.ticket i]? = some t :=
          (accounted_of_reachable hs).task i t (by rw [hk]; rfl)
        refine ⟨by simp [poolEvents, hk, State.workerGoto, State.record],
          by simp [poolEvents, hk, State.workerGoto, State.record], ?_, fun k hmem => ?_⟩
        · rw [show finishedTasks (poolEvents s (.worker i)) = [t] by simp [poolEvents, hk]]
          exact (History.tasksOf_concat hticket).symm
        · rcases List.mem_append.mp hmem with hmem | hmem
          · exact hlt k hmem
          · rw [List.mem_singleton.mp hmem]
            exact (List.getElem?_eq_some_iff.mp hticket).1
    | _ =>
        have hk := (by assumption : s.worker i = _)
        exact hsame rfl rfl rfl (by simp [poolEvents, hk])
  · cases site <;> exact hsame rfl rfl rfl rfl
  · exact hsame rfl rfl rfl rfl
  · exact hsame rfl rfl rfl rfl
  · exact hsame rfl rfl rfl rfl

/-- The pool has the events of the run. -/
theorem pool_of_traced {tr : List (PoolMove (Fin N) Nat)} (h : d.system.Traced poolEvents s tr) :
    (workPool d.perform none d.user).Traced PoolMove.events s.pool tr := by
  rcases (pool_simulation d).traced h with ⟨_, hpool, rfl⟩
  exact hpool

end Steps

/-- The host dispatch queue, with any number of clients and workers, is a work pool: every run
is a run of the pool that submits what the clients have pushed and takes it in that order, and
the user state is the effect of the functions that have returned, in the order of their
returns. -/
theorem host_work_pool (d : DispatchConfig C N β υ) {s : State C N β υ}
    {tr : List (PoolMove (Fin N) Nat)} (h : d.system.Traced poolEvents s tr) :
    (workPool d.perform none d.user).Traced PoolMove.events s.pool tr ∧
      submittedTasks tr = s.history.pushed ∧ takenTasks tr = s.history.popped ∧
      finishedTasks tr = s.history.tasksOf s.history.returned ∧
      s.user = (s.history.tasksOf s.history.returned).foldl (fun u t => d.perform t u)
        d.user := by
  have hpool := pool_of_traced h
  rcases poolHistory_of_traced h with ⟨hpushed, hpopped, hreturned, -⟩
  exact ⟨hpool, hpushed, hpopped, hreturned, hreturned ▸ (workPool_history hpool).2.1⟩

/-- A task is submitted, taken and finished. -/
theorem host_work_pool_oneTask :
    (workPool oneTask.perform none 0).Traced PoolMove.events oneTaskAfter.pool
        (oneTask.system.history poolEvents oneTask.system.init
          (oneTaskAdded ++ oneTaskWaited)) ∧
      oneTaskAfter.user = 1 := by
  have h := host_work_pool oneTask
    (oneTask.system.traced_get_run poolEvents (oneTaskAdded ++ oneTaskWaited) oneTaskWaited_run)
  exact ⟨h.1, h.2.2.2.2.trans (by decide +kernel)⟩

end Host
end LibDispatch
