import LibDispatch.Rtos.DispatchQueue

/-!
# The statements of the FreeRTOS dispatch queue, case by case

The step function of the dispatch queue can be executed.  The proofs about it argue by
cases on the statement that was executed; this file states those cases once, for the
client and for a worker, and proves that every step is one of them.

Main results:

- Theorem {lit}`clientStep_of_step`: every step of the client is a {lit}`ClientStep`.
- Theorem {lit}`workerStep_of_step`: every step of a worker is a {lit}`WorkerStep`.
-/

namespace LibDispatch
namespace Rtos

variable {N : Nat} {β υ : Type}

/-- The steps of the client, one constructor for each case of {lit}`clientStep`. -/
inductive ClientStep (d : DispatchConfig N β υ) (s : State N β υ) : State N β υ → Prop where
  | setReadyBits (hk : s.client = .setReadyBits) :
      ClientStep d s ({ s with xEventGroup := s.xEventGroup ||| xReadyBits N }.goto .ready)
  -- the start of a call
  | taskAddWaitable (t : Nat) (hk : s.client = .ready)
      (hcall : d.prog[s.ip]? = some (.taskAdd t)) (hw : (s.heap.task t).waitable = true) :
      ClientStep d s (((s.setCounter s.ip (eventCounterCreate 1)).storePrivateData t
        (some s.ip)).goto (.send t .task))
  | taskAddPlain (t : Nat) (hk : s.client = .ready)
      (hcall : d.prog[s.ip]? = some (.taskAdd t)) (hw : (s.heap.task t).waitable = false) :
      ClientStep d s (s.goto (.send t .task))
  | groupAddWaitable (g : Nat) (hk : s.client = .ready)
      (hcall : d.prog[s.ip]? = some (.groupAdd g)) (hw : (s.heap.group g).waitable = true) :
      ClientStep d s ((s.setCounter s.ip (eventCounterCreate (s.heap.group g).count)).goto
        (.groupLoop g 0 (some s.ip)))
  | groupAddPlain (g : Nat) (hk : s.client = .ready)
      (hcall : d.prog[s.ip]? = some (.groupAdd g)) (hw : (s.heap.group g).waitable = false) :
      ClientStep d s (s.goto (.groupLoop g 0 none))
  | taskWait (t c : Nat) (hk : s.client = .ready)
      (hcall : d.prog[s.ip]? = some (.taskWait t)) (hw : (s.heap.task t).waitable = true)
      (hdata : (s.heap.task t).privateData = some c) :
      ClientStep d s (s.goto (.takeSemaphore c [t]))
  | groupWait (g t c : Nat) (ts : List Nat) (hk : s.client = .ready)
      (hcall : d.prog[s.ip]? = some (.groupWait g)) (hw : (s.heap.group g).waitable = true)
      (htasks : (s.heap.group g).tasks = t :: ts)
      (hdata : (s.heap.task t).privateData = some c) :
      ClientStep d s (s.goto (.takeSemaphore c (t :: ts)))
  | wait (hk : s.client = .ready) (hcall : d.prog[s.ip]? = some .wait) :
      ClientStep d s (s.goto .waitEmpty)
  | delete (hk : s.client = .ready) (hcall : d.prog[s.ip]? = some .delete) :
      ClientStep d s (s.goto (.deleteThread 0))
  -- adding tasks
  | groupDone (g i : Nat) (counter : Option Nat) (hk : s.client = .groupLoop g i counter)
      (hend : (s.heap.group g).tasks[i]? = none) : ClientStep d s s.ret
  | groupStore (g i t : Nat) (counter : Option Nat) (hk : s.client = .groupLoop g i counter)
      (htask : (s.heap.group g).tasks[i]? = some t) :
      ClientStep d s ((s.storePrivateData t counter).goto (.send t (.member g i counter)))
  | send (t : Nat) (site : AddSite) (hk : s.client = .send t site)
      (hroom : s.xQueue.length < d.length) :
      ClientStep d s (({ s with xQueue := s.xQueue ++ [t] }.record fun h =>
        { h with sent := h.sent ++ [t] }).sent site)
  -- the functions that wait
  | takeSemaphore (c : Nat) (ts : List Nat) (hk : s.client = .takeSemaphore c ts)
      (hgiven : (s.counter c).given = true) :
      ClientStep d s ((s.setCounter c { s.counter c with given := false }).goto
        (.deleteSemaphore c ts))
  | deleteSemaphore (c : Nat) (ts : List Nat) (hk : s.client = .deleteSemaphore c ts) :
      ClientStep d s ((s.record fun h =>
        { h with semaphoreDeleted := h.semaphoreDeleted ++ [c] }).goto (.freeCounter c ts))
  | freeCounter (c : Nat) (ts : List Nat) (hk : s.client = .freeCounter c ts) :
      ClientStep d s ((s.record fun h =>
        { h with counterFreed := h.counterFreed ++ [c] }).goto (.deleteTasks ts))
  | deleteTask (t : Nat) (ts : List Nat) (hk : s.client = .deleteTasks (t :: ts)) :
      ClientStep d s ((s.record fun h => { h with taskFreed := h.taskFreed ++ [t] }).goto
        (.deleteTasks ts))
  | deleteDone (hk : s.client = .deleteTasks []) : ClientStep d s s.ret
  | waitAgain (hk : s.client = .waitEmpty) (hqueue : s.xQueue.length ≠ 0) :
      ClientStep d s (s.goto .waitEmpty)
  | waitEmptied (hk : s.client = .waitEmpty) (hqueue : s.xQueue.length = 0) :
      ClientStep d s (s.goto .waitBits)
  | waitBits (hk : s.client = .waitBits)
      (hbits : s.xEventGroup &&& xReadyBits N = xReadyBits N) : ClientStep d s s.ret
  -- deleting the dispatch queue
  | deleteThread (i : Nat) (hi : i < N) (hk : s.client = .deleteThread i) :
      ClientStep d s ((s.release (.thread ⟨i, hi⟩)).goto (.deleteThread (i + 1)))
  | threadsDeleted (i : Nat) (hi : ¬ i < N) (hk : s.client = .deleteThread i) :
      ClientStep d s (s.goto .freeWorkerData)
  | freeWorkerData (hk : s.client = .freeWorkerData) :
      ClientStep d s ((s.release .workerData).goto .freeThreads)
  | freeThreads (hk : s.client = .freeThreads) :
      ClientStep d s ((s.release .threads).goto .deleteEventGroup)
  | deleteEventGroup (hk : s.client = .deleteEventGroup) :
      ClientStep d s ((s.release .xEventGroup).goto .deleteQueue)
  | deleteQueue (hk : s.client = .deleteQueue) : ClientStep d s (s.release .xQueue).ret

/-- The steps of worker {lit}`i`, one constructor for each case of {lit}`workerStep`. -/
inductive WorkerStep (s : State N β υ) (i : Fin N) : State N β υ → Prop where
  | receive (t : Nat) (rest : List Nat) (hk : s.worker i = .receive)
      (hqueue : s.xQueue = t :: rest) :
      WorkerStep s i ({ s with xQueue := rest }.workerGoto i (.clearBit t))
  | clearBit (t : Nat) (hk : s.worker i = .clearBit t) :
      WorkerStep s i ({ s with xEventGroup := s.xEventGroup &&& ~~~ xReadyBit i }.workerGoto i
        (.perform t))
  | perform (t : Nat) (hk : s.worker i = .perform t) :
      WorkerStep s i ((s.record fun h => { h with called := h.called ++ [t] }).workerGoto i
        (.running t))
  | running (t : Nat) (hk : s.worker i = .running t) :
      WorkerStep s i
        (({ s with user := dispatchTaskPerform (s.heap.task t) s.user }.record fun h =>
          { h with returned := h.returned ++ [t] }).workerGoto i (.testWaitable t))
  | testWaitable (t : Nat) (hk : s.worker i = .testWaitable t)
      (hw : (s.heap.task t).waitable = true) :
      WorkerStep s i (s.workerGoto i (.readCounter t))
  | testPlain (t : Nat) (hk : s.worker i = .testWaitable t)
      (hw : (s.heap.task t).waitable = false) : WorkerStep s i (s.workerGoto i (.delete t))
  | readCounter (t c : Nat) (hk : s.worker i = .readCounter t)
      (hdata : (s.heap.task t).privateData = some c) :
      WorkerStep s i (s.workerGoto i (.decrement c))
  | decrementLast (c : Nat) (hk : s.worker i = .decrement c)
      (hlast : 0 < (s.counter c).count ∧ (s.counter c).count - 1 = 0) :
      WorkerStep s i ((s.setCounter c { s.counter c with
        count := (s.counter c).count - 1 }).workerGoto i (.give c))
  | decrement (c : Nat) (hk : s.worker i = .decrement c)
      (hlast : ¬ (0 < (s.counter c).count ∧ (s.counter c).count - 1 = 0)) :
      WorkerStep s i ((s.setCounter c { s.counter c with
        count := (s.counter c).count - 1 }).workerGoto i .setBit)
  | give (c : Nat) (hk : s.worker i = .give c) :
      WorkerStep s i ((s.setCounter c { s.counter c with given := true }).workerGoto i .setBit)
  | delete (t : Nat) (hk : s.worker i = .delete t) :
      WorkerStep s i ((s.record fun h =>
        { h with taskFreed := h.taskFreed ++ [t] }).workerGoto i .setBit)
  | setBit (hk : s.worker i = .setBit) :
      WorkerStep s i ({ s with xEventGroup := s.xEventGroup ||| xReadyBit i }.workerGoto i
        .receive)

variable {d : DispatchConfig N β υ} {s s' : State N β υ} {i : Fin N}

/-- Every start of a call is one of the listed steps. -/
theorem ClientStep.of_startCall {call : DispatchCall} (hk : s.client = .ready)
    (hcall : d.prog[s.ip]? = some call) (h : s.startCall call = some s') :
    ClientStep d s s' := by
  cases call with
  | taskAdd t =>
      cases hw : (s.heap.task t).waitable with
      | true =>
          simp only [State.startCall, hw, if_true, Option.some.injEq] at h
          exact h ▸ .taskAddWaitable t hk hcall hw
      | false =>
          simp only [State.startCall, hw, Bool.false_eq_true, if_false, Option.some.injEq] at h
          exact h ▸ .taskAddPlain t hk hcall hw
  | groupAdd g =>
      cases hw : (s.heap.group g).waitable with
      | true =>
          simp only [State.startCall, hw, if_true, Option.some.injEq] at h
          exact h ▸ .groupAddWaitable g hk hcall hw
      | false =>
          simp only [State.startCall, hw, Bool.false_eq_true, if_false, Option.some.injEq] at h
          exact h ▸ .groupAddPlain g hk hcall hw
  | taskWait t =>
      simp only [State.startCall, Option.ite_none_right_eq_some, Option.map_eq_some_iff] at h
      rcases h with ⟨hw, c, hdata, rfl⟩
      exact .taskWait t c hk hcall hw hdata
  | groupWait g =>
      simp only [State.startCall, Option.ite_none_right_eq_some] at h
      rcases h with ⟨hw, h⟩
      cases htasks : (s.heap.group g).tasks with
      | nil => simp [htasks] at h
      | cons t ts =>
          simp only [htasks, Option.map_eq_some_iff] at h
          rcases h with ⟨c, hdata, rfl⟩
          exact .groupWait g t c ts hk hcall hw htasks hdata
  | wait =>
      cases h
      exact .wait hk hcall
  | delete =>
      cases h
      exact .delete hk hcall

/-- Every step of the client is one of the listed ones. -/
theorem clientStep_of_step (h : d.clientStep s = some s') : ClientStep d s s' := by
  cases hk : s.client with
  | setReadyBits =>
      simp only [DispatchConfig.clientStep, hk, Option.some.injEq] at h
      exact h ▸ .setReadyBits hk
  | ready =>
      simp only [DispatchConfig.clientStep, hk, Option.bind_eq_some_iff] at h
      rcases h with ⟨call, hcall, h⟩
      exact .of_startCall hk hcall h
  | groupLoop g i counter =>
      simp only [DispatchConfig.clientStep, hk] at h
      cases htask : (s.heap.group g).tasks[i]? with
      | none =>
          simp only [htask, Option.some.injEq] at h
          exact h ▸ .groupDone g i counter hk htask
      | some t =>
          simp only [htask, Option.some.injEq] at h
          exact h ▸ .groupStore g i t counter hk htask
  | send t site =>
      simp only [DispatchConfig.clientStep, hk, Option.ite_none_right_eq_some,
        Option.some.injEq] at h
      exact h.2 ▸ .send t site hk h.1
  | takeSemaphore c ts =>
      simp only [DispatchConfig.clientStep, hk, Option.ite_none_right_eq_some,
        Option.some.injEq] at h
      exact h.2 ▸ .takeSemaphore c ts hk h.1
  | deleteSemaphore c ts =>
      simp only [DispatchConfig.clientStep, hk, Option.some.injEq] at h
      exact h ▸ .deleteSemaphore c ts hk
  | freeCounter c ts =>
      simp only [DispatchConfig.clientStep, hk, Option.some.injEq] at h
      exact h ▸ .freeCounter c ts hk
  | deleteTasks ts =>
      cases ts with
      | nil =>
          simp only [DispatchConfig.clientStep, hk, Option.some.injEq] at h
          exact h ▸ .deleteDone hk
      | cons t ts =>
          simp only [DispatchConfig.clientStep, hk, Option.some.injEq] at h
          exact h ▸ .deleteTask t ts hk
  | waitEmpty =>
      simp only [DispatchConfig.clientStep, hk, Option.some.injEq] at h
      by_cases hqueue : s.xQueue.length = 0
      · rw [if_pos hqueue] at h
        exact h ▸ .waitEmptied hk hqueue
      · rw [if_neg hqueue] at h
        exact h ▸ .waitAgain hk hqueue
  | waitBits =>
      simp only [DispatchConfig.clientStep, hk, Option.ite_none_right_eq_some,
        Option.some.injEq] at h
      exact h.2 ▸ .waitBits hk h.1
  | deleteThread i =>
      by_cases hi : i < N
      · simp only [DispatchConfig.clientStep, hk, hi, dif_pos, Option.some.injEq] at h
        exact h ▸ .deleteThread i hi hk
      · simp only [DispatchConfig.clientStep, hk, hi, dif_neg, not_false_eq_true,
          Option.some.injEq] at h
        exact h ▸ .threadsDeleted i hi hk
  | freeWorkerData =>
      simp only [DispatchConfig.clientStep, hk, Option.some.injEq] at h
      exact h ▸ .freeWorkerData hk
  | freeThreads =>
      simp only [DispatchConfig.clientStep, hk, Option.some.injEq] at h
      exact h ▸ .freeThreads hk
  | deleteEventGroup =>
      simp only [DispatchConfig.clientStep, hk, Option.some.injEq] at h
      exact h ▸ .deleteEventGroup hk
  | deleteQueue =>
      simp only [DispatchConfig.clientStep, hk, Option.some.injEq] at h
      exact h ▸ .deleteQueue hk

/-- Every step of a worker is one of the listed ones, and the worker was not deleted. -/
theorem workerStep_of_step (h : workerStep s i = some s') :
    s.released (.thread i) = false ∧ WorkerStep s i s' := by
  cases hdeleted : s.released (.thread i) with
  | true => simp [workerStep, hdeleted] at h
  | false =>
      refine ⟨rfl, ?_⟩
      simp only [workerStep, hdeleted, Bool.false_eq_true, if_false] at h
      cases hk : s.worker i with
      | receive =>
          simp only [hk] at h
          cases hqueue : s.xQueue with
          | nil => simp [hqueue] at h
          | cons t rest =>
              simp only [hqueue, Option.some.injEq] at h
              exact h ▸ .receive t rest hk hqueue
      | clearBit t =>
          simp only [hk, Option.some.injEq] at h
          exact h ▸ .clearBit t hk
      | perform t =>
          simp only [hk, Option.some.injEq] at h
          exact h ▸ .perform t hk
      | running t =>
          simp only [hk, Option.some.injEq] at h
          exact h ▸ .running t hk
      | testWaitable t =>
          simp only [hk, Option.some.injEq] at h
          cases hw : (s.heap.task t).waitable with
          | true =>
              simp only [hw, if_true] at h
              exact h ▸ .testWaitable t hk hw
          | false =>
              simp only [hw, Bool.false_eq_true, if_false] at h
              exact h ▸ .testPlain t hk hw
      | readCounter t =>
          simp only [hk, Option.map_eq_some_iff] at h
          rcases h with ⟨c, hdata, rfl⟩
          exact .readCounter t c hk hdata
      | decrement c =>
          simp only [hk, Option.some.injEq] at h
          by_cases hlast : 0 < (s.counter c).count ∧ (s.counter c).count - 1 = 0
          · rw [if_pos hlast] at h
            exact h ▸ .decrementLast c hk hlast
          · rw [if_neg hlast] at h
            exact h ▸ .decrement c hk hlast
      | give c =>
          simp only [hk, Option.some.injEq] at h
          exact h ▸ .give c hk
      | delete t =>
          simp only [hk, Option.some.injEq] at h
          exact h ▸ .delete t hk
      | setBit =>
          simp only [hk, Option.some.injEq] at h
          exact h ▸ .setBit hk

end Rtos
end LibDispatch
