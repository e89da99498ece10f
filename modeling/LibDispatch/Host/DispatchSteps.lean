import LibDispatch.Host.DispatchQueue

/-!
# The statements of the host dispatch queue, case by case

The proofs about the host backend argue by cases on the statement that was executed; this
file states those cases once, for a client and for a worker, and proves that every step
is one of them or a wake-up.

Main results:

- Theorem {lit}`clientStep_of_step`: every step of a client is a {lit}`ClientStep`.
- Theorem {lit}`workerStep_of_step`: every step of a worker is a {lit}`WorkerStep`.
- Theorem {lit}`step_cases`: everything one step of the system can do.
-/

namespace LibDispatch
namespace Host

variable {C : Type} {N : Nat} {β υ : Type} [DecidableEq C]

/-- The steps of client {lit}`c`, one constructor for each case of {lit}`clientStep`. -/
inductive ClientStep (d : DispatchConfig C N β υ) (s : State C N β υ) (c : C) :
    State C N β υ → Prop where
  -- the start of a call
  | taskAddWaitable (t : Nat) (hk : (s.client c).pc = .ready)
      (hcall : (d.prog c)[(s.client c).ip]? = some (.taskAdd t))
      (hw : (s.heap.task t).waitable = true) :
      ClientStep d s c ((s.setCounter (c, (s.client c).ip) 1).goto c
        (.store t (.task (some (c, (s.client c).ip)))))
  | taskAddPlain (t : Nat) (hk : (s.client c).pc = .ready)
      (hcall : (d.prog c)[(s.client c).ip]? = some (.taskAdd t))
      (hw : (s.heap.task t).waitable = false) :
      ClientStep d s c (s.goto c (.store t (.task none)))
  | groupAddWaitable (g : Nat) (hk : (s.client c).pc = .ready)
      (hcall : (d.prog c)[(s.client c).ip]? = some (.groupAdd g))
      (hw : (s.heap.group g).waitable = true) :
      ClientStep d s c ((s.setCounter (c, (s.client c).ip) (s.heap.group g).count).goto c
        (.groupLoop g 0 (some (c, (s.client c).ip))))
  | groupAddPlain (g : Nat) (hk : (s.client c).pc = .ready)
      (hcall : (d.prog c)[(s.client c).ip]? = some (.groupAdd g))
      (hw : (s.heap.group g).waitable = false) :
      ClientStep d s c (s.goto c (.groupLoop g 0 none))
  | taskWait (t : Nat) (counter : C × Nat) (hk : (s.client c).pc = .ready)
      (hcall : (d.prog c)[(s.client c).ip]? = some (.taskWait t))
      (hw : (s.heap.task t).waitable = true)
      (hdata : (s.heap.task t).privateData = some counter) :
      ClientStep d s c (s.goto c (.counterWait counter [t]))
  | groupWait (g t : Nat) (ts : List Nat) (counter : C × Nat) (hk : (s.client c).pc = .ready)
      (hcall : (d.prog c)[(s.client c).ip]? = some (.groupWait g))
      (hw : (s.heap.group g).waitable = true) (htasks : (s.heap.group g).tasks = t :: ts)
      (hdata : (s.heap.task t).privateData = some counter) :
      ClientStep d s c (s.goto c (.counterWait counter []))
  | wait (hk : (s.client c).pc = .ready)
      (hcall : (d.prog c)[(s.client c).ip]? = some .wait) : ClientStep d s c (s.goto c .waitLock)
  | delete (hk : (s.client c).pc = .ready)
      (hcall : (d.prog c)[(s.client c).ip]? = some .delete) :
      ClientStep d s c (s.goto c .quitLock)
  -- adding tasks
  | groupDone (g i : Nat) (counter : Option (C × Nat))
      (hk : (s.client c).pc = .groupLoop g i counter)
      (hend : (s.heap.group g).tasks[i]? = none) : ClientStep d s c (s.ret c)
  | groupNext (g i t : Nat) (counter : Option (C × Nat))
      (hk : (s.client c).pc = .groupLoop g i counter)
      (htask : (s.heap.group g).tasks[i]? = some t) :
      ClientStep d s c (s.goto c (.store t (.member g i counter)))
  | store (t : Nat) (site : AddSite C) (counter : C × Nat) (hk : (s.client c).pc = .store t site)
      (hcounter : site.counter = some counter) :
      ClientStep d s c ((s.storePrivateData t (some counter)).goto c (.addLock t site))
  | storeNone (t : Nat) (site : AddSite C) (hk : (s.client c).pc = .store t site)
      (hcounter : site.counter = none) : ClientStep d s c (s.goto c (.addLock t site))
  | addLock (t : Nat) (site : AddSite C) (hk : (s.client c).pc = .addLock t site)
      (hfree : s.lock = none) :
      ClientStep d s c ({ s with lock := some (.inl c) }.goto c (.push t site))
  | push (t : Nat) (site : AddSite C) (hk : (s.client c).pc = .push t site) :
      ClientStep d s c (({ s with deque := s.deque ++ [t] }.record fun h =>
        { h with pushed := h.pushed ++ [t] }).goto c (.addUnlock site))
  | addUnlock (site : AddSite C) (hk : (s.client c).pc = .addUnlock site) :
      ClientStep d s c ({ s with lock := none }.goto c (.notify site))
  | notifyLost (site : AddSite C) (hk : (s.client c).pc = .notify site)
      (hnone : ∀ i, s.worker i ≠ .blocked) : ClientStep d s c (s.added c site)
  -- the functions that wait for a task or a group
  | counterZero (counter : C × Nat) (ts : List Nat)
      (hk : (s.client c).pc = .counterWait counter ts) (hzero : s.counter counter = 0) :
      ClientStep d s c (s.goto c (.deleteCounter counter ts))
  | counterBlock (counter : C × Nat) (ts : List Nat)
      (hk : (s.client c).pc = .counterWait counter ts) (hcount : s.counter counter ≠ 0) :
      ClientStep d s c (s.goto c (.counterBlocked counter ts))
  | deleteCounter (counter : C × Nat) (ts : List Nat)
      (hk : (s.client c).pc = .deleteCounter counter ts) :
      ClientStep d s c ((s.record fun h =>
        { h with counterFreed := h.counterFreed ++ [counter] }).goto c (.deleteTasks ts))
  | deleteTask (t : Nat) (ts : List Nat) (hk : (s.client c).pc = .deleteTasks (t :: ts)) :
      ClientStep d s c ((s.record fun h =>
        { h with waitFreed := h.waitFreed ++ [t] }).goto c (.deleteTasks ts))
  | deleteDone (hk : (s.client c).pc = .deleteTasks []) : ClientStep d s c (s.ret c)
  -- dispatch_queue_wait
  | waitLock (hk : (s.client c).pc = .waitLock) (hfree : s.lock = none) :
      ClientStep d s c ({ s with lock := some (.inl c) }.goto c .waitSize)
  | waitSize (hk : (s.client c).pc = .waitSize) :
      ClientStep d s c (s.goto c (.waitUnlock s.deque.length))
  | waitEmptied (hk : (s.client c).pc = .waitUnlock 0) :
      ClientStep d s c ({ s with lock := none }.goto c (.semaphoreWait 0))
  | waitAgain (count : Nat) (hk : (s.client c).pc = .waitUnlock count) (hcount : count ≠ 0) :
      ClientStep d s c ({ s with lock := none }.goto c .waitLock)
  | semaphoreReady (i : Nat) (hi : i < N) (hk : (s.client c).pc = .semaphoreWait i)
      (hzero : s.semaphore ⟨i, hi⟩ = 0) : ClientStep d s c (s.goto c (.semaphoreWait (i + 1)))
  | semaphoreBlock (i : Nat) (hi : i < N) (hk : (s.client c).pc = .semaphoreWait i)
      (hcount : s.semaphore ⟨i, hi⟩ ≠ 0) : ClientStep d s c (s.goto c (.semaphoreBlocked i))
  | semaphoreDone (i : Nat) (hi : ¬ i < N) (hk : (s.client c).pc = .semaphoreWait i) :
      ClientStep d s c (s.ret c)
  -- dispatch_queue_delete
  | quitLock (hk : (s.client c).pc = .quitLock) (hfree : s.lock = none) :
      ClientStep d s c ({ s with lock := some (.inl c) }.goto c .setQuit)
  | setQuit (hk : (s.client c).pc = .setQuit) :
      ClientStep d s c ({ s with quit := true }.goto c .quitUnlock)
  | quitUnlock (hk : (s.client c).pc = .quitUnlock) :
      ClientStep d s c ({ s with lock := none }.goto c .notifyAll)
  | notifyAll (hk : (s.client c).pc = .notifyAll) :
      ClientStep d s c (s.notifyWorkers.goto c (.join 0))
  | join (i : Nat) (hi : i < N) (hk : (s.client c).pc = .join i)
      (hexited : s.worker ⟨i, hi⟩ = .exited) : ClientStep d s c (s.goto c (.join (i + 1)))
  | joined (i : Nat) (hi : ¬ i < N) (hk : (s.client c).pc = .join i) :
      ClientStep d s c (s.goto c (.deleteSemaphore 0))
  | deleteSemaphore (i : Nat) (hi : i < N) (hk : (s.client c).pc = .deleteSemaphore i) :
      ClientStep d s c ({ s with
        released := Function.update s.released (.semaphore ⟨i, hi⟩) true }.goto c
          (.deleteSemaphore (i + 1)))
  | semaphoresDeleted (i : Nat) (hi : ¬ i < N) (hk : (s.client c).pc = .deleteSemaphore i) :
      ClientStep d s c (s.goto c .deleteQueue)
  | deleteQueue (hk : (s.client c).pc = .deleteQueue) :
      ClientStep d s c ({ s with
        released := Function.update s.released .dispatchQueue true }.ret c)

/-- The steps of worker {lit}`i`, one constructor for each case of {lit}`workerStep`. -/
inductive WorkerStep (s : State C N β υ) (i : Fin N) : State C N β υ → Prop where
  | start (hk : s.worker i = .start) (hfree : s.lock = none) :
      WorkerStep s i ({ s with lock := some (.inr i) }.workerGoto i .readySignal)
  | readySignal (hk : s.worker i = .readySignal) :
      WorkerStep s i ({ s with
        semaphore := Function.update s.semaphore i
          (signalCount (s.semaphore i)) }.workerGoto i .readyTest)
  | readyZero (hk : s.worker i = .readyTest) (hzero : s.semaphore i = 0) :
      WorkerStep s i (s.workerGoto i .readyNotify)
  | readyNonzero (hk : s.worker i = .readyTest) (hcount : s.semaphore i ≠ 0) :
      WorkerStep s i (s.workerGoto i .waitTest)
  | readyNotify (hk : s.worker i = .readyNotify) :
      WorkerStep s i ((s.notifySemaphore i).workerGoto i .waitTest)
  | waitPass (hk : s.worker i = .waitTest) (hpred : s.deque.length ≠ 0 ∨ s.quit = true) :
      WorkerStep s i (s.workerGoto i .testTask)
  | waitBlock (hk : s.worker i = .waitTest)
      (hpred : ¬ (s.deque.length ≠ 0 ∨ s.quit = true)) :
      WorkerStep s i (({ s with lock := none }.record fun h =>
        { h with woken := Function.update h.woken i false }).workerGoto i .blocked)
  | woken (hk : s.worker i = .woken) (hfree : s.lock = none) :
      WorkerStep s i ({ s with lock := some (.inr i) }.workerGoto i .waitTest)
  | testTask (hk : s.worker i = .testTask) (htask : s.quit = false ∧ s.deque.length ≠ 0) :
      WorkerStep s i (s.workerGoto i .reset)
  | testNone (hk : s.worker i = .testTask)
      (htask : ¬ (s.quit = false ∧ s.deque.length ≠ 0)) :
      WorkerStep s i (s.workerGoto i .loopTest)
  | reset (hk : s.worker i = .reset) :
      WorkerStep s i ({ s with
        semaphore := Function.update s.semaphore i 1 }.workerGoto i .pop)
  | pop (t : Nat) (rest : List Nat) (hk : s.worker i = .pop) (hdeque : s.deque = t :: rest) :
      WorkerStep s i (({ s with deque := rest }.record fun h =>
        { h with
          popped := h.popped ++ [t]
          ticket := Function.update h.ticket i h.popped.length
          woken := Function.update h.woken i false }).workerGoto i (.unlock t))
  | unlock (t : Nat) (hk : s.worker i = .unlock t) :
      WorkerStep s i ({ s with lock := none }.workerGoto i (.perform t))
  | perform (t : Nat) (hk : s.worker i = .perform t) :
      WorkerStep s i (s.workerGoto i (.running t))
  | running (t : Nat) (hk : s.worker i = .running t) :
      WorkerStep s i
        (({ s with user := dispatchTaskPerform (s.heap.task t) s.user }.record fun h =>
          { h with returned := h.returned ++ [h.ticket i] }).workerGoto i (.testWaitable t))
  | testWaitable (t : Nat) (hk : s.worker i = .testWaitable t)
      (hw : (s.heap.task t).waitable = true) :
      WorkerStep s i (s.workerGoto i (.readCounter t))
  | testPlain (t : Nat) (hk : s.worker i = .testWaitable t)
      (hw : (s.heap.task t).waitable = false) : WorkerStep s i (s.workerGoto i (.delete t))
  | readCounter (t : Nat) (counter : C × Nat) (hk : s.worker i = .readCounter t)
      (hdata : (s.heap.task t).privateData = some counter) :
      WorkerStep s i (s.workerGoto i (.signal t counter))
  | signal (t : Nat) (counter : C × Nat) (hk : s.worker i = .signal t counter) :
      WorkerStep s i
        (((s.setCounter counter (signalCount (s.counter counter))).record fun h =>
          { h with signalled := h.signalled ++ [h.ticket i] }).workerGoto i
            (.signalTest t counter))
  | signalZero (t : Nat) (counter : C × Nat) (hk : s.worker i = .signalTest t counter)
      (hzero : s.counter counter = 0) :
      WorkerStep s i (s.workerGoto i (.signalNotify t counter))
  | signalNonzero (t : Nat) (counter : C × Nat) (hk : s.worker i = .signalTest t counter)
      (hcount : s.counter counter ≠ 0) : WorkerStep s i (s.workerGoto i .relock)
  | signalNotify (t : Nat) (counter : C × Nat) (hk : s.worker i = .signalNotify t counter) :
      WorkerStep s i ((s.notifyCounter counter).workerGoto i .relock)
  | delete (t : Nat) (hk : s.worker i = .delete t) :
      WorkerStep s i ((s.record fun h =>
        { h with deleted := h.deleted ++ [h.ticket i] }).workerGoto i .relock)
  | relock (hk : s.worker i = .relock) (hfree : s.lock = none) :
      WorkerStep s i ({ s with lock := some (.inr i) }.workerGoto i .loopTest)
  | loopQuit (hk : s.worker i = .loopTest) (hquit : s.quit = true) :
      WorkerStep s i (s.workerGoto i .leave)
  | loopAgain (hk : s.worker i = .loopTest) (hquit : s.quit = false) :
      WorkerStep s i (s.workerGoto i .readySignal)
  | leave (hk : s.worker i = .leave) :
      WorkerStep s i ({ s with lock := none }.workerGoto i .exited)

variable {d : DispatchConfig C N β υ} {s s' : State C N β υ} {c : C} {i : Fin N}

/-- Every start of a call is one of the listed steps. -/
theorem ClientStep.of_startCall {call : DispatchCall} (hk : (s.client c).pc = .ready)
    (hcall : (d.prog c)[(s.client c).ip]? = some call) (h : s.startCall c call = some s') :
    ClientStep d s c s' := by
  cases call with
  | taskAdd t =>
      cases hw : (s.heap.task t).waitable with
      | true =>
          simp only [State.startCall, hw, if_true, Option.some.injEq] at h
          exact h ▸ .taskAddWaitable t hk hcall hw
      | false =>
          simp only [State.startCall, hw, Bool.false_eq_true, if_false, Option.some.injEq] at h
          exact h ▸ .taskAddPlain t hk hcall hw
  | groupAdd g =>
      cases hw : (s.heap.group g).waitable with
      | true =>
          simp only [State.startCall, hw, if_true, Option.some.injEq] at h
          exact h ▸ .groupAddWaitable g hk hcall hw
      | false =>
          simp only [State.startCall, hw, Bool.false_eq_true, if_false, Option.some.injEq] at h
          exact h ▸ .groupAddPlain g hk hcall hw
  | taskWait t =>
      simp only [State.startCall, Option.ite_none_right_eq_some, Option.map_eq_some_iff] at h
      rcases h with ⟨hw, counter, hdata, rfl⟩
      exact .taskWait t counter hk hcall hw hdata
  | groupWait g =>
      simp only [State.startCall, Option.ite_none_right_eq_some] at h
      rcases h with ⟨hw, h⟩
      cases htasks : (s.heap.group g).tasks with
      | nil => simp [htasks] at h
      | cons t ts =>
          simp only [htasks, Option.map_eq_some_iff] at h
          rcases h with ⟨counter, hdata, rfl⟩
          exact .groupWait g t ts counter hk hcall hw htasks hdata
  | wait =>
      cases h
      exact .wait hk hcall
  | delete =>
      cases h
      exact .delete hk hcall

/-- Every step of a client is one of the listed ones. -/
theorem clientStep_of_step (h : d.clientStep s c = some s') : ClientStep d s c s' := by
  cases hk : (s.client c).pc with
  | ready =>
      simp only [DispatchConfig.clientStep, hk, Option.bind_eq_some_iff] at h
      rcases h with ⟨call, hcall, h⟩
      exact .of_startCall hk hcall h
  | groupLoop g i counter =>
      simp only [DispatchConfig.clientStep, hk] at h
      cases htask : (s.heap.group g).tasks[i]? with
      | none =>
          simp only [htask, Option.some.injEq] at h
          exact h ▸ .groupDone g i counter hk htask
      | some t =>
          simp only [htask, Option.some.injEq] at h
          exact h ▸ .groupNext g i t counter hk htask
  | store t site =>
      simp only [DispatchConfig.clientStep, hk, Option.some.injEq] at h
      cases hcounter : site.counter with
      | none =>
          simp only [hcounter] at h
          exact h ▸ .storeNone t site hk hcounter
      | some counter =>
          simp only [hcounter] at h
          exact h ▸ .store t site counter hk hcounter
  | addLock t site =>
      simp only [DispatchConfig.clientStep, hk, Option.ite_none_right_eq_some,
        Option.some.injEq] at h
      exact h.2 ▸ .addLock t site hk h.1
  | push t site =>
      simp only [DispatchConfig.clientStep, hk, Option.some.injEq] at h
      exact h ▸ .push t site hk
  | addUnlock site =>
      simp only [DispatchConfig.clientStep, hk, Option.some.injEq] at h
      exact h ▸ .addUnlock site hk
  | notify site =>
      simp only [DispatchConfig.clientStep, hk, Option.ite_none_right_eq_some,
        Option.some.injEq] at h
      exact h.2 ▸ .notifyLost site hk h.1
  | counterWait counter ts =>
      simp only [DispatchConfig.clientStep, hk, Option.some.injEq] at h
      by_cases hzero : s.counter counter = 0
      · rw [if_pos hzero] at h
        exact h ▸ .counterZero counter ts hk hzero
      · rw [if_neg hzero] at h
        exact h ▸ .counterBlock counter ts hk hzero
  | counterBlocked counter ts => simp [DispatchConfig.clientStep, hk] at h
  | deleteCounter counter ts =>
      simp only [DispatchConfig.clientStep, hk, Option.some.injEq] at h
      exact h ▸ .deleteCounter counter ts hk
  | deleteTasks ts =>
      cases ts with
      | nil =>
          simp only [DispatchConfig.clientStep, hk, Option.some.injEq] at h
          exact h ▸ .deleteDone hk
      | cons t ts =>
          simp only [DispatchConfig.clientStep, hk, Option.some.injEq] at h
          exact h ▸ .deleteTask t ts hk
  | waitLock =>
      simp only [DispatchConfig.clientStep, hk, Option.ite_none_right_eq_some,
        Option.some.injEq] at h
      exact h.2 ▸ .waitLock hk h.1
  | waitSize =>
      simp only [DispatchConfig.clientStep, hk, Option.some.injEq] at h
      exact h ▸ .waitSize hk
  | waitUnlock count =>
      simp only [DispatchConfig.clientStep, hk, Option.some.injEq] at h
      by_cases hzero : count = 0
      · subst hzero
        exact h ▸ .waitEmptied hk
      · rw [if_neg hzero] at h
        exact h ▸ .waitAgain count hk hzero
  | semaphoreWait i =>
      by_cases hi : i < N
      · simp only [DispatchConfig.clientStep, hk, hi, dif_pos, Option.some.injEq] at h
        by_cases hzero : s.semaphore ⟨i, hi⟩ = 0
        · rw [if_pos hzero] at h
          exact h ▸ .semaphoreReady i hi hk hzero
        · rw [if_neg hzero] at h
          exact h ▸ .semaphoreBlock i hi hk hzero
      · simp only [DispatchConfig.clientStep, hk, hi, dif_neg, not_false_eq_true,
          Option.some.injEq] at h
        exact h ▸ .semaphoreDone i hi hk
  | semaphoreBlocked i => simp [DispatchConfig.clientStep, hk] at h
  | quitLock =>
      simp only [DispatchConfig.clientStep, hk, Option.ite_none_right_eq_some,
        Option.some.injEq] at h
      exact h.2 ▸ .quitLock hk h.1
  | setQuit =>
      simp only [DispatchConfig.clientStep, hk, Option.some.injEq] at h
      exact h ▸ .setQuit hk
  | quitUnlock =>
      simp only [DispatchConfig.clientStep, hk, Option.some.injEq] at h
      exact h ▸ .quitUnlock hk
  | notifyAll =>
      simp only [DispatchConfig.clientStep, hk, Option.some.injEq] at h
      exact h ▸ .notifyAll hk
  | join i =>
      by_cases hi : i < N
      · simp only [DispatchConfig.clientStep, hk, hi, dif_pos, Option.ite_none_right_eq_some,
          Option.some.injEq] at h
        exact h.2 ▸ .join i hi hk h.1
      · simp only [DispatchConfig.clientStep, hk, hi, dif_neg, not_false_eq_true,
          Option.some.injEq] at h
        exact h ▸ .joined i hi hk
  | deleteSemaphore i =>
      by_cases hi : i < N
      · simp only [DispatchConfig.clientStep, hk, hi, dif_pos, Option.some.injEq] at h
        exact h ▸ .deleteSemaphore i hi hk
      · simp only [DispatchConfig.clientStep, hk, hi, dif_neg, not_false_eq_true,
          Option.some.injEq] at h
        exact h ▸ .semaphoresDeleted i hi hk
  | deleteQueue =>
      simp only [DispatchConfig.clientStep, hk, Option.some.injEq] at h
      exact h ▸ .deleteQueue hk

/-- The listed steps of a client are steps. -/
theorem ClientStep.step (h : ClientStep d s c s') : d.system.step s (.client c) = some s' := by
  change d.clientStep s c = some s'
  cases h with
  | store t site counter hk hcounter => simp [DispatchConfig.clientStep, hk, hcounter]
  | storeNone t site hk hcounter => simp [DispatchConfig.clientStep, hk, hcounter]
  | _ => simp [DispatchConfig.clientStep, State.startCall, *]

/-- Every step of a worker is one of the listed ones. -/
theorem workerStep_of_step (h : workerStep s i = some s') : WorkerStep s i s' := by
  cases hk : s.worker i with
  | start =>
      simp only [workerStep, hk, Option.ite_none_right_eq_some, Option.some.injEq] at h
      exact h.2 ▸ .start hk h.1
  | readySignal =>
      simp only [workerStep, hk, Option.some.injEq] at h
      exact h ▸ .readySignal hk
  | readyTest =>
      simp only [workerStep, hk, Option.some.injEq] at h
      by_cases hzero : s.semaphore i = 0
      · rw [if_pos hzero] at h
        exact h ▸ .readyZero hk hzero
      · rw [if_neg hzero] at h
        exact h ▸ .readyNonzero hk hzero
  | readyNotify =>
      simp only [workerStep, hk, Option.some.injEq] at h
      exact h ▸ .readyNotify hk
  | waitTest =>
      simp only [workerStep, hk] at h
      by_cases hpred : s.deque.length ≠ 0 ∨ s.quit = true
      · rw [if_pos hpred, Option.some.injEq] at h
        exact h ▸ .waitPass hk hpred
      · rw [if_neg hpred, Option.some.injEq] at h
        exact h ▸ .waitBlock hk hpred
  | blocked => simp [workerStep, hk] at h
  | woken =>
      simp only [workerStep, hk, Option.ite_none_right_eq_some, Option.some.injEq] at h
      exact h.2 ▸ .woken hk h.1
  | testTask =>
      simp only [workerStep, hk, Option.some.injEq] at h
      by_cases htask : s.quit = false ∧ s.deque.length ≠ 0
      · rw [if_pos htask] at h
        exact h ▸ .testTask hk htask
      · rw [if_neg htask] at h
        exact h ▸ .testNone hk htask
  | reset =>
      simp only [workerStep, hk, Option.some.injEq] at h
      exact h ▸ .reset hk
  | pop =>
      simp only [workerStep, hk] at h
      cases hdeque : s.deque with
      | nil => simp [hdeque] at h
      | cons t rest =>
          simp only [hdeque, Option.some.injEq] at h
          exact h ▸ .pop t rest hk hdeque
  | unlock t =>
      simp only [workerStep, hk, Option.some.injEq] at h
      exact h ▸ .unlock t hk
  | perform t =>
      simp only [workerStep, hk, Option.some.injEq] at h
      exact h ▸ .perform t hk
  | running t =>
      simp only [workerStep, hk, Option.some.injEq] at h
      exact h ▸ .running t hk
  | testWaitable t =>
      simp only [workerStep, hk, Option.some.injEq] at h
      cases hw : (s.heap.task t).waitable with
      | true =>
          simp only [hw, if_true] at h
          exact h ▸ .testWaitable t hk hw
      | false =>
          simp only [hw, Bool.false_eq_true, if_false] at h
          exact h ▸ .testPlain t hk hw
  | readCounter t =>
      simp only [workerStep, hk, Option.map_eq_some_iff] at h
      rcases h with ⟨counter, hdata, rfl⟩
      exact .readCounter t counter hk hdata
  | signal t counter =>
      simp only [workerStep, hk, Option.some.injEq] at h
      exact h ▸ .signal t counter hk
  | signalTest t counter =>
      simp only [workerStep, hk, Option.some.injEq] at h
      by_cases hzero : s.counter counter = 0
      · rw [if_pos hzero] at h
        exact h ▸ .signalZero t counter hk hzero
      · rw [if_neg hzero] at h
        exact h ▸ .signalNonzero t counter hk hzero
  | signalNotify t counter =>
      simp only [workerStep, hk, Option.some.injEq] at h
      exact h ▸ .signalNotify t counter hk
  | delete t =>
      simp only [workerStep, hk, Option.some.injEq] at h
      exact h ▸ .delete t hk
  | relock =>
      simp only [workerStep, hk, Option.ite_none_right_eq_some, Option.some.injEq] at h
      exact h.2 ▸ .relock hk h.1
  | loopTest =>
      simp only [workerStep, hk, Option.some.injEq] at h
      cases hquit : s.quit with
      | true =>
          simp only [hquit, if_true] at h
          exact h ▸ .loopQuit hk hquit
      | false =>
          simp only [hquit, Bool.false_eq_true, if_false] at h
          exact h ▸ .loopAgain hk hquit
  | leave =>
      simp only [workerStep, hk, Option.some.injEq] at h
      exact h ▸ .leave hk
  | exited => simp [workerStep, hk] at h

/-- A step of the system is a step of a client or of a worker, a notification that wakes a
worker, or a wake-up without one. -/
theorem step_cases {l : Label C N} (h : d.system.step s l = some s') :
    (∃ c, l = .client c ∧ ClientStep d s c s') ∨
    (∃ i, l = .worker i ∧ WorkerStep s i s') ∨
    (∃ c i site, l = .notify c i ∧ (s.client c).pc = .notify site ∧ s.worker i = .blocked ∧
      s' = (s.wakeWorker i).added c site) ∨
    (∃ i, l = .spuriousWorker i ∧ s.worker i = .blocked ∧ s' = s.wakeWorker i) ∨
    (∃ c counter ts, l = .spuriousClient c ∧ (s.client c).pc = .counterBlocked counter ts ∧
      s' = s.goto c (.counterWait counter ts)) ∨
    (∃ c i, l = .spuriousClient c ∧ (s.client c).pc = .semaphoreBlocked i ∧
      s' = s.goto c (.semaphoreWait i)) := by
  cases l with
  | client c => exact Or.inl ⟨c, rfl, clientStep_of_step h⟩
  | worker i => exact Or.inr (Or.inl ⟨i, rfl, workerStep_of_step h⟩)
  | notify c i =>
      simp only [DispatchConfig.system, notifyStep] at h
      split at h
      · rename_i site hk hworker
        exact Or.inr (Or.inr (Or.inl
          ⟨c, i, site, rfl, hk, hworker, (Option.some.inj h).symm⟩))
      · cases h
  | spuriousWorker i =>
      simp only [DispatchConfig.system, spuriousWorkerStep] at h
      split at h
      · rename_i hworker
        exact Or.inr (Or.inr (Or.inr (Or.inl ⟨i, rfl, hworker, (Option.some.inj h).symm⟩)))
      · cases h
  | spuriousClient c =>
      simp only [DispatchConfig.system, spuriousClientStep] at h
      split at h
      · rename_i counter ts hk
        exact Or.inr (Or.inr (Or.inr (Or.inr (Or.inl
          ⟨c, counter, ts, rfl, hk, (Option.some.inj h).symm⟩))))
      · rename_i i hk
        exact Or.inr (Or.inr (Or.inr (Or.inr (Or.inr
          ⟨c, i, rfl, hk, (Option.some.inj h).symm⟩))))
      · cases h

end Host
end LibDispatch
