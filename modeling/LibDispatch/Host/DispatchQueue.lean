import LibDispatch.Task
import LibDispatch.Library.Transition

/-!
# The host dispatch queue

This module embeds {lit}`dispatch_queue_host.cc` for any number of clients and workers.  The
queue's {lit}`std::mutex` is its owner.  The mutex of an {lit}`EventCounter` protects its count
only, so each of its critical sections is one step; the unlocked test of the count in
{lit}`Signal` and the notification are steps of their own.

A thread that waits on a {lit}`std::condition_variable` gives back the lock and blocks in one
step.  It wakes up when it is notified, or spuriously, and takes the lock again before it
tests its predicate.  {lit}`notify_one` wakes one blocked thread, which the label of the step
names, and is lost when none is blocked.

An event counter is named by the client and the call that created it.  The function of a
task is entered in one step and applied to the user state in another, when it returns.
The {lit}`History` is read by no step; it numbers the tasks in the order in which they are
popped, so that a task that was added twice is told apart.
-/

namespace LibDispatch
namespace Host

/-! ## State -/

/-- What {lit}`dispatch_queue_delete` gives back. -/
inductive Object (N : Nat) where
  | semaphore (i : Fin N)
  | dispatchQueue
deriving DecidableEq, Repr

/-- What has happened so far.  No step of the program depends on it. -/
structure History (C : Type) (N : Nat) where
  /-- Tasks pushed, in order. -/
  pushed : List Nat
  /-- Tasks popped, in order. -/
  popped : List Nat
  /-- The number of the task that a worker has popped last. -/
  ticket : Fin N → Nat
  /-- Numbers of the tasks whose function has returned. -/
  returned : List Nat
  /-- Numbers of the tasks that executed the locked part of {lit}`Signal`. -/
  signalled : List Nat
  /-- Numbers of the tasks that the worker has deleted. -/
  deleted : List Nat
  /-- The worker was woken and has since neither popped a task nor blocked again. -/
  woken : Fin N → Bool
  /-- Tasks deleted by {lit}`dispatch_queue_task_wait`. -/
  waitFreed : List Nat
  /-- Counters deleted. -/
  counterFreed : List (C × Nat)

/-- Nothing has happened. -/
def History.empty (C : Type) (N : Nat) : History C N :=
  ⟨[], [], fun _ => 0, [], [], [], fun _ => false, [], []⟩

/-- The caller of {lit}`task_add`, with its local variable {lit}`counter`. -/
inductive AddSite (C : Type) where
  | task (counter : Option (C × Nat))
  | member (group i : Nat) (counter : Option (C × Nat))
deriving DecidableEq, Repr

/-- Positions of a client in the call it is making. -/
inductive ClientPc (C : Type) where
  /-- About to make the next call. -/
  | ready
  /-- {lit}`dispatch_queue_group_add`: the test of the loop. -/
  | groupLoop (group i : Nat) (counter : Option (C × Nat))
  /-- {lit}`task_add`: {lit}`if (counter) task->private_data = counter` -/
  | store (task : Nat) (site : AddSite C)
  /-- {lit}`task_add`: taking {lit}`dispatch_queue->lock`. -/
  | addLock (task : Nat) (site : AddSite C)
  /-- {lit}`dispatch_queue->deque.push_back(task)` -/
  | push (task : Nat) (site : AddSite C)
  /-- {lit}`task_add`: {lit}`lock.unlock()` -/
  | addUnlock (site : AddSite C)
  /-- {lit}`dispatch_queue->cv.notify_one()` -/
  | notify (site : AddSite C)
  /-- {lit}`counter->Wait()`: the predicate is tested, and the tasks to be deleted. -/
  | counterWait (counter : C × Nat) (tasks : List Nat)
  /-- {lit}`counter->Wait()`: blocked. -/
  | counterBlocked (counter : C × Nat) (tasks : List Nat)
  /-- {lit}`delete counter` -/
  | deleteCounter (counter : C × Nat) (tasks : List Nat)
  /-- {lit}`dispatch_task_delete` for the remaining tasks. -/
  | deleteTasks (tasks : List Nat)
  /-- {lit}`dispatch_queue_wait`: taking {lit}`dispatch_queue->lock`. -/
  | waitLock
  /-- {lit}`waiting_count = dispatch_queue->deque.size()` -/
  | waitSize
  /-- {lit}`lock.unlock()` and the test of {lit}`waiting_count`. -/
  | waitUnlock (count : Nat)
  /-- {lit}`thread_ready_semaphores[i]->Wait()`: the predicate is tested. -/
  | semaphoreWait (i : Nat)
  /-- {lit}`thread_ready_semaphores[i]->Wait()`: blocked. -/
  | semaphoreBlocked (i : Nat)
  /-- {lit}`dispatch_queue_delete`: taking {lit}`dispatch_queue->lock`. -/
  | quitLock
  /-- {lit}`dispatch_queue->quit = true` -/
  | setQuit
  /-- {lit}`dispatch_queue_delete`: {lit}`lock.unlock()` -/
  | quitUnlock
  /-- {lit}`dispatch_queue->cv.notify_all()` -/
  | notifyAll
  /-- {lit}`threads[i].join()` -/
  | join (i : Nat)
  /-- {lit}`delete thread_ready_semaphores[i]` -/
  | deleteSemaphore (i : Nat)
  /-- {lit}`delete dispatch_queue` -/
  | deleteQueue
deriving DecidableEq, Repr

/-- Positions in {lit}`dispatch_queue_worker`. -/
inductive WorkerPc (C : Type) where
  /-- The constructor of {lit}`lock` takes {lit}`dispatch_queue->lock`. -/
  | start
  /-- {lit}`ready_semaphore->Signal()`: the locked decrement. -/
  | readySignal
  /-- {lit}`ready_semaphore->Signal()`: {lit}`if (count == 0)` -/
  | readyTest
  /-- {lit}`ready_semaphore->Signal()`: {lit}`condition.notify_all()` -/
  | readyNotify
  /-- {lit}`cv.wait`: the predicate is tested under the lock. -/
  | waitTest
  /-- {lit}`cv.wait`: blocked and not notified. -/
  | blocked
  /-- {lit}`cv.wait`: woken, about to take the lock again. -/
  | woken
  /-- {lit}`if (!quit && deque.size())` -/
  | testTask
  /-- {lit}`ready_semaphore->Reset()` -/
  | reset
  /-- {lit}`deque.front()` and {lit}`deque.pop_front()` -/
  | pop
  /-- {lit}`lock.unlock()` -/
  | unlock (task : Nat)
  /-- {lit}`dispatch_task_perform(task)`: the call. -/
  | perform (task : Nat)
  /-- The function runs. -/
  | running (task : Nat)
  /-- {lit}`if (task->waitable)` -/
  | testWaitable (task : Nat)
  /-- {lit}`task->private_data` is read. -/
  | readCounter (task : Nat)
  /-- {lit}`counter->Signal()`: the locked decrement. -/
  | signal (task : Nat) (counter : C × Nat)
  /-- {lit}`counter->Signal()`: {lit}`if (count == 0)` -/
  | signalTest (task : Nat) (counter : C × Nat)
  /-- {lit}`counter->Signal()`: {lit}`condition.notify_all()` -/
  | signalNotify (task : Nat) (counter : C × Nat)
  /-- {lit}`dispatch_task_delete(task)` -/
  | delete (task : Nat)
  /-- {lit}`lock.lock()` -/
  | relock
  /-- {lit}`while (!dispatch_queue->quit)` -/
  | loopTest
  /-- The destructor of {lit}`lock` gives it back. -/
  | leave
  | exited
deriving DecidableEq, Repr

/-- A client: the number of calls it has made, and its position in the current one. -/
structure Client (C : Type) where
  ip : Nat
  pc : ClientPc C
deriving DecidableEq, Repr

/-- The memory, the lock, and the positions of the clients and of the workers. -/
structure State (C : Type) (N : Nat) (β υ : Type) where
  heap : Heap β υ (C × Nat)
  deque : List Nat
  quit : Bool
  /-- Owner of {lit}`dispatch_queue->lock`. -/
  lock : Option (C ⊕ Fin N)
  /-- The counts of the ready semaphores. -/
  semaphore : Fin N → Nat
  /-- The counts of the event counters. -/
  counter : C × Nat → Nat
  user : υ
  released : Object N → Bool
  history : History C N
  client : C → Client C
  worker : Fin N → WorkerPc C

/-- The calls of the clients, and the tasks and groups they have prepared.  The length
that {lit}`dispatch_queue_create` takes is not used by the source. -/
structure DispatchConfig (C : Type) (N : Nat) (β υ : Type) where
  prog : C → List DispatchCall
  heap : Heap β υ (C × Nat)
  user : υ

/-- What a step of a run is: a step of a thread, a notification by a client that wakes the
given worker, or a wake-up without a notification. -/
inductive Label (C : Type) (N : Nat) where
  | client (c : C)
  | worker (i : Fin N)
  | notify (c : C) (i : Fin N)
  | spuriousWorker (i : Fin N)
  | spuriousClient (c : C)
deriving DecidableEq, Repr

/-! ## Updates -/

variable {C : Type} {N : Nat} {β υ : Type}

/-- {lit}`EventCounter::Signal`, {lit}`BinarySemaphore` included: the count after the locked
decrement. -/
def signalCount (count : Nat) : Nat :=
  if 0 < count then count - 1 else count

/-- {lit}`EventCounter::Wait` of the clients that block on the {lit}`i`-th ready semaphore is
woken. -/
def ClientPc.wakeSemaphore (i : Nat) : ClientPc C → ClientPc C
  | .semaphoreBlocked j => if j = i then .semaphoreWait j else .semaphoreBlocked j
  | pc => pc

/-- A worker that blocks is woken. -/
def WorkerPc.wake : WorkerPc C → WorkerPc C
  | .blocked => .woken
  | pc => pc

/-- A change of the history. -/
def State.record (s : State C N β υ) (f : History C N → History C N) : State C N β υ :=
  { s with history := f s.history }

/-- A worker goes on at a position. -/
def State.workerGoto (s : State C N β υ) (i : Fin N) (pc : WorkerPc C) : State C N β υ :=
  { s with worker := Function.update s.worker i pc }

/-- A blocked worker wakes up. -/
def State.wakeWorker (s : State C N β υ) (i : Fin N) : State C N β υ :=
  (s.record fun h => { h with woken := Function.update h.woken i true }).workerGoto i .woken

/-- {lit}`condition.notify_all()` of the {lit}`i`-th ready semaphore. -/
def State.notifySemaphore (s : State C N β υ) (i : Nat) : State C N β υ :=
  { s with client := fun c => { s.client c with pc := (s.client c).pc.wakeSemaphore i } }

/-- The worker blocks in {lit}`cv.wait` and was not notified. -/
def WorkerPc.isBlocked : WorkerPc C → Bool
  | .blocked => true
  | _ => false

/-- {lit}`cv.notify_all()`. -/
def State.notifyWorkers (s : State C N β υ) : State C N β υ :=
  { s with
    history := { s.history with woken := fun i => s.history.woken i || (s.worker i).isBlocked }
    worker := fun i => (s.worker i).wake }

variable [DecidableEq C]

/-- {lit}`EventCounter::Wait` of the clients that block on a counter is woken. -/
def ClientPc.wakeCounter (counter : C × Nat) : ClientPc C → ClientPc C
  | .counterBlocked counter' ts =>
      if counter' = counter then .counterWait counter' ts else .counterBlocked counter' ts
  | pc => pc

/-- {lit}`condition.notify_all()` of an event counter. -/
def State.notifyCounter (s : State C N β υ) (counter : C × Nat) : State C N β υ :=
  { s with client := fun c => { s.client c with pc := (s.client c).pc.wakeCounter counter } }

/-- A store to the {lit}`private_data` of a task. -/
def State.storePrivateData (s : State C N β υ) (t : Nat) (p : Option (C × Nat)) :
    State C N β υ :=
  { s with heap := { s.heap with
      task := Function.update s.heap.task t { s.heap.task t with privateData := p } } }

/-- The count of an event counter after a change. -/
def State.setCounter (s : State C N β υ) (counter : C × Nat) (count : Nat) : State C N β υ :=
  { s with counter := Function.update s.counter counter count }

/-- A client goes on at a position. -/
def State.goto (s : State C N β υ) (c : C) (pc : ClientPc C) : State C N β υ :=
  { s with client := Function.update s.client c { s.client c with pc := pc } }

/-- The current call of a client returns. -/
def State.ret (s : State C N β υ) (c : C) : State C N β υ :=
  { s with client := Function.update s.client c ⟨(s.client c).ip + 1, .ready⟩ }

/-- {lit}`task_add` returns to its caller. -/
def State.added (s : State C N β υ) (c : C) : AddSite C → State C N β υ
  | .task _ => s.ret c
  | .member g i counter => s.goto c (.groupLoop g (i + 1) counter)

/-- The variable {lit}`counter` of the caller. -/
def AddSite.counter : AddSite C → Option (C × Nat)
  | .task counter | .member _ _ counter => counter

/-! ## Statements -/

/-- The start of a call of client {lit}`c`. -/
def State.startCall (s : State C N β υ) (c : C) : DispatchCall → Option (State C N β υ)
  | .taskAdd t =>
      if (s.heap.task t).waitable = true then
        some ((s.setCounter (c, (s.client c).ip) 1).goto c
          (.store t (.task (some (c, (s.client c).ip)))))
      else some (s.goto c (.store t (.task none)))
  | .groupAdd g =>
      if (s.heap.group g).waitable = true then
        some ((s.setCounter (c, (s.client c).ip) (s.heap.group g).count).goto c
          (.groupLoop g 0 (some (c, (s.client c).ip))))
      else some (s.goto c (.groupLoop g 0 none))
  | .taskWait t =>
      -- the assertion that the task is waitable
      if (s.heap.task t).waitable = true then
        (s.heap.task t).privateData.map fun counter => s.goto c (.counterWait counter [t])
      else none
  | .groupWait g =>
      -- the assertion that the group is waitable, and the read of its first slot
      if (s.heap.group g).waitable = true then
        match (s.heap.group g).tasks with
        | [] => none
        | t :: _ => (s.heap.task t).privateData.map fun counter =>
            s.goto c (.counterWait counter [])
      else none
  | .wait => some (s.goto c .waitLock)
  | .delete => some (s.goto c .quitLock)

/-- The statement of client {lit}`c` at its position; {lit}`none` when it is blocked or the
source has no defined behaviour.  A {lit}`notify_one` that wakes a worker is not among
them. -/
def DispatchConfig.clientStep (d : DispatchConfig C N β υ) (s : State C N β υ) (c : C) :
    Option (State C N β υ) :=
  match (s.client c).pc with
  | .ready => ((d.prog c)[(s.client c).ip]?).bind (s.startCall c)
  | .groupLoop g i counter =>
      match (s.heap.group g).tasks[i]? with
      | none => some (s.ret c)
      | some t => some (s.goto c (.store t (.member g i counter)))
  -- task_add
  | .store t site =>
      some ((match site.counter with
        | some counter => s.storePrivateData t (some counter)
        | none => s).goto c (.addLock t site))
  | .addLock t site =>
      if s.lock = none then some ({ s with lock := some (.inl c) }.goto c (.push t site))
      else none
  | .push t site =>
      some (({ s with deque := s.deque ++ [t] }.record fun h =>
        { h with pushed := h.pushed ++ [t] }).goto c (.addUnlock site))
  | .addUnlock site => some ({ s with lock := none }.goto c (.notify site))
  | .notify site => if ∀ i, s.worker i ≠ .blocked then some (s.added c site) else none
  -- the functions that wait for a task or a group
  | .counterWait counter ts =>
      some (s.goto c
        (if s.counter counter = 0 then .deleteCounter counter ts
          else .counterBlocked counter ts))
  | .counterBlocked _ _ => none
  | .deleteCounter counter ts =>
      some ((s.record fun h => { h with counterFreed := h.counterFreed ++ [counter] }).goto c
        (.deleteTasks ts))
  | .deleteTasks [] => some (s.ret c)
  | .deleteTasks (t :: ts) =>
      some ((s.record fun h => { h with waitFreed := h.waitFreed ++ [t] }).goto c
        (.deleteTasks ts))
  -- dispatch_queue_wait
  | .waitLock =>
      if s.lock = none then some ({ s with lock := some (.inl c) }.goto c .waitSize) else none
  | .waitSize => some (s.goto c (.waitUnlock s.deque.length))
  | .waitUnlock count =>
      some ({ s with lock := none }.goto c
        (if count = 0 then .semaphoreWait 0 else .waitLock))
  | .semaphoreWait i =>
      if h : i < N then
        some (s.goto c
          (if s.semaphore ⟨i, h⟩ = 0 then .semaphoreWait (i + 1) else .semaphoreBlocked i))
      else some (s.ret c)
  | .semaphoreBlocked _ => none
  -- dispatch_queue_delete
  | .quitLock =>
      if s.lock = none then some ({ s with lock := some (.inl c) }.goto c .setQuit) else none
  | .setQuit => some ({ s with quit := true }.goto c .quitUnlock)
  | .quitUnlock => some ({ s with lock := none }.goto c .notifyAll)
  | .notifyAll => some (s.notifyWorkers.goto c (.join 0))
  | .join i =>
      if h : i < N then
        if s.worker ⟨i, h⟩ = .exited then some (s.goto c (.join (i + 1))) else none
      else some (s.goto c (.deleteSemaphore 0))
  | .deleteSemaphore i =>
      if h : i < N then
        some ({ s with released :=
            Function.update s.released (.semaphore ⟨i, h⟩) true }.goto c
          (.deleteSemaphore (i + 1)))
      else some (s.goto c .deleteQueue)
  | .deleteQueue =>
      some ({ s with released := Function.update s.released .dispatchQueue true }.ret c)

/-- {lit}`notify_one` of client {lit}`c` wakes worker {lit}`i`. -/
def notifyStep (s : State C N β υ) (c : C) (i : Fin N) : Option (State C N β υ) :=
  match (s.client c).pc, s.worker i with
  | .notify site, .blocked => some ((s.wakeWorker i).added c site)
  | _, _ => none

/-- The statement of worker {lit}`i` at its position. -/
def workerStep (s : State C N β υ) (i : Fin N) : Option (State C N β υ) :=
  match s.worker i with
  | .start =>
      if s.lock = none then some ({ s with lock := some (.inr i) }.workerGoto i .readySignal)
      else none
  -- the ready signal
  | .readySignal =>
      some ({ s with semaphore :=
        Function.update s.semaphore i (signalCount (s.semaphore i)) }.workerGoto i .readyTest)
  | .readyTest =>
      some (s.workerGoto i (if s.semaphore i = 0 then .readyNotify else .waitTest))
  | .readyNotify => some ((s.notifySemaphore i).workerGoto i .waitTest)
  -- cv.wait
  | .waitTest =>
      if s.deque.length ≠ 0 ∨ s.quit = true then some (s.workerGoto i .testTask)
      else some (({ s with lock := none }.record fun h =>
        { h with woken := Function.update h.woken i false }).workerGoto i .blocked)
  | .blocked => none
  | .woken =>
      if s.lock = none then some ({ s with lock := some (.inr i) }.workerGoto i .waitTest)
      else none
  -- the body of the loop
  | .testTask =>
      some (s.workerGoto i
        (if s.quit = false ∧ s.deque.length ≠ 0 then .reset else .loopTest))
  | .reset =>
      some ({ s with semaphore := Function.update s.semaphore i 1 }.workerGoto i .pop)
  | .pop =>
      match s.deque with
      | [] => none
      | t :: rest => some (({ s with deque := rest }.record fun h =>
          { h with
            popped := h.popped ++ [t]
            ticket := Function.update h.ticket i h.popped.length
            woken := Function.update h.woken i false }).workerGoto i (.unlock t))
  | .unlock t => some ({ s with lock := none }.workerGoto i (.perform t))
  | .perform t => some (s.workerGoto i (.running t))
  | .running t =>
      some (({ s with user := dispatchTaskPerform (s.heap.task t) s.user }.record fun h =>
        { h with returned := h.returned ++ [h.ticket i] }).workerGoto i (.testWaitable t))
  | .testWaitable t =>
      some (s.workerGoto i
        (if (s.heap.task t).waitable = true then .readCounter t else .delete t))
  | .readCounter t =>
      (s.heap.task t).privateData.map fun counter => s.workerGoto i (.signal t counter)
  | .signal t counter =>
      some (((s.setCounter counter (signalCount (s.counter counter))).record fun h =>
        { h with signalled := h.signalled ++ [h.ticket i] }).workerGoto i
          (.signalTest t counter))
  | .signalTest t counter =>
      some (s.workerGoto i
        (if s.counter counter = 0 then .signalNotify t counter else .relock))
  | .signalNotify _ counter => some ((s.notifyCounter counter).workerGoto i .relock)
  | .delete _ =>
      some ((s.record fun h =>
        { h with deleted := h.deleted ++ [h.ticket i] }).workerGoto i .relock)
  | .relock =>
      if s.lock = none then some ({ s with lock := some (.inr i) }.workerGoto i .loopTest)
      else none
  | .loopTest => some (s.workerGoto i (if s.quit = true then .leave else .readySignal))
  | .leave => some ({ s with lock := none }.workerGoto i .exited)
  | .exited => none

/-- A blocked worker wakes up without a notification. -/
def spuriousWorkerStep (s : State C N β υ) (i : Fin N) : Option (State C N β υ) :=
  match s.worker i with
  | .blocked => some (s.wakeWorker i)
  | _ => none

/-- A blocked client wakes up without a notification. -/
def spuriousClientStep (s : State C N β υ) (c : C) : Option (State C N β υ) :=
  match (s.client c).pc with
  | .counterBlocked counter ts => some (s.goto c (.counterWait counter ts))
  | .semaphoreBlocked i => some (s.goto c (.semaphoreWait i))
  | _ => none

/-- After {lit}`dispatch_queue_create`: the threads are created, and each ready semaphore
has its first count. -/
def DispatchConfig.init (d : DispatchConfig C N β υ) : State C N β υ where
  heap := d.heap
  deque := []
  quit := false
  lock := none
  semaphore := fun _ => 1
  counter := fun _ => 0
  user := d.user
  released := fun _ => false
  history := .empty C N
  client := fun _ => ⟨0, .ready⟩
  worker := fun _ => .start

/-- The clients and the workers of a host dispatch queue. -/
def DispatchConfig.system (d : DispatchConfig C N β υ) : System (State C N β υ) (Label C N) where
  init := d.init
  step s
    | .client c => d.clientStep s c
    | .worker i => workerStep s i
    | .notify c i => notifyStep s c i
    | .spuriousWorker i => spuriousWorkerStep s i
    | .spuriousClient c => spuriousClientStep s c

end Host
end LibDispatch
