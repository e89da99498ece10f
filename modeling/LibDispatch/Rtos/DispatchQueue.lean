import LibDispatch.Task
import LibDispatch.Library.Transition

/-!
# The FreeRTOS dispatch queue

This module embeds {lit}`dispatch_queue_rtos.c` and {lit}`event_counter_rtos.c` for one client
and any number of workers.  The kernel objects act atomically: the queue is a list of
bounded length, the event group a word of 32 bits, a binary semaphore a boolean, and a
critical section is one step.  Every other access to memory that another task may access
is a step of its own.

An event counter is named by the call of the client that created it.  The function of a
task is entered in one step and applied to the user state in another, when it returns.
The {lit}`History` is read by no step.
-/

namespace LibDispatch
namespace Rtos

/-! ## State -/

/-- {lit}`event_counter_t`: its count, and whether its binary semaphore was given. -/
structure EventCounter where
  count : Nat
  given : Bool
deriving DecidableEq, Repr

/-- {lit}`event_counter_create`. -/
def eventCounterCreate (count : Nat) : EventCounter :=
  ⟨count, false⟩

/-- What {lit}`dispatch_queue_create` allocates. -/
inductive Object (N : Nat) where
  | dispatchQueue
  | xQueue
  | threads
  | workerData
  | xEventGroup
  | thread (i : Fin N)
deriving DecidableEq, Repr

/-- What has happened so far, in order.  No step of the program depends on it. -/
structure History where
  /-- Tasks for which {lit}`xQueueSend` has completed. -/
  sent : List Nat
  /-- Tasks whose function was called. -/
  called : List Nat
  /-- Tasks whose function has returned. -/
  returned : List Nat
  /-- Tasks deleted. -/
  taskFreed : List Nat
  /-- Counters whose semaphore was deleted. -/
  semaphoreDeleted : List Nat
  /-- Counters freed. -/
  counterFreed : List Nat

/-- Nothing has happened. -/
def History.empty : History :=
  ⟨[], [], [], [], [], []⟩

/-- Where a task is sent: by {lit}`dispatch_queue_task_add`, or as {lit}`group->tasks[i]` by
{lit}`dispatch_queue_group_add` with its local variable {lit}`counter`. -/
inductive AddSite where
  | task
  | member (group i : Nat) (counter : Option Nat)
deriving DecidableEq, Repr

/-- Positions of the client in the call it is making. -/
inductive ClientPc where
  /-- {lit}`dispatch_queue_init`: the ready bits are set. -/
  | setReadyBits
  /-- About to make the next call. -/
  | ready
  /-- {lit}`dispatch_queue_group_add`: the test of the loop and the store to
  {lit}`private_data`. -/
  | groupLoop (group i : Nat) (counter : Option Nat)
  /-- {lit}`xQueueSend` -/
  | send (task : Nat) (site : AddSite)
  /-- {lit}`event_counter_wait`, and the tasks to be deleted. -/
  | takeSemaphore (counter : Nat) (tasks : List Nat)
  /-- {lit}`event_counter_delete`: {lit}`vSemaphoreDelete(counter->semaphore)` -/
  | deleteSemaphore (counter : Nat) (tasks : List Nat)
  /-- {lit}`event_counter_delete`: {lit}`dispatch_free(counter)` -/
  | freeCounter (counter : Nat) (tasks : List Nat)
  /-- {lit}`dispatch_task_delete` for the remaining tasks. -/
  | deleteTasks (tasks : List Nat)
  /-- {lit}`dispatch_queue_wait`: the loop around {lit}`uxQueueMessagesWaiting`. -/
  | waitEmpty
  /-- {lit}`dispatch_queue_wait`: {lit}`xEventGroupWaitBits` -/
  | waitBits
  /-- {lit}`dispatch_queue_delete`: the loop around {lit}`vTaskDelete`. -/
  | deleteThread (i : Nat)
  | freeWorkerData
  | freeThreads
  | deleteEventGroup
  | deleteQueue
deriving DecidableEq, Repr

/-- Positions in {lit}`dispatch_queue_worker`, with {lit}`event_counter_signal` inlined. -/
inductive WorkerPc where
  /-- {lit}`xQueueReceive` -/
  | receive
  /-- {lit}`xEventGroupClearBits(xEventGroup, xReadyBit)` -/
  | clearBit (task : Nat)
  /-- {lit}`dispatch_task_perform(task)`: the call. -/
  | perform (task : Nat)
  /-- The function runs. -/
  | running (task : Nat)
  /-- {lit}`if (task->waitable)` -/
  | testWaitable (task : Nat)
  /-- {lit}`task->private_data` is read. -/
  | readCounter (task : Nat)
  /-- The critical section of {lit}`event_counter_signal`. -/
  | decrement (counter : Nat)
  /-- {lit}`xSemaphoreGive(counter->semaphore)` -/
  | give (counter : Nat)
  /-- {lit}`dispatch_task_delete(task)` -/
  | delete (task : Nat)
  /-- {lit}`xEventGroupSetBits(xEventGroup, xReadyBit)` -/
  | setBit
deriving DecidableEq, Repr

/-- The memory, the kernel objects, and the positions of the client and of the workers. -/
structure State (N : Nat) (β υ : Type) where
  heap : Heap β υ Nat
  xQueue : List Nat
  xEventGroup : BitVec 32
  counter : Nat → EventCounter
  user : υ
  released : Object N → Bool
  history : History
  /-- The number of calls that the client has made. -/
  ip : Nat
  client : ClientPc
  worker : Fin N → WorkerPc

/-- A dispatch queue, the calls of its client, and the tasks and groups it has prepared. -/
structure DispatchConfig (N : Nat) (β υ : Type) where
  length : Nat
  length_pos : 0 < length
  /-- The shift in {lit}`dispatch_queue_init` is by less than the width of the word. -/
  threadCount_pos : 0 < N
  threadCount_le : N ≤ 32
  prog : List DispatchCall
  heap : Heap β υ Nat
  user : υ

/-- One worker has a ready bit. -/
theorem one_le_width : 1 ≤ 32 := by
  decide

/-- The threads that take steps. -/
inductive Party (N : Nat) where
  | client
  | worker (i : Fin N)
deriving DecidableEq, Repr

/-! ## Statements -/

variable {N : Nat} {β υ : Type}

/-- {lit}`worker_data[i].xReadyBit` -/
def xReadyBit (i : Nat) : BitVec 32 :=
  1#32 <<< i

/-- {lit}`dispatch_queue->xReadyBits` -/
def xReadyBits (threadCount : Nat) : BitVec 32 :=
  0xFFFFFFFF#32 >>> (32 - threadCount)

/-- A store to the {lit}`private_data` of a task. -/
def State.storePrivateData (s : State N β υ) (t : Nat) (p : Option Nat) : State N β υ :=
  { s with heap := { s.heap with
      task := Function.update s.heap.task t { s.heap.task t with privateData := p } } }

/-- A counter after a change. -/
def State.setCounter (s : State N β υ) (c : Nat) (counter : EventCounter) : State N β υ :=
  { s with counter := Function.update s.counter c counter }

/-- The client goes on at a position. -/
def State.goto (s : State N β υ) (pc : ClientPc) : State N β υ :=
  { s with client := pc }

/-- The current call returns. -/
def State.ret (s : State N β υ) : State N β υ :=
  { s with ip := s.ip + 1, client := .ready }

/-- An object is given back. -/
def State.release (s : State N β υ) (object : Object N) : State N β υ :=
  { s with released := Function.update s.released object true }

/-- A worker goes on at a position. -/
def State.workerGoto (s : State N β υ) (i : Fin N) (pc : WorkerPc) : State N β υ :=
  { s with worker := Function.update s.worker i pc }

/-- A change of the history. -/
def State.record (s : State N β υ) (f : History → History) : State N β υ :=
  { s with history := f s.history }

/-- The client goes on after the task of a site was sent. -/
def State.sent (s : State N β υ) : AddSite → State N β υ
  | .task => s.ret
  | .member g i counter => s.goto (.groupLoop g (i + 1) counter)

/-- The start of a call. -/
def State.startCall (s : State N β υ) : DispatchCall → Option (State N β υ)
  | .taskAdd t =>
      if (s.heap.task t).waitable = true then
        some (((s.setCounter s.ip (eventCounterCreate 1)).storePrivateData t (some s.ip)).goto
          (.send t .task))
      else some (s.goto (.send t .task))
  | .groupAdd g =>
      if (s.heap.group g).waitable = true then
        some ((s.setCounter s.ip (eventCounterCreate (s.heap.group g).count)).goto
          (.groupLoop g 0 (some s.ip)))
      else some (s.goto (.groupLoop g 0 none))
  | .taskWait t =>
      -- the assertion that the task is waitable
      if (s.heap.task t).waitable = true then
        (s.heap.task t).privateData.map fun c => s.goto (.takeSemaphore c [t])
      else none
  | .groupWait g =>
      -- the assertion that the group is waitable, and the read of its first slot
      if (s.heap.group g).waitable = true then
        match (s.heap.group g).tasks with
        | [] => none
        | t :: ts => (s.heap.task t).privateData.map fun c =>
            s.goto (.takeSemaphore c (t :: ts))
      else none
  | .wait => some (s.goto .waitEmpty)
  | .delete => some (s.goto (.deleteThread 0))

/-- The statement of the client at its position; {lit}`none` when it is blocked or the
source has no defined behaviour. -/
def DispatchConfig.clientStep (d : DispatchConfig N β υ) (s : State N β υ) :
    Option (State N β υ) :=
  match s.client with
  | .setReadyBits =>
      some ({ s with xEventGroup := s.xEventGroup ||| xReadyBits N }.goto .ready)
  | .ready => (d.prog[s.ip]?).bind s.startCall
  | .groupLoop g i counter =>
      match (s.heap.group g).tasks[i]? with
      | none => some s.ret
      | some t => some ((s.storePrivateData t counter).goto (.send t (.member g i counter)))
  | .send t site =>
      if s.xQueue.length < d.length then
        some (({ s with xQueue := s.xQueue ++ [t] }.record fun h =>
          { h with sent := h.sent ++ [t] }).sent site)
      else none
  | .takeSemaphore c ts =>
      if (s.counter c).given = true then
        some ((s.setCounter c { s.counter c with given := false }).goto (.deleteSemaphore c ts))
      else none
  | .deleteSemaphore c ts =>
      some ((s.record fun h => { h with semaphoreDeleted := h.semaphoreDeleted ++ [c] }).goto
        (.freeCounter c ts))
  | .freeCounter c ts =>
      some ((s.record fun h => { h with counterFreed := h.counterFreed ++ [c] }).goto
        (.deleteTasks ts))
  | .deleteTasks [] => some s.ret
  | .deleteTasks (t :: ts) =>
      some ((s.record fun h => { h with taskFreed := h.taskFreed ++ [t] }).goto
        (.deleteTasks ts))
  | .waitEmpty => some (s.goto (if s.xQueue.length = 0 then .waitBits else .waitEmpty))
  | .waitBits => if s.xEventGroup &&& xReadyBits N = xReadyBits N then some s.ret else none
  | .deleteThread i =>
      if h : i < N then some ((s.release (.thread ⟨i, h⟩)).goto (.deleteThread (i + 1)))
      else some (s.goto .freeWorkerData)
  | .freeWorkerData => some ((s.release .workerData).goto .freeThreads)
  | .freeThreads => some ((s.release .threads).goto .deleteEventGroup)
  | .deleteEventGroup => some ((s.release .xEventGroup).goto .deleteQueue)
  | .deleteQueue => some (s.release .xQueue).ret

/-- The statement of worker {lit}`i` at its position; a deleted thread takes no step. -/
def workerStep (s : State N β υ) (i : Fin N) : Option (State N β υ) :=
  if s.released (.thread i) = true then none
  else match s.worker i with
  | .receive =>
      match s.xQueue with
      | [] => none
      | t :: rest => some ({ s with xQueue := rest }.workerGoto i (.clearBit t))
  | .clearBit t =>
      some ({ s with xEventGroup := s.xEventGroup &&& ~~~ xReadyBit i }.workerGoto i
        (.perform t))
  | .perform t =>
      some ((s.record fun h => { h with called := h.called ++ [t] }).workerGoto i (.running t))
  | .running t =>
      some (({ s with user := dispatchTaskPerform (s.heap.task t) s.user }.record fun h =>
        { h with returned := h.returned ++ [t] }).workerGoto i (.testWaitable t))
  | .testWaitable t =>
      some (s.workerGoto i
        (if (s.heap.task t).waitable = true then .readCounter t else .delete t))
  | .readCounter t => (s.heap.task t).privateData.map fun c => s.workerGoto i (.decrement c)
  | .decrement c =>
      let count := (s.counter c).count
      some ((s.setCounter c { s.counter c with count := count - 1 }).workerGoto i
        (if 0 < count ∧ count - 1 = 0 then .give c else .setBit))
  | .give c =>
      some ((s.setCounter c { s.counter c with given := true }).workerGoto i .setBit)
  | .delete t =>
      some ((s.record fun h => { h with taskFreed := h.taskFreed ++ [t] }).workerGoto i .setBit)
  | .setBit =>
      some ({ s with xEventGroup := s.xEventGroup ||| xReadyBit i }.workerGoto i .receive)

/-- After {lit}`dispatch_queue_create`, up to the last statement of
{lit}`dispatch_queue_init`: the threads are created and the event group is empty. -/
def DispatchConfig.init (d : DispatchConfig N β υ) : State N β υ where
  heap := d.heap
  xQueue := []
  xEventGroup := 0#32
  counter := fun _ => eventCounterCreate 0
  user := d.user
  released := fun _ => false
  history := .empty
  ip := 0
  client := .setReadyBits
  worker := fun _ => .receive

/-- The client and the workers of a FreeRTOS dispatch queue. -/
def DispatchConfig.system (d : DispatchConfig N β υ) : System (State N β υ) (Party N) where
  init := d.init
  step s
    | .client => d.clientStep s
    | .worker i => workerStep s i

end Rtos
end LibDispatch
