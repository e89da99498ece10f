import LibDispatch.Task
import LibDispatch.Metal.Threads

/-!
# The bare-metal dispatch queue

This module embeds {lit}`dispatch_queue_metal.c` and {lit}`event_counter_metal.c`: the worker
loop, the functions that add tasks and groups, the three functions that wait, and
{lit}`dispatch_queue_delete`.  Their code is the code around the queue functions of one
queue, so it is given as a {lit}`Caller` over threads that are clients {lit}`C` or workers
{lit}`Fin N`.  Each access to memory that another thread may access is a step.

An event counter is named by the client and the call that created it.  The function
of a task is entered in one step and applied to the user state in another, when it
returns.  The environment has, besides the memory of the program, a {lit}`History` that
no step reads: which tasks were called, returned, signalled, finished and freed.
-/

namespace LibDispatch
namespace Metal

/-! ## State -/

/-- {lit}`DISPATCH_WORKER_BUSY_STATUS` and {lit}`DISPATCH_WORKER_READY_STATUS`. -/
inductive WorkerStatus where
  | busy
  | ready
deriving DecidableEq, Repr

/-- {lit}`event_counter_t`: the owner of its spinlock, its count, and the end tokens sent
to {lit}`cend.end_a` and not yet checked. -/
structure EventCounter (ι : Type) where
  lock : Option ι
  count : Nat
  tokens : Nat
deriving DecidableEq, Repr

/-- {lit}`event_counter_create`. -/
def eventCounterCreate {ι : Type} (count : Nat) : EventCounter ι :=
  ⟨none, count, 0⟩

/-- What {lit}`dispatch_queue_delete` gives back after {lit}`queue_delete`. -/
inductive DispatchObject where
  | cend
  | threadStack
  | workerData
  | threadStatus
  | dispatchQueue
deriving DecidableEq, Repr

/-- What has happened so far, in order.  No step of the program depends on it. -/
structure History (C : Type) where
  /-- Tasks whose function was called. -/
  called : List Nat
  /-- Tasks whose function has returned. -/
  returned : List Nat
  /-- Tasks that executed the locked part of {lit}`event_counter_signal`. -/
  signalled : List Nat
  /-- Tasks for which {lit}`run_task` has returned. -/
  finished : List Nat
  /-- Counters whose end token was sent. -/
  tokenSent : List (C × Nat)
  /-- Tasks deleted by {lit}`run_task`. -/
  runFreed : List Nat
  /-- Tasks deleted by {lit}`dispatch_queue_task_wait` and {lit}`dispatch_queue_group_wait`. -/
  waitFreed : List Nat
  /-- Counters deleted. -/
  counterFreed : List (C × Nat)

/-- Nothing has happened. -/
def History.empty {C : Type} : History C :=
  ⟨[], [], [], [], [], [], [], []⟩

/-- The memory shared by the clients and the workers, apart from the queue. -/
structure Env (C : Type) (N : Nat) (β υ : Type) where
  heap : Heap β υ (C × Nat)
  /-- {lit}`thread_status` -/
  status : Fin N → WorkerStatus
  counter : C × Nat → EventCounter (C ⊕ Fin N)
  user : υ
  released : DispatchObject → Bool
  history : History C

/-! ## Positions -/

variable {C : Type} {N : Nat} {β υ : Type}

/-- Positions in {lit}`run_task`, with {lit}`event_counter_signal` inlined. -/
inductive RunPc (C : Type) where
  /-- {lit}`task->function(task->argument)`: the call. -/
  | perform
  /-- The function runs. -/
  | running
  /-- {lit}`if (task->waitable)` -/
  | testWaitable
  /-- {lit}`task->private_data` is read. -/
  | readCounter
  /-- {lit}`dispatch_spinlock_get(counter->lock)` -/
  | signalLock (counter : C × Nat)
  /-- The count is tested and decremented. -/
  | decrement (counter : C × Nat)
  /-- {lit}`dispatch_spinlock_put(counter->lock)` -/
  | signalUnlock (counter : C × Nat) (signal : Bool)
  /-- {lit}`chanend_out_end_token(counter->cend.end_b)` -/
  | sendToken (counter : C × Nat)
  /-- {lit}`dispatch_task_delete(task)` -/
  | delete
deriving DecidableEq, Repr

/-- Where a task is added: by {lit}`dispatch_queue_task_add`, or as {lit}`group->tasks[i]` by
{lit}`dispatch_queue_group_add` with its local variable {lit}`counter`. -/
inductive AddSite (C : Type) where
  | task
  | member (group i : Nat) (counter : Option (C × Nat))
deriving DecidableEq, Repr

/-- Positions of a client in the call it is making. -/
inductive ClientPc (C : Type) where
  /-- About to make the next call. -/
  | ready
  /-- {lit}`dispatch_queue_group_add`: the test of the loop and the store to
  {lit}`private_data`. -/
  | groupLoop (group i : Nat) (counter : Option (C × Nat))
  /-- {lit}`busy_workers` in the mode {lit}`use_callers_thread`. -/
  | addScan (task : Nat) (site : AddSite C) (i busy : Nat)
  /-- {lit}`run_task` in the mode {lit}`use_callers_thread`. -/
  | pitch (task : Nat) (site : AddSite C) (at_ : RunPc C)
  /-- {lit}`queue_send` -/
  | send (task : Nat) (site : AddSite C)
  /-- {lit}`chanend_check_end_token(counter->cend.end_a)`, and the tasks to be deleted. -/
  | checkToken (counter : C × Nat) (tasks : List Nat)
  /-- {lit}`event_counter_delete(counter)` -/
  | deleteCounter (counter : C × Nat) (tasks : List Nat)
  /-- {lit}`dispatch_task_delete` for the remaining tasks. -/
  | deleteTasks (tasks : List Nat)
  /-- {lit}`busy_workers` in {lit}`dispatch_queue_wait`. -/
  | waitScan (i busy : Nat)
  /-- {lit}`queue_size` in {lit}`dispatch_queue_wait`. -/
  | waitSize (busy : Nat)
  /-- The rest of {lit}`dispatch_queue_delete`. -/
  | freeObject (object : DispatchObject)
deriving DecidableEq, Repr

/-- Positions in {lit}`dispatch_queue_worker`. -/
inductive WorkerPc (C : Type) where
  /-- The worker data are read and the channel end is allocated. -/
  | start
  /-- {lit}`queue_receive` -/
  | receive
  /-- {lit}`*status = DISPATCH_WORKER_BUSY_STATUS` -/
  | setBusy (task : Nat)
  /-- {lit}`run_task(task)` -/
  | run (task : Nat) (at_ : RunPc C)
  /-- {lit}`*status = DISPATCH_WORKER_READY_STATUS` -/
  | setReady
  /-- {lit}`chanend_free(cend)` -/
  | freeCend
  | exited
deriving DecidableEq, Repr

/-- The local state of a thread: a client has made {lit}`ip` calls. -/
inductive Local (C : Type) where
  | client (ip : Nat) (pc : ClientPc C)
  | worker (pc : WorkerPc C)
deriving DecidableEq, Repr

/-- A dispatch queue as {lit}`dispatch_queue_create` makes it, the calls of its clients,
and the tasks and groups they have prepared. -/
structure DispatchConfig (C : Type) (N : Nat) (β υ : Type) where
  length : Nat
  /-- The assertion of {lit}`queue_create`. -/
  length_pos : 0 < length
  /-- {lit}`use_callers_thread` is defined. -/
  useCallersThread : Bool
  prog : C → List DispatchCall
  heap : Heap β υ (C × Nat)
  user : υ

/-! ## Statements -/

section Statements

variable [DecidableEq C]

/-- A task object after a store to its {lit}`private_data`. -/
def Env.storePrivateData (env : Env C N β υ) (t : Nat) (p : Option (C × Nat)) :
    Env C N β υ :=
  { env with heap := { env.heap with
      task := Function.update env.heap.task t { env.heap.task t with privateData := p } } }

/-- A counter object after a change. -/
def Env.setCounter (env : Env C N β υ) (c : C × Nat) (counter : EventCounter (C ⊕ Fin N)) :
    Env C N β υ :=
  { env with counter := Function.update env.counter c counter }

/-- The statement of {lit}`run_task` at a position, for task {lit}`t` in thread {lit}`me`.
{lit}`none` in the second component is the return. -/
def runTask (me : C ⊕ Fin N) (env : Env C N β υ) (t : Nat) :
    RunPc C → Option (Env C N β υ × Option (RunPc C))
  | .perform =>
      some ({ env with history :=
        { env.history with called := env.history.called ++ [t] } }, some .running)
  | .running =>
      some ({ env with
        user := dispatchTaskPerform (env.heap.task t) env.user
        history := { env.history with returned := env.history.returned ++ [t] } },
        some .testWaitable)
  | .testWaitable =>
      some (env, some (if (env.heap.task t).waitable = true then .readCounter else .delete))
  | .readCounter => (env.heap.task t).privateData.map fun c => (env, some (.signalLock c))
  | .signalLock c =>
      if (env.counter c).lock = none then
        some (env.setCounter c { env.counter c with lock := some me }, some (.decrement c))
      else none
  | .decrement c =>
      let count := (env.counter c).count
      some ({ env.setCounter c { env.counter c with count := count - 1 } with
        history := { env.history with signalled := env.history.signalled ++ [t] } },
        some (.signalUnlock c (decide (0 < count ∧ count - 1 = 0))))
  | .signalUnlock c signal =>
      let env' := env.setCounter c { env.counter c with lock := none }
      if signal = true then some (env', some (.sendToken c))
      else some ({ env' with
        history := { env.history with finished := env.history.finished ++ [t] } }, none)
  | .sendToken c =>
      some ({ env.setCounter c { env.counter c with tokens := (env.counter c).tokens + 1 } with
        history := { env.history with
          tokenSent := env.history.tokenSent ++ [c]
          finished := env.history.finished ++ [t] } }, none)
  | .delete =>
      some ({ env with history := { env.history with
        runFreed := env.history.runFreed ++ [t]
        finished := env.history.finished ++ [t] } }, none)

/-- Where a client goes on after the task of a site was added. -/
def AddSite.next (ip : Nat) : AddSite C → Local C
  | .task => .client (ip + 1) .ready
  | .member g i counter => .client ip (.groupLoop g (i + 1) counter)

/-- Where a client goes to add a task whose {lit}`private_data` is set. -/
def DispatchConfig.addEntry (d : DispatchConfig C N β υ) (t : Nat) (site : AddSite C) :
    ClientPc C :=
  if d.useCallersThread = true then .addScan t site 0 0 else .send t site

/-- The start of a call of client {lit}`c`, its {lit}`ip`-th. -/
def DispatchConfig.startCall (d : DispatchConfig C N β υ) (c : C) (ip : Nat)
    (env : Env C N β υ) : DispatchCall → Option (Local C × Env C N β υ)
  | .taskAdd t =>
      some (.client ip (d.addEntry t .task),
        if (env.heap.task t).waitable = true then
          (env.setCounter (c, ip) (eventCounterCreate 1)).storePrivateData t (some (c, ip))
        else env)
  | .groupAdd g =>
      if (env.heap.group g).waitable = true then
        some (.client ip (.groupLoop g 0 (some (c, ip))),
          env.setCounter (c, ip) (eventCounterCreate (env.heap.group g).count))
      else some (.client ip (.groupLoop g 0 none), env)
  | .taskWait t =>
      -- the assertion that the task is waitable
      if (env.heap.task t).waitable = true then
        (env.heap.task t).privateData.map fun counter =>
          (.client ip (.checkToken counter [t]), env)
      else none
  | .groupWait g =>
      -- the assertion that the group is waitable, and the read of its first slot
      if (env.heap.group g).waitable = true then
        match (env.heap.group g).tasks with
        | [] => none
        | t :: ts => (env.heap.task t).privateData.map fun counter =>
            (.client ip (.checkToken counter (t :: ts)), env)
      else none
  | .wait => some (.client ip (.waitScan 0 0), env)
  | .delete => none

/-- The number of busy workers after reading one more status word. -/
def busyCount (status : WorkerStatus) (busy : Nat) : Nat :=
  if status = .busy then busy + 1 else busy

/-- The next object that {lit}`dispatch_queue_delete` gives back. -/
def DispatchObject.next : DispatchObject → Option DispatchObject
  | .cend => some .threadStack
  | .threadStack => some .workerData
  | .workerData => some .threadStatus
  | .threadStatus => some .dispatchQueue
  | .dispatchQueue => none

/-- A step of client {lit}`c` outside the queue functions. -/
def DispatchConfig.clientStep (d : DispatchConfig C N β υ) (c : C) (ip : Nat)
    (env : Env C N β υ) : ClientPc C → Option (Local C × Env C N β υ)
  | .ready => ((d.prog c)[ip]?).bind (d.startCall c ip env)
  | .groupLoop g i counter =>
      match (env.heap.group g).tasks[i]? with
      | none => some (.client (ip + 1) .ready, env)
      | some t =>
          some (.client ip (d.addEntry t (.member g i counter)),
            env.storePrivateData t counter)
  | .addScan t site i busy =>
      if h : i < N then
        some (.client ip (.addScan t site (i + 1) (busyCount (env.status ⟨i, h⟩) busy)), env)
      else if busy = N then some (.client ip (.pitch t site .perform), env)
      else some (.client ip (.send t site), env)
  | .pitch t site at_ =>
      (runTask (.inl c) env t at_).map fun r =>
        (match r.2 with
          | some at' => .client ip (.pitch t site at')
          | none => site.next ip, r.1)
  | .send _ _ => none
  | .checkToken counter tasks =>
      if 0 < (env.counter counter).tokens then
        some (.client ip (.deleteCounter counter tasks),
          env.setCounter counter
            { env.counter counter with tokens := (env.counter counter).tokens - 1 })
      else none
  | .deleteCounter counter tasks =>
      some (.client ip (.deleteTasks tasks), { env with history :=
        { env.history with counterFreed := env.history.counterFreed ++ [counter] } })
  | .deleteTasks [] => some (.client (ip + 1) .ready, env)
  | .deleteTasks (t :: ts) =>
      some (.client ip (.deleteTasks ts), { env with history :=
        { env.history with waitFreed := env.history.waitFreed ++ [t] } })
  | .waitScan i busy =>
      if h : i < N then
        some (.client ip (.waitScan (i + 1) (busyCount (env.status ⟨i, h⟩) busy)), env)
      else some (.client ip (.waitSize busy), env)
  | .waitSize _ => none
  | .freeObject object =>
      some (match object.next with
        | some object' => .client ip (.freeObject object')
        | none => .client (ip + 1) .ready,
        { env with released := Function.update env.released object true })

/-- A step of worker {lit}`i` outside {lit}`queue_receive`. -/
def workerStep (i : Fin N) (env : Env C N β υ) :
    WorkerPc C → Option (Local C × Env C N β υ)
  | .start => some (.worker .receive, env)
  | .receive => none
  | .setBusy t =>
      some (.worker (.run t .perform),
        { env with status := Function.update env.status i .busy })
  | .run t at_ =>
      (runTask (.inr i) env t at_).map fun r =>
        (match r.2 with
          | some at' => .worker (.run t at')
          | none => .worker .setReady, r.1)
  | .setReady =>
      some (.worker .receive, { env with status := Function.update env.status i .ready })
  | .freeCend => some (.worker .exited, env)
  | .exited => none

/-- The clients and the workers of a dispatch queue as callers of its queue.  The
items of the queue are the names of the tasks. -/
def DispatchConfig.caller (d : DispatchConfig C N β υ) :
    Caller (C ⊕ Fin N) (Local C) (Env C N β υ) Nat where
  call
    | .inl c, .client ip .ready =>
        if (d.prog c)[ip]? = some .delete then some .delete else none
    | .inl _, .client _ (.send t _) => some (.send t)
    | .inl _, .client _ (.waitSize _) => some .size
    | .inr _, .worker .receive => some .receive
    | _, _ => none
  ret
    -- the boolean that `queue_send` returns is ignored
    | _, .client ip (.send _ site), _ => site.next ip
    | _, .client ip (.waitSize busy), .size count =>
        if busy + count = 0 then .client (ip + 1) .ready else .client ip (.waitScan 0 0)
    | _, .client ip .ready, .deleted => .client ip (.freeObject .cend)
    | _, .worker .receive, .received t => .worker (.setBusy t)
    | _, .worker .receive, .terminated => .worker .freeCend
    | _, k, _ => k
  step
    | .inl c, .client ip pc, env => d.clientStep c ip env pc
    | .inr i, .worker pc, env => workerStep i env pc
    | _, _, _ => none

/-- All clients share the channel end of the dispatch queue, each worker has one of
its own. -/
def dispatchWiring (C : Type) (N : Nat) (handshake : Bool) :
    Wiring (C ⊕ Fin N) (Option (Fin N)) where
  cend := Sum.elim (fun _ => none) some
  handshake := handshake

/-- The environment after {lit}`dispatch_queue_create` and {lit}`dispatch_queue_init`. -/
def DispatchConfig.env (d : DispatchConfig C N β υ) : Env C N β υ where
  heap := d.heap
  status := fun _ => .ready
  counter := fun _ => eventCounterCreate 0
  user := d.user
  released := fun _ => false
  history := .empty

/-- Clients before their first call, workers launched. -/
def dispatchStart : C ⊕ Fin N → Local C
  | .inl _ => .client 0 .ready
  | .inr _ => .worker .start

/-- The dispatch queue over the queue of the source. -/
def DispatchConfig.threads (d : DispatchConfig C N β υ) (handshake : Bool) :
    System (State (C ⊕ Fin N) (Option (Fin N)) Nat (Local C) (Env C N β υ)) (C ⊕ Fin N) :=
  Metal.threads (dispatchWiring C N handshake) d.caller d.length d.env dispatchStart

/-- The dispatch queue over an atomic list of bounded length. -/
def DispatchConfig.atomicThreads (d : DispatchConfig C N β υ) :
    System (AtomicState (C ⊕ Fin N) Nat (Local C) (Env C N β υ)) (C ⊕ Fin N) :=
  Metal.atomicThreads d.caller d.length d.env dispatchStart

end Statements

end Metal
end LibDispatch
