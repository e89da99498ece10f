import Mathlib.Logic.Function.Basic

/-!
# The bare-metal queue

This module embeds {lit}`queue_metal.c` and {lit}`condition_variable_metal.c`.  A
queue function runs in a thread, one small step at a time: each lock operation,
each access to a field of the queue that the source makes in a statement of its
own, each channel operation is a step, so that the interleavings of the model are
those of the program.  A position inside a function is a program counter
{lit}`Pc`, and {lit}`Queue.step` executes the statement at that position.

The spinlock, the mutex and the channel ends are primitives of the platform.  A
lock is its owner.  A byte sent to a channel end is in flight until the thread
that reads from that channel end takes it.  Whether an output returns at once or
only when the byte has been taken is the parameter {lit}`Wiring.handshake`, so
that every result below covers both.

A {lit}`condition_node_t` lives in the stack frame of the waiting thread, so a
pointer to one is the name of that thread.  The node is there from
{lit}`WaitPc.link` until {lit}`condition_variable_wait` returns, which is a step of its
own after the byte has been read.  After that the field {lit}`node` still has the last
contents of the node, while in the program they are in a dead frame and a read of them has
no meaning.  Only {lit}`condition_variable_terminate` can make such a read, of {lit}`next`: which
runs do is the subject of {lit}`Metal.Traversal`, and a run in which it happens counts for
nothing in {lit}`Metal.Shutdown`.
-/

namespace LibDispatch
namespace Metal

variable {ι χ α : Type}

/-! ## State -/

/-- {lit}`CONDITION_SIGNAL_EVT` and {lit}`CONDITION_TERMINATE_EVT`. -/
inductive ConditionEvent where
  | signal
  | terminate
deriving DecidableEq, Repr

/-- {lit}`condition_node_t`; the node of a thread is named by the thread. -/
structure ConditionNode (ι χ : Type) where
  cend : χ
  next : Option ι

/-- What {lit}`queue_delete` gives back. -/
inductive QueueObject where
  | queue
  | ringBuffer
  | conditionVariable
  | spinlock
  | mutex
deriving DecidableEq, Repr

/-- The channel end that each thread passes to the queue functions, and whether
an output on a channel waits for the byte to be taken. -/
structure Wiring (ι χ : Type) where
  cend : ι → χ
  handshake : Bool

/-- A {lit}`queue_t` with its {lit}`condition_variable_t`, its two locks, the nodes in the
threads' stack frames, the destination registers of the channel ends and the
bytes in flight to them. -/
structure Queue (ι χ α : Type) where
  /-- The slots; {lit}`none` is a slot never written since it was allocated. -/
  ringBuffer : Nat → Option α
  head : Nat
  tail : Nat
  length : Nat
  full : Bool
  /-- Owner of {lit}`queue->mutex`. -/
  mutex : Option ι
  /-- Owner of {lit}`cv->lock`. -/
  cvLock : Option ι
  /-- {lit}`cv->waiters`. -/
  waiters : Option ι
  /-- The node of each thread, with its last contents when it is not there. -/
  node : ι → ConditionNode ι χ
  dest : χ → χ
  inFlight : χ → List ConditionEvent
  released : QueueObject → Bool

/-- {lit}`queue_create`.  The assertion {lit}`length > 0` is a field of the
configurations that use it. -/
def queueCreate (wiring : Wiring ι χ) (length : Nat) : Queue ι χ α where
  ringBuffer := fun _ => none
  head := 0
  tail := 0
  length := length
  full := false
  mutex := none
  cvLock := none
  waiters := none
  node := fun t => ⟨wiring.cend t, none⟩
  dest := id
  inFlight := fun _ => []
  released := fun _ => false

/-- {lit}`queue_full`. -/
def queueFull (q : Queue ι χ α) : Bool :=
  q.full

/-- {lit}`queue_empty`. -/
def queueEmpty (q : Queue ι χ α) : Bool :=
  !q.full && q.head == q.tail

/-- The value computed by {lit}`queue_size` between taking and giving back the mutex. -/
def queueSize (q : Queue ι χ α) : Nat :=
  if q.full = false then
    if q.tail ≤ q.head then q.head - q.tail else q.length + q.head - q.tail
  else q.length

/-! ## Program counters -/

/-- Positions in {lit}`condition_variable_wait`. -/
inductive WaitPc where
  /-- {lit}`dispatch_spinlock_get(cv->lock)` -/
  | lock
  /-- The waiter's node is filled in and put in front of the list. -/
  | link
  /-- {lit}`dispatch_spinlock_put(cv->lock)` -/
  | unlock
  /-- {lit}`dispatch_mutex_put(lock)` -/
  | release
  /-- {lit}`chan_in_byte(waiter.cend)` and the test of the event. -/
  | chanIn
  /-- {lit}`dispatch_mutex_get(lock)` and {lit}`return true` after a signal. -/
  | reacquire
  /-- {lit}`return false` after any other event. -/
  | leave
deriving DecidableEq, Repr

/-- Positions in {lit}`condition_variable_broadcast` and {lit}`condition_variable_terminate`. -/
inductive WakePc where
  /-- {lit}`dispatch_spinlock_get(cv->lock)` -/
  | lock
  /-- The loop test, and {lit}`condition_variable_send` up to its output when there is
  a waiter. -/
  | test
  /-- The output in {lit}`condition_variable_send` waits for its byte to be taken. -/
  | ack
  /-- {lit}`cv->waiters = cv->waiters->next` -/
  | unlink
  /-- {lit}`dispatch_spinlock_put(cv->lock)` -/
  | unlock
deriving DecidableEq, Repr

/-- The two functions that wait on the condition variable. -/
inductive QueueOp (α : Type) where
  | send (item : α)
  | receive
deriving DecidableEq, Repr

/-- A call of a queue function. -/
inductive Call (α : Type) where
  | send (item : α)
  | receive
  | size
  | delete
deriving DecidableEq, Repr

/-- What a queue function returns: {lit}`queue_send` and {lit}`queue_receive` return
true ({lit}`sent`, {lit}`received` with the item stored through the pointer argument)
or false ({lit}`terminated`). -/
inductive Result (α : Type) where
  | sent
  | received (item : α)
  | terminated
  | size (count : Nat)
  | deleted
deriving DecidableEq, Repr

/-- Positions in the queue functions. -/
inductive Pc (α : Type) where
  /-- The first {lit}`dispatch_mutex_get(queue->mutex)` of {lit}`queue_send` and
  {lit}`queue_receive`. -/
  | lock (op : QueueOp α)
  /-- The test of their {lit}`while` loop. -/
  | test (op : QueueOp α)
  /-- Inside {lit}`condition_variable_wait`. -/
  | wait (op : QueueOp α) (at_ : WaitPc)
  /-- {lit}`queue->ring_buffer[queue->head] = item` -/
  | store (item : α)
  /-- {lit}`if (queue->full) queue->tail = ...` -/
  | overwrite (item : α)
  /-- {lit}`queue->head = ...` -/
  | advanceHead (item : α)
  /-- {lit}`queue->full = (queue->head == queue->tail)` -/
  | setFull (item : α)
  /-- {lit}`*item = queue->ring_buffer[queue->tail]` -/
  | load
  /-- {lit}`queue->full = false` -/
  | clearFull (item : α)
  /-- {lit}`queue->tail = ...` -/
  | advanceTail (item : α)
  /-- Inside {lit}`condition_variable_broadcast`, with the value to be returned. -/
  | broadcast (result : Result α) (at_ : WakePc)
  /-- The last {lit}`dispatch_mutex_put(queue->mutex)`. -/
  | unlock (result : Result α)
  /-- {lit}`queue_size`: taking the mutex. -/
  | sizeLock
  /-- {lit}`queue_size`: reading the fields under the mutex. -/
  | sizeRead
  /-- {lit}`queue_delete`: inside {lit}`condition_variable_terminate`. -/
  | terminate (at_ : WakePc)
  /-- {lit}`condition_variable_delete`: {lit}`dispatch_spinlock_delete(cv->lock)` -/
  | deleteSpinlock
  /-- {lit}`condition_variable_delete`: {lit}`dispatch_free(cv)` -/
  | freeConditionVariable
  /-- {lit}`dispatch_mutex_delete(queue->mutex)` -/
  | deleteMutex
  /-- {lit}`dispatch_free(queue->ring_buffer)` -/
  | freeRingBuffer
  /-- {lit}`dispatch_free(queue)` -/
  | freeQueue
deriving DecidableEq, Repr

/-- Where a call starts. -/
def Call.entry : Call α → Pc α
  | .send item => .lock (.send item)
  | .receive => .lock .receive
  | .size => .sizeLock
  | .delete => .terminate .lock

/-- A function goes on at a position or returns. -/
inductive Control (α : Type) where
  | goto (pc : Pc α)
  | ret (result : Result α)
deriving DecidableEq, Repr

/-! ## Condition variable -/

section ConditionVariable

variable [DecidableEq ι] [DecidableEq χ]

/-- {lit}`condition_variable_wait` for thread {lit}`t`.  The boolean is its return value. -/
def conditionVariableWait (wiring : Wiring ι χ) (q : Queue ι χ α) (t : ι) :
    WaitPc → Option (Queue ι χ α × (WaitPc ⊕ Bool))
  | .lock => if q.cvLock = none then some ({ q with cvLock := some t }, .inl .link) else none
  | .link =>
      some ({ q with
        node := Function.update q.node t ⟨wiring.cend t, q.waiters⟩
        waiters := some t }, .inl .unlock)
  | .unlock => some ({ q with cvLock := none }, .inl .release)
  | .release => some ({ q with mutex := none }, .inl .chanIn)
  | .chanIn =>
      match q.inFlight (q.node t).cend with
      | [] => none
      | evt :: rest =>
          some ({ q with inFlight := Function.update q.inFlight (q.node t).cend rest },
            .inl (if evt = .signal then .reacquire else .leave))
  | .reacquire => if q.mutex = none then some ({ q with mutex := some t }, .inr true) else none
  | .leave => some (q, .inr false)

/-- {lit}`condition_variable_send` up to the output of its byte: both destination
registers are set, and the byte goes where the source's register points. -/
def conditionVariableSend (q : Queue ι χ α) (source dest : χ) (evt : ConditionEvent) :
    Queue ι χ α :=
  let dests := Function.update (Function.update q.dest source dest) dest source
  { q with
    dest := dests
    inFlight := Function.update q.inFlight (dests source)
      (q.inFlight (dests source) ++ [evt]) }

/-- The loop that {lit}`condition_variable_broadcast` and
{lit}`condition_variable_terminate` share, for thread {lit}`t`.  {lit}`none` in the second
component is the return.  The turns at {lit}`.test` and {lit}`.unlink` read the first
waiter's node. -/
def conditionVariableWake (evt : ConditionEvent) (wiring : Wiring ι χ) (q : Queue ι χ α)
    (t : ι) : WakePc → Option (Queue ι χ α × Option WakePc)
  | .lock => if q.cvLock = none then some ({ q with cvLock := some t }, some .test) else none
  | .test =>
      match q.waiters with
      | none => some (q, some .unlock)
      | some w =>
          some (conditionVariableSend q (wiring.cend t) (q.node w).cend evt, some .ack)
  | .ack =>
      if wiring.handshake = true ∧ q.inFlight (q.dest (wiring.cend t)) ≠ [] then none
      else some (q, some .unlink)
  | .unlink =>
      match q.waiters with
      | none => none
      | some w => some ({ q with waiters := (q.node w).next }, some .test)
  | .unlock => some ({ q with cvLock := none }, none)

/-- {lit}`condition_variable_broadcast`. -/
def conditionVariableBroadcast (wiring : Wiring ι χ) (q : Queue ι χ α) (t : ι) :
    WakePc → Option (Queue ι χ α × Option WakePc) :=
  conditionVariableWake .signal wiring q t

/-- {lit}`condition_variable_terminate`. -/
def conditionVariableTerminate (wiring : Wiring ι χ) (q : Queue ι χ α) (t : ι) :
    WakePc → Option (Queue ι χ α × Option WakePc) :=
  conditionVariableWake .terminate wiring q t

end ConditionVariable

/-! ## Queue functions -/

/-- The predicate of the {lit}`while` loop of {lit}`queue_send` and {lit}`queue_receive`. -/
def QueueOp.blocked (q : Queue ι χ α) : QueueOp α → Bool
  | .send _ => queueFull q
  | .receive => queueEmpty q

/-- The statement after that loop. -/
def QueueOp.proceed : QueueOp α → Pc α
  | .send item => .store item
  | .receive => .load

variable [DecidableEq ι] [DecidableEq χ]

/-- The statement of a queue function at a position, executed by thread {lit}`t`;
{lit}`none` when the thread cannot go on: a lock is taken, no byte has arrived, or the
position is one where the source has no defined behaviour (a slot never written,
a null pointer). -/
def Queue.step (wiring : Wiring ι χ) (q : Queue ι χ α) (t : ι) :
    Pc α → Option (Queue ι χ α × Control α)
  -- queue_send and queue_receive up to the critical section
  | .lock op =>
      if q.mutex = none then some ({ q with mutex := some t }, .goto (.test op)) else none
  | .test op =>
      some (q, .goto (if op.blocked q = true then .wait op .lock else op.proceed))
  | .wait op at_ =>
      (conditionVariableWait wiring q t at_).map fun r => (r.1,
        match r.2 with
        | .inl at' => .goto (.wait op at')
        | .inr true => .goto (.test op)
        | .inr false => .ret .terminated)
  -- the critical section of queue_send
  | .store item =>
      some ({ q with ringBuffer := Function.update q.ringBuffer q.head (some item) },
        .goto (.overwrite item))
  | .overwrite item =>
      some (if q.full = true then { q with tail := (q.tail + 1) % q.length } else q,
        .goto (.advanceHead item))
  | .advanceHead item =>
      some ({ q with head := (q.head + 1) % q.length }, .goto (.setFull item))
  | .setFull _ =>
      some ({ q with full := decide (q.head = q.tail) }, .goto (.broadcast .sent .lock))
  -- the critical section of queue_receive
  | .load => (q.ringBuffer q.tail).map fun item => (q, .goto (.clearFull item))
  | .clearFull item => some ({ q with full := false }, .goto (.advanceTail item))
  | .advanceTail item =>
      some ({ q with tail := (q.tail + 1) % q.length },
        .goto (.broadcast (.received item) .lock))
  -- their common end
  | .broadcast result at_ =>
      (conditionVariableBroadcast wiring q t at_).map fun r => (r.1,
        match r.2 with
        | some at' => .goto (.broadcast result at')
        | none => .goto (.unlock result))
  | .unlock result => some ({ q with mutex := none }, .ret result)
  -- queue_size
  | .sizeLock =>
      if q.mutex = none then some ({ q with mutex := some t }, .goto .sizeRead) else none
  | .sizeRead => some (q, .goto (.unlock (.size (queueSize q))))
  -- queue_delete
  | .terminate at_ =>
      (conditionVariableTerminate wiring q t at_).map fun r => (r.1,
        match r.2 with
        | some at' => .goto (.terminate at')
        | none => .goto .deleteSpinlock)
  | .deleteSpinlock =>
      some ({ q with released := Function.update q.released .spinlock true },
        .goto .freeConditionVariable)
  | .freeConditionVariable =>
      some ({ q with released := Function.update q.released .conditionVariable true },
        .goto .deleteMutex)
  | .deleteMutex =>
      some ({ q with released := Function.update q.released .mutex true },
        .goto .freeRingBuffer)
  | .freeRingBuffer =>
      some ({ q with released := Function.update q.released .ringBuffer true },
        .goto .freeQueue)
  | .freeQueue =>
      some ({ q with released := Function.update q.released .queue true }, .ret .deleted)

end Metal
end LibDispatch
