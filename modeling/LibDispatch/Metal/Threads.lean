import LibDispatch.Library.Transition
import LibDispatch.Metal.Queue

/-!
# Threads around a queue

A program that uses a bare-metal queue is a set of threads, each with local
state of its own, and an environment they share.  Its code outside the queue
functions is a {lit}`Caller`: what a thread is about to call, how it goes on after a
return, and the steps it takes itself.  Two systems run a caller:

- {lit}`threads` executes the queue functions statement by statement, over a
  {lit}`Queue` with its mutex, condition variable and ring buffer;
- {lit}`atomicThreads` is the purpose of the queue: a list of bounded length on which
  a call acts in one step, a send when there is room and a receive when there is an
  item.

Main results:

- Theorem {lit}`threads_step_cases`: everything one step of a thread can do.
- Theorem {lit}`atomicThreads_history`: in the atomic system the items sent are the
  items received followed by the items held, and the bound is respected.
-/

namespace LibDispatch
namespace Metal

variable {ι χ α κ μ : Type}

/-! ## Callers -/

/-- The code around the queue functions, for threads {lit}`ι` with local states
{lit}`κ` and a shared environment {lit}`μ`. -/
structure Caller (ι κ μ α : Type) where
  /-- The queue function that the thread is about to call, if it is at a call. -/
  call : ι → κ → Option (Call α)
  /-- The local state after the call has returned. -/
  ret : ι → κ → Result α → κ
  /-- A step of the thread's own code. -/
  step : ι → κ → μ → Option (κ × μ)

/-- The caller never deletes the queue. -/
def Caller.NoDelete (caller : Caller ι κ μ α) : Prop :=
  ∀ t k, caller.call t k ≠ some .delete

/-- Threads that do nothing but call queue functions: {lit}`script t n` is the call
that thread {lit}`t` makes after {lit}`n` completed calls. -/
def scriptCaller (script : ι → Nat → Option (Call α)) : Caller ι Nat Unit α where
  call t n := script t n
  ret _ n _ := n + 1
  step _ _ _ := none

/-- A thread that sends a list of items and stops. -/
def producer (items : List α) (n : Nat) : Option (Call α) :=
  items[n]?.map .send

/-- A thread that loops on {lit}`queue_receive`. -/
def consumer (_ : Nat) : Option (Call α) :=
  some .receive

theorem producer_ne_delete (items : List α) (n : Nat) : producer items n ≠ some .delete := by
  unfold producer
  cases items[n]? <;> simp

theorem consumer_ne_delete (n : Nat) : (consumer n : Option (Call α)) ≠ some .delete := by
  simp [consumer]

/-- A thread runs its own code or is inside a queue function that its local state
{lit}`k` called. -/
inductive Thread (κ α : Type) where
  | outside (k : κ)
  | inside (k : κ) (pc : Pc α)
deriving DecidableEq, Repr

/-- A thread after a step of the queue function it is in. -/
def Thread.resume (caller : Caller ι κ μ α) (t : ι) (k : κ) : Control α → Thread κ α
  | .goto pc => .inside k pc
  | .ret result => .outside (caller.ret t k result)

/-! ## The two systems -/

/-- A queue, the shared environment and the threads. -/
structure State (ι χ α κ μ : Type) where
  queue : Queue ι χ α
  env : μ
  thread : ι → Thread κ α

/-- A list, the shared environment and the local states of the threads. -/
structure AtomicState (ι α κ μ : Type) where
  fifo : List α
  env : μ
  thread : ι → κ

/-- What a run shows of the queue: the sends and receives that took effect. -/
inductive QueueEvent (α : Type) where
  | sent (item : α)
  | received (item : α)
deriving DecidableEq, Repr

/-- The items sent in a history. -/
def sentItems (tr : List (ι × QueueEvent α)) : List α :=
  tr.filterMap fun e => match e.2 with | .sent item => some item | .received _ => none

/-- The items received in a history. -/
def receivedItems (tr : List (ι × QueueEvent α)) : List α :=
  tr.filterMap fun e => match e.2 with | .received item => some item | .sent _ => none

@[simp]
theorem sentItems_append (tr tr' : List (ι × QueueEvent α)) :
    sentItems (tr ++ tr') = sentItems tr ++ sentItems tr' :=
  List.filterMap_append

@[simp]
theorem receivedItems_append (tr tr' : List (ι × QueueEvent α)) :
    receivedItems (tr ++ tr') = receivedItems tr ++ receivedItems tr' :=
  List.filterMap_append

@[simp]
theorem sentItems_nil : sentItems ([] : List (ι × QueueEvent α)) = [] :=
  rfl

@[simp]
theorem receivedItems_nil : receivedItems ([] : List (ι × QueueEvent α)) = [] :=
  rfl

@[simp]
theorem sentItems_sent (t : ι) (item : α) : sentItems [(t, .sent item)] = [item] :=
  rfl

@[simp]
theorem receivedItems_sent (t : ι) (item : α) : receivedItems [(t, .sent item)] = [] :=
  rfl

@[simp]
theorem sentItems_received (t : ι) (item : α) : sentItems [(t, .received item)] = [] :=
  rfl

@[simp]
theorem receivedItems_received (t : ι) (item : α) :
    receivedItems [(t, .received item)] = [item] :=
  rfl

variable [DecidableEq ι]

/-- Threads over the queue of the source, on a queue of the given length and from
the given environment and local states. -/
def threads [DecidableEq χ] (wiring : Wiring ι χ) (caller : Caller ι κ μ α) (length : Nat)
    (env : μ) (start : ι → κ) : System (State ι χ α κ μ) ι where
  init := ⟨queueCreate wiring length, env, fun t => .outside (start t)⟩
  step s t :=
    match s.thread t with
    | .outside k =>
        match caller.call t k with
        | some c => some { s with thread := Function.update s.thread t (.inside k c.entry) }
        | none => (caller.step t k s.env).map fun r =>
            { s with env := r.2, thread := Function.update s.thread t (.outside r.1) }
    | .inside k pc => (s.queue.step wiring t pc).map fun r =>
        { s with
          queue := r.1
          thread := Function.update s.thread t (Thread.resume caller t k r.2) }

/-- The send or receive that takes effect in a step: the last store to the
indices of the queue. -/
def queueEvents (s : State ι χ α κ μ) (t : ι) : List (ι × QueueEvent α) :=
  match s.thread t with
  | .inside _ (.setFull item) => [(t, .sent item)]
  | .inside _ (.advanceTail item) => [(t, .received item)]
  | _ => []

/-- One call on the list. -/
def atomicCall (length : Nat) (fifo : List α) : Call α → Option (List α × Result α)
  | .send item => if fifo.length < length then some (fifo ++ [item], .sent) else none
  | .receive =>
      match fifo with
      | [] => none
      | item :: rest => some (rest, .received item)
  | .size => some (fifo, .size fifo.length)
  | .delete => none

/-- Threads over an atomic list of bounded length. -/
def atomicThreads (caller : Caller ι κ μ α) (length : Nat) (env : μ) (start : ι → κ) :
    System (AtomicState ι α κ μ) ι where
  init := ⟨[], env, start⟩
  step a t :=
    match caller.call t (a.thread t) with
    | some c => (atomicCall length a.fifo c).map fun r =>
        { a with
          fifo := r.1
          thread := Function.update a.thread t (caller.ret t (a.thread t) r.2) }
    | none => (caller.step t (a.thread t) a.env).map fun r =>
        { a with env := r.2, thread := Function.update a.thread t r.1 }

/-- The send or receive that an atomic step performs. -/
def atomicEvents (caller : Caller ι κ μ α) (a : AtomicState ι α κ μ) (t : ι) :
    List (ι × QueueEvent α) :=
  match caller.call t (a.thread t), a.fifo with
  | some (.send item), _ => [(t, .sent item)]
  | some .receive, item :: _ => [(t, .received item)]
  | _, _ => []

/-! ## What a step can do -/

section Steps

variable {wiring : Wiring ι χ} {caller : Caller ι κ μ α} {length : Nat} {env : μ}
  {start : ι → κ}

/-- A step of a thread starts a call, is a step of its own code, or executes one
statement of the queue function it is in. -/
theorem threads_step_cases [DecidableEq χ] {s s' : State ι χ α κ μ} {t : ι}
    (h : (threads wiring caller length env start).step s t = some s') :
    (∃ k c, s.thread t = .outside k ∧ caller.call t k = some c ∧
      s' = { s with thread := Function.update s.thread t (.inside k c.entry) }) ∨
    (∃ k k' env', s.thread t = .outside k ∧ caller.call t k = none ∧
      caller.step t k s.env = some (k', env') ∧
      s' = { s with env := env', thread := Function.update s.thread t (.outside k') }) ∨
    (∃ k pc q' c, s.thread t = .inside k pc ∧
      s.queue.step wiring t pc = some (q', c) ∧
      s' = { s with
        queue := q'
        thread := Function.update s.thread t (Thread.resume caller t k c) }) := by
  simp only [threads] at h
  split at h
  · rename_i k hk
    split at h
    · rename_i c hc
      exact Or.inl ⟨k, c, hk, hc, (Option.some.inj h).symm⟩
    · rename_i hc
      rcases Option.map_eq_some_iff.mp h with ⟨⟨k', env'⟩, hstep, rfl⟩
      exact Or.inr (Or.inl ⟨k, k', env', hk, hc, hstep, rfl⟩)
  · rename_i k pc hk
    rcases Option.map_eq_some_iff.mp h with ⟨⟨q', c⟩, hstep, rfl⟩
    exact Or.inr (Or.inr ⟨k, pc, q', c, hk, hstep, rfl⟩)

/-- The statement of a thread inside a queue function is a step of the system. -/
theorem threads_step_inside [DecidableEq χ] {s : State ι χ α κ μ} {t : ι} {k : κ} {pc : Pc α}
    {q' : Queue ι χ α} {c : Control α}
    (hk : s.thread t = .inside k pc) (hq : s.queue.step wiring t pc = some (q', c)) :
    (threads wiring caller length env start).step s t = some { s with
      queue := q'
      thread := Function.update s.thread t (Thread.resume caller t k c) } := by
  simp [threads, hk, hq]

/-- A step of a thread's own code is a step of the system. -/
theorem threads_step_outside [DecidableEq χ] {s : State ι χ α κ μ} {t : ι} {k k' : κ} {env' : μ}
    (hk : s.thread t = .outside k) (hcall : caller.call t k = none)
    (hstep : caller.step t k s.env = some (k', env')) :
    (threads wiring caller length env start).step s t = some { s with
      env := env'
      thread := Function.update s.thread t (.outside k') } := by
  simp [threads, hk, hcall, hstep]

/-- A step of one thread leaves the others where they are. -/
theorem threads_step_frame [DecidableEq χ] {s s' : State ι χ α κ μ} {t u : ι}
    (h : (threads wiring caller length env start).step s t = some s') (hut : u ≠ t) :
    s'.thread u = s.thread u := by
  rcases threads_step_cases h with
    ⟨k, c, -, -, rfl⟩ | ⟨k, k', env', -, -, -, rfl⟩ | ⟨k, pc, q', c, -, -, rfl⟩
  · exact Function.update_of_ne hut _ _
  · exact Function.update_of_ne hut _ _
  · exact Function.update_of_ne hut _ _

/-- An atomic step performs a call on the list or is a step of the caller's code. -/
theorem atomicThreads_step_cases {a a' : AtomicState ι α κ μ} {t : ι}
    (h : (atomicThreads caller length env start).step a t = some a') :
    (∃ c fifo' r, caller.call t (a.thread t) = some c ∧
      atomicCall length a.fifo c = some (fifo', r) ∧
      a' = { a with
        fifo := fifo'
        thread := Function.update a.thread t (caller.ret t (a.thread t) r) }) ∨
    (∃ k' env', caller.call t (a.thread t) = none ∧
      caller.step t (a.thread t) a.env = some (k', env') ∧
      a' = { a with env := env', thread := Function.update a.thread t k' }) := by
  simp only [atomicThreads] at h
  split at h
  · rename_i c hc
    rcases Option.map_eq_some_iff.mp h with ⟨⟨fifo', r⟩, hcall, rfl⟩
    exact Or.inl ⟨c, fifo', r, hc, hcall, rfl⟩
  · rename_i hc
    rcases Option.map_eq_some_iff.mp h with ⟨⟨k', env'⟩, hstep, rfl⟩
    exact Or.inr ⟨k', env', hc, hstep, rfl⟩

/-- The effect of a call on the list. -/
theorem atomicCall_cases {fifo fifo' : List α} {c : Call α} {r : Result α}
    (h : atomicCall length fifo c = some (fifo', r)) :
    (∃ item, c = .send item ∧ fifo.length < length ∧ fifo' = fifo ++ [item] ∧ r = .sent) ∨
    (∃ item, c = .receive ∧ fifo = item :: fifo' ∧ r = .received item) ∨
    (c = .size ∧ fifo' = fifo ∧ r = .size fifo.length) := by
  cases c with
  | send item =>
      simp only [atomicCall, Option.ite_none_right_eq_some, Option.some.injEq,
        Prod.mk.injEq] at h
      rcases h with ⟨hlt, rfl, rfl⟩
      exact Or.inl ⟨item, rfl, hlt, rfl, rfl⟩
  | receive =>
      cases fifo with
      | nil => cases h
      | cons item rest =>
          cases h
          exact Or.inr (Or.inl ⟨item, rfl, rfl, rfl⟩)
  | size =>
      cases h
      exact Or.inr (Or.inr ⟨rfl, rfl, rfl⟩)
  | delete => cases h

/-- The atomic list is a bounded FIFO: the items sent are those received, in the
same order, followed by those it holds. -/
theorem atomicThreads_history {a : AtomicState ι α κ μ} {tr : List (ι × QueueEvent α)}
    (h : (atomicThreads caller length env start).Traced (atomicEvents caller) a tr) :
    sentItems tr = receivedItems tr ++ a.fifo ∧ a.fifo.length ≤ length := by
  refine h.invariant (P := fun a tr => sentItems tr = receivedItems tr ++ a.fifo ∧
    a.fifo.length ≤ length) ⟨rfl, Nat.zero_le _⟩ ?_
  rintro a t a' tr - ⟨hhist, hlen⟩ hstep
  rcases atomicThreads_step_cases hstep with
    ⟨c, fifo', r, hc, hcall, rfl⟩ | ⟨k', env', hc, -, rfl⟩
  · rcases atomicCall_cases hcall with
      ⟨item, rfl, hlt, rfl, -⟩ | ⟨item, rfl, hfifo, -⟩ | ⟨rfl, rfl, -⟩
    · refine ⟨?_, by simp; omega⟩
      simp [atomicEvents, hc, hhist]
    · rw [hfifo] at hhist hlen
      refine ⟨?_, Nat.le_of_succ_le hlen⟩
      simp [atomicEvents, hc, hfifo, hhist]
    · refine ⟨?_, hlen⟩
      simp [atomicEvents, hc, hhist]
  · refine ⟨?_, hlen⟩
    simp [atomicEvents, hc, hhist]

end Steps

end Metal
end LibDispatch
