import LibDispatch.Metal.ClientProgress
import LibDispatch.Metal.Progress
import LibDispatch.Metal.Traversal

/-!
# Deleting the dispatch queue

{lit}`dispatch_queue_delete` ends the workers through {lit}`condition_variable_terminate`, which
reaches the waiters that are enlisted in {lit}`cv->waiters` while it holds the spinlock.  It
does not join the workers, so a worker that is anywhere else, for example on its way from
the last signal of a task back to {lit}`queue_receive`, goes on with objects that are freed
under it, or enlists too late and waits for ever.

When every worker is enlisted at that moment, two more things can go wrong.  A worker that has
been sent its byte can return before {lit}`cv->waiters->next` is read from its node, and the
list is lost with the node.  And where an output does not wait for its byte to be taken, an
enlisted worker may still have to give back the mutex when the mutex is deleted.  A shutdown in
which neither happens is safe.

Main results:

- Theorem {lit}`dispatch_queue_delete_unsafe`: a client that has waited for its only task
  can free the status word that the worker is about to write.
- Theorem {lit}`dispatch_queue_delete_safe`: in runs in which every worker is enlisted when
  {lit}`queue_delete` takes the spinlock, and has not returned when its node is read, no worker
  touches what was released, and every worker leaves its loop.
-/

namespace LibDispatch
namespace Metal

variable {ι χ κ μ α C : Type} {N : Nat} {β υ : Type}

/-! ## What a statement touches -/

/-- The objects that a position in {lit}`condition_variable_wait` reads or writes.  The mutex
is an argument, so that giving it back does not read the queue. -/
def WaitPc.touches : WaitPc → List QueueObject
  | .lock => [.queue, .conditionVariable, .spinlock]
  | .link => [.conditionVariable]
  | .unlock => [.conditionVariable, .spinlock]
  | .release | .reacquire => [.mutex]
  | .chanIn | .leave => []

/-- The objects that a position in the waking loop reads or writes. -/
def WakePc.touches : WakePc → List QueueObject
  | .lock => [.queue, .conditionVariable, .spinlock]
  | .test | .unlink => [.conditionVariable]
  | .ack => []
  | .unlock => [.conditionVariable, .spinlock]

/-- The objects that a statement of a queue function reads, writes or frees. -/
def Pc.touches : Pc α → List QueueObject
  | .lock _ | .unlock _ | .sizeLock | .deleteMutex => [.queue, .mutex]
  | .test _ | .overwrite _ | .advanceHead _ | .setFull _ => [.queue]
  | .clearFull _ | .advanceTail _ | .sizeRead | .freeQueue => [.queue]
  | .wait _ at_ => at_.touches
  | .store _ | .load | .freeRingBuffer => [.queue, .ringBuffer]
  | .broadcast _ at_ | .terminate at_ => at_.touches
  | .deleteSpinlock => [.conditionVariable, .spinlock]
  | .freeConditionVariable => [.conditionVariable]

/-- The objects that the next statement of a worker outside {lit}`queue_receive` reads or
writes.  Debug output is left out. -/
def WorkerPc.touches : WorkerPc C → List DispatchObject
  | .start => [.workerData]
  | .setBusy _ | .setReady => [.threadStatus]
  | .receive | .run _ _ | .freeCend | .exited => []

/-- The objects that the next statement of a worker reads or writes. -/
def Thread.touches : Thread (Local C) Nat → List (QueueObject ⊕ DispatchObject)
  | .outside (.worker pc) => pc.touches.map .inr
  | .outside (.client _ _) => []
  | .inside _ pc => pc.touches.map .inl

/-- What was released so far. -/
def State.released (s : State (C ⊕ Fin N) χ Nat (Local C) (Env C N β υ)) :
    QueueObject ⊕ DispatchObject → Bool :=
  Sum.elim s.queue.released s.env.released

/-! ## Positions of a shutdown -/

/-- The worker has taken the byte that ends its wait, or has left its loop since. -/
def Thread.told : Thread (Local C) Nat → Bool
  | .inside _ (.wait _ .leave) => true
  | .outside (.worker .freeCend) | .outside (.worker .exited) => true
  | _ => false

/-- The thread is about to give back the mutex before it blocks. -/
def Thread.releasing : Thread κ α → Bool
  | .inside _ (.wait _ .release) => true
  | _ => false

/-- The thread is enlisted and gives back the mutex, or it blocks in {lit}`chan_in_byte`. -/
def Thread.blocking : Thread κ α → Bool
  | .inside _ (.wait _ .release) | .inside _ (.wait _ .chanIn) => true
  | _ => false

/-- Positions of {lit}`queue_delete` after {lit}`condition_variable_terminate`. -/
def Pc.deleting : Pc α → Bool
  | .deleteSpinlock | .freeConditionVariable | .deleteMutex | .freeRingBuffer
  | .freeQueue => true
  | _ => false

/-- Positions of {lit}`dispatch_queue_delete` after {lit}`condition_variable_terminate`. -/
def Thread.deleting : Thread (Local C) Nat → Bool
  | .inside _ pc => pc.deleting
  | .outside (.client _ (.freeObject _)) => true
  | .outside _ => false

/-- {lit}`condition_variable_terminate` has returned, or something was released. -/
def State.Closed (s : State (C ⊕ Fin N) χ Nat (Local C) (Env C N β υ)) : Prop :=
  (∃ u, (s.thread u).deleting = true) ∨ ∃ o, s.released o = true

/-- The number of steps that a worker takes until it has exited. -/
def Thread.remaining : Thread (Local C) Nat → Nat
  | .inside _ (.wait _ .release) => 4
  | .inside _ (.wait _ .chanIn) => 3
  | .inside _ (.wait _ .leave) => 2
  | .outside (.worker .freeCend) => 1
  | _ => 0

/-- The condition on the steps of a run: when {lit}`queue_delete` takes the spinlock, every
worker is enlisted; when it reads the field {lit}`next` of a node, the owner has not returned
from {lit}`condition_variable_wait`, so that the node is there; and where an output does not
wait, no worker is still to give back the mutex when {lit}`queue_delete` deletes it. -/
def shutdownOk (handshake : Bool)
    (s : State (Unit ⊕ Fin N) (Option (Fin N)) Nat (Local Unit) (Env Unit N β υ)) :
    Unit ⊕ Fin N → Bool
  | .inr _ => true
  | .inl c =>
      match s.thread (.inl c) with
      | .inside _ (.terminate .lock) => decide (∀ i, s.phase (.inr i) = .awaiting ∧
          s.queue.inFlight (some i) = [])
      | .inside _ (.terminate .unlink) =>
          s.queue.waiters.all fun w => decide (s.thread w).Linked
      | .inside _ .deleteMutex =>
          handshake || decide (∀ i, (s.thread (.inr i)).releasing = false)
      | _ => true

theorem Thread.told_cases {th : Thread (Local C) Nat} (h : th.told = true) :
    (∃ k op, th = .inside k (.wait op .leave)) ∨ th = .outside (.worker .freeCend) ∨
      th = .outside (.worker .exited) := by
  cases th with
  | inside k pc =>
      cases pc with
      | wait op at_ =>
          cases at_ with
          | leave => exact Or.inl ⟨k, op, rfl⟩
          | _ => cases h
      | _ => cases h
  | outside k =>
      cases k with
      | client ip pc => cases h
      | worker pc =>
          cases pc with
          | freeCend => exact Or.inr (Or.inl rfl)
          | exited => exact Or.inr (Or.inr rfl)
          | _ => cases h

theorem Thread.blocking_cases {th : Thread κ α} (h : th.blocking = true) :
    ∃ k op, th = .inside k (.wait op .release) ∨ th = .inside k (.wait op .chanIn) := by
  cases th with
  | outside k => cases h
  | inside k pc =>
      cases pc with
      | wait op at_ =>
          cases at_ with
          | release => exact ⟨k, op, Or.inl rfl⟩
          | chanIn => exact ⟨k, op, Or.inr rfl⟩
          | _ => cases h
      | _ => cases h

/-- A worker that has taken its last byte awaits no other. -/
theorem Thread.phase_of_told {th : Thread (Local C) Nat} (h : th.told = true) :
    th.phase = .idle := by
  rcases Thread.told_cases h with ⟨k, op, rfl⟩ | rfl | rfl <;> rfl

/-- Nor is it about to give back the mutex. -/
theorem Thread.releasing_of_told {th : Thread (Local C) Nat} (h : th.told = true) :
    th.releasing = false := by
  rcases Thread.told_cases h with ⟨k, op, rfl⟩ | rfl | rfl <;> rfl

/-- A leaving worker that is enlisted awaits its byte. -/
theorem Thread.phase_of_blocking {th : Thread κ α} (h : th.blocking = true) :
    th.phase = .awaiting := by
  rcases Thread.blocking_cases h with ⟨k, op, rfl | rfl⟩ <;> rfl

theorem dispatchWiring_injective (N : Nat) (handshake : Bool) :
    Function.Injective (dispatchWiring Unit N handshake).cend := by
  rintro (c | i) (c' | j) h
  · rfl
  · cases h
  · cases h
  · exact congrArg Sum.inr (Option.some.inj h)

/-- While the spinlock is free, a thread is enlisted when it awaits a byte and none is in
flight to it. -/
theorem enlisted_iff [DecidableEq ι] [DecidableEq χ] {wiring : Wiring ι χ}
    {caller : Caller ι κ μ α} {length : Nat} {env : μ} {start : ι → κ} {s : State ι χ α κ μ}
    (hcend : Function.Injective wiring.cend)
    (hs : (threads wiring caller length env start).Reachable s)
    (hfree : s.queue.cvLock = none) (t : ι) :
    s.queue.Enlisted t ↔ s.phase t = .awaiting ∧ s.queue.inFlight (wiring.cend t) = [] := by
  rcases waiting_of_reachable hcend hs with ⟨l, rest, hwait⟩
  have hnone : ∀ b, ¬ (s.phase b).Waking := by
    intro b hb
    have hl := (locked_of_reachable hs).cvLock
    rw [hfree] at hl
    apply hl.not_holds_of_free b
    unfold State.phase at hb
    cases hk : s.thread b with
    | outside k => simp [hk] at hb
    | inside k pc =>
        rw [hk] at hb
        exact Pc.holdsCvLock_of_waking hb
  rw [hwait.enlisted_iff, ← hwait.settled hnone]
  constructor
  · intro ht
    have hphase : s.phase t = .awaiting := by
      by_contra hne
      exact (hwait.awake t hne).1 ht
    rcases hwait.asleep t hphase with ⟨-, hnil⟩ | ⟨hmem, -⟩
    · exact ⟨hphase, hnil⟩
    · exact absurd ht hmem
  · rintro ⟨hphase, hnil⟩
    rcases hwait.asleep t hphase with ⟨ht, -⟩ | ⟨-, e, hone⟩
    · exact ht
    · rw [hnil] at hone
      cases hone

/-! ## Who deletes -/

section Deleting

variable [DecidableEq ι] [DecidableEq χ] {wiring : Wiring ι χ} {caller : Caller ι κ μ α}
  {length : Nat} {env : μ} {start : ι → κ} {s : State ι χ α κ μ} {q q' : Queue ι χ α}
  {t : ι} {pc : Pc α} {c : Control α}

/-- A thread inside a queue function is at a call, and its result is not that of
{lit}`queue_delete` while it is still to give back the mutex. -/
theorem call_of_reachable (hs : (threads wiring caller length env start).Reachable s) {k : κ}
    (hk : s.thread t = .inside k pc) :
    (∃ x, caller.call t k = some x) ∧ pc.committed ≠ some .deleted := by
  refine hs.invariant (P := fun s => ∀ t k pc, s.thread t = .inside k pc →
    (∃ x, caller.call t k = some x) ∧ pc.committed ≠ some .deleted) ?_ ?_ t k pc hk
  · intro t k pc hk
    cases hk
  · intro s t s' _ h hstep u k' pc' hu
    rcases threads_step_cases hstep with
      ⟨k, c, hk, hc, rfl⟩ | ⟨k, k₁, env', hk, -, -, rfl⟩ | ⟨k, pc, q', c, hk, hq, rfl⟩
    · by_cases hut : u = t
      · subst hut
        have heq : Thread.inside k c.entry = .inside k' pc' := by simpa using hu
        cases heq
        refine ⟨⟨c, hc⟩, ?_⟩
        cases c <;> simp [Call.entry, Pc.committed]
      · exact h u k' pc' (by simpa [hut] using hu)
    · by_cases hut : u = t
      · subst hut
        simp at hu
      · exact h u k' pc' (by simpa [hut] using hu)
    · by_cases hut : u = t
      · subst hut
        have heq : Thread.resume caller u k c = .inside k' pc' := by simpa using hu
        rcases h u k pc hk with ⟨hx, hpc⟩
        cases c with
        | ret result => cases heq
        | goto pc₁ =>
            cases heq
            refine ⟨hx, ?_⟩
            change (Control.goto pc').committed ≠ some .deleted
            rcases (queueStep_of_step hq).effect with
              ⟨item, -, hc⟩ | ⟨item, -, hc⟩ | ⟨-, hc⟩ | ⟨op, rest, rfl, hbyte⟩ | rfl | ⟨hc, -⟩
            · simp [hc]
            · simp [hc]
            · simp [hc]
            · cases queueStep_of_step hq with
              | chanInSignal _ _ _ => simp [Control.committed, Pc.committed]
              | chanInTerminate _ _ _ => simp [Control.committed, Pc.committed]
            · cases hq
            · rw [hc]
              exact hpc
      · exact h u k' pc' (by simpa [hut] using hu)

/-- Outside of the statements that release something, and of the return of
{lit}`condition_variable_terminate`, nothing is released. -/
theorem QueueStep.released_cases (h : QueueStep wiring q t pc q' c) :
    pc.deleting = true ∨ pc = .terminate .unlock ∨
    (q'.released = q.released ∧ (∀ pc', c = .goto pc' → pc'.deleting = false) ∧
      (c = .ret .deleted → pc.committed = some .deleted)) := by
  have hgoto : ∀ pc' : Pc α, pc'.deleting = false →
      (∀ pc₁, Control.goto pc' = .goto pc₁ → pc₁.deleting = false) ∧
      (Control.goto pc' = .ret .deleted → pc.committed = some .deleted) := by
    intro pc' hpc'
    refine ⟨fun pc₁ heq => ?_, fun heq => by cases heq⟩
    cases heq
    exact hpc'
  have hwake : ∀ {evt at_ at'}, WakeStep evt wiring q t at_ q' at' →
      q'.released = q.released := by
    intro evt at_ at' hw
    cases hw <;> rfl
  cases h with
  | deleteSpinlock => exact Or.inl rfl
  | freeConditionVariable => exact Or.inl rfl
  | deleteMutex => exact Or.inl rfl
  | freeRingBuffer => exact Or.inl rfl
  | freeQueue => exact Or.inl rfl
  | terminateDone => exact Or.inr (Or.inl rfl)
  | leave op =>
      refine Or.inr (Or.inr ⟨rfl, fun pc' heq => ?_, fun heq => ?_⟩)
      · cases heq
      · cases heq
  | unlock result =>
      refine Or.inr (Or.inr ⟨rfl, fun pc' heq => ?_, fun heq => ?_⟩)
      · cases heq
      · cases heq
        rfl
  | testProceed op _ =>
      refine Or.inr (Or.inr ⟨rfl, hgoto _ ?_⟩)
      cases op <;> rfl
  | overwrite item =>
      refine Or.inr (Or.inr ⟨?_, hgoto _ rfl⟩)
      split <;> rfl
  | broadcast result at_ at' _ hw =>
      exact Or.inr (Or.inr ⟨hwake (wakeStep_of_wake hw), hgoto _ rfl⟩)
  | terminate at_ at' _ hw =>
      exact Or.inr (Or.inr ⟨hwake (wakeStep_of_wake hw), hgoto _ rfl⟩)
  | _ => exact Or.inr (Or.inr ⟨rfl, hgoto _ rfl⟩)

/-- The mutex is deleted by one statement. -/
theorem QueueStep.released_mutex (h : QueueStep wiring q t pc q' c)
    (hmutex : q'.released .mutex = true) : q.released .mutex = true ∨ pc = .deleteMutex := by
  rcases h.released_cases with hpc | rfl | ⟨heq, -⟩
  · cases h with
    | deleteMutex => exact Or.inr rfl
    | deleteSpinlock => exact Or.inl (by simpa using hmutex)
    | freeConditionVariable => exact Or.inl (by simpa using hmutex)
    | freeRingBuffer => exact Or.inl (by simpa using hmutex)
    | freeQueue => exact Or.inl (by simpa using hmutex)
    | _ => cases hpc
  · cases h with
    | terminateDone => exact Or.inl hmutex
    | terminate _ _ _ hw => cases wakeStep_of_wake hw
  · exact Or.inl (heq ▸ hmutex)

end Deleting

section Dispatch

variable {d : DispatchConfig Unit N β υ} {handshake : Bool}
  {s s' : State (Unit ⊕ Fin N) (Option (Fin N)) Nat (Local Unit) (Env Unit N β υ)}
  {u : Unit ⊕ Fin N} {i : Fin N}

/-- A step outside of {lit}`dispatch_queue_delete` releases nothing. -/
theorem DispatchStep.released_cases
    {a a' : AtomicState (Unit ⊕ Fin N) Nat (Local Unit) (Env Unit N β υ)}
    (h : DispatchStep d a u a') :
    (Thread.outside (a.thread u) : Thread (Local Unit) Nat).deleting = true ∨
    (a'.env.released = a.env.released ∧
      (Thread.outside (a'.thread u) : Thread (Local Unit) Nat).deleting = false) := by
  have hnext : ∀ ip (site : AddSite Unit),
      (Thread.outside (site.next ip) : Thread (Local Unit) Nat).deleting = false := by
    intro ip site
    cases site <;> rfl
  have hentry : ∀ ip t (site : AddSite Unit),
      (Thread.outside (.client ip (d.addEntry t site)) : Thread (Local Unit) Nat).deleting =
        false := by
    intro ip t site
    unfold DispatchConfig.addEntry
    split <;> rfl
  cases h with
  | freeObject c ip object k hk _ =>
      rw [hk]
      exact Or.inl rfl
  | send c ip t site _ _ =>
      refine Or.inr ⟨rfl, ?_⟩
      simp only [Function.update_self]
      exact hnext ip site
  | taskAddWaitable c ip t _ _ _ =>
      refine Or.inr ⟨rfl, ?_⟩
      simp only [Function.update_self]
      exact hentry ip t _
  | taskAddPlain c ip t _ _ _ =>
      refine Or.inr ⟨rfl, ?_⟩
      simp only [Function.update_self]
      exact hentry ip t _
  | groupStore c ip g i t counter _ _ =>
      refine Or.inr ⟨rfl, ?_⟩
      simp only [Function.update_self]
      exact hentry ip t _
  | run _ t at_ env' r hrun hstep =>
      refine Or.inr ⟨by cases hstep <;> rfl, ?_⟩
      simp only [Function.update_self]
      cases hk : a.thread u with
      | worker pc =>
          rw [hk] at hrun
          cases pc with
          | run t' at' => cases r <;> rfl
          | _ => cases hrun
      | client ip pc =>
          rw [hk] at hrun
          cases pc with
          | pitch t' site at' =>
              cases r with
              | none => exact hnext ip site
              | some at'' => rfl
          | _ => cases hrun
  | _ =>
      refine Or.inr ⟨rfl, ?_⟩
      simp only [Function.update_self]
      rfl

/-- A step of a thread's own code, as a step over the atomic queue. -/
theorem DispatchConfig.own_released {k k' : Local Unit} {env env' : Env Unit N β υ}
    (hcall : d.caller.call u k = none) (h : d.caller.step u k env = some (k', env')) :
    (Thread.outside k : Thread (Local Unit) Nat).deleting = true ∨
    (env'.released = env.released ∧
      (Thread.outside k' : Thread (Local Unit) Nat).deleting = false) := by
  have hstep : d.atomicThreads.step ⟨[], env, fun _ => k⟩ u =
      some ⟨[], env', Function.update (fun _ => k) u k'⟩ := by
    simp [DispatchConfig.atomicThreads, Metal.atomicThreads, hcall, h]
  simpa using (dispatchStep_of_step hstep).released_cases

/-- A thread inside a queue function does not come out of it deleting the dispatch queue
unless the function was {lit}`queue_delete`. -/
theorem DispatchConfig.deleting_ret {k : Local Unit} {result : Result Nat} {x : Call Nat}
    (hcall : d.caller.call u k = some x) (hresult : result ≠ .deleted) :
    (Thread.outside (d.caller.ret u k result) : Thread (Local Unit) Nat).deleting = false := by
  rcases DispatchConfig.call_cases hcall with
    ⟨c, ip, rfl, rfl, -⟩ | ⟨c, ip, t, site, rfl, rfl, -⟩ | ⟨c, ip, busy, rfl, rfl, -⟩ |
    ⟨i, rfl, rfl, -⟩
  · cases result with
    | deleted => exact absurd rfl hresult
    | _ => rfl
  · cases site <;> rfl
  · cases result with
    | size count =>
        simp only [DispatchConfig.caller]
        split <;> rfl
    | _ => rfl
  · cases result <;> rfl

/-- What is closed now was closed before, or {lit}`condition_variable_terminate` has just
returned. -/
theorem State.closed_cases (hs : (d.threads handshake).Reachable s)
    (hstep : (d.threads handshake).step s u = some s') (hclosed : s'.Closed) :
    s.Closed ∨ ∃ k, s.thread u = .inside k (.terminate .unlock) := by
  -- a step that releases nothing and does not start to delete
  have hkeep : ∀ th, s'.thread = Function.update s.thread u th → th.deleting = false →
      s'.released = s.released → s.Closed := by
    intro th hthread hth hreleased
    rcases hclosed with ⟨v, hv⟩ | ⟨o, ho⟩
    · by_cases hvu : v = u
      · rw [hthread, hvu, Function.update_self, hth] at hv
        cases hv
      · rw [hthread, Function.update_of_ne hvu] at hv
        exact Or.inl ⟨v, hv⟩
    · exact Or.inr ⟨o, hreleased ▸ ho⟩
  rcases threads_step_cases hstep with
    ⟨k, c, hk, -, rfl⟩ | ⟨k, k', env', hk, hcall, hown, rfl⟩ | ⟨k, pc, q', c, hk, hq, rfl⟩
  · refine Or.inl (hkeep _ rfl ?_ rfl)
    cases c <;> rfl
  · rcases DispatchConfig.own_released hcall hown with hdel | ⟨hreleased, hk'⟩
    · exact Or.inl (Or.inl ⟨u, hk ▸ hdel⟩)
    · refine Or.inl (hkeep _ rfl hk' ?_)
      simp [State.released, hreleased]
  · rcases (queueStep_of_step hq).released_cases with hdel | rfl | ⟨hreleased, hgoto, hret⟩
    · exact Or.inl (Or.inl ⟨u, by rw [hk]; exact hdel⟩)
    · exact Or.inr ⟨k, hk⟩
    · rcases call_of_reachable hs hk with ⟨⟨x, hx⟩, hcommitted⟩
      refine Or.inl (hkeep _ rfl ?_ ?_)
      · cases c with
        | goto pc' => exact hgoto pc' rfl
        | ret result =>
            apply DispatchConfig.deleting_ret hx
            rintro rfl
            exact hcommitted (hret rfl)
      · simp [State.released, hreleased]

/-- A worker inside a queue function is in {lit}`queue_receive`. -/
theorem worker_inside (hs : (d.threads handshake).Reachable s) {k : Local Unit} {pc : Pc Nat}
    (hk : s.thread (.inr i) = .inside k pc) :
    k = .worker .receive ∧ ∀ x, pc.pending = some x → x = .receive := by
  rcases (call_of_reachable hs hk).1 with ⟨x, hx⟩
  rcases DispatchConfig.call_cases hx with
    ⟨c, ip, heq, -⟩ | ⟨c, ip, t, site, heq, -⟩ | ⟨c, ip, busy, heq, -⟩ | ⟨j, -, rfl, rfl⟩
  · cases heq
  · cases heq
  · cases heq
  · refine ⟨rfl, fun y hy => ?_⟩
    have hcall := calling_of_reachable hs _ _ _ y hk hy
    rw [hx] at hcall
    exact (Option.some.inj hcall).symm

/-! ## The way out -/

/-- The worker has taken its last byte, or it is enlisted and blocks or is about to. -/
def Thread.leaving (th : Thread (Local Unit) Nat) : Bool :=
  th.told || th.blocking

/-- What a leaving worker does. -/
theorem leaving_step_cases (hs : (d.threads handshake).Reachable s)
    (hi : (s.thread (.inr i)).leaving = true)
    (hstep : (d.threads handshake).step s (.inr i) = some s') :
    (∃ k op, s.thread (.inr i) = .inside k (.wait op .release) ∧
      s' = { s with
        queue := { s.queue with mutex := none }
        thread := Function.update s.thread (.inr i) (.inside k (.wait op .chanIn)) }) ∨
    (∃ k op e bytes, s.thread (.inr i) = .inside k (.wait op .chanIn) ∧
      s.queue.inFlight (some i) = e :: bytes ∧
      s' = { s with
        queue := { s.queue with
          inFlight := Function.update s.queue.inFlight (some i) bytes }
        thread := Function.update s.thread (.inr i)
          (.inside k (.wait op (if e = .signal then .reacquire else .leave))) }) ∨
    (∃ k op, s.thread (.inr i) = .inside k (.wait op .leave) ∧
      s' = { s with
        thread := Function.update s.thread (.inr i) (.outside (.worker .freeCend)) }) ∨
    (s.thread (.inr i) = .outside (.worker .freeCend) ∧
      s' = { s with
        thread := Function.update s.thread (.inr i) (.outside (.worker .exited)) }) := by
  rcases waiting_of_reachable (dispatchWiring_injective N handshake) hs with ⟨l, rest, hwait⟩
  have hcend := hwait.cend (.inr i)
  rcases threads_step_cases hstep with
    ⟨k, c, hk, hcall, rfl⟩ | ⟨k, k', env', hk, -, hown, rfl⟩ | ⟨k, pc, q', c, hk, hq, rfl⟩
  · rw [hk] at hi
    rcases DispatchConfig.call_cases hcall with
      ⟨c, ip, heq, -⟩ | ⟨c, ip, t, site, heq, -⟩ | ⟨c, ip, busy, heq, -⟩ | ⟨j, -, rfl, -⟩
    · cases heq
    · cases heq
    · cases heq
    · cases hi
  · rw [hk] at hi
    cases k with
    | client ip pc => cases hi
    | worker pc =>
        cases pc with
        | freeCend =>
            cases hown
            exact Or.inr (Or.inr (Or.inr ⟨hk, rfl⟩))
        | exited => cases hown
        | _ => cases hi
  · rcases worker_inside hs hk with ⟨rfl, -⟩
    rw [hk] at hi
    cases pc with
    | wait op at_ =>
        cases at_ with
        | release =>
            cases hq
            exact Or.inl ⟨_, op, hk, rfl⟩
        | chanIn =>
            right; left
            cases queueStep_of_step hq with
            | chanInSignal _ bytes hbyte =>
                rw [hcend] at hbyte ⊢
                exact ⟨_, op, _, bytes, hk, hbyte, rfl⟩
            | chanInTerminate _ bytes hbyte =>
                rw [hcend] at hbyte ⊢
                exact ⟨_, op, _, bytes, hk, hbyte, rfl⟩
        | leave =>
            cases hq
            exact Or.inr (Or.inr (Or.inl ⟨_, op, hk, rfl⟩))
        | _ => cases hi
    | _ => cases hi

/-- A worker that is told to stop has taken the byte that makes {lit}`queue_receive` return
false, or the byte is in flight to it. -/
def State.Leaves (s : State (Unit ⊕ Fin N) (Option (Fin N)) Nat (Local Unit) (Env Unit N β υ))
    (i : Fin N) : Prop :=
  (s.thread (.inr i)).told = true ∨
    ((s.thread (.inr i)).blocking = true ∧ s.queue.inFlight (some i) = [.terminate])

/-- What a run keeps whose steps meet the condition. -/
structure Shutdown (handshake : Bool)
    (s : State (Unit ⊕ Fin N) (Option (Fin N)) Nat (Local Unit) (Env Unit N β υ)) : Prop where
  /-- Inside {lit}`condition_variable_terminate`, all workers are leaving. -/
  closing : ∀ k at_, s.thread (.inl ()) = .inside k (.terminate at_) → at_ ≠ .lock →
    (∀ i, (s.thread (.inr i)).leaving = true) ∧
    (∀ i e, e ∈ s.queue.inFlight (some i) → e = .terminate) ∧
    (at_ = .unlock → s.queue.waiters = none)
  /-- After it, every worker leaves its loop. -/
  closed : s.Closed → ∀ i, s.Leaves i ∧
    (handshake = true → (s.thread (.inr i)).told = true)
  mutex : s.queue.released .mutex = true → ∀ i, (s.thread (.inr i)).releasing = false

theorem Thread.leaving_of_told {th : Thread (Local Unit) Nat} (h : th.told = true) :
    th.leaving = true := by
  simp [Thread.leaving, h]

/-- While the spinlock is free, a worker that awaits its byte is leaving. -/
theorem leaving_of_awaiting (hl : Locked s) (hfree : s.queue.cvLock = none)
    (hphase : s.phase (.inr i) = .awaiting) : (s.thread (.inr i)).leaving = true := by
  have hcv := hl.cvLock
  rw [hfree] at hcv
  have hno := hcv.not_holds_of_free (.inr i)
  unfold State.phase at hphase
  cases hk : s.thread (.inr i) with
  | outside k =>
      rw [hk] at hphase
      cases hphase
  | inside k pc =>
      rw [hk] at hphase hno
      cases pc with
      | wait op at_ =>
          cases at_ with
          | unlock => exact absurd rfl hno
          | release => rfl
          | chanIn => rfl
          | _ => cases hphase
      | broadcast result at_ => cases at_ <;> cases hphase
      | terminate at_ => cases at_ <;> cases hphase
      | _ => cases hphase

/-- A step of the client keeps the workers on their way out. -/
theorem Shutdown.closing_client (h : Shutdown handshake s)
    (hs : (d.threads handshake).Reachable s) (hok : shutdownOk handshake s (.inl ()) = true)
    (hstep : (d.threads handshake).step s (.inl ()) = some s') {k : Local Unit} {at' : WakePc}
    (hk' : s'.thread (.inl ()) = .inside k (.terminate at')) (hne : at' ≠ .lock) :
    (∀ i, (s'.thread (.inr i)).leaving = true) ∧
    (∀ i e, e ∈ s'.queue.inFlight (some i) → e = .terminate) ∧
    (at' = .unlock → s'.queue.waiters = none) := by
  rcases threads_step_cases hstep with
    ⟨k₁, c, hk, -, rfl⟩ | ⟨k₁, k₂, env', hk, -, -, rfl⟩ | ⟨k₁, pc, q', c, hk, hq, rfl⟩
  · have heq : Thread.inside k₁ c.entry = .inside k (.terminate at') := by simpa using hk'
    cases c with
    | delete =>
        cases heq
        exact absurd rfl hne
    | _ => cases heq
  · simp at hk'
  · have heq : Thread.resume d.caller (.inl ()) k₁ c = .inside k (.terminate at') := by
      simpa using hk'
    cases c with
    | ret result => cases heq
    | goto pc' =>
        cases heq
        rcases (queueStep_of_step hq).terminate_cases rfl with ⟨at_, rfl, hwake⟩
        have hworker : ∀ i : Fin N, (Sum.inr i : Unit ⊕ Fin N) ≠ .inl () := by simp
        simp only [Function.update_of_ne (hworker _)]
        cases hwake with
        | lock hfree =>
            -- every worker is enlisted when the spinlock is taken
            have hall : ∀ i, s.phase (.inr i) = .awaiting ∧ s.queue.inFlight (some i) = [] := by
              simpa [shutdownOk, hk] using hok
            refine ⟨fun i => leaving_of_awaiting (locked_of_reachable hs) hfree (hall i).1, ?_,
              fun heq => by cases heq⟩
            intro i e he
            rw [show s.queue.inFlight (some i) = [] from (hall i).2] at he
            cases he
        | testEmpty hwaiters =>
            rcases h.closing k .test hk (by simp) with ⟨hleaving, hbytes, -⟩
            exact ⟨hleaving, hbytes, fun _ => hwaiters⟩
        | send w hwaiters =>
            rcases h.closing k .test hk (by simp) with ⟨hleaving, hbytes, -⟩
            refine ⟨hleaving, fun i e he => ?_, fun heq => by cases heq⟩
            have hsend : WakeStep .terminate (dispatchWiring Unit N handshake) s.queue
              (.inl ()) .test _ .ack := .send w hwaiters
            rcases hsend.bytes he with hold | hnew
            · exact hbytes i e hold
            · exact hnew
        | ack htaken =>
            rcases h.closing k .ack hk (by simp) with ⟨hleaving, hbytes, -⟩
            exact ⟨hleaving, hbytes, fun heq => by cases heq⟩
        | unlink w hwaiters =>
            rcases h.closing k .unlink hk (by simp) with ⟨hleaving, hbytes, -⟩
            exact ⟨hleaving, hbytes, fun heq => by cases heq⟩

/-- A step of a leaving worker to which only the last byte can be in flight. -/
theorem leaving_step (hs : (d.threads handshake).Reachable s)
    (hi : (s.thread (.inr i)).leaving = true)
    (hbytes : ∀ e, e ∈ s.queue.inFlight (some i) → e = .terminate)
    (hstep : (d.threads handshake).step s (.inr i) = some s') :
    (s'.thread (.inr i)).leaving = true ∧ (s'.thread (.inr i)).releasing = false ∧
    (s'.thread (.inr i)).remaining + 1 = (s.thread (.inr i)).remaining ∧
    (∀ v, v ≠ .inr i → s'.thread v = s.thread v) ∧
    s'.queue.waiters = s.queue.waiters ∧ s'.queue.released = s.queue.released ∧
    (∀ j, s'.queue.inFlight (some j) = s.queue.inFlight (some j) ∨
      (j = i ∧ (s'.thread (.inr i)).told = true ∧ ∀ e, e ∈ s'.queue.inFlight (some j) →
        e ∈ s.queue.inFlight (some j))) := by
  have hother : ∀ th v, v ≠ .inr i → Function.update s.thread (.inr i) th v = s.thread v :=
    fun th v hv => Function.update_of_ne hv th s.thread
  rcases leaving_step_cases hs hi hstep with
    ⟨k, op, hk, rfl⟩ | ⟨k, op, e, bytes, hk, hbyte, rfl⟩ | ⟨k, op, hk, rfl⟩ | ⟨hk, rfl⟩
  · refine ⟨?_, ?_, ?_, hother _, rfl, rfl, fun j => Or.inl rfl⟩
    · simp [Thread.leaving, Thread.blocking]
    · simp [Thread.releasing]
    · simp [hk, Thread.remaining]
  · have he : e = .terminate := hbytes e (by rw [hbyte]; exact List.mem_cons_self)
    subst he
    refine ⟨?_, ?_, ?_, hother _, rfl, rfl, fun j => ?_⟩
    · simp [Thread.leaving, Thread.told]
    · simp [Thread.releasing]
    · simp [hk, Thread.remaining]
    by_cases hj : j = i
    · subst hj
      refine Or.inr ⟨rfl, by simp [Thread.told], fun e he => ?_⟩
      rw [hbyte]
      exact List.mem_cons_of_mem _ (by simpa using he)
    · left
      simp [hj]
  · refine ⟨?_, ?_, ?_, hother _, rfl, rfl, fun j => Or.inl rfl⟩
    · simp [Thread.leaving, Thread.told]
    · simp [Thread.releasing]
    · simp [hk, Thread.remaining]
  · refine ⟨?_, ?_, ?_, hother _, rfl, rfl, fun j => Or.inl rfl⟩
    · simp [Thread.leaving, Thread.told]
    · simp [Thread.releasing]
    · simp [hk, Thread.remaining]

/-- When {lit}`condition_variable_terminate` returns, every worker leaves its loop. -/
theorem Shutdown.terminated (h : Shutdown handshake s)
    (hs : (d.threads handshake).Reachable s) {k : Local Unit}
    (hk : s.thread (.inl ()) = .inside k (.terminate .unlock)) (i : Fin N) :
    s.Leaves i ∧ (handshake = true → (s.thread (.inr i)).told = true) := by
  rcases h.closing k .unlock hk (by simp) with ⟨hleaving, hbytes, hwaiters⟩
  rcases waiting_of_reachable (dispatchWiring_injective N handshake) hs with ⟨l, rest, hwait⟩
  have hphases : ∀ b, s.phase b = .idle ∨ s.phase b = .awaiting := by
    intro b
    cases b with
    | inl c =>
        left
        rw [State.phase, show s.thread (.inl c) = _ from hk]
        rfl
    | inr j =>
        have hj := hleaving j
        simp only [Thread.leaving, Bool.or_eq_true] at hj
        rcases hj with htold | hblocking
        · exact Or.inl (Thread.phase_of_told htold)
        · exact Or.inr (Thread.phase_of_blocking hblocking)
  have hnone : ∀ b, ¬ (s.phase b).Waking := by
    intro b hb
    rcases hphases b with hb' | hb' <;> simp [hb'] at hb
  have hl : l = [] := by
    have hchain := hwait.chain
    rw [hwaiters rfl] at hchain
    exact PointerChain.Chain.eq_nil hchain
  have hrest : rest = [] := (hwait.settled hnone).trans hl
  have hi := hleaving i
  simp only [Thread.leaving, Bool.or_eq_true] at hi
  rcases hi with htold | hblocking
  · exact ⟨Or.inl htold, fun _ => htold⟩
  · have hawaiting : s.phase (.inr i) = .awaiting := Thread.phase_of_blocking hblocking
    rcases hwait.asleep _ hawaiting with ⟨hmem, -⟩ | ⟨-, e, hone⟩
    · rw [hrest] at hmem
      cases hmem
    · have hone' : s.queue.inFlight (some i) = [e] := hone
      have he : e = .terminate := hbytes i e (by rw [hone']; exact List.mem_cons_self)
      refine ⟨Or.inr ⟨hblocking, by rw [hone', he]⟩, fun hhand => ?_⟩
      -- an output that waits for its byte has none left in flight
      have hmem := (hwait.rest_of_awaiting hhand (fun b hb => hnone b (Or.inl hb)) hawaiting).1
      rw [hrest] at hmem
      cases hmem

theorem State.Leaves.leaving (h : s.Leaves i) : (s.thread (.inr i)).leaving = true := by
  rcases h with htold | ⟨hblocking, -⟩
  · exact Thread.leaving_of_told htold
  · simp [Thread.leaving, hblocking]

/-- No other byte is in flight to a worker that is told to stop. -/
theorem State.Leaves.bytes (hs : (d.threads handshake).Reachable s) (h : s.Leaves i)
    (e : ConditionEvent) (he : e ∈ s.queue.inFlight (some i)) : e = .terminate := by
  rcases h with htold | ⟨-, hbytes⟩
  · rcases waiting_of_reachable (dispatchWiring_injective N handshake) hs with
      ⟨l, rest, hwait⟩
    have hphase : s.phase (.inr i) ≠ .awaiting := by
      simp [State.phase, Thread.phase_of_told htold]
    have hnil : s.queue.inFlight (some i) = [] := (hwait.awake _ hphase).2
    rw [hnil] at he
    cases he
  · rw [hbytes, List.mem_singleton] at he
    exact he

/-- A worker that leaves its loop goes on leaving it. -/
theorem State.Leaves.step (hs : (d.threads handshake).Reachable s)
    (hstep : (d.threads handshake).step s u = some s') (h : s.Leaves i) :
    s'.Leaves i ∧ ((s.thread (.inr i)).told = true → (s'.thread (.inr i)).told = true) := by
  rcases waiting_of_reachable (dispatchWiring_injective N handshake) hs with ⟨l, rest, hwait⟩
  by_cases hu : u = .inr i
  · subst hu
    rcases leaving_step_cases hs h.leaving hstep with
      ⟨k, op, hk, rfl⟩ | ⟨k, op, e, bytes, hk, hbyte, rfl⟩ | ⟨k, op, hk, rfl⟩ | ⟨hk, rfl⟩
    · rcases h with htold | ⟨-, hbytes⟩
      · rw [hk] at htold
        cases htold
      · refine ⟨Or.inr ⟨by simp [Thread.blocking], hbytes⟩, fun htold => ?_⟩
        rw [hk] at htold
        cases htold
    · have he : e = .terminate :=
        h.bytes hs e (by rw [hbyte]; exact List.mem_cons_self)
      subst he
      exact ⟨Or.inl (by simp [Thread.told]), fun _ => by simp [Thread.told]⟩
    · exact ⟨Or.inl (by simp [Thread.told]), fun _ => by simp [Thread.told]⟩
    · exact ⟨Or.inl (by simp [Thread.told]), fun _ => by simp [Thread.told]⟩
  · have hthread := threads_step_frame hstep (Ne.symm hu)
    refine ⟨?_, fun htold => hthread ▸ htold⟩
    rcases h with htold | ⟨hblocking, hbytes⟩
    · exact Or.inl (hthread ▸ htold)
    · refine Or.inr ⟨hthread ▸ hblocking, ?_⟩
      have hbyte : s.queue.inFlight ((dispatchWiring Unit N handshake).cend (.inr i)) ≠ [] := by
        simp [dispatchWiring, hbytes]
      have hsame := hwait.byte_stays (dispatchWiring_injective N handshake)
        (locked_of_reachable hs) hstep (Ne.symm hu) hbyte
      exact hsame.trans hbytes

/-- A thread that executes a statement of {lit}`queue_delete` is the client. -/
theorem client_of_delete (hs : (d.threads handshake).Reachable s) {k : Local Unit}
    {pc : Pc Nat} (hk : s.thread u = .inside k pc) (hpc : pc.pending = some .delete) :
    u = .inl () := by
  cases u with
  | inl c => rfl
  | inr i => cases (worker_inside hs hk).2 _ hpc

/-- When the mutex is deleted, no other thread is about to give it back. -/
theorem Shutdown.mutex_cases (h : Shutdown handshake s)
    (hs : (d.threads handshake).Reachable s) (hok : shutdownOk handshake s u = true)
    (hstep : (d.threads handshake).step s u = some s')
    (hmutex : s'.queue.released .mutex = true) :
    s.Closed ∧ ∀ i, u ≠ .inr i → (s.thread (.inr i)).releasing = false := by
  have hcases : s.queue.released .mutex = true ∨ ∃ k, s.thread u = .inside k .deleteMutex := by
    rcases threads_step_cases hstep with
      ⟨k, c, -, -, rfl⟩ | ⟨k, k', env', -, -, -, rfl⟩ | ⟨k, pc, q', c, hk, hq, rfl⟩
    · exact Or.inl hmutex
    · exact Or.inl hmutex
    · rcases (queueStep_of_step hq).released_mutex hmutex with hold | rfl
      · exact Or.inl hold
      · exact Or.inr ⟨k, hk⟩
  rcases hcases with hold | ⟨k, hk⟩
  · exact ⟨Or.inr ⟨.inl .mutex, hold⟩, fun i _ => h.mutex hold i⟩
  · have hu := client_of_delete hs hk rfl
    subst hu
    have hclosing : s.Closed := Or.inl ⟨.inl (), by rw [hk]; rfl⟩
    refine ⟨hclosing, fun i _ => ?_⟩
    cases handshake with
    | false =>
        have hall : ∀ i, (s.thread (.inr i)).releasing = false := by
          simpa [shutdownOk, hk] using hok
        exact hall i
    | true =>
        exact Thread.releasing_of_told ((h.closed hclosing i).2 rfl)

/-- Every step that meets the condition keeps the shutdown safe. -/
theorem Shutdown.step (h : Shutdown handshake s) (hs : (d.threads handshake).Reachable s)
    (hok : shutdownOk handshake s u = true)
    (hstep : (d.threads handshake).step s u = some s') : Shutdown handshake s' := by
  have hclosed : s'.Closed → ∀ i, s.Leaves i ∧
      (handshake = true → (s.thread (.inr i)).told = true) := by
    intro hs'
    rcases State.closed_cases hs hstep hs' with hold | ⟨k, hk⟩
    · exact h.closed hold
    · have hu := client_of_delete hs hk rfl
      subst hu
      exact h.terminated hs hk
  constructor
  · intro k at_ hk hne
    cases u with
    | inl c => exact h.closing_client hs hok hstep hk hne
    | inr i =>
        have hclient : s'.thread (.inl ()) = s.thread (.inl ()) :=
          threads_step_frame hstep (by simp)
        rcases h.closing k at_ (hclient ▸ hk) hne with ⟨hleaving, hbytes, hwaiters⟩
        rcases leaving_step hs (hleaving i) (hbytes i) hstep with
          ⟨hi, -, -, hthread, hwaiters', -, hbytes'⟩
        refine ⟨fun j => ?_, fun j e he => ?_, fun heq => hwaiters'.trans (hwaiters heq)⟩
        · by_cases hj : j = i
          · exact hj ▸ hi
          · rw [hthread _ (by simpa using hj)]
            exact hleaving j
        · rcases hbytes' j with hsame | ⟨-, -, hsub⟩
          · exact hbytes j e (hsame ▸ he)
          · exact hbytes j e (hsub e he)
  · intro hs' i
    rcases hclosed hs' i with ⟨hleaves, htold⟩
    rcases hleaves.step hs hstep with ⟨hleaves', htold'⟩
    exact ⟨hleaves', fun hhand => htold' (htold hhand)⟩
  · intro hmutex i
    rcases h.mutex_cases hs hok hstep hmutex with ⟨hold, hreleasing⟩
    by_cases hu : u = .inr i
    · subst hu
      have hleaves := (h.closed hold i).1
      exact (leaving_step hs hleaves.leaving (hleaves.bytes hs) hstep).2.1
    · rw [threads_step_frame hstep (Ne.symm hu)]
      exact hreleasing i hu

/-! ## The shutdown -/

/-- What a safe shutdown means in a state. -/
structure ShutdownSafe (d : DispatchConfig Unit N β υ) (handshake : Bool)
    (s : State (Unit ⊕ Fin N) (Option (Fin N)) Nat (Local Unit) (Env Unit N β υ)) : Prop where
  /-- No worker is about to read or write an object that was released. -/
  untouched : ∀ i o, o ∈ (s.thread (.inr i)).touches → s.released o = false
  /-- Once {lit}`condition_variable_terminate` has returned, every worker has taken the byte
  that makes {lit}`queue_receive` return false, or it is in flight. -/
  leaves : s.Closed → ∀ i, s.Leaves i
  /-- Where an output waits for its byte to be taken, every worker has taken it then. -/
  told : handshake = true → s.Closed → ∀ i, (s.thread (.inr i)).told = true
  /-- From then on no worker is stuck, and each of its steps brings it closer to its end. -/
  progress : s.Closed → ∀ i, s.thread (.inr i) ≠ .outside (.worker .exited) →
    ∃ s', (d.threads handshake).step s (.inr i) = some s' ∧
      (s'.thread (.inr i)).remaining < (s.thread (.inr i)).remaining

/-- A worker that leaves its loop is never stuck before it has exited. -/
theorem State.Leaves.enabled (hs : (d.threads handshake).Reachable s) (h : s.Leaves i)
    (hexited : s.thread (.inr i) ≠ .outside (.worker .exited)) :
    ∃ s', (d.threads handshake).step s (.inr i) = some s' := by
  rcases h with htold | ⟨hblocking, hbytes⟩
  · rcases Thread.told_cases htold with ⟨k, op, hk⟩ | hk | hk
    · exact Option.isSome_iff_exists.mp ((threads_enabled_inside hk).mpr rfl)
    · simp [DispatchConfig.threads, Metal.threads, hk, DispatchConfig.caller, workerStep]
    · exact absurd hk hexited
  · rcases waiting_of_reachable (dispatchWiring_injective N handshake) hs with
      ⟨l, rest, hwait⟩
    have hcend : (s.queue.node (.inr i)).cend = some i := hwait.cend (.inr i)
    rcases Thread.blocking_cases hblocking with ⟨k, op, hk | hk⟩
    · exact Option.isSome_iff_exists.mp ((threads_enabled_inside hk).mpr rfl)
    · refine Option.isSome_iff_exists.mp ((threads_enabled_inside hk).mpr ?_)
      simp [Queue.step, conditionVariableWait, hcend, hbytes]

/-- {lit}`dispatch_queue_delete` is safe in every run in which all workers are enlisted when
{lit}`queue_delete` takes the spinlock of the condition variable, and each of them is still in
{lit}`condition_variable_wait` when its node is read. -/
theorem dispatch_queue_delete_safe (d : DispatchConfig Unit N β υ) (handshake : Bool)
    (hs : ((d.threads handshake).guarded fun s u => shutdownOk handshake s u = true).Reachable
      s) : ShutdownSafe d handshake s := by
  have h : Shutdown handshake s := by
    refine hs.invariant ?_ ?_
    · constructor
      · intro k at_ hk
        cases hk
      · rintro (⟨u, hu⟩ | ⟨o, ho⟩)
        · cases u <;> cases hu
        · cases o <;> cases ho
      · intro hmutex
        cases hmutex
    · intro s u s' hr h hstep
      rcases System.guarded_step.mp hstep with ⟨hok, hstep⟩
      exact h.step hr.of_guarded hok hstep
  have hr := hs.of_guarded
  constructor
  · intro i o ho
    by_contra hreleased
    have hreleased' : s.released o = true := by simpa using hreleased
    have hleaves := (h.closed (Or.inr ⟨o, hreleased'⟩) i).1
    rcases hleaves with htold | ⟨hblocking, -⟩
    · rcases Thread.told_cases htold with ⟨k, op, hk⟩ | hk | hk
      · simp [hk, Thread.touches, Pc.touches, WaitPc.touches] at ho
      · simp [hk, Thread.touches, WorkerPc.touches] at ho
      · simp [hk, Thread.touches, WorkerPc.touches] at ho
    · rcases Thread.blocking_cases hblocking with ⟨k, op, hk | hk⟩
      · have heq : o = .inl .mutex := by
          simpa [hk, Thread.touches, Pc.touches, WaitPc.touches] using ho
        subst heq
        have hno := h.mutex hreleased' i
        rw [hk] at hno
        cases hno
      · simp [hk, Thread.touches, Pc.touches, WaitPc.touches] at ho
  · exact fun hclosed i => (h.closed hclosed i).1
  · exact fun hhand hclosed i => (h.closed hclosed i).2 hhand
  · intro hclosed i hexited
    have hleaves := (h.closed hclosed i).1
    rcases hleaves.enabled hr hexited with ⟨s', hstep⟩
    have hcount := (leaving_step hr hleaves.leaving (hleaves.bytes hr) hstep).2.2.1
    exact ⟨s', hstep, by omega⟩

end Dispatch

/-! ## One task and one worker -/

/-- A client adds a waitable task, waits for it and deletes the dispatch queue. -/
def oneTaskDelete : DispatchConfig Unit 1 Unit Nat where
  length := 1
  length_pos := Nat.one_pos
  useCallersThread := false
  prog := fun _ => [.taskAdd 0, .taskWait 0, .delete]
  heap := ⟨fun _ => dispatchTaskInit (fun _ n => n + 1) () true, fun _ => ⟨0, false, []⟩⟩
  user := 0

/-- The worker is back in {lit}`queue_receive` and enlisted before the client deletes.  It takes
its byte, and returns after the client has read its node. -/
def oneTaskDeleteSchedule : List (Unit ⊕ Fin 1) :=
  List.flatten [List.replicate 12 (.inl ()), List.replicate 28 (.inr 0),
    List.replicate 8 (.inl ()), [.inr 0], List.replicate 14 (.inl ()), [.inr 0, .inr 0]]

theorem oneTaskDelete_run : (((oneTaskDelete.threads true).guarded fun s u =>
    shutdownOk true s u = true).run (oneTaskDelete.threads true).init
      oneTaskDeleteSchedule).isSome = true := by
  decide +kernel

/-- The shutdown is safe in this run. -/
theorem dispatch_queue_delete_safe_oneTask :
    ShutdownSafe oneTaskDelete true ((((oneTaskDelete.threads true).guarded fun s u =>
      shutdownOk true s u = true).run (oneTaskDelete.threads true).init
        oneTaskDeleteSchedule).get oneTaskDelete_run) :=
  dispatch_queue_delete_safe oneTaskDelete true
    (((oneTaskDelete.threads true).guarded fun s u =>
      shutdownOk true s u = true).reachable_get_run oneTaskDeleteSchedule oneTaskDelete_run)

/-- The worker has signalled the counter of the task and is about to store that it is
ready, while the client waits for the task and deletes the dispatch queue. -/
def oneTaskDeleteEarly : List (Unit ⊕ Fin 1) :=
  List.flatten [List.replicate 12 (.inl ()), List.replicate 20 (.inr 0),
    List.replicate 18 (.inl ())]

theorem oneTaskDeleteEarly_run : ((oneTaskDelete.threads true).run
    (oneTaskDelete.threads true).init oneTaskDeleteEarly).isSome = true := by
  decide +kernel

/-- A client that has waited for all its work can free the array of status words before
the worker writes its own. -/
theorem dispatch_queue_delete_unsafe :
    ¬ ∀ s, (oneTaskDelete.threads true).Reachable s → ShutdownSafe oneTaskDelete true s := by
  intro hclaim
  have hreach := (oneTaskDelete.threads true).reachable_get_run oneTaskDeleteEarly
    oneTaskDeleteEarly_run
  have htouches : ((((oneTaskDelete.threads true).run (oneTaskDelete.threads true).init
      oneTaskDeleteEarly).get oneTaskDeleteEarly_run).thread (.inr 0)).touches =
        [.inr .threadStatus] := by
    decide +kernel
  have hreleased : (((oneTaskDelete.threads true).run
      (oneTaskDelete.threads true).init oneTaskDeleteEarly).get
        oneTaskDeleteEarly_run).released (.inr .threadStatus) = true := by
    decide +kernel
  have hfalse := (hclaim _ hreach).untouched 0 (.inr .threadStatus)
    (by rw [htouches]; exact List.mem_singleton_self _)
  rw [hreleased] at hfalse
  cases hfalse

end Metal
end LibDispatch
