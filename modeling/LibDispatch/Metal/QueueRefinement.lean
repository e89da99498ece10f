import LibDispatch.Metal.QueueContents

/-!
# The bare-metal queue is a bounded FIFO

A call of {lit}`queue_send` or {lit}`queue_receive` takes effect at its last store to the
indices of the ring buffer.  Up to there the caller can be seen as still being at
the call, from there on as having returned.  With this reading, every run of any
threads over the queue is a run of the same threads over an atomic list of bounded
length: this is a forward simulation that preserves sends and receives.

Main results:

- Theorem {lit}`QueueStep.effect`: which statements take effect.
- Theorem {lit}`queue_simulation`: the simulation.
- Theorem {lit}`queue_refines_fifo`: every history of the queue is a history of the
  atomic list, the items received are a prefix of the items sent, and nothing is
  overwritten.
- Theorem {lit}`atomic_of_reachable`: invariants of the atomic system transfer to the
  queue.
-/

namespace LibDispatch
namespace Metal

variable {ι χ α κ μ : Type}

/-! ## When a call takes effect -/

/-- The call that a thread is in, as long as it has not taken effect. -/
def Pc.pending : Pc α → Option (Call α)
  | .lock op | .test op | .wait op _ =>
      match op with
      | .send item => some (.send item)
      | .receive => some .receive
  | .store item | .overwrite item | .advanceHead item | .setFull item => some (.send item)
  | .load | .clearFull _ | .advanceTail _ => some .receive
  | .sizeLock | .sizeRead => some .size
  | .broadcast _ _ | .unlock _ => none
  | .terminate _ | .deleteSpinlock | .freeConditionVariable | .deleteMutex
  | .freeRingBuffer | .freeQueue => some .delete

/-- The value that a call will return, once it has taken effect or was told to stop. -/
def Pc.committed : Pc α → Option (Result α)
  | .broadcast result _ | .unlock result => some result
  | .wait _ .leave => some .terminated
  | _ => none

/-- The value returned or to be returned after a step. -/
def Control.committed : Control α → Option (Result α)
  | .goto pc => pc.committed
  | .ret result => some result

/-- A caller's local state when the given value has or has not been fixed. -/
def settle (caller : Caller ι κ μ α) (t : ι) (k : κ) : Option (Result α) → κ
  | none => k
  | some result => caller.ret t k result

/-- The local state of a thread as the atomic list shows it. -/
def Thread.view (caller : Caller ι κ μ α) (t : ι) : Thread κ α → κ
  | .outside k => k
  | .inside k pc => settle caller t k pc.committed

@[simp]
theorem Thread.view_outside (caller : Caller ι κ μ α) (t : ι) (k : κ) :
    (Thread.outside k : Thread κ α).view caller t = k :=
  rfl

@[simp]
theorem Thread.view_entry (caller : Caller ι κ μ α) (t : ι) (k : κ) (c : Call α) :
    (Thread.inside k c.entry).view caller t = k := by
  cases c <;> rfl

@[simp]
theorem Thread.view_resume (caller : Caller ι κ μ α) (t : ι) (k : κ) (c : Control α) :
    (Thread.resume caller t k c).view caller t = settle caller t k c.committed := by
  cases c <;> rfl

/-- The function to be entered is the pending call of its entry. -/
theorem Call.pending_entry (c : Call α) : c.entry.pending = some c := by
  cases c <;> rfl

section Steps

variable [DecidableEq ι] [DecidableEq χ] {wiring : Wiring ι χ} {q q' : Queue ι χ α} {t : ι}
  {pc pc' : Pc α} {c : Control α}

/-- A call stays pending until it takes effect. -/
theorem QueueStep.pending_mono (h : QueueStep wiring q t pc q' (.goto pc')) {x : Call α}
    (hx : pc'.pending = some x) : pc.pending = some x := by
  cases h with
  | testProceed op _ => cases op <;> exact hx
  | setFull item => cases hx
  | advanceTail item => cases hx
  | sizeRead => cases hx
  | _ => exact hx

/-- A statement fixes the result of a send, of a receive or of a size query, ends a
call that was told to stop, or leaves the result as it was and shows nothing. -/
theorem QueueStep.effect (h : QueueStep wiring q t pc q' c) :
    (∃ item, pc = .setFull item ∧ c.committed = some .sent) ∨
    (∃ item, pc = .advanceTail item ∧ c.committed = some (.received item)) ∨
    (pc = .sizeRead ∧ c.committed = some (.size (queueSize q))) ∨
    (∃ op rest, pc = .wait op .chanIn ∧
      q.inFlight (q.node t).cend = .terminate :: rest) ∨
    pc = .freeQueue ∨
    (c.committed = pc.committed ∧ (∀ xs, pc.commit xs = xs) ∧
      (∀ item, pc ≠ .setFull item) ∧ ∀ item, pc ≠ .advanceTail item) := by
  cases h with
  | setFull item => exact Or.inl ⟨item, rfl, rfl⟩
  | advanceTail item => exact Or.inr (Or.inl ⟨item, rfl, rfl⟩)
  | sizeRead => exact Or.inr (Or.inr (Or.inl ⟨rfl, rfl⟩))
  | chanInTerminate op rest hbyte =>
      exact Or.inr (Or.inr (Or.inr (Or.inl ⟨op, rest, rfl, hbyte⟩)))
  | freeQueue => exact Or.inr (Or.inr (Or.inr (Or.inr (Or.inl rfl))))
  | testProceed op _ =>
      refine Or.inr (Or.inr (Or.inr (Or.inr (Or.inr ⟨?_, fun _ => rfl, ?_, ?_⟩))))
      · cases op <;> rfl
      · intro item heq
        cases heq
      · intro item heq
        cases heq
  | _ =>
      refine Or.inr (Or.inr (Or.inr (Or.inr (Or.inr ⟨rfl, fun _ => rfl, ?_, ?_⟩))))
      · intro item heq
        cases heq
      · intro item heq
        cases heq

end Steps

/-! ## Queues that nobody deletes -/

/-- No thread is in {lit}`queue_delete`, and every byte in flight is a signal. -/
structure Undeleted (s : State ι χ α κ μ) : Prop where
  threads : ∀ t k pc, s.thread t = .inside k pc → pc.pending ≠ some .delete
  bytes : ∀ x e, e ∈ s.queue.inFlight x → e = .signal

/-- Every call in progress is one that its caller makes. -/
def Calling (caller : Caller ι κ μ α) (s : State ι χ α κ μ) : Prop :=
  ∀ t k pc x, s.thread t = .inside k pc → pc.pending = some x → caller.call t k = some x

section Invariants

variable [DecidableEq ι] [DecidableEq χ] {wiring : Wiring ι χ} {caller : Caller ι κ μ α}
  {length : Nat} {env : μ} {start : ι → κ} {s s' : State ι χ α κ μ} {t : ι}

theorem Calling.step (hs : Calling caller s)
    (h : (threads wiring caller length env start).step s t = some s') :
    Calling caller s' := by
  intro u k' pc' x hu hx
  rcases threads_step_cases h with
    ⟨k, c, hk, hc, rfl⟩ | ⟨k, k₁, env', hk, -, -, rfl⟩ | ⟨k, pc, q', c, hk, hq, rfl⟩
  · by_cases hut : u = t
    · subst hut
      have heq : Thread.inside k c.entry = .inside k' pc' := by simpa using hu
      cases heq
      rw [Call.pending_entry] at hx
      exact hx ▸ hc
    · exact hs u k' pc' x (by simpa [hut] using hu) hx
  · by_cases hut : u = t
    · subst hut
      simp at hu
    · exact hs u k' pc' x (by simpa [hut] using hu) hx
  · by_cases hut : u = t
    · subst hut
      have heq : Thread.resume caller u k c = .inside k' pc' := by simpa using hu
      cases c with
      | goto pc₁ =>
          cases heq
          exact hs u k' pc x hk ((queueStep_of_step hq).pending_mono hx)
      | ret result => cases heq
    · exact hs u k' pc' x (by simpa [hut] using hu) hx

theorem calling_of_reachable
    (hs : (threads wiring caller length env start).Reachable s) : Calling caller s := by
  refine hs.invariant ?_ fun _ _ _ _ hc h => hc.step h
  intro t k pc x hk
  cases hk

omit [DecidableEq ι] in
/-- The waking loop sends its own event only. -/
theorem WakeStep.bytes {evt : ConditionEvent} {q q' : Queue ι χ α} {at_ at' : WakePc}
    (h : WakeStep evt wiring q t at_ q' at') {x : χ} {e : ConditionEvent}
    (he : e ∈ q'.inFlight x) : e ∈ q.inFlight x ∨ e = evt := by
  cases h with
  | send w _ =>
      simp only [conditionVariableSend] at he
      by_cases hx : x = Function.update (Function.update q.dest (wiring.cend t)
          (q.node w).cend) (q.node w).cend (wiring.cend t) (wiring.cend t)
      · subst hx
        simpa using he
      · rw [Function.update_of_ne hx] at he
        exact Or.inl he
  | _ => exact Or.inl he

/-- A statement outside {lit}`queue_delete` adds signals only. -/
theorem QueueStep.bytes {q q' : Queue ι χ α} {pc : Pc α} {c : Control α}
    (h : QueueStep wiring q t pc q' c) (hpc : pc.pending ≠ some .delete) {x : χ}
    {e : ConditionEvent} (he : e ∈ q'.inFlight x) : e ∈ q.inFlight x ∨ e = .signal := by
  cases h with
  | broadcast result at_ at' _ hwake => exact (wakeStep_of_wake hwake).bytes he
  | terminate at_ at' _ hwake => exact absurd rfl hpc
  | chanInSignal op rest hbyte =>
      by_cases hx : x = (q.node t).cend
      · subst hx
        have he' : e ∈ rest := by simpa using he
        rw [hbyte]
        exact Or.inl (List.mem_cons_of_mem _ he')
      · exact Or.inl (by simpa [hx] using he)
  | chanInTerminate op rest hbyte =>
      by_cases hx : x = (q.node t).cend
      · subst hx
        have he' : e ∈ rest := by simpa using he
        rw [hbyte]
        exact Or.inl (List.mem_cons_of_mem _ he')
      · exact Or.inl (by simpa [hx] using he)
  | overwrite item =>
      left
      split at he <;> exact he
  | _ => exact Or.inl he

/-- Without a call of {lit}`queue_delete` there is never a byte that ends a wait. -/
theorem undeleted_of_reachable (hdelete : caller.NoDelete)
    (hs : (threads wiring caller length env start).Reachable s) : Undeleted s := by
  have hthreads : ∀ s : State ι χ α κ μ,
      (threads wiring caller length env start).Reachable s →
      ∀ t k pc, s.thread t = .inside k pc → pc.pending ≠ some .delete := by
    intro s hs t k pc hk hpc
    exact hdelete t k (calling_of_reachable hs t k pc .delete hk hpc)
  refine ⟨hthreads s hs, ?_⟩
  refine hs.invariant (P := fun s => ∀ x e, e ∈ s.queue.inFlight x → e = .signal) ?_ ?_
  · intro x e he
    cases he
  · intro s t s' hr hbytes h x e he
    rcases threads_step_cases h with
      ⟨k, c, hk, hc, rfl⟩ | ⟨k, k₁, env', hk, -, -, rfl⟩ | ⟨k, pc, q', c, hk, hq, rfl⟩
    · exact hbytes x e he
    · exact hbytes x e he
    · rcases (queueStep_of_step hq).bytes (hthreads s hr t k pc hk) he with hold | hsig
      · exact hbytes x e hold
      · exact hsig

/-- The length of a queue never changes. -/
theorem length_of_reachable (hs : (threads wiring caller length env start).Reachable s) :
    s.queue.length = length := by
  refine hs.invariant (P := fun s => s.queue.length = length) rfl ?_
  intro s t s' hr hlen h
  rcases threads_step_cases h with
    ⟨k, c, hk, hc, rfl⟩ | ⟨k, k₁, env', hk, -, -, rfl⟩ | ⟨k, pc, q', c, hk, hq, rfl⟩
  · exact hlen
  · exact hlen
  · change q'.length = length
    rw [← hlen]
    cases queueStep_of_step hq with
    | broadcast result at_ at' _ hwake => cases wakeStep_of_wake hwake <;> rfl
    | terminate at_ at' _ hwake => cases wakeStep_of_wake hwake <;> rfl
    | overwrite item => split <;> rfl
    | _ => rfl

end Invariants

/-! ## The simulation -/

/-- The relation between a state of the queue and a state of the atomic list: the
list is what the ring buffer holds, and a thread inside a queue function is seen
before or after its call according to whether the call has taken effect. -/
structure Refines (caller : Caller ι κ μ α) (s : State ι χ α κ μ)
    (a : AtomicState ι α κ μ) : Prop where
  contents : Contents s a.fifo
  env : a.env = s.env
  thread : ∀ t, a.thread t = (s.thread t).view caller t

section Simulation

variable [DecidableEq ι] [DecidableEq χ] {wiring : Wiring ι χ} {caller : Caller ι κ μ α}
  {length : Nat} {env : μ} {start : ι → κ} {s s' : State ι χ α κ μ}
  {a : AtomicState ι α κ μ} {t : ι}

omit [DecidableEq χ] in
/-- Moving one thread on both sides keeps the threads related. -/
theorem Refines.thread_update (h : Refines caller s a) {th : Thread κ α} {k : κ}
    (hth : k = th.view caller t) (u : ι) :
    Function.update a.thread t k u = (Function.update s.thread t th u).view caller u := by
  by_cases hut : u = t
  · subst hut
    simpa using hth
  · simpa [hut] using h.thread u

omit [DecidableEq χ] in
/-- Moving one thread on the queue's side without changing what it shows. -/
theorem Refines.thread_stutter (h : Refines caller s a) {th : Thread κ α}
    (hth : th.view caller t = (s.thread t).view caller t) (u : ι) :
    a.thread u = (Function.update s.thread t th u).view caller u := by
  by_cases hut : u = t
  · subst hut
    simpa [hth] using h.thread u
  · simpa [hut] using h.thread u

/-- Each step of the queue is a step of the same thread on the atomic list, with the same
send or receive, or shows nothing. -/
theorem Refines.step (hdelete : caller.NoDelete)
    (hs : (threads wiring caller length env start).Reachable s) (h : Refines caller s a)
    (hstep : (threads wiring caller length env start).step s t = some s') :
    (queueEvents s t = [] ∧ Refines caller s' a) ∨
      ∃ a', (atomicThreads caller length env start).step a t = some a' ∧
        atomicEvents caller a t = queueEvents s t ∧ Refines caller s' a' := by
  have hcontents := h.contents.step (locked_of_reachable hs) hstep
  have hlen := length_of_reachable hs
  rcases threads_step_cases hstep with
    ⟨k, c, hk, hc, rfl⟩ | ⟨k, k', env', hk, hc, hown, rfl⟩ | ⟨k, pc, q', c, hk, hq, rfl⟩
  · -- entering a queue function
    left
    rw [commitOf_outside hk] at hcontents
    exact ⟨by simp [queueEvents, hk], hcontents, h.env, h.thread_stutter (by simp [hk])⟩
  · -- a step of the caller's own code
    right
    rw [commitOf_outside hk] at hcontents
    have hat : a.thread t = k := by simp [h.thread t, hk]
    refine ⟨{ a with env := env', thread := Function.update a.thread t k' }, ?_, ?_, ?_⟩
    · simp [atomicThreads, hat, hc, h.env, hown]
    · simp [atomicEvents, queueEvents, hat, hc, hk]
    · exact ⟨hcontents, rfl, h.thread_update (by simp)⟩
  · -- a statement of a queue function
    rw [commitOf_inside hk] at hcontents
    have hstmt := queueStep_of_step hq
    have hundeleted := undeleted_of_reachable hdelete hs
    have hcall : ∀ x, pc.pending = some x → caller.call t k = some x :=
      fun x hx => calling_of_reachable hs t k pc x hk hx
    have hat : a.thread t = settle caller t k pc.committed := by
      rw [h.thread t, hk]
      rfl
    rcases hstmt.effect with
      ⟨item, rfl, hres⟩ | ⟨item, rfl, hres⟩ | ⟨rfl, hres⟩ | ⟨op, rest, rfl, hbyte⟩ | rfl |
      ⟨hsame, hcommit, hnosend, hnoreceive⟩
    · -- `queue_send` takes effect
      right
      rcases h.contents.owner t k _ hk rfl with ⟨head, hhead, hholds, hfull, hslot⟩
      have hroom : a.fifo.length < length := hlen ▸ hholds.length_lt hfull
      have hc : caller.call t (a.thread t) = some (.send item) := by
        rw [hat]
        exact hcall _ rfl
      refine ⟨{ a with
        fifo := a.fifo ++ [item]
        thread := Function.update a.thread t (caller.ret t (a.thread t) .sent) }, ?_, ?_, ?_⟩
      · simp [atomicThreads, atomicCall, hc, hroom]
      · simp [atomicEvents, queueEvents, hc, hk]
      · refine ⟨hcontents, h.env, h.thread_update ?_⟩
        rw [Thread.view_resume, hres, hat]
        rfl
    · -- `queue_receive` takes effect
      right
      rcases h.contents.owner t k _ hk rfl with ⟨-, full, rest, -, hfifo⟩
      have hc : caller.call t (a.thread t) = some .receive := by
        rw [hat]
        exact hcall _ rfl
      refine ⟨{ a with
        fifo := rest
        thread := Function.update a.thread t (caller.ret t (a.thread t) (.received item)) },
        ?_, ?_, ?_⟩
      · simp [atomicThreads, atomicCall, hc, hfifo]
      · simp [atomicEvents, queueEvents, hc, hfifo, hk]
      · refine ⟨?_, h.env, h.thread_update ?_⟩
        · simpa [Pc.commit, hfifo] using hcontents
        · rw [Thread.view_resume, hres, hat]
          rfl
    · -- `queue_size` reads the queue
      right
      have hholds : s.queue.Holds a.fifo := h.contents.owner t k _ hk rfl
      have hc : caller.call t (a.thread t) = some .size := by
        rw [hat]
        exact hcall _ rfl
      refine ⟨{ a with
        thread := Function.update a.thread t
          (caller.ret t (a.thread t) (.size a.fifo.length)) }, ?_, ?_, ?_⟩
      · simp [atomicThreads, atomicCall, hc]
      · simp [atomicEvents, queueEvents, hc, hk]
      · refine ⟨hcontents, h.env, h.thread_update ?_⟩
        rw [Thread.view_resume, hres, hat, hholds.queueSize_eq]
        rfl
    · -- a byte that ends a wait is never in flight
      have hsig := hundeleted.bytes _ .terminate (hbyte ▸ List.mem_cons_self)
      cases hsig
    · exact absurd rfl (hundeleted.threads t k _ hk)
    · left
      rw [hcommit] at hcontents
      refine ⟨?_, hcontents, h.env, h.thread_stutter ?_⟩
      · simp only [queueEvents, hk]
        split
        · rename_i item heq
          cases heq
          exact absurd rfl (hnosend item)
        · rename_i item heq
          cases heq
          exact absurd rfl (hnoreceive item)
        · rfl
      · rw [Thread.view_resume, hsame, hk]
        rfl

/-- The atomic list simulates the queue: forward simulation of every caller that
does not delete the queue, for every positive length. -/
theorem queue_simulation (wiring : Wiring ι χ) (hdelete : caller.NoDelete)
    (hlength : 0 < length) :
    System.Simulation (threads wiring caller length env start)
      (atomicThreads caller length env start) queueEvents (atomicEvents caller)
      (Refines caller) where
  init := ⟨contents_init hlength, rfl, fun _ => rfl⟩
  step hs h hstep := (h.step hdelete hs hstep).imp_right fun ⟨a', ha⟩ => ⟨_, a', ha⟩

/-- Invariants of the atomic system transfer to the queue. -/
theorem atomic_of_reachable (hdelete : caller.NoDelete) (hlength : 0 < length)
    (hs : (threads wiring caller length env start).Reachable s) :
    ∃ a, (atomicThreads caller length env start).Reachable a ∧ Refines caller s a :=
  (queue_simulation wiring hdelete hlength).reachable hs

/-- The bare-metal queue refines a bounded FIFO.  Whatever the threads are and
however their steps interleave, the history of sends and receives is one of the
atomic list of the same capacity, so a send takes effect when the list has room,
a receive takes the oldest item, and a call takes effect once.  The items received
are a prefix of the items sent, what is missing is what the list holds, and
{lit}`queue_send` never overwrites an item. -/
theorem queue_refines_fifo (wiring : Wiring ι χ) (hdelete : caller.NoDelete)
    (hlength : 0 < length) {tr : List (ι × QueueEvent α)}
    (h : (threads wiring caller length env start).Traced queueEvents s tr) :
    (∃ a, (atomicThreads caller length env start).Traced (atomicEvents caller) a tr ∧
      Refines caller s a ∧ sentItems tr = receivedItems tr ++ a.fifo ∧
      a.fifo.length ≤ length) ∧
    receivedItems tr <+: sentItems tr ∧
    ∀ t k item, s.thread t = .inside k (.overwrite item) → s.queue.full = false := by
  rcases (queue_simulation wiring hdelete hlength).traced h with ⟨a, ha, href⟩
  rcases atomicThreads_history ha with ⟨hhist, hlen⟩
  refine ⟨⟨a, ha, href, hhist, hlen⟩, ⟨a.fifo, hhist.symm⟩, ?_⟩
  intro t k item ht
  exact href.contents.overwrite_not_full ht

end Simulation

/-! ## Two threads -/

/-- Thread 0 sends the items, thread 1 loops on {lit}`queue_receive`. -/
def pairScript (items : List Nat) (t : Fin 2) : Nat → Option (Call Nat) :=
  if t = 0 then producer items else consumer

theorem pairScript_noDelete (items : List Nat) : (scriptCaller (pairScript items)).NoDelete := by
  intro t n
  change pairScript items t n ≠ some .delete
  unfold pairScript
  split
  · exact producer_ne_delete items n
  · exact consumer_ne_delete n

/-- Two items over a queue of two slots. -/
def twoItems : System (State (Fin 2) (Fin 2) Nat Nat Unit) (Fin 2) :=
  threads ⟨id, true⟩ (scriptCaller (pairScript [4, 7])) 2 () fun _ => 0

/-- The producer fills the queue before the consumer comes. -/
def twoItemsSchedule : List (Fin 2) :=
  List.replicate 22 0 ++ List.replicate 20 1

/-- The items are received in the order in which they were sent. -/
theorem queue_refines_fifo_twoItems :
    ∃ a, (atomicThreads (scriptCaller (pairScript [4, 7])) 2 () fun _ => 0).Traced
      (atomicEvents (scriptCaller (pairScript [4, 7]))) a
      [(0, .sent 4), (0, .sent 7), (1, .received 4), (1, .received 7)] := by
  have hrun : twoItems.history queueEvents twoItems.init twoItemsSchedule =
      [(0, .sent 4), (0, .sent 7), (1, .received 4), (1, .received 7)] := rfl
  rcases (queue_refines_fifo ⟨id, true⟩ (pairScript_noDelete [4, 7]) Nat.two_pos
    (twoItems.traced_get_run queueEvents twoItemsSchedule (by decide))).1 with ⟨a, ha, -⟩
  exact ⟨a, hrun ▸ ha⟩

/-- One item over a queue of one slot. -/
def oneItem : System (State (Fin 2) (Fin 2) Nat Nat Unit) (Fin 2) :=
  threads ⟨id, true⟩ (scriptCaller (pairScript [7])) 1 () fun _ => 0

/-- The consumer comes first, finds the queue empty and sleeps; the send wakes it
up, and it receives the item. -/
def oneItemSchedule : List (Fin 2) :=
  [1, 1, 1, 1, 1, 1, 1, 0, 0, 0, 0, 0, 0, 0, 0, 0, 1, 0, 0, 0, 0, 0, 1, 1, 1, 1, 1, 1, 1, 1, 1]

end Metal
end LibDispatch
