import LibDispatch.Metal.QueueRefinement

/-!
# What one call of a queue function does

The mutex of a queue is taken by {lit}`queue_send` and {lit}`queue_receive`, given back and
taken again inside {lit}`condition_variable_wait` as often as the loop goes round, and given
back by them only when they return true; on a {lit}`CONDITION_TERMINATE_EVT` they return false
after the wait has dropped it.  This file says which fields each statement accesses, and
follows a call from its entry to its return while the other threads do what they like,
{lit}`queue_delete` included.

The assertion {lit}`dispatch_assert(queue->ring_buffer)` reads the pointer before the mutex is
taken; that is the one access to a field outside the mutex.

Main results:

- Theorem {lit}`Queue.step_withFields`: a statement without accesses neither reads nor writes a
  field.
- Theorem {lit}`CallRun.inv`: what a call has done when it is at a position.
- Theorem {lit}`queue_call_discipline`: accesses, releases and returns.
- Theorem {lit}`queue_assertion_unlocked`: the assertion.
-/

namespace LibDispatch
namespace Metal

variable {ι χ α κ μ : Type}

/-! ## Accesses -/

/-- The fields that the mutex guards; {lit}`slots` are the elements of the array to which the
pointer {lit}`ringBuffer` leads. -/
inductive QueueField where
  | head
  | tail
  | full
  | ringBuffer
  | slots
deriving DecidableEq, Repr

/-- The fields that a statement reads. -/
def Pc.reads : Pc α → List QueueField
  | .test (.send _) => [.full]
  | .test .receive => [.full, .head, .tail]
  | .store _ => [.ringBuffer, .head]
  | .overwrite _ => [.full, .tail]
  | .advanceHead _ => [.head]
  | .setFull _ => [.head, .tail]
  | .load => [.ringBuffer, .tail, .slots]
  | .advanceTail _ => [.tail]
  | .sizeRead => [.full, .head, .tail]
  | .freeRingBuffer => [.ringBuffer]
  | _ => []

/-- The fields that a statement writes. -/
def Pc.writes : Pc α → List QueueField
  | .store _ => [.slots]
  | .overwrite _ => [.tail]
  | .advanceHead _ => [.head]
  | .setFull _ => [.full]
  | .clearFull _ => [.full]
  | .advanceTail _ => [.tail]
  | _ => []

/-- The fields that the assertions at the entry of a function read. -/
def Call.asserted : Call α → List QueueField
  | .send _ | .receive | .delete => [.ringBuffer]
  | .size => []

/-- The fields that the next step of a thread accesses. -/
def accesses (caller : Caller ι κ μ α) (s : State ι χ α κ μ) (t : ι) : List QueueField :=
  match s.thread t with
  | .outside k => ((caller.call t k).map Call.asserted).getD []
  | .inside _ pc => pc.reads ++ pc.writes

/-- The thread is in {lit}`queue_delete` or is about to call it. -/
def Deleting (caller : Caller ι κ μ α) (s : State ι χ α κ μ) (t : ι) : Prop :=
  match s.thread t with
  | .outside k => caller.call t k = some .delete
  | .inside _ pc => pc.pending = some .delete

/-- The statement is {lit}`dispatch_mutex_put`. -/
def Pc.releasesMutex : Pc α → Bool
  | .wait _ .release | .unlock _ => true
  | _ => false

/-- A queue with the given values of its guarded fields. -/
def Queue.withFields (q : Queue ι χ α) (ringBuffer : Nat → Option α) (head tail : Nat)
    (full : Bool) : Queue ι χ α :=
  { q with ringBuffer := ringBuffer, head := head, tail := tail, full := full }

section WithFields

variable (q : Queue ι χ α) (ringBuffer : Nat → Option α) (head tail : Nat) (full : Bool)

@[simp]
theorem Queue.withFields_mutex : (q.withFields ringBuffer head tail full).mutex = q.mutex :=
  rfl

@[simp]
theorem Queue.withFields_cvLock : (q.withFields ringBuffer head tail full).cvLock = q.cvLock :=
  rfl

@[simp]
theorem Queue.withFields_waiters :
    (q.withFields ringBuffer head tail full).waiters = q.waiters :=
  rfl

@[simp]
theorem Queue.withFields_node : (q.withFields ringBuffer head tail full).node = q.node :=
  rfl

@[simp]
theorem Queue.withFields_dest : (q.withFields ringBuffer head tail full).dest = q.dest :=
  rfl

@[simp]
theorem Queue.withFields_inFlight :
    (q.withFields ringBuffer head tail full).inFlight = q.inFlight :=
  rfl

end WithFields

section Statements

variable [DecidableEq ι] [DecidableEq χ] {wiring : Wiring ι χ} {q q' : Queue ι χ α} {t : ι}
  {pc : Pc α} {c : Control α}

/-- {lit}`condition_variable_wait` does not look at the fields. -/
theorem conditionVariableWait_withFields (ringBuffer : Nat → Option α) (head tail : Nat)
    (full : Bool) (at_ : WaitPc) :
    conditionVariableWait wiring (q.withFields ringBuffer head tail full) t at_ =
      (conditionVariableWait wiring q t at_).map fun r =>
        (r.1.withFields ringBuffer head tail full, r.2) := by
  cases at_ with
  | lock =>
      by_cases hfree : q.cvLock = none
      · simp [conditionVariableWait, hfree]
        rfl
      · simp [conditionVariableWait, hfree]
  | chanIn =>
      cases hbyte : q.inFlight (q.node t).cend with
      | nil => simp [conditionVariableWait, hbyte]
      | cons evt rest =>
          simp [conditionVariableWait, hbyte]
          rfl
  | reacquire =>
      by_cases hfree : q.mutex = none
      · simp [conditionVariableWait, hfree]
        rfl
      · simp [conditionVariableWait, hfree]
  | _ => rfl

omit [DecidableEq ι] in
/-- Nor does the waking loop. -/
theorem conditionVariableWake_withFields (ringBuffer : Nat → Option α) (head tail : Nat)
    (full : Bool) (evt : ConditionEvent) (at_ : WakePc) :
    conditionVariableWake evt wiring (q.withFields ringBuffer head tail full) t at_ =
      (conditionVariableWake evt wiring q t at_).map fun r =>
        (r.1.withFields ringBuffer head tail full, r.2) := by
  cases at_ with
  | lock =>
      by_cases hfree : q.cvLock = none
      · simp [conditionVariableWake, hfree]
        rfl
      · simp [conditionVariableWake, hfree]
  | test =>
      cases hw : q.waiters with
      | none => simp [conditionVariableWake, hw]
      | some w =>
          simp [conditionVariableWake, hw]
          rfl
  | ack =>
      by_cases hack : wiring.handshake = true ∧ q.inFlight (q.dest (wiring.cend t)) ≠ []
      · simp [conditionVariableWake, hack]
      · simp [conditionVariableWake, hack]
  | unlink =>
      cases hw : q.waiters with
      | none => simp [conditionVariableWake, hw]
      | some w =>
          simp [conditionVariableWake, hw]
          rfl
  | unlock => rfl

/-- A statement without accesses does the same whatever the fields are, and leaves them as
they are. -/
theorem Queue.step_withFields (hreads : pc.reads = []) (hwrites : pc.writes = [])
    (ringBuffer : Nat → Option α) (head tail : Nat) (full : Bool) :
    (q.withFields ringBuffer head tail full).step wiring t pc =
      (q.step wiring t pc).map fun r => (r.1.withFields ringBuffer head tail full, r.2) := by
  cases pc with
  | lock op =>
      by_cases hfree : q.mutex = none
      · simp [Queue.step, hfree]
        rfl
      · simp [Queue.step, hfree]
  | sizeLock =>
      by_cases hfree : q.mutex = none
      · simp [Queue.step, hfree]
        rfl
      · simp [Queue.step, hfree]
  | wait op at_ =>
      simp only [Queue.step, conditionVariableWait_withFields, Option.map_map]
      rfl
  | broadcast result at_ =>
      simp only [Queue.step, conditionVariableBroadcast, conditionVariableWake_withFields,
        Option.map_map]
      rfl
  | terminate at_ =>
      simp only [Queue.step, conditionVariableTerminate, conditionVariableWake_withFields,
        Option.map_map]
      rfl
  | test op => cases op <;> cases hreads
  | clearFull item => cases hwrites
  | store item => cases hreads
  | overwrite item => cases hreads
  | advanceHead item => cases hreads
  | setFull item => cases hreads
  | load => cases hreads
  | advanceTail item => cases hreads
  | sizeRead => cases hreads
  | freeRingBuffer => cases hreads
  | _ => rfl

/-- A statement that writes no field leaves the fields as they are. -/
theorem QueueStep.fields_of_writes (h : QueueStep wiring q t pc q' c) (hwrites : pc.writes = []) :
    q'.head = q.head ∧ q'.tail = q.tail ∧ q'.full = q.full ∧ q'.ringBuffer = q.ringBuffer := by
  cases h with
  | broadcast result at_ at' _ hwake =>
      cases wakeStep_of_wake hwake <;> exact ⟨rfl, rfl, rfl, rfl⟩
  | terminate at_ at' _ hwake =>
      cases wakeStep_of_wake hwake <;> exact ⟨rfl, rfl, rfl, rfl⟩
  | store item => cases hwrites
  | overwrite item => cases hwrites
  | advanceHead item => cases hwrites
  | setFull item => cases hwrites
  | clearFull item => cases hwrites
  | advanceTail item => cases hwrites
  | _ => exact ⟨rfl, rfl, rfl, rfl⟩

end Statements

/-! ## The items of a queue -/

/-- Between two statements of the owner of the mutex the fields stand for one list. -/
theorem RingPhase.unique {q : Queue ι χ α} {pc : Pc α} {xs ys : List α}
    (h : RingPhase q xs pc) (h' : RingPhase q ys pc) : xs = ys := by
  cases pc with
  | store item => exact h.1.unique h'.1
  | overwrite item => exact h.1.unique h'.1
  | advanceHead item => exact h.1.unique h'.1
  | load => exact h.1.unique h'.1
  | clearFull item => exact h.1.unique h'.1
  | setFull item =>
      rcases h with ⟨head, hhead, hq, -⟩
      rcases h' with ⟨head', hhead', hq', -⟩
      have hlt : head < q.length := hq.head_lt
      have hlt' : head' < q.length := hq'.head_lt
      have heq : head = head' := by
        rw [hhead', RingBuffer.wrap_eq (by omega), RingBuffer.wrap_eq (by omega)] at hhead
        split_ifs at hhead <;> omega
      subst heq
      exact hq.unique hq'
  | advanceTail item =>
      rcases h with ⟨-, full, rest, hq, hxs⟩
      rcases h' with ⟨-, full', rest', hq', hys⟩
      have hfull : full = decide (q.head = q.tail) := hq.full_eq (by simp [hxs])
      have hfull' : full' = decide (q.head = q.tail) := hq'.full_eq (by simp [hys])
      rw [hfull] at hq
      rw [hfull'] at hq'
      exact hq.unique hq'
  | _ => exact RingBuffer.Holds.unique h h'

/-- The items of a queue are determined by its state. -/
theorem Contents.unique [DecidableEq ι] {s : State ι χ α κ μ} {xs ys : List α} (hl : Locked s)
    (h : Contents s xs) (h' : Contents s ys) : xs = ys := by
  cases hmutex : s.queue.mutex with
  | none => exact (h.free hmutex).unique (h'.free hmutex)
  | some t =>
      have ht : (s.thread t).HoldsMutex := (hl.mutex t).mp hmutex
      cases hk : s.thread t with
      | outside k => simp [hk] at ht
      | inside k pc =>
          rw [hk] at ht
          exact (h.owner t k pc hk ht).unique (h'.owner t k pc hk ht)

/-! ## Runs of one call -/

section Calls

variable [DecidableEq ι] [DecidableEq χ] {wiring : Wiring ι χ} {caller : Caller ι κ μ α}
  {length : Nat} {env : μ} {start : ι → κ} {s s' : State ι χ α κ μ} {t : ι} {call : Call α}
  {steps : List (State ι χ α κ μ × State ι χ α κ μ)}

/-- {lit}`CallRun wiring caller length env start t call s steps`: in some run that leads to
{lit}`s`, thread {lit}`t` has entered {lit}`call` and has not returned; {lit}`steps` are the states
before and after each statement that it has executed in the call. -/
inductive CallRun (wiring : Wiring ι χ) (caller : Caller ι κ μ α) (length : Nat) (env : μ)
    (start : ι → κ) (t : ι) (call : Call α) :
    State ι χ α κ μ → List (State ι χ α κ μ × State ι χ α κ μ) → Prop where
  | enter {s s' : State ι χ α κ μ} {k : κ}
      (hs : (threads wiring caller length env start).Reachable s)
      (hk : s.thread t = .outside k) (hcall : caller.call t k = some call)
      (hstep : (threads wiring caller length env start).step s t = some s') :
      CallRun wiring caller length env start t call s' []
  | own {s s' : State ι χ α κ μ} {steps : List (State ι χ α κ μ × State ι χ α κ μ)} {k : κ}
      {pc : Pc α} (h : CallRun wiring caller length env start t call s steps)
      (hstep : (threads wiring caller length env start).step s t = some s')
      (hk : s'.thread t = .inside k pc) :
      CallRun wiring caller length env start t call s' (steps ++ [(s, s')])
  | other {s s' : State ι χ α κ μ} {steps : List (State ι χ α κ μ × State ι χ α κ μ)} {u : ι}
      (h : CallRun wiring caller length env start t call s steps) (hu : u ≠ t)
      (hstep : (threads wiring caller length env start).step s u = some s') :
      CallRun wiring caller length env start t call s' steps

/-- The call has returned {lit}`result`; {lit}`steps` are the states before and after each of its
statements. -/
inductive Returns (wiring : Wiring ι χ) (caller : Caller ι κ μ α) (length : Nat) (env : μ)
    (start : ι → κ) (t : ι) (call : Call α) (result : Result α) :
    List (State ι χ α κ μ × State ι χ α κ μ) → Prop where
  | intro {s s' : State ι χ α κ μ} {steps : List (State ι χ α κ μ × State ι χ α κ μ)} {k : κ}
      {pc : Pc α} {q' : Queue ι χ α}
      (h : CallRun wiring caller length env start t call s steps)
      (hk : s.thread t = .inside k pc)
      (hret : s.queue.step wiring t pc = some (q', .ret result))
      (hstep : (threads wiring caller length env start).step s t = some s') :
      Returns wiring caller length env start t call result (steps ++ [(s, s')])

/-- The step leaves the guarded fields as they are. -/
def KeepsFields (p : State ι χ α κ μ × State ι χ α κ μ) : Prop :=
  p.2.queue.head = p.1.queue.head ∧ p.2.queue.tail = p.1.queue.tail ∧
    p.2.queue.full = p.1.queue.full ∧ p.2.queue.ringBuffer = p.1.queue.ringBuffer

/-- The step leaves the items that the queue holds as they are. -/
def KeepsItems (p : State ι χ α κ μ × State ι χ α κ μ) : Prop :=
  ∀ xs, Contents p.1 xs → Contents p.2 xs

/-- The step stores the item behind those that the queue holds. -/
def StoresItem (item : α) (p : State ι χ α κ μ × State ι χ α κ μ) : Prop :=
  ∃ xs, Contents p.1 xs ∧ Contents p.2 (xs ++ [item])

/-- The step removes the oldest item that the queue holds. -/
def RemovesItem (item : α) (p : State ι χ α κ μ × State ι χ α κ μ) : Prop :=
  ∃ xs, Contents p.1 (item :: xs) ∧ Contents p.2 xs

/-- Exactly one of the steps changes the items of the queue, and it does so by {lit}`P`. -/
def Once (P : State ι χ α κ μ × State ι χ α κ μ → Prop)
    (steps : List (State ι χ α κ μ × State ι χ α κ μ)) : Prop :=
  ∃ before p after, steps = before ++ p :: after ∧ P p ∧
    (∀ x ∈ before, KeepsItems x) ∧ ∀ x ∈ after, KeepsItems x

/-- {lit}`*item` after a step of thread {lit}`t` in {lit}`queue_receive`. -/
def itemAfter (t : ι) (item : Option α) (p : State ι χ α κ μ × State ι χ α κ μ) : Option α :=
  match p.1.thread t with
  | .inside _ .load => p.1.queue.ringBuffer p.1.queue.tail
  | _ => item

/-- The step changes nothing that the caller of a queue function can see. -/
def Quiet (t : ι) (p : State ι χ α κ μ × State ι χ α κ μ) : Prop :=
  KeepsFields p ∧ KeepsItems p ∧ ∀ item, itemAfter t item p = item

/-- What the steps of a call that returns {lit}`result` have done. -/
def Result.Accounts (t : ι) (call : Call α) (steps : List (State ι χ α κ μ × State ι χ α κ μ)) :
    Result α → Prop
  | .sent => ∃ item, call = .send item ∧ Once (StoresItem item) steps
  | .received item =>
      call = .receive ∧ Once (RemovesItem item) steps ∧
        ∀ x, steps.foldl (itemAfter t) x = some item
  | .terminated | .size _ => ∀ p ∈ steps, Quiet t p
  | .deleted => True

/-- What the steps of a call have done when it is at a position. -/
def Pc.Accounts (t : ι) (call : Call α) (steps : List (State ι χ α κ μ × State ι χ α κ μ)) :
    Pc α → Prop
  | .lock _ | .test _ | .wait _ _ | .sizeLock | .sizeRead => ∀ p ∈ steps, Quiet t p
  | .store _ | .overwrite _ | .advanceHead _ | .setFull _ | .load => ∀ p ∈ steps, KeepsItems p
  | .clearFull item | .advanceTail item =>
      (∀ p ∈ steps, KeepsItems p) ∧ ∀ x, steps.foldl (itemAfter t) x = some item
  | .broadcast result _ | .unlock result => result.Accounts t call steps
  | _ => True

/-- What the steps of a call have done when it goes on or returns. -/
def Control.Accounts (t : ι) (call : Call α)
    (steps : List (State ι χ α κ μ × State ι χ α κ μ)) : Control α → Prop
  | .goto pc => pc.Accounts t call steps
  | .ret result => result.Accounts t call steps

/-! ### Steps of a call -/

section OwnSteps

variable {k : κ} {pc : Pc α} {q' : Queue ι χ α} {c : Control α}
  {p : State ι χ α κ μ × State ι χ α κ μ}

/-- A statement that writes no field commits nothing. -/
theorem Pc.commit_of_writes (h : pc.writes = []) (xs : List α) : pc.commit xs = xs := by
  cases pc with
  | setFull item => cases h
  | advanceTail item => cases h
  | _ => rfl

/-- Only the last store to the indices changes the items. -/
theorem keepsItems_of_step (hs : (threads wiring caller length env start).Reachable s)
    (hk : s.thread t = .inside k pc)
    (hstep : (threads wiring caller length env start).step s t = some s')
    (hcommit : ∀ xs, pc.commit xs = xs) : KeepsItems (s, s') := by
  intro xs hxs
  have h := hxs.step (locked_of_reachable hs) hstep
  rwa [commitOf_inside hk, hcommit] at h

omit [DecidableEq ι] [DecidableEq χ] in
/-- Only the load stores through the pointer argument of {lit}`queue_receive`. -/
theorem itemAfter_of_ne (hk : s.thread t = .inside k pc) (hpc : pc ≠ .load)
    (item : Option α) : itemAfter t item (s, s') = item := by
  unfold itemAfter
  rw [hk]
  split
  · rename_i heq
    cases heq
    exact absurd rfl hpc
  · rfl

/-- A statement that writes no field and is not the load is quiet. -/
theorem quiet_of_step (hs : (threads wiring caller length env start).Reachable s)
    (hk : s.thread t = .inside k pc) (hq : QueueStep wiring s.queue t pc q' c)
    (hs' : s'.queue = q')
    (hstep : (threads wiring caller length env start).step s t = some s')
    (hwrites : pc.writes = []) (hload : pc ≠ .load) : Quiet t (s, s') := by
  refine ⟨?_, keepsItems_of_step hs hk hstep (Pc.commit_of_writes hwrites),
    itemAfter_of_ne hk hload⟩
  subst hs'
  exact hq.fields_of_writes hwrites

omit [DecidableEq ι] [DecidableEq χ] in
/-- A quiet step adds nothing to what a call has done. -/
theorem Result.Accounts.quiet {result : Result α} (h : result.Accounts t call steps)
    (hp : Quiet t p) : result.Accounts t call (steps ++ [p]) := by
  have once : ∀ P, Once P steps → Once P (steps ++ [p]) := by
    rintro P ⟨before, x, after, rfl, hx, hbefore, hafter⟩
    exact ⟨before, x, after ++ [p], by simp, hx, hbefore,
      List.forall_mem_append.mpr ⟨hafter, List.forall_mem_singleton.mpr hp.2.1⟩⟩
  cases result with
  | sent =>
      rcases h with ⟨item, hcall, hsteps⟩
      exact ⟨item, hcall, once _ hsteps⟩
  | received item =>
      rcases h with ⟨hcall, hsteps, hitem⟩
      refine ⟨hcall, once _ hsteps, fun x => ?_⟩
      rw [List.foldl_append, hitem]
      exact hp.2.2 _
  | terminated => exact List.forall_mem_append.mpr ⟨h, List.forall_mem_singleton.mpr hp⟩
  | size count => exact List.forall_mem_append.mpr ⟨h, List.forall_mem_singleton.mpr hp⟩
  | deleted => trivial

/-- What a statement of a call adds to what the call has done. -/
theorem Pc.Accounts.step (hlength : 0 < length)
    (hs : (threads wiring caller length env start).Reachable s)
    (hk : s.thread t = .inside k pc) (hq : QueueStep wiring s.queue t pc q' c)
    (hs' : s'.queue = q')
    (hstep : (threads wiring caller length env start).step s t = some s')
    (hcall : ∀ x, pc.pending = some x → x = call) (h : pc.Accounts t call steps) :
    c.Accounts t call (steps ++ [(s, s')]) := by
  have hquiet := quiet_of_step hs hk hq hs' hstep
  have hkeeps := keepsItems_of_step hs hk hstep
  have hitem : pc ≠ .load → ∀ item, itemAfter t item (s, s') = item := itemAfter_of_ne hk
  have snoc : ∀ {P : State ι χ α κ μ × State ι χ α κ μ → Prop}, (∀ x ∈ steps, P x) →
      P (s, s') → ∀ x ∈ steps ++ [(s, s')], P x := fun h hp =>
    List.forall_mem_append.mpr ⟨h, List.forall_mem_singleton.mpr hp⟩
  have folded : ∀ {item : α}, pc ≠ .load →
      (∀ x, steps.foldl (itemAfter t) x = some item) →
      ∀ x, (steps ++ [(s, s')]).foldl (itemAfter t) x = some item := by
    intro item hpc hsteps x
    rw [List.foldl_append, hsteps]
    exact hitem hpc _
  rcases contents_of_reachable hlength hs with ⟨xs, hxs⟩
  have hxs' := hxs.step (locked_of_reachable hs) hstep
  rw [commitOf_inside hk] at hxs'
  cases hq with
  -- up to the critical section every step is quiet
  | testProceed op _ =>
      have hkept : ∀ x ∈ steps ++ [(s, s')], KeepsItems x :=
        snoc (fun x hx => (h x hx).2.1) (hkeeps fun _ => rfl)
      cases op <;> exact hkept
  -- the critical section of `queue_send` changes the items when it sets the flag
  | store item => exact snoc h (hkeeps fun _ => rfl)
  | overwrite item => exact snoc h (hkeeps fun _ => rfl)
  | advanceHead item => exact snoc h (hkeeps fun _ => rfl)
  | setFull item =>
      exact ⟨item, (hcall _ rfl).symm, steps, (s, s'), [], rfl, ⟨xs, hxs, hxs'⟩, h, by simp⟩
  -- that of `queue_receive` stores the item first and then removes it
  | load item hslot =>
      refine ⟨snoc h (hkeeps fun _ => rfl), fun x => ?_⟩
      rw [List.foldl_append, List.foldl_cons, List.foldl_nil, itemAfter, hk]
      exact hslot
  | clearFull item => exact ⟨snoc h.1 (hkeeps fun _ => rfl), folded (by simp) h.2⟩
  | advanceTail item =>
      rcases hxs.owner t k _ hk rfl with ⟨-, _, rest, -, rfl⟩
      exact ⟨(hcall _ rfl).symm, ⟨steps, (s, s'), [], rfl, ⟨rest, hxs, hxs'⟩, h.1, by simp⟩,
        folded (by simp) h.2⟩
  -- what follows is quiet again
  | broadcast result at_ at' _ _ => exact h.quiet (hquiet rfl (by simp))
  | broadcastDone result => exact h.quiet (hquiet rfl (by simp))
  | unlock result => exact h.quiet (hquiet rfl (by simp))
  | sizeRead => exact snoc h (hquiet rfl (by simp))
  | sizeLock => exact snoc h (hquiet rfl (by simp))
  | terminate => trivial
  | terminateDone => trivial
  | deleteSpinlock => trivial
  | freeConditionVariable => trivial
  | deleteMutex => trivial
  | freeRingBuffer => trivial
  | freeQueue => trivial
  | _ => exact snoc h (hquiet rfl (by simp))

end OwnSteps

/-! ### Whole calls -/

/-- The states of a call are reachable. -/
theorem CallRun.reachable (h : CallRun wiring caller length env start t call s steps) :
    (threads wiring caller length env start).Reachable s := by
  induction h with
  | enter hs _ _ hstep => exact hs.step hstep
  | own _ hstep _ ih => exact ih.step hstep
  | other _ _ hstep ih => exact ih.step hstep

/-- Every thread in a queue function is in a call that it has entered. -/
theorem exists_callRun (hs : (threads wiring caller length env start).Reachable s) {k : κ}
    {pc : Pc α} (hk : s.thread t = .inside k pc) :
    ∃ call steps, CallRun wiring caller length env start t call s steps := by
  induction hs generalizing k pc with
  | init => cases hk
  | @step s s' u hs hstep ih =>
      by_cases hut : u = t
      · subst hut
        rcases threads_step_cases hstep with
          ⟨k₁, c, hk₁, hc, -⟩ | ⟨k₁, k₂, env', -, -, -, rfl⟩ | ⟨k₁, pc₁, q', c, hk₁, -, -⟩
        · exact ⟨c, [], .enter hs hk₁ hc hstep⟩
        · simp at hk
        · rcases ih hk₁ with ⟨call, steps, hrun⟩
          exact ⟨call, _, hrun.own hstep hk⟩
      · rw [threads_step_frame hstep (Ne.symm hut)] at hk
        rcases ih hk with ⟨call, steps, hrun⟩
        exact ⟨call, steps, hrun.other hut hstep⟩

/-- Every return is the return of a call that the thread has entered. -/
theorem exists_returns (hs : (threads wiring caller length env start).Reachable s) {k : κ}
    {pc : Pc α} (hk : s.thread t = .inside k pc) {q' : Queue ι χ α} {result : Result α}
    (hret : s.queue.step wiring t pc = some (q', .ret result)) :
    ∃ call steps, Returns wiring caller length env start t call result steps := by
  rcases exists_callRun hs hk with ⟨call, steps, hrun⟩
  exact ⟨call, _, .intro hrun hk hret (threads_step_inside hk hret)⟩

omit [DecidableEq ι] [DecidableEq χ] in
/-- At its entry a call has done nothing. -/
theorem Call.accounts_entry (call : Call α) :
    call.entry.Accounts t call ([] : List (State ι χ α κ μ × State ι χ α κ μ)) := by
  cases call <;> simp [Call.entry, Pc.Accounts]

/-- A thread in a call is at a position of that call, and the call has done what the position
says; steps of the other threads do not matter. -/
theorem CallRun.inv (hlength : 0 < length)
    (h : CallRun wiring caller length env start t call s steps) :
    ∃ k pc, s.thread t = .inside k pc ∧ (∀ x, pc.pending = some x → x = call) ∧
      pc.Accounts t call steps := by
  induction h with
  | @enter s s' k hs hk hcall hstep =>
      rcases threads_step_cases hstep with
        ⟨k', c, hk', hc, rfl⟩ | ⟨k', k'', env', hk', hc, -, rfl⟩ | ⟨k', pc, q', c, hk', -, rfl⟩
      · rw [hk] at hk'
        cases hk'
        rw [hcall] at hc
        cases hc
        refine ⟨k, call.entry, Function.update_self .., ?_, call.accounts_entry⟩
        intro x hx
        rw [Call.pending_entry] at hx
        exact (Option.some.inj hx).symm
      · rw [hk] at hk'
        cases hk'
        rw [hcall] at hc
        cases hc
      · rw [hk] at hk'
        cases hk'
  | @own s s' steps k pc hrun hstep hk' ih =>
      rcases ih with ⟨k₀, pc₀, hk₀, hpend, hacc⟩
      rcases threads_step_cases hstep with
        ⟨k₁, c, hk₁, -, rfl⟩ | ⟨k₁, k₂, env', hk₁, -, -, rfl⟩ | ⟨k₁, pc₁, q', c, hk₁, hq, hs'⟩
      · rw [hk₀] at hk₁
        cases hk₁
      · rw [hk₀] at hk₁
        cases hk₁
      · rw [hk₀] at hk₁
        cases hk₁
        have hstmt := queueStep_of_step hq
        have hnext := hacc.step hlength hrun.reachable hk₀ hstmt (by rw [hs']) hstep hpend
        have hthread : s'.thread t = Thread.resume caller t k₀ c := by
          rw [hs']
          exact Function.update_self ..
        cases c with
        | ret result =>
            rw [hthread] at hk'
            cases hk'
        | goto pc' =>
            exact ⟨k₀, pc', hthread, fun x hx => hpend x (hstmt.pending_mono hx), hnext⟩
  | @other s s' steps u hrun hu hstep ih =>
      rcases ih with ⟨k, pc, hk, hpend, hacc⟩
      exact ⟨k, pc, (threads_step_frame hstep (Ne.symm hu)).trans hk, hpend, hacc⟩

/-- What a call has done when it returns. -/
theorem Returns.accounts (hlength : 0 < length) {result : Result α}
    (h : Returns wiring caller length env start t call result steps) :
    result.Accounts t call steps := by
  rcases h with ⟨hrun, hk, hret, hstep⟩
  rcases hrun.inv hlength with ⟨k₀, pc₀, hk₀, hpend, hacc⟩
  rw [hk] at hk₀
  cases hk₀
  refine hacc.step hlength hrun.reachable hk (queueStep_of_step hret) ?_ hstep hpend
  rw [threads_step_inside hk hret, Option.some.injEq] at hstep
  rw [← hstep]

/-- A position with an access to a field is one that holds the mutex, or belongs to
{lit}`queue_delete`. -/
theorem Pc.holdsMutex_of_access {pc : Pc α} {field : QueueField}
    (h : field ∈ pc.reads ++ pc.writes) :
    pc.holdsMutex = true ∨ pc.pending = some .delete := by
  cases pc with
  | test op => exact Or.inl rfl
  | freeRingBuffer => exact Or.inr rfl
  | _ => first | exact Or.inl rfl | cases h

/-- The mutex is given back at positions that hold it. -/
theorem Pc.holdsMutex_of_releasesMutex {pc : Pc α} (h : pc.releasesMutex = true) :
    pc.holdsMutex = true := by
  cases pc with
  | wait op at_ => cases at_ <;> first | rfl | cases h
  | unlock result => rfl
  | _ => cases h

/-- A thread in a queue function other than {lit}`queue_delete` accesses a field as the owner of
the mutex, but for the pointer that is read by an assertion at the entry. -/
theorem mutex_of_access (hs : (threads wiring caller length env start).Reachable s)
    (ht : ¬ Deleting caller s t) {field : QueueField} (hfield : field ∈ accesses caller s t) :
    s.queue.mutex = some t ∨ field = .ringBuffer ∧ ∃ k, s.thread t = .outside k := by
  unfold accesses at hfield
  unfold Deleting at ht
  cases hk : s.thread t with
  | outside k =>
      rw [hk] at hfield
      refine Or.inr ⟨?_, k, rfl⟩
      cases hcall : caller.call t k with
      | none => simp [hcall] at hfield
      | some call =>
          cases call with
          | size => simp [hcall, Call.asserted] at hfield
          | _ => simpa [hcall, Call.asserted] using hfield
  | inside k pc =>
      rw [hk] at hfield ht
      rcases Pc.holdsMutex_of_access hfield with hpc | hpc
      · exact Or.inl (((locked_of_reachable hs).mutex t).mpr (by simpa [hk] using hpc))
      · exact absurd hpc ht

/-- A thread that returns does not own the mutex. -/
theorem mutex_of_return (hs : (threads wiring caller length env start).Reachable s) {k : κ}
    {pc : Pc α} (hk : s.thread t = .inside k pc) {q' : Queue ι χ α} {result : Result α}
    (hret : s.queue.step wiring t pc = some (q', .ret result)) : q'.mutex ≠ some t := by
  have hs' := hs.step (threads_step_inside hk hret)
  intro howner
  have hholds := ((locked_of_reachable hs').mutex t).mp howner
  simp [Thread.resume] at hholds

/-- The lock discipline of {lit}`queue_send`, {lit}`queue_receive` and {lit}`queue_size`, whatever
the threads are and however they interleave.  A queue holds one list in every reachable state.
The fields are accessed by the owner of the mutex, but for the pointer {lit}`ring_buffer`, which
an assertion reads at the entry; the mutex is given back by its owner only; a thread that returns
does not own it; a call that returns true has stored its item, or has stored through its pointer
the one that it has removed, in exactly one of its steps; and a call that returns false has
changed nothing. -/
theorem queue_call_discipline (wiring : Wiring ι χ) (caller : Caller ι κ μ α) (env : μ)
    (start : ι → κ) (hlength : 0 < length) :
    (∀ s, (threads wiring caller length env start).Reachable s →
      (∃! xs, Contents s xs) ∧
      (∀ t, ¬ Deleting caller s t → ∀ field ∈ accesses caller s t,
        s.queue.mutex = some t ∨ field = .ringBuffer ∧ ∃ k, s.thread t = .outside k) ∧
      (∀ t k pc, s.thread t = .inside k pc → pc.releasesMutex = true →
        s.queue.mutex = some t) ∧
      ∀ t k pc q' result, s.thread t = .inside k pc →
        s.queue.step wiring t pc = some (q', .ret result) → q'.mutex ≠ some t ∧
          ∃ call steps, Returns wiring caller length env start t call result steps) ∧
    ∀ t call result steps, Returns wiring caller length env start t call result steps →
      (result = .sent → ∃ item, call = .send item ∧ Once (StoresItem item) steps) ∧
      (∀ item, result = .received item → call = .receive ∧ Once (RemovesItem item) steps ∧
        ∀ x, steps.foldl (itemAfter t) x = some item) ∧
      (result = .terminated →
        ∀ p ∈ steps, KeepsFields p ∧ KeepsItems p ∧ ∀ x, itemAfter t x p = x) := by
  constructor
  · intro s hs
    have hl := locked_of_reachable hs
    refine ⟨?_, fun t ht field hfield => mutex_of_access hs ht hfield, ?_,
      fun t k pc q' result hk hret => ⟨mutex_of_return hs hk hret, exists_returns hs hk hret⟩⟩
    · rcases contents_of_reachable hlength hs with ⟨xs, hxs⟩
      exact ⟨xs, hxs, fun ys hys => hys.unique hl hxs⟩
    · intro t k pc hk hpc
      exact (hl.mutex t).mpr (by simpa [hk] using Pc.holdsMutex_of_releasesMutex hpc)
  · intro t call result steps h
    have hacc := h.accounts hlength
    refine ⟨?_, ?_, ?_⟩
    · rintro rfl
      exact hacc
    · rintro item rfl
      exact hacc
    · rintro rfl
      exact hacc

end Calls

/-! ## A receive that is told to stop -/

/-- Thread 0 deletes the queue, thread 1 loops on {lit}`queue_receive`. -/
def shutdownScript (t : Fin 2) : Nat → Option (Call Nat) :=
  if t = 0 then fun n => if n = 0 then some .delete else none else consumer

/-- The two threads over a queue of one slot. -/
def shutdown : System (State (Fin 2) (Fin 2) Nat Nat Unit) (Fin 2) :=
  threads ⟨id, true⟩ (scriptCaller shutdownScript) 1 () fun _ => 0

/-- The receiver finds the queue empty and sleeps; the byte that tells it to stop is sent and
taken. -/
def shutdownSchedule : List (Fin 2) :=
  [1, 1, 1, 1, 1, 1, 1, 0, 0, 0, 1]

/-- The receiver returns false and has changed nothing. -/
theorem queue_call_discipline_shutdown :
    ∃ call steps, Returns ⟨id, true⟩ (scriptCaller shutdownScript) 1 () (fun _ => 0) 1 call
      .terminated steps ∧
      ∀ p ∈ steps, KeepsFields p ∧ KeepsItems p ∧ ∀ x, itemAfter 1 x p = x := by
  have hdisc := queue_call_discipline (⟨id, true⟩ : Wiring (Fin 2) (Fin 2))
    (scriptCaller shutdownScript) () (fun _ => 0) Nat.one_pos
  have hs := shutdown.reachable_get_run shutdownSchedule (by decide)
  rcases ((hdisc.1 _ hs).2.2.2 1 0 (.wait .receive .leave) _ .terminated rfl rfl).2 with
    ⟨call, steps, hreturns⟩
  exact ⟨call, steps, hreturns, (hdisc.2 1 call .terminated steps hreturns).2.2 rfl⟩

/-- The assertion at the entry reads the pointer {lit}`ring_buffer` although nobody holds the
mutex. -/
theorem queue_assertion_unlocked :
    ¬ ∀ s, oneItem.Reachable s → ∀ t, ¬ Deleting (scriptCaller (pairScript [7])) s t →
      ∀ field ∈ accesses (scriptCaller (pairScript [7])) s t, s.queue.mutex = some t := by
  intro h
  have howner := h oneItem.init .init 0 (pairScript_noDelete [7] 0 0) .ringBuffer
    (by decide)
  cases howner

end Metal
end LibDispatch
