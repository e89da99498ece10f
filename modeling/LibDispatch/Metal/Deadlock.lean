import LibDispatch.Metal.GroupRun
import LibDispatch.Metal.GroupSizes
import LibDispatch.Metal.Shutdown

/-!
# No deadlock on bare metal

A client that follows the rules and does not delete the dispatch queue is never left waiting.
When no thread can take a step, the mutex is free, and every thread sleeps on a predicate that
holds or is outside the queue functions with nothing to do.  A thread that runs a task can
always go on, since the owner of a counter's spinlock can.  So all workers sleep in
{lit}`queue_receive`, the queue is empty, every task that was added is finished, and the end
token that the client would wait for has been sent.

Main results:

- Theorem {lit}`runTask_enabled`: in a stuck state nobody is in {lit}`run_task`.
- Theorem {lit}`ended_of_stuck`: a state in which no thread can take a step is the end of the
  program.
-/

namespace LibDispatch
namespace Metal

variable {N : Nat} {β υ : Type}

/-! ## The end of the program -/

/-- The client has made all its calls, the queue is empty, and every worker sleeps in
{lit}`queue_receive`. -/
structure Ended (d : DispatchConfig Unit N β υ)
    (s : State (Unit ⊕ Fin N) (Option (Fin N)) Nat (Local Unit) (Env Unit N β υ)) : Prop where
  client : s.thread (.inl ()) = .outside (.client (d.prog ()).length .ready)
  workers : ∀ i, s.thread (.inr i) = .inside (.worker .receive) (.wait .receive .chanIn)
  empty : queueEmpty s.queue = true

/-! ## Threads without an enabled step -/

section Steps

variable {C : Type} [DecidableEq C] {me : C ⊕ Fin N} {env : Env C N β υ} {t : Nat}
  {at_ : RunPc C}

/-- Only a task without private data or a spinlock that is taken stops {lit}`run_task`. -/
theorem runTask_eq_none (h : runTask me env t at_ = none) :
    (at_ = .readCounter ∧ (env.heap.task t).privateData = none) ∨
      ∃ c, at_ = .signalLock c ∧ (env.counter c).lock ≠ none := by
  cases at_ with
  | readCounter => exact Or.inl ⟨rfl, by simpa [runTask] using h⟩
  | signalLock c => exact Or.inr ⟨c, rfl, by simpa [runTask] using h⟩
  | signalUnlock c signal => cases signal <;> simp [runTask] at h
  | _ => cases h

end Steps

/-- A worker is in its loop. -/
def Local.Looping : Local Unit → Prop
  | .worker .freeCend | .worker .exited => False
  | _ => True

section Invariant

variable {d : DispatchConfig Unit N β υ}
  {a a' : AtomicState (Unit ⊕ Fin N) Nat (Local Unit) (Env Unit N β υ)} {u : Unit ⊕ Fin N}
  {t : Nat} {at_ : RunPc Unit}

/-- A statement of {lit}`run_task` leads no worker out of its loop. -/
theorem Local.looping_runNext {k : Local Unit} {r : Option (RunPc Unit)}
    (h : k.runAt = some (t, at_)) : (k.runNext r).Looping := by
  cases k with
  | client ip pc =>
      cases pc with
      | pitch t' site at' =>
          cases r with
          | some at'' => trivial
          | none => cases site <;> trivial
      | _ => cases h
  | worker pc =>
      cases pc with
      | run t' at' => cases r <;> trivial
      | _ => cases h

/-- No worker leaves its loop unless the queue is deleted. -/
theorem looping_of_reachable (ha : d.atomicThreads.Reachable a) (u : Unit ⊕ Fin N) :
    (a.thread u).Looping := by
  refine ha.invariant (P := fun a => ∀ u, (a.thread u).Looping) ?_ ?_ u
  · intro u
    cases u <;> trivial
  intro a v a' hr hloop hstep u
  by_cases hu : u = v
  · subst hu
    cases dispatchStep_of_step hstep with
    | run u t at_ env' r hrun _ =>
        simpa using Local.looping_runNext hrun
    | send c ip t site hk _ =>
        cases site <;> simp [AddSite.next, Local.Looping]
    | freeCend i hk =>
        have hbefore := hloop (.inr i)
        rw [hk] at hbefore
        cases hbefore
    | freeObject c ip object k hk hnext =>
        rcases hnext with rfl | ⟨object', rfl⟩ <;> simp [Local.Looping]
    | _ => simp [Local.Looping]
  · have hframe : a'.thread u = a.thread u := by
      rcases atomicThreads_step_cases hstep with
        ⟨c, fifo', r, -, -, rfl⟩ | ⟨k', env', -, -, rfl⟩
      · exact Function.update_of_ne hu _ _
      · exact Function.update_of_ne hu _ _
    rw [hframe]
    exact hloop u

/-- Whoever is about to read the counter of its task finds it. -/
theorem privateData_of_run (hd : d.Disciplined) (hflags : d.FlagsAgree)
    (ha : d.atomicThreads.Reachable a) (hrun : (a.thread u).runAt = some (t, at_))
    (hwaitable : (d.heap.task t).waitable = true) :
    (a.env.heap.task t).privateData ≠ none := by
  have htracked := tracked_of_reachable ha
  have hledger := ledger_of_reachable ha
  have hheld := Local.held_of_runAt hrun
  have hadded := (hledger.held htracked hd hheld).1
  rcases hledger.call_of_run htracked hd hheld with ⟨jp, call, hcall, ht, -⟩
  have hcreates := (DispatchConfig.createsCounter_iff hflags hcall ht).mpr hwaitable
  rw [(counters_of_reachable hd hflags ha).data jp call t hcall hcreates ht
    (d.added_subset_stored _ hadded)]
  simp

/-- The owner of a counter's spinlock can go on, so somebody who runs a task can. -/
theorem runTask_enabled (hd : d.Disciplined) (hflags : d.FlagsAgree)
    (ha : d.atomicThreads.Reachable a) (hrun : (a.thread u).runAt = some (t, at_)) :
    ∃ v t' at', (a.thread v).runAt = some (t', at') ∧ runTask v a.env t' at' ≠ none := by
  by_cases hnone : runTask u a.env t at_ = none
  · rcases runTask_eq_none hnone with ⟨rfl, hdata⟩ | ⟨c, rfl, hlock⟩
    · have hwaitable : (d.heap.task t).waitable = true :=
        (tracked_of_reachable ha).run u t _ hrun
      exact absurd hdata (privateData_of_run hd hflags ha hrun hwaitable)
    · rcases Option.ne_none_iff_exists'.mp hlock with ⟨v, hv⟩
      rcases ((counters_of_reachable hd hflags ha).lock c v).mp hv with
        ⟨t', at', hsig, hlocked⟩
      refine ⟨v, t', at', (Local.signalling_eq_some.mp hsig).1, fun hstuck => ?_⟩
      rcases runTask_eq_none hstuck with ⟨rfl, -⟩ | ⟨c', rfl, -⟩
      · cases hlocked
      · cases hlocked
  · exact ⟨u, t, at_, hrun, hnone⟩

end Invariant

/-! ## Stuck states -/

section Stuck

variable {d : DispatchConfig Unit N β υ} {handshake : Bool}
  {s : State (Unit ⊕ Fin N) (Option (Fin N)) Nat (Local Unit) (Env Unit N β υ)}
  {a : AtomicState (Unit ⊕ Fin N) Nat (Local Unit) (Env Unit N β υ)}
  {u : Unit ⊕ Fin N} {t : Nat} {at_ : RunPc Unit}

/-- What a thread of a stuck state is doing. -/
def Halted (d : DispatchConfig Unit N β υ)
    (s : State (Unit ⊕ Fin N) (Option (Fin N)) Nat (Local Unit) (Env Unit N β υ))
    (u : Unit ⊕ Fin N) : Prop :=
  (∃ k, s.thread u = .outside k ∧ d.caller.call u k = none ∧
      d.caller.step u k s.env = none) ∨
    ∃ k op, s.thread u = .inside k (.wait op .chanIn) ∧ op.blocked s.queue = true

/-- A thread that calls a queue function runs no task. -/
theorem DispatchConfig.runAt_of_call {k : Local Unit} {x : Call Nat}
    (h : d.caller.call u k = some x) : k.runAt = none := by
  rcases DispatchConfig.call_cases h with
    ⟨c, ip, rfl, rfl, -⟩ | ⟨c, ip, t, site, rfl, rfl, -⟩ | ⟨c, ip, busy, rfl, rfl, -⟩ |
    ⟨i, rfl, rfl, -⟩ <;> rfl

/-- A thread that runs a task executes the statements of {lit}`run_task`. -/
theorem Tracked.step_eq_none (h : Tracked d a) (hrun : (a.thread u).runAt = some (t, at_))
    {env : Env Unit N β υ} (hstep : d.caller.step u (a.thread u) env = none) :
    runTask u env t at_ = none := by
  cases u with
  | inl c =>
      cases hk : a.thread (.inl c) with
      | worker pc =>
          have hclient := h.client c
          rw [hk] at hclient
          cases hclient
      | client ip pc =>
          rw [hk] at hrun hstep
          cases pc with
          | pitch t' site at' =>
              cases hrun
              simpa [DispatchConfig.caller, DispatchConfig.clientStep] using hstep
          | _ => cases hrun
  | inr i =>
      rcases h.worker i with ⟨pc, hk⟩
      rw [hk] at hrun hstep
      cases pc with
      | run t' at' =>
          cases hrun
          simpa [DispatchConfig.caller, workerStep] using hstep
      | _ => cases hrun

/-- A thread that sleeps is in the call that its caller makes. -/
theorem call_of_asleep (hs : (d.threads handshake).Reachable s) {k : Local Unit}
    {op : QueueOp Nat} (hk : s.thread u = .inside k (.wait op .chanIn)) :
    ∃ x, (Pc.wait op .chanIn).pending = some x ∧ d.caller.call u k = some x := by
  cases op with
  | send item => exact ⟨_, rfl, calling_of_reachable hs u k _ _ hk rfl⟩
  | receive => exact ⟨_, rfl, calling_of_reachable hs u k _ _ hk rfl⟩

/-- A thread that sleeps shows the state in which it has made the call. -/
theorem view_of_asleep (href : Refines d.caller s a) {k : Local Unit} {op : QueueOp Nat}
    (hk : s.thread u = .inside k (.wait op .chanIn)) : a.thread u = k := by
  rw [href.thread u, hk]
  rfl

/-- In a stuck state nobody runs a task. -/
theorem not_running_of_halted (hd : d.Disciplined) (hflags : d.FlagsAgree)
    (hs : (d.threads handshake).Reachable s) (ha : d.atomicThreads.Reachable a)
    (href : Refines d.caller s a) (hstuck : ∀ u, Halted d s u) (u : Unit ⊕ Fin N) :
    (a.thread u).runAt = none := by
  cases hrun : (a.thread u).runAt with
  | none => rfl
  | some x =>
      rcases runTask_enabled hd hflags ha hrun with ⟨v, t, at_, hv, henabled⟩
      rcases hstuck v with ⟨k, hk, -, hstep⟩ | ⟨k, op, hk, -⟩
      · have hview : a.thread v = k := by rw [href.thread v, hk, Thread.view_outside]
        rw [← hview, ← href.env] at hstep
        exact absurd ((tracked_of_reachable ha).step_eq_none hv hstep) henabled
      · rcases call_of_asleep hs hk with ⟨x, -, hcall⟩
        rw [view_of_asleep href hk, DispatchConfig.runAt_of_call hcall] at hv
        cases hv

/-- In a stuck state every worker sleeps in {lit}`queue_receive`. -/
theorem asleep_of_halted (hd : d.Disciplined) (hflags : d.FlagsAgree)
    (hs : (d.threads handshake).Reachable s) (ha : d.atomicThreads.Reachable a)
    (href : Refines d.caller s a) (hstuck : ∀ u, Halted d s u) (i : Fin N) :
    s.thread (.inr i) = .inside (.worker .receive) (.wait .receive .chanIn) ∧
      queueEmpty s.queue = true := by
  rcases (tracked_of_reachable ha).worker i with ⟨pc, hpc⟩
  have hloop := looping_of_reachable ha (.inr i)
  have hidle := not_running_of_halted hd hflags hs ha href hstuck (.inr i)
  rw [hpc] at hloop hidle
  rcases hstuck (.inr i) with ⟨k, hk, hcall, hstep⟩ | ⟨k, op, hk, hblocked⟩
  · have hview : a.thread (.inr i) = k := by rw [href.thread, hk, Thread.view_outside]
    rw [hpc] at hview
    subst hview
    cases pc with
    | receive => cases hcall
    | run t at_ => cases hidle
    | freeCend => cases hloop
    | exited => cases hloop
    | _ => cases hstep
  · have hview := view_of_asleep href hk
    rw [hpc] at hview
    subst hview
    rcases call_of_asleep hs hk with ⟨x, hx, hcall⟩
    cases pc with
    | receive =>
        cases hcall
        cases op with
        | send item => cases hx
        | receive => exact ⟨hk, hblocked⟩
    | _ => cases hcall

/-- In a stuck state every task that was added is finished. -/
theorem finished_of_halted (hN : 0 < N) (hd : d.Disciplined) (hflags : d.FlagsAgree)
    (hs : (d.threads handshake).Reachable s) (ha : d.atomicThreads.Reachable a)
    (href : Refines d.caller s a) (hfree : s.queue.mutex = none)
    (hstuck : ∀ u, Halted d s u) :
    ∀ t ∈ d.added () (a.thread (.inl ())), t ∈ a.env.history.finished := by
  have hasleep := asleep_of_halted hd hflags hs ha href hstuck
  have hfifo : a.fifo = [] :=
    (href.contents.free hfree).empty_iff.mp (hasleep ⟨0, hN⟩).2
  intro t ht
  have hzero : tally (Local.holding t) a.thread = 0 := by
    rw [tally_eq_zero_iff]
    intro u
    refine Local.weight_of_not_held ?_
    cases u with
    | inl c =>
        have hidle := not_running_of_halted hd hflags hs ha href hstuck (.inl c)
        cases hk : a.thread (.inl c) with
        | client ip pc =>
            rw [hk] at hidle
            exact hidle
        | worker pc =>
            have hclient := (tracked_of_reachable ha).client c
            rw [hk] at hclient
            cases hclient
    | inr i =>
        rw [view_of_asleep href (hasleep i).1]
        rfl
  have hsum := (ledger_of_reachable ha).added t
  rw [hfifo, hzero] at hsum
  have hpos := List.count_pos_iff.mpr ht
  exact List.count_pos_iff.mp (by simp only [List.count_nil] at hsum; omega)

/-- The counter that a wait reads is there. -/
theorem startCall_ne_none (hd : d.Disciplined) (hflags : d.FlagsAgree)
    (ha : d.atomicThreads.Reachable a) {ip : Nat}
    (hk : a.thread (.inl ()) = .client ip .ready) {call : DispatchCall}
    (hcall : (d.prog ())[ip]? = some call) (hdelete : call ≠ .delete) :
    d.startCall () ip a.env call ≠ none := by
  have htracked := tracked_of_reachable ha
  have hdata : ∀ jp ts t, d.Awaits ip jp ts → t ∈ ts →
      (a.env.heap.task t).privateData = some ((), jp) := fun jp ts t hawaits ht =>
    (counters_of_reachable hd hflags ha).data_awaited hd hk hawaits ht
  cases call with
  | taskAdd t => simp [DispatchConfig.startCall]
  | groupAdd g => simp only [DispatchConfig.startCall]; split <;> simp
  | taskWait t =>
      rcases hd.taskWait ip t hcall with ⟨hwaitable, jp, -, hadd⟩
      have hcounter := hdata jp [t] t (Or.inl ⟨t, hcall, hadd, rfl⟩) List.mem_cons_self
      simp [DispatchConfig.startCall, htracked.waitable, hwaitable, hcounter]
  | groupWait g =>
      rcases hd.groupWait ip g hcall with ⟨hwaitable, hne, jp, -, hadd⟩
      rcases List.exists_cons_of_ne_nil hne with ⟨t, ts, htasks⟩
      have hcounter := hdata jp _ t (Or.inr ⟨g, hcall, hadd, rfl⟩)
        (by rw [htasks]; exact List.mem_cons_self)
      simp [DispatchConfig.startCall, htracked.group, hwaitable, htasks, hcounter]
  | wait => simp [DispatchConfig.startCall]
  | delete => exact absurd rfl hdelete

/-- In a stuck state all tasks of an awaited call are finished, so that its token was sent. -/
theorem token_of_halted (hN : 0 < N) (hd : d.Disciplined) (hflags : d.FlagsAgree)
    (hs : (d.threads handshake).Reachable s) (ha : d.atomicThreads.Reachable a)
    (href : Refines d.caller s a) (hfree : s.queue.mutex = none) (hstuck : ∀ u, Halted d s u)
    {ip : Nat} {c : Unit × Nat} {ts : List Nat}
    (hview : a.thread (.inl ()) = .client ip (.checkToken c ts)) :
    0 < (a.env.counter c).tokens := by
  have hposition := (waits_of_reachable hd hflags ha).position
  rw [hview] at hposition
  rcases hposition with ⟨jp, rfl, hawaits⟩
  have hfinished : ∀ t ∈ ts, t ∈ a.env.history.finished := by
    intro t ht
    refine finished_of_halted hN hd hflags hs ha href hfree hstuck t ?_
    rw [hview]
    rcases hd.awaits_call hawaits with ⟨call, hadd, rfl, -, -⟩
    exact List.mem_append_left _ (DispatchConfig.mem_submitted.mpr
      ⟨jp, hd.awaits_lt hawaits, call, hadd, ht⟩)
  exact (tokens_of_reachable hd hflags ha).token
    (counters_of_reachable hd hflags ha) (ledger_of_reachable ha) (tracked_of_reachable ha) hd
    hflags hawaits (by rw [hview, Local.stage_self]; rfl) hfinished

/-- In a stuck state the client has made all its calls. -/
theorem client_of_halted (hN : 0 < N) (hd : d.Disciplined) (hflags : d.FlagsAgree)
    (hdelete : .delete ∉ d.prog ()) (hs : (d.threads handshake).Reachable s)
    (ha : d.atomicThreads.Reachable a) (href : Refines d.caller s a)
    (hfree : s.queue.mutex = none) (hstuck : ∀ u, Halted d s u) :
    s.thread (.inl ()) = .outside (.client (d.prog ()).length .ready) := by
  have hempty := (asleep_of_halted hd hflags hs ha href hstuck ⟨0, hN⟩).2
  rcases hstuck (.inl ()) with ⟨k, hk, hcall, hstep⟩ | ⟨k, op, hk, hblocked⟩
  · have hview : a.thread (.inl ()) = k := by rw [href.thread, hk, Thread.view_outside]
    have hidle := not_running_of_halted hd hflags hs ha href hstuck (.inl ())
    have htracked := tracked_of_reachable ha
    have hclient := htracked.client ()
    rw [hview] at hidle hclient
    rw [← href.env] at hstep
    cases k with
    | worker pc => cases hclient
    | client ip pc =>
        cases pc with
        | ready =>
            cases hnext : (d.prog ())[ip]? with
            | none =>
                have hle := ip_le_of_reachable ha
                rw [hview] at hle
                have hge := List.getElem?_eq_none_iff.mp hnext
                rw [hk, show ip = (d.prog ()).length from Nat.le_antisymm hle hge]
            | some call =>
                have hne : call ≠ .delete := by
                  rintro rfl
                  exact hdelete (List.mem_of_getElem? hnext)
                refine absurd ?_ (startCall_ne_none hd hflags ha hview hnext hne)
                simpa [DispatchConfig.caller, DispatchConfig.clientStep, hnext] using hstep
        | groupLoop g i counter =>
            simp only [DispatchConfig.caller, DispatchConfig.clientStep] at hstep
            split at hstep <;> cases hstep
        | addScan t site i busy =>
            simp only [DispatchConfig.caller, DispatchConfig.clientStep] at hstep
            split at hstep
            · cases hstep
            · split at hstep <;> cases hstep
        | pitch t site at_ => cases hidle
        | send t site => cases hcall
        | checkToken c ts =>
            have htoken := token_of_halted hN hd hflags hs ha href hfree hstuck hview
            simp [DispatchConfig.caller, DispatchConfig.clientStep, htoken] at hstep
        | deleteCounter c ts => cases hstep
        | deleteTasks ts => cases ts <;> cases hstep
        | waitScan i busy =>
            simp only [DispatchConfig.caller, DispatchConfig.clientStep] at hstep
            split at hstep <;> cases hstep
        | waitSize busy => cases hcall
        | freeObject object => cases hstep
  · -- the queue is empty, so no client sleeps in `queue_send`
    rcases call_of_asleep hs hk with ⟨x, hx, hcall⟩
    cases op with
    | send item =>
        have hfull : s.queue.full = true := hblocked
        simp [queueEmpty, hfull] at hempty
    | receive =>
        cases hx
        rcases DispatchConfig.call_cases hcall with
          ⟨c, ip, heq, -, hx⟩ | ⟨c, ip, t, site, heq, -, hx⟩ | ⟨c, ip, busy, heq, -, hx⟩ |
          ⟨i, heq, -, -⟩
        · cases hx
        · cases hx
        · cases hx
        · cases heq

/-- A state in which no thread can take a step is the end of the program, and everything
that was added has returned once. -/
theorem ended_of_stuck (hN : 0 < N) (hd : d.Disciplined) (hflags : d.FlagsAgree)
    (hdelete : .delete ∉ d.prog ()) (hs : (d.threads handshake).Reachable s)
    (hstuck : ∀ u, ¬ (d.threads handshake).Enabled s u) :
    Ended d s ∧ s.env.history.returned.Perm (d.submitted () (d.prog ()).length) := by
  rcases d.atomic_of_reachable (fun _ => hdelete) hs with ⟨a, ha, href⟩
  rcases stuck_threads (dispatchWiring_injective N handshake)
    (DispatchConfig.noDelete fun _ => hdelete) d.length_pos hs hstuck with ⟨hfree, hhalted⟩
  have hclient := client_of_halted hN hd hflags hdelete hs ha href hfree hhalted
  have hasleep := asleep_of_halted hd hflags hs ha href hhalted
  refine ⟨⟨hclient, fun i => (hasleep i).1, (hasleep ⟨0, hN⟩).2⟩, ?_⟩
  have hview : a.thread (.inl ()) = .client (d.prog ()).length .ready := by
    rw [href.thread, hclient, Thread.view_outside]
  have hledger := ledger_of_reachable ha
  have hperm := hledger.returned_perm (tracked_of_reachable ha) hd fun t ht =>
    hledger.returned_of_finished
      (finished_of_halted hN hd hflags hs ha href hfree hhalted t ht)
  rw [hview, href.env] at hperm
  simpa [DispatchConfig.added, ClientPc.added] using hperm

end Stuck

end Metal
end LibDispatch
