import LibDispatch.Host.Client
import LibDispatch.Host.Counts

/-!
# The event counters of the host dispatch queue

{lit}`EventCounter::Signal` decrements the count under the mutex, gives the mutex back, and
only then tests the count and notifies.  A waiter tests the same count under the mutex, so
that its wait ends with the last decrement, and it deletes the counter at once.  The worker
that made the last decrement, and every other worker that has not tested the count yet, is
then left with a counter that is gone.

The count is the number of tasks of the call that were not signalled, so that no worker is
still before its decrement when the wait ends.  The counter is used after its deletion
exactly when a worker is after its decrement at that moment.

Main results:

- Theorem {lit}`drains_of_reachable`: a counter is deleted when the tasks of its call are
  signalled.
- Theorem {lit}`event_counter_lifetime`: in every run, no worker uses a counter that was deleted
  exactly when no counter is deleted while a worker is after its decrement.
- Theorem {lit}`event_counter_used_after_delete`: a run in which a worker tests the count of a
  deleted counter.
-/

namespace LibDispatch
namespace Host

variable {N : Nat} {β υ : Type}

/-! ## Who uses a counter -/

/-- The counter that a worker in {lit}`EventCounter::Signal` is about to use. -/
def WorkerPc.counter? {C : Type} : WorkerPc C → Option (C × Nat)
  | .signal _ counter | .signalTest _ counter | .signalNotify _ counter => some counter
  | _ => none

/-- The worker has decremented the count and has not left {lit}`EventCounter::Signal`. -/
def WorkerPc.afterDecrement? {C : Type} : WorkerPc C → Option (C × Nat)
  | .signalTest _ counter | .signalNotify _ counter => some counter
  | _ => none

/-- No worker is about to use a counter that was deleted. -/
def State.CountersAlive (s : State Unit N β υ) : Prop :=
  ∀ i counter, (s.worker i).counter? = some counter → counter ∉ s.history.counterFreed

/-- The client deletes a counter only when no worker is after its decrement of it. -/
def counterOk (s : State Unit N β υ) : Label Unit N → Bool
  | .client c =>
      match (s.client c).pc with
      | .deleteCounter counter _ =>
          decide (∀ i, (s.worker i).afterDecrement? ≠ some counter)
      | _ => true
  | _ => true

namespace WorkerPc.WokenTo

variable {C : Type} {pc pc' : WorkerPc C}

theorem counter?_eq (h : pc.WokenTo pc') : pc'.counter? = pc.counter? := by
  rcases h with rfl | ⟨rfl, rfl⟩ <;> rfl

end WorkerPc.WokenTo

/-- A worker at a counter is before its decrement or after it. -/
theorem WorkerPc.counter?_cases {C : Type} {pc : WorkerPc C} {counter : C × Nat}
    (h : pc.counter? = some counter) :
    (∃ t, pc = .signal t counter) ∨ pc.afterDecrement? = some counter := by
  cases pc with
  | signal t counter' =>
      cases h
      exact Or.inl ⟨t, rfl⟩
  | signalTest t counter' => exact Or.inr h
  | signalNotify t counter' => exact Or.inr h
  | _ => cases h

theorem WorkerPc.counter?_of_afterDecrement {C : Type} {pc : WorkerPc C} {counter : C × Nat}
    (h : pc.afterDecrement? = some counter) : pc.counter? = some counter := by
  cases pc <;> first | exact h | cases h

/-- A worker at a counter does not block: it uses the counter in its next step. -/
theorem workerStep_isSome_of_counter {s : State Unit N β υ} {i : Fin N}
    {counter : Unit × Nat} (h : (s.worker i).counter? = some counter) :
    (workerStep s i).isSome = true := by
  cases hk : s.worker i with
  | signal t counter' => simp [workerStep, hk]
  | signalTest t counter' => simp [workerStep, hk]
  | signalNotify t counter' => simp [workerStep, hk]
  | _ =>
      rw [hk] at h
      cases h

/-- Only a client that has waited is about to delete a counter. -/
theorem ClientPc.WokenTo.deleteCounter_eq {pc pc' : ClientPc Unit} (h : pc.WokenTo pc')
    {counter : Unit × Nat} {ts : List Nat} (hpc : pc' = .deleteCounter counter ts) :
    pc = .deleteCounter counter ts := by
  subst hpc
  rcases h with h | ⟨i, -, h⟩ | ⟨counter, ts, -, h⟩
  · exact h.symm
  · cases h
  · cases h

/-! ## The invariant -/

/-- A single client follows the rules of several. -/
theorem DispatchConfig.disciplined_of_program {d : DispatchConfig Unit N β υ}
    (hd : d.program.Disciplined) (hflags : d.program.FlagsAgree) : d.Disciplined :=
  ⟨fun _ => hd, fun _ => hflags, fun _ _ _ _ _ => rfl⟩

/-- A counter is deleted, and about to be, when all tasks of its call are signalled. -/
structure Drains (d : DispatchConfig Unit N β υ) (s : State Unit N β υ) : Prop where
  deleting : ∀ counter ts, (s.client ()).pc = .deleteCounter counter ts → s.Drained d counter
  freed : ∀ counter ∈ s.history.counterFreed, s.Drained d counter

section Drains

variable {d : DispatchConfig Unit N β υ} {s s' : State Unit N β υ} {c : Unit} {i : Fin N}

/-- The client deletes a counter only after its wait. -/
theorem ClientStep.deleteCounter_of (h : ClientStep d s c s') {counter : Unit × Nat}
    {ts : List Nat} (hk : (s'.client ()).pc = .deleteCounter counter ts) :
    (s.client ()).pc = .counterWait counter ts ∧ s.counter counter = 0 := by
  cases c
  cases h with
  | counterZero counter' ts' hk' hzero =>
      simp only [State.client_goto, Function.update_self, ClientPc.deleteCounter.injEq] at hk
      rcases hk with ⟨rfl, rfl⟩
      exact ⟨hk', hzero⟩
  | notifyLost site _ _ => cases site <;> simp [State.added, State.ret] at hk
  | _ => simp [State.goto, State.ret] at hk

/-- The counters that the client deletes. -/
theorem ClientStep.counterFreed_cases (h : ClientStep d s c s') :
    s'.history.counterFreed = s.history.counterFreed ∨
    ∃ counter ts, (s.client ()).pc = .deleteCounter counter ts ∧
      s'.history.counterFreed = s.history.counterFreed ++ [counter] := by
  cases h with
  | deleteCounter counter ts hk => exact Or.inr ⟨counter, ts, hk, rfl⟩
  | notifyLost site _ _ => cases site <;> exact Or.inl rfl
  | _ => exact Or.inl rfl

/-- A step of the client deletes a counter when the tasks of its call are signalled. -/
theorem Drains.client_step (h : Drains d s) (hd : d.Disciplined) (hs : d.system.Reachable s)
    (hstep : ClientStep d s c s') : Drains d s' := by
  have hsig := hstep.signalledTasks_eq
  constructor
  · intro counter ts hk call hcall
    rw [hsig]
    rcases hstep.deleteCounter_of hk with ⟨hk', hzero⟩
    exact drained_of_zero (c := ()) hd hs (by rw [hk']; rfl) hzero call hcall
  · intro counter hmem call hcall
    rw [hsig]
    rcases hstep.counterFreed_cases with heq | ⟨counter', ts, hk, heq⟩
    · rw [heq] at hmem
      exact h.freed counter hmem call hcall
    · rw [heq] at hmem
      rcases List.mem_append.mp hmem with hmem | hmem
      · exact h.freed counter hmem call hcall
      · rw [List.mem_singleton.mp hmem] at hcall
        exact h.deleting counter' ts hk call hcall

/-- Steps that delete no counter. -/
theorem Drains.frame (h : Drains d s) (hsig : s.signalledTasks ⊆ s'.signalledTasks)
    (hfreed : s'.history.counterFreed = s.history.counterFreed)
    (hdelete : ∀ counter ts, (s'.client ()).pc = .deleteCounter counter ts →
      (s.client ()).pc = .deleteCounter counter ts) : Drains d s' := by
  constructor
  · intro counter ts hk call hcall
    exact List.Subset.trans (h.deleting counter ts (hdelete counter ts hk) call hcall) hsig
  · intro counter hmem call hcall
    exact List.Subset.trans (h.freed counter (hfreed ▸ hmem) call hcall) hsig

/-- A step of a worker deletes no counter. -/
theorem Drains.worker_step (h : Drains d s) (hstep : WorkerStep s i s') : Drains d s' := by
  have hdelete : ∀ counter ts, (s'.client ()).pc = .deleteCounter counter ts →
      (s.client ()).pc = .deleteCounter counter ts :=
    fun _ _ => (hstep.client_wokenTo ()).2.deleteCounter_eq
  refine h.frame hstep.signalledTasks_subset ?_ hdelete
  cases hstep <;> rfl

/-- Counters are deleted when the tasks of their calls are signalled, in every reachable
state. -/
theorem drains_of_reachable (hd : d.Disciplined) (hs : d.system.Reachable s) : Drains d s := by
  have hinit : Drains d d.system.init := by
    constructor
    · intro counter ts hk
      cases hk
    · intro counter hmem
      cases hmem
  refine hs.invariant hinit fun s l s' hs h hstep =>
    step_rule (P := fun s => Drains d s) hs h hstep
      (fun _ _ _ hs h hstep => h.client_step hd hs hstep)
      (fun _ _ _ _ h hstep => h.worker_step hstep) ?_ ?_ ?_
  · exact fun s i _ h _ => h.frame (List.Subset.refl _) rfl fun _ _ hk => hk
  · intro s c site h _
    cases site <;> exact h.frame (List.Subset.refl _) rfl fun _ _ hk => by cases hk
  · exact fun s c pc h _ hpc => h.frame (List.Subset.refl _) rfl fun _ _ hk =>
      hpc.deleteCounter_eq hk

/-! ## Deletion and use -/

/-- Steps that delete no counter and bring no worker to one. -/
theorem State.CountersAlive.frame (h : s.CountersAlive)
    (hfreed : s'.history.counterFreed = s.history.counterFreed)
    (hworker : ∀ i, (s'.worker i).counter? = (s.worker i).counter?) : s'.CountersAlive := by
  intro i counter hi
  rw [hfreed]
  exact h i counter (hworker i ▸ hi)

/-- A worker goes on, to a counter that was not deleted if to any. -/
theorem State.CountersAlive.worker_goto (h : s.CountersAlive) {pc : WorkerPc Unit}
    (hfreed : s'.history.counterFreed = s.history.counterFreed)
    (hworker : s'.worker = Function.update s.worker i pc)
    (hpc : ∀ counter, pc.counter? = some counter → counter ∉ s.history.counterFreed) :
    s'.CountersAlive := by
  intro j counter hj
  rw [hfreed]
  rw [hworker] at hj
  by_cases hji : j = i
  · subst hji
    rw [Function.update_self] at hj
    exact hpc counter hj
  · rw [Function.update_of_ne hji] at hj
    exact h j counter hj

/-- No worker is before its decrement when the client is about to delete the counter. -/
theorem Drains.no_signal (h : Drains d s) (hd : d.Disciplined) (hs : d.system.Reachable s)
    {counter : Unit × Nat} {ts : List Nat} {t : Nat}
    (hk : (s.client ()).pc = .deleteCounter counter ts) : s.worker i ≠ .signal t counter := by
  intro hi
  rcases countedBy_of_signal hd hs hi with ⟨call, hcall, -, ht⟩
  exact unsignalled_of_signal hd hs hi (h.deleting counter ts hk call hcall ht)

/-- The deletion leaves a worker behind exactly if one is after its decrement. -/
theorem Drains.delete_iff (h : Drains d s) (hd : d.Disciplined) (hs : d.system.Reachable s)
    (halive : s.CountersAlive) {counter : Unit × Nat}
    {ts : List Nat} (hk : (s.client ()).pc = .deleteCounter counter ts)
    (hworker : s'.worker = s.worker)
    (hfreed : s'.history.counterFreed = s.history.counterFreed ++ [counter]) :
    s'.CountersAlive ↔ ∀ i, (s.worker i).afterDecrement? ≠ some counter := by
  constructor
  · intro halive' i hi
    refine halive' i counter ?_ ?_
    · rw [hworker]
      exact WorkerPc.counter?_of_afterDecrement hi
    · rw [hfreed]
      exact List.mem_append_right _ (List.mem_singleton_self _)
  · intro hquiet i counter' hi hmem
    rw [hworker] at hi
    rw [hfreed] at hmem
    rcases List.mem_append.mp hmem with hmem | hmem
    · exact halive i counter' hi hmem
    · rw [List.mem_singleton.mp hmem] at hi
      rcases WorkerPc.counter?_cases hi with ⟨t, hsignal⟩ | hafter
      · exact h.no_signal hd hs hk hsignal
      · exact hquiet i hafter

/-- A step of a worker uses no counter that was deleted. -/
theorem WorkerStep.countersAlive (h : WorkerStep s i s') (halive : s.CountersAlive)
    (hd : d.Disciplined) (hs : d.system.Reachable s) : s'.CountersAlive := by
  cases h with
  | readCounter t counter hk hdata =>
      refine halive.worker_goto rfl rfl fun counter' hcounter hmem => ?_
      cases hcounter
      rcases countedBy_of_read hd hs hk hdata with ⟨call, hcall, -, ht⟩
      refine (tickets_of_reachable hs).task_unsignalled (accounted_of_reachable hs)
        (popped_nodup hd hs) (i := i) (t := t) (by rw [hk]; rfl) ?_
      exact (drains_of_reachable hd hs).freed counter hmem call hcall ht
  | signal t counter hk =>
      exact halive.worker_goto rfl rfl fun counter' hcounter =>
        halive i counter' (by rw [hk]; exact hcounter)
  | signalZero t counter hk _ =>
      exact halive.worker_goto rfl rfl fun counter' hcounter =>
        halive i counter' (by rw [hk]; exact hcounter)
  | _ => exact halive.worker_goto rfl rfl fun counter' hcounter => by cases hcounter

/-- A step brings a worker to a deleted counter exactly if it deletes the counter while a
worker is after its decrement. -/
theorem countersAlive_step {l : Label Unit N} (hd : d.Disciplined)
    (hs : d.system.Reachable s) (halive : s.CountersAlive)
    (hstep : d.system.step s l = some s') : s'.CountersAlive ↔ counterOk s l = true := by
  have hdrains := drains_of_reachable hd hs
  rcases step_cases hstep with ⟨c, rfl, hclient⟩ | ⟨i, rfl, hworker⟩ |
    ⟨c, i, site, rfl, -, hw, rfl⟩ | ⟨i, rfl, hw, rfl⟩ | ⟨c, counter, ts, rfl, -, rfl⟩ |
    ⟨c, i, rfl, -, rfl⟩
  · have hworker : ∀ i, (s'.worker i).counter? = (s.worker i).counter? :=
      fun i => (hclient.worker_wokenTo i).counter?_eq
    cases hclient with
    | deleteCounter counter ts hk =>
        refine Iff.trans (hdrains.delete_iff hd hs halive hk rfl rfl) ?_
        simp only [counterOk, hk, decide_eq_true_iff]
    | notifyLost site hk _ =>
        refine iff_of_true ?_ (by simp only [counterOk, hk])
        cases site <;> exact halive.frame rfl hworker
    | _ =>
        exact iff_of_true (halive.frame rfl hworker)
          (by simp only [counterOk, (by assumption : (s.client c).pc = _)])
  · exact iff_of_true (hworker.countersAlive halive hd hs) rfl
  · refine iff_of_true ?_ rfl
    cases site <;>
      exact halive.frame rfl fun j => (State.wokenTo_wakeWorker hw j).counter?_eq
  · exact iff_of_true
      (halive.frame rfl fun j => (State.wokenTo_wakeWorker hw j).counter?_eq) rfl
  · exact iff_of_true (halive.frame rfl fun _ => rfl) rfl
  · exact iff_of_true (halive.frame rfl fun _ => rfl) rfl

/-- In every run of a disciplined client, no worker ever uses a counter that was deleted,
exactly when no counter is deleted while a worker is after its decrement. -/
theorem event_counter_lifetime (d : DispatchConfig Unit N β υ) {ts gs as : List Nat}
    (hbuilt : Built d.heap ts gs as) (hgroups : ∀ g, .groupAdd g ∈ d.prog () → g ∈ gs)
    (hd : d.program.Disciplined) {labels : List (Label Unit N)} {s : State Unit N β υ}
    (hrun : d.system.run d.system.init labels = some s) :
    d.system.Along State.CountersAlive labels ↔
      (d.system.guarded fun s l => counterOk s l = true).run d.system.init labels =
        some s := by
  have hflags : d.program.FlagsAgree := Program.flagsAgree_of_built hbuilt hgroups
  refine System.along_iff_guarded (fun i counter hi => by cases hi)
    (fun s l s' hs halive hstep => ?_) hrun
  exact countersAlive_step (d.disciplined_of_program hd hflags) hs.of_guarded halive hstep

end Drains

/-! ## A group of one function -/

/-- A client adds the group to a queue with one worker and waits for it. -/
def oneFunction : DispatchConfig Unit 1 Unit Nat where
  prog := fun _ => groupCalls
  heap := oneFunctionHeap (Unit × Nat)
  user := 0

/-- The worker leaves {lit}`Signal` before the client tests the count. -/
def oneFunctionQuiet : List (Label Unit 1) :=
  List.flatten [List.replicate 9 (.client ()), List.replicate 16 (.worker 0),
    List.replicate 3 (.client ())]

/-- The client tests the count and deletes the counter right after the decrement. -/
def oneFunctionHasty : List (Label Unit 1) :=
  List.flatten [List.replicate 9 (.client ()), List.replicate 14 (.worker 0),
    List.replicate 2 (.client ())]

theorem oneFunctionQuiet_run :
    ((oneFunction.system.guarded fun s l => counterOk s l = true).run oneFunction.system.init
      oneFunctionQuiet).isSome = true := by
  decide +kernel

theorem oneFunctionHasty_run :
    (oneFunction.system.run oneFunction.system.init oneFunctionHasty).isSome = true := by
  decide +kernel

/-- The run in which the worker leaves {lit}`Signal` first uses no deleted counter. -/
theorem event_counter_lifetime_oneFunction :
    oneFunction.system.Along State.CountersAlive oneFunctionQuiet :=
  (event_counter_lifetime oneFunction (oneFunctionHeap_built _) groupCalls_groups
    (oneFunction_disciplined _) (System.run_of_guarded
      (Option.some_get oneFunctionQuiet_run).symm)).mpr (Option.some_get oneFunctionQuiet_run).symm

/-- The counter of the group is deleted, and the worker goes on to test its count. -/
theorem event_counter_used_after_delete :
    Built oneFunction.heap [0] [0] [0] ∧ oneFunction.program.Disciplined ∧
      ¬ ∀ s, oneFunction.system.Reachable s → ∀ i counter,
        counter ∈ s.history.counterFreed → (s.worker i).counter? = some counter →
          workerStep s i = none := by
  refine ⟨oneFunctionHeap_built _, oneFunction_disciplined _, fun hclaim => ?_⟩
  let s := (oneFunction.system.run oneFunction.system.init oneFunctionHasty).get
    oneFunctionHasty_run
  have huse : (s.worker 0).counter? = some ((), 0) := by decide +kernel
  have hsome := workerStep_isSome_of_counter huse
  rw [hclaim s (oneFunction.system.reachable_get_run _ oneFunctionHasty_run) 0 ((), 0)
    (by decide +kernel) huse] at hsome
  cases hsome

end Host
end LibDispatch
