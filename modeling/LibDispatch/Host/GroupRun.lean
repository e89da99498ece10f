import LibDispatch.Host.EventCounter
import LibDispatch.Host.Pool

/-!
# Waiting for a group on the host

A wait for a waitable task or group ends with the last decrement of its count.  A worker
decrements after the function of its task has returned, and does not touch the task again, so
that the wait is safe for the tasks, whatever becomes of the counter.  Running a group through
the queue then agrees with running it directly.

Main results:

- Theorem {lit}`host_wait_done`: what a wait that has returned has waited for.
- Theorem {lit}`host_group_run_agrees`: running a group through the queue agrees with
  {lit}`dispatch_group_perform`.
-/

namespace LibDispatch
namespace Host

variable {N : Nat} {β υ : Type}

section Waits

variable {d : DispatchConfig Unit N β υ} {s s' : State Unit N β υ} {w jp t : Nat} {ts : List Nat}

/-- A task that was signalled has returned. -/
theorem returned_of_signalled (hs : d.system.Reachable s) (ht : t ∈ s.signalledTasks) :
    t ∈ s.history.tasksOf s.history.returned := by
  rcases History.mem_tasksOf.mp ht with ⟨k, hk, hkt⟩
  rcases (accounted_of_reachable hs).finished k t hkt with ⟨i, hi, rfl⟩ | hfinished
  · exact absurd hk ((tickets_of_reachable hs).unsignalled i t hi)
  · exact History.mem_tasksOf.mpr ⟨k, hfinished.1, hkt⟩

/-- What a wait that has returned has waited for is signalled. -/
theorem signalled_of_awaits (hd : d.program.Disciplined) (hflags : d.program.FlagsAgree)
    (hs : d.system.Reachable s) (hawaits : d.program.Awaits w jp ts)
    (hw : w < (s.client ()).ip) : ∀ t ∈ ts, t ∈ s.signalledTasks := by
  have hcounter := (clientInv_of_reachable hd hs).returned_counter hawaits hw
  have hfreed : jp ∈ s.history.counterFreed.map Prod.snd := by
    rw [← List.count_pos_iff,
      show (s.history.counterFreed.map Prod.snd).count jp = 1 from hcounter]
    exact Nat.one_pos
  rcases List.mem_map.mp hfreed with ⟨counter, hmem, rfl⟩
  rcases hd.awaits_call hawaits with ⟨call, hcall, rfl, -⟩
  exact (drains_of_reachable (d.disciplined_of_program hd hflags) hs).freed counter hmem call hcall

/-- The history of returns only grows at its end. -/
theorem returned_prefix_of_steps (hs : d.system.Reachable s) (h : d.system.Steps s s') :
    s.history.tasksOf s.history.returned <+: s'.history.tasksOf s'.history.returned := by
  refine System.Steps.invariant (P := fun r => s.history.tasksOf s.history.returned <+:
    r.history.tasksOf r.history.returned) hs (List.prefix_refl _) ?_ h
  intro r l r' hr hpre hstep
  rcases hr.traced poolEvents with ⟨tr, htraced⟩
  have hbefore := (poolHistory_of_traced htraced).2.2.1
  have hafter := (poolHistory_of_traced (htraced.step hstep)).2.2.1
  rw [← hafter, finishedTasks_append, hbefore]
  exact hpre.trans (List.prefix_append _ _)

/-- The groups and the functions stay as they were built. -/
theorem groupPerform_eq (hs : d.system.Reachable s) (g : Nat) (u : υ) :
    dispatchGroupPerform s.heap g u =
      (d.heap.group g).tasks.foldl (fun u t => d.perform t u) u := by
  unfold dispatchGroupPerform
  simp only [(static_of_reachable hs).group, unchanged_of_reachable hs _]
  rfl

/-- What a client between two calls has pushed. -/
theorem pushed_of_ready (hd : d.program.Disciplined) (hs : d.system.Reachable s)
    (hready : (s.client ()).pc = .ready) :
    s.history.pushed = d.program.submitted (s.client ()).ip := by
  have h := (clientInv_of_reachable hd hs).pushed
  simpa only [ClientState.added, State.clientState, hready, ClientPc.phase] using h

end Waits

/-- Waiting for a waitable task or group on the host means that its work is done, in every
interleaving of a client that follows the rules with any number of workers: when the
{lit}`w`-th call, which waits for what the {lit}`jp`-th has submitted, has returned, each of these
tasks was popped once and has returned once, no worker has it in its hands, and the counter
was deleted once; and a task that was waited for alone was deleted once. -/
theorem host_wait_done (d : DispatchConfig Unit N β υ) {ts gs as : List Nat}
    (hbuilt : Built d.heap ts gs as) (hgroups : ∀ g, .groupAdd g ∈ d.prog () → g ∈ gs)
    (hd : d.program.Disciplined) {s : State Unit N β υ} (hs : d.system.Reachable s) {w jp : Nat}
    {awaited : List Nat} (hawaits : d.program.Awaits w jp awaited)
    (hw : w < (s.client ()).ip) :
    (∀ t ∈ awaited, s.history.popped.count t = 1 ∧
      (s.history.tasksOf s.history.returned).count t = 1 ∧
      (∀ i, (s.worker i).task? ≠ some t) ∧
      ((d.prog ())[w]? = some (.taskWait t) → s.history.waitFreed.count t = 1)) ∧
    (s.history.counterFreed.map Prod.snd).count jp = 1 := by
  have hflags : d.program.FlagsAgree := Program.flagsAgree_of_built hbuilt hgroups
  have hinv := clientInv_of_reachable hd hs
  refine ⟨fun t ht => ?_, hinv.returned_counter hawaits hw⟩
  have hsignalled := signalled_of_awaits hd hflags hs hawaits hw t ht
  have hreturned := returned_of_signalled hs hsignalled
  have hnodup := popped_nodup (d.disciplined_of_program hd hflags) hs
  rcases hs.traced poolEvents with ⟨tr, htraced⟩
  rcases poolHistory_of_traced htraced with ⟨-, htaken, hfinished, -⟩
  have hcount := workPool_count (pool_of_traced htraced) t
  rw [htaken, hfinished] at hcount
  have hle := List.nodup_iff_count_le_one.mp hnodup t
  have hpos := List.count_pos_iff.mpr hreturned
  refine ⟨by omega, by omega, fun i hi => ?_, fun hcall => ?_⟩
  · exact (tickets_of_reachable hs).task_unsignalled (accounted_of_reachable hs) hnodup hi
      hsignalled
  · exact hinv.returned_task hcall (List.mem_singleton_self t) hw

/-- Running a group through the queue agrees with running it directly.  A client that follows
the rules adds a waitable group when every task it has pushed before has returned, and then
waits for it.  For every schedule, lost notifications and spurious wake-ups included, the user
state at the return of the wait is the one that {lit}`dispatch_group_perform` makes of the user
state at the call: with one worker for all functions, and with any number of workers if the
functions commute. -/
theorem host_group_run_agrees (d : DispatchConfig Unit N β υ) {ts gs as : List Nat}
    (hbuilt : Built d.heap ts gs as) (hgroups : ∀ g, .groupAdd g ∈ d.prog () → g ∈ gs)
    (hd : d.program.Disciplined) {s s' : State Unit N β υ} (hs : d.system.Reachable s)
    (hsteps : d.system.Steps s s') {ip g : Nat} (hcall : s.client () = ⟨ip, .ready⟩)
    (hadd : (d.prog ())[ip]? = some (.groupAdd g))
    (hwait : (d.prog ())[ip + 1]? = some (.groupWait g))
    (hidle : ∀ t ∈ s.history.pushed, t ∈ s.history.tasksOf s.history.returned)
    (hreturn : s'.client () = ⟨ip + 2, .ready⟩) :
    (N = 1 → s'.user = dispatchGroupPerform s.heap g s.user) ∧
    ((∀ t ∈ (d.heap.group g).tasks, ∀ t' ∈ (d.heap.group g).tasks, ∀ u,
        dispatchTaskPerform (d.heap.task t') (dispatchTaskPerform (d.heap.task t) u) =
          dispatchTaskPerform (d.heap.task t) (dispatchTaskPerform (d.heap.task t') u)) →
      s'.user = dispatchGroupPerform s.heap g s.user) := by
  have hflags : d.program.FlagsAgree := Program.flagsAgree_of_built hbuilt hgroups
  have hs' := hs.steps hsteps
  have hpre := returned_prefix_of_steps hs hsteps
  -- what was pushed in between is the group
  have hpushed : s'.history.pushed = s.history.pushed ++ (d.heap.group g).tasks := by
    rw [pushed_of_ready hd hs' (by rw [hreturn]), pushed_of_ready hd hs (by rw [hcall]), hreturn,
      hcall, d.program.submitted_succ hwait, d.program.submitted_succ hadd]
    simp [DispatchCall.tasks, DispatchConfig.program]
  -- and it has returned
  have hall : ∀ t ∈ s'.history.pushed, t ∈ s'.history.tasksOf s'.history.returned := by
    intro t ht
    rw [hpushed] at ht
    rcases List.mem_append.mp ht with hbefore | hthis
    · exact hpre.subset (hidle t hbefore)
    · have hw : ip + 1 < (s'.client ()).ip := by
        rw [hreturn]
        exact Nat.lt_succ_self _
      exact returned_of_signalled hs'
        (signalled_of_awaits hd hflags hs' (Or.inr ⟨g, hwait, hadd, rfl⟩) hw t hthis)
  rcases hs.traced poolEvents with ⟨tr, htraced⟩
  rcases hs'.traced poolEvents with ⟨tr', htraced'⟩
  rcases poolHistory_of_traced htraced with ⟨hsubmitted, -, hfinished, -⟩
  rcases poolHistory_of_traced htraced' with ⟨hsubmitted', -, hfinished', -⟩
  rw [← hsubmitted, ← hfinished] at hidle
  rw [← hsubmitted', ← hfinished'] at hall
  rw [← hsubmitted, ← hsubmitted'] at hpushed
  rw [← hfinished, ← hfinished'] at hpre
  have hnodup : (submittedTasks tr').Nodup :=
    hsubmitted' ▸ (clientInv_of_reachable hd hs').pushed_nodup hd
  have hbetween := workPool_between (pool_of_traced htraced) (pool_of_traced htraced')
    hnodup hidle hall hpushed hpre
  rw [groupPerform_eq hs]
  constructor
  · rintro rfl
    exact hbetween.1 ⟨0⟩ inferInstance
  · exact hbetween.2

/-! ## A group of one function -/

/-- The state in which the wait has returned. -/
def oneFunctionWaited : State Unit 1 Unit Nat :=
  ((oneFunction.system.guarded fun s l => counterOk s l = true).run oneFunction.system.init
    oneFunctionQuiet).get oneFunctionQuiet_run

theorem oneFunctionWaited_run :
    oneFunction.system.run oneFunction.system.init oneFunctionQuiet = some oneFunctionWaited :=
  System.run_of_guarded (Option.some_get oneFunctionQuiet_run).symm

/-- The function of the group has run once when the wait has returned. -/
theorem host_wait_done_oneFunction :
    (∀ t ∈ [0], oneFunctionWaited.history.popped.count t = 1 ∧
      (oneFunctionWaited.history.tasksOf oneFunctionWaited.history.returned).count t = 1 ∧
      (∀ i, (oneFunctionWaited.worker i).task? ≠ some t) ∧
      ((oneFunction.prog ())[1]? = some (.taskWait t) →
        oneFunctionWaited.history.waitFreed.count t = 1)) ∧
    (oneFunctionWaited.history.counterFreed.map Prod.snd).count 0 = 1 :=
  host_wait_done oneFunction (oneFunctionHeap_built _) groupCalls_groups
    (oneFunction_disciplined _) (System.Reachable.init.run oneFunctionWaited_run)
    (Or.inr ⟨0, rfl, rfl, rfl⟩) (by decide +kernel)

/-! ## A group of two functions -/

/-- One worker, and a client that adds a group of two functions and waits for it. -/
def twoFunctions : DispatchConfig Unit 1 Unit Nat where
  prog := fun _ => groupCalls
  heap := twoFunctionsHeap (Unit × Nat)
  user := 3

/-- The worker runs the first function before the client adds the second one, and the second
one while the client waits. -/
def twoFunctionsSchedule : List (Label Unit 1) :=
  List.flatten [List.replicate 7 (.client ()), List.replicate 15 (.worker 0),
    List.replicate 9 (.client ()), List.replicate 17 (.worker 0), List.replicate 3 (.client ())]

theorem twoFunctions_run : (twoFunctions.system.run twoFunctions.system.init
    twoFunctionsSchedule).isSome = true := by
  decide +kernel

/-- The state in which the wait has returned. -/
def twoFunctionsAfter : State Unit 1 Unit Nat :=
  (twoFunctions.system.run twoFunctions.system.init twoFunctionsSchedule).get twoFunctions_run

/-- The functions have run in the order of the group. -/
theorem host_group_run_agrees_twoFunctions :
    twoFunctionsAfter.user = dispatchGroupPerform twoFunctions.heap 0 3 :=
  (host_group_run_agrees twoFunctions (twoFunctionsHeap_built _) groupCalls_groups
    (twoFunctions_disciplined _) System.Reachable.init
    (System.Steps.of_run (Option.some_get twoFunctions_run).symm)
    rfl rfl rfl (by intro t ht; cases ht) (by decide +kernel)).1 rfl

end Host
end LibDispatch
