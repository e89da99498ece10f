import LibDispatch.Rtos.Lifetimes
import LibDispatch.Rtos.Pool

/-!
# Running a group through the FreeRTOS dispatch queue

When every task that was sent has returned, the pool that the queue stands for is idle.  A
group that is added then and waited for leads from one idle pool to the next, so that the
functions of the group, and no others, are applied to the user state in between.

Main results:

- Theorem {lit}`rtos_group_run_agrees`: running a group through the queue agrees with
  {lit}`dispatch_group_perform`.
-/

namespace LibDispatch
namespace Rtos

variable {N : Nat} {β υ : Type}

section Idle

variable {d : DispatchConfig N β υ} {s s' : State N β υ} {g : Nat}

/-- The groups stay as they were built, and so do the functions. -/
theorem groupPerform_eq (hs : d.system.Reachable s) (g : Nat) (u : υ) :
    dispatchGroupPerform s.heap g u =
      (d.heap.group g).tasks.foldl (fun u t => d.perform t u) u := by
  unfold dispatchGroupPerform
  simp only [(static_of_reachable hs).group, unchanged_of_reachable hs _]
  rfl

/-- What a client between two calls has sent. -/
theorem sent_of_ready (hd : d.program.Disciplined) (hflags : d.program.FlagsAgree)
    (hs : d.system.Reachable s) (hready : s.client = .ready) :
    s.history.sent = d.program.submitted s.ip := by
  have h := (clientInv_of_reachable hd hflags hs).pushed
  simpa only [ClientState.added, DispatchConfig.clientState, hready,
    DispatchConfig.phase] using h

/-- The history of returns only grows at its end. -/
theorem returned_prefix_of_steps (hs : d.system.Reachable s) (h : d.system.Steps s s') :
    s.history.returned <+: s'.history.returned := by
  refine System.Steps.invariant (P := fun r => s.history.returned <+: r.history.returned) hs
    (List.prefix_refl _) ?_ h
  intro r a r' _ hpre hstep
  refine hpre.trans ?_
  cases a with
  | client =>
      cases clientStep_of_step hstep with
      | send t site _ _ => cases site <;> exact List.prefix_refl _
      | _ => exact List.prefix_refl _
  | worker i =>
      cases (workerStep_of_step hstep).2 with
      | running t _ => exact List.prefix_append _ _
      | _ => exact List.prefix_refl _

end Idle

/-- Running a group through the queue agrees with running it directly.  A client that follows
the rules adds a waitable group when every task it has sent before has returned, and then
waits for it.  For every length of the queue and every schedule, the user state at the return
of the wait is the one that {lit}`dispatch_group_perform` makes of the user state at the call:
with one worker for all functions, and with any number of workers if the functions
commute. -/
theorem rtos_group_run_agrees (d : DispatchConfig N β υ) {ts gs as : List Nat}
    (hbuilt : Built d.heap ts gs as) (hgroups : ∀ g, .groupAdd g ∈ d.prog → g ∈ gs)
    (hd : d.program.Disciplined) {s s' : State N β υ} (hs : d.system.Reachable s)
    (hsteps : d.system.Steps s s') {g : Nat} (hready : s.client = .ready)
    (hadd : d.prog[s.ip]? = some (.groupAdd g))
    (hwait : d.prog[s.ip + 1]? = some (.groupWait g))
    (hidle : ∀ t ∈ s.history.sent, t ∈ s.history.returned)
    (hreturn : s'.client = .ready ∧ s'.ip = s.ip + 2) :
    (N = 1 → s'.user = dispatchGroupPerform s.heap g s.user) ∧
    ((∀ t ∈ (d.heap.group g).tasks, ∀ t' ∈ (d.heap.group g).tasks, ∀ u,
        dispatchTaskPerform (d.heap.task t') (dispatchTaskPerform (d.heap.task t) u) =
          dispatchTaskPerform (d.heap.task t) (dispatchTaskPerform (d.heap.task t') u)) →
      s'.user = dispatchGroupPerform s.heap g s.user) := by
  have hflags := Program.flagsAgree_of_built (p := d.program) hbuilt hgroups
  have hs' := hs.steps hsteps
  have hpre := returned_prefix_of_steps hs hsteps
  -- what was sent in between is the group
  have hsent : s'.history.sent = s.history.sent ++ (d.heap.group g).tasks := by
    rw [sent_of_ready hd hflags hs' hreturn.1, sent_of_ready hd hflags hs hready, hreturn.2,
      d.program.submitted_succ hwait, d.program.submitted_succ hadd]
    simp [DispatchCall.tasks, DispatchConfig.program]
  -- and it has returned
  have hall : ∀ t ∈ s'.history.sent, t ∈ s'.history.returned := by
    intro t ht
    rw [hsent] at ht
    rcases List.mem_append.mp ht with hbefore | hthis
    · exact hpre.subset (hidle t hbefore)
    · have hw : s.ip + 1 < s'.ip := by omega
      exact returned_of_awaits hd hflags hs' (Or.inr ⟨g, hwait, hadd, rfl⟩) hw t hthis
  rcases hs.traced poolEvents with ⟨tr, htraced⟩
  rcases hs'.traced poolEvents with ⟨tr', htraced'⟩
  rcases poolHistory_of_traced htraced with ⟨hsubmitted, hfinished⟩
  rcases poolHistory_of_traced htraced' with ⟨hsubmitted', hfinished'⟩
  rw [← hsubmitted, ← hfinished] at hidle
  rw [← hsubmitted', ← hfinished'] at hall
  rw [← hsubmitted, ← hsubmitted'] at hsent
  rw [← hfinished, ← hfinished'] at hpre
  have hnodup : (submittedTasks tr').Nodup :=
    hsubmitted' ▸ (clientInv_of_reachable hd hflags hs').pushed_nodup hd
  have hbetween := workPool_between (pool_of_traced htraced) (pool_of_traced htraced')
    hnodup hidle hall hsent hpre
  rw [groupPerform_eq hs]
  constructor
  · rintro rfl
    exact hbetween.1 ⟨0⟩ inferInstance
  · exact hbetween.2

/-! ## A group of two functions -/

/-- One worker, and a client that adds a group of two functions and waits for it. -/
def twoFunctions : DispatchConfig 1 Unit Nat where
  length := 1
  length_pos := Nat.one_pos
  threadCount_pos := Nat.one_pos
  threadCount_le := one_le_width
  prog := groupCalls
  heap := twoFunctionsHeap Nat
  user := 3

/-- The client waits while the queue is full; the worker runs the first function, and the second
one while the client waits for the group. -/
def twoFunctionsSchedule : List (Party 1) :=
  List.flatten [List.replicate 4 .client, List.replicate 8 (.worker 0),
    List.replicate 3 .client, List.replicate 8 (.worker 0), List.replicate 6 .client]

theorem twoFunctionsStart_run : (twoFunctions.system.run twoFunctions.system.init
    [.client]).isSome = true := by
  decide +kernel

theorem twoFunctions_run : (twoFunctions.system.run twoFunctions.system.init
    ([.client] ++ twoFunctionsSchedule)).isSome = true := by
  decide +kernel

/-- The state in which the wait has returned. -/
def twoFunctionsAfter : State 1 Unit Nat :=
  (twoFunctions.system.run twoFunctions.system.init ([.client] ++ twoFunctionsSchedule)).get
    twoFunctions_run

/-- The functions have run in the order of the group. -/
theorem rtos_group_run_agrees_twoFunctions :
    twoFunctionsAfter.user = dispatchGroupPerform (twoFunctionsHeap Nat) 0 3 :=
  (rtos_group_run_agrees twoFunctions (twoFunctionsHeap_built Nat) groupCalls_groups
    (twoFunctions_disciplined Nat)
    (twoFunctions.system.reachable_get_run [.client] twoFunctionsStart_run)
    (System.steps_get_run [.client] twoFunctionsSchedule twoFunctionsStart_run twoFunctions_run)
    rfl rfl rfl (by intro t ht; cases ht) ⟨by decide +kernel, by decide +kernel⟩).1 rfl

end Rtos
end LibDispatch
