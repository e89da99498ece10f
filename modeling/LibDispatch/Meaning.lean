import LibDispatch.Library.WorkPool
import LibDispatch.Program

/-!
# The meaning of a program

A program has a meaning that does not mention queues, workers or backends: each call that adds
tasks performs them at once, in the thread of its caller.  A backend that has completed the
program has performed the same tasks in another order, so that it computes this meaning if the
functions of the tasks commute, or if the order is the same.

Main results:

- Theorem {lit}`Program.sequential_eq`: the meaning is the effect of the tasks submitted, in order.
- Theorem {lit}`Completed.eq_sequential`: what a completed program has computed.
- Theorem {lit}`completed_of_pool`: a work pool that is done with a program has completed it.
-/

namespace LibDispatch

variable {β υ γ : Type}

/-! ## Calls that perform their tasks -/

/-- What a call does to the user state when it performs its tasks itself. -/
def DispatchCall.perform (heap : Heap β υ γ) (u : υ) : DispatchCall → υ
  | .taskAdd t => dispatchTaskPerform (heap.task t) u
  | .groupAdd g => dispatchGroupPerform heap g u
  | _ => u

/-- A call performs the tasks that it submits. -/
theorem DispatchCall.perform_eq (heap : Heap β υ γ) (u : υ)
    (call : DispatchCall) : call.perform heap u =
      (call.tasks heap).foldl (fun u t => dispatchTaskPerform (heap.task t) u) u := by
  cases call <;> rfl

namespace Program

/-- The user state after the first {lit}`ip` calls, when each performs its tasks itself. -/
def sequential (p : Program β υ γ) (ip : Nat) (u : υ) : υ :=
  (p.calls.take ip).foldl (DispatchCall.perform p.heap) u

/-- Each of the first {lit}`ip` calls that adds tasks is waited for by one of them. -/
def Joined (p : Program β υ γ) (ip : Nat) : Prop :=
  ∀ jp < ip, ∀ call, p.calls[jp]? = some call → call.tasks p.heap ≠ [] →
    ∃ w < ip, ∃ ts, p.Awaits w jp ts

/-- The effects of the tasks that the first {lit}`ip` calls submit commute. -/
def Commuting (p : Program β υ γ) (ip : Nat) : Prop :=
  ∀ t ∈ p.submitted ip, ∀ t' ∈ p.submitted ip, ∀ u,
    dispatchTaskPerform (p.heap.task t') (dispatchTaskPerform (p.heap.task t) u) =
      dispatchTaskPerform (p.heap.task t) (dispatchTaskPerform (p.heap.task t') u)

variable {p : Program β υ γ} {ip : Nat}

/-- The meaning of a program is the effect of the tasks that it submits, in order. -/
theorem sequential_eq (p : Program β υ γ) (ip : Nat) (u : υ) : p.sequential ip u =
    (p.submitted ip).foldl (fun u t => dispatchTaskPerform (p.heap.task t) u) u := by
  have hperform : DispatchCall.perform p.heap = fun u call =>
      (call.tasks p.heap).foldl (fun u t => dispatchTaskPerform (p.heap.task t) u) u := by
    funext u call
    exact call.perform_eq p.heap u
  rw [sequential, submitted, List.foldl_flatMap, hperform]

/-- What a joined program has submitted is what it has waited for. -/
theorem Joined.mem_awaited (h : p.Joined ip) {t : Nat} (hd : p.Disciplined)
    (ht : t ∈ p.submitted ip) : ∃ w < ip, ∃ jp ts, p.Awaits w jp ts ∧ t ∈ ts := by
  rcases mem_submitted.mp ht with ⟨jp, hlt, call, hcall, htask⟩
  rcases h jp hlt call hcall (List.ne_nil_of_mem htask) with ⟨w, hw, ts, hawaits⟩
  rcases hd.awaits_call hawaits with ⟨call', hcall', rfl, -⟩
  rw [hcall] at hcall'
  cases hcall'
  exact ⟨w, hw, jp, _, hawaits, htask⟩

end Program

/-! ## Programs without private data -/

/-- The tasks and groups as they are prepared, whatever a backend keeps with a task. -/
def Heap.forget (heap : Heap β υ γ) : Heap β υ Unit where
  task t := { heap.task t with privateData := none }
  group := heap.group

namespace Program

/-- A program, whatever a backend keeps with a task. -/
def forget (p : Program β υ γ) : Program β υ Unit :=
  ⟨p.calls, p.heap.forget⟩

variable {p : Program β υ γ} {ip : Nat}

theorem tasks_forget (heap : Heap β υ γ) (call : DispatchCall) :
    call.tasks heap.forget = call.tasks heap := by
  cases call <;> rfl

theorem submitted_forget (p : Program β υ γ) (ip : Nat) :
    p.forget.submitted ip = p.submitted ip := by
  have htasks : DispatchCall.tasks p.heap.forget = DispatchCall.tasks p.heap :=
    funext (tasks_forget p.heap)
  unfold submitted
  rw [forget, htasks]

theorem disciplined_forget (h : p.forget.Disciplined) : p.Disciplined where
  distinct := by
    have htasks : DispatchCall.tasks p.heap.forget = DispatchCall.tasks p.heap :=
      funext (tasks_forget p.heap)
    have hdistinct := h.distinct
    rwa [forget, htasks] at hdistinct
  taskWait := h.taskWait
  groupWait := h.groupWait
  taskWaitOnce := h.taskWaitOnce
  groupWaitOnce := h.groupWaitOnce

theorem flagsAgree_forget (h : p.forget.FlagsAgree) : p.FlagsAgree :=
  h

theorem joined_forget (h : p.forget.Joined ip) : p.Joined ip := by
  intro jp hlt call hcall hne
  exact h jp hlt call hcall (by rwa [forget, tasks_forget])

end Program

/-! ## Completed programs -/

/-- The tasks that a program has submitted have returned, each once, and in the order of the
program if {lit}`inOrder` holds; the user state is the effect of the returns. -/
def Completed (p : Program β υ γ) (ip : Nat) (u : υ) (inOrder : Prop) (x : υ) : Prop :=
  ∃ ts, ts.Perm (p.submitted ip) ∧ (inOrder → ts = p.submitted ip) ∧
    x = ts.foldl (fun u t => dispatchTaskPerform (p.heap.task t) u) u

/-- The user state is the meaning of the program, in order, and also if the effects commute. -/
theorem Completed.eq_sequential {p : Program β υ γ} {ip : Nat} {u x : υ} {inOrder : Prop}
    (h : Completed p ip u inOrder x) :
    (inOrder → x = p.sequential ip u) ∧ (p.Commuting ip → x = p.sequential ip u) := by
  rcases h with ⟨ts, hperm, horder, rfl⟩
  rw [p.sequential_eq]
  constructor
  · intro h
    rw [horder h]
  · intro hcomm
    exact hperm.foldl_eq' (fun t ht t' ht' u =>
      hcomm t (hperm.subset ht) t' (hperm.subset ht') u) u

/-- What a program has completed does not depend on what the backend keeps with a task. -/
theorem Completed.forget {p : Program β υ γ} {ip : Nat} {u x : υ} {inOrder : Prop}
    (h : Completed p ip u inOrder x) : Completed p.forget ip u inOrder x := by
  rw [Completed, p.submitted_forget]
  exact h

/-- A run of a work pool completes a program when what it has submitted is what the program has
submitted and all of it is finished. -/
theorem completed_of_pool {N : Nat} {p : Program β υ γ} (hd : p.Disciplined) {ip : Nat}
    {capacity : Option Nat} {u : υ} {q : Pool (Fin N) Nat υ} {tr : List (PoolMove (Fin N) Nat)}
    (h : (workPool (fun t => dispatchTaskPerform (p.heap.task t)) capacity u).Traced
      PoolMove.events q tr)
    (hsubmitted : submittedTasks tr = p.submitted ip)
    (hall : ∀ t ∈ p.submitted ip, t ∈ finishedTasks tr) :
    Completed p ip u (N = 1) q.user := by
  rw [← hsubmitted] at hall
  have hnodup : (submittedTasks tr).Nodup :=
    hsubmitted ▸ hd.distinct.sublist (p.prefix_submitted ip).sublist
  have hidle := Pool.idle_of_finished h hnodup hall
  refine ⟨finishedTasks tr, hsubmitted ▸ hidle.finished_perm h, ?_, (workPool_history h).2.1⟩
  rintro rfl
  rw [← hsubmitted]
  exact hidle.finished_eq_of_one_worker 0 h

end LibDispatch
