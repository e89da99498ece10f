import LibDispatch.Library.Rounds
import LibDispatch.Library.Tally
import LibDispatch.Rtos.Client

/-!
# How many steps a program takes on FreeRTOS

The steps that are still to be made are counted from the calls that the client has not made,
the position in the current one, the tasks in the queue, and what the workers have in their
hands.  Every step takes something off this budget, except the test of the loop in
{lit}`dispatch_queue_wait` when the queue is not empty, which changes nothing.

Main results:

- Theorem {lit}`descending_budget`: the budget is a potential of the system.
-/

namespace LibDispatch
namespace Rtos

variable {N : Nat} {β υ : Type}

/-! ## The budget -/

/-- The steps that a worker makes before it receives again. -/
def WorkerPc.steps : WorkerPc → Nat
  | .receive => 0
  | .setBit => 1
  | .give _ | .delete _ => 2
  | .decrement _ => 3
  | .readCounter _ => 4
  | .testWaitable _ => 5
  | .running _ => 6
  | .perform _ => 7
  | .clearBit _ => 8

/-- The steps that a task in the queue leads to. -/
def taskSteps : Nat :=
  9

/-- The steps of a call, those of its tasks included. -/
def DispatchConfig.callSteps (d : DispatchConfig N β υ) : DispatchCall → Nat
  | .taskAdd _ => 2 + taskSteps
  | .groupAdd g => 2 + (2 + taskSteps) * (d.heap.group g).count
  | .taskWait _ => 6
  | .groupWait g => 5 + (d.heap.group g).count
  | .wait => 3
  | .delete => 6 + N

/-- The steps of the calls after the first {lit}`ip`. -/
def DispatchConfig.restSteps (d : DispatchConfig N β υ) (ip : Nat) : Nat :=
  (d.prog.drop ip).foldr (fun call rest => d.callSteps call + rest) 0

/-- The steps of the {lit}`ip`-th call from a position of it, and of the calls after it. -/
def DispatchConfig.clientSteps (d : DispatchConfig N β υ) (ip : Nat) : ClientPc → Nat
  | .setReadyBits => 1 + d.restSteps ip
  | .ready => d.restSteps ip
  | .groupLoop g i _ =>
      1 + (2 + taskSteps) * ((d.heap.group g).count - i) + d.restSteps (ip + 1)
  | .send _ .task => 1 + taskSteps + d.restSteps (ip + 1)
  | .send _ (.member g i _) =>
      2 + taskSteps + (2 + taskSteps) * ((d.heap.group g).count - (i + 1)) +
        d.restSteps (ip + 1)
  | .takeSemaphore _ ts => 4 + ts.length + d.restSteps (ip + 1)
  | .deleteSemaphore _ ts => 3 + ts.length + d.restSteps (ip + 1)
  | .freeCounter _ ts => 2 + ts.length + d.restSteps (ip + 1)
  | .deleteTasks ts => 1 + ts.length + d.restSteps (ip + 1)
  | .waitEmpty => 2 + d.restSteps (ip + 1)
  | .waitBits => 1 + d.restSteps (ip + 1)
  | .deleteThread i => 5 + (N - i) + d.restSteps (ip + 1)
  | .freeWorkerData => 4 + d.restSteps (ip + 1)
  | .freeThreads => 3 + d.restSteps (ip + 1)
  | .deleteEventGroup => 2 + d.restSteps (ip + 1)
  | .deleteQueue => 1 + d.restSteps (ip + 1)

/-- The steps that are still to be made. -/
def DispatchConfig.budget (d : DispatchConfig N β υ) (s : State N β υ) : Nat :=
  d.clientSteps s.ip s.client + taskSteps * s.xQueue.length + tally WorkerPc.steps s.worker

/-- The steps of a whole program. -/
def DispatchConfig.steps (d : DispatchConfig N β υ) : Nat :=
  1 + d.restSteps 0

theorem budget_init (d : DispatchConfig N β υ) : d.budget d.system.init = d.steps := by
  have hzero : tally WorkerPc.steps d.system.init.worker = 0 := by
    rw [tally_eq_zero_iff]
    intro i
    rfl
  rw [DispatchConfig.budget, hzero]
  rfl

section Steps

variable {d : DispatchConfig N β υ} {s s' : State N β υ} {i : Fin N}

/-- The next call is taken off the rest. -/
theorem restSteps_of_call {ip : Nat} {call : DispatchCall} (hcall : d.prog[ip]? = some call) :
    d.restSteps ip = d.callSteps call + d.restSteps (ip + 1) := by
  rcases List.getElem?_eq_some_iff.mp hcall with ⟨hlt, rfl⟩
  rw [DispatchConfig.restSteps, List.drop_eq_getElem_cons hlt, List.foldr_cons]
  rfl

/-- A step of a worker takes something off the budget. -/
theorem WorkerStep.budget_lt (h : WorkerStep s i s') : d.budget s' < d.budget s := by
  have hgoto : ∀ (s' : State N β υ) (pc : WorkerPc), s'.client = s.client → s'.ip = s.ip →
      s'.worker = Function.update s.worker i pc →
      taskSteps * s'.xQueue.length + pc.steps <
        taskSteps * s.xQueue.length + (s.worker i).steps → d.budget s' < d.budget s := by
    intro s' pc hclient hip hworker hlt
    have htally := tally_update WorkerPc.steps s.worker i pc
    rw [DispatchConfig.budget, DispatchConfig.budget, hclient, hip, hworker]
    omega
  cases h with
  | receive t rest hk hqueue =>
      refine hgoto _ _ rfl rfl rfl ?_
      simp only [State.workerGoto, hk, hqueue, WorkerPc.steps, taskSteps, List.length_cons]
      omega
  | _ =>
      refine hgoto _ _ rfl rfl rfl ?_
      simp only [State.workerGoto, State.record, State.setCounter, WorkerPc.steps,
        (by assumption : s.worker i = _)]
      omega

/-- A step of the client takes something off the budget, or finds the queue not empty. -/
theorem ClientStep.budget_lt (h : ClientStep d s s') (hstatic : Static d s) :
    (s.client = .waitEmpty ∧ s.xQueue ≠ [] ∧ s' = s) ∨ d.budget s' < d.budget s := by
  have hmove : ∀ s' : State N β υ, s'.worker = s.worker →
      d.clientSteps s'.ip s'.client + taskSteps * s'.xQueue.length <
        d.clientSteps s.ip s.client + taskSteps * s.xQueue.length →
      d.budget s' < d.budget s := by
    intro s' hworker hlt
    rw [DispatchConfig.budget, DispatchConfig.budget, hworker]
    omega
  -- the start of a call
  have hstart : ∀ (s' : State N β υ) (call : DispatchCall), s.client = .ready →
      d.prog[s.ip]? = some call → s'.worker = s.worker → s'.xQueue = s.xQueue →
      s'.ip = s.ip → d.clientSteps s.ip s'.client < d.callSteps call + d.restSteps (s.ip + 1) →
      d.budget s' < d.budget s := by
    intro s' call hk hcall hworker hqueue hip hlt
    refine hmove s' hworker ?_
    rw [← restSteps_of_call hcall] at hlt
    rw [hk, hqueue, hip]
    exact Nat.add_lt_add_right hlt _
  cases h with
  | waitAgain hk hqueue =>
      refine Or.inl ⟨hk, fun hempty => hqueue (by rw [hempty]; rfl), ?_⟩
      rw [State.goto, ← hk]
  | send t site hk hroom =>
      refine Or.inr (hmove _ (by cases site <;> rfl) ?_)
      cases site with
      | task =>
          simp only [State.sent, State.ret, State.record, hk, DispatchConfig.clientSteps,
            taskSteps, List.length_append, List.length_singleton]
          omega
      | member g j counter =>
          simp only [State.sent, State.goto, State.record, hk, DispatchConfig.clientSteps,
            taskSteps, List.length_append, List.length_singleton]
          omega
  | groupStore g j t counter hk htask =>
      refine Or.inr (hmove _ rfl ?_)
      rw [hstatic.group] at htask
      have hlt : j < (d.heap.group g).count := (List.getElem?_eq_some_iff.mp htask).1
      simp only [State.goto, State.storePrivateData, hk, DispatchConfig.clientSteps, taskSteps]
      omega
  | groupWait g t c ts hk hcall _ htasks _ =>
      refine Or.inr (hstart _ _ hk hcall rfl rfl rfl ?_)
      rw [hstatic.group] at htasks
      simp only [State.goto, DispatchConfig.clientSteps, DispatchConfig.callSteps, Group.count,
        htasks]
      omega
  | taskAddWaitable t hk hcall _ =>
      refine Or.inr (hstart _ _ hk hcall rfl rfl rfl ?_)
      simp only [State.goto, DispatchConfig.clientSteps, DispatchConfig.callSteps]
      omega
  | groupAddWaitable g hk hcall _ =>
      refine Or.inr (hstart _ _ hk hcall rfl rfl rfl ?_)
      simp only [State.goto, DispatchConfig.clientSteps, DispatchConfig.callSteps, Nat.sub_zero]
      omega
  | taskWait t c hk hcall _ _ =>
      refine Or.inr (hstart _ _ hk hcall rfl rfl rfl ?_)
      simp only [State.goto, DispatchConfig.clientSteps, DispatchConfig.callSteps,
        List.length_singleton]
      omega
  | taskAddPlain _ hk hcall _ =>
      refine Or.inr (hstart _ _ hk hcall rfl rfl rfl ?_)
      simp only [State.goto, DispatchConfig.clientSteps, DispatchConfig.callSteps]
      omega
  | groupAddPlain _ hk hcall _ =>
      refine Or.inr (hstart _ _ hk hcall rfl rfl rfl ?_)
      simp only [State.goto, DispatchConfig.clientSteps, DispatchConfig.callSteps, Nat.sub_zero]
      omega
  | wait hk hcall =>
      refine Or.inr (hstart _ _ hk hcall rfl rfl rfl ?_)
      simp only [State.goto, DispatchConfig.clientSteps, DispatchConfig.callSteps]
      omega
  | delete hk hcall =>
      refine Or.inr (hstart _ _ hk hcall rfl rfl rfl ?_)
      simp only [State.goto, DispatchConfig.clientSteps, DispatchConfig.callSteps]
      omega
  | _ =>
      refine Or.inr (hmove _ rfl ?_)
      simp only [State.goto, State.ret, State.record, State.setCounter, State.release,
        (by assumption : s.client = _), DispatchConfig.clientSteps, List.length_cons,
        List.length_nil]
      omega

/-- A step changes nothing or takes something off the budget. -/
theorem descending_budget (d : DispatchConfig N β υ) : d.system.Descending d.budget := by
  intro s a s' hs hstep
  cases a with
  | worker i => exact Or.inr (workerStep_of_step hstep).2.budget_lt
  | client =>
      rcases (clientStep_of_step hstep).budget_lt (static_of_reachable hs) with ⟨-, -, heq⟩ | hlt
      · exact Or.inl heq
      · exact Or.inr hlt

end Steps

end Rtos
end LibDispatch
