import LibDispatch.Host.Deadlock
import LibDispatch.Library.Rounds

/-!
# How many steps a program takes on the host

The steps that are still to be made are counted from the calls that the client has not made,
the position in the current one, the tasks in the deque, and the positions of the workers.  A
call that adds a task pays for the worker that its notification wakes, and
{lit}`dispatch_queue_delete` for all workers.  A worker has less to do once {lit}`quit` is set.
Every step takes something off this budget, as long as no thread wakes up without being
notified and the client does not poll in {lit}`dispatch_queue_wait`.

Main results:

- Theorem {lit}`descending_budget`: the budget is a potential of the system without spurious
  wake-ups.
-/

namespace LibDispatch
namespace Host

variable {N : Nat} {β υ : Type}

/-! ## Turns -/

/-- A thread gets a turn, or the client does while its notification picks a worker. -/
inductive Turn (N : Nat) where
  | client
  | worker (i : Fin N)
  | notify (i : Fin N)
deriving DecidableEq, Repr

/-- The step that is taken in a turn. -/
def Turn.label : Turn N → Label Unit N
  | .client => .client ()
  | .worker i => .worker i
  | .notify i => .notify () i

/-- The turns are the steps that are not spurious wake-ups. -/
theorem Turn.exists_label {l : Label Unit N} (hl : l.spurious = false) :
    ∃ a : Turn N, a.label = l := by
  cases l with
  | client c => exact ⟨.client, rfl⟩
  | worker i => exact ⟨.worker i, rfl⟩
  | notify c i => exact ⟨.notify i, rfl⟩
  | spuriousWorker i => cases hl
  | spuriousClient c => cases hl

/-- The system from a state on, without spurious wake-ups. -/
def DispatchConfig.turns (d : DispatchConfig Unit N β υ) (s₀ : State Unit N β υ) :
    System (State Unit N β υ) (Turn N) :=
  d.system.scheduled s₀ Turn.label

/-! ## The budget -/

/-- The steps of a worker from the end of a task to the test of its loop, and from there until
it blocks or leaves. -/
def loopSteps (quit : Bool) : Nat :=
  if quit = true then 2 else 8

/-- The steps that a worker makes before it blocks or leaves. -/
def WorkerPc.steps (quit : Bool) : WorkerPc Unit → Nat
  | .start => 8
  | .readySignal => 7
  | .readyTest => 6
  | .readyNotify | .woken => 5
  | .waitTest => 4
  | .testTask => 3
  | .reset => 2
  | .pop | .leave => 1
  | .blocked | .exited => 0
  | .unlock _ => 10 + loopSteps quit
  | .perform _ => 9 + loopSteps quit
  | .running _ => 8 + loopSteps quit
  | .testWaitable _ => 7 + loopSteps quit
  | .readCounter _ => 6 + loopSteps quit
  | .signal _ _ => 5 + loopSteps quit
  | .signalTest _ _ => 4 + loopSteps quit
  | .signalNotify _ _ => 3 + loopSteps quit
  | .delete _ => 2 + loopSteps quit
  | .relock => 1 + loopSteps quit
  | .loopTest => loopSteps quit

/-- The steps that a task in the deque leads to. -/
def taskSteps : Nat :=
  18

/-- The steps that a notification leads to. -/
def wakeSteps : Nat :=
  5

/-- The steps of adding a task. -/
def addSteps : Nat :=
  6 + wakeSteps + taskSteps

/-- The steps of a call, those of its tasks included. -/
def DispatchConfig.callSteps (d : DispatchConfig Unit N β υ) : DispatchCall → Nat
  | .taskAdd _ => addSteps
  | .groupAdd g => 2 + addSteps * (d.heap.group g).count
  | .taskWait _ => 6
  | .groupWait _ => 5
  | .wait => 0
  | .delete => 8 + 2 * N + wakeSteps * N

/-- The steps of the calls after the first {lit}`ip`. -/
def DispatchConfig.restSteps (d : DispatchConfig Unit N β υ) (ip : Nat) : Nat :=
  ((d.prog ()).drop ip).foldr (fun call rest => d.callSteps call + rest) 0

/-- The steps of the {lit}`ip`-th call after a task was added, and of the calls after it. -/
def DispatchConfig.siteSteps (d : DispatchConfig Unit N β υ) (ip : Nat) : AddSite Unit → Nat
  | .task _ => d.restSteps (ip + 1)
  | .member g i _ =>
      1 + addSteps * ((d.heap.group g).count - (i + 1)) + d.restSteps (ip + 1)

/-- The steps of the {lit}`ip`-th call from a position of it, and of the calls after it. -/
def DispatchConfig.clientSteps (d : DispatchConfig Unit N β υ) (ip : Nat) :
    ClientPc Unit → Nat
  | .ready => d.restSteps ip
  | .groupLoop g i _ => 1 + addSteps * ((d.heap.group g).count - i) + d.restSteps (ip + 1)
  | .store _ site => 5 + wakeSteps + taskSteps + d.siteSteps ip site
  | .addLock _ site => 4 + wakeSteps + taskSteps + d.siteSteps ip site
  | .push _ site => 3 + wakeSteps + taskSteps + d.siteSteps ip site
  | .addUnlock site => 2 + wakeSteps + d.siteSteps ip site
  | .notify site => 1 + wakeSteps + d.siteSteps ip site
  | .counterWait _ ts => 4 + ts.length + d.restSteps (ip + 1)
  | .counterBlocked _ ts => 3 + ts.length + d.restSteps (ip + 1)
  | .deleteCounter _ ts => 2 + ts.length + d.restSteps (ip + 1)
  | .deleteTasks ts => 1 + ts.length + d.restSteps (ip + 1)
  | .waitLock | .waitSize | .waitUnlock _ | .semaphoreWait _ | .semaphoreBlocked _ => 0
  | .quitLock => 7 + 2 * N + wakeSteps * N + d.restSteps (ip + 1)
  | .setQuit => 6 + 2 * N + wakeSteps * N + d.restSteps (ip + 1)
  | .quitUnlock => 5 + 2 * N + wakeSteps * N + d.restSteps (ip + 1)
  | .notifyAll => 4 + 2 * N + wakeSteps * N + d.restSteps (ip + 1)
  | .join i => 3 + N + (N - i) + d.restSteps (ip + 1)
  | .deleteSemaphore i => 2 + (N - i) + d.restSteps (ip + 1)
  | .deleteQueue => 1 + d.restSteps (ip + 1)

/-- The steps that are still to be made. -/
def DispatchConfig.budget (d : DispatchConfig Unit N β υ) (s : State Unit N β υ) : Nat :=
  d.clientSteps (s.client ()).ip (s.client ()).pc + taskSteps * s.deque.length +
    tally (WorkerPc.steps s.quit) s.worker

/-- The steps of a whole program. -/
def DispatchConfig.steps (d : DispatchConfig Unit N β υ) : Nat :=
  d.restSteps 0 + 8 * N

theorem budget_init (d : DispatchConfig Unit N β υ) : d.budget d.system.init = d.steps := by
  have hstart : tally (WorkerPc.steps false) d.system.init.worker = 8 * N := by
    change ∑ _i : Fin N, 8 = 8 * N
    rw [Finset.sum_const, Finset.card_univ, Fintype.card_fin]
    exact Nat.mul_comm N 8
  change d.restSteps 0 + 0 + tally (WorkerPc.steps false) _ = d.steps
  rw [hstart, DispatchConfig.steps, Nat.add_zero]

/-! ## Programs that do not poll -/

/-- The positions of {lit}`dispatch_queue_wait`. -/
def ClientPc.polling : ClientPc Unit → Bool
  | .waitLock | .waitSize | .waitUnlock _ | .semaphoreWait _ | .semaphoreBlocked _ => true
  | _ => false

section Steps

variable {d : DispatchConfig Unit N β υ} {s s' s₀ : State Unit N β υ} {c : Unit} {i : Fin N}

theorem ClientPc.WokenTo.polling_eq {pc pc' : ClientPc Unit} (h : pc.WokenTo pc') :
    pc'.polling = pc.polling := by
  rcases h with rfl | ⟨i, rfl, rfl⟩ | ⟨counter, ts, rfl, rfl⟩ <;> rfl

/-- A client whose program has no {lit}`dispatch_queue_wait` does not poll. -/
theorem not_polling_of_reachable (hwait : .wait ∉ d.prog ()) (hs : d.system.Reachable s) :
    (s.client ()).pc.polling = false := by
  refine hs.invariant (P := fun s => (s.client ()).pc.polling = false) rfl
    fun s l s' hs h hstep =>
      step_rule (P := fun s => (s.client ()).pc.polling = false) hs h hstep ?_ ?_ ?_ ?_ ?_
  · intro s c s' _ h hstep
    cases c
    cases hstep with
    | wait hk hcall => exact absurd (List.mem_of_getElem? hcall) hwait
    | waitLock hk _ => simp [hk, ClientPc.polling] at h
    | waitSize hk => simp [hk, ClientPc.polling] at h
    | waitEmptied hk => simp [hk, ClientPc.polling] at h
    | waitAgain count hk _ => simp [hk, ClientPc.polling] at h
    | semaphoreReady j hj hk _ => simp [hk, ClientPc.polling] at h
    | semaphoreBlock j hj hk _ => simp [hk, ClientPc.polling] at h
    | semaphoreDone j hj hk => simp [hk, ClientPc.polling] at h
    | notifyLost site hk _ => cases site <;> simp [State.added, ClientPc.polling]
    | _ => simp [ClientPc.polling]
  · intro s i s' _ h hstep
    rw [(hstep.client_wokenTo ()).2.polling_eq, h]
  · exact fun _ _ _ h _ => h
  · intro s c site _ _
    cases c
    cases site <;> simp [State.added, ClientPc.polling]
  · intro s c pc h _ hpc
    rw [(State.goto_wokenTo hpc ()).polling_eq, h]

/-! ## Steps of the workers -/

/-- A worker has less to do once {lit}`quit` is set. -/
theorem WorkerPc.steps_quit_le (quit : Bool) (pc : WorkerPc Unit) :
    pc.steps true ≤ pc.steps quit := by
  cases quit with
  | true => exact Nat.le_refl _
  | false => cases pc <;> simp [WorkerPc.steps, loopSteps]

/-- A client that polls is not paid for. -/
theorem clientSteps_wakeSemaphore (ip i : Nat) (pc : ClientPc Unit) :
    d.clientSteps ip (pc.wakeSemaphore i) = d.clientSteps ip pc := by
  cases pc with
  | semaphoreBlocked j =>
      rw [ClientPc.wakeSemaphore]
      split <;> rfl
  | _ => rfl

/-- A notification pays for the client that it wakes. -/
theorem clientSteps_wakeCounter (ip : Nat) (counter : Unit × Nat) (pc : ClientPc Unit) :
    d.clientSteps ip (pc.wakeCounter counter) ≤ d.clientSteps ip pc + 1 := by
  cases pc with
  | counterBlocked counter' ts =>
      rw [ClientPc.wakeCounter]
      split <;> simp only [DispatchConfig.clientSteps] <;> omega
  | _ => exact Nat.le_succ _

/-- A step of a worker takes something off the budget. -/
theorem WorkerStep.budget_lt (h : WorkerStep s i s')
    (hknows : (s.worker i).Knows s.deque s.quit) : d.budget s' < d.budget s := by
  have hmove : ∀ (s' : State Unit N β υ) (pc : WorkerPc Unit), s'.quit = s.quit →
      s'.worker = Function.update s.worker i pc →
      d.clientSteps (s'.client ()).ip (s'.client ()).pc + taskSteps * s'.deque.length +
          pc.steps s.quit <
        d.clientSteps (s.client ()).ip (s.client ()).pc + taskSteps * s.deque.length +
          (s.worker i).steps s.quit → d.budget s' < d.budget s := by
    intro s' pc hquit hworker hlt
    have htally := tally_update (WorkerPc.steps s.quit) s.worker i pc
    rw [DispatchConfig.budget, DispatchConfig.budget, hquit, hworker]
    omega
  have hloop : 2 ≤ loopSteps s.quit ∧ loopSteps s.quit ≤ 8 := by
    unfold loopSteps
    split <;> omega
  cases h with
  | pop t rest hk hdeque =>
      refine hmove _ _ rfl rfl ?_
      simp only [State.workerGoto, State.record, hk, hdeque, WorkerPc.steps, taskSteps,
        List.length_cons]
      omega
  | readyNotify hk =>
      have hclient := clientSteps_wakeSemaphore (d := d) (s.client ()).ip i (s.client ()).pc
      refine hmove _ _ rfl rfl ?_
      simp only [State.workerGoto, State.notifySemaphore, hclient, hk, WorkerPc.steps]
      omega
  | signalNotify t counter hk =>
      have hclient := clientSteps_wakeCounter (d := d) (s.client ()).ip counter (s.client ()).pc
      refine hmove _ _ rfl rfl ?_
      simp only [State.workerGoto, State.notifyCounter, hk, WorkerPc.steps]
      omega
  | testNone hk htask =>
      -- the worker knows that the deque is not empty or that quit is set
      have hquit : s.quit = true := by
        rw [hk] at hknows
        by_contra hopen
        rcases hknows with hne | hquit
        · exact htask ⟨Bool.eq_false_iff.mpr hopen, hne⟩
        · exact hopen hquit
      refine hmove _ _ rfl rfl ?_
      simp only [State.workerGoto, hk, WorkerPc.steps, loopSteps, hquit, if_true]
      omega
  | loopQuit hk hquit =>
      refine hmove _ _ rfl rfl ?_
      simp only [State.workerGoto, hk, WorkerPc.steps, loopSteps, hquit, if_true]
      omega
  | loopAgain hk hquit =>
      refine hmove _ _ rfl rfl ?_
      simp only [State.workerGoto, hk, WorkerPc.steps, loopSteps, hquit, Bool.false_eq_true,
        if_false]
      omega
  | _ =>
      refine hmove _ _ rfl rfl ?_
      simp only [State.workerGoto, State.record, State.setCounter, WorkerPc.steps,
        (by assumption : s.worker i = _)]
      omega

/-! ## Steps of the client -/

/-- The next call is taken off the rest. -/
theorem restSteps_of_call {ip : Nat} {call : DispatchCall}
    (hcall : (d.prog ())[ip]? = some call) :
    d.restSteps ip = d.callSteps call + d.restSteps (ip + 1) := by
  rcases List.getElem?_eq_some_iff.mp hcall with ⟨hlt, rfl⟩
  rw [DispatchConfig.restSteps, List.drop_eq_getElem_cons hlt, List.foldr_cons]
  rfl

/-- The steps that follow when {lit}`task_add` returns. -/
theorem clientSteps_added (site : AddSite Unit) :
    d.clientSteps ((s.added () site).client ()).ip ((s.added () site).client ()).pc =
      d.siteSteps (s.client ()).ip site := by
  cases site <;> simp [State.added, DispatchConfig.clientSteps, DispatchConfig.siteSteps]

/-- {lit}`notify_all` wakes at most all workers. -/
theorem tally_wake_le (quit : Bool) (worker : Fin N → WorkerPc Unit) :
    tally (WorkerPc.steps quit) (fun i => (worker i).wake) ≤
      tally (WorkerPc.steps quit) worker + wakeSteps * N := by
  have hle : ∀ pc : WorkerPc Unit, pc.wake.steps quit ≤ pc.steps quit + wakeSteps := by
    intro pc
    cases pc with
    | blocked => exact Nat.le_refl _
    | _ => exact Nat.le_add_right _ _
  calc tally (WorkerPc.steps quit) (fun i => (worker i).wake)
      ≤ ∑ i, ((worker i).steps quit + wakeSteps) := Finset.sum_le_sum fun i _ => hle (worker i)
    _ = tally (WorkerPc.steps quit) worker + wakeSteps * N := by
      rw [Finset.sum_add_distrib, Finset.sum_const, Finset.card_univ, Fintype.card_fin, tally]
      exact congrArg _ (Nat.mul_comm N wakeSteps)

/-- A step of a client that does not poll takes something off the budget. -/
theorem ClientStep.budget_lt (h : ClientStep d s () s') (hstatic : Static d s)
    (hwait : .wait ∉ d.prog ()) (hpolling : (s.client ()).pc.polling = false) :
    d.budget s' < d.budget s := by
  have hmove : ∀ s' : State Unit N β υ, s'.quit = s.quit → s'.worker = s.worker →
      d.clientSteps (s'.client ()).ip (s'.client ()).pc + taskSteps * s'.deque.length <
        d.clientSteps (s.client ()).ip (s.client ()).pc + taskSteps * s.deque.length →
      d.budget s' < d.budget s := by
    intro s' hquit hworker hlt
    rw [DispatchConfig.budget, DispatchConfig.budget, hquit, hworker]
    omega
  -- the start of a call
  have hstart : ∀ (s' : State Unit N β υ) (call : DispatchCall) (pc : ClientPc Unit),
      (s.client ()).pc = .ready → (d.prog ())[(s.client ()).ip]? = some call →
      s'.quit = s.quit → s'.worker = s.worker → s'.deque = s.deque →
      s'.client = Function.update s.client () ⟨(s.client ()).ip, pc⟩ →
      d.clientSteps (s.client ()).ip pc <
        d.callSteps call + d.restSteps ((s.client ()).ip + 1) →
      d.budget s' < d.budget s := by
    intro s' call pc hk hcall hquit hworker hdeque hclient hlt
    refine hmove s' hquit hworker ?_
    rw [hclient, Function.update_self, hk, hdeque]
    rw [← restSteps_of_call hcall] at hlt
    exact Nat.add_lt_add_right hlt _
  cases h with
  | taskAddWaitable t hk hcall _ =>
      refine hstart _ _ _ hk hcall rfl rfl rfl rfl ?_
      simp only [DispatchConfig.clientSteps, DispatchConfig.callSteps, DispatchConfig.siteSteps,
        addSteps]
      omega
  | taskAddPlain t hk hcall _ =>
      refine hstart _ _ _ hk hcall rfl rfl rfl rfl ?_
      simp only [DispatchConfig.clientSteps, DispatchConfig.callSteps, DispatchConfig.siteSteps,
        addSteps]
      omega
  | groupAddWaitable g hk hcall _ =>
      refine hstart _ _ _ hk hcall rfl rfl rfl rfl ?_
      simp only [DispatchConfig.clientSteps, DispatchConfig.callSteps, Nat.sub_zero]
      omega
  | groupAddPlain g hk hcall _ =>
      refine hstart _ _ _ hk hcall rfl rfl rfl rfl ?_
      simp only [DispatchConfig.clientSteps, DispatchConfig.callSteps, Nat.sub_zero]
      omega
  | taskWait t counter hk hcall _ _ =>
      refine hstart _ _ _ hk hcall rfl rfl rfl rfl ?_
      simp only [DispatchConfig.clientSteps, DispatchConfig.callSteps, List.length_singleton]
      omega
  | groupWait g t ts counter hk hcall _ _ _ =>
      refine hstart _ _ _ hk hcall rfl rfl rfl rfl ?_
      simp only [DispatchConfig.clientSteps, DispatchConfig.callSteps, List.length_nil]
      omega
  | wait hk hcall => exact absurd (List.mem_of_getElem? hcall) hwait
  | delete hk hcall =>
      refine hstart _ _ _ hk hcall rfl rfl rfl rfl ?_
      simp only [DispatchConfig.clientSteps, DispatchConfig.callSteps]
      omega
  | groupNext g j t counter hk htask =>
      refine hmove _ rfl rfl ?_
      rw [hstatic.group] at htask
      have hlt : j < (d.heap.group g).count := (List.getElem?_eq_some_iff.mp htask).1
      have hcount : (d.heap.group g).count - j = (d.heap.group g).count - (j + 1) + 1 := by omega
      simp only [State.goto, Function.update_self, hk, DispatchConfig.clientSteps,
        DispatchConfig.siteSteps, hcount, Nat.mul_succ, addSteps]
      omega
  | push t site hk =>
      refine hmove _ rfl rfl ?_
      simp only [State.goto, State.record, Function.update_self, hk, DispatchConfig.clientSteps,
        List.length_append, List.length_singleton, Nat.mul_succ]
      omega
  | notifyLost site hk _ =>
      refine hmove _ (s.quit_added () site) (s.worker_added () site) ?_
      rw [clientSteps_added, s.deque_added, hk]
      simp only [DispatchConfig.clientSteps]
      omega
  | setQuit hk =>
      have htally : tally (WorkerPc.steps true) s.worker ≤ tally (WorkerPc.steps s.quit) s.worker :=
        tally_le_tally fun i => WorkerPc.steps_quit_le s.quit (s.worker i)
      simp only [DispatchConfig.budget, State.goto, Function.update_self, hk,
        DispatchConfig.clientSteps]
      omega
  | notifyAll hk =>
      have htally := tally_wake_le s.quit s.worker
      simp only [DispatchConfig.budget, State.goto, State.notifyWorkers, Function.update_self, hk,
        DispatchConfig.clientSteps, Nat.sub_zero]
      omega
  | waitLock hk _ =>
      rw [hk] at hpolling
      cases hpolling
  | waitSize hk =>
      rw [hk] at hpolling
      cases hpolling
  | waitEmptied hk =>
      rw [hk] at hpolling
      cases hpolling
  | waitAgain count hk _ =>
      rw [hk] at hpolling
      cases hpolling
  | semaphoreReady j hj hk _ =>
      rw [hk] at hpolling
      cases hpolling
  | semaphoreBlock j hj hk _ =>
      rw [hk] at hpolling
      cases hpolling
  | semaphoreDone j hj hk =>
      rw [hk] at hpolling
      cases hpolling
  | _ =>
      refine hmove _ rfl rfl ?_
      simp only [State.goto, State.ret, State.record, State.storePrivateData, Function.update_self,
        (by assumption : (s.client ()).pc = _), DispatchConfig.clientSteps, List.length_cons,
        List.length_nil]
      omega

/-- A step that is not a spurious wake-up takes something off the budget. -/
theorem budget_lt (hwait : .wait ∉ d.prog ()) (hs : d.system.Reachable s) {l : Label Unit N}
    (hl : l.spurious = false) (hstep : d.system.step s l = some s') :
    d.budget s' < d.budget s := by
  rcases step_cases hstep with ⟨c, rfl, hclient⟩ | ⟨i, rfl, hworker⟩ |
    ⟨c, i, site, rfl, hk, hw, rfl⟩ | ⟨i, rfl, -, -⟩ | ⟨c, counter, ts, rfl, -, -⟩ |
    ⟨c, i, rfl, -, -⟩
  · cases c
    exact hclient.budget_lt (static_of_reachable hs) hwait (not_polling_of_reachable hwait hs)
  · exact hworker.budget_lt (knows_of_reachable hs i)
  · -- the notification pays for the worker that it wakes
    cases c
    have htally := tally_update (WorkerPc.steps s.quit) s.worker i .woken
    rw [hw] at htally
    rw [DispatchConfig.budget, clientSteps_added, State.deque_added, State.quit_added,
      State.worker_added, DispatchConfig.budget, hk]
    change d.siteSteps (s.client ()).ip site + taskSteps * s.deque.length +
      tally (WorkerPc.steps s.quit) (Function.update s.worker i .woken) < _
    simp only [WorkerPc.steps, DispatchConfig.clientSteps, wakeSteps] at htally ⊢
    omega
  · cases hl
  · cases hl
  · cases hl

/-- Without spurious wake-ups the budget is a potential. -/
theorem descending_budget (hwait : .wait ∉ d.prog ()) (hs : d.system.Reachable s₀) :
    (d.turns s₀).Descending d.budget := by
  intro s a s' hr hstep
  refine Or.inr (budget_lt hwait (hs.of_scheduled hr) (l := a.label) ?_ hstep)
  cases a <;> rfl

end Steps

end Host
end LibDispatch
