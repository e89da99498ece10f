import LibDispatch.Library.Rounds
import LibDispatch.Metal.Deadlock
import LibDispatch.Metal.QueueBudget

/-!
# How many steps a program takes on bare metal

The steps that are still to be made, outside the queue functions, are counted from the calls
that the client has not made, the position in the current one, and the positions of the
workers.  A task that was not called yet pays for the statements of {lit}`run_task` that follow
the call, and for the next {lit}`queue_receive` of the worker that runs it.  Together with the
budget of the queue functions this is a potential, as long as the client neither deletes the
queue nor polls in {lit}`dispatch_queue_wait`.

Main results:

- Theorem {lit}`DispatchStep.localSteps_lt`: every step over the atomic queue takes something
  off the budget of the dispatch queue.
- Theorem {lit}`budget_lt`: so does every step over the queue of the source.
-/

namespace LibDispatch
namespace Metal

variable {N : Nat} {β υ : Type}

/-! ## The budget -/

/-- The steps of a call of {lit}`queue_send` or {lit}`queue_receive`, the call included. -/
def queueSteps (N : Nat) : Nat :=
  26 + 10 * N

/-- The steps that the call of a task's function leads to. -/
def taskSteps (N : Nat) : Nat :=
  10 + queueSteps N

/-- The steps of adding a task to the queue. -/
def addSteps (N : Nat) : Nat :=
  2 + N + queueSteps N

/-- The steps from a position in {lit}`run_task`, if {lit}`before` are still to be made while the
function was not called, and {lit}`after` when {lit}`run_task` has returned. -/
def RunPc.steps (before after : Nat) : RunPc Unit → Nat
  | .perform => 1 + before
  | .running => 7 + after
  | .testWaitable => 6 + after
  | .readCounter => 5 + after
  | .signalLock _ => 4 + after
  | .decrement _ => 3 + after
  | .signalUnlock _ _ => 2 + after
  | .delete | .sendToken _ => 1 + after

/-- The steps of a worker until it receives again. -/
def WorkerPc.steps (N : Nat) : WorkerPc Unit → Nat
  | .start | .setReady => 3 + queueSteps N
  | .receive => 2 + queueSteps N
  | .setBusy _ => 2
  | .run _ at_ => at_.steps 0 (3 + queueSteps N)
  | .freeCend => 1
  | .exited => 0

/-- The steps of a call of the client. -/
def DispatchConfig.callSteps (d : DispatchConfig Unit N β υ) : DispatchCall → Nat
  | .taskAdd _ => addSteps N
  | .groupAdd g => 2 + addSteps N * (d.heap.group g).count
  | .taskWait _ => 5
  | .groupWait g => 4 + (d.heap.group g).count
  | .wait | .delete => 0

/-- The steps of the calls after the first {lit}`ip`. -/
def DispatchConfig.restSteps (d : DispatchConfig Unit N β υ) (ip : Nat) : Nat :=
  ((d.prog ()).drop ip).foldr (fun call rest => d.callSteps call + rest) 0

/-- The steps of the {lit}`ip`-th call after a task was added, and of the calls after it. -/
def DispatchConfig.siteSteps (d : DispatchConfig Unit N β υ) (ip : Nat) : AddSite Unit → Nat
  | .task => d.restSteps (ip + 1)
  | .member g i _ =>
      1 + addSteps N * ((d.heap.group g).count - (i + 1)) + d.restSteps (ip + 1)

/-- The steps of the {lit}`ip`-th call from a position of it, and of the calls after it. -/
def DispatchConfig.clientSteps (d : DispatchConfig Unit N β υ) (ip : Nat) :
    ClientPc Unit → Nat
  | .ready => d.restSteps ip
  | .groupLoop g i _ => 1 + addSteps N * ((d.heap.group g).count - i) + d.restSteps (ip + 1)
  | .addScan _ site i _ => 1 + (N - i) + queueSteps N + d.siteSteps ip site
  | .pitch _ site at_ => at_.steps (d.siteSteps ip site) (d.siteSteps ip site)
  | .send _ site => queueSteps N + d.siteSteps ip site
  | .checkToken _ ts => 3 + ts.length + d.restSteps (ip + 1)
  | .deleteCounter _ ts => 2 + ts.length + d.restSteps (ip + 1)
  | .deleteTasks ts => 1 + ts.length + d.restSteps (ip + 1)
  | .waitScan _ _ | .waitSize _ | .freeObject _ => 0

/-- The steps of a thread outside the queue functions. -/
def DispatchConfig.localSteps (d : DispatchConfig Unit N β υ) : Local Unit → Nat
  | .client ip pc => d.clientSteps ip pc
  | .worker pc => pc.steps N

/-- The number of tasks that the client adds. -/
def DispatchConfig.taskCount (d : DispatchConfig Unit N β υ) : Nat :=
  ((d.prog ()).flatMap (DispatchCall.tasks d.heap)).length

/-- The steps that the tasks lead to which were not called yet. -/
def DispatchConfig.uncalledSteps (d : DispatchConfig Unit N β υ) (env : Env Unit N β υ) : Nat :=
  taskSteps N * (d.taskCount - env.history.called.length)

/-- The program neither polls nor deletes the queue. -/
def DispatchConfig.Blocking (d : DispatchConfig Unit N β υ) : Prop :=
  .wait ∉ d.prog () ∧ .delete ∉ d.prog ()

/-! ## Steps over the atomic queue -/

section Steps

variable {d : DispatchConfig Unit N β υ}
  {a a' : AtomicState (Unit ⊕ Fin N) Nat (Local Unit) (Env Unit N β υ)} {u : Unit ⊕ Fin N}
  {t ip : Nat} {site : AddSite Unit}

/-- The next call is taken off the rest. -/
theorem restSteps_of_call {call : DispatchCall} (hcall : (d.prog ())[ip]? = some call) :
    d.restSteps ip = d.callSteps call + d.restSteps (ip + 1) := by
  rcases List.getElem?_eq_some_iff.mp hcall with ⟨hlt, rfl⟩
  rw [DispatchConfig.restSteps, List.drop_eq_getElem_cons hlt, List.foldr_cons]
  rfl

theorem localSteps_next (site : AddSite Unit) :
    d.localSteps (site.next ip) = d.siteSteps ip site := by
  cases site <;> rfl

theorem clientSteps_addEntry (ip t : Nat) (site : AddSite Unit) :
    d.clientSteps ip (d.addEntry t site) ≤ 1 + N + queueSteps N + d.siteSteps ip site := by
  unfold DispatchConfig.addEntry
  split
  · simp [DispatchConfig.clientSteps]
  · simp only [DispatchConfig.clientSteps]
    omega

/-- No task is called more often than it is added. -/
theorem called_length_le (ha : d.atomicThreads.Reachable a) :
    a.env.history.called.length ≤ d.taskCount := by
  have hledger := ledger_of_reachable ha
  have htracked := tracked_of_reachable ha
  have hsub : a.env.history.called.Subperm (d.added () (a.thread (.inl ()))) := by
    rw [List.subperm_iff_count]
    intro t
    have hsum := hledger.added t
    have hcalled := hledger.called t
    have hle : tally (Local.weight RunPc.called t) a.thread ≤
        tally (Local.holding t) a.thread :=
      tally_le_tally fun u => Local.weight_le_holding RunPc.called t (a.thread u)
    omega
  exact hsub.length_le.trans htracked.prefix_added.length_le

/-- A statement of {lit}`run_task` takes something off the budget, and the call of the function
pays for the statements after it. -/
theorem RunStep.steps_lt {env env' : Env Unit N β υ} {at_ : RunPc Unit}
    {r : Option (RunPc Unit)} (h : RunStep u env t at_ env' r) (before after : Nat)
    (hafter : after ≤ before + (3 + queueSteps N))
    (hcount : env'.history.called.length ≤ d.taskCount) :
    r.elim after (RunPc.steps before after) + d.uncalledSteps env' <
      at_.steps before after + d.uncalledSteps env := by
  cases h with
  | perform =>
      simp only [List.length_append, List.length_singleton] at hcount
      have hcalled : d.taskCount - env.history.called.length =
          d.taskCount - (env.history.called.length + 1) + 1 := by omega
      simp only [Option.elim_some, RunPc.steps, DispatchConfig.uncalledSteps, hcalled,
        List.length_append, List.length_singleton, Nat.mul_succ, taskSteps]
      omega
  | _ =>
      simp only [Option.elim_some, Option.elim_none, RunPc.steps, DispatchConfig.uncalledSteps,
        Env.setCounter]
      omega

/-- A thread that runs a task. -/
theorem RunStep.localSteps_lt {env env' : Env Unit N β υ} {at_ : RunPc Unit}
    {r : Option (RunPc Unit)} {k : Local Unit} (h : RunStep u env t at_ env' r)
    (hrun : k.runAt = some (t, at_)) (hcount : env'.history.called.length ≤ d.taskCount) :
    d.localSteps (k.runNext r) + d.uncalledSteps env' <
      d.localSteps k + d.uncalledSteps env := by
  cases k with
  | client ip pc =>
      cases pc with
      | pitch t' site at' =>
          cases hrun
          have hlt := h.steps_lt (d.siteSteps ip site) _ (Nat.le_add_right _ _) hcount
          cases r with
          | none =>
              change d.localSteps (site.next ip) + _ < _
              rw [localSteps_next]
              exact hlt
          | some at'' => exact hlt
      | _ => cases hrun
  | worker pc =>
      cases pc with
      | run t' at' =>
          cases hrun
          have hlt := h.steps_lt 0 _ (Nat.le_add_left _ _) hcount
          cases r <;> exact hlt
      | _ => cases hrun

/-- Every step over the atomic queue takes something off the budget, and a call of a queue
function what it costs. -/
theorem DispatchStep.localSteps_lt (h : DispatchStep d a u a') (htracked : Tracked d a)
    (hblocking : d.Blocking) (hcount : a'.env.history.called.length ≤ d.taskCount) :
    d.localSteps (a'.thread u) + d.uncalledSteps a'.env <
      d.localSteps (a.thread u) + d.uncalledSteps a.env := by
  have hclient : ∀ {c ip pc}, a.thread (.inl c) = .client ip pc → d.ClientAt () ip pc :=
    fun hk => htracked.clientAt hk
  have hmove : ∀ (u : Unit ⊕ Fin N) (k k' : Local Unit) (env : Env Unit N β υ),
      a.thread u = k → env.history.called = a.env.history.called →
      d.localSteps k' < d.localSteps k →
      d.localSteps (Function.update a.thread u k' u) + d.uncalledSteps env <
        d.localSteps (a.thread u) + d.uncalledSteps a.env := by
    intro u k k' env hk hcalled hlt
    rw [Function.update_self, hk, DispatchConfig.uncalledSteps, hcalled]
    exact Nat.add_lt_add_right hlt _
  -- the start of a call
  have hstart : ∀ (c : Unit) (ip : Nat) (call : DispatchCall) (pc : ClientPc Unit)
      (env : Env Unit N β υ), a.thread (.inl c) = .client ip .ready →
      (d.prog ())[ip]? = some call → env.history.called = a.env.history.called →
      d.clientSteps ip pc < d.callSteps call + d.restSteps (ip + 1) →
      d.localSteps (Function.update a.thread (.inl c) (.client ip pc) (.inl c)) +
          d.uncalledSteps env <
        d.localSteps (a.thread (.inl c)) + d.uncalledSteps a.env := by
    intro c ip call pc env hk hcall hcalled hlt
    rw [← restSteps_of_call hcall] at hlt
    exact hmove _ _ _ _ hk hcalled hlt
  cases h with
  | run u t at_ env' r hrun hstep =>
      simpa using hstep.localSteps_lt hrun hcount
  | send c ip t site hk _ =>
      refine hmove _ _ (site.next ip) _ hk rfl ?_
      rw [localSteps_next]
      simp only [DispatchConfig.localSteps, DispatchConfig.clientSteps, queueSteps]
      omega
  | sizeZero c ip busy hk _ => exact absurd (List.mem_of_getElem? (hclient hk)) hblocking.1
  | sizeAgain c ip busy hk _ => exact absurd (List.mem_of_getElem? (hclient hk)) hblocking.1
  | waitRead c ip i busy _ hk => exact absurd (List.mem_of_getElem? (hclient hk)) hblocking.1
  | waitAll c ip i busy _ hk => exact absurd (List.mem_of_getElem? (hclient hk)) hblocking.1
  | wait c ip hk hcall => exact absurd (List.mem_of_getElem? hcall) hblocking.1
  | freeObject c ip object k hk _ =>
      exact absurd (List.mem_of_getElem? (hclient hk)) hblocking.2
  | taskAddWaitable c ip t hk hcall _ =>
      refine hstart _ _ _ _ _ hk hcall rfl ?_
      have hle := clientSteps_addEntry (d := d) ip t .task
      simp only [DispatchConfig.callSteps, DispatchConfig.siteSteps, addSteps] at hle ⊢
      omega
  | taskAddPlain c ip t hk hcall _ =>
      refine hstart _ _ _ _ _ hk hcall rfl ?_
      have hle := clientSteps_addEntry (d := d) ip t .task
      simp only [DispatchConfig.callSteps, DispatchConfig.siteSteps, addSteps] at hle ⊢
      omega
  | groupAddWaitable c ip g hk hcall _ =>
      refine hstart _ _ _ _ _ hk hcall rfl ?_
      simp only [DispatchConfig.clientSteps, DispatchConfig.callSteps, Nat.sub_zero]
      omega
  | groupAddPlain c ip g hk hcall _ =>
      refine hstart _ _ _ _ _ hk hcall rfl ?_
      simp only [DispatchConfig.clientSteps, DispatchConfig.callSteps, Nat.sub_zero]
      omega
  | taskWait c ip t counter hk hcall _ =>
      refine hstart _ _ _ _ _ hk hcall rfl ?_
      simp only [DispatchConfig.clientSteps, DispatchConfig.callSteps, List.length_singleton]
      omega
  | groupWait c ip g t ts counter hk hcall htasks _ =>
      refine hstart _ _ _ _ _ hk hcall rfl ?_
      rw [htracked.group] at htasks
      simp only [DispatchConfig.clientSteps, DispatchConfig.callSteps, Group.count, htasks]
      omega
  | groupStore c ip g i t counter hk htask =>
      rw [htracked.group] at htask
      have hlt : i < (d.heap.group g).count := (List.getElem?_eq_some_iff.mp htask).1
      have hle := clientSteps_addEntry (d := d) ip t (.member g i counter)
      obtain ⟨n, hn⟩ : ∃ n, (d.heap.group g).count - i = n + 1 :=
        ⟨_, (Nat.succ_pred_eq_of_pos (Nat.sub_pos_of_lt hlt)).symm⟩
      refine hmove _ _ (.client ip (d.addEntry t (.member g i counter))) _ hk rfl
        (Nat.lt_of_le_of_lt hle ?_)
      simp only [DispatchConfig.localSteps, DispatchConfig.clientSteps,
        DispatchConfig.siteSteps, Nat.sub_add_eq, hn, Nat.add_sub_cancel, Nat.mul_succ]
      simp only [addSteps]
      omega
  | addRead c ip t site i busy hi hk =>
      refine hmove _ _ _ _ hk rfl ?_
      simp only [Function.update_self, DispatchConfig.localSteps, DispatchConfig.clientSteps]
      omega
  | _ =>
      refine hmove _ _ _ _ (by assumption) rfl ?_
      simp only [Function.update_self, DispatchConfig.localSteps, DispatchConfig.clientSteps,
        WorkerPc.steps, RunPc.steps, queueSteps, List.length_cons, List.length_nil]
      omega

end Steps

/-! ## Steps over the queue of the source -/

/-- The steps of a thread inside a queue function after its return, or what it has left of
those of its local state. -/
def DispatchConfig.settledSteps (d : DispatchConfig Unit N β υ) (k : Local Unit) :
    Option (Result Nat) → Nat
  | none => d.localSteps k - queueSteps N
  | some r => d.localSteps (d.caller.ret (.inl ()) k r)

/-- The steps of a thread apart from those inside the queue functions. -/
def DispatchConfig.threadSteps (d : DispatchConfig Unit N β υ) :
    Thread (Local Unit) Nat → Nat
  | .outside k => d.localSteps k
  | .inside k pc => d.settledSteps k pc.committed

/-- The steps that are still to be made. -/
def DispatchConfig.budget (d : DispatchConfig Unit N β υ) (handshake : Bool)
    (s : State (Unit ⊕ Fin N) (Option (Fin N)) Nat (Local Unit) (Env Unit N β υ)) : Nat :=
  queueBudget (dispatchWiring Unit N handshake) s + tally d.threadSteps s.thread +
    d.uncalledSteps s.env

/-- The steps of a whole program. -/
def DispatchConfig.steps (d : DispatchConfig Unit N β υ) : Nat :=
  d.restSteps 0 + N * (3 + queueSteps N) + taskSteps N * d.taskCount

section Threads

variable {d : DispatchConfig Unit N β υ} {handshake : Bool}
  {s s' : State (Unit ⊕ Fin N) (Option (Fin N)) Nat (Local Unit) (Env Unit N β υ)}
  {u : Unit ⊕ Fin N}

theorem budget_init : d.budget handshake (d.threads handshake).init = d.steps := by
  have hthreads : tally d.threadSteps (d.threads handshake).init.thread =
      d.restSteps 0 + N * (3 + queueSteps N) := by
    rw [tally, Fintype.sum_sum_type]
    simp [DispatchConfig.threads, threads, DispatchConfig.threadSteps, dispatchStart,
      DispatchConfig.localSteps, DispatchConfig.clientSteps, WorkerPc.steps]
  rw [DispatchConfig.budget, hthreads,
    show queueBudget (dispatchWiring Unit N handshake) (d.threads handshake).init = 0 from
      queueBudget_init]
  simp [DispatchConfig.steps, DispatchConfig.uncalledSteps, DispatchConfig.threads, threads,
    DispatchConfig.env, History.empty]

/-- Where a queue function returns to does not depend on the thread. -/
theorem DispatchConfig.ret_eq (k : Local Unit) (r : Result Nat) :
    d.caller.ret u k r = d.caller.ret (.inl ()) k r := by
  cases k with
  | client ip pc => cases pc <;> cases r <;> rfl
  | worker pc => cases pc <;> cases r <;> rfl

theorem threadSteps_resume (k : Local Unit) (c : Control Nat) :
    d.threadSteps (Thread.resume d.caller u k c) = d.settledSteps k c.committed := by
  cases c with
  | goto pc => rfl
  | ret r => exact congrArg d.localSteps (DispatchConfig.ret_eq k r)

/-- A program that neither polls nor deletes only sends and receives. -/
theorem call_cases_of_blocking (hblocking : d.Blocking)
    {a : AtomicState (Unit ⊕ Fin N) Nat (Local Unit) (Env Unit N β υ)}
    (htracked : Tracked d a) {k : Local Unit} (hk : a.thread u = k) {x : Call Nat}
    (h : d.caller.call u k = some x) :
    (∃ c ip t site, u = .inl c ∧ k = .client ip (.send t site) ∧ x = .send t) ∨
      ∃ i, u = .inr i ∧ k = .worker .receive ∧ x = .receive := by
  rcases DispatchConfig.call_cases h with
    ⟨c, ip, -, -, rfl⟩ | hsend | ⟨c, ip, busy, rfl, rfl, -⟩ | hreceive
  · exact absurd h (DispatchConfig.noDelete (fun _ => hblocking.2) u k)
  · exact Or.inl hsend
  · exact absurd (List.mem_of_getElem? (htracked.clientAt hk)) hblocking.1
  · exact Or.inr hreceive

/-- A step inside a queue function leaves the other steps of the thread as they are. -/
theorem settledSteps_le (hblocking : d.Blocking) (hs : (d.threads handshake).Reachable s)
    {k : Local Unit} {pc : Pc Nat} {q' : Queue (Unit ⊕ Fin N) (Option (Fin N)) Nat}
    {c : Control Nat} (hk : s.thread u = .inside k pc)
    (hq : s.queue.step (dispatchWiring Unit N handshake) u pc = some (q', c)) :
    d.settledSteps k c.committed ≤ d.settledSteps k pc.committed := by
  have hundeleted := undeleted_of_reachable (DispatchConfig.noDelete fun _ => hblocking.2) hs
  rcases d.atomic_of_reachable (fun _ => hblocking.2) hs with ⟨a, ha, href⟩
  -- the call that is pending, if any
  have hcall : ∀ x, pc.committed = none → pc.pending = some x →
      (∃ c ip t site, u = .inl c ∧ k = .client ip (.send t site) ∧ x = .send t) ∨
        ∃ i, u = .inr i ∧ k = .worker .receive ∧ x = .receive := by
    intro x hcommitted hpending
    refine call_cases_of_blocking hblocking (tracked_of_reachable ha) ?_
      (calling_of_reachable hs u k pc x hk hpending)
    rw [href.thread, hk]
    change settle d.caller u k pc.committed = k
    rw [hcommitted]
    rfl
  rcases (queueStep_of_step hq).effect with
    ⟨item, rfl, hc⟩ | ⟨item, rfl, hc⟩ | ⟨rfl, -⟩ | ⟨op, rest, rfl, hbyte⟩ | rfl | ⟨hc, -⟩
  · rcases hcall _ rfl rfl with ⟨c, ip, t, site, -, rfl, -⟩ | ⟨i, -, -, h⟩
    · rw [hc]
      change d.localSteps (site.next ip) ≤
        queueSteps N + d.siteSteps ip site - queueSteps N
      rw [localSteps_next, Nat.add_sub_cancel_left]
    · cases h
  · rcases hcall _ rfl rfl with ⟨c, ip, t, site, -, -, h⟩ | ⟨i, -, rfl, -⟩
    · cases h
    · rw [hc]
      change 2 ≤ 2 + queueSteps N - queueSteps N
      omega
  · rcases hcall _ rfl rfl with ⟨c, ip, t, site, -, -, h⟩ | ⟨i, -, -, h⟩ <;> cases h
  · have hsignal := hundeleted.bytes (s.queue.node u).cend .terminate
      (by rw [hbyte]; exact List.mem_cons_self)
    cases hsignal
  · exact absurd rfl (hundeleted.threads u k _ hk)
  · rw [hc]

/-- Every step takes something off the budget. -/
theorem budget_lt (hblocking : d.Blocking) (hs : (d.threads handshake).Reachable s)
    (hstep : (d.threads handshake).step s u = some s') :
    d.budget handshake s' < d.budget handshake s := by
  rcases d.atomic_of_reachable (fun _ => hblocking.2) hs with ⟨a, ha, href⟩
  rcases threads_step_cases hstep with
    ⟨k, c, hk, hcall, rfl⟩ | ⟨k, k', env', hk, hcall, hown, rfl⟩ | ⟨k, pc, q', c, hk, hq, rfl⟩
  · have hview : a.thread u = k := by rw [href.thread, hk, Thread.view_outside]
    have hbudget : queueBudget (dispatchWiring Unit N handshake) { s with
        thread := Function.update s.thread u (.inside k c.entry) } = _ + c.entry.steps _ :=
      queueBudget_outside hk s.env (Call.phase_entry c) (by cases c <;> rfl)
    have htally := tally_update d.threadSteps s.thread u (.inside k c.entry)
    rw [hk] at htally
    have hcard : Fintype.card (Unit ⊕ Fin N) = 1 + N := by simp
    have hcost : d.settledSteps k c.entry.committed + queueSteps N = d.localSteps k ∧
        c.entry.steps (Fintype.card (Unit ⊕ Fin N)) + 1 = queueSteps N := by
      rcases call_cases_of_blocking hblocking (tracked_of_reachable ha) hview hcall with
        ⟨c, ip, t, site, rfl, rfl, rfl⟩ | ⟨i, rfl, rfl, rfl⟩
      · refine ⟨Nat.sub_add_cancel (Nat.le_add_right _ _), ?_⟩
        simp only [Call.entry, Pc.steps, queueSteps, hcard]
        omega
      · refine ⟨Nat.sub_add_cancel (Nat.le_add_left _ _), ?_⟩
        simp only [Call.entry, Pc.steps, queueSteps, hcard]
        omega
    simp only [DispatchConfig.budget]
    change tally _ _ + d.localSteps k = tally _ _ + d.settledSteps k c.entry.committed at htally
    omega
  · have hview : a.thread u = k := by rw [href.thread, hk, Thread.view_outside]
    -- the same step over the atomic queue
    have hatomic : d.atomicThreads.step a u = some { a with
        env := env', thread := Function.update a.thread u k' } := by
      simp [DispatchConfig.atomicThreads, atomicThreads, hview, hcall, href.env, hown]
    have hlt := (dispatchStep_of_step hatomic).localSteps_lt (tracked_of_reachable ha) hblocking
      (called_length_le (ha.step hatomic))
    have hbudget : queueBudget (dispatchWiring Unit N handshake) { s with
        env := env', thread := Function.update s.thread u (.outside k') } = _ + 0 :=
      queueBudget_outside hk env' rfl rfl
    have htally := tally_update d.threadSteps s.thread u (.outside k')
    rw [hk] at htally
    change tally _ _ + d.localSteps k = tally _ _ + d.localSteps k' at htally
    simp only [Function.update_self, hview, href.env] at hlt
    simp only [DispatchConfig.budget]
    omega
  · have hlt := queueBudget_lt (dispatchWiring_injective N handshake)
      (DispatchConfig.noDelete fun _ => hblocking.2) hs hk hq
    have htally := tally_update d.threadSteps s.thread u (Thread.resume d.caller u k c)
    have hle := settledSteps_le hblocking hs hk hq
    rw [threadSteps_resume, hk] at htally
    change _ + d.settledSteps k pc.committed = _ at htally
    simp only [DispatchConfig.budget]
    omega

end Threads

end Metal
end LibDispatch
