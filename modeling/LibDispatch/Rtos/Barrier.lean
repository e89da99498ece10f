import LibDispatch.Library.BitMask
import LibDispatch.Library.Tally
import LibDispatch.Rtos.DispatchSteps

/-!
# Waiting for the FreeRTOS dispatch queue

{lit}`dispatch_queue_wait` waits until the queue is empty and then until the ready bits of all
workers are set.  A worker takes a task from the queue before it clears its ready bit, so
in between the queue is empty, the bit is set, and the task was not run.  The wait is a
barrier exactly when no worker is there at the moment the client gets past
{lit}`xEventGroupWaitBits`.

Main results:

- Theorem {lit}`Received.step` and {lit}`received_of_reachable`: the tasks sent are in the queue,
  in the hands of the workers or returned, and the ready bits follow the workers.
- Theorem {lit}`rtos_wait_barrier`: in every run, a wait that returns is a barrier if
  and only if no worker is between the two calls at that moment.
- Theorem {lit}`rtos_wait_returns_early`: it need not be one.
-/

namespace LibDispatch
namespace Rtos

variable {N : Nat} {β υ : Type}

/-! ## What the position of a worker says -/

/-- The task that a worker has received and whose function has not returned. -/
def WorkerPc.pending : WorkerPc → Option Nat
  | .clearBit t | .perform t | .running t => some t
  | _ => none

/-- The ready bit of the worker is set. -/
def WorkerPc.isReady : WorkerPc → Bool
  | .receive | .clearBit _ => true
  | _ => false

/-- The worker has received a task and not yet cleared its ready bit. -/
def WorkerPc.taking : WorkerPc → Bool
  | .clearBit _ => true
  | _ => false

/-- The weight of a worker that has received {lit}`t` and not finished its function. -/
def WorkerPc.weight (t : Nat) (pc : WorkerPc) : Nat :=
  if pc.pending = some t then 1 else 0

/-- The ready bits of {lit}`dispatch_queue_init` are the lowest ones. -/
theorem xReadyBits_eq (threadCount : Nat) :
    xReadyBits threadCount = BitMask.lowMask 32 threadCount :=
  rfl

/-- The ready bit of a worker is one bit. -/
theorem xReadyBit_eq (i : Nat) : xReadyBit i = BitMask.bit 32 i :=
  rfl

/-! ## The invariant -/

/-- The tasks sent are in the queue, received or returned; the ready bits follow the
positions of the workers once they have been set; and the client gets past its first loop
only with an empty queue. -/
structure Received (s : State N β υ) : Prop where
  count : ∀ t, s.history.sent.count t =
    s.xQueue.count t + tally (WorkerPc.weight t) s.worker + s.history.returned.count t
  bits : s.client ≠ .setReadyBits → ∀ i : Fin N,
    s.xEventGroup.getLsbD i = (s.worker i).isReady
  created : s.client = .setReadyBits → s.xQueue = [] ∧ ∀ i, s.worker i = .receive
  emptied : s.client = .waitBits → s.xQueue = []

section Steps

variable {d : DispatchConfig N β υ} {s s' : State N β υ} {i : Fin N}

/-- Steps of the client that send nothing. -/
theorem Received.client_frame (h : Received s) (hqueue : s'.xQueue = s.xQueue)
    (hsent : s'.history.sent = s.history.sent)
    (hreturned : s'.history.returned = s.history.returned) (hworker : s'.worker = s.worker)
    (hbits : s'.xEventGroup = s.xEventGroup) (hclient : s.client ≠ .setReadyBits)
    (hclient' : s'.client ≠ .setReadyBits) (hwait : s'.client = .waitBits → s.xQueue = []) :
    Received s' where
  count t := by rw [hqueue, hsent, hreturned, hworker]; exact h.count t
  bits _ i := by rw [hbits, hworker]; exact h.bits hclient i
  created hinit := absurd hinit hclient'
  emptied hw := by rw [hqueue]; exact hwait hw

/-- A step of the client keeps the invariant. -/
theorem Received.client_step (h : Received s) (hstep : ClientStep d s s') : Received s' := by
  cases hstep with
  | setReadyBits hk =>
      rcases h.created hk with ⟨-, hworker⟩
      refine ⟨h.count, fun _ i => ?_, (by rintro ⟨⟩), (by rintro ⟨⟩)⟩
      change (s.xEventGroup ||| xReadyBits N).getLsbD i = (s.worker i).isReady
      rw [xReadyBits_eq, BitVec.getLsbD_or, BitMask.getLsbD_lowMask d.threadCount_le, hworker i]
      simp [WorkerPc.isReady]
  | send t site hk hroom =>
      have hclient : s.client ≠ .setReadyBits := by simp [hk]
      have hcount : ∀ t', (s.history.sent ++ [t]).count t' =
          (s.xQueue ++ [t]).count t' + tally (WorkerPc.weight t') s.worker +
            s.history.returned.count t' := by
        intro t'
        rw [List.count_append, List.count_append, h.count t']
        omega
      cases site with
      | task =>
          exact ⟨hcount, fun _ => h.bits hclient, (by rintro ⟨⟩), (by rintro ⟨⟩)⟩
      | member g i counter =>
          exact ⟨hcount, fun _ => h.bits hclient, (by rintro ⟨⟩), (by rintro ⟨⟩)⟩
  | waitEmptied hk hqueue =>
      exact h.client_frame rfl rfl rfl rfl rfl (by simp [hk]) (by simp [State.goto])
        fun _ => List.length_eq_zero_iff.mp hqueue
  | _ =>
      exact h.client_frame rfl rfl rfl rfl rfl 
        (by rw [(by assumption : s.client = _)]; simp) (by rintro ⟨⟩) (by rintro ⟨⟩)

/-- No worker moves before the ready bits are set. -/
theorem Received.started (h : Received s) (hstep : WorkerStep s i s') :
    s.client ≠ .setReadyBits := by
  intro hinit
  rcases h.created hinit with ⟨hempty, hworker⟩
  have hi := hworker i
  cases hstep with
  | receive t rest _ hqueue =>
      rw [hempty] at hqueue
      cases hqueue
  | _ =>
      rw [(by assumption : s.worker i = _)] at hi
      cases hi

/-- Steps of a worker that keep the count and set or clear at most its own bit. -/
theorem Received.worker_move (h : Received s) {pc : WorkerPc}
    (hstarted : s.client ≠ .setReadyBits) (hworker : s'.worker = Function.update s.worker i pc)
    (hclient : s'.client = s.client) (hsent : s'.history.sent = s.history.sent)
    (hcount : ∀ t, s'.xQueue.count t + pc.weight t + s'.history.returned.count t =
      s.xQueue.count t + (s.worker i).weight t + s.history.returned.count t)
    (hqueue : s.xQueue = [] → s'.xQueue = [])
    (hbits : ∀ j : Fin N, s'.xEventGroup.getLsbD j =
      if j = i then pc.isReady else s.xEventGroup.getLsbD j) : Received s' := by
  refine ⟨fun t => ?_, fun _ j => ?_, fun hinit => ?_, fun hw => ?_⟩
  · have htally := tally_update (WorkerPc.weight t) s.worker i pc
    have hold := h.count t
    have hnew := hcount t
    rw [hsent, hworker]
    omega
  · rw [hbits j, hworker]
    by_cases hj : j = i
    · subst hj
      simp
    · simpa [hj] using h.bits hstarted j
  · exact absurd (hclient ▸ hinit) hstarted
  · exact hqueue (h.emptied (hclient ▸ hw))

/-- A step of a worker keeps the invariant. -/
theorem Received.worker_step (h : Received s) (hN : N ≤ 32) (hstep : WorkerStep s i s') :
    Received s' := by
  have hstarted := h.started hstep
  have hi : (i : Nat) < 32 := by omega
  -- steps that leave the event group alone
  have hsame : ∀ pc : WorkerPc, pc.isReady = (s.worker i).isReady → ∀ j : Fin N,
      s.xEventGroup.getLsbD j = if j = i then pc.isReady else s.xEventGroup.getLsbD j := by
    intro pc hpc j
    by_cases hj : j = i
    · subst hj
      rw [if_pos rfl, hpc]
      exact h.bits hstarted j
    · rw [if_neg hj]
  cases hstep with
  | receive t rest hk hqueue =>
      refine h.worker_move hstarted rfl rfl rfl (fun t' => ?_) ?_
        (hsame _ (by rw [hk]; rfl))
      · simp only [State.workerGoto, hk, hqueue, WorkerPc.weight, WorkerPc.pending,
          List.count_cons, Option.some.injEq, beq_iff_eq, reduceCtorEq, if_false]
        omega
      · intro hempty
        rw [hempty] at hqueue
        cases hqueue
  | clearBit t hk =>
      refine h.worker_move hstarted rfl rfl rfl (fun t' => ?_) id
        (fun j => ?_)
      · simp [State.workerGoto, hk, WorkerPc.weight, WorkerPc.pending]
      · change (s.xEventGroup &&& ~~~ xReadyBit i).getLsbD j = _
        rw [xReadyBit_eq, BitMask.getLsbD_clear _ hi]
        by_cases hj : j = i
        · simp [hj, WorkerPc.isReady]
        · have hne : (j : Nat) ≠ i := fun heq => hj (Fin.ext heq)
          simp [hj, hne]
  | running t hk =>
      refine h.worker_move hstarted rfl rfl rfl (fun t' => ?_) id
        (hsame _ (by rw [hk]; rfl))
      simp only [State.workerGoto, State.record, hk, WorkerPc.weight, WorkerPc.pending,
        List.count_append, List.count_singleton, Option.some.injEq, beq_iff_eq, reduceCtorEq,
        if_false]
      omega
  | setBit hk =>
      refine h.worker_move hstarted rfl rfl rfl (fun t' => ?_) id
        (fun j => ?_)
      · simp [State.workerGoto, hk, WorkerPc.weight, WorkerPc.pending]
      · change (s.xEventGroup ||| xReadyBit i).getLsbD j = _
        rw [xReadyBit_eq, BitMask.getLsbD_set _ hi]
        by_cases hj : j = i
        · simp [hj, WorkerPc.isReady]
        · have hne : (j : Nat) ≠ i := fun heq => hj (Fin.ext heq)
          simp [hj, hne]
  | _ =>
      refine h.worker_move hstarted rfl rfl rfl (fun t' => ?_) id
        (hsame _ (by rw [(by assumption : s.worker i = _)]; rfl))
      simp [State.workerGoto, State.record, State.setCounter, WorkerPc.weight,
        WorkerPc.pending, (by assumption : s.worker i = _)]

theorem received_init (d : DispatchConfig N β υ) : Received d.system.init where
  count t := by
    have hzero : tally (WorkerPc.weight t) d.system.init.worker = 0 := by
      rw [tally_eq_zero_iff]
      intro i
      rfl
    rw [hzero]
    rfl
  bits hne := absurd rfl hne
  created _ := ⟨rfl, fun _ => rfl⟩
  emptied hw := by cases hw

/-- The tasks sent are accounted for in every reachable state. -/
theorem received_of_reachable (hs : d.system.Reachable s) : Received s := by
  refine hs.invariant (received_init d) ?_
  intro s p s' _ h hstep
  cases p with
  | client => exact h.client_step (clientStep_of_step hstep)
  | worker i => exact h.worker_step d.threadCount_le (workerStep_of_step hstep).2

end Steps

/-! ## The barrier -/

section Barrier

variable {d : DispatchConfig N β υ} {s₁ s₂ s₃ : State N β υ}

/-- The client is in {lit}`dispatch_queue_wait`, or about to call it. -/
def ClientPc.waiting : ClientPc → Bool
  | .ready | .waitEmpty | .waitBits => true
  | _ => false

/-- A worker moves neither the client nor what it has sent. -/
theorem WorkerStep.client_eq {s s' : State N β υ} {i : Fin N} (h : WorkerStep s i s') :
    s'.client = s.client ∧ s'.ip = s.ip ∧ s'.history.sent = s.history.sent := by
  cases h <;> exact ⟨rfl, rfl, rfl⟩

/-- A step of the client at a wait stays in it and sends nothing, or it is the return. -/
theorem ClientStep.wait_cases {s s' : State N β υ} (h : ClientStep d s s')
    (hcall : d.prog[s.ip]? = some .wait) (hk : s.client.waiting = true) :
    (s'.client.waiting = true ∧ s'.ip = s.ip ∧ s'.history.sent = s.history.sent) ∨
    (s.client = .waitBits ∧ s' = s.ret ∧ s.xEventGroup &&& xReadyBits N = xReadyBits N) := by
  have hother : ∀ call, call ≠ .wait → d.prog[s.ip]? ≠ some call := by
    intro call hne heq
    rw [hcall] at heq
    exact hne (Option.some.inj heq).symm
  cases h with
  | wait _ _ => exact Or.inl ⟨rfl, rfl, rfl⟩
  | waitAgain _ _ => exact Or.inl ⟨rfl, rfl, rfl⟩
  | waitEmptied _ _ => exact Or.inl ⟨rfl, rfl, rfl⟩
  | waitBits hk' hbits => exact Or.inr ⟨hk', rfl, hbits⟩
  | taskAddWaitable t _ hc _ => exact absurd hc (hother _ (by simp))
  | taskAddPlain t _ hc _ => exact absurd hc (hother _ (by simp))
  | groupAddWaitable g _ hc _ => exact absurd hc (hother _ (by simp))
  | groupAddPlain g _ hc _ => exact absurd hc (hother _ (by simp))
  | taskWait t c _ hc _ _ => exact absurd hc (hother _ (by simp))
  | groupWait g t c ts _ hc _ _ _ => exact absurd hc (hother _ (by simp))
  | delete _ hc => exact absurd hc (hother _ (by simp))
  | _ =>
      rw [(by assumption : s.client = _)] at hk
      cases hk

/-- The number of calls made does not decrease. -/
theorem ClientStep.ip_mono {s s' : State N β υ} (h : ClientStep d s s') : s.ip ≤ s'.ip := by
  cases h with
  | send t site _ _ =>
      cases site with
      | task => exact Nat.le_succ s.ip
      | member g i counter => exact Nat.le_refl s.ip
  | groupDone _ _ _ _ _ => exact Nat.le_succ s.ip
  | deleteDone _ => exact Nat.le_succ s.ip
  | waitBits _ _ => exact Nat.le_succ s.ip
  | deleteQueue _ => exact Nat.le_succ s.ip
  | _ => exact Nat.le_refl s.ip

/-- As long as the wait has not returned, the client sends nothing. -/
theorem waiting_of_steps (hs : d.system.Reachable s₁) (hk : s₁.client = .ready)
    (hcall : d.prog[s₁.ip]? = some .wait) (hsteps : d.system.Steps s₁ s₂) :
    s₁.ip ≤ s₂.ip ∧ (s₂.ip = s₁.ip →
      s₂.client.waiting = true ∧ s₂.history.sent = s₁.history.sent) := by
  refine hsteps.invariant (P := fun s => s₁.ip ≤ s.ip ∧ (s.ip = s₁.ip →
    s.client.waiting = true ∧ s.history.sent = s₁.history.sent)) hs ?_ ?_
  · exact ⟨Nat.le_refl _, fun _ => ⟨by rw [hk]; rfl, rfl⟩⟩
  · rintro s p s' _ ⟨hle, hsame⟩ hstep
    cases p with
    | worker i =>
        rcases (workerStep_of_step hstep).2.client_eq with ⟨hclient, hip, hsent⟩
        rw [hclient, hip, hsent]
        exact ⟨hle, hsame⟩
    | client =>
        have hstep := clientStep_of_step hstep
        have hmono := hstep.ip_mono
        refine ⟨hle.trans hmono, fun hip => ?_⟩
        have hip' : s.ip = s₁.ip := by omega
        rcases hsame hip' with ⟨hwaiting, hsent⟩
        rcases hstep.wait_cases (by rw [hip']; exact hcall) hwaiting with
          ⟨hwaiting', -, hsent'⟩ | ⟨-, rfl, -⟩
        · exact ⟨hwaiting', hsent'.trans hsent⟩
        · have hnext : s.ip + 1 = s₁.ip := hip
          omega

/-- When the queue is empty and all ready bits are set, the tasks sent have returned
unless a worker has just taken one. -/
theorem Received.returned_iff {s : State N β υ} (h : Received s) (hN : N ≤ 32)
    (hk : s.client = .waitBits) (hbits : s.xEventGroup &&& xReadyBits N = xReadyBits N) :
    (∀ t, s.history.sent.count t ≤ s.history.returned.count t) ↔
      ∀ i, (s.worker i).taking = false := by
  have hempty := h.emptied hk
  have hready : ∀ i : Fin N, (s.worker i).isReady = true := by
    intro i
    rw [← h.bits (by simp [hk]) i]
    rw [xReadyBits_eq, BitMask.and_lowMask_eq_iff _ hN] at hbits
    exact hbits i i.isLt
  constructor
  · intro hreturned i
    by_contra htaking
    cases hw : s.worker i with
    | clearBit t =>
        have hpos : 0 < tally (WorkerPc.weight t) s.worker := by
          rw [tally_pos_iff]
          exact ⟨i, by simp [hw, WorkerPc.weight, WorkerPc.pending]⟩
        have hcount := h.count t
        have hle := hreturned t
        omega
    | _ =>
        rw [hw] at htaking
        exact htaking rfl
  · intro hidle t
    have hzero : tally (WorkerPc.weight t) s.worker = 0 := by
      rw [tally_eq_zero_iff]
      intro i
      have hi := hready i
      have hi' := hidle i
      cases hw : s.worker i with
      | receive => rfl
      | clearBit t' =>
          rw [hw] at hi'
          cases hi'
      | _ =>
          rw [hw] at hi
          cases hi
    have hcount := h.count t
    rw [hempty, hzero] at hcount
    simp only [List.count_nil] at hcount
    omega

/-- In every run: when a call of {lit}`dispatch_queue_wait`, made in {lit}`s₁`, returns by the
step from {lit}`s₂` to {lit}`s₃`, every task that was sent before the call has returned, as often
as it was sent, if and only if no worker is between {lit}`xQueueReceive` and
{lit}`xEventGroupClearBits` at that step. -/
theorem rtos_wait_barrier (d : DispatchConfig N β υ) (hs : d.system.Reachable s₁)
    (hk : s₁.client = .ready) (hcall : d.prog[s₁.ip]? = some .wait)
    (hsteps : d.system.Steps s₁ s₂) (hip : s₂.ip = s₁.ip)
    (hstep : d.system.step s₂ .client = some s₃) (hret : s₃.ip = s₁.ip + 1) :
    (∀ t, s₁.history.sent.count t ≤ s₃.history.returned.count t) ↔
      ∀ i, (s₂.worker i).taking = false := by
  rcases (waiting_of_steps hs hk hcall hsteps).2 hip with ⟨hwaiting, hsent⟩
  rcases (clientStep_of_step hstep).wait_cases (by rw [hip]; exact hcall) hwaiting with
    ⟨-, hip', -⟩ | ⟨hat, rfl, hbits⟩
  · omega
  · rw [← hsent]
    exact (received_of_reachable (hs.steps hsteps)).returned_iff d.threadCount_le hat hbits

end Barrier

/-! ## One task and one worker -/

/-- A client adds one task and waits for the queue. -/
def oneTask : DispatchConfig 1 Unit Nat where
  length := 1
  length_pos := Nat.one_pos
  threadCount_pos := Nat.one_pos
  threadCount_le := one_le_width
  prog := [.taskAdd 0, .wait]
  heap := ⟨fun _ => dispatchTaskInit (fun _ n => n + 1) () false, fun _ => ⟨0, false, []⟩⟩
  user := 0

/-- The state after a schedule that can be executed. -/
def oneTaskAfter (schedule : List (Party 1))
    (h : (oneTask.system.run oneTask.system.init schedule).isSome = true) : State 1 Unit Nat :=
  (oneTask.system.run oneTask.system.init schedule).get h

/-- The client has sent its task and is about to wait. -/
def oneTaskSent : List (Party 1) :=
  [.client, .client, .client]

/-- The worker runs the task and the client gets past the first loop of the wait. -/
def oneTaskDone : List (Party 1) :=
  [.worker 0, .worker 0, .worker 0, .worker 0, .worker 0, .worker 0, .worker 0, .client,
    .client]

/-- The wait returns after the task has returned. -/
theorem rtos_wait_barrier_oneTask :
    (∀ t, (oneTaskAfter oneTaskSent (by decide)).history.sent.count t ≤
      (oneTaskAfter (oneTaskSent ++ oneTaskDone ++ [.client])
        (by decide)).history.returned.count t) ↔
      ∀ i, ((oneTaskAfter (oneTaskSent ++ oneTaskDone) (by decide)).worker i).taking =
        false := by
  have hdone : oneTask.system.run (oneTaskAfter oneTaskSent (by decide)) oneTaskDone =
      some (oneTaskAfter (oneTaskSent ++ oneTaskDone) (by decide)) := rfl
  exact rtos_wait_barrier oneTask (oneTask.system.reachable_get_run oneTaskSent (by decide))
    rfl rfl (System.Steps.of_run hdone) rfl rfl rfl

/-- The worker takes the task; the client finds the queue empty and the ready bit set. -/
def oneTaskTaken : List (Party 1) :=
  [.worker 0, .client, .client]

/-- The wait can return while a task that was sent before it is in the hands of a
worker. -/
theorem rtos_wait_returns_early :
    ¬ ∀ s₁ s₂ s₃ : State 1 Unit Nat, oneTask.system.Reachable s₁ → s₁.client = .ready →
      oneTask.prog[s₁.ip]? = some .wait → oneTask.system.Steps s₁ s₂ → s₂.ip = s₁.ip →
      oneTask.system.step s₂ .client = some s₃ → s₃.ip = s₁.ip + 1 →
      ∀ t, s₁.history.sent.count t ≤ s₃.history.returned.count t := by
  intro hclaim
  have htaken : oneTask.system.run (oneTaskAfter oneTaskSent (by decide)) oneTaskTaken =
      some (oneTaskAfter (oneTaskSent ++ oneTaskTaken) (by decide)) := rfl
  have hle := hclaim (oneTaskAfter oneTaskSent (by decide))
    (oneTaskAfter (oneTaskSent ++ oneTaskTaken) (by decide))
    (oneTaskAfter (oneTaskSent ++ oneTaskTaken ++ [.client]) (by decide))
    (oneTask.system.reachable_get_run oneTaskSent (by decide)) rfl rfl
    (System.Steps.of_run htaken) rfl rfl rfl 0
  exact absurd hle (by decide)

end Rtos
end LibDispatch
