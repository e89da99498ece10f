import LibDispatch.ClientModel
import LibDispatch.Rtos.DispatchSteps

/-!
# The client of the FreeRTOS dispatch queue

Every step of the FreeRTOS backend is zero or more moves of the client that
{lit}`ClientModel` describes: a waitable task is given its counter in the statement that
starts {lit}`dispatch_queue_task_add`, a worker never moves the client and deletes only tasks
that are not waitable, and a wait releases all tasks that it waits for.

Main results:

- Theorem {lit}`moves_of_reachable`: the client of a reachable state is reached by moves.
- Theorem {lit}`clientInv_of_reachable`: its bookkeeping is that of the client model.
-/

namespace LibDispatch
namespace Rtos

variable {N : Nat} {β υ : Type}

open Relation (ReflTransGen)

/-- The program of the client. -/
def DispatchConfig.program (d : DispatchConfig N β υ) : Program β υ Nat :=
  ⟨d.prog, d.heap⟩

/-- What the client is doing at a position of its {lit}`ip`-th call. -/
def DispatchConfig.phase (d : DispatchConfig N β υ) (ip : Nat) : ClientPc → ClientPhase
  | .setReadyBits | .ready => .idle
  | .groupLoop g i counter => .adding (.groupAdd g) counter i
  | .send t .task => .pushing (.taskAdd t) (d.program.counter ip (.taskAdd t)) 0 t
  | .send t (.member g i counter) => .pushing (.groupAdd g) counter i t
  | .takeSemaphore c ts => .waiting c ts
  | .deleteSemaphore c ts | .freeCounter c ts => .releasing c ts
  | .deleteTasks ts => .deleting ts
  | _ => .returning

/-- The client of a state.  The tasks that it deletes are the waitable ones. -/
def DispatchConfig.clientState (d : DispatchConfig N β υ) (s : State N β υ) :
    ClientState where
  ip := s.ip
  phase := d.phase s.ip s.client
  data t := (s.heap.task t).privateData
  pushed := s.history.sent
  counterFreed := s.history.counterFreed
  waitFreed := s.history.taskFreed.filter fun t => (d.heap.task t).waitable

/-- What is never changed, and what a worker deletes. -/
structure Static (d : DispatchConfig N β υ) (s : State N β υ) : Prop where
  group : s.heap.group = d.heap.group
  waitable : ∀ t, (s.heap.task t).waitable = (d.heap.task t).waitable
  delete : ∀ i t, s.worker i = .delete t → (d.heap.task t).waitable = false

section Steps

variable {d : DispatchConfig N β υ} {s s' : State N β υ} {i : Fin N}

/-- A store to {lit}`private_data` leaves the flags alone. -/
theorem State.waitable_storePrivateData (s : State N β υ) (t : Nat) (p : Option Nat)
    (t' : Nat) :
    ((s.storePrivateData t p).heap.task t').waitable = (s.heap.task t').waitable := by
  by_cases h : t' = t
  · simp [State.storePrivateData, h]
  · simp [State.storePrivateData, h]

theorem Static.client_step (h : Static d s) (hstep : ClientStep d s s') : Static d s' := by
  cases hstep with
  | taskAddWaitable t _ _ _ =>
      refine ⟨h.group, fun t' => ?_, h.delete⟩
      exact ((s.setCounter s.ip (eventCounterCreate 1)).waitable_storePrivateData t _ t').trans
        (h.waitable t')
  | groupStore g i t counter _ _ =>
      refine ⟨h.group, fun t' => ?_, h.delete⟩
      exact (s.waitable_storePrivateData t counter t').trans (h.waitable t')
  | send t site _ _ =>
      cases site with
      | task => exact ⟨h.group, h.waitable, h.delete⟩
      | member g i counter => exact ⟨h.group, h.waitable, h.delete⟩
  | _ => exact ⟨h.group, h.waitable, h.delete⟩

/-- A worker that goes on, not to delete a task. -/
theorem Static.worker_goto (h : Static d s) (hheap : s'.heap = s.heap) {pc : WorkerPc}
    (hworker : s'.worker = Function.update s.worker i pc)
    (hpc : ∀ t, pc = .delete t → (d.heap.task t).waitable = false) : Static d s' := by
  refine ⟨by rw [hheap]; exact h.group, fun t => by rw [hheap]; exact h.waitable t, ?_⟩
  intro j t hj
  rw [hworker] at hj
  by_cases hji : j = i
  · subst hji
    rw [Function.update_self] at hj
    exact hpc t hj
  · rw [Function.update_of_ne hji] at hj
    exact h.delete j t hj

theorem Static.worker_step (h : Static d s) (hstep : WorkerStep s i s') : Static d s' := by
  cases hstep with
  | testPlain t _ hw =>
      refine h.worker_goto rfl (by rfl) fun t' heq => ?_
      cases heq
      exact (h.waitable t).symm.trans hw
  | _ =>
      refine h.worker_goto rfl (by rfl) fun t' heq => ?_
      cases heq

/-- Flags and groups stay as they were built. -/
theorem static_of_reachable (hs : d.system.Reachable s) : Static d s := by
  refine hs.invariant (P := Static d) ⟨rfl, fun _ => rfl, ?_⟩ ?_
  · intro i t hi
    cases hi
  · intro s a s' _ h hstep
    cases a with
    | client => exact h.client_step (clientStep_of_step hstep)
    | worker i => exact h.worker_step (workerStep_of_step hstep).2

/-! ## Steps are moves -/

/-- A worker does not move the client, and deletes no waitable task. -/
theorem WorkerStep.clientState_eq (h : WorkerStep s i s') (hstatic : Static d s) :
    d.clientState s' = d.clientState s := by
  cases h with
  | delete t hk =>
      simp [DispatchConfig.clientState, State.workerGoto, State.record, List.filter_append,
        hstatic.delete i t hk]
  | _ => rfl

/-- The task that the client deletes next is one that it waited for. -/
theorem awaited_of_deleting
    (hinv : ClientInv d.program (DispatchCall.awaited d.heap) (d.clientState s)) {t : Nat}
    {ts : List Nat} (hk : s.client = .deleteTasks (t :: ts)) :
    ∃ c ts', d.program.Awaits s.ip c ts' ∧ t ∈ ts' := by
  have hposition := hinv.position
  have hphase : (d.clientState s).phase = .deleting (t :: ts) := by
    change d.phase s.ip s.client = _
    rw [hk]
    rfl
  simp only [ClientState.At, hphase] at hposition
  rcases hposition with ⟨call, c, ts', done, hcall, hdone, hawaits⟩
  rcases hawaits.eq_awaited hcall with rfl
  refine ⟨c, _, hawaits, ?_⟩
  change t ∈ DispatchCall.awaited d.heap call
  rw [hdone]
  simp

/-- It is waitable. -/
theorem waitable_of_deleting
    (hinv : ClientInv d.program (DispatchCall.awaited d.heap) (d.clientState s))
    (hd : d.program.Disciplined) (hflags : d.program.FlagsAgree) {t : Nat} {ts : List Nat}
    (hk : s.client = .deleteTasks (t :: ts)) : (d.heap.task t).waitable = true := by
  rcases awaited_of_deleting hinv hk with ⟨c, ts', hawaits, ht⟩
  rcases hd.awaits_call hawaits with ⟨add, hadd, htasks, hcreates, -⟩
  exact (hflags.createsCounter_iff hadd (htasks ▸ ht)).mp hcreates

/-- A step of the client is zero or more moves. -/
theorem ClientStep.moves (h : ClientStep d s s') (hstatic : Static d s)
    (hinv : ClientInv d.program (DispatchCall.awaited d.heap) (d.clientState s))
    (hd : d.program.Disciplined) (hflags : d.program.FlagsAgree) :
    ReflTransGen (ClientMove d.program (DispatchCall.awaited d.heap)) (d.clientState s)
      (d.clientState s') := by
  have hphase : ∀ pc, s.client = pc → (d.clientState s).phase = d.phase s.ip pc := by
    rintro pc rfl
    rfl
  have hstay : ∀ {s' : State N β υ}, d.phase s'.ip s'.client = d.phase s.ip s.client →
      s'.ip = s.ip → s'.heap = s.heap → s'.history.sent = s.history.sent →
      s'.history.counterFreed = s.history.counterFreed →
      s'.history.taskFreed = s.history.taskFreed →
      ReflTransGen (ClientMove d.program (DispatchCall.awaited d.heap)) (d.clientState s)
        (d.clientState s') := by
    intro s' hpc hip hheap hsent hcounter htask
    have heq : d.clientState s' = d.clientState s := by
      unfold DispatchConfig.clientState
      rw [hpc, hip, hheap, hsent, hcounter, htask]
    rw [heq]
  cases h with
  | taskAddWaitable t hk hcall hw =>
      rw [hstatic.waitable] at hw
      refine .head (.add (.taskAdd t) (hphase _ hk) hcall rfl)
        (.head (.next _ _ 0 t rfl rfl) (.single (.store _ _ 0 t _ rfl ?_ ?_)))
      · intro t' ht'
        simp [State.goto, State.storePrivateData, State.setCounter,
          DispatchConfig.clientState, ht']
      · intro c hc
        simp only [Program.counter, DispatchCall.createsCounter, DispatchConfig.program, hw,
          if_true] at hc
        simpa [State.goto, State.storePrivateData, State.setCounter] using hc
  | taskAddPlain t hk hcall hw =>
      rw [hstatic.waitable] at hw
      refine .head (.add (.taskAdd t) (hphase _ hk) hcall rfl)
        (.head (.next _ _ 0 t rfl rfl) (.single (.store _ _ 0 t _ rfl (fun _ _ => rfl) ?_)))
      intro c hc
      simp [Program.counter, DispatchCall.createsCounter, DispatchConfig.program, hw] at hc
  | groupAddWaitable g hk hcall hw =>
      rw [hstatic.group] at hw
      have hmove : ClientMove d.program (DispatchCall.awaited d.heap) (d.clientState s) _ :=
        .add (.groupAdd g) (hphase _ hk) hcall rfl
      have hcounter : d.program.counter (d.clientState s).ip (.groupAdd g) = some s.ip :=
        if_pos hw
      rw [hcounter] at hmove
      exact .single hmove
  | groupAddPlain g hk hcall hw =>
      rw [hstatic.group] at hw
      have hmove : ClientMove d.program (DispatchCall.awaited d.heap) (d.clientState s) _ :=
        .add (.groupAdd g) (hphase _ hk) hcall rfl
      have hcounter : d.program.counter (d.clientState s).ip (.groupAdd g) = none :=
        if_neg (by simp [DispatchCall.createsCounter, DispatchConfig.program, hw])
      rw [hcounter] at hmove
      exact .single hmove
  | taskWait t c hk hcall _ hdata =>
      exact .single (.wait (.taskWait t) t c (hphase _ hk) hcall (List.mem_singleton_self t)
        hdata)
  | groupWait g t c ts hk hcall _ htasks hdata =>
      rw [hstatic.group] at htasks
      have ht := DispatchCall.mem_awaited_of_cons htasks
      have hmove : ClientMove d.program (DispatchCall.awaited d.heap) (d.clientState s) _ :=
        .wait (.groupWait g) t c (hphase _ hk) hcall ht hdata
      rw [show DispatchCall.awaited d.heap (.groupWait g) = t :: ts from htasks] at hmove
      exact .single hmove
  | wait hk hcall =>
      exact .head (.add .wait (hphase _ hk) hcall rfl) (.single (.added _ _ 0 rfl rfl))
  | delete hk hcall =>
      exact .head (.add .delete (hphase _ hk) hcall rfl) (.single (.added _ _ 0 rfl rfl))
  | groupDone g i counter hk hend =>
      rw [hstatic.group] at hend
      exact .head (.added _ _ i (hphase _ hk) hend) (.single (.ret rfl))
  | groupStore g i t counter hk htask =>
      rw [hstatic.group] at htask
      refine .head (.next _ _ i t (hphase _ hk) htask)
        (.single (.store _ _ i t _ rfl (fun t' ht' => ?_) fun c hc => ?_))
      · simp [State.goto, State.storePrivateData, DispatchConfig.clientState, ht']
      · simpa [State.goto, State.storePrivateData] using hc
  | send t site hk _ =>
      cases site with
      | task =>
          exact .head (.push _ _ 0 t (hphase _ hk))
            (.head (.added _ _ 1 rfl rfl) (.single (.ret rfl)))
      | member g i counter => exact .single (.push _ _ i t (hphase _ hk))
  | takeSemaphore c ts hk _ => exact .single (.waited c ts (hphase _ hk))
  | freeCounter c ts hk => exact .single (.deleteCounter c ts (hphase _ hk))
  | deleteTask t ts hk =>
      have hwaitable := waitable_of_deleting hinv hd hflags hk
      have hmove : ClientMove d.program (DispatchCall.awaited d.heap) (d.clientState s) _ :=
        .deleteTask t ts (hphase _ hk)
      refine .single ?_
      convert hmove using 1
      simp [DispatchConfig.clientState, State.goto, State.record, List.filter_append, hwaitable,
        DispatchConfig.phase]
  | deleteDone hk => exact .single (.deleteDone (hphase _ hk))
  | waitBits hk _ => exact .single (.ret (hphase _ hk))
  | deleteQueue hk => exact .single (.ret (hphase _ hk))
  | _ =>
      have hpc := (by assumption : s.client = _)
      exact hstay (by rw [hpc]; rfl) rfl rfl rfl rfl rfl

/-- The client of a reachable state follows the discipline, and is reached by moves. -/
theorem moves_of_reachable (hd : d.program.Disciplined) (hflags : d.program.FlagsAgree)
    (hs : d.system.Reachable s) :
    ReflTransGen (ClientMove d.program (DispatchCall.awaited d.heap))
      (.init fun t => (d.heap.task t).privateData) (d.clientState s) := by
  induction hs with
  | init => exact .refl
  | @step s s' a hr hstep ih =>
      refine ih.trans ?_
      have hstatic := static_of_reachable hr
      cases a with
      | client =>
          have hinv := clientInv_of_moves hd (fun _ => List.Sublist.refl _) ih
          exact (clientStep_of_step hstep).moves hstatic hinv hd hflags
      | worker i => rw [(workerStep_of_step hstep).2.clientState_eq hstatic]

/-- The bookkeeping of the client holds in every reachable state. -/
theorem clientInv_of_reachable (hd : d.program.Disciplined) (hflags : d.program.FlagsAgree)
    (hs : d.system.Reachable s) :
    ClientInv d.program (DispatchCall.awaited d.heap) (d.clientState s) :=
  clientInv_of_moves hd (fun _ => List.Sublist.refl _) (moves_of_reachable hd hflags hs)

end Steps

end Rtos
end LibDispatch
