import LibDispatch.ClientModel
import LibDispatch.Host.LockDiscipline

/-!
# The client of the host dispatch queue

Every step of the host backend with one client is zero or more moves of the client that
{lit}`ClientModel` describes.  A worker never moves the client, except that it wakes it up.
{lit}`dispatch_queue_task_wait` releases its task, {lit}`dispatch_queue_group_wait` releases no
task at all.

Main results:

- Theorem {lit}`moves_of_reachable`: the client of a reachable state is reached by moves.
- Theorem {lit}`clientInv_of_reachable`: its bookkeeping is that of the client model.
-/

namespace LibDispatch
namespace Host

variable {N : Nat} {β υ : Type}

open Relation (ReflTransGen)

/-- The program of the client. -/
def DispatchConfig.program (d : DispatchConfig Unit N β υ) : Program β υ (Unit × Nat) :=
  ⟨d.prog (), d.heap⟩

/-- The tasks that a wait deletes. -/
def releases : DispatchCall → List Nat
  | .taskWait t => [t]
  | _ => []

/-- The call that {lit}`task_add` is adding task {lit}`t` for. -/
def AddSite.call (t : Nat) : AddSite Unit → DispatchCall
  | .task _ => .taskAdd t
  | .member g _ _ => .groupAdd g

/-- The index of the task in the call. -/
def AddSite.index : AddSite Unit → Nat
  | .task _ => 0
  | .member _ i _ => i

/-- The counter of the call. -/
def AddSite.counterOf (site : AddSite Unit) : Option Nat :=
  site.counter.map Prod.snd

/-- What the client is doing after its task was pushed. -/
def AddSite.pushedPhase : AddSite Unit → ClientPhase
  | .task _ => .returning
  | .member g i counter => .adding (.groupAdd g) (counter.map Prod.snd) (i + 1)

/-- What the client is doing at a position. -/
def ClientPc.phase : ClientPc Unit → ClientPhase
  | .ready => .idle
  | .groupLoop g i counter => .adding (.groupAdd g) (counter.map Prod.snd) i
  | .store t site => .storing (site.call t) site.counterOf site.index t
  | .addLock t site | .push t site => .pushing (site.call t) site.counterOf site.index t
  | .addUnlock site | .notify site => site.pushedPhase
  | .counterWait c ts | .counterBlocked c ts => .waiting c.2 ts
  | .deleteCounter c ts => .releasing c.2 ts
  | .deleteTasks ts => .deleting ts
  | _ => .returning

/-- The client of a state. -/
def State.clientState (s : State Unit N β υ) : ClientState where
  ip := (s.client ()).ip
  phase := (s.client ()).pc.phase
  data t := (s.heap.task t).privateData.map Prod.snd
  pushed := s.history.pushed
  counterFreed := s.history.counterFreed.map Prod.snd
  waitFreed := s.history.waitFreed

/-- A wait deletes tasks that it waits for. -/
theorem releases_sublist (heap : Heap β υ (Unit × Nat)) (call : DispatchCall) :
    (releases call).Sublist (call.awaited heap) := by
  cases call with
  | taskWait t => exact List.Sublist.refl _
  | _ => exact List.nil_sublist _

/-- A client that wakes up is doing what it was doing. -/
theorem ClientPc.WokenTo.phase_eq {pc pc' : ClientPc Unit} (h : pc.WokenTo pc') :
    pc'.phase = pc.phase := by
  rcases h with rfl | ⟨i, rfl, rfl⟩ | ⟨counter, ts, rfl, rfl⟩ <;> rfl

/-- Groups and flags stay as they were built. -/
structure Static (d : DispatchConfig Unit N β υ) (s : State Unit N β υ) : Prop where
  group : s.heap.group = d.heap.group
  waitable : ∀ t, (s.heap.task t).waitable = (d.heap.task t).waitable

section Steps

variable {d : DispatchConfig Unit N β υ} {s s' : State Unit N β υ} {c : Unit} {i : Fin N}

theorem Static.client_step (h : Static d s) (hstep : ClientStep d s c s') : Static d s' := by
  cases hstep with
  | store t site counter _ _ =>
      refine ⟨h.group, fun t' => ?_⟩
      rw [← h.waitable t']
      by_cases ht : t' = t
      · simp [State.goto, State.storePrivateData, ht]
      · simp [State.goto, State.storePrivateData, ht]
  | notifyLost site _ _ =>
      cases site with
      | task counter => exact ⟨h.group, h.waitable⟩
      | member g i counter => exact ⟨h.group, h.waitable⟩
  | _ => exact ⟨h.group, h.waitable⟩

theorem Static.worker_step (h : Static d s) (hstep : WorkerStep s i s') : Static d s' := by
  cases hstep <;> exact ⟨h.group, h.waitable⟩

theorem static_of_reachable (hs : d.system.Reachable s) : Static d s := by
  refine hs.invariant (P := Static d) ⟨rfl, fun _ => rfl⟩ fun s l s' hs h hstep => ?_
  refine step_rule hs h hstep (fun _ _ _ _ h hstep => h.client_step hstep)
    (fun _ _ _ _ h hstep => h.worker_step hstep) (fun _ _ _ h _ => ⟨h.group, h.waitable⟩)
    (fun s c site h _ => ?_) fun _ _ _ h _ _ => ⟨h.group, h.waitable⟩
  cases site with
  | task counter => exact ⟨h.group, h.waitable⟩
  | member g i counter => exact ⟨h.group, h.waitable⟩

/-! ## Steps are moves -/

/-- A worker does not move the client. -/
theorem WorkerStep.clientState_eq (h : WorkerStep s i s') :
    s'.clientState = s.clientState := by
  rcases h.client_wokenTo () with ⟨hip, hwoken⟩
  have hphase := hwoken.phase_eq
  unfold State.clientState
  rw [hip, hphase]
  cases h <;> rfl

/-- The return from {lit}`task_add`. -/
theorem State.moves_added (site : AddSite Unit)
    (hphase : s.clientState.phase = site.pushedPhase) :
    ReflTransGen (ClientMove d.program releases) s.clientState (s.added c site).clientState := by
  cases site with
  | task counter => exact .single (.ret hphase)
  | member g i counter =>
      have heq : (s.added c (.member g i counter)).clientState = s.clientState := by
        change { s.clientState with phase := (AddSite.member g i counter).pushedPhase } = _
        rw [← hphase]
      rw [heq]

/-- A step of the client is zero or more moves. -/
theorem ClientStep.moves (h : ClientStep d s c s') (hstatic : Static d s) :
    ReflTransGen (ClientMove d.program releases) s.clientState s'.clientState := by
  have hphase : ∀ pc, (s.client c).pc = pc → s.clientState.phase = pc.phase := by
    rintro pc rfl
    rfl
  have hstay : ∀ {s' : State Unit N β υ}, (s'.client ()).ip = (s.client ()).ip →
      (s'.client ()).pc.phase = (s.client ()).pc.phase → s'.heap = s.heap →
      s'.history.pushed = s.history.pushed →
      s'.history.counterFreed = s.history.counterFreed →
      s'.history.waitFreed = s.history.waitFreed →
      ReflTransGen (ClientMove d.program releases) s.clientState s'.clientState := by
    intro s' hip hpc hheap hpushed hcounter hwait
    have heq : s'.clientState = s.clientState := by
      unfold State.clientState
      rw [hip, hpc, hheap, hpushed, hcounter, hwait]
    rw [heq]
  -- the start of a call that adds tasks
  have hadd : ∀ {call : DispatchCall} {created : Bool}, (s.client c).pc = .ready →
      (d.prog c)[(s.client c).ip]? = some call → call.awaited d.heap = [] →
      call.createsCounter d.heap = created →
      ClientMove d.program releases s.clientState { s.clientState with
        phase := .adding call (if created = true then some (s.client c).ip else none) 0 } := by
    rintro call created hk hcall hnone rfl
    exact .add call (hphase _ hk) hcall hnone
  cases h with
  | taskAddWaitable t hk hcall hw =>
      rw [hstatic.waitable] at hw
      exact .head (hadd hk hcall rfl hw) (.single (.next _ _ 0 t rfl rfl))
  | taskAddPlain t hk hcall hw =>
      rw [hstatic.waitable] at hw
      exact .head (hadd hk hcall rfl hw) (.single (.next _ _ 0 t rfl rfl))
  | groupAddWaitable g hk hcall hw =>
      rw [hstatic.group] at hw
      exact .single (hadd hk hcall rfl hw)
  | groupAddPlain g hk hcall hw =>
      rw [hstatic.group] at hw
      exact .single (hadd hk hcall rfl hw)
  | taskWait t counter hk hcall _ hdata =>
      have hread : s.clientState.data t = some counter.2 := by
        simp [State.clientState, hdata]
      exact .single (.wait (.taskWait t) t counter.2 (hphase _ hk) hcall
        (List.mem_singleton_self t) hread)
  | groupWait g t ts counter hk hcall _ htasks hdata =>
      rw [hstatic.group] at htasks
      have ht := DispatchCall.mem_awaited_of_cons htasks
      have hread : s.clientState.data t = some counter.2 := by
        simp [State.clientState, hdata]
      exact .single (.wait (.groupWait g) t counter.2 (hphase _ hk) hcall ht hread)
  | wait hk hcall =>
      exact .head (hadd hk hcall rfl rfl) (.single (.added _ _ 0 rfl rfl))
  | delete hk hcall =>
      exact .head (hadd hk hcall rfl rfl) (.single (.added _ _ 0 rfl rfl))
  | groupDone g i counter hk hend =>
      rw [hstatic.group] at hend
      exact .head (.added _ _ i (hphase _ hk) hend) (.single (.ret rfl))
  | groupNext g i t counter hk htask =>
      rw [hstatic.group] at htask
      exact .single (.next _ _ i t (hphase _ hk) htask)
  | store t site counter hk hcounter =>
      refine .single (.store _ _ _ t _ (hphase _ hk) (fun t' ht' => ?_) fun k hk' => ?_)
      · simp [State.goto, State.storePrivateData, State.clientState, ht']
      · rw [AddSite.counterOf, hcounter] at hk'
        simpa [State.goto, State.storePrivateData] using hk'
  | storeNone t site hk hcounter =>
      refine .single (.store _ _ _ t _ (hphase _ hk) (fun _ _ => rfl) fun k hk' => ?_)
      rw [AddSite.counterOf, hcounter] at hk'
      cases hk'
  | push t site hk =>
      cases site with
      | task counter =>
          exact .head (.push _ _ 0 t (hphase _ hk)) (.single (.added _ _ 1 rfl rfl))
      | member g i counter => exact .single (.push _ _ i t (hphase _ hk))
  | notifyLost site hk _ => exact s.moves_added site (hphase _ hk)
  | counterZero counter ts hk _ => exact .single (.waited _ ts (hphase _ hk))
  | deleteCounter counter ts hk =>
      have hmove : ClientMove d.program releases s.clientState _ :=
        .deleteCounter counter.2 ts (hphase _ hk)
      refine .single ?_
      convert hmove using 1
      simp [State.clientState, State.goto, State.record, ClientPc.phase]
  | deleteTask t ts hk => exact .single (.deleteTask t ts (hphase _ hk))
  | deleteDone hk => exact .single (.deleteDone (hphase _ hk))
  | semaphoreDone i _ hk => exact .single (.ret (hphase _ hk))
  | deleteQueue hk => exact .single (.ret (hphase _ hk))
  | _ =>
      have hpc := (by assumption : (s.client c).pc = _)
      refine hstay rfl ?_ rfl rfl rfl rfl
      rw [show (s.client ()).pc = _ from hpc]
      rfl

/-- The client of a reachable state is reached by moves. -/
theorem moves_of_reachable (hs : d.system.Reachable s) :
    ReflTransGen (ClientMove d.program releases)
      (.init fun t => (d.heap.task t).privateData.map Prod.snd) s.clientState := by
  induction hs with
  | init => exact .refl
  | @step s s' l hr hstep ih =>
      refine ih.trans ?_
      have hstatic := static_of_reachable hr
      have hgoto : ∀ {c : Unit} {pc : ClientPc Unit}, (s.client c).pc.WokenTo pc →
          (s.goto c pc).clientState = s.clientState := by
        intro c pc hwoken
        simp [State.clientState, State.goto, hwoken.phase_eq]
      rcases step_cases hstep with ⟨c, -, hstep⟩ | ⟨i, -, hstep⟩ |
        ⟨c, i, site, -, hk, -, rfl⟩ | ⟨i, -, -, rfl⟩ | ⟨c, counter, ts, -, hk, rfl⟩ |
        ⟨c, i, -, hk, rfl⟩
      · exact hstep.moves hstatic
      · rw [hstep.clientState_eq]
      · have hphase : (s.wakeWorker i).clientState.phase = site.pushedPhase := by
          change (s.client c).pc.phase = _
          rw [hk]
          rfl
        exact State.moves_added site hphase
      · exact .refl
      · rw [hgoto (Or.inr (Or.inr ⟨counter, ts, hk, rfl⟩))]
      · rw [hgoto (Or.inr (Or.inl ⟨i, hk, rfl⟩))]

/-- The bookkeeping of the client holds in every reachable state. -/
theorem clientInv_of_reachable (hd : d.program.Disciplined) (hs : d.system.Reachable s) :
    ClientInv d.program releases s.clientState :=
  clientInv_of_moves hd (releases_sublist d.heap) (moves_of_reachable hs)

end Steps

end Host
end LibDispatch
