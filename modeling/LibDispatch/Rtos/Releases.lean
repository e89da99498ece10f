import LibDispatch.Rtos.Barrier
import LibDispatch.Rtos.Client

/-!
# What the FreeRTOS dispatch queue releases

Three parties release what was allocated for a dispatch queue: {lit}`dispatch_queue_delete` the
threads, the arrays and the kernel objects, a wait the counter with its semaphore and the
waitable tasks, a worker the other tasks.  The client deletes the dispatch queue in its last
call.

Main results:

- Theorem {lit}`objects_of_reachable`: the objects released are those that the position in
  {lit}`dispatch_queue_delete` says.
- Theorem {lit}`semaphores_of_reachable`: a semaphore is deleted just before its counter.
- Theorem {lit}`finished_of_reachable`: a task that is not waitable and has returned is deleted
  or in the hands of a worker.
- Theorem {lit}`taskFreed_nodup`: no task is deleted twice.
-/

namespace LibDispatch
namespace Rtos

variable {N : Nat} {β υ : Type}

/-! ## Positions -/

/-- The client is not in a call. -/
def ClientPc.idle : ClientPc → Bool
  | .setReadyBits | .ready => true
  | _ => false

/-- The client is in {lit}`dispatch_queue_delete`. -/
def ClientPc.deleting : ClientPc → Bool
  | .deleteThread _ | .freeWorkerData | .freeThreads | .deleteEventGroup | .deleteQueue => true
  | _ => false

/-- What {lit}`dispatch_queue_delete` has released when it is at a position. -/
def ClientPc.gone : ClientPc → Object N → Bool
  | .deleteThread i, .thread j => decide (j < i)
  | .freeWorkerData, .thread _ => true
  | .freeThreads, .thread _ | .freeThreads, .workerData => true
  | .deleteEventGroup, .thread _ | .deleteEventGroup, .workerData
  | .deleteEventGroup, .threads => true
  | .deleteQueue, .thread _ | .deleteQueue, .workerData | .deleteQueue, .threads
  | .deleteQueue, .xEventGroup => true
  | _, _ => false

/-- Outside of {lit}`dispatch_queue_delete` the position releases nothing. -/
theorem ClientPc.gone_eq_false {pc : ClientPc} (h : pc.deleting = false) (o : Object N) :
    pc.gone o = false := by
  cases pc with
  | deleteThread i => cases h
  | freeWorkerData => cases h
  | freeThreads => cases h
  | deleteEventGroup => cases h
  | deleteQueue => cases h
  | _ => rfl

/-- The counter whose semaphore is deleted and which is not. -/
def ClientPc.halfDeleted : ClientPc → List Nat
  | .freeCounter c _ => [c]
  | _ => []

/-- The worker has finished the function of {lit}`t` and is to find out who deletes the task, or
to delete it. -/
def WorkerPc.finished (t : Nat) : WorkerPc → Nat
  | .testWaitable t' | .delete t' => if t' = t then 1 else 0
  | _ => 0

theorem WorkerPc.finished_pos_iff {t : Nat} {pc : WorkerPc} :
    0 < pc.finished t ↔ pc = .testWaitable t ∨ pc = .delete t := by
  have hpos : ∀ t', (0 < if t' = t then 1 else 0) ↔ t' = t := by
    intro t'
    by_cases heq : t' = t <;> simp [heq]
  cases pc <;> simp [WorkerPc.finished, hpos]

section Steps

variable {d : DispatchConfig N β υ} {s s' : State N β υ} {i : Fin N} {n : Nat}

/-- A worker releases tasks only. -/
theorem WorkerStep.released_eq (h : WorkerStep s i s') :
    s'.released = s.released ∧ s'.history.semaphoreDeleted = s.history.semaphoreDeleted ∧
      s'.history.counterFreed = s.history.counterFreed := by
  cases h <;> exact ⟨rfl, rfl, rfl⟩

/-! ## Objects -/

/-- The {lit}`n`-th call is {lit}`dispatch_queue_delete`, and it releases the objects in the order
of its statements. -/
structure Objects (n : Nat) (s : State N β υ) : Prop where
  deleting : s.client.idle = false → (s.client.deleting = true ↔ s.ip = n)
  released : ∀ o, s.released o =
    (decide (o ≠ .dispatchQueue) && (decide (n < s.ip) || s.client.gone o))

/-- A statement that releases no object and does not end a call. -/
theorem Objects.within (h : Objects n s) (hip : s'.ip = s.ip)
    (hidle : s.client.idle = false) (hreleased : s'.released = s.released)
    (hdeleting : s'.client.deleting = s.client.deleting)
    (hgone : ∀ o : Object N, s'.client.gone o = s.client.gone o) : Objects n s' where
  deleting _ := by rw [hip, hdeleting]; exact h.deleting hidle
  released o := by rw [hreleased, hip, hgone]; exact h.released o

/-- A call other than {lit}`dispatch_queue_delete` starts. -/
theorem Objects.start {call : DispatchCall} (h : Objects n s)
    (hn : ∀ i, d.prog[i]? = some .delete ↔ i = n) (hk : s.client = .ready)
    (hcall : d.prog[s.ip]? = some call) (hne : call ≠ .delete) (hip : s'.ip = s.ip)
    (hreleased : s'.released = s.released) (hdeleting : s'.client.deleting = false) :
    Objects n s' where
  deleting _ := by
    rw [hip, hdeleting]
    refine iff_of_false Bool.false_ne_true fun heq => ?_
    rw [(hn s.ip).mpr heq] at hcall
    exact hne (Option.some.inj hcall).symm
  released o := by
    rw [hreleased, hip, ClientPc.gone_eq_false hdeleting, h.released o, hk]
    rfl

/-- A call other than {lit}`dispatch_queue_delete` returns. -/
theorem Objects.ret (h : Objects n s) (hidle : s.client.idle = false)
    (hdeleting : s.client.deleting = false) (hreleased : s'.released = s.released)
    (hip : s'.ip = s.ip + 1) (hready : s'.client = .ready) : Objects n s' where
  deleting hbusy := by
    rw [hready] at hbusy
    cases hbusy
  released o := by
    have hne : s.ip ≠ n := by
      intro heq
      rw [(h.deleting hidle).mpr heq] at hdeleting
      cases hdeleting
    have hlt : n < s.ip + 1 ↔ n < s.ip := by omega
    rw [hreleased, hip, h.released o, hready, ClientPc.gone_eq_false hdeleting,
      ClientPc.gone_eq_false rfl]
    simp only [hlt]

/-- An object is released. -/
theorem Objects.release (h : Objects n s) (o : Object N) (hip : s'.ip = s.ip)
    (hidle : s.client.idle = false) (hdeleting : s.client.deleting = true)
    (hdeleting' : s'.client.deleting = true)
    (hreleased : s'.released = Function.update s.released o true) (ho : o ≠ .dispatchQueue)
    (hgone : ∀ o', s'.client.gone o' = (decide (o' = o) || s.client.gone o')) :
    Objects n s' where
  deleting _ := by
    rw [hip, hdeleting']
    exact iff_of_true rfl ((h.deleting hidle).mp hdeleting)
  released o' := by
    rw [hreleased, hip, hgone]
    by_cases heq : o' = o
    · subst heq
      simp [ho]
    · rw [Function.update_of_ne heq, h.released o']
      simp [heq]

/-- A step of the client keeps the account of the objects. -/
theorem Objects.client_step (h : Objects n s)
    (hn : ∀ i, d.prog[i]? = some .delete ↔ i = n) (hstep : ClientStep d s s') :
    Objects n s' := by
  cases hstep with
  | setReadyBits hk =>
      refine ⟨by rintro ⟨⟩, fun o => ?_⟩
      have hold := h.released o
      rw [hk] at hold
      exact hold
  | taskAddWaitable t hk hcall _ => exact h.start hn hk hcall (by simp) rfl rfl rfl
  | taskAddPlain t hk hcall _ => exact h.start hn hk hcall (by simp) rfl rfl rfl
  | groupAddWaitable g hk hcall _ => exact h.start hn hk hcall (by simp) rfl rfl rfl
  | groupAddPlain g hk hcall _ => exact h.start hn hk hcall (by simp) rfl rfl rfl
  | taskWait t c hk hcall _ _ => exact h.start hn hk hcall (by simp) rfl rfl rfl
  | groupWait g t c ts hk hcall _ _ _ => exact h.start hn hk hcall (by simp) rfl rfl rfl
  | wait hk hcall => exact h.start hn hk hcall (by simp) rfl rfl rfl
  | delete hk hcall =>
      refine ⟨fun _ => iff_of_true rfl ((hn s.ip).mp hcall), fun o => ?_⟩
      have hold := h.released o
      rw [hk] at hold
      cases o with
      | thread j =>
          have hnone : ClientPc.gone (.deleteThread 0) (.thread j : Object N) = false := by
            simp [ClientPc.gone]
          refine hold.trans ?_
          change _ = (_ && (_ || ClientPc.gone (.deleteThread 0) (.thread j)))
          rw [hnone]
          rfl
      | _ => exact hold
  | groupDone g i counter hk _ =>
      exact h.ret (by rw [hk]; rfl) (by rw [hk]; rfl) rfl rfl rfl
  | deleteDone hk => exact h.ret (by rw [hk]; rfl) (by rw [hk]; rfl) rfl rfl rfl
  | waitBits hk _ => exact h.ret (by rw [hk]; rfl) (by rw [hk]; rfl) rfl rfl rfl
  | send t site hk _ =>
      cases site with
      | task => exact h.ret (by rw [hk]; rfl) (by rw [hk]; rfl) rfl rfl rfl
      | member g i counter =>
          exact h.within rfl (by rw [hk]; rfl) rfl (by rw [hk]; rfl) fun _ => by rw [hk]; rfl
  | deleteThread i hi hk =>
      refine h.release (.thread ⟨i, hi⟩) rfl (by rw [hk]; rfl) (by rw [hk]; rfl) rfl rfl
        (by simp) fun o => ?_
      rw [hk]
      cases o with
      | thread j =>
          have hj : (j : Nat) < i + 1 ↔ j = ⟨i, hi⟩ ∨ (j : Nat) < i := by
            rw [Fin.ext_iff]
            change _ ↔ (j : Nat) = i ∨ _
            omega
          simp [ClientPc.gone, State.goto, hj]
      | _ => rfl
  | threadsDeleted i hi hk =>
      refine h.within rfl (by rw [hk]; rfl) rfl (by rw [hk]; rfl) fun o => ?_
      rw [hk]
      cases o with
      | thread j =>
          have hj := j.isLt
          have hlt : (j : Nat) < i := by omega
          simp [ClientPc.gone, State.goto, hlt]
      | _ => rfl
  | freeWorkerData hk =>
      refine h.release .workerData rfl (by rw [hk]; rfl) (by rw [hk]; rfl) rfl rfl (by simp)
        fun o => ?_
      rw [hk]
      cases o <;> rfl
  | freeThreads hk =>
      refine h.release .threads rfl (by rw [hk]; rfl) (by rw [hk]; rfl) rfl rfl (by simp)
        fun o => ?_
      rw [hk]
      cases o <;> rfl
  | deleteEventGroup hk =>
      refine h.release .xEventGroup rfl (by rw [hk]; rfl) (by rw [hk]; rfl) rfl rfl (by simp)
        fun o => ?_
      rw [hk]
      cases o <;> rfl
  | deleteQueue hk =>
      have hip : s.ip = n := (h.deleting (by rw [hk]; rfl)).mp (by rw [hk]; rfl)
      refine ⟨by rintro ⟨⟩, fun o => ?_⟩
      have hold := h.released o
      rw [hk] at hold
      change Function.update s.released .xQueue true o =
        (decide (o ≠ .dispatchQueue) && (decide (n < s.ip + 1) || _))
      have hlt : n < s.ip + 1 := by omega
      cases o with
      | xQueue => simp [hlt]
      | _ => simpa [ClientPc.gone, hlt, hip] using hold
  | _ =>
      have hk := (by assumption : s.client = _)
      exact h.within rfl (by rw [hk]; rfl) rfl (by rw [hk]; rfl) fun _ => by rw [hk]; rfl

/-- When the {lit}`n`-th call is the only {lit}`dispatch_queue_delete`, the objects released are
those that its position says. -/
theorem objects_of_reachable (hn : ∀ i, d.prog[i]? = some .delete ↔ i = n)
    (hs : d.system.Reachable s) : Objects n s := by
  refine hs.invariant (P := Objects n) ⟨by rintro ⟨⟩, fun o => ?_⟩ ?_
  · simp [DispatchConfig.system, DispatchConfig.init, ClientPc.gone]
  · intro s a s' _ h hstep
    cases a with
    | client => exact h.client_step hn (clientStep_of_step hstep)
    | worker i =>
        have hstep := (workerStep_of_step hstep).2
        rcases hstep.client_eq with ⟨hclient, hip, -⟩
        refine ⟨?_, ?_⟩
        · rw [hclient, hip]
          exact h.deleting
        · rw [hclient, hip, hstep.released_eq.1]
          exact h.released

/-! ## Semaphores -/

/-- A semaphore is deleted just before its counter. -/
theorem semaphores_of_reachable (hs : d.system.Reachable s) :
    s.history.semaphoreDeleted = s.history.counterFreed ++ s.client.halfDeleted := by
  refine hs.invariant (P := fun s => s.history.semaphoreDeleted =
    s.history.counterFreed ++ s.client.halfDeleted) rfl ?_
  intro s a s' _ h hstep
  cases a with
  | worker i =>
      have hstep := (workerStep_of_step hstep).2
      rw [hstep.client_eq.1, hstep.released_eq.2.1, hstep.released_eq.2.2]
      exact h
  | client =>
      cases clientStep_of_step hstep with
      | deleteSemaphore c ts hk =>
          rw [hk] at h
          change s.history.semaphoreDeleted ++ [c] = s.history.counterFreed ++ [c]
          rw [h]
          simp [ClientPc.halfDeleted]
      | freeCounter c ts hk =>
          rw [hk] at h
          change s.history.semaphoreDeleted = (s.history.counterFreed ++ [c]) ++ []
          rw [h, List.append_nil]
          rfl
      | send t site hk _ =>
          rw [hk] at h
          cases site <;> exact h
      | _ =>
          rw [(by assumption : s.client = _)] at h
          exact h

/-! ## Tasks -/

/-- A task that is not waitable and has returned is deleted, or in the hands of a worker. -/
def Finished (d : DispatchConfig N β υ) (s : State N β υ) : Prop :=
  ∀ t, (d.heap.task t).waitable = false → s.history.returned.count t =
    s.history.taskFreed.count t + tally (WorkerPc.finished t) s.worker

/-- A step of a worker that keeps the account of each task. -/
theorem Finished.worker_move (h : Finished d s) {pc : WorkerPc}
    (hworker : s'.worker = Function.update s.worker i pc)
    (hcount : ∀ t, (d.heap.task t).waitable = false →
      s'.history.returned.count t + s.history.taskFreed.count t + (s.worker i).finished t =
        s.history.returned.count t + s'.history.taskFreed.count t + pc.finished t) :
    Finished d s' := by
  intro t ht
  have htally := tally_update (WorkerPc.finished t) s.worker i pc
  have hold := h t ht
  have hnew := hcount t ht
  rw [hworker]
  omega

/-- A step of a worker keeps the account of the tasks. -/
theorem Finished.worker_step (h : Finished d s) (hstatic : Static d s)
    (hstep : WorkerStep s i s') : Finished d s' := by
  cases hstep with
  | running t hk =>
      refine h.worker_move rfl fun t' _ => ?_
      simp only [State.workerGoto, State.record, hk, WorkerPc.finished, List.count_append,
        List.count_singleton, beq_iff_eq]
      omega
  | testWaitable t hk hw =>
      refine h.worker_move rfl fun t' ht' => ?_
      have hne : t ≠ t' := by
        rintro rfl
        rw [hstatic.waitable t, ht'] at hw
        cases hw
      simp [State.workerGoto, hk, WorkerPc.finished, hne]
  | testPlain t hk _ =>
      refine h.worker_move rfl fun t' _ => ?_
      simp [State.workerGoto, hk, WorkerPc.finished]
  | delete t hk =>
      refine h.worker_move rfl fun t' _ => ?_
      simp only [State.workerGoto, State.record, hk, WorkerPc.finished, List.count_append,
        List.count_singleton, beq_iff_eq]
      omega
  | _ =>
      refine h.worker_move rfl fun t' _ => ?_
      simp [State.workerGoto, State.record, State.setCounter, WorkerPc.finished,
        (by assumption : s.worker i = _)]

/-- A step of the client keeps the account of the tasks: it deletes waitable ones. -/
theorem Finished.client_step (h : Finished d s)
    (hinv : ClientInv d.program (DispatchCall.awaited d.heap) (d.clientState s))
    (hd : d.program.Disciplined) (hflags : d.program.FlagsAgree)
    (hstep : ClientStep d s s') : Finished d s' := by
  cases hstep with
  | deleteTask t ts hk =>
      intro t' ht'
      have hne : t ≠ t' := by
        rintro rfl
        rw [waitable_of_deleting hinv hd hflags hk] at ht'
        cases ht'
      have hold := h t' ht'
      simpa [State.goto, State.record, List.count_append, List.count_singleton, hne] using hold
  | send t site _ _ => cases site <;> exact h
  | _ => exact h

/-- A task that is not waitable and has returned is deleted, or in the hands of a worker. -/
theorem finished_of_reachable (hd : d.program.Disciplined) (hflags : d.program.FlagsAgree)
    (hs : d.system.Reachable s) : Finished d s := by
  refine hs.invariant (P := Finished d) (fun t _ => ?_) ?_
  · have hzero : tally (WorkerPc.finished t) d.system.init.worker = 0 := by
      rw [tally_eq_zero_iff]
      intro i
      rfl
    rw [hzero]
    rfl
  · intro s a s' hr h hstep
    cases a with
    | client =>
        exact h.client_step (clientInv_of_reachable hd hflags hr) hd hflags
          (clientStep_of_step hstep)
    | worker i => exact h.worker_step (static_of_reachable hr) (workerStep_of_step hstep).2

/-- A task runs at most once. -/
theorem returned_count_le (hd : d.program.Disciplined) (hflags : d.program.FlagsAgree)
    (hs : d.system.Reachable s) (t : Nat) : s.history.returned.count t ≤ 1 := by
  have hsent : s.history.sent.Nodup := (clientInv_of_reachable hd hflags hs).pushed_nodup hd
  have hcount := (received_of_reachable hs).count t
  have hle := List.nodup_iff_count_le_one.mp hsent t
  omega

/-- A task that has returned was submitted. -/
theorem submitted_of_returned (hd : d.program.Disciplined) (hflags : d.program.FlagsAgree)
    (hs : d.system.Reachable s) {t : Nat} (ht : t ∈ s.history.returned) :
    t ∈ d.prog.flatMap (DispatchCall.tasks d.heap) := by
  have hcount := (received_of_reachable hs).count t
  have hpos := List.count_pos_iff.mpr ht
  have hsent : t ∈ s.history.sent := List.count_pos_iff.mp (by omega)
  rcases (clientInv_of_reachable hd hflags hs).call_of_pushed hsent with
    ⟨jp, call, hcall, hmem, -⟩
  exact List.mem_flatMap.mpr ⟨call, List.mem_of_getElem? hcall, hmem⟩

/-- A task that a wait is about is submitted. -/
theorem submitted_of_awaits (hd : d.program.Disciplined) {w jp t : Nat} {ts : List Nat}
    (h : d.program.Awaits w jp ts) (ht : t ∈ ts) :
    t ∈ d.prog.flatMap (DispatchCall.tasks d.heap) := by
  rcases hd.awaits_call h with ⟨add, hadd, rfl, -⟩
  exact List.mem_flatMap.mpr ⟨add, List.mem_of_getElem? hadd, ht⟩

/-- No task is deleted twice. -/
theorem taskFreed_nodup (hd : d.program.Disciplined) (hflags : d.program.FlagsAgree)
    (hs : d.system.Reachable s) : s.history.taskFreed.Nodup := by
  rw [List.nodup_iff_count_le_one]
  intro t
  cases hw : (d.heap.task t).waitable with
  | true =>
      have hwait := (clientInv_of_reachable hd hflags hs).waitNodup
      have hfilter := List.count_filter (l := s.history.taskFreed)
        (p := fun t => (d.heap.task t).waitable) hw
      rw [← hfilter]
      exact List.nodup_iff_count_le_one.mp hwait t
  | false =>
      have hcount := finished_of_reachable hd hflags hs t hw
      have hle := returned_count_le hd hflags hs t
      omega

end Steps

end Rtos
end LibDispatch
