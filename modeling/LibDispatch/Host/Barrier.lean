import LibDispatch.Host.LockDiscipline

/-!
# Waiting for the host dispatch queue

{lit}`dispatch_queue_wait` sees the deque empty under the lock and then waits for one ready
semaphore after the other, while the workers go on.  A worker resets its semaphore before
it pops a task, and signals it only after it has finished the task.  So a semaphore that was
found clear after the deque was found empty shows that its worker holds no task that was
pushed before, at that moment or later.

Main results:

- Theorem {lit}`accounted_of_reachable`: every task popped is in the hands of a worker or
  finished, and the semaphores follow the workers.
- Theorem {lit}`passed_of_steps`: what a client in {lit}`dispatch_queue_wait` has established.
- Theorem {lit}`host_wait_barrier`: the wait is a barrier, and the semaphore of a worker
  that holds a task has the count 1.
-/

namespace LibDispatch
namespace Host

variable {C : Type} {N : Nat} {β υ : Type}

/-! ## What the position of a worker says -/

/-- The task that a worker has popped and not finished. -/
def WorkerPc.task? : WorkerPc C → Option Nat
  | .unlock t | .perform t | .running t => some t
  | .testWaitable t | .readCounter t | .signal t _ | .delete t => some t
  | _ => none

/-- The function of the task has returned and the task is not finished. -/
def WorkerPc.afterReturn : WorkerPc C → Bool
  | .testWaitable _ | .readCounter _ | .signal _ _ | .delete _ => true
  | _ => false

/-- The flag of the task, once the worker has tested it. -/
def WorkerPc.tested : WorkerPc C → Option Bool
  | .readCounter _ | .signal _ _ => some true
  | .delete _ => some false
  | _ => none

/-- The worker has reset its ready semaphore and not signalled it since. -/
def WorkerPc.unready : WorkerPc C → Bool
  | .start | .pop | .unlock _ | .perform _ | .running _ | .testWaitable _ => true
  | .readCounter _ | .signal _ _ | .signalTest _ _ | .signalNotify _ _ => true
  | .delete _ | .relock => true
  | _ => false

/-- A worker that holds a task has reset its semaphore. -/
theorem WorkerPc.unready_of_task {pc : WorkerPc C} {t : Nat} (h : pc.task? = some t) :
    pc.unready = true := by
  cases pc <;> first | rfl | cases h

namespace WorkerPc.WokenTo

variable {pc pc' : WorkerPc C}

theorem task?_eq (h : pc.WokenTo pc') : pc'.task? = pc.task? := by
  rcases h with rfl | ⟨rfl, rfl⟩ <;> rfl

theorem afterReturn_eq (h : pc.WokenTo pc') : pc'.afterReturn = pc.afterReturn := by
  rcases h with rfl | ⟨rfl, rfl⟩ <;> rfl

theorem tested_eq (h : pc.WokenTo pc') : pc'.tested = pc.tested := by
  rcases h with rfl | ⟨rfl, rfl⟩ <;> rfl

theorem unready_eq (h : pc.WokenTo pc') : pc'.unready = pc.unready := by
  rcases h with rfl | ⟨rfl, rfl⟩ <;> rfl

end WorkerPc.WokenTo

/-- Only a client that holds the lock has just read the size. -/
theorem ClientPc.WokenTo.waitUnlock_eq {pc pc' : ClientPc C} (h : pc.WokenTo pc') {n : Nat}
    (hpc : pc' = .waitUnlock n) : pc = .waitUnlock n := by
  subst hpc
  rcases h with h | ⟨i, -, h⟩ | ⟨counter, ts, -, h⟩
  · exact h.symm
  · cases h
  · cases h

/-- The {lit}`k`-th task popped is finished: its function has returned, and its counter was
signalled or the task was deleted. -/
def History.Finished (h : History C N) (waitable : Bool) (k : Nat) : Prop :=
  k ∈ h.returned ∧ if waitable = true then k ∈ h.signalled else k ∈ h.deleted

/-- A finished task stays finished. -/
theorem History.Finished.mono {h h' : History C N} {waitable : Bool} {k : Nat}
    (hfin : h.Finished waitable k) (hret : h.returned ⊆ h'.returned)
    (hsig : h.signalled ⊆ h'.signalled) (hdel : h.deleted ⊆ h'.deleted) :
    h'.Finished waitable k := by
  refine ⟨hret hfin.1, ?_⟩
  have h2 := hfin.2
  cases waitable with
  | true => exact hsig h2
  | false => exact hdel h2

/-! ## The invariant -/

/-- The tasks pushed are popped in their order; each task popped is in the hands of a
worker or finished; and the positions of the workers agree with their semaphores. -/
structure Accounted (d : DispatchConfig C N β υ) (s : State C N β υ) : Prop where
  waitable_eq : ∀ t, (s.heap.task t).waitable = (d.heap.task t).waitable
  pushed_eq : s.history.pushed = s.history.popped ++ s.deque
  task : ∀ i t, (s.worker i).task? = some t → s.history.popped[s.history.ticket i]? = some t
  returned : ∀ i, (s.worker i).afterReturn = true → s.history.ticket i ∈ s.history.returned
  tested : ∀ i t w, (s.worker i).task? = some t → (s.worker i).tested = some w →
    (d.heap.task t).waitable = w
  finished : ∀ k t, s.history.popped[k]? = some t →
    (∃ i, (s.worker i).task? = some t ∧ s.history.ticket i = k) ∨
      s.history.Finished (d.heap.task t).waitable k
  unready : ∀ i, (s.worker i).unready = true → s.semaphore i = 1

section Accounted

variable [DecidableEq C] {d : DispatchConfig C N β υ} {s s' : State C N β υ} {c : C} {i : Fin N}

omit [DecidableEq C] in
/-- Steps that wake workers or push a task. -/
theorem Accounted.frame (h : Accounted d s)
    (hheap : ∀ t, (s'.heap.task t).waitable = (s.heap.task t).waitable)
    (hpushed : s'.history.pushed = s.history.popped ++ s'.deque)
    (hhist : s'.history.popped = s.history.popped ∧ s'.history.ticket = s.history.ticket ∧
      s'.history.returned = s.history.returned ∧
      s'.history.signalled = s.history.signalled ∧ s'.history.deleted = s.history.deleted)
    (hsem : s'.semaphore = s.semaphore)
    (hworker : ∀ i, (s.worker i).WokenTo (s'.worker i)) : Accounted d s' := by
  rcases hhist with ⟨hpopped, hticket, hret, hsig, hdel⟩
  refine ⟨fun t => (hheap t).trans (h.waitable_eq t), by rw [hpopped]; exact hpushed,
    fun i t hi => ?_, fun i hi => ?_, fun i t w hi hw => ?_, fun k t hk => ?_, fun i hi => ?_⟩
  · rw [hpopped, hticket]
    exact h.task i t ((hworker i).task?_eq ▸ hi)
  · rw [hticket, hret]
    exact h.returned i ((hworker i).afterReturn_eq ▸ hi)
  · exact h.tested i t w ((hworker i).task?_eq ▸ hi) ((hworker i).tested_eq ▸ hw)
  · rw [hpopped] at hk
    rcases h.finished k t hk with ⟨i, hi, hki⟩ | hfin
    · exact Or.inl ⟨i, (hworker i).task?_eq.trans hi, by rw [hticket]; exact hki⟩
    · exact Or.inr (hfin.mono (by simp [hret]) (by simp [hsig]) (by simp [hdel]))
  · rw [hsem]
    exact h.unready i ((hworker i).unready_eq ▸ hi)

/-- A step of a client keeps the tasks accounted for. -/
theorem Accounted.client_step (h : Accounted d s) (hstep : ClientStep d s c s') :
    Accounted d s' := by
  cases hstep with
  | push t site hk =>
      refine h.frame (fun _ => rfl) ?_ ⟨rfl, rfl, rfl, rfl, rfl⟩ rfl fun _ => Or.inl rfl
      change s.history.pushed ++ [t] = s.history.popped ++ (s.deque ++ [t])
      rw [h.pushed_eq, List.append_assoc]
  | store t site counter hk hcounter =>
      refine h.frame (fun t' => ?_) h.pushed_eq ⟨rfl, rfl, rfl, rfl, rfl⟩ rfl fun _ => Or.inl rfl
      by_cases ht : t' = t
      · subst ht
        simp [State.goto, State.storePrivateData]
      · simp [State.goto, State.storePrivateData, ht]
  | notifyLost site hk hnone =>
      cases site <;>
        exact h.frame (fun _ => rfl) h.pushed_eq ⟨rfl, rfl, rfl, rfl, rfl⟩ rfl
          fun _ => Or.inl rfl
  | notifyAll hk =>
      exact h.frame (fun _ => rfl) h.pushed_eq ⟨rfl, rfl, rfl, rfl, rfl⟩ rfl
        fun _ => WorkerPc.wokenTo_wake _
  | _ =>
      exact h.frame (fun _ => rfl) h.pushed_eq ⟨rfl, rfl, rfl, rfl, rfl⟩ rfl
        fun _ => Or.inl rfl

omit [DecidableEq C] in
/-- A step of one worker, from what it does to this worker's task. -/
theorem Accounted.worker_move (h : Accounted d s)
    (hheap : ∀ t, (s'.heap.task t).waitable = (s.heap.task t).waitable)
    (hpushed : s'.history.pushed = s'.history.popped ++ s'.deque)
    (hother : ∀ j, j ≠ i → s'.worker j = s.worker j ∧
      s'.history.ticket j = s.history.ticket j ∧ s'.semaphore j = s.semaphore j)
    (hpopped : s.history.popped <+: s'.history.popped)
    (hret : s.history.returned ⊆ s'.history.returned)
    (hsig : s.history.signalled ⊆ s'.history.signalled)
    (hdel : s.history.deleted ⊆ s'.history.deleted)
    (htask : ∀ t, (s'.worker i).task? = some t →
      s'.history.popped[s'.history.ticket i]? = some t)
    (hreturned : (s'.worker i).afterReturn = true →
      s'.history.ticket i ∈ s'.history.returned)
    (htested : ∀ t w, (s'.worker i).task? = some t → (s'.worker i).tested = some w →
      (d.heap.task t).waitable = w)
    (hunready : (s'.worker i).unready = true → s'.semaphore i = 1)
    (hkeep : ∀ t, (s.worker i).task? = some t →
      ((s'.worker i).task? = some t ∧ s'.history.ticket i = s.history.ticket i) ∨
        s'.history.Finished (d.heap.task t).waitable (s.history.ticket i))
    (hnew : ∀ (k t : Nat), s'.history.popped[k]? = some t →
      s.history.popped[k]? = some t ∨
        ((s'.worker i).task? = some t ∧ s'.history.ticket i = k)) : Accounted d s' := by
  have hmem : ∀ k t : Nat, s.history.popped[k]? = some t → s'.history.popped[k]? = some t := by
    intro k t hk
    rcases hpopped with ⟨l, hl⟩
    rw [← hl, List.getElem?_append_left (List.getElem?_eq_some_iff.mp hk).1]
    exact hk
  refine ⟨fun t => (hheap t).trans (h.waitable_eq t), hpushed, fun j t hj => ?_,
    fun j hj => ?_, fun j t w hj hw => ?_, fun k t hk => ?_, fun j hj => ?_⟩
  · by_cases hji : j = i
    · subst hji
      exact htask t hj
    · rcases hother j hji with ⟨hw, ht, -⟩
      rw [ht]
      exact hmem _ t (h.task j t (hw ▸ hj))
  · by_cases hji : j = i
    · subst hji
      exact hreturned hj
    · rcases hother j hji with ⟨hw, ht, -⟩
      rw [ht]
      exact hret (h.returned j (hw ▸ hj))
  · by_cases hji : j = i
    · subst hji
      exact htested t w hj hw
    · rcases hother j hji with ⟨hwj, -, -⟩
      exact h.tested j t w (hwj ▸ hj) (hwj ▸ hw)
  · rcases hnew k t hk with hold | hi
    · rcases h.finished k t hold with ⟨j, hj, hkj⟩ | hfin
      · by_cases hji : j = i
        · subst hji
          rcases hkeep t hj with ⟨hj', ht⟩ | hfin
          · exact Or.inl ⟨j, hj', ht.trans hkj⟩
          · exact Or.inr (hkj ▸ hfin)
        · rcases hother j hji with ⟨hwj, ht, -⟩
          exact Or.inl ⟨j, hwj ▸ hj, ht.trans hkj⟩
      · exact Or.inr (hfin.mono hret hsig hdel)
    · exact Or.inl ⟨i, hi⟩
  · by_cases hji : j = i
    · subst hji
      exact hunready hj
    · rcases hother j hji with ⟨hw, -, hs⟩
      rw [hs]
      exact h.unready j (hw ▸ hj)

omit [DecidableEq C] in
/-- A step of one worker that leaves the deque, the history and its task alone. -/
theorem Accounted.worker_goto (h : Accounted d s) {pc : WorkerPc C}
    (hheap : s'.heap = s.heap) (hdeque : s'.deque = s.deque)
    (hhist : s'.history.pushed = s.history.pushed ∧ s'.history.popped = s.history.popped ∧
      s'.history.ticket = s.history.ticket ∧ s'.history.returned = s.history.returned ∧
      s'.history.signalled = s.history.signalled ∧ s'.history.deleted = s.history.deleted)
    (hsem : ∀ j, j ≠ i → s'.semaphore j = s.semaphore j)
    (hworker : s'.worker = Function.update s.worker i pc)
    (htask : pc.task? = (s.worker i).task?)
    (hreturned : pc.afterReturn = true → (s.worker i).afterReturn = true)
    (htested : ∀ t w, pc.task? = some t → pc.tested = some w →
      (d.heap.task t).waitable = w)
    (hunready : pc.unready = true → s'.semaphore i = 1) : Accounted d s' := by
  rcases hhist with ⟨hpushed, hpopped, hticket, hret, hsig, hdel⟩
  have hi : s'.worker i = pc := by rw [hworker, Function.update_self]
  refine h.worker_move (i := i) (fun t => by rw [hheap])
    (by rw [hpushed, hpopped, hdeque]; exact h.pushed_eq) (fun j hj => ?_)
    (by simp [hpopped]) (by simp [hret]) (by simp [hsig]) (by simp [hdel])
    (fun t ht => ?_) (fun hafter => ?_) (fun t w ht hw => ?_) (fun hun => ?_)
    (fun t ht => Or.inl ⟨?_, by rw [hticket]⟩) fun k t hk => Or.inl (by rw [← hpopped]; exact hk)
  · rw [hworker, Function.update_of_ne hj, hticket]
    exact ⟨rfl, rfl, hsem j hj⟩
  · rw [hi, htask] at ht
    rw [hpopped, hticket]
    exact h.task i t ht
  · rw [hi] at hafter
    rw [hticket, hret]
    exact h.returned i (hreturned hafter)
  · rw [hi] at ht hw
    exact htested t w ht hw
  · rw [hi] at hun
    exact hunready hun
  · rw [hi, htask]
    exact ht

/-- A step of a worker keeps the tasks accounted for. -/
theorem Accounted.worker_step (h : Accounted d s) (hstep : WorkerStep s i s') :
    Accounted d s' := by
  cases hstep with
  | pop t rest hk hdeque =>
      have hun : s.semaphore i = 1 := h.unready i (by rw [hk]; rfl)
      refine h.worker_move (i := i) (fun _ => rfl) ?_ (fun j hj => ?_) ⟨[t], rfl⟩
        (List.Subset.refl _) (List.Subset.refl _) (List.Subset.refl _) (fun t' ht' => ?_)
        (fun hafter => ?_) (fun t' w ht' hw => ?_) (fun _ => hun) (fun t' ht' => ?_)
        (fun k t' hk' => ?_)
      · change s.history.pushed = (s.history.popped ++ [t]) ++ rest
        rw [h.pushed_eq, hdeque, List.append_assoc]
        rfl
      · simp [State.workerGoto, State.record, hj]
      · simp only [State.workerGoto, State.record, Function.update_self, WorkerPc.task?,
          Option.some.injEq] at ht' ⊢
        simp [ht']
      · simp [State.workerGoto, WorkerPc.afterReturn] at hafter
      · simp [State.workerGoto, WorkerPc.tested] at hw
      · rw [hk] at ht'
        cases ht'
      · simp only [State.workerGoto, State.record, Function.update_self, WorkerPc.task?]
          at hk' ⊢
        by_cases hlt : k < s.history.popped.length
        · rw [List.getElem?_append_left hlt] at hk'
          exact Or.inl hk'
        · rw [List.getElem?_append_right (by omega), List.getElem?_singleton] at hk'
          refine Or.inr ⟨?_, ?_⟩
          · split at hk'
            · exact hk'
            · cases hk'
          · split at hk'
            · omega
            · cases hk'
  | running t hk =>
      have htask : (s.worker i).task? = some t := by rw [hk]; rfl
      refine h.worker_move (i := i) (fun _ => rfl) h.pushed_eq (fun j hj => ?_) (List.prefix_rfl)
        (List.subset_append_left _ _) (List.Subset.refl _) (List.Subset.refl _)
        (fun t' ht' => ?_) (fun _ => ?_) (fun t' w ht' hw => ?_) (fun _ => ?_)
        (fun t' ht' => Or.inl ⟨?_, rfl⟩) (fun k t' hk' => Or.inl hk')
      · simp [State.workerGoto, State.record, hj]
      · simp only [State.workerGoto, Function.update_self, WorkerPc.task?,
          Option.some.injEq] at ht'
        exact ht' ▸ h.task i t htask
      · exact List.mem_append_right _ (List.mem_singleton_self _)
      · simp [State.workerGoto, WorkerPc.tested] at hw
      · exact h.unready i (by rw [hk]; rfl)
      · rw [htask] at ht'
        simpa [State.workerGoto, WorkerPc.task?] using ht'
  | signal t counter hk =>
      have htask : (s.worker i).task? = some t := by rw [hk]; rfl
      have hwaitable : (d.heap.task t).waitable = true :=
        h.tested i t true htask (by rw [hk]; rfl)
      refine h.worker_move (i := i) (fun _ => rfl) h.pushed_eq (fun j hj => ?_) (List.prefix_rfl)
        (List.Subset.refl _) (List.subset_append_left _ _) (List.Subset.refl _)
        (fun t' ht' => ?_) (fun hafter => ?_) (fun t' w ht' hw => ?_) (fun _ => ?_)
        (fun t' ht' => Or.inr ?_) (fun k t' hk' => Or.inl hk')
      · simp [State.workerGoto, State.record, State.setCounter, hj]
      · simp [State.workerGoto, WorkerPc.task?] at ht'
      · simp [State.workerGoto, WorkerPc.afterReturn] at hafter
      · simp [State.workerGoto, WorkerPc.tested] at hw
      · exact h.unready i (by rw [hk]; rfl)
      · rw [htask, Option.some.injEq] at ht'
        refine ⟨h.returned i (by rw [hk]; rfl), ?_⟩
        rw [← ht', if_pos hwaitable]
        exact List.mem_append_right _ (List.mem_singleton_self _)
  | delete t hk =>
      have htask : (s.worker i).task? = some t := by rw [hk]; rfl
      have hwaitable : (d.heap.task t).waitable = false :=
        h.tested i t false htask (by rw [hk]; rfl)
      refine h.worker_move (i := i) (fun _ => rfl) h.pushed_eq (fun j hj => ?_) (List.prefix_rfl)
        (List.Subset.refl _) (List.Subset.refl _) (List.subset_append_left _ _)
        (fun t' ht' => ?_) (fun hafter => ?_) (fun t' w ht' hw => ?_) (fun _ => ?_)
        (fun t' ht' => Or.inr ?_) (fun k t' hk' => Or.inl hk')
      · simp [State.workerGoto, State.record, hj]
      · simp [State.workerGoto, WorkerPc.task?] at ht'
      · simp [State.workerGoto, WorkerPc.afterReturn] at hafter
      · simp [State.workerGoto, WorkerPc.tested] at hw
      · exact h.unready i (by rw [hk]; rfl)
      · rw [htask, Option.some.injEq] at ht'
        refine ⟨h.returned i (by rw [hk]; rfl), ?_⟩
        rw [← ht', hwaitable, if_neg Bool.false_ne_true]
        exact List.mem_append_right _ (List.mem_singleton_self _)
  | readySignal hk =>
      exact h.worker_goto (i := i) rfl rfl ⟨rfl, rfl, rfl, rfl, rfl, rfl⟩
        (fun j hj => Function.update_of_ne hj _ _) rfl (by rw [hk]; rfl) (by rintro ⟨⟩)
        (by rintro _ _ ⟨⟩) (by rintro ⟨⟩)
  | reset hk =>
      exact h.worker_goto (i := i) rfl rfl ⟨rfl, rfl, rfl, rfl, rfl, rfl⟩
        (fun j hj => Function.update_of_ne hj _ _) rfl (by rw [hk]; rfl) (by rintro ⟨⟩)
        (by rintro _ _ ⟨⟩) fun _ => Function.update_self _ _ _
  | testWaitable t hk hw =>
      refine h.worker_goto (i := i) rfl rfl ⟨rfl, rfl, rfl, rfl, rfl, rfl⟩ (fun _ _ => rfl) rfl
        (by rw [hk]; rfl) (fun _ => by rw [hk]; rfl) (fun t' w ht' hw' => ?_)
        fun _ => h.unready i (by rw [hk]; rfl)
      cases ht'
      cases hw'
      exact (h.waitable_eq t).symm.trans hw
  | testPlain t hk hw =>
      refine h.worker_goto (i := i) rfl rfl ⟨rfl, rfl, rfl, rfl, rfl, rfl⟩ (fun _ _ => rfl) rfl
        (by rw [hk]; rfl) (fun _ => by rw [hk]; rfl) (fun t' w ht' hw' => ?_)
        fun _ => h.unready i (by rw [hk]; rfl)
      cases ht'
      cases hw'
      exact (h.waitable_eq t).symm.trans hw
  | readCounter t counter hk hdata =>
      refine h.worker_goto (i := i) rfl rfl ⟨rfl, rfl, rfl, rfl, rfl, rfl⟩ (fun _ _ => rfl) rfl
        (by rw [hk]; rfl) (fun _ => by rw [hk]; rfl) (fun t' w ht' hw' => ?_)
        fun _ => h.unready i (by rw [hk]; rfl)
      exact h.tested i t' w (by rw [hk]; exact ht') (by rw [hk]; exact hw')
  | _ =>
      refine h.worker_goto (i := i) rfl rfl ⟨rfl, rfl, rfl, rfl, rfl, rfl⟩ (fun _ _ => rfl) rfl
        (by rw [(by assumption : s.worker i = _)]; rfl) (by rintro ⟨⟩) (by rintro _ _ _ ⟨⟩)
        fun hun => h.unready i ?_
      revert hun
      rw [(by assumption : s.worker i = _)]
      simp [WorkerPc.unready]

theorem accounted_init (d : DispatchConfig C N β υ) : Accounted d d.system.init where
  waitable_eq _ := rfl
  pushed_eq := rfl
  task := by rintro i t ⟨⟩
  returned := by rintro i ⟨⟩
  tested := by rintro i t w ⟨⟩
  finished := by rintro k t ⟨⟩
  unready _ _ := rfl

/-- The tasks are accounted for in every reachable state. -/
theorem accounted_of_reachable (hs : d.system.Reachable s) : Accounted d s := by
  refine hs.invariant (accounted_init d) fun s l s' hs h hstep =>
    step_rule hs h hstep ?_ ?_ ?_ ?_ ?_
  · exact fun _ _ _ _ h hstep => h.client_step hstep
  · exact fun _ _ _ _ h hstep => h.worker_step hstep
  · exact fun s i _ h hw => h.frame (fun _ => rfl) h.pushed_eq ⟨rfl, rfl, rfl, rfl, rfl⟩ rfl
      (State.wokenTo_wakeWorker hw)
  · intro s c site h hk
    cases site <;>
      exact h.frame (fun _ => rfl) h.pushed_eq ⟨rfl, rfl, rfl, rfl, rfl⟩ rfl
        fun _ => Or.inl rfl
  · exact fun s c pc h _ _ => h.frame (fun _ => rfl) h.pushed_eq ⟨rfl, rfl, rfl, rfl, rfl⟩ rfl
      fun _ => Or.inl rfl

end Accounted

/-! ## The size that the client has read -/

section Size

variable [DecidableEq C] {d : DispatchConfig C N β υ} {s s' : State C N β υ} {c : C} {i : Fin N}

/-- The size that a client in {lit}`dispatch_queue_wait` has read is still the size. -/
def SizeRead (s : State C N β υ) : Prop :=
  ∀ c n, (s.client c).pc = .waitUnlock n → n = s.deque.length

/-- Nobody else changes the deque while a client holds the lock. -/
theorem sizeRead_of_reachable (hs : d.system.Reachable s) : SizeRead s := by
  have hinit : SizeRead d.system.init := by
    intro c n hk
    cases hk
  refine hs.invariant hinit fun s l s' hs h hstep =>
    step_rule (P := SizeRead) hs h hstep ?_ ?_ ?_ ?_ ?_
  · intro s c' s' hs h hstep c n hk
    by_cases hc : c = c'
    · subst hc
      cases hstep with
      | waitSize hk' =>
          simp only [State.client_goto, Function.update_self, ClientPc.waitUnlock.injEq] at hk
          exact hk.symm
      | notifyLost site hk' hnone =>
          have hholds := s.holds_added c site
          rw [hk] at hholds
          cases hholds
      | _ => simp at hk
    · rw [hstep.other hc] at hk
      have hp : s.holds (.inl c) = true := by simp [State.holds, hk, ClientPc.holds]
      rw [((lockHeld_of_reachable hs).client_frame hp (by simpa using hc) hstep).1]
      exact h c n hk
  · intro s i s' hs h hstep c n hk
    have hk := (hstep.client_wokenTo c).2.waitUnlock_eq hk
    have hp : s.holds (.inl c) = true := by simp [State.holds, hk, ClientPc.holds]
    rw [((lockHeld_of_reachable hs).worker_frame hp (by simp) hstep).1]
    exact h c n hk
  · exact fun s i _ h _ => h
  · intro s c' site h hk' c n hk
    rw [s.deque_added c' site]
    by_cases hc : c = c'
    · subst hc
      have hholds := s.holds_added c site
      rw [hk] at hholds
      cases hholds
    · rw [s.added_other site hc] at hk
      exact h c n hk
  · intro s c' pc h _ hpc c n hk
    by_cases hc : c = c'
    · subst hc
      rw [State.client_goto, Function.update_self] at hk
      exact h c n (hpc.waitUnlock_eq hk)
    · rw [State.client_goto, Function.update_of_ne hc] at hk
      exact h c n hk

end Size

/-! ## What the wait has established -/

section Passed

variable [DecidableEq C] {d : DispatchConfig C N β υ} {s s' s₁ s₂ : State C N β υ} {c : C}
  {i : Fin N} {M j : Nat}

/-- The first {lit}`M` tasks are popped, and none of the first {lit}`j` workers holds one of
them. -/
def Cleared (M j : Nat) (s : State C N β υ) : Prop :=
  M ≤ s.history.popped.length ∧
    ∀ i : Fin N, i < j → ∀ t, (s.worker i).task? = some t → M ≤ s.history.ticket i

/-- What one step does to the order of the tasks and to the tasks held. -/
structure Advance (s s' : State C N β υ) : Prop where
  pushed : s.history.pushed <+: s'.history.pushed
  popped : s.history.popped <+: s'.history.popped
  task : ∀ i t, (s'.worker i).task? = some t →
    ((s.worker i).task? = some t ∧ s'.history.ticket i = s.history.ticket i) ∨
      s'.history.ticket i = s.history.popped.length

omit [DecidableEq C] in
/-- A step that lets a worker hold a new task has popped it. -/
theorem Cleared.advance (h : Cleared M j s) (hadv : Advance s s') : Cleared M j s' := by
  refine ⟨Nat.le_trans h.1 hadv.popped.length_le, fun i hi t ht => ?_⟩
  rcases hadv.task i t ht with ⟨hold, hticket⟩ | hticket
  · rw [hticket]
    exact h.2 i hi t hold
  · rw [hticket]
    exact h.1

omit [DecidableEq C] in
/-- Steps that wake workers. -/
theorem Advance.frame (hpushed : s.history.pushed <+: s'.history.pushed)
    (hpopped : s'.history.popped = s.history.popped)
    (hticket : s'.history.ticket = s.history.ticket)
    (hworker : ∀ i, (s.worker i).WokenTo (s'.worker i)) : Advance s s' where
  pushed := hpushed
  popped := by simp [hpopped]
  task i t ht := Or.inl ⟨(hworker i).task?_eq ▸ ht, by rw [hticket]⟩

/-- A step of a client advances. -/
theorem ClientStep.advance (h : ClientStep d s c s') : Advance s s' := by
  have hworker := h.worker_wokenTo
  cases h with
  | push t site hk => exact .frame (List.prefix_append _ _) rfl rfl hworker
  | notifyLost site hk hnone => cases site <;> exact .frame List.prefix_rfl rfl rfl hworker
  | _ => exact .frame List.prefix_rfl rfl rfl hworker

/-- A step of a worker advances. -/
theorem WorkerStep.advance (h : WorkerStep s i s') : Advance s s' := by
  have hother : ∀ j t, j ≠ i → (s'.worker j).task? = some t →
      s'.history.ticket j = s.history.ticket j →
      ((s.worker j).task? = some t ∧ s'.history.ticket j = s.history.ticket j) := by
    intro j t hj ht hticket
    rw [h.other hj] at ht
    exact ⟨ht, hticket⟩
  cases h with
  | pop t rest hk hdeque =>
      refine ⟨List.prefix_rfl, List.prefix_append _ _, fun j t' ht => ?_⟩
      by_cases hj : j = i
      · subst hj
        exact Or.inr (Function.update_self _ _ _)
      · exact Or.inl (hother j t' hj ht (Function.update_of_ne hj _ _))
  | _ =>
      refine ⟨List.prefix_rfl, List.prefix_rfl, fun j t' ht => Or.inl ?_⟩
      by_cases hj : j = i
      · subst hj
        refine ⟨?_, rfl⟩
        revert ht
        rw [(by assumption : s.worker j = _)]
        simp [State.workerGoto, WorkerPc.task?]
      · exact hother j t' hj ht rfl

omit [DecidableEq C] in
/-- A worker whose semaphore is clear holds no task. -/
theorem Cleared.next (h : Cleared M j s) (hacc : Accounted d s) (hj : j < N)
    (hzero : s.semaphore ⟨j, hj⟩ = 0) : Cleared M (j + 1) s := by
  refine ⟨h.1, fun i hi t ht => ?_⟩
  by_cases hij : i = ⟨j, hj⟩
  · subst hij
    have hone := hacc.unready _ (WorkerPc.unready_of_task ht)
    omega
  · have hne : (i : Nat) ≠ j := fun heq => hij (Fin.ext heq)
    exact h.2 i (by omega) t ht

omit [DecidableEq C] in
/-- Once no worker holds one of them, the first {lit}`M` tasks are finished. -/
theorem Cleared.finished (h : Cleared M N s) (hacc : Accounted d s) {k t : Nat} (hk : k < M)
    (ht : s.history.popped[k]? = some t) : s.history.Finished (d.heap.task t).waitable k := by
  rcases hacc.finished k t ht with ⟨i, hi, hticket⟩ | hfin
  · have hle := h.2 i i.isLt t hi
    omega
  · exact hfin

/-- The positions of {lit}`dispatch_queue_wait`, with what is known at those past its first
loop. -/
def ClientPc.Waiting (pc : ClientPc C) (P : Nat → Prop) : Prop :=
  match pc with
  | .ready | .waitLock | .waitSize | .waitUnlock _ => True
  | .semaphoreWait j | .semaphoreBlocked j => P j
  | _ => False

omit [DecidableEq C] in
theorem ClientPc.Waiting.mono {pc : ClientPc C} {P Q : Nat → Prop} (h : pc.Waiting P)
    (hPQ : ∀ j, P j → Q j) : pc.Waiting Q := by
  cases pc with
  | semaphoreWait j => exact hPQ j h
  | semaphoreBlocked j => exact hPQ j h
  | _ => exact h

/-- What a client that called {lit}`dispatch_queue_wait` as its {lit}`n`-th call, after {lit}`M`
tasks were pushed, has established. -/
structure Passed (c : C) (n M : Nat) (s : State C N β υ) : Prop where
  le : n ≤ (s.client c).ip
  pushed : M ≤ s.history.pushed.length
  waiting : (s.client c).ip = n → (s.client c).pc.Waiting fun j => Cleared M j s
  returned : n < (s.client c).ip → Cleared M N s

omit [DecidableEq C] in
/-- Steps of the others. -/
theorem Passed.frame {n : Nat} (h : Passed c n M s) (hadv : Advance s s')
    (hip : (s'.client c).ip = (s.client c).ip)
    (hpc : (s.client c).pc.WokenTo (s'.client c).pc) : Passed c n M s' where
  le := by rw [hip]; exact h.le
  pushed := Nat.le_trans h.pushed hadv.pushed.length_le
  waiting hn := by
    have hw := h.waiting (hip ▸ hn)
    rcases hpc with hpc | ⟨i, hpc, hpc'⟩ | ⟨counter, ts, hpc, hpc'⟩
    · rw [hpc]
      exact hw.mono fun j hj => hj.advance hadv
    · rw [hpc] at hw
      rw [hpc']
      exact Cleared.advance hw hadv
    · rw [hpc] at hw
      cases hw
  returned hn := (h.returned (hip ▸ hn)).advance hadv

theorem State.ip_added (s : State C N β υ) (c : C) (site : AddSite C) :
    (s.client c).ip ≤ ((s.added c site).client c).ip := by
  cases site <;> simp [State.added]

/-- The number of calls made does not decrease. -/
theorem ClientStep.ip_mono (h : ClientStep d s c s') : (s.client c).ip ≤ (s'.client c).ip := by
  cases h with
  | notifyLost site hk hnone => exact s.ip_added c site
  | _ => simp

/-- A step of the waiting client. -/
theorem Passed.client_step {n : Nat} (h : Passed c n M s) (hcall : (d.prog c)[n]? = some .wait)
    (hacc : Accounted d s) (hsize : SizeRead s) (hstep : ClientStep d s c s') :
    Passed c n M s' := by
  have hadv := hstep.advance
  have hmono := hstep.ip_mono
  refine ⟨Nat.le_trans h.le hmono, Nat.le_trans h.pushed hadv.pushed.length_le, fun hn => ?_,
    fun hn => ?_⟩
  · have hw := h.waiting (by have := h.le; omega)
    have hip : (s.client c).ip = n := by
      have := h.le
      omega
    have hother : ∀ call, call ≠ .wait → (d.prog c)[(s.client c).ip]? ≠ some call := by
      intro call hne heq
      rw [hip, hcall] at heq
      exact hne (Option.some.inj heq).symm
    cases hstep with
    | waitEmptied hk =>
        have hempty := hsize c 0 hk
        have hpushed := hacc.pushed_eq
        rw [List.length_eq_zero_iff.mp hempty.symm, List.append_nil] at hpushed
        simp only [State.client_goto, Function.update_self, ClientPc.Waiting]
        exact ⟨hpushed ▸ h.pushed, fun i hi => by omega⟩
    | semaphoreReady j hj hk hzero =>
        rw [hk] at hw
        simp only [State.client_goto, Function.update_self, ClientPc.Waiting]
        exact (Cleared.next hw hacc hj hzero).advance hadv
    | semaphoreBlock j hj hk hcount =>
        rw [hk] at hw
        simp only [State.client_goto, Function.update_self, ClientPc.Waiting]
        exact Cleared.advance hw hadv
    | waitLock hk hfree => simp [ClientPc.Waiting]
    | waitSize hk => simp [ClientPc.Waiting]
    | waitAgain count hk hcount => simp [ClientPc.Waiting]
    | wait hk hc => simp [ClientPc.Waiting]
    | semaphoreDone j hj hk =>
        simp only [State.client_ret, Function.update_self] at hn
        omega
    | taskAddWaitable t hk hc _ => exact absurd hc (hother _ (by simp))
    | taskAddPlain t hk hc _ => exact absurd hc (hother _ (by simp))
    | groupAddWaitable g hk hc _ => exact absurd hc (hother _ (by simp))
    | groupAddPlain g hk hc _ => exact absurd hc (hother _ (by simp))
    | taskWait t counter hk hc _ _ => exact absurd hc (hother _ (by simp))
    | groupWait g t ts counter hk hc _ _ _ => exact absurd hc (hother _ (by simp))
    | delete hk hc => exact absurd hc (hother _ (by simp))
    | _ =>
        rw [(by assumption : (s.client c).pc = _)] at hw
        cases hw
  · by_cases hip : n < (s.client c).ip
    · exact (h.returned hip).advance hadv
    · have hip : (s.client c).ip = n := by
        have := h.le
        omega
      have hw := h.waiting hip
      cases hstep with
      | semaphoreDone j hj hk =>
          rw [hk] at hw
          refine Cleared.advance ⟨hw.1, fun i _ => hw.2 i ?_⟩ hadv
          omega
      | notifyLost site hk hnone =>
          rw [hk] at hw
          cases hw
      | deleteQueue hk =>
          rw [hk] at hw
          cases hw
      | groupDone g i counter hk hend =>
          rw [hk] at hw
          cases hw
      | deleteDone hk =>
          rw [hk] at hw
          cases hw
      | _ =>
          simp only [State.client_goto, State.client_setCounter, State.client_record,
            State.client_storePrivateData, State.client_notifyWorkers,
            Function.update_self] at hn
          omega

/-- In every run that follows a call of {lit}`dispatch_queue_wait`. -/
theorem passed_of_steps (hs : d.system.Reachable s₁) (hk : (s₁.client c).pc = .ready)
    (hcall : (d.prog c)[(s₁.client c).ip]? = some .wait) (hsteps : d.system.Steps s₁ s₂) :
    Passed c (s₁.client c).ip s₁.history.pushed.length s₂ := by
  have hstart : Passed c (s₁.client c).ip s₁.history.pushed.length s₁ :=
    ⟨Nat.le_refl _, Nat.le_refl _, fun _ => by rw [hk]; trivial, fun hlt => by omega⟩
  refine hsteps.invariant hs hstart fun s l s' hs h hstep =>
    step_rule (P := Passed c (s₁.client c).ip s₁.history.pushed.length) hs h hstep
      ?_ ?_ ?_ ?_ ?_
  · intro s c' s' hs h hstep
    by_cases hc : c = c'
    · subst hc
      exact h.client_step hcall (accounted_of_reachable hs) (sizeRead_of_reachable hs) hstep
    · have heq := hstep.other hc
      exact h.frame hstep.advance (by rw [heq]) (Or.inl (by rw [heq]))
  · intro s i s' hs h hstep
    rcases hstep.client_wokenTo c with ⟨hip, hpc⟩
    exact h.frame hstep.advance hip hpc
  · exact fun s i _ h hw => h.frame (.frame List.prefix_rfl rfl rfl (State.wokenTo_wakeWorker hw))
      rfl (Or.inl rfl)
  · intro s c' site h hk
    have hadv : Advance s (s.added c' site) := by
      cases site <;> exact .frame List.prefix_rfl rfl rfl fun _ => Or.inl rfl
    by_cases hc : c = c'
    · subst hc
      -- this client has returned from the wait and is in a later call
      have hlt : (s₁.client c).ip < (s.client c).ip := by
        by_contra hge
        have hw := h.waiting (by have := h.le; omega)
        rw [hk] at hw
        cases hw
      have hmono := s.ip_added c site
      exact ⟨by omega, Nat.le_trans h.pushed hadv.pushed.length_le, fun hn => by omega,
        fun _ => (h.returned hlt).advance hadv⟩
    · have heq := s.added_other site hc
      exact h.frame hadv (by rw [heq]) (Or.inl (by rw [heq]))
  · intro s c' pc h _ hpc
    have hadv : Advance s (s.goto c' pc) := .frame List.prefix_rfl rfl rfl fun _ => Or.inl rfl
    by_cases hc : c = c'
    · subst hc
      exact h.frame hadv (by simp) (by simpa using hpc)
    · exact h.frame hadv (by simp [hc]) (Or.inl (by simp [hc]))

/-- The tasks pushed stay in their order. -/
theorem pushed_prefix_of_steps (hs : d.system.Reachable s₁) (hsteps : d.system.Steps s₁ s₂) :
    s₁.history.pushed <+: s₂.history.pushed := by
  refine hsteps.invariant (P := fun s => s₁.history.pushed <+: s.history.pushed) hs
    List.prefix_rfl fun s l s' hs h hstep =>
      step_rule (P := fun s => s₁.history.pushed <+: s.history.pushed) hs h hstep ?_ ?_ ?_ ?_ ?_
  · exact fun s c s' _ h hstep => h.trans hstep.advance.pushed
  · exact fun s i s' _ h hstep => h.trans hstep.advance.pushed
  · exact fun s i _ h _ => h
  · intro s c site h _
    cases site <;> exact h
  · exact fun s c pc h _ _ => h

/-- In every run: when a call of {lit}`dispatch_queue_wait`, made in {lit}`s₁`, has returned in
{lit}`s₂`, every task that was pushed before the call has been popped, its function has
returned, and its counter was signalled or it was deleted.  Whenever the lock is free, a
worker that holds a task it has popped and not finished, or that has not yet given its
first ready signal, has the count 1 in its ready semaphore. -/
theorem host_wait_barrier (d : DispatchConfig C N β υ) :
    (∀ (c : C) (s₁ s₂ : State C N β υ), d.system.Reachable s₁ → (s₁.client c).pc = .ready →
      (d.prog c)[(s₁.client c).ip]? = some .wait → d.system.Steps s₁ s₂ →
      (s₁.client c).ip < (s₂.client c).ip →
      ∀ k t : Nat, s₁.history.pushed[k]? = some t →
        s₂.history.popped[k]? = some t ∧ k ∈ s₂.history.returned ∧
          if (d.heap.task t).waitable = true then k ∈ s₂.history.signalled
          else k ∈ s₂.history.deleted) ∧
    ∀ s : State C N β υ, d.system.Reachable s → s.lock = none → ∀ i : Fin N,
      (∃ t, (s.worker i).task? = some t) ∨ s.worker i = .start → s.semaphore i = 1 := by
  constructor
  · intro c s₁ s₂ hs hk hcall hsteps hret k t ht
    have hpassed := (passed_of_steps hs hk hcall hsteps).returned hret
    have hacc := accounted_of_reachable (hs.steps hsteps)
    have hlt : k < s₁.history.pushed.length := (List.getElem?_eq_some_iff.mp ht).1
    have hpopped : s₂.history.popped[k]? = some t := by
      have hpushed : s₂.history.pushed[k]? = some t := by
        rcases pushed_prefix_of_steps hs hsteps with ⟨l, hl⟩
        rw [← hl, List.getElem?_append_left hlt]
        exact ht
      rw [hacc.pushed_eq, List.getElem?_append_left (by have := hpassed.1; omega)] at hpushed
      exact hpushed
    exact ⟨hpopped, hpassed.finished hacc hlt hpopped⟩
  · intro s hs _ i hi
    refine (accounted_of_reachable hs).unready i ?_
    rcases hi with ⟨t, ht⟩ | hstart
    · exact WorkerPc.unready_of_task ht
    · rw [hstart]
      rfl

end Passed

/-! ## One task and one worker -/

/-- A client adds one task and waits for the queue. -/
def oneTask : DispatchConfig Unit 1 Unit Nat where
  prog := fun _ => [.taskAdd 0, .wait]
  heap := ⟨fun _ => dispatchTaskInit (fun _ n => n + 1) () false, fun _ => ⟨0, false, []⟩⟩
  user := 0

/-- The client adds its task, and is about to wait. -/
def oneTaskAdded : List (Label Unit 1) :=
  List.replicate 6 (.client ())

/-- The worker runs the task and blocks, and the wait returns. -/
def oneTaskWaited : List (Label Unit 1) :=
  List.flatten [List.replicate 19 (.worker 0), List.replicate 6 (.client ())]

theorem oneTaskAdded_run :
    (oneTask.system.run oneTask.system.init oneTaskAdded).isSome = true := by
  decide +kernel

theorem oneTaskWaited_run :
    (oneTask.system.run oneTask.system.init (oneTaskAdded ++ oneTaskWaited)).isSome = true := by
  decide +kernel

/-- The state after the task was added. -/
def oneTaskBefore : State Unit 1 Unit Nat :=
  (oneTask.system.run oneTask.system.init oneTaskAdded).get oneTaskAdded_run

/-- The state after the wait has returned. -/
def oneTaskAfter : State Unit 1 Unit Nat :=
  (oneTask.system.run oneTask.system.init (oneTaskAdded ++ oneTaskWaited)).get
    oneTaskWaited_run

/-- The task was run and deleted when the wait returned. -/
theorem host_wait_barrier_oneTask :
    oneTaskAfter.history.popped[0]? = some 0 ∧ 0 ∈ oneTaskAfter.history.returned ∧
      if (oneTask.heap.task 0).waitable = true then 0 ∈ oneTaskAfter.history.signalled
      else 0 ∈ oneTaskAfter.history.deleted :=
  (host_wait_barrier oneTask).1 () oneTaskBefore oneTaskAfter
    (oneTask.system.reachable_get_run oneTaskAdded oneTaskAdded_run) (by decide +kernel)
    (by decide +kernel)
    (oneTask.system.steps_get_run oneTaskAdded oneTaskWaited oneTaskAdded_run oneTaskWaited_run)
    (by decide +kernel) 0 0 (by decide +kernel)

end Host
end LibDispatch
