import LibDispatch.Host.DispatchSteps
import LibDispatch.Library.Ownership

/-!
# Who holds the lock of the host queue

A {lit}`std::unique_lock` holds {lit}`dispatch_queue->lock` from the statement that takes it to
the one that gives it back, {lit}`cv.wait` included.  This file says at which positions that
is, and proves that the recorded owner is the thread at such a position.

Main results:

- Theorems {lit}`ClientStep.other`, {lit}`ClientStep.worker_wokenTo`, {lit}`WorkerStep.other` and
  {lit}`WorkerStep.client_wokenTo`: what a step leaves alone.
- Theorem {lit}`step_rule`: what every step of the system keeps.
- Theorem {lit}`lockHeld_of_reachable`: positions and owner agree.
- Theorem {lit}`LockHeld.exclusive`: two threads are not both at holding positions.
- Theorem {lit}`knows_of_reachable`: what a worker has tested under the lock is still true.
- Theorems {lit}`LockHeld.client_frame` and {lit}`LockHeld.worker_frame`: the deque and
  {lit}`quit` are protected by the lock.
-/

namespace LibDispatch
namespace Host

variable {C : Type} {N : Nat} {β υ : Type}

/-! ## Positions that hold the lock -/

/-- Positions at which a client holds the lock. -/
def ClientPc.holds : ClientPc C → Bool
  | .push _ _ | .addUnlock _ => true
  | .waitSize | .waitUnlock _ => true
  | .setQuit | .quitUnlock => true
  | _ => false

/-- Positions at which a worker holds the lock. -/
def WorkerPc.holds : WorkerPc C → Bool
  | .readySignal | .readyTest | .readyNotify => true
  | .waitTest | .testTask | .reset | .pop | .unlock _ => true
  | .loopTest | .leave => true
  | _ => false

/-- The thread is at a position that holds the lock. -/
def State.holds (s : State C N β υ) : C ⊕ Fin N → Bool
  | .inl c => (s.client c).pc.holds
  | .inr i => (s.worker i).holds

/-- The recorded owner is the thread at a holding position. -/
def LockHeld (s : State C N β υ) : Prop :=
  OwnedBy s.lock (fun b : Bool => b = true) s.holds

/-! ## Waking up -/

/-- The worker stays where it is, or wakes up. -/
def WorkerPc.WokenTo (pc pc' : WorkerPc C) : Prop :=
  pc' = pc ∨ (pc = .blocked ∧ pc' = .woken)

/-- The client stays where it is, or wakes up and tests its predicate again. -/
def ClientPc.WokenTo (pc pc' : ClientPc C) : Prop :=
  pc' = pc ∨ (∃ i, pc = .semaphoreBlocked i ∧ pc' = .semaphoreWait i) ∨
    ∃ counter ts, pc = .counterBlocked counter ts ∧ pc' = .counterWait counter ts

theorem WorkerPc.wokenTo_wake (pc : WorkerPc C) : pc.WokenTo pc.wake := by
  cases pc with
  | blocked => exact Or.inr ⟨rfl, rfl⟩
  | _ => exact Or.inl rfl

theorem WorkerPc.wake_ne_blocked (pc : WorkerPc C) : pc.wake ≠ .blocked := by
  cases pc <;> simp [WorkerPc.wake]

theorem WorkerPc.WokenTo.holds_eq {pc pc' : WorkerPc C} (h : pc.WokenTo pc') :
    pc'.holds = pc.holds := by
  rcases h with rfl | ⟨rfl, rfl⟩ <;> rfl

theorem ClientPc.WokenTo.holds_eq {pc pc' : ClientPc C} (h : pc.WokenTo pc') :
    pc'.holds = pc.holds := by
  rcases h with rfl | ⟨i, rfl, rfl⟩ | ⟨counter, ts, rfl, rfl⟩ <;> rfl

theorem ClientPc.wokenTo_wakeSemaphore (i : Nat) (pc : ClientPc C) :
    pc.WokenTo (pc.wakeSemaphore i) := by
  cases pc with
  | semaphoreBlocked j =>
      by_cases hj : j = i
      · exact Or.inr (Or.inl ⟨j, rfl, if_pos hj⟩)
      · exact Or.inl (if_neg hj)
  | _ => exact Or.inl rfl

variable [DecidableEq C]

theorem ClientPc.wokenTo_wakeCounter (counter : C × Nat) (pc : ClientPc C) :
    pc.WokenTo (pc.wakeCounter counter) := by
  cases pc with
  | counterBlocked counter' ts =>
      by_cases hcounter : counter' = counter
      · exact Or.inr (Or.inr ⟨counter', ts, rfl, if_pos hcounter⟩)
      · exact Or.inl (if_neg hcounter)
  | _ => exact Or.inl rfl

omit [DecidableEq C] in
/-- A wake-up of a worker, from the point of view of any worker. -/
theorem State.wokenTo_wakeWorker {s : State C N β υ} {i : Fin N} (hworker : s.worker i = .blocked)
    (j : Fin N) : (s.worker j).WokenTo ((s.wakeWorker i).worker j) := by
  by_cases hj : j = i
  · subst hj
    exact Or.inr ⟨hworker, Function.update_self _ _ _⟩
  · exact Or.inl (Function.update_of_ne hj _ _)

/-! ## What a step leaves alone -/

section Frame

variable {d : DispatchConfig C N β υ} {s s' : State C N β υ} {c c' : C} {i j : Fin N}

@[simp]
theorem State.client_goto (s : State C N β υ) (c : C) (pc : ClientPc C) :
    (s.goto c pc).client = Function.update s.client c { s.client c with pc := pc } :=
  rfl

/-- A wake-up of a client, from the point of view of any client. -/
theorem State.goto_wokenTo {pc : ClientPc C} (hpc : (s.client c).pc.WokenTo pc) (c' : C) :
    (s.client c').pc.WokenTo ((s.goto c pc).client c').pc := by
  by_cases hc : c' = c
  · subst hc
    rw [State.client_goto, Function.update_self]
    exact hpc
  · rw [State.client_goto, Function.update_of_ne hc]
    exact Or.inl rfl

@[simp]
theorem State.client_ret (s : State C N β υ) (c : C) :
    (s.ret c).client = Function.update s.client c ⟨(s.client c).ip + 1, .ready⟩ :=
  rfl

@[simp]
theorem State.client_setCounter (s : State C N β υ) (counter : C × Nat) (n : Nat) :
    (s.setCounter counter n).client = s.client :=
  rfl

omit [DecidableEq C] in
@[simp]
theorem State.client_record (s : State C N β υ) (f : History C N → History C N) :
    (s.record f).client = s.client :=
  rfl

omit [DecidableEq C] in
@[simp]
theorem State.client_storePrivateData (s : State C N β υ) (t : Nat) (p : Option (C × Nat)) :
    (s.storePrivateData t p).client = s.client :=
  rfl

omit [DecidableEq C] in
@[simp]
theorem State.client_notifyWorkers (s : State C N β υ) : s.notifyWorkers.client = s.client :=
  rfl

omit [DecidableEq C] in
@[simp]
theorem State.worker_workerGoto (s : State C N β υ) (i : Fin N) (pc : WorkerPc C) :
    (s.workerGoto i pc).worker = Function.update s.worker i pc :=
  rfl

/-- {lit}`task_add` returns at one of two positions. -/
theorem State.added_cases (s : State C N β υ) (c : C) (site : AddSite C) :
    s.added c site = s.ret c ∨
      ∃ g i counter, s.added c site = s.goto c (.groupLoop g i counter) := by
  cases site with
  | task counter => exact Or.inl rfl
  | member g i counter => exact Or.inr ⟨g, i + 1, counter, rfl⟩

/-- A return from {lit}`task_add` moves one client and nothing else. -/
theorem State.added_other (s : State C N β υ) (site : AddSite C) (hc : c' ≠ c) :
    (s.added c site).client c' = s.client c' := by
  rcases s.added_cases c site with h | ⟨g, i, counter, h⟩
  · rw [h, State.client_ret, Function.update_of_ne hc]
  · rw [h, State.client_goto, Function.update_of_ne hc]

@[simp]
theorem State.worker_added (s : State C N β υ) (c : C) (site : AddSite C) :
    (s.added c site).worker = s.worker := by
  cases site <;> rfl

@[simp]
theorem State.deque_added (s : State C N β υ) (c : C) (site : AddSite C) :
    (s.added c site).deque = s.deque := by
  cases site <;> rfl

@[simp]
theorem State.quit_added (s : State C N β υ) (c : C) (site : AddSite C) :
    (s.added c site).quit = s.quit := by
  cases site <;> rfl

@[simp]
theorem State.history_added (s : State C N β υ) (c : C) (site : AddSite C) :
    (s.added c site).history = s.history := by
  cases site <;> rfl

@[simp]
theorem State.lock_added (s : State C N β υ) (c : C) (site : AddSite C) :
    (s.added c site).lock = s.lock := by
  cases site <;> rfl

/-- After {lit}`task_add` the client is outside the lock. -/
theorem State.holds_added (s : State C N β υ) (c : C) (site : AddSite C) :
    ((s.added c site).client c).pc.holds = false := by
  cases site <;> simp [State.added, ClientPc.holds]

/-- A client does not move the others. -/
theorem ClientStep.other (h : ClientStep d s c s') (hc : c' ≠ c) :
    s'.client c' = s.client c' := by
  cases h with
  | notifyLost site _ _ => exact s.added_other site hc
  | _ => exact Function.update_of_ne hc _ _

/-- A client moves a worker only by waking it. -/
theorem ClientStep.worker_wokenTo (h : ClientStep d s c s') (i : Fin N) :
    (s.worker i).WokenTo (s'.worker i) := by
  cases h with
  | notifyAll hk => exact WorkerPc.wokenTo_wake _
  | notifyLost site _ _ => exact Or.inl (by rw [s.worker_added])
  | _ => exact Or.inl rfl

/-- A worker does not move the others. -/
theorem WorkerStep.other (h : WorkerStep s i s') (hj : j ≠ i) : s'.worker j = s.worker j := by
  cases h <;> exact Function.update_of_ne hj _ _

/-- A worker moves a client only by waking it. -/
theorem WorkerStep.client_wokenTo (h : WorkerStep s i s') (c : C) :
    (s'.client c).ip = (s.client c).ip ∧ (s.client c).pc.WokenTo (s'.client c).pc := by
  cases h with
  | readyNotify _ => exact ⟨rfl, ClientPc.wokenTo_wakeSemaphore i _⟩
  | signalNotify t counter _ => exact ⟨rfl, ClientPc.wokenTo_wakeCounter counter _⟩
  | _ => exact ⟨rfl, Or.inl rfl⟩

/-- The rule for what every step of the system keeps: the steps of the clients and of the
workers keep it, and so do the wake-ups and the return from {lit}`task_add`. -/
theorem step_rule {P : State C N β υ → Prop} {l : Label C N} (hs : d.system.Reachable s)
    (hP : P s) (hstep : d.system.step s l = some s')
    (hclient : ∀ s c s', d.system.Reachable s → P s → ClientStep d s c s' → P s')
    (hworker : ∀ s i s', d.system.Reachable s → P s → WorkerStep s i s' → P s')
    (hwake : ∀ s i, d.system.Reachable s → P s → s.worker i = .blocked → P (s.wakeWorker i))
    (hadded : ∀ s c site, P s → (s.client c).pc = .notify site → P (s.added c site))
    (hgoto : ∀ s c pc, P s → (s.client c).pc ≠ pc → (s.client c).pc.WokenTo pc →
      P (s.goto c pc)) : P s' := by
  rcases step_cases hstep with ⟨c, -, hstep⟩ | ⟨i, -, hstep⟩ | ⟨c, i, site, -, hk, hw, rfl⟩ |
    ⟨i, -, hw, rfl⟩ | ⟨c, counter, ts, -, hk, rfl⟩ | ⟨c, i, -, hk, rfl⟩
  · exact hclient s c s' hs hP hstep
  · exact hworker s i s' hs hP hstep
  · exact hadded _ c site (hwake s i hs hP hw) hk
  · exact hwake s i hs hP hw
  · exact hgoto s c _ hP (by simp [hk]) (Or.inr (Or.inr ⟨counter, ts, hk, rfl⟩))
  · exact hgoto s c _ hP (by simp [hk]) (Or.inr (Or.inl ⟨i, hk, rfl⟩))

/-! ## What a step does to the lock -/

/-- A client leaves the lock alone, takes it while it is free, or gives it back while
holding it. -/
theorem ClientStep.lock_cases (h : ClientStep d s c s') :
    (s'.lock = s.lock ∧ ((s'.client c).pc.holds = true ↔ (s.client c).pc.holds = true)) ∨
    (s.lock = none ∧ s'.lock = some (.inl c) ∧ (s'.client c).pc.holds = true) ∨
    ((s.client c).pc.holds = true ∧ s'.lock = none ∧ ¬ (s'.client c).pc.holds = true) := by
  cases h with
  | addLock t site hk hfree =>
      exact Or.inr (Or.inl ⟨hfree, rfl, by simp [ClientPc.holds]⟩)
  | waitLock hk hfree => exact Or.inr (Or.inl ⟨hfree, rfl, by simp [ClientPc.holds]⟩)
  | quitLock hk hfree => exact Or.inr (Or.inl ⟨hfree, rfl, by simp [ClientPc.holds]⟩)
  | addUnlock site hk =>
      exact Or.inr (Or.inr ⟨by simp [hk, ClientPc.holds], rfl, by simp [ClientPc.holds]⟩)
  | waitEmptied hk =>
      exact Or.inr (Or.inr ⟨by simp [hk, ClientPc.holds], rfl, by simp [ClientPc.holds]⟩)
  | waitAgain count hk _ =>
      exact Or.inr (Or.inr ⟨by simp [hk, ClientPc.holds], rfl, by simp [ClientPc.holds]⟩)
  | quitUnlock hk =>
      exact Or.inr (Or.inr ⟨by simp [hk, ClientPc.holds], rfl, by simp [ClientPc.holds]⟩)
  | notifyLost site hk _ =>
      refine Or.inl ⟨s.lock_added c site, ?_⟩
      rw [s.holds_added c site, hk]
      rfl
  | _ =>
      refine Or.inl ⟨rfl, ?_⟩
      simp [(by assumption : (s.client c).pc = _), ClientPc.holds]

/-- A client changes the deque and {lit}`quit` only while it holds the lock. -/
theorem ClientStep.guarded_eq (h : ClientStep d s c s') (hk : (s.client c).pc.holds = false) :
    s'.deque = s.deque ∧ s'.quit = s.quit := by
  cases h with
  | push t site hk' =>
      rw [hk'] at hk
      cases hk
  | setQuit hk' =>
      rw [hk'] at hk
      cases hk
  | notifyLost site hk' hnone => cases site <;> exact ⟨rfl, rfl⟩
  | _ => exact ⟨rfl, rfl⟩

/-- A worker changes the deque only while it holds the lock, and {lit}`quit` never. -/
theorem WorkerStep.guarded_eq (h : WorkerStep s i s') (hk : (s.worker i).holds = false) :
    s'.deque = s.deque ∧ s'.quit = s.quit := by
  cases h with
  | pop t rest hk' hdeque =>
      rw [hk'] at hk
      cases hk
  | _ => exact ⟨rfl, rfl⟩

/-- A worker leaves the lock alone, takes it while it is free, or gives it back while
holding it. -/
theorem WorkerStep.lock_cases (h : WorkerStep s i s') :
    (s'.lock = s.lock ∧ ((s'.worker i).holds = true ↔ (s.worker i).holds = true)) ∨
    (s.lock = none ∧ s'.lock = some (.inr i) ∧ (s'.worker i).holds = true) ∨
    ((s.worker i).holds = true ∧ s'.lock = none ∧ ¬ (s'.worker i).holds = true) := by
  cases h with
  | start hk hfree => exact Or.inr (Or.inl ⟨hfree, rfl, by simp [WorkerPc.holds]⟩)
  | woken hk hfree => exact Or.inr (Or.inl ⟨hfree, rfl, by simp [WorkerPc.holds]⟩)
  | relock hk hfree => exact Or.inr (Or.inl ⟨hfree, rfl, by simp [WorkerPc.holds]⟩)
  | waitBlock hk _ =>
      exact Or.inr (Or.inr ⟨by simp [hk, WorkerPc.holds], rfl, by simp [WorkerPc.holds]⟩)
  | unlock t hk =>
      exact Or.inr (Or.inr ⟨by simp [hk, WorkerPc.holds], rfl, by simp [WorkerPc.holds]⟩)
  | leave hk =>
      exact Or.inr (Or.inr ⟨by simp [hk, WorkerPc.holds], rfl, by simp [WorkerPc.holds]⟩)
  | _ =>
      refine Or.inl ⟨rfl, ?_⟩
      simp [(by assumption : s.worker i = _), WorkerPc.holds]

end Frame

/-! ## The invariant -/

section Invariant

variable {d : DispatchConfig C N β υ} {s s' : State C N β υ} {c c' : C} {i j : Fin N}

theorem lockHeld_init (d : DispatchConfig C N β υ) : LockHeld d.system.init := by
  intro p
  cases p <;> simp [DispatchConfig.system, DispatchConfig.init, State.holds, ClientPc.holds,
    WorkerPc.holds]

omit [DecidableEq C] in
/-- A step that leaves the lock and the holding positions alone. -/
theorem LockHeld.frame (h : LockHeld s) (hlock : s'.lock = s.lock) (hholds : s'.holds = s.holds) :
    LockHeld s' := by
  rw [LockHeld, hlock, hholds]
  exact h

/-- A step of a client keeps positions and owner in agreement. -/
theorem LockHeld.client_step (h : LockHeld s) (hstep : ClientStep d s c s') : LockHeld s' := by
  have hholds : s'.holds = Function.update s.holds (.inl c) (s'.client c).pc.holds := by
    funext p
    cases p with
    | inl c' =>
        by_cases hc : c' = c
        · subst hc
          rw [Function.update_self]
          rfl
        · have hne : (Sum.inl c' : C ⊕ Fin N) ≠ .inl c := fun heq => hc (Sum.inl.inj heq)
          rw [Function.update_of_ne hne]
          simp only [State.holds, hstep.other hc]
    | inr i =>
        rw [Function.update_of_ne Sum.inr_ne_inl]
        exact (hstep.worker_wokenTo i).holds_eq
  rw [LockHeld, hholds]
  exact OwnedBy.step h hstep.lock_cases

/-- A step of a worker keeps positions and owner in agreement. -/
theorem LockHeld.worker_step (h : LockHeld s) (hstep : WorkerStep s i s') : LockHeld s' := by
  have hholds : s'.holds = Function.update s.holds (.inr i) (s'.worker i).holds := by
    funext p
    cases p with
    | inl c =>
        rw [Function.update_of_ne Sum.inl_ne_inr]
        exact (hstep.client_wokenTo c).2.holds_eq
    | inr j =>
        by_cases hj : j = i
        · subst hj
          rw [Function.update_self]
          rfl
        · have hne : (Sum.inr j : C ⊕ Fin N) ≠ .inr i := fun heq => hj (Sum.inr.inj heq)
          rw [Function.update_of_ne hne]
          simp only [State.holds, hstep.other hj]
  rw [LockHeld, hholds]
  exact OwnedBy.step h hstep.lock_cases

omit [DecidableEq C] in
/-- A wake-up of a worker leaves the holding positions alone. -/
theorem State.holds_wakeWorker (hworker : s.worker i = .blocked) :
    (s.wakeWorker i).holds = s.holds := by
  funext p
  cases p with
  | inl c => rfl
  | inr j => exact (State.wokenTo_wakeWorker hworker j).holds_eq

/-- A move of a client between two positions that both hold the lock, or both do not. -/
theorem State.holds_goto {pc : ClientPc C} (hpc : pc.holds = (s.client c).pc.holds) :
    (s.goto c pc).holds = s.holds := by
  funext p
  cases p with
  | inl c' =>
      by_cases hc : c' = c
      · subst hc
        simpa [State.holds] using hpc
      · simp [State.holds, hc]
  | inr j => rfl

/-- The return from {lit}`task_add` leaves the holding positions alone. -/
theorem State.holds_added_eq {site : AddSite C} (hk : (s.client c).pc = .notify site) :
    (s.added c site).holds = s.holds := by
  funext p
  cases p with
  | inl c' =>
      by_cases hc : c' = c
      · subst hc
        simp only [State.holds, s.holds_added c' site, hk]
        rfl
      · simp only [State.holds, s.added_other site hc]
  | inr j => simp only [State.holds, s.worker_added]

/-- In every reachable state the lock is held by the thread at a holding position. -/
theorem lockHeld_of_reachable (hs : d.system.Reachable s) : LockHeld s := by
  refine hs.invariant (lockHeld_init d) fun s l s' hs h hstep => step_rule hs h hstep ?_ ?_ ?_ ?_ ?_
  · exact fun _ _ _ _ h hstep => h.client_step hstep
  · exact fun _ _ _ _ h hstep => h.worker_step hstep
  · exact fun s i _ h hw => h.frame rfl (State.holds_wakeWorker hw)
  · exact fun s c site h hk => h.frame (s.lock_added c site) (State.holds_added_eq hk)
  · exact fun s c pc h _ hpc => h.frame rfl (State.holds_goto hpc.holds_eq)

omit [DecidableEq C] in
/-- Two threads are not both at holding positions. -/
theorem LockHeld.exclusive (h : LockHeld s) {p q : C ⊕ Fin N} (hp : s.holds p = true)
    (hq : s.holds q = true) : p = q :=
  OwnedBy.exclusive h hp hq

/-- While a thread holds the lock, the steps of the clients other than it leave the deque
and {lit}`quit` alone. -/
theorem LockHeld.client_frame (h : LockHeld s) {p : C ⊕ Fin N} (hp : s.holds p = true)
    (hne : p ≠ .inl c) (hstep : ClientStep d s c s') : s'.deque = s.deque ∧ s'.quit = s.quit := by
  refine hstep.guarded_eq (Bool.eq_false_iff.mpr fun hc => hne ?_)
  exact h.exclusive (q := .inl c) hp hc

/-- While a thread holds the lock, the steps of the workers other than it leave the deque
and {lit}`quit` alone. -/
theorem LockHeld.worker_frame (h : LockHeld s) {p : C ⊕ Fin N} (hp : s.holds p = true)
    (hne : p ≠ .inr i) (hstep : WorkerStep s i s') : s'.deque = s.deque ∧ s'.quit = s.quit := by
  refine hstep.guarded_eq (Bool.eq_false_iff.mpr fun hi => hne ?_)
  exact h.exclusive (q := .inr i) hp hi

/-- What a worker that holds the lock has tested. -/
def WorkerPc.Knows (pc : WorkerPc C) (deque : List Nat) (quit : Bool) : Prop :=
  match pc with
  | .testTask => deque.length ≠ 0 ∨ quit = true
  | .reset | .pop => quit = false ∧ deque.length ≠ 0
  | .leave => quit = true
  | _ => True

omit [DecidableEq C] in
/-- Nothing that was tested without the lock is relied on. -/
theorem WorkerPc.knows_of_not_holds {pc : WorkerPc C} (hpc : pc.holds = false) (deque : List Nat)
    (quit : Bool) : pc.Knows deque quit := by
  cases pc with
  | testTask => cases hpc
  | reset => cases hpc
  | pop => cases hpc
  | leave => cases hpc
  | _ => trivial

omit [DecidableEq C] in
/-- What a worker has tested stays true when it wakes up. -/
theorem WorkerPc.WokenTo.knows {pc pc' : WorkerPc C} (hpc : pc.WokenTo pc') {deque : List Nat}
    {quit : Bool} (h : pc.Knows deque quit) : pc'.Knows deque quit := by
  rcases hpc with rfl | ⟨rfl, rfl⟩
  · exact h
  · trivial

/-- The step that a worker takes is in accordance with what it has tested. -/
theorem WorkerStep.knows (h : WorkerStep s i s') (hi : (s.worker i).Knows s.deque s.quit) :
    (s'.worker i).Knows s'.deque s'.quit := by
  cases h with
  | waitPass hk hpred =>
      rw [State.worker_workerGoto, Function.update_self]
      exact hpred
  | testTask hk htask =>
      rw [State.worker_workerGoto, Function.update_self]
      exact htask
  | reset hk =>
      rw [State.worker_workerGoto, Function.update_self]
      rw [hk] at hi
      exact hi
  | loopQuit hk hquit =>
      rw [State.worker_workerGoto, Function.update_self]
      exact hquit
  | _ =>
      rw [State.worker_workerGoto, Function.update_self]
      trivial

/-- In every reachable state, what a worker has tested under the lock is still true. -/
theorem knows_of_reachable (hs : d.system.Reachable s) (i : Fin N) :
    (s.worker i).Knows s.deque s.quit := by
  revert i
  refine hs.invariant (P := fun s => ∀ i, (s.worker i).Knows s.deque s.quit) (fun _ => trivial)
    fun s l s' hs h hstep => step_rule (P := fun s => ∀ i, (s.worker i).Knows s.deque s.quit)
      hs h hstep ?_ ?_ ?_ ?_ ?_
  · intro s c s' hs h hstep i
    have hwoken := hstep.worker_wokenTo i
    cases hholds : (s.worker i).holds with
    | false => exact WorkerPc.knows_of_not_holds (hwoken.holds_eq.trans hholds) _ _
    | true =>
        rcases (lockHeld_of_reachable hs).client_frame (p := .inr i) hholds (by simp) hstep with
          ⟨hdeque, hquit⟩
        rw [hdeque, hquit]
        exact hwoken.knows (h i)
  · intro s j s' hs h hstep i
    by_cases hij : i = j
    · subst hij
      exact hstep.knows (h i)
    · rw [hstep.other hij]
      cases hholds : (s.worker i).holds with
      | false => exact WorkerPc.knows_of_not_holds hholds _ _
      | true =>
          rcases (lockHeld_of_reachable hs).worker_frame (p := .inr i) hholds (by simpa using hij)
            hstep with ⟨hdeque, hquit⟩
          rw [hdeque, hquit]
          exact h i
  · exact fun s j _ h hw i => (State.wokenTo_wakeWorker hw i).knows (h i)
  · intro s c site h _ i
    rw [s.worker_added, s.deque_added, s.quit_added]
    exact h i
  · exact fun s c pc h _ _ i => h i

end Invariant

end Host
end LibDispatch
