import LibDispatch.Host.LockDiscipline
import LibDispatch.Library.Tally

/-!
# Wake-ups of the host queue

{lit}`task_add` calls {lit}`notify_one` after it has given back the lock, so the notification can
come when nobody waits, and the worker that it wakes can find that another one has taken the
task.  What is never lost is the balance: while some worker blocks, each task in the deque
has a client that is still to notify, or a worker that was woken and has since neither
popped a task nor blocked again.

Main results:

- Theorem {lit}`notified_of_reachable`: the balance in every reachable state.
- Theorem {lit}`host_no_lost_wakeup`: what follows for the deque.
- Theorem {lit}`host_woken_holds_lock`: the workers on their way to the lock are too few once
  one of them has taken it.
-/

namespace LibDispatch
namespace Host

variable {C : Type} {N : Nat} {β υ : Type}

/-! ## Counting -/

/-- The client has pushed a task and not yet executed {lit}`notify_one`. -/
def Client.toNotify (client : Client C) : Nat :=
  match client.pc with
  | .addUnlock _ | .notify _ => 1
  | _ => 0

/-- The worker was woken and has not yet taken the lock again. -/
def WorkerPc.relocking : WorkerPc C → Nat
  | .woken => 1
  | _ => 0

/-- The positions of a worker between a wake-up and the pop that follows it. -/
def WorkerPc.awake : WorkerPc C → Bool
  | .woken | .waitTest | .testTask | .reset | .pop => true
  | _ => false

/-- A worker that is notified is on its way to the lock. -/
theorem WorkerPc.awake_wake {pc : WorkerPc C} (h : pc.awake = true ∨ pc.isBlocked = true) :
    pc.wake.awake = true := by
  cases pc with
  | blocked => rfl
  | _ => rcases h with h | h <;> first | exact h | cases h

/-- The calls of {lit}`task_add` that have pushed and not yet executed {lit}`notify_one`. -/
def State.toNotify [Fintype C] (s : State C N β υ) : Nat :=
  tally Client.toNotify s.client

/-- The workers that were woken and have since neither popped a task nor blocked again. -/
def State.wokenWorkers (s : State C N β υ) : Nat :=
  tally Bool.toNat s.history.woken

/-- The workers that were woken and have not yet taken the lock again. -/
def State.relockingWorkers (s : State C N β υ) : Nat :=
  tally WorkerPc.relocking s.worker

/-- A wake-up that changes nothing else does not add a notification. -/
theorem Client.toNotify_wokenTo {client client' : Client C} (h : client.pc.WokenTo client'.pc) :
    client'.toNotify = client.toNotify := by
  rcases h with h | ⟨i, h, h'⟩ | ⟨counter, ts, h, h'⟩
  · simp only [Client.toNotify, h]
  · simp only [Client.toNotify, h, h']
  · simp only [Client.toNotify, h, h']

section Balance

variable [Fintype C] [DecidableEq C] {d : DispatchConfig C N β υ} {s s' : State C N β υ}
  {c : C} {i : Fin N}

/-- A step of a client replaces its weight. -/
theorem ClientStep.toNotify (h : ClientStep d s c s') :
    s'.toNotify + (s.client c).toNotify = s.toNotify + (s'.client c).toNotify := by
  have hclient : s'.client = Function.update s.client c (s'.client c) := by
    funext c'
    by_cases hc : c' = c
    · subst hc
      rw [Function.update_self]
    · rw [Function.update_of_ne hc, h.other hc]
  have htally := tally_update Client.toNotify s.client c (s'.client c)
  rw [← hclient] at htally
  exact htally

/-- The balance of tasks, notifications and wake-ups. -/
structure Notified (s : State C N β υ) : Prop where
  covered : s.quit = false → (∃ i, s.worker i = .blocked) →
    s.deque.length ≤ s.toNotify + s.wokenWorkers
  asleep : ∀ i, s.worker i = .blocked → s.history.woken i = false
  awake : ∀ i, s.quit = false → s.history.woken i = true → (s.worker i).awake = true

omit [DecidableEq C] in
/-- A step of a client that changes neither the deque nor the workers. -/
theorem Notified.client_frame (h : Notified s) (hdeque : s'.deque = s.deque)
    (hquit : s'.quit = s.quit) (hworker : s'.worker = s.worker)
    (hwoken : s'.history.woken = s.history.woken) (hnotify : s.toNotify ≤ s'.toNotify) :
    Notified s' where
  covered hq hb := by
    rw [hdeque, State.wokenWorkers, hwoken]
    rw [hworker] at hb
    have hle := h.covered (hquit ▸ hq) hb
    rw [State.wokenWorkers] at hle
    omega
  asleep i hi := by
    rw [hwoken]
    exact h.asleep i (hworker ▸ hi)
  awake i hq hi := by
    rw [hworker]
    exact h.awake i (hquit ▸ hq) (hwoken ▸ hi)

/-- A step of a client keeps the balance. -/
theorem Notified.client_step (h : Notified s) (hstep : ClientStep d s c s') : Notified s' := by
  have hnotify := hstep.toNotify
  cases hstep with
  | push t site hk =>
      simp only [State.client_goto, State.client_record, Function.update_self, Client.toNotify,
        hk] at hnotify
      refine ⟨fun hq hb => ?_, h.asleep, h.awake⟩
      have hle := h.covered hq hb
      change (s.deque ++ [t]).length ≤ _ + s.wokenWorkers
      rw [List.length_append, List.length_singleton]
      omega
  | notifyLost site hk hnone =>
      refine ⟨fun _ hb => ?_, fun i hi => ?_, fun i hq hi => ?_⟩
      · rcases hb with ⟨i, hi⟩
        exact absurd (by rw [← s.worker_added c site]; exact hi) (hnone i)
      · rw [s.worker_added] at hi
        rw [s.history_added]
        exact h.asleep i hi
      · rw [s.quit_added] at hq
        rw [s.history_added] at hi
        rw [s.worker_added]
        exact h.awake i hq hi
  | setQuit hk =>
      exact ⟨by rintro ⟨⟩, h.asleep, by rintro _ ⟨⟩⟩
  | notifyAll hk =>
      refine ⟨fun _ ⟨i, hi⟩ => absurd hi (WorkerPc.wake_ne_blocked _), fun i hi =>
        absurd hi (WorkerPc.wake_ne_blocked _), fun i hq hi => WorkerPc.awake_wake ?_⟩
      rcases Bool.or_eq_true_iff.mp hi with hwoken | hblocked
      · exact Or.inl (h.awake i hq hwoken)
      · exact Or.inr hblocked
  | _ =>
      refine h.client_frame rfl rfl rfl rfl ?_
      simp only [State.client_goto, State.client_ret, State.client_record,
        State.client_setCounter, State.client_storePrivateData, Function.update_self,
        Client.toNotify, (by assumption : (s.client c).pc = _)] at hnotify
      omega

omit [DecidableEq C] in
/-- A wake-up adds no notification and takes none away. -/
theorem State.toNotify_eq (h : ∀ c, (s.client c).pc.WokenTo (s'.client c).pc) :
    s'.toNotify = s.toNotify :=
  Finset.sum_congr rfl fun c _ => Client.toNotify_wokenTo (h c)

/-- The return from {lit}`task_add` takes one notification away. -/
theorem State.toNotify_added {site : AddSite C} (hk : (s.client c).pc = .notify site) :
    (s.added c site).toNotify + 1 = s.toNotify := by
  have hclient : (s.added c site).client =
      Function.update s.client c ((s.added c site).client c) := by
    funext c'
    by_cases hc : c' = c
    · subst hc
      rw [Function.update_self]
    · rw [Function.update_of_ne hc, s.added_other site hc]
  have htally := tally_update Client.toNotify s.client c ((s.added c site).client c)
  have hzero : ((s.added c site).client c).toNotify = 0 := by
    cases site <;> simp [State.added, Client.toNotify]
  have hone : (s.client c).toNotify = 1 := by
    simp only [Client.toNotify, hk]
  rw [← hclient, hzero, hone] at htally
  exact htally

/-- A step of a worker that does not block and that changes neither the deque nor what is
recorded about wake-ups. -/
theorem Notified.worker_frame (h : Notified s) (hstep : WorkerStep s i s')
    (hdeque : s'.deque = s.deque) (hquit : s'.quit = s.quit)
    (hwoken : s'.history.woken = s.history.woken) (hblocked : s'.worker i ≠ .blocked)
    (hawake : s.quit = false → (s.worker i).awake = true → (s'.worker i).awake = true) :
    Notified s' where
  covered hq hb := by
    have hb' : ∃ j, s.worker j = .blocked := by
      rcases hb with ⟨j, hj⟩
      have hji : j ≠ i := fun heq => hblocked (heq ▸ hj)
      exact ⟨j, (hstep.other hji).symm.trans hj⟩
    have hle := h.covered (hquit ▸ hq) hb'
    rw [hdeque, State.toNotify_eq fun c => (hstep.client_wokenTo c).2, State.wokenWorkers, hwoken]
    exact hle
  asleep j hj := by
    have hji : j ≠ i := fun heq => hblocked (heq ▸ hj)
    rw [hwoken]
    exact h.asleep j ((hstep.other hji).symm.trans hj)
  awake j hq hj := by
    rw [hwoken] at hj
    have hold := h.awake j (hquit ▸ hq) hj
    by_cases hji : j = i
    · subst hji
      exact hawake (hquit ▸ hq) hold
    · rw [hstep.other hji]
      exact hold

/-- A step of a worker keeps the balance. -/
theorem Notified.worker_step (h : Notified s) (hknows : ∀ i, (s.worker i).Knows s.deque s.quit)
    (hstep : WorkerStep s i s') : Notified s' := by
  have hnotify := State.toNotify_eq fun c => (hstep.client_wokenTo c).2
  have hother := fun j (hj : j ≠ i) => hstep.other hj
  have hstep' := hstep
  cases hstep with
  | waitBlock hk hpred =>
      have hempty : s.deque.length = 0 := by
        by_contra hne
        exact hpred (Or.inl hne)
      refine ⟨fun _ _ => by change s.deque.length ≤ _; omega, fun j hj => ?_, fun j hq hj => ?_⟩
      · by_cases hji : j = i
        · subst hji
          exact Function.update_self _ _ _
        · exact (Function.update_of_ne hji _ _).trans (h.asleep j ((hother j hji).symm.trans hj))
      · by_cases hji : j = i
        · subst hji
          simp [State.workerGoto, State.record] at hj
        · rw [hother j hji]
          refine h.awake j hq ?_
          rw [← hj]
          exact (Function.update_of_ne hji _ _).symm
  | pop t rest hk hdeque =>
      have hwoken := tally_update Bool.toNat s.history.woken i false
      have hle : (s.history.woken i).toNat ≤ 1 := Bool.toNat_le _
      refine ⟨fun hq hb => ?_, fun j hj => ?_, fun j hq hj => ?_⟩
      · have hb' : ∃ j, s.worker j = .blocked := by
          rcases hb with ⟨j, hj⟩
          by_cases hji : j = i
          · subst hji
            simp at hj
          · exact ⟨j, (hother j hji).symm.trans hj⟩
        have hcov := h.covered hq hb'
        rw [hnotify]
        change rest.length ≤ s.toNotify + tally Bool.toNat (Function.update s.history.woken i false)
        rw [hdeque, List.length_cons, State.wokenWorkers] at hcov
        rw [Bool.toNat_false] at hwoken
        omega
      · by_cases hji : j = i
        · subst hji
          simp at hj
        · exact (Function.update_of_ne hji _ _).trans (h.asleep j ((hother j hji).symm.trans hj))
      · by_cases hji : j = i
        · subst hji
          simp [State.workerGoto, State.record] at hj
        · rw [hother j hji]
          refine h.awake j hq ?_
          rw [← hj]
          exact (Function.update_of_ne hji _ _).symm
  | testNone hk htask =>
      refine h.worker_frame hstep' rfl rfl rfl (by simp) fun hq _ => ?_
      have hpred := hknows i
      rw [hk] at hpred
      rcases hpred with hne | hquit
      · exact absurd ⟨hq, hne⟩ htask
      · rw [hq] at hquit
        cases hquit
  | _ =>
      refine h.worker_frame hstep' rfl rfl rfl (by simp) fun _ => ?_
      rw [(by assumption : s.worker i = _)]
      simp [WorkerPc.awake]

omit [DecidableEq C] in
/-- A worker that wakes up takes the place of a task or of a notification. -/
theorem Notified.wake (h : Notified s) (hworker : s.worker i = .blocked) :
    Notified (s.wakeWorker i) ∧ (s.wakeWorker i).wokenWorkers = s.wokenWorkers + 1 := by
  have hwoken := tally_update Bool.toNat s.history.woken i true
  rw [h.asleep i hworker, Bool.toNat_true, Bool.toNat_false] at hwoken
  have hplus : (s.wakeWorker i).wokenWorkers = s.wokenWorkers + 1 := hwoken
  have hself : (s.wakeWorker i).worker i = .woken := Function.update_self _ _ _
  have hother : ∀ j, j ≠ i → (s.wakeWorker i).worker j = s.worker j :=
    fun j hj => Function.update_of_ne hj _ _
  refine ⟨⟨fun hq _ => ?_, fun j hj => ?_, fun j hq hj => ?_⟩, hplus⟩
  · have hle := h.covered hq ⟨i, hworker⟩
    rw [hplus]
    change s.deque.length ≤ s.toNotify + _
    omega
  · by_cases hji : j = i
    · subst hji
      rw [hself] at hj
      cases hj
    · exact (Function.update_of_ne hji _ _).trans (h.asleep j ((hother j hji).symm.trans hj))
  · by_cases hji : j = i
    · subst hji
      rw [hself]
      rfl
    · rw [hother j hji]
      refine h.awake j hq ?_
      rw [← hj]
      exact (Function.update_of_ne hji _ _).symm

/-- The balance holds in every reachable state. -/
theorem notified_of_reachable (hs : d.system.Reachable s) : Notified s := by
  have hinit : Notified d.system.init :=
    ⟨fun _ _ => Nat.zero_le _, fun _ _ => rfl, by rintro i _ ⟨⟩⟩
  refine hs.invariant hinit ?_
  intro s l s' hs h hstep
  rcases step_cases hstep with ⟨c, -, hstep⟩ | ⟨i, -, hstep⟩ | ⟨c, i, site, -, hk, hw, rfl⟩ |
    ⟨i, -, hw, rfl⟩ | ⟨c, counter, ts, -, hk, rfl⟩ | ⟨c, i, -, hk, rfl⟩
  · exact h.client_step hstep
  · exact h.worker_step (knows_of_reachable hs) hstep
  · -- the client stops being counted and the worker starts to be
    rcases h.wake hw with ⟨hwake, hplus⟩
    have hk' : ((s.wakeWorker i).client c).pc = .notify site := hk
    have hminus := State.toNotify_added hk'
    have hle := fun hq => h.covered hq ⟨i, hw⟩
    have hsame : (s.wakeWorker i).toNotify = s.toNotify := rfl
    refine ⟨fun hq _ => ?_, fun j hj => ?_, fun j hq hj => ?_⟩
    · rw [State.quit_added] at hq
      have hle := hle hq
      rw [State.deque_added, State.wokenWorkers, State.history_added]
      change s.deque.length ≤ _ + (s.wakeWorker i).wokenWorkers
      omega
    · rw [State.worker_added] at hj
      rw [State.history_added]
      exact hwake.asleep j hj
    · rw [State.quit_added] at hq
      rw [State.history_added] at hj
      rw [State.worker_added]
      exact hwake.awake j hq hj
  · exact (h.wake hw).1
  · refine h.client_frame rfl rfl rfl rfl (State.toNotify_eq fun c' => ?_).ge
    exact State.goto_wokenTo (Or.inr (Or.inr ⟨counter, ts, hk, rfl⟩)) c'
  · refine h.client_frame rfl rfl rfl rfl (State.toNotify_eq fun c' => ?_).ge
    exact State.goto_wokenTo (Or.inr (Or.inl ⟨i, hk, rfl⟩)) c'

/-- In every reachable state before {lit}`quit` is set, while some worker blocks in
{lit}`cv.wait` and has not been notified, the tasks in the deque are at most the calls of
{lit}`task_add` that have pushed and not yet executed {lit}`notify_one` and the workers that
were woken and have since neither popped a task nor blocked again; these are the workers
about to take the lock as long as no worker holds it.  So when there is a worker, not all
workers block with a task in the deque and no call still to notify. -/
theorem host_no_lost_wakeup (d : DispatchConfig C N β υ) (hs : d.system.Reachable s)
    (hquit : s.quit = false) :
    ((∃ i, s.worker i = .blocked) → s.deque.length ≤ s.toNotify + s.wokenWorkers) ∧
    ((∃ i, s.worker i = .blocked) → (∀ i, s.lock ≠ some (.inr i)) →
      s.deque.length ≤ s.toNotify + s.relockingWorkers) ∧
    ¬ (0 < N ∧ s.deque ≠ [] ∧ s.toNotify = 0 ∧ ∀ i, s.worker i = .blocked) := by
  have h := notified_of_reachable hs
  refine ⟨h.covered hquit, fun hb hlock => ?_, ?_⟩
  · have hle : s.wokenWorkers ≤ s.relockingWorkers := by
      rw [State.wokenWorkers, State.relockingWorkers, tally, tally]
      refine Finset.sum_le_sum fun i _ => ?_
      cases hwoken : s.history.woken i with
      | false => exact Nat.zero_le _
      | true =>
          have hawake := h.awake i hquit hwoken
          have hheld := (lockHeld_of_reachable hs (.inr i)).not.mp (hlock i)
          simp only [State.holds] at hheld
          cases hw : s.worker i with
          | woken => exact Nat.le_refl _
          | _ =>
              rw [hw] at hawake hheld
              first
              | exact absurd rfl hheld
              | cases hawake
    have hcov := h.covered hquit hb
    omega
  · rintro ⟨hN, hne, hnone, hall⟩
    have hcov := h.covered hquit ⟨⟨0, hN⟩, hall _⟩
    have hzero : s.wokenWorkers = 0 := by
      rw [State.wokenWorkers, tally_eq_zero_iff]
      intro i
      rw [h.asleep i (hall i)]
      rfl
    have hpos := List.length_pos_iff.mpr hne
    omega

end Balance

/-! ## One task and two workers -/

/-- A client adds one task, and two workers wait for it. -/
def twoWorkers : DispatchConfig Unit 2 Unit Nat where
  prog := fun _ => [.taskAdd 0]
  heap := ⟨fun _ => dispatchTaskInit (fun _ n => n + 1) () false, fun _ => ⟨0, false, []⟩⟩
  user := 0

/-- Both workers block, the client adds its task and notifies the first. -/
def twoWorkersNotified : List (Label Unit 2) :=
  List.flatten [List.replicate 5 (.worker 0), List.replicate 5 (.worker 1),
    List.replicate 5 (.client ()), [.notify () 0]]

theorem twoWorkersNotified_run : (twoWorkers.system.run twoWorkers.system.init
    twoWorkersNotified).isSome = true := by
  decide +kernel

/-- The first worker takes the lock. -/
theorem twoWorkersRelocked_run : (twoWorkers.system.run twoWorkers.system.init
    (twoWorkersNotified ++ [.worker 0])).isSome = true := by
  decide +kernel

/-- After the notification the task is matched by the worker that was woken. -/
theorem host_no_lost_wakeup_twoWorkers :
    let s := (twoWorkers.system.run twoWorkers.system.init twoWorkersNotified).get
      twoWorkersNotified_run
    ((∃ i, s.worker i = .blocked) → s.deque.length ≤ s.toNotify + s.wokenWorkers) ∧
    ((∃ i, s.worker i = .blocked) → (∀ i, s.lock ≠ some (.inr i)) →
      s.deque.length ≤ s.toNotify + s.relockingWorkers) ∧
    ¬ (0 < 2 ∧ s.deque ≠ [] ∧ s.toNotify = 0 ∧ ∀ i, s.worker i = .blocked) :=
  host_no_lost_wakeup twoWorkers
    (twoWorkers.system.reachable_get_run twoWorkersNotified twoWorkersNotified_run)
    (by decide +kernel)

/-- Once the worker that was woken has taken the lock, and before it pops the task, the
other worker blocks while no client is to notify and no worker is about to take the lock. -/
theorem host_woken_holds_lock :
    ¬ ∀ s : State Unit 2 Unit Nat, twoWorkers.system.Reachable s → s.quit = false →
      (∃ i, s.worker i = .blocked) → s.deque.length ≤ s.toNotify + s.relockingWorkers := by
  intro hclaim
  have hle := hclaim _ (twoWorkers.system.reachable_get_run _ twoWorkersRelocked_run)
    (by decide +kernel) ⟨1, by decide +kernel⟩
  exact absurd hle (by decide +kernel)

end Host
end LibDispatch
