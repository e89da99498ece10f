import LibDispatch.Host.Barrier

/-!
# Deleting the host dispatch queue

{lit}`dispatch_queue_delete` sets {lit}`quit` under the lock, notifies all workers, joins them, and
only then frees the semaphores and the queue.  A worker tests {lit}`quit` in the predicate of
its wait, before it pops a task, and at the end of its loop; so wherever it is when
{lit}`quit` is set, it finishes the task it has popped, pops no other and leaves.

Main results:

- Theorem {lit}`later_of_steps`: what stays true once it is true.
- Theorem {lit}`closing_of_reachable`: what each position of {lit}`dispatch_queue_delete` says.
- Theorem {lit}`host_delete_safe`: the safety of the shutdown, from any state.
-/

namespace LibDispatch
namespace Host

variable {C : Type} {N : Nat} {β υ : Type}

/-! ## What stays true -/

/-- What a run keeps once {lit}`quit` is set, and once a worker has left. -/
structure Later (s s' : State C N β υ) : Prop where
  quit : s.quit = true → s'.quit = true
  popped : s.quit = true → s'.history.popped = s.history.popped
  awake : s.quit = true → (∀ i, s.worker i ≠ .blocked) → ∀ i, s'.worker i ≠ .blocked
  exited : ∀ i, s.worker i = .exited → s'.worker i = .exited

theorem Later.refl (s : State C N β υ) : Later s s :=
  ⟨id, fun _ => rfl, fun _ => id, fun _ => id⟩

theorem Later.trans {s s' s'' : State C N β υ} (h : Later s s') (h' : Later s' s'') :
    Later s s'' where
  quit hq := h'.quit (h.quit hq)
  popped hq := (h'.popped (h.quit hq)).trans (h.popped hq)
  awake hq hb := h'.awake (h.quit hq) (h.awake hq hb)
  exited i hi := h'.exited i (h.exited i hi)

/-- Steps that move no worker but by waking it. -/
theorem Later.frame {s s' : State C N β υ} (hquit : s.quit = true → s'.quit = true)
    (hpopped : s'.history.popped = s.history.popped)
    (hworker : ∀ i, (s.worker i).WokenTo (s'.worker i)) : Later s s' where
  quit := hquit
  popped _ := hpopped
  awake _ hb i hi := by
    rcases hworker i with heq | ⟨-, heq⟩
    · exact hb i (heq ▸ hi)
    · rw [heq] at hi
      cases hi
  exited i hi := by
    rcases hworker i with heq | ⟨hblocked, -⟩
    · exact heq.trans hi
    · rw [hi] at hblocked
      cases hblocked

section Steps

variable [DecidableEq C] {d : DispatchConfig C N β υ} {s s' : State C N β υ} {c : C} {i : Fin N}

theorem ClientStep.later (h : ClientStep d s c s') : Later s s' := by
  have hworker := h.worker_wokenTo
  cases h with
  | setQuit hk => exact .frame (fun _ => rfl) rfl hworker
  | notifyLost site hk hnone => cases site <;> exact .frame id rfl hworker
  | _ => exact .frame id rfl hworker

/-- A worker that has left takes no step. -/
theorem WorkerStep.not_exited (h : WorkerStep s i s') : s.worker i ≠ .exited := by
  intro hi
  cases h <;> simp_all

/-- A worker that pops a task has seen that {lit}`quit` is not set, and so has a worker that
blocks. -/
theorem WorkerStep.later (h : WorkerStep s i s') (hknows : (s.worker i).Knows s.deque s.quit) :
    Later s s' := by
  have hstep := h
  have hexited : ∀ j, s.worker j = .exited → s'.worker j = .exited := by
    intro j hj
    have hji : j ≠ i := fun heq => h.not_exited (heq ▸ hj)
    rw [h.other hji]
    exact hj
  have hawake : (s.quit = true → s'.worker i ≠ .blocked) → (∀ j, s.worker j ≠ .blocked) →
      s.quit = true → ∀ j, s'.worker j ≠ .blocked := by
    intro hi hb hq j
    by_cases hji : j = i
    · exact hji ▸ hi hq
    · rw [h.other hji]
      exact hb j
  cases h with
  | pop t rest hk hdeque =>
      rw [hk] at hknows
      have hq : s.quit = false := hknows.1
      refine ⟨id, fun hq' => ?_, fun hq' => ?_, hexited⟩
      · rw [hq] at hq'
        cases hq'
      · rw [hq] at hq'
        cases hq'
  | waitBlock hk hpred =>
      exact ⟨id, fun _ => rfl, fun hq _ => absurd (Or.inr hq) hpred, hexited⟩
  | _ => exact ⟨id, fun _ => rfl, fun hq hb => hawake (by simp) hb hq, hexited⟩

theorem later_of_steps {s₁ s₂ : State C N β υ} (hs : d.system.Reachable s₁)
    (hsteps : d.system.Steps s₁ s₂) : Later s₁ s₂ := by
  refine hsteps.invariant (P := Later s₁) hs (Later.refl s₁) fun s l s' hs h hstep =>
    step_rule (P := Later s₁) hs h hstep ?_ ?_ ?_ ?_ ?_
  · exact fun s c s' _ h hstep => h.trans hstep.later
  · exact fun s i s' hs h hstep => h.trans (hstep.later (knows_of_reachable hs i))
  · exact fun s i _ h hw => h.trans (.frame id rfl (State.wokenTo_wakeWorker hw))
  · intro s c site h _
    refine h.trans (.frame ?_ ?_ fun i => Or.inl ?_)
    · rw [s.quit_added]
      exact id
    · rw [s.history_added]
    · rw [s.worker_added]
  · exact fun s c pc h _ _ => h.trans (.frame id rfl fun _ => Or.inl rfl)

end Steps

/-! ## The positions of the call -/

/-- The positions of a client that calls {lit}`dispatch_queue_delete`. -/
def ClientPc.deleting : ClientPc C → Bool
  | .ready | .quitLock | .setQuit | .quitUnlock | .notifyAll => true
  | .join _ | .deleteSemaphore _ | .deleteQueue => true
  | _ => false

/-- The client has executed {lit}`notify_all`. -/
def ClientPc.notifiedAll : ClientPc C → Bool
  | .join _ | .deleteSemaphore _ | .deleteQueue => true
  | _ => false

/-- All workers have left {lit}`dispatch_queue_worker` after {lit}`quit` was set. -/
def State.Left (s : State C N β υ) : Prop :=
  s.quit = true ∧ ∀ i, s.worker i = .exited

/-- What the position of a client in {lit}`dispatch_queue_delete` says. -/
def ClientPc.Closing (pc : ClientPc C) (s : State C N β υ) : Prop :=
  match pc with
  | .quitUnlock | .notifyAll => s.quit = true
  | .join j => s.quit = true ∧ (∀ i, s.worker i ≠ .blocked) ∧
      ∀ i : Fin N, i < j → s.worker i = .exited
  | .deleteSemaphore _ | .deleteQueue => s.Left
  | _ => True

theorem State.Left.later {s s' : State C N β υ} (h : s.Left) (hlater : Later s s') : s'.Left :=
  ⟨hlater.quit h.1, fun i => hlater.exited i (h.2 i)⟩

/-- What a position says stays true. -/
theorem ClientPc.Closing.later {pc : ClientPc C} {s s' : State C N β υ} (h : pc.Closing s)
    (hlater : Later s s') : pc.Closing s' := by
  cases pc with
  | quitUnlock => exact hlater.quit h
  | notifyAll => exact hlater.quit h
  | join j => exact ⟨hlater.quit h.1, hlater.awake h.1 h.2.1,
      fun i hi => hlater.exited i (h.2.2 i hi)⟩
  | deleteSemaphore j => exact State.Left.later h hlater
  | deleteQueue => exact State.Left.later h hlater
  | _ => trivial

theorem ClientPc.WokenTo.closing {pc pc' : ClientPc C} {s : State C N β υ} (hpc : pc.WokenTo pc')
    (h : pc.Closing s) : pc'.Closing s := by
  rcases hpc with rfl | ⟨i, rfl, rfl⟩ | ⟨counter, ts, rfl, rfl⟩
  · exact h
  · trivial
  · trivial

theorem ClientPc.WokenTo.deleting_eq {pc pc' : ClientPc C} (hpc : pc.WokenTo pc') :
    pc'.deleting = pc.deleting := by
  rcases hpc with rfl | ⟨i, rfl, rfl⟩ | ⟨counter, ts, rfl, rfl⟩ <;> rfl

/-- The clients are in {lit}`dispatch_queue_delete` where their programs say so; what their
positions say is true; and after the call has returned, or once something was freed, all
workers have left. -/
structure Closed (d : DispatchConfig C N β υ) (s : State C N β υ) : Prop where
  closing : ∀ c, (s.client c).pc.Closing s
  deleting : ∀ c, (d.prog c)[(s.client c).ip]? = some .delete →
    (s.client c).pc.deleting = true
  returned : ∀ c n, n < (s.client c).ip → (d.prog c)[n]? = some .delete → s.Left
  released : ∀ o, s.released o = true → s.Left

section Closed

variable [DecidableEq C] {d : DispatchConfig C N β υ} {s s' : State C N β υ} {c : C} {i : Fin N}

omit [DecidableEq C] in
/-- Steps that move no client but by waking it, and free nothing. -/
theorem Closed.frame (h : Closed d s) (hlater : Later s s')
    (hclient : ∀ c, (s'.client c).ip = (s.client c).ip ∧
      (s.client c).pc.WokenTo (s'.client c).pc)
    (hreleased : s'.released = s.released) : Closed d s' where
  closing c := (hclient c).2.closing ((h.closing c).later hlater)
  deleting c hc := by
    rw [(hclient c).1] at hc
    rw [(hclient c).2.deleting_eq]
    exact h.deleting c hc
  returned c n hn hc := by
    rw [(hclient c).1] at hn
    exact (h.returned c n hn hc).later hlater
  released o ho := (h.released o (hreleased ▸ ho)).later hlater

/-- A client stays in its call or returns from it. -/
theorem ClientStep.ip_cases (h : ClientStep d s c s') :
    (s'.client c).ip = (s.client c).ip ∨
      ((s'.client c).ip = (s.client c).ip + 1 ∧ (s'.client c).pc = .ready) := by
  cases h with
  | notifyLost site hk hnone =>
      rcases s.added_cases c site with hadd | ⟨g, i, counter, hadd⟩
      · rw [hadd]
        simp
      · rw [hadd]
        simp
  | _ => simp

/-- A client in {lit}`dispatch_queue_delete` stays in it, or has freed the queue. -/
theorem ClientStep.deleting_cases (h : ClientStep d s c s')
    (hcall : (d.prog c)[(s.client c).ip]? = some .delete)
    (hk : (s.client c).pc.deleting = true) :
    (s'.client c).pc.deleting = true ∧ ((s'.client c).ip = (s.client c).ip ∨
      (s.client c).pc = .deleteQueue) := by
  have hother : ∀ call, call ≠ .delete → (d.prog c)[(s.client c).ip]? ≠ some call := by
    intro call hne heq
    rw [hcall] at heq
    exact hne (Option.some.inj heq).symm
  cases h with
  | delete hk' hc => exact ⟨by simp [ClientPc.deleting], Or.inl (by simp)⟩
  | quitLock hk' hfree => exact ⟨by simp [ClientPc.deleting], Or.inl (by simp)⟩
  | setQuit hk' => exact ⟨by simp [ClientPc.deleting], Or.inl (by simp)⟩
  | quitUnlock hk' => exact ⟨by simp [ClientPc.deleting], Or.inl (by simp)⟩
  | notifyAll hk' => exact ⟨by simp [ClientPc.deleting], Or.inl (by simp)⟩
  | join j hj hk' hexited => exact ⟨by simp [ClientPc.deleting], Or.inl (by simp)⟩
  | joined j hj hk' => exact ⟨by simp [ClientPc.deleting], Or.inl (by simp)⟩
  | deleteSemaphore j hj hk' => exact ⟨by simp [ClientPc.deleting], Or.inl (by simp)⟩
  | semaphoresDeleted j hj hk' => exact ⟨by simp [ClientPc.deleting], Or.inl (by simp)⟩
  | deleteQueue hk' => exact ⟨by simp [ClientPc.deleting], Or.inr hk'⟩
  | taskAddWaitable t _ hc _ => exact absurd hc (hother _ (by simp))
  | taskAddPlain t _ hc _ => exact absurd hc (hother _ (by simp))
  | groupAddWaitable g _ hc _ => exact absurd hc (hother _ (by simp))
  | groupAddPlain g _ hc _ => exact absurd hc (hother _ (by simp))
  | taskWait t counter _ hc _ _ => exact absurd hc (hother _ (by simp))
  | groupWait g t ts counter _ hc _ _ _ => exact absurd hc (hother _ (by simp))
  | wait _ hc => exact absurd hc (hother _ (by simp))
  | _ =>
      rw [(by assumption : (s.client c).pc = _)] at hk
      cases hk

/-- Each statement of {lit}`dispatch_queue_delete` establishes what the next position says. -/
theorem ClientStep.closing (h : ClientStep d s c s') (hk : (s.client c).pc.Closing s) :
    (s'.client c).pc.Closing s' := by
  have hlater := h.later
  cases h with
  | setQuit hk' => simp [ClientPc.Closing, State.goto]
  | quitUnlock hk' =>
      rw [hk'] at hk
      rw [State.client_goto, Function.update_self]
      exact hk
  | notifyAll hk' =>
      rw [hk'] at hk
      rw [State.client_goto, Function.update_self]
      exact ⟨hk, fun i => WorkerPc.wake_ne_blocked _, fun i hi => absurd hi (Nat.not_lt_zero _)⟩
  | join j hj hk' hexited =>
      rw [hk'] at hk
      rw [State.client_goto, Function.update_self]
      refine ⟨hk.1, hk.2.1, fun i hi => ?_⟩
      by_cases hij : i = ⟨j, hj⟩
      · subst hij
        exact hexited
      · have hne : (i : Nat) ≠ j := fun heq => hij (Fin.ext heq)
        exact hk.2.2 i (by omega)
  | joined j hj hk' =>
      rw [hk'] at hk
      rw [State.client_goto, Function.update_self]
      exact ⟨hk.1, fun i => hk.2.2 i (by omega)⟩
  | deleteSemaphore j hj hk' =>
      rw [hk'] at hk
      rw [State.client_goto, Function.update_self]
      exact State.Left.later hk hlater
  | semaphoresDeleted j hj hk' =>
      rw [hk'] at hk
      rw [State.client_goto, Function.update_self]
      exact State.Left.later hk hlater
  | notifyLost site hk' hnone => cases site <;> simp [State.added, ClientPc.Closing]
  | waitEmptied hk' => simp [ClientPc.Closing]
  | _ => simp [ClientPc.Closing]

/-- What is freed is freed after all workers have left. -/
theorem ClientStep.released_cases (h : ClientStep d s c s') :
    s'.released = s.released ∨ ((s.client c).pc.Closing s → s.Left) := by
  cases h with
  | deleteSemaphore j hj hk' =>
      refine Or.inr fun hk => ?_
      rw [hk'] at hk
      exact hk
  | deleteQueue hk' =>
      refine Or.inr fun hk => ?_
      rw [hk'] at hk
      exact hk
  | notifyLost site hk' hnone => cases site <;> exact Or.inl rfl
  | _ => exact Or.inl rfl

/-- A step of a client. -/
theorem Closed.client_step (h : Closed d s) (hstep : ClientStep d s c s') : Closed d s' := by
  have hlater := hstep.later
  refine ⟨fun c' => ?_, fun c' hc => ?_, fun c' n hn hc => ?_, fun o ho => ?_⟩
  · by_cases hcc : c' = c
    · subst hcc
      exact hstep.closing (h.closing c')
    · rw [hstep.other hcc]
      exact (h.closing c').later hlater
  · by_cases hcc : c' = c
    · subst hcc
      rcases hstep.ip_cases with hip | ⟨-, hready⟩
      · rw [hip] at hc
        exact (hstep.deleting_cases hc (h.deleting c' hc)).1
      · rw [hready]
        rfl
    · rw [hstep.other hcc] at hc ⊢
      exact h.deleting c' hc
  · by_cases hcc : c' = c
    · subst hcc
      rcases hstep.ip_cases with hip | ⟨hip, -⟩
      · rw [hip] at hn
        exact (h.returned c' n hn hc).later hlater
      · by_cases hlt : n < (s.client c').ip
        · exact (h.returned c' n hlt hc).later hlater
        · have hn : n = (s.client c').ip := by omega
          subst hn
          rcases (hstep.deleting_cases hc (h.deleting c' hc)).2 with hip' | hk
          · omega
          · have hclosing := h.closing c'
            rw [hk] at hclosing
            exact State.Left.later hclosing hlater
    · rw [hstep.other hcc] at hn
      exact (h.returned c' n hn hc).later hlater
  · rcases hstep.released_cases with heq | hleft
    · exact (h.released o (heq ▸ ho)).later hlater
    · exact (hleft (h.closing c)).later hlater

/-- The return from {lit}`task_add`. -/
theorem Closed.added {site : AddSite C} (h : Closed d s) (hk : (s.client c).pc = .notify site) :
    Closed d (s.added c site) := by
  have hnot : (d.prog c)[(s.client c).ip]? ≠ some .delete := by
    intro hc
    have hdeleting := h.deleting c hc
    rw [hk] at hdeleting
    cases hdeleting
  have hlater : Later s (s.added c site) := by
    cases site <;> exact .frame id rfl fun _ => Or.inl rfl
  have hip : ((s.added c site).client c).ip ≤ (s.client c).ip + 1 := by
    cases site <;> simp [State.added]
  refine ⟨fun c' => ?_, fun c' hc => ?_, fun c' n hn hc => ?_, fun o ho => ?_⟩
  · by_cases hcc : c' = c
    · subst hcc
      cases site <;> simp [State.added, ClientPc.Closing]
    · rw [s.added_other site hcc]
      exact (h.closing c').later hlater
  · by_cases hcc : c' = c
    · subst hcc
      rcases s.added_cases c' site with hadd | ⟨g, i, counter, hadd⟩
      · rw [hadd, State.client_ret, Function.update_self]
        rfl
      · rw [hadd, State.client_goto, Function.update_self] at hc
        exact absurd hc hnot
    · rw [s.added_other site hcc] at hc ⊢
      exact h.deleting c' hc
  · by_cases hcc : c' = c
    · subst hcc
      have hne : n ≠ (s.client c').ip := fun heq => hnot (heq ▸ hc)
      exact (h.returned c' n (by omega) hc).later hlater
    · rw [s.added_other site hcc] at hn
      exact (h.returned c' n hn hc).later hlater
  · refine (h.released o ?_).later hlater
    cases site <;> exact ho

/-- The invariant holds in every reachable state. -/
theorem closing_of_reachable (hs : d.system.Reachable s) : Closed d s := by
  have hinit : Closed d d.system.init :=
    ⟨fun _ => trivial, fun _ _ => rfl, fun _ n hn => absurd hn (Nat.not_lt_zero n),
      by rintro o ⟨⟩⟩
  refine hs.invariant hinit fun s l s' hs h hstep =>
    step_rule hs h hstep ?_ ?_ ?_ ?_ ?_
  · exact fun s c s' _ h hstep => h.client_step hstep
  · intro s i s' hs h hstep
    refine h.frame (hstep.later (knows_of_reachable hs i)) hstep.client_wokenTo ?_
    cases hstep <;> rfl
  · exact fun s i _ h hw => h.frame (.frame id rfl (State.wokenTo_wakeWorker hw))
      (fun _ => ⟨rfl, Or.inl rfl⟩) rfl
  · exact fun s c site h hk => h.added hk
  · intro s c pc h _ hpc
    refine h.frame (.frame id rfl fun _ => Or.inl rfl)
      (fun c' => ⟨?_, State.goto_wokenTo hpc c'⟩) rfl
    by_cases hc : c' = c
    · subst hc
      simp
    · simp [hc]

/-- In every run that follows a call of {lit}`dispatch_queue_delete`, made in {lit}`s₁`: once
{lit}`quit` is set no worker pops another task; once {lit}`notify_all` has been executed no worker
blocks; when the call has returned every task popped is finished; and what is freed is freed
after all workers have left, so that no worker takes a step afterwards. -/
theorem host_delete_safe (d : DispatchConfig C N β υ) {s₁ s₂ s₃ : State C N β υ}
    (hs : d.system.Reachable s₁)
    (hcall : (d.prog c)[(s₁.client c).ip]? = some .delete) (hsteps : d.system.Steps s₁ s₂)
    (hsteps' : d.system.Steps s₂ s₃) :
    (s₂.quit = true → s₃.history.popped = s₂.history.popped) ∧
    ((s₂.client c).pc.notifiedAll = true ∨ (s₁.client c).ip < (s₂.client c).ip →
      ∀ i, s₃.worker i ≠ .blocked) ∧
    ((s₁.client c).ip < (s₂.client c).ip → ∀ k t : Nat, s₂.history.popped[k]? = some t →
      k ∈ s₂.history.returned ∧
        if (d.heap.task t).waitable = true then k ∈ s₂.history.signalled
        else k ∈ s₂.history.deleted) ∧
    ((∃ o, s₂.released o = true) → ∀ i, s₂.worker i = .exited ∧
      d.system.step s₃ (.worker i) = none) := by
  have hs₂ := hs.steps hsteps
  have hlater := later_of_steps hs₂ hsteps'
  have h := closing_of_reachable hs₂
  refine ⟨hlater.popped, fun hnotified => ?_, fun hret k t hkt => ?_, ?_⟩
  · have hquit : s₂.quit = true ∧ ∀ i, s₂.worker i ≠ .blocked := by
      rcases hnotified with hpc | hret
      · have hclosing := h.closing c
        cases hk₂ : (s₂.client c).pc with
        | join j =>
            rw [hk₂] at hclosing
            exact ⟨hclosing.1, hclosing.2.1⟩
        | deleteSemaphore j =>
            rw [hk₂] at hclosing
            exact ⟨hclosing.1, fun i => by rw [hclosing.2 i]; simp⟩
        | deleteQueue =>
            rw [hk₂] at hclosing
            exact ⟨hclosing.1, fun i => by rw [hclosing.2 i]; simp⟩
        | _ =>
            rw [hk₂] at hpc
            cases hpc
      · have hleft := h.returned c _ hret hcall
        exact ⟨hleft.1, fun i => by rw [hleft.2 i]; simp⟩
    exact hlater.awake hquit.1 hquit.2
  · have hleft := h.returned c _ hret hcall
    rcases (accounted_of_reachable hs₂).finished k t hkt with ⟨i, hi, -⟩ | hfin
    · rw [hleft.2 i] at hi
      cases hi
    · exact hfin
  · rintro ⟨o, ho⟩ i
    have hexited := (h.released o ho).2 i
    refine ⟨hexited, ?_⟩
    change workerStep s₃ i = none
    rw [workerStep, hlater.exited i hexited]

end Closed

/-! ## One task and one worker -/

/-- A client adds one task and deletes the queue. -/
def oneTaskDelete : DispatchConfig Unit 1 Unit Nat where
  prog := fun _ => [.taskAdd 0, .delete]
  heap := ⟨fun _ => dispatchTaskInit (fun _ n => n + 1) () false, fun _ => ⟨0, false, []⟩⟩
  user := 0

/-- The client adds its task, the worker pops it, and the client is about to delete the
queue. -/
def oneTaskPopped : List (Label Unit 1) :=
  List.flatten [List.replicate 6 (.client ()), List.replicate 9 (.worker 0)]

/-- {lit}`quit` is set while the worker holds the task; the worker finishes it and leaves, and
the queue is freed. -/
def oneTaskDeleted : List (Label Unit 1) :=
  List.flatten [List.replicate 5 (.client ()), List.replicate 7 (.worker 0),
    List.replicate 5 (.client ())]

theorem oneTaskPopped_run : (oneTaskDelete.system.run oneTaskDelete.system.init
    oneTaskPopped).isSome = true := by
  decide +kernel

theorem oneTaskDeleted_run : (oneTaskDelete.system.run oneTaskDelete.system.init
    (oneTaskPopped ++ oneTaskDeleted)).isSome = true := by
  decide +kernel

/-- The task that was popped before {lit}`quit` was set is finished when the call returns. -/
theorem host_delete_safe_oneTask :
    let s := (oneTaskDelete.system.run oneTaskDelete.system.init
      (oneTaskPopped ++ oneTaskDeleted)).get oneTaskDeleted_run
    (∀ k t : Nat, s.history.popped[k]? = some t → k ∈ s.history.returned ∧
      if (oneTaskDelete.heap.task t).waitable = true then k ∈ s.history.signalled
      else k ∈ s.history.deleted) ∧
    ∀ i, s.worker i = .exited := by
  have hsteps := oneTaskDelete.system.steps_get_run oneTaskPopped oneTaskDeleted
    oneTaskPopped_run oneTaskDeleted_run
  have hsafe := host_delete_safe (c := ()) oneTaskDelete
    (oneTaskDelete.system.reachable_get_run oneTaskPopped oneTaskPopped_run)
    (by decide +kernel) hsteps Relation.ReflTransGen.refl
  exact ⟨hsafe.2.2.1 (by decide +kernel),
    fun i => (hsafe.2.2.2 ⟨.dispatchQueue, by decide +kernel⟩ i).1⟩

end Host
end LibDispatch
