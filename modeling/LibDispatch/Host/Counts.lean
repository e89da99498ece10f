import LibDispatch.Host.Clients

/-!
# The counts of the host event counters

A call that creates an event counter starts it with the number of its tasks, and a worker
takes one off for each of them, once.  So the count of a call that has started is the number
of its tasks that were not signalled, whatever the other clients do.  A client waits for the
counter of an earlier call of its own, and goes on when the tasks of that call are signalled.

Main results:

- Theorem {lit}`countedBy_of_signal`: a worker signals the counter of the call of its task.
- Theorem {lit}`counted_of_reachable`: a count is the number of tasks not signalled.
- Theorem {lit}`drained_of_zero`: a client that finds the count zero has all the tasks of the
  call signalled.
-/

namespace LibDispatch
namespace Host

variable {C : Type} {N : Nat} {β υ : Type}

/-- The tasks that executed the locked part of {lit}`Signal`. -/
def State.signalledTasks (s : State C N β υ) : List Nat :=
  s.history.tasksOf s.history.signalled

/-- The call that names the counter has started. -/
def State.created (s : State C N β υ) (counter : C × Nat) : Prop :=
  counter.2 < (s.client counter.1).ip ∨
    counter.2 = (s.client counter.1).ip ∧ (s.client counter.1).pc ≠ .ready

/-- The counter is created by the call that submits the task. -/
def DispatchConfig.CountedBy (d : DispatchConfig C N β υ) (t : Nat) (counter : C × Nat) : Prop :=
  ∃ call, (d.prog counter.1)[counter.2]? = some call ∧ call.createsCounter d.heap = true ∧
    t ∈ call.tasks d.heap

/-- The counter that a client waits for or is about to delete. -/
def ClientPc.counter? : ClientPc C → Option (C × Nat)
  | .counterWait counter _ | .counterBlocked counter _ | .deleteCounter counter _ =>
      some counter
  | _ => none

section Counts

variable [DecidableEq C] {d : DispatchConfig C N β υ} {s s' : State C N β υ} {c : C} {i : Fin N}

/-! ## What is signalled -/

omit [DecidableEq C] in
/-- A task that is signalled was popped. -/
theorem State.popped_of_signalled {t : Nat} (ht : t ∈ s.signalledTasks) :
    t ∈ s.history.popped := by
  rcases History.mem_tasksOf.mp ht with ⟨k, -, hk⟩
  exact List.mem_of_getElem? hk

omit [DecidableEq C] in
/-- What was popped was pushed. -/
theorem Accounted.pushed_of_popped (h : Accounted d s) {t : Nat} (ht : t ∈ s.history.popped) :
    t ∈ s.history.pushed := by
  rw [h.pushed_eq]
  exact List.mem_append_left _ ht

/-- A step of a client signals nothing. -/
theorem ClientStep.signalledTasks_eq (h : ClientStep d s c s') :
    s'.signalledTasks = s.signalledTasks := by
  cases h with
  | notifyLost site _ _ => cases site <;> rfl
  | _ => rfl

/-- A worker takes no task out of those signalled. -/
theorem WorkerStep.signalledTasks_subset (h : WorkerStep s i s') :
    s.signalledTasks ⊆ s'.signalledTasks := by
  have hprefix : s.history.popped <+: s'.history.popped ∧
      s.history.signalled ⊆ s'.history.signalled := by
    cases h with
    | pop t rest _ _ => exact ⟨List.prefix_append _ _, List.Subset.refl _⟩
    | signal t counter _ => exact ⟨List.prefix_refl _, List.subset_append_left _ _⟩
    | _ => exact ⟨List.prefix_refl _, List.Subset.refl _⟩
  intro t ht
  rcases History.mem_tasksOf.mp ht with ⟨k, hk, hkt⟩
  rcases List.getElem?_eq_some_iff.mp hkt with ⟨hlt, rfl⟩
  exact History.mem_tasksOf.mpr ⟨k, hprefix.2 hk, List.prefix_iff_getElem?.mp hprefix.1 k hlt⟩

/-- No task is popped twice. -/
theorem popped_nodup (hd : d.Disciplined) (hs : d.system.Reachable s) :
    s.history.popped.Nodup := by
  have hnodup := pushed_nodup hd hs
  rw [(accounted_of_reachable hs).pushed_eq] at hnodup
  exact (List.nodup_append.mp hnodup).1

/-- A worker about to decrement has a task that was not signalled. -/
theorem unsignalled_of_signal (hd : d.Disciplined) (hs : d.system.Reachable s) {t : Nat}
    {counter : C × Nat} (hk : s.worker i = .signal t counter) : t ∉ s.signalledTasks :=
  (tickets_of_reachable hs).task_unsignalled (accounted_of_reachable hs) (popped_nodup hd hs)
    (i := i) (by rw [hk]; rfl)

/-- A task that was pushed was submitted by a client, which has pushed it. -/
theorem exists_call (hd : d.Disciplined) (hs : d.system.Reachable s) {t : Nat}
    (ht : t ∈ s.history.pushed) :
    ∃ (c : C) (jp : Nat) (call : DispatchCall), (d.prog c)[jp]? = some call ∧
      t ∈ call.tasks d.heap ∧ t ∈ d.pushedBy c (s.client c) := by
  rcases exists_mine hs ht with ⟨c, hown⟩
  rcases List.mem_flatMap.mp hown with ⟨call, hcall, htask⟩
  rcases List.getElem?_of_mem hcall with ⟨jp, hjp⟩
  refine ⟨c, jp, call, hjp, htask, ?_⟩
  rw [← filter_pushed hd hs c]
  exact List.mem_filter.mpr ⟨ht, decide_eq_true hown⟩

/-! ## The counter that a worker signals -/

/-- A worker that is about to read the counter of its task finds that of the call. -/
theorem data_of_read (hd : d.Disciplined) (hs : d.system.Reachable s) {t : Nat}
    (hk : s.worker i = .readCounter t) :
    ∃ counter, (s.heap.task t).privateData = some counter ∧ d.CountedBy t counter := by
  have hacc := accounted_of_reachable hs
  have htask : (s.worker i).task? = some t := by rw [hk]; rfl
  have hwaitable : (d.heap.task t).waitable = true :=
    hacc.tested i t true htask (by rw [hk]; rfl)
  have hpopped : t ∈ s.history.popped := List.mem_of_getElem? (hacc.task i t htask)
  rcases exists_call hd hs (hacc.pushed_of_popped hpopped) with ⟨c, jp, call, hcall, ht, hby⟩
  have hcreates : call.createsCounter d.heap = true :=
    ((hd.flags c).createsCounter_iff hcall ht).mpr hwaitable
  have hset := dataSet_of_reachable hd hs c jp call t hcall hcreates ht
    (d.pushedBy_subset c _ hby)
  exact ⟨(c, jp), hset, call, hcall, hcreates, ht⟩

theorem countedBy_of_read (hd : d.Disciplined) (hs : d.system.Reachable s) {t : Nat}
    {counter : C × Nat} (hk : s.worker i = .readCounter t)
    (hdata : (s.heap.task t).privateData = some counter) : d.CountedBy t counter := by
  rcases data_of_read hd hs hk with ⟨counter', hdata', hcounted⟩
  cases Option.some.inj (hdata.symm.trans hdata')
  exact hcounted

/-- A worker signals the counter of the call that submits its task. -/
theorem countedBy_of_signal (hd : d.Disciplined) (hs : d.system.Reachable s) {t : Nat}
    {counter : C × Nat} (hk : s.worker i = .signal t counter) : d.CountedBy t counter := by
  have hinit : ∀ (i : Fin N) t counter, d.system.init.worker i = .signal t counter →
      d.CountedBy t counter := by
    intro i t counter hi
    cases hi
  refine hs.invariant (P := fun s => ∀ i t counter, s.worker i = .signal t counter →
    d.CountedBy t counter) hinit (fun s l s' hs h hstep => ?_) i t counter hk
  refine step_rule (P := fun s => ∀ i t counter, s.worker i = .signal t counter →
    d.CountedBy t counter) hs h hstep ?_ ?_ ?_ ?_ ?_
  · intro s c s' _ h hstep i t counter hi
    rcases hstep.worker_wokenTo i with heq | ⟨-, heq⟩
    · exact h i t counter (heq ▸ hi)
    · rw [hi] at heq
      cases heq
  · intro s i s' hs h hstep j t counter hj
    by_cases hji : j = i
    · subst hji
      cases hstep with
      | readCounter t' counter' hk hdata =>
          simp only [State.workerGoto, Function.update_self, WorkerPc.signal.injEq] at hj
          rcases hj with ⟨rfl, rfl⟩
          exact countedBy_of_read hd hs hk hdata
      | _ => simp at hj
    · rw [hstep.other hji] at hj
      exact h j t counter hj
  · intro s i _ h hw j t counter hj
    rcases State.wokenTo_wakeWorker hw j with heq | ⟨-, heq⟩
    · exact h j t counter (heq ▸ hj)
    · rw [hj] at heq
      cases heq
  · intro s c site h _ j t counter hj
    rw [State.worker_added] at hj
    exact h j t counter hj
  · exact fun s c pc h _ _ => h

/-! ## Calls that have started -/

/-- A step stays in the call, or returns from it. -/
theorem ClientStep.call_cases (h : ClientStep d s c s') :
    (s'.client c).ip = (s.client c).ip ∧ (s'.client c).pc ≠ .ready ∨
    (s'.client c).ip = (s.client c).ip + 1 ∧ (s'.client c).pc = .ready ∧
      (s.client c).pc ≠ .ready := by
  cases h with
  | notifyLost site hk _ =>
      cases site with
      | task counter => exact Or.inr (by simp [State.added, hk])
      | member g i counter => exact Or.inl (by simp [State.added])
  | groupDone g i counter hk _ => exact Or.inr (by simp [hk])
  | deleteDone hk => exact Or.inr (by simp [hk])
  | semaphoreDone i _ hk => exact Or.inr (by simp [hk])
  | deleteQueue hk => exact Or.inr (by simp [hk])
  | _ => exact Or.inl (by simp)

/-- A call that has started was started before, or starts with the step. -/
theorem ClientStep.created_cases (h : ClientStep d s c s') {counter : C × Nat}
    (hcreated : s'.created counter) :
    s.created counter ∨ (s.client c).pc = .ready ∧ counter = (c, (s.client c).ip) := by
  by_cases hc : counter.1 = c
  · subst hc
    by_cases hnew : (s.client counter.1).pc = .ready ∧ counter.2 = (s.client counter.1).ip
    · exact Or.inr ⟨hnew.1, Prod.ext rfl hnew.2⟩
    · left
      unfold State.created at hcreated ⊢
      rcases h.call_cases with ⟨hip, -⟩ | ⟨hip, hready, hbusy⟩
      · rw [hip] at hcreated
        rcases hcreated with hlt | ⟨heq, -⟩
        · exact Or.inl hlt
        · exact Or.inr ⟨heq, fun hk => hnew ⟨hk, heq⟩⟩
      · rcases hcreated with hlt | ⟨-, hk⟩
        · rw [hip] at hlt
          rcases Nat.lt_or_eq_of_le (Nat.le_of_lt_succ hlt) with hlt | heq
          · exact Or.inl hlt
          · exact Or.inr ⟨heq, hbusy⟩
        · exact absurd hready hk
  · left
    unfold State.created at hcreated ⊢
    rwa [h.other hc] at hcreated

omit [DecidableEq C] in
/-- A client that stays in its call has started no other. -/
theorem State.created_congr {counter : C × Nat}
    (hip : (s'.client counter.1).ip = (s.client counter.1).ip)
    (hready : (s'.client counter.1).pc = .ready ↔ (s.client counter.1).pc = .ready) :
    s'.created counter ↔ s.created counter := by
  unfold State.created
  rw [hip, ne_eq, ne_eq, hready]

omit [DecidableEq C] in
theorem ClientPc.WokenTo.ready_iff {pc pc' : ClientPc C} (h : pc.WokenTo pc') :
    pc' = .ready ↔ pc = .ready := by
  rcases h with rfl | ⟨i, rfl, rfl⟩ | ⟨counter, ts, rfl, rfl⟩ <;> simp

/-- The return from {lit}`task_add` starts no call and undoes none. -/
theorem State.created_added {site : AddSite C} (hk : (s.client c).pc = .notify site)
    {counter : C × Nat} : (s.added c site).created counter ↔ s.created counter := by
  by_cases hc : counter.1 = c
  · subst hc
    cases site with
    | task _ =>
        simp only [State.created, State.added, State.client_ret, Function.update_self, hk]
        simp
        omega
    | member g i counter' =>
        refine State.created_congr ?_ ?_
        · simp [State.added]
        · simp [State.added, hk]
  · refine State.created_congr ?_ ?_
    · rw [State.added_other s site hc]
    · rw [State.added_other s site hc]

/-! ## The counts -/

/-- A count is the number of tasks of the call that are not signalled. -/
def Counted (d : DispatchConfig C N β υ) (s : State C N β υ) : Prop :=
  ∀ (counter : C × Nat) (call : DispatchCall), (d.prog counter.1)[counter.2]? = some call →
    call.createsCounter d.heap = true → s.created counter →
      s.counter counter = (call.tasks d.heap).countP fun t => decide (t ∉ s.signalledTasks)

/-- A step of a client leaves the counters of the calls that have started alone. -/
theorem ClientStep.counter_old (h : ClientStep d s c s') {counter : C × Nat}
    (hcreated : s.created counter) : s'.counter counter = s.counter counter := by
  have hne : (s.client c).pc = .ready → counter ≠ (c, (s.client c).ip) := by
    rintro hready rfl
    rcases hcreated with hlt | ⟨-, hk⟩
    · exact Nat.lt_irrefl _ hlt
    · exact hk hready
  cases h with
  | taskAddWaitable t hk _ _ => exact Function.update_of_ne (hne hk) _ _
  | groupAddWaitable g hk _ _ => exact Function.update_of_ne (hne hk) _ _
  | notifyLost site hk _ => cases site <;> rfl
  | _ => rfl

/-- A call that creates a counter starts it with the number of its tasks. -/
theorem ClientStep.counter_new (h : ClientStep d s c s') (hgroup : s.heap.group = d.heap.group)
    (hacc : Accounted d s) (hready : (s.client c).pc = .ready) {call : DispatchCall}
    (hcall : (d.prog c)[(s.client c).ip]? = some call)
    (hcreates : call.createsCounter d.heap = true) :
    s'.counter (c, (s.client c).ip) = (call.tasks d.heap).length := by
  cases h with
  | taskAddWaitable t hk hcall' _ =>
      cases Option.some.inj (hcall.symm.trans hcall')
      exact Function.update_self _ _ _
  | taskAddPlain t hk hcall' hw =>
      cases Option.some.inj (hcall.symm.trans hcall')
      rw [hacc.waitable_eq] at hw
      exact absurd hcreates (by simp [DispatchCall.createsCounter, hw])
  | groupAddWaitable g hk hcall' _ =>
      cases Option.some.inj (hcall.symm.trans hcall')
      refine (Function.update_self _ _ _).trans ?_
      rw [hgroup]
      rfl
  | groupAddPlain g hk hcall' hw =>
      cases Option.some.inj (hcall.symm.trans hcall')
      rw [hgroup] at hw
      exact absurd hcreates (by simp [DispatchCall.createsCounter, hw])
  | taskWait t counter hk hcall' _ _ =>
      cases Option.some.inj (hcall.symm.trans hcall')
      cases hcreates
  | groupWait g t ts counter hk hcall' _ _ _ =>
      cases Option.some.inj (hcall.symm.trans hcall')
      cases hcreates
  | wait hk hcall' =>
      cases Option.some.inj (hcall.symm.trans hcall')
      cases hcreates
  | delete hk hcall' =>
      cases Option.some.inj (hcall.symm.trans hcall')
      cases hcreates
  | _ =>
      rw [(by assumption : (s.client c).pc = _)] at hready
      cases hready

/-- The tasks of a call that starts were not pushed before. -/
theorem not_pushed_of_ready (hd : d.Disciplined) (hs : d.system.Reachable s)
    (hready : (s.client c).pc = .ready) {call : DispatchCall}
    (hcall : (d.prog c)[(s.client c).ip]? = some call) {t : Nat}
    (ht : t ∈ call.tasks d.heap) : t ∉ s.history.pushed := by
  intro hpushed
  have hmine : t ∈ s.history.pushed.filter (d.mine c) :=
    List.mem_filter.mpr ⟨hpushed, decide_eq_true (d.mem_ownTasks hcall ht)⟩
  rw [filter_pushed hd hs c, DispatchConfig.pushedBy, hready] at hmine
  have hnodup : (d.submitted c ((s.client c).ip + 1)).Nodup :=
    (hd.each c).distinct.sublist (d.prefix_submitted c _).sublist
  rw [d.submitted_succ hcall] at hnodup
  exact (List.nodup_append.mp hnodup).2.2 t hmine t ht rfl

/-- A step of a client keeps the counts. -/
theorem Counted.client_step (h : Counted d s) (hd : d.Disciplined) (hs : d.system.Reachable s)
    (hstep : ClientStep d s c s') : Counted d s' := by
  have hacc := accounted_of_reachable hs
  intro counter call hcall hcreates hcreated
  rw [hstep.signalledTasks_eq]
  rcases hstep.created_cases hcreated with hold | ⟨hready, rfl⟩
  · rw [hstep.counter_old hold]
    exact h counter call hcall hcreates hold
  · rw [hstep.counter_new (located_of_reachable hs).group hacc hready hcall hcreates, eq_comm,
      List.countP_eq_length]
    intro t ht
    refine decide_eq_true fun hsig => not_pushed_of_ready hd hs hready hcall ht ?_
    exact hacc.pushed_of_popped (State.popped_of_signalled hsig)

omit [DecidableEq C] in
/-- Steps that change no count. -/
theorem Counted.frame (h : Counted d s)
    (hcreated : ∀ counter, s'.created counter ↔ s.created counter)
    (hcounter : s'.counter = s.counter) (hsig : s'.signalledTasks = s.signalledTasks) :
    Counted d s' := by
  intro counter call hcall hcreates hjp
  rw [hcounter, hsig]
  exact h counter call hcall hcreates ((hcreated counter).mp hjp)

/-- The locked decrement. -/
theorem Counted.decrement (h : Counted d s) (hd : d.Disciplined) (hs : d.system.Reachable s)
    {t : Nat} {counter : C × Nat} (hk : s.worker i = .signal t counter) :
    Counted d (((s.setCounter counter (signalCount (s.counter counter))).record fun h =>
      { h with signalled := h.signalled ++ [h.ticket i] }).workerGoto i
        (.signalTest t counter)) := by
  rcases countedBy_of_signal hd hs hk with ⟨call, hcall, hcreates, ht⟩
  have hfresh := unsignalled_of_signal hd hs hk
  have htask : s.history.popped[s.history.ticket i]? = some t :=
    (accounted_of_reachable hs).task i t (by rw [hk]; rfl)
  have hsig : State.signalledTasks (((s.setCounter counter (signalCount (s.counter counter))).record
      fun h => { h with signalled := h.signalled ++ [h.ticket i] }).workerGoto i
        (.signalTest t counter)) = s.signalledTasks ++ [t] :=
    History.tasksOf_concat htask
  intro counter' call' hcall' hcreates' hcreated'
  rw [hsig]
  have hold := h counter' call' hcall' hcreates' hcreated'
  by_cases heq : counter' = counter
  · subst heq
    cases Option.some.inj (hcall.symm.trans hcall')
    have hnodup : (call.tasks d.heap).Nodup := (hd.each counter'.1).nodup hcall
    have hless := countP_notMem_append hnodup ht hfresh
    refine (Function.update_self _ _ _).trans ?_
    unfold signalCount
    rw [hold]
    split <;> omega
  · have hnot : t ∉ call'.tasks d.heap := fun ht' => heq (hd.counter_unique hcall' ht' hcall ht)
    rw [countP_notMem_append_of_notMem hnot, ← hold]
    exact Function.update_of_ne heq _ _

/-- A step of a worker keeps the counts. -/
theorem Counted.worker_step (h : Counted d s) (hd : d.Disciplined) (hs : d.system.Reachable s)
    (hstep : WorkerStep s i s') : Counted d s' := by
  have hcreated : ∀ counter, s'.created counter ↔ s.created counter := by
    intro counter
    rcases hstep.client_wokenTo counter.1 with ⟨hip, hwoken⟩
    exact State.created_congr hip hwoken.ready_iff
  cases hstep with
  | signal t counter hk => exact h.decrement hd hs hk
  | pop t rest hk hdeque =>
      refine h.frame hcreated rfl ?_
      exact History.tasksOf_mono (List.prefix_append _ _) (tickets_of_reachable hs).lt_of_signalled
  | _ => exact h.frame hcreated rfl rfl

/-- The counts agree with the tasks signalled in every reachable state. -/
theorem counted_of_reachable (hd : d.Disciplined) (hs : d.system.Reachable s) : Counted d s := by
  have hinit : Counted d d.system.init := by
    rintro counter call - - (hlt | ⟨-, hk⟩)
    · exact absurd hlt (Nat.not_lt_zero _)
    · exact absurd rfl hk
  refine hs.invariant hinit fun s l s' hs h hstep =>
    step_rule (P := fun s => Counted d s) hs h hstep
      (fun _ _ _ hs h hstep => h.client_step hd hs hstep)
      (fun _ _ _ hs h hstep => h.worker_step hd hs hstep) ?_ ?_ ?_
  · exact fun s i _ h _ => h.frame (fun _ => Iff.rfl) rfl rfl
  · intro s c site h hk
    cases site <;> exact h.frame (fun _ => State.created_added hk) rfl rfl
  · intro s c pc h _ hpc
    refine h.frame (fun counter => State.created_congr (s.ip_goto c pc _) ?_) rfl rfl
    exact (State.goto_wokenTo hpc counter.1).ready_iff

/-! ## The counter that a client waits for -/

/-- A client waits for the counter of an earlier call of its own. -/
def Waiting (d : DispatchConfig C N β υ) (s : State C N β υ) : Prop :=
  ∀ c counter, (s.client c).pc.counter? = some counter → ∃ jp ts,
    counter = (c, jp) ∧ (d.programOf c).Awaits (s.client c).ip jp ts

/-- A client goes on with the counter of its wait, or starts to wait for the counter that a
task of the call leads to. -/
theorem ClientStep.counter?_cases (h : ClientStep d s c s') {counter : C × Nat}
    (hk : (s'.client c).pc.counter? = some counter) :
    (s'.client c).ip = (s.client c).ip ∧ ((s.client c).pc.counter? = some counter ∨
      ∃ t call, (d.prog c)[(s.client c).ip]? = some call ∧
        t ∈ call.awaited s.heap ∧ (s.client c).pc = .ready ∧
          (s.heap.task t).privateData = some counter) := by
  cases h with
  | taskWait t counter' hready hcall _ hdata =>
      refine ⟨by simp, Or.inr ⟨t, _, hcall, List.mem_singleton_self t, hready, ?_⟩⟩
      rwa [show some counter' = some counter by simpa [ClientPc.counter?] using hk] at hdata
  | groupWait g t ts counter' hready hcall _ htasks hdata =>
      refine ⟨by simp, Or.inr ⟨t, _, hcall, DispatchCall.mem_awaited_of_cons htasks, hready, ?_⟩⟩
      rwa [show some counter' = some counter by simpa [ClientPc.counter?] using hk] at hdata
  | counterZero counter' ts hwait _ =>
      refine ⟨by simp, Or.inl ?_⟩
      simpa [ClientPc.counter?, hwait] using hk
  | counterBlock counter' ts hwait _ =>
      refine ⟨by simp, Or.inl ?_⟩
      simpa [ClientPc.counter?, hwait] using hk
  | notifyLost site _ _ => cases site <;> simp [State.added, ClientPc.counter?] at hk
  | _ => simp [ClientPc.counter?] at hk

omit [DecidableEq C] in
theorem ClientPc.WokenTo.counter?_eq {pc pc' : ClientPc C} (h : pc.WokenTo pc') :
    pc'.counter? = pc.counter? := by
  rcases h with rfl | ⟨i, rfl, rfl⟩ | ⟨counter, ts, rfl, rfl⟩ <;> rfl

/-- A task of an earlier call of a client leads to the counter of the call. -/
theorem data_of_earlier (hd : d.Disciplined) (hs : d.system.Reachable s) {jp t : Nat}
    {call : DispatchCall} (hcall : (d.prog c)[jp]? = some call) (hlt : jp < (s.client c).ip)
    (hcreates : call.createsCounter d.heap = true) (ht : t ∈ call.tasks d.heap) :
    (s.heap.task t).privateData = some (c, jp) := by
  refine dataSet_of_reachable hd hs c jp call t hcall hcreates ht ?_
  refine d.pushedBy_subset c _ (((located_of_reachable hs).prefix_pushedBy c).1.subset ?_)
  refine (d.submitted_mono c hlt).subset ?_
  rw [d.submitted_succ hcall]
  exact List.mem_append_right _ ht

/-- A step of a client keeps what the clients wait for. -/
theorem Waiting.client_step (h : Waiting d s) (hd : d.Disciplined) (hs : d.system.Reachable s)
    (hstep : ClientStep d s c s') : Waiting d s' := by
  intro c' counter hk
  by_cases hc : c' = c
  · subst hc
    rcases hstep.counter?_cases hk with ⟨hip, hold | ⟨t, call, hcall, ht, -, hdata⟩⟩
    · rw [hip]
      exact h c' counter hold
    · have hawaited : t ∈ call.awaited d.heap := by
        cases call with
        | taskWait t' => exact ht
        | groupWait g =>
            change t ∈ (d.heap.group g).tasks
            rw [← (located_of_reachable hs).group]
            exact ht
        | _ => cases ht
      rcases (hd.each c').exists_awaits hcall hawaited with ⟨jp, hlt, hawaits⟩
      rcases (hd.each c').awaits_call hawaits with ⟨add, hadd, htasks, hcreates, -⟩
      have hset := data_of_earlier hd hs hadd hlt hcreates (htasks.symm ▸ hawaited)
      rw [hip]
      exact ⟨jp, _, Option.some.inj (hdata.symm.trans hset), hawaits⟩
  · rw [hstep.other hc] at hk ⊢
    exact h c' counter hk

theorem waiting_of_reachable (hd : d.Disciplined) (hs : d.system.Reachable s) : Waiting d s := by
  have hinit : Waiting d d.system.init := by
    intro c counter hk
    cases hk
  refine hs.invariant hinit fun s l s' hs h hstep =>
    step_rule (P := fun s => Waiting d s) hs h hstep
      (fun _ _ _ hs h hstep => h.client_step hd hs hstep) ?_ (fun _ _ _ h _ => h) ?_ ?_
  · intro s i s' _ h hstep c counter hk
    rcases hstep.client_wokenTo c with ⟨hip, hwoken⟩
    rw [hwoken.counter?_eq] at hk
    rw [hip]
    exact h c counter hk
  · intro s c site h hk c' counter hk'
    by_cases hc : c' = c
    · subst hc
      cases site <;> simp [State.added, ClientPc.counter?] at hk'
    · rw [s.added_other site hc] at hk' ⊢
      exact h c' counter hk'
  · intro s c pc h _ hpc c' counter hk
    rw [(State.goto_wokenTo hpc c').counter?_eq] at hk
    rw [s.ip_goto]
    exact h c' counter hk

/-- All tasks of the call that created the counter are signalled. -/
def State.Drained (d : DispatchConfig C N β υ) (s : State C N β υ) (counter : C × Nat) : Prop :=
  ∀ call, (d.prog counter.1)[counter.2]? = some call → call.tasks d.heap ⊆ s.signalledTasks

/-- When a client finds the count zero, the tasks of the call are signalled. -/
theorem drained_of_zero (hd : d.Disciplined) (hs : d.system.Reachable s) {counter : C × Nat}
    (hk : (s.client c).pc.counter? = some counter) (hzero : s.counter counter = 0) :
    s.Drained d counter := by
  rcases waiting_of_reachable hd hs c counter hk with ⟨jp, ts, rfl, hawaits⟩
  rcases (hd.each c).awaits_call hawaits with ⟨call, hcall, -, hcreates, -⟩
  intro call' hcall'
  cases Option.some.inj (hcall.symm.trans hcall')
  have hcount := counted_of_reachable hd hs (c, jp) call hcall hcreates
    (Or.inl ((hd.each c).awaits_lt hawaits))
  rw [hzero, eq_comm, List.countP_eq_zero] at hcount
  intro t ht
  by_contra hnot
  exact hcount t ht (decide_eq_true hnot)

end Counts

end Host
end LibDispatch
