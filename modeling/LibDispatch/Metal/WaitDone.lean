import LibDispatch.Metal.Waits

/-!
# Event counters are accounted for

The end token of a counter is sent by the thread whose step takes the count from one to
zero, and by no other.  With the invariants of the counters and of the waits this is what
{lit}`dispatch_queue_task_wait` and {lit}`dispatch_queue_group_wait` rest on.

Main results:

- Theorem {lit}`DispatchStep.token`: what a step does to the end token of a counter.
- Theorem {lit}`group_wait_done`: the accounting of the event counters and what the waits
  promise, for the threads over the queue of the source.
-/

namespace LibDispatch
namespace Metal

variable {N : Nat} {β υ : Type}

section Token

variable {d : DispatchConfig Unit N β υ}
  {a a' : AtomicState (Unit ⊕ Fin N) Nat (Local Unit) (Env Unit N β υ)} {u : Unit ⊕ Fin N}
  {t jp : Nat} {c : Unit × Nat} {call : DispatchCall} {k : Local Unit} {env : Env Unit N β υ}

/-! ## The token and the last signal -/

/-- What a step of a thread does to the end token of a counter: only the step that takes
the count from one to zero makes its thread send the token. -/
def TokenStep (c : Unit × Nat) (env env' : Env Unit N β υ) (k k' : Local Unit) : Prop :=
  env'.history.tokenSent.count c + k'.sending c =
    env.history.tokenSent.count c + k.sending c +
      if (env.counter c).count = 1 ∧ (env'.counter c).count = 0 then 1 else 0

/-- Steps that leave the count and the token alone. -/
theorem TokenStep.same {env' : Env Unit N β υ} {k' : Local Unit}
    (hcount : (env'.counter c).count = (env.counter c).count)
    (hsent : env'.history.tokenSent.count c + k'.sending c =
      env.history.tokenSent.count c + k.sending c) : TokenStep c env env' k k' := by
  have hnot : ¬ ((env.counter c).count = 1 ∧ (env'.counter c).count = 0) := by omega
  rw [TokenStep, if_neg hnot, Nat.add_zero]
  exact hsent

/-- The token and the statements of {lit}`run_task`. -/
theorem RunStep.token {me : Unit ⊕ Fin N} {env' : Env Unit N β υ} {at_ : RunPc Unit}
    {r : Option (RunPc Unit)} (h : RunStep me env t at_ env' r) {k' : Local Unit}
    (hk : k.runAt = some (t, at_)) (hk' : k'.runAt = r.map fun at' => (t, at'))
    (c : Unit × Nat) : TokenStep c env env' k k' := by
  have hold := Local.signalling_of_runAt hk
  have hnew : k'.signalling =
      (r.map fun at' => (t, at')).bind fun x => x.2.counter.map fun c => (x.1, c, x.2) := by
    rw [Local.signalling, hk']
  have hcount : ∀ (c' : Unit × Nat) counter, counter.count = (env.counter c').count →
      ((env.setCounter c' counter).counter c).count = (env.counter c).count := by
    intro c' counter heq
    by_cases hc : c = c'
    · subst hc
      simpa [Env.setCounter] using heq
    · simp [Env.setCounter, hc]
  cases h with
  | readCounter c' hdata =>
      apply TokenStep.same rfl
      rw [Local.sending_of_none hold, Local.sending_eq hnew]
      simp [RunPc.last]
  | signalLock c' hfree =>
      refine TokenStep.same (hcount c' _ (by rfl)) ?_
      rw [Local.sending_eq hold, Local.sending_eq hnew]
      simp [RunPc.last, Env.setCounter]
  | decrement c' =>
      by_cases hc : c = c'
      · -- the count of this counter is decremented
        subst hc
        have hlast : ∀ signal, (RunPc.signalUnlock c signal : RunPc Unit).last = signal := by
          intro signal
          cases signal <;> rfl
        rw [TokenStep, Local.sending_eq hold, Local.sending_eq hnew, hlast]
        simp only [RunPc.last, Env.setCounter, Function.update_self, true_and,
          Bool.false_eq_true, if_false, decide_eq_true_eq]
        split_ifs <;> omega
      · have hne : c' ≠ c := fun heq => hc heq.symm
        apply TokenStep.same
        · simp [Env.setCounter, hc]
        · rw [Local.sending_eq hold, Local.sending_eq hnew]
          simp [hne]
  | signalLast c' =>
      refine TokenStep.same (hcount c' _ (by rfl)) ?_
      rw [Local.sending_eq hold, Local.sending_eq hnew]
      simp [RunPc.last, Env.setCounter]
  | signalDone c' =>
      refine TokenStep.same (hcount c' _ (by rfl)) ?_
      rw [Local.sending_eq hold, Local.sending_of_none hnew]
      simp [RunPc.last]
  | sendToken c' =>
      refine TokenStep.same (hcount c' _ (by rfl)) ?_
      rw [Local.sending_eq hold, Local.sending_of_none hnew]
      simp [RunPc.last, List.count_append, List.count_singleton]
  | _ =>
      apply TokenStep.same rfl
      rw [Local.sending_of_none hold, Local.sending_of_none hnew]

/-- The token and all other steps, for a call that submits something. -/
theorem DispatchStep.token (h : DispatchStep d a u a') (htracked : Tracked d a)
    (hcall : (d.prog ())[jp]? = some call) (hne : call.tasks d.heap ≠ []) :
    TokenStep ((), jp) a.env a'.env (a.thread u) (a'.thread u) := by
  have hsilent : ∀ (k : Local Unit) (fifo : List Nat) (env : Env Unit N β υ),
      (a.thread u).signalling = none → k.signalling = none →
      env.history.tokenSent = a.env.history.tokenSent →
      ((env.counter ((), jp)).count = (a.env.counter ((), jp)).count ∨
        (env.counter ((), jp)).count ≠ 0) →
      TokenStep ((), jp) a.env env (a.thread u) (Function.update a.thread u k u) := by
    intro k fifo env hold hnew hsent hcount
    have hnot : ¬ ((a.env.counter ((), jp)).count = 1 ∧ (env.counter ((), jp)).count = 0) := by
      omega
    rw [TokenStep, if_neg hnot, Function.update_self, Local.sending_of_none hold,
      Local.sending_of_none hnew, hsent, Nat.add_zero]
  cases h with
  | run _ t at_ env' r hrun hstep =>
      simp only [Function.update_self]
      exact hstep.token hrun (Local.runAt_runNext hrun) _
  | taskAddWaitable c ip t hk _ _ =>
      refine hsilent _ a.fifo _ (by rw [hk]; rfl)
        (Local.signalling_of_not_run (DispatchConfig.runAt_addEntry ip t _)) rfl ?_
      by_cases heq : jp = ip
      · subst heq
        right
        simp [Env.setCounter, Env.storePrivateData, eventCounterCreate]
      · left
        simp [Env.setCounter, Env.storePrivateData, heq]
  | groupAddWaitable c ip g hk hgroup _ =>
      refine hsilent _ a.fifo _ (by rw [hk]; rfl) rfl rfl ?_
      by_cases heq : jp = ip
      · subst heq
        right
        rw [hcall] at hgroup
        cases hgroup
        have hlength := List.length_pos_of_ne_nil hne
        simp only [Env.setCounter, Function.update_self, eventCounterCreate, Group.count,
          htracked.group]
        exact Nat.ne_of_gt hlength
      · left
        simp [Env.setCounter, heq]
  | checkToken c ip counter tasks hk _ =>
      refine hsilent _ a.fifo _ (by rw [hk]; rfl) rfl rfl (Or.inl ?_)
      by_cases heq : ((), jp) = counter
      · subst heq
        simp [Env.setCounter]
      · simp [Env.setCounter, heq]
  | send c ip t site hk _ =>
      exact hsilent _ a.fifo _ (by rw [hk]; rfl)
        (Local.signalling_of_not_run (AddSite.runAt_next ip site)) rfl (Or.inl rfl)
  | taskAddPlain c ip t hk _ _ =>
      exact hsilent _ a.fifo _ (by rw [hk]; rfl)
        (Local.signalling_of_not_run (DispatchConfig.runAt_addEntry ip t _)) rfl (Or.inl rfl)
  | groupStore c ip g i t counter hk _ =>
      exact hsilent _ a.fifo _ (by rw [hk]; rfl)
        (Local.signalling_of_not_run (DispatchConfig.runAt_addEntry ip t _)) rfl (Or.inl rfl)
  | freeObject c ip object k hk hnext =>
      rcases hnext with rfl | ⟨object', rfl⟩
      · exact hsilent _ a.fifo _ (by rw [hk]; rfl) rfl rfl (Or.inl rfl)
      · exact hsilent _ a.fifo _ (by rw [hk]; rfl) rfl rfl (Or.inl rfl)
  | _ =>
      refine hsilent _ a.fifo _ ?_ rfl rfl (Or.inl rfl)
      rw [(by assumption : a.thread _ = _)]
      rfl

end Token

/-! ## The event counters over the queue of the source -/

/-- What holds of the event counter of the {lit}`jp`-th call in a state. -/
structure Accounted (d : DispatchConfig Unit N β υ) (handshake : Bool)
    (s : State (Unit ⊕ Fin N) (Option (Fin N)) Nat (Local Unit) (Env Unit N β υ))
    (jp : Nat) (call : DispatchCall) : Prop where
  /-- The count is the number of tasks that have not executed the locked decrement. -/
  count : (d.view s (.inl ())).created jp → (s.env.counter ((), jp)).count =
    (call.tasks d.heap).countP fun t => decide (t ∉ s.env.history.signalled)
  /-- The decrement never finds zero. -/
  positive : ∀ u t, (d.view s u).signalling = some (t, ((), jp), .decrement ((), jp)) →
    0 < (s.env.counter ((), jp)).count
  /-- The tasks of the call, and no others, signal this counter. -/
  own : ∀ u t c at_, (d.view s u).signalling = some (t, c, at_) →
    (c = ((), jp) ↔ t ∈ call.tasks d.heap)
  /-- The end token is sent, or going to be sent, exactly once when all have signalled. -/
  token : s.env.history.tokenSent.count ((), jp) + tally (Local.sending ((), jp)) (d.view s) =
    if (call.tasks d.heap).countP (fun t => decide (t ∉ s.env.history.signalled)) = 0
      then 1 else 0
  /-- It is sent by the thread whose step takes the count from one to zero. -/
  last : ∀ u s', (d.threads handshake).step s u = some s' →
    TokenStep ((), jp) s.env s'.env (d.view s u) (d.view s' u)
  /-- A wait returns only after the functions of all tasks have returned. -/
  done : ∀ w ts, d.Awaits w jp ts → w < (d.view s (.inl ())).ip →
    ∀ t ∈ call.tasks d.heap, t ∈ s.env.history.returned

/-- Waiting for a waitable task or group means that its work is done.  In every
interleaving of one client and any number of workers over the queue of the source, with
groups built by any sequence of calls, the event counter of every call that submits
something is accounted for. -/
theorem group_wait_done (d : DispatchConfig Unit N β υ) (handshake : Bool)
    {ts gs as : List Nat} (hbuilt : Built d.heap ts gs as)
    (hgroups : ∀ g, .groupAdd g ∈ d.prog () → g ∈ gs) (hd : d.Disciplined)
    (hdelete : .delete ∉ d.prog ())
    {s : State (Unit ⊕ Fin N) (Option (Fin N)) Nat (Local Unit) (Env Unit N β υ)}
    (hs : (d.threads handshake).Reachable s) {jp : Nat} {call : DispatchCall}
    (hcall : (d.prog ())[jp]? = some call) (hcreates : d.createsCounter call = true)
    (hne : call.tasks d.heap ≠ []) : Accounted d handshake s jp call := by
  have hflags := DispatchConfig.flagsAgree_of_built hbuilt hgroups
  have hdelete' : ∀ c, .delete ∉ d.prog c := fun _ => hdelete
  rcases d.atomic_of_reachable hdelete' hs with ⟨a, ha, href⟩
  have htracked := tracked_of_reachable ha
  have hledger := ledger_of_reachable ha
  have hcounters := counters_of_reachable hd hflags ha
  have hwaits := waits_of_reachable hd hflags ha
  have hview := d.view_eq href
  constructor
  · rw [hview, ← href.env]
    exact hcounters.count jp call hcall hcreates
  · intro u t hsig
    rw [hview] at hsig
    rw [← href.env]
    have hrun := (Local.signalling_eq_some.mp hsig).1
    exact (hcounters.decrement hledger htracked hd
      { a.env with
        counter := Function.update a.env.counter ((), jp)
          { a.env.counter ((), jp) with count := (a.env.counter ((), jp)).count - 1 }
        history := { a.env.history with signalled := a.env.history.signalled ++ [t] } }
      hrun rfl rfl rfl rfl rfl).1
  · intro u t c at_ hsig
    rw [hview] at hsig
    rcases hcounters.refs u t c at_ hsig with ⟨call', hcall', -, ht'⟩
    constructor
    · rintro rfl
      rw [hcall] at hcall'
      cases hcall'
      exact ht'
    · intro ht
      rw [hd.unique hcall hcall' ht ht']
  · rw [hview, ← href.env]
    exact hcounters.token jp call hcall hcreates hne
  · intro u s' hstep
    rw [hview, ← href.env]
    rcases href.step (DispatchConfig.noDelete hdelete') hs hstep with
      ⟨-, href'⟩ | ⟨a', hstep', -, href'⟩
    · rw [DispatchConfig.view, ← href'.thread u, ← href'.env]
      exact TokenStep.same rfl rfl
    · rw [DispatchConfig.view, ← href'.thread u, ← href'.env]
      exact (dispatchStep_of_step hstep').token htracked hcall hne
  · intro w ts hawaits hw
    rw [hview] at hw
    rw [← href.env]
    rcases hd.awaits_call hawaits with ⟨call', hcall', rfl, -⟩
    rw [hcall] at hcall'
    cases hcall'
    apply hwaits.returned hcounters hledger hd hawaits
    cases hk : a.thread (.inl ()) with
    | client ip pc =>
        rw [hk] at hw
        have hlt : w < ip := hw
        simp [Local.stage_of_lt hlt]
    | worker pc =>
        rw [hk] at hw
        exact absurd hw (Nat.not_lt_zero w)

/-! ## A group of two tasks and one worker -/

/-- A client adds the group to a queue of one slot and waits for it. -/
def twoTasks : DispatchConfig Unit 1 Unit Nat where
  length := 1
  length_pos := Nat.one_pos
  useCallersThread := false
  prog := fun _ => groupCalls
  heap := twoFunctionsHeap (Unit × Nat)
  user := 3

theorem twoTasks_disciplined : twoTasks.Disciplined :=
  DispatchConfig.disciplined_iff.mpr (twoFunctions_disciplined _)

/-- The client finds the queue full, sleeps until the worker has taken the first task, and
begins to wait before the last signal. -/
def twoTasksSchedule : List (Unit ⊕ Fin 1) :=
  List.flatten [List.replicate 21 (.inl ()), List.replicate 9 (.inr 0), [.inl ()],
    List.replicate 21 (.inr 0), List.replicate 8 (.inl ()), [.inr 0],
    List.replicate 7 (.inl ()), List.replicate 26 (.inr 0), List.replicate 5 (.inl ())]

theorem twoTasks_run : ((twoTasks.threads true).run (twoTasks.threads true).init
    twoTasksSchedule).isSome = true := by
  decide +kernel

/-- The counter of the group is accounted for when the wait has returned. -/
theorem group_wait_done_twoTasks :
    Accounted twoTasks true (((twoTasks.threads true).run (twoTasks.threads true).init
      twoTasksSchedule).get twoTasks_run) 0 (.groupAdd 0) := by
  have hs := (twoTasks.threads true).reachable_get_run twoTasksSchedule twoTasks_run
  exact group_wait_done twoTasks true (twoFunctionsHeap_built _) groupCalls_groups
    twoTasks_disciplined (by decide) hs rfl rfl (by decide)

end Metal
end LibDispatch
