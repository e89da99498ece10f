import LibDispatch.Metal.Lifetimes

/-!
# Running a group through the queue

The user state is what the functions that have returned made of the initial one, in the
order of their returns.  When {lit}`dispatch_queue_group_add` and
{lit}`dispatch_queue_group_wait` have returned on an otherwise idle queue, the functions that
have returned in between are those of the group, in some order; with a single worker it is
the order of the group, since tasks leave the queue in the order in which they entered it.

Main results:

- Theorem {lit}`userOf_of_reachable`: the user state is a fold over the returns.
- Theorem {lit}`inOrder_of_reachable`: a single worker returns from the tasks in the order in
  which they were added.
- Theorem {lit}`group_run_agrees`: running a group through the queue agrees with
  {lit}`dispatch_group_perform`.
- Theorem {lit}`group_run_disagrees_pitch`: not so for one worker when the client runs tasks
  on its own thread.
-/

namespace LibDispatch
namespace Metal

variable {N : Nat} {β υ : Type}

/-! ## The user state -/

/-- The effect of the functions of some tasks, in order. -/
def Heap.performAll {γ : Type} (heap : Heap β υ γ) (ts : List Nat) (u : υ) : υ :=
  ts.foldl (fun u t => dispatchTaskPerform (heap.task t) u) u

section Invariant

variable {d : DispatchConfig Unit N β υ}
  {a a' : AtomicState (Unit ⊕ Fin N) Nat (Local Unit) (Env Unit N β υ)} {u : Unit ⊕ Fin N}
  {t ip g : Nat} {at_ : RunPc Unit}

/-- The functions and arguments of the tasks stay as they were built. -/
theorem Tracked.perform_eq (h : Tracked d a) (t : Nat) (x : υ) :
    dispatchTaskPerform (a.env.heap.task t) x = dispatchTaskPerform (d.heap.task t) x := by
  rw [h.task t]
  rfl

/-- The members and functions of a group stay as they were built. -/
theorem Tracked.groupPerform_eq (h : Tracked d a) (g : Nat) (x : υ) :
    dispatchGroupPerform a.env.heap g x =
      Heap.performAll d.heap (d.heap.group g).tasks x := by
  unfold dispatchGroupPerform Heap.performAll
  simp only [h.group, h.perform_eq]

/-- The user state is the effect of the functions that have returned. -/
theorem userOf_of_reachable (ha : d.atomicThreads.Reachable a) :
    a.env.user = Heap.performAll d.heap a.env.history.returned d.user := by
  refine ha.invariant (P := fun a => a.env.user =
    Heap.performAll d.heap a.env.history.returned d.user) rfl ?_
  intro a u a' hr h hstep
  have htracked := tracked_of_reachable hr
  cases (dispatchStep_of_step hstep).move htracked with
  | send t _ _ _ henv => rw [henv, h]
  | receive t _ _ _ _ _ henv => rw [henv, h]
  | pitch t _ _ _ _ _ _ henv => rw [henv, h]
  | silent _ _ _ hhistory huser => rw [huser, h, hhistory.2.2.1]
  | run t at_ env' r hrun hrunStep heq =>
      subst heq
      cases hrunStep with
      | running =>
          change dispatchTaskPerform (a.env.heap.task t) a.env.user = _
          simp only [Heap.performAll, List.foldl_append, List.foldl_cons, List.foldl_nil,
            htracked.perform_eq, h]
      | _ => exact h

/-- The history of returns only grows at its end. -/
theorem DispatchStep.prefix_returned (h : DispatchStep d a u a') :
    a.env.history.returned <+: a'.env.history.returned := by
  cases h with
  | run u t at_ env' r hrun hstep =>
      cases hstep with
      | running => exact List.prefix_append _ _
      | _ => exact List.prefix_refl _
  | _ => exact List.prefix_refl _

/-- The returns of a state are the first ones of every later state. -/
theorem returned_prefix_of_steps (ha : d.atomicThreads.Reachable a)
    (h : d.atomicThreads.Steps a a') : a.env.history.returned <+: a'.env.history.returned := by
  refine System.Steps.invariant (P := fun r => a.env.history.returned <+:
    r.env.history.returned) ha (List.prefix_refl _) ?_ h
  intro r u r' _ hpre hstep
  exact hpre.trans (dispatchStep_of_step hstep).prefix_returned

/-! ## One worker -/

/-- The task in the hands of a thread whose function has not returned. -/
def Local.unreturned (k : Local Unit) : List Nat :=
  match k.held with
  | some (t, at_) => if at_.returned = true then [] else [t]
  | none => []

theorem Local.unreturned_of_held {k : Local Unit} (h : k.held = some (t, at_)) :
    k.unreturned = if at_.returned = true then [] else [t] := by
  rw [Local.unreturned, h]

theorem Local.unreturned_of_not_held {k : Local Unit} (h : k.held = none) :
    k.unreturned = [] := by
  rw [Local.unreturned, h]

theorem Local.unreturned_congr {k k' : Local Unit} (h : k'.held = k.held) :
    k'.unreturned = k.unreturned := by
  rw [Local.unreturned, h, Local.unreturned]

/-- A statement of {lit}`run_task` moves a task from the hands of its thread to the returns,
or moves nothing. -/
theorem RunStep.returned_unreturned {me : Unit ⊕ Fin N} {env env' : Env Unit N β υ}
    {r : Option (RunPc Unit)} (h : RunStep me env t at_ env' r) {k : Local Unit}
    (hrun : k.runAt = some (t, at_)) :
    env'.history.returned ++ (k.runNext r).unreturned =
      env.history.returned ++ k.unreturned := by
  have hold := Local.unreturned_of_held (Local.held_of_runAt hrun)
  have hnew := Local.held_runNext (r := r) hrun
  cases h with
  | perform =>
      rw [hold, Local.unreturned_of_held hnew]
      rfl
  | running =>
      rw [hold, Local.unreturned_of_held hnew]
      simp [RunPc.returned]
  | signalDone c =>
      rw [hold, Local.unreturned_of_not_held hnew]
      rfl
  | sendToken c =>
      rw [hold, Local.unreturned_of_not_held hnew]
      rfl
  | delete =>
      rw [hold, Local.unreturned_of_not_held hnew]
      rfl
  | _ =>
      rw [hold, Local.unreturned_of_held hnew]
      rfl

end Invariant

/-- In the default mode a single worker returns from the tasks in the order in which they
were added: the returns, the task in its hands and the queue are what the client added. -/
theorem inOrder_of_reachable {d : DispatchConfig Unit 1 β υ}
    (hmode : d.useCallersThread = false)
    {a : AtomicState (Unit ⊕ Fin 1) Nat (Local Unit) (Env Unit 1 β υ)}
    (ha : d.atomicThreads.Reachable a) :
    a.env.history.returned ++ (a.thread (.inr 0)).unreturned ++ a.fifo =
      d.added () (a.thread (.inl ())) := by
  refine ha.invariant (P := fun a => a.env.history.returned ++
    (a.thread (.inr 0)).unreturned ++ a.fifo = d.added () (a.thread (.inl ()))) ?_ ?_
  · simp [DispatchConfig.atomicThreads, atomicThreads, DispatchConfig.env, History.empty,
      dispatchStart, Local.unreturned, Local.held, Local.runAt, DispatchConfig.added,
      ClientPc.added]
  · intro a u a' hr h hstep
    have htracked := tracked_of_reachable hr
    -- whoever holds a task is the worker
    have hworker : ∀ {b : AtomicState (Unit ⊕ Fin 1) Nat (Local Unit) (Env Unit 1 β υ)} {v t at_},
        d.atomicThreads.Reachable b → (b.thread v).held = some (t, at_) → v = .inr 0 := by
      intro b v t at_ hb hheld
      cases v with
      | inl client => exact absurd hheld (not_held_of_reachable hmode hb client t at_)
      | inr i => rw [Subsingleton.elim i 0]
    cases (dispatchStep_of_step hstep).move htracked with
    | send t hfifo hadded hheld henv =>
        rw [hfifo, hadded, henv, Local.unreturned_congr (hheld _), ← h]
        simp
    | receive t hfifo hadded hfree hheld hother henv =>
        cases hworker (hr.step hstep) hheld
        rw [Local.unreturned_of_not_held hfree, hfifo] at h
        rw [hadded, henv, Local.unreturned_of_held hheld, ← h]
        simp [RunPc.returned]
    | pitch t hu hfifo hadded hfree hheld hother henv =>
        subst hu
        cases hworker (hr.step hstep) hheld
    | silent hfifo hadded hheld hhistory _ =>
        rw [hfifo, hadded, Local.unreturned_congr (hheld _), hhistory.2.2.1, h]
    | run t at_ env' r hrun hrunStep heq =>
        have hadded := htracked.added_runNext hrun r
        subst heq
        cases hworker hr (Local.held_of_runAt hrun)
        simp only [hadded, Function.update_self]
        rw [hrunStep.returned_unreturned hrun, h]

/-! ## Groups -/

section Groups

variable {d : DispatchConfig Unit N β υ}
  {a a' : AtomicState (Unit ⊕ Fin N) Nat (Local Unit) (Env Unit N β υ)} {t ip g : Nat}

/-- All tasks added so far are finished. -/
def DispatchConfig.Idle (d : DispatchConfig Unit N β υ) (k : Local Unit)
    (env : Env Unit N β υ) : Prop :=
  ∀ t ∈ d.added () k, t ∈ env.history.finished

/-- A function returns at most as often as its task is added. -/
theorem Ledger.returned_le_added (h : Ledger d a) (t : Nat) :
    a.env.history.returned.count t ≤ (d.added () (a.thread (.inl ()))).count t := by
  have hsum := h.added t
  have hreturned := h.returned t
  have hweight : tally (Local.weight RunPc.returned t) a.thread ≤
      tally (Local.holding t) a.thread :=
    tally_le_tally fun v => Local.weight_le_holding _ t (a.thread v)
  omega

/-- When all added tasks have returned, the returns are the added tasks in some order. -/
theorem Ledger.returned_perm (h : Ledger d a) (htracked : Tracked d a) (hd : d.Disciplined)
    (hall : ∀ t ∈ d.added () (a.thread (.inl ())), t ∈ a.env.history.returned) :
    a.env.history.returned.Perm (d.added () (a.thread (.inl ()))) := by
  rw [List.perm_iff_count]
  intro t
  apply Nat.le_antisymm (h.returned_le_added t)
  by_cases ht : t ∈ d.added () (a.thread (.inl ()))
  · exact (htracked.count_added_le hd t).trans (List.count_pos_iff.mpr (hall t ht))
  · rw [List.count_eq_zero.mpr ht]
    exact Nat.zero_le _

/-- A finished task has returned. -/
theorem Ledger.returned_of_finished (h : Ledger d a) (ht : t ∈ a.env.history.finished) :
    t ∈ a.env.history.returned := by
  have hpos := List.count_pos_iff.mpr ht
  have hreturned := h.returned t
  exact List.count_pos_iff.mp (by omega)

/-- What was added at the return of a wait that follows the addition of a group. -/
theorem DispatchConfig.added_group (hadd : (d.prog ())[ip]? = some (.groupAdd g))
    (hwait : (d.prog ())[ip + 1]? = some (.groupWait g)) :
    d.added () (.client (ip + 2) .ready) =
      d.added () (.client ip .ready) ++ (d.heap.group g).tasks := by
  simp [DispatchConfig.added, ClientPc.added, d.submitted_succ hwait, d.submitted_succ hadd,
    DispatchCall.tasks]

/-- Between the addition of a group to an idle queue and the return of the wait for it, the
functions of the group return, and no others. -/
theorem returned_group (hd : d.Disciplined) (hflags : d.FlagsAgree)
    (ha : d.atomicThreads.Reachable a) (hsteps : d.atomicThreads.Steps a a')
    (hidle : d.Idle (a.thread (.inl ())) a.env)
    (hk : a.thread (.inl ()) = .client ip .ready)
    (hk' : a'.thread (.inl ()) = .client (ip + 2) .ready)
    (hadd : (d.prog ())[ip]? = some (.groupAdd g))
    (hwait : (d.prog ())[ip + 1]? = some (.groupWait g)) :
    ∃ ts, a'.env.history.returned = a.env.history.returned ++ ts ∧
      ts.Perm (d.heap.group g).tasks ∧
      ∀ t ∈ d.added () (a'.thread (.inl ())), t ∈ a'.env.history.returned := by
  have ha' := ha.steps hsteps
  have hledger := ledger_of_reachable ha
  have hledger' := ledger_of_reachable ha'
  have hpre := returned_prefix_of_steps ha hsteps
  have hold : ∀ t ∈ d.added () (a.thread (.inl ())), t ∈ a.env.history.returned :=
    fun t ht => hledger.returned_of_finished (hidle t ht)
  have hadded : d.added () (a'.thread (.inl ())) =
      d.added () (a.thread (.inl ())) ++ (d.heap.group g).tasks := by
    rw [hk, hk', DispatchConfig.added_group hadd hwait]
  have hgroup : ∀ t ∈ (d.heap.group g).tasks, t ∈ a'.env.history.returned := by
    apply (waits_of_reachable hd hflags ha').returned (counters_of_reachable hd hflags ha')
      hledger' hd (Or.inr ⟨g, hwait, hadd, rfl⟩)
    rw [hk', Local.stage_of_lt (Nat.lt_succ_self _)]
    simp
  have hall : ∀ t ∈ d.added () (a'.thread (.inl ())), t ∈ a'.env.history.returned := by
    intro t ht
    rw [hadded] at ht
    rcases List.mem_append.mp ht with hbefore | hthis
    · exact hpre.subset (hold t hbefore)
    · exact hgroup t hthis
  have hperm := hledger.returned_perm (tracked_of_reachable ha) hd hold
  have hperm' := hledger'.returned_perm (tracked_of_reachable ha') hd hall
  rcases hpre with ⟨ts, hts⟩
  refine ⟨ts, hts.symm, ?_, hall⟩
  rw [hadded, ← hts] at hperm'
  exact (List.perm_append_left_iff _).mp (hperm'.trans (hperm.symm.append_right _))

end Groups

/-- With one worker the functions of the group return in its order. -/
theorem returned_group_inOrder {d : DispatchConfig Unit 1 β υ} (hd : d.Disciplined)
    (hmode : d.useCallersThread = false)
    {a a' : AtomicState (Unit ⊕ Fin 1) Nat (Local Unit) (Env Unit 1 β υ)} {ip g : Nat}
    {ts : List Nat} (ha : d.atomicThreads.Reachable a) (ha' : d.atomicThreads.Reachable a')
    (hidle : d.Idle (a.thread (.inl ())) a.env)
    (hk : a.thread (.inl ()) = .client ip .ready)
    (hk' : a'.thread (.inl ()) = .client (ip + 2) .ready)
    (hadd : (d.prog ())[ip]? = some (.groupAdd g))
    (hwait : (d.prog ())[ip + 1]? = some (.groupWait g))
    (hts : a'.env.history.returned = a.env.history.returned ++ ts)
    (hall : ∀ t ∈ d.added () (a'.thread (.inl ())), t ∈ a'.env.history.returned) :
    ts = (d.heap.group g).tasks := by
  have hexact : ∀ b : AtomicState (Unit ⊕ Fin 1) Nat (Local Unit) (Env Unit 1 β υ),
      d.atomicThreads.Reachable b →
      (∀ t ∈ d.added () (b.thread (.inl ())), t ∈ b.env.history.returned) →
      b.env.history.returned = d.added () (b.thread (.inl ())) := by
    intro b hb hreturned
    have horder := inOrder_of_reachable hmode hb
    rw [List.append_assoc] at horder
    have hperm := (ledger_of_reachable hb).returned_perm (tracked_of_reachable hb) hd hreturned
    have hlength := congrArg List.length horder
    rw [← hperm.length_eq, List.length_append] at hlength
    have hnil : (b.thread (.inr 0)).unreturned ++ b.fifo = [] :=
      List.eq_nil_of_length_eq_zero (by omega)
    rw [hnil, List.append_nil] at horder
    exact horder
  have hold := hexact a ha fun t ht => (ledger_of_reachable ha).returned_of_finished (hidle t ht)
  have hnew := hexact a' ha' hall
  rw [hts, hold, hk, hk', DispatchConfig.added_group hadd hwait] at hnew
  exact List.append_cancel_left hnew

/-- Running a group through the queue agrees with running it directly.  A client that
follows the rules adds a waitable group when everything it added before is finished, and
then waits for it.  For every length of the queue and every schedule, the user state at the
return of the wait is the one that {lit}`dispatch_group_perform` makes of the user state at
the call: with one worker in the default mode for all functions, and with any number of
workers in either mode if the functions commute. -/
theorem group_run_agrees (d : DispatchConfig Unit N β υ) (handshake : Bool)
    {ts gs as : List Nat} (hbuilt : Built d.heap ts gs as)
    (hgroups : ∀ g, .groupAdd g ∈ d.prog () → g ∈ gs) (hd : d.Disciplined)
    (hdelete : .delete ∉ d.prog ())
    {s s' : State (Unit ⊕ Fin N) (Option (Fin N)) Nat (Local Unit) (Env Unit N β υ)}
    (hs : (d.threads handshake).Reachable s) (hsteps : (d.threads handshake).Steps s s')
    {ip g : Nat} (hadd : (d.prog ())[ip]? = some (.groupAdd g))
    (hwait : (d.prog ())[ip + 1]? = some (.groupWait g))
    (hcall : d.view s (.inl ()) = .client ip .ready)
    (hidle : d.Idle (d.view s (.inl ())) s.env)
    (hreturn : d.view s' (.inl ()) = .client (ip + 2) .ready) :
    (N = 1 → d.useCallersThread = false →
      s'.env.user = dispatchGroupPerform s.env.heap g s.env.user) ∧
    ((∀ t ∈ (d.heap.group g).tasks, ∀ t' ∈ (d.heap.group g).tasks, ∀ x,
        dispatchTaskPerform (d.heap.task t') (dispatchTaskPerform (d.heap.task t) x) =
          dispatchTaskPerform (d.heap.task t) (dispatchTaskPerform (d.heap.task t') x)) →
      s'.env.user = dispatchGroupPerform s.env.heap g s.env.user) := by
  have hflags := DispatchConfig.flagsAgree_of_built hbuilt hgroups
  have hdelete' : ∀ c, .delete ∉ d.prog c := fun _ => hdelete
  rcases d.atomic_of_reachable hdelete' hs with ⟨a, ha, href⟩
  rcases (queue_simulation _ (DispatchConfig.noDelete hdelete') d.length_pos).steps hs href
    hsteps with ⟨a', hsteps', href'⟩
  have ha' := ha.steps hsteps'
  rw [d.view_eq href] at hcall hidle
  rw [d.view_eq href'] at hreturn
  rw [← href.env] at hidle ⊢
  rw [← href'.env]
  rcases returned_group hd hflags ha hsteps' hidle hcall hreturn hadd hwait with
    ⟨ts, hts, hperm, hall⟩
  -- the functions that return in between are applied to the user state at the call
  have huser : a'.env.user = Heap.performAll d.heap ts a.env.user := by
    rw [userOf_of_reachable ha', hts, userOf_of_reachable ha]
    exact List.foldl_append
  rw [huser, (tracked_of_reachable ha).groupPerform_eq]
  constructor
  · rintro rfl hmode
    rw [returned_group_inOrder hd hmode ha ha' hidle hcall hreturn hadd hwait hts hall]
  · intro hcomm
    refine hperm.foldl_eq' ?_ a.env.user
    intro t ht t' ht' x
    exact hcomm t (hperm.mem_iff.mp ht) t' (hperm.mem_iff.mp ht') x

/-- The worker doubles after it has added one. -/
theorem group_run_agrees_twoTasks :
    ((((twoTasks.threads true).run (twoTasks.threads true).init twoTasksSchedule).get
      twoTasks_run).env.user) = dispatchGroupPerform twoTasks.heap 0 3 := by
  have hsteps := System.Steps.of_run (Option.some_get twoTasks_run).symm
  have hadd : (twoTasks.prog ())[0]? = some (.groupAdd 0) := rfl
  have hwait : (twoTasks.prog ())[0 + 1]? = some (.groupWait 0) := rfl
  refine (group_run_agrees twoTasks true (twoFunctionsHeap_built _) groupCalls_groups
    twoTasks_disciplined (by decide) System.Reachable.init hsteps hadd hwait rfl ?_
    (by decide +kernel)).1 rfl rfl
  intro t ht
  cases ht

/-! ## The order of a client that pitches in -/

/-- The same program in the mode in which the client pitches in. -/
def twoTasksPitch : DispatchConfig Unit 1 Unit Nat :=
  { twoTasks with useCallersThread := true }

/-- The worker receives the first task and stores that it is busy.  The client finds it so and
runs the second task itself, before the worker calls the function of the first. -/
def twoTasksPitchSchedule : List (Unit ⊕ Fin 1) :=
  List.flatten [List.replicate 15 (.inl ()), List.replicate 12 (.inr 0),
    List.replicate 12 (.inl ()), List.replicate 8 (.inr 0), List.replicate 5 (.inl ())]

theorem twoTasksPitch_run : ((twoTasksPitch.threads true).run (twoTasksPitch.threads true).init
    twoTasksPitchSchedule).isSome = true := by
  decide +kernel

/-- With one worker the functions of the group need not run in its order when the client
pitches in: it doubles 3 before the worker adds one. -/
theorem group_run_disagrees_pitch :
    ¬ ∀ s s', (twoTasksPitch.threads true).Reachable s →
      (twoTasksPitch.threads true).Steps s s' →
      twoTasksPitch.view s (.inl ()) = .client 0 .ready →
      twoTasksPitch.Idle (twoTasksPitch.view s (.inl ())) s.env →
      twoTasksPitch.view s' (.inl ()) = .client 2 .ready →
      s'.env.user = dispatchGroupPerform s.env.heap 0 s.env.user := by
  intro hclaim
  have hsteps := System.Steps.of_run (Option.some_get twoTasksPitch_run).symm
  have huser := hclaim _ _ System.Reachable.init hsteps rfl (fun t ht => by cases ht)
    (by decide +kernel)
  revert huser
  decide +kernel

end Metal
end LibDispatch
