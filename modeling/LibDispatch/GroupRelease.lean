import LibDispatch.Metal.Lifetimes
import LibDispatch.Metal.UpTo
import LibDispatch.Metal.GroupSizes
import LibDispatch.Rtos.Client
import LibDispatch.Host.EventCounter

/-!
# What a wait for a group releases

The three backends are written separately, and the contract is the same for all of them:
the dispatch queue deletes waitable tasks.  The bare-metal and the FreeRTOS backend delete the
event counter of a group and then each of its tasks.  The host backend deletes the counter
only: {lit}`dispatch_queue_task_wait` has a {lit}`dispatch_task_delete` after the
{lit}`delete counter`, {lit}`dispatch_queue_group_wait` has none, and the worker deletes only tasks
that are not waitable.

Main results:

- Theorems {lit}`Metal.group_released` and {lit}`Rtos.group_released`: the counter and each task
  were deleted once when the wait has returned.
- Theorem {lit}`Host.group_not_released`: no task of a waitable group is ever deleted.
- Theorem {lit}`group_wait_releases`: the backends that release a group.
-/

namespace LibDispatch

variable {N : Nat} {β υ : Type}

/-! ## The ledger -/

/-- What a dispatch queue has deleted so far: tasks, and event counters by the number of the
call that created them. -/
structure Freed where
  tasks : List Nat
  counters : List Nat

/-- The tasks of a group that are not deleted. -/
def Freed.liveTasks (x : Freed) (ts : List Nat) : List Nat :=
  ts.filter fun t => decide (t ∉ x.tasks)

/-- The event counters of a call that are not deleted. -/
def Freed.liveCounters (x : Freed) (jp : Nat) : List Nat :=
  [jp].filter fun c => decide (c ∉ x.counters)

/-- The group {lit}`ts` that the {lit}`jp`-th call has submitted is released: everything was
deleted once, and nothing is left that was not there before the group. -/
structure Freed.Released (x : Freed) (jp : Nat) (ts : List Nat) : Prop where
  counter : x.counters.count jp = 1
  task : ∀ t ∈ ts, x.tasks.count t = 1
  ledger : x.liveTasks ts = [] ∧ x.liveCounters jp = []

theorem Freed.released_of_count {x : Freed} {jp : Nat} {ts : List Nat}
    (hcounter : x.counters.count jp = 1) (htask : ∀ t ∈ ts, x.tasks.count t = 1) :
    x.Released jp ts := by
  refine ⟨hcounter, htask, List.filter_eq_nil_iff.mpr fun t ht => ?_,
    List.filter_eq_nil_iff.mpr fun c hc => ?_⟩
  · have hmem : t ∈ x.tasks := List.count_pos_iff.mp (by rw [htask t ht]; exact Nat.one_pos)
    simp [hmem]
  · rw [List.mem_singleton.mp hc]
    have hmem : jp ∈ x.counters := List.count_pos_iff.mp (by rw [hcounter]; exact Nat.one_pos)
    simp [hmem]

/-! ## The bare-metal backend -/

namespace Metal

/-- What the workers and the client have deleted. -/
def State.freed (s : State (Unit ⊕ Fin N) (Option (Fin N)) Nat (Local Unit) (Env Unit N β υ)) :
    Freed where
  tasks := s.env.history.runFreed ++ s.env.history.waitFreed
  counters := s.env.history.counterFreed.map Prod.snd

/-- A wait that has returned has deleted the counter and each task once. -/
theorem Waits.released {d : DispatchConfig Unit N β υ}
    {a : AtomicState (Unit ⊕ Fin N) Nat (Local Unit) (Env Unit N β υ)} {w jp : Nat}
    {ts : List Nat} (h : Waits d a) (hledger : Ledger d a) (hd : d.Disciplined)
    (hflags : d.FlagsAgree) (hawaits : d.Awaits w jp ts)
    (hstage : (a.thread (.inl ())).stage w = .deleting []) :
    a.env.history.counterFreed.count ((), jp) = 1 ∧
      ∀ t ∈ ts, a.env.history.runFreed.count t = 0 ∧ a.env.history.waitFreed.count t = 1 := by
  constructor
  · apply List.count_eq_one_of_mem h.counterNodup
    exact (h.counterFreed _).mpr ⟨w, jp, ts, [], rfl, hawaits, hstage⟩
  · intro t ht
    constructor
    · rw [hledger.runFreed t, if_pos (hd.waitable_of_awaits hflags hawaits ht)]
    · apply List.count_eq_one_of_mem h.taskNodup
      exact (h.taskFreed t).mpr ⟨w, jp, ts, [], hawaits, ht, hstage, List.not_mem_nil⟩

/-- When {lit}`dispatch_queue_group_wait` has returned, the group is released. -/
theorem group_released (d : DispatchConfig Unit N β υ) (handshake : Bool)
    (hflags : d.FlagsAgree) (hd : d.Disciplined)
    {s : State (Unit ⊕ Fin N) (Option (Fin N)) Nat (Local Unit) (Env Unit N β υ)}
    (hs : (d.threads handshake).Reachable s) (huse : d.InUse s) {jp w : Nat} {ts : List Nat}
    (hawaits : d.Awaits w jp ts) (hret : w < (d.view s (.inl ())).ip) :
    s.freed.Released jp ts := by
  -- the state belongs to the client that makes no calls but those it has started
  rcases huse.exists_upTo with ⟨n, hstarted, hdelete⟩
  rcases (d.upTo n).atomic_of_reachable (fun _ => hdelete)
    (d.upTo_reachable hs hstarted) with ⟨a, ha, href⟩
  have hview : d.view s = a.thread := (d.upTo n).view_eq href
  have hd' := hd.upTo n
  have hflags' := hflags.upTo n
  have hip := ip_le_of_reachable ha
  rw [hview] at hret
  have hw : w < n := Nat.lt_of_lt_of_le hret
    (Nat.le_trans hip (List.length_take_le n (d.prog ())))
  have hawaits' := hd.awaits_upTo hawaits hw
  have hstage : (a.thread (.inl ())).stage w = .deleting [] := by
    cases hk : a.thread (.inl ()) with
    | worker pc =>
        rw [hk] at hret
        exact absurd hret (Nat.not_lt_zero w)
    | client ip pc =>
        rw [hk] at hret
        exact Local.stage_of_lt hret pc
  rcases (waits_of_reachable hd' hflags' ha).released (ledger_of_reachable ha) hd' hflags'
    hawaits' hstage with ⟨hcounter, htask⟩
  rw [href.env] at hcounter htask
  have hcount : (s.env.history.counterFreed.map Prod.snd).count jp = 1 := by
    have hinj : Function.Injective (Prod.snd : Unit × Nat → Nat) :=
      fun x y hxy => Prod.ext rfl hxy
    rw [← hcounter]
    exact List.count_map_of_injective _ _ hinj ((), jp)
  refine Freed.released_of_count hcount fun t ht => ?_
  rcases htask t ht with ⟨hrun, hwait⟩
  change (s.env.history.runFreed ++ s.env.history.waitFreed).count t = 1
  rw [List.count_append, hrun, hwait]

end Metal

/-! ## The FreeRTOS backend -/

namespace Rtos

/-- What the workers and the client have deleted. -/
def State.freed (s : State N β υ) : Freed where
  tasks := s.history.taskFreed
  counters := s.history.counterFreed

/-- When {lit}`dispatch_queue_group_wait` has returned, the group is released. -/
theorem group_released (d : DispatchConfig N β υ) (hflags : d.program.FlagsAgree)
    (hd : d.program.Disciplined) {s : State N β υ} (hs : d.system.Reachable s) {jp w : Nat}
    {ts : List Nat} (hawaits : d.program.Awaits w jp ts) (hret : w < s.ip) :
    s.freed.Released jp ts := by
  have hclient := clientInv_of_reachable hd hflags hs
  rcases hawaits.awaited with ⟨call, hcall, rfl⟩
  rcases hd.awaits_call hawaits with ⟨add, hadd, htasks, hcreates, -⟩
  refine Freed.released_of_count (hclient.returned_counter hawaits hret) fun t ht => ?_
  have hfreed := hclient.returned_task hcall ht hret
  have hwaitable : (d.heap.task t).waitable = true :=
    (hflags.createsCounter_iff hadd (htasks ▸ ht)).mp hcreates
  have hfilter := List.count_filter (l := s.history.taskFreed)
    (p := fun t => (d.heap.task t).waitable) hwaitable
  exact hfilter.symm.trans hfreed

end Rtos

/-! ## The host backend -/

namespace Host

/-- What the workers and the client have deleted. -/
def State.freed (s : State Unit N β υ) : Freed where
  tasks := s.history.tasksOf s.history.deleted ++ s.history.waitFreed
  counters := s.history.counterFreed.map Prod.snd

/-- No task of a waitable group is ever deleted. -/
theorem group_not_released (d : DispatchConfig Unit N β υ) (hflags : d.program.FlagsAgree)
    (hd : d.program.Disciplined) {s : State Unit N β υ} (hs : d.system.Reachable s)
    {jp g : Nat} (hadd : (d.prog ())[jp]? = some (.groupAdd g))
    (hwaitable : (d.heap.group g).waitable = true) :
    s.freed.liveTasks (d.heap.group g).tasks = (d.heap.group g).tasks := by
  apply List.filter_eq_self.mpr
  intro t ht
  rw [decide_eq_true_iff]
  intro hmem
  rcases List.mem_append.mp hmem with hworker | hclient
  · -- a worker deletes only tasks that are not waitable
    have hplain := (tickets_of_reachable hs).plain_of_deleted hworker
    have hflag : (d.heap.task t).waitable = true :=
      (hflags g (List.mem_of_getElem? hadd) t ht).trans hwaitable
    rw [hflag] at hplain
    cases hplain
  · -- the client deletes only tasks that were added alone
    have hnot := (clientInv_of_reachable hd hs).not_released (t := t) fun w call hcall hrel => by
      cases call with
      | taskWait t' =>
          rw [List.mem_singleton.mp hrel] at ht
          rcases (hd.taskWait w t' hcall).2 with ⟨jp', -, hjp'⟩
          have heq : jp' = jp := hd.unique hjp' hadd (List.mem_singleton_self t') ht
          rw [heq] at hjp'
          cases Option.some.inj (hjp'.symm.trans hadd)
      | _ => cases hrel
    exact List.count_eq_zero.mp hnot hclient

end Host

/-! ## The three backends -/

/-- The implementations of a dispatch queue. -/
inductive Backend where
  | host
  | metal
  | rtos
deriving DecidableEq, Repr

/-- A client of a backend has added a waitable group of tasks with its {lit}`jp`-th call, and its
wait for the group has returned; with what was deleted by then.  Tasks and groups come from
the functions of the group API, the client follows the rules, and it is in any program, with
any number of workers and in any interleaving. -/
inductive Waited (β υ : Type) : Backend → Nat → List Nat → Freed → Prop where
  | host {N : Nat} (d : Host.DispatchConfig Unit N β υ) {ts gs as : List Nat}
      (hbuilt : Built d.heap ts gs as) (hgroups : ∀ g, .groupAdd g ∈ d.prog () → g ∈ gs)
      (hd : d.program.Disciplined) {s : Host.State Unit N β υ} (hs : d.system.Reachable s)
      {jp w g : Nat} (hadd : (d.prog ())[jp]? = some (.groupAdd g))
      (hwait : (d.prog ())[w]? = some (.groupWait g)) (hret : w < (s.client ()).ip) :
      Waited β υ .host jp (d.heap.group g).tasks s.freed
  | metal {N : Nat} (d : Metal.DispatchConfig Unit N β υ) (handshake : Bool)
      {ts gs as : List Nat} (hbuilt : Built d.heap ts gs as)
      (hgroups : ∀ g, .groupAdd g ∈ d.prog () → g ∈ gs) (hd : d.program.Disciplined)
      {s : Metal.State (Unit ⊕ Fin N) (Option (Fin N)) Nat (Metal.Local Unit)
        (Metal.Env Unit N β υ)} (hs : (d.threads handshake).Reachable s) (huse : d.InUse s)
      {jp w g : Nat} (hadd : (d.prog ())[jp]? = some (.groupAdd g))
      (hwait : (d.prog ())[w]? = some (.groupWait g))
      (hret : w < (d.view s (.inl ())).ip) :
      Waited β υ .metal jp (d.heap.group g).tasks s.freed
  | rtos {N : Nat} (d : Rtos.DispatchConfig N β υ) {ts gs as : List Nat}
      (hbuilt : Built d.heap ts gs as) (hgroups : ∀ g, .groupAdd g ∈ d.prog → g ∈ gs)
      (hd : d.program.Disciplined) {s : Rtos.State N β υ} (hs : d.system.Reachable s)
      {jp w g : Nat} (hadd : d.prog[jp]? = some (.groupAdd g))
      (hwait : d.prog[w]? = some (.groupWait g)) (hret : w < s.ip) :
      Waited β υ .rtos jp (d.heap.group g).tasks s.freed

/-- When the wait for a group has returned, its counter and its tasks were deleted once on
bare metal and with FreeRTOS, and not on the host. -/
theorem group_wait_releases {b : Backend} {jp : Nat} {ts : List Nat} {x : Freed}
    (h : Waited β υ b jp ts x) : x.Released jp ts ↔ b ≠ .host := by
  cases h with
  | host d hbuilt hgroups hd hs hadd hwait hret =>
      rename_i g
      refine iff_of_false (fun hreleased => ?_) (by simp)
      have hflags : d.program.FlagsAgree := Program.flagsAgree_of_built hbuilt hgroups
      rcases hd.groupWait _ g hwait with ⟨hwaitable, hne, -⟩
      have hlive := Host.group_not_released d hflags hd hs hadd hwaitable
      rw [hreleased.ledger.1] at hlive
      exact hne hlive.symm
  | metal d handshake hbuilt hgroups hd hs huse hadd hwait hret =>
      refine iff_of_true ?_ (by simp)
      have hflags := Metal.DispatchConfig.flagsAgree_of_built hbuilt hgroups
      exact Metal.group_released d handshake hflags
        (Metal.DispatchConfig.disciplined_iff.mpr hd) hs huse
        (Or.inr ⟨_, hwait, hadd, rfl⟩) hret
  | rtos d hbuilt hgroups hd hs hadd hwait hret =>
      refine iff_of_true ?_ (by simp)
      have hflags : d.program.FlagsAgree := Program.flagsAgree_of_built hbuilt hgroups
      exact Rtos.group_released d hflags hd hs (Or.inr ⟨_, hwait, hadd, rfl⟩) hret

/-! ## A group of one function -/

/-- The group of one function in the FreeRTOS backend, with one worker. -/
def oneFunctionRtos : Rtos.DispatchConfig 1 Unit Nat where
  length := 1
  length_pos := Nat.one_pos
  threadCount_pos := Nat.one_pos
  threadCount_le := Rtos.one_le_width
  prog := groupCalls
  heap := oneFunctionHeap Nat
  user := 0

/-- The client adds the group, the worker runs the function, and the wait returns. -/
def oneFunctionRtosSchedule : List (Rtos.Party 1) :=
  List.flatten [List.replicate 6 .client, List.replicate 8 (.worker 0), List.replicate 5 .client]

theorem oneFunctionRtos_run : (oneFunctionRtos.system.run oneFunctionRtos.system.init
    oneFunctionRtosSchedule).isSome = true := by
  decide +kernel

theorem oneFunctionHost_run : (Host.oneFunction.system.run Host.oneFunction.system.init
    Host.oneFunctionQuiet).isSome = true := by
  decide +kernel

/-- The state of the host backend in which the wait has returned. -/
def oneFunctionHostAfter : Host.State Unit 1 Unit Nat :=
  (Host.oneFunction.system.run Host.oneFunction.system.init Host.oneFunctionQuiet).get
    oneFunctionHost_run

/-- The state of the FreeRTOS backend in which the wait has returned. -/
def oneFunctionRtosAfter : Rtos.State 1 Unit Nat :=
  (oneFunctionRtos.system.run oneFunctionRtos.system.init oneFunctionRtosSchedule).get
    oneFunctionRtos_run

/-- On the host the wait for the group has returned. -/
theorem oneFunctionHost_waited :
    Waited Unit Nat .host 0 (Host.oneFunction.heap.group 0).tasks oneFunctionHostAfter.freed :=
  .host Host.oneFunction (oneFunctionHeap_built _) groupCalls_groups
    (oneFunction_disciplined _)
    (Host.oneFunction.system.reachable_get_run _ oneFunctionHost_run) rfl (w := 1) rfl
    (by decide +kernel)

/-- With FreeRTOS the wait for the group has returned. -/
theorem oneFunctionRtos_waited :
    Waited Unit Nat .rtos 0 (oneFunctionRtos.heap.group 0).tasks oneFunctionRtosAfter.freed :=
  .rtos oneFunctionRtos (oneFunctionHeap_built _) groupCalls_groups
    (oneFunction_disciplined _)
    (oneFunctionRtos.system.reachable_get_run _ oneFunctionRtos_run) rfl (w := 1) rfl
    (by decide +kernel)

/-- The state of the bare-metal backend in which the wait for a group of two has returned. -/
def twoTasksAfter : Metal.State (Unit ⊕ Fin 1) (Option (Fin 1)) Nat (Metal.Local Unit)
    (Metal.Env Unit 1 Unit Nat) :=
  ((Metal.twoTasks.threads true).run (Metal.twoTasks.threads true).init
    Metal.twoTasksSchedule).get Metal.twoTasks_run

/-- On bare metal the wait for the group has returned. -/
theorem twoTasks_waited :
    Waited Unit Nat .metal 0 (Metal.twoTasks.heap.group 0).tasks twoTasksAfter.freed := by
  refine .metal Metal.twoTasks true (twoFunctionsHeap_built _) groupCalls_groups
    (Metal.DispatchConfig.disciplined_iff.mp Metal.twoTasks_disciplined)
    ((Metal.twoTasks.threads true).reachable_get_run _ Metal.twoTasks_run) ?_ rfl (w := 1) rfl
    (by decide +kernel)
  rintro (_ | _ | j) hj <;> cases hj

/-- On bare metal and with FreeRTOS the tasks of the groups are deleted. -/
theorem group_wait_releases_oneFunction :
    twoTasksAfter.freed.Released 0 (Metal.twoTasks.heap.group 0).tasks ∧
      oneFunctionRtosAfter.freed.Released 0 (oneFunctionRtos.heap.group 0).tasks :=
  ⟨(group_wait_releases twoTasks_waited).mpr (by decide),
    (group_wait_releases oneFunctionRtos_waited).mpr (by decide)⟩

/-- The function of the group is still there when the wait has returned on the host. -/
theorem host_group_wait_leaks :
    Waited Unit Nat .host 0 (Host.oneFunction.heap.group 0).tasks
        oneFunctionHostAfter.freed ∧
      ¬ oneFunctionHostAfter.freed.Released 0 (Host.oneFunction.heap.group 0).tasks := by
  refine ⟨oneFunctionHost_waited, fun hreleased => ?_⟩
  have hcount := hreleased.task 0 (by decide)
  exact absurd hcount (by decide +kernel)

end LibDispatch
