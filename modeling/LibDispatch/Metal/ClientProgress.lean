import LibDispatch.Metal.DispatchSteps
import LibDispatch.Metal.QueueRefinement

/-!
# Where the threads of a dispatch queue are

A client works through its list of calls, and the position in a call agrees with the
call; the tasks and groups keep what they were built with, except for
{lit}`private_data`; and whoever runs a task is on the branch that the task's flag
selects.  From the local state of a client one can read off the tasks that it has
added so far.

Main results:

- Theorem {lit}`Tracked.step` and {lit}`tracked_of_reachable`: these facts hold in every
  reachable state of every program.
- Theorem {lit}`DispatchConfig.atomic_of_reachable`: what holds over the atomic queue holds
  over the queue of the source.
-/

namespace LibDispatch
namespace Metal

variable {C : Type} {N : Nat} {β υ : Type}

/-! ## What a client has added -/

/-- The number of calls that a client has made. -/
def Local.ip : Local C → Nat
  | .client ip _ => ip
  | .worker _ => 0

/-- The tasks that the first {lit}`ip` calls of a client submit. -/
def DispatchConfig.submitted (d : DispatchConfig C N β υ) (c : C) (ip : Nat) : List Nat :=
  ((d.prog c).take ip).flatMap (DispatchCall.tasks d.heap)

/-- The tasks that the current call has submitted before the site. -/
def AddSite.before (heap : Heap β υ (C × Nat)) : AddSite C → List Nat
  | .task => []
  | .member g i _ => (heap.group g).tasks.take i

/-- The tasks that the current call has added; one that the client runs itself counts as
added. -/
def ClientPc.added (heap : Heap β υ (C × Nat)) : ClientPc C → List Nat
  | .groupLoop g i _ => (heap.group g).tasks.take i
  | .addScan _ site _ _ | .send _ site => site.before heap
  | .pitch t site _ => site.before heap ++ [t]
  | _ => []

/-- The tasks that a client has added. -/
def DispatchConfig.added (d : DispatchConfig C N β υ) (c : C) : Local C → List Nat
  | .client ip pc => d.submitted c ip ++ pc.added d.heap
  | .worker _ => []

/-- The variable {lit}`counter` of {lit}`dispatch_queue_group_add`. -/
def DispatchConfig.groupCounter (d : DispatchConfig C N β υ) (c : C) (ip g : Nat) :
    Option (C × Nat) :=
  if (d.heap.group g).waitable = true then some (c, ip) else none

/-- The site belongs to the {lit}`ip`-th call and adds {lit}`t`. -/
def DispatchConfig.SiteAt (d : DispatchConfig C N β υ) (c : C) (ip t : Nat) :
    AddSite C → Prop
  | .task => (d.prog c)[ip]? = some (.taskAdd t)
  | .member g i counter => (d.prog c)[ip]? = some (.groupAdd g) ∧
      counter = d.groupCounter c ip g ∧ (d.heap.group g).tasks[i]? = some t

/-- The {lit}`ip`-th call waits for a task or for a group. -/
def DispatchConfig.WaitsAt (d : DispatchConfig C N β υ) (c : C) (ip : Nat) : Prop :=
  (∃ t, (d.prog c)[ip]? = some (.taskWait t)) ∨ ∃ g, (d.prog c)[ip]? = some (.groupWait g)

/-- The position belongs to the {lit}`ip`-th call. -/
def DispatchConfig.ClientAt (d : DispatchConfig C N β υ) (c : C) (ip : Nat) :
    ClientPc C → Prop
  | .groupLoop g i counter => (d.prog c)[ip]? = some (.groupAdd g) ∧
      counter = d.groupCounter c ip g ∧ i ≤ (d.heap.group g).tasks.length
  | .addScan t site _ _ | .send t site | .pitch t site _ => d.SiteAt c ip t site
  | .checkToken _ _ | .deleteCounter _ _ | .deleteTasks _ => d.WaitsAt c ip
  | .waitScan _ _ | .waitSize _ => (d.prog c)[ip]? = some .wait
  | .freeObject _ => (d.prog c)[ip]? = some .delete
  | .ready => True

/-- The position of a client agrees with its call. -/
def DispatchConfig.LocalAt (d : DispatchConfig C N β υ) (c : C) : Local C → Prop
  | .client ip pc => d.ClientAt c ip pc
  | .worker _ => False

/-- The position in {lit}`run_task` is on the branch of a task with the given flag. -/
def RunPc.OnBranch (waitable : Bool) : RunPc C → Prop
  | .readCounter | .signalLock _ | .decrement _ | .signalUnlock _ _ | .sendToken _ =>
      waitable = true
  | .delete => waitable = false
  | .perform | .running | .testWaitable => True

theorem DispatchConfig.submitted_succ (d : DispatchConfig C N β υ) {c : C} {ip : Nat}
    {call : DispatchCall} (h : (d.prog c)[ip]? = some call) :
    d.submitted c (ip + 1) = d.submitted c ip ++ call.tasks d.heap := by
  rcases List.getElem?_eq_some_iff.mp h with ⟨hlt, rfl⟩
  unfold DispatchConfig.submitted
  rw [List.take_succ_eq_append_getElem hlt, List.flatMap_append, List.flatMap_singleton]

@[simp]
theorem DispatchConfig.submitted_zero (d : DispatchConfig C N β υ) (c : C) :
    d.submitted c 0 = [] :=
  rfl

/-- Going on after a site adds its task. -/
theorem DispatchConfig.SiteAt.added_next {d : DispatchConfig C N β υ} {c : C} {ip t : Nat}
    {site : AddSite C} (h : d.SiteAt c ip t site) :
    d.added c (site.next ip) = d.submitted c ip ++ site.before d.heap ++ [t] := by
  cases site with
  | task =>
      have hcall : (d.prog c)[ip]? = some (.taskAdd t) := h
      simp [AddSite.next, DispatchConfig.added, d.submitted_succ hcall, DispatchCall.tasks,
        ClientPc.added, AddSite.before]
  | member g i counter =>
      rcases h with ⟨-, -, htask⟩
      rcases List.getElem?_eq_some_iff.mp htask with ⟨hlt, rfl⟩
      change d.submitted c ip ++ (d.heap.group g).tasks.take (i + 1) = _
      rw [List.take_succ_eq_append_getElem hlt, ← List.append_assoc]
      rfl

/-- Going on after a site stays in the program. -/
theorem DispatchConfig.SiteAt.localAt_next {d : DispatchConfig C N β υ} {c : C} {ip t : Nat}
    {site : AddSite C} (h : d.SiteAt c ip t site) : d.LocalAt c (site.next ip) := by
  cases site with
  | task => exact True.intro
  | member g i counter =>
      rcases h with ⟨hcall, hcounter, htask⟩
      rcases List.getElem?_eq_some_iff.mp htask with ⟨hlt, -⟩
      exact ⟨hcall, hcounter, hlt⟩

section Steps

variable [DecidableEq C] {d : DispatchConfig C N β υ}
  {a a' : AtomicState (C ⊕ Fin N) Nat (Local C) (Env C N β υ)} {u : C ⊕ Fin N}

omit [DecidableEq C] in
theorem DispatchConfig.localAt_addEntry {c : C} {ip t : Nat} {site : AddSite C}
    (h : d.SiteAt c ip t site) : d.LocalAt c (.client ip (d.addEntry t site)) := by
  unfold DispatchConfig.addEntry
  split <;> exact h

omit [DecidableEq C] in
theorem DispatchConfig.added_addEntry (c : C) (ip t : Nat) (site : AddSite C) :
    d.added c (.client ip (d.addEntry t site)) =
      d.submitted c ip ++ site.before d.heap := by
  unfold DispatchConfig.addEntry
  split <;> rfl

omit [DecidableEq C] in
@[simp]
theorem DispatchConfig.runAt_addEntry (ip t : Nat) (site : AddSite C) :
    (Local.client ip (d.addEntry t site)).runAt = none := by
  unfold DispatchConfig.addEntry
  split <;> rfl

omit [DecidableEq C] in
@[simp]
theorem AddSite.runAt_next (ip : Nat) (site : AddSite C) : (site.next ip).runAt = none := by
  cases site <;> rfl

omit [DecidableEq C] in
/-- A thread that runs a task goes on with it or stops running. -/
@[simp]
theorem Local.runAt_runNext {k : Local C} {t : Nat} {at_ : RunPc C} {r : Option (RunPc C)}
    (h : k.runAt = some (t, at_)) : (k.runNext r).runAt = r.map fun at' => (t, at') := by
  cases k with
  | client ip pc =>
      cases pc with
      | pitch t' site at' =>
          cases h
          cases r with
          | none => exact AddSite.runAt_next ip site
          | some at'' => rfl
      | _ => cases h
  | worker pc =>
      cases pc with
      | run t' at' =>
          cases h
          cases r <;> rfl
      | _ => cases h

/-! ## The invariant -/

/-- The threads are where the program and the flags of the tasks say, and the objects
are as they were built. -/
structure Tracked (d : DispatchConfig C N β υ)
    (a : AtomicState (C ⊕ Fin N) Nat (Local C) (Env C N β υ)) : Prop where
  group : a.env.heap.group = d.heap.group
  task : ∀ t, a.env.heap.task t =
    { d.heap.task t with privateData := (a.env.heap.task t).privateData }
  client : ∀ c, d.LocalAt c (a.thread (.inl c))
  worker : ∀ i, ∃ pc, a.thread (.inr i) = .worker pc
  run : ∀ u t at_, (a.thread u).runAt = some (t, at_) →
    at_.OnBranch (d.heap.task t).waitable

omit [DecidableEq C] in
theorem Tracked.waitable (h : Tracked d a) (t : Nat) :
    (a.env.heap.task t).waitable = (d.heap.task t).waitable := by
  rw [h.task t]

omit [DecidableEq C] in
/-- A statement of {lit}`run_task` leaves tasks and groups alone. -/
theorem RunStep.heap_eq [DecidableEq C] {me : C ⊕ Fin N} {env env' : Env C N β υ} {t : Nat}
    {at_ : RunPc C} {r : Option (RunPc C)} (h : RunStep me env t at_ env' r) :
    env'.heap = env.heap := by
  cases h <;> rfl

/-- A statement of {lit}`run_task` stays on the branch of the task's flag. -/
theorem RunStep.onBranch {me : C ⊕ Fin N} {env env' : Env C N β υ} {t : Nat}
    {at_ at' : RunPc C} (h : RunStep me env t at_ env' (some at')) {waitable : Bool}
    (hflag : (env.heap.task t).waitable = waitable) (hat : at_.OnBranch waitable) :
    at'.OnBranch waitable := by
  cases h with
  | perform => trivial
  | running => trivial
  | testWaitable hw => exact hflag.symm.trans hw
  | testPlain hw => exact hflag.symm.trans hw
  | readCounter => exact hat
  | signalLock => exact hat
  | decrement => exact hat
  | signalLast => exact hat

/-- Replacing one thread, with the objects unchanged up to {lit}`private_data`. -/
theorem Tracked.update (h : Tracked d a) {k : Local C} {fifo : List Nat}
    {env : Env C N β υ} (hgroup : env.heap.group = a.env.heap.group)
    (htask : ∀ t, env.heap.task t =
      { a.env.heap.task t with privateData := (env.heap.task t).privateData })
    (hclient : ∀ c, u = .inl c → d.LocalAt c k)
    (hworker : ∀ i, u = .inr i → ∃ pc, k = .worker pc)
    (hrun : ∀ t at_, k.runAt = some (t, at_) → at_.OnBranch (d.heap.task t).waitable) :
    Tracked d { a with
      fifo := fifo, env := env, thread := Function.update a.thread u k } where
  group := hgroup.trans h.group
  task t := by
    change env.heap.task t = _
    rw [htask t, h.task t]
  client c := by
    by_cases hu : Sum.inl c = u
    · simpa [← hu] using hclient c hu.symm
    · simpa [hu] using h.client c
  worker i := by
    by_cases hu : Sum.inr i = u
    · simpa [← hu] using hworker i hu.symm
    · simpa [hu] using h.worker i
  run v t at_ hv := by
    by_cases hvu : v = u
    · subst hvu
      exact hrun t at_ (by simpa using hv)
    · exact h.run v t at_ (by simpa [hvu] using hv)

omit [DecidableEq C] in
theorem Tracked.clientAt (h : Tracked d a) {c : C} {ip : Nat} {pc : ClientPc C}
    (hk : a.thread (.inl c) = .client ip pc) : d.ClientAt c ip pc := by
  have hc := h.client c
  rwa [hk] at hc

omit [DecidableEq C] in
/-- A store to {lit}`private_data` changes nothing else in the tasks. -/
theorem Env.storePrivateData_task (env : Env C N β υ) (t : Nat) (p : Option (C × Nat))
    (t' : Nat) : (env.storePrivateData t p).heap.task t' =
      { env.heap.task t' with
        privateData := ((env.storePrivateData t p).heap.task t').privateData } := by
  by_cases h : t' = t
  · simp [Env.storePrivateData, h]
  · simp [Env.storePrivateData, h]

/-- A client's step that leaves the objects alone. -/
theorem Tracked.client_step (h : Tracked d a) {c : C} {k : Local C} {fifo : List Nat}
    {env : Env C N β υ} (hheap : env.heap = a.env.heap) (hk : d.LocalAt c k)
    (hrun : ∀ t at_, k.runAt = some (t, at_) → at_.OnBranch (d.heap.task t).waitable) :
    Tracked d { a with
      fifo := fifo, env := env, thread := Function.update a.thread (.inl c) k } := by
  apply h.update (by rw [hheap]) (by rw [hheap]; exact fun _ => rfl)
  · intro c' hc
    cases hc
    exact hk
  · intro i hi
    cases hi
  · exact hrun

/-- A client's store to {lit}`private_data`. -/
theorem Tracked.client_store (h : Tracked d a) {c : C} {k : Local C} (env : Env C N β υ)
    {t : Nat} {p : Option (C × Nat)} (hheap : env.heap = a.env.heap) (hk : d.LocalAt c k)
    (hrun : k.runAt = none) :
    Tracked d { a with
      env := env.storePrivateData t p, thread := Function.update a.thread (.inl c) k } := by
  apply h.update
  · change env.heap.group = _
    rw [hheap]
  · intro t'
    rw [Env.storePrivateData_task, hheap]
  · intro c' hc
    cases hc
    exact hk
  · intro i hi
    cases hi
  · intro t' at_ hrun'
    rw [hrun] at hrun'
    cases hrun'

/-- A worker's step. -/
theorem Tracked.worker_step (h : Tracked d a) {i : Fin N} {pc : WorkerPc C}
    {fifo : List Nat} {env : Env C N β υ} (hheap : env.heap = a.env.heap)
    (hrun : ∀ t at_, (Local.worker pc).runAt = some (t, at_) →
      at_.OnBranch (d.heap.task t).waitable) :
    Tracked d { a with
      fifo := fifo, env := env, thread := Function.update a.thread (.inr i) (.worker pc) } := by
  apply h.update (by rw [hheap]) (by rw [hheap]; exact fun _ => rfl)
  · intro c hc
    cases hc
  · exact fun _ _ => ⟨pc, rfl⟩
  · exact hrun

omit [DecidableEq C] in
/-- A thread that runs a task is a client at a site or a worker. -/
theorem Tracked.runNext (h : Tracked d a) {t : Nat} {at_ : RunPc C}
    (hrun : (a.thread u).runAt = some (t, at_)) (r : Option (RunPc C)) :
    (∀ c, u = .inl c → d.LocalAt c ((a.thread u).runNext r)) ∧
    (∀ i, u = .inr i → ∃ pc, (a.thread u).runNext r = .worker pc) := by
  constructor
  · rintro c rfl
    have hc := h.client c
    cases hk : a.thread (.inl c) with
    | worker pc =>
        rw [hk] at hc
        cases hc
    | client ip pc =>
        rw [hk] at hc hrun
        cases pc with
        | pitch t' site at' =>
            have hsite : d.SiteAt c ip t' site := hc
            cases r with
            | none => exact hsite.localAt_next
            | some at'' => exact hsite
        | _ => cases hrun
  · rintro i rfl
    rcases h.worker i with ⟨pc, hk⟩
    rw [hk] at hrun ⊢
    cases pc with
    | run t' at' => cases r <;> exact ⟨_, rfl⟩
    | _ => cases hrun

/-- Every step keeps the threads where the program says. -/
theorem Tracked.step (h : Tracked d a) (hstep : DispatchStep d a u a') : Tracked d a' := by
  cases hstep with
  | send c ip t site hk _ =>
      have hsite : d.SiteAt c ip t site := h.clientAt hk
      exact h.client_step rfl hsite.localAt_next (by simp)
  | receive i t rest hk _ => exact h.worker_step rfl (by simp [Local.runAt])
  | sizeZero c ip busy hk _ => exact h.client_step rfl trivial (by simp [Local.runAt])
  | sizeAgain c ip busy hk _ =>
      have hat : (d.prog c)[ip]? = some .wait := h.clientAt hk
      exact h.client_step rfl hat (by simp [Local.runAt])
  | taskAddWaitable c ip t hk hcall _ =>
      have hentry : d.LocalAt c (.client ip (d.addEntry t .task)) :=
        DispatchConfig.localAt_addEntry hcall
      exact h.client_store (a.env.setCounter (c, ip) (eventCounterCreate 1)) rfl
        hentry (by simp)
  | taskAddPlain c ip t hk hcall _ =>
      have hentry : d.LocalAt c (.client ip (d.addEntry t .task)) :=
        DispatchConfig.localAt_addEntry hcall
      exact h.client_step rfl hentry (by simp)
  | groupAddWaitable c ip g hk hcall hw =>
      rw [h.group] at hw
      have hat : d.ClientAt c ip (.groupLoop g 0 (some (c, ip))) :=
        ⟨hcall, by simp [DispatchConfig.groupCounter, hw], Nat.zero_le _⟩
      exact h.client_step rfl hat (by simp [Local.runAt])
  | groupAddPlain c ip g hk hcall hw =>
      rw [h.group] at hw
      have hat : d.ClientAt c ip (.groupLoop g 0 none) :=
        ⟨hcall, by simp [DispatchConfig.groupCounter, hw], Nat.zero_le _⟩
      exact h.client_step rfl hat (by simp [Local.runAt])
  | wait c ip hk hcall =>
      have hat : d.ClientAt c ip (.waitScan 0 0) := hcall
      exact h.client_step rfl hat (by simp [Local.runAt])
  | groupStore c ip g i t counter hk htask =>
      rcases h.clientAt hk with ⟨hcall, hcounter, -⟩
      rw [h.group] at htask
      have hsite : d.SiteAt c ip t (.member g i counter) := ⟨hcall, hcounter, htask⟩
      exact h.client_store a.env rfl (DispatchConfig.localAt_addEntry hsite)
        (by simp)
  | addRead c ip t site i busy hi hk =>
      have hsite : d.SiteAt c ip t site := h.clientAt hk
      exact h.client_step rfl hsite (by simp [Local.runAt])
  | addPitch c ip t site i busy hi hk hbusy =>
      have hsite : d.SiteAt c ip t site := h.clientAt hk
      refine h.client_step rfl hsite ?_
      intro t' at_ hrun
      cases hrun
      trivial
  | addSend c ip t site i busy hi hk hbusy =>
      have hsite : d.SiteAt c ip t site := h.clientAt hk
      exact h.client_step rfl hsite (by simp [Local.runAt])
  | run u t at_ env' r hrun hstep =>
      have hheap := hstep.heap_eq
      rcases h.runNext hrun r with ⟨hclient, hworker⟩
      apply h.update (by rw [hheap]) (by rw [hheap]; exact fun _ => rfl) hclient hworker
      intro t' at' hrun'
      rw [Local.runAt_runNext hrun, Option.map_eq_some_iff] at hrun'
      rcases hrun' with ⟨at'', rfl, heq⟩
      cases heq
      exact hstep.onBranch (h.waitable t) (h.run u t at_ hrun)
  | waitRead c ip i busy hi hk =>
      have hat : (d.prog c)[ip]? = some .wait := h.clientAt hk
      exact h.client_step rfl hat (by simp [Local.runAt])
  | waitAll c ip i busy hi hk =>
      have hat : (d.prog c)[ip]? = some .wait := h.clientAt hk
      exact h.client_step rfl hat (by simp [Local.runAt])
  | taskWait c ip t counter hk hcall _ =>
      have hat : d.WaitsAt c ip := Or.inl ⟨t, hcall⟩
      exact h.client_step rfl hat (by simp [Local.runAt])
  | groupWait c ip g t ts counter hk hcall _ _ =>
      have hat : d.WaitsAt c ip := Or.inr ⟨g, hcall⟩
      exact h.client_step rfl hat (by simp [Local.runAt])
  | checkToken c ip counter tasks hk _ =>
      have hat : d.WaitsAt c ip := h.clientAt hk
      exact h.client_step rfl hat (by simp [Local.runAt])
  | deleteCounter c ip counter tasks hk =>
      have hat : d.WaitsAt c ip := h.clientAt hk
      exact h.client_step rfl hat (by simp [Local.runAt])
  | deleteTask c ip t ts hk =>
      have hat : d.WaitsAt c ip := h.clientAt hk
      exact h.client_step rfl hat (by simp [Local.runAt])
  | freeObject c ip object k hk hnext =>
      have hat : (d.prog c)[ip]? = some .delete := h.clientAt hk
      rcases hnext with rfl | ⟨object', rfl⟩
      · exact h.client_step rfl trivial (by simp [Local.runAt])
      · exact h.client_step rfl hat (by simp [Local.runAt])
  | start i hk => exact h.worker_step rfl (by simp [Local.runAt])
  | setBusy i t hk =>
      refine h.worker_step rfl ?_
      intro t' at_ hrun
      cases hrun
      trivial
  | setReady i hk => exact h.worker_step rfl (by simp [Local.runAt])
  | freeCend i hk => exact h.worker_step rfl (by simp [Local.runAt])
  | _ => exact h.client_step rfl trivial (by simp [Local.runAt])

theorem tracked_init : Tracked d d.atomicThreads.init where
  group := rfl
  task _ := rfl
  client _ := trivial
  worker _ := ⟨.start, rfl⟩
  run u t at_ hu := by cases u <;> cases hu

/-- The threads are where the program says in every reachable state. -/
theorem tracked_of_reachable (ha : d.atomicThreads.Reachable a) : Tracked d a :=
  ha.invariant tracked_init fun _ _ _ _ h hstep => h.step (dispatchStep_of_step hstep)

/-! ## From the atomic queue to the queue of the source -/

/-- Clients that never call {lit}`dispatch_queue_delete` never delete the queue. -/
theorem DispatchConfig.noDelete (h : ∀ c, .delete ∉ d.prog c) : d.caller.NoDelete := by
  intro u k hcall
  rcases DispatchConfig.call_cases hcall with
    ⟨c, ip, rfl, rfl, -⟩ | ⟨c, ip, t, site, rfl, rfl, heq⟩ | ⟨c, ip, busy, rfl, rfl, heq⟩ |
    ⟨i, rfl, rfl, heq⟩
  · simp only [DispatchConfig.caller, Option.ite_none_right_eq_some] at hcall
    exact h c (List.mem_of_getElem? hcall.1)
  · cases heq
  · cases heq
  · cases heq

/-- The threads over the queue of the source are in a state that the threads over the
atomic queue can be in. -/
theorem DispatchConfig.atomic_of_reachable (h : ∀ c, .delete ∉ d.prog c) {handshake : Bool}
    {s : State (C ⊕ Fin N) (Option (Fin N)) Nat (Local C) (Env C N β υ)}
    (hs : (d.threads handshake).Reachable s) :
    ∃ a, d.atomicThreads.Reachable a ∧ Refines d.caller s a :=
  Metal.atomic_of_reachable (DispatchConfig.noDelete h) d.length_pos hs

/-- The local state of a thread over the queue of the source, seen before or after the
queue function that it is in. -/
def DispatchConfig.view (d : DispatchConfig C N β υ)
    (s : State (C ⊕ Fin N) (Option (Fin N)) Nat (Local C) (Env C N β υ)) (u : C ⊕ Fin N) :
    Local C :=
  (s.thread u).view d.caller u

theorem DispatchConfig.view_eq (d : DispatchConfig C N β υ)
    {s : State (C ⊕ Fin N) (Option (Fin N)) Nat (Local C) (Env C N β υ)}
    (h : Refines d.caller s a) : d.view s = a.thread :=
  funext fun u => (h.thread u).symm

end Steps

end Metal
end LibDispatch
