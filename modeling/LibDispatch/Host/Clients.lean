import LibDispatch.Program
import LibDispatch.Host.Tickets
import LibDispatch.Library.Tally

/-!
# Several clients of the host queue

The host backend lets any number of clients call into one queue.  Each of them is in a call of
its own program, and what it has pushed is what its earlier calls submit and a part of the
current one.  When no two clients submit the same task, the tasks pushed split into those of
the clients, each in its order, and a waitable task leads to the counter of its call from the
store to {lit}`private_data` on.

Main results:

- Theorem {lit}`located_of_reachable`: each client is where its program says.
- Theorem {lit}`length_pushed`: all that was pushed was pushed by the clients.
- Theorem {lit}`filter_pushed`: the tasks pushed that are a client's, in their order.
- Theorem {lit}`dataSet_of_reachable`: where the waitable tasks lead.
-/

namespace LibDispatch
namespace Host

variable {C : Type} {N : Nat} {β υ : Type}

/-! ## Where the clients are -/

/-- The calls of a client, as a program of its own. -/
def DispatchConfig.programOf (d : DispatchConfig C N β υ) (c : C) : Program β υ (C × Nat) :=
  ⟨d.prog c, d.heap⟩

/-- The tasks that the first {lit}`ip` calls of a client submit. -/
def DispatchConfig.submitted (d : DispatchConfig C N β υ) (c : C) (ip : Nat) : List Nat :=
  (d.programOf c).submitted ip

/-- The variable {lit}`counter` of the {lit}`ip`-th call of a client. -/
def DispatchConfig.counterFor (d : DispatchConfig C N β υ) (c : C) (ip : Nat)
    (call : DispatchCall) : Option (C × Nat) :=
  if call.createsCounter d.heap = true then some (c, ip) else none

/-- The tasks that the current call has pushed before the site. -/
def AddSite.before (heap : Heap β υ (C × Nat)) : AddSite C → List Nat
  | .task _ => []
  | .member g i _ => (heap.group g).tasks.take i

@[simp]
theorem AddSite.before_task (heap : Heap β υ (C × Nat)) (counter : Option (C × Nat)) :
    (AddSite.task counter).before heap = [] :=
  rfl

@[simp]
theorem AddSite.before_member (heap : Heap β υ (C × Nat)) (g i : Nat)
    (counter : Option (C × Nat)) :
    (AddSite.member g i counter).before heap = (heap.group g).tasks.take i :=
  rfl

/-- The site belongs to the {lit}`ip`-th call and adds {lit}`t`. -/
def DispatchConfig.SiteAt (d : DispatchConfig C N β υ) (c : C) (ip t : Nat) : AddSite C → Prop
  | .task counter => (d.prog c)[ip]? = some (.taskAdd t) ∧
      counter = d.counterFor c ip (.taskAdd t)
  | .member g i counter => (d.prog c)[ip]? = some (.groupAdd g) ∧
      counter = d.counterFor c ip (.groupAdd g) ∧ (d.heap.group g).tasks[i]? = some t

/-- The position belongs to the {lit}`ip`-th call. -/
def DispatchConfig.ClientAt (d : DispatchConfig C N β υ) (c : C) (ip : Nat) :
    ClientPc C → Prop
  | .ready => True
  | .groupLoop g i counter => (d.prog c)[ip]? = some (.groupAdd g) ∧
      counter = d.counterFor c ip (.groupAdd g) ∧ i ≤ (d.heap.group g).tasks.length
  | .store t site | .addLock t site | .push t site => d.SiteAt c ip t site
  | .addUnlock site | .notify site => ∃ t, d.SiteAt c ip t site
  | .waitLock | .waitSize | .waitUnlock _ | .semaphoreWait _ | .semaphoreBlocked _ =>
      (d.prog c)[ip]? = some .wait
  | .counterWait _ _ | .counterBlocked _ _ | .deleteCounter _ _ | .deleteTasks _ =>
      (∃ t, (d.prog c)[ip]? = some (.taskWait t)) ∨ ∃ g, (d.prog c)[ip]? = some (.groupWait g)
  | _ => (d.prog c)[ip]? = some .delete

/-- The groups are as they were built, and each client is where its program says. -/
structure Located (d : DispatchConfig C N β υ) (s : State C N β υ) : Prop where
  group : s.heap.group = d.heap.group
  client : ∀ c, d.ClientAt c (s.client c).ip (s.client c).pc

/-- The tasks that a client has pushed after the one of the site. -/
def DispatchConfig.pushedAfter (d : DispatchConfig C N β υ) (c : C) (ip : Nat) :
    AddSite C → List Nat
  | .task _ => d.submitted c (ip + 1)
  | .member g i _ => d.submitted c ip ++ (d.heap.group g).tasks.take (i + 1)

/-- The tasks that a client has pushed. -/
def DispatchConfig.pushedBy (d : DispatchConfig C N β υ) (c : C) (k : Client C) : List Nat :=
  match k.pc with
  | .groupLoop g i _ => d.submitted c k.ip ++ (d.heap.group g).tasks.take i
  | .store _ site | .addLock _ site | .push _ site => d.submitted c k.ip ++ site.before d.heap
  | .addUnlock site | .notify site => d.pushedAfter c k.ip site
  | _ => d.submitted c k.ip

section Positions

variable [DecidableEq C] {d : DispatchConfig C N β υ} {s s' : State C N β υ} {c : C} {i : Fin N}

omit [DecidableEq C] in
theorem DispatchConfig.submitted_succ {ip : Nat} {call : DispatchCall}
    (h : (d.prog c)[ip]? = some call) :
    d.submitted c (ip + 1) = d.submitted c ip ++ call.tasks d.heap :=
  Program.submitted_succ (p := d.programOf c) h

omit [DecidableEq C] in
/-- What the call of a site is, and what it has pushed after the site. -/
theorem DispatchConfig.SiteAt.call {ip t : Nat} {site : AddSite C} (h : d.SiteAt c ip t site) :
    ∃ call, (d.prog c)[ip]? = some call ∧ t ∈ call.tasks d.heap ∧
      site.counter = d.counterFor c ip call ∧
      site.before d.heap ++ [t] <+: call.tasks d.heap := by
  cases site with
  | task counter =>
      exact ⟨_, h.1, List.mem_singleton_self t, h.2, List.prefix_refl _⟩
  | member g i counter =>
      rcases h with ⟨hcall, hcounter, htask⟩
      refine ⟨_, hcall, List.mem_of_getElem? htask, hcounter, ?_⟩
      rcases List.getElem?_eq_some_iff.mp htask with ⟨hlt, rfl⟩
      change (d.heap.group g).tasks.take i ++ _ <+: (d.heap.group g).tasks
      rw [← List.take_succ_eq_append_getElem hlt]
      exact List.take_prefix _ _

/-- A step that moves one client to a position of its call. -/
theorem Located.update (h : Located d s) {k : Client C} (hgroup : s'.heap.group = s.heap.group)
    (hclient : s'.client = Function.update s.client c k) (hat : d.ClientAt c k.ip k.pc) :
    Located d s' := by
  refine ⟨hgroup.trans h.group, fun c' => ?_⟩
  rw [hclient]
  by_cases hc : c' = c
  · subst hc
    rw [Function.update_self]
    exact hat
  · rw [Function.update_of_ne hc]
    exact h.client c'

/-- After {lit}`task_add` the client is in the loop of the group or has made the call. -/
theorem Located.added (h : Located d s) {site : AddSite C} (hk : (s.client c).pc = .notify site) :
    Located d (s.added c site) := by
  have hat := h.client c
  rw [hk] at hat
  rcases hat with ⟨t, hsite⟩
  cases site with
  | task counter => exact h.update rfl (s.client_ret c) trivial
  | member g i counter =>
      rcases hsite with ⟨hcall, hcounter, htask⟩
      have hlt := (List.getElem?_eq_some_iff.mp htask).1
      exact h.update rfl (s.client_goto c _) ⟨hcall, hcounter, hlt⟩

/-- A step of a client stays in its program. -/
theorem Located.client_step (h : Located d s) (hacc : Accounted d s) (hstep : ClientStep d s c s') :
    Located d s' := by
  have hat := h.client c
  cases hstep with
  | taskAddWaitable t hk hcall hw =>
      rw [hacc.waitable_eq] at hw
      refine h.update rfl (State.client_goto _ c _) ⟨hcall, ?_⟩
      exact (if_pos hw).symm
  | taskAddPlain t hk hcall hw =>
      rw [hacc.waitable_eq] at hw
      refine h.update rfl (State.client_goto _ c _) ⟨hcall, ?_⟩
      exact (if_neg (Bool.eq_false_iff.mp hw)).symm
  | groupAddWaitable g hk hcall hw =>
      rw [h.group] at hw
      refine h.update rfl (State.client_goto _ c _) ⟨hcall, ?_, Nat.zero_le _⟩
      exact (if_pos hw).symm
  | groupAddPlain g hk hcall hw =>
      rw [h.group] at hw
      refine h.update rfl (State.client_goto _ c _) ⟨hcall, ?_, Nat.zero_le _⟩
      exact (if_neg (Bool.eq_false_iff.mp hw)).symm
  | taskWait t counter hk hcall _ _ =>
      exact h.update rfl (State.client_goto _ c _) (Or.inl ⟨t, hcall⟩)
  | groupWait g t ts counter hk hcall _ _ _ =>
      exact h.update rfl (State.client_goto _ c _) (Or.inr ⟨g, hcall⟩)
  | wait hk hcall => exact h.update rfl (State.client_goto _ c _) hcall
  | delete hk hcall => exact h.update rfl (State.client_goto _ c _) hcall
  | groupDone g i counter hk hend => exact h.update rfl (State.client_ret _ c) trivial
  | groupNext g i t counter hk htask =>
      rw [hk] at hat
      rw [h.group] at htask
      exact h.update rfl (State.client_goto _ c _) ⟨hat.1, hat.2.1, htask⟩
  | push t site hk =>
      rw [hk] at hat
      exact h.update rfl (State.client_goto _ c _) ⟨t, hat⟩
  | notifyLost site hk _ => exact h.added hk
  | deleteDone hk => exact h.update rfl (State.client_ret _ c) trivial
  | semaphoreDone i hi hk => exact h.update rfl (State.client_ret _ c) trivial
  | deleteQueue hk => exact h.update rfl (State.client_ret _ c) trivial
  | _ =>
      rw [(by assumption : (s.client c).pc = _)] at hat
      exact h.update rfl (State.client_goto _ c _) hat

omit [DecidableEq C] in
theorem ClientPc.WokenTo.clientAt {ip : Nat} {pc pc' : ClientPc C} (h : pc.WokenTo pc')
    (hat : d.ClientAt c ip pc) : d.ClientAt c ip pc' := by
  rcases h with rfl | ⟨i, rfl, rfl⟩ | ⟨counter, ts, rfl, rfl⟩ <;> exact hat

/-- A worker moves no client to another call. -/
theorem Located.worker_step (h : Located d s) (hstep : WorkerStep s i s') : Located d s' := by
  refine ⟨?_, fun c => ?_⟩
  · rw [← h.group]
    cases hstep <;> rfl
  · rcases hstep.client_wokenTo c with ⟨hip, hwoken⟩
    rw [hip]
    exact hwoken.clientAt (h.client c)

theorem located_of_reachable (hs : d.system.Reachable s) : Located d s := by
  have hinit : Located d d.system.init := ⟨rfl, fun _ => trivial⟩
  refine hs.invariant hinit fun s l s' hs h hstep => ?_
  refine step_rule hs h hstep
    (fun _ _ _ hs h hstep => h.client_step (accounted_of_reachable hs) hstep)
    (fun _ _ _ _ h hstep => h.worker_step hstep) (fun _ _ _ h _ => ⟨h.group, h.client⟩)
    (fun _ _ _ h hk => h.added hk) fun s c pc h _ hwoken => ?_
  exact h.update rfl (State.client_goto _ c _) (hwoken.clientAt (h.client c))

/-! ## What the clients have pushed -/

/-- The tasks that a client submits. -/
def DispatchConfig.ownTasks (d : DispatchConfig C N β υ) (c : C) : List Nat :=
  (d.prog c).flatMap (DispatchCall.tasks d.heap)

omit [DecidableEq C] in
theorem DispatchConfig.prefix_submitted (d : DispatchConfig C N β υ) (c : C) (ip : Nat) :
    d.submitted c ip <+: d.ownTasks c :=
  (d.programOf c).prefix_submitted ip

/-- The client that has notified a worker has pushed what it had pushed. -/
theorem State.pushedBy_added {site : AddSite C} (hk : (s.client c).pc = .notify site) :
    d.pushedBy c ((s.added c site).client c) = d.pushedBy c (s.client c) := by
  cases site with
  | task counter => simp [DispatchConfig.pushedBy, hk, State.added, DispatchConfig.pushedAfter]
  | member g i counter =>
      simp [DispatchConfig.pushedBy, hk, State.added, DispatchConfig.pushedAfter]

omit [DecidableEq C] in
theorem DispatchConfig.submitted_mono (d : DispatchConfig C N β υ) (c : C) {jp ip : Nat}
    (h : jp ≤ ip) : d.submitted c jp <+: d.submitted c ip := by
  have htake : (d.prog c).take jp <+: (d.prog c).take ip := List.take_prefix_take_left h
  exact htake.flatMap (DispatchCall.tasks d.heap)

omit [DecidableEq C] in
/-- A client has pushed what its earlier calls submit, and a part of the current one. -/
theorem Located.prefix_pushedBy (h : Located d s) (c : C) :
    d.submitted c (s.client c).ip <+: d.pushedBy c (s.client c) ∧
      d.pushedBy c (s.client c) <+: d.submitted c ((s.client c).ip + 1) := by
  have hat := h.client c
  have hpart : ∀ {call : DispatchCall} {ts : List Nat},
      (d.prog c)[(s.client c).ip]? = some call → ts <+: call.tasks d.heap →
      d.submitted c (s.client c).ip <+: d.submitted c (s.client c).ip ++ ts ∧
        d.submitted c (s.client c).ip ++ ts <+: d.submitted c ((s.client c).ip + 1) := by
    intro call ts hcall hts
    rw [d.submitted_succ hcall]
    exact ⟨List.prefix_append _ _, (List.prefix_append_right_inj _).mpr hts⟩
  have hsite : ∀ {t : Nat} {site : AddSite C}, d.SiteAt c (s.client c).ip t site →
      d.submitted c (s.client c).ip <+: d.submitted c (s.client c).ip ++ site.before d.heap ∧
        d.submitted c (s.client c).ip ++ site.before d.heap <+:
          d.submitted c ((s.client c).ip + 1) := by
    intro t site hsite
    rcases hsite.call with ⟨call, hcall, -, -, hbefore⟩
    exact hpart hcall ((List.prefix_append _ _).trans hbefore)
  have hafter : ∀ {site : AddSite C}, (∃ t, d.SiteAt c (s.client c).ip t site) →
      d.submitted c (s.client c).ip <+: d.pushedAfter c (s.client c).ip site ∧
        d.pushedAfter c (s.client c).ip site <+: d.submitted c ((s.client c).ip + 1) := by
    rintro site ⟨t, hsite⟩
    cases site with
    | task counter => exact ⟨d.submitted_mono c (Nat.le_succ _), List.prefix_refl _⟩
    | member g i counter => exact hpart hsite.1 (List.take_prefix _ _)
  unfold DispatchConfig.pushedBy
  cases hk : (s.client c).pc with
  | groupLoop g i counter =>
      rw [hk] at hat
      exact hpart hat.1 (List.take_prefix _ _)
  | store t site =>
      rw [hk] at hat
      exact hsite hat
  | addLock t site =>
      rw [hk] at hat
      exact hsite hat
  | push t site =>
      rw [hk] at hat
      exact hsite hat
  | addUnlock site =>
      rw [hk] at hat
      exact hafter hat
  | notify site =>
      rw [hk] at hat
      exact hafter hat
  | _ => exact ⟨List.prefix_refl _, d.submitted_mono c (Nat.le_succ _)⟩

/-- A step of a client pushes one task of its own, or nothing. -/
theorem ClientStep.pushedBy_cases (hstep : ClientStep d s c s') (h : Located d s) :
    (∃ t, s'.history.pushed = s.history.pushed ++ [t] ∧
      d.pushedBy c (s'.client c) = d.pushedBy c (s.client c) ++ [t]) ∨
    (s'.history.pushed = s.history.pushed ∧
      d.pushedBy c (s'.client c) = d.pushedBy c (s.client c)) := by
  have hat := h.client c
  -- a call that submits nothing returns
  have hret : ∀ {call : DispatchCall}, (d.prog c)[(s.client c).ip]? = some call →
      call.tasks d.heap = [] →
      d.submitted c ((s.client c).ip + 1) = d.submitted c (s.client c).ip := by
    intro call hcall htasks
    rw [d.submitted_succ hcall, htasks, List.append_nil]
  cases hstep with
  | push t site hk =>
      rw [hk] at hat
      refine Or.inl ⟨t, rfl, ?_⟩
      cases site with
      | task counter =>
          simp [DispatchConfig.pushedBy, hk, DispatchConfig.pushedAfter, d.submitted_succ hat.1,
            DispatchCall.tasks]
      | member g i counter =>
          rcases List.getElem?_eq_some_iff.mp hat.2.2 with ⟨hlt, rfl⟩
          simp [DispatchConfig.pushedBy, hk, DispatchConfig.pushedAfter]
  | groupDone g i counter hk hend =>
      rw [hk] at hat
      rw [h.group, List.getElem?_eq_none_iff] at hend
      refine Or.inr ⟨rfl, ?_⟩
      simp [DispatchConfig.pushedBy, hk, d.submitted_succ hat.1, DispatchCall.tasks,
        List.take_of_length_le hend]
  | notifyLost site hk _ => exact Or.inr ⟨by simp, State.pushedBy_added hk⟩
  | deleteDone hk =>
      rw [hk] at hat
      refine Or.inr ⟨rfl, ?_⟩
      rcases hat with ⟨t, hcall⟩ | ⟨g, hcall⟩
      · simp [DispatchConfig.pushedBy, hk, hret hcall rfl]
      · simp [DispatchConfig.pushedBy, hk, hret hcall rfl]
  | semaphoreDone i hi hk =>
      rw [hk] at hat
      refine Or.inr ⟨rfl, ?_⟩
      simp [DispatchConfig.pushedBy, hk, hret hat rfl]
  | deleteQueue hk =>
      rw [hk] at hat
      refine Or.inr ⟨rfl, ?_⟩
      simp [DispatchConfig.pushedBy, hk, hret hat rfl]
  | _ =>
      refine Or.inr ⟨rfl, ?_⟩
      simp [DispatchConfig.pushedBy, (by assumption : (s.client c).pc = _)]

omit [DecidableEq C] in
theorem ClientPc.WokenTo.pushedBy_eq {k k' : Client C} (h : k.pc.WokenTo k'.pc)
    (hip : k'.ip = k.ip) : d.pushedBy c k' = d.pushedBy c k := by
  unfold DispatchConfig.pushedBy
  rw [hip]
  rcases h with heq | ⟨i, hk, hk'⟩ | ⟨counter, ts, hk, hk'⟩
  · rw [heq]
  · rw [hk, hk']
  · rw [hk, hk']

theorem State.ip_goto (s : State C N β υ) (c : C) (pc : ClientPc C) (c' : C) :
    ((s.goto c pc).client c').ip = (s.client c').ip := by
  by_cases hc : c' = c
  · subst hc
    simp
  · simp [hc]

/-- A step of the system pushes one task of one client, or nothing. -/
theorem pushed_step {l : Label C N} (h : Located d s) (hstep : d.system.step s l = some s') :
    (∃ c t, s'.history.pushed = s.history.pushed ++ [t] ∧
      d.pushedBy c (s'.client c) = d.pushedBy c (s.client c) ++ [t] ∧
      ∀ c', c' ≠ c → s'.client c' = s.client c') ∨
    (s'.history.pushed = s.history.pushed ∧
      ∀ c, d.pushedBy c (s'.client c) = d.pushedBy c (s.client c)) := by
  rcases step_cases hstep with ⟨c, -, hc⟩ | ⟨i, -, hi⟩ | ⟨c, i, site, -, hk, hw, rfl⟩ |
    ⟨i, -, hw, rfl⟩ | ⟨c, counter, ts, -, hk, rfl⟩ | ⟨c, i, -, hk, rfl⟩
  · rcases hc.pushedBy_cases h with ⟨t, hpushed, hby⟩ | ⟨hpushed, hby⟩
    · exact Or.inl ⟨c, t, hpushed, hby, fun c' hc' => hc.other hc'⟩
    · refine Or.inr ⟨hpushed, fun c' => ?_⟩
      by_cases hc' : c' = c
      · rw [hc', hby]
      · rw [hc.other hc']
  · refine Or.inr ⟨by cases hi <;> rfl, fun c => ?_⟩
    rcases hi.client_wokenTo c with ⟨hip, hwoken⟩
    exact hwoken.pushedBy_eq hip
  · refine Or.inr ⟨by simp [State.wakeWorker, State.workerGoto, State.record], fun c' => ?_⟩
    by_cases hc' : c' = c
    · rw [hc']
      exact State.pushedBy_added (s := s.wakeWorker i) hk
    · rw [State.added_other _ site hc']
      rfl
  · exact Or.inr ⟨rfl, fun _ => rfl⟩
  · refine Or.inr ⟨rfl, fun c' => ?_⟩
    exact (State.goto_wokenTo (Or.inr (Or.inr ⟨counter, ts, hk, rfl⟩)) c').pushedBy_eq
      (s.ip_goto c _ c')
  · refine Or.inr ⟨rfl, fun c' => ?_⟩
    exact (State.goto_wokenTo (Or.inr (Or.inl ⟨i, hk, rfl⟩)) c').pushedBy_eq
      (s.ip_goto c _ c')

/-- All that was pushed was pushed by the clients. -/
theorem length_pushed [Fintype C] (hs : d.system.Reachable s) :
    s.history.pushed.length = ∑ c, (d.pushedBy c (s.client c)).length := by
  have hinit : d.system.init.history.pushed.length =
      ∑ c, (d.pushedBy c (d.system.init.client c)).length := by
    refine (Finset.sum_eq_zero fun c _ => ?_).symm
    rfl
  refine hs.invariant (P := fun s => s.history.pushed.length =
    ∑ c, (d.pushedBy c (s.client c)).length) hinit fun s l s' hs h hstep => ?_
  rcases pushed_step (located_of_reachable hs) hstep with
    ⟨c, t, hpushed, hby, hother⟩ | ⟨hpushed, hby⟩
  · have hsum : ∑ c', (d.pushedBy c' (s'.client c')).length =
        ∑ c', ((d.pushedBy c' (s.client c')).length + if c' = c then 1 else 0) := by
      refine Finset.sum_congr rfl fun c' _ => ?_
      by_cases hc : c' = c
      · subst hc
        simp [hby]
      · simp [hc, hother c' hc]
    rw [hpushed, hsum, Finset.sum_add_distrib, Finset.sum_ite_eq' Finset.univ c]
    simp [h]
  · simp only [hpushed, h, hby]

/-! ## Clients that follow the rules -/

/-- Each client follows the rules, and no two clients submit the same task. -/
structure DispatchConfig.Disciplined (d : DispatchConfig C N β υ) : Prop where
  each : ∀ c, (d.programOf c).Disciplined
  flags : ∀ c, (d.programOf c).FlagsAgree
  apart : ∀ c c' t, t ∈ d.ownTasks c → t ∈ d.ownTasks c' → c = c'

/-- The task is one of the client's. -/
def DispatchConfig.mine (d : DispatchConfig C N β υ) (c : C) (t : Nat) : Bool :=
  decide (t ∈ d.ownTasks c)

omit [DecidableEq C] in
theorem DispatchConfig.mem_ownTasks {jp t : Nat} {call : DispatchCall}
    (hcall : (d.prog c)[jp]? = some call) (ht : t ∈ call.tasks d.heap) : t ∈ d.ownTasks c :=
  List.mem_flatMap.mpr ⟨call, List.mem_of_getElem? hcall, ht⟩

omit [DecidableEq C] in
theorem Located.prefix_ownTasks (h : Located d s) (c : C) :
    d.pushedBy c (s.client c) <+: d.ownTasks c :=
  (h.prefix_pushedBy c).2.trans (d.prefix_submitted c _)

omit [DecidableEq C] in
/-- A task is submitted by one call of one client. -/
theorem DispatchConfig.Disciplined.counter_unique (hd : d.Disciplined) {c c' : C} {jp jp' t : Nat}
    {call call' : DispatchCall} (hcall : (d.prog c)[jp]? = some call)
    (ht : t ∈ call.tasks d.heap) (hcall' : (d.prog c')[jp']? = some call')
    (ht' : t ∈ call'.tasks d.heap) : (c, jp) = (c', jp') := by
  have hclient := hd.apart c c' t (d.mem_ownTasks hcall ht) (d.mem_ownTasks hcall' ht')
  subst hclient
  rw [(hd.each c).unique hcall hcall' ht ht']

/-- The tasks pushed that are a client's are those that it has pushed, in their order. -/
theorem filter_pushed (hd : d.Disciplined) (hs : d.system.Reachable s) (c : C) :
    s.history.pushed.filter (d.mine c) = d.pushedBy c (s.client c) := by
  have hinit : ∀ c, d.system.init.history.pushed.filter (d.mine c) =
      d.pushedBy c (d.system.init.client c) := fun _ => rfl
  refine hs.invariant (P := fun s => ∀ c, s.history.pushed.filter (d.mine c) =
    d.pushedBy c (s.client c)) hinit (fun s l s' hs h hstep => ?_) c
  rcases pushed_step (located_of_reachable hs) hstep with
    ⟨c, t, hpushed, hby, hother⟩ | ⟨hpushed, hby⟩
  · have ht : t ∈ d.ownTasks c := by
      refine ((located_of_reachable (hs.step hstep)).prefix_ownTasks c).subset ?_
      rw [hby]
      exact List.mem_append_right _ (List.mem_singleton_self t)
    intro c'
    rw [hpushed, List.filter_append, h c']
    by_cases hc : c' = c
    · subst hc
      rw [hby, List.filter_singleton, DispatchConfig.mine, decide_eq_true ht]
      rfl
    · have hnot : t ∉ d.ownTasks c' := fun ht' => hc (hd.apart c' c t ht' ht)
      rw [hother c' hc, List.filter_singleton, DispatchConfig.mine, decide_eq_false hnot]
      exact List.append_nil _
  · intro c
    rw [hpushed, h c, hby c]

/-- A task pushed is some client's. -/
theorem exists_mine (hs : d.system.Reachable s) {t : Nat} (ht : t ∈ s.history.pushed) :
    ∃ c, t ∈ d.ownTasks c := by
  have hinit : ∀ t ∈ d.system.init.history.pushed, ∃ c, t ∈ d.ownTasks c := by
    intro t ht
    cases ht
  refine hs.invariant (P := fun s => ∀ t ∈ s.history.pushed, ∃ c, t ∈ d.ownTasks c) hinit
    (fun s l s' hs h hstep => ?_) t ht
  rcases pushed_step (located_of_reachable hs) hstep with
    ⟨c, t, hpushed, hby, -⟩ | ⟨hpushed, -⟩
  · intro t' ht'
    rw [hpushed, List.mem_append, List.mem_singleton] at ht'
    rcases ht' with ht' | rfl
    · exact h t' ht'
    · refine ⟨c, ((located_of_reachable (hs.step hstep)).prefix_ownTasks c).subset ?_⟩
      rw [hby]
      exact List.mem_append_right _ (List.mem_singleton_self t')
  · rw [hpushed]
    exact h

/-- No task is pushed twice. -/
theorem pushed_nodup (hd : d.Disciplined) (hs : d.system.Reachable s) :
    s.history.pushed.Nodup := by
  refine List.nodup_iff_count_le_one.mpr fun t => ?_
  by_cases ht : t ∈ s.history.pushed
  · rcases exists_mine hs ht with ⟨c, hc⟩
    have hcount : (s.history.pushed.filter (d.mine c)).count t = s.history.pushed.count t :=
      List.count_filter (decide_eq_true hc)
    rw [← hcount, filter_pushed hd hs c]
    refine List.nodup_iff_count_le_one.mp ?_ t
    exact (hd.each c).distinct.sublist ((located_of_reachable hs).prefix_ownTasks c).sublist
  · rw [List.count_eq_zero_of_not_mem ht]
    exact Nat.zero_le 1

/-! ## Where the tasks lead -/

/-- The tasks whose {lit}`private_data` a client has set. -/
def DispatchConfig.storedBy (d : DispatchConfig C N β υ) (c : C) (k : Client C) : List Nat :=
  match k.pc with
  | .addLock t _ | .push t _ => d.pushedBy c k ++ [t]
  | _ => d.pushedBy c k

omit [DecidableEq C] in
theorem DispatchConfig.pushedBy_subset (d : DispatchConfig C N β υ) (c : C) (k : Client C) :
    d.pushedBy c k ⊆ d.storedBy c k := by
  unfold DispatchConfig.storedBy
  split
  · exact List.subset_append_left _ _
  · exact List.subset_append_left _ _
  · exact List.Subset.refl _

/-- The client that has notified a worker has set what it had set. -/
theorem State.storedBy_added {site : AddSite C} (hk : (s.client c).pc = .notify site) :
    d.storedBy c ((s.added c site).client c) = d.storedBy c (s.client c) := by
  have hadded := State.pushedBy_added (d := d) hk
  cases site with
  | task counter => simpa [DispatchConfig.storedBy, State.added, hk] using hadded
  | member g i counter => simpa [DispatchConfig.storedBy, State.added, hk] using hadded

/-- A waitable task whose {lit}`private_data` was set leads to the counter of its call. -/
def DataSet (d : DispatchConfig C N β υ) (s : State C N β υ) : Prop :=
  ∀ c jp call t, (d.prog c)[jp]? = some call → call.createsCounter d.heap = true →
    t ∈ call.tasks d.heap → t ∈ d.storedBy c (s.client c) →
    (s.heap.task t).privateData = some (c, jp)

/-- A step of a client sets the {lit}`private_data` of one task of its call, or of none. -/
theorem ClientStep.storedBy_cases (hstep : ClientStep d s c s') (h : Located d s) :
    (∃ t call, (d.prog c)[(s.client c).ip]? = some call ∧ t ∈ call.tasks d.heap ∧
      d.storedBy c (s'.client c) = d.storedBy c (s.client c) ++ [t] ∧
      (∀ t', t' ≠ t → s'.heap.task t' = s.heap.task t') ∧
      (call.createsCounter d.heap = true →
        (s'.heap.task t).privateData = some (c, (s.client c).ip))) ∨
    (s'.heap = s.heap ∧ d.storedBy c (s'.client c) = d.storedBy c (s.client c)) := by
  have hat := h.client c
  have hby := hstep.pushedBy_cases h
  cases hstep with
  | store t site counter hk hcounter =>
      rw [hk] at hat
      rcases DispatchConfig.SiteAt.call hat with ⟨call, hcall, ht, hfor, -⟩
      refine Or.inl ⟨t, call, hcall, ht, ?_, fun t' ht' => ?_, fun hcreates => ?_⟩
      · simp [DispatchConfig.storedBy, DispatchConfig.pushedBy, hk]
      · simp [State.goto, State.storePrivateData, ht']
      · rw [hcounter, DispatchConfig.counterFor, if_pos hcreates] at hfor
        simp [State.goto, State.storePrivateData, hfor]
  | storeNone t site hk hcounter =>
      rw [hk] at hat
      rcases DispatchConfig.SiteAt.call hat with ⟨call, hcall, ht, hfor, -⟩
      refine Or.inl ⟨t, call, hcall, ht, ?_, fun _ _ => rfl, fun hcreates => ?_⟩
      · simp [DispatchConfig.storedBy, DispatchConfig.pushedBy, hk]
      · rw [hcounter, DispatchConfig.counterFor, if_pos hcreates] at hfor
        cases hfor
  | push t site hk =>
      rcases hby with ⟨t', hpushed, hby⟩ | ⟨hpushed, -⟩
      · have ht : [t'] = [t] := List.append_cancel_left (hpushed.symm.trans rfl)
        rw [ht] at hby
        refine Or.inr ⟨rfl, ?_⟩
        have hnew : d.storedBy c (Client.mk (s.client c).ip (.addUnlock site)) =
            d.pushedBy c (Client.mk (s.client c).ip (.addUnlock site)) := rfl
        simp only [State.client_goto, State.client_record, Function.update_self] at hby ⊢
        rw [hnew, hby]
        simp [DispatchConfig.storedBy, hk]
      · exact absurd hpushed (by simp [State.goto, State.record])
  | addLock t site hk hfree =>
      refine Or.inr ⟨rfl, ?_⟩
      simp [DispatchConfig.storedBy, DispatchConfig.pushedBy, hk]
  | notifyLost site hk _ =>
      exact Or.inr ⟨by cases site <;> rfl, State.storedBy_added hk⟩
  | _ =>
      have hk := (by assumption : (s.client c).pc = _)
      rcases hby with ⟨t, hpushed, -⟩ | ⟨-, hby⟩
      · exact absurd hpushed (by simp [State.goto, State.ret, State.record, State.setCounter,
          State.notifyWorkers])
      · refine Or.inr ⟨rfl, ?_⟩
        simpa [DispatchConfig.storedBy, hk] using hby

/-- A step of a client keeps what the tasks lead to. -/
theorem DataSet.client_step (h : DataSet d s) (hd : d.Disciplined) (hlocated : Located d s)
    (hstep : ClientStep d s c s') : DataSet d s' := by
  rcases hstep.storedBy_cases hlocated with
    ⟨t, call, hcall, ht, hstored, hother, hset⟩ | ⟨hheap, hstored⟩
  · intro c' jp call' t' hcall' hcreates ht' hmem
    by_cases htt : t' = t
    · subst htt
      cases hd.counter_unique hcall' ht' hcall ht
      cases Option.some.inj (hcall'.symm.trans hcall)
      exact hset hcreates
    · rw [hother t' htt]
      refine h c' jp call' t' hcall' hcreates ht' ?_
      by_cases hc : c' = c
      · subst hc
        rw [hstored, List.mem_append, List.mem_singleton] at hmem
        exact hmem.resolve_right htt
      · rwa [hstep.other hc] at hmem
  · intro c' jp call' t' hcall' hcreates ht' hmem
    rw [hheap]
    refine h c' jp call' t' hcall' hcreates ht' ?_
    by_cases hc : c' = c
    · subst hc
      rwa [hstored] at hmem
    · rwa [hstep.other hc] at hmem

omit [DecidableEq C] in
theorem ClientPc.WokenTo.storedBy_eq {k k' : Client C} (h : k.pc.WokenTo k'.pc)
    (hip : k'.ip = k.ip) : d.storedBy c k' = d.storedBy c k := by
  have hby := h.pushedBy_eq (d := d) (c := c) hip
  unfold DispatchConfig.storedBy
  rw [hby]
  rcases h with heq | ⟨i, hk, hk'⟩ | ⟨counter, ts, hk, hk'⟩
  · rw [heq]
  · rw [hk, hk']
  · rw [hk, hk']

theorem dataSet_of_reachable (hd : d.Disciplined) (hs : d.system.Reachable s) :
    DataSet d s := by
  have hinit : DataSet d d.system.init := by
    intro c jp call t _ _ _ hmem
    cases hmem
  have hframe : ∀ {s s' : State C N β υ}, DataSet d s → s'.heap = s.heap →
      (∀ c, d.storedBy c (s'.client c) = d.storedBy c (s.client c)) → DataSet d s' := by
    intro s s' h hheap hstored c jp call t hcall hcreates ht hmem
    rw [hheap]
    exact h c jp call t hcall hcreates ht (hstored c ▸ hmem)
  refine hs.invariant hinit fun s l s' hs h hstep => ?_
  rcases step_cases hstep with ⟨c, -, hc⟩ | ⟨i, -, hi⟩ | ⟨c, i, site, -, hk, hw, rfl⟩ |
    ⟨i, -, hw, rfl⟩ | ⟨c, counter, ts, -, hk, rfl⟩ | ⟨c, i, -, hk, rfl⟩
  · exact h.client_step hd (located_of_reachable hs) hc
  · refine hframe h (by cases hi <;> rfl) fun c => ?_
    rcases hi.client_wokenTo c with ⟨hip, hwoken⟩
    exact hwoken.storedBy_eq hip
  · refine hframe h (by cases site <;> rfl) fun c' => ?_
    by_cases hc' : c' = c
    · subst hc'
      exact State.storedBy_added (s := s.wakeWorker i) hk
    · rw [State.added_other _ site hc']
      rfl
  · exact hframe h rfl fun _ => rfl
  · refine hframe h rfl fun c' => ?_
    exact (State.goto_wokenTo (Or.inr (Or.inr ⟨counter, ts, hk, rfl⟩)) c').storedBy_eq
      (s.ip_goto c _ c')
  · refine hframe h rfl fun c' => ?_
    exact (State.goto_wokenTo (Or.inr (Or.inl ⟨i, hk, rfl⟩)) c').storedBy_eq
      (s.ip_goto c _ c')

end Positions

end Host
end LibDispatch
