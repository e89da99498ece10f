import LibDispatch.Metal.WaitDone

/-!
# Lifetimes of tasks and event counters

Tasks and event counters have no reference count: they change hands between the client,
the ring buffer, the workers and the client again, and whoever is last frees them.  This
file says which of them the next statement of a thread reads, writes or frees, and that
none of these was freed before.

Main results:

- Theorem {lit}`Waits.touchedTasks` and {lit}`Waits.touchedCounters`: no thread touches a task
  or a counter that was freed.
- Theorem {lit}`task_lifetimes`: single ownership, exactly one call and at most one release of
  every task, for the threads over the queue of the source.
-/

namespace LibDispatch
namespace Metal

variable {N : Nat} {β υ : Type}

/-! ## Threads that pitch in -/

/-- The client is in the part of a call that exists only with {lit}`use_callers_thread`. -/
def Local.pitching : Local Unit → Bool
  | .client _ (.addScan _ _ _ _) | .client _ (.pitch _ _ _) => true
  | _ => false

/-! ## What a statement touches -/

/-- The statement reads, writes or frees the task. -/
def RunPc.touchesTask : RunPc Unit → Bool
  | .perform | .running | .testWaitable | .readCounter | .delete => true
  | _ => false

/-- The tasks that the next statement of a thread reads, writes or frees. -/
def DispatchConfig.touchedTasks (d : DispatchConfig Unit N β υ) : Local Unit → List Nat
  | .worker (.run t at_) => if at_.touchesTask = true then [t] else []
  | .worker _ => []
  | .client ip .ready =>
      match (d.prog ())[ip]? with
      | some (.taskAdd t) | some (.taskWait t) => [t]
      | some (.groupWait g) => (d.heap.group g).tasks.head?.toList
      | _ => []
  | .client _ (.groupLoop g i _) => (d.heap.group g).tasks[i]?.toList
  | .client _ (.pitch t _ at_) => if at_.touchesTask = true then [t] else []
  | .client _ (.deleteTasks ts) => ts.head?.toList
  | .client _ _ => []

/-- The counters that the next statement of a thread creates, reads, writes or frees. -/
def DispatchConfig.touchedCounters (d : DispatchConfig Unit N β υ) :
    Local Unit → List (Unit × Nat)
  | .worker (.run _ at_) => at_.counter.toList
  | .worker _ => []
  | .client ip .ready =>
      match (d.prog ())[ip]? with
      | some call => if d.createsCounter call = true then [((), ip)] else []
      | none => []
  | .client _ (.pitch _ _ at_) => at_.counter.toList
  | .client _ (.checkToken c _) | .client _ (.deleteCounter c _) => [c]
  | .client _ _ => []

section Invariant

variable {d : DispatchConfig Unit N β υ}
  {a a' : AtomicState (Unit ⊕ Fin N) Nat (Local Unit) (Env Unit N β υ)} {u : Unit ⊕ Fin N}
  {t w jp ip : Nat} {ts : List Nat} {c : Unit × Nat} {call : DispatchCall} {at_ : RunPc Unit}

theorem AddSite.pitching_next (site : AddSite Unit) : (site.next ip).pitching = false := by
  cases site <;> rfl

theorem DispatchConfig.pitching_addEntry (hmode : d.useCallersThread = false)
    (site : AddSite Unit) : (Local.client ip (d.addEntry t site)).pitching = false := by
  simp [DispatchConfig.addEntry, hmode, Local.pitching]

/-- In the default mode a client runs no task. -/
theorem not_pitching_of_reachable (hmode : d.useCallersThread = false)
    (ha : d.atomicThreads.Reachable a) : (a.thread (.inl ())).pitching = false := by
  refine ha.invariant (P := fun a => (a.thread (.inl ())).pitching = false) rfl ?_
  intro a u a' hr h hstep
  have hno : ∀ (client : Unit) ip pc, a.thread (.inl client) = .client ip pc →
      (Local.client ip pc).pitching = false := by
    intro client ip pc hk
    exact hk ▸ h
  cases dispatchStep_of_step hstep with
  | addRead _ ip t site i busy _ hk => cases hno _ _ _ hk
  | addPitch _ ip t site i busy _ hk _ => cases hno _ _ _ hk
  | addSend _ ip t site i busy _ hk _ => cases hno _ _ _ hk
  | send _ ip t site hk _ =>
      simp only [Function.update_self]
      exact AddSite.pitching_next site
  | taskAddWaitable _ ip t hk _ _ =>
      simp only [Function.update_self]
      exact DispatchConfig.pitching_addEntry hmode _
  | taskAddPlain _ ip t hk _ _ =>
      simp only [Function.update_self]
      exact DispatchConfig.pitching_addEntry hmode _
  | groupStore _ ip g i t counter hk _ =>
      simp only [Function.update_self]
      exact DispatchConfig.pitching_addEntry hmode _
  | freeObject _ ip object k hk hnext =>
      simp only [Function.update_self]
      rcases hnext with rfl | ⟨object', rfl⟩ <;> rfl
  | run _ t at_ env' r hrun _ =>
      by_cases hu : Sum.inl () = u
      · subst hu
        cases hk : a.thread (.inl ()) with
        | client ip pc =>
            have hpc := hno _ _ _ hk
            rw [hk] at hrun
            cases pc with
            | pitch t' site at' => cases hpc
            | _ => cases hrun
        | worker pc =>
            have hc := (tracked_of_reachable hr).client ()
            rw [hk] at hc
            cases hc
      · simpa [hu] using h
  | receive i t rest hk _ => simpa using h
  | start i hk => simpa using h
  | setBusy i t hk => simpa using h
  | setReady i hk => simpa using h
  | freeCend i hk => simpa using h
  | _ =>
      simp only [Function.update_self]
      rfl

/-- In the default mode a client holds no task. -/
theorem not_held_of_reachable (hmode : d.useCallersThread = false)
    (ha : d.atomicThreads.Reachable a) (client : Unit) (t : Nat) (at_ : RunPc Unit) :
    (a.thread (.inl client)).held ≠ some (t, at_) := by
  intro hheld
  have hno := not_pitching_of_reachable hmode ha
  have hc := (tracked_of_reachable ha).client client
  cases hk : a.thread (.inl client) with
  | worker pc =>
      rw [hk] at hc
      cases hc
  | client ip pc =>
      rw [show a.thread (.inl ()) = .client ip pc from hk] at hno
      rw [hk] at hheld
      cases pc with
      | pitch t' site at' => cases hno
      | _ => cases hheld

/-! ## What was freed -/

/-- A task that was awaited is waitable. -/
theorem DispatchConfig.Disciplined.waitable_of_awaits (hd : d.Disciplined)
    (hflags : d.FlagsAgree) (h : d.Awaits w jp ts) (ht : t ∈ ts) :
    (d.heap.task t).waitable = true := by
  rcases hd.awaits_call h with ⟨call, hcall, rfl, hcreates, -⟩
  exact (DispatchConfig.createsCounter_iff hflags hcall ht).mp hcreates

/-- Workers free only tasks that are not waitable and finished. -/
theorem Ledger.of_runFreed (h : Ledger d a) (ht : t ∈ a.env.history.runFreed) :
    (d.heap.task t).waitable = false ∧ t ∈ a.env.history.finished := by
  have hpos := List.count_pos_iff.mpr ht
  rw [h.runFreed t] at hpos
  by_cases hw : (d.heap.task t).waitable = true
  · rw [if_pos hw] at hpos
    exact absurd hpos (Nat.lt_irrefl 0)
  · rw [if_neg hw] at hpos
    exact ⟨by simpa using hw, List.count_pos_iff.mp hpos⟩

/-- Only tasks that were added are finished. -/
theorem Ledger.mem_added_of_finished (h : Ledger d a) (ht : t ∈ a.env.history.finished) :
    t ∈ d.added () (a.thread (.inl ())) := by
  have hpos := List.count_pos_iff.mpr ht
  have hsum := h.added t
  exact List.count_pos_iff.mp (by omega)

/-- The client frees what it has waited for. -/
theorem Waits.of_taskFreed (h : Waits d a) (ht : t ∈ a.env.history.waitFreed) :
    ∃ w jp ts, d.Awaits w jp ts ∧ t ∈ ts ∧ (a.thread (.inl ())).stage w ≠ .waiting := by
  rcases (h.taskFreed t).mp ht with ⟨w, jp, ts, rest, hawaits, hmem, hstage, -⟩
  exact ⟨w, jp, ts, hawaits, hmem, by simp [hstage]⟩

/-- A task of a call that is still to be made, or is being made, was not freed by a wait. -/
theorem Waits.notMem_taskFreed (h : Waits d a) (hd : d.Disciplined) {pc : ClientPc Unit}
    (hk : a.thread (.inl ()) = .client ip pc) (hcall : (d.prog ())[ip]? = some call)
    (ht : t ∈ call.tasks d.heap) : t ∉ a.env.history.waitFreed := by
  intro hfreed
  rcases h.of_taskFreed hfreed with ⟨w, jp, ts, hawaits, hmem, hstage⟩
  rcases hd.awaits_call hawaits with ⟨call', hcall', rfl, -⟩
  rw [hk] at hstage
  have hw := Local.le_of_stage hstage
  have hlt := hd.awaits_lt hawaits
  have heq := hd.unique hcall' hcall hmem ht
  omega

/-- A task that is awaited now was not freed: it is not for the worker to free it, and
other waits are for other tasks. -/
theorem Waits.notFreed_of_awaits (h : Waits d a) (hledger : Ledger d a) (hd : d.Disciplined)
    (hflags : d.FlagsAgree) {pc : ClientPc Unit} (hk : a.thread (.inl ()) = .client ip pc)
    (hawaits : d.Awaits ip jp ts) (ht : t ∈ ts)
    (hstage : ∀ rest, pc.stage = .deleting rest → t ∈ rest) :
    t ∉ a.env.history.runFreed ∧ t ∉ a.env.history.waitFreed := by
  constructor
  · intro hfreed
    have hplain := (hledger.of_runFreed hfreed).1
    rw [hd.waitable_of_awaits hflags hawaits ht] at hplain
    cases hplain
  · intro hfreed
    rcases (h.taskFreed t).mp hfreed with ⟨w, jp', ts', rest, hawaits', ht', hrest, hnot⟩
    rw [(hd.awaits_unique hawaits' hawaits ht' ht).1, hk, Local.stage_self] at hrest
    exact hnot (hstage rest hrest)

/-- A task that a thread runs was not freed as long as it has not signalled. -/
theorem Waits.notFreed_of_run (h : Waits d a) (hcounters : Counters d a)
    (hledger : Ledger d a) (htracked : Tracked d a) (hd : d.Disciplined)
    (hrun : (a.thread u).runAt = some (t, at_)) (hat : at_.signalled = false) :
    t ∉ a.env.history.runFreed ∧ t ∉ a.env.history.waitFreed := by
  constructor
  · intro hfreed
    exact (hledger.held htracked hd (Local.held_of_runAt hrun)).2.2.2
      (hledger.of_runFreed hfreed).2
  · intro hfreed
    rcases h.of_taskFreed hfreed with ⟨w, jp, ts, hawaits, ht, hstage⟩
    exact hledger.notMem_signalled htracked hd hrun hat
      ((h.signalled hcounters hd hawaits hstage).1 t ht)

/-! ## No use after free -/

/-- The next statement of a thread touches no task that was freed. -/
theorem Waits.touchedTasks (h : Waits d a) (hcounters : Counters d a) (hledger : Ledger d a)
    (htracked : Tracked d a) (hd : d.Disciplined) (hflags : d.FlagsAgree)
    (ht : t ∈ d.touchedTasks (a.thread u)) :
    t ∉ a.env.history.runFreed ∧ t ∉ a.env.history.waitFreed := by
  have hrunning : ∀ t' at_, (a.thread u).runAt = some (t', at_) →
      t ∈ (if at_.touchesTask = true then [t'] else []) →
      t ∉ a.env.history.runFreed ∧ t ∉ a.env.history.waitFreed := by
    intro t' at_ hrun hmem
    by_cases hat : at_.touchesTask = true
    · rw [if_pos hat, List.mem_singleton] at hmem
      subst hmem
      refine h.notFreed_of_run hcounters hledger htracked hd hrun ?_
      cases at_ <;> first | rfl | cases hat
    · rw [if_neg hat] at hmem
      cases hmem
  cases u with
  | inr i =>
      cases hk : a.thread (.inr i) with
      | client ip pc =>
          rcases htracked.worker i with ⟨pc', hpc⟩
          rw [hk] at hpc
          cases hpc
      | worker pc =>
          rw [hk] at ht
          cases pc with
          | run t' at_ => exact hrunning t' at_ (by rw [hk]; rfl) ht
          | _ => cases ht
  | inl client =>
      have hc := htracked.client ()
      cases hk : a.thread (.inl ()) with
      | worker pc =>
          rw [hk] at hc
          cases hc
      | client ip pc =>
          rw [hk] at hc
          rw [show a.thread (.inl client) = .client ip pc from hk] at ht
          -- a task of the current call that is not added yet
          have hfresh : ∀ call, (d.prog ())[ip]? = some call → t ∈ call.tasks d.heap →
              t ∉ d.added () (a.thread (.inl ())) →
              t ∉ a.env.history.runFreed ∧ t ∉ a.env.history.waitFreed := by
            intro call hcall hmem hadded
            exact ⟨fun hfreed => hadded
              (hledger.mem_added_of_finished (hledger.of_runFreed hfreed).2),
              h.notMem_taskFreed hd hk hcall hmem⟩
          cases pc with
          | ready =>
              simp only [DispatchConfig.touchedTasks] at ht
              cases hcall : (d.prog ())[ip]? with
              | none =>
                  rw [hcall] at ht
                  cases ht
              | some call =>
                  rw [hcall] at ht
                  cases call with
                  | taskAdd t' =>
                      rw [List.mem_singleton] at ht
                      subst ht
                      refine hfresh _ hcall (List.mem_singleton_self t) ?_
                      rw [hk]
                      intro hadded
                      have hsub : t ∈ d.submitted () ip := by
                        simpa [DispatchConfig.added, ClientPc.added] using hadded
                      rcases DispatchConfig.mem_submitted.mp hsub with
                        ⟨jp, hlt, call, hjp, hmem⟩
                      have heq := hd.unique hjp hcall hmem (List.mem_singleton_self t)
                      omega
                  | taskWait t' =>
                      rw [List.mem_singleton] at ht
                      subst ht
                      rcases (hd.taskWait ip t hcall).2 with ⟨jp, -, hjp⟩
                      exact h.notFreed_of_awaits hledger hd hflags hk
                        (Or.inl ⟨t, hcall, hjp, rfl⟩) (List.mem_singleton_self t)
                        (fun _ hrest => by cases hrest)
                  | groupWait g =>
                      rcases (hd.groupWait ip g hcall).2.2 with ⟨jp, -, hjp⟩
                      have hmem : t ∈ (d.heap.group g).tasks :=
                        List.mem_of_mem_head? (by simpa using ht)
                      exact h.notFreed_of_awaits hledger hd hflags hk
                        (Or.inr ⟨g, hcall, hjp, rfl⟩) hmem (fun _ hrest => by cases hrest)
                  | _ => cases ht
          | groupLoop g i counter =>
              rcases hc with ⟨hcall, hcounter, -⟩
              have htask : (d.heap.group g).tasks[i]? = some t := by
                simpa [DispatchConfig.touchedTasks] using ht
              refine hfresh _ hcall (List.mem_of_getElem? htask) ?_
              -- the tasks up to this one are distinct
              have hsite : d.SiteAt () ip t (.member g i counter) := ⟨hcall, hcounter, htask⟩
              have hnodup := hd.distinct.sublist hsite.prefix_site.sublist
              rw [← List.append_assoc] at hnodup
              rw [hk]
              intro hadded
              exact (List.nodup_append.mp hnodup).2.2 t hadded t
                (List.mem_singleton_self t) rfl
          | pitch t' site at_ =>
              refine hrunning t' at_ ?_ ht
              rw [show a.thread (.inl client) = _ from hk]
              rfl
          | deleteTasks ts =>
              have hposition := h.position
              rw [hk] at hposition
              rcases hposition with ⟨jp, done, hawaits⟩
              have hmem : t ∈ ts := List.mem_of_mem_head? (by
                simpa [DispatchConfig.touchedTasks] using ht)
              refine h.notFreed_of_awaits hledger hd hflags hk hawaits
                (List.mem_append_right _ hmem) fun rest hrest => ?_
              cases hrest
              exact hmem
          | _ => cases ht

/-- The next statement of a thread touches no counter that was freed. -/
theorem Waits.touchedCounters (h : Waits d a) (hcounters : Counters d a)
    (hledger : Ledger d a) (htracked : Tracked d a) (hd : d.Disciplined)
    (hc : c ∈ d.touchedCounters (a.thread u)) : c ∉ a.env.history.counterFreed := by
  have hrunning : ∀ t at_, (a.thread u).runAt = some (t, at_) → c ∈ at_.counter.toList →
      c ∉ a.env.history.counterFreed := by
    intro t at_ hrun hmem hfreed
    have hsig : (a.thread u).signalling = some (t, c, at_) :=
      Local.signalling_eq_some.mpr ⟨hrun, by simpa using hmem⟩
    rcases (h.counterFreed c).mp hfreed with ⟨w, jp, ts, rest, rfl, hawaits, hstage⟩
    rcases h.signalled hcounters hd hawaits (by simp [hstage]) with ⟨hsignalled, hsending⟩
    rcases hd.awaits_call hawaits with ⟨call, hcall, rfl, hcreates, -⟩
    rcases hcounters.refs u t _ at_ hsig with ⟨call', hcall', -, ht⟩
    rw [hcall] at hcall'
    cases hcall'
    cases hat : at_.signalled with
    | false => exact hledger.notMem_signalled htracked hd hrun hat (hsignalled t ht)
    | true =>
        have hone := hsending u
        rw [Local.sending_eq hsig] at hone
        cases at_ with
        | signalUnlock c' signal =>
            cases signal with
            | true => simp [RunPc.last] at hone
            | false =>
                -- another task would have to signal
                have hcc : ((), jp) = c' := by simpa [RunPc.counter] using hmem
                subst hcc
                have hpos := hcounters.notLast u t _ hsig
                rw [hcounters.count jp call hcall hcreates
                  (hcounters.created_of_ref hledger htracked hd hsig)] at hpos
                rcases List.countP_pos_iff.mp hpos with ⟨t', ht', hnot⟩
                exact of_decide_eq_true hnot (hsignalled t' ht')
        | sendToken c' => simp [RunPc.last] at hone
        | _ => cases hat
  cases u with
  | inr i =>
      cases hk : a.thread (.inr i) with
      | client ip pc =>
          rcases htracked.worker i with ⟨pc', hpc⟩
          rw [hk] at hpc
          cases hpc
      | worker pc =>
          rw [hk] at hc
          cases pc with
          | run t' at_ => exact hrunning t' at_ (by rw [hk]; rfl) hc
          | _ => cases hc
  | inl client =>
      cases hk : a.thread (.inl client) with
      | worker pc =>
          have hclient := htracked.client client
          rw [hk] at hclient
          cases hclient
      | client ip pc =>
          rw [hk] at hc
          have hposition := h.position
          rw [show a.thread (.inl ()) = .client ip pc from hk] at hposition
          -- a counter of the current wait is not deleted before its last statement
          have hawaited : (∃ jp ts, c = ((), jp) ∧ d.Awaits ip jp ts) →
              (∀ rest, pc.stage ≠ .deleting rest) → c ∉ a.env.history.counterFreed := by
            rintro ⟨jp, ts, rfl, hawaits⟩ hpc hfreed
            rcases (h.counterFreed _).mp hfreed with ⟨w, jp', ts', rest, heq, hawaits', hstage⟩
            cases heq
            rw [hd.awaits_unique_wait hawaits' hawaits,
              show a.thread (.inl ()) = .client ip pc from hk, Local.stage_self] at hstage
            exact hpc rest hstage
          cases pc with
          | ready =>
              intro hfreed
              rcases (h.counterFreed c).mp hfreed with
                ⟨w, jp, ts, rest, rfl, hawaits, hstage⟩
              rw [show a.thread (.inl ()) = .client ip .ready from hk] at hstage
              have hbegun : (Local.client ip .ready).stage w ≠ .waiting := by simp [hstage]
              have hle := Local.le_of_stage hbegun
              have hlt := hd.awaits_lt hawaits
              simp only [DispatchConfig.touchedCounters] at hc
              split at hc
              · split at hc
                · have heq : jp = ip := by simpa using hc
                  omega
                · cases hc
              · cases hc
          | pitch t' site at_ => exact hrunning t' at_ (by rw [hk]; rfl) hc
          | checkToken c' ts =>
              rcases hposition with ⟨jp, rfl, hawaits⟩
              exact hawaited ⟨jp, ts, List.mem_singleton.mp hc, hawaits⟩ (by simp [ClientPc.stage])
          | deleteCounter c' ts =>
              rcases hposition with ⟨jp, rfl, hawaits⟩
              exact hawaited ⟨jp, ts, List.mem_singleton.mp hc, hawaits⟩ (by simp [ClientPc.stage])
          | _ => cases hc

/-! ## Exactly once -/

/-- A task is called at most once, and once when it is finished. -/
theorem Ledger.called_once (h : Ledger d a) (htracked : Tracked d a) (hd : d.Disciplined)
    (t : Nat) : a.env.history.called.count t ≤ 1 ∧
      (t ∈ a.env.history.finished → a.env.history.called.count t = 1) := by
  have hsum := h.added t
  have hle := htracked.count_added_le hd t
  have hcalled := h.called t
  have hweight : tally (Local.weight RunPc.called t) a.thread ≤
      tally (Local.holding t) a.thread :=
    tally_le_tally fun v => Local.weight_le_holding _ t (a.thread v)
  refine ⟨by omega, fun ht => ?_⟩
  have hpos := List.count_pos_iff.mpr ht
  omega

/-- A task is in exactly one place. -/
theorem Ledger.place (h : Ledger d a) (htracked : Tracked d a) (hd : d.Disciplined)
    (ht : t ∈ d.added () (a.thread (.inl ()))) :
    (a.fifo.count t = 1 ∧ (∀ u at_, (a.thread u).held ≠ some (t, at_)) ∧
      t ∉ a.env.history.finished) ∨
    (t ∉ a.fifo ∧ (∃! u, ∃ at_, (a.thread u).held = some (t, at_)) ∧
      t ∉ a.env.history.finished) ∨
    (t ∉ a.fifo ∧ (∀ u at_, (a.thread u).held ≠ some (t, at_)) ∧
      a.env.history.finished.count t = 1) := by
  have hsum := h.added t
  have hone : (d.added () (a.thread (.inl ()))).count t = 1 :=
    Nat.le_antisymm (htracked.count_added_le hd t) (List.count_pos_iff.mpr ht)
  by_cases hheld : ∃ u at_, (a.thread u).held = some (t, at_)
  · rcases hheld with ⟨u, at_, hu⟩
    rcases h.held htracked hd hu with ⟨-, hfifo, -, hfinished⟩
    refine Or.inr (Or.inl ⟨hfifo, ⟨u, ⟨at_, hu⟩, ?_⟩, hfinished⟩)
    rintro v ⟨at', hv⟩
    exact h.held_unique htracked hd hv hu
  · have hnone : ∀ u at_, (a.thread u).held ≠ some (t, at_) :=
      fun u at_ hu => hheld ⟨u, at_, hu⟩
    have hzero : tally (Local.holding t) a.thread = 0 := by
      rw [tally_eq_zero_iff]
      intro u
      by_contra hpos
      rcases Local.holding_pos_iff.mp (Nat.pos_of_ne_zero hpos) with ⟨at_, hu⟩
      exact hnone u at_ hu
    by_cases hfifo : t ∈ a.fifo
    · have hpos := List.count_pos_iff.mpr hfifo
      exact Or.inl ⟨by omega, hnone, List.count_eq_zero.mp (by omega)⟩
    · have hfifo' := List.count_eq_zero.mpr hfifo
      exact Or.inr (Or.inr ⟨hfifo, hnone, by omega⟩)

/-- A task is freed at most once, by the worker if it is not waitable and by the wait if
it is, and after its function has returned. -/
theorem Waits.freed (h : Waits d a) (hcounters : Counters d a) (hledger : Ledger d a)
    (htracked : Tracked d a) (hd : d.Disciplined) (hflags : d.FlagsAgree) :
    (a.env.history.runFreed ++ a.env.history.waitFreed).Nodup ∧
    (∀ t ∈ a.env.history.runFreed, (d.heap.task t).waitable = false ∧
      t ∈ a.env.history.returned) ∧
    ∀ t ∈ a.env.history.waitFreed, (d.heap.task t).waitable = true ∧
      t ∈ a.env.history.returned := by
  have hrun : ∀ t ∈ a.env.history.runFreed, (d.heap.task t).waitable = false ∧
      t ∈ a.env.history.returned := by
    intro t ht
    rcases hledger.of_runFreed ht with ⟨hplain, hfinished⟩
    have hpos := List.count_pos_iff.mpr hfinished
    have hreturned := hledger.returned t
    exact ⟨hplain, List.count_pos_iff.mp (by omega)⟩
  have hwait : ∀ t ∈ a.env.history.waitFreed, (d.heap.task t).waitable = true ∧
      t ∈ a.env.history.returned := by
    intro t ht
    rcases h.of_taskFreed ht with ⟨w, jp, ts, hawaits, hmem, hstage⟩
    exact ⟨hd.waitable_of_awaits hflags hawaits hmem,
      h.returned hcounters hledger hd hawaits hstage t hmem⟩
  refine ⟨List.nodup_append.mpr ⟨?_, h.taskNodup, ?_⟩, hrun, hwait⟩
  · rw [List.nodup_iff_count_le_one]
    intro t
    have hsum := hledger.added t
    have hle := htracked.count_added_le hd t
    rw [hledger.runFreed t]
    split <;> omega
  · rintro t ht t' ht' rfl
    have hplain := (hrun t ht).1
    rw [(hwait t ht').1] at hplain
    cases hplain

end Invariant

/-! ## Lifetimes over the queue of the source -/

/-- The worker holds the task: it has taken it from the queue and {lit}`run_task` has not
returned. -/
def DispatchConfig.Holds (d : DispatchConfig Unit N β υ)
    (s : State (Unit ⊕ Fin N) (Option (Fin N)) Nat (Local Unit) (Env Unit N β υ)) (i : Fin N)
    (t : Nat) : Prop :=
  ∃ at_, (d.view s (.inr i)).held = some (t, at_)

/-- Ownership and release of the tasks and counters in a state. -/
structure Lifetimes (d : DispatchConfig Unit N β υ)
    (s : State (Unit ⊕ Fin N) (Option (Fin N)) Nat (Local Unit) (Env Unit N β υ)) : Prop where
  /-- Every added task is either queued, or held by exactly one worker, or finished. -/
  place : ∃ fifo, Contents s fifo ∧ ∀ t ∈ d.added () (d.view s (.inl ())),
    (fifo.count t = 1 ∧ (∀ i, ¬ d.Holds s i t) ∧ t ∉ s.env.history.finished) ∨
    (t ∉ fifo ∧ (∃! i, d.Holds s i t) ∧ t ∉ s.env.history.finished) ∨
    (t ∉ fifo ∧ (∀ i, ¬ d.Holds s i t) ∧ s.env.history.finished.count t = 1)
  /-- Its function is called at most once, and once when it is finished. -/
  called : ∀ t, s.env.history.called.count t ≤ 1 ∧
    (t ∈ s.env.history.finished → s.env.history.called.count t = 1)
  /-- It is freed at most once. -/
  freed : (s.env.history.runFreed ++ s.env.history.waitFreed).Nodup
  /-- A worker frees it only if it is not waitable and its function has returned. -/
  runFreed : ∀ t ∈ s.env.history.runFreed, (d.heap.task t).waitable = false ∧
    t ∈ s.env.history.returned
  /-- A wait frees it only if it is waitable and its function has returned. -/
  waitFreed : ∀ t ∈ s.env.history.waitFreed, (d.heap.task t).waitable = true ∧
    t ∈ s.env.history.returned
  /-- A counter is freed at most once, and only by the wait for its call. -/
  counterFreed : s.env.history.counterFreed.Nodup ∧ ∀ c ∈ s.env.history.counterFreed,
    ∃ w jp ts rest, c = ((), jp) ∧ d.Awaits w jp ts ∧
      (d.view s (.inl ())).stage w = .deleting rest
  /-- No statement touches a task that was freed. -/
  tasks : ∀ u, ∀ t ∈ d.touchedTasks (d.view s u),
    t ∉ s.env.history.runFreed ∧ t ∉ s.env.history.waitFreed
  /-- No statement touches a counter that was freed. -/
  counters : ∀ u, ∀ c ∈ d.touchedCounters (d.view s u), c ∉ s.env.history.counterFreed

/-- Every task has one owner at a time, is run once and freed at most once, and nothing is
used after it was freed, in every interleaving of one client that follows the rules and
any number of workers over the queue of the source. -/
theorem task_lifetimes (d : DispatchConfig Unit N β υ) (handshake : Bool)
    {ts gs as : List Nat} (hbuilt : Built d.heap ts gs as)
    (hgroups : ∀ g, .groupAdd g ∈ d.prog () → g ∈ gs) (hd : d.Disciplined)
    (hdelete : .delete ∉ d.prog ()) (hmode : d.useCallersThread = false)
    {s : State (Unit ⊕ Fin N) (Option (Fin N)) Nat (Local Unit) (Env Unit N β υ)}
    (hs : (d.threads handshake).Reachable s) : Lifetimes d s := by
  have hflags := DispatchConfig.flagsAgree_of_built hbuilt hgroups
  rcases d.atomic_of_reachable (fun _ => hdelete) hs with ⟨a, ha, href⟩
  have htracked := tracked_of_reachable ha
  have hledger := ledger_of_reachable ha
  have hcounters := counters_of_reachable hd hflags ha
  have hwaits := waits_of_reachable hd hflags ha
  have hview : d.view s = a.thread := d.view_eq href
  have hfreed := hwaits.freed hcounters hledger htracked hd hflags
  constructor
  · refine ⟨a.fifo, href.contents, fun t ht => ?_⟩
    rw [hview] at ht
    simp only [DispatchConfig.Holds, hview, ← href.env, not_exists]
    rcases hledger.place htracked hd ht with
      ⟨hfifo, hnone, hfinished⟩ | ⟨hfifo, ⟨u, ⟨at_, hu⟩, hunique⟩, hfinished⟩ |
      ⟨hfifo, hnone, hfinished⟩
    · exact Or.inl ⟨hfifo, fun i => hnone (.inr i), hfinished⟩
    · cases u with
      | inl client => exact absurd hu (not_held_of_reachable hmode ha client t at_)
      | inr i =>
          refine Or.inr (Or.inl ⟨hfifo, ⟨i, ⟨at_, hu⟩, ?_⟩, hfinished⟩)
          intro j hj
          exact Sum.inr.inj (hunique (.inr j) hj)
    · exact Or.inr (Or.inr ⟨hfifo, fun i => hnone (.inr i), hfinished⟩)
  · rw [← href.env]
    exact hledger.called_once htracked hd
  · rw [← href.env]
    exact hfreed.1
  · rw [← href.env]
    exact hfreed.2.1
  · rw [← href.env]
    exact hfreed.2.2
  · rw [← href.env, hview]
    exact ⟨hwaits.counterNodup, fun c => (hwaits.counterFreed c).mp⟩
  · rw [← href.env, hview]
    exact fun u t => hwaits.touchedTasks hcounters hledger htracked hd hflags
  · rw [← href.env, hview]
    exact fun u c => hwaits.touchedCounters hcounters hledger htracked hd

/-- The worker is about to signal for the first task of the group. -/
theorem twoTasks_run_half : ((twoTasks.threads true).run (twoTasks.threads true).init
    (twoTasksSchedule.take 42)).isSome = true := by
  decide +kernel

/-- Nothing is lost or freed in that state. -/
theorem task_lifetimes_twoTasks :
    Lifetimes twoTasks (((twoTasks.threads true).run (twoTasks.threads true).init
      (twoTasksSchedule.take 42)).get twoTasks_run_half) := by
  have hs := (twoTasks.threads true).reachable_get_run _ twoTasks_run_half
  exact task_lifetimes twoTasks true (twoFunctionsHeap_built _) groupCalls_groups
    twoTasks_disciplined (by decide) rfl hs

end Metal
end LibDispatch
