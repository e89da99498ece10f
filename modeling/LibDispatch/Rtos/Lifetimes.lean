import LibDispatch.Rtos.Counters
import LibDispatch.Rtos.Cycles

/-!
# Waits and lifetimes on FreeRTOS

A wait for a waitable task or group returns only when the functions of all its tasks have
returned, whatever {lit}`dispatch_queue_wait` does.  It then deletes the counter, the semaphore
and the tasks, which nobody else is going to touch: the worker that gives the semaphore does
nothing with the counter or the task afterwards.

Main results:

- Theorem {lit}`rtos_wait_done`: what a wait that has returned has waited for and deleted.
- Theorem {lit}`rtos_lifetimes`: nothing is deleted twice or touched after it was deleted.
-/

namespace LibDispatch
namespace Rtos

variable {N : Nat} {β υ : Type}

/-! ## What a statement touches -/

/-- The tasks that the next statement of a thread reads, writes or frees. -/
def DispatchConfig.touchedTasks (d : DispatchConfig N β υ) (s : State N β υ) :
    Party N → List Nat
  | .client =>
      match s.client with
      | .ready =>
          match d.prog[s.ip]? with
          | some (.taskAdd t) | some (.taskWait t) => [t]
          | some (.groupWait g) => (d.heap.group g).tasks.head?.toList
          | _ => []
      | .groupLoop g i _ => (d.heap.group g).tasks[i]?.toList
      | .deleteTasks ts => ts.head?.toList
      | _ => []
  | .worker i =>
      match s.worker i with
      | .perform t | .running t | .testWaitable t | .readCounter t | .delete t => [t]
      | _ => []

/-- The counters that the next statement of a thread creates, reads, writes or frees. -/
def DispatchConfig.touchedCounters (d : DispatchConfig N β υ) (s : State N β υ) :
    Party N → List Nat
  | .client =>
      match s.client with
      | .ready =>
          match d.prog[s.ip]? with
          | some call => if call.createsCounter d.heap = true then [s.ip] else []
          | none => []
      | .takeSemaphore c _ | .deleteSemaphore c _ | .freeCounter c _ => [c]
      | _ => []
  | .worker i =>
      match s.worker i with
      | .decrement c | .give c => [c]
      | _ => []

/-- The semaphores that the next statement of a thread takes, gives or deletes. -/
def touchedSemaphores (s : State N β υ) : Party N → List Nat
  | .client =>
      match s.client with
      | .takeSemaphore c _ | .deleteSemaphore c _ => [c]
      | _ => []
  | .worker i =>
      match s.worker i with
      | .give c => [c]
      | _ => []

/-- The function of the task runs. -/
def WorkerPc.runs (t : Nat) : WorkerPc → Nat
  | .running t' => if t' = t then 1 else 0
  | _ => 0

section Invariant

variable {d : DispatchConfig N β υ} {s : State N β υ} {i : Fin N} {t c jp w : Nat}
  {ts : List Nat}

/-- A task was called as often as it has returned or runs. -/
theorem called_of_reachable (hs : d.system.Reachable s) (t : Nat) :
    s.history.called.count t =
      s.history.returned.count t + tally (WorkerPc.runs t) s.worker := by
  refine hs.invariant (P := fun s => s.history.called.count t =
    s.history.returned.count t + tally (WorkerPc.runs t) s.worker) ?_ ?_
  · have hzero : tally (WorkerPc.runs t) d.system.init.worker = 0 := by
      rw [tally_eq_zero_iff]
      intro i
      rfl
    rw [hzero]
    rfl
  · intro s a s' _ h hstep
    cases a with
    | client =>
        cases clientStep_of_step hstep with
        | send _ site _ _ => cases site <;> exact h
        | _ => exact h
    | worker i =>
        have hmove : ∀ (s' : State N β υ) (pc : WorkerPc),
            s'.worker = Function.update s.worker i pc →
            s'.history.called.count t + s.history.returned.count t + (s.worker i).runs t =
              s.history.called.count t + s'.history.returned.count t + pc.runs t →
            s'.history.called.count t =
              s'.history.returned.count t + tally (WorkerPc.runs t) s'.worker := by
          intro s' pc hworker hcount
          have htally := tally_update (WorkerPc.runs t) s.worker i pc
          rw [hworker]
          omega
        cases (workerStep_of_step hstep).2 with
        | perform t' hk =>
            refine hmove _ _ rfl ?_
            simp only [State.workerGoto, State.record, hk, WorkerPc.runs, List.count_append,
              List.count_singleton, beq_iff_eq]
            omega
        | running t' hk =>
            refine hmove _ _ rfl ?_
            simp only [State.workerGoto, State.record, hk, WorkerPc.runs, List.count_append,
              List.count_singleton, beq_iff_eq]
            omega
        | _ =>
            refine hmove _ _ rfl ?_
            rw [(by assumption : s.worker i = _)]
            rfl

/-- The semaphore of a counter that is deleted was taken. -/
theorem taken_of_counterFreed (hc : c ∈ s.history.counterFreed) : 0 < s.taken c := by
  rw [State.taken, List.count_append]
  exact Nat.add_pos_left (List.count_pos_iff.mpr hc) _

/-- A semaphore that was taken belongs to a call that is waited for. -/
theorem awaits_of_taken (hd : d.program.Disciplined) (hflags : d.program.FlagsAgree)
    (hs : d.system.Reachable s) (hc : 0 < s.taken c) :
    c < s.ip ∧ ∃ w ts, d.program.Awaits w c ts := by
  have hinv := clientInv_of_reachable hd hflags hs
  rw [State.taken, List.count_pos_iff, List.mem_append] at hc
  rcases hc with hfreed | hreleasing
  · rcases (hinv.counterFreed c).mp hfreed with ⟨w, ts, rest, hawaits, -⟩
    exact ⟨hinv.lt_of_counterFreed hd hfreed, w, ts, hawaits⟩
  · have hphase : ∃ ts, (d.clientState s).phase = .releasing c ts := by
      change ∃ ts, d.phase s.ip s.client = _
      cases hk : s.client with
      | deleteSemaphore c' ts =>
          rw [hk] at hreleasing
          cases List.mem_singleton.mp hreleasing
          exact ⟨ts, rfl⟩
      | freeCounter c' ts =>
          rw [hk] at hreleasing
          cases List.mem_singleton.mp hreleasing
          exact ⟨ts, rfl⟩
      | _ =>
          rw [hk] at hreleasing
          cases hreleasing
    rcases hphase with ⟨ts, hphase⟩
    rcases hinv.awaits_of_waiting (Or.inr hphase) with ⟨ts', hawaits⟩
    exact ⟨hd.awaits_lt hawaits, _, ts', hawaits⟩

/-- When the semaphore of a call was taken, its tasks have returned and no worker is going to
touch its counter, or a task of it before it was signalled. -/
theorem done_of_taken (hd : d.program.Disciplined) (hflags : d.program.FlagsAgree)
    (hs : d.system.Reachable s) (hawaits : d.program.Awaits w jp ts) (hc : 0 < s.taken jp) :
    (∀ t ∈ ts, t ∈ s.history.returned) ∧
      ∀ i, (s.worker i).signals jp ts = 0 ∧ (s.worker i).gives jp = 0 := by
  rcases hd.awaits_call hawaits with ⟨call, hcall, rfl, hcreates, hne⟩
  exact (counters_of_reachable hd hflags hs).done hd hflags hs hcall hcreates hne
    (Or.inl (awaits_of_taken hd hflags hs hc).1) hc

/-- A task that a wait has deleted: its call and the state of the wait. -/
theorem awaits_of_taskFreed (hd : d.program.Disciplined) (hflags : d.program.FlagsAgree)
    (hs : d.system.Reachable s) (hw : (d.heap.task t).waitable = true)
    (ht : t ∈ s.history.taskFreed) : ∃ w jp ts rest, d.program.Awaits w jp ts ∧ t ∈ ts ∧
      (d.clientState s).remaining w = some rest ∧ t ∉ rest ∧ 0 < s.taken jp := by
  have hinv := clientInv_of_reachable hd hflags hs
  have hfreed : t ∈ (d.clientState s).waitFreed := List.mem_filter.mpr ⟨ht, hw⟩
  rcases (hinv.waitFreed t).mp hfreed with ⟨w, call, rest, hcall, hmem, hrest, hnot⟩
  rcases hd.exists_awaits hcall hmem with ⟨jp, -, hawaits⟩
  exact ⟨w, jp, _, rest, hawaits, hmem, hrest, hnot, taken_of_counterFreed
    ((hinv.counterFreed jp).mpr ⟨w, _, rest, hawaits, hrest⟩)⟩

/-- A task is deleted after its function has returned. -/
theorem returned_of_taskFreed (hd : d.program.Disciplined) (hflags : d.program.FlagsAgree)
    (hs : d.system.Reachable s) (ht : t ∈ s.history.taskFreed) : t ∈ s.history.returned := by
  cases hw : (d.heap.task t).waitable with
  | true =>
      rcases awaits_of_taskFreed hd hflags hs hw ht with
        ⟨w, jp, ts, rest, hawaits, hmem, -, -, htaken⟩
      exact (done_of_taken hd hflags hs hawaits htaken).1 t hmem
  | false =>
      have hcount := finished_of_reachable hd hflags hs t hw
      have hpos := List.count_pos_iff.mpr ht
      exact List.count_pos_iff.mp (by omega)

/-! ## Nothing is touched after it was deleted -/

/-- A worker touches no task that was deleted. -/
theorem worker_touchedTasks (hd : d.program.Disciplined) (hflags : d.program.FlagsAgree)
    (hs : d.system.Reachable s) (ht : t ∈ d.touchedTasks s (.worker i)) :
    t ∉ s.history.taskFreed := by
  have hcounters := counters_of_reachable hd hflags hs
  have hstatic := static_of_reachable hs
  -- its function has not returned
  have hpending : (s.worker i).pending = some t → t ∉ s.history.taskFreed := by
    intro hpending hfreed
    have hpos := List.count_pos_iff.mpr (returned_of_taskFreed hd hflags hs hfreed)
    have hcount := (received_of_reachable hs).count t
    have hsent := List.nodup_iff_count_le_one.mp
      ((clientInv_of_reachable hd hflags hs).pushed_nodup hd) t
    have hweight := le_tally (WorkerPc.weight t) s.worker i
    simp only [WorkerPc.weight, hpending, if_true] at hweight
    change s.history.sent.count t ≤ 1 at hsent
    omega
  -- its counter was not decremented for it
  have hsignals : (∀ c ts, t ∈ ts → 0 < (s.worker i).signals c ts) →
      (d.heap.task t).waitable = true → t ∉ s.history.taskFreed := by
    intro hpos hw hfreed
    rcases awaits_of_taskFreed hd hflags hs hw hfreed with
      ⟨w, jp, ts, rest, hawaits, hmem, -, -, htaken⟩
    have hzero := ((done_of_taken hd hflags hs hawaits htaken).2 i).1
    have hone := hpos jp ts hmem
    omega
  -- the worker is to delete it
  have hfinished : 0 < (s.worker i).finished t → (d.heap.task t).waitable = false →
      t ∉ s.history.taskFreed := by
    intro hpos hw hfreed
    have hcount := finished_of_reachable hd hflags hs t hw
    have hle := returned_count_le hd hflags hs t
    have hweight := le_tally (WorkerPc.finished t) s.worker i
    have hfreed' := List.count_pos_iff.mpr hfreed
    omega
  simp only [DispatchConfig.touchedTasks] at ht
  cases hk : s.worker i with
  | perform t' =>
      rw [hk] at ht
      cases List.mem_singleton.mp ht
      exact hpending (by rw [hk]; rfl)
  | running t' =>
      rw [hk] at ht
      cases List.mem_singleton.mp ht
      exact hpending (by rw [hk]; rfl)
  | testWaitable t' =>
      rw [hk] at ht
      cases List.mem_singleton.mp ht
      cases hw : (d.heap.task t).waitable with
      | true => exact hsignals (fun c ts hts => by simp [hk, WorkerPc.signals, hts]) hw
      | false => exact hfinished (by simp [hk, WorkerPc.finished]) hw
  | readCounter t' =>
      rw [hk] at ht
      cases List.mem_singleton.mp ht
      exact hsignals (fun c ts hts => by simp [hk, WorkerPc.signals, hts])
        (hcounters.waitable i t hk)
  | delete t' =>
      rw [hk] at ht
      cases List.mem_singleton.mp ht
      exact hfinished (by simp [hk, WorkerPc.finished]) (hstatic.delete i t hk)
  | _ =>
      rw [hk] at ht
      cases ht

/-- A task that was not sent was not deleted. -/
theorem notFreed_of_not_added (hd : d.program.Disciplined) (hflags : d.program.FlagsAgree)
    (hs : d.system.Reachable s) (ht : t ∉ (d.clientState s).added d.program) :
    t ∉ s.history.taskFreed := by
  intro hfreed
  have hsent := (call_of_returned hd hflags hs (returned_of_taskFreed hd hflags hs hfreed)).1
  exact ht ((clientInv_of_reachable hd hflags hs).pushed ▸ hsent)

/-- A task of the current wait is not deleted before its turn. -/
theorem notFreed_of_awaits (hd : d.program.Disciplined) (hflags : d.program.FlagsAgree)
    (hs : d.system.Reachable s) (hawaits : d.program.Awaits s.ip jp ts) (ht : t ∈ ts)
    (hrest : ∀ rest, (d.clientState s).remaining s.ip = some rest → t ∈ rest) :
    t ∉ s.history.taskFreed := by
  intro hfreed
  rcases hd.awaits_call hawaits with ⟨add, hadd, rfl, hcreates, -⟩
  have hw : (d.heap.task t).waitable = true :=
    (hflags.createsCounter_iff hadd ht).mp hcreates
  rcases awaits_of_taskFreed hd hflags hs hw hfreed with
    ⟨w, jp', ts', rest, hawaits', hmem, hremaining, hnot, -⟩
  rw [(hd.awaits_unique hawaits' hawaits hmem ht).1] at hremaining
  exact hnot (hrest rest hremaining)

/-- No earlier call has submitted a task of a call. -/
theorem notMem_submitted (hd : d.program.Disciplined) {ip : Nat} {call : DispatchCall}
    (hcall : d.prog[ip]? = some call) (ht : t ∈ call.tasks d.heap) :
    t ∉ d.program.submitted ip := by
  intro hmem
  rcases Program.mem_submitted.mp hmem with ⟨jp, hlt, call', hjp, ht'⟩
  exact absurd (hd.unique hjp hcall ht' ht) (Nat.ne_of_lt hlt)

/-- The client touches no task that was deleted. -/
theorem client_touchedTasks (hd : d.program.Disciplined) (hflags : d.program.FlagsAgree)
    (hs : d.system.Reachable s) (ht : t ∈ d.touchedTasks s .client) :
    t ∉ s.history.taskFreed := by
  have hinv := clientInv_of_reachable hd hflags hs
  have hposition := hinv.position
  have hphase : ∀ pc, s.client = pc → (d.clientState s).phase = d.phase s.ip pc := by
    rintro pc rfl
    rfl
  simp only [DispatchConfig.touchedTasks] at ht
  cases hk : s.client with
  | ready =>
      have hidle : (d.clientState s).phase = .idle := hphase _ hk
      have hnone : (d.clientState s).remaining s.ip = none :=
        ClientState.remaining_self_none (v := d.clientState s) (by simp [hidle])
      rw [hk] at ht
      simp only at ht
      cases hcall : d.prog[s.ip]? with
      | none =>
          rw [hcall] at ht
          cases ht
      | some call =>
          rw [hcall] at ht
          cases call with
          | taskAdd t' =>
              cases List.mem_singleton.mp ht
              refine notFreed_of_not_added hd hflags hs fun hadded => ?_
              simp only [ClientState.added, hidle] at hadded
              exact notMem_submitted hd hcall (List.mem_singleton_self t) hadded
          | taskWait t' =>
              cases List.mem_singleton.mp ht
              rcases (hd.taskWait s.ip t hcall).2 with ⟨jp, -, hjp⟩
              exact notFreed_of_awaits hd hflags hs (Or.inl ⟨t, hcall, hjp, rfl⟩)
                (List.mem_singleton_self t) (by simp [hnone])
          | groupWait g =>
              rcases (hd.groupWait s.ip g hcall).2.2 with ⟨jp, -, hjp⟩
              have hmem : t ∈ (d.heap.group g).tasks :=
                List.mem_of_mem_head? (by simpa using ht)
              exact notFreed_of_awaits hd hflags hs (Or.inr ⟨g, hcall, hjp, rfl⟩) hmem
                (by simp [hnone])
          | _ => cases ht
  | groupLoop g i counter =>
      rw [hk] at ht
      have htask : (d.heap.group g).tasks[i]? = some t := by simpa using ht
      have hadding := hphase _ hk
      simp only [ClientState.At, hadding, DispatchConfig.phase] at hposition
      refine notFreed_of_not_added hd hflags hs fun hadded => ?_
      simp only [ClientState.added, hadding, DispatchConfig.phase] at hadded
      rcases List.mem_append.mp hadded with hearlier | hbefore
      · exact notMem_submitted hd hposition.1 (List.mem_of_getElem? htask) hearlier
      · -- the tasks of the group are distinct
        have hnodup := hd.nodup hposition.1
        rcases List.getElem?_eq_some_iff.mp htask with ⟨hlt, rfl⟩
        have htake := List.take_succ_eq_append_getElem hlt
        have hsub := hnodup.sublist (List.take_sublist (i + 1) (d.heap.group g).tasks)
        rw [htake] at hsub
        exact (List.nodup_append.mp hsub).2.2 _ hbefore _ (List.mem_singleton_self _) rfl
  | deleteTasks ts =>
      rw [hk] at ht
      have hmem : t ∈ ts := List.mem_of_mem_head? (by simpa using ht)
      have hdeleting := hphase _ hk
      simp only [ClientState.At, hdeleting, DispatchConfig.phase] at hposition
      rcases hposition with ⟨call, c, ts', done, hcall, hdone, hawaits⟩
      rcases hawaits.eq_awaited hcall with rfl
      have hawaited : t ∈ call.awaited d.program.heap := by
        change t ∈ DispatchCall.awaited d.heap call
        rw [hdone]
        exact List.mem_append_right done hmem
      refine notFreed_of_awaits hd hflags hs hawaits hawaited fun rest hrest => ?_
      rw [show s.ip = (d.clientState s).ip from rfl,
        ClientState.remaining_self hdeleting] at hrest
      cases hrest
      exact hmem
  | _ =>
      rw [hk] at ht
      cases ht

/-- A worker touches no counter whose semaphore was taken. -/
theorem worker_touchedCounters (hd : d.program.Disciplined) (hflags : d.program.FlagsAgree)
    (hs : d.system.Reachable s) (hc : c ∈ d.touchedCounters s (.worker i)) : s.taken c = 0 := by
  by_contra htaken
  have hpos : 0 < s.taken c := Nat.pos_of_ne_zero htaken
  rcases (awaits_of_taken hd hflags hs hpos).2 with ⟨w, ts, hawaits⟩
  have hzero := (done_of_taken hd hflags hs hawaits hpos).2 i
  simp only [DispatchConfig.touchedCounters] at hc
  cases hk : s.worker i with
  | decrement c' =>
      rw [hk] at hc hzero
      cases List.mem_singleton.mp hc
      simp [WorkerPc.signals] at hzero
  | give c' =>
      rw [hk] at hc hzero
      cases List.mem_singleton.mp hc
      simp [WorkerPc.gives] at hzero
  | _ =>
      rw [hk] at hc
      cases hc

/-- The client touches no counter that was deleted. -/
theorem client_touchedCounters (hd : d.program.Disciplined) (hflags : d.program.FlagsAgree)
    (hs : d.system.Reachable s) (hc : c ∈ d.touchedCounters s .client) :
    c ∉ s.history.counterFreed := by
  have hinv := clientInv_of_reachable hd hflags hs
  have hphase : ∀ pc, s.client = pc → (d.clientState s).phase = d.phase s.ip pc := by
    rintro pc rfl
    rfl
  have hreleasing : ∀ ts, (d.clientState s).phase = .releasing c ts →
      c ∉ s.history.counterFreed := fun ts h => hinv.not_freed_of_releasing hd h
  simp only [DispatchConfig.touchedCounters] at hc
  cases hk : s.client with
  | ready =>
      rw [hk] at hc
      simp only at hc
      intro hfreed
      have hlt : c < s.ip := hinv.lt_of_counterFreed hd hfreed
      split at hc
      · split at hc
        · exact absurd (List.mem_singleton.mp hc) (Nat.ne_of_lt hlt)
        · cases hc
      · cases hc
  | takeSemaphore c' ts =>
      rw [hk] at hc
      cases List.mem_singleton.mp hc
      have hwaiting := hphase _ hk
      rcases hinv.awaits_of_waiting (Or.inl hwaiting) with ⟨ts', hawaits⟩
      intro hfreed
      rcases (hinv.counterFreed c).mp hfreed with ⟨w, ts'', rest, hawaits', hrest⟩
      rw [hd.awaits_unique_wait hawaits' hawaits,
        ClientState.remaining_self_none (by simp [hwaiting, DispatchConfig.phase])] at hrest
      cases hrest
  | deleteSemaphore c' ts =>
      rw [hk] at hc
      cases List.mem_singleton.mp hc
      exact hreleasing ts (hphase _ hk)
  | freeCounter c' ts =>
      rw [hk] at hc
      cases List.mem_singleton.mp hc
      exact hreleasing ts (hphase _ hk)
  | _ =>
      rw [hk] at hc
      cases hc

/-! ## Waits that have returned -/

/-- A semaphore is not touched after it was deleted. -/
theorem touchedSemaphores_notDeleted (hd : d.program.Disciplined)
    (hflags : d.program.FlagsAgree) (hs : d.system.Reachable s) {a : Party N}
    (hc : c ∈ touchedSemaphores s a) : c ∉ s.history.semaphoreDeleted := by
  rw [semaphores_of_reachable hs, List.mem_append]
  cases a with
  | client =>
      simp only [touchedSemaphores] at hc
      have htouched : c ∈ d.touchedCounters s .client ∧ s.client.halfDeleted = [] := by
        simp only [DispatchConfig.touchedCounters]
        cases hk : s.client with
        | takeSemaphore c' ts =>
            rw [hk] at hc
            exact ⟨hc, rfl⟩
        | deleteSemaphore c' ts =>
            rw [hk] at hc
            exact ⟨hc, rfl⟩
        | _ =>
            rw [hk] at hc
            cases hc
      rintro (hfreed | hhalf)
      · exact client_touchedCounters hd hflags hs htouched.1 hfreed
      · rw [htouched.2] at hhalf
        cases hhalf
  | worker i =>
      simp only [touchedSemaphores] at hc
      have htouched : c ∈ d.touchedCounters s (.worker i) := by
        simp only [DispatchConfig.touchedCounters]
        cases hk : s.worker i with
        | give c' =>
            rw [hk] at hc
            exact hc
        | _ =>
            rw [hk] at hc
            cases hc
      have hzero := worker_touchedCounters hd hflags hs htouched
      rw [State.taken, List.count_append, Nat.add_eq_zero_iff] at hzero
      rintro (hfreed | hhalf)
      · exact List.count_eq_zero.mp hzero.1 hfreed
      · refine List.count_eq_zero.mp hzero.2 ?_
        cases hk : s.client with
        | freeCounter c' ts =>
            rw [hk] at hhalf
            exact hhalf
        | _ =>
            rw [hk] at hhalf
            cases hhalf

/-- Each semaphore is deleted once. -/
theorem semaphoreDeleted_nodup (hd : d.program.Disciplined) (hflags : d.program.FlagsAgree)
    (hs : d.system.Reachable s) : s.history.semaphoreDeleted.Nodup := by
  have hinv := clientInv_of_reachable hd hflags hs
  rw [semaphores_of_reachable hs]
  refine List.nodup_append.mpr ⟨hinv.counterNodup, ?_, ?_⟩
  · cases s.client with
    | freeCounter c ts => exact List.nodup_singleton c
    | _ => exact List.nodup_nil
  · rintro c hfreed c' hhalf rfl
    cases hk : s.client with
    | freeCounter c' ts =>
        rw [hk] at hhalf
        cases List.mem_singleton.mp hhalf
        have hphase : (d.clientState s).phase = .releasing c ts := by
          change d.phase s.ip s.client = _
          rw [hk]
          rfl
        exact hinv.not_freed_of_releasing hd hphase hfreed
    | _ =>
        rw [hk] at hhalf
        cases hhalf

/-- What a wait that has returned has waited for has returned. -/
theorem returned_of_awaits (hd : d.program.Disciplined) (hflags : d.program.FlagsAgree)
    (hs : d.system.Reachable s) (hawaits : d.program.Awaits w jp ts) (hw : w < s.ip) :
    ∀ t ∈ ts, t ∈ s.history.returned := by
  have hcounter := (clientInv_of_reachable hd hflags hs).returned_counter hawaits hw
  have hfreed : jp ∈ s.history.counterFreed := by
    rw [← List.count_pos_iff, show s.history.counterFreed.count jp = 1 from hcounter]
    exact Nat.one_pos
  exact (done_of_taken hd hflags hs hawaits (taken_of_counterFreed hfreed)).1

end Invariant

/-- Waiting for a waitable task or group means that its work is done, in every interleaving of
a client that follows the rules with any number of workers: when the {lit}`w`-th call, which
waits for what the {lit}`jp`-th has submitted, has returned, each of these tasks was called
once, has returned, and was deleted once, and so were the counter and the semaphore. -/
theorem rtos_wait_done (d : DispatchConfig N β υ) {ts gs as : List Nat}
    (hbuilt : Built d.heap ts gs as) (hgroups : ∀ g, .groupAdd g ∈ d.prog → g ∈ gs)
    (hd : d.program.Disciplined) {s : State N β υ} (hs : d.system.Reachable s) {w jp : Nat}
    {awaited : List Nat} (hawaits : d.program.Awaits w jp awaited) (hw : w < s.ip) :
    (∀ t ∈ awaited, s.history.called.count t = 1 ∧ s.history.returned.count t = 1 ∧
      s.history.taskFreed.count t = 1) ∧
    s.history.counterFreed.count jp = 1 ∧ s.history.semaphoreDeleted.count jp = 1 := by
  have hflags := Program.flagsAgree_of_built (p := d.program) hbuilt hgroups
  have hinv := clientInv_of_reachable hd hflags hs
  have hcounter := hinv.returned_counter hawaits hw
  have hdone := returned_of_awaits hd hflags hs hawaits hw
  refine ⟨fun t ht => ?_, hcounter, ?_⟩
  · have hreturned : s.history.returned.count t = 1 :=
      Nat.le_antisymm (returned_count_le hd hflags hs t)
        (List.count_pos_iff.mpr (hdone t ht))
    have hrunning : tally (WorkerPc.runs t) s.worker = 0 := by
      -- a running task would have been sent twice
      have hcount := (received_of_reachable hs).count t
      have hsent := List.nodup_iff_count_le_one.mp (hinv.pushed_nodup hd) t
      change s.history.sent.count t ≤ 1 at hsent
      have hle : tally (WorkerPc.runs t) s.worker ≤ tally (WorkerPc.weight t) s.worker := by
        refine tally_le_tally fun i => ?_
        cases s.worker i <;> simp [WorkerPc.runs, WorkerPc.weight, WorkerPc.pending]
      omega
    have hcalled := called_of_reachable hs t
    rcases hawaits.awaited with ⟨call, hcall, rfl⟩
    have hdeleted := hinv.returned_task hcall ht hw
    rcases hd.awaits_call hawaits with ⟨add, hadd, htasks, hcreates, -⟩
    have hwaitable : (d.heap.task t).waitable = true :=
      (hflags.createsCounter_iff hadd (htasks ▸ ht)).mp hcreates
    refine ⟨by omega, hreturned, ?_⟩
    rw [← List.count_filter (p := fun t => (d.heap.task t).waitable) hwaitable]
    exact hdeleted
  · refine List.count_eq_one_of_mem (semaphoreDeleted_nodup hd hflags hs) ?_
    rw [semaphores_of_reachable hs]
    refine List.mem_append_left _ (List.count_pos_iff.mp ?_)
    rw [show s.history.counterFreed.count jp = 1 from hcounter]
    exact Nat.one_pos

/-- What is deleted and touched in a state. -/
structure Lifetimes (d : DispatchConfig N β υ) (s : State N β υ) : Prop where
  /-- A task, a counter or a semaphore is deleted at most once. -/
  freedOnce : s.history.taskFreed.Nodup ∧ s.history.counterFreed.Nodup ∧
    s.history.semaphoreDeleted.Nodup
  /-- A task is deleted after its function has returned. -/
  returned : ∀ t ∈ s.history.taskFreed, t ∈ s.history.returned
  /-- A counter is deleted after all tasks of its call have returned. -/
  signalled : ∀ c ∈ s.history.counterFreed, ∃ call, d.prog[c]? = some call ∧
    ∀ t ∈ call.tasks d.heap, t ∈ s.history.returned
  /-- No statement touches what was deleted. -/
  tasks : ∀ a, ∀ t ∈ d.touchedTasks s a, t ∉ s.history.taskFreed
  counters : ∀ a, ∀ c ∈ d.touchedCounters s a, c ∉ s.history.counterFreed
  semaphores : ∀ a, ∀ c ∈ touchedSemaphores s a, c ∉ s.history.semaphoreDeleted

/-- Nothing is deleted twice or used after it was deleted, in every interleaving of a client
that follows the rules with any number of workers. -/
theorem rtos_lifetimes (d : DispatchConfig N β υ) {ts gs as : List Nat}
    (hbuilt : Built d.heap ts gs as) (hgroups : ∀ g, .groupAdd g ∈ d.prog → g ∈ gs)
    (hd : d.program.Disciplined) {s : State N β υ} (hs : d.system.Reachable s) :
    Lifetimes d s := by
  have hflags := Program.flagsAgree_of_built (p := d.program) hbuilt hgroups
  have hinv := clientInv_of_reachable hd hflags hs
  constructor
  · exact ⟨taskFreed_nodup hd hflags hs, hinv.counterNodup, semaphoreDeleted_nodup hd hflags hs⟩
  · exact fun t ht => returned_of_taskFreed hd hflags hs ht
  · intro c hc
    have htaken := taken_of_counterFreed hc
    rcases (awaits_of_taken hd hflags hs htaken).2 with ⟨w, ts, hawaits⟩
    rcases hd.awaits_call hawaits with ⟨call, hcall, rfl, -⟩
    exact ⟨call, hcall, (done_of_taken hd hflags hs hawaits htaken).1⟩
  · intro a t ht
    cases a with
    | client => exact client_touchedTasks hd hflags hs ht
    | worker i => exact worker_touchedTasks hd hflags hs ht
  · intro a c hc
    cases a with
    | client => exact client_touchedCounters hd hflags hs hc
    | worker i =>
        have hzero := worker_touchedCounters hd hflags hs hc
        exact fun hfreed => absurd (taken_of_counterFreed hfreed) (by rw [hzero]; simp)
  · exact fun a c hc => touchedSemaphores_notDeleted hd hflags hs hc

/-! ## A group of one function -/

/-- When the client has made its three calls, the function has run once. -/
theorem rtos_wait_done_oneFunction :
    (∀ t ∈ [0], oneFunctionCycle.s.history.called.count t = 1 ∧
      oneFunctionCycle.s.history.returned.count t = 1 ∧
      oneFunctionCycle.s.history.taskFreed.count t = 1) ∧
    oneFunctionCycle.s.history.counterFreed.count 0 = 1 ∧
    oneFunctionCycle.s.history.semaphoreDeleted.count 0 = 1 :=
  rtos_wait_done oneFunctionDelete (oneFunctionHeap_built Nat) oneFunctionCycle.groups_built
    oneFunctionCycle.disciplined oneFunctionCycle.reachable
    (show oneFunctionDelete.program.Awaits 1 0 [0] from Or.inr ⟨0, rfl, rfl, rfl⟩)
    (by decide +kernel)

theorem rtos_lifetimes_oneFunction : Lifetimes oneFunctionDelete oneFunctionCycle.s :=
  rtos_lifetimes oneFunctionDelete (oneFunctionHeap_built Nat) oneFunctionCycle.groups_built
    oneFunctionCycle.disciplined oneFunctionCycle.reachable

end Rtos
end LibDispatch
