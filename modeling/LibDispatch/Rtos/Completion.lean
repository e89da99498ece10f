import LibDispatch.Rtos.Budget
import LibDispatch.Meaning
import LibDispatch.Rtos.GroupRun

/-!
# Every program completes on FreeRTOS

A client that follows the rules, and deletes the dispatch queue last if at all, is never left
waiting: whenever nobody can change the state any more, it has made all its calls.  Since the
budget bounds the changes, a schedule in which every thread gets a turn in each of as many
rounds as the program has steps runs the program to its end.

Main results:

- Theorem {lit}`completed_of_quiescent`: a state that nobody changes is the end of the program.
- Theorem {lit}`rtos_completes`: every schedule with enough rounds reaches it.
-/

namespace LibDispatch
namespace Rtos

variable {N : Nat} {β υ : Type}

/-! ## The end of the program -/

/-- Only the last call deletes the dispatch queue. -/
def DispatchConfig.DeletesLast (d : DispatchConfig N β υ) : Prop :=
  ∀ j, d.prog[j]? = some .delete → j + 1 = d.prog.length

/-- The client has made all its calls. -/
def State.Ended (d : DispatchConfig N β υ) (s : State N β υ) : Prop :=
  s.client = .ready ∧ s.ip = d.prog.length

/-- Where the client is in its program, and when threads are deleted. -/
structure Placed (d : DispatchConfig N β υ) (s : State N β υ) : Prop where
  ip_le : s.ip ≤ d.prog.length
  inCall : s.client.idle = false → s.ip < d.prog.length
  deleting : s.client.deleting = true → d.prog[s.ip]? = some .delete
  released : ∀ i, s.released (.thread i) = true →
    s.client.deleting = true ∨ (s.Ended d ∧ .delete ∈ d.prog)

section Placed

variable {d : DispatchConfig N β υ} {s s' : State N β υ} {i : Fin N}

/-- A client that goes on within its call, and deletes no thread. -/
theorem Placed.within (h : Placed d s) (hcall : s.client.idle = false)
    (hdeleting : s.client.deleting = false) (hip : s'.ip = s.ip)
    (hdeleting' : s'.client.deleting = false) (hreleased : s'.released = s.released) :
    Placed d s' := by
  refine ⟨hip ▸ h.ip_le, fun _ => hip ▸ h.inCall hcall, fun hd => ?_, fun i hi => ?_⟩
  · rw [hdeleting'] at hd
    cases hd
  · rw [hreleased] at hi
    rcases h.released i hi with hd | ⟨⟨hready, -⟩, -⟩
    · rw [hdeleting] at hd
      cases hd
    · rw [hready] at hcall
      cases hcall

/-- A client that starts a call. -/
theorem Placed.start (h : Placed d s) {call : DispatchCall} (hk : s.client = .ready)
    (hcall : d.prog[s.ip]? = some call) (hip : s'.ip = s.ip)
    (hdeleting : s'.client.deleting = true → call = .delete)
    (hreleased : s'.released = s.released) : Placed d s' := by
  have hlt := (List.getElem?_eq_some_iff.mp hcall).1
  refine ⟨hip ▸ h.ip_le, fun _ => hip ▸ hlt, fun hd => ?_, fun i hi => ?_⟩
  · rw [hip, hcall, hdeleting hd]
  · rw [hreleased] at hi
    rcases h.released i hi with hd | ⟨⟨-, hend⟩, -⟩
    · rw [hk] at hd
      cases hd
    · omega

/-- A client whose call returns. -/
theorem Placed.ret (h : Placed d s) (hcall : s.client.idle = false)
    (hdeleting : s.client.deleting = false) (hip : s'.ip = s.ip + 1)
    (hready : s'.client = .ready) (hreleased : s'.released = s.released) : Placed d s' := by
  have hlt := h.inCall hcall
  refine ⟨by omega, fun hc => ?_, fun hd => ?_, fun i hi => ?_⟩
  · rw [hready] at hc
    cases hc
  · rw [hready] at hd
    cases hd
  · rw [hreleased] at hi
    rcases h.released i hi with hd | ⟨⟨hk, -⟩, -⟩
    · rw [hdeleting] at hd
      cases hd
    · rw [hk] at hcall
      cases hcall

/-- A client that goes on deleting. -/
theorem Placed.delete (h : Placed d s) (hdeleting : s.client.deleting = true)
    (hip : s'.ip = s.ip) (hdeleting' : s'.client.deleting = true) : Placed d s' := by
  have hcall := h.deleting hdeleting
  refine ⟨hip ▸ h.ip_le, fun _ => ?_, fun _ => hip ▸ hcall, fun _ _ => Or.inl hdeleting'⟩
  rw [hip]
  exact (List.getElem?_eq_some_iff.mp hcall).1

theorem Placed.client_step (h : Placed d s) (hlast : d.DeletesLast) (hstep : ClientStep d s s') :
    Placed d s' := by
  cases hstep with
  | setReadyBits hk =>
      refine ⟨h.ip_le, by rintro ⟨⟩, by rintro ⟨⟩, fun i hi => ?_⟩
      rcases h.released i hi with hd | ⟨⟨hready, -⟩, -⟩
      · rw [hk] at hd
        cases hd
      · rw [hk] at hready
        cases hready
  | taskAddWaitable t hk hcall _ => exact h.start hk hcall rfl (by rintro ⟨⟩) rfl
  | taskAddPlain t hk hcall _ => exact h.start hk hcall rfl (by rintro ⟨⟩) rfl
  | groupAddWaitable g hk hcall _ => exact h.start hk hcall rfl (by rintro ⟨⟩) rfl
  | groupAddPlain g hk hcall _ => exact h.start hk hcall rfl (by rintro ⟨⟩) rfl
  | taskWait t c hk hcall _ _ => exact h.start hk hcall rfl (by rintro ⟨⟩) rfl
  | groupWait g t c ts hk hcall _ _ _ => exact h.start hk hcall rfl (by rintro ⟨⟩) rfl
  | wait hk hcall => exact h.start hk hcall rfl (by rintro ⟨⟩) rfl
  | delete hk hcall => exact h.start hk hcall rfl (fun _ => rfl) rfl
  | groupDone g i counter hk _ => exact h.ret (by rw [hk]; rfl) (by rw [hk]; rfl) rfl rfl rfl
  | deleteDone hk => exact h.ret (by rw [hk]; rfl) (by rw [hk]; rfl) rfl rfl rfl
  | waitBits hk _ => exact h.ret (by rw [hk]; rfl) (by rw [hk]; rfl) rfl rfl rfl
  | send t site hk _ =>
      cases site with
      | task => exact h.ret (by rw [hk]; rfl) (by rw [hk]; rfl) rfl rfl rfl
      | member g i counter => exact h.within (by rw [hk]; rfl) (by rw [hk]; rfl) rfl rfl rfl
  | deleteThread i hi hk => exact h.delete (by rw [hk]; rfl) rfl rfl
  | threadsDeleted i hi hk => exact h.delete (by rw [hk]; rfl) rfl rfl
  | freeWorkerData hk => exact h.delete (by rw [hk]; rfl) rfl rfl
  | freeThreads hk => exact h.delete (by rw [hk]; rfl) rfl rfl
  | deleteEventGroup hk => exact h.delete (by rw [hk]; rfl) rfl rfl
  | deleteQueue hk =>
      have hcall := h.deleting (by rw [hk]; rfl)
      have hend := hlast s.ip hcall
      exact ⟨Nat.le_of_eq hend, by rintro ⟨⟩, by rintro ⟨⟩,
        fun _ _ => Or.inr ⟨⟨rfl, hend⟩, List.mem_of_getElem? hcall⟩⟩
  | _ =>
      have hk := (by assumption : s.client = _)
      exact h.within (by rw [hk]; rfl) (by rw [hk]; rfl) rfl rfl rfl

theorem placed_of_reachable (hlast : d.DeletesLast) (hs : d.system.Reachable s) :
    Placed d s := by
  refine hs.invariant (P := Placed d)
    ⟨Nat.zero_le _, by rintro ⟨⟩, by rintro ⟨⟩, by rintro i ⟨⟩⟩ ?_
  intro s a s' _ h hstep
  cases a with
  | client => exact h.client_step hlast (clientStep_of_step hstep)
  | worker i =>
      cases (workerStep_of_step hstep).2 <;> exact ⟨h.ip_le, h.inCall, h.deleting, h.released⟩

end Placed

/-! ## Who can go on -/

section Quiescent

variable {d : DispatchConfig N β υ} {s : State N β υ} {i : Fin N} {t c : Nat} {ts : List Nat}

/-- A worker that is not deleted and cannot go on waits for a task. -/
theorem receive_of_stuck (hd : d.program.Disciplined) (hflags : d.program.FlagsAgree)
    (hs : d.system.Reachable s) (halive : s.released (.thread i) ≠ true)
    (hstuck : workerStep s i = none) : s.worker i = .receive ∧ s.xQueue = [] := by
  rw [workerStep, if_neg halive] at hstuck
  cases hk : s.worker i with
  | receive =>
      cases hqueue : s.xQueue with
      | nil => exact ⟨rfl, rfl⟩
      | cons t rest => simp [hk, hqueue] at hstuck
  | readCounter t =>
      rcases (counters_of_reachable hd hflags hs).call_of_readCounter hd hflags hs hk with
        ⟨jp, -, -, -, -, -, hdata⟩
      simp [hk, hdata] at hstuck
  | _ => simp [hk] at hstuck

/-- The counter that a call waits for, while it waits. -/
theorem not_taken_of_waiting (hd : d.program.Disciplined) (hflags : d.program.FlagsAgree)
    (hs : d.system.Reachable s) (hk : s.client = .takeSemaphore c ts) :
    s.taken c = 0 ∧ ∃ ts', d.program.Awaits s.ip c ts' := by
  have hinv := clientInv_of_reachable hd hflags hs
  have hphase : (d.clientState s).phase = .waiting c ts := by
    change d.phase s.ip s.client = _
    rw [hk]
    rfl
  have hposition := hinv.position
  simp only [ClientState.At, hphase] at hposition
  rcases hposition with ⟨-, ts', -, -, hawaits⟩
  refine ⟨?_, ts', hawaits⟩
  have hnot : c ∉ s.history.counterFreed := by
    intro hmem
    rcases (hinv.counterFreed c).mp hmem with ⟨w, ts'', rest, hawaits', hrest⟩
    have hnone : (d.clientState s).remaining (d.clientState s).ip = none :=
      ClientState.remaining_self_none (by simp [hphase])
    rw [hd.awaits_unique_wait hawaits' hawaits, hnone] at hrest
    cases hrest
  rw [State.taken, hk, show (ClientPc.takeSemaphore c ts).releasing = [] from rfl,
    List.append_nil]
  exact List.count_eq_zero.mpr hnot

/-- When no worker can go on and none is deleted, a semaphore that is waited for is given. -/
theorem given_of_idle (hd : d.program.Disciplined) (hflags : d.program.FlagsAgree)
    (hs : d.system.Reachable s) (hk : s.client = .takeSemaphore c ts)
    (hidle : ∀ i, s.worker i = .receive) (hqueue : s.xQueue = []) :
    (s.counter c).given = true := by
  rcases not_taken_of_waiting hd hflags hs hk with ⟨htaken, ts', hawaits⟩
  rcases hd.awaits_call hawaits with ⟨call, hcall, rfl, hcreates, hne⟩
  have hlt : c < s.ip := hd.awaits_lt hawaits
  have hcounters := counters_of_reachable hd hflags hs
  have hcount := hcounters.count c call hcall hcreates (Or.inl hlt)
  have hgiven := hcounters.given c call hcall hcreates (Or.inl hlt) hne
  have hsignals : tally (WorkerPc.signals c (call.tasks d.heap)) s.worker = 0 := by
    rw [tally_eq_zero_iff]
    intro i
    rw [hidle i]
    rfl
  have hgives : tally (WorkerPc.gives c) s.worker = 0 := by
    rw [tally_eq_zero_iff]
    intro i
    rw [hidle i]
    rfl
  -- every task of the call was sent and is not on its way
  have hall : (call.tasks d.heap).length ≤ s.returnedOf (call.tasks d.heap) := by
    rw [State.returnedOf, List.countP_eq_length_filter]
    refine ((hd.nodup hcall).subperm fun t ht => ?_).length_le
    refine List.mem_filter.mpr ⟨?_, decide_eq_true ht⟩
    have hsent : t ∈ s.history.sent :=
      (clientInv_of_reachable hd hflags hs).mem_pushed hcall ht hlt
    have hweight : tally (WorkerPc.weight t) s.worker = 0 := by
      rw [tally_eq_zero_iff]
      intro i
      rw [hidle i]
      rfl
    have hreceived := (received_of_reachable hs).count t
    rw [hqueue, hweight, List.count_nil] at hreceived
    have hpos := List.count_pos_iff.mpr hsent
    exact List.count_pos_iff.mp (by omega)
  have hzero : (s.counter c).count = 0 := by
    have hcount' : (s.counter c).count + s.returnedOf (call.tasks d.heap) =
      (call.tasks d.heap).length := by rw [hcount, hsignals]; rfl
    omega
  rw [if_pos hzero, hgives, htaken] at hgiven
  cases hbit : (s.counter c).given with
  | true => rfl
  | false =>
      rw [hbit] at hgiven
      cases hgiven

/-- The next call of a client that follows the rules can start. -/
theorem startCall_isSome (hd : d.program.Disciplined) (hflags : d.program.FlagsAgree)
    (hs : d.system.Reachable s) {call : DispatchCall} (hcall : d.prog[s.ip]? = some call) :
    (s.startCall call).isSome = true := by
  have hstatic := static_of_reachable hs
  have hinv := clientInv_of_reachable hd hflags hs
  -- a task that was added leads to its counter
  have hdata : ∀ {jp : Nat} {add : DispatchCall} {t : Nat}, d.prog[jp]? = some add → jp < s.ip →
      add.createsCounter d.heap = true → t ∈ add.tasks d.heap →
      (s.heap.task t).privateData = some jp :=
    fun hadd hlt hcreates ht =>
      hinv.data_of_pushed hadd hcreates ht (hinv.mem_pushed hadd ht hlt)
  cases call with
  | taskAdd t =>
      rw [State.startCall]
      split <;> rfl
  | groupAdd g =>
      rw [State.startCall]
      split <;> rfl
  | taskWait t =>
      rcases hd.taskWait s.ip t hcall with ⟨hwaitable, jp, hlt, hadd⟩
      have hcounter := hdata hadd hlt hwaitable (List.mem_singleton_self t)
      have hw : (s.heap.task t).waitable = true := (hstatic.waitable t).trans hwaitable
      rw [State.startCall, if_pos hw, hcounter]
      rfl
  | groupWait g =>
      rcases hd.groupWait s.ip g hcall with ⟨hwaitable, hne, jp, hlt, hadd⟩
      rcases List.exists_cons_of_ne_nil hne with ⟨t, ts, htasks⟩
      have htasks' : (d.heap.group g).tasks = t :: ts := htasks
      have hmem : t ∈ (DispatchCall.groupAdd g).tasks d.heap := by
        change t ∈ (d.heap.group g).tasks
        rw [htasks']
        exact List.mem_cons_self
      have hcounter := hdata hadd hlt hwaitable hmem
      have hw : (s.heap.group g).waitable = true := by
        rw [hstatic.group]
        exact hwaitable
      rw [State.startCall, if_pos hw, hstatic.group, htasks']
      simp [hcounter]
  | wait => rfl
  | delete => rfl

/-- A worker whose turn changes nothing cannot take a step. -/
theorem workerStep_of_quiescent (hquiet : d.system.Quiescent s) (i : Fin N) :
    workerStep s i = none := by
  cases h : workerStep s i with
  | none => rfl
  | some s' =>
      have heq : s' = s := (System.attempt_of_step (S := d.system) (a := .worker i) h).symm.trans
        (hquiet (.worker i))
      have hlt := (workerStep_of_step h).2.budget_lt (d := d)
      rw [heq] at hlt
      exact absurd hlt (Nat.lt_irrefl _)

/-- A client whose turn changes nothing cannot take a step, or polls a queue that is not empty. -/
theorem clientStep_of_quiescent (hs : d.system.Reachable s) (hquiet : d.system.Quiescent s) :
    s.client = .waitEmpty ∧ s.xQueue ≠ [] ∨ d.clientStep s = none := by
  cases h : d.clientStep s with
  | none => exact Or.inr rfl
  | some s' =>
      have heq : s' = s := (System.attempt_of_step (S := d.system) (a := .client) h).symm.trans
        (hquiet .client)
      rcases (clientStep_of_step h).budget_lt (static_of_reachable hs) with ⟨hk, hne, -⟩ | hlt
      · exact Or.inl ⟨hk, hne⟩
      · rw [heq] at hlt
        exact absurd hlt (Nat.lt_irrefl _)

/-- Threads are deleted in the last call, which never waits. -/
theorem alive_of_quiescent (hlast : d.DeletesLast) (hs : d.system.Reachable s)
    (hquiet : d.system.Quiescent s) (hopen : ¬ s.Ended d ∨ .delete ∉ d.prog) (i : Fin N) :
    s.released (.thread i) ≠ true := by
  intro hi
  rcases (placed_of_reachable hlast hs).released i hi with hdeleting | ⟨hend, hmem⟩
  · rcases clientStep_of_quiescent hs hquiet with ⟨hk, -⟩ | hnone
    · rw [hk] at hdeleting
      cases hdeleting
    · cases hk : s.client with
      | deleteThread j =>
          simp only [DispatchConfig.clientStep, hk] at hnone
          split at hnone <;> cases hnone
      | freeWorkerData => simp [DispatchConfig.clientStep, hk] at hnone
      | freeThreads => simp [DispatchConfig.clientStep, hk] at hnone
      | deleteEventGroup => simp [DispatchConfig.clientStep, hk] at hnone
      | deleteQueue => simp [DispatchConfig.clientStep, hk] at hnone
      | _ =>
          rw [hk] at hdeleting
          cases hdeleting
  · rcases hopen with hopen | hopen
    · exact hopen hend
    · exact hopen hmem

/-- Where the workers wait for a task and there is none, a client that cannot take a step has
made all its calls. -/
theorem ended_of_idle (hd : d.program.Disciplined) (hflags : d.program.FlagsAgree)
    (hlast : d.DeletesLast) (hs : d.system.Reachable s) (hqueue : s.xQueue = [])
    (hreceive : ∀ i, s.worker i = .receive) (hnone : d.clientStep s = none) : s.Ended d := by
  cases hk : s.client with
  | ready =>
      refine ⟨hk, Nat.le_antisymm (placed_of_reachable hlast hs).ip_le ?_⟩
      refine Nat.le_of_not_lt fun hlt => ?_
      have hcall := List.getElem?_eq_getElem hlt
      have hsome := startCall_isSome hd hflags hs hcall
      simp only [DispatchConfig.clientStep, hk, hcall, Option.bind_some] at hnone
      rw [hnone] at hsome
      cases hsome
  | groupLoop g i counter =>
      simp only [DispatchConfig.clientStep, hk] at hnone
      split at hnone <;> cases hnone
  | send t site => simp [DispatchConfig.clientStep, hk, hqueue, d.length_pos] at hnone
  | takeSemaphore c ts =>
      have hgiven := given_of_idle hd hflags hs hk hreceive hqueue
      simp [DispatchConfig.clientStep, hk, hgiven] at hnone
  | deleteTasks ts => cases ts <;> simp [DispatchConfig.clientStep, hk] at hnone
  | waitBits =>
      have hbits : s.xEventGroup &&& xReadyBits N = xReadyBits N := by
        rw [xReadyBits_eq, BitMask.and_lowMask_eq_iff _ d.threadCount_le]
        intro i hi
        rw [(received_of_reachable hs).bits (by simp [hk]) ⟨i, hi⟩, hreceive ⟨i, hi⟩]
        rfl
      simp [DispatchConfig.clientStep, hk, hbits] at hnone
  | deleteThread j =>
      simp only [DispatchConfig.clientStep, hk] at hnone
      split at hnone <;> cases hnone
  | _ => simp [DispatchConfig.clientStep, hk] at hnone

/-- A state that nobody changes is the end of the program; if the queue is not deleted, nothing
is left in it and every worker waits for a task. -/
theorem completed_of_quiescent (hd : d.program.Disciplined) (hflags : d.program.FlagsAgree)
    (hlast : d.DeletesLast) (hs : d.system.Reachable s) (hquiet : d.system.Quiescent s) :
    s.Ended d ∧ (.delete ∉ d.prog → s.xQueue = [] ∧ ∀ i, s.worker i = .receive) := by
  have hidle : ¬ s.Ended d ∨ .delete ∉ d.prog →
      s.xQueue = [] ∧ ∀ i, s.worker i = .receive := by
    intro hopen
    have hreceive := fun i => receive_of_stuck hd hflags hs
      (alive_of_quiescent hlast hs hquiet hopen i) (workerStep_of_quiescent hquiet i)
    exact ⟨(hreceive ⟨0, d.threadCount_pos⟩).2, fun i => (hreceive i).1⟩
  refine ⟨?_, fun hdelete => hidle (Or.inr hdelete)⟩
  by_contra hopen
  rcases hidle (Or.inl hopen) with ⟨hqueue, hreceive⟩
  rcases clientStep_of_quiescent hs hquiet with ⟨-, hne⟩ | hnone
  · exact hne hqueue
  · exact hopen (ended_of_idle hd hflags hlast hs hqueue hreceive hnone)

/-- What has returned at the end, when the queue is not deleted. -/
theorem returned_of_ended (hd : d.program.Disciplined) (hflags : d.program.FlagsAgree)
    (hs : d.system.Reachable s) (hended : s.Ended d) (hqueue : s.xQueue = [])
    (hidle : ∀ i, s.worker i = .receive) :
    s.history.returned.Perm (d.program.submitted d.prog.length) := by
  rw [List.perm_iff_count]
  intro t
  have hweight : tally (WorkerPc.weight t) s.worker = 0 := by
    rw [tally_eq_zero_iff]
    intro i
    rw [hidle i]
    rfl
  have hcount := (received_of_reachable hs).count t
  rw [sent_of_ready hd hflags hs hended.1, hended.2, hqueue, hweight, List.count_nil] at hcount
  omega

/-- What was added and has returned is completed. -/
theorem completed_of_returned (hd : d.program.Disciplined) (hflags : d.program.FlagsAgree)
    (hs : d.system.Reachable s) (hready : s.client = .ready)
    (hall : ∀ t ∈ d.program.submitted s.ip, t ∈ s.history.returned) :
    Completed d.program s.ip d.user (N = 1) s.user := by
  rcases hs.traced poolEvents with ⟨tr, htraced⟩
  rcases poolHistory_of_traced htraced with ⟨hsubmitted, hfinished⟩
  rw [sent_of_ready hd hflags hs hready] at hsubmitted
  exact completed_of_pool hd (pool_of_traced htraced) hsubmitted (hfinished ▸ hall)

end Quiescent

/-- Every program completes.  A client follows the rules and deletes the dispatch queue last, if
at all.  From every reachable state, a schedule that gives every thread a turn in each of as
many rounds as the program has steps leads to a state in which the client has made all its
calls.  Unless it deletes the queue, the queue is then empty, every worker waits for a task,
every task that was added has returned once, and the user state is the one that performing
each task at its call leads to, if there is one worker or if the functions commute. -/
theorem rtos_completes (d : DispatchConfig N β υ) {ts gs as : List Nat}
    (hbuilt : Built d.heap ts gs as) (hgroups : ∀ g, .groupAdd g ∈ d.prog → g ∈ gs)
    (hd : d.program.Disciplined) (hlast : d.DeletesLast) {s s' : State N β υ}
    (hs : d.system.Reachable s) {rounds : List (List (Party N))}
    (hrounds : System.Rounds rounds) (hlength : d.steps ≤ rounds.length)
    (hs' : d.system.attempts s rounds.flatten = s') :
    s'.Ended d ∧ (.delete ∉ d.prog → s'.xQueue = [] ∧ (∀ i, s'.worker i = .receive) ∧
      s'.history.returned.Perm (d.program.submitted d.prog.length) ∧
      (N = 1 → s'.user = d.program.sequential d.prog.length d.user) ∧
      (d.program.Commuting d.prog.length →
        s'.user = d.program.sequential d.prog.length d.user)) := by
  subst hs'
  have hflags := Program.flagsAgree_of_built (p := d.program) hbuilt hgroups
  have hdescending := descending_budget d
  have hbudget : d.budget s ≤ rounds.length :=
    (hdescending.le_init hs).trans (by rw [budget_init]; exact hlength)
  have hreachable := hs.attempts rounds.flatten
  have hquiet := hdescending.quiescent_of_rounds hs hrounds hbudget
  rcases completed_of_quiescent hd hflags hlast hreachable hquiet with ⟨hended, hidle⟩
  refine ⟨hended, fun hdelete => ?_⟩
  rcases hidle hdelete with ⟨hqueue, hreceive⟩
  have hperm := returned_of_ended hd hflags hreachable hended hqueue hreceive
  have hcompleted := completed_of_returned hd hflags hreachable hended.1 fun t ht =>
    hperm.symm.subset (hended.2 ▸ ht)
  rw [hended.2] at hcompleted
  exact ⟨hqueue, hreceive, hperm, hcompleted.eq_sequential⟩

/-! ## A group of two functions -/

/-- The worker and the client take turns. -/
def twoFunctionsRounds : List (List (Party 1)) :=
  List.replicate 32 [.worker 0, .client]

theorem twoFunctionsRounds_rounds : System.Rounds twoFunctionsRounds := by
  intro round hround a
  rw [List.eq_of_mem_replicate hround]
  cases a with
  | client => simp
  | worker i => simp [Subsingleton.elim i 0]

theorem twoFunctions_deletesLast : twoFunctions.DeletesLast := by
  rintro (_ | _ | j) hj <;> cases hj

/-- The state in which the rounds end. -/
def twoFunctionsEnd : State 1 Unit Nat :=
  twoFunctions.system.attempts twoFunctions.system.init twoFunctionsRounds.flatten

/-- The client adds the group and waits for it, and everything that was added has run. -/
theorem rtos_completes_twoFunctions :
    twoFunctionsEnd.Ended twoFunctions ∧ twoFunctionsEnd.xQueue = [] ∧
      (∀ i, twoFunctionsEnd.worker i = .receive) ∧
      twoFunctionsEnd.history.returned.Perm (twoFunctions.program.submitted 2) ∧
      twoFunctionsEnd.user = twoFunctions.program.sequential 2 3 := by
  have h := rtos_completes twoFunctions (twoFunctionsHeap_built Nat) groupCalls_groups
    (twoFunctions_disciplined Nat) twoFunctions_deletesLast System.Reachable.init
    twoFunctionsRounds_rounds (by decide) (rfl : _ = twoFunctionsEnd)
  rcases h.2 (by decide) with ⟨hqueue, hworkers, hreturned, huser, -⟩
  exact ⟨h.1, hqueue, hworkers, hreturned, huser rfl⟩

end Rtos
end LibDispatch
