import LibDispatch.Rtos.Resources
import Mathlib.Data.List.Flatten

/-!
# Creating, using and deleting FreeRTOS dispatch queues

A cycle creates a dispatch queue, adds tasks and groups, waits once for each waitable task and
for each waitable group that has a task, lets the other tasks run, and deletes the dispatch
queue.  Its ledger is exact: what is left over are the objects of the client's groups, and three
kinds of blocks that nobody releases.

- The {lit}`dispatch_freertos_queue_t` of {lit}`dispatch_queue_create`.  On bare metal the sibling
  {lit}`dispatch_queue_delete` frees it.
- The counter and the semaphore of a waitable group without a task: there is no task from which
  a wait could read the counter.
- A task that is not waitable and whose worker was deleted after it had run the task and before
  it deleted it.

Main results:

- Theorem {lit}`Cycle.replay_ledger`: what a cycle leaves over.
- Theorem {lit}`Cycle.released_once`: it releases no block twice.
- Theorem {lit}`dispatch_cycles_leak`: what a sequence of cycles leaves over, and that only the
  empty sequence leaves over what it should.
-/

namespace LibDispatch
namespace Rtos

open Resources

variable {N : Nat} {β υ : Type}

/-! ## Cycles -/

/-- A dispatch queue from {lit}`dispatch_queue_create` to the return of
{lit}`dispatch_queue_delete`, in any interleaving. -/
structure Cycle (β υ : Type) where
  threadCount : Nat
  d : DispatchConfig threadCount β υ
  /-- The tasks and groups that the client has created for the cycle. -/
  tasks : List Nat
  groups : List Nat
  members : List Nat
  built : Built d.heap tasks groups members
  groups_built : ∀ g, .groupAdd g ∈ d.prog → g ∈ groups
  tasks_added : ∀ t, t ∈ tasks ↔ t ∈ d.prog.flatMap (DispatchCall.tasks d.heap)
  disciplined : d.program.Disciplined
  /-- The client waits for what can be waited for. -/
  waited : ∀ jp call, d.prog[jp]? = some call → call.createsCounter d.heap = true →
    call.tasks d.heap ≠ [] → ∃ w ts, d.program.Awaits w jp ts
  /-- What it calls before it deletes the dispatch queue. -/
  calls : List DispatchCall
  calls_delete : .delete ∉ calls
  prog_eq : d.prog = calls ++ [.delete]
  s : State threadCount β υ
  events : List (Event Block)
  run : d.system.Traced d.ledgerEvents s events
  finished : s.ip = d.prog.length
  /-- The other tasks have been executed. -/
  executed : ∀ t ∈ tasks, (d.heap.task t).waitable = false → t ∈ s.history.returned

namespace Cycle

variable (c : Cycle β υ)

/-- All allocations and releases of a cycle. -/
def ledger : List (Event Block) :=
  (createdBlocks c.threadCount ++ preparedBlocks c.tasks c.groups).map .acquire ++ c.events

/-- The {lit}`i`-th call adds a waitable group without a task. -/
def addsEmptyGroup (i : Nat) : Bool :=
  match c.d.prog[i]? with
  | some (.groupAdd g) => (c.d.heap.group g).waitable && (c.d.heap.group g).tasks.isEmpty
  | _ => false

/-- The task is not waitable, and a worker was deleted between its return and its deletion. -/
def Stranded (t : Nat) : Prop :=
  (c.d.heap.task t).waitable = false ∧
    ∃ i, c.s.worker i = .testWaitable t ∨ c.s.worker i = .delete t

instance (t : Nat) : Decidable (c.Stranded t) := by
  unfold Stranded
  infer_instance

/-- What the client has created for itself. -/
def callersGroups : Ledger Block
  | .group g | .slots g => decide (g ∈ c.groups)
  | _ => false

/-- What is left over. -/
def left : Ledger Block
  | .dispatchQueue => true
  | .counter i | .semaphore i => c.addsEmptyGroup i
  | .task t => decide (c.Stranded t)
  | .group g | .slots g => decide (g ∈ c.groups)
  | _ => false

variable {c}

/-- The flags of the groups agree. -/
theorem flags : c.d.program.FlagsAgree :=
  Program.flagsAgree_of_built c.built c.groups_built

/-- The dispatch queue is deleted by the last call. -/
theorem delete_iff (i : Nat) : c.d.prog[i]? = some .delete ↔ i = c.calls.length := by
  rw [c.prog_eq, List.getElem?_append]
  split
  · rename_i hlt
    refine iff_of_false (fun h => c.calls_delete (List.mem_of_getElem? h)) (by omega)
  · rename_i hge
    rw [List.getElem?_singleton]
    split
    · rename_i hzero
      exact iff_of_true rfl (by omega)
    · rename_i hne
      exact iff_of_false (by simp) (by omega)

theorem prepared : Prepared c.d c.calls.length c.tasks :=
  ⟨c.disciplined, flags, delete_iff, c.tasks_added⟩

theorem reachable : c.d.system.Reachable c.s :=
  c.run.reachable

/-- Everything else that {lit}`dispatch_queue_create` has allocated is released. -/
theorem objects_released (o : Object c.threadCount) :
    c.s.released o = decide (o ≠ .dispatchQueue) := by
  have hlt : c.calls.length < c.s.ip := by
    rw [c.finished, c.prog_eq]
    simp
  rw [(objects_of_reachable delete_iff reachable).released o]
  simp [hlt]

/-- A task is left over when it is stranded. -/
theorem task_left (t : Nat) : (t ∈ c.tasks ∧ t ∉ c.s.history.taskFreed) ↔ c.Stranded t := by
  have hinv := clientInv_of_reachable c.disciplined flags (reachable (c := c))
  have hcount := finished_of_reachable c.disciplined flags (reachable (c := c)) t
  have hle := returned_count_le c.disciplined flags (reachable (c := c)) t
  cases hw : (c.d.heap.task t).waitable with
  | true =>
      refine iff_of_false ?_ fun h => ?_
      · rintro ⟨ht, hnot⟩
        rcases List.mem_flatMap.mp ((c.tasks_added t).mp ht) with ⟨call, hmem, htasks⟩
        rcases List.getElem?_of_mem hmem with ⟨jp, hjp⟩
        have hcreates := (flags.createsCounter_iff hjp htasks).mpr hw
        rcases c.waited jp call hjp hcreates (List.ne_nil_of_mem htasks) with ⟨w, ts, hawaits⟩
        rcases c.disciplined.awaits_call hawaits with ⟨add, hadd, hts, -⟩
        cases Option.some.inj (hjp.symm.trans hadd)
        rcases hawaits.awaited with ⟨call', hcall', hwts⟩
        have hlt : w < c.s.ip := by
          rw [c.finished]
          exact (List.getElem?_eq_some_iff.mp hcall').1
        have hmem : t ∈ DispatchCall.awaited c.d.heap call' := by
          change t ∈ DispatchCall.awaited c.d.program.heap call'
          rw [hwts, ← hts]
          exact htasks
        have hfreed := hinv.returned_task hcall' hmem hlt
        have hmem : t ∈ c.s.history.taskFreed.filter fun t => (c.d.heap.task t).waitable :=
          List.count_pos_iff.mp (Nat.lt_of_lt_of_eq Nat.one_pos hfreed.symm)
        exact hnot (List.mem_filter.mp hmem).1
      · rw [h.1] at hw
        cases hw
  | false =>
      have hcount := hcount hw
      have htally : 0 < tally (WorkerPc.finished t) c.s.worker ↔
          ∃ i, c.s.worker i = .testWaitable t ∨ c.s.worker i = .delete t := by
        rw [tally_pos_iff]
        exact exists_congr fun _ => WorkerPc.finished_pos_iff
      rw [Stranded, hw, ← htally, and_iff_right rfl]
      constructor
      · rintro ⟨ht, hnot⟩
        have hpos := List.count_pos_iff.mpr (c.executed t ht hw)
        rw [List.count_eq_zero.mpr hnot] at hcount
        omega
      · intro hpos
        have hreturned : t ∈ c.s.history.returned := List.count_pos_iff.mp (by omega)
        refine ⟨(c.tasks_added t).mpr
          (submitted_of_returned c.disciplined flags reachable hreturned), fun hmem => ?_⟩
        have hfreed := List.count_pos_iff.mpr hmem
        omega

/-- The counter of a call is left over when the call adds an empty group. -/
theorem counter_left (i : Nat) :
    (c.d.created c.s i && decide (i ∉ c.s.history.counterFreed)) = c.addsEmptyGroup i := by
  have hinv := clientInv_of_reachable c.disciplined flags (reachable (c := c))
  cases hcall : c.d.prog[i]? with
  | none => simp [DispatchConfig.created, addsEmptyGroup, hcall]
  | some call =>
      have hlt : i < c.s.ip := by
        rw [c.finished]
        exact (List.getElem?_eq_some_iff.mp hcall).1
      have hcreated : c.d.created c.s i = call.createsCounter c.d.heap := by
        simp [DispatchConfig.created, hcall, hlt]
      have hfreed : i ∈ c.s.history.counterFreed → call.tasks c.d.heap ≠ [] := by
        intro hmem
        rcases (hinv.counterFreed i).mp hmem with ⟨w, ts, rest, hawaits, -⟩
        rcases c.disciplined.awaits_call hawaits with ⟨add, hadd, rfl, -, hne⟩
        cases Option.some.inj (hcall.symm.trans hadd)
        exact hne
      have hwaited : call.createsCounter c.d.heap = true → call.tasks c.d.heap ≠ [] →
          i ∈ c.s.history.counterFreed := by
        intro hcreates hne
        rcases c.waited i call hcall hcreates hne with ⟨w, ts, hawaits⟩
        rcases hawaits.awaited with ⟨call', hcall', -⟩
        have hw : w < c.s.ip := by
          rw [c.finished]
          exact (List.getElem?_eq_some_iff.mp hcall').1
        have hone := hinv.returned_counter hawaits hw
        exact List.count_pos_iff.mp (Nat.lt_of_lt_of_eq Nat.one_pos hone.symm)
      rw [hcreated]
      cases call with
      | taskAdd t =>
          have hne : DispatchCall.tasks c.d.heap (.taskAdd t) ≠ [] := by
            simp [DispatchCall.tasks]
          cases hw : DispatchCall.createsCounter c.d.heap (.taskAdd t) with
          | false => simp [addsEmptyGroup, hcall]
          | true => simp [addsEmptyGroup, hcall, hwaited hw hne]
      | groupAdd g =>
          simp only [addsEmptyGroup, hcall]
          cases hw : (c.d.heap.group g).waitable with
          | false => simp [DispatchCall.createsCounter, hw]
          | true =>
              by_cases hne : (c.d.heap.group g).tasks = []
              · have hnot : i ∉ c.s.history.counterFreed := fun hmem => hfreed hmem hne
                simp [DispatchCall.createsCounter, hw, hne, hnot]
              · simp [DispatchCall.createsCounter, hw, hne, hwaited hw hne]
      | _ => simp [DispatchCall.createsCounter, addsEmptyGroup, hcall]

/-- No semaphore is left without its counter. -/
theorem semaphores_deleted : c.s.history.semaphoreDeleted = c.s.history.counterFreed := by
  have hinv := clientInv_of_reachable c.disciplined flags (reachable (c := c))
  have hsemaphores := semaphores_of_reachable (reachable (c := c))
  have hend : c.d.program.calls[(c.d.clientState c.s).ip]? = none :=
    List.getElem?_eq_none_iff.mpr (Nat.le_of_eq c.finished.symm)
  rw [hsemaphores]
  cases hk : c.s.client with
  | freeCounter i ts =>
      have hposition := hinv.position
      have hphase : (c.d.clientState c.s).phase = .releasing i ts := by
        change c.d.phase c.s.ip c.s.client = _
        rw [hk]
        rfl
      simp only [ClientState.At, hphase] at hposition
      rcases hposition with ⟨call, -, hcall, -⟩
      rw [hend] at hcall
      cases hcall
  | _ => exact List.append_nil _

/-- What is live when the cycle is over. -/
theorem live_eq_left : c.d.live c.tasks c.groups c.s = c.left := by
  funext b
  cases b with
  | thread i =>
      simp only [DispatchConfig.live, left]
      split
      · rw [objects_released]
        rfl
      · rfl
  | task t => exact decide_eq_decide.mpr (task_left t)
  | counter i => exact counter_left i
  | semaphore i =>
      simp only [DispatchConfig.live, left, semaphores_deleted]
      exact counter_left i
  | group g => rfl
  | slots g => rfl
  | _ =>
      simp only [DispatchConfig.live, objects_released]
      rfl

/-- The events of a cycle can be replayed, and this is what it leaves over. -/
theorem replay_ledger (c : Cycle β υ) : replay (fun _ => false) c.ledger = some c.left := by
  rw [ledger, replay_append_eq
    (replay_prepared (d := c.d) c.built.tasks_nodup c.built.groups_nodup), ← live_eq_left]
  exact replay_of_traced prepared c.run

/-- No block is allocated twice, and none is released twice. -/
theorem released_once (c : Cycle β υ) (b : Block) : c.ledger.count (.release b) ≤ 1 := by
  have hconserved := replay_conserved c.replay_ledger b
  have hacquired : c.ledger.count (.acquire b) ≤ 1 := by
    have hnodup := nodup_blocks (N := c.threadCount) c.built.tasks_nodup c.built.groups_nodup
    have hinj : Function.Injective (Event.acquire : Block → Event Block) :=
      fun _ _ h => Event.acquire.inj h
    have hblocks := List.nodup_iff_count_le_one.mp hnodup b
    rw [ledger, List.count_append, List.count_map_of_injective _ _ hinj,
      acquired_of_traced c.run b]
    cases hmade : c.d.made c.s b with
    | false => simpa using hblocks
    | true =>
        have hnot : b ∉ createdBlocks c.threadCount ++ preparedBlocks c.tasks c.groups := by
          intro hmem
          cases b with
          | counter i => simp [mem_createdBlocks, mem_preparedBlocks] at hmem
          | semaphore i => simp [mem_createdBlocks, mem_preparedBlocks] at hmem
          | _ => cases hmade
        rw [List.count_eq_zero.mpr hnot]
        exact Nat.le_refl 1
  simp only [Bool.toNat_false, Nat.zero_add] at hconserved
  omega

end Cycle

/-! ## Sequences of cycles -/

variable {ω : Type}

/-- The allocations and releases of cycles that follow each other.  Blocks of different cycles
are different, and different from the blocks {lit}`ω` of the rest of the program. -/
def cyclesLedger (ω : Type) (cs : List (Cycle β υ)) : List (Event (ω ⊕ Nat × Block)) :=
  cs.zipIdx.flatMap fun x => x.1.ledger.map (Event.map fun b => .inr (x.2, b))

/-- The ledger of the rest of the program, and of each cycle the part that {lit}`kept` names. -/
def ledgerWith (kept : Cycle β υ → Ledger Block) (before : Ledger ω) (cs : List (Cycle β υ)) :
    Ledger (ω ⊕ Nat × Block)
  | .inl x => before x
  | .inr (k, b) => (cs[k]?).elim false fun c => kept c b

/-- The ledger after the cycles is the one before them and the groups of the client. -/
def Neutral [DecidableEq ω] (before : Ledger ω) (cs : List (Cycle β υ)) : Prop :=
  replay (ledgerWith Cycle.callersGroups before ([] : List (Cycle β υ))) (cyclesLedger ω cs) =
    some (ledgerWith Cycle.callersGroups before cs)

/-- Without a cycle nothing is kept. -/
theorem ledgerWith_nil (kept kept' : Cycle β υ → Ledger Block) (before : Ledger ω) :
    ledgerWith kept before [] = ledgerWith kept' before [] := by
  funext x
  cases x with
  | inl x => rfl
  | inr x => simp [ledgerWith]

/-- One cycle more. -/
theorem cyclesLedger_append (cs : List (Cycle β υ)) (c : Cycle β υ) :
    cyclesLedger ω (cs ++ [c]) = cyclesLedger ω cs ++
      c.ledger.map (Event.map fun b => .inr (cs.length, b)) := by
  simp [cyclesLedger, List.zipIdx_append]

theorem inr_injective (k : Nat) :
    Function.Injective fun b : Block => (.inr (k, b) : ω ⊕ Nat × Block) :=
  fun _ _ h => (Prod.ext_iff.mp (Sum.inr.inj h)).2

/-- The ledger after any number of cycles. -/
theorem replay_cyclesLedger [DecidableEq ω] (before : Ledger ω) (cs : List (Cycle β υ)) :
    replay (ledgerWith Cycle.left before ([] : List (Cycle β υ))) (cyclesLedger ω cs) =
      some (ledgerWith Cycle.left before cs) := by
  induction cs using List.reverseRecOn with
  | nil => rfl
  | append_singleton cs c ih =>
      have hnone : ∀ b, ledgerWith Cycle.left before cs (.inr (cs.length, b)) = false := by
        intro b
        simp [ledgerWith]
      rcases replay_map (inr_injective cs.length) hnone c.replay_ledger with
        ⟨after, hreplay, hself, hother⟩
      rw [cyclesLedger_append, replay_append_eq ih, hreplay]
      congr 1
      funext x
      cases x with
      | inl x => exact hother _ (by simp)
      | inr x =>
          rcases x with ⟨k, b⟩
          by_cases hk : k = cs.length
          · subst hk
            rw [hself b]
            simp [ledgerWith]
          · rw [hother _ fun b' heq => hk (Prod.ext_iff.mp (Sum.inr.inj heq)).1.symm]
            simp only [ledgerWith, List.getElem?_append]
            split
            · rfl
            · rw [List.getElem?_eq_none (by omega), List.getElem?_eq_none (by simp; omega)]

/-- The events of a cycle are about its own blocks. -/
theorem index_of_release {cs : List (Cycle β υ)} {x : ω ⊕ Nat × Block}
    (h : .release x ∈ cyclesLedger ω cs) : ∃ k < cs.length, ∃ b, x = .inr (k, b) := by
  rcases List.mem_flatMap.mp h with ⟨⟨c, k⟩, hc, he⟩
  rcases List.mem_map.mp he with ⟨e, -, he⟩
  have hlt := List.snd_lt_of_mem_zipIdx hc
  cases e with
  | acquire b => cases he
  | release b => exact ⟨k, hlt, b, (Event.release.inj he).symm⟩

/-- No block is released twice, in whatever cycle. -/
theorem cyclesLedger_released_once [DecidableEq ω] (cs : List (Cycle β υ))
    (x : ω ⊕ Nat × Block) : (cyclesLedger ω cs).count (.release x) ≤ 1 := by
  induction cs using List.reverseRecOn with
  | nil => exact Nat.zero_le 1
  | append_singleton cs c ih =>
      rw [cyclesLedger_append, List.count_append]
      by_cases hx : ∃ b, x = .inr (cs.length, b)
      · rcases hx with ⟨b, rfl⟩
        have hold : (cyclesLedger ω cs).count (.release (.inr (cs.length, b))) = 0 := by
          refine List.count_eq_zero.mpr fun hmem => ?_
          rcases index_of_release hmem with ⟨k, hk, b', heq⟩
          have hk' := (Prod.ext_iff.mp (Sum.inr.inj heq)).1
          simp only at hk'
          omega
        have hinj : Function.Injective fun b : Block => (.inr (cs.length, b) : ω ⊕ Nat × Block) :=
          inr_injective cs.length
        have hnew := List.count_map_of_injective c.ledger _ (Event.map_injective hinj) (.release b)
        rw [hold, Nat.zero_add]
        exact hnew.trans_le (c.released_once b)
      · have hnew : (c.ledger.map (Event.map fun b =>
            (.inr (cs.length, b) : ω ⊕ Nat × Block))).count (.release x) = 0 := by
          refine List.count_eq_zero.mpr fun hmem => ?_
          rcases List.mem_map.mp hmem with ⟨e, -, he⟩
          cases e with
          | acquire b => cases he
          | release b => exact hx ⟨b, (Event.release.inj he).symm⟩
        rw [hnew]
        exact ih

/-- The dispatch queue of a cycle is left over, and no group of a client. -/
theorem not_neutral [DecidableEq ω] (before : Ledger ω) {cs : List (Cycle β υ)} (hne : cs ≠ []) :
    ¬ Neutral before cs := by
  intro h
  have hleft := replay_cyclesLedger before cs
  rw [ledgerWith_nil Cycle.left Cycle.callersGroups, show _ = _ from h, Option.some.injEq] at hleft
  have hqueue := congrFun hleft (.inr (0, .dispatchQueue))
  cases cs with
  | nil => exact hne rfl
  | cons c cs => cases hqueue

/-- Any number of create, use and delete cycles, one after the other, in any interleaving of
their threads: no block is released twice or without being live; what is left over is, for each
cycle, the groups of the client, the dispatch queue, the counters of its empty groups and the
tasks of workers that were deleted too early; and this is the ledger before with the groups of
the client for the empty sequence only. -/
theorem dispatch_cycles_leak [DecidableEq ω] (before : Ledger ω) (cs : List (Cycle β υ)) :
    replay (ledgerWith Cycle.left before ([] : List (Cycle β υ))) (cyclesLedger ω cs) =
      some (ledgerWith Cycle.left before cs) ∧
    (∀ x, (cyclesLedger ω cs).count (.release x) ≤ 1) ∧
    (Neutral before cs ↔ cs = []) := by
  refine ⟨replay_cyclesLedger before cs, cyclesLedger_released_once cs, ?_⟩
  constructor
  · intro h
    by_contra hne
    exact not_neutral before hne h
  · rintro rfl
    rfl

/-! ## A group of one function -/

/-- One worker, and a client that adds a group of one function, waits for it and deletes the
dispatch queue. -/
def oneFunctionDelete : DispatchConfig 1 Unit Nat where
  length := 1
  length_pos := Nat.one_pos
  threadCount_pos := Nat.one_pos
  threadCount_le := one_le_width
  prog := groupCalls ++ [.delete]
  heap := oneFunctionHeap Nat
  user := 0

/-- The client adds the group, the worker runs the function and is back at its receive, the wait
returns, and the client deletes the dispatch queue. -/
def oneFunctionDeleteSchedule : List (Party 1) :=
  List.flatten [List.replicate 6 .client, List.replicate 8 (.worker 0),
    List.replicate 12 .client]

theorem oneFunctionDelete_run : (oneFunctionDelete.system.run oneFunctionDelete.system.init
    oneFunctionDeleteSchedule).isSome = true := by
  decide +kernel

/-- The cycle. -/
def oneFunctionCycle : Cycle Unit Nat where
  threadCount := 1
  d := oneFunctionDelete
  tasks := [0]
  groups := [0]
  members := [0]
  built := oneFunctionHeap_built Nat
  groups_built := by
    intro g hg
    refine groupCalls_groups g ?_
    simpa [oneFunctionDelete] using hg
  tasks_added _ := Iff.rfl
  disciplined := (oneFunction_disciplined Nat).thenDelete
  waited := by
    rintro (_ | _ | _ | jp) call hcall hcreates hne
    · exact ⟨1, _, Or.inr ⟨0, rfl, rfl, rfl⟩⟩
    · cases hcall
      cases hcreates
    · cases hcall
      cases hcreates
    · cases hcall
  calls := groupCalls
  calls_delete := by decide
  prog_eq := rfl
  s := (oneFunctionDelete.system.run oneFunctionDelete.system.init
    oneFunctionDeleteSchedule).get oneFunctionDelete_run
  events := oneFunctionDelete.system.history oneFunctionDelete.ledgerEvents
    oneFunctionDelete.system.init oneFunctionDeleteSchedule
  run := oneFunctionDelete.system.traced_get_run _ _ oneFunctionDelete_run
  finished := by decide +kernel
  executed := by decide +kernel

/-- After one cycle the dispatch queue is live. -/
theorem dispatch_cycle_leaks : ¬ Neutral (fun _ : Unit => false) [oneFunctionCycle] :=
  not_neutral _ (by simp)

/-- After two cycles there are two of them. -/
theorem dispatch_cycles_leak_oneFunction :
    replay (ledgerWith Cycle.left (fun _ : Unit => false) ([] : List (Cycle Unit Nat)))
        (cyclesLedger Unit [oneFunctionCycle, oneFunctionCycle]) =
      some (ledgerWith Cycle.left (fun _ => false) [oneFunctionCycle, oneFunctionCycle]) ∧
    ¬ Neutral (fun _ : Unit => false) [oneFunctionCycle, oneFunctionCycle] :=
  have h := dispatch_cycles_leak (fun _ : Unit => false) [oneFunctionCycle, oneFunctionCycle]
  ⟨h.1, fun hneutral => absurd (h.2.2.mp hneutral) (by simp)⟩

end Rtos
end LibDispatch
