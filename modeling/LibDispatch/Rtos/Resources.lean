import LibDispatch.Library.Resources
import LibDispatch.Rtos.Releases

/-!
# The ledger of the FreeRTOS dispatch queue

A client creates a dispatch queue, prepares tasks and groups, adds them, waits, and deletes the
dispatch queue.  Each allocation and each release of heap blocks and kernel objects is an event
of a ledger.  The events of a cycle can be replayed, so nothing is released twice and nothing is
released that was not allocated; and the ledger after it tells what is left over.

{lit}`dispatch_queue_delete` releases the threads, the two arrays, the event group and the queue,
and not the {lit}`dispatch_freertos_queue_t` that {lit}`dispatch_queue_create` has allocated.

Main results:

- Theorem {lit}`ledger_step`: a step changes the ledger as its events say.
- Theorem {lit}`replay_of_traced`: the events of a run.
- Theorem {lit}`Cycle.replay_ledger`: what a cycle leaves over.
- Theorem {lit}`dispatch_cycles_leak`: no sequence of cycles but the empty one is neutral.
-/

namespace LibDispatch
namespace Rtos

open Resources

variable {N : Nat} {β υ : Type}

/-! ## Allocations and releases -/

/-- The heap blocks and kernel objects of a dispatch queue and of what is added to it.  Tasks and
groups go by their names, event counters by the call that creates them. -/
inductive Block where
  | dispatchQueue
  | xQueue
  | threads
  | workerData
  | xEventGroup
  | thread (i : Nat)
  | task (t : Nat)
  | counter (c : Nat)
  | semaphore (c : Nat)
  | group (g : Nat)
  /-- {lit}`group->tasks` -/
  | slots (g : Nat)
deriving DecidableEq, Repr

/-- What {lit}`dispatch_queue_create` allocates, in the order of its statements. -/
def createdBlocks (threadCount : Nat) : List Block :=
  [.dispatchQueue, .xQueue, .threads, .workerData, .xEventGroup] ++
    (List.range threadCount).map .thread

/-- What the functions that create tasks and groups allocate. -/
def preparedBlocks (tasks groups : List Nat) : List Block :=
  tasks.map .task ++ groups.flatMap fun g => [.group g, .slots g]

/-- What {lit}`event_counter_create` allocates in the {lit}`ip`-th call. -/
def counterBlocks (ip : Nat) : List Block :=
  [.counter ip, .semaphore ip]

/-- The allocations and releases of a step. -/
def DispatchConfig.ledgerEvents (d : DispatchConfig N β υ) (s : State N β υ) :
    Party N → List (Event Block)
  | .client =>
      match s.client with
      | .ready =>
          match d.prog[s.ip]? with
          | some call =>
              if call.createsCounter s.heap = true then (counterBlocks s.ip).map .acquire
              else []
          | none => []
      | .deleteSemaphore c _ => [.release (.semaphore c)]
      | .freeCounter c _ => [.release (.counter c)]
      | .deleteTasks (t :: _) => [.release (.task t)]
      | .deleteThread i => if i < N then [.release (.thread i)] else []
      | .freeWorkerData => [.release .workerData]
      | .freeThreads => [.release .threads]
      | .deleteEventGroup => [.release .xEventGroup]
      | .deleteQueue => [.release .xQueue]
      | _ => []
  | .worker i =>
      match s.worker i with
      | .delete t => [.release (.task t)]
      | _ => []

/-! ## The ledger of a state -/

/-- The {lit}`c`-th call has created its event counter. -/
def DispatchConfig.created (d : DispatchConfig N β υ) (s : State N β υ) (c : Nat) : Bool :=
  (d.prog[c]?).any (DispatchCall.createsCounter d.heap) &&
    (decide (c < s.ip) || (decide (c = s.ip) && !s.client.idle))

/-- What is live in a state, when the client has prepared the given tasks and groups. -/
def DispatchConfig.live (d : DispatchConfig N β υ) (tasks groups : List Nat)
    (s : State N β υ) : Ledger Block
  | .dispatchQueue => !s.released .dispatchQueue
  | .xQueue => !s.released .xQueue
  | .threads => !s.released .threads
  | .workerData => !s.released .workerData
  | .xEventGroup => !s.released .xEventGroup
  | .thread i => if h : i < N then !s.released (.thread ⟨i, h⟩) else false
  | .task t => decide (t ∈ tasks ∧ t ∉ s.history.taskFreed)
  | .counter c => d.created s c && decide (c ∉ s.history.counterFreed)
  | .semaphore c => d.created s c && decide (c ∉ s.history.semaphoreDeleted)
  | .group g | .slots g => decide (g ∈ groups)

section Steps

variable {d : DispatchConfig N β υ} {s s' : State N β υ} {i : Fin N} {n : Nat}
  {tasks groups : List Nat}

/-- Within a call no counter is created. -/
theorem created_within (hip : s'.ip = s.ip) (hidle : s'.client.idle = s.client.idle) (c : Nat) :
    d.created s' c = d.created s c := by
  rw [DispatchConfig.created, DispatchConfig.created, hip, hidle]

/-- Nor at the end of a call. -/
theorem created_ret (hip : s'.ip = s.ip + 1) (hidle : s.client.idle = false)
    (hidle' : s'.client.idle = true) (c : Nat) : d.created s' c = d.created s c := by
  have hlt : c < s.ip + 1 ↔ c < s.ip ∨ c = s.ip := by omega
  rw [DispatchConfig.created, DispatchConfig.created, hip, hidle, hidle']
  simp [hlt]

/-- A call that needs no counter creates none at its start. -/
theorem created_start {call : DispatchCall} (hcall : d.prog[s.ip]? = some call)
    (hnone : call.createsCounter d.heap = false) (hip : s'.ip = s.ip) (c : Nat) :
    d.created s' c = d.created s c := by
  rw [DispatchConfig.created, DispatchConfig.created, hip]
  by_cases hc : c = s.ip
  · subst hc
    simp [hcall, hnone]
  · simp [hc]

/-- The others create theirs. -/
theorem created_new {call : DispatchCall} (hcall : d.prog[s.ip]? = some call)
    (hcreates : call.createsCounter d.heap = true) (hip : s'.ip = s.ip)
    (hidle : s.client.idle = true) (hidle' : s'.client.idle = false) (c : Nat) :
    d.created s' c = (d.created s c || decide (c = s.ip)) ∧ d.created s s.ip = false := by
  rw [DispatchConfig.created, DispatchConfig.created, DispatchConfig.created, hip, hidle, hidle']
  by_cases hc : c = s.ip
  · subst hc
    simp [hcall, hcreates]
  · simp [hc]

/-- The ledger is a function of what is released, deleted and created. -/
theorem live_congr (hreleased : s'.released = s.released)
    (htask : s'.history.taskFreed = s.history.taskFreed)
    (hcounter : s'.history.counterFreed = s.history.counterFreed)
    (hsemaphore : s'.history.semaphoreDeleted = s.history.semaphoreDeleted)
    (hcreated : ∀ c, d.created s' c = d.created s c) :
    d.live tasks groups s' = d.live tasks groups s := by
  funext b
  cases b <;> simp only [DispatchConfig.live, hreleased, htask, hcounter, hsemaphore, hcreated]

/-! ## One kind of event at a time -/

/-- The block of an object. -/
def Object.block : Object N → Block
  | .dispatchQueue => .dispatchQueue
  | .xQueue => .xQueue
  | .threads => .threads
  | .workerData => .workerData
  | .xEventGroup => .xEventGroup
  | .thread i => .thread i

/-- The block of an object is live as long as the object is not released. -/
theorem live_block (o : Object N) : d.live tasks groups s o.block = !s.released o := by
  cases o with
  | thread i => simp [Object.block, DispatchConfig.live]
  | _ => rfl

/-- An object is released. -/
theorem replay_object (o : Object N) (hlive : s.released o = false)
    (hreleased : s'.released = Function.update s.released o true)
    (htask : s'.history.taskFreed = s.history.taskFreed)
    (hcounter : s'.history.counterFreed = s.history.counterFreed)
    (hsemaphore : s'.history.semaphoreDeleted = s.history.semaphoreDeleted)
    (hcreated : ∀ c, d.created s' c = d.created s c) :
    replay (d.live tasks groups s) [.release o.block] = some (d.live tasks groups s') := by
  refine replay_release (by rw [live_block, hlive]; rfl) ?_
  funext b
  by_cases hb : b = o.block
  · subst hb
    rw [live_block, hreleased]
    simp
  · rw [Function.update_of_ne hb]
    have hother : ∀ o' : Object N, o'.block = b → s'.released o' = s.released o' := by
      rintro o' rfl
      rw [hreleased]
      exact Function.update_of_ne (fun h => hb (congrArg Object.block h)) _ _
    cases b with
    | dispatchQueue => simp only [DispatchConfig.live, hother .dispatchQueue rfl]
    | xQueue => simp only [DispatchConfig.live, hother .xQueue rfl]
    | threads => simp only [DispatchConfig.live, hother .threads rfl]
    | workerData => simp only [DispatchConfig.live, hother .workerData rfl]
    | xEventGroup => simp only [DispatchConfig.live, hother .xEventGroup rfl]
    | thread j =>
        simp only [DispatchConfig.live]
        split
        · rename_i hj
          rw [hother (.thread ⟨j, hj⟩) rfl]
        · rfl
    | _ => simp only [DispatchConfig.live, htask, hcounter, hsemaphore, hcreated]

/-- A task is deleted. -/
theorem replay_task {t : Nat} (ht : t ∈ tasks) (hfresh : t ∉ s.history.taskFreed)
    (hreleased : s'.released = s.released)
    (htask : s'.history.taskFreed = s.history.taskFreed ++ [t])
    (hcounter : s'.history.counterFreed = s.history.counterFreed)
    (hsemaphore : s'.history.semaphoreDeleted = s.history.semaphoreDeleted)
    (hcreated : ∀ c, d.created s' c = d.created s c) :
    replay (d.live tasks groups s) [.release (.task t)] = some (d.live tasks groups s') := by
  refine replay_release (by simp [DispatchConfig.live, ht, hfresh]) ?_
  funext b
  cases b with
  | task t' =>
      by_cases heq : t' = t
      · simp [DispatchConfig.live, heq, htask]
      · simp [DispatchConfig.live, heq, htask]
  | _ =>
      rw [Function.update_of_ne (by simp)]
      simp only [DispatchConfig.live, hreleased, hcounter, hsemaphore, hcreated]

/-- A semaphore is deleted. -/
theorem replay_semaphore {c : Nat} (hc : d.created s c = true)
    (hfresh : c ∉ s.history.semaphoreDeleted) (hreleased : s'.released = s.released)
    (htask : s'.history.taskFreed = s.history.taskFreed)
    (hcounter : s'.history.counterFreed = s.history.counterFreed)
    (hsemaphore : s'.history.semaphoreDeleted = s.history.semaphoreDeleted ++ [c])
    (hcreated : ∀ c, d.created s' c = d.created s c) :
    replay (d.live tasks groups s) [.release (.semaphore c)] =
      some (d.live tasks groups s') := by
  refine replay_release (by simp [DispatchConfig.live, hc, hfresh]) ?_
  funext b
  cases b with
  | semaphore c' =>
      by_cases heq : c' = c
      · simp [DispatchConfig.live, heq, hsemaphore]
      · simp [DispatchConfig.live, heq, hsemaphore, hcreated]
  | _ =>
      rw [Function.update_of_ne (by simp)]
      simp only [DispatchConfig.live, hreleased, htask, hcounter, hcreated]

/-- A counter is freed. -/
theorem replay_counter {c : Nat} (hc : d.created s c = true)
    (hfresh : c ∉ s.history.counterFreed) (hreleased : s'.released = s.released)
    (htask : s'.history.taskFreed = s.history.taskFreed)
    (hcounter : s'.history.counterFreed = s.history.counterFreed ++ [c])
    (hsemaphore : s'.history.semaphoreDeleted = s.history.semaphoreDeleted)
    (hcreated : ∀ c, d.created s' c = d.created s c) :
    replay (d.live tasks groups s) [.release (.counter c)] =
      some (d.live tasks groups s') := by
  refine replay_release (by simp [DispatchConfig.live, hc, hfresh]) ?_
  funext b
  cases b with
  | counter c' =>
      by_cases heq : c' = c
      · simp [DispatchConfig.live, heq, hcounter]
      · simp [DispatchConfig.live, heq, hcounter, hcreated]
  | _ =>
      rw [Function.update_of_ne (by simp)]
      simp only [DispatchConfig.live, hreleased, htask, hsemaphore, hcreated]

/-- {lit}`event_counter_create`. -/
theorem replay_counterBlocks {call : DispatchCall} (hcall : d.prog[s.ip]? = some call)
    (hcreates : call.createsCounter d.heap = true) (hip : s'.ip = s.ip)
    (hidle : s.client.idle = true) (hidle' : s'.client.idle = false)
    (hfresh : s.ip ∉ s.history.counterFreed) (hfresh' : s.ip ∉ s.history.semaphoreDeleted)
    (hreleased : s'.released = s.released)
    (htask : s'.history.taskFreed = s.history.taskFreed)
    (hcounter : s'.history.counterFreed = s.history.counterFreed)
    (hsemaphore : s'.history.semaphoreDeleted = s.history.semaphoreDeleted) :
    replay (d.live tasks groups s) ((counterBlocks s.ip).map .acquire) =
      some (d.live tasks groups s') := by
  have hnew := fun c => created_new hcall hcreates hip hidle hidle' c
  rw [replay_acquires (by simp [counterBlocks])]
  · congr 1
    funext b
    cases b with
    | counter c =>
        simp only [DispatchConfig.live, (hnew c).1, hcounter, counterBlocks, List.mem_cons,
          Block.counter.injEq, reduceCtorEq, List.not_mem_nil, or_false]
        by_cases heq : c = s.ip
        · simp [heq, hfresh]
        · simp [heq]
    | semaphore c =>
        simp only [DispatchConfig.live, (hnew c).1, hsemaphore, counterBlocks, List.mem_cons,
          Block.semaphore.injEq, reduceCtorEq, List.not_mem_nil, or_false, false_or]
        by_cases heq : c = s.ip
        · simp [heq, hfresh']
        · simp [heq]
    | _ => simp [DispatchConfig.live, hreleased, htask, counterBlocks]
  · intro b hb
    simp only [counterBlocks, List.mem_cons, List.not_mem_nil, or_false] at hb
    rcases hb with rfl | rfl
    · simp [DispatchConfig.live, (hnew 0).2]
    · simp [DispatchConfig.live, (hnew 0).2]

/-! ## Steps -/

/-- The flags that decide on a counter are never changed. -/
theorem Static.createsCounter_eq (h : Static d s) (call : DispatchCall) :
    call.createsCounter s.heap = call.createsCounter d.heap := by
  cases call with
  | taskAdd t => exact h.waitable t
  | groupAdd g => simp only [DispatchCall.createsCounter, h.group]
  | _ => rfl

/-- The events at the start of a call. -/
theorem ledgerEvents_ready (h : Static d s) (hk : s.client = .ready) {call : DispatchCall}
    (hcall : d.prog[s.ip]? = some call) : d.ledgerEvents s .client =
      if call.createsCounter d.heap = true then (counterBlocks s.ip).map .acquire else [] := by
  simp only [DispatchConfig.ledgerEvents, hk, hcall, h.createsCounter_eq]

/-- What a client may rely on in a reachable state: its program follows the discipline, it
deletes the dispatch queue in its {lit}`n`-th call, and it has prepared what it adds. -/
structure Prepared (d : DispatchConfig N β υ) (n : Nat) (tasks : List Nat) : Prop where
  disciplined : d.program.Disciplined
  flags : d.program.FlagsAgree
  delete : ∀ i, d.prog[i]? = some .delete ↔ i = n
  tasks : ∀ t, t ∈ tasks ↔ t ∈ d.prog.flatMap (DispatchCall.tasks d.heap)

/-- A statement that starts a call and creates no counter. -/
theorem ledger_start (hs : d.system.Reachable s) (hk : s.client = .ready) {call : DispatchCall}
    (hcall : d.prog[s.ip]? = some call) (hnone : call.createsCounter d.heap = false)
    (hip : s'.ip = s.ip) (hreleased : s'.released = s.released)
    (hhistory : s'.history = s.history) :
    replay (d.live tasks groups s) (d.ledgerEvents s .client) =
      some (d.live tasks groups s') := by
  rw [ledgerEvents_ready (static_of_reachable hs) hk hcall, hnone]
  refine congrArg some (live_congr hreleased ?_ ?_ ?_ (created_start hcall hnone hip)).symm
  · rw [hhistory]
  · rw [hhistory]
  · rw [hhistory]

/-- A statement that starts a call and creates its counter. -/
theorem ledger_create (hp : Prepared d n tasks) (hs : d.system.Reachable s)
    (hk : s.client = .ready) {call : DispatchCall} (hcall : d.prog[s.ip]? = some call)
    (hcreates : call.createsCounter d.heap = true) (hip : s'.ip = s.ip)
    (hidle : s'.client.idle = false) (hreleased : s'.released = s.released)
    (hhistory : s'.history = s.history) :
    replay (d.live tasks groups s) (d.ledgerEvents s .client) =
      some (d.live tasks groups s') := by
  have hfresh : s.ip ∉ s.history.counterFreed := fun hmem => Nat.lt_irrefl s.ip
    ((clientInv_of_reachable hp.disciplined hp.flags hs).lt_of_counterFreed hp.disciplined hmem)
  have hsemaphores := semaphores_of_reachable hs
  rw [hk] at hsemaphores
  rw [ledgerEvents_ready (static_of_reachable hs) hk hcall, hcreates]
  refine replay_counterBlocks hcall hcreates hip (by rw [hk]; rfl) hidle hfresh ?_ hreleased
    ?_ ?_ ?_
  · rw [hsemaphores]
    simpa [ClientPc.halfDeleted] using hfresh
  · rw [hhistory]
  · rw [hhistory]
  · rw [hhistory]

/-- A statement that allocates and releases nothing. -/
theorem ledger_silent (hevents : d.ledgerEvents s .client = [])
    (hreleased : s'.released = s.released)
    (htask : s'.history.taskFreed = s.history.taskFreed)
    (hcounter : s'.history.counterFreed = s.history.counterFreed)
    (hsemaphore : s'.history.semaphoreDeleted = s.history.semaphoreDeleted)
    (hcreated : ∀ c, d.created s' c = d.created s c) :
    replay (d.live tasks groups s) (d.ledgerEvents s .client) =
      some (d.live tasks groups s') := by
  rw [hevents]
  exact congrArg some (live_congr hreleased htask hcounter hsemaphore hcreated).symm

/-- In {lit}`dispatch_queue_delete`, what is not released by its position is not released. -/
theorem Objects.not_released (h : Objects n s) (hdeleting : s.client.deleting = true)
    (o : Object N) (hgone : s.client.gone o = false) : s.released o = false := by
  have hidle : s.client.idle = false := by
    cases hk : s.client with
    | setReadyBits => simp [hk, ClientPc.deleting] at hdeleting
    | ready => simp [hk, ClientPc.deleting] at hdeleting
    | _ => rfl
  have hip := (h.deleting hidle).mp hdeleting
  rw [h.released o, hgone, hip]
  simp

/-- The counter that the client is to release was created by an earlier call. -/
theorem created_of_releasing (hp : Prepared d n tasks) (hs : d.system.Reachable s) {c : Nat}
    {ts : List Nat} (hk : (d.clientState s).phase = .releasing c ts) :
    d.created s c = true := by
  have hinv := clientInv_of_reachable hp.disciplined hp.flags hs
  rcases hinv.awaits_of_waiting (Or.inr hk) with ⟨ts', hawaits⟩
  have hlt : c < s.ip := hp.disciplined.awaits_lt hawaits
  rcases hp.disciplined.awaits_call hawaits with ⟨call, hcall, -, hcreates, -⟩
  have hcall' : d.prog[c]? = some call := hcall
  have hcreates' : call.createsCounter d.heap = true := hcreates
  simp [DispatchConfig.created, hcall', hcreates', hlt]

/-- A step of the client changes the ledger as its events say. -/
theorem ledger_client_step (hp : Prepared d n tasks) (hs : d.system.Reachable s)
    (hs' : d.system.Reachable s') (hstep : ClientStep d s s') :
    replay (d.live tasks groups s) (d.ledgerEvents s .client) =
      some (d.live tasks groups s') := by
  have hstatic := static_of_reachable hs
  have hinv := clientInv_of_reachable hp.disciplined hp.flags hs
  have hobjects := objects_of_reachable hp.delete hs
  have hevents : ∀ pc, s.client = pc →
      d.ledgerEvents s .client = d.ledgerEvents { s with client := pc } .client := by
    rintro pc rfl
    rfl
  have hphase : ∀ pc, s.client = pc → (d.clientState s).phase = d.phase s.ip pc := by
    rintro pc rfl
    rfl
  have hwithin : s'.ip = s.ip → s'.client.idle = s.client.idle →
      ∀ c, d.created s' c = d.created s c := fun hip hidle c => created_within hip hidle c
  cases hstep with
  | setReadyBits hk =>
      exact ledger_silent (hevents _ hk) rfl rfl rfl rfl (hwithin rfl (by rw [hk]; rfl))
  -- the start of a call
  | taskAddWaitable t hk hcall hw =>
      exact ledger_create hp hs hk hcall ((hstatic.waitable t).symm.trans hw) rfl rfl rfl rfl
  | groupAddWaitable g hk hcall hw =>
      refine ledger_create hp hs hk hcall ?_ rfl rfl rfl rfl
      rw [← hstatic.createsCounter_eq]
      exact hw
  | taskAddPlain t hk hcall hw =>
      exact ledger_start hs hk hcall ((hstatic.waitable t).symm.trans hw) rfl rfl rfl
  | groupAddPlain g hk hcall hw =>
      refine ledger_start hs hk hcall ?_ rfl rfl rfl
      rw [← hstatic.createsCounter_eq]
      exact hw
  | taskWait t c hk hcall _ _ => exact ledger_start hs hk hcall rfl rfl rfl rfl
  | groupWait g t c ts hk hcall _ _ _ => exact ledger_start hs hk hcall rfl rfl rfl rfl
  | wait hk hcall => exact ledger_start hs hk hcall rfl rfl rfl rfl
  | delete hk hcall => exact ledger_start hs hk hcall rfl rfl rfl rfl
  -- the end of a call
  | groupDone g i counter hk _ =>
      exact ledger_silent (hevents _ hk) rfl rfl rfl rfl
        (created_ret rfl (by rw [hk]; rfl) rfl)
  | deleteDone hk =>
      exact ledger_silent (hevents _ hk) rfl rfl rfl rfl
        (created_ret rfl (by rw [hk]; rfl) rfl)
  | waitBits hk _ =>
      exact ledger_silent (hevents _ hk) rfl rfl rfl rfl
        (created_ret rfl (by rw [hk]; rfl) rfl)
  | send t site hk _ =>
      cases site with
      | task =>
          exact ledger_silent (hevents _ hk) rfl rfl rfl rfl
            (created_ret rfl (by rw [hk]; rfl) rfl)
      | member g i counter =>
          exact ledger_silent (hevents _ hk) rfl rfl rfl rfl
            (hwithin rfl (by rw [hk]; rfl))
  -- the releases of a wait
  | deleteSemaphore c ts hk =>
      rw [hevents _ hk]
      have hfresh : c ∉ s.history.counterFreed :=
        hinv.not_freed_of_releasing hp.disciplined (hphase _ hk)
      have hsemaphores := semaphores_of_reachable hs
      rw [hk] at hsemaphores
      refine replay_semaphore (created_of_releasing hp hs (hphase _ hk)) ?_ rfl rfl rfl rfl
        (hwithin rfl (by rw [hk]; rfl))
      rw [hsemaphores]
      simpa [ClientPc.halfDeleted] using hfresh
  | freeCounter c ts hk =>
      rw [hevents _ hk]
      exact replay_counter (created_of_releasing hp hs (hphase _ hk))
        (hinv.not_freed_of_releasing hp.disciplined (hphase _ hk)) rfl rfl rfl rfl
        (hwithin rfl (by rw [hk]; rfl))
  | deleteTask t ts hk =>
      rw [hevents _ hk]
      rcases awaited_of_deleting hinv hk with ⟨c, ts', hawaits, ht⟩
      have hnodup := taskFreed_nodup hp.disciplined hp.flags hs'
      exact replay_task ((hp.tasks t).mpr (submitted_of_awaits hp.disciplined hawaits ht))
        (fun hmem => List.disjoint_of_nodup_append hnodup hmem (List.mem_singleton_self t))
        rfl rfl rfl rfl (hwithin rfl (by rw [hk]; rfl))
  -- the releases of `dispatch_queue_delete`
  | deleteThread i hi hk =>
      have hlive := hobjects.not_released (by rw [hk]; rfl) (.thread ⟨i, hi⟩)
        (by rw [hk]; simp [ClientPc.gone])
      rw [(hevents _ hk).trans (if_pos hi)]
      exact replay_object _ hlive rfl rfl rfl rfl (hwithin rfl (by rw [hk]; rfl))
  | threadsDeleted i hi hk =>
      exact ledger_silent ((hevents _ hk).trans (if_neg hi)) rfl rfl rfl rfl
        (hwithin rfl (by rw [hk]; rfl))
  | freeWorkerData hk =>
      rw [hevents _ hk]
      exact replay_object .workerData
        (hobjects.not_released (by rw [hk]; rfl) _ (by rw [hk]; rfl)) rfl rfl rfl rfl
        (hwithin rfl (by rw [hk]; rfl))
  | freeThreads hk =>
      rw [hevents _ hk]
      exact replay_object .threads
        (hobjects.not_released (by rw [hk]; rfl) _ (by rw [hk]; rfl)) rfl rfl rfl rfl
        (hwithin rfl (by rw [hk]; rfl))
  | deleteEventGroup hk =>
      rw [hevents _ hk]
      exact replay_object .xEventGroup
        (hobjects.not_released (by rw [hk]; rfl) _ (by rw [hk]; rfl)) rfl rfl rfl rfl
        (hwithin rfl (by rw [hk]; rfl))
  | deleteQueue hk =>
      rw [hevents _ hk]
      exact replay_object .xQueue
        (hobjects.not_released (by rw [hk]; rfl) _ (by rw [hk]; rfl)) rfl rfl rfl rfl
        (created_ret rfl (by rw [hk]; rfl) rfl)
  | _ =>
      have hk := (by assumption : s.client = _)
      exact ledger_silent (hevents _ hk) rfl rfl rfl rfl (hwithin rfl (by rw [hk]; rfl))

/-- A task in the hands of a worker that has run it was submitted. -/
theorem submitted_of_delete (hp : Prepared d n tasks) (hs : d.system.Reachable s) {t : Nat}
    (hk : s.worker i = .delete t) : t ∈ tasks := by
  have hplain := (static_of_reachable hs).delete i t hk
  have hcount := finished_of_reachable hp.disciplined hp.flags hs t hplain
  have hpos : 0 < tally (WorkerPc.finished t) s.worker := by
    rw [tally_pos_iff]
    exact ⟨i, by simp [hk, WorkerPc.finished]⟩
  have hreturned : t ∈ s.history.returned := List.count_pos_iff.mp (by omega)
  exact (hp.tasks t).mpr (submitted_of_returned hp.disciplined hp.flags hs hreturned)

/-- A step of a worker changes the ledger as its events say. -/
theorem ledger_worker_step (hp : Prepared d n tasks) (hs : d.system.Reachable s)
    (hs' : d.system.Reachable s') (hstep : WorkerStep s i s') :
    replay (d.live tasks groups s) (d.ledgerEvents s (.worker i)) =
      some (d.live tasks groups s') := by
  rcases hstep.client_eq with ⟨hclient, hip, -⟩
  rcases hstep.released_eq with ⟨hreleased, hsemaphore, hcounter⟩
  have hcreated : ∀ c, d.created s' c = d.created s c :=
    fun c => created_within hip (by rw [hclient]) c
  have hevents : ∀ pc, s.worker i = pc → d.ledgerEvents s (.worker i) =
      match pc with | .delete t => [.release (.task t)] | _ => [] := by
    rintro pc rfl
    rfl
  cases hstep with
  | delete t hk =>
      rw [hevents _ hk]
      have hnodup := taskFreed_nodup hp.disciplined hp.flags hs'
      exact replay_task (submitted_of_delete hp hs hk)
        (fun hmem => List.disjoint_of_nodup_append hnodup hmem (List.mem_singleton_self t))
        hreleased rfl hcounter hsemaphore hcreated
  | _ =>
      rw [hevents _ (by assumption : s.worker i = _)]
      exact congrArg some (live_congr hreleased rfl hcounter hsemaphore hcreated).symm

/-- A step changes the ledger as its events say. -/
theorem ledger_step (hp : Prepared d n tasks) (hs : d.system.Reachable s) {a : Party N}
    (hstep : d.system.step s a = some s') :
    replay (d.live tasks groups s) (d.ledgerEvents s a) = some (d.live tasks groups s') := by
  cases a with
  | client => exact ledger_client_step hp hs (hs.step hstep) (clientStep_of_step hstep)
  | worker i => exact ledger_worker_step hp hs (hs.step hstep) (workerStep_of_step hstep).2

/-- The events of a run. -/
theorem replay_of_traced (hp : Prepared d n tasks) {tr : List (Event Block)}
    (h : d.system.Traced d.ledgerEvents s tr) :
    replay (d.live tasks groups d.system.init) tr = some (d.live tasks groups s) := by
  refine h.invariant (P := fun s tr => replay (d.live tasks groups d.system.init) tr =
    some (d.live tasks groups s)) rfl ?_
  intro s a s' tr hs ih hstep
  rw [replay_append_eq ih]
  exact ledger_step hp hs hstep

/-! ## Acquired once -/

/-- Only {lit}`event_counter_create` allocates. -/
theorem acquire_mem_ledgerEvents {a : Party N} {b : Block}
    (h : .acquire b ∈ d.ledgerEvents s a) : a = .client ∧ s.client = .ready ∧
      ∃ call, d.prog[s.ip]? = some call ∧ call.createsCounter s.heap = true := by
  cases a with
  | worker i =>
      simp only [DispatchConfig.ledgerEvents] at h
      split at h <;> simp at h
  | client =>
      refine ⟨rfl, ?_⟩
      cases hk : s.client with
      | ready =>
          refine ⟨rfl, ?_⟩
          simp only [DispatchConfig.ledgerEvents, hk] at h
          cases hcall : d.prog[s.ip]? with
          | none => simp [hcall] at h
          | some call =>
              refine ⟨call, rfl, ?_⟩
              by_contra hnone
              simp [hcall, hnone] at h
      | deleteTasks ts =>
          simp only [DispatchConfig.ledgerEvents, hk] at h
          cases ts <;> simp at h
      | deleteThread i =>
          simp only [DispatchConfig.ledgerEvents, hk] at h
          split at h <;> simp at h
      | _ => simp [DispatchConfig.ledgerEvents, hk] at h

/-- A statement of the client creates a counter at the start of a call that needs one, and
else none. -/
theorem ClientStep.created_cases (hstep : ClientStep d s s') (hstatic : Static d s) :
    (∃ call, s.client = .ready ∧ d.prog[s.ip]? = some call ∧
      call.createsCounter d.heap = true ∧ s'.ip = s.ip ∧ s'.client.idle = false) ∨
    (∀ c, d.created s' c = d.created s c) ∧ (s.client = .ready →
      ∀ call, d.prog[s.ip]? = some call → call.createsCounter d.heap = false) := by
  have hstart : ∀ call, d.prog[s.ip]? = some call → call.createsCounter d.heap = false →
      s'.ip = s.ip → (∀ c, d.created s' c = d.created s c) ∧ (s.client = .ready →
        ∀ call, d.prog[s.ip]? = some call → call.createsCounter d.heap = false) := by
    intro call hcall hnone hip
    refine ⟨created_start hcall hnone hip, fun _ call' hcall' => ?_⟩
    rw [hcall, Option.some.injEq] at hcall'
    exact hcall' ▸ hnone
  have hbusy : ∀ pc, s.client = pc → pc ≠ .ready → s.client = .ready →
      ∀ call, d.prog[s.ip]? = some call → call.createsCounter d.heap = false := by
    rintro pc hpc hne hready
    exact absurd (hpc.symm.trans hready) hne
  cases hstep with
  | taskAddWaitable t hk hcall hw =>
      exact Or.inl ⟨_, hk, hcall, (hstatic.waitable t).symm.trans hw, rfl, rfl⟩
  | groupAddWaitable g hk hcall hw =>
      refine Or.inl ⟨_, hk, hcall, ?_, rfl, rfl⟩
      rw [← hstatic.createsCounter_eq]
      exact hw
  | taskAddPlain t hk hcall hw =>
      exact Or.inr (hstart _ hcall ((hstatic.waitable t).symm.trans hw) rfl)
  | groupAddPlain g hk hcall hw =>
      refine Or.inr (hstart _ hcall ?_ rfl)
      rw [← hstatic.createsCounter_eq]
      exact hw
  | taskWait t c hk hcall _ _ => exact Or.inr (hstart _ hcall rfl rfl)
  | groupWait g t c ts hk hcall _ _ _ => exact Or.inr (hstart _ hcall rfl rfl)
  | wait hk hcall => exact Or.inr (hstart _ hcall rfl rfl)
  | delete hk hcall => exact Or.inr (hstart _ hcall rfl rfl)
  | groupDone g i counter hk _ =>
      exact Or.inr ⟨created_ret rfl (by rw [hk]; rfl) rfl, hbusy _ hk (by simp)⟩
  | deleteDone hk =>
      exact Or.inr ⟨created_ret rfl (by rw [hk]; rfl) rfl, hbusy _ hk (by simp)⟩
  | waitBits hk _ =>
      exact Or.inr ⟨created_ret rfl (by rw [hk]; rfl) rfl, hbusy _ hk (by simp)⟩
  | deleteQueue hk =>
      exact Or.inr ⟨created_ret rfl (by rw [hk]; rfl) rfl, hbusy _ hk (by simp)⟩
  | send t site hk _ =>
      cases site with
      | task => exact Or.inr ⟨created_ret rfl (by rw [hk]; rfl) rfl, hbusy _ hk (by simp)⟩
      | member g i counter =>
          exact Or.inr ⟨created_within rfl (by rw [hk]; rfl), hbusy _ hk (by simp)⟩
  | _ =>
      have hk := (by assumption : s.client = _)
      exact Or.inr ⟨created_within rfl (by rw [hk]; rfl), hbusy _ hk (by simp)⟩

/-- The block was allocated by a call. -/
def DispatchConfig.made (d : DispatchConfig N β υ) (s : State N β υ) : Block → Bool
  | .counter c | .semaphore c => d.created s c
  | _ => false

/-- A step allocates what was not allocated before. -/
theorem made_step (hs : d.system.Reachable s) {a : Party N}
    (hstep : d.system.step s a = some s') (b : Block) :
    (d.made s b).toNat + (d.ledgerEvents s a).count (.acquire b) = (d.made s' b).toNat := by
  have hsilent : (∀ c, d.created s' c = d.created s c) → .acquire b ∉ d.ledgerEvents s a →
      (d.made s b).toNat + (d.ledgerEvents s a).count (.acquire b) = (d.made s' b).toNat := by
    intro hcreated hnot
    rw [List.count_eq_zero.mpr hnot]
    cases b <;> simp only [DispatchConfig.made, hcreated, Nat.add_zero]
  cases a with
  | worker i =>
      rcases (workerStep_of_step hstep).2.client_eq with ⟨hclient, hip, -⟩
      refine hsilent (created_within hip (by rw [hclient])) fun hmem => ?_
      cases (acquire_mem_ledgerEvents hmem).1
  | client =>
      have hstatic := static_of_reachable hs
      rcases (clientStep_of_step hstep).created_cases hstatic with
        ⟨call, hk, hcall, hcreates, hip, hidle⟩ | ⟨hcreated, hnone⟩
      · have hnew := fun c => created_new hcall hcreates hip (by rw [hk]; rfl) hidle c
        rw [ledgerEvents_ready hstatic hk hcall, hcreates, if_pos rfl]
        cases b with
        | counter c =>
            simp only [DispatchConfig.made, (hnew c).1]
            by_cases heq : c = s.ip
            · simp [counterBlocks, heq, (hnew c).2]
            · simp [counterBlocks, heq, Ne.symm heq]
        | semaphore c =>
            simp only [DispatchConfig.made, (hnew c).1]
            by_cases heq : c = s.ip
            · simp [counterBlocks, heq, (hnew c).2]
            · simp [counterBlocks, heq, Ne.symm heq]
        | _ => simp [DispatchConfig.made, counterBlocks]
      · refine hsilent hcreated fun hmem => ?_
        rcases acquire_mem_ledgerEvents hmem with ⟨-, hk, call, hcall, hcreates⟩
        rw [hstatic.createsCounter_eq, hnone hk call hcall] at hcreates
        cases hcreates

/-- A run allocates what its calls have made, each block once. -/
theorem acquired_of_traced {tr : List (Event Block)}
    (h : d.system.Traced d.ledgerEvents s tr) (b : Block) :
    tr.count (.acquire b) = (d.made s b).toNat := by
  refine h.invariant (P := fun s tr => tr.count (.acquire b) = (d.made s b).toNat) ?_ ?_
  · cases b <;> simp [DispatchConfig.made, DispatchConfig.created, DispatchConfig.system,
      DispatchConfig.init, ClientPc.idle]
  · intro s a s' tr hs ih hstep
    rw [List.count_append, ih]
    exact made_step hs hstep b

/-! ## Before the first call -/

theorem mem_createdBlocks {b : Block} : b ∈ createdBlocks N ↔
    b = .dispatchQueue ∨ b = .xQueue ∨ b = .threads ∨ b = .workerData ∨ b = .xEventGroup ∨
      ∃ i < N, b = .thread i := by
  simp [createdBlocks, eq_comm]

theorem mem_preparedBlocks {b : Block} : b ∈ preparedBlocks tasks groups ↔
    (∃ t ∈ tasks, b = .task t) ∨ ∃ g ∈ groups, b = .group g ∨ b = .slots g := by
  simp [preparedBlocks, eq_comm]

/-- Distinct blocks are allocated. -/
theorem nodup_blocks (htasks : tasks.Nodup) (hgroups : groups.Nodup) :
    (createdBlocks N ++ preparedBlocks tasks groups).Nodup := by
  have hcreated : (createdBlocks N).Nodup := by
    refine List.nodup_append.mpr ⟨by decide,
      List.nodup_range.map (fun _ _ h => Block.thread.inj h), ?_⟩
    intro a ha b hb
    rcases List.mem_map.mp hb with ⟨i, -, rfl⟩
    rintro rfl
    simp at ha
  have hslots : (groups.flatMap fun g => [Block.group g, .slots g]).Nodup := by
    refine List.nodup_flatMap.mpr ⟨fun g _ => by simp, ?_⟩
    refine hgroups.imp fun {g g'} hne b hb hb' => ?_
    simp only [List.mem_cons, List.not_mem_nil, or_false] at hb hb'
    rcases hb with rfl | rfl
    · exact hne (by simpa using hb')
    · exact hne (by simpa using hb')
  have hprepared : (preparedBlocks tasks groups).Nodup := by
    refine List.nodup_append.mpr ⟨htasks.map fun _ _ h => Block.task.inj h, hslots, ?_⟩
    intro a ha b hb
    rcases List.mem_map.mp ha with ⟨t, -, rfl⟩
    rintro rfl
    simp at hb
  refine List.nodup_append.mpr ⟨hcreated, hprepared, ?_⟩
  intro a ha b hb
  rintro rfl
  rcases mem_preparedBlocks.mp hb with ⟨t, -, rfl⟩ | ⟨g, -, rfl | rfl⟩
  · simp [mem_createdBlocks] at ha
  · simp [mem_createdBlocks] at ha
  · simp [mem_createdBlocks] at ha

/-- Before its first call, the client has what it has created and prepared. -/
theorem replay_prepared (htasks : tasks.Nodup) (hgroups : groups.Nodup) :
    replay (fun _ => false)
      ((createdBlocks N ++ preparedBlocks tasks groups).map .acquire) =
      some (d.live tasks groups d.system.init) := by
  rw [replay_acquires (nodup_blocks htasks hgroups) fun _ _ => rfl]
  congr 1
  funext b
  rw [Bool.false_or]
  have hnone : ∀ c, d.created d.system.init c = false := by
    intro c
    simp [DispatchConfig.created, DispatchConfig.system, DispatchConfig.init, ClientPc.idle]
  cases b with
  | counter c => simp [DispatchConfig.live, hnone, mem_createdBlocks, mem_preparedBlocks]
  | semaphore c => simp [DispatchConfig.live, hnone, mem_createdBlocks, mem_preparedBlocks]
  | _ => simp [DispatchConfig.live, DispatchConfig.system, DispatchConfig.init, History.empty,
      mem_createdBlocks, mem_preparedBlocks]

end Steps

end Rtos
end LibDispatch
