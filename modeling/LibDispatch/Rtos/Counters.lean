import LibDispatch.Rtos.Releases

/-!
# Event counters of the FreeRTOS dispatch queue

A counter is created with the number of tasks of its call.  Each task of the call, and no
other, decrements it once after its function has returned, and the one that brings it to
zero gives the semaphore, once.  So a wait that has taken the semaphore knows that all
tasks of the call have returned and that no worker is going to touch the counter.

Main results:

- Structure {lit}`Counters`: these facts as an invariant.
- Theorem {lit}`counters_of_reachable`: it holds in every reachable state.
- Theorem {lit}`Counters.done`: what a semaphore that was taken says.
-/

namespace LibDispatch
namespace Rtos

variable {N : Nat} {β υ : Type}

/-! ## Positions -/

/-- One if the worker has finished a task of {lit}`ts` and has not decremented the counter
{lit}`c` of these tasks. -/
def WorkerPc.signals (c : Nat) (ts : List Nat) : WorkerPc → Nat
  | .testWaitable t | .readCounter t => if t ∈ ts then 1 else 0
  | .decrement c' => if c' = c then 1 else 0
  | _ => 0

/-- One if the worker is going to give the semaphore of the counter. -/
def WorkerPc.gives (c : Nat) : WorkerPc → Nat
  | .give c' => if c' = c then 1 else 0
  | _ => 0

/-- The counter whose semaphore the client has taken and which it is going to delete. -/
def ClientPc.releasing : ClientPc → List Nat
  | .deleteSemaphore c _ | .freeCounter c _ => [c]
  | _ => []

/-- How often the semaphore of a counter was taken. -/
def State.taken (s : State N β υ) (c : Nat) : Nat :=
  (s.history.counterFreed ++ s.client.releasing).count c

/-- The number of tasks that have returned, of those in a list. -/
def State.returnedOf (s : State N β υ) (ts : List Nat) : Nat :=
  s.history.returned.countP fun t => decide (t ∈ ts)

/-! ## The invariant -/

/-- The counts, the semaphores and the positions agree. -/
structure Counters (d : DispatchConfig N β υ) (s : State N β υ) : Prop where
  /-- A task is tested after its function has returned. -/
  tested : ∀ i t, s.worker i = .testWaitable t ∨ s.worker i = .readCounter t →
    t ∈ s.history.returned
  waitable : ∀ i t, s.worker i = .readCounter t → (d.heap.task t).waitable = true
  /-- A counter that a worker signals belongs to a call that has started. -/
  refs : ∀ i c, s.worker i = .decrement c ∨ s.worker i = .give c →
    (d.clientState s).created c
  /-- The count is the number of tasks that have not decremented it. -/
  count : ∀ (jp : Nat) call, d.prog[jp]? = some call → call.createsCounter d.heap = true →
    (d.clientState s).created jp →
    (s.counter jp).count + s.returnedOf (call.tasks d.heap) = (call.tasks d.heap).length +
      tally (WorkerPc.signals jp (call.tasks d.heap)) s.worker
  /-- The semaphore is given once, when the count is zero. -/
  given : ∀ (jp : Nat) call, d.prog[jp]? = some call → call.createsCounter d.heap = true →
    (d.clientState s).created jp → call.tasks d.heap ≠ [] →
    (s.counter jp).given.toNat + tally (WorkerPc.gives jp) s.worker + s.taken jp =
      if (s.counter jp).count = 0 then 1 else 0

section Invariant

variable {d : DispatchConfig N β υ} {s s' : State N β υ} {i : Fin N} {jp t : Nat}
  {call : DispatchCall}

theorem counters_init (d : DispatchConfig N β υ) : Counters d d.system.init where
  tested i t h := by rcases h with h | h <;> cases h
  waitable i t h := by cases h
  refs i c h := by rcases h with h | h <;> cases h
  count jp call _ _ hcreated := by
    rcases hcreated with hlt | ⟨-, hne⟩
    · exact absurd hlt (Nat.not_lt_zero jp)
    · exact absurd rfl hne
  given jp call _ _ hcreated := by
    rcases hcreated with hlt | ⟨-, hne⟩
    · exact absurd hlt (Nat.not_lt_zero jp)
    · exact absurd rfl hne

/-! ## What returned tasks say -/

/-- No more tasks of a list have returned than it has. -/
theorem returnedOf_le (hd : d.program.Disciplined) (hflags : d.program.FlagsAgree)
    (hs : d.system.Reachable s) (ts : List Nat) : s.returnedOf ts ≤ ts.length := by
  have hnodup : s.history.returned.Nodup :=
    List.nodup_iff_count_le_one.mpr (returned_count_le hd hflags hs)
  rw [State.returnedOf, List.countP_eq_length_filter]
  exact ((hnodup.filter _).subperm fun t ht =>
    of_decide_eq_true (List.mem_filter.mp ht).2).length_le

/-- When as many have returned as there are, all have. -/
theorem mem_returned_of_returnedOf (hd : d.program.Disciplined)
    (hflags : d.program.FlagsAgree) (hs : d.system.Reachable s) {ts : List Nat}
    (hall : ts.length ≤ s.returnedOf ts) (ht : t ∈ ts) : t ∈ s.history.returned := by
  have hnodup : s.history.returned.Nodup :=
    List.nodup_iff_count_le_one.mpr (returned_count_le hd hflags hs)
  rw [State.returnedOf, List.countP_eq_length_filter] at hall
  have hsub : (s.history.returned.filter fun t => decide (t ∈ ts)).Subperm ts :=
    (hnodup.filter _).subperm fun t ht => of_decide_eq_true (List.mem_filter.mp ht).2
  exact (List.mem_filter.mp ((hsub.perm_of_length_le hall).symm.subset ht)).1

/-- A task that has returned was sent by a call that has started. -/
theorem call_of_returned (hd : d.program.Disciplined) (hflags : d.program.FlagsAgree)
    (hs : d.system.Reachable s) (ht : t ∈ s.history.returned) : t ∈ s.history.sent ∧
      ∃ (jp : Nat) (call : DispatchCall), d.prog[jp]? = some call ∧ t ∈ call.tasks d.heap ∧
        (d.clientState s).created jp := by
  have hcount := (received_of_reachable hs).count t
  have hpos := List.count_pos_iff.mpr ht
  have hsent : t ∈ s.history.sent := List.count_pos_iff.mp (by omega)
  exact ⟨hsent, (clientInv_of_reachable hd hflags hs).call_of_pushed hsent⟩

/-- The counter that a worker is going to read is that of the call of its task. -/
theorem Counters.call_of_readCounter (h : Counters d s) (hd : d.program.Disciplined)
    (hflags : d.program.FlagsAgree) (hs : d.system.Reachable s)
    (hk : s.worker i = .readCounter t) : ∃ (jp : Nat) (call : DispatchCall),
      d.prog[jp]? = some call ∧ call.createsCounter d.heap = true ∧ t ∈ call.tasks d.heap ∧
        (d.clientState s).created jp ∧ (s.heap.task t).privateData = some jp := by
  rcases call_of_returned hd hflags hs (h.tested i t (Or.inr hk)) with
    ⟨hsent, jp, call, hcall, ht, hcreated⟩
  have hcreates := (hflags.createsCounter_iff hcall ht).mpr (h.waitable i t hk)
  exact ⟨jp, call, hcall, hcreates, ht, hcreated,
    (clientInv_of_reachable hd hflags hs).data_of_pushed hcall hcreates ht hsent⟩

/-- A worker that is going to decrement a counter finds it positive. -/
theorem Counters.count_pos (h : Counters d s) (hd : d.program.Disciplined)
    (hflags : d.program.FlagsAgree) (hs : d.system.Reachable s) {c : Nat}
    (hk : s.worker i = .decrement c) (hcall : d.prog[c]? = some call)
    (hcreates : call.createsCounter d.heap = true) : 0 < (s.counter c).count := by
  have hcount := h.count c call hcall hcreates (h.refs i c (Or.inl hk))
  have hle := returnedOf_le hd hflags hs (call.tasks d.heap)
  have hweight := le_tally (WorkerPc.signals c (call.tasks d.heap)) s.worker i
  simp only [hk, WorkerPc.signals, if_true] at hweight
  omega

/-! ## Steps of a worker -/

/-- What a worker at a position has seen. -/
def WorkerPc.Seen (d : DispatchConfig N β υ) (s : State N β υ) : WorkerPc → Prop
  | .testWaitable t => t ∈ s.history.returned
  | .readCounter t => t ∈ s.history.returned ∧ (d.heap.task t).waitable = true
  | .decrement c | .give c => (d.clientState s).created c
  | _ => True

/-- A step of a worker that keeps the accounts of every counter. -/
theorem Counters.worker_move (h : Counters d s) {pc : WorkerPc}
    (hworker : s'.worker = Function.update s.worker i pc)
    (hclient : d.clientState s' = d.clientState s)
    (hreleasing : s'.client.releasing = s.client.releasing)
    (hreturned : s.history.returned ⊆ s'.history.returned) (hseen : pc.Seen d s')
    (hcount : ∀ (jp : Nat) call, d.prog[jp]? = some call → call.createsCounter d.heap = true →
      (d.clientState s).created jp →
      (s'.counter jp).count + s'.returnedOf (call.tasks d.heap) +
          (s.worker i).signals jp (call.tasks d.heap) =
        (s.counter jp).count + s.returnedOf (call.tasks d.heap) +
          pc.signals jp (call.tasks d.heap))
    (hgiven : ∀ (jp : Nat) call, d.prog[jp]? = some call → call.createsCounter d.heap = true →
      (d.clientState s).created jp → call.tasks d.heap ≠ [] →
      (s'.counter jp).given.toNat + pc.gives jp + (if (s.counter jp).count = 0 then 1 else 0) =
        (s.counter jp).given.toNat + (s.worker i).gives jp +
          if (s'.counter jp).count = 0 then 1 else 0) : Counters d s' := by
  have hother : ∀ j pc', s'.worker j = pc' → pc'.Seen d s' ∨ s.worker j = pc' := by
    intro j pc' hj
    rw [hworker] at hj
    by_cases hji : j = i
    · subst hji
      rw [Function.update_self] at hj
      exact Or.inl (hj ▸ hseen)
    · rw [Function.update_of_ne hji] at hj
      exact Or.inr hj
  constructor
  · rintro j t (hj | hj)
    · rcases hother j _ hj with hnew | hold
      · exact hnew
      · exact hreturned (h.tested j t (Or.inl hold))
    · rcases hother j _ hj with hnew | hold
      · exact hnew.1
      · exact hreturned (h.tested j t (Or.inr hold))
  · intro j t hj
    rcases hother j _ hj with hnew | hold
    · exact hnew.2
    · exact h.waitable j t hold
  · rintro j c (hj | hj)
    · rcases hother j _ hj with hnew | hold
      · exact hnew
      · exact hclient ▸ h.refs j c (Or.inl hold)
    · rcases hother j _ hj with hnew | hold
      · exact hnew
      · exact hclient ▸ h.refs j c (Or.inr hold)
  · intro jp call hcall hcreates hcreated
    rw [hclient] at hcreated
    have htally := tally_update (WorkerPc.signals jp (call.tasks d.heap)) s.worker i pc
    have hold := h.count jp call hcall hcreates hcreated
    have hnew := hcount jp call hcall hcreates hcreated
    rw [hworker]
    omega
  · intro jp call hcall hcreates hcreated hne
    rw [hclient] at hcreated
    have htally := tally_update (WorkerPc.gives jp) s.worker i pc
    have hold := h.given jp call hcall hcreates hcreated hne
    have hnew := hgiven jp call hcall hcreates hcreated hne
    have hfreed : s'.history.counterFreed = s.history.counterFreed :=
      congrArg ClientState.counterFreed hclient
    have htaken : s'.taken jp = s.taken jp := by
      rw [State.taken, State.taken, hfreed, hreleasing]
    rw [hworker, htaken]
    omega

/-- A step of a worker that concerns no counter. -/
theorem Counters.worker_silent (h : Counters d s) {pc : WorkerPc}
    (hworker : s'.worker = Function.update s.worker i pc)
    (hclient : d.clientState s' = d.clientState s)
    (hreleasing : s'.client.releasing = s.client.releasing)
    (hreturned : s'.history.returned = s.history.returned) (hcounter : s'.counter = s.counter)
    (hsignals : ∀ (jp : Nat) call, d.prog[jp]? = some call →
      call.createsCounter d.heap = true →
      (s.worker i).signals jp (call.tasks d.heap) = pc.signals jp (call.tasks d.heap))
    (hgives : ∀ c, pc.gives c = (s.worker i).gives c) (hseen : pc.Seen d s') :
    Counters d s' := by
  refine h.worker_move hworker hclient hreleasing (by rw [hreturned]; exact fun _ => id)
    hseen ?_ ?_
  · intro jp call hcall hcreates _
    rw [hcounter, hsignals jp call hcall hcreates]
    simp only [State.returnedOf, hreturned]
  · intro jp call _ _ _ _
    rw [hcounter, hgives]

/-- A step of a worker that concerns one counter. -/
theorem Counters.worker_signal (h : Counters d s) {pc : WorkerPc} {c : Nat}
    {counter : EventCounter} (hk : s.worker i = .decrement c ∨ s.worker i = .give c)
    (hs' : s' = (s.setCounter c counter).workerGoto i pc)
    (hclient : d.clientState s' = d.clientState s) (hpc : pc = .give c ∨ pc = .setBit)
    (hcount : ∀ call, d.prog[c]? = some call → call.createsCounter d.heap = true →
      ∀ ts, counter.count + (s.worker i).signals c ts = (s.counter c).count)
    (hgiven : ∀ call, d.prog[c]? = some call → call.createsCounter d.heap = true →
      call.tasks d.heap ≠ [] →
      counter.given.toNat + pc.gives c + (if (s.counter c).count = 0 then 1 else 0) =
        (s.counter c).given.toNat + (s.worker i).gives c +
          if counter.count = 0 then 1 else 0) : Counters d s' := by
  subst hs'
  have hsignals : ∀ jp ts, pc.signals jp ts = 0 := by
    rintro jp ts
    rcases hpc with rfl | rfl <;> rfl
  have hothers : ∀ jp, jp ≠ c → pc.gives jp = (s.worker i).gives jp ∧
      ∀ ts, (s.worker i).signals jp ts = 0 := by
    intro jp hne
    rcases hk with hk | hk <;> rcases hpc with rfl | rfl <;>
      simp [hk, WorkerPc.gives, WorkerPc.signals, Ne.symm hne]
  refine h.worker_move rfl hclient rfl (fun _ => id) ?_ ?_ ?_
  · rcases hpc with rfl | rfl
    · change (d.clientState _).created c
      rw [hclient]
      exact h.refs i c hk
    · trivial
  · intro jp call hcall hcreates _
    change (Function.update s.counter c counter jp).count + s.returnedOf _ + _ = _
    rw [hsignals]
    by_cases heq : jp = c
    · subst heq
      have hkept := hcount call hcall hcreates (call.tasks d.heap)
      rw [Function.update_self]
      omega
    · rw [Function.update_of_ne heq, (hothers jp heq).2]
  · intro jp call hcall hcreates _ hne
    change (Function.update s.counter c counter jp).given.toNat + _ + _ =
      _ + _ + if (Function.update s.counter c counter jp).count = 0 then 1 else 0
    by_cases heq : jp = c
    · subst heq
      rw [Function.update_self]
      exact hgiven call hcall hcreates hne
    · rw [Function.update_of_ne heq, (hothers jp heq).1]

/-- A step of a worker keeps the counters. -/
theorem Counters.worker_step (h : Counters d s) (hd : d.program.Disciplined)
    (hflags : d.program.FlagsAgree) (hs : d.system.Reachable s) (hstep : WorkerStep s i s') :
    Counters d s' := by
  have hstatic := static_of_reachable hs
  have hclient := hstep.clientState_eq hstatic
  have hreleasing : s'.client.releasing = s.client.releasing := by
    rw [hstep.client_eq.1]
  cases hstep with
  | running t hk =>
      refine h.worker_move rfl hclient hreleasing (List.subset_append_left _ _)
        (List.mem_append_right _ (List.mem_singleton_self t)) ?_ ?_
      · intro jp call _ _ _
        simp only [State.workerGoto, State.record, State.returnedOf, List.countP_append,
          List.countP_singleton, decide_eq_true_eq, hk, WorkerPc.signals]
        omega
      · intro jp call _ _ _ _
        rw [hk]
        rfl
  | testWaitable t hk hw =>
      exact h.worker_silent rfl hclient hreleasing rfl rfl (fun _ _ _ _ => by rw [hk]; rfl)
        (fun c => by rw [hk]; rfl) ⟨h.tested i t (Or.inl hk), (hstatic.waitable t).symm.trans hw⟩
  | testPlain t hk hw =>
      refine h.worker_silent rfl hclient hreleasing rfl rfl ?_ (fun c => by rw [hk]; rfl) trivial
      intro jp call hcall hcreates
      have hnot : t ∉ call.tasks d.heap := by
        intro ht
        have hwaitable : (d.heap.task t).waitable = true :=
          (hflags.createsCounter_iff hcall ht).mp hcreates
        rw [hstatic.waitable, hwaitable] at hw
        cases hw
      rw [hk]
      exact if_neg hnot
  | readCounter t c hk hdata =>
      rcases h.call_of_readCounter hd hflags hs hk with
        ⟨jp, call, hcall, hcreates, ht, hcreated, hdata'⟩
      cases Option.some.inj (hdata.symm.trans hdata')
      have hseen : (WorkerPc.decrement c).Seen d (s.workerGoto i (.decrement c)) := by
        change (d.clientState _).created c
        rwa [hclient]
      refine h.worker_silent rfl hclient hreleasing rfl rfl ?_ (fun c => by rw [hk]; rfl) hseen
      intro jp call' hcall' _
      rw [hk]
      by_cases heq : c = jp
      · subst heq
        cases Option.some.inj (hcall.symm.trans hcall')
        simp [WorkerPc.signals, ht]
      · have hnot : t ∉ call'.tasks d.heap := fun ht' => heq (hd.unique hcall hcall' ht ht')
        simp [WorkerPc.signals, hnot, heq]
  | decrementLast c hk hlast =>
      refine h.worker_signal (Or.inl hk) rfl hclient (Or.inl rfl) ?_ ?_
      · intro call _ _ ts
        simp only [hk, WorkerPc.signals, if_true]
        omega
      · intro call _ _ _
        have hne : (s.counter c).count ≠ 0 := by omega
        simp [hk, WorkerPc.gives, hlast.2, hne]
  | decrement c hk hlast =>
      refine h.worker_signal (Or.inl hk) rfl hclient (Or.inr rfl) ?_ ?_
      · intro call hcall hcreates ts
        have hpos := h.count_pos hd hflags hs hk hcall hcreates
        simp only [hk, WorkerPc.signals, if_true]
        omega
      · intro call hcall hcreates _
        have hpos := h.count_pos hd hflags hs hk hcall hcreates
        have hne : (s.counter c).count ≠ 0 := by omega
        have hne' : (s.counter c).count - 1 ≠ 0 := fun hzero => hlast ⟨hpos, hzero⟩
        simp [hk, WorkerPc.gives, hne, hne']
  | give c hk =>
      refine h.worker_signal (Or.inr hk) rfl hclient (Or.inr rfl) ?_ ?_
      · intro call _ _ ts
        rw [hk]
        rfl
      · intro call hcall hcreates hne
        -- the semaphore was not given before
        have hgiven := h.given c call hcall hcreates (h.refs i c (Or.inr hk)) hne
        have hweight := le_tally (WorkerPc.gives c) s.worker i
        simp only [hk, WorkerPc.gives, if_true] at hweight
        have hzero : (s.counter c).given.toNat = 0 := by
          split at hgiven <;> omega
        simp [hk, WorkerPc.gives, hzero]
  | _ =>
      have hk := (by assumption : s.worker i = _)
      exact h.worker_silent rfl hclient hreleasing rfl rfl (fun _ _ _ _ => by rw [hk]; rfl)
        (fun c => by rw [hk]; rfl) trivial

/-! ## Steps of the client -/

/-- A step of the client that starts no call with a counter and takes no semaphore. -/
theorem Counters.client_keep (h : Counters d s) (hworker : s'.worker = s.worker)
    (hreturned : s'.history.returned = s.history.returned) (hcounter : s'.counter = s.counter)
    (hcreated : ∀ (jp : Nat), (d.clientState s).created jp → (d.clientState s').created jp)
    (hcreated' : ∀ (jp : Nat) call, d.prog[jp]? = some call →
      call.createsCounter d.heap = true → (d.clientState s').created jp →
      (d.clientState s).created jp)
    (htaken : ∀ c, s'.taken c = s.taken c) : Counters d s' where
  tested i t hi := by
    rw [hworker] at hi
    rw [hreturned]
    exact h.tested i t hi
  waitable i t hi := h.waitable i t (hworker ▸ hi)
  refs i c hi := hcreated c (h.refs i c (hworker ▸ hi))
  count jp call hcall hcreates hc := by
    have hold := h.count jp call hcall hcreates (hcreated' jp call hcall hcreates hc)
    simp only [State.returnedOf] at hold
    simp only [State.returnedOf, hcounter, hreturned, hworker]
    exact hold
  given jp call hcall hcreates hc hne := by
    rw [hcounter, hworker, htaken]
    exact h.given jp call hcall hcreates (hcreated' jp call hcall hcreates hc) hne

/-- Nothing has happened to the counter of a call that has not created it. -/
theorem Counters.untouched (h : Counters d s) (hd : d.program.Disciplined)
    (hflags : d.program.FlagsAgree) (hs : d.system.Reachable s) (hcall : d.prog[jp]? = some call)
    (hnew : ¬ (d.clientState s).created jp) : s.returnedOf (call.tasks d.heap) = 0 ∧
      tally (WorkerPc.signals jp (call.tasks d.heap)) s.worker = 0 ∧
      tally (WorkerPc.gives jp) s.worker = 0 := by
  -- the tasks of the call are new
  have hfresh : ∀ t ∈ call.tasks d.heap, t ∉ s.history.returned := by
    intro t ht hmem
    rcases call_of_returned hd hflags hs hmem with ⟨-, jp', call', hcall', ht', hcreated'⟩
    rw [hd.unique hcall' hcall ht' ht] at hcreated'
    exact hnew hcreated'
  refine ⟨?_, tally_eq_zero_iff.mpr fun i => ?_, tally_eq_zero_iff.mpr fun i => ?_⟩
  · rw [State.returnedOf, List.countP_eq_zero]
    intro t ht hmem
    exact hfresh t (of_decide_eq_true hmem) ht
  · cases hi : s.worker i with
    | testWaitable t => exact if_neg fun ht => hfresh t ht (h.tested i t (Or.inl hi))
    | readCounter t => exact if_neg fun ht => hfresh t ht (h.tested i t (Or.inr hi))
    | decrement c =>
        refine if_neg ?_
        rintro rfl
        exact hnew (h.refs i _ (Or.inl hi))
    | _ => rfl
  · cases hi : s.worker i with
    | give c =>
        refine if_neg ?_
        rintro rfl
        exact hnew (h.refs i _ (Or.inr hi))
    | _ => rfl

/-- A call that creates a counter starts: none of its tasks was sent, and no worker knows the
counter. -/
theorem Counters.create (h : Counters d s) (hd : d.program.Disciplined)
    (hflags : d.program.FlagsAgree) (hs : d.system.Reachable s) (hk : s.client = .ready)
    (hcall : d.prog[s.ip]? = some call) (hworker : s'.worker = s.worker)
    (hreturned : s'.history.returned = s.history.returned) (hip : s'.ip = s.ip)
    (hcounter : s'.counter =
      Function.update s.counter s.ip (eventCounterCreate (call.tasks d.heap).length))
    (htaken : ∀ c, s'.taken c = s.taken c) : Counters d s' := by
  have hinv := clientInv_of_reachable hd hflags hs
  have hidle : (d.clientState s).phase = .idle := by
    change d.phase s.ip s.client = _
    rw [hk]
    rfl
  have hnew : ¬ (d.clientState s).created s.ip := by
    rintro (hlt | ⟨-, hne⟩)
    · exact absurd hlt (Nat.lt_irrefl s.ip)
    · exact hne hidle
  have hcreated : ∀ jp, (d.clientState s').created jp →
      jp = s.ip ∨ (jp ≠ s.ip ∧ (d.clientState s).created jp) := by
    rintro jp (hlt | ⟨heq, -⟩)
    · have hlt' : jp < s.ip := hip ▸ hlt
      exact Or.inr ⟨Nat.ne_of_lt hlt', Or.inl hlt'⟩
    · exact Or.inl (heq.trans hip)
  have hmono : ∀ jp, (d.clientState s).created jp → (d.clientState s').created jp := by
    rintro jp (hlt | ⟨-, hne⟩)
    · exact Or.inl (by rw [show (d.clientState s').ip = s.ip from hip]; exact hlt)
    · exact absurd hidle hne
  rcases h.untouched hd hflags hs hcall hnew with ⟨hnone, hsignals, hgives⟩
  have htaken₀ : s.taken s.ip = 0 := by
    rw [State.taken, hk]
    refine List.count_eq_zero.mpr fun hmem => ?_
    have hmem' : s.ip ∈ s.history.counterFreed := by simpa [ClientPc.releasing] using hmem
    exact absurd (hinv.lt_of_counterFreed hd hmem') (Nat.lt_irrefl s.ip)
  constructor
  · intro i t hi
    rw [hworker] at hi
    rw [hreturned]
    exact h.tested i t hi
  · exact fun i t hi => h.waitable i t (hworker ▸ hi)
  · exact fun i c hi => hmono c (h.refs i c (hworker ▸ hi))
  · intro jp call' hcall' hcreates hc
    simp only [State.returnedOf] at hnone
    rcases hcreated jp hc with rfl | ⟨hne, hold⟩
    · cases Option.some.inj (hcall.symm.trans hcall')
      simp only [State.returnedOf, hcounter, hreturned, hworker, Function.update_self,
        eventCounterCreate, hnone, hsignals]
    · have hcount := h.count jp call' hcall' hcreates hold
      simp only [State.returnedOf] at hcount
      simp only [State.returnedOf, hcounter, hreturned, hworker, Function.update_of_ne hne]
      exact hcount
  · intro jp call' hcall' hcreates hc hne'
    rcases hcreated jp hc with rfl | ⟨hne, hold⟩
    · cases Option.some.inj (hcall.symm.trans hcall')
      have hlength : (call.tasks d.heap).length ≠ 0 := fun hzero =>
        hne' (List.length_eq_zero_iff.mp hzero)
      rw [hcounter, hworker, htaken, htaken₀, hgives, Function.update_self]
      simp [eventCounterCreate, hlength]
    · rw [hcounter, hworker, htaken, Function.update_of_ne hne]
      exact h.given jp call' hcall' hcreates hold hne'

/-- The client takes the semaphore that it waits for. -/
theorem Counters.take (h : Counters d s) {c : Nat} {ts : List Nat}
    (hk : s.client = .takeSemaphore c ts) (hgiven : (s.counter c).given = true) :
    Counters d ((s.setCounter c { s.counter c with given := false }).goto
      (.deleteSemaphore c ts)) := by
  have hcreated : ∀ jp, (d.clientState ((s.setCounter c
      { s.counter c with given := false }).goto (.deleteSemaphore c ts))).created jp ↔
      (d.clientState s).created jp := by
    intro jp
    change (jp < s.ip ∨ (jp = s.ip ∧ _)) ↔ (jp < s.ip ∨ (jp = s.ip ∧ d.phase s.ip s.client ≠ _))
    rw [hk]
    exact or_congr_right (and_congr_right fun _ => by simp [DispatchConfig.phase,
      DispatchConfig.clientState, State.goto])
  constructor
  · exact h.tested
  · exact h.waitable
  · exact fun i c' hi => (hcreated c').mpr (h.refs i c' hi)
  · intro jp call hcall hcreates hc
    have hold := h.count jp call hcall hcreates ((hcreated jp).mp hc)
    by_cases heq : jp = c
    · subst heq
      simpa [State.goto, State.setCounter, State.returnedOf] using hold
    · simpa [State.goto, State.setCounter, State.returnedOf, heq] using hold
  · intro jp call hcall hcreates hc hne
    have hold := h.given jp call hcall hcreates ((hcreated jp).mp hc) hne
    have htaken : State.taken ((s.setCounter c { s.counter c with given := false }).goto
        (.deleteSemaphore c ts)) jp = s.taken jp + if c = jp then 1 else 0 := by
      simp [State.taken, State.goto, State.setCounter, hk, ClientPc.releasing, List.count_append,
        List.count_singleton]
    rw [htaken]
    by_cases heq : jp = c
    · subst heq
      simp only [hgiven, Bool.toNat_true] at hold
      simp only [State.goto, State.setCounter, Function.update_self, Bool.toNat_false, if_true]
      omega
    · have heq' : c ≠ jp := fun h => heq h.symm
      simpa [State.goto, State.setCounter, heq, heq'] using hold

/-- Within a call, a client that takes no semaphore. -/
theorem Counters.client_within (h : Counters d s) (hworker : s'.worker = s.worker)
    (hreturned : s'.history.returned = s.history.returned) (hcounter : s'.counter = s.counter)
    (hip : s'.ip = s.ip)
    (hphase : (d.clientState s').phase = .idle ↔ (d.clientState s).phase = .idle)
    (htaken : ∀ c, s'.taken c = s.taken c) : Counters d s' := by
  have hcreated : ∀ jp, (d.clientState s').created jp ↔ (d.clientState s).created jp := by
    intro jp
    change (jp < s'.ip ∨ (jp = s'.ip ∧ _)) ↔ (jp < s.ip ∨ (jp = s.ip ∧ _))
    rw [hip]
    exact or_congr_right (and_congr_right fun _ => not_congr hphase)
  exact h.client_keep hworker hreturned hcounter (fun jp => (hcreated jp).mpr)
    (fun jp _ _ _ => (hcreated jp).mp) htaken

/-- A call that creates no counter starts. -/
theorem Counters.client_start (h : Counters d s) (hk : s.client = .ready)
    (hcall : d.prog[s.ip]? = some call) (hnone : call.createsCounter d.heap = false)
    (hworker : s'.worker = s.worker) (hreturned : s'.history.returned = s.history.returned)
    (hcounter : s'.counter = s.counter) (hip : s'.ip = s.ip)
    (htaken : ∀ c, s'.taken c = s.taken c) : Counters d s' := by
  have hidle : (d.clientState s).phase = .idle := by
    change d.phase s.ip s.client = _
    rw [hk]
    rfl
  refine h.client_keep hworker hreturned hcounter ?_ ?_ htaken
  · rintro jp (hlt | ⟨-, hne⟩)
    · exact Or.inl (by rw [show (d.clientState s').ip = s.ip from hip]; exact hlt)
    · exact absurd hidle hne
  · rintro jp call' hcall' hcreates (hlt | ⟨heq, -⟩)
    · have hlt' : jp < s'.ip := hlt
      rw [hip] at hlt'
      exact Or.inl hlt'
    · have heq' : jp = s.ip := heq.trans hip
      rw [heq', hcall] at hcall'
      cases hcall'
      rw [hnone] at hcreates
      cases hcreates

/-- A call returns. -/
theorem Counters.client_ret (h : Counters d s) (hbusy : (d.clientState s).phase ≠ .idle)
    (hworker : s'.worker = s.worker) (hreturned : s'.history.returned = s.history.returned)
    (hcounter : s'.counter = s.counter) (hip : s'.ip = s.ip + 1) (hready : s'.client = .ready)
    (htaken : ∀ c, s'.taken c = s.taken c) : Counters d s' := by
  refine h.client_keep hworker hreturned hcounter ?_ ?_ htaken
  · rintro jp (hlt | ⟨heq, -⟩)
    · exact Or.inl (by
        rw [show (d.clientState s').ip = s.ip + 1 from hip]
        exact Nat.lt_succ_of_lt hlt)
    · exact Or.inl (by
        rw [show (d.clientState s').ip = s.ip + 1 from hip, heq]
        exact Nat.lt_succ_self s.ip)
  · rintro jp call _ _ (hlt | ⟨-, hne⟩)
    · have hlt' : jp < s'.ip := hlt
      have hle : jp ≤ s.ip := by omega
      rcases Nat.lt_or_eq_of_le hle with hlt' | heq
      · exact Or.inl hlt'
      · exact Or.inr ⟨heq, hbusy⟩
    · refine absurd ?_ hne
      change d.phase s'.ip s'.client = _
      rw [hready]
      rfl

/-- A step of the client keeps the counters. -/
theorem Counters.client_step (h : Counters d s) (hd : d.program.Disciplined)
    (hflags : d.program.FlagsAgree) (hs : d.system.Reachable s) (hstep : ClientStep d s s') :
    Counters d s' := by
  have hstatic := static_of_reachable hs
  have hphase : ∀ pc, s.client = pc → (d.clientState s).phase = d.phase s.ip pc := by
    rintro pc rfl
    rfl
  have htaken : ∀ {s' : State N β υ}, s'.history.counterFreed = s.history.counterFreed →
      s'.client.releasing = s.client.releasing → ∀ c, s'.taken c = s.taken c := by
    intro s' hfreed hreleasing c
    rw [State.taken, State.taken, hfreed, hreleasing]
  cases hstep with
  | taskAddWaitable t hk hcall hw =>
      exact h.create hd hflags hs hk hcall rfl rfl rfl rfl (htaken rfl (by rw [hk]; rfl))
  | groupAddWaitable g hk hcall hw =>
      refine h.create hd hflags hs hk hcall rfl rfl rfl ?_ (htaken rfl (by rw [hk]; rfl))
      change Function.update s.counter s.ip (eventCounterCreate (s.heap.group g).count) = _
      rw [hstatic.group]
      rfl
  | taskAddPlain t hk hcall hw =>
      exact h.client_start hk hcall ((hstatic.waitable t).symm.trans hw) rfl rfl rfl rfl
        (htaken rfl (by rw [hk]; rfl))
  | groupAddPlain g hk hcall hw =>
      rw [hstatic.group] at hw
      exact h.client_start hk hcall hw rfl rfl rfl rfl (htaken rfl (by rw [hk]; rfl))
  | taskWait t c hk hcall _ _ =>
      exact h.client_start hk hcall rfl rfl rfl rfl rfl (htaken rfl (by rw [hk]; rfl))
  | groupWait g t c ts hk hcall _ _ _ =>
      exact h.client_start hk hcall rfl rfl rfl rfl rfl (htaken rfl (by rw [hk]; rfl))
  | wait hk hcall =>
      exact h.client_start hk hcall rfl rfl rfl rfl rfl (htaken rfl (by rw [hk]; rfl))
  | delete hk hcall =>
      exact h.client_start hk hcall rfl rfl rfl rfl rfl (htaken rfl (by rw [hk]; rfl))
  | takeSemaphore c ts hk hgiven => exact h.take hk hgiven
  | freeCounter c ts hk =>
      refine h.client_within rfl rfl rfl rfl ?_ fun c' => ?_
      · rw [hphase _ hk]
        simp [DispatchConfig.clientState, DispatchConfig.phase, State.goto]
      · simp [State.taken, State.goto, State.record, hk, ClientPc.releasing]
  | send t site hk hroom =>
      cases site with
      | task =>
          exact h.client_ret (by rw [hphase _ hk]; simp [DispatchConfig.phase]) rfl rfl rfl rfl
            rfl (htaken rfl (by rw [hk]; rfl))
      | member g i counter =>
          refine h.client_within rfl rfl rfl rfl ?_ (htaken rfl (by rw [hk]; rfl))
          rw [hphase _ hk]
          simp [DispatchConfig.clientState, DispatchConfig.phase, State.goto, State.sent]
  | groupDone g i counter hk _ =>
      exact h.client_ret (by rw [hphase _ hk]; simp [DispatchConfig.phase]) rfl rfl rfl rfl rfl
        (htaken rfl (by rw [hk]; rfl))
  | deleteDone hk =>
      exact h.client_ret (by rw [hphase _ hk]; simp [DispatchConfig.phase]) rfl rfl rfl rfl rfl
        (htaken rfl (by rw [hk]; rfl))
  | waitBits hk _ =>
      exact h.client_ret (by rw [hphase _ hk]; simp [DispatchConfig.phase]) rfl rfl rfl rfl rfl
        (htaken rfl (by rw [hk]; rfl))
  | deleteQueue hk =>
      exact h.client_ret (by rw [hphase _ hk]; simp [DispatchConfig.phase]) rfl rfl rfl rfl rfl
        (htaken rfl (by rw [hk]; rfl))
  | _ =>
      have hk := (by assumption : s.client = _)
      refine h.client_within rfl rfl rfl rfl ?_ (htaken rfl (by rw [hk]; rfl))
      rw [hphase _ hk]
      simp [DispatchConfig.clientState, DispatchConfig.phase, State.goto, State.release,
        State.record, State.storePrivateData]

/-- The counters are accounted for in every reachable state. -/
theorem counters_of_reachable (hd : d.program.Disciplined) (hflags : d.program.FlagsAgree)
    (hs : d.system.Reachable s) : Counters d s := by
  refine hs.invariant (counters_init d) ?_
  intro s a s' hr h hstep
  cases a with
  | client => exact h.client_step hd hflags hr (clientStep_of_step hstep)
  | worker i => exact h.worker_step hd hflags hr (workerStep_of_step hstep).2

/-! ## What a semaphore that was taken says -/

/-- When the semaphore of a call was taken, all tasks of the call have returned, and no worker
is going to signal the counter. -/
theorem Counters.done (h : Counters d s) (hd : d.program.Disciplined)
    (hflags : d.program.FlagsAgree) (hs : d.system.Reachable s) (hcall : d.prog[jp]? = some call)
    (hcreates : call.createsCounter d.heap = true) (hne : call.tasks d.heap ≠ [])
    (hcreated : (d.clientState s).created jp) (htaken : 0 < s.taken jp) :
    (∀ t ∈ call.tasks d.heap, t ∈ s.history.returned) ∧
      ∀ i, (s.worker i).signals jp (call.tasks d.heap) = 0 ∧ (s.worker i).gives jp = 0 := by
  have hgiven := h.given jp call hcall hcreates hcreated hne
  have hcount := h.count jp call hcall hcreates hcreated
  have hle := returnedOf_le hd hflags hs (call.tasks d.heap)
  have hzero : (s.counter jp).count = 0 := by
    by_contra hpos
    rw [if_neg hpos] at hgiven
    omega
  rw [if_pos hzero] at hgiven
  refine ⟨fun t ht => mem_returned_of_returnedOf hd hflags hs (by omega) ht, fun i => ?_⟩
  have hsignals := le_tally (WorkerPc.signals jp (call.tasks d.heap)) s.worker i
  have hgives := le_tally (WorkerPc.gives jp) s.worker i
  exact ⟨by omega, by omega⟩

end Invariant

end Rtos
end LibDispatch
