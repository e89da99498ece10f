import LibDispatch.Host.Barrier

/-!
# The tasks that the host workers have popped

The tasks are numbered in the order in which they are popped, and a worker keeps the number
of the task that it has in its hands.  No two workers have the same number, a number that
was signalled is in no hands any more, and a worker deletes a task only when the task is
not waitable.

Main results:

- Theorem {lit}`tickets_of_reachable`: the numbers of the tasks agree with the workers.
- Theorem {lit}`Tickets.plain_of_deleted`: the tasks that workers delete are not waitable.
-/

namespace LibDispatch
namespace Host

variable {C : Type} {N : Nat} {β υ : Type}

/-! ## The tasks behind the numbers -/

/-- The tasks with the given numbers. -/
def History.tasksOf (h : History C N) (ks : List Nat) : List Nat :=
  ks.filterMap fun k => h.popped[k]?

theorem History.mem_tasksOf {h : History C N} {ks : List Nat} {t : Nat} :
    t ∈ h.tasksOf ks ↔ ∃ k ∈ ks, h.popped[k]? = some t :=
  List.mem_filterMap

/-- One more number. -/
theorem History.tasksOf_concat {h : History C N} {ks : List Nat} {k t : Nat}
    (ht : h.popped[k]? = some t) : h.tasksOf (ks ++ [k]) = h.tasksOf ks ++ [t] := by
  simp [tasksOf, List.filterMap_append, ht]

/-- Numbers of tasks that were popped before stay the numbers of these tasks. -/
theorem History.tasksOf_mono {h h' : History C N} {ks : List Nat}
    (hpopped : h.popped <+: h'.popped) (hlt : ∀ k ∈ ks, k < h.popped.length) :
    h'.tasksOf ks = h.tasksOf ks := by
  apply List.filterMap_congr
  intro k hk
  rcases hpopped with ⟨l, hl⟩
  rw [← hl, List.getElem?_append_left (hlt k hk)]

/-! ## The invariant -/

/-- The numbers of the tasks agree with what the workers have in their hands. -/
structure Tickets (d : DispatchConfig C N β υ) (s : State C N β υ) : Prop where
  unique : ∀ i j t t', (s.worker i).task? = some t → (s.worker j).task? = some t' →
    s.history.ticket i = s.history.ticket j → i = j
  unsignalled : ∀ i t, (s.worker i).task? = some t →
    s.history.ticket i ∉ s.history.signalled
  signalled : ∀ k ∈ s.history.signalled, ∃ t, s.history.popped[k]? = some t ∧
    (d.heap.task t).waitable = true
  deleted : ∀ k ∈ s.history.deleted, ∃ t, s.history.popped[k]? = some t ∧
    (d.heap.task t).waitable = false

section Tickets

variable [DecidableEq C] {d : DispatchConfig C N β υ} {s s' : State C N β υ} {c : C} {i : Fin N}

omit [DecidableEq C] in
theorem Tickets.lt_of_signalled (h : Tickets d s) :
    ∀ k ∈ s.history.signalled, k < s.history.popped.length := by
  intro k hk
  rcases h.signalled k hk with ⟨t, ht, -⟩
  exact (List.getElem?_eq_some_iff.mp ht).1

omit [DecidableEq C] in
/-- Steps after which no worker has a task that it did not have before. -/
theorem Tickets.frame (h : Tickets d s)
    (hhist : s'.history.popped = s.history.popped ∧ s'.history.ticket = s.history.ticket ∧
      s'.history.signalled = s.history.signalled ∧ s'.history.deleted = s.history.deleted)
    (hheld : ∀ i t, (s'.worker i).task? = some t → (s.worker i).task? = some t) :
    Tickets d s' := by
  rcases hhist with ⟨hpopped, hticket, hsig, hdel⟩
  constructor
  · intro i j t t' hi hj
    rw [hticket]
    exact h.unique i j t t' (hheld i t hi) (hheld j t' hj)
  · intro i t hi
    rw [hticket, hsig]
    exact h.unsignalled i t (hheld i t hi)
  · rw [hsig, hpopped]
    exact h.signalled
  · rw [hdel, hpopped]
    exact h.deleted

omit [DecidableEq C] in
/-- A worker goes on, and its task was its task before. -/
theorem Tickets.worker_goto (h : Tickets d s) {pc : WorkerPc C}
    (hhist : s'.history.popped = s.history.popped ∧ s'.history.ticket = s.history.ticket ∧
      s'.history.signalled = s.history.signalled ∧ s'.history.deleted = s.history.deleted)
    (hworker : s'.worker = Function.update s.worker i pc)
    (htask : ∀ t, pc.task? = some t → (s.worker i).task? = some t) : Tickets d s' := by
  refine h.frame hhist fun j t hj => ?_
  rw [hworker] at hj
  by_cases hji : j = i
  · subst hji
    rw [Function.update_self] at hj
    exact htask t hj
  · rwa [Function.update_of_ne hji] at hj

/-- A step of a client takes no task. -/
theorem Tickets.client_step (h : Tickets d s) (hstep : ClientStep d s c s') : Tickets d s' := by
  have hheld : ∀ i t, (s'.worker i).task? = some t → (s.worker i).task? = some t := by
    intro i t hi
    rwa [(hstep.worker_wokenTo i).task?_eq] at hi
  cases hstep with
  | notifyLost site _ _ => cases site <;> exact h.frame ⟨rfl, rfl, rfl, rfl⟩ hheld
  | _ => exact h.frame ⟨rfl, rfl, rfl, rfl⟩ hheld

omit [DecidableEq C] in
/-- A worker that signals or deletes gives its task out of its hands. -/
theorem Tickets.give (h : Tickets d s) {t : Nat} {pc : WorkerPc C}
    (htask : (s.worker i).task? = some t) (hpc : pc.task? = none)
    (hhist : s'.history.popped = s.history.popped ∧ s'.history.ticket = s.history.ticket)
    (hsig : s'.history.signalled = s.history.signalled ∨
      s'.history.signalled = s.history.signalled ++ [s.history.ticket i])
    (hworker : s'.worker = Function.update s.worker i pc)
    (hsignalled : ∀ k ∈ s'.history.signalled, ∃ t, s.history.popped[k]? = some t ∧
      (d.heap.task t).waitable = true)
    (hdeleted : ∀ k ∈ s'.history.deleted, ∃ t, s.history.popped[k]? = some t ∧
      (d.heap.task t).waitable = false) : Tickets d s' := by
  rcases hhist with ⟨hpopped, hticket⟩
  have hheld : ∀ j t', (s'.worker j).task? = some t' →
      j ≠ i ∧ (s.worker j).task? = some t' := by
    intro j t' hj
    rw [hworker] at hj
    by_cases hji : j = i
    · subst hji
      rw [Function.update_self, hpc] at hj
      cases hj
    · rw [Function.update_of_ne hji] at hj
      exact ⟨hji, hj⟩
  constructor
  · intro j k t₁ t₂ hj hk
    rw [hticket]
    exact h.unique j k t₁ t₂ (hheld j t₁ hj).2 (hheld k t₂ hk).2
  · intro j t' hj hmem
    rw [hticket] at hmem
    rcases hheld j t' hj with ⟨hji, hj⟩
    rcases hsig with hsig | hsig
    · rw [hsig] at hmem
      exact h.unsignalled j t' hj hmem
    · rw [hsig] at hmem
      rcases List.mem_append.mp hmem with hmem | hmem
      · exact h.unsignalled j t' hj hmem
      · exact hji (h.unique j i t' t hj htask (List.mem_singleton.mp hmem))
  · rw [hpopped]
    exact hsignalled
  · rw [hpopped]
    exact hdeleted

omit [DecidableEq C] in
/-- The number of a task that is popped is new. -/
theorem Tickets.pop (h : Tickets d s) (hacc : Accounted d s) {t : Nat} {rest : List Nat} :
    Tickets d (({ s with deque := rest }.record fun h =>
        { h with
          popped := h.popped ++ [t]
          ticket := Function.update h.ticket i h.popped.length
          woken := Function.update h.woken i false }).workerGoto i (.unlock t)) := by
  have hlt : ∀ j t', (s.worker j).task? = some t' →
      s.history.ticket j < s.history.popped.length := by
    intro j t' hj
    exact (List.getElem?_eq_some_iff.mp (hacc.task j t' hj)).1
  have hmono : ∀ (k t' : Nat), s.history.popped[k]? = some t' →
      (s.history.popped ++ [t])[k]? = some t' := by
    intro k t' hk
    rw [List.getElem?_append_left (List.getElem?_eq_some_iff.mp hk).1]
    exact hk
  constructor
  · intro j k t₁ t₂ hj hk hticket
    simp only [State.workerGoto, State.record] at hj hk hticket
    by_cases hji : j = i
    · by_cases hki : k = i
      · rw [hji, hki]
      · rw [Function.update_of_ne hki] at hk
        rw [hji, Function.update_self, Function.update_of_ne hki] at hticket
        have := hlt k t₂ hk
        omega
    · rw [Function.update_of_ne hji] at hj
      rw [Function.update_of_ne hji] at hticket
      by_cases hki : k = i
      · rw [hki, Function.update_self] at hticket
        have := hlt j t₁ hj
        omega
      · rw [Function.update_of_ne hki] at hk hticket
        exact h.unique j k t₁ t₂ hj hk hticket
  · intro j t' hj hmem
    simp only [State.workerGoto, State.record] at hj hmem
    by_cases hji : j = i
    · rw [hji, Function.update_self] at hmem
      have := h.lt_of_signalled _ hmem
      omega
    · rw [Function.update_of_ne hji] at hj hmem
      exact h.unsignalled j t' hj hmem
  · intro k hk
    rcases h.signalled k hk with ⟨t', ht', hw⟩
    exact ⟨t', hmono k t' ht', hw⟩
  · intro k hk
    rcases h.deleted k hk with ⟨t', ht', hw⟩
    exact ⟨t', hmono k t' ht', hw⟩

/-- A step of a worker keeps the numbers. -/
theorem Tickets.worker_step (h : Tickets d s) (hacc : Accounted d s)
    (hstep : WorkerStep s i s') : Tickets d s' := by
  cases hstep with
  | pop t rest _ _ => exact h.pop hacc
  | signal t counter hk =>
      have htask : (s.worker i).task? = some t := by rw [hk]; rfl
      have hwaitable : (d.heap.task t).waitable = true :=
        hacc.tested i t true htask (by rw [hk]; rfl)
      refine h.give htask rfl ⟨rfl, rfl⟩ (Or.inr rfl) rfl (fun k hmem => ?_) h.deleted
      rcases List.mem_append.mp hmem with hmem | hmem
      · exact h.signalled k hmem
      · rw [List.mem_singleton.mp hmem]
        exact ⟨t, hacc.task i t htask, hwaitable⟩
  | delete t hk =>
      have htask : (s.worker i).task? = some t := by rw [hk]; rfl
      have hwaitable : (d.heap.task t).waitable = false :=
        hacc.tested i t false htask (by rw [hk]; rfl)
      refine h.give htask rfl ⟨rfl, rfl⟩ (Or.inl rfl) rfl h.signalled fun k hmem => ?_
      rcases List.mem_append.mp hmem with hmem | hmem
      · exact h.deleted k hmem
      · rw [List.mem_singleton.mp hmem]
        exact ⟨t, hacc.task i t htask, hwaitable⟩
  | _ =>
      refine h.worker_goto (i := i) ⟨rfl, rfl, rfl, rfl⟩ rfl fun t' ht' => ?_
      rw [(by assumption : s.worker i = _)]
      exact ht'

/-- The numbers of the tasks agree with the workers in every reachable state. -/
theorem tickets_of_reachable (hs : d.system.Reachable s) : Tickets d s := by
  have hinit : Tickets d d.system.init := by
    constructor
    · intro i j t t' hi
      cases hi
    · intro i t hi
      cases hi
    · intro k hk
      cases hk
    · intro k hk
      cases hk
  refine hs.invariant hinit fun s l s' hs h hstep =>
    step_rule hs h hstep (fun _ _ _ _ h hstep => h.client_step hstep)
      (fun _ _ _ hs h hstep => h.worker_step (accounted_of_reachable hs) hstep) ?_ ?_ ?_
  · intro s i _ h hw
    refine h.frame ⟨rfl, rfl, rfl, rfl⟩ fun j t hj => ?_
    rwa [(State.wokenTo_wakeWorker hw j).task?_eq] at hj
  · intro s c site h _
    cases site <;> exact h.frame ⟨rfl, rfl, rfl, rfl⟩ fun _ _ hj => hj
  · exact fun s c pc h _ _ => h.frame ⟨rfl, rfl, rfl, rfl⟩ fun _ _ hj => hj

omit [DecidableEq C] in
/-- The tasks that workers delete are not waitable. -/
theorem Tickets.plain_of_deleted (h : Tickets d s) {t : Nat}
    (ht : t ∈ s.history.tasksOf s.history.deleted) : (d.heap.task t).waitable = false := by
  rcases History.mem_tasksOf.mp ht with ⟨k, hk, hkt⟩
  rcases h.deleted k hk with ⟨t', ht', hw⟩
  cases Option.some.inj (hkt.symm.trans ht')
  exact hw

omit [DecidableEq C] in
/-- When the tasks are distinct, a task in the hands of a worker was not signalled. -/
theorem Tickets.task_unsignalled (h : Tickets d s) (hacc : Accounted d s)
    (hnodup : s.history.popped.Nodup) {t : Nat} (ht : (s.worker i).task? = some t) :
    t ∉ s.history.tasksOf s.history.signalled := by
  intro hmem
  rcases History.mem_tasksOf.mp hmem with ⟨k, hk, hkt⟩
  rcases List.getElem?_eq_some_iff.mp hkt with ⟨hlt, heq⟩
  rcases List.getElem?_eq_some_iff.mp (hacc.task i t ht) with ⟨hlt', heq'⟩
  have hkey := (hnodup.getElem_inj_iff).mp (heq.trans heq'.symm)
  rw [hkey] at hk
  exact h.unsignalled i t ht hk

end Tickets

end Host
end LibDispatch
