import LibDispatch.Metal.Barrier
import LibDispatch.Metal.Discipline

/-!
# The mode in which the client pitches in

With {lit}`use_callers_thread` defined, a client that finds all workers busy runs the task it
is adding itself.  The comment on the mode promises that the queue then never holds more
tasks than there are workers.  But the status words tell when a worker has begun to run a
task, not how many tasks wait: a worker is ready until some time after it has received one,
and again before it has received the next.

A task that was sent is outstanding while it waits in the queue and then until its worker has
stored that it is ready again.  While the client reads the status words nothing is sent, so
each worker that was found busy keeps its task or leaves one outstanding task fewer.  If at
most as many tasks as there are workers are outstanding when the client begins to read, a
scan that finds all workers busy therefore leaves no task for the queue.

Main results:

- Theorem {lit}`Scanned.fifo_eq_nil`: then the queue is empty when all workers were found busy.
- Theorem {lit}`callersThread_of_guarded`: the promise holds in runs in which few enough tasks
  are outstanding whenever the client begins to scan the status words or sends a task.
- Theorem {lit}`callers_thread_order`: a client that only adds tasks and groups is promised this
  in all runs exactly if it submits no more tasks than there are workers, or one more and the
  queue has no more slots than there are workers.
-/

namespace LibDispatch
namespace Metal

variable {N : Nat} {β υ : Type}

/-- The queue holds at most as many tasks as there are workers, and is empty when the client is
about to call the function of a task on its own thread. -/
structure CallersThread
    (a : AtomicState (Unit ⊕ Fin N) Nat (Local Unit) (Env Unit N β υ)) : Prop where
  bound : a.fifo.length ≤ N
  order : ∀ ip t site, a.thread (.inl ()) = .client ip (.pitch t site .perform) → a.fifo = []

/-! ## Outstanding tasks -/

/-- One from the return of {lit}`queue_receive` until the worker has stored that it is ready. -/
def Local.engaged : Local Unit → Nat
  | .worker (.setBusy _) | .worker (.run _ _) | .worker .setReady => 1
  | _ => 0

/-- The tasks in the queue, and the workers that have received one and not yet stored that they
are ready again. -/
def outstanding (a : AtomicState (Unit ⊕ Fin N) Nat (Local Unit) (Env Unit N β υ)) : Nat :=
  a.fifo.length + tally Local.engaged fun i : Fin N => a.thread (.inr i)

/-- The condition on a step of the client: when it begins to read the status words, at most as
many tasks as there are workers are outstanding, and fewer when it sends a task, unless the
queue has no more slots than that. -/
def DispatchConfig.callersOk (d : DispatchConfig Unit N β υ)
    (a : AtomicState (Unit ⊕ Fin N) Nat (Local Unit) (Env Unit N β υ)) : Unit ⊕ Fin N → Bool
  | .inl c =>
      match a.thread (.inl c) with
      | .client _ (.addScan _ _ 0 _) => decide (outstanding a ≤ N)
      | .client _ (.send _ _) => decide (d.length ≤ N ∨ outstanding a < N)
      | _ => true
  | .inr _ => true

/-- The client has found the first {lit}`i` workers busy: those that have become ready since
are {lit}`done`, and each has taken an outstanding task away. -/
def Scanned (a : AtomicState (Unit ⊕ Fin N) Nat (Local Unit) (Env Unit N β υ)) (i : Nat) : Prop :=
  ∃ done : Finset (Fin N), outstanding a + done.card ≤ N ∧
    ∀ j : Fin N, j.val < i → j ∈ done ∨ 0 < (a.thread (.inr j)).engaged

/-- The word that the client reads next, and the busy workers it has counted. -/
def Local.addScanning : Local Unit → Option (Nat × Nat)
  | .client _ (.addScan _ _ i busy) => some (i, busy)
  | _ => none

/-- What holds along the runs that meet the condition. -/
structure CallersInv
    (a : AtomicState (Unit ⊕ Fin N) Nat (Local Unit) (Env Unit N β υ)) : Prop where
  promise : CallersThread a
  scan : ∀ i busy, (a.thread (.inl ())).addScanning = some (i, busy) →
    busy ≤ i ∧ i ≤ N ∧ (0 < i → busy = i → Scanned a i)

section Scans

variable {a a' b : AtomicState (Unit ⊕ Fin N) Nat (Local Unit) (Env Unit N β υ)} {i : Nat}

theorem scanned_zero (h : outstanding a ≤ N) : Scanned a 0 :=
  ⟨∅, by simpa using h, fun j hj => absurd hj (Nat.not_lt_zero j)⟩

/-- The next worker is found busy. -/
theorem Scanned.succ (h : Scanned a i) (hi : i < N)
    (hbusy : 0 < (a.thread (.inr ⟨i, hi⟩)).engaged) : Scanned a (i + 1) := by
  rcases h with ⟨done, hcard, hfound⟩
  refine ⟨done, hcard, fun j hj => ?_⟩
  rcases Nat.lt_succ_iff_lt_or_eq.mp hj with hlt | heq
  · exact hfound j hlt
  · cases j
    cases heq
    exact Or.inr hbusy

/-- When all workers were found busy, no task waits. -/
theorem Scanned.fifo_eq_nil (h : Scanned a N) : a.fifo = [] := by
  rcases h with ⟨done, hcard, hfound⟩
  let engaged := Finset.univ.filter fun j : Fin N => 0 < (a.thread (.inr j)).engaged
  have hcover : (Finset.univ : Finset (Fin N)) ⊆ done ∪ engaged := by
    intro j _
    rcases hfound j j.isLt with hdone | hengaged
    · exact Finset.mem_union_left _ hdone
    · exact Finset.mem_union_right _ (Finset.mem_filter.mpr ⟨Finset.mem_univ j, hengaged⟩)
  have hall : N ≤ done.card + engaged.card :=
    calc N = (Finset.univ : Finset (Fin N)).card := (Finset.card_fin N).symm
      _ ≤ (done ∪ engaged).card := Finset.card_le_card hcover
      _ ≤ done.card + engaged.card := Finset.card_union_le _ _
  have hengaged : engaged.card ≤ tally Local.engaged fun j : Fin N => a.thread (.inr j) :=
    calc engaged.card = ∑ _j ∈ engaged, 1 := Finset.card_eq_sum_ones engaged
      _ ≤ ∑ j ∈ engaged, (a.thread (.inr j)).engaged :=
          Finset.sum_le_sum fun j hj => (Finset.mem_filter.mp hj).2
      _ ≤ tally Local.engaged fun j : Fin N => a.thread (.inr j) :=
          Finset.sum_le_sum_of_subset (Finset.subset_univ _)
  unfold outstanding at hcard
  exact List.length_eq_zero_iff.mp (by omega)

/-- What a step of a worker does to the outstanding tasks. -/
theorem outstanding_worker {j : Fin N} {k : Local Unit}
    (hthread : b.thread = Function.update a.thread (.inr j) k) :
    outstanding b + a.fifo.length + (a.thread (.inr j)).engaged =
      outstanding a + b.fifo.length + k.engaged := by
  have hworkers : (fun v : Fin N => b.thread (.inr v)) =
      Function.update (fun v : Fin N => a.thread (.inr v)) j k := by
    rw [hthread]
    exact Function.update_comp_eq_of_injective a.thread Sum.inr_injective j k
  have htally := tally_update Local.engaged (fun v : Fin N => a.thread (.inr v)) j k
  rw [outstanding, outstanding, hworkers]
  omega

/-- A step of the client changes them by what it sends. -/
theorem outstanding_client {k : Local Unit}
    (hthread : b.thread = Function.update a.thread (.inl ()) k) :
    outstanding b + a.fifo.length = outstanding a + b.fifo.length := by
  simp only [outstanding, hthread, ne_eq, reduceCtorEq, not_false_eq_true,
    Function.update_of_ne]
  omega

/-- Steps that keep the busy workers engaged. -/
theorem Scanned.keep (h : Scanned a i) (hle : outstanding a' ≤ outstanding a)
    (hengaged : ∀ j, 0 < (a.thread (.inr j)).engaged → 0 < (a'.thread (.inr j)).engaged) :
    Scanned a' i := by
  rcases h with ⟨done, hcard, hfound⟩
  refine ⟨done, by omega, fun j hj => ?_⟩
  exact (hfound j hj).imp_right (hengaged j)

/-- A worker becomes ready. -/
theorem Scanned.ready (h : Scanned a i) {j : Fin N} (hlt : outstanding a' < outstanding a)
    (hother : ∀ j', j' ≠ j → a'.thread (.inr j') = a.thread (.inr j')) : Scanned a' i := by
  rcases h with ⟨done, hcard, hfound⟩
  have hinsert := Finset.card_insert_le j done
  refine ⟨insert j done, by omega, fun j' hj' => ?_⟩
  by_cases hj : j' = j
  · exact Or.inl (hj ▸ Finset.mem_insert_self j done)
  · rw [hother j' hj]
    exact (hfound j' hj').imp_left Finset.mem_insert_of_mem

end Scans

/-! ## Steps keep the promise -/

section Steps

variable {d : DispatchConfig Unit N β υ}
  {a a' : AtomicState (Unit ⊕ Fin N) Nat (Local Unit) (Env Unit N β υ)} {u : Unit ⊕ Fin N}

/-- No statement of {lit}`run_task` leads back to the call. -/
theorem RunStep.ne_perform {me : Unit ⊕ Fin N} {env env' : Env Unit N β υ} {t : Nat}
    {at_ : RunPc Unit} {r : Option (RunPc Unit)} (h : RunStep me env t at_ env' r) :
    r ≠ some .perform := by
  cases h <;> simp

/-- The client starts no task and reads no status word by a step within a task. -/
theorem Local.runNext_client {ip t : Nat} {pc : ClientPc Unit} {at_ : RunPc Unit}
    (hrun : (Local.client ip pc).runAt = some (t, at_)) {r : Option (RunPc Unit)}
    (hr : r ≠ some .perform) :
    (∀ ip' t' site, (Local.client ip pc).runNext r ≠ .client ip' (.pitch t' site .perform)) ∧
    ((Local.client ip pc).runNext r).addScanning = none := by
  cases pc with
  | pitch t' site at' =>
      cases r with
      | none => cases site <;> simp [Local.runNext, AddSite.next, Local.addScanning]
      | some at'' =>
          refine ⟨fun ip' t'' site' heq => ?_, rfl⟩
          cases heq
          exact hr rfl
  | _ => cases hrun

/-- A worker that runs a task stays engaged until it has stored that it is ready. -/
theorem Local.engaged_runNext {pc : WorkerPc Unit} {t : Nat} {at_ : RunPc Unit}
    (hrun : (Local.worker pc).runAt = some (t, at_)) (r : Option (RunPc Unit)) :
    ((Local.worker pc).runNext r).engaged = 1 ∧ (Local.worker pc).engaged = 1 := by
  cases pc with
  | run t' at' => cases r <;> exact ⟨rfl, rfl⟩
  | _ => cases hrun

theorem Local.engaged_of_isBusy {k : Local Unit} (h : k.isBusy = true) : 0 < k.engaged := by
  cases k with
  | client ip pc => cases h
  | worker pc =>
      cases pc with
      | run t at_ => exact Nat.one_pos
      | setReady => exact Nat.one_pos
      | _ => cases h

/-- Adding a task starts with the first status word, if with any. -/
theorem DispatchConfig.addEntry_start (d : DispatchConfig Unit N β υ) (ip t : Nat)
    (site : AddSite Unit) :
    (∀ ip' t' site', Local.client ip (d.addEntry t site) ≠
      .client ip' (.pitch t' site' .perform)) ∧
    ∀ i busy, (Local.client ip (d.addEntry t site)).addScanning = some (i, busy) →
      i = 0 ∧ busy = 0 := by
  unfold DispatchConfig.addEntry
  split
  · simp [Local.addScanning]
  · simp [Local.addScanning]

theorem AddSite.next_start (ip : Nat) (site : AddSite Unit) :
    (∀ ip' t' site', site.next ip ≠ .client ip' (.pitch t' site' .perform)) ∧
    (site.next ip).addScanning = none := by
  cases site <;> simp [AddSite.next, Local.addScanning]

/-- A worker's step. -/
theorem CallersInv.worker_step (h : CallersInv a)
    (hclient : a'.thread (.inl ()) = a.thread (.inl ()))
    (hfifo : a'.fifo.length ≤ a.fifo.length) (hscan : ∀ i, Scanned a i → Scanned a' i) :
    CallersInv a' where
  promise := by
    refine ⟨hfifo.trans h.promise.bound, fun ip t site hk => ?_⟩
    rw [hclient] at hk
    rw [h.promise.order ip t site hk] at hfifo
    exact List.length_eq_zero_iff.mp (Nat.le_zero.mp hfifo)
  scan := by
    intro i busy hk
    rw [hclient] at hk
    rcases h.scan i busy hk with ⟨hbusy, hi, hscanned⟩
    exact ⟨hbusy, hi, fun hpos heq => hscan i (hscanned hpos heq)⟩

/-- A step of a worker that neither receives a task nor becomes ready. -/
theorem CallersInv.worker_quiet (h : CallersInv a) (i : Fin N) (k : Local Unit)
    (env : Env Unit N β υ) (hk : k.engaged = (a.thread (.inr i)).engaged) :
    CallersInv { a with env := env, thread := Function.update a.thread (.inr i) k } := by
  refine h.worker_step (by simp) (Nat.le_refl _) fun n hscanned => hscanned.keep ?_ ?_
  · have hout := outstanding_worker (a := a)
      (b := { a with env := env, thread := Function.update a.thread (.inr i) k }) rfl
    change _ + a.fifo.length + _ = _ + a.fifo.length + _ at hout
    omega
  · intro j hj
    by_cases hji : j = i
    · subst hji
      simpa [hk] using hj
    · simpa [hji] using hj

/-- A step of the client that neither sends nor starts a task nor reads a status word. -/
theorem CallersInv.client_step (h : CallersInv a) (k : Local Unit) (env : Env Unit N β υ)
    (hstart : ∀ ip t site, k ≠ .client ip (.pitch t site .perform))
    (hscan : ∀ i busy, k.addScanning = some (i, busy) → i = 0 ∧ busy = 0) :
    CallersInv { a with env := env, thread := Function.update a.thread (.inl ()) k } where
  promise := by
    refine ⟨h.promise.bound, fun ip t site hk => ?_⟩
    simp only [Function.update_self] at hk
    exact absurd hk (hstart ip t site)
  scan := by
    intro i busy hk
    simp only [Function.update_self] at hk
    rcases hscan i busy hk with ⟨rfl, rfl⟩
    exact ⟨Nat.le_refl 0, Nat.zero_le N, fun hpos => absurd hpos (Nat.lt_irrefl 0)⟩

/-- The client reads the status word of worker {lit}`i`. -/
theorem CallersInv.read (h : CallersInv a) (hstatus : StatusAgrees a) {ip t i busy : Nat}
    {site : AddSite Unit} (hi : i < N)
    (hk : a.thread (.inl ()) = .client ip (.addScan t site i busy))
    (hok : i = 0 → outstanding a ≤ N) :
    CallersInv { a with
      thread := Function.update a.thread (.inl ())
        (.client ip (.addScan t site (i + 1) (busyCount (a.env.status ⟨i, hi⟩) busy))) } where
  promise := by
    refine ⟨h.promise.bound, fun ip' t' site' hk' => ?_⟩
    simp only [Function.update_self] at hk'
    cases hk'
  scan := by
    intro i' busy' hk'
    simp only [Function.update_self, Local.addScanning, Option.some.injEq,
      Prod.mk.injEq] at hk'
    rcases hk' with ⟨rfl, rfl⟩
    rcases h.scan i busy (by rw [hk]; rfl) with ⟨hbusy, -, hscanned⟩
    by_cases hword : a.env.status ⟨i, hi⟩ = .busy
    · rw [busyCount, if_pos hword]
      refine ⟨by omega, hi, fun _ heq => ?_⟩
      have hbefore : Scanned a i := by
        rcases Nat.eq_zero_or_pos i with rfl | hpos
        · exact scanned_zero (hok rfl)
        · exact hscanned hpos (by omega)
      have hengaged := Local.engaged_of_isBusy ((hstatus ⟨i, hi⟩).mp hword)
      refine (hbefore.succ hi hengaged).keep ?_ (by simp)
      have hout := outstanding_client (a := a) (b := { a with
        thread := Function.update a.thread (.inl ())
          (.client ip (.addScan t site (i + 1) (busy + 1))) }) rfl
      change _ + a.fifo.length = _ + a.fifo.length at hout
      omega
    · rw [busyCount, if_neg hword]
      exact ⟨by omega, hi, fun _ heq => by omega⟩

/-- A step that meets the condition keeps the promise. -/
theorem CallersInv.step (h : CallersInv a) (htracked : Tracked d a) (hstatus : StatusAgrees a)
    (hok : d.callersOk a u = true) (hstep : DispatchStep d a u a') : CallersInv a' := by
  cases hstep with
  | send c ip t site hk hroom =>
      rw [DispatchConfig.callersOk, hk, decide_eq_true_iff] at hok
      rcases site.next_start ip with ⟨hstart, hscan⟩
      refine ⟨⟨?_, fun ip' t' site' hk' => ?_⟩, fun i busy hk' => ?_⟩
      · unfold outstanding at hok
        rw [List.length_append, List.length_singleton]
        omega
      · simp only [Function.update_self] at hk'
        exact absurd hk' (hstart ip' t' site')
      · simp only [Function.update_self, hscan] at hk'
        cases hk'
  | receive i t rest hk hfifo =>
      have hlen : a.fifo.length = rest.length + 1 := by rw [hfifo, List.length_cons]
      refine h.worker_step (by simp) (by simp [hlen]) fun n hscanned => hscanned.keep ?_ ?_
      · have hout := outstanding_worker (a := a) (b := { a with
          fifo := rest
          thread := Function.update a.thread (.inr i) (.worker (.setBusy t)) }) rfl
        rw [hk] at hout
        change _ + a.fifo.length + 0 = _ + rest.length + 1 at hout
        omega
      · intro j hj
        by_cases hji : j = i
        · subst hji
          simp [Local.engaged]
        · simpa [hji] using hj
  | setReady i hk =>
      refine h.worker_step (by simp) (Nat.le_refl _) fun n hscanned =>
        hscanned.ready (j := i) ?_ ?_
      · have hout := outstanding_worker (a := a) (b := { a with
          env := { a.env with status := Function.update a.env.status i .ready }
          thread := Function.update a.thread (.inr i) (.worker .receive) }) rfl
        rw [hk] at hout
        change _ + a.fifo.length + 1 = _ + a.fifo.length + 0 at hout
        omega
      · intro j hj
        simp [hj]
  | addRead c ip t site i busy hi hk =>
      refine h.read hstatus hi hk ?_
      rintro rfl
      rw [DispatchConfig.callersOk, hk] at hok
      exact of_decide_eq_true hok
  | addPitch c ip t site i busy hi hk hbusy =>
      rcases h.scan i busy (by rw [hk]; rfl) with ⟨hle, hiN, hscanned⟩
      have hall : Scanned a i := by
        rcases Nat.eq_zero_or_pos i with rfl | hpos
        · rw [DispatchConfig.callersOk, hk] at hok
          exact scanned_zero (of_decide_eq_true hok)
        · exact hscanned hpos (by omega)
      rw [show i = N by omega] at hall
      have hfifo := hall.fifo_eq_nil
      refine ⟨⟨h.promise.bound, fun _ _ _ _ => hfifo⟩, fun i' busy' hk' => ?_⟩
      simp only [Function.update_self] at hk'
      cases hk'
  | run u t at_ env' r hrun hr =>
      cases u with
      | inl c =>
          cases hk : a.thread (.inl c) with
          | worker pc =>
              have hc := htracked.client c
              rw [hk] at hc
              cases hc
          | client ip pc =>
              rw [hk] at hrun
              rcases Local.runNext_client hrun hr.ne_perform with ⟨hstart, hscan⟩
              refine h.client_step _ _ hstart fun i busy hsome => ?_
              rw [hscan] at hsome
              cases hsome
      | inr i =>
          rcases htracked.worker i with ⟨pc, hk⟩
          rw [hk] at hrun ⊢
          rcases Local.engaged_runNext hrun r with ⟨hnew, hold⟩
          exact h.worker_quiet i _ env' (by rw [hk, hnew, hold])
  | start i hk => exact h.worker_quiet i _ a.env (by rw [hk]; rfl)
  | setBusy i t hk => exact h.worker_quiet i _ _ (by rw [hk]; rfl)
  | freeCend i hk => exact h.worker_quiet i _ a.env (by rw [hk]; rfl)
  | addSend c ip t site i busy hi hk hbusy =>
      exact h.client_step _ _ (by simp) (by simp [Local.addScanning])
  | taskAddWaitable c ip t hk hcall hw =>
      rcases d.addEntry_start ip t .task with ⟨hstart, hscan⟩
      exact h.client_step _ _ hstart hscan
  | taskAddPlain c ip t hk hcall hw =>
      rcases d.addEntry_start ip t .task with ⟨hstart, hscan⟩
      exact h.client_step _ _ hstart hscan
  | groupStore c ip g i t counter hk htask =>
      rcases d.addEntry_start ip t (.member g i counter) with ⟨hstart, hscan⟩
      exact h.client_step _ _ hstart hscan
  | freeObject c ip object k hk hnext =>
      rcases hnext with rfl | ⟨object', rfl⟩
      · exact h.client_step _ _ (by simp) (by simp [Local.addScanning])
      · exact h.client_step _ _ (by simp) (by simp [Local.addScanning])
  | _ => exact h.client_step _ _ (by simp) (by simp [Local.addScanning])

/-- The promise holds in the runs whose steps all meet the condition. -/
theorem callersThread_of_guarded
    (ha : (d.atomicThreads.guarded fun a u => d.callersOk a u = true).Reachable a) :
    CallersThread a := by
  have hinv : CallersInv a := by
    refine ha.invariant ?_ ?_
    · refine ⟨⟨Nat.zero_le N, fun ip t site hk => ?_⟩, fun i busy hk => ?_⟩
      · cases hk
      · cases hk
    · intro a u a' hr h hstep
      rcases System.guarded_step.mp hstep with ⟨hok, hstep⟩
      exact h.step (tracked_of_reachable hr.of_guarded) (statusAgrees_of_reachable hr.of_guarded)
        hok (dispatchStep_of_step hstep)
  exact hinv.promise

/-! ## Clients that submit few tasks -/

/-- The number of tasks that the calls of the client submit. -/
def DispatchConfig.total (d : DispatchConfig Unit N β υ) : Nat :=
  ((d.prog ()).flatMap (DispatchCall.tasks d.heap)).length

/-- A step changes the local state of its thread. -/
theorem DispatchStep.thread_eq (h : DispatchStep d a u a') :
    a'.thread = Function.update a.thread u (a'.thread u) := by
  cases h <;> simp

/-- A step of a worker adds no outstanding task. -/
theorem DispatchStep.worker_engaged {i : Fin N} (h : DispatchStep d a (.inr i) a')
    (htracked : Tracked d a) : a'.fifo.length + (a'.thread (.inr i)).engaged ≤
      a.fifo.length + (a.thread (.inr i)).engaged := by
  cases h with
  | receive i t rest hk hfifo => simp [hk, hfifo, Local.engaged]
  | run u t at_ env' r hrun hr =>
      rcases htracked.worker i with ⟨pc, hk⟩
      rw [hk] at hrun
      rcases Local.engaged_runNext hrun r with ⟨hnew, hold⟩
      simp [hk, hnew, hold]
  | start i hk => simp [hk, Local.engaged]
  | setBusy i t hk => simp [hk, Local.engaged]
  | setReady i hk => simp [hk, Local.engaged]
  | freeCend i hk => simp [hk, Local.engaged]

/-- What a step sends becomes outstanding. -/
theorem DispatchStep.outstanding_le (h : DispatchStep d a u a') (htracked : Tracked d a) :
    outstanding a' ≤ outstanding a + (a'.fifo.length - a.fifo.length) := by
  cases u with
  | inl c =>
      have hout := outstanding_client h.thread_eq
      omega
  | inr i =>
      have hout := outstanding_worker h.thread_eq
      have hengaged := h.worker_engaged htracked
      omega

/-- The tasks that the client has added so far grow by what it sends. -/
theorem DispatchStep.added_le (h : DispatchStep d a u a') (htracked : Tracked d a) :
    (d.added () (a.thread (.inl ()))).length + (a'.fifo.length - a.fifo.length) ≤
      (d.added () (a'.thread (.inl ()))).length := by
  cases h.move htracked with
  | send t hfifo hadded _ _ => simp [hfifo, hadded]
  | receive t hfifo hadded _ _ _ _ => simp [hfifo, hadded]
  | pitch t _ hfifo hadded _ _ _ _ => simp [hfifo, hadded]
  | run t at_ env' r hrun hstep heq =>
      rw [heq]
      change _ ≤ (d.added () (Function.update a.thread u ((a.thread u).runNext r) _)).length
      rw [htracked.added_runNext hrun r, Nat.sub_self, Nat.add_zero]
  | silent hfifo hadded _ _ _ => simp [hfifo, hadded]

theorem outstanding_le_added (ha : d.atomicThreads.Reachable a) :
    outstanding a ≤ (d.added () (a.thread (.inl ()))).length := by
  refine ha.invariant (P := fun a => outstanding a ≤ (d.added () (a.thread (.inl ()))).length)
    ?_ fun a u a' hr h hstep => ?_
  · have hidle : tally Local.engaged (fun _ : Fin N => (.worker .start : Local Unit)) = 0 :=
      tally_eq_zero_iff.mpr fun _ => rfl
    change 0 + tally Local.engaged (fun _ : Fin N => (.worker .start : Local Unit)) ≤ 0
    rw [hidle]
  · have htracked := tracked_of_reachable hr
    have hout := (dispatchStep_of_step hstep).outstanding_le htracked
    have hadded := (dispatchStep_of_step hstep).added_le htracked
    omega

/-- While the client is adding a task, the outstanding tasks are fewer than it submits. -/
theorem outstanding_lt_total (ha : d.atomicThreads.Reachable a) {ip t : Nat}
    {site : AddSite Unit} {pc : ClientPc Unit} (hk : a.thread (.inl ()) = .client ip pc)
    (hpc : (∃ i busy, pc = .addScan t site i busy) ∨ pc = .send t site) :
    outstanding a < d.total := by
  have hout := outstanding_le_added ha
  have htracked := tracked_of_reachable ha
  have hsite : d.SiteAt () ip t site := by
    have hat := htracked.clientAt hk
    rcases hpc with ⟨i, busy, rfl⟩ | rfl
    · exact hat
    · exact hat
  have hprefix := hsite.prefix_site.length_le
  have hadded : d.added () (a.thread (.inl ())) = d.submitted () ip ++ site.before d.heap := by
    rw [hk]
    rcases hpc with ⟨i, busy, rfl⟩ | rfl <;> rfl
  rw [hadded] at hout
  simp only [List.length_append, List.length_singleton] at hout hprefix
  unfold DispatchConfig.total
  omega

/-- Few tasks meet the condition in every run. -/
theorem callersOk_of_total (ha : d.atomicThreads.Reachable a)
    (htotal : d.total ≤ N ∨ d.total = N + 1 ∧ d.length ≤ N) (u : Unit ⊕ Fin N) :
    d.callersOk a u = true := by
  cases u with
  | inr i => rfl
  | inl c =>
      simp only [DispatchConfig.callersOk]
      split
      · rename_i hk
        have hlt := outstanding_lt_total ha hk (Or.inl ⟨_, _, rfl⟩)
        exact decide_eq_true (by omega)
      · rename_i hk
        have hlt := outstanding_lt_total ha hk (Or.inr rfl)
        exact decide_eq_true (by omega)
      · rfl

/-- A client that submits few tasks is promised the order in every run. -/
theorem callersThread_of_total (ha : d.atomicThreads.Reachable a)
    (htotal : d.total ≤ N ∨ d.total = N + 1 ∧ d.length ≤ N) : CallersThread a := by
  refine callersThread_of_guarded (d := d) ?_
  induction ha with
  | init => exact .init
  | step hr hstep ih =>
      exact ih.step (System.guarded_step.mpr ⟨callersOk_of_total hr htotal _, hstep⟩)

/-! ## Clients that submit more -/

/-- The client only adds tasks and groups. -/
def DispatchConfig.OnlyAdds (d : DispatchConfig Unit N β υ) : Prop :=
  ∀ call ∈ d.prog (), (∃ t, call = .taskAdd t) ∨ ∃ g, call = .groupAdd g

/-- The client is between two tasks that it adds. -/
def Local.between : Local Unit → Bool
  | .client _ .ready | .client _ (.groupLoop _ _ _) => true
  | _ => false

/-- The client has added {lit}`n` tasks. -/
structure Adding (d : DispatchConfig Unit N β υ)
    (a : AtomicState (Unit ⊕ Fin N) Nat (Local Unit) (Env Unit N β υ)) (n : Nat) : Prop where
  reachable : d.atomicThreads.Reachable a
  between : (a.thread (.inl ())).between = true
  added : (d.added () (a.thread (.inl ()))).length = n

/-- By steps of its own code the client has gone on to {lit}`k`. -/
structure Alone (d : DispatchConfig Unit N β υ) (k : Local Unit)
    (a a' : AtomicState (Unit ⊕ Fin N) Nat (Local Unit) (Env Unit N β υ)) : Prop where
  reachable : d.atomicThreads.Reachable a'
  fifo : a'.fifo = a.fifo
  status : a'.env.status = a.env.status
  worker : ∀ i, a'.thread (.inr i) = a.thread (.inr i)
  client : a'.thread (.inl ()) = k

theorem Alone.refl (ha : d.atomicThreads.Reachable a) {k : Local Unit}
    (hk : a.thread (.inl ()) = k) : Alone d k a a :=
  ⟨ha, rfl, rfl, fun _ => rfl, hk⟩

theorem Alone.trans {b : AtomicState (Unit ⊕ Fin N) Nat (Local Unit) (Env Unit N β υ)}
    {k k' : Local Unit} (h : Alone d k a a') (h' : Alone d k' a' b) : Alone d k' a b :=
  ⟨h'.reachable, h'.fifo.trans h.fifo, h'.status.trans h.status,
    fun i => (h'.worker i).trans (h.worker i), h'.client⟩

/-- A step of the client's own code. -/
theorem Alone.of_step (ha : d.atomicThreads.Reachable a) {ip : Nat} {pc : ClientPc Unit}
    {k : Local Unit} {e : Env Unit N β υ} (hk : a.thread (.inl ()) = .client ip pc)
    (hcall : d.caller.call (.inl ()) (.client ip pc) = none)
    (hstep : d.clientStep () ip a.env pc = some (k, e)) (hstatus : e.status = a.env.status) :
    Alone d k a { a with env := e, thread := Function.update a.thread (.inl ()) k } where
  reachable := by
    refine ha.step (a := Sum.inl ()) ?_
    have hown : d.caller.step (.inl ()) (.client ip pc) a.env = some (k, e) := hstep
    simp [DispatchConfig.atomicThreads, atomicThreads, hk, hcall, hown]
  fifo := rfl
  status := hstatus
  worker := by simp
  client := by simp

/-- In the loop of {lit}`dispatch_queue_group_add` the client goes on to its next task or
leaves the loop. -/
theorem exists_loop (hmode : d.useCallersThread = true) (ha : d.atomicThreads.Reachable a)
    {ip g i : Nat} {counter : Option (Unit × Nat)}
    (hk : a.thread (.inl ()) = .client ip (.groupLoop g i counter)) :
    ∃ a' k, Alone d k a a' ∧ d.added () k = d.added () (a.thread (.inl ())) ∧
      ((∃ ip' t site, k = .client ip' (.addScan t site 0 0)) ∨ k = .client (ip + 1) .ready) := by
  have htracked := tracked_of_reachable ha
  rcases htracked.clientAt hk with ⟨hcall, -, hi⟩
  have hgroup := congrFun htracked.group g
  cases htask : (d.heap.group g).tasks[i]? with
  | none =>
      refine ⟨_, _, .of_step ha hk rfl ?_ rfl, ?_, Or.inr rfl⟩
      · simp [DispatchConfig.clientStep, hgroup, htask]
      · rw [List.getElem?_eq_none_iff] at htask
        simp [hk, DispatchConfig.added, d.submitted_succ hcall, DispatchCall.tasks,
          ClientPc.added, List.take_of_length_le htask]
  | some t =>
      refine ⟨_, .client ip (.addScan t (.member g i counter) 0 0), .of_step ha hk rfl
        (e := a.env.storePrivateData t counter) ?_ rfl, ?_, Or.inl ⟨_, _, _, rfl⟩⟩
      · simp [DispatchConfig.clientStep, DispatchConfig.addEntry, hgroup, htask, hmode]
      · rw [hk]
        rfl

/-- The client enters its next call. -/
theorem exists_call (hmode : d.useCallersThread = true) (hadds : d.OnlyAdds)
    (ha : d.atomicThreads.Reachable a) {ip : Nat}
    (hk : a.thread (.inl ()) = .client ip .ready) (hip : ip < (d.prog ()).length) :
    ∃ a' k, Alone d k a a' ∧ d.added () k = d.added () (a.thread (.inl ())) ∧
      ((∃ ip' t site, k = .client ip' (.addScan t site 0 0)) ∨
        ∃ g counter, k = .client ip (.groupLoop g 0 counter)) := by
  have hcall := List.getElem?_eq_getElem hip
  have hready : d.caller.call (.inl ()) (.client ip .ready) = none := by
    rcases hadds _ (List.getElem_mem hip) with ⟨t, hadd⟩ | ⟨g, hadd⟩
    · simp [DispatchConfig.caller, hcall, hadd]
    · simp [DispatchConfig.caller, hcall, hadd]
  have hadded : d.added () (a.thread (.inl ())) = d.submitted () ip := by
    rw [hk]
    exact List.append_nil _
  rcases hadds _ (List.getElem_mem hip) with ⟨t, hadd⟩ | ⟨g, hadd⟩
  · rw [hadd] at hcall
    let env := if (a.env.heap.task t).waitable = true then
      (a.env.setCounter ((), ip) (eventCounterCreate 1)).storePrivateData t (some ((), ip))
      else a.env
    refine ⟨_, .client ip (.addScan t .task 0 0), .of_step ha hk hready (e := env) ?_ ?_, ?_,
      Or.inl ⟨_, _, _, rfl⟩⟩
    · simp [DispatchConfig.clientStep, DispatchConfig.startCall, DispatchConfig.addEntry, hcall,
        hmode, env]
    · simp only [env]
      split <;> rfl
    · rw [hadded]
      exact List.append_nil _
  · rw [hadd] at hcall
    cases hw : (a.env.heap.group g).waitable with
    | true =>
        refine ⟨_, .client ip (.groupLoop g 0 (some ((), ip))), .of_step ha hk hready
          (e := a.env.setCounter ((), ip) (eventCounterCreate (a.env.heap.group g).count))
          ?_ rfl, ?_, Or.inr ⟨_, _, rfl⟩⟩
        · simp [DispatchConfig.clientStep, DispatchConfig.startCall, hcall, hw]
        · rw [hadded]
          exact List.append_nil _
    | false =>
        refine ⟨_, .client ip (.groupLoop g 0 none), .of_step ha hk hready (e := a.env)
          ?_ rfl, ?_, Or.inr ⟨_, _, rfl⟩⟩
        · simp [DispatchConfig.clientStep, DispatchConfig.startCall, hcall, hw]
        · rw [hadded]
          exact List.append_nil _

/-- A client that has not added all its tasks has calls left. -/
theorem lt_length_of_added {ip : Nat} (hk : a.thread (.inl ()) = .client ip .ready)
    (hlt : (d.added () (a.thread (.inl ()))).length < d.total) : ip < (d.prog ()).length := by
  by_contra hge
  have hadded : d.added () (a.thread (.inl ())) = d.submitted () ip := by
    rw [hk]
    exact List.append_nil _
  rw [hadded, DispatchConfig.submitted, List.take_of_length_le (Nat.le_of_not_lt hge)] at hlt
  exact Nat.lt_irrefl _ hlt

/-- Before a call, a client that has not added all its tasks can go on to the next one.  The
induction is on the number of calls left, since a group may be empty. -/
theorem exists_scan_of_ready (hmode : d.useCallersThread = true) (hadds : d.OnlyAdds) (left : Nat)
    {ip : Nat} (hleft : (d.prog ()).length ≤ ip + left) (ha : d.atomicThreads.Reachable a)
    (hk : a.thread (.inl ()) = .client ip .ready)
    (hlt : (d.added () (a.thread (.inl ()))).length < d.total) :
    ∃ a' k, Alone d k a a' ∧ d.added () k = d.added () (a.thread (.inl ())) ∧
      ∃ ip' t site, k = .client ip' (.addScan t site 0 0) := by
  have hip := lt_length_of_added hk hlt
  induction left generalizing a ip with
  | zero => omega
  | succ left ih =>
      rcases exists_call hmode hadds ha hk hip with ⟨b, k, hb, hkb, hscan | ⟨g, counter, rfl⟩⟩
      · exact ⟨b, k, hb, hkb, hscan⟩
      rcases exists_loop hmode hb.reachable hb.client with ⟨b', k', hb', hkb', hscan | rfl⟩
      · rw [hb.client, hkb] at hkb'
        exact ⟨b', k', hb.trans hb', hkb', hscan⟩
      -- the group is empty
      rw [hb.client, hkb] at hkb'
      rw [← hkb', ← hb'.client] at hlt
      have hip' := lt_length_of_added hb'.client hlt
      rcases ih (by omega) hb'.reachable hb'.client hlt hip' with ⟨b'', k'', hb'', hkb'', hscan⟩
      rw [hb'.client, hkb'] at hkb''
      exact ⟨b'', k'', (hb.trans hb').trans hb'', hkb'', hscan⟩

/-- A client that has not added all its tasks can go on to the next one. -/
theorem Adding.exists_scan {n : Nat} (h : Adding d a n) (hmode : d.useCallersThread = true)
    (hadds : d.OnlyAdds) (hn : n < d.total) :
    ∃ a' ip t site, Alone d (.client ip (.addScan t site 0 0)) a a' ∧
      (d.submitted () ip ++ site.before d.heap).length = n := by
  have hlt : (d.added () (a.thread (.inl ()))).length < d.total := h.added ▸ hn
  have hready : ∀ {b : AtomicState (Unit ⊕ Fin N) Nat (Local Unit) (Env Unit N β υ)} {ip : Nat},
      Alone d (.client ip .ready) a b → d.added () (.client ip .ready) =
        d.added () (a.thread (.inl ())) → ∃ a' k, Alone d k a a' ∧
          d.added () k = d.added () (a.thread (.inl ())) ∧
            ∃ ip' t site, k = .client ip' (.addScan t site 0 0) := by
    intro b ip hb hkb
    rw [← hkb, ← hb.client] at hlt
    rcases exists_scan_of_ready hmode hadds (d.prog ()).length (by omega) hb.reachable hb.client
      hlt with ⟨b', k', hb', hkb', hscan⟩
    rw [hb.client, hkb] at hkb'
    exact ⟨b', k', hb.trans hb', hkb', hscan⟩
  have hscan : ∃ a' k, Alone d k a a' ∧ d.added () k = d.added () (a.thread (.inl ())) ∧
      ∃ ip' t site, k = .client ip' (.addScan t site 0 0) := by
    have hbetween := h.between
    cases hk : a.thread (.inl ()) with
    | worker pc =>
        rw [hk] at hbetween
        cases hbetween
    | client ip pc =>
        rw [← hk]
        rw [hk] at hbetween
        cases pc with
        | ready => exact hready (.refl h.reachable hk) (by rw [hk])
        | groupLoop g i counter =>
            rcases exists_loop hmode h.reachable hk with ⟨b, k, hb, hkb, hscan | rfl⟩
            · exact ⟨b, k, hb, hkb, hscan⟩
            · exact hready hb hkb
        | _ => cases hbetween
  rcases hscan with ⟨b, k, hb, hkb, ip, t, site, rfl⟩
  refine ⟨b, ip, t, site, hb, ?_⟩
  rw [← h.added, ← hkb]
  rfl

/-- The client reads the remaining status words, which are all equal. -/
theorem exists_scanned (ha : d.atomicThreads.Reachable a) {ip t : Nat} {site : AddSite Unit}
    {w : WorkerStatus} (hw : ∀ i, a.env.status i = w) (left : Nat) {i : Nat} (hi : i + left = N)
    (hk : a.thread (.inl ()) =
      .client ip (.addScan t site i (if w = .busy then i else 0))) :
    ∃ a', Alone d (.client ip (.addScan t site N (if w = .busy then N else 0))) a a' := by
  induction left generalizing a i with
  | zero =>
      rw [Nat.add_zero] at hi
      rw [hi] at hk
      exact ⟨a, .refl ha hk⟩
  | succ left ih =>
      have hlt : i < N := by omega
      have hread : Alone d (.client ip (.addScan t site (i + 1) (if w = .busy then i + 1 else 0)))
          a _ := .of_step ha hk rfl (e := a.env) (by
            simp only [DispatchConfig.clientStep, hlt, dif_pos, hw, busyCount]
            cases w <;> rfl) rfl
      rcases ih hread.reachable (fun j => by rw [hread.status, hw j]) (by omega) hread.client
        with ⟨a', h⟩
      exact ⟨a', hread.trans h⟩

theorem send_step {ip t : Nat} {site : AddSite Unit}
    (hk : a.thread (.inl ()) = .client ip (.send t site)) (hroom : a.fifo.length < d.length) :
    d.atomicThreads.step a (.inl ()) = some { a with
      fifo := a.fifo ++ [t]
      thread := Function.update a.thread (.inl ()) (site.next ip) } := by
  simp [DispatchConfig.atomicThreads, atomicThreads, DispatchConfig.caller, atomicCall, hk, hroom]

theorem receive_step {i : Fin N} {t : Nat} {rest : List Nat}
    (hk : a.thread (.inr i) = .worker .receive) (hfifo : a.fifo = t :: rest) :
    d.atomicThreads.step a (.inr i) = some { a with
      fifo := rest
      thread := Function.update a.thread (.inr i) (.worker (.setBusy t)) } := by
  simp [DispatchConfig.atomicThreads, atomicThreads, DispatchConfig.caller, atomicCall, hk, hfifo]

theorem worker_step {i : Fin N} {pc : WorkerPc Unit} {k : Local Unit} {env : Env Unit N β υ}
    (hk : a.thread (.inr i) = .worker pc)
    (hcall : d.caller.call (.inr i) (.worker pc) = none)
    (hown : workerStep i a.env pc = some (k, env)) :
    d.atomicThreads.step a (.inr i) = some { a with
      env := env
      thread := Function.update a.thread (.inr i) k } := by
  have hstep : d.caller.step (.inr i) (.worker pc) a.env = some (k, env) := hown
  simp [DispatchConfig.atomicThreads, atomicThreads, hk, hcall, hstep]

/-- While all workers say that they are ready, a client with a task left can send it. -/
theorem Adding.exists_send {n : Nat} (h : Adding d a n) (hN : 0 < N)
    (hmode : d.useCallersThread = true) (hadds : d.OnlyAdds) (hn : n < d.total)
    (hready : ∀ i, a.env.status i = .ready) (hroom : a.fifo.length < d.length) :
    ∃ a' t, Adding d a' (n + 1) ∧ a'.fifo = a.fifo ++ [t] ∧ a'.env.status = a.env.status ∧
      ∀ i, a'.thread (.inr i) = a.thread (.inr i) := by
  rcases h.exists_scan hmode hadds hn with ⟨b, ip, t, site, hb, hadded⟩
  have hready' : ∀ i, b.env.status i = .ready := fun i => by rw [hb.status, hready i]
  rcases exists_scanned hb.reachable hready' N (Nat.zero_add N) hb.client with ⟨c, hc⟩
  have hsend : Alone d (.client ip (.send t site)) c _ := .of_step hc.reachable hc.client rfl
    (e := c.env) (by simp [DispatchConfig.clientStep, Nat.ne_of_lt hN]) rfl
  have hsite : d.SiteAt () ip t site := (tracked_of_reachable hb.reachable).clientAt hb.client
  have hall := (hb.trans hc).trans hsend
  have hstep := send_step (d := d) hall.client (by rw [hall.fifo]; exact hroom)
  refine ⟨_, t, ⟨hall.reachable.step hstep, ?_, ?_⟩, ?_, hall.status, fun i => ?_⟩
  · simp only [Function.update_self]
    cases site <;> rfl
  · simp only [Function.update_self]
    rw [hsite.added_next, List.length_append, hadded, List.length_singleton]
  · exact congrArg (· ++ [t]) hall.fifo
  · rw [← hall.worker i]
    simp

/-- The client can fill the queue while the workers have not started. -/
theorem exists_filled (hN : 0 < N) (hmode : d.useCallersThread = true) (hadds : d.OnlyAdds)
    (n : Nat) (hn : n ≤ d.total) (hroom : n ≤ d.length) :
    ∃ a, Adding d a n ∧ a.fifo.length = n ∧ ∀ i, a.env.status i = .ready := by
  induction n with
  | zero => exact ⟨d.atomicThreads.init, ⟨.init, rfl, rfl⟩, rfl, fun _ => rfl⟩
  | succ n ih =>
      rcases ih (by omega) (by omega) with ⟨a, ha, hlen, hready⟩
      rcases ha.exists_send hN hmode hadds hn hready (by omega) with ⟨a', t, ha', hfifo, hstatus, -⟩
      refine ⟨a', ha', ?_, fun i => by rw [hstatus, hready i]⟩
      rw [hfifo, List.length_append, hlen, List.length_singleton]

/-- Each of the first {lit}`n` workers can receive a task and not yet say that it is busy. -/
theorem exists_received (hN : 0 < N) (hmode : d.useCallersThread = true) (hadds : d.OnlyAdds)
    (n : Nat) (hn : n ≤ d.total) (hnN : n ≤ N) :
    ∃ a, Adding d a n ∧ a.fifo = [] ∧ (∀ i, a.env.status i = .ready) ∧
      (∀ i : Fin N, i.val < n → ∃ t, a.thread (.inr i) = .worker (.setBusy t)) ∧
      ∀ i : Fin N, n ≤ i.val → a.thread (.inr i) = .worker .start := by
  induction n with
  | zero =>
      exact ⟨d.atomicThreads.init, ⟨.init, rfl, rfl⟩, rfl, fun _ => rfl,
        fun i hi => absurd hi (Nat.not_lt_zero _), fun _ _ => rfl⟩
  | succ n ih =>
      rcases ih (by omega) (by omega) with ⟨a, ha, hempty, hready, hset, hstart⟩
      have hroom : a.fifo.length < d.length := by
        rw [hempty]
        exact d.length_pos
      rcases ha.exists_send hN hmode hadds hn hready hroom with ⟨b, t, hb, hfifo, hstatus, hworker⟩
      rw [hempty, List.nil_append] at hfifo
      let j : Fin N := ⟨n, hnN⟩
      have hj : b.thread (.inr j) = .worker .start := by rw [hworker, hstart j (Nat.le_refl n)]
      let b' := { b with thread := Function.update b.thread (.inr j) (.worker .receive) }
      have hb' : d.atomicThreads.step b (.inr j) = some b' := worker_step hj rfl rfl
      have hreceive := receive_step (d := d) (a := b') (i := j) (by simp [b']) hfifo
      refine ⟨_, ⟨(hb.reachable.step hb').step hreceive, ?_, ?_⟩, rfl, ?_, ?_, ?_⟩
      · simpa [b'] using hb.between
      · simpa [b'] using hb.added
      · intro i
        change b.env.status i = .ready
        rw [hstatus, hready i]
      · intro i hi
        by_cases hij : i = j
        · exact ⟨t, by simp [hij]⟩
        · have hne : i.val ≠ n := fun heq => hij (Fin.ext heq)
          rcases hset i (by omega) with ⟨t', ht'⟩
          exact ⟨t', by simpa [b', hij, hworker] using ht'⟩
      · intro i hi
        have hij : i ≠ j := fun heq => by
          have hval : i.val = n := congrArg Fin.val heq
          omega
        simpa [b', hij, hworker] using hstart i (by omega)

/-- Workers that have received a task can say that they are busy. -/
theorem exists_busy {m : Nat} (ha : Adding d a m)
    (hset : ∀ i : Fin N, ∃ t, a.thread (.inr i) = .worker (.setBusy t)) (n : Nat) (hn : n ≤ N) :
    ∃ b, Adding d b m ∧ b.fifo = a.fifo ∧
      (∀ i : Fin N, i.val < n → b.env.status i = .busy) ∧
      ∀ i : Fin N, n ≤ i.val → b.thread (.inr i) = a.thread (.inr i) := by
  induction n with
  | zero => exact ⟨a, ha, rfl, fun i hi => absurd hi (Nat.not_lt_zero _), fun _ _ => rfl⟩
  | succ n ih =>
      rcases ih (by omega) with ⟨b, hb, hfifo, hbusy, hworker⟩
      let j : Fin N := ⟨n, hn⟩
      rcases hset j with ⟨t, ht⟩
      rw [← hworker j (Nat.le_refl n)] at ht
      let b' := { b with
        env := { b.env with status := Function.update b.env.status j .busy }
        thread := Function.update b.thread (.inr j) (.worker (.run t .perform)) }
      have hb' : d.atomicThreads.step b (.inr j) = some b' := worker_step ht rfl rfl
      refine ⟨b', ⟨hb.reachable.step hb', ?_, ?_⟩, hfifo, ?_, ?_⟩
      · simpa [b'] using hb.between
      · simpa [b'] using hb.added
      · intro i hi
        by_cases hij : i = j
        · simp [b', hij]
        · have hne : i.val ≠ n := fun heq => hij (Fin.ext heq)
          simpa [b', hij] using hbusy i (by omega)
      · intro i hi
        have hij : i ≠ j := fun heq => by
          have hval : i.val = n := congrArg Fin.val heq
          omega
        simpa [b', hij] using hworker i (by omega)

/-- The client can overfill a long queue. -/
theorem exists_overfull (hN : 0 < N) (hmode : d.useCallersThread = true) (hadds : d.OnlyAdds)
    (htotal : N < d.total) (hlength : N < d.length) :
    ∃ a, d.atomicThreads.Reachable a ∧ ¬ CallersThread a := by
  rcases exists_filled hN hmode hadds (N + 1) htotal hlength with ⟨a, ha, hlen, -⟩
  refine ⟨a, ha.reachable, fun h => ?_⟩
  have hbound := h.bound
  omega

/-- The client can overtake a task that waits: all workers receive one, the client sends one
more, and the workers say that they are busy before the client adds the next. -/
theorem exists_overtaken (hN : 0 < N) (hmode : d.useCallersThread = true) (hadds : d.OnlyAdds)
    (htotal : N + 1 < d.total) : ∃ a, d.atomicThreads.Reachable a ∧ ¬ CallersThread a := by
  rcases exists_received hN hmode hadds N (by omega) (Nat.le_refl N) with
    ⟨a, ha, hempty, hready, hset, -⟩
  have hroom : a.fifo.length < d.length := by
    rw [hempty]
    exact d.length_pos
  rcases ha.exists_send hN hmode hadds (by omega) hready hroom with ⟨b, t, hb, hfifo, -, hworker⟩
  have hset' : ∀ i : Fin N, ∃ t, b.thread (.inr i) = .worker (.setBusy t) := by
    intro i
    rcases hset i i.isLt with ⟨t', ht'⟩
    exact ⟨t', by rw [hworker, ht']⟩
  rcases exists_busy hb hset' N (Nat.le_refl N) with ⟨c, hc, hfifo', hbusy, -⟩
  rcases hc.exists_scan hmode hadds htotal with ⟨e, ip, t', site, he, -⟩
  have hbusy' : ∀ i, e.env.status i = .busy := fun i => by rw [he.status, hbusy i i.isLt]
  rcases exists_scanned he.reachable hbusy' N (Nat.zero_add N) he.client with ⟨f, hf⟩
  have hpitch : Alone d (.client ip (.pitch t' site .perform)) f _ :=
    .of_step hf.reachable hf.client rfl (e := f.env) (by simp [DispatchConfig.clientStep]) rfl
  have hall := (he.trans hf).trans hpitch
  refine ⟨_, hall.reachable, fun h => ?_⟩
  have hnil := h.order ip t' site hall.client
  rw [hall.fifo, hfifo', hfifo, hempty] at hnil
  cases hnil

end Steps

/-- The mode keeps its bound and the order of the queue in every run in which at most as many
tasks as there are workers are outstanding whenever the client begins to scan the status words,
and fewer when it sends a task to a queue with more slots than there are workers.  A client that
only adds tasks and groups finds both kept in all runs if and only if it submits no more tasks
than there are workers, or one more and the queue has no more slots than there are workers. -/
theorem callers_thread_order (d : DispatchConfig Unit N β υ) (hN : 0 < N)
    (hmode : d.useCallersThread = true) :
    (∀ a, (d.atomicThreads.guarded fun a u => d.callersOk a u = true).Reachable a →
      CallersThread a) ∧
    (d.OnlyAdds → ((∀ a, d.atomicThreads.Reachable a → CallersThread a) ↔
      d.total ≤ N ∨ d.total = N + 1 ∧ d.length ≤ N)) := by
  refine ⟨fun a ha => callersThread_of_guarded ha, fun hadds => ⟨fun h => ?_, fun h a ha =>
    callersThread_of_total ha h⟩⟩
  by_contra hmany
  rcases Nat.lt_or_ge (N + 1) d.total with hlt | hge
  · rcases exists_overtaken hN hmode hadds hlt with ⟨a, ha, hnot⟩
    exact hnot (h a ha)
  · rcases exists_overfull hN hmode hadds (by omega) (by omega) with ⟨a, ha, hnot⟩
    exact hnot (h a ha)

/-! ## One worker -/

/-- The client adds three tasks to a queue of two slots. -/
def threeAdds : DispatchConfig Unit 1 Unit Nat where
  length := 2
  length_pos := Nat.two_pos
  useCallersThread := true
  prog := fun _ => [.taskAdd 0, .taskAdd 1, .taskAdd 2]
  heap := ⟨fun _ => dispatchTaskInit (fun _ n => n + 1) () false, fun _ => ⟨0, false, []⟩⟩
  user := 0

/-- It adds two tasks to a queue of one slot. -/
def twoAdds : DispatchConfig Unit 1 Unit Nat :=
  { threeAdds with
    length := 1
    length_pos := Nat.one_pos
    prog := fun _ => [.taskAdd 0, .taskAdd 1] }

/-- The worker is busy with the first task when the client adds the second, which it runs
itself. -/
def pitchSchedule : List (Unit ⊕ Fin 1) :=
  [.inr 0, .inl (), .inl (), .inl (), .inl (), .inr 0, .inr 0, .inl (), .inl (), .inl ()]

theorem pitch_run : ((threeAdds.atomicThreads.guarded fun a u =>
    threeAdds.callersOk a u = true).run threeAdds.atomicThreads.init
      pitchSchedule).isSome = true := by
  decide +kernel

theorem twoAdds_onlyAdds : twoAdds.OnlyAdds := by
  intro call hcall
  simp only [twoAdds, List.mem_cons, List.not_mem_nil, or_false] at hcall
  rcases hcall with rfl | rfl
  · exact Or.inl ⟨0, rfl⟩
  · exact Or.inl ⟨1, rfl⟩

/-- In this run the promise is kept, and two tasks and one slot are few enough for all runs. -/
theorem callers_thread_order_twoAdds :
    CallersThread (((threeAdds.atomicThreads.guarded fun a u =>
      threeAdds.callersOk a u = true).run threeAdds.atomicThreads.init
        pitchSchedule).get pitch_run) ∧
    ∀ a, twoAdds.atomicThreads.Reachable a → CallersThread a :=
  ⟨(callers_thread_order threeAdds Nat.one_pos rfl).1 _ (System.reachable_get_run _ pitch_run),
    ((callers_thread_order twoAdds Nat.one_pos rfl).2 twoAdds_onlyAdds).mpr
      (Or.inr ⟨rfl, Nat.le_refl 1⟩)⟩

/-- The worker has received the first task and not yet stored that it is busy when the client
sends the second, and has when it adds the third. -/
def overtakeSchedule : List (Unit ⊕ Fin 1) :=
  [.inr 0, .inl (), .inl (), .inl (), .inl (), .inr 0, .inl (), .inl (), .inl (), .inl (),
    .inr 0, .inl (), .inl (), .inl ()]

/-- The client sends two tasks before the worker receives the first. -/
def overfullSchedule : List (Unit ⊕ Fin 1) :=
  List.replicate 8 (.inl ())

/-- Neither holds: the queue can hold more tasks than there are workers, and the client can call
the function of a task while one that it added earlier waits. -/
theorem callers_thread_overtakes :
    (¬ ∀ a, threeAdds.atomicThreads.Reachable a → a.fifo.length ≤ 1) ∧
    ¬ ∀ a ip t site a', threeAdds.atomicThreads.Reachable a →
      a.thread (.inl ()) = .client ip (.pitch t site .perform) →
      threeAdds.atomicThreads.step a (.inl ()) = some a' → a.fifo = [] := by
  constructor
  · intro hclaim
    have hreach := threeAdds.atomicThreads.reachable_get_run overfullSchedule (by decide)
    exact absurd (hclaim _ hreach) (by decide)
  · intro hclaim
    have hreach := threeAdds.atomicThreads.reachable_get_run overtakeSchedule (by decide)
    have hempty := hclaim _ 2 2 .task _ hreach rfl rfl
    cases hempty

end Metal
end LibDispatch
