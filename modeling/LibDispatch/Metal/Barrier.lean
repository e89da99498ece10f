import LibDispatch.Metal.Ledger

/-!
# Waiting for the dispatch queue

{lit}`dispatch_queue_wait` reads the status words of the workers one after the other and
then the size of the queue.  A worker takes a task from the queue before it stores
{lit}`DISPATCH_WORKER_BUSY_STATUS`, so a task can be in the hands of a worker that every
read misses: the worker received it before its status word was read and stores the
status after that, or it received it after its status word was read and before the
size was read.  These are the only two ways: in runs without them the wait is a
barrier.

Main results:

- Theorem {lit}`dispatch_queue_wait_returns_early`: the wait can return while a task that
  was added before is still in the hands of a worker.
- Theorem {lit}`dispatch_queue_wait_barrier`: in runs that avoid the two windows, the wait
  returns after every function of an earlier task has returned.
-/

namespace LibDispatch
namespace Metal

variable {C : Type} {N : Nat} {β υ : Type}

/-! ## The two windows -/

/-- In a pass of {lit}`dispatch_queue_wait` that has found no busy worker so far: the
number of status words read. -/
def Local.scanned (N : Nat) : Local C → Option Nat
  | .client _ (.waitScan i 0) => some i
  | .client _ (.waitSize 0) => some N
  | _ => none

/-- The worker has received a task and not yet stored its status. -/
def Local.atSetBusy : Local C → Bool
  | .worker (.setBusy _) => true
  | _ => false

/-- The worker is about to receive a task. -/
def Local.atReceive : Local C → Bool
  | .worker .receive => true
  | _ => false

/-- The step is in neither window: a client does not read the status word of a worker
that has received a task and not yet stored its status, and a worker whose status word
was read in the current pass does not receive a task before the pass is over. -/
def barrierOk (a : AtomicState (Unit ⊕ Fin N) Nat (Local Unit) (Env Unit N β υ)) :
    Unit ⊕ Fin N → Bool
  | .inl c =>
      match (a.thread (.inl c)).scanned N with
      | none => true
      | some i => if h : i < N then !(a.thread (.inr ⟨i, h⟩)).atSetBusy else true
  | .inr i =>
      match (a.thread (.inl ())).scanned N with
      | none => true
      | some j => !(a.thread (.inr i)).atReceive || decide (j ≤ i)

/-! ## Status words -/

/-- A worker that runs a task, or is about to store that it is ready again. -/
def Local.isBusy : Local C → Bool
  | .worker (.run _ _) | .worker .setReady => true
  | _ => false

/-- The thread holds no task whose function has not returned. -/
def Local.idle (k : Local C) : Prop :=
  ∀ t at_, k.held = some (t, at_) → at_.returned = true

section Steps

variable [DecidableEq C] {d : DispatchConfig C N β υ}
  {a a' : AtomicState (C ⊕ Fin N) Nat (Local C) (Env C N β υ)} {u : C ⊕ Fin N}

/-- The status word of a worker says busy exactly while it runs a task. -/
def StatusAgrees (a : AtomicState (C ⊕ Fin N) Nat (Local C) (Env C N β υ)) : Prop :=
  ∀ i, a.env.status i = .busy ↔ (a.thread (.inr i)).isBusy = true

/-- A step that leaves the status words alone and keeps its thread busy or not. -/
theorem StatusAgrees.update (h : StatusAgrees a) {k : Local C} {fifo : List Nat}
    {env : Env C N β υ} (hstatus : env.status = a.env.status)
    (hk : ∀ i, u = .inr i → k.isBusy = (a.thread u).isBusy) :
    StatusAgrees { a with
      fifo := fifo, env := env, thread := Function.update a.thread u k } := by
  intro i
  change env.status i = .busy ↔ _
  rw [hstatus, h i]
  by_cases hu : Sum.inr i = u
  · subst hu
    simp [hk i rfl]
  · simp [hu]

omit [DecidableEq C] in
theorem Local.isBusy_runNext {k : Local C} {t : Nat} {at_ : RunPc C}
    (h : k.runAt = some (t, at_)) (r : Option (RunPc C)) {pc : WorkerPc C}
    (hk : k = .worker pc) : (k.runNext r).isBusy = k.isBusy := by
  subst hk
  cases pc with
  | run t' at' => cases r <;> rfl
  | _ => cases h

theorem RunStep.status_eq {me : C ⊕ Fin N} {env env' : Env C N β υ} {t : Nat}
    {at_ : RunPc C} {r : Option (RunPc C)} (h : RunStep me env t at_ env' r) :
    env'.status = env.status := by
  cases h <;> rfl

/-- Every step keeps the status words in agreement with the positions. -/
theorem StatusAgrees.step (h : StatusAgrees a) (htracked : Tracked d a)
    (hstep : DispatchStep d a u a') : StatusAgrees a' := by
  cases hstep with
  | receive i t rest hk _ => exact h.update rfl fun _ _ => by rw [hk]; rfl
  | start i hk => exact h.update rfl fun _ _ => by rw [hk]; rfl
  | freeCend i hk => exact h.update rfl fun _ _ => by rw [hk]; rfl
  | run u t at_ env' r hrun hstep =>
      apply h.update hstep.status_eq
      rintro i rfl
      rcases htracked.worker i with ⟨pc, hpc⟩
      exact Local.isBusy_runNext hrun r hpc
  | setBusy i t hk =>
      intro j
      by_cases hj : j = i
      · subst hj
        simp [Local.isBusy]
      · have hne : (Sum.inr j : C ⊕ Fin N) ≠ Sum.inr i := by simpa using hj
        simpa [hj, hne] using h j
  | setReady i hk =>
      intro j
      by_cases hj : j = i
      · subst hj
        simp [Local.isBusy]
      · have hne : (Sum.inr j : C ⊕ Fin N) ≠ Sum.inr i := by simpa using hj
        simpa [hj, hne] using h j
  | _ => exact h.update rfl fun _ hi => by cases hi

theorem statusAgrees_of_reachable (ha : d.atomicThreads.Reachable a) : StatusAgrees a := by
  refine ha.invariant ?_ fun _ _ _ hr h hstep =>
    h.step (tracked_of_reachable hr) (dispatchStep_of_step hstep)
  intro i
  simp [DispatchConfig.atomicThreads, atomicThreads, DispatchConfig.env, dispatchStart,
    Local.isBusy]

omit [DecidableEq C] in
/-- A worker that is neither busy nor in the first window is idle. -/
theorem Local.idle_of_not_busy {pc : WorkerPc C} (hbusy : (Local.worker pc).isBusy = false)
    (hset : (Local.worker pc).atSetBusy = false) : (Local.worker pc).idle := by
  intro t at_ hheld
  cases pc with
  | setBusy t' => cases hset
  | run t' at' => cases hbusy
  | _ => cases hheld

/-- A statement of {lit}`run_task` keeps an idle thread idle. -/
theorem RunStep.returned_mono {me : C ⊕ Fin N} {env env' : Env C N β υ} {t : Nat}
    {at_ at' : RunPc C} (h : RunStep me env t at_ env' (some at'))
    (hat : at_.returned = true) : at'.returned = true := by
  cases h with
  | perform => cases hat
  | _ => rfl

/-- The history of returns only grows. -/
theorem DispatchStep.returned_mono (h : DispatchStep d a u a') (t : Nat) :
    a.env.history.returned.count t ≤ a'.env.history.returned.count t := by
  cases h with
  | run u t' at_ env' r hrun hstep =>
      cases hstep with
      | running => simp
      | _ => exact Nat.le_refl _
  | _ => exact Nat.le_refl _

/-- Steps that start from an idle thread and receive no task lead to an idle one. -/
theorem DispatchStep.idle (h : DispatchStep d a u a') {i : Fin N}
    (hidle : (a.thread (.inr i)).idle)
    (hreceive : u = .inr i → (a.thread (.inr i)).atReceive = false) :
    (a'.thread (.inr i)).idle := by
  have hother : ∀ (v : C ⊕ Fin N) (k : Local C), (v = .inr i → k.idle) →
      (Function.update a.thread v k (.inr i)).idle := by
    intro v k hk
    by_cases hv : Sum.inr i = v
    · rw [← hv, Function.update_self]
      exact hk hv.symm
    · rw [Function.update_of_ne hv]
      exact hidle
  cases h with
  | receive j t rest hk _ =>
      apply hother
      rintro heq
      have hno := hreceive heq
      rw [← heq, hk] at hno
      cases hno
  | run v t at_ env' r hrun hstep =>
      apply hother
      rintro rfl
      intro t' at' hheld
      rw [Local.held_runNext hrun, Option.map_eq_some_iff] at hheld
      rcases hheld with ⟨at'', rfl, heq⟩
      cases heq
      exact hstep.returned_mono (hidle t at_ (Local.held_of_runAt hrun))
  | setBusy j t hk =>
      apply hother
      rintro heq
      have hno : RunPc.returned (.perform : RunPc C) = true := by
        apply hidle t
        rw [← heq, hk]
        rfl
      cases hno
  | start j hk =>
      apply hother
      rintro -
      simp [Local.idle, Local.held, Local.runAt]
  | setReady j hk =>
      apply hother
      rintro -
      simp [Local.idle, Local.held, Local.runAt]
  | freeCend j hk =>
      apply hother
      rintro -
      simp [Local.idle, Local.held, Local.runAt]
  | _ => simpa using hidle

end Steps

/-! ## The barrier -/

section Barrier

variable {d : DispatchConfig Unit N β υ}
  {a a' : AtomicState (Unit ⊕ Fin N) Nat (Local Unit) (Env Unit N β υ)} {u : Unit ⊕ Fin N}

/-- The workers whose status word was read in the current pass are idle, and every wait
that has returned was a barrier. -/
structure BarrierHolds (d : DispatchConfig Unit N β υ)
    (a : AtomicState (Unit ⊕ Fin N) Nat (Local Unit) (Env Unit N β υ)) : Prop where
  scanned : ∀ j, (a.thread (.inl ())).scanned N = some j → ∀ i : Fin N, i < j →
    (a.thread (.inr i)).idle
  returned : ∀ ip, (d.prog ())[ip]? = some .wait → ip < (a.thread (.inl ())).ip →
    ∀ t, (d.submitted () ip).count t ≤ a.env.history.returned.count t

/-- When the queue is empty and the holders of tasks are past the function, every added
task has returned. -/
theorem Ledger.returned_of_idle (h : Ledger d a) (hempty : a.fifo = [])
    (hidle : ∀ u, (a.thread u).idle) (t : Nat) :
    a.env.history.returned.count t = (d.added () (a.thread (.inl ()))).count t := by
  have hsame : tally (Local.weight RunPc.returned t) a.thread =
      tally (Local.holding t) a.thread := by
    unfold tally
    refine Finset.sum_congr rfl fun u _ => ?_
    unfold Local.holding Local.weight
    cases hheld : (a.thread u).held with
    | none => rfl
    | some x => simp [RunPc.mark, hidle u x.1 x.2 hheld]
  rw [h.returned t, hsame, ← h.added t, hempty]
  simp

/-- The number of calls made grows only at the end of a call; the call that ends is
{lit}`dispatch_queue_wait` only if the size was found to be zero. -/
theorem DispatchStep.ip_cases (htracked : Tracked d a) (h : DispatchStep d a u a') :
    (a'.thread (.inl ())).ip = (a.thread (.inl ())).ip ∨
    ((a'.thread (.inl ())).ip = (a.thread (.inl ())).ip + 1 ∧
      ((d.prog ())[(a.thread (.inl ())).ip]? ≠ some .wait ∨
        ((a.thread (.inl ())).scanned N = some N ∧ a.fifo = []))) := by
  have hnext : ∀ ip t (site : AddSite Unit), d.SiteAt () ip t site →
      (site.next ip).ip = ip ∨ (site.next ip).ip = ip + 1 ∧ (d.prog ())[ip]? ≠ some .wait := by
    intro ip t site hsite
    cases site with
    | task =>
        have hcall : (d.prog ())[ip]? = some (.taskAdd t) := hsite
        exact Or.inr ⟨rfl, by simp [hcall]⟩
    | member g i counter => exact Or.inl rfl
  have hstay : ∀ (c : Unit) ip pc (k : Local Unit), a.thread (.inl c) = .client ip pc →
      k.ip = ip →
      (Function.update a.thread (.inl c) k (.inl ())).ip = (a.thread (.inl ())).ip := by
    intro c ip pc k hk hip
    rw [Function.update_self, hk]
    exact hip
  cases h with
  | send c ip t site hk _ =>
      have hsite : d.SiteAt () ip t site := htracked.clientAt hk
      simp only [Function.update_self, hk]
      rcases hnext ip t site hsite with hsame | ⟨hsucc, hcall⟩
      · exact Or.inl hsame
      · exact Or.inr ⟨hsucc, Or.inl hcall⟩
  | sizeZero c ip busy hk hzero =>
      rcases Nat.add_eq_zero_iff.mp hzero with ⟨rfl, hfifo⟩
      simp only [Function.update_self, hk]
      exact Or.inr ⟨rfl, Or.inr ⟨rfl, List.length_eq_zero_iff.mp hfifo⟩⟩
  | groupDone c ip g i counter hk _ =>
      have hcall : (d.prog ())[ip]? = some (.groupAdd g) := (htracked.clientAt hk).1
      simp only [Function.update_self, hk]
      exact Or.inr ⟨rfl, Or.inl (by simp [Local.ip, hcall])⟩
  | deleteDone c ip hk =>
      have hwaits : d.WaitsAt () ip := htracked.clientAt hk
      simp only [Function.update_self, hk]
      refine Or.inr ⟨rfl, Or.inl ?_⟩
      rcases hwaits with ⟨t, hcall⟩ | ⟨g, hcall⟩ <;> simp [Local.ip, hcall]
  | freeObject c ip object k hk hnext =>
      have hcall : (d.prog ())[ip]? = some .delete := htracked.clientAt hk
      simp only [Function.update_self, hk]
      rcases hnext with rfl | ⟨object', rfl⟩
      · exact Or.inr ⟨rfl, Or.inl (by simp [Local.ip, hcall])⟩
      · exact Or.inl rfl
  | run _ t at_ env' r hrun _ =>
      by_cases hu : Sum.inl () = u
      · subst hu
        simp only [Function.update_self]
        have hc := htracked.client ()
        cases hk : a.thread (.inl ()) with
        | worker pc =>
            rw [hk] at hc
            cases hc
        | client ip pc =>
            rw [hk] at hc hrun
            cases pc with
            | pitch t' site at' =>
                cases r with
                | some at'' => exact Or.inl rfl
                | none =>
                    rcases hnext ip t' site hc with hsame | ⟨hsucc, hcall⟩
                    · exact Or.inl hsame
                    · exact Or.inr ⟨hsucc, Or.inl hcall⟩
            | _ => cases hrun
      · simp [hu]
  | receive i t rest hk _ => simp
  | start i hk => simp
  | setBusy i t hk => simp
  | setReady i hk => simp
  | freeCend i hk => simp
  | _ =>
      refine Or.inl (hstay _ _ _ _ (by assumption) ?_)
      rfl

/-- A status word read in the current pass was read earlier in it, or in this step. -/
theorem DispatchStep.scanned_cases (h : DispatchStep d a u a') {j : Nat}
    (hj : (a'.thread (.inl ())).scanned N = some j) (i : Fin N) (hi : i < j) :
    (∃ j', (a.thread (.inl ())).scanned N = some j' ∧ i < j') ∨
    (u = .inl () ∧ (a.thread (.inl ())).scanned N = some i.val ∧ a.env.status i = .ready) := by
  have hkeep : (a'.thread (.inl ())).scanned N = (a.thread (.inl ())).scanned N →
      ∃ j', (a.thread (.inl ())).scanned N = some j' ∧ i < j' :=
    fun heq => ⟨j, heq ▸ hj, hi⟩
  have haddEntry : ∀ ip t (site : AddSite Unit),
      (Local.client ip (d.addEntry t site)).scanned N = none := by
    intro ip t site
    unfold DispatchConfig.addEntry
    split <;> rfl
  have hnext : ∀ ip (site : AddSite Unit), (site.next ip).scanned N = none := by
    intro ip site
    cases site <;> rfl
  cases h with
  | waitRead c ip k busy hk hat =>
      simp only [Function.update_self] at hj
      cases busy with
      | succ busy =>
          unfold busyCount at hj
          split at hj <;> cases hj
      | zero =>
          cases hstatus : a.env.status ⟨k, hk⟩ with
          | busy => simp [busyCount, hstatus, Local.scanned] at hj
          | ready =>
              simp only [busyCount, hstatus, reduceCtorEq, if_false, Local.scanned,
                Option.some.injEq] at hj
              by_cases hik : i < k
              · exact Or.inl ⟨k, by rw [hat]; rfl, hik⟩
              · have heq : i = ⟨k, hk⟩ := Fin.ext (by simp only; omega)
                subst heq
                exact Or.inr ⟨rfl, by rw [hat]; rfl, hstatus⟩
  | waitAll c ip k busy hk hat =>
      simp only [Function.update_self] at hj
      cases busy with
      | succ busy => cases hj
      | zero => exact Or.inl ⟨k, by rw [hat]; rfl, by omega⟩
  | wait c ip hat hcall =>
      simp only [Function.update_self] at hj
      cases hj
      exact absurd hi (Nat.not_lt_zero _)
  | sizeAgain c ip busy hat _ =>
      simp only [Function.update_self] at hj
      cases hj
      exact absurd hi (Nat.not_lt_zero _)
  | receive k t rest hat _ => exact Or.inl (hkeep (by simp))
  | start k hat => exact Or.inl (hkeep (by simp))
  | setBusy k t hat => exact Or.inl (hkeep (by simp))
  | setReady k hat => exact Or.inl (hkeep (by simp))
  | freeCend k hat => exact Or.inl (hkeep (by simp))
  | run _ t at_ env' r hrun _ =>
      by_cases hu : Sum.inl () = u
      · subst hu
        simp only [Function.update_self] at hj
        cases hk : a.thread (.inl ()) with
        | worker pc =>
            rw [hk] at hj hrun
            cases pc with
            | run t' at' => cases r <;> cases hj
            | _ => cases hrun
        | client ip pc =>
            rw [hk] at hj hrun
            cases pc with
            | pitch t' site at' =>
                cases r with
                | some at'' => cases hj
                | none =>
                    change (site.next ip).scanned N = some j at hj
                    rw [hnext] at hj
                    cases hj
            | _ => cases hrun
      · exact Or.inl (hkeep (by simp [hu]))
  | send c ip t site hk _ =>
      simp only [Function.update_self, hnext] at hj
      cases hj
  | taskAddWaitable c ip t hk _ _ =>
      simp only [Function.update_self, haddEntry] at hj
      cases hj
  | taskAddPlain c ip t hk _ _ =>
      simp only [Function.update_self, haddEntry] at hj
      cases hj
  | groupStore c ip g k t counter hk _ =>
      simp only [Function.update_self, haddEntry] at hj
      cases hj
  | freeObject c ip object k hk hnext =>
      simp only [Function.update_self] at hj
      rcases hnext with rfl | ⟨object', rfl⟩ <;> cases hj
  | _ =>
      simp only [Function.update_self] at hj
      cases hj

/-- A step in neither window keeps the barrier. -/
theorem BarrierHolds.step (h : BarrierHolds d a) (ha : d.atomicThreads.Reachable a)
    (hok : barrierOk a u = true) (hstep : DispatchStep d a u a') : BarrierHolds d a' := by
  have htracked := tracked_of_reachable ha
  constructor
  · intro j hj i hi
    apply hstep.idle
    · rcases hstep.scanned_cases hj i hi with ⟨j', hj', hi'⟩ | ⟨rfl, hi', hstatus⟩
      · exact h.scanned j' hj' i hi'
      · -- the status word just read says ready, and the worker is not in the first window
        rcases htracked.worker i with ⟨pc, hpc⟩
        have hset : (a.thread (.inr i)).atSetBusy = false := by
          simpa [barrierOk, hi'] using hok
        have hbusy : (a.thread (.inr i)).isBusy = false := by
          by_contra hne
          have hstatus' := (statusAgrees_of_reachable ha i).mpr (by simpa using hne)
          rw [hstatus] at hstatus'
          cases hstatus'
        rw [hpc] at hset hbusy ⊢
        exact Local.idle_of_not_busy hbusy hset
    · rintro rfl
      rcases hstep.scanned_cases hj i hi with ⟨j', hj', hi'⟩ | ⟨heq, -, -⟩
      · -- the second window
        have hnot : ¬ j' ≤ i := by omega
        simpa [barrierOk, hj', hnot] using hok
      · cases heq
  · intro ip hwait hip t
    have hmono := hstep.returned_mono t
    rcases hstep.ip_cases htracked with hsame | ⟨hsucc, hcase⟩
    · exact (h.returned ip hwait (hsame ▸ hip) t).trans hmono
    · rcases Nat.lt_succ_iff_lt_or_eq.mp (hsucc ▸ hip) with hlt | heq
      · exact (h.returned ip hwait hlt t).trans hmono
      · subst heq
        rcases hcase with hne | ⟨hscanned, hempty⟩
        · exact absurd hwait hne
        · have hidle : ∀ v, (a.thread v).idle := by
            intro v
            cases v with
            | inr i => exact h.scanned N hscanned i i.isLt
            | inl c =>
                intro t' at_ hheld
                have hc := htracked.client ()
                cases hk : a.thread (.inl ()) with
                | worker pc =>
                    rw [hk] at hc
                    cases hc
                | client ip' pc =>
                    rw [hk] at hheld hscanned
                    cases pc with
                    | pitch t'' site at' => cases hscanned
                    | _ => cases hheld
          have hreturned := (ledger_of_reachable ha).returned_of_idle hempty hidle t
          have hle : (d.submitted () (a.thread (.inl ())).ip).count t ≤
              (d.added () (a.thread (.inl ()))).count t := by
            cases hk : a.thread (.inl ()) with
            | worker pc => simp [Local.ip]
            | client ip' pc =>
                simp only [DispatchConfig.added, Local.ip, List.count_append]
                omega
          omega

/-- {lit}`dispatch_queue_wait` is a barrier in every run that avoids the two windows: when
it has returned, every task added before it was called has returned, as often as it
was added. -/
theorem dispatch_queue_wait_barrier (d : DispatchConfig Unit N β υ)
    (ha : (d.atomicThreads.guarded fun a u => barrierOk a u = true).Reachable a) {ip : Nat}
    (hwait : (d.prog ())[ip]? = some .wait) (hip : ip < (a.thread (.inl ())).ip) (t : Nat) :
    (d.submitted () ip).count t ≤ a.env.history.returned.count t := by
  have hbarrier : BarrierHolds d a := by
    refine ha.invariant ?_ ?_
    · constructor
      · intro j hj
        cases hj
      · intro ip _ hip
        exact absurd hip (Nat.not_lt_zero ip)
    · intro a u a' hr h hstep
      rcases System.guarded_step.mp hstep with ⟨hok, hstep⟩
      exact h.step hr.of_guarded hok (dispatchStep_of_step hstep)
  exact hbarrier.returned ip hwait hip t

end Barrier

/-! ## One task and one worker -/

/-- A client adds one task and waits for the queue. -/
def oneTask : DispatchConfig Unit 1 Unit Nat where
  length := 1
  length_pos := Nat.one_pos
  useCallersThread := false
  prog := fun _ => [.taskAdd 0, .wait]
  heap := ⟨fun _ => dispatchTaskInit (fun _ n => n + 1) () false, fun _ => ⟨0, false, []⟩⟩
  user := 0

/-- The worker receives the task and runs it while the client is not looking. -/
def oneTaskSchedule : List (Unit ⊕ Fin 1) :=
  [.inr 0, .inl (), .inl (), .inr 0, .inr 0, .inr 0, .inr 0, .inr 0, .inr 0, .inr 0,
    .inl (), .inl (), .inl (), .inl ()]

/-- In this run the task has returned when the wait has. -/
theorem dispatch_queue_wait_barrier_oneTask :
    (oneTask.submitted () 1).count 0 ≤ ((((oneTask.atomicThreads.guarded fun a u =>
      barrierOk a u = true).run oneTask.atomicThreads.init oneTaskSchedule).get
        (by decide)).env.history.returned).count 0 :=
  dispatch_queue_wait_barrier oneTask
    ((oneTask.atomicThreads.guarded fun a u => barrierOk a u = true).reachable_get_run
      oneTaskSchedule (by decide)) rfl (by decide) 0

/-- The worker receives the task; the client reads its status word, which still says
ready, and finds the queue empty. -/
def oneTaskEarly : List (Unit ⊕ Fin 1) :=
  [.inr 0, .inl (), .inl (), .inr 0, .inl (), .inl (), .inl (), .inl ()]

/-- The wait can return while a task that was added before it is in the hands of a
worker. -/
theorem dispatch_queue_wait_returns_early :
    ¬ ∀ (a : AtomicState (Unit ⊕ Fin 1) Nat (Local Unit) (Env Unit 1 Unit Nat)) (ip : Nat),
      oneTask.atomicThreads.Reachable a → (oneTask.prog ())[ip]? = some .wait →
      ip < (a.thread (.inl ())).ip → ∀ t, (oneTask.submitted () ip).count t ≤
        a.env.history.returned.count t := by
  intro hclaim
  have hreach := oneTask.atomicThreads.reachable_get_run oneTaskEarly (by decide)
  have hle := hclaim _ 1 hreach rfl (by decide) 0
  exact absurd hle (by decide)

end Metal
end LibDispatch
