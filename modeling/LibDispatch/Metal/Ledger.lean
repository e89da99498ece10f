import LibDispatch.Library.Tally
import LibDispatch.Metal.ClientProgress

/-!
# The ledger of a dispatch queue

Every task that was added is queued, held by a thread or finished.  This file states
these facts as conservation laws: equations between tallies over the threads and the
history.  They hold for every program of a single client, also when a task is added
more than once; then they count its additions.

Main results:

- Theorem {lit}`RunStep.balance`: what a statement of {lit}`run_task` books.
- Theorem {lit}`DispatchStep.move`: how a step moves tasks.
- Theorem {lit}`Ledger.step` and {lit}`ledger_of_reachable`: the conservation laws hold in
  every reachable state.
-/

namespace LibDispatch
namespace Metal

variable {C : Type} {N : Nat} {β υ : Type}

/-! ## What a thread holds -/

/-- The task that a thread holds, and its position in {lit}`run_task`: from the return of
{lit}`queue_receive` to that of {lit}`run_task`. -/
def Local.held : Local C → Option (Nat × RunPc C)
  | .worker (.setBusy t) => some (t, .perform)
  | k => k.runAt

/-- The function of the task was called. -/
def RunPc.called : RunPc C → Bool
  | .perform => false
  | _ => true

/-- The function of the task has returned. -/
def RunPc.returned : RunPc C → Bool
  | .perform | .running => false
  | _ => true

/-- The locked part of {lit}`event_counter_signal` is done. -/
def RunPc.signalled : RunPc C → Bool
  | .signalUnlock _ _ | .sendToken _ => true
  | _ => false

/-- One if a position of task {lit}`t` counts for {lit}`t'`. -/
def RunPc.mark (p : RunPc C → Bool) (t t' : Nat) (at_ : RunPc C) : Nat :=
  if t = t' ∧ p at_ = true then 1 else 0

/-- One if the thread holds {lit}`t'` at a position in {lit}`p`. -/
def Local.weight (p : RunPc C → Bool) (t' : Nat) (k : Local C) : Nat :=
  match k.held with
  | none => 0
  | some (t, at_) => at_.mark p t t'

/-- The number of threads that hold {lit}`t`. -/
def Local.holding (t : Nat) : Local C → Nat :=
  Local.weight (fun _ => true) t

theorem Local.weight_of_held {p : RunPc C → Bool} {t' : Nat} {k : Local C} {t : Nat}
    {at_ : RunPc C} (h : k.held = some (t, at_)) : k.weight p t' = at_.mark p t t' := by
  rw [Local.weight, h]

theorem Local.weight_of_not_held {p : RunPc C → Bool} {t' : Nat} {k : Local C}
    (h : k.held = none) : k.weight p t' = 0 := by
  rw [Local.weight, h]

theorem Local.weight_le_holding (p : RunPc C → Bool) (t : Nat) (k : Local C) :
    k.weight p t ≤ k.holding t := by
  unfold Local.holding Local.weight
  cases k.held with
  | none => exact Nat.le_refl 0
  | some h =>
      unfold RunPc.mark
      by_cases ht : h.1 = t
      · by_cases hp : p h.2 = true <;> simp [ht, hp]
      · simp [ht]

theorem Local.holding_pos_iff {t : Nat} {k : Local C} :
    0 < k.holding t ↔ ∃ at_, k.held = some (t, at_) := by
  unfold Local.holding Local.weight
  cases h : k.held with
  | none => simp
  | some x =>
      rcases x with ⟨t', at_⟩
      by_cases ht : t' = t
      · simp [RunPc.mark, ht]
      · simp [RunPc.mark, ht]

theorem Local.held_of_runAt {k : Local C} {t : Nat} {at_ : RunPc C}
    (h : k.runAt = some (t, at_)) : k.held = some (t, at_) := by
  cases k with
  | client ip pc => exact h
  | worker pc =>
      cases pc with
      | setBusy t' => cases h
      | _ => exact h

@[simp]
theorem DispatchConfig.held_addEntry (d : DispatchConfig C N β υ) (ip t : Nat)
    (site : AddSite C) : (Local.client ip (d.addEntry t site)).held = none := by
  unfold DispatchConfig.addEntry
  split <;> rfl

@[simp]
theorem AddSite.held_next (ip : Nat) (site : AddSite C) : (site.next ip).held = none := by
  cases site <;> rfl

/-- A thread that runs a task goes on with it or lets it go. -/
theorem Local.held_runNext {k : Local C} {t : Nat} {at_ : RunPc C} {r : Option (RunPc C)}
    (h : k.runAt = some (t, at_)) : (k.runNext r).held = r.map fun at' => (t, at') := by
  cases r with
  | some at' =>
      rw [Option.map_some]
      exact Local.held_of_runAt (Local.runAt_runNext h)
  | none =>
      cases k with
      | client ip pc =>
          cases pc with
          | pitch t' site at' => exact AddSite.held_next ip site
          | _ => cases h
      | worker pc =>
          cases pc with
          | run t' at' => rfl
          | _ => cases h

/-! ## The conservation laws -/

/-- The books of a single client: every addition of a task is in the queue, held or
finished, and the history of the task agrees with the positions of its holders. -/
structure Ledger (d : DispatchConfig Unit N β υ)
    (a : AtomicState (Unit ⊕ Fin N) Nat (Local Unit) (Env Unit N β υ)) : Prop where
  added : ∀ t, a.fifo.count t + tally (Local.holding t) a.thread +
    a.env.history.finished.count t = (d.added () (a.thread (.inl ()))).count t
  called : ∀ t, a.env.history.called.count t =
    tally (Local.weight RunPc.called t) a.thread + a.env.history.finished.count t
  returned : ∀ t, a.env.history.returned.count t =
    tally (Local.weight RunPc.returned t) a.thread + a.env.history.finished.count t
  signalled : ∀ t, a.env.history.signalled.count t =
    tally (Local.weight RunPc.signalled t) a.thread +
      if (d.heap.task t).waitable = true then a.env.history.finished.count t else 0
  runFreed : ∀ t, a.env.history.runFreed.count t =
    if (d.heap.task t).waitable = true then 0 else a.env.history.finished.count t

section Steps

variable [DecidableEq C]

/-- What a statement of {lit}`run_task` on task {lit}`t` books for the task {lit}`t'`. -/
structure RunStep.Balance (env env' : Env C N β υ) (t : Nat) (at_ : RunPc C)
    (r : Option (RunPc C)) (t' : Nat) : Prop where
  finished : env'.history.finished.count t' = env.history.finished.count t' +
    if r = none ∧ t = t' then 1 else 0
  called : env'.history.called.count t' + at_.mark RunPc.called t t' =
    env.history.called.count t' +
      match r with | some at' => at'.mark RunPc.called t t' | none => if t = t' then 1 else 0
  returned : env'.history.returned.count t' + at_.mark RunPc.returned t t' =
    env.history.returned.count t' +
      match r with | some at' => at'.mark RunPc.returned t t' | none => if t = t' then 1 else 0
  signalled : env'.history.signalled.count t' + at_.mark RunPc.signalled t t' =
    env.history.signalled.count t' + match r with
      | some at' => at'.mark RunPc.signalled t t'
      | none => if t = t' ∧ at_ ≠ .delete then 1 else 0
  runFreed : env'.history.runFreed.count t' = env.history.runFreed.count t' +
    if t = t' ∧ at_ = .delete then 1 else 0

/-- The books of one statement of {lit}`run_task`. -/
theorem RunStep.balance {me : C ⊕ Fin N} {env env' : Env C N β υ} {t : Nat}
    {at_ : RunPc C} {r : Option (RunPc C)} (h : RunStep me env t at_ env' r) (t' : Nat) :
    RunStep.Balance env env' t at_ r t' := by
  by_cases ht : t = t'
  · subst ht
    cases h <;> constructor <;>
      simp [RunPc.mark, RunPc.called, RunPc.returned, RunPc.signalled, Env.setCounter]
  · cases h <;> constructor <;>
      simp [RunPc.mark, Env.setCounter, List.count_append, ht]

/-- {lit}`run_task` returns from the branch of the task's flag. -/
theorem RunStep.delete_iff {me : C ⊕ Fin N} {env env' : Env C N β υ} {t : Nat}
    {at_ : RunPc C} (h : RunStep me env t at_ env' none) {waitable : Bool}
    (hat : at_.OnBranch waitable) : at_ = .delete ↔ waitable = false := by
  cases h with
  | signalDone c =>
      have hw : waitable = true := hat
      simp [hw]
  | sendToken c =>
      have hw : waitable = true := hat
      simp [hw]
  | delete => exact ⟨fun _ => hat, fun _ => rfl⟩

end Steps

section Invariant

variable {d : DispatchConfig Unit N β υ}
  {a a' : AtomicState (Unit ⊕ Fin N) Nat (Local Unit) (Env Unit N β υ)} {u : Unit ⊕ Fin N}

/-- What a client has added after a statement of {lit}`run_task` in a thread. -/
theorem Tracked.added_runNext (h : Tracked d a) {t : Nat} {at_ : RunPc Unit}
    (hrun : (a.thread u).runAt = some (t, at_)) (r : Option (RunPc Unit)) :
    d.added () (Function.update a.thread u ((a.thread u).runNext r) (.inl ())) =
      d.added () (a.thread (.inl ())) := by
  by_cases hu : Sum.inl () = u
  · subst hu
    rw [Function.update_self]
    have hc := h.client ()
    cases hk : a.thread (.inl ()) with
    | worker pc =>
        rw [hk] at hc
        cases hc
    | client ip pc =>
        rw [hk] at hc hrun
        cases pc with
        | pitch t' site at' =>
            have hsite : d.SiteAt () ip t' site := hc
            cases r with
            | none =>
                change d.added () (site.next ip) = _
                rw [hsite.added_next, List.append_assoc]
                rfl
            | some at'' => rfl
        | _ => cases hrun
  · rw [Function.update_of_ne hu]

/-! ## How tasks move -/

/-- What a step does to the tasks: it adds one, hands one to a thread, is a statement of
{lit}`run_task`, or moves none. -/
inductive DispatchMove (d : DispatchConfig Unit N β υ)
    (a : AtomicState (Unit ⊕ Fin N) Nat (Local Unit) (Env Unit N β υ)) (u : Unit ⊕ Fin N)
    (a' : AtomicState (Unit ⊕ Fin N) Nat (Local Unit) (Env Unit N β υ)) : Prop where
  | send (t : Nat) (hfifo : a'.fifo = a.fifo ++ [t])
      (hadded : d.added () (a'.thread (.inl ())) = d.added () (a.thread (.inl ())) ++ [t])
      (hheld : ∀ v, (a'.thread v).held = (a.thread v).held) (henv : a'.env = a.env)
  | receive (t : Nat) (hfifo : a.fifo = t :: a'.fifo)
      (hadded : d.added () (a'.thread (.inl ())) = d.added () (a.thread (.inl ())))
      (hfree : (a.thread u).held = none) (hheld : (a'.thread u).held = some (t, .perform))
      (hother : ∀ v, v ≠ u → a'.thread v = a.thread v) (henv : a'.env = a.env)
  | pitch (t : Nat) (hu : u = .inl ()) (hfifo : a'.fifo = a.fifo)
      (hadded : d.added () (a'.thread (.inl ())) = d.added () (a.thread (.inl ())) ++ [t])
      (hfree : (a.thread u).held = none) (hheld : (a'.thread u).held = some (t, .perform))
      (hother : ∀ v, v ≠ u → a'.thread v = a.thread v) (henv : a'.env = a.env)
  | run (t : Nat) (at_ : RunPc Unit) (env' : Env Unit N β υ) (r : Option (RunPc Unit))
      (hrun : (a.thread u).runAt = some (t, at_)) (hstep : RunStep u a.env t at_ env' r)
      (heq : a' = { a with
        env := env'
        thread := Function.update a.thread u ((a.thread u).runNext r) })
  | silent (hfifo : a'.fifo = a.fifo)
      (hadded : d.added () (a'.thread (.inl ())) = d.added () (a.thread (.inl ())))
      (hheld : ∀ v, (a'.thread v).held = (a.thread v).held)
      (hhistory : a'.env.history.finished = a.env.history.finished ∧
        a'.env.history.called = a.env.history.called ∧
        a'.env.history.returned = a.env.history.returned ∧
        a'.env.history.signalled = a.env.history.signalled ∧
        a'.env.history.runFreed = a.env.history.runFreed)
      (huser : a'.env.user = a.env.user)

/-- Replacing the local state of a thread by one that holds the same. -/
theorem Local.held_update {k k' : Local Unit} (hk : a.thread u = k)
    (hheld : k'.held = k.held) (v : Unit ⊕ Fin N) :
    (Function.update a.thread u k' v).held = (a.thread v).held := by
  by_cases hv : v = u
  · subst hv
    rw [Function.update_self, hheld, hk]
  · rw [Function.update_of_ne hv]

/-- A client's step that neither adds nor takes a task. -/
theorem DispatchMove.client_silent {c : Unit} {k : Local Unit} {env : Env Unit N β υ}
    (hk : a.thread (.inl c) = k) (k' : Local Unit) (hheld : k'.held = k.held)
    (hadded : d.added () k' = d.added () k)
    (hhistory : env.history.finished = a.env.history.finished ∧
      env.history.called = a.env.history.called ∧
      env.history.returned = a.env.history.returned ∧
      env.history.signalled = a.env.history.signalled ∧
      env.history.runFreed = a.env.history.runFreed) (huser : env.user = a.env.user) :
    DispatchMove d a (.inl c)
      { a with env := env, thread := Function.update a.thread (.inl c) k' } := by
  refine .silent rfl ?_ (Local.held_update hk hheld) hhistory huser
  simp only [Function.update_self, show a.thread (.inl ()) = k from hk, hadded]

/-- A worker's step that takes no task. -/
theorem DispatchMove.worker_silent {i : Fin N} {k : Local Unit} {env : Env Unit N β υ}
    (hk : a.thread (.inr i) = k) (k' : Local Unit) (hheld : k'.held = k.held)
    (hhistory : env.history = a.env.history) (huser : env.user = a.env.user) :
    DispatchMove d a (.inr i)
      { a with env := env, thread := Function.update a.thread (.inr i) k' } := by
  refine .silent rfl (by simp) (Local.held_update hk hheld) ?_ huser
  simp only [hhistory]
  exact ⟨trivial, trivial, trivial, trivial, trivial⟩

/-- The program's next call adds nothing. -/
theorem DispatchConfig.added_ready_succ {ip : Nat} {call : DispatchCall}
    (hcall : (d.prog ())[ip]? = some call) (htasks : call.tasks d.heap = []) :
    d.added () (.client (ip + 1) .ready) = d.added () (.client ip .ready) := by
  simp [DispatchConfig.added, d.submitted_succ hcall, htasks, ClientPc.added]

/-- Every step moves tasks in one of the listed ways. -/
theorem DispatchStep.move (h : DispatchStep d a u a') (htracked : Tracked d a) :
    DispatchMove d a u a' := by
  cases h with
  | send c ip t site hk _ =>
      have hsite : d.SiteAt () ip t site := htracked.clientAt hk
      refine .send t rfl ?_ (Local.held_update hk (by simp; rfl)) rfl
      simp only [Function.update_self, hsite.added_next, show a.thread (.inl ()) = _ from hk]
      rfl
  | receive i t rest hk hfifo =>
      refine .receive t hfifo (by simp) (by rw [hk]; rfl) ?_ ?_ rfl
      · simp only [Function.update_self]
        rfl
      · intro v hv
        exact Function.update_of_ne hv _ _
  | addPitch c ip t site i busy hi hk _ =>
      refine .pitch t rfl rfl ?_ (by rw [hk]; rfl) ?_ ?_ rfl
      · simp [DispatchConfig.added, ClientPc.added, show a.thread (.inl ()) = _ from hk]
      · simp only [Function.update_self]
        rfl
      · intro v hv
        exact Function.update_of_ne hv _ _
  | run u t at_ env' r hrun hstep => exact .run t at_ env' r hrun hstep rfl
  | sizeZero c ip busy hk _ =>
      have hcall : (d.prog ())[ip]? = some .wait := htracked.clientAt hk
      exact .client_silent hk _ rfl (DispatchConfig.added_ready_succ hcall rfl)
        ⟨rfl, rfl, rfl, rfl, rfl⟩ rfl
  | groupDone c ip g i counter hk hend =>
      rcases htracked.clientAt hk with ⟨hcall, -, -⟩
      refine .client_silent hk _ rfl ?_ ⟨rfl, rfl, rfl, rfl, rfl⟩ rfl
      rw [htracked.group, List.getElem?_eq_none_iff] at hend
      simp [DispatchConfig.added, d.submitted_succ hcall, DispatchCall.tasks,
        ClientPc.added, List.take_of_length_le hend]
  | taskAddWaitable c ip t hk _ _ =>
      exact .client_silent hk _ (DispatchConfig.held_addEntry d ip t _)
        (DispatchConfig.added_addEntry () ip t .task) ⟨rfl, rfl, rfl, rfl, rfl⟩ rfl
  | taskAddPlain c ip t hk _ _ =>
      exact .client_silent hk _ (DispatchConfig.held_addEntry d ip t _)
        (DispatchConfig.added_addEntry () ip t .task) ⟨rfl, rfl, rfl, rfl, rfl⟩ rfl
  | groupStore c ip g i t counter hk _ =>
      exact .client_silent hk _ (DispatchConfig.held_addEntry d ip t _)
        (DispatchConfig.added_addEntry () ip t (.member g i counter))
        ⟨rfl, rfl, rfl, rfl, rfl⟩ rfl
  | deleteDone c ip hk =>
      have hwaits : d.WaitsAt () ip := htracked.clientAt hk
      rcases hwaits with ⟨t, hcall⟩ | ⟨g, hcall⟩
      · exact .client_silent hk _ rfl (DispatchConfig.added_ready_succ hcall rfl)
          ⟨rfl, rfl, rfl, rfl, rfl⟩ rfl
      · exact .client_silent hk _ rfl (DispatchConfig.added_ready_succ hcall rfl)
          ⟨rfl, rfl, rfl, rfl, rfl⟩ rfl
  | freeObject c ip object k hk hnext =>
      have hcall : (d.prog ())[ip]? = some .delete := htracked.clientAt hk
      rcases hnext with rfl | ⟨object', rfl⟩
      · exact .client_silent hk _ rfl (DispatchConfig.added_ready_succ hcall rfl)
          ⟨rfl, rfl, rfl, rfl, rfl⟩ rfl
      · exact .client_silent hk _ rfl rfl ⟨rfl, rfl, rfl, rfl, rfl⟩ rfl
  | start i hk => exact .worker_silent hk _ rfl rfl rfl
  | setBusy i t hk => exact .worker_silent hk _ rfl rfl rfl
  | setReady i hk => exact .worker_silent hk _ rfl rfl rfl
  | freeCend i hk => exact .worker_silent hk _ rfl rfl rfl
  | _ =>
      refine .client_silent (by assumption) _ ?_ ?_ ⟨rfl, rfl, rfl, rfl, rfl⟩ ?_ <;> rfl

/-! ## Steps keep the books -/

/-- Tallies over what the threads hold. -/
theorem tally_weight_congr {f f' : Unit ⊕ Fin N → Local Unit}
    (h : ∀ v, (f' v).held = (f v).held) (p : RunPc Unit → Bool) (t : Nat) :
    tally (Local.weight p t) f' = tally (Local.weight p t) f := by
  unfold tally Local.weight
  simp only [h]

/-- A thread that takes a task adds its weight. -/
theorem tally_weight_take {f f' : Unit ⊕ Fin N → Local Unit} {t : Nat}
    (hfree : (f u).held = none) (hheld : (f' u).held = some (t, .perform))
    (hother : ∀ v, v ≠ u → f' v = f v) (p : RunPc Unit → Bool) (t' : Nat) :
    tally (Local.weight p t') f' =
      tally (Local.weight p t') f + RunPc.mark p t t' .perform := by
  have hf' : f' = Function.update f u (f' u) := by
    funext v
    by_cases hv : v = u
    · subst hv
      rw [Function.update_self]
    · rw [Function.update_of_ne hv, hother v hv]
  have hupdate := tally_update (Local.weight p t') f u (f' u)
  rw [Local.weight_of_not_held hfree, Local.weight_of_held hheld, ← hf'] at hupdate
  exact hupdate

/-- A thread takes a task that leaves the queue or is added at the same moment. -/
theorem Ledger.take (h : Ledger d a) {t : Nat} (hfree : (a.thread u).held = none)
    (hheld : (a'.thread u).held = some (t, .perform))
    (hother : ∀ v, v ≠ u → a'.thread v = a.thread v) (henv : a'.env = a.env)
    (hadded : ∀ t', a'.fifo.count t' + (if t = t' then 1 else 0) +
        (d.added () (a.thread (.inl ()))).count t' =
      a.fifo.count t' + (d.added () (a'.thread (.inl ()))).count t') : Ledger d a' := by
  have htally := tally_weight_take hfree hheld hother
  constructor
  · intro t'
    have hsum := h.added t'
    have hnew := hadded t'
    simp only [Local.holding, htally, RunPc.mark, and_true, henv] at hsum ⊢
    omega
  · intro t'
    rw [henv, h.called t', htally]
    simp [RunPc.mark, RunPc.called]
  · intro t'
    rw [henv, h.returned t', htally]
    simp [RunPc.mark, RunPc.returned]
  · intro t'
    rw [henv, h.signalled t', htally]
    simp [RunPc.mark, RunPc.signalled]
  · rw [henv]
    exact h.runFreed

/-- A statement of {lit}`run_task` keeps the books. -/
theorem Ledger.run (h : Ledger d a) (htracked : Tracked d a) {t : Nat} {at_ : RunPc Unit}
    {env' : Env Unit N β υ} {r : Option (RunPc Unit)}
    (hrun : (a.thread u).runAt = some (t, at_)) (hstep : RunStep u a.env t at_ env' r) :
    Ledger d { a with
      env := env'
      thread := Function.update a.thread u ((a.thread u).runNext r) } := by
  have hbranch := htracked.run u t at_ hrun
  have hdelete : r = none → (at_ = .delete ↔ (d.heap.task t).waitable = false) := by
    rintro rfl
    exact hstep.delete_iff hbranch
  have htally : ∀ p t', tally (Local.weight p t')
      (Function.update a.thread u ((a.thread u).runNext r)) + at_.mark p t t' =
      tally (Local.weight p t') a.thread +
        match r with | some at' => at'.mark p t t' | none => 0 := by
    intro p t'
    have hupdate := tally_update (Local.weight p t') a.thread u ((a.thread u).runNext r)
    rw [Local.weight_of_held (Local.held_of_runAt hrun)] at hupdate
    cases r with
    | none =>
        rw [Local.weight_of_not_held (Local.held_runNext hrun)] at hupdate
        exact hupdate
    | some at' =>
        rw [Local.weight_of_held (Local.held_runNext hrun)] at hupdate
        exact hupdate
  have hreturn : ∀ p t', RunPc.mark p t t' at_ ≤ if t = t' then 1 else 0 := by
    intro p t'
    unfold RunPc.mark
    by_cases ht : t = t'
    · by_cases hp : p at_ = true <;> simp [ht, hp]
    · simp [ht]
  constructor
  · intro t'
    rw [htracked.added_runNext hrun r, ← h.added t', (hstep.balance t').finished]
    have hsum := htally (fun _ => true) t'
    simp only [Local.holding]
    cases r with
    | none =>
        simp only [RunPc.mark, and_true, true_and] at hsum ⊢
        omega
    | some at' =>
        simp only [RunPc.mark, and_true, reduceCtorEq, false_and, if_false] at hsum ⊢
        omega
  · intro t'
    have hbal := hstep.balance t'
    have h₁ := hbal.called
    have h₂ := hbal.finished
    have h₃ := htally RunPc.called t'
    have h₄ := h.called t'
    cases r <;> simp only [true_and, reduceCtorEq, false_and, if_false] at * <;> omega
  · intro t'
    have hbal := hstep.balance t'
    have h₁ := hbal.returned
    have h₂ := hbal.finished
    have h₃ := htally RunPc.returned t'
    have h₄ := h.returned t'
    cases r <;> simp only [true_and, reduceCtorEq, false_and, if_false] at * <;> omega
  · intro t'
    have hbal := hstep.balance t'
    have h₁ := hbal.signalled
    have h₂ := hbal.finished
    have h₃ := htally RunPc.signalled t'
    have h₄ := h.signalled t'
    cases r with
    | some at' =>
        simp only [reduceCtorEq, false_and, if_false, Nat.add_zero] at h₁ h₂ h₃
        simp only [h₂]
        omega
    | none =>
        by_cases ht : t = t'
        · subst ht
          have hd := hdelete rfl
          cases hw : (d.heap.task t).waitable with
          | true =>
              have hne : at_ ≠ .delete := by simp [hd, hw]
              simp only [hne, hw, true_and, if_true, ne_eq, not_false_eq_true]
                at h₁ h₂ h₃ h₄ ⊢
              omega
          | false =>
              have heq : at_ = .delete := by simp [hd, hw]
              simp only [heq, hw, true_and, ne_eq, not_true_eq_false, if_false,
                Bool.false_eq_true] at h₁ h₂ h₃ h₄ ⊢
              omega
        · simp only [ht, and_false, false_and, if_false, Nat.add_zero] at h₁ h₂ h₃
          simp only [h₂]
          omega
  · intro t'
    have hbal := hstep.balance t'
    have h₁ := hbal.runFreed
    have h₂ := hbal.finished
    have h₄ := h.runFreed t'
    cases r with
    | some at' =>
        have hne : at_ ≠ .delete := by
          rintro rfl
          cases hstep
        simp only [hne, reduceCtorEq, and_false, false_and, if_false, Nat.add_zero]
          at h₁ h₂
        rw [h₁, h₂, h₄]
    | none =>
        by_cases ht : t = t'
        · subst ht
          have hd := hdelete rfl
          cases hw : (d.heap.task t).waitable with
          | true =>
              have hne : at_ ≠ .delete := by simp [hd, hw]
              simp only [hne, hw, and_false, if_true, if_false, Nat.add_zero] at h₁ h₄ ⊢
              omega
          | false =>
              have heq : at_ = .delete := by simp [hd, hw]
              simp only [heq, hw, true_and, if_true, if_false, Bool.false_eq_true]
                at h₁ h₂ h₄ ⊢
              omega
        · simp only [ht, and_false, false_and, if_false, Nat.add_zero] at h₁ h₂
          rw [h₁, h₂, h₄]

/-- Every step keeps the books. -/
theorem Ledger.step (h : Ledger d a) (htracked : Tracked d a)
    (hstep : DispatchStep d a u a') : Ledger d a' := by
  cases hstep.move htracked with
  | send t hfifo hadded hheld henv =>
      have htally := tally_weight_congr hheld
      constructor
      · intro t'
        have hsum := h.added t'
        simp only [Local.holding, htally, hfifo, hadded, henv, List.count_append] at hsum ⊢
        omega
      · simpa only [henv, htally] using h.called
      · simpa only [henv, htally] using h.returned
      · simpa only [henv, htally] using h.signalled
      · simpa only [henv] using h.runFreed
  | receive t hfifo hadded hfree hheld hother henv =>
      refine h.take hfree hheld hother henv fun t' => ?_
      rw [hfifo, hadded, List.count_cons]
      simp only [beq_iff_eq]
  | pitch t _ hfifo hadded hfree hheld hother henv =>
      refine h.take hfree hheld hother henv fun t' => ?_
      rw [hfifo, hadded, List.count_append, List.count_singleton]
      simp only [beq_iff_eq]
      omega
  | run t at_ env' r hrun hrunStep heq =>
      subst heq
      exact h.run htracked hrun hrunStep
  | silent hfifo hadded hheld hhistory _ =>
      rcases hhistory with ⟨hfinished, hcalled, hreturned, hsignalled, hfreed⟩
      have htally := tally_weight_congr hheld
      constructor
      · intro t
        have hsum := h.added t
        simpa only [Local.holding, htally, hfifo, hadded, hfinished] using hsum
      · simpa only [hcalled, hfinished, htally] using h.called
      · simpa only [hreturned, hfinished, htally] using h.returned
      · simpa only [hsignalled, hfinished, htally] using h.signalled
      · simpa only [hfreed, hfinished] using h.runFreed

theorem ledger_init : Ledger d d.atomicThreads.init := by
  have htally : ∀ p t,
      tally (Local.weight p t) (dispatchStart : Unit ⊕ Fin N → Local Unit) = 0 := by
    intro p t
    rw [tally_eq_zero_iff]
    intro u
    cases u <;> rfl
  constructor
  · intro t
    change _ + tally (Local.weight _ t) dispatchStart + _ = _
    rw [htally]
    rfl
  · intro t
    change _ = tally (Local.weight _ t) dispatchStart + _
    rw [htally]
    rfl
  · intro t
    change _ = tally (Local.weight _ t) dispatchStart + _
    rw [htally]
    rfl
  · intro t
    change _ = tally (Local.weight _ t) dispatchStart + _
    rw [htally]
    simp [DispatchConfig.atomicThreads, atomicThreads, DispatchConfig.env, History.empty]
  · intro t
    simp [DispatchConfig.atomicThreads, atomicThreads, DispatchConfig.env, History.empty]

/-- The conservation laws hold in every reachable state. -/
theorem ledger_of_reachable (ha : d.atomicThreads.Reachable a) : Ledger d a :=
  ha.invariant ledger_init fun _ _ _ hr h hstep =>
    h.step (tracked_of_reachable hr) (dispatchStep_of_step hstep)

/-- A task has returned at least as often as it has signalled, and was called at least
as often as it has returned. -/
theorem Ledger.signalled_le_returned (h : Ledger d a) (t : Nat) :
    a.env.history.signalled.count t ≤ a.env.history.returned.count t := by
  have hle : tally (Local.weight RunPc.signalled t) a.thread ≤
      tally (Local.weight RunPc.returned t) a.thread := by
    apply tally_le_tally
    intro u
    unfold Local.weight
    cases (a.thread u).held with
    | none => exact Nat.le_refl 0
    | some x =>
        rcases x with ⟨t', at_⟩
        cases at_ <;> simp [RunPc.mark, RunPc.signalled, RunPc.returned]
  rw [h.signalled t, h.returned t]
  split <;> omega

end Invariant

end Metal
end LibDispatch
