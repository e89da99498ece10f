import LibDispatch.Metal.DispatchQueue

/-!
# The steps of the dispatch queue, case by case

The steps of clients and workers over the atomic queue, stated once as two inductive
relations for proofs by case analysis: {lit}`RunStep` for the statements of
{lit}`run_task`, which a worker executes, and in the mode {lit}`use_callers_thread` a client
too, and {lit}`DispatchStep` for all steps.

Main results:

- Theorem {lit}`runStep_of_runTask`: every executed statement of {lit}`run_task` is a
  {lit}`RunStep`.
- Theorem {lit}`dispatchStep_of_step`: every step of the dispatch queue is a
  {lit}`DispatchStep`.
-/

namespace LibDispatch
namespace Metal

variable {C : Type} {N : Nat} {β υ : Type}

/-! ## Running a task -/

/-- The task that a thread runs, and its position in {lit}`run_task`. -/
def Local.runAt : Local C → Option (Nat × RunPc C)
  | .client _ (.pitch t _ at_) => some (t, at_)
  | .worker (.run t at_) => some (t, at_)
  | _ => none

/-- A thread that runs a task, after a statement of {lit}`run_task` or its return. -/
def Local.runNext : Local C → Option (RunPc C) → Local C
  | .client ip (.pitch t site _), some at' => .client ip (.pitch t site at')
  | .client ip (.pitch _ site _), none => site.next ip
  | .worker (.run t _), some at' => .worker (.run t at')
  | .worker (.run _ _), none => .worker .setReady
  | k, _ => k

section Steps

variable [DecidableEq C]

/-- The statements of {lit}`run_task`, one constructor for each case. -/
inductive RunStep (me : C ⊕ Fin N) (env : Env C N β υ) (t : Nat) :
    RunPc C → Env C N β υ → Option (RunPc C) → Prop where
  | perform :
      RunStep me env t .perform
        { env with history := { env.history with called := env.history.called ++ [t] } }
        (some .running)
  | running :
      RunStep me env t .running
        { env with
          user := dispatchTaskPerform (env.heap.task t) env.user
          history := { env.history with returned := env.history.returned ++ [t] } }
        (some .testWaitable)
  | testWaitable (hwaitable : (env.heap.task t).waitable = true) :
      RunStep me env t .testWaitable env (some .readCounter)
  | testPlain (hwaitable : (env.heap.task t).waitable = false) :
      RunStep me env t .testWaitable env (some .delete)
  | readCounter (c : C × Nat) (hdata : (env.heap.task t).privateData = some c) :
      RunStep me env t .readCounter env (some (.signalLock c))
  | signalLock (c : C × Nat) (hfree : (env.counter c).lock = none) :
      RunStep me env t (.signalLock c)
        (env.setCounter c { env.counter c with lock := some me }) (some (.decrement c))
  | decrement (c : C × Nat) :
      RunStep me env t (.decrement c)
        { env.setCounter c { env.counter c with count := (env.counter c).count - 1 } with
          history := { env.history with signalled := env.history.signalled ++ [t] } }
        (some (.signalUnlock c
          (decide (0 < (env.counter c).count ∧ (env.counter c).count - 1 = 0))))
  | signalLast (c : C × Nat) :
      RunStep me env t (.signalUnlock c true)
        (env.setCounter c { env.counter c with lock := none }) (some (.sendToken c))
  | signalDone (c : C × Nat) :
      RunStep me env t (.signalUnlock c false)
        { env.setCounter c { env.counter c with lock := none } with
          history := { env.history with finished := env.history.finished ++ [t] } } none
  | sendToken (c : C × Nat) :
      RunStep me env t (.sendToken c)
        { env.setCounter c { env.counter c with tokens := (env.counter c).tokens + 1 } with
          history := { env.history with
            tokenSent := env.history.tokenSent ++ [c]
            finished := env.history.finished ++ [t] } } none
  | delete :
      RunStep me env t .delete
        { env with history := { env.history with
          runFreed := env.history.runFreed ++ [t]
          finished := env.history.finished ++ [t] } } none

/-- Every executed statement of {lit}`run_task` is one of the listed ones. -/
theorem runStep_of_runTask {me : C ⊕ Fin N} {env env' : Env C N β υ} {t : Nat}
    {at_ : RunPc C} {r : Option (RunPc C)} (h : runTask me env t at_ = some (env', r)) :
    RunStep me env t at_ env' r := by
  cases at_ with
  | perform => cases h; exact .perform
  | running => cases h; exact .running
  | testWaitable =>
      cases hw : (env.heap.task t).waitable with
      | true =>
          simp only [runTask, hw, if_true, Option.some.injEq, Prod.mk.injEq] at h
          rcases h with ⟨rfl, rfl⟩
          exact .testWaitable hw
      | false =>
          simp only [runTask, hw, Bool.false_eq_true, if_false, Option.some.injEq,
            Prod.mk.injEq] at h
          rcases h with ⟨rfl, rfl⟩
          exact .testPlain hw
  | readCounter =>
      simp only [runTask, Option.map_eq_some_iff, Prod.mk.injEq] at h
      rcases h with ⟨c, hdata, rfl, rfl⟩
      exact .readCounter c hdata
  | signalLock c =>
      simp only [runTask, Option.ite_none_right_eq_some, Option.some.injEq,
        Prod.mk.injEq] at h
      rcases h with ⟨hfree, rfl, rfl⟩
      exact .signalLock c hfree
  | decrement c => cases h; exact .decrement c
  | signalUnlock c signal =>
      cases signal with
      | true => cases h; exact .signalLast c
      | false => cases h; exact .signalDone c
  | sendToken c => cases h; exact .sendToken c
  | delete => cases h; exact .delete

/-! ## All steps -/

/-- {lit}`DispatchStep d a u a'`: the thread {lit}`u` can turn {lit}`a` into {lit}`a'`.  The same
steps as those of {lit}`d.atomicThreads`, one constructor for each case. -/
inductive DispatchStep (d : DispatchConfig C N β υ)
    (a : AtomicState (C ⊕ Fin N) Nat (Local C) (Env C N β υ)) :
    C ⊕ Fin N → AtomicState (C ⊕ Fin N) Nat (Local C) (Env C N β υ) → Prop where
  -- the calls of queue functions
  | send (c : C) (ip t : Nat) (site : AddSite C)
      (hk : a.thread (.inl c) = .client ip (.send t site))
      (hroom : a.fifo.length < d.length) :
      DispatchStep d a (.inl c) { a with
        fifo := a.fifo ++ [t]
        thread := Function.update a.thread (.inl c) (site.next ip) }
  | receive (i : Fin N) (t : Nat) (rest : List Nat)
      (hk : a.thread (.inr i) = .worker .receive) (hfifo : a.fifo = t :: rest) :
      DispatchStep d a (.inr i) { a with
        fifo := rest
        thread := Function.update a.thread (.inr i) (.worker (.setBusy t)) }
  | sizeZero (c : C) (ip busy : Nat)
      (hk : a.thread (.inl c) = .client ip (.waitSize busy))
      (hzero : busy + a.fifo.length = 0) :
      DispatchStep d a (.inl c) { a with
        thread := Function.update a.thread (.inl c) (.client (ip + 1) .ready) }
  | sizeAgain (c : C) (ip busy : Nat)
      (hk : a.thread (.inl c) = .client ip (.waitSize busy))
      (hzero : busy + a.fifo.length ≠ 0) :
      DispatchStep d a (.inl c) { a with
        thread := Function.update a.thread (.inl c) (.client ip (.waitScan 0 0)) }
  -- the calls of a client
  | taskAddWaitable (c : C) (ip t : Nat) (hk : a.thread (.inl c) = .client ip .ready)
      (hcall : (d.prog c)[ip]? = some (.taskAdd t))
      (hwaitable : (a.env.heap.task t).waitable = true) :
      DispatchStep d a (.inl c) { a with
        env := (a.env.setCounter (c, ip) (eventCounterCreate 1)).storePrivateData t
          (some (c, ip))
        thread := Function.update a.thread (.inl c) (.client ip (d.addEntry t .task)) }
  | taskAddPlain (c : C) (ip t : Nat) (hk : a.thread (.inl c) = .client ip .ready)
      (hcall : (d.prog c)[ip]? = some (.taskAdd t))
      (hwaitable : (a.env.heap.task t).waitable = false) :
      DispatchStep d a (.inl c) { a with
        thread := Function.update a.thread (.inl c) (.client ip (d.addEntry t .task)) }
  | groupAddWaitable (c : C) (ip g : Nat) (hk : a.thread (.inl c) = .client ip .ready)
      (hcall : (d.prog c)[ip]? = some (.groupAdd g))
      (hwaitable : (a.env.heap.group g).waitable = true) :
      DispatchStep d a (.inl c) { a with
        env := a.env.setCounter (c, ip) (eventCounterCreate (a.env.heap.group g).count)
        thread := Function.update a.thread (.inl c)
          (.client ip (.groupLoop g 0 (some (c, ip)))) }
  | groupAddPlain (c : C) (ip g : Nat) (hk : a.thread (.inl c) = .client ip .ready)
      (hcall : (d.prog c)[ip]? = some (.groupAdd g))
      (hwaitable : (a.env.heap.group g).waitable = false) :
      DispatchStep d a (.inl c) { a with
        thread := Function.update a.thread (.inl c) (.client ip (.groupLoop g 0 none)) }
  | taskWait (c : C) (ip t : Nat) (counter : C × Nat)
      (hk : a.thread (.inl c) = .client ip .ready)
      (hcall : (d.prog c)[ip]? = some (.taskWait t))
      (hdata : (a.env.heap.task t).privateData = some counter) :
      DispatchStep d a (.inl c) { a with
        thread := Function.update a.thread (.inl c)
          (.client ip (.checkToken counter [t])) }
  | groupWait (c : C) (ip g t : Nat) (ts : List Nat) (counter : C × Nat)
      (hk : a.thread (.inl c) = .client ip .ready)
      (hcall : (d.prog c)[ip]? = some (.groupWait g))
      (htasks : (a.env.heap.group g).tasks = t :: ts)
      (hdata : (a.env.heap.task t).privateData = some counter) :
      DispatchStep d a (.inl c) { a with
        thread := Function.update a.thread (.inl c)
          (.client ip (.checkToken counter (t :: ts))) }
  | wait (c : C) (ip : Nat) (hk : a.thread (.inl c) = .client ip .ready)
      (hcall : (d.prog c)[ip]? = some .wait) :
      DispatchStep d a (.inl c) { a with
        thread := Function.update a.thread (.inl c) (.client ip (.waitScan 0 0)) }
  -- adding the tasks of a group
  | groupDone (c : C) (ip g i : Nat) (counter : Option (C × Nat))
      (hk : a.thread (.inl c) = .client ip (.groupLoop g i counter))
      (hend : (a.env.heap.group g).tasks[i]? = none) :
      DispatchStep d a (.inl c) { a with
        thread := Function.update a.thread (.inl c) (.client (ip + 1) .ready) }
  | groupStore (c : C) (ip g i t : Nat) (counter : Option (C × Nat))
      (hk : a.thread (.inl c) = .client ip (.groupLoop g i counter))
      (htask : (a.env.heap.group g).tasks[i]? = some t) :
      DispatchStep d a (.inl c) { a with
        env := a.env.storePrivateData t counter
        thread := Function.update a.thread (.inl c)
          (.client ip (d.addEntry t (.member g i counter))) }
  -- the mode `use_callers_thread`
  | addRead (c : C) (ip t : Nat) (site : AddSite C) (i busy : Nat) (hi : i < N)
      (hk : a.thread (.inl c) = .client ip (.addScan t site i busy)) :
      DispatchStep d a (.inl c) { a with
        thread := Function.update a.thread (.inl c)
          (.client ip (.addScan t site (i + 1) (busyCount (a.env.status ⟨i, hi⟩) busy))) }
  | addPitch (c : C) (ip t : Nat) (site : AddSite C) (i busy : Nat) (hi : ¬ i < N)
      (hk : a.thread (.inl c) = .client ip (.addScan t site i busy)) (hbusy : busy = N) :
      DispatchStep d a (.inl c) { a with
        thread := Function.update a.thread (.inl c) (.client ip (.pitch t site .perform)) }
  | addSend (c : C) (ip t : Nat) (site : AddSite C) (i busy : Nat) (hi : ¬ i < N)
      (hk : a.thread (.inl c) = .client ip (.addScan t site i busy)) (hbusy : busy ≠ N) :
      DispatchStep d a (.inl c) { a with
        thread := Function.update a.thread (.inl c) (.client ip (.send t site)) }
  -- running a task, in a worker or in a client
  | run (u : C ⊕ Fin N) (t : Nat) (at_ : RunPc C) (env' : Env C N β υ)
      (r : Option (RunPc C)) (hrun : (a.thread u).runAt = some (t, at_))
      (hstep : RunStep u a.env t at_ env' r) :
      DispatchStep d a u { a with
        env := env'
        thread := Function.update a.thread u ((a.thread u).runNext r) }
  -- the three functions that wait
  | checkToken (c : C) (ip : Nat) (counter : C × Nat) (tasks : List Nat)
      (hk : a.thread (.inl c) = .client ip (.checkToken counter tasks))
      (htoken : 0 < (a.env.counter counter).tokens) :
      DispatchStep d a (.inl c) { a with
        env := a.env.setCounter counter { a.env.counter counter with
          tokens := (a.env.counter counter).tokens - 1 }
        thread := Function.update a.thread (.inl c)
          (.client ip (.deleteCounter counter tasks)) }
  | deleteCounter (c : C) (ip : Nat) (counter : C × Nat) (tasks : List Nat)
      (hk : a.thread (.inl c) = .client ip (.deleteCounter counter tasks)) :
      DispatchStep d a (.inl c) { a with
        env := { a.env with history := { a.env.history with
          counterFreed := a.env.history.counterFreed ++ [counter] } }
        thread := Function.update a.thread (.inl c) (.client ip (.deleteTasks tasks)) }
  | deleteTask (c : C) (ip t : Nat) (ts : List Nat)
      (hk : a.thread (.inl c) = .client ip (.deleteTasks (t :: ts))) :
      DispatchStep d a (.inl c) { a with
        env := { a.env with history := { a.env.history with
          waitFreed := a.env.history.waitFreed ++ [t] } }
        thread := Function.update a.thread (.inl c) (.client ip (.deleteTasks ts)) }
  | deleteDone (c : C) (ip : Nat)
      (hk : a.thread (.inl c) = .client ip (.deleteTasks [])) :
      DispatchStep d a (.inl c) { a with
        thread := Function.update a.thread (.inl c) (.client (ip + 1) .ready) }
  | waitRead (c : C) (ip i busy : Nat) (hi : i < N)
      (hk : a.thread (.inl c) = .client ip (.waitScan i busy)) :
      DispatchStep d a (.inl c) { a with
        thread := Function.update a.thread (.inl c)
          (.client ip (.waitScan (i + 1) (busyCount (a.env.status ⟨i, hi⟩) busy))) }
  | waitAll (c : C) (ip i busy : Nat) (hi : ¬ i < N)
      (hk : a.thread (.inl c) = .client ip (.waitScan i busy)) :
      DispatchStep d a (.inl c) { a with
        thread := Function.update a.thread (.inl c) (.client ip (.waitSize busy)) }
  | freeObject (c : C) (ip : Nat) (object : DispatchObject) (k : Local C)
      (hk : a.thread (.inl c) = .client ip (.freeObject object))
      (hnext : k = .client (ip + 1) .ready ∨ ∃ object', k = .client ip (.freeObject object')) :
      DispatchStep d a (.inl c) { a with
        env := { a.env with released := Function.update a.env.released object true }
        thread := Function.update a.thread (.inl c) k }
  -- the worker
  | start (i : Fin N) (hk : a.thread (.inr i) = .worker .start) :
      DispatchStep d a (.inr i) { a with
        thread := Function.update a.thread (.inr i) (.worker .receive) }
  | setBusy (i : Fin N) (t : Nat) (hk : a.thread (.inr i) = .worker (.setBusy t)) :
      DispatchStep d a (.inr i) { a with
        env := { a.env with status := Function.update a.env.status i .busy }
        thread := Function.update a.thread (.inr i) (.worker (.run t .perform)) }
  | setReady (i : Fin N) (hk : a.thread (.inr i) = .worker .setReady) :
      DispatchStep d a (.inr i) { a with
        env := { a.env with status := Function.update a.env.status i .ready }
        thread := Function.update a.thread (.inr i) (.worker .receive) }
  | freeCend (i : Fin N) (hk : a.thread (.inr i) = .worker .freeCend) :
      DispatchStep d a (.inr i) { a with
        thread := Function.update a.thread (.inr i) (.worker .exited) }

variable {d : DispatchConfig C N β υ}
  {a a' : AtomicState (C ⊕ Fin N) Nat (Local C) (Env C N β υ)} {u : C ⊕ Fin N}

/-- The positions at which a thread calls a queue function. -/
theorem DispatchConfig.call_cases {k : Local C} {x : Call Nat}
    (h : d.caller.call u k = some x) :
    (∃ c ip, u = .inl c ∧ k = .client ip .ready ∧ x = .delete) ∨
    (∃ c ip t site, u = .inl c ∧ k = .client ip (.send t site) ∧ x = .send t) ∨
    (∃ c ip busy, u = .inl c ∧ k = .client ip (.waitSize busy) ∧ x = .size) ∨
    (∃ i, u = .inr i ∧ k = .worker .receive ∧ x = .receive) := by
  simp only [DispatchConfig.caller] at h
  split at h
  · rename_i c ip
    split at h
    · cases h
      exact Or.inl ⟨c, ip, rfl, rfl, rfl⟩
    · cases h
  · rename_i c ip t site
    cases h
    exact Or.inr (Or.inl ⟨c, ip, t, site, rfl, rfl, rfl⟩)
  · rename_i c ip busy
    cases h
    exact Or.inr (Or.inr (Or.inl ⟨c, ip, busy, rfl, rfl, rfl⟩))
  · rename_i i
    cases h
    exact Or.inr (Or.inr (Or.inr ⟨i, rfl, rfl, rfl⟩))
  · cases h

/-- A statement of {lit}`run_task` in a thread that runs a task. -/
theorem DispatchStep.of_runTask {k : Local C} {t : Nat} {at_ : RunPc C} {env' : Env C N β υ}
    {r : Option (RunPc C)} (hk : a.thread u = k) (hrun : k.runAt = some (t, at_))
    (h : runTask u a.env t at_ = some (env', r)) :
    DispatchStep d a u { a with
      env := env'
      thread := Function.update a.thread u (k.runNext r) } := by
  subst hk
  exact .run u t at_ env' r hrun (runStep_of_runTask h)

/-- Every step of a client's own code is one of the listed ones. -/
theorem DispatchStep.of_clientStep {c : C} {ip : Nat} {pc : ClientPc C} {k' : Local C}
    {env' : Env C N β υ} (hk : a.thread (.inl c) = .client ip pc)
    (h : d.clientStep c ip a.env pc = some (k', env')) :
    DispatchStep d a (.inl c) { a with
      env := env'
      thread := Function.update a.thread (.inl c) k' } := by
  cases pc with
  | ready =>
      simp only [DispatchConfig.clientStep, Option.bind_eq_some_iff] at h
      rcases h with ⟨call, hcall, h⟩
      cases call with
      | taskAdd t =>
          cases hw : (a.env.heap.task t).waitable with
          | true =>
              simp only [DispatchConfig.startCall, hw, if_true, Option.some.injEq,
                Prod.mk.injEq] at h
              rcases h with ⟨rfl, rfl⟩
              exact .taskAddWaitable c ip t hk hcall hw
          | false =>
              simp only [DispatchConfig.startCall, hw, Bool.false_eq_true, if_false,
                Option.some.injEq, Prod.mk.injEq] at h
              rcases h with ⟨rfl, rfl⟩
              exact .taskAddPlain c ip t hk hcall hw
      | groupAdd g =>
          cases hw : (a.env.heap.group g).waitable with
          | true =>
              simp only [DispatchConfig.startCall, hw, if_true, Option.some.injEq,
                Prod.mk.injEq] at h
              rcases h with ⟨rfl, rfl⟩
              exact .groupAddWaitable c ip g hk hcall hw
          | false =>
              simp only [DispatchConfig.startCall, hw, Bool.false_eq_true, if_false,
                Option.some.injEq, Prod.mk.injEq] at h
              rcases h with ⟨rfl, rfl⟩
              exact .groupAddPlain c ip g hk hcall hw
      | taskWait t =>
          simp only [DispatchConfig.startCall, Option.ite_none_right_eq_some,
            Option.map_eq_some_iff, Prod.mk.injEq] at h
          rcases h with ⟨-, counter, hdata, rfl, rfl⟩
          exact .taskWait c ip t counter hk hcall hdata
      | groupWait g =>
          simp only [DispatchConfig.startCall, Option.ite_none_right_eq_some] at h
          rcases h with ⟨-, h⟩
          cases htasks : (a.env.heap.group g).tasks with
          | nil => simp [htasks] at h
          | cons t ts =>
              simp only [htasks, Option.map_eq_some_iff, Prod.mk.injEq] at h
              rcases h with ⟨counter, hdata, rfl, rfl⟩
              exact .groupWait c ip g t ts counter hk hcall htasks hdata
      | wait =>
          cases h
          exact .wait c ip hk hcall
      | delete => cases h
  | groupLoop g i counter =>
      cases htask : (a.env.heap.group g).tasks[i]? with
      | none =>
          simp only [DispatchConfig.clientStep, htask, Option.some.injEq,
            Prod.mk.injEq] at h
          rcases h with ⟨rfl, rfl⟩
          exact .groupDone c ip g i counter hk htask
      | some t =>
          simp only [DispatchConfig.clientStep, htask, Option.some.injEq,
            Prod.mk.injEq] at h
          rcases h with ⟨rfl, rfl⟩
          exact .groupStore c ip g i t counter hk htask
  | addScan t site i busy =>
      by_cases hi : i < N
      · simp only [DispatchConfig.clientStep, hi, dif_pos, Option.some.injEq,
          Prod.mk.injEq] at h
        rcases h with ⟨rfl, rfl⟩
        exact .addRead c ip t site i busy hi hk
      · by_cases hbusy : busy = N
        · simp only [DispatchConfig.clientStep, hi, hbusy, dif_neg, not_false_eq_true,
            if_true, Option.some.injEq, Prod.mk.injEq] at h
          rcases h with ⟨rfl, rfl⟩
          exact .addPitch c ip t site i busy hi hk hbusy
        · simp only [DispatchConfig.clientStep, hi, hbusy, dif_neg, not_false_eq_true,
            if_false, Option.some.injEq, Prod.mk.injEq] at h
          rcases h with ⟨rfl, rfl⟩
          exact .addSend c ip t site i busy hi hk hbusy
  | pitch t site at_ =>
      simp only [DispatchConfig.clientStep, Option.map_eq_some_iff, Prod.mk.injEq] at h
      rcases h with ⟨⟨env₁, r⟩, hrun, hnext, rfl⟩
      have hstep := DispatchStep.of_runTask (d := d) hk rfl hrun
      cases r with
      | none => exact hnext ▸ hstep
      | some at' => exact hnext ▸ hstep
  | send t site => cases h
  | checkToken counter tasks =>
      simp only [DispatchConfig.clientStep, Option.ite_none_right_eq_some,
        Option.some.injEq, Prod.mk.injEq] at h
      rcases h with ⟨htoken, rfl, rfl⟩
      exact .checkToken c ip counter tasks hk htoken
  | deleteCounter counter tasks =>
      cases h
      exact .deleteCounter c ip counter tasks hk
  | deleteTasks tasks =>
      cases tasks with
      | nil =>
          cases h
          exact .deleteDone c ip hk
      | cons t ts =>
          cases h
          exact .deleteTask c ip t ts hk
  | waitScan i busy =>
      by_cases hi : i < N
      · simp only [DispatchConfig.clientStep, hi, dif_pos, Option.some.injEq,
          Prod.mk.injEq] at h
        rcases h with ⟨rfl, rfl⟩
        exact .waitRead c ip i busy hi hk
      · simp only [DispatchConfig.clientStep, hi, dif_neg, not_false_eq_true,
          Option.some.injEq, Prod.mk.injEq] at h
        rcases h with ⟨rfl, rfl⟩
        exact .waitAll c ip i busy hi hk
  | waitSize busy => cases h
  | freeObject object =>
      cases h
      apply DispatchStep.freeObject c ip object _ hk
      cases object.next with
      | none => exact Or.inl rfl
      | some object' => exact Or.inr ⟨object', rfl⟩

/-- Every step of a worker's own code is one of the listed ones. -/
theorem DispatchStep.of_workerStep {i : Fin N} {pc : WorkerPc C} {k' : Local C}
    {env' : Env C N β υ} (hk : a.thread (.inr i) = .worker pc)
    (h : workerStep i a.env pc = some (k', env')) :
    DispatchStep d a (.inr i) { a with
      env := env'
      thread := Function.update a.thread (.inr i) k' } := by
  cases pc with
  | start =>
      cases h
      exact .start i hk
  | receive => cases h
  | setBusy t =>
      cases h
      exact .setBusy i t hk
  | run t at_ =>
      simp only [workerStep, Option.map_eq_some_iff, Prod.mk.injEq] at h
      rcases h with ⟨⟨env₁, r⟩, hrun, hnext, rfl⟩
      have hstep := DispatchStep.of_runTask (d := d) hk rfl hrun
      cases r with
      | none => exact hnext ▸ hstep
      | some at' => exact hnext ▸ hstep
  | setReady =>
      cases h
      exact .setReady i hk
  | freeCend =>
      cases h
      exact .freeCend i hk
  | exited => cases h

/-- Every step of the dispatch queue is one of the listed ones. -/
theorem dispatchStep_of_step (h : d.atomicThreads.step a u = some a') :
    DispatchStep d a u a' := by
  rcases atomicThreads_step_cases h with
    ⟨x, fifo', r, hx, hcall, rfl⟩ | ⟨k', env', -, hown, rfl⟩
  · rcases DispatchConfig.call_cases hx with
      ⟨c, ip, rfl, hk, rfl⟩ | ⟨c, ip, t, site, rfl, hk, rfl⟩ | ⟨c, ip, busy, rfl, hk, rfl⟩ |
      ⟨i, rfl, hk, rfl⟩
    · cases hcall
    · simp only [atomicCall, Option.ite_none_right_eq_some, Option.some.injEq,
        Prod.mk.injEq] at hcall
      rcases hcall with ⟨hroom, rfl, rfl⟩
      rw [hk]
      exact .send c ip t site hk hroom
    · cases hcall
      rw [hk]
      by_cases hzero : busy + a.fifo.length = 0
      · simp only [DispatchConfig.caller, hzero, if_true]
        exact .sizeZero c ip busy hk hzero
      · simp only [DispatchConfig.caller, hzero, if_false]
        exact .sizeAgain c ip busy hk hzero
    · cases hfifo : a.fifo with
      | nil =>
          rw [hfifo] at hcall
          cases hcall
      | cons t rest =>
          rw [hfifo] at hcall
          cases hcall
          rw [hk]
          exact .receive i t fifo' hk hfifo
  · cases u with
    | inl c =>
        cases hk : a.thread (.inl c) with
        | client ip pc =>
            rw [hk] at hown
            exact .of_clientStep hk hown
        | worker pc =>
            rw [hk] at hown
            cases hown
    | inr i =>
        cases hk : a.thread (.inr i) with
        | client ip pc =>
            rw [hk] at hown
            cases hown
        | worker pc =>
            rw [hk] at hown
            exact .of_workerStep hk hown

end Steps

end Metal
end LibDispatch
