import LibDispatch.Metal.Counters

/-!
# Event counters under every step

The statements of {lit}`event_counter_signal` and the calls of the client keep the counters,
their private data and their tokens in agreement.

Main results:

- Theorem {lit}`Counters.decrement`: the locked decrement never finds zero.
- Theorem {lit}`Counters.step` and {lit}`counters_of_reachable`: the invariant of the counters
  holds in every reachable state of a disciplined program.
-/

namespace LibDispatch
namespace Metal

variable {N : Nat} {β υ : Type}

section Invariant

variable {d : DispatchConfig Unit N β υ}
  {a a' : AtomicState (Unit ⊕ Fin N) Nat (Local Unit) (Env Unit N β υ)} {u : Unit ⊕ Fin N}
  {t jp : Nat} {at_ : RunPc Unit} {call : DispatchCall} {env : Env Unit N β υ}

/-! ## Statements of {lit}`run_task` -/

/-- A task that is run and has not signalled is missing from the counter of its call. -/
theorem Ledger.notMem_signalled (h : Ledger d a) (htracked : Tracked d a)
    (hd : d.Disciplined) (hrun : (a.thread u).runAt = some (t, at_))
    (hat : at_.signalled = false) : t ∉ a.env.history.signalled := by
  have hheld := Local.held_of_runAt hrun
  have hsum := h.signalled t
  have hfinished := List.count_eq_zero.mpr (h.held htracked hd hheld).2.2.2
  rw [h.tally_held htracked hd hheld, hat, hfinished] at hsum
  apply List.count_eq_zero.mp
  simpa using hsum

/-- The locked part of {lit}`event_counter_signal` never finds the count at zero, and keeps
the invariant. -/
theorem Counters.decrement (h : Counters d a) (hledger : Ledger d a)
    (htracked : Tracked d a) (hd : d.Disciplined) (env : Env Unit N β υ) {n : Nat}
    (hrun : (a.thread u).runAt = some (t, .decrement ((), n))) {signal : Bool}
    (hsignal : signal = decide (0 < (a.env.counter ((), n)).count ∧
      (a.env.counter ((), n)).count - 1 = 0))
    (hheap : env.heap = a.env.heap)
    (hcounter : env.counter = Function.update a.env.counter ((), n)
      { a.env.counter ((), n) with count := (a.env.counter ((), n)).count - 1 })
    (hsignalled : env.history.signalled = a.env.history.signalled ++ [t])
    (hsent : env.history.tokenSent = a.env.history.tokenSent) :
    0 < (a.env.counter ((), n)).count ∧
    Counters d { a with
      env := env
      thread := Function.update a.thread u
        ((a.thread u).runNext (some (.signalUnlock ((), n) signal))) } := by
  have hsig : (a.thread u).signalling = some (t, ((), n), .decrement ((), n)) :=
    Local.signalling_eq_some.mpr ⟨hrun, rfl⟩
  have hk : ((a.thread u).runNext (some (.signalUnlock ((), n) signal))).signalling =
      some (t, ((), n), .signalUnlock ((), n) signal) :=
    Local.signalling_eq_some.mpr ⟨Local.runAt_runNext hrun, rfl⟩
  rcases htracked.client_runNext hrun (some (.signalUnlock ((), n) signal)) with
    ⟨hstored, hcreated⟩
  rcases h.refs u t _ _ hsig with ⟨call, hcall, hcreates, ht⟩
  have hcalls : ∀ call', (d.prog ())[n]? = some call' → call' = call := by
    intro call' hcall'
    exact Option.some.inj (hcall'.symm.trans hcall)
  have hcount : (a.env.counter ((), n)).count = d.missing a.env call :=
    h.count n call hcall hcreates (h.created_of_ref hledger htracked hd hsig)
  have hmissing : d.missing env call + 1 = d.missing a.env call := by
    unfold DispatchConfig.missing
    rw [hsignalled]
    exact countP_notMem_append (hd.nodup hcall) ht
      (hledger.notMem_signalled htracked hd hrun rfl)
  refine ⟨by omega, ?_⟩
  refine h.signal env _ ⟨call, hcall, hcreates, ht⟩ (Or.inr ⟨_, hsig⟩) (Or.inr ⟨_, hk⟩)
    hheap hstored hcreated ?_ (fun _ _ => by rw [hsent]) ?_ ?_ ?_ ?_ ?_ ?_
  · intro jp hne
    simp [hcounter, hne]
  · intro jp call' hne hcall'
    unfold DispatchConfig.missing
    rw [hsignalled]
    apply countP_notMem_append_of_notMem
    exact fun ht' => hne (hd.unique hcall' hcall ht' ht)
  · intro call' hcall'
    rw [hcalls call' hcall', hcounter, Function.update_self]
    change (a.env.counter ((), n)).count - 1 = _
    omega
  · rw [hcounter, Function.update_self]
    apply (h.lock ((), n)).keep
    rw [Local.holdsCounter_iff hsig, Local.holdsCounter_iff hk]
    simp [RunPc.locked]
  · intro call' hcall'
    have hlast : (RunPc.signalUnlock ((), n) signal : RunPc Unit).last = signal := by
      cases signal <;> rfl
    have hdec : (RunPc.decrement ((), n) : RunPc Unit).last = false := rfl
    have hold : d.missing a.env call ≠ 0 := by omega
    rw [hcalls call' hcall', Local.sending_eq hsig, Local.sending_eq hk, hlast, hdec, hsent,
      hsignal]
    simp only [hold, true_and, if_false, Bool.false_eq_true, decide_eq_true_eq]
    split_ifs <;> omega
  · rw [hcounter, Function.update_self, hsent]
    exact h.tokens ((), n)
  · intro v t' hv
    rw [hcounter, Function.update_self]
    change 0 < (a.env.counter ((), n)).count - 1
    by_cases hvu : v = u
    · subst hvu
      rw [Function.update_self, hk] at hv
      have hflag : signal = false := by
        cases hv
        rfl
      have hne := of_decide_eq_false (hsignal.symm.trans hflag)
      omega
    · rw [Function.update_of_ne hvu] at hv
      -- two threads would hold the spinlock
      have hv' : (a.thread v).HoldsCounter ((), n) := ⟨t', _, hv, rfl⟩
      have hu' : (a.thread u).HoldsCounter ((), n) := ⟨t, _, hsig, rfl⟩
      exact absurd ((h.lock ((), n)).exclusive hv' hu') hvu

/-- The other steps of a thread that signals a counter: the tasks that have signalled stay
the same. -/
theorem Counters.signal_step (h : Counters d a) (htracked : Tracked d a) {n : Nat}
    {at₁ : RunPc Unit} {r : Option (RunPc Unit)}
    (hrun : (a.thread u).runAt = some (t, at₁))
    (hold : at₁.counter = none ∨ at₁.counter = some ((), n))
    (hr : r = none ∨ ∃ at₂, r = some at₂ ∧ at₂.counter = some ((), n))
    (href : ∃ call, (d.prog ())[n]? = some call ∧ d.createsCounter call = true ∧
      t ∈ call.tasks d.heap)
    (hcreated : (a.thread (.inl ())).created n)
    (hheap : env.heap = a.env.heap)
    (hcounter : ∀ jp, jp ≠ n → env.counter ((), jp) = a.env.counter ((), jp))
    (hcount : (env.counter ((), n)).count = (a.env.counter ((), n)).count)
    (hsignalled : env.history.signalled = a.env.history.signalled)
    (hsent : ∀ jp, jp ≠ n → env.history.tokenSent.count ((), jp) =
      a.env.history.tokenSent.count ((), jp))
    (hlock : OwnedBy (env.counter ((), n)).lock (Local.HoldsCounter ((), n))
      (Function.update a.thread u ((a.thread u).runNext r)))
    (htoken : env.history.tokenSent.count ((), n) +
        ((a.thread u).runNext r).sending ((), n) =
      a.env.history.tokenSent.count ((), n) + (a.thread u).sending ((), n))
    (htokens : (env.counter ((), n)).tokens ≤ env.history.tokenSent.count ((), n))
    (hlast : r ≠ some (.signalUnlock ((), n) false)) :
    Counters d { a with
      env := env
      thread := Function.update a.thread u ((a.thread u).runNext r) } := by
  rcases htracked.client_runNext hrun r with ⟨hstored, hcr⟩
  have hsig : (a.thread u).signalling = none ∨
      ∃ at_, (a.thread u).signalling = some (t, ((), n), at_) := by
    rw [Local.signalling_of_runAt hrun]
    rcases hold with hnone | hsome
    · simp [hnone]
    · simp [hsome]
  have hk : ((a.thread u).runNext r).signalling = none ∨
      ∃ at_, ((a.thread u).runNext r).signalling = some (t, ((), n), at_) := by
    rcases hr with rfl | ⟨at₂, rfl, hcounter₂⟩
    · exact Or.inl (Local.signalling_of_not_run (Local.runAt_runNext hrun))
    · exact Or.inr ⟨at₂, Local.signalling_eq_some.mpr ⟨Local.runAt_runNext hrun, hcounter₂⟩⟩
  have hmissing : ∀ call, d.missing env call = d.missing a.env call := by
    intro call
    unfold DispatchConfig.missing
    rw [hsignalled]
  refine h.signal env _ href hsig hk hheap hstored hcr hcounter hsent
    (fun _ call _ _ => hmissing call) ?_ hlock ?_ htokens ?_
  · intro call hcall
    rw [hcount, hmissing]
    rcases href with ⟨call', hcall', hcreates, -⟩
    cases Option.some.inj (hcall'.symm.trans hcall)
    exact h.count n call hcall hcreates hcreated
  · intro call hcall
    rw [hmissing]
    omega
  · intro v t' hv
    rw [hcount]
    by_cases hvu : v = u
    · subst hvu
      rw [Function.update_self] at hv
      have hrun' := (Local.signalling_eq_some.mp hv).1
      rw [Local.runAt_runNext hrun, Option.map_eq_some_iff] at hrun'
      rcases hrun' with ⟨at', rfl, heq⟩
      cases heq
      exact absurd rfl hlast
    · rw [Function.update_of_ne hvu] at hv
      exact h.notLast v t' _ hv

/-- A statement of {lit}`run_task` keeps the counters. -/
theorem Counters.run (h : Counters d a) (hledger : Ledger d a) (htracked : Tracked d a)
    (hd : d.Disciplined) (hflags : d.FlagsAgree) {env' : Env Unit N β υ}
    {r : Option (RunPc Unit)} (hrun : (a.thread u).runAt = some (t, at_))
    (hstep : RunStep u a.env t at_ env' r) :
    Counters d { a with
      env := env'
      thread := Function.update a.thread u ((a.thread u).runNext r) } := by
  have hsigold := Local.signalling_of_runAt hrun
  have hsignew : ((a.thread u).runNext r).signalling =
      (r.map fun at' => (t, at')).bind fun x => x.2.counter.map fun c => (x.1, c, x.2) := by
    rw [Local.signalling, Local.runAt_runNext hrun]
  rcases htracked.client_runNext hrun r with ⟨hstored, hcreated⟩
  -- statements outside `event_counter_signal`
  have hsilent : env'.counter = a.env.counter → env'.heap = a.env.heap →
      env'.history.signalled = a.env.history.signalled →
      env'.history.tokenSent = a.env.history.tokenSent →
      ((a.thread u).runNext r).signalling = none → (a.thread u).signalling = none →
      Counters d { a with
        env := env'
        thread := Function.update a.thread u ((a.thread u).runNext r) } := by
    intro hcounter hheap hsignalled hsent hnew hold
    refine h.other a.fifo (Counters.kept hcounter) ⟨hsignalled, hsent⟩
      (hnew.trans hold.symm) ?_ (fun jp _ _ _ hcr => hcreated jp hcr)
    intro jp call t' hjp hcall ht hmem
    rw [hheap]
    exact h.data jp call t' hjp hcall ht (hstored ▸ hmem)
  have href : ∀ n, (a.thread u).signalling = some (t, ((), n), at_) →
      (∃ call, (d.prog ())[n]? = some call ∧ d.createsCounter call = true ∧
        t ∈ call.tasks d.heap) ∧ (a.thread (.inl ())).created n := fun n hsig =>
    ⟨h.refs u t _ _ hsig, h.created_of_ref hledger htracked hd hsig⟩
  cases hstep with
  | perform => exact hsilent rfl rfl rfl rfl hsignew hsigold
  | running => exact hsilent rfl rfl rfl rfl hsignew hsigold
  | testWaitable => exact hsilent rfl rfl rfl rfl hsignew hsigold
  | testPlain => exact hsilent rfl rfl rfl rfl hsignew hsigold
  | delete => exact hsilent rfl rfl rfl rfl hsignew hsigold
  | readCounter c hdata =>
      have hheld := Local.held_of_runAt hrun
      rcases hledger.call_of_run htracked hd hheld with ⟨jp, call, hcall, ht, hcr⟩
      have hcreates : d.createsCounter call = true :=
        (DispatchConfig.createsCounter_iff hflags hcall ht).mpr
          (htracked.run u t _ hrun)
      have hmem := d.added_subset_stored _ (hledger.held htracked hd hheld).1
      have hc : c = ((), jp) :=
        Option.some.inj (hdata.symm.trans (h.data jp call t hcall hcreates ht hmem))
      subst hc
      refine h.signal_step htracked hrun (Or.inl rfl) (Or.inr ⟨_, rfl, rfl⟩)
        ⟨call, hcall, hcreates, ht⟩ hcr rfl (fun _ _ => rfl) rfl rfl (fun _ _ => rfl)
        ?_ ?_ (h.tokens _) (by simp)
      · apply (h.lock ((), jp)).keep
        rw [Local.holdsCounter_iff hsignew]
        simp [RunPc.locked, Local.not_holdsCounter hsigold]
      · rw [Local.sending_eq hsignew, Local.sending_of_none hsigold]
        simp [RunPc.last]
  | signalLock c hfree =>
      rcases c with ⟨⟨⟩, n⟩
      rcases href n hsigold with ⟨hcall, hcr⟩
      refine h.signal_step htracked hrun (Or.inr rfl) (Or.inr ⟨_, rfl, rfl⟩) hcall hcr rfl
        ?_ ?_ rfl (fun _ _ => rfl) ?_ ?_ ?_ (by simp)
      · intro jp hne
        simp [Env.setCounter, hne]
      · simp [Env.setCounter]
      · have hlock := h.lock ((), n)
        rw [hfree] at hlock
        simp only [Env.setCounter, Function.update_self]
        apply hlock.acquire
        exact (Local.holdsCounter_iff hsignew).mpr ⟨rfl, rfl⟩
      · rw [Local.sending_eq hsignew, Local.sending_eq hsigold]
        simp [RunPc.last, Env.setCounter]
      · simpa [Env.setCounter] using h.tokens ((), n)
  | decrement c =>
      rcases c with ⟨⟨⟩, n⟩
      refine (h.decrement hledger htracked hd _ hrun ?_ ?_ ?_ ?_ ?_).2 <;> rfl
  | signalLast c =>
      rcases c with ⟨⟨⟩, n⟩
      rcases href n hsigold with ⟨hcall, hcr⟩
      refine h.signal_step htracked hrun (Or.inr rfl) (Or.inr ⟨_, rfl, rfl⟩) hcall hcr rfl
        ?_ ?_ rfl (fun _ _ => rfl) ?_ ?_ ?_ (by simp)
      · intro jp hne
        simp [Env.setCounter, hne]
      · simp [Env.setCounter]
      · simp only [Env.setCounter, Function.update_self]
        apply (h.lock ((), n)).release
        · exact (Local.holdsCounter_iff hsigold).mpr ⟨rfl, rfl⟩
        · simp [Local.holdsCounter_iff hsignew, RunPc.locked]
      · rw [Local.sending_eq hsignew, Local.sending_eq hsigold]
        simp [RunPc.last, Env.setCounter]
      · simpa [Env.setCounter] using h.tokens ((), n)
  | signalDone c =>
      rcases c with ⟨⟨⟩, n⟩
      rcases href n hsigold with ⟨hcall, hcr⟩
      refine h.signal_step htracked hrun (Or.inr rfl) (Or.inl rfl) hcall hcr rfl
        ?_ ?_ rfl (fun _ _ => rfl) ?_ ?_ ?_ (by simp)
      · intro jp hne
        simp [Env.setCounter, hne]
      · simp [Env.setCounter]
      · simp only [Env.setCounter, Function.update_self]
        apply (h.lock ((), n)).release
        · exact (Local.holdsCounter_iff hsigold).mpr ⟨rfl, rfl⟩
        · exact Local.not_holdsCounter hsignew
      · rw [Local.sending_of_none hsignew, Local.sending_eq hsigold]
        simp [RunPc.last]
      · simpa [Env.setCounter] using h.tokens ((), n)
  | sendToken c =>
      rcases c with ⟨⟨⟩, n⟩
      rcases href n hsigold with ⟨hcall, hcr⟩
      refine h.signal_step htracked hrun (Or.inr rfl) (Or.inl rfl) hcall hcr rfl
        ?_ ?_ rfl ?_ ?_ ?_ ?_ (by simp)
      · intro jp hne
        simp [Env.setCounter, hne]
      · simp [Env.setCounter]
      · intro jp hne
        have hne' : n ≠ jp := fun heq => hne heq.symm
        simp [List.count_append, hne']
      · simp only [Env.setCounter, Function.update_self]
        apply (h.lock ((), n)).keep
        simp [Local.holdsCounter_iff hsigold, Local.not_holdsCounter hsignew, RunPc.locked]
      · rw [Local.sending_of_none hsignew, Local.sending_eq hsigold]
        simp [RunPc.last, List.count_append]
      · simp only [Env.setCounter, Function.update_self, List.count_append,
          List.count_singleton_self]
        exact Nat.succ_le_succ (h.tokens ((), n))

/-! ## Steps of the client -/

/-- A call that creates no counter leaves the created counters the same. -/
theorem DispatchConfig.created_of_plain {ip : Nat} {pc : ClientPc Unit}
    (hcall : (d.prog ())[ip]? = some call) (hplain : d.createsCounter call = false)
    (jp : Nat) (call' : DispatchCall) (hjp : (d.prog ())[jp]? = some call')
    (hcreates : d.createsCounter call' = true) (hcr : (Local.client ip pc).created jp) :
    (Local.client ip .ready).created jp := by
  rcases hcr with hlt | ⟨rfl, -⟩
  · exact Or.inl hlt
  · rw [hcall] at hjp
    cases hjp
    rw [hplain] at hcreates
    cases hcreates

/-- A call that submits nothing has set nothing. -/
theorem DispatchConfig.stored_ready_succ {ip : Nat} (hcall : (d.prog ())[ip]? = some call)
    (htasks : call.tasks d.heap = []) :
    d.stored (.client (ip + 1) .ready) = d.stored (.client ip .ready) := by
  simp [DispatchConfig.stored, d.submitted_succ hcall, htasks, ClientPc.stored]

/-- Every step keeps the counters. -/
theorem Counters.step (h : Counters d a) (hledger : Ledger d a) (htracked : Tracked d a)
    (hd : d.Disciplined) (hflags : d.FlagsAgree) (hstep : DispatchStep d a u a') :
    Counters d a' := by
  cases hstep with
  | send c ip t site hk _ =>
      have hsite : d.SiteAt () ip t site := htracked.clientAt hk
      exact h.client_other hk _ _ ⟨rfl, rfl, rfl, rfl⟩
        ⟨Local.signalling_of_not_run (AddSite.runAt_next ip site), rfl⟩ hsite.stored_next
        (fun _ _ _ _ => Local.created_of_site (by simp))
  | receive i t rest hk _ => exact h.worker_other hk _ _ ⟨rfl, rfl, rfl⟩ rfl
  | sizeZero c ip busy hk _ =>
      have hcall : (d.prog ())[ip]? = some .wait := htracked.clientAt hk
      exact h.client_other hk _ _ ⟨rfl, rfl, rfl, rfl⟩ ⟨rfl, rfl⟩
        (DispatchConfig.stored_ready_succ hcall rfl)
        (fun _ _ _ _ => Local.created_of_next (by simp))
  | taskAddWaitable c ip t hk hcall hw =>
      refine h.create hledger htracked hd hk hcall rfl rfl rfl (by simp) ?_
        fun jp hcr => hcr.imp_right And.left
      refine h.data_store rfl (by rw [show a.thread (.inl ()) = _ from hk]; rfl) ?_
      intro jp call hjp _ ht
      have heq := hd.unique hcall hjp (List.mem_singleton_self t) ht
      rw [heq]
  | taskAddPlain c ip t hk hcall hw =>
      rw [htracked.waitable] at hw
      have hplain : d.createsCounter (.taskAdd t) = false := hw
      refine h.other a.fifo ?_ ⟨rfl, rfl⟩ ?_ ?_ ?_
      · exact Counters.kept rfl
      · rw [hk, Local.signalling_of_not_run (DispatchConfig.runAt_addEntry ip t _)]
        rfl
      · intro jp call t' hjp hcreates ht hmem
        rw [Function.update_self, d.stored_addEntry, ← List.append_assoc] at hmem
        rcases List.mem_append.mp hmem with hold | hthis
        · refine h.data jp call t' hjp hcreates ht ?_
          rw [show a.thread (.inl ()) = _ from hk]
          exact hold
        · rw [List.mem_singleton.mp hthis] at ht
          have heq := hd.unique hcall hjp (List.mem_singleton_self t) ht
          rw [← heq, hcall] at hjp
          cases hjp
          rw [hplain] at hcreates
          cases hcreates
      · intro jp call hjp hcreates hcr
        rw [Function.update_self] at hcr
        rw [show a.thread (.inl ()) = _ from hk]
        exact DispatchConfig.created_of_plain hcall hplain jp call hjp hcreates hcr
  | groupAddWaitable c ip g hk hcall hw =>
      refine h.create hledger htracked hd hk hcall ?_ rfl rfl rfl ?_
        fun jp hcr => hcr.imp_right And.left
      · rw [htracked.group]
        rfl
      · intro jp call t hjp hcreates ht hmem
        refine h.data jp call t hjp hcreates ht ?_
        rw [show a.thread (.inl ()) = _ from hk]
        simpa [DispatchConfig.stored, ClientPc.stored] using hmem
  | groupAddPlain c ip g hk hcall hw =>
      rw [htracked.group] at hw
      exact h.client_other hk _ _ ⟨rfl, rfl, rfl, rfl⟩ ⟨rfl, rfl⟩
        (by simp [DispatchConfig.stored, ClientPc.stored])
        (DispatchConfig.created_of_plain hcall hw)
  | taskWait c ip t counter hk hcall _ =>
      exact h.client_other hk _ _ ⟨rfl, rfl, rfl, rfl⟩ ⟨rfl, rfl⟩ rfl
        (DispatchConfig.created_of_plain hcall rfl)
  | groupWait c ip g t ts counter hk hcall _ _ =>
      exact h.client_other hk _ _ ⟨rfl, rfl, rfl, rfl⟩ ⟨rfl, rfl⟩ rfl
        (DispatchConfig.created_of_plain hcall rfl)
  | wait c ip hk hcall =>
      exact h.client_other hk _ _ ⟨rfl, rfl, rfl, rfl⟩ ⟨rfl, rfl⟩ rfl
        (DispatchConfig.created_of_plain hcall rfl)
  | groupDone c ip g i counter hk hend =>
      rcases htracked.clientAt hk with ⟨hcall, -, -⟩
      refine h.client_other hk _ _ ⟨rfl, rfl, rfl, rfl⟩ ⟨rfl, rfl⟩ ?_
        (fun _ _ _ _ => Local.created_of_next (by simp))
      rw [htracked.group, List.getElem?_eq_none_iff] at hend
      simp [DispatchConfig.stored, d.submitted_succ hcall, DispatchCall.tasks,
        ClientPc.stored, List.take_of_length_le hend]
  | groupStore c ip g i t counter hk htask =>
      rcases htracked.clientAt hk with ⟨hcall, hcounter, -⟩
      rw [htracked.group] at htask
      refine h.other a.fifo ?_ ⟨rfl, rfl⟩ ?_ ?_ ?_
      · exact Counters.kept rfl
      · rw [hk, Local.signalling_of_not_run (DispatchConfig.runAt_addEntry ip t _)]
        rfl
      · rw [Function.update_self]
        refine h.data_store rfl (by rw [show a.thread (.inl ()) = _ from hk]; rfl) ?_
        intro jp call hjp hcreates ht
        have heq := hd.unique hcall hjp (List.mem_of_getElem? htask) ht
        rw [← heq, hcall] at hjp
        cases hjp
        have hwaitable : (d.heap.group g).waitable = true := hcreates
        rw [hcounter, DispatchConfig.groupCounter, if_pos hwaitable, heq]
      · intro jp call _ _ hcr
        rw [Function.update_self] at hcr
        rw [show a.thread (.inl ()) = _ from hk]
        exact Local.created_of_same (by simp) hcr
  | run u t at_ env' r hrun hstep => exact h.run hledger htracked hd hflags hrun hstep
  | checkToken c ip counter tasks hk _ =>
      refine h.other a.fifo ?_ ⟨rfl, rfl⟩ ?_ ?_ ?_
      · intro c'
        by_cases heq : c' = counter
        · subst heq
          simp [Env.setCounter]
        · simp [Env.setCounter, heq]
      · rw [hk]
        rfl
      · intro jp call t hjp hcreates ht hmem
        rw [Function.update_self] at hmem
        refine h.data jp call t hjp hcreates ht ?_
        rw [show a.thread (.inl ()) = _ from hk]
        exact hmem
      · intro jp call _ _ hcr
        rw [Function.update_self] at hcr
        rw [show a.thread (.inl ()) = _ from hk]
        exact Local.created_of_same (by simp) hcr
  | deleteDone c ip hk =>
      have hwaits : d.WaitsAt () ip := htracked.clientAt hk
      rcases hwaits with ⟨t, hcall⟩ | ⟨g, hcall⟩
      · exact h.client_other hk _ _ ⟨rfl, rfl, rfl, rfl⟩ ⟨rfl, rfl⟩
          (DispatchConfig.stored_ready_succ hcall rfl)
          (fun _ _ _ _ => Local.created_of_next (by simp))
      · exact h.client_other hk _ _ ⟨rfl, rfl, rfl, rfl⟩ ⟨rfl, rfl⟩
          (DispatchConfig.stored_ready_succ hcall rfl)
          (fun _ _ _ _ => Local.created_of_next (by simp))
  | freeObject c ip object k hk hnext =>
      have hcall : (d.prog ())[ip]? = some .delete := htracked.clientAt hk
      rcases hnext with rfl | ⟨object', rfl⟩
      · exact h.client_other hk _ _ ⟨rfl, rfl, rfl, rfl⟩ ⟨rfl, rfl⟩
          (DispatchConfig.stored_ready_succ hcall rfl)
          (fun _ _ _ _ => Local.created_of_next (by simp))
      · exact h.client_other hk _ _ ⟨rfl, rfl, rfl, rfl⟩ ⟨rfl, rfl⟩ rfl
          (fun _ _ _ _ => Local.created_of_same (by simp))
  | start i hk => exact h.worker_other hk _ _ ⟨rfl, rfl, rfl⟩ rfl
  | setBusy i t hk => exact h.worker_other hk _ _ ⟨rfl, rfl, rfl⟩ rfl
  | setReady i hk => exact h.worker_other hk _ _ ⟨rfl, rfl, rfl⟩ rfl
  | freeCend i hk => exact h.worker_other hk _ _ ⟨rfl, rfl, rfl⟩ rfl
  | _ =>
      refine h.client_other (by assumption) _ _ ⟨rfl, rfl, rfl, rfl⟩ ⟨?_, ?_⟩ ?_
        (fun _ _ _ _ => Local.created_of_same (by simp)) <;> rfl

theorem counters_init : Counters d d.atomicThreads.init := by
  have hsig : ∀ v : Unit ⊕ Fin N, (dispatchStart v : Local Unit).signalling = none := by
    intro v
    cases v <;> rfl
  have hsending : ∀ c, tally (Local.sending c) (dispatchStart : Unit ⊕ Fin N → Local Unit) = 0 := by
    intro c
    rw [tally_eq_zero_iff]
    exact fun v => Local.sending_of_none (hsig v)
  constructor
  · intro jp call t _ _ _ hmem
    cases hmem
  · intro v t c at_ hv
    cases (hsig v).symm.trans hv
  · intro jp call _ _ hcr
    exact absurd hcr (by simp [Local.created, DispatchConfig.atomicThreads, atomicThreads,
      dispatchStart])
  · intro c v
    constructor
    · intro hlock
      cases hlock
    · intro hv
      exact absurd hv (Local.not_holdsCounter (hsig v))
  · intro jp call _ _ hne
    change 0 + tally (Local.sending ((), jp)) dispatchStart = _
    rw [hsending]
    symm
    rw [Nat.zero_add]
    apply if_neg
    have hlength := List.length_pos_of_ne_nil hne
    have hall : (call.tasks d.heap).countP (fun t => decide (t ∉ ([] : List Nat))) =
        (call.tasks d.heap).length := List.countP_eq_length.mpr (by simp)
    change (call.tasks d.heap).countP (fun t => decide (t ∉ ([] : List Nat))) ≠ 0
    omega
  · intro c
    exact Nat.zero_le _
  · intro v t c hv
    cases (hsig v).symm.trans hv

/-- The counters are right in every reachable state of a disciplined program. -/
theorem counters_of_reachable (hd : d.Disciplined) (hflags : d.FlagsAgree)
    (ha : d.atomicThreads.Reachable a) : Counters d a :=
  ha.invariant counters_init fun _ _ _ hr h hstep =>
    h.step (ledger_of_reachable hr) (tracked_of_reachable hr) hd hflags
      (dispatchStep_of_step hstep)

end Invariant

end Metal
end LibDispatch
