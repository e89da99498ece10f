import LibDispatch.Metal.WaitDone

/-!
# Groups of every size

A group may hold any number of tasks up to its length, none included, and
{lit}`dispatch_queue_group_add` submits whatever it holds.  The event counter of the
submission is not stored in the group: {lit}`dispatch_queue_group_wait` takes it from the
task in slot 0.  A wait for a group without tasks is therefore the end of the
client, and the program up to the first such wait is a disciplined one, whose invariants
say what a wait does for all other groups.

Main results:

- Theorem {lit}`DispatchConfig.cut_reachable`: a client stays within the part of its
  program before the first wait for a group without tasks.
- Theorem {lit}`tokens_of_reachable`: the end token is not lost before the wait.
- Theorem {lit}`group_wait_sizes`: a wait is served exactly if the group has a task.
-/

namespace LibDispatch
namespace Metal

variable {N : Nat} {β υ : Type}

/-! ## What a client reads of a group -/

/-- The slot of a group that the client reads in its next statement. -/
def DispatchConfig.slotRead (d : DispatchConfig Unit N β υ) : Local Unit → Option (Nat × Nat)
  | .client ip .ready =>
      -- `group->tasks[0]->private_data`
      match (d.prog ())[ip]? with
      | some (.groupWait g) => if (d.heap.group g).waitable = true then some (g, 0) else none
      | _ => none
  | .client _ (.groupLoop g i _) => if i < (d.heap.group g).count then some (g, i) else none
  | .client _ (.addScan _ (.member g i _) _ _) | .client _ (.send _ (.member g i _)) =>
      some (g, i)
  | .client ip (.deleteTasks (_ :: ts)) =>
      match (d.prog ())[ip]? with
      | some (.groupWait g) => some (g, (d.heap.group g).count - (ts.length + 1))
      | _ => none
  | _ => none

/-- The client can return from its {lit}`w`-th call by steps of its own. -/
def DispatchConfig.Completes (d : DispatchConfig Unit N β υ) (handshake : Bool)
    (s : State (Unit ⊕ Fin N) (Option (Fin N)) Nat (Local Unit) (Env Unit N β υ)) (w : Nat) :
    Prop :=
  ∃ n s', (d.threads handshake).run s (List.replicate n (.inl ())) = some s' ∧
    s'.thread (.inl ()) = .outside (.client (w + 1) .ready)

/-- The {lit}`jp`-th call adds a group, the {lit}`w`-th waits for it, and both do what they
are for. -/
structure GroupServed (d : DispatchConfig Unit N β υ) (handshake : Bool)
    (s : State (Unit ⊕ Fin N) (Option (Fin N)) Nat (Local Unit) (Env Unit N β υ))
    (jp w g : Nat) : Prop where
  /-- Only slots are read that {lit}`dispatch_group_task_add` has filled. -/
  slots : ∀ i, d.slotRead (d.view s (.inl ())) = some (g, i) →
    ((d.heap.group g).tasks[i]?).isSome = true
  /-- The counter of the submission counts the tasks that have not signalled. -/
  count : (d.view s (.inl ())).created jp → (s.env.counter ((), jp)).count =
    (d.heap.group g).tasks.countP fun t => decide (t ∉ s.env.history.signalled)
  /-- The wait is on that counter and for those tasks. -/
  counter : ∀ c ts, d.view s (.inl ()) = .client w (.checkToken c ts) →
    c = ((), jp) ∧ ts = (d.heap.group g).tasks
  /-- Once all tasks are finished, the wait can complete. -/
  completes : ∀ pc, s.thread (.inl ()) = .outside (.client w pc) →
    (∀ t ∈ (d.heap.group g).tasks, t ∈ s.env.history.finished) → d.Completes handshake s w

/-! ## Programs up to the first wait for a group without tasks -/

/-- As in a disciplined program, except that groups that are waited for may be empty. -/
structure DispatchConfig.Orderly (d : DispatchConfig Unit N β υ) : Prop where
  distinct : ((d.prog ()).flatMap (DispatchCall.tasks d.heap)).Nodup
  taskWait : ∀ w t : Nat, (d.prog ())[w]? = some (.taskWait t) →
    (d.heap.task t).waitable = true ∧ ∃ jp < w, (d.prog ())[jp]? = some (.taskAdd t)
  groupWait : ∀ w g : Nat, (d.prog ())[w]? = some (.groupWait g) →
    (d.heap.group g).waitable = true ∧ ∃ jp < w, (d.prog ())[jp]? = some (.groupAdd g)
  taskWaitOnce : ∀ w w' t : Nat, (d.prog ())[w]? = some (.taskWait t) →
    (d.prog ())[w']? = some (.taskWait t) → w = w'
  groupWaitOnce : ∀ w w' g : Nat, (d.prog ())[w]? = some (.groupWait g) →
    (d.prog ())[w']? = some (.groupWait g) → w = w'

/-- The call does not wait for a group without tasks. -/
def DispatchConfig.passable (d : DispatchConfig Unit N β υ) : DispatchCall → Bool
  | .groupWait g => !(d.heap.group g).tasks.isEmpty
  | _ => true

/-- The same client with the part of its program before the first wait for a group without
tasks. -/
def DispatchConfig.cut (d : DispatchConfig Unit N β υ) : DispatchConfig Unit N β υ :=
  { d with prog := fun c => (d.prog c).takeWhile d.passable }

/-- The element after the longest prefix with a property does not have the property. -/
theorem getElem?_takeWhile {α : Type} {p : α → Bool} {xs : List α} {i : Nat}
    (hi : i ≤ (xs.takeWhile p).length) :
    (xs.takeWhile p)[i]? = xs[i]? ∨
      (xs.takeWhile p)[i]? = none ∧ ∃ x, xs[i]? = some x ∧ p x = false := by
  induction xs generalizing i with
  | nil => exact Or.inl rfl
  | cons x xs ih =>
      cases hx : p x with
      | false =>
          right
          simp only [List.takeWhile_cons, hx, Bool.false_eq_true, if_false, List.length_nil,
            Nat.le_zero] at hi ⊢
          subst hi
          exact ⟨rfl, x, rfl, hx⟩
      | true =>
          simp only [List.takeWhile_cons, hx, if_true, List.length_cons] at hi ⊢
          cases i with
          | zero => exact Or.inl rfl
          | succ i => simpa using ih (Nat.le_of_succ_le_succ hi)

section Cut

variable {d : DispatchConfig Unit N β υ}
  {a a' : AtomicState (Unit ⊕ Fin N) Nat (Local Unit) (Env Unit N β υ)} {u : Unit ⊕ Fin N}
  {c : Unit} {i ip w jp g : Nat} {call : DispatchCall}

theorem DispatchConfig.cut_prefix (d : DispatchConfig Unit N β υ) (c : Unit) :
    d.cut.prog c <+: d.prog c :=
  List.takeWhile_prefix _

/-- A call of the shorter program is the same call of the program. -/
theorem DispatchConfig.getElem?_of_cut (h : (d.cut.prog c)[i]? = some call) :
    (d.prog c)[i]? = some call ∧ d.passable call = true := by
  refine ⟨?_, ?_⟩
  · rcases d.cut_prefix c with ⟨rest, hrest⟩
    rw [← hrest]
    rw [List.getElem?_append_left (List.getElem?_eq_some_iff.mp h).1]
    exact h
  · exact List.all_eq_true.mp List.all_takeWhile call (List.mem_of_getElem? h)

/-- The calls before a call of the shorter program belong to it, too. -/
theorem DispatchConfig.getElem?_cut (hi : i < (d.cut.prog c).length)
    (h : (d.prog c)[i]? = some call) : (d.cut.prog c)[i]? = some call := by
  rcases d.cut_prefix c with ⟨rest, hrest⟩
  rw [← hrest, List.getElem?_append_left hi] at h
  exact h

/-- A client at the end of the shorter program has made all its calls or waits for a group
without tasks. -/
theorem DispatchConfig.getElem?_end (hi : i ≤ (d.cut.prog c).length) :
    (d.cut.prog c)[i]? = (d.prog c)[i]? ∨ (d.cut.prog c)[i]? = none ∧
      ∃ g, (d.prog c)[i]? = some (.groupWait g) ∧ (d.heap.group g).tasks = [] := by
  rcases getElem?_takeWhile hi with heq | ⟨hnone, call, hcall, hpassable⟩
  · exact Or.inl heq
  · right
    refine ⟨hnone, ?_⟩
    cases call with
    | groupWait g => exact ⟨g, hcall, by simpa [DispatchConfig.passable] using hpassable⟩
    | _ => cases hpassable

/-- Up to the first wait for a group without tasks an orderly program is disciplined. -/
theorem DispatchConfig.Orderly.cut (hd : d.Orderly) : d.cut.Disciplined := by
  have hbefore : ∀ {w jp : Nat} {call call' : DispatchCall},
      (d.cut.prog ())[w]? = some call → jp < w → (d.prog ())[jp]? = some call' →
      (d.cut.prog ())[jp]? = some call' := by
    intro w jp call call' hw hlt hjp
    exact getElem?_cut (hlt.trans (List.getElem?_eq_some_iff.mp hw).1) hjp
  constructor
  · exact hd.distinct.sublist ((d.cut_prefix ()).sublist.flatMap _)
  · intro w t hw
    rcases hd.taskWait w t (getElem?_of_cut hw).1 with ⟨hwaitable, jp, hlt, hjp⟩
    exact ⟨hwaitable, jp, hlt, hbefore hw hlt hjp⟩
  · intro w g hw
    rcases getElem?_of_cut hw with ⟨hw', hpassable⟩
    rcases hd.groupWait w g hw' with ⟨hwaitable, jp, hlt, hjp⟩
    refine ⟨hwaitable, ?_, jp, hlt, hbefore hw hlt hjp⟩
    intro hnil
    have hnil' : (d.heap.group g).tasks = [] := hnil
    simp [DispatchConfig.passable, hnil'] at hpassable
  · intro w w' t hw hw'
    exact hd.taskWaitOnce w w' t (getElem?_of_cut hw).1 (getElem?_of_cut hw').1
  · intro w w' g hw hw'
    exact hd.groupWaitOnce w w' g (getElem?_of_cut hw).1 (getElem?_of_cut hw').1

theorem DispatchConfig.FlagsAgree.cut (h : d.FlagsAgree) : d.cut.FlagsAgree :=
  fun g hg => h g ((d.cut_prefix ()).subset hg)

/-! ## The client stays within the shorter program -/

/-- A position in a call belongs to a call of the program. -/
theorem DispatchConfig.ClientAt.lt_length {pc : ClientPc Unit} (h : d.ClientAt c ip pc)
    (hpc : pc ≠ .ready) : ip < (d.prog c).length := by
  have hsome : ∀ {call : DispatchCall}, (d.prog c)[ip]? = some call → ip < (d.prog c).length :=
    fun hcall => (List.getElem?_eq_some_iff.mp hcall).1
  have hsite : ∀ {t : Nat} {site : AddSite Unit}, d.SiteAt c ip t site →
      ip < (d.prog c).length := by
    intro t site hsite
    rcases hsite.exists_call with ⟨call, hcall, -⟩
    exact hsome hcall
  have hwaits : d.WaitsAt c ip → ip < (d.prog c).length := by
    rintro (⟨t, hcall⟩ | ⟨g, hcall⟩)
    · exact hsome hcall
    · exact hsome hcall
  cases pc with
  | ready => exact absurd rfl hpc
  | groupLoop g i counter => exact hsome h.1
  | addScan t site i busy => exact hsite h
  | send t site => exact hsite h
  | pitch t site at_ => exact hsite h
  | checkToken counter ts => exact hwaits h
  | deleteCounter counter ts => exact hwaits h
  | deleteTasks ts => exact hwaits h
  | waitScan i busy => exact hsome h
  | waitSize busy => exact hsome h
  | freeObject object => exact hsome h

/-- How the position of a client can change in a step: it moves on within a call, never back
before the end token, or it returns from a call. -/
inductive Local.Follows : Local Unit → Local Unit → Prop where
  | refl (k : Local Unit) : Follows k k
  | stay (ip : Nat) (pc pc' : ClientPc Unit) (hpc : pc'.stage = .waiting → pc.stage = .waiting) :
      Follows (.client ip pc) (.client ip pc')
  | next (ip : Nat) (pc : ClientPc Unit) (hpc : pc ≠ .ready) :
      Follows (.client ip pc) (.client (ip + 1) .ready)

theorem Local.follows_site {site : AddSite Unit} {pc : ClientPc Unit} (hpc : pc ≠ .ready)
    (hstage : pc.stage = .waiting) : (Local.client ip pc).Follows (site.next ip) := by
  cases site with
  | task => exact .next ip pc hpc
  | member g i counter => exact .stay ip pc _ fun _ => hstage

/-- Every step moves the position of the client in this way. -/
theorem DispatchStep.follows (h : DispatchStep d a u a') (htracked : Tracked d a) :
    (a.thread (.inl ())).Follows (a'.thread (.inl ())) := by
  have hclient : ∀ {client : Unit} {k k' : Local Unit}, a.thread (.inl client) = k →
      k.Follows k' → (a.thread (.inl ())).Follows
        (Function.update a.thread (.inl client) k' (.inl ())) := by
    intro client k k' hk hfollows
    rw [Function.update_self, show a.thread (.inl ()) = k from hk]
    exact hfollows
  have hworker : ∀ {k : Local Unit}, k = a.thread (.inl ()) →
      (a.thread (.inl ())).Follows k := by
    rintro k rfl
    exact .refl _
  cases h with
  | send c ip t site hk _ => exact hclient hk (Local.follows_site (by simp) rfl)
  | receive i t rest _ _ => exact hworker (by simp)
  | sizeZero c ip busy hk _ => exact hclient hk (.next ip _ (by simp))
  | groupDone c ip g i counter hk _ => exact hclient hk (.next ip _ (by simp))
  | deleteCounter c ip counter ts hk =>
      refine hclient hk (.stay ip _ _ fun hnew => ?_)
      cases hnew
  | deleteTask c ip t ts hk =>
      refine hclient hk (.stay ip _ _ fun hnew => ?_)
      cases hnew
  | deleteDone c ip hk => exact hclient hk (.next ip _ (by simp))
  | freeObject c ip object k hk hnext =>
      rcases hnext with rfl | ⟨object', rfl⟩
      · exact hclient hk (.next ip _ (by simp))
      · exact hclient hk (.stay ip _ _ fun _ => rfl)
  | run u t at_ env' r hrun _ =>
      cases u with
      | inr i => exact hworker (by simp)
      | inl c =>
          refine hclient (rfl : a.thread (.inl c) = a.thread (.inl c)) ?_
          have hc := htracked.client c
          cases hk : a.thread (.inl c) with
          | worker pc =>
              rw [hk] at hc
              cases hc
          | client ip pc =>
              rw [hk] at hrun
              cases pc with
              | pitch t' site at' =>
                  cases r with
                  | none => exact Local.follows_site (by simp) rfl
                  | some at'' => exact .stay ip _ _ fun _ => rfl
              | _ => cases hrun
  | start i _ => exact hworker (by simp)
  | setBusy i t _ => exact hworker (by simp)
  | setReady i _ => exact hworker (by simp)
  | freeCend i _ => exact hworker (by simp)
  | _ => exact hclient (by assumption) (.stay _ _ _ fun _ => rfl)

/-- A client before the end token of a wait was there before the step. -/
theorem Local.Follows.waiting {k k' : Local Unit} (h : k.Follows k')
    (hnew : k'.stage w = .waiting) : k.stage w = .waiting := by
  cases h with
  | refl => exact hnew
  | stay ip pc pc' hpc =>
      by_cases hw : w = ip
      · subst hw
        rw [Local.stage_self] at hnew ⊢
        exact hpc hnew
      · rw [Local.stage_of_ne hw] at hnew
        exact hnew
  | next ip pc hpc =>
      rcases Nat.lt_trichotomy w ip with hlt | rfl | hgt
      · rw [Local.stage_of_lt (Nat.lt_succ_of_lt hlt)] at hnew
        cases hnew
      · rw [Local.stage_of_lt (Nat.lt_succ_self w)] at hnew
        cases hnew
      · exact Local.stage_of_gt hgt pc

/-- A client never gets past the end of its program. -/
theorem ip_le_of_reachable (ha : d.atomicThreads.Reachable a) :
    (a.thread (.inl ())).ip ≤ (d.prog ()).length := by
  refine ha.invariant (P := fun a => (a.thread (.inl ())).ip ≤ (d.prog ()).length)
    (Nat.zero_le _) ?_
  intro a u a' hr hle hstep
  have htracked := tracked_of_reachable hr
  have hfollows := (dispatchStep_of_step hstep).follows htracked
  cases hk : a.thread (.inl ()) with
  | worker pc =>
      have hc := htracked.client ()
      rw [hk] at hc
      cases hc
  | client ip pc =>
      rw [hk] at hfollows hle
      generalize a'.thread (.inl ()) = k' at hfollows
      cases hfollows with
      | refl => exact hle
      | stay pc' => exact hle
      | next ip pc hpc => exact (htracked.clientAt hk).lt_length hpc

/-- A step from a state that the shorter program reaches is a step of the shorter
program. -/
theorem DispatchConfig.cut_step (ha : d.cut.atomicThreads.Reachable a)
    (h : d.atomicThreads.step a u = some a') : d.cut.atomicThreads.step a u = some a' := by
  have htracked := tracked_of_reachable ha
  have hend : ∀ ip, a.thread (.inl ()) = .client ip .ready →
      (d.cut.prog ())[ip]? = (d.prog ())[ip]? ∨ (d.cut.prog ())[ip]? = none ∧
        ∃ g, (d.prog ())[ip]? = some (.groupWait g) ∧ (d.heap.group g).tasks = [] := by
    intro ip hk
    apply d.getElem?_end
    have hle := ip_le_of_reachable ha
    rwa [hk] at hle
  have hcall : d.cut.caller.call u (a.thread u) = d.caller.call u (a.thread u) := by
    cases u with
    | inr i =>
        rcases htracked.worker i with ⟨pc, hk⟩
        rw [hk]
        cases pc <;> rfl
    | inl c =>
        cases hk : a.thread (.inl c) with
        | worker pc => rfl
        | client ip pc =>
            cases pc with
            | ready =>
                rcases hend ip hk with heq | ⟨hnone, g, hwait, -⟩
                · simp only [DispatchConfig.caller, heq]
                · simp [DispatchConfig.caller, hnone, hwait]
            | _ => rfl
  have hown : d.cut.caller.step u (a.thread u) a.env = d.caller.step u (a.thread u) a.env := by
    cases u with
    | inr i =>
        rcases htracked.worker i with ⟨pc, hk⟩
        rw [hk]
        rfl
    | inl c =>
        cases hk : a.thread (.inl c) with
        | worker pc => rfl
        | client ip pc =>
            cases pc with
            | deleteTasks ts => cases ts <;> rfl
            | ready =>
                rcases hend ip hk with heq | ⟨hnone, g, hwait, hnil⟩
                · simp only [DispatchConfig.caller, DispatchConfig.clientStep, heq]
                  rfl
                · have hgroup : (a.env.heap.group g).tasks = [] := by
                    rw [htracked.group]
                    exact hnil
                  simp [DispatchConfig.caller, DispatchConfig.clientStep, hnone, hwait,
                    DispatchConfig.startCall, hgroup]
            | _ => rfl
  have hret : d.cut.caller.ret = d.caller.ret := rfl
  simp only [DispatchConfig.atomicThreads, Metal.atomicThreads] at h ⊢
  rw [hcall, hown, hret]
  exact h

/-- A client never gets past a wait for a group without tasks. -/
theorem DispatchConfig.cut_reachable (ha : d.atomicThreads.Reachable a) :
    d.cut.atomicThreads.Reachable a := by
  induction ha with
  | init => exact @System.Reachable.init _ _ d.cut.atomicThreads
  | step _ hstep ih => exact ih.step (d.cut_step ih hstep)

end Cut

/-! ## The end token before the wait -/

section Token

variable {d : DispatchConfig Unit N β υ}
  {a a' : AtomicState (Unit ⊕ Fin N) Nat (Local Unit) (Env Unit N β υ)} {u : Unit ⊕ Fin N}
  {t w jp : Nat} {ts : List Nat} {call : DispatchCall}

/-- A statement of {lit}`run_task` takes no end token. -/
theorem RunStep.tokens {me : Unit ⊕ Fin N} {env env' : Env Unit N β υ} {at_ : RunPc Unit}
    {r : Option (RunPc Unit)} (h : RunStep me env t at_ env' r) (c : Unit × Nat) :
    (env'.counter c).tokens + env.history.tokenSent.count c =
      (env.counter c).tokens + env'.history.tokenSent.count c := by
  have hset : ∀ (c' : Unit × Nat) counter, counter.tokens = (env.counter c').tokens →
      ((env.setCounter c' counter).counter c).tokens = (env.counter c).tokens := by
    intro c' counter heq
    by_cases hc : c = c'
    · subst hc
      simpa [Env.setCounter] using heq
    · simp [Env.setCounter, hc]
  cases h with
  | signalLock c' _ => exact congrArg (· + _) (hset c' _ rfl)
  | decrement c' => exact congrArg (· + _) (hset c' _ rfl)
  | signalLast c' => exact congrArg (· + _) (hset c' _ rfl)
  | signalDone c' => exact congrArg (· + _) (hset c' _ rfl)
  | sendToken c' =>
      by_cases hc : c = c'
      · subst hc
        simp only [Env.setCounter, Function.update_self, List.count_append,
          List.count_singleton_self]
        omega
      · have hc' : ¬ c' = c := fun heq => hc heq.symm
        simp [Env.setCounter, hc, List.count_append, hc']
  | _ => rfl

/-- A token that was sent is there until the wait takes it; a counter that is created has
none. -/
theorem DispatchStep.tokens (h : DispatchStep d a u a') (c : Unit × Nat) :
    ((a'.env.counter c).tokens + a.env.history.tokenSent.count c =
      (a.env.counter c).tokens + a'.env.history.tokenSent.count c) ∨
    (∃ ip ts, a.thread (.inl ()) = .client ip (.checkToken c ts) ∧
      a'.thread (.inl ()) = .client ip (.deleteCounter c ts)) ∨
    ∃ ip call, a.thread (.inl ()) = .client ip .ready ∧ (d.prog ())[ip]? = some call ∧
      c = ((), ip) ∧ (a'.env.counter c).tokens = 0 ∧
      a'.env.history.tokenSent = a.env.history.tokenSent := by
  cases h with
  | taskAddWaitable client ip t hk hcall _ =>
      by_cases hc : c = ((), ip)
      · subst hc
        refine Or.inr (Or.inr ⟨ip, _, hk, hcall, rfl, ?_, rfl⟩)
        simp [Env.setCounter, Env.storePrivateData, eventCounterCreate]
      · left
        simp [Env.setCounter, Env.storePrivateData, hc]
  | groupAddWaitable client ip g hk hcall _ =>
      by_cases hc : c = ((), ip)
      · subst hc
        refine Or.inr (Or.inr ⟨ip, _, hk, hcall, rfl, ?_, rfl⟩)
        simp [Env.setCounter, eventCounterCreate]
      · left
        simp [Env.setCounter, hc]
  | checkToken client ip counter ts hk _ =>
      by_cases hc : c = counter
      · subst hc
        exact Or.inr (Or.inl ⟨ip, ts, hk, by simp⟩)
      · left
        simp [Env.setCounter, hc]
  | run _ t at_ env' r _ hrun => exact Or.inl (hrun.tokens c)
  | _ => exact Or.inl rfl

/-- No token is sent before the call that creates the counter. -/
theorem Counters.unsent (h : Counters d a) (hledger : Ledger d a) (htracked : Tracked d a)
    (hd : d.Disciplined) (hcall : (d.prog ())[jp]? = some call)
    (hcreates : d.createsCounter call = true) (hne : call.tasks d.heap ≠ [])
    (hnot : ¬ (a.thread (.inl ())).created jp) :
    a.env.history.tokenSent.count ((), jp) = 0 := by
  rcases List.exists_mem_of_ne_nil _ hne with ⟨t, ht⟩
  have hsum := h.token jp call hcall hcreates hne
  have hmissing : (call.tasks d.heap).countP
      (fun t => decide (t ∉ a.env.history.signalled)) ≠ 0 := by
    intro hzero
    have hsig : t ∈ a.env.history.signalled := by
      simpa using List.countP_eq_zero.mp hzero t ht
    exact hnot (htracked.created_of_stored hd hcall ht
      (d.added_subset_stored _ (hledger.mem_added_of_signalled hsig)))
  rw [if_neg hmissing] at hsum
  omega

/-- As long as a wait has not taken the end token of its call, the token is there if it was
sent. -/
def TokensKept (d : DispatchConfig Unit N β υ)
    (a : AtomicState (Unit ⊕ Fin N) Nat (Local Unit) (Env Unit N β υ)) : Prop :=
  ∀ w jp ts, d.Awaits w jp ts → (a.thread (.inl ())).stage w = .waiting →
    (a.env.counter ((), jp)).tokens = a.env.history.tokenSent.count ((), jp)

theorem TokensKept.step (h : TokensKept d a) (hcounters : Counters d a) (hwaits : Waits d a)
    (hledger : Ledger d a) (htracked : Tracked d a) (hd : d.Disciplined)
    (hstep : DispatchStep d a u a') : TokensKept d a' := by
  intro w jp ts hawaits hstage
  have hkept := h w jp ts hawaits ((hstep.follows htracked).waiting hstage)
  rcases hstep.tokens ((), jp) with hsame | ⟨ip, ts', hk, hk'⟩ |
    ⟨ip, call, hk, hcall, hc, hzero, hsent⟩
  · omega
  · -- the wait that takes this token is this one
    have hposition := hwaits.position
    rw [hk] at hposition
    rcases hposition with ⟨jp', hc, hawaits'⟩
    cases hc
    rw [hd.awaits_unique_wait hawaits hawaits', hk', Local.stage_self] at hstage
    cases hstage
  · cases hc
    rcases hd.awaits_call hawaits with ⟨call', hcall', rfl, hcreates, hne⟩
    have hnot : ¬ (a.thread (.inl ())).created jp := by
      rw [hk]
      simp [Local.created]
    rw [hzero, hsent, hcounters.unsent hledger htracked hd hcall' hcreates hne hnot]

/-- The end token is not lost before the wait. -/
theorem tokens_of_reachable (hd : d.Disciplined) (hflags : d.FlagsAgree)
    (ha : d.atomicThreads.Reachable a) : TokensKept d a :=
  ha.invariant (P := TokensKept d) (fun _ _ _ _ _ => rfl) fun _ _ _ hr h hstep =>
    h.step (counters_of_reachable hd hflags hr) (waits_of_reachable hd hflags hr)
      (ledger_of_reachable hr) (tracked_of_reachable hr) hd (dispatchStep_of_step hstep)

/-- When all tasks of a call are finished, the wait for it finds the end token. -/
theorem TokensKept.token (h : TokensKept d a) (hcounters : Counters d a)
    (hledger : Ledger d a) (htracked : Tracked d a) (hd : d.Disciplined)
    (hflags : d.FlagsAgree) (hawaits : d.Awaits w jp ts)
    (hstage : (a.thread (.inl ())).stage w = .waiting)
    (hfinished : ∀ t ∈ ts, t ∈ a.env.history.finished) :
    0 < (a.env.counter ((), jp)).tokens := by
  rcases hd.awaits_call hawaits with ⟨call, hcall, rfl, hcreates, hne⟩
  have hsum := hcounters.token jp call hcall hcreates hne
  have hsignalled : (call.tasks d.heap).countP
      (fun t => decide (t ∉ a.env.history.signalled)) = 0 := by
    rw [List.countP_eq_zero]
    intro t ht
    have hwaitable := (DispatchConfig.createsCounter_iff hflags hcall ht).mp hcreates
    have hbooked := hledger.signalled t
    rw [if_pos hwaitable] at hbooked
    have hpos := List.count_pos_iff.mpr (hfinished t ht)
    have hmem : t ∈ a.env.history.signalled := List.count_pos_iff.mp (by omega)
    simp [hmem]
  -- a thread that is going to send the token holds a task of the call
  have hnone : tally (Local.sending ((), jp)) a.thread = 0 := by
    rw [tally_eq_zero_iff]
    intro v
    cases hv : (a.thread v).signalling with
    | none => exact Local.sending_of_none hv
    | some x =>
        rcases x with ⟨t, c, at_⟩
        rw [Local.sending_eq hv]
        apply if_neg
        rintro ⟨rfl, -⟩
        rcases hcounters.refs v t _ at_ hv with ⟨call', hcall', -, ht⟩
        cases Option.some.inj (hcall.symm.trans hcall')
        have hheld := Local.held_of_runAt (Local.signalling_eq_some.mp hv).1
        exact (hledger.held htracked hd hheld).2.2.2 (hfinished t ht)
  rw [if_pos hsignalled, hnone] at hsum
  have hkept := h w jp _ hawaits hstage
  omega

end Token

/-! ## The rest of a wait -/

section Completes

variable {d : DispatchConfig Unit N β υ} {handshake : Bool}
  {s s' : State (Unit ⊕ Fin N) (Option (Fin N)) Nat (Local Unit) (Env Unit N β υ)}
  {w : Nat} {pc : ClientPc Unit} {k : Local Unit} {env : Env Unit N β υ}

/-- A step of the client's own code. -/
theorem DispatchConfig.completes_of_step (hk : s.thread (.inl ()) = .outside (.client w pc))
    (hcall : d.caller.call (.inl ()) (.client w pc) = none)
    (hstep : d.clientStep () w s.env pc = some (k, env))
    (h : ∀ s', s'.env = env → s'.thread (.inl ()) = .outside k → d.Completes handshake s' w) :
    d.Completes handshake s w := by
  have hown : d.caller.step (.inl ()) (.client w pc) s.env = some (k, env) := hstep
  have hfirst : (d.threads handshake).step s (.inl ()) = some { s with
      env := env, thread := Function.update s.thread (.inl ()) (.outside k) } :=
    threads_step_outside hk hcall hown
  rcases h { s with env := env, thread := Function.update s.thread (.inl ()) (.outside k) }
    rfl (by simp) with ⟨n, s', hrun, hs'⟩
  refine ⟨n + 1, s', ?_, hs'⟩
  rw [List.replicate_succ, System.run_cons, hfirst]
  exact hrun

/-- The tasks are deleted one after the other. -/
theorem DispatchConfig.completes_of_deleteTasks {ts : List Nat}
    (hk : s.thread (.inl ()) = .outside (.client w (.deleteTasks ts))) :
    d.Completes handshake s w := by
  induction ts generalizing s with
  | nil => exact completes_of_step hk rfl rfl fun s' _ hk' => ⟨0, s', rfl, hk'⟩
  | cons t ts ih => exact completes_of_step hk rfl rfl fun s' _ hk' => ih hk'

theorem DispatchConfig.completes_of_deleteCounter {c : Unit × Nat} {ts : List Nat}
    (hk : s.thread (.inl ()) = .outside (.client w (.deleteCounter c ts))) :
    d.Completes handshake s w :=
  completes_of_step hk rfl rfl fun _ _ hk' => completes_of_deleteTasks hk'

/-- A wait that finds the end token completes. -/
theorem DispatchConfig.completes_of_checkToken {c : Unit × Nat} {ts : List Nat}
    (hk : s.thread (.inl ()) = .outside (.client w (.checkToken c ts)))
    (htoken : 0 < (s.env.counter c).tokens) : d.Completes handshake s w :=
  completes_of_step hk rfl (if_pos htoken) fun _ _ hk' => completes_of_deleteCounter hk'

/-- A wait that reads a counter with an end token completes. -/
theorem DispatchConfig.completes_of_ready {c : Unit × Nat} {g t : Nat} {ts : List Nat}
    (hk : s.thread (.inl ()) = .outside (.client w .ready))
    (hwait : (d.prog ())[w]? = some (.groupWait g))
    (hwaitable : (s.env.heap.group g).waitable = true)
    (htasks : (s.env.heap.group g).tasks = t :: ts)
    (hdata : (s.env.heap.task t).privateData = some c)
    (htoken : 0 < (s.env.counter c).tokens) : d.Completes handshake s w := by
  have hcall : d.caller.call (.inl ()) (.client w .ready) = none := by
    simp [DispatchConfig.caller, hwait]
  have hstep : d.clientStep () w s.env .ready =
      some (.client w (.checkToken c (t :: ts)), s.env) := by
    simp [DispatchConfig.clientStep, hwait, DispatchConfig.startCall, hwaitable, htasks, hdata]
  refine completes_of_step hk hcall hstep fun s' henv hk' => completes_of_checkToken hk' ?_
  rw [henv]
  exact htoken

end Completes

/-! ## Groups of every size -/

section Sizes

variable {d : DispatchConfig Unit N β υ}
  {a : AtomicState (Unit ⊕ Fin N) Nat (Local Unit) (Env Unit N β υ)} {i jp w g : Nat}

/-- A call that has started belongs to the program. -/
theorem lt_length_of_created (ha : d.atomicThreads.Reachable a)
    (h : (a.thread (.inl ())).created w) : w < (d.prog ()).length := by
  have hle := ip_le_of_reachable ha
  have htracked := tracked_of_reachable ha
  cases hk : a.thread (.inl ()) with
  | worker pc =>
      rw [hk] at h
      cases h
  | client ip pc =>
      rw [hk] at h hle
      rcases h with hlt | ⟨rfl, hpc⟩
      · exact Nat.lt_of_lt_of_le hlt hle
      · exact (htracked.clientAt hk).lt_length hpc

/-- For a group with a task, the client reads filled slots only. -/
theorem DispatchConfig.slotRead_filled (htracked : Tracked d a)
    (hpos : 0 < (d.heap.group g).count)
    (hread : d.slotRead (a.thread (.inl ())) = some (g, i)) :
    ((d.heap.group g).tasks[i]?).isSome = true := by
  have hfilled : ∀ j, j < (d.heap.group g).count →
      ((d.heap.group g).tasks[j]?).isSome = true := by
    intro j hj
    exact List.getElem?_eq_some_iff.mpr ⟨hj, rfl⟩ ▸ rfl
  have hsite : ∀ {ip t g' j : Nat} {counter : Option (Unit × Nat)},
      d.SiteAt () ip t (.member g' j counter) → some (g', j) = some (g, i) →
      ((d.heap.group g).tasks[i]?).isSome = true := by
    intro ip t g' j counter hsite heq
    cases heq
    rw [hsite.2.2]
    rfl
  cases hk : a.thread (.inl ()) with
  | worker pc =>
      rw [hk] at hread
      cases hread
  | client ip pc =>
      have hat := htracked.clientAt hk
      rw [hk] at hread
      cases pc with
      | ready =>
          simp only [DispatchConfig.slotRead] at hread
          split at hread
          · split at hread
            · cases hread
              exact hfilled 0 hpos
            · cases hread
          · cases hread
      | groupLoop g' j counter =>
          simp only [DispatchConfig.slotRead] at hread
          split at hread
          · rename_i hlt
            cases hread
            exact hfilled _ hlt
          · cases hread
      | addScan t site j busy =>
          cases site with
          | task => cases hread
          | member g' j' counter => exact hsite hat hread
      | send t site =>
          cases site with
          | task => cases hread
          | member g' j' counter => exact hsite hat hread
      | deleteTasks ts =>
          cases ts with
          | nil => cases hread
          | cons t ts =>
              simp only [DispatchConfig.slotRead] at hread
              split at hread
              · cases hread
                exact hfilled _ (Nat.sub_lt hpos (Nat.succ_pos _))
              · cases hread
      | _ => cases hread

/-- The positions in a wait for a group. -/
theorem DispatchConfig.ClientAt.wait_cases {pc : ClientPc Unit} (h : d.ClientAt () w pc)
    (hwait : (d.prog ())[w]? = some (.groupWait g)) :
    pc = .ready ∨ (∃ c ts, pc = .checkToken c ts) ∨ (∃ c ts, pc = .deleteCounter c ts) ∨
      ∃ ts, pc = .deleteTasks ts := by
  have hother : ∀ {call : DispatchCall}, (d.prog ())[w]? = some call →
      call = .groupWait g := fun hcall => Option.some.inj (hcall.symm.trans hwait)
  have hsite : ∀ {t : Nat} {site : AddSite Unit}, ¬ d.SiteAt () w t site := by
    intro t site hsite
    cases site with
    | task => cases hother hsite
    | member g' i counter => cases hother hsite.1
  cases pc with
  | ready => exact Or.inl rfl
  | checkToken c ts => exact Or.inr (Or.inl ⟨c, ts, rfl⟩)
  | deleteCounter c ts => exact Or.inr (Or.inr (Or.inl ⟨c, ts, rfl⟩))
  | deleteTasks ts => exact Or.inr (Or.inr (Or.inr ⟨ts, rfl⟩))
  | groupLoop g' i counter => cases hother h.1
  | addScan t site i busy => exact absurd h hsite
  | send t site => exact absurd h hsite
  | pitch t site at_ => exact absurd h hsite
  | waitScan i busy => cases hother h
  | waitSize busy => cases hother h
  | freeObject object => cases hother h

/-- A client at a wait for a group with tasks has its wait in the shorter program. -/
theorem DispatchConfig.Orderly.awaits_cut (hd : d.Orderly)
    (hadd : (d.prog ())[jp]? = some (.groupAdd g))
    (hwait : (d.prog ())[w]? = some (.groupWait g)) (hne : (d.heap.group g).tasks ≠ [])
    (hw : w ≤ (d.cut.prog ()).length) : d.cut.Awaits w jp (d.heap.group g).tasks := by
  have hwait' : (d.cut.prog ())[w]? = some (.groupWait g) := by
    rcases d.getElem?_end hw with heq | ⟨-, g', hg', hnil⟩
    · exact heq.trans hwait
    · rw [hwait] at hg'
      cases hg'
      exact absurd hnil hne
  rcases (hd.cut.groupWait w g hwait').2.2 with ⟨jp', -, hjp'⟩
  rcases List.exists_mem_of_ne_nil _ hne with ⟨t, ht⟩
  have heq := submits_unique hd.distinct hadd (getElem?_of_cut hjp').1 ht ht
  subst heq
  exact Or.inr ⟨g, hwait', hjp', rfl⟩

/-- At a wait for a group without tasks, the client is about to read the first slot. -/
theorem DispatchConfig.slotRead_of_empty (ha : d.atomicThreads.Reachable a)
    (hwait : (d.prog ())[w]? = some (.groupWait g))
    (hwaitable : (d.heap.group g).waitable = true) (hnil : (d.heap.group g).tasks = [])
    (hip : (a.thread (.inl ())).ip = w) :
    d.slotRead (a.thread (.inl ())) = some (g, 0) := by
  have hnot : ¬ (a.thread (.inl ())).created w := by
    intro hcreated
    have hlt := lt_length_of_created (d.cut_reachable ha) hcreated
    have hpassable := (getElem?_of_cut (d.getElem?_cut hlt hwait)).2
    simp [DispatchConfig.passable, hnil] at hpassable
  have hc := (tracked_of_reachable ha).client ()
  cases hk : a.thread (.inl ()) with
  | worker pc =>
      rw [hk] at hc
      cases hc
  | client ip pc =>
      rw [hk] at hip hnot
      cases hip
      have hready : pc = .ready := by
        by_contra hpc
        exact hnot (Or.inr ⟨rfl, hpc⟩)
      subst hready
      simp only [DispatchConfig.slotRead]
      rw [show (d.prog ())[ip]? = _ from hwait]
      exact if_pos hwaitable

end Sizes

/-- A call to add a waitable group and a call to wait for it are served in every
interleaving if the group has a task, and in no state of the wait if it has none. -/
theorem group_wait_sizes (d : DispatchConfig Unit N β υ) (handshake : Bool)
    {ts gs as : List Nat} (hbuilt : Built d.heap ts gs as)
    (hgroups : ∀ g, .groupAdd g ∈ d.prog () → g ∈ gs) (hd : d.Orderly)
    (hdelete : .delete ∉ d.prog ()) {jp w g : Nat}
    (hadd : (d.prog ())[jp]? = some (.groupAdd g))
    (hwait : (d.prog ())[w]? = some (.groupWait g))
    {s : State (Unit ⊕ Fin N) (Option (Fin N)) Nat (Local Unit) (Env Unit N β υ)}
    (hs : (d.threads handshake).Reachable s) :
    (0 < (d.heap.group g).count → GroupServed d handshake s jp w g) ∧
      ((d.view s (.inl ())).ip = w →
        (GroupServed d handshake s jp w g ↔ 0 < (d.heap.group g).count)) := by
  have hdelete' : ∀ c, .delete ∉ d.prog c := fun _ => hdelete
  rcases d.atomic_of_reachable hdelete' hs with ⟨a, ha, href⟩
  have hview := d.view_eq href
  have htracked := tracked_of_reachable ha
  have hcut := d.cut_reachable ha
  have hle := ip_le_of_reachable hcut
  have hwaitable := (hd.groupWait w g hwait).1
  have hserved : 0 < (d.heap.group g).count → GroupServed d handshake s jp w g := by
    intro hpos
    have hne := List.ne_nil_of_length_pos hpos
    have hflags := (DispatchConfig.flagsAgree_of_built hbuilt hgroups).cut
    have hcounters := counters_of_reachable hd.cut hflags hcut
    have hwaits := waits_of_reachable hd.cut hflags hcut
    have hawaits : ∀ {pc}, a.thread (.inl ()) = .client w pc →
        d.cut.Awaits w jp (d.heap.group g).tasks := by
      intro pc hk
      rw [hk] at hle
      exact hd.awaits_cut hadd hwait hne hle
    have hcounter : ∀ c ts', a.thread (.inl ()) = .client w (.checkToken c ts') →
        c = ((), jp) ∧ ts' = (d.heap.group g).tasks := by
      intro c ts' hk
      have hposition := hwaits.position
      rw [hk] at hposition
      rcases hposition with ⟨jp', hc, hawaits'⟩
      have heq := hd.cut.awaits_unique_add hawaits' (hawaits hk)
      exact ⟨heq.1 ▸ hc, heq.2⟩
    constructor
    · intro i hread
      rw [hview] at hread
      exact d.slotRead_filled htracked hpos hread
    · intro hcreated
      rw [hview] at hcreated
      have hcall := d.getElem?_cut (lt_length_of_created hcut hcreated) hadd
      rw [← href.env]
      exact hcounters.count jp _ hcall hwaitable hcreated
    · intro c ts' hk
      rw [hview] at hk
      exact hcounter c ts' hk
    · intro pc hk hfinished
      have hk' : a.thread (.inl ()) = .client w pc := by
        rw [href.thread, hk]
        rfl
      have htoken : pc.stage = .waiting → 0 < (s.env.counter ((), jp)).tokens := by
        intro hstage
        rw [← href.env] at hfinished ⊢
        refine (tokens_of_reachable hd.cut hflags hcut).token hcounters
          (ledger_of_reachable hcut) (tracked_of_reachable hcut) hd.cut hflags (hawaits hk')
          ?_ hfinished
        rw [hk', Local.stage_self]
        exact hstage
      rcases (htracked.clientAt hk').wait_cases hwait with
        rfl | ⟨c, ts', rfl⟩ | ⟨c, ts', rfl⟩ | ⟨ts', rfl⟩
      · rcases List.exists_cons_of_ne_nil hne with ⟨t, rest, htasks⟩
        have ht : t ∈ (d.heap.group g).tasks := by
          rw [htasks]
          exact List.mem_cons_self
        have hdata := hcounters.data_awaited hd.cut hk' (hawaits hk') ht
        have hgroup := htracked.group
        rw [href.env] at hdata hgroup
        have hflag : (s.env.heap.group g).waitable = true := by
          rw [hgroup]
          exact hwaitable
        have hslots : (s.env.heap.group g).tasks = t :: rest := by
          rw [hgroup]
          exact htasks
        exact DispatchConfig.completes_of_ready hk hwait hflag hslots hdata (htoken rfl)
      · rcases hcounter c ts' hk' with ⟨rfl, -⟩
        exact DispatchConfig.completes_of_checkToken hk (htoken rfl)
      · exact DispatchConfig.completes_of_deleteCounter hk
      · exact DispatchConfig.completes_of_deleteTasks hk
  refine ⟨hserved, fun hip => ⟨fun h => ?_, hserved⟩⟩
  by_contra hzero
  have hnil : (d.heap.group g).tasks = [] := List.length_eq_zero_iff.mp (by
    have hlength := Nat.eq_zero_of_not_pos hzero
    exact hlength)
  rw [hview] at hip
  have hfilled := h.slots 0 (by rw [hview]; exact d.slotRead_of_empty ha hwait hwaitable hnil hip)
  rw [hnil] at hfilled
  cases hfilled

/-! ## Two tasks, and none -/

/-- A disciplined program is orderly. -/
theorem DispatchConfig.Disciplined.orderly {d : DispatchConfig Unit N β υ}
    (hd : d.Disciplined) : d.Orderly where
  distinct := hd.distinct
  taskWait := hd.taskWait
  groupWait w g hw := ⟨(hd.groupWait w g hw).1, (hd.groupWait w g hw).2.2⟩
  taskWaitOnce := hd.taskWaitOnce
  groupWaitOnce := hd.groupWaitOnce

/-- The last signal has been given and the client has not checked the end token. -/
theorem twoTasks_run_signalled : ((twoTasks.threads true).run (twoTasks.threads true).init
    (twoTasksSchedule.take 94)).isSome = true := by
  decide +kernel

/-- The client is in the wait for the two tasks, and the wait is served. -/
theorem group_wait_sizes_twoTasks :
    (twoTasks.view (((twoTasks.threads true).run (twoTasks.threads true).init
      (twoTasksSchedule.take 94)).get twoTasks_run_signalled) (.inl ())).ip = 1 ∧
    GroupServed twoTasks true (((twoTasks.threads true).run (twoTasks.threads true).init
      (twoTasksSchedule.take 94)).get twoTasks_run_signalled) 0 1 0 := by
  have hs := (twoTasks.threads true).reachable_get_run _ twoTasks_run_signalled
  have hadd : (twoTasks.prog ())[0]? = some (.groupAdd 0) := rfl
  have hwait : (twoTasks.prog ())[1]? = some (.groupWait 0) := rfl
  have hsizes := group_wait_sizes twoTasks true (twoFunctionsHeap_built _) groupCalls_groups
    twoTasks_disciplined.orderly (by decide) hadd hwait hs
  have hip : (twoTasks.view (((twoTasks.threads true).run (twoTasks.threads true).init
      (twoTasksSchedule.take 94)).get twoTasks_run_signalled) (.inl ())).ip = 1 := by
    decide +kernel
  exact ⟨hip, (hsizes.2 hip).mpr (by decide)⟩

/-- A client adds a waitable group that has room for a task and none in it, and waits for
it. -/
def emptyGroup : DispatchConfig Unit 1 Unit Nat where
  length := 1
  length_pos := Nat.one_pos
  useCallersThread := false
  prog := fun _ => groupCalls
  heap := dispatchGroupCreate (freshHeap _) 0 1 true
  user := 0

theorem emptyGroup_built : Built emptyGroup.heap [] [0] [] :=
  Built.groupCreate 1 true (Built.nil (freshHeap _)) (by decide)

theorem emptyGroup_orderly : emptyGroup.Orderly := by
  have htask : ∀ w t : Nat, (emptyGroup.prog ())[w]? ≠ some (.taskWait t) := by
    rintro (_ | _ | w) t hw <;> cases hw
  have hgroup : ∀ w g : Nat, (emptyGroup.prog ())[w]? = some (.groupWait g) →
      w = 1 ∧ g = 0 := by
    rintro (_ | _ | w) g hw <;> cases hw
    exact ⟨rfl, rfl⟩
  constructor
  · decide
  · intro w t hw
    exact absurd hw (htask w t)
  · intro w g hw
    rcases hgroup w g hw with ⟨rfl, rfl⟩
    exact ⟨rfl, 0, Nat.one_pos, rfl⟩
  · intro w w' t hw
    exact absurd hw (htask w t)
  · intro w w' g hw hw'
    exact (hgroup w g hw).1.trans (hgroup w' g hw').1.symm

/-- The wait for the group reads a slot that was never filled. -/
theorem group_wait_reads_unfilled :
    Built emptyGroup.heap [] [0] [] ∧ emptyGroup.Orderly ∧
    ¬ ∀ s, (emptyGroup.threads true).Reachable s → GroupServed emptyGroup true s 0 1 0 := by
  refine ⟨emptyGroup_built, emptyGroup_orderly, fun hclaim => ?_⟩
  have hs := (emptyGroup.threads true).reachable_get_run [.inl (), .inl ()] (by decide)
  have hfilled := (hclaim _ hs).slots 0 (by decide)
  simp [emptyGroup, dispatchGroupCreate] at hfilled

end Metal
end LibDispatch
