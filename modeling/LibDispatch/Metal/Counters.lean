import LibDispatch.Library.Ownership
import LibDispatch.Metal.Discipline

/-!
# Event counters

A counter is created by the call that adds a waitable task or group and reached by the
workers through {lit}`private_data`.  Its count is the number of tasks of the call that have
not yet executed the locked part of {lit}`event_counter_signal`; the one that brings it to
zero, and no other, sends the end token.

Main results:

- Structure {lit}`Counters`: these facts as an invariant.
- Theorem {lit}`Counters.create`: a call that creates a counter keeps it.
- Theorem {lit}`Counters.signal`: so does a step that concerns one counter only.
-/

namespace LibDispatch
namespace Metal

variable {C : Type} {N : Nat} {β υ : Type}

/-! ## Positions in {lit}`event_counter_signal` -/

/-- The counter of a position in {lit}`event_counter_signal`. -/
def RunPc.counter : RunPc C → Option (C × Nat)
  | .signalLock c | .decrement c | .signalUnlock c _ | .sendToken c => some c
  | _ => none

/-- Positions inside the spinlock of the counter. -/
def RunPc.locked : RunPc C → Bool
  | .decrement _ | .signalUnlock _ _ => true
  | _ => false

/-- Positions at which the thread is going to send the end token. -/
def RunPc.last : RunPc C → Bool
  | .signalUnlock _ true | .sendToken _ => true
  | _ => false

/-- The task that a thread signals, its counter and the position. -/
def Local.signalling (k : Local C) : Option (Nat × (C × Nat) × RunPc C) :=
  k.runAt.bind fun x => x.2.counter.map fun c => (x.1, c, x.2)

/-- The thread holds the spinlock of the counter. -/
def Local.HoldsCounter (c : C × Nat) (k : Local C) : Prop :=
  ∃ t at_, k.signalling = some (t, c, at_) ∧ at_.locked = true

/-- One if the thread is going to send the end token of the counter. -/
def Local.sending [DecidableEq C] (c : C × Nat) (k : Local C) : Nat :=
  match k.signalling with
  | some (_, c', at_) => if c' = c ∧ at_.last = true then 1 else 0
  | none => 0

theorem Local.signalling_eq_some {k : Local C} {t : Nat} {c : C × Nat} {at_ : RunPc C} :
    k.signalling = some (t, c, at_) ↔ k.runAt = some (t, at_) ∧ at_.counter = some c := by
  unfold Local.signalling
  cases k.runAt with
  | none => simp
  | some x =>
      rcases x with ⟨t', at'⟩
      simp only [Option.bind_some, Option.map_eq_some_iff, Prod.mk.injEq, Option.some.injEq]
      constructor
      · rintro ⟨c', hc, rfl, rfl, rfl⟩
        exact ⟨⟨rfl, rfl⟩, hc⟩
      · rintro ⟨⟨rfl, rfl⟩, hc⟩
        exact ⟨c, hc, rfl, rfl, rfl⟩

theorem Local.signalling_of_runAt {k : Local C} {t : Nat} {at_ : RunPc C}
    (h : k.runAt = some (t, at_)) :
    k.signalling = at_.counter.map fun c => (t, c, at_) := by
  simp [Local.signalling, h]

theorem Local.signalling_of_not_run {k : Local C} (h : k.runAt = none) :
    k.signalling = none := by
  simp [Local.signalling, h]

theorem Local.not_holdsCounter {k : Local C} {c : C × Nat} (h : k.signalling = none) :
    ¬ k.HoldsCounter c := by
  rintro ⟨t, at_, hsig, -⟩
  rw [h] at hsig
  cases hsig

theorem Local.holdsCounter_iff {k : Local C} {t : Nat} {c c' : C × Nat} {at_ : RunPc C}
    (h : k.signalling = some (t, c, at_)) :
    k.HoldsCounter c' ↔ c = c' ∧ at_.locked = true := by
  constructor
  · rintro ⟨t', at', hsig, hlocked⟩
    rw [h] at hsig
    cases hsig
    exact ⟨rfl, hlocked⟩
  · rintro ⟨rfl, hlocked⟩
    exact ⟨t, at_, h, hlocked⟩

section Sending

variable [DecidableEq C] {k : Local C} {t : Nat} {c c' : C × Nat} {at_ : RunPc C}

theorem Local.sending_of_none (h : k.signalling = none) : k.sending c = 0 := by
  rw [Local.sending, h]

theorem Local.sending_eq (h : k.signalling = some (t, c, at_)) :
    k.sending c' = if c = c' ∧ at_.last = true then 1 else 0 := by
  rw [Local.sending, h]

end Sending

/-! ## The invariant -/

/-- Counters, private data, tokens and positions agree. -/
structure Counters (d : DispatchConfig Unit N β υ)
    (a : AtomicState (Unit ⊕ Fin N) Nat (Local Unit) (Env Unit N β υ)) : Prop where
  /-- A task leads to the counter of its call. -/
  data : ∀ jp call t, (d.prog ())[jp]? = some call → d.createsCounter call = true →
    t ∈ call.tasks d.heap → t ∈ d.stored (a.thread (.inl ())) →
    (a.env.heap.task t).privateData = some ((), jp)
  /-- Whoever signals a counter runs a task of its call. -/
  refs : ∀ u t c at_, (a.thread u).signalling = some (t, c, at_) → ∃ call,
    (d.prog ())[c.2]? = some call ∧ d.createsCounter call = true ∧ t ∈ call.tasks d.heap
  /-- The count is the number of tasks that have not signalled. -/
  count : ∀ jp call, (d.prog ())[jp]? = some call → d.createsCounter call = true →
    (a.thread (.inl ())).created jp → (a.env.counter ((), jp)).count =
      (call.tasks d.heap).countP fun t => decide (t ∉ a.env.history.signalled)
  lock : ∀ c, OwnedBy (a.env.counter c).lock (Local.HoldsCounter c) a.thread
  /-- The end token is sent or going to be sent once, when all tasks have signalled. -/
  token : ∀ jp call, (d.prog ())[jp]? = some call → d.createsCounter call = true →
    call.tasks d.heap ≠ [] →
    a.env.history.tokenSent.count ((), jp) + tally (Local.sending ((), jp)) a.thread =
      if (call.tasks d.heap).countP (fun t => decide (t ∉ a.env.history.signalled)) = 0
        then 1 else 0
  tokens : ∀ c, (a.env.counter c).tokens ≤ a.env.history.tokenSent.count c
  /-- Who leaves the spinlock without a token to send leaves other tasks to signal. -/
  notLast : ∀ u t c, (a.thread u).signalling = some (t, c, .signalUnlock c false) →
    0 < (a.env.counter c).count

section Invariant

variable {d : DispatchConfig Unit N β υ}
  {a a' : AtomicState (Unit ⊕ Fin N) Nat (Local Unit) (Env Unit N β υ)} {u : Unit ⊕ Fin N}
  {t jp : Nat} {c : Unit × Nat} {at_ : RunPc Unit} {call : DispatchCall} {k : Local Unit}
  {env : Env Unit N β υ}

/-- A task of a call is waitable exactly when the call creates a counter. -/
theorem DispatchConfig.createsCounter_iff (hflags : d.FlagsAgree)
    (hcall : (d.prog ())[jp]? = some call) (ht : t ∈ call.tasks d.heap) :
    d.createsCounter call = true ↔ (d.heap.task t).waitable = true := by
  cases call with
  | taskAdd t' =>
      rw [List.mem_singleton.mp ht]
      rfl
  | groupAdd g =>
      rw [hflags g (List.mem_of_getElem? hcall) t ht]
      rfl
  | _ => cases ht

/-- A task that is run has been added by a call, and its call has started. -/
theorem Ledger.call_of_run (h : Ledger d a) (htracked : Tracked d a) (hd : d.Disciplined)
    (hheld : (a.thread u).held = some (t, at_)) :
    ∃ jp call, (d.prog ())[jp]? = some call ∧ t ∈ call.tasks d.heap ∧
      (a.thread (.inl ())).created jp := by
  have hadded := (h.held htracked hd hheld).1
  have hmem := htracked.prefix_added.subset hadded
  rcases List.mem_flatMap.mp hmem with ⟨call, hcall, ht⟩
  rcases List.getElem?_of_mem hcall with ⟨jp, hjp⟩
  exact ⟨jp, call, hjp, ht, htracked.created_of_stored hd hjp ht
    (d.added_subset_stored _ hadded)⟩

/-- Whoever signals a counter does so after it was created, and its task has signalled
once it is past the decrement. -/
theorem Counters.created_of_ref (h : Counters d a) (hledger : Ledger d a)
    (htracked : Tracked d a) (hd : d.Disciplined)
    (hsig : (a.thread u).signalling = some (t, c, at_)) :
    (a.thread (.inl ())).created c.2 := by
  rcases h.refs u t c at_ hsig with ⟨call, hcall, -, ht⟩
  have hrun := (Local.signalling_eq_some.mp hsig).1
  rcases hledger.call_of_run htracked hd (Local.held_of_runAt hrun) with
    ⟨jp, call', hcall', ht', hcreated⟩
  rw [hd.unique hcall hcall' ht ht']
  exact hcreated

/-- Steps that leave signalling threads alone and at most take a token. -/
theorem Counters.other (h : Counters d a) (fifo : List Nat)
    (hcounter : ∀ c, (env.counter c).lock = (a.env.counter c).lock ∧
      (env.counter c).count = (a.env.counter c).count ∧
      (env.counter c).tokens ≤ (a.env.counter c).tokens)
    (hhistory : env.history.signalled = a.env.history.signalled ∧
      env.history.tokenSent = a.env.history.tokenSent)
    (hk : k.signalling = (a.thread u).signalling)
    (hdata : ∀ jp call t, (d.prog ())[jp]? = some call → d.createsCounter call = true →
      t ∈ call.tasks d.heap → t ∈ d.stored (Function.update a.thread u k (.inl ())) →
      (env.heap.task t).privateData = some ((), jp))
    (hcreated : ∀ jp call, (d.prog ())[jp]? = some call → d.createsCounter call = true →
      (Function.update a.thread u k (.inl ())).created jp →
      (a.thread (.inl ())).created jp) :
    Counters d { a with
      fifo := fifo, env := env, thread := Function.update a.thread u k } := by
  rcases hhistory with ⟨hsignalled, htoken⟩
  have hsame : ∀ v, (Function.update a.thread u k v).signalling = (a.thread v).signalling := by
    intro v
    by_cases hv : v = u
    · rw [hv, Function.update_self, hk]
    · rw [Function.update_of_ne hv]
  have htally : ∀ c, tally (Local.sending c) (Function.update a.thread u k) =
      tally (Local.sending c) a.thread := by
    intro c
    unfold tally Local.sending
    simp only [hsame]
  constructor
  · exact hdata
  · intro v t c at_ hv
    exact h.refs v t c at_ ((hsame v).symm.trans hv)
  · intro jp call hjp hcall hc
    change (env.counter ((), jp)).count = _
    rw [(hcounter ((), jp)).2.1]
    simpa only [hsignalled] using h.count jp call hjp hcall (hcreated jp call hjp hcall hc)
  · intro c v
    have hlock := h.lock c v
    simp only [(hcounter c).1, Local.HoldsCounter, hsame] at hlock ⊢
    exact hlock
  · intro jp call hjp hcall hne
    simpa only [hsignalled, htoken, htally] using h.token jp call hjp hcall hne
  · intro c
    change (env.counter c).tokens ≤ env.history.tokenSent.count c
    rw [htoken]
    exact (hcounter c).2.2.trans (h.tokens c)
  · intro v t c hv
    rw [hsame] at hv
    change 0 < (env.counter c).count
    rw [(hcounter c).2.1]
    exact h.notLast v t c hv

/-- An unchanged table of counters. -/
theorem Counters.kept (hcounter : env.counter = a.env.counter) (c : Unit × Nat) :
    (env.counter c).lock = (a.env.counter c).lock ∧
      (env.counter c).count = (a.env.counter c).count ∧
      (env.counter c).tokens ≤ (a.env.counter c).tokens := by
  rw [hcounter]
  exact ⟨rfl, rfl, Nat.le_refl _⟩

/-- A client's step that leaves the counters alone, after which it has set no more private
data and created no more counters. -/
theorem Counters.client_other (h : Counters d a) {client : Unit} {old : Local Unit}
    (hold : a.thread (.inl client) = old) (k : Local Unit) (fifo : List Nat)
    (henv : env.counter = a.env.counter ∧ env.heap = a.env.heap ∧
      env.history.signalled = a.env.history.signalled ∧
      env.history.tokenSent = a.env.history.tokenSent)
    (hsig : k.signalling = none ∧ old.signalling = none) (hstored : d.stored k = d.stored old)
    (hcreated : ∀ jp call, (d.prog ())[jp]? = some call → d.createsCounter call = true →
      k.created jp → old.created jp) :
    Counters d { a with
      fifo := fifo, env := env, thread := Function.update a.thread (.inl client) k } := by
  rcases henv with ⟨hcounter, hheap, hhistory⟩
  apply h.other fifo (Counters.kept hcounter) hhistory
  · rw [hold, hsig.1, hsig.2]
  · intro jp call t hjp hcall ht hmem
    rw [Function.update_self, hstored, ← hold] at hmem
    rw [hheap]
    exact h.data jp call t hjp hcall ht hmem
  · intro jp call hjp hcall hc
    rw [Function.update_self] at hc
    rw [show a.thread (.inl ()) = old from hold]
    exact hcreated jp call hjp hcall hc

/-- A worker's step that leaves the counters alone. -/
theorem Counters.worker_other (h : Counters d a) {i : Fin N} {old : Local Unit}
    (hold : a.thread (.inr i) = old) (k : Local Unit) (fifo : List Nat)
    (henv : env.counter = a.env.counter ∧ env.heap = a.env.heap ∧
      env.history = a.env.history)
    (hk : k.signalling = old.signalling) :
    Counters d { a with
      fifo := fifo, env := env, thread := Function.update a.thread (.inr i) k } := by
  rcases henv with ⟨hcounter, hheap, hhistory⟩
  apply h.other fifo (Counters.kept hcounter) (by rw [hhistory]; exact ⟨rfl, rfl⟩) (hold ▸ hk)
  · intro jp call t hjp hcall ht hmem
    rw [hheap]
    exact h.data jp call t hjp hcall ht (by simpa using hmem)
  · intro jp call _ _ hc
    simpa using hc

/-- A store to {lit}`private_data` leads the new task to the counter of its call. -/
theorem Counters.data_store (h : Counters d a) {ip : Nat} {site : AddSite Unit}
    {p : Option (Unit × Nat)} (hheap : env.heap = a.env.heap)
    (hold : d.stored (a.thread (.inl ())) = d.submitted () ip ++ site.before d.heap)
    (hp : ∀ jp call, (d.prog ())[jp]? = some call → d.createsCounter call = true →
      t ∈ call.tasks d.heap → p = some ((), jp))
    (jp : Nat) (call : DispatchCall) (t' : Nat) (hjp : (d.prog ())[jp]? = some call)
    (hcall : d.createsCounter call = true) (ht : t' ∈ call.tasks d.heap)
    (hmem : t' ∈ d.stored (.client ip (d.addEntry t site))) :
    ((env.storePrivateData t p).heap.task t').privateData = some ((), jp) := by
  by_cases heq : t' = t
  · subst heq
    simpa [Env.storePrivateData] using hp jp call hjp hcall ht
  · rw [d.stored_addEntry, ← List.append_assoc, ← hold] at hmem
    have hmem' : t' ∈ d.stored (a.thread (.inl ())) := by simpa [heq] using hmem
    simpa [Env.storePrivateData, heq, hheap] using h.data jp call t' hjp hcall ht hmem'

/-- A call creates its counter. -/
theorem Counters.create (h : Counters d a) (hledger : Ledger d a) (htracked : Tracked d a)
    (hd : d.Disciplined) {client : Unit} {ip n : Nat}
    (hk : a.thread (.inl client) = .client ip .ready)
    (hcall : (d.prog ())[ip]? = some call) (hn : (call.tasks d.heap).length = n)
    (hcounter : env.counter =
      Function.update a.env.counter ((), ip) (eventCounterCreate n))
    (hhistory : env.history = a.env.history) (hrun : k.runAt = none)
    (hdata : ∀ jp call t, (d.prog ())[jp]? = some call → d.createsCounter call = true →
      t ∈ call.tasks d.heap → t ∈ d.stored k → (env.heap.task t).privateData = some ((), jp))
    (hcreated : ∀ jp, k.created jp → jp < ip ∨ jp = ip) :
    Counters d { a with env := env, thread := Function.update a.thread (.inl client) k } := by
  have hready : ¬ (a.thread (.inl ())).created ip := by
    rw [show a.thread (.inl ()) = .client ip .ready from hk]
    simp [Local.created]
  have hsame : ∀ v, (Function.update a.thread (.inl client) k v).signalling =
      (a.thread v).signalling := by
    intro v
    by_cases hv : v = .inl client
    · rw [hv, Function.update_self, hk, Local.signalling_of_not_run hrun]
      rfl
    · rw [Function.update_of_ne hv]
  have htally : ∀ c, tally (Local.sending c) (Function.update a.thread (.inl client) k) =
      tally (Local.sending c) a.thread := by
    intro c
    unfold tally Local.sending
    simp only [hsame]
  -- nobody signals the counter that does not exist yet
  have hfresh : ∀ v t at_, (a.thread v).signalling ≠ some (t, ((), ip), at_) := by
    intro v t at_ hsig
    exact hready (h.created_of_ref hledger htracked hd hsig)
  constructor
  · intro jp call t hjp hc ht hmem
    exact hdata jp call t hjp hc ht (by simpa using hmem)
  · intro v t c at_ hv
    exact h.refs v t c at_ ((hsame v).symm.trans hv)
  · intro jp call' hjp hc hcr
    simp only [hcounter, hhistory]
    by_cases heq : jp = ip
    · subst heq
      rw [hcall] at hjp
      cases hjp
      rw [Function.update_self]
      change n = _
      rw [← hn]
      symm
      rw [List.countP_eq_length]
      intro t ht
      refine decide_eq_true fun hsig => hready ?_
      exact htracked.created_of_stored hd hcall ht
        (d.added_subset_stored _ (hledger.mem_added_of_signalled hsig))
    · rw [Function.update_of_ne (by simpa using heq)]
      apply h.count jp call' hjp hc
      rw [show a.thread (.inl ()) = .client ip .ready from hk]
      rcases hcreated jp (by simpa using hcr) with hlt | hjp'
      · exact Or.inl hlt
      · exact absurd hjp' heq
  · intro c v
    simp only [hcounter, Local.HoldsCounter, hsame]
    by_cases heq : c = ((), ip)
    · subst heq
      rw [Function.update_self]
      constructor
      · intro hlock
        cases hlock
      · rintro ⟨t, at_, hsig, -⟩
        exact absurd hsig (hfresh v t at_)
    · rw [Function.update_of_ne heq]
      exact h.lock c v
  · intro jp call' hjp hc hne
    simpa only [hhistory, htally] using h.token jp call' hjp hc hne
  · intro c
    simp only [hcounter, hhistory]
    by_cases heq : c = ((), ip)
    · subst heq
      rw [Function.update_self]
      exact Nat.zero_le _
    · rw [Function.update_of_ne heq]
      exact h.tokens c
  · intro v t c hv
    rw [hsame] at hv
    by_cases heq : c = ((), ip)
    · exact absurd (heq ▸ hv) (hfresh v t _)
    · simp only [hcounter]
      rw [Function.update_of_ne heq]
      exact h.notLast v t c hv

/-- The number of tasks of a call that have not signalled. -/
def DispatchConfig.missing (d : DispatchConfig Unit N β υ) (env : Env Unit N β υ)
    (call : DispatchCall) : Nat :=
  (call.tasks d.heap).countP fun t => decide (t ∉ env.history.signalled)

/-- A step of a thread that signals a counter concerns that counter only. -/
theorem Counters.signal (h : Counters d a) {n : Nat} (env : Env Unit N β υ) (k : Local Unit)
    (href : ∃ call, (d.prog ())[n]? = some call ∧ d.createsCounter call = true ∧
      t ∈ call.tasks d.heap)
    (hsig : (a.thread u).signalling = none ∨
      ∃ at_, (a.thread u).signalling = some (t, ((), n), at_))
    (hk : k.signalling = none ∨ ∃ at', k.signalling = some (t, ((), n), at'))
    (hheap : env.heap = a.env.heap)
    (hstored : d.stored (Function.update a.thread u k (.inl ())) =
      d.stored (a.thread (.inl ())))
    (hcreated : ∀ jp, (Function.update a.thread u k (.inl ())).created jp →
      (a.thread (.inl ())).created jp)
    (hcounter : ∀ jp, jp ≠ n → env.counter ((), jp) = a.env.counter ((), jp))
    (hsent : ∀ jp, jp ≠ n → env.history.tokenSent.count ((), jp) =
      a.env.history.tokenSent.count ((), jp))
    (hmissing : ∀ jp call, jp ≠ n → (d.prog ())[jp]? = some call →
      d.missing env call = d.missing a.env call)
    (hcount : ∀ call, (d.prog ())[n]? = some call →
      (env.counter ((), n)).count = d.missing env call)
    (hlock : OwnedBy (env.counter ((), n)).lock (Local.HoldsCounter ((), n))
      (Function.update a.thread u k))
    (htoken : ∀ call, (d.prog ())[n]? = some call →
      env.history.tokenSent.count ((), n) + k.sending ((), n) +
        (if d.missing a.env call = 0 then 1 else 0) =
      a.env.history.tokenSent.count ((), n) + (a.thread u).sending ((), n) +
        if d.missing env call = 0 then 1 else 0)
    (htokens : (env.counter ((), n)).tokens ≤ env.history.tokenSent.count ((), n))
    (hlast : ∀ v t', (Function.update a.thread u k v).signalling =
      some (t', ((), n), .signalUnlock ((), n) false) → 0 < (env.counter ((), n)).count) :
    Counters d { a with env := env, thread := Function.update a.thread u k } := by
  have hcases : ∀ v t' c' at', (Function.update a.thread u k v).signalling =
      some (t', c', at') → (t' = t ∧ c' = ((), n)) ∨
        (a.thread v).signalling = some (t', c', at') := by
    intro v t' c' at' hv
    by_cases hvu : v = u
    · subst hvu
      rw [Function.update_self] at hv
      rcases hk with hnone | ⟨at'', hsome⟩
      · rw [hnone] at hv
        cases hv
      · rw [hsome] at hv
        cases hv
        exact Or.inl ⟨rfl, rfl⟩
    · rw [Function.update_of_ne hvu] at hv
      exact Or.inr hv
  have htally : ∀ c', tally (Local.sending c') (Function.update a.thread u k) +
      (a.thread u).sending c' = tally (Local.sending c') a.thread + k.sending c' :=
    fun c' => tally_update (Local.sending c') a.thread u k
  have hother : ∀ jp, jp ≠ n → (a.thread u).sending ((), jp) = 0 ∧ k.sending ((), jp) = 0 := by
    intro jp hne
    have hne' : n ≠ jp := fun heq => hne heq.symm
    constructor
    · rcases hsig with hnone | ⟨at_, hsome⟩
      · exact Local.sending_of_none hnone
      · rw [Local.sending_eq hsome]
        simp [hne']
    · rcases hk with hnone | ⟨at', hsome⟩
      · exact Local.sending_of_none hnone
      · rw [Local.sending_eq hsome]
        simp [hne']
  constructor
  · intro jp call t hjp hc ht hmem
    rw [hheap]
    exact h.data jp call t hjp hc ht (hstored ▸ hmem)
  · intro v t' c' at' hv
    rcases hcases v t' c' at' hv with ⟨rfl, rfl⟩ | hv
    · exact href
    · exact h.refs v t' c' at' hv
  · intro jp call hjp hc hcr
    by_cases heq : jp = n
    · subst heq
      exact hcount call hjp
    · have hold := h.count jp call hjp hc (hcreated jp hcr)
      have hsame := hmissing jp call heq hjp
      unfold DispatchConfig.missing at hsame
      rw [hcounter jp heq]
      exact hold.trans hsame.symm
  · rintro ⟨⟨⟩, jp⟩
    by_cases heq : jp = n
    · subst heq
      exact hlock
    · change OwnedBy (env.counter ((), jp)).lock _ _
      rw [hcounter jp heq]
      apply (h.lock ((), jp)).keep
      have hne : n ≠ jp := fun heq' => heq heq'.symm
      have hnot : ¬ (a.thread u).HoldsCounter ((), jp) := by
        rcases hsig with hnone | ⟨at_, hsome⟩
        · exact Local.not_holdsCounter hnone
        · simp [Local.holdsCounter_iff hsome, hne]
      have hnot' : ¬ k.HoldsCounter ((), jp) := by
        rcases hk with hnone | ⟨at', hsome⟩
        · exact Local.not_holdsCounter hnone
        · simp [Local.holdsCounter_iff hsome, hne]
      exact iff_of_false hnot' hnot
  · intro jp call hjp hc hne
    have hsum := h.token jp call hjp hc hne
    have hupdate := htally ((), jp)
    change env.history.tokenSent.count ((), jp) +
      tally (Local.sending ((), jp)) (Function.update a.thread u k) =
        if d.missing env call = 0 then 1 else 0
    change _ = if d.missing a.env call = 0 then 1 else 0 at hsum
    by_cases heq : jp = n
    · subst heq
      have hnew := htoken call hjp
      omega
    · rcases hother jp heq with ⟨h₁, h₂⟩
      rw [hsent jp heq, hmissing jp call heq hjp]
      omega
  · rintro ⟨⟨⟩, jp⟩
    by_cases heq : jp = n
    · subst heq
      exact htokens
    · change (env.counter ((), jp)).tokens ≤ env.history.tokenSent.count ((), jp)
      rw [hcounter jp heq, hsent jp heq]
      exact h.tokens ((), jp)
  · rintro v t' ⟨⟨⟩, jp⟩ hv
    by_cases heq : jp = n
    · subst heq
      exact hlast v t' hv
    · rcases hcases v t' _ _ hv with ⟨-, hjp⟩ | hv
      · cases hjp
        exact absurd rfl heq
      · change 0 < (env.counter ((), jp)).count
        rw [hcounter jp heq]
        exact h.notLast v t' _ hv

/-- A client that stays in a call has created the same counters. -/
theorem Local.created_of_same {ip : Nat} {pc pc' : ClientPc Unit} (hpc : pc ≠ .ready)
    (hcr : (Local.client ip pc').created jp) : (Local.client ip pc).created jp :=
  hcr.imp_right fun hjp => ⟨hjp.1, hpc⟩

/-- A client that returns from a call has created the same counters. -/
theorem Local.created_of_next {ip : Nat} {pc : ClientPc Unit} (hpc : pc ≠ .ready)
    (hcr : (Local.client (ip + 1) .ready).created jp) : (Local.client ip pc).created jp := by
  have hlt : jp < ip + 1 := by simpa [Local.created] using hcr
  rcases Nat.lt_succ_iff_lt_or_eq.mp hlt with hlt | heq
  · exact Or.inl hlt
  · exact Or.inr ⟨heq, hpc⟩

theorem Local.created_of_site {ip : Nat} {site : AddSite Unit} {pc : ClientPc Unit}
    (hpc : pc ≠ .ready) (hcr : (site.next ip).created jp) :
    (Local.client ip pc).created jp := by
  cases site with
  | task => exact Local.created_of_next hpc hcr
  | member g i counter => exact Local.created_of_same hpc hcr

/-- A statement of {lit}`run_task` leaves alone what the client has set and started. -/
theorem Tracked.client_runNext (h : Tracked d a) (hrun : (a.thread u).runAt = some (t, at_))
    (r : Option (RunPc Unit)) :
    d.stored (Function.update a.thread u ((a.thread u).runNext r) (.inl ())) =
      d.stored (a.thread (.inl ())) ∧
    ∀ jp, (Function.update a.thread u ((a.thread u).runNext r) (.inl ())).created jp →
      (a.thread (.inl ())).created jp := by
  by_cases hu : Sum.inl () = u
  · subst hu
    simp only [Function.update_self]
    have hc := h.client ()
    cases hk : a.thread (.inl ()) with
    | worker pc =>
        rw [hk] at hc
        cases hc
    | client ip pc =>
        rw [hk] at hc hrun
        cases pc with
        | pitch t' site at' =>
            have hsite : d.SiteAt () ip t' site := hc
            cases r with
            | some at'' => exact ⟨rfl, fun jp => Local.created_of_same (by simp)⟩
            | none => exact ⟨hsite.stored_next, fun jp => Local.created_of_site (by simp)⟩
        | _ => cases hrun
  · rw [Function.update_of_ne hu]
    exact ⟨rfl, fun _ hcr => hcr⟩

end Invariant

end Metal
end LibDispatch
