import LibDispatch.Metal.Messages

/-!
# Reading the nodes of the waiters

{lit}`condition_variable_wait` links a node that lives in its own stack frame, and the two
waking loops read the fields {lit}`cend` and {lit}`next` of the first node, the second after
the byte has been output.  A thread that was sent a signal needs the mutex, which the thread
that broadcasts holds, so its frame outlives the read.  A thread that was sent the byte that
ends its wait needs nothing more, and its frame is gone as soon as it has run.

Main results:

- Theorem {lit}`woken_of_reachable`: a waiter whose signal is out has not returned while
  the broadcast goes on.
- Theorem {lit}`Traversal.exact`: the threads woken so far and those still on the list are
  those that were on it when the spinlock was taken.
- Theorem {lit}`Traversal.outrun`: a waiter that {lit}`condition_variable_terminate` wakes
  can return before its node is read.
- Theorem {lit}`waiter_nodes_alive`: the traversals of which all reads are safe are those
  of a broadcast and those of an empty list.
-/

namespace LibDispatch
namespace Metal

variable {ι χ α κ μ : Type}

/-! ## Reads of a node -/

/-- The position of a thread in a waking loop. -/
def Thread.turn : Thread κ α → Option WakePc
  | .inside _ (.broadcast _ at_) | .inside _ (.terminate at_) => some at_
  | _ => none

/-- The byte that a thread in a waking loop outputs. -/
def Thread.sends : Thread κ α → Option ConditionEvent
  | .inside _ (.broadcast _ _) => some .signal
  | .inside _ (.terminate _) => some .terminate
  | _ => none

/-- The thread has linked its node and has not returned from
{lit}`condition_variable_wait`. -/
def Thread.Linked : Thread κ α → Prop
  | .inside _ (.wait _ at_) => match at_ with
      | .unlock | .release | .chanIn | .reacquire | .leave => True
      | .lock | .link => False
  | _ => False

/-- {lit}`Thread.Linked` as a test. -/
def Thread.linked : Thread κ α → Bool
  | .inside _ (.wait _ at_) => at_ ≠ .lock ∧ at_ ≠ .link
  | _ => false

theorem Thread.linked_iff {th : Thread κ α} : th.linked = true ↔ th.Linked := by
  cases th with
  | outside k => simp [Thread.linked, Thread.Linked]
  | inside k pc =>
      cases pc with
      | wait op at_ => cases at_ <;> simp [Thread.linked, Thread.Linked]
      | _ => simp [Thread.linked, Thread.Linked]

instance (th : Thread κ α) : Decidable th.Linked :=
  decidable_of_iff _ Thread.linked_iff

/-- The next statement of thread {lit}`t` reads {lit}`cv->waiters->cend` or
{lit}`cv->waiters->next`, where {lit}`cv->waiters` is the node of {lit}`w`. -/
def State.Reads (s : State ι χ α κ μ) (t w : ι) : Prop :=
  s.queue.waiters = some w ∧
    ((s.thread t).turn = some .test ∨ (s.thread t).turn = some .unlink)

/-- Every node that is read belongs to a thread that has not returned. -/
def NodesAlive (s : State ι χ α κ μ) : Prop :=
  ∀ t w, s.Reads t w → (s.thread w).Linked

theorem Thread.linked_of_awaiting {th : Thread κ α} (h : th.phase = .awaiting) :
    th.Linked := by
  cases th with
  | outside k => cases h
  | inside k pc =>
      cases pc with
      | wait op at_ => cases at_ <;> first | exact True.intro | cases h
      | broadcast result at_ => cases at_ <;> cases h
      | terminate at_ => cases at_ <;> cases h
      | _ => cases h

theorem Thread.turn_eq_some {th : Thread κ α} {at_ : WakePc} (h : th.turn = some at_) :
    (∃ k result, th = .inside k (.broadcast result at_)) ∨
      ∃ k, th = .inside k (.terminate at_) := by
  cases th with
  | outside k => cases h
  | inside k pc =>
      cases pc with
      | broadcast result at_ =>
          cases h
          exact Or.inl ⟨k, result, rfl⟩
      | terminate at_ =>
          cases h
          exact Or.inr ⟨k, rfl⟩
      | _ => cases h

section Steps

variable [DecidableEq ι] [DecidableEq χ] {wiring : Wiring ι χ} {q q' : Queue ι χ α} {t : ι}
  {pc : Pc α} {c : Control α}

/-- Only the owner of the spinlock touches the list of waiters. -/
theorem QueueStep.list_eq (h : QueueStep wiring q t pc q' c) (hpc : pc.holdsCvLock = false) :
    q'.node = q.node ∧ q'.waiters = q.waiters := by
  cases h with
  | waitLink op => cases hpc
  | broadcast result at_ at' _ hwake =>
      cases wakeStep_of_wake hwake with
      | unlink w hwaiters => cases hpc
      | _ => exact ⟨rfl, rfl⟩
  | terminate at_ at' _ hwake =>
      cases wakeStep_of_wake hwake with
      | unlink w hwaiters => cases hpc
      | _ => exact ⟨rfl, rfl⟩
  | overwrite item => split <;> exact ⟨rfl, rfl⟩
  | _ => exact ⟨rfl, rfl⟩

end Steps

/-! ## The broadcast -/

/-- The signal is in flight to the thread, or it has taken it and needs the mutex. -/
def State.SignalOut (wiring : Wiring ι χ) (s : State ι χ α κ μ) (w : ι) : Prop :=
  (s.phase w = .awaiting ∧ s.queue.inFlight (wiring.cend w) = [.signal]) ∨
    ∃ k op, s.thread w = .inside k (.wait op .reacquire)

theorem State.SignalOut.linked {wiring : Wiring ι χ} {s : State ι χ α κ μ} {w : ι}
    (h : s.SignalOut wiring w) : (s.thread w).Linked := by
  rcases h with ⟨hphase, -⟩ | ⟨k, op, hk⟩
  · exact Thread.linked_of_awaiting hphase
  · rw [hk]
    exact True.intro

section Broadcast

variable [DecidableEq ι] [DecidableEq χ] {wiring : Wiring ι χ} {caller : Caller ι κ μ α}
  {length : Nat} {env : μ} {start : ι → κ} {s s' : State ι χ α κ μ} {t w : ι}

/-- A step of another thread does not touch the list while the spinlock is held. -/
theorem list_eq_of_step (hl : Locked s) (ht : (s.thread t).HoldsCvLock) {u : ι} (hut : u ≠ t)
    (hstep : (threads wiring caller length env start).step s u = some s') :
    s'.queue.node = s.queue.node ∧ s'.queue.waiters = s.queue.waiters := by
  rcases threads_step_cases hstep with
    ⟨k, c, hk, -, rfl⟩ | ⟨k, k', env', hk, -, -, rfl⟩ | ⟨k, pc, q', c, hk, hq, rfl⟩
  · exact ⟨rfl, rfl⟩
  · exact ⟨rfl, rfl⟩
  · refine (queueStep_of_step hq).list_eq ?_
    by_contra hholds
    refine hut (hl.cvLock.exclusive ?_ ht)
    rw [hk]
    exact Bool.of_not_eq_false hholds

/-- A waiter whose signal is out stays in {lit}`condition_variable_wait` as long as some
thread holds the mutex. -/
theorem State.SignalOut.step (hcend : Function.Injective wiring.cend)
    (hr : (threads wiring caller length env start).Reachable s) (h : s.SignalOut wiring w)
    (ht : (s.thread t).HoldsMutex) {u : ι}
    (hstep : (threads wiring caller length env start).step s u = some s') :
    s'.SignalOut wiring w := by
  have hl := locked_of_reachable hr
  rcases waiting_of_reachable hcend hr with ⟨l, rest, hwaiting⟩
  by_cases hwu : w = u
  · subst hwu
    rcases threads_step_cases hstep with
      ⟨k, c, hk, -, rfl⟩ | ⟨k, k', env', hk, -, -, rfl⟩ | ⟨k, pc, q', c, hk, hq, rfl⟩
    · rcases h with ⟨hphase, -⟩ | ⟨k', op, hk'⟩
      · simp [State.phase, hk] at hphase
      · rw [hk] at hk'
        cases hk'
    · rcases h with ⟨hphase, -⟩ | ⟨k', op, hk'⟩
      · simp [State.phase, hk] at hphase
      · rw [hk] at hk'
        cases hk'
    · have hq := queueStep_of_step hq
      have hmutex : s.queue.mutex ≠ none := by
        rw [(hl.mutex t).mpr ht]
        simp
      rcases h with ⟨hphase, hbyte⟩ | ⟨k', op, hk'⟩
      · rw [State.phase, hk] at hphase
        have hcend' := hwaiting.cend w
        cases hq with
        | waitUnlock op => exact Or.inl ⟨by simp [State.phase, Control.phase, Pc.phase], hbyte⟩
        | waitRelease op => exact Or.inl ⟨by simp [State.phase, Control.phase, Pc.phase], hbyte⟩
        | chanInSignal op bytes _ => exact Or.inr ⟨k, op, by simp [Thread.resume]⟩
        | chanInTerminate op bytes hother =>
            rw [hcend', hbyte] at hother
            cases hother
        | broadcast result at_ at' _ hwake => cases at_ <;> cases hphase
        | terminate at_ at' _ hwake => cases at_ <;> cases hphase
        | _ => cases hphase
      · rw [hk] at hk'
        cases hk'
        cases hq with
        | reacquire _ hfree => exact absurd hfree hmutex
  · have hthread : s'.thread w = s.thread w := threads_step_frame hstep hwu
    rcases h with ⟨hphase, hbyte⟩ | ⟨k, op, hk⟩
    · left
      rw [State.phase, hthread]
      refine ⟨hphase, ?_⟩
      rw [hwaiting.byte_stays hcend hl hstep hwu (by simp [hbyte]), hbyte]
    · exact Or.inr ⟨k, op, hthread.trans hk⟩

/-- While a thread broadcasts and has output the byte of the first waiter, that waiter has
not returned. -/
theorem woken_of_reachable (hcend : Function.Injective wiring.cend)
    (hs : (threads wiring caller length env start).Reachable s) {k : κ} {result : Result α}
    {at_ : WakePc} (hk : s.thread t = .inside k (.broadcast result at_))
    (hwaking : at_.phase.Waking) (hw : s.queue.waiters = some w) : s.SignalOut wiring w := by
  revert t k result at_ w
  refine hs.invariant (P := fun s : State ι χ α κ μ => ∀ {t w : ι} {k : κ} {result : Result α}
    {at_ : WakePc}, s.thread t = .inside k (.broadcast result at_) → at_.phase.Waking →
    s.queue.waiters = some w → s.SignalOut wiring w) ?_ ?_
  · intro t w k result at_ hk
    simp [threads] at hk
  · intro s u s' hr hinv hstep t w k result at' hk hwaking hw
    have hl := locked_of_reachable hr
    rcases waiting_of_reachable hcend hr with ⟨l, rest, hwaiting⟩
    by_cases hut : u = t
    · subst hut
      have hstep' := hstep
      rcases threads_step_cases hstep with
        ⟨k₁, c, hk₁, -, rfl⟩ | ⟨k₁, k₂, env', hk₁, -, -, rfl⟩ | ⟨k₁, pc, q', c, hk₁, hq, rfl⟩
      · cases c <;> simp [Call.entry] at hk
      · simp at hk
      · cases c with
        | ret result' => simp [Thread.resume] at hk
        | goto pc' =>
            have hpc : pc' = .broadcast result at' := by
              simp only [Function.update_self, Thread.resume] at hk
              cases hk
              rfl
            subst hpc
            have hne : at' ≠ .lock := by
              rintro rfl
              simp [WakePc.phase] at hwaking
            rcases (queueStep_of_step hq).broadcast_cases hne with ⟨at_, rfl, hwake⟩
            cases hwake with
            | lock hfree => simp [WakePc.phase] at hwaking
            | testEmpty hwaiters => simp [WakePc.phase] at hwaking
            | send w' hwaiters =>
                have hww : w' = w := Option.some.inj (hwaiters.symm.trans hw)
                subst hww
                have hnone : ∀ b, ¬ (s.phase b).Waking := by
                  intro b hb
                  have hbt := hl.waking_eq (t := u) (by rw [hk₁]; rfl) hb
                  subst hbt
                  simp [State.phase, hk₁, Pc.phase, WakePc.phase] at hb
                rcases hwaiting.first hnone hwaiters with ⟨rest', -, -, hawaiting, hempty⟩
                have hwu : w' ≠ u := by
                  rintro rfl
                  simp [State.phase, hk₁, Pc.phase, WakePc.phase] at hawaiting
                left
                refine ⟨?_, ?_⟩
                · rw [State.phase_update, Function.update_of_ne hwu]
                  exact hawaiting
                · rw [hwaiting.bytes_of_send hcend .signal hwu, if_pos rfl, hempty]
                  rfl
            | ack htaken =>
                have hold := hinv hk₁ (by simp [WakePc.phase]) hw
                exact hold.step hcend hr (by rw [hk₁]; rfl) hstep'
            | unlink w' hwaiters => simp [WakePc.phase] at hwaking
    · have hthread : s'.thread t = s.thread t := threads_step_frame hstep (Ne.symm hut)
      rw [hthread] at hk
      have hcv : (s.thread t).HoldsCvLock := by
        rw [hk]
        have hphase : (Pc.broadcast result at').phase.Waking := hwaking
        exact Pc.holdsCvLock_of_waking hphase
      have hwaiters := (list_eq_of_step hl hcv hut hstep).2
      rw [hw] at hwaiters
      exact (hinv hk hwaking hwaiters.symm).step hcend hr (by rw [hk]; rfl) hstep

end Broadcast

/-! ## Traversals -/

/-- The thread that the next step of {lit}`t` outputs a byte to, when {lit}`t` takes the step. -/
def wokenBy [DecidableEq ι] (t : ι) (s : State ι χ α κ μ) (u : ι) : List ι :=
  if u = t ∧ (s.thread t).turn = some .test then s.queue.waiters.toList else []

/-- {lit}`Traversal S t s₀ s woken`: thread {lit}`t` took the spinlock for a waking loop in the
state {lit}`s₀`, which has come to {lit}`s` in the steps of all threads, and has output a byte
to the threads {lit}`woken`. -/
inductive Traversal [DecidableEq ι] (S : System (State ι χ α κ μ) ι) (t : ι)
    (s₀ : State ι χ α κ μ) : State ι χ α κ μ → List ι → Prop
  | lock {s : State ι χ α κ μ} (hturn : (s₀.thread t).turn = some .lock)
      (hstep : S.step s₀ t = some s) : Traversal S t s₀ s []
  | step {s s' : State ι χ α κ μ} {u : ι} {woken : List ι} (h : Traversal S t s₀ s woken)
      (hheld : s.queue.cvLock = some t) (hstep : S.step s u = some s') :
      Traversal S t s₀ s' (woken ++ wokenBy t s u)

/-- All reads of a traversal are safe, and it wakes the threads enlisted when it took the
spinlock, each once, until the list is empty. -/
def TraversalSafe [DecidableEq ι] (S : System (State ι χ α κ μ) ι) (t : ι)
    (s₀ : State ι χ α κ μ) : Prop :=
  ∀ s woken, Traversal S t s₀ s woken → s.queue.cvLock = some t →
    (∀ w, s.Reads t w → (s.thread w).Linked) ∧
    ∃ l, PointerChain.Chain (fun u => (s₀.queue.node u).next) s₀.queue.waiters l ∧ l.Nodup ∧
      woken <+: l ∧ ((s.thread t).turn = some .unlock → woken = l ∧ s.queue.waiters = none)

/-- How far a traversal has come through the list {lit}`l`: the threads woken so far, and the
list {lit}`l'` that is still linked. -/
def WakePc.Reached (l woken l' : List ι) : WakePc → Prop
  | .lock | .test => l = woken ++ l'
  | .ack | .unlink => ∃ w rest before, l' = w :: rest ∧ woken = before ++ [w] ∧
      l = woken ++ rest
  | .unlock => l' = [] ∧ l = woken

section Traversals

variable [DecidableEq ι] [DecidableEq χ] {wiring : Wiring ι χ} {caller : Caller ι κ μ α}
  {length : Nat} {env : μ} {start : ι → κ} {s₀ s s' : State ι χ α κ μ} {t w : ι}
  {l l' woken : List ι}

omit [DecidableEq ι] in
/-- The threads woken so far are the first ones of the list. -/
theorem WakePc.Reached.woken_le {at_ : WakePc} (h : at_.Reached l woken l') : woken <+: l := by
  cases at_ with
  | ack =>
      rcases h with ⟨w, rest, before, -, -, rfl⟩
      exact List.prefix_append woken rest
  | unlink =>
      rcases h with ⟨w, rest, before, -, -, rfl⟩
      exact List.prefix_append woken rest
  | unlock => simp [h.2]
  | lock => exact ⟨l', Eq.symm h⟩
  | test => exact ⟨l', Eq.symm h⟩

omit [DecidableEq ι] in
/-- When there is a first linked thread, the list was not empty. -/
theorem WakePc.Reached.ne_nil {at_ : WakePc} (h : at_.Reached l woken l') (hl' : l' ≠ []) :
    l ≠ [] := by
  cases at_ with
  | ack =>
      rcases h with ⟨w, rest, before, -, rfl, rfl⟩
      simp
  | unlink =>
      rcases h with ⟨w, rest, before, -, rfl, rfl⟩
      simp
  | unlock => exact absurd h.1 hl'
  | lock =>
      have hl : l = woken ++ l' := h
      simp [hl, hl']
  | test =>
      have hl : l = woken ++ l' := h
      simp [hl, hl']

omit [DecidableEq ι] in
/-- A turn of the waking loop wakes the first of the linked threads, or unlinks it. -/
theorem WakeStep.reached {evt : ConditionEvent} {q q' : Queue ι χ α} {at_ at' : WakePc}
    (h : WakeStep evt wiring q t at_ q' at')
    (hchain : PointerChain.Chain (fun u => (q.node u).next) q.waiters l')
    (hreached : at_.Reached l woken l') :
    ∃ l'', PointerChain.Chain (fun u => (q'.node u).next) q'.waiters l'' ∧
      at'.Reached l (woken ++ if at_ = .test then q.waiters.toList else []) l'' := by
  cases h with
  | lock hfree => exact ⟨l', hchain, by simpa [WakePc.Reached] using hreached⟩
  | testEmpty hwaiters =>
      have hnil : l' = [] := by
        rw [hwaiters] at hchain
        exact hchain.eq_nil
      subst hnil
      have hl : l = woken ++ [] := hreached
      exact ⟨[], hchain, by simp [WakePc.Reached, hl, hwaiters]⟩
  | send w hwaiters =>
      have hcons := hchain
      rw [hwaiters] at hcons
      rcases hcons.eq_cons with ⟨rest, rfl, -⟩
      have hl : l = woken ++ w :: rest := hreached
      exact ⟨w :: rest, hchain, w, rest, woken, rfl, by simp [hwaiters], by simp [hl, hwaiters]⟩
  | ack htaken => exact ⟨l', hchain, by simpa [WakePc.Reached] using hreached⟩
  | unlink w hwaiters =>
      rcases hreached with ⟨w', rest, before, rfl, rfl, rfl⟩
      rw [hwaiters] at hchain
      rcases hchain with ⟨heq, hrest⟩
      cases heq
      exact ⟨rest, hrest, by simp [WakePc.Reached]⟩

/-- A step inside a waking loop leaves it or is a turn of it. -/
theorem threads_step_turn {at_ : WakePc} (hturn : (s.thread t).turn = some at_)
    (hstep : (threads wiring caller length env start).step s t = some s') :
    (at_ = .unlock ∧ s'.queue.cvLock = none) ∨
    ∃ evt at', WakeStep evt wiring s.queue t at_ s'.queue at' ∧
      (s'.thread t).turn = some at' ∧ (s'.thread t).sends = (s.thread t).sends := by
  have hinside : ∃ k pc, s.thread t = .inside k pc := by
    rcases Thread.turn_eq_some hturn with ⟨k, result, hk⟩ | ⟨k, hk⟩
    · exact ⟨k, _, hk⟩
    · exact ⟨k, _, hk⟩
  rcases hinside with ⟨k₀, pc₀, hk₀⟩
  rcases threads_step_cases hstep with
    ⟨k, c, hk, -, rfl⟩ | ⟨k, k', env', hk, -, -, rfl⟩ | ⟨k, pc, q', c, hk, hq, rfl⟩
  · rw [hk₀] at hk
    cases hk
  · rw [hk₀] at hk
    cases hk
  · rw [hk] at hturn
    cases queueStep_of_step hq with
    | broadcast result at₁ at' _ hwake =>
        cases hturn
        exact Or.inr ⟨_, at', wakeStep_of_wake hwake, by simp [Thread.turn, Thread.resume],
          by simp [Thread.sends, Thread.resume, hk]⟩
    | terminate at₁ at' _ hwake =>
        cases hturn
        exact Or.inr ⟨_, at', wakeStep_of_wake hwake, by simp [Thread.turn, Thread.resume],
          by simp [Thread.sends, Thread.resume, hk]⟩
    | broadcastDone result =>
        cases hturn
        exact Or.inl ⟨rfl, rfl⟩
    | terminateDone =>
        cases hturn
        exact Or.inl ⟨rfl, rfl⟩
    | _ => cases hturn

/-- While a traversal goes on, the threads it has woken and those still to be woken are the
threads enlisted when it took the spinlock. -/
theorem Traversal.exact (hs₀ : (threads wiring caller length env start).Reachable s₀)
    (hchain₀ : PointerChain.Chain (fun u => (s₀.queue.node u).next) s₀.queue.waiters l)
    (h : Traversal (threads wiring caller length env start) t s₀ s woken)
    (hheld : s.queue.cvLock = some t) :
    (threads wiring caller length env start).Reachable s ∧
    (s.thread t).sends = (s₀.thread t).sends ∧ ∃ at_, (s.thread t).turn = some at_ ∧
      ∃ l', PointerChain.Chain (fun u => (s.queue.node u).next) s.queue.waiters l' ∧
        at_.Reached l woken l' := by
  induction h with
  | lock hturn hstep =>
      refine ⟨hs₀.step hstep, ?_⟩
      rcases threads_step_turn hturn hstep with ⟨heq, -⟩ | ⟨evt, at', hwake, hturn', hsends⟩
      · cases heq
      · have hreached₀ : WakePc.lock.Reached l [] l := rfl
        rcases hwake.reached hchain₀ hreached₀ with ⟨l', hchain, hreached⟩
        exact ⟨hsends, at', hturn', l', hchain, by simpa using hreached⟩
  | @step s s' u woken h hheld' hstep ih =>
      rcases ih hheld' with ⟨hs, hsends, at_, hturn, l', hchain, hreached⟩
      refine ⟨hs.step hstep, ?_⟩
      have hl := locked_of_reachable hs
      by_cases hut : u = t
      · subst hut
        rcases threads_step_turn hturn hstep with
          ⟨-, hnone⟩ | ⟨evt, at', hwake, hturn', hsends'⟩
        · rw [hnone] at hheld
          cases hheld
        · rcases hwake.reached hchain hreached with ⟨l'', hchain', hreached'⟩
          refine ⟨hsends'.trans hsends, at', hturn', l'', hchain', ?_⟩
          simpa [wokenBy, hturn] using hreached'
      · have hthread : s'.thread t = s.thread t := threads_step_frame hstep (Ne.symm hut)
        have hcv : (s.thread t).HoldsCvLock := (hl.cvLock t).mp hheld'
        rcases list_eq_of_step hl hcv hut hstep with ⟨hnode, hwaiters⟩
        refine ⟨by rw [hthread, hsends], at_, by rw [hthread, hturn], l', ?_, ?_⟩
        · rw [hnode, hwaiters]
          exact hchain
        · simpa [wokenBy, hut] using hreached

/-- A waiter that has been sent the byte that ends its wait can return while the traversal
stays where it is. -/
theorem Traversal.waiter_leaves
    (h : Traversal (threads wiring caller length env start) t s₀ s woken)
    (hheld : s.queue.cvLock = some t) (hwt : w ≠ t) {k : κ} {op : QueueOp α} {at_ : WaitPc}
    (hk : s.thread w = .inside k (.wait op at_)) (hat : at_ = .release ∨ at_ = .chanIn)
    (hbyte : s.queue.inFlight (s.queue.node w).cend = [.terminate]) :
    ∃ s' woken', Traversal (threads wiring caller length env start) t s₀ s' woken' ∧
      s'.queue.cvLock = some t ∧ s'.queue.waiters = s.queue.waiters ∧
      s'.queue.dest = s.queue.dest ∧ s'.queue.inFlight (s.queue.node w).cend = [] ∧
      s'.thread t = s.thread t ∧ ∃ k', s'.thread w = .outside k' := by
  -- the input itself
  have hinput : ∀ s woken, Traversal (threads wiring caller length env start) t s₀ s woken →
      s.queue.cvLock = some t → s.thread w = .inside k (.wait op .chanIn) →
      s.queue.inFlight (s.queue.node w).cend = [.terminate] →
      ∃ s' woken', Traversal (threads wiring caller length env start) t s₀ s' woken' ∧
        s'.queue.cvLock = some t ∧ s'.queue.waiters = s.queue.waiters ∧
        s'.queue.dest = s.queue.dest ∧ s'.queue.inFlight (s.queue.node w).cend = [] ∧
        s'.thread t = s.thread t ∧ ∃ k', s'.thread w = .outside k' := by
    intro s woken h hheld hk hbyte
    have hq : s.queue.step wiring w (.wait op .chanIn) = some ({ s.queue with
        inFlight := Function.update s.queue.inFlight (s.queue.node w).cend [] },
        .goto (.wait op .leave)) := by
      simp [Queue.step, conditionVariableWait, hbyte]
    have htaken := h.step hheld (threads_step_inside hk hq)
    have hleave := htaken.step hheld
      (threads_step_inside (Function.update_self _ _ _) (c := .ret .terminated) rfl)
    refine ⟨_, _, hleave, hheld, rfl, rfl, Function.update_self _ _ _, ?_, ?_⟩
    · simp [hwt.symm]
    · exact ⟨_, Function.update_self _ _ _⟩
  rcases hat with rfl | rfl
  · have hq : s.queue.step wiring w (.wait op .release) =
        some ({ s.queue with mutex := none }, .goto (.wait op .chanIn)) := rfl
    have hrelease := h.step hheld (threads_step_inside hk hq)
    rcases hinput _ _ hrelease hheld (Function.update_self _ _ _) hbyte with
      ⟨s', woken', h', hheld', hwaiters, hdest, hflight, ht, hout⟩
    refine ⟨s', woken', h', hheld', hwaiters, hdest, hflight, ?_, hout⟩
    exact ht.trans (Function.update_of_ne hwt.symm _ _)
  · exact hinput s woken h hheld hk hbyte

/-- A waiter that is woken by {lit}`condition_variable_terminate` can return before the field
{lit}`next` of its node is read. -/
theorem Traversal.outrun (hcend : Function.Injective wiring.cend)
    (hs₀ : (threads wiring caller length env start).Reachable s₀)
    {k : κ} (hk : s₀.thread t = .inside k (.terminate .lock)) (hfree : s₀.queue.cvLock = none)
    (hw : s₀.queue.waiters = some w) :
    ∃ s woken, Traversal (threads wiring caller length env start) t s₀ s woken ∧
      s.queue.cvLock = some t ∧ s.Reads t w ∧ ¬ (s.thread w).Linked := by
  have hl := locked_of_reachable hs₀
  have hcv := hl.cvLock
  rw [hfree] at hcv
  rcases waiting_of_reachable hcend hs₀ with ⟨l, rest, hwaiting⟩
  have hnone : ∀ b, ¬ (s₀.phase b).Waking := by
    intro b hb
    unfold State.phase at hb
    cases hkb : s₀.thread b with
    | outside k => simp [hkb] at hb
    | inside k pc =>
        rw [hkb] at hb
        exact hcv.not_holds_of_free b (by simpa [hkb] using Pc.holdsCvLock_of_waking hb)
  rcases hwaiting.first hnone hw with ⟨rest', -, -, hawaiting, hempty⟩
  have hwt : w ≠ t := by
    rintro rfl
    simp [State.phase, hk, Pc.phase, WakePc.phase] at hawaiting
  -- a waiter that does not hold the spinlock is about to release the mutex, or reads
  have hreading : ∃ kw op at_, s₀.thread w = .inside kw (.wait op at_) ∧
      (at_ = .release ∨ at_ = .chanIn) := by
    have hno := hcv.not_holds_of_free w
    unfold State.phase at hawaiting
    cases hkw : s₀.thread w with
    | outside kw => simp [hkw] at hawaiting
    | inside kw pc =>
        rw [hkw] at hawaiting hno
        cases pc with
        | wait op at_ =>
            cases at_ with
            | unlock => exact absurd rfl hno
            | release => exact ⟨kw, op, _, rfl, Or.inl rfl⟩
            | chanIn => exact ⟨kw, op, _, rfl, Or.inr rfl⟩
            | _ => cases hawaiting
        | broadcast result at_ => cases at_ <;> cases hawaiting
        | terminate at_ => cases at_ <;> cases hawaiting
        | _ => cases hawaiting
  rcases hreading with ⟨kw, op, at_, hkw, hat⟩
  -- the deleter takes the spinlock and outputs its byte
  have hsent : ∃ s woken, Traversal (threads wiring caller length env start) t s₀ s woken ∧
      s.queue.cvLock = some t ∧ s.queue.waiters = some w ∧ (s.queue.node w).cend = wiring.cend w ∧
      s.queue.dest (wiring.cend t) = wiring.cend w ∧
      s.queue.inFlight (wiring.cend w) = [.terminate] ∧
      s.thread t = .inside k (.terminate .ack) ∧ s.thread w = s₀.thread w := by
    have hlock : s₀.queue.step wiring t (.terminate .lock) =
        some ({ s₀.queue with cvLock := some t }, .goto (.terminate .test)) := by
      simp [Queue.step, conditionVariableTerminate, conditionVariableWake, hfree]
    have h₁ : Traversal (threads wiring caller length env start) t s₀ _ [] :=
      .lock (by rw [hk]; rfl) (threads_step_inside hk hlock)
    have hsend : Queue.step wiring { s₀.queue with cvLock := some t } t (.terminate .test) =
        some (conditionVariableSend { s₀.queue with cvLock := some t } (wiring.cend t)
          (s₀.queue.node w).cend .terminate, .goto (.terminate .ack)) := by
      simp [Queue.step, conditionVariableTerminate, conditionVariableWake, hw]
    have h₂ := h₁.step rfl (threads_step_inside (Function.update_self _ _ _) hsend)
    have hbyte := hwaiting.bytes_of_send hcend .terminate hwt w
    rw [if_pos rfl, hempty, List.nil_append] at hbyte
    refine ⟨_, _, h₂, rfl, hw, hwaiting.cend w, ?_, hbyte, Function.update_self _ _ _, ?_⟩
    · simp only [conditionVariableSend, hwaiting.cend w]
      rw [Function.update_of_ne (hcend.ne hwt.symm), Function.update_self]
    · simp [hwt]
  rcases hsent with ⟨s₂, woken, h₂, hheld, hwaiters, hcendw, hdest, hbyte, ht, hthread⟩
  -- the waiter takes the byte and returns
  rcases h₂.waiter_leaves hheld hwt (hthread.trans hkw) hat (by rw [hcendw, hbyte]) with
    ⟨s₃, woken₃, h₃, hheld₃, hwaiters₃, hdest₃, hflight₃, ht₃, kw', hw₃⟩
  -- the output returns, and the list is still in front of the deleter
  have hack : s₃.queue.step wiring t (.terminate .ack) =
      some (s₃.queue, .goto (.terminate .unlink)) := by
    rw [hcendw] at hflight₃
    simp [Queue.step, conditionVariableTerminate, conditionVariableWake, hdest₃, hdest, hflight₃]
  have h₄ := h₃.step hheld₃ (threads_step_inside (ht₃.trans ht) hack)
  refine ⟨_, _, h₄, hheld₃, ⟨hwaiters₃.trans hwaiters, Or.inr ?_⟩, ?_⟩
  · simp [Thread.resume, Thread.turn]
  · simp [Function.update_of_ne hwt, hw₃, Thread.Linked]

/-! ## Safe traversals -/

/-- At the test of a waking loop the first waiter awaits its byte. -/
theorem awaiting_of_test (hcend : Function.Injective wiring.cend)
    (hs : (threads wiring caller length env start).Reachable s)
    (hturn : (s.thread t).turn = some .test) (hw : s.queue.waiters = some w) :
    s.phase w = .awaiting := by
  rcases waiting_of_reachable hcend hs with ⟨l, rest, hwaiting⟩
  have hnone : ∀ b, ¬ (s.phase b).Waking := by
    intro b hb
    rcases Thread.turn_eq_some hturn with ⟨k, result, hk⟩ | ⟨k, hk⟩
    · have hbt := (locked_of_reachable hs).waking_eq (t := t) (by rw [hk]; rfl) hb
      subst hbt
      simp [State.phase, hk, Pc.phase, WakePc.phase] at hb
    · have hbt := (locked_of_reachable hs).waking_eq (t := t) (by rw [hk]; rfl) hb
      subst hbt
      simp [State.phase, hk, Pc.phase, WakePc.phase] at hb
  rcases hwaiting.first hnone hw with ⟨rest', -, -, hawaiting, -⟩
  exact hawaiting

/-- The reads of a broadcast are safe. -/
theorem linked_of_broadcast (hcend : Function.Injective wiring.cend)
    (hs : (threads wiring caller length env start).Reachable s)
    (hsends : (s.thread t).sends = some .signal) (hreads : s.Reads t w) :
    (s.thread w).Linked := by
  rcases hreads with ⟨hw, htest | hunlink⟩
  · exact Thread.linked_of_awaiting (awaiting_of_test hcend hs htest hw)
  · rcases Thread.turn_eq_some hunlink with ⟨k, result, hk⟩ | ⟨k, hk⟩
    · exact (woken_of_reachable hcend hs hk (by simp [WakePc.phase]) hw).linked
    · rw [hk] at hsends
      cases hsends

/-- The condition on a step: {lit}`condition_variable_terminate` takes the spinlock while no
thread is enlisted. -/
def terminateOk (s : State ι χ α κ μ) (t : ι) : Bool :=
  match s.thread t with
  | .inside _ (.terminate .lock) => s.queue.waiters.isNone
  | _ => true

/-- A traversal is safe exactly if it is one of a broadcast or the list is empty when it
takes the spinlock. -/
theorem traversalSafe_iff (hcend : Function.Injective wiring.cend)
    (hs₀ : (threads wiring caller length env start).Reachable s₀)
    (hturn : (s₀.thread t).turn = some .lock) (hfree : s₀.queue.cvLock = none) :
    TraversalSafe (threads wiring caller length env start) t s₀ ↔ terminateOk s₀ t = true := by
  constructor
  · intro hsafe
    rcases Thread.turn_eq_some hturn with ⟨k, result, hk⟩ | ⟨k, hk⟩
    · simp [terminateOk, hk]
    · simp only [terminateOk, hk, Option.isNone_iff_eq_none]
      by_contra hne
      rcases Option.ne_none_iff_exists'.mp hne with ⟨w, hw⟩
      rcases Traversal.outrun hcend hs₀ hk hfree hw with ⟨s, woken, h, hheld, hreads, hgone⟩
      exact hgone ((hsafe s woken h hheld).1 w hreads)
  · intro hok s woken h hheld
    have hempty : (s₀.thread t).sends = some .terminate → s₀.queue.waiters = none := by
      intro hsends
      rcases Thread.turn_eq_some hturn with ⟨k, result, hk⟩ | ⟨k, hk⟩
      · rw [hk] at hsends
        cases hsends
      · simpa [terminateOk, hk] using hok
    rcases waiting_of_reachable hcend hs₀ with ⟨l, rest, hwaiting₀⟩
    rcases h.exact hs₀ hwaiting₀.chain hheld with
      ⟨hs, hsends, at_, hturn', l', hchain, hreached⟩
    refine ⟨?_, l, hwaiting₀.chain, hwaiting₀.chain.nodup, hreached.woken_le, ?_⟩
    · intro w hreads
      rcases Thread.turn_eq_some hturn' with ⟨k, result, hk⟩ | ⟨k, hk⟩
      · exact linked_of_broadcast hcend hs (by rw [hk]; rfl) hreads
      · -- no waiter is linked in the course of this traversal
        rw [hk] at hsends
        have hnil : l = [] := by
          have hchain₀ := hwaiting₀.chain
          rw [hempty hsends.symm] at hchain₀
          exact hchain₀.eq_nil
        rw [hreads.1] at hchain
        rcases hchain.eq_cons with ⟨rest', rfl, -⟩
        exact absurd hnil (hreached.ne_nil (by simp))
    · intro hunlock
      rw [hturn'] at hunlock
      cases hunlock
      rcases hreached with ⟨rfl, rfl⟩
      exact ⟨rfl, hchain⟩

/-- When no thread is enlisted as {lit}`condition_variable_terminate` takes the spinlock, none
is in the course of its traversal. -/
theorem waiters_of_guarded
    (hs : ((threads wiring caller length env start).guarded
      fun s t => terminateOk s t = true).Reachable s)
    {k : κ} {at_ : WakePc} (hk : s.thread t = .inside k (.terminate at_)) (hne : at_ ≠ .lock) :
    s.queue.waiters = none := by
  revert t k at_
  refine hs.invariant (P := fun s : State ι χ α κ μ => ∀ {t : ι} {k : κ} {at_ : WakePc},
    s.thread t = .inside k (.terminate at_) → at_ ≠ .lock → s.queue.waiters = none) ?_ ?_
  · intro t k at_ hk
    simp [System.guarded, threads] at hk
  · intro s u s' hr hinv hstep t k at' hk hne
    rcases System.guarded_step.mp hstep with ⟨hok, hstep⟩
    have hl := locked_of_reachable hr.of_guarded
    by_cases hut : u = t
    · subst hut
      rcases threads_step_cases hstep with
        ⟨k₁, c, hk₁, -, rfl⟩ | ⟨k₁, k₂, env', hk₁, -, -, rfl⟩ | ⟨k₁, pc, q', c, hk₁, hq, rfl⟩
      · cases c with
        | delete =>
            simp only [Function.update_self, Call.entry] at hk
            cases hk
            exact absurd rfl hne
        | _ => simp [Call.entry] at hk
      · simp at hk
      · simp only [Function.update_self] at hk
        cases c with
        | ret result => cases hk
        | goto pc' =>
            cases hk
            rcases (queueStep_of_step hq).terminate_cases rfl with ⟨at_, rfl, hwake⟩
            cases hwake with
            | lock hfree => simpa [terminateOk, hk₁] using hok
            | testEmpty hwaiters => exact hwaiters
            | send w hwaiters =>
                have hnone := hinv hk₁ (by simp)
                rw [hwaiters] at hnone
                cases hnone
            | ack htaken => exact hinv hk₁ (by simp)
            | unlink w hwaiters =>
                have hnone := hinv hk₁ (by simp)
                rw [hwaiters] at hnone
                cases hnone
    · have hthread : s'.thread t = s.thread t := threads_step_frame hstep (Ne.symm hut)
      rw [hthread] at hk
      have hcv : (s.thread t).HoldsCvLock := by
        rw [hk]
        cases at' <;> first | rfl | exact absurd rfl hne
      rw [(list_eq_of_step hl hcv hut hstep).2]
      exact hinv hk hne

variable (caller length env start) in
/-- In every run in which no thread is enlisted when {lit}`condition_variable_terminate` takes
the spinlock, a node is read only while its owner has not returned from
{lit}`condition_variable_wait`.  And a traversal reads safely, in all runs that go on from
its start, and wakes exactly the threads enlisted there, each once, if and only if it meets
that condition. -/
theorem waiter_nodes_alive (hcend : Function.Injective wiring.cend) :
    (∀ s, ((threads wiring caller length env start).guarded
      fun s t => terminateOk s t = true).Reachable s → NodesAlive s) ∧
    ∀ s₀ t, (threads wiring caller length env start).Reachable s₀ →
      (s₀.thread t).turn = some .lock → s₀.queue.cvLock = none →
      (TraversalSafe (threads wiring caller length env start) t s₀ ↔
        terminateOk s₀ t = true) := by
  refine ⟨?_, fun s₀ t hs₀ hturn hfree => traversalSafe_iff hcend hs₀ hturn hfree⟩
  intro s hs t w hreads
  rcases hreads.2 with hturn | hturn
  · exact Thread.linked_of_awaiting (awaiting_of_test hcend hs.of_guarded hturn hreads.1)
  · rcases Thread.turn_eq_some hturn with ⟨k, result, hk⟩ | ⟨k, hk⟩
    · exact linked_of_broadcast hcend hs.of_guarded (by rw [hk]; rfl) hreads
    · have hnone := waiters_of_guarded hs hk (by simp)
      rw [hreads.1] at hnone
      cases hnone

end Traversals

/-! ## A broadcast and a deletion with one waiter -/

/-- The signal of the first send is taken before the node of the consumer is unlinked: the
consumer is still waiting for the mutex. -/
theorem waiter_nodes_alive_oneItem :
    ∃ s, (oneItem.guarded fun s t => terminateOk s t = true).Reachable s ∧ s.Reads 0 1 ∧
      (s.thread 1).Linked := by
  have hs := (oneItem.guarded fun s t => terminateOk s t = true).reachable_get_run
    (oneItemSchedule.take 18) (by decide)
  have halive := (waiter_nodes_alive (scriptCaller (pairScript [7])) 1 () (fun _ => 0)
    Function.injective_id).1 _ hs
  exact ⟨_, hs, ⟨rfl, Or.inr rfl⟩, halive 0 1 ⟨rfl, Or.inr rfl⟩⟩

/-- Thread 0 deletes the queue, thread 1 loops on {lit}`queue_receive`. -/
def oneDeleteScript (t : Fin 2) : Nat → Option (Call Nat) :=
  if t = 0 then fun n => if n = 0 then some .delete else none else consumer

/-- The two threads over a queue of one slot. -/
def oneDelete : System (State (Fin 2) (Fin 2) Nat Nat Unit) (Fin 2) :=
  threads ⟨id, true⟩ (scriptCaller oneDeleteScript) 1 () fun _ => 0

/-- The consumer goes to sleep. -/
def enlistSchedule : List (Fin 2) :=
  List.replicate 7 1

/-- Even when all other threads are enlisted before {lit}`queue_delete` is called: the
consumer takes its byte and returns, and then its node is read. -/
theorem waiter_node_gone :
    ¬ ∀ s₀ s, oneDelete.Reachable s₀ → s₀.thread 0 = .outside 0 →
      (∀ t, t ≠ 0 → s₀.queue.Enlisted t) → oneDelete.Steps s₀ s → NodesAlive s := by
  intro hclaim
  have hs₀ := oneDelete.reachable_get_run enlistSchedule (by decide)
  have hsteps := oneDelete.steps_get_run enlistSchedule [0, 0, 0, 1, 1, 0] (by decide) (by decide)
  have halive := hclaim _ _ hs₀ rfl ?_ hsteps 0 1 ⟨rfl, Or.inr rfl⟩
  · exact halive
  · intro t ht
    have ht : t = 1 := by omega
    subst ht
    exact ⟨[1], ⟨rfl, rfl⟩, List.mem_singleton_self 1⟩

end Metal
end LibDispatch
