import LibDispatch.Metal.Waiters

/-!
# No lost wake-up and no deadlock

A thread enlists under the mutex, after its predicate was tested, and sleeps only
after it has given the mutex back.  Whoever changes the queue in between broadcasts
before giving back the mutex, so that when nobody is changing the queue, the
enlisted threads are those that still have to wait.  From this follows which states
are stuck: those in which every thread has ended or waits for a predicate that
holds.

Main results:

- Theorem {lit}`blocked_of_reachable`: when no thread is changing the queue or
  broadcasting, the enlisted threads are those whose predicate still holds.
- Theorem {lit}`stuck_threads`: what the threads of a state without enabled steps do.
- Theorem {lit}`queue_no_lost_wakeup`: producers and consumers are never deadlocked,
  and a wait is never pointless while the mutex is free.
-/

namespace LibDispatch
namespace Metal

variable {ι χ α κ μ : Type}

/-! ## Positions that change the queue -/

/-- Positions between the decision to change the queue and the end of the loop that
wakes the waiters. -/
def Pc.updating : Pc α → Bool
  | .store _ | .overwrite _ | .advanceHead _ | .setFull _ => true
  | .load | .clearFull _ | .advanceTail _ => true
  | .broadcast _ at_ | .terminate at_ => at_ != .unlock
  | _ => false

/-- The queue is being changed after a step. -/
def Control.updating : Control α → Bool
  | .goto pc => pc.updating
  | .ret _ => false

/-- The thread is changing the queue. -/
def Thread.Updating : Thread κ α → Prop
  | .outside _ => False
  | .inside _ pc => pc.updating = true

@[simp]
theorem Thread.updating_outside (k : κ) : ¬ (Thread.outside k : Thread κ α).Updating :=
  id

@[simp]
theorem Thread.updating_inside (k : κ) (pc : Pc α) :
    (Thread.inside k pc).Updating ↔ pc.updating = true :=
  Iff.rfl

@[simp]
theorem Thread.updating_resume (caller : Caller ι κ μ α) (t : ι) (k : κ) (c : Control α) :
    (Thread.resume caller t k c).Updating ↔ c.updating = true := by
  cases c <;> simp [Thread.resume, Control.updating]

/-- A thread that is waking a waiter is changing the queue. -/
theorem Pc.updating_of_waking {pc : Pc α} (h : pc.phase.Waking) : pc.updating = true := by
  unfold Pc.phase at h
  split at h
  · split at h <;> simp at h
  · rename_i at_
    cases at_ <;> first | rfl | simp [WakePc.phase] at h
  · rename_i at_
    cases at_ <;> first | rfl | simp [WakePc.phase] at h
  · simp at h

/-- Outside {lit}`queue_delete` the queue is changed under the mutex. -/
theorem Pc.holdsMutex_of_updating {pc : Pc α} (h : pc.updating = true)
    (hpc : pc.pending ≠ some .delete) : pc.holdsMutex = true := by
  cases pc <;> first | rfl | exact absurd rfl hpc | cases h

/-- Outside {lit}`queue_delete` the spinlock is taken under the mutex. -/
theorem Pc.holdsMutex_of_holdsCvLock {pc : Pc α} (h : pc.holdsCvLock = true)
    (hpc : pc.pending ≠ some .delete) : pc.holdsMutex = true := by
  cases pc with
  | wait op at_ => cases at_ <;> first | rfl | cases h
  | _ => first | rfl | exact absurd rfl hpc | cases h

/-! ## The predicates of the waiters -/

section Steps

variable [DecidableEq ι] [DecidableEq χ] {wiring : Wiring ι χ} {q q' : Queue ι χ α} {t : ι}
  {pc : Pc α} {c : Control α}

omit [DecidableEq ι] in
theorem WakeStep.blocked_eq {evt : ConditionEvent} {at_ at' : WakePc}
    (h : WakeStep evt wiring q t at_ q' at') (op : QueueOp α) :
    op.blocked q' = op.blocked q := by
  cases h <;> cases op <;> rfl

/-- A step changes the predicates only under the mutex, and is then followed by a
broadcast. -/
theorem QueueStep.blocked_eq (h : QueueStep wiring q t pc q' c) (op : QueueOp α) :
    op.blocked q' = op.blocked q ∨ (pc.holdsMutex = true ∧ c.updating = true) := by
  cases h with
  | overwrite item => exact Or.inr ⟨rfl, rfl⟩
  | advanceHead item => exact Or.inr ⟨rfl, rfl⟩
  | setFull item => exact Or.inr ⟨rfl, rfl⟩
  | clearFull item => exact Or.inr ⟨rfl, rfl⟩
  | advanceTail item => exact Or.inr ⟨rfl, rfl⟩
  | broadcast result at_ at' _ hwake => exact Or.inl ((wakeStep_of_wake hwake).blocked_eq op)
  | terminate at_ at' _ hwake => exact Or.inl ((wakeStep_of_wake hwake).blocked_eq op)
  | _ =>
      left
      cases op <;> rfl

omit [DecidableEq ι] in
/-- The waking loop ends when the list of waiters is empty. -/
theorem WakeStep.updating_cases {evt : ConditionEvent} {at_ at' : WakePc}
    (h : WakeStep evt wiring q t at_ q' at') : at' ≠ .unlock ∨ q'.waiters = none := by
  cases h with
  | testEmpty hwaiters => exact Or.inr hwaiters
  | _ => exact Or.inl (by simp)

/-- Whoever is changing the queue goes on until the list of waiters is empty. -/
theorem QueueStep.updating_cases (h : QueueStep wiring q t pc q' c)
    (hpc : pc.updating = true) : c.updating = true ∨ q'.waiters = none := by
  cases h with
  | broadcast result at_ at' _ hwake =>
      rcases (wakeStep_of_wake hwake).updating_cases with hne | hnone
      · exact Or.inl (by simpa [Control.updating, Pc.updating] using hne)
      · exact Or.inr hnone
  | terminate at_ at' _ hwake =>
      rcases (wakeStep_of_wake hwake).updating_cases with hne | hnone
      · exact Or.inl (by simpa [Control.updating, Pc.updating] using hne)
      · exact Or.inr hnone
  | _ => first | exact Or.inl rfl | cases hpc

/-- Whoever is not changing the queue leaves the list of waiters alone or links its
own node. -/
theorem QueueStep.waiters_cases (h : QueueStep wiring q t pc q' c)
    (hpc : pc.updating = false) :
    (q'.node = q.node ∧ q'.waiters = q.waiters ∧ ∀ op, pc ≠ .wait op .link) ∨
    ∃ op, pc = .wait op .link ∧ c = .goto (.wait op .unlock) ∧
      q'.node = Function.update q.node t ⟨wiring.cend t, q.waiters⟩ ∧
      q'.waiters = some t := by
  cases h with
  | waitLink op => exact Or.inr ⟨op, rfl, rfl, rfl, rfl⟩
  | broadcast result at_ at' _ hwake =>
      cases wakeStep_of_wake hwake <;> simp [Pc.updating] at hpc
  | terminate at_ at' _ hwake =>
      cases wakeStep_of_wake hwake <;> simp [Pc.updating] at hpc
  | _ => first | exact Or.inl ⟨rfl, rfl, by simp⟩ | cases hpc

/-- Inside {lit}`condition_variable_wait` a thread goes on to the next position there, tests
its predicate again, or returns. -/
theorem QueueStep.wait_cases {op : QueueOp α} {at_ : WaitPc}
    (h : QueueStep wiring q t (.wait op at_) q' c) :
    (∃ at', c = .goto (.wait op at')) ∨ at_ = .reacquire ∨ at_ = .leave := by
  cases h with
  | reacquire _ _ => exact Or.inr (Or.inl rfl)
  | leave _ => exact Or.inr (Or.inr rfl)
  | _ => exact Or.inl ⟨_, rfl⟩

/-- A thread is about to enlist after its test or after it took the spinlock. -/
theorem QueueStep.enlist_cases {op : QueueOp α} {at_ : WaitPc}
    (h : QueueStep wiring q t pc q' (.goto (.wait op at_)))
    (hat : at_ = .lock ∨ at_ = .link) :
    op.blocked q' = true ∨ (pc = .wait op .lock ∧ op.blocked q' = op.blocked q) := by
  generalize hc : Control.goto (Pc.wait op at_) = c at h
  cases h with
  | testBlocked _ hblocked =>
      cases hc
      exact Or.inl hblocked
  | testProceed op' _ => cases op' <;> cases hc
  | waitLock _ _ =>
      cases hc
      exact Or.inr ⟨rfl, by cases op <;> rfl⟩
  | _ => cases hc <;> simp at hat

end Steps

/-- Every thread about to enlist has found its predicate to hold, and it still does;
and while nobody is changing the queue, so does that of every enlisted thread. -/
structure Blocked (s : State ι χ α κ μ) : Prop where
  tested : ∀ t k op at_, s.thread t = .inside k (.wait op at_) → at_ = .lock ∨ at_ = .link →
    op.blocked s.queue = true
  enlisted : (∀ t, ¬ (s.thread t).Updating) → ∀ t, s.queue.Enlisted t →
    ∃ k op at_, s.thread t = .inside k (.wait op at_) ∧ op.blocked s.queue = true

section Invariant

variable [DecidableEq ι] [DecidableEq χ] {wiring : Wiring ι χ} {caller : Caller ι κ μ α}
  {length : Nat} {env : μ} {start : ι → κ} {s s' : State ι χ α κ μ} {t : ι}

omit [DecidableEq χ] in
/-- Starting a call and the caller's own steps. -/
theorem Blocked.update_thread (h : Blocked s) (env' : μ) {k : κ} (k' : κ) {th : Thread κ α}
    (hk : s.thread t = .outside k) (hth : th = .outside k' ∨ ∃ c : Call α,
      th = .inside k' c.entry) :
    Blocked { s with env := env', thread := Function.update s.thread t th } := by
  have hnew : ∀ k₁ op at_, th ≠ .inside k₁ (.wait op at_) := by
    rintro k₁ op at_ rfl
    rcases hth with heq | ⟨c, heq⟩
    · cases heq
    · cases c <;> cases heq
  have hold : ∀ k₁ op at_, s.thread t ≠ .inside k₁ (.wait op at_) := by
    intro k₁ op at_ heq
    rw [hk] at heq
    cases heq
  constructor
  · intro u k₁ op at_ hu hat
    by_cases hut : u = t
    · subst hut
      exact absurd (by simpa using hu) (hnew k₁ op at_)
    · exact h.tested u k₁ op at_ (by simpa [hut] using hu) hat
  · intro hno u hu
    have hno' : ∀ v, ¬ (s.thread v).Updating := by
      intro v
      by_cases hvt : v = t
      · simp [hvt, hk]
      · simpa [hvt] using hno v
    rcases h.enlisted hno' u hu with ⟨k₁, op, at_, hth', hblocked⟩
    have hut : u ≠ t := by
      rintro rfl
      exact hold k₁ op at_ hth'
    exact ⟨k₁, op, at_, by simpa [hut] using hth', hblocked⟩

/-- Every step keeps the predicates of the waiters. -/
theorem Blocked.step (hcend : Function.Injective wiring.cend)
    (hs : (threads wiring caller length env start).Reachable s) (h : Blocked s)
    (hstep : (threads wiring caller length env start).step s t = some s') : Blocked s' := by
  have hl := locked_of_reachable hs
  rcases waiting_of_reachable hcend hs with ⟨l, rest, hwait⟩
  rcases threads_step_cases hstep with
    ⟨k, c, hk, -, rfl⟩ | ⟨k, k', env', hk, -, -, rfl⟩ | ⟨k, pc, q', c, hk, hq, rfl⟩
  · exact h.update_thread s.env k hk (Or.inr ⟨c, rfl⟩)
  · exact h.update_thread env' k' hk (Or.inl rfl)
  · have hstmt := queueStep_of_step hq
    constructor
    · intro u k₁ op at_ hu hat
      by_cases hut : u = t
      · subst hut
        have heq : Thread.resume caller u k c = .inside k₁ (.wait op at_) := by
          simpa using hu
        cases c with
        | ret result => cases heq
        | goto pc' =>
            cases heq
            rcases hstmt.enlist_cases hat with hblocked | ⟨rfl, heq⟩
            · exact hblocked
            · exact heq.trans (h.tested u k op .lock hk (Or.inl rfl))
      · have hu' : s.thread u = .inside k₁ (.wait op at_) := by simpa [hut] using hu
        have hblocked := h.tested u k₁ op at_ hu' hat
        rcases hstmt.blocked_eq op with heq | ⟨hpc, -⟩
        · exact heq.trans hblocked
        · have hholds : (s.thread u).HoldsMutex := by
            rw [hu']
            rcases hat with rfl | rfl <;> rfl
          exact absurd (hl.mutex.exclusive hholds (by simpa [hk] using hpc)) hut
    · intro hno u hu
      have hc : c.updating ≠ true := by simpa using hno t
      cases hpc : pc.updating with
      | true =>
          rcases hstmt.updating_cases hpc with hupd | hnone
          · exact absurd hupd hc
          · rcases hu with ⟨l', hl', hmem⟩
            rw [hnone] at hl'
            rw [hl'.eq_nil] at hmem
            cases hmem
      | false =>
          have hno' : ∀ v, ¬ (s.thread v).Updating := by
            intro v
            by_cases hvt : v = t
            · simp [hvt, hk, hpc]
            · simpa [hvt] using hno v
          have hsame : ∀ op : QueueOp α, op.blocked q' = op.blocked s.queue := by
            intro op
            rcases hstmt.blocked_eq op with heq | ⟨-, hupd⟩
            · exact heq
            · exact absurd hupd hc
          have hrest : l = rest := by
            refine (hwait.settled fun b hb => ?_).symm
            apply hno' b
            unfold State.phase at hb
            cases hth : s.thread b with
            | outside k => simp [hth] at hb
            | inside k pc =>
                rw [hth] at hb
                exact Pc.updating_of_waking hb
          have hkeep : s.queue.Enlisted u →
              ∃ k₁ op at_, Function.update s.thread t (Thread.resume caller t k c) u =
                .inside k₁ (.wait op at_) ∧ op.blocked q' = true := by
            intro henl
            rcases h.enlisted hno' u henl with ⟨k₁, op, at_, hth, hblocked⟩
            by_cases hut : u = t
            · subst hut
              rw [hk] at hth
              cases hth
              have hmem : u ∈ rest := hrest ▸ hwait.enlisted_iff.mp henl
              rcases hstmt.wait_cases with ⟨at', rfl⟩ | rfl | rfl
              · exact ⟨k, op, at', by simp [Thread.resume], (hsame op).trans hblocked⟩
              · have hidle : s.phase u ≠ .awaiting := by simp [State.phase, hk, Pc.phase]
                exact absurd hmem (hwait.awake u hidle).1
              · have hidle : s.phase u ≠ .awaiting := by simp [State.phase, hk, Pc.phase]
                exact absurd hmem (hwait.awake u hidle).1
            · exact ⟨k₁, op, at_, by simpa [hut] using hth, (hsame op).trans hblocked⟩
          rcases hstmt.waiters_cases hpc with ⟨hnode, hwaiters, -⟩ | ⟨op, rfl, rfl, hnode, hwaiters⟩
          · apply hkeep
            rcases hu with ⟨l', hl', hmem⟩
            exact ⟨l', by simpa only [hnode, hwaiters] using hl', hmem⟩
          · by_cases hut : u = t
            · subst hut
              refine ⟨k, op, .unlock, by simp [Thread.resume], ?_⟩
              exact (hsame op).trans (h.tested u k op .link hk (Or.inr rfl))
            · apply hkeep
              have hidle : s.phase t ≠ .awaiting := by simp [State.phase, hk, Pc.phase]
              have hfresh : t ∉ l := hrest ▸ (hwait.awake t hidle).1
              have hchain : PointerChain.Chain (fun v => (q'.node v).next) q'.waiters
                  (t :: l) := by
                rw [hwaiters, hnode]
                exact hwait.chain.link hfresh (by simp) fun m hm => by simp [hm]
              rcases hu with ⟨l', hl', hmem⟩
              rw [hl'.unique hchain] at hmem
              refine ⟨l, hwait.chain, ?_⟩
              simpa [hut] using hmem

/-- While nobody is changing the queue, the predicate of every enlisted thread
holds. -/
theorem blocked_of_reachable (hcend : Function.Injective wiring.cend)
    (hs : (threads wiring caller length env start).Reachable s) : Blocked s := by
  refine hs.invariant ?_ fun _ _ _ hr h hstep => h.step hcend hr hstep
  constructor
  · intro t k op at_ hk
    cases hk
  · rintro - t ⟨l, hl, hmem⟩
    rw [PointerChain.Chain.eq_nil hl] at hmem
    cases hmem

/-! ## Stuck states -/

/-- Why a statement cannot be executed. -/
theorem Queue.step_eq_none {q : Queue ι χ α} {pc : Pc α} (h : q.step wiring t pc = none) :
    (pc.holdsMutex = false ∧ q.mutex ≠ none) ∨
    (pc.holdsCvLock = false ∧ q.cvLock ≠ none ∧
      (pc.holdsMutex = true ∨ pc.pending = some .delete)) ∨
    (∃ op, pc = .wait op .chanIn ∧ q.inFlight (q.node t).cend = []) ∨
    (pc.phase = .sending ∧ q.inFlight (q.dest (wiring.cend t)) ≠ []) ∨
    (pc.phase = .unlinking ∧ q.waiters = none) ∨
    (pc = .load ∧ q.ringBuffer q.tail = none) := by
  have hwake : ∀ evt at_, conditionVariableWake evt wiring q t at_ = none →
      (at_ = .lock ∧ q.cvLock ≠ none) ∨
      (at_ = .ack ∧ q.inFlight (q.dest (wiring.cend t)) ≠ []) ∨
      (at_ = .unlink ∧ q.waiters = none) := by
    intro evt at_ hnone
    cases at_ with
    | lock =>
        left
        simpa [conditionVariableWake] using hnone
    | test =>
        simp only [conditionVariableWake] at hnone
        split at hnone <;> cases hnone
    | ack =>
        right; left
        simp only [conditionVariableWake, ite_eq_left_iff, reduceCtorEq, imp_false,
          not_not] at hnone
        exact ⟨rfl, hnone.2⟩
    | unlink =>
        right; right
        simp only [conditionVariableWake] at hnone
        split at hnone
        · rename_i hw
          exact ⟨rfl, hw⟩
        · cases hnone
    | unlock => cases hnone
  cases pc with
  | lock op =>
      left
      exact ⟨rfl, by simpa [Queue.step] using h⟩
  | wait op at_ =>
      simp only [Queue.step, Option.map_eq_none_iff] at h
      cases at_ with
      | lock =>
          right; left
          exact ⟨rfl, by simpa [conditionVariableWait] using h, Or.inl rfl⟩
      | chanIn =>
          right; right; left
          simp only [conditionVariableWait] at h
          split at h
          · rename_i hbytes
            exact ⟨op, rfl, hbytes⟩
          · cases h
      | reacquire =>
          left
          exact ⟨rfl, by simpa [conditionVariableWait] using h⟩
      | _ => cases h
  | load =>
      right; right; right; right; right
      exact ⟨rfl, by simpa [Queue.step] using h⟩
  | broadcast result at_ =>
      simp only [Queue.step, Option.map_eq_none_iff] at h
      rcases hwake _ at_ h with ⟨rfl, hlock⟩ | ⟨rfl, hbytes⟩ | ⟨rfl, hnone⟩
      · exact Or.inr (Or.inl ⟨rfl, hlock, Or.inl rfl⟩)
      · exact Or.inr (Or.inr (Or.inr (Or.inl ⟨rfl, hbytes⟩)))
      · exact Or.inr (Or.inr (Or.inr (Or.inr (Or.inl ⟨rfl, hnone⟩))))
  | terminate at_ =>
      simp only [Queue.step, Option.map_eq_none_iff] at h
      rcases hwake _ at_ h with ⟨rfl, hlock⟩ | ⟨rfl, hbytes⟩ | ⟨rfl, hnone⟩
      · exact Or.inr (Or.inl ⟨rfl, hlock, Or.inr rfl⟩)
      · exact Or.inr (Or.inr (Or.inr (Or.inl ⟨rfl, hbytes⟩)))
      · exact Or.inr (Or.inr (Or.inr (Or.inr (Or.inl ⟨rfl, hnone⟩))))
  | sizeLock =>
      left
      exact ⟨rfl, by simpa [Queue.step] using h⟩
  | _ => cases h

theorem threads_enabled_inside {k : κ} {pc : Pc α}
    (hk : s.thread t = .inside k pc) :
    (threads wiring caller length env start).Enabled s t ↔
      (s.queue.step wiring t pc).isSome = true := by
  simp [System.Enabled, threads, hk]

/-- A thread that awaits its byte and is not holding the mutex is at the channel
input. -/
theorem Pc.eq_chanIn_of_phase {pc : Pc α} (h : pc.phase = .awaiting)
    (hm : pc.holdsMutex = false) : ∃ op, pc = .wait op .chanIn := by
  cases pc with
  | wait op at_ =>
      cases at_ with
      | chanIn => exact ⟨op, rfl⟩
      | unlock => simp [Pc.holdsMutex] at hm
      | release => simp [Pc.holdsMutex] at hm
      | _ => cases h
  | broadcast result at_ => cases at_ <;> cases h
  | terminate at_ => cases at_ <;> cases h
  | _ => cases h

/-- A stuck state has a free mutex, and each of its threads has nothing left to do or
sleeps on a predicate that holds. -/
theorem stuck_threads (hcend : Function.Injective wiring.cend) (hdelete : caller.NoDelete)
    (hlength : 0 < length) (hs : (threads wiring caller length env start).Reachable s)
    (hstuck : ∀ t, ¬ (threads wiring caller length env start).Enabled s t) :
    s.queue.mutex = none ∧
    ∀ t, (∃ k, s.thread t = .outside k ∧ caller.call t k = none ∧
        caller.step t k s.env = none) ∨
      ∃ k op, s.thread t = .inside k (.wait op .chanIn) ∧ op.blocked s.queue = true := by
  have hl := locked_of_reachable hs
  have hundeleted := (undeleted_of_reachable hdelete hs).threads
  have hblocked := blocked_of_reachable hcend hs
  rcases waiting_of_reachable hcend hs with ⟨l, rest, hwait⟩
  rcases contents_of_reachable hlength hs with ⟨xs, hcontents⟩
  have hnone : ∀ t k pc, s.thread t = .inside k pc → s.queue.step wiring t pc = none := by
    intro t k pc hk
    by_contra hne
    apply hstuck t
    rw [threads_enabled_inside hk]
    exact Option.isSome_iff_ne_none.mpr hne
  -- who holds the mutex could go on
  have hfree : s.queue.mutex = none := by
    by_contra hne
    rcases Option.ne_none_iff_exists'.mp hne with ⟨u, hu⟩
    have hholds := (hl.mutex u).mp hu
    cases hk : s.thread u with
    | outside k => simp [hk] at hholds
    | inside k pc =>
        have hpc : pc.holdsMutex = true := by simpa [hk] using hholds
        have hother : ∀ v k' pc', s.thread v = .inside k' pc' → pc'.holdsMutex = true →
            v = u := by
          intro v k' pc' hv hpc'
          exact hl.mutex.exclusive (by simpa [hv] using hpc') hholds
        rcases Queue.step_eq_none (hnone u k pc hk) with
          ⟨hm, -⟩ | ⟨hcv, htaken, -⟩ | ⟨op, rfl, -⟩ | ⟨hphase, hbytes⟩ | ⟨hphase, hw⟩ |
          ⟨rfl, hslot⟩
        · rw [hpc] at hm
          cases hm
        · -- the owner of the spinlock holds the mutex, so it is the same thread
          rcases Option.ne_none_iff_exists'.mp htaken with ⟨v, hv⟩
          have hvholds := (hl.cvLock v).mp hv
          cases hkv : s.thread v with
          | outside k' => simp [hkv] at hvholds
          | inside k' pc' =>
              have hcv' : pc'.holdsCvLock = true := by simpa [hkv] using hvholds
              have hvu := hother v k' pc' hkv
                (Pc.holdsMutex_of_holdsCvLock hcv' (hundeleted v k' pc' hkv))
              subst hvu
              rw [hk] at hkv
              cases hkv
              rw [hcv] at hcv'
              cases hcv'
        · cases hpc
        · -- the first waiter can take its byte
          have hphaseu : s.phase u = .sending := by simp [State.phase, hk, hphase]
          rcases hwait.woken u (by simp [hphaseu]) with ⟨w, -, hdest, -⟩
          rw [hdest hphaseu] at hbytes
          rcases List.exists_cons_of_ne_nil hbytes with ⟨e, bytes, hbyte⟩
          have hw := (hwait.of_byte hbyte).1
          cases hkw : s.thread w with
          | outside k' => simp [State.phase, hkw] at hw
          | inside k' pc' =>
              have hphasew : pc'.phase = .awaiting := by simpa [State.phase, hkw] using hw
              cases hmw : pc'.holdsMutex with
              | true =>
                  have hwu := hother w k' pc' hkw hmw
                  subst hwu
                  rw [hphaseu] at hw
                  cases hw
              | false =>
                  rcases Pc.eq_chanIn_of_phase hphasew hmw with ⟨op, rfl⟩
                  have hstep := hnone w k' _ hkw
                  rw [Queue.step, Option.map_eq_none_iff, conditionVariableWait,
                    hwait.cend w, hbyte] at hstep
                  cases hstep
        · have hphaseu : s.phase u = .unlinking := by simp [State.phase, hk, hphase]
          rcases hwait.woken u (by simp [hphaseu]) with ⟨w, rfl, -⟩
          have hchain := hwait.chain
          rw [hw] at hchain
          cases hchain.eq_nil
        · rcases hcontents.owner u k .load hk rfl with ⟨hholds', hne'⟩
          cases xs with
          | nil => exact hne' rfl
          | cons x xs =>
              rw [hholds'.slot_tail] at hslot
              cases hslot
  have hnomutex : ∀ t k pc, s.thread t = .inside k pc → pc.holdsMutex = false := by
    intro t k pc hk
    have hno := hl.mutex
    rw [hfree] at hno
    simpa [hk] using hno.not_holds_of_free t
  have hnoupdate : ∀ t, ¬ (s.thread t).Updating := by
    intro t ht
    cases hk : s.thread t with
    | outside k => simp [hk] at ht
    | inside k pc =>
        have hpc := Pc.holdsMutex_of_updating (by simpa [hk] using ht)
          (hundeleted t k pc hk)
        rw [hnomutex t k pc hk] at hpc
        cases hpc
  have hnowaking : ∀ b, ¬ (s.phase b).Waking := by
    intro b hb
    apply hnoupdate b
    unfold State.phase at hb
    cases hk : s.thread b with
    | outside k => simp [hk] at hb
    | inside k pc =>
        rw [hk] at hb
        exact Pc.updating_of_waking hb
  refine ⟨hfree, fun t => ?_⟩
  cases hk : s.thread t with
  | outside k =>
      left
      have hdisabled := hstuck t
      refine ⟨k, rfl, ?_⟩
      cases hc : caller.call t k with
      | some c => simp [System.Enabled, threads, hk, hc] at hdisabled
      | none => simpa [System.Enabled, threads, hk, hc] using hdisabled
  | inside k pc =>
      right
      have hpc := hnomutex t k pc hk
      rcases Queue.step_eq_none (hnone t k pc hk) with
        ⟨-, hm⟩ | ⟨-, -, hm | hm⟩ | ⟨op, rfl, hbytes⟩ | ⟨hphase, -⟩ | ⟨hphase, -⟩ | ⟨rfl, -⟩
      · exact absurd hfree hm
      · rw [hpc] at hm
        cases hm
      · exact absurd hm (hundeleted t k pc hk)
      · -- no byte is on its way, so the thread is still on the list
        have hphase : s.phase t = .awaiting := by simp [State.phase, hk, Pc.phase]
        rw [hwait.cend t] at hbytes
        have hmem : t ∈ rest := by
          rcases hwait.asleep t hphase with ⟨hmem, -⟩ | ⟨-, e, hone⟩
          · exact hmem
          · rw [hbytes] at hone
            cases hone
        rw [hwait.settled hnowaking] at hmem
        rcases hblocked.enlisted hnoupdate t (hwait.enlisted_iff.mpr hmem) with
          ⟨k', op', at_, hk', hop⟩
        rw [hk] at hk'
        cases hk'
        exact ⟨k, op, rfl, hop⟩
      · exact absurd (by simp [State.phase, hk, hphase]) (hnowaking t)
      · exact absurd (by simp [State.phase, hk, hphase]) (hnowaking t)
      · cases hpc

end Invariant

/-! ## Producers and consumers -/

/-- The events of one thread. -/
def eventsOf [DecidableEq ι] (t : ι) (tr : List (ι × QueueEvent α)) :
    List (ι × QueueEvent α) :=
  tr.filter fun e => e.1 = t

/-- Threads with a list of items are producers, the others are consumers. -/
def roleScript (role : ι → Option (List α)) (t : ι) : Nat → Option (Call α) :=
  match role t with
  | some items => producer items
  | none => consumer

section Roles

variable {role : ι → Option (List α)} {t : ι}

theorem roleScript_producer {items : List α} (h : role t = some items) (n : Nat) :
    roleScript role t n = items[n]?.map .send := by
  simp [roleScript, h, producer]

theorem roleScript_consumer (h : role t = none) (n : Nat) :
    roleScript role t n = some .receive := by
  simp [roleScript, h, consumer]

theorem roleScript_noDelete (role : ι → Option (List α)) :
    (scriptCaller (roleScript role)).NoDelete := by
  intro t n
  change roleScript role t n ≠ some .delete
  cases h : role t with
  | some items =>
      rw [roleScript_producer h]
      exact producer_ne_delete items n
  | none =>
      rw [roleScript_consumer h]
      exact consumer_ne_delete n

variable [DecidableEq ι] {length : Nat} {a : AtomicState ι α Nat Unit}
  {tr : List (ι × QueueEvent α)}

/-- After {lit}`n` completed calls a producer has sent its first {lit}`n` items. -/
theorem sentItems_eventsOf {items : List α} (hrole : role t = some items)
    (h : (atomicThreads (scriptCaller (roleScript role)) length () fun _ => 0).Traced
      (atomicEvents (scriptCaller (roleScript role))) a tr) :
    sentItems (eventsOf t tr) = items.take (a.thread t) := by
  refine h.invariant (P := fun a tr => sentItems (eventsOf t tr) = items.take (a.thread t))
    rfl ?_
  rintro a u a' tr - ih hstep
  simp only [eventsOf, List.filter_append, sentItems_append] at ih ⊢
  rw [ih]
  rcases atomicThreads_step_cases hstep with
    ⟨c, fifo', r, hc, hcall, rfl⟩ | ⟨k', env', -, hown, -⟩
  · have hcu : roleScript role u (a.thread u) = some c := hc
    by_cases hut : u = t
    · subst hut
      rw [roleScript_producer hrole, Option.map_eq_some_iff] at hcu
      rcases hcu with ⟨item, hitem, rfl⟩
      rcases List.getElem?_eq_some_iff.mp hitem with ⟨hlt, rfl⟩
      have hevents : atomicEvents (scriptCaller (roleScript role)) a u =
          [(u, .sent items[a.thread u])] := by
        unfold atomicEvents
        rw [hc]
      have hnext : Function.update a.thread u
          ((scriptCaller (roleScript role)).ret u (a.thread u) r) u = a.thread u + 1 := by
        rw [Function.update_self]
        rfl
      simp only [hevents, hnext]
      rw [List.take_succ_eq_append_getElem hlt]
      simp
    · have hevents : List.filter (fun e => decide (e.1 = t))
          (atomicEvents (scriptCaller (roleScript role)) a u) = [] := by
        unfold atomicEvents
        split <;> simp [hut]
      simp [hevents, Function.update_of_ne (Ne.symm hut)]
  · simp [scriptCaller] at hown

variable [DecidableEq χ] {wiring : Wiring ι χ} {s : State ι χ α Nat Unit}

/-- No lost wake-up and no deadlock.  While the mutex is free, a consumer is enlisted
only if the queue is empty and a producer only if it is full.  And unless every
producer has sent all its items and all of them have been received, some thread can
take a step. -/
theorem queue_no_lost_wakeup (hcend : Function.Injective wiring.cend)
    (hconsumer : ∃ t, role t = none) (hlength : 0 < length)
    (h : (threads wiring (scriptCaller (roleScript role)) length () fun _ => 0).Traced
      queueEvents s tr) :
    (s.queue.mutex = none → ∀ t, s.queue.Enlisted t →
      (role t = none → queueEmpty s.queue = true) ∧
      (∀ items, role t = some items → queueFull s.queue = true)) ∧
    (((∀ t items, role t = some items → sentItems (eventsOf t tr) = items) ∧
        receivedItems tr = sentItems tr) ∨
      ∃ t, (threads wiring (scriptCaller (roleScript role)) length () fun _ => 0).Enabled
        s t) := by
  have hdelete := roleScript_noDelete role
  have hs := h.reachable
  have hop : ∀ t k op at_, s.thread t = .inside k (.wait op at_) →
      (role t = none → op = .receive) ∧ (∀ items, role t = some items →
        ∃ item, op = .send item) := by
    intro t k op at_ hk
    have hcalling := calling_of_reachable hs t k (.wait op at_)
    cases op with
    | send item =>
        refine ⟨fun hrole => ?_, fun _ _ => ⟨item, rfl⟩⟩
        have hc : roleScript role t k = some (.send item) := hcalling _ hk rfl
        rw [roleScript_consumer hrole] at hc
        cases hc
    | receive =>
        refine ⟨fun _ => rfl, fun items hrole => ?_⟩
        have hc : roleScript role t k = some .receive := hcalling _ hk rfl
        rw [roleScript_producer hrole] at hc
        cases hitem : items[k]? with
        | none => simp [hitem] at hc
        | some item => simp [hitem] at hc
  constructor
  · intro hfree t henl
    have hl := locked_of_reachable hs
    have hnoupdate : ∀ u, ¬ (s.thread u).Updating := by
      intro u hu
      cases hk : s.thread u with
      | outside k => simp [hk] at hu
      | inside k pc =>
          have hpc := Pc.holdsMutex_of_updating (by simpa [hk] using hu)
            ((undeleted_of_reachable hdelete hs).threads u k pc hk)
          have hmutex := (hl.mutex u).mpr (by simpa [hk] using hpc)
          rw [hfree] at hmutex
          cases hmutex
    rcases (blocked_of_reachable hcend hs).enlisted hnoupdate t henl with
      ⟨k, op, at_, hk, hblocked⟩
    refine ⟨fun hrole => ?_, fun items hrole => ?_⟩
    · rw [(hop t k op at_ hk).1 hrole] at hblocked
      exact hblocked
    · rcases (hop t k op at_ hk).2 items hrole with ⟨item, rfl⟩
      exact hblocked
  · by_cases henabled : ∃ t, (threads wiring (scriptCaller (roleScript role)) length ()
        fun _ => 0).Enabled s t
    · exact Or.inr henabled
    · left
      have hstuck := stuck_threads hcend hdelete hlength hs fun t ht => henabled ⟨t, ht⟩
      rcases hstuck with ⟨hfree, hthreads⟩
      rcases (queue_simulation wiring hdelete hlength).traced h with ⟨a, ha, href⟩
      -- the consumer sleeps, so the queue is empty
      have hempty : queueEmpty s.queue = true := by
        rcases hconsumer with ⟨t, hrole⟩
        rcases hthreads t with ⟨k, -, hcall, -⟩ | ⟨k, op, hk, hblocked⟩
        · have hc : roleScript role t k = none := hcall
          rw [roleScript_consumer hrole] at hc
          cases hc
        · rw [(hop t k op _ hk).1 hrole] at hblocked
          exact hblocked
      have hfifo : a.fifo = [] := (href.contents.free hfree).empty_iff.mp hempty
      constructor
      · intro t items hrole
        rw [sentItems_eventsOf hrole ha]
        rcases hthreads t with ⟨k, hk, hcall, -⟩ | ⟨k, op, hk, hblocked⟩
        · have hc : roleScript role t k = none := hcall
          rw [roleScript_producer hrole, Option.map_eq_none_iff,
            List.getElem?_eq_none_iff] at hc
          rw [href.thread t, hk]
          exact List.take_of_length_le hc
        · -- no producer can sleep on an empty queue
          rcases (hop t k op _ hk).2 items hrole with ⟨item, rfl⟩
          have hfull : s.queue.full = true := hblocked
          simp [queueEmpty, hfull] at hempty
      · have hhist := (atomicThreads_history ha).1
        rw [hfifo, List.append_nil] at hhist
        exact hhist.symm

end Roles

/-! ## A producer that has to wait -/

/-- Thread 0 sends two items, thread 1 is a consumer. -/
def twoItemRole (t : Fin 2) : Option (List Nat) :=
  if t = 0 then some [4, 7] else none

/-- Over a queue of one slot. -/
def twoItem : System (State (Fin 2) (Fin 2) Nat Nat Unit) (Fin 2) :=
  threads ⟨id, true⟩ (scriptCaller (roleScript twoItemRole)) 1 () fun _ => 0

/-- The producer fills the slot, finds the queue full and enlists. -/
def twoItemSchedule : List (Fin 2) :=
  List.replicate 11 0 ++ List.replicate 7 0

/-- The producer is enlisted, so the queue is full, and the state is not stuck. -/
theorem queue_no_lost_wakeup_twoItem :
    queueFull ((twoItem.run twoItem.init twoItemSchedule).get (by decide)).queue = true ∧
    ∃ t, twoItem.Enabled ((twoItem.run twoItem.init twoItemSchedule).get (by decide)) t := by
  have hs := twoItem.traced_get_run queueEvents twoItemSchedule (by decide)
  have h := queue_no_lost_wakeup Function.injective_id ⟨1, rfl⟩ Nat.one_pos hs
  refine ⟨(h.1 rfl 0 ⟨[0], ⟨rfl, rfl⟩, List.mem_singleton_self 0⟩).2 _ rfl, ?_⟩
  rcases h.2 with ⟨-, hall⟩ | henabled
  · have hne : receivedItems (twoItem.history queueEvents twoItem.init twoItemSchedule) ≠
        sentItems (twoItem.history queueEvents twoItem.init twoItemSchedule) := by decide
    exact absurd hall hne
  · exact henabled

end Metal
end LibDispatch
