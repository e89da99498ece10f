import LibDispatch.Metal.Waiters

/-!
# Wake-up messages

A thread that waits on the condition variable links its node, later is sent one byte and
takes it.  This file follows these three events at each channel end: in the history of
every run they come in rounds, one after the other, and the position of the thread and the
bytes in flight to it say how far the current round has come.

Main results:

- Theorem {lit}`wakeEvents_round`: what one step adds to the current round of a thread.
- Theorem {lit}`rounds_of_traced`: the events at each channel end are complete rounds
  and a last one that is still open.
- Theorem {lit}`wake_ups_conserved`: while the spinlock is free a thread that awaits its
  wake-up is on the list once or has one signal in flight, and no other thread is on the
  list or has a byte in flight.
-/

namespace LibDispatch
namespace Metal

variable {ι χ α κ μ : Type}

/-! ## Events at a channel end -/

/-- What happens at a channel end in the course of one wait. -/
inductive WakeEvent where
  /-- The thread that reads from it links its node. -/
  | enlisted
  /-- A byte is output to it. -/
  | woken
  /-- The byte is taken. -/
  | taken
deriving DecidableEq, Repr

/-- The event of one turn of the waking loop. -/
def WakePc.wakeEvents (q : Queue ι χ α) : WakePc → List (χ × WakeEvent)
  | .test =>
      match q.waiters with
      | some w => [((q.node w).cend, .woken)]
      | none => []
  | _ => []

/-- The event of the statement at a position. -/
def Pc.wakeEvents (wiring : Wiring ι χ) (q : Queue ι χ α) (t : ι) :
    Pc α → List (χ × WakeEvent)
  | .wait _ .link => [(wiring.cend t, .enlisted)]
  | .wait _ .chanIn => [((q.node t).cend, .taken)]
  | .broadcast _ at_ | .terminate at_ => at_.wakeEvents q
  | _ => []

/-- The event of a step of thread {lit}`t`. -/
def wakeEvents (wiring : Wiring ι χ) (s : State ι χ α κ μ) (t : ι) : List (χ × WakeEvent) :=
  match s.thread t with
  | .outside _ => []
  | .inside _ pc => pc.wakeEvents wiring s.queue t

/-- The events of a history at one channel end. -/
def eventsAt [DecidableEq χ] (x : χ) (tr : List (χ × WakeEvent)) : List WakeEvent :=
  (tr.filter fun e => e.1 = x).map Prod.snd

/-- The events of a complete wait. -/
def WakeEvent.round : List WakeEvent :=
  [.enlisted, .woken, .taken]

/-- How far the current wait of a thread has come, from its phase and the bytes in flight
to it. -/
def openRound (phase : CvPhase) (bytes : List ConditionEvent) : List WakeEvent :=
  if phase = .awaiting then
    if bytes = [] then [.enlisted] else [.enlisted, .woken]
  else []

section Events

variable [DecidableEq χ] {x : χ} {tr tr' : List (χ × WakeEvent)}

@[simp]
theorem eventsAt_nil : eventsAt x [] = [] :=
  rfl

@[simp]
theorem eventsAt_append : eventsAt x (tr ++ tr') = eventsAt x tr ++ eventsAt x tr' := by
  simp [eventsAt]

theorem eventsAt_singleton (y : χ) (e : WakeEvent) :
    eventsAt x [(y, e)] = if y = x then [e] else [] := by
  by_cases hy : y = x <;> simp [eventsAt, hy]

end Events

@[simp]
theorem openRound_of_ne {phase : CvPhase} {bytes : List ConditionEvent}
    (h : phase ≠ .awaiting) : openRound phase bytes = [] :=
  if_neg h

/-! ## One step -/

/-- The current round goes on by the events of a step, or the step is its last event. -/
def RoundStep (events before after : List WakeEvent) : Prop :=
  after = before ++ events ∨ (before ++ events = WakeEvent.round ∧ after = [])

section Step

variable [DecidableEq ι] [DecidableEq χ] {wiring : Wiring ι χ} {caller : Caller ι κ μ α}
  {length : Nat} {env : μ} {start : ι → κ} {s s' : State ι χ α κ μ} {t : ι}
  {l rest : List ι}

/-- A turn of the waking loop gives its byte to a thread that is enlisted and has none. -/
theorem WakeStep.round (hcend : Function.Injective wiring.cend) (hl : Locked s)
    (h : Waiting wiring s.queue s.phase l rest) {evt : ConditionEvent} {q' : Queue ι χ α}
    {at_ at' : WakePc} (hw : WakeStep evt wiring s.queue t at_ q' at')
    (hholds : at_.holdsLock = true → (s.thread t).HoldsCvLock)
    (hphase : s.phase t = at_.phase) (u : ι) :
    RoundStep (eventsAt (wiring.cend u) (at_.wakeEvents s.queue))
      (openRound (s.phase u) (s.queue.inFlight (wiring.cend u)))
      (openRound (Function.update s.phase t at'.phase u)
        (q'.inFlight (wiring.cend u))) := by
  have hother : ∀ p : WakePc, Function.update s.phase t p.phase u = .awaiting ↔
      s.phase u = .awaiting := by
    intro p
    by_cases hut : u = t
    · subst hut
      rw [Function.update_self, hphase]
      cases p <;> cases at_ <;> simp [WakePc.phase]
    · rw [Function.update_of_ne hut]
  have hsame : ∀ (p : WakePc) (bytes : List ConditionEvent),
      openRound (Function.update s.phase t p.phase u) bytes = openRound (s.phase u) bytes := by
    intro p bytes
    unfold openRound
    simp only [hother p]
  rw [hsame]
  cases hw with
  | send w hwaiters =>
      have hnone := hl.not_waking (hholds rfl) (by simp [hphase, WakePc.phase])
      rcases h.first hnone hwaiters with ⟨rest', -, -, hawaiting, hempty⟩
      have hwt : w ≠ t := by
        rintro rfl
        simp [hphase, WakePc.phase] at hawaiting
      rw [h.bytes_of_send hcend evt hwt]
      simp only [WakePc.wakeEvents, hwaiters, eventsAt_singleton, h.cend w]
      by_cases huw : u = w
      · subst huw
        left
        simp [openRound, hawaiting, hempty]
      · left
        rw [if_neg huw, if_neg fun heq => huw (hcend heq.symm), List.append_nil]
  | testEmpty hwaiters =>
      left
      simp [WakePc.wakeEvents, hwaiters]
  | _ => exact Or.inl (List.append_nil _).symm

/-- A step adds to the current round of each thread: it enlists while no byte is in flight,
is sent its byte while it is enlisted, and takes the byte that was sent. -/
theorem wakeEvents_round (hcend : Function.Injective wiring.cend) (hl : Locked s)
    (h : Waiting wiring s.queue s.phase l rest)
    (hstep : (threads wiring caller length env start).step s t = some s') (u : ι) :
    RoundStep (eventsAt (wiring.cend u) (wakeEvents wiring s t))
      (openRound (s.phase u) (s.queue.inFlight (wiring.cend u)))
      (openRound (s'.phase u) (s'.queue.inFlight (wiring.cend u))) := by
  have hsame : ∀ (q' : Queue ι χ α) (env' : μ) (th : Thread κ α), th.phase = s.phase t →
      q'.inFlight = s.queue.inFlight → wakeEvents wiring s t = [] →
      RoundStep (eventsAt (wiring.cend u) (wakeEvents wiring s t))
        (openRound (s.phase u) (s.queue.inFlight (wiring.cend u)))
        (openRound (State.phase { s with
            queue := q', env := env', thread := Function.update s.thread t th } u)
          (q'.inFlight (wiring.cend u))) := by
    intro q' env' th hth hflight hevents
    left
    rw [State.phase_update, hth, Function.update_eq_self, hflight, hevents, eventsAt_nil,
      List.append_nil]
  rcases threads_step_cases hstep with
    ⟨k, c, hk, -, rfl⟩ | ⟨k, k', env', hk, -, -, rfl⟩ | ⟨k, pc, q', c, hk, hq, rfl⟩
  · exact hsame s.queue s.env _ (by simp [State.phase, hk]) rfl (by simp [wakeEvents, hk])
  · exact hsame s.queue env' _ (by simp [State.phase, hk]) rfl (by simp [wakeEvents, hk])
  · have hphase : s.phase t = pc.phase := by simp [State.phase, hk]
    have hholds : pc.holdsCvLock = true → (s.thread t).HoldsCvLock := by simp [hk]
    have hevents : wakeEvents wiring s t = pc.wakeEvents wiring s.queue t := by
      simp [wakeEvents, hk]
    have hkeep : c.phase = pc.phase → q'.inFlight = s.queue.inFlight →
        pc.wakeEvents wiring s.queue t = [] →
        RoundStep (eventsAt (wiring.cend u) (wakeEvents wiring s t))
          (openRound (s.phase u) (s.queue.inFlight (wiring.cend u)))
          (openRound (State.phase { s with
              queue := q'
              thread := Function.update s.thread t (Thread.resume caller t k c) } u)
            (q'.inFlight (wiring.cend u))) := by
      intro hc hflight hnone
      exact hsame q' s.env _ (by rw [Thread.phase_resume, hc, hphase]) hflight
        (hevents.trans hnone)
    -- taking the byte ends the round, whatever the byte says
    have htake : ∀ (op : QueueOp α) (e : ConditionEvent) (bytes : List ConditionEvent)
        (c : Control α), pc = .wait op .chanIn → c.phase = .idle →
        s.queue.inFlight (s.queue.node t).cend = e :: bytes →
        RoundStep (eventsAt (wiring.cend u) (wakeEvents wiring s t))
          (openRound (s.phase u) (s.queue.inFlight (wiring.cend u)))
          (openRound (State.phase { s with
              queue := { s.queue with
                inFlight := Function.update s.queue.inFlight (s.queue.node t).cend bytes }
              thread := Function.update s.thread t (Thread.resume caller t k c) } u)
            (Function.update s.queue.inFlight (s.queue.node t).cend bytes
              (wiring.cend u))) := by
      intro op e bytes c hpc hc hbyte
      rw [State.phase_update, Thread.phase_resume, hc, hevents, hpc]
      simp only [Pc.wakeEvents, eventsAt_singleton]
      rw [h.cend t] at hbyte ⊢
      by_cases hut : u = t
      · subst hut
        right
        have hone := (h.of_byte hbyte).1
        simp [openRound, hone, hbyte, WakeEvent.round]
      · left
        rw [if_neg fun heq => hut (hcend heq.symm), Function.update_of_ne hut,
          Function.update_of_ne (hcend.ne hut), List.append_nil]
    cases queueStep_of_step hq with
    | waitLink op =>
        rw [State.phase_update, Thread.phase_resume, hevents]
        simp only [Pc.wakeEvents, eventsAt_singleton, Control.phase, Pc.phase]
        left
        by_cases hut : u = t
        · subst hut
          have hidle := h.awake u (by simp [hphase, Pc.phase])
          simp [openRound, hphase, Pc.phase, hidle.2]
        · rw [if_neg fun heq => hut (hcend heq.symm), Function.update_of_ne hut,
            List.append_nil]
    | chanInSignal op bytes hbyte => exact htake op _ bytes _ rfl rfl hbyte
    | chanInTerminate op bytes hbyte => exact htake op _ bytes _ rfl rfl hbyte
    | broadcast result at_ at' _ hwake =>
        rw [State.phase_update, Thread.phase_resume, hevents]
        exact (wakeStep_of_wake hwake).round hcend hl h hholds hphase u
    | terminate at_ at' _ hwake =>
        rw [State.phase_update, Thread.phase_resume, hevents]
        exact (wakeStep_of_wake hwake).round hcend hl h hholds hphase u
    | testProceed op _ => exact hkeep (by cases op <;> rfl) rfl rfl
    | overwrite item => exact hkeep rfl (by split <;> rfl) rfl
    | _ => exact hkeep rfl rfl rfl

end Step

/-! ## Runs -/

section Runs

variable [DecidableEq ι] [DecidableEq χ] {wiring : Wiring ι χ} {caller : Caller ι κ μ α}
  {length : Nat} {env : μ} {start : ι → κ} {s : State ι χ α κ μ}
  {tr : List (χ × WakeEvent)}

/-- The events at the channel end of each thread are complete rounds, followed by the part
of a round that its phase and the bytes in flight to it tell. -/
theorem rounds_of_traced (hcend : Function.Injective wiring.cend)
    (h : (threads wiring caller length env start).Traced (wakeEvents wiring) s tr) (t : ι) :
    ∃ n, eventsAt (wiring.cend t) tr = (List.replicate n WakeEvent.round).flatten ++
      openRound (s.phase t) (s.queue.inFlight (wiring.cend t)) := by
  refine h.invariant (P := fun s tr => ∃ n, eventsAt (wiring.cend t) tr =
    (List.replicate n WakeEvent.round).flatten ++
      openRound (s.phase t) (s.queue.inFlight (wiring.cend t))) ?_ ?_
  · refine ⟨0, ?_⟩
    simp [State.phase, threads]
  · rintro s u s' tr hr ⟨n, hn⟩ hstep
    rcases waiting_of_reachable hcend hr with ⟨l, rest, hwaiting⟩
    rw [eventsAt_append, hn, List.append_assoc]
    rcases wakeEvents_round hcend (locked_of_reachable hr) hwaiting hstep t with
      hopen | ⟨hround, hnil⟩
    · exact ⟨n, by rw [hopen]⟩
    · refine ⟨n + 1, ?_⟩
      rw [hround, hnil, List.append_nil, List.replicate_succ']
      simp

/-- What holds of the list and the bytes of a thread while the spinlock is free: a thread
that awaits its wake-up is on the list once, or one signal is in flight to it and it is not
on the list; any other thread is not on the list and has no byte in flight. -/
def WakeUpConserved (wiring : Wiring ι χ) (s : State ι χ α κ μ) (l : List ι) (t : ι) : Prop :=
  if s.phase t = .awaiting then
    (l.count t = 1 ∧ s.queue.inFlight (wiring.cend t) = []) ∨
      (l.count t = 0 ∧ s.queue.inFlight (wiring.cend t) = [.signal])
  else l.count t = 0 ∧ s.queue.inFlight (wiring.cend t) = []

/-- Wake-up messages are conserved.  The list of waiters has neither a cycle nor a duplicate;
while the spinlock is free, a thread between enlisting and taking its byte either is on the
list once or has one signal in flight, and no other thread is on the list or has a byte in
flight.  In the history of every run the waits of a thread follow one another: it enlists, is
sent one byte, and takes it. -/
theorem wake_ups_conserved (hcend : Function.Injective wiring.cend) (hdelete : caller.NoDelete)
    (h : (threads wiring caller length env start).Traced (wakeEvents wiring) s tr) :
    (∃ l, PointerChain.Chain (fun t => (s.queue.node t).next) s.queue.waiters l ∧ l.Nodup ∧
      (s.queue.cvLock = none → ∀ t, WakeUpConserved wiring s l t)) ∧
    ∀ t, ∃ n, eventsAt (wiring.cend t) tr = (List.replicate n WakeEvent.round).flatten ++
      openRound (s.phase t) (s.queue.inFlight (wiring.cend t)) := by
  have hs := h.reachable
  refine ⟨?_, rounds_of_traced hcend h⟩
  rcases waiting_of_reachable hcend hs with ⟨l, rest, hwaiting⟩
  have hnodup := hwaiting.chain.nodup
  refine ⟨l, hwaiting.chain, hnodup, ?_⟩
  intro hfree t
  -- a thread that wakes a waiter would hold the spinlock
  have hnone : ∀ b, ¬ (s.phase b).Waking := by
    intro b hb
    unfold State.phase at hb
    cases hk : s.thread b with
    | outside k => simp [hk] at hb
    | inside k pc =>
        rw [hk] at hb
        have howner := ((locked_of_reachable hs).cvLock b).mpr
          (by simpa [hk] using Pc.holdsCvLock_of_waking hb)
        rw [hfree] at howner
        cases howner
  have hrest := hwaiting.settled hnone
  subst hrest
  unfold WakeUpConserved
  split
  · rename_i hawaiting
    rcases hwaiting.asleep t hawaiting with ⟨hmem, hempty⟩ | ⟨hmem, e, hone⟩
    · exact Or.inl ⟨List.count_eq_one_of_mem hnodup hmem, hempty⟩
    · have hsignal := (undeleted_of_reachable hdelete hs).bytes (wiring.cend t) e
        (by rw [hone]; exact List.mem_singleton_self e)
      exact Or.inr ⟨List.count_eq_zero_of_not_mem hmem, by rw [hone, hsignal]⟩
  · rename_i hother
    have hidle := hwaiting.awake t hother
    exact ⟨List.count_eq_zero_of_not_mem hidle.1, hidle.2⟩

end Runs

/-- The consumer has gone to sleep. -/
def asleepSchedule : List (Fin 2) :=
  oneItemSchedule.take 7

/-- The sleeping consumer is on the list once, and its first round is open. -/
theorem wake_ups_conserved_oneItem :
    WakeUpConserved ⟨id, true⟩ ((oneItem.run oneItem.init asleepSchedule).get (by decide))
      [1] 1 ∧
    ∃ n, eventsAt 1 (oneItem.history (wakeEvents ⟨id, true⟩) oneItem.init asleepSchedule) =
      (List.replicate n WakeEvent.round).flatten ++ [.enlisted] := by
  have hs := oneItem.traced_get_run (wakeEvents ⟨id, true⟩) asleepSchedule (by decide)
  have h := wake_ups_conserved Function.injective_id (pairScript_noDelete [7]) hs
  refine ⟨?_, h.2 1⟩
  rcases h.1 with ⟨l, hchain, -, hconserved⟩
  have hl : l = [1] := hchain.unique ⟨rfl, rfl⟩
  exact hl ▸ hconserved rfl 1

end Metal
end LibDispatch
