import LibDispatch.Library.Tally
import LibDispatch.Metal.Progress

/-!
# How many steps the queue functions take

A thread inside {lit}`queue_send` or {lit}`queue_receive` may sleep, be woken, find the queue
full or empty again, and go back to sleep.  It does so only as often as it is woken, and only
the end of a send or receive wakes anybody, each other thread at most once.  The budget of a
queue that nobody deletes counts the steps to the end of the functions, with a share of each
broadcast for every thread, a share for each byte in flight, and for a broadcast under way a
share for each waiter that has no byte yet.

Main results:

- Theorem {lit}`queueBudget_lt`: every step inside the queue functions takes something off the
  budget.
-/

namespace LibDispatch
namespace Metal

variable {ι χ α κ μ : Type}

/-! ## The budget -/

/-- The steps from a position in {lit}`condition_variable_broadcast` to the end of the
function, waiters apart. -/
def WakePc.steps (threads : Nat) : WakePc → Nat
  | .unlock => 2
  | .test => 3
  | .unlink => 4
  | .ack => 5
  | .lock => 4 + 10 * threads

/-- The steps from a position in a queue function to its end or to the next byte. -/
def Pc.steps (threads : Nat) : Pc α → Nat
  | .unlock _ | .wait _ .leave => 1
  | .broadcast _ at_ => at_.steps threads
  | .setFull _ | .advanceTail _ => 5 + 10 * threads
  | .advanceHead _ | .clearFull _ => 6 + 10 * threads
  | .overwrite _ | .load => 7 + 10 * threads
  | .store _ => 8 + 10 * threads
  | .wait _ .chanIn => 9 + 10 * threads
  | .wait _ .release => 10 + 10 * threads
  | .wait _ .unlock => 11 + 10 * threads
  | .wait _ .link => 12 + 10 * threads
  | .wait _ .lock => 13 + 10 * threads
  | .test _ => 14 + 10 * threads
  | .wait _ .reacquire | .lock _ => 15 + 10 * threads
  | .sizeRead => 2
  | .sizeLock => 3
  | .terminate _ | .deleteSpinlock | .freeConditionVariable | .deleteMutex | .freeRingBuffer
  | .freeQueue => 0

/-- The steps after a step. -/
def Control.steps (threads : Nat) : Control α → Nat
  | .goto pc => pc.steps threads
  | .ret _ => 0

/-- The steps of a thread. -/
def Thread.steps (threads : Nat) : Thread κ α → Nat
  | .outside _ => 0
  | .inside _ pc => pc.steps threads

/-- One if the thread is in the loop of a broadcast. -/
def Thread.looping : Thread κ α → Nat
  | .inside _ (.broadcast _ .test) | .inside _ (.broadcast _ .ack)
  | .inside _ (.broadcast _ .unlink) => 1
  | _ => 0

/-- One if the thread awaits a byte. -/
def Thread.awaits (th : Thread κ α) : Nat :=
  if th.phase = .awaiting then 1 else 0

/-- The bytes in flight to the threads. -/
def Queue.bytes [Fintype ι] (wiring : Wiring ι χ) (q : Queue ι χ α) : Nat :=
  tally List.length fun t => q.inFlight (wiring.cend t)

/-- The steps inside the queue functions. -/
def queueBudget [Fintype ι] (wiring : Wiring ι χ) (s : State ι χ α κ μ) : Nat :=
  tally (Thread.steps (Fintype.card ι)) s.thread + 7 * s.queue.bytes wiring +
    10 * (tally Thread.looping s.thread *
      (tally Thread.awaits s.thread - s.queue.bytes wiring))

@[simp]
theorem Thread.steps_resume (caller : Caller ι κ μ α) (threads : Nat) (t : ι) (k : κ)
    (c : Control α) : (Thread.resume caller t k c).steps threads = c.steps threads := by
  cases c <;> rfl

theorem Thread.awaits_of_phase {th : Thread κ α} {phase : CvPhase} (h : th.phase = phase) :
    th.awaits = if phase = .awaiting then 1 else 0 := by
  rw [Thread.awaits, h]

/-- A thread in the loop of a broadcast holds the spinlock. -/
theorem Thread.holdsCvLock_of_looping {th : Thread κ α} (h : 0 < th.looping) :
    th.HoldsCvLock := by
  cases th with
  | outside k => simp [Thread.looping] at h
  | inside k pc =>
      rw [Thread.holdsCvLock_inside]
      cases pc with
      | broadcast result at_ => cases at_ <;> first | rfl | simp [Thread.looping] at h
      | _ => simp [Thread.looping] at h

/-! ## Waiters and bytes -/

section Waiters

variable [Fintype ι] {wiring : Wiring ι χ} {s : State ι χ α κ μ} {l rest : List ι} {w t : ι}

omit [Fintype ι] in
/-- A thread has at most one byte in flight, and only while it awaits it. -/
theorem Waiting.bytes_le (h : Waiting wiring s.queue s.phase l rest) (t : ι) :
    (s.queue.inFlight (wiring.cend t)).length ≤ (s.thread t).awaits := by
  by_cases hphase : s.phase t = .awaiting
  · have hone : (s.thread t).awaits = 1 := if_pos hphase
    rcases h.asleep t hphase with ⟨-, hnil⟩ | ⟨-, e, hsingle⟩
    · rw [hnil]
      exact Nat.zero_le _
    · rw [hsingle, hone]
      exact Nat.le_refl 1
  · rw [(h.awake t hphase).2]
    exact Nat.zero_le _

/-- There are more waiters than bytes while one of them has none. -/
theorem Waiting.bytes_lt (h : Waiting wiring s.queue s.phase l rest)
    (hphase : s.phase w = .awaiting) (hnil : s.queue.inFlight (wiring.cend w) = []) :
    s.queue.bytes wiring < tally Thread.awaits s.thread := by
  refine Finset.sum_lt_sum (fun t _ => h.bytes_le t) ⟨w, Finset.mem_univ w, ?_⟩
  have hone : (s.thread w).awaits = 1 := if_pos hphase
  change (s.queue.inFlight (wiring.cend w)).length < _
  rw [hnil, hone]
  exact Nat.one_pos

/-- There are no more waiters than threads. -/
theorem awaits_le_card (s : State ι χ α κ μ) :
    tally Thread.awaits s.thread ≤ Fintype.card ι := by
  have hle := Finset.sum_le_card_nsmul Finset.univ (fun t => (s.thread t).awaits) 1
    fun t _ => by unfold Thread.awaits; split <;> omega
  simpa [tally] using hle

/-- While the spinlock is free, or held outside the loop, no thread is in the loop. -/
theorem Locked.looping_eq_zero (hl : Locked s)
    (h : s.queue.cvLock = none ∨ (s.thread t).HoldsCvLock ∧ (s.thread t).looping = 0) :
    tally Thread.looping s.thread = 0 := by
  rw [tally_eq_zero_iff]
  intro u
  by_contra hne
  have hu := Thread.holdsCvLock_of_looping (Nat.pos_of_ne_zero hne)
  rcases h with hfree | ⟨ht, hzero⟩
  · have howner := (hl.cvLock u).mpr hu
    rw [hfree] at howner
    cases howner
  · rw [hl.cvLock.exclusive hu ht] at hne
    exact hne hzero

end Waiters

/-! ## Steps -/

section Steps

variable [Fintype ι] [DecidableEq ι] [DecidableEq χ] {wiring : Wiring ι χ}
  {caller : Caller ι κ μ α} {length : Nat} {env : μ} {start : ι → κ} {s : State ι χ α κ μ}
  {t : ι} {q' : Queue ι χ α} {th : Thread κ α}

omit [DecidableEq χ] in
/-- A step that leaves the waiters and their bytes alone, and begins no broadcast. -/
theorem queueBudget_lt_of_quiet (hbytes : q'.bytes wiring = s.queue.bytes wiring)
    (hawaits : th.awaits = (s.thread t).awaits) (hlooping : th.looping ≤ (s.thread t).looping)
    (hsteps : th.steps (Fintype.card ι) < (s.thread t).steps (Fintype.card ι)) :
    queueBudget wiring { s with queue := q', thread := Function.update s.thread t th } <
      queueBudget wiring s := by
  have htally := tally_update (Thread.steps (Fintype.card ι)) s.thread t th
  have hwaiters := tally_update Thread.awaits s.thread t th
  have hloops := tally_update Thread.looping s.thread t th
  rw [hawaits, Nat.add_right_cancel_iff] at hwaiters
  have hproduct : tally Thread.looping (Function.update s.thread t th) *
      (tally Thread.awaits s.thread - s.queue.bytes wiring) ≤
      tally Thread.looping s.thread *
        (tally Thread.awaits s.thread - s.queue.bytes wiring) :=
    Nat.mul_le_mul_right _ (by omega)
  simp only [queueBudget, hbytes, hwaiters]
  omega

/-- The output to the first waiter. -/
theorem queueBudget_send (hcend : Function.Injective wiring.cend) (hl : Locked s)
    {l rest : List ι} (h : Waiting wiring s.queue s.phase l rest) {k : κ} {result : Result α}
    (hk : s.thread t = .inside k (.broadcast result .test)) {w : ι}
    (hwaiters : s.queue.waiters = some w) (evt : ConditionEvent) :
    queueBudget wiring { s with
        queue := conditionVariableSend s.queue (wiring.cend t) (s.queue.node w).cend evt
        thread := Function.update s.thread t (.inside k (.broadcast result .ack)) } <
      queueBudget wiring s := by
  have hphase : s.phase t = .idle := by simp [State.phase, hk, Pc.phase, WakePc.phase]
  have hnone := hl.not_waking (by simp [hk, Pc.holdsCvLock, WakePc.holdsLock])
    (by simp [hphase] : ¬ (s.phase t).Waking)
  rcases h.first hnone hwaiters with ⟨rest', -, -, hawaiting, hempty⟩
  have hwt : w ≠ t := by
    rintro rfl
    rw [hphase] at hawaiting
    cases hawaiting
  have hlt := h.bytes_lt hawaiting hempty
  have htally := tally_update (Thread.steps (Fintype.card ι)) s.thread t
    (.inside k (.broadcast result .ack))
  have hawaits := tally_update Thread.awaits s.thread t (.inside k (.broadcast result .ack))
  have hloops := tally_update Thread.looping s.thread t (.inside k (.broadcast result .ack))
  have hbytes : (conditionVariableSend s.queue (wiring.cend t) (s.queue.node w).cend
      evt).bytes wiring = s.queue.bytes wiring + 1 := by
    have hupdate : (fun u => (conditionVariableSend s.queue (wiring.cend t)
        (s.queue.node w).cend evt).inFlight (wiring.cend u)) =
        Function.update (fun u => s.queue.inFlight (wiring.cend u)) w [evt] := by
      funext u
      rw [h.bytes_of_send hcend evt hwt]
      by_cases hu : u = w
      · subst hu
        simp [hempty]
      · simp [hu]
    have hsum := tally_update List.length (fun u => s.queue.inFlight (wiring.cend u)) w [evt]
    rw [← hupdate, hempty] at hsum
    exact hsum
  have hone := le_tally Thread.looping s.thread t
  rw [hk] at htally hawaits hloops hone
  rw [show (Thread.inside k (.broadcast result .ack) : Thread κ α).awaits =
    (Thread.inside k (.broadcast result .test) : Thread κ α).awaits from rfl,
    Nat.add_right_cancel_iff] at hawaits
  rw [show (Thread.inside k (.broadcast result .ack) : Thread κ α).looping =
    (Thread.inside k (.broadcast result .test) : Thread κ α).looping from rfl,
    Nat.add_right_cancel_iff] at hloops
  simp only [queueBudget, hbytes, hawaits, hloops]
  simp only [Thread.steps, Pc.steps, WakePc.steps] at htally
  -- one waiter less is without a byte
  have hproduct : tally Thread.looping s.thread *
      (tally Thread.awaits s.thread - (s.queue.bytes wiring + 1)) + 1 ≤
      tally Thread.looping s.thread *
        (tally Thread.awaits s.thread - s.queue.bytes wiring) := by
    obtain ⟨n, hn⟩ : ∃ n, tally Thread.awaits s.thread - s.queue.bytes wiring = n + 1 :=
      ⟨_, (Nat.succ_pred_eq_of_pos (Nat.sub_pos_of_lt hlt)).symm⟩
    rw [Nat.sub_add_eq, hn, Nat.add_sub_cancel, Nat.mul_succ]
    exact Nat.add_le_add_left hone _
  omega

omit [DecidableEq χ] in
/-- A thread that goes to sleep, while no broadcast is under way. -/
theorem queueBudget_lt_of_unlocked (hbytes : q'.bytes wiring = s.queue.bytes wiring)
    (hlooping : th.looping = 0) (hbefore : tally Thread.looping s.thread = 0)
    (hsteps : th.steps (Fintype.card ι) < (s.thread t).steps (Fintype.card ι)) :
    queueBudget wiring { s with queue := q', thread := Function.update s.thread t th } <
      queueBudget wiring s := by
  have htally := tally_update (Thread.steps (Fintype.card ι)) s.thread t th
  have hloops := tally_update Thread.looping s.thread t th
  have hle := le_tally Thread.looping s.thread t
  have hzero : tally Thread.looping (Function.update s.thread t th) = 0 := by omega
  simp only [queueBudget, hbytes, hbefore, hzero, Nat.zero_mul, Nat.mul_zero]
  omega

omit [DecidableEq χ] in
/-- A broadcast that takes the spinlock. -/
theorem queueBudget_broadcast (hl : Locked s) {k : κ} {result : Result α}
    (hk : s.thread t = .inside k (.broadcast result .lock)) (hfree : s.queue.cvLock = none) :
    queueBudget wiring { s with
        queue := { s.queue with cvLock := some t }
        thread := Function.update s.thread t (.inside k (.broadcast result .test)) } <
      queueBudget wiring s := by
  have htally := tally_update (Thread.steps (Fintype.card ι)) s.thread t
    (.inside k (.broadcast result .test))
  have hawaits := tally_update Thread.awaits s.thread t (.inside k (.broadcast result .test))
  have hloops := tally_update Thread.looping s.thread t (.inside k (.broadcast result .test))
  have hzero := hl.looping_eq_zero (t := t) (Or.inl hfree)
  have hcard := awaits_le_card s
  rw [hk] at htally hawaits hloops
  rw [show (Thread.inside k (.broadcast result .test) : Thread κ α).awaits =
    (Thread.inside k (.broadcast result .lock) : Thread κ α).awaits from rfl,
    Nat.add_right_cancel_iff] at hawaits
  rw [hzero, show (Thread.inside k (.broadcast result .lock) : Thread κ α).looping = 0 from rfl,
    show (Thread.inside k (.broadcast result .test) : Thread κ α).looping = 1 from rfl] at hloops
  simp only [Thread.steps, Pc.steps, WakePc.steps] at htally
  simp only [queueBudget, Queue.bytes, hawaits, hzero,
    show tally Thread.looping (Function.update s.thread t
      (.inside k (.broadcast result .test))) = 1 by omega]
  omega

/-- A waiter takes its byte. -/
theorem queueBudget_take (hcend : Function.Injective wiring.cend) {l rest : List ι}
    (h : Waiting wiring s.queue s.phase l rest) {k : κ} {op : QueueOp α}
    (hk : s.thread t = .inside k (.wait op .chanIn)) {e : ConditionEvent}
    {bytes : List ConditionEvent} (hbyte : s.queue.inFlight (s.queue.node t).cend = e :: bytes)
    (hflight : q'.inFlight =
      Function.update s.queue.inFlight (s.queue.node t).cend bytes) :
    queueBudget wiring { s with
        queue := q', thread := Function.update s.thread t (.inside k (.wait op .reacquire)) } <
      queueBudget wiring s := by
  have htally := tally_update (Thread.steps (Fintype.card ι)) s.thread t
    (.inside k (.wait op .reacquire))
  have hawaits := tally_update Thread.awaits s.thread t (.inside k (.wait op .reacquire))
  have hloops := tally_update Thread.looping s.thread t (.inside k (.wait op .reacquire))
  rw [h.cend t] at hbyte hflight
  have hnil := (h.of_byte hbyte).2.2
  subst hnil
  have hbytes : q'.bytes wiring + 1 = s.queue.bytes wiring := by
    have hupdate : (fun u => q'.inFlight (wiring.cend u)) =
        Function.update (fun u => s.queue.inFlight (wiring.cend u)) t [] := by
      funext u
      rw [hflight]
      by_cases hu : u = t
      · simp [hu]
      · simp [hu, hcend.ne hu]
    have hsum := tally_update List.length (fun u => s.queue.inFlight (wiring.cend u)) t []
    rw [← hupdate, hbyte] at hsum
    exact hsum
  rw [hk] at htally hawaits hloops
  rw [show (Thread.inside k (.wait op .reacquire) : Thread κ α).looping =
    (Thread.inside k (.wait op .chanIn) : Thread κ α).looping from rfl,
    Nat.add_right_cancel_iff] at hloops
  rw [show (Thread.inside k (.wait op .reacquire) : Thread κ α).awaits = 0 from rfl,
    show (Thread.inside k (.wait op .chanIn) : Thread κ α).awaits = 1 from rfl] at hawaits
  simp only [Thread.steps, Pc.steps] at htally
  -- a waiter less and a byte less
  have hdiff : tally Thread.awaits (Function.update s.thread t
      (.inside k (.wait op .reacquire))) - q'.bytes wiring =
      tally Thread.awaits s.thread - s.queue.bytes wiring := by omega
  simp only [queueBudget, hloops, hdiff]
  omega

/-- Every step inside the functions of a queue that nobody deletes takes something off the
budget. -/
theorem queueBudget_lt (hcend : Function.Injective wiring.cend) (hdelete : caller.NoDelete)
    (hs : (threads wiring caller length env start).Reachable s) {k : κ} {pc : Pc α}
    {c : Control α} (hk : s.thread t = .inside k pc)
    (hq : s.queue.step wiring t pc = some (q', c)) :
    queueBudget wiring { s with
        queue := q'
        thread := Function.update s.thread t (Thread.resume caller t k c) } <
      queueBudget wiring s := by
  have hl := locked_of_reachable hs
  have hundeleted := undeleted_of_reachable hdelete hs
  rcases waiting_of_reachable hcend hs with ⟨l, rest, hwait⟩
  have hholds : pc.holdsCvLock = true → (s.thread t).HoldsCvLock := by simp [hk]
  have hpending := hundeleted.threads t k pc hk
  have hquiet : ∀ (q : Queue ι χ α) (c : Control α), q.inFlight = s.queue.inFlight →
      (Thread.resume caller t k c).awaits = (s.thread t).awaits →
      (Thread.resume caller t k c).looping ≤ (s.thread t).looping →
      c.steps (Fintype.card ι) < pc.steps (Fintype.card ι) →
      queueBudget wiring { s with
        queue := q, thread := Function.update s.thread t (Thread.resume caller t k c) } <
          queueBudget wiring s := by
    intro q c hflight hawaits hlooping hsteps
    refine queueBudget_lt_of_quiet (by rw [Queue.bytes, hflight]; rfl) hawaits hlooping ?_
    rw [Thread.steps_resume, hk]
    exact hsteps
  cases queueStep_of_step hq with
  | waitLink op =>
      refine queueBudget_lt_of_unlocked rfl rfl
        (hl.looping_eq_zero (t := t) (Or.inr ⟨hholds rfl, by rw [hk]; rfl⟩)) ?_
      rw [hk]
      simp [Thread.resume, Thread.steps, Pc.steps]
  | chanInSignal op bytes hbyte => exact queueBudget_take hcend hwait hk hbyte rfl
  | chanInTerminate op bytes hbyte =>
      have hsignal := hundeleted.bytes (s.queue.node t).cend .terminate
        (by rw [hbyte]; exact List.mem_cons_self)
      cases hsignal
  | broadcast result at_ at' _ hwake =>
      cases wakeStep_of_wake hwake with
      | lock hfree => exact queueBudget_broadcast hl hk hfree
      | send w hwaiters => exact queueBudget_send hcend hl hwait hk hwaiters _
      | testEmpty _ =>
          exact hquiet _ _ rfl (by rw [hk]; rfl) (Nat.zero_le _) (by
            simp [Control.steps, Pc.steps, WakePc.steps])
      | ack _ =>
          exact hquiet _ _ rfl (by rw [hk]; rfl) (by rw [hk]; exact Nat.le_refl _) (by
            simp [Control.steps, Pc.steps, WakePc.steps])
      | unlink w _ =>
          exact hquiet _ _ rfl (by rw [hk]; rfl) (by rw [hk]; exact Nat.le_refl _) (by
            simp [Control.steps, Pc.steps, WakePc.steps])
  | testProceed op _ =>
      cases op with
      | send item =>
          exact hquiet _ _ rfl (by rw [hk]; rfl) (Nat.zero_le _) (by
            simp [Control.steps, Pc.steps, QueueOp.proceed])
      | receive =>
          exact hquiet _ _ rfl (by rw [hk]; rfl) (Nat.zero_le _) (by
            simp [Control.steps, Pc.steps, QueueOp.proceed])
  | terminate => exact absurd rfl hpending
  | terminateDone => exact absurd rfl hpending
  | deleteSpinlock => exact absurd rfl hpending
  | freeConditionVariable => exact absurd rfl hpending
  | deleteMutex => exact absurd rfl hpending
  | freeRingBuffer => exact absurd rfl hpending
  | freeQueue => exact absurd rfl hpending
  | overwrite item =>
      refine hquiet _ _ ?_ (by rw [hk]; rfl) (Nat.zero_le _) (by simp [Control.steps, Pc.steps])
      split <;> rfl
  | _ =>
      exact hquiet _ _ rfl (by rw [hk]; rfl) (by rw [hk]; exact Nat.le_refl _) (by
        simp [Control.steps, Pc.steps, WakePc.steps])

omit [DecidableEq χ] in
/-- A thread that stays outside the queue functions, or calls one. -/
theorem queueBudget_outside {k : κ} (hk : s.thread t = .outside k) (env' : μ)
    (hphase : th.phase = .idle) (hlooping : th.looping = 0) :
    queueBudget wiring { s with env := env', thread := Function.update s.thread t th } =
      queueBudget wiring s + th.steps (Fintype.card ι) := by
  have htally := tally_update (Thread.steps (Fintype.card ι)) s.thread t th
  have hawaits := tally_update Thread.awaits s.thread t th
  have hloops := tally_update Thread.looping s.thread t th
  rw [hk] at htally hawaits hloops
  rw [Thread.awaits_of_phase hphase, Thread.awaits_of_phase (Thread.phase_outside k),
    Nat.add_right_cancel_iff] at hawaits
  rw [hlooping, show (Thread.outside k : Thread κ α).looping = 0 from rfl,
    Nat.add_right_cancel_iff] at hloops
  rw [show (Thread.outside k : Thread κ α).steps (Fintype.card ι) = 0 from rfl] at htally
  simp only [queueBudget, hawaits, hloops]
  omega

/-- Nobody is inside the queue functions at the start. -/
theorem queueBudget_init :
    queueBudget wiring (threads wiring caller length env start).init = 0 := by
  have hzero : ∀ w : Thread κ α → Nat, (∀ k, w (.outside k) = 0) →
      tally w (threads wiring caller length env start).init.thread = 0 := by
    intro w hw
    rw [tally_eq_zero_iff]
    exact fun t => hw (start t)
  have hbytes : (threads wiring caller length env start).init.queue.bytes wiring = 0 := by
    rw [Queue.bytes, tally_eq_zero_iff]
    exact fun _ => rfl
  rw [queueBudget, hbytes, hzero _ fun _ => rfl, hzero Thread.looping fun _ => rfl]
  omega

end Steps

end Metal
end LibDispatch
