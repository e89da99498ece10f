import LibDispatch.Metal.Queue

/-!
# The statements of the queue functions, case by case

{lit}`Queue.step` is a function, so that schedules can be executed.  The proofs about
it argue by cases on the statement that was executed; this file states those cases
once, as two inductive relations, and proves that every step is one of them.

Main results:

- Theorem {lit}`queueStep_of_step`: every executed statement is a {lit}`QueueStep`.
- Theorem {lit}`wakeStep_of_wake`: every turn of the waking loop is a {lit}`WakeStep`.
-/

namespace LibDispatch
namespace Metal

variable {ι χ α : Type} [DecidableEq ι] [DecidableEq χ]

/-! ## The statements, case by case -/

/-- {lit}`QueueStep wiring q t pc q' c`: at position {lit}`pc`, thread {lit}`t` can turn the
queue {lit}`q` into {lit}`q'` and go on as {lit}`c`.  The same steps as {lit}`Queue.step`, one
constructor for each case, for proofs by case analysis. -/
inductive QueueStep (wiring : Wiring ι χ) (q : Queue ι χ α) (t : ι) :
    Pc α → Queue ι χ α → Control α → Prop where
  | lock (op : QueueOp α) (hfree : q.mutex = none) :
      QueueStep wiring q t (.lock op) { q with mutex := some t } (.goto (.test op))
  | testBlocked (op : QueueOp α) (hblocked : op.blocked q = true) :
      QueueStep wiring q t (.test op) q (.goto (.wait op .lock))
  | testProceed (op : QueueOp α) (hblocked : op.blocked q = false) :
      QueueStep wiring q t (.test op) q (.goto op.proceed)
  | waitLock (op : QueueOp α) (hfree : q.cvLock = none) :
      QueueStep wiring q t (.wait op .lock) { q with cvLock := some t }
        (.goto (.wait op .link))
  | waitLink (op : QueueOp α) :
      QueueStep wiring q t (.wait op .link)
        { q with
          node := Function.update q.node t ⟨wiring.cend t, q.waiters⟩
          waiters := some t }
        (.goto (.wait op .unlock))
  | waitUnlock (op : QueueOp α) :
      QueueStep wiring q t (.wait op .unlock) { q with cvLock := none }
        (.goto (.wait op .release))
  | waitRelease (op : QueueOp α) :
      QueueStep wiring q t (.wait op .release) { q with mutex := none }
        (.goto (.wait op .chanIn))
  | chanInSignal (op : QueueOp α) (rest : List ConditionEvent)
      (hbyte : q.inFlight (q.node t).cend = .signal :: rest) :
      QueueStep wiring q t (.wait op .chanIn)
        { q with inFlight := Function.update q.inFlight (q.node t).cend rest }
        (.goto (.wait op .reacquire))
  | chanInTerminate (op : QueueOp α) (rest : List ConditionEvent)
      (hbyte : q.inFlight (q.node t).cend = .terminate :: rest) :
      QueueStep wiring q t (.wait op .chanIn)
        { q with inFlight := Function.update q.inFlight (q.node t).cend rest }
        (.goto (.wait op .leave))
  | leave (op : QueueOp α) :
      QueueStep wiring q t (.wait op .leave) q (.ret .terminated)
  | reacquire (op : QueueOp α) (hfree : q.mutex = none) :
      QueueStep wiring q t (.wait op .reacquire) { q with mutex := some t }
        (.goto (.test op))
  | store (item : α) :
      QueueStep wiring q t (.store item)
        { q with ringBuffer := Function.update q.ringBuffer q.head (some item) }
        (.goto (.overwrite item))
  | overwrite (item : α) :
      QueueStep wiring q t (.overwrite item)
        (if q.full = true then { q with tail := (q.tail + 1) % q.length } else q)
        (.goto (.advanceHead item))
  | advanceHead (item : α) :
      QueueStep wiring q t (.advanceHead item) { q with head := (q.head + 1) % q.length }
        (.goto (.setFull item))
  | setFull (item : α) :
      QueueStep wiring q t (.setFull item) { q with full := decide (q.head = q.tail) }
        (.goto (.broadcast .sent .lock))
  | load (item : α) (hslot : q.ringBuffer q.tail = some item) :
      QueueStep wiring q t .load q (.goto (.clearFull item))
  | clearFull (item : α) :
      QueueStep wiring q t (.clearFull item) { q with full := false }
        (.goto (.advanceTail item))
  | advanceTail (item : α) :
      QueueStep wiring q t (.advanceTail item) { q with tail := (q.tail + 1) % q.length }
        (.goto (.broadcast (.received item) .lock))
  | broadcast (result : Result α) (at_ at' : WakePc) (q' : Queue ι χ α)
      (hwake : conditionVariableBroadcast wiring q t at_ = some (q', some at')) :
      QueueStep wiring q t (.broadcast result at_) q' (.goto (.broadcast result at'))
  | broadcastDone (result : Result α) :
      QueueStep wiring q t (.broadcast result .unlock) { q with cvLock := none }
        (.goto (.unlock result))
  | unlock (result : Result α) :
      QueueStep wiring q t (.unlock result) { q with mutex := none } (.ret result)
  | sizeLock (hfree : q.mutex = none) :
      QueueStep wiring q t .sizeLock { q with mutex := some t } (.goto .sizeRead)
  | sizeRead :
      QueueStep wiring q t .sizeRead q (.goto (.unlock (.size (queueSize q))))
  | terminate (at_ at' : WakePc) (q' : Queue ι χ α)
      (hwake : conditionVariableTerminate wiring q t at_ = some (q', some at')) :
      QueueStep wiring q t (.terminate at_) q' (.goto (.terminate at'))
  | terminateDone :
      QueueStep wiring q t (.terminate .unlock) { q with cvLock := none }
        (.goto .deleteSpinlock)
  | deleteSpinlock :
      QueueStep wiring q t .deleteSpinlock
        { q with released := Function.update q.released .spinlock true }
        (.goto .freeConditionVariable)
  | freeConditionVariable :
      QueueStep wiring q t .freeConditionVariable
        { q with released := Function.update q.released .conditionVariable true }
        (.goto .deleteMutex)
  | deleteMutex :
      QueueStep wiring q t .deleteMutex
        { q with released := Function.update q.released .mutex true }
        (.goto .freeRingBuffer)
  | freeRingBuffer :
      QueueStep wiring q t .freeRingBuffer
        { q with released := Function.update q.released .ringBuffer true }
        (.goto .freeQueue)
  | freeQueue :
      QueueStep wiring q t .freeQueue
        { q with released := Function.update q.released .queue true } (.ret .deleted)

/-- {lit}`WakeStep wiring evt q t at_ q' at'`: one turn inside the waking loop. -/
inductive WakeStep (evt : ConditionEvent) (wiring : Wiring ι χ) (q : Queue ι χ α) (t : ι) :
    WakePc → Queue ι χ α → WakePc → Prop where
  | lock (hfree : q.cvLock = none) :
      WakeStep evt wiring q t .lock { q with cvLock := some t } .test
  | testEmpty (hwaiters : q.waiters = none) :
      WakeStep evt wiring q t .test q .unlock
  | send (w : ι) (hwaiters : q.waiters = some w) :
      WakeStep evt wiring q t .test
        (conditionVariableSend q (wiring.cend t) (q.node w).cend evt) .ack
  | ack (htaken : wiring.handshake = true → q.inFlight (q.dest (wiring.cend t)) = []) :
      WakeStep evt wiring q t .ack q .unlink
  | unlink (w : ι) (hwaiters : q.waiters = some w) :
      WakeStep evt wiring q t .unlink { q with waiters := (q.node w).next } .test

omit [DecidableEq ι] in
/-- Every turn of the waking loop that stays in the loop is one of the listed ones. -/
theorem wakeStep_of_wake {evt : ConditionEvent} {wiring : Wiring ι χ} {q q' : Queue ι χ α}
    {t : ι} {at_ at' : WakePc}
    (h : conditionVariableWake evt wiring q t at_ = some (q', some at')) :
    WakeStep evt wiring q t at_ q' at' := by
  cases at_ with
  | lock =>
      simp only [conditionVariableWake, Option.ite_none_right_eq_some, Option.some.injEq,
        Prod.mk.injEq] at h
      rcases h with ⟨hfree, rfl, rfl⟩
      exact .lock hfree
  | test =>
      simp only [conditionVariableWake] at h
      split at h
      · rename_i hw
        cases h
        exact .testEmpty hw
      · rename_i w hw
        cases h
        exact .send w hw
  | ack =>
      simp only [conditionVariableWake] at h
      split at h
      · cases h
      · rename_i hack
        cases h
        refine .ack fun hs => ?_
        by_contra hne
        exact hack ⟨hs, hne⟩
  | unlink =>
      simp only [conditionVariableWake] at h
      split at h
      · cases h
      · rename_i w hw
        cases h
        exact .unlink w hw
  | unlock => simp [conditionVariableWake] at h

omit [DecidableEq ι] in
/-- The waking loop is left by its last statement only. -/
theorem wake_eq_done {evt : ConditionEvent} {wiring : Wiring ι χ} {q q' : Queue ι χ α}
    {t : ι} {at_ : WakePc}
    (h : conditionVariableWake evt wiring q t at_ = some (q', none)) :
    at_ = .unlock ∧ q' = { q with cvLock := none } := by
  cases at_ with
  | unlock =>
      cases h
      exact ⟨rfl, rfl⟩
  | lock => simp [conditionVariableWake] at h
  | ack => simp [conditionVariableWake] at h
  | test =>
      simp only [conditionVariableWake] at h
      split at h <;> cases h
  | unlink =>
      simp only [conditionVariableWake] at h
      split at h <;> cases h

/-- Every executed statement is one of the listed ones. -/
theorem queueStep_of_step {wiring : Wiring ι χ} {q q' : Queue ι χ α} {t : ι} {pc : Pc α}
    {c : Control α} (h : q.step wiring t pc = some (q', c)) :
    QueueStep wiring q t pc q' c := by
  cases pc with
  | lock op =>
      simp only [Queue.step, Option.ite_none_right_eq_some, Option.some.injEq,
        Prod.mk.injEq] at h
      rcases h with ⟨hfree, rfl, rfl⟩
      exact .lock op hfree
  | test op =>
      cases hb : op.blocked q with
      | true =>
          simp only [Queue.step, hb, if_true] at h
          cases h
          exact .testBlocked op hb
      | false =>
          simp only [Queue.step, hb] at h
          cases h
          exact .testProceed op hb
  | wait op at_ =>
      simp only [Queue.step, Option.map_eq_some_iff] at h
      rcases h with ⟨⟨q₁, r⟩, hwait, heq⟩
      cases heq
      cases at_ with
      | lock =>
          simp only [conditionVariableWait, Option.ite_none_right_eq_some,
            Option.some.injEq, Prod.mk.injEq] at hwait
          rcases hwait with ⟨hfree, rfl, rfl⟩
          exact .waitLock op hfree
      | link =>
          cases hwait
          exact .waitLink op
      | unlock =>
          cases hwait
          exact .waitUnlock op
      | release =>
          cases hwait
          exact .waitRelease op
      | chanIn =>
          simp only [conditionVariableWait] at hwait
          split at hwait
          · cases hwait
          · rename_i evt rest hbyte
            cases hwait
            cases evt with
            | signal => exact .chanInSignal op rest hbyte
            | terminate => exact .chanInTerminate op rest hbyte
      | leave =>
          cases hwait
          exact .leave op
      | reacquire =>
          simp only [conditionVariableWait, Option.ite_none_right_eq_some,
            Option.some.injEq, Prod.mk.injEq] at hwait
          rcases hwait with ⟨hfree, rfl, rfl⟩
          exact .reacquire op hfree
  | broadcast result at_ =>
      simp only [Queue.step, Option.map_eq_some_iff] at h
      rcases h with ⟨⟨q₁, r⟩, hwake, heq⟩
      cases heq
      cases r with
      | some at' => exact .broadcast result at_ at' _ hwake
      | none =>
          rcases wake_eq_done hwake with ⟨rfl, rfl⟩
          exact .broadcastDone result
  | terminate at_ =>
      simp only [Queue.step, Option.map_eq_some_iff] at h
      rcases h with ⟨⟨q₁, r⟩, hwake, heq⟩
      cases heq
      cases r with
      | some at' => exact .terminate at_ at' _ hwake
      | none =>
          rcases wake_eq_done hwake with ⟨rfl, rfl⟩
          exact .terminateDone
  | load =>
      simp only [Queue.step, Option.map_eq_some_iff] at h
      rcases h with ⟨item, hslot, heq⟩
      cases heq
      exact .load item hslot
  | sizeLock =>
      simp only [Queue.step, Option.ite_none_right_eq_some, Option.some.injEq,
        Prod.mk.injEq] at h
      rcases h with ⟨hfree, rfl, rfl⟩
      exact .sizeLock hfree
  | store item => cases h; exact .store item
  | overwrite item => cases h; exact .overwrite item
  | advanceHead item => cases h; exact .advanceHead item
  | setFull item => cases h; exact .setFull item
  | clearFull item => cases h; exact .clearFull item
  | advanceTail item => cases h; exact .advanceTail item
  | unlock result => cases h; exact .unlock result
  | sizeRead => cases h; exact .sizeRead
  | deleteSpinlock => cases h; exact .deleteSpinlock
  | freeConditionVariable => cases h; exact .freeConditionVariable
  | deleteMutex => cases h; exact .deleteMutex
  | freeRingBuffer => cases h; exact .freeRingBuffer
  | freeQueue => cases h; exact .freeQueue

/-! ## Where a position in a waking loop comes from -/

section Turns

variable {wiring : Wiring ι χ} {q q' : Queue ι χ α} {t : ι} {pc : Pc α} {c : Control α}

/-- Inside {lit}`condition_variable_terminate` a thread goes through the waking loop. -/
theorem QueueStep.terminate_cases (h : QueueStep wiring q t pc q' c) {at' : WakePc}
    (hc : c = .goto (.terminate at')) :
    ∃ at_, pc = .terminate at_ ∧ WakeStep .terminate wiring q t at_ q' at' := by
  cases h with
  | terminate at_ _ _ hw =>
      cases hc
      exact ⟨at_, rfl, wakeStep_of_wake hw⟩
  | testProceed op _ => cases op <;> cases hc
  | _ => cases hc

/-- A broadcast past its lock was in the waking loop before. -/
theorem QueueStep.broadcast_cases {result : Result α} {at' : WakePc}
    (h : QueueStep wiring q t pc q' (.goto (.broadcast result at'))) (hne : at' ≠ .lock) :
    ∃ at_, pc = .broadcast result at_ ∧ WakeStep .signal wiring q t at_ q' at' := by
  generalize hc : Control.goto (Pc.broadcast result at') = c at h
  cases h with
  | broadcast result' at_ at'' _ hwake =>
      cases hc
      exact ⟨at_, rfl, wakeStep_of_wake hwake⟩
  | testProceed op _ => cases op <;> cases hc
  | setFull item =>
      cases hc
      exact absurd rfl hne
  | advanceTail item =>
      cases hc
      exact absurd rfl hne
  | _ => cases hc

end Turns

end Metal
end LibDispatch
