import LibDispatch.Library.RingBuffer
import LibDispatch.Metal.LockDiscipline

/-!
# What the ring buffer holds

Between critical sections the ring buffer of a queue holds a list in the sense of
{lit}`RingBuffer.Holds`.  Inside one, the fields are stored one after the other, and
what they say about the list depends on how far the thread that owns the mutex
has come.  {lit}`RingPhase` states this for each position, and {lit}`Contents` for a
state.

Main results:

- Theorem {lit}`QueueStep.ring`: the effect of a statement of the mutex owner on the
  list.
- Theorem {lit}`Contents.step`: every step keeps the contents, and changes them only
  where a send or a receive takes effect.
- Theorem {lit}`contents_of_reachable`: every reachable queue of positive length has
  contents.
- Theorem {lit}`Contents.overwrite_not_full`: the overwriting branch of
  {lit}`queue_send` is never taken.
-/

namespace LibDispatch
namespace Metal

variable {ι χ α κ μ : Type}

/-! ## The list behind the fields -/

/-- The fields of the queue hold the list {lit}`xs`. -/
def Queue.Holds (q : Queue ι χ α) (xs : List α) : Prop :=
  RingBuffer.Holds q.length q.ringBuffer q.head q.tail q.full xs

/-- What the fields say about the held list when the owner of the mutex is at a
position.  While {lit}`queue_send` is between its stores to {lit}`head` and {lit}`full`, the
list is still the one for the previous {lit}`head`; while {lit}`queue_receive` is between
its stores to {lit}`full` and {lit}`tail`, it is still the one for the previous flag. -/
def RingPhase (q : Queue ι χ α) (xs : List α) : Pc α → Prop
  | .store _ => q.Holds xs ∧ q.full = false
  | .overwrite item | .advanceHead item =>
      q.Holds xs ∧ q.full = false ∧ q.ringBuffer q.head = some item
  | .setFull item =>
      ∃ head, q.head = (head + 1) % q.length ∧ Queue.Holds { q with head := head } xs ∧
        q.full = false ∧ q.ringBuffer head = some item
  | .load => q.Holds xs ∧ xs ≠ []
  | .clearFull item => q.Holds xs ∧ ∃ rest, xs = item :: rest
  | .advanceTail item =>
      q.full = false ∧ ∃ full rest, Queue.Holds { q with full := full } xs ∧
        xs = item :: rest
  | _ => q.Holds xs

/-- What the fields say after a step of the owner of the mutex. -/
def Control.RingPhase (q : Queue ι χ α) (xs : List α) : Control α → Prop
  | .goto pc => Metal.RingPhase q xs pc
  | .ret _ => q.Holds xs

/-- The list after the statement at a position: it changes at the last store to
the indices only. -/
def Pc.commit (xs : List α) : Pc α → List α
  | .setFull item => xs ++ [item]
  | .advanceTail _ => xs.tail
  | _ => xs

theorem Queue.Holds.empty_iff {q : Queue ι χ α} {xs : List α} (h : q.Holds xs) :
    queueEmpty q = true ↔ xs = [] := by
  rw [← RingBuffer.Holds.empty_iff h]
  simp [queueEmpty]

theorem Queue.Holds.full_iff {q : Queue ι χ α} {xs : List α} (h : q.Holds xs) :
    queueFull q = true ↔ xs.length = q.length :=
  RingBuffer.Holds.full_iff h

/-- {lit}`queue_size` computes the length of the held list. -/
theorem Queue.Holds.queueSize_eq {q : Queue ι χ α} {xs : List α} (h : q.Holds xs) :
    queueSize q = xs.length :=
  RingBuffer.Holds.size_eq h

/-- Queues with the same ring buffer, indices and flag hold the same lists. -/
theorem Queue.Holds.congr {q q' : Queue ι χ α} {xs : List α} (h : q.Holds xs)
    (hlength : q'.length = q.length) (hring : q'.ringBuffer = q.ringBuffer)
    (hhead : q'.head = q.head) (htail : q'.tail = q.tail) (hfull : q'.full = q.full) :
    q'.Holds xs := by
  unfold Queue.Holds
  rw [hlength, hring, hhead, htail, hfull]
  exact h

section Phases

variable {q q' : Queue ι χ α} {pc : Pc α} {c : Control α} {xs : List α}

/-- Positions outside the mutex say that the fields hold the list. -/
theorem ringPhase_iff_holds (hpc : pc.holdsMutex = false) :
    RingPhase q xs pc ↔ q.Holds xs := by
  cases pc <;> first | exact Iff.rfl | simp [Pc.holdsMutex] at hpc

/-- A step that ends without the mutex ends with the fields holding the list. -/
theorem Control.RingPhase.holds (h : c.RingPhase q xs) (hc : c.holdsMutex = false) :
    q.Holds xs := by
  cases c with
  | goto pc => exact (ringPhase_iff_holds hc).mp h
  | ret result => exact h

/-- Only the owner of the mutex commits. -/
theorem Pc.commit_of_not_holdsMutex (hpc : pc.holdsMutex = false) : pc.commit xs = xs := by
  cases pc <;> first | rfl | simp [Pc.holdsMutex] at hpc

/-- The phase of a position depends on the ring buffer, the indices and the flag. -/
theorem RingPhase.congr (h : RingPhase q xs pc)
    (hframe : q'.length = q.length ∧ q'.ringBuffer = q.ringBuffer ∧ q'.head = q.head ∧
      q'.tail = q.tail ∧ q'.full = q.full) : RingPhase q' xs pc := by
  rcases hframe with ⟨hlength, hring, hhead, htail, hfull⟩
  cases pc <;>
    simp only [RingPhase, Queue.Holds, hlength, hring, hhead, htail, hfull] at h ⊢ <;>
    exact h

end Phases

/-! ## Statements -/

section Steps

variable [DecidableEq χ] {wiring : Wiring ι χ} {q q' : Queue ι χ α}
  {t : ι} {pc : Pc α} {c : Control α} {xs : List α}

/-- The waking loop does not touch the ring buffer. -/
theorem WakeStep.holds {evt : ConditionEvent} {at_ at' : WakePc}
    (h : WakeStep evt wiring q t at_ q' at') (hq : q.Holds xs) : q'.Holds xs := by
  cases h <;> exact hq

variable [DecidableEq ι]

/-- The owner of the mutex keeps the list or, at the last store to the indices,
commits its send or receive. -/
theorem QueueStep.ring (h : QueueStep wiring q t pc q' c) (hpc : RingPhase q xs pc) :
    c.RingPhase q' (pc.commit xs) := by
  cases h with
  | testProceed op hblocked =>
      have hq : q.Holds xs := hpc
      cases op with
      | send item => exact ⟨hq, hblocked⟩
      | receive =>
          refine ⟨hq, fun hxs => ?_⟩
          have hempty : queueEmpty q = true := hq.empty_iff.mpr hxs
          exact Bool.noConfusion (hempty.symm.trans hblocked)
  | store item =>
      rcases hpc with ⟨hq, hfull⟩
      exact ⟨hq.write_head hfull item, hfull, Function.update_self ..⟩
  | overwrite item =>
      rcases hpc with ⟨hq, hfull, hslot⟩
      rw [if_neg (by simp [hfull])]
      exact ⟨hq, hfull, hslot⟩
  | advanceHead item =>
      rcases hpc with ⟨hq, hfull, hslot⟩
      exact ⟨q.head, rfl, hq, hfull, hslot⟩
  | setFull item =>
      rcases hpc with ⟨head, hhead, hq, hfull, hslot⟩
      have hpush := hq.push hfull hslot
      change RingBuffer.Holds q.length q.ringBuffer q.head q.tail (decide (q.head = q.tail))
        (xs ++ [item])
      rw [hhead]
      exact hpush
  | load item hslot =>
      rcases hpc with ⟨hq, hne⟩
      cases xs with
      | nil => exact absurd rfl hne
      | cons x rest =>
          have heq : x = item := Option.some.inj (hq.slot_tail.symm.trans hslot)
          exact ⟨hq, rest, by rw [heq]; rfl⟩
  | clearFull item =>
      rcases hpc with ⟨hq, rest, hxs⟩
      exact ⟨rfl, q.full, rest, hq, hxs⟩
  | advanceTail item =>
      rcases hpc with ⟨hfull, full, rest, hq, hxs⟩
      rw [hxs] at hq
      have hpop := hq.pop
      change RingBuffer.Holds q.length q.ringBuffer q.head ((q.tail + 1) % q.length) q.full
        xs.tail
      rw [hxs, hfull]
      exact hpop
  | broadcast result at_ at' _ hwake => exact (wakeStep_of_wake hwake).holds hpc
  | terminate at_ at' _ hwake => exact (wakeStep_of_wake hwake).holds hpc
  | _ => exact hpc

/-- A statement of a thread that neither holds nor takes the mutex leaves the ring
buffer, the indices and the flag alone. -/
theorem QueueStep.frame (h : QueueStep wiring q t pc q' c) (hpc : pc.holdsMutex = false)
    (hmutex : q'.mutex = q.mutex) :
    q'.length = q.length ∧ q'.ringBuffer = q.ringBuffer ∧ q'.head = q.head ∧
      q'.tail = q.tail ∧ q'.full = q.full := by
  cases h with
  | terminate at_ at' _ hwake =>
      cases wakeStep_of_wake hwake <;> exact ⟨rfl, rfl, rfl, rfl, rfl⟩
  | _ => first | exact ⟨rfl, rfl, rfl, rfl, rfl⟩ | simp [Pc.holdsMutex] at hpc

end Steps

/-! ## The invariant -/

/-- The ring buffer of a state holds {lit}`xs`, up to the stores that the owner of the
mutex is in the middle of. -/
structure Contents (s : State ι χ α κ μ) (xs : List α) : Prop where
  free : s.queue.mutex = none → s.queue.Holds xs
  owner : ∀ t k pc, s.thread t = .inside k pc → pc.holdsMutex = true →
    RingPhase s.queue xs pc

/-- When {lit}`queue_send` reaches its test {lit}`if (queue->full)`, the queue is not full:
the overwriting branch is never taken. -/
theorem Contents.overwrite_not_full {s : State ι χ α κ μ} {xs : List α} {t : ι}
    (h : Contents s xs) {k : κ} {item : α}
    (ht : s.thread t = .inside k (.overwrite item)) : s.queue.full = false :=
  (h.owner t k _ ht rfl).2.1

/-- The list after the next step of a thread. -/
def commitOf (s : State ι χ α κ μ) (t : ι) (xs : List α) : List α :=
  match s.thread t with
  | .outside _ => xs
  | .inside _ pc => pc.commit xs

theorem commitOf_outside {s : State ι χ α κ μ} {t : ι} {k : κ} (hk : s.thread t = .outside k)
    (xs : List α) : commitOf s t xs = xs := by
  rw [commitOf, hk]

theorem commitOf_inside {s : State ι χ α κ μ} {t : ι} {k : κ} {pc : Pc α}
    (hk : s.thread t = .inside k pc) (xs : List α) : commitOf s t xs = pc.commit xs := by
  rw [commitOf, hk]

section Invariant

variable [DecidableEq ι] {caller : Caller ι κ μ α} {s s' : State ι χ α κ μ} {t : ι}
  {xs : List α}

/-- Replacing a thread by one that does not hold the mutex, and nothing else. -/
theorem Contents.update_thread (h : Contents s xs) (env' : μ) {th : Thread κ α}
    (hth : ¬ th.HoldsMutex) :
    Contents { s with env := env', thread := Function.update s.thread t th } xs where
  free := h.free
  owner := by
    intro u k pc hu hpc
    by_cases hut : u = t
    · subst hut
      have hu' : th = .inside k pc := by simpa using hu
      exact absurd (by simpa [hu'] using hpc) hth
    · have hu' : s.thread u = .inside k pc := by simpa [hut] using hu
      exact h.owner u k pc hu' hpc

/-- The position reached by a step satisfies the phase established by that step,
and no other thread holds the mutex. -/
theorem Contents.of_step {q' : Queue ι χ α} {k : κ} {c : Control α}
    (hothers : ∀ u, u ≠ t → ¬ (s.thread u).HoldsMutex)
    (hfree : q'.mutex = none → q'.Holds xs) (hphase : c.RingPhase q' xs) :
    Contents { s with
      queue := q'
      thread := Function.update s.thread t (Thread.resume caller t k c) } xs where
  free := hfree
  owner := by
    intro u k' pc hu hpc
    by_cases hut : u = t
    · subst hut
      have hu' : Thread.resume caller u k c = .inside k' pc := by simpa using hu
      cases c with
      | goto pc' =>
          cases hu'
          exact hphase
      | ret result => cases hu'
    · have hu' : s.thread u = .inside k' pc := by simpa [hut] using hu
      exact absurd (by simpa [hu'] using hpc) (hothers u hut)

variable [DecidableEq χ] {wiring : Wiring ι χ}
  {length : Nat} {env : μ} {start : ι → κ}

theorem contents_init (hlength : 0 < length) :
    Contents (threads wiring caller length env start).init ([] : List α) where
  free := fun _ => RingBuffer.Holds.initial hlength _
  owner := by
    intro t k pc hk
    cases hk

/-- Every step keeps the contents, and changes them only where a send or a receive
takes effect. -/
theorem Contents.step (hl : Locked s) (h : Contents s xs)
    (hstep : (threads wiring caller length env start).step s t = some s') :
    Contents s' (commitOf s t xs) := by
  rcases threads_step_cases hstep with
    ⟨k, c, hk, -, rfl⟩ | ⟨k, k', env', hk, -, -, rfl⟩ | ⟨k, pc, q', c, hk, hq, rfl⟩
  · rw [commitOf_outside hk]
    exact h.update_thread s.env (by simp)
  · rw [commitOf_outside hk]
    exact h.update_thread env' (by simp)
  · rw [commitOf_inside hk]
    have hstmt := queueStep_of_step hq
    rcases Queue.step_mutex hq with ⟨hm, hc⟩ | ⟨hfree, hm, hpc, hc⟩ | ⟨hpc, hm, hc⟩
    · cases hpc : pc.holdsMutex with
      | true =>
          have howner : s.queue.mutex = some t := (hl.mutex t).mpr (by simpa [hk] using hpc)
          apply Contents.of_step
          · intro u hut hu
            exact hut (hl.mutex.exclusive hu (by simpa [hk] using hpc))
          · intro hnone
            rw [hm, howner] at hnone
            cases hnone
          · exact hstmt.ring (h.owner t k pc hk hpc)
      | false =>
          have hframe := hstmt.frame hpc hm
          rw [Pc.commit_of_not_holdsMutex hpc]
          constructor
          · intro hnone
            exact (h.free (hm ▸ hnone)).congr hframe.1 hframe.2.1 hframe.2.2.1
              hframe.2.2.2.1 hframe.2.2.2.2
          · intro u k' pc' hu hpc'
            by_cases hut : u = t
            · subst hut
              have hu' : Thread.resume caller u k c = .inside k' pc' := by simpa using hu
              have hholds : (Thread.resume caller u k c).HoldsMutex := by
                rw [hu']
                exact hpc'
              rw [Thread.holdsMutex_resume, hc, hpc] at hholds
              cases hholds
            · have hu' : s.thread u = .inside k' pc' := by simpa [hut] using hu
              exact (h.owner u k' pc' hu' hpc').congr hframe
    · rw [Pc.commit_of_not_holdsMutex hpc]
      have hphase := hstmt.ring ((ringPhase_iff_holds hpc).mpr (h.free hfree))
      rw [Pc.commit_of_not_holdsMutex hpc] at hphase
      apply Contents.of_step
      · intro u _
        have hnone := hl.mutex
        rw [hfree] at hnone
        exact hnone.not_holds_of_free u
      · intro hnone
        rw [hm] at hnone
        cases hnone
      · exact hphase
    · have hphase := hstmt.ring (h.owner t k pc hk hpc)
      apply Contents.of_step
      · intro u hut hu
        exact hut (hl.mutex.exclusive hu (by simpa [hk] using hpc))
      · exact fun _ => hphase.holds hc
      · exact hphase

/-- Every reachable queue of positive length has contents. -/
theorem contents_of_reachable (hlength : 0 < length)
    (hs : (threads wiring caller length env start).Reachable s) : ∃ xs, Contents s xs := by
  refine hs.invariant (P := fun s => ∃ xs, Contents s xs) ⟨[], contents_init hlength⟩ ?_
  rintro s t s' hr ⟨xs, h⟩ hstep
  exact ⟨_, h.step (locked_of_reachable hr) hstep⟩

end Invariant

end Metal
end LibDispatch
