import LibDispatch.Host.GroupRun
import LibDispatch.Host.Shutdown
import LibDispatch.Host.WakeUp

/-!
# When the host dispatch queue comes to rest

A thread that blocks on the host waits for a notification.  A client that blocks on an event
counter or on a ready semaphore has somebody who will notify it: as long as the count is not
zero the decrement is still to come, and after the last decrement a worker has yet to test the
count.  So when no thread can go on but by a spurious wake-up, no notification was lost: the
client has made all its calls, and the workers block or have left.

Main results:

- Theorem {lit}`watched_of_reachable`: who notifies a client that blocks.
- Theorem {lit}`placed_of_reachable`: where the client is in its program.
- Theorem {lit}`ended_of_stuck`: a state at rest is the end of the program.
-/

namespace LibDispatch
namespace Host

variable {N : Nat} {β υ : Type}

/-! ## Clients that block -/

/-- The worker has signalled its ready semaphore and has not left {lit}`Signal`. -/
def WorkerPc.announcing {C : Type} : WorkerPc C → Bool
  | .readyTest | .readyNotify => true
  | _ => false

/-- The worker has signalled its ready semaphore and not reset it since. -/
def WorkerPc.settled {C : Type} : WorkerPc C → Bool
  | .readyTest | .readyNotify | .waitTest | .blocked | .woken | .testTask | .reset => true
  | _ => false

theorem WorkerPc.WokenTo.settled_eq {C : Type} {pc pc' : WorkerPc C} (h : pc.WokenTo pc') :
    pc'.settled = pc.settled := by
  rcases h with rfl | ⟨rfl, rfl⟩ <;> rfl

theorem WorkerPc.WokenTo.afterDecrement?_eq {C : Type} {pc pc' : WorkerPc C}
    (h : pc.WokenTo pc') : pc'.afterDecrement? = pc.afterDecrement? := by
  rcases h with rfl | ⟨rfl, rfl⟩ <;> rfl

theorem WorkerPc.WokenTo.announcing_eq {C : Type} {pc pc' : WorkerPc C} (h : pc.WokenTo pc') :
    pc'.announcing = pc.announcing := by
  rcases h with rfl | ⟨rfl, rfl⟩ <;> rfl

/-- A client does not block by waking up. -/
theorem ClientPc.WokenTo.blocked_eq {pc pc' : ClientPc Unit} (h : pc.WokenTo pc') :
    (∀ counter ts, pc' = .counterBlocked counter ts → pc = .counterBlocked counter ts) ∧
      ∀ j, pc' = .semaphoreBlocked j → pc = .semaphoreBlocked j := by
  rcases h with rfl | ⟨i, rfl, rfl⟩ | ⟨counter, ts, rfl, rfl⟩
  · exact ⟨fun _ _ => id, fun _ => id⟩
  · exact ⟨by rintro _ _ ⟨⟩, by rintro _ ⟨⟩⟩
  · exact ⟨by rintro _ _ ⟨⟩, by rintro _ ⟨⟩⟩

/-- A client that blocks has somebody who will notify it: the count is not zero, or a worker has
yet to test it.  A ready semaphore is clear from its signal to its reset. -/
structure Watched (s : State Unit N β υ) : Prop where
  counter : ∀ counter ts, (s.client ()).pc = .counterBlocked counter ts →
    s.counter counter ≠ 0 ∨ ∃ i, (s.worker i).afterDecrement? = some counter
  semaphore : ∀ j, (s.client ()).pc = .semaphoreBlocked j → ∃ hj : j < N,
    s.semaphore ⟨j, hj⟩ ≠ 0 ∨ (s.worker ⟨j, hj⟩).announcing = true
  settled : ∀ i, (s.worker i).settled = true → s.semaphore i = 0
  le_one : ∀ i, s.semaphore i ≤ 1

section Watched

variable {d : DispatchConfig Unit N β υ} {s s' : State Unit N β υ} {c : Unit} {i : Fin N}

/-- A client blocks after it has seen a count that is not zero. -/
theorem ClientStep.blocked_of (h : ClientStep d s c s') :
    (∀ counter ts, (s'.client ()).pc = .counterBlocked counter ts → s'.counter counter ≠ 0) ∧
      ∀ j, (s'.client ()).pc = .semaphoreBlocked j →
        ∃ hj : j < N, s'.semaphore ⟨j, hj⟩ ≠ 0 := by
  cases c
  cases h with
  | counterBlock counter ts hk hcount =>
      refine ⟨fun counter' ts' hk' => ?_, fun j hj => ?_⟩
      · simp only [State.client_goto, Function.update_self, ClientPc.counterBlocked.injEq] at hk'
        rw [← hk'.1]
        exact hcount
      · simp at hj
  | semaphoreBlock j hj hk hcount =>
      refine ⟨fun counter ts hk' => ?_, fun j' hj' => ?_⟩
      · simp at hk'
      · simp only [State.client_goto, Function.update_self, ClientPc.semaphoreBlocked.injEq] at hj'
        subst hj'
        exact ⟨hj, hcount⟩
  | notifyLost site _ _ => cases site <;> simp [State.added]
  | counterZero counter ts _ _ => simp
  | waitEmptied _ => simp
  | _ => simp

/-- A step of the client leaves the ready semaphores alone. -/
theorem ClientStep.semaphore_eq (h : ClientStep d s c s') : s'.semaphore = s.semaphore := by
  cases h with
  | notifyLost site _ _ => cases site <;> rfl
  | _ => rfl

/-- Steps that wake threads up and change no count. -/
theorem Watched.frame (h : Watched s) (hclient : (s.client ()).pc.WokenTo (s'.client ()).pc)
    (hworker : ∀ i, (s.worker i).WokenTo (s'.worker i)) (hcounter : s'.counter = s.counter)
    (hsemaphore : s'.semaphore = s.semaphore) : Watched s' := by
  rcases hclient.blocked_eq with ⟨hblocked, hblocked'⟩
  refine ⟨fun counter ts hk => ?_, fun j hk => ?_, fun i hi => ?_, fun i => ?_⟩
  · rw [hcounter]
    refine (h.counter counter ts (hblocked counter ts hk)).imp_right ?_
    rintro ⟨i, hi⟩
    exact ⟨i, by rw [(hworker i).afterDecrement?_eq, hi]⟩
  · rcases h.semaphore j (hblocked' j hk) with ⟨hj, hor⟩
    rw [hsemaphore]
    exact ⟨hj, hor.imp_right fun hw => by rw [(hworker _).announcing_eq, hw]⟩
  · rw [hsemaphore]
    exact h.settled i ((hworker i).settled_eq ▸ hi)
  · rw [hsemaphore]
    exact h.le_one i

theorem Watched.client_step (h : Watched s) (hstep : ClientStep d s c s') : Watched s' := by
  rcases hstep.blocked_of with ⟨hcounter, hsemaphore⟩
  refine ⟨fun counter ts hk => Or.inl (hcounter counter ts hk), fun j hk => ?_, fun i hi => ?_,
    fun i => ?_⟩
  · rcases hsemaphore j hk with ⟨hj, hne⟩
    exact ⟨hj, Or.inl hne⟩
  · rw [hstep.semaphore_eq]
    exact h.settled i ((hstep.worker_wokenTo i).settled_eq ▸ hi)
  · rw [hstep.semaphore_eq]
    exact h.le_one i

/-- What one worker does to the client that waits for a counter. -/
theorem WorkerStep.watch_counter (h : WorkerStep s i s') {counter : Unit × Nat} {ts : List Nat}
    (hk : (s'.client ()).pc = .counterBlocked counter ts)
    (hold : s.counter counter ≠ 0 ∨ ∃ j, (s.worker j).afterDecrement? = some counter) :
    s'.counter counter ≠ 0 ∨ ∃ j, (s'.worker j).afterDecrement? = some counter := by
  have hother := fun j (hj : j ≠ i) => h.other hj
  -- the others are where they were
  have hkeep : (s.worker i).afterDecrement? ≠ some counter →
      s'.counter counter = s.counter counter →
      s'.counter counter ≠ 0 ∨ ∃ j, (s'.worker j).afterDecrement? = some counter := by
    intro hi heq
    rw [heq]
    refine hold.imp_right ?_
    rintro ⟨j, hj⟩
    have hji : j ≠ i := fun heq => hi (heq ▸ hj)
    exact ⟨j, by rw [hother j hji, hj]⟩
  cases h with
  | signal t counter' hk' =>
      by_cases heq : counter = counter'
      · subst heq
        exact Or.inr ⟨i, by simp [WorkerPc.afterDecrement?]⟩
      · exact hkeep (by simp [hk', WorkerPc.afterDecrement?]) (Function.update_of_ne heq _ _)
  | signalZero t counter' hk' hzero =>
      by_cases heq : counter = counter'
      · subst heq
        exact Or.inr ⟨i, by simp [WorkerPc.afterDecrement?]⟩
      · refine hkeep ?_ rfl
        rw [hk']
        exact fun h => heq (Option.some.inj h).symm
  | signalNonzero t counter' hk' hcount =>
      by_cases heq : counter = counter'
      · subst heq
        exact Or.inl hcount
      · refine hkeep ?_ rfl
        rw [hk']
        exact fun h => heq (Option.some.inj h).symm
  | signalNotify t counter' hk' =>
      refine hkeep ?_ rfl
      rw [hk']
      -- the client would have been woken
      intro h
      cases Option.some.inj h
      change (s.client ()).pc.wakeCounter counter = _ at hk
      cases hpc : (s.client ()).pc with
      | counterBlocked counter'' ts' =>
          rw [hpc, ClientPc.wakeCounter] at hk
          split at hk
          · cases hk
          · rename_i hne
            cases hk
            exact hne rfl
      | _ =>
          rw [hpc] at hk
          cases hk
  | _ =>
      refine hkeep ?_ rfl
      rw [(by assumption : s.worker i = _)]
      simp [WorkerPc.afterDecrement?]

/-- What one worker does to the client that waits for its ready semaphore. -/
theorem WorkerStep.watch_semaphore (h : WorkerStep s i s')
    (hk : (s'.client ()).pc = .semaphoreBlocked i)
    (hold : s.semaphore i ≠ 0 ∨ (s.worker i).announcing = true) :
    s'.semaphore i ≠ 0 ∨ (s'.worker i).announcing = true := by
  cases h with
  | readySignal hk' => exact Or.inr (by simp [WorkerPc.announcing])
  | readyZero hk' hzero => exact Or.inr (by simp [WorkerPc.announcing])
  | readyNonzero hk' hcount => exact Or.inl hcount
  | readyNotify hk' =>
      change (s.client ()).pc.wakeSemaphore i = _ at hk
      cases hpc : (s.client ()).pc with
      | semaphoreBlocked j =>
          rw [hpc, ClientPc.wakeSemaphore] at hk
          split at hk
          · cases hk
          · rename_i hne
            cases hk
            exact absurd rfl hne
      | _ =>
          rw [hpc] at hk
          cases hk
  | reset hk' => exact Or.inl (by simp [State.workerGoto])
  | _ =>
      refine Or.inl (hold.resolve_right ?_)
      rw [(by assumption : s.worker i = _)]
      simp [WorkerPc.announcing]

/-- The ready semaphore of a worker and its positions. -/
theorem WorkerStep.settled (h : WorkerStep s i s') (hle : s.semaphore i ≤ 1)
    (hold : (s.worker i).settled = true → s.semaphore i = 0) :
    ((s'.worker i).settled = true → s'.semaphore i = 0) ∧ s'.semaphore i ≤ 1 := by
  cases h with
  | readySignal hk =>
      simp only [State.workerGoto, Function.update_self, signalCount]
      constructor
      · intro _
        split <;> omega
      · split <;> omega
  | reset hk => simp [State.workerGoto, WorkerPc.settled]
  | readyNonzero hk hcount => exact absurd (hold (by rw [hk]; rfl)) hcount
  | _ =>
      refine ⟨fun hs => ?_, hle⟩
      first
      | exact hold (by rw [(by assumption : s.worker i = _)]; rfl)
      | simp [WorkerPc.settled] at hs

/-- A worker changes no ready semaphore but its own. -/
theorem WorkerStep.semaphore_other (h : WorkerStep s i s') {j : Fin N} (hj : j ≠ i) :
    s'.semaphore j = s.semaphore j := by
  cases h with
  | readySignal hk => exact Function.update_of_ne hj _ _
  | reset hk => exact Function.update_of_ne hj _ _
  | _ => rfl

theorem Watched.worker_step (h : Watched s) (hstep : WorkerStep s i s') : Watched s' := by
  rcases (hstep.client_wokenTo ()).2.blocked_eq with ⟨hblocked, hblocked'⟩
  have hsettled := hstep.settled (h.le_one i) (h.settled i)
  refine ⟨fun counter ts hk => ?_, fun j hk => ?_, fun j hj => ?_, fun j => ?_⟩
  · exact hstep.watch_counter hk (h.counter counter ts (hblocked counter ts hk))
  · rcases h.semaphore j (hblocked' j hk) with ⟨hj, hor⟩
    refine ⟨hj, ?_⟩
    by_cases hji : (⟨j, hj⟩ : Fin N) = i
    · subst hji
      exact hstep.watch_semaphore hk hor
    · rw [hstep.semaphore_other hji, hstep.other hji]
      exact hor
  · by_cases hji : j = i
    · subst hji
      exact hsettled.1 hj
    · rw [hstep.semaphore_other hji]
      exact h.settled j (hstep.other hji ▸ hj)
  · by_cases hji : j = i
    · subst hji
      exact hsettled.2
    · rw [hstep.semaphore_other hji]
      exact h.le_one j

/-- In every reachable state, a client that blocks has somebody who will notify it. -/
theorem watched_of_reachable (hs : d.system.Reachable s) : Watched s := by
  have hinit : Watched d.system.init :=
    ⟨by rintro _ _ ⟨⟩, by rintro _ ⟨⟩, by rintro _ ⟨⟩, fun _ => Nat.le_refl _⟩
  refine hs.invariant hinit fun s l s' hs h hstep => step_rule hs h hstep ?_ ?_ ?_ ?_ ?_
  · exact fun _ _ _ _ h hstep => h.client_step hstep
  · exact fun _ _ _ _ h hstep => h.worker_step hstep
  · exact fun s i _ h hw => h.frame (Or.inl rfl) (State.wokenTo_wakeWorker hw) rfl rfl
  · intro s c site h _
    cases c
    rcases s.added_cases () site with hadd | ⟨g, j, counter, hadd⟩
    · rw [hadd]
      exact ⟨by simp, by simp, h.settled, h.le_one⟩
    · rw [hadd]
      exact ⟨by simp, by simp, h.settled, h.le_one⟩
  · exact fun s c pc h _ hpc =>
      h.frame (State.goto_wokenTo hpc ()) (fun _ => Or.inl rfl) rfl rfl

end Watched

/-! ## Where the client is -/

/-- Only the last call deletes the dispatch queue. -/
def DispatchConfig.DeletesLast (d : DispatchConfig Unit N β υ) : Prop :=
  ∀ j, (d.prog ())[j]? = some .delete → j + 1 = (d.prog ()).length

/-- The client has made all its calls. -/
def State.Ended (d : DispatchConfig Unit N β υ) (s : State Unit N β υ) : Prop :=
  s.client () = ⟨(d.prog ()).length, .ready⟩

/-- Positions of {lit}`dispatch_queue_delete`. -/
def ClientPc.inDelete {C : Type} : ClientPc C → Bool
  | .quitLock | .setQuit | .quitUnlock | .notifyAll => true
  | .join _ | .deleteSemaphore _ | .deleteQueue => true
  | _ => false

/-- Positions of {lit}`dispatch_queue_delete` after {lit}`quit` was set. -/
def ClientPc.afterQuit {C : Type} : ClientPc C → Bool
  | .quitUnlock | .notifyAll | .join _ | .deleteSemaphore _ | .deleteQueue => true
  | _ => false

theorem ClientPc.inDelete_of_afterQuit {C : Type} {pc : ClientPc C} (h : pc.afterQuit = true) :
    pc.inDelete = true := by
  cases pc <;> first | rfl | cases h

/-- A client that wakes up waits. -/
theorem ClientPc.WokenTo.place_eq {pc pc' : ClientPc Unit} (h : pc.WokenTo pc') :
    (pc' = .ready ↔ pc = .ready) ∧ pc'.inDelete = pc.inDelete ∧
      pc'.afterQuit = pc.afterQuit := by
  rcases h with rfl | ⟨i, rfl, rfl⟩ | ⟨counter, ts, rfl, rfl⟩
  · exact ⟨Iff.rfl, rfl, rfl⟩
  · exact ⟨by simp, rfl, rfl⟩
  · exact ⟨by simp, rfl, rfl⟩

/-- Where the client is in its program, and when {lit}`quit` is set. -/
structure Placed (d : DispatchConfig Unit N β υ) (s : State Unit N β υ) : Prop where
  ip_le : (s.client ()).ip ≤ (d.prog ()).length
  inCall : (s.client ()).pc ≠ .ready → (s.client ()).ip < (d.prog ()).length
  inDelete : (s.client ()).pc.inDelete = true →
    (d.prog ())[(s.client ()).ip]? = some .delete
  quit : s.quit = true →
    (s.client ()).pc.afterQuit = true ∨ (s.Ended d ∧ .delete ∈ d.prog ())
  exited : ∀ i, s.worker i = .exited → s.quit = true

section Placed

variable {d : DispatchConfig Unit N β υ} {s s' : State Unit N β υ} {c : Unit} {i : Fin N}

/-- Steps that move the client only by waking it up. -/
theorem Placed.frame (h : Placed d s) (hip : (s'.client ()).ip = (s.client ()).ip)
    (hclient : (s.client ()).pc.WokenTo (s'.client ()).pc) (hquit : s'.quit = s.quit)
    (hexited : ∀ i, s'.worker i = .exited → s.quit = true) : Placed d s' := by
  rcases hclient.place_eq with ⟨hready, hdelete, hafter⟩
  refine ⟨hip ▸ h.ip_le, fun hk => hip ▸ h.inCall fun hr => hk (hready.mpr hr), fun hk => ?_,
    fun hq => ?_, fun i hi => hquit ▸ hexited i hi⟩
  · rw [hip]
    exact h.inDelete (hdelete ▸ hk)
  · rw [hafter]
    refine (h.quit (hquit ▸ hq)).imp_right fun hend => ⟨?_, hend.2⟩
    rcases hclient with heq | ⟨j, hk, -⟩ | ⟨counter, ts, hk, -⟩
    · have hsame : s'.client () = s.client () := by
        cases h' : s'.client ()
        cases h'' : s.client ()
        rw [h', h''] at hip heq
        cases hip
        cases heq
        rfl
      rw [State.Ended, hsame]
      exact hend.1
    · rw [hend.1] at hk
      cases hk
    · rw [hend.1] at hk
      cases hk

/-- A client starts a call, goes on in it, or returns from it; what a step does to {lit}`quit`
and to the positions in {lit}`dispatch_queue_delete`. -/
theorem ClientStep.place_cases (h : ClientStep d s c s') :
    (∃ call, (s.client c).pc = .ready ∧ (d.prog c)[(s.client c).ip]? = some call ∧
      (s'.client c).ip = (s.client c).ip ∧ s'.quit = s.quit ∧
      ((s'.client c).pc.inDelete = true → call = .delete)) ∨
    ((s.client c).pc ≠ .ready ∧ (s'.client c).ip = (s.client c).ip ∧
      (s'.quit = s.quit ∧ (s'.client c).pc.afterQuit = (s.client c).pc.afterQuit ∨
        s'.quit = true ∧ (s'.client c).pc.afterQuit = true) ∧
      ((s'.client c).pc.inDelete = true → (s.client c).pc.inDelete = true)) ∨
    ((s.client c).pc ≠ .ready ∧ s'.client c = ⟨(s.client c).ip + 1, .ready⟩ ∧
      s'.quit = s.quit) := by
  cases h with
  | taskAddWaitable t hk hcall _ =>
      exact Or.inl ⟨_, hk, hcall, by simp, rfl, by simp [ClientPc.inDelete]⟩
  | taskAddPlain t hk hcall _ =>
      exact Or.inl ⟨_, hk, hcall, by simp, rfl, by simp [ClientPc.inDelete]⟩
  | groupAddWaitable g hk hcall _ =>
      exact Or.inl ⟨_, hk, hcall, by simp, rfl, by simp [ClientPc.inDelete]⟩
  | groupAddPlain g hk hcall _ =>
      exact Or.inl ⟨_, hk, hcall, by simp, rfl, by simp [ClientPc.inDelete]⟩
  | taskWait t counter hk hcall _ _ =>
      exact Or.inl ⟨_, hk, hcall, by simp, rfl, by simp [ClientPc.inDelete]⟩
  | groupWait g t ts counter hk hcall _ _ _ =>
      exact Or.inl ⟨_, hk, hcall, by simp, rfl, by simp [ClientPc.inDelete]⟩
  | wait hk hcall =>
      exact Or.inl ⟨_, hk, hcall, by simp, rfl, by simp [ClientPc.inDelete]⟩
  | delete hk hcall =>
      exact Or.inl ⟨_, hk, hcall, by simp, rfl, fun _ => rfl⟩
  | groupDone g i counter hk _ =>
      exact Or.inr (Or.inr ⟨by simp [hk], by simp, rfl⟩)
  | deleteDone hk => exact Or.inr (Or.inr ⟨by simp [hk], by simp, rfl⟩)
  | semaphoreDone i _ hk =>
      exact Or.inr (Or.inr ⟨by simp [hk], by simp, rfl⟩)
  | deleteQueue hk => exact Or.inr (Or.inr ⟨by simp [hk], by simp, rfl⟩)
  | notifyLost site hk _ =>
      cases site with
      | task counter => exact Or.inr (Or.inr ⟨by simp [hk], by simp [State.added], rfl⟩)
      | member g i counter =>
          exact Or.inr (Or.inl ⟨by simp [hk], by simp [State.added],
            Or.inl ⟨rfl, by simp [State.added, hk, ClientPc.afterQuit]⟩,
            by simp [State.added, ClientPc.inDelete]⟩)
  | setQuit hk =>
      exact Or.inr (Or.inl ⟨by simp [hk], by simp, Or.inr ⟨rfl, by simp [ClientPc.afterQuit]⟩,
        by simp [hk, ClientPc.inDelete]⟩)
  | waitEmptied hk =>
      exact Or.inr (Or.inl ⟨by simp [hk], by simp,
        Or.inl ⟨rfl, by simp [hk, ClientPc.afterQuit]⟩, by simp [ClientPc.inDelete]⟩)
  | _ =>
      have hk := (by assumption : (s.client c).pc = _)
      exact Or.inr (Or.inl ⟨by simp [hk], by simp, Or.inl ⟨rfl, by simp [hk, ClientPc.afterQuit]⟩,
        by simp [hk, ClientPc.inDelete]⟩)

theorem Placed.client_step (h : Placed d s) (hlast : d.DeletesLast) (hstep : ClientStep d s c s') :
    Placed d s' := by
  have hworker : s'.quit = s.quit ∨ s'.quit = true → ∀ i, s'.worker i = .exited →
      s'.quit = true := by
    intro hquit i hi
    rcases hquit with heq | hq
    · rw [heq]
      refine h.exited i ?_
      rcases hstep.worker_wokenTo i with hsame | ⟨-, hwoken⟩
      · rw [← hsame, hi]
      · rw [hi] at hwoken
        cases hwoken
    · exact hq
  cases c
  rcases hstep.place_cases with ⟨call, hk, hcall, hip, hquit, hdelete⟩ |
    ⟨hk, hip, hquit, hdelete⟩ | ⟨hk, hclient, hquit⟩
  · have hlt := (List.getElem?_eq_some_iff.mp hcall).1
    refine ⟨hip ▸ h.ip_le, fun _ => hip ▸ hlt, fun hd => ?_, fun hq => ?_, hworker (Or.inl hquit)⟩
    · rw [hip, hcall, hdelete hd]
    · -- a client that starts a call has not deleted the queue
      rcases h.quit (hquit ▸ hq) with hk' | ⟨hend, -⟩
      · rw [hk] at hk'
        cases hk'
      · rw [hend] at hlt
        exact absurd hlt (Nat.lt_irrefl _)
  · refine ⟨hip ▸ h.ip_le, fun _ => hip ▸ h.inCall hk, fun hd => ?_, fun hq => Or.inl ?_,
      hworker (hquit.imp And.left And.left)⟩
    · rw [hip]
      exact h.inDelete (hdelete hd)
    · rcases hquit with ⟨heq, hafter⟩ | ⟨-, hafter⟩
      · rcases h.quit (heq ▸ hq) with hk' | ⟨hend, -⟩
        · exact hafter.trans hk'
        · exact absurd (by rw [hend]) hk
      · exact hafter
  · refine ⟨?_, fun hk' => ?_, fun hd => ?_, fun hq => ?_, hworker (Or.inl hquit)⟩
    · rw [hclient]
      exact h.inCall hk
    · rw [hclient] at hk'
      exact absurd rfl hk'
    · rw [hclient] at hd
      cases hd
    · rcases h.quit (hquit ▸ hq) with hk' | ⟨hend, -⟩
      · have hcall := h.inDelete (ClientPc.inDelete_of_afterQuit hk')
        refine Or.inr ⟨?_, List.mem_of_getElem? hcall⟩
        rw [State.Ended, hclient, hlast _ hcall]
      · exact absurd (by rw [hend]) hk

theorem placed_of_reachable (hlast : d.DeletesLast) (hs : d.system.Reachable s) :
    Placed d s := by
  have hinit : Placed d d.system.init :=
    ⟨Nat.zero_le _, fun hk => absurd rfl hk, by rintro ⟨⟩, by rintro ⟨⟩, by rintro _ ⟨⟩⟩
  refine hs.invariant hinit fun s l s' hs h hstep => step_rule hs h hstep ?_ ?_ ?_ ?_ ?_
  · exact fun _ _ _ _ h hstep => h.client_step hlast hstep
  · intro s i s' hs h hstep
    have hquit : s'.quit = s.quit := by cases hstep <;> rfl
    refine h.frame (hstep.client_wokenTo ()).1 (hstep.client_wokenTo ()).2 hquit fun j hj => ?_
    by_cases hji : j = i
    · subst hji
      have hknows := knows_of_reachable hs j
      cases hstep with
      | leave hk =>
          rw [hk] at hknows
          exact hknows
      | _ => simp at hj
    · exact h.exited j (hstep.other hji ▸ hj)
  · intro s i _ h hw
    refine h.frame rfl (Or.inl rfl) rfl fun j hj => h.exited j ?_
    rcases State.wokenTo_wakeWorker hw j with hsame | ⟨-, hwoken⟩
    · rw [← hsame, hj]
    · rw [hj] at hwoken
      cases hwoken
  · intro s c site h hk
    cases c
    have hready : (s.client ()).pc ≠ .ready := by simp [hk]
    have hlt := h.inCall hready
    have hopen : s.quit ≠ true := by
      intro hq
      rcases h.quit hq with hafter | ⟨hend, -⟩
      · rw [hk] at hafter
        cases hafter
      · exact hready (by rw [hend])
    rcases s.added_cases () site with hadd | ⟨g, j, counter, hadd⟩
    · rw [hadd]
      refine ⟨?_, by simp, by simp [ClientPc.inDelete], fun hq => absurd hq hopen, h.exited⟩
      simpa using Nat.succ_le_of_lt hlt
    · rw [hadd]
      refine ⟨?_, fun _ => ?_, by simp [ClientPc.inDelete], fun hq => absurd hq hopen, h.exited⟩
      · simpa using h.ip_le
      · simpa using hlt
  · exact fun s c pc h _ hpc => h.frame (by cases c; simp) (State.goto_wokenTo hpc ()) rfl h.exited

end Placed

/-! ## A state at rest -/

/-- A wake-up that nobody has notified. -/
def Label.spurious {C : Type} : Label C N → Bool
  | .spuriousWorker _ | .spuriousClient _ => true
  | _ => false

/-- Nothing happens any more, but for spurious wake-ups. -/
def DispatchConfig.Stuck (d : DispatchConfig Unit N β υ) (s : State Unit N β υ) : Prop :=
  ∀ l : Label Unit N, l.spurious = false → d.system.step s l = none

section Stuck

variable {d : DispatchConfig Unit N β υ} {s : State Unit N β υ} {i : Fin N} {t : Nat}

theorem DispatchConfig.Stuck.client (h : d.Stuck s) : d.clientStep s () = none :=
  h (.client ()) rfl

theorem DispatchConfig.Stuck.worker (h : d.Stuck s) (i : Fin N) : workerStep s i = none :=
  h (.worker i) rfl

/-- Nobody holds the lock: a thread that holds it goes on. -/
theorem DispatchConfig.Stuck.lock (h : d.Stuck s) (hs : d.system.Reachable s) :
    s.lock = none := by
  cases hlock : s.lock with
  | none => rfl
  | some p =>
      have hholds := (lockHeld_of_reachable hs p).mp hlock
      cases p with
      | inl c =>
          have hstep := h.client
          cases c
          simp only [State.holds] at hholds
          cases hk : (s.client ()).pc with
          | push t site => simp [DispatchConfig.clientStep, hk] at hstep
          | addUnlock site => simp [DispatchConfig.clientStep, hk] at hstep
          | waitSize => simp [DispatchConfig.clientStep, hk] at hstep
          | waitUnlock count => simp [DispatchConfig.clientStep, hk] at hstep
          | setQuit => simp [DispatchConfig.clientStep, hk] at hstep
          | quitUnlock => simp [DispatchConfig.clientStep, hk] at hstep
          | _ =>
              rw [hk] at hholds
              cases hholds
      | inr i =>
          have hstep := h.worker i
          have hknows := knows_of_reachable hs i
          simp only [State.holds] at hholds
          cases hk : s.worker i with
          | waitTest =>
              simp only [workerStep, hk] at hstep
              split at hstep <;> cases hstep
          | pop =>
              rw [hk] at hknows
              cases hdeque : s.deque with
              | nil => simp [WorkerPc.Knows, hdeque] at hknows
              | cons t rest => simp [workerStep, hk, hdeque] at hstep
          | start =>
              rw [hk] at hholds
              cases hholds
          | woken =>
              rw [hk] at hholds
              cases hholds
          | blocked =>
              rw [hk] at hholds
              cases hholds
          | readCounter t =>
              rw [hk] at hholds
              cases hholds
          | relock =>
              rw [hk] at hholds
              cases hholds
          | exited =>
              rw [hk] at hholds
              cases hholds
          | _ => simp [workerStep, hk] at hstep

/-- The workers block or have left. -/
theorem DispatchConfig.Stuck.worker_cases (h : d.Stuck s) (hd : d.program.Disciplined)
    (hflags : d.program.FlagsAgree) (hs : d.system.Reachable s) (i : Fin N) :
    s.worker i = .blocked ∨ s.worker i = .exited := by
  have hstep := h.worker i
  have hlock := h.lock hs
  have hknows := knows_of_reachable hs i
  cases hk : s.worker i with
  | blocked => exact Or.inl rfl
  | exited => exact Or.inr rfl
  | waitTest =>
      simp only [workerStep, hk] at hstep
      split at hstep <;> cases hstep
  | pop =>
      rw [hk] at hknows
      cases hdeque : s.deque with
      | nil => simp [WorkerPc.Knows, hdeque] at hknows
      | cons t rest => simp [workerStep, hk, hdeque] at hstep
  | readCounter t =>
      rcases data_of_read (d.disciplined_of_program hd hflags) hs hk with ⟨counter, hdata, -⟩
      simp [workerStep, hk, hdata] at hstep
  | _ => simp [workerStep, hk, hlock] at hstep

/-- Before {lit}`quit` is set the workers block. -/
theorem DispatchConfig.Stuck.blocked (h : d.Stuck s) (hd : d.program.Disciplined)
    (hflags : d.program.FlagsAgree) (hlast : d.DeletesLast) (hs : d.system.Reachable s)
    (hquit : s.quit = false) (i : Fin N) : s.worker i = .blocked := by
  refine (h.worker_cases hd hflags hs i).resolve_right fun hexited => ?_
  have hset := (placed_of_reachable hlast hs).exited i hexited
  rw [hquit] at hset
  cases hset

/-- A client that is to notify finds a worker that blocks, or nobody to notify. -/
theorem DispatchConfig.Stuck.not_notify (h : d.Stuck s) (site : AddSite Unit) :
    (s.client ()).pc ≠ .notify site := by
  intro hk
  by_cases hall : ∀ i, s.worker i ≠ .blocked
  · have hstep := h.client
    simp [DispatchConfig.clientStep, hk, hall] at hstep
  · rcases not_forall_not.mp hall with ⟨i, hi⟩
    have hstep : notifyStep s () i = none := h (.notify () i) rfl
    simp [notifyStep, hk, hi] at hstep

/-- While all workers block, nothing is left in the deque. -/
theorem DispatchConfig.Stuck.deque (h : d.Stuck s) (hN : 0 < N) (hs : d.system.Reachable s)
    (hquit : s.quit = false) (hall : ∀ i, s.worker i = .blocked) : s.deque = [] := by
  have hnotified := notified_of_reachable hs
  have hcovered := hnotified.covered hquit ⟨⟨0, hN⟩, hall _⟩
  have hwoken : s.wokenWorkers = 0 := by
    rw [State.wokenWorkers, tally_eq_zero_iff]
    intro i
    rw [hnotified.asleep i (hall i)]
    rfl
  have hnotify : s.toNotify = 0 := by
    rw [State.toNotify, tally_eq_zero_iff]
    intro c
    cases c
    cases hk : (s.client ()).pc with
    | addUnlock site =>
        have hstep := h.client
        simp [DispatchConfig.clientStep, hk] at hstep
    | notify site => exact absurd hk (h.not_notify site)
    | _ => simp only [Client.toNotify, hk]
  exact List.length_eq_zero_iff.mp (by omega)

/-- When all workers block and the deque is empty, what was pushed is finished. -/
theorem finished_of_idle (hs : d.system.Reachable s) (hdeque : s.deque = [])
    (hidle : ∀ i, (s.worker i).task? = none) (ht : t ∈ s.history.pushed) :
    ∃ k, s.history.popped[k]? = some t ∧ s.history.Finished (d.heap.task t).waitable k := by
  have hacc := accounted_of_reachable hs
  rw [hacc.pushed_eq, hdeque, List.append_nil] at ht
  rcases List.getElem?_of_mem ht with ⟨k, hk⟩
  refine ⟨k, hk, (hacc.finished k t hk).resolve_left ?_⟩
  rintro ⟨i, hi, -⟩
  rw [hidle i] at hi
  cases hi

/-- When all workers block and the deque is empty, a count that is waited for is zero. -/
theorem counter_eq_zero_of_idle (hd : d.program.Disciplined) (hflags : d.program.FlagsAgree)
    (hs : d.system.Reachable s) (hdeque : s.deque = [])
    (hidle : ∀ i, (s.worker i).task? = none) {counter : Unit × Nat} {ts : List Nat}
    (hk : (s.client ()).pc = .counterBlocked counter ts) : s.counter counter = 0 := by
  have hclient := clientInv_of_reachable hd hs
  have hdisciplined := d.disciplined_of_program hd hflags
  rcases waiting_of_reachable hdisciplined hs () counter (by rw [hk]; rfl) with
    ⟨jp, ts', rfl, hawaits⟩
  rcases hd.awaits_call hawaits with ⟨call, hcall, -, hcreates, -⟩
  have hlt : jp < s.clientState.ip := hd.awaits_lt hawaits
  rw [counted_of_reachable hdisciplined hs ((), jp) call hcall hcreates (Or.inl hlt),
    List.countP_eq_zero]
  intro t ht hnot
  have hwaitable := (hflags.createsCounter_iff hcall ht).mp hcreates
  rcases finished_of_idle hs hdeque hidle (hclient.mem_pushed hcall ht hlt) with
    ⟨k, hkt, -, hfinished⟩
  rw [show (d.heap.task t).waitable = true from hwaitable, if_pos rfl] at hfinished
  exact of_decide_eq_true hnot (History.mem_tasksOf.mpr ⟨k, hfinished, hkt⟩)

/-- The next call of a client that follows the rules can start. -/
theorem startCall_isSome (hd : d.program.Disciplined) (hs : d.system.Reachable s)
    {call : DispatchCall} (hcall : (d.prog ())[(s.client ()).ip]? = some call) :
    (s.startCall () call).isSome = true := by
  have hstatic := static_of_reachable hs
  have hinv := clientInv_of_reachable hd hs
  -- a task that was added leads to its counter
  have hdata : ∀ {jp : Nat} {add : DispatchCall} {t : Nat}, (d.prog ())[jp]? = some add →
      jp < (s.client ()).ip → add.createsCounter d.heap = true → t ∈ add.tasks d.heap →
      ∃ counter, (s.heap.task t).privateData = some counter := by
    intro jp add t hadd hlt hcreates ht
    have hread := hinv.data_of_pushed hadd hcreates ht (hinv.mem_pushed hadd ht hlt)
    rcases Option.map_eq_some_iff.mp hread with ⟨counter, hcounter, -⟩
    exact ⟨counter, hcounter⟩
  cases call with
  | taskAdd t =>
      rw [State.startCall]
      split <;> rfl
  | groupAdd g =>
      rw [State.startCall]
      split <;> rfl
  | taskWait t =>
      rcases hd.taskWait _ t hcall with ⟨hwaitable, jp, hlt, hadd⟩
      rcases hdata hadd hlt hwaitable (List.mem_singleton_self t) with ⟨counter, hcounter⟩
      have hw : (s.heap.task t).waitable = true := (hstatic.waitable t).trans hwaitable
      rw [State.startCall, if_pos hw, hcounter]
      rfl
  | groupWait g =>
      rcases hd.groupWait _ g hcall with ⟨hwaitable, hne, jp, hlt, hadd⟩
      rcases List.exists_cons_of_ne_nil hne with ⟨t, ts, htasks⟩
      have htasks' : (d.heap.group g).tasks = t :: ts := htasks
      rcases hdata hadd hlt hwaitable (DispatchCall.mem_awaited_of_cons htasks) with
        ⟨counter, hcounter⟩
      have hw : (s.heap.group g).waitable = true := by
        rw [hstatic.group]
        exact hwaitable
      rw [State.startCall, if_pos hw, hstatic.group, htasks']
      simp [hcounter]
  | wait => rfl
  | delete => rfl

/-- While the queue is not deleted, the deque is empty and the workers block. -/
theorem DispatchConfig.Stuck.asleep (h : d.Stuck s) (hN : 0 < N) (hd : d.program.Disciplined)
    (hflags : d.program.FlagsAgree) (hlast : d.DeletesLast) (hs : d.system.Reachable s)
    (hquit : s.quit = false) : s.deque = [] ∧ ∀ i, s.worker i = .blocked := by
  have hall := h.blocked hd hflags hlast hs hquit
  exact ⟨h.deque hN hs hquit hall, hall⟩

/-- The call of {lit}`dispatch_queue_delete` goes on until it has returned. -/
theorem DispatchConfig.Stuck.ended_of_quit (h : d.Stuck s) (hd : d.program.Disciplined)
    (hflags : d.program.FlagsAgree) (hlast : d.DeletesLast) (hs : d.system.Reachable s)
    (hquit : s.quit = true) : s.Ended d := by
  have hstep := h.client
  rcases (placed_of_reachable hlast hs).quit hquit with hafter | ⟨hended, -⟩
  · cases hk : (s.client ()).pc with
    | join j =>
        have hclosing := (closing_of_reachable hs).closing ()
        rw [hk] at hclosing
        by_cases hj : j < N
        · have hexited := (h.worker_cases hd hflags hs ⟨j, hj⟩).resolve_left (hclosing.2.1 _)
          simp [DispatchConfig.clientStep, hk, hj, hexited] at hstep
        · simp [DispatchConfig.clientStep, hk, hj] at hstep
    | deleteSemaphore j =>
        simp only [DispatchConfig.clientStep, hk] at hstep
        split at hstep <;> cases hstep
    | quitUnlock => simp [DispatchConfig.clientStep, hk] at hstep
    | notifyAll => simp [DispatchConfig.clientStep, hk] at hstep
    | deleteQueue => simp [DispatchConfig.clientStep, hk] at hstep
    | _ =>
        rw [hk] at hafter
        cases hafter
  · exact hended

/-- While the queue is not deleted, every call goes on until it has returned: what it waits for
has happened when the deque is empty and the workers block. -/
theorem DispatchConfig.Stuck.ended_of_open (h : d.Stuck s) (hN : 0 < N)
    (hd : d.program.Disciplined) (hflags : d.program.FlagsAgree) (hlast : d.DeletesLast)
    (hs : d.system.Reachable s) (hquit : s.quit = false) : s.Ended d := by
  have hplaced := placed_of_reachable hlast hs
  have hclosing := (closing_of_reachable hs).closing ()
  have hwatched := watched_of_reachable hs
  have hstep := h.client
  have hlock := h.lock hs
  rcases h.asleep hN hd hflags hlast hs hquit with ⟨hdeque, hall⟩
  cases hk : (s.client ()).pc with
  | ready =>
      have hip : (s.client ()).ip = (d.prog ()).length := by
        refine Nat.le_antisymm hplaced.ip_le (Nat.le_of_not_lt fun hlt => ?_)
        have hcall := List.getElem?_eq_getElem hlt
        have hsome := startCall_isSome hd hs hcall
        simp only [DispatchConfig.clientStep, hk, hcall, Option.bind_some] at hstep
        rw [hstep] at hsome
        cases hsome
      rw [State.Ended, ← hip, ← hk]
  | groupLoop g j counter =>
      simp only [DispatchConfig.clientStep, hk] at hstep
      split at hstep <;> cases hstep
  | notify site => exact absurd hk (h.not_notify site)
  | counterBlocked counter ts =>
      have hzero := counter_eq_zero_of_idle hd hflags hs hdeque
        (fun i => by rw [hall i]; rfl) hk
      rcases hwatched.counter counter ts hk with hne | ⟨i, hi⟩
      · exact absurd hzero hne
      · rw [hall i] at hi
        cases hi
  | semaphoreWait j =>
      by_cases hj : j < N
      · simp [DispatchConfig.clientStep, hk, hj] at hstep
      · simp [DispatchConfig.clientStep, hk, hj] at hstep
  | semaphoreBlocked j =>
      rcases hwatched.semaphore j hk with ⟨hj, hne | hannounce⟩
      · exact absurd (hwatched.settled ⟨j, hj⟩ (by rw [hall]; rfl)) hne
      · rw [hall] at hannounce
        cases hannounce
  | deleteTasks ts => cases ts <;> simp [DispatchConfig.clientStep, hk] at hstep
  | join j =>
      rw [hk] at hclosing
      rw [hclosing.1] at hquit
      cases hquit
  | deleteSemaphore j =>
      rw [hk] at hclosing
      rw [hclosing.1] at hquit
      cases hquit
  | _ => simp [DispatchConfig.clientStep, hk, hlock] at hstep

/-- A state at rest is the end of the program.  If the queue is deleted, all workers have left;
otherwise nothing is in the deque and every worker blocks. -/
theorem ended_of_stuck (hN : 0 < N) (hd : d.program.Disciplined) (hflags : d.program.FlagsAgree)
    (hlast : d.DeletesLast) (hs : d.system.Reachable s) (hstuck : d.Stuck s) :
    s.Ended d ∧ (.delete ∈ d.prog () → s.Left) ∧
      (.delete ∉ d.prog () → s.deque = [] ∧ ∀ i, s.worker i = .blocked) := by
  have hended : s.Ended d := by
    cases hquit : s.quit with
    | true => exact hstuck.ended_of_quit hd hflags hlast hs hquit
    | false => exact hstuck.ended_of_open hN hd hflags hlast hs hquit
  refine ⟨hended, fun hdelete => ?_, fun hdelete => ?_⟩
  · rcases List.getElem?_of_mem hdelete with ⟨n, hn⟩
    refine (closing_of_reachable hs).returned () n ?_ hn
    rw [hended]
    exact (List.getElem?_eq_some_iff.mp hn).1
  · refine hstuck.asleep hN hd hflags hlast hs ?_
    cases hquit : s.quit with
    | false => rfl
    | true =>
        rcases (placed_of_reachable hlast hs).quit hquit with hafter | ⟨-, hmem⟩
        · rw [hended] at hafter
          cases hafter
        · exact absurd hmem hdelete

end Stuck

end Host
end LibDispatch
