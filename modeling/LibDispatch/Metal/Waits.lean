import LibDispatch.Metal.Client
import LibDispatch.Metal.CounterSteps

/-!
# Waiting for a task or a group

{lit}`dispatch_queue_task_wait` and {lit}`dispatch_queue_group_wait` check the end token of the
counter of an earlier call, delete the counter and then the tasks.  How far a client has
come with each wait is a stage, from which one can read off what has been deleted.  What was
deleted is the bookkeeping of the client model; what is added here is the end token.

Main results:

- Theorem {lit}`waits_of_reachable`: what was deleted agrees with the stages in every
  reachable state of a disciplined program.
- Theorem {lit}`Waits.returned`: past the token, every task of the call has returned.
-/

namespace LibDispatch
namespace Metal

variable {N : Nat} {β υ : Type}

/-! ## Stages -/

/-- How far a client has come with a wait. -/
inductive WaitStage where
  /-- The end token is not checked. -/
  | waiting
  /-- The end token is checked, the counter exists. -/
  | checked
  /-- The counter is deleted, and so are all tasks but {lit}`rest`. -/
  | deleting (rest : List Nat)
deriving DecidableEq, Repr

/-- The stage of the wait that a client is in. -/
def ClientPc.stage : ClientPc Unit → WaitStage
  | .deleteCounter _ _ => .checked
  | .deleteTasks ts => .deleting ts
  | _ => .waiting

/-- The stage of the {lit}`w`-th call, if it is a wait. -/
def Local.stage (w : Nat) : Local Unit → WaitStage
  | .client ip pc =>
      if w < ip then .deleting [] else if w = ip then pc.stage else .waiting
  | .worker _ => .waiting

/-- The position belongs to a wait of the {lit}`ip`-th call, with its counter and tasks. -/
def DispatchConfig.WaitAt (d : DispatchConfig Unit N β υ) (ip : Nat) :
    ClientPc Unit → Prop
  | .checkToken c ts | .deleteCounter c ts => ∃ jp, c = ((), jp) ∧ d.Awaits ip jp ts
  | .deleteTasks ts => ∃ jp done, d.Awaits ip jp (done ++ ts)
  | _ => True

/-- The position of a client agrees with the wait it is in. -/
def DispatchConfig.LocalWaitAt (d : DispatchConfig Unit N β υ) : Local Unit → Prop
  | .client ip pc => d.WaitAt ip pc
  | .worker _ => True

theorem Local.stage_of_lt {w ip : Nat} (h : w < ip) (pc : ClientPc Unit) :
    (Local.client ip pc).stage w = .deleting [] :=
  if_pos h

theorem Local.stage_self (ip : Nat) (pc : ClientPc Unit) :
    (Local.client ip pc).stage ip = pc.stage := by
  simp [Local.stage]

theorem Local.stage_of_gt {w ip : Nat} (h : ip < w) (pc : ClientPc Unit) :
    (Local.client ip pc).stage w = .waiting := by
  simp [Local.stage, Nat.not_lt.mpr (Nat.le_of_lt h), Nat.ne_of_gt h]

/-- A client that has begun with a wait has made or is making the call. -/
theorem Local.le_of_stage {w ip : Nat} {pc : ClientPc Unit}
    (h : (Local.client ip pc).stage w ≠ .waiting) : w ≤ ip := by
  by_contra hlt
  exact h (Local.stage_of_gt (Nat.not_le.mp hlt) pc)

section Invariant

variable {d : DispatchConfig Unit N β υ}
  {a a' : AtomicState (Unit ⊕ Fin N) Nat (Local Unit) (Env Unit N β υ)} {u : Unit ⊕ Fin N}
  {t w jp ip : Nat} {ts : List Nat} {c : Unit × Nat} {call : DispatchCall} {k : Local Unit}
  {env : Env Unit N β υ} {pc : ClientPc Unit}

/-- What is awaited was submitted by an earlier call. -/
theorem DispatchConfig.Disciplined.awaits_lt (hd : d.Disciplined) (h : d.Awaits w jp ts) :
    jp < w :=
  (DispatchConfig.disciplined_iff.mp hd).awaits_lt h

/-! ## The invariant -/

/-- What the client has deleted agrees with the stages of its waits. -/
structure Waits (d : DispatchConfig Unit N β υ)
    (a : AtomicState (Unit ⊕ Fin N) Nat (Local Unit) (Env Unit N β υ)) : Prop where
  position : d.LocalWaitAt (a.thread (.inl ()))
  token : ∀ w jp ts, d.Awaits w jp ts → (a.thread (.inl ())).stage w ≠ .waiting →
    0 < a.env.history.tokenSent.count ((), jp)
  counterNodup : a.env.history.counterFreed.Nodup
  counterFreed : ∀ c, c ∈ a.env.history.counterFreed ↔ ∃ w jp ts rest,
    c = ((), jp) ∧ d.Awaits w jp ts ∧ (a.thread (.inl ())).stage w = .deleting rest
  taskNodup : a.env.history.waitFreed.Nodup
  taskFreed : ∀ t, t ∈ a.env.history.waitFreed ↔ ∃ w jp ts rest,
    d.Awaits w jp ts ∧ t ∈ ts ∧ (a.thread (.inl ())).stage w = .deleting rest ∧ t ∉ rest

/-- The history of end tokens only grows. -/
theorem DispatchStep.tokenSent_mono (h : DispatchStep d a u a') (c : Unit × Nat) :
    a.env.history.tokenSent.count c ≤ a'.env.history.tokenSent.count c := by
  cases h with
  | run u t at_ env' r hrun hstep =>
      cases hstep with
      | sendToken c' => simp
      | _ => exact Nat.le_refl _
  | _ => exact Nat.le_refl _

theorem Local.stage_of_ne {pc' : ClientPc Unit} (hne : w ≠ ip) :
    (Local.client ip pc').stage w = (Local.client ip pc).stage w := by
  simp only [Local.stage, hne, if_false]

/-! ## The end token -/

/-- The end token of every counter that a wait has found or deleted was sent. -/
structure TokenChecked (a : AtomicState (Unit ⊕ Fin N) Nat (Local Unit) (Env Unit N β υ)) :
    Prop where
  checked : ∀ ip c ts, a.thread (.inl ()) = .client ip (.deleteCounter c ts) →
    0 < a.env.history.tokenSent.count c
  freed : ∀ c ∈ a.env.history.counterFreed, 0 < a.env.history.tokenSent.count c

/-- A site leads the client to no wait. -/
theorem AddSite.next_ne_deleteCounter (site : AddSite Unit) (ip' : Nat) :
    site.next ip' ≠ .client ip (.deleteCounter c ts) := by
  cases site <;> simp [AddSite.next]

theorem DispatchConfig.addEntry_ne_deleteCounter (site : AddSite Unit) :
    d.addEntry t site ≠ .deleteCounter c ts := by
  unfold DispatchConfig.addEntry
  split <;> simp

/-- A statement of {lit}`run_task` leads to no wait. -/
theorem Local.runNext_ne_deleteCounter {r : Option (RunPc Unit)} {at_ : RunPc Unit}
    (hrun : k.runAt = some (t, at_)) : k.runNext r ≠ .client ip (.deleteCounter c ts) := by
  cases k with
  | worker pc => cases pc <;> cases r <;> simp [Local.runNext]
  | client ip' pc =>
      cases pc with
      | pitch t' site at' =>
          cases r with
          | none => exact site.next_ne_deleteCounter ip'
          | some at'' => simp [Local.runNext]
      | _ => cases hrun

/-- A wait comes to delete a counter by checking its end token. -/
theorem DispatchStep.deleteCounter_cases (hstep : DispatchStep d a u a')
    (hnew : a'.thread (.inl ()) = .client ip (.deleteCounter c ts)) :
    a.thread (.inl ()) = .client ip (.deleteCounter c ts) ∨
      0 < (a.env.counter c).tokens := by
  cases hstep with
  | send client ip' t site hk _ =>
      simp only [Function.update_self] at hnew
      exact absurd hnew (site.next_ne_deleteCounter ip')
  | taskAddWaitable client ip' t hk _ _ =>
      simp only [Function.update_self] at hnew
      injection hnew with _ hpc
      exact absurd hpc (DispatchConfig.addEntry_ne_deleteCounter _)
  | taskAddPlain client ip' t hk _ _ =>
      simp only [Function.update_self] at hnew
      injection hnew with _ hpc
      exact absurd hpc (DispatchConfig.addEntry_ne_deleteCounter _)
  | groupStore client ip' g i t counter hk _ =>
      simp only [Function.update_self] at hnew
      injection hnew with _ hpc
      exact absurd hpc (DispatchConfig.addEntry_ne_deleteCounter _)
  | checkToken client ip' counter ts' hk htoken =>
      simp only [Function.update_self] at hnew
      cases hnew
      exact Or.inr htoken
  | freeObject client ip' object k hk hnext =>
      simp only [Function.update_self] at hnew
      rcases hnext with rfl | ⟨object', rfl⟩
      · cases hnew
      · cases hnew
  | run u t at_ env' r hrun _ =>
      by_cases hu : Sum.inl () = u
      · subst hu
        simp only [Function.update_self] at hnew
        exact absurd hnew (Local.runNext_ne_deleteCounter hrun)
      · simp only [Function.update_of_ne hu] at hnew
        exact Or.inl hnew
  | receive | start | setBusy | setReady | freeCend =>
      simp only [Function.update_of_ne Sum.inl_ne_inr] at hnew
      exact Or.inl hnew
  | _ =>
      simp only [Function.update_self] at hnew
      cases hnew

/-- Only the deletion of a counter adds to the counters deleted. -/
theorem DispatchStep.counterFreed_cases (hstep : DispatchStep d a u a')
    (hc : c ∈ a'.env.history.counterFreed) : c ∈ a.env.history.counterFreed ∨
      ∃ ip ts, a.thread (.inl ()) = .client ip (.deleteCounter c ts) := by
  cases hstep with
  | deleteCounter client ip counter ts hk =>
      rcases List.mem_append.mp hc with hold | hthis
      · exact Or.inl hold
      · rw [List.mem_singleton.mp hthis]
        exact Or.inr ⟨ip, ts, hk⟩
  | run u t at_ env' r hrun hrunStep =>
      left
      rwa [← hrunStep.freed_eq.1]
  | _ => exact Or.inl hc

theorem TokenChecked.step (h : TokenChecked a) (hcounters : Counters d a)
    (hstep : DispatchStep d a u a') : TokenChecked a' := by
  constructor
  · intro ip c ts hnew
    refine Nat.lt_of_lt_of_le ?_ (hstep.tokenSent_mono c)
    rcases hstep.deleteCounter_cases hnew with hold | htoken
    · exact h.checked ip c ts hold
    · exact Nat.lt_of_lt_of_le htoken (hcounters.tokens c)
  · intro c hc
    refine Nat.lt_of_lt_of_le ?_ (hstep.tokenSent_mono c)
    rcases hstep.counterFreed_cases hc with hold | ⟨ip, ts, hold⟩
    · exact h.freed c hold
    · exact h.checked ip c ts hold

/-- The token was sent in every reachable state. -/
theorem tokenChecked_of_reachable (hd : d.Disciplined) (hflags : d.FlagsAgree)
    (ha : d.atomicThreads.Reachable a) : TokenChecked a := by
  refine ha.invariant ⟨?_, ?_⟩ fun _ _ _ hr h hstep =>
    h.step (counters_of_reachable hd hflags hr) (dispatchStep_of_step hstep)
  · intro ip c ts hk
    cases hk
  · intro c hc
    cases hc

/-! ## What was deleted -/

/-- The client deletes tasks in the phase of that name. -/
theorem DispatchConfig.phase_eq_deleting {rest : List Nat} :
    d.phase (.client ip pc) = .deleting rest ↔ pc.stage = .deleting rest := by
  cases pc <;> simp [DispatchConfig.phase, ClientPc.stage]

/-- The stage is what the client model remembers of the wait. -/
theorem DispatchConfig.stage_eq_deleting {rest : List Nat} :
    k.stage w = .deleting rest ↔ (d.clientState k env).remaining w = some rest := by
  cases k with
  | worker pc =>
      have hnone : (d.clientState (.worker pc) env).remaining w = none := by
        rcases Nat.eq_zero_or_pos w with rfl | hpos
        · exact ClientState.remaining_self_none (by rintro ts ⟨⟩)
        · exact ClientState.remaining_of_gt hpos
      simp [hnone, Local.stage]
  | client ip pc =>
      rcases Nat.lt_trichotomy w ip with hlt | rfl | hgt
      · rw [Local.stage_of_lt hlt, ClientState.remaining_of_lt (show w < _ from hlt)]
        simp
      · have hphase : d.phase (.client w pc) = .deleting rest ↔ pc.stage = .deleting rest :=
          DispatchConfig.phase_eq_deleting
        rw [Local.stage_self, ← hphase]
        by_cases hdeleting : ∃ ts, d.phase (.client w pc) = .deleting ts
        · rcases hdeleting with ⟨ts, hts⟩
          have hsome : (d.clientState (.client w pc) env).remaining w = some ts :=
            ClientState.remaining_self hts
          simp [hsome, hts]
        · have hnone : (d.clientState (.client w pc) env).remaining w = none :=
            ClientState.remaining_self_none fun ts hts => hdeleting ⟨ts, hts⟩
          rw [hnone]
          exact ⟨fun h => absurd ⟨rest, h⟩ hdeleting, nofun⟩
      · rw [Local.stage_of_gt hgt, ClientState.remaining_of_gt (show _ < w from hgt)]
        simp

/-- A wait that has checked the end token is about to delete the counter. -/
theorem Local.exists_of_checked (h : k.stage w = .checked) :
    ∃ c ts, k = .client w (.deleteCounter c ts) := by
  cases k with
  | worker pc => cases h
  | client ip pc =>
      rcases Nat.lt_trichotomy w ip with hlt | rfl | hgt
      · rw [Local.stage_of_lt hlt] at h
        cases h
      · rw [Local.stage_self] at h
        cases pc with
        | deleteCounter c ts => exact ⟨c, ts, rfl⟩
        | _ => cases h
      · rw [Local.stage_of_gt hgt] at h
        cases h

/-- The position of the client agrees with the wait it is in. -/
theorem DispatchConfig.localWaitAt_of_clientInv
    (h : ClientInv d.program (DispatchCall.awaited d.heap) (d.clientState k env)) :
    d.LocalWaitAt k := by
  have hposition := h.position
  cases k with
  | worker pc => trivial
  | client ip pc =>
      cases pc with
      | checkToken c ts =>
          rcases hposition with ⟨call, ts', hcall, rfl, hawaits⟩
          rcases hawaits.eq_awaited hcall with rfl
          exact ⟨c.2, rfl, hawaits⟩
      | deleteCounter c ts =>
          rcases hposition with ⟨call, ts', hcall, rfl, hawaits⟩
          rcases hawaits.eq_awaited hcall with rfl
          exact ⟨c.2, rfl, hawaits⟩
      | deleteTasks ts =>
          rcases hposition with ⟨call, c, ts', done, hcall, hdone, hawaits⟩
          rcases hawaits.eq_awaited hcall with rfl
          exact ⟨c, done, hdone ▸ hawaits⟩
      | _ => trivial

/-- What was deleted agrees with the stages in every reachable state. -/
theorem waits_of_reachable (hd : d.Disciplined) (hflags : d.FlagsAgree)
    (ha : d.atomicThreads.Reachable a) : Waits d a := by
  have hclient := clientInv_of_reachable hd ha
  have htoken := tokenChecked_of_reachable hd hflags ha
  have hprogram := DispatchConfig.disciplined_iff.mp hd
  have hposition := DispatchConfig.localWaitAt_of_clientInv hclient
  have hcounter : ∀ c, c ∈ a.env.history.counterFreed ↔ ∃ w jp ts rest,
      c = ((), jp) ∧ d.Awaits w jp ts ∧ (a.thread (.inl ())).stage w = .deleting rest := by
    rintro ⟨⟨⟩, jp⟩
    have hmem : ((), jp) ∈ a.env.history.counterFreed ↔
        jp ∈ a.env.history.counterFreed.map Prod.snd := by
      constructor
      · exact List.mem_map_of_mem
      · intro hmap
        rcases List.mem_map.mp hmap with ⟨c, hc, rfl⟩
        exact hc
    refine (hmem.trans (hclient.counterFreed jp)).trans ⟨?_, ?_⟩
    · rintro ⟨w, ts, rest, hawaits, hrest⟩
      exact ⟨w, jp, ts, rest, rfl, hawaits, DispatchConfig.stage_eq_deleting.mpr hrest⟩
    · rintro ⟨w, jp', ts, rest, heq, hawaits, hrest⟩
      cases heq
      exact ⟨w, ts, rest, hawaits, DispatchConfig.stage_eq_deleting.mp hrest⟩
  constructor
  · exact hposition
  · intro w jp ts hawaits hstage
    cases hw : (a.thread (.inl ())).stage w with
    | waiting => exact absurd hw hstage
    | checked =>
        rcases Local.exists_of_checked hw with ⟨c, ts', hk⟩
        rw [hk] at hposition
        rcases hposition with ⟨jp', rfl, hawaits'⟩
        rw [(hd.awaits_unique_add hawaits hawaits').1]
        exact htoken.checked w _ ts' hk
    | deleting rest =>
        exact htoken.freed _ ((hcounter _).mpr ⟨w, jp, ts, rest, rfl, hawaits, hw⟩)
  · exact List.Nodup.of_map _ hclient.counterNodup
  · exact hcounter
  · exact hclient.waitNodup
  · intro t
    refine (hclient.waitFreed t).trans ⟨?_, ?_⟩
    · rintro ⟨w, call, rest, hcall, ht, hrest, hnot⟩
      rcases hprogram.exists_awaits hcall ht with ⟨jp, -, hawaits⟩
      exact ⟨w, jp, _, rest, hawaits, ht, DispatchConfig.stage_eq_deleting.mpr hrest, hnot⟩
    · rintro ⟨w, jp, ts, rest, hawaits, ht, hrest, hnot⟩
      rcases Program.Awaits.awaited (p := d.program) hawaits with ⟨call, hcall, rfl⟩
      exact ⟨w, call, rest, hcall, ht, DispatchConfig.stage_eq_deleting.mp hrest, hnot⟩

/-- At the wait, each task leads to the counter of the call that added it. -/
theorem Counters.data_awaited (h : Counters d a) (hd : d.Disciplined)
    (hk : a.thread (.inl ()) = .client ip pc) (hawaits : d.Awaits ip jp ts) (ht : t ∈ ts) :
    (a.env.heap.task t).privateData = some ((), jp) := by
  rcases hd.awaits_call hawaits with ⟨call, hcall, rfl, hcreates, -⟩
  refine h.data jp call t hcall hcreates ht ?_
  rw [hk]
  exact List.mem_append_left _
    (DispatchConfig.mem_submitted.mpr ⟨jp, hd.awaits_lt hawaits, call, hcall, ht⟩)

/-! ## What the waits promise -/

/-- Once the end token was checked, all tasks of the call have signalled and no thread is
going to send the token again. -/
theorem Waits.signalled (h : Waits d a) (hcounters : Counters d a) (hd : d.Disciplined)
    (hawaits : d.Awaits w jp ts) (hstage : (a.thread (.inl ())).stage w ≠ .waiting) :
    (∀ t ∈ ts, t ∈ a.env.history.signalled) ∧
      ∀ v, (a.thread v).sending ((), jp) = 0 := by
  rcases hd.awaits_call hawaits with ⟨call, hcall, rfl, hcreates, hne⟩
  have hsent := h.token w jp _ hawaits hstage
  have hsum := hcounters.token jp call hcall hcreates hne
  have hzero : (call.tasks d.heap).countP
      (fun t => decide (t ∉ a.env.history.signalled)) = 0 := by
    by_contra hpos
    rw [if_neg hpos] at hsum
    omega
  rw [if_pos hzero] at hsum
  constructor
  · intro t ht
    simpa using List.countP_eq_zero.mp hzero t ht
  · exact tally_eq_zero_iff.mp (by omega)

/-- Once the end token was checked, the function of every task of the call has returned. -/
theorem Waits.returned (h : Waits d a) (hcounters : Counters d a) (hledger : Ledger d a)
    (hd : d.Disciplined) (hawaits : d.Awaits w jp ts)
    (hstage : (a.thread (.inl ())).stage w ≠ .waiting) :
    ∀ t ∈ ts, t ∈ a.env.history.returned := by
  intro t ht
  have hsignalled := (h.signalled hcounters hd hawaits hstage).1 t ht
  exact List.count_pos_iff.mp (Nat.lt_of_lt_of_le (List.count_pos_iff.mpr hsignalled)
    (hledger.signalled_le_returned t))

end Invariant

end Metal
end LibDispatch
