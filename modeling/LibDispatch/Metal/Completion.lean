import LibDispatch.Meaning
import LibDispatch.Metal.Budget

/-!
# Every program completes on bare metal

A program that follows the rules and does not delete the queue is never left waiting on bare
metal: there is always a thread that can take a step until the client has made all its calls
and everything it has added has returned.  Every step takes something off the budget, unless
the client polls in {lit}`dispatch_queue_wait`, so that a schedule in which every thread gets a
turn in each of as many rounds as the program has steps runs the program to its end.

Main results:

- Theorem {lit}`dispatch_queue_no_deadlock`: a state without enabled steps is the end.
- Theorem {lit}`dispatch_queue_completes`: every schedule with enough rounds reaches it.
-/

namespace LibDispatch
namespace Metal

variable {N : Nat} {β υ : Type}

/-! ## The end of the program -/

/-- What was added and has returned is completed. -/
theorem completed_of_returned {d : DispatchConfig Unit N β υ} (hd : d.Disciplined)
    {a : AtomicState (Unit ⊕ Fin N) Nat (Local Unit) (Env Unit N β υ)}
    (ha : d.atomicThreads.Reachable a) {ip : Nat}
    (hready : a.thread (.inl ()) = .client ip .ready)
    (hall : ∀ t ∈ d.program.submitted ip, t ∈ a.env.history.returned) :
    Completed d.program ip d.user (N = 1 ∧ d.useCallersThread = false) a.env.user := by
  have hadded : d.added () (a.thread (.inl ())) = d.program.submitted ip := by
    rw [hready]
    simp [DispatchConfig.added, ClientPc.added, DispatchConfig.submitted, Program.submitted,
      DispatchConfig.program]
  rw [← hadded] at hall
  have hperm := (ledger_of_reachable ha).returned_perm (tracked_of_reachable ha) hd hall
  refine ⟨a.env.history.returned, hadded ▸ hperm, ?_, userOf_of_reachable ha⟩
  rintro ⟨rfl, hmode⟩
  have horder := inOrder_of_reachable hmode ha
  rw [List.append_assoc] at horder
  have hlength := congrArg List.length horder
  rw [← hperm.length_eq, List.length_append] at hlength
  have hnil : (a.thread (.inr 0)).unreturned ++ a.fifo = [] :=
    List.eq_nil_of_length_eq_zero (by omega)
  rw [hnil, List.append_nil] at horder
  exact horder.trans hadded

/-- The program has ended: everything that was added has returned once, and the user state is
the one that performing each task at its call leads to, if one worker runs all functions or if
the functions commute. -/
structure Done (d : DispatchConfig Unit N β υ)
    (s : State (Unit ⊕ Fin N) (Option (Fin N)) Nat (Local Unit) (Env Unit N β υ)) : Prop where
  ended : Ended d s
  returned : s.env.history.returned.Perm (d.program.submitted (d.prog ()).length)
  inOrder : N = 1 → d.useCallersThread = false →
    s.env.user = d.program.sequential (d.prog ()).length d.user
  commuting : d.program.Commuting (d.prog ()).length →
    s.env.user = d.program.sequential (d.prog ()).length d.user

section Stuck

variable {d : DispatchConfig Unit N β υ} {handshake : Bool}
  {s : State (Unit ⊕ Fin N) (Option (Fin N)) Nat (Local Unit) (Env Unit N β υ)}

/-- A state without enabled steps is the end of the program. -/
theorem done_of_stuck (hN : 0 < N) (hd : d.Disciplined) (hflags : d.FlagsAgree)
    (hdelete : .delete ∉ d.prog ()) (hs : (d.threads handshake).Reachable s)
    (hstuck : ∀ u, ¬ (d.threads handshake).Enabled s u) : Done d s := by
  rcases ended_of_stuck hN hd hflags hdelete hs hstuck with ⟨hended, hperm⟩
  rcases d.atomic_of_reachable (fun _ => hdelete) hs with ⟨a, ha, href⟩
  have hready : a.thread (.inl ()) = .client (d.prog ()).length .ready := by
    rw [href.thread, hended.client, Thread.view_outside]
  have hcompleted := completed_of_returned hd ha hready fun t ht =>
    href.env ▸ hperm.symm.subset ht
  rw [href.env] at hcompleted
  have hmeaning := hcompleted.eq_sequential
  exact ⟨hended, hperm, fun hN hmode => hmeaning.1 ⟨hN, hmode⟩, hmeaning.2⟩

/-- A state that no thread changes has no enabled step. -/
theorem stuck_of_quiescent (hblocking : d.Blocking) (hs : (d.threads handshake).Reachable s)
    (hquiet : (d.threads handshake).Quiescent s) (u : Unit ⊕ Fin N) :
    ¬ (d.threads handshake).Enabled s u := by
  intro henabled
  rcases Option.isSome_iff_exists.mp henabled with ⟨s', hstep⟩
  have hlt := budget_lt hblocking hs hstep
  have heq := hquiet u
  rw [System.attempt_of_step hstep] at heq
  rw [heq] at hlt
  exact Nat.lt_irrefl _ hlt

end Stuck

/-- The bare-metal dispatch queue does not deadlock.  A client follows the rules and does not
delete the queue; there is at least one worker.  In every reachable state, whatever the length
of the queue and the mode, and whether or not an output waits for its byte to be taken, some
thread can take a step, or the program has ended. -/
theorem dispatch_queue_no_deadlock (d : DispatchConfig Unit N β υ) (handshake : Bool)
    (hN : 0 < N) {ts gs as : List Nat} (hbuilt : Built d.heap ts gs as)
    (hgroups : ∀ g, .groupAdd g ∈ d.prog () → g ∈ gs) (hd : d.Disciplined)
    (hdelete : .delete ∉ d.prog ())
    {s : State (Unit ⊕ Fin N) (Option (Fin N)) Nat (Local Unit) (Env Unit N β υ)}
    (hs : (d.threads handshake).Reachable s) :
    (∃ u, (d.threads handshake).Enabled s u) ∨ Done d s := by
  by_cases henabled : ∃ u, (d.threads handshake).Enabled s u
  · exact Or.inl henabled
  · exact Or.inr (done_of_stuck hN hd (DispatchConfig.flagsAgree_of_built hbuilt hgroups) hdelete
      hs fun u hu => henabled ⟨u, hu⟩)

/-- Every program completes on bare metal.  A client follows the rules, and neither deletes the
queue nor polls it; there is at least one worker.  From every reachable state, a schedule that
gives every thread a turn in each of as many rounds as the program has steps ends the
program. -/
theorem dispatch_queue_completes (d : DispatchConfig Unit N β υ) (handshake : Bool)
    (hN : 0 < N) {ts gs as : List Nat} (hbuilt : Built d.heap ts gs as)
    (hgroups : ∀ g, .groupAdd g ∈ d.prog () → g ∈ gs) (hd : d.Disciplined)
    (hblocking : d.Blocking)
    {s s' : State (Unit ⊕ Fin N) (Option (Fin N)) Nat (Local Unit) (Env Unit N β υ)}
    (hs : (d.threads handshake).Reachable s) {rounds : List (List (Unit ⊕ Fin N))}
    (hrounds : System.Rounds rounds) (hlength : d.steps ≤ rounds.length)
    (hs' : (d.threads handshake).attempts s rounds.flatten = s') : Done d s' := by
  subst hs'
  have hdescending : (d.threads handshake).Descending (d.budget handshake) :=
    fun _ _ _ hr hstep => Or.inr (budget_lt hblocking hr hstep)
  have hbudget : d.budget handshake s ≤ rounds.length :=
    (hdescending.le_init hs).trans (by rw [budget_init]; exact hlength)
  have hreachable := hs.attempts rounds.flatten
  have hquiet := hdescending.quiescent_of_rounds hs hrounds hbudget
  exact done_of_stuck hN hd (DispatchConfig.flagsAgree_of_built hbuilt hgroups) hblocking.2
    hreachable (stuck_of_quiescent hblocking hreachable hquiet)

/-! ## A group of two tasks -/

theorem twoTasks_blocking : twoTasks.Blocking := by
  constructor <;> simp [twoTasks, groupCalls]

/-- The client and the worker take turns. -/
def twoTasksRounds : List (List (Unit ⊕ Fin 1)) :=
  List.replicate 217 [.inl (), .inr 0]

theorem twoTasksRounds_rounds : System.Rounds twoTasksRounds := by
  intro round hround u
  rw [List.eq_of_mem_replicate hround]
  cases u with
  | inl c => simp
  | inr i => simp [Subsingleton.elim i 0]

/-- When the worker is about to signal for the first task, the program has not ended, so some
thread can go on. -/
theorem dispatch_queue_no_deadlock_twoTasks :
    ∃ u, (twoTasks.threads true).Enabled (((twoTasks.threads true).run
      (twoTasks.threads true).init (twoTasksSchedule.take 42)).get twoTasks_run_half) u := by
  have h := dispatch_queue_no_deadlock twoTasks true Nat.one_pos (twoFunctionsHeap_built _)
    groupCalls_groups twoTasks_disciplined twoTasks_blocking.2
    ((twoTasks.threads true).reachable_get_run _ twoTasks_run_half)
  refine h.resolve_right fun hdone => ?_
  have hlength := hdone.returned.length_eq
  exact absurd hlength (by decide +kernel)

/-- The group is added and waited for, and both functions have run in order. -/
theorem dispatch_queue_completes_twoTasks :
    Done twoTasks ((twoTasks.threads true).attempts (twoTasks.threads true).init
      twoTasksRounds.flatten) :=
  dispatch_queue_completes twoTasks true Nat.one_pos (twoFunctionsHeap_built _) groupCalls_groups
    twoTasks_disciplined twoTasks_blocking System.Reachable.init twoTasksRounds_rounds
    (by rw [twoTasksRounds, List.length_replicate]; decide) rfl

end Metal
end LibDispatch
