import LibDispatch.Host.Budget
import LibDispatch.Meaning

/-!
# Every program completes on the host

A client follows the rules, and deletes the dispatch queue last if at all.  The queue then never
deadlocks and loses no wake-up: as long as the program has not ended, some thread can go on
that needs no spurious wake-up.  If the client does not poll in {lit}`dispatch_queue_wait`
either, the budget bounds the steps, and a schedule in which every thread gets a turn often
enough runs the program to its end.  A worker that tests the count of a counter after its
deletion is taken to read what the count was.

Main results:

- Theorem {lit}`host_no_deadlock`: a state in which nobody can go on is the end of the program.
- Theorem {lit}`host_completes`: every schedule with enough rounds reaches it.
-/

namespace LibDispatch
namespace Host

variable {N : Nat} {β υ : Type}

/-! ## The end of the program -/

section Completed

variable {d : DispatchConfig Unit N β υ} {s : State Unit N β υ}

/-- What was added and has returned is completed. -/
theorem completed_of_returned (hd : d.program.Disciplined) (hs : d.system.Reachable s)
    (hready : (s.client ()).pc = .ready)
    (hall : ∀ t ∈ d.program.submitted (s.client ()).ip,
      t ∈ s.history.tasksOf s.history.returned) :
    (s.history.tasksOf s.history.returned).Perm (d.program.submitted (s.client ()).ip) ∧
      Completed d.program (s.client ()).ip d.user (N = 1) s.user := by
  rcases hs.traced poolEvents with ⟨tr, htraced⟩
  rcases poolHistory_of_traced htraced with ⟨hsubmitted, -, hfinished, -⟩
  rw [pushed_of_ready hd hs hready] at hsubmitted
  rw [← hfinished] at hall ⊢
  have hpool := pool_of_traced htraced
  refine ⟨?_, completed_of_pool hd hpool hsubmitted hall⟩
  rw [← hsubmitted] at hall ⊢
  have hnodup : (submittedTasks tr).Nodup :=
    hsubmitted ▸ hd.distinct.sublist (d.program.prefix_submitted _).sublist
  exact (Pool.idle_of_finished hpool hnodup hall).finished_perm hpool

/-- What a joined program has added has returned. -/
theorem returned_of_joined (hd : d.program.Disciplined) (hflags : d.program.FlagsAgree)
    (hs : d.system.Reachable s) (hjoined : d.program.Joined (s.client ()).ip) :
    ∀ t ∈ d.program.submitted (s.client ()).ip, t ∈ s.history.tasksOf s.history.returned := by
  intro t ht
  rcases hjoined.mem_awaited hd ht with ⟨w, hw, jp, ts, hawaits, hmem⟩
  exact returned_of_signalled hs (signalled_of_awaits hd hflags hs hawaits hw t hmem)

/-- The program has ended.  If the queue is deleted, all workers have left; otherwise the deque
is empty and every worker blocks.  What was added has returned once, unless the queue was
deleted before it was waited for, and the user state is the one that performing each task at
its call leads to, if one worker runs all functions or if the functions commute. -/
structure Done (d : DispatchConfig Unit N β υ) (s : State Unit N β υ) : Prop where
  ended : s.Ended d
  left : .delete ∈ d.prog () → s.Left
  asleep : .delete ∉ d.prog () → s.deque = [] ∧ ∀ i, s.worker i = .blocked
  completed : .delete ∉ d.prog () ∨ d.program.Joined (d.prog ()).length →
    (s.history.tasksOf s.history.returned).Perm (d.program.submitted (d.prog ()).length) ∧
      (N = 1 → s.user = d.program.sequential (d.prog ()).length d.user) ∧
      (d.program.Commuting (d.prog ()).length →
        s.user = d.program.sequential (d.prog ()).length d.user)

/-- A state at rest is the end of the program. -/
theorem done_of_stuck (hN : 0 < N) (hd : d.program.Disciplined) (hflags : d.program.FlagsAgree)
    (hlast : d.DeletesLast) (hs : d.system.Reachable s) (hstuck : d.Stuck s) : Done d s := by
  rcases ended_of_stuck hN hd hflags hlast hs hstuck with ⟨hended, hleft, hasleep⟩
  refine ⟨hended, hleft, hasleep, fun hopen => ?_⟩
  have hip : (s.client ()).ip = (d.prog ()).length := by rw [hended]
  have hready : (s.client ()).pc = .ready := by rw [hended]
  have hall : ∀ t ∈ d.program.submitted (s.client ()).ip,
      t ∈ s.history.tasksOf s.history.returned := by
    rcases hopen with hdelete | hjoined
    · rcases hasleep hdelete with ⟨hdeque, hblocked⟩
      intro t ht
      rw [← pushed_of_ready hd hs hready] at ht
      rcases finished_of_idle hs hdeque (fun i => by rw [hblocked i]; rfl) ht with
        ⟨k, hk, hreturned, -⟩
      exact History.mem_tasksOf.mpr ⟨k, hreturned, hk⟩
    · exact returned_of_joined hd hflags hs (hip ▸ hjoined)
  rcases completed_of_returned hd hs hready hall with ⟨hperm, hcompleted⟩
  rw [hip] at hperm hcompleted
  exact ⟨hperm, hcompleted.eq_sequential⟩

/-- Where no turn changes the state, nobody can go on. -/
theorem stuck_of_quiescent {s₀ : State Unit N β υ} (hwait : .wait ∉ d.prog ())
    (hs₀ : d.system.Reachable s₀) (hs : (d.turns s₀).Reachable s)
    (hquiet : (d.turns s₀).Quiescent s) : d.Stuck s := by
  intro l hl
  rcases Turn.exists_label hl with ⟨a, rfl⟩
  by_contra hne
  rcases Option.ne_none_iff_exists'.mp hne with ⟨s', hstep⟩
  have hlt := budget_lt hwait (hs₀.of_scheduled hs) hl hstep
  have hturn : (d.turns s₀).step s a = some s' := hstep
  have heq := hquiet a
  rw [System.attempt_of_step hturn] at heq
  rw [heq] at hlt
  exact Nat.lt_irrefl _ hlt

end Completed

/-- The host dispatch queue does not deadlock and loses no wake-up.  A client follows the rules
and deletes the queue last, if at all; there is at least one worker.  In every reachable state,
some thread can go on, by a step that is not a spurious wake-up, or the program has ended. -/
theorem host_no_deadlock (d : DispatchConfig Unit N β υ) (hN : 0 < N) {ts gs as : List Nat}
    (hbuilt : Built d.heap ts gs as) (hgroups : ∀ g, .groupAdd g ∈ d.prog () → g ∈ gs)
    (hd : d.program.Disciplined) (hlast : d.DeletesLast) {s : State Unit N β υ}
    (hs : d.system.Reachable s) :
    (∃ l : Label Unit N, l.spurious = false ∧ d.system.Enabled s l) ∨ Done d s := by
  by_cases henabled : ∃ l : Label Unit N, l.spurious = false ∧ d.system.Enabled s l
  · exact Or.inl henabled
  · refine Or.inr (done_of_stuck hN hd (Program.flagsAgree_of_built hbuilt hgroups) hlast hs ?_)
    intro l hl
    by_contra hstep
    exact henabled ⟨l, hl, Option.isSome_iff_ne_none.mpr hstep⟩

/-- Every program completes on the host.  A client follows the rules, deletes the queue last, if
at all, and does not poll it; there is at least one worker.  From every reachable state, spurious
wake-ups before it included, a schedule without spurious wake-ups that gives every thread a
turn in each of as many rounds as the budget of the state ends the program, whichever workers
the notifications pick. -/
theorem host_completes (d : DispatchConfig Unit N β υ) (hN : 0 < N) {ts gs as : List Nat}
    (hbuilt : Built d.heap ts gs as) (hgroups : ∀ g, .groupAdd g ∈ d.prog () → g ∈ gs)
    (hd : d.program.Disciplined) (hlast : d.DeletesLast) (hwait : .wait ∉ d.prog ())
    {s s' : State Unit N β υ} (hs : d.system.Reachable s) {rounds : List (List (Turn N))}
    (hrounds : System.Rounds rounds) (hlength : d.budget s ≤ rounds.length)
    (hs' : (d.turns s).attempts s rounds.flatten = s') : Done d s' := by
  subst hs'
  have hdescending := descending_budget hwait hs
  have hreachable := System.Reachable.init.attempts (S := d.turns s) rounds.flatten
  have hquiet := hdescending.quiescent_of_rounds System.Reachable.init hrounds hlength
  exact done_of_stuck hN hd (Program.flagsAgree_of_built hbuilt hgroups) hlast
    (hs.of_scheduled hreachable) (stuck_of_quiescent hwait hs hreachable hquiet)

/-! ## A group of one function -/

/-- The group is added and waited for, and the queue is deleted. -/
def oneFunctionDelete : DispatchConfig Unit 1 Unit Nat :=
  { oneFunction with prog := fun _ => groupCalls ++ [.delete] }

theorem oneFunctionDelete_disciplined : oneFunctionDelete.program.Disciplined :=
  (oneFunction_disciplined _).thenDelete

theorem oneFunctionDelete_groups :
    ∀ g, .groupAdd g ∈ oneFunctionDelete.prog () → g ∈ [0] := by
  intro g hg
  refine groupCalls_groups g ((List.mem_append.mp hg).resolve_right ?_)
  simp

theorem oneFunctionDelete_deletesLast : oneFunctionDelete.DeletesLast := by
  rintro (_ | _ | _ | j) hj
  · cases hj
  · cases hj
  · rfl
  · cases hj

/-- The worker blocks, and the client has added its task and is about to notify. -/
theorem oneFunctionNotified_run : (oneFunctionDelete.system.run oneFunctionDelete.system.init
    (List.replicate 5 (.worker 0) ++ List.replicate 6 (.client ()))).isSome = true := by
  decide +kernel

/-- While the worker blocks and the client is about to notify, somebody can go on. -/
theorem host_no_deadlock_oneFunction :
    ∃ l : Label Unit 1, l.spurious = false ∧ oneFunctionDelete.system.Enabled
      ((oneFunctionDelete.system.run oneFunctionDelete.system.init
        (List.replicate 5 (.worker 0) ++ List.replicate 6 (.client ()))).get
          oneFunctionNotified_run) l := by
  have h := host_no_deadlock oneFunctionDelete Nat.one_pos (oneFunctionHeap_built _)
    oneFunctionDelete_groups oneFunctionDelete_disciplined oneFunctionDelete_deletesLast
    (oneFunctionDelete.system.reachable_get_run _ oneFunctionNotified_run)
  refine h.resolve_right fun hdone => ?_
  exact absurd (congrArg Client.ip hdone.ended) (by decide +kernel)

/-- The client, the worker and the notification take turns. -/
def oneFunctionRounds : List (List (Turn 1)) :=
  List.replicate 59 [.client, .worker 0, .notify 0]

theorem oneFunctionRounds_rounds : System.Rounds oneFunctionRounds := by
  intro round hround a
  rw [List.eq_of_mem_replicate hround]
  cases a with
  | client => simp
  | worker i => simp [Subsingleton.elim i 0]
  | notify i => simp [Subsingleton.elim i 0]

/-- The client adds the group, waits for it, and deletes the dispatch queue. -/
theorem host_completes_oneFunction :
    Done oneFunctionDelete ((oneFunctionDelete.turns oneFunctionDelete.system.init).attempts
      oneFunctionDelete.system.init oneFunctionRounds.flatten) :=
  host_completes oneFunctionDelete Nat.one_pos (oneFunctionHeap_built _)
    oneFunctionDelete_groups oneFunctionDelete_disciplined oneFunctionDelete_deletesLast
    (by decide) System.Reachable.init oneFunctionRounds_rounds
    (by rw [budget_init]; decide) rfl

end Host
end LibDispatch
