import LibDispatch.GroupRelease
import LibDispatch.Host.Completion
import LibDispatch.Meaning
import LibDispatch.Metal.Completion
import LibDispatch.Rtos.Completion

/-!
# What the backends compute

A client that has waited for all it has added cannot tell a dispatch queue from performing its
tasks itself, whatever the backend, the number of workers, the length of the queue and the
schedule, if the functions of its tasks commute; and with one worker they need not commute.

Main results:

- Theorems {lit}`Host.completed_of_joined`, {lit}`Metal.completed_of_joined` and
  {lit}`Rtos.completed_of_joined`: what was waited for is completed.
- Theorem {lit}`backends_run_program`: every backend computes the meaning of the program.
-/

namespace LibDispatch

variable {β υ : Type}

namespace Host

/-- On the host a joined program is complete. -/
theorem completed_of_joined {N : Nat} {d : DispatchConfig Unit N β υ}
    (hd : d.program.Disciplined) (hflags : d.program.FlagsAgree) {s : State Unit N β υ}
    (hs : d.system.Reachable s) {ip : Nat} (hready : s.client () = ⟨ip, .ready⟩)
    (hjoined : d.program.Joined ip) : Completed d.program ip d.user (N = 1) s.user := by
  have hip : (s.client ()).ip = ip := by rw [hready]
  rw [← hip] at hjoined ⊢
  exact (completed_of_returned hd hs (by rw [hready]) (returned_of_joined hd hflags hs hjoined)).2

end Host

namespace Rtos

/-- With FreeRTOS a joined program is complete. -/
theorem completed_of_joined {N : Nat} {d : DispatchConfig N β υ} (hd : d.program.Disciplined)
    (hflags : d.program.FlagsAgree) {s : State N β υ} (hs : d.system.Reachable s) {ip : Nat}
    (hready : s.client = .ready ∧ s.ip = ip) (hjoined : d.program.Joined ip) :
    Completed d.program ip d.user (N = 1) s.user := by
  rw [← hready.2] at hjoined ⊢
  refine completed_of_returned hd hflags hs hready.1 fun t ht => ?_
  rcases hjoined.mem_awaited hd ht with ⟨w, hw, jp, ts, hawaits, hmem⟩
  exact returned_of_awaits hd hflags hs hawaits hw t hmem

end Rtos

namespace Metal

/-- On bare metal a joined program is complete, as long as the queue is not deleted. -/
theorem completed_of_atomic {N : Nat} {d : DispatchConfig Unit N β υ}
    (hd : d.program.Disciplined) (hflags : d.FlagsAgree)
    {a : AtomicState (Unit ⊕ Fin N) Nat (Local Unit) (Env Unit N β υ)}
    (ha : d.atomicThreads.Reachable a) {ip : Nat} (hready : a.thread (.inl ()) = .client ip .ready)
    (hjoined : d.program.Joined ip) :
    Completed d.program ip d.user (N = 1 ∧ d.useCallersThread = false) a.env.user := by
  have hd' := DispatchConfig.disciplined_iff.mpr hd
  refine completed_of_returned hd' ha hready fun t ht => ?_
  rcases hjoined.mem_awaited hd ht with ⟨w, hw, jp, ts, hawaits, hmem⟩
  refine (waits_of_reachable hd' hflags ha).returned (counters_of_reachable hd' hflags ha)
    (ledger_of_reachable ha) hd' hawaits ?_ t hmem
  rw [hready, Local.stage_of_lt hw]
  simp

/-- The first calls of a shorter program submit the same tasks. -/
theorem submitted_upTo {N : Nat} {d : DispatchConfig Unit N β υ} {n ip : Nat} (hip : ip ≤ n) :
    (d.upTo n).program.submitted ip = d.program.submitted ip := by
  simp [Program.submitted, DispatchConfig.program, DispatchConfig.upTo, List.take_take,
    Nat.min_eq_left hip]

/-- On bare metal a joined program is complete, as long as the queue is not deleted. -/
theorem completed_of_joined {N : Nat} {d : DispatchConfig Unit N β υ} {handshake : Bool}
    (hd : d.program.Disciplined) (hflags : d.FlagsAgree)
    {s : State (Unit ⊕ Fin N) (Option (Fin N)) Nat (Local Unit) (Env Unit N β υ)}
    (hs : (d.threads handshake).Reachable s) (huse : d.InUse s) {ip : Nat}
    (hready : d.view s (.inl ()) = .client ip .ready) (hjoined : d.program.Joined ip) :
    Completed d.program ip d.user (N = 1 ∧ d.useCallersThread = false) s.env.user := by
  have hd' := DispatchConfig.disciplined_iff.mpr hd
  -- the state belongs to the client that makes no calls but those it has started
  rcases huse.exists_upTo with ⟨n, hstarted, hdelete⟩
  rcases (d.upTo n).atomic_of_reachable (fun _ => hdelete)
    (d.upTo_reachable hs hstarted) with ⟨a, ha, href⟩
  have hview : d.view s = a.thread := (d.upTo n).view_eq href
  rw [hview] at hready
  have hip : ip ≤ n := by
    have hle := ip_le_of_reachable ha
    rw [hready] at hle
    exact hle.trans (List.length_take_le n (d.prog ()))
  have hjoined' : (d.upTo n).program.Joined ip := by
    intro jp hlt call hcall hne
    have hcall' : d.program.calls[jp]? = some call := by
      rw [← hcall]
      exact (List.getElem?_take_of_lt (Nat.lt_of_lt_of_le hlt hip)).symm
    rcases hjoined jp hlt call hcall' hne with ⟨w, hw, ts, hawaits⟩
    exact ⟨w, hw, ts, hd'.awaits_upTo hawaits (Nat.lt_of_lt_of_le hw hip)⟩
  have h := completed_of_atomic (DispatchConfig.disciplined_iff.mp (hd'.upTo n)) (hflags.upTo n)
    ha hready hjoined'
  rw [href.env] at h
  rcases h with ⟨ts, hperm, horder, huser⟩
  rw [submitted_upTo hip] at hperm horder
  exact ⟨ts, hperm, horder, huser⟩

end Metal

/-! ## The three backends -/

/-- A client of a backend is about to make its {lit}`ip`-th call of the program {lit}`p`, with
any number of workers and in any interleaving; tasks are finished in the order of the program
if {lit}`inOrder` holds. -/
inductive Ran (p : Program β υ Unit) (u : υ) (ip : Nat) : Backend → Prop → υ → Prop where
  | host {N : Nat} (d : Host.DispatchConfig Unit N β υ) (hprogram : d.program.forget = p)
      (huser : d.user = u) {s : Host.State Unit N β υ} (hs : d.system.Reachable s)
      (hready : s.client () = ⟨ip, .ready⟩) : Ran p u ip .host (N = 1) s.user
  | metal {N : Nat} (d : Metal.DispatchConfig Unit N β υ) (handshake : Bool)
      (hprogram : d.program.forget = p) (huser : d.user = u)
      {s : Metal.State (Unit ⊕ Fin N) (Option (Fin N)) Nat (Metal.Local Unit)
        (Metal.Env Unit N β υ)} (hs : (d.threads handshake).Reachable s) (huse : d.InUse s)
      (hready : d.view s (.inl ()) = .client ip .ready) :
      Ran p u ip .metal (N = 1 ∧ d.useCallersThread = false) s.env.user
  | rtos {N : Nat} (d : Rtos.DispatchConfig N β υ) (hprogram : d.program.forget = p)
      (huser : d.user = u) {s : Rtos.State N β υ} (hs : d.system.Reachable s)
      (hready : s.client = .ready ∧ s.ip = ip) : Ran p u ip .rtos (N = 1) s.user

/-- A client that has waited for all it has added has completed its calls. -/
theorem Ran.completed {p : Program β υ Unit} (hd : p.Disciplined) (hflags : p.FlagsAgree)
    {ip : Nat} (hjoined : p.Joined ip) {u x : υ} {b : Backend} {inOrder : Prop}
    (h : Ran p u ip b inOrder x) : Completed p ip u inOrder x := by
  cases h with
  | host d hprogram huser hs hready =>
      subst hprogram huser
      exact (Host.completed_of_joined (Program.disciplined_forget hd)
        (Program.flagsAgree_forget hflags) hs hready (Program.joined_forget hjoined)).forget
  | metal d handshake hprogram huser hs huse hready =>
      subst hprogram huser
      exact (Metal.completed_of_joined (Program.disciplined_forget hd)
        (Program.flagsAgree_forget hflags) hs huse hready (Program.joined_forget hjoined)).forget
  | rtos d hprogram huser hs hready =>
      subst hprogram huser
      exact (Rtos.completed_of_joined (Program.disciplined_forget hd)
        (Program.flagsAgree_forget hflags) hs hready (Program.joined_forget hjoined)).forget

/-- Every backend computes the meaning of a program.  A client that follows the rules has
waited, when it is about to make its {lit}`ip`-th call, for all tasks and groups it has added.
Whatever the backend and the schedule, the user state is then the one that performing each task
at its call leads to: with one worker in the default mode for all functions, and with any
number of workers in any mode if the functions commute. -/
theorem backends_run_program {p : Program β υ Unit} {ts gs as : List Nat}
    (hbuilt : Built p.heap ts gs as) (hgroups : ∀ g, .groupAdd g ∈ p.calls → g ∈ gs)
    (hd : p.Disciplined) {ip : Nat} (hjoined : p.Joined ip) {u x : υ} {b : Backend}
    {inOrder : Prop} (h : Ran p u ip b inOrder x) :
    (inOrder → x = p.sequential ip u) ∧ (p.Commuting ip → x = p.sequential ip u) :=
  (h.completed hd (Program.flagsAgree_of_built hbuilt hgroups) hjoined).eq_sequential

/-! ## A group of two functions -/

/-- What a backend keeps with the task does not matter. -/
theorem twoFunctionsHeap_forget (γ : Type) :
    (twoFunctionsHeap γ).forget = twoFunctionsHeap Unit := by
  have htask : (twoFunctionsHeap γ).forget.task = (twoFunctionsHeap Unit).task := by
    funext t
    rcases t with _ | _ | t <;> rfl
  calc (twoFunctionsHeap γ).forget
      = ⟨(twoFunctionsHeap γ).forget.task, (twoFunctionsHeap Unit).group⟩ := rfl
    _ = twoFunctionsHeap Unit := by rw [htask]

/-- The group is added and waited for. -/
def twoFunctionsProgram : Program Unit Nat Unit :=
  ⟨groupCalls, twoFunctionsHeap Unit⟩

theorem twoFunctionsProgram_eq (γ : Type) :
    (Program.mk groupCalls (twoFunctionsHeap γ)).forget = twoFunctionsProgram := by
  rw [Program.forget, twoFunctionsHeap_forget]
  rfl

theorem twoFunctionsProgram_joined : twoFunctionsProgram.Joined 2 := by
  rintro (_ | _ | jp) hlt call hcall hne
  · exact ⟨1, by decide, _, Or.inr ⟨0, rfl, rfl, rfl⟩⟩
  · cases hcall
    exact absurd rfl hne
  · omega

theorem twoFunctionsHost_ran :
    Ran twoFunctionsProgram 3 2 .host (1 = 1) Host.twoFunctionsAfter.user :=
  .host Host.twoFunctions (twoFunctionsProgram_eq _) rfl
    (Host.twoFunctions.system.reachable_get_run _ Host.twoFunctions_run) (by decide +kernel)

theorem twoFunctionsMetal_ran :
    Ran twoFunctionsProgram 3 2 .metal (1 = 1 ∧ false = false) twoTasksAfter.env.user := by
  refine .metal Metal.twoTasks true (twoFunctionsProgram_eq _) rfl
    ((Metal.twoTasks.threads true).reachable_get_run _ Metal.twoTasks_run) ?_ (by decide +kernel)
  rintro (_ | _ | j) hj <;> cases hj

theorem twoFunctionsRtos_ran :
    Ran twoFunctionsProgram 3 2 .rtos (1 = 1) Rtos.twoFunctionsAfter.user :=
  .rtos Rtos.twoFunctions (twoFunctionsProgram_eq _) rfl
    (Rtos.twoFunctions.system.reachable_get_run _ Rtos.twoFunctions_run)
    ⟨by decide +kernel, by decide +kernel⟩

/-- On the host, on bare metal and with FreeRTOS the functions of the group have run in order. -/
theorem backends_run_program_twoFunctions :
    Host.twoFunctionsAfter.user = twoFunctionsProgram.sequential 2 3 ∧
      twoTasksAfter.env.user = twoFunctionsProgram.sequential 2 3 ∧
      Rtos.twoFunctionsAfter.user = twoFunctionsProgram.sequential 2 3 :=
  ⟨(backends_run_program (twoFunctionsHeap_built Unit) groupCalls_groups
      (twoFunctions_disciplined Unit) twoFunctionsProgram_joined twoFunctionsHost_ran).1 rfl,
    (backends_run_program (twoFunctionsHeap_built Unit) groupCalls_groups
      (twoFunctions_disciplined Unit) twoFunctionsProgram_joined twoFunctionsMetal_ran).1
        ⟨rfl, rfl⟩,
    (backends_run_program (twoFunctionsHeap_built Unit) groupCalls_groups
      (twoFunctions_disciplined Unit) twoFunctionsProgram_joined twoFunctionsRtos_ran).1 rfl⟩

end LibDispatch
