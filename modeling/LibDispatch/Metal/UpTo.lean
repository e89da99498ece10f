import LibDispatch.Metal.Waits
import LibDispatch.Metal.Shutdown

/-!
# The calls that a client has made so far

What a client has done does not depend on the calls that it has not started.  A state in
which the client has started none of the calls from the {lit}`n`-th on is a state of the
client that makes the first {lit}`n` calls only.  So what holds of a dispatch queue that is
never deleted holds of every dispatch queue until {lit}`dispatch_queue_delete` is called.

Main results:

- Theorem {lit}`started_mono`: a call that has started has started ever after.
- Theorem {lit}`DispatchConfig.upTo_reachable`: a state before the {lit}`n`-th call is a state of
  the shorter program.
-/

namespace LibDispatch
namespace Metal

variable {N : Nat} {β υ : Type}

/-- The same client with the first {lit}`n` calls of its program. -/
def DispatchConfig.upTo (d : DispatchConfig Unit N β υ) (n : Nat) :
    DispatchConfig Unit N β υ :=
  { d with prog := fun c => (d.prog c).take n }

/-- The thread of a client that has started its {lit}`n`-th call. -/
def Thread.started (n : Nat) : Thread (Local Unit) Nat → Prop
  | .outside (.client ip pc) => n < ip ∨ (n = ip ∧ pc ≠ .ready)
  | .inside (.client ip _) _ => n ≤ ip
  | _ => False

/-- The thread of a client that has returned from its first {lit}`n` calls. -/
def Thread.reached (n : Nat) : Thread (Local Unit) Nat → Prop
  | .outside (.client ip _) | .inside (.client ip _) _ => n ≤ ip
  | _ => False

theorem Thread.reached_of_started {th : Thread (Local Unit) Nat} {n : Nat}
    (h : th.started n) : th.reached n := by
  cases th with
  | outside k =>
      cases k with
      | worker pc => exact h
      | client ip pc =>
          rcases h with hlt | ⟨heq, -⟩
          · exact Nat.le_of_lt hlt
          · exact Nat.le_of_eq heq
  | inside k pc => cases k <;> exact h

/-! ## A call of {lit}`queue_delete` is one until it returns -/

section Delete

variable {ι χ α κ μ : Type} [DecidableEq ι] [DecidableEq χ] {wiring : Wiring ι χ}
  {caller : Caller ι κ μ α} {length : Nat} {env : μ} {start : ι → κ} {s : State ι χ α κ μ}
  {q q' : Queue ι χ α} {t : ι} {k : κ} {pc : Pc α} {c : Control α}

/-- The positions of {lit}`queue_delete`. -/
theorem Pc.pending_delete_cases (h : pc.pending = some .delete) :
    (∃ at_, pc = .terminate at_) ∨ pc = .deleteSpinlock ∨ pc = .freeConditionVariable ∨
      pc = .deleteMutex ∨ pc = .freeRingBuffer ∨ pc = .freeQueue := by
  cases pc with
  | lock op => cases op <;> cases h
  | test op => cases op <;> cases h
  | wait op at_ => cases op <;> cases h
  | terminate at_ => exact Or.inl ⟨at_, rfl⟩
  | _ => simp [Pc.pending] at h ⊢

/-- The statements of {lit}`queue_delete` follow each other up to its return. -/
theorem QueueStep.pending_delete (h : QueueStep wiring q t pc q' c)
    (hpc : pc.pending = some .delete) :
    (∃ pc', c = .goto pc' ∧ pc'.pending = some .delete) ∨ c = .ret .deleted := by
  rcases Pc.pending_delete_cases hpc with ⟨at_, rfl⟩ | rfl | rfl | rfl | rfl | rfl
  · cases h with
    | terminate at_ at' q' _ => exact Or.inl ⟨_, rfl, rfl⟩
    | terminateDone => exact Or.inl ⟨_, rfl, rfl⟩
  · cases h
    exact Or.inl ⟨_, rfl, rfl⟩
  · cases h
    exact Or.inl ⟨_, rfl, rfl⟩
  · cases h
    exact Or.inl ⟨_, rfl, rfl⟩
  · cases h
    exact Or.inl ⟨_, rfl, rfl⟩
  · cases h
    exact Or.inr rfl

/-- A thread that has called {lit}`queue_delete` executes its statements. -/
theorem deleting_of_reachable (hs : (threads wiring caller length env start).Reachable s)
    (hk : s.thread t = .inside k pc) (hcall : caller.call t k = some .delete) :
    pc.pending = some .delete := by
  refine hs.invariant (P := fun s => ∀ t k pc, s.thread t = .inside k pc →
    caller.call t k = some .delete → pc.pending = some .delete) ?_ ?_ t k pc hk hcall
  · intro t k pc hk
    cases hk
  · intro s t s' _ h hstep u k' pc' hu hcall'
    by_cases hut : u = t
    · subst hut
      rcases threads_step_cases hstep with
        ⟨k, c, hk, hc, rfl⟩ | ⟨k, k₁, env', hk, -, -, rfl⟩ | ⟨k, pc, q', c, hk, hq, rfl⟩
      · have heq : Thread.inside k c.entry = .inside k' pc' := by simpa using hu
        cases heq
        rw [Call.pending_entry, ← hc, hcall']
      · simp at hu
      · have heq : Thread.resume caller u k c = .inside k' pc' := by simpa using hu
        cases c with
        | ret result => cases heq
        | goto pc₁ =>
            cases heq
            rcases (queueStep_of_step hq).pending_delete (h u k' pc hk hcall') with
              ⟨pc₂, heq, hpc⟩ | heq
            · cases heq
              exact hpc
            · cases heq
    · rw [threads_step_frame hstep hut] at hu
      exact h u k' pc' hu hcall'

end Delete

/-! ## Calls that have started -/

section Started

variable {d : DispatchConfig Unit N β υ} {handshake : Bool} {u : Unit ⊕ Fin N} {n ip : Nat}
  {s s' : State (Unit ⊕ Fin N) (Option (Fin N)) Nat (Local Unit) (Env Unit N β υ)}

/-- The client goes on in its call or is at the next call. -/
def Local.Within (ip : Nat) (k : Local Unit) : Prop :=
  k = .client (ip + 1) .ready ∨ ∃ pc, pc ≠ .ready ∧ k = .client ip pc

theorem AddSite.within_next (site : AddSite Unit) : (site.next ip).Within ip := by
  cases site with
  | task => exact Or.inl rfl
  | member g i counter => exact Or.inr ⟨_, by simp, rfl⟩

theorem DispatchConfig.addEntry_ne_ready (d : DispatchConfig Unit N β υ) (t : Nat)
    (site : AddSite Unit) : d.addEntry t site ≠ .ready := by
  unfold DispatchConfig.addEntry
  split <;> simp

/-- A client that starts a call is in it. -/
theorem DispatchConfig.startCall_within {c : Unit} {env env' : Env Unit N β υ}
    {call : DispatchCall} {k : Local Unit} (h : d.startCall c ip env call = some (k, env')) :
    k.Within ip := by
  cases call with
  | taskAdd t =>
      cases h
      exact Or.inr ⟨_, d.addEntry_ne_ready t _, rfl⟩
  | groupAdd g =>
      simp only [DispatchConfig.startCall] at h
      split at h
      · cases h
        exact Or.inr ⟨_, by simp, rfl⟩
      · cases h
        exact Or.inr ⟨_, by simp, rfl⟩
  | taskWait t =>
      simp only [DispatchConfig.startCall, Option.ite_none_right_eq_some,
        Option.map_eq_some_iff] at h
      rcases h with ⟨-, counter, -, heq⟩
      cases heq
      exact Or.inr ⟨_, by simp, rfl⟩
  | groupWait g =>
      simp only [DispatchConfig.startCall, Option.ite_none_right_eq_some] at h
      rcases h with ⟨-, h⟩
      split at h
      · cases h
      · rcases Option.map_eq_some_iff.mp h with ⟨counter, -, heq⟩
        cases heq
        exact Or.inr ⟨_, by simp, rfl⟩
  | wait =>
      cases h
      exact Or.inr ⟨_, by simp, rfl⟩
  | delete => cases h

/-- A statement of the client leaves it in its call or at the next one. -/
theorem DispatchConfig.clientStep_within {c : Unit} {env env' : Env Unit N β υ}
    {pc : ClientPc Unit} {k : Local Unit}
    (h : d.clientStep c ip env pc = some (k, env')) : k.Within ip := by
  cases pc with
  | ready =>
      rcases Option.bind_eq_some_iff.mp h with ⟨call, -, h⟩
      exact DispatchConfig.startCall_within h
  | groupLoop g i counter =>
      simp only [DispatchConfig.clientStep] at h
      split at h
      · cases h
        exact Or.inl rfl
      · cases h
        exact Or.inr ⟨_, d.addEntry_ne_ready _ _, rfl⟩
  | addScan t site i busy =>
      simp only [DispatchConfig.clientStep] at h
      split at h
      · cases h
        exact Or.inr ⟨_, by simp, rfl⟩
      · split at h
        · cases h
          exact Or.inr ⟨_, by simp, rfl⟩
        · cases h
          exact Or.inr ⟨_, by simp, rfl⟩
  | pitch t site at_ =>
      rcases Option.map_eq_some_iff.mp h with ⟨⟨env₁, r⟩, -, heq⟩
      cases heq
      cases r with
      | none => exact site.within_next
      | some at' => exact Or.inr ⟨_, by simp, rfl⟩
  | send t site => cases h
  | checkToken counter tasks =>
      simp only [DispatchConfig.clientStep, Option.ite_none_right_eq_some,
        Option.some.injEq] at h
      cases h.2
      exact Or.inr ⟨_, by simp, rfl⟩
  | deleteCounter counter tasks =>
      cases h
      exact Or.inr ⟨_, by simp, rfl⟩
  | deleteTasks tasks =>
      cases tasks with
      | nil =>
          cases h
          exact Or.inl rfl
      | cons t ts =>
          cases h
          exact Or.inr ⟨_, by simp, rfl⟩
  | waitScan i busy =>
      simp only [DispatchConfig.clientStep] at h
      split at h
      · cases h
        exact Or.inr ⟨_, by simp, rfl⟩
      · cases h
        exact Or.inr ⟨_, by simp, rfl⟩
  | waitSize busy => cases h
  | freeObject object =>
      simp only [DispatchConfig.clientStep, Option.some.injEq] at h
      cases h
      cases object.next with
      | none => exact Or.inl rfl
      | some object' => exact Or.inr ⟨_, by simp, rfl⟩

/-- A client that comes out of a queue function goes on in its call or is at the next. -/
theorem DispatchConfig.ret_within (hs : (d.threads handshake).Reachable s)
    {pc : Pc Nat} {k : Local Unit} {q' : Queue (Unit ⊕ Fin N) (Option (Fin N)) Nat}
    {result : Result Nat} (hk : s.thread (.inl ()) = .inside k pc)
    (hstep : s.queue.step (dispatchWiring Unit N handshake) (.inl ()) pc =
      some (q', .ret result)) :
    ∃ ip pc, k = .client ip pc ∧ (d.caller.ret (.inl ()) k result).Within ip := by
  rcases (call_of_reachable hs hk).1 with ⟨x, hx⟩
  rcases DispatchConfig.call_cases hx with
    ⟨c, ip, -, rfl, rfl⟩ | ⟨c, ip, t, site, -, rfl, -⟩ | ⟨c, ip, busy, -, rfl, -⟩ |
    ⟨i, hu, -⟩
  · refine ⟨ip, _, rfl, ?_⟩
    have hpc := deleting_of_reachable hs hk hx
    rcases (queueStep_of_step hstep).pending_delete hpc with ⟨pc', heq, -⟩ | heq
    · cases heq
    · cases heq
      exact Or.inr ⟨.freeObject .cend, by simp, rfl⟩
  · exact ⟨ip, _, rfl, site.within_next⟩
  · refine ⟨ip, _, rfl, ?_⟩
    cases result with
    | size count =>
        simp only [DispatchConfig.caller]
        split
        · exact Or.inl rfl
        · exact Or.inr ⟨_, by simp, rfl⟩
    | _ => exact Or.inr ⟨_, by simp, rfl⟩
  · cases hu

/-- In its call or at the next one, a client has started what it had started. -/
theorem Local.Within.started {k : Local Unit} (h : k.Within ip) (hn : n ≤ ip) :
    (Thread.outside k).started n := by
  rcases h with rfl | ⟨pc, hpc, rfl⟩
  · exact Or.inl (Nat.lt_succ_of_le hn)
  · rcases Nat.lt_or_eq_of_le hn with hlt | heq
    · exact Or.inl hlt
    · exact Or.inr ⟨heq, hpc⟩

/-- A client that has returned from the first {lit}`n` calls starts the next one with a step,
or has started it before. -/
theorem started_of_reached (hs : (d.threads handshake).Reachable s) {c : Unit}
    (hstep : (d.threads handshake).step s (.inl c) = some s')
    (h : (s.thread (.inl ())).reached n) : (s'.thread (.inl ())).started n := by
  rcases threads_step_cases hstep with
    ⟨k, x, hk, -, rfl⟩ | ⟨k, k', env', hk, -, hown, rfl⟩ | ⟨k, pc, q', x, hk, hq, rfl⟩
  · rw [show s.thread (.inl ()) = _ from hk] at h
    simp only [Function.update_self]
    cases k <;> exact h
  · rw [show s.thread (.inl ()) = _ from hk] at h
    simp only [Function.update_self]
    cases k with
    | worker pc => exact h.elim
    | client ip pc =>
        have hwithin : k'.Within ip := DispatchConfig.clientStep_within hown
        exact hwithin.started h
  · rw [show s.thread (.inl ()) = _ from hk] at h
    simp only [Function.update_self]
    cases x with
    | goto pc' => cases k <;> exact h
    | ret result =>
        rcases DispatchConfig.ret_within hs hk hq with ⟨ip, pc, rfl, hwithin⟩
        exact hwithin.started h

/-- A call that has started has started ever after. -/
theorem started_mono (hs : (d.threads handshake).Reachable s)
    (hstep : (d.threads handshake).step s u = some s')
    (h : (s.thread (.inl ())).started n) : (s'.thread (.inl ())).started n := by
  cases u with
  | inl c => exact started_of_reached hs hstep (Thread.reached_of_started h)
  | inr i =>
      rw [threads_step_frame hstep (by simp)]
      exact h

/-! ## The shorter program -/

/-- The statements of a thread do not depend on calls that come later. -/
theorem DispatchConfig.upTo_step_eq {k : Local Unit} {env : Env Unit N β υ}
    (hk : ∀ c ip, u = .inl c → k = .client ip .ready → ip < n) :
    (d.upTo n).caller.call u k = d.caller.call u k ∧
      (d.upTo n).caller.step u k env = d.caller.step u k env := by
  cases u with
  | inr i =>
      cases k with
      | client ip pc => exact ⟨rfl, rfl⟩
      | worker pc => cases pc <;> exact ⟨rfl, rfl⟩
  | inl c =>
      cases k with
      | worker pc => exact ⟨rfl, rfl⟩
      | client ip pc =>
          cases pc with
          | ready =>
              have hcall : ((d.upTo n).prog c)[ip]? = (d.prog c)[ip]? := by
                simp [DispatchConfig.upTo, hk c ip rfl rfl]
              simp only [DispatchConfig.caller, DispatchConfig.clientStep, hcall]
              exact ⟨trivial, rfl⟩
          | deleteTasks ts => cases ts <;> exact ⟨rfl, rfl⟩
          | _ => exact ⟨rfl, rfl⟩

/-- A step that does not start the {lit}`n`-th call is a step of the shorter program. -/
theorem DispatchConfig.upTo_step (hs : (d.threads handshake).Reachable s)
    (hstep : (d.threads handshake).step s u = some s')
    (h : ¬ (s'.thread (.inl ())).started n) :
    ((d.upTo n).threads handshake).step s u = some s' := by
  have hsame : ∀ k, s.thread u = .outside k →
      (d.upTo n).caller.call u k = d.caller.call u k ∧
        (d.upTo n).caller.step u k s.env = d.caller.step u k s.env := by
    intro k hk
    refine d.upTo_step_eq fun c ip hu hready => ?_
    subst hu hready
    by_contra hge
    refine h (started_of_reached hs hstep ?_)
    rw [show s.thread (.inl ()) = _ from hk]
    exact Nat.le_of_not_lt hge
  simp only [DispatchConfig.threads, Metal.threads] at hstep ⊢
  cases hk : s.thread u with
  | outside k =>
      rw [hk] at hstep
      rcases hsame k hk with ⟨hcall, hown⟩
      simp only [hcall, hown]
      exact hstep
  | inside k pc =>
      rw [hk] at hstep
      exact hstep

/-- A state in which the client has not started its {lit}`n`-th call is a state of the shorter
program. -/
theorem DispatchConfig.upTo_reachable (hs : (d.threads handshake).Reachable s)
    (h : ¬ (s.thread (.inl ())).started n) :
    ((d.upTo n).threads handshake).Reachable s := by
  induction hs with
  | init => exact @System.Reachable.init _ _ ((d.upTo n).threads handshake)
  | step hr hstep ih =>
      have hbefore := ih fun hstarted => h (started_mono hr hstep hstarted)
      exact hbefore.step (d.upTo_step hr hstep h)

/-! ## Before the dispatch queue is deleted -/

/-- The client has not called {lit}`dispatch_queue_delete`. -/
def DispatchConfig.InUse (d : DispatchConfig Unit N β υ)
    (s : State (Unit ⊕ Fin N) (Option (Fin N)) Nat (Local Unit) (Env Unit N β υ)) : Prop :=
  ∀ j : Nat, (d.prog ())[j]? = some .delete → ¬ (s.thread (.inl ())).started j

/-- A dispatch queue in use is one that the calls made so far do not delete. -/
theorem DispatchConfig.InUse.exists_upTo (h : d.InUse s) :
    ∃ n, ¬ (s.thread (.inl ())).started n ∧ .delete ∉ (d.upTo n).prog () := by
  -- `n` is the number of calls that the client has started
  have hnone : ∀ n, (∀ j < n, (s.thread (.inl ())).started j) →
      .delete ∉ (d.upTo n).prog () := by
    intro n hstarted hmem
    rcases List.getElem?_of_mem hmem with ⟨j, hj⟩
    have hj' : ((d.prog ()).take n)[j]? = some .delete := hj
    rw [List.getElem?_take] at hj'
    split at hj'
    · rename_i hlt
      exact h j hj' (hstarted j hlt)
    · cases hj'
  unfold DispatchConfig.InUse at h
  cases hk : s.thread (.inl ()) with
  | outside k =>
      rw [hk] at hnone
      cases k with
      | worker pc => exact ⟨0, id, hnone 0 fun j hj => absurd hj (Nat.not_lt_zero j)⟩
      | client ip pc =>
          by_cases hpc : pc = .ready
          · refine ⟨ip, ?_, hnone ip fun j hj => Or.inl hj⟩
            rintro (hlt | ⟨-, hne⟩)
            · exact Nat.lt_irrefl ip hlt
            · exact hne hpc
          · refine ⟨ip + 1, ?_, hnone (ip + 1) fun j hj => ?_⟩
            · rintro (hlt | ⟨heq, -⟩)
              · omega
              · omega
            · rcases Nat.lt_or_eq_of_le (Nat.le_of_lt_succ hj) with hlt | heq
              · exact Or.inl hlt
              · exact Or.inr ⟨heq, hpc⟩
  | inside k pc =>
      rw [hk] at hnone
      cases k with
      | worker pc => exact ⟨0, id, hnone 0 fun j hj => absurd hj (Nat.not_lt_zero j)⟩
      | client ip pc =>
          exact ⟨ip + 1, Nat.not_succ_le_self ip,
            hnone (ip + 1) fun j hj => Nat.le_of_lt_succ hj⟩

/-- The client of the shorter program follows the rules, too. -/
theorem DispatchConfig.Disciplined.upTo (hd : d.Disciplined) (n : Nat) :
    (d.upTo n).Disciplined :=
  disciplined_iff.mpr ((disciplined_iff.mp hd).firstCalls (List.take_prefix n (d.prog ())))

theorem DispatchConfig.FlagsAgree.upTo (h : d.FlagsAgree) (n : Nat) : (d.upTo n).FlagsAgree :=
  fun g hg => h g (List.mem_of_mem_take hg)

/-- The waits that the client has started are waits of the shorter program. -/
theorem DispatchConfig.Disciplined.awaits_upTo (hd : d.Disciplined) {w jp : Nat} {ts : List Nat}
    (h : d.Awaits w jp ts) (hw : w < n) : (d.upTo n).Awaits w jp ts := by
  have hjp : jp < n := (hd.awaits_lt h).trans hw
  have hget : ∀ {i : Nat} {call : DispatchCall}, i < n → (d.prog ())[i]? = some call →
      ((d.upTo n).prog ())[i]? = some call := by
    intro i call hi hcall
    simpa [DispatchConfig.upTo, hi] using hcall
  rcases h with ⟨t, hwait, hadd, rfl⟩ | ⟨g, hwait, hadd, rfl⟩
  · exact Or.inl ⟨t, hget hw hwait, hget hjp hadd, rfl⟩
  · exact Or.inr ⟨g, hget hw hwait, hget hjp hadd, rfl⟩

end Started

end Metal
end LibDispatch
