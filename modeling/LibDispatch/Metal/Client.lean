import LibDispatch.ClientModel
import LibDispatch.Metal.Discipline

/-!
# The client of the bare-metal dispatch queue

Every step of the dispatch queue over its atomic queue is zero or more moves of the client
that {lit}`ClientModel` describes: a task counts as pushed when it is sent, or in the mode
{lit}`use_callers_thread` when the client starts to run it itself; a worker never moves the
client; and a wait releases all tasks that it waits for.

Main results:

- Theorem {lit}`DispatchStep.moves`: every step is zero or more moves.
- Theorem {lit}`clientInv_of_reachable`: the bookkeeping of the client model holds in every
  reachable state.
-/

namespace LibDispatch
namespace Metal

variable {C : Type} {N : Nat} {β υ : Type}

open Relation (ReflTransGen)

/-! ## The client of a state -/

/-- The call that adds task {lit}`t` at a site. -/
def AddSite.call (t : Nat) : AddSite C → DispatchCall
  | .task => .taskAdd t
  | .member g _ _ => .groupAdd g

/-- The place of the task of a site among those of its call. -/
def AddSite.index : AddSite C → Nat
  | .task => 0
  | .member _ i _ => i

/-- What the client is doing at a position of its {lit}`ip`-th call. -/
def DispatchConfig.phase (d : DispatchConfig Unit N β υ) : Local Unit → ClientPhase
  | .client _ .ready | .worker _ => .idle
  | .client ip (.groupLoop g i _) =>
      .adding (.groupAdd g) (d.program.counter ip (.groupAdd g)) i
  | .client ip (.addScan t site _ _) | .client ip (.send t site) =>
      .pushing (site.call t) (d.program.counter ip (site.call t)) site.index t
  | .client ip (.pitch t site _) =>
      .adding (site.call t) (d.program.counter ip (site.call t)) (site.index + 1)
  | .client _ (.checkToken c ts) => .waiting c.2 ts
  | .client _ (.deleteCounter c ts) => .releasing c.2 ts
  | .client _ (.deleteTasks ts) => .deleting ts
  | .client _ (.waitScan _ _) | .client _ (.waitSize _) | .client _ (.freeObject _) =>
      .returning

/-- The client at the local state {lit}`k`.  The one client is left out of the names of the
counters. -/
def DispatchConfig.clientState (d : DispatchConfig Unit N β υ) (k : Local Unit)
    (env : Env Unit N β υ) : ClientState where
  ip := k.ip
  phase := d.phase k
  data t := (env.heap.task t).privateData.map Prod.snd
  pushed := d.added () k
  counterFreed := env.history.counterFreed.map Prod.snd
  waitFreed := env.history.waitFreed

section Moves

variable {d : DispatchConfig Unit N β υ}
  {a a' : AtomicState (Unit ⊕ Fin N) Nat (Local Unit) (Env Unit N β υ)} {u : Unit ⊕ Fin N}
  {t ip : Nat} {site : AddSite Unit} {env : Env Unit N β υ}

/-- Zero or more moves of the client. -/
abbrev DispatchConfig.Moves (d : DispatchConfig Unit N β υ) :
    ClientState → ClientState → Prop :=
  ReflTransGen (ClientMove d.program (DispatchCall.awaited d.heap))

/-- The client before it hands over the task of a site. -/
theorem DispatchConfig.clientState_addEntry (d : DispatchConfig Unit N β υ) (ip t : Nat)
    (site : AddSite Unit) (env : Env Unit N β υ) :
    d.clientState (.client ip (d.addEntry t site)) env =
      d.clientState (.client ip (.send t site)) env := by
  unfold DispatchConfig.addEntry
  split <;> rfl

/-- The counter that a site stores is that of its call. -/
theorem DispatchConfig.groupCounter_map (d : DispatchConfig Unit N β υ) (ip g : Nat) :
    (d.groupCounter () ip g).map Prod.snd = d.program.counter ip (.groupAdd g) := by
  by_cases hw : (d.heap.group g).waitable = true
  · simp [DispatchConfig.groupCounter, Program.counter, DispatchCall.createsCounter,
      DispatchConfig.program, hw]
  · simp [DispatchConfig.groupCounter, Program.counter, DispatchCall.createsCounter,
      DispatchConfig.program, hw]

/-- The call of a site has the task of the site at its index. -/
theorem DispatchConfig.SiteAt.tasks_index (h : d.SiteAt () ip t site) :
    ((site.call t).tasks d.heap)[site.index]? = some t := by
  cases site with
  | task => rfl
  | member g i counter => exact h.2.2

/-- The client sets {lit}`private_data` of the next task. -/
theorem DispatchConfig.SiteAt.moves_store (h : d.SiteAt () ip t site) {v : ClientState}
    (hip : v.ip = ip) (hk : v.phase =
      .adding (site.call t) (d.program.counter ip (site.call t)) site.index)
    (hpushed : v.pushed = d.submitted () ip ++ site.before d.heap)
    (hother : ∀ t', t' ≠ t → (env.heap.task t').privateData.map Prod.snd = v.data t')
    (hthis : ∀ c, d.program.counter ip (site.call t) = some c →
      (env.heap.task t).privateData.map Prod.snd = some c)
    (hfreed : v.counterFreed = env.history.counterFreed.map Prod.snd ∧
      v.waitFreed = env.history.waitFreed) :
    d.Moves v (d.clientState (.client ip (d.addEntry t site)) env) := by
  rcases v with ⟨ip', phase, data, pushed, counterFreed, waitFreed⟩
  simp only at hip hk hpushed hother hfreed
  rcases hfreed with ⟨rfl, rfl⟩
  subst hip hk hpushed
  rw [d.clientState_addEntry]
  exact .head (.next _ _ _ t rfl h.tasks_index) (.single (.store _ _ _ t _ rfl hother hthis))

/-- A task that is pushed leads the client to the next task or out of the call. -/
theorem DispatchConfig.SiteAt.moves_next (h : d.SiteAt () ip t site) {v : ClientState}
    (hip : v.ip = ip) (hk : v.phase =
      .adding (site.call t) (d.program.counter ip (site.call t)) (site.index + 1))
    (hpushed : v.pushed = d.added () (site.next ip))
    (hdata : v.data = fun t => (env.heap.task t).privateData.map Prod.snd)
    (hfreed : v.counterFreed = env.history.counterFreed.map Prod.snd ∧
      v.waitFreed = env.history.waitFreed) :
    d.Moves v (d.clientState (site.next ip) env) := by
  rcases v with ⟨ip', phase, data, pushed, counterFreed, waitFreed⟩
  simp only at hip hk hpushed hdata hfreed
  rcases hfreed with ⟨rfl, rfl⟩
  subst hip hk hpushed hdata
  cases site with
  | task => exact .head (.added _ _ _ rfl rfl) (.single (.ret rfl))
  | member g i counter => exact .refl

/-- A step of the client's own code, or a call that it makes. -/
theorem DispatchConfig.Moves.client {client : Unit} {k k' : Local Unit} {fifo : List Nat}
    (hk : a.thread (.inl client) = k)
    (ha' : a' = { a with
      fifo := fifo, env := env, thread := Function.update a.thread (.inl client) k' })
    (h : d.Moves (d.clientState k a.env) (d.clientState k' env)) :
    d.Moves (d.clientState (a.thread (.inl ())) a.env)
      (d.clientState (a'.thread (.inl ())) a'.env) := by
  subst ha'
  simp only [Function.update_self]
  rwa [show a.thread (.inl ()) = k from hk]

/-- Positions that the client model does not tell apart. -/
theorem DispatchConfig.Moves.stay {k k' : Local Unit} (hphase : d.phase k' = d.phase k)
    (hip : k'.ip = k.ip) (hadded : d.added () k' = d.added () k)
    (hheap : env.heap = a.env.heap)
    (hfreed : env.history.counterFreed = a.env.history.counterFreed ∧
      env.history.waitFreed = a.env.history.waitFreed) :
    d.Moves (d.clientState k a.env) (d.clientState k' env) := by
  have heq : d.clientState k' env = d.clientState k a.env := by
    unfold DispatchConfig.clientState
    rw [hphase, hip, hadded, hheap, hfreed.1, hfreed.2]
  rw [heq]

/-- A store to {lit}`private_data` is seen in the task it is made to. -/
theorem Env.data_storePrivateData (env : Env Unit N β υ) (t : Nat) (c : Option (Unit × Nat))
    (t' : Nat) : ((env.storePrivateData t c).heap.task t').privateData =
      if t' = t then c else (env.heap.task t').privateData := by
  by_cases ht : t' = t
  · simp [Env.storePrivateData, ht]
  · simp [Env.storePrivateData, ht]

/-- A statement of {lit}`run_task` deletes nothing that a wait deletes. -/
theorem RunStep.freed_eq {me : Unit ⊕ Fin N} {env' : Env Unit N β υ} {at_ : RunPc Unit}
    {r : Option (RunPc Unit)} (h : RunStep me env t at_ env' r) :
    env'.history.counterFreed = env.history.counterFreed ∧
      env'.history.waitFreed = env.history.waitFreed := by
  cases h <;> exact ⟨rfl, rfl⟩

/-- A statement of {lit}`run_task` leaves the client where it is, or is the last one for the
task that the client runs itself. -/
theorem Tracked.moves_runNext (h : Tracked d a) {at_ : RunPc Unit}
    {r : Option (RunPc Unit)} (hrun : (a.thread u).runAt = some (t, at_))
    (hstep : RunStep u a.env t at_ env r) :
    d.Moves (d.clientState (a.thread (.inl ())) a.env)
      (d.clientState (Function.update a.thread u ((a.thread u).runNext r) (.inl ())) env) := by
  by_cases hu : Sum.inl () = u
  · subst hu
    rw [Function.update_self]
    have hadded := h.added_runNext hrun r
    rw [Function.update_self] at hadded
    have hc := h.client ()
    cases hk : a.thread (.inl ()) with
    | worker pc =>
        rw [hk] at hc
        cases hc
    | client ip pc =>
        rw [hk] at hc hrun hadded
        cases pc with
        | pitch t' site at' =>
            have hsite : d.SiteAt () ip t' site := hc
            cases r with
            | some at'' => exact .stay rfl rfl hadded hstep.heap_eq hstep.freed_eq
            | none =>
                refine hsite.moves_next rfl rfl hadded.symm ?_ ?_
                · rw [hstep.heap_eq]
                  rfl
                · rw [hstep.freed_eq.1, hstep.freed_eq.2]
                  exact ⟨rfl, rfl⟩
        | _ => cases hrun
  · rw [Function.update_of_ne hu]
    exact .stay rfl rfl rfl hstep.heap_eq hstep.freed_eq

/-- A step that adds nothing and returns. -/
theorem DispatchConfig.clientState_next {k k' : Local Unit}
    (hadded : d.added () k' = d.added () k) : d.clientState k' env =
      { d.clientState k env with ip := k'.ip, phase := d.phase k' } := by
  unfold DispatchConfig.clientState
  rw [hadded]

/-- A call that submits nothing returns. -/
theorem DispatchConfig.Moves.ret {k : Local Unit} (hip : k.ip = ip)
    (hadded : d.added () (.client (ip + 1) .ready) = d.added () k)
    (hphase : d.phase k = .returning) :
    d.Moves (d.clientState k env) (d.clientState (.client (ip + 1) .ready) env) := by
  subst hip
  rw [DispatchConfig.clientState_next hadded]
  exact .single (.ret hphase)

/-- A step of the client or of a worker is zero or more moves of the client. -/
theorem DispatchStep.moves (h : DispatchStep d a u a') (htracked : Tracked d a) :
    d.Moves (d.clientState (a.thread (.inl ())) a.env)
      (d.clientState (a'.thread (.inl ())) a'.env) := by
  cases h with
  | send c ip t site hk _ =>
      have hsite : d.SiteAt () ip t site := htracked.clientAt hk
      refine .client hk rfl (.head (.push _ _ _ _ rfl) ?_)
      exact hsite.moves_next rfl rfl hsite.added_next.symm rfl ⟨rfl, rfl⟩
  | sizeZero c ip busy hk _ =>
      have hcall : (d.prog ())[ip]? = some .wait := htracked.clientAt hk
      exact .client hk rfl (.ret rfl (DispatchConfig.added_ready_succ hcall rfl) rfl)
  | taskAddWaitable c ip t hk hcall hw =>
      have hsite : d.SiteAt () ip t .task := hcall
      refine .client hk rfl (.head (.add (.taskAdd t) rfl hcall rfl) ?_)
      refine hsite.moves_store rfl rfl rfl (fun t' ht' => ?_) (fun n hn => ?_) ⟨rfl, rfl⟩
      · rw [Env.data_storePrivateData, if_neg ht']
        rfl
      · rw [Env.data_storePrivateData, if_pos rfl]
        rw [htracked.waitable] at hw
        exact (if_pos hw).symm.trans hn
  | taskAddPlain c ip t hk hcall hw =>
      have hsite : d.SiteAt () ip t .task := hcall
      refine .client hk rfl (.head (.add (.taskAdd t) rfl hcall rfl) ?_)
      refine hsite.moves_store rfl rfl rfl (fun _ _ => rfl) (fun n hn => ?_) ⟨rfl, rfl⟩
      rw [htracked.waitable] at hw
      have hnone : d.program.counter ip (.taskAdd t) = none := if_neg (by
        change ¬ (d.heap.task t).waitable = true
        simp [hw])
      cases hnone.symm.trans hn
  | groupAddWaitable c ip g hk hcall hw =>
      have hcall' : d.program.calls[ip]? = some (.groupAdd g) := hcall
      exact .client hk rfl (.single (.add (.groupAdd g) rfl hcall' rfl))
  | groupAddPlain c ip g hk hcall hw =>
      have hcall' : d.program.calls[ip]? = some (.groupAdd g) := hcall
      exact .client hk rfl (.single (.add (.groupAdd g) rfl hcall' rfl))
  | groupStore c ip g i t counter hk htask =>
      rcases htracked.clientAt hk with ⟨hcall, rfl, -⟩
      rw [htracked.group] at htask
      have hsite : d.SiteAt () ip t (.member g i (d.groupCounter () ip g)) :=
        ⟨hcall, rfl, htask⟩
      refine .client hk rfl ?_
      refine hsite.moves_store rfl rfl rfl (fun t' ht' => ?_) (fun n hn => ?_) ⟨rfl, rfl⟩
      · rw [Env.data_storePrivateData, if_neg ht']
        rfl
      · rw [Env.data_storePrivateData, if_pos rfl, d.groupCounter_map]
        exact hn
  | groupDone c ip g i counter hk hend =>
      rcases htracked.clientAt hk with ⟨hcall, -, -⟩
      rw [htracked.group] at hend
      have hall := List.take_of_length_le (List.getElem?_eq_none_iff.mp hend)
      have hadded : d.added () (.client (ip + 1) .ready) =
          d.added () (.client ip (.groupLoop g i counter)) := by
        simp [DispatchConfig.added, d.submitted_succ hcall, DispatchCall.tasks, ClientPc.added,
          hall]
      refine .client hk rfl ?_
      rw [DispatchConfig.clientState_next hadded]
      exact .head (.added _ _ i rfl hend) (.single (.ret rfl))
  | taskWait c ip t counter hk hcall hdata =>
      have hcall' : d.program.calls[ip]? = some (.taskWait t) := hcall
      refine .client hk rfl ?_
      refine .single (.wait (.taskWait t) t counter.2 rfl hcall'
        (List.mem_singleton_self t) ?_)
      exact Option.map_eq_some_iff.mpr ⟨counter, hdata, rfl⟩
  | groupWait c ip g t ts counter hk hcall htasks hdata =>
      have hcall' : d.program.calls[ip]? = some (.groupWait g) := hcall
      rw [htracked.group] at htasks
      have ht := DispatchCall.mem_awaited_of_cons htasks
      refine .client hk rfl (.single ?_)
      rw [← htasks]
      refine .wait (.groupWait g) t counter.2 rfl hcall' ht ?_
      exact Option.map_eq_some_iff.mpr ⟨counter, hdata, rfl⟩
  | wait c ip hk hcall =>
      have hcall' : d.program.calls[ip]? = some .wait := hcall
      exact .client hk rfl (.head (.add .wait rfl hcall' rfl) (.single (.added _ _ 0 rfl rfl)))
  | addPitch c ip t site i busy _ hk _ =>
      have hadded : d.added () (.client ip (.pitch t site .perform)) =
          d.added () (.client ip (.addScan t site i busy)) ++ [t] := by
        simp [DispatchConfig.added, ClientPc.added]
      refine .client hk rfl (.single ?_)
      unfold DispatchConfig.clientState
      rw [hadded]
      exact .push _ _ _ _ rfl
  | run _ t at_ env' r hrun hstep => exact htracked.moves_runNext hrun hstep
  | checkToken c ip counter ts hk _ => exact .client hk rfl (.single (.waited _ _ rfl))
  | deleteCounter c ip counter ts hk =>
      refine .client hk rfl (.single ?_)
      unfold DispatchConfig.clientState
      rw [List.map_append]
      exact .deleteCounter _ _ rfl
  | deleteTask c ip t ts hk => exact .client hk rfl (.single (.deleteTask t ts rfl))
  | deleteDone c ip hk =>
      have hadded : d.added () (.client (ip + 1) .ready) =
          d.added () (.client ip (.deleteTasks [])) := by
        rcases htracked.clientAt hk with ⟨t, hcall⟩ | ⟨g, hcall⟩
        · exact DispatchConfig.added_ready_succ hcall rfl
        · exact DispatchConfig.added_ready_succ hcall rfl
      refine .client hk rfl ?_
      rw [DispatchConfig.clientState_next hadded]
      exact .single (.deleteDone rfl)
  | freeObject c ip object k hk hnext =>
      rcases hnext with rfl | ⟨object', rfl⟩
      · have hcall : (d.prog ())[ip]? = some .delete := htracked.clientAt hk
        exact .client hk rfl (.ret rfl (DispatchConfig.added_ready_succ hcall rfl) rfl)
      · exact .client hk rfl (.stay rfl rfl rfl rfl ⟨rfl, rfl⟩)
  | sizeAgain c ip busy hk _ => exact .client hk rfl (.stay rfl rfl rfl rfl ⟨rfl, rfl⟩)
  | addRead c ip t site i busy _ hk => exact .client hk rfl (.stay rfl rfl rfl rfl ⟨rfl, rfl⟩)
  | addSend c ip t site i busy _ hk _ => exact .client hk rfl (.stay rfl rfl rfl rfl ⟨rfl, rfl⟩)
  | waitRead c ip i busy _ hk => exact .client hk rfl (.stay rfl rfl rfl rfl ⟨rfl, rfl⟩)
  | waitAll c ip i busy _ hk => exact .client hk rfl (.stay rfl rfl rfl rfl ⟨rfl, rfl⟩)
  | _ =>
      simp only [Function.update_of_ne Sum.inl_ne_inr]
      exact .stay rfl rfl rfl rfl ⟨rfl, rfl⟩

/-- The client of a reachable state is reached by moves. -/
theorem moves_of_reachable (ha : d.atomicThreads.Reachable a) :
    d.Moves (.init fun t => (d.heap.task t).privateData.map Prod.snd)
      (d.clientState (a.thread (.inl ())) a.env) := by
  induction ha with
  | init => exact .refl
  | step hr hstep ih =>
      exact ih.trans ((dispatchStep_of_step hstep).moves (tracked_of_reachable hr))

/-- The bookkeeping of the client holds in every reachable state. -/
theorem clientInv_of_reachable (hd : d.Disciplined) (ha : d.atomicThreads.Reachable a) :
    ClientInv d.program (DispatchCall.awaited d.heap)
      (d.clientState (a.thread (.inl ())) a.env) :=
  clientInv_of_moves (DispatchConfig.disciplined_iff.mp hd) (fun _ => List.Sublist.refl _)
    (moves_of_reachable ha)

end Moves

end Metal
end LibDispatch
