import LibDispatch.Program
import LibDispatch.Metal.Ledger

/-!
# How a client has to use a dispatch queue

A client submits each task once, alone or through one group, and waits at most once
for a waitable task or group, after it was added.  In such a program a task belongs to
one call, what a client has added is a prefix of what the program submits, and a
wait belongs to the call that added what it waits for.

Main results:

- Theorem {lit}`Disciplined.unique`: a task is submitted by one call.
- Theorem {lit}`Tracked.prefix_added`: what was added is a prefix of what is submitted.
- Theorem {lit}`Ledger.held`: a held task is held once, and is nowhere else.
-/

namespace LibDispatch
namespace Metal

variable {N : Nat} {β υ : Type}

/-! ## Disciplined programs -/

/-- The call creates an event counter. -/
def DispatchConfig.createsCounter (d : DispatchConfig Unit N β υ) : DispatchCall → Bool
  | .taskAdd t => (d.heap.task t).waitable
  | .groupAdd g => (d.heap.group g).waitable
  | _ => false

/-- The {lit}`w`-th call waits for the {lit}`jp`-th, which submits {lit}`ts`. -/
def DispatchConfig.Awaits (d : DispatchConfig Unit N β υ) (w jp : Nat) (ts : List Nat) :
    Prop :=
  (∃ t, (d.prog ())[w]? = some (.taskWait t) ∧ (d.prog ())[jp]? = some (.taskAdd t) ∧
    ts = [t]) ∨
  ∃ g, (d.prog ())[w]? = some (.groupWait g) ∧ (d.prog ())[jp]? = some (.groupAdd g) ∧
    ts = (d.heap.group g).tasks

/-- The client adds distinct tasks, and waits for each waitable task or nonempty group
at most once and after it was added. -/
structure DispatchConfig.Disciplined (d : DispatchConfig Unit N β υ) : Prop where
  distinct : ((d.prog ()).flatMap (DispatchCall.tasks d.heap)).Nodup
  taskWait : ∀ w t : Nat, (d.prog ())[w]? = some (.taskWait t) →
    (d.heap.task t).waitable = true ∧ ∃ jp < w, (d.prog ())[jp]? = some (.taskAdd t)
  groupWait : ∀ w g : Nat, (d.prog ())[w]? = some (.groupWait g) →
    (d.heap.group g).waitable = true ∧ (d.heap.group g).tasks ≠ [] ∧
      ∃ jp < w, (d.prog ())[jp]? = some (.groupAdd g)
  taskWaitOnce : ∀ w w' t : Nat, (d.prog ())[w]? = some (.taskWait t) →
    (d.prog ())[w']? = some (.taskWait t) → w = w'
  groupWaitOnce : ∀ w w' g : Nat, (d.prog ())[w]? = some (.groupWait g) →
    (d.prog ())[w']? = some (.groupWait g) → w = w'

/-- The program of the client. -/
def DispatchConfig.program (d : DispatchConfig Unit N β υ) : Program β υ (Unit × Nat) :=
  ⟨d.prog (), d.heap⟩

/-- The rules are those of every backend. -/
theorem DispatchConfig.disciplined_iff {d : DispatchConfig Unit N β υ} :
    d.Disciplined ↔ d.program.Disciplined :=
  ⟨fun h => ⟨h.distinct, h.taskWait, h.groupWait, h.taskWaitOnce, h.groupWaitOnce⟩,
    fun h => ⟨h.distinct, h.taskWait, h.groupWait, h.taskWaitOnce, h.groupWaitOnce⟩⟩

theorem DispatchConfig.createsCounter_eq (d : DispatchConfig Unit N β υ)
    (call : DispatchCall) : d.createsCounter call = call.createsCounter d.heap := by
  cases call <;> rfl

/-- The tasks of each submitted group have the flag of the group. -/
def DispatchConfig.FlagsAgree (d : DispatchConfig Unit N β υ) : Prop :=
  ∀ g, .groupAdd g ∈ d.prog () → ∀ t ∈ (d.heap.group g).tasks,
    (d.heap.task t).waitable = (d.heap.group g).waitable

/-- Groups built by the functions of the group API have agreeing flags. -/
theorem DispatchConfig.flagsAgree_of_built {d : DispatchConfig Unit N β υ}
    {ts gs as : List Nat} (hbuilt : Built d.heap ts gs as)
    (hgroups : ∀ g, .groupAdd g ∈ d.prog () → g ∈ gs) : d.FlagsAgree :=
  fun g hg _ ht => hbuilt.waitable_eq (hgroups g hg) ht

namespace DispatchConfig

variable {d : DispatchConfig Unit N β υ} {t jp jp' w w' : Nat} {ts ts' : List Nat}
  {call call' : DispatchCall}

/-- The tasks of one call are distinct. -/
theorem Disciplined.nodup (hd : d.Disciplined) (hcall : (d.prog ())[jp]? = some call) :
    (call.tasks d.heap).Nodup :=
  (disciplined_iff.mp hd).nodup hcall

/-- When the tasks submitted are distinct, a task is submitted by one call. -/
theorem submits_unique
    (hdistinct : ((d.prog ()).flatMap (DispatchCall.tasks d.heap)).Nodup)
    (hcall : (d.prog ())[jp]? = some call) (hcall' : (d.prog ())[jp']? = some call')
    (ht : t ∈ call.tasks d.heap) (ht' : t ∈ call'.tasks d.heap) : jp = jp' :=
  Program.submits_unique (p := d.program) hdistinct hcall hcall' ht ht'

/-- A task is submitted by one call. -/
theorem Disciplined.unique (hd : d.Disciplined) (hcall : (d.prog ())[jp]? = some call)
    (hcall' : (d.prog ())[jp']? = some call') (ht : t ∈ call.tasks d.heap)
    (ht' : t ∈ call'.tasks d.heap) : jp = jp' :=
  submits_unique hd.distinct hcall hcall' ht ht'

/-- A wait belongs to a call that submits something and creates a counter. -/
theorem Disciplined.awaits_call (hd : d.Disciplined) (h : d.Awaits w jp ts) :
    ∃ call, (d.prog ())[jp]? = some call ∧ call.tasks d.heap = ts ∧
      d.createsCounter call = true ∧ ts ≠ [] := by
  rcases (disciplined_iff.mp hd).awaits_call h with ⟨call, hcall, htasks, hcreates, hne⟩
  exact ⟨call, hcall, htasks, (d.createsCounter_eq call).trans hcreates, hne⟩

/-- A call waits for one call. -/
theorem Disciplined.awaits_unique_add (hd : d.Disciplined) (h : d.Awaits w jp ts)
    (h' : d.Awaits w jp' ts') : jp = jp' ∧ ts = ts' :=
  (disciplined_iff.mp hd).awaits_unique_add h h'

/-- A call is waited for once. -/
theorem Disciplined.awaits_unique_wait (hd : d.Disciplined) (h : d.Awaits w jp ts)
    (h' : d.Awaits w' jp ts') : w = w' :=
  (disciplined_iff.mp hd).awaits_unique_wait h h'

/-- A task is awaited by one call. -/
theorem Disciplined.awaits_unique (hd : d.Disciplined) (h : d.Awaits w jp ts)
    (h' : d.Awaits w' jp' ts') (ht : t ∈ ts) (ht' : t ∈ ts') :
    w = w' ∧ jp = jp' ∧ ts = ts' :=
  (disciplined_iff.mp hd).awaits_unique h h' ht ht'

/-! ## What was added is a prefix of what is submitted -/

theorem prefix_submitted (d : DispatchConfig Unit N β υ) (ip : Nat) :
    d.submitted () ip <+: (d.prog ()).flatMap (DispatchCall.tasks d.heap) :=
  d.program.prefix_submitted ip

/-- The part of the current call up to a prefix of its tasks. -/
theorem prefix_submitted_append {ip : Nat} (hcall : (d.prog ())[ip]? = some call)
    (hts : ts <+: call.tasks d.heap) :
    d.submitted () ip ++ ts <+: (d.prog ()).flatMap (DispatchCall.tasks d.heap) :=
  Program.prefix_submitted_append (p := d.program) hcall hts

/-- A task submitted by an earlier call. -/
theorem mem_submitted {ip : Nat} : t ∈ d.submitted () ip ↔
    ∃ jp < ip, ∃ call, (d.prog ())[jp]? = some call ∧ t ∈ call.tasks d.heap :=
  Program.mem_submitted (p := d.program)

/-- The tasks up to and including that of a site. -/
theorem SiteAt.prefix_site {ip : Nat} {site : AddSite Unit} (h : d.SiteAt () ip t site) :
    d.submitted () ip ++ (site.before d.heap ++ [t]) <+:
      (d.prog ()).flatMap (DispatchCall.tasks d.heap) := by
  cases site with
  | task => exact prefix_submitted_append h (List.prefix_refl _)
  | member g i counter =>
      rcases h with ⟨hcall, -, htask⟩
      refine prefix_submitted_append hcall ?_
      rcases List.getElem?_eq_some_iff.mp htask with ⟨hlt, rfl⟩
      change (d.heap.group g).tasks.take i ++ _ <+: (d.heap.group g).tasks
      rw [← List.take_succ_eq_append_getElem hlt]
      exact List.take_prefix _ _

/-- The call of a site submits its task. -/
theorem SiteAt.exists_call {ip : Nat} {site : AddSite Unit} (h : d.SiteAt () ip t site) :
    ∃ call, (d.prog ())[ip]? = some call ∧ t ∈ call.tasks d.heap := by
  cases site with
  | task => exact ⟨_, h, List.mem_singleton_self t⟩
  | member g i counter => exact ⟨_, h.1, List.mem_of_getElem? h.2.2⟩

end DispatchConfig

/-! ## Tasks whose private data are set -/

/-- The tasks whose {lit}`private_data` the current call has set. -/
def ClientPc.stored (heap : Heap β υ (Unit × Nat)) : ClientPc Unit → List Nat
  | .groupLoop g i _ => (heap.group g).tasks.take i
  | .addScan t site _ _ | .send t site | .pitch t site _ => site.before heap ++ [t]
  | _ => []

/-- The tasks that a client has added or is adding. -/
def DispatchConfig.stored (d : DispatchConfig Unit N β υ) : Local Unit → List Nat
  | .client ip pc => d.submitted () ip ++ pc.stored d.heap
  | .worker _ => []

/-- The {lit}`jp`-th call has started, so that its counter exists. -/
def Local.created (jp : Nat) : Local Unit → Prop
  | .client ip pc => jp < ip ∨ (jp = ip ∧ pc ≠ .ready)
  | .worker _ => False

section Stored

variable {d : DispatchConfig Unit N β υ}
  {a a' : AtomicState (Unit ⊕ Fin N) Nat (Local Unit) (Env Unit N β υ)} {u : Unit ⊕ Fin N}
  {c : Unit} {ip t jp : Nat} {pc : ClientPc Unit} {call : DispatchCall}

theorem DispatchConfig.added_subset_stored (d : DispatchConfig Unit N β υ)
    (k : Local Unit) : d.added () k ⊆ d.stored k := by
  cases k with
  | worker pc => exact List.Subset.refl _
  | client ip pc =>
      have hpart : pc.added d.heap ⊆ pc.stored d.heap := by
        cases pc with
        | addScan t site i busy => exact List.subset_append_left _ _
        | send t site => exact List.subset_append_left _ _
        | _ => exact List.Subset.refl _
      intro t ht
      rcases List.mem_append.mp ht with hsub | hmem
      · exact List.mem_append_left _ hsub
      · exact List.mem_append_right _ (hpart hmem)

theorem DispatchConfig.stored_addEntry (d : DispatchConfig Unit N β υ) (ip t : Nat)
    (site : AddSite Unit) : d.stored (.client ip (d.addEntry t site)) =
      d.submitted () ip ++ (site.before d.heap ++ [t]) := by
  unfold DispatchConfig.addEntry
  split <;> rfl

theorem DispatchConfig.SiteAt.stored_next {site : AddSite Unit} (h : d.SiteAt () ip t site) :
    d.stored (site.next ip) = d.submitted () ip ++ (site.before d.heap ++ [t]) := by
  have hadded := h.added_next
  rw [List.append_assoc] at hadded
  rw [← hadded]
  cases site <;> rfl

/-- What a client has added or is adding is a prefix of what it submits. -/
theorem Tracked.prefix_stored (h : Tracked d a) :
    d.stored (a.thread (.inl ())) <+: (d.prog ()).flatMap (DispatchCall.tasks d.heap) := by
  have hc := h.client ()
  cases hk : a.thread (.inl ()) with
  | worker pc =>
      rw [hk] at hc
      cases hc
  | client ip pc =>
      rw [hk] at hc
      have hnil : d.submitted () ip ++ [] <+:
          (d.prog ()).flatMap (DispatchCall.tasks d.heap) := by
        rw [List.append_nil]
        exact d.prefix_submitted ip
      cases pc with
      | groupLoop g i counter =>
          have htake := List.take_prefix i (d.heap.group g).tasks
          exact DispatchConfig.prefix_submitted_append hc.1 htake
      | addScan t site i busy => exact DispatchConfig.SiteAt.prefix_site hc
      | send t site => exact DispatchConfig.SiteAt.prefix_site hc
      | pitch t site at_ => exact DispatchConfig.SiteAt.prefix_site hc
      | _ => exact hnil

/-- What a client has added is a prefix of what it submits. -/
theorem Tracked.prefix_added (h : Tracked d a) :
    d.added () (a.thread (.inl ())) <+: (d.prog ()).flatMap (DispatchCall.tasks d.heap) := by
  refine List.IsPrefix.trans ?_ h.prefix_stored
  cases hk : a.thread (.inl ()) with
  | worker pc => exact List.prefix_refl _
  | client ip pc =>
      apply (List.prefix_append_right_inj _).mpr
      cases pc with
      | addScan t site i busy => exact List.prefix_append _ _
      | send t site => exact List.prefix_append _ _
      | _ => exact List.prefix_refl _

/-- A task is added at most once. -/
theorem Tracked.count_added_le (h : Tracked d a) (hd : d.Disciplined) (t : Nat) :
    (d.added () (a.thread (.inl ()))).count t ≤ 1 :=
  List.nodup_iff_count_le_one.mp (hd.distinct.sublist h.prefix_added.sublist) t

/-- A task that was added or is being added belongs to a call that has started. -/
theorem Tracked.created_of_stored (h : Tracked d a) (hd : d.Disciplined)
    (hcall : (d.prog ())[jp]? = some call) (ht : t ∈ call.tasks d.heap)
    (hstored : t ∈ d.stored (a.thread (.inl ()))) :
    (a.thread (.inl ())).created jp := by
  have hc := h.client ()
  cases hk : a.thread (.inl ()) with
  | worker pc =>
      rw [hk] at hc
      cases hc
  | client ip pc =>
      rw [hk] at hc hstored
      rcases List.mem_append.mp hstored with hsub | hpart
      · rcases DispatchConfig.mem_submitted.mp hsub with ⟨jp', hlt, call', hcall', ht'⟩
        have heq := hd.unique hcall hcall' ht ht'
        exact Or.inl (heq ▸ hlt)
      · have hsite : ∀ (t' : Nat) (site : AddSite Unit), d.SiteAt () ip t' site →
            t ∈ site.before d.heap ++ [t'] → jp = ip := by
          intro t' site hsite hmem
          rcases hsite.exists_call with ⟨call', hcall', -⟩
          refine hd.unique hcall hcall' ht ?_
          cases site with
          | task =>
              rw [show (d.prog ())[ip]? = some (.taskAdd t') from hsite] at hcall'
              cases hcall'
              exact hmem
          | member g i counter =>
              rcases hsite with ⟨hgroup, -, htask⟩
              rw [hgroup] at hcall'
              cases hcall'
              rcases List.mem_append.mp hmem with hbefore | hthis
              · exact List.mem_of_mem_take hbefore
              · rw [List.mem_singleton.mp hthis]
                exact List.mem_of_getElem? htask
        cases pc with
        | groupLoop g i counter =>
            have heq := hd.unique hcall hc.1 ht (List.mem_of_mem_take hpart)
            exact Or.inr ⟨heq, by simp⟩
        | addScan t' site i busy => exact Or.inr ⟨hsite t' site hc hpart, by simp⟩
        | send t' site => exact Or.inr ⟨hsite t' site hc hpart, by simp⟩
        | pitch t' site at_ => exact Or.inr ⟨hsite t' site hc hpart, by simp⟩
        | _ => cases hpart

/-! ## Consequences of the books -/

/-- A task that is held has been added, is held by one thread, and is neither queued nor
finished. -/
theorem Ledger.held (h : Ledger d a) (htracked : Tracked d a) (hd : d.Disciplined)
    {at_ : RunPc Unit} (hheld : (a.thread u).held = some (t, at_)) :
    t ∈ d.added () (a.thread (.inl ())) ∧ t ∉ a.fifo ∧
      tally (Local.holding t) a.thread = 1 ∧ t ∉ a.env.history.finished := by
  have hsum := h.added t
  have hle := htracked.count_added_le hd t
  have hpos : 0 < (a.thread u).holding t := Local.holding_pos_iff.mpr ⟨at_, hheld⟩
  have htally := le_tally (Local.holding t) a.thread u
  refine ⟨?_, ?_, by omega, ?_⟩
  · exact List.count_pos_iff.mp (by omega)
  · exact List.count_eq_zero.mp (by omega)
  · exact List.count_eq_zero.mp (by omega)

/-- A held task is held by one thread. -/
theorem Ledger.held_unique (h : Ledger d a) (htracked : Tracked d a) (hd : d.Disciplined)
    {v : Unit ⊕ Fin N} {at_ at' : RunPc Unit} (hu : (a.thread u).held = some (t, at_))
    (hv : (a.thread v).held = some (t, at')) : u = v := by
  have htally := (h.held htracked hd hu).2.2.1
  exact tally_unique (le_of_eq htally) (Local.holding_pos_iff.mpr ⟨at_, hu⟩)
    (Local.holding_pos_iff.mpr ⟨at', hv⟩)

/-- How often a stage was passed by the holder of a task. -/
theorem Ledger.tally_held (h : Ledger d a) (htracked : Tracked d a) (hd : d.Disciplined)
    {at_ : RunPc Unit} (hheld : (a.thread u).held = some (t, at_)) (p : RunPc Unit → Bool) :
    tally (Local.weight p t) a.thread = if p at_ = true then 1 else 0 := by
  have hu : (a.thread u).weight p t = if p at_ = true then 1 else 0 := by
    rw [Local.weight_of_held hheld]
    simp [RunPc.mark]
  have hle := le_tally (Local.weight p t) a.thread u
  have htotal : tally (Local.weight p t) a.thread ≤ 1 := by
    rw [← (h.held htracked hd hheld).2.2.1]
    exact tally_le_tally fun v => Local.weight_le_holding p t (a.thread v)
  by_cases hp : p at_ = true
  · rw [if_pos hp] at hu ⊢
    omega
  · rw [if_neg hp] at hu ⊢
    rw [tally_eq_zero_iff]
    intro v
    by_cases hvu : v = u
    · rw [hvu, hu]
    · cases hv : (a.thread v).held with
      | none => exact Local.weight_of_not_held hv
      | some x =>
          rcases x with ⟨t', at'⟩
          rw [Local.weight_of_held hv]
          by_cases ht : t' = t
          · subst ht
            exact absurd (h.held_unique htracked hd hv hheld) hvu
          · simp [RunPc.mark, ht]

/-- The locked part of {lit}`event_counter_signal` is executed only for added tasks. -/
theorem Ledger.mem_added_of_signalled (h : Ledger d a)
    (ht : t ∈ a.env.history.signalled) : t ∈ d.added () (a.thread (.inl ())) := by
  have hpos := List.count_pos_iff.mpr ht
  have hle := h.signalled_le_returned t
  have hreturned := h.returned t
  have hadded := h.added t
  have hholding : tally (Local.weight RunPc.returned t) a.thread ≤
      tally (Local.holding t) a.thread :=
    tally_le_tally fun v => Local.weight_le_holding _ t (a.thread v)
  exact List.count_pos_iff.mp (by omega)

end Stored

end Metal
end LibDispatch
