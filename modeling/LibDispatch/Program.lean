import LibDispatch.Task
import Mathlib.Data.List.Flatten

/-!
# The program of a client

What a client of a dispatch queue calls, in order, and the tasks and groups that it has
prepared for it.  The contract is the same for every backend: a task is submitted once,
alone or through one group, and a waitable task or group is waited for at most once,
after it was added.  In such a program a task belongs to one call, and a wait belongs to
the call that added what it waits for.

Main results:

- Theorem {lit}`Program.submits_unique`: a task is submitted by one call.
- Theorems {lit}`Program.Disciplined.awaits_unique_add` and
  {lit}`Program.Disciplined.awaits_unique_wait`: a wait belongs to one call, and a call to one
  wait.
-/

namespace LibDispatch

variable {β υ γ : Type}

/-- The calls of a client and what they are about. -/
structure Program (β υ γ : Type) where
  calls : List DispatchCall
  heap : Heap β υ γ

/-- The tasks whose completion a call waits for. -/
def DispatchCall.awaited (heap : Heap β υ γ) : DispatchCall → List Nat
  | .taskWait t => [t]
  | .groupWait g => (heap.group g).tasks
  | _ => []

/-- The call creates an event counter. -/
def DispatchCall.createsCounter (heap : Heap β υ γ) : DispatchCall → Bool
  | .taskAdd t => (heap.task t).waitable
  | .groupAdd g => (heap.group g).waitable
  | _ => false

/-- A wait for a group waits for the first task of the group. -/
theorem DispatchCall.mem_awaited_of_cons {heap : Heap β υ γ} {g t : Nat} {ts : List Nat}
    (htasks : (heap.group g).tasks = t :: ts) :
    t ∈ (DispatchCall.groupWait g).awaited heap := by
  change t ∈ (heap.group g).tasks
  rw [htasks]
  exact List.mem_cons_self

namespace Program

/-- The {lit}`w`-th call waits for the {lit}`jp`-th, which submits {lit}`ts`. -/
def Awaits (p : Program β υ γ) (w jp : Nat) (ts : List Nat) : Prop :=
  (∃ t, p.calls[w]? = some (.taskWait t) ∧ p.calls[jp]? = some (.taskAdd t) ∧ ts = [t]) ∨
  ∃ g, p.calls[w]? = some (.groupWait g) ∧ p.calls[jp]? = some (.groupAdd g) ∧
    ts = (p.heap.group g).tasks

/-- The client adds distinct tasks, and waits for each waitable task or nonempty group
at most once and after it was added. -/
structure Disciplined (p : Program β υ γ) : Prop where
  distinct : (p.calls.flatMap (DispatchCall.tasks p.heap)).Nodup
  taskWait : ∀ w t : Nat, p.calls[w]? = some (.taskWait t) →
    (p.heap.task t).waitable = true ∧ ∃ jp < w, p.calls[jp]? = some (.taskAdd t)
  groupWait : ∀ w g : Nat, p.calls[w]? = some (.groupWait g) →
    (p.heap.group g).waitable = true ∧ (p.heap.group g).tasks ≠ [] ∧
      ∃ jp < w, p.calls[jp]? = some (.groupAdd g)
  taskWaitOnce : ∀ w w' t : Nat, p.calls[w]? = some (.taskWait t) →
    p.calls[w']? = some (.taskWait t) → w = w'
  groupWaitOnce : ∀ w w' g : Nat, p.calls[w]? = some (.groupWait g) →
    p.calls[w']? = some (.groupWait g) → w = w'

/-- The tasks of each submitted group have the flag of the group. -/
def FlagsAgree (p : Program β υ γ) : Prop :=
  ∀ g, .groupAdd g ∈ p.calls → ∀ t ∈ (p.heap.group g).tasks,
    (p.heap.task t).waitable = (p.heap.group g).waitable

/-- The tasks that the first {lit}`ip` calls submit. -/
def submitted (p : Program β υ γ) (ip : Nat) : List Nat :=
  (p.calls.take ip).flatMap (DispatchCall.tasks p.heap)

variable {p : Program β υ γ} {t jp jp' w w' ip : Nat} {ts ts' : List Nat}
  {call call' : DispatchCall}

/-- Groups built by the functions of the group API have agreeing flags. -/
theorem flagsAgree_of_built {ts gs as : List Nat} (hbuilt : Built p.heap ts gs as)
    (hgroups : ∀ g, .groupAdd g ∈ p.calls → g ∈ gs) : p.FlagsAgree :=
  fun g hg _ ht => hbuilt.waitable_eq (hgroups g hg) ht

/-- A task of a call is waitable exactly when the call creates a counter. -/
theorem FlagsAgree.createsCounter_iff (h : p.FlagsAgree) (hcall : p.calls[jp]? = some call)
    (ht : t ∈ call.tasks p.heap) :
    call.createsCounter p.heap = true ↔ (p.heap.task t).waitable = true := by
  cases call with
  | taskAdd t' =>
      rw [List.mem_singleton.mp ht]
      rfl
  | groupAdd g =>
      rw [h g (List.mem_of_getElem? hcall) t ht]
      rfl
  | _ => cases ht

/-! ## One task, one call, one wait -/

/-- When the tasks submitted are distinct, a task is submitted by one call. -/
theorem submits_unique (hdistinct : (p.calls.flatMap (DispatchCall.tasks p.heap)).Nodup)
    (hcall : p.calls[jp]? = some call) (hcall' : p.calls[jp']? = some call')
    (ht : t ∈ call.tasks p.heap) (ht' : t ∈ call'.tasks p.heap) : jp = jp' := by
  have hpair := List.pairwise_iff_getElem.mp (List.nodup_flatMap.mp hdistinct).2
  rcases List.getElem?_eq_some_iff.mp hcall with ⟨hlt, rfl⟩
  rcases List.getElem?_eq_some_iff.mp hcall' with ⟨hlt', rfl⟩
  rcases Nat.lt_trichotomy jp jp' with h | h | h
  · exact absurd ht' (hpair jp jp' hlt hlt' h ht)
  · exact h
  · exact absurd ht (hpair jp' jp hlt' hlt h ht')

/-- A task is submitted by one call. -/
theorem Disciplined.unique (hd : p.Disciplined) (hcall : p.calls[jp]? = some call)
    (hcall' : p.calls[jp']? = some call') (ht : t ∈ call.tasks p.heap)
    (ht' : t ∈ call'.tasks p.heap) : jp = jp' :=
  submits_unique hd.distinct hcall hcall' ht ht'

/-- The tasks of one call are distinct. -/
theorem Disciplined.nodup (hd : p.Disciplined) (hcall : p.calls[jp]? = some call) :
    (call.tasks p.heap).Nodup :=
  (List.nodup_flatMap.mp hd.distinct).1 call (List.mem_of_getElem? hcall)

/-- What a wait waits for. -/
theorem Awaits.awaited (h : p.Awaits w jp ts) :
    ∃ call, p.calls[w]? = some call ∧ call.awaited p.heap = ts := by
  rcases h with ⟨t, hw, -, rfl⟩ | ⟨g, hw, -, rfl⟩
  · exact ⟨_, hw, rfl⟩
  · exact ⟨_, hw, rfl⟩

theorem Awaits.eq_awaited (h : p.Awaits w jp ts) (hcall : p.calls[w]? = some call) :
    ts = call.awaited p.heap := by
  rcases h.awaited with ⟨call', hcall', rfl⟩
  cases Option.some.inj (hcall.symm.trans hcall')
  rfl

/-- A wait belongs to a call that submits something and creates a counter. -/
theorem Disciplined.awaits_call (hd : p.Disciplined) (h : p.Awaits w jp ts) :
    ∃ call, p.calls[jp]? = some call ∧ call.tasks p.heap = ts ∧
      call.createsCounter p.heap = true ∧ ts ≠ [] := by
  rcases h with ⟨t, hw, hjp, rfl⟩ | ⟨g, hw, hjp, rfl⟩
  · exact ⟨_, hjp, rfl, (hd.taskWait w t hw).1, by simp⟩
  · rcases hd.groupWait w g hw with ⟨hwaitable, hne, -⟩
    exact ⟨_, hjp, rfl, hwaitable, hne⟩

/-- A call that waits for something waits for an earlier call. -/
theorem Disciplined.exists_awaits (hd : p.Disciplined) (hcall : p.calls[w]? = some call)
    (ht : t ∈ call.awaited p.heap) : ∃ jp < w, p.Awaits w jp (call.awaited p.heap) := by
  cases call with
  | taskWait t' =>
      rcases (hd.taskWait w t' hcall).2 with ⟨jp, hlt, hjp⟩
      exact ⟨jp, hlt, Or.inl ⟨t', hcall, hjp, rfl⟩⟩
  | groupWait g =>
      rcases (hd.groupWait w g hcall).2.2 with ⟨jp, hlt, hjp⟩
      exact ⟨jp, hlt, Or.inr ⟨g, hcall, hjp, rfl⟩⟩
  | _ => cases ht

/-- A call waits for one call. -/
theorem Disciplined.awaits_unique_add (hd : p.Disciplined) (h : p.Awaits w jp ts)
    (h' : p.Awaits w jp' ts') : jp = jp' ∧ ts = ts' := by
  rcases h.awaited with ⟨call, hcall, rfl⟩
  rcases h'.eq_awaited hcall with rfl
  rcases hd.awaits_call h with ⟨add, hadd, htasks, -, hne⟩
  rcases hd.awaits_call h' with ⟨add', hadd', htasks', -, -⟩
  rcases List.exists_mem_of_ne_nil _ hne with ⟨t, ht⟩
  exact ⟨hd.unique hadd hadd' (htasks ▸ ht) (htasks' ▸ ht), rfl⟩

/-- What is awaited was submitted by an earlier call. -/
theorem Disciplined.awaits_lt (hd : p.Disciplined) (h : p.Awaits w jp ts) : jp < w := by
  rcases h.awaited with ⟨call, hcall, rfl⟩
  rcases hd.awaits_call h with ⟨-, -, -, -, hne⟩
  rcases List.exists_mem_of_ne_nil _ hne with ⟨t, ht⟩
  rcases hd.exists_awaits hcall ht with ⟨jp', hlt, h'⟩
  rwa [(hd.awaits_unique_add h h').1]

/-- A call is waited for once. -/
theorem Disciplined.awaits_unique_wait (hd : p.Disciplined) (h : p.Awaits w jp ts)
    (h' : p.Awaits w' jp ts') : w = w' := by
  rcases h with ⟨t, hw, hjp, rfl⟩ | ⟨g, hw, hjp, rfl⟩
  · rcases h' with ⟨t', hw', hjp', rfl⟩ | ⟨g', hw', hjp', -⟩
    · rw [hjp] at hjp'
      cases hjp'
      exact hd.taskWaitOnce w w' t hw hw'
    · rw [hjp] at hjp'
      cases hjp'
  · rcases h' with ⟨t', hw', hjp', -⟩ | ⟨g', hw', hjp', rfl⟩
    · rw [hjp] at hjp'
      cases hjp'
    · rw [hjp] at hjp'
      cases hjp'
      exact hd.groupWaitOnce w w' g hw hw'

/-- A task is awaited by one call. -/
theorem Disciplined.awaits_unique (hd : p.Disciplined) (h : p.Awaits w jp ts)
    (h' : p.Awaits w' jp' ts') (ht : t ∈ ts) (ht' : t ∈ ts') :
    w = w' ∧ jp = jp' ∧ ts = ts' := by
  rcases hd.awaits_call h with ⟨call, hcall, rfl, -⟩
  rcases hd.awaits_call h' with ⟨call', hcall', rfl, -⟩
  have hjp := hd.unique hcall hcall' ht ht'
  subst hjp
  rw [hcall] at hcall'
  cases hcall'
  exact ⟨hd.awaits_unique_wait h h', rfl, rfl⟩

/-! ## What the first calls submit -/

@[simp]
theorem submitted_zero (p : Program β υ γ) : p.submitted 0 = [] :=
  rfl

theorem submitted_succ (hcall : p.calls[ip]? = some call) :
    p.submitted (ip + 1) = p.submitted ip ++ call.tasks p.heap := by
  rcases List.getElem?_eq_some_iff.mp hcall with ⟨hlt, rfl⟩
  unfold submitted
  rw [List.take_succ_eq_append_getElem hlt, List.flatMap_append, List.flatMap_singleton]

theorem prefix_submitted (p : Program β υ γ) (ip : Nat) :
    p.submitted ip <+: p.calls.flatMap (DispatchCall.tasks p.heap) := by
  refine ⟨(p.calls.drop ip).flatMap (DispatchCall.tasks p.heap), ?_⟩
  rw [submitted, ← List.flatMap_append, List.take_append_drop]

/-- The part of the current call up to a prefix of its tasks. -/
theorem prefix_submitted_append (hcall : p.calls[ip]? = some call)
    (hts : ts <+: call.tasks p.heap) :
    p.submitted ip ++ ts <+: p.calls.flatMap (DispatchCall.tasks p.heap) := by
  refine List.IsPrefix.trans ?_ (p.prefix_submitted (ip + 1))
  rw [p.submitted_succ hcall]
  exact (List.prefix_append_right_inj _).mpr hts

/-- A task submitted by an earlier call. -/
theorem mem_submitted : t ∈ p.submitted ip ↔
    ∃ jp < ip, ∃ call, p.calls[jp]? = some call ∧ t ∈ call.tasks p.heap := by
  unfold submitted
  rw [List.mem_flatMap]
  constructor
  · rintro ⟨call, hmem, ht⟩
    rcases List.getElem?_of_mem hmem with ⟨jp, hjp⟩
    rw [List.getElem?_take] at hjp
    split at hjp
    · rename_i hlt
      exact ⟨jp, hlt, call, hjp, ht⟩
    · cases hjp
  · rintro ⟨jp, hlt, call, hjp, ht⟩
    refine ⟨call, ?_, ht⟩
    apply List.mem_of_getElem? (i := jp)
    rw [List.getElem?_take, if_pos hlt, hjp]

/-! ## Shorter programs -/

/-- The first calls of a disciplined program are a disciplined program. -/
theorem Disciplined.firstCalls (hd : p.Disciplined) {calls : List DispatchCall}
    (hcalls : calls <+: p.calls) : (Program.mk calls p.heap).Disciplined := by
  have hget : ∀ {i : Nat} {call : DispatchCall}, calls[i]? = some call →
      p.calls[i]? = some call := by
    intro i call hi
    rcases hcalls with ⟨rest, hrest⟩
    rw [← hrest, List.getElem?_append_left (List.getElem?_eq_some_iff.mp hi).1]
    exact hi
  have hbefore : ∀ {w jp : Nat} {call call' : DispatchCall}, calls[w]? = some call → jp < w →
      p.calls[jp]? = some call' → calls[jp]? = some call' := by
    intro w jp call call' hw hlt hjp
    rcases hcalls with ⟨rest, hrest⟩
    have hlen := (List.getElem?_eq_some_iff.mp hw).1
    rw [← hrest, List.getElem?_append_left (Nat.lt_trans hlt hlen)] at hjp
    exact hjp
  constructor
  · exact hd.distinct.sublist (hcalls.sublist.flatMap _)
  · intro w t hw
    rcases hd.taskWait w t (hget hw) with ⟨hwaitable, jp, hlt, hjp⟩
    exact ⟨hwaitable, jp, hlt, hbefore hw hlt hjp⟩
  · intro w g hw
    rcases hd.groupWait w g (hget hw) with ⟨hwaitable, hne, jp, hlt, hjp⟩
    exact ⟨hwaitable, hne, jp, hlt, hbefore hw hlt hjp⟩
  · exact fun w w' t hw hw' => hd.taskWaitOnce w w' t (hget hw) (hget hw')
  · exact fun w w' g hw hw' => hd.groupWaitOnce w w' g (hget hw) (hget hw')

/-- A client may delete the dispatch queue at the end. -/
theorem Disciplined.thenDelete (hd : p.Disciplined) :
    (Program.mk (p.calls ++ [.delete]) p.heap).Disciplined := by
  have hget : ∀ {i : Nat} {call : DispatchCall}, (p.calls ++ [.delete])[i]? = some call →
      call ≠ .delete → p.calls[i]? = some call := by
    intro i call hi hne
    rw [List.getElem?_append] at hi
    split at hi
    · exact hi
    · exact absurd (List.mem_singleton.mp (List.mem_of_getElem? hi)) hne
  have hfound : ∀ {jp : Nat} {call : DispatchCall}, p.calls[jp]? = some call →
      (p.calls ++ [.delete])[jp]? = some call := by
    intro jp call hjp
    rw [List.getElem?_append_left (List.getElem?_eq_some_iff.mp hjp).1]
    exact hjp
  constructor
  · simpa [DispatchCall.tasks] using hd.distinct
  · intro w t hw
    rcases hd.taskWait w t (hget hw (by simp)) with ⟨hwaitable, jp, hlt, hjp⟩
    exact ⟨hwaitable, jp, hlt, hfound hjp⟩
  · intro w g hw
    rcases hd.groupWait w g (hget hw (by simp)) with ⟨hwaitable, hne, jp, hlt, hjp⟩
    exact ⟨hwaitable, hne, jp, hlt, hfound hjp⟩
  · exact fun w w' t hw hw' => hd.taskWaitOnce w w' t (hget hw (by simp)) (hget hw' (by simp))
  · exact fun w w' g hw hw' => hd.groupWaitOnce w w' g (hget hw (by simp)) (hget hw' (by simp))

end Program

/-! ## A group of one function -/

/-- A heap before the first call. -/
def freshHeap (γ : Type) : Heap Unit Nat γ :=
  ⟨fun _ => dispatchTaskInit (fun _ n => n) () false, fun _ => ⟨0, false, []⟩⟩

/-- A waitable group of one function. -/
def oneFunctionHeap (γ : Type) : Heap Unit Nat γ :=
  let h := dispatchGroupCreate (freshHeap γ) 0 1 true
  (dispatchGroupFunctionAdd h 0 0 (fun _ n => n + 1) ()).getD h

/-- The group comes from the functions of the group API. -/
theorem oneFunctionHeap_built (γ : Type) : Built (oneFunctionHeap γ) [0] [0] [0] := by
  have hgroup := Built.groupCreate (g := 0) 1 true (Built.nil (freshHeap γ)) (by decide)
  exact Built.groupFunctionAdd (g := 0) (t := 0) (fun _ n => n + 1) () hgroup
    (by decide) (by decide) rfl

/-- A waitable group of two functions that do not commute: one with a task of the group's own,
and one with a task that was created with another flag. -/
def twoFunctionsHeap (γ : Type) : Heap Unit Nat γ :=
  let h := dispatchTaskCreate (freshHeap γ) 1 (fun _ n => 2 * n) () false
  let h := dispatchGroupCreate h 0 2 true
  let h := (dispatchGroupFunctionAdd h 0 0 (fun _ n => n + 1) ()).getD h
  (dispatchGroupTaskAdd h 0 1).getD h

/-- The group comes from the functions of the group API. -/
theorem twoFunctionsHeap_built (γ : Type) :
    Built (twoFunctionsHeap γ) [0, 1] [0] [1, 0] := by
  have hcreate := Built.taskCreate (t := 1) (fun _ n => 2 * n) () false
    (Built.nil (freshHeap γ)) (by decide)
  have hgroup := Built.groupCreate (g := 0) 2 true hcreate (by decide)
  have hfunction := Built.groupFunctionAdd (g := 0) (t := 0) (fun _ n => n + 1) () hgroup
    (by decide) (by decide) rfl
  exact Built.groupTaskAdd (g := 0) hfunction (by decide) (by decide) (by decide) rfl

/-- The group is added and waited for. -/
def groupCalls : List DispatchCall :=
  [.groupAdd 0, .groupWait 0]

theorem groupCalls_groups : ∀ g, .groupAdd g ∈ groupCalls → g ∈ [0] := by
  intro g hg
  simpa [groupCalls] using hg

/-- A client may add a waitable group with tasks and wait for it. -/
theorem groupCalls_disciplined {heap : Heap β υ γ}
    (hwaitable : (heap.group 0).waitable = true) (hne : (heap.group 0).tasks ≠ [])
    (hnodup : (heap.group 0).tasks.Nodup) :
    (Program.mk groupCalls heap).Disciplined := by
  have htask : ∀ w t : Nat, groupCalls[w]? ≠ some (.taskWait t) := by
    rintro (_ | _ | w) t hw <;> cases hw
  have hgroup : ∀ w g : Nat, groupCalls[w]? = some (.groupWait g) → w = 1 ∧ g = 0 := by
    rintro (_ | _ | w) g hw <;> cases hw
    exact ⟨rfl, rfl⟩
  constructor
  · simpa [groupCalls, DispatchCall.tasks] using hnodup
  · intro w t hw
    exact absurd hw (htask w t)
  · intro w g hw
    rcases hgroup w g hw with ⟨rfl, rfl⟩
    exact ⟨hwaitable, hne, 0, Nat.one_pos, rfl⟩
  · intro w w' t hw
    exact absurd hw (htask w t)
  · intro w w' g hw hw'
    exact (hgroup w g hw).1.trans (hgroup w' g hw').1.symm

theorem oneFunction_disciplined (γ : Type) :
    (Program.mk groupCalls (oneFunctionHeap γ)).Disciplined :=
  groupCalls_disciplined rfl (List.cons_ne_nil 0 []) (List.nodup_singleton 0)

theorem twoFunctions_disciplined (γ : Type) :
    (Program.mk groupCalls (twoFunctionsHeap γ)).Disciplined :=
  groupCalls_disciplined rfl (List.cons_ne_nil 0 [1])
    (show [0, 1].Nodup from List.nodup_cons.mpr ⟨by simp, List.nodup_singleton 1⟩)

end LibDispatch
