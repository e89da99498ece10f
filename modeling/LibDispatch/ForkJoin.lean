import LibDispatch.Backends

/-!
# Fork and join

The client that the examples have in common: a loop adds a function to a waitable group once for
each argument, the group is added to a dispatch queue and waited for, and the queue is deleted.

Main results:

- Theorem {lit}`addFunctions_isSome_iff`: the loop meets the assertions of the group API exactly
  when the group was created with enough room.
- Theorem {lit}`fork_join`: after the wait the function was called once with each argument, in
  order if one worker takes the tasks.
-/

namespace LibDispatch

variable {β υ γ : Type}

/-! ## A group filled by a loop -/

/-- The loop that calls {lit}`dispatch_group_function_add` with the same function for each of
{lit}`n` arguments, when the allocator returns {lit}`i` in the {lit}`i`-th round. -/
def addFunctions (heap : Heap β υ γ) (g : Nat) (function : β → υ → υ) (args : Nat → β) :
    Nat → Option (Heap β υ γ)
  | 0 => some heap
  | n + 1 => (addFunctions heap g function args n).bind fun heap =>
      dispatchGroupFunctionAdd heap g n function (args n)

/-- The group {lit}`g` holds the first {lit}`n` tasks, each with its own argument. -/
structure Filled (heap : Heap β υ γ) (g length : Nat) (waitable : Bool) (function : β → υ → υ)
    (args : Nat → β) (n : Nat) : Prop where
  group : heap.group g = ⟨length, waitable, List.range n⟩
  task : ∀ i < n, heap.task i = dispatchTaskInit function (args i) waitable
  built : Built heap (List.range n).reverse [g] (List.range n).reverse

section Filled

variable {heap heap' : Heap β υ γ} {g length n : Nat} {waitable : Bool} {function : β → υ → υ}
  {args : Nat → β}

/-- The group is empty when it was created. -/
theorem filled_zero (heap : Heap β υ γ) (g length : Nat) (waitable : Bool)
    (function : β → υ → υ) (args : Nat → β) :
    Filled (dispatchGroupCreate heap g length waitable) g length waitable function args 0 where
  group := Function.update_self g _ heap.group
  task i hi := absurd hi (Nat.not_lt_zero i)
  built := (Built.nil heap).groupCreate length waitable (List.not_mem_nil)

/-- A round of the loop adds a task while the group has room. -/
theorem Filled.next (h : Filled heap g length waitable function args n) (hlt : n < length) :
    ∃ heap', dispatchGroupFunctionAdd heap g n function (args n) = some heap' ∧
      Filled heap' g length waitable function args (n + 1) := by
  have hcount : (heap.group g).count = n := by rw [h.group, Group.count, List.length_range]
  have hroom : (heap.group g).count < (heap.group g).length := by
    rw [hcount, h.group]
    exact hlt
  have hadd : dispatchGroupFunctionAdd heap g n function (args n) = some _ := if_pos hroom
  refine ⟨_, hadd, ?_, fun i hi => ?_, ?_⟩
  · change Function.update heap.group g
      { heap.group g with tasks := (heap.group g).tasks ++ [n] } g = _
    rw [Function.update_self, h.group, List.range_succ]
  · change Function.update (Function.update heap.task n _) n _ i = _
    by_cases hin : i = n
    · subst hin
      simp [h.group, dispatchTaskCreate, dispatchTaskInit]
    · rw [Function.update_of_ne hin, Function.update_of_ne hin]
      exact h.task i (by omega)
  · have hfresh : n ∉ (List.range n).reverse := by simp
    rw [List.range_succ, List.reverse_append, List.reverse_singleton]
    exact h.built.groupFunctionAdd function (args n) hfresh (List.mem_singleton_self g) hadd

/-- The loop fills the group as long as it has room. -/
theorem addFunctions_filled (h : Filled heap g length waitable function args 0) (hn : n ≤ length) :
    ∃ heap', addFunctions heap g function args n = some heap' ∧
      Filled heap' g length waitable function args n := by
  induction n with
  | zero => exact ⟨heap, rfl, h⟩
  | succ n ih =>
      rcases ih (Nat.le_of_succ_le hn) with ⟨heap', hadd, hfilled⟩
      rcases hfilled.next hn with ⟨heap'', hnext, hfilled'⟩
      refine ⟨heap'', ?_, hfilled'⟩
      rw [addFunctions, hadd, Option.bind_some, hnext]

/-- The loop meets the assertion of {lit}`dispatch_group_task_add` in every round exactly when
the group was created with enough room. -/
theorem addFunctions_isSome_iff (h : Filled heap g length waitable function args 0) :
    (addFunctions heap g function args n).isSome = true ↔ n ≤ length := by
  constructor
  · intro hsome
    by_contra hlt
    -- the round after the group was filled fails
    have hfail : addFunctions heap g function args (length + 1) = none := by
      rcases addFunctions_filled h (Nat.le_refl length) with ⟨heap', hadd, hfilled⟩
      rw [addFunctions, hadd, Option.bind_some]
      refine if_neg ?_
      change ¬ (heap'.group g).count < (heap'.group g).length
      rw [hfilled.group, Group.count, List.length_range]
      exact Nat.lt_irrefl length
    have hrest : ∀ k, addFunctions heap g function args (length + 1 + k) = none := by
      intro k
      induction k with
      | zero => exact hfail
      | succ k ih => rw [← Nat.add_assoc, addFunctions, ih, Option.bind_none]
    obtain ⟨k, rfl⟩ : ∃ k, n = length + 1 + k := Nat.exists_eq_add_of_le (Nat.lt_of_not_le hlt)
    rw [hrest k] at hsome
    cases hsome
  · intro hn
    rcases addFunctions_filled h hn with ⟨heap', hadd, -⟩
    rw [hadd]
    rfl

end Filled

/-! ## The client -/

/-- The group is added and waited for, and the queue is deleted. -/
def forkJoinCalls : List DispatchCall :=
  groupCalls ++ [.delete]

section ForkJoin

variable {heap : Heap β υ Unit} {length n : Nat} {function : β → υ → υ} {args : Nat → β}

/-- The client follows the rules if the loop has run at least once. -/
theorem Filled.disciplined (h : Filled heap 0 length true function args n) (hn : 0 < n) :
    (Program.mk forkJoinCalls heap).Disciplined := by
  have hcalls : (Program.mk groupCalls heap).Disciplined := by
    refine groupCalls_disciplined ?_ ?_ ?_
    · rw [h.group]
    · rw [h.group]
      exact List.ne_nil_of_length_pos (by rwa [List.length_range])
    · rw [h.group]
      exact List.nodup_range
  exact hcalls.thenDelete

/-- It has waited for the group when it is about to delete the queue. -/
theorem forkJoinCalls_joined : (Program.mk forkJoinCalls heap).Joined 2 := by
  rintro (_ | _ | jp) hlt call hcall hne
  · exact ⟨1, Nat.one_lt_two, _, Or.inr ⟨0, rfl, rfl, rfl⟩⟩
  · cases hcall
    exact absurd rfl hne
  · omega

theorem Filled.flagsAgree (h : Filled heap 0 length true function args n) :
    (Program.mk forkJoinCalls heap).FlagsAgree := by
  refine Program.flagsAgree_of_built h.built fun g hg => ?_
  refine groupCalls_groups g ((List.mem_append.mp hg).resolve_right ?_)
  simp

/-- What the client has submitted then. -/
theorem Filled.submitted (h : Filled heap 0 length true function args n) :
    (Program.mk forkJoinCalls heap).submitted 2 = List.range n := by
  change (heap.group 0).tasks ++ [] = List.range n
  rw [List.append_nil, h.group]

/-- The meaning of the client is the loop that calls the function itself. -/
theorem Filled.sequential (h : Filled heap 0 length true function args n) (u : υ) :
    (Program.mk forkJoinCalls heap).sequential 2 u =
      (List.range n).foldl (fun u i => function (args i) u) u := by
  rw [Program.sequential_eq, h.submitted]
  refine List.foldl_ext _ _ u fun u i hi => ?_
  change dispatchTaskPerform (heap.task i) u = _
  rw [h.task i (List.mem_range.mp hi)]
  rfl

theorem Filled.commuting (h : Filled heap 0 length true function args n)
    (hcomm : ∀ i < n, ∀ j < n, ∀ u,
      function (args j) (function (args i) u) = function (args i) (function (args j) u)) :
    (Program.mk forkJoinCalls heap).Commuting 2 := by
  intro i hi j hj u
  rw [h.submitted, List.mem_range] at hi hj
  change dispatchTaskPerform (heap.task j) (dispatchTaskPerform (heap.task i) u) =
    dispatchTaskPerform (heap.task i) (dispatchTaskPerform (heap.task j) u)
  rw [h.task i hi, h.task j hj]
  exact hcomm i hi j hj u

/-- After the wait, whatever the backend and the schedule, the calls of the function have had the
effect of the loop that makes them itself, if one worker takes the tasks or if they commute. -/
theorem fork_join (h : Filled heap 0 length true function args n) (hn : 0 < n) {u x : υ}
    {b : Backend} {inOrder : Prop} (hran : Ran ⟨forkJoinCalls, heap⟩ u 2 b inOrder x)
    (horder : inOrder ∨ ∀ i < n, ∀ j < n, ∀ u,
      function (args j) (function (args i) u) = function (args i) (function (args j) u)) :
    x = (List.range n).foldl (fun u i => function (args i) u) u := by
  have hcompleted := hran.completed (h.disciplined hn) h.flagsAgree forkJoinCalls_joined
  rw [← h.sequential]
  rcases horder with horder | hcomm
  · exact hcompleted.eq_sequential.1 horder
  · exact hcompleted.eq_sequential.2 (h.commuting hcomm)

end ForkJoin

end LibDispatch
