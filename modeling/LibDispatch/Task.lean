import Mathlib.Logic.Function.Basic
import Mathlib.Data.List.Nodup

/-!
# Tasks and groups

This module embeds {lit}`dispatch_task.c` and {lit}`dispatch_group.c`.  Tasks and groups are
objects named by numbers, which stand for their addresses.  The function of a task
is a transformer of a user state; a group is the list of the names that its slots
hold, so that {lit}`group->count` is the length of the list.

Main results:

- Theorem {lit}`Built.waitable_eq`: whatever sequence of calls built the groups and
  whatever flags the tasks were created with, a task is waitable exactly when its
  group is.
- Theorem {lit}`Built.nodup`: the tasks of a group are distinct.
-/

namespace LibDispatch

variable {β υ γ : Type}

/-! ## Objects -/

/-- {lit}`dispatch_task_t`, for arguments {lit}`β`, user states {lit}`υ` and private data
{lit}`γ`. -/
structure Task (β υ γ : Type) where
  function : β → υ → υ
  argument : β
  waitable : Bool
  privateData : Option γ

/-- {lit}`dispatch_task_init`. -/
def dispatchTaskInit (function : β → υ → υ) (argument : β) (waitable : Bool) :
    Task β υ γ where
  function := function
  argument := argument
  waitable := waitable
  privateData := none

/-- {lit}`dispatch_task_perform`. -/
def dispatchTaskPerform (task : Task β υ γ) (u : υ) : υ :=
  task.function task.argument u

/-- {lit}`dispatch_group_t`: {lit}`tasks` are the slots filled so far, oldest first. -/
structure Group where
  length : Nat
  waitable : Bool
  tasks : List Nat
deriving DecidableEq, Repr

/-- {lit}`group->count`. -/
def Group.count (group : Group) : Nat :=
  group.tasks.length

/-- The tasks and groups in memory. -/
structure Heap (β υ γ : Type) where
  task : Nat → Task β υ γ
  group : Nat → Group

/-! ## Functions -/

/-- {lit}`dispatch_task_create`, when the allocator returns {lit}`t`. -/
def dispatchTaskCreate (heap : Heap β υ γ) (t : Nat) (function : β → υ → υ) (argument : β)
    (waitable : Bool) : Heap β υ γ :=
  { heap with
    task := Function.update heap.task t (dispatchTaskInit function argument waitable) }

/-- {lit}`dispatch_group_create` with {lit}`dispatch_group_init`, when the allocator returns
{lit}`g`. -/
def dispatchGroupCreate (heap : Heap β υ γ) (g length : Nat) (waitable : Bool) :
    Heap β υ γ :=
  { heap with group := Function.update heap.group g ⟨length, waitable, []⟩ }

/-- {lit}`dispatch_group_task_add`; {lit}`none` when the assertion that the group has room
fails. -/
def dispatchGroupTaskAdd (heap : Heap β υ γ) (g t : Nat) : Option (Heap β υ γ) :=
  let group := heap.group g
  if group.count < group.length then
    some {
      task := Function.update heap.task t { heap.task t with waitable := group.waitable }
      group := Function.update heap.group g { group with tasks := group.tasks ++ [t] } }
  else none

/-- {lit}`dispatch_group_function_add`, when the allocator returns {lit}`t`. -/
def dispatchGroupFunctionAdd (heap : Heap β υ γ) (g t : Nat) (function : β → υ → υ)
    (argument : β) : Option (Heap β υ γ) :=
  dispatchGroupTaskAdd
    (dispatchTaskCreate heap t function argument (heap.group g).waitable) g t

/-- {lit}`dispatch_group_perform`. -/
def dispatchGroupPerform (heap : Heap β υ γ) (g : Nat) (u : υ) : υ :=
  (heap.group g).tasks.foldl (fun u t => dispatchTaskPerform (heap.task t) u) u

/-! ## Building groups -/

/-- {lit}`Built h ts gs as`: some sequence of creating and adding calls, each with a new
address, leads to the heap {lit}`h`; it created the tasks {lit}`ts` and the groups {lit}`gs`,
and added each task of {lit}`as` to one group. -/
inductive Built : Heap β υ γ → List Nat → List Nat → List Nat → Prop where
  | nil (h : Heap β υ γ) : Built h [] [] []
  | taskCreate {h : Heap β υ γ} {ts gs as : List Nat} {t : Nat} (function : β → υ → υ)
      (argument : β) (waitable : Bool) (hb : Built h ts gs as) (ht : t ∉ ts) :
      Built (dispatchTaskCreate h t function argument waitable) (t :: ts) gs as
  | groupCreate {h : Heap β υ γ} {ts gs as : List Nat} {g : Nat} (length : Nat)
      (waitable : Bool) (hb : Built h ts gs as) (hg : g ∉ gs) :
      Built (dispatchGroupCreate h g length waitable) ts (g :: gs) as
  | groupTaskAdd {h h' : Heap β υ γ} {ts gs as : List Nat} {g t : Nat}
      (hb : Built h ts gs as) (ht : t ∈ ts) (hg : g ∈ gs) (has : t ∉ as)
      (hadd : dispatchGroupTaskAdd h g t = some h') : Built h' ts gs (t :: as)
  | groupFunctionAdd {h h' : Heap β υ γ} {ts gs as : List Nat} {g t : Nat}
      (function : β → υ → υ) (argument : β) (hb : Built h ts gs as) (ht : t ∉ ts)
      (hg : g ∈ gs) (hadd : dispatchGroupFunctionAdd h g t function argument = some h') :
      Built h' (t :: ts) gs (t :: as)

theorem dispatchGroupTaskAdd_eq_some {h h' : Heap β υ γ} {g t : Nat}
    (hadd : dispatchGroupTaskAdd h g t = some h') :
    (h.group g).count < (h.group g).length ∧
      h'.task = Function.update h.task t
        { h.task t with waitable := (h.group g).waitable } ∧
      h'.group = Function.update h.group g
        { h.group g with tasks := (h.group g).tasks ++ [t] } := by
  simp only [dispatchGroupTaskAdd, Option.ite_none_right_eq_some, Option.some.injEq] at hadd
  rcases hadd with ⟨hlt, rfl⟩
  exact ⟨hlt, rfl, rfl⟩

namespace Built

variable {h h' : Heap β υ γ} {ts gs as : List Nat} {g t : Nat}

/-- What holds of a built group: its tasks were added, are distinct and fit, and
have the flag of the group. -/
structure Sound (h : Heap β υ γ) (as : List Nat) (g : Nat) : Prop where
  added : ∀ t ∈ (h.group g).tasks, t ∈ as
  nodup : (h.group g).tasks.Nodup
  count_le : (h.group g).count ≤ (h.group g).length
  waitable_eq : ∀ t ∈ (h.group g).tasks, (h.task t).waitable = (h.group g).waitable

/-- Only tasks that exist are added. -/
theorem added_subset (hb : Built h ts gs as) : as ⊆ ts := by
  induction hb with
  | nil => exact List.Subset.refl _
  | taskCreate _ _ _ _ _ ih => exact List.Subset.trans ih (List.subset_cons_self _ _)
  | groupCreate _ _ _ _ ih => exact ih
  | groupTaskAdd _ ht _ _ _ ih => exact List.cons_subset.mpr ⟨ht, ih⟩
  | groupFunctionAdd _ _ _ _ _ _ ih => exact List.cons_subset_cons _ ih

/-- Adding a task that no group has yet keeps the groups sound. -/
theorem Sound.add {g' : Nat} (hs : Sound h as g') (hadd : dispatchGroupTaskAdd h g t = some h')
    (ht : t ∉ as) : Sound h' (t :: as) g' := by
  rcases dispatchGroupTaskAdd_eq_some hadd with ⟨hlt, htask, hgroup⟩
  have hfresh : t ∉ (h.group g').tasks := fun hmem => ht (hs.added t hmem)
  by_cases hg : g' = g
  · subst hg
    have hnew : h'.group g' = { h.group g' with tasks := (h.group g').tasks ++ [t] } := by
      simp [hgroup]
    constructor
    · intro u hu
      simp only [hnew, List.mem_append, List.mem_singleton] at hu
      rcases hu with hu | rfl
      · exact List.mem_cons_of_mem _ (hs.added u hu)
      · exact List.mem_cons_self
    · rw [hnew]
      exact List.nodup_append.mpr ⟨hs.nodup, List.nodup_singleton t, by
        rintro u hu v hv rfl
        rw [List.mem_singleton] at hv
        exact hfresh (hv ▸ hu)⟩
    · rw [hnew]
      simp only [Group.count, List.length_append, List.length_singleton] at hlt ⊢
      omega
    · intro u hu
      simp only [hnew, List.mem_append, List.mem_singleton] at hu
      rw [hnew, htask]
      rcases hu with hu | rfl
      · have hut : u ≠ t := fun heq => hfresh (heq ▸ hu)
        simpa [hut] using hs.waitable_eq u hu
      · simp
  · have hold : h'.group g' = h.group g' := by simp [hgroup, hg]
    constructor
    · intro u hu
      rw [hold] at hu
      exact List.mem_cons_of_mem _ (hs.added u hu)
    · rw [hold]
      exact hs.nodup
    · rw [hold]
      exact hs.count_le
    · intro u hu
      rw [hold] at hu ⊢
      have hut : u ≠ t := fun heq => hfresh (heq ▸ hu)
      rw [htask, Function.update_of_ne hut]
      exact hs.waitable_eq u hu

/-- Creating a task keeps the groups sound. -/
theorem Sound.create (hs : Sound h as g) (ht : t ∉ as) (function : β → υ → υ) (argument : β)
    (waitable : Bool) : Sound (dispatchTaskCreate h t function argument waitable) as g where
  added := hs.added
  nodup := hs.nodup
  count_le := hs.count_le
  waitable_eq := by
    intro u hu
    have hut : u ≠ t := fun heq => ht (heq ▸ hs.added u hu)
    change (Function.update h.task t _ u).waitable = _
    rw [Function.update_of_ne hut]
    exact hs.waitable_eq u hu

/-- Every built group is sound. -/
theorem sound (hb : Built h ts gs as) (hg : g ∈ gs) : Sound h as g := by
  induction hb with
  | nil => cases hg
  | taskCreate function argument waitable hb ht ih =>
      exact (ih hg).create (fun has => ht (hb.added_subset has)) function argument waitable
  | @groupCreate h ts gs as g' length waitable hb hg' ih =>
      by_cases heq : g = g'
      · subst heq
        constructor <;> simp [dispatchGroupCreate, Group.count]
      · have hold : (dispatchGroupCreate h g' length waitable).group g = h.group g := by
          simp [dispatchGroupCreate, heq]
        have hs := ih (by simpa [heq] using hg)
        constructor
        · rw [hold]
          exact hs.added
        · rw [hold]
          exact hs.nodup
        · rw [hold]
          exact hs.count_le
        · rw [hold]
          exact hs.waitable_eq
  | groupTaskAdd hb ht _ has hadd ih => exact (ih hg).add hadd has
  | groupFunctionAdd function argument hb ht _ hadd ih =>
      have hfresh := fun has => ht (hb.added_subset has)
      exact ((ih hg).create hfresh _ _ _).add hadd hfresh

/-- A task is waitable exactly when its group is. -/
theorem waitable_eq (hb : Built h ts gs as) (hg : g ∈ gs) (ht : t ∈ (h.group g).tasks) :
    (h.task t).waitable = (h.group g).waitable :=
  (hb.sound hg).waitable_eq t ht

/-- The tasks of a group are distinct. -/
theorem nodup (hb : Built h ts gs as) (hg : g ∈ gs) : (h.group g).tasks.Nodup :=
  (hb.sound hg).nodup

/-- The tasks created are distinct. -/
theorem tasks_nodup (hb : Built h ts gs as) : ts.Nodup := by
  induction hb with
  | nil => exact List.nodup_nil
  | taskCreate _ _ _ _ ht ih => exact List.nodup_cons.mpr ⟨ht, ih⟩
  | groupCreate _ _ _ _ ih => exact ih
  | groupTaskAdd _ _ _ _ _ ih => exact ih
  | groupFunctionAdd _ _ _ ht _ _ ih => exact List.nodup_cons.mpr ⟨ht, ih⟩

/-- The groups created are distinct. -/
theorem groups_nodup (hb : Built h ts gs as) : gs.Nodup := by
  induction hb with
  | nil => exact List.nodup_nil
  | taskCreate _ _ _ _ _ ih => exact ih
  | groupCreate _ _ _ hg ih => exact List.nodup_cons.mpr ⟨hg, ih⟩
  | groupTaskAdd _ _ _ _ _ ih => exact ih
  | groupFunctionAdd _ _ _ _ _ _ ih => exact ih

end Built

/-! ## Calls on a dispatch queue -/

/-- A call that a client makes on the dispatch queue. -/
inductive DispatchCall where
  | taskAdd (task : Nat)
  | groupAdd (group : Nat)
  | taskWait (task : Nat)
  | groupWait (group : Nat)
  | wait
  | delete
deriving DecidableEq, Repr

/-- The tasks that a call submits. -/
def DispatchCall.tasks (heap : Heap β υ γ) : DispatchCall → List Nat
  | .taskAdd t => [t]
  | .groupAdd g => (heap.group g).tasks
  | _ => []

end LibDispatch
