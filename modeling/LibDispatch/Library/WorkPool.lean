import LibDispatch.Library.Tally
import LibDispatch.Library.Transition
import Mathlib.Data.List.Perm.Basic

/-!
# Pools of workers over a queue

A work pool is what a system of worker threads is for: tasks are submitted to a list of
bounded or unbounded length, a worker without a task takes the one at its front, and
finishing it applies its effect to a user state.  When the steps of a worker are is left
open, so that many implementations refine one pool.

Main results:

- Theorem {lit}`workPool_history`: tasks are taken in the order in which they were
  submitted, each as often as it was submitted, and the user state is the effect of those
  finished, in the order in which they finished.
- Theorem {lit}`Pool.Idle.user_eq_of_one_worker`: one worker has the effect of the tasks in
  the order in which they were submitted.
- Theorem {lit}`Pool.Idle.user_eq_of_commute`: between two moments when nothing is queued or
  running, the user state changes by the effect of what was submitted in between, in any
  order if the effects commute.
-/

universe u v w x y z

/-- A queue of tasks, the task that each worker has taken and not finished, and the user
state. -/
structure Pool (ι : Type u) (α : Type v) (υ : Type w) where
  queue : List α
  running : ι → Option α
  user : υ

/-- The moves of a pool, each of which is observed. -/
inductive PoolMove (ι : Type u) (α : Type v) where
  | submit (t : α)
  | take (i : ι) (t : α)
  | finish (i : ι) (t : α)
deriving DecidableEq, Repr

variable {ι : Type u} {α : Type v} {υ : Type w}

/-- Every move is observed. -/
def PoolMove.events (_ : Pool ι α υ) (a : PoolMove ι α) : List (PoolMove ι α) :=
  [a]

/-! ## Histories -/

/-- The tasks submitted in a history. -/
def submittedTasks (tr : List (PoolMove ι α)) : List α :=
  tr.filterMap fun | .submit t => some t | _ => none

/-- The tasks taken in a history. -/
def takenTasks (tr : List (PoolMove ι α)) : List α :=
  tr.filterMap fun | .take _ t => some t | _ => none

/-- The tasks finished in a history. -/
def finishedTasks (tr : List (PoolMove ι α)) : List α :=
  tr.filterMap fun | .finish _ t => some t | _ => none

@[simp]
theorem submittedTasks_append (tr tr' : List (PoolMove ι α)) :
    submittedTasks (tr ++ tr') = submittedTasks tr ++ submittedTasks tr' :=
  List.filterMap_append

@[simp]
theorem takenTasks_append (tr tr' : List (PoolMove ι α)) :
    takenTasks (tr ++ tr') = takenTasks tr ++ takenTasks tr' :=
  List.filterMap_append

@[simp]
theorem finishedTasks_append (tr tr' : List (PoolMove ι α)) :
    finishedTasks (tr ++ tr') = finishedTasks tr ++ finishedTasks tr' :=
  List.filterMap_append

@[simp]
theorem submittedTasks_submit (t : α) : submittedTasks [(.submit t : PoolMove ι α)] = [t] :=
  rfl

@[simp]
theorem submittedTasks_take (i : ι) (t : α) : submittedTasks [(.take i t : PoolMove ι α)] = [] :=
  rfl

@[simp]
theorem submittedTasks_finish (i : ι) (t : α) :
    submittedTasks [(.finish i t : PoolMove ι α)] = [] :=
  rfl

@[simp]
theorem takenTasks_submit (t : α) : takenTasks [(.submit t : PoolMove ι α)] = [] :=
  rfl

@[simp]
theorem takenTasks_take (i : ι) (t : α) : takenTasks [(.take i t : PoolMove ι α)] = [t] :=
  rfl

@[simp]
theorem takenTasks_finish (i : ι) (t : α) : takenTasks [(.finish i t : PoolMove ι α)] = [] :=
  rfl

@[simp]
theorem finishedTasks_submit (t : α) : finishedTasks [(.submit t : PoolMove ι α)] = [] :=
  rfl

@[simp]
theorem finishedTasks_take (i : ι) (t : α) : finishedTasks [(.take i t : PoolMove ι α)] = [] :=
  rfl

@[simp]
theorem finishedTasks_finish (i : ι) (t : α) : finishedTasks [(.finish i t : PoolMove ι α)] = [t] :=
  rfl

/-- Whether a worker runs a task. -/
def runs [DecidableEq α] (t : α) (r : Option α) : Nat :=
  if r = some t then 1 else 0

/-! ## The pool -/

variable [DecidableEq ι] [DecidableEq α]

/-- A pool whose queue holds at most {lit}`capacity` tasks, if there is a bound. -/
def workPool (perform : α → υ → υ) (capacity : Option Nat) (user : υ) :
    System (Pool ι α υ) (PoolMove ι α) where
  init := ⟨[], fun _ => none, user⟩
  step p
    | .submit t =>
        if capacity.all (p.queue.length < ·) = true then some { p with queue := p.queue ++ [t] }
        else none
    | .take i t =>
        if p.queue.head? = some t ∧ p.running i = none then
          some { p with
            queue := p.queue.tail
            running := Function.update p.running i (some t) }
        else none
    | .finish i t =>
        if p.running i = some t then
          some { p with
            running := Function.update p.running i none
            user := perform t p.user }
        else none

/-- Nothing is queued or running. -/
structure Pool.Idle (p : Pool ι α υ) : Prop where
  queue : p.queue = []
  running : ∀ i, p.running i = none

section History

variable {perform : α → υ → υ} {capacity : Option Nat} {user : υ} {p p' : Pool ι α υ}
  {tr : List (PoolMove ι α)} {a : PoolMove ι α}

/-- What a move does. -/
theorem workPool_step_cases (h : (workPool perform capacity user).step p a = some p') :
    (∃ t, a = .submit t ∧ (∀ n ∈ capacity, p.queue.length < n) ∧
      p' = { p with queue := p.queue ++ [t] }) ∨
    (∃ i t rest, a = .take i t ∧ p.queue = t :: rest ∧ p.running i = none ∧
      p' = { p with queue := rest, running := Function.update p.running i (some t) }) ∨
    (∃ i t, a = .finish i t ∧ p.running i = some t ∧
      p' = { p with running := Function.update p.running i none, user := perform t p.user }) := by
  cases a with
  | submit t =>
      rcases Option.ite_none_right_eq_some.mp h with ⟨hroom, h⟩
      refine Or.inl ⟨t, rfl, fun n hn => ?_, (Option.some.inj h).symm⟩
      rw [Option.mem_def.mp hn] at hroom
      exact of_decide_eq_true hroom
  | take i t =>
      rcases Option.ite_none_right_eq_some.mp h with ⟨⟨hhead, hfree⟩, h⟩
      rcases List.head?_eq_some_iff.mp hhead with ⟨rest, hqueue⟩
      refine Or.inr (Or.inl ⟨i, t, rest, rfl, hqueue, hfree, ?_⟩)
      rw [← Option.some.inj h, hqueue]
      rfl
  | finish i t =>
      rcases Option.ite_none_right_eq_some.mp h with ⟨hrun, h⟩
      exact Or.inr (Or.inr ⟨i, t, rfl, hrun, (Option.some.inj h).symm⟩)

/-- The tasks submitted are those taken, in the same order, followed by those queued; the
user state is the effect of the tasks finished; and the bound is respected. -/
theorem workPool_history (h : (workPool perform capacity user).Traced PoolMove.events p tr) :
    submittedTasks tr = takenTasks tr ++ p.queue ∧
      p.user = (finishedTasks tr).foldl (fun u t => perform t u) user ∧
      ∀ n ∈ capacity, p.queue.length ≤ n := by
  refine h.invariant (P := fun p tr => submittedTasks tr = takenTasks tr ++ p.queue ∧
    p.user = (finishedTasks tr).foldl (fun u t => perform t u) user ∧
    ∀ n ∈ capacity, p.queue.length ≤ n) ⟨rfl, rfl, fun n _ => Nat.zero_le n⟩ ?_
  rintro p a p' tr - ⟨hqueue, huser, hlen⟩ hstep
  rcases workPool_step_cases hstep with
    ⟨t, rfl, hroom, rfl⟩ | ⟨i, t, rest, rfl, hp, -, rfl⟩ | ⟨i, t, rfl, -, rfl⟩
  · refine ⟨by simp [PoolMove.events, hqueue], by simpa [PoolMove.events] using huser,
      fun n hn => ?_⟩
    have hlt := hroom n hn
    simp only [List.length_append, List.length_singleton]
    omega
  · rw [hp] at hqueue hlen
    exact ⟨by simpa [PoolMove.events] using hqueue, by simpa [PoolMove.events] using huser,
      fun n hn => Nat.le_of_succ_le (hlen n hn)⟩
  · exact ⟨by simpa [PoolMove.events] using hqueue,
      by simp [PoolMove.events, List.foldl_append, huser], hlen⟩

/-- Each task was taken as often as it was finished or is running. -/
theorem workPool_count [Fintype ι]
    (h : (workPool perform capacity user).Traced PoolMove.events p tr) (t : α) :
    (takenTasks tr).count t = (finishedTasks tr).count t + tally (runs t) p.running := by
  refine h.invariant (P := fun p tr =>
    (takenTasks tr).count t = (finishedTasks tr).count t + tally (runs t) p.running) ?_ ?_
  · have hzero : tally (runs t) (fun _ : ι => (none : Option α)) = 0 := by
      rw [tally_eq_zero_iff]
      intro i
      rfl
    change 0 = 0 + tally (runs t) (fun _ : ι => (none : Option α))
    rw [hzero]
  rintro p a p' tr - hcount hstep
  rcases workPool_step_cases hstep with
    ⟨t', rfl, -, rfl⟩ | ⟨i, t', rest, rfl, -, hfree, rfl⟩ | ⟨i, t', rfl, hrun, rfl⟩
  · simpa [PoolMove.events] using hcount
  · have htally := tally_update (runs t) p.running i (some t')
    simp only [runs, hfree, Option.some.injEq, reduceCtorEq, if_false] at htally
    simp only [PoolMove.events, takenTasks_append, finishedTasks_append, takenTasks_take,
      finishedTasks_take, List.count_append, List.count_singleton, beq_iff_eq, List.count_nil]
    omega
  · have htally := tally_update (runs t) p.running i none
    simp only [runs, hrun, Option.some.injEq, reduceCtorEq, if_false] at htally
    simp only [PoolMove.events, takenTasks_append, finishedTasks_append, takenTasks_finish,
      finishedTasks_finish, List.count_append, List.count_singleton, beq_iff_eq, List.count_nil]
    omega

/-- One worker finishes the tasks in the order in which it takes them. -/
theorem workPool_one_worker [Subsingleton ι] (i : ι)
    (h : (workPool perform capacity user).Traced PoolMove.events p tr) :
    takenTasks tr = finishedTasks tr ++ (p.running i).toList := by
  refine h.invariant (P := fun p tr =>
    takenTasks tr = finishedTasks tr ++ (p.running i).toList) rfl ?_
  rintro p a p' tr - htaken hstep
  rcases workPool_step_cases hstep with
    ⟨t, rfl, -, rfl⟩ | ⟨j, t, rest, rfl, -, hfree, rfl⟩ | ⟨j, t, rfl, hrun, rfl⟩
  · simpa [PoolMove.events] using htaken
  · rw [Subsingleton.elim j i] at hfree ⊢
    rw [hfree] at htaken
    simpa [PoolMove.events] using htaken
  · rw [Subsingleton.elim j i] at hrun ⊢
    rw [hrun] at htaken
    simpa [PoolMove.events] using htaken

/-! ## Idle pools -/

/-- When nothing is queued or running, the tasks finished are those submitted. -/
theorem Pool.Idle.finished_perm [Fintype ι] (hidle : p.Idle)
    (h : (workPool perform capacity user).Traced PoolMove.events p tr) :
    (finishedTasks tr).Perm (submittedTasks tr) := by
  rw [List.perm_iff_count]
  intro t
  have hzero : tally (runs t) p.running = 0 := by
    rw [tally_eq_zero_iff]
    intro i
    simp [runs, hidle.running i]
  have hcount := workPool_count h t
  rw [(workPool_history h).1, hidle.queue, List.append_nil]
  omega

/-- One worker finishes the tasks in the order in which they were submitted. -/
theorem Pool.Idle.finished_eq_of_one_worker [Subsingleton ι] (i : ι) (hidle : p.Idle)
    (h : (workPool perform capacity user).Traced PoolMove.events p tr) :
    finishedTasks tr = submittedTasks tr := by
  have htaken := workPool_one_worker i h
  rw [hidle.running i, Option.toList_none, List.append_nil] at htaken
  rw [(workPool_history h).1, hidle.queue, List.append_nil, htaken]

/-- When every task submitted is finished, and none was submitted twice, nothing is queued or
running. -/
theorem Pool.idle_of_finished [Fintype ι]
    (h : (workPool perform capacity user).Traced PoolMove.events p tr)
    (hnodup : (submittedTasks tr).Nodup)
    (hall : ∀ t ∈ submittedTasks tr, t ∈ finishedTasks tr) : p.Idle := by
  have hnone : ∀ t, p.queue.count t + tally (runs t) p.running = 0 := by
    intro t
    have hcount := workPool_count h t
    have hqueue := congrArg (List.count t) (workPool_history h).1
    have hle := List.nodup_iff_count_le_one.mp hnodup t
    rw [List.count_append] at hqueue
    by_cases ht : t ∈ submittedTasks tr
    · have hpos := List.count_pos_iff.mpr (hall t ht)
      omega
    · rw [List.count_eq_zero.mpr ht] at hqueue
      omega
  constructor
  · refine List.eq_nil_iff_forall_not_mem.mpr fun t ht => ?_
    have hpos := List.count_pos_iff.mpr ht
    have hzero := hnone t
    omega
  · intro i
    cases hrunning : p.running i with
    | none => rfl
    | some t =>
        have hle := le_tally (runs t) p.running i
        have hzero := hnone t
        rw [runs, if_pos hrunning] at hle
        omega

/-! ## From one idle moment to the next -/

/-- Between two idle moments of a run the tasks submitted finish, and no others. -/
theorem Pool.Idle.finished_between [Fintype ι] {tr' : List (PoolMove ι α)} {ts fs : List α}
    (hidle : p.Idle) (hidle' : p'.Idle)
    (h : (workPool perform capacity user).Traced PoolMove.events p tr)
    (h' : (workPool perform capacity user).Traced PoolMove.events p' tr')
    (hsubmitted : submittedTasks tr' = submittedTasks tr ++ ts)
    (hfinished : finishedTasks tr' = finishedTasks tr ++ fs) : fs.Perm ts := by
  have hperm := (hidle'.finished_perm h').trans (List.Perm.of_eq hsubmitted)
  rw [hfinished] at hperm
  have hbefore := (hidle.finished_perm h).symm.append_right ts
  exact (List.perm_append_left_iff _).mp (hperm.trans hbefore)

/-- The user state changes by the effect of the tasks that finish. -/
theorem workPool_user_append {tr' : List (PoolMove ι α)} {fs : List α}
    (h : (workPool perform capacity user).Traced PoolMove.events p tr)
    (h' : (workPool perform capacity user).Traced PoolMove.events p' tr')
    (hfinished : finishedTasks tr' = finishedTasks tr ++ fs) :
    p'.user = fs.foldl (fun u t => perform t u) p.user := by
  rw [(workPool_history h').2.1, hfinished, List.foldl_append, ← (workPool_history h).2.1]

/-- Between two idle moments the order does not matter if the effects of the tasks submitted in
between commute. -/
theorem Pool.Idle.user_eq_of_commute [Fintype ι] {tr' : List (PoolMove ι α)} {ts fs : List α}
    (hidle : p.Idle) (hidle' : p'.Idle)
    (h : (workPool perform capacity user).Traced PoolMove.events p tr)
    (h' : (workPool perform capacity user).Traced PoolMove.events p' tr')
    (hsubmitted : submittedTasks tr' = submittedTasks tr ++ ts)
    (hfinished : finishedTasks tr' = finishedTasks tr ++ fs)
    (hcomm : ∀ t ∈ ts, ∀ t' ∈ ts, ∀ u,
      perform t' (perform t u) = perform t (perform t' u)) :
    p'.user = ts.foldl (fun u t => perform t u) p.user := by
  have hperm := hidle.finished_between hidle' h h' hsubmitted hfinished
  rw [workPool_user_append h h' hfinished]
  refine hperm.foldl_eq' (fun t ht t' ht' u => ?_) p.user
  exact hcomm t (hperm.subset ht) t' (hperm.subset ht') u

/-- Between two idle moments one worker has the effect of the tasks submitted in between, in
that order. -/
theorem Pool.Idle.user_eq_of_one_worker [Subsingleton ι] (i : ι)
    {tr' : List (PoolMove ι α)} {ts fs : List α} (hidle : p.Idle) (hidle' : p'.Idle)
    (h : (workPool perform capacity user).Traced PoolMove.events p tr)
    (h' : (workPool perform capacity user).Traced PoolMove.events p' tr')
    (hsubmitted : submittedTasks tr' = submittedTasks tr ++ ts)
    (hfinished : finishedTasks tr' = finishedTasks tr ++ fs) :
    p'.user = ts.foldl (fun u t => perform t u) p.user := by
  have hfs : fs = ts := by
    have heq := hidle'.finished_eq_of_one_worker i h'
    rw [hsubmitted, hfinished, hidle.finished_eq_of_one_worker i h] at heq
    exact List.append_cancel_left heq
  rw [workPool_user_append h h' hfinished, hfs]

/-- From one moment at which everything submitted is finished to another, the user state
changes by the effect of the tasks submitted in between: if there is one worker, and also if
their effects commute. -/
theorem workPool_between [Fintype ι] {tr' : List (PoolMove ι α)} {ts : List α}
    (h : (workPool perform capacity user).Traced PoolMove.events p tr)
    (h' : (workPool perform capacity user).Traced PoolMove.events p' tr')
    (hnodup : (submittedTasks tr').Nodup)
    (hall : ∀ t ∈ submittedTasks tr, t ∈ finishedTasks tr)
    (hall' : ∀ t ∈ submittedTasks tr', t ∈ finishedTasks tr')
    (hsubmitted : submittedTasks tr' = submittedTasks tr ++ ts)
    (hpre : finishedTasks tr <+: finishedTasks tr') :
    (Nonempty ι → Subsingleton ι → p'.user = ts.foldl (fun u t => perform t u) p.user) ∧
    ((∀ t ∈ ts, ∀ t' ∈ ts, ∀ u, perform t' (perform t u) = perform t (perform t' u)) →
      p'.user = ts.foldl (fun u t => perform t u) p.user) := by
  have hidle : p.Idle := Pool.idle_of_finished h
    (hnodup.sublist (hsubmitted ▸ List.sublist_append_left _ _)) hall
  have hidle' : p'.Idle := Pool.idle_of_finished h' hnodup hall'
  rcases hpre with ⟨fs, hfs⟩
  constructor
  · rintro ⟨i⟩ _
    exact hidle.user_eq_of_one_worker i hidle' h h' hsubmitted hfs.symm
  · intro hcomm
    exact hidle.user_eq_of_commute hidle' h h' hsubmitted hfs.symm hcomm

end History
