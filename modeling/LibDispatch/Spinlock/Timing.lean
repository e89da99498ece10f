import LibDispatch.Spinlock.Exclusion

/-!
# How fast the rivals may be, and who gets the lock

The bound of the exclusion proof is exact: with one instruction more between the load and
the store of a core, two cores get the lock.  A schedule meets the bound when no core
issues more than half as many instructions between two instructions of another, so that
one {lit}`nop` is enough for cores that take turns, and the seven {lit}`nop`s allow a core
of high priority four instructions for one of the others.

Getting the lock does not depend on the timing.  From every reachable state there is a core
that gets the lock by its own next instructions.

Main results:

- Theorem {lit}`exclusive_iff_bound_le`: mutual exclusion holds exactly up to the bound.
- Theorem {lit}`exclusive_of_paced`: mutual exclusion for schedules of bounded pace.
- Theorem {lit}`some_core_gets_lock`: no schedule loses the lock.
-/

namespace LibDispatch
namespace Spinlock

variable {n delay bound : Nat}

/-! ## A core that nobody interrupts -/

/-- A number of instructions of one core. -/
def executes (delay : Nat) (f : LockFunction) (id : Nat) : Nat → Pc → Nat → Option (Pc × Nat)
  | 0, pc, word => some (pc, word)
  | k + 1, pc, word =>
      (execute delay f id word pc).bind fun next => executes delay f id k next.1 next.2

/-- The instructions {lit}`nop`, in a row. -/
theorem executes_nop (f : LockFunction) (id r11 w : Nat) {j k : Nat} (h : j + k ≤ delay) :
    executes delay f id k (.nop r11 j) w = some (.nop r11 (j + k), w) := by
  induction k generalizing j with
  | zero => rfl
  | succ k ih =>
      have hj : j < delay := by omega
      have hrest := ih (j := j + 1) (by omega)
      simp only [executes, execute, hj, if_true, Option.bind_some, hrest]
      rw [show j + 1 + k = j + (k + 1) by omega]

/-- One run of instructions after the other. -/
theorem executes_add (f : LockFunction) (id j k : Nat) (pc : Pc) (w : Nat) :
    executes delay f id (j + k) pc w =
      (executes delay f id j pc w).bind fun next => executes delay f id k next.1 next.2 := by
  induction j generalizing pc w with
  | zero => simp [executes]
  | succ j ih =>
      rw [Nat.succ_add, executes, executes, Option.bind_assoc]
      exact congrArg _ (funext fun next => ih next.1 next.2)

/-! ## Two cores that race for the lock -/

/-- What a race of two cores in {lit}`spinlock_acquire` depends on. -/
structure Duel (s : State n) (a b : Fin n) (pa pb : Pc) (w lagA lagB : Nat) : Prop where
  first : s.core a = ⟨.acquire, pa⟩
  second : s.core b = ⟨.acquire, pb⟩
  word : s.word = w
  firstLag : s.lag a b = lagA
  secondLag : s.lag b a = lagB
  others : ∀ c, c ≠ a → c ≠ b → (s.core c).pc.inWindow = false

section Duel

variable {s : State n} {a b : Fin n} {pa pb pa' : Pc} {w w' lagA lagB : Nat}

theorem Duel.swap (h : Duel s a b pa pb w lagA lagB) : Duel s b a pb pa w lagB lagA :=
  ⟨h.second, h.first, h.word, h.secondLag, h.firstLag, fun c hb ha => h.others c ha hb⟩

/-- The first core goes on. -/
theorem Duel.moved (h : Duel s a b pa pb w lagA lagB) (hab : a ≠ b) (pa' : Pc) (w' : Nat) :
    Duel (s.moved a ⟨.acquire, pa'⟩ w') a b pa' pb w'
      (pa'.count lagA) (lagB + 1) where
  first := State.moved_core_self s a ⟨.acquire, pa'⟩ w'
  second := (State.moved_core_of_ne s a ⟨.acquire, pa'⟩ w' hab.symm).trans h.second
  word := rfl
  firstLag := by rw [State.moved_lag_self, h.firstLag]
  secondLag := by rw [State.moved_lag_rival s a ⟨.acquire, pa'⟩ w' hab.symm, h.secondLag]
  others c hca hcb := by
    rw [State.moved_core_of_ne s a ⟨.acquire, pa'⟩ w' hca]
    exact h.others c hca hcb

/-- The first core may go on while the second is not in the window or has not seen too
much. -/
theorem Duel.timely (h : Duel s a b pa pb w lagA lagB)
    (hok : pb.inWindow = true → lagB < bound) {x : Label n} (hx : x.core = a) :
    Timely bound s x := by
  intro c hc hwin
  rw [hx] at hc ⊢
  by_cases hcb : c = b
  · subst hcb
    rw [h.second] at hwin
    rw [h.secondLag]
    exact hok hwin
  · rw [h.others c hc hcb] at hwin
    cases hwin

/-- The first core calls {lit}`spinlock_acquire`. -/
theorem Duel.call (h : Duel s a b .outside pb w lagA lagB) (hab : a ≠ b)
    (hok : pb.inWindow = true → lagB < bound)
    (hs : (timelySystem n delay bound).Reachable s) :
    ∃ s', (timelySystem n delay bound).Reachable s' ∧
      Duel s' a b .entry pb w lagA (lagB + 1) := by
  have hstep : (system n delay).step s (.call a .acquire) =
      some (s.moved a ⟨.acquire, .entry⟩ w) := by
    simp [system, step, h.first, h.word]
  exact ⟨_, hs.step (System.guarded_step.mpr ⟨h.timely hok rfl, hstep⟩), h.moved hab .entry w⟩

/-- The first core executes one instruction. -/
theorem Duel.instruction (h : Duel s a b pa pb w lagA lagB) (hab : a ≠ b)
    (hexec : execute delay .acquire a w pa = some (pa', w'))
    (hok : pb.inWindow = true → lagB < bound)
    (hs : (timelySystem n delay bound).Reachable s) :
    ∃ s', (timelySystem n delay bound).Reachable s' ∧
      Duel s' a b pa' pb w' (pa'.count lagA) (lagB + 1) := by
  have hstep : (system n delay).step s (.instruction a) =
      some (s.moved a ⟨.acquire, pa'⟩ w') := by
    simp [system, step, h.first, h.word, hexec]
  exact ⟨_, hs.step (System.guarded_step.mpr ⟨h.timely hok rfl, hstep⟩), h.moved hab pa' w'⟩

/-- The first core executes a number of instructions. -/
theorem Duel.instructions (h : Duel s a b pa pb w lagA lagB) (hab : a ≠ b) {k : Nat}
    (hexec : executes delay .acquire a k pa w = some (pa', w'))
    (hok : pb.inWindow = true → lagB + k ≤ bound)
    (hs : (timelySystem n delay bound).Reachable s) :
    ∃ s' lagA', (timelySystem n delay bound).Reachable s' ∧
      Duel s' a b pa' pb w' lagA' (lagB + k) := by
  induction k generalizing s pa w lagA lagB with
  | zero =>
      simp only [executes, Option.some.injEq, Prod.mk.injEq] at hexec
      rcases hexec with ⟨rfl, rfl⟩
      exact ⟨s, lagA, hs, h⟩
  | succ k ih =>
      rw [executes, Option.bind_eq_some_iff] at hexec
      rcases hexec with ⟨⟨pa₁, w₁⟩, hfirst, hrest⟩
      have hok₁ : pb.inWindow = true → lagB < bound := fun hwin => by
        have hle := hok hwin
        omega
      rcases h.instruction hab hfirst hok₁ hs with ⟨s₁, hs₁, h₁⟩
      have hok₂ : pb.inWindow = true → lagB + 1 + k ≤ bound := fun hwin => by
        have hle := hok hwin
        omega
      rcases ih h₁ hrest hok₂ hs₁ with ⟨s₂, lag₂, hs₂, h₂⟩
      rw [show lagB + 1 + k = lagB + (k + 1) by omega] at h₂
      exact ⟨s₂, lag₂, hs₂, h₂⟩

end Duel

/-- From its store on, a core that nobody interrupts reads its identity back. -/
theorem executes_store (id w : Nat) :
    executes delay .acquire id (delay + 2) (.store (id + 1)) w =
      some (.compare (id + 1) (id + 1), id + 1) := by
  have hnop : executes delay .acquire id delay (.nop (id + 1) 0) (id + 1) =
      some (.nop (id + 1) (0 + delay), id + 1) :=
    executes_nop .acquire id (id + 1) (id + 1) (by omega)
  rw [show delay + 2 = 1 + (delay + 1) by omega, executes_add]
  have hstore : executes delay .acquire id 1 (.store (id + 1)) w =
      some (.nop (id + 1) 0, id + 1) := rfl
  rw [hstore, Option.bind_some, executes_add, hnop, Option.bind_some, Nat.zero_add]
  simp [executes, execute]

/-- A core that has read its identity back gets to its critical section. -/
theorem executes_compare (id w : Nat) :
    executes delay .acquire id 3 (.compare (id + 1) (id + 1)) w = some (.critical, w) := by
  simp [executes, execute, notAcquired]

/-- With one instruction more than the bound, two cores get the lock. -/
theorem two_critical {a b : Fin n} (hab : a ≠ b) (hbound : delay + 2 ≤ bound) :
    ∃ s, (timelySystem n delay bound).Reachable s ∧
      (s.core a).IsCritical ∧ (s.core b).IsCritical := by
  have hstart : Duel (timelySystem n delay bound).init a b .outside .outside 0 0 0 :=
    ⟨rfl, rfl, rfl, rfl, rfl, fun c _ _ => rfl⟩
  -- the first core is about to read the word, and the second has read zero
  rcases hstart.call hab (fun h => by cases h) System.Reachable.init with ⟨s₁, hs₁, h₁⟩
  have hprepare : executes delay .acquire a 3 .entry 0 = some (.load (a + 1), 0) := rfl
  rcases h₁.instructions hab hprepare (fun h => by cases h) hs₁ with ⟨s₂, _, hs₂, h₂⟩
  rcases h₂.swap.call hab.symm (fun h => by cases h) hs₂ with ⟨s₃, hs₃, h₃⟩
  have hprepare' : executes delay .acquire b 3 .entry 0 = some (.load (b + 1), 0) := rfl
  rcases h₃.instructions hab.symm hprepare' (fun h => by cases h) hs₃ with ⟨s₄, _, hs₄, h₄⟩
  rcases h₄.instruction hab.symm rfl (fun h => by cases h) hs₄ with ⟨s₅, hs₅, h₅⟩
  rcases h₅.instruction hab.symm rfl (fun h => by cases h) hs₅ with ⟨s₆, hs₆, h₆⟩
  -- the first core reads zero as well, and sees the second read its identity back
  rcases h₆.swap.instruction hab rfl (fun _ => by simp [Pc.count]; omega) hs₆ with
    ⟨s₇, hs₇, h₇⟩
  rcases h₇.swap.instructions hab.symm (executes_store b 0)
    (fun _ => by simp [Pc.count]; omega) hs₇ with ⟨s₈, _, hs₈, h₈⟩
  -- the first core stores, and reads its own identity back
  rcases h₈.swap.instruction hab rfl (fun h => by cases h) hs₈ with ⟨s₉, hs₉, h₉⟩
  rcases h₉.instructions hab (executes_store a (b + 1)) (fun h => by cases h) hs₉ with
    ⟨s₁₀, _, hs₁₀, h₁₀⟩
  rcases h₁₀.instructions hab (executes_compare a (a + 1)) (fun h => by cases h) hs₁₀ with
    ⟨s₁₁, _, hs₁₁, h₁₁⟩
  rcases h₁₁.swap.instructions hab.symm (executes_compare b (a + 1)) (fun h => by cases h)
    hs₁₁ with ⟨s₁₂, _, hs₁₂, h₁₂⟩
  exact ⟨s₁₂, hs₁₂, congrArg Core.pc h₁₂.second, congrArg Core.pc h₁₂.first⟩

/-- A smaller bound is met by fewer runs. -/
theorem reachable_of_bound_le {bound' : Nat} (hle : bound ≤ bound') {s : State n}
    (hs : (timelySystem n delay bound).Reachable s) :
    (timelySystem n delay bound').Reachable s := by
  induction hs with
  | init => exact System.Reachable.init
  | step _ ha ih =>
      rcases System.guarded_step.mp ha with ⟨hok, ha⟩
      refine ih.step (System.guarded_step.mpr ⟨fun c hc hwin => ?_, ha⟩)
      exact lt_of_lt_of_le (hok c hc hwin) hle

/-- The number of {lit}`nop`s decides exactly how many instructions a rival may execute
between the load and the store of a core. -/
theorem exclusive_iff_bound_le (hn : 2 ≤ n) :
    (∀ s, (timelySystem n delay bound).Reachable s → ∀ c d,
      (s.core c).IsCritical → (s.core d).IsCritical → c = d) ↔ bound ≤ delay + 1 := by
  constructor
  · intro hexclusive
    by_contra hle
    have hab : (⟨0, by omega⟩ : Fin n) ≠ ⟨1, by omega⟩ := by simp
    rcases two_critical hab (show delay + 2 ≤ bound by omega) with ⟨s, hs, ha, hb⟩
    exact hab (hexclusive s hs _ _ ha hb)
  · intro hle s hs c d hc hd
    exact (exclusive_of_reachable (reachable_of_bound_le hle hs)).eq
      (by rw [hc]; trivial) (by rw [hd]; trivial)

/-- Two cores, and the bound of two instructions that one {lit}`nop` allows. -/
theorem exclusive_iff_bound_le_two :
    (∀ s, (timelySystem 2 1 2).Reachable s → ∀ c d,
      (s.core c).IsCritical → (s.core d).IsCritical → c = d) ↔ 2 ≤ 1 + 1 :=
  exclusive_iff_bound_le (by decide)

/-! ## Schedules of bounded pace -/

/-- In no stretch of the schedule without an instruction of one core does another execute
more than {lit}`pace`. -/
def Paced (pace : Nat) (as : List (Label n)) : Prop :=
  ∀ a b : Fin n, a ≠ b → ∀ l, l <:+: as → (∀ x ∈ l, x.core ≠ a) →
    l.countP (fun x => x.core = b) ≤ pace

/-- The stretches of a schedule are the starts of its ends. -/
theorem paced_iff {pace : Nat} {as : List (Label n)} :
    Paced pace as ↔ ∀ a b : Fin n, a ≠ b → ∀ t ∈ as.tails, ∀ l ∈ t.inits,
      (∀ x ∈ l, x.core ≠ a) → l.countP (fun x => x.core = b) ≤ pace := by
  constructor
  · intro h a b hab t ht l hl
    exact h a b hab l (((List.mem_inits l t).mp hl).isInfix.trans
      ((List.mem_tails t as).mp ht).isInfix)
  · intro h a b hab l hl
    rcases List.infix_iff_prefix_suffix.mp hl with ⟨t, hlt, ht⟩
    exact h a b hab t ((List.mem_tails t as).mpr ht) l ((List.mem_inits l t).mpr hlt)

instance (pace : Nat) (as : List (Label n)) : Decidable (Paced pace as) :=
  decidable_of_iff _ paced_iff.symm

theorem Paced.of_append {pace : Nat} {as bs : List (Label n)} (h : Paced pace (as ++ bs)) :
    Paced pace as :=
  fun a b hab l hl hne => h a b hab l (hl.trans (List.prefix_append as bs).isInfix) hne

/-- The counts of the cores in the window are those of the last stretches of the schedule in
which these cores have executed nothing. -/
structure Counted (s : State n) (as : List (Label n)) : Prop where
  /-- One stretch, since the load. -/
  branch : ∀ a b r11 r1, a ≠ b → (s.core a).pc = .branch r11 r1 →
    ∃ l, l <:+ as ∧ (∀ x ∈ l, x.core ≠ a) ∧ s.lag a b = l.countP fun x => x.core = b
  /-- Two stretches, before and after the branch. -/
  store : ∀ a b r11, a ≠ b → (s.core a).pc = .store r11 →
    ∃ l₁ x l₂, l₁ ++ x :: l₂ <:+ as ∧ (∀ y ∈ l₁, y.core ≠ a) ∧ (∀ y ∈ l₂, y.core ≠ a) ∧
      s.lag a b = (l₁.countP fun y => y.core = b) + l₂.countP fun y => y.core = b

theorem counted_init : Counted (system n delay).init [] where
  branch _ _ _ _ _ h := by cases h
  store _ _ _ _ h := by cases h

/-- A stretch goes on with an instruction of another core. -/
theorem countP_append_label (l : List (Label n)) (x : Label n) (b : Fin n) :
    (l ++ [x]).countP (fun y => y.core = b) =
      l.countP (fun y => y.core = b) + if b = x.core then 1 else 0 := by
  simp [List.countP_append, List.countP_cons, eq_comm]

theorem forall_mem_append_label {l : List (Label n)} {x : Label n} {a : Fin n}
    (hl : ∀ y ∈ l, y.core ≠ a) (hx : a ≠ x.core) : ∀ y ∈ l ++ [x], y.core ≠ a := by
  intro y hy
  rcases List.mem_append.mp hy with hy | hy
  · exact hl y hy
  · rw [List.mem_singleton.mp hy]
    exact hx.symm

/-- The count of a core that does not go on. -/
theorem State.moved_lag_of_ne_core (s : State n) (c : Fin n) (core : Core) (word : Nat)
    {a b : Fin n} (ha : a ≠ c) :
    (s.moved c core word).lag a b = s.lag a b + if b = c then 1 else 0 := by
  by_cases hb : b = c
  · simp [State.moved, ha, hb]
  · simp [State.moved, ha, hb]

/-- One step keeps the counts. -/
theorem Counted.step {s s' : State n} {as : List (Label n)} {x : Label n} (hs : Counted s as)
    (h : (system n delay).step s x = some s') : Counted s' (as ++ [x]) := by
  rcases step_cases h with ⟨core, word, hmove, rfl⟩
  constructor
  · intro a b r11 r1 hab hpc
    by_cases ha : a = x.core
    · -- the load has just been executed
      subst ha
      rw [State.moved_core_self] at hpc
      refine ⟨[], List.nil_suffix, by simp, ?_⟩
      rw [State.moved_lag_self, hpc]
      rfl
    · rw [State.moved_core_of_ne s x.core core word ha] at hpc
      rcases hs.branch a b r11 r1 hab hpc with ⟨l, hsuffix, hne, hlag⟩
      refine ⟨l ++ [x], List.suffix_append_self_iff.mpr hsuffix, forall_mem_append_label hne ha, ?_⟩
      rw [State.moved_lag_of_ne_core s x.core core word ha, countP_append_label, hlag]
  · intro a b r11 hab hpc
    by_cases ha : a = x.core
    · subst ha
      rw [State.moved_core_self] at hpc
      generalize hcore : s.core x.core = core₀ at hmove
      cases hmove with
      | branchNot f r w =>
          rcases hs.branch x.core b r 0 hab (by rw [hcore]) with ⟨l, hsuffix, hne, hlag⟩
          refine ⟨l, x, [], List.suffix_append_self_iff.mpr hsuffix, hne, by simp, ?_⟩
          rw [State.moved_lag_self]
          exact hlag
      | work _ _ hpc' => rcases hpc' with hpc' | hpc' <;> rw [hpc'] at hpc <;> cases hpc
      | _ => cases hpc
    · rw [State.moved_core_of_ne s x.core core word ha] at hpc
      rcases hs.store a b r11 hab hpc with ⟨l₁, y, l₂, hsuffix, hne₁, hne₂, hlag⟩
      refine ⟨l₁, y, l₂ ++ [x], ?_, hne₁, forall_mem_append_label hne₂ ha, ?_⟩
      · rw [← List.cons_append, ← List.append_assoc]
        exact List.suffix_append_self_iff.mpr hsuffix
      · rw [State.moved_lag_of_ne_core s x.core core word ha, countP_append_label, hlag,
          Nat.add_assoc]

/-- A step of a schedule of bounded pace meets the bound. -/
theorem Counted.timely {s : State n} {as : List (Label n)} {x : Label n} {pace : Nat}
    (hs : Counted s as) (hpaced : Paced pace (as ++ [x])) (hpace : 2 * pace ≤ bound)
    (hbound : 0 < bound) : Timely bound s x := by
  intro a ha hwin
  -- the stretch that ends with the new instruction is no longer than the others
  have hlast : ∀ l, l <:+ as → (∀ y ∈ l, y.core ≠ a) →
      l.countP (fun y => y.core = x.core) + 1 ≤ pace := by
    intro l hsuffix hne
    have hle := hpaced a x.core ha (l ++ [x])
      (List.suffix_append_self_iff.mpr hsuffix).isInfix (forall_mem_append_label hne ha)
    rwa [countP_append_label, if_pos rfl] at hle
  cases hpc : (s.core a).pc with
  | branch r11 r1 =>
      rcases hs.branch a x.core r11 r1 ha hpc with ⟨l, hsuffix, hne, hlag⟩
      have hle := hlast l hsuffix hne
      omega
  | store r11 =>
      rcases hs.store a x.core r11 ha hpc with ⟨l₁, y, l₂, hsuffix, hne₁, hne₂, hlag⟩
      have hl₂ : l₂ <:+ as :=
        ((List.suffix_cons y l₂).trans (List.suffix_append l₁ (y :: l₂))).trans hsuffix
      have hle₂ := hlast l₂ hl₂ hne₂
      have hl₁ : l₁ <:+: as ++ [x] :=
        ((List.prefix_append l₁ (y :: l₂)).isInfix.trans hsuffix.isInfix).trans
          (List.prefix_append as [x]).isInfix
      have hle₁ := hpaced a x.core ha l₁ hl₁ hne₁
      omega
  | _ => rw [hpc] at hwin; cases hwin

/-- A schedule of bounded pace meets the bound all along. -/
theorem run_of_paced {as : List (Label n)} {s : State n} {pace : Nat}
    (hpaced : Paced pace as) (hpace : 2 * pace ≤ bound) (hbound : 0 < bound)
    (hrun : (system n delay).run (system n delay).init as = some s) :
    Counted s as ∧ (timelySystem n delay bound).run (timelySystem n delay bound).init as =
      some s := by
  induction as using List.reverseRecOn generalizing s with
  | nil =>
      cases hrun
      exact ⟨counted_init, rfl⟩
  | append_singleton as x ih =>
      rw [System.run_append, Option.bind_eq_some_iff] at hrun
      rcases hrun with ⟨s₁, hs₁, hx⟩
      rw [System.run_cons, Option.bind_eq_some_iff] at hx
      rcases hx with ⟨s₂, hx, heq⟩
      cases heq
      rcases ih hpaced.of_append hs₁ with ⟨hcounted, htimely⟩
      refine ⟨hcounted.step hx, ?_⟩
      have hstep : (timelySystem n delay bound).step s₁ x = some s :=
        System.guarded_step.mpr ⟨hcounted.timely hpaced hpace hbound, hx⟩
      rw [System.run_append, htimely, Option.bind_some, System.run_cons, hstep]
      rfl

/-- Mutual exclusion when, while a core executes nothing, no other core executes more
instructions than half of what the {lit}`nop`s allow. -/
theorem exclusive_of_paced {as : List (Label n)} {s : State n} {pace : Nat}
    (hpace : 2 * pace ≤ delay + 1) (hpaced : Paced pace as)
    (hrun : (system n delay).run (system n delay).init as = some s) {c d : Fin n}
    (hc : (s.core c).IsCritical) (hd : (s.core d).IsCritical) : c = d := by
  have htimely := (run_of_paced hpaced hpace (Nat.succ_pos delay) hrun).2
  exact (exclusive_of_reachable (System.Reachable.init.run htimely)).eq
    (by rw [hc]; trivial) (by rw [hd]; trivial)

/-- Two cores that call {lit}`spinlock_acquire` and take turns.  Both read zero, and the one
that stores last gets the lock. -/
def turns : List (Label 2) :=
  [.call 0 .acquire, .call 1 .acquire] ++
    (List.replicate 11 [Label.instruction 0, .instruction 1]).flatten

/-- One {lit}`nop` is enough for the cores that take turns. -/
theorem exclusive_of_turns :
    ∃ s, (system 2 (nops true)).run (system 2 (nops true)).init turns = some s ∧
      (s.core 1).IsCritical ∧ ∀ d, (s.core d).IsCritical → 1 = d := by
  have hrun : ((system 2 (nops true)).run (system 2 (nops true)).init turns).map
      (fun s => (s.core 1).pc) = some .critical := by decide +kernel
  rcases Option.map_eq_some_iff.mp hrun with ⟨s, hs, hcrit⟩
  refine ⟨s, hs, hcrit, fun d hd => ?_⟩
  have hpaced : Paced 1 turns := by decide +kernel
  exact exclusive_of_paced (by decide) hpaced hs hcrit hd

/-! ## Getting the lock -/

/-- The number of instructions that a core needs to get to its critical section when nobody
interrupts it, and the word is zero or names it. -/
def Pc.remaining (delay id word : Nat) : Pc → Nat
  | .outside | .critical => 0
  | .test value => if value = 0 then delay + 11 else 1
  | .retsp r0 => if r0 = 0 then delay + 12 else 2
  | .compare r11 r2 => if r11 = r2 then 3 else delay + 13
  | .failed => delay + 13
  | .nop _ k => if word = id + 1 then delay - k + 4 else delay - k + delay + 14
  | .store _ => delay + 5
  | .branch _ r1 => if r1 = 0 then delay + 6 else delay + 14
  | .load _ => delay + 7
  | .addOne _ => delay + 8
  | .getId => delay + 9
  | .entry => delay + 10

theorem Pc.remaining_le (delay id word : Nat) (pc : Pc) :
    pc.remaining delay id word ≤ 2 * delay + 14 := by
  cases pc <;> simp only [Pc.remaining] <;> (try split) <;> omega

/-- The core gets the lock if nobody interrupts it: the word is its own, or free and the core
is in {lit}`spinlock_acquire`. -/
def Ready (id : Nat) (f : LockFunction) (pc : Pc) (word : Nat) : Prop :=
  word = id + 1 ∧ pc.claims ∨ word = 0 ∧ f = .acquire ∧ pc ≠ .outside

/-- The word is its own: each of its instructions brings the core nearer. -/
theorem execute_of_claims {id word : Nat} {f : LockFunction} {pc : Pc} (hword : word = id + 1)
    (hclaims : pc.claims) (hreg : pc.registers delay id) (hpc : pc ≠ .critical) :
    ∃ pc' word', execute delay f id word pc = some (pc', word') ∧ Ready id f pc' word' ∧
      pc'.remaining delay id word' < pc.remaining delay id word := by
  cases pc with
  | critical => exact absurd rfl hpc
  | nop r11 k =>
      rcases hreg with ⟨hr11, hk⟩
      by_cases hlt : k < delay
      · refine ⟨.nop r11 (k + 1), word, by simp [execute, hlt], Or.inl ⟨hword, trivial⟩, ?_⟩
        simp only [Pc.remaining, hword, if_true]
        omega
      · refine ⟨.compare r11 word, word, by simp [execute, hlt],
          Or.inl ⟨hword, hr11.trans hword.symm⟩, ?_⟩
        simp only [Pc.remaining, hword, hr11, if_true]
        omega
  | compare r11 r2 =>
      have hr : r11 = r2 := hclaims
      refine ⟨.retsp 1, word, by simp [execute, hr], Or.inl ⟨hword, Nat.one_ne_zero⟩, ?_⟩
      simp [Pc.remaining, hr]
  | retsp r0 =>
      have hr0 : r0 ≠ 0 := hclaims
      cases f with
      | acquire =>
          refine ⟨.test r0, word, rfl, Or.inl ⟨hword, hr0⟩, ?_⟩
          simp [Pc.remaining, hr0]
      | tryAcquire =>
          refine ⟨.critical, word, by simp [execute, notAcquired, hr0],
            Or.inl ⟨hword, trivial⟩, ?_⟩
          simp [Pc.remaining, hr0]
  | test value =>
      have hv : value ≠ 0 := hclaims
      refine ⟨.critical, word, by simp [execute, notAcquired, hv],
        Or.inl ⟨hword, trivial⟩, ?_⟩
      simp [Pc.remaining, hv]
  | _ => exact False.elim hclaims

/-- The lock is free: each of its instructions brings a core in {lit}`spinlock_acquire`
nearer, also when it first has to find that it has lost an earlier race. -/
theorem execute_of_free {id : Nat} {pc : Pc} (hreg : pc.registers delay id)
    (hout : pc ≠ .outside) (hpc : pc ≠ .critical) :
    ∃ pc' word', execute delay .acquire id 0 pc = some (pc', word') ∧
      Ready id .acquire pc' word' ∧
      pc'.remaining delay id word' < pc.remaining delay id 0 := by
  have hzero : (0 : Nat) ≠ id + 1 := (Nat.succ_ne_zero id).symm
  cases pc with
  | outside => exact absurd rfl hout
  | critical => exact absurd rfl hpc
  | entry => exact ⟨.getId, 0, rfl, Or.inr ⟨rfl, rfl, by simp⟩, by simp [Pc.remaining]⟩
  | getId => exact ⟨.addOne id, 0, rfl, Or.inr ⟨rfl, rfl, by simp⟩, by simp [Pc.remaining]⟩
  | addOne r11 =>
      exact ⟨.load (r11 + 1), 0, rfl, Or.inr ⟨rfl, rfl, by simp⟩, by simp [Pc.remaining]⟩
  | load r11 =>
      exact ⟨.branch r11 0, 0, rfl, Or.inr ⟨rfl, rfl, by simp⟩, by simp [Pc.remaining]⟩
  | branch r11 r1 =>
      by_cases hr1 : r1 = 0
      · exact ⟨.store r11, 0, by simp [execute, hr1], Or.inr ⟨rfl, rfl, by simp⟩,
          by simp [Pc.remaining, hr1]⟩
      · exact ⟨.failed, 0, by simp [execute, hr1], Or.inr ⟨rfl, rfl, by simp⟩,
          by simp [Pc.remaining, hr1]⟩
  | store r11 =>
      have hr11 : r11 = id + 1 := hreg
      exact ⟨.nop r11 0, r11, rfl, Or.inl ⟨hr11, trivial⟩, by simp [Pc.remaining, hr11]⟩
  | nop r11 k =>
      rcases hreg with ⟨hr11, hk⟩
      by_cases hlt : k < delay
      · refine ⟨.nop r11 (k + 1), 0, by simp [execute, hlt],
          Or.inr ⟨rfl, rfl, by simp⟩, ?_⟩
        simp only [Pc.remaining, hzero, if_false]
        omega
      · refine ⟨.compare r11 0, 0, by simp [execute, hlt], Or.inr ⟨rfl, rfl, by simp⟩, ?_⟩
        simp only [Pc.remaining, hzero, hr11, Nat.succ_ne_zero, if_false]
        omega
  | compare r11 r2 =>
      by_cases hr : r11 = r2
      · exact ⟨.retsp 1, 0, by simp [execute, hr], Or.inr ⟨rfl, rfl, by simp⟩,
          by simp [Pc.remaining, hr]⟩
      · exact ⟨.retsp 0, 0, by simp [execute, hr], Or.inr ⟨rfl, rfl, by simp⟩,
          by simp [Pc.remaining, hr]⟩
  | failed => exact ⟨.retsp 0, 0, rfl, Or.inr ⟨rfl, rfl, by simp⟩, by simp [Pc.remaining]⟩
  | retsp r0 =>
      refine ⟨.test r0, 0, rfl, Or.inr ⟨rfl, rfl, by simp⟩, ?_⟩
      by_cases hr0 : r0 = 0 <;> simp [Pc.remaining, hr0]
  | test value =>
      by_cases hv : value = 0
      · exact ⟨.entry, 0, by simp [execute, notAcquired, hv], Or.inr ⟨rfl, rfl, by simp⟩,
          by simp [Pc.remaining, hv]⟩
      · exact ⟨.critical, 0, by simp [execute, notAcquired, hv], Or.inr ⟨rfl, rfl, by simp⟩,
          by simp [Pc.remaining, hv]⟩

/-- A core that is ready and has not got the lock goes on, is still ready, and is nearer. -/
theorem Ready.step {s : State n} {c : Fin n} (hs : (system n delay).Reachable s)
    (h : Ready c (s.core c).function (s.core c).pc s.word)
    (hpc : (s.core c).pc ≠ .critical) :
    ∃ s', (system n delay).step s (.instruction c) = some s' ∧
      Ready c (s'.core c).function (s'.core c).pc s'.word ∧
      (s'.core c).pc.remaining delay c s'.word < (s.core c).pc.remaining delay c s.word := by
  have hreg := (claimed_of_reachable hs).registers c
  have hexec : ∃ pc' word',
      execute delay (s.core c).function c s.word (s.core c).pc = some (pc', word') ∧
      Ready c (s.core c).function pc' word' ∧
      pc'.remaining delay c word' < (s.core c).pc.remaining delay c s.word := by
    rcases h with ⟨hword, hclaims⟩ | ⟨hword, hf, hout⟩
    · exact execute_of_claims hword hclaims hreg hpc
    · rw [hword, hf]
      exact execute_of_free hreg hout hpc
  rcases hexec with ⟨pc', word', hexec, hready, hlt⟩
  refine ⟨s.moved c ⟨(s.core c).function, pc'⟩ word', ?_, ?_, ?_⟩
  · exact congrArg (Option.map _) hexec
  · rw [State.moved_core_self]
    exact hready
  · rw [State.moved_core_self]
    exact hlt

/-- Its own instructions get a core that is ready to its critical section. -/
theorem run_of_ready {c : Fin n} {s : State n} (hs : (system n delay).Reachable s)
    (h : Ready c (s.core c).function (s.core c).pc s.word) :
    ∃ k s', k ≤ (s.core c).pc.remaining delay c s.word ∧
      (system n delay).run s (List.replicate k (.instruction c)) = some s' ∧
      (s'.core c).IsCritical := by
  generalize hm : (s.core c).pc.remaining delay c s.word = m
  induction m using Nat.strong_induction_on generalizing s with
  | _ m ih =>
      by_cases hpc : (s.core c).pc = .critical
      · exact ⟨0, s, Nat.zero_le m, rfl, hpc⟩
      · rcases h.step hs hpc with ⟨s₁, hstep, hready, hlt⟩
        rcases ih _ (hm ▸ hlt) (hs.step hstep) hready rfl with ⟨k, s', hk, hrun, hcrit⟩
        refine ⟨k + 1, s', by omega, ?_, hcrit⟩
        rw [List.replicate_succ, System.run_cons, hstep]
        exact hrun

/-- The word is zero or the identity of a core. -/
theorem word_of_reachable {s : State n} (hs : (system n delay).Reachable s) :
    s.word = 0 ∨ ∃ c : Fin n, s.word = (c : Nat) + 1 := by
  refine hs.invariant (P := fun s => s.word = 0 ∨ ∃ c : Fin n, s.word = (c : Nat) + 1)
    (Or.inl rfl) ?_
  intro s a s' hr hword h
  rcases step_cases h with ⟨core, word, hmove, rfl⟩
  rcases hmove.word_cases ((claimed_of_reachable hr).registers a.core) with
    hw | ⟨-, hw⟩ | ⟨-, hw⟩
  · exact hw.symm ▸ hword
  · exact Or.inr ⟨a.core, hw⟩
  · exact Or.inl hw

/-- No schedule loses the lock: while a core is in {lit}`spinlock_acquire`, some core gets to
its critical section by its own next instructions. -/
theorem some_core_gets_lock {s : State n} (hs : (system n delay).Reachable s) {c : Fin n}
    (hf : (s.core c).function = .acquire) (hpc : (s.core c).pc ≠ .outside) :
    ∃ d k s', k ≤ 2 * delay + 14 ∧
      (system n delay).run s (List.replicate k (.instruction d)) = some s' ∧
      (s'.core d).IsCritical := by
  have hready : ∃ d : Fin n, Ready d (s.core d).function (s.core d).pc s.word := by
    rcases word_of_reachable hs with hword | ⟨d, hword⟩
    · exact ⟨c, Or.inr ⟨hword, hf, hpc⟩⟩
    · exact ⟨d, Or.inl ⟨hword, (claimed_of_reachable hs).named d hword⟩⟩
  rcases hready with ⟨d, hd⟩
  rcases run_of_ready hs hd with ⟨k, s', hk, hrun, hcrit⟩
  exact ⟨d, k, s', hk.trans (Pc.remaining_le delay d s.word _), hrun, hcrit⟩

/-- While both cores wait for their {lit}`nop`, the one that has stored last gets the lock. -/
theorem some_core_gets_lock_of_turns :
    ∃ s, (system 2 (nops true)).run (system 2 (nops true)).init (turns.take 14) = some s ∧
      ∃ d k s', k ≤ 2 * nops true + 14 ∧
        (system 2 (nops true)).run s (List.replicate k (.instruction d)) = some s' ∧
        (s'.core d).IsCritical := by
  have hrun : ((system 2 (nops true)).run (system 2 (nops true)).init (turns.take 14)).map
      (fun s => s.core 0) = some ⟨.acquire, .nop 1 0⟩ := by decide +kernel
  rcases Option.map_eq_some_iff.mp hrun with ⟨s, hs, hcore⟩
  refine ⟨s, hs, some_core_gets_lock (System.Reachable.init.run hs) (c := 0) ?_ ?_⟩
  · rw [hcore]
  · rw [hcore]
    simp

end Spinlock
end LibDispatch
