import LibDispatch.Spinlock.Instructions

/-!
# The spinlock is an atomic lock

What holds under every schedule is that a nonzero word names a core that has stored its
identity and has not read another one since.  That is not enough: a core that has read
zero may still store over the word of a core that has the lock.  This file proves that it
cannot when between the load and the store of a core every rival executes at most
{lit}`delay + 1` instructions.  A rival that gets the lock executes {lit}`delay + 2` from its
store to its second load, so that it would have been too fast for every core that was left
between the two.

Main results:

- Theorem {lit}`claimed_of_reachable`: what the word says under every schedule.
- Theorem {lit}`exclusive_of_reachable`: at most one core has read its identity back.
- Theorem {lit}`spinlock_simulation`: under the bound, the spinlock refines the atomic lock.
-/

namespace LibDispatch
namespace Spinlock

variable {n delay : Nat}

/-! ## Positions -/

/-- The registers hold what the instructions have put there. -/
def Pc.registers (delay id : Nat) : Pc → Prop
  | .addOne r11 => r11 = id
  | .load r11 | .branch r11 _ | .store r11 | .compare r11 _ => r11 = id + 1
  | .nop r11 executed => r11 = id + 1 ∧ executed ≤ delay
  | _ => True

/-- The core has read its identity back. -/
def Pc.holds : Pc → Prop
  | .compare r11 r2 => r11 = r2
  | .retsp r0 => r0 ≠ 0
  | .test value => value ≠ 0
  | .critical => True
  | _ => False

/-- The core has stored its identity, and has not read another one since. -/
def Pc.claims : Pc → Prop
  | .nop _ _ => True
  | pc => pc.holds

/-- The core has the lock. -/
def Core.IsCritical (core : Core) : Prop :=
  core.pc = .critical

/-! ## One instruction -/

section Moves

variable {id w w' : Nat} {core core' : Core}

theorem Move.registers (h : Move delay id core w core' w')
    (hreg : core.pc.registers delay id) : core'.pc.registers delay id := by
  cases h with
  | work _ _ _ => exact hreg
  | getId f w => rfl
  | addOne f r11 w => exact congrArg (· + 1) hreg
  | store f r11 w => exact ⟨hreg, Nat.zero_le delay⟩
  | nop f r11 k w hk => exact ⟨hreg.1, hk⟩
  | reload f r11 k w _ => exact hreg.1
  | load | branchNot => exact hreg
  | _ => trivial

/-- The word changes only by a store and by a release. -/
theorem Move.word_cases (h : Move delay id core w core' w')
    (hreg : core.pc.registers delay id) :
    w' = w ∨ (core.pc.inWindow = true ∧ w' = id + 1) ∨ (core.pc = .critical ∧ w' = 0) := by
  cases h with
  | store f r11 w => exact Or.inr (Or.inl ⟨rfl, hreg⟩)
  | release f w => exact Or.inr (Or.inr ⟨rfl, rfl⟩)
  | _ => exact Or.inl rfl

/-- A core that the word names after an instruction has a claim if it had one when the word
named it before. -/
theorem Move.claims (h : Move delay id core w core' w')
    (hreg : core.pc.registers delay id) (hclaims : w = id + 1 → core.pc.claims)
    (hw : w' = id + 1) : core'.pc.claims := by
  cases h with
  | store f r11 w => trivial
  | nop f r11 k w _ => trivial
  | reload f r11 k w _ => exact hreg.1.trans hw.symm
  | compare f r11 r2 w =>
      have hr : r11 = r2 := hclaims hw
      simp [Pc.claims, Pc.holds, hr]
  | release f w => cases hw
  | work _ _ _ => exact hclaims hw
  | retAcquire r0 w => exact hclaims hw
  | retTaken r0 w _ => trivial
  | taken f value w _ => trivial
  | retFailed w => exact absurd rfl (hclaims hw)
  | again f w => exact absurd rfl (hclaims hw)
  | _ => exact (hclaims hw).elim

/-- A core gets into the window by reading zero. -/
theorem Move.inWindow (h : Move delay id core w core' w')
    (hwin : core'.pc.inWindow = true) :
    w' = w ∧ (core.pc.inWindow = true ∨ w = 0) := by
  cases h with
  | load f r11 w => exact ⟨rfl, Or.inr (of_decide_eq_true hwin)⟩
  | branchNot f r11 w => exact ⟨rfl, Or.inl rfl⟩
  | work _ _ _ => exact ⟨rfl, Or.inl hwin⟩
  | _ => cases hwin

/-- The counts of a core that was in the window go on. -/
theorem Move.count_of_inWindow (h : Move delay id core w core' w')
    (hwin : core.pc.inWindow = true) (lag : Nat) : core'.pc.count lag = lag := by
  cases h with
  | branchTaken | branchNot | store => rfl
  | work _ _ hpc => rcases hpc with hpc | hpc <;> rw [hpc] <;> rfl
  | _ => cases hwin

/-- A core gets to a holding position by reading its identity back after the last
{lit}`nop`. -/
theorem Move.holds (h : Move delay id core w core' w')
    (hreg : core.pc.registers delay id) (hh : core'.pc.holds) :
    w' = w ∧ core'.pc.inWindow = false ∧
      (core.pc.holds ∨ w = id + 1 ∧ ∃ r11 k, core.pc = .nop r11 k ∧ delay ≤ k) := by
  cases h with
  | reload f r11 k w hk =>
      exact ⟨rfl, rfl, Or.inr ⟨hh.symm.trans hreg.1, r11, k, rfl, Nat.le_of_not_lt hk⟩⟩
  | compare f r11 r2 w =>
      refine ⟨rfl, rfl, Or.inl ?_⟩
      by_contra hne
      have hne' : ¬ r11 = r2 := hne
      simp [Pc.holds, hne'] at hh
  | work _ _ hpc =>
      refine ⟨rfl, ?_, Or.inl hh⟩
      rcases hpc with hpc | hpc <;> rw [hpc] <;> rfl
  | retAcquire r0 w => exact ⟨rfl, rfl, Or.inl hh⟩
  | retTaken r0 w h => exact ⟨rfl, rfl, Or.inl h⟩
  | taken f value w h => exact ⟨rfl, rfl, Or.inl h⟩
  | failed f w => exact absurd rfl hh
  | _ => exact hh.elim

end Moves

/-! ## One step of one core -/

section Moved

variable (s : State n) (c : Fin n) (core : Core) (word : Nat)

@[simp]
theorem State.moved_word : (s.moved c core word).word = word :=
  rfl

@[simp]
theorem State.moved_core_self : (s.moved c core word).core c = core := by
  simp [State.moved]

@[simp]
theorem State.moved_core_of_ne {d : Fin n} (h : d ≠ c) :
    (s.moved c core word).core d = s.core d := by
  simp [State.moved, h]

/-- An instruction counts for every other core. -/
@[simp]
theorem State.moved_lag_rival {d : Fin n} (h : d ≠ c) :
    (s.moved c core word).lag d c = s.lag d c + 1 := by
  simp [State.moved, h]

/-- It does not count for a third core. -/
@[simp]
theorem State.moved_lag_of_ne {a b : Fin n} (ha : a ≠ c) (hb : b ≠ c) :
    (s.moved c core word).lag a b = s.lag a b := by
  simp [State.moved, ha, hb]

/-- The counts of a core start again with its load. -/
@[simp]
theorem State.moved_lag_self {b : Fin n} :
    (s.moved c core word).lag c b = core.pc.count (s.lag c b) := by
  simp [State.moved]

end Moved

/-! ## Under every schedule -/

/-- A nonzero word names a core that has a claim, and every core that has found zero before
the word was stored has seen the instructions since. -/
structure Claimed (delay : Nat) (s : State n) : Prop where
  registers : ∀ c, (s.core c).pc.registers delay c
  named : ∀ c : Fin n, s.word = c + 1 → (s.core c).pc.claims
  lagging : ∀ (a b : Fin n) (r11 k : Nat), (s.core a).pc.inWindow = true → s.word = b + 1 →
    (s.core b).pc = .nop r11 k → k + 1 ≤ s.lag a b

theorem claimed_init : Claimed delay (system n delay).init where
  registers _ := trivial
  named c h := absurd h (Nat.succ_ne_zero c).symm
  lagging _ b _ _ _ h := absurd h (Nat.succ_ne_zero b).symm

/-- A word that names another core than the one that goes on was there before. -/
theorem Claimed.word_of_ne {s : State n} {c d : Fin n} {core : Core} {word : Nat}
    (hs : Claimed delay s) (hmove : Move delay c (s.core c) s.word core word) (hd : d ≠ c)
    (hword : word = d + 1) : s.word = d + 1 := by
  rcases hmove.word_cases (hs.registers c) with hw | ⟨-, hw⟩ | ⟨-, hw⟩
  · exact hw ▸ hword
  · exact absurd (Fin.ext (Nat.succ.inj (hword.symm.trans hw))) hd
  · exact absurd (hword.symm.trans hw) (Nat.succ_ne_zero d)

/-- One step keeps the word's meaning. -/
theorem Claimed.step {s s' : State n} {a : Label n} (hs : Claimed delay s)
    (h : (system n delay).step s a = some s') : Claimed delay s' := by
  rcases step_cases h with ⟨core, word, hmove, rfl⟩
  generalize a.core = c at hmove
  constructor
  · intro d
    by_cases hd : d = c
    · subst hd
      rw [State.moved_core_self]
      exact hmove.registers (hs.registers d)
    · rw [State.moved_core_of_ne s c core word hd]
      exact hs.registers d
  · intro d hword
    rw [State.moved_word] at hword
    by_cases hd : d = c
    · subst hd
      rw [State.moved_core_self]
      exact hmove.claims (hs.registers d) (hs.named d) hword
    · rw [State.moved_core_of_ne s c core word hd]
      exact hs.named d (hs.word_of_ne hmove hd hword)
  · intro d e r11 k hwin hword hpc
    rw [State.moved_word] at hword
    by_cases hd : d = c
    · -- the core in the window went on: it was there before
      subst hd
      rw [State.moved_core_self] at hwin
      have he : e ≠ d := by
        rintro rfl
        rw [State.moved_core_self] at hpc
        rw [hpc] at hwin
        cases hwin
      rw [State.moved_core_of_ne s d core word he] at hpc
      have hword' := hs.word_of_ne hmove he hword
      rcases hmove.inWindow hwin with ⟨-, hwin' | hzero⟩
      · rw [State.moved_lag_self, hmove.count_of_inWindow hwin']
        exact hs.lagging d e r11 k hwin' hword' hpc
      · exact absurd (hzero.symm.trans hword') (Nat.succ_ne_zero e).symm
    · rw [State.moved_core_of_ne s c core word hd] at hwin
      by_cases he : e = c
      · -- the named core went on: it has stored, or executed one more nop
        subst he
        rw [State.moved_core_self] at hpc
        rw [State.moved_lag_rival s e core word hd]
        generalize hcore : s.core e = core₀ at hmove
        cases hmove with
        | store f _ w =>
            cases hpc
            omega
        | nop f r j w hj =>
            cases hpc
            have hlag := hs.lagging d e r11 j hwin hword (by rw [hcore])
            omega
        | work _ _ hpc' =>
            rcases hpc' with hpc' | hpc' <;> rw [hpc'] at hpc <;> cases hpc
        | _ => cases hpc
      · rw [State.moved_core_of_ne s c core word he] at hpc
        rw [State.moved_lag_of_ne s c core word hd he]
        exact hs.lagging d e r11 k hwin (hs.word_of_ne hmove he hword) hpc

/-- What the word says in every reachable state. -/
theorem claimed_of_reachable {s : State n} (hs : (system n delay).Reachable s) :
    Claimed delay s :=
  hs.invariant claimed_init fun _ _ _ _ hc h => hc.step h

/-! ## Under the bound -/

/-- The word is the identity of the core at a holding position, and no core is about to store
over it. -/
def Exclusive (s : State n) : Prop :=
  ∀ c : Fin n, (s.core c).pc.holds →
    s.word = c + 1 ∧ ∀ d, (s.core d).pc.inWindow = false

/-- At most one core is at a holding position. -/
theorem Exclusive.eq {s : State n} (hs : Exclusive s) {c d : Fin n}
    (hc : (s.core c).pc.holds) (hd : (s.core d).pc.holds) : c = d :=
  Fin.ext (Nat.succ.inj ((hs c hc).1.symm.trans (hs d hd).1))

/-- One instruction that meets the bound keeps the lock exclusive. -/
theorem Exclusive.step {s s' : State n} {a : Label n} (hs : Exclusive s)
    (hclaimed : Claimed delay s) (hok : Timely (delay + 1) s a)
    (h : (system n delay).step s a = some s') : Exclusive s' := by
  rcases step_cases h with ⟨core, word, hmove, rfl⟩
  unfold Timely at hok
  generalize a.core = c at hmove hok
  intro d hd
  by_cases hdc : d = c
  · subst hdc
    rw [State.moved_core_self] at hd
    rcases hmove.holds (hclaimed.registers d) hd with ⟨hw, hself, hcases⟩
    have hall : s.word = d + 1 ∧ ∀ e, e ≠ d → (s.core e).pc.inWindow = false := by
      rcases hcases with hold | ⟨hword, r11, k, hpc, hk⟩
      · exact ⟨(hs d hold).1, fun e _ => (hs d hold).2 e⟩
      · refine ⟨hword, fun e he => ?_⟩
        by_contra hwin
        rw [Bool.not_eq_false] at hwin
        -- a core that is left in the window has seen more than the bound allows
        have hlag := hclaimed.lagging e d r11 k hwin hword hpc
        have hbound := hok e he hwin
        omega
    refine ⟨hw.trans hall.1, fun e => ?_⟩
    by_cases he : e = d
    · subst he
      rw [State.moved_core_self]
      exact hself
    · rw [State.moved_core_of_ne s d core word he]
      exact hall.2 e he
  · rw [State.moved_core_of_ne s c core word hdc] at hd
    rcases hs d hd with ⟨hword, hwin⟩
    have hw : word = s.word := by
      rcases hmove.word_cases (hclaimed.registers c) with hw | ⟨hc, -⟩ | ⟨hc, -⟩
      · exact hw
      · rw [hwin c] at hc
        cases hc
      · exact absurd (hs.eq hd (by rw [hc]; trivial)) hdc
    refine ⟨hw.trans hword, fun e => ?_⟩
    by_cases he : e = c
    · subst he
      rw [State.moved_core_self]
      by_contra hnew
      rw [Bool.not_eq_false] at hnew
      rcases hmove.inWindow hnew with ⟨-, hold | hzero⟩
      · rw [hwin e] at hold
        cases hold
      · exact absurd (hzero.symm.trans hword) (Nat.succ_ne_zero d).symm
    · rw [State.moved_core_of_ne s c core word he]
      exact hwin e

/-- In every state that is reached within the bound, the lock is exclusive. -/
theorem exclusive_of_reachable {s : State n}
    (hs : (timelySystem n delay (delay + 1)).Reachable s) : Exclusive s := by
  refine hs.invariant (P := Exclusive) ?_ ?_
  · intro c hc
    exact False.elim hc
  intro s a s' hr he h
  rcases System.guarded_step.mp h with ⟨hok, h⟩
  exact he.step (claimed_of_reachable hr.of_guarded) hok h

/-! ## Refinement -/

/-- The lock is taken by the instruction that gets a core to its critical section, and given
back by {lit}`spinlock_release`. -/
def events (delay : Nat) (s : State n) : Label n → List (LockMove (Fin n))
  | .release c => [.release c]
  | .instruction c =>
      match execute delay (s.core c).function c s.word (s.core c).pc with
      | some (.critical, _) => [.acquire c]
      | _ => []
  | .call _ _ | .work _ => []

/-- An instruction that gets a core to its critical section starts at a holding position. -/
theorem Move.holds_of_critical {id w w' : Nat} {core : Core} {f : LockFunction}
    (h : Move delay id core w ⟨f, .critical⟩ w') : core.pc.holds := by
  cases h with
  | work _ _ _ => trivial
  | retTaken r0 w h => exact h
  | taken f value w h => exact h

/-- A step of a core within the bound is a move of the atomic lock or none. -/
theorem lockStep_of_step {s s' : State n} {a : Label n} (hs : Exclusive s)
    (h : (system n delay).step s a = some s') :
    LockStep Core.IsCritical s.core s'.core (events delay s a) := by
  cases a with
  | call c f =>
      rcases Option.ite_none_right_eq_some.mp h with ⟨hpc, h⟩
      cases h
      exact .keep c ⟨f, .entry⟩ rfl (by simp [Core.IsCritical, hpc])
  | work c =>
      rcases Option.ite_none_right_eq_some.mp h with ⟨hpc, h⟩
      cases h
      exact .keep c (s.core c) rfl Iff.rfl
  | release c =>
      rcases Option.ite_none_right_eq_some.mp h with ⟨hpc, h⟩
      cases h
      exact .release c ⟨(s.core c).function, .outside⟩ rfl hpc (by simp [Core.IsCritical])
  | instruction c =>
      rcases Option.map_eq_some_iff.mp h with ⟨⟨pc, word⟩, hexec, rfl⟩
      have hnot : (s.core c).pc ≠ .critical := by
        intro hpc
        rw [hpc] at hexec
        cases hexec
      by_cases hcrit : pc = .critical
      · subst hcrit
        have hholds : (s.core c).pc.holds := (Move.of_execute hexec).holds_of_critical
        simp only [events, hexec]
        refine .acquire c ⟨(s.core c).function, .critical⟩ rfl (fun u hu => ?_) rfl
        have huc : u = c := hs.eq (by rw [hu]; trivial) hholds
        exact hnot (huc ▸ hu)
      · simp only [events, hexec]
        have hkeep : LockStep Core.IsCritical s.core
            (s.moved c ⟨(s.core c).function, pc⟩ word).core [] :=
          .keep c ⟨(s.core c).function, pc⟩ rfl (iff_of_false hcrit hnot)
        cases pc with
        | critical => exact absurd rfl hcrit
        | _ => exact hkeep

/-- The spinlock refines the atomic lock when every core, between its load and its store of
the word, sees at most one more instruction of each other core than there are {lit}`nop`s. -/
theorem spinlock_simulation (n delay : Nat) :
    System.Simulation (timelySystem n delay (delay + 1)) (atomicLock (Fin n)) (events delay)
      LockMove.events fun s owner => OwnedBy owner Core.IsCritical s.core :=
  atomicLock_simulation (fun t ht => by cases ht) fun _ _ _ hs h =>
    lockStep_of_step (exclusive_of_reachable hs) (System.guarded_step.mp h).2

end Spinlock
end LibDispatch
