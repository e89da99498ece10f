import LibDispatch.Library.Ownership
import Mathlib.Data.Fintype.Basic

/-!
# The instructions of the spinlock

This module embeds {lit}`spinlock.c` and {lit}`spinlock_asm.S`, one instruction a step, for any
number of cores.  {lit}`spinlock_try_acquire` reads the lock word, stores its own identity
plus one if the word was zero, executes {lit}`delay` instructions {lit}`nop`, and has the lock
if it then reads its own identity back.

Nothing orders the load of one core with the store of another: two cores that both read
zero both store.  The nops decide the race only if every core that has read zero stores
before a rival has executed too many instructions.  {lit}`lag` counts the instructions that
a core has executed since another has read the word; it is read by no instruction, and
{lit}`Timely` bounds it.

Main results:

- Theorem {lit}`step_cases`: every step is one instruction of one core.
-/

namespace LibDispatch
namespace Spinlock

/-! ## State -/

/-- The functions that take the lock. -/
inductive LockFunction where
  /-- {lit}`spinlock_acquire` -/
  | acquire
  /-- {lit}`spinlock_try_acquire` -/
  | tryAcquire
deriving DecidableEq, Repr

/-- Positions of a core, with the registers that are live. -/
inductive Pc where
  /-- In code that neither holds nor wants the lock. -/
  | outside
  /-- {lit}`ENTSP_lu6 0` -/
  | entry
  /-- {lit}`get r11, id` -/
  | getId
  /-- {lit}`add r11, r11, 1` -/
  | addOne (r11 : Nat)
  /-- {lit}`ldw r1, r0[0]` -/
  | load (r11 : Nat)
  /-- {lit}`bt r1, .Lfailed` -/
  | branch (r11 r1 : Nat)
  /-- {lit}`stw r11, r0[0]` -/
  | store (r11 : Nat)
  /-- {lit}`nop`, of which some have been executed, and {lit}`ldw r2, r0[0]` after the
  last. -/
  | nop (r11 executed : Nat)
  /-- {lit}`eq r0, r11, r2` -/
  | compare (r11 r2 : Nat)
  /-- {lit}`.Lfailed`: {lit}`ldc r0, 0` -/
  | failed
  /-- {lit}`retsp 0` -/
  | retsp (r0 : Nat)
  /-- {lit}`spinlock_acquire`: {lit}`while (value == SPINLOCK_NOT_ACQUIRED)`, counted as one
  instruction; the call of {lit}`spinlock_try_acquire` in the loop counts as none. -/
  | test (value : Nat)
  /-- The core has the lock. -/
  | critical
deriving DecidableEq, Repr

/-- A core: the function it has called, and its position. -/
structure Core where
  function : LockFunction
  pc : Pc
deriving DecidableEq, Repr

/-- The lock word and the cores. -/
structure State (n : Nat) where
  /-- {lit}`*lock` -/
  word : Nat
  core : Fin n → Core
  /-- Instructions that the second core has executed since the first has read the word.  No
  instruction depends on it. -/
  lag : Fin n → Fin n → Nat

/-- What a core does next. -/
inductive Label (n : Nat) where
  /-- It calls a function that takes the lock. -/
  | call (c : Fin n) (f : LockFunction)
  /-- The next instruction of the function. -/
  | instruction (c : Fin n)
  /-- It executes an instruction of its own code. -/
  | work (c : Fin n)
  /-- {lit}`spinlock_release` -/
  | release (c : Fin n)
deriving DecidableEq, Repr

/-- The core that a step is of. -/
def Label.core {n : Nat} : Label n → Fin n
  | .call c _ | .instruction c | .work c | .release c => c

/-! ## Instructions -/

/-- {lit}`SPINLOCK_INITIAL_VALUE` -/
def initialValue : Nat := 0

/-- {lit}`SPINLOCK_NOT_ACQUIRED` -/
def notAcquired : Nat := 0

/-- The instructions {lit}`nop` of the source: six are left out if {lit}`__XS1B__` is
defined. -/
def nops (xs1b : Bool) : Nat :=
  if xs1b = true then 1 else 7

/-- One instruction of the function {lit}`f` on the core with the given identity: the new
position and the new word. -/
def execute (delay : Nat) (f : LockFunction) (id word : Nat) : Pc → Option (Pc × Nat)
  | .outside | .critical => none
  | .entry => some (.getId, word)
  | .getId => some (.addOne id, word)
  | .addOne r11 => some (.load (r11 + 1), word)
  | .load r11 => some (.branch r11 word, word)
  | .branch r11 r1 => some (if r1 ≠ 0 then .failed else .store r11, word)
  | .store r11 => some (.nop r11 0, r11)
  | .nop r11 executed =>
      some (if executed < delay then .nop r11 (executed + 1) else .compare r11 word, word)
  | .compare r11 r2 => some (.retsp (if r11 = r2 then 1 else 0), word)
  | .failed => some (.retsp 0, word)
  | .retsp r0 =>
      match f with
      | .acquire => some (.test r0, word)
      | .tryAcquire => some (if r0 = notAcquired then .outside else .critical, word)
  | .test value => some (if value = notAcquired then .entry else .critical, word)

variable {n : Nat}

/-- The core has read the word and found zero, and has not stored. -/
def Pc.inWindow : Pc → Bool
  | .branch _ r1 => r1 = 0
  | .store _ => true
  | _ => false

/-- The count of the instructions of a rival, after an instruction that gets its core to a
position: it starts again after the load. -/
def Pc.count (lag : Nat) : Pc → Nat
  | .branch _ _ => 0
  | _ => lag

/-- Core {lit}`c` has executed an instruction. -/
def State.moved (s : State n) (c : Fin n) (core : Core) (word : Nat) : State n where
  word := word
  core := Function.update s.core c core
  lag a b :=
    if a = c then core.pc.count (s.lag a b)
    else if b = c then s.lag a b + 1 else s.lag a b

/-- One step. -/
def step (delay : Nat) (s : State n) : Label n → Option (State n)
  | .call c f =>
      if (s.core c).pc = .outside then some (s.moved c ⟨f, .entry⟩ s.word) else none
  | .instruction c =>
      (execute delay (s.core c).function c s.word (s.core c).pc).map fun next =>
        s.moved c ⟨(s.core c).function, next.1⟩ next.2
  | .work c =>
      if (s.core c).pc = .outside ∨ (s.core c).pc = .critical then
        some (s.moved c (s.core c) s.word)
      else none
  | .release c =>
      if (s.core c).pc = .critical then
        some (s.moved c ⟨(s.core c).function, .outside⟩ initialValue)
      else none

/-- {lit}`spinlock_create`, and {lit}`n` cores that do not want the lock. -/
def system (n delay : Nat) : System (State n) (Label n) where
  init := ⟨initialValue, fun _ => ⟨.acquire, .outside⟩, fun _ _ => 0⟩
  step := step delay

/-- Every other core that has found zero and has not stored has seen fewer than {lit}`bound`
instructions of the core that goes on. -/
def Timely (bound : Nat) (s : State n) (a : Label n) : Prop :=
  ∀ c, c ≠ a.core → (s.core c).pc.inWindow = true → s.lag c a.core < bound

instance (bound : Nat) (s : State n) (a : Label n) : Decidable (Timely bound s a) :=
  inferInstanceAs (Decidable (∀ c, c ≠ a.core → (s.core c).pc.inWindow = true →
    s.lag c a.core < bound))

/-- The cores, each of which executes at most {lit}`bound` instructions between the load and
the store of another. -/
def timelySystem (n delay bound : Nat) : System (State n) (Label n) :=
  (system n delay).guarded (Timely bound)

/-! ## The instructions, case by case -/

/-- What one step does to the position of the core with the given identity and to the
word. -/
inductive Move (delay id : Nat) : Core → Nat → Core → Nat → Prop where
  | call (f f' : LockFunction) (w : Nat) : Move delay id ⟨f, .outside⟩ w ⟨f', .entry⟩ w
  | work (core : Core) (w : Nat) (hpc : core.pc = .outside ∨ core.pc = .critical) :
      Move delay id core w core w
  | release (f : LockFunction) (w : Nat) :
      Move delay id ⟨f, .critical⟩ w ⟨f, .outside⟩ initialValue
  | entry (f : LockFunction) (w : Nat) : Move delay id ⟨f, .entry⟩ w ⟨f, .getId⟩ w
  | getId (f : LockFunction) (w : Nat) : Move delay id ⟨f, .getId⟩ w ⟨f, .addOne id⟩ w
  | addOne (f : LockFunction) (r11 w : Nat) :
      Move delay id ⟨f, .addOne r11⟩ w ⟨f, .load (r11 + 1)⟩ w
  | load (f : LockFunction) (r11 w : Nat) : Move delay id ⟨f, .load r11⟩ w ⟨f, .branch r11 w⟩ w
  | branchTaken (f : LockFunction) (r11 r1 w : Nat) (h : r1 ≠ 0) :
      Move delay id ⟨f, .branch r11 r1⟩ w ⟨f, .failed⟩ w
  | branchNot (f : LockFunction) (r11 w : Nat) :
      Move delay id ⟨f, .branch r11 0⟩ w ⟨f, .store r11⟩ w
  | store (f : LockFunction) (r11 w : Nat) :
      Move delay id ⟨f, .store r11⟩ w ⟨f, .nop r11 0⟩ r11
  | nop (f : LockFunction) (r11 k w : Nat) (h : k < delay) :
      Move delay id ⟨f, .nop r11 k⟩ w ⟨f, .nop r11 (k + 1)⟩ w
  | reload (f : LockFunction) (r11 k w : Nat) (h : ¬ k < delay) :
      Move delay id ⟨f, .nop r11 k⟩ w ⟨f, .compare r11 w⟩ w
  | compare (f : LockFunction) (r11 r2 w : Nat) :
      Move delay id ⟨f, .compare r11 r2⟩ w ⟨f, .retsp (if r11 = r2 then 1 else 0)⟩ w
  | failed (f : LockFunction) (w : Nat) : Move delay id ⟨f, .failed⟩ w ⟨f, .retsp 0⟩ w
  | retAcquire (r0 w : Nat) :
      Move delay id ⟨.acquire, .retsp r0⟩ w ⟨.acquire, .test r0⟩ w
  | retFailed (w : Nat) :
      Move delay id ⟨.tryAcquire, .retsp 0⟩ w ⟨.tryAcquire, .outside⟩ w
  | retTaken (r0 w : Nat) (h : r0 ≠ 0) :
      Move delay id ⟨.tryAcquire, .retsp r0⟩ w ⟨.tryAcquire, .critical⟩ w
  | again (f : LockFunction) (w : Nat) : Move delay id ⟨f, .test 0⟩ w ⟨f, .entry⟩ w
  | taken (f : LockFunction) (value w : Nat) (h : value ≠ 0) :
      Move delay id ⟨f, .test value⟩ w ⟨f, .critical⟩ w

/-- Every instruction is one of the listed ones. -/
theorem Move.of_execute {delay id word word' : Nat} {f : LockFunction} {pc pc' : Pc}
    (h : execute delay f id word pc = some (pc', word')) :
    Move delay id ⟨f, pc⟩ word ⟨f, pc'⟩ word' := by
  cases pc with
  | outside => cases h
  | critical => cases h
  | entry =>
      cases h
      exact .entry f word
  | getId =>
      cases h
      exact .getId f word
  | addOne r11 =>
      cases h
      exact .addOne f r11 word
  | load r11 =>
      cases h
      exact .load f r11 word
  | branch r11 r1 =>
      by_cases hr1 : r1 = 0
      · subst hr1
        cases h
        exact .branchNot f r11 word
      · simp only [execute, ne_eq, hr1, not_false_eq_true, if_true, Option.some.injEq,
          Prod.mk.injEq] at h
        rcases h with ⟨rfl, rfl⟩
        exact .branchTaken f r11 r1 word hr1
  | store r11 =>
      cases h
      exact .store f _ word
  | nop r11 k =>
      by_cases hk : k < delay
      · simp only [execute, hk, if_true, Option.some.injEq, Prod.mk.injEq] at h
        rcases h with ⟨rfl, rfl⟩
        exact .nop f r11 k word hk
      · simp only [execute, hk, if_false, Option.some.injEq, Prod.mk.injEq] at h
        rcases h with ⟨rfl, rfl⟩
        exact .reload f r11 k word hk
  | compare r11 r2 =>
      cases h
      exact .compare f r11 r2 word
  | failed =>
      cases h
      exact .failed f word
  | retsp r0 =>
      cases f with
      | acquire =>
          cases h
          exact .retAcquire r0 word
      | tryAcquire =>
          by_cases hr0 : r0 = notAcquired
          · subst hr0
            cases h
            exact .retFailed word
          · simp only [execute, hr0, if_false, Option.some.injEq, Prod.mk.injEq] at h
            rcases h with ⟨rfl, rfl⟩
            exact .retTaken r0 word hr0
  | test value =>
      by_cases hv : value = notAcquired
      · subst hv
        cases h
        exact .again f word
      · simp only [execute, hv, if_false, Option.some.injEq, Prod.mk.injEq] at h
        rcases h with ⟨rfl, rfl⟩
        exact .taken f value word hv

/-- Everything that one step does. -/
theorem step_cases {delay : Nat} {s s' : State n} {a : Label n}
    (h : (system n delay).step s a = some s') :
    ∃ core word, Move delay a.core (s.core a.core) s.word core word ∧
      s' = s.moved a.core core word := by
  cases a with
  | call c f =>
      rcases Option.ite_none_right_eq_some.mp h with ⟨hpc, h⟩
      refine ⟨⟨f, .entry⟩, s.word, ?_, (Option.some.inj h).symm⟩
      have hcore : s.core c = ⟨(s.core c).function, .outside⟩ := by rw [← hpc]
      exact hcore ▸ Move.call _ f s.word
  | instruction c =>
      rcases Option.map_eq_some_iff.mp h with ⟨⟨pc, word⟩, hexec, rfl⟩
      exact ⟨⟨(s.core c).function, pc⟩, word, .of_execute hexec, rfl⟩
  | work c =>
      rcases Option.ite_none_right_eq_some.mp h with ⟨hpc, h⟩
      exact ⟨s.core c, s.word, .work _ _ hpc, (Option.some.inj h).symm⟩
  | release c =>
      rcases Option.ite_none_right_eq_some.mp h with ⟨hpc, h⟩
      refine ⟨⟨(s.core c).function, .outside⟩, initialValue, ?_, (Option.some.inj h).symm⟩
      have hcore : s.core c = ⟨(s.core c).function, .critical⟩ := by rw [← hpc]
      exact hcore ▸ Move.release _ s.word

end Spinlock
end LibDispatch
