import Mathlib.Data.List.Basic
import Mathlib.Tactic.Ring

/-!
# The stacks of the bare-metal workers

{lit}`dispatch_queue_create` allocates one block for the stacks of all workers and
{lit}`dispatch_queue_init` cuts it up.  The size of a stack is in words: the offset of the
next stack and the length given to {lit}`stack_base` count it so, but the allocation takes it
for a number of bytes.  The stacks do not overlap, and only a quarter of them fits.

Main results:

- Theorem {lit}`getElem?_initLoop`: the closed form of the offsets.
- Theorem {lit}`pairwise_initLoop`: the stacks are disjoint.
- Theorem {lit}`worker_stacks`: which of them lie inside the block.
-/

namespace LibDispatch
namespace Metal

/-! ## The two functions -/

/-- The range of {lit}`size_t`. -/
def sizeRange : Nat :=
  2 ^ 32

/-- The largest {lit}`int`, plus one. -/
def intRange : Nat :=
  2 ^ 31

/-- {lit}`sizeof(int)`, which is also the size of a word. -/
def sizeofInt : Nat :=
  4

/-- {lit}`stack_base(p, n)`: the stack of {lit}`words` words from {lit}`p`, which is {lit}`offset`
bytes into {lit}`thread_stack`. -/
structure StackRegion where
  offset : Nat
  words : Nat
deriving DecidableEq, Repr

/-- The number of bytes from {lit}`thread_stack` to the end of the stack. -/
def StackRegion.stop (r : StackRegion) : Nat :=
  r.offset + r.words * sizeofInt

/-- No byte belongs to both stacks. -/
def StackRegion.Disjoint (r r' : StackRegion) : Prop :=
  r.stop ≤ r'.offset ∨ r'.stop ≤ r.offset

/-- The stack lies inside a block of {lit}`size` bytes. -/
def StackRegion.Inside (r : StackRegion) (size : Nat) : Prop :=
  r.stop ≤ size

instance (r r' : StackRegion) : Decidable (r.Disjoint r') :=
  inferInstanceAs (Decidable (_ ∨ _))

instance (r : StackRegion) (size : Nat) : Decidable (r.Inside size) :=
  inferInstanceAs (Decidable (_ ≤ _))

/-- The size that {lit}`dispatch_queue_create` passes to {lit}`dispatch_malloc` for
{lit}`thread_stack`. -/
def threadStackAllocation (threadCount threadStackSize : Nat) : Nat :=
  threadStackSize * threadCount % sizeRange

/-- The loop of {lit}`dispatch_queue_init` with {lit}`remaining` workers still to be started:
the stacks passed to {lit}`run_async`. -/
def initLoop (threadStackSize : Nat) : (remaining stackOffset : Nat) → List StackRegion
  | 0, _ => []
  | remaining + 1, stackOffset =>
      ⟨stackOffset, threadStackSize⟩ ::
        initLoop threadStackSize remaining
          ((stackOffset + threadStackSize * sizeofInt) % sizeRange)

/-- The stacks of the workers that {lit}`dispatch_queue_init` starts. -/
def dispatchQueueInitStacks (threadCount threadStackSize : Nat) : List StackRegion :=
  initLoop threadStackSize threadCount 0

/-- Neither the offset nor the size of the allocation overflows. -/
def NoOverflow (threadCount threadStackSize : Nat) : Prop :=
  threadCount * (threadStackSize * sizeofInt) < intRange

instance (threadCount threadStackSize : Nat) :
    Decidable (NoOverflow threadCount threadStackSize) :=
  inferInstanceAs (Decidable (_ < _))

/-! ## Where the stacks are -/

section Loop

variable {threadStackSize : Nat}

/-- The offset grows by the bytes of one stack in each turn. -/
theorem getElem?_initLoop (remaining : Nat) : ∀ {stackOffset i : Nat} {r : StackRegion},
    stackOffset + remaining * (threadStackSize * sizeofInt) < sizeRange →
    (initLoop threadStackSize remaining stackOffset)[i]? = some r →
    i < remaining ∧ r = ⟨stackOffset + i * (threadStackSize * sizeofInt), threadStackSize⟩ := by
  induction remaining with
  | zero =>
      intro stackOffset i r _ hi
      simp [initLoop] at hi
  | succ remaining ih =>
      intro stackOffset i r hlt hi
      rw [Nat.add_mul, Nat.one_mul] at hlt
      cases i with
      | zero =>
          simp only [initLoop, List.getElem?_cons_zero, Option.some.injEq] at hi
          exact ⟨Nat.succ_pos remaining, by simp [hi]⟩
      | succ i =>
          simp only [initLoop, List.getElem?_cons_succ] at hi
          rw [Nat.mod_eq_of_lt (by omega)] at hi
          rcases ih (by omega) hi with ⟨hlt', rfl⟩
          refine ⟨by omega, ?_⟩
          rw [Nat.add_mul, Nat.one_mul]
          congr 1
          omega

/-- Every later stack starts where an earlier one has ended. -/
theorem pairwise_initLoop {remaining stackOffset : Nat}
    (hlt : stackOffset + remaining * (threadStackSize * sizeofInt) < sizeRange) :
    (initLoop threadStackSize remaining stackOffset).Pairwise StackRegion.Disjoint := by
  rw [List.pairwise_iff_getElem]
  intro i j hi hj hij
  have h₁ := getElem?_initLoop remaining hlt (List.getElem?_eq_getElem hi)
  have h₂ := getElem?_initLoop remaining hlt (List.getElem?_eq_getElem hj)
  left
  rw [h₁.2, h₂.2]
  change stackOffset + i * (threadStackSize * sizeofInt) + threadStackSize * sizeofInt ≤
    stackOffset + j * (threadStackSize * sizeofInt)
  have hmul := Nat.mul_le_mul_right (threadStackSize * sizeofInt) (Nat.succ_le_of_lt hij)
  rw [Nat.succ_mul] at hmul
  omega

end Loop

theorem length_initLoop (threadStackSize remaining : Nat) : ∀ stackOffset : Nat,
    (initLoop threadStackSize remaining stackOffset).length = remaining := by
  induction remaining with
  | zero => exact fun _ => rfl
  | succ remaining ih => exact fun stackOffset => congrArg (· + 1) (ih _)

/-- The stacks of the workers are disjoint, and that of worker {lit}`i` lies inside the block
that was allocated exactly when four times the stacks up to it are not more than the
workers.  So for no number of workers and no size do all of them lie inside. -/
theorem worker_stacks {threadCount threadStackSize : Nat} (hcount : 0 < threadCount)
    (hsize : 0 < threadStackSize) (hfits : NoOverflow threadCount threadStackSize) :
    (dispatchQueueInitStacks threadCount threadStackSize).Pairwise StackRegion.Disjoint ∧
    (∀ (i : Nat) (r : StackRegion),
      (dispatchQueueInitStacks threadCount threadStackSize)[i]? = some r →
      (r.Inside (threadStackAllocation threadCount threadStackSize) ↔
        4 * (i + 1) ≤ threadCount)) ∧
    ¬ ((dispatchQueueInitStacks threadCount threadStackSize).Pairwise StackRegion.Disjoint ∧
      ∀ r ∈ dispatchQueueInitStacks threadCount threadStackSize,
        r.Inside (threadStackAllocation threadCount threadStackSize)) := by
  have hlt : 0 + threadCount * (threadStackSize * sizeofInt) < sizeRange := by
    have hrange : intRange ≤ sizeRange := by decide
    rw [NoOverflow] at hfits
    omega
  have hinside : ∀ (i : Nat) (r : StackRegion),
      (dispatchQueueInitStacks threadCount threadStackSize)[i]? = some r →
      (r.Inside (threadStackAllocation threadCount threadStackSize) ↔
        4 * (i + 1) ≤ threadCount) := by
    intro i r hr
    rcases getElem?_initLoop threadCount hlt hr with ⟨-, rfl⟩
    have halloc : threadStackAllocation threadCount threadStackSize =
        threadCount * threadStackSize := by
      rw [threadStackAllocation, Nat.mul_comm, Nat.mod_eq_of_lt]
      refine Nat.lt_of_le_of_lt ?_ hlt
      rw [Nat.zero_add]
      exact Nat.mul_le_mul_left threadCount (Nat.le_mul_of_pos_right _ (by decide))
    have hstop : 0 + i * (threadStackSize * sizeofInt) + threadStackSize * sizeofInt =
        4 * (i + 1) * threadStackSize := by
      simp only [sizeofInt]
      ring
    rw [StackRegion.Inside, StackRegion.stop, halloc]
    simp only [hstop]
    exact Nat.mul_le_mul_right_iff hsize
  refine ⟨pairwise_initLoop hlt, hinside, ?_⟩
  rintro ⟨-, hall⟩
  have hlen : threadCount - 1 <
      (dispatchQueueInitStacks threadCount threadStackSize).length := by
    rw [dispatchQueueInitStacks, length_initLoop]
    omega
  have hlast := (hinside _ _ (List.getElem?_eq_getElem hlen)).mp (hall _ (List.getElem_mem hlen))
  omega

/-- Four workers with stacks of 256 words: the first stack fits, the others do not. -/
theorem worker_stacks_four :
    (dispatchQueueInitStacks 4 256).Pairwise StackRegion.Disjoint ∧
    (∀ (i : Nat) (r : StackRegion), (dispatchQueueInitStacks 4 256)[i]? = some r →
      (r.Inside (threadStackAllocation 4 256) ↔ 4 * (i + 1) ≤ 4)) ∧
    ¬ ((dispatchQueueInitStacks 4 256).Pairwise StackRegion.Disjoint ∧
      ∀ r ∈ dispatchQueueInitStacks 4 256, r.Inside (threadStackAllocation 4 256)) :=
  worker_stacks (by decide) (by decide) (by decide)

/-- One worker with a stack of 256 words is given a block of 256 bytes. -/
theorem worker_stacks_overrun :
    ¬ ((dispatchQueueInitStacks 1 256).Pairwise StackRegion.Disjoint ∧
      ∀ r ∈ dispatchQueueInitStacks 1 256, r.Inside (threadStackAllocation 1 256)) := by
  decide

end Metal
end LibDispatch
