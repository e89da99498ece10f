import Mathlib.Logic.Function.Basic
import Mathlib.Data.List.Basic
import Mathlib.Tactic.Ring

/-!
# Ring buffers with a full flag

A ring buffer of capacity {lit}`L` keeps two indices below {lit}`L` and a flag
that tells a full ring from an empty one when the indices meet.  The predicate
{lit}`RingBuffer.Holds` says which list such a ring holds; the lemmas below give
the effect of the two operations on it and read emptiness, fullness and size off
the indices.

Main results:

- Theorem {lit}`RingBuffer.Holds.push`: filling the slot at {lit}`head` of a ring
  that is not full appends an element.
- Theorem {lit}`RingBuffer.Holds.pop`: the slot at {lit}`tail` of a nonempty ring
  holds the oldest element, and advancing {lit}`tail` removes it.
- Theorem {lit}`RingBuffer.Holds.size_eq`: the size read off the indices is the
  length of the list.
- Theorem {lit}`RingBuffer.toNat_distance`: the distance of two indices is exact in machine
  arithmetic, whether or not the sum inside it wraps around.
-/

universe u

namespace RingBuffer

variable {α : Type u}

/-- An index below twice the capacity wraps around at most once. -/
theorem wrap_eq {L a : Nat} (h : a < 2 * L) : a % L = if a < L then a else a - L := by
  split_ifs with hlt
  · exact Nat.mod_eq_of_lt hlt
  · rw [Nat.mod_eq_sub_mod (Nat.le_of_not_lt hlt)]
    exact Nat.mod_eq_of_lt (by omega)

/-- The ring with the given indices and flag holds the list {lit}`xs`, oldest
element first. -/
structure Holds (L : Nat) (slot : Nat → Option α) (head tail : Nat) (full : Bool)
    (xs : List α) : Prop where
  tail_lt : tail < L
  head_eq : head = (tail + xs.length) % L
  length_le : xs.length ≤ L
  full_iff : full = true ↔ xs.length = L
  slot_eq : ∀ (i : Nat) (h : i < xs.length), slot ((tail + i) % L) = some xs[i]

namespace Holds

variable {L head tail : Nat} {slot : Nat → Option α} {full : Bool} {xs : List α}

/-- A new ring is empty. -/
theorem initial (hL : 0 < L) (slot : Nat → Option α) :
    Holds L slot 0 0 false ([] : List α) where
  tail_lt := hL
  head_eq := by simp
  length_le := Nat.zero_le L
  full_iff := by simp [hL.ne]
  slot_eq := by simp

theorem head_lt (h : Holds L slot head tail full xs) : head < L := by
  rw [h.head_eq]
  exact Nat.mod_lt _ (by have := h.tail_lt; omega)

/-- The wrapped form of {lit}`head`, without a remainder. -/
theorem head_cases (h : Holds L slot head tail full xs) :
    head = if tail + xs.length < L then tail + xs.length else tail + xs.length - L := by
  have htail := h.tail_lt
  have hlen := h.length_le
  rw [h.head_eq]
  exact wrap_eq (by omega)

/-- The indices of a nonfull ring meet exactly when it is empty. -/
theorem empty_iff (h : Holds L slot head tail full xs) :
    (full = false ∧ head = tail) ↔ xs = [] := by
  have htail := h.tail_lt
  have hlen := h.length_le
  have hfull := h.full_iff
  have hhead := h.head_cases
  rw [← List.length_eq_zero_iff]
  constructor
  · rintro ⟨hf, heq⟩
    have hne : xs.length ≠ L := fun hL => by simp [hfull.mpr hL] at hf
    split_ifs at hhead <;> omega
  · intro hzero
    refine ⟨?_, by split_ifs at hhead <;> omega⟩
    cases hf : full with
    | false => rfl
    | true =>
        have := hfull.mp hf
        omega

theorem length_lt (h : Holds L slot head tail full xs) (hfull : full = false) :
    xs.length < L := by
  refine Nat.lt_of_le_of_ne h.length_le fun hL => ?_
  rw [h.full_iff.mpr hL] at hfull
  cases hfull

/-- The size read off the indices. -/
theorem size_eq (h : Holds L slot head tail full xs) :
    (if full = false then
        if tail ≤ head then head - tail else L + head - tail
      else L) = xs.length := by
  have htail := h.tail_lt
  have hhead := h.head_cases
  split_ifs with hf
  · have := h.length_lt hf
    split_ifs at hhead <;> omega
  · have := h.length_lt hf
    split_ifs at hhead <;> omega
  · exact (h.full_iff.mp (by simpa using hf)).symm

/-- Writing the slot at {lit}`head` of a ring that is not full leaves the held list
unchanged: that slot is free. -/
theorem write_head (h : Holds L slot head tail full xs) (hfull : full = false) (v : α) :
    Holds L (Function.update slot head (some v)) head tail full xs where
  tail_lt := h.tail_lt
  head_eq := h.head_eq
  length_le := h.length_le
  full_iff := h.full_iff
  slot_eq i hi := by
    have htail := h.tail_lt
    have hlt := h.length_lt hfull
    have hhead := h.head_cases
    have hne : (tail + i) % L ≠ head := by
      rw [wrap_eq (by omega)]
      split_ifs at hhead ⊢ <;> omega
    rw [Function.update_of_ne hne]
    exact h.slot_eq i hi

/-- Advancing {lit}`head` over a written slot appends its element, and the new
flag is the comparison of the two indices. -/
theorem push (h : Holds L slot head tail full xs) (hfull : full = false) {v : α}
    (hv : slot head = some v) :
    Holds L slot ((head + 1) % L) tail (decide ((head + 1) % L = tail)) (xs ++ [v]) := by
  have htail := h.tail_lt
  have hlt := h.length_lt hfull
  have hhead := h.head_cases
  have hstep : (head + 1) % L = (tail + (xs.length + 1)) % L := by
    rw [h.head_eq, Nat.mod_add_mod, Nat.add_assoc]
  refine ⟨htail, by simpa using hstep, by simp; omega, ?_, ?_⟩
  · rw [decide_eq_true_iff, hstep, wrap_eq (by omega), List.length_append,
      List.length_singleton]
    split_ifs <;> omega
  · intro i hi
    rw [List.length_append, List.length_singleton] at hi
    rcases Nat.lt_or_ge i xs.length with hold | hnew
    · rw [List.getElem_append_left hold]
      exact h.slot_eq i hold
    · have heq : i = xs.length := by omega
      subst heq
      rw [← h.head_eq, hv]
      simp

/-- The slot at {lit}`tail` of a nonempty ring holds the oldest element. -/
theorem slot_tail {v : α} (h : Holds L slot head tail full (v :: xs)) :
    slot tail = some v := by
  have := h.slot_eq 0 (by simp)
  rwa [Nat.add_zero, Nat.mod_eq_of_lt h.tail_lt] at this

/-- Advancing {lit}`tail` removes the oldest element. -/
theorem pop {v : α} (h : Holds L slot head tail full (v :: xs)) :
    Holds L slot head ((tail + 1) % L) false xs := by
  have htail := h.tail_lt
  have hlen := h.length_le
  rw [List.length_cons] at hlen
  refine ⟨Nat.mod_lt _ (by omega), ?_, by omega, ?_, ?_⟩
  · rw [h.head_eq, Nat.mod_add_mod, List.length_cons]
    congr 1
    ring
  · constructor
    · intro hf
      cases hf
    · intro heq
      omega
  · intro i hi
    have := h.slot_eq (i + 1) (by simpa using hi)
    rw [Nat.mod_add_mod, Nat.add_assoc, Nat.add_comm 1 i]
    simpa using this

/-- The indices of a full ring meet. -/
theorem head_eq_tail (h : Holds L slot head tail full xs) (hfull : full = true) :
    head = tail := by
  rw [h.head_eq, h.full_iff.mp hfull, Nat.add_mod_right]
  exact Nat.mod_eq_of_lt h.tail_lt

/-- The flag of a ring that holds something is read off the indices. -/
theorem full_eq (h : Holds L slot head tail full xs) (hne : xs ≠ []) :
    full = decide (head = tail) := by
  cases hfull : full with
  | true => simpa using h.head_eq_tail hfull
  | false => simpa using fun heq => hne (h.empty_iff.mp ⟨hfull, heq⟩)

/-- A ring holds at most one list. -/
theorem unique {ys : List α} (h : Holds L slot head tail full xs)
    (h' : Holds L slot head tail full ys) : xs = ys := by
  have hlen : xs.length = ys.length := h.size_eq.symm.trans h'.size_eq
  refine List.ext_getElem hlen fun i hi hi' => ?_
  exact Option.some.inj ((h.slot_eq i hi).symm.trans (h'.slot_eq i hi'))

end Holds

/-! ## Indices in machine words -/

section Words

variable {w : Nat} {L i head tail : BitVec w}

/-- An index below the capacity can be incremented. -/
theorem toNat_succ (h : i.toNat < L.toNat) : (i + 1).toNat = i.toNat + 1 := by
  have hL := L.isLt
  have hone : (1 : BitVec w).toNat = 1 := by
    simp only [BitVec.ofNat_eq_ofNat, BitVec.toNat_ofNat]
    exact Nat.mod_eq_of_lt (by omega)
  rw [BitVec.toNat_add, hone]
  exact Nat.mod_eq_of_lt (by omega)

/-- The next index. -/
theorem toNat_advance (h : i.toNat < L.toNat) :
    ((i + 1) % L).toNat = (i.toNat + 1) % L.toNat := by
  rw [BitVec.toNat_umod, toNat_succ h]

/-- The distance from an index to an earlier one, around the end of the ring.  The sum
{lit}`L + head` may wrap around; the difference is exact all the same. -/
theorem toNat_distance (htail : tail.toNat < L.toNat) (h : head.toNat < tail.toNat) :
    (L + head - tail).toNat = L.toNat + head.toNat - tail.toNat := by
  have hL := L.isLt
  have hsum : 2 ^ w - tail.toNat + (L.toNat + head.toNat) =
      L.toNat + head.toNat - tail.toNat + 2 ^ w := by omega
  rw [BitVec.toNat_sub, BitVec.toNat_add, Nat.add_mod_mod, hsum, Nat.add_mod_right]
  exact Nat.mod_eq_of_lt (by omega)

end Words

end RingBuffer
