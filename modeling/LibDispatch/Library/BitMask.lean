import Mathlib.Logic.Basic

/-!
# Bit masks

Words used as sets of small numbers: setting and clearing one member, and testing that
all members below a bound are there.

Main results:

- Theorems {lit}`getLsbD_set` and {lit}`getLsbD_clear`: setting and clearing a bit changes
  that bit only.
- Theorem {lit}`and_lowMask_eq_iff`: the test with a mask of the lowest bits says that each
  of them is set.
-/

namespace BitMask

variable {w n i j : Nat}

/-- The word whose only bit is the one at a position. -/
def bit (w i : Nat) : BitVec w :=
  1#w <<< i

/-- The word whose bits are those below a bound. -/
def lowMask (w n : Nat) : BitVec w :=
  BitVec.allOnes w >>> (w - n)

theorem getLsbD_bit (hi : i < w) : (bit w i).getLsbD j = decide (j = i) := by
  rw [bit, BitVec.getLsbD_shiftLeft, BitVec.getLsbD_one]
  by_cases hj : j = i
  · subst hj
    have hpos : 0 < w := by omega
    simp [hi, hpos]
  · have hlow : (decide (j < w) && !decide (j < i) && (decide (0 < w) && decide (j - i = 0))) =
        false := by
      by_cases hlt : j < i
      · simp [hlt]
      · have hne : j - i ≠ 0 := by omega
        simp [hne]
    simpa [hj] using hlow

theorem getLsbD_lowMask (hn : n ≤ w) : (lowMask w n).getLsbD j = decide (j < n) := by
  rw [lowMask, BitVec.getLsbD_ushiftRight, BitVec.getLsbD_allOnes]
  have hiff : w - n + j < w ↔ j < n := by omega
  simp [hiff]

/-- Setting one bit. -/
theorem getLsbD_set (b : BitVec w) (hi : i < w) :
    (b ||| bit w i).getLsbD j = (b.getLsbD j || decide (j = i)) := by
  rw [BitVec.getLsbD_or, getLsbD_bit hi]

/-- Clearing one bit. -/
theorem getLsbD_clear (b : BitVec w) (hi : i < w) :
    (b &&& ~~~ bit w i).getLsbD j = (b.getLsbD j && !decide (j = i)) := by
  rw [BitVec.getLsbD_and, BitVec.getLsbD_not, getLsbD_bit hi]
  by_cases hj : j < w
  · simp [hj]
  · have hout := BitVec.getLsbD_of_ge b j (by omega)
    simp [hout]

/-- The lowest bits are set one by one when they are set as a mask. -/
theorem and_lowMask_eq_iff (b : BitVec w) (hn : n ≤ w) :
    b &&& lowMask w n = lowMask w n ↔ ∀ i, i < n → b.getLsbD i = true := by
  constructor
  · intro h i hi
    have hbit := congrArg (fun x => x.getLsbD i) h
    simp only [BitVec.getLsbD_and, getLsbD_lowMask hn, hi, decide_true, Bool.and_true] at hbit
    exact hbit
  · intro h
    apply BitVec.eq_of_getLsbD_eq
    intro i _
    rw [BitVec.getLsbD_and, getLsbD_lowMask hn]
    by_cases hi : i < n
    · simp [hi, h i hi]
    · simp [hi]

end BitMask
