import Mathlib.Algebra.BigOperators.Group.Finset.Basic
import Mathlib.Algebra.Order.BigOperators.Group.Finset
import Mathlib.Data.Fintype.BigOperators

/-!
# Tallies over threads

A tally adds up a weight of the local states of finitely many threads.  Conservation
laws of concurrent programs are equations between tallies and counters, and a step of
one thread changes a tally by the difference of two weights.

Main results:

- Theorem {lit}`tally_update`: what a step of one thread does to a tally.
- Theorem {lit}`tally_two_le`: two threads contribute at most the tally.
- Theorem {lit}`countP_notMem_append`: counting the members of a list that are not in
  a growing list.
-/

universe u v

variable {ι : Type u} {κ : Type v} [Fintype ι]

/-- The total weight of the local states of all threads. -/
def tally (w : κ → Nat) (f : ι → κ) : Nat :=
  ∑ u, w (f u)

/-- A thread contributes at most the tally. -/
theorem le_tally (w : κ → Nat) (f : ι → κ) (u : ι) : w (f u) ≤ tally w f :=
  Finset.single_le_sum (fun v _ => Nat.zero_le (w (f v))) (Finset.mem_univ u)

/-- A positive tally has a contributor. -/
theorem tally_pos_iff {w : κ → Nat} {f : ι → κ} : 0 < tally w f ↔ ∃ u, 0 < w (f u) := by
  rw [tally, Finset.sum_pos_iff]
  simp

theorem tally_eq_zero_iff {w : κ → Nat} {f : ι → κ} : tally w f = 0 ↔ ∀ u, w (f u) = 0 := by
  rw [tally, Finset.sum_eq_zero_iff]
  simp

/-- Tallies are monotone in the weight. -/
theorem tally_le_tally {w w' : κ → Nat} {f : ι → κ} (h : ∀ u, w (f u) ≤ w' (f u)) :
    tally w f ≤ tally w' f :=
  Finset.sum_le_sum fun u _ => h u

variable [DecidableEq ι]

/-- A step of one thread replaces its weight. -/
theorem tally_update (w : κ → Nat) (f : ι → κ) (u : ι) (k : κ) :
    tally w (Function.update f u k) + w (f u) = tally w f + w k := by
  have hcomp : (fun v => w (Function.update f u k v)) =
      Function.update (fun v => w (f v)) u (w k) := by
    funext v
    by_cases hv : v = u
    · simp [hv]
    · simp [hv]
  have hold := Finset.add_sum_erase Finset.univ (fun v => w (f v)) (Finset.mem_univ u)
  rw [tally, tally, hcomp, Finset.sum_update_of_mem (Finset.mem_univ u),
    Finset.sdiff_singleton_eq_erase, ← hold]
  omega

/-- Two threads contribute at most the tally. -/
theorem tally_two_le (w : κ → Nat) (f : ι → κ) {u v : ι} (h : u ≠ v) :
    w (f u) + w (f v) ≤ tally w f := by
  have hsub : ({u, v} : Finset ι) ⊆ Finset.univ := Finset.subset_univ _
  calc w (f u) + w (f v) = ∑ x ∈ ({u, v} : Finset ι), w (f x) := by
        rw [Finset.sum_pair h]
    _ ≤ tally w f := Finset.sum_le_sum_of_subset hsub

/-- If the tally is at most one, at most one thread contributes. -/
theorem tally_unique {w : κ → Nat} {f : ι → κ} (h : tally w f ≤ 1) {u v : ι}
    (hu : 0 < w (f u)) (hv : 0 < w (f v)) : u = v := by
  by_contra hne
  have := tally_two_le w f hne
  omega

/-! ## Members still missing from a growing list -/

section Missing

variable {α : Type u} [DecidableEq α] {l s : List α} {x : α}

/-- An element that is not a member does not change the number of missing members. -/
theorem countP_notMem_append_of_notMem (hx : x ∉ l) :
    l.countP (fun y => decide (y ∉ s ++ [x])) = l.countP (fun y => decide (y ∉ s)) := by
  refine List.countP_congr fun y hy => ?_
  have hne : y ≠ x := ne_of_mem_of_not_mem hy hx
  simp [hne]

/-- A missing member that joins reduces the number of missing members by one. -/
theorem countP_notMem_append (hl : l.Nodup) (hx : x ∈ l) (hs : x ∉ s) :
    l.countP (fun y => decide (y ∉ s ++ [x])) + 1 =
      l.countP (fun y => decide (y ∉ s)) := by
  induction l with
  | nil => cases hx
  | cons y l ih =>
      rcases List.nodup_cons.mp hl with ⟨hy, hl'⟩
      by_cases heq : x = y
      · subst heq
        have hrest := countP_notMem_append_of_notMem (s := s) hy
        simp only [List.countP_cons, hrest]
        simp [hs]
      · have hmem : x ∈ l := by simpa [heq] using hx
        have hrest := ih hl' hmem
        have hne : y ≠ x := fun h => heq h.symm
        simp only [List.countP_cons, List.mem_append, List.mem_singleton, hne, or_false]
          at hrest ⊢
        omega

end Missing
