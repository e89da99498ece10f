import Mathlib.Logic.Function.Basic
import Mathlib.Data.List.Nodup

/-!
# Null-terminated pointer chains

A singly linked list in memory is a head pointer and a {lit}`next` field for each
node.  {lit}`Chain next p l` says that following the fields from {lit}`p` visits
the nodes {lit}`l` in this order and then reaches the null pointer.

Main results:

- Theorem {lit}`PointerChain.Chain.nodup`: a null-terminated chain visits no node
  twice, so it has no cycle.
- Theorem {lit}`PointerChain.Chain.link`: linking a fresh node in front.
- Theorem {lit}`PointerChain.Chain.frame`: fields of nodes off the chain do not
  matter.
-/

universe u

namespace PointerChain

variable {ν : Type u}

/-- The chain from a pointer visits exactly the listed nodes and ends at null. -/
def Chain (next : ν → Option ν) : Option ν → List ν → Prop
  | p, [] => p = none
  | p, n :: l => p = some n ∧ Chain next (next n) l

namespace Chain

variable {next next' : ν → Option ν} {p : Option ν} {n : ν} {l l' : List ν}

@[simp]
theorem nil_iff : Chain next p [] ↔ p = none :=
  Iff.rfl

@[simp]
theorem cons_iff : Chain next p (n :: l) ↔ p = some n ∧ Chain next (next n) l :=
  Iff.rfl

/-- A chain from the null pointer is empty. -/
theorem eq_nil (h : Chain next none l) : l = [] := by
  cases l with
  | nil => rfl
  | cons n l => cases h.1

/-- A chain from a node starts with that node. -/
theorem eq_cons (h : Chain next (some n) l) :
    ∃ l', l = n :: l' ∧ Chain next (next n) l' := by
  cases l with
  | nil => cases h
  | cons n' l' =>
      obtain ⟨hn, hl⟩ := h
      cases hn
      exact ⟨l', rfl, hl⟩

/-- The listed nodes are determined by the head pointer. -/
theorem unique (h : Chain next p l) (h' : Chain next p l') : l = l' := by
  induction l generalizing p l' with
  | nil =>
      rw [nil_iff] at h
      subst h
      exact (eq_nil h').symm
  | cons n l ih =>
      obtain ⟨rfl, hl⟩ := h
      obtain ⟨l'', rfl, hl'⟩ := eq_cons h'
      rw [ih hl hl']

/-- Every suffix of a chain that starts at a listed node is a chain from it. -/
theorem suffix_of_mem (h : Chain next p l) (hn : n ∈ l) :
    ∃ l', (n :: l') <:+ l ∧ Chain next (some n) (n :: l') := by
  induction l generalizing p with
  | nil => cases hn
  | cons n' l ih =>
      obtain ⟨rfl, hl⟩ := h
      rcases List.mem_cons.mp hn with rfl | hn
      · exact ⟨l, List.suffix_refl _, rfl, hl⟩
      · obtain ⟨l', hs, hc⟩ := ih hl hn
        exact ⟨l', hs.trans (List.suffix_cons _ _), hc⟩

/-- A null-terminated chain has no duplicate node, hence no cycle. -/
theorem nodup (h : Chain next p l) : l.Nodup := by
  induction l generalizing p with
  | nil => exact List.nodup_nil
  | cons n l ih =>
      obtain ⟨rfl, hl⟩ := h
      refine List.nodup_cons.mpr ⟨fun hn => ?_, ih hl⟩
      -- a second visit of `n` would start a strictly shorter chain from `n`
      obtain ⟨l', hs, hc⟩ := hl.suffix_of_mem hn
      have heq : n :: l' = n :: l := unique hc ⟨rfl, hl⟩
      have hle := hs.length_le
      rw [heq, List.length_cons] at hle
      omega

/-- Fields of nodes off the chain do not matter. -/
theorem frame (h : Chain next p l) (heq : ∀ n ∈ l, next' n = next n) :
    Chain next' p l := by
  induction l generalizing p with
  | nil => exact h
  | cons n l ih =>
      obtain ⟨rfl, hl⟩ := h
      refine ⟨rfl, ?_⟩
      rw [heq n List.mem_cons_self]
      exact ih hl fun m hm => heq m (List.mem_cons_of_mem n hm)

/-- Linking a fresh node in front of a chain. -/
theorem link (h : Chain next p l) (hn : n ∉ l) (hnext : next' n = p)
    (heq : ∀ m, m ≠ n → next' m = next m) : Chain next' (some n) (n :: l) := by
  refine ⟨rfl, ?_⟩
  rw [hnext]
  exact h.frame fun m hm => heq m (ne_of_mem_of_not_mem hm hn)

end Chain

end PointerChain
