import Mathlib.Data.List.Nodup
import Mathlib.Logic.Function.Basic

/-!
# Ledgers of resources

Resources are acquired and released one at a time.  A ledger says which ones are live; a
resource that is live cannot be acquired, and one that is not live cannot be released.  A
sequence of events that can be replayed therefore releases nothing twice and nothing that it
does not own, and the ledger after it says what is left over.

Main results:

- Theorem {lit}`Resources.replay_acquires`: acquiring distinct resources that are not live.
- Theorem {lit}`Resources.replay_map`: events that name part of the resources of a larger ledger
  leave the rest of it alone.
- Theorem {lit}`Resources.replay_conserved`: what was live or acquired is live or was released.
-/

universe u v

namespace Resources

variable {α : Type u} {β : Type v}

/-- A resource is acquired or released. -/
inductive Event (α : Type u) where
  | acquire (a : α)
  | release (a : α)
deriving DecidableEq, Repr

/-- The same event under other names. -/
def Event.map (f : α → β) : Event α → Event β
  | .acquire a => .acquire (f a)
  | .release a => .release (f a)

theorem Event.map_injective {f : α → β} (hf : Function.Injective f) :
    Function.Injective (Event.map f) := by
  intro e e' h
  cases e with
  | acquire a =>
      cases e' with
      | acquire a' => rw [hf (Event.acquire.inj h)]
      | release a' => cases h
  | release a =>
      cases e' with
      | acquire a' => cases h
      | release a' => rw [hf (Event.release.inj h)]

/-- The resources that are live. -/
abbrev Ledger (α : Type u) := α → Bool

variable [DecidableEq α] [DecidableEq β]

/-- The ledger after an event. -/
def Event.apply (live : Ledger α) : Event α → Option (Ledger α)
  | .acquire a => if live a = true then none else some (Function.update live a true)
  | .release a => if live a = true then some (Function.update live a false) else none

/-- The ledger after a sequence of events. -/
def replay (live : Ledger α) : List (Event α) → Option (Ledger α)
  | [] => some live
  | e :: es => (e.apply live).bind fun live' => replay live' es

variable {live live' : Ledger α} {a : α} {e : Event α} {es : List (Event α)}

@[simp]
theorem replay_nil (live : Ledger α) : replay live [] = some live :=
  rfl

theorem replay_cons (live : Ledger α) (e : Event α) (es : List (Event α)) :
    replay live (e :: es) = (e.apply live).bind fun live' => replay live' es :=
  rfl

theorem apply_acquire (h : live a = false) :
    (Event.acquire a).apply live = some (Function.update live a true) := by
  simp [Event.apply, h]

theorem apply_release (h : live a = true) :
    (Event.release a).apply live = some (Function.update live a false) := by
  simp [Event.apply, h]

/-- A live resource is released. -/
theorem replay_release (h : live a = true) (h' : live' = Function.update live a false) :
    replay live [.release a] = some live' := by
  rw [replay_cons, apply_release h, h']
  rfl

/-- Events one after the other. -/
theorem replay_append (live : Ledger α) (es es' : List (Event α)) :
    replay live (es ++ es') = (replay live es).bind fun live' => replay live' es' := by
  induction es generalizing live with
  | nil => rfl
  | cons e es ih =>
      rw [List.cons_append, replay_cons, replay_cons]
      cases e.apply live with
      | none => rfl
      | some live₁ => exact ih live₁

theorem replay_append_eq (h : replay live es = some live') (es' : List (Event α)) :
    replay live (es ++ es') = replay live' es' := by
  rw [replay_append, h]
  rfl

/-- Distinct resources are acquired. -/
theorem replay_acquires {l : List α} (hl : l.Nodup) (hlive : ∀ a ∈ l, live a = false) :
    replay live (l.map .acquire) = some fun a => live a || decide (a ∈ l) := by
  induction l generalizing live with
  | nil => simp
  | cons a l ih =>
      rcases List.nodup_cons.mp hl with ⟨ha, hl'⟩
      have hrest : ∀ b ∈ l, Function.update live a true b = false := by
        intro b hb
        rw [Function.update_of_ne (ne_of_mem_of_not_mem hb ha)]
        exact hlive b (List.mem_cons_of_mem a hb)
      rw [List.map_cons, replay_cons, apply_acquire (hlive a List.mem_cons_self),
        Option.bind_some, ih hl' hrest]
      congr 1
      funext b
      by_cases hb : b = a
      · simp [hb]
      · simp [hb]

/-- Events under other names do to these names what the events do, and leave the others
alone. -/
theorem replay_map {f : α → β} (hf : Function.Injective f) {all : Ledger β}
    (hall : ∀ a, all (f a) = live a) (h : replay live es = some live') :
    ∃ all', replay all (es.map (Event.map f)) = some all' ∧ (∀ a, all' (f a) = live' a) ∧
      ∀ b, (∀ a, f a ≠ b) → all' b = all b := by
  induction es generalizing live all with
  | nil =>
      rw [replay_nil, Option.some.injEq] at h
      subst h
      exact ⟨all, rfl, hall, fun _ _ => rfl⟩
  | cons e es ih =>
      rw [replay_cons, Option.bind_eq_some_iff] at h
      rcases h with ⟨live₁, he, h⟩
      have hstep : ∃ all₁, (e.map f).apply all = some all₁ ∧ (∀ a, all₁ (f a) = live₁ a) ∧
          ∀ b, (∀ a, f a ≠ b) → all₁ b = all b := by
        have hupdate : ∀ (a : α) (v : Bool), (∀ a', Function.update all (f a) v (f a') =
            Function.update live a v a') ∧
            ∀ b, (∀ a', f a' ≠ b) → Function.update all (f a) v b = all b := by
          intro a v
          constructor
          · intro a'
            by_cases heq : a' = a
            · simp [heq]
            · rw [Function.update_of_ne heq, Function.update_of_ne (fun h => heq (hf h))]
              exact hall a'
          · intro b hb
            exact Function.update_of_ne (Ne.symm (hb a)) _ _
        cases e with
        | acquire a =>
            cases hlive : live a with
            | true => simp [Event.apply, hlive] at he
            | false =>
                rw [apply_acquire hlive] at he
                cases he
                exact ⟨_, apply_acquire ((hall a).trans hlive), hupdate a true⟩
        | release a =>
            cases hlive : live a with
            | false => simp [Event.apply, hlive] at he
            | true =>
                rw [apply_release hlive] at he
                cases he
                exact ⟨_, apply_release ((hall a).trans hlive), hupdate a false⟩
      rcases hstep with ⟨all₁, he', hall₁, hother₁⟩
      rcases ih hall₁ h with ⟨all', hreplay, hall', hother'⟩
      refine ⟨all', ?_, hall', fun b hb => (hother' b hb).trans (hother₁ b hb)⟩
      rw [List.map_cons, replay_cons, he']
      exact hreplay

/-- One event moves a resource from one side of the account to the other. -/
theorem apply_conserved (h : e.apply live = some live') (a : α) :
    (live a).toNat + [e].count (.acquire a) = (live' a).toNat + [e].count (.release a) := by
  cases e with
  | acquire b =>
      cases hlive : live b with
      | true => simp [Event.apply, hlive] at h
      | false =>
          rw [apply_acquire hlive] at h
          cases h
          by_cases heq : a = b
          · simp [heq, hlive]
          · simp [heq, Ne.symm heq]
  | release b =>
      cases hlive : live b with
      | false => simp [Event.apply, hlive] at h
      | true =>
          rw [apply_release hlive] at h
          cases h
          by_cases heq : a = b
          · simp [heq, hlive]
          · simp [heq, Ne.symm heq]

/-- A resource that was live at the start or was acquired is live at the end or was released,
as often. -/
theorem replay_conserved (h : replay live es = some live') (a : α) :
    (live a).toNat + es.count (.acquire a) = (live' a).toNat + es.count (.release a) := by
  induction es generalizing live with
  | nil =>
      rw [replay_nil, Option.some.injEq] at h
      rw [h]
      rfl
  | cons e es ih =>
      rw [replay_cons, Option.bind_eq_some_iff] at h
      rcases h with ⟨live₁, he, h⟩
      have hfirst := apply_conserved he a
      have hrest := ih h
      rw [← List.singleton_append, List.count_append, List.count_append]
      omega

end Resources
