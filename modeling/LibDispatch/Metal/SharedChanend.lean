import Mathlib.Data.Fintype.Basic
import LibDispatch.Metal.Traversal
import LibDispatch.Metal.DispatchQueue

/-!
# Threads that share a channel end

The queue functions leave it to their caller which channel end a thread passes, and all
clients of a dispatch queue pass the same one.  A thread sleeps on its channel end while the
queue is full, and it is the source of its broadcasts, so sharing does no harm only while
no other thread sleeps on it.  As long as that is so, the shared channel ends behave like
channel ends of the threads' own, and this is how the condition is proved to be enough: a
run that meets it is a run of the same threads in which each has its own.

Main results:

- Theorem {lit}`Separated.step`: a step that meets the condition is a step of threads with
  channel ends of their own.
- Theorem {lit}`separated_of_reachable`: so is every run whose steps do.
- Theorem {lit}`chanendsSafe_step`: the step after which a channel end is shared in a harmful
  way is one that does not meet the condition.
- Theorem {lit}`clients_share_chanend`: for the clients of a dispatch queue.
-/

namespace LibDispatch
namespace Metal

variable {ι χ α κ μ : Type}

/-! ## Harmful sharing -/

/-- The thread outputs, or is about to output, the byte of a waiter. -/
def State.Sending (s : State ι χ α κ μ) (t : ι) : Prop :=
  ((s.thread t).turn = some .test ∧ s.queue.waiters ≠ none) ∨ (s.thread t).turn = some .ack

/-- No two nodes on the list carry the same channel end, no two threads await their byte on the
same one, and no thread sends a byte from one on which another thread awaits its own. -/
structure ChanendsSafe (wiring : Wiring ι χ) (s : State ι χ α κ μ) : Prop where
  nodes : ∀ t u, s.queue.Enlisted t → s.queue.Enlisted u →
    (s.queue.node t).cend = (s.queue.node u).cend → t = u
  awaiting : ∀ t u, s.phase t = .awaiting → s.phase u = .awaiting →
    (s.queue.node t).cend = (s.queue.node u).cend → t = u
  sending : ∀ t u, s.Sending t → s.phase u = .awaiting →
    (s.queue.node u).cend = wiring.cend t → t = u

/-- The thread is about to link its node, or to take the spinlock for a waking loop over a
list that is not empty. -/
def State.joins (s : State ι χ α κ μ) (t : ι) : Bool :=
  match s.thread t with
  | .inside _ (.wait _ .link) => true
  | .inside _ (.broadcast _ .lock) | .inside _ (.terminate .lock) => s.queue.waiters.isSome
  | _ => false

/-- The condition on a step: a thread does either only while no other thread awaits its byte on
the same channel end. -/
def chanendOk (wiring : Wiring ι χ) (s : State ι χ α κ μ) (t : ι) : Prop :=
  s.joins t = true → ∀ u, u ≠ t → s.phase u = .awaiting → wiring.cend u ≠ wiring.cend t

/-! ## Channel ends of their own -/

/-- The queue with a channel end for each thread, its register and the bytes in flight to it
as given. -/
def Queue.separate (q : Queue ι χ α) (dest : ι → ι) (inFlight : ι → List ConditionEvent) :
    Queue ι ι α where
  ringBuffer := q.ringBuffer
  head := q.head
  tail := q.tail
  length := q.length
  full := q.full
  mutex := q.mutex
  cvLock := q.cvLock
  waiters := q.waiters
  node := fun t => ⟨t, (q.node t).next⟩
  dest := dest
  inFlight := inFlight
  released := q.released

/-- The state with a channel end for each thread. -/
def State.separate (s : State ι χ α κ μ) (dest : ι → ι) (inFlight : ι → List ConditionEvent) :
    State ι ι α κ μ :=
  ⟨s.queue.separate dest inFlight, s.env, s.thread⟩

/-- Each thread has its own channel end. -/
def ownChanends (ι : Type) (handshake : Bool) : Wiring ι ι :=
  ⟨id, handshake⟩

/-- A thread whose position in a waking loop is given by {lit}`turn` has not seen the list
empty. -/
def Traversing (q : Queue ι χ α) (turn : ι → Option WakePc) (t : ι) : Prop :=
  (turn t = some .test ∧ q.waiters ≠ none) ∨ turn t = some .ack ∨ turn t = some .unlink

theorem Traversing.holdsLock {q : Queue ι χ α} {turn : ι → Option WakePc} {t : ι}
    (h : Traversing q turn t) : ∃ at_, turn t = some at_ ∧ at_.holdsLock = true := by
  rcases h with ⟨h, -⟩ | h | h
  · exact ⟨_, h, rfl⟩
  · exact ⟨_, h, rfl⟩
  · exact ⟨_, h, rfl⟩

/-- The channel ends of {lit}`q` are shared without harm by threads at the given positions, and
{lit}`inFlight` are the bytes in flight to each thread that awaits one. -/
structure Separated (wiring : Wiring ι χ) (q : Queue ι χ α) (phase : ι → CvPhase)
    (turn : ι → Option WakePc) (inFlight : ι → List ConditionEvent) : Prop where
  cend : ∀ t, (q.node t).cend = wiring.cend t
  bytes : ∀ t, phase t = .awaiting → q.inFlight (wiring.cend t) = inFlight t
  silent : ∀ x, (∀ t, phase t = .awaiting → wiring.cend t ≠ x) → q.inFlight x = []
  dest : ∀ t w, phase t = .sending → q.waiters = some w →
    q.dest (wiring.cend t) = wiring.cend w
  awaiting : ∀ t u, phase t = .awaiting → phase u = .awaiting →
    wiring.cend t = wiring.cend u → t = u
  nodes : ∀ l, PointerChain.Chain (fun t => (q.node t).next) q.waiters l →
    ∀ t ∈ l, ∀ u ∈ l, wiring.cend t = wiring.cend u → t = u
  traversing : ∀ t, Traversing q turn t → ∀ u, u ≠ t → phase u = .awaiting →
    wiring.cend u ≠ wiring.cend t

/-- The positions of the threads of a state in the waking loops. -/
def State.turn (s : State ι χ α κ μ) (t : ι) : Option WakePc :=
  (s.thread t).turn

/-- Harmless sharing, as the condition of a run keeps it, is what is asked for. -/
theorem Separated.chanendsSafe {wiring : Wiring ι χ} {s : State ι χ α κ μ}
    {inFlight : ι → List ConditionEvent}
    (h : Separated wiring s.queue s.phase s.turn inFlight) : ChanendsSafe wiring s where
  nodes := by
    intro t u ht hu hcend
    rcases ht with ⟨l, hl, ht⟩
    rcases hu with ⟨l', hl', hu⟩
    rw [hl'.unique hl] at hu
    rw [h.cend, h.cend] at hcend
    exact h.nodes l hl t ht u hu hcend
  awaiting := by
    intro t u ht hu hcend
    rw [h.cend, h.cend] at hcend
    exact h.awaiting t u ht hu hcend
  sending := by
    intro t u ht hu hcend
    rw [h.cend] at hcend
    by_contra hne
    have htrav : Traversing s.queue s.turn t := by
      rcases ht with htest | hack
      · exact Or.inl htest
      · exact Or.inr (Or.inl hack)
    exact h.traversing t htrav u (Ne.symm hne) hu hcend

/-! ## One statement -/

section Statements

variable [DecidableEq ι] [DecidableEq χ] {wiring : Wiring ι χ} {q q' : Queue ι χ α} {t : ι}
  {pc : Pc α} {c : Control α}

/-- A turn of the waking loop without an output is the same turn of a thread with a channel end
of its own. -/
theorem WakeStep.separate {evt : ConditionEvent} {at_ at' : WakePc}
    (h : WakeStep evt wiring q t at_ q' at') (dest : ι → ι)
    (inFlight : ι → List ConditionEvent) (hbefore : at_.phase ≠ .sending)
    (hafter : at'.phase ≠ .sending) :
    conditionVariableWake evt (ownChanends ι wiring.handshake) (q.separate dest inFlight) t at_ =
      some (q'.separate dest inFlight, some at') := by
  cases h with
  | lock hfree => simp [conditionVariableWake, Queue.separate, hfree]
  | testEmpty hwaiters => simp [conditionVariableWake, Queue.separate, hwaiters]
  | send w hwaiters => exact absurd rfl hafter
  | ack htaken => exact absurd rfl hbefore
  | unlink w hwaiters => simp [conditionVariableWake, Queue.separate, hwaiters]

/-- So is every statement that neither outputs nor waits for a channel. -/
theorem QueueStep.separate (h : QueueStep wiring q t pc q' c) (dest : ι → ι)
    (inFlight : ι → List ConditionEvent) (hinput : ∀ op, pc ≠ .wait op .chanIn)
    (hbefore : pc.phase ≠ .sending) (hafter : c.phase ≠ .sending) :
    (q.separate dest inFlight).step (ownChanends ι wiring.handshake) t pc =
      some (q'.separate dest inFlight, c) := by
  cases h with
  | lock op hfree =>
      simp [Queue.step, Queue.separate, hfree]
  | testBlocked op hblocked =>
      have hblocked : op.blocked (q.separate dest inFlight) = true := by
        cases op <;> exact hblocked
      simp [Queue.step, hblocked]
  | testProceed op hblocked =>
      have hblocked : op.blocked (q.separate dest inFlight) = false := by
        cases op <;> exact hblocked
      simp [Queue.step, hblocked]
  | waitLock op hfree =>
      simp [Queue.step, conditionVariableWait, Queue.separate, hfree]
  | waitLink op =>
      have hnode : Function.update (fun u => (⟨u, (q.node u).next⟩ : ConditionNode ι ι)) t
          ⟨t, q.waiters⟩ = fun u => ⟨u, (Function.update q.node t
            ⟨wiring.cend t, q.waiters⟩ u).next⟩ := by
        funext u
        by_cases hu : u = t
        · simp [hu]
        · simp [hu]
      simp only [Queue.step, conditionVariableWait, Queue.separate, ownChanends, id_eq, hnode]
      rfl
  | reacquire op hfree =>
      simp [Queue.step, conditionVariableWait, Queue.separate, hfree]
  | chanInSignal op rest hbyte => exact absurd rfl (hinput op)
  | chanInTerminate op rest hbyte => exact absurd rfl (hinput op)
  | sizeLock hfree =>
      simp [Queue.step, Queue.separate, hfree]
  | load item hslot =>
      simp [Queue.step, Queue.separate, hslot]
  | overwrite item =>
      cases hfull : q.full <;> simp [Queue.step, Queue.separate, hfull]
  | broadcast result at_ at' _ hw =>
      have hw := (wakeStep_of_wake hw).separate dest inFlight hbefore hafter
      simp [Queue.step, conditionVariableBroadcast, hw]
  | terminate at_ at' _ hw =>
      have hw := (wakeStep_of_wake hw).separate dest inFlight hbefore hafter
      simp [Queue.step, conditionVariableTerminate, hw]
  | _ => rfl

end Statements

/-! ## Keeping the channel ends apart -/

namespace Separated

variable {wiring : Wiring ι χ} {q q' : Queue ι χ α} {phase : ι → CvPhase}
  {turn turn' : ι → Option WakePc} {inFlight : ι → List ConditionEvent} {l rest : List ι}
  {dest : ι → ι} {t w : ι}

/-- Steps that touch neither the list nor a byte and keep the phases. -/
theorem congr (h : Separated wiring q phase turn inFlight) (hnode : q'.node = q.node)
    (hwaiters : q'.waiters = q.waiters) (hdest : q'.dest = q.dest)
    (hflight : q'.inFlight = q.inFlight)
    (hturn : ∀ t, Traversing q' turn' t → ¬ Traversing q turn t → ∀ u, u ≠ t →
      phase u = .awaiting → wiring.cend u ≠ wiring.cend t) :
    Separated wiring q' phase turn' inFlight where
  cend := by simpa only [hnode] using h.cend
  bytes := by simpa only [hflight] using h.bytes
  silent := by simpa only [hflight] using h.silent
  dest := by simpa only [hdest, hwaiters] using h.dest
  awaiting := h.awaiting
  nodes := by simpa only [hnode, hwaiters] using h.nodes
  traversing := by
    intro t ht u hut hu
    by_cases hold : Traversing q turn t
    · exact h.traversing t hold u hut hu
    · exact hturn t ht hold u hut hu

variable [DecidableEq ι]

/-- A thread enters a waking loop or leaves it. -/
theorem turn_update (h : Separated wiring q phase turn inFlight) (hnode : q'.node = q.node)
    (hwaiters : q'.waiters = q.waiters) (hdest : q'.dest = q.dest)
    (hflight : q'.inFlight = q.inFlight) {p : Option WakePc}
    (hp : p = none ∨ p = some .lock ∨ p = some .unlock) :
    Separated wiring q' phase (Function.update turn t p) inFlight := by
  refine h.congr hnode hwaiters hdest hflight ?_
  intro b hb hold
  have hbt : b ≠ t := by
    rintro rfl
    unfold Traversing at hb
    rw [Function.update_self] at hb
    rcases hp with rfl | rfl | rfl <;> simp at hb
  refine absurd ?_ hold
  unfold Traversing at hb ⊢
  rwa [Function.update_of_ne hbt, hwaiters] at hb

/-- A thread takes the spinlock for a waking loop while no other thread awaits its byte on the
same channel end, or the list is empty. -/
theorem turn_test (h : Separated wiring q phase turn inFlight) (hnode : q'.node = q.node)
    (hwaiters : q'.waiters = q.waiters) (hdest : q'.dest = q.dest)
    (hflight : q'.inFlight = q.inFlight)
    (hok : q.waiters ≠ none → ∀ u, u ≠ t → phase u = .awaiting →
      wiring.cend u ≠ wiring.cend t) :
    Separated wiring q' phase (Function.update turn t (some .test)) inFlight := by
  refine h.congr hnode hwaiters hdest hflight ?_
  intro b hb hold
  by_cases hbt : b = t
  · subst hbt
    unfold Traversing at hb
    rw [Function.update_self, hwaiters] at hb
    exact hok (by simpa using hb)
  · refine absurd ?_ hold
    unfold Traversing at hb ⊢
    rwa [Function.update_of_ne hbt, hwaiters] at hb

/-- Linking a node while no other thread awaits its byte on the same channel end. -/
theorem link {handshake : Bool} (h : Separated wiring q phase turn inFlight)
    (hw : Waiting (ownChanends ι handshake) (q.separate dest inFlight) phase l rest)
    (hphase : phase t = .idle) (hnone : ∀ b, ¬ (phase b).Waking)
    (hfree : ∀ b at_, turn b = some at_ → at_.holdsLock = false)
    (hok : ∀ u, u ≠ t → phase u = .awaiting → wiring.cend u ≠ wiring.cend t) :
    Separated wiring
      { q with
        node := Function.update q.node t ⟨wiring.cend t, q.waiters⟩
        waiters := some t }
      (Function.update phase t .awaiting) turn inFlight := by
  have hrest := hw.settled hnone
  subst hrest
  have hidle := hw.awake t (by simp [hphase])
  have hother : ∀ u, u ≠ t → Function.update phase t .awaiting u = .awaiting →
      phase u = .awaiting ∧ wiring.cend u ≠ wiring.cend t := by
    intro u hut hu
    rw [Function.update_of_ne hut] at hu
    exact ⟨hu, hok u hut hu⟩
  refine ⟨?_, ?_, ?_, ?_, ?_, ?_, ?_⟩
  · intro u
    by_cases hut : u = t
    · simp [hut]
    · simpa [hut] using h.cend u
  · intro u hu
    by_cases hut : u = t
    · subst hut
      -- no thread awaits a byte here yet, so none is in flight
      have hempty : inFlight u = [] := hidle.2
      rw [hempty]
      refine h.silent _ fun b hb => ?_
      by_cases hbu : b = u
      · subst hbu
        simp [hphase] at hb
      · exact hok b hbu hb
    · exact h.bytes u (hother u hut hu).1
  · intro x hx
    refine h.silent x fun u hu => ?_
    refine hx u ?_
    by_cases hut : u = t
    · simp [hut]
    · simpa [hut] using hu
  · intro b v hb
    have hbt : b ≠ t := by
      rintro rfl
      simp at hb
    rw [Function.update_of_ne hbt] at hb
    exact absurd (Or.inl hb) (hnone b)
  · intro b u hb hu hcend
    by_cases hbt : b = t
    · by_cases hut : u = t
      · rw [hbt, hut]
      · exact absurd (hbt ▸ hcend.symm) (hother u hut hu).2
    · by_cases hut : u = t
      · exact absurd (hut ▸ hcend) (hother b hbt hb).2
      · exact h.awaiting b u (hother b hbt hb).1 (hother u hut hu).1 hcend
  · -- the threads on the list all await their byte
    have henlisted : ∀ u ∈ rest, wiring.cend u ≠ wiring.cend t := by
      intro u hu
      have hawaiting : phase u = .awaiting := by
        by_contra hne
        exact (hw.awake u hne).1 hu
      refine hok u ?_ hawaiting
      rintro rfl
      simp [hphase] at hawaiting
    have hchain : PointerChain.Chain
        (fun u => (Function.update q.node t ⟨wiring.cend t, q.waiters⟩ u).next) (some t)
        (t :: rest) := by
      apply hw.chain.link hidle.1
      · simp [Queue.separate]
      · intro m hm
        simp [hm, Queue.separate]
    intro l' hl' b hb u hu hcend
    rw [hl'.unique hchain] at hb hu
    rcases List.mem_cons.mp hb with rfl | hb'
    · rcases List.mem_cons.mp hu with rfl | hu'
      · rfl
      · exact absurd hcend.symm (henlisted u hu')
    · rcases List.mem_cons.mp hu with rfl | hu'
      · exact absurd hcend (henlisted b hb')
      · exact h.nodes rest hw.chain b hb' u hu' hcend
  · intro b hb
    rcases hb.holdsLock with ⟨at_, hat, hholds⟩
    rw [hfree b at_ hat] at hholds
    cases hholds

/-- The phase of a thread that does not await a byte. -/
theorem awaiting_update {p : CvPhase} (hp : p ≠ .awaiting) (hphase : phase t ≠ .awaiting)
    (u : ι) : Function.update phase t p u = .awaiting ↔ phase u = .awaiting := by
  by_cases hut : u = t
  · subst hut
    simp [hp, hphase]
  · simp [hut]

variable [DecidableEq χ]

omit [DecidableEq ι] in
/-- The byte goes to the channel end in the node, even if that is the one it comes from. -/
theorem send_bytes (q : Queue ι χ α) (source x : χ) (evt : ConditionEvent) :
    (conditionVariableSend q source x evt).inFlight =
      Function.update q.inFlight x (q.inFlight x ++ [evt]) ∧
    (conditionVariableSend q source x evt).dest source = x := by
  have hdest : Function.update (Function.update q.dest source x) x source source = x := by
    by_cases hx : source = x
    · simp [hx]
    · rw [Function.update_of_ne hx, Function.update_self]
  simp only [conditionVariableSend, hdest]
  exact ⟨trivial, trivial⟩

/-- The output to the first waiter. -/
theorem send (h : Separated wiring q phase turn inFlight) (evt : ConditionEvent)
    (hphase : phase t = .idle) (hnone : ∀ b, ¬ (phase b).Waking) (hturn : turn t = some .test)
    (hwaiters : q.waiters = some w) (hawaiting : phase w = .awaiting)
    (hempty : inFlight w = []) :
    Separated wiring (conditionVariableSend q (wiring.cend t) (wiring.cend w) evt)
      (Function.update phase t .sending) (Function.update turn t (some .ack))
      (Function.update inFlight w [evt]) := by
  have hother : ∀ u, Function.update phase t .sending u = .awaiting ↔ phase u = .awaiting :=
    awaiting_update (by simp) (by simp [hphase])
  rcases send_bytes q (wiring.cend t) (wiring.cend w) evt with ⟨hbytes, hdest⟩
  rw [h.bytes w hawaiting, hempty, List.nil_append] at hbytes
  refine ⟨h.cend, ?_, ?_, ?_, ?_, h.nodes, ?_⟩
  · intro u hu
    rw [hother] at hu
    rw [hbytes]
    by_cases huw : u = w
    · simp [huw]
    · rw [Function.update_of_ne huw, Function.update_of_ne, h.bytes u hu]
      exact fun hcend => huw (h.awaiting u w hu hawaiting hcend)
  · intro x hx
    rw [hbytes, Function.update_of_ne]
    · exact h.silent x fun u hu => hx u ((hother u).mpr hu)
    · exact (hx w ((hother w).mpr hawaiting)).symm
  · intro b v hb hv
    have hbt : b = t := by
      by_contra hne
      rw [Function.update_of_ne hne] at hb
      exact hnone b (Or.inl hb)
    subst hbt
    have hvw : v = w := Option.some.inj (hv.symm.trans hwaiters)
    rw [hdest, hvw]
  · intro b u hb hu
    exact h.awaiting b u ((hother b).mp hb) ((hother u).mp hu)
  · intro b hb u hub hu
    refine h.traversing b ?_ u hub ((hother u).mp hu)
    by_cases hbt : b = t
    · subst hbt
      exact Or.inl ⟨hturn, by simp [hwaiters]⟩
    · unfold Traversing at hb
      rwa [Function.update_of_ne hbt] at hb

omit [DecidableEq χ] in
/-- The output returns. -/
theorem ack (h : Separated wiring q phase turn inFlight) (hphase : phase t = .sending)
    (hturn : turn t = some .ack) :
    Separated wiring q (Function.update phase t .unlinking)
      (Function.update turn t (some .unlink)) inFlight := by
  have hother : ∀ u, Function.update phase t .unlinking u = .awaiting ↔ phase u = .awaiting :=
    awaiting_update (by simp) (by simp [hphase])
  refine ⟨h.cend, ?_, ?_, ?_, ?_, h.nodes, ?_⟩
  · exact fun u hu => h.bytes u ((hother u).mp hu)
  · exact fun x hx => h.silent x fun u hu => hx u ((hother u).mpr hu)
  · intro b v hb
    have hbt : b ≠ t := by
      rintro rfl
      simp at hb
    rw [Function.update_of_ne hbt] at hb
    exact h.dest b v hb
  · intro b u hb hu
    exact h.awaiting b u ((hother b).mp hb) ((hother u).mp hu)
  · intro b hb u hub hu
    refine h.traversing b ?_ u hub ((hother u).mp hu)
    by_cases hbt : b = t
    · subst hbt
      exact Or.inr (Or.inl hturn)
    · unfold Traversing at hb
      rwa [Function.update_of_ne hbt] at hb

omit [DecidableEq χ] in
/-- The first waiter is unlinked. -/
theorem unlink (h : Separated wiring q phase turn inFlight) (hphase : phase t = .unlinking)
    (hnone : ∀ b, (phase b).Waking → b = t) (hturn : turn t = some .unlink)
    (honly : ∀ b at_, turn b = some at_ → at_.holdsLock = true → b = t)
    (hwaiters : q.waiters = some w) :
    Separated wiring { q with waiters := (q.node w).next } (Function.update phase t .idle)
      (Function.update turn t (some .test)) inFlight := by
  have hother : ∀ u, Function.update phase t .idle u = .awaiting ↔ phase u = .awaiting :=
    awaiting_update (by simp) (by simp [hphase])
  refine ⟨h.cend, ?_, ?_, ?_, ?_, ?_, ?_⟩
  · exact fun u hu => h.bytes u ((hother u).mp hu)
  · exact fun x hx => h.silent x fun u hu => hx u ((hother u).mpr hu)
  · intro b v hb
    have hbt : b ≠ t := by
      rintro rfl
      simp at hb
    rw [Function.update_of_ne hbt] at hb
    exact absurd (hnone b (Or.inl hb)) hbt
  · intro b u hb hu
    exact h.awaiting b u ((hother b).mp hb) ((hother u).mp hu)
  · intro l' hl' b hb u hu
    have hcons : PointerChain.Chain (fun u => (q.node u).next) q.waiters (w :: l') :=
      ⟨hwaiters, hl'⟩
    exact h.nodes (w :: l') hcons b (List.mem_cons_of_mem w hb) u (List.mem_cons_of_mem w hu)
  · intro b hb u hub hu
    refine h.traversing b ?_ u hub ((hother u).mp hu)
    by_cases hbt : b = t
    · subst hbt
      exact Or.inr (Or.inr hturn)
    · rcases hb.holdsLock with ⟨at_, hat, hholds⟩
      rw [Function.update_of_ne hbt] at hat
      exact absurd (honly b at_ hat hholds) hbt

/-- A waiter takes its byte. -/
theorem take {handshake : Bool} (h : Separated wiring q phase turn inFlight)
    (hw : Waiting (ownChanends ι handshake) (q.separate dest inFlight) phase l rest)
    (hphase : phase t = .awaiting) {e : ConditionEvent} {bytes : List ConditionEvent}
    (hbyte : q.inFlight (wiring.cend t) = e :: bytes) :
    Separated wiring
      { q with inFlight := Function.update q.inFlight (wiring.cend t) bytes }
      (Function.update phase t .idle) turn (Function.update inFlight t bytes) := by
  have hnil : bytes = [] := by
    have hown : (q.separate dest inFlight).inFlight ((ownChanends ι handshake).cend t) =
        e :: bytes := (h.bytes t hphase).symm.trans hbyte
    exact (hw.of_byte hown).2.2
  subst hnil
  have hother : ∀ u, Function.update phase t .idle u = .awaiting →
      u ≠ t ∧ phase u = .awaiting := by
    intro u hu
    have hut : u ≠ t := by
      rintro rfl
      simp at hu
    rw [Function.update_of_ne hut] at hu
    exact ⟨hut, hu⟩
  refine ⟨h.cend, ?_, ?_, ?_, ?_, h.nodes, ?_⟩
  · intro u hu
    rcases hother u hu with ⟨hut, hu⟩
    simp only [Function.update_of_ne hut]
    rw [Function.update_of_ne, h.bytes u hu]
    exact fun hcend => hut (h.awaiting u t hu hphase hcend)
  · intro x hx
    by_cases hxt : x = wiring.cend t
    · simp [hxt]
    · simp only [Function.update_of_ne hxt]
      refine h.silent x fun u hu => ?_
      by_cases hut : u = t
      · rw [hut]
        exact Ne.symm hxt
      · exact hx u (by rwa [Function.update_of_ne hut])
  · intro b v hb
    have hbt : b ≠ t := by
      rintro rfl
      simp at hb
    rw [Function.update_of_ne hbt] at hb
    exact h.dest b v hb
  · intro b u hb hu
    exact h.awaiting b u (hother b hb).2 (hother u hu).2
  · exact fun b hb u hub hu => h.traversing b hb u hub (hother u hu).2

end Separated

/-! ## The simulation -/

section Simulation

variable [DecidableEq ι] [DecidableEq χ] {wiring : Wiring ι χ} {caller : Caller ι κ μ α}
  {length : Nat} {env : μ} {start : ι → κ} {s s' : State ι χ α κ μ} {t : ι}
  {dest : ι → ι} {inFlight : ι → List ConditionEvent}

omit [DecidableEq χ] in
theorem State.turn_update (s : State ι χ α κ μ) (q : Queue ι χ α) (env : μ) (t : ι)
    (th : Thread κ α) :
    State.turn { s with queue := q, env := env, thread := Function.update s.thread t th } =
      Function.update s.turn t th.turn := by
  funext u
  by_cases hu : u = t
  · simp [State.turn, hu]
  · simp [State.turn, hu]

omit [DecidableEq ι] [DecidableEq χ] in
/-- Only the owner of the spinlock is in a waking loop past its lock. -/
theorem Locked.turn_eq (hl : Locked s) (ht : (s.thread t).HoldsCvLock) {b : ι} {at_ : WakePc}
    (hb : s.turn b = some at_) (hholds : at_.holdsLock = true) : b = t := by
  refine hl.cvLock.exclusive ?_ ht
  rcases Thread.turn_eq_some hb with ⟨k, result, hk⟩ | ⟨k, hk⟩
  · rw [hk]
    exact hholds
  · rw [hk]
    exact hholds

/-- What the simulation keeps: the state with separate channel ends is reachable, and the
channel ends are shared without harm. -/
def Separates (wiring : Wiring ι χ) (caller : Caller ι κ μ α) (length : Nat) (env : μ)
    (start : ι → κ) (s : State ι χ α κ μ) (s₁ : State ι ι α κ μ) : Prop :=
  (threads (ownChanends ι wiring.handshake) caller length env start).Reachable s₁ ∧
    ∃ dest inFlight, s₁ = s.separate dest inFlight ∧
      Separated wiring s.queue s.phase s.turn inFlight

/-- A turn of the waking loop is the same turn of a thread with a channel end of its own. -/
theorem WakeStep.separated {l rest : List ι} {evt : ConditionEvent} {q' : Queue ι χ α}
    {at_ at' : WakePc} (hwake : WakeStep evt wiring s.queue t at_ q' at')
    (hl : Locked s) (hholds : at_.holdsLock = true → (s.thread t).HoldsCvLock)
    (hphase : s.phase t = at_.phase) (hturn : s.turn t = some at_)
    (hw : Waiting (ownChanends ι wiring.handshake) (s.queue.separate dest inFlight) s.phase
      l rest)
    (h : Separated wiring s.queue s.phase s.turn inFlight)
    (hok : at_ = .lock → s.queue.waiters ≠ none → ∀ u, u ≠ t → s.phase u = .awaiting →
      wiring.cend u ≠ wiring.cend t) :
    ∃ dest' inFlight',
      conditionVariableWake evt (ownChanends ι wiring.handshake)
        (s.queue.separate dest inFlight) t at_ =
          some (q'.separate dest' inFlight', some at') ∧
      Separated wiring q' (Function.update s.phase t at'.phase)
        (Function.update s.turn t (some at')) inFlight' := by
  have hsame : ∀ p, s.phase t = p → Function.update s.phase t p = s.phase := by
    rintro _ rfl
    exact Function.update_eq_self t s.phase
  have honly : at_.holdsLock = true → ∀ b, (s.phase b).Waking → b = t := fun hat b hb =>
    hl.waking_eq (hholds hat) hb
  cases hwake with
  | lock hfree =>
      have hwake : WakeStep evt wiring s.queue t .lock _ .test := .lock hfree
      refine ⟨dest, inFlight, hwake.separate dest inFlight (by simp [WakePc.phase])
        (by simp [WakePc.phase]), ?_⟩
      rw [hsame (WakePc.phase .test) hphase]
      exact h.turn_test rfl rfl rfl rfl (hok rfl)
  | testEmpty hwaiters =>
      have hwake : WakeStep evt wiring s.queue t .test _ .unlock := .testEmpty hwaiters
      refine ⟨dest, inFlight, hwake.separate dest inFlight (by simp [WakePc.phase])
        (by simp [WakePc.phase]), ?_⟩
      rw [hsame (WakePc.phase .unlock) hphase]
      exact h.turn_update rfl rfl rfl rfl (Or.inr (Or.inr rfl))
  | send w hwaiters =>
      have hnone : ∀ b, ¬ (s.phase b).Waking := by
        intro b hb
        have hbt := honly rfl b hb
        subst hbt
        simp [hphase, WakePc.phase] at hb
      rcases hw.first hnone hwaiters with ⟨rest', -, -, hawaiting, hempty⟩
      have hempty : inFlight w = [] := hempty
      have hbytes : (conditionVariableSend (s.queue.separate dest inFlight) t w evt).inFlight =
          Function.update inFlight w [evt] := by
        rw [(Separated.send_bytes (s.queue.separate dest inFlight) t w evt).1]
        simp [Queue.separate, hempty]
      refine ⟨(conditionVariableSend (s.queue.separate dest inFlight) t w evt).dest,
        Function.update inFlight w [evt], ?_, ?_⟩
      · have hwaiters₁ : (s.queue.separate dest inFlight).waiters = some w := hwaiters
        rw [← hbytes]
        simp only [conditionVariableWake, hwaiters₁]
        rfl
      · rw [h.cend w]
        exact h.send evt hphase hnone hturn hwaiters hawaiting hempty
  | ack htaken =>
      refine ⟨dest, inFlight, ?_, h.ack hphase hturn⟩
      rcases hw.woken t (by simp [hphase, WakePc.phase]) with ⟨w, rfl, hdest, -⟩
      have hwaiters : s.queue.waiters = some w := by
        have hchain := hw.chain
        exact hchain.1
      have hdest : dest t = w := hdest hphase
      have hempty : wiring.handshake = true → inFlight w = [] := by
        intro hhand
        by_cases hawaiting : s.phase w = .awaiting
        · rw [← h.bytes w hawaiting, ← h.dest t w hphase hwaiters]
          exact htaken hhand
        · exact (hw.awake w hawaiting).2
      simp only [conditionVariableWake, ownChanends, Queue.separate, id_eq, hdest]
      rw [if_neg]
      rintro ⟨hhand, hne⟩
      exact hne (hempty hhand)
  | unlink w hwaiters =>
      have hwake : WakeStep evt wiring s.queue t .unlink _ .test := .unlink w hwaiters
      refine ⟨dest, inFlight, hwake.separate dest inFlight (by simp [WakePc.phase])
        (by simp [WakePc.phase]), ?_⟩
      exact h.unlink hphase (honly rfl) hturn (fun b at_ hb hat => hl.turn_eq (hholds rfl) hb hat)
        hwaiters

/-- A step that meets the condition is the same step of threads with channel ends of their
own. -/
theorem Separated.step {s₁ : State ι ι α κ μ} (hl : Locked s)
    (h : Separates wiring caller length env start s s₁) (hok : chanendOk wiring s t)
    (hstep : (threads wiring caller length env start).step s t = some s') :
    ∃ s₁', (threads (ownChanends ι wiring.handshake) caller length env start).step s₁ t =
        some s₁' ∧ Separates wiring caller length env start s' s₁' := by
  rcases h with ⟨hs₁, dest, inFlight, rfl, hsep⟩
  suffices ∃ dest' inFlight', (threads (ownChanends ι wiring.handshake) caller length env
      start).step (s.separate dest inFlight) t = some (s'.separate dest' inFlight') ∧
      Separated wiring s'.queue s'.phase s'.turn inFlight' by
    rcases this with ⟨dest', inFlight', hstep₁, hsep'⟩
    exact ⟨_, hstep₁, hs₁.step hstep₁, dest', inFlight', rfl, hsep'⟩
  rcases waiting_of_reachable Function.injective_id hs₁ with ⟨l, rest, hw⟩
  rcases threads_step_cases hstep with
    ⟨k, c, hk, hcall, rfl⟩ | ⟨k, k', env', hk, hcall, hown, rfl⟩ | ⟨k, pc, q', c, hk, hq, rfl⟩
  · refine ⟨dest, inFlight, by simp [threads, State.separate, hk, hcall], ?_⟩
    have hphase : s.phase t = (Thread.inside k c.entry).phase := by simp [State.phase, hk]
    rw [State.phase_update, State.turn_update, ← hphase, Function.update_eq_self]
    exact hsep.turn_update rfl rfl rfl rfl (by cases c <;> simp [Call.entry, Thread.turn])
  · refine ⟨dest, inFlight, by simp [threads, State.separate, hk, hcall, hown], ?_⟩
    have hphase : s.phase t = (Thread.outside k' : Thread κ α).phase := by
      simp [State.phase, hk]
    rw [State.phase_update, State.turn_update, ← hphase, Function.update_eq_self]
    exact hsep.turn_update rfl rfl rfl rfl (Or.inl rfl)
  · rw [State.phase_update, State.turn_update, Thread.phase_resume]
    have hphase : s.phase t = pc.phase := by simp [State.phase, hk]
    have hholds : pc.holdsCvLock = true → (s.thread t).HoldsCvLock := by simp [hk]
    have hk₁ : (s.separate dest inFlight).thread t = .inside k pc := hk
    have hq := queueStep_of_step hq
    -- a statement that neither links a node nor uses a channel nor is a turn of the loop
    have hplain : (∀ op, pc ≠ .wait op .chanIn) → pc.phase ≠ .sending → c.phase = pc.phase →
        q'.node = s.queue.node → q'.waiters = s.queue.waiters → q'.dest = s.queue.dest →
        q'.inFlight = s.queue.inFlight →
        ((Thread.resume caller t k c).turn = none ∨
          (Thread.resume caller t k c).turn = some .lock ∨
          (Thread.resume caller t k c).turn = some .unlock) →
        ∃ dest' inFlight', (threads (ownChanends ι wiring.handshake) caller length env
          start).step (s.separate dest inFlight) t =
            some (State.separate { s with
              queue := q'
              thread := Function.update s.thread t (Thread.resume caller t k c) }
              dest' inFlight') ∧
          Separated wiring q' (Function.update s.phase t c.phase)
            (Function.update s.turn t (Thread.resume caller t k c).turn) inFlight' := by
      intro hinput hbefore hc hnode hwaiters hdest hflight hturn
      refine ⟨dest, inFlight, threads_step_inside hk₁ (hq.separate dest inFlight hinput hbefore
        (by rwa [hc])), ?_⟩
      rw [hc, ← hphase, Function.update_eq_self]
      exact hsep.turn_update hnode hwaiters hdest hflight hturn
    have hjoins : s.joins t = s.queue.waiters.isSome → s.queue.waiters ≠ none → ∀ u, u ≠ t →
        s.phase u = .awaiting → wiring.cend u ≠ wiring.cend t := by
      intro heq hne
      refine hok ?_
      rw [heq]
      exact Option.isSome_iff_ne_none.mpr hne
    -- the input of a byte
    have htake : ∀ (op : QueueOp α) (e : ConditionEvent) (bytes : List ConditionEvent)
        (c' : Control α), pc = .wait op .chanIn → c'.phase = .idle →
        s.queue.inFlight (s.queue.node t).cend = e :: bytes →
        (Thread.resume caller t k c').turn = none →
        c' = .goto (.wait op (if e = .signal then .reacquire else .leave)) →
        ∃ dest' inFlight', (threads (ownChanends ι wiring.handshake) caller length env
          start).step (s.separate dest inFlight) t =
            some (State.separate { s with
              queue := { s.queue with
                inFlight := Function.update s.queue.inFlight (s.queue.node t).cend bytes }
              thread := Function.update s.thread t (Thread.resume caller t k c') }
              dest' inFlight') ∧
          Separated wiring { s.queue with
              inFlight := Function.update s.queue.inFlight (s.queue.node t).cend bytes }
            (Function.update s.phase t c'.phase)
            (Function.update s.turn t (Thread.resume caller t k c').turn) inFlight' := by
      rintro op e bytes c' rfl hc hbyte hturn' hc'
      have hturn : s.turn t = none := by simp [State.turn, hk, Thread.turn]
      rw [hsep.cend t] at hbyte ⊢
      refine ⟨dest, Function.update inFlight t bytes, ?_, ?_⟩
      · refine threads_step_inside hk₁ ?_
        have hbyte₁ : inFlight t = e :: bytes := (hsep.bytes t hphase).symm.trans hbyte
        rw [hc']
        simp only [State.separate, Queue.separate, Queue.step, conditionVariableWait, hbyte₁]
        cases e <;> rfl
      · rw [hc, hturn', ← hturn, Function.update_eq_self]
        exact hsep.take hw hphase hbyte
    have hq₀ := hq
    cases hq with
    | waitLink op =>
        have hturn : s.turn t = none := by simp [State.turn, hk, Thread.turn]
        have hnone := hl.not_waking (hholds rfl) (by simp [hphase, Pc.phase])
        have hfree : ∀ b at_, s.turn b = some at_ → at_.holdsLock = false := by
          intro b at_ hb
          by_contra hat
          have hbt := hl.turn_eq (hholds rfl) hb (Bool.of_not_eq_false hat)
          subst hbt
          rw [hturn] at hb
          cases hb
        refine ⟨dest, inFlight, threads_step_inside hk₁ (hq₀.separate dest inFlight (by simp)
          (by simp [Pc.phase]) (by simp [Control.phase, Pc.phase])), ?_⟩
        have hsame : Function.update s.turn t none = s.turn := by
          rw [← hturn]
          exact Function.update_eq_self t s.turn
        rw [show (Thread.resume caller t k (.goto (.wait op .unlock))).turn = none from rfl, hsame]
        exact hsep.link hw hphase hnone hfree (hok (by simp [State.joins, hk]))
    | chanInSignal op bytes hbyte => exact htake op .signal bytes _ rfl rfl hbyte rfl rfl
    | chanInTerminate op bytes hbyte => exact htake op .terminate bytes _ rfl rfl hbyte rfl rfl
    | broadcast result at_ at' _ hwake =>
        have hturn : s.turn t = some at_ := by simp [State.turn, hk, Thread.turn]
        rcases (wakeStep_of_wake hwake).separated hl hholds hphase hturn hw hsep
          (fun heq => hjoins (by simp [State.joins, hk, heq])) with
          ⟨dest', inFlight', hwake₁, hsep'⟩
        refine ⟨dest', inFlight', threads_step_inside hk₁ ?_, hsep'⟩
        have hwake₁ : conditionVariableBroadcast (ownChanends ι wiring.handshake)
          (s.queue.separate dest inFlight) t at_ = _ := hwake₁
        simp [Queue.step, State.separate, hwake₁]
    | terminate at_ at' _ hwake =>
        have hturn : s.turn t = some at_ := by simp [State.turn, hk, Thread.turn]
        rcases (wakeStep_of_wake hwake).separated hl hholds hphase hturn hw hsep
          (fun heq => hjoins (by simp [State.joins, hk, heq])) with
          ⟨dest', inFlight', hwake₁, hsep'⟩
        refine ⟨dest', inFlight', threads_step_inside hk₁ ?_, hsep'⟩
        have hwake₁ : conditionVariableTerminate (ownChanends ι wiring.handshake)
          (s.queue.separate dest inFlight) t at_ = _ := hwake₁
        simp [Queue.step, State.separate, hwake₁]
    | testProceed op hblocked =>
        have hturn : (Thread.inside k op.proceed : Thread κ α).turn = none := by
          cases op <;> rfl
        exact hplain (by simp) (by simp [Pc.phase]) (by cases op <;> rfl) rfl rfl rfl rfl
          (Or.inl hturn)
    | overwrite item =>
        exact hplain (by simp) (by simp [Pc.phase]) rfl (by split <;> rfl) (by split <;> rfl)
          (by split <;> rfl) (by split <;> rfl) (Or.inl rfl)
    | setFull item =>
        exact hplain (by simp) (by simp [Pc.phase]) rfl rfl rfl rfl rfl (Or.inr (Or.inl rfl))
    | advanceTail item =>
        exact hplain (by simp) (by simp [Pc.phase]) rfl rfl rfl rfl rfl (Or.inr (Or.inl rfl))
    | _ =>
        exact hplain (by simp) (by simp [Pc.phase, WakePc.phase]) rfl rfl rfl rfl rfl
          (Or.inl rfl)

variable [∀ (s : State ι χ α κ μ) t, Decidable (chanendOk wiring s t)]

/-- A run whose steps meet the condition is a run of threads with channel ends of their own. -/
theorem separated_of_reachable
    (hs : ((threads wiring caller length env start).guarded (chanendOk wiring)).Reachable s) :
    ∃ s₁, Separates wiring caller length env start s s₁ := by
  refine hs.invariant (P := fun s => ∃ s₁, Separates wiring caller length env start s s₁) ?_ ?_
  · refine ⟨_, .init, id, fun _ => [], rfl, fun _ => rfl, ?_, fun _ _ => rfl, ?_, ?_, ?_, ?_⟩
    · exact fun _ _ => rfl
    · intro t w ht
      simp [System.guarded, threads, State.phase] at ht
    · intro t u ht
      simp [System.guarded, threads, State.phase] at ht
    · intro l hl t ht
      rw [PointerChain.Chain.eq_nil hl] at ht
      cases ht
    · intro t ht
      rcases ht.holdsLock with ⟨at_, hat, -⟩
      cases hat
  · rintro s t s' hr ⟨s₁, hsep⟩ hstep
    rcases System.guarded_step.mp hstep with ⟨hok, hstep⟩
    rcases Separated.step (locked_of_reachable hr.of_guarded) hsep hok hstep with
      ⟨s₁', -, hsep'⟩
    exact ⟨s₁', hsep'⟩

/-- In a run that has met the condition so far, a channel end is shared in a harmful way after
the next step exactly if that step does not meet it. -/
theorem chanendsSafe_step
    (hs : ((threads wiring caller length env start).guarded (chanendOk wiring)).Reachable s)
    (hstep : (threads wiring caller length env start).step s t = some s') :
    ChanendsSafe wiring s' ↔ chanendOk wiring s t := by
  constructor
  · intro hsafe hjoins u hut hu hcend
    rcases separated_of_reachable hs with ⟨s₁, -, dest, inFlight, -, hsep⟩
    have hu' : s'.phase u = .awaiting := by
      rw [State.phase, threads_step_frame hstep hut]
      exact hu
    rcases threads_step_cases hstep with
      ⟨k, c, hk, -, rfl⟩ | ⟨k, k', env', hk, -, -, rfl⟩ | ⟨k, pc, q', c, hk, hq, rfl⟩
    · simp [State.joins, hk] at hjoins
    · simp [State.joins, hk] at hjoins
    · have hturn : ∀ at_, (Thread.resume caller t k c).turn = some at_ →
          (Function.update s.thread t (Thread.resume caller t k c) t).turn = some at_ := by
        intro at_ hat
        rw [Function.update_self, hat]
      cases queueStep_of_step hq with
      | waitLink op =>
          refine hut (hsafe.awaiting u t hu' ?_ ?_)
          · simp [State.phase, Thread.resume, Pc.phase]
          · simp [hut, hsep.cend, hcend]
      | broadcast result at_ at' _ hwake =>
          cases wakeStep_of_wake hwake with
          | lock hfree =>
              have hlist : s.queue.waiters ≠ none := by
                simpa [State.joins, hk, Option.isSome_iff_ne_none] using hjoins
              refine hut (hsafe.sending t u (Or.inl ⟨hturn _ rfl, hlist⟩) hu' ?_).symm
              rw [← hcend]
              exact hsep.cend u
          | _ => simp [State.joins, hk] at hjoins
      | terminate at_ at' _ hwake =>
          cases wakeStep_of_wake hwake with
          | lock hfree =>
              have hlist : s.queue.waiters ≠ none := by
                simpa [State.joins, hk, Option.isSome_iff_ne_none] using hjoins
              refine hut (hsafe.sending t u (Or.inl ⟨hturn _ rfl, hlist⟩) hu' ?_).symm
              rw [← hcend]
              exact hsep.cend u
          | _ => simp [State.joins, hk] at hjoins
      | _ => simp [State.joins, hk] at hjoins
  · intro hok
    have hs' := hs.step (System.guarded_step.mpr ⟨hok, hstep⟩)
    rcases separated_of_reachable hs' with ⟨s₁, -, dest, inFlight, -, hsep⟩
    exact hsep.chanendsSafe

end Simulation

/-! ## The clients of a dispatch queue -/

section Dispatch

variable {C : Type} {N : Nat} {β υ : Type}

/-- The condition on a step of a dispatch queue: a client links its node in
{lit}`queue_send`, or takes the spinlock for a waking loop over a list that is not empty, only
while no other client awaits its byte. -/
def clientsOk (s : State (C ⊕ Fin N) (Option (Fin N)) Nat (Local C) (Env C N β υ))
    (u : C ⊕ Fin N) : Prop :=
  u.isLeft = true → s.joins u = true → ∀ c, .inl c ≠ u → s.phase (.inl c) ≠ .awaiting

instance [Fintype C] [DecidableEq C]
    (s : State (C ⊕ Fin N) (Option (Fin N)) Nat (Local C) (Env C N β υ)) (u : C ⊕ Fin N) :
    Decidable (clientsOk s u) :=
  inferInstanceAs (Decidable (_ → _ → ∀ _, _ → _))

/-- Workers have channel ends of their own, so the condition is about the clients. -/
theorem clientsOk_iff
    (handshake : Bool) (s : State (C ⊕ Fin N) (Option (Fin N)) Nat (Local C) (Env C N β υ))
    (u : C ⊕ Fin N) : clientsOk s u ↔ chanendOk (dispatchWiring C N handshake) s u := by
  constructor
  · intro h hjoins v hvu hv hcend
    cases u with
    | inl _ =>
        cases v with
        | inl c' => exact h rfl hjoins c' hvu hv
        | inr _ => cases hcend
    | inr j =>
        cases v with
        | inl c' => cases hcend
        | inr i =>
            cases hcend
            exact hvu rfl
  · intro h hclient hjoins c hcu hc
    cases u with
    | inl _ => exact h hjoins (.inl c) hcu hc rfl
    | inr i => cases hclient

variable [DecidableEq C]

/-- Several clients of a dispatch queue.  A run passes only through states in which no two
nodes on the list carry the same channel end, no two threads await their byte on the same one,
and no thread sends from one on which another thread awaits its byte, if and only if in all
its steps a client enlists, or wakes the threads on the list, only while no other client is
asleep in {lit}`queue_send`. -/
theorem clients_share_chanend (d : DispatchConfig C N β υ) (handshake : Bool)
    [∀ (s : State (C ⊕ Fin N) (Option (Fin N)) Nat (Local C) (Env C N β υ)) u,
      Decidable (clientsOk s u)]
    {us : List (C ⊕ Fin N)}
    {s : State (C ⊕ Fin N) (Option (Fin N)) Nat (Local C) (Env C N β υ)}
    (hrun : (d.threads handshake).run (d.threads handshake).init us = some s) :
    (d.threads handshake).Along (ChanendsSafe (dispatchWiring C N handshake)) us ↔
      ((d.threads handshake).guarded clientsOk).run (d.threads handshake).init us = some s := by
  have hok : ∀ (s : State (C ⊕ Fin N) (Option (Fin N)) Nat (Local C) (Env C N β υ)) u,
      clientsOk s u ↔ chanendOk (dispatchWiring C N handshake) s u := clientsOk_iff handshake
  have : ∀ (s : State (C ⊕ Fin N) (Option (Fin N)) Nat (Local C) (Env C N β υ)) u,
      Decidable (chanendOk (dispatchWiring C N handshake) s u) := fun s u =>
    decidable_of_iff _ (hok s u)
  have htransfer : ∀ s, ((d.threads handshake).guarded clientsOk).Reachable s →
      ((d.threads handshake).guarded (chanendOk (dispatchWiring C N handshake))).Reachable s := by
    intro s hs
    induction hs with
    | init => exact .init
    | step _ ha ih =>
        rcases System.guarded_step.mp ha with ⟨hclients, hstep⟩
        exact ih.step (System.guarded_step.mpr ⟨(hok _ _).mp hclients, hstep⟩)
  refine System.along_iff_guarded ?_ ?_ hrun
  · rcases separated_of_reachable (htransfer _ .init) with ⟨s₁, -, dest, inFlight, -, hsep⟩
    exact hsep.chanendsSafe
  · intro s u s' hs _ hstep
    rw [chanendsSafe_step (htransfer s hs) hstep, hok]

end Dispatch

/-! ## Two clients on a full queue -/

/-- One client adds two tasks, the other one; the queue has one slot. -/
def twoClients : DispatchConfig (Fin 2) 1 Unit Nat where
  length := 1
  length_pos := Nat.one_pos
  useCallersThread := false
  prog := fun c => if c = 0 then [.taskAdd 0, .taskAdd 1] else [.taskAdd 2]
  heap := ⟨fun _ => dispatchTaskInit (fun _ n => n + 1) () false, fun _ => ⟨0, false, []⟩⟩
  user := 0

/-- The first client fills the slot, finds the queue full and goes to sleep. -/
def fullSchedule : List (Fin 2 ⊕ Fin 1) :=
  List.replicate 20 (.inl 0)

/-- So far the condition is met, and no channel end is shared in a harmful way. -/
theorem clients_share_chanend_twoClients :
    (twoClients.threads true).Along (ChanendsSafe (dispatchWiring (Fin 2) 1 true))
      fullSchedule := by
  have h : (((twoClients.threads true).guarded clientsOk).run (twoClients.threads true).init
      fullSchedule).isSome = true := by decide
  have hrun := (Option.some_get h).symm
  exact (clients_share_chanend twoClients true (System.run_of_guarded hrun)).mpr hrun

/-- The second client finds the queue full, too, and links its node: both nodes carry the
channel end of the queue. -/
theorem clients_chanend_collides :
    ¬ ∀ s, (twoClients.threads true).Reachable s →
      ChanendsSafe (dispatchWiring (Fin 2) 1 true) s := by
  intro hclaim
  have hs := (twoClients.threads true).reachable_get_run
    (fullSchedule ++ List.replicate 6 (.inl 1)) (by decide)
  have hsame := (hclaim _ hs).awaiting (.inl 0) (.inl 1) (by decide) (by decide) (by decide)
  simp at hsame

end Metal
end LibDispatch
