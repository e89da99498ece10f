import LibDispatch.Library.PointerChain
import LibDispatch.Metal.QueueRefinement

/-!
# The waiters of the condition variable

A thread that has to wait puts its node in front of {lit}`cv->waiters`, gives back
the two locks and reads a byte from its channel end.  A thread that broadcasts
walks the list under the spinlock, sends a byte to each waiter and unlinks it.  At
every moment a linked thread is still without a byte, with one exception: the
first of the list, between the output of its byte and its unlinking.

Main results:

- Theorem {lit}`Waiting.step`: every step keeps the list of waiters and the bytes in
  flight in agreement with the positions of the threads.
- Theorem {lit}`waiting_of_reachable`: they agree in every reachable state of every
  caller, {lit}`queue_delete` included.
- Theorem {lit}`Waiting.rest_of_awaiting`: when outputs wait for their byte to be taken,
  no byte is in flight outside of them.
-/

namespace LibDispatch
namespace Metal

variable {ι χ α κ μ : Type}

/-! ## Positions of waiters and wakers -/

/-- What a position has to do with the list of waiters. -/
inductive CvPhase where
  | idle
  /-- Linked, and the byte not yet taken. -/
  | awaiting
  /-- Waking the first waiter: its byte has been output. -/
  | sending
  /-- Waking the first waiter: the output has returned. -/
  | unlinking
deriving DecidableEq, Repr

/-- The thread is between its output to the first waiter and the unlinking. -/
def CvPhase.Waking (p : CvPhase) : Prop :=
  p = .sending ∨ p = .unlinking

/-- The phase of a position in the waking loop. -/
def WakePc.phase : WakePc → CvPhase
  | .ack => .sending
  | .unlink => .unlinking
  | .lock | .test | .unlock => .idle

/-- The phase of a position in a queue function. -/
def Pc.phase : Pc α → CvPhase
  | .wait _ at_ => match at_ with
      | .unlock | .release | .chanIn => .awaiting
      | .lock | .link | .reacquire | .leave => .idle
  | .broadcast _ at_ | .terminate at_ => at_.phase
  | _ => .idle

/-- The phase after a step of a queue function. -/
def Control.phase : Control α → CvPhase
  | .goto pc => pc.phase
  | .ret _ => .idle

/-- The phase of a thread. -/
def Thread.phase : Thread κ α → CvPhase
  | .outside _ => .idle
  | .inside _ pc => pc.phase

@[simp]
theorem CvPhase.not_waking_idle : ¬ CvPhase.idle.Waking := by
  simp [CvPhase.Waking]

@[simp]
theorem CvPhase.not_waking_awaiting : ¬ CvPhase.awaiting.Waking := by
  simp [CvPhase.Waking]

@[simp]
theorem CvPhase.waking_sending : CvPhase.sending.Waking :=
  Or.inl rfl

@[simp]
theorem CvPhase.waking_unlinking : CvPhase.unlinking.Waking :=
  Or.inr rfl

@[simp]
theorem Thread.phase_outside (k : κ) : (Thread.outside k : Thread κ α).phase = .idle :=
  rfl

@[simp]
theorem Thread.phase_inside (k : κ) (pc : Pc α) : (Thread.inside k pc).phase = pc.phase :=
  rfl

@[simp]
theorem Thread.phase_resume (caller : Caller ι κ μ α) (t : ι) (k : κ) (c : Control α) :
    (Thread.resume caller t k c).phase = c.phase := by
  cases c <;> rfl

@[simp]
theorem Call.phase_entry (c : Call α) : c.entry.phase = .idle := by
  cases c <;> rfl

@[simp]
theorem QueueOp.phase_proceed (op : QueueOp α) : op.proceed.phase = .idle := by
  cases op <;> rfl

/-- A thread that is waking the first waiter holds the spinlock. -/
theorem Pc.holdsCvLock_of_waking {pc : Pc α} (h : pc.phase.Waking) :
    pc.holdsCvLock = true := by
  unfold Pc.phase at h
  split at h
  · split at h <;> simp at h
  · rename_i at_
    cases at_ <;> first | rfl | simp [WakePc.phase] at h
  · rename_i at_
    cases at_ <;> first | rfl | simp [WakePc.phase] at h
  · simp at h

/-! ## The agreement of list, bytes and positions -/

/-- The list {lit}`cv->waiters` visits {lit}`l`, of which {lit}`rest` are still to be woken.
A thread that awaits its byte is in {lit}`rest`, or its byte is in flight; no other
thread is in {lit}`rest` or has a byte in flight. -/
structure Waiting (wiring : Wiring ι χ) (q : Queue ι χ α) (phase : ι → CvPhase)
    (l rest : List ι) : Prop where
  chain : PointerChain.Chain (fun t => (q.node t).next) q.waiters l
  cend : ∀ t, (q.node t).cend = wiring.cend t
  settled : (∀ b, ¬ (phase b).Waking) → rest = l
  woken : ∀ b, (phase b).Waking → ∃ w, l = w :: rest ∧
    (phase b = .sending → q.dest (wiring.cend b) = wiring.cend w) ∧
    (phase b = .unlinking → wiring.handshake = true → phase w ≠ .awaiting)
  asleep : ∀ t, phase t = .awaiting →
    (t ∈ rest ∧ q.inFlight (wiring.cend t) = []) ∨
    (t ∉ rest ∧ ∃ e, q.inFlight (wiring.cend t) = [e])
  awake : ∀ t, phase t ≠ .awaiting → t ∉ rest ∧ q.inFlight (wiring.cend t) = []
  answered : wiring.handshake = true → ∀ t, phase t = .awaiting → t ∉ rest →
    l = t :: rest ∧ ∃ b, phase b = .sending

/-- The thread's node is in {lit}`cv->waiters`. -/
def Queue.Enlisted (q : Queue ι χ α) (t : ι) : Prop :=
  ∃ l, PointerChain.Chain (fun u => (q.node u).next) q.waiters l ∧ t ∈ l

namespace Waiting

variable {wiring : Wiring ι χ} {q q' : Queue ι χ α} {phase : ι → CvPhase} {l rest : List ι}
  {t w : ι}

theorem enlisted_iff (h : Waiting wiring q phase l rest) : q.Enlisted t ↔ t ∈ l := by
  constructor
  · rintro ⟨l', hl', ht⟩
    rwa [hl'.unique h.chain] at ht
  · exact fun ht => ⟨l, h.chain, ht⟩

/-- When outputs wait for their byte to be taken and no thread is in the middle of one,
every thread that awaits a byte is on the list and has none. -/
theorem rest_of_awaiting (h : Waiting wiring q phase l rest) (hhand : wiring.handshake = true)
    (hsending : ∀ b, phase b ≠ .sending) (ht : phase t = .awaiting) :
    t ∈ rest ∧ q.inFlight (wiring.cend t) = [] := by
  rcases h.asleep t ht with hmem | ⟨hmem, -⟩
  · exact hmem
  · rcases (h.answered hhand t ht hmem).2 with ⟨b, hb⟩
    exact absurd hb (hsending b)

/-- A thread with a byte in flight awaits it, and it is the only one. -/
theorem of_byte (h : Waiting wiring q phase l rest) {e : ConditionEvent}
    {bytes : List ConditionEvent} (hbyte : q.inFlight (wiring.cend t) = e :: bytes) :
    phase t = .awaiting ∧ t ∉ rest ∧ bytes = [] := by
  have hphase : phase t = .awaiting := by
    by_contra hne
    rw [(h.awake t hne).2] at hbyte
    cases hbyte
  rcases h.asleep t hphase with ⟨-, hnone⟩ | ⟨hrest, e', hone⟩
  · rw [hnone] at hbyte
    cases hbyte
  · rw [hone] at hbyte
    cases hbyte
    exact ⟨hphase, hrest, rfl⟩

/-- Steps that touch neither the list nor a byte and keep the phases. -/
theorem congr (h : Waiting wiring q phase l rest) (hnode : q'.node = q.node)
    (hwaiters : q'.waiters = q.waiters) (hdest : q'.dest = q.dest)
    (hflight : q'.inFlight = q.inFlight) : Waiting wiring q' phase l rest where
  chain := by simpa only [hnode, hwaiters] using h.chain
  cend := by simpa only [hnode] using h.cend
  settled := h.settled
  woken := by simpa only [hdest] using h.woken
  asleep := by simpa only [hflight] using h.asleep
  awake := by simpa only [hflight] using h.awake
  answered := h.answered

variable [DecidableEq ι] [DecidableEq χ]

omit [DecidableEq χ] in
/-- Linking a node under the spinlock. -/
theorem link (h : Waiting wiring q phase l rest) (hphase : phase t = .idle)
    (hnone : ∀ b, ¬ (phase b).Waking) :
    Waiting wiring
      { q with
        node := Function.update q.node t ⟨wiring.cend t, q.waiters⟩
        waiters := some t }
      (Function.update phase t .awaiting) (t :: l) (t :: l) := by
  have hrest := h.settled hnone
  subst hrest
  have ht := h.awake t (by simp [hphase])
  have hnone' : ∀ b, ¬ (Function.update phase t .awaiting b).Waking := by
    intro b
    by_cases hb : b = t
    · simp [hb]
    · simpa [hb] using hnone b
  refine ⟨?_, ?_, fun _ => rfl, fun b hb => absurd hb (hnone' b), ?_, ?_, ?_⟩
  · apply h.chain.link ht.1
    · simp
    · intro m hm
      simp [hm]
  · intro u
    by_cases hu : u = t
    · simp [hu]
    · simpa [hu] using h.cend u
  · intro u hu
    by_cases hut : u = t
    · subst hut
      exact Or.inl ⟨List.mem_cons_self, ht.2⟩
    · rw [Function.update_of_ne hut] at hu
      rcases h.asleep u hu with ⟨hmem, hbytes⟩ | ⟨hmem, hbytes⟩
      · exact Or.inl ⟨List.mem_cons_of_mem t hmem, hbytes⟩
      · exact Or.inr ⟨by simp [hut, hmem], hbytes⟩
  · intro u hu
    by_cases hut : u = t
    · simp [hut] at hu
    · rw [Function.update_of_ne hut] at hu
      have hu' := h.awake u hu
      exact ⟨by simp [hut, hu'.1], hu'.2⟩
  · intro hhand u hu hmem
    have hut : u ≠ t := by
      rintro rfl
      exact hmem List.mem_cons_self
    rw [Function.update_of_ne hut] at hu
    have hrest := h.rest_of_awaiting hhand (fun b hb => hnone b (Or.inl hb)) hu
    exact absurd (List.mem_cons_of_mem t hrest.1) hmem

/-- The byte of an output goes to the end of the first waiter. -/
theorem bytes_of_send (h : Waiting wiring q phase l rest)
    (hcend : Function.Injective wiring.cend) (evt : ConditionEvent) (hwt : w ≠ t) (u : ι) :
    (conditionVariableSend q (wiring.cend t) (q.node w).cend evt).inFlight (wiring.cend u) =
      if u = w then q.inFlight (wiring.cend w) ++ [evt] else q.inFlight (wiring.cend u) := by
  have hdest : Function.update (Function.update q.dest (wiring.cend t) (wiring.cend w))
      (wiring.cend w) (wiring.cend t) (wiring.cend t) = wiring.cend w := by
    rw [Function.update_of_ne (hcend.ne hwt.symm), Function.update_self]
  simp only [conditionVariableSend, h.cend w, hdest]
  by_cases hu : u = w
  · simp [hu]
  · rw [Function.update_of_ne (hcend.ne hu), if_neg hu]

omit [DecidableEq ι] [DecidableEq χ] in
/-- The first waiter is awaiting its byte while no thread is waking it. -/
theorem first (h : Waiting wiring q phase l rest) (hnone : ∀ b, ¬ (phase b).Waking)
    (hwaiters : q.waiters = some w) :
    ∃ rest', l = w :: rest' ∧ rest = w :: rest' ∧ phase w = .awaiting ∧
      q.inFlight (wiring.cend w) = [] := by
  have hrest := h.settled hnone
  subst hrest
  have hchain := h.chain
  rw [hwaiters] at hchain
  rcases hchain.eq_cons with ⟨rest', rfl, -⟩
  have hawaiting : phase w = .awaiting := by
    by_contra hne
    exact (h.awake w hne).1 List.mem_cons_self
  refine ⟨rest', rfl, rfl, hawaiting, ?_⟩
  rcases h.asleep w hawaiting with ⟨-, hnil⟩ | ⟨hmem, -⟩
  · exact hnil
  · exact absurd List.mem_cons_self hmem

/-- The output to the first waiter. -/
theorem send (h : Waiting wiring q phase l rest) (hcend : Function.Injective wiring.cend)
    (evt : ConditionEvent) (hphase : phase t = .idle) (hnone : ∀ b, ¬ (phase b).Waking)
    (hwaiters : q.waiters = some w) :
    ∃ rest', Waiting wiring (conditionVariableSend q (wiring.cend t) (q.node w).cend evt)
      (Function.update phase t .sending) l rest' := by
  rcases h.first hnone hwaiters with ⟨rest', rfl, rfl, hawaiting, hempty⟩
  have hw : w ∉ rest' := (List.nodup_cons.mp h.chain.nodup).1
  have hwt : w ≠ t := by
    rintro rfl
    simp [hphase] at hawaiting
  have hnone' : ∀ b, (Function.update phase t .sending b).Waking → b = t := by
    intro b hb
    by_contra hbt
    rw [Function.update_of_ne hbt] at hb
    exact hnone b hb
  have hbytes := h.bytes_of_send hcend evt hwt
  refine ⟨rest', h.chain, h.cend, ?_, ?_, ?_, ?_, ?_⟩
  · intro hno
    exact absurd (by simp) (hno t)
  · intro b hb
    have hbt := hnone' b hb
    subst hbt
    refine ⟨w, rfl, fun _ => ?_, by simp⟩
    simp only [conditionVariableSend, h.cend w]
    rw [Function.update_of_ne (hcend.ne hwt.symm), Function.update_self]
  · intro u hu
    have hut : u ≠ t := by
      rintro rfl
      simp at hu
    rw [Function.update_of_ne hut] at hu
    rw [hbytes u]
    by_cases huw : u = w
    · subst huw
      exact Or.inr ⟨hw, evt, by simp [hempty]⟩
    · rw [if_neg huw]
      rcases h.asleep u hu with ⟨hmem, hnil⟩ | ⟨hmem, hone⟩
      · refine Or.inl ⟨?_, hnil⟩
        simpa [huw] using hmem
      · exact Or.inr ⟨fun hmem' => hmem (List.mem_cons_of_mem w hmem'), hone⟩
  · intro u hu
    have huw : u ≠ w := by
      rintro rfl
      rw [Function.update_of_ne hwt] at hu
      exact hu hawaiting
    rw [hbytes u, if_neg huw]
    have hidle : phase u ≠ .awaiting := by
      by_cases hut : u = t
      · simp [hut, hphase]
      · simpa [hut] using hu
    have hu' := h.awake u hidle
    exact ⟨fun hmem => hu'.1 (List.mem_cons_of_mem w hmem), hu'.2⟩
  · intro hhand u hu hmem
    have hut : u ≠ t := by
      rintro rfl
      simp at hu
    rw [Function.update_of_ne hut] at hu
    -- before the output every waiter was still to be woken
    have hold := (h.rest_of_awaiting hhand (fun b hb => hnone b (Or.inl hb)) hu).1
    have huw : u = w := by simpa [hmem] using hold
    exact ⟨by rw [huw], t, by simp⟩

omit [DecidableEq χ] in
/-- The output returns. -/
theorem ack (h : Waiting wiring q phase l rest) (hphase : phase t = .sending)
    (honly : ∀ b, (phase b).Waking → b = t)
    (htaken : wiring.handshake = true → q.inFlight (q.dest (wiring.cend t)) = []) :
    Waiting wiring q (Function.update phase t .unlinking) l rest := by
  rcases h.woken t (by simp [hphase]) with ⟨w, rfl, hdest, -⟩
  have hw : w ∉ rest := (List.nodup_cons.mp h.chain.nodup).1
  have hawaiting : ∀ u, Function.update phase t .unlinking u = .awaiting ↔
      phase u = .awaiting := by
    intro u
    by_cases hut : u = t
    · simp [hut, hphase]
    · simp [hut]
  refine ⟨h.chain, h.cend, ?_, ?_, ?_, ?_, ?_⟩
  · intro hno
    exact absurd (by simp) (hno t)
  · intro b hb
    have hbt : b = t := by
      by_contra hne
      rw [Function.update_of_ne hne] at hb
      exact hne (honly b hb)
    subst hbt
    refine ⟨w, rfl, by simp, ?_⟩
    intro _ hhand hphasew
    rw [hawaiting] at hphasew
    have hnil := htaken hhand
    rw [hdest hphase] at hnil
    rcases h.asleep w hphasew with ⟨hmem, -⟩ | ⟨-, e, hone⟩
    · exact hw hmem
    · rw [hnil] at hone
      cases hone
  · exact fun u hu => h.asleep u ((hawaiting u).mp hu)
  · exact fun u hu => h.awake u fun hu' => hu ((hawaiting u).mpr hu')
  · intro hhand u hu hmem
    rw [hawaiting] at hu
    have huw : w = u := (List.cons.inj (h.answered hhand u hu hmem).1).1
    have hnil := htaken hhand
    rw [hdest hphase, huw] at hnil
    rcases h.asleep u hu with ⟨hmem', -⟩ | ⟨-, e, hone⟩
    · exact absurd hmem' hmem
    · rw [hnil] at hone
      cases hone

omit [DecidableEq χ] in
/-- The first waiter is unlinked. -/
theorem unlink (h : Waiting wiring q phase l rest) (hphase : phase t = .unlinking)
    (honly : ∀ b, (phase b).Waking → b = t) (hwaiters : q.waiters = some w) :
    Waiting wiring { q with waiters := (q.node w).next }
      (Function.update phase t .idle) rest rest := by
  rcases h.woken t (by simp [hphase]) with ⟨w', rfl, -⟩
  have hchain := h.chain
  rw [PointerChain.Chain.cons_iff, hwaiters] at hchain
  rcases hchain with ⟨heq, hrest⟩
  cases heq
  have hawaiting : ∀ u, Function.update phase t .idle u = .awaiting ↔
      phase u = .awaiting := by
    intro u
    by_cases hut : u = t
    · simp [hut, hphase]
    · simp [hut]
  have hnone : ∀ b, ¬ (Function.update phase t .idle b).Waking := by
    intro b hb
    by_cases hbt : b = t
    · simp [hbt] at hb
    · rw [Function.update_of_ne hbt] at hb
      exact hbt (honly b hb)
  refine ⟨hrest, h.cend, fun _ => rfl, fun b hb => absurd hb (hnone b), ?_, ?_, ?_⟩
  · exact fun u hu => h.asleep u ((hawaiting u).mp hu)
  · exact fun u hu => h.awake u fun hu' => hu ((hawaiting u).mpr hu')
  · intro hhand u hu hmem
    rcases (h.answered hhand u ((hawaiting u).mp hu) hmem).2 with ⟨b, hb⟩
    have hbt := honly b (Or.inl hb)
    rw [hbt, hphase] at hb
    cases hb

/-- A waiter takes its byte. -/
theorem take (h : Waiting wiring q phase l rest) (hcend : Function.Injective wiring.cend)
    {e : ConditionEvent} {bytes : List ConditionEvent}
    (hbyte : q.inFlight (q.node t).cend = e :: bytes) :
    Waiting wiring
      { q with inFlight := Function.update q.inFlight (q.node t).cend bytes }
      (Function.update phase t .idle) l rest := by
  rw [h.cend t] at hbyte ⊢
  rcases h.of_byte hbyte with ⟨hphase, hmem, rfl⟩
  have hwaking : ∀ b, (Function.update phase t .idle b).Waking ↔ (phase b).Waking := by
    intro b
    by_cases hbt : b = t
    · simp [hbt, hphase]
    · simp [hbt]
  refine ⟨h.chain, h.cend, ?_, ?_, ?_, ?_, ?_⟩
  · exact fun hno => h.settled fun b hb => hno b ((hwaking b).mpr hb)
  · intro b hb
    rw [hwaking] at hb
    have hbt : b ≠ t := by
      rintro rfl
      simp [hphase] at hb
    rcases h.woken b hb with ⟨w, hl, hdest, htaken⟩
    refine ⟨w, hl, ?_, ?_⟩
    · rw [Function.update_of_ne hbt]
      exact hdest
    · rw [Function.update_of_ne hbt]
      intro hb' hhand hw
      by_cases hwt : w = t
      · simp [hwt] at hw
      · exact htaken hb' hhand (by simpa [hwt] using hw)
  · intro u hu
    have hut : u ≠ t := by
      rintro rfl
      simp at hu
    rw [Function.update_of_ne hut] at hu
    simpa [hcend.ne hut] using h.asleep u hu
  · intro u hu
    by_cases hut : u = t
    · subst hut
      exact ⟨hmem, by simp⟩
    · rw [Function.update_of_ne hut] at hu
      simpa [hcend.ne hut] using h.awake u hu
  · intro hhand u hu hmem'
    have hut : u ≠ t := by
      rintro rfl
      simp at hu
    rw [Function.update_of_ne hut] at hu
    rcases h.answered hhand u hu hmem' with ⟨hl, b, hb⟩
    have hbt : b ≠ t := by
      rintro rfl
      rw [hphase] at hb
      cases hb
    exact ⟨hl, b, by rw [Function.update_of_ne hbt, hb]⟩

end Waiting

/-! ## The invariant -/

/-- The phases of the threads of a state. -/
def State.phase (s : State ι χ α κ μ) (t : ι) : CvPhase :=
  (s.thread t).phase

section Invariant

variable [DecidableEq ι] [DecidableEq χ] {wiring : Wiring ι χ} {caller : Caller ι κ μ α}
  {length : Nat} {env : μ} {start : ι → κ} {s s' : State ι χ α κ μ} {t : ι}
  {l rest : List ι}

omit [DecidableEq χ] in
theorem State.phase_update (s : State ι χ α κ μ) (q : Queue ι χ α) (env : μ) (t : ι)
    (th : Thread κ α) :
    State.phase { s with queue := q, env := env, thread := Function.update s.thread t th } =
      Function.update s.phase t th.phase := by
  funext u
  by_cases hu : u = t
  · simp [State.phase, hu]
  · simp [State.phase, hu]

omit [DecidableEq ι] [DecidableEq χ] in
/-- Only the owner of the spinlock is waking a waiter. -/
theorem Locked.waking_eq (hl : Locked s) (ht : (s.thread t).HoldsCvLock) {b : ι}
    (hb : (s.phase b).Waking) : b = t := by
  refine hl.cvLock.exclusive ?_ ht
  unfold State.phase at hb
  cases hth : s.thread b with
  | outside k => simp [hth] at hb
  | inside k pc =>
      rw [hth] at hb
      exact Pc.holdsCvLock_of_waking hb

omit [DecidableEq ι] [DecidableEq χ] in
/-- While the owner of the spinlock is not waking a waiter, nobody is. -/
theorem Locked.not_waking (hl : Locked s) (ht : (s.thread t).HoldsCvLock)
    (hphase : ¬ (s.phase t).Waking) (b : ι) : ¬ (s.phase b).Waking := by
  intro hb
  have hbt := hl.waking_eq ht hb
  subst hbt
  exact hphase hb

/-- A turn of the waking loop. -/
theorem WakeStep.waiting (hcend : Function.Injective wiring.cend) (hl : Locked s)
    {evt : ConditionEvent} {q' : Queue ι χ α} {at_ at' : WakePc}
    (hw : WakeStep evt wiring s.queue t at_ q' at')
    (hholds : at_.holdsLock = true → (s.thread t).HoldsCvLock)
    (hphase : s.phase t = at_.phase) (h : Waiting wiring s.queue s.phase l rest) :
    ∃ l' rest', Waiting wiring q' (Function.update s.phase t at'.phase) l' rest' := by
  have hsame : ∀ p, s.phase t = p → Function.update s.phase t p = s.phase := by
    rintro _ rfl
    exact Function.update_eq_self t s.phase
  cases hw with
  | lock hfree =>
      rw [hsame (WakePc.phase .test) hphase]
      exact ⟨l, rest, h.congr rfl rfl rfl rfl⟩
  | testEmpty hwaiters =>
      rw [hsame (WakePc.phase .unlock) hphase]
      exact ⟨l, rest, h⟩
  | send w hwaiters =>
      have hnone := hl.not_waking (hholds rfl) (by simp [hphase, WakePc.phase])
      rcases h.send hcend evt hphase hnone hwaiters with ⟨rest', h'⟩
      exact ⟨l, rest', h'⟩
  | ack htaken =>
      have honly : ∀ b, (s.phase b).Waking → b = t := fun b hb =>
        hl.waking_eq (hholds rfl) hb
      exact ⟨l, rest, h.ack hphase honly htaken⟩
  | unlink w hwaiters =>
      have honly : ∀ b, (s.phase b).Waking → b = t := fun b hb =>
        hl.waking_eq (hholds rfl) hb
      exact ⟨rest, rest, h.unlink hphase honly hwaiters⟩

/-- Every step keeps the list of waiters and the bytes in flight in agreement with
the positions. -/
theorem Waiting.step (hcend : Function.Injective wiring.cend) (hl : Locked s)
    (h : Waiting wiring s.queue s.phase l rest)
    (hstep : (threads wiring caller length env start).step s t = some s') :
    ∃ l' rest', Waiting wiring s'.queue s'.phase l' rest' := by
  rcases threads_step_cases hstep with
    ⟨k, c, hk, -, rfl⟩ | ⟨k, k', env', hk, -, -, rfl⟩ | ⟨k, pc, q', c, hk, hq, rfl⟩
  · have hphase : s.phase t = (Thread.inside k c.entry).phase := by simp [State.phase, hk]
    rw [State.phase_update, ← hphase, Function.update_eq_self]
    exact ⟨l, rest, h⟩
  · have hphase : s.phase t = (Thread.outside k' : Thread κ α).phase := by
      simp [State.phase, hk]
    rw [State.phase_update, ← hphase, Function.update_eq_self]
    exact ⟨l, rest, h⟩
  · rw [State.phase_update, Thread.phase_resume]
    have hphase : s.phase t = pc.phase := by simp [State.phase, hk]
    have hholds : pc.holdsCvLock = true → (s.thread t).HoldsCvLock := by simp [hk]
    have hsame : c.phase = pc.phase → Function.update s.phase t c.phase = s.phase := by
      intro heq
      rw [heq, ← hphase]
      exact Function.update_eq_self t s.phase
    cases queueStep_of_step hq with
    | waitLink op =>
        have hnone := hl.not_waking (hholds rfl) (by simp [hphase, Pc.phase])
        exact ⟨_, _, h.link hphase hnone⟩
    | chanInSignal op bytes hbyte => exact ⟨l, rest, h.take hcend hbyte⟩
    | chanInTerminate op bytes hbyte => exact ⟨l, rest, h.take hcend hbyte⟩
    | broadcast result at_ at' _ hwake =>
        exact (wakeStep_of_wake hwake).waiting hcend hl hholds hphase h
    | terminate at_ at' _ hwake =>
        exact (wakeStep_of_wake hwake).waiting hcend hl hholds hphase h
    | testProceed op _ =>
        rw [hsame (by cases op <;> rfl)]
        exact ⟨l, rest, h⟩
    | overwrite item =>
        rw [hsame rfl]
        refine ⟨l, rest, ?_⟩
        split
        · exact h.congr rfl rfl rfl rfl
        · exact h
    | _ =>
        rw [hsame rfl]
        exact ⟨l, rest, h.congr rfl rfl rfl rfl⟩

/-- A turn of the waking loop does not touch a byte that is in flight. -/
theorem WakeStep.byte_stays (hcend : Function.Injective wiring.cend) (hl : Locked s)
    (h : Waiting wiring s.queue s.phase l rest) {evt : ConditionEvent} {q' : Queue ι χ α}
    {at_ at' : WakePc} (hw : WakeStep evt wiring s.queue t at_ q' at')
    (hholds : at_.holdsLock = true → (s.thread t).HoldsCvLock)
    (hphase : s.phase t = at_.phase) {u : ι}
    (hbyte : s.queue.inFlight (wiring.cend u) ≠ []) :
    q'.inFlight (wiring.cend u) = s.queue.inFlight (wiring.cend u) := by
  cases hw with
  | send w hwaiters =>
      have hnone := hl.not_waking (hholds rfl) (by simp [hphase, WakePc.phase])
      rcases h.first hnone hwaiters with ⟨rest', -, -, hawaiting, hempty⟩
      have hwt : w ≠ t := by
        rintro rfl
        simp [hphase, WakePc.phase] at hawaiting
      have huw : u ≠ w := by
        rintro rfl
        exact hbyte hempty
      rw [h.bytes_of_send hcend evt hwt, if_neg huw]
  | _ => rfl

/-- A byte in flight stays until the thread that awaits it takes it. -/
theorem Waiting.byte_stays (hcend : Function.Injective wiring.cend) (hl : Locked s)
    (h : Waiting wiring s.queue s.phase l rest)
    (hstep : (threads wiring caller length env start).step s t = some s') {u : ι}
    (hut : u ≠ t) (hbyte : s.queue.inFlight (wiring.cend u) ≠ []) :
    s'.queue.inFlight (wiring.cend u) = s.queue.inFlight (wiring.cend u) := by
  rcases threads_step_cases hstep with
    ⟨k, c, hk, -, rfl⟩ | ⟨k, k', env', hk, -, -, rfl⟩ | ⟨k, pc, q', c, hk, hq, rfl⟩
  · rfl
  · rfl
  · have hphase : s.phase t = pc.phase := by simp [State.phase, hk]
    have hholds : pc.holdsCvLock = true → (s.thread t).HoldsCvLock := by simp [hk]
    have hother : wiring.cend u ≠ (s.queue.node t).cend := by
      rw [h.cend t]
      exact hcend.ne hut
    cases queueStep_of_step hq with
    | chanInSignal op bytes _ => simp [hother]
    | chanInTerminate op bytes _ => simp [hother]
    | broadcast result at_ at' _ hwake =>
        exact (wakeStep_of_wake hwake).byte_stays hcend hl h hholds hphase hbyte
    | terminate at_ at' _ hwake =>
        exact (wakeStep_of_wake hwake).byte_stays hcend hl h hholds hphase hbyte
    | overwrite item =>
        simp only
        split <;> rfl
    | _ => rfl

/-- List, bytes and positions agree in every reachable state of every caller. -/
theorem waiting_of_reachable (hcend : Function.Injective wiring.cend)
    (hs : (threads wiring caller length env start).Reachable s) :
    ∃ l rest, Waiting wiring s.queue s.phase l rest := by
  refine hs.invariant (P := fun s => ∃ l rest, Waiting wiring s.queue s.phase l rest) ?_ ?_
  · refine ⟨[], [], rfl, fun _ => rfl, fun _ => rfl, ?_, ?_, ?_, ?_⟩
    · intro b hb
      simp [State.phase, threads] at hb
    · intro u hu
      simp [State.phase, threads] at hu
    · exact fun u _ => ⟨by simp, rfl⟩
    · intro _ u hu
      simp [State.phase, threads] at hu
  · rintro s t s' hr ⟨l, rest, h⟩ hstep
    exact h.step hcend (locked_of_reachable hr) hstep

end Invariant

end Metal
end LibDispatch
