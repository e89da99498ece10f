import LibDispatch.Metal.QueueRefinement

/-!
# The queue in machine arithmetic

{lit}`queue_t` keeps its indices and its length in words of type {lit}`size_t`, so that
{lit}`head + 1`, {lit}`tail + 1` and {lit}`length + head - tail` are computed modulo a power of two.
This file embeds the fields with words of {lit}`w` bits and the critical sections of
{lit}`queue_send` and {lit}`queue_receive` as functions on them.  For every length that a word
can hold, the words are the numbers that the rest of the development computes with.

Main results:

- Theorem {lit}`machine_queue_exact`: bounds, {lit}`queue_size`, {lit}`queue_full`,
  {lit}`queue_empty` and the live slots after any sequence of critical sections.
- Theorem {lit}`Agrees.step`: in every interleaving the fields in machine words stay equal to
  those of {lit}`Queue`.
-/

namespace LibDispatch
namespace Metal

variable {ι χ α κ μ : Type} {w : Nat}

/-! ## The fields in machine words -/

/-- The fields of {lit}`queue_t` under its mutex, for a {lit}`size_t` of {lit}`w` bits. -/
structure MachineQueue (w : Nat) (α : Type) where
  ringBuffer : BitVec w → Option α
  head : BitVec w
  tail : BitVec w
  length : BitVec w
  full : Bool

namespace MachineQueue

/-- {lit}`queue_create`.  The ring buffer is taken to have {lit}`length` slots; the product
{lit}`sizeof(void *) * length` of its allocation, which can overflow too, is not modelled. -/
def queueCreate (length : BitVec w) : MachineQueue w α where
  ringBuffer := fun _ => none
  head := 0
  tail := 0
  length := length
  full := false

/-- {lit}`queue_full`. -/
def queueFull (m : MachineQueue w α) : Bool :=
  m.full

/-- {lit}`queue_empty`. -/
def queueEmpty (m : MachineQueue w α) : Bool :=
  !m.full && m.head == m.tail

/-- {lit}`queue_size`. -/
def queueSize (m : MachineQueue w α) : BitVec w :=
  if m.full = false then
    if m.tail ≤ m.head then m.head - m.tail else m.length + m.head - m.tail
  else m.length

/-- {lit}`queue->ring_buffer[queue->head] = item` -/
def store (m : MachineQueue w α) (item : α) : MachineQueue w α :=
  { m with ringBuffer := Function.update m.ringBuffer m.head (some item) }

/-- {lit}`if (queue->full) queue->tail = ...` -/
def overwrite (m : MachineQueue w α) : MachineQueue w α :=
  if m.full = true then { m with tail := (m.tail + 1) % m.length } else m

/-- {lit}`queue->head = (queue->head + 1) % queue->length` -/
def advanceHead (m : MachineQueue w α) : MachineQueue w α :=
  { m with head := (m.head + 1) % m.length }

/-- {lit}`queue->full = (queue->head == queue->tail)` -/
def setFull (m : MachineQueue w α) : MachineQueue w α :=
  { m with full := decide (m.head = m.tail) }

/-- {lit}`queue->full = false` -/
def clearFull (m : MachineQueue w α) : MachineQueue w α :=
  { m with full := false }

/-- {lit}`queue->tail = (queue->tail + 1) % queue->length` -/
def advanceTail (m : MachineQueue w α) : MachineQueue w α :=
  { m with tail := (m.tail + 1) % m.length }

/-- The statement at a position of a queue function, as far as it concerns the fields. -/
def exec (m : MachineQueue w α) : Pc α → MachineQueue w α
  | .store item => m.store item
  | .overwrite _ => m.overwrite
  | .advanceHead _ => m.advanceHead
  | .setFull _ => m.setFull
  | .clearFull _ => m.clearFull
  | .advanceTail _ => m.advanceTail
  | _ => m

/-- The critical section of {lit}`queue_send`. -/
def send (m : MachineQueue w α) (item : α) : MachineQueue w α :=
  (m.store item).overwrite.advanceHead.setFull

/-- The critical section of {lit}`queue_receive`, with the item stored to {lit}`*item`. -/
def receive (m : MachineQueue w α) : Option (MachineQueue w α × α) :=
  (m.ringBuffer m.tail).map fun item => (m.clearFull.advanceTail, item)

end MachineQueue

/-- Sends and receives, one critical section at a time: a send after {lit}`queue_full` was
false, a receive after {lit}`queue_empty` was. -/
def criticalSections (w length : Nat) : System (MachineQueue w α) (QueueOp α) where
  init := .queueCreate (BitVec.ofNat w length)
  step m
    | .send item => if m.queueFull = false then some (m.send item) else none
    | .receive => if m.queueEmpty = false then m.receive.map Prod.fst else none

/-- The item sent or received in a critical section. -/
def sectionEvents (m : MachineQueue w α) : QueueOp α → List (Unit × QueueEvent α)
  | .send item => [((), .sent item)]
  | .receive => (m.ringBuffer m.tail).toList.map fun item => ((), .received item)

/-! ## The words are numbers -/

/-- The fields in words have the values of those in numbers. -/
structure Agrees (m : MachineQueue w α) (q : Queue ι χ α) : Prop where
  head : m.head.toNat = q.head
  tail : m.tail.toNat = q.tail
  length : m.length.toNat = q.length
  full : m.full = q.full
  slot : ∀ i < q.length, m.ringBuffer (BitVec.ofNat w i) = q.ringBuffer i

section Agreement

variable {m : MachineQueue w α} {q q' : Queue ι χ α} {xs : List α} {item : α}

/-- An index of the ring fits a word. -/
theorem Agrees.toNat_ofNat (h : Agrees m q) {i : Nat} (hi : i < q.length) :
    (BitVec.ofNat w i).toNat = i := by
  have hlt := m.length.isLt
  rw [h.length] at hlt
  rw [BitVec.toNat_ofNat]
  exact Nat.mod_eq_of_lt (Nat.lt_trans hi hlt)

/-- The slot at a word. -/
theorem Agrees.slot_eq (h : Agrees m q) {i : BitVec w} (hi : i.toNat < q.length) :
    m.ringBuffer i = q.ringBuffer i.toNat := by
  rw [← h.slot i.toNat hi, BitVec.ofNat_toNat, BitVec.setWidth_eq]

theorem Agrees.queueEmpty_eq (h : Agrees m q) : m.queueEmpty = queueEmpty q := by
  have heq : (m.head = m.tail) ↔ q.head = q.tail := by
    rw [← h.head, ← h.tail, BitVec.toNat_inj]
  unfold MachineQueue.queueEmpty queueEmpty
  rw [h.full, Bool.eq_iff_iff]
  simp [heq]

/-- {lit}`queue_size` is exact, although {lit}`length + head` may wrap around. -/
theorem Agrees.queueSize_eq (h : Agrees m q) (hq : q.Holds xs) :
    m.queueSize.toNat = queueSize q := by
  have htail : m.tail.toNat < m.length.toNat := by
    rw [h.tail, h.length]
    exact hq.tail_lt
  have hle : m.tail ≤ m.head ↔ q.tail ≤ q.head := by
    rw [BitVec.le_def, h.head, h.tail]
  unfold MachineQueue.queueSize queueSize
  rw [h.full]
  by_cases hfull : q.full = false
  · rw [if_pos hfull, if_pos hfull]
    by_cases hwrap : q.tail ≤ q.head
    · rw [if_pos (hle.mpr hwrap), if_pos hwrap, BitVec.toNat_sub_of_le (hle.mpr hwrap), h.head,
        h.tail]
    · have hlt : m.head.toNat < m.tail.toNat := by
        rw [h.head, h.tail]
        exact Nat.lt_of_not_le hwrap
      rw [if_neg fun hm => hwrap (hle.mp hm), if_neg hwrap,
        RingBuffer.toNat_distance htail hlt, h.length, h.head, h.tail]
  · rw [if_neg hfull, if_neg hfull, h.length]

/-! ## Statements -/

theorem Agrees.store (h : Agrees m q) (item : α) :
    Agrees (m.store item)
      { q with ringBuffer := Function.update q.ringBuffer q.head (some item) } := by
  refine ⟨h.head, h.tail, h.length, h.full, fun i hi => ?_⟩
  by_cases heq : i = q.head
  · have hword : BitVec.ofNat w i = m.head := by
      rw [heq, ← h.head, BitVec.ofNat_toNat, BitVec.setWidth_eq]
    simp only [MachineQueue.store]
    rw [hword, heq, Function.update_self, Function.update_self]
  · have hword : BitVec.ofNat w i ≠ m.head := by
      intro hword
      rw [← h.head, ← hword, h.toNat_ofNat hi] at heq
      exact heq rfl
    simp only [MachineQueue.store]
    rw [Function.update_of_ne hword, Function.update_of_ne heq]
    exact h.slot i hi

theorem Agrees.overwrite (h : Agrees m q) (hfull : q.full = false) : Agrees m.overwrite q := by
  have hm : ¬ m.full = true := by simp [h.full, hfull]
  unfold MachineQueue.overwrite
  rwa [if_neg hm]

theorem Agrees.advanceHead (h : Agrees m q) (hhead : q.head < q.length) :
    Agrees m.advanceHead { q with head := (q.head + 1) % q.length } := by
  refine ⟨?_, h.tail, h.length, h.full, h.slot⟩
  have hlt : m.head.toNat < m.length.toNat := by rwa [h.head, h.length]
  exact (RingBuffer.toNat_advance hlt).trans (by rw [h.head, h.length])

theorem Agrees.setFull (h : Agrees m q) :
    Agrees m.setFull { q with full := decide (q.head = q.tail) } := by
  refine ⟨h.head, h.tail, h.length, ?_, h.slot⟩
  have heq : (m.head = m.tail) ↔ q.head = q.tail := by
    rw [← h.head, ← h.tail, BitVec.toNat_inj]
  simp [MachineQueue.setFull, heq]

theorem Agrees.clearFull (h : Agrees m q) : Agrees m.clearFull { q with full := false } :=
  ⟨h.head, h.tail, h.length, rfl, h.slot⟩

theorem Agrees.advanceTail (h : Agrees m q) (htail : q.tail < q.length) :
    Agrees m.advanceTail { q with tail := (q.tail + 1) % q.length } := by
  refine ⟨h.head, ?_, h.length, h.full, h.slot⟩
  have hlt : m.tail.toNat < m.length.toNat := by rwa [h.tail, h.length]
  exact (RingBuffer.toNat_advance hlt).trans (by rw [h.tail, h.length])

/-- The waking loop leaves the fields alone. -/
theorem WakeStep.agrees [DecidableEq χ] {wiring : Wiring ι χ} {t : ι} {evt : ConditionEvent}
    {at_ at' : WakePc} (hstep : WakeStep evt wiring q t at_ q' at') (h : Agrees m q) :
    Agrees m q' := by
  cases hstep <;> exact ⟨h.head, h.tail, h.length, h.full, h.slot⟩

/-- A statement in words agrees with the statement in numbers. -/
theorem Agrees.exec [DecidableEq ι] [DecidableEq χ] {wiring : Wiring ι χ} {t : ι} {pc : Pc α}
    {c : Control α} (h : Agrees m q) (hphase : pc.holdsMutex = true → RingPhase q xs pc)
    (hstep : QueueStep wiring q t pc q' c) : Agrees (m.exec pc) q' := by
  cases hstep with
  | store item => exact h.store item
  | overwrite item =>
      have hfull : q.full = false := (hphase rfl).2.1
      rw [if_neg (by simp [hfull])]
      exact h.overwrite hfull
  | advanceHead item => exact h.advanceHead (hphase rfl).1.head_lt
  | setFull item => exact h.setFull
  | clearFull item => exact h.clearFull
  | advanceTail item =>
      rcases hphase rfl with ⟨-, full, rest, hq, -⟩
      exact h.advanceTail hq.tail_lt
  | broadcast result at_ at' _ hwake => exact (wakeStep_of_wake hwake).agrees h
  | terminate at_ at' _ hwake => exact (wakeStep_of_wake hwake).agrees h
  | _ => exact ⟨h.head, h.tail, h.length, h.full, h.slot⟩

end Agreement

/-! ## Every interleaving -/

section Threads

variable [DecidableEq ι] [DecidableEq χ] {wiring : Wiring ι χ} {caller : Caller ι κ μ α}
  {length : Nat} {env : μ} {start : ι → κ} {s s' : State ι χ α κ μ} {t : ι}
  {m : MachineQueue w α}

/-- The fields in words after the next step of a thread. -/
def MachineQueue.next (m : MachineQueue w α) (s : State ι χ α κ μ) (t : ι) :
    MachineQueue w α :=
  match s.thread t with
  | .outside _ => m
  | .inside _ pc => m.exec pc

/-- Any threads, with the fields in words beside those in numbers. -/
def machineThreads (w : Nat) (wiring : Wiring ι χ) (caller : Caller ι κ μ α) (length : Nat)
    (env : μ) (start : ι → κ) : System (State ι χ α κ μ × MachineQueue w α) ι where
  init := ((threads wiring caller length env start).init, .queueCreate (BitVec.ofNat w length))
  step p t := ((threads wiring caller length env start).step p.1 t).map fun s' =>
    (s', p.2.next p.1 t)

omit [DecidableEq ι] [DecidableEq χ] in
/-- {lit}`queue_create` in words and in numbers. -/
theorem agrees_init (hlength : length < 2 ^ w) :
    Agrees (MachineQueue.queueCreate (BitVec.ofNat w length) : MachineQueue w α)
      (queueCreate wiring length) := by
  refine ⟨BitVec.toNat_zero, BitVec.toNat_zero, ?_, rfl, fun _ _ => rfl⟩
  change (BitVec.ofNat w length).toNat = length
  rw [BitVec.toNat_ofNat]
  exact Nat.mod_eq_of_lt hlength

/-- Every step of any threads leaves the fields in words equal to those in numbers. -/
theorem Agrees.step (hlength : 0 < length)
    (hs : (threads wiring caller length env start).Reachable s) (h : Agrees m s.queue)
    (hstep : (threads wiring caller length env start).step s t = some s') :
    Agrees (m.next s t) s'.queue := by
  rcases contents_of_reachable hlength hs with ⟨xs, hcontents⟩
  rcases threads_step_cases hstep with
    ⟨k, c, hk, -, rfl⟩ | ⟨k, k', env', hk, -, -, rfl⟩ | ⟨k, pc, q', c, hk, hq, rfl⟩
  · rwa [MachineQueue.next, hk]
  · rwa [MachineQueue.next, hk]
  · rw [MachineQueue.next, hk]
    exact h.exec (hcontents.owner t k pc hk) (queueStep_of_step hq)

/-- In every interleaving the fields in words equal those in numbers. -/
theorem agrees_of_reachable (hlength : 0 < length) (hword : length < 2 ^ w)
    {p : State ι χ α κ μ × MachineQueue w α}
    (hp : (machineThreads w wiring caller length env start).Reachable p) :
    Agrees p.2 p.1.queue := by
  have hboth : (threads wiring caller length env start).Reachable p.1 ∧
      Agrees p.2 p.1.queue := by
    refine hp.invariant (P := fun p => (threads wiring caller length env start).Reachable p.1 ∧
      Agrees p.2 p.1.queue) ⟨.init, agrees_init hword⟩ ?_
    rintro p t p' - ⟨hs, h⟩ hstep
    rcases Option.map_eq_some_iff.mp hstep with ⟨s', hs', rfl⟩
    exact ⟨hs.step hs', h.step hlength hs hs'⟩
  exact hboth.2

end Threads

/-! ## Critical sections -/

section Sections

variable {m m' : MachineQueue w α} {q : Queue Unit Unit α} {xs : List α} {item : α}
  {length : Nat}

/-- The critical section of {lit}`queue_send` appends the item. -/
theorem Agrees.send (h : Agrees m q) (hq : q.Holds xs) (hfull : q.full = false) (item : α) :
    ∃ q' : Queue Unit Unit α, Agrees (m.send item) q' ∧ q'.Holds (xs ++ [item]) ∧
      q'.length = q.length := by
  have hstored := hq.write_head hfull item
  have hpushed := hstored.push hfull (Function.update_self ..)
  have hagrees := (((h.store item).overwrite hfull).advanceHead hstored.head_lt).setFull
  exact ⟨_, hagrees, hpushed, rfl⟩

/-- The critical section of {lit}`queue_receive` removes the oldest item. -/
theorem Agrees.receive (h : Agrees m q) (hq : q.Holds (item :: xs)) :
    ∃ q' : Queue Unit Unit α, m.receive = some (m.clearFull.advanceTail, item) ∧
      Agrees m.clearFull.advanceTail q' ∧ q'.Holds xs ∧ q'.length = q.length := by
  have htail : m.tail.toNat < q.length := by
    rw [h.tail]
    exact hq.tail_lt
  have hslot : m.ringBuffer m.tail = some item := by
    rw [h.slot_eq htail, h.tail]
    exact hq.slot_tail
  refine ⟨_, ?_, h.clearFull.advanceTail hq.tail_lt, hq.pop, rfl⟩
  simp [MachineQueue.receive, hslot]

/-- After any critical sections the fields hold what was sent and not received. -/
theorem agrees_of_traced (hlength : 0 < length) (hword : length < 2 ^ w)
    {tr : List (Unit × QueueEvent α)}
    (h : (criticalSections w length).Traced sectionEvents m tr) :
    ∃ (q : Queue Unit Unit α) (xs : List α), Agrees m q ∧ q.Holds xs ∧ q.length = length ∧
      sentItems tr = receivedItems tr ++ xs := by
  refine h.invariant (P := fun m tr => ∃ (q : Queue Unit Unit α) (xs : List α), Agrees m q ∧
    q.Holds xs ∧ q.length = length ∧ sentItems tr = receivedItems tr ++ xs) ?_ ?_
  · exact ⟨queueCreate ⟨id, true⟩ length, [], agrees_init hword,
      RingBuffer.Holds.initial hlength _, rfl, rfl⟩
  · rintro m op m' tr - ⟨q, xs, hagrees, hq, hlen, htr⟩ hstep
    cases op with
    | send item =>
        simp only [criticalSections, Option.ite_none_right_eq_some, Option.some.injEq] at hstep
        rcases hstep with ⟨hfull, rfl⟩
        rcases hagrees.send hq (hagrees.full.symm.trans hfull) item with ⟨q', h', hq', hlen'⟩
        refine ⟨q', xs ++ [item], h', hq', hlen'.trans hlen, ?_⟩
        simp [sectionEvents, htr]
    | receive =>
        simp only [criticalSections, Option.ite_none_right_eq_some] at hstep
        rcases hstep with ⟨hempty, hstep⟩
        cases xs with
        | nil =>
            rw [hagrees.queueEmpty_eq, hq.empty_iff.mpr rfl] at hempty
            cases hempty
        | cons item rest =>
            rcases hagrees.receive hq with ⟨q', hreceive, h', hq', hlen'⟩
            rw [hreceive] at hstep
            cases hstep
            refine ⟨q', rest, h', hq', hlen'.trans hlen, ?_⟩
            have hslot : m.ringBuffer m.tail = some item := by
              rcases Option.map_eq_some_iff.mp hreceive with ⟨item', hslot, heq⟩
              cases heq
              exact hslot
            simp [sectionEvents, hslot, htr]

/-- With words of {lit}`w` bits and any length that one can hold, after any sequence of sends
and receives: the indices are below the length, so that adding one does not wrap around;
{lit}`queue_size`, {lit}`queue_full` and {lit}`queue_empty` tell exactly how many items were
sent and not received; and these items are in the slots from {lit}`tail` on, oldest first. -/
theorem machine_queue_exact (hlength : 0 < length) (hword : length < 2 ^ w)
    {tr : List (Unit × QueueEvent α)}
    (h : (criticalSections w length).Traced sectionEvents m tr) :
    m.head.toNat < length ∧ m.tail.toNat < length ∧
    (m.full = true → m.head = m.tail) ∧
    (m.head + 1).toNat = m.head.toNat + 1 ∧ (m.tail + 1).toNat = m.tail.toNat + 1 ∧
    ∃ live, sentItems tr = receivedItems tr ++ live ∧
      live.length = (sentItems tr).length - (receivedItems tr).length ∧
      live.length ≤ length ∧ m.queueSize.toNat = live.length ∧
      (m.queueFull = true ↔ live.length = length) ∧
      (m.queueEmpty = true ↔ live.length = 0) ∧
      ∀ i (hi : i < live.length),
        m.ringBuffer (BitVec.ofNat w ((m.tail.toNat + i) % length)) = some live[i] := by
  rcases agrees_of_traced hlength hword h with ⟨q, xs, hagrees, hq, rfl, htr⟩
  have hhead : m.head.toNat < m.length.toNat := by
    rw [hagrees.head, hagrees.length]
    exact hq.head_lt
  have htail : m.tail.toNat < m.length.toNat := by
    rw [hagrees.tail, hagrees.length]
    exact hq.tail_lt
  refine ⟨hagrees.length ▸ hhead, hagrees.length ▸ htail, fun hfull => ?_,
    RingBuffer.toNat_succ hhead, RingBuffer.toNat_succ htail, xs, htr, ?_, hq.length_le, ?_, ?_,
    ?_, fun i hi => ?_⟩
  · rw [← BitVec.toNat_inj, hagrees.head, hagrees.tail, hq.head_eq,
      hq.full_iff.mp (hagrees.full.symm.trans hfull), Nat.add_mod_right]
    exact Nat.mod_eq_of_lt hq.tail_lt
  · rw [htr, List.length_append, Nat.add_sub_cancel_left]
  · rw [hagrees.queueSize_eq hq, hq.queueSize_eq]
  · rw [← hq.full_iff]
    change m.full = true ↔ q.full = true
    rw [hagrees.full]
  · rw [hagrees.queueEmpty_eq, hq.empty_iff, List.length_eq_zero_iff]
  · rw [hagrees.slot _ (Nat.mod_lt _ (Nat.zero_lt_of_lt hq.tail_lt)), hagrees.tail]
    exact hq.slot_eq i hi

end Sections

/-! ## A sum that wraps around -/

/-- Three items are sent to a ring of three slots, two are received, and one more is sent. -/
def wrappingSections : List (QueueOp Nat) :=
  [.send 1, .send 2, .send 3, .receive, .receive, .send 4]

theorem wrappingSections_run : ((criticalSections 2 3).run (criticalSections 2 3).init
    wrappingSections).isSome = true := by
  decide

/-- The fields after these critical sections, in words of two bits. -/
def wrapped : MachineQueue 2 Nat :=
  ((criticalSections 2 3).run (criticalSections 2 3).init wrappingSections).get
    wrappingSections_run

/-- The sum in {lit}`queue_size` is then {lit}`3 + 1`, which is zero in two bits, and the size is
two. -/
theorem machine_queue_exact_wraps :
    wrapped.length + wrapped.head = 0 ∧ wrapped.head.toNat < wrapped.tail.toNat ∧
      wrapped.queueSize.toNat = 2 := by
  refine ⟨by decide, by decide, ?_⟩
  rcases machine_queue_exact (by decide) (by decide)
    ((criticalSections 2 3).traced_get_run sectionEvents _ wrappingSections_run) with
    ⟨-, -, -, -, -, live, -, hlive, -, hsize, -⟩
  exact hsize.trans hlive

end Metal
end LibDispatch
