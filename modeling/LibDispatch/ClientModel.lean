import LibDispatch.Program
import Mathlib.Logic.Relation

/-!
# What a client adds, waits for and releases

The backends differ in how a client hands a task over and how it sleeps, but not in the
order of what it does for a call: it creates a counter, sets {lit}`private_data` of each task
and pushes it; or it reads a counter from a task, waits, deletes the counter and then the
tasks that the backend releases.  This file is that client alone, with nothing of the
workers, so that its bookkeeping is proved once.  A backend refines it when every step of
the backend is zero or more moves of this client.

Main results:

- Theorem {lit}`ClientMove.keeps`: every move keeps the bookkeeping of a disciplined program.
- Theorem {lit}`clientInv_of_moves`: it holds after any sequence of moves.
- Theorem {lit}`ClientInv.returned_counter` and {lit}`ClientInv.returned_task`: a wait that has
  returned has deleted its counter, and each task it releases, once.
-/

namespace LibDispatch

variable {β υ γ : Type}

/-! ## The client -/

/-- What a client is doing in its current call. -/
inductive ClientPhase where
  /-- About to make the next call. -/
  | idle
  /-- The first {lit}`i` tasks of the call are pushed; {lit}`counter` is the counter it has
  created. -/
  | adding (call : DispatchCall) (counter : Option Nat) (i : Nat)
  /-- Task {lit}`t` is to be added next, its {lit}`private_data` is not set. -/
  | storing (call : DispatchCall) (counter : Option Nat) (i t : Nat)
  /-- The {lit}`private_data` of task {lit}`t` is set. -/
  | pushing (call : DispatchCall) (counter : Option Nat) (i t : Nat)
  /-- All tasks of the call are pushed. -/
  | returning
  /-- Waiting for the counter, with the tasks to be deleted. -/
  | waiting (counter : Nat) (ts : List Nat)
  /-- The wait is over and the counter is to be deleted. -/
  | releasing (counter : Nat) (ts : List Nat)
  /-- The counter is deleted and the tasks are to be deleted. -/
  | deleting (ts : List Nat)

/-- The position of a client, what its tasks lead to, and what it has pushed and deleted.
A counter is named by the call that created it. -/
structure ClientState where
  ip : Nat
  phase : ClientPhase
  data : Nat → Option Nat
  pushed : List Nat
  counterFreed : List Nat
  waitFreed : List Nat

/-- The counter that the {lit}`ip`-th call creates. -/
def Program.counter (p : Program β υ γ) (ip : Nat) (call : DispatchCall) : Option Nat :=
  if call.createsCounter p.heap = true then some ip else none

/-- The moves of a client in a backend whose waits delete the tasks that {lit}`releases`
names. -/
inductive ClientMove (p : Program β υ γ) (releases : DispatchCall → List Nat)
    (v : ClientState) : ClientState → Prop where
  | add (call : DispatchCall) (hk : v.phase = .idle) (hcall : p.calls[v.ip]? = some call)
      (hadd : call.awaited p.heap = []) :
      ClientMove p releases v { v with phase := .adding call (p.counter v.ip call) 0 }
  | next (call : DispatchCall) (counter : Option Nat) (i t : Nat)
      (hk : v.phase = .adding call counter i) (ht : (call.tasks p.heap)[i]? = some t) :
      ClientMove p releases v { v with phase := .storing call counter i t }
  | store (call : DispatchCall) (counter : Option Nat) (i t : Nat) (data : Nat → Option Nat)
      (hk : v.phase = .storing call counter i t)
      (hother : ∀ t', t' ≠ t → data t' = v.data t')
      (hthis : ∀ c, counter = some c → data t = some c) :
      ClientMove p releases v { v with data := data, phase := .pushing call counter i t }
  | push (call : DispatchCall) (counter : Option Nat) (i t : Nat)
      (hk : v.phase = .pushing call counter i t) :
      ClientMove p releases v { v with
        pushed := v.pushed ++ [t], phase := .adding call counter (i + 1) }
  | added (call : DispatchCall) (counter : Option Nat) (i : Nat)
      (hk : v.phase = .adding call counter i) (hend : (call.tasks p.heap)[i]? = none) :
      ClientMove p releases v { v with phase := .returning }
  | ret (hk : v.phase = .returning) :
      ClientMove p releases v { v with ip := v.ip + 1, phase := .idle }
  | wait (call : DispatchCall) (t c : Nat) (hk : v.phase = .idle)
      (hcall : p.calls[v.ip]? = some call) (ht : t ∈ call.awaited p.heap)
      (hdata : v.data t = some c) :
      ClientMove p releases v { v with phase := .waiting c (releases call) }
  | waited (c : Nat) (ts : List Nat) (hk : v.phase = .waiting c ts) :
      ClientMove p releases v { v with phase := .releasing c ts }
  | deleteCounter (c : Nat) (ts : List Nat) (hk : v.phase = .releasing c ts) :
      ClientMove p releases v { v with
        counterFreed := v.counterFreed ++ [c], phase := .deleting ts }
  | deleteTask (t : Nat) (ts : List Nat) (hk : v.phase = .deleting (t :: ts)) :
      ClientMove p releases v { v with
        waitFreed := v.waitFreed ++ [t], phase := .deleting ts }
  | deleteDone (hk : v.phase = .deleting []) :
      ClientMove p releases v { v with ip := v.ip + 1, phase := .idle }

/-- Before the first call. -/
def ClientState.init (data : Nat → Option Nat) : ClientState :=
  ⟨0, .idle, data, [], [], []⟩

/-! ## What the position says -/

/-- The tasks pushed so far. -/
def ClientState.added (p : Program β υ γ) (v : ClientState) : List Nat :=
  match v.phase with
  | .adding call _ i | .storing call _ i _ | .pushing call _ i _ =>
      p.submitted v.ip ++ (call.tasks p.heap).take i
  | .returning => p.submitted (v.ip + 1)
  | _ => p.submitted v.ip

/-- The tasks whose {lit}`private_data` is set. -/
def ClientState.stored (p : Program β υ γ) (v : ClientState) : List Nat :=
  match v.phase with
  | .pushing call _ i t => p.submitted v.ip ++ ((call.tasks p.heap).take i ++ [t])
  | _ => v.added p

/-- The {lit}`jp`-th call has started. -/
def ClientState.created (jp : Nat) (v : ClientState) : Prop :=
  jp < v.ip ∨ (jp = v.ip ∧ v.phase ≠ .idle)

/-- Once the counter of the {lit}`w`-th call is deleted: the tasks that are not. -/
def ClientState.remaining (v : ClientState) (w : Nat) : Option (List Nat) :=
  if w < v.ip then some []
  else if w = v.ip then match v.phase with | .deleting ts => some ts | _ => none
  else none

/-- The phase agrees with the call. -/
def ClientState.At (p : Program β υ γ) (releases : DispatchCall → List Nat)
    (v : ClientState) : Prop :=
  match v.phase with
  | .idle => True
  | .adding call counter _ => p.calls[v.ip]? = some call ∧ call.awaited p.heap = [] ∧
      counter = p.counter v.ip call
  | .storing call counter i t | .pushing call counter i t =>
      p.calls[v.ip]? = some call ∧ call.awaited p.heap = [] ∧
        counter = p.counter v.ip call ∧ (call.tasks p.heap)[i]? = some t
  | .returning => ∃ call, p.calls[v.ip]? = some call ∧ call.awaited p.heap = []
  | .waiting c ts | .releasing c ts => ∃ call ts', p.calls[v.ip]? = some call ∧
      ts = releases call ∧ p.Awaits v.ip c ts'
  | .deleting ts => ∃ call c ts' done, p.calls[v.ip]? = some call ∧
      releases call = done ++ ts ∧ p.Awaits v.ip c ts'

/-- The bookkeeping of a client. -/
structure ClientInv (p : Program β υ γ) (releases : DispatchCall → List Nat)
    (v : ClientState) : Prop where
  position : v.At p releases
  pushed : v.pushed = v.added p
  /-- A task leads to the counter of its call. -/
  data : ∀ jp call t, p.calls[jp]? = some call → call.createsCounter p.heap = true →
    t ∈ call.tasks p.heap → t ∈ v.stored p → v.data t = some jp
  counterNodup : v.counterFreed.Nodup
  counterFreed : ∀ c, c ∈ v.counterFreed ↔ ∃ w ts rest,
    p.Awaits w c ts ∧ v.remaining w = some rest
  waitNodup : v.waitFreed.Nodup
  waitFreed : ∀ t, t ∈ v.waitFreed ↔ ∃ w call rest, p.calls[w]? = some call ∧
    t ∈ releases call ∧ v.remaining w = some rest ∧ t ∉ rest

section Moves

variable {p : Program β υ γ} {releases : DispatchCall → List Nat} {v v' : ClientState}
  {w jp t : Nat} {ts : List Nat} {call : DispatchCall}

theorem ClientState.remaining_of_lt (h : w < v.ip) : v.remaining w = some [] :=
  if_pos h

theorem ClientState.remaining_of_gt (h : v.ip < w) : v.remaining w = none := by
  simp [ClientState.remaining, Nat.not_lt.mpr (Nat.le_of_lt h), Nat.ne_of_gt h]

theorem ClientState.remaining_self (hk : v.phase = .deleting ts) :
    v.remaining v.ip = some ts := by
  simp [ClientState.remaining, hk]

theorem ClientState.remaining_self_none (hk : ∀ ts, v.phase ≠ .deleting ts) :
    v.remaining v.ip = none := by
  simp only [ClientState.remaining, Nat.lt_irrefl, if_false, if_true]

/-- Within a call the other calls are left alone. -/
theorem ClientState.remaining_of_ne (hip : v'.ip = v.ip) (hw : w ≠ v.ip) :
    v'.remaining w = v.remaining w := by
  simp [ClientState.remaining, hip, hw]

/-- The next call leaves the other calls alone. -/
theorem ClientState.remaining_succ (hip : v'.ip = v.ip + 1) (hk : v'.phase = .idle)
    (hw : w ≠ v.ip) : v'.remaining w = v.remaining w := by
  rcases Nat.lt_or_gt_of_ne hw with hlt | hgt
  · rw [remaining_of_lt hlt, remaining_of_lt (by omega)]
  · rw [remaining_of_gt hgt]
    rcases Nat.lt_or_eq_of_le (Nat.succ_le_of_lt hgt) with hgt' | heq
    · exact remaining_of_gt (by omega)
    · have hw' : w = v'.ip := by omega
      rw [hw']
      exact remaining_self_none (by simp [hk])

/-- Before the first call nothing is booked. -/
theorem clientInv_init (data : Nat → Option Nat) : ClientInv p releases (.init data) := by
  have hnone : ∀ w, (ClientState.init data).remaining w = none := by
    intro w
    rcases Nat.eq_zero_or_pos w with rfl | hpos
    · exact ClientState.remaining_self_none (by simp [ClientState.init])
    · exact ClientState.remaining_of_gt hpos
  constructor
  · trivial
  · rfl
  · intro jp call t _ _ _ hmem
    cases hmem
  · exact List.nodup_nil
  · intro c
    simp only [hnone, reduceCtorEq, and_false, exists_false, iff_false]
    exact List.not_mem_nil
  · exact List.nodup_nil
  · intro t
    simp only [hnone, reduceCtorEq, false_and, and_false, exists_false, iff_false]
    exact List.not_mem_nil

/-- Moves that delete nothing. -/
theorem ClientInv.same (h : ClientInv p releases v) (hd : p.Disciplined)
    (hreleases : ∀ call, (releases call).Sublist (call.awaited p.heap))
    (hcounter : v'.counterFreed = v.counterFreed) (hwait : v'.waitFreed = v.waitFreed)
    (hremaining : ∀ w, v'.remaining w = v.remaining w ∨
      ∀ call, p.calls[w]? = some call → call.awaited p.heap = [])
    (hposition : v'.At p releases) (hpushed : v'.pushed = v'.added p)
    (hdata : ∀ jp call t, p.calls[jp]? = some call → call.createsCounter p.heap = true →
      t ∈ call.tasks p.heap → t ∈ v'.stored p → v'.data t = some jp) :
    ClientInv p releases v' := by
  have hawaits : ∀ w c ts, p.Awaits w c ts → v'.remaining w = v.remaining w := by
    intro w c ts hawaits
    rcases hremaining w with heq | hnone
    · exact heq
    · rcases hawaits.awaited with ⟨call, hcall, rfl⟩
      rcases hd.awaits_call hawaits with ⟨-, -, -, -, hne⟩
      exact absurd (hnone call hcall) hne
  have hreleased : ∀ w call t, p.calls[w]? = some call → t ∈ releases call →
      v'.remaining w = v.remaining w := by
    intro w call t hcall ht
    rcases hremaining w with heq | hnone
    · exact heq
    · have hmem := (hreleases call).subset ht
      rw [hnone call hcall] at hmem
      cases hmem
  refine ⟨hposition, hpushed, hdata, hcounter ▸ h.counterNodup, fun c => ?_,
    hwait ▸ h.waitNodup, fun t => ?_⟩
  · rw [hcounter, h.counterFreed c]
    constructor
    · rintro ⟨w, ts, rest, haw, hrest⟩
      exact ⟨w, ts, rest, haw, (hawaits w c ts haw).trans hrest⟩
    · rintro ⟨w, ts, rest, haw, hrest⟩
      exact ⟨w, ts, rest, haw, (hawaits w c ts haw).symm.trans hrest⟩
  · rw [hwait, h.waitFreed t]
    constructor
    · rintro ⟨w, call, rest, hcall, ht, hrest, hnot⟩
      exact ⟨w, call, rest, hcall, ht, (hreleased w call t hcall ht).trans hrest, hnot⟩
    · rintro ⟨w, call, rest, hcall, ht, hrest, hnot⟩
      exact ⟨w, call, rest, hcall, ht, (hreleased w call t hcall ht).symm.trans hrest, hnot⟩

/-- A counter that is to be deleted is not. -/
theorem ClientInv.not_freed_of_releasing (h : ClientInv p releases v) (hd : p.Disciplined)
    {c : Nat} (hk : v.phase = .releasing c ts) : c ∉ v.counterFreed := by
  have hposition := h.position
  simp only [ClientState.At, hk] at hposition
  rcases hposition with ⟨call, ts', -, -, hawaits⟩
  have hbefore : v.remaining v.ip = none := ClientState.remaining_self_none (by simp [hk])
  intro hmem
  rcases (h.counterFreed c).mp hmem with ⟨w, ts, rest, hawaits', hrest⟩
  rw [hd.awaits_unique_wait hawaits' hawaits, hbefore] at hrest
  cases hrest

/-- The counters deleted were created by earlier calls. -/
theorem ClientInv.lt_of_counterFreed (h : ClientInv p releases v) (hd : p.Disciplined)
    {c : Nat} (hc : c ∈ v.counterFreed) : c < v.ip := by
  rcases (h.counterFreed c).mp hc with ⟨w, ts, rest, hawaits, hrest⟩
  have hlt := hd.awaits_lt hawaits
  refine Nat.lt_of_lt_of_le hlt (Nat.le_of_not_lt fun hgt => ?_)
  rw [ClientState.remaining_of_gt hgt] at hrest
  cases hrest

/-- The client deletes the counter that it has waited for. -/
theorem ClientInv.deleteCounter (h : ClientInv p releases v) (hd : p.Disciplined) {c : Nat}
    (hk : v.phase = .releasing c ts) :
    ClientInv p releases { v with
      counterFreed := v.counterFreed ++ [c], phase := .deleting ts } := by
  have hposition := h.position
  simp only [ClientState.At, hk] at hposition
  rcases hposition with ⟨call, ts', hcall, rfl, hawaits⟩
  have hbefore : v.remaining v.ip = none := ClientState.remaining_self_none (by simp [hk])
  have hafter : ∀ w, w ≠ v.ip → ClientState.remaining { v with
      counterFreed := v.counterFreed ++ [c], phase := .deleting (releases call) } w =
      v.remaining w := fun w hw => ClientState.remaining_of_ne rfl hw
  have hself : ClientState.remaining { v with
      counterFreed := v.counterFreed ++ [c], phase := .deleting (releases call) } v.ip =
      some (releases call) := ClientState.remaining_self rfl
  have hfresh := h.not_freed_of_releasing hd hk
  refine ⟨⟨call, c, ts', [], hcall, rfl, hawaits⟩, ?_, ?_, ?_, fun c' => ?_, h.waitNodup,
    fun t => ?_⟩
  · rw [show v.pushed = _ from h.pushed]
    simp only [ClientState.added, hk]
  · intro jp call t hjp hcreates ht hmem
    refine h.data jp call t hjp hcreates ht ?_
    simpa only [ClientState.stored, ClientState.added, hk] using hmem
  · exact List.nodup_append.mpr ⟨h.counterNodup, List.nodup_singleton _, by
      rintro x hx y hy rfl
      exact hfresh (List.mem_singleton.mp hy ▸ hx)⟩
  · rw [List.mem_append, List.mem_singleton, h.counterFreed c']
    constructor
    · rintro (⟨w, ts, rest, hawaits', hrest⟩ | rfl)
      · have hw : w ≠ v.ip := by
          rintro rfl
          rw [hbefore] at hrest
          cases hrest
        exact ⟨w, ts, rest, hawaits', (hafter w hw).trans hrest⟩
      · exact ⟨v.ip, ts', _, hawaits, hself⟩
    · rintro ⟨w, ts, rest, hawaits', hrest⟩
      by_cases hw : w = v.ip
      · subst hw
        exact Or.inr (hd.awaits_unique_add hawaits' hawaits).1
      · exact Or.inl ⟨w, ts, rest, hawaits', (hafter w hw).symm.trans hrest⟩
  · rw [show _ ↔ _ from h.waitFreed t]
    constructor
    · rintro ⟨w, call', rest, hcall', ht, hrest, hnot⟩
      have hw : w ≠ v.ip := by
        rintro rfl
        rw [hbefore] at hrest
        cases hrest
      exact ⟨w, call', rest, hcall', ht, (hafter w hw).trans hrest, hnot⟩
    · rintro ⟨w, call', rest, hcall', ht, hrest, hnot⟩
      by_cases hw : w = v.ip
      · subst hw
        rw [hself] at hrest
        cases hrest
        cases Option.some.inj (hcall.symm.trans hcall')
        exact absurd ht hnot
      · exact ⟨w, call', rest, hcall', ht, (hafter w hw).symm.trans hrest, hnot⟩

/-- The client deletes the next task. -/
theorem ClientInv.deleteTask (h : ClientInv p releases v) (hd : p.Disciplined)
    (hreleases : ∀ call, (releases call).Sublist (call.awaited p.heap))
    (hk : v.phase = .deleting (t :: ts)) :
    ClientInv p releases { v with
      waitFreed := v.waitFreed ++ [t], phase := .deleting ts } := by
  have hposition := h.position
  simp only [ClientState.At, hk] at hposition
  rcases hposition with ⟨call, c, ts', done, hcall, hdone, hawaits⟩
  have hbefore : v.remaining v.ip = some (t :: ts) := ClientState.remaining_self hk
  have hafter : ∀ w, w ≠ v.ip → ClientState.remaining { v with
      waitFreed := v.waitFreed ++ [t], phase := .deleting ts } w = v.remaining w :=
    fun w hw => ClientState.remaining_of_ne rfl hw
  have hself : ClientState.remaining { v with
      waitFreed := v.waitFreed ++ [t], phase := .deleting ts } v.ip = some ts :=
    ClientState.remaining_self rfl
  have hmem : t ∈ releases call := by
    rw [hdone]
    simp
  rcases hawaits.eq_awaited hcall with rfl
  have hnot : t ∉ ts := by
    rcases hd.awaits_call hawaits with ⟨add, hadd, htasks, -⟩
    have hnodup := (hd.nodup hadd)
    rw [htasks] at hnodup
    have hnodup' := hnodup.sublist (hreleases call)
    rw [hdone] at hnodup'
    exact (List.nodup_cons.mp (List.nodup_append.mp hnodup').2.1).1
  have hfresh : t ∉ v.waitFreed := by
    intro hfreed
    rcases (h.waitFreed t).mp hfreed with ⟨w, call', rest, hcall', ht, hrest, hrest'⟩
    have ht' := (hreleases call').subset ht
    rcases hd.exists_awaits hcall' ht' with ⟨jp, -, hawaits'⟩
    have hw := (hd.awaits_unique hawaits' hawaits ht' ((hreleases call).subset hmem)).1
    rw [hw, hbefore] at hrest
    cases hrest
    exact hrest' List.mem_cons_self
  refine ⟨⟨call, c, _, done ++ [t], hcall, by simpa using hdone, hawaits⟩, ?_, ?_,
    h.counterNodup, fun c' => ?_, ?_, fun t' => ?_⟩
  · rw [show v.pushed = _ from h.pushed]
    simp only [ClientState.added, hk]
  · intro jp call t hjp hcreates ht hstored
    refine h.data jp call t hjp hcreates ht ?_
    simpa only [ClientState.stored, ClientState.added, hk] using hstored
  · rw [show _ ↔ _ from h.counterFreed c']
    constructor
    · rintro ⟨w, ts', rest, hawaits', hrest⟩
      by_cases hw : w = v.ip
      · subst hw
        exact ⟨v.ip, ts', ts, hawaits', hself⟩
      · exact ⟨w, ts', rest, hawaits', (hafter w hw).trans hrest⟩
    · rintro ⟨w, ts', rest, hawaits', hrest⟩
      by_cases hw : w = v.ip
      · subst hw
        exact ⟨v.ip, ts', _, hawaits', hbefore⟩
      · exact ⟨w, ts', rest, hawaits', (hafter w hw).symm.trans hrest⟩
  · exact List.nodup_append.mpr ⟨h.waitNodup, List.nodup_singleton _, by
      rintro x hx y hy rfl
      exact hfresh (List.mem_singleton.mp hy ▸ hx)⟩
  · rw [List.mem_append, List.mem_singleton, h.waitFreed t']
    constructor
    · rintro (⟨w, call', rest, hcall', ht', hrest, hrest'⟩ | rfl)
      · by_cases hw : w = v.ip
        · subst hw
          rw [hbefore] at hrest
          cases hrest
          exact ⟨v.ip, call', ts, hcall', ht', hself,
            fun hts => hrest' (List.mem_cons_of_mem _ hts)⟩
        · exact ⟨w, call', rest, hcall', ht', (hafter w hw).trans hrest, hrest'⟩
      · exact ⟨v.ip, call, ts, hcall, hmem, hself, hnot⟩
    · rintro ⟨w, call', rest, hcall', ht', hrest, hrest'⟩
      by_cases hw : w = v.ip
      · subst hw
        rw [hself] at hrest
        cases hrest
        by_cases heq : t' = t
        · exact Or.inr heq
        · exact Or.inl ⟨v.ip, call', _, hcall', ht', hbefore, by simp [heq, hrest']⟩
      · exact Or.inl ⟨w, call', rest, hcall', ht', (hafter w hw).symm.trans hrest, hrest'⟩

/-- A move within a call that deletes nothing and sets no {lit}`private_data`. -/
theorem ClientInv.within (h : ClientInv p releases v) (hd : p.Disciplined)
    (hreleases : ∀ call, (releases call).Sublist (call.awaited p.heap)) {phase : ClientPhase}
    (pushed : List Nat) (hold : ∀ ts, v.phase ≠ .deleting ts)
    (hnew : ∀ ts, phase ≠ .deleting ts)
    (hposition : ClientState.At p releases { v with pushed := pushed, phase := phase })
    (hpushed : pushed = ClientState.added p { v with pushed := pushed, phase := phase })
    (hstored : ClientState.stored p { v with pushed := pushed, phase := phase } =
      v.stored p) :
    ClientInv p releases { v with pushed := pushed, phase := phase } := by
  refine h.same hd hreleases rfl rfl (fun w => Or.inl ?_) hposition hpushed ?_
  · by_cases hw : w = v.ip
    · subst hw
      rw [ClientState.remaining_self_none hold]
      exact ClientState.remaining_self_none (v := { v with pushed := pushed, phase := phase })
        hnew
    · exact ClientState.remaining_of_ne rfl hw
  · intro jp call t hjp hcreates ht hmem
    exact h.data jp call t hjp hcreates ht (hstored ▸ hmem)

/-- A return from a call that waits for nothing. -/
theorem ClientInv.ret (h : ClientInv p releases v) (hd : p.Disciplined)
    (hreleases : ∀ call, (releases call).Sublist (call.awaited p.heap))
    (hk : v.phase = .returning) :
    ClientInv p releases { v with ip := v.ip + 1, phase := .idle } := by
  have hposition := h.position
  simp only [ClientState.At, hk] at hposition
  rcases hposition with ⟨call, hcall, hnone⟩
  refine h.same hd hreleases rfl rfl (fun w => ?_) trivial ?_ ?_
  · by_cases hw : w = v.ip
    · right
      intro call' hcall'
      rw [hw] at hcall'
      cases Option.some.inj (hcall.symm.trans hcall')
      exact hnone
    · exact Or.inl (ClientState.remaining_succ rfl rfl hw)
  · rw [show v.pushed = _ from h.pushed]
    simp only [ClientState.added, hk]
  · intro jp call t hjp hcreates ht hmem
    refine h.data jp call t hjp hcreates ht ?_
    simpa only [ClientState.stored, ClientState.added, hk] using hmem

/-- A return from a wait. -/
theorem ClientInv.deleteDone (h : ClientInv p releases v) (hd : p.Disciplined)
    (hreleases : ∀ call, (releases call).Sublist (call.awaited p.heap))
    (hk : v.phase = .deleting []) :
    ClientInv p releases { v with ip := v.ip + 1, phase := .idle } := by
  have hposition := h.position
  simp only [ClientState.At, hk] at hposition
  rcases hposition with ⟨call, c, ts', done, hcall, -, hawaits⟩
  have htasks : call.tasks p.heap = [] := by
    rcases hawaits with ⟨t, hw, -, -⟩ | ⟨g, hw, -, -⟩
    · cases Option.some.inj (hcall.symm.trans hw)
      rfl
    · cases Option.some.inj (hcall.symm.trans hw)
      rfl
  have hsubmitted : p.submitted (v.ip + 1) = p.submitted v.ip := by
    rw [Program.submitted_succ hcall, htasks, List.append_nil]
  refine h.same hd hreleases rfl rfl (fun w => Or.inl ?_) trivial ?_ ?_
  · by_cases hw : w = v.ip
    · subst hw
      rw [ClientState.remaining_self hk]
      exact ClientState.remaining_of_lt (Nat.lt_succ_self _)
    · exact ClientState.remaining_succ rfl rfl hw
  · rw [show v.pushed = _ from h.pushed]
    simp only [ClientState.added, hk, hsubmitted]
  · intro jp call t hjp hcreates ht hmem
    refine h.data jp call t hjp hcreates ht ?_
    simpa only [ClientState.stored, ClientState.added, hk, hsubmitted] using hmem

/-- The store leads a task to the counter of its call. -/
theorem ClientInv.store (h : ClientInv p releases v) (hd : p.Disciplined)
    (hreleases : ∀ call, (releases call).Sublist (call.awaited p.heap)) {i : Nat}
    {counter : Option Nat} {data : Nat → Option Nat}
    (hk : v.phase = .storing call counter i t) (hother : ∀ t', t' ≠ t → data t' = v.data t')
    (hthis : ∀ c, counter = some c → data t = some c) :
    ClientInv p releases { v with data := data, phase := .pushing call counter i t } := by
  have hposition := h.position
  simp only [ClientState.At, hk] at hposition
  rcases hposition with ⟨hcall, hnone, hcounter, ht⟩
  refine h.same hd hreleases rfl rfl (fun w => Or.inl ?_) ⟨hcall, hnone, hcounter, ht⟩ ?_ ?_
  · by_cases hw : w = v.ip
    · subst hw
      have hold : v.remaining v.ip = none := ClientState.remaining_self_none (by simp [hk])
      rw [hold]
      exact ClientState.remaining_self_none
        (v := { v with data := data, phase := .pushing call counter i t }) (by simp)
    · exact ClientState.remaining_of_ne rfl hw
  · rw [show v.pushed = _ from h.pushed]
    simp only [ClientState.added, hk]
  · intro jp call' t' hjp hcreates ht' hmem
    by_cases heq : t' = t
    · subst heq
      have hjp' := hd.unique hcall hjp (List.mem_of_getElem? ht) ht'
      subst hjp'
      cases Option.some.inj (hcall.symm.trans hjp)
      exact hthis v.ip (hcounter.trans (if_pos hcreates))
    · refine (hother t' heq).trans (h.data jp call' t' hjp hcreates ht' ?_)
      simp only [ClientState.stored, ClientState.added, hk] at hmem ⊢
      simpa [heq] using hmem

/-- A wait finds the counter of its call. -/
theorem ClientInv.wait (h : ClientInv p releases v) (hd : p.Disciplined)
    (hreleases : ∀ call, (releases call).Sublist (call.awaited p.heap)) {c : Nat}
    (hk : v.phase = .idle) (hcall : p.calls[v.ip]? = some call)
    (ht : t ∈ call.awaited p.heap) (hdata : v.data t = some c) :
    ClientInv p releases { v with phase := .waiting c (releases call) } := by
  rcases hd.exists_awaits hcall ht with ⟨jp, hlt, hawaits⟩
  rcases hd.awaits_call hawaits with ⟨add, hadd, htasks, hcreates, -⟩
  have hc : v.data t = some jp := by
    refine h.data jp add t hadd hcreates (htasks ▸ ht) ?_
    simp only [ClientState.stored, ClientState.added, hk]
    exact Program.mem_submitted.mpr ⟨jp, hlt, add, hadd, htasks ▸ ht⟩
  cases Option.some.inj (hdata.symm.trans hc)
  refine h.within hd hreleases v.pushed (by simp [hk]) (by simp) ?_ ?_ ?_
  · exact ⟨call, _, hcall, rfl, hawaits⟩
  · rw [show v.pushed = _ from h.pushed]
    simp only [ClientState.added, hk]
  · simp only [ClientState.stored, ClientState.added, hk]

/-- Every move keeps the bookkeeping. -/
theorem ClientMove.keeps (hmove : ClientMove p releases v v') (h : ClientInv p releases v)
    (hd : p.Disciplined)
    (hreleases : ∀ call, (releases call).Sublist (call.awaited p.heap)) :
    ClientInv p releases v' := by
  have hposition := h.position
  have hpushed := h.pushed
  cases hmove with
  | add call hk hcall hadd =>
      refine h.within hd hreleases v.pushed (by simp [hk]) (by simp)
        ⟨hcall, hadd, rfl⟩ ?_ ?_
      · simpa [ClientState.added, hk] using hpushed
      · simp [ClientState.stored, ClientState.added, hk]
  | next call counter i t hk ht =>
      simp only [ClientState.At, hk] at hposition
      refine h.within hd hreleases v.pushed (by simp [hk]) (by simp)
        ⟨hposition.1, hposition.2.1, hposition.2.2, ht⟩ ?_ ?_
      · simpa [ClientState.added, hk] using hpushed
      · simp [ClientState.stored, ClientState.added, hk]
  | store call counter i t data hk hother hthis =>
      exact h.store hd hreleases hk hother hthis
  | push call counter i t hk =>
      simp only [ClientState.At, hk] at hposition
      rcases hposition with ⟨hcall, hnone, hcounter, ht⟩
      rcases List.getElem?_eq_some_iff.mp ht with ⟨hlt, rfl⟩
      refine h.within hd hreleases (v.pushed ++ [_]) (by simp [hk]) (by simp)
        ⟨hcall, hnone, hcounter⟩ ?_ ?_
      · rw [hpushed]
        simp only [ClientState.added, hk]
        rw [List.take_succ_eq_append_getElem hlt, List.append_assoc]
      · simp only [ClientState.stored, ClientState.added, hk]
        rw [List.take_succ_eq_append_getElem hlt]
  | added call counter i hk hend =>
      simp only [ClientState.At, hk] at hposition
      have hall := List.take_of_length_le (List.getElem?_eq_none_iff.mp hend)
      refine h.within hd hreleases v.pushed (by simp [hk]) (by simp)
        ⟨call, hposition.1, hposition.2.1⟩ ?_ ?_
      · rw [hpushed]
        simp only [ClientState.added, hk]
        rw [Program.submitted_succ hposition.1, hall]
      · simp only [ClientState.stored, ClientState.added, hk]
        rw [Program.submitted_succ hposition.1, hall]
  | ret hk => exact h.ret hd hreleases hk
  | wait call t c hk hcall ht hdata => exact h.wait hd hreleases hk hcall ht hdata
  | waited c ts hk =>
      simp only [ClientState.At, hk] at hposition
      refine h.within hd hreleases v.pushed (by simp [hk]) (by simp) hposition ?_ ?_
      · simpa [ClientState.added, hk] using hpushed
      · simp [ClientState.stored, ClientState.added, hk]
  | deleteCounter c ts hk => exact h.deleteCounter hd hk
  | deleteTask t ts hk => exact h.deleteTask hd hreleases hk
  | deleteDone hk => exact h.deleteDone hd hreleases hk

/-- The bookkeeping holds after any sequence of moves. -/
theorem clientInv_of_moves (hd : p.Disciplined)
    (hreleases : ∀ call, (releases call).Sublist (call.awaited p.heap))
    {data : Nat → Option Nat}
    (h : Relation.ReflTransGen (ClientMove p releases) (.init data) v) :
    ClientInv p releases v := by
  induction h with
  | refl => exact clientInv_init data
  | tail _ hmove ih => exact hmove.keeps ih hd hreleases

/-- The task of the {lit}`i`-th slot and those before it are tasks of the call. -/
theorem ClientState.call_of_taken (hcall : p.calls[v.ip]? = some call)
    (hk : v.phase ≠ .idle) {i : Nat}
    (ht : t ∈ p.submitted v.ip ++ (call.tasks p.heap).take i) :
    ∃ jp call, p.calls[jp]? = some call ∧ t ∈ call.tasks p.heap ∧ v.created jp := by
  rcases List.mem_append.mp ht with ht | ht
  · rcases Program.mem_submitted.mp ht with ⟨jp, hlt, call', hcall', ht'⟩
    exact ⟨jp, call', hcall', ht', Or.inl hlt⟩
  · exact ⟨v.ip, call, hcall, List.mem_of_mem_take ht, Or.inr ⟨rfl, hk⟩⟩

/-- A task pushed belongs to a call that has started. -/
theorem ClientInv.call_of_pushed (h : ClientInv p releases v) (ht : t ∈ v.pushed) :
    ∃ jp call, p.calls[jp]? = some call ∧ t ∈ call.tasks p.heap ∧ v.created jp := by
  have hposition := h.position
  have hearlier : t ∈ p.submitted v.ip →
      ∃ jp call, p.calls[jp]? = some call ∧ t ∈ call.tasks p.heap ∧ v.created jp := by
    intro ht
    rcases Program.mem_submitted.mp ht with ⟨jp, hlt, call, hcall, ht⟩
    exact ⟨jp, call, hcall, ht, Or.inl hlt⟩
  rw [h.pushed] at ht
  cases hk : v.phase with
  | adding call counter i =>
      simp only [ClientState.At, hk] at hposition
      simp only [ClientState.added, hk] at ht
      exact ClientState.call_of_taken hposition.1 (by simp [hk]) ht
  | storing call counter i t' =>
      simp only [ClientState.At, hk] at hposition
      simp only [ClientState.added, hk] at ht
      exact ClientState.call_of_taken hposition.1 (by simp [hk]) ht
  | pushing call counter i t' =>
      simp only [ClientState.At, hk] at hposition
      simp only [ClientState.added, hk] at ht
      exact ClientState.call_of_taken hposition.1 (by simp [hk]) ht
  | returning =>
      simp only [ClientState.added, hk] at ht
      rcases Program.mem_submitted.mp ht with ⟨jp, hlt, call, hcall, ht⟩
      refine ⟨jp, call, hcall, ht, ?_⟩
      rcases Nat.lt_or_eq_of_le (Nat.le_of_lt_succ hlt) with hlt | heq
      · exact Or.inl hlt
      · exact Or.inr ⟨heq, by simp [hk]⟩
  | _ =>
      simp only [ClientState.added, hk] at ht
      exact hearlier ht

/-- The tasks of earlier calls are pushed. -/
theorem ClientInv.mem_pushed (h : ClientInv p releases v) (hcall : p.calls[jp]? = some call)
    (ht : t ∈ call.tasks p.heap) (hlt : jp < v.ip) : t ∈ v.pushed := by
  have hearlier : t ∈ p.submitted v.ip := Program.mem_submitted.mpr ⟨jp, hlt, call, hcall, ht⟩
  rw [h.pushed]
  cases hk : v.phase with
  | adding call counter i =>
      simp only [ClientState.added, hk]
      exact List.mem_append_left _ hearlier
  | storing call counter i t' =>
      simp only [ClientState.added, hk]
      exact List.mem_append_left _ hearlier
  | pushing call counter i t' =>
      simp only [ClientState.added, hk]
      exact List.mem_append_left _ hearlier
  | returning =>
      simp only [ClientState.added, hk]
      exact Program.mem_submitted.mpr ⟨jp, Nat.lt_succ_of_lt hlt, _, hcall, ht⟩
  | _ =>
      simp only [ClientState.added, hk]
      exact hearlier

/-- A task pushed has its {lit}`private_data` set. -/
theorem ClientState.added_subset_stored (v : ClientState) : v.added p ⊆ v.stored p := by
  intro t ht
  cases hk : v.phase with
  | pushing call counter i t' =>
      simp only [added, hk] at ht
      simp only [stored, hk]
      rw [← List.append_assoc]
      exact List.mem_append_left _ ht
  | _ =>
      simp only [stored, hk]
      exact ht

/-- A task pushed by a call that creates a counter leads to this counter. -/
theorem ClientInv.data_of_pushed (h : ClientInv p releases v)
    (hcall : p.calls[jp]? = some call) (hcreates : call.createsCounter p.heap = true)
    (ht : t ∈ call.tasks p.heap) (hpushed : t ∈ v.pushed) : v.data t = some jp :=
  h.data jp call t hcall hcreates ht (v.added_subset_stored (h.pushed ▸ hpushed))

/-- A client that waits for a counter waits for an earlier call. -/
theorem ClientInv.awaits_of_waiting (h : ClientInv p releases v) {c : Nat}
    (hk : v.phase = .waiting c ts ∨ v.phase = .releasing c ts) :
    ∃ ts', p.Awaits v.ip c ts' := by
  have hposition := h.position
  rcases hk with hk | hk
  · simp only [ClientState.At, hk] at hposition
    rcases hposition with ⟨-, ts', -, -, hawaits⟩
    exact ⟨ts', hawaits⟩
  · simp only [ClientState.At, hk] at hposition
    rcases hposition with ⟨-, ts', -, -, hawaits⟩
    exact ⟨ts', hawaits⟩

/-! ## What a wait that has returned has deleted -/

/-- The counter was deleted once. -/
theorem ClientInv.returned_counter (h : ClientInv p releases v)
    (hawaits : p.Awaits w jp ts) (hw : w < v.ip) : v.counterFreed.count jp = 1 := by
  apply List.count_eq_one_of_mem h.counterNodup
  exact (h.counterFreed jp).mpr ⟨w, ts, [], hawaits, ClientState.remaining_of_lt hw⟩

/-- Each task that the wait releases was deleted once. -/
theorem ClientInv.returned_task (h : ClientInv p releases v)
    (hcall : p.calls[w]? = some call) (ht : t ∈ releases call) (hw : w < v.ip) :
    v.waitFreed.count t = 1 := by
  apply List.count_eq_one_of_mem h.waitNodup
  exact (h.waitFreed t).mpr ⟨w, call, [], hcall, ht, ClientState.remaining_of_lt hw,
    List.not_mem_nil⟩

/-- A task that no wait releases is not deleted by the client. -/
theorem ClientInv.not_released (h : ClientInv p releases v)
    (hnot : ∀ (w : Nat) call, p.calls[w]? = some call → t ∉ releases call) :
    v.waitFreed.count t = 0 := by
  apply List.count_eq_zero.mpr
  intro hmem
  rcases (h.waitFreed t).mp hmem with ⟨w, call, -, hcall, ht, -⟩
  exact hnot w call hcall ht

/-- Tasks are pushed at most once. -/
theorem ClientInv.pushed_nodup (h : ClientInv p releases v) (hd : p.Disciplined) :
    v.pushed.Nodup := by
  have hposition := h.position
  rw [h.pushed]
  refine hd.distinct.sublist (List.IsPrefix.sublist ?_)
  cases hk : v.phase with
  | adding call counter i =>
      simp only [ClientState.At, hk] at hposition
      simp only [ClientState.added, hk]
      exact Program.prefix_submitted_append hposition.1 (List.take_prefix _ _)
  | storing call counter i t =>
      simp only [ClientState.At, hk] at hposition
      simp only [ClientState.added, hk]
      exact Program.prefix_submitted_append hposition.1 (List.take_prefix _ _)
  | pushing call counter i t =>
      simp only [ClientState.At, hk] at hposition
      simp only [ClientState.added, hk]
      exact Program.prefix_submitted_append hposition.1 (List.take_prefix _ _)
  | _ =>
      simp only [ClientState.added, hk]
      exact p.prefix_submitted _

end Moves

end LibDispatch
