import LibDispatch.Host.Counts

/-!
# The length of the host queue

The API documents that adding a task to a full queue blocks until the task fits.  The host
backend takes the length and does not keep it: {lit}`task_add` pushes without a test.  So the
deque stays within the length only if the programs of the clients see to it.

A client that waits learns that tasks were taken: {lit}`dispatch_queue_wait` has seen the deque
empty, and a wait for a task or a group ends after its tasks were taken, with all that the
client had pushed before them.  If at each of its calls a client has submitted no more tasks
than its share of the length beyond those that it knows to be taken, the deque stays within
the length, whatever the workers do.  Clients that only add learn nothing, and fit exactly
when all their tasks do.

Main results:

- Theorem {lit}`taken_of_reachable`: what a client knows to be taken was taken.
- Theorem {lit}`length_le_of_keeps`: clients that keep their shares keep the length.
- Theorem {lit}`host_deque_bounded`: this, and when clients that only add keep the length.
- Theorem {lit}`host_deque_unbounded`: a queue that exceeds its length.
-/

namespace LibDispatch
namespace Host

variable {C : Type} {N : Nat} {β υ : Type}

/-! ## What a client knows -/

/-- When it returns, the {lit}`w`-th call of a client shows that the tasks of its first
{lit}`jp` calls were taken. -/
def DispatchConfig.Learns (d : DispatchConfig C N β υ) (c : C) (w jp : Nat) : Prop :=
  ((d.prog c)[w]? = some .wait ∧ jp = w) ∨
    ∃ ip ts, (d.programOf c).Awaits w ip ts ∧ jp = ip + 1

/-- When a client makes its {lit}`ip`-th call, it knows that the tasks of its first {lit}`jp`
calls were taken. -/
def DispatchConfig.Knows (d : DispatchConfig C N β υ) (c : C) (ip jp : Nat) : Prop :=
  jp = 0 ∨ ∃ w < ip, d.Learns c w jp

/-- With each of its calls, a client has submitted at most {lit}`room` tasks that it does not
know to be taken. -/
def DispatchConfig.Keeps (d : DispatchConfig C N β υ) (c : C) (room : Nat) : Prop :=
  ∀ ip, ∃ jp, d.Knows c ip jp ∧
    (d.submitted c (ip + 1)).length ≤ (d.submitted c jp).length + room

/-- The clients only add tasks and groups. -/
def DispatchConfig.OnlyAdds (d : DispatchConfig C N β υ) : Prop :=
  ∀ c, ∀ call ∈ d.prog c, (∃ t, call = .taskAdd t) ∨ ∃ g, call = .groupAdd g

/-- {lit}`dispatch_queue_create`, for the calls that the clients go on to make; the source
prints the length and does not store it. -/
def dispatchQueueCreate [DecidableEq C] (_length : Nat) (d : DispatchConfig C N β υ) :
    System (State C N β υ) (Label C N) :=
  d.system

/-- The client has got what it waits for and has not returned. -/
def ClientPc.waited : ClientPc C → Bool
  | .deleteCounter _ _ | .deleteTasks _ | .semaphoreWait _ | .semaphoreBlocked _ => true
  | _ => false

/-- The client has got what its {lit}`w`-th call waits for. -/
def State.Past (s : State C N β υ) (c : C) (w : Nat) : Prop :=
  w < (s.client c).ip ∨ w = (s.client c).ip ∧ (s.client c).pc.waited = true

/-- The tasks of a client that were taken. -/
def DispatchConfig.takenBy (d : DispatchConfig C N β υ) (s : State C N β υ) (c : C) : List Nat :=
  s.history.popped.filter (d.mine c)

/-- What the waits of a client have shown to be taken was taken. -/
def Taken (d : DispatchConfig C N β υ) (s : State C N β υ) : Prop :=
  ∀ c w jp, d.Learns c w jp → s.Past c w →
    (d.submitted c jp).length ≤ (d.takenBy s c).length

/-- A prefix that has the last element of another is at least as long. -/
theorem length_le_of_getLast_mem {α : Type} {l p q : List α} (hl : l.Nodup) (hp : p <+: l)
    (hq : q <+: l) (hne : q ≠ []) (hlast : q.getLast hne ∈ p) : q.length ≤ p.length := by
  by_contra hlt
  have hdrop : q.dropLast.length + 1 = q.length := by
    rw [List.length_dropLast, Nat.sub_add_cancel (List.length_pos_of_ne_nil hne)]
  have hpq : p <+: q.dropLast :=
    List.prefix_of_prefix_length_le hp ((List.dropLast_prefix q).trans hq) (by omega)
  have hnodup : q.Nodup := hl.sublist hq.sublist
  rw [← List.dropLast_concat_getLast hne] at hnodup
  exact (List.nodup_append.mp hnodup).2.2 _ (hpq.subset hlast) _ (List.mem_singleton_self _) rfl

section Taken

variable [DecidableEq C] {d : DispatchConfig C N β υ} {s s' : State C N β υ} {c : C} {i : Fin N}

omit [DecidableEq C] in
/-- Only a wait shows anything. -/
theorem DispatchConfig.Learns.waits {w jp : Nat} {call : DispatchCall} (h : d.Learns c w jp)
    (hcall : (d.prog c)[w]? = some call) :
    call = .wait ∨ (∃ t, call = .taskWait t) ∨ ∃ g, call = .groupWait g := by
  rcases h with ⟨hwait, -⟩ | ⟨ip, ts, ⟨t, hwait, -⟩ | ⟨g, hwait, -⟩, -⟩
  · exact Or.inl (Option.some.inj (hcall.symm.trans hwait))
  · exact Or.inr (Or.inl ⟨t, Option.some.inj (hcall.symm.trans hwait)⟩)
  · exact Or.inr (Or.inr ⟨g, Option.some.inj (hcall.symm.trans hwait)⟩)

omit [DecidableEq C] in
/-- A wait for the queue shows that what the client had added was taken. -/
theorem DispatchConfig.Learns.of_wait {w jp : Nat} (h : d.Learns c w jp)
    (hcall : (d.prog c)[w]? = some .wait) : jp = w := by
  rcases h with ⟨-, hjp⟩ | ⟨ip, ts, ⟨t, hcall', -⟩ | ⟨g, hcall', -⟩, -⟩
  · exact hjp
  · cases Option.some.inj (hcall.symm.trans hcall')
  · cases Option.some.inj (hcall.symm.trans hcall')

omit [DecidableEq C] in
/-- A wait for a call shows that what the client had added with the call was taken. -/
theorem DispatchConfig.Learns.of_awaits {w jp ip : Nat} {ts : List Nat} (h : d.Learns c w jp)
    (hd : d.Disciplined) (hawaits : (d.programOf c).Awaits w ip ts) : jp = ip + 1 := by
  rcases h with ⟨hcall, -⟩ | ⟨ip', ts', hawaits', rfl⟩
  · rcases hawaits with ⟨t, hcall', -⟩ | ⟨g, hcall', -⟩
    · cases Option.some.inj (hcall.symm.trans hcall')
    · cases Option.some.inj (hcall.symm.trans hcall')
  · rw [((hd.each c).awaits_unique_add hawaits' hawaits).1]

omit [DecidableEq C] in
/-- A client that returns from a call without having waited has got nothing. -/
theorem State.Past.of_ret {w : Nat} (hpast : s'.Past c w)
    (hclient : s'.client c = ⟨(s.client c).ip + 1, .ready⟩)
    (hwaited : w = (s.client c).ip → (s.client c).pc.waited = true) : s.Past c w := by
  rcases hpast with hlt | ⟨-, hk⟩
  · rw [hclient] at hlt
    rcases Nat.lt_or_eq_of_le (Nat.le_of_lt_succ hlt) with hlt | heq
    · exact Or.inl hlt
    · exact Or.inr ⟨heq, hwaited heq⟩
  · rw [hclient] at hk
    cases hk

omit [DecidableEq C] in
/-- A client that stays in a call that it has waited for. -/
theorem State.Past.of_stay {w : Nat} (hpast : s'.Past c w)
    (hip : (s'.client c).ip = (s.client c).ip) (hwaited : (s.client c).pc.waited = true) :
    s.Past c w := by
  rcases hpast with hlt | ⟨heq, -⟩
  · exact Or.inl (hip ▸ hlt)
  · exact Or.inr ⟨heq.trans hip, hwaited⟩

/-- The return from {lit}`task_add` shows nothing. -/
theorem Located.past_added (h : Located d s) {site : AddSite C}
    (hk : (s.client c).pc = .notify site) {w jp : Nat} (hlearns : d.Learns c w jp)
    (hpast : (s.added c site).Past c w) : s.Past c w := by
  have hat := h.client c
  rw [hk] at hat
  rcases hat with ⟨t, hsite⟩
  cases site with
  | task counter =>
      refine hpast.of_ret (by simp [State.added]) fun heq => ?_
      rcases hlearns.waits (heq ▸ hsite.1) with h | ⟨_, h⟩ | ⟨_, h⟩ <;> cases h
  | member g i counter =>
      rcases hpast with hlt | ⟨-, hwaited⟩
      · exact Or.inl (by simpa [State.added] using hlt)
      · simp [State.added, ClientPc.waited] at hwaited

/-- A step of a client changes nothing of what was taken. -/
theorem ClientStep.popped_eq (h : ClientStep d s c s') :
    s'.history.popped = s.history.popped := by
  cases h with
  | notifyLost site _ _ => cases site <;> rfl
  | _ => rfl

/-- A client gets what it waits for when it finds the count zero, or the deque empty. -/
theorem ClientStep.past_cases (h : ClientStep d s c s') (hlocated : Located d s) {w jp : Nat}
    (hlearns : d.Learns c w jp) (hpast : s'.Past c w) :
    s.Past c w ∨ w = (s.client c).ip ∧ ((∃ counter ts,
      (s.client c).pc = .counterWait counter ts ∧ s.counter counter = 0) ∨
        (s.client c).pc = .waitUnlock 0) := by
  have hat := hlocated.client c
  cases h with
  | counterZero counter ts hk hzero =>
      rcases hpast with hlt | ⟨heq, -⟩
      · exact Or.inl (Or.inl (by simpa using hlt))
      · exact Or.inr ⟨by simpa using heq, Or.inl ⟨counter, ts, hk, hzero⟩⟩
  | waitEmptied hk =>
      rcases hpast with hlt | ⟨heq, -⟩
      · exact Or.inl (Or.inl (by simpa using hlt))
      · exact Or.inr ⟨by simpa using heq, Or.inr hk⟩
  | notifyLost site hk _ => exact Or.inl (hlocated.past_added hk hlearns hpast)
  | groupDone g i counter hk _ =>
      rw [hk] at hat
      refine Or.inl (hpast.of_ret (by simp) fun heq => ?_)
      rcases hlearns.waits (heq ▸ hat.1) with h | ⟨_, h⟩ | ⟨_, h⟩ <;> cases h
  | deleteQueue hk =>
      rw [hk] at hat
      refine Or.inl (hpast.of_ret (by simp) fun heq => ?_)
      rcases hlearns.waits (heq ▸ hat) with h | ⟨_, h⟩ | ⟨_, h⟩ <;> cases h
  | deleteDone hk => exact Or.inl (hpast.of_ret (by simp) fun _ => by rw [hk]; rfl)
  | semaphoreDone i hi hk => exact Or.inl (hpast.of_ret (by simp) fun _ => by rw [hk]; rfl)
  | deleteCounter counter ts hk => exact Or.inl (hpast.of_stay (by simp) (by rw [hk]; rfl))
  | deleteTask t ts hk => exact Or.inl (hpast.of_stay (by simp) (by rw [hk]; rfl))
  | semaphoreReady i hi hk _ => exact Or.inl (hpast.of_stay (by simp) (by rw [hk]; rfl))
  | semaphoreBlock i hi hk _ => exact Or.inl (hpast.of_stay (by simp) (by rw [hk]; rfl))
  | _ =>
      rcases hpast with hlt | ⟨-, hwaited⟩
      · exact Or.inl (Or.inl (by simpa using hlt))
      · simp [ClientPc.waited] at hwaited

/-- The tasks of a client are taken in the order in which it pushes them. -/
theorem prefix_takenBy (hd : d.Disciplined) (hs : d.system.Reachable s) (c : C) :
    d.takenBy s c <+: d.pushedBy c (s.client c) := by
  rw [← filter_pushed hd hs c, (accounted_of_reachable hs).pushed_eq]
  exact (List.prefix_append _ _).filter (d.mine c)

/-- When the tasks of an earlier call are signalled, what the client had pushed until then was
taken. -/
theorem taken_of_drained (hd : d.Disciplined) (hs : d.system.Reachable s) {ip : Nat}
    {call : DispatchCall} (hcall : (d.prog c)[ip]? = some call) (hne : call.tasks d.heap ≠ [])
    (hlt : ip < (s.client c).ip) (hdrained : s.Drained d (c, ip)) :
    (d.submitted c (ip + 1)).length ≤ (d.takenBy s c).length := by
  have hlocated := located_of_reachable hs
  have hsubmitted := d.submitted_succ hcall
  have hnonempty : d.submitted c (ip + 1) ≠ [] := by
    rw [hsubmitted]
    exact List.append_ne_nil_of_right_ne_nil _ hne
  -- the last task of the call was taken
  have hlast : (d.submitted c (ip + 1)).getLast hnonempty ∈ d.takenBy s c := by
    have htask : (d.submitted c (ip + 1)).getLast hnonempty ∈ call.tasks d.heap := by
      simp only [hsubmitted]
      rw [List.getLast_append_right hne]
      exact List.getLast_mem hne
    have hpopped := State.popped_of_signalled (hdrained call hcall htask)
    exact List.mem_filter.mpr ⟨hpopped, decide_eq_true (d.mem_ownTasks hcall htask)⟩
  exact length_le_of_getLast_mem
    ((hd.each c).distinct.sublist (hlocated.prefix_ownTasks c).sublist)
    (prefix_takenBy hd hs c) ((d.submitted_mono c hlt).trans (hlocated.prefix_pushedBy c).1)
    hnonempty hlast

/-- When the count that a client waits for is zero, what it had pushed until then was taken. -/
theorem taken_of_zero (hd : d.Disciplined) (hs : d.system.Reachable s) {counter : C × Nat}
    {ts : List Nat} (hk : (s.client c).pc = .counterWait counter ts)
    (hzero : s.counter counter = 0) {jp : Nat} (hlearns : d.Learns c (s.client c).ip jp) :
    (d.submitted c jp).length ≤ (d.takenBy s c).length := by
  have hcounter : (s.client c).pc.counter? = some counter := by rw [hk]; rfl
  rcases waiting_of_reachable hd hs c counter hcounter with ⟨ip, ts', rfl, hawaits⟩
  rcases (hd.each c).awaits_call hawaits with ⟨call, hcall, rfl, -, hne⟩
  rw [hlearns.of_awaits hd hawaits]
  exact taken_of_drained hd hs hcall hne ((hd.each c).awaits_lt hawaits)
    (drained_of_zero hd hs hcounter hzero)

/-- When a client has found the deque empty, all that it had pushed was taken. -/
theorem taken_of_empty (hd : d.Disciplined) (hs : d.system.Reachable s)
    (hk : (s.client c).pc = .waitUnlock 0) {jp : Nat}
    (hlearns : d.Learns c (s.client c).ip jp) :
    (d.submitted c jp).length ≤ (d.takenBy s c).length := by
  have hcall := (located_of_reachable hs).client c
  rw [hk] at hcall
  have hempty : s.deque = [] :=
    List.length_eq_zero_iff.mp (sizeRead_of_reachable hs c 0 hk).symm
  have hby : d.takenBy s c = d.pushedBy c (s.client c) := by
    rw [← filter_pushed hd hs c, (accounted_of_reachable hs).pushed_eq, hempty, List.append_nil]
    rfl
  rw [hby, hlearns.of_wait hcall, DispatchConfig.pushedBy, hk]

omit [DecidableEq C] in
/-- A step after which no more waits are past. -/
theorem Taken.frame (h : Taken d s) (hpopped : s.history.popped <+: s'.history.popped)
    (hip : ∀ c, (s'.client c).ip = (s.client c).ip)
    (hwaited : ∀ c, (s'.client c).pc.waited = (s.client c).pc.waited) : Taken d s' := by
  intro c w jp hlearns hpast
  rw [State.Past, hip, hwaited] at hpast
  exact (h c w jp hlearns hpast).trans (hpopped.filter (d.mine c)).length_le

omit [DecidableEq C] in
theorem ClientPc.WokenTo.waited_eq {pc pc' : ClientPc C} (h : pc.WokenTo pc') :
    pc'.waited = pc.waited := by
  rcases h with rfl | ⟨i, rfl, rfl⟩ | ⟨counter, ts, rfl, rfl⟩ <;> rfl

/-- A step of a client keeps what it knows to be taken. -/
theorem Taken.client_step (h : Taken d s) (hd : d.Disciplined) (hs : d.system.Reachable s)
    (hstep : ClientStep d s c s') : Taken d s' := by
  intro c' w jp hlearns hpast
  rw [DispatchConfig.takenBy, hstep.popped_eq]
  by_cases hc : c' = c
  · subst hc
    rcases hstep.past_cases (located_of_reachable hs) hlearns hpast with
      hold | ⟨rfl, ⟨counter, ts, hk, hzero⟩ | hk⟩
    · exact h c' w jp hlearns hold
    · exact taken_of_zero hd hs hk hzero hlearns
    · exact taken_of_empty hd hs hk hlearns
  · rw [State.Past, hstep.other hc] at hpast
    exact h c' w jp hlearns hpast

/-- What a client knows to be taken was taken, in every reachable state. -/
theorem taken_of_reachable (hd : d.Disciplined) (hs : d.system.Reachable s) : Taken d s := by
  have hinit : Taken d d.system.init := by
    rintro c w jp - (hlt | ⟨-, hwaited⟩)
    · exact absurd hlt (Nat.not_lt_zero w)
    · cases hwaited
  refine hs.invariant hinit fun s l s' hs h hstep => ?_
  have hlocated := located_of_reachable hs
  rcases step_cases hstep with ⟨c, -, hc⟩ | ⟨i, -, hi⟩ | ⟨c, i, site, -, hk, hw, rfl⟩ |
    ⟨i, -, hw, rfl⟩ | ⟨c, counter, ts, -, hk, rfl⟩ | ⟨c, i, -, hk, rfl⟩
  · exact h.client_step hd hs hc
  · refine h.frame ?_ (fun c => (hi.client_wokenTo c).1) fun c => (hi.client_wokenTo c).2.waited_eq
    cases hi with
    | pop t rest _ _ => exact List.prefix_append _ _
    | _ => exact List.prefix_refl _
  · intro c' w jp hlearns hpast
    have hwoken : Located d (s.wakeWorker i) := ⟨hlocated.group, hlocated.client⟩
    rw [DispatchConfig.takenBy, State.history_added]
    by_cases hc : c' = c
    · subst hc
      exact h c' w jp hlearns (hwoken.past_added hk hlearns hpast)
    · rw [State.Past, State.added_other _ site hc] at hpast
      exact h c' w jp hlearns hpast
  · exact h.frame (List.prefix_refl _) (fun _ => rfl) fun _ => rfl
  · exact h.frame (List.prefix_refl _) (s.ip_goto c _) fun c' =>
      (State.goto_wokenTo (Or.inr (Or.inr ⟨counter, ts, hk, rfl⟩)) c').waited_eq
  · exact h.frame (List.prefix_refl _) (s.ip_goto c _) fun c' =>
      (State.goto_wokenTo (Or.inr (Or.inl ⟨i, hk, rfl⟩)) c').waited_eq

end Taken

/-! ## The bound -/

/-- A list is covered by the members that each client has of it. -/
theorem length_le_sum_filter [Fintype C] {p : C → Nat → Bool} {l : List Nat}
    (h : ∀ t ∈ l, ∃ c, p c t = true) : l.length ≤ ∑ c, (l.filter (p c)).length := by
  induction l with
  | nil => exact Nat.zero_le _
  | cons t l ih =>
      rcases h t List.mem_cons_self with ⟨c, hc⟩
      have hrest := ih fun t' ht' => h t' (List.mem_cons_of_mem t ht')
      have hstrict : ∑ c', (l.filter (p c')).length <
          ∑ c', ((t :: l).filter (p c')).length := by
        refine Finset.sum_lt_sum (fun c' _ => ?_) ⟨c, Finset.mem_univ c, ?_⟩
        · exact ((List.sublist_cons_self t l).filter (p c')).length_le
        · rw [List.filter_cons_of_pos hc]
          exact Nat.lt_succ_self _
      rw [List.length_cons]
      exact Nat.lt_of_le_of_lt hrest hstrict

section Bound

variable [Fintype C] [DecidableEq C] {d : DispatchConfig C N β υ} {s s' : State C N β υ}
  {c : C} {k k' : Client C}

omit [Fintype C] in
/-- No more tasks of a client wait than its share. -/
theorem mine_le_of_keeps (hd : d.Disciplined) (hs : d.system.Reachable s) {room : Nat}
    (hkeeps : d.Keeps c room) : (s.deque.filter (d.mine c)).length ≤ room := by
  have hpushed := filter_pushed hd hs c
  rw [(accounted_of_reachable hs).pushed_eq, List.filter_append] at hpushed
  have hlen := congrArg List.length hpushed
  rw [List.length_append] at hlen
  have hcurrent := ((located_of_reachable hs).prefix_pushedBy c).2.length_le
  rcases hkeeps (s.client c).ip with ⟨jp, hknows, hroom⟩
  have htaken : (d.submitted c jp).length ≤ (d.takenBy s c).length := by
    rcases hknows with rfl | ⟨w, hw, hlearns⟩
    · exact Nat.zero_le _
    · exact taken_of_reachable hd hs c w jp hlearns (Or.inl hw)
  unfold DispatchConfig.takenBy at htaken
  omega

/-- Clients that keep their shares keep the length. -/
theorem length_le_of_keeps (hd : d.Disciplined) (hs : d.system.Reachable s) {room : C → Nat}
    (hkeeps : ∀ c, d.Keeps c (room c)) : s.deque.length ≤ ∑ c, room c := by
  refine (length_le_sum_filter fun t ht => ?_).trans
    (Finset.sum_le_sum fun c _ => mine_le_of_keeps hd hs (hkeeps c))
  have hpushed : t ∈ s.history.pushed := by
    rw [(accounted_of_reachable hs).pushed_eq]
    exact List.mem_append_right _ ht
  rcases exists_mine hs hpushed with ⟨c, hown⟩
  exact ⟨c, decide_eq_true hown⟩

/-- No more tasks wait than the clients submit. -/
theorem length_le_ownTasks (hs : d.system.Reachable s) :
    s.deque.length ≤ ∑ c, (d.ownTasks c).length := by
  have hpushed := congrArg List.length (accounted_of_reachable hs).pushed_eq
  rw [List.length_append, length_pushed hs] at hpushed
  have hown : ∑ c, (d.pushedBy c (s.client c)).length ≤ ∑ c, (d.ownTasks c).length :=
    Finset.sum_le_sum fun c _ => ((located_of_reachable hs).prefix_ownTasks c).length_le
  omega

/-! ## Clients that add before the workers start -/

/-- Where a client goes on after it has added the task of the site. -/
def AddSite.next (ip : Nat) : AddSite C → Client C
  | .task _ => ⟨ip + 1, .ready⟩
  | .member g i counter => ⟨ip, .groupLoop g (i + 1) counter⟩

/-- The workers have not started, and no client holds the lock. -/
structure Unstarted (d : DispatchConfig C N β υ) (s : State C N β υ) : Prop where
  reachable : d.system.Reachable s
  lock : s.lock = none
  worker : ∀ i, s.worker i = .start
  popped : s.history.popped = []

/-- By steps of its own the client goes on to {lit}`k`. -/
def CanGo (d : DispatchConfig C N β υ) (s : State C N β υ) (c : C) (k : Client C) : Prop :=
  ∃ s', Unstarted d s' ∧ s'.client = Function.update s.client c k

omit [Fintype C] in
theorem CanGo.trans (h : CanGo d s c k)
    (hnext : ∀ s', Unstarted d s' → s'.client c = k → CanGo d s' c k') : CanGo d s c k' := by
  rcases h with ⟨s', hs', hclient⟩
  rcases hnext s' hs' (by rw [hclient, Function.update_self]) with ⟨s'', hs'', hclient'⟩
  exact ⟨s'', hs'', by rw [hclient', hclient, Function.update_idem]⟩

omit [Fintype C] in
/-- A step outside the lock. -/
theorem CanGo.of_step (h : Unstarted d s) (hstep : ClientStep d s c s') (hlock : s'.lock = s.lock)
    (hworker : s'.worker = s.worker) (hclient : s'.client = Function.update s.client c k) :
    CanGo d s c k :=
  ⟨s', ⟨h.reachable.step hstep.step, hlock.trans h.lock, fun i => by rw [hworker, h.worker i],
    hstep.popped_eq.trans h.popped⟩, hclient⟩

omit [Fintype C] in
/-- A client that is about to add a task adds it. -/
theorem Unstarted.add (h : Unstarted d s) {t ip : Nat} {site : AddSite C}
    (hk : s.client c = ⟨ip, .store t site⟩) : CanGo d s c (site.next ip) := by
  have hstore : CanGo d s c ⟨ip, .addLock t site⟩ := by
    cases hcounter : site.counter with
    | none => exact .of_step h (.storeNone t site (by rw [hk]) hcounter) rfl rfl (by simp [hk])
    | some counter =>
        exact .of_step h (.store t site counter (by rw [hk]) hcounter) rfl rfl (by simp [hk])
  refine hstore.trans fun r hr hk => ?_
  -- the task is pushed under the lock, and no worker is there to be notified
  let locked := { r with lock := some (.inl c) }.goto c (.push t site)
  let pushed := ({ locked with deque := locked.deque ++ [t] }.record fun h =>
    { h with pushed := h.pushed ++ [t] }).goto c (.addUnlock site)
  let unlocked := { pushed with lock := none }.goto c (.notify site)
  have hlock : ClientStep d r c locked := .addLock t site (by rw [hk]) hr.lock
  have hpush : ClientStep d locked c pushed := .push t site (by simp [locked])
  have hunlock : ClientStep d pushed c unlocked := .addUnlock site (by simp [pushed])
  have hstart : ∀ i, unlocked.worker i = .start := hr.worker
  have hnotify : ClientStep d unlocked c (unlocked.added c site) :=
    .notifyLost site (by simp [unlocked]) fun i => by simp [hstart i]
  refine ⟨unlocked.added c site, ⟨?_, by simp [unlocked, State.goto], ?_, ?_⟩, ?_⟩
  · exact (((hr.reachable.step hlock.step).step hpush.step).step hunlock.step).step hnotify.step
  · simpa using hstart
  · rw [hnotify.popped_eq, hunlock.popped_eq, hpush.popped_eq, hlock.popped_eq, hr.popped]
  · cases site <;> simp [unlocked, pushed, locked, State.added, AddSite.next, hk]

omit [Fintype C] in
/-- A client in the loop of {lit}`dispatch_queue_group_add` adds the rest of the group.  The
induction is on the number of tasks left. -/
theorem Unstarted.addRest (h : Unstarted d s) {ip g : Nat} {counter : Option (C × Nat)}
    (left : Nat) {i : Nat} (hleft : (d.heap.group g).tasks.length = i + left)
    (hk : s.client c = ⟨ip, .groupLoop g i counter⟩) : CanGo d s c ⟨ip + 1, .ready⟩ := by
  have hgroup := (located_of_reachable h.reachable).group
  induction left generalizing s i with
  | zero =>
      refine .of_step h (.groupDone g i counter (by rw [hk]) ?_) rfl rfl (by simp [hk])
      rw [hgroup, List.getElem?_eq_none_iff]
      omega
  | succ left ih =>
      have hlt : i < (s.heap.group g).tasks.length := by
        rw [hgroup]
        omega
      have hnext : CanGo d s c ⟨ip, .store (s.heap.group g).tasks[i] (.member g i counter)⟩ :=
        .of_step h (.groupNext g i _ counter (by rw [hk]) (List.getElem?_eq_getElem hlt)) rfl rfl
          (by simp [hk])
      have hadded := hnext.trans fun r hr hk => hr.add hk
      exact hadded.trans fun r hr hk =>
        ih hr (by omega) hk (located_of_reachable hr.reachable).group

omit [Fintype C] in
/-- A client that only adds makes its next call. -/
theorem Unstarted.call (h : Unstarted d s) (hadds : d.OnlyAdds) {ip : Nat} {call : DispatchCall}
    (hcall : (d.prog c)[ip]? = some call) (hk : s.client c = ⟨ip, .ready⟩) :
    CanGo d s c ⟨ip + 1, .ready⟩ := by
  have hready : (s.client c).pc = .ready := by rw [hk]
  have hip : (d.prog c)[(s.client c).ip]? = some call := by rw [hk, hcall]
  rcases hadds c call (List.mem_of_getElem? hcall) with ⟨t, rfl⟩ | ⟨g, rfl⟩
  · have hstore : ∃ counter, CanGo d s c ⟨ip, .store t (.task counter)⟩ := by
      cases hw : (s.heap.task t).waitable with
      | true =>
          exact ⟨some (c, ip), .of_step h (.taskAddWaitable t hready hip hw) rfl rfl (by simp [hk])⟩
      | false =>
          exact ⟨none, .of_step h (.taskAddPlain t hready hip hw) rfl rfl (by simp [hk])⟩
    rcases hstore with ⟨counter, hstore⟩
    exact hstore.trans fun r hr hk => hr.add hk
  · have hloop : ∃ counter, CanGo d s c ⟨ip, .groupLoop g 0 counter⟩ := by
      cases hw : (s.heap.group g).waitable with
      | true =>
          exact ⟨some (c, ip), .of_step h (.groupAddWaitable g hready hip hw) rfl rfl
            (by simp [hk])⟩
      | false =>
          exact ⟨none, .of_step h (.groupAddPlain g hready hip hw) rfl rfl (by simp [hk])⟩
    rcases hloop with ⟨counter, hloop⟩
    exact hloop.trans fun r hr hk => hr.addRest _ (Nat.zero_add _).symm hk

omit [Fintype C] in
/-- A client that only adds makes all its calls. -/
theorem Unstarted.calls (h : Unstarted d s) (hadds : d.OnlyAdds) (left : Nat) {ip : Nat}
    (hleft : (d.prog c).length = ip + left) (hk : s.client c = ⟨ip, .ready⟩) :
    CanGo d s c ⟨(d.prog c).length, .ready⟩ := by
  induction left generalizing s ip with
  | zero => exact ⟨s, h, by rw [hleft, Nat.add_zero, ← hk, Function.update_eq_self]⟩
  | succ left ih =>
      have hcall := List.getElem?_eq_getElem (show ip < (d.prog c).length by omega)
      exact (h.call hadds hcall hk).trans fun r hr hk => ih hr (by omega) hk

/-- All clients can make all their calls before the workers start. -/
theorem exists_all_added (hadds : d.OnlyAdds) :
    ∃ s, Unstarted d s ∧ ∀ c, s.client c = ⟨(d.prog c).length, .ready⟩ := by
  have hsome : ∀ S : Finset C, ∃ s, Unstarted d s ∧
      ∀ c, s.client c = ⟨if c ∈ S then (d.prog c).length else 0, .ready⟩ := by
    intro S
    induction S using Finset.induction_on with
    | empty => exact ⟨d.system.init, ⟨.init, rfl, fun _ => rfl, rfl⟩, fun _ => rfl⟩
    | insert c S hc ih =>
        rcases ih with ⟨s, hs, hclient⟩
        have hk : s.client c = ⟨0, .ready⟩ := by rw [hclient c, if_neg hc]
        rcases hs.calls hadds _ (Nat.zero_add _).symm hk with ⟨s', hs', hclient'⟩
        refine ⟨s', hs', fun c' => ?_⟩
        rw [hclient']
        by_cases hcc : c' = c
        · subst hcc
          simp
        · rw [Function.update_of_ne hcc, hclient c']
          simp [hcc]
  rcases hsome Finset.univ with ⟨s, hs, hclient⟩
  exact ⟨s, hs, fun c => by rw [hclient c, if_pos (Finset.mem_univ c)]⟩

/-- Clients that only add can have all their tasks wait. -/
theorem exists_full (hadds : d.OnlyAdds) :
    ∃ s, d.system.Reachable s ∧ s.deque.length = ∑ c, (d.ownTasks c).length := by
  rcases exists_all_added hadds with ⟨s, hs, hclient⟩
  refine ⟨s, hs.reachable, ?_⟩
  have hpushed := (accounted_of_reachable hs.reachable).pushed_eq
  rw [hs.popped, List.nil_append] at hpushed
  rw [← hpushed, length_pushed hs.reachable]
  refine Finset.sum_congr rfl fun c _ => ?_
  rw [hclient c]
  exact congrArg List.length (congrArg (List.flatMap _) List.take_length)

/-- The deque of a host queue that was created with a length holds at most as many tasks in
every reachable state, if the clients follow the rules and share the length out among them, so
that with each of its calls a client has submitted at most as many tasks as its share that it
does not know to be taken.  It does so for clients that only add tasks and groups if and only
if they add no more tasks in all. -/
theorem host_deque_bounded (d : DispatchConfig C N β υ) (length : Nat) :
    (d.Disciplined → ∀ room : C → Nat, (∀ c, d.Keeps c (room c)) → ∑ c, room c ≤ length →
      ∀ s, (dispatchQueueCreate length d).Reachable s → s.deque.length ≤ length) ∧
    (d.OnlyAdds → ((∀ s, (dispatchQueueCreate length d).Reachable s → s.deque.length ≤ length) ↔
      ∑ c, (d.ownTasks c).length ≤ length)) := by
  refine ⟨fun hd room hkeeps hroom s hs => ?_, fun hadds => ⟨fun hbound => ?_, fun hfit s hs => ?_⟩⟩
  · exact (length_le_of_keeps hd hs hkeeps).trans hroom
  · rcases exists_full hadds with ⟨s, hs, hfull⟩
    rw [← hfull]
    exact hbound s hs
  · exact (length_le_ownTasks hs).trans hfit

end Bound

/-! ## Clients that fit and clients that do not -/

/-- One client adds a group of two functions, waits for it and adds a task; the other adds two
tasks and waits for the queue between them. -/
def sharing : DispatchConfig Bool 1 Unit Nat where
  prog
    | false => [.groupAdd 0, .groupWait 0, .taskAdd 2]
    | true => [.taskAdd 3, .wait, .taskAdd 4]
  heap := twoFunctionsHeap (Bool × Nat)
  user := 0

/-- The first client has the room for its group, the second for one task. -/
def sharingRoom : Bool → Nat
  | false => 2
  | true => 1

theorem sharing_disciplined : sharing.Disciplined where
  each := by
    rintro (_ | _)
    · constructor
      · decide
      · rintro (_ | _ | _ | w) t hw <;> cases hw
      · rintro (_ | _ | _ | w) g hw <;> cases hw
        exact ⟨rfl, List.cons_ne_nil 0 [1], 0, Nat.one_pos, rfl⟩
      · rintro (_ | _ | _ | w) w' t hw <;> cases hw
      · rintro (_ | _ | _ | w) w' g hw hw' <;> cases hw
        rcases w' with _ | _ | _ | w' <;> first | rfl | cases hw'
    · constructor
      · decide
      · rintro (_ | _ | _ | w) t hw <;> cases hw
      · rintro (_ | _ | _ | w) g hw <;> cases hw
      · rintro (_ | _ | _ | w) w' t hw <;> cases hw
      · rintro (_ | _ | _ | w) w' g hw <;> cases hw
  flags := by
    rintro (_ | _) g hg t ht
    · simp only [DispatchConfig.programOf, sharing, List.mem_cons, List.not_mem_nil, or_false,
        DispatchCall.groupAdd.injEq, reduceCtorEq] at hg
      subst hg
      exact (twoFunctionsHeap_built (Bool × Nat)).waitable_eq (List.mem_singleton_self 0) ht
    · simp [DispatchConfig.programOf, sharing] at hg
  apart := by decide

theorem sharing_keeps : ∀ c, sharing.Keeps c (sharingRoom c) := by
  rintro (_ | _) (_ | _ | ip)
  · exact ⟨0, Or.inl rfl, by decide⟩
  · exact ⟨0, Or.inl rfl, by decide⟩
  · have hlearns : sharing.Learns false 1 1 := Or.inr ⟨0, [0, 1], Or.inr ⟨0, rfl, rfl, rfl⟩, rfl⟩
    refine ⟨1, Or.inr ⟨1, by omega, hlearns⟩, ?_⟩
    exact (sharing.prefix_submitted false _).length_le.trans (by decide)
  · exact ⟨0, Or.inl rfl, by decide⟩
  · exact ⟨0, Or.inl rfl, by decide⟩
  · refine ⟨1, Or.inr ⟨1, by omega, Or.inl ⟨rfl, rfl⟩⟩, ?_⟩
    exact (sharing.prefix_submitted true _).length_le.trans (by decide)

/-- A client adds two tasks. -/
def twoTasks : DispatchConfig Unit 1 Unit Nat where
  prog := fun _ => [.taskAdd 0, .taskAdd 1]
  heap := ⟨fun _ => dispatchTaskInit (fun _ n => n + 1) () false, fun _ => ⟨0, false, []⟩⟩
  user := 0

theorem twoTasks_onlyAdds : twoTasks.OnlyAdds := by
  intro c call hcall
  simp only [twoTasks, List.mem_cons, List.not_mem_nil, or_false] at hcall
  rcases hcall with rfl | rfl
  · exact Or.inl ⟨0, rfl⟩
  · exact Or.inl ⟨1, rfl⟩

/-- Five tasks keep the length three when their clients wait, and two tasks the length two. -/
theorem host_deque_bounded_twoClients :
    (∀ s, (dispatchQueueCreate 3 sharing).Reachable s → s.deque.length ≤ 3) ∧
      ∀ s, (dispatchQueueCreate 2 twoTasks).Reachable s → s.deque.length ≤ 2 :=
  ⟨(host_deque_bounded sharing 3).1 sharing_disciplined sharingRoom sharing_keeps (by decide),
    ((host_deque_bounded twoTasks 2).2 twoTasks_onlyAdds).mpr (by decide)⟩

/-- Both tasks are added before the worker starts. -/
def twoTasksBoth : List (Label Unit 1) :=
  List.replicate 12 (.client ())

theorem twoTasksBoth_run : ((dispatchQueueCreate 1 twoTasks).run
    (dispatchQueueCreate 1 twoTasks).init twoTasksBoth).isSome = true := by
  decide +kernel

/-- A queue that was created with the length 1 can hold two tasks. -/
theorem host_deque_unbounded :
    ¬ ∀ s : State Unit 1 Unit Nat, (dispatchQueueCreate 1 twoTasks).Reachable s →
      s.deque.length ≤ 1 := by
  intro hclaim
  have hle := hclaim _ ((dispatchQueueCreate 1 twoTasks).reachable_get_run _ twoTasksBoth_run)
  exact absurd hle (by decide +kernel)

end Host
end LibDispatch
