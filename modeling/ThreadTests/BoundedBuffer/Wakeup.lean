import ThreadTests.Core.Tally
import ThreadTests.BoundedBuffer.Fifo

/-!
# No wakeup is lost in `bounded_buffer`

While some thread of a side waits, each item (or free place) that its side could use is paid for:
by an update whose notification is still to come, by a woken thread that is to test again, or by a
thread that has found the predicate true and is to update the container (`Awake`). A notification
hands its credit to the waiter it wakes, a thread that takes the item of another one that was woken
brings its own credit, and a thread falls asleep only when there is nothing to be had.

A thread between its test and its update is the case that is easily forgotten: its item is still
counted in `m_unread` although no notification and no woken thread stands for it any more
(`exists_taking`).
-/

namespace ThreadTests.BoundedBuffer

universe u v w x

variable {ι : Type u} {T : Type v} {C : Type w} {capacity : ℕ}

namespace Pc

/-- The thread has updated the container and is to notify the side. -/
def pending (d : Side) : Pc T → Bool
  | .call op .updated | .call op .notifying => op.side.other == d
  | _ => false

/-- The thread of the side was woken and is to test its predicate again. -/
def rechecking (d : Side) : Pc T → Bool
  | .call op .woken | .call op (.testing true) => op.side == d
  | _ => false

/-- The thread of the side was woken, has found its predicate true and is to update the
container. -/
def taking (d : Side) : Pc T → Bool
  | .call op (.passed true) => op.side == d
  | _ => false

/-- What the thread is worth to those who wait on the side. -/
def credit (d : Side) (p : Pc T) : ℕ :=
  if p.pending d || p.rechecking d || p.taking d then 1 else 0

theorem credit_pos {d : Side} {p : Pc T} : 0 < p.credit d ↔
    p.pending d = true ∨ p.rechecking d = true ∨ p.taking d = true := by
  simp only [credit, Bool.or_eq_true, or_assoc]
  split <;> simp [*]

theorem credit_passed_le (d : Side) (op : Op T) (woken : Bool) :
    (call op (.passed woken)).credit d ≤ if op.side = d then 1 else 0 := by
  cases woken <;> simp [credit, pending, rechecking, taking]

/-- A test that succeeds keeps the credit of a woken thread. -/
theorem credit_passed (d : Side) (op : Op T) (woken : Bool) :
    (call op (.passed woken)).credit d = (call op (.testing woken)).credit d := by
  cases woken <;> simp [credit, pending, rechecking, taking]

theorem credit_updated (d : Side) (op : Op T) :
    (call op .updated).credit d = if op.side.other = d then 1 else 0 := by
  simp [credit, pending, rechecking, taking]

theorem credit_notifying (d : Side) (op : Op T) :
    (call op .notifying).credit d = if op.side.other = d then 1 else 0 := by
  simp [credit, pending, rechecking, taking]

theorem credit_woken (d : Side) (op : Op T) :
    (call op .woken).credit d = if op.side = d then 1 else 0 := by
  simp [credit, pending, rechecking, taking]

theorem credit_testing_le (d : Side) (op : Op T) (woken : Bool) :
    (call op (.testing woken)).credit d ≤ if op.side = d then 1 else 0 := by
  cases woken <;> simp [credit, pending, rechecking, taking]

end Pc

namespace State

/-- How many threads of the side could go on. -/
def available [CircularBuffer C T capacity] (s : State ι T (Buffer C)) : Side → ℕ
  | .producer => capacity - s.data.mUnread
  | .consumer => s.data.mUnread

variable [CircularBuffer C T capacity]

theorem ready_iff {s : State ι T (Buffer C)} {d : Side} : s.ready d = true ↔ 0 < s.available d := by
  cases d with
  | producer =>
    rw [ready_producer, available]
    omega
  | consumer => exact ready_consumer

theorem available_of_not_ready {s : State ι T (Buffer C)} {d : Side} (h : s.ready d = false) :
    s.available d = 0 := by
  by_contra hne
  rw [ready_iff.2 (Nat.pos_of_ne_zero hne)] at h
  cases h

end State

variable [CircularBuffer C T capacity] [DecidableEq ι] {s t : State ι T (Buffer C)} {i j : ι}
  {op : Op T} {woken : Bool} {p : Pc T} {e : Event ι T} {d : Side}

omit [DecidableEq ι] in
/-- An update takes from its own side and gives to the other one. -/
theorem Inv.available_update (h : Inv s) (hi : s.pc i = .call op (.passed woken))
    (hu : s.update op = some t) : t.available op.side + 1 = s.available op.side ∧
      t.available op.side.other = s.available op.side.other + 1 := by
  have hunread : s.data.mUnread ≤ capacity := h.valid.le.trans h.valid.size_le
  rcases State.update_cases hu with ⟨item, rfl, rfl⟩ | ⟨hside, unread, item, hunread', -, rfl⟩
  · have hroom : s.data.mUnread < capacity := State.ready_producer.1 (h.tested hi)
    refine ⟨?_, rfl⟩
    change capacity - (s.data.mUnread + 1) + 1 = capacity - s.data.mUnread
    omega
  · rw [hside]
    refine ⟨hunread'.symm, ?_⟩
    change capacity - unread = capacity - s.data.mUnread + 1
    omega

variable [Fintype ι]

/-- While a thread of the side waits, the credits cover what is available. -/
def Awake (d : Side) (s : State ι T (Buffer C)) : Prop :=
  (∃ i, (s.pc i).waitingOn d = true) → s.available d ≤ tally (Pc.credit d) s.pc

theorem tally_goto {D : Type x} (w : Pc T → ℕ) (s : State ι T D) (i : ι) (p : Pc T) :
    tally w (s.goto i p).pc + w (s.pc i) = tally w s.pc + w p :=
  tally_update w s.pc i p

omit [Fintype ι] in
/-- Who waits after a thread went on waited before, unless it is that thread. -/
theorem waiting_of_goto {D : Type x} {s : State ι T D} (hp : p.waitingOn d = false)
    (h : ((s.goto i p).pc j).waitingOn d = true) :
    (s.pc j).waitingOn d = true := by
  by_cases hj : j = i
  · subst hj
    rw [State.goto_pc_self, hp] at h
    cases h
  · rwa [State.goto_pc_of_ne s hj] at h

namespace Awake

/-- A thread goes on without losing credit, and waits only when nothing is available. -/
theorem goto (h : Awake d s) {m : Option ι}
    (hcredit : (s.pc i).credit d ≤ p.credit d ∨ s.available d = 0)
    (hwait : p.waitingOn d = false ∨ s.available d = 0) :
    Awake d { s.goto i p with mMutex := m } := by
  rintro ⟨j, hj⟩
  have htally := tally_goto (Pc.credit d) s i p
  change s.available d ≤ tally (Pc.credit d) (s.goto i p).pc
  by_cases hzero : s.available d = 0
  · omega
  · have hcredit := hcredit.resolve_right hzero
    have hcovered := h ⟨j, waiting_of_goto (hwait.resolve_right hzero) hj⟩
    omega

/-- A test: the credit of a woken thread goes on to its update, or is not needed. -/
theorem test (h : Awake d s) {ready : Bool} (hi : s.pc i = .call op (.testing woken))
    (hr : s.ready op.side = ready) :
    Awake d (s.goto i (.call op (if ready then .passed woken else .sleeping))) := by
  cases ready with
  | true => exact h.goto (.inl (by rw [hi, ← Pc.credit_passed]; rfl)) (.inl rfl)
  | false =>
    refine h.goto ?_ (.inl rfl)
    by_cases hd : op.side = d
    · exact .inr (hd ▸ State.available_of_not_ready hr)
    · have hcredit := Pc.credit_testing_le d op woken
      rw [if_neg hd, ← hi] at hcredit
      exact .inl (hcredit.trans (Nat.zero_le _))

/-- An update gives one item to the other side, with the credit for it. -/
theorem update (h : Awake d s) (hinv : Inv s) (hi : s.pc i = .call op (.passed woken))
    (hu : s.update op = some t) : Awake d (t.goto i (.call op .updated)) := by
  rintro ⟨j, hj⟩
  obtain ⟨hpc, -⟩ := State.update_frame hu
  obtain ⟨hown, hother⟩ := hinv.available_update hi hu
  have hwaits := waiting_of_goto (s := t) rfl hj
  have htally := tally_goto (Pc.credit d) t i (.call op .updated)
  rw [hpc] at hwaits
  have hcovered := h ⟨j, hwaits⟩
  have hspent := Pc.credit_passed_le d op woken
  rw [hpc, hi, Pc.credit_updated] at htally
  change t.available d ≤ _
  rcases Side.eq_or_eq_other d op.side with rfl | rfl
  · rw [if_pos rfl] at hspent
    rw [if_neg (Side.other_ne _)] at htally
    omega
  · rw [if_neg (Side.other_ne _).symm] at hspent
    rw [if_pos rfl] at htally
    omega

/-- The credit of a notification that wakes nobody is not needed. -/
theorem notifyNone (h : Awake d s) (hi : s.pc i = .call op .notifying)
    (hnone : ∀ j, (s.pc j).waitingOn op.side.other = false) : Awake d (s.goto i .idle) := by
  rcases Side.eq_or_eq_other d op.side with rfl | rfl
  · refine h.goto (.inl ?_) (.inl rfl)
    rw [hi, Pc.credit_notifying, if_neg (Side.other_ne _)]
    exact Nat.zero_le _
  · rintro ⟨j, hj⟩
    have hwaits := waiting_of_goto rfl hj
    rw [hnone j] at hwaits
    cases hwaits

/-- The waiter takes over the credit of the notification. -/
theorem notifyOne (h : Awake d s) {op' : Op T} (hi : s.pc i = .call op .notifying)
    (hj : s.pc j = .call op' .waiting) (hside : op'.side = op.side.other) :
    Awake d ((s.goto j (.call op' .woken)).goto i .idle) := by
  have hne : i ≠ j := by
    rintro rfl
    rw [hi] at hj
    cases hj
  rintro ⟨k, hk⟩
  have hcovered := h ⟨k, waiting_of_goto rfl (waiting_of_goto rfl hk)⟩
  have hwoken := tally_goto (Pc.credit d) s j (.call op' .woken)
  have hidle := tally_goto (Pc.credit d) (s.goto j (.call op' .woken)) i .idle
  have hasleep : (s.pc j).credit d = 0 := by rw [hj]; rfl
  have hdone : (Pc.idle : Pc T).credit d = 0 := rfl
  rw [hasleep, Pc.credit_woken, hside] at hwoken
  rw [State.goto_pc_of_ne s hne, hi, Pc.credit_notifying, hdone] at hidle
  change s.available d ≤ _
  omega

omit [DecidableEq ι] in
theorem start : Awake d (State.start : State ι T (Buffer C)) := by
  rintro ⟨i, hi⟩
  cases hi

theorem moves (h : Awake d s) (hinv : Inv s) (hst : s.Moves e t) : Awake d t := by
  cases hst with
  | call hi => exact h.goto (.inl (by rw [hi]; exact Nat.zero_le _)) (.inl rfl)
  | enter hi => exact h.goto (.inl (by rw [hi]; exact Nat.zero_le _)) (.inl rfl)
  | relock hi => exact h.goto (.inl (by rw [hi]; rfl)) (.inl rfl)
  | test hi hr => exact h.test hi hr
  | @wait i op hi =>
    refine h.goto (.inl (by rw [hi]; exact Nat.zero_le _)) ?_
    by_cases hd : op.side = d
    · exact .inr (hd ▸ State.available_of_not_ready (hinv.slept hi))
    · exact .inl (by simpa [Pc.waitingOn] using hd)
  | spurious hi => exact h.goto (.inl (by rw [hi]; exact Nat.zero_le _)) (.inl rfl)
  | update hi hu => exact h.update hinv hi hu
  | unlock hi => exact h.goto (.inl (by rw [hi]; rfl)) (.inl rfl)
  | notifyNone hi hnone => exact h.notifyNone hi hnone
  | notifyOne hi hj hside => exact h.notifyOne hi hj hside

end Awake

theorem awake_of_reachable (d : Side) (hs : (system ι (Buffer C)).Reachable s) : Awake d s :=
  System.invariant (P := Awake d) Awake.start
    (fun hs h hst => h.moves (inv_of_reachable hs) (State.moves_of_step hst)) hs

/-! ## Quiescent states -/

/-- Nothing happens before the next call, unless a thread wakes up for no reason. -/
def Quiescent (s : State ι T (Buffer C)) : Prop :=
  ∀ e t, s.step e = some t → (∃ i op, e = .call i op) ∨ ∃ i, e = .spurious i

omit [DecidableEq ι] [Fintype ι] in
/-- The update of a thread that holds the mutex finds its item. -/
theorem Inv.exists_update (h : Inv s) (hi : s.pc i = .call op (.passed woken)) :
    ∃ t, s.update op = some t := by
  cases hside : op.side with
  | producer =>
    cases op with
    | push item => exact ⟨_, s.update_push item⟩
    | pop | popSave => cases hside
  | consumer =>
    obtain ⟨unread, hunread, hlt⟩ := h.index hi hside
    obtain ⟨item, hitem⟩ := CircularBuffer.exists_at? hlt
    exact ⟨_, State.update_pop hside hunread hitem⟩

namespace Quiescent

theorem mutex_free (hq : Quiescent s) (h : Inv s) : s.mMutex = none := by
  by_contra hheld
  obtain ⟨i, hi⟩ := Option.ne_none_iff_exists'.1 hheld
  have hholds := (h.locked i).2 hi
  cases hpc : s.pc i with
  | idle =>
    rw [hpc] at hholds
    cases hholds
  | call op stage =>
    rw [hpc] at hholds
    cases stage with
    | testing woken => simpa using hq _ _ (State.Moves.test hpc rfl).step_eq
    | sleeping => simpa using hq _ _ (State.Moves.wait hpc).step_eq
    | passed woken =>
      obtain ⟨t, ht⟩ := h.exists_update hpc
      simpa using hq _ _ (State.Moves.update hpc ht).step_eq
    | updated => simpa using hq _ _ (State.Moves.unlock hpc).step_eq
    | entering | waiting | woken | notifying => cases hholds

theorem not_notifying (hq : Quiescent s) : s.pc i ≠ .call op .notifying := by
  intro hi
  by_cases hnone : ∀ j, (s.pc j).waitingOn op.side.other = false
  · simpa using hq _ _ (State.Moves.notifyNone hi hnone).step_eq
  · obtain ⟨j, hj⟩ := not_forall.1 hnone
    obtain ⟨op', hj, hside⟩ := Pc.waitingOn_iff.1 (eq_true_of_ne_false hj)
    simpa using hq _ _ (State.Moves.notifyOne hi hj hside).step_eq

/-- In a quiescent state every thread is between two calls or asleep. -/
theorem idle_or_waiting (hq : Quiescent s) (h : Inv s) (i : ι) :
    s.pc i = .idle ∨ ∃ op, s.pc i = .call op .waiting := by
  have hm := hq.mutex_free h
  have hfree : (s.pc i).holding ≠ true := fun hholds => by
    rw [h.locked i, hm] at hholds
    cases hholds
  cases hpc : s.pc i with
  | idle => exact .inl rfl
  | call op stage =>
    rw [hpc] at hfree
    cases stage with
    | entering => simpa using hq _ _ (State.Moves.enter hpc hm).step_eq
    | waiting => exact .inr ⟨op, rfl⟩
    | woken => simpa using hq _ _ (State.Moves.relock hpc hm).step_eq
    | notifying => exact absurd hpc hq.not_notifying
    | testing | sleeping | passed | updated => exact absurd rfl hfree

theorem credit_eq_zero (hq : Quiescent s) (h : Inv s) (d : Side) (i : ι) :
    (s.pc i).credit d = 0 := by
  rcases hq.idle_or_waiting h i with hi | ⟨op, hi⟩
  · rw [hi]
    rfl
  · rw [hi]
    rfl

end Quiescent

/-! ## No lost wakeup -/

omit [DecidableEq ι] in
theorem Awake.exists_credit (h : Awake d s) (hi : (s.pc i).waitingOn d = true)
    (hready : s.ready d = true) : ∃ j, 0 < (s.pc j).credit d :=
  exists_of_tally_pos ((State.ready_iff.1 hready).trans_le (h ⟨i, hi⟩))

/-- What holds of the threads that wait, in every state. -/
structure NoLostWakeup (s : State ι T (Buffer C)) : Prop where
  /-- While a thread waits although its predicate is true, a notification of its side is still to
  come, or another thread of its side was woken and has yet to test its predicate, or to update the
  container after it found it true. -/
  awake : ∀ d i, (s.pc i).waitingOn d = true → s.ready d = true →
    ∃ j, (s.pc j).pending d = true ∨ (s.pc j).rechecking d = true ∨ (s.pc j).taking d = true
  /-- No thread that could go on is left asleep. -/
  quiescent : Quiescent s → ∀ d i, (s.pc i).waitingOn d = true → s.ready d = false

/-- **No lost wakeup**, for any number of threads on both sides and every schedule. -/
theorem noLostWakeup_of_reachable (hs : (system ι (Buffer C)).Reachable s) : NoLostWakeup s := by
  refine ⟨?_, ?_⟩
  · intro d i hi hready
    obtain ⟨j, hj⟩ := (awake_of_reachable d hs).exists_credit hi hready
    exact ⟨j, Pc.credit_pos.1 hj⟩
  · intro hq d i hi
    rw [Bool.eq_false_iff]
    intro hready
    obtain ⟨j, hj⟩ := (awake_of_reachable d hs).exists_credit hi hready
    have hzero := hq.credit_eq_zero (inv_of_reachable hs) d j
    omega

/-- One consumer is woken for one item while another one waits. -/
theorem noLostWakeup_of_reachable_three : ∃ s : State (Fin 3) ℕ (Buffer (CircularList ℕ 1)),
    (s.data.mUnread = 1 ∧ (s.pc 0).rechecking .consumer = true ∧
      (s.pc 1).waitingOn .consumer = true) ∧ NoLostWakeup s := by
  obtain ⟨s, hs, hp⟩ := (system (Fin 3) (Buffer (CircularList ℕ 1))).exists_reachable
    (p := fun s => s.data.mUnread = 1 ∧ (s.pc 0).rechecking .consumer = true ∧
      (s.pc 1).waitingOn .consumer = true)
    [.call 0 .pop, .lock 0, .test 0 false, .wait 0, .call 1 .popSave, .lock 1, .test 1 false,
      .wait 1, .call 2 (.push 7), .lock 2, .test 2 true, .update 2, .unlock 2, .notify 2 (some 0)]
    (by decide)
  exact ⟨s, hp, noLostWakeup_of_reachable hs⟩

/-- The woken consumer has found the item and has yet to take it: the other one waits beside an
unread item, with no notification to come and no thread that is to test again. -/
theorem exists_taking : ∃ s : State (Fin 3) ℕ (Buffer (CircularList ℕ 1)),
    (system (Fin 3) (Buffer (CircularList ℕ 1))).Reachable s ∧
    (s.pc 1).waitingOn .consumer = true ∧ 0 < s.data.mUnread ∧
    ¬ ∃ j, (s.pc j).pending .consumer = true ∨ (s.pc j).rechecking .consumer = true :=
  (system (Fin 3) (Buffer (CircularList ℕ 1))).exists_reachable
    (p := fun s => (s.pc 1).waitingOn .consumer = true ∧ 0 < s.data.mUnread ∧
      ¬ ∃ j, (s.pc j).pending .consumer = true ∨ (s.pc j).rechecking .consumer = true)
    [.call 0 .pop, .lock 0, .test 0 false, .wait 0, .call 1 .popSave, .lock 1, .test 1 false,
      .wait 1, .call 2 (.push 7), .lock 2, .test 2 true, .update 2, .unlock 2, .notify 2 (some 0),
      .lock 0, .test 0 true]
    (by decide)

end ThreadTests.BoundedBuffer
