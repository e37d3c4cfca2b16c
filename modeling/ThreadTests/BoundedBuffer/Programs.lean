import ThreadTests.Core.Fair
import ThreadTests.Core.Scripts
import ThreadTests.BoundedBuffer.Wakeup

/-!
# Programs on `bounded_buffer`

Threads that make the calls of their scripts, and return. No thread spins: a run has at most nine
steps for each call, and four for each wakeup without a reason (`length_le`). So every run comes to
a state in which nothing but such a wakeup can happen, and there either all threads have returned,
or those that have not wait for the same condition, which does not hold (`finished_or_blocked`).

When each thread makes calls of one side only, what the scripts say in all decides between the two:
the threads return exactly when there are not more pops than there is to be popped, and what is not
popped fits into the buffer (`finished_iff_balanced`).
-/

namespace ThreadTests.BoundedBuffer

universe u v w x

variable {ι : Type u} {T : Type v} {C : Type w} {D : Type x} {capacity : ℕ}

/-- The call that an event begins. -/
def Event.begins : Event ι T → Option (ι × Op T)
  | .call i op => some (i, op)
  | _ => none

/-- The events that nobody causes. -/
def Event.isSpurious : Event ι T → Bool
  | .spurious _ => true
  | _ => false

/-- Whether a call is one of the side. -/
def Op.isOf (d : Side) (op : Op T) : Bool := op.side == d

/-- The calls put in as many items as there are pushes among them. -/
theorem length_items (ops : List (Op T)) :
    (ops.filterMap Op.item).length = ops.countP (Op.isOf .producer) := by
  induction ops with
  | nil => rfl
  | cons op ops ih =>
    cases op with
    | push item => simpa [Op.item, Op.isOf, Op.side] using ih
    | pop | popSave => simpa [Op.item, Op.isOf, Op.side, List.filterMap_cons] using ih

namespace Pc

/-- The call under way, while its update is still to come. -/
def ahead : Pc T → List (Op T)
  | .idle | .call _ .updated | .call _ .notifying => []
  | .call op _ => [op]

/-- More than the steps that the thread can take before it needs a wakeup. A thread that notifies
can pay for one. -/
def worth : Pc T → ℕ
  | .idle => 0
  | .call _ stage =>
    match stage with
    | .entering | .woken => 8
    | .testing _ => 7
    | .sleeping | .passed _ => 6
    | .waiting | .updated => 5
    | .notifying => 4

end Pc

/-- The calls of each thread whose updates are to come. -/
def ahead (pc : ι → Pc T) (todo : ι → List (Op T)) (i : ι) : List (Op T) := (pc i).ahead ++ todo i

/-- How many items have been put in, or taken out. -/
def State.moved (s : State ι T D) : Side → ℕ
  | .producer => s.pushed.length
  | .consumer => s.popped.length

/-- All threads have returned. -/
def Finished (s : System.Scripted (State ι T D) ι (Op T)) : Prop :=
  ∀ i, s.state.pc i = .idle ∧ s.todo i = []

/-- The threads that have not returned wait for the same condition, which does not hold. -/
def Blocked [Guarded D T] (s : System.Scripted (State ι T D) ι (Op T)) : Prop :=
  ∃ d, s.state.ready d = false ∧ (∃ i, (s.state.pc i).waitingOn d = true) ∧
    ∀ i, (s.state.pc i).waitingOn d = true ∨ s.state.pc i = .idle ∧ s.todo i = []

variable [DecidableEq ι] [Fintype ι]

/-- How many calls of the side the scripts have. -/
def total (script : ι → List (Op T)) (d : Side) : ℕ := tally (List.countP (Op.isOf d)) script

/-- There is enough to be popped, and the rest fits into the buffer. -/
structure Balanced [CircularBuffer C T capacity] (s₀ : State ι T (Buffer C))
    (script : ι → List (Op T)) : Prop where
  pops : total script .consumer ≤ s₀.data.mUnread + total script .producer
  pushes : s₀.data.mUnread + total script .producer ≤ total script .consumer + capacity

/-- What a state is worth, in steps. -/
def worth (s : System.Scripted (State ι T D) ι (Op T)) : ℕ :=
  tally Pc.worth s.state.pc + 9 * tally List.length s.todo

variable {script : ι → List (Op T)} {e : Event ι T}

/-! ## The length of a run -/

section Length

variable {s₀ s t : State ι T D}

theorem worth_goto {i : ι} {p q : Pc T} {gain : ℕ} (hi : s.pc i = q)
    (hlt : p.worth < q.worth + gain) :
    tally Pc.worth (s.goto i p).pc < tally Pc.worth s.pc + gain := by
  have htally := tally_goto Pc.worth s i p
  rw [hi] at htally
  omega

variable [Guarded D T]

/-- A step within the calls. -/
theorem worth_moves (hst : s.Moves e t) (he : e.begins = none) :
    tally Pc.worth t.pc < tally Pc.worth s.pc + if e.isSpurious then 4 else 0 := by
  cases hst with
  | call => cases he
  | enter hi => exact worth_goto hi (Nat.lt_succ_self 7)
  | relock hi => exact worth_goto hi (Nat.lt_succ_self 7)
  | @test i op woken ready hi =>
    refine worth_goto hi ?_
    cases ready with
    | true => exact Nat.lt_succ_self 6
    | false => exact Nat.lt_succ_self 6
  | wait hi => exact worth_goto hi (Nat.lt_succ_self 5)
  | spurious hi => exact worth_goto hi (Nat.lt_succ_self 8)
  | @update i op woken t hi hu =>
    obtain ⟨hpc, -⟩ := State.update_frame hu
    have ht : t.pc i = .call op (.passed woken) := by rw [hpc]; exact hi
    have hlt : tally Pc.worth (t.goto i (.call op .updated)).pc < tally Pc.worth t.pc + 0 :=
      worth_goto ht (Nat.lt_succ_self 5)
    rwa [hpc] at hlt
  | unlock hi => exact worth_goto hi (Nat.lt_succ_self 4)
  | notifyNone hi => exact worth_goto hi (by decide : 0 < 4)
  | @notifyOne i j op op' hi hj =>
    have hne : i ≠ j := by
      rintro rfl
      rw [hi] at hj
      cases hj
    -- the waiter is woken at the cost of the one that notifies
    have hwoken := tally_goto Pc.worth s j (.call op' .woken)
    have hidle := tally_goto Pc.worth (s.goto j (.call op' .woken)) i .idle
    rw [hj] at hwoken
    rw [State.goto_pc_of_ne s hne, hi] at hidle
    simp only [Pc.worth] at hwoken hidle
    change _ < _ + 0
    omega

variable [DecidableEq T]

/-- The threads make the calls of their scripts, from `s₀` on. -/
def programs (s₀ : State ι T D) (script : ι → List (Op T)) :
    System (System.Scripted (State ι T D) ι (Op T)) (Event ι T) :=
  (system ι D).scripted Event.begins s₀ script

/-- Each step costs something, but for the wakeups without a reason. -/
theorem costs (s₀ : State ι T D) (script : ι → List (Op T)) :
    System.Costs (programs s₀ script) worth Event.isSpurious 4 := by
  intro s t e _ hst
  obtain ⟨u, hu, ⟨he, rfl⟩ | ⟨i, op, rest, he, htodo, rfl⟩⟩ := System.scripted_cases hst
  · have hlt := worth_moves (State.moves_of_step hu) he
    change tally Pc.worth u.pc + 9 * tally List.length s.todo <
      tally Pc.worth s.state.pc + 9 * tally List.length s.todo + _
    omega
  · have hlen := tally_update List.length s.todo i rest
    rw [htodo, List.length_cons] at hlen
    cases State.moves_of_step hu with
    | @call j op' hi =>
      cases he
      have hpc := tally_goto Pc.worth s.state i (.call op .entering)
      rw [hi] at hpc
      simp only [Pc.worth] at hpc
      change tally Pc.worth (s.state.goto i _).pc +
        9 * tally List.length (Function.update s.todo i rest) <
          tally Pc.worth s.state.pc + 9 * tally List.length s.todo + 0
      omega
    | _ => cases he

/-- In a run, each call accounts for nine steps, and each wakeup without a reason for four, itself
included. -/
theorem length_le (hidle : ∀ i, s₀.pc i = .idle) {es : List (Event ι T)}
    {s : System.Scripted (State ι T D) ι (Op T)}
    (hrun : (programs s₀ script).run ⟨s₀, script⟩ es = some s) :
    es.length ≤ 9 * tally List.length script + 4 * es.countP Event.isSpurious := by
  have hlen := System.Costs.length_le (costs s₀ script) System.Reachable.init hrun
  have hzero : tally Pc.worth s₀.pc = 0 := Finset.sum_eq_zero fun i _ => by
    rw [hidle i]
    rfl
  have hstart : worth (programs s₀ script).init = tally Pc.worth s₀.pc +
    9 * tally List.length script := rfl
  omega

end Length

/-! ## The order of the updates -/

variable [CircularBuffer C T capacity] {s₀ s : State ι T (Buffer C)}

omit [Fintype ι] in
/-- A thread goes on without an update. -/
theorem ahead_goto {pc : ι → Pc T} {todo : ι → List (Op T)} {i : ι} {p : Pc T}
    (h : p.ahead = (pc i).ahead) : ahead (Function.update pc i p) todo = ahead pc todo := by
  funext j
  by_cases hj : j = i
  · subst hj
    rw [ahead, Function.update_self, h, ahead]
  · rw [ahead, Function.update_of_ne hj, ahead]

/-- The calls whose updates are made, in order, and which of them each thread has made. -/
structure Ordered (s₀ : State ι T (Buffer C)) (script : ι → List (Op T))
    (s : System.Scripted (State ι T (Buffer C)) ι (Op T)) (made : ι → List (Op T))
    (updates : List (Op T)) : Prop where
  interleaves : Interleaves made updates
  split : ∀ i, made i ++ ahead s.state.pc s.todo i = script i
  pushed : s.state.pushed = s₀.pushed ++ updates.filterMap Op.item
  popped : s.state.popped.length = s₀.popped.length + updates.countP (Op.isOf .consumer)

namespace Ordered

variable {u : System.Scripted (State ι T (Buffer C)) ι (Op T)} {made : ι → List (Op T)}
  {updates : List (Op T)}

omit [Fintype ι] in
/-- A step that updates nothing. -/
theorem silent (h : Ordered s₀ script u made updates) {t : State ι T (Buffer C)}
    {todo : ι → List (Op T)} (hahead : ahead t.pc todo = ahead u.state.pc u.todo)
    (hpushed : t.pushed = u.state.pushed) (hpopped : t.popped = u.state.popped) :
    Ordered s₀ script ⟨t, todo⟩ made updates where
  interleaves := h.interleaves
  split i := (congrFun hahead i).symm ▸ h.split i
  pushed := hpushed.trans h.pushed
  popped := (congrArg List.length hpopped).trans h.popped

omit [Fintype ι] in
/-- The update of a call is the next one in the order. -/
theorem update (h : Ordered s₀ script u made updates) {i : ι} {op : Op T} {woken : Bool}
    {t : State ι T (Buffer C)} (hi : u.state.pc i = .call op (.passed woken))
    (hu : u.state.update op = some t) :
    Ordered s₀ script ⟨t.goto i (.call op .updated), u.todo⟩
      (Function.update made i (made i ++ [op])) (updates ++ [op]) := by
  obtain ⟨hpc, -⟩ := State.update_frame hu
  refine ⟨h.interleaves.snoc i op, fun j => ?_, ?_, ?_⟩
  · have hsplit := h.split j
    rw [ahead] at hsplit
    rw [ahead]
    change Function.update made i _ j ++ ((Function.update t.pc i _ j).ahead ++ _) = _
    rw [hpc]
    by_cases hj : j = i
    · subst hj
      rw [hi] at hsplit
      rw [Function.update_self, Function.update_self, List.append_assoc]
      exact hsplit
    · rwa [Function.update_of_ne hj, Function.update_of_ne hj]
  · rw [List.filterMap_append, ← List.append_assoc, ← h.pushed]
    rcases State.update_cases hu with ⟨item, rfl, rfl⟩ | ⟨hside, unread, item, -, -, rfl⟩
    · rfl
    · cases op with
      | push => cases hside
      | pop | popSave => exact (List.append_nil _).symm
  · rw [List.countP_append, ← Nat.add_assoc, ← h.popped]
    rcases State.update_cases hu with ⟨item, rfl, rfl⟩ | ⟨hside, unread, item, -, -, rfl⟩
    · rfl
    · cases op with
      | push => cases hside
      | pop | popSave => exact List.length_append

end Ordered

/-! ## The end -/

variable {u : System.Scripted (State ι T (Buffer C)) ι (Op T)} {made : ι → List (Op T)}
  {updates : List (Op T)}

/-- What has been moved and what is to be moved are what the scripts say. -/
theorem Ordered.moved (h : Ordered s₀ script u made updates) (d : Side) :
    u.state.moved d + tally (List.countP (Op.isOf d)) (ahead u.state.pc u.todo) =
      s₀.moved d + total script d := by
  have htotal : total script d = tally (List.countP (Op.isOf d)) made +
      tally (List.countP (Op.isOf d)) (ahead u.state.pc u.todo) :=
    tally_add fun i => by rw [← h.split i, List.countP_append]
  rw [← h.interleaves.countP] at htotal
  have hmoved : u.state.moved d = s₀.moved d + updates.countP (Op.isOf d) := by
    cases d with
    | producer =>
      rw [State.moved, h.pushed, List.length_append, length_items]
      rfl
    | consumer => exact h.popped
  omega

omit [DecidableEq ι] [Fintype ι] in
theorem Inv.moved (h : Inv s) : s.moved .producer = s.moved .consumer + s.data.mUnread := by
  have hlen := h.undelivered_length
  have hpushed := congrArg List.length h.split
  rw [List.length_append, ← h.undelivered, hlen] at hpushed
  exact hpushed

/-- Each thread makes calls of one side only. -/
def OneSided (script : ι → List (Op T)) : Prop := ∀ i, ∃ d, ∀ op ∈ script i, op.side = d

omit [DecidableEq ι] in
theorem Finished.left (h : Finished u) (d : Side) :
    tally (List.countP (Op.isOf d)) (ahead u.state.pc u.todo) = 0 :=
  Finset.sum_eq_zero fun i _ => by
    obtain ⟨hpc, htodo⟩ := h i
    rw [ahead, hpc, htodo]
    rfl

/-- A program that ends is balanced. -/
theorem Ordered.balanced (h : Ordered s₀ script u made updates) (hs₀ : Inv s₀) (hu : Inv u.state)
    (hfinished : Finished u) : Balanced s₀ script := by
  have hpushed := h.moved .producer
  have hpopped := h.moved .consumer
  have hbefore := hs₀.moved
  have hafter := hu.moved
  have hbound : u.state.data.mUnread ≤ capacity := hu.valid.le.trans hu.valid.size_le
  rw [hfinished.left] at hpushed hpopped
  exact ⟨by omega, by omega⟩

omit [Fintype ι] in
/-- A thread that waits on one side has no calls of the other one to make. -/
theorem Ordered.ahead_other (h : Ordered s₀ script u made updates) (hone : OneSided script)
    {d : Side} {i : ι} (hi : (u.state.pc i).waitingOn d = true) :
    (ahead u.state.pc u.todo i).countP (Op.isOf d.other) = 0 := by
  obtain ⟨op, hpc, rfl⟩ := Pc.waitingOn_iff.1 hi
  obtain ⟨d, hd⟩ := hone i
  have hsplit := h.split i
  have hhere : op ∈ ahead u.state.pc u.todo i := by
    rw [ahead, hpc]
    exact List.mem_cons_self
  have hmem : ∀ op' ∈ ahead u.state.pc u.todo i, op'.side = d := fun op' hop' =>
    hd op' (hsplit ▸ List.mem_append_right _ hop')
  rw [List.countP_eq_zero]
  intro op' hop'
  rw [hmem op hhere, Op.isOf, hmem op' hop', beq_iff_eq]
  exact (Side.other_ne d).symm

/-- Threads that are blocked are too many for their side. -/
theorem Ordered.not_balanced (h : Ordered s₀ script u made updates) (hs₀ : Inv s₀)
    (hu : Inv u.state) (hone : OneSided script) (hblocked : Blocked u) : ¬ Balanced s₀ script := by
  obtain ⟨d, hready, ⟨i, hi⟩, hothers⟩ := hblocked
  have hleft : 0 < tally (List.countP (Op.isOf d)) (ahead u.state.pc u.todo) := by
    refine Nat.lt_of_lt_of_le ?_ (le_tally _ _ i)
    obtain ⟨op, hpc, rfl⟩ := Pc.waitingOn_iff.1 hi
    rw [ahead, hpc]
    simp [Pc.ahead, Op.isOf]
  have hother : tally (List.countP (Op.isOf d.other)) (ahead u.state.pc u.todo) = 0 :=
    Finset.sum_eq_zero fun j _ => by
      rcases hothers j with hj | ⟨hpc, htodo⟩
      · exact h.ahead_other hone hj
      · rw [ahead, hpc, htodo]
        rfl
  have hmoved := h.moved d
  have hmoved' := h.moved d.other
  have hbefore := hs₀.moved
  have hafter := hu.moved
  have hzero := State.available_of_not_ready hready
  rintro ⟨hpops, hpushes⟩
  cases d with
  | producer | consumer =>
    simp only [Side.other, State.available] at hmoved' hother hzero
    omega

omit [Fintype ι] in
/-- A thread that has returned has made its calls. -/
theorem Ordered.made_eq (h : Ordered s₀ script u made updates) (hfinished : Finished u) (i : ι) :
    made i = script i := by
  obtain ⟨hpc, htodo⟩ := hfinished i
  have hsplit := h.split i
  rwa [ahead, hpc, htodo, Pc.ahead, List.append_nil, List.append_nil] at hsplit

/-! ## Runs -/

section Runs

variable [DecidableEq T]

/-- The updates follow the scripts. -/
theorem exists_ordered (hidle : ∀ i, s₀.pc i = .idle)
    {s : System.Scripted (State ι T (Buffer C)) ι (Op T)} (hs : (programs s₀ script).Reachable s) :
    ∃ made updates, Ordered s₀ script s made updates := by
  refine System.invariant (P := fun s => ∃ made updates, Ordered s₀ script s made updates) ?_
    (fun {s t e} _ h hst => ?_) hs
  · refine ⟨_, _, .nil, fun i => ?_, (List.append_nil _).symm, rfl⟩
    change [] ++ ((s₀.pc i).ahead ++ script i) = script i
    rw [hidle i]
    rfl
  · obtain ⟨made, updates, h⟩ := h
    obtain ⟨u, hu, ⟨he, rfl⟩ | ⟨i, op, rest, he, htodo, rfl⟩⟩ := System.scripted_cases hst
    · cases State.moves_of_step hu with
      | call => cases he
      | enter hi | relock hi | wait hi | spurious hi | unlock hi | notifyNone hi =>
        exact ⟨made, updates, h.silent (ahead_goto (by rw [hi]; rfl)) rfl rfl⟩
      | @test i op woken ready hi =>
        refine ⟨made, updates, h.silent (ahead_goto ?_) rfl rfl⟩
        rw [hi]
        cases ready with
        | true => rfl
        | false => rfl
      | update hi hupdate => exact ⟨_, _, h.update hi hupdate⟩
      | @notifyOne i j op op' hi hj =>
        have hne : i ≠ j := by
          rintro rfl
          rw [hi] at hj
          cases hj
        refine ⟨made, updates, h.silent ?_ rfl rfl⟩
        refine (ahead_goto ?_).trans (ahead_goto (by rw [hj]; rfl))
        rw [State.goto_pc_of_ne _ hne, hi]
        rfl
    · cases State.moves_of_step hu with
      | @call j op' hi =>
        cases he
        refine ⟨made, updates, h.silent ?_ rfl rfl⟩
        -- the call leaves the script, and is under way
        funext j
        by_cases hj : j = i
        · subst hj
          rw [ahead, State.goto_pc_self, Function.update_self, ahead, hi, htodo]
          rfl
        · rw [ahead, State.goto_pc_of_ne _ hj, Function.update_of_ne hj, ahead]
      | _ => cases he

theorem reachable_state (hs₀ : (system ι (Buffer C)).Reachable s₀)
    (hu : (programs s₀ script).Reachable u) : (system ι (Buffer C)).Reachable u.state :=
  hu.of_scripted hs₀

theorem quiescent_of_stuck (hu : (programs s₀ script).Stuck Event.isSpurious u) :
    Quiescent u.state := by
  intro e t hst
  have hfree : e.begins = none → e.isSpurious = true := fun he =>
    hu e _ (System.scripted_step_of_none (S := system ι (Buffer C)) he hst)
  cases e with
  | call i op => exact .inl ⟨i, op, rfl⟩
  | spurious i => exact .inr ⟨i, rfl⟩
  | lock | test | wait | update | unlock | notify => cases hfree rfl

/-- In the end each thread has returned, or waits for a condition that does not hold. -/
theorem returned_or_waiting (hs₀ : (system ι (Buffer C)).Reachable s₀)
    (hu : (programs s₀ script).Reachable u) (hstuck : (programs s₀ script).Stuck Event.isSpurious u)
    (i : ι) : u.state.pc i = .idle ∧ u.todo i = [] ∨
      ∃ op, u.state.pc i = .call op .waiting ∧ u.state.ready op.side = false := by
  have hs := reachable_state hs₀ hu
  have hq := quiescent_of_stuck hstuck
  rcases hq.idle_or_waiting (inv_of_reachable hs) i with hi | ⟨op, hi⟩
  · refine .inl ⟨hi, ?_⟩
    cases htodo : u.todo i with
    | nil => rfl
    | cons op rest =>
      have hcall : (system ι (Buffer C)).step u.state (.call i op) = some _ :=
        (State.Moves.call hi).step_eq
      cases hstuck _ _ (System.scripted_step_of_call rfl htodo hcall)
  · have hwaits : (u.state.pc i).waitingOn op.side = true := Pc.waitingOn_iff.2 ⟨op, hi, rfl⟩
    exact .inr ⟨op, hi, (noLostWakeup_of_reachable hs).quiescent hq _ i hwaits⟩

/-- All threads have returned, or those that have not are blocked on one side. -/
theorem finished_or_blocked (hcap : 0 < capacity) (hs₀ : (system ι (Buffer C)).Reachable s₀)
    (hu : (programs s₀ script).Reachable u)
    (hstuck : (programs s₀ script).Stuck Event.isSpurious u) : Finished u ∨ Blocked u := by
  by_cases hfinished : Finished u
  · exact .inl hfinished
  · obtain ⟨i, hi⟩ := not_forall.1 hfinished
    obtain ⟨op, hop, hready⟩ := (returned_or_waiting hs₀ hu hstuck i).resolve_left hi
    refine .inr ⟨op.side, hready, ⟨i, Pc.waitingOn_iff.2 ⟨op, hop, rfl⟩⟩, fun j => ?_⟩
    rcases returned_or_waiting hs₀ hu hstuck j with hj | ⟨op', hj, hready'⟩
    · exact .inr hj
    · rcases Side.eq_or_eq_other op'.side op.side with heq | hother
      · exact .inl (Pc.waitingOn_iff.2 ⟨op', hj, heq⟩)
      · -- a buffer with room for one item is not both empty and full
        rw [hother] at hready'
        have hzero := State.available_of_not_ready hready
        have hzero' := State.available_of_not_ready hready'
        cases hside : op.side with
        | producer | consumer =>
          rw [hside] at hzero hzero'
          simp only [State.available, Side.other] at hzero hzero'
          omega

/-- **How a program ends.** No thread spins, so that the length of a run is bounded; every run comes
to a state in which nothing but a wakeup without a reason can happen, and there all threads have
returned, or those that have not wait for the same condition. -/
theorem ends_or_blocks (hcap : 0 < capacity) (hs₀ : (system ι (Buffer C)).Reachable s₀)
    (hidle : ∀ i, s₀.pc i = .idle) (script : ι → List (Op T)) :
    (∀ es u, (programs s₀ script).run ⟨s₀, script⟩ es = some u →
      es.length ≤ 9 * tally List.length script + 4 * es.countP Event.isSpurious) ∧
    ∀ u, (programs s₀ script).Reachable u →
      (∃ t, (programs s₀ script).Reaches u t ∧ (programs s₀ script).Stuck Event.isSpurious t) ∧
      ((programs s₀ script).Stuck Event.isSpurious u → Finished u ∨ Blocked u) :=
  ⟨fun _ _ hrun => length_le hidle hrun, fun _ hu =>
    ⟨System.Costs.exists_stuck (costs s₀ script) hu, finished_or_blocked hcap hs₀ hu⟩⟩

/-- A consumer that is woken without a reason, and then by a notification, on a buffer for one
item. -/
theorem ends_or_blocks_two : ∃ script : Fin 2 → List (Op ℕ),
    let S := programs (State.start : State (Fin 2) ℕ (Buffer (CircularList ℕ 1))) script
    (∃ es u, S.run ⟨State.start, script⟩ es = some u ∧ es.length = 19 ∧
      es.length ≤ 9 * tally List.length script + 4 * 1) ∧
    ∃ u, S.Reachable u ∧ (Finished u ∨ Blocked u) := by
  let es : List (Event (Fin 2) ℕ) :=
    [.call 1 .pop, .lock 1, .test 1 false, .wait 1, .spurious 1, .lock 1, .test 1 false, .wait 1,
      .call 0 (.push 7), .lock 0, .test 0 true, .update 0, .unlock 0, .notify 0 (some 1), .lock 1,
      .test 1 true, .update 1, .unlock 1, .notify 1 none]
  let script : Fin 2 → List (Op ℕ) := fun i => if i = 0 then [.push 7] else [.pop]
  let S := programs (State.start : State (Fin 2) ℕ (Buffer (CircularList ℕ 1))) script
  obtain ⟨u, hu⟩ :=
    Option.isSome_iff_exists.1 (by decide : (S.run ⟨State.start, script⟩ es).isSome = true)
  obtain ⟨hbound, hends⟩ :=
    ends_or_blocks (C := CircularList ℕ 1) (by decide) System.Reachable.init (fun _ => rfl) script
  obtain ⟨t, ht, hstuck⟩ := (hends _ System.Reachable.init).1
  exact ⟨script, ⟨es, u, hu, rfl, hbound es u hu⟩, t, ht, (hends t ht).2 hstuck⟩

theorem Balanced.finished (hbalanced : Balanced s₀ script) (hcap : 0 < capacity)
    (hs₀ : (system ι (Buffer C)).Reachable s₀) (hidle : ∀ i, s₀.pc i = .idle)
    (hone : OneSided script) (hu : (programs s₀ script).Reachable u)
    (hstuck : (programs s₀ script).Stuck Event.isSpurious u) : Finished u := by
  have hinv := inv_of_reachable (reachable_state hs₀ hu)
  obtain ⟨made, updates, h⟩ := exists_ordered hidle hu
  rcases finished_or_blocked hcap hs₀ hu hstuck with hfinished | hblocked
  · exact hfinished
  · exact absurd hbalanced (h.not_balanced (inv_of_reachable hs₀) hinv hone hblocked)

/-- **When a program ends.** Every run comes to a state in which nothing but a wakeup without a
reason can happen; all threads have returned there if there is enough to be popped and the rest fits
into the buffer, and otherwise they have not. -/
theorem finished_iff_balanced (hcap : 0 < capacity) (hs₀ : (system ι (Buffer C)).Reachable s₀)
    (hidle : ∀ i, s₀.pc i = .idle) (hone : OneSided script) :
    (∀ u, (programs s₀ script).Reachable u →
      ∃ t, (programs s₀ script).Reaches u t ∧ (programs s₀ script).Stuck Event.isSpurious t) ∧
    ∀ u, (programs s₀ script).Reachable u → (programs s₀ script).Stuck Event.isSpurious u →
      (Finished u ↔ Balanced s₀ script) := by
  refine ⟨fun u hu => System.Costs.exists_stuck (costs s₀ script) hu, fun u hu hstuck => ⟨?_, ?_⟩⟩
  · obtain ⟨made, updates, h⟩ := exists_ordered hidle hu
    exact h.balanced (inv_of_reachable hs₀) (inv_of_reachable (reachable_state hs₀ hu))
  · exact fun hbalanced => hbalanced.finished hcap hs₀ hidle hone hu hstuck

/-- Two producers and a consumer. -/
def twoToOne (pops : ℕ) (i : Fin 3) : List (Op ℕ) :=
  if i = 2 then List.replicate pops .pop else [.push 7]

theorem oneSided_twoToOne (pops : ℕ) : OneSided (twoToOne pops) := by
  intro i
  unfold twoToOne
  by_cases hi : i = 2
  · rw [if_pos hi]
    exact ⟨.consumer, fun op hop => by rw [List.eq_of_mem_replicate hop]; rfl⟩
  · rw [if_neg hi]
    exact ⟨.producer, fun op hop => by rw [List.mem_singleton.1 hop]; rfl⟩

/-- On a buffer for one item two pushes and two pops end, and with three pops the threads do not
return. -/
theorem finished_iff_balanced_three :
    (∃ u : System.Scripted (State (Fin 3) ℕ (Buffer (CircularList ℕ 1))) _ _,
      (programs State.start (twoToOne 2)).Reachable u ∧ Finished u) ∧
    ∃ u : System.Scripted (State (Fin 3) ℕ (Buffer (CircularList ℕ 1))) _ _,
      (programs State.start (twoToOne 3)).Reachable u ∧ ¬ Finished u := by
  obtain ⟨hends, hbalanced⟩ := finished_iff_balanced (C := CircularList ℕ 1) (by decide)
    System.Reachable.init (fun _ => rfl) (oneSided_twoToOne 2)
  obtain ⟨hends', hbalanced'⟩ := finished_iff_balanced (C := CircularList ℕ 1) (by decide)
    System.Reachable.init (fun _ => rfl) (oneSided_twoToOne 3)
  obtain ⟨u, hu, hstuck⟩ := hends _ System.Reachable.init
  obtain ⟨u', hu', hstuck'⟩ := hends' _ System.Reachable.init
  refine ⟨⟨u, hu, (hbalanced u hu hstuck).2 ⟨by decide, by decide⟩⟩, u', hu', fun hfinished => ?_⟩
  exact absurd ((hbalanced' u' hu' hstuck').1 hfinished).pops (by decide)

/-- **The order of delivery.** What the threads put in is an interleaving of what their scripts say,
each in its order, and it is taken out in this order. -/
theorem interleaves_of_reachable (hs₀ : (system ι (Buffer C)).Reachable s₀)
    (hidle : ∀ i, s₀.pc i = .idle) (hu : (programs s₀ script).Reachable u) :
    ∃ items put, Interleaves put items ∧ (∀ i, put i <+: (script i).filterMap Op.item) ∧
      u.state.pushed = s₀.pushed ++ items ∧ u.state.popped <+: u.state.pushed ∧
      (Finished u → (∀ i, put i = (script i).filterMap Op.item) ∧
        u.state.popped.length = s₀.popped.length + total script .consumer) := by
  obtain ⟨made, updates, h⟩ := exists_ordered hidle hu
  refine ⟨_, _, h.interleaves.filterMap Op.item, fun i => ?_, h.pushed,
    (delivers_of_reachable (reachable_state hs₀ hu)).fifo, fun hfinished => ⟨fun i => ?_, ?_⟩⟩
  · rw [← h.split i, List.filterMap_append]
    exact List.prefix_append _ _
  · rw [h.made_eq hfinished]
  · have hmoved := h.moved .consumer
    rw [hfinished.left] at hmoved
    exact hmoved

/-- The first producer has pushed, and the second one waits. -/
theorem interleaves_of_reachable_three : ∃ items put, Interleaves put items ∧
    (∀ i, put i <+: (twoToOne 2 i).filterMap Op.item) ∧ items = [7] := by
  obtain ⟨u, hu, hpushed⟩ := System.exists_reachable
    (S := programs (State.start : State (Fin 3) ℕ (Buffer (CircularList ℕ 1))) (twoToOne 2))
    (p := fun u => u.state.pushed = [7])
    [.call 0 (.push 7), .lock 0, .test 0 true, .update 0, .call 1 (.push 7), .unlock 0, .lock 1,
      .test 1 false, .wait 1] (by decide)
  obtain ⟨items, put, hitems, hput, hall, -, -⟩ :=
    interleaves_of_reachable (C := CircularList ℕ 1) System.Reachable.init (fun _ => rfl) hu
  exact ⟨items, put, hitems, hput, hall.symm.trans hpushed⟩

end Runs

end ThreadTests.BoundedBuffer
