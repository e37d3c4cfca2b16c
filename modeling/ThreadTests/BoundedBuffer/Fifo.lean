import ThreadTests.Core.Queue
import ThreadTests.BoundedBuffer.Basic

/-!
# `bounded_buffer` delivers in order

A pop removes nothing from the container, it only lowers `m_unread`: the items delivered stay
behind the undelivered ones, until a push on a full container drops the last of them. The first
`m_unread` entries are the undelivered items, the newest first (`Inv.split`), and one more push
drops no such entry, since its predicate left room under the mutex. A push takes effect at its
update of the container, and so does a pop: the buffer is the bounded queue (`refinement`).
-/

namespace ThreadTests.BoundedBuffer

open CircularBuffer (items at? size pushFront)

universe u v w

variable {ι : Type u} {T : Type v} {C : Type w} {capacity : ℕ} [CircularBuffer C T capacity]
  [DecidableEq ι] {s t : State ι T (Buffer C)} {i : ι} {op : Op T} {woken : Bool} {e : Event ι T}

/-! ## The container -/

/-- The unread entries are in the container, which does not outgrow its capacity. -/
structure Buffer.Valid (b : Buffer C) : Prop where
  le : b.mUnread ≤ size b.mContainer
  size_le : size b.mContainer ≤ capacity

namespace Buffer.Valid

theorem init : Buffer.Valid (Guarded.init : Buffer C) := by
  refine ⟨Nat.zero_le _, ?_⟩
  change size (CircularBuffer.empty : C) ≤ capacity
  rw [CircularBuffer.size_eq, CircularBuffer.items_empty]
  exact Nat.zero_le _

theorem update {b b' : Buffer C} {taken : Option T} (h : b.Valid)
    (hready : b.ready op.side = true) (hu : b.update op = some (b', taken)) : b'.Valid := by
  have hle := h.le
  have hsize := h.size_le
  rcases Buffer.update_cases hu with ⟨item, rfl, -, rfl⟩ | ⟨-, unread, item, hunread, -, -, rfl⟩
  · have hroom : b.mUnread < capacity := decide_eq_true_iff.1 hready
    have hlen := CircularBuffer.size_pushFront b.mContainer item
    refine ⟨?_, ?_⟩
    · change b.mUnread + 1 ≤ size (pushFront b.mContainer item)
      omega
    · change size (pushFront b.mContainer item) ≤ capacity
      omega
  · refine ⟨?_, hsize⟩
    change unread ≤ size b.mContainer
    omega

end Buffer.Valid

/-- What the critical sections keep. -/
structure Inv (s : State ι T (Buffer C)) : Prop extends Exclusive s where
  valid : s.data.Valid
  split : s.pushed = s.popped ++ ((items s.data.mContainer).take s.data.mUnread).reverse

namespace Inv

omit [DecidableEq ι] in
theorem start : Inv (State.start : State ι T (Buffer C)) :=
  ⟨Exclusive.start, Buffer.Valid.init, rfl⟩

omit [DecidableEq ι] in
/-- The oldest undelivered item is the last of the unread entries. -/
theorem split_oldest (h : Inv s) {unread : ℕ} {item : T} (hunread : s.data.mUnread = unread + 1)
    (hitem : at? s.data.mContainer unread = some item) :
    s.pushed = s.popped ++ [item] ++ ((items s.data.mContainer).take unread).reverse := by
  have hsplit := h.split
  rw [hunread, CircularBuffer.take_succ hitem, List.reverse_append,
    List.reverse_singleton] at hsplit
  rw [hsplit, List.append_assoc]

theorem update (h : Inv s) (hi : s.pc i = .call op (.passed woken)) (hu : s.update op = some t) :
    Inv (t.goto i (.call op .updated)) := by
  have hexclusive := h.toExclusive.moves (.update hi hu)
  have hvalid : t.data.Valid := by
    obtain ⟨_, _, hdata, rfl⟩ := State.update_eq_some.1 hu
    exact h.valid.update (h.tested hi) hdata
  refine ⟨hexclusive, hvalid, ?_⟩
  rcases State.update_cases hu with ⟨item, rfl, rfl⟩ | ⟨-, unread, item, hunread, hitem, rfl⟩
  · have hroom : s.data.mUnread < capacity := State.ready_producer.1 (h.tested hi)
    simp only [State.goto, CircularBuffer.take_pushFront s.data.mContainer hroom,
      List.reverse_cons, ← List.append_assoc, ← h.split]
  · exact h.split_oldest hunread hitem

theorem moves (h : Inv s) (hst : s.Moves e t) : Inv t := by
  have hexclusive := h.toExclusive.moves hst
  cases hst with
  | update hi hu => exact h.update hi hu
  | _ => exact ⟨hexclusive, h.valid, h.split⟩

end Inv

omit [DecidableEq ι] in
theorem Inv.undelivered (h : Inv s) :
    s.undelivered = ((items s.data.mContainer).take s.data.mUnread).reverse := by
  rw [State.undelivered, h.split]
  exact List.drop_left

omit [DecidableEq ι] in
theorem Inv.undelivered_length (h : Inv s) : s.undelivered.length = s.data.mUnread := by
  have hle := h.valid.le
  rw [CircularBuffer.size_eq] at hle
  rw [h.undelivered, List.length_reverse, List.length_take]
  exact Nat.min_eq_left hle

omit [DecidableEq ι] in
/-- An update by a thread whose predicate was true finds its item in the container. -/
theorem Inv.index (h : Inv s) (hi : s.pc i = .call op (.passed woken))
    (hside : op.side = .consumer) :
    ∃ unread, s.data.mUnread = unread + 1 ∧ unread < size s.data.mContainer := by
  have hready := h.tested hi
  rw [hside, State.ready_consumer] at hready
  have hle := h.valid.le
  exact ⟨s.data.mUnread - 1, by omega, by omega⟩

variable [Fintype ι]

theorem inv_of_reachable (hs : (system ι (Buffer C)).Reachable s) : Inv s :=
  System.invariant (P := Inv) Inv.start (fun _ h hst => h.moves (State.moves_of_step hst)) hs

/-! ## Refinement -/

/-- The queue a state stands for. -/
def State.queue (s : State ι T (Buffer C)) : Queue T := ⟨s.pushed, s.popped, s.undelivered⟩

/-- The updates of the container are the visible events. -/
def queueEvent (s : State ι T (Buffer C)) : Event ι T → Option (Queue.Event T)
  | .update i =>
    match s.pc i with
    | .call (.push item) _ => some (.enq item)
    | .call _ _ => some .deq
    | .idle => none
  | _ => none

omit [Fintype ι] in
theorem Inv.queue_update (h : Inv s) (hi : s.pc i = .call op (.passed woken))
    (hu : s.update op = some t) {d : Queue.Event T} (he : queueEvent s (.update i) = some d) :
    (Queue.system T capacity).step s.queue d = some (t.goto i (.call op .updated)).queue := by
  have hlen := h.undelivered_length
  simp only [queueEvent, hi] at he
  rcases State.update_cases hu with ⟨item, rfl, rfl⟩ | ⟨hside, unread, item, hunread, hitem, rfl⟩
  · cases he
    have hroom := State.ready_producer.1 (h.tested hi)
    have hle : s.popped.length ≤ s.pushed.length := by simp [h.split]
    refine Queue.enq_eq_some.2 ⟨by rwa [State.queue, hlen], ?_⟩
    simp only [State.queue, State.goto, State.undelivered, List.drop_append_of_le_length hle]
  · have hd : d = .deq := by
      cases op with
      | push => cases hside
      | pop | popSave => exact (Option.some.inj he).symm
    subst hd
    have hwaiting : s.undelivered = item :: ((items s.data.mContainer).take unread).reverse := by
      rw [h.undelivered, hunread, CircularBuffer.take_succ hitem, List.reverse_append]
      rfl
    have hafter := (h.update hi hu).undelivered
    refine Queue.deq_eq_some.2 ⟨item, _, hwaiting, ?_⟩
    rw [State.queue, hafter]
    rfl

/-- **Refinement.** The buffer is the bounded queue. -/
def refinement (ι : Type u) {T : Type v} (C : Type w) {capacity : ℕ} [CircularBuffer C T capacity]
    [DecidableEq ι] [Fintype ι] :
    System.Simulation (system ι (Buffer C)) (Queue.system T capacity) where
  abs := State.queue
  label := queueEvent
  init := rfl
  silent hs hst he := by
    cases State.moves_of_step hst with
    | @update i op woken t hi hu => cases op <;> simp [queueEvent, hi] at he
    | _ => rfl
  visible hs hst he := by
    cases State.moves_of_step hst with
    | update hi hu => exact (inv_of_reachable hs).queue_update hi hu he
    | _ => cases he

/-! ## Delivery -/

/-- What the buffer guarantees in every state. -/
structure Delivers (s : State ι T (Buffer C)) : Prop where
  /-- The items popped are a prefix of the items pushed. -/
  fifo : s.popped <+: s.pushed
  /-- The first `m_unread` entries of the container are the undelivered items, the newest first. -/
  undelivered : (items s.data.mContainer).take s.data.mUnread = s.undelivered.reverse
  unread_le : s.data.mUnread ≤ size s.data.mContainer
  size_le : size s.data.mContainer ≤ capacity
  /-- A pop that is about to take its item has an index in range. -/
  index : ∀ i op woken, s.pc i = .call op (.passed woken) → op.side = .consumer →
    ∃ unread, s.data.mUnread = unread + 1 ∧ unread < size s.data.mContainer
  /-- There it finds the item of the push of its number, and delivers it. -/
  pops : ∀ i op woken, s.pc i = .call op (.passed woken) → op.side = .consumer →
    ∃ unread item, s.data.mUnread = unread + 1 ∧ at? s.data.mContainer unread = some item ∧
      s.pushed[s.popped.length]? = some item ∧
      s.step (.update i) = some (State.goto
        { s with data := ⟨unread, s.data.mContainer⟩, popped := s.popped ++ [item] } i
        (.call op .updated))
  /-- A push puts in its item. -/
  pushes : ∀ i item woken, s.pc i = .call (.push item) (.passed woken) →
    s.step (.update i) = some (State.goto
      { s with
        data := ⟨s.data.mUnread + 1, pushFront s.data.mContainer item⟩
        pushed := s.pushed ++ [item] } i (.call (.push item) .updated))
  /-- No other step touches the items. -/
  frame : ∀ e t, s.step e = some t → (∀ i, e ≠ .update i) →
    t.data = s.data ∧ t.pushed = s.pushed ∧ t.popped = s.popped
  /-- A call does not end without its update. -/
  completes : ∀ e t i, s.step e = some t → (s.pc i).settled = false → (t.pc i).settled = true →
    e = .update i

omit [DecidableEq ι] [Fintype ι] in
/-- The oldest undelivered item is that of the push with the number of the pop. -/
theorem Inv.pushed_getElem? (h : Inv s) {unread : ℕ} {item : T}
    (hunread : s.data.mUnread = unread + 1) (hitem : at? s.data.mContainer unread = some item) :
    s.pushed[s.popped.length]? = some item := by
  rw [h.split_oldest hunread hitem, List.append_assoc, List.getElem?_append_right (Nat.le_refl _),
    Nat.sub_self]
  rfl

theorem Inv.pops (h : Inv s) (hi : s.pc i = .call op (.passed woken))
    (hside : op.side = .consumer) :
    ∃ unread item, s.data.mUnread = unread + 1 ∧ at? s.data.mContainer unread = some item ∧
      s.pushed[s.popped.length]? = some item ∧
      s.step (.update i) = some (State.goto
        { s with data := ⟨unread, s.data.mContainer⟩, popped := s.popped ++ [item] } i
        (.call op .updated)) := by
  obtain ⟨unread, hunread, hlt⟩ := h.index hi hside
  obtain ⟨item, hitem⟩ := CircularBuffer.exists_at? hlt
  exact ⟨unread, item, hunread, hitem, h.pushed_getElem? hunread hitem,
    State.Moves.step_eq (.update hi (State.update_pop hside hunread hitem))⟩

/-- **First in, first out, nothing lost**, for any number of threads and every schedule. -/
theorem delivers_of_reachable (hs : (system ι (Buffer C)).Reachable s) : Delivers s := by
  have h := inv_of_reachable hs
  exact {
    fifo := Queue.delivered_prefix ((refinement ι C).reachable hs)
    undelivered := by rw [h.undelivered, List.reverse_reverse]
    unread_le := h.valid.le
    size_le := h.valid.size_le
    index := fun _ _ _ hi hside => h.index hi hside
    pops := fun _ _ _ hi hside => h.pops hi hside
    pushes := fun _ item _ hi => State.Moves.step_eq (.update hi (s.update_push item))
    frame := fun _ _ hst he => (State.moves_of_step hst).frame he
    completes := fun _ _ _ hst hi ht => (State.moves_of_step hst).completes hi ht }

/-- A container of two that is full of one delivered and one undelivered item, after a `pop` and a
`pop_save`, and a `pop_save` that is about to take the item. -/
theorem delivers_of_reachable_two : ∃ s : State (Fin 3) ℕ (Buffer (CircularList ℕ 2)),
    (s.data.mContainer.items = [9, 8] ∧ s.data.mUnread = 1 ∧ s.popped = [7, 8] ∧
      s.pc 1 = .call .popSave (.passed false) ∧
      (s.step (.update 1)).map State.popped = some [7, 8, 9]) ∧ Delivers s := by
  obtain ⟨s, hs, hp⟩ := (system (Fin 3) (Buffer (CircularList ℕ 2))).exists_reachable
    (p := fun s => s.data.mContainer.items = [9, 8] ∧ s.data.mUnread = 1 ∧ s.popped = [7, 8] ∧
      s.pc 1 = .call .popSave (.passed false) ∧
      (s.step (.update 1)).map State.popped = some [7, 8, 9])
    [.call 1 .pop, .lock 1, .test 1 false, .call 0 (.push 7), .wait 1, .lock 0, .test 0 true,
      .update 0, .unlock 0, .notify 0 (some 1), .lock 1, .test 1 true, .update 1, .unlock 1,
      .call 0 (.push 8), .lock 0, .test 0 true, .update 0, .unlock 0, .call 2 .popSave, .lock 2,
      .test 2 true, .notify 1 none, .update 2, .unlock 2, .notify 2 none, .notify 0 none,
      .call 0 (.push 9), .lock 0, .test 0 true, .update 0, .unlock 0, .call 1 .popSave, .lock 1,
      .test 1 true] (by decide)
  exact ⟨s, hp, delivers_of_reachable hs⟩

end ThreadTests.BoundedBuffer
