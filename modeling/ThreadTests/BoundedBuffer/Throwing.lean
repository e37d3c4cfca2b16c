import ThreadTests.BoundedBuffer.Fifo

/-!
# `bounded_buffer` with elements whose copy may throw

The copy of an element is made under the mutex, after the test of the predicate. When it throws, the
call ends there: the lock is released, and nobody is notified. `push` counts the item only after its
copy, so a failed push leaves the undelivered items as they were; the entry that it may have
overwritten is a delivered one. `pop` and `pop_save` lower `m_unread` in the expression that makes
the copy, so a failed one has already taken its item out (`State.fail_eq_update`).
-/

namespace ThreadTests.BoundedBuffer

open CircularBuffer (items at? size pushFront)

universe u v w

/-- A container whose `push_front` may throw, when the copy of the element does. -/
class ThrowingCircularBuffer (C : Type w) (T : outParam (Type v)) (capacity : outParam ℕ) extends
    CircularBuffer C T capacity where
  /-- What such a `push_front` leaves: of a full container it has begun to overwrite the last
  element, which has any value then. -/
  spoilLast : C → T → C
  length_spoilLast : ∀ c junk, (items (spoilLast c junk)).length = (items c).length
  /-- The other elements are as before, and so is a container that was not full. -/
  getElem?_spoilLast : ∀ c junk n, n + 1 < capacity → (items (spoilLast c junk))[n]? = (items c)[n]?

open ThrowingCircularBuffer (spoilLast)

instance (T : Type v) (capacity : ℕ) :
    ThrowingCircularBuffer (CircularList T capacity) T capacity where
  spoilLast c junk := ⟨c.items.set (capacity - 1) junk, by rw [List.length_set]; exact c.le⟩
  length_spoilLast _ _ := List.length_set
  getElem?_spoilLast _ _ _ hn := List.getElem?_set_ne (by omega)

variable {ι : Type u} {T : Type v} {C : Type w} {capacity : ℕ} [ThrowingCircularBuffer C T capacity]

namespace ThrowingCircularBuffer

theorem size_spoilLast (c : C) (junk : T) : size (spoilLast c junk) = size c := by
  rw [CircularBuffer.size_eq, CircularBuffer.size_eq, length_spoilLast]

/-- The entries before the last place of the container are not touched. -/
theorem take_spoilLast {n : ℕ} (c : C) (hn : n < capacity) (junk : T) :
    (items (spoilLast c junk)).take n = (items c).take n := by
  refine List.ext_getElem? fun i => ?_
  rw [List.getElem?_take, List.getElem?_take]
  split
  · exact getElem?_spoilLast c junk i (by omega)
  · rfl

end ThrowingCircularBuffer

/-- The critical part of a call whose copy throws. -/
def Buffer.fail (b : Buffer C) (junk : T) : Op T → Option (Buffer C × Option T)
  | .push _ => some (⟨b.mUnread, spoilLast b.mContainer junk⟩, none)
  | .pop | .popSave =>
    -- `--m_unread` is evaluated before the element is copied
    match b.mUnread with
    | 0 => none
    | unread + 1 => (at? b.mContainer unread).map fun item => (⟨unread, b.mContainer⟩, some item)

namespace State

def fail (s : State ι T (Buffer C)) (junk : T) (op : Op T) : Option (State ι T (Buffer C)) :=
  (s.data.fail junk op).map fun (data, item) =>
    { s with data := data, popped := s.popped ++ item.toList }

/-- The items that the next pops will take, the oldest first. -/
def contents (s : State ι T (Buffer C)) : List T :=
  ((items s.data.mContainer).take s.data.mUnread).reverse

variable {s t : State ι T (Buffer C)} {op : Op T} {junk : T}

/-- To the buffer, a pop that fails is a pop. -/
theorem fail_eq_update (hside : op.side = .consumer) : s.fail junk op = s.update op := by
  have hdata : s.data.fail junk op = s.data.update op := by
    cases op with
    | push item => cases hside
    | pop => rfl
    | popSave => rfl
  unfold fail update
  rw [hdata, Op.item_eq_none hside, Option.toList_none, List.append_nil]
  rfl

theorem fail_push (s : State ι T (Buffer C)) (junk item : T) : s.fail junk (.push item) =
    some { s with data := ⟨s.data.mUnread, spoilLast s.data.mContainer junk⟩ } := by
  simp only [fail, Buffer.fail, Option.map_some, Option.toList_none, List.append_nil]

/-- A failed call spoils an entry, or takes out the oldest unread item. -/
theorem fail_cases (hu : s.fail junk op = some t) :
    (op.side = .producer ∧
      t = { s with data := ⟨s.data.mUnread, spoilLast s.data.mContainer junk⟩ }) ∨
    (op.side = .consumer ∧ ∃ unread item, s.data.mUnread = unread + 1 ∧
      at? s.data.mContainer unread = some item ∧
      t = { s with data := ⟨unread, s.data.mContainer⟩, popped := s.popped ++ [item] }) := by
  cases hside : op.side with
  | producer =>
    cases op with
    | push item =>
      rw [fail_push, Option.some.injEq] at hu
      exact .inl ⟨rfl, hu.symm⟩
    | pop | popSave => cases hside
  | consumer =>
    rw [fail_eq_update hside] at hu
    rcases update_cases hu with ⟨item, rfl, -⟩ | ⟨-, htaken⟩
    · cases hside
    · exact .inr ⟨rfl, htaken⟩

/-- The updates only add to what is taken out. -/
theorem Moves.popped [DecidableEq ι] {e : Event ι T} (hst : s.Moves e t) :
    ∃ items, t.popped = s.popped ++ items := by
  cases hst with
  | update hi hu =>
    rcases update_cases hu with ⟨item, -, rfl⟩ | ⟨-, unread, item, -, -, rfl⟩
    · exact ⟨[], (List.append_nil _).symm⟩
    · exact ⟨[item], rfl⟩
  | _ => exact ⟨[], (List.append_nil _).symm⟩

end State

/-- The state, the items whose copies the pops have delivered, and the number of pops that have
failed. -/
structure Throwing (ι : Type u) (T : Type v) (C : Type w) extends State ι T (Buffer C) where
  delivered : List T
  failedPops : ℕ

/-- A step, or the end of a call by an exception, with what it leaves of an element that was about
to be overwritten. -/
inductive ThrowingEvent (ι : Type u) (T : Type v) where
  | run (e : Event ι T)
  | throw (i : ι) (junk : T)

namespace Throwing

variable [DecidableEq ι]

/-- After a step that brings the buffer to `t`. -/
def ran (s : Throwing ι T C) (t : State ι T (Buffer C)) : Throwing ι T C where
  toState := t
  delivered := s.delivered ++ t.popped.drop s.popped.length
  failedPops := s.failedPops

/-- After a call that fails: its `unique_lock` is destroyed, and the exception leaves the call. -/
def threw (s : Throwing ι T C) (t : State ι T (Buffer C)) (i : ι) (op : Op T) :
    Throwing ι T C where
  toState := { t.goto i .idle with mMutex := none }
  delivered := s.delivered
  failedPops := if op.side = .consumer then s.failedPops + 1 else s.failedPops

def step [Fintype ι] (s : Throwing ι T C) :
    ThrowingEvent ι T → Option (Throwing ι T C)
  | .run e => (s.toState.step e).map s.ran
  | .throw i junk =>
    match s.pc i with
    | .call op (.passed _) => (s.fail junk op).map fun t => s.threw t i op
    | _ => none

/-- The steps, each with what it needs and what it changes. -/
inductive Moves (s : Throwing ι T C) :
    ThrowingEvent ι T → Throwing ι T C → Prop
  | run {e t} (h : s.toState.Moves e t) : Moves s (.run e) (s.ran t)
  | throw {i junk op woken t} (hi : s.pc i = .call op (.passed woken))
    (hu : s.fail junk op = some t) : Moves s (.throw i junk) (s.threw t i op)

theorem moves_of_step [Fintype ι] {s t : Throwing ι T C} {e : ThrowingEvent ι T}
    (hst : s.step e = some t) : s.Moves e t := by
  cases e with
  | run e =>
    obtain ⟨u, hu, rfl⟩ := Option.map_eq_some_iff.1 hst
    exact .run (State.moves_of_step hu)
  | throw i junk =>
    simp only [step] at hst
    split at hst
    · obtain ⟨u, hu, rfl⟩ := Option.map_eq_some_iff.1 hst
      exact .throw ‹_› hu
    · cases hst

end Throwing

/-- Threads `ι` on a buffer of `capacity` elements whose copy may throw. -/
def throwing (ι : Type u) {T : Type v} (C : Type w) {capacity : ℕ}
    [ThrowingCircularBuffer C T capacity] [DecidableEq ι] [Fintype ι] :
    System (Throwing ι T C) (ThrowingEvent ι T) where
  init := ⟨State.start, [], 0⟩
  step := Throwing.step

/-- What is reached without failures is reached here. -/
theorem exists_throwing_of_reachable [DecidableEq ι] [Fintype ι] {s : State ι T (Buffer C)}
    (hs : (system ι (Buffer C)).Reachable s) :
    ∃ u : Throwing ι T C, (throwing ι C).Reachable u ∧ u.toState = s ∧
      u.failedPops = 0 := by
  refine System.invariant (S := system ι (Buffer C)) (P := fun s => ∃ u : Throwing ι T C,
    (throwing ι C).Reachable u ∧ u.toState = s ∧ u.failedPops = 0) ?_ ?_ hs
  · exact ⟨_, System.Reachable.init, rfl, rfl⟩
  · intro s t e _ ih hst
    obtain ⟨u, hu, rfl, hfailed⟩ := ih
    have hrun : u.step (.run e) = some (u.ran t) := Option.map_eq_some_iff.2 ⟨t, hst, rfl⟩
    exact ⟨u.ran t, hu.step (e := .run e) hrun, rfl, hfailed⟩

/-! ## What a failure keeps -/

variable [DecidableEq ι] {i : ι} {op : Op T} {woken : Bool} {junk : T}

/-- A failed call leaves the mutex free and the rest of the invariant as it was. -/
theorem Inv.fail {s t : State ι T (Buffer C)} (h : Inv s)
    (hi : s.pc i = .call op (.passed woken)) (hu : s.fail junk op = some t) :
    Inv { t.goto i .idle with mMutex := none } := by
  have hholds : (s.pc i).holding = true := by rw [hi]; rfl
  have hlocked : Locked { s.goto i .idle with mMutex := none } := h.locked.release hholds rfl
  obtain ⟨hle, hsize⟩ := h.valid
  rcases State.fail_cases hu with ⟨hside, rfl⟩ | ⟨-, unread, item, hunread, hitem, rfl⟩
  · have hroom : s.data.mUnread < capacity := by
      have hready := h.tested hi
      rwa [hside, State.ready_producer] at hready
    have hsame := ThrowingCircularBuffer.size_spoilLast s.data.mContainer junk
    refine ⟨h.of_holder hholds rfl hlocked nofun nofun, ⟨hsame.symm ▸ hle, hsame.symm ▸ hsize⟩, ?_⟩
    simp only [State.goto, ThrowingCircularBuffer.take_spoilLast s.data.mContainer hroom]
    exact h.split
  · refine ⟨h.of_holder hholds rfl hlocked nofun nofun, ⟨?_, hsize⟩,
      h.split_oldest hunread hitem⟩
    change unread ≤ size s.data.mContainer
    omega

namespace Throwing

variable {s t : Throwing ι T C} {e : ThrowingEvent ι T}

/-- The pops that failed are what is missing between the items taken out and those delivered. -/
structure Accounted (s : Throwing ι T C) : Prop where
  inv : Inv s.toState
  sublist : s.delivered.Sublist s.popped
  length : s.popped.length = s.delivered.length + s.failedPops

theorem Accounted.ran (h : s.Accounted) {e : Event ι T} {t : State ι T (Buffer C)}
    (hst : s.toState.Moves e t) : (s.ran t).Accounted := by
  obtain ⟨items, hitems⟩ := hst.popped
  have hnew : t.popped.drop s.popped.length = items := by rw [hitems, List.drop_left]
  have hlength := h.length
  refine ⟨h.inv.moves hst, ?_, ?_⟩
  · change (s.delivered ++ t.popped.drop s.popped.length).Sublist t.popped
    rw [hnew, hitems]
    exact h.sublist.append (List.Sublist.refl items)
  · change t.popped.length = (s.delivered ++ t.popped.drop s.popped.length).length + s.failedPops
    rw [hnew, hitems, List.length_append, List.length_append]
    omega

theorem Accounted.threw (h : s.Accounted) (hi : s.pc i = .call op (.passed woken))
    {t : State ι T (Buffer C)} (hu : s.fail junk op = some t) : (s.threw t i op).Accounted := by
  have hlength := h.length
  have hinv := h.inv.fail hi hu
  rcases State.fail_cases hu with ⟨hside, rfl⟩ | ⟨hside, unread, item, -, -, rfl⟩
  · refine ⟨hinv, h.sublist, ?_⟩
    simpa [Throwing.threw, State.goto, hside] using hlength
  · refine ⟨hinv, h.sublist.trans (List.sublist_append_left _ _), ?_⟩
    simp only [Throwing.threw, State.goto, hside, ite_true, List.length_append,
      List.length_singleton]
    omega

theorem accounted_of_reachable [Fintype ι] (hs : (throwing ι C).Reachable s) :
    s.Accounted := by
  refine System.invariant (P := Accounted) ⟨Inv.start, List.Sublist.refl _, rfl⟩ ?_ hs
  intro s t e _ h hst
  cases moves_of_step hst with
  | run hmoves => exact h.ran hmoves
  | throw hi hu => exact h.threw hi hu

/-! ## What a failure should keep -/

/-- The call has failed and nothing is lost: the undelivered items are those before it, a push that
is tried again adds its item, and a pop that is tried again takes the item whose copy failed. -/
structure Survives (s t : State ι T (Buffer C)) (op : Op T) : Prop where
  kept : t.contents = s.contents
  pushes : ∀ item, op = .push item →
    ∃ u, t.update op = some u ∧ u.contents = s.contents ++ [item]
  pops : op.side = .consumer →
    ∃ u item, t.update op = some u ∧ u.popped = t.popped ++ [item] ∧
      s.contents = item :: u.contents

/-- A failed push has not counted its item, and the entry it may have spoilt is a delivered one. -/
theorem Accounted.survives (h : s.Accounted) {item : T}
    (hi : s.pc i = .call (.push item) (.passed woken)) {t : State ι T (Buffer C)}
    (hu : s.fail junk (.push item) = some t) :
    Survives s.toState { t.goto i .idle with mMutex := none } (.push item) := by
  have hroom : s.data.mUnread < capacity := State.ready_producer.1 (h.inv.tested hi)
  have hkept := ThrowingCircularBuffer.take_spoilLast s.data.mContainer hroom junk
  rw [State.fail_push, Option.some.injEq] at hu
  subst hu
  refine ⟨congrArg List.reverse hkept, ?_, nofun⟩
  rintro item ⟨⟩
  refine ⟨_, State.update_push _ item, ?_⟩
  simp only [State.contents, State.goto, CircularBuffer.take_pushFront _ hroom, hkept,
    List.reverse_cons]

/-- A failed pop has taken its item out. -/
theorem Accounted.not_survives (h : s.Accounted) (hside : op.side = .consumer)
    {t : State ι T (Buffer C)} (hu : s.fail junk op = some t) :
    ¬ Survives s.toState { t.goto i .idle with mMutex := none } op := by
  intro hsurvives
  have hle := h.inv.valid.le
  have hkept := congrArg List.length hsurvives.kept
  rcases State.fail_cases hu with ⟨hpush, -⟩ | ⟨-, unread, item, hunread, -, rfl⟩
  · rw [hside] at hpush
    cases hpush
  · simp only [State.contents, State.goto, List.length_reverse, List.length_take, hunread,
      CircularBuffer.size_eq] at hkept hle
    omega

omit [DecidableEq ι] in
/-- Nothing is lost: what is pushed is delivered, or still to be popped. -/
theorem Accounted.nothing_lost_iff (h : s.Accounted) :
    s.pushed = s.delivered ++ s.contents ↔ s.failedPops = 0 := by
  have hsplit : s.pushed = s.popped ++ s.contents := h.inv.split
  have hlength := h.length
  rw [hsplit, List.append_left_inj]
  constructor
  · intro heq
    have := congrArg List.length heq
    omega
  · intro hnone
    exact (h.sublist.eq_of_length (by omega)).symm

end Throwing

/-- **A failed call loses nothing exactly when it is a push**, after any steps and failures. All
that is pushed is delivered, or still to be popped, exactly when no pop has failed. -/
theorem survives_iff_of_reachable [Fintype ι] {s : Throwing ι T C}
    (hs : (throwing ι C).Reachable s) :
    (∀ {i op woken junk t}, s.pc i = .call op (.passed woken) →
      s.step (.throw i junk) = some t →
        (Throwing.Survives s.toState t.toState op ↔ op.side = .producer)) ∧
    (s.pushed = s.delivered ++ s.contents ↔ s.failedPops = 0) := by
  have h := Throwing.accounted_of_reachable hs
  refine ⟨?_, h.nothing_lost_iff⟩
  intro i op woken junk t hi hst
  cases Throwing.moves_of_step hst with
  | throw hi' hu =>
    obtain ⟨rfl, rfl⟩ : op = _ ∧ woken = _ := by simpa using hi.symm.trans hi'
    cases hside : op.side with
    | producer =>
      cases op with
      | push item => exact iff_of_true (h.survives hi hu) rfl
      | pop | popSave => cases hside
    | consumer => exact iff_of_false (h.not_survives hside hu) nofun

/-- A push on a full container of one delivered item fails, and leaves junk there. -/
theorem survives_iff_of_reachable_one : ∃ s t : Throwing (Fin 1) ℕ (CircularList ℕ 1),
    s.step (.throw 0 3) = some t ∧ t.data.mContainer.items = [3] ∧
      Throwing.Survives s.toState t.toState (.push 8) ∧
      s.pushed = s.delivered ++ s.contents := by
  obtain ⟨s, hs, hi, hitems, hfailed⟩ := (throwing (Fin 1) (CircularList ℕ 1)).exists_reachable
    (p := fun s => s.pc 0 = .call (.push 8) (.passed false) ∧ s.data.mContainer.items = [7] ∧
      s.failedPops = 0)
    ([.call 0 (.push 7), .lock 0, .test 0 true, .update 0, .unlock 0, .notify 0 none,
      .call 0 .pop, .lock 0, .test 0 true, .update 0, .unlock 0, .notify 0 none,
      .call 0 (.push 8), .lock 0, .test 0 true].map .run) (by decide)
  have hiff := survives_iff_of_reachable hs
  have hst : s.step (.throw 0 3) = some (s.threw { s.toState with
      data := ⟨s.data.mUnread, spoilLast s.data.mContainer 3⟩ } 0 (.push 8)) := by
    simp only [Throwing.step, hi, State.fail_push, Option.map_some]
  refine ⟨s, _, hst, ?_, (hiff.1 hi hst).2 rfl, hiff.2.2 hfailed⟩
  change s.data.mContainer.items.set 0 3 = [3]
  rw [hitems]
  rfl

/-- The only item is lost by a pop whose copy throws. -/
theorem exists_item_lost : ∃ s t : Throwing (Fin 1) ℕ (CircularList ℕ 1),
    (throwing (Fin 1) (CircularList ℕ 1)).Reachable s ∧ s.pc 0 = .call .pop (.passed false) ∧
      s.step (.throw 0 3) = some t ∧ s.contents = [7] ∧ t.contents = [] ∧
      ¬ Throwing.Survives s.toState t.toState .pop := by
  obtain ⟨s, hs, hi, hitems, hunread⟩ := (throwing (Fin 1) (CircularList ℕ 1)).exists_reachable
    (p := fun s => s.pc 0 = .call .pop (.passed false) ∧ s.data.mContainer.items = [7] ∧
      s.data.mUnread = 1)
    ([.call 0 (.push 7), .lock 0, .test 0 true, .update 0, .unlock 0, .notify 0 none,
      .call 0 .pop, .lock 0, .test 0 true].map .run) (by decide)
  have hitem : at? s.data.mContainer 0 = some 7 := by
    rw [CircularBuffer.at?_eq]
    exact congrArg (fun l => l[0]?) hitems
  have hfail : s.fail 3 .pop = some { s.toState with
      data := ⟨0, s.data.mContainer⟩, popped := s.popped ++ [7] } :=
    (State.fail_eq_update rfl).trans (State.update_pop rfl hunread hitem)
  have hst : s.step (.throw 0 3) = some (s.threw { s.toState with
      data := ⟨0, s.data.mContainer⟩, popped := s.popped ++ [7] } 0 .pop) := by
    simp only [Throwing.step, hi, hfail, Option.map_some]
  have hbefore : s.contents = [7] := by
    rw [State.contents, hunread, CircularBuffer.take_succ hitem]
    rfl
  refine ⟨s, _, hs, hi, hst, hbefore, rfl, ?_⟩
  intro hsurvives
  cases hsurvives.kept.trans hbefore

end ThreadTests.BoundedBuffer
