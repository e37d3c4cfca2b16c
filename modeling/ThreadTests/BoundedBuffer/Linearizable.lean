import ThreadTests.Core.Linearizable
import ThreadTests.Core.Scripts
import ThreadTests.BoundedBuffer.Fifo

/-!
# `bounded_buffer` is linearizable

What the callers see of the buffer: a call is an invocation, and it responds when it has notified,
a pop with the item that it has copied under the mutex. The calls can be put in one order, that of
their updates, in which they are the pushes and the pops of a bounded queue one after the other; and
a call that has responded stands before every call that is made afterwards.
-/

namespace ThreadTests.BoundedBuffer

universe u v w

variable {ι : Type u} {T : Type v} {C : Type w} {D : Type w} {capacity : ℕ}

/-- The bounded queue, one operation at a time. A call that would have to wait is not legal. -/
def boundedQueue (T : Type v) [DecidableEq T] (capacity : ℕ) :
    Spec (List T) (Op T) (Option T) where
  init := []
  step
    | waiting, .push item, none =>
      if waiting.length < capacity then some (waiting ++ [item]) else none
    | x :: waiting, .pop, some item | x :: waiting, .popSave, some item =>
      if x = item then some waiting else none
    | _, _, _ => none

theorem boundedQueue_push [DecidableEq T] {waiting : List T} (h : waiting.length < capacity)
    (item : T) :
    (boundedQueue T capacity).step waiting (.push item) none = some (waiting ++ [item]) :=
  if_pos h

theorem boundedQueue_pop [DecidableEq T] {op : Op T} (hop : op.side = .consumer) (x : T)
    (waiting : List T) :
    (boundedQueue T capacity).step (x :: waiting) op (some x) = some waiting := by
  cases op with
  | push => cases hop
  | pop | popSave => exact if_pos rfl

/-- The state, and the item that a pop has copied: the variable `item` of `pop`, or what `pItem`
points to. -/
structure Returning (ι : Type u) (T : Type v) (D : Type w) extends State ι T D where
  item : ι → Option T

/-- What the update of a thread copies. -/
def State.taken [Guarded D T] (s : State ι T D) (i : ι) : Option T :=
  match s.pc i with
  | .call op _ => (Guarded.update s.data op).bind Prod.snd
  | .idle => none

namespace Returning

section System

variable [Guarded D T] [DecidableEq ι]

def assign (s : Returning ι T D) : Event ι T → ι → Option T
  | .update i => Function.update s.item i (s.taken i)
  | _ => s.item

def step [Fintype ι] (s : Returning ι T D) (e : Event ι T) : Option (Returning ι T D) :=
  (s.toState.step e).map fun t => ⟨t, s.assign e⟩

/-- The buffer, with what the calls return. -/
def system (ι : Type u) (D : Type w) [Guarded D T] [DecidableEq ι] [Fintype ι] :
    System (Returning ι T D) (Event ι T) where
  init := ⟨.start, fun _ => none⟩
  step := step

/-- What the callers see. -/
def see (s : Returning ι T D) : Event ι T → List (Action ι (Op T) (Option T))
  | .call i op => [.invoke i op]
  | .notify i _ => [.respond i (s.item i)]
  | _ => []

end System

end Returning

/-- How far a call is, to the queue. -/
def Pc.status : Pc T → Option T → Status (Op T) (Option T)
  | .idle, _ => .idle
  | .call _ .updated, item | .call _ .notifying, item => .done item
  | .call op _, _ => .invoked op

namespace Returning

variable [Guarded D T] [DecidableEq ι] [Fintype ι]

/-- The variables of the calls do not change what happens. -/
def lockstep (ι : Type u) (D : Type w) [Guarded D T] [DecidableEq ι] [Fintype ι] :
    System.Lockstep (system ι D) (BoundedBuffer.system ι D) where
  abs := toState
  init := rfl
  step {s} _ e := by
    change s.toState.step e = ((s.toState.step e).map _).map toState
    rw [Option.map_map]
    exact Option.map_id_apply.symm

theorem reachable_state {s : Returning ι T D} (hs : (system ι D).Reachable s) :
    (BoundedBuffer.system ι D).Reachable s.toState :=
  (lockstep ι D).reachable_iff.2 ⟨s, hs, rfl⟩

/-- The queue that a state stands for, with the calls on it. -/
def object (s : Returning ι T D) : Object (List T) ι (Op T) (Option T) where
  value := s.undelivered
  status i := (s.pc i).status (s.item i)

/-- The events of the queue. -/
def label (s : Returning ι T D) : Event ι T → Option (List (ObjectEvent ι (Op T) (Option T)))
  | .call i op => some [.invoke i op]
  | .update i => some [.effect i (s.taken i)]
  | .notify i _ => some [.respond i (s.item i)]
  | _ => none

variable {s : Returning ι T D} {i : ι} {p : Pc T}

omit [Guarded D T] [DecidableEq ι] [Fintype ι] in
theorem object_status (s : Returning ι T D) (i : ι) :
    (object s).status i = (s.pc i).status (s.item i) := rfl

omit [Guarded D T] [Fintype ι] in
theorem status_goto {t : State ι T D} {item : ι → Option T}
    (h : p.status (item i) = (t.pc i).status (item i)) (j : ι) :
    ((t.goto i p).pc j).status (item j) = (t.pc j).status (item j) := by
  by_cases hj : j = i
  · subst hj
    rw [State.goto_pc_self, h]
  · rw [State.goto_pc_of_ne t hj]

omit [Guarded D T] [Fintype ι] in
/-- A thread goes on, and so does its call. -/
theorem status_become {t : State ι T D} {item item' : ι → Option T}
    (hitem : ∀ j, j ≠ i → item' j = item j) :
    (fun j => ((t.goto i p).pc j).status (item' j)) =
      Function.update (fun j => (t.pc j).status (item j)) i (p.status (item' i)) := by
  funext j
  by_cases hj : j = i
  · subst hj
    rw [State.goto_pc_self, Function.update_self]
  · rw [State.goto_pc_of_ne t hj, Function.update_of_ne hj, hitem j hj]

omit [Guarded D T] [Fintype ι] in
theorem object_goto (h : p.status (s.item i) = (s.pc i).status (s.item i)) {m : Option ι} :
    object ⟨{ s.toState.goto i p with mMutex := m }, s.item⟩ = object s := by
  have hstatus : (fun j => ((s.toState.goto i p).pc j).status (s.item j)) =
      fun j => (s.pc j).status (s.item j) := funext (status_goto h)
  exact congrArg (Object.mk s.undelivered) hstatus

end Returning

/-! ## `bounded_buffer` as a queue -/

namespace Returning

variable [CircularBuffer C T capacity] [DecidableEq ι] [Fintype ι] [DecidableEq T]
  {s : Returning ι T (Buffer C)} {i : ι} {p : Pc T}

omit [Fintype ι] in
/-- The update of a call is its effect on the queue. -/
theorem effect_update (h : Inv s.toState) {op : Op T} {woken : Bool} {t : State ι T (Buffer C)}
    (hi : s.pc i = .call op (.passed woken)) (hu : s.toState.update op = some t) :
    (boundedQueue T capacity).step s.undelivered op (s.taken i) =
      some (t.goto i (.call op .updated)).undelivered := by
  have hunread := h.undelivered_length
  have hafter := (h.update hi hu).undelivered
  rcases State.update_cases hu with ⟨item, rfl, rfl⟩ | ⟨hside, unread, item, heq, hitem, rfl⟩
  · have hroom : s.data.mUnread < capacity := State.ready_producer.1 (h.tested hi)
    have htaken : s.taken i = none := by
      simp only [State.taken, hi]
      rfl
    rw [htaken, boundedQueue_push (by rwa [hunread]), hafter, h.undelivered]
    simp only [State.goto, CircularBuffer.take_pushFront s.data.mContainer hroom,
      List.reverse_cons]
  · have htaken : s.taken i = some item := by
      simp only [State.taken, hi]
      exact congrArg (Option.bind · Prod.snd) (Buffer.update_pop hside heq hitem)
    have hwaiting :
        s.undelivered = item :: ((CircularBuffer.items s.data.mContainer).take unread).reverse := by
      rw [h.undelivered, heq, CircularBuffer.take_succ hitem, List.reverse_append]
      rfl
    rw [htaken, hwaiting, boundedQueue_pop hside, hafter]
    rfl

omit [Fintype ι] in
/-- A step is an event of the queue, or none. -/
theorem object_moves {t : State ι T (Buffer C)} {e : Event ι T} (h : Inv s.toState)
    (hst : s.toState.Moves e t) :
    match label s e with
    | none => object ⟨t, s.assign e⟩ = object s
    | some es => ((boundedQueue T capacity).object ι).bursts.step (object s) es =
        some (object ⟨t, s.assign e⟩) := by
  cases hst with
  | enter hi | relock hi | wait hi | spurious hi | unlock hi =>
    exact object_goto (by rw [hi]; rfl)
  | @test i op woken ready hi =>
    refine object_goto ?_
    rw [hi]
    cases ready with
    | true => rfl
    | false => rfl
  | @call i op hi =>
    have hidle : (object s).status i = .idle := by
      rw [object_status, hi]
      rfl
    have hnext : object ⟨s.toState.goto i (.call op .entering), s.item⟩ =
        (object s).become i (.invoked op) :=
      congrArg (Object.mk s.undelivered) (status_become fun _ _ => rfl)
    exact System.bursts_singleton ((object_invoke hidle op).trans (congrArg some hnext.symm))
  | @update i op woken t hi hu =>
    have hinvoked : (object s).status i = .invoked op := by
      rw [object_status, hi]
      rfl
    have hitem : ∀ j, j ≠ i → Function.update s.item i (s.taken i) j = s.item j := fun j hj =>
      Function.update_of_ne hj ..
    have hdone : (Pc.call op .updated).status (Function.update s.item i (s.taken i) i) =
        .done (s.taken i) := by
      rw [Function.update_self]
      rfl
    have hstatus := status_become (t := t) (p := .call op .updated) hitem
    rw [hdone, (State.update_frame hu).1] at hstatus
    exact System.bursts_singleton ((object_effect hinvoked (effect_update h hi hu)).trans
      (congrArg some (congrArg (Object.mk _) hstatus).symm))
  | @notifyNone i op hi hnone =>
    have hdone : (object s).status i = .done (s.item i) := by
      rw [object_status, hi]
      rfl
    have hnext : object ⟨s.toState.goto i .idle, s.item⟩ = (object s).become i .idle :=
      congrArg (Object.mk s.undelivered) (status_become fun _ _ => rfl)
    exact System.bursts_singleton ((object_respond hdone).trans (congrArg some hnext.symm))
  | @notifyOne i j op op' hi hj hside =>
    have hdone : (object s).status i = .done (s.item i) := by
      rw [object_status, hi]
      rfl
    -- the call of the waiter that is woken is where it was
    have hwoken : (fun k => ((s.toState.goto j (.call op' .woken)).pc k).status (s.item k)) =
        fun k => (s.pc k).status (s.item k) := funext (status_goto (by rw [hj]; rfl))
    have hsame : ∀ k, k ≠ i → s.item k = s.item k := fun _ _ => rfl
    have hstatus := status_become (t := s.toState.goto j (.call op' .woken)) (p := .idle) hsame
    rw [hwoken] at hstatus
    exact System.bursts_singleton ((object_respond hdone).trans
      (congrArg some (congrArg (Object.mk s.undelivered) hstatus).symm))

/-- **The buffer is the atomic queue**, to its callers. -/
def linearization (ι : Type u) (C : Type w) [CircularBuffer C T capacity] [DecidableEq ι]
    [Fintype ι] : System.Simulation (system ι (Buffer C))
      ((boundedQueue T capacity).object ι).bursts where
  abs := object
  label := label
  init := rfl
  silent {s t e} hs hst he := by
    obtain ⟨u, hu, rfl⟩ := Option.map_eq_some_iff.1 hst
    have hmoves := object_moves (inv_of_reachable (reachable_state hs)) (State.moves_of_step hu)
    rwa [he] at hmoves
  visible {s t e d} hs hst he := by
    obtain ⟨u, hu, rfl⟩ := Option.map_eq_some_iff.1 hst
    have hmoves := object_moves (inv_of_reachable (reachable_state hs)) (State.moves_of_step hu)
    rwa [he] at hmoves

/-- **`bounded_buffer` is linearizable**, for any number of threads and every schedule. -/
theorem bounded_buffer_linearizable {es : List (Event ι T)} {s : Returning ι T (Buffer C)}
    (hrun : (system ι (Buffer C)).run (system ι (Buffer C)).init es = some s) :
    Linearizable (boundedQueue T capacity)
      ((system ι (Buffer C)).record see (system ι (Buffer C)).init es) :=
  linearizable_of_simulation (linearization ι C) (fun s e => by cases e <;> rfl) hrun

/-- A pop waits, and returns the item of a push that is made afterwards. -/
theorem bounded_buffer_linearizable_two : Linearizable (boundedQueue ℕ 1)
    ([.invoke 1 .pop, .invoke 0 (.push 7), .respond 0 none, .respond 1 (some 7)] :
      List (Action (Fin 2) (Op ℕ) (Option ℕ))) := by
  let es : List (Event (Fin 2) ℕ) :=
    [.call 1 .pop, .lock 1, .test 1 false, .wait 1, .call 0 (.push 7), .lock 0, .test 0 true,
      .update 0, .unlock 0, .notify 0 (some 1), .lock 1, .test 1 true, .update 1, .unlock 1,
      .notify 1 none]
  let S := system (Fin 2) (Buffer (CircularList ℕ 1))
  have hseen : S.record see S.init es =
      [.invoke 1 .pop, .invoke 0 (.push 7), .respond 0 none, .respond 1 (some 7)] := by
    decide
  obtain ⟨s, hs⟩ := Option.isSome_iff_exists.1
    (by decide : (S.run S.init es).isSome = true)
  exact hseen ▸ bounded_buffer_linearizable hs

end Returning

end ThreadTests.BoundedBuffer
