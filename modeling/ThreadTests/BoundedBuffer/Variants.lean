import ThreadTests.BoundedBuffer.Wakeup

/-!
# The buffers of `test_bcb`

`bounded_buffer_space_optimized`, `bounded_buffer_deque_based` and `bounded_buffer_list_based` have
the locks and conditions of `bounded_buffer`, but no `m_unread`: a pop takes the last element out of
the container, and the size of the container is what the predicates test. The calls are named
`push_front` and `pop_back` there, here `push` and `pop_save`.

The containers are parameters with their operations (`Container`) and what is relied on of them, the
laws of a list that does not outgrow the capacity (`Represents`). A buffer over any of them goes in
lockstep with the one over lists (`Represents.refines`), and so does `bounded_buffer`, whose first
`m_unread` elements are the list (`Buffer.refines`).
-/

namespace ThreadTests.BoundedBuffer

open CircularBuffer (items at? size pushFront)

universe u v w x

/-- What a buffer does with its container. -/
structure Container (C : Type w) (T : Type v) where
  empty : C
  pushFront : C → T → C
  /-- No result on an empty container. -/
  back : C → Option T
  popBack : C → C
  size : C → ℕ
  /-- `m_container.capacity()`, or `m_capacity`. -/
  capacity : ℕ

/-- What the mutex of a buffer without `m_unread` guards. -/
structure Variant {C : Type w} {T : Type v} (K : Container C T) where
  mContainer : C

namespace Variant

variable {C : Type w} {T : Type v} {K : Container C T}

def isNotEmpty (b : Variant K) : Bool := decide (0 < K.size b.mContainer)

def isNotFull (b : Variant K) : Bool := decide (K.size b.mContainer < K.capacity)

/-- The predicate of a side. -/
def ready (b : Variant K) : Side → Bool
  | .producer => b.isNotFull
  | .consumer => b.isNotEmpty

/-- The critical part of a call. -/
def update (b : Variant K) : Op T → Option (Variant K × Option T)
  | .push item => some (⟨K.pushFront b.mContainer item⟩, none)
  | .pop | .popSave =>
    (K.back b.mContainer).map fun item => (⟨K.popBack b.mContainer⟩, some item)

instance : Guarded (Variant K) T where
  init := ⟨K.empty⟩
  ready := ready
  update := update

end Variant

/-- `std::deque` and `std::list`, which grow as they need to, beside `m_capacity`. -/
def sequence (T : Type v) (capacity : ℕ) : Container (List T) T where
  empty := []
  pushFront c item := item :: c
  back := List.getLast?
  popBack := List.dropLast
  size := List.length
  capacity := capacity

/-- Over a `boost::circular_buffer_space_optimized`. -/
abbrev BoundedBufferSpaceOptimized {C : Type w} {T : Type v} (K : Container C T) : Type w :=
  Variant K

abbrev BoundedBufferDequeBased (T : Type v) (capacity : ℕ) : Type v :=
  Variant (sequence T capacity)

abbrev BoundedBufferListBased (T : Type v) (capacity : ℕ) : Type v :=
  Variant (sequence T capacity)

/-! ## Containers that hold a list -/

/-- What is relied on of a container. -/
structure Represents {C : Type w} {T : Type v} (K : Container C T) (capacity : ℕ) where
  /-- The elements, the front first. -/
  items : C → List T
  capacity_eq : K.capacity = capacity
  items_empty : items K.empty = []
  size_eq : ∀ c, K.size c = (items c).length
  items_pushFront : ∀ c item, (items c).length < capacity →
    items (K.pushFront c item) = item :: items c
  back_eq : ∀ c, K.back c = (items c).getLast?
  items_popBack : ∀ c, items c ≠ [] → items (K.popBack c) = (items c).dropLast

def representsSequence (T : Type v) (capacity : ℕ) : Represents (sequence T capacity) capacity where
  items c := c
  capacity_eq := rfl
  items_empty := rfl
  size_eq _ := rfl
  items_pushFront _ _ _ := rfl
  back_eq _ := rfl
  items_popBack _ _ := rfl

/-- A list that is cut to the capacity, as a space optimized buffer. -/
def spaceOptimized (T : Type v) (capacity : ℕ) : Container (CircularList T capacity) T where
  empty := CircularBuffer.empty
  pushFront c item := pushFront c item
  back c := c.items.getLast?
  popBack c := ⟨c.items.dropLast, (List.dropLast_sublist c.items).length_le.trans c.le⟩
  size c := size c
  capacity := capacity

def representsSpaceOptimized (T : Type v) (capacity : ℕ) :
    Represents (spaceOptimized T capacity) capacity where
  items := CircularList.items
  capacity_eq := rfl
  items_empty := rfl
  size_eq _ := rfl
  items_pushFront c item hlt :=
    List.take_of_length_le (Nat.succ_le_of_lt hlt : (item :: c.items).length ≤ capacity)
  back_eq _ := rfl
  items_popBack _ _ := rfl

section Refines

variable {T : Type v} {C : Type w} {K : Container C T} {capacity : ℕ} {op : Op T}

namespace Represents

variable (R : Represents K capacity) {b : Variant K}

/-- The list that the container holds. -/
def abs (b : Variant K) : Variant (sequence T capacity) := ⟨R.items b.mContainer⟩

theorem update_abs (hready : b.ready op.side = true) :
    (R.abs b).update op = (b.update op).map (Prod.map R.abs id) := by
  cases op with
  | push item =>
    have hroom : K.size b.mContainer < K.capacity := decide_eq_true_iff.1 hready
    rw [R.size_eq, R.capacity_eq] at hroom
    have hpush := R.items_pushFront b.mContainer item hroom
    exact congrArg (fun items => some (Variant.mk items, none)) hpush.symm
  | pop | popSave =>
    have hsize : 0 < K.size b.mContainer := decide_eq_true_iff.1 hready
    rw [R.size_eq] at hsize
    have hpop := R.items_popBack b.mContainer (List.ne_nil_of_length_pos hsize)
    have hback := R.back_eq b.mContainer
    simp only [Variant.update, abs, sequence, Option.map_map, ← hback, ← hpop]
    rfl

/-- A buffer over the container takes the steps of the one over lists. -/
def refines : Refines (Variant K) (Variant (sequence T capacity)) where
  abs := R.abs
  valid _ := True
  init := congrArg Variant.mk R.items_empty
  valid_init := trivial
  ready {b} _ side := by
    have hsize := R.size_eq b.mContainer
    cases side with
    | producer =>
      change decide ((R.items b.mContainer).length < capacity) =
        decide (K.size b.mContainer < K.capacity)
      rw [hsize, R.capacity_eq]
    | consumer =>
      change decide (0 < (R.items b.mContainer).length) = decide (0 < K.size b.mContainer)
      rw [hsize]
  update _ hready := R.update_abs hready
  valid_update _ _ _ := trivial

end Represents

namespace Buffer

variable [CircularBuffer C T capacity] {b : Buffer C}

/-- The list of the unread elements. -/
def unread (b : Buffer C) : Variant (sequence T capacity) := ⟨(items b.mContainer).take b.mUnread⟩

theorem Valid.length_unread (h : b.Valid) : b.unread.mContainer.length = b.mUnread := by
  have hle := h.le
  rw [CircularBuffer.size_eq] at hle
  rw [unread, List.length_take]
  exact Nat.min_eq_left hle

theorem Valid.update_unread (h : b.Valid) (hready : b.ready op.side = true) :
    b.unread.update op = (b.update op).map (Prod.map unread id) := by
  cases hside : op.side with
  | producer =>
    cases op with
    | push item =>
      have hroom : b.mUnread < capacity := decide_eq_true_iff.1 hready
      have hpush := CircularBuffer.take_pushFront b.mContainer hroom item
      exact congrArg (fun items => some (Variant.mk items, none)) hpush.symm
    | pop | popSave => cases hside
  | consumer =>
    rw [hside] at hready
    have hpos : 0 < b.mUnread := decide_eq_true_iff.1 hready
    obtain ⟨unread, hunread⟩ := Nat.exists_eq_add_one.2 hpos
    have hle := h.le
    obtain ⟨item, hitem⟩ := CircularBuffer.exists_at? (c := b.mContainer) (n := unread) (by omega)
    have htake := CircularBuffer.take_succ hitem
    rw [update_pop hside hunread hitem]
    cases op with
    | push => cases hside
    | pop | popSave =>
      simp only [Variant.update, Buffer.unread, sequence, hunread, htake, List.getLast?_concat,
        List.dropLast_concat, Option.map_some]
      rfl

/-- `bounded_buffer` takes the steps of the buffer over lists. -/
def refines (C : Type w) [CircularBuffer C T capacity] :
    Refines (Buffer C) (Variant (sequence T capacity)) where
  abs := unread
  valid := Valid
  init := rfl
  valid_init := Valid.init
  ready h side := by
    cases side with
    | producer => exact congrArg (fun n => decide (n < capacity)) h.length_unread
    | consumer => exact congrArg (fun n => decide (0 < n)) h.length_unread
  update h hready := h.update_unread hready
  valid_update h hready hu := h.update hready hu

end Buffer

end Refines

/-! ## What holds of the buffers -/

section Buffers

variable {ι : Type u} {T : Type v} {C : Type w} {C' : Type x} {K : Container C' T} {capacity : ℕ}
  [DecidableEq ι] [Fintype ι]

/-- **The four buffers of `test_bcb` agree**: the same sequences of events are runs, with the same
items delivered and the same threads asleep, and a container without `m_unread` holds what
`bounded_buffer` counts as unread. -/
theorem variants_agree [CircularBuffer C T capacity] (R : Represents K capacity)
    (es : List (Event ι T)) :
    let unread := ((system ι (Buffer C)).run State.start es).map (State.map Buffer.unread)
    ((system ι (BoundedBufferSpaceOptimized K)).run State.start es).map (State.map R.abs) = unread ∧
      (system ι (BoundedBufferDequeBased T capacity)).run State.start es = unread ∧
      (system ι (BoundedBufferListBased T capacity)).run State.start es = unread := by
  intro unread
  have hunread : (system ι (Variant (sequence T capacity))).run State.start es = unread :=
    ((Buffer.refines C).lockstep ι).run_init_eq es
  exact ⟨((R.refines.lockstep ι).run_init_eq es).symm.trans hunread, hunread, hunread⟩

/-- What a buffer without `m_unread` guarantees in every state. -/
structure VariantSafe (R : Represents K capacity) (s : State ι T (Variant K)) : Prop where
  fifo : s.popped <+: s.pushed
  /-- The container holds the undelivered items and nothing else, the newest first. -/
  undelivered : R.items s.data.mContainer = s.undelivered.reverse
  size_le : K.size s.data.mContainer ≤ K.capacity
  /-- Nobody takes the last element of an empty container. -/
  back : ∀ i op woken, s.pc i = .call op (.passed woken) → op.side = .consumer →
    K.back s.data.mContainer ≠ none
  /-- Nobody adds an element to a full container. -/
  room : ∀ i op woken, s.pc i = .call op (.passed woken) → op.side = .producer →
    K.size s.data.mContainer < K.capacity
  /-- No wakeup is lost. -/
  awake : ∀ d i, (s.pc i).waitingOn d = true → s.ready d = true →
    ∃ j, (s.pc j).pending d = true ∨ (s.pc j).rechecking d = true ∨ (s.pc j).taking d = true

/-- The runs of a buffer without `m_unread` are those of `bounded_buffer`. -/
theorem Represents.exists_boundedBuffer (R : Represents K capacity) {s : State ι T (Variant K)}
    (hs : (system ι (Variant K)).Reachable s) :
    ∃ u, (system ι (Buffer (CircularList T capacity))).Reachable u ∧
      u.map Buffer.unread = s.map R.abs :=
  ((Buffer.refines _).lockstep ι).reachable_iff.1
    ((R.refines.lockstep ι).reachable_iff.2 ⟨s, hs, rfl⟩)

theorem Represents.safe_of_reachable (R : Represents K capacity) {s : State ι T (Variant K)}
    (hs : (system ι (Variant K)).Reachable s) : VariantSafe R s := by
  have h := Exclusive.of_reachable hs
  obtain ⟨u, hu, hsame⟩ := R.exists_boundedBuffer hs
  have hinv := inv_of_reachable hu
  have hdelivers := delivers_of_reachable hu
  have hpc : u.pc = s.pc := congrArg State.pc hsame
  have hpushed : u.pushed = s.pushed := congrArg State.pushed hsame
  have hpopped : u.popped = s.popped := congrArg State.popped hsame
  have hitems : (u.data.mContainer.items).take u.data.mUnread = R.items s.data.mContainer :=
    congrArg (fun s => s.data.mContainer) hsame
  have hsize : K.size s.data.mContainer = u.data.mUnread := by
    rw [R.size_eq, ← hitems]
    exact hinv.valid.length_unread
  refine ⟨hpushed ▸ hpopped ▸ hdelivers.fifo, ?_, ?_, fun i op woken hi hside => ?_,
    fun i op woken hi hside => ?_, ?_⟩
  · rw [← hitems, State.undelivered, ← hpushed, ← hpopped]
    exact hdelivers.undelivered
  · rw [hsize, R.capacity_eq]
    exact hinv.valid.le.trans hinv.valid.size_le
  · have hready := h.tested hi
    rw [hside] at hready
    have hpos : 0 < K.size s.data.mContainer := decide_eq_true_iff.1 hready
    rw [R.size_eq] at hpos
    rw [R.back_eq]
    exact mt List.getLast?_eq_none_iff.1 (List.ne_nil_of_length_pos hpos)
  · have hready := h.tested hi
    rw [hside] at hready
    exact decide_eq_true_iff.1 hready
  · intro d i hi hready
    rw [← hpc] at hi ⊢
    refine (noLostWakeup_of_reachable hu).awake d i hi ?_
    have hu := (Buffer.refines (CircularList T capacity)).ready hinv.valid d
    have hs := R.refines.ready (d := s.data) trivial d
    exact hu.symm.trans ((congrArg (fun s => s.ready d) hsame).trans (hs.trans hready))

/-- **The buffers without `m_unread` are safe**, for any number of threads and every schedule. -/
theorem variants_safe (R : Represents K capacity) :
    (∀ s, (system ι (BoundedBufferSpaceOptimized K)).Reachable s → VariantSafe R s) ∧
    (∀ s, (system ι (BoundedBufferDequeBased T capacity)).Reachable s →
      VariantSafe (representsSequence T capacity) s) ∧
    ∀ s, (system ι (BoundedBufferListBased T capacity)).Reachable s →
      VariantSafe (representsSequence T capacity) s :=
  ⟨fun _ hs => R.safe_of_reachable hs,
    fun _ hs => (representsSequence T capacity).safe_of_reachable hs,
    fun _ hs => (representsSequence T capacity).safe_of_reachable hs⟩

/-- One item is delivered, and a full container of one holds the next one. -/
theorem variants_safe_two : ∃ s, (s.data.mContainer.items = [8] ∧ s.popped = [7] ∧
      (s.pc 1).waitingOn .producer = true) ∧
    VariantSafe (ι := Fin 2) (representsSpaceOptimized ℕ 1) s := by
  let S := system (Fin 2) (BoundedBufferSpaceOptimized (spaceOptimized ℕ 1))
  obtain ⟨s, hs, hp⟩ := S.exists_reachable
    (p := fun s => s.data.mContainer.items = [8] ∧ s.popped = [7] ∧
      (s.pc 1).waitingOn .producer = true)
    [.call 0 (.push 7), .lock 0, .test 0 true, .update 0, .unlock 0, .call 1 .popSave, .lock 1,
      .test 1 true, .update 1, .unlock 1, .notify 1 none, .notify 0 none, .call 0 (.push 8),
      .lock 0, .test 0 true, .update 0, .unlock 0, .call 1 (.push 9), .lock 1, .test 1 false,
      .wait 1] (by decide)
  exact ⟨s, hp, (variants_safe (representsSpaceOptimized ℕ 1)).1 s hs⟩

end Buffers

end ThreadTests.BoundedBuffer
