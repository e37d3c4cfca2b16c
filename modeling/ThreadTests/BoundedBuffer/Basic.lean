import ThreadTests.BoundedBuffer.Monitor

/-!
# `bounded_buffer`

The mutex guards `m_unread` and the container. A push puts its item in front, and a pop lowers
`m_unread` and copies the entry at that index. `boost::circular_buffer` is a parameter with its
operations and what is relied on of them (`CircularBuffer`); lists that are cut to the capacity are
one (`CircularList`).
-/

namespace ThreadTests.BoundedBuffer

universe u v w

/-- `boost::circular_buffer`, constructed with the capacity. -/
class CircularBuffer (C : Type w) (T : outParam (Type v)) (capacity : outParam ℕ) where
  empty : C
  pushFront : C → T → C
  /-- `operator[]`; no result when the index is out of range. -/
  at? : C → ℕ → Option T
  size : C → ℕ
  /-- The elements, the front first. -/
  items : C → List T
  items_empty : items empty = []
  /-- The element is prepended, and a full container drops its last element. -/
  items_pushFront : ∀ c item, items (pushFront c item) = (item :: items c).take capacity
  /-- The index counts from the front. -/
  at?_eq : ∀ c n, at? c n = (items c)[n]?
  size_eq : ∀ c, size c = (items c).length

namespace CircularBuffer

variable {C : Type w} {T : Type v} {capacity n : ℕ} [CircularBuffer C T capacity] {c : C} {item : T}

/-- With room for `n` entries and one more, a push in front keeps the first `n`. -/
theorem take_pushFront (c : C) (hn : n < capacity) (item : T) :
    (items (pushFront c item)).take (n + 1) = item :: (items c).take n := by
  rw [items_pushFront, List.take_take, Nat.min_eq_left hn, List.take_succ_cons]

theorem take_succ (hitem : at? c n = some item) :
    (items c).take (n + 1) = (items c).take n ++ [item] := by
  rw [List.take_add_one, ← at?_eq, hitem]
  rfl

theorem exists_at? (hn : n < size c) : ∃ item, at? c n = some item := by
  rw [size_eq] at hn
  exact ⟨_, (at?_eq c n).trans (List.getElem?_eq_getElem hn)⟩

theorem size_pushFront (c : C) (item : T) :
    size (pushFront c item) = min capacity (size c + 1) := by
  rw [size_eq, size_eq, items_pushFront, List.length_take, List.length_cons]

end CircularBuffer

/-- A list that is cut to the capacity. -/
structure CircularList (T : Type v) (capacity : ℕ) where
  items : List T
  le : items.length ≤ capacity
  deriving DecidableEq

instance (T : Type v) (capacity : ℕ) : CircularBuffer (CircularList T capacity) T capacity where
  empty := ⟨[], Nat.zero_le _⟩
  pushFront c item := ⟨(item :: c.items).take capacity, List.length_take_le _ _⟩
  at? c n := c.items[n]?
  size c := c.items.length
  items := CircularList.items
  items_empty := rfl
  items_pushFront _ _ := rfl
  at?_eq _ _ := rfl
  size_eq _ := rfl

/-- What the mutex of `bounded_buffer` guards. -/
structure Buffer (C : Type w) where
  mUnread : ℕ
  mContainer : C

namespace Buffer

variable {C : Type w} {T : Type v} {capacity : ℕ}

def isNotEmpty (b : Buffer C) : Bool := decide (0 < b.mUnread)

/-- `m_unread < m_container.capacity()` -/
def isNotFull [CircularBuffer C T capacity] (b : Buffer C) : Bool := decide (b.mUnread < capacity)

variable [CircularBuffer C T capacity]

/-- The predicate of a side. -/
def ready (b : Buffer C) : Side → Bool
  | .producer => b.isNotFull
  | .consumer => b.isNotEmpty

/-- The critical part of a call; no result when the index is out of range. -/
def update (b : Buffer C) : Op T → Option (Buffer C × Option T)
  | .push item => some (⟨b.mUnread + 1, CircularBuffer.pushFront b.mContainer item⟩, none)
  | .pop | .popSave =>
    -- `m_container[--m_unread]`
    match b.mUnread with
    | 0 => none
    | unread + 1 =>
      (CircularBuffer.at? b.mContainer unread).map fun item => (⟨unread, b.mContainer⟩, some item)

instance : Guarded (Buffer C) T where
  init := ⟨0, CircularBuffer.empty⟩
  ready := ready
  update := update

/-- An update puts an item in front, or takes out the oldest unread one. -/
theorem update_cases {b b' : Buffer C} {op : Op T} {taken : Option T}
    (hu : b.update op = some (b', taken)) :
    (∃ item, op = .push item ∧ taken = none ∧
      b' = ⟨b.mUnread + 1, CircularBuffer.pushFront b.mContainer item⟩) ∨
    (op.side = .consumer ∧ ∃ unread item, b.mUnread = unread + 1 ∧
      CircularBuffer.at? b.mContainer unread = some item ∧ taken = some item ∧
      b' = ⟨unread, b.mContainer⟩) := by
  cases op with
  | push item =>
    cases hu
    exact .inl ⟨item, rfl, rfl, rfl⟩
  | pop | popSave =>
    simp only [update] at hu
    split at hu
    · cases hu
    · obtain ⟨item, hitem, heq⟩ := Option.map_eq_some_iff.1 hu
      cases heq
      exact .inr ⟨rfl, _, item, ‹_›, hitem, rfl, rfl⟩

/-- The item of a pop, where there is one. -/
theorem update_pop {b : Buffer C} {op : Op T} {unread : ℕ} {item : T} (hop : op.side = .consumer)
    (hunread : b.mUnread = unread + 1)
    (hitem : CircularBuffer.at? b.mContainer unread = some item) :
    b.update op = some (⟨unread, b.mContainer⟩, some item) := by
  cases op with
  | push => cases hop
  | pop | popSave => simp only [update, hunread, hitem, Option.map_some]

end Buffer

namespace State

variable {ι : Type u} {C : Type w} {T : Type v} {capacity : ℕ} [CircularBuffer C T capacity]
  {s t : State ι T (Buffer C)} {op : Op T}

theorem ready_producer : s.ready .producer = true ↔ s.data.mUnread < capacity :=
  decide_eq_true_iff (p := s.data.mUnread < capacity)

theorem ready_consumer : s.ready .consumer = true ↔ 0 < s.data.mUnread :=
  decide_eq_true_iff (p := 0 < s.data.mUnread)

/-- An update puts an item in front, or takes out the oldest unread one. -/
theorem update_cases (hu : s.update op = some t) :
    (∃ item, op = .push item ∧ t = { s with
      data := ⟨s.data.mUnread + 1, CircularBuffer.pushFront s.data.mContainer item⟩
      pushed := s.pushed ++ [item] }) ∨
    (op.side = .consumer ∧ ∃ unread item, s.data.mUnread = unread + 1 ∧
      CircularBuffer.at? s.data.mContainer unread = some item ∧
      t = { s with data := ⟨unread, s.data.mContainer⟩, popped := s.popped ++ [item] }) := by
  obtain ⟨data, taken, hdata, rfl⟩ := update_eq_some.1 hu
  rcases Buffer.update_cases hdata with ⟨item, rfl, rfl, rfl⟩ | ⟨hop, unread, item, h, h', rfl, rfl⟩
  · refine .inl ⟨item, rfl, ?_⟩
    rw [Option.toList_none, List.append_nil]
    rfl
  · refine .inr ⟨hop, unread, item, h, h', ?_⟩
    rw [Op.item_eq_none hop, Option.toList_none, List.append_nil]
    rfl

/-- A pop takes the item at its index. -/
theorem update_pop {unread : ℕ} {item : T} (hop : op.side = .consumer)
    (hunread : s.data.mUnread = unread + 1)
    (hitem : CircularBuffer.at? s.data.mContainer unread = some item) :
    s.update op =
      some { s with data := ⟨unread, s.data.mContainer⟩, popped := s.popped ++ [item] } := by
  refine update_eq_some.2 ⟨_, _, Buffer.update_pop hop hunread hitem, ?_⟩
  rw [Op.item_eq_none hop, Option.toList_none, List.append_nil]
  rfl

theorem update_push (s : State ι T (Buffer C)) (item : T) :
    s.update (.push item) = some { s with
      data := ⟨s.data.mUnread + 1, CircularBuffer.pushFront s.data.mContainer item⟩
      pushed := s.pushed ++ [item] } := by
  refine update_eq_some.2 ⟨_, _, rfl, ?_⟩
  rw [Option.toList_none, List.append_nil]
  rfl

end State

end ThreadTests.BoundedBuffer
