import ThreadTests.Core.Queue
import ThreadTests.Core.Residue
import ThreadTests.Core.Spsc
import Mathlib.Data.List.Nodup
import Mathlib.Logic.Function.Iterate

/-!
# The lock-free rings, call by call

`RingBufferSPSCLockFree` and `RingBufferSPSCLockFree2` run the same code over different counter
arithmetic (`Arith`): what is stored after an increment, the test for room, and the slot of a
counter. `Arith.tryPush` and `Arith.tryPop` are that code.

The counters only ever move by `increment`, so after `n` successful pushes `m_write` is
`Arith.count n`, whatever the arithmetic is. An arithmetic is `Faithful` for a capacity when its
tests are exact on the counts of a window and the slots of a window are distinct; then the calls
are those of the bounded queue (`Represents.tryPush`, `Represents.tryPop`).
-/

namespace ThreadTests

universe u v

/-- What the two rings differ in, on a counter type `κ`. -/
structure Arith (κ : Type u) where
  /-- What the constructor stores in the counters. -/
  zero : κ
  /-- The counter stored after `increment`, conversions included. -/
  increment : κ → κ
  /-- `current_tail - m_read <= m_capacity - 1` -/
  room : κ → κ → Bool
  /-- The index into the buffer. -/
  slot : κ → ℕ

/-- The members that change: the counters and the buffer. -/
structure Ring (κ : Type u) (T : Type v) where
  mWrite : κ
  mRead : κ
  mBuffer : ℕ → T

namespace Arith

variable {κ : Type u} {T : Type v} {a : Arith κ}

/-- A ring after construction; `new T[m_capacity]` leaves what it leaves in the buffer. -/
def new (a : Arith κ) (mBuffer : ℕ → T) : Ring κ T := ⟨a.zero, a.zero, mBuffer⟩

def tryPush (a : Arith κ) (val : T) (r : Ring κ T) : Bool × Ring κ T :=
  let currentTail := r.mWrite
  let nextTail := a.increment currentTail
  if a.room currentTail r.mRead then
    (true, { r with
      mBuffer := Function.update r.mBuffer (a.slot currentTail) val
      mWrite := nextTail })
  else (false, r)

/-- The out parameter is set exactly when the call returns true. -/
def tryPop [DecidableEq κ] (a : Arith κ) (r : Ring κ T) : Option T × Ring κ T :=
  let currentHead := r.mRead
  if currentHead ≠ r.mWrite then
    (some (r.mBuffer (a.slot currentHead)), { r with mRead := a.increment currentHead })
  else (none, r)

/-! ## Counters and counts -/

/-- The counter after `n` increments. -/
def count (a : Arith κ) (n : ℕ) : κ := a.increment^[n] a.zero

@[simp] theorem count_zero : a.count 0 = a.zero := rfl

@[simp] theorem increment_count (n : ℕ) : a.increment (a.count n) = a.count (n + 1) :=
  (Function.iterate_succ_apply' a.increment n a.zero).symm

/-- The slots of a window of `cap` counts are distinct. -/
def Separates (a : Arith κ) (cap : ℕ) (L : LowerSet ℕ) : Prop :=
  ∀ i j, i < j → j < i + cap → j ∈ L → a.slot (a.count i) ≠ a.slot (a.count j)

/-- Writing at the next index keeps the values of a window. -/
theorem Separates.holds_update {cap m : ℕ} {L : LowerSet ℕ} {q : List T} {mBuffer : ℕ → T}
    {val : T} (ha : a.Separates cap L) (hlt : q.length < cap) (hL : m + q.length ∈ L)
    (h : Holds (fun i => mBuffer (a.slot (a.count i))) m q) :
    Holds (fun i => Function.update mBuffer (a.slot (a.count (m + q.length))) val
      (a.slot (a.count i))) m q :=
  h.congr fun i hm hi => Function.update_of_ne (ha i _ hi (by omega) hL) _ _

/-- The ring holds the waiting values `q`, after `n` pushes and `m` pops. -/
structure Represents (a : Arith κ) (r : Ring κ T) (n m : ℕ) (q : List T) : Prop where
  write : r.mWrite = a.count n
  read : r.mRead = a.count m
  length : n = m + q.length
  holds : Holds (fun i => r.mBuffer (a.slot (a.count i))) m q

theorem Represents.new (mBuffer : ℕ → T) : a.Represents (a.new mBuffer) 0 0 [] :=
  ⟨rfl, rfl, rfl, Holds.nil⟩

variable [DecidableEq κ]

/-- The tests of the ring, on counts. -/
def protocol (a : Arith κ) (cap : ℕ) : Spsc.Protocol where
  cap := cap
  room n m := a.room (a.count n) (a.count m)
  more n m := decide (a.count m ≠ a.count n)

/-- The counters serve a ring of `cap` slots while the number of pushes lies in `L`: the tests are
exact, and the slots of a window are distinct. -/
structure Faithful (a : Arith κ) (cap : ℕ) (L : LowerSet ℕ) : Prop where
  tests : (a.protocol cap).Exact L
  slots : a.Separates cap L

/-- Slots that are the counts modulo the capacity serve forever, if the tests are right on a window
of counts. -/
theorem faithful_of_mod {cap : ℕ}
    (hroom : ∀ {n m}, m ≤ n → n ≤ m + cap →
      (a.room (a.count n) (a.count m) = true ↔ n < m + cap))
    (hne : ∀ {n m}, m < n → n ≤ m + cap → a.count m ≠ a.count n)
    (hslot : ∀ n, a.slot (a.count n) = n % cap) : a.Faithful cap ⊤ where
  tests :=
    { room_lt := fun hmn hn _ hr => (hroom hmn hn).1 hr
      more_ne := fun {n m} hm => by
        rintro rfl
        simp [protocol] at hm
      room_of_lt := fun hmn _ hlt => (hroom hmn (Nat.le_of_lt hlt)).2 hlt
      more_of_ne := fun {n m} hmn hn _ hnm => by
        simpa only [protocol, decide_eq_true_eq] using
          hne (Nat.lt_of_le_of_ne hmn (Ne.symm hnm)) hn }
  slots i j hij hj _ := by
    rw [hslot, hslot]
    intro heq
    rcases Residue.mod_window (Nat.le_of_lt hij) hj with h | h <;> omega

namespace Represents

variable {r : Ring κ T} {n m cap : ℕ} {L : LowerSet ℕ} {q : List T} {x : T}

/-- While there is room a push succeeds, and the value joins the queue. -/
theorem tryPush (ha : a.Faithful cap L) (h : a.Represents r n m q) (hL : n ∈ L)
    (hlt : q.length < cap) (val : T) :
    (a.tryPush val r).1 = true ∧ a.Represents (a.tryPush val r).2 (n + 1) m (q ++ [val]) := by
  have hlen := h.length
  have hroom : a.room r.mWrite r.mRead = true := by
    rw [h.write, h.read]
    exact ha.tests.room_of_lt (by omega) hL (show n < m + cap by omega)
  simp only [Arith.tryPush, hroom, ite_true, true_and]
  refine ⟨by rw [h.write, increment_count], h.read, by simp; omega, ?_⟩
  rw [h.write, hlen]
  exact (ha.slots.holds_update hlt (hlen ▸ hL) h.holds).snoc (Function.update_self ..)

/-- A full ring refuses. -/
theorem tryPush_full (ha : a.Faithful cap L) (h : a.Represents r n m q) (hL : n ∈ L)
    (hfull : q.length = cap) (val : T) : a.tryPush val r = (false, r) := by
  have hlen := h.length
  have hroom : a.room r.mWrite r.mRead ≠ true := by
    rw [h.write, h.read]
    intro hr
    have : n < m + cap := ha.tests.room_lt (by omega) (show n ≤ m + cap by omega) hL hr
    omega
  simp only [Arith.tryPush, hroom, Bool.false_eq_true, ite_false]

/-- A pop takes the value that has waited longest. -/
theorem tryPop (ha : a.Faithful cap L) (h : a.Represents r n m (x :: q)) (hL : n ∈ L)
    (hle : (x :: q).length ≤ cap) :
    (a.tryPop r).1 = some x ∧ a.Represents (a.tryPop r).2 n (m + 1) q := by
  have hlen := h.length
  rw [List.length_cons] at hlen hle
  have hmore : r.mRead ≠ r.mWrite := by
    rw [h.read, h.write]
    simpa [protocol] using ha.tests.more_of_ne (n := n) (m := m) (by omega)
      (show n ≤ m + cap by omega) hL (by omega)
  have hhead : r.mBuffer (a.slot r.mRead) = x := by
    rw [h.read]
    exact h.holds.head
  simp only [Arith.tryPop, hmore, ne_eq, not_false_eq_true, ite_true, hhead, true_and]
  exact ⟨h.write, by rw [h.read, increment_count], by omega, h.holds.tail⟩

/-- An empty ring has nothing to give. -/
theorem tryPop_empty (h : a.Represents r n m []) : a.tryPop r = (none, r) := by
  have hlen := h.length
  rw [List.length_nil, Nat.add_zero] at hlen
  have hmore : r.mRead = r.mWrite := by rw [h.read, h.write, hlen]
  simp [Arith.tryPop, hmore]

end Represents

/-! ## Sequences of calls -/

inductive Call (T : Type v) where
  | tryPush (val : T)
  | tryPop
  deriving DecidableEq, Repr

/-- What a call shows: the boolean it returns, the element a pop writes, and the slot it
accesses. -/
structure Outcome (T : Type v) where
  returned : Bool
  element : Option T
  slot : Option ℕ
  deriving DecidableEq, Repr

def call (a : Arith κ) (c : Call T) (r : Ring κ T) : Outcome T × Ring κ T :=
  match c with
  | .tryPush val =>
    let res := a.tryPush val r
    (⟨res.1, none, if res.1 then some (a.slot r.mWrite) else none⟩, res.2)
  | .tryPop =>
    let res := a.tryPop r
    (⟨res.1.isSome, res.1, if res.1.isSome then some (a.slot r.mRead) else none⟩, res.2)

/-- The outcomes of a sequence of calls. -/
def outcomes (a : Arith κ) : List (Call T) → Ring κ T → List (Outcome T)
  | [], _ => []
  | c :: cs, r => (a.call c r).1 :: a.outcomes cs (a.call c r).2

/-- A ring with what its calls have done so far: the values of the successful pushes and of the
successful pops, in order, and the slots the pushes wrote. -/
structure Session (κ : Type u) (T : Type v) where
  ring : Ring κ T
  pushed : List T
  popped : List T
  slots : List ℕ

/-- One call. -/
def Session.call (a : Arith κ) (s : Session κ T) (c : Call T) : Session κ T :=
  match c, a.call c s.ring with
  | .tryPush val, (o, r) =>
    if o.returned then
      { s with ring := r, pushed := s.pushed ++ [val], slots := s.slots ++ o.slot.toList }
    else { s with ring := r }
  | .tryPop, (o, r) => { s with ring := r, popped := s.popped ++ o.element.toList }

/-- The calls `cs` on a new ring. -/
def session (a : Arith κ) (mBuffer : ℕ → T) (cs : List (Call T)) : Session κ T :=
  cs.foldl (Session.call a) ⟨a.new mBuffer, [], [], []⟩

/-- The `i`-th successful push wrote the slot of the count `i`, and the counters are those of the
numbers of successful calls. This holds for every arithmetic. -/
structure Session.Counted (a : Arith κ) (s : Session κ T) : Prop where
  write : s.ring.mWrite = a.count s.pushed.length
  read : s.ring.mRead = a.count s.popped.length
  slots : s.slots = (List.range s.pushed.length).map fun i => a.slot (a.count i)

theorem Session.Counted.call {s : Session κ T} (h : s.Counted a) (c : Call T) :
    (s.call a c).Counted a := by
  cases c with
  | tryPush val =>
    simp only [Session.call, Arith.call, Arith.tryPush]
    split
    · refine ⟨?_, ?_, ?_⟩
      · simp [h.write]
      · simpa using h.read
      · simp [h.slots, h.write, List.range_succ]
    · exact h
  | tryPop =>
    simp only [Session.call, Arith.call, Arith.tryPop]
    split
    · refine ⟨h.write, ?_, h.slots⟩
      simp [h.read]
    · exact ⟨h.write, by simpa using h.read, h.slots⟩

theorem Session.Counted.foldl {s : Session κ T} (h : s.Counted a) (cs : List (Call T)) :
    (cs.foldl (Session.call a) s).Counted a := by
  induction cs generalizing s with
  | nil => exact h
  | cons c cs ih => exact ih (h.call c)

theorem session_counted (mBuffer : ℕ → T) (cs : List (Call T)) :
    (a.session mBuffer cs).Counted a :=
  Session.Counted.foldl ⟨rfl, rfl, rfl⟩ cs

theorem session_append (mBuffer : ℕ → T) (cs ds : List (Call T)) :
    a.session mBuffer (cs ++ ds) = ds.foldl (Session.call a) (a.session mBuffer cs) :=
  List.foldl_append

/-- How many values are unread. -/
def Session.unread (s : Session κ T) : ℕ := s.pushed.length - s.popped.length

/-- A pop that succeeds has found the counters different, so the numbers are. -/
theorem Session.Counted.popped_le {s : Session κ T} (h : s.Counted a)
    (hle : s.popped.length ≤ s.pushed.length) (c : Call T) :
    (s.call a c).popped.length ≤ (s.call a c).pushed.length := by
  cases c with
  | tryPush val =>
    simp only [Session.call, Arith.call, Arith.tryPush]
    split
    · simpa using Nat.le_succ_of_le hle
    · exact hle
  | tryPop =>
    by_cases hmore : s.ring.mRead = s.ring.mWrite
    · simpa [Session.call, Arith.call, Arith.tryPop, hmore] using hle
    · have hlt : s.popped.length < s.pushed.length := by
        refine Nat.lt_of_le_of_ne hle ?_
        intro heq
        exact hmore (by rw [h.read, h.write, heq])
      simpa [Session.call, Arith.call, Arith.tryPop, hmore] using Nat.succ_le_of_lt hlt

theorem session_popped_le (mBuffer : ℕ → T) (cs : List (Call T)) :
    (a.session mBuffer cs).popped.length ≤ (a.session mBuffer cs).pushed.length := by
  induction cs using List.reverseRecOn with
  | nil => exact Nat.le_refl _
  | append_singleton cs c ih =>
    rw [session_append]
    exact (session_counted mBuffer cs).popped_le ih c

/-- The session is a run of the bounded queue. -/
structure Session.Queued (a : Arith κ) (cap : ℕ) (s : Session κ T) (q : List T) : Prop where
  ring : a.Represents s.ring s.pushed.length s.popped.length q
  split : s.pushed = s.popped ++ q
  bound : q.length ≤ cap

theorem Session.Queued.call {cap : ℕ} (ha : a.Faithful cap ⊤) {s : Session κ T} {q : List T}
    (h : s.Queued a cap q) (c : Call T) : ∃ q', (s.call a c).Queued a cap q' := by
  cases c with
  | tryPush val =>
    rcases Nat.lt_or_eq_of_le h.bound with hlt | hfull
    · obtain ⟨hret, hrep⟩ := h.ring.tryPush ha trivial hlt val
      refine ⟨q ++ [val], ?_⟩
      simp only [Session.call, Arith.call, hret, ite_true]
      exact ⟨by simpa using hrep, by simp [h.split], by simpa using Nat.succ_le_of_lt hlt⟩
    · refine ⟨q, ?_⟩
      simp only [Session.call, Arith.call, h.ring.tryPush_full ha trivial hfull val,
        Bool.false_eq_true, ite_false]
      exact h
  | tryPop =>
    cases q with
    | nil =>
      refine ⟨[], ?_⟩
      simp only [Session.call, Arith.call, h.ring.tryPop_empty, Option.toList_none,
        List.append_nil]
      exact h
    | cons x q =>
      obtain ⟨hret, hrep⟩ := h.ring.tryPop ha trivial h.bound
      refine ⟨q, ?_⟩
      simp only [Session.call, Arith.call, hret, Option.toList_some]
      exact ⟨by simpa using hrep, by simp [h.split], Nat.le_of_succ_le h.bound⟩

/-- **With faithful counters the calls are those of the bounded queue**, however long. -/
theorem session_queued {cap : ℕ} (ha : a.Faithful cap ⊤) (mBuffer : ℕ → T) (cs : List (Call T)) :
    ∃ q, (a.session mBuffer cs).Queued a cap q := by
  suffices ∀ s : Session κ T, (∃ q, s.Queued a cap q) →
      ∃ q, (cs.foldl (Session.call a) s).Queued a cap q from
    this _ ⟨[], Represents.new mBuffer, rfl, Nat.zero_le _⟩
  induction cs with
  | nil => exact fun s h => h
  | cons c cs ih => exact fun s ⟨q, h⟩ => ih _ (h.call ha c)

omit [DecidableEq κ] in
/-- The waiting values occupy distinct slots when the counts of the window have distinct slots. -/
theorem Session.Counted.nodup_iff {s : Session κ T} (h : s.Counted a) :
    (s.slots.drop s.popped.length).Nodup ↔ ∀ i j, s.popped.length ≤ i → i < j →
      j < s.pushed.length → a.slot (a.count i) ≠ a.slot (a.count j) := by
  rw [h.slots, List.nodup_iff_getElem?_ne_getElem?]
  simp only [List.length_drop, List.length_map, List.length_range, List.getElem?_drop,
    List.getElem?_map]
  constructor
  · intro hne i j hi hij hj heq
    refine hne (i - s.popped.length) (j - s.popped.length) (by omega) (by omega) ?_
    rw [Nat.add_sub_cancel' hi, Nat.add_sub_cancel' (by omega),
      List.getElem?_range (by omega), List.getElem?_range hj]
    simp [heq]
  · intro hne i j hij hj heq
    rw [List.getElem?_range (by omega), List.getElem?_range (by omega)] at heq
    simp only [Option.map_some, Option.some.injEq] at heq
    exact hne _ _ (Nat.le_add_right _ i) (by omega) (by omega) heq

/-! ## Two unread values in one slot -/

theorem Session.Counted.call_push {s : Session κ T} (h : s.Counted a)
    (hroom : a.room (a.count s.pushed.length) (a.count s.popped.length) = true) (val : T) :
    s.call a (.tryPush val) =
      { ring := { s.ring with
          mBuffer := Function.update s.ring.mBuffer (a.slot (a.count s.pushed.length)) val
          mWrite := a.count (s.pushed.length + 1) }
        pushed := s.pushed ++ [val], popped := s.popped
        slots := s.slots ++ [a.slot (a.count s.pushed.length)] } := by
  simp [Session.call, Arith.call, Arith.tryPush, h.write, h.read, hroom]

theorem Session.Counted.call_pop {s : Session κ T} (h : s.Counted a)
    (hmore : a.count s.popped.length ≠ a.count s.pushed.length) :
    (s.call a .tryPop).pushed = s.pushed ∧ (s.call a .tryPop).popped =
      s.popped ++ [s.ring.mBuffer (a.slot (a.count s.popped.length))] := by
  simp [Session.call, Arith.call, Arith.tryPop, h.write, h.read, hmore]

/-- A push and a pop, `k` times. -/
def turns (x : T) (k : ℕ) : List (Call T) := (List.replicate k [.tryPush x, .tryPop]).flatten

/-- A ring that is empty again after each turn may turn as often as it likes. -/
theorem session_turns (hroom : ∀ n, a.room (a.count n) (a.count n) = true)
    (hmore : ∀ n, a.count n ≠ a.count (n + 1)) (mBuffer : ℕ → T) (x : T) (k : ℕ) :
    (a.session mBuffer (turns x k)).pushed = List.replicate k x ∧
      (a.session mBuffer (turns x k)).popped.length = k := by
  induction k with
  | zero => exact ⟨rfl, rfl⟩
  | succ k ih =>
    have hturns : turns x (k + 1) = turns x k ++ [.tryPush x, .tryPop] := by
      simp [turns, List.replicate_succ']
    rw [hturns, session_append, List.foldl_cons, List.foldl_cons, List.foldl_nil]
    have hs := session_counted (a := a) mBuffer (turns x k)
    revert ih hs
    generalize a.session mBuffer (turns x k) = s
    intro ⟨hpushed, hpopped⟩ hs
    have hlen : s.pushed.length = k := by rw [hpushed, List.length_replicate]
    have hpush := hs.call_push (by rw [hlen, hpopped]; exact hroom k) x
    have hpop := (hs.call (.tryPush x)).call_pop (by
      rw [hpush]
      simpa [hlen, hpopped] using hmore k)
    rw [hpop.1, hpop.2, hpush]
    exact ⟨by simp [hpushed, List.replicate_succ'], by simp [hpopped]⟩

theorem Session.Counted.burst {s : Session κ T} (h : s.Counted a) (x : T) (r : ℕ)
    (hroom : ∀ j < r, a.room (a.count (s.pushed.length + j)) (a.count s.popped.length) = true) :
    ((List.replicate r (Call.tryPush x)).foldl (Session.call a) s).pushed =
        s.pushed ++ List.replicate r x ∧
      ((List.replicate r (Call.tryPush x)).foldl (Session.call a) s).popped = s.popped := by
  induction r generalizing s with
  | zero => simp
  | succ r ih =>
    have hpush := h.call_push (hroom 0 (Nat.succ_pos _)) x
    have hrest := ih (h.call (.tryPush x)) (fun j hj => by
      rw [hpush]
      simpa [Nat.add_assoc, Nat.add_comm 1 j] using hroom (j + 1) (Nat.succ_lt_succ hj))
    rw [List.replicate_succ, List.foldl_cons, hrest.1, hrest.2, hpush]
    simp [List.replicate_succ]

/-- A new ring that has room takes one push after the other. -/
theorem session_burst (mBuffer : ℕ → T) (x : T) (r : ℕ)
    (hroom : ∀ j < r, a.room (a.count j) (a.count 0) = true) :
    (a.session mBuffer (List.replicate r (.tryPush x))).pushed.length = r ∧
      (a.session mBuffer (List.replicate r (.tryPush x))).popped = [] := by
  have hnew : Session.Counted a (a.session mBuffer ([] : List (Call T))) :=
    session_counted mBuffer []
  obtain ⟨hpushed, hpopped⟩ := hnew.burst x r (fun j hj => by simpa [session] using hroom j hj)
  rw [← session_append, List.nil_append] at hpushed hpopped
  exact ⟨by rw [hpushed]; simp [session], hpopped⟩

/-- When the counts `k` and `k + r` of one window share a slot, `k` turns and `r + 1` pushes put
two unread values into that slot, and the next pop delivers the later one. -/
theorem exists_overwrite (hroom : ∀ n, a.room (a.count n) (a.count n) = true)
    (hmore : ∀ n, a.count n ≠ a.count (n + 1)) {k r : ℕ} (hr : 0 < r)
    (hwin : ∀ j ≤ r, a.room (a.count (k + j)) (a.count k) = true)
    (hne : a.count k ≠ a.count (k + r + 1))
    (hslot : a.slot (a.count k) = a.slot (a.count (k + r))) (mBuffer : ℕ → T) (x y : T) :
    ∃ cs : List (Call T),
      ¬ ((a.session mBuffer cs).slots.drop (a.session mBuffer cs).popped.length).Nodup ∧
      (a.session mBuffer (cs ++ [.tryPop])).pushed[k]? = some x ∧
      (a.session mBuffer (cs ++ [.tryPop])).popped[k]? = some y := by
  obtain ⟨hturned, hpopped⟩ := session_turns hroom hmore mBuffer x k
  have hs := session_counted (a := a) mBuffer (turns x k)
  refine ⟨turns x k ++ (List.replicate r (.tryPush x) ++ [.tryPush y]), ?_⟩
  simp only [session_append, List.foldl_append, List.foldl_cons, List.foldl_nil]
  generalize a.session mBuffer (turns x k) = s at *
  have hlen : s.pushed.length = k := by rw [hturned, List.length_replicate]
  -- the first `r` pushes of the burst
  obtain ⟨hpushed, hsame⟩ := hs.burst x r (fun j hj => by
    rw [hlen, hpopped]
    exact hwin j (Nat.le_of_lt hj))
  have hs := hs.foldl (List.replicate r (.tryPush x))
  generalize (List.replicate r (Call.tryPush x)).foldl (Session.call a) s = t at *
  have hpopped' : t.popped.length = k := by rw [hsame, hpopped]
  have hlen' : t.pushed.length = k + r := by simp [hpushed, hlen]
  -- the push that overwrites
  have hlast := hs.call_push (by rw [hlen', hpopped']; exact hwin r (Nat.le_refl r)) y
  have hs := hs.call (.tryPush y)
  rw [hlast] at hs ⊢
  refine ⟨?_, ?_, ?_⟩
  · rw [hs.nodup_iff]
    intro hdistinct
    exact hdistinct k (k + r) (Nat.le_of_eq hpopped') (by omega) (by simp [hlen']) hslot
  · rw [(hs.call_pop (by simpa [hpopped', hlen'] using hne)).1,
      List.getElem?_append_left (by omega), hpushed, hturned]
    simp [hr]
  · rw [(hs.call_pop (by simpa [hpopped', hlen'] using hne)).2]
    simp [hpopped', hlen', hslot]

end Arith

end ThreadTests
