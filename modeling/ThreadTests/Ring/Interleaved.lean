import ThreadTests.Ring.Basic

/-!
# The lock-free rings under a scheduler

One producer thread makes `tryPush` calls and one consumer thread makes `tryPop` calls. A call is
cut at its accesses to shared memory: the load of the own counter, the load of the other counter
and the test, the access to the slot, and the store of the own counter. The scheduler takes the
next step of either thread, in any order; steps are sequentially consistent.

Forgetting the values, a run is one of the control protocol (`control`), which bounds the window.
With the window bounded, the slots hold the waiting values and no slot in use is written
(`data_of_reachable`), so that a ring whose counters are faithful for every count is a bounded
queue (`refinement`).
-/

namespace ThreadTests

universe u v

variable {κ : Type u} {T : Type v}

/-- Where the producer stands in `tryPush`, with the local variables of the call. -/
inductive PushPc (κ : Type u) (T : Type v) where
  | idle
  /-- `m_write` is loaded and incremented. -/
  | loaded (val : T) (currentTail nextTail : κ)
  /-- The test has succeeded. -/
  | passed (val : T) (currentTail nextTail : κ)
  /-- The slot is written. -/
  | written (val : T) (currentTail nextTail : κ)
  deriving DecidableEq

/-- Where the consumer stands in `tryPop`. -/
inductive PopPc (κ : Type u) (T : Type v) where
  | idle
  | loaded (currentHead : κ)
  | passed (currentHead : κ)
  /-- The slot is read. -/
  | copied (currentHead : κ) (element : T)
  deriving DecidableEq

/-- The ring, the two threads, and what the calls that returned true have done, in order: the
values pushed, the values popped, and the slots the pushes wrote. -/
structure Threads (κ : Type u) (T : Type v) extends Ring κ T where
  producer : PushPc κ T
  consumer : PopPc κ T
  pushed : List T
  popped : List T
  slots : List ℕ

/-- The steps of the two threads; a test carries its outcome, and a test that fails ends the call
with `false`. -/
inductive Step (T : Type v) where
  | pushLoad (val : T)
  | pushTest (room : Bool)
  | pushWrite
  | pushStore
  | popLoad
  | popTest (more : Bool)
  | popRead
  | popStore
  deriving DecidableEq, Repr

namespace Arith

section Model

variable [DecidableEq κ]

def step (a : Arith κ) (s : Threads κ T) : Step T → Option (Threads κ T)
  | .pushLoad val =>
    match s.producer with
    | .idle => some { s with producer := .loaded val s.mWrite (a.increment s.mWrite) }
    | _ => none
  | .pushTest room =>
    match s.producer with
    | .loaded val tail next =>
      if a.room tail s.mRead = room then
        some { s with producer := if room then .passed val tail next else .idle }
      else none
    | _ => none
  | .pushWrite =>
    match s.producer with
    | .passed val tail next =>
      some { s with
        mBuffer := Function.update s.mBuffer (a.slot tail) val
        producer := .written val tail next }
    | _ => none
  | .pushStore =>
    match s.producer with
    | .written val tail next =>
      some { s with
        mWrite := next, producer := .idle
        pushed := s.pushed ++ [val], slots := s.slots ++ [a.slot tail] }
    | _ => none
  | .popLoad =>
    match s.consumer with
    | .idle => some { s with consumer := .loaded s.mRead }
    | _ => none
  | .popTest more =>
    match s.consumer with
    | .loaded head =>
      if decide (head ≠ s.mWrite) = more then
        some { s with consumer := if more then .passed head else .idle }
      else none
    | _ => none
  | .popRead =>
    match s.consumer with
    | .passed head => some { s with consumer := .copied head (s.mBuffer (a.slot head)) }
    | _ => none
  | .popStore =>
    match s.consumer with
    | .copied head element =>
      some { s with
        mRead := a.increment head, consumer := .idle, popped := s.popped ++ [element] }
    | _ => none

/-- The steps, each with what it needs and what it changes. -/
inductive Moves (a : Arith κ) (s : Threads κ T) : Step T → Threads κ T → Prop
  | pushLoad {val} (h : s.producer = .idle) :
    Moves a s (.pushLoad val)
      { s with producer := .loaded val s.mWrite (a.increment s.mWrite) }
  | pushTest {val tail next room} (h : s.producer = .loaded val tail next)
    (hr : a.room tail s.mRead = room) :
    Moves a s (.pushTest room)
      { s with producer := if room then .passed val tail next else .idle }
  | pushWrite {val tail next} (h : s.producer = .passed val tail next) :
    Moves a s .pushWrite
      { s with
        mBuffer := Function.update s.mBuffer (a.slot tail) val
        producer := .written val tail next }
  | pushStore {val tail next} (h : s.producer = .written val tail next) :
    Moves a s .pushStore
      { s with
        mWrite := next, producer := .idle
        pushed := s.pushed ++ [val], slots := s.slots ++ [a.slot tail] }
  | popLoad (h : s.consumer = .idle) : Moves a s .popLoad { s with consumer := .loaded s.mRead }
  | popTest {head more} (h : s.consumer = .loaded head) (hm : decide (head ≠ s.mWrite) = more) :
    Moves a s (.popTest more) { s with consumer := if more then .passed head else .idle }
  | popRead {head} (h : s.consumer = .passed head) :
    Moves a s .popRead { s with consumer := .copied head (s.mBuffer (a.slot head)) }
  | popStore {head element} (h : s.consumer = .copied head element) :
    Moves a s .popStore
      { s with mRead := a.increment head, consumer := .idle, popped := s.popped ++ [element] }

theorem moves_of_step {a : Arith κ} {s t : Threads κ T} {e : Step T}
    (hst : a.step s e = some t) : a.Moves s e t := by
  cases e with
  | pushLoad val =>
    cases h : s.producer <;> simp only [step, h, reduceCtorEq] at hst
    cases hst
    exact .pushLoad h
  | pushTest room =>
    cases h : s.producer <;> simp only [step, h, reduceCtorEq] at hst
    obtain ⟨hr, ⟨⟩⟩ := Option.ite_none_right_eq_some.1 hst
    exact .pushTest h hr
  | pushWrite =>
    cases h : s.producer <;> simp only [step, h, reduceCtorEq] at hst
    cases hst
    exact .pushWrite h
  | pushStore =>
    cases h : s.producer <;> simp only [step, h, reduceCtorEq] at hst
    cases hst
    exact .pushStore h
  | popLoad =>
    cases h : s.consumer <;> simp only [step, h, reduceCtorEq] at hst
    cases hst
    exact .popLoad h
  | popTest more =>
    cases h : s.consumer <;> simp only [step, h, reduceCtorEq] at hst
    obtain ⟨hm, ⟨⟩⟩ := Option.ite_none_right_eq_some.1 hst
    exact .popTest h hm
  | popRead =>
    cases h : s.consumer <;> simp only [step, h, reduceCtorEq] at hst
    cases hst
    exact .popRead h
  | popStore =>
    cases h : s.consumer <;> simp only [step, h, reduceCtorEq] at hst
    cases hst
    exact .popStore h

/-- A new ring and two threads outside of calls. -/
def start (a : Arith κ) (mBuffer : ℕ → T) : Threads κ T where
  toRing := a.new mBuffer
  producer := .idle
  consumer := .idle
  pushed := []
  popped := []
  slots := []

def system (a : Arith κ) (mBuffer : ℕ → T) : System (Threads κ T) (Step T) where
  init := a.start mBuffer
  step := a.step

end Model

end Arith

namespace Threads

/-- The values published by a push and not yet released by a pop. -/
def unread (s : Threads κ T) : List T := s.pushed.drop s.popped.length

/-- The slots of these values. -/
def unreadSlots (s : Threads κ T) : List ℕ := s.slots.drop s.popped.length

end Threads

namespace PushPc

/-- `currentTail` and `nextTail`, once loaded. -/
def locals : PushPc κ T → Option (κ × κ)
  | .idle => none
  | .loaded _ tail next | .passed _ tail next | .written _ tail next => some (tail, next)

/-- The counter whose slot the producer writes: known from its test to its store. -/
def target : PushPc κ T → Option κ
  | .passed _ tail _ | .written _ tail _ => some tail
  | _ => none

def phase : PushPc κ T → Spsc.Phase
  | .idle => .idle
  | .loaded .. => .loaded
  | .passed .. | .written .. => .passed

end PushPc

namespace PopPc

/-- `currentHead`, once loaded. -/
def locals : PopPc κ T → Option κ
  | .idle => none
  | .loaded head | .passed head | .copied head _ => some head

def phase : PopPc κ T → Spsc.Phase
  | .idle => .idle
  | .loaded _ => .loaded
  | .passed _ | .copied .. => .passed

end PopPc

namespace Arith

/-! ## The counters count -/

/-- The counters are those of the numbers of completed calls, and a thread's copy of its own
counter is current. -/
structure Coupled (a : Arith κ) (s : Threads κ T) : Prop where
  write : s.mWrite = a.count s.pushed.length
  read : s.mRead = a.count s.popped.length
  producer : ∀ {tail next}, s.producer.locals = some (tail, next) →
    tail = s.mWrite ∧ next = a.increment s.mWrite
  consumer : ∀ {head}, s.consumer.locals = some head → head = s.mRead
  slots : s.slots = (List.range s.pushed.length).map fun i => a.slot (a.count i)

variable {a : Arith κ} {mBuffer : ℕ → T} {s t : Threads κ T} {e : Step T}

theorem Coupled.start : Coupled a (a.start mBuffer) := ⟨rfl, rfl, nofun, nofun, rfl⟩

variable [DecidableEq κ]

theorem Coupled.moves (hst : a.Moves s e t) (h : Coupled a s) : Coupled a t := by
  obtain ⟨hw, hr, hp, hc, hs⟩ := h
  cases hst with
  | pushLoad =>
    refine ⟨hw, hr, ?_, hc, hs⟩
    intro tail next hl
    cases hl
    exact ⟨rfl, rfl⟩
  | @pushTest _ _ _ room h =>
    refine ⟨hw, hr, fun hl => hp ?_, hc, hs⟩
    cases room with
    | false => cases hl
    | true => rwa [h]
  | pushWrite h => exact ⟨hw, hr, fun hl => hp (by rwa [h]), hc, hs⟩
  | pushStore h =>
    obtain ⟨htail, hnext⟩ := hp (by rw [h]; rfl)
    refine ⟨?_, hr, nofun, hc, ?_⟩
    · simp [hnext, hw]
    · simp [hs, htail, hw, List.range_succ]
  | popLoad =>
    refine ⟨hw, hr, hp, ?_, hs⟩
    intro head hl
    cases hl
    rfl
  | @popTest _ more h =>
    refine ⟨hw, hr, hp, fun hl => hc ?_, hs⟩
    cases more with
    | false => cases hl
    | true => rwa [h]
  | popRead h => exact ⟨hw, hr, hp, fun hl => hc (by rwa [h]), hs⟩
  | popStore h =>
    have hhead := hc (by rw [h]; rfl)
    refine ⟨hw, ?_, hp, nofun, hs⟩
    simp [hhead, hr]

theorem coupled_of_reachable (h : (a.system mBuffer).Reachable s) : Coupled a s :=
  System.invariant (P := Coupled a) Coupled.start
    (fun _ hs hst => hs.moves (moves_of_step hst)) h

/-! ## The control of the ring -/

/-- A run without its values. -/
def control (s : Threads κ T) : Spsc.State where
  pushes := s.pushed.length
  pops := s.popped.length
  producer := s.producer.phase
  consumer := s.consumer.phase

/-- The access to a slot is no step of the control. -/
def controlEvent : Step T → Option Spsc.Event
  | .pushLoad _ => some .pushLoad
  | .pushTest room => some (.pushTest room)
  | .pushWrite => none
  | .pushStore => some .pushStore
  | .popLoad => some .popLoad
  | .popTest more => some (.popTest more)
  | .popRead => none
  | .popStore => some .popStore

theorem control_silent (hst : a.Moves s e t) (he : controlEvent e = none) :
    control t = control s := by
  cases hst with
  | pushWrite h => simp [control, h, PushPc.phase]
  | popRead h => simp [control, h, PopPc.phase]
  | _ => cases he

theorem control_visible {cap : ℕ} {d : Spsc.Event} (hc : Coupled a s) (hst : a.Moves s e t)
    (he : controlEvent e = some d) : (a.protocol cap).step (control s) d = some (control t) := by
  cases hst with
  | pushLoad h =>
    cases he
    simp [Spsc.Protocol.step, control, h, PushPc.phase]
  | @pushTest _ _ _ room h hr =>
    cases he
    obtain ⟨rfl, -⟩ := hc.producer (by rw [h]; rfl)
    rw [hc.write, hc.read] at hr
    cases room <;> simp [Spsc.Protocol.step, control, h, PushPc.phase, protocol, hr]
  | pushWrite => cases he
  | pushStore h =>
    cases he
    simp [Spsc.Protocol.step, control, h, PushPc.phase]
  | popLoad h =>
    cases he
    simp [Spsc.Protocol.step, control, h, PopPc.phase]
  | @popTest _ more h hm =>
    cases he
    obtain rfl := hc.consumer (by rw [h]; rfl)
    rw [hc.write, hc.read] at hm
    cases more <;> simp [Spsc.Protocol.step, control, h, PopPc.phase, protocol, ← hm]
  | popRead => cases he
  | popStore h =>
    cases he
    simp [Spsc.Protocol.step, control, h, PopPc.phase]

/-- The runs of the ring are runs of the control protocol. -/
def controlSimulation (a : Arith κ) (cap : ℕ) (mBuffer : ℕ → T) :
    System.Simulation (a.system mBuffer) (a.protocol cap).system where
  abs := control
  label _ e := controlEvent e
  init := rfl
  silent _ hst he := control_silent (moves_of_step hst) he
  visible hs hst he := control_visible (coupled_of_reachable hs) (moves_of_step hst) he

variable {cap : ℕ} {L : LowerSet ℕ}

theorem control_inv (ha : (a.protocol cap).Sound L) (h : (a.system mBuffer).Reachable s) :
    (a.protocol cap).Inv L (control s) :=
  Spsc.Protocol.inv_of_reachable ha ((controlSimulation a cap mBuffer).reachable h)

/-! ## The values in the slots -/

/-- The slots hold the unread values, and what the threads have in hand is what they shall
publish or deliver. -/
structure Data (a : Arith κ) (s : Threads κ T) : Prop where
  holds : Holds (fun i => s.mBuffer (a.slot (a.count i))) s.popped.length s.unread
  written : ∀ {val tail next}, s.producer = .written val tail next → s.mBuffer (a.slot tail) = val
  copied : ∀ {head x}, s.consumer = .copied head x → s.unread.head? = some x
  split : s.pushed = s.popped ++ s.unread

omit [DecidableEq κ] in
theorem Data.start : Data a (a.start mBuffer) := ⟨Holds.nil, nofun, nofun, rfl⟩

/-- The window of a ring with faithful counters, at a count of pushes for which they are so. -/
theorem window (ha : a.Faithful cap L) (hs : (a.system mBuffer).Reachable s)
    (hL : s.pushed.length ∈ L) :
    s.popped.length ≤ s.pushed.length ∧ s.unread.length ≤ cap ∧
      (s.producer.target ≠ none → s.unread.length < cap) ∧
      (s.consumer.phase = .passed → s.unread ≠ []) := by
  have hinv := control_inv ha.tests.toSound hs
  have hle : s.popped.length ≤ s.pushed.length := hinv.le
  have hbound : s.pushed.length ≤ s.popped.length + cap := hinv.bound hL
  have hlen : s.unread.length = s.pushed.length - s.popped.length := List.length_drop
  refine ⟨hle, by omega, ?_, ?_⟩
  · intro htarget
    have hpass : s.producer.phase = .passed := by
      cases hprod : s.producer <;> simp_all [PushPc.target, PushPc.phase]
    have hlt : s.pushed.length < s.popped.length + cap := hinv.granted hL hpass
    omega
  · intro hpass hnil
    have hlt : s.popped.length < s.pushed.length := hinv.holding hpass
    rw [hnil, List.length_nil] at hlen
    omega

theorem Data.pushWrite (ha : a.Faithful cap L) (hs : (a.system mBuffer).Reachable s)
    (hL : s.pushed.length ∈ L) (hd : Data a s) {val : T} {tail next : κ}
    (h : s.producer = .passed val tail next) :
    Data a { s with
      mBuffer := Function.update s.mBuffer (a.slot tail) val
      producer := .written val tail next } := by
  obtain ⟨hle, -, hroom, -⟩ := window ha hs hL
  have hlen : s.pushed.length = s.popped.length + s.unread.length := by
    rw [Threads.unread, List.length_drop]
    omega
  have hc := coupled_of_reachable hs
  have htail : tail = a.count (s.popped.length + s.unread.length) := by
    rw [← hlen, ← hc.write]
    exact (hc.producer (by rw [h]; rfl)).1
  refine ⟨?_, ?_, hd.copied, hd.split⟩
  · rw [htail]
    exact ha.slots.holds_update (hroom (by simp [h, PushPc.target])) (hlen ▸ hL) hd.holds
  · intro _ _ _ hw
    cases hw
    exact Function.update_self ..

theorem Data.pushStore (ha : a.Faithful cap L) (hs : (a.system mBuffer).Reachable s)
    (hL : s.pushed.length ∈ L) (hd : Data a s) {val : T} {tail next : κ}
    (h : s.producer = .written val tail next) :
    Data a { s with
      mWrite := next, producer := .idle
      pushed := s.pushed ++ [val], slots := s.slots ++ [a.slot tail] } := by
  obtain ⟨hle, -, -, -⟩ := window ha hs hL
  have hlen : s.popped.length + s.unread.length = s.pushed.length := by
    rw [Threads.unread, List.length_drop]
    omega
  have hc := coupled_of_reachable hs
  have htail : tail = a.count s.pushed.length := by
    rw [← hc.write]
    exact (hc.producer (by rw [h]; rfl)).1
  have hunread : (s.pushed ++ [val]).drop s.popped.length = s.unread ++ [val] :=
    List.drop_append_of_le_length hle
  refine ⟨?_, nofun, ?_, ?_⟩
  · change Holds _ s.popped.length ((s.pushed ++ [val]).drop s.popped.length)
    rw [hunread]
    refine hd.holds.snoc ?_
    rw [hlen, ← htail]
    exact hd.written h
  · intro head x hcopy
    change ((s.pushed ++ [val]).drop s.popped.length).head? = _
    rw [hunread, List.head?_append, hd.copied hcopy]
    rfl
  · change s.pushed ++ [val] = s.popped ++ (s.pushed ++ [val]).drop s.popped.length
    rw [hunread, ← List.append_assoc, ← hd.split]

theorem Data.popRead (ha : a.Faithful cap L) (hs : (a.system mBuffer).Reachable s)
    (hL : s.pushed.length ∈ L) (hd : Data a s) {head : κ} (h : s.consumer = .passed head) :
    Data a { s with consumer := .copied head (s.mBuffer (a.slot head)) } := by
  obtain ⟨-, -, -, hmore⟩ := window ha hs hL
  have hc := coupled_of_reachable hs
  have hhead : head = a.count s.popped.length := by
    rw [← hc.read]
    exact hc.consumer (by rw [h]; rfl)
  refine ⟨hd.holds, hd.written, ?_, hd.split⟩
  intro _ _ hcopy
  cases hcopy
  obtain ⟨x, xs, hx⟩ := List.exists_cons_of_ne_nil (hmore (by rw [h]; rfl))
  have hread : s.mBuffer (a.slot head) = x := by
    have hholds := hd.holds
    rw [hx] at hholds
    rw [hhead]
    exact hholds.head
  change s.unread.head? = _
  rw [hx, hread]
  rfl

omit [DecidableEq κ] in
/-- A value that is copied is the one that has waited longest. -/
theorem Data.unread_eq (hd : Data a s) {head : κ} {x : T} (h : s.consumer = .copied head x) :
    s.unread = x :: s.unread.drop 1 := by
  have hhead := hd.copied h
  cases hu : s.unread with
  | nil => simp [hu] at hhead
  | cons y ys =>
    rw [hu] at hhead
    cases hhead
    rfl

omit [DecidableEq κ] in
theorem Data.popStore (hd : Data a s) {head : κ} {x : T} (h : s.consumer = .copied head x) :
    Data a { s with
      mRead := a.increment head, consumer := .idle, popped := s.popped ++ [x] } := by
  have hx := hd.unread_eq h
  have hrest : s.pushed.drop (s.popped ++ [x]).length = s.unread.drop 1 := by
    rw [List.length_append, List.length_singleton, ← List.drop_drop]
    rfl
  refine ⟨?_, hd.written, nofun, ?_⟩
  · change Holds _ (s.popped ++ [x]).length (s.pushed.drop (s.popped ++ [x]).length)
    have hholds := hd.holds
    rw [hx] at hholds
    rw [hrest, List.length_append]
    exact hholds.tail
  · change s.pushed = (s.popped ++ [x]) ++ s.pushed.drop (s.popped ++ [x]).length
    rw [hrest, List.append_assoc, List.singleton_append, ← hx]
    exact hd.split

theorem pushed_length_le (hst : a.Moves s e t) :
    s.pushed.length ≤ t.pushed.length := by
  cases hst <;> simp

/-- The data invariant, at every count of pushes for which the counters are faithful. -/
theorem data_of_reachable (ha : a.Faithful cap L) (hs : (a.system mBuffer).Reachable s)
    (hL : s.pushed.length ∈ L) : Data a s := by
  refine System.invariant (P := fun s => s.pushed.length ∈ L → Data a s)
    (fun _ => Data.start) (fun {s t e} hs hd hst hL => ?_) hs hL
  have hmoves := moves_of_step hst
  have hL' := L.lower (pushed_length_le hmoves) hL
  have hd := hd hL'
  cases hmoves with
  | pushLoad => exact ⟨hd.holds, nofun, hd.copied, hd.split⟩
  | @pushTest _ _ _ room =>
    refine ⟨hd.holds, ?_, hd.copied, hd.split⟩
    intro val tail next hw
    cases room <;> cases hw
  | pushWrite h => exact hd.pushWrite ha hs hL' h
  | pushStore h => exact hd.pushStore ha hs hL' h
  | popLoad => exact ⟨hd.holds, hd.written, nofun, hd.split⟩
  | @popTest _ more =>
    refine ⟨hd.holds, hd.written, ?_, hd.split⟩
    intro head x hcopy
    cases more <;> cases hcopy
  | popRead h => exact hd.popRead ha hs hL' h
  | popStore h => exact hd.popStore h

/-! ## What the ring guarantees -/

/-- A bounded first-in first-out queue, as the two threads see it. -/
structure Safe (a : Arith κ) (cap : ℕ) (s : Threads κ T) : Prop where
  /-- The values delivered are a prefix of the values pushed. -/
  fifo : s.popped <+: s.pushed
  bound : s.unread.length ≤ cap
  /-- The producer never writes the slot of a value that is published and not yet released. -/
  exclusive : ∀ tail, s.producer.target = some tail → a.slot tail ∉ s.unreadSlots
  /-- A push is refused when the ring is full at its test, and only then. -/
  push_test : ∀ room t, a.step s (.pushTest room) = some t →
    (room = false ↔ s.unread.length = cap)
  /-- A pop is refused when the ring is empty at its test, and only then. -/
  pop_test : ∀ more t, a.step s (.popTest more) = some t → (more = false ↔ s.unread = [])

theorem exclusive_of_reachable (ha : a.Faithful cap L) (hs : (a.system mBuffer).Reachable s)
    (hL : s.pushed.length ∈ L) {tail : κ} (ht : s.producer.target = some tail) :
    a.slot tail ∉ s.unreadSlots := by
  obtain ⟨hle, -, hroom, -⟩ := window ha hs hL
  have hc := coupled_of_reachable hs
  have hlt : s.pushed.length < s.popped.length + cap := by
    have hlt := hroom (by simp [ht])
    rw [Threads.unread, List.length_drop] at hlt
    omega
  have htail : tail = a.count s.pushed.length := by
    rw [← hc.write]
    cases hprod : s.producer <;> rw [hprod] at ht <;> cases ht <;>
      exact (hc.producer (by rw [hprod]; rfl)).1
  intro hmem
  obtain ⟨i, hi⟩ := List.mem_iff_getElem?.1 hmem
  rw [Threads.unreadSlots, hc.slots, List.getElem?_drop, List.getElem?_map,
    Option.map_eq_some_iff] at hi
  obtain ⟨j, hj, hslot⟩ := hi
  obtain ⟨hlt', rfl⟩ := List.getElem?_eq_some_iff.1 hj
  rw [List.length_range] at hlt'
  rw [List.getElem_range, htail] at hslot
  exact ha.slots _ _ hlt' (by omega) hL hslot

theorem push_test_of_reachable (ha : a.Faithful cap L) (hs : (a.system mBuffer).Reachable s)
    (hL : s.pushed.length ∈ L) {room : Bool} (hst : a.step s (.pushTest room) = some t) :
    room = false ↔ s.unread.length = cap := by
  obtain ⟨hle, -⟩ := window ha hs hL
  have hc := coupled_of_reachable hs
  have hexact := ha.tests.room_eq_false_iff (control_inv ha.tests.toSound hs) hL
  cases moves_of_step hst with
  | pushTest h hr =>
    obtain ⟨rfl, -⟩ := hc.producer (by rw [h]; rfl)
    rw [hc.write, hc.read] at hr
    rw [← hr, Threads.unread, List.length_drop]
    refine hexact.trans ?_
    simp only [control, protocol]
    omega

theorem pop_test_of_reachable (ha : a.Faithful cap L) (hs : (a.system mBuffer).Reachable s)
    (hL : s.pushed.length ∈ L) {more : Bool} (hst : a.step s (.popTest more) = some t) :
    more = false ↔ s.unread = [] := by
  obtain ⟨hle, -⟩ := window ha hs hL
  have hc := coupled_of_reachable hs
  have hexact := ha.tests.more_eq_false_iff (control_inv ha.tests.toSound hs) hL
  cases moves_of_step hst with
  | popTest h hm =>
    obtain rfl := hc.consumer (by rw [h]; rfl)
    rw [hc.write, hc.read] at hm
    rw [← hm, Threads.unread, List.drop_eq_nil_iff]
    refine hexact.trans ?_
    simp only [control]
    omega

/-- **A ring with faithful counters is safe under every schedule**, at every count of pushes for
which the counters are faithful. -/
theorem safe_of_reachable (ha : a.Faithful cap L) (hs : (a.system mBuffer).Reachable s)
    (hL : s.pushed.length ∈ L) : a.Safe cap s where
  fifo := ⟨s.unread, (data_of_reachable ha hs hL).split.symm⟩
  bound := (window ha hs hL).2.1
  exclusive _ ht := exclusive_of_reachable ha hs hL ht
  push_test _ _ hst := push_test_of_reachable ha hs hL hst
  pop_test _ _ hst := pop_test_of_reachable ha hs hL hst

/-! ## Calls that are not interrupted -/

/-- The ring of a state and what its calls have done. -/
def Threads.session (s : Threads κ T) : Session κ T := ⟨s.toRing, s.pushed, s.popped, s.slots⟩

/-- The queue a state stands for. -/
def queue (s : Threads κ T) : Queue T := ⟨s.pushed, s.popped, s.unread⟩

/-- The stores are the visible events. -/
def queueEvent (s : Threads κ T) : Step T → Option (Queue.Event T)
  | .pushStore =>
    match s.producer with
    | .written val _ _ => some (.enq val)
    | _ => none
  | .popStore => some .deq
  | _ => none

/-- **Refinement.** A ring whose counters are faithful for every count is the bounded queue: a push
takes effect at its store of `m_write`, a pop at its store of `m_read`. -/
def refinement (ha : a.Faithful cap ⊤) (mBuffer : ℕ → T) :
    System.Simulation (a.system mBuffer) (Queue.system T cap) where
  abs := queue
  label := queueEvent
  init := rfl
  silent hs hst he := by
    cases moves_of_step hst with
    | pushStore h => simp [queueEvent, h] at he
    | popStore => cases he
    | _ => rfl
  visible {s t e d} hs hst he := by
    have hd := data_of_reachable ha hs trivial
    obtain ⟨hle, -, hroom, -⟩ := window ha hs trivial
    cases moves_of_step hst with
    | @pushStore val tail next h =>
      simp only [queueEvent, h, Option.some.injEq] at he
      subst he
      have hlt := hroom (by simp [h, PushPc.target])
      refine Queue.enq_eq_some.2 ⟨hlt, ?_⟩
      simp only [queue, Threads.unread, List.drop_append_of_le_length hle]
    | @popStore head x h =>
      simp only [queueEvent, Option.some.injEq] at he
      subst he
      refine Queue.deq_eq_some.2 ⟨x, s.unread.drop 1, hd.unread_eq h, ?_⟩
      simp [queue, Threads.unread]
    | _ => cases he

end Arith

end ThreadTests
