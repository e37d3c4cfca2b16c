import ThreadTests.Arene.BlockBuffer
import ThreadTests.Core.Spsc

/-!
# `BlockBuffer` under a scheduler

One producer and one consumer. A call is cut at its accesses to shared memory: `tryPush` into the
load of `m_write`, the load of `m_read` with the test, and the store of `m_write`; `tryPop` into
the load of `m_read`, the load of `m_write` with the test, the copy, and the store of `m_read`.
Between its calls the producer fills the block it was handed, or leaves it as it is.

The counters are images of the numbers of pushes and pops (`Coupled`), and the runs are runs of the
control protocol (`controlSimulation`) as long as each test for room is made with fewer than
`2 ^ 32` blocks unread (`narrow`), which for a depth of at most `2 ^ 31` is always
(`narrow_of_reachable`). So the blocks in use lie within a window of counts, and are disjoint.
-/

namespace ThreadTests.Arene

universe u

variable {c : Shape} {E : Type u}

/-- Where the producer stands. -/
inductive PushPc where
  | idle
  | loaded (head : SizeT) (nextHead : CInt)
  /-- The test has succeeded, and `ptr` is set. -/
  | granted (nextHead : CInt) (ptr : SizeT)
  /-- The call has returned; the block is not filled yet. -/
  | returned (ptr : SizeT)
  deriving DecidableEq

/-- Where the consumer stands. -/
inductive PopPc (c : Shape) (E : Type u) where
  | idle
  | loaded (tail : SizeT) (dest : Dest)
  | passed (tail : SizeT) (dest : Dest)
  /-- The block is copied, unless it is discarded. -/
  | copied (tail : SizeT) (read : Option (SizeT × c.Block E))
  /-- A null pointer is dereferenced. -/
  | fault

/-- The buffer, the two threads, and what they have done so far: the pointers handed out by the
successful pushes, what was filled in after each, and what the successful pops have copied. -/
structure Threads (c : Shape) (E : Type u) extends BlockBuffer E where
  producer : PushPc
  consumer : PopPc c E
  handed : List SizeT
  filled : List (Option (c.Block E))
  taken : List (Option (SizeT × c.Block E))

inductive PushStep (c : Shape) (E : Type u) where
  | load
  | test (room : Bool)
  | store
  | fill (block : c.Block E)
  | skip

inductive PopStep where
  | load (dest : Dest)
  | test (more : Bool)
  | copy
  | store
  deriving DecidableEq

inductive Step (c : Shape) (E : Type u) where
  | push (e : PushStep c E)
  | pop (e : PopStep)

namespace Threads

/-- What the branch on `*ptr` reads. -/
def read (s : Threads c E) (tail : SizeT) : Dest → PopPc c E
  | .null => .fault
  | .discard => .copied tail none
  | .copy =>
    let ptr := c.offset tail
    .copied tail (some (ptr, Memory.readBlock s.mBuffer ptr.toNat c.mWidth.toNat))

def pushStep (s : Threads c E) : PushStep c E → Option (Threads c E)
  | .load =>
    match s.producer with
    | .idle => some { s with producer := .loaded s.mWrite (increment (sizeToUnsigned s.mWrite)) }
    | _ => none
  | .test room =>
    match s.producer with
    | .loaded head nextHead =>
      if c.room head s.mRead = room then
        some { s with producer := if room then .granted nextHead (c.offset head) else .idle }
      else none
    | _ => none
  | .store =>
    match s.producer with
    | .granted nextHead ptr =>
      some { s with
        mWrite := intToSize nextHead, producer := .returned ptr, handed := s.handed ++ [ptr] }
    | _ => none
  | .fill block =>
    match s.producer with
    | .returned ptr =>
      some { s with
        mBuffer := Memory.writeBlock s.mBuffer ptr.toNat block
        producer := .idle, filled := s.filled ++ [some block] }
    | _ => none
  | .skip =>
    match s.producer with
    | .returned _ => some { s with producer := .idle, filled := s.filled ++ [none] }
    | _ => none

def popStep (s : Threads c E) : PopStep → Option (Threads c E)
  | .load dest =>
    match s.consumer with
    | .idle => some { s with consumer := .loaded s.mRead dest }
    | _ => none
  | .test more =>
    match s.consumer with
    | .loaded tail dest =>
      if decide (tail ≠ s.mWrite) = more then
        some { s with consumer := if more then .passed tail dest else .idle }
      else none
    | _ => none
  | .copy =>
    match s.consumer with
    | .passed tail dest => some { s with consumer := s.read tail dest }
    | _ => none
  | .store =>
    match s.consumer with
    | .copied tail read =>
      some { s with
        mRead := intToSize (increment (sizeToUnsigned tail))
        consumer := .idle, taken := s.taken ++ [read] }
    | _ => none

def step (s : Threads c E) : Step c E → Option (Threads c E)
  | .push e => s.pushStep e
  | .pop e => s.popStep e

def start (mBuffer : ℕ → E) : Threads c E where
  toBlockBuffer := BlockBuffer.new mBuffer
  producer := .idle
  consumer := .idle
  handed := []
  filled := []
  taken := []

/-- The steps, each with what it needs and what it changes. -/
inductive Moves (s : Threads c E) : Step c E → Threads c E → Prop
  | pushLoad (h : s.producer = .idle) :
    Moves s (.push .load)
      { s with producer := .loaded s.mWrite (increment (sizeToUnsigned s.mWrite)) }
  | pushTest {head nextHead room} (h : s.producer = .loaded head nextHead)
    (hr : c.room head s.mRead = room) :
    Moves s (.push (.test room))
      { s with producer := if room then .granted nextHead (c.offset head) else .idle }
  | pushStore {nextHead ptr} (h : s.producer = .granted nextHead ptr) :
    Moves s (.push .store)
      { s with
        mWrite := intToSize nextHead, producer := .returned ptr, handed := s.handed ++ [ptr] }
  | fill {ptr block} (h : s.producer = .returned ptr) :
    Moves s (.push (.fill block))
      { s with
        mBuffer := Memory.writeBlock s.mBuffer ptr.toNat block
        producer := .idle, filled := s.filled ++ [some block] }
  | skip {ptr} (h : s.producer = .returned ptr) :
    Moves s (.push .skip) { s with producer := .idle, filled := s.filled ++ [none] }
  | popLoad {dest} (h : s.consumer = .idle) :
    Moves s (.pop (.load dest)) { s with consumer := .loaded s.mRead dest }
  | popTest {tail dest more} (h : s.consumer = .loaded tail dest)
    (hm : decide (tail ≠ s.mWrite) = more) :
    Moves s (.pop (.test more)) { s with consumer := if more then .passed tail dest else .idle }
  | popCopy {tail dest} (h : s.consumer = .passed tail dest) :
    Moves s (.pop .copy) { s with consumer := s.read tail dest }
  | popStore {tail read} (h : s.consumer = .copied tail read) :
    Moves s (.pop .store)
      { s with
        mRead := intToSize (increment (sizeToUnsigned tail))
        consumer := .idle, taken := s.taken ++ [read] }

theorem moves_of_pushStep {s t : Threads c E} {e : PushStep c E} (hst : s.pushStep e = some t) :
    s.Moves (.push e) t := by
  cases e with
  | load =>
    cases h : s.producer <;> simp only [pushStep, h, reduceCtorEq] at hst
    cases hst
    exact .pushLoad h
  | test room =>
    cases h : s.producer <;> simp only [pushStep, h, reduceCtorEq] at hst
    obtain ⟨hr, ⟨⟩⟩ := Option.ite_none_right_eq_some.1 hst
    exact .pushTest h hr
  | store =>
    cases h : s.producer <;> simp only [pushStep, h, reduceCtorEq] at hst
    cases hst
    exact .pushStore h
  | fill block =>
    cases h : s.producer <;> simp only [pushStep, h, reduceCtorEq] at hst
    cases hst
    exact .fill h
  | skip =>
    cases h : s.producer <;> simp only [pushStep, h, reduceCtorEq] at hst
    cases hst
    exact .skip h

theorem moves_of_popStep {s t : Threads c E} {e : PopStep} (hst : s.popStep e = some t) :
    s.Moves (.pop e) t := by
  cases e with
  | load dest =>
    cases h : s.consumer <;> simp only [popStep, h, reduceCtorEq] at hst
    cases hst
    exact .popLoad h
  | test more =>
    cases h : s.consumer <;> simp only [popStep, h, reduceCtorEq] at hst
    obtain ⟨hm, ⟨⟩⟩ := Option.ite_none_right_eq_some.1 hst
    exact .popTest h hm
  | copy =>
    cases h : s.consumer <;> simp only [popStep, h, reduceCtorEq] at hst
    cases hst
    exact .popCopy h
  | store =>
    cases h : s.consumer <;> simp only [popStep, h, reduceCtorEq] at hst
    cases hst
    exact .popStore h

theorem moves_of_step {s t : Threads c E} {e : Step c E} (hst : s.step e = some t) :
    s.Moves e t := by
  cases e with
  | push e => exact moves_of_pushStep hst
  | pop e => exact moves_of_popStep hst

/-- A step of the producer leaves the consumer alone. -/
theorem Moves.push_frame {s t : Threads c E} {e : PushStep c E} (h : s.Moves (.push e) t) :
    t.taken = s.taken ∧ t.consumer = s.consumer ∧ t.mRead = s.mRead ∧
      s.handed.length ≤ t.handed.length := by
  cases h <;> simp

/-- A step of the consumer leaves the producer alone. -/
theorem Moves.pop_frame {s t : Threads c E} {e : PopStep} (h : s.Moves (.pop e) t) :
    t.handed = s.handed ∧ t.producer = s.producer ∧ t.mWrite = s.mWrite := by
  cases h <;> simp

/-- No pointer is taken back. -/
theorem Moves.handed_le {s t : Threads c E} {e : Step c E} (h : s.Moves e t) :
    s.handed.length ≤ t.handed.length := by
  cases e with
  | push e => exact h.push_frame.2.2.2
  | pop e => exact Nat.le_of_eq (congrArg List.length h.pop_frame.1.symm)

end Threads

def system (c : Shape) (mBuffer : ℕ → E) : System (Threads c E) (Step c E) where
  init := Threads.start mBuffer
  step := Threads.step

/-! ## Counters and program counters -/

namespace PopPc

/-- `tail`, once loaded. -/
def tail : PopPc c E → Option SizeT
  | .loaded tail _ | .passed tail _ | .copied tail _ => some tail
  | _ => none

/-- What the call under way has read. -/
def read : PopPc c E → List (Option (SizeT × c.Block E))
  | .copied _ read => [read]
  | _ => []

/-- A fault keeps the block that it was to copy. -/
def phase : PopPc c E → Spsc.Phase
  | .idle => .idle
  | .loaded .. => .loaded
  | .passed .. | .copied .. | .fault => .passed

end PopPc

namespace PushPc

def phase : PushPc → Spsc.Phase
  | .idle | .returned _ => .idle
  | .loaded .. => .loaded
  | .granted .. => .passed

/-- The pointer that the call under way will hand out. -/
def ptr : PushPc → List SizeT
  | .granted _ ptr => [ptr]
  | _ => []

end PushPc

/-- The pointers are those of the counts, the counters those of the numbers of pushes and pops, and
the program counters hold what was loaded from the own counter. -/
structure Coupled (s : Threads c E) : Prop where
  write : s.mWrite = count s.handed.length
  read : s.mRead = count s.taken.length
  loaded : ∀ {head nextHead}, s.producer = .loaded head nextHead →
    head = s.mWrite ∧ nextHead = increment (sizeToUnsigned s.mWrite)
  granted : ∀ {nextHead ptr}, s.producer = .granted nextHead ptr →
    nextHead = increment (sizeToUnsigned s.mWrite) ∧ ptr = c.offset s.mWrite
  returned : ∀ {ptr}, s.producer = .returned ptr →
    s.handed.length = s.filled.length + 1 ∧ ptr = c.offset (count s.filled.length)
  settled : (∀ ptr, s.producer ≠ .returned ptr) → s.filled.length = s.handed.length
  tail : ∀ {tail}, s.consumer.tail = some tail → tail = s.mRead
  handed : s.handed = (List.range s.handed.length).map fun i => c.offset (count i)
  taken : ∀ i ptr block, (s.taken ++ s.consumer.read)[i]? = some (some (ptr, block)) →
    ptr = c.offset (count i)

namespace Coupled

variable {s t : Threads c E} {e : Step c E} {mBuffer : ℕ → E}

theorem start : Coupled (Threads.start (c := c) mBuffer) :=
  ⟨rfl, rfl, nofun, nofun, nofun, fun _ => rfl, nofun, rfl, by simp [Threads.start, PopPc.read]⟩

theorem pushStore (hc : Coupled s) {nextHead : CInt} {ptr : SizeT}
    (h : s.producer = .granted nextHead ptr) :
    Coupled { s with
      mWrite := intToSize nextHead, producer := .returned ptr, handed := s.handed ++ [ptr] } := by
  obtain ⟨rfl, rfl⟩ := hc.granted h
  have hfilled : s.filled.length = s.handed.length := hc.settled (by simp [h])
  refine ⟨?_, hc.read, nofun, nofun, ?_, ?_, hc.tail, ?_, hc.taken⟩
  · rw [List.length_append, List.length_singleton, ← next_count, ← hc.write]
    rfl
  · rintro ptr ⟨⟩
    exact ⟨by simp [hfilled], by rw [hfilled, hc.write]⟩
  · exact fun hne => absurd rfl (hne _)
  · simp only [List.length_append, List.length_singleton, List.range_succ, List.map_append,
      List.map_singleton, ← hc.handed, hc.write]

theorem filled_append (hc : Coupled s) {ptr : SizeT} {mBuffer : ℕ → E}
    {fill : Option (c.Block E)} (h : s.producer = .returned ptr) :
    Coupled { s with
      mBuffer := mBuffer, producer := .idle, filled := s.filled ++ [fill] } := by
  refine ⟨hc.write, hc.read, nofun, nofun, nofun, fun _ => ?_, hc.tail, hc.handed, hc.taken⟩
  rw [(hc.returned h).1, List.length_append, List.length_singleton]

theorem popCopy (hc : Coupled s) {tail : SizeT} {dest : Dest} (h : s.consumer = .passed tail dest) :
    Coupled { s with consumer := s.read tail dest } := by
  obtain rfl := hc.tail (by rw [h]; rfl)
  have htaken := hc.taken
  simp only [h, PopPc.read, List.append_nil] at htaken
  refine ⟨hc.write, hc.read, hc.loaded, hc.granted, hc.returned, hc.settled, ?_, hc.handed, ?_⟩
  · intro tail htail
    cases dest <;> cases htail <;> rfl
  · intro i ptr block hread
    rcases Nat.lt_or_ge i s.taken.length with hi | hi
    · rw [List.getElem?_append_left hi] at hread
      exact htaken i ptr block hread
    · rw [List.getElem?_append_right hi] at hread
      cases dest with
      | null => simp [Threads.read, PopPc.read] at hread
      | discard => simp [Threads.read, PopPc.read, List.getElem?_singleton] at hread
      | copy =>
        simp only [Threads.read, PopPc.read, List.getElem?_singleton,
          Option.ite_none_right_eq_some, Option.some.injEq, Prod.mk.injEq] at hread
        obtain ⟨hlast, rfl, -⟩ := hread
        rw [hc.read, show i = s.taken.length by omega]

theorem moves (hc : Coupled s) (hst : s.Moves e t) : Coupled t := by
  cases hst with
  | pushLoad h =>
    refine ⟨hc.write, hc.read, ?_, nofun, nofun, fun _ => hc.settled (by simp [h]), hc.tail,
      hc.handed, hc.taken⟩
    rintro head nextHead ⟨⟩
    exact ⟨rfl, rfl⟩
  | @pushTest head nextHead room h hr =>
    obtain ⟨rfl, rfl⟩ := hc.loaded h
    have hfilled := hc.settled (by simp [h])
    cases room with
    | false =>
      exact ⟨hc.write, hc.read, nofun, nofun, nofun, fun _ => hfilled, hc.tail, hc.handed,
        hc.taken⟩
    | true =>
      refine ⟨hc.write, hc.read, nofun, ?_, nofun, fun _ => hfilled, hc.tail, hc.handed,
        hc.taken⟩
      rintro nextHead ptr ⟨⟩
      exact ⟨rfl, rfl⟩
  | pushStore h => exact hc.pushStore h
  | fill h => exact hc.filled_append h
  | skip h => exact hc.filled_append h
  | popLoad h =>
    have htaken := hc.taken
    refine ⟨hc.write, hc.read, hc.loaded, hc.granted, hc.returned, hc.settled, ?_, hc.handed, ?_⟩
    · rintro tail ⟨⟩
      rfl
    · simpa [h, PopPc.read] using htaken
  | @popTest tail dest more h hm =>
    obtain rfl := hc.tail (by rw [h]; rfl)
    have htaken := hc.taken
    refine ⟨hc.write, hc.read, hc.loaded, hc.granted, hc.returned, hc.settled, ?_, hc.handed, ?_⟩
    · intro tail htail
      cases more <;> cases htail
      rfl
    · cases more <;> simpa [h, PopPc.read] using htaken
  | popCopy h => exact hc.popCopy h
  | @popStore tail read h =>
    obtain rfl := hc.tail (by rw [h]; rfl)
    have htaken := hc.taken
    refine ⟨hc.write, ?_, hc.loaded, hc.granted, hc.returned, hc.settled, nofun, hc.handed, ?_⟩
    · rw [List.length_append, List.length_singleton, ← next_count, ← hc.read]
      rfl
    · simpa [h, PopPc.read] using htaken

theorem of_reachable (hs : (system c mBuffer).Reachable s) : Coupled s :=
  System.invariant (P := Coupled) Coupled.start
    (fun _ hc hst => hc.moves (Threads.moves_of_step hst)) hs

end Coupled

/-! ## The control of the buffer -/

/-- Each test for room is made with fewer than `2 ^ 32` blocks unread. -/
def narrow (s : Threads c E) : Step c E → Prop
  | .push (.test _) => s.handed.length < s.taken.length + 2 ^ 32
  | _ => True

instance (s : Threads c E) : (e : Step c E) → Decidable (narrow s e)
  | .push (.test _) => Nat.decLt _ _
  | .push .load | .push .store | .push (.fill _) | .push .skip => isTrue trivial
  | .pop _ => isTrue trivial

/-- The tests of the buffer, on counts. -/
def protocol (c : Shape) (k : ℕ) : Spsc.Protocol where
  cap := slots k
  room n m := c.room (count n) (count m) && decide (n < m + 2 ^ 32)
  more n m := decide (count m ≠ count n)

theorem protocol_sound {k : ℕ} (hdepth : c.mDepth.toNat = 2 ^ k) : (protocol c k).Sound ⊤ where
  room_lt {n m} hmn _ _ hr := by
    obtain ⟨hroom, hn⟩ : c.room (count n) (count m) = true ∧ n < m + 2 ^ 32 := by
      simpa [protocol] using hr
    have hlt := lt_of_room hmn hn hroom
    rw [hdepth] at hlt
    have : n - m < slots k := lt_slots_iff.2 ⟨by omega, by omega⟩
    simp only [protocol]
    omega
  more_ne {n m} hm := by
    rintro rfl
    simp [protocol] at hm

/-- A run without its blocks. -/
def control (s : Threads c E) : Spsc.State where
  pushes := s.handed.length
  pops := s.taken.length
  producer := s.producer.phase
  consumer := s.consumer.phase

/-- The accesses to the blocks are no steps of the control. -/
def controlEvent : Step c E → Option Spsc.Event
  | .push .load => some .pushLoad
  | .push (.test room) => some (.pushTest room)
  | .push .store => some .pushStore
  | .pop (.load _) => some .popLoad
  | .pop (.test more) => some (.popTest more)
  | .pop .store => some .popStore
  | _ => none

theorem control_silent {s t : Threads c E} {e : Step c E} (hst : s.Moves e t)
    (he : controlEvent e = none) : control t = control s := by
  cases hst with
  | fill h => simp [control, h, PushPc.phase]
  | skip h => simp [control, h, PushPc.phase]
  | @popCopy tail dest h => cases dest <;> simp [control, h, PopPc.phase, Threads.read]
  | _ => cases he

theorem control_visible {k : ℕ} {s t : Threads c E} {e : Step c E} {d : Spsc.Event}
    (hc : Coupled s) (hn : narrow s e) (hst : s.Moves e t) (he : controlEvent e = some d) :
    (protocol c k).step (control s) d = some (control t) := by
  cases hst with
  | pushLoad h =>
    cases he
    simp [Spsc.Protocol.step, control, h, PushPc.phase]
  | @pushTest head nextHead room h hr =>
    cases he
    obtain ⟨rfl, -⟩ := hc.loaded h
    have hnarrow : s.handed.length < s.taken.length + 2 ^ 32 := hn
    rw [hc.write, hc.read] at hr
    cases room with
    | false => simp [Spsc.Protocol.step, control, h, PushPc.phase, protocol, hr]
    | true => simpa [Spsc.Protocol.step, control, h, PushPc.phase, protocol, hr] using hnarrow
  | pushStore h =>
    cases he
    simp [Spsc.Protocol.step, control, h, PushPc.phase]
  | fill => cases he
  | skip => cases he
  | popLoad h =>
    cases he
    simp [Spsc.Protocol.step, control, h, PopPc.phase]
  | @popTest tail dest more h hm =>
    cases he
    obtain rfl := hc.tail (by rw [h]; rfl)
    rw [hc.write, hc.read] at hm
    cases more <;> simp [Spsc.Protocol.step, control, h, PopPc.phase, protocol, ← hm]
  | popCopy => cases he
  | popStore h =>
    cases he
    simp [Spsc.Protocol.step, control, h, PopPc.phase]

/-- The narrow runs of the buffer are runs of the control protocol. -/
def controlSimulation (c : Shape) (k : ℕ) (mBuffer : ℕ → E) :
    System.Simulation ((system c mBuffer).restrict narrow) (protocol c k).system where
  abs := control
  label _ e := controlEvent e
  init := rfl
  silent _ hst he :=
    control_silent (Threads.moves_of_step (System.restrict_step.1 hst).2) he
  visible hs hst he :=
    control_visible (Coupled.of_reachable (System.Reachable.of_restrict hs))
      (System.restrict_step.1 hst).1 (Threads.moves_of_step (System.restrict_step.1 hst).2) he

variable {mBuffer : ℕ → E} {s t : Threads c E} {k : ℕ}

/-- The window of the blocks in use. -/
theorem window (hdepth : c.mDepth.toNat = 2 ^ k)
    (hs : ((system c mBuffer).restrict narrow).Reachable s) :
    s.taken.length ≤ s.handed.length ∧ s.handed.length ≤ s.taken.length + slots k ∧
      (s.producer.phase = .passed → s.handed.length < s.taken.length + slots k) ∧
      (s.consumer.phase = .passed → s.taken.length < s.handed.length) := by
  have hinv := Spsc.Protocol.inv_of_reachable (protocol_sound hdepth)
    ((controlSimulation c k mBuffer).reachable hs)
  exact ⟨hinv.le, hinv.bound trivial, hinv.granted trivial, hinv.holding⟩

/-- With a depth of at most `2 ^ 31` every run is narrow. -/
theorem narrow_of_reachable (hdepth : c.mDepth.toNat = 2 ^ k) (hk : k ≤ 31)
    (hs : (system c mBuffer).Reachable s) :
    ((system c mBuffer).restrict narrow).Reachable s := by
  refine hs.restrict fun {s t e} hs _ => ?_
  obtain ⟨-, hbound, -⟩ := window hdepth hs
  have hslots := slots_le_half hk
  unfold narrow
  split
  · omega
  · trivial

/-- A run with fewer than `2 ^ 31` pushes is narrow, whatever the depth. -/
theorem narrow_of_lt (hs : (system c mBuffer).Reachable s) (hrun : s.handed.length < 2 ^ 31) :
    ((system c mBuffer).restrict narrow).Reachable s := by
  revert hrun
  refine System.invariant (S := system c mBuffer) (P := fun s => s.handed.length < 2 ^ 31 →
    ((system c mBuffer).restrict narrow).Reachable s) (fun _ => System.Reachable.init) ?_ hs
  intro s t e _ ih hst hrun
  have hle := (Threads.moves_of_step hst).handed_le
  refine (ih (by omega)).step (System.restrict_step.2 ⟨?_, hst⟩)
  unfold narrow
  split
  · omega
  · trivial

/-! ## Who owns which block -/

/-- The pointers handed out, and the one that a push which passed its test will hand out. -/
def Threads.pointers (s : Threads c E) : List SizeT := s.handed ++ s.producer.ptr

/-- The ownership of the blocks, and what each call does with the one of its number. -/
structure Owned (c : Shape) (s : Threads c E) : Prop where
  /-- A block lies within the allocated elements. -/
  inside : ∀ ptr ∈ s.pointers, c.block ptr ⊆ Set.Iio (c.mDepth.toNat * c.mWidth.toNat)
  /-- A block is disjoint from every earlier one whose pop has not stored `m_read` yet. -/
  disjoint : ∀ (i j : ℕ) (p q : SizeT), s.taken.length ≤ i → i < j → s.pointers[i]? = some p →
    s.pointers[j]? = some q → Disjoint (c.block p) (c.block q)
  /-- A push that has passed its test hands out its block. -/
  hands : ∀ nextHead ptr, s.producer = .granted nextHead ptr →
    s.pushStep .store = some { s with
      mWrite := count (s.handed.length + 1), producer := .returned ptr
      handed := s.handed ++ [ptr] }
  /-- A pop loads the count of the pops. -/
  loads : ∀ dest, s.consumer = .idle →
    s.popStep (.load dest) = some { s with consumer := .loaded (count s.taken.length) dest }
  /-- A pop passes its test exactly when something is unread. -/
  passes : ∀ tail dest, s.consumer = .loaded tail dest →
    s.popStep (.test true) =
      if s.taken.length < s.handed.length then some { s with consumer := .passed tail dest }
      else none
  /-- A pop is refused only when nothing was unread at its test. -/
  refused : ∀ t, s.popStep (.test false) = some t → s.handed.length = s.taken.length
  /-- A pop into a destination copies the elements of the block of its number. -/
  copies : ∀ tail, s.consumer = .passed tail .copy →
    ∃ ptr, s.handed[s.taken.length]? = some ptr ∧
      s.popStep .copy =
        some { s with consumer := .copied tail (some (ptr, fun i => s.mBuffer (ptr.toNat + i))) }
  /-- A pop into a null destination copies nothing. -/
  discards : ∀ tail, s.consumer = .passed tail .discard →
    s.popStep .copy = some { s with consumer := .copied tail none }
  /-- A pop delivers what it has copied. -/
  delivers : ∀ tail read, s.consumer = .copied tail read →
    s.popStep .store = some { s with
      mRead := count (s.taken.length + 1), consumer := .idle, taken := s.taken ++ [read] }
  /-- What was read is the block of its number, and nothing else. -/
  reads : ∀ (i : ℕ) (ptr : SizeT) (block : c.Block E),
    (s.taken ++ s.consumer.read)[i]? = some (some (ptr, block)) → s.handed[i]? = some ptr

theorem Coupled.pointers (hc : Coupled s) :
    s.pointers = (List.range s.pointers.length).map fun i => c.offset (count i) := by
  have hhanded := hc.handed
  cases hp : s.producer with
  | granted nextHead ptr =>
    obtain ⟨-, rfl⟩ := hc.granted hp
    simp only [Threads.pointers, hp, PushPc.ptr, List.length_append, List.length_singleton,
      List.range_succ, List.map_append, List.map_singleton, ← hhanded, hc.write]
  | _ => simpa [Threads.pointers, hp, PushPc.ptr] using hhanded

theorem Coupled.pointers_getElem? (hc : Coupled s) {i : ℕ} {ptr : SizeT}
    (hi : s.pointers[i]? = some ptr) : i < s.pointers.length ∧ ptr = c.offset (count i) := by
  obtain ⟨hlt, -⟩ := List.getElem?_eq_some_iff.1 hi
  refine ⟨hlt, ?_⟩
  rw [hc.pointers, List.getElem?_map, List.getElem?_range hlt] at hi
  exact (Option.some.inj hi).symm

/-- The pointers in use lie in one window of counts. -/
theorem pointers_length_le (hdepth : c.mDepth.toNat = 2 ^ k)
    (hs : ((system c mBuffer).restrict narrow).Reachable s) :
    s.pointers.length ≤ s.taken.length + slots k := by
  obtain ⟨-, hbound, hgranted, -⟩ := window hdepth hs
  unfold Threads.pointers
  cases hp : s.producer with
  | granted nextHead ptr =>
    have := hgranted (by rw [hp]; rfl)
    simp only [PushPc.ptr, List.length_append, List.length_singleton]
    omega
  | _ => simpa [PushPc.ptr] using hbound

theorem disjoint_pointers (hdepth : c.mDepth.toNat = 2 ^ k)
    (hsize : c.mDepth.toNat * c.mWidth.toNat < 2 ^ 64)
    (hs : ((system c mBuffer).restrict narrow).Reachable s) {i j : ℕ} {p q : SizeT}
    (hi : s.taken.length ≤ i) (hij : i < j) (hp : s.pointers[i]? = some p)
    (hq : s.pointers[j]? = some q) : Disjoint (c.block p) (c.block q) := by
  have hc := Coupled.of_reachable (System.Reachable.of_restrict hs)
  have hwindow := pointers_length_le hdepth hs
  obtain ⟨-, rfl⟩ := hc.pointers_getElem? hp
  obtain ⟨hlt, rfl⟩ := hc.pointers_getElem? hq
  exact disjoint_block hdepth ((slots_mul_le hdepth).trans_lt hsize) hij (by omega)

/-- What a pop has read is the block of its number, which has been handed out. -/
theorem handed_of_read (hdepth : c.mDepth.toNat = 2 ^ k)
    (hs : ((system c mBuffer).restrict narrow).Reachable s) {i : ℕ} {ptr : SizeT}
    {block : c.Block E} (hread : (s.taken ++ s.consumer.read)[i]? = some (some (ptr, block))) :
    s.handed[i]? = some ptr := by
  have hc := Coupled.of_reachable (System.Reachable.of_restrict hs)
  obtain ⟨hle, -, -, hholding⟩ := window hdepth hs
  have hlt : i < s.handed.length := by
    have hi := (List.getElem?_eq_some_iff.1 hread).1
    rw [List.length_append] at hi
    cases hcons : s.consumer with
    | copied tail read =>
      have := hholding (by rw [hcons]; rfl)
      simp only [hcons, PopPc.read, List.length_singleton] at hi
      omega
    | _ =>
      simp only [hcons, PopPc.read, List.length_nil] at hi
      omega
  rw [hc.taken i ptr block hread, hc.handed, List.getElem?_map, List.getElem?_range hlt]
  rfl

theorem refused_of_reachable (hdepth : c.mDepth.toNat = 2 ^ k) (hk : k ≤ 31)
    (hs : ((system c mBuffer).restrict narrow).Reachable s)
    (hst : s.popStep (.test false) = some t) : s.handed.length = s.taken.length := by
  have hc := Coupled.of_reachable (System.Reachable.of_restrict hs)
  obtain ⟨hle, hbound, -⟩ := window hdepth hs
  have hslots := slots_le_half hk
  cases Threads.moves_of_popStep hst with
  | @popTest tail dest _ h hm =>
    obtain rfl := hc.tail (by rw [h]; rfl)
    have hsame : count s.taken.length = count s.handed.length := by
      simpa [hc.write, hc.read] using hm
    by_contra hne
    exact count_ne (by omega) (by omega) hsame

theorem hands_of_granted (hc : Coupled s) {nextHead : CInt} {ptr : SizeT}
    (h : s.producer = .granted nextHead ptr) :
    s.pushStep .store = some { s with
      mWrite := count (s.handed.length + 1), producer := .returned ptr
      handed := s.handed ++ [ptr] } := by
  obtain ⟨rfl, -⟩ := hc.granted h
  have hnext : intToSize (increment (sizeToUnsigned s.mWrite)) = count (s.handed.length + 1) := by
    rw [hc.write]
    exact next_count _
  simp only [Threads.pushStep, h, hnext]

theorem passes_of_loaded (hdepth : c.mDepth.toNat = 2 ^ k) (hk : k ≤ 31)
    (hs : ((system c mBuffer).restrict narrow).Reachable s) {tail : SizeT} {dest : Dest}
    (h : s.consumer = .loaded tail dest) :
    s.popStep (.test true) =
      if s.taken.length < s.handed.length then some { s with consumer := .passed tail dest }
      else none := by
  have hc := Coupled.of_reachable (System.Reachable.of_restrict hs)
  obtain ⟨hle, hbound, -⟩ := window hdepth hs
  have hslots := slots_le_half hk
  obtain rfl := hc.tail (by rw [h]; rfl)
  have hmore : s.mRead ≠ s.mWrite ↔ s.taken.length < s.handed.length := by
    rw [hc.read, hc.write]
    constructor
    · intro hne
      exact Nat.lt_of_le_of_ne hle fun heq => hne (congrArg count heq)
    · intro hlt
      exact count_ne hlt (by omega)
  simp only [Threads.popStep, h, decide_eq_true_eq, hmore, if_true]

/-- The block of a pop that has passed its test has been handed out. -/
theorem copies_of_passed (hdepth : c.mDepth.toNat = 2 ^ k)
    (hs : ((system c mBuffer).restrict narrow).Reachable s) {tail : SizeT}
    (h : s.consumer = .passed tail .copy) :
    ∃ ptr, s.handed[s.taken.length]? = some ptr ∧
      s.popStep .copy =
        some { s with
          consumer := .copied tail (some (ptr, fun i => s.mBuffer (ptr.toNat + i))) } := by
  have hc := Coupled.of_reachable (System.Reachable.of_restrict hs)
  obtain ⟨-, -, -, hholding⟩ := window hdepth hs
  have hlt : s.taken.length < s.handed.length := hholding (by rw [h]; rfl)
  obtain rfl := hc.tail (by rw [h]; rfl)
  refine ⟨c.offset s.mRead, ?_, ?_⟩
  · rw [hc.handed, List.getElem?_map, List.getElem?_range hlt, hc.read]
    rfl
  · simp only [Threads.popStep, h]
    rfl

theorem delivers_of_copied (hc : Coupled s) {tail : SizeT}
    {read : Option (SizeT × c.Block E)} (h : s.consumer = .copied tail read) :
    s.popStep .store = some { s with
      mRead := count (s.taken.length + 1), consumer := .idle, taken := s.taken ++ [read] } := by
  obtain rfl := hc.tail (by rw [h]; rfl)
  have hnext : intToSize (increment (sizeToUnsigned s.mRead)) = count (s.taken.length + 1) := by
    rw [hc.read]
    exact next_count _
  simp only [Threads.popStep, h, hnext]

/-- **Slot ownership**, under every schedule and however long the run: a depth of `2 ^ k` up to
`2 ^ 31` keeps the blocks of the two threads apart, and each pop takes the block of its number. -/
theorem owned_of_reachable (hdepth : c.mDepth.toNat = 2 ^ k) (hk : k ≤ 31)
    (hsize : c.mDepth.toNat * c.mWidth.toNat < 2 ^ 64) (mBuffer : ℕ → E) {s : Threads c E}
    (hs : (system c mBuffer).Reachable s) : Owned c s := by
  have hc := Coupled.of_reachable hs
  have hs := narrow_of_reachable hdepth hk hs
  exact {
    inside := fun ptr hptr => by
      obtain ⟨i, hi⟩ := List.mem_iff_getElem?.1 hptr
      obtain ⟨-, rfl⟩ := hc.pointers_getElem? hi
      intro x hx
      exact Nat.lt_of_lt_of_le hx.2 (offset_add_le hdepth hsize i)
    disjoint := fun i j p q hi hij => disjoint_pointers hdepth hsize hs hi hij
    hands := fun nextHead ptr h => hands_of_granted hc h
    loads := fun dest h => by simp only [Threads.popStep, h, hc.read]
    passes := fun tail dest h => passes_of_loaded hdepth hk hs h
    refused := fun t => refused_of_reachable hdepth hk hs
    copies := fun tail h => copies_of_passed hdepth hs h
    discards := fun tail h => by simp only [Threads.popStep, h, Threads.read]
    delivers := fun tail read h => delivers_of_copied hc h
    reads := fun i ptr block => handed_of_read hdepth hs }

/-- Of two blocks of three elements: the first pop has copied what the first push filled in, the
third push is handed the block that this pop has released, and the second pop is about to copy. -/
theorem owned_of_reachable_two : ∃ s : Threads ⟨3, 2⟩ ℕ,
    (s.handed = [0, 3, 0] ∧ s.producer = .returned 0 ∧
      s.taken = [some (0, fun i => 10 + i.val)] ∧
      (s.popStep .copy).map (fun t => t.consumer.read) = some [some (3, fun i => 20 + i.val)]) ∧
      Owned ⟨3, 2⟩ s := by
  obtain ⟨s, hs, hp⟩ := (system ⟨3, 2⟩ fun _ => (0 : ℕ)).exists_reachable
    (p := fun s => s.handed = [0, 3, 0] ∧ s.producer = .returned 0 ∧
      s.taken = [some (0, fun i => 10 + i.val)] ∧
      (s.popStep .copy).map (fun t => t.consumer.read) = some [some (3, fun i => 20 + i.val)])
    [.push .load, .push (.test true), .push .store, .push (.fill fun i => 10 + i.val), .push .load,
      .pop (.load .copy), .push (.test true), .pop (.test true), .push .store, .pop .copy,
      .pop .store, .push (.fill fun i => 20 + i.val), .push .load, .push (.test true),
      .pop (.load .copy), .push .store, .pop (.test true)] (by decide)
  exact ⟨s, hp, owned_of_reachable (k := 1) (by decide) (by decide) (by decide) _ hs⟩

end ThreadTests.Arene
