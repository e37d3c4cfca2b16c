import ThreadTests.Core.Informed
import ThreadTests.Ring.Bitmask
import ThreadTests.Ring.Modulo

/-!
# The lock-free rings on a release/acquire memory

The rings store their counters with `memory_order_release` and load the counter of the other side
with `memory_order_acquire`, and the slots are plain memory. Here the two threads of
`ThreadTests.Ring.Interleaved` run on such a memory: a load of a counter may take an old message,
and an access to a slot is a data race unless the thread knows of the accesses before it. The loads
of the own counter, sequentially consistent in the source, are taken as acquire loads as well.

What a thread has seen of the other counter is too small, never too large, but it is never less than
the calls it has completed need (`Informed`): the window that the tests are made on is as narrow as
that of the current counters.
-/

namespace ThreadTests

open ReleaseAcquire

universe u v

variable {κ : Type u} {T : Type v}

/-- The memory of the ring, the two threads, and what the calls that returned true have done. -/
structure WeakThreads (κ : Type u) (T : Type v) where
  memory : Memory Party Counter κ ℕ T
  producer : PushPc κ T
  consumer : PopPc κ T
  pushed : List T
  popped : List T
  slots : List ℕ

/-- The steps of the two threads; a load carries the number of the message it takes. -/
inductive WeakStep (T : Type v) where
  | pushLoad (val : T) (k : ℕ)
  | pushTest (k : ℕ) (room : Bool)
  | pushWrite
  | pushStore
  | popLoad (k : ℕ)
  | popTest (k : ℕ) (more : Bool)
  | popRead
  | popStore
  deriving DecidableEq, Repr

/-- The step without the number of the message. -/
def WeakStep.forget : WeakStep T → Step T
  | .pushLoad val _ => .pushLoad val
  | .pushTest _ room => .pushTest room
  | .pushWrite => .pushWrite
  | .pushStore => .pushStore
  | .popLoad _ => .popLoad
  | .popTest _ more => .popTest more
  | .popRead => .popRead
  | .popStore => .popStore

/-- The counter that a step loads, and the message it takes. -/
def WeakStep.taken : WeakStep T → Option (Counter × ℕ)
  | .pushLoad _ k | .popTest k _ => some (.mWrite, k)
  | .pushTest k _ | .popLoad k => some (.mRead, k)
  | .pushWrite | .pushStore | .popRead | .popStore => none

namespace Arith

section Model

variable [DecidableEq κ]

def weakStep (a : Arith κ) (s : WeakThreads κ T) : WeakStep T → Option (WeakThreads κ T)
  | .pushLoad val k =>
    match s.producer with
    | .idle =>
      (s.memory.load .producer .mWrite k).map fun (tail, memory) =>
        { s with memory := memory, producer := .loaded val tail (a.increment tail) }
    | _ => none
  | .pushTest k room =>
    match s.producer with
    | .loaded val tail next =>
      (s.memory.load .producer .mRead k).bind fun (read, memory) =>
        if a.room tail read = room then
          some { s with
            memory := memory
            producer := if room then .passed val tail next else .idle }
        else none
    | _ => none
  | .pushWrite =>
    match s.producer with
    | .passed val tail next =>
      some { s with
        memory := s.memory.write .producer (a.slot tail) val
        producer := .written val tail next }
    | _ => none
  | .pushStore =>
    match s.producer with
    | .written val tail next =>
      some { s with
        memory := s.memory.store .producer .mWrite next, producer := .idle
        pushed := s.pushed ++ [val], slots := s.slots ++ [a.slot tail] }
    | _ => none
  | .popLoad k =>
    match s.consumer with
    | .idle =>
      (s.memory.load .consumer .mRead k).map fun (head, memory) =>
        { s with memory := memory, consumer := .loaded head }
    | _ => none
  | .popTest k more =>
    match s.consumer with
    | .loaded head =>
      (s.memory.load .consumer .mWrite k).bind fun (write, memory) =>
        if decide (head ≠ write) = more then
          some { s with memory := memory, consumer := if more then .passed head else .idle }
        else none
    | _ => none
  | .popRead =>
    match s.consumer with
    | .passed head =>
      let (element, memory) := s.memory.read .consumer (a.slot head)
      some { s with memory := memory, consumer := .copied head element }
    | _ => none
  | .popStore =>
    match s.consumer with
    | .copied head element =>
      some { s with
        memory := s.memory.store .consumer .mRead (a.increment head), consumer := .idle
        popped := s.popped ++ [element] }
    | _ => none

/-- The steps, each with what it needs and what it changes. -/
inductive WeakMoves (a : Arith κ) (s : WeakThreads κ T) : WeakStep T → WeakThreads κ T → Prop
  | pushLoad {val k tail memory} (h : s.producer = .idle)
    (hload : s.memory.load .producer .mWrite k = some (tail, memory)) :
    WeakMoves a s (.pushLoad val k)
      { s with memory := memory, producer := .loaded val tail (a.increment tail) }
  | pushTest {val tail next k read memory room} (h : s.producer = .loaded val tail next)
    (hload : s.memory.load .producer .mRead k = some (read, memory))
    (hr : a.room tail read = room) :
    WeakMoves a s (.pushTest k room)
      { s with memory := memory, producer := if room then .passed val tail next else .idle }
  | pushWrite {val tail next} (h : s.producer = .passed val tail next) :
    WeakMoves a s .pushWrite
      { s with
        memory := s.memory.write .producer (a.slot tail) val
        producer := .written val tail next }
  | pushStore {val tail next} (h : s.producer = .written val tail next) :
    WeakMoves a s .pushStore
      { s with
        memory := s.memory.store .producer .mWrite next, producer := .idle
        pushed := s.pushed ++ [val], slots := s.slots ++ [a.slot tail] }
  | popLoad {k head memory} (h : s.consumer = .idle)
    (hload : s.memory.load .consumer .mRead k = some (head, memory)) :
    WeakMoves a s (.popLoad k) { s with memory := memory, consumer := .loaded head }
  | popTest {head k write memory more} (h : s.consumer = .loaded head)
    (hload : s.memory.load .consumer .mWrite k = some (write, memory))
    (hm : decide (head ≠ write) = more) :
    WeakMoves a s (.popTest k more)
      { s with memory := memory, consumer := if more then .passed head else .idle }
  | popRead {head} (h : s.consumer = .passed head) :
    WeakMoves a s .popRead
      { s with
        memory := s.memory.access .consumer (· = a.slot head) false
        consumer := .copied head (s.memory.data (a.slot head)) }
  | popStore {head element} (h : s.consumer = .copied head element) :
    WeakMoves a s .popStore
      { s with
        memory := s.memory.store .consumer .mRead (a.increment head), consumer := .idle
        popped := s.popped ++ [element] }

theorem weakMoves_of_step {a : Arith κ} {s t : WeakThreads κ T} {e : WeakStep T}
    (hst : a.weakStep s e = some t) : a.WeakMoves s e t := by
  cases e with
  | pushLoad val k =>
    cases h : s.producer <;> simp only [weakStep, h, reduceCtorEq] at hst
    obtain ⟨⟨tail, memory⟩, hload, rfl⟩ := Option.map_eq_some_iff.1 hst
    exact .pushLoad h hload
  | pushTest k room =>
    cases h : s.producer <;> simp only [weakStep, h, reduceCtorEq] at hst
    obtain ⟨⟨read, memory⟩, hload, hif⟩ := Option.bind_eq_some_iff.1 hst
    obtain ⟨hr, ⟨⟩⟩ := Option.ite_none_right_eq_some.1 hif
    exact .pushTest h hload hr
  | pushWrite =>
    cases h : s.producer <;> simp only [weakStep, h, reduceCtorEq] at hst
    cases hst
    exact .pushWrite h
  | pushStore =>
    cases h : s.producer <;> simp only [weakStep, h, reduceCtorEq] at hst
    cases hst
    exact .pushStore h
  | popLoad k =>
    cases h : s.consumer <;> simp only [weakStep, h, reduceCtorEq] at hst
    obtain ⟨⟨head, memory⟩, hload, rfl⟩ := Option.map_eq_some_iff.1 hst
    exact .popLoad h hload
  | popTest k more =>
    cases h : s.consumer <;> simp only [weakStep, h, reduceCtorEq] at hst
    obtain ⟨⟨write, memory⟩, hload, hif⟩ := Option.bind_eq_some_iff.1 hst
    obtain ⟨hm, ⟨⟩⟩ := Option.ite_none_right_eq_some.1 hif
    exact .popTest h hload hm
  | popRead =>
    cases h : s.consumer <;> simp only [weakStep, h, reduceCtorEq] at hst
    cases hst
    exact .popRead h
  | popStore =>
    cases h : s.consumer <;> simp only [weakStep, h, reduceCtorEq] at hst
    cases hst
    exact .popStore h

/-- A move is a step, so the moves say all that a step needs. -/
theorem WeakMoves.step_eq {a : Arith κ} {s t : WeakThreads κ T} {e : WeakStep T}
    (h : a.WeakMoves s e t) : a.weakStep s e = some t := by
  cases h with
  | pushLoad h hload => simp only [weakStep, h, hload, Option.map_some]
  | pushTest h hload hr => simp only [weakStep, h, hload, Option.bind_some, hr, if_true]
  | pushWrite h => simp only [weakStep, h]
  | pushStore h => simp only [weakStep, h]
  | popLoad h hload => simp only [weakStep, h, hload, Option.map_some]
  | popTest h hload hm => simp only [weakStep, h, hload, Option.bind_some, hm, if_true]
  | popRead h => simp only [weakStep, h, Memory.read]
  | popStore h => simp only [weakStep, h]

/-- A new ring, which the two threads know of, and two threads outside of calls. -/
def weakStart (a : Arith κ) (mBuffer : ℕ → T) : WeakThreads κ T where
  memory := .new (fun _ => a.zero) mBuffer
  producer := .idle
  consumer := .idle
  pushed := []
  popped := []
  slots := []

def weakSystem (a : Arith κ) (mBuffer : ℕ → T) : System (WeakThreads κ T) (WeakStep T) where
  init := a.weakStart mBuffer
  step := a.weakStep

end Model

end Arith

namespace WeakThreads

/-- How many stores a counter has seen. -/
def done (s : WeakThreads κ T) : Counter → ℕ
  | .mWrite => s.pushed.length
  | .mRead => s.popped.length

/-- The owner has accessed its slot and is to store the counter. -/
def pending (s : WeakThreads κ T) : Counter → Bool
  | .mWrite => match s.producer with
    | .written .. => true
    | _ => false
  | .mRead => match s.consumer with
    | .copied .. => true
    | _ => false

end WeakThreads

namespace Arith

variable {a : Arith κ} {mBuffer : ℕ → T} {s t : WeakThreads κ T} {e : WeakStep T}

/-! ## The counters count -/

/-- The messages of the counters are the counts of the stores, and a thread's copy of its own
counter is current. -/
structure WeakCoupled (a : Arith κ) (s : WeakThreads κ T) : Prop where
  counting : Counting a.count s.done s.memory
  producer : ∀ {tail next}, s.producer.locals = some (tail, next) →
    tail = a.count s.pushed.length ∧ next = a.count (s.pushed.length + 1)
  consumer : ∀ {head}, s.consumer.locals = some head → head = a.count s.popped.length
  slots : s.slots = (List.range s.pushed.length).map fun i => a.slot (a.count i)

theorem WeakCoupled.start : WeakCoupled a (a.weakStart mBuffer) :=
  ⟨.new mBuffer fun c => by cases c <;> rfl, nofun, nofun, rfl⟩

theorem WeakCoupled.moves [DecidableEq κ] (h : WeakCoupled a s) (hst : a.WeakMoves s e t) :
    WeakCoupled a t := by
  cases hst with
  | @pushLoad val k tail memory hpc hload =>
    refine ⟨h.counting.load hload, ?_, h.consumer, h.slots⟩
    intro _ _ hl
    cases hl
    obtain rfl := h.counting.own (c := .mWrite) hload
    exact ⟨rfl, increment_count _⟩
  | @pushTest val tail next k read memory room hpc hload hr =>
    refine ⟨h.counting.load hload, ?_, h.consumer, h.slots⟩
    intro _ _ hl
    cases room with
    | false => cases hl
    | true => exact h.producer (by rw [hpc]; exact hl)
  | pushWrite hpc =>
    refine ⟨h.counting.keep (Memory.extends_write ..) rfl, ?_, h.consumer, h.slots⟩
    intro _ _ hl
    exact h.producer (by rw [hpc]; exact hl)
  | @pushStore val tail next hpc =>
    obtain ⟨htail, hnext⟩ := h.producer (by rw [hpc]; rfl)
    refine ⟨h.counting.store (c := .mWrite) hnext fun d => ?_, nofun, h.consumer, ?_⟩
    · cases d with
      | mWrite => simp [WeakThreads.done]
      | mRead => rfl
    · change s.slots ++ [a.slot tail] = _
      rw [h.slots, htail, List.length_append, List.length_singleton, List.range_succ,
        List.map_append]
      rfl
  | @popLoad k head memory hpc hload =>
    refine ⟨h.counting.load hload, h.producer, ?_, h.slots⟩
    intro _ hl
    cases hl
    exact h.counting.own (c := .mRead) hload
  | @popTest head k write memory more hpc hload hm =>
    refine ⟨h.counting.load hload, h.producer, ?_, h.slots⟩
    intro _ hl
    cases more with
    | false => cases hl
    | true => exact h.consumer (by rw [hpc]; exact hl)
  | popRead hpc =>
    refine ⟨h.counting.keep (Memory.extends_access ..) rfl, h.producer, ?_, h.slots⟩
    intro _ hl
    exact h.consumer (by rw [hpc]; exact hl)
  | @popStore head element hpc =>
    have hhead := h.consumer (by rw [hpc]; rfl)
    have hnext : a.increment head = a.count (s.popped.length + 1) := by
      rw [hhead, increment_count]
    refine ⟨h.counting.store (c := .mRead) hnext fun d => ?_, h.producer, nofun, h.slots⟩
    cases d with
    | mWrite => rfl
    | mRead => simp [WeakThreads.done]

theorem weakCoupled_of_reachable [DecidableEq κ] (hs : (a.weakSystem mBuffer).Reachable s) :
    WeakCoupled a s :=
  System.invariant (P := WeakCoupled a) .start
    (fun _ h hst => h.moves (weakMoves_of_step hst)) hs

/-! ## What a thread knows of the other counter -/

variable {cap : ℕ} {L : LowerSet ℕ} [DecidableEq κ]

/-- What the threads know of the other counter. -/
def Knowing (cap : ℕ) (s : WeakThreads κ T) : Prop :=
  Informed cap s.done (s.producer.target ≠ none) (s.consumer.phase = .passed) s.memory

omit [DecidableEq κ] in
theorem Knowing.start : Knowing cap (a.weakStart mBuffer) :=
  .new mBuffer (fun c => by cases c <;> rfl) (fun h => h rfl) nofun

theorem Knowing.moves (ha : (a.protocol cap).Sound L) (h : Knowing cap s) (hc : WeakCoupled a s)
    (hL : s.pushed.length ∈ L) (hst : a.WeakMoves s e t) : Knowing cap t := by
  cases hst with
  | pushLoad hpc hload =>
    exact Informed.keep h (Memory.extends_load hload) (fun hne => absurd rfl hne) id
  | @pushTest val tail next k read memory room hpc hload hr =>
    refine Informed.grant h hload (fun hne => ?_) id
    obtain ⟨hk, hbound, rfl⟩ := h.room_of_load hc.counting hload
    obtain ⟨rfl, -⟩ := hc.producer (by rw [hpc]; rfl)
    cases room with
    | false => exact absurd rfl hne
    | true => exact ha.room_lt (hk.trans (h.le hc.counting)) hbound hL hr
  | pushWrite hpc =>
    refine Informed.keep h (Memory.extends_write ..) (fun _ => ?_) id
    rw [hpc]
    exact Option.some_ne_none _
  | @pushStore val tail next hpc =>
    have hpassed : s.producer.target ≠ none := by
      rw [hpc]
      exact Option.some_ne_none _
    refine Informed.push h hpassed (Memory.extends_store ..) ?_ rfl fun hne => hne rfl
    simp [WeakThreads.done]
  | popLoad hpc hload => exact Informed.keep h (Memory.extends_load hload) id nofun
  | @popTest head k write memory more hpc hload hm =>
    refine Informed.hold h hc.counting hload id fun hp => ?_
    obtain ⟨hle, -, rfl⟩ := h.more_of_load hc.counting hload
    obtain rfl := hc.consumer (by rw [hpc]; rfl)
    cases more with
    | false => cases hp
    | true =>
      have hne : k ≠ s.popped.length := ha.more_ne hm
      exact Nat.lt_of_le_of_ne hle hne.symm
  | popRead hpc =>
    refine Informed.keep h (Memory.extends_access ..) id fun _ => ?_
    rw [hpc]
    rfl
  | @popStore head element hpc =>
    have hpassed : s.consumer.phase = .passed := by
      rw [hpc]
      rfl
    refine Informed.pop h hpassed (Memory.extends_store ..) rfl ?_ nofun
    simp [WeakThreads.done]

theorem weak_pushed_length_le (hst : a.WeakMoves s e t) : s.pushed.length ≤ t.pushed.length := by
  cases hst <;> simp

/-- What the threads know, at every count of pushes for which the tests are right. -/
theorem knowing_of_reachable (ha : (a.protocol cap).Sound L)
    (hs : (a.weakSystem mBuffer).Reachable s) (hL : s.pushed.length ∈ L) : Knowing cap s := by
  refine System.invariant (P := fun s => s.pushed.length ∈ L → Knowing cap s)
    (fun _ => .start) (fun {s t e} hs h hst hL => ?_) hs hL
  have hmoves := weakMoves_of_step hst
  have hL' := L.lower (weak_pushed_length_le hmoves) hL
  exact (h hL').moves ha (weakCoupled_of_reachable hs) hL' hmoves

end Arith

end ThreadTests
