import ThreadTests.Core.Informed
import ThreadTests.Arene.Latency

/-!
# `test_arene` on a release/acquire memory

The benchmark of `ThreadTests.Arene.Latency` with the memory of `ThreadTests.Core.ReleaseAcquire`: a
load of a counter may take an old message, and a fill or a copy is an access to every element of its
block. `try_push` stores `m_write` before its caller fills the block, so the store of a push
publishes the fill of the push before.

The writer fills the `i`-th block with `junk i`, any block, and the destination of the reader is
never null, so that each pop copies.
-/

namespace ThreadTests.Arene

open ReleaseAcquire

universe u

/-- The element lies in the block at the pointer. -/
def Shape.within (c : Shape) (ptr : SizeT) (x : ℕ) : Prop :=
  ptr.toNat ≤ x ∧ x < ptr.toNat + c.mWidth.toNat

instance (c : Shape) (ptr : SizeT) : DecidablePred (c.within ptr) := fun x =>
  inferInstanceAs (Decidable (ptr.toNat ≤ x ∧ x < ptr.toNat + c.mWidth.toNat))

/-- Where the reader stands in `try_pop`, with a destination. -/
inductive CopyPc (c : Shape) (E : Type u) where
  | idle
  | loaded (tail : SizeT)
  | passed (tail : SizeT)
  | copied (tail ptr : SizeT) (block : c.Block E)

/-- The memory, the two threads, and what they have done: the pointers handed out, the blocks filled
in, and the pointers and blocks copied by the pops. -/
structure WeakBench (p : Setup) (E : Type u) where
  memory : ReleaseAcquire.Memory Party Counter SizeT ℕ E
  producer : PushPc
  consumer : CopyPc p.shape E
  reader : Reader
  handed : List SizeT
  filled : List (p.shape.Block E)
  taken : List (SizeT × p.shape.Block E)

/-- The steps of the two threads; a load carries the number of the message it takes. -/
inductive WeakBenchStep where
  | pushLoad (k : ℕ)
  | pushTest (k : ℕ) (room : Bool)
  | pushStore
  | fill
  | head (k : ℕ)
  | tail (k : ℕ)
  | leave (satisfied : Bool)
  | popLoad (k : ℕ)
  | popTest (k : ℕ) (more : Bool)
  | copy
  | popStore
  deriving DecidableEq, Repr

variable {p : Setup} {E : Type u} {junk : ℕ → p.shape.Block E} {mBuffer : ℕ → E}

namespace WeakBench

/-- The memory after `memcpy` to the block at `ptr`. -/
def fillMemory (s : WeakBench p E) (ptr : SizeT) (block : p.shape.Block E) :
    ReleaseAcquire.Memory Party Counter SizeT ℕ E :=
  { s.memory.access .producer (p.shape.within ptr) true with
    data := Memory.writeBlock s.memory.data ptr.toNat block }

/-- What `memcpy` reads from the block at `ptr`. -/
def readBlock (s : WeakBench p E) (ptr : SizeT) : p.shape.Block E :=
  Memory.readBlock s.memory.data ptr.toNat p.shape.mWidth.toNat

def step (junk : ℕ → p.shape.Block E) (s : WeakBench p E) : WeakBenchStep → Option (WeakBench p E)
  | .pushLoad k =>
    match s.producer with
    | .idle =>
      if (s.handed.length : ℤ) < p.nelements.toInt then
        (s.memory.load .producer .mWrite k).map fun (head, memory) =>
          { s with
            memory := memory
            producer := .loaded head (increment (sizeToUnsigned head)) }
      else none
    | _ => none
  | .pushTest k room =>
    match s.producer with
    | .loaded head nextHead =>
      (s.memory.load .producer .mRead k).bind fun (tail, memory) =>
        if p.shape.room head tail = room then
          some { s with
            memory := memory
            producer := if room then .granted nextHead (p.shape.offset head) else .idle }
        else none
    | _ => none
  | .pushStore =>
    match s.producer with
    | .granted nextHead ptr =>
      some { s with
        memory := s.memory.store .producer .mWrite (intToSize nextHead)
        producer := .returned ptr, handed := s.handed ++ [ptr] }
    | _ => none
  | .fill =>
    match s.producer with
    | .returned ptr =>
      some { s with
        memory := s.fillMemory ptr (junk s.filled.length)
        producer := .idle, filled := s.filled ++ [junk s.filled.length] }
    | _ => none
  | .head k =>
    match s.reader with
    | .waiting =>
      if (s.taken.length : ℤ) < p.nelements.toInt then
        (s.memory.load .consumer .mWrite k).map fun (head, memory) =>
          { s with memory := memory, reader := .loadedHead head }
      else none
    | _ => none
  | .tail k =>
    match s.reader with
    | .loadedHead head =>
      (s.memory.load .consumer .mRead k).map fun (tail, memory) =>
        { s with memory := memory, reader := .loadedTail head tail }
    | _ => none
  | .leave satisfied =>
    match s.reader with
    | .loadedTail head tail =>
      if p.satisfied head tail = satisfied then
        some { s with reader := if satisfied then .popping else .waiting }
      else none
    | _ => none
  | .popLoad k =>
    match s.reader, s.consumer with
    | .popping, .idle =>
      if (s.taken.length : ℤ) < p.nelements.toInt then
        (s.memory.load .consumer .mRead k).map fun (tail, memory) =>
          { s with memory := memory, consumer := .loaded tail }
      else none
    | _, _ => none
  | .popTest k more =>
    match s.consumer with
    | .loaded tail =>
      (s.memory.load .consumer .mWrite k).bind fun (head, memory) =>
        if decide (tail ≠ head) = more then
          some { s with memory := memory, consumer := if more then .passed tail else .idle }
        else none
    | _ => none
  | .copy =>
    match s.consumer with
    | .passed tail =>
      let ptr := p.shape.offset tail
      some { s with
        memory := s.memory.access .consumer (p.shape.within ptr) false
        consumer := .copied tail ptr (s.readBlock ptr) }
    | _ => none
  | .popStore =>
    match s.consumer with
    | .copied tail ptr block =>
      some { s with
        memory := s.memory.store .consumer .mRead (intToSize (increment (sizeToUnsigned tail)))
        consumer := .idle, reader := p.enter, taken := s.taken ++ [(ptr, block)] }
    | _ => none

def start (p : Setup) (mBuffer : ℕ → E) : WeakBench p E where
  memory := .new (fun _ => 0) mBuffer
  producer := .idle
  consumer := .idle
  reader := p.enter
  handed := []
  filled := []
  taken := []

/-- The steps, each with what it needs and what it changes. -/
inductive Moves (junk : ℕ → p.shape.Block E) (s : WeakBench p E) :
    WeakBenchStep → WeakBench p E → Prop
  | pushLoad {k head memory} (h : s.producer = .idle)
    (hlt : (s.handed.length : ℤ) < p.nelements.toInt)
    (hload : s.memory.load .producer .mWrite k = some (head, memory)) :
    Moves junk s (.pushLoad k)
      { s with memory := memory, producer := .loaded head (increment (sizeToUnsigned head)) }
  | pushTest {head nextHead k tail memory room} (h : s.producer = .loaded head nextHead)
    (hload : s.memory.load .producer .mRead k = some (tail, memory))
    (hr : p.shape.room head tail = room) :
    Moves junk s (.pushTest k room)
      { s with
        memory := memory
        producer := if room then .granted nextHead (p.shape.offset head) else .idle }
  | pushStore {nextHead ptr} (h : s.producer = .granted nextHead ptr) :
    Moves junk s .pushStore
      { s with
        memory := s.memory.store .producer .mWrite (intToSize nextHead)
        producer := .returned ptr, handed := s.handed ++ [ptr] }
  | fill {ptr} (h : s.producer = .returned ptr) :
    Moves junk s .fill
      { s with
        memory := s.fillMemory ptr (junk s.filled.length)
        producer := .idle, filled := s.filled ++ [junk s.filled.length] }
  | head {k head memory} (h : s.reader = .waiting)
    (hlt : (s.taken.length : ℤ) < p.nelements.toInt)
    (hload : s.memory.load .consumer .mWrite k = some (head, memory)) :
    Moves junk s (.head k) { s with memory := memory, reader := .loadedHead head }
  | tail {head k tail memory} (h : s.reader = .loadedHead head)
    (hload : s.memory.load .consumer .mRead k = some (tail, memory)) :
    Moves junk s (.tail k) { s with memory := memory, reader := .loadedTail head tail }
  | leave {head tail satisfied} (h : s.reader = .loadedTail head tail)
    (hs : p.satisfied head tail = satisfied) :
    Moves junk s (.leave satisfied) { s with reader := if satisfied then .popping else .waiting }
  | popLoad {k tail memory} (hr : s.reader = .popping) (h : s.consumer = .idle)
    (hlt : (s.taken.length : ℤ) < p.nelements.toInt)
    (hload : s.memory.load .consumer .mRead k = some (tail, memory)) :
    Moves junk s (.popLoad k) { s with memory := memory, consumer := .loaded tail }
  | popTest {tail k head memory more} (h : s.consumer = .loaded tail)
    (hload : s.memory.load .consumer .mWrite k = some (head, memory))
    (hm : decide (tail ≠ head) = more) :
    Moves junk s (.popTest k more)
      { s with memory := memory, consumer := if more then .passed tail else .idle }
  | copy {tail} (h : s.consumer = .passed tail) :
    Moves junk s .copy
      { s with
        memory := s.memory.access .consumer (p.shape.within (p.shape.offset tail)) false
        consumer := .copied tail (p.shape.offset tail) (s.readBlock (p.shape.offset tail)) }
  | popStore {tail ptr block} (h : s.consumer = .copied tail ptr block) :
    Moves junk s .popStore
      { s with
        memory := s.memory.store .consumer .mRead (intToSize (increment (sizeToUnsigned tail)))
        consumer := .idle, reader := p.enter, taken := s.taken ++ [(ptr, block)] }

theorem moves_of_step {s t : WeakBench p E} {e : WeakBenchStep} (hst : s.step junk e = some t) :
    s.Moves junk e t := by
  cases e with
  | pushLoad k =>
    cases h : s.producer <;> simp only [step, h, reduceCtorEq] at hst
    obtain ⟨hlt, hst⟩ := Option.ite_none_right_eq_some.1 hst
    obtain ⟨⟨head, memory⟩, hload, rfl⟩ := Option.map_eq_some_iff.1 hst
    exact .pushLoad h hlt hload
  | pushTest k room =>
    cases h : s.producer <;> simp only [step, h, reduceCtorEq] at hst
    obtain ⟨⟨tail, memory⟩, hload, hif⟩ := Option.bind_eq_some_iff.1 hst
    obtain ⟨hr, ⟨⟩⟩ := Option.ite_none_right_eq_some.1 hif
    exact .pushTest h hload hr
  | pushStore =>
    cases h : s.producer <;> simp only [step, h, reduceCtorEq] at hst
    cases hst
    exact .pushStore h
  | fill =>
    cases h : s.producer <;> simp only [step, h, reduceCtorEq] at hst
    cases hst
    exact .fill h
  | head k =>
    cases h : s.reader <;> simp only [step, h, reduceCtorEq] at hst
    obtain ⟨hlt, hst⟩ := Option.ite_none_right_eq_some.1 hst
    obtain ⟨⟨head, memory⟩, hload, rfl⟩ := Option.map_eq_some_iff.1 hst
    exact .head h hlt hload
  | tail k =>
    cases h : s.reader <;> simp only [step, h, reduceCtorEq] at hst
    obtain ⟨⟨tail, memory⟩, hload, rfl⟩ := Option.map_eq_some_iff.1 hst
    exact .tail h hload
  | leave satisfied =>
    cases h : s.reader <;> simp only [step, h, reduceCtorEq] at hst
    obtain ⟨hs, ⟨⟩⟩ := Option.ite_none_right_eq_some.1 hst
    exact .leave h hs
  | popLoad k =>
    cases hr : s.reader <;> simp only [step, hr, reduceCtorEq] at hst
    cases h : s.consumer <;> simp only [h, reduceCtorEq] at hst
    obtain ⟨hlt, hst⟩ := Option.ite_none_right_eq_some.1 hst
    obtain ⟨⟨tail, memory⟩, hload, rfl⟩ := Option.map_eq_some_iff.1 hst
    rw [← hr]
    exact .popLoad hr h hlt hload
  | popTest k more =>
    cases h : s.consumer <;> simp only [step, h, reduceCtorEq] at hst
    obtain ⟨⟨head, memory⟩, hload, hif⟩ := Option.bind_eq_some_iff.1 hst
    obtain ⟨hm, ⟨⟩⟩ := Option.ite_none_right_eq_some.1 hif
    exact .popTest h hload hm
  | copy =>
    cases h : s.consumer <;> simp only [step, h, reduceCtorEq] at hst
    cases hst
    exact .copy h
  | popStore =>
    cases h : s.consumer <;> simp only [step, h, reduceCtorEq] at hst
    cases hst
    exact .popStore h

/-- A move is a step, so the moves say all that a step needs. -/
theorem Moves.step_eq {s t : WeakBench p E} {e : WeakBenchStep} (h : s.Moves junk e t) :
    s.step junk e = some t := by
  cases h with
  | pushLoad h hlt hload => simp only [step, h, hlt, hload, if_true, Option.map_some]
  | pushTest h hload hr => simp only [step, h, hload, Option.bind_some, hr, if_true]
  | pushStore h => simp only [step, h]
  | fill h => simp only [step, h]
  | head h hlt hload => simp only [step, h, hlt, hload, if_true, Option.map_some]
  | tail h hload => simp only [step, h, hload, Option.map_some]
  | leave h hs => simp only [step, h, hs, if_true]
  | popLoad hr h hlt hload => simp only [step, hr, h, hlt, hload, if_true, Option.map_some]
  | popTest h hload hm => simp only [step, h, hload, Option.bind_some, hm, if_true]
  | copy h => simp only [step, h]
  | popStore h => simp only [step, h]

/-- How many stores a counter has seen. -/
def done (s : WeakBench p E) : Counter → ℕ
  | .mWrite => s.handed.length
  | .mRead => s.taken.length

end WeakBench

/-- The benchmark on a release/acquire memory. -/
def weakLatencyRun (p : Setup) (junk : ℕ → p.shape.Block E) (mBuffer : ℕ → E) :
    System (WeakBench p E) WeakBenchStep where
  init := WeakBench.start p mBuffer
  step := WeakBench.step junk

namespace CopyPc

/-- `tail`, once loaded. -/
def tail {c : Shape} : CopyPc c E → Option SizeT
  | .idle => none
  | .loaded tail | .passed tail | .copied tail _ _ => some tail

/-- What the call under way has copied. -/
def read {c : Shape} : CopyPc c E → List (SizeT × c.Block E)
  | .copied _ ptr block => [(ptr, block)]
  | _ => []

/-- The test has succeeded. -/
def holding {c : Shape} : CopyPc c E → Bool
  | .passed _ | .copied .. => true
  | _ => false

theorem holding_of_read {c : Shape} {pc : CopyPc c E} (h : pc.read ≠ []) : pc.holding = true := by
  cases pc with
  | passed | copied => rfl
  | idle | loaded => exact absurd rfl h

end CopyPc

namespace WeakBench

variable {s t : WeakBench p E} {e : WeakBenchStep}

theorem extends_fillMemory (s : WeakBench p E) (ptr : SizeT) (block : p.shape.Block E) :
    s.memory.Extends (s.fillMemory ptr block) :=
  ⟨Memory.knows_tick rfl, fun _ => List.prefix_rfl⟩

/-! ## The counters count -/

/-- The messages are the counts of the stores, the pointers are those of the counts, and the program
counters hold what was loaded from the own counter. -/
structure Coupled (s : WeakBench p E) : Prop where
  counting : Counting count s.done s.memory
  loaded : ∀ {head nextHead}, s.producer = .loaded head nextHead →
    head = count s.handed.length ∧ nextHead = increment (sizeToUnsigned head)
  granted : ∀ {nextHead ptr}, s.producer = .granted nextHead ptr →
    intToSize nextHead = count (s.handed.length + 1) ∧ ptr = p.shape.offset (count s.handed.length)
  returned : ∀ {ptr}, s.producer = .returned ptr →
    s.handed.length = s.filled.length + 1 ∧ ptr = p.shape.offset (count s.filled.length)
  settled : (∀ ptr, s.producer ≠ .returned ptr) → s.filled.length = s.handed.length
  tail : ∀ {tail}, s.consumer.tail = some tail → tail = count s.taken.length
  taken : ∀ i ptr block, (s.taken ++ s.consumer.read)[i]? = some (ptr, block) →
    ptr = p.shape.offset (count i)

namespace Coupled

theorem start : Coupled (WeakBench.start p mBuffer) :=
  ⟨.new mBuffer fun c => by cases c <;> rfl, nofun, nofun, nofun, fun _ => rfl, nofun,
    by simp [WeakBench.start, CopyPc.read]⟩

/-- The producer's own pointer and counter are those of its number of pushes. -/
theorem pushStore (h : Coupled s) {nextHead : CInt} {ptr : SizeT}
    (hpc : s.producer = .granted nextHead ptr) :
    Coupled { s with
      memory := s.memory.store .producer .mWrite (intToSize nextHead)
      producer := .returned ptr, handed := s.handed ++ [ptr] } := by
  obtain ⟨hnext, rfl⟩ := h.granted hpc
  have hfilled := h.settled (by simp [hpc])
  refine ⟨h.counting.store (c := .mWrite) hnext fun d => ?_, nofun, nofun, ?_, ?_, h.tail, h.taken⟩
  · cases d with
    | mWrite => simp [done]
    | mRead => rfl
  · rintro _ ⟨⟩
    rw [List.length_append, List.length_singleton, hfilled]
    exact ⟨rfl, rfl⟩
  · exact fun hne => absurd rfl (hne _)

theorem copy (h : Coupled s) {tail : SizeT} (hpc : s.consumer = .passed tail) :
    Coupled { s with
      memory := s.memory.access .consumer (p.shape.within (p.shape.offset tail)) false
      consumer := .copied tail (p.shape.offset tail) (s.readBlock (p.shape.offset tail)) } := by
  have htail := h.tail (by rw [hpc]; rfl)
  have htaken := h.taken
  simp only [hpc, CopyPc.read, List.append_nil] at htaken
  refine ⟨h.counting.keep (Memory.extends_access ..) rfl, h.loaded, h.granted, h.returned,
    h.settled, ?_, ?_⟩
  · rintro _ ⟨⟩
    exact htail
  · intro i ptr block hread
    rcases Nat.lt_or_ge i s.taken.length with hi | hi
    · rw [List.getElem?_append_left hi] at hread
      exact htaken i ptr block hread
    · rw [List.getElem?_append_right hi] at hread
      simp only [CopyPc.read, List.getElem?_singleton, Option.ite_none_right_eq_some,
        Option.some.injEq, Prod.mk.injEq] at hread
      obtain ⟨hlast, rfl, -⟩ := hread
      rw [htail, show i = s.taken.length by omega]

theorem popStore (h : Coupled s) {tail ptr : SizeT} {block : p.shape.Block E}
    (hpc : s.consumer = .copied tail ptr block) :
    Coupled { s with
      memory := s.memory.store .consumer .mRead (intToSize (increment (sizeToUnsigned tail)))
      consumer := .idle, reader := p.enter, taken := s.taken ++ [(ptr, block)] } := by
  obtain rfl := h.tail (by rw [hpc]; rfl)
  have hnext := next_count s.taken.length
  have htaken := h.taken
  refine ⟨h.counting.store (c := .mRead) hnext fun d => ?_, h.loaded, h.granted, h.returned,
    h.settled, nofun, ?_⟩
  · cases d with
    | mWrite => rfl
    | mRead => simp [done]
  · simpa [hpc, CopyPc.read] using htaken

theorem moves (h : Coupled s) (hst : s.Moves junk e t) : Coupled t := by
  cases hst with
  | pushLoad hpc _ hload =>
    refine ⟨h.counting.load hload, ?_, nofun, nofun, fun _ => h.settled (by simp [hpc]), h.tail,
      h.taken⟩
    rintro _ _ ⟨⟩
    exact ⟨h.counting.own (c := .mWrite) hload, rfl⟩
  | @pushTest head nextHead k tail memory room hpc hload hr =>
    obtain ⟨rfl, rfl⟩ := h.loaded hpc
    have hfilled := h.settled (by simp [hpc])
    cases room with
    | false =>
      exact ⟨h.counting.load hload, nofun, nofun, nofun, fun _ => hfilled, h.tail, h.taken⟩
    | true =>
      refine ⟨h.counting.load hload, nofun, ?_, nofun, fun _ => hfilled, h.tail, h.taken⟩
      rintro _ _ ⟨⟩
      rw [← next_count]
      exact ⟨rfl, rfl⟩
  | pushStore hpc => exact h.pushStore hpc
  | @fill ptr hpc =>
    have hlen := (h.returned hpc).1
    refine ⟨h.counting.keep (s.extends_fillMemory ..) rfl, nofun, nofun, nofun, fun _ => ?_, h.tail,
      h.taken⟩
    rw [List.length_append, List.length_singleton, hlen]
  | head hr _ hload => exact ⟨h.counting.load hload, h.2, h.3, h.4, h.5, h.6, h.7⟩
  | tail hr hload => exact ⟨h.counting.load hload, h.2, h.3, h.4, h.5, h.6, h.7⟩
  | leave => exact ⟨h.counting, h.2, h.3, h.4, h.5, h.6, h.7⟩
  | popLoad hr hpc _ hload =>
    have htaken := h.taken
    refine ⟨h.counting.load hload, h.loaded, h.granted, h.returned, h.settled, ?_, ?_⟩
    · rintro _ ⟨⟩
      exact h.counting.own (c := .mRead) hload
    · simpa [hpc, CopyPc.read] using htaken
  | @popTest tail k head memory more hpc hload hm =>
    have htail := h.tail (by rw [hpc]; rfl)
    have htaken := h.taken
    refine ⟨h.counting.load hload, h.loaded, h.granted, h.returned, h.settled, ?_, ?_⟩
    · intro _ hsome
      cases more <;> cases hsome
      exact htail
    · cases more <;> simpa [hpc, CopyPc.read] using htaken
  | copy hpc => exact h.copy hpc
  | popStore hpc => exact h.popStore hpc

end Coupled

/-- At most one block is handed out and not filled yet. -/
theorem Coupled.filled_le (h : Coupled s) :
    s.filled.length ≤ s.handed.length ∧ s.handed.length ≤ s.filled.length + 1 := by
  by_cases hreturned : ∃ ptr, s.producer = .returned ptr
  · obtain ⟨ptr, hpc⟩ := hreturned
    have := (h.returned hpc).1
    omega
  · have := h.settled fun ptr hpc => hreturned ⟨ptr, hpc⟩
    omega

theorem coupled_of_reachable (hs : (weakLatencyRun p junk mBuffer).Reachable s) : Coupled s :=
  System.invariant (P := Coupled) .start (fun _ h hst => h.moves (moves_of_step hst)) hs

end WeakBench

end ThreadTests.Arene
