import ThreadTests.Arene.WeakLatency

/-!
# What the benchmark does on a release/acquire memory it does sequentially

A turn of either loop that has not come to its decision yet has done nothing but load: a `try_push`
before its test, and a turn of the reader before it leaves the loop. Up to such turns
(`Bench.settle`) the benchmark reaches on a release/acquire memory the states that it reaches
sequentially (`weakLatencyRun_reachable_iff`): what a thread decides on an old message it would
decide on the current counters, or else it only tries again.
-/

namespace ThreadTests.Arene

open ReleaseAcquire

universe u

/-! ## Turns without a decision -/

/-- A call before its test is as good as one that is still to begin. -/
def PushPc.settle : PushPc → PushPc
  | .loaded .. => .idle
  | pc => pc

/-- So is a turn of the reader that has only loaded the counters. -/
def Reader.settle : Reader → Reader
  | .loadedHead _ | .loadedTail .. => .waiting
  | r => r

/-- A turn of the reader begins without a decision, or in its pop. -/
theorem Setup.settle_enter (p : Setup) : p.enter.settle = p.enter := by
  unfold Setup.enter
  split <;> rfl

/-- A pop with a destination, where the sequential benchmark has it. -/
def CopyPc.toPopPc {c : Shape} {E : Type u} : CopyPc c E → PopPc c E
  | .idle => .idle
  | .loaded tail => .loaded tail .copy
  | .passed tail => .passed tail .copy
  | .copied tail ptr block => .copied tail (some (ptr, block))

namespace CopyPc

variable {c : Shape} {E : Type u} {pc : CopyPc c E} {tail : SizeT} {dest : Dest}

theorem eq_idle (h : pc.toPopPc = .idle) : pc = .idle := by
  cases pc <;> cases h
  rfl

theorem eq_loaded (h : pc.toPopPc = .loaded tail dest) : pc = .loaded tail ∧ dest = .copy := by
  cases pc <;> cases h
  exact ⟨rfl, rfl⟩

theorem eq_passed (h : pc.toPopPc = .passed tail dest) : pc = .passed tail ∧ dest = .copy := by
  cases pc <;> cases h
  exact ⟨rfl, rfl⟩

theorem eq_copied {read : Option (SizeT × c.Block E)} (h : pc.toPopPc = .copied tail read) :
    ∃ ptr block, pc = .copied tail ptr block ∧ read = some (ptr, block) := by
  cases pc <;> cases h
  exact ⟨_, _, rfl, rfl⟩

end CopyPc

variable {p : Setup} {E : Type u} {junk : p.shape.Block E} {mBuffer : ℕ → E}

def Bench.settle (s : Bench p E) : Bench p E :=
  { s with producer := s.producer.settle, reader := s.reader.settle }

namespace WeakBench

/-- The state with the current counters, as the sequentially consistent benchmark would have it. -/
def current (s : WeakBench p E) : Bench p E where
  mWrite := count s.handed.length
  mRead := count s.taken.length
  mBuffer := s.memory.data
  producer := s.producer
  consumer := s.consumer.toPopPc
  handed := s.handed
  filled := s.filled.map some
  taken := s.taken.map some
  reader := s.reader

variable {s t : WeakBench p E} {e : WeakBenchStep} {k : ℕ} {value : SizeT}
  {memory : ReleaseAcquire.Memory Party Counter SizeT ℕ E}

/-! ## Old messages -/

/-- There are releases that the producer's test has not seen; so it is the stricter one. -/
theorem room_current (hc : Coupled s) (hk : Knowing s) (hp : Paced s)
    (hload : s.memory.load .producer .mRead k = some (value, memory))
    (hroom : p.shape.room (count s.handed.length) value = true) :
    p.shape.room (count s.handed.length) (count s.taken.length) = true := by
  have hcount := hp.count
  have htotal := p.total_lt
  have hle : s.taken.length ≤ s.handed.length := hk.le hc.counting
  obtain ⟨hseen, hbound, rfl⟩ := hk.room_of_load hc.counting hload
  have hseen : k ≤ s.taken.length := hseen
  have hbound : s.handed.length ≤ k + p.shape.mDepth.toNat := hbound
  have hfound := (room_iff_of_lt (hseen.trans hle) (by omega)).1 hroom
  exact (room_iff_of_lt hle (by omega)).2 (by omega)

/-- The reader that leaves the loop on an old `head()` could have left it on the current one. -/
theorem satisfied_current (hc : Coupled s) (hp : Paced s) {head tail : SizeT}
    (hr : s.reader = .loadedTail head tail) (hs : p.satisfied head tail = true) :
    p.satisfied (count s.handed.length) (count s.taken.length) = true := by
  obtain ⟨rfl, j, rfl, hle, hj⟩ := hp.tail hr
  have hmore := hp.more (by simp [hr])
  have hcount := hp.count
  have hjle : j ≤ s.handed.length := hc.counting.le_done hj
  have hfar := (Setup.satisfied_iff (by omega) hle (by omega)).1 hs
  exact (Setup.satisfied_iff (by omega) (hle.trans hjle) hcount).2 (by omega)

/-- In its pop, the reader finds what it has seen in the loop, or more. -/
theorem more_of_popping (hc : Coupled s) (hp : Paced s) (hr : s.reader = .popping)
    (hload : s.memory.load .consumer .mWrite k = some (value, memory)) :
    count s.taken.length ≠ value ∧ count s.taken.length ≠ count s.handed.length := by
  have hmore := hp.more (by simp [hr])
  have hcount := hp.count
  have htotal := p.total_lt
  obtain ⟨j, hj, hfar⟩ := hp.popping hr
  obtain ⟨hk, rfl⟩ := hc.counting.value_load hload
  have hjk := Memory.Acquired.le_of_load hload hj
  have hk : k ≤ s.handed.length := hk
  exact ⟨count_ne (by omega) (by omega), count_ne (by omega) (by omega)⟩

/-! ## The sequential run -/

/-- **What a step is on the current counters**: a decision is made together with the loads before
it, and a turn without one is not made at all. -/
theorem settled_moves (hc : Coupled s) (hk : Knowing s) (hp : Paced s)
    (hst : s.Moves (fun _ => junk) e t) :
    (latencyRun p junk mBuffer).Reaches s.current.settle t.current.settle := by
  cases hst with
  | pushLoad hpc _ hload =>
    simp only [current, Bench.settle, PushPc.settle, hpc, Memory.data_load hload]
    exact System.Reaches.refl _
  | @pushTest head nextHead k tail memory room hpc hload hr =>
    obtain ⟨rfl, rfl⟩ := hc.loaded hpc
    have hpending := hp.pending (by simp [hpc, PushPc.phase])
    cases room with
    | false =>
      simp only [current, Bench.settle, PushPc.settle, hpc, Memory.data_load hload]
      exact System.Reaches.refl _
    | true =>
      have hroom := room_current hc hk hp hload hr
      refine System.reaches_of_run
        (?_ : (latencyRun p junk mBuffer).run _ [.write .load, .write (.test true)] = _)
      simp [latencyRun, Bench.step, WriteStep.push, Threads.pushStep, current, Bench.settle,
        PushPc.settle, hpc, hroom, Setup.lt_total_iff.2 hpending, Memory.data_load hload]
  | pushStore hpc =>
    obtain ⟨hnext, -⟩ := hc.granted hpc
    refine System.reaches_of_run (?_ : (latencyRun p junk mBuffer).run _ [.write .store] = _)
    simp [latencyRun, Bench.step, WriteStep.push, Threads.pushStep, current, Bench.settle,
      PushPc.settle, hpc, hnext, Memory.store]
  | fill hpc =>
    refine System.reaches_of_run (?_ : (latencyRun p junk mBuffer).run _ [.write .fill] = _)
    simp [latencyRun, Bench.step, WriteStep.push, Threads.pushStep, current, Bench.settle,
      PushPc.settle, hpc, fillMemory]
  | head hr _ hload =>
    simp only [current, Bench.settle, Reader.settle, hr, Memory.data_load hload]
    exact System.Reaches.refl _
  | tail hr hload =>
    simp only [current, Bench.settle, Reader.settle, hr, Memory.data_load hload]
    exact System.Reaches.refl _
  | @leave head tail satisfied hr hs =>
    have hmore := hp.more (by simp [hr])
    cases satisfied with
    | false =>
      simp only [current, Bench.settle, Reader.settle, hr]
      exact System.Reaches.refl _
    | true =>
      have hleaves := satisfied_current hc hp hr hs
      refine System.reaches_of_run
        (?_ : (latencyRun p junk mBuffer).run _ [.head, .tail, .leave true] = _)
      simp [latencyRun, Bench.step, current, Bench.settle, Reader.settle, hr, hleaves,
        Setup.lt_total_iff.2 hmore, BlockBuffer.head, BlockBuffer.tail]
  | popLoad hr hpc hmore hload =>
    obtain rfl := hc.counting.own (c := .mRead) hload
    refine System.reaches_of_run
      (?_ : (latencyRun p junk mBuffer).run _ [.pop (.load .copy)] = _)
    simp [latencyRun, Bench.step, Bench.mayPop, Threads.popStep, current, Bench.settle,
      Reader.settle, CopyPc.toPopPc, hr, hpc, hmore, Memory.data_load hload, done]
  | @popTest tail k head memory more hpc hload hm =>
    have hr := hp.popping_of_ne_idle (by simp [hpc])
    obtain rfl := hc.tail (by rw [hpc]; rfl)
    obtain ⟨hold, hnow⟩ := more_of_popping hc hp hr hload
    obtain rfl : more = true := hm.symm.trans (decide_eq_true hold)
    refine System.reaches_of_run
      (?_ : (latencyRun p junk mBuffer).run _ [.pop (.test true)] = _)
    simp [latencyRun, Bench.step, Bench.mayPop, Threads.popStep, current, Bench.settle,
      Reader.settle, CopyPc.toPopPc, hr, hpc, hnow, Memory.data_load hload]
  | copy hpc =>
    have hr := hp.popping_of_ne_idle (by simp [hpc])
    refine System.reaches_of_run (?_ : (latencyRun p junk mBuffer).run _ [.pop .copy] = _)
    simp [latencyRun, Bench.step, Bench.mayPop, Threads.popStep, Threads.read, current,
      Bench.settle, Reader.settle, CopyPc.toPopPc, hr, hpc, readBlock, Memory.access]
  | popStore hpc =>
    have hr := hp.popping_of_ne_idle (by simp [hpc])
    obtain rfl := hc.tail (by rw [hpc]; rfl)
    refine System.reaches_of_run (?_ : (latencyRun p junk mBuffer).run _ [.pop .store] = _)
    have hnext : intToSize (increment (sizeToUnsigned (count s.taken.length))) =
        count (s.taken.length + 1) := next_count _
    have hpopping : Reader.popping.settle = .popping := rfl
    simp [latencyRun, Bench.step, Bench.mayPop, Threads.popStep, current, Bench.settle,
      hpopping, p.settle_enter, CopyPc.toPopPc, hr, hpc, hnext, Memory.store]

theorem settle_start :
    (WeakBench.start p mBuffer).current.settle = (latencyRun p junk mBuffer).init := by
  simp only [WeakBench.start, current, Bench.settle, p.settle_enter]
  rfl

/-- **What the benchmark does on a release/acquire memory it does sequentially**, up to turns
without a decision. -/
theorem settled_reachable (hlat : 0 < p.latency) (hlt : p.shape.mDepth.toNat < 2 ^ 32)
    (hs : (weakLatencyRun p (fun _ => junk) mBuffer).Reachable s) :
    (latencyRun p junk mBuffer).Reachable s.current.settle := by
  refine System.invariant (S := weakLatencyRun p (fun _ => junk) mBuffer)
    (P := fun s => (latencyRun p junk mBuffer).Reachable s.current.settle) ?_ ?_ hs
  · exact settle_start.symm ▸ System.Reachable.init
  · intro s t e hs h hst
    exact h.trans (settled_moves (coupled_of_reachable hs) (knowing_of_reachable hlt hs)
      (paced_of_reachable hlat hlt hs) (moves_of_step hst))

/-! ## The run with the last messages -/

/-- A step of the writer, by a load that takes the last message. -/
theorem exists_write_move (hc : Coupled s) {d : WriteStep} {u : Threads p.shape E}
    (hlt : d = .load → (s.handed.length : ℤ) < p.nelements.toInt)
    (hst : s.current.toThreads.Moves (.push (d.push junk)) u) :
    ∃ e t, s.Moves (fun _ => junk) e t ∧ t.current = { s.current with toThreads := u } := by
  cases d with
  | load =>
    cases hst with
    | pushLoad hpc =>
      obtain ⟨memory, hload⟩ := hc.counting.exists_load .producer .mWrite
      refine ⟨_, _, .pushLoad hpc (hlt rfl) hload, ?_⟩
      simp [current, Memory.data_load hload, done]
  | test room =>
    cases hst with
    | pushTest hpc hr =>
      obtain ⟨memory, hload⟩ := hc.counting.exists_load .producer .mRead
      refine ⟨_, _, .pushTest hpc hload hr, ?_⟩
      simp [current, Memory.data_load hload]
  | store =>
    cases hst with
    | pushStore hpc =>
      refine ⟨_, _, .pushStore hpc, ?_⟩
      obtain ⟨hnext, -⟩ := hc.granted hpc
      simp [current, Memory.store, hnext]
  | fill =>
    cases hst with
    | fill hpc =>
      refine ⟨_, _, .fill hpc, ?_⟩
      simp [current, fillMemory]

/-- A step of the reader within `try_pop`. -/
theorem exists_pop_move (hc : Coupled s) {d : PopStep} {u : Threads p.shape E}
    (hr : s.reader = .popping) (hmay : s.current.mayPop d)
    (hst : s.current.toThreads.Moves (.pop d) u) :
    ∃ e t, s.Moves (fun _ => junk) e t ∧
      t.current = ⟨u, if d = .store then p.enter else .popping⟩ := by
  cases hst with
  | popLoad h =>
    obtain ⟨rfl, hlt⟩ := hmay
    have hpc : s.consumer = .idle := CopyPc.eq_idle h
    obtain ⟨memory, hload⟩ := hc.counting.exists_load .consumer .mRead
    refine ⟨_, _, .popLoad hr hpc (by simpa [current] using hlt) hload, ?_⟩
    simp [current, CopyPc.toPopPc, hr, Memory.data_load hload, done]
  | @popTest tail dest more h hm =>
    obtain ⟨hpc, rfl⟩ := CopyPc.eq_loaded h
    obtain ⟨memory, hload⟩ := hc.counting.exists_load .consumer .mWrite
    refine ⟨_, _, .popTest hpc hload hm, ?_⟩
    cases more with
    | true => simp [current, CopyPc.toPopPc, hr, Memory.data_load hload]
    | false => simp [current, CopyPc.toPopPc, hr, Memory.data_load hload]
  | popCopy h =>
    obtain ⟨hpc, rfl⟩ := CopyPc.eq_passed h
    refine ⟨_, _, .copy hpc, ?_⟩
    simp [current, CopyPc.toPopPc, Threads.read, hr, readBlock, Memory.access]
  | popStore h =>
    obtain ⟨ptr, block, hpc, rfl⟩ := CopyPc.eq_copied h
    obtain rfl := hc.tail (by rw [hpc]; rfl)
    refine ⟨_, _, .popStore hpc, ?_⟩
    have hnext : intToSize (increment (sizeToUnsigned (count s.taken.length))) =
        count (s.taken.length + 1) := next_count _
    simp [current, CopyPc.toPopPc, Memory.store, hnext]

/-- A step of the sequentially consistent benchmark, by a load that takes the last message. -/
theorem exists_weak_move (hc : Coupled s) {d : BenchStep} {u : Bench p E}
    (hst : s.current.Moves junk d u) :
    ∃ e t, s.Moves (fun _ => junk) e t ∧ t.current = u := by
  cases hst with
  | write hlt hst => exact exists_write_move hc hlt hst
  | head hr hlt =>
    obtain ⟨memory, hload⟩ := hc.counting.exists_load .consumer .mWrite
    refine ⟨_, _, .head hr (by simpa [current] using hlt) hload, ?_⟩
    simp [current, Memory.data_load hload, done]
  | tail hr =>
    obtain ⟨memory, hload⟩ := hc.counting.exists_load .consumer .mRead
    refine ⟨_, _, .tail hr hload, ?_⟩
    simp [current, Memory.data_load hload, done]
  | leave hr hs => exact ⟨_, _, .leave hr hs, rfl⟩
  | pop hr hmay hst => exact exists_pop_move hc hr hmay hst

/-- Every sequentially consistent run is one on a release/acquire memory. -/
theorem exists_weak_reachable {t : Bench p E} (ht : (latencyRun p junk mBuffer).Reachable t) :
    ∃ s, (weakLatencyRun p (fun _ => junk) mBuffer).Reachable s ∧ s.current = t := by
  refine System.invariant (S := latencyRun p junk mBuffer)
    (P := fun t => ∃ s, (weakLatencyRun p (fun _ => junk) mBuffer).Reachable s ∧ s.current = t)
    ⟨_, System.Reachable.init, rfl⟩ (fun {t u d} _ h hst => ?_) ht
  obtain ⟨s, hs, rfl⟩ := h
  obtain ⟨e, v, he, hv⟩ := exists_weak_move (coupled_of_reachable hs) (latencyRun_moves hst)
  exact ⟨v, hs.step he.step_eq, hv⟩

/-- **Acquire and release are enough for the benchmark**, as far as its decisions go: with a
latency, what it reaches on a release/acquire memory, up to turns without a decision, are the states
that it reaches sequentially. -/
theorem weakLatencyRun_reachable_iff (hlat : 0 < p.latency) (hlt : p.shape.mDepth.toNat < 2 ^ 32)
    {t : Bench p E} (ht : t.settle = t) :
    (∃ s, (weakLatencyRun p (fun _ => junk) mBuffer).Reachable s ∧ s.current.settle = t) ↔
      (latencyRun p junk mBuffer).Reachable t := by
  constructor
  · rintro ⟨s, hs, rfl⟩
    exact settled_reachable hlat hlt hs
  · intro h
    obtain ⟨s, hs, rfl⟩ := exists_weak_reachable h
    exact ⟨s, hs, ht⟩

end WeakBench

end ThreadTests.Arene
