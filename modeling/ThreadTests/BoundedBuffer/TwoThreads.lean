import ThreadTests.BoundedBuffer.Programs
import ThreadTests.BoundedBuffer.Variants
import ThreadTests.Ring.Programs

/-!
# The programs that run on the buffers

In all of them one thread pushes at a time, and one pops: `test_rb` with `bounded_buffer`, the
`Filler` and the `Drainer` of `ringbuftest`, and `fifo_test`, which fills one half of the buffer
before it starts its threads. With a single thread that pushes, the items come out in the order of
its script (`Balanced.ends`).

What is shown of `bounded_buffer` holds of the other buffers of `test_bcb`, since they go in
lockstep (`Refines.ends_iff`).
-/

namespace ThreadTests.BoundedBuffer

universe u v w x

variable {ι : Type u} {T : Type v} {C : Type w} {D : Type w} {capacity : ℕ} [DecidableEq ι]
  [Fintype ι] [DecidableEq T]

section Ends

variable [Guarded D T] {s₀ : State ι T D} {script : ι → List (Op T)} {items : List T}

/-- The scripts end on a buffer, from `s₀` on: the length of a run is bounded, every run comes to a
state in which nothing but a wakeup without a reason can happen, and there all threads have returned
and the buffer has delivered the items. -/
structure Ends (s₀ : State ι T D) (script : ι → List (Op T)) (items : List T) : Prop where
  length_le : ∀ es u, (programs s₀ script).run ⟨s₀, script⟩ es = some u →
    es.length ≤ 9 * tally List.length script + 4 * es.countP Event.isSpurious
  exists_stuck : ∀ u, (programs s₀ script).Reachable u →
    ∃ t, (programs s₀ script).Reaches u t ∧ (programs s₀ script).Stuck Event.isSpurious t
  stuck : ∀ u, (programs s₀ script).Reachable u → (programs s₀ script).Stuck Event.isSpurious u →
    Finished u ∧ u.state.popped = items

/-- The scripts end if nothing is left to do where they get stuck. -/
theorem Ends.of_stuck (hidle : ∀ i, s₀.pc i = .idle)
    (h : ∀ u, (programs s₀ script).Reachable u → (programs s₀ script).Stuck Event.isSpurious u →
      Finished u ∧ u.state.popped = items) : Ends s₀ script items :=
  ⟨fun _ _ hrun => BoundedBuffer.length_le hidle hrun,
    fun _ hu => System.Costs.exists_stuck (costs s₀ script) hu, h⟩

/-- Scripts end on buffers in lockstep alike. -/
theorem Refines.ends_iff {D' : Type x} [Guarded D' T] (R : Refines D D')
    (hs₀ : (system ι D).Reachable s₀) (hidle : ∀ i, s₀.pc i = .idle) :
    Ends (s₀.map R.abs) script items ↔ Ends s₀ script items := by
  let Q := (R.lockstep ι).scripted Event.begins hs₀ script
  constructor
  · intro h
    refine .of_stuck hidle fun u hu hstuck => ?_
    exact h.stuck (Q.abs u) (Q.reachable_iff.2 ⟨u, hu, rfl⟩) ((Q.stuck_iff hu).2 hstuck)
  · intro h
    refine .of_stuck hidle fun u hu hstuck => ?_
    obtain ⟨s, hs, rfl⟩ := Q.reachable_iff.1 hu
    exact h.stuck s hs ((Q.stuck_iff hs).1 hstuck)

end Ends

/-! ## One thread that pushes -/

section Single

variable [CircularBuffer C T capacity] {s₀ : State ι T (Buffer C)} {script : ι → List (Op T)}
  {u : System.Scripted (State ι T (Buffer C)) ι (Op T)} {i : ι}

/-- In the end the items of the thread that pushes have been put in, in order, and the first of them
are popped. -/
theorem Finished.delivered (h : Finished u) (hs₀ : (system ι (Buffer C)).Reachable s₀)
    (hidle : ∀ i, s₀.pc i = .idle) (hu : (programs s₀ script).Reachable u)
    (hsingle : ∀ j, j ≠ i → (script j).filterMap Op.item = []) :
    u.state.pushed = s₀.pushed ++ (script i).filterMap Op.item ∧
      u.state.popped = u.state.pushed.take (s₀.popped.length + total script .consumer) := by
  obtain ⟨made, updates, hordered⟩ := exists_ordered hidle hu
  have hmade : made = script := funext fun j => hordered.made_eq h j
  subst hmade
  have hitems := (hordered.interleaves.filterMap Op.item).eq_of_single hsingle
  have hpopped := hordered.moved .consumer
  rw [h.left, Nat.add_zero, State.moved, State.moved] at hpopped
  refine ⟨hordered.pushed.trans (congrArg _ hitems), ?_⟩
  rw [← hpopped]
  exact List.prefix_iff_eq_take.1 (delivers_of_reachable (reachable_state hs₀ hu)).fifo

/-- **A balanced program with a single thread that pushes** ends, with its items delivered in
order. -/
theorem Balanced.ends (h : Balanced s₀ script) (hcap : 0 < capacity)
    (hs₀ : (system ι (Buffer C)).Reachable s₀) (hidle : ∀ i, s₀.pc i = .idle)
    (hone : OneSided script) (hsingle : ∀ j, j ≠ i → (script j).filterMap Op.item = []) :
    Ends s₀ script ((s₀.pushed ++ (script i).filterMap Op.item).take
      (s₀.popped.length + total script .consumer)) := by
  refine .of_stuck hidle fun u hu hstuck => ?_
  have hfinished := h.finished hcap hs₀ hidle hone hu hstuck
  obtain ⟨hpushed, hpopped⟩ := hfinished.delivered hs₀ hidle hu hsingle
  exact ⟨hfinished, hpushed ▸ hpopped⟩

end Single

/-! ## A producer and a consumer -/

section TwoThreads

instance : Fintype Side := ⟨{.producer, .consumer}, fun d => by cases d <;> simp⟩

/-- The producer pushes the values, and the consumer makes the pops, by one of the two calls. -/
def threads (p : Program T) (op : Op T) : Side → List (Op T)
  | .producer => p.values.map .push
  | .consumer => List.replicate p.pops op

variable {p : Program T} {op : Op T}

omit [DecidableEq T] in
theorem filterMap_item_push (values : List T) :
    (values.map Op.push).filterMap Op.item = values := by
  rw [List.filterMap_map]
  exact List.filterMap_some

omit [DecidableEq T] in
/-- Calls of one side. -/
theorem countP_isOf {ops : List (Op T)} {e : Side} (hops : ∀ op ∈ ops, op.side = e) (d : Side) :
    ops.countP (Op.isOf d) = if e = d then ops.length else 0 := by
  split
  · rename_i heq
    exact List.countP_eq_length.2 fun op hop => beq_iff_eq.2 ((hops op hop).trans heq)
  · rename_i hne
    exact List.countP_eq_zero.2 fun op hop heq => hne ((hops op hop).symm.trans (beq_iff_eq.1 heq))

omit [DecidableEq T] in
theorem side_threads (hop : op.side = .consumer) (d : Side) :
    ∀ op' ∈ threads p op d, op'.side = d := by
  intro op' hop'
  cases d with
  | producer =>
    obtain ⟨item, -, rfl⟩ := List.mem_map.1 hop'
    rfl
  | consumer => rw [List.eq_of_mem_replicate hop', hop]

omit [DecidableEq T] in
theorem total_threads (hop : op.side = .consumer) (d : Side) :
    total (threads p op) d = (threads p op d).length := by
  have hsum : total (threads p op) d = (threads p op .producer).countP (Op.isOf d) +
      (threads p op .consumer).countP (Op.isOf d) := Finset.sum_pair nofun
  rw [hsum, countP_isOf (side_threads hop .producer), countP_isOf (side_threads hop .consumer)]
  cases d with
  | producer => rfl
  | consumer => exact Nat.zero_add _

/-- The two threads end, with the first of the values delivered in order, when they are balanced. -/
theorem threads_ends (C : Type w) [CircularBuffer C T capacity] (hp : p.Balanced capacity)
    (hcap : 0 < capacity) (hop : op.side = .consumer) :
    Ends (.start : State Side T (Buffer C)) (threads p op) (p.values.take p.pops) := by
  have hbalanced : Balanced (.start : State Side T (Buffer C)) (threads p op) := by
    obtain ⟨hpops, hroom⟩ := hp
    refine ⟨?_, ?_⟩
    · rw [total_threads hop, total_threads hop, threads, threads, List.length_replicate,
        List.length_map]
      exact hpops.trans (Nat.le_add_left _ _)
    · rw [total_threads hop, total_threads hop, threads, threads, List.length_replicate,
        List.length_map]
      exact (Nat.zero_add _).trans_le hroom
  have hends := hbalanced.ends (i := .producer) hcap System.Reachable.init (fun _ => rfl)
    (fun d => ⟨d, side_threads hop d⟩) (fun d hd => by
      cases d with
      | producer => exact absurd rfl hd
      | consumer =>
        rw [List.filterMap_eq_nil_iff]
        intro op' hop'
        rw [List.eq_of_mem_replicate hop', Op.item_eq_none hop])
  have hstart : (State.start : State Side T (Buffer C)).popped.length + p.pops = p.pops :=
    Nat.zero_add p.pops
  rw [total_threads hop, threads, threads, filterMap_item_push, List.length_replicate,
    hstart] at hends
  exact hends

/-- `bufsize` of `ringbuftest`. -/
def ringbuftestBufsize : CInt := 100

/-- The `Filler` pushes its count until that is `bail`, and the `Drainer` pops as often. -/
def ringbuftest (bail : {bail : CInt // 0 < bail.toInt}) : Program CInt where
  values := (List.range bail.1.toInt.toNat).map (BitVec.ofNat 32)
  pops := bail.1.toInt.toNat

/-- **`test_rb` ends with `bounded_buffer`, and `ringbuftest` ends**, under every scheduler that
does not wake up threads for no reason again and again. -/
theorem mutex_ends {C C' : Type w} [CircularBuffer C CInt (intToSize testRbBufsize).toNat]
    [CircularBuffer C' CInt (intToSize ringbuftestBufsize).toNat] (nelements : CInt)
    (bail : {bail : CInt // 0 < bail.toInt}) :
    Ends (.start : State Side CInt (Buffer C)) (threads (testRb nelements) .pop)
        (testRb nelements).values ∧
      Ends (.start : State Side CInt (Buffer C')) (threads (ringbuftest bail) .popSave)
        (ringbuftest bail).values := by
  constructor
  · rw [← take_testRb]
    exact threads_ends C (testRb_balanced nelements _) (by decide) rfl
  · have hlen : (ringbuftest bail).values.length = (ringbuftest bail).pops := by
      simp [ringbuftest]
    rw [← List.take_of_length_le hlen.le]
    exact threads_ends C' ⟨hlen.ge, by omega⟩ (by decide) rfl

end TwoThreads

/-! ## `fifo_test` -/

section FifoTest

inductive FifoThread where
  | main
  | consume
  | produce
  deriving DecidableEq, Repr

instance : Fintype FifoThread :=
  ⟨{.main, .consume, .produce}, fun i => by cases i <;> simp⟩

namespace FifoThread

variable [Inhabited T]

/-- The buffer is filled up to one half before the threads are started. -/
def fill (queueSize : ℕ) : FifoThread → List (Op T)
  | .main => List.replicate (queueSize / 2) (.push default)
  | .consume | .produce => []

/-- The loops of the `Consumer` and the `Producer`. -/
def transfer (totalElements : ℕ) : FifoThread → List (Op T)
  | .main => []
  | .consume => List.replicate totalElements .popSave
  | .produce => List.replicate totalElements (.push default)

def side : FifoThread → Side
  | .consume => .consumer
  | .main | .produce => .producer

omit [DecidableEq T] in
theorem side_fill (queueSize : ℕ) (i : FifoThread) :
    ∀ op ∈ fill (T := T) queueSize i, op.side = i.side := by
  intro op hop
  cases i with
  | main =>
    rw [List.eq_of_mem_replicate hop]
    rfl
  | consume | produce => cases hop

omit [DecidableEq T] in
theorem side_transfer (totalElements : ℕ) (i : FifoThread) :
    ∀ op ∈ transfer (T := T) totalElements i, op.side = i.side := by
  intro op hop
  cases i with
  | main => cases hop
  | consume | produce =>
    rw [List.eq_of_mem_replicate hop]
    rfl

omit [DecidableEq T] [Inhabited T] in
theorem total_eq {script : FifoThread → List (Op T)}
    (hscript : ∀ i, ∀ op ∈ script i, op.side = i.side) :
    total script .producer = (script .main).length + (script .produce).length ∧
      total script .consumer = (script .consume).length := by
  have hsum : ∀ d, total script d = (script .main).countP (Op.isOf d) +
      ((script .consume).countP (Op.isOf d) + (script .produce).countP (Op.isOf d)) := by
    intro d
    unfold total tally
    rw [show (Finset.univ : Finset FifoThread) = {.main, .consume, .produce} from rfl,
      Finset.sum_insert (by decide), Finset.sum_pair (by decide)]
  refine ⟨?_, ?_⟩
  · rw [hsum, countP_isOf (hscript .main), countP_isOf (hscript .consume),
      countP_isOf (hscript .produce)]
    simp [side]
  · rw [hsum, countP_isOf (hscript .main), countP_isOf (hscript .consume),
      countP_isOf (hscript .produce)]
    simp [side]

omit [DecidableEq T] in
theorem total_fill (queueSize : ℕ) : total (fill (T := T) queueSize) .producer = queueSize / 2 ∧
    total (fill (T := T) queueSize) .consumer = 0 := by
  obtain ⟨hpushes, hpops⟩ := total_eq (side_fill (T := T) queueSize)
  exact ⟨hpushes.trans List.length_replicate, hpops⟩

omit [DecidableEq T] in
theorem total_transfer (totalElements : ℕ) (d : Side) :
    total (transfer (T := T) totalElements) d = totalElements := by
  obtain ⟨hpushes, hpops⟩ := total_eq (side_transfer (T := T) totalElements)
  cases d with
  | producer => exact hpushes.trans ((Nat.zero_add _).trans List.length_replicate)
  | consumer => exact hpops.trans List.length_replicate

end FifoThread

/-- `fifo_test` ends on a buffer: the main thread fills it, and whenever it has done so, the two
threads transfer all elements. -/
structure FifoTest [Inhabited T] (D : Type w) [Guarded D T] (queueSize totalElements : ℕ) :
    Prop where
  fill : Ends (.start : State FifoThread T D) (FifoThread.fill queueSize) []
  transfer : ∀ u,
    (programs (.start : State FifoThread T D) (FifoThread.fill queueSize)).Reachable u →
    (programs (.start : State FifoThread T D) (FifoThread.fill queueSize)).Stuck
      Event.isSpurious u →
      Ends u.state (FifoThread.transfer totalElements) (List.replicate totalElements default)

variable [Inhabited T] {queueSize totalElements : ℕ}

theorem Refines.fifoTest_iff {D' : Type x} [Guarded D T] [Guarded D' T] (R : Refines D D') :
    FifoTest D' queueSize totalElements ↔ FifoTest D queueSize totalElements := by
  let Q := (R.lockstep FifoThread).scripted Event.begins System.Reachable.init
    (FifoThread.fill queueSize)
  have hstart : (State.start : State FifoThread T D).map R.abs = .start := (R.lockstep _).init
  have hfill : Ends (.start : State FifoThread T D') (FifoThread.fill queueSize) [] ↔
      Ends (.start : State FifoThread T D) (FifoThread.fill queueSize) [] := by
    rw [← hstart]
    exact R.ends_iff System.Reachable.init fun _ => rfl
  constructor
  · intro h
    have hends := hfill.1 h.fill
    refine ⟨hends, fun u hu hstuck => ?_⟩
    have hidle := (hends.stuck u hu hstuck).1
    refine (R.ends_iff (hu.of_scripted System.Reachable.init) fun i => (hidle i).1).1 ?_
    have htransfer := h.transfer
    rw [← hstart] at htransfer
    exact htransfer (Q.abs u) (Q.reachable_iff.2 ⟨u, hu, rfl⟩) ((Q.stuck_iff hu).2 hstuck)
  · intro h
    refine ⟨hfill.2 h.fill, ?_⟩
    rw [← hstart]
    intro u hu hstuck
    obtain ⟨s, hs, rfl⟩ := Q.reachable_iff.1 hu
    have hstuck := (Q.stuck_iff hs).1 hstuck
    have hidle := (h.fill.stuck s hs hstuck).1
    exact (R.ends_iff (hs.of_scripted System.Reachable.init) fun i => (hidle i).1).2
      (h.transfer s hs hstuck)

omit [DecidableEq T] [Inhabited T] in
theorem filterMap_item_replicate (n : ℕ) (item : T) :
    (List.replicate n (Op.push item)).filterMap Op.item = List.replicate n item := by
  rw [← List.map_replicate, filterMap_item_push]

theorem ends_fill (C : Type w) [CircularBuffer C T queueSize] (hsize : 0 < queueSize) :
    Ends (.start : State FifoThread T (Buffer C)) (FifoThread.fill queueSize) [] ∧
      ∀ u, (programs (.start : State FifoThread T (Buffer C))
          (FifoThread.fill queueSize)).Reachable u →
        (programs (.start : State FifoThread T (Buffer C)) (FifoThread.fill queueSize)).Stuck
          Event.isSpurious u → (∀ i, u.state.pc i = .idle) ∧
            u.state.pushed = List.replicate (queueSize / 2) default ∧ u.state.popped = [] := by
  obtain ⟨hpushes, hpops⟩ := FifoThread.total_fill (T := T) queueSize
  have hbalanced :
      Balanced (.start : State FifoThread T (Buffer C)) (FifoThread.fill queueSize) := by
    refine ⟨?_, ?_⟩
    · rw [hpops]
      exact Nat.zero_le _
    · rw [hpushes, hpops]
      change 0 + queueSize / 2 ≤ 0 + queueSize
      omega
  have hone : OneSided (FifoThread.fill (T := T) queueSize) := fun i =>
    ⟨i.side, FifoThread.side_fill queueSize i⟩
  have hsingle : ∀ j, j ≠ FifoThread.main →
      (FifoThread.fill (T := T) queueSize j).filterMap Op.item = [] := by
    intro j hj
    cases j with
    | main => exact absurd rfl hj
    | consume | produce => rfl
  constructor
  · have hends := hbalanced.ends hsize System.Reachable.init (fun _ => rfl) hone hsingle
    rw [hpops] at hends
    exact hends
  · intro u hu hstuck
    have hfinished := hbalanced.finished hsize System.Reachable.init (fun _ => rfl) hone hu hstuck
    obtain ⟨hpushed, hpopped⟩ :=
      hfinished.delivered System.Reachable.init (fun _ => rfl) hu hsingle
    rw [hpops] at hpopped
    exact ⟨fun i => (hfinished i).1,
      hpushed.trans (filterMap_item_replicate (queueSize / 2) default), hpopped⟩

theorem ends_transfer [CircularBuffer C T queueSize] (hsize : 0 < queueSize)
    {s₀ : State FifoThread T (Buffer C)} (hs₀ : (system FifoThread (Buffer C)).Reachable s₀)
    (hidle : ∀ i, s₀.pc i = .idle)
    (hpushed : s₀.pushed = List.replicate (queueSize / 2) default) (hpopped : s₀.popped = []) :
    Ends s₀ (FifoThread.transfer totalElements) (List.replicate totalElements default) := by
  have htotal := FifoThread.total_transfer (T := T) totalElements
  have hunread : s₀.data.mUnread = queueSize / 2 := by
    have hmoved := (inv_of_reachable hs₀).moved
    rw [State.moved, State.moved, hpushed, hpopped, List.length_replicate] at hmoved
    exact (hmoved.trans (Nat.zero_add _)).symm
  have hbalanced : Balanced s₀ (FifoThread.transfer totalElements) := by
    refine ⟨?_, ?_⟩
    · rw [htotal, htotal]
      exact Nat.le_add_left _ _
    · rw [htotal, htotal]
      omega
  have hends := hbalanced.ends (i := .produce) hsize hs₀ hidle
    (fun i => ⟨i.side, FifoThread.side_transfer totalElements i⟩) (fun j hj => by
      cases j with
      | main => rfl
      | consume =>
        rw [List.filterMap_eq_nil_iff]
        intro op hop
        rw [List.eq_of_mem_replicate hop]
        rfl
      | produce => exact absurd rfl hj)
  have hitems : (s₀.pushed ++ (FifoThread.transfer totalElements .produce).filterMap Op.item).take
      (s₀.popped.length + totalElements) = List.replicate totalElements default := by
    rw [hpushed, hpopped, FifoThread.transfer, filterMap_item_replicate, List.length_nil,
      Nat.zero_add, List.replicate_append_replicate, List.take_replicate,
      Nat.min_eq_left (Nat.le_add_left _ _)]
  rwa [htotal, hitems] at hends

theorem fifoTest_buffer (C : Type w) [CircularBuffer C T queueSize] (hsize : 0 < queueSize) :
    FifoTest (Buffer C) queueSize totalElements := by
  obtain ⟨hends, hstate⟩ := ends_fill C hsize
  refine ⟨hends, fun u hu hstuck => ?_⟩
  obtain ⟨hidle, hpushed, hpopped⟩ := hstate u hu hstuck
  exact ends_transfer hsize (reachable_state System.Reachable.init hu) hidle hpushed hpopped

/-- **`fifo_test` ends on all four buffers**, for every size of the queue and every number of
elements. -/
theorem fifoTest_ends {C' : Type x} {K : Container C' T} (queueSize : {n : ℕ // 0 < n})
    [CircularBuffer C T queueSize] (R : Represents K queueSize) (totalElements : ℕ) :
    FifoTest (Buffer C) queueSize totalElements ∧
      FifoTest (BoundedBufferSpaceOptimized K) queueSize totalElements ∧
      FifoTest (BoundedBufferDequeBased T queueSize) queueSize totalElements ∧
      FifoTest (BoundedBufferListBased T queueSize) queueSize totalElements := by
  have h : FifoTest (Buffer C) queueSize totalElements := fifoTest_buffer C queueSize.2
  have hsequence : FifoTest (Variant (sequence T queueSize)) queueSize totalElements :=
    (Buffer.refines C).fifoTest_iff.2 h
  exact ⟨h, R.refines.fifoTest_iff.1 hsequence, hsequence, hsequence⟩

end FifoTest

end ThreadTests.BoundedBuffer
