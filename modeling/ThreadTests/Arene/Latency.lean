import ThreadTests.Arene.Interleaved

/-!
# The latency run of `test_arene`

The two threads of the benchmark around a `BlockBuffer`. The writer makes `nelements` blocking
pushes and fills every block. Before each of its `nelements` blocking pops the reader waits: it
loads `head()`, then `tail()`, and leaves the loop when they are more than `latency` apart, or when
all elements are pushed; otherwise it sleeps and tries again. A blocking call repeats its `try_`
call until that succeeds.

A reader that has left the loop finds something to pop (`Bench.Inv.popping`), since only it moves
`m_read`: the `head()` it has loaded may be old, but the writer can only have gone further. For the
same reason it stays more than `latency` blocks behind, or everything is pushed, until it has popped
(`trails_of_reachable`).
-/

namespace ThreadTests.Arene

universe u

/-- The number of elements, the buffer and the latency. -/
structure Setup where
  nelements : CInt
  shape : Shape
  latency : SizeT

/-- `2<<nbits` -/
def bufsize (nbits : ℕ) : CInt := (2 : CInt) <<< nbits

/-- What `main` makes of its arguments. -/
def Setup.main (nelements : CInt) (nbits : ℕ) (width : CInt) (latency : SizeT) : Setup where
  nelements := nelements
  shape := ⟨intToSize width, intToSize (bufsize nbits)⟩
  latency := latency

/-- Where the reader stands in one turn of its loop. -/
inductive Reader where
  | waiting
  | loadedHead (head : SizeT)
  | loadedTail (head tail : SizeT)
  /-- In `pop`. -/
  | popping
  deriving DecidableEq

/-- `head-tail > latency or head == nelements` -/
def Setup.satisfied (p : Setup) (head tail : SizeT) : Bool :=
  decide (p.latency < head - tail) || head == intToSize p.nelements

/-- Where a turn of the reader begins. -/
def Setup.enter (p : Setup) : Reader := if 0 < p.latency then .waiting else .popping

/-- The two threads; the loop indices are the numbers of pushes and of pops made. -/
structure Bench (p : Setup) (E : Type u) extends Threads p.shape E where
  reader : Reader

inductive WriteStep where
  | load
  | test (room : Bool)
  | store
  | fill
  deriving DecidableEq

/-- The steps of the two threads; leaving the loop, or not, carries the outcome of the test. -/
inductive BenchStep where
  | write (e : WriteStep)
  | head
  | tail
  | leave (satisfied : Bool)
  | pop (e : PopStep)
  deriving DecidableEq

/-- The writer fills in the block `junk`. -/
def WriteStep.push {c : Shape} {E : Type u} (junk : c.Block E) : WriteStep → PushStep c E
  | .load => .load
  | .test room => .test room
  | .store => .store
  | .fill => .fill junk

variable {p : Setup} {E : Type u} {junk : p.shape.Block E} {mBuffer : ℕ → E}

namespace Bench

/-- The reader begins a `try_pop` within its loop, with a destination. -/
def mayPop (s : Bench p E) : PopStep → Prop
  | .load dest => dest = .copy ∧ (s.taken.length : ℤ) < p.nelements.toInt
  | _ => True

instance (s : Bench p E) : (e : PopStep) → Decidable (s.mayPop e)
  | .load dest =>
    inferInstanceAs (Decidable (dest = .copy ∧ (s.taken.length : ℤ) < p.nelements.toInt))
  | .test _ | .copy | .store => isTrue trivial

def step (junk : p.shape.Block E) (s : Bench p E) : BenchStep → Option (Bench p E)
  | .write e =>
    if e = .load → (s.handed.length : ℤ) < p.nelements.toInt then
      (s.pushStep (e.push junk)).map fun t => { s with toThreads := t }
    else none
  | .head =>
    match s.reader with
    | .waiting =>
      if (s.taken.length : ℤ) < p.nelements.toInt then
        some { s with reader := .loadedHead s.head }
      else none
    | _ => none
  | .tail =>
    match s.reader with
    | .loadedHead head => some { s with reader := .loadedTail head s.tail }
    | _ => none
  | .leave satisfied =>
    match s.reader with
    | .loadedTail head tail =>
      if p.satisfied head tail = satisfied then
        some { s with reader := if satisfied then .popping else .waiting }
      else none
    | _ => none
  | .pop e =>
    match s.reader with
    | .popping =>
      if s.mayPop e then
        (s.popStep e).map fun t =>
          { toThreads := t, reader := if e = .store then p.enter else .popping }
      else none
    | _ => none

def start (p : Setup) (mBuffer : ℕ → E) : Bench p E where
  toThreads := Threads.start mBuffer
  reader := p.enter

/-- The steps, each with what it needs and what it changes. -/
inductive Moves (junk : p.shape.Block E) (s : Bench p E) : BenchStep → Bench p E → Prop
  | write {e t} (hload : e = .load → (s.handed.length : ℤ) < p.nelements.toInt)
    (h : s.toThreads.Moves (.push (e.push junk)) t) :
    Moves junk s (.write e) { s with toThreads := t }
  | head (h : s.reader = .waiting) (hlt : (s.taken.length : ℤ) < p.nelements.toInt) :
    Moves junk s .head { s with reader := .loadedHead s.mWrite }
  | tail {head} (h : s.reader = .loadedHead head) :
    Moves junk s .tail { s with reader := .loadedTail head s.mRead }
  | leave {head tail satisfied} (h : s.reader = .loadedTail head tail)
    (hs : p.satisfied head tail = satisfied) :
    Moves junk s (.leave satisfied)
      { s with reader := if satisfied then .popping else .waiting }
  | pop {e t} (hr : s.reader = .popping) (hpop : s.mayPop e) (h : s.toThreads.Moves (.pop e) t) :
    Moves junk s (.pop e) { toThreads := t, reader := if e = .store then p.enter else .popping }

theorem moves_of_step {s t : Bench p E} {e : BenchStep} (hst : s.step junk e = some t) :
    s.Moves junk e t := by
  cases e with
  | write e =>
    obtain ⟨hload, hst⟩ := Option.ite_none_right_eq_some.1 hst
    obtain ⟨u, hu, rfl⟩ := Option.map_eq_some_iff.1 hst
    exact .write hload (Threads.moves_of_pushStep hu)
  | head =>
    cases h : s.reader <;> simp only [step, h, reduceCtorEq] at hst
    obtain ⟨hlt, ⟨⟩⟩ := Option.ite_none_right_eq_some.1 hst
    exact .head h hlt
  | tail =>
    cases h : s.reader <;> simp only [step, h, reduceCtorEq] at hst
    cases hst
    exact .tail h
  | leave satisfied =>
    cases h : s.reader <;> simp only [step, h, reduceCtorEq] at hst
    obtain ⟨hs, ⟨⟩⟩ := Option.ite_none_right_eq_some.1 hst
    exact .leave h hs
  | pop e =>
    cases h : s.reader <;> simp only [step, h, reduceCtorEq] at hst
    obtain ⟨hpop, hst⟩ := Option.ite_none_right_eq_some.1 hst
    obtain ⟨u, hu, rfl⟩ := Option.map_eq_some_iff.1 hst
    exact .pop h hpop (Threads.moves_of_popStep hu)

end Bench

/-- The benchmark. -/
def latencyRun (p : Setup) (junk : p.shape.Block E) (mBuffer : ℕ → E) :
    System (Bench p E) BenchStep where
  init := Bench.start p mBuffer
  step := Bench.step junk

theorem latencyRun_moves {s t : Bench p E} {e : BenchStep}
    (hst : (latencyRun p junk mBuffer).step s e = some t) : s.Moves junk e t :=
  Bench.moves_of_step hst

theorem latencyRun_step {s t : Bench p E} {e : BenchStep}
    (hs : (latencyRun p junk mBuffer).Reachable s) (hst : s.step junk e = some t) :
    (latencyRun p junk mBuffer).Reachable t :=
  System.Reachable.step hs hst

/-! ## Counts -/

namespace Setup

/-- The number of elements. -/
def total (p : Setup) : ℕ := p.nelements.toInt.toNat

theorem lt_total_iff {n : ℕ} : (n : ℤ) < p.nelements.toInt ↔ n < p.total := by
  unfold total
  omega

theorem total_lt (p : Setup) : p.total < 2 ^ 31 := by
  have := BitVec.two_mul_toInt_lt (x := p.nelements)
  unfold total
  omega

theorem intToSize_nelements (hpos : 0 < p.total) : intToSize p.nelements = count p.total := by
  have hnat : p.nelements = BitVec.ofNat 32 p.total := by
    have hlt := p.total_lt
    have := BitVec.toInt_eq_toNat_cond p.nelements
    apply BitVec.eq_of_toNat_eq
    rw [BitVec.toNat_ofNat, Nat.mod_eq_of_lt (by omega)]
    unfold total at *
    split at this <;> omega
  rw [count_eq, ← hnat]
  rfl

/-- The condition of the waiting loop, on counts. -/
theorem satisfied_iff (hpos : 0 < p.total) {n m : ℕ} (hmn : m ≤ n) (hn : n ≤ p.total) :
    p.satisfied (count n) (count m) = true ↔ p.latency.toNat < n - m ∨ n = p.total := by
  have hlt := p.total_lt
  have heq : count n = count p.total ↔ n = p.total := by
    constructor
    · intro h
      by_contra hne
      exact count_ne (by omega) (by omega) h
    · rintro rfl
      rfl
  rw [satisfied, Bool.or_eq_true, decide_eq_true_iff, beq_iff_eq, intToSize_nelements hpos,
    BitVec.lt_def, toNat_count_sub_count hmn (by omega), heq]

end Setup

namespace Bench

/-- What the loops of the two threads keep. -/
structure Inv (s : Bench p E) : Prop where
  le : s.taken.length ≤ s.handed.length
  count : s.handed.length ≤ p.total
  pending : s.producer.phase ≠ .idle → s.handed.length < p.total
  more : s.reader ≠ .waiting → s.taken.length < p.total
  head : ∀ {head}, s.reader = .loadedHead head →
    ∃ n, head = Arene.count n ∧ s.taken.length ≤ n ∧ n ≤ s.handed.length
  tail : ∀ {head tail}, s.reader = .loadedTail head tail → tail = Arene.count s.taken.length ∧
    ∃ n, head = Arene.count n ∧ s.taken.length ≤ n ∧ n ≤ s.handed.length
  idle : s.reader ≠ .popping → s.consumer = .idle
  popping : s.reader = .popping → s.taken.length < s.handed.length
  copies : ∀ {tail dest}, s.consumer = .loaded tail dest ∨ s.consumer = .passed tail dest →
    dest = .copy
  runs : s.consumer ≠ .fault

/-- The buffer and its two threads make a run of their own. -/
theorem threads_of_reachable {s : Bench p E} (hs : (latencyRun p junk mBuffer).Reachable s) :
    (system p.shape mBuffer).Reachable s.toThreads := by
  refine System.invariant (P := fun s => (system p.shape mBuffer).Reachable s.toThreads)
    System.Reachable.init (fun {s t e} _ h hst => ?_) hs
  cases e with
  | write e =>
    obtain ⟨-, hst⟩ := Option.ite_none_right_eq_some.1 hst
    obtain ⟨u, hu, rfl⟩ := Option.map_eq_some_iff.1 hst
    exact h.step (e := .push (e.push junk)) hu
  | pop e =>
    cases hr : s.reader <;> simp only [latencyRun, step, hr, reduceCtorEq] at hst
    obtain ⟨-, hst⟩ := Option.ite_none_right_eq_some.1 hst
    obtain ⟨u, hu, rfl⟩ := Option.map_eq_some_iff.1 hst
    exact h.step (e := .pop e) hu
  | _ =>
    cases latencyRun_moves hst
    exact h

theorem coupled_of_reachable {s : Bench p E} (hs : (latencyRun p junk mBuffer).Reachable s) :
    Coupled s.toThreads :=
  Coupled.of_reachable (threads_of_reachable hs)

namespace Inv

variable {s t : Bench p E}

theorem start (hlat : 0 < p.latency) : Inv (Bench.start p mBuffer) := by
  have henter : p.enter = .waiting := if_pos hlat
  refine ⟨Nat.le_refl _, Nat.zero_le _, fun h => absurd rfl h, fun h => absurd henter h, ?_, ?_,
    fun _ => rfl, ?_, nofun, nofun⟩
  all_goals
    intros
    simp_all [Bench.start]

/-- The writer only adds to what the reader relies on. -/
theorem write (h : Inv s) {e : WriteStep} {t : Threads p.shape E}
    (hload : e = .load → (s.handed.length : ℤ) < p.nelements.toInt)
    (hst : s.toThreads.Moves (.push (e.push junk)) t) : Inv { s with toThreads := t } := by
  obtain ⟨htaken, hcons, -, hle⟩ := hst.push_frame
  have hcount : t.handed.length ≤ p.total ∧
      (t.producer.phase ≠ .idle → t.handed.length < p.total) := by
    have hcount := h.count
    have hpending := h.pending
    cases e with
    | load =>
      cases hst
      exact ⟨hcount, fun _ => Setup.lt_total_iff.1 (hload rfl)⟩
    | test room =>
      cases hst with
      | pushTest hp => exact ⟨hcount, fun _ => hpending (by simp [hp, PushPc.phase])⟩
    | store =>
      cases hst with
      | pushStore hp =>
        have := hpending (by simp [hp, PushPc.phase])
        exact ⟨by simpa using Nat.succ_le_of_lt this, fun hphase => absurd rfl hphase⟩
    | fill =>
      cases hst
      exact ⟨hcount, fun hphase => absurd rfl hphase⟩
  refine ⟨?_, hcount.1, hcount.2, ?_, ?_, ?_, ?_, ?_, ?_, ?_⟩
  · exact htaken ▸ h.le.trans hle
  · exact htaken ▸ h.more
  · intro head hr
    obtain ⟨n, hn, hmn, hnle⟩ := h.head hr
    exact ⟨n, hn, htaken ▸ hmn, hnle.trans hle⟩
  · intro head tail hr
    obtain ⟨htail, n, hn, hmn, hnle⟩ := h.tail hr
    exact ⟨htaken ▸ htail, n, hn, htaken ▸ hmn, hnle.trans hle⟩
  · exact hcons ▸ h.idle
  · intro hr
    exact htaken ▸ (h.popping hr).trans_le hle
  · exact hcons ▸ h.copies
  · exact hcons ▸ h.runs

/-- A reader that leaves the loop finds something to pop. -/
theorem leave (h : Inv s) {head tail : SizeT} (hr : s.reader = .loadedTail head tail)
    {satisfied : Bool} (hs : p.satisfied head tail = satisfied) :
    Inv { s with reader := if satisfied then .popping else .waiting } := by
  obtain ⟨rfl, n, rfl, hmn, hnle⟩ := h.tail hr
  have hmore := h.more (by simp [hr])
  have hidle := h.idle (by simp [hr])
  cases satisfied with
  | false =>
    exact ⟨h.le, h.count, h.pending, fun hne => absurd rfl hne, nofun, nofun, fun _ => hidle,
      nofun, h.copies, h.runs⟩
  | true =>
    refine ⟨h.le, h.count, h.pending, fun _ => hmore, nofun, nofun, fun hne => absurd rfl hne,
      fun _ => ?_, h.copies, h.runs⟩
    have hcount := h.count
    have := (Setup.satisfied_iff (by omega) hmn (by omega)).1 hs
    change s.taken.length < s.handed.length
    omega

theorem pop (hlat : 0 < p.latency) (h : Inv s) {e : PopStep} {t : Threads p.shape E}
    (hr : s.reader = .popping) (hpop : s.mayPop e) (hst : s.toThreads.Moves (.pop e) t) :
    Inv { toThreads := t, reader := if e = .store then p.enter else .popping } := by
  obtain ⟨hhanded, hprod, -⟩ := hst.pop_frame
  have hlt := h.popping hr
  have hmore := h.more (by simp [hr])
  cases hst with
  | popLoad hc =>
    refine ⟨h.le, h.count, h.pending, fun _ => hmore, nofun, nofun, fun hne => absurd rfl hne,
      fun _ => hlt, ?_, nofun⟩
    rintro tail dest (⟨⟨⟩⟩ | ⟨⟨⟩⟩)
    exact hpop.1
  | @popTest tail dest more hc hm =>
    have hdest := h.copies (.inl hc)
    refine ⟨h.le, h.count, h.pending, fun _ => hmore, nofun, nofun, fun hne => absurd rfl hne,
      fun _ => hlt, ?_, ?_⟩
    · cases more <;> rintro tail dest (⟨⟨⟩⟩ | ⟨⟨⟩⟩)
      exact hdest
    · cases more <;> nofun
  | @popCopy tail dest hc =>
    obtain rfl := h.copies (.inr hc)
    exact ⟨h.le, h.count, h.pending, fun _ => hmore, nofun, nofun, fun hne => absurd rfl hne,
      fun _ => hlt, nofun, nofun⟩
  | @popStore tail read hc =>
    have henter : p.enter = .waiting := if_pos hlat
    rw [if_pos rfl, henter]
    refine ⟨?_, h.count, h.pending, fun hne => absurd rfl hne, nofun, nofun, fun _ => rfl, nofun,
      nofun, nofun⟩
    simpa using Nat.succ_le_of_lt hlt

theorem moves (hlat : 0 < p.latency) (hc : Coupled s.toThreads) (h : Inv s) {e : BenchStep}
    (hst : s.Moves junk e t) : Inv t := by
  cases hst with
  | write hload hst => exact h.write hload hst
  | head hr hlt =>
    have hidle := h.idle (by simp [hr])
    refine ⟨h.le, h.count, h.pending, fun _ => Setup.lt_total_iff.1 hlt, ?_, nofun,
      fun _ => hidle, nofun, h.copies, h.runs⟩
    rintro head ⟨⟩
    exact ⟨_, hc.write, h.le, Nat.le_refl _⟩
  | tail hr =>
    have hmore := h.more (by simp [hr])
    have hidle := h.idle (by simp [hr])
    refine ⟨h.le, h.count, h.pending, fun _ => hmore, nofun, ?_, fun _ => hidle, nofun, h.copies,
      h.runs⟩
    rintro head tail ⟨⟩
    exact ⟨hc.read, h.head hr⟩
  | leave hr hs => exact h.leave hr hs
  | pop hr hpop hst => exact h.pop hlat hr hpop hst

end Inv

theorem inv_of_reachable (hlat : 0 < p.latency) {s : Bench p E}
    (hs : (latencyRun p junk mBuffer).Reachable s) : Inv s :=
  System.invariant (P := Inv) (Inv.start hlat)
    (fun hs h hst => h.moves hlat (coupled_of_reachable hs) (latencyRun_moves hst)) hs

/-! ## The reader trails the writer -/

/-- More than `latency` blocks are unread, or everything is pushed. -/
def Behind (s : Bench p E) : Prop :=
  p.latency.toNat < s.handed.length - s.taken.length ∨ s.handed.length = p.total

/-- The steps of a `try_pop` that succeeds. -/
def tryPopSteps : List PopStep := [.load .copy, .test true, .copy, .store]

/-- What a reader may rely on from the load of `tail()` to the store of its pop. -/
structure Trails (junk : p.shape.Block E) (mBuffer : ℕ → E) (s : Bench p E) : Prop where
  /-- `head-tail` does not wrap. -/
  ordered : ∀ {head tail}, s.reader = .loadedTail head tail → tail.toNat ≤ head.toNat
  leaves : ∀ {t}, s.step junk (.leave true) = some t → t.Behind
  /-- The reader is in its pop until the store of `m_read`. -/
  stays : s.reader = .popping → s.Behind
  /-- No `try_pop` of the pop is refused. -/
  first : ∀ {more t}, s.step junk (.pop (.test more)) = some t → more = true
  goesOn : s.reader = .popping → ∃ e t, s.step junk (.pop e) = some t
  /-- What is left of the `try_pop` can be taken at once, and pops a block. -/
  succeeds : s.reader = .popping → ∃ es t, es <:+ tryPopSteps ∧
    (latencyRun p junk mBuffer).run s (es.map .pop) = some t ∧
    t.taken.length = s.taken.length + 1

variable {s t : Bench p E}

/-- The condition of the loop, tested on old values, is true of the present ones. -/
theorem Inv.behind (h : Inv s) {head tail : SizeT} (hr : s.reader = .loadedTail head tail)
    (hs : p.satisfied head tail = true) : s.Behind := by
  obtain ⟨rfl, n, rfl, hmn, hnle⟩ := h.tail hr
  have hmore := h.more (by simp [hr])
  have hcount := h.count
  rcases (Setup.satisfied_iff (by omega) hmn (by omega)).1 hs with hfar | hall
  · refine .inl ?_
    omega
  · refine .inr ?_
    omega

/-- What the writer does keeps the reader behind. -/
theorem Behind.mono (h : s.Behind) (ht : Inv t) (htaken : t.taken.length = s.taken.length)
    (hhanded : s.handed.length ≤ t.handed.length) : t.Behind := by
  have hcount := ht.count
  rcases h with hfar | hall
  · refine .inl ?_
    omega
  · refine .inr ?_
    omega

theorem behind_moves (hlat : 0 < p.latency) {e : BenchStep} (h : Inv s) (ht : Inv t)
    (ih : s.reader = .popping → s.Behind) (hst : s.Moves junk e t) :
    t.reader = .popping → t.Behind := by
  intro hr
  cases hst with
  | write hload hst =>
    obtain ⟨htaken, -, -, hle⟩ := hst.push_frame
    exact (ih hr).mono ht (congrArg List.length htaken) hle
  | head => cases hr
  | tail => cases hr
  | @leave head tail satisfied hloaded hs =>
    cases satisfied with
    | false => cases hr
    | true => exact h.behind hloaded hs
  | @pop e t hpopping hpop hst =>
    obtain ⟨hhanded, -⟩ := hst.pop_frame
    have hbehind := ih hpopping
    cases hst with
    | popStore =>
      rw [if_pos rfl, show p.enter = .waiting from if_pos hlat] at hr
      cases hr
    | popLoad => exact hbehind
    | popTest => exact hbehind
    | popCopy => exact hbehind

theorem behind_of_reachable (hlat : 0 < p.latency)
    (hs : (latencyRun p junk mBuffer).Reachable s) (hr : s.reader = .popping) : s.Behind := by
  revert hr
  refine System.invariant (S := latencyRun p junk mBuffer)
    (P := fun s => s.reader = .popping → s.Behind) ?_ ?_ hs
  · intro hr
    have henter : p.enter = .waiting := if_pos hlat
    cases henter.symm.trans hr
  · intro s t e hs ih hst
    exact behind_moves hlat (inv_of_reachable hlat hs) (inv_of_reachable hlat (hs.step hst)) ih
      (latencyRun_moves hst)

/-- In a pop, the reader finds the counters apart. -/
theorem Inv.read_ne_write (h : Inv s) (hc : Coupled s.toThreads) (hr : s.reader = .popping) :
    s.mRead ≠ s.mWrite := by
  have hlt := h.popping hr
  have hcount := h.count
  have htotal := p.total_lt
  rw [hc.write, hc.read]
  exact count_ne hlt (by omega)

/-- A pop that has begun goes on to its store. -/
theorem Inv.exists_pop (h : Inv s) (hc : Coupled s.toThreads) (hr : s.reader = .popping) :
    ∃ e t, s.step junk (.pop e) = some t := by
  have hmore := h.read_ne_write hc hr
  have hlt := h.more (by simp [hr])
  cases hcons : s.consumer with
  | idle =>
    refine ⟨.load .copy, Option.isSome_iff_exists.1 ?_⟩
    simp [step, hr, mayPop, Setup.lt_total_iff.2 hlt, Threads.popStep, hcons]
  | loaded tail dest =>
    obtain rfl := hc.tail (by rw [hcons]; rfl)
    refine ⟨.test true, Option.isSome_iff_exists.1 ?_⟩
    simp [step, hr, mayPop, Threads.popStep, hcons, hmore]
  | passed tail dest =>
    refine ⟨.copy, Option.isSome_iff_exists.1 ?_⟩
    simp [step, hr, mayPop, Threads.popStep, hcons]
  | copied tail read =>
    refine ⟨.store, Option.isSome_iff_exists.1 ?_⟩
    simp [step, hr, mayPop, Threads.popStep, hcons]
  | fault => exact absurd hcons h.runs

/-- The steps that are left depend on where the consumer stands. -/
theorem Inv.exists_run_pop (h : Inv s) (hc : Coupled s.toThreads) (hr : s.reader = .popping) :
    ∃ es t, es <:+ tryPopSteps ∧ (latencyRun p junk mBuffer).run s (es.map .pop) = some t ∧
      t.taken.length = s.taken.length + 1 := by
  suffices ∃ es, es <:+ tryPopSteps ∧
      ((latencyRun p junk mBuffer).run s (es.map .pop)).map (fun t => t.taken.length) =
        some (s.taken.length + 1) by
    obtain ⟨es, hes, hrun⟩ := this
    obtain ⟨t, ht, hlen⟩ := Option.map_eq_some_iff.1 hrun
    exact ⟨es, t, hes, ht, hlen⟩
  have hmore := h.read_ne_write hc hr
  have hlt := h.more (by simp [hr])
  cases hcons : s.consumer with
  | idle =>
    refine ⟨tryPopSteps, List.suffix_refl _, ?_⟩
    simp [latencyRun, tryPopSteps, step, hr, mayPop, Setup.lt_total_iff.2 hlt, Threads.popStep,
      Threads.read, hcons, hmore]
  | loaded tail dest =>
    obtain rfl := hc.tail (by rw [hcons]; rfl)
    refine ⟨tryPopSteps.drop 1, List.drop_suffix _ _, ?_⟩
    obtain rfl := h.copies (.inl hcons)
    simp [latencyRun, tryPopSteps, step, hr, mayPop, Threads.popStep, Threads.read, hcons, hmore]
  | passed tail dest =>
    refine ⟨tryPopSteps.drop 2, List.drop_suffix _ _, ?_⟩
    obtain rfl := h.copies (.inr hcons)
    simp [latencyRun, tryPopSteps, step, hr, mayPop, Threads.popStep, Threads.read, hcons]
  | copied tail read =>
    refine ⟨tryPopSteps.drop 3, List.drop_suffix _ _, ?_⟩
    simp [latencyRun, tryPopSteps, step, hr, mayPop, Threads.popStep, hcons]
  | fault => exact absurd hcons h.runs

/-- **The reader trails the writer by more than the latency**, or the writer is done, from each
time it leaves its loop until the store of its pop, which succeeds at its first `try_pop`. -/
theorem trails_of_reachable (hlat : 0 < p.latency)
    (hs : (latencyRun p junk mBuffer).Reachable s) : s.Trails junk mBuffer := by
  have h := inv_of_reachable hlat hs
  have hc := coupled_of_reachable hs
  refine ⟨?_, ?_, behind_of_reachable hlat hs, ?_, h.exists_pop hc, h.exists_run_pop hc⟩
  · intro head tail hr
    obtain ⟨rfl, n, rfl, hmn, hnle⟩ := h.tail hr
    have hcount := h.count
    have htotal := p.total_lt
    rw [toNat_count_of_lt (by omega), toNat_count_of_lt (by omega)]
    exact hmn
  · intro t hst
    have hbehind := behind_of_reachable hlat (latencyRun_step hs hst)
    cases moves_of_step hst with
    | leave => exact hbehind rfl
  · intro more t hst
    cases moves_of_step hst with
    | pop hr hpop hmoves =>
      cases hmoves with
      | popTest hloaded hm =>
        obtain rfl := hc.tail (by rw [hloaded]; rfl)
        rw [← hm, decide_eq_true (h.read_ne_write hc hr)]

/-- Three elements and a latency of one: the reader has popped the first block, and has passed the
test of its second pop, whose steps pop the next block. -/
theorem trails_of_reachable_three : ∃ s : Bench (Setup.main 3 0 1 1) ℕ,
    (s.reader = .popping ∧ s.handed.length = 3 ∧ s.taken = [some (0, fun _ => 5)] ∧
      ((latencyRun (Setup.main 3 0 1 1) (fun _ => (5 : ℕ)) fun _ => 0).run s
        [.pop .copy, .pop .store]).map (fun t => t.taken) =
          some [some (0, fun _ => 5), some (1, fun _ => 5)]) ∧
      s.Trails (fun _ => 5) fun _ => 0 := by
  obtain ⟨s, hs, hp⟩ := (latencyRun (Setup.main 3 0 1 1) (fun _ => (5 : ℕ))
    fun _ => 0).exists_reachable
    (p := fun s => s.reader = .popping ∧ s.handed.length = 3 ∧ s.taken = [some (0, fun _ => 5)] ∧
      ((latencyRun (Setup.main 3 0 1 1) (fun _ => (5 : ℕ)) fun _ => 0).run s
        [.pop .copy, .pop .store]).map (fun t => t.taken) =
          some [some (0, fun _ => 5), some (1, fun _ => 5)])
    [.head, .write .load, .write (.test true), .write .store, .tail, .leave false, .write .fill,
      .write .load, .write (.test true), .write .store, .head, .tail, .leave true,
      .pop (.load .copy), .pop (.test true), .write .fill, .pop .copy, .pop .store, .head,
      .write .load, .write (.test true), .write .store, .tail, .leave false, .head, .tail,
      .leave true, .pop (.load .copy), .pop (.test true)] (by decide)
  exact ⟨s, hp, trails_of_reachable (by decide) hs⟩

end Bench

end ThreadTests.Arene
