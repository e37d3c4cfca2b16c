import ThreadTests.Core.Scripts
import Mathlib.Data.Fintype.Basic
import Mathlib.Tactic.Common

/-!
# The monitor of a bounded buffer

Any number of threads call `push`, `pop` and `pop_save` on one buffer. A call takes the mutex,
tests its predicate, and waits on its condition variable, which releases the mutex, while the
predicate is false; then it updates the buffer, releases the mutex, and notifies one waiter of the
other condition. A waiter is woken by a notification or for no reason, and takes the mutex before
it tests again.

The two sides mirror each other: `push` waits for room and notifies those who wait for items, and
`pop` and `pop_save` the other way round (`Side`). The predicates and the updates are those of what
the mutex guards (`Guarded`). Whatever they are, the critical sections exclude each other, so that
what a thread has tested is still so when it updates or goes to sleep (`Exclusive`), and a map that
keeps them is a lockstep of the runs (`Refines.lockstep`).
-/

namespace ThreadTests.BoundedBuffer

universe u v w x

/-- Who waits on which condition: producers on `m_not_full`, consumers on `m_not_empty`. -/
inductive Side where
  | producer
  | consumer
  deriving DecidableEq, Repr

namespace Side

/-- The side that is notified. -/
def other : Side → Side
  | .producer => .consumer
  | .consumer => .producer

theorem other_ne (d : Side) : d.other ≠ d := by cases d <;> nofun

theorem eq_or_eq_other (d e : Side) : d = e ∨ d = e.other := by
  cases d <;> cases e <;> simp [other]

end Side

/-- A call. -/
inductive Op (T : Type v) where
  | push (item : T)
  | pop
  | popSave
  deriving DecidableEq, Repr

namespace Op

variable {T : Type v}

def side : Op T → Side
  | .push _ => .producer
  | .pop | .popSave => .consumer

/-- The item that a call puts in. -/
def item : Op T → Option T
  | .push item => some item
  | .pop | .popSave => none

theorem item_eq_none {op : Op T} (hop : op.side = .consumer) : op.item = none := by
  cases op with
  | push => cases hop
  | pop | popSave => rfl

end Op

/-- How far a call is. -/
inductive Stage where
  | entering
  /-- It holds the mutex and is to test the predicate; the flag says whether it waited before. -/
  | testing (woken : Bool)
  /-- The predicate is false. -/
  | sleeping
  /-- On the condition variable, without the mutex. -/
  | waiting
  | woken
  /-- The predicate is true. -/
  | passed (woken : Bool)
  /-- The buffer is updated. -/
  | updated
  /-- The mutex is released. -/
  | notifying
  deriving DecidableEq, Repr

inductive Pc (T : Type v) where
  | idle
  | call (op : Op T) (stage : Stage)
  deriving DecidableEq, Repr

namespace Pc

variable {T : Type v}

/-- The thread holds the mutex. -/
def holding : Pc T → Bool
  | .call _ (.testing _) | .call _ .sleeping | .call _ (.passed _) | .call _ .updated => true
  | _ => false

/-- The thread is on the condition variable of the side. -/
def waitingOn (d : Side) : Pc T → Bool
  | .call op .waiting => op.side == d
  | _ => false

/-- The thread is in no call, or has made the update of its call. -/
def settled : Pc T → Bool
  | .idle | .call _ .updated | .call _ .notifying => true
  | _ => false

theorem waitingOn_iff {d : Side} {p : Pc T} :
    p.waitingOn d = true ↔ ∃ op : Op T, p = .call op .waiting ∧ op.side = d := by
  rcases p with _ | ⟨op, _ | _ | _ | _ | _ | _ | _ | _⟩ <;> simp [waitingOn]

end Pc

/-- The steps of the threads; a test carries its outcome, and a notification the waiter that it
wakes, if there is one. -/
inductive Event (ι : Type u) (T : Type v) where
  | call (i : ι) (op : Op T)
  | lock (i : ι)
  | test (i : ι) (ready : Bool)
  | wait (i : ι)
  | spurious (i : ι)
  | update (i : ι)
  | unlock (i : ι)
  | notify (i : ι) (target : Option ι)
  deriving DecidableEq, Repr

/-- What the mutex guards. -/
class Guarded (D : Type w) (T : outParam (Type v)) where
  init : D
  /-- The predicate of a side. -/
  ready : D → Side → Bool
  /-- The critical part of a call, with the item that it takes out; no result where the behaviour
  is undefined. -/
  update : D → Op T → Option (D × Option T)

/-- What the mutex guards, where each thread is, and the items that the updates have put in and
taken out, in order. -/
structure State (ι : Type u) (T : Type v) (D : Type w) where
  data : D
  mMutex : Option ι
  pc : ι → Pc T
  pushed : List T
  popped : List T

namespace State

variable {ι : Type u} {T : Type v} {D : Type w}

/-- The undelivered items, the oldest first. -/
def undelivered (s : State ι T D) : List T := s.pushed.drop s.popped.length

section Update

variable [Guarded D T]

def ready (s : State ι T D) : Side → Bool := Guarded.ready s.data

def update (s : State ι T D) (op : Op T) : Option (State ι T D) :=
  (Guarded.update s.data op).map fun (data, item) =>
    { s with
      data := data, pushed := s.pushed ++ op.item.toList, popped := s.popped ++ item.toList }

theorem update_eq_some {s t : State ι T D} {op : Op T} : s.update op = some t ↔
    ∃ data item, Guarded.update s.data op = some (data, item) ∧ t = { s with
      data := data, pushed := s.pushed ++ op.item.toList, popped := s.popped ++ item.toList } := by
  simp only [update, Option.map_eq_some_iff, Prod.exists, @eq_comm _ _ t]

theorem update_frame {s t : State ι T D} {op : Op T} (hu : s.update op = some t) :
    t.pc = s.pc ∧ t.mMutex = s.mMutex := by
  obtain ⟨_, _, -, rfl⟩ := update_eq_some.1 hu
  exact ⟨rfl, rfl⟩

end Update

variable [DecidableEq ι]

/-- The thread `i` goes on. -/
def goto (s : State ι T D) (i : ι) (p : Pc T) : State ι T D :=
  { s with pc := Function.update s.pc i p }

@[simp] theorem goto_pc_self (s : State ι T D) (i : ι) (p : Pc T) :
    (s.goto i p).pc i = p := Function.update_self ..

theorem goto_pc_of_ne (s : State ι T D) {i j : ι} (h : j ≠ i) (p : Pc T) :
    (s.goto i p).pc j = s.pc j := Function.update_of_ne h ..

variable [Guarded D T]

def step [Fintype ι] (s : State ι T D) : Event ι T → Option (State ι T D)
  | .call i op =>
    match s.pc i with
    | .idle => some (s.goto i (.call op .entering))
    | _ => none
  | .lock i =>
    match s.mMutex, s.pc i with
    | none, .call op .entering =>
      some { s.goto i (.call op (.testing false)) with mMutex := some i }
    | none, .call op .woken => some { s.goto i (.call op (.testing true)) with mMutex := some i }
    | _, _ => none
  | .test i ready =>
    match s.pc i with
    | .call op (.testing woken) =>
      if s.ready op.side = ready then
        some (s.goto i (.call op (if ready then .passed woken else .sleeping)))
      else none
    | _ => none
  | .wait i =>
    match s.pc i with
    | .call op .sleeping => some { s.goto i (.call op .waiting) with mMutex := none }
    | _ => none
  | .spurious i =>
    match s.pc i with
    | .call op .waiting => some (s.goto i (.call op .woken))
    | _ => none
  | .update i =>
    match s.pc i with
    | .call op (.passed _) => (s.update op).map fun t => t.goto i (.call op .updated)
    | _ => none
  | .unlock i =>
    match s.pc i with
    | .call op .updated => some { s.goto i (.call op .notifying) with mMutex := none }
    | _ => none
  | .notify i target =>
    match s.pc i with
    | .call op .notifying =>
      match target with
      | none =>
        if ∀ j, (s.pc j).waitingOn op.side.other = false then some (s.goto i .idle) else none
      | some j =>
        match s.pc j with
        | .call op' .waiting =>
          if op'.side = op.side.other then some ((s.goto j (.call op' .woken)).goto i .idle)
          else none
        | _ => none
    | _ => none

def start : State ι T D where
  data := Guarded.init
  mMutex := none
  pc _ := .idle
  pushed := []
  popped := []

/-- The steps, each with what it needs and what it changes. -/
inductive Moves (s : State ι T D) : Event ι T → State ι T D → Prop
  | call {i op} (h : s.pc i = .idle) : Moves s (.call i op) (s.goto i (.call op .entering))
  | enter {i op} (h : s.pc i = .call op .entering) (hm : s.mMutex = none) :
    Moves s (.lock i) { s.goto i (.call op (.testing false)) with mMutex := some i }
  | relock {i op} (h : s.pc i = .call op .woken) (hm : s.mMutex = none) :
    Moves s (.lock i) { s.goto i (.call op (.testing true)) with mMutex := some i }
  | test {i op woken ready} (h : s.pc i = .call op (.testing woken))
    (hr : s.ready op.side = ready) :
    Moves s (.test i ready) (s.goto i (.call op (if ready then .passed woken else .sleeping)))
  | wait {i op} (h : s.pc i = .call op .sleeping) :
    Moves s (.wait i) { s.goto i (.call op .waiting) with mMutex := none }
  | spurious {i op} (h : s.pc i = .call op .waiting) :
    Moves s (.spurious i) (s.goto i (.call op .woken))
  | update {i op woken t} (h : s.pc i = .call op (.passed woken)) (hu : s.update op = some t) :
    Moves s (.update i) (t.goto i (.call op .updated))
  | unlock {i op} (h : s.pc i = .call op .updated) :
    Moves s (.unlock i) { s.goto i (.call op .notifying) with mMutex := none }
  | notifyNone {i op} (h : s.pc i = .call op .notifying)
    (hnone : ∀ j, (s.pc j).waitingOn op.side.other = false) :
    Moves s (.notify i none) (s.goto i .idle)
  | notifyOne {i j op op'} (h : s.pc i = .call op .notifying) (hj : s.pc j = .call op' .waiting)
    (hside : op'.side = op.side.other) :
    Moves s (.notify i (some j)) ((s.goto j (.call op' .woken)).goto i .idle)

theorem moves_of_step [Fintype ι] {s t : State ι T D} {e : Event ι T}
    (hst : s.step e = some t) : s.Moves e t := by
  cases e with
  | call i op =>
    simp only [step] at hst
    split at hst
    · cases hst
      exact .call ‹_›
    · cases hst
  | lock i =>
    simp only [step] at hst
    split at hst
    · cases hst
      exact .enter ‹_› ‹_›
    · cases hst
      exact .relock ‹_› ‹_›
    · cases hst
  | test i ready =>
    simp only [step] at hst
    split at hst
    · obtain ⟨hr, ⟨⟩⟩ := Option.ite_none_right_eq_some.1 hst
      exact .test ‹_› hr
    · cases hst
  | wait i =>
    simp only [step] at hst
    split at hst
    · cases hst
      exact .wait ‹_›
    · cases hst
  | spurious i =>
    simp only [step] at hst
    split at hst
    · cases hst
      exact .spurious ‹_›
    · cases hst
  | update i =>
    simp only [step] at hst
    split at hst
    · obtain ⟨u, hu, rfl⟩ := Option.map_eq_some_iff.1 hst
      exact .update ‹_› hu
    · cases hst
  | unlock i =>
    simp only [step] at hst
    split at hst
    · cases hst
      exact .unlock ‹_›
    · cases hst
  | notify i target =>
    simp only [step] at hst
    split at hst
    · split at hst
      · obtain ⟨hnone, ⟨⟩⟩ := Option.ite_none_right_eq_some.1 hst
        exact .notifyNone ‹_› hnone
      · split at hst
        · obtain ⟨hside, ⟨⟩⟩ := Option.ite_none_right_eq_some.1 hst
          exact .notifyOne ‹_› ‹_› hside
        · cases hst
    · cases hst

/-- A move is a step, so the moves say all that a step needs. -/
theorem Moves.step_eq [Fintype ι] {s t : State ι T D} {e : Event ι T} (h : s.Moves e t) :
    s.step e = some t := by
  cases h with
  | call h => simp only [step, h]
  | enter h hm => simp only [step, h, hm]
  | relock h hm => simp only [step, h, hm]
  | test h hr => simp only [step, h, hr, if_true]
  | wait h => simp only [step, h]
  | spurious h => simp only [step, h]
  | update h hu => simp only [step, h, hu, Option.map_some]
  | unlock h => simp only [step, h]
  | notifyNone h hnone => simp only [step, h, if_pos hnone]
  | notifyOne h hj hside => simp only [step, h, hj, if_pos hside]

end State

/-- Threads `ι` on a buffer. -/
def system (ι : Type u) {T : Type v} (D : Type w) [Guarded D T] [DecidableEq ι] [Fintype ι] :
    System (State ι T D) (Event ι T) where
  init := State.start
  step := State.step

variable {ι : Type u} {T : Type v} {D : Type w} [Guarded D T] [DecidableEq ι] {s t : State ι T D}
  {i j : ι} {op : Op T} {woken : Bool} {p : Pc T} {e : Event ι T}

/-! ## The mutex -/

/-- The threads that are in a critical section, at most one, are those that hold the mutex. -/
def Locked (s : State ι T D) : Prop := ∀ i, (s.pc i).holding = true ↔ s.mMutex = some i

namespace Locked

omit [Guarded D T] [DecidableEq ι] in
theorem eq_of_holding (h : Locked s) (hi : (s.pc i).holding = true)
    (hj : (s.pc j).holding = true) : i = j :=
  Option.some.inj (((h i).1 hi).symm.trans ((h j).1 hj))

omit [Guarded D T] in
theorem keep (h : Locked s) (hp : p.holding = (s.pc i).holding) : Locked (s.goto i p) := by
  intro j
  by_cases hj : j = i
  · subst hj
    rw [State.goto_pc_self, hp]
    exact h j
  · rw [State.goto_pc_of_ne s hj]
    exact h j

omit [Guarded D T] in
theorem acquire (h : Locked s) (hm : s.mMutex = none) (hp : p.holding = true) :
    Locked { s.goto i p with mMutex := some i } := by
  intro j
  by_cases hj : j = i
  · subst hj
    simpa [State.goto] using hp
  · have hfree := h j
    rw [hm] at hfree
    simpa [State.goto, Function.update_of_ne hj, Ne.symm hj] using hfree

omit [Guarded D T] in
theorem release (h : Locked s) (hi : (s.pc i).holding = true) (hp : p.holding = false) :
    Locked { s.goto i p with mMutex := none } := by
  intro j
  by_cases hj : j = i
  · subst hj
    simpa [State.goto] using hp
  · have hfree : (s.pc j).holding = false := by
      rw [Bool.eq_false_iff]
      exact fun hholds => hj (h.eq_of_holding hholds hi)
    simp [State.goto, Function.update_of_ne hj, hfree]

theorem moves (h : Locked s) (hst : s.Moves e t) : Locked t := by
  cases hst with
  | call hi => exact h.keep (by rw [hi]; rfl)
  | enter hi hm => exact h.acquire hm rfl
  | relock hi hm => exact h.acquire hm rfl
  | @test i op woken ready hi hr => exact h.keep (by rw [hi]; cases ready <;> rfl)
  | wait hi => exact h.release (by rw [hi]; rfl) rfl
  | spurious hi => exact h.keep (by rw [hi]; rfl)
  | @update i op woken t hi hu =>
    obtain ⟨hpc, hmutex⟩ := State.update_frame hu
    have ht : Locked t := fun j => by rw [hpc, hmutex]; exact h j
    exact ht.keep (by rw [hpc, hi]; rfl)
  | unlock hi => exact h.release (by rw [hi]; rfl) rfl
  | notifyNone hi => exact h.keep (by rw [hi]; rfl)
  | @notifyOne i j op op' hi hj =>
    have hne : i ≠ j := by
      rintro rfl
      rw [hi] at hj
      cases hj
    refine (h.keep (by rw [hj]; rfl)).keep ?_
    rw [State.goto_pc_of_ne s hne, hi]
    rfl

end Locked

/-! ## The critical sections -/

/-- What the critical sections keep from each other: a predicate that was true is so at the update,
and one that was false is so when the thread goes to sleep. -/
structure Exclusive (s : State ι T D) : Prop where
  locked : Locked s
  tested : ∀ {i op woken}, s.pc i = .call op (.passed woken) → s.ready op.side = true
  slept : ∀ {i op}, s.pc i = .call op .sleeping → s.ready op.side = false

namespace Exclusive

omit [DecidableEq ι] in
theorem start : Exclusive (State.start : State ι T D) := by
  refine ⟨?_, nofun, nofun⟩
  intro i
  simp [State.start, Pc.holding]

/-- A thread goes on, and may take or release the mutex; the buffer stays as it is. -/
theorem goto (h : Exclusive s) {m : Option ι} (hlocked : Locked { s.goto i p with mMutex := m })
    (htested : ∀ op woken, p = .call op (.passed woken) → s.ready op.side = true)
    (hslept : ∀ op, p = .call op .sleeping → s.ready op.side = false) :
    Exclusive { s.goto i p with mMutex := m } := by
  refine ⟨hlocked, ?_, ?_⟩
  · intro j op woken hj
    by_cases hne : j = i
    · subst hne
      exact htested op woken ((State.goto_pc_self s j p).symm.trans hj)
    · exact h.tested ((State.goto_pc_of_ne s hne p).symm.trans hj)
  · intro j op hj
    by_cases hne : j = i
    · subst hne
      exact hslept op ((State.goto_pc_self s j p).symm.trans hj)
    · exact h.slept ((State.goto_pc_of_ne s hne p).symm.trans hj)

/-- The thread that holds the mutex changes the buffer, and is then neither between its test and its
update nor about to wait. -/
theorem of_holder (h : Exclusive s) (hi : (s.pc i).holding = true) {m : Option ι}
    (hpc : t.pc = s.pc) (hlocked : Locked { t.goto i p with mMutex := m })
    (hpassed : ∀ op woken, p ≠ .call op (.passed woken))
    (hsleeping : ∀ op, p ≠ .call op .sleeping) : Exclusive { t.goto i p with mMutex := m } := by
  -- nobody else is in a critical section
  have hothers : ∀ {j op'} {stage : Stage}, (t.goto i p).pc j = .call op' stage →
      (Pc.call op' stage).holding = true → j = i := by
    intro j op' stage hj hholds
    by_contra hne
    rw [State.goto_pc_of_ne t hne, hpc] at hj
    exact hne (h.locked.eq_of_holding (by rw [hj]; exact hholds) hi)
  refine ⟨hlocked, ?_, ?_⟩
  · intro j op' woken' hj
    obtain rfl := hothers hj rfl
    exact absurd ((State.goto_pc_self t j p).symm.trans hj) (hpassed op' woken')
  · intro j op' hj
    obtain rfl := hothers hj rfl
    exact absurd ((State.goto_pc_self t j p).symm.trans hj) (hsleeping op')

theorem moves (h : Exclusive s) (hst : s.Moves e t) : Exclusive t := by
  have hlocked := h.locked.moves hst
  cases hst with
  | @test i op woken ready hi hr =>
    refine h.goto hlocked (fun op' woken' hp => ?_) (fun op' hp => ?_)
    · cases ready <;> cases hp
      exact hr
    · cases ready <;> cases hp
      exact hr
  | update hi hu =>
    exact h.of_holder (by rw [hi]; rfl) (State.update_frame hu).1 hlocked nofun nofun
  | @notifyOne i j op op' hi hj =>
    have hmid : Locked (s.goto j (.call op' .woken)) := h.locked.keep (by rw [hj]; rfl)
    exact (h.goto hmid nofun nofun).goto hlocked nofun nofun
  | _ => exact h.goto hlocked nofun nofun

theorem of_reachable [Fintype ι] (hs : (system ι D).Reachable s) : Exclusive s :=
  System.invariant (P := Exclusive) start (fun _ h hst => h.moves (State.moves_of_step hst)) hs

end Exclusive

/-! ## What the steps leave alone -/

/-- Only the updates touch the items. -/
theorem State.Moves.frame (hst : s.Moves e t) (he : ∀ i, e ≠ .update i) :
    t.data = s.data ∧ t.pushed = s.pushed ∧ t.popped = s.popped := by
  cases hst with
  | @update i => exact absurd rfl (he i)
  | _ => exact ⟨rfl, rfl, rfl⟩

omit [Guarded D T] in
/-- Who is settled after a thread went on was so before, unless it is that thread. -/
theorem settled_of_goto (hj : (s.pc j).settled = true ∨ p.settled = false)
    (h : ((s.goto j p).pc i).settled = true) : (s.pc i).settled = true := by
  by_cases hi : i = j
  · subst hi
    rw [State.goto_pc_self] at h
    exact hj.resolve_right (by simp [h])
  · rwa [State.goto_pc_of_ne s hi] at h

/-- A call does not end without its update. -/
theorem State.Moves.completes (hst : s.Moves e t) (hi : (s.pc i).settled = false)
    (ht : (t.pc i).settled = true) : e = .update i := by
  by_contra he
  refine Bool.false_ne_true (hi.symm.trans ?_)
  cases hst with
  | call hj | enter hj | relock hj | wait hj | spurious hj =>
    exact settled_of_goto (.inr rfl) ht
  | @test j op woken ready hj =>
    refine settled_of_goto (.inr ?_) ht
    cases ready with
    | true => rfl
    | false => rfl
  | @update j op woken u hj hu =>
    have hne : i ≠ j := fun hij => he (congrArg Event.update hij.symm)
    rwa [State.goto_pc_of_ne u hne, (State.update_frame hu).1] at ht
  | unlock hj | notifyNone hj => exact settled_of_goto (.inl (by rw [hj]; rfl)) ht
  | @notifyOne i' j op op' hi' hj =>
    have hne : i' ≠ j := by
      rintro rfl
      rw [hi'] at hj
      cases hj
    refine settled_of_goto (.inr rfl) (settled_of_goto (.inl ?_) ht)
    rw [State.goto_pc_of_ne s hne, hi']
    rfl

/-- What the updates keep where the predicate of the call is true holds in every state. -/
theorem data_of_reachable [Fintype ι] {P : D → Prop} (hinit : P Guarded.init)
    (hupdate : ∀ {d op d' item}, P d → Guarded.ready d op.side = true →
      Guarded.update d op = some (d', item) → P d')
    (hs : (system ι D).Reachable s) : P s.data := by
  refine System.invariant (P := fun s => P s.data) hinit (fun {s t e} hs h hst => ?_) hs
  cases State.moves_of_step hst with
  | update hi hu =>
    obtain ⟨_, _, hdata, rfl⟩ := State.update_eq_some.1 hu
    exact hupdate h ((Exclusive.of_reachable hs).tested hi) hdata
  | _ => exact h

/-! ## Maps of what is guarded -/

/-- The same state, with the image of what is guarded. -/
def State.map {D' : Type x} (f : D → D') (s : State ι T D) : State ι T D' where
  data := f s.data
  mMutex := s.mMutex
  pc := s.pc
  pushed := s.pushed
  popped := s.popped

/-- A map that keeps the predicates, and the updates where the predicate of the call is true, of the
data that are valid. -/
structure Refines (D : Type w) (D' : Type x) {T : Type v} [Guarded D T] [Guarded D' T] where
  abs : D → D'
  valid : D → Prop
  init : abs Guarded.init = Guarded.init
  valid_init : valid Guarded.init
  ready : ∀ {d}, valid d → ∀ side, Guarded.ready (abs d) side = Guarded.ready d side
  update : ∀ {d op}, valid d → Guarded.ready d op.side = true →
    Guarded.update (abs d) op = (Guarded.update d op).map (Prod.map abs id)
  valid_update : ∀ {d op d' item}, valid d → Guarded.ready d op.side = true →
    Guarded.update d op = some (d', item) → valid d'

namespace Refines

variable {D' : Type x} [Guarded D' T] (R : Refines D D')

omit [DecidableEq ι] in
theorem update_map (hs : R.valid s.data) (hready : s.ready op.side = true) :
    (s.map R.abs).update op = (s.update op).map (State.map R.abs) := by
  rw [State.update, State.update, State.map, R.update hs hready, Option.map_map, Option.map_map]
  rfl

variable [Fintype ι]

theorem step_map (hs : R.valid s.data) (h : Exclusive s) (e : Event ι T) :
    (s.map R.abs).step e = (s.step e).map (State.map R.abs) := by
  have hpc : (s.map R.abs).pc = s.pc := rfl
  have hmutex : (s.map R.abs).mMutex = s.mMutex := rfl
  cases e with
  | call | wait | spurious | unlock =>
    simp only [State.step, hpc]
    split <;> rfl
  | lock i =>
    simp only [State.step, hpc, hmutex]
    split <;> rfl
  | test i ready =>
    have hready : ∀ d, (s.map R.abs).ready d = s.ready d := R.ready hs
    simp only [State.step, hpc, hready]
    split
    · split <;> rfl
    · rfl
  | update i =>
    simp only [State.step, hpc]
    split
    · rename_i hi
      rw [R.update_map hs (h.tested hi), Option.map_map, Option.map_map]
      rfl
    · rfl
  | notify i target =>
    simp only [State.step, hpc]
    split
    · split
      · split <;> rfl
      · split
        · split <;> rfl
        · rfl
    · rfl

/-- **The runs go in lockstep.** -/
def lockstep (ι : Type u) [DecidableEq ι] [Fintype ι] :
    System.Lockstep (system ι D) (system ι D') where
  abs := State.map R.abs
  init := congrArg (fun d => State.mk d _ _ _ _) R.init
  step hs e :=
    R.step_map (data_of_reachable R.valid_init R.valid_update hs) (Exclusive.of_reachable hs) e

end Refines

end ThreadTests.BoundedBuffer
