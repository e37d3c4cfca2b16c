import ThreadTests.Core.System
import Mathlib.Order.UpperLower.Principal
import Mathlib.Tactic.Common

/-!
# The control of a single producer, single consumer queue

Two threads share two counts. Each adds to its own count only, after it has compared the two: the
producer loads its count, tests for room, and publishes; the consumer loads its count, tests for
more, and releases. The six steps interleave in any order. What a side knows from its test can
only become better until its own store, so a test that is right on the counts it reads keeps the
window of published and not yet released indices within the bound (`Protocol.Inv`).

The tests are parameters (`Protocol`). They need to be right only while the number of publications
lies in a lower set `L` of the naturals: all of them for counters that may wrap, the numbers below
a bound for counters that may not.
-/

namespace ThreadTests.Spsc

/-- The bound of the queue and the tests of the two sides, on the counts of publications and
releases. -/
structure Protocol where
  cap : ℕ
  room : ℕ → ℕ → Bool
  more : ℕ → ℕ → Bool

/-- Where a side stands: between calls, after the load of its own count, or after a test that
succeeded. -/
inductive Phase where
  | idle
  | loaded
  | passed
  deriving DecidableEq, Repr

structure State where
  pushes : ℕ
  pops : ℕ
  producer : Phase
  consumer : Phase
  deriving DecidableEq, Repr

/-- The steps of the two sides; a test carries its outcome. -/
inductive Event where
  | pushLoad
  | pushTest (room : Bool)
  | pushStore
  | popLoad
  | popTest (more : Bool)
  | popStore
  deriving DecidableEq, Repr

namespace Protocol

variable {p : Protocol} {L : LowerSet ℕ} {s t : State} {e : Event}

def step (p : Protocol) (s : State) : Event → Option State
  | .pushLoad => if s.producer = .idle then some { s with producer := .loaded } else none
  | .pushTest room =>
    if s.producer = .loaded ∧ p.room s.pushes s.pops = room then
      some { s with producer := if room then .passed else .idle }
    else none
  | .pushStore =>
    if s.producer = .passed then
      some { s with pushes := s.pushes + 1, producer := .idle }
    else none
  | .popLoad => if s.consumer = .idle then some { s with consumer := .loaded } else none
  | .popTest more =>
    if s.consumer = .loaded ∧ p.more s.pushes s.pops = more then
      some { s with consumer := if more then .passed else .idle }
    else none
  | .popStore =>
    if s.consumer = .passed then
      some { s with pops := s.pops + 1, consumer := .idle }
    else none

/-- The two sides from the empty queue, under every schedule. -/
def system (p : Protocol) : System State Event where
  init := ⟨0, 0, .idle, .idle⟩
  step := p.step

/-- The tests are right when they succeed, as long as the count of publications lies in `L`. -/
structure Sound (p : Protocol) (L : LowerSet ℕ) : Prop where
  room_lt : ∀ {n m}, m ≤ n → n ≤ m + p.cap → n ∈ L → p.room n m = true → n < m + p.cap
  more_ne : ∀ {n m}, p.more n m = true → n ≠ m

/-- The tests succeed whenever they may. -/
structure Exact (p : Protocol) (L : LowerSet ℕ) : Prop extends Sound p L where
  room_of_lt : ∀ {n m}, m ≤ n → n ∈ L → n < m + p.cap → p.room n m = true
  more_of_ne : ∀ {n m}, m ≤ n → n ≤ m + p.cap → n ∈ L → n ≠ m → p.more n m = true

/-- The window of published and not yet released indices, and what a side that has passed its
test may rely on. -/
structure Inv (p : Protocol) (L : LowerSet ℕ) (s : State) : Prop where
  le : s.pops ≤ s.pushes
  bound : s.pushes ∈ L → s.pushes ≤ s.pops + p.cap
  granted : s.pushes ∈ L → s.producer = .passed → s.pushes < s.pops + p.cap
  holding : s.consumer = .passed → s.pops < s.pushes

namespace Inv

theorem init : Inv p L ⟨0, 0, .idle, .idle⟩ :=
  ⟨Nat.le_refl _, fun _ => Nat.zero_le _, fun _ => nofun, nofun⟩

theorem pushTest {room : Bool} (hp : p.Sound L) (h : Inv p L s)
    (hr : p.room s.pushes s.pops = room) :
    Inv p L { s with producer := if room then .passed else .idle } := by
  refine ⟨h.le, h.bound, ?_, h.holding⟩
  intro hL hpass
  cases room with
  | false => cases hpass
  | true => exact hp.room_lt h.le (h.bound hL) hL hr

theorem pushStore (h : Inv p L s) (hpass : s.producer = .passed) :
    Inv p L { s with pushes := s.pushes + 1, producer := .idle } := by
  refine ⟨Nat.le_succ_of_le h.le, ?_, fun _ => nofun, ?_⟩
  · intro hL
    exact h.granted (L.lower (Nat.le_succ _) hL) hpass
  · intro hc
    exact Nat.lt_succ_of_lt (h.holding hc)

theorem popTest {more : Bool} (hp : p.Sound L) (h : Inv p L s)
    (hm : p.more s.pushes s.pops = more) :
    Inv p L { s with consumer := if more then .passed else .idle } := by
  refine ⟨h.le, h.bound, h.granted, ?_⟩
  intro hpass
  cases more with
  | false => cases hpass
  | true => exact Nat.lt_of_le_of_ne h.le (hp.more_ne hm).symm

theorem popStore (h : Inv p L s) (hpass : s.consumer = .passed) :
    Inv p L { s with pops := s.pops + 1, consumer := .idle } := by
  refine ⟨h.holding hpass, ?_, ?_, nofun⟩
  · intro hL
    have := h.bound hL
    simp only at this ⊢
    omega
  · intro hL hg
    have := h.granted hL hg
    simp only at this ⊢
    omega

theorem step (hp : p.Sound L) (h : Inv p L s) (hst : p.step s e = some t) : Inv p L t := by
  cases e with
  | pushLoad =>
    obtain ⟨-, ⟨⟩⟩ := Option.ite_none_right_eq_some.1 hst
    exact ⟨h.le, h.bound, fun _ => nofun, h.holding⟩
  | pushTest room =>
    obtain ⟨⟨-, hr⟩, ⟨⟩⟩ := Option.ite_none_right_eq_some.1 hst
    exact h.pushTest hp hr
  | pushStore =>
    obtain ⟨hpass, ⟨⟩⟩ := Option.ite_none_right_eq_some.1 hst
    exact h.pushStore hpass
  | popLoad =>
    obtain ⟨-, ⟨⟩⟩ := Option.ite_none_right_eq_some.1 hst
    exact ⟨h.le, h.bound, h.granted, nofun⟩
  | popTest more =>
    obtain ⟨⟨-, hm⟩, ⟨⟩⟩ := Option.ite_none_right_eq_some.1 hst
    exact h.popTest hp hm
  | popStore =>
    obtain ⟨hpass, ⟨⟩⟩ := Option.ite_none_right_eq_some.1 hst
    exact h.popStore hpass

end Inv

/-- **The window is bounded in every reachable state.** -/
theorem inv_of_reachable (hp : p.Sound L) (h : p.system.Reachable s) : Inv p L s :=
  System.invariant (P := Inv p L) Inv.init (fun _ hs hst => hs.step hp hst) h

/-- With exact tests a push is refused only when the queue is full at the moment of the test. -/
theorem Exact.room_eq_false_iff (hp : p.Exact L) (h : Inv p L s) (hL : s.pushes ∈ L) :
    p.room s.pushes s.pops = false ↔ s.pushes = s.pops + p.cap := by
  have hbound := h.bound hL
  constructor
  · intro hr
    by_contra hne
    have htrue := hp.room_of_lt h.le hL (Nat.lt_of_le_of_ne hbound hne)
    rw [hr] at htrue
    cases htrue
  · intro heq
    rw [Bool.eq_false_iff]
    intro hr
    have := hp.room_lt h.le hbound hL hr
    omega

/-- With exact tests a pop is refused only when the queue is empty at the moment of the test. -/
theorem Exact.more_eq_false_iff (hp : p.Exact L) (h : Inv p L s) (hL : s.pushes ∈ L) :
    p.more s.pushes s.pops = false ↔ s.pushes = s.pops := by
  constructor
  · intro hm
    by_contra hne
    have htrue := hp.more_of_ne h.le (h.bound hL) hL hne
    rw [hm] at htrue
    cases htrue
  · intro heq
    rw [Bool.eq_false_iff]
    exact fun hm => hp.more_ne hm heq

end Protocol

end ThreadTests.Spsc
