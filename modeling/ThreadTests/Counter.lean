import ThreadTests.Core.Fair
import ThreadTests.Core.Tally
import ThreadTests.Words
import Mathlib.Algebra.BigOperators.Ring.Finset
import Mathlib.Tactic.Common
import Mathlib.Tactic.Ring

/-!
# `do_inc` with a mutex and with an atomic counter

The threads of `test_mutex` and of `test_atomic` add to a shared `count`, `ntries` times each. What
they are to do is to make their additions one after the other, in some order (`adders`): then the
count is the sum of what they add, in the arithmetic of `int`.

Under the mutex a thread records the count before it adds; the values recorded are the sums before
each addition (`Mutexed.Serial`). Without the mutex the addition is one atomic operation.
-/

namespace ThreadTests.Counter

universe u

variable {ι : Type u}

/-- What the additions come to; each thread adds its `inc`. -/
def sum (inc : ι → CInt) : List ι → ℤ
  | [] => 0
  | i :: order => (inc i).toInt + sum inc order

theorem sum_append (inc : ι → CInt) (order order' : List ι) :
    sum inc (order ++ order') = sum inc order + sum inc order' := by
  induction order with
  | nil => exact (Int.zero_add _).symm
  | cons i order ih =>
    rw [List.cons_append, sum, sum, ih]
    ring

theorem sum_concat (inc : ι → CInt) (order : List ι) (i : ι) :
    sum inc (order ++ [i]) = sum inc order + (inc i).toInt := by
  rw [sum_append, sum, sum]
  ring

/-- The addition of `int` on the sums. -/
theorem ofInt_sum_concat (inc : ι → CInt) (order : List ι) (i : ι) :
    BitVec.ofInt 32 (sum inc (order ++ [i])) = BitVec.ofInt 32 (sum inc order) + inc i := by
  rw [sum_concat, BitVec.ofInt_add, BitVec.ofInt_toInt]

variable [DecidableEq ι]

/-- How often each thread adds determines the sum. -/
theorem sum_eq [Fintype ι] (inc : ι → CInt) (order : List ι) :
    sum inc order = ∑ i, (order.count i : ℤ) * (inc i).toInt := by
  induction order with
  | nil => simp [sum]
  | cons j order ih =>
    have hcount : ∀ i, ((j :: order).count i : ℤ) * (inc i).toInt =
        (order.count i : ℤ) * (inc i).toInt + if j = i then (inc i).toInt else 0 := by
      intro i
      rw [List.count_cons]
      by_cases h : j = i
      · subst h
        simp
        ring
      · simp [h]
    rw [sum, ih, Finset.sum_congr rfl fun i _ => hcount i, Finset.sum_add_distrib,
      Finset.sum_ite_eq, if_pos (Finset.mem_univ j)]
    ring

/-- The additions one after the other, `ntries` of each thread. -/
def adders (ι : Type u) [DecidableEq ι] (ntries : ℕ) : System (List ι) ι where
  init := []
  step order i := if order.count i < ntries then some (order ++ [i]) else none

theorem adders_step {ntries : ℕ} {order : List ι} {i : ι} (h : order.count i < ntries) :
    (adders ι ntries).step order i = some (order ++ [i]) :=
  if_pos h

theorem count_le_of_adders {ntries : ℕ} {order : List ι} (h : (adders ι ntries).Reachable order)
    (i : ι) : order.count i ≤ ntries := by
  refine System.invariant (P := fun order => order.count i ≤ ntries) (Nat.zero_le _)
    (fun {s t e} _ hs hst => ?_) h
  obtain ⟨hlt, ⟨⟩⟩ := Option.ite_none_right_eq_some.1 hst
  rw [List.count_append]
  by_cases he : e = i
  · subst he
    simpa using Nat.succ_le_of_lt hlt
  · simpa [List.count_singleton, he] using hs

/-! ## `test_mutex` -/

/-- How far the owner of the mutex is in its iteration of `do_inc`. -/
inductive Stage where
  | locked
  | recorded
  | added
  deriving DecidableEq, Repr

/-- The variables of `test_mutex`: the mutex with its owner and how far that is, and the iterations
that each thread has made; and the order of the additions. -/
structure Mutexed (ι : Type u) where
  count : CInt
  countMutex : Option (ι × Stage)
  values : List CInt
  ind : ι → ℕ
  order : List ι

inductive MutexedEvent (ι : Type u) where
  | lock (i : ι)
  | record (i : ι)
  | add (i : ι)
  | unlock (i : ι)
  deriving DecidableEq, Repr

namespace Mutexed

def step (inc : ι → CInt) (ntries : ℕ) (s : Mutexed ι) : MutexedEvent ι → Option (Mutexed ι)
  | .lock i =>
    if s.countMutex = none ∧ s.ind i < ntries then some { s with countMutex := some (i, .locked) }
    else none
  | .record i =>
    if s.countMutex = some (i, .locked) then
      some { s with values := s.values ++ [s.count], countMutex := some (i, .recorded) }
    else none
  | .add i =>
    if s.countMutex = some (i, .recorded) then
      some { s with
        count := s.count + inc i, order := s.order ++ [i], countMutex := some (i, .added) }
    else none
  | .unlock i =>
    if s.countMutex = some (i, .added) then
      some { s with ind := Function.update s.ind i (s.ind i + 1), countMutex := none }
    else none

def start : Mutexed ι where
  count := 0
  countMutex := none
  values := []
  ind _ := 0
  order := []

/-- The threads with their increments, `ntries` iterations each. -/
def system (inc : ι → CInt) (ntries : ℕ) : System (Mutexed ι) (MutexedEvent ι) where
  init := start
  step := step inc ntries

/-- Whether the owner of the mutex has recorded the count, and not yet changed it. -/
def pending : Option (ι × Stage) → ℕ
  | some (_, .recorded) => 1
  | _ => 0

variable {inc : ι → CInt} {ntries : ℕ} {s t : Mutexed ι}

/-- What the iterations keep. -/
structure Inv (inc : ι → CInt) (ntries : ℕ) (s : Mutexed ι) : Prop where
  count : s.count = BitVec.ofInt 32 (sum inc s.order)
  made : ∀ i, s.order.count i = s.ind i + if s.countMutex = some (i, .added) then 1 else 0
  le : ∀ i, s.ind i ≤ ntries
  lt : ∀ i stage, s.countMutex = some (i, stage) → s.ind i < ntries
  /-- Each value recorded is the count before one of the additions. -/
  values : s.values = (List.range s.values.length).map fun k =>
    BitVec.ofInt 32 (sum inc (s.order.take k))
  length : s.values.length = s.order.length + pending s.countMutex

namespace Inv

theorem start : Inv inc ntries (start : Mutexed ι) :=
  ⟨rfl, fun _ => rfl, fun _ => Nat.zero_le _, nofun, rfl, rfl⟩

theorem step {e : MutexedEvent ι} (h : Inv inc ntries s) (hst : s.step inc ntries e = some t) :
    Inv inc ntries t := by
  have hmade := h.made
  have hlen := h.length
  cases e with
  | lock i =>
    obtain ⟨⟨hfree, hlt⟩, ⟨⟩⟩ := Option.ite_none_right_eq_some.1 hst
    rw [hfree] at hmade hlen
    refine ⟨h.count, fun j => ?_, h.le, fun j stage hj => ?_, h.values, hlen⟩
    · simpa using hmade j
    · cases hj
      exact hlt
  | record i =>
    obtain ⟨howner, ⟨⟩⟩ := Option.ite_none_right_eq_some.1 hst
    rw [howner] at hmade hlen
    refine ⟨h.count, fun j => ?_, h.le, fun j stage hj => ?_, ?_, ?_⟩
    · simpa using hmade j
    · cases hj
      exact h.lt _ _ howner
    · -- the value is the count after all additions so far
      have hfull : s.order.take s.values.length = s.order := List.take_of_length_le hlen.ge
      rw [List.length_append, List.length_singleton, List.range_succ, List.map_append, ← h.values,
        List.map_singleton, hfull, ← h.count]
    · rw [List.length_append, hlen]
      rfl
  | add i =>
    obtain ⟨howner, ⟨⟩⟩ := Option.ite_none_right_eq_some.1 hst
    rw [howner] at hmade hlen
    refine ⟨?_, fun j => ?_, h.le, fun j stage hj => ?_, ?_, ?_⟩
    · rw [ofInt_sum_concat, ← h.count]
    · have hj := hmade j
      rw [List.count_append, hj, List.count_singleton]
      by_cases hji : i = j
      · simp [hji]
      · simp [hji]
    · cases hj
      exact h.lt _ _ howner
    · -- the sums before the addition are the same
      refine h.values.trans (List.map_congr_left fun k hk => ?_)
      have hk := List.mem_range.1 hk
      rw [List.take_append_of_le_length (by rw [pending] at hlen; omega)]
    · rw [List.length_append, hlen]
      rfl
  | unlock i =>
    obtain ⟨howner, ⟨⟩⟩ := Option.ite_none_right_eq_some.1 hst
    rw [howner] at hmade hlen
    refine ⟨h.count, fun j => ?_, fun j => ?_, nofun, h.values, hlen⟩
    · have hj := hmade j
      by_cases hji : j = i
      · subst hji
        simpa using hj
      · have hij : ¬ i = j := fun heq => hji heq.symm
        simpa [hji, hij] using hj
    · change Function.update s.ind i (s.ind i + 1) j ≤ ntries
      by_cases hji : j = i
      · subst hji
        rw [Function.update_self]
        exact h.lt _ _ howner
      · rw [Function.update_of_ne hji]
        exact h.le j

end Inv

theorem inv_of_reachable (hs : (system inc ntries).Reachable s) : Inv inc ntries s :=
  System.invariant (P := Inv inc ntries) Inv.start (fun _ h hst => h.step hst) hs

/-- The additions of `test_mutex` are made one after the other. -/
def refinement (inc : ι → CInt) (ntries : ℕ) :
    System.Simulation (system inc ntries) (adders ι ntries) where
  abs := Mutexed.order
  label
    | _, .add i => some i
    | _, _ => none
  init := rfl
  silent {s t e} _ hst he := by
    cases e with
    | add i => cases he
    | lock i | record i | unlock i =>
      obtain ⟨-, ⟨⟩⟩ := Option.ite_none_right_eq_some.1 hst
      rfl
  visible {s t e d} hs hst he := by
    cases e with
    | add i =>
      cases he
      obtain ⟨howner, ⟨⟩⟩ := Option.ite_none_right_eq_some.1 hst
      have h := inv_of_reachable hs
      have hmade := h.made d
      rw [howner, if_neg (by simp), Nat.add_zero] at hmade
      exact adders_step (hmade.trans_lt (h.lt d .recorded howner))
    | lock i | record i | unlock i => cases he

/-! ### The end -/

/-- The steps that the owner of the mutex has made in its iteration. -/
def progress : Option (ι × Stage) → ℕ
  | none => 0
  | some (_, .locked) => 1
  | some (_, .recorded) => 2
  | some (_, .added) => 3

/-- The steps to come. -/
def left [Fintype ι] (ntries : ℕ) (s : Mutexed ι) : ℕ :=
  tally (fun ind => 4 * (ntries - ind)) s.ind - progress s.countMutex

/-- Every step counts. -/
theorem costs [Fintype ι] (inc : ι → CInt) (ntries : ℕ) :
    System.Costs (system inc ntries) (left ntries) (fun _ => false) 0 := by
  intro s t e hs hst
  have h := inv_of_reachable hs
  have hpos : ∀ i, s.ind i < ntries → 4 ≤ tally (fun ind => 4 * (ntries - ind)) s.ind := by
    intro i hi
    have hle := le_tally (fun ind => 4 * (ntries - ind)) s.ind i
    omega
  cases e with
  | lock i =>
    obtain ⟨⟨hfree, hlt⟩, ⟨⟩⟩ := Option.ite_none_right_eq_some.1 hst
    have := hpos i hlt
    simp only [left, hfree, progress]
    omega
  | record i =>
    obtain ⟨howner, ⟨⟩⟩ := Option.ite_none_right_eq_some.1 hst
    have := hpos i (h.lt i _ howner)
    simp only [left, howner, progress]
    omega
  | add i =>
    obtain ⟨howner, ⟨⟩⟩ := Option.ite_none_right_eq_some.1 hst
    have := hpos i (h.lt i _ howner)
    simp only [left, howner, progress]
    omega
  | unlock i =>
    obtain ⟨howner, ⟨⟩⟩ := Option.ite_none_right_eq_some.1 hst
    have hlt := h.lt i _ howner
    have := hpos i hlt
    have htally := tally_update (fun ind => 4 * (ntries - ind)) s.ind i (s.ind i + 1)
    simp only [left, howner, progress]
    omega

/-- All threads have returned. -/
def Finished (ntries : ℕ) (s : Mutexed ι) : Prop := s.countMutex = none ∧ ∀ i, s.ind i = ntries

theorem finished_of_stuck (hs : (system inc ntries).Reachable s)
    (hstuck : (system inc ntries).Stuck (fun _ => false) s) : s.Finished ntries := by
  have h := inv_of_reachable hs
  have hfree : s.countMutex = none := by
    cases hm : s.countMutex with
    | none => rfl
    | some owner =>
      obtain ⟨i, stage⟩ := owner
      cases stage with
      | locked => exact absurd (hstuck (.record i) _ (if_pos hm)) nofun
      | recorded => exact absurd (hstuck (.add i) _ (if_pos hm)) nofun
      | added => exact absurd (hstuck (.unlock i) _ (if_pos hm)) nofun
  refine ⟨hfree, fun i => ?_⟩
  by_contra hne
  have hlt : s.ind i < ntries := Nat.lt_of_le_of_ne (h.le i) hne
  exact absurd (hstuck (.lock i) _ (if_pos ⟨hfree, hlt⟩)) nofun

end Mutexed

/-! ## `test_atomic` -/

/-- The variables of `test_atomic`: the count that a thread has loaded in its iteration, and the
iterations that it has made; and the order of the additions. -/
structure Atomic (ι : Type u) where
  count : CInt
  tmp : ι → Option CInt
  ind : ι → ℕ
  order : List ι

inductive AtomicEvent (ι : Type u) where
  | load (i : ι)
  | add (i : ι)
  deriving DecidableEq, Repr

namespace Atomic

def step (inc : ι → CInt) (ntries : ℕ) (s : Atomic ι) : AtomicEvent ι → Option (Atomic ι)
  | .load i =>
    if s.tmp i = none ∧ s.ind i < ntries then
      some { s with tmp := Function.update s.tmp i (some s.count) }
    else none
  | .add i =>
    if s.tmp i ≠ none then
      some { s with
        count := s.count + inc i, order := s.order ++ [i], tmp := Function.update s.tmp i none
        ind := Function.update s.ind i (s.ind i + 1) }
    else none

def start : Atomic ι where
  count := 0
  tmp _ := none
  ind _ := 0
  order := []

/-- The threads with their increments, `ntries` iterations each. -/
def system (inc : ι → CInt) (ntries : ℕ) : System (Atomic ι) (AtomicEvent ι) where
  init := start
  step := step inc ntries

variable {inc : ι → CInt} {ntries : ℕ} {s t : Atomic ι}

/-- What the iterations keep. -/
structure Inv (inc : ι → CInt) (ntries : ℕ) (s : Atomic ι) : Prop where
  count : s.count = BitVec.ofInt 32 (sum inc s.order)
  made : ∀ i, s.order.count i = s.ind i
  le : ∀ i, s.ind i ≤ ntries
  lt : ∀ i, s.tmp i ≠ none → s.ind i < ntries

theorem Inv.step {e : AtomicEvent ι} (h : Inv inc ntries s) (hst : s.step inc ntries e = some t) :
    Inv inc ntries t := by
  cases e with
  | load i =>
    obtain ⟨⟨-, hlt⟩, ⟨⟩⟩ := Option.ite_none_right_eq_some.1 hst
    refine ⟨h.count, h.made, h.le, fun j hj => ?_⟩
    by_cases hji : j = i
    · rw [hji]
      exact hlt
    · exact h.lt j (by simpa [hji] using hj)
  | add i =>
    obtain ⟨htmp, ⟨⟩⟩ := Option.ite_none_right_eq_some.1 hst
    have hlt := h.lt i htmp
    refine ⟨?_, fun j => ?_, fun j => ?_, fun j hj => ?_⟩
    · rw [ofInt_sum_concat, ← h.count]
    · have hj := h.made j
      rw [List.count_append, hj, List.count_singleton]
      by_cases hji : j = i
      · simp [hji]
      · have hij : ¬ i = j := fun heq => hji heq.symm
        simp [hji, hij]
    · change Function.update s.ind i (s.ind i + 1) j ≤ ntries
      by_cases hji : j = i
      · subst hji
        rw [Function.update_self]
        exact hlt
      · rw [Function.update_of_ne hji]
        exact h.le j
    · change Function.update s.ind i (s.ind i + 1) j < ntries
      by_cases hji : j = i
      · subst hji
        simp at hj
      · rw [Function.update_of_ne hji]
        exact h.lt j (by simpa [hji] using hj)

theorem inv_of_reachable (hs : (system inc ntries).Reachable s) : Inv inc ntries s :=
  System.invariant (P := Inv inc ntries)
    ⟨rfl, fun _ => rfl, fun _ => Nat.zero_le _, fun _ hi => absurd rfl hi⟩
    (fun _ h hst => h.step hst) hs

/-- The additions of `test_atomic` are made one after the other. -/
def refinement (inc : ι → CInt) (ntries : ℕ) :
    System.Simulation (system inc ntries) (adders ι ntries) where
  abs := Atomic.order
  label
    | _, .add i => some i
    | _, .load _ => none
  init := rfl
  silent {s t e} _ hst he := by
    cases e with
    | load i =>
      obtain ⟨-, ⟨⟩⟩ := Option.ite_none_right_eq_some.1 hst
      rfl
    | add i => cases he
  visible {s t e d} hs hst he := by
    cases e with
    | load i => cases he
    | add i =>
      cases he
      obtain ⟨htmp, ⟨⟩⟩ := Option.ite_none_right_eq_some.1 hst
      have h := inv_of_reachable hs
      refine adders_step ?_
      rw [h.made d]
      exact h.lt d htmp

/-- The steps of a thread to come. -/
def loopLeft (ntries : ℕ) : Option CInt × ℕ → ℕ
  | (none, ind) => 2 * (ntries - ind)
  | (some _, ind) => 2 * (ntries - ind) - 1

def left [Fintype ι] (ntries : ℕ) (s : Atomic ι) : ℕ :=
  tally (loopLeft ntries) fun i => (s.tmp i, s.ind i)

theorem update_loop (s : Atomic ι) (i : ι) (tmp : Option CInt) (ind : ℕ) :
    (fun j => (Function.update s.tmp i tmp j, Function.update s.ind i ind j)) =
      Function.update (fun j => (s.tmp j, s.ind j)) i (tmp, ind) := by
  funext j
  by_cases hji : j = i
  · subst hji
    simp
  · simp [hji]

/-- Every step counts. -/
theorem costs [Fintype ι] (inc : ι → CInt) (ntries : ℕ) :
    System.Costs (system inc ntries) (left ntries) (fun _ => false) 0 := by
  intro s t e hs hst
  cases e with
  | load i =>
    obtain ⟨⟨htmp, hlt⟩, ⟨⟩⟩ := Option.ite_none_right_eq_some.1 hst
    have htally := tally_update (loopLeft ntries) (fun j => (s.tmp j, s.ind j)) i
      (some s.count, s.ind i)
    rw [← update_loop, Function.update_eq_self, htmp, loopLeft, loopLeft] at htally
    change tally (loopLeft ntries) (fun j => (Function.update s.tmp i _ j, s.ind j)) <
      left ntries s + 0
    unfold left
    omega
  | add i =>
    obtain ⟨htmp, ⟨⟩⟩ := Option.ite_none_right_eq_some.1 hst
    have hlt := (inv_of_reachable hs).lt i htmp
    obtain ⟨tmp, htmp⟩ := Option.ne_none_iff_exists'.1 htmp
    have htally := tally_update (loopLeft ntries) (fun j => (s.tmp j, s.ind j)) i
      (none, s.ind i + 1)
    rw [← update_loop, htmp, loopLeft, loopLeft] at htally
    change tally (loopLeft ntries)
      (fun j => (Function.update s.tmp i none j, Function.update s.ind i _ j)) < left ntries s + 0
    unfold left
    omega

/-- All threads have returned. -/
def Finished (ntries : ℕ) (s : Atomic ι) : Prop := ∀ i, s.tmp i = none ∧ s.ind i = ntries

/-- A thread that has not returned has a step to take. -/
theorem enabled (hs : (system inc ntries).Reachable s) {i : ι}
    (hi : ¬ (s.tmp i = none ∧ s.ind i = ntries)) :
    ∃ t, (system inc ntries).step s (.load i) = some t ∨
      (system inc ntries).step s (.add i) = some t := by
  have hle := (inv_of_reachable hs).le i
  by_cases htmp : s.tmp i = none
  · have hlt : s.ind i < ntries := Nat.lt_of_le_of_ne hle fun heq => hi ⟨htmp, heq⟩
    exact ⟨_, .inl (if_pos ⟨htmp, hlt⟩)⟩
  · exact ⟨_, .inr (if_pos htmp)⟩

end Atomic

/-! ## The end -/

section Ends

variable [Fintype ι] {inc : ι → CInt} {ntries : ℕ}

/-- What the count is when all threads have made their additions. -/
theorem sum_of_finished {order : List ι} (h : ∀ i, order.count i = ntries) :
    sum inc order = ∑ i, (ntries : ℤ) * (inc i).toInt := by
  rw [sum_eq]
  exact Finset.sum_congr rfl fun i _ => by rw [h i]

theorem length_of_finished {order : List ι} (h : ∀ i, order.count i = ntries) :
    order.length = ntries * Fintype.card ι := by
  have hsum := Multiset.sum_count_eq_card (s := Finset.univ) (m := (order : Multiset ι))
    fun i _ => Finset.mem_univ i
  rw [Finset.sum_const_nat fun i _ => (Multiset.coe_count i order).trans (h i)] at hsum
  exact hsum.symm.trans (Nat.mul_comm _ _)

omit [Fintype ι] in
theorem Mutexed.Inv.count_of_finished {s : Mutexed ι} (h : s.Inv inc ntries)
    (hfinished : s.Finished ntries) (i : ι) : s.order.count i = ntries := by
  obtain ⟨hfree, hind⟩ := hfinished
  have hmade := h.made i
  rw [hfree] at hmade
  exact hmade.trans (hind i)

theorem Mutexed.Inv.length_of_finished {s : Mutexed ι} (h : s.Inv inc ntries)
    (hfinished : s.Finished ntries) : s.values.length = ntries * Fintype.card ι := by
  have hlen := h.length
  rw [hfinished.1] at hlen
  exact hlen.trans (Counter.length_of_finished (h.count_of_finished hfinished))

/-- **The additions under the mutex.** In every state the count is the sum of the additions made,
each thread has made as many as it has iterations behind it, and the values recorded are the sums
before each of them. No run has more than four steps for each iteration; in every state that is not
the end somebody has a step to take, and in the end nothing is lost. -/
theorem mutexed_serial (inc : ι → CInt) (ntries : ℕ) :
    (∀ es s, (Mutexed.system inc ntries).run .start es = some s →
      es.length ≤ 4 * ntries * Fintype.card ι) ∧
    ∀ s, (Mutexed.system inc ntries).Reachable s →
      s.Inv inc ntries ∧
      (s.Finished ntries ∨ ∃ e t, (Mutexed.system inc ntries).step s e = some t) ∧
      (s.Finished ntries → s.count = BitVec.ofInt 32 (∑ i, (ntries : ℤ) * (inc i).toInt) ∧
        s.values.length = ntries * Fintype.card ι) := by
  refine ⟨fun es s hrun => ?_, fun s hs => ⟨?_, ?_, ?_⟩⟩
  · have hlen := System.Costs.length_le (Mutexed.costs inc ntries) System.Reachable.init hrun
    have hstart : Mutexed.left ntries (.start : Mutexed ι) = 4 * ntries * Fintype.card ι := by
      simp [Mutexed.left, Mutexed.start, Mutexed.progress, tally, Nat.mul_comm]
    change es.length + _ ≤ Mutexed.left ntries .start + 0 * _ at hlen
    omega
  · exact Mutexed.inv_of_reachable hs
  · by_cases hstuck : (Mutexed.system inc ntries).Stuck (fun _ => false) s
    · exact .inl (Mutexed.finished_of_stuck hs hstuck)
    · unfold System.Stuck at hstuck
      push Not at hstuck
      obtain ⟨e, t, hst, -⟩ := hstuck
      exact .inr ⟨e, t, hst⟩
  · intro hfinished
    have h := Mutexed.inv_of_reachable hs
    exact ⟨by rw [h.count, sum_of_finished (h.count_of_finished hfinished)],
      h.length_of_finished hfinished⟩

/-- **The additions of `test_atomic`.** The same without a mutex, with two steps for each iteration;
no thread ever waits for another one. -/
theorem atomic_serial (inc : ι → CInt) (ntries : ℕ) :
    (∀ es s, (Atomic.system inc ntries).run .start es = some s →
      es.length ≤ 2 * ntries * Fintype.card ι) ∧
    ∀ s, (Atomic.system inc ntries).Reachable s →
      s.Inv inc ntries ∧
      (∀ i, s.tmp i = none ∧ s.ind i = ntries ∨
        ∃ t, (Atomic.system inc ntries).step s (.load i) = some t ∨
          (Atomic.system inc ntries).step s (.add i) = some t) ∧
      (s.Finished ntries → s.count = BitVec.ofInt 32 (∑ i, (ntries : ℤ) * (inc i).toInt)) := by
  refine ⟨fun es s hrun => ?_, fun s hs => ⟨?_, fun i => ?_, fun hfinished => ?_⟩⟩
  · have hlen := System.Costs.length_le (Atomic.costs inc ntries) System.Reachable.init hrun
    have hstart : Atomic.left ntries (.start : Atomic ι) = 2 * ntries * Fintype.card ι := by
      simp [Atomic.left, Atomic.start, Atomic.loopLeft, tally, Nat.mul_comm]
    change es.length + _ ≤ Atomic.left ntries .start + 0 * _ at hlen
    omega
  · exact Atomic.inv_of_reachable hs
  · by_cases hi : s.tmp i = none ∧ s.ind i = ntries
    · exact .inl hi
    · exact .inr (Atomic.enabled hs hi)
  · have h := Atomic.inv_of_reachable hs
    rw [h.count, sum_of_finished fun i => (h.made i).trans (hfinished i).2]

end Ends

/-! ## `main` -/

inductive Thread where
  | t1
  | t2
  deriving DecidableEq, Repr

instance : Fintype Thread := ⟨{.t1, .t2}, fun i => by cases i <;> simp⟩

/-- One thread counts up, the other one down. -/
def mainInc : Thread → CInt
  | .t1 => 1
  | .t2 => -1

theorem sum_mainInc (order : List Thread) :
    sum mainInc order = order.count .t1 - order.count .t2 := by
  rw [sum_eq]
  change ∑ i ∈ {Thread.t1, Thread.t2}, _ = _
  rw [Finset.sum_pair (by decide)]
  change (order.count .t1 : ℤ) * 1 + (order.count .t2 : ℤ) * -1 = _
  ring

/-- What `n` additions up and `n` additions down can come to. -/
def InRange (n : ℕ) (c : CInt) : Prop := -(n : ℤ) ≤ c.toInt ∧ c.toInt ≤ n

section Main

variable {ntries : {n : ℕ // n < 2 ^ 31}} {order : List Thread}

theorem toInt_sum (h : ∀ i, order.count i ≤ ntries) :
    (BitVec.ofInt 32 (sum mainInc order)).toInt = sum mainInc order := by
  have hup := h .t1
  have hdown := h .t2
  have hlt := ntries.2
  rw [sum_mainInc]
  exact BitVec.toInt_ofInt_eq_self (by decide) (by omega) (by omega)

theorem inRange_sum (h : ∀ i, order.count i ≤ ntries) :
    InRange ntries (BitVec.ofInt 32 (sum mainInc order)) := by
  have hup := h .t1
  have hdown := h .t2
  unfold InRange
  rw [toInt_sum h, sum_mainInc]
  omega

/-- The sums before the additions are in range, too. -/
theorem inRange_take (h : ∀ i, order.count i ≤ ntries) (k : ℕ) :
    InRange ntries (BitVec.ofInt 32 (sum mainInc (order.take k))) :=
  inRange_sum fun i => ((List.take_sublist k order).count_le i).trans (h i)

/-- One more addition does not overflow. -/
theorem toInt_add (h : ∀ i, order.count i ≤ ntries) {i : Thread} (hi : order.count i < ntries) :
    (BitVec.ofInt 32 (sum mainInc order) + mainInc i).toInt =
      (BitVec.ofInt 32 (sum mainInc order)).toInt + (mainInc i).toInt := by
  have hnext : ∀ j, (order ++ [i]).count j ≤ ntries := by
    intro j
    have hj := h j
    rw [List.count_append, List.count_singleton]
    by_cases hij : i = j
    · subst hij
      simpa using Nat.succ_le_of_lt hi
    · simpa [hij] using hj
  rw [← ofInt_sum_concat, toInt_sum hnext, toInt_sum h, sum_concat]

/-- What `main` counts: the count and the values recorded stay in range, no addition overflows, and
in the end the count is zero. -/
theorem main_in_range (ntries : {n : ℕ // n < 2 ^ 31}) :
    (∀ s, (Mutexed.system mainInc ntries).Reachable s →
      InRange ntries s.count ∧ (∀ v ∈ s.values, InRange ntries v) ∧
      (∀ i t, (Mutexed.system mainInc ntries).step s (.add i) = some t →
        t.count.toInt = s.count.toInt + (mainInc i).toInt) ∧
      (s.Finished ntries → s.count = 0 ∧ (0 < ntries.1 → 0 ∈ s.values))) ∧
    ∀ s, (Atomic.system mainInc ntries).Reachable s →
      InRange ntries s.count ∧
      (∀ i t, (Atomic.system mainInc ntries).step s (.add i) = some t →
        t.count.toInt = s.count.toInt + (mainInc i).toInt) ∧
      (s.Finished ntries → s.count = 0) := by
  refine ⟨fun s hs => ?_, fun s hs => ?_⟩
  · have h := Mutexed.inv_of_reachable hs
    have hle := count_le_of_adders ((Mutexed.refinement mainInc ntries).reachable hs)
    refine ⟨?_, fun v hv => ?_, fun i t hst => ?_, fun hfinished => ?_⟩
    · rw [h.count]
      exact inRange_sum hle
    · rw [h.values] at hv
      obtain ⟨k, -, rfl⟩ := List.mem_map.1 hv
      exact inRange_take hle k
    · have hnext := (Mutexed.refinement mainInc ntries).visible hs hst rfl
      obtain ⟨hlt, -⟩ := Option.ite_none_right_eq_some.1 hnext
      obtain ⟨-, ⟨⟩⟩ := Option.ite_none_right_eq_some.1 hst
      rw [h.count]
      exact toInt_add hle hlt
    · have hcount := h.count_of_finished hfinished
      refine ⟨?_, fun hpos => ?_⟩
      · rw [h.count, sum_mainInc, hcount, hcount, sub_self]
        rfl
      · have hlen : s.values.length = ntries * Fintype.card Thread :=
          h.length_of_finished hfinished
        rw [h.values]
        exact List.mem_map.2 ⟨0, List.mem_range.2 (hlen ▸ Nat.mul_pos hpos (by decide)), rfl⟩
  · have h := Atomic.inv_of_reachable hs
    have hle := count_le_of_adders ((Atomic.refinement mainInc ntries).reachable hs)
    refine ⟨?_, fun i t hst => ?_, fun hfinished => ?_⟩
    · rw [h.count]
      exact inRange_sum hle
    · have hnext := (Atomic.refinement mainInc ntries).visible hs hst rfl
      obtain ⟨hlt, -⟩ := Option.ite_none_right_eq_some.1 hnext
      obtain ⟨-, ⟨⟩⟩ := Option.ite_none_right_eq_some.1 hst
      rw [h.count]
      exact toInt_add hle hlt
    · have hcount : ∀ i, s.order.count i = ntries := fun i => (h.made i).trans (hfinished i).2
      rw [h.count, sum_mainInc, hcount, hcount, sub_self]
      rfl

end Main

end ThreadTests.Counter
