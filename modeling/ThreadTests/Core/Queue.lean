import ThreadTests.Core.System
import Mathlib.Data.List.Basic
import Mathlib.Tactic.Common

/-!
# The bounded first-in first-out queue

What a bounded queue is for, without threads, slots or counters: values are accepted while fewer
than `cap` wait, and delivered in the order of acceptance. In every reachable state the delivered
values are a prefix of the accepted ones (`Queue.delivered_prefix`) and at most `cap` wait
(`Queue.waiting_le`). `Holds` is the other half of a queue over slots: which values a range of
indices holds, and how a write to the next free index extends it.
-/

namespace ThreadTests

universe u

/-- The values accepted and delivered so far, and those in between. -/
structure Queue (α : Type u) where
  accepted : List α
  delivered : List α
  waiting : List α

namespace Queue

variable {α : Type u} {cap : ℕ}

inductive Event (α : Type u) where
  | enq (x : α)
  | deq

/-- A value is accepted while fewer than `cap` wait. -/
def enq (cap : ℕ) (x : α) (q : Queue α) : Option (Queue α) :=
  if q.waiting.length < cap then
    some { q with accepted := q.accepted ++ [x], waiting := q.waiting ++ [x] }
  else none

/-- The value that has waited longest is delivered. -/
def deq (q : Queue α) : Option (Queue α) :=
  match q.waiting with
  | [] => none
  | x :: xs => some { q with delivered := q.delivered ++ [x], waiting := xs }

/-- The bounded queue as a transition system, empty at the start. -/
def system (α : Type u) (cap : ℕ) : System (Queue α) (Event α) where
  init := ⟨[], [], []⟩
  step q
    | .enq x => q.enq cap x
    | .deq => q.deq

theorem enq_eq_some {x : α} {q q' : Queue α} :
    q.enq cap x = some q' ↔ q.waiting.length < cap ∧
      q' = { q with accepted := q.accepted ++ [x], waiting := q.waiting ++ [x] } := by
  unfold enq
  rw [Option.ite_none_right_eq_some, Option.some.injEq, eq_comm (a := q')]

theorem deq_eq_some {q q' : Queue α} :
    q.deq = some q' ↔ ∃ x xs, q.waiting = x :: xs ∧
      q' = { q with delivered := q.delivered ++ [x], waiting := xs } := by
  unfold deq
  cases q.waiting with
  | nil => simp
  | cons x xs => simp [eq_comm]

/-- Nothing is lost, duplicated or reordered, and the bound is kept. -/
structure Inv (cap : ℕ) (q : Queue α) : Prop where
  split : q.accepted = q.delivered ++ q.waiting
  bound : q.waiting.length ≤ cap

theorem Inv.enq {x : α} {q q' : Queue α} (h : Inv cap q) (hq : q.enq cap x = some q') :
    Inv cap q' := by
  obtain ⟨hlt, rfl⟩ := enq_eq_some.1 hq
  refine ⟨?_, ?_⟩
  · simp [h.split]
  · simpa using Nat.succ_le_of_lt hlt

theorem Inv.deq {q q' : Queue α} (h : Inv cap q) (hq : q.deq = some q') : Inv cap q' := by
  obtain ⟨x, xs, hx, rfl⟩ := deq_eq_some.1 hq
  have hbound := h.bound
  refine ⟨?_, ?_⟩
  · simp [h.split, hx]
  · simp only [hx, List.length_cons] at hbound
    simpa using Nat.le_of_succ_le hbound

theorem inv_of_reachable {q : Queue α} (h : (system α cap).Reachable q) : Inv cap q := by
  refine System.invariant (P := Inv cap) ⟨rfl, Nat.zero_le _⟩ (fun {s t e} _ hs hst => ?_) h
  cases e with
  | enq x => exact hs.enq hst
  | deq => exact hs.deq hst

/-- **First in, first out**: the delivered values are a prefix of the accepted ones. -/
theorem delivered_prefix {q : Queue α} (h : (system α cap).Reachable q) :
    q.delivered <+: q.accepted :=
  ⟨q.waiting, (inv_of_reachable h).split.symm⟩

theorem waiting_le {q : Queue α} (h : (system α cap).Reachable q) : q.waiting.length ≤ cap :=
  (inv_of_reachable h).bound

end Queue

/-! ## Indices that hold a list -/

section Holds

variable {α : Type u} {read read' : ℕ → α} {m : ℕ} {q : List α} {x : α}

/-- Reading the indices from `m` on gives the values `q`. -/
def Holds (read : ℕ → α) (m : ℕ) (q : List α) : Prop :=
  ∀ i x, q[i]? = some x → read (m + i) = x

theorem Holds.nil : Holds read m [] := by
  intro i x hx
  simp at hx

/-- The list depends only on the indices it occupies. -/
theorem Holds.congr (h : Holds read m q)
    (heq : ∀ i, m ≤ i → i < m + q.length → read' i = read i) : Holds read' m q := by
  intro i y hy
  have hi : i < q.length := (List.getElem?_eq_some_iff.1 hy).1
  rw [heq (m + i) (Nat.le_add_right m i) (by omega)]
  exact h i y hy

/-- The value at the next index joins the list. -/
theorem Holds.snoc (h : Holds read m q) (hx : read (m + q.length) = x) :
    Holds read m (q ++ [x]) := by
  intro i y hy
  rcases Nat.lt_trichotomy i q.length with hi | rfl | hi
  · rw [List.getElem?_append_left hi] at hy
    exact h i y hy
  · rw [List.getElem?_concat_length] at hy
    cases hy
    exact hx
  · rw [List.getElem?_eq_none (by simp; omega)] at hy
    cases hy

theorem Holds.head (h : Holds read m (x :: q)) : read m = x := h 0 x rfl

theorem Holds.tail (h : Holds read m (x :: q)) : Holds read (m + 1) q := by
  intro i y hy
  rw [Nat.add_assoc, Nat.add_comm 1 i]
  exact h (i + 1) y hy

end Holds

end ThreadTests
