import ThreadTests.Core.Fair
import ThreadTests.Core.Tally
import Mathlib.Tactic.Common

/-!
# Threads that make given calls

A `scripted` system is one whose threads begin only the calls of their scripts, in order, and stop
after the last one. What the threads do to a shared object takes effect in some order, which is an
interleaving of their scripts (`Interleaves`).

Two systems are in `Lockstep` when a map of the states of one to those of the other keeps and
reflects every event. They have the same runs then, with scripts as well as without
(`Lockstep.run_eq`, `Lockstep.scripted`).
-/

namespace ThreadTests

universe u v w x y

/-! ## Interleavings -/

section Interleaves

variable {ι : Type u} {α : Type v} {β : Type w} [DecidableEq ι]

/-- The list is made of the given ones, each in its order. -/
inductive Interleaves : (ι → List α) → List α → Prop
  | nil : Interleaves (fun _ => []) []
  | snoc {f l} (i x) (h : Interleaves f l) :
    Interleaves (Function.update f i (f i ++ [x])) (l ++ [x])

namespace Interleaves

variable {f g : ι → List α} {l : List α}

/-- When all but one of the lists are empty, the interleaving is that one. -/
theorem eq_of_single (h : Interleaves f l) {i : ι} (hempty : ∀ j, j ≠ i → f j = []) :
    l = f i := by
  induction h with
  | nil => rfl
  | @snoc f l j x _ ih =>
    have hj : j = i := by
      by_contra hne
      have hnil := hempty j hne
      rw [Function.update_self] at hnil
      exact List.append_ne_nil_of_right_ne_nil (f j) (List.cons_ne_nil x []) hnil
    subst hj
    rw [Function.update_self, ← ih fun k hk => by
      have hnil := hempty k hk
      rwa [Function.update_of_ne hk] at hnil]

/-- What is picked out of an interleaving is one of what is picked out of the lists. -/
theorem filterMap (p : α → Option β) (h : Interleaves f l) :
    Interleaves (fun i => (f i).filterMap p) (l.filterMap p) := by
  induction h with
  | nil => exact .nil
  | @snoc f l i x _ ih =>
    have hcomp : (fun j => (Function.update f i (f i ++ [x]) j).filterMap p) =
        Function.update (fun j => (f j).filterMap p) i ((f i ++ [x]).filterMap p) :=
      funext fun j => Function.apply_update (fun _ l => l.filterMap p) f i (f i ++ [x]) j
    rw [hcomp, List.filterMap_append, List.filterMap_append]
    cases hp : p x with
    | none =>
      rw [List.filterMap_cons_none hp, List.filterMap_nil, List.append_nil, List.append_nil]
      rwa [Function.update_eq_self_iff.2 rfl]
    | some y =>
      rw [List.filterMap_cons_some hp, List.filterMap_nil]
      exact ih.snoc i y

theorem countP [Fintype ι] (p : α → Bool) (h : Interleaves f l) :
    l.countP p = tally (List.countP p) f := by
  induction h with
  | nil => exact (Finset.sum_eq_zero fun _ _ => rfl).symm
  | @snoc f l i x _ ih =>
    have htally := tally_update (List.countP p) f i (f i ++ [x])
    rw [List.countP_append] at htally ⊢
    omega

end Interleaves

end Interleaves

namespace System

variable {σ : Type u} {ε : Type v} {ι : Type w} {α : Type x} {τ : Type y} {S : System σ ε}
  {T : System τ ε} {call : ε → Option (ι × α)}

/-! ## Scripts -/

/-- A state, and the calls that each thread has still to begin. -/
structure Scripted (σ : Type u) (ι : Type w) (α : Type x) where
  state : σ
  todo : ι → List α

variable [DecidableEq ι] [DecidableEq α]

/-- The threads begin the calls of their scripts, in order; `call e` is the thread that the event
lets begin a call, with the call. -/
def scripted (S : System σ ε) (call : ε → Option (ι × α)) (s₀ : σ) (script : ι → List α) :
    System (Scripted σ ι α) ε where
  init := ⟨s₀, script⟩
  step s e :=
    match call e with
    | none => (S.step s.state e).map fun t => ⟨t, s.todo⟩
    | some (i, op) =>
      match s.todo i with
      | [] => none
      | op' :: rest =>
        if op' = op then
          (S.step s.state e).map fun t => ⟨t, Function.update s.todo i rest⟩
        else none

section Scripted

variable {s₀ : σ} {script : ι → List α} {s t : Scripted σ ι α} {e : ε}

/-- A step that begins no call, or the next call of a script. -/
theorem scripted_cases (h : (S.scripted call s₀ script).step s e = some t) :
    ∃ u, S.step s.state e = some u ∧
      (call e = none ∧ t = ⟨u, s.todo⟩ ∨
        ∃ i op rest, call e = some (i, op) ∧ s.todo i = op :: rest ∧
          t = ⟨u, Function.update s.todo i rest⟩) := by
  simp only [scripted] at h
  split at h
  · obtain ⟨u, hu, rfl⟩ := Option.map_eq_some_iff.1 h
    exact ⟨u, hu, .inl ⟨‹_›, rfl⟩⟩
  · split at h
    · cases h
    · obtain ⟨rfl, hmap⟩ := Option.ite_none_right_eq_some.1 h
      obtain ⟨u, hu, rfl⟩ := Option.map_eq_some_iff.1 hmap
      exact ⟨u, hu, .inr ⟨_, _, _, ‹_›, ‹_›, rfl⟩⟩

theorem scripted_step_of_none {u : σ} (he : call e = none) (hst : S.step s.state e = some u) :
    (S.scripted call s₀ script).step s e = some ⟨u, s.todo⟩ := by
  simp only [scripted, he, hst, Option.map_some]

theorem scripted_step_of_call {u : σ} {i : ι} {op : α} {rest : List α} (he : call e = some (i, op))
    (htodo : s.todo i = op :: rest) (hst : S.step s.state e = some u) :
    (S.scripted call s₀ script).step s e = some ⟨u, Function.update s.todo i rest⟩ := by
  simp only [scripted, he, htodo, hst, Option.map_some, if_true]

/-- The scripts choose among the runs of the system. -/
theorem Reaches.of_scripted (h : (S.scripted call s₀ script).Reaches s t) :
    S.Reaches s.state t.state := by
  induction h with
  | refl => exact Reaches.refl s.state
  | tail _ hm ih =>
    obtain ⟨e, he⟩ := hm
    obtain ⟨u, hu, ⟨-, rfl⟩ | ⟨_, _, _, -, -, rfl⟩⟩ := scripted_cases he
    · exact ih.tail hu
    · exact ih.tail hu

theorem Reachable.of_scripted (h : (S.scripted call s₀ script).Reachable s)
    (hs₀ : S.Reachable s₀) : S.Reachable s.state :=
  hs₀.trans (Reaches.of_scripted h)

end Scripted

/-! ## Lockstep -/

/-- The same events lead to the same states, up to a map. -/
structure Lockstep (S : System σ ε) (T : System τ ε) where
  abs : σ → τ
  init : abs S.init = T.init
  step : ∀ {s}, S.Reachable s → ∀ e, T.step (abs s) e = (S.step s e).map abs

namespace Lockstep

omit [DecidableEq ι] [DecidableEq α] in
/-- The same sequences of events are runs. -/
theorem run_eq (R : Lockstep S T) {s : σ} (hs : S.Reachable s) (es : List ε) :
    T.run (R.abs s) es = (S.run s es).map R.abs := by
  induction es generalizing s with
  | nil => rfl
  | cons e es ih =>
    rw [run_cons, run_cons, R.step hs e]
    cases hst : S.step s e with
    | none => rfl
    | some t => exact ih (hs.step hst)

omit [DecidableEq ι] [DecidableEq α] in
theorem run_init_eq (R : Lockstep S T) (es : List ε) :
    T.run T.init es = (S.run S.init es).map R.abs :=
  R.init ▸ R.run_eq Reachable.init es

omit [DecidableEq ι] [DecidableEq α] in
theorem reaches (R : Lockstep S T) {s t : σ} (hs : S.Reachable s) (h : S.Reaches s t) :
    T.Reaches (R.abs s) (R.abs t) := by
  obtain ⟨es, hes⟩ := h.exists_run
  have hrun := R.run_eq hs es
  rw [hes] at hrun
  exact reaches_of_run hrun

omit [DecidableEq ι] [DecidableEq α] in
/-- What the image of a state leads to is an image. -/
theorem exists_reaches (R : Lockstep S T) {s : σ} {t : τ} (hs : S.Reachable s)
    (h : T.Reaches (R.abs s) t) : ∃ u, S.Reaches s u ∧ R.abs u = t := by
  obtain ⟨es, hes⟩ := h.exists_run
  rw [R.run_eq hs] at hes
  obtain ⟨u, hu, rfl⟩ := Option.map_eq_some_iff.1 hes
  exact ⟨u, reaches_of_run hu, rfl⟩

omit [DecidableEq ι] [DecidableEq α] in
theorem reachable_iff (R : Lockstep S T) {t : τ} :
    T.Reachable t ↔ ∃ s, S.Reachable s ∧ R.abs s = t := by
  constructor
  · intro ht
    exact R.exists_reaches Reachable.init (R.init.symm ▸ ht)
  · rintro ⟨s, hs, rfl⟩
    have hreaches := R.reaches Reachable.init hs
    rwa [R.init] at hreaches

omit [DecidableEq ι] [DecidableEq α] in
theorem stuck_iff (R : Lockstep S T) {s : σ} (hs : S.Reachable s) {free : ε → Bool} :
    T.Stuck free (R.abs s) ↔ S.Stuck free s := by
  constructor
  · intro h e t hst
    refine h e (R.abs t) ?_
    rw [R.step hs e, hst, Option.map_some]
  · intro h e t hst
    rw [R.step hs e] at hst
    obtain ⟨u, hu, -⟩ := Option.map_eq_some_iff.1 hst
    exact h e u hu

/-- Scripts are followed in lockstep, too. -/
def scripted (R : Lockstep S T) (call : ε → Option (ι × α)) {s₀ : σ} (hs₀ : S.Reachable s₀)
    (script : ι → List α) :
    Lockstep (S.scripted call s₀ script) (T.scripted call (R.abs s₀) script) where
  abs s := ⟨R.abs s.state, s.todo⟩
  init := rfl
  step {s} hs e := by
    simp only [System.scripted, R.step (hs.of_scripted hs₀) e]
    split
    · rw [Option.map_map, Option.map_map]
      rfl
    · split
      · rfl
      · split
        · rw [Option.map_map, Option.map_map]
          rfl
        · rfl

end Lockstep

end System

end ThreadTests
