import Mathlib.Logic.Relation

/-!
# Transition systems

A program under a scheduler is a partial step function: `step s e` is the state after the event
`e`, and `none` when `e` is not enabled in `s`. The states that some sequence of events leads to
are the `Reachable` ones; `invariant` is the induction over them. A `Simulation` maps the states
and the events of one system to another one, where an event may be invisible: reachable states
go to reachable states (`Simulation.reachable`), and the trace of visible events of a run is a
run below (`Simulation.run_trace`).
-/

namespace ThreadTests

universe u v w x

/-- A transition system: an initial state and a partial step for each event. -/
structure System (σ : Type u) (ε : Type v) where
  init : σ
  step : σ → ε → Option σ

namespace System

variable {σ : Type u} {ε : Type v} {S : System σ ε}

/-- Some event leads from `s` to `t`. -/
def Move (S : System σ ε) (s t : σ) : Prop := ∃ e, S.step s e = some t

/-- A sequence of events leads from `s` to `t`. -/
def Reaches (S : System σ ε) : σ → σ → Prop := Relation.ReflTransGen S.Move

/-- A sequence of events leads from the initial state to `s`. -/
def Reachable (S : System σ ε) (s : σ) : Prop := S.Reaches S.init s

/-- The state after a sequence of events, if each is enabled in its turn. -/
def run (S : System σ ε) : σ → List ε → Option σ
  | s, [] => some s
  | s, e :: es => (S.step s e).bind fun t => S.run t es

theorem Reaches.refl (s : σ) : S.Reaches s s := Relation.ReflTransGen.refl

theorem Reaches.trans {s t u : σ} (h : S.Reaches s t) (h' : S.Reaches t u) : S.Reaches s u :=
  Relation.ReflTransGen.trans h h'

theorem Reaches.head {s t u : σ} {e : ε} (h : S.step s e = some t) (h' : S.Reaches t u) :
    S.Reaches s u :=
  Relation.ReflTransGen.head ⟨e, h⟩ h'

theorem Reaches.tail {s t u : σ} {e : ε} (h : S.Reaches s t) (h' : S.step t e = some u) :
    S.Reaches s u :=
  Relation.ReflTransGen.tail h ⟨e, h'⟩

theorem Reachable.init : S.Reachable S.init := Reaches.refl _

theorem Reachable.step {s t : σ} {e : ε} (h : S.Reachable s) (h' : S.step s e = some t) :
    S.Reachable t :=
  Reaches.tail h h'

theorem Reachable.trans {s t : σ} (h : S.Reachable s) (h' : S.Reaches s t) : S.Reachable t :=
  Reaches.trans h h'

/-- What holds at `s` and is kept by every step from a state reached holds wherever `s` leads. -/
theorem Reaches.preserves {P : σ → Prop} {s t : σ} (h : S.Reaches s t) (h0 : P s)
    (hstep : ∀ {a b e}, S.Reaches s a → P a → S.step a e = some b → P b) : P t := by
  induction h with
  | refl => exact h0
  | tail hst hm ih =>
    obtain ⟨e, he⟩ := hm
    exact hstep hst ih he

/-- **Invariants.** What holds initially and is kept by every step from a reachable state holds in
every reachable state. -/
theorem invariant {P : σ → Prop} (h0 : P S.init)
    (hstep : ∀ {s t e}, S.Reachable s → P s → S.step s e = some t → P t) {s : σ}
    (h : S.Reachable s) : P s :=
  Reaches.preserves h h0 hstep

@[simp] theorem run_nil (s : σ) : S.run s [] = some s := rfl

@[simp] theorem run_cons (s : σ) (e : ε) (es : List ε) :
    S.run s (e :: es) = (S.step s e).bind fun t => S.run t es := rfl

theorem run_append (s : σ) (es fs : List ε) :
    S.run s (es ++ fs) = (S.run s es).bind fun t => S.run t fs := by
  induction es generalizing s with
  | nil => rfl
  | cons e es ih =>
    simp only [List.cons_append, run_cons, Option.bind_assoc]
    congr 1
    funext t
    exact ih t

theorem reaches_of_run {s t : σ} {es : List ε} (h : S.run s es = some t) : S.Reaches s t := by
  induction es generalizing s with
  | nil =>
    cases h
    exact Reaches.refl _
  | cons e es ih =>
    obtain ⟨u, hu, ht⟩ := Option.bind_eq_some_iff.1 h
    exact Reaches.head hu (ih ht)

theorem reachable_of_run {t : σ} {es : List ε} (h : S.run S.init es = some t) : S.Reachable t :=
  reaches_of_run h

/-- A replay that ends in a state with a decidable property shows that such a state is reachable. -/
theorem exists_reachable {p : σ → Prop} [DecidablePred p] (es : List ε)
    (h : (S.run S.init es).any (fun s => decide (p s)) = true) : ∃ s, S.Reachable s ∧ p s := by
  cases hrun : S.run S.init es with
  | none => simp [hrun] at h
  | some s =>
    rw [hrun] at h
    exact ⟨s, reachable_of_run hrun, by simpa using h⟩

theorem Reaches.exists_run {s t : σ} (h : S.Reaches s t) : ∃ es, S.run s es = some t := by
  induction h with
  | refl => exact ⟨[], rfl⟩
  | tail _ hm ih =>
    obtain ⟨es, hes⟩ := ih
    obtain ⟨e, he⟩ := hm
    exact ⟨es ++ [e], by rw [run_append, hes]; simp [he]⟩

/-! ## Restriction to the steps that meet a condition -/

/-- The runs of `S` all of whose steps meet `G`. -/
def restrict (S : System σ ε) (G : σ → ε → Prop) [∀ s e, Decidable (G s e)] : System σ ε where
  init := S.init
  step s e := if G s e then S.step s e else none

section Restrict

variable {G : σ → ε → Prop} [∀ s e, Decidable (G s e)]

theorem restrict_step {s t : σ} {e : ε} :
    (S.restrict G).step s e = some t ↔ G s e ∧ S.step s e = some t := by
  simp [restrict]

theorem Reaches.of_restrict {s t : σ} (h : (S.restrict G).Reaches s t) : S.Reaches s t := by
  refine Relation.ReflTransGen.mono (fun a b hab => ?_) _ _ h
  obtain ⟨e, he⟩ := hab
  exact ⟨e, (restrict_step.1 he).2⟩

theorem Reachable.of_restrict {s : σ} (h : (S.restrict G).Reachable s) : S.Reachable s :=
  Reaches.of_restrict h

/-- A condition that every step from a restricted run meets is no restriction. -/
theorem Reachable.restrict {s : σ} (h : S.Reachable s)
    (hG : ∀ {s t e}, (S.restrict G).Reachable s → S.step s e = some t → G s e) :
    (S.restrict G).Reachable s :=
  invariant (S := S) (P := (S.restrict G).Reachable) Reachable.init
    (fun _ hs hst => hs.step (restrict_step.2 ⟨hG hs hst, hst⟩)) h

end Restrict

/-! ## Simulation -/

variable {τ : Type w} {δ : Type x} {T : System τ δ}

/-- A map of the states of `S` to those of `T` under which every step of `S` from a reachable
state is one step of `T`, or none. -/
structure Simulation (S : System σ ε) (T : System τ δ) where
  abs : σ → τ
  /-- The event of `T` that an event of `S` stands for, `none` when it is invisible there. -/
  label : σ → ε → Option δ
  init : abs S.init = T.init
  silent : ∀ {s t e}, S.Reachable s → S.step s e = some t → label s e = none → abs t = abs s
  visible : ∀ {s t e d}, S.Reachable s → S.step s e = some t → label s e = some d →
    T.step (abs s) d = some (abs t)

namespace Simulation

/-- The visible events of a run, in order. -/
def trace (R : Simulation S T) : σ → List ε → List δ
  | _, [] => []
  | s, e :: es => (R.label s e).toList ++ ((S.step s e).elim [] fun t => R.trace t es)

/-- The trace of a run from a reachable state is a run of the simulating system. -/
theorem run_trace (R : Simulation S T) {s t : σ} {es : List ε} (hs : S.Reachable s)
    (h : S.run s es = some t) : T.run (R.abs s) (R.trace s es) = some (R.abs t) := by
  induction es generalizing s with
  | nil =>
    cases h
    rfl
  | cons e es ih =>
    obtain ⟨u, hu, ht⟩ := Option.bind_eq_some_iff.1 h
    have hrest := ih (hs.step hu) ht
    cases hl : R.label s e with
    | none => simpa [trace, hl, hu, R.silent hs hu hl] using hrest
    | some d => simpa [trace, hl, hu, R.visible hs hu hl] using hrest

theorem reachable (R : Simulation S T) {s : σ} (h : S.Reachable s) : T.Reachable (R.abs s) := by
  obtain ⟨es, hes⟩ := Reaches.exists_run h
  have hrun := R.run_trace Reachable.init hes
  rw [R.init] at hrun
  exact reachable_of_run hrun

end Simulation

end System

end ThreadTests
