import ThreadTests.Core.System
import Mathlib.Tactic.Common

/-!
# What happens in the end

An `Execution` is an infinite run, in which nothing may happen for a while. It is `Fair` to the
owners of the events when each of them takes a step now and then, or has none to take. A fair
execution gets where it should when in every state before somebody can bring it closer, whatever the
others do in the meantime (`Helps`, `Execution.eventually`).

Without fairness, a system ends when each event costs something, but for some that are free: a run
is no longer than what its start is worth and what the free events on the way have given back
(`Costs.length_le`), and it can be continued until only free events are left (`Costs.exists_stuck`).
-/

namespace ThreadTests.System

universe u v w

variable {σ : Type u} {ε : Type v} {ι : Type w} {S : System σ ε} {owner : ε → ι}

/-! ## Fairness -/

/-- An infinite run; without an event the state stays as it is. -/
structure Execution (S : System σ ε) where
  state : ℕ → σ
  event : ℕ → Option ε
  start : state 0 = S.init
  step : ∀ n e, event n = some e → S.step (state n) e = some (state (n + 1))
  stutter : ∀ n, event n = none → state (n + 1) = state n

/-- The owner has a step to take. -/
def Enabled (S : System σ ε) (owner : ε → ι) (i : ι) (s : σ) : Prop :=
  ∃ e t, owner e = i ∧ S.step s e = some t

/-- Again and again each owner takes a step, or has none to take. -/
def Execution.Fair (x : S.Execution) (owner : ε → ι) : Prop :=
  ∀ i n, ∃ m, n ≤ m ∧
    ((∃ e, x.event m = some e ∧ owner e = i) ∨ ¬ S.Enabled owner i (x.state m))

/-- Until `P` holds, the helper of a state has a step to take, and takes it closer to `P`; nobody
takes it further away, and the helper stays the same meanwhile. -/
structure Helps (S : System σ ε) (owner : ε → ι) (P : σ → Prop) (rank : σ → ℕ) (helper : σ → ι) :
    Prop where
  enabled : ∀ {s}, S.Reachable s → ¬ P s → S.Enabled owner (helper s) s
  step : ∀ {s t e}, S.Reachable s → ¬ P s → S.step s e = some t →
    rank t < rank s ∨ rank t = rank s ∧ helper t = helper s ∧ owner e ≠ helper s

namespace Execution

variable {x : S.Execution} {P : σ → Prop} {rank : σ → ℕ} {helper : σ → ι}

theorem reaches (x : S.Execution) {n m : ℕ} (hnm : n ≤ m) :
    S.Reaches (x.state n) (x.state m) := by
  induction hnm with
  | refl => exact Reaches.refl _
  | @step m _ ih =>
    cases he : x.event m with
    | none =>
      rw [x.stutter m he]
      exact ih
    | some e => exact ih.tail (x.step m e he)

theorem reachable (x : S.Execution) (n : ℕ) : S.Reachable (x.state n) := by
  have h := x.reaches (Nat.zero_le n)
  rwa [x.start] at h

/-- What every step keeps holds from then on. -/
theorem stable (x : S.Execution)
    (hP : ∀ {s t e}, S.Reachable s → P s → S.step s e = some t → P t) {n m : ℕ} (hn : P (x.state n))
    (hnm : n ≤ m) : P (x.state m) :=
  (x.reaches hnm).preserves hn fun hst => hP ((x.reachable n).trans hst)

/-- Until `P` holds, an execution comes closer to it or keeps its helper. -/
theorem closer_or_stays (h : Helps S owner P rank helper) (hP : ∀ n, ¬ P (x.state n)) {n m : ℕ}
    (hnm : n ≤ m) : (∃ k, rank (x.state k) < rank (x.state n)) ∨
      rank (x.state m) = rank (x.state n) ∧ helper (x.state m) = helper (x.state n) := by
  induction hnm with
  | refl => exact .inr ⟨rfl, rfl⟩
  | @step m _ ih =>
    rcases ih with hcloser | ⟨hrank, hhelper⟩
    · exact .inl hcloser
    · cases he : x.event m with
      | none =>
        rw [x.stutter m he]
        exact .inr ⟨hrank, hhelper⟩
      | some e =>
        rcases h.step (x.reachable m) (hP m) (x.step m e he) with hlt | ⟨heq, hsame, -⟩
        · exact .inl ⟨m + 1, hrank ▸ hlt⟩
        · exact .inr ⟨heq.trans hrank, hsame.trans hhelper⟩

/-- The helper's next step brings a fair execution closer. -/
theorem exists_closer (h : Helps S owner P rank helper) (hx : x.Fair owner)
    (hP : ∀ n, ¬ P (x.state n)) (n : ℕ) : ∃ k, rank (x.state k) < rank (x.state n) := by
  obtain ⟨m, hnm, hm⟩ := hx (helper (x.state n)) n
  rcases closer_or_stays h hP hnm with hcloser | ⟨hrank, hhelper⟩
  · exact hcloser
  · rw [← hhelper] at hm
    rcases hm with ⟨e, he, howner⟩ | hdisabled
    · rcases h.step (x.reachable m) (hP m) (x.step m e he) with hlt | ⟨-, -, hne⟩
      · exact ⟨m + 1, hrank ▸ hlt⟩
      · exact absurd howner hne
    · exact absurd (h.enabled (x.reachable m) (hP m)) hdisabled

/-- **A fair execution that somebody can always help gets there.** -/
theorem eventually (h : Helps S owner P rank helper) (hx : x.Fair owner) :
    ∃ n, P (x.state n) := by
  by_contra hnever
  have hP : ∀ n, ¬ P (x.state n) := fun n hn => hnever ⟨n, hn⟩
  -- there is no infinite descent of ranks
  have hnone : ∀ r n, rank (x.state n) ≠ r := by
    intro r
    induction r using Nat.strongRecOn with
    | ind r ih =>
      rintro n rfl
      obtain ⟨k, hk⟩ := exists_closer h hx hP n
      exact ih _ hk k rfl
  exact hnone _ 0 rfl

end Execution

/-- A step of the owner, if it has one. -/
noncomputable def pick (S : System σ ε) (owner : ε → ι) (i : ι) (s : σ) : Option (ε × σ) :=
  open Classical in
  if h : ∃ q : ε × σ, owner q.1 = i ∧ S.step s q.1 = some q.2 then some h.choose else none

theorem pick_eq_some {i : ι} {s : σ} {q : ε × σ} (h : S.pick owner i s = some q) :
    owner q.1 = i ∧ S.step s q.1 = some q.2 := by
  unfold pick at h
  split at h
  · rename_i hex
    cases h
    exact hex.choose_spec
  · cases h

theorem not_enabled_of_pick {i : ι} {s : σ} (h : S.pick owner i s = none) :
    ¬ S.Enabled owner i s := by
  rintro ⟨e, t, howner, hst⟩
  unfold pick at h
  split at h
  · cases h
  · rename_i hnone
    exact hnone ⟨(e, t), howner, hst⟩

/-- The owners take turns, and let a turn pass when they have no step to take. -/
noncomputable def Execution.turns (S : System σ ε) (owner : ε → ι) (turn : ℕ → ι) :
    S.Execution where
  state := Nat.rec S.init fun n s => ((S.pick owner (turn n) s).map Prod.snd).getD s
  event n := (S.pick owner (turn n)
    (Nat.rec S.init (fun n s => ((S.pick owner (turn n) s).map Prod.snd).getD s) n)).map Prod.fst
  start := rfl
  step n e he := by
    obtain ⟨q, hq, rfl⟩ := Option.map_eq_some_iff.1 he
    rw [(pick_eq_some hq).2]
    change some q.2 = some ((Option.map Prod.snd (S.pick owner (turn n) _)).getD _)
    rw [hq]
    rfl
  stutter n he := by
    rw [Option.map_eq_none_iff] at he
    change (Option.map Prod.snd (S.pick owner (turn n) _)).getD _ = _
    rw [he]
    rfl

/-- Every system has fair executions. -/
theorem exists_fair (S : System σ ε) (owner : ε → ι) {turn : ℕ → ι}
    (hturn : ∀ i n, ∃ m, n ≤ m ∧ turn m = i) : ∃ x : S.Execution, x.Fair owner := by
  refine ⟨Execution.turns S owner turn, fun i n => ?_⟩
  obtain ⟨m, hnm, rfl⟩ := hturn i n
  refine ⟨m, hnm, ?_⟩
  cases hpick : S.pick owner (turn m) ((Execution.turns S owner turn).state m) with
  | none => exact .inr (not_enabled_of_pick hpick)
  | some q => exact .inl ⟨q.1, congrArg (Option.map Prod.fst) hpick, (pick_eq_some hpick).1⟩

/-- An execution after one more event. -/
def Execution.cons {s : σ} {e : ε} (h : S.step S.init e = some s)
    (x : (System.mk s S.step).Execution) : S.Execution where
  state
    | 0 => S.init
    | n + 1 => x.state n
  event
    | 0 => some e
    | n + 1 => x.event n
  start := rfl
  step
    | 0, _, he => by
      cases he
      exact h.trans (congrArg some x.start.symm)
    | n + 1, d, he => x.step n d he
  stutter
    | 0, he => by cases he
    | n + 1, he => x.stutter n he

/-- Every run can be continued fairly. -/
theorem Reachable.exists_fair {s : σ} (hs : S.Reachable s) (owner : ε → ι) {turn : ℕ → ι}
    (hturn : ∀ i n, ∃ m, n ≤ m ∧ turn m = i) :
    ∃ x : S.Execution, x.Fair owner ∧ ∃ n, x.state n = s := by
  obtain ⟨es, hrun⟩ := Reaches.exists_run hs
  -- from the state that the first events lead to
  suffices h : ∀ es t, S.run t es = some s →
      ∃ x : (System.mk t S.step).Execution, x.Fair owner ∧ ∃ n, x.state n = s from
    h es S.init hrun
  intro es
  induction es with
  | nil =>
    rintro t ⟨⟩
    obtain ⟨x, hx⟩ := System.exists_fair (System.mk s S.step) owner hturn
    exact ⟨x, hx, 0, x.start⟩
  | cons e es ih =>
    intro t hrun
    obtain ⟨u, hu, hrest⟩ := Option.bind_eq_some_iff.1 hrun
    obtain ⟨x, hx, n, hn⟩ := ih u hrest
    refine ⟨x.cons (S := System.mk t S.step) hu, fun i k => ?_, n + 1, hn⟩
    obtain ⟨m, hkm, hm⟩ := hx i k
    exact ⟨m + 1, Nat.le_succ_of_le hkm, hm⟩

/-- The helpers alone get there. -/
theorem Helps.exists_reachable {P : σ → Prop} {rank : σ → ℕ} {helper : σ → ι}
    (h : Helps S owner P rank helper) : ∃ s, S.Reachable s ∧ P s := by
  by_contra hnever
  have hP : ∀ {s}, S.Reachable s → ¬ P s := fun hs hPs => hnever ⟨_, hs, hPs⟩
  have hnone : ∀ r s, S.Reachable s → rank s ≠ r := by
    intro r
    induction r using Nat.strongRecOn with
    | ind r ih =>
      rintro s hs rfl
      obtain ⟨e, t, howner, hst⟩ := h.enabled hs (hP hs)
      rcases h.step hs (hP hs) hst with hlt | ⟨-, -, hne⟩
      · exact ih _ hlt t (hs.step hst) rfl
      · exact hne howner
  exact hnone _ _ Reachable.init rfl

/-! ## Costs -/

/-- Each event costs something, but for the free ones, which may give back less than `gain`. -/
def Costs (S : System σ ε) (worth : σ → ℕ) (free : ε → Bool) (gain : ℕ) : Prop :=
  ∀ {s t e}, S.Reachable s → S.step s e = some t →
    worth t < worth s + if free e then gain else 0

/-- Only free events are left. -/
def Stuck (S : System σ ε) (free : ε → Bool) (s : σ) : Prop :=
  ∀ e t, S.step s e = some t → free e = true

namespace Costs

variable {worth : σ → ℕ} {free : ε → Bool} {gain : ℕ} {s t : σ}

/-- A run is no longer than what it starts with and what it is given. -/
theorem length_le (h : Costs S worth free gain) {es : List ε} (hs : S.Reachable s)
    (hrun : S.run s es = some t) : es.length + worth t ≤ worth s + gain * es.countP free := by
  induction es generalizing s with
  | nil =>
    cases hrun
    simp
  | cons e es ih =>
    obtain ⟨u, hu, hrest⟩ := Option.bind_eq_some_iff.1 hrun
    have hfirst := h hs hu
    have hlater := ih (hs.step hu) hrest
    rw [List.length_cons, List.countP_cons, Nat.mul_add]
    split at hfirst
    · rw [if_pos ‹_›, Nat.mul_one]
      omega
    · rw [if_neg ‹_›, Nat.mul_zero]
      omega

/-- Every run can be continued until only free events are left. -/
theorem exists_stuck (h : Costs S worth free gain) (hs : S.Reachable s) :
    ∃ t, S.Reaches s t ∧ S.Stuck free t := by
  induction hworth : worth s using Nat.strongRecOn generalizing s with
  | ind n ih =>
    by_cases hstuck : S.Stuck free s
    · exact ⟨s, Reaches.refl s, hstuck⟩
    · unfold Stuck at hstuck
      push Not at hstuck
      obtain ⟨e, u, hst, hfree⟩ := hstuck
      have hcost := h hs hst
      rw [if_neg (by simpa using hfree), Nat.add_zero] at hcost
      obtain ⟨t, ht, hend⟩ := ih (worth u) (hworth ▸ hcost) (hs.step hst) rfl
      exact ⟨t, Reaches.head hst ht, hend⟩

end Costs

end ThreadTests.System
