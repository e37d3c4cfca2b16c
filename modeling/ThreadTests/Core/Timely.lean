import ThreadTests.Core.Fair

/-!
# Loads that see every store in the end

The events of a system load locations, each of which has a history of messages, and a load may take
an old one. Of an execution on such a memory one expects that every store is seen some day: from
some time on, no load takes a message older than the newest one of now (`Execution.Timely`).

A timely execution may load what is old again and again, but only while there are stores. What is
bound to happen when the loads are fresh is bound to happen, too, when they are timely and only
finitely many stores can be made (`HelpsFresh.eventually`).
-/

namespace ThreadTests.System

universe u v w x

variable {σ : Type u} {ε : Type v} {ι : Type w} {L : Type x} {S : System σ ε} {owner : ε → ι}
  {taken : ε → Option (L × ℕ)} {newest : σ → L → ℕ}

/-- Whatever is loaded is the newest message of its location, or a newer one. -/
def Fresh (taken : ε → Option (L × ℕ)) (newest : σ → L → ℕ) (s : σ) (e : ε) : Prop :=
  ∀ q ∈ taken e, newest s q.1 ≤ q.2

instance (s : σ) (e : ε) : Decidable (Fresh taken newest s e) :=
  inferInstanceAs (Decidable (∀ q ∈ taken e, newest s q.1 ≤ q.2))

/-- Every message is seen in the end. -/
def Execution.Timely (x : S.Execution) (taken : ε → Option (L × ℕ)) (newest : σ → L → ℕ) : Prop :=
  ∀ n, ∃ m, ∀ k, m ≤ k → ∀ e, x.event k = some e → Fresh taken newest (x.state n) e

/-- The system from a state on. -/
def after (S : System σ ε) (s : σ) : System σ ε := ⟨s, S.step⟩

theorem Reachable.of_after {s t : σ} (hs : S.Reachable s) (ht : (S.after s).Reachable t) :
    S.Reachable t :=
  hs.trans ht

namespace Execution

/-- What happens from the time `n` on. -/
def drop (x : S.Execution) (n : ℕ) : (S.after (x.state n)).Execution where
  state m := x.state (n + m)
  event m := x.event (n + m)
  start := rfl
  step m := x.step (n + m)
  stutter m := x.stutter (n + m)

/-- An execution whose events meet a condition. -/
def restrict (x : S.Execution) {G : σ → ε → Prop} [∀ s e, Decidable (G s e)]
    (hG : ∀ n e, x.event n = some e → G (x.state n) e) : (S.restrict G).Execution where
  state := x.state
  event := x.event
  start := x.start
  step n e he := restrict_step.2 ⟨hG n e he, x.step n e he⟩
  stutter := x.stutter

/-- The condition is forgotten. -/
def ofRestrict {G : σ → ε → Prop} [∀ s e, Decidable (G s e)] (x : (S.restrict G).Execution) :
    S.Execution where
  state := x.state
  event := x.event
  start := x.start
  step n e he := (restrict_step.1 (x.step n e he)).2
  stutter := x.stutter

theorem Fair.drop {x : S.Execution} (hx : x.Fair owner) (n : ℕ) : (x.drop n).Fair owner := by
  intro i k
  obtain ⟨m, hm, htaken⟩ := hx i (n + k)
  obtain ⟨d, rfl⟩ := Nat.exists_eq_add_of_le hm
  rw [Nat.add_assoc] at htaken
  exact ⟨k + d, Nat.le_add_right k d, htaken⟩

theorem Fair.restrict {x : S.Execution} (hx : x.Fair owner) {G : σ → ε → Prop}
    [∀ s e, Decidable (G s e)] (hG : ∀ n e, x.event n = some e → G (x.state n) e) :
    (x.restrict hG).Fair owner := by
  intro i k
  obtain ⟨m, hm, htaken⟩ := hx i k
  refine ⟨m, hm, htaken.imp_right fun hdisabled => ?_⟩
  rintro ⟨e, t, howner, hst⟩
  exact hdisabled ⟨e, t, howner, (restrict_step.1 hst).2⟩

/-- What never grows is constant in the end. -/
theorem exists_constant (x : S.Execution) {left : σ → ℕ}
    (hleft : ∀ {s t e}, S.Reachable s → S.step s e = some t → left t ≤ left s) :
    ∃ n, ∀ m, n ≤ m → left (x.state m) = left (x.state n) := by
  suffices h : ∀ r n, left (x.state n) = r →
      ∃ n, ∀ m, n ≤ m → left (x.state m) = left (x.state n) from h _ 0 rfl
  intro r
  induction r using Nat.strongRecOn with
  | ind r ih =>
    rintro n rfl
    by_cases hconst : ∀ m, n ≤ m → left (x.state m) = left (x.state n)
    · exact ⟨n, hconst⟩
    · push Not at hconst
      obtain ⟨m, hnm, hne⟩ := hconst
      have hle : left (x.state m) ≤ left (x.state n) :=
        x.stable (P := fun s => left s ≤ left (x.state n))
          (fun hs hle hst => Nat.le_trans (hleft hs hst) hle) (Nat.le_refl _) hnm
      exact ih _ (Nat.lt_of_le_of_ne hle hne) m rfl

end Execution

/-- As `Helps`, of the events that load what is newest; and what is stored uses up what is left. -/
structure HelpsFresh (S : System σ ε) (owner : ε → ι) (taken : ε → Option (L × ℕ))
    (newest : σ → L → ℕ) (P : σ → Prop) (rank : σ → ℕ) (helper : σ → ι) (left : σ → ℕ) : Prop where
  enabled : ∀ {s}, S.Reachable s → ¬ P s →
    (S.restrict (Fresh taken newest)).Enabled owner (helper s) s
  step : ∀ {s t e}, S.Reachable s → ¬ P s → Fresh taken newest s e → S.step s e = some t →
    rank t < rank s ∨ rank t = rank s ∧ helper t = helper s ∧ owner e ≠ helper s
  left_le : ∀ {s t e}, S.Reachable s → S.step s e = some t → left t ≤ left s
  newest_of_left : ∀ {s t e}, S.Reachable s → S.step s e = some t → left t = left s →
    newest t = newest s

namespace HelpsFresh

variable {P : σ → Prop} {rank : σ → ℕ} {helper : σ → ι} {left : σ → ℕ}

/-- From any state on, fresh loads help. -/
theorem helps (h : HelpsFresh S owner taken newest P rank helper left) {s : σ}
    (hs : S.Reachable s) :
    Helps ((S.after s).restrict (Fresh taken newest)) owner P rank helper where
  enabled ht hP := h.enabled (hs.of_after ht.of_restrict) hP
  step ht hP hst := by
    obtain ⟨hfresh, hst⟩ := restrict_step.1 hst
    exact h.step (hs.of_after ht.of_restrict) hP hfresh hst

/-- While nothing is used up, nothing is stored. -/
theorem newest_eq (h : HelpsFresh S owner taken newest P rank helper left) (x : S.Execution)
    {n m : ℕ} (hconst : ∀ m, n ≤ m → left (x.state m) = left (x.state n)) (hnm : n ≤ m) :
    newest (x.state m) = newest (x.state n) := by
  induction hnm with
  | refl => rfl
  | @step m hnm ih =>
    cases he : x.event m with
    | none => rw [x.stutter m he, ih]
    | some e =>
      have hleft : left (x.state (m + 1)) = left (x.state m) :=
        (hconst (m + 1) (Nat.le_succ_of_le hnm)).trans (hconst m hnm).symm
      rw [h.newest_of_left (x.reachable m) (x.step m e he) hleft, ih]

/-- **A fair and timely execution gets there.** -/
theorem eventually (h : HelpsFresh S owner taken newest P rank helper left) {x : S.Execution}
    (hx : x.Fair owner) (htimely : x.Timely taken newest) : ∃ n, P (x.state n) := by
  obtain ⟨n, hconst⟩ := x.exists_constant h.left_le
  obtain ⟨m, hseen⟩ := htimely n
  -- from then on nothing is stored, and the last stores are seen
  have hfresh : ∀ k e, (x.drop (n + m)).event k = some e →
      Fresh taken newest ((x.drop (n + m)).state k) e := by
    intro k e he
    have hsame : newest (x.state (n + m + k)) = newest (x.state n) :=
      h.newest_eq x hconst (by omega)
    intro q hq
    change newest (x.state (n + m + k)) q.1 ≤ q.2
    rw [hsame]
    exact hseen (n + m + k) (by omega) e he q hq
  obtain ⟨k, hk⟩ := Execution.eventually (h.helps (x.reachable (n + m)))
    ((hx.drop (n + m)).restrict hfresh)
  exact ⟨n + m + k, hk⟩

/-- Fresh loads alone get there. -/
theorem exists_reachable (h : HelpsFresh S owner taken newest P rank helper left) :
    ∃ s, S.Reachable s ∧ P s := by
  obtain ⟨s, hs, hP⟩ := (h.helps Reachable.init).exists_reachable
  exact ⟨s, hs.of_restrict, hP⟩

end HelpsFresh

/-- There are fair and timely executions, where every owner that has a step to take has one that
loads what is newest. -/
theorem exists_fair_timely {turn : ℕ → ι} (hturn : ∀ i n, ∃ m, n ≤ m ∧ turn m = i)
    (hnewest : ∀ {s t e}, S.Reachable s → S.step s e = some t → ∀ l, newest s l ≤ newest t l)
    (hfresh : ∀ {s i}, S.Reachable s → S.Enabled owner i s →
      (S.restrict (Fresh taken newest)).Enabled owner i s) :
    ∃ x : S.Execution, x.Fair owner ∧ x.Timely taken newest := by
  obtain ⟨y, hy⟩ := exists_fair (S.restrict (Fresh taken newest)) owner hturn
  refine ⟨y.ofRestrict, fun i n => ?_, fun n => ⟨n, fun k hnk e he q hq => ?_⟩⟩
  · obtain ⟨m, hm, htaken⟩ := hy i n
    exact ⟨m, hm, htaken.imp_right fun hdisabled henabled =>
      hdisabled (hfresh (y.ofRestrict.reachable m) henabled)⟩
  · have hle : newest (y.state n) q.1 ≤ newest (y.state k) q.1 :=
      y.ofRestrict.stable (P := fun s => newest (y.state n) q.1 ≤ newest s q.1)
        (fun hs hle hst => Nat.le_trans hle (hnewest hs hst q.1)) (Nat.le_refl _) hnk
    exact Nat.le_trans hle ((restrict_step.1 (y.step k e he)).1 q hq)

end ThreadTests.System
