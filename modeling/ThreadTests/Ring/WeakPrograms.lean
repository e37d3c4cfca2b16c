import ThreadTests.Ring.Programs
import ThreadTests.Ring.WeakSafe

/-!
# Programs on the rings on a release/acquire memory

`push` and `pop` spin until their test succeeds, and on a release/acquire memory a test that takes
an old message fails for nothing. No number of such failures is too large for the memory, so a fair
scheduler is not enough; but a store is expected to become visible to all loads some day, and then
the program ends as it does sequentially (`weak_finishes_iff`).
-/

namespace ThreadTests

open ReleaseAcquire

universe u v

variable {κ : Type u} {T : Type v}

/-- The thread that takes the step. -/
def WeakStep.role (e : WeakStep T) : Role := e.forget.role

/-- Every load of a counter takes the last of its stores, some time after it was made. -/
def WeakTimely {S : System (WeakThreads κ T) (WeakStep T)} (x : S.Execution) : Prop :=
  x.Timely WeakStep.taken WeakThreads.done

/-- The counters count up. -/
theorem Arith.WeakMoves.done_le [DecidableEq κ] {a : Arith κ} {s t : WeakThreads κ T}
    {e : WeakStep T} (h : a.WeakMoves s e t) (c : Counter) : s.done c ≤ t.done c := by
  cases h <;> cases c <;> simp [WeakThreads.done]

namespace Program

/-- A call begins with the next value, or while there are pops to be made. -/
def weakMayStep (p : Program T) (s : WeakThreads κ T) : WeakStep T → Prop
  | .pushLoad val _ => p.values[s.pushed.length]? = some val
  | .popLoad _ => s.popped.length < p.pops
  | _ => True

instance [DecidableEq T] (p : Program T) (s : WeakThreads κ T) :
    (e : WeakStep T) → Decidable (p.weakMayStep s e)
  | .pushLoad val _ => inferInstanceAs (Decidable (p.values[s.pushed.length]? = some val))
  | .popLoad _ => inferInstanceAs (Decidable (s.popped.length < p.pops))
  | .pushTest .. | .pushWrite | .pushStore | .popTest .. | .popRead | .popStore => isTrue trivial

/-- The program on a ring on a release/acquire memory. -/
def weakSystem [DecidableEq κ] [DecidableEq T] (p : Program T) (a : Arith κ) (mBuffer : ℕ → T) :
    System (WeakThreads κ T) (WeakStep T) :=
  (a.weakSystem mBuffer).restrict p.weakMayStep

variable {p : Program T} {a : Arith κ} {mBuffer : ℕ → T} {s t : WeakThreads κ T} {e : WeakStep T}
  {cap : ℕ} {L : LowerSet ℕ}

theorem mayStep_current : p.mayStep (a.current s) e.forget ↔ p.weakMayStep s e := by
  cases e <;> rfl

/-- Whether a step can be taken does not depend on what it loads. -/
theorem exists_moves [DecidableEq κ] (h : a.WeakMoves s e t) (hmay : p.weakMayStep s e) :
    ∃ d u, a.Moves (a.current s) d u ∧ d.role = e.role ∧ p.mayStep (a.current s) d := by
  cases h with
  | pushLoad hpc => exact ⟨_, _, .pushLoad hpc, rfl, hmay⟩
  | pushTest hpc => exact ⟨_, _, .pushTest hpc rfl, rfl, trivial⟩
  | pushWrite hpc => exact ⟨_, _, .pushWrite hpc, rfl, trivial⟩
  | pushStore hpc => exact ⟨_, _, .pushStore hpc, rfl, trivial⟩
  | popLoad hpc => exact ⟨_, _, .popLoad hpc, rfl, hmay⟩
  | popTest hpc => exact ⟨_, _, .popTest hpc rfl, rfl, trivial⟩
  | popRead hpc => exact ⟨_, _, .popRead hpc, rfl, trivial⟩
  | popStore hpc => exact ⟨_, _, .popStore hpc, rfl, trivial⟩

theorem Keeps.refused {s t : Threads κ T} {e : Step T} (h : p.Keeps s)
    (hst : Arith.Refused s e t) : p.Keeps t := by
  cases hst with
  | push _ _ ht =>
    subst ht
    exact ⟨h.pushed, nofun, h.popped, h.more⟩
  | pop _ _ ht =>
    subst ht
    exact ⟨h.pushed, h.next, h.popped, fun hne => absurd rfl hne⟩

variable [DecidableEq κ] [DecidableEq T]

theorem weak_ring_reachable (hs : (p.weakSystem a mBuffer).Reachable s) :
    (a.weakSystem mBuffer).Reachable s :=
  hs.of_restrict

/-- The loops of the threads keep what they keep sequentially. -/
theorem weak_keeps_of_reachable (ha : a.Faithful cap L) (hL : p.values.length ∈ L)
    (hs : (p.weakSystem a mBuffer).Reachable s) : p.Keeps (a.current s) := by
  refine System.invariant (P := fun s => p.Keeps (a.current s)) ?_ (fun {s t e} hs h hst => ?_) hs
  · exact ⟨List.nil_prefix, nofun, Nat.zero_le _, fun hne => absurd rfl hne⟩
  · obtain ⟨hmay, hst⟩ := System.restrict_step.1 hst
    have hL : s.pushed.length ∈ L := L.lower h.pushed_le hL
    rcases Arith.current_cases ha hs.of_restrict hL (Arith.weakMoves_of_step hst) with
      hmoves | ⟨-, hrefused⟩
    · exact h.moves (mayStep_current.2 hmay) hmoves
    · exact h.refused hrefused

/-- A ring of the program has not had more pushes than its counters are faithful for. -/
theorem weak_mem (ha : a.Faithful cap L) (hL : p.values.length ∈ L)
    (hs : (p.weakSystem a mBuffer).Reachable s) : s.pushed.length ∈ L :=
  L.lower (weak_keeps_of_reachable ha hL hs).pushed_le hL

theorem weak_current_reachable (ha : a.Faithful cap L) (hL : p.values.length ∈ L)
    (hs : (p.weakSystem a mBuffer).Reachable s) : (a.system mBuffer).Reachable (a.current s) :=
  Arith.current_reachable ha (weak_ring_reachable hs) (weak_mem ha hL hs)

/-- What can happen on the current counters can happen with a load of the last message. -/
theorem fresh_enabled (hs : (p.weakSystem a mBuffer).Reachable s) {d : Step T} {u : Threads κ T}
    (hmay : p.mayStep (a.current s) d) (hst : a.Moves (a.current s) d u) :
    ((p.weakSystem a mBuffer).restrict
      (System.Fresh WeakStep.taken WeakThreads.done)).Enabled WeakStep.role d.role s := by
  have hc := Arith.weakCoupled_of_reachable (weak_ring_reachable hs)
  obtain ⟨e, t, hweak, rfl, hfresh, -⟩ := Arith.exists_weak_step hc hst
  exact ⟨e, t, rfl, System.restrict_step.2 ⟨hfresh, System.restrict_step.2
    ⟨mayStep_current.1 hmay, hweak.step_eq⟩⟩⟩

/-- **The helper comes closer to the end** by what it loads, unless that is old. -/
theorem weak_helps (ha : a.Faithful cap L) (hL : p.values.length ∈ L) (hcap : 0 < cap)
    (hp : p.Balanced cap) (mBuffer : ℕ → T) :
    System.HelpsFresh (p.weakSystem a mBuffer) WeakStep.role WeakStep.taken WeakThreads.done
      (fun s => p.Finished (a.current s)) (fun s => p.rank cap (a.current s))
      (fun s => p.helper cap (a.current s)) (fun s => p.calls (a.current s)) where
  enabled {s} hs hnot := by
    have hkeeps := weak_keeps_of_reachable ha hL hs
    have hring := weak_current_reachable ha hL hs
    obtain ⟨e, t, hrole, hst⟩ : (p.system a mBuffer).Enabled Step.role (p.helper cap (a.current s))
        (a.current s) := hkeeps.enabled ha hcap hp hring (weak_mem ha hL hs) hnot
    obtain ⟨hmay, hst⟩ := System.restrict_step.1 hst
    rw [← hrole]
    exact fresh_enabled hs hmay (Arith.moves_of_step hst)
  step {s t e} hs _ hfresh hst := by
    obtain ⟨hmay, hst⟩ := System.restrict_step.1 hst
    rcases Arith.current_cases ha (weak_ring_reachable hs) (weak_mem ha hL hs)
      (Arith.weakMoves_of_step hst) with hmoves | ⟨hold, -⟩
    · exact (weak_keeps_of_reachable ha hL hs).closer ha hcap hp (weak_current_reachable ha hL hs)
        (weak_mem ha hL hs) (mayStep_current.2 hmay) hmoves
    · exact absurd hfresh hold
  left_le {s t e} hs hst := by
    have hdone := (Arith.weakMoves_of_step (System.restrict_step.1 hst).2).done_le
    have hwrite : s.pushed.length ≤ t.pushed.length := hdone .mWrite
    have hread : s.popped.length ≤ t.popped.length := hdone .mRead
    change p.values.length - t.pushed.length + (p.pops - t.popped.length) ≤
      p.values.length - s.pushed.length + (p.pops - s.popped.length)
    omega
  newest_of_left {s t e} hs hst hleft := by
    have hkeeps := weak_keeps_of_reachable ha hL (hs.step hst)
    have hpushed : t.pushed.length ≤ p.values.length := hkeeps.pushed_le
    have hpopped : t.popped.length ≤ p.pops := hkeeps.popped
    have hdone := (Arith.weakMoves_of_step (System.restrict_step.1 hst).2).done_le
    have hwrite : s.pushed.length ≤ t.pushed.length := hdone .mWrite
    have hread : s.popped.length ≤ t.popped.length := hdone .mRead
    change p.values.length - t.pushed.length + (p.pops - t.popped.length) =
      p.values.length - s.pushed.length + (p.pops - s.popped.length) at hleft
    funext c
    cases c with
    | mWrite =>
      change t.pushed.length = s.pushed.length
      omega
    | mRead =>
      change t.popped.length = s.popped.length
      omega

/-- There are fair executions in which every store is seen. -/
theorem exists_fair_timely (p : Program T) (a : Arith κ) (mBuffer : ℕ → T) :
    ∃ x : (p.weakSystem a mBuffer).Execution, x.Fair WeakStep.role ∧ WeakTimely x := by
  refine System.exists_fair_timely Role.exists_turn (fun _ hst c => ?_) fun {s role} hs => ?_
  · exact (Arith.weakMoves_of_step (System.restrict_step.1 hst).2).done_le c
  · rintro ⟨e, t, rfl, hst⟩
    obtain ⟨hmay, hst⟩ := System.restrict_step.1 hst
    obtain ⟨d, u, hmoves, hrole, hmay⟩ := exists_moves (Arith.weakMoves_of_step hst) hmay
    rw [← hrole]
    exact fresh_enabled hs hmay hmoves

/-! ## The end -/

/-- Nothing happens after the end. -/
theorem Finished.weak_step_eq_none (h : p.Finished (a.current s)) (ha : a.Faithful cap L)
    (hL : p.values.length ∈ L) (hs : (p.weakSystem a mBuffer).Reachable s) (e : WeakStep T) :
    (p.weakSystem a mBuffer).step s e = none := by
  rw [Option.eq_none_iff_forall_ne_some]
  intro t hst
  obtain ⟨hmay, hst⟩ := System.restrict_step.1 hst
  rcases Arith.current_cases ha (weak_ring_reachable hs) (weak_mem ha hL hs)
    (Arith.weakMoves_of_step hst) with hmoves | ⟨-, ⟨hpc, -⟩ | ⟨hpc, -⟩⟩
  · have hstep : (p.system a mBuffer).step (a.current s) e.forget = some (a.current t) :=
      System.restrict_step.2 ⟨mayStep_current.2 hmay, hmoves.step_eq⟩
    rw [h.step_eq_none] at hstep
    cases hstep
  · rw [h.producer] at hpc
    cases hpc
  · rw [h.consumer] at hpc
    cases hpc

/-- Under a fair scheduler, and with every store seen in the end, a balanced program ends. -/
theorem Balanced.weak_ends (hp : p.Balanced cap) (ha : a.Faithful cap L) (hL : p.values.length ∈ L)
    (hcap : 0 < cap) {x : (p.weakSystem a mBuffer).Execution} (hx : x.Fair WeakStep.role)
    (htimely : WeakTimely x) :
    ∃ n, ∀ m, n ≤ m →
      p.Finished (a.current (x.state m)) ∧ (x.state m).popped = p.values.take p.pops := by
  obtain ⟨n, hn⟩ := (weak_helps ha hL hcap hp mBuffer).eventually hx htimely
  refine ⟨n, fun m hnm => ?_⟩
  have hm : p.Finished (a.current (x.state m)) :=
    x.stable (P := fun s => p.Finished (a.current s)) (fun hs h hst => ?_) hn hnm
  · exact ⟨hm, hm.popped_eq ha hL (weak_current_reachable ha hL (x.reachable m))⟩
  · rw [h.weak_step_eq_none ha hL hs] at hst
    cases hst

/-- **When a program ends on a release/acquire memory.** If and only if it is balanced, as it does
sequentially; and then it does under every fair scheduler, if every store is seen in the end, with
the first of the values delivered in order. -/
theorem weak_finishes_iff (ha : a.Faithful cap L) (hL : p.values.length ∈ L) (hcap : 0 < cap)
    (mBuffer : ℕ → T) :
    ((∃ s, (p.weakSystem a mBuffer).Reachable s ∧ p.Finished (a.current s)) ↔ p.Balanced cap) ∧
      (p.Balanced cap → ∀ x : (p.weakSystem a mBuffer).Execution,
        x.Fair WeakStep.role → WeakTimely x → ∃ n, ∀ m, n ≤ m →
          p.Finished (a.current (x.state m)) ∧ (x.state m).popped = p.values.take p.pops) := by
  refine ⟨⟨?_, fun hp => ?_⟩, fun hp x hx htimely => hp.weak_ends ha hL hcap hx htimely⟩
  · rintro ⟨s, hs, hfinished⟩
    exact hfinished.balanced ha hL (weak_current_reachable ha hL hs)
  · exact (weak_helps ha hL hcap hp mBuffer).exists_reachable

/-- Three pushes and one pop on a modulo ring of two slots. -/
theorem weak_finishes_iff_three : ∃ x : ((Program.mk [7, 8, 9] 1).weakSystem
      (RingBufferSPSCLockFree.arith 2) fun _ => 0).Execution,
    ∃ n, ∀ m, n ≤ m → (Program.mk [7, 8, 9] 1).Finished
      ((RingBufferSPSCLockFree.arith 2).current (x.state m)) ∧ (x.state m).popped = [7] := by
  obtain ⟨x, hx, htimely⟩ := (Program.mk [7, 8, 9] 1).exists_fair_timely
    (RingBufferSPSCLockFree.arith 2) fun _ => 0
  have hL : (Program.mk [7, 8, 9] 1).values.length ∈ LowerSet.Iio (2 ^ 31) :=
    (by decide : 3 < 2 ^ 31)
  exact ⟨x, (weak_finishes_iff (RingBufferSPSCLockFree.faithful_of_lt (by decide)) hL (by decide)
    _).2 ⟨by decide, by decide⟩ x hx htimely⟩

end Program

/-! ## `test_rb` -/

/-- The threads of `test_rb` end under every fair scheduler that lets every store be seen, and the
numbers are popped in order. -/
def TestRbWeaklyEnds [DecidableEq κ] (nelements : CInt) (a : Arith κ) : Prop :=
  ∀ (mBuffer : ℕ → CInt) (x : ((testRb nelements).weakSystem a mBuffer).Execution),
    x.Fair WeakStep.role → WeakTimely x → ∃ n, ∀ m, n ≤ m →
      (testRb nelements).Finished (a.current (x.state m)) ∧
        (x.state m).popped = (testRb nelements).values

theorem testRbWeaklyEnds_of_faithful [DecidableEq κ] {nelements : CInt} {a : Arith κ} {cap : ℕ}
    {L : LowerSet ℕ} (ha : a.Faithful cap L) (hL : nelements.toInt.toNat ∈ L) (hcap : 0 < cap) :
    TestRbWeaklyEnds nelements a := by
  intro mBuffer x hx htimely
  rw [← take_testRb]
  exact (testRb_balanced nelements cap).weak_ends ha (by rwa [length_testRb]) hcap hx htimely

/-- **`test_rb` ends on both rings on a release/acquire memory**, for every number of elements. -/
theorem testRb_weakly_ends (nelements : CInt) :
    TestRbWeaklyEnds nelements (RingBufferSPSCLockFree.arith (intToSize testRbBufsize)) ∧
      TestRbWeaklyEnds nelements (RingBufferSPSCLockFree2.arith (intToSize testRbBufsize)) :=
  ⟨testRbWeaklyEnds_of_faithful (RingBufferSPSCLockFree.faithful_of_lt (by decide))
      (toNat_lt nelements) (by decide),
    testRbWeaklyEnds_of_faithful (RingBufferSPSCLockFree2.faithful mMask_testRb) trivial
      (Nat.succ_pos _)⟩

end ThreadTests
