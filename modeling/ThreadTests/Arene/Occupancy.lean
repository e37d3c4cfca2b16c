import ThreadTests.Arene.Interleaved

/-!
# What `size()` says while the threads run

`size()` loads `m_write`, then `m_read`, and subtracts: two instants. It may be called by the
producer or by the consumer between their own calls, or by a third thread at any time. The producer
does not push while it is in `size()`, and the consumer does not pop, so both see no more pops than
pushes, and what is returned is at most the depth. Nothing stops the pops that a third thread sees
from passing the pushes that it has seen; then the difference wraps (`size_le_of_reachable`).
-/

namespace ThreadTests.Arene

universe u

variable {c : Shape} {E : Type u}

/-- Who calls `size()`. -/
inductive Observer where
  | producer
  | consumer
  | monitor
  deriving DecidableEq, Repr

/-- A call of `size()` that has returned: the value, the number of pushes at its load of `m_write`,
and the number of pops at its load of `m_read`. -/
structure Sized where
  observer : Observer
  value : SizeT
  pushes : ℕ
  pops : ℕ
  deriving DecidableEq

/-- The two threads and those that are in `size()`, each with the `m_write` that it has loaded and
the number of pushes at that load. -/
structure Observed (c : Shape) (E : Type u) extends Threads c E where
  sizing : Observer → Option (SizeT × ℕ)
  sizes : List Sized

inductive ObservedStep (c : Shape) (E : Type u) where
  | thread (e : Step c E)
  | loadWrite (o : Observer)
  | loadRead (o : Observer)

def Step.thread : Step c E → Observer
  | .push _ => .producer
  | .pop _ => .consumer

namespace Observed

/-- The thread is in no other call. -/
def free (s : Observed c E) : Observer → Bool
  | .producer =>
    match s.producer with
    | .idle | .returned _ => true
    | _ => false
  | .consumer =>
    match s.consumer with
    | .idle => true
    | _ => false
  | .monitor => true

def step (s : Observed c E) : ObservedStep c E → Option (Observed c E)
  | .thread e =>
    if s.sizing e.thread = none then
      (s.toThreads.step e).map fun t => { s with toThreads := t }
    else none
  | .loadWrite o =>
    if s.sizing o = none ∧ s.free o = true then
      some { s with sizing := Function.update s.sizing o (some (s.mWrite, s.handed.length)) }
    else none
  | .loadRead o =>
    match s.sizing o with
    | some (head, pushes) =>
      some { s with
        sizing := Function.update s.sizing o none
        sizes := s.sizes ++ [⟨o, head - s.mRead, pushes, s.taken.length⟩] }
    | none => none

/-- The steps, each with what it needs and what it changes. -/
inductive Moves (s : Observed c E) : ObservedStep c E → Observed c E → Prop
  | thread {e t} (hsizing : s.sizing e.thread = none) (h : s.toThreads.step e = some t) :
    Moves s (.thread e) { s with toThreads := t }
  | loadWrite {o} (hsizing : s.sizing o = none) (hfree : s.free o = true) :
    Moves s (.loadWrite o)
      { s with sizing := Function.update s.sizing o (some (s.mWrite, s.handed.length)) }
  | loadRead {o head pushes} (h : s.sizing o = some (head, pushes)) :
    Moves s (.loadRead o)
      { s with
        sizing := Function.update s.sizing o none
        sizes := s.sizes ++ [⟨o, head - s.mRead, pushes, s.taken.length⟩] }

theorem moves_of_step {s t : Observed c E} {e : ObservedStep c E} (hst : s.step e = some t) :
    s.Moves e t := by
  cases e with
  | thread e =>
    obtain ⟨hsizing, hst⟩ := Option.ite_none_right_eq_some.1 hst
    obtain ⟨u, hu, rfl⟩ := Option.map_eq_some_iff.1 hst
    exact .thread hsizing hu
  | loadWrite o =>
    obtain ⟨⟨hsizing, hfree⟩, ⟨⟩⟩ := Option.ite_none_right_eq_some.1 hst
    exact .loadWrite hsizing hfree
  | loadRead o =>
    simp only [step] at hst
    split at hst
    · cases hst
      exact .loadRead ‹_›
    · cases hst

end Observed

/-- The two threads of a new buffer, and the calls of `size()`. -/
def observed (c : Shape) (mBuffer : ℕ → E) : System (Observed c E) (ObservedStep c E) where
  init := ⟨Threads.start mBuffer, fun _ => none, []⟩
  step := Observed.step

variable {mBuffer : ℕ → E} {s t : Observed c E} {e : ObservedStep c E} {o : Observer} {k n : ℕ}

namespace Observed

/-- Without its observers, a run is one of the two threads. -/
theorem threads_of_reachable (hs : (observed c mBuffer).Reachable s) :
    (system c mBuffer).Reachable s.toThreads := by
  refine System.invariant (P := fun s => (system c mBuffer).Reachable s.toThreads)
    System.Reachable.init ?_ hs
  intro s t e _ ih hst
  cases moves_of_step hst with
  | @thread e t hsizing h => exact ih.step (e := e) h
  | loadWrite => exact ih
  | loadRead => exact ih

end Observed

/-- What a call that has returned was made of, in a run of `n` pushes. -/
structure Sized.Sound (k n : ℕ) (r : Sized) : Prop where
  value : r.value = count r.pushes - count r.pops
  pushes_le : r.pushes ≤ n
  pops_le : r.pops ≤ n
  bound : r.pushes ≤ r.pops + slots k
  /-- The two threads of the buffer see no pop of what they have not seen pushed. -/
  own : r.observer ≠ .monitor → r.pops ≤ r.pushes

/-- The difference wraps exactly when the pops have passed the pushes. -/
theorem Sized.Sound.value_le_iff {r : Sized} (h : r.Sound k n) (hdepth : c.mDepth.toNat = 2 ^ k)
    (hn : n < 2 ^ 31) : r.value.toNat ≤ c.mDepth.toNat ↔ r.pops ≤ r.pushes := by
  have hpushes := h.pushes_le
  have hpops := h.pops_le
  have hbound := h.bound
  rw [h.value]
  constructor
  · intro hle
    by_contra hlt
    have hhalf : c.mDepth.toNat ≤ 2 ^ 63 := by
      have hk : k < 64 := (Nat.pow_lt_pow_iff_right Nat.one_lt_two).1 (hdepth ▸ c.mDepth.isLt)
      rw [hdepth]
      exact Nat.pow_le_pow_right Nat.two_pos (by omega)
    rw [BitVec.toNat_sub, toNat_count_of_lt (by omega), toNat_count_of_lt (by omega)] at hle
    omega
  · intro hle
    have hslots := slots_le_depth k
    rw [toNat_count_sub_count hle (by omega), hdepth]
    omega

namespace Observed

/-- What the calls under way, and those that have returned, rely on. -/
structure Inv (k : ℕ) (s : Observed c E) : Prop where
  loaded : ∀ {o head pushes}, s.sizing o = some (head, pushes) →
    head = count pushes ∧ pushes ≤ s.handed.length
  producer : ∀ {head pushes}, s.sizing .producer = some (head, pushes) → pushes = s.handed.length
  consumer : ∀ {head pushes}, s.sizing .consumer = some (head, pushes) → s.taken.length ≤ pushes
  returned : ∀ r ∈ s.sizes, r.Sound k s.handed.length

namespace Inv

/-- A call is under way in `size()` because it has just begun, or as before. -/
theorem sizing_cases {o' : Observer} {l : Option (SizeT × ℕ)} {load : SizeT × ℕ}
    (h : Function.update s.sizing o l o' = some load) :
    l = some load ∨ s.sizing o' = some load := by
  by_cases hne : o' = o
  · subst hne
    rw [Function.update_self] at h
    exact .inl h
  · rw [Function.update_of_ne hne] at h
    exact .inr h

/-- The producer moves only when it is not in `size()`, and so does the consumer. -/
theorem thread (h : s.Inv k) {e : Step c E} {t : Threads c E} (hsizing : s.sizing e.thread = none)
    (hst : s.toThreads.Moves e t) : Inv k { s with toThreads := t } := by
  have hle := hst.handed_le
  refine ⟨?_, ?_, ?_, ?_⟩
  · intro o head pushes ho
    obtain ⟨hhead, hpushes⟩ := h.loaded ho
    exact ⟨hhead, hpushes.trans hle⟩
  · intro head pushes ho
    cases e with
    | push e => cases hsizing.symm.trans ho
    | pop e =>
      change pushes = t.handed.length
      rw [hst.pop_frame.1]
      exact h.producer ho
  · intro head pushes ho
    cases e with
    | push e =>
      change t.taken.length ≤ pushes
      rw [hst.push_frame.1]
      exact h.consumer ho
    | pop e => cases hsizing.symm.trans ho
  · intro r hr
    have hr := h.returned r hr
    exact ⟨hr.value, hr.pushes_le.trans hle, hr.pops_le.trans hle, hr.bound, hr.own⟩

theorem loadWrite (h : s.Inv k) (hc : Coupled s.toThreads) (hle : s.taken.length ≤ s.handed.length)
    (o : Observer) :
    Inv k { s with sizing := Function.update s.sizing o (some (s.mWrite, s.handed.length)) } := by
  refine ⟨?_, ?_, ?_, h.returned⟩
  · intro o' head pushes ho
    rcases sizing_cases ho with hnew | hold
    · cases hnew
      exact ⟨hc.write, Nat.le_refl _⟩
    · exact h.loaded hold
  · intro head pushes ho
    rcases sizing_cases ho with hnew | hold
    · cases hnew
      rfl
    · exact h.producer hold
  · intro head pushes ho
    rcases sizing_cases ho with hnew | hold
    · cases hnew
      exact hle
    · exact h.consumer hold

/-- What is returned is sound: a thread of the buffer has kept its own counter still. -/
theorem sound (h : s.Inv k) (hc : Coupled s.toThreads) (hle : s.taken.length ≤ s.handed.length)
    (hbound : s.handed.length ≤ s.taken.length + slots k) {head : SizeT} {pushes : ℕ}
    (ho : s.sizing o = some (head, pushes)) :
    Sized.Sound k s.handed.length ⟨o, head - s.mRead, pushes, s.taken.length⟩ := by
  obtain ⟨rfl, hpushes⟩ := h.loaded ho
  refine ⟨?_, hpushes, hle, hpushes.trans hbound, ?_⟩
  · change count pushes - s.mRead = count pushes - count s.taken.length
    rw [hc.read]
  · intro hne
    change s.taken.length ≤ pushes
    cases o with
    | producer =>
      rw [h.producer ho]
      exact hle
    | consumer => exact h.consumer ho
    | monitor => exact absurd rfl hne

theorem loadRead (h : s.Inv k) {r : Sized} (hr : r.Sound k s.handed.length) (o : Observer) :
    Inv k { s with sizing := Function.update s.sizing o none, sizes := s.sizes ++ [r] } := by
  refine ⟨?_, ?_, ?_, ?_⟩
  · intro o' head pushes ho
    rcases sizing_cases ho with hnew | hold
    · cases hnew
    · exact h.loaded hold
  · intro head pushes ho
    rcases sizing_cases ho with hnew | hold
    · cases hnew
    · exact h.producer hold
  · intro head pushes ho
    rcases sizing_cases ho with hnew | hold
    · cases hnew
    · exact h.consumer hold
  · intro r' hr'
    rcases List.mem_append.1 hr' with hold | hnew
    · exact h.returned r' hold
    · rw [List.mem_singleton.1 hnew]
      exact hr

end Inv

theorem inv_of_reachable (hdepth : c.mDepth.toNat = 2 ^ k)
    (hs : (observed c mBuffer).Reachable s) (hrun : s.handed.length < 2 ^ 31) : s.Inv k := by
  revert hrun
  refine System.invariant (S := observed c mBuffer)
    (P := fun s => s.handed.length < 2 ^ 31 → s.Inv k) ?_ ?_ hs
  · intro _
    exact ⟨nofun, nofun, nofun, nofun⟩
  · intro s t e hs ih hst hrun
    have hthreads := threads_of_reachable hs
    have hc := Coupled.of_reachable hthreads
    cases moves_of_step hst with
    | @thread e t hsizing h =>
      have hmoves := Threads.moves_of_step h
      exact (ih (hmoves.handed_le.trans_lt hrun)).thread hsizing hmoves
    | loadWrite =>
      obtain ⟨hle, -, -⟩ := window hdepth (narrow_of_lt hthreads hrun)
      exact (ih hrun).loadWrite hc hle _
    | loadRead ho =>
      obtain ⟨hle, hbound, -⟩ := window hdepth (narrow_of_lt hthreads hrun)
      exact (ih hrun).loadRead ((ih hrun).sound hc hle hbound ho) _

end Observed

/-- **The occupancy that `size()` returns**, in a run of fewer than `2 ^ 31` pushes: at most the
depth for the producer and for the consumer, and for a third thread exactly when the pops at its
second load have not passed the pushes at its first. -/
theorem size_le_of_reachable (hdepth : c.mDepth.toNat = 2 ^ k)
    (hs : (observed c mBuffer).Reachable s) (hrun : s.handed.length < 2 ^ 31) :
    ∀ r ∈ s.sizes, (r.observer ≠ .monitor → r.value.toNat ≤ c.mDepth.toNat) ∧
      (r.value.toNat ≤ c.mDepth.toNat ↔ r.pops ≤ r.pushes) := by
  intro r hr
  have hsound := (Observed.inv_of_reachable hdepth hs hrun).returned r hr
  have hiff := hsound.value_le_iff hdepth hrun
  exact ⟨fun hne => hiff.2 (hsound.own hne), hiff⟩

/-- All three are in `size()` at once, with a push or a pop between their loads. -/
theorem size_le_of_reachable_three : ∃ s : Observed ⟨1, 2⟩ ℕ,
    s.sizes = [⟨.consumer, 0, 0, 0⟩, ⟨.producer, 0, 1, 1⟩, ⟨.monitor, 0, 1, 1⟩] ∧
      ∀ r ∈ s.sizes, r.value.toNat ≤ 2 := by
  obtain ⟨s, hs, hrun, hsizes⟩ := (observed ⟨1, 2⟩ fun _ => (0 : ℕ)).exists_reachable
    (p := fun s => s.handed.length < 2 ^ 31 ∧
      s.sizes = [⟨.consumer, 0, 0, 0⟩, ⟨.producer, 0, 1, 1⟩, ⟨.monitor, 0, 1, 1⟩])
    [.loadWrite .consumer, .thread (.push .load), .thread (.push (.test true)),
      .thread (.push .store), .loadRead .consumer, .loadWrite .producer, .loadWrite .monitor,
      .thread (.pop (.load .copy)), .thread (.pop (.test true)), .thread (.pop .copy),
      .thread (.pop .store), .loadRead .producer, .loadRead .monitor] (by decide)
  refine ⟨s, hsizes, ?_⟩
  intro r hr
  have hiff := (size_le_of_reachable (k := 1) rfl hs hrun r hr).2
  refine hiff.2 ?_
  rw [hsizes] at hr
  simp only [List.mem_cons, List.not_mem_nil, or_false] at hr
  rcases hr with rfl | rfl | rfl
  · exact Nat.le_refl _
  · exact Nat.le_refl _
  · exact Nat.le_refl _

/-- A block is pushed and popped between the two loads of a third thread. -/
theorem exists_size_wrapped : ∃ s : Observed ⟨1, 2⟩ ℕ,
    (observed ⟨1, 2⟩ fun _ => 0).Reachable s ∧ s.handed.length = 1 ∧
      s.sizes = [⟨.monitor, BitVec.allOnes 64, 0, 1⟩] ∧ ∃ r ∈ s.sizes, ¬ r.value.toNat ≤ 2 := by
  obtain ⟨s, hs, hhanded, hsizes⟩ := (observed ⟨1, 2⟩ fun _ => (0 : ℕ)).exists_reachable
    (p := fun s => s.handed.length = 1 ∧ s.sizes = [⟨.monitor, BitVec.allOnes 64, 0, 1⟩])
    [.loadWrite .monitor, .thread (.push .load), .thread (.push (.test true)),
      .thread (.push .store), .thread (.pop (.load .copy)), .thread (.pop (.test true)),
      .thread (.pop .copy), .thread (.pop .store), .loadRead .monitor] (by decide)
  refine ⟨s, hs, hhanded, hsizes, ⟨.monitor, BitVec.allOnes 64, 0, 1⟩, ?_, by decide⟩
  rw [hsizes]
  exact List.mem_singleton_self _

end ThreadTests.Arene
