import ThreadTests.Arene.Counters
import ThreadTests.Arene.Interleaved

/-!
# What the consumer of `BlockBuffer` receives

`tryPush` publishes a block before its caller has filled it, where the lock-free rings write the
slot first and store `m_write` last. Between the store and the fill the consumer may pass its test
and copy what the block held before (`exists_stale`).

That is the only way in which contents go wrong. In the runs in which no block is copied while it
is the only unread one and its producer is still to fill it (`ready`), the blocks delivered are the
blocks filled in, in order (`delivered_prefix_of_ready`). Calls that nothing interrupts are
runs too: every sequence of calls is one under the scheduler (`Threads.exists_stands`).
-/

namespace ThreadTests.Arene

universe u

variable {c : Shape} {E : Type u} {mBuffer : ℕ → E} {s t : Threads c E} {e : Step c E} {k : ℕ}

/-- The two threads of the benchmark: the producer fills every block, the consumer copies every
block. -/
def client : Step c E → Prop
  | .push .skip => False
  | .pop (.load dest) => dest = .copy
  | _ => True

/-- The producer has a block that is published and not filled yet. -/
def PushPc.filling : PushPc → Bool
  | .returned _ => true
  | _ => false

/-- No copy while the only unread block is to be filled; tests for room on a narrow window. -/
def ready (s : Threads c E) : Step c E → Prop
  | .push (.test _) => s.handed.length < s.taken.length + 2 ^ 32
  | .pop .copy => s.handed.length = s.taken.length + 1 → s.producer.filling = false
  | _ => True

instance : (e : Step c E) → Decidable (client e)
  | .push .skip => isFalse id
  | .pop (.load dest) => inferInstanceAs (Decidable (dest = .copy))
  | .push .load | .push (.test _) | .push .store | .push (.fill _) => isTrue trivial
  | .pop (.test _) | .pop .copy | .pop .store => isTrue trivial

instance (s : Threads c E) : (e : Step c E) → Decidable (ready s e)
  | .push (.test _) => Nat.decLt _ _
  | .pop .copy =>
    inferInstanceAs (Decidable (s.handed.length = s.taken.length + 1 → s.producer.filling = false))
  | .push .load | .push .store | .push (.fill _) | .push .skip => isTrue trivial
  | .pop (.load _) | .pop (.test _) | .pop .store => isTrue trivial

/-- The runs of the benchmark. -/
def benchmark (c : Shape) (mBuffer : ℕ → E) : System (Threads c E) (Step c E) :=
  (system c mBuffer).restrict fun _ e => client e

/-- Those whose steps are all ready. -/
def readyRuns (c : Shape) (mBuffer : ℕ → E) : System (Threads c E) (Step c E) :=
  (benchmark c mBuffer).restrict ready

/-- What the pops have copied, those under way included. -/
def Threads.copied (s : Threads c E) : List (Option (c.Block E)) :=
  (s.taken ++ s.consumer.read).map (Option.map Prod.snd)

/-- What the successful pops have delivered. -/
def Threads.delivered (s : Threads c E) : List (Option (c.Block E)) :=
  s.taken.map (Option.map Prod.snd)

/-- A prefix grows by the next element. -/
theorem concat_prefix {α : Type u} {l l' : List α} {x : α} (h : l <+: l')
    (hx : l'[l.length]? = some x) : l ++ [x] <+: l' := by
  obtain ⟨r, rfl⟩ := h
  rw [List.getElem?_append_right (Nat.le_refl _), Nat.sub_self] at hx
  cases r with
  | nil => cases hx
  | cons y r =>
    cases hx
    exact ⟨r, by simp⟩

/-- The unread blocks hold what was filled in, and what has been copied is what was filled in. -/
structure HandedOff (s : Threads c E) : Prop where
  holds : ∀ (i : ℕ) (block : c.Block E), s.taken.length ≤ i → s.filled[i]? = some (some block) →
    Memory.readBlock s.mBuffer (c.offset (count i)).toNat c.mWidth.toNat = block
  copied : s.copied <+: s.filled
  copies : ∀ {tail dest}, s.consumer = .loaded tail dest ∨ s.consumer = .passed tail dest →
    dest = .copy
  filled : none ∉ s.filled

namespace HandedOff

theorem start : HandedOff (Threads.start (c := c) mBuffer) :=
  ⟨by simp [Threads.start], by simp [Threads.copied, Threads.start, PopPc.read],
    by simp [Threads.start], by simp [Threads.start]⟩

/-- The fill writes the newest block, and no other unread one. -/
theorem fill (hdepth : c.mDepth.toNat = 2 ^ k) (hsize : c.mDepth.toNat * c.mWidth.toNat < 2 ^ 64)
    (hs : ((system c mBuffer).restrict narrow).Reachable s) (h : HandedOff s) {ptr : SizeT}
    (hp : s.producer = .returned ptr) (block : c.Block E) :
    HandedOff { s with
      mBuffer := Memory.writeBlock s.mBuffer ptr.toNat block
      producer := .idle, filled := s.filled ++ [some block] } := by
  obtain ⟨-, hbound, -⟩ := window hdepth hs
  obtain ⟨hlen, rfl⟩ := (Coupled.of_reachable (System.Reachable.of_restrict hs)).returned hp
  refine ⟨?_, h.copied.trans (List.prefix_append _ _), h.copies, ?_⟩
  · intro i b hi hb
    have hi : s.taken.length ≤ i := hi
    rcases Nat.lt_trichotomy i s.filled.length with hlt | rfl | hgt
    · rw [List.getElem?_append_left hlt] at hb
      have hdisjoint := disjoint_block hdepth ((slots_mul_le hdepth).trans_lt hsize) hlt
        (by omega)
      exact (Memory.readBlock_writeBlock_of_disjoint hdisjoint.symm).trans (h.holds i b hi hb)
    · rw [List.getElem?_concat_length] at hb
      cases hb
      exact Memory.readBlock_writeBlock _ _ _
    · rw [List.getElem?_eq_none (by simp; omega)] at hb
      cases hb
  · simpa using h.filled

/-- A copy that is ready reads what was filled in. -/
theorem popCopy (hdepth : c.mDepth.toNat = 2 ^ k)
    (hs : ((system c mBuffer).restrict narrow).Reachable s) (h : HandedOff s) {tail : SizeT}
    {dest : Dest} (hp : s.consumer = .passed tail dest) (hready : ready s (.pop .copy)) :
    HandedOff { s with consumer := s.read tail dest } := by
  obtain ⟨-, -, -, hholding⟩ := window hdepth hs
  have hc := Coupled.of_reachable (System.Reachable.of_restrict hs)
  obtain rfl := hc.tail (by rw [hp]; rfl)
  obtain rfl := h.copies (.inr hp)
  -- the block to be copied is filled
  have hahead : s.taken.length < s.filled.length := by
    have hlt := hholding (by rw [hp]; rfl)
    by_cases hfilling : ∃ ptr, s.producer = .returned ptr
    · obtain ⟨ptr, hret⟩ := hfilling
      have hlen := (hc.returned hret).1
      have hmore : s.handed.length ≠ s.taken.length + 1 := by
        intro hone
        have := hready hone
        simp [hret, PushPc.filling] at this
      omega
    · have := hc.settled fun ptr hret => hfilling ⟨ptr, hret⟩
      omega
  obtain ⟨block, hblock⟩ : ∃ block, s.filled[s.taken.length]? = some (some block) := by
    rw [List.getElem?_eq_getElem hahead]
    cases hget : s.filled[s.taken.length] with
    | none => exact absurd (hget ▸ List.getElem_mem hahead) h.filled
    | some block => exact ⟨block, rfl⟩
  have hread := h.holds _ block (Nat.le_refl _) hblock
  rw [← hc.read] at hread
  have hcopied := h.copied
  simp only [Threads.copied, hp, PopPc.read, List.append_nil] at hcopied
  refine ⟨h.holds, ?_, by simp [Threads.read], h.filled⟩
  simp only [Threads.copied, Threads.read, PopPc.read, List.map_append, List.map_singleton,
    Option.map_some, hread]
  exact concat_prefix hcopied (by simpa using hblock)

theorem moves (hdepth : c.mDepth.toNat = 2 ^ k) (hsize : c.mDepth.toNat * c.mWidth.toNat < 2 ^ 64)
    (hs : ((system c mBuffer).restrict narrow).Reachable s) (h : HandedOff s)
    (hclient : client e) (hready : ready s e) (hst : s.Moves e t) : HandedOff t := by
  have hcopied := h.copied
  cases hst with
  | pushLoad => exact ⟨h.holds, hcopied, h.copies, h.filled⟩
  | pushTest => exact ⟨h.holds, hcopied, h.copies, h.filled⟩
  | pushStore => exact ⟨h.holds, hcopied, h.copies, h.filled⟩
  | fill hp => exact h.fill hdepth hsize hs hp _
  | skip => exact absurd hclient id
  | popLoad hp =>
    refine ⟨h.holds, ?_, ?_, h.filled⟩
    · simpa [Threads.copied, hp, PopPc.read] using hcopied
    · rintro tail dest (⟨⟨⟩⟩ | ⟨⟨⟩⟩)
      exact hclient
  | @popTest tail dest more hp =>
    have hdest := h.copies (.inl hp)
    refine ⟨h.holds, ?_, ?_, h.filled⟩
    · cases more <;> simpa [Threads.copied, hp, PopPc.read] using hcopied
    · cases more <;> rintro tail dest (⟨⟨⟩⟩ | ⟨⟨⟩⟩)
      exact hdest
  | popCopy hp => exact h.popCopy hdepth hs hp hready
  | popStore hp =>
    refine ⟨fun i block hi => h.holds i block ?_, ?_, by simp, h.filled⟩
    · simp only [List.length_append, List.length_singleton] at hi
      omega
    · simpa [Threads.copied, hp, PopPc.read] using hcopied

end HandedOff

theorem narrow_of_ready (h : ready s e) : narrow s e := by
  unfold narrow
  split
  · exact h
  · trivial

theorem handedOff_of_ready (hdepth : c.mDepth.toNat = 2 ^ k)
    (hsize : c.mDepth.toNat * c.mWidth.toNat < 2 ^ 64) (hs : (readyRuns c mBuffer).Reachable s) :
    HandedOff s := by
  suffices h : ((system c mBuffer).restrict narrow).Reachable s ∧ HandedOff s from h.2
  refine System.invariant (S := readyRuns c mBuffer)
    (P := fun s => ((system c mBuffer).restrict narrow).Reachable s ∧ HandedOff s)
    ⟨System.Reachable.init, HandedOff.start⟩ (fun {s t e} _ h hst => ?_) hs
  obtain ⟨hready, hbench⟩ := System.restrict_step.1 hst
  obtain ⟨hclient, hstep⟩ := System.restrict_step.1 hbench
  refine ⟨h.1.step (System.restrict_step.2 ⟨narrow_of_ready hready, hstep⟩), ?_⟩
  exact h.2.moves hdepth hsize h.1 hclient hready (Threads.moves_of_step hstep)

/-- **Contents survive** in every run of the benchmark whose steps are ready: the `i`-th pop
delivers what was filled in after the `i`-th push. -/
theorem delivered_prefix_of_ready (hdepth : c.mDepth.toNat = 2 ^ k)
    (hsize : c.mDepth.toNat * c.mWidth.toNat < 2 ^ 64) (mBuffer : ℕ → E) {s : Threads c E}
    (hs : (readyRuns c mBuffer).Reachable s) : s.delivered <+: s.filled ∧ none ∉ s.delivered := by
  have h := handedOff_of_ready hdepth hsize hs
  have hpre : s.delivered <+: s.filled := by
    refine List.IsPrefix.trans ?_ h.copied
    rw [Threads.copied, List.map_append]
    exact List.prefix_append _ _
  exact ⟨hpre, fun hnone => h.filled (hpre.subset hnone)⟩

/-- The consumer keeps one block behind. -/
theorem delivered_prefix_of_ready_two : ∃ s : Threads ⟨1, 2⟩ ℕ,
    s.delivered = [some fun _ => 7] ∧ s.delivered <+: s.filled ∧ none ∉ s.delivered := by
  obtain ⟨s, hs, hp⟩ := (readyRuns ⟨1, 2⟩ fun _ => (0 : ℕ)).exists_reachable
    (p := fun s => s.delivered = [some fun _ => 7])
    [.push .load, .push (.test true), .push .store, .pop (.load .copy), .pop (.test true),
      .push (.fill fun _ => 7), .push .load, .push (.test true), .push .store, .pop .copy,
      .pop .store] (by decide)
  exact ⟨s, hp, delivered_prefix_of_ready (k := 1) (by decide) (by decide) _ hs⟩

/-- The consumer copies a block between its publication and its fill. -/
theorem exists_stale : ∃ s : Threads ⟨1, 2⟩ ℕ, (benchmark ⟨1, 2⟩ fun _ => 0).Reachable s ∧
    s.filled = [some fun _ => 7] ∧ s.delivered = [some fun _ => 0] ∧
    ¬ s.delivered <+: s.filled :=
  System.exists_reachable
    [.push .load, .push (.test true), .push .store, .pop (.load .copy), .pop (.test true),
      .pop .copy, .push (.fill fun _ => 7), .pop .store] (by decide)

/-! ## Calls that are not interrupted -/

/-- Between two calls, a state of the threads that has the buffer and the history of a session. -/
structure Threads.Stands (u : Threads c E) (s : Session c E) : Prop where
  buffer : u.toBlockBuffer = s.toBlockBuffer
  producer : u.producer = .idle
  consumer : u.consumer = .idle
  filled : u.filled = s.filled.map some
  delivered : u.delivered = s.delivered

namespace Threads

theorem run_tryPush {u : Threads c E} (hp : u.producer = .idle)
    (hroom : c.room u.mWrite u.mRead = true) (fill : c.Block E) :
    (system c mBuffer).run u [.push .load, .push (.test true), .push .store, .push (.fill fill)] =
      some { u with
        mWrite := next u.mWrite
        mBuffer := Memory.writeBlock u.mBuffer (c.offset u.mWrite).toNat fill
        producer := .idle
        handed := u.handed ++ [c.offset u.mWrite], filled := u.filled ++ [some fill] } := by
  simp [system, step, pushStep, hp, hroom, next]

theorem run_tryPush_full {u : Threads c E} (hp : u.producer = .idle)
    (hroom : c.room u.mWrite u.mRead = false) :
    (system c mBuffer).run u [.push .load, .push (.test false)] =
      some { u with producer := .idle } := by
  simp [system, step, pushStep, hp, hroom]

theorem run_tryPop {u : Threads c E} (hc : u.consumer = .idle) (hmore : u.mRead ≠ u.mWrite)
    {dest : Dest} {read : Option (SizeT × c.Block E)}
    (hread : u.read u.mRead dest = .copied u.mRead read) :
    (system c mBuffer).run u [.pop (.load dest), .pop (.test true), .pop .copy, .pop .store] =
      some { u with mRead := next u.mRead, consumer := .idle, taken := u.taken ++ [read] } := by
  have hcopy : ∀ pc, Threads.read { u with consumer := pc } u.mRead dest = .copied u.mRead read :=
    fun _ => by rw [← hread]; rfl
  simp [system, step, popStep, hc, hmore, hcopy, next]

theorem run_tryPop_empty {u : Threads c E} (hc : u.consumer = .idle) (hmore : u.mRead = u.mWrite)
    (dest : Dest) :
    (system c mBuffer).run u [.pop (.load dest), .pop (.test false)] =
      some { u with consumer := .idle } := by
  simp [system, step, popStep, hc, hmore]

/-- The steps of a call taken one after the other are the call. -/
theorem Stands.call {u : Threads c E} {s t : Session c E} (h : u.Stands s) (mBuffer : ℕ → E)
    {e : Call c E} (hst : s.call c e = some t) :
    ∃ v, (system c mBuffer).Reaches u v ∧ v.Stands t := by
  obtain ⟨hbuffer, hp, hc, hfilled, hdelivered⟩ := h
  have hwrite : u.mWrite = s.mWrite := congrArg BlockBuffer.mWrite hbuffer
  have hread : u.mRead = s.mRead := congrArg BlockBuffer.mRead hbuffer
  have hmem : u.mBuffer = s.mBuffer := congrArg BlockBuffer.mBuffer hbuffer
  cases e with
  | tryPush fill =>
    by_cases hroom : c.room s.mWrite s.mRead = true
    · rw [Session.call_tryPush hroom] at hst
      cases hst
      refine ⟨_, System.reaches_of_run (run_tryPush hp (by rwa [hwrite, hread]) fill), ?_⟩
      refine ⟨?_, rfl, hc, by simp [hfilled], hdelivered⟩
      simp [hwrite, hread, hmem]
    · rw [Session.call_tryPush_full hroom] at hst
      cases hst
      refine ⟨_, System.reaches_of_run (run_tryPush_full hp ?_), hbuffer, rfl, hc, hfilled,
        hdelivered⟩
      rwa [hwrite, hread, ← Bool.not_eq_true]
  | tryPop dest =>
    by_cases hmore : s.mRead = s.mWrite
    · rw [Session.call_tryPop_empty hmore] at hst
      cases hst
      exact ⟨_, System.reaches_of_run (run_tryPop_empty hc (by rw [hread, hwrite, hmore]) dest),
        hbuffer, hp, rfl, hfilled, hdelivered⟩
    · by_cases hdest : dest = .null
      · rw [hdest, Session.call_tryPop_null hmore] at hst
        cases hst
      · rw [Session.call_tryPop hmore hdest] at hst
        cases hst
        obtain ⟨read, hcopied, hreceived⟩ : ∃ read, u.read u.mRead dest = .copied u.mRead read ∧
            read.map Prod.snd = s.received c dest := by
          rw [Session.received.eq_def, ← hmem, ← hread]
          cases dest with
          | null => exact absurd rfl hdest
          | discard => exact ⟨_, rfl, rfl⟩
          | copy => exact ⟨_, rfl, rfl⟩
        have hmore' : u.mRead ≠ u.mWrite := by rwa [hread, hwrite]
        refine ⟨_, System.reaches_of_run (run_tryPop hc hmore' hcopied), ?_, hp, rfl, hfilled, ?_⟩
        · simp [hwrite, hread, hmem]
        · simp only [Threads.delivered, List.map_append, List.map_singleton, hreceived]
          rw [← hdelivered, Threads.delivered]

/-- Every sequence of calls is a run under the scheduler. -/
theorem exists_stands {s : Session c E} (hs : (calls c mBuffer).Reachable s) :
    ∃ u, (system c mBuffer).Reachable u ∧ u.Stands s := by
  refine System.invariant (P := fun s => ∃ u, (system c mBuffer).Reachable u ∧ u.Stands s)
    ⟨_, System.Reachable.init, rfl, rfl, rfl, rfl, rfl⟩ (fun {s t e} _ h hst => ?_) hs
  obtain ⟨u, hu, hstands⟩ := h
  obtain ⟨v, hv, hstands'⟩ := hstands.call mBuffer hst
  exact ⟨v, hu.trans hv, hstands'⟩

end Threads

end ThreadTests.Arene
