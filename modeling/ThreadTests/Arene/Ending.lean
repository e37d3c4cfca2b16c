import ThreadTests.Arene.Deadlock
import ThreadTests.Core.Fair

/-!
# When the benchmark ends

Both threads of `test_arene` repeat what fails: the writer its `try_push` while the buffer is full,
the reader its turn while it is not behind enough, or, without a latency, its `try_pop` while there
is nothing to pop. In every state but a deadlock one of them can go on
(`Loops.mayWrite_or_mayRead`), and comes closer to the end whatever the other one does meanwhile
(`helps`). So under a fair scheduler the benchmark ends, unless it may deadlock
(`latencyRun_ends_iff`).
-/

namespace ThreadTests.Arene

universe u

variable {p : Setup} {E : Type u} {junk : p.shape.Block E} {mBuffer : ℕ → E}

namespace PushPc

/-- How many steps the call has before it, if it succeeds, the fill included. -/
def stage : PushPc → ℕ
  | .idle => 4
  | .loaded .. => 3
  | .granted .. => 2
  | .returned _ => 1

theorem stage_bounds (pc : PushPc) : 0 < pc.stage ∧ pc.stage ≤ 4 := by cases pc <;> simp [stage]

end PushPc

namespace PopPc

def stage {c : Shape} : PopPc c E → ℕ
  | .idle => 4
  | .loaded .. => 3
  | .passed .. => 2
  | .copied .. => 1
  | .fault => 1

theorem stage_bounds {c : Shape} (pc : PopPc c E) : 0 < pc.stage ∧ pc.stage ≤ 4 := by
  cases pc <;> simp [stage]

end PopPc

/-- A move is a step, so the moves say all that a step needs. -/
theorem Threads.Moves.step_eq {c : Shape} {s t : Threads c E} {e : Step c E} (h : s.Moves e t) :
    s.step e = some t := by
  cases h with
  | pushLoad h => simp only [step, pushStep, h]
  | pushTest h hr => simp only [step, pushStep, h, hr, if_true]
  | pushStore h => simp only [step, pushStep, h]
  | fill h => simp only [step, pushStep, h]
  | skip h => simp only [step, pushStep, h]
  | popLoad h => simp only [step, popStep, h]
  | popTest h hm => simp only [step, popStep, h, hm, if_true]
  | popCopy h => simp only [step, popStep, h]
  | popStore h => simp only [step, popStep, h]

namespace Bench

variable {s t : Bench p E} {e : BenchStep}

/-- Both threads have returned. -/
structure Finished (s : Bench p E) : Prop where
  handed : s.handed.length = p.total
  taken : s.taken.length = p.total
  producer : s.producer = .idle
  consumer : s.consumer = .idle

/-- What the loops of the two threads keep, with or without a latency. -/
structure Loops (s : Bench p E) : Prop where
  handed : s.handed.length ≤ p.total
  pending : s.producer.phase ≠ .idle → s.handed.length < p.total
  taken : s.taken.length ≤ p.total
  more : s.consumer ≠ .idle → s.taken.length < p.total
  popping : s.consumer ≠ .idle → s.reader = .popping
  copies : ∀ {tail dest}, s.consumer = .loaded tail dest ∨ s.consumer = .passed tail dest →
    dest = .copy
  runs : s.consumer ≠ .fault
  spins : p.latency = 0 → s.reader = .popping

namespace Loops

theorem start : Loops (Bench.start p mBuffer) := by
  refine ⟨Nat.zero_le _, fun h => absurd rfl h, Nat.zero_le _, fun h => absurd rfl h,
    fun h => absurd rfl h, nofun, nofun, fun hlat => ?_⟩
  change (if 0 < p.latency then Reader.waiting else .popping) = .popping
  rw [hlat]
  rfl

theorem write (h : Loops s) {e : WriteStep} {t : Threads p.shape E}
    (hload : e = .load → (s.handed.length : ℤ) < p.nelements.toInt)
    (hst : s.toThreads.Moves (.push (e.push junk)) t) : Loops { s with toThreads := t } := by
  obtain ⟨htaken, hcons, -⟩ := hst.push_frame
  have hcount : t.handed.length ≤ p.total ∧
      (t.producer.phase ≠ .idle → t.handed.length < p.total) := by
    have hhanded := h.handed
    have hpending := h.pending
    cases e with
    | load =>
      cases hst
      exact ⟨hhanded, fun _ => Setup.lt_total_iff.1 (hload rfl)⟩
    | test room =>
      cases hst with
      | pushTest hp => exact ⟨hhanded, fun _ => hpending (by simp [hp, PushPc.phase])⟩
    | store =>
      cases hst with
      | pushStore hp =>
        have := hpending (by simp [hp, PushPc.phase])
        exact ⟨by simpa using Nat.succ_le_of_lt this, fun hphase => absurd rfl hphase⟩
    | fill =>
      cases hst
      exact ⟨hhanded, fun hphase => absurd rfl hphase⟩
  refine ⟨hcount.1, hcount.2, ?_, ?_, ?_, ?_, ?_, h.spins⟩
  · exact htaken ▸ h.taken
  · exact htaken ▸ hcons ▸ h.more
  · exact hcons ▸ h.popping
  · exact hcons ▸ h.copies
  · exact hcons ▸ h.runs

theorem pop (h : Loops s) {e : PopStep} {t : Threads p.shape E} (hpop : s.mayPop e)
    (hst : s.toThreads.Moves (.pop e) t) :
    Loops { toThreads := t, reader := if e = .store then p.enter else .popping } := by
  cases hst with
  | popLoad hc =>
    refine ⟨h.handed, h.pending, h.taken, fun _ => Setup.lt_total_iff.1 hpop.2, fun _ => rfl, ?_,
      nofun, fun _ => rfl⟩
    rintro tail dest (⟨⟨⟩⟩ | ⟨⟨⟩⟩)
    exact hpop.1
  | @popTest tail dest more hc hm =>
    have hdest := h.copies (.inl hc)
    refine ⟨h.handed, h.pending, h.taken, fun _ => h.more (by simp [hc]), fun _ => rfl, ?_, ?_,
      fun _ => rfl⟩
    · cases more <;> rintro tail dest (⟨⟨⟩⟩ | ⟨⟨⟩⟩)
      exact hdest
    · cases more <;> nofun
  | @popCopy tail dest hc =>
    obtain rfl := h.copies (.inr hc)
    exact ⟨h.handed, h.pending, h.taken, fun _ => h.more (by simp [hc]), fun _ => rfl, nofun, nofun,
      fun _ => rfl⟩
  | popStore hc =>
    refine ⟨h.handed, h.pending, ?_, fun hne => absurd rfl hne, fun hne => absurd rfl hne, nofun,
      nofun, fun hlat => ?_⟩
    · simpa using Nat.succ_le_of_lt (h.more (by simp [hc]))
    · rw [if_pos rfl, Setup.enter, hlat]
      rfl

theorem moves (h : Loops s) (hst : s.Moves junk e t) : Loops t := by
  have hidle : s.reader ≠ .popping → s.consumer = .idle := fun hr => by
    by_contra hne
    exact hr (h.popping hne)
  cases hst with
  | write hload hst => exact h.write hload hst
  | head hr =>
    have hidle := hidle (by simp [hr])
    exact ⟨h.handed, h.pending, h.taken, h.more, fun hne => absurd hidle hne, h.copies, h.runs,
      fun hlat => absurd (h.spins hlat) (by simp [hr])⟩
  | tail hr =>
    have hidle := hidle (by simp [hr])
    exact ⟨h.handed, h.pending, h.taken, h.more, fun hne => absurd hidle hne, h.copies, h.runs,
      fun hlat => absurd (h.spins hlat) (by simp [hr])⟩
  | leave hr =>
    have hidle := hidle (by simp [hr])
    exact ⟨h.handed, h.pending, h.taken, h.more, fun hne => absurd hidle hne, h.copies, h.runs,
      fun hlat => absurd (h.spins hlat) (by simp [hr])⟩
  | pop hr hpop hst => exact h.pop hpop hst

end Loops

theorem loops_of_reachable (hs : (latencyRun p junk mBuffer).Reachable s) : Loops s :=
  System.invariant (P := Loops) .start (fun _ h hst => h.moves (latencyRun_moves hst)) hs

/-! ## Who can go on -/

/-- The writer has a block to fill, or a push to make and room for it. -/
def MayWrite (s : Bench p E) : Prop :=
  s.filled.length < s.handed.length ∨
    s.handed.length < p.total ∧ s.handed.length < s.taken.length + p.shape.mDepth.toNat

/-- The reader has a pop to make, and need not wait. -/
def MayRead (s : Bench p E) : Prop :=
  s.taken.length < p.total ∧ s.taken.length < s.handed.length ∧ (p.latency ≠ 0 → s.Behind)

instance (s : Bench p E) : Decidable s.MayWrite := inferInstanceAs (Decidable (_ ∨ _))

instance (s : Bench p E) : Decidable s.Behind := inferInstanceAs (Decidable (_ ∨ _))

instance (s : Bench p E) : Decidable s.MayRead := inferInstanceAs (Decidable (_ ∧ _ ∧ _))

/-- The writer goes first where it can; otherwise the reader can. -/
def helper (s : Bench p E) : Bool := decide s.MayWrite

/-- How many pushes, fills and pops are to be made. -/
def calls (s : Bench p E) : ℕ :=
  p.total - s.handed.length + (p.total - s.filled.length) + (p.total - s.taken.length)

/-- The steps of a turn of the reader that succeeds; a turn on an old `head()` may have to be made
again. -/
def readerStage (s : Bench p E) : ℕ :=
  match s.reader with
  | .waiting => 7
  | .loadedHead head => if p.satisfied head s.mRead then 6 else 9
  | .loadedTail head tail => if p.satisfied head tail then 5 else 8
  | .popping => s.consumer.stage

def writerLeft (s : Bench p E) : ℕ := if s.MayWrite then s.producer.stage else 4

def readerLeft (s : Bench p E) : ℕ := if s.MayRead then s.readerStage else 9

/-- What is left to do. -/
def rank (s : Bench p E) : ℕ := 16 * s.calls + s.writerLeft + s.readerLeft

theorem rank_bounds (s : Bench p E) :
    16 * s.calls < s.rank ∧ s.rank ≤ 16 * s.calls + 13 := by
  have hproducer := s.producer.stage_bounds
  have hconsumer := s.consumer.stage_bounds
  have hreader : 0 < s.readerStage ∧ s.readerStage ≤ 9 := by
    unfold readerStage
    split
    · omega
    · split <;> omega
    · split <;> omega
    · omega
  unfold rank writerLeft readerLeft
  split <;> split <;> omega

theorem rank_lt_of_calls (hlt : t.calls < s.calls) : t.rank < s.rank := by
  have := s.rank_bounds.1
  have := t.rank_bounds.2
  omega

/-- A step comes closer to the end, or is one of a thread that does not help. -/
def Closer (writer : Bool) (s t : Bench p E) : Prop :=
  t.rank < s.rank ∨ t.rank = s.rank ∧ t.helper = s.helper ∧ writer ≠ s.helper

/-- A step of the writer within its call. -/
theorem closer_write {pc : PushPc} (hstage : s.MayWrite → pc.stage < s.producer.stage) :
    Closer true s { s with producer := pc } := by
  have hreader : readerLeft { s with producer := pc } = s.readerLeft := rfl
  have hcalls : calls { s with producer := pc } = s.calls := rfl
  by_cases hmay : s.MayWrite
  · have hlt := hstage hmay
    have hleft : writerLeft { s with producer := pc } = pc.stage := if_pos hmay
    have hleft' : s.writerLeft = s.producer.stage := if_pos hmay
    refine .inl ?_
    unfold rank
    omega
  · have hleft : writerLeft { s with producer := pc } = 4 := if_neg hmay
    have hleft' : s.writerLeft = 4 := if_neg hmay
    have hhelper : s.helper = false := decide_eq_false hmay
    refine .inr ⟨?_, rfl, ?_⟩
    · unfold rank
      omega
    · rw [hhelper]
      exact Bool.noConfusion

/-- A step of the reader within its turn; it helps only where it can pop. -/
theorem closer_read {pc : PopPc p.shape E} {reader : Reader}
    (hstage : s.MayRead → readerStage { s with consumer := pc, reader := reader } < s.readerStage)
    (hhelps : ¬ s.MayRead → s.MayWrite) :
    Closer false s { s with consumer := pc, reader := reader } := by
  have hwriter : writerLeft { s with consumer := pc, reader := reader } = s.writerLeft := rfl
  have hcalls : calls { s with consumer := pc, reader := reader } = s.calls := rfl
  by_cases hmay : s.MayRead
  · have hlt := hstage hmay
    have hleft : readerLeft { s with consumer := pc, reader := reader } =
        readerStage { s with consumer := pc, reader := reader } := if_pos hmay
    have hleft' : s.readerLeft = s.readerStage := if_pos hmay
    refine .inl ?_
    unfold rank
    omega
  · have hleft : readerLeft { s with consumer := pc, reader := reader } = 9 := if_neg hmay
    have hleft' : s.readerLeft = 9 := if_neg hmay
    have hhelper : s.helper = true := decide_eq_true (hhelps hmay)
    refine .inr ⟨?_, rfl, ?_⟩
    · unfold rank
      omega
    · rw [hhelper]
      exact Bool.noConfusion

/-- The runs that do not deadlock. -/
def EndsAlways (p : Setup) : Prop :=
  ¬ (0 < p.latency ∧ p.shape.mDepth.toNat ≤ p.latency.toNat ∧ p.shape.mDepth.toNat < p.total)

/-- What the progress of the two threads rests on. -/
structure Window (s : Bench p E) : Prop where
  le : s.taken.length ≤ s.handed.length
  bound : s.handed.length ≤ s.taken.length + p.shape.mDepth.toNat
  filled : s.filled.length ≤ s.handed.length

theorem window_of_reachable {k : ℕ} (hdepth : p.shape.mDepth.toNat = 2 ^ k) (hk : k ≤ 31)
    (hs : (latencyRun p junk mBuffer).Reachable s) : Window s := by
  obtain ⟨hle, hbound, -⟩ := window hdepth (narrow_of_reachable hdepth hk (threads_of_reachable hs))
  rw [slots_eq (by omega), ← hdepth] at hbound
  have hc := coupled_of_reachable hs
  refine ⟨hle, hbound, ?_⟩
  by_cases hreturned : ∃ ptr, s.producer = .returned ptr
  · obtain ⟨ptr, hp⟩ := hreturned
    have := (hc.returned hp).1
    omega
  · exact (hc.settled fun ptr hp => hreturned ⟨ptr, hp⟩).le

/-- **One of the threads can go on**, until both have returned. -/
theorem Loops.mayWrite_or_mayRead (h : Loops s) (hw : Window s) (hpos : 0 < p.shape.mDepth.toNat)
    (hends : EndsAlways p) (hcalls : 0 < s.calls) : s.MayWrite ∨ s.MayRead := by
  have hhanded := h.handed
  have htaken := h.taken
  obtain ⟨hle, hbound, hfilled⟩ := hw
  by_contra hnone
  obtain ⟨hwrite, hread⟩ := not_or.1 hnone
  unfold MayWrite at hwrite
  unfold MayRead Behind at hread
  unfold calls at hcalls
  unfold EndsAlways at hends
  by_cases hlat : p.latency = 0
  · have : ¬ (s.taken.length < p.total ∧ s.taken.length < s.handed.length) := fun hand =>
      hread ⟨hand.1, hand.2, fun hne => absurd hlat hne⟩
    omega
  · have hpos : 0 < p.latency := by
      rw [BitVec.lt_def]
      exact Nat.pos_of_ne_zero fun hzero => hlat (BitVec.eq_of_toNat_eq hzero)
    have hsafe : ¬ (p.shape.mDepth.toNat ≤ p.latency.toNat ∧ p.shape.mDepth.toNat < p.total) :=
      fun hand => hends ⟨hpos, hand⟩
    have : ¬ (s.taken.length < p.total ∧ s.taken.length < s.handed.length ∧
        (p.latency.toNat < s.handed.length - s.taken.length ∨ s.handed.length = p.total)) :=
      fun hand => hread ⟨hand.1, hand.2.1, fun _ => hand.2.2⟩
    omega

/-- The threads return from their last calls. -/
theorem Loops.finished (h : Loops s) (hw : Window s) (hc : Coupled s.toThreads)
    (hcalls : s.calls = 0) : s.Finished := by
  have hhanded := h.handed
  have htaken := h.taken
  have hle := hw.filled
  unfold calls at hcalls
  refine ⟨by omega, by omega, ?_, ?_⟩
  · cases hp : s.producer with
    | idle => rfl
    | loaded | granted =>
      have := h.pending (by simp [hp, PushPc.phase])
      omega
    | returned ptr =>
      have := (hc.returned hp).1
      omega
  · by_contra hne
    have := h.more hne
    omega

/-! ## Every step of the helper comes closer -/

theorem pos_latency (h : Loops s) (hr : s.reader ≠ .popping) : 0 < p.latency := by
  rw [BitVec.lt_def]
  exact Nat.pos_of_ne_zero fun hzero => hr (h.spins (BitVec.eq_of_toNat_eq hzero))

theorem closer_of_write (hs : (latencyRun p junk mBuffer).Reachable s) (hw : Window s)
    {e : WriteStep} (hst : s.Moves junk (.write e) t) : Closer true s t := by
  have h := loops_of_reachable hs
  have hc := coupled_of_reachable hs
  have htotal := p.total_lt
  have hhanded := h.handed
  cases hst with
  | write hload hst =>
    cases e with
    | load =>
      cases hst with
      | pushLoad hp => exact closer_write fun _ => by rw [hp]; exact Nat.lt_succ_self 3
    | test room =>
      cases hst with
      | pushTest hp hr =>
        refine closer_write fun hmay => ?_
        obtain ⟨rfl, -⟩ := hc.loaded hp
        have hfilled := hc.settled (by simp [hp])
        have hroom : p.shape.room s.mWrite s.mRead = true := by
          rw [hc.write, hc.read]
          refine (room_iff_of_lt hw.le (by omega)).2 ?_
          unfold MayWrite at hmay
          omega
        rw [hroom] at hr
        rw [← hr, hp]
        exact Nat.lt_succ_self 2
    | store =>
      cases hst with
      | pushStore hp =>
        have hlt := h.pending (by simp [hp, PushPc.phase])
        refine .inl (rank_lt_of_calls ?_)
        simp only [calls, List.length_append, List.length_singleton]
        omega
    | fill =>
      cases hst with
      | fill hp =>
        have hlen := (hc.returned hp).1
        refine .inl (rank_lt_of_calls ?_)
        simp only [calls, List.length_append, List.length_singleton]
        omega

/-- A reader that may go on finds its condition true, when it loads the counters now. -/
theorem MayRead.satisfied (hmay : s.MayRead) (h : Loops s) (hw : Window s)
    (hc : Coupled s.toThreads) (hlat : 0 < p.latency) :
    p.satisfied s.mWrite s.mRead = true := by
  obtain ⟨hlt, -, hbehind⟩ := hmay
  have hne : p.latency ≠ 0 := by
    rintro hzero
    rw [hzero] at hlat
    exact absurd hlat (by decide)
  rw [hc.write, hc.read]
  exact (Setup.satisfied_iff (by omega) hw.le h.handed).2 (hbehind hne)

/-- A step of the reader in its `try_pop`. -/
theorem closer_of_pop (hs : (latencyRun p junk mBuffer).Reachable s) (hr : s.reader = .popping)
    (hhelps : s.taken.length < p.total → ¬ s.MayRead → s.MayWrite) {e : PopStep}
    {t : Threads p.shape E} (hpop : s.mayPop e) (hst : s.toThreads.Moves (.pop e) t) :
    Closer false s { toThreads := t, reader := if e = .store then p.enter else .popping } := by
  have h := loops_of_reachable hs
  have hc := coupled_of_reachable hs
  have htotal := p.total_lt
  have hhanded := h.handed
  have hstage : ∀ {pc : PopPc p.shape E}, pc.stage < s.consumer.stage →
      readerStage { s with consumer := pc, reader := .popping } < s.readerStage := by
    intro pc hlt
    simpa only [readerStage, hr] using hlt
  cases hst with
  | popLoad hcons =>
    exact closer_read (fun _ => hstage (by rw [hcons]; exact Nat.lt_succ_self 3))
      (hhelps (Setup.lt_total_iff.1 hpop.2))
  | @popTest tail dest more hcons hm =>
    refine closer_read (fun hmay => hstage ?_) (hhelps (h.more (by simp [hcons])))
    obtain rfl := hc.tail (by rw [hcons]; rfl)
    have hne : s.mRead ≠ s.mWrite := by
      rw [hc.write, hc.read]
      exact count_ne hmay.2.1 (by omega)
    rw [← hm, decide_eq_true hne, hcons]
    exact Nat.lt_succ_self 2
  | @popCopy tail dest hcons =>
    obtain rfl := h.copies (.inr hcons)
    exact closer_read (fun _ => hstage (by rw [hcons]; exact Nat.lt_succ_self 1))
      (hhelps (h.more (by simp [hcons])))
  | popStore hcons =>
    have hlt := h.more (by simp [hcons])
    refine .inl (rank_lt_of_calls ?_)
    simp only [calls, List.length_append, List.length_singleton]
    omega

theorem closer_of_read (hs : (latencyRun p junk mBuffer).Reachable s) (hw : Window s)
    (hpos : 0 < p.shape.mDepth.toNat) (hends : EndsAlways p) (he : e.isWrite = false)
    (hst : s.Moves junk e t) : Closer false s t := by
  have h := loops_of_reachable hs
  have hc := coupled_of_reachable hs
  have hhelps : s.taken.length < p.total → ¬ s.MayRead → s.MayWrite := fun hlt hnot =>
    (h.mayWrite_or_mayRead hw hpos hends (by unfold calls; omega)).resolve_right hnot
  cases hst with
  | write => cases he
  | head hr hlt =>
    refine closer_read (fun hmay => ?_) (hhelps (Setup.lt_total_iff.1 hlt))
    have hsat := hmay.satisfied h hw hc (pos_latency h (by simp [hr]))
    simp [readerStage, hr, hsat]
  | @tail head hr =>
    have hlat := pos_latency h (by simp [hr])
    refine closer_read (fun _ => ?_) (hhelps ((inv_of_reachable hlat hs).more (by simp [hr])))
    simp only [readerStage, hr]
    split <;> omega
  | @leave head tail satisfied hr hsat =>
    have hlat := pos_latency h (by simp [hr])
    have hinv := inv_of_reachable hlat hs
    refine closer_read (fun _ => ?_) (hhelps (hinv.more (by simp [hr])))
    cases satisfied with
    | true => simp [readerStage, hr, hsat, hinv.idle, PopPc.stage]
    | false => simp [readerStage, hr, hsat]
  | pop hr hpop hst => exact closer_of_pop hs hr hhelps hpop hst

theorem Moves.step_eq (h : s.Moves junk e t) : s.step junk e = some t := by
  cases h with
  | write hload h =>
    simp only [step, if_pos hload]
    rw [show s.toThreads.pushStep _ = some _ from h.step_eq]
    rfl
  | head h hlt =>
    simp only [step, h, if_pos hlt]
    rfl
  | tail h =>
    simp only [step, h]
    rfl
  | leave h hs => simp only [step, h, if_pos hs]
  | pop hr hpop h =>
    simp only [step, hr, if_pos hpop]
    rw [show s.toThreads.popStep _ = some _ from h.step_eq]
    rfl

theorem enabled_of_moves (hst : s.Moves junk e t) :
    (latencyRun p junk mBuffer).Enabled BenchStep.isWrite e.isWrite s :=
  ⟨e, t, rfl, hst.step_eq⟩

theorem writer_enabled (hc : Coupled s.toThreads) (hmay : s.MayWrite) :
    (latencyRun p junk mBuffer).Enabled BenchStep.isWrite true s := by
  cases hp : s.producer with
  | idle =>
    have hfilled := hc.settled (by simp [hp])
    have hlt : s.handed.length < p.total := by
      unfold MayWrite at hmay
      omega
    exact enabled_of_moves (e := .write .load) (.write (fun _ => Setup.lt_total_iff.2 hlt)
      (.pushLoad hp))
  | loaded => exact enabled_of_moves (e := .write (.test _)) (.write nofun (.pushTest hp rfl))
  | granted => exact enabled_of_moves (e := .write .store) (.write nofun (.pushStore hp))
  | returned => exact enabled_of_moves (e := .write .fill) (.write nofun (.fill hp))

theorem reader_enabled (h : Loops s) (hmay : s.MayRead) :
    (latencyRun p junk mBuffer).Enabled BenchStep.isWrite false s := by
  have hlt := Setup.lt_total_iff.2 hmay.1
  cases hr : s.reader with
  | waiting => exact enabled_of_moves (e := .head) (.head hr hlt)
  | loadedHead => exact enabled_of_moves (e := .tail) (.tail hr)
  | loadedTail => exact enabled_of_moves (e := .leave _) (.leave hr rfl)
  | popping =>
    cases hcons : s.consumer with
    | idle => exact enabled_of_moves (e := .pop (.load .copy)) (.pop hr ⟨rfl, hlt⟩ (.popLoad hcons))
    | loaded => exact enabled_of_moves (e := .pop (.test _)) (.pop hr trivial (.popTest hcons rfl))
    | passed => exact enabled_of_moves (e := .pop .copy) (.pop hr trivial (.popCopy hcons))
    | copied => exact enabled_of_moves (e := .pop .store) (.pop hr trivial (.popStore hcons))
    | fault => exact absurd hcons h.runs

/-- **The helper comes closer to the end**, whatever the other thread does. -/
theorem helps {k : ℕ} (hdepth : p.shape.mDepth.toNat = 2 ^ k) (hk : k ≤ 31) (hends : EndsAlways p)
    (junk : p.shape.Block E) (mBuffer : ℕ → E) :
    System.Helps (latencyRun p junk mBuffer) BenchStep.isWrite Finished rank helper where
  enabled {s} hs hnot := by
    have h := loops_of_reachable hs
    have hw := window_of_reachable hdepth hk hs
    have hc := coupled_of_reachable hs
    have hpos : 0 < p.shape.mDepth.toNat := hdepth ▸ Nat.two_pow_pos k
    have hcalls : 0 < s.calls := Nat.pos_of_ne_zero fun hzero => hnot (h.finished hw hc hzero)
    by_cases hmay : s.MayWrite
    · rw [show s.helper = true from decide_eq_true hmay]
      exact writer_enabled hc hmay
    · rw [show s.helper = false from decide_eq_false hmay]
      exact reader_enabled h ((h.mayWrite_or_mayRead hw hpos hends hcalls).resolve_left hmay)
  step {s t e} hs _ hst := by
    have hw := window_of_reachable hdepth hk hs
    have hpos : 0 < p.shape.mDepth.toNat := hdepth ▸ Nat.two_pow_pos k
    have hmoves := latencyRun_moves hst
    cases he : e.isWrite with
    | true =>
      cases e with
      | write e => exact closer_of_write hs hw hmoves
      | _ => cases he
    | false => exact closer_of_read hs hw hpos hends he hmoves

/-! ## The end -/

/-- Nothing is pushed, filled or popped after the end. -/
theorem Finished.moves (h : s.Finished) (hst : s.Moves junk e t) : t.Finished := by
  obtain ⟨hhanded, htaken, hproducer, hconsumer⟩ := h
  cases hst with
  | @write e t hload hst =>
    cases e with
    | load =>
      have := Setup.lt_total_iff.1 (hload rfl)
      omega
    | test room =>
      cases hst with
      | pushTest hp => cases hproducer.symm.trans hp
    | store =>
      cases hst with
      | pushStore hp => cases hproducer.symm.trans hp
    | fill =>
      cases hst with
      | fill hp => cases hproducer.symm.trans hp
  | head | tail | leave => exact ⟨hhanded, htaken, hproducer, hconsumer⟩
  | @pop e t hr hpop hst =>
    cases hst with
    | popLoad =>
      have := Setup.lt_total_iff.1 hpop.2
      omega
    | popTest hcons => cases hconsumer.symm.trans hcons
    | popCopy hcons => cases hconsumer.symm.trans hcons
    | popStore hcons => cases hconsumer.symm.trans hcons

/-- Under a fair scheduler the benchmark ends, and stays there. -/
theorem ends_of_fair {k : ℕ} (hdepth : p.shape.mDepth.toNat = 2 ^ k) (hk : k ≤ 31)
    (hends : EndsAlways p) {x : (latencyRun p junk mBuffer).Execution}
    (hx : x.Fair BenchStep.isWrite) : ∃ n, ∀ m, n ≤ m → (x.state m).Finished := by
  obtain ⟨n, hn⟩ := x.eventually (helps hdepth hk hends junk mBuffer) hx
  exact ⟨n, fun m hnm => x.stable (fun _ h hst => h.moves (latencyRun_moves hst)) hn hnm⟩

theorem exists_turn (writer : Bool) (n : ℕ) : ∃ m, n ≤ m ∧ decide (m % 2 = 0) = writer := by
  cases writer with
  | true => exact ⟨2 * n, by omega, decide_eq_true (by omega)⟩
  | false => exact ⟨2 * n + 1, by omega, decide_eq_false (by omega)⟩

/-- A deadlock has no end. -/
theorem Deadlocked.not_finished (h : s.Deadlocked junk mBuffer)
    (hst : (latencyRun p junk mBuffer).Reaches s t) : ¬ t.Finished := by
  intro hfinished
  obtain ⟨-, -, -, htaken⟩ := h.stuck t hst
  have hreader := h.reader
  rw [ReaderDone, ← htaken, hfinished.taken] at hreader
  exact hreader (Nat.le_refl _)

end Bench

open Bench in
/-- **When `test_arene` ends** under every fair scheduler: without a latency, with one below the
number of blocks, or when the elements fit into the buffer. -/
theorem latencyRun_ends_iff {nelements : CInt} {nbits : ℕ} {width : CInt} {latency : SizeT}
    (hbits : nbits ≤ 29) (junk : (Setup.main nelements nbits width latency).shape.Block E)
    (mBuffer : ℕ → E) :
    (∀ x : (latencyRun _ junk mBuffer).Execution, x.Fair BenchStep.isWrite →
      ∃ n, ∀ m, n ≤ m → (x.state m).Finished) ↔
      latency = 0 ∨ latency.toNat < (bufsize nbits).toNat ∨
        nelements.toInt ≤ (bufsize nbits).toNat := by
  have hdepth := toNat_intToSize_bufsize hbits
  have hregion : (latency = 0 ∨ latency.toNat < (bufsize nbits).toNat ∨
      nelements.toInt ≤ (bufsize nbits).toNat) ↔
      EndsAlways (Setup.main nelements nbits width latency) := by
    have hzero : latency = 0 ↔ latency.toNat = 0 := BitVec.toNat_inj.symm
    have hpos : 0 < latency ↔ 0 < latency.toNat := BitVec.lt_def
    change _ ↔ ¬ (0 < latency ∧ (intToSize (bufsize nbits)).toNat ≤ latency.toNat ∧
      (intToSize (bufsize nbits)).toNat < nelements.toInt.toNat)
    rw [hzero, hpos, hdepth, toNat_bufsize hbits]
    omega
  rw [hregion]
  constructor
  · intro hends hdead
    obtain ⟨hpos, hlat, hlt⟩ := hdead
    obtain ⟨s, hs, hstuck⟩ := exists_deadlocked (p := Setup.main nelements nbits width latency)
      hdepth (by omega) hpos hlat hlt junk mBuffer
    obtain ⟨x, hx, n, hn⟩ := hs.exists_fair BenchStep.isWrite exists_turn
    obtain ⟨m, hm⟩ := hends x hx
    have hreaches := x.reaches (Nat.le_max_right m n)
    rw [hn] at hreaches
    exact hstuck.not_finished hreaches (hm _ (Nat.le_max_left m n))
  · intro hends x hx
    exact ends_of_fair (p := Setup.main nelements nbits width latency) hdepth (by omega) hends hx

/-- Nine elements, a buffer of four blocks: it ends with a latency of three, and not with one of
four. -/
theorem latencyRun_ends_iff_four :
    (∀ x : (latencyRun (Setup.main 9 1 1 3) (fun _ => (0 : ℕ)) fun _ => 0).Execution,
      x.Fair BenchStep.isWrite → ∃ n, ∀ m, n ≤ m → (x.state m).Finished) ∧
    ¬ ∀ x : (latencyRun (Setup.main 9 1 1 4) (fun _ => (0 : ℕ)) fun _ => 0).Execution,
      x.Fair BenchStep.isWrite → ∃ n, ∀ m, n ≤ m → (x.state m).Finished := by
  constructor
  · exact (latencyRun_ends_iff (by decide) _ _).2 (.inr (.inl (by decide)))
  · rw [latencyRun_ends_iff (by decide)]
    decide

end ThreadTests.Arene
