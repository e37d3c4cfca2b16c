import ThreadTests.Arene.Latency

/-!
# When the latency run deadlocks

The writer waits for room, the reader for more than `latency` unread blocks. Both wait forever when
the buffer is full and not over the latency, unless the elements have run out. That state is within
reach when `latency` is at least the depth and there are more elements than slots, and no other
deadlock is (`deadlock_iff`): otherwise one of the threads, left alone, completes its next call
(`progresses_of_reachable`).
-/

namespace ThreadTests.Arene

universe u

variable {p : Setup} {E : Type u} {junk : p.shape.Block E} {mBuffer : ℕ → E}

namespace Bench

def WriterDone (s : Bench p E) : Prop := p.total ≤ s.handed.length ∧ s.producer = .idle

def ReaderDone (s : Bench p E) : Prop := p.total ≤ s.taken.length

/-- Neither thread is done, and whatever happens from here on, every `try_push` fails, the
condition of the waiting loop is false, and nothing is pushed or popped. -/
structure Deadlocked (junk : p.shape.Block E) (mBuffer : ℕ → E) (s : Bench p E) : Prop where
  writer : ¬ s.WriterDone
  reader : ¬ s.ReaderDone
  stuck : ∀ t, (latencyRun p junk mBuffer).Reaches s t →
    t.step junk (.write (.test true)) = none ∧ t.step junk (.leave true) = none ∧
      t.handed = s.handed ∧ t.taken = s.taken

end Bench

def BenchStep.isWrite : BenchStep → Bool
  | .write _ => true
  | _ => false

/-- One of the threads runs alone. -/
def alone (p : Setup) (junk : p.shape.Block E) (mBuffer : ℕ → E) (writer : Bool) :
    System (Bench p E) BenchStep :=
  (latencyRun p junk mBuffer).restrict fun _ e => e.isWrite = writer

namespace Bench

/-- The writer, left alone, completes a push. -/
def Pushes (junk : p.shape.Block E) (mBuffer : ℕ → E) (s : Bench p E) : Prop :=
  ∃ t, (alone p junk mBuffer true).Reaches s t ∧ t.handed.length = s.handed.length + 1

/-- The reader, left alone, completes a pop. -/
def Pops (junk : p.shape.Block E) (mBuffer : ℕ → E) (s : Bench p E) : Prop :=
  ∃ t, (alone p junk mBuffer false).Reaches s t ∧ t.taken.length = s.taken.length + 1

variable {s t : Bench p E}

theorem alone_step {e : BenchStep} (hst : s.step junk e = some t) :
    (alone p junk mBuffer e.isWrite).step s e = some t :=
  System.restrict_step.2 ⟨rfl, hst⟩

theorem Pushes.of_step {e : WriteStep} (hst : s.step junk (.write e) = some t)
    (hkept : t.handed = s.handed) (h : Pushes junk mBuffer t) : Pushes junk mBuffer s := by
  obtain ⟨u, hu, hlen⟩ := h
  exact ⟨u, System.Reaches.head (alone_step hst) hu, by rw [hlen, hkept]⟩

theorem Pops.of_step {e : BenchStep} (he : e.isWrite = false) (hst : s.step junk e = some t)
    (hkept : t.taken = s.taken) (h : Pops junk mBuffer t) : Pops junk mBuffer s := by
  obtain ⟨u, hu, hlen⟩ := h
  exact ⟨u, System.Reaches.head (he ▸ alone_step hst) hu, by rw [hlen, hkept]⟩

/-! ## The writer alone -/

theorem pushes_of_granted {nextHead : CInt} {ptr : SizeT}
    (h : s.producer = .granted nextHead ptr) : Pushes junk mBuffer s := by
  have hst : s.step junk (.write .store) = some { s with
      mWrite := intToSize nextHead, producer := .returned ptr, handed := s.handed ++ [ptr] } := by
    simp [step, WriteStep.push, Threads.pushStep, h]
  exact ⟨_, System.Reaches.head (alone_step hst) (System.Reaches.refl _), by simp⟩

theorem pushes_of_loaded {head : SizeT} {nextHead : CInt} (h : s.producer = .loaded head nextHead)
    (hroom : p.shape.room head s.mRead = true) : Pushes junk mBuffer s := by
  have hst : s.step junk (.write (.test true)) = some { s with
      producer := .granted nextHead (p.shape.offset head) } := by
    simp [step, WriteStep.push, Threads.pushStep, h, hroom]
  exact .of_step hst rfl (pushes_of_granted rfl)

theorem pushes_of_idle (h : s.producer = .idle) (hlt : s.handed.length < p.total)
    (hroom : p.shape.room s.mWrite s.mRead = true) : Pushes junk mBuffer s := by
  have hst : s.step junk (.write .load) = some { s with
      producer := .loaded s.mWrite (increment (sizeToUnsigned s.mWrite)) } := by
    simp [step, WriteStep.push, Threads.pushStep, h, Setup.lt_total_iff.2 hlt]
  exact .of_step hst rfl (pushes_of_loaded rfl hroom)

theorem pushes_of_returned {ptr : SizeT} (h : s.producer = .returned ptr)
    (hlt : s.handed.length < p.total) (hroom : p.shape.room s.mWrite s.mRead = true) :
    Pushes junk mBuffer s := by
  have hst : s.step junk (.write .fill) = some { s with
      mBuffer := Memory.writeBlock s.mBuffer ptr.toNat junk
      producer := .idle, filled := s.filled ++ [some junk] } := by
    simp [step, WriteStep.push, Threads.pushStep, h]
  exact .of_step hst rfl (pushes_of_idle rfl hlt hroom)

/-- With elements left and room, the writer pushes. -/
theorem pushes_of_room (hs : (latencyRun p junk mBuffer).Reachable s)
    (hle : s.taken.length ≤ s.handed.length) (hlt : s.handed.length < p.total)
    (hroom : s.handed.length < s.taken.length + p.shape.mDepth.toNat) : Pushes junk mBuffer s := by
  have hc := coupled_of_reachable hs
  have htotal := p.total_lt
  have hroom : p.shape.room s.mWrite s.mRead = true := by
    rw [hc.write, hc.read]
    exact (room_iff_of_lt hle (by omega)).2 hroom
  cases hp : s.producer with
  | idle => exact pushes_of_idle hp hlt hroom
  | loaded head nextHead =>
    obtain ⟨rfl, -⟩ := hc.loaded hp
    exact pushes_of_loaded hp hroom
  | granted nextHead ptr => exact pushes_of_granted hp
  | returned ptr => exact pushes_of_returned hp hlt hroom

/-! ## The reader alone -/

theorem pops_of_copied (hr : s.reader = .popping) {tail : SizeT}
    {read : Option (SizeT × p.shape.Block E)} (h : s.consumer = .copied tail read) :
    Pops junk mBuffer s := by
  have hst : s.step junk (.pop .store) = some { s with
      mRead := intToSize (increment (sizeToUnsigned tail)), consumer := .idle
      taken := s.taken ++ [read], reader := p.enter } := by
    simp [step, hr, mayPop, Threads.popStep, h]
  exact ⟨_, System.Reaches.head (alone_step hst) (System.Reaches.refl _), by simp⟩

theorem pops_of_passed (hr : s.reader = .popping) {tail : SizeT}
    (h : s.consumer = .passed tail .copy) : Pops junk mBuffer s := by
  have hst : s.step junk (.pop .copy) = some { s with consumer := s.read tail .copy } := by
    simp [step, hr, mayPop, Threads.popStep, h]
  exact .of_step rfl hst rfl (pops_of_copied hr rfl)

theorem pops_of_loaded (hr : s.reader = .popping) {tail : SizeT}
    (h : s.consumer = .loaded tail .copy) (hmore : tail ≠ s.mWrite) : Pops junk mBuffer s := by
  have hst : s.step junk (.pop (.test true)) = some { s with consumer := .passed tail .copy } := by
    simp [step, hr, mayPop, Threads.popStep, h, hmore]
  exact .of_step rfl hst rfl (pops_of_passed hr rfl)

theorem pops_of_idle (hr : s.reader = .popping) (h : s.consumer = .idle)
    (hlt : s.taken.length < p.total) (hmore : s.mRead ≠ s.mWrite) : Pops junk mBuffer s := by
  have hst : s.step junk (.pop (.load .copy)) = some { s with
      consumer := .loaded s.mRead .copy } := by
    simp [step, hr, mayPop, Threads.popStep, h, Setup.lt_total_iff.2 hlt]
  exact .of_step rfl hst rfl (pops_of_loaded hr rfl hmore)

/-- A reader that has left its waiting loop pops. -/
theorem pops_of_popping (hlat : 0 < p.latency) (hs : (latencyRun p junk mBuffer).Reachable s)
    (hr : s.reader = .popping) : Pops junk mBuffer s := by
  have hc := coupled_of_reachable hs
  have hinv := inv_of_reachable hlat hs
  have hmore := hinv.read_ne_write hc hr
  cases h : s.consumer with
  | idle => exact pops_of_idle hr h (hinv.more (by simp [hr])) hmore
  | loaded tail dest =>
    obtain rfl := hinv.copies (.inl h)
    obtain rfl := hc.tail (by rw [h]; rfl)
    exact pops_of_loaded hr h hmore
  | passed tail dest =>
    obtain rfl := hinv.copies (.inr h)
    exact pops_of_passed hr h
  | copied tail read => exact pops_of_copied hr h
  | fault => exact absurd h hinv.runs

/-- A waiting reader whose condition is true leaves the loop and pops. -/
theorem pops_of_waiting (hlat : 0 < p.latency) (hs : (latencyRun p junk mBuffer).Reachable s)
    (hr : s.reader = .waiting) (hlt : s.taken.length < p.total)
    (hcond : p.latency.toNat < s.handed.length - s.taken.length ∨ s.handed.length = p.total) :
    Pops junk mBuffer s := by
  have hc := coupled_of_reachable hs
  have hinv := inv_of_reachable hlat hs
  have hsat : p.satisfied s.mWrite s.mRead = true := by
    rw [hc.write, hc.read]
    exact (Setup.satisfied_iff (by omega) hinv.le hinv.count).2 hcond
  have h1 : s.step junk .head = some { s with reader := .loadedHead s.mWrite } := by
    simp [step, hr, Setup.lt_total_iff.2 hlt, BlockBuffer.head]
  have h2 : step junk { s with reader := .loadedHead s.mWrite } .tail =
      some { s with reader := .loadedTail s.mWrite s.mRead } := rfl
  have h3 : step junk { s with reader := .loadedTail s.mWrite s.mRead } (.leave true) =
      some { s with reader := .popping } := by
    simp [step, hsat]
  refine .of_step rfl h1 rfl (.of_step rfl h2 rfl (.of_step rfl h3 rfl ?_))
  exact pops_of_popping hlat (latencyRun_step (latencyRun_step (latencyRun_step hs h1) h2) h3) rfl

/-- With elements left and the condition true, the reader pops, wherever it stands in its loop. -/
theorem pops_of_satisfied (hlat : 0 < p.latency) (hs : (latencyRun p junk mBuffer).Reachable s)
    (hlt : s.taken.length < p.total)
    (hcond : p.latency.toNat < s.handed.length - s.taken.length ∨ s.handed.length = p.total) :
    Pops junk mBuffer s := by
  -- a turn with an old `head()` either leaves the loop, or starts again with a new one
  have hturn : ∀ {s : Bench p E} {head tail : SizeT},
      (latencyRun p junk mBuffer).Reachable s → s.reader = .loadedTail head tail →
      s.taken.length < p.total →
      (p.latency.toNat < s.handed.length - s.taken.length ∨ s.handed.length = p.total) →
      Pops junk mBuffer s := by
    intro s head tail hs hr hlt hcond
    have hst : s.step junk (.leave (p.satisfied head tail)) = some { s with
        reader := if p.satisfied head tail then .popping else .waiting } := by
      simp [step, hr]
    refine .of_step rfl hst rfl ?_
    have ht := latencyRun_step hs hst
    cases hsat : p.satisfied head tail with
    | true =>
      rw [hsat] at ht
      exact pops_of_popping hlat ht rfl
    | false =>
      rw [hsat] at ht
      exact pops_of_waiting hlat ht rfl hlt hcond
  cases hr : s.reader with
  | waiting => exact pops_of_waiting hlat hs hr hlt hcond
  | loadedHead head =>
    have hst : s.step junk .tail = some { s with reader := .loadedTail head s.mRead } := by
      simp [step, hr, BlockBuffer.tail]
    exact .of_step rfl hst rfl (hturn (latencyRun_step hs hst) rfl hlt hcond)
  | loadedTail head tail => exact hturn hs hr hlt hcond
  | popping => exact pops_of_popping hlat hs hr

/-! ## No other deadlock -/

/-- Until the reader is done one of the threads, left alone, completes its next call, if the latency
is below the depth or the elements fit into the buffer. -/
theorem progresses_of_reachable {k : ℕ} (hdepth : p.shape.mDepth.toNat = 2 ^ k) (hk : k ≤ 31)
    (hlat : 0 < p.latency)
    (hsafe : ¬ (p.shape.mDepth.toNat ≤ p.latency.toNat ∧ p.shape.mDepth.toNat < p.total))
    (hs : (latencyRun p junk mBuffer).Reachable s) (hlt : s.taken.length < p.total) :
    Pushes junk mBuffer s ∨ Pops junk mBuffer s := by
  have hinv := inv_of_reachable hlat hs
  have hle := hinv.le
  have hcount := hinv.count
  have hbound : s.handed.length ≤ s.taken.length + p.shape.mDepth.toNat := by
    have hbound := (window hdepth (narrow_of_reachable hdepth hk (threads_of_reachable hs))).2.1
    rwa [slots_eq (by omega), ← hdepth] at hbound
  by_cases hcond : p.latency.toNat < s.handed.length - s.taken.length ∨ s.handed.length = p.total
  · exact .inr (pops_of_satisfied hlat hs hlt hcond)
  · by_cases hroom : s.handed.length < s.taken.length + p.shape.mDepth.toNat
    · exact .inl (pushes_of_room hs hle (by omega) hroom)
    · -- full, and not over the latency: the excluded case
      exact absurd ⟨by omega, by omega⟩ hsafe

theorem Pushes.not_deadlocked (h : Pushes junk mBuffer s) : ¬ Deadlocked junk mBuffer s := by
  intro hdead
  obtain ⟨t, ht, hlen⟩ := h
  obtain ⟨-, -, hhanded, -⟩ := hdead.stuck t (System.Reaches.of_restrict ht)
  rw [hhanded] at hlen
  omega

theorem Pops.not_deadlocked (h : Pops junk mBuffer s) : ¬ Deadlocked junk mBuffer s := by
  intro hdead
  obtain ⟨t, ht, hlen⟩ := h
  obtain ⟨-, -, -, htaken⟩ := hdead.stuck t (System.Reaches.of_restrict ht)
  rw [htaken] at hlen
  omega

/-! ## The deadlock -/

/-- Steps of the writer leave the reader where it is. -/
theorem reader_of_alone (h : (alone p junk mBuffer true).Reaches s t) :
    t.taken = s.taken ∧ t.reader = s.reader := by
  refine h.preserves (P := fun t => t.taken = s.taken ∧ t.reader = s.reader) ⟨rfl, rfl⟩
    (fun {a b e} _ hab hst => ?_)
  obtain ⟨hwrite, hst⟩ := System.restrict_step.1 hst
  cases latencyRun_moves hst with
  | write hload hmoves => exact ⟨hmoves.push_frame.1.trans hab.1, hab.2⟩
  | _ => cases hwrite

/-- The writer can fill the buffer before the reader does anything. -/
theorem exists_pushed (junk : p.shape.Block E) (mBuffer : ℕ → E) (hlat : 0 < p.latency) {n : ℕ}
    (hn : n ≤ p.shape.mDepth.toNat) (htotal : n ≤ p.total) :
    ∃ s, (latencyRun p junk mBuffer).Reachable s ∧ s.handed.length = n ∧ s.taken.length = 0 ∧
      s.reader = .waiting := by
  induction n with
  | zero => exact ⟨_, System.Reachable.init, rfl, rfl, if_pos hlat⟩
  | succ n ih =>
    obtain ⟨s, hs, hhanded, htaken, hr⟩ := ih (by omega) (by omega)
    obtain ⟨t, ht, hlen⟩ := pushes_of_room hs (by omega) (by omega) (by omega)
    obtain ⟨hkept, hsame⟩ := reader_of_alone ht
    exact ⟨t, hs.trans (System.Reaches.of_restrict ht), by omega, by rw [hkept, htaken],
      hsame.trans hr⟩

/-- The buffer is full, nothing is popped, and neither thread has passed its test. -/
structure Full (s : Bench p E) : Prop where
  handed : s.handed.length = p.shape.mDepth.toNat
  taken : s.taken.length = 0
  producer : s.producer.phase ≠ .passed
  reader : s.reader ≠ .popping

theorem Full.room (h : Full s) (hc : Coupled s.toThreads) (hlt : p.shape.mDepth.toNat < p.total) :
    p.shape.room s.mWrite s.mRead = false := by
  have htotal := p.total_lt
  rw [Bool.eq_false_iff, hc.write, hc.read, h.handed, h.taken, Ne,
    room_iff_of_lt (Nat.zero_le _) (by omega)]
  omega

/-- A full buffer within the latency is never over it. -/
theorem Full.satisfied (h : Full s) (hinv : Inv s) (hlat : p.shape.mDepth.toNat ≤ p.latency.toNat)
    (hlt : p.shape.mDepth.toNat < p.total) {head tail : SizeT}
    (hr : s.reader = .loadedTail head tail) : p.satisfied head tail = false := by
  have hhanded := h.handed
  have htaken := h.taken
  obtain ⟨rfl, n, rfl, hmn, hnle⟩ := hinv.tail hr
  rw [Bool.eq_false_iff, Ne, Setup.satisfied_iff (by omega) hmn (by omega)]
  omega

theorem Full.moves (h : Full s) (hc : Coupled s.toThreads) (hinv : Inv s)
    (hlat : p.shape.mDepth.toNat ≤ p.latency.toNat) (hlt : p.shape.mDepth.toNat < p.total)
    {e : BenchStep} (hst : s.Moves junk e t) : Full t := by
  cases hst with
  | @write e t hload hst =>
    obtain ⟨htaken, -⟩ := hst.push_frame
    have hkept : t.handed = s.handed ∧ t.producer.phase ≠ .passed := by
      cases e with
      | load =>
        cases hst
        exact ⟨rfl, nofun⟩
      | test room =>
        cases hst with
        | pushTest hp hr =>
          obtain ⟨rfl, -⟩ := hc.loaded hp
          rw [h.room hc hlt] at hr
          subst hr
          exact ⟨rfl, nofun⟩
      | store =>
        cases hst with
        | pushStore hp => exact absurd (by rw [hp]; rfl) h.producer
      | fill =>
        cases hst
        exact ⟨rfl, nofun⟩
    exact ⟨hkept.1 ▸ h.handed, htaken ▸ h.taken, hkept.2, h.reader⟩
  | head => exact ⟨h.handed, h.taken, h.producer, nofun⟩
  | tail => exact ⟨h.handed, h.taken, h.producer, nofun⟩
  | leave hr hs =>
    rw [h.satisfied hinv hlat hlt hr] at hs
    subst hs
    exact ⟨h.handed, h.taken, h.producer, nofun⟩
  | pop hr => exact absurd hr h.reader

/-- Neither test succeeds in a full buffer within the latency. -/
theorem Full.refuses (h : Full s) (hc : Coupled s.toThreads) (hinv : Inv s)
    (hlat : p.shape.mDepth.toNat ≤ p.latency.toNat) (hlt : p.shape.mDepth.toNat < p.total) :
    s.step junk (.write (.test true)) = none ∧ s.step junk (.leave true) = none := by
  constructor
  · rw [Option.eq_none_iff_forall_ne_some]
    intro t hst
    cases moves_of_step hst with
    | write hload hmoves =>
      cases hmoves with
      | pushTest hp hr =>
        obtain ⟨rfl, -⟩ := hc.loaded hp
        rw [h.room hc hlt] at hr
        cases hr
  · rw [Option.eq_none_iff_forall_ne_some]
    intro t hst
    cases moves_of_step hst with
    | leave hr hs =>
      rw [h.satisfied hinv hlat hlt hr] at hs
      cases hs

theorem Full.deadlocked (hpos : 0 < p.latency) (hs : (latencyRun p junk mBuffer).Reachable s)
    (h : Full s) (hlat : p.shape.mDepth.toNat ≤ p.latency.toNat)
    (hlt : p.shape.mDepth.toNat < p.total) : Deadlocked junk mBuffer s := by
  refine ⟨?_, ?_, ?_⟩
  · intro hdone
    have := hdone.1
    rw [h.handed] at this
    omega
  · intro hdone
    have hdone : p.total ≤ s.taken.length := hdone
    rw [h.taken] at hdone
    omega
  · intro t ht
    have hfull : Full t := ht.preserves (P := Full) h fun hab hfull hst =>
      hfull.moves (coupled_of_reachable (hs.trans hab)) (inv_of_reachable hpos (hs.trans hab)) hlat
        hlt (latencyRun_moves hst)
    have hc := coupled_of_reachable hs
    have hct := coupled_of_reachable (hs.trans ht)
    obtain ⟨hpush, hleave⟩ := hfull.refuses hct (inv_of_reachable hpos (hs.trans ht))
      hlat hlt
    refine ⟨hpush, hleave, ?_, ?_⟩
    · rw [hct.handed, hc.handed, hfull.handed, h.handed]
    · rw [List.length_eq_zero_iff.1 hfull.taken, List.length_eq_zero_iff.1 h.taken]

/-- With a latency of at least the depth, and more elements than slots, the deadlock is reached. -/
theorem exists_deadlocked {k : ℕ} (hdepth : p.shape.mDepth.toNat = 2 ^ k) (hk : k ≤ 31)
    (hpos : 0 < p.latency) (hlat : p.shape.mDepth.toNat ≤ p.latency.toNat)
    (hlt : p.shape.mDepth.toNat < p.total) (junk : p.shape.Block E) (mBuffer : ℕ → E) :
    ∃ s, (latencyRun p junk mBuffer).Reachable s ∧ Deadlocked junk mBuffer s := by
  obtain ⟨s, hs, hhanded, htaken, hr⟩ := exists_pushed junk mBuffer hpos (Nat.le_refl _)
    (Nat.le_of_lt hlt)
  have hwindow := window hdepth (narrow_of_reachable hdepth hk (threads_of_reachable hs))
  rw [slots_eq (by omega), ← hdepth] at hwindow
  have hfull : Full s := by
    refine ⟨hhanded, htaken, ?_, by simp [hr]⟩
    intro hphase
    have := hwindow.2.2.1 hphase
    omega
  exact ⟨s, hs, hfull.deadlocked hpos hs hlat hlt⟩

end Bench

theorem toNat_bufsize {nbits : ℕ} (h : nbits ≤ 29) : (bufsize nbits).toNat = 2 ^ (nbits + 1) := by
  have hlt : 2 ^ (nbits + 1) < 2 ^ 32 := Nat.pow_lt_pow_right Nat.one_lt_two (by omega)
  have hdouble : (2 : CInt).toNat * 2 ^ nbits = 2 ^ (nbits + 1) := by
    rw [Nat.pow_succ']
    rfl
  rw [bufsize, BitVec.toNat_shiftLeft, Nat.shiftLeft_eq, hdouble, Nat.mod_eq_of_lt hlt]

theorem toNat_intToSize_bufsize {nbits : ℕ} (h : nbits ≤ 29) :
    (intToSize (bufsize nbits)).toNat = 2 ^ (nbits + 1) := by
  have hlt : 2 ^ (nbits + 1) < 2 ^ 31 := Nat.pow_lt_pow_right Nat.one_lt_two (by omega)
  have hnat : bufsize nbits = BitVec.ofNat 32 (2 ^ (nbits + 1)) := by
    apply BitVec.eq_of_toNat_eq
    rw [toNat_bufsize h, BitVec.toNat_ofNat, Nat.mod_eq_of_lt (by omega)]
  rw [intToSize, hnat, Residue.toNat_signExtend_ofNat (w := 31) (by omega) hlt]

open Bench in
/-- **The deadlocks of the latency run.** -/
theorem deadlock_iff {nelements : CInt} {nbits : ℕ} {width : CInt} {latency : SizeT}
    (hbits : nbits ≤ 29) (hlat : 1 ≤ latency.toNat)
    (junk : (Setup.main nelements nbits width latency).shape.Block E) (mBuffer : ℕ → E) :
    ((∃ s, (latencyRun _ junk mBuffer).Reachable s ∧ Deadlocked junk mBuffer s) ↔
      (bufsize nbits).toNat ≤ latency.toNat ∧ ((bufsize nbits).toNat : ℤ) < nelements.toInt) ∧
    (¬ ((bufsize nbits).toNat ≤ latency.toNat ∧ ((bufsize nbits).toNat : ℤ) < nelements.toInt) →
      ∀ s, (latencyRun _ junk mBuffer).Reachable s → ¬ s.ReaderDone →
        Pushes junk mBuffer s ∨ Pops junk mBuffer s) := by
  have hdepth := toNat_intToSize_bufsize hbits
  have hpos : 0 < latency := by rwa [BitVec.lt_def]
  have hregion : ((bufsize nbits).toNat ≤ latency.toNat ∧
      ((bufsize nbits).toNat : ℤ) < nelements.toInt) ↔
      (intToSize (bufsize nbits)).toNat ≤ latency.toNat ∧
        (intToSize (bufsize nbits)).toNat < nelements.toInt.toNat := by
    rw [hdepth, toNat_bufsize hbits]
    omega
  rw [hregion]
  have hprogress : ¬ ((intToSize (bufsize nbits)).toNat ≤ latency.toNat ∧
      (intToSize (bufsize nbits)).toNat < nelements.toInt.toNat) →
      ∀ s, (latencyRun _ junk mBuffer).Reachable s → ¬ s.ReaderDone →
        Pushes junk mBuffer s ∨ Pops junk mBuffer s := fun hsafe s hs hdone =>
    progresses_of_reachable (p := Setup.main nelements nbits width latency) hdepth (by omega) hpos
      hsafe hs (Nat.lt_of_not_le hdone)
  refine ⟨⟨fun ⟨s, hs, hdead⟩ => ?_, fun h => ?_⟩, hprogress⟩
  · by_contra hsafe
    rcases hprogress hsafe s hs hdead.reader with h | h
    · exact h.not_deadlocked hdead
    · exact h.not_deadlocked hdead
  · exact exists_deadlocked (p := Setup.main nelements nbits width latency) hdepth (by omega) hpos
      h.1 h.2 junk mBuffer

/-- A buffer of four blocks, nine elements and a latency of four: a deadlock is reached. -/
theorem deadlock_iff_four : ∃ s : Bench (Setup.main 9 1 1 4) ℕ,
    (latencyRun _ (fun _ => 0) fun _ => 0).Reachable s ∧
      Bench.Deadlocked (fun _ => 0) (fun _ => 0) s :=
  (deadlock_iff (by decide) (by decide) _ _).1.2 ⟨by decide, by decide⟩

end ThreadTests.Arene
