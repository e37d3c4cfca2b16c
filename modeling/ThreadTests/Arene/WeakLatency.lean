import ThreadTests.Arene.WeakBench

/-!
# The latency run is safe on a release/acquire memory, but for its last block

The reader of `test_arene` leaves its loop on a `head()` that it has loaded, at least two pushes
ahead of its pops unless the writer has made them all. So whoever copies a block that is not the
last has acquired the store of the push after it, which publishes the fill of the block
(`Paced.acquired`); the fill in turn comes after the release of the block that was at its slot. What
the pops deliver, but for the last one, is what was filled in (`handsOff_of_reachable`). Nothing
orders the copy of the last block after its fill (`exists_last_race`).
-/

namespace ThreadTests.Arene

open ReleaseAcquire

universe u

variable {p : Setup} {E : Type u} {junk : ℕ → p.shape.Block E} {mBuffer : ℕ → E}

namespace WeakBench

variable {s t : WeakBench p E} {e : WeakBenchStep} {k : ℕ}

/-! ## What the threads know -/

/-- What the threads know of the other counter. -/
def Knowing (s : WeakBench p E) : Prop :=
  Informed p.shape.mDepth.toNat s.done (s.producer.phase = .passed) (s.consumer.holding = true)
    s.memory

theorem Knowing.start : Knowing (WeakBench.start p mBuffer) :=
  .new mBuffer (fun c => by cases c <;> rfl) nofun nofun

theorem Knowing.moves (hlt : p.shape.mDepth.toNat < 2 ^ 32) (hc : Coupled s) (h : Knowing s)
    (hst : s.Moves junk e t) : Knowing t := by
  cases hst with
  | pushLoad hpc _ hload =>
    exact Informed.keep h (Memory.extends_load hload) (fun hpassed => by cases hpassed) id
  | @pushTest head nextHead k tail memory room hpc hload hr =>
    refine Informed.grant h hload (fun hpassed => ?_) id
    obtain ⟨hk, hbound, rfl⟩ := h.room_of_load hc.counting hload
    obtain ⟨rfl, -⟩ := hc.loaded hpc
    cases room with
    | false => cases hpassed
    | true =>
      have hle : s.taken.length ≤ s.handed.length := h.le hc.counting
      have hk : k ≤ s.taken.length := hk
      have hbound : s.handed.length ≤ k + p.shape.mDepth.toNat := hbound
      have hroom : s.handed.length < k + p.shape.mDepth.toNat :=
        lt_of_room (by omega) (by omega) hr
      exact hroom
  | @pushStore nextHead ptr hpc =>
    refine Informed.push h (by rw [hpc]; rfl) (Memory.extends_store ..) ?_ rfl
      fun hpassed => by cases hpassed
    simp [done]
  | fill hpc => exact Informed.keep h (s.extends_fillMemory ..) (fun hpassed => by cases hpassed) id
  | head _ _ hload => exact Informed.keep h (Memory.extends_load hload) id id
  | tail _ hload => exact Informed.keep h (Memory.extends_load hload) id id
  | leave => exact h
  | popLoad _ _ _ hload =>
    exact Informed.keep h (Memory.extends_load hload) id fun hholding => by cases hholding
  | @popTest tail k head memory more hpc hload hm =>
    refine Informed.hold h hc.counting hload id fun hholding => ?_
    obtain ⟨hle, -, rfl⟩ := h.more_of_load hc.counting hload
    obtain rfl := hc.tail (by rw [hpc]; rfl)
    cases more with
    | false => cases hholding
    | true =>
      have hne : k ≠ s.taken.length := by
        rintro rfl
        exact of_decide_eq_true hm rfl
      exact Nat.lt_of_le_of_ne hle hne.symm
  | copy hpc => exact Informed.keep h (Memory.extends_access ..) id fun _ => by rw [hpc]; rfl
  | popStore hpc =>
    refine Informed.pop h (by rw [hpc]; rfl) (Memory.extends_store ..) rfl ?_
      fun hholding => by cases hholding
    simp [done]

theorem knowing_of_reachable (hlt : p.shape.mDepth.toNat < 2 ^ 32)
    (hs : (weakLatencyRun p junk mBuffer).Reachable s) : Knowing s :=
  System.invariant (P := Knowing) .start (fun hs h hst =>
    h.moves hlt (coupled_of_reachable hs) (moves_of_step hst)) hs

/-! ## The loops of the two threads -/

/-- The reader has acquired a count of pushes that its `head()` was. -/
def Seen (s : WeakBench p E) (head : SizeT) (j : ℕ) : Prop :=
  head = count j ∧ s.taken.length ≤ j ∧ s.memory.Acquired .consumer .mWrite j

/-- What the loops keep. -/
structure Paced (s : WeakBench p E) : Prop where
  count : s.handed.length ≤ p.total
  pending : s.producer.phase ≠ .idle → s.handed.length < p.total
  more : s.reader ≠ .waiting → s.taken.length < p.total
  head : ∀ {head}, s.reader = .loadedHead head → ∃ j, s.Seen head j
  tail : ∀ {head tail}, s.reader = .loadedTail head tail →
    tail = Arene.count s.taken.length ∧ ∃ j, s.Seen head j
  idle : s.reader ≠ .popping → s.consumer = .idle
  /-- In its pop, the reader has acquired a push far enough ahead, or the last one. -/
  popping : s.reader = .popping → ∃ j, s.memory.Acquired .consumer .mWrite j ∧
    (s.taken.length + p.latency.toNat < j ∨ j = p.total)

/-- Who knows more has still seen what it had. -/
theorem Seen.mono {memory : ReleaseAcquire.Memory Party Counter SizeT ℕ E} {head : SizeT} {j : ℕ}
    (h : s.Seen head j) (htaken : t.taken = s.taken) (hmem : t.memory = memory)
    (hext : s.memory.Extends memory) : t.Seen head j := by
  obtain ⟨hhead, hle, hj⟩ := h
  subst hmem
  exact ⟨hhead, htaken ▸ hle, hext.acquired hj⟩

namespace Paced

theorem start (hlat : 0 < p.latency) : Paced (WeakBench.start p mBuffer) := by
  have henter : (WeakBench.start p mBuffer).reader = .waiting := if_pos hlat
  refine ⟨Nat.zero_le _, fun h => absurd rfl h, fun h => absurd henter h, fun h => ?_, fun h => ?_,
    fun _ => rfl, fun h => ?_⟩
  all_goals cases henter.symm.trans h

/-- A step of the writer, after which it has made as many pushes or one more. -/
theorem write (h : Paced s) {memory : ReleaseAcquire.Memory Party Counter SizeT ℕ E}
    {producer : PushPc} {handed : List SizeT} {filled : List (p.shape.Block E)}
    (hext : s.memory.Extends memory) (hcount : handed.length ≤ p.total)
    (hpending : producer.phase ≠ .idle → handed.length < p.total) :
    Paced
      { s with memory := memory, producer := producer, handed := handed, filled := filled } := by
  refine ⟨hcount, hpending, h.more, fun hr => ?_, fun hr => ?_, h.idle, fun hr => ?_⟩
  · obtain ⟨j, hj⟩ := h.head hr
    exact ⟨j, hj.mono rfl rfl hext⟩
  · obtain ⟨htail, j, hj⟩ := h.tail hr
    exact ⟨htail, j, hj.mono rfl rfl hext⟩
  · obtain ⟨j, hj, hfar⟩ := h.popping hr
    exact ⟨j, hext.acquired hj, hfar⟩

/-- A step of the reader within `try_pop`. -/
theorem pop (h : Paced s) (hr : s.reader = .popping)
    {memory : ReleaseAcquire.Memory Party Counter SizeT ℕ E} {consumer : CopyPc p.shape E}
    (hext : s.memory.Extends memory) :
    Paced { s with memory := memory, consumer := consumer } := by
  refine ⟨h.count, h.pending, h.more, fun hhead => ?_, fun htail => ?_, fun hne => absurd hr hne,
    fun _ => ?_⟩
  · cases hr.symm.trans hhead
  · cases hr.symm.trans htail
  · obtain ⟨j, hj, hfar⟩ := h.popping hr
    exact ⟨j, hext.acquired hj, hfar⟩

/-- A thread within `try_pop` has left the loop. -/
theorem popping_of_ne_idle (h : Paced s) (hne : s.consumer ≠ .idle) : s.reader = .popping :=
  Decidable.byContradiction fun hr => hne (h.idle hr)

/-- A turn of the loop that leaves it has seen the writer far enough ahead. -/
theorem leave (h : Paced s) (hc : Coupled s) {head tail : SizeT}
    (hr : s.reader = .loadedTail head tail) {satisfied : Bool}
    (hs : p.satisfied head tail = satisfied) :
    Paced { s with reader := if satisfied then .popping else .waiting } := by
  obtain ⟨rfl, j, rfl, hle, hj⟩ := h.tail hr
  have hmore := h.more (by simp [hr])
  have hidle := h.idle (by simp [hr])
  cases satisfied with
  | false =>
    exact ⟨h.count, h.pending, fun hne => absurd rfl hne, nofun, nofun, fun _ => hidle, nofun⟩
  | true =>
    refine ⟨h.count, h.pending, fun _ => hmore, nofun, nofun, fun hne => absurd rfl hne,
      fun _ => ?_⟩
    have hcount := h.count
    have hjle : j ≤ s.handed.length := hc.counting.le_done hj
    refine ⟨j, hj, ?_⟩
    rcases (Setup.satisfied_iff (by omega) hle (by omega)).1 hs with hfar | hall
    · refine .inl ?_
      change s.taken.length + p.latency.toNat < j
      omega
    · exact .inr hall

theorem moves (hlat : 0 < p.latency) (hc : Coupled s) (hk : Knowing s) (h : Paced s)
    (hst : s.Moves junk e t) : Paced t := by
  cases hst with
  | pushLoad hpc hlt hload =>
    exact h.write (Memory.extends_load hload) h.count fun _ => Setup.lt_total_iff.1 hlt
  | pushTest hpc hload =>
    exact h.write (Memory.extends_load hload) h.count fun _ =>
      h.pending (by simp [hpc, PushPc.phase])
  | pushStore hpc =>
    have hlt := h.pending (by simp [hpc, PushPc.phase])
    refine h.write (Memory.extends_store ..) ?_ fun hne => absurd rfl hne
    simpa using Nat.succ_le_of_lt hlt
  | fill => exact h.write (s.extends_fillMemory ..) h.count fun hne => absurd rfl hne
  | @head k head memory hr hlt hload =>
    have hidle := h.idle (by simp [hr])
    refine ⟨h.count, h.pending, fun _ => Setup.lt_total_iff.1 hlt, ?_,
      fun hr => absurd hr (by simp), fun _ => hidle, fun hr => absurd hr (by simp)⟩
    rintro _ ⟨⟩
    obtain ⟨hle, -, hhead⟩ := hk.more_of_load hc.counting hload
    exact ⟨k, hhead, hle, Memory.acquired_load hload⟩
  | @tail head k tail memory hr hload =>
    have hmore := h.more (by simp [hr])
    have hidle := h.idle (by simp [hr])
    refine ⟨h.count, h.pending, fun _ => hmore, fun hr => absurd hr (by simp), ?_, fun _ => hidle,
      fun hr => absurd hr (by simp)⟩
    rintro _ _ ⟨⟩
    obtain ⟨j, hj⟩ := h.head hr
    exact ⟨hc.counting.own (c := .mRead) hload, j, hj.mono rfl rfl (Memory.extends_load hload)⟩
  | leave hr hs => exact h.leave hc hr hs
  | popLoad hr hpc _ hload => exact h.pop hr (Memory.extends_load hload)
  | popTest hpc hload =>
    exact h.pop (h.popping_of_ne_idle (by simp [hpc])) (Memory.extends_load hload)
  | copy hpc => exact h.pop (h.popping_of_ne_idle (by simp [hpc])) (Memory.extends_access ..)
  | popStore hpc =>
    have henter : p.enter = .waiting := if_pos hlat
    rw [henter]
    exact ⟨h.count, h.pending, fun hne => absurd rfl hne, fun hr => absurd hr (by simp),
      fun hr => absurd hr (by simp), fun _ => rfl, fun hr => absurd hr (by simp)⟩

/-- **Who copies a block that is not the last has acquired the push after it.** -/
theorem acquired (hlat : 0 < p.latency) (hc : Coupled s) (h : Paced s)
    (hne : s.consumer ≠ .idle) (hlast : s.taken.length + 1 < p.total) :
    s.memory.Acquired .consumer .mWrite (s.taken.length + 2) := by
  obtain ⟨j, hj, hfar⟩ := h.popping (h.popping_of_ne_idle hne)
  have hlat : 0 < p.latency.toNat := hlat
  exact hc.counting.acquired_of_le hj (by omega)

end Paced

theorem paced_of_reachable (hlat : 0 < p.latency) (hlt : p.shape.mDepth.toNat < 2 ^ 32)
    (hs : (weakLatencyRun p junk mBuffer).Reachable s) : Paced s :=
  System.invariant (P := Paced) (.start hlat) (fun hs h hst =>
    h.moves hlat (coupled_of_reachable hs) (knowing_of_reachable hlt hs) (moves_of_step hst)) hs

/-! ## The order of the accesses to the blocks -/

/-- An access of the fill or of the copy of the block `i`. The store of the next push comes after a
fill, and the store of its own pop after a copy, which for a block that is not the last was made
after the next push. -/
structure Logs (s : WeakBench p E) (acc : Access Party) (i : ℕ) : Prop where
  fill : acc.write = true →
    i < s.filled.length ∧ Made .mWrite acc.stamp (i + 2) (s.handed.length = i + 1) s.memory
  copy : acc.write = false →
    Made .mRead acc.stamp (i + 1) (i = s.taken.length ∧ s.consumer.read ≠ []) s.memory ∧
      (i + 1 < p.total → i + 2 ≤ s.handed.length)

/-- The fills and the copies access the blocks of their counts. -/
def Logged (s : WeakBench p E) : Prop :=
  ∀ x, ∀ acc ∈ s.memory.accesses x,
    ∃ i, p.shape.within (p.shape.offset (count i)) x ∧ s.Logs acc i

namespace Logs

variable {acc : Access Party} {i : ℕ}

/-- A step that stores nothing and leaves a copy under way keeps the log. -/
theorem keep (h : s.Logs acc i) (hext : s.memory.Extends t.memory)
    (hfilled : s.filled.length ≤ t.filled.length) (hhanded : t.handed = s.handed)
    (htaken : t.taken = s.taken) (hread : s.consumer.read ≠ [] → t.consumer.read ≠ []) :
    t.Logs acc i := by
  refine ⟨fun hw => ?_, fun hr => ?_⟩
  · obtain ⟨hlt, hmade⟩ := h.fill hw
    exact ⟨hlt.trans_le hfilled, hmade.keep hext fun hlast => hhanded ▸ hlast⟩
  · obtain ⟨hmade, hnext⟩ := h.copy hr
    refine ⟨hmade.keep hext ?_, hhanded ▸ hnext⟩
    rintro ⟨rfl, hne⟩
    exact ⟨congrArg List.length htaken.symm, hread hne⟩

/-- The store of a push publishes the fill of the push before. -/
theorem pushStore (h : s.Logs acc i) (hc : Coupled s) {value : SizeT}
    (hmem : t.memory = s.memory.store .producer .mWrite value)
    (hfilled : t.filled = s.filled) (hhanded : t.handed.length = s.handed.length + 1)
    (htaken : t.taken = s.taken) (hconsumer : t.consumer = s.consumer) : t.Logs acc i := by
  refine ⟨fun hw => ?_, fun hr => ?_⟩
  · obtain ⟨hlt, hmade⟩ := h.fill hw
    rw [hfilled, hmem]
    refine ⟨hlt, hmade.store (fun hlast => ?_) value⟩
    rw [hc.counting.length .mWrite]
    exact congrArg Nat.succ hlast
  · obtain ⟨hmade, hnext⟩ := h.copy hr
    rw [hmem, htaken, hconsumer, hhanded]
    exact ⟨hmade.keep (Memory.extends_store ..) id, fun hi => (hnext hi).trans (Nat.le_succ _)⟩

/-- The store of a pop publishes its copy. -/
theorem popStore (h : s.Logs acc i) (hc : Coupled s) {value : SizeT}
    (hmem : t.memory = s.memory.store .consumer .mRead value) (hfilled : t.filled = s.filled)
    (hhanded : t.handed = s.handed) : t.Logs acc i := by
  refine ⟨fun hw => ?_, fun hr => ?_⟩
  · obtain ⟨hlt, hmade⟩ := h.fill hw
    rw [hfilled, hmem, hhanded]
    exact ⟨hlt, hmade.keep (Memory.extends_store ..) id⟩
  · obtain ⟨hmade, hnext⟩ := h.copy hr
    rw [hmem, hhanded]
    refine ⟨hmade.store (fun hlast => ?_) value, hnext⟩
    rw [hc.counting.length .mRead, hlast.1]
    rfl

end Logs

namespace Logged

theorem start : Logged (WeakBench.start p mBuffer) := fun _ _ => nofun

theorem keep (h : Logged s) (haccesses : t.memory.accesses = s.memory.accesses)
    (hext : s.memory.Extends t.memory) (hfilled : t.filled = s.filled)
    (hhanded : t.handed = s.handed) (htaken : t.taken = s.taken)
    (hread : s.consumer.read ≠ [] → t.consumer.read ≠ []) : Logged t := by
  intro x acc hacc
  rw [haccesses] at hacc
  obtain ⟨i, hx, hlogs⟩ := h x acc hacc
  exact ⟨i, hx, hlogs.keep hext (Nat.le_of_eq (congrArg List.length hfilled.symm)) hhanded htaken
    hread⟩

theorem fill (h : Logged s) (hc : Coupled s) {ptr : SizeT} (hpc : s.producer = .returned ptr)
    (block : p.shape.Block E) :
    Logged { s with
      memory := s.fillMemory ptr block, producer := .idle, filled := s.filled ++ [block] } := by
  obtain ⟨hlen, rfl⟩ := hc.returned hpc
  intro x acc hacc
  have hgrows : s.filled.length < (s.filled ++ [block]).length := by simp
  rcases Memory.mem_accesses_access hacc with ⟨hx, hwrite, hknows⟩ | hacc
  · refine ⟨_, hx, fun _ => ⟨hgrows, hknows, .inr hlen⟩, fun hread => ?_⟩
    cases hwrite.symm.trans hread
  · obtain ⟨i, hx, hlogs⟩ := h x acc hacc
    exact ⟨i, hx, hlogs.keep (s.extends_fillMemory ..) hgrows.le rfl rfl id⟩

theorem copy (hlat : 0 < p.latency) (h : Logged s) (hc : Coupled s) (hp : Paced s) {tail : SizeT}
    (hpc : s.consumer = .passed tail) :
    Logged { s with
      memory := s.memory.access .consumer (p.shape.within (p.shape.offset tail)) false
      consumer := .copied tail (p.shape.offset tail) (s.readBlock (p.shape.offset tail)) } := by
  obtain rfl := hc.tail (by rw [hpc]; rfl)
  intro x acc hacc
  rcases Memory.mem_accesses_access hacc with ⟨hx, hread, hknows⟩ | hacc
  · refine ⟨_, hx, fun hwrite => ?_, fun _ => ⟨⟨hknows, .inr ⟨rfl, nofun⟩⟩, fun hlast => ?_⟩⟩
    · cases hread.symm.trans hwrite
    · exact hc.counting.le_done (hp.acquired hlat hc (by simp [hpc]) hlast)
  · obtain ⟨i, hx, hlogs⟩ := h x acc hacc
    exact ⟨i, hx, hlogs.keep (Memory.extends_access ..) (Nat.le_refl _) rfl rfl fun _ => nofun⟩

theorem moves (hlat : 0 < p.latency) (h : Logged s) (hc : Coupled s) (hp : Paced s)
    (hst : s.Moves junk e t) : Logged t := by
  cases hst with
  | pushLoad _ _ hload =>
    exact h.keep (Memory.accesses_load hload) (Memory.extends_load hload) rfl rfl rfl id
  | pushTest _ hload =>
    exact h.keep (Memory.accesses_load hload) (Memory.extends_load hload) rfl rfl rfl id
  | pushStore hpc =>
    intro x acc hacc
    obtain ⟨i, hx, hlogs⟩ := h x acc hacc
    exact ⟨i, hx, hlogs.pushStore hc rfl rfl (by simp) rfl rfl⟩
  | fill hpc => exact h.fill hc hpc _
  | head _ _ hload =>
    exact h.keep (Memory.accesses_load hload) (Memory.extends_load hload) rfl rfl rfl id
  | tail _ hload =>
    exact h.keep (Memory.accesses_load hload) (Memory.extends_load hload) rfl rfl rfl id
  | leave => exact h.keep rfl (Memory.Extends.refl _) rfl rfl rfl id
  | popLoad _ hpc _ hload =>
    refine h.keep (Memory.accesses_load hload) (Memory.extends_load hload) rfl rfl rfl fun hne => ?_
    exact absurd (by rw [hpc]; rfl) hne
  | popTest hpc hload =>
    refine h.keep (Memory.accesses_load hload) (Memory.extends_load hload) rfl rfl rfl fun hne => ?_
    exact absurd (by rw [hpc]; rfl) hne
  | copy hpc => exact h.copy hlat hc hp hpc
  | popStore hpc =>
    intro x acc hacc
    obtain ⟨i, hx, hlogs⟩ := h x acc hacc
    exact ⟨i, hx, hlogs.popStore hc rfl rfl rfl⟩

end Logged

theorem logged_of_reachable (hlat : 0 < p.latency) (hlt : p.shape.mDepth.toNat < 2 ^ 32)
    (hs : (weakLatencyRun p junk mBuffer).Reachable s) : Logged s :=
  System.invariant (P := Logged) .start (fun hs h hst =>
    h.moves hlat (coupled_of_reachable hs) (paced_of_reachable hlat hlt hs) (moves_of_step hst)) hs

/-- Blocks of a window of counts share no element. -/
theorem not_within {i j x : ℕ} (hdepth : p.shape.mDepth.toNat = 2 ^ k) (hk : k ≤ 31)
    (hsize : p.shape.mDepth.toNat * p.shape.mWidth.toNat < 2 ^ 64) (hij : i < j)
    (hj : j < i + p.shape.mDepth.toNat) (hx : p.shape.within (p.shape.offset (count i)) x) :
    ¬ p.shape.within (p.shape.offset (count j)) x := by
  have hslots : slots k = p.shape.mDepth.toNat := (slots_eq (by omega)).trans hdepth.symm
  have hdisjoint := disjoint_block hdepth ((slots_mul_le hdepth).trans_lt hsize) hij (hslots ▸ hj)
  exact Set.disjoint_left.1 hdisjoint hx

/-- **The copy of a block that is not the last** comes after every write to it. -/
theorem raceFree_copy (hlat : 0 < p.latency) (hdepth : p.shape.mDepth.toNat = 2 ^ k) (hk : k ≤ 31)
    (hsize : p.shape.mDepth.toNat * p.shape.mWidth.toNat < 2 ^ 64)
    (hs : (weakLatencyRun p junk mBuffer).Reachable s) {tail : SizeT}
    (hpc : s.consumer = .passed tail) (hlast : s.taken.length + 1 < p.total) {x : ℕ}
    (hx : p.shape.within (p.shape.offset tail) x) : s.memory.RaceFree .consumer x false := by
  have hlt := depth_lt hdepth hk
  have hc := coupled_of_reachable hs
  have hnext := (paced_of_reachable hlat hlt hs).acquired hlat hc (by simp [hpc]) hlast
  obtain rfl := hc.tail (by rw [hpc]; rfl)
  intro acc hacc hwrite
  rw [Bool.or_false] at hwrite
  obtain ⟨i, hi, hlogs⟩ := logged_of_reachable hlat hlt hs x acc hacc
  obtain ⟨hfilled, hmade⟩ := hlogs.fill hwrite
  rcases Nat.lt_or_ge s.taken.length i with hlater | hle
  · -- a later fill is of another slot
    have hbound : s.handed.length ≤ s.taken.length + p.shape.mDepth.toNat :=
      (knowing_of_reachable hlt hs).le_add hc.counting
    have hle := hc.filled_le.1
    exact absurd hi (not_within hdepth hk hsize hlater (by omega) hx)
  · exact hmade.knows hc.counting (fun h => by simp [done, h]) hnext (by omega)

/-- **The fill of a block that is not the last** comes after every access to its slot. -/
theorem raceFree_fill (hlat : 0 < p.latency) (hdepth : p.shape.mDepth.toNat = 2 ^ k) (hk : k ≤ 31)
    (hsize : p.shape.mDepth.toNat * p.shape.mWidth.toNat < 2 ^ 64)
    (hs : (weakLatencyRun p junk mBuffer).Reachable s) {ptr : SizeT}
    (hpc : s.producer = .returned ptr) (hlast : s.handed.length < p.total) {x : ℕ}
    (hx : p.shape.within ptr x) : s.memory.RaceFree .producer x true := by
  have hlt := depth_lt hdepth hk
  have hc := coupled_of_reachable hs
  have hknow := knowing_of_reachable hlt hs
  obtain ⟨hlen, rfl⟩ := hc.returned hpc
  intro acc hacc _
  obtain ⟨i, hi, hlogs⟩ := logged_of_reachable hlat hlt hs x acc hacc
  cases hwrite : acc.write with
  | true => exact (hlogs.fill hwrite).2.known
  | false =>
    obtain ⟨hmade, hnext⟩ := hlogs.copy hwrite
    have hread : i < s.handed.length := by
      rcases hmade.le_or hc.counting with hle | ⟨rfl, hne⟩
      · exact Nat.lt_of_lt_of_le hle (hknow.le hc.counting)
      · exact hknow.lt hc.counting (CopyPc.holding_of_read hne)
    -- the block of this slot that was copied is an earlier one, and was released
    have hne : i ≠ s.filled.length := by
      rintro rfl
      have := hnext (by omega)
      omega
    have hwindow : ¬ s.filled.length < i + p.shape.mDepth.toNat := fun hin =>
      not_within hdepth hk hsize (by omega) hin hi hx
    obtain ⟨j, hj, hbound⟩ := hknow.bound
    have hbound : s.handed.length ≤ j + p.shape.mDepth.toNat := hbound
    refine hmade.knows hc.counting ?_ hj (by omega)
    rintro ⟨rfl, -⟩
    exact Nat.lt_succ_self _

/-! ## What the pops deliver -/

/-- The unread blocks that are filled hold what was filled in, and so does what was copied, but for
the last block. -/
structure Held (junk : ℕ → p.shape.Block E) (s : WeakBench p E) : Prop where
  filled : s.filled = (List.range s.filled.length).map junk
  holds : ∀ i, s.taken.length ≤ i → i < s.filled.length →
    s.readBlock (p.shape.offset (count i)) = junk i
  copied : ∀ i ptr block, (s.taken ++ s.consumer.read)[i]? = some (ptr, block) →
    i + 1 < p.total → block = junk i

namespace Held

theorem start : Held junk (WeakBench.start p mBuffer) :=
  ⟨rfl, fun _ _ => nofun, by simp [WeakBench.start, CopyPc.read]⟩

/-- A step that writes no block and copies none. -/
theorem keep (h : Held junk s) (hdata : t.memory.data = s.memory.data)
    (hfilled : t.filled = s.filled) (htaken : t.taken = s.taken)
    (hread : t.consumer.read = s.consumer.read) : Held junk t := by
  refine ⟨hfilled ▸ h.filled, ?_, ?_⟩
  · unfold WeakBench.readBlock
    rw [hdata, hfilled, htaken]
    exact h.holds
  · rw [htaken, hread]
    exact h.copied

/-- The fill writes the newest block, and no other unread one. -/
theorem fill (hdepth : p.shape.mDepth.toNat = 2 ^ k) (hk : k ≤ 31)
    (hsize : p.shape.mDepth.toNat * p.shape.mWidth.toNat < 2 ^ 64) (h : Held junk s)
    (hc : Coupled s) (hknow : Knowing s) {ptr : SizeT} (hpc : s.producer = .returned ptr) :
    Held junk { s with
      memory := s.fillMemory ptr (junk s.filled.length)
      producer := .idle, filled := s.filled ++ [junk s.filled.length] } := by
  have hbound : s.handed.length ≤ s.taken.length + p.shape.mDepth.toNat := hknow.le_add hc.counting
  obtain ⟨hlen, rfl⟩ := hc.returned hpc
  have hslots : slots k = p.shape.mDepth.toNat := (slots_eq (by omega)).trans hdepth.symm
  refine ⟨?_, fun i hi hlt => ?_, h.copied⟩
  · rw [List.length_append, List.length_singleton, List.range_succ, List.map_append, ← h.filled]
    rfl
  · rw [List.length_append, List.length_singleton] at hlt
    rcases Nat.lt_or_eq_of_le (Nat.le_of_lt_succ hlt) with hlt | rfl
    · have hi : s.taken.length ≤ i := hi
      have hdisjoint := disjoint_block hdepth ((slots_mul_le hdepth).trans_lt hsize) hlt (by omega)
      exact (Memory.readBlock_writeBlock_of_disjoint hdisjoint.symm).trans (h.holds i hi hlt)
    · exact Memory.readBlock_writeBlock _ _ _

/-- A copy of a block that is not the last reads what was filled in. -/
theorem copy (hlat : 0 < p.latency) (h : Held junk s) (hc : Coupled s) (hp : Paced s)
    {tail : SizeT} (hpc : s.consumer = .passed tail) :
    Held junk { s with
      memory := s.memory.access .consumer (p.shape.within (p.shape.offset tail)) false
      consumer := .copied tail (p.shape.offset tail) (s.readBlock (p.shape.offset tail)) } := by
  obtain rfl := hc.tail (by rw [hpc]; rfl)
  have hcopied := h.copied
  simp only [hpc, CopyPc.read, List.append_nil] at hcopied
  refine ⟨h.filled, h.holds, fun i ptr block hread hlast => ?_⟩
  rcases Nat.lt_or_ge i s.taken.length with hi | hi
  · rw [List.getElem?_append_left hi] at hread
    exact hcopied i ptr block hread hlast
  · rw [List.getElem?_append_right hi] at hread
    simp only [CopyPc.read, List.getElem?_singleton, Option.ite_none_right_eq_some,
      Option.some.injEq, Prod.mk.injEq] at hread
    obtain ⟨hlen, -, rfl⟩ := hread
    obtain rfl : i = s.taken.length := by omega
    -- the push after it is made, so its fill is
    have hnext : s.taken.length + 2 ≤ s.handed.length :=
      hc.counting.le_done (hp.acquired hlat hc (by simp [hpc]) hlast)
    have hfilled := hc.filled_le.2
    exact h.holds _ (Nat.le_refl _) (by omega)

theorem popStore (h : Held junk s) {tail ptr next : SizeT} {block : p.shape.Block E}
    {reader : Reader} (hpc : s.consumer = .copied tail ptr block) :
    Held junk { s with
      memory := s.memory.store .consumer .mRead next
      consumer := .idle, reader := reader, taken := s.taken ++ [(ptr, block)] } := by
  have hcopied := h.copied
  refine ⟨h.filled, fun i hi => h.holds i ?_, ?_⟩
  · rw [List.length_append, List.length_singleton] at hi
    exact (Nat.le_succ _).trans hi
  · simpa [hpc, CopyPc.read] using hcopied

theorem moves (hlat : 0 < p.latency) (hdepth : p.shape.mDepth.toNat = 2 ^ k) (hk : k ≤ 31)
    (hsize : p.shape.mDepth.toNat * p.shape.mWidth.toNat < 2 ^ 64) (h : Held junk s)
    (hc : Coupled s) (hknow : Knowing s) (hp : Paced s) (hst : s.Moves junk e t) : Held junk t := by
  cases hst with
  | pushLoad _ _ hload => exact h.keep (Memory.data_load hload) rfl rfl rfl
  | pushTest _ hload => exact h.keep (Memory.data_load hload) rfl rfl rfl
  | pushStore => exact h.keep rfl rfl rfl rfl
  | fill hpc => exact h.fill hdepth hk hsize hc hknow hpc
  | head _ _ hload => exact h.keep (Memory.data_load hload) rfl rfl rfl
  | tail _ hload => exact h.keep (Memory.data_load hload) rfl rfl rfl
  | leave => exact h.keep rfl rfl rfl rfl
  | popLoad _ hpc _ hload => exact h.keep (Memory.data_load hload) rfl rfl (by rw [hpc]; rfl)
  | @popTest _ _ _ _ more hpc hload =>
    exact h.keep (Memory.data_load hload) rfl rfl (by rw [hpc]; cases more <;> rfl)
  | copy hpc => exact h.copy hlat hc hp hpc
  | popStore hpc => exact h.popStore hpc

end Held

theorem held_of_reachable (hlat : 0 < p.latency) (hdepth : p.shape.mDepth.toNat = 2 ^ k)
    (hk : k ≤ 31) (hsize : p.shape.mDepth.toNat * p.shape.mWidth.toNat < 2 ^ 64)
    (hs : (weakLatencyRun p junk mBuffer).Reachable s) : Held junk s :=
  System.invariant (P := Held junk) .start (fun hs h hst =>
    h.moves hlat hdepth hk hsize (coupled_of_reachable hs)
      (knowing_of_reachable (depth_lt hdepth hk) hs)
      (paced_of_reachable hlat (depth_lt hdepth hk) hs) (moves_of_step hst)) hs

/-- What the benchmark guarantees of the blocks that are not the last. -/
structure HandsOff (junk : ℕ → p.shape.Block E) (s : WeakBench p E) : Prop where
  bound : s.taken.length ≤ s.handed.length ∧
    s.handed.length ≤ s.taken.length + p.shape.mDepth.toNat
  /-- A copy is ordered after the fill of its block. -/
  copy : ∀ tail, s.consumer = .passed tail → s.taken.length + 1 < p.total →
    ∀ x, p.shape.within (p.shape.offset tail) x → s.memory.RaceFree .consumer x false
  /-- A fill is ordered after the copies of the blocks that were at its slot. -/
  fill : ∀ ptr, s.producer = .returned ptr → s.handed.length < p.total →
    ∀ x, p.shape.within ptr x → s.memory.RaceFree .producer x true
  /-- The pops deliver what was filled in, in order. -/
  delivered : ∀ i ptr block, s.taken[i]? = some (ptr, block) → i + 1 < p.total → block = junk i

/-- **Without data races, and with its contents, but for the last block**: every run of the
benchmark with a latency, on a release/acquire memory. -/
theorem handsOff_of_reachable (hlat : 0 < p.latency) (hdepth : p.shape.mDepth.toNat = 2 ^ k)
    (hk : k ≤ 31) (hsize : p.shape.mDepth.toNat * p.shape.mWidth.toNat < 2 ^ 64)
    (hs : (weakLatencyRun p junk mBuffer).Reachable s) : s.HandsOff junk := by
  have hc := coupled_of_reachable hs
  have hknow := knowing_of_reachable (depth_lt hdepth hk) hs
  refine ⟨⟨hknow.le hc.counting, hknow.le_add hc.counting⟩,
    fun _ hpc hlast _ => raceFree_copy hlat hdepth hk hsize hs hpc hlast,
    fun _ hpc hlast _ => raceFree_fill hlat hdepth hk hsize hs hpc hlast, ?_⟩
  intro i ptr block hread
  refine (held_of_reachable hlat hdepth hk hsize hs).copied i ptr block ?_
  rw [List.getElem?_append_left (List.getElem?_eq_some_iff.1 hread).1]
  exact hread

/-- Three elements and a latency of one: the reader has copied the first block while the writer was
to fill the second. -/
theorem handsOff_of_reachable_three : ∃ s : WeakBench (Setup.main 3 0 1 1) ℕ,
    (s.taken = [(0, fun _ => 0)] ∧ s.handed.length = 2 ∧ s.filled.length = 1) ∧
      s.HandsOff fun i _ => i := by
  obtain ⟨s, hs, hp⟩ := (weakLatencyRun (Setup.main 3 0 1 1) (fun i _ => i)
    fun _ => (9 : ℕ)).exists_reachable
    (p := fun s => s.taken = [(0, fun _ => 0)] ∧ s.handed.length = 2 ∧ s.filled.length = 1)
    [.pushLoad 0, .pushTest 0 true, .pushStore, .fill, .pushLoad 1, .head 0, .pushTest 0 true,
      .pushStore, .tail 0, .leave false, .head 2, .tail 0, .leave true, .popLoad 0, .popTest 2 true,
      .copy, .popStore] (by decide)
  exact ⟨s, hp, handsOff_of_reachable (k := 1) (by decide) (by decide) (by decide) (by decide) hs⟩

/-- The copy of the last block is not ordered after its fill. -/
theorem exists_last_race : ∃ s : WeakBench (Setup.main 1 0 1 1) ℕ,
    (weakLatencyRun (Setup.main 1 0 1 1) (fun i _ => i) fun _ => 9).Reachable s ∧
      s.filled.length = 1 ∧ (∃ tail, s.consumer = .passed tail) ∧
        ¬ s.memory.RaceFree .consumer 0 false := by
  obtain ⟨s, hs, hp⟩ := (weakLatencyRun (Setup.main 1 0 1 1) (fun i _ => i)
    fun _ => (9 : ℕ)).exists_reachable
    (p := fun s => s.filled.length = 1 ∧ (s.consumer.holding = true ∧ s.consumer.read = []) ∧
      ¬ s.memory.RaceFree .consumer 0 false)
    [.pushLoad 0, .pushTest 0 true, .pushStore, .head 1, .tail 0, .leave true, .popLoad 0,
      .popTest 1 true, .fill] (by decide)
  obtain ⟨hfilled, ⟨hholding, hread⟩, hrace⟩ := hp
  refine ⟨s, hs, hfilled, ?_, hrace⟩
  cases hpc : s.consumer <;> simp_all [CopyPc.holding, CopyPc.read]

end WeakBench

end ThreadTests.Arene
