import ThreadTests.Core.Fair
import ThreadTests.Ring.Bitmask
import ThreadTests.Ring.Modulo

/-!
# Programs on the lock-free rings

A writer that pushes a list of values and a reader that makes a number of pops, with the blocking
calls: `push` repeats `tryPush` until that succeeds, and `pop` repeats `tryPop`. A thread that finds
the ring full, or empty, loads and tests again and again, and no step of it comes closer to the end;
but then the other thread can go on (`Program.helps`). So under a fair scheduler both threads end,
and the reader has got the first of the values, exactly when there are not more pops than pushes,
and not so many pushes more than pops that they do not fit (`finishes_iff`). `test_rb` is such a
program.
-/

namespace ThreadTests

universe u v

variable {κ : Type u} {T : Type v}

/-- What the two threads are to do: the values to be pushed, in order, and the number of pops. -/
structure Program (T : Type v) where
  values : List T
  pops : ℕ

inductive Role where
  | writer
  | reader
  deriving DecidableEq, Repr

/-- The threads in turn. -/
theorem Role.exists_turn (role : Role) (n : ℕ) :
    ∃ m, n ≤ m ∧ (if m % 2 = 0 then Role.writer else Role.reader) = role := by
  cases role with
  | writer => exact ⟨2 * n, by omega, if_pos (by omega)⟩
  | reader => exact ⟨2 * n + 1, by omega, if_neg (by omega)⟩

/-- The thread that takes the step. -/
def Step.role : Step T → Role
  | .pushLoad _ | .pushTest _ | .pushWrite | .pushStore => .writer
  | .popLoad | .popTest _ | .popRead | .popStore => .reader

namespace PushPc

/-- The argument of the call. -/
def val : PushPc κ T → Option T
  | .idle => none
  | .loaded val _ _ | .passed val _ _ | .written val _ _ => some val

/-- How many steps the call has before it, if it succeeds. -/
def stage : PushPc κ T → ℕ
  | .idle => 4
  | .loaded .. => 3
  | .passed .. => 2
  | .written .. => 1

theorem stage_pos (pc : PushPc κ T) : 0 < pc.stage := by cases pc <;> exact Nat.succ_pos _

theorem stage_le (pc : PushPc κ T) : pc.stage ≤ 4 := by cases pc <;> simp [stage]

end PushPc

namespace PopPc

def stage : PopPc κ T → ℕ
  | .idle => 4
  | .loaded _ => 3
  | .passed _ => 2
  | .copied .. => 1

theorem stage_pos (pc : PopPc κ T) : 0 < pc.stage := by cases pc <;> exact Nat.succ_pos _

theorem stage_le (pc : PopPc κ T) : pc.stage ≤ 4 := by cases pc <;> simp [stage]

end PopPc

/-- A move is a step, so the moves say all that a step needs. -/
theorem Arith.Moves.step_eq [DecidableEq κ] {a : Arith κ} {s t : Threads κ T} {e : Step T}
    (h : a.Moves s e t) : a.step s e = some t := by
  cases h with
  | pushLoad h => simp only [step, h]
  | pushTest h hr => simp only [step, h, hr, if_true]
  | pushWrite h => simp only [step, h]
  | pushStore h => simp only [step, h]
  | popLoad h => simp only [step, h]
  | popTest h hm => simp only [step, h, hm, if_true]
  | popRead h => simp only [step, h]
  | popStore h => simp only [step, h]

namespace Program

/-- A call begins with the next value, or while there are pops to be made. -/
def mayStep (p : Program T) (s : Threads κ T) : Step T → Prop
  | .pushLoad val => p.values[s.pushed.length]? = some val
  | .popLoad => s.popped.length < p.pops
  | _ => True

instance [DecidableEq T] (p : Program T) (s : Threads κ T) :
    (e : Step T) → Decidable (p.mayStep s e)
  | .pushLoad val => inferInstanceAs (Decidable (p.values[s.pushed.length]? = some val))
  | .popLoad => inferInstanceAs (Decidable (s.popped.length < p.pops))
  | .pushTest _ | .pushWrite | .pushStore | .popTest _ | .popRead | .popStore => isTrue trivial

/-- Both threads have returned. -/
structure Finished (p : Program T) (s : Threads κ T) : Prop where
  pushed : s.pushed = p.values
  popped : s.popped.length = p.pops
  producer : s.producer = .idle
  consumer : s.consumer = .idle

/-- The program on a ring. -/
def system [DecidableEq κ] [DecidableEq T] (p : Program T) (a : Arith κ) (mBuffer : ℕ → T) :
    System (Threads κ T) (Step T) :=
  (a.system mBuffer).restrict p.mayStep

/-! ## What the loops of the threads keep -/

/-- The values pushed are the first ones, and a call under way is one of the program. -/
structure Keeps (p : Program T) (s : Threads κ T) : Prop where
  pushed : s.pushed <+: p.values
  next : ∀ val, s.producer.val = some val → p.values[s.pushed.length]? = some val
  popped : s.popped.length ≤ p.pops
  more : s.consumer ≠ .idle → s.popped.length < p.pops

variable {p : Program T} {a : Arith κ} {mBuffer : ℕ → T} {s t : Threads κ T} {e : Step T}

theorem Keeps.moves [DecidableEq κ] (h : p.Keeps s) (hmay : p.mayStep s e) (hst : a.Moves s e t) :
    p.Keeps t := by
  cases hst with
  | @pushLoad val hpc =>
    refine ⟨h.pushed, ?_, h.popped, h.more⟩
    rintro _ ⟨⟩
    exact hmay
  | @pushTest val tail next room hpc =>
    refine ⟨h.pushed, fun v hv => h.next v ?_, h.popped, h.more⟩
    cases room with
    | false => cases hv
    | true => rwa [hpc]
  | pushWrite hpc => exact ⟨h.pushed, fun v hv => h.next v (by rwa [hpc]), h.popped, h.more⟩
  | @pushStore val tail next hpc =>
    have hnext := h.next val (by rw [hpc]; rfl)
    refine ⟨?_, nofun, h.popped, h.more⟩
    obtain ⟨rest, hrest⟩ := h.pushed
    rw [← hrest, List.getElem?_append_right (Nat.le_refl _), Nat.sub_self] at hnext
    obtain ⟨rest', rfl⟩ : ∃ rest', rest = val :: rest' := by
      cases rest with
      | nil => cases hnext
      | cons x rest' =>
        cases hnext
        exact ⟨rest', rfl⟩
    exact ⟨rest', by rw [← hrest, List.append_assoc, List.singleton_append]⟩
  | popLoad => exact ⟨h.pushed, h.next, h.popped, fun _ => hmay⟩
  | @popTest head more hpc =>
    exact ⟨h.pushed, h.next, h.popped, fun _ => h.more (by simp [hpc])⟩
  | popRead hpc => exact ⟨h.pushed, h.next, h.popped, fun _ => h.more (by simp [hpc])⟩
  | popStore hpc =>
    refine ⟨h.pushed, h.next, ?_, fun hne => absurd rfl hne⟩
    simpa using Nat.succ_le_of_lt (h.more (by simp [hpc]))

section Runs

variable [DecidableEq κ] [DecidableEq T]

theorem ring_reachable (hs : (p.system a mBuffer).Reachable s) : (a.system mBuffer).Reachable s :=
  hs.of_restrict

theorem keeps_of_reachable (hs : (p.system a mBuffer).Reachable s) : p.Keeps s := by
  refine System.invariant (P := p.Keeps) ?_ (fun {s t e} _ h hst => ?_) hs
  · exact ⟨List.nil_prefix, nofun, Nat.zero_le _, fun hne => absurd rfl hne⟩
  · obtain ⟨hmay, hst⟩ := System.restrict_step.1 hst
    exact h.moves hmay (Arith.moves_of_step hst)

end Runs

/-! ## Who can go on -/

variable {cap : ℕ} {L : LowerSet ℕ}

/-- The writer has a value to push, and room for it. -/
def MayPush (p : Program T) (cap : ℕ) (s : Threads κ T) : Prop :=
  s.pushed.length < p.values.length ∧ s.pushed.length < s.popped.length + cap

/-- The reader has a pop to make, and something to pop. -/
def MayPop (p : Program T) (s : Threads κ T) : Prop :=
  s.popped.length < p.pops ∧ s.popped.length < s.pushed.length

instance (p : Program T) (cap : ℕ) (s : Threads κ T) : Decidable (p.MayPush cap s) :=
  inferInstanceAs (Decidable (_ ∧ _))

instance (p : Program T) (s : Threads κ T) : Decidable (p.MayPop s) :=
  inferInstanceAs (Decidable (_ ∧ _))

/-- The writer goes first where it can; otherwise the reader can. -/
def helper (p : Program T) (cap : ℕ) (s : Threads κ T) : Role :=
  if p.MayPush cap s then .writer else .reader

/-- How many calls are to be completed. -/
def calls (p : Program T) (s : Threads κ T) : ℕ :=
  p.values.length - s.pushed.length + (p.pops - s.popped.length)

/-- The steps of a call that will succeed; what else the writer does is repeated. -/
def writerLeft (p : Program T) (cap : ℕ) (s : Threads κ T) : ℕ :=
  if p.MayPush cap s then s.producer.stage else 4

def readerLeft (p : Program T) (s : Threads κ T) : ℕ :=
  if p.MayPop s then s.consumer.stage else 4

/-- What is left to do; a call to be completed counts more than the steps within calls. -/
def rank (p : Program T) (cap : ℕ) (s : Threads κ T) : ℕ :=
  8 * p.calls s + p.writerLeft cap s + p.readerLeft s

theorem rank_bounds (p : Program T) (cap : ℕ) (s : Threads κ T) :
    8 * p.calls s < p.rank cap s ∧ p.rank cap s ≤ 8 * p.calls s + 8 := by
  have hproducer := s.producer.stage_pos
  have hproducer' := s.producer.stage_le
  have hconsumer := s.consumer.stage_pos
  have hconsumer' := s.consumer.stage_le
  unfold rank writerLeft readerLeft
  split <;> split <;> omega

/-- The completion of a call. -/
theorem rank_lt_of_calls (hlt : p.calls t < p.calls s) : p.rank cap t < p.rank cap s := by
  have := (p.rank_bounds cap s).1
  have := (p.rank_bounds cap t).2
  omega

/-- A step comes closer to the end, or is one of a thread that does not help. -/
def Closer (p : Program T) (cap : ℕ) (role : Role) (s t : Threads κ T) : Prop :=
  p.rank cap t < p.rank cap s ∨
    p.rank cap t = p.rank cap s ∧ p.helper cap t = p.helper cap s ∧ role ≠ p.helper cap s

/-- A step of the writer within its call. -/
theorem closer_producer {pc : PushPc κ T} {mBuffer : ℕ → T}
    (hstage : p.MayPush cap s → pc.stage < s.producer.stage) :
    p.Closer cap .writer s { s with mBuffer := mBuffer, producer := pc } := by
  have hreader : p.readerLeft { s with mBuffer := mBuffer, producer := pc } = p.readerLeft s := rfl
  have hcalls : p.calls { s with mBuffer := mBuffer, producer := pc } = p.calls s := rfl
  by_cases hmay : p.MayPush cap s
  · have hlt := hstage hmay
    have hleft : p.writerLeft cap { s with mBuffer := mBuffer, producer := pc } = pc.stage :=
      if_pos hmay
    have hleft' : p.writerLeft cap s = s.producer.stage := if_pos hmay
    refine .inl ?_
    unfold rank
    omega
  · have hleft : p.writerLeft cap { s with mBuffer := mBuffer, producer := pc } = 4 := if_neg hmay
    have hleft' : p.writerLeft cap s = 4 := if_neg hmay
    have hhelper : p.helper cap s = .reader := if_neg hmay
    refine .inr ⟨?_, rfl, ?_⟩
    · unfold rank
      omega
    · rw [hhelper]
      exact nofun

/-- A step of the reader within its call; it helps only where it can pop. -/
theorem closer_consumer {pc : PopPc κ T} (hstage : p.MayPop s → pc.stage < s.consumer.stage)
    (hhelps : ¬ p.MayPop s → p.MayPush cap s) :
    p.Closer cap .reader s { s with consumer := pc } := by
  have hwriter : p.writerLeft cap { s with consumer := pc } = p.writerLeft cap s := rfl
  have hcalls : p.calls { s with consumer := pc } = p.calls s := rfl
  by_cases hmay : p.MayPop s
  · have hlt := hstage hmay
    have hleft : p.readerLeft { s with consumer := pc } = pc.stage := if_pos hmay
    have hleft' : p.readerLeft s = s.consumer.stage := if_pos hmay
    refine .inl ?_
    unfold rank
    omega
  · have hleft : p.readerLeft { s with consumer := pc } = 4 := if_neg hmay
    have hleft' : p.readerLeft s = 4 := if_neg hmay
    have hhelper : p.helper cap s = .writer := if_pos (hhelps hmay)
    refine .inr ⟨?_, rfl, ?_⟩
    · unfold rank
      omega
    · rw [hhelper]
      exact nofun

/-- There are no more pops than pushes, and what is not popped fits into the ring. -/
def Balanced (p : Program T) (cap : ℕ) : Prop :=
  p.pops ≤ p.values.length ∧ p.values.length ≤ p.pops + cap

/-- **One of the threads can go on**, until both have returned. -/
theorem Balanced.mayPush_or_mayPop (hp : p.Balanced cap) (hcap : 0 < cap)
    (hpushed : s.pushed.length ≤ p.values.length) (hpopped : s.popped.length ≤ p.pops)
    (hle : s.popped.length ≤ s.pushed.length) (hcalls : 0 < p.calls s) :
    p.MayPush cap s ∨ p.MayPop s := by
  obtain ⟨hpops, hroom⟩ := hp
  unfold calls at hcalls
  unfold MayPush MayPop
  omega

theorem Keeps.pushed_le (h : p.Keeps s) : s.pushed.length ≤ p.values.length := h.pushed.length_le

/-- The threads return from their last calls. -/
theorem Keeps.finished (h : p.Keeps s) (hcalls : p.calls s = 0) : p.Finished s := by
  have hle := h.pushed_le
  have hpopped := h.popped
  unfold calls at hcalls
  refine ⟨h.pushed.eq_of_length_le (by omega), by omega, ?_, ?_⟩
  · cases hpc : s.producer with
    | idle => rfl
    | loaded val | passed val | written val =>
      have hlt := (List.getElem?_eq_some_iff.1 (h.next val (by rw [hpc]; rfl))).1
      omega
  · by_contra hne
    have := h.more hne
    omega

section Fair

variable [DecidableEq κ]

/-- A step of the writer. -/
theorem closer_push (ha : a.Faithful cap L) (hs : (a.system mBuffer).Reachable s)
    (hL : s.pushed.length ∈ L) (h : p.Keeps s) (hrole : e.role = .writer)
    (hst : a.Moves s e t) (hstep : a.step s e = some t) : p.Closer cap .writer s t := by
  cases hst with
  | pushLoad hpc => exact closer_producer fun _ => by rw [hpc]; exact Nat.lt_succ_self 3
  | @pushTest val tail next room hpc hr =>
    refine closer_producer fun hmay => ?_
    cases room with
    | true =>
      rw [hpc]
      exact Nat.lt_succ_self 2
    | false =>
      -- a test is refused only by a full ring
      have hle := (Arith.window ha hs hL).1
      have hfull := (Arith.push_test_of_reachable ha hs hL hstep).1 rfl
      rw [Threads.unread, List.length_drop] at hfull
      have := hmay.2
      omega
  | pushWrite hpc => exact closer_producer fun _ => by rw [hpc]; exact Nat.lt_succ_self 1
  | @pushStore val tail next hpc =>
    have hlt := (List.getElem?_eq_some_iff.1 (h.next val (by rw [hpc]; rfl))).1
    refine .inl (rank_lt_of_calls ?_)
    simp only [calls, List.length_append, List.length_singleton]
    omega
  | popLoad | popTest | popRead | popStore => cases hrole

/-- A step of the reader. -/
theorem closer_pop (ha : a.Faithful cap L) (hcap : 0 < cap) (hp : p.Balanced cap)
    (hs : (a.system mBuffer).Reachable s) (hL : s.pushed.length ∈ L) (h : p.Keeps s)
    (hmay : p.mayStep s e) (hrole : e.role = .reader) (hst : a.Moves s e t)
    (hstep : a.step s e = some t) : p.Closer cap .reader s t := by
  have hle := (Arith.window ha hs hL).1
  have hhelps : s.popped.length < p.pops → ¬ p.MayPop s → p.MayPush cap s := fun hlt hnot =>
    (hp.mayPush_or_mayPop hcap h.pushed_le h.popped hle (by unfold calls; omega)).resolve_right hnot
  cases hst with
  | popLoad hpc =>
    exact closer_consumer (fun _ => by rw [hpc]; exact Nat.lt_succ_self 3) (hhelps hmay)
  | @popTest head more hpc =>
    refine closer_consumer (fun hpop => ?_) (hhelps (h.more (by simp [hpc])))
    cases more with
    | true =>
      rw [hpc]
      exact Nat.lt_succ_self 2
    | false =>
      have hempty := (Arith.pop_test_of_reachable ha hs hL hstep).1 rfl
      rw [Threads.unread, List.drop_eq_nil_iff] at hempty
      have := hpop.2
      omega
  | popRead hpc =>
    exact closer_consumer (fun _ => by rw [hpc]; exact Nat.lt_succ_self 1)
      (hhelps (h.more (by simp [hpc])))
  | popStore hpc =>
    have hlt := h.more (by simp [hpc])
    refine .inl (rank_lt_of_calls ?_)
    simp only [calls, List.length_append, List.length_singleton]
    omega
  | pushLoad | pushTest | pushWrite | pushStore => cases hrole

/-- Every step comes closer, or is one of a thread that does not help. -/
theorem Keeps.closer (h : p.Keeps s) (ha : a.Faithful cap L) (hcap : 0 < cap)
    (hp : p.Balanced cap) (hs : (a.system mBuffer).Reachable s) (hL : s.pushed.length ∈ L)
    (hmay : p.mayStep s e) (hst : a.Moves s e t) : p.Closer cap e.role s t := by
  cases hrole : e.role with
  | writer => exact closer_push ha hs hL h hrole hst hst.step_eq
  | reader => exact closer_pop ha hcap hp hs hL h hmay hrole hst hst.step_eq

variable [DecidableEq T]

theorem enabled_of_moves (hmay : p.mayStep s e) (hst : a.Moves s e t) :
    (p.system a mBuffer).Enabled Step.role e.role s :=
  ⟨e, t, rfl, System.restrict_step.2 ⟨hmay, hst.step_eq⟩⟩

theorem writer_enabled (hmay : p.MayPush cap s) :
    (p.system a mBuffer).Enabled Step.role .writer s := by
  have hlt := hmay.1
  cases hpc : s.producer with
  | idle =>
    exact enabled_of_moves (e := .pushLoad p.values[s.pushed.length])
      (List.getElem?_eq_getElem hlt) (.pushLoad hpc)
  | loaded => exact enabled_of_moves (e := .pushTest _) trivial (.pushTest hpc rfl)
  | passed => exact enabled_of_moves (e := .pushWrite) trivial (.pushWrite hpc)
  | written => exact enabled_of_moves (e := .pushStore) trivial (.pushStore hpc)

theorem reader_enabled (hmay : p.MayPop s) :
    (p.system a mBuffer).Enabled Step.role .reader s := by
  cases hpc : s.consumer with
  | idle => exact enabled_of_moves (e := .popLoad) hmay.1 (.popLoad hpc)
  | loaded => exact enabled_of_moves (e := .popTest _) trivial (.popTest hpc rfl)
  | passed => exact enabled_of_moves (e := .popRead) trivial (.popRead hpc)
  | copied => exact enabled_of_moves (e := .popStore) trivial (.popStore hpc)

/-- Until the end the helper has a step to take. -/
theorem Keeps.enabled (h : p.Keeps s) (ha : a.Faithful cap L) (hcap : 0 < cap)
    (hp : p.Balanced cap) (hs : (a.system mBuffer).Reachable s) (hL : s.pushed.length ∈ L)
    (hnot : ¬ p.Finished s) : (p.system a mBuffer).Enabled Step.role (p.helper cap s) s := by
  have hle := (Arith.window ha hs hL).1
  have hcalls : 0 < p.calls s := Nat.pos_of_ne_zero fun hzero => hnot (h.finished hzero)
  unfold helper
  by_cases hmay : p.MayPush cap s
  · rw [if_pos hmay]
    exact writer_enabled hmay
  · rw [if_neg hmay]
    exact reader_enabled ((hp.mayPush_or_mayPop hcap h.pushed_le h.popped hle
      hcalls).resolve_left hmay)

/-- **The helper comes closer to the end**, whatever the other thread does. -/
theorem helps (ha : a.Faithful cap L) (hL : p.values.length ∈ L) (hcap : 0 < cap)
    (hp : p.Balanced cap) (mBuffer : ℕ → T) :
    System.Helps (p.system a mBuffer) Step.role p.Finished (p.rank cap) (p.helper cap) where
  enabled {s} hs hnot := by
    have h := keeps_of_reachable hs
    exact h.enabled ha hcap hp (ring_reachable hs) (L.lower h.pushed_le hL) hnot
  step {s t e} hs _ hst := by
    have h := keeps_of_reachable hs
    obtain ⟨hmay, hst⟩ := System.restrict_step.1 hst
    exact h.closer ha hcap hp (ring_reachable hs) (L.lower h.pushed_le hL) hmay
      (Arith.moves_of_step hst)

/-! ## The end -/

/-- Nothing happens after the end. -/
theorem Finished.step_eq_none (h : p.Finished s) (e : Step T) :
    (p.system a mBuffer).step s e = none := by
  rw [Option.eq_none_iff_forall_ne_some]
  intro t hst
  obtain ⟨hmay, hst⟩ := System.restrict_step.1 hst
  obtain ⟨hpushed, hpopped, hproducer, hconsumer⟩ := h
  cases Arith.moves_of_step hst with
  | pushLoad =>
    have hlt := (List.getElem?_eq_some_iff.1 hmay).1
    rw [hpushed] at hlt
    exact Nat.lt_irrefl _ hlt
  | pushTest hpc => cases hproducer.symm.trans hpc
  | pushWrite hpc => cases hproducer.symm.trans hpc
  | pushStore hpc => cases hproducer.symm.trans hpc
  | popLoad =>
    have hlt : s.popped.length < p.pops := hmay
    exact Nat.lt_irrefl _ (hpopped ▸ hlt)
  | popTest hpc => cases hconsumer.symm.trans hpc
  | popRead hpc => cases hconsumer.symm.trans hpc
  | popStore hpc => cases hconsumer.symm.trans hpc

omit [DecidableEq T] in
/-- In the end the reader has the first of the values. -/
theorem Finished.popped_eq (h : p.Finished s) (ha : a.Faithful cap L) (hL : p.values.length ∈ L)
    (hs : (a.system mBuffer).Reachable s) : s.popped = p.values.take p.pops := by
  have hL : s.pushed.length ∈ L := h.pushed ▸ hL
  have hfifo := (Arith.safe_of_reachable ha hs hL).fifo
  rw [← h.popped, ← h.pushed]
  exact List.prefix_iff_eq_take.1 hfifo

omit [DecidableEq T] in
/-- Only a balanced program ends. -/
theorem Finished.balanced (h : p.Finished s) (ha : a.Faithful cap L) (hL : p.values.length ∈ L)
    (hs : (a.system mBuffer).Reachable s) : p.Balanced cap := by
  have hL : s.pushed.length ∈ L := h.pushed ▸ hL
  obtain ⟨hle, hbound, -⟩ := Arith.window ha hs hL
  rw [Threads.unread, List.length_drop] at hbound
  rw [h.pushed, h.popped] at hle hbound
  exact ⟨hle, by omega⟩

/-- Under a fair scheduler a balanced program ends. -/
theorem Balanced.ends (hp : p.Balanced cap) (ha : a.Faithful cap L) (hL : p.values.length ∈ L)
    (hcap : 0 < cap) {x : (p.system a mBuffer).Execution} (hx : x.Fair Step.role) :
    ∃ n, ∀ m, n ≤ m → p.Finished (x.state m) ∧ (x.state m).popped = p.values.take p.pops := by
  obtain ⟨n, hn⟩ := x.eventually (helps ha hL hcap hp mBuffer) hx
  refine ⟨n, fun m hnm => ?_⟩
  have hm : p.Finished (x.state m) := x.stable (fun _ h hst => ?_) hn hnm
  · exact ⟨hm, hm.popped_eq ha hL (ring_reachable (x.reachable m))⟩
  · rw [h.step_eq_none] at hst
    cases hst

/-- **When a program ends.** A ring with faithful counters lets the two threads end under every fair
scheduler, with the first of the values delivered in order, if the program is balanced; no other
program ends at all. -/
theorem finishes_iff (ha : a.Faithful cap L) (hL : p.values.length ∈ L) (hcap : 0 < cap)
    (mBuffer : ℕ → T) :
    ((∃ s, (p.system a mBuffer).Reachable s ∧ p.Finished s) ↔ p.Balanced cap) ∧
      (p.Balanced cap → ∀ x : (p.system a mBuffer).Execution, x.Fair Step.role →
        ∃ n, ∀ m, n ≤ m →
          p.Finished (x.state m) ∧ (x.state m).popped = p.values.take p.pops) := by
  refine ⟨⟨?_, fun hp => ?_⟩, fun hp x hx => hp.ends ha hL hcap hx⟩
  · rintro ⟨s, hs, hfinished⟩
    exact hfinished.balanced ha hL (ring_reachable hs)
  · exact (helps ha hL hcap hp mBuffer).exists_reachable

end Fair

/-- Three pushes and one pop end on a modulo ring of two slots, and leave two values. -/
theorem finishes_iff_three : ∃ x : ((Program.mk [7, 8, 9] 1).system
      (RingBufferSPSCLockFree.arith 2) fun _ => 0).Execution,
    ∃ n, ∀ m, n ≤ m → (Program.mk [7, 8, 9] 1).Finished (x.state m) ∧ (x.state m).popped = [7] := by
  obtain ⟨x, hx⟩ := System.exists_fair ((Program.mk [7, 8, 9] 1).system
    (RingBufferSPSCLockFree.arith 2) fun _ => 0) Step.role Role.exists_turn
  have hL : (Program.mk [7, 8, 9] 1).values.length ∈ LowerSet.Iio (2 ^ 31) :=
    (by decide : 3 < 2 ^ 31)
  exact ⟨x, (finishes_iff (RingBufferSPSCLockFree.faithful_of_lt (by decide)) hL (by decide)
    _).2 ⟨by decide, by decide⟩ x hx⟩

end Program

/-! ## `test_rb` -/

/-- `nbits` is 20. -/
def testRbBufsize : CInt := 2 <<< 20

/-- The writer pushes the numbers below `nelements`, and the reader makes as many pops. -/
def testRb (nelements : CInt) : Program CInt where
  values := (List.range nelements.toInt.toNat).map (BitVec.ofNat 32)
  pops := nelements.toInt.toNat

theorem testRb_balanced (nelements : CInt) (cap : ℕ) : (testRb nelements).Balanced cap := by
  simp [Program.Balanced, testRb]

theorem length_testRb (nelements : CInt) :
    (testRb nelements).values.length = nelements.toInt.toNat := by
  simp [testRb]

theorem take_testRb (nelements : CInt) :
    (testRb nelements).values.take (testRb nelements).pops = (testRb nelements).values :=
  List.take_of_length_le (length_testRb nelements).le

/-- The threads of `test_rb` end under every fair scheduler, and the numbers are popped in order. -/
def TestRbEnds [DecidableEq κ] (nelements : CInt) (a : Arith κ) : Prop :=
  ∀ (mBuffer : ℕ → CInt) (x : ((testRb nelements).system a mBuffer).Execution), x.Fair Step.role →
    ∃ n, ∀ m, n ≤ m →
      (testRb nelements).Finished (x.state m) ∧ (x.state m).popped = (testRb nelements).values

theorem testRbEnds_of_faithful [DecidableEq κ] {nelements : CInt} {a : Arith κ} {cap : ℕ}
    {L : LowerSet ℕ} (ha : a.Faithful cap L) (hL : nelements.toInt.toNat ∈ L) (hcap : 0 < cap) :
    TestRbEnds nelements a := by
  intro mBuffer x hx
  rw [← take_testRb]
  exact (testRb_balanced nelements cap).ends ha (by rwa [length_testRb]) hcap hx

theorem toNat_lt (nelements : CInt) : nelements.toInt.toNat < 2 ^ 31 := by
  have := BitVec.two_mul_toInt_lt (x := nelements)
  omega

/-- The size of the bitmask ring of `test_rb`. -/
theorem mMask_testRb :
    (RingBufferSPSCLockFree2.mMask (intToSize testRbBufsize)).toNat + 1 ≤ 2 ^ 31 := by
  decide +kernel

/-- **`test_rb` ends on both rings**, for every number of elements. -/
theorem testRb_ends (nelements : CInt) :
    TestRbEnds nelements (RingBufferSPSCLockFree.arith (intToSize testRbBufsize)) ∧
      TestRbEnds nelements (RingBufferSPSCLockFree2.arith (intToSize testRbBufsize)) :=
  ⟨testRbEnds_of_faithful (RingBufferSPSCLockFree.faithful_of_lt (by decide)) (toNat_lt nelements)
      (by decide),
    testRbEnds_of_faithful (RingBufferSPSCLockFree2.faithful mMask_testRb) trivial
      (Nat.succ_pos _)⟩

end ThreadTests
