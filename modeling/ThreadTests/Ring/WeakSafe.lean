import ThreadTests.Core.Timely
import ThreadTests.Ring.Weak

/-!
# The lock-free rings are safe on a release/acquire memory

The accesses to the slots are ordered by the messages that let their threads pass: a push writes a
slot only after it has acquired the release of the value that was there, and a pop reads it only
after it has acquired the publication (`raceFree_write`, `raceFree_read`). Without data races, and
with tests that succeed only if they would on the current counters, the ring reaches what it reaches
sequentially (`weak_reachable_iff`), and is the same bounded queue.
-/

namespace ThreadTests

open ReleaseAcquire

universe u v

variable {κ : Type u} {T : Type v}

namespace Arith

variable {a : Arith κ} {mBuffer : ℕ → T} {s t : WeakThreads κ T} {e : WeakStep T} {cap : ℕ}
  {L : LowerSet ℕ}

/-! ## The order of the accesses to the slots -/

/-- The counter that the thread of an access stores afterwards. -/
def accessor (acc : Access Party) : Counter := if acc.write then .mWrite else .mRead

/-- An access for the call `k`: it is stored with the message `k + 1`, or its thread has made it in
the call in progress. -/
def Logs (s : WeakThreads κ T) (acc : Access Party) (k : ℕ) : Prop :=
  Made (accessor acc) acc.stamp (k + 1)
    (k = s.done (accessor acc) ∧ s.pending (accessor acc) = true) s.memory

/-- The pushes write the slots of their counts, and the pops read them. -/
def Logged (a : Arith κ) (s : WeakThreads κ T) : Prop :=
  ∀ x, ∀ acc ∈ s.memory.accesses x, ∃ k, a.slot (a.count k) = x ∧ Logs s acc k

variable {acc : Access Party} {k : ℕ}

theorem Logs.lt_or (h : Logs s acc k) (hc : WeakCoupled a s) : k < s.done (accessor acc) ∨
    k = s.done (accessor acc) ∧ s.pending (accessor acc) = true :=
  Made.le_or h hc.counting

/-- Who knows of the message after an access knows of the access. -/
theorem Logs.knows (h : Logs s acc k) (hc : WeakCoupled a s) {p : Party} {j : ℕ}
    (hj : s.memory.Acquired p (accessor acc) j) (hlt : k < j) : s.memory.Knows p acc.stamp := by
  refine Made.knows h hc.counting ?_ hj hlt
  rintro ⟨rfl, -⟩
  exact Nat.lt_succ_self _

/-- A pop reads only what is published. -/
theorem Logs.read_lt (h : Logs s acc k) (hacc : accessor acc = .mRead) (hc : WeakCoupled a s)
    (hk : Knowing cap s) : k < s.pushed.length := by
  rcases h.lt_or hc with hlt | ⟨rfl, hpend⟩
  · rw [hacc] at hlt
    exact Nat.lt_of_lt_of_le hlt (hk.le hc.counting)
  · rw [hacc] at hpend ⊢
    refine hk.lt hc.counting ?_
    cases hcons : s.consumer <;> simp_all [WeakThreads.pending, PopPc.phase]

/-- A push writes only what is released. -/
theorem Logs.write_lt (h : Logs s acc k) (hacc : accessor acc = .mWrite) (hc : WeakCoupled a s)
    (hk : Knowing cap s) : k < s.popped.length + cap := by
  rcases h.lt_or hc with hlt | ⟨rfl, hpend⟩
  · rw [hacc] at hlt
    exact Nat.lt_of_lt_of_le hlt (hk.le_add hc.counting)
  · rw [hacc] at hpend ⊢
    refine hk.lt_add hc.counting ?_
    cases hprod : s.producer <;> simp_all [WeakThreads.pending, PushPc.target]

namespace Logged

/-- A step that stores nothing, and after which who was to store still is, keeps the log. -/
theorem logs_keep {memory : Memory Party Counter κ ℕ T} {producer : PushPc κ T}
    {consumer : PopPc κ T} (hext : s.memory.Extends memory)
    (hpending : ∀ c, s.pending c = true → WeakThreads.pending
      { s with memory := memory, producer := producer, consumer := consumer } c = true)
    (h : Logs s acc k) :
    Logs { s with memory := memory, producer := producer, consumer := consumer } acc k := by
  refine Made.keep h hext ?_
  rintro ⟨rfl, hpend⟩
  refine ⟨?_, hpending _ hpend⟩
  cases accessor acc <;> rfl

theorem keep (h : Logged a s) {memory : Memory Party Counter κ ℕ T} {producer : PushPc κ T}
    {consumer : PopPc κ T} (hext : s.memory.Extends memory)
    (haccesses : memory.accesses = s.memory.accesses)
    (hpending : ∀ c, s.pending c = true → WeakThreads.pending
      { s with memory := memory, producer := producer, consumer := consumer } c = true) :
    Logged a { s with memory := memory, producer := producer, consumer := consumer } := by
  intro x acc hacc
  change acc ∈ memory.accesses x at hacc
  rw [haccesses] at hacc
  obtain ⟨k, hslot, hlogs⟩ := h x acc hacc
  exact ⟨k, hslot, logs_keep hext hpending hlogs⟩

/-- An access for the call in progress is to be followed by its store. -/
theorem access (h : Logged a s) {c : Counter} {memory : Memory Party Counter κ ℕ T}
    {producer : PushPc κ T} {consumer : PopPc κ T} (hext : s.memory.Extends memory)
    (haccesses : ∀ x, ∀ acc ∈ memory.accesses x,
      (x = a.slot (a.count (s.done c)) ∧ accessor acc = c ∧ memory.Knows c.owner acc.stamp) ∨
        acc ∈ s.memory.accesses x)
    (hnow : WeakThreads.pending
      { s with memory := memory, producer := producer, consumer := consumer } c = true)
    (hpending : ∀ d, s.pending d = true → WeakThreads.pending
      { s with memory := memory, producer := producer, consumer := consumer } d = true) :
    Logged a { s with memory := memory, producer := producer, consumer := consumer } := by
  intro x acc hacc
  rcases haccesses x acc hacc with ⟨rfl, rfl, hknows⟩ | hacc
  · refine ⟨_, rfl, hknows, .inr ⟨?_, hnow⟩⟩
    cases accessor acc <;> rfl
  · obtain ⟨k, hslot, hlogs⟩ := h x acc hacc
    exact ⟨k, hslot, logs_keep hext hpending hlogs⟩

/-- A store publishes the access that was waiting for it, and leaves the others waiting. -/
theorem store (h : Logged a s) (hc : WeakCoupled a s) {c : Counter} {next : κ}
    (hmem : t.memory = s.memory.store c.owner c next) (hdone : ∀ d, d ≠ c → t.done d = s.done d)
    (hpending : ∀ d, d ≠ c → s.pending d = true → t.pending d = true) : Logged a t := by
  intro x acc hacc
  rw [hmem] at hacc
  obtain ⟨k, hslot, hlogs⟩ := h x acc hacc
  refine ⟨k, hslot, ?_⟩
  unfold Logs
  rw [hmem]
  by_cases hd : accessor acc = c
  · subst hd
    refine Made.store hlogs ?_ next
    rintro ⟨rfl, -⟩
    exact hc.counting.length _
  · refine Made.keep hlogs (Memory.extends_store ..) ?_
    rintro ⟨rfl, hpend⟩
    exact ⟨(hdone _ hd).symm, hpending _ hd hpend⟩

theorem moves [DecidableEq κ] (h : Logged a s) (hc : WeakCoupled a s) (hst : a.WeakMoves s e t) :
    Logged a t := by
  cases hst with
  | pushLoad hpc hload =>
    refine h.keep (Memory.extends_load hload) (Memory.accesses_load hload) fun c hp => ?_
    cases c with
    | mWrite => simp [WeakThreads.pending, hpc] at hp
    | mRead => exact hp
  | pushTest hpc hload hr =>
    refine h.keep (Memory.extends_load hload) (Memory.accesses_load hload) fun c hp => ?_
    cases c with
    | mWrite => simp [WeakThreads.pending, hpc] at hp
    | mRead => exact hp
  | @pushWrite val tail next hpc =>
    obtain ⟨rfl, -⟩ := hc.producer (by rw [hpc]; rfl)
    refine h.access (c := .mWrite) (Memory.extends_write ..) (fun x acc hacc => ?_) rfl
      fun c hp => ?_
    · rcases Memory.mem_accesses_write hacc with ⟨rfl, hw, hknows⟩ | hacc
      · exact .inl ⟨rfl, by rw [accessor, hw, if_pos rfl], hknows⟩
      · exact .inr hacc
    · cases c with
      | mWrite => rfl
      | mRead => exact hp
  | pushStore hpc =>
    refine h.store hc (c := .mWrite) rfl (fun d hd => ?_) fun d hd hp => ?_
    · cases d with
      | mWrite => exact absurd rfl hd
      | mRead => rfl
    · cases d with
      | mWrite => exact absurd rfl hd
      | mRead => exact hp
  | popLoad hpc hload =>
    refine h.keep (Memory.extends_load hload) (Memory.accesses_load hload) fun c hp => ?_
    cases c with
    | mWrite => exact hp
    | mRead => simp [WeakThreads.pending, hpc] at hp
  | popTest hpc hload hm =>
    refine h.keep (Memory.extends_load hload) (Memory.accesses_load hload) fun c hp => ?_
    cases c with
    | mWrite => exact hp
    | mRead => simp [WeakThreads.pending, hpc] at hp
  | @popRead head hpc =>
    obtain rfl := hc.consumer (by rw [hpc]; rfl)
    refine h.access (c := .mRead) (Memory.extends_access ..) (fun x acc hacc => ?_) rfl
      fun c hp => ?_
    · rcases Memory.mem_accesses_access hacc with ⟨rfl, hw, hknows⟩ | hacc
      · exact .inl ⟨rfl, by rw [accessor, hw]; rfl, hknows⟩
      · exact .inr hacc
    · cases c with
      | mWrite => exact hp
      | mRead => rfl
  | popStore hpc =>
    refine h.store hc (c := .mRead) rfl (fun d hd => ?_) fun d hd hp => ?_
    · cases d with
      | mWrite => rfl
      | mRead => exact absurd rfl hd
    · cases d with
      | mWrite => exact hp
      | mRead => exact absurd rfl hd

end Logged

variable [DecidableEq κ]

theorem logged_of_reachable (hs : (a.weakSystem mBuffer).Reachable s) : Logged a s :=
  System.invariant (P := Logged a) (fun _ _ hacc => absurd hacc List.not_mem_nil)
    (fun hs h hst => h.moves (weakCoupled_of_reachable hs) (weakMoves_of_step hst)) hs

/-! ## No data races -/

/-- The producer that has passed its test knows of every access to its slot: a pop that shares the
slot is one of those whose release it has acquired. -/
theorem raceFree_write (ha : a.Faithful cap L) (hs : (a.weakSystem mBuffer).Reachable s)
    (hL : s.pushed.length ∈ L) {val : T} {tail next : κ}
    (hpc : s.producer = .passed val tail next) :
    s.memory.RaceFree .producer (a.slot tail) true := by
  have hc := weakCoupled_of_reachable hs
  have hk := knowing_of_reachable ha.tests.toSound hs hL
  intro acc hacc _
  obtain ⟨rfl, -⟩ := hc.producer (by rw [hpc]; rfl)
  obtain ⟨k, hslot, hlogs⟩ := logged_of_reachable hs _ acc hacc
  cases haccess : accessor acc with
  | mWrite =>
    have hknown := hlogs.known
    rwa [haccess] at hknown
  | mRead =>
    obtain ⟨j, hj, hlt⟩ := hk.granted (by rw [hpc]; exact Option.some_ne_none _)
    have hlt : s.pushed.length < j + cap := hlt
    apply hlogs.knows hc (by rwa [haccess])
    by_contra hge
    exact ha.slots k _ (hlogs.read_lt haccess hc hk) (by omega) hL hslot

/-- The consumer that has passed its test knows of the write of the value it is to read: a push that
shares the slot is that one or an earlier one. -/
theorem raceFree_read (ha : a.Faithful cap L) (hs : (a.weakSystem mBuffer).Reachable s)
    (hL : s.pushed.length ∈ L) {head : κ} (hpc : s.consumer = .passed head) :
    s.memory.RaceFree .consumer (a.slot head) false := by
  have hc := weakCoupled_of_reachable hs
  have hk := knowing_of_reachable ha.tests.toSound hs hL
  intro acc hacc hconflict
  obtain rfl := hc.consumer (by rw [hpc]; rfl)
  obtain ⟨k, hslot, hlogs⟩ := logged_of_reachable hs _ acc hacc
  have haccess : accessor acc = .mWrite := if_pos (by simpa using hconflict)
  have hholding := hk.holding (by rw [hpc]; rfl)
  rw [← haccess] at hholding
  apply hlogs.knows hc hholding
  by_contra hge
  have hlt : s.popped.length < k := Nat.lt_of_succ_le (Nat.le_of_not_lt hge)
  have hle : k ≤ s.pushed.length := by
    rcases hlogs.lt_or hc with hlt | ⟨hk, -⟩ <;> rw [haccess] at *
    · exact Nat.le_of_lt hlt
    · exact Nat.le_of_eq hk
  exact ha.slots _ k hlt (hlogs.write_lt haccess hc hk) (L.lower hle hL) hslot.symm

end Arith

/-! ## Nothing but tests that fail -/

/-- A call that has only loaded its own counter is as good as one that is still to begin. -/
def PushPc.settle : PushPc κ T → PushPc κ T
  | .loaded .. => .idle
  | p => p

def PopPc.settle : PopPc κ T → PopPc κ T
  | .loaded _ => .idle
  | p => p

def Threads.settle (s : Threads κ T) : Threads κ T :=
  { s with producer := s.producer.settle, consumer := s.consumer.settle }

namespace Arith

/-- The state with the current counters, as the sequentially consistent ring would have it. -/
def current (a : Arith κ) (s : WeakThreads κ T) : Threads κ T where
  mWrite := a.count s.pushed.length
  mRead := a.count s.popped.length
  mBuffer := s.memory.data
  producer := s.producer
  consumer := s.consumer
  pushed := s.pushed
  popped := s.popped
  slots := s.slots

variable {a : Arith κ} {mBuffer : ℕ → T} {s t : WeakThreads κ T} {e : WeakStep T} {cap : ℕ}
  {L : LowerSet ℕ} [DecidableEq κ]

/-- A call gives up at its test. -/
inductive Refused (s : Threads κ T) (e : Step T) (t : Threads κ T) : Prop
  | push {val tail next} (h : s.producer = .loaded val tail next) (he : e = .pushTest false)
    (ht : t = { s with producer := .idle })
  | pop {head} (h : s.consumer = .loaded head) (he : e = .popTest false)
    (ht : t = { s with consumer := .idle })

omit [DecidableEq κ] in
theorem Refused.settle {s t : Threads κ T} {e : Step T} (h : Refused s e t) :
    t.settle = s.settle := by
  cases h with
  | push h _ ht =>
    subst ht
    simp only [Threads.settle, h, PushPc.settle]
  | pop h _ ht =>
    subst ht
    simp only [Threads.settle, h, PopPc.settle]

/-- There are releases that a test has not seen; so it is the stricter one. -/
theorem room_current (ha : a.Faithful cap L) (hs : (a.weakSystem mBuffer).Reachable s)
    (hL : s.pushed.length ∈ L) {k : ℕ} {read : κ} {memory : Memory Party Counter κ ℕ T}
    (hload : s.memory.load .producer .mRead k = some (read, memory))
    (hr : a.room (a.count s.pushed.length) read = true) :
    a.room (a.count s.pushed.length) (a.count s.popped.length) = true := by
  have hc := weakCoupled_of_reachable hs
  have hk := knowing_of_reachable ha.tests.toSound hs hL
  obtain ⟨hseen, hbound, rfl⟩ := hk.room_of_load hc.counting hload
  have hle : s.popped.length ≤ s.pushed.length := hk.le hc.counting
  have hseen : k ≤ s.popped.length := hseen
  have hlt : s.pushed.length < k + cap := ha.tests.room_lt (hseen.trans hle) hbound hL hr
  exact ha.tests.room_of_lt hle hL (show s.pushed.length < s.popped.length + cap by omega)

theorem more_current (ha : a.Faithful cap L) (hs : (a.weakSystem mBuffer).Reachable s)
    (hL : s.pushed.length ∈ L) {k : ℕ} {write : κ} {memory : Memory Party Counter κ ℕ T}
    (hload : s.memory.load .consumer .mWrite k = some (write, memory))
    (hm : a.count s.popped.length ≠ write) :
    a.count s.popped.length ≠ a.count s.pushed.length := by
  have hc := weakCoupled_of_reachable hs
  have hk := knowing_of_reachable ha.tests.toSound hs hL
  obtain ⟨hseen, hle, rfl⟩ := hk.more_of_load hc.counting hload
  have hne : s.popped.length ≠ k := fun heq => hm (congrArg a.count heq)
  have hlt : s.popped.length < s.pushed.length := (Nat.lt_of_le_of_ne hseen hne).trans_le hle
  exact of_decide_eq_true (ha.tests.more_of_ne (n := s.pushed.length) (m := s.popped.length)
    (hk.le hc.counting) (hk.le_add hc.counting) hL (Nat.ne_of_gt hlt))

/-- **What a step is on the current counters**: the same step, or nothing but a test that is refused
because the message it has taken is old. -/
theorem current_cases (ha : a.Faithful cap L) (hs : (a.weakSystem mBuffer).Reachable s)
    (hL : s.pushed.length ∈ L) (hst : a.WeakMoves s e t) :
    a.Moves (a.current s) e.forget (a.current t) ∨
      ¬ System.Fresh WeakStep.taken WeakThreads.done s e ∧
        Refused (a.current s) e.forget (a.current t) := by
  have hc := weakCoupled_of_reachable hs
  have hk := knowing_of_reachable ha.tests.toSound hs hL
  cases hst with
  | @pushLoad val k tail memory hpc hload =>
    obtain rfl := hc.counting.own (c := .mWrite) hload
    refine .inl ?_
    simp only [current, Memory.data_load hload]
    exact .pushLoad hpc
  | @pushTest val tail next k read memory room hpc hload hr =>
    obtain ⟨rfl, rfl⟩ := hc.producer (by rw [hpc]; rfl)
    simp only [current, Memory.data_load hload]
    by_cases hfresh : s.popped.length ≤ k
    · obtain ⟨hseen, -, rfl⟩ := hk.room_of_load hc.counting hload
      obtain rfl : k = s.popped.length := Nat.le_antisymm hseen hfresh
      exact .inl (.pushTest hpc hr)
    · cases room with
      | true => exact .inl (.pushTest hpc (room_current ha hs hL hload hr))
      | false => exact .inr ⟨fun h => hfresh (h (.mRead, k) rfl), .push hpc rfl rfl⟩
  | pushWrite hpc => exact .inl (.pushWrite hpc)
  | @pushStore val tail next hpc =>
    obtain ⟨-, rfl⟩ := hc.producer (by rw [hpc]; rfl)
    refine .inl ?_
    simp only [current, List.length_append, List.length_singleton]
    exact .pushStore hpc
  | @popLoad k head memory hpc hload =>
    obtain rfl := hc.counting.own (c := .mRead) hload
    refine .inl ?_
    simp only [current, Memory.data_load hload]
    exact .popLoad hpc
  | @popTest head k write memory more hpc hload hm =>
    obtain rfl := hc.consumer (by rw [hpc]; rfl)
    simp only [current, Memory.data_load hload]
    by_cases hfresh : s.pushed.length ≤ k
    · obtain ⟨-, hseen, rfl⟩ := hk.more_of_load hc.counting hload
      obtain rfl : k = s.pushed.length := Nat.le_antisymm hseen hfresh
      exact .inl (.popTest hpc hm)
    · cases more with
      | true =>
        have hmore := more_current ha hs hL hload (of_decide_eq_true hm)
        exact .inl (.popTest hpc (decide_eq_true hmore))
      | false => exact .inr ⟨fun h => hfresh (h (.mWrite, k) rfl), .pop hpc rfl rfl⟩
  | popRead hpc => exact .inl (.popRead hpc)
  | @popStore head element hpc =>
    obtain rfl := hc.consumer (by rw [hpc]; rfl)
    refine .inl ?_
    simp only [current, List.length_append, List.length_singleton, ← increment_count]
    exact .popStore hpc

omit [DecidableEq κ] in
theorem WeakCoupled.current (h : WeakCoupled a s) : Coupled a (a.current s) := by
  refine ⟨rfl, rfl, fun hl => ?_, fun hl => h.consumer hl, h.slots⟩
  obtain ⟨htail, hnext⟩ := h.producer hl
  exact ⟨htail, hnext.trans (increment_count _).symm⟩

/-- A test that succeeds is made together with the load before it, and one that fails is not made at
all. -/
theorem settled_moves {s t : Threads κ T} {e : Step T} (h : Coupled a s) (hst : a.Moves s e t) :
    (a.system mBuffer).Reaches s.settle t.settle := by
  cases hst with
  | pushLoad hpc =>
    simp only [Threads.settle, hpc, PushPc.settle]
    exact System.Reaches.refl _
  | @pushTest val tail next room hpc hr =>
    obtain ⟨rfl, rfl⟩ := h.producer (by rw [hpc]; rfl)
    cases room with
    | false =>
      simp only [Threads.settle, hpc, PushPc.settle]
      exact System.Reaches.refl _
    | true =>
      refine System.reaches_of_run
        (?_ : (a.system mBuffer).run _ [.pushLoad val, .pushTest true] = _)
      simp [system, step, hr, Threads.settle, hpc, PushPc.settle]
  | pushWrite hpc =>
    refine System.reaches_of_run (?_ : (a.system mBuffer).run _ [.pushWrite] = _)
    simp [system, step, Threads.settle, hpc, PushPc.settle]
  | pushStore hpc =>
    refine System.reaches_of_run (?_ : (a.system mBuffer).run _ [.pushStore] = _)
    simp [system, step, Threads.settle, hpc, PushPc.settle]
  | popLoad hpc =>
    simp only [Threads.settle, hpc, PopPc.settle]
    exact System.Reaches.refl _
  | @popTest head more hpc hm =>
    obtain rfl := h.consumer (by rw [hpc]; rfl)
    cases more with
    | false =>
      simp only [Threads.settle, hpc, PopPc.settle]
      exact System.Reaches.refl _
    | true =>
      refine System.reaches_of_run (?_ : (a.system mBuffer).run _ [.popLoad, .popTest true] = _)
      simp [system, step, of_decide_eq_true hm, Threads.settle, hpc, PopPc.settle]
  | popRead hpc =>
    refine System.reaches_of_run (?_ : (a.system mBuffer).run _ [.popRead] = _)
    simp [system, step, Threads.settle, hpc, PopPc.settle]
  | popStore hpc =>
    refine System.reaches_of_run (?_ : (a.system mBuffer).run _ [.popStore] = _)
    simp [system, step, Threads.settle, hpc, PopPc.settle]

/-- **What the ring does on a release/acquire memory it does sequentially**, up to calls that have
only loaded their own counter. -/
theorem settled_reachable (ha : a.Faithful cap L) (hs : (a.weakSystem mBuffer).Reachable s)
    (hL : s.pushed.length ∈ L) : (a.system mBuffer).Reachable (a.current s).settle := by
  refine System.invariant
    (P := fun s => s.pushed.length ∈ L → (a.system mBuffer).Reachable (a.current s).settle)
    (fun _ => System.Reachable.init) (fun {s t e} hs h hst hL => ?_) hs hL
  have hmoves := weakMoves_of_step hst
  have hL' := L.lower (weak_pushed_length_le hmoves) hL
  rcases current_cases ha hs hL' hmoves with hcurrent | ⟨-, hrefused⟩
  · exact (h hL').trans (settled_moves (weakCoupled_of_reachable hs).current hcurrent)
  · rw [hrefused.settle]
    exact h hL'

/-- The calls that have only loaded their counter may have loaded it. -/
theorem reachable_of_settle {s : Threads κ T} (h : Coupled a s)
    (hs : (a.system mBuffer).Reachable s.settle) : (a.system mBuffer).Reachable s := by
  have hproducer : (a.system mBuffer).Reachable { s with consumer := s.consumer.settle } := by
    cases hpc : s.producer with
    | loaded val tail next =>
      obtain ⟨rfl, rfl⟩ := h.producer (by rw [hpc]; rfl)
      refine hs.step (e := .pushLoad val) ?_
      simp [system, step, Threads.settle, hpc, PushPc.settle]
    | idle | passed | written =>
      have hsettle : s.producer.settle = s.producer := by rw [hpc]; rfl
      unfold Threads.settle at hs
      rwa [hsettle, hpc] at hs
  cases hpc : s.consumer with
  | loaded head =>
    obtain rfl := h.consumer (by rw [hpc]; rfl)
    have hstep : a.step { s with consumer := s.consumer.settle } .popLoad =
        some { s with consumer := .loaded s.mRead } := by
      simp [step, hpc, PopPc.settle]
    rw [← hpc] at hstep
    exact hproducer.step (e := .popLoad) hstep
  | idle | passed | copied =>
    have hsettle : s.consumer.settle = s.consumer := by rw [hpc]; rfl
    rwa [hsettle] at hproducer

/-- The state with the current counters is one of the sequentially consistent ring. -/
theorem current_reachable (ha : a.Faithful cap L) (hs : (a.weakSystem mBuffer).Reachable s)
    (hL : s.pushed.length ∈ L) : (a.system mBuffer).Reachable (a.current s) :=
  reachable_of_settle (weakCoupled_of_reachable hs).current (settled_reachable ha hs hL)

/-- A step of the sequentially consistent ring, by a load that takes the last message. -/
theorem exists_weak_step (h : WeakCoupled a s) {t : Threads κ T} {e : Step T}
    (hst : a.Moves (a.current s) e t) :
    ∃ d u, a.WeakMoves s d u ∧ d.forget = e ∧
      System.Fresh WeakStep.taken WeakThreads.done s d ∧ a.current u = t := by
  -- the message taken is the last one
  have hlast : ∀ {c : Counter}, ∀ q ∈ some (c, s.done c), s.done q.1 ≤ q.2 := by
    rintro c q ⟨⟩
    exact Nat.le_refl _
  have hnone : ∀ q ∈ (none : Option (Counter × ℕ)), s.done q.1 ≤ q.2 := fun _ hq =>
    absurd hq (Option.not_mem_none _)
  cases hst with
  | @pushLoad val hpc =>
    obtain ⟨memory, hload⟩ := h.counting.exists_load .producer .mWrite
    refine ⟨.pushLoad val _, _, .pushLoad hpc hload, rfl, hlast, ?_⟩
    simp [current, Memory.data_load hload, WeakThreads.done]
  | @pushTest val tail next room hpc hr =>
    obtain ⟨memory, hload⟩ := h.counting.exists_load .producer .mRead
    refine ⟨_, _, .pushTest hpc hload hr, rfl, hlast, ?_⟩
    simp [current, Memory.data_load hload]
  | pushWrite hpc => exact ⟨_, _, .pushWrite hpc, rfl, hnone, rfl⟩
  | @pushStore val tail next hpc =>
    refine ⟨_, _, .pushStore hpc, rfl, hnone, ?_⟩
    have hpc : s.producer = .written val tail next := hpc
    obtain ⟨-, rfl⟩ := h.producer (by rw [hpc]; rfl)
    simp [current, Memory.store]
  | popLoad hpc =>
    obtain ⟨memory, hload⟩ := h.counting.exists_load .consumer .mRead
    refine ⟨_, _, .popLoad hpc hload, rfl, hlast, ?_⟩
    simp [current, Memory.data_load hload, WeakThreads.done]
  | @popTest head more hpc hm =>
    obtain ⟨memory, hload⟩ := h.counting.exists_load .consumer .mWrite
    refine ⟨_, _, .popTest hpc hload hm, rfl, hlast, ?_⟩
    simp [current, Memory.data_load hload]
  | popRead hpc => exact ⟨_, _, .popRead hpc, rfl, hnone, rfl⟩
  | @popStore head element hpc =>
    refine ⟨_, _, .popStore hpc, rfl, hnone, ?_⟩
    have hpc : s.consumer = .copied head element := hpc
    obtain rfl := h.consumer (by rw [hpc]; rfl)
    simp [current, Memory.store]

/-- Every sequentially consistent run is one on a release/acquire memory. -/
theorem exists_weak_reachable {t : Threads κ T} (ht : (a.system mBuffer).Reachable t) :
    ∃ s, (a.weakSystem mBuffer).Reachable s ∧ a.current s = t := by
  refine System.invariant (S := a.system mBuffer)
    (P := fun t => ∃ s, (a.weakSystem mBuffer).Reachable s ∧ a.current s = t)
    ⟨_, System.Reachable.init, rfl⟩ (fun {t u e} _ h hst => ?_) ht
  obtain ⟨s, hs, rfl⟩ := h
  obtain ⟨d, v, hd, -, -, hv⟩ := exists_weak_step (weakCoupled_of_reachable hs) (moves_of_step hst)
  exact ⟨v, hs.step hd.step_eq, hv⟩

/-- **Acquire and release are enough.** A ring with faithful counters reaches on a release/acquire
memory the states that it reaches sequentially. -/
theorem weak_reachable_iff (ha : a.Faithful cap L) {t : Threads κ T} (hL : t.pushed.length ∈ L) :
    (∃ s, (a.weakSystem mBuffer).Reachable s ∧ a.current s = t) ↔
      (a.system mBuffer).Reachable t := by
  constructor
  · rintro ⟨s, hs, rfl⟩
    exact current_reachable ha hs hL
  · exact exists_weak_reachable

/-- A modulo ring of one slot, at its second push: the first tests of both sides took old messages
and failed. -/
theorem weak_reachable_iff_one : ∃ t : Threads CInt ℕ,
    (t.producer = .loaded 8 1 2 ∧ t.popped = [7]) ∧
      ((∃ s, ((RingBufferSPSCLockFree.arith 1).weakSystem fun _ => 0).Reachable s ∧
        (RingBufferSPSCLockFree.arith 1).current s = t) ↔
        ((RingBufferSPSCLockFree.arith 1).system fun _ => 0).Reachable t) := by
  obtain ⟨s, -, hp⟩ := ((RingBufferSPSCLockFree.arith 1).weakSystem
    fun _ => (0 : ℕ)).exists_reachable
    (p := fun s => (s.producer = .loaded 8 1 2 ∧ s.popped = [7]) ∧ s.pushed.length < 2 ^ 31)
    [.pushLoad 7 0, .pushTest 0 true, .pushWrite, .pushStore, .popLoad 0, .popTest 0 false,
      .popLoad 0, .popTest 1 true, .popRead, .popStore, .pushLoad 8 1, .pushTest 0 false,
      .pushLoad 8 1] (by decide)
  obtain ⟨hp, hrun⟩ := hp
  exact ⟨(RingBufferSPSCLockFree.arith 1).current s, hp,
    weak_reachable_iff (RingBufferSPSCLockFree.faithful_of_lt (by decide)) hrun⟩

/-! ## What the ring guarantees -/

/-- A bounded first-in first-out queue without data races, as the two threads see it. -/
structure WeakSafe (a : Arith κ) (cap : ℕ) (s : WeakThreads κ T) : Prop where
  /-- The values delivered are a prefix of the values pushed. -/
  fifo : s.popped <+: s.pushed
  bound : s.pushed.length ≤ s.popped.length + cap
  /-- The write of a slot is ordered after every access to it. -/
  write : ∀ val tail next, s.producer = .passed val tail next →
    s.memory.RaceFree .producer (a.slot tail) true
  /-- The read of a slot is ordered after every write to it. -/
  read : ∀ head, s.consumer = .passed head → s.memory.RaceFree .consumer (a.slot head) false
  /-- A thread loads what it has stored last in its own counter. -/
  own : ∀ c k value memory, s.memory.load c.owner c k = some (value, memory) →
    value = a.count (s.done c)
  /-- A push is refused when the ring is full for the number of releases that its test has seen,
  and only then. -/
  push_test : ∀ k room t, a.weakStep s (.pushTest k room) = some t →
    k ≤ s.popped.length ∧ (room = false ↔ s.pushed.length = k + cap)
  /-- A pop is refused when its test has seen no publication beyond the values popped, and only
  then. -/
  pop_test : ∀ k more t, a.weakStep s (.popTest k more) = some t →
    k ≤ s.pushed.length ∧ (more = false ↔ k = s.popped.length)

theorem weak_push_test (ha : a.Faithful cap L) (hs : (a.weakSystem mBuffer).Reachable s)
    (hL : s.pushed.length ∈ L) {k : ℕ} {room : Bool}
    (hst : a.weakStep s (.pushTest k room) = some t) :
    k ≤ s.popped.length ∧ (room = false ↔ s.pushed.length = k + cap) := by
  have hc := weakCoupled_of_reachable hs
  have hk := knowing_of_reachable ha.tests.toSound hs hL
  cases weakMoves_of_step hst with
  | pushTest hpc hload hr =>
    obtain ⟨hseen, hbound, rfl⟩ := hk.room_of_load hc.counting hload
    obtain ⟨rfl, -⟩ := hc.producer (by rw [hpc]; rfl)
    have hle : k ≤ s.pushed.length := hseen.trans (hk.le hc.counting)
    refine ⟨hseen, ?_⟩
    rw [← hr]
    constructor
    · intro hfalse
      by_contra hne
      have htrue : a.room (a.count s.pushed.length) (a.count k) = true :=
        ha.tests.room_of_lt hle hL (Nat.lt_of_le_of_ne hbound hne)
      rw [hfalse] at htrue
      cases htrue
    · intro heq
      rw [Bool.eq_false_iff]
      intro htrue
      have hlt : s.pushed.length < k + cap := ha.tests.room_lt hle hbound hL htrue
      omega

theorem weak_pop_test (ha : a.Faithful cap L) (hs : (a.weakSystem mBuffer).Reachable s)
    (hL : s.pushed.length ∈ L) {k : ℕ} {more : Bool}
    (hst : a.weakStep s (.popTest k more) = some t) :
    k ≤ s.pushed.length ∧ (more = false ↔ k = s.popped.length) := by
  have hc := weakCoupled_of_reachable hs
  have hk := knowing_of_reachable ha.tests.toSound hs hL
  cases weakMoves_of_step hst with
  | popTest hpc hload hm =>
    obtain ⟨hseen, hle, rfl⟩ := hk.more_of_load hc.counting hload
    obtain rfl := hc.consumer (by rw [hpc]; rfl)
    refine ⟨hle, ?_⟩
    rw [← hm, decide_eq_false_iff_not, not_not]
    constructor
    · intro heq
      by_contra hne
      exact of_decide_eq_true (ha.tests.more_of_ne (n := k) (m := s.popped.length) hseen
        (hle.trans (hk.le_add hc.counting)) (L.lower hle hL) hne) heq
    · rintro rfl
      rfl

/-- **A ring with faithful counters is safe on a release/acquire memory**, at every count of pushes
for which the counters are faithful. -/
theorem weakSafe_of_reachable (ha : a.Faithful cap L) (hs : (a.weakSystem mBuffer).Reachable s)
    (hL : s.pushed.length ∈ L) : a.WeakSafe cap s := by
  have hsafe := safe_of_reachable ha (current_reachable ha hs hL) hL
  refine ⟨hsafe.fifo, ?_, fun _ _ _ => raceFree_write ha hs hL, fun _ => raceFree_read ha hs hL,
    fun _ _ _ _ => (weakCoupled_of_reachable hs).counting.own,
    fun _ _ _ => weak_push_test ha hs hL, fun _ _ _ => weak_pop_test ha hs hL⟩
  have hbound : (s.pushed.drop s.popped.length).length ≤ cap := hsafe.bound
  rw [List.length_drop] at hbound
  omega

end Arith

namespace RingBufferSPSCLockFree

variable {mCapacity : SizeT}

/-- **No data races, and first in first out, with old loads**: the modulo ring of any capacity, as
long as fewer than `2 ^ 31` pushes have succeeded. -/
theorem weakSafe_before_overflow (hcap : 0 < mCapacity.toNat) (mBuffer : ℕ → T)
    {s : WeakThreads CInt T} (hs : ((arith mCapacity).weakSystem mBuffer).Reachable s)
    (hrun : s.pushed.length < 2 ^ 31) : (arith mCapacity).WeakSafe mCapacity.toNat s :=
  Arith.weakSafe_of_reachable (faithful_of_lt hcap) hs hrun

/-- The one slot is about to be written again, after tests that took old messages. -/
theorem weakSafe_before_overflow_one : ∃ s : WeakThreads CInt ℕ,
    (s.producer = .passed 8 1 2 ∧ s.popped = [7] ∧ s.pushed.length < 2 ^ 31) ∧
      (arith 1).WeakSafe 1 s := by
  obtain ⟨s, hs, hp⟩ := ((arith 1).weakSystem fun _ => (0 : ℕ)).exists_reachable
    (p := fun s => s.producer = .passed 8 1 2 ∧ s.popped = [7] ∧ s.pushed.length < 2 ^ 31)
    [.pushLoad 7 0, .pushTest 0 true, .pushWrite, .pushStore, .popLoad 0, .popTest 0 false,
      .popLoad 0, .popTest 1 true, .popRead, .popStore, .pushLoad 8 1, .pushTest 0 false,
      .pushLoad 8 1, .pushTest 1 true] (by decide)
  exact ⟨s, hp, weakSafe_before_overflow (by decide) _ hs hp.2.2⟩

end RingBufferSPSCLockFree

namespace RingBufferSPSCLockFree2

variable {capacity : SizeT}

/-- **No data races, and first in first out, with old loads and in runs of any length**: the bitmask
ring of any size up to `2 ^ 31`. -/
theorem weakSafe_across_wraps (hcap : (makeMask capacity).toNat + 1 ≤ 2 ^ 31) (mBuffer : ℕ → T)
    {s : WeakThreads CUnsigned T} (hs : ((arith capacity).weakSystem mBuffer).Reachable s) :
    (arith capacity).WeakSafe ((makeMask capacity).toNat + 1) s :=
  Arith.weakSafe_of_reachable (faithful hcap) hs trivial

/-- A request for one slot gives two; both sides are at the first one's neighbour. -/
theorem weakSafe_across_wraps_one : ∃ s : WeakThreads CUnsigned ℕ,
    (s.producer = .passed 9 2 3 ∧ s.consumer = .passed 1 ∧ s.pushed = [7, 8]) ∧
      (arith 1).WeakSafe 2 s := by
  have hmask : (makeMask (1 : SizeT)).toNat + 1 = 2 := by decide +kernel
  obtain ⟨s, hs, hp⟩ := ((arith 1).weakSystem fun _ => (0 : ℕ)).exists_reachable
    (p := fun s => s.producer = .passed 9 2 3 ∧ s.consumer = .passed 1 ∧ s.pushed = [7, 8])
    [.pushLoad 7 0, .pushTest 0 true, .pushWrite, .pushStore, .pushLoad 8 1, .pushTest 0 true,
      .popLoad 0, .popTest 0 false, .pushWrite, .pushStore, .popLoad 0, .popTest 1 true, .popRead,
      .popStore, .pushLoad 9 2, .pushTest 0 false, .popLoad 1, .pushLoad 9 2, .popTest 2 true,
      .pushTest 1 true] (by decide +kernel)
  have hsafe := weakSafe_across_wraps (by rw [hmask]; decide) _ hs
  rw [hmask] at hsafe
  exact ⟨s, hp, hsafe⟩

end RingBufferSPSCLockFree2

end ThreadTests
