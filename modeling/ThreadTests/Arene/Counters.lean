import ThreadTests.Arene.BlockBuffer

/-!
# The counters of `BlockBuffer`, call by call

Sequences of `tryPush` and `tryPop` calls by one thread. Every successful call moves its counter by
`next`, so the counters are the images of the numbers of successful calls (`Session.Counted`). They
are these numbers themselves, and the tests and `size()` are right about them, exactly when both
numbers lie where the sign extension does nothing (`trueCounts_iff`): below `2 ^ 31`. From there on
`head()` is no count, `size()` of a ring whose counters have different signs is off by
`2 ^ 64 - 2 ^ 32`, and such a ring seems full.
-/

namespace ThreadTests.Arene

universe u

variable {c : Shape} {E : Type u}

/-- A call; the block of a push that succeeds is filled before the next call. -/
inductive Call (c : Shape) (E : Type u) where
  | tryPush (fill : c.Block E)
  | tryPop (dest : Dest)

/-- A buffer with what its calls have done: the blocks filled after the successful pushes, and
what the successful pops copied, if anything. -/
structure Session (c : Shape) (E : Type u) extends BlockBuffer E where
  filled : List (c.Block E)
  delivered : List (Option (c.Block E))

namespace Session

/-- One call; no result when it dereferences a null pointer. -/
def call (c : Shape) (s : Session c E) : Call c E → Option (Session c E)
  | .tryPush fill =>
    match s.tryPush c with
    | ((_, some ptr), b) =>
      some { b with
        mBuffer := Memory.writeBlock b.mBuffer ptr.toNat fill
        filled := s.filled ++ [fill], delivered := s.delivered }
    | ((_, none), b) => some { s with toBlockBuffer := b }
  | .tryPop dest =>
    (s.tryPop c dest).map fun
      | ((true, copied), b) =>
        { s with toBlockBuffer := b, delivered := s.delivered ++ [copied] }
      | ((false, _), b) => { s with toBlockBuffer := b }

/-- What the destination of a pop receives. -/
def received (c : Shape) (s : Session c E) : Dest → Option (c.Block E)
  | .copy => some (Memory.readBlock s.mBuffer (c.offset s.mRead).toNat c.mWidth.toNat)
  | _ => none

theorem call_tryPush {s : Session c E} (hroom : c.room s.mWrite s.mRead = true)
    (fill : c.Block E) :
    s.call c (.tryPush fill) = some { s with
      mWrite := next s.mWrite
      mBuffer := Memory.writeBlock s.mBuffer (c.offset s.mWrite).toNat fill
      filled := s.filled ++ [fill] } := by
  simp only [call, BlockBuffer.tryPush, hroom, ite_true, next]

theorem call_tryPop {s : Session c E} (hmore : s.mRead ≠ s.mWrite) {dest : Dest}
    (hdest : dest ≠ .null) :
    s.call c (.tryPop dest) = some { s with
      mRead := next s.mRead, delivered := s.delivered ++ [s.received c dest] } := by
  cases dest with
  | null => exact absurd rfl hdest
  | discard => simp [call, BlockBuffer.tryPop, hmore, received, next]
  | copy => simp [call, BlockBuffer.tryPop, hmore, received, next]

theorem call_tryPush_full {s : Session c E} (hroom : c.room s.mWrite s.mRead ≠ true)
    (fill : c.Block E) : s.call c (.tryPush fill) = some s := by
  simp only [call, BlockBuffer.tryPush, hroom, Bool.false_eq_true, ite_false]

theorem call_tryPop_empty {s : Session c E} (hmore : s.mRead = s.mWrite) (dest : Dest) :
    s.call c (.tryPop dest) = some s := by
  simp only [call, BlockBuffer.tryPop, hmore, ne_eq, not_true_eq_false, ite_false, Option.map_some]

/-- A null argument is dereferenced when there is something to pop. -/
theorem call_tryPop_null {s : Session c E} (hmore : s.mRead ≠ s.mWrite) :
    s.call c (.tryPop .null) = none := by
  simp [call, BlockBuffer.tryPop, hmore]

/-- A call pushes, pops, or changes nothing. -/
theorem call_cases {s t : Session c E} {e : Call c E} (h : s.call c e = some t) :
    (∃ fill, c.room s.mWrite s.mRead = true ∧
      t = { s with
        mWrite := next s.mWrite
        mBuffer := Memory.writeBlock s.mBuffer (c.offset s.mWrite).toNat fill
        filled := s.filled ++ [fill] }) ∨
    (∃ dest, s.mRead ≠ s.mWrite ∧
      t = { s with mRead := next s.mRead, delivered := s.delivered ++ [s.received c dest] }) ∨
    t = s := by
  cases e with
  | tryPush fill =>
    by_cases hroom : c.room s.mWrite s.mRead = true
    · rw [call_tryPush hroom, Option.some.injEq] at h
      exact .inl ⟨fill, hroom, h.symm⟩
    · rw [call_tryPush_full hroom, Option.some.injEq] at h
      exact .inr (.inr h.symm)
  | tryPop dest =>
    by_cases hmore : s.mRead = s.mWrite
    · rw [call_tryPop_empty hmore, Option.some.injEq] at h
      exact .inr (.inr h.symm)
    · by_cases hdest : dest = .null
      · rw [hdest, call_tryPop_null hmore] at h
        cases h
      · rw [call_tryPop hmore hdest, Option.some.injEq] at h
        exact .inr (.inl ⟨dest, hmore, h.symm⟩)

end Session

/-- Sequences of calls on a new buffer. -/
def calls (c : Shape) (mBuffer : ℕ → E) : System (Session c E) (Call c E) where
  init := ⟨BlockBuffer.new mBuffer, [], []⟩
  step := Session.call c

namespace Session

/-- The counters are the images of the numbers of successful calls, which keep the bound. -/
structure Counted (c : Shape) (s : Session c E) : Prop where
  write : s.mWrite = count s.filled.length
  read : s.mRead = count s.delivered.length
  le : s.delivered.length ≤ s.filled.length
  bound : s.filled.length ≤ s.delivered.length + c.mDepth.toNat

theorem Counted.call {s t : Session c E} (hdepth : c.mDepth.toNat < 2 ^ 32) (h : s.Counted c)
    {e : Call c E} (hst : s.call c e = some t) : t.Counted c := by
  have hle := h.le
  have hbound := h.bound
  rcases call_cases hst with ⟨fill, hroom, rfl⟩ | ⟨dest, hmore, rfl⟩ | rfl
  · have hlt : s.filled.length < s.delivered.length + c.mDepth.toNat := by
      rw [h.write, h.read] at hroom
      exact lt_of_room hle (by omega) hroom
    refine ⟨by simp [h.write], h.read, ?_, ?_⟩
    · simpa using Nat.le_succ_of_le hle
    · simpa using Nat.succ_le_of_lt hlt
  · have hlt : s.delivered.length < s.filled.length := by
      refine Nat.lt_of_le_of_ne hle fun heq => hmore ?_
      rw [h.read, h.write, heq]
    refine ⟨h.write, by simp [h.read], ?_, ?_⟩
    · simpa using Nat.succ_le_of_lt hlt
    · simp only [List.length_append, List.length_singleton]
      omega
  · exact h

theorem counted_of_reachable {mBuffer : ℕ → E} {s : Session c E}
    (hdepth : c.mDepth.toNat < 2 ^ 32) (hs : (calls c mBuffer).Reachable s) : s.Counted c :=
  System.invariant (P := Counted c) ⟨rfl, rfl, Nat.le_refl _, Nat.zero_le _⟩
    (fun _ h hst => h.call hdepth hst) hs

/-- What `head()`, `tail()`, `size()` and the two tests should say, of a buffer with this many
successful pushes and pops. -/
structure TrueCounts (c : Shape) (s : Session c E) : Prop where
  head : s.head.toNat = s.filled.length
  tail : s.tail.toNat = s.delivered.length
  size : s.size.toNat = s.filled.length - s.delivered.length
  bound : s.filled.length - s.delivered.length ≤ c.mDepth.toNat
  push : (s.tryPush c).1.1 = true ↔ s.filled.length - s.delivered.length < c.mDepth.toNat
  pop : (s.tryPop c .copy).map (fun r => r.1.1) = some true ↔ s.delivered.length < s.filled.length

theorem returned_tryPush (s : Session c E) :
    (s.tryPush c).1.1 = true ↔ (s.mWrite - s.mRead).toNat < c.mDepth.toNat := by
  have hroom : c.room s.mWrite s.mRead = true ↔ (s.mWrite - s.mRead).toNat < c.mDepth.toNat := by
    rw [Shape.room, decide_eq_true_iff, BitVec.lt_def]
  rw [← hroom]
  unfold BlockBuffer.tryPush
  by_cases h : c.room s.mWrite s.mRead = true
  · simp [h]
  · simp [h]

theorem returned_tryPop (s : Session c E) :
    (s.tryPop c .copy).map (fun r => r.1.1) = some true ↔ s.mRead ≠ s.mWrite := by
  unfold BlockBuffer.tryPop
  by_cases h : s.mRead = s.mWrite
  · simp [h]
  · simp [h]

/-- Counters that are the counts make everything else right. -/
theorem Counted.trueCounts {s : Session c E} (h : s.Counted c)
    (hhead : s.head.toNat = s.filled.length) (htail : s.tail.toNat = s.delivered.length) :
    s.TrueCounts c := by
  have hle := h.le
  have hbound := h.bound
  have hsize : s.size.toNat = s.filled.length - s.delivered.length := by
    rw [← hhead, ← htail]
    refine BitVec.toNat_sub_of_le ?_
    rw [BitVec.le_def]
    simp only [BlockBuffer.head, BlockBuffer.tail] at hhead htail
    omega
  refine ⟨hhead, htail, hsize, by omega, ?_, ?_⟩
  · rw [returned_tryPush, ← hsize]
    rfl
  · rw [returned_tryPop]
    constructor
    · intro hmore
      refine Nat.lt_of_le_of_ne hle fun heq => hmore (BitVec.eq_of_toNat_eq ?_)
      exact htail.trans (heq.trans hhead.symm)
    · rintro hlt heq
      simp only [BlockBuffer.head, BlockBuffer.tail, heq] at hhead htail
      omega

end Session

variable {mBuffer : ℕ → E} {s : Session c E} {k : ℕ}

/-- **When the counters are counts**: both numbers of successful calls lie below `2 ^ 31`, or in
the last `2 ^ 31` numbers that a `std::size_t` holds. -/
theorem trueCounts_iff (hdepth : c.mDepth.toNat = 2 ^ k) (hk : k ≤ 31)
    (hs : (calls c mBuffer).Reachable s) (hrun : s.filled.length < 2 ^ 64) :
    s.TrueCounts c ↔
      (s.filled.length < 2 ^ 31 ∨ 2 ^ 64 - 2 ^ 31 ≤ s.filled.length) ∧
      (s.delivered.length < 2 ^ 31 ∨ 2 ^ 64 - 2 ^ 31 ≤ s.delivered.length) := by
  have hlt := depth_lt hdepth hk
  have hc := Session.counted_of_reachable hlt hs
  have hrun' := Nat.lt_of_le_of_lt hc.le hrun
  rw [← toNat_count_eq_iff hrun, ← toNat_count_eq_iff hrun', ← hc.write, ← hc.read]
  exact ⟨fun h => ⟨h.head, h.tail⟩, fun h => hc.trueCounts h.1 h.2⟩

/-- A buffer of two blocks, once filled. -/
theorem trueCounts_iff_two : ∃ s : Session ⟨1, 2⟩ ℕ,
    (s.filled.length = 2 ∧ s.delivered.length = 1) ∧ s.TrueCounts ⟨1, 2⟩ := by
  obtain ⟨s, hs, hp⟩ := (calls ⟨1, 2⟩ fun _ => (0 : ℕ)).exists_reachable
    (p := fun s => s.filled.length = 2 ∧ s.delivered.length = 1)
    [.tryPush fun _ => 7, .tryPush fun _ => 8, .tryPush fun _ => 9, .tryPop .copy] (by decide)
  refine ⟨s, hp, (trueCounts_iff (k := 1) (by decide) (by decide) hs ?_).2 ⟨.inl ?_, .inl ?_⟩⟩
  · rw [hp.1]
    decide
  · rw [hp.1]
    decide
  · rw [hp.2]
    decide

theorem exists_pushed (hs : (calls c mBuffer).Reachable s)
    (hroom : c.room s.mWrite s.mRead = true) (block : c.Block E) :
    ∃ t, (calls c mBuffer).Reachable t ∧ t.filled.length = s.filled.length + 1 ∧
      t.delivered = s.delivered :=
  ⟨_, hs.step (e := .tryPush block) (Session.call_tryPush hroom block), by simp, rfl⟩

theorem exists_popped (hs : (calls c mBuffer).Reachable s) (hmore : s.mRead ≠ s.mWrite) :
    ∃ t, (calls c mBuffer).Reachable t ∧ t.filled = s.filled ∧
      t.delivered.length = s.delivered.length + 1 :=
  ⟨_, hs.step (e := .tryPop .copy) (Session.call_tryPop hmore nofun), rfl, by simp⟩

/-- A push and a pop may be repeated as often as one likes. -/
theorem exists_turned (hpos : 0 < c.mDepth.toNat) (hlt : c.mDepth.toNat < 2 ^ 32)
    (mBuffer : ℕ → E) (block : c.Block E) (n : ℕ) :
    ∃ s, (calls c mBuffer).Reachable s ∧ s.filled.length = n ∧ s.delivered.length = n := by
  induction n with
  | zero => exact ⟨_, System.Reachable.init, rfl, rfl⟩
  | succ n ih =>
    obtain ⟨s, hs, hfilled, hdelivered⟩ := ih
    have hc := Session.counted_of_reachable hlt hs
    have hroom : c.room s.mWrite s.mRead = true := by
      rw [hc.write, hc.read, hfilled, hdelivered]
      exact room_self hpos _
    obtain ⟨t, ht, hpushed, hsame⟩ := exists_pushed hs hroom block
    have hc := Session.counted_of_reachable hlt ht
    have hmore : t.mRead ≠ t.mWrite := by
      rw [hc.read, hc.write, hpushed, hsame, hfilled, hdelivered]
      exact count_ne (Nat.lt_succ_self n) (by omega)
    obtain ⟨u, hu, hkept, hpopped⟩ := exists_popped ht hmore
    refine ⟨u, hu, ?_, ?_⟩
    · rw [hkept, hpushed, hfilled]
    · rw [hpopped, hsame, hdelivered]

/-- Of a buffer of two blocks, after `2 ^ 31 - 1` turns and one more push: one block is unread, but
`head()` and `size()` are far off, and the next push is refused. -/
theorem not_trueCounts_two : ∃ s : Session ⟨1, 2⟩ ℕ, (calls ⟨1, 2⟩ fun _ => 0).Reachable s ∧
    s.filled.length = 2 ^ 31 ∧ s.delivered.length = 2 ^ 31 - 1 ∧
    s.head.toNat = 2 ^ 64 - 2 ^ 31 ∧ s.size.toNat = 2 ^ 64 - 2 ^ 32 + 1 ∧
    (s.tryPush ⟨1, 2⟩).1.1 = false ∧ ¬ s.TrueCounts ⟨1, 2⟩ := by
  obtain ⟨s, hs, hfilled, hdelivered⟩ := exists_turned (c := ⟨1, 2⟩) (by decide) (by decide)
    (fun _ => 0) (fun _ => 0) (2 ^ 31 - 1)
  have hc := Session.counted_of_reachable (by decide) hs
  have hroom : Shape.room ⟨1, 2⟩ s.mWrite s.mRead = true := by
    rw [hc.write, hc.read, hfilled, hdelivered]
    exact room_self (by decide) _
  obtain ⟨t, ht, hpushed, hsame⟩ := exists_pushed hs hroom fun _ => 0
  have hc := Session.counted_of_reachable (by decide) ht
  have hpushed : t.filled.length = 2 ^ 31 := by omega
  have hwrite : t.mWrite = (BitVec.ofNat 32 (2 ^ 31)).signExtend 64 := by
    rw [hc.write, hpushed, count_eq]
  have hread : t.mRead = (BitVec.ofNat 32 (2 ^ 31 - 1)).signExtend 64 := by
    rw [hc.read, hsame, hdelivered, count_eq]
  have hhead : t.head.toNat = 2 ^ 64 - 2 ^ 31 := by
    rw [BlockBuffer.head, hwrite]
    decide
  have hsize : (t.mWrite - t.mRead).toNat = 2 ^ 64 - 2 ^ 32 + 1 := by
    rw [hwrite, hread]
    decide
  refine ⟨t, ht, hpushed, by rw [hsame, hdelivered], hhead, hsize, ?_, ?_⟩
  · rw [Bool.eq_false_iff, Ne, Session.returned_tryPush, hsize]
    decide
  · intro htrue
    have := htrue.head
    rw [hhead, hpushed] at this
    omega

end ThreadTests.Arene
