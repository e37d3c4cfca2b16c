import ThreadTests.Words
import ThreadTests.Ring.Interleaved

/-!
# The bitmask ring

`RingBufferSPSCLockFree2` rounds its capacity up to a power of two and masks instead of dividing.
Its counters are `unsigned int`; an increment goes through `int`, and so does the sum. The
difference of the counters is widened by zeros, so the test sees the number of unread elements
itself, up to `2 ^ 31` of them and across every wrap (`room_iff`), and the mask keeps the low bits
of the count (`slot_eq`). The ring is a bounded queue without any limit on its runs.
-/

namespace ThreadTests

universe u

namespace RingBufferSPSCLockFree2

variable {T : Type u} {capacity : SizeT} {n m : ℕ}

def increment (n : CInt) : CInt := n + 1

/-- `m_mask`, from the argument of the constructor. -/
def mMask (capacity : SizeT) : SizeT := makeMask capacity

def mCapacity (capacity : SizeT) : SizeT := mMask capacity + 1

def arith (capacity : SizeT) : Arith CUnsigned where
  zero := 0
  increment n := intToUnsigned (increment (unsignedToInt n))
  room currentTail mRead :=
    decide (unsignedToSize (currentTail - mRead) ≤ mCapacity capacity - 1)
  slot n := (unsignedToSize n &&& mMask capacity).toNat

/-- After construction. -/
def new (capacity : SizeT) (mBuffer : ℕ → T) : Ring CUnsigned T := (arith capacity).new mBuffer

def tryPush (capacity : SizeT) (val : T) (r : Ring CUnsigned T) : Bool × Ring CUnsigned T :=
  (arith capacity).tryPush val r

def tryPop (capacity : SizeT) (r : Ring CUnsigned T) : Option T × Ring CUnsigned T :=
  (arith capacity).tryPop r

/-- The ring under a scheduler. -/
def system (capacity : SizeT) (mBuffer : ℕ → T) : System (Threads CUnsigned T) (Step T) :=
  (arith capacity).system mBuffer

@[simp] theorem count_eq (n : ℕ) : (arith capacity).count n = BitVec.ofNat 32 n := by
  induction n with
  | zero => rfl
  | succ n ih =>
    rw [← Arith.increment_count, ih, BitVec.ofNat_add]
    rfl

theorem toNat_mMask (capacity : SizeT) :
    (mMask capacity).toNat = 2 ^ capacity.toNat.size - 1 := toNat_makeMask capacity

/-- The ring size is a power of two: the least one above the argument of the constructor. -/
theorem mMask_add_one (capacity : SizeT) :
    (mMask capacity).toNat + 1 = 2 ^ capacity.toNat.size := by
  rw [toNat_mMask, Nat.sub_add_cancel Nat.one_le_two_pow]

theorem size_le (hcap : (mMask capacity).toNat + 1 ≤ 2 ^ 31) : capacity.toNat.size ≤ 31 := by
  rw [mMask_add_one] at hcap
  exact (Nat.pow_le_pow_iff_right (by decide)).1 hcap

theorem toNat_mCapacity (hcap : (mMask capacity).toNat + 1 ≤ 2 ^ 31) :
    (mCapacity capacity).toNat = (mMask capacity).toNat + 1 := by
  rw [mCapacity, BitVec.toNat_add]
  exact Nat.mod_eq_of_lt (Nat.lt_of_le_of_lt hcap (by decide))

theorem mCapacity_sub_one (capacity : SizeT) : mCapacity capacity - 1 = mMask capacity :=
  BitVec.add_sub_cancel _ _

/-- The test sees the number of unread elements. -/
theorem room_iff (hmn : m ≤ n) (hn : n < m + 2 ^ 32) :
    (arith capacity).room ((arith capacity).count n) ((arith capacity).count m) = true ↔
      n < m + ((mMask capacity).toNat + 1) := by
  have hdiff : (unsignedToSize (BitVec.ofNat 32 n - BitVec.ofNat 32 m)).toNat = n - m := by
    rw [unsignedToSize, BitVec.toNat_setWidth, Residue.toNat_ofNat_sub_ofNat hmn hn,
      Nat.mod_eq_of_lt (by omega)]
  rw [count_eq, count_eq]
  simp only [arith, mCapacity_sub_one, decide_eq_true_eq, BitVec.le_def, hdiff]
  omega

theorem slot_eq (hcap : (mMask capacity).toNat + 1 ≤ 2 ^ 31) (n : ℕ) :
    (arith capacity).slot ((arith capacity).count n) = n % ((mMask capacity).toNat + 1) := by
  have hk := size_le hcap
  rw [count_eq, mMask_add_one]
  simp only [arith, unsignedToSize]
  rw [Residue.toNat_and_mask (toNat_mMask capacity), BitVec.toNat_setWidth, BitVec.toNat_ofNat,
    Nat.mod_mod_of_dvd _ (pow_dvd_pow 2 (by omega)),
    Nat.mod_mod_of_dvd _ (pow_dvd_pow 2 (by omega))]

theorem count_ne (hmn : m < n) (hn : n < m + 2 ^ 32) :
    (arith capacity).count m ≠ (arith capacity).count n := by
  rw [count_eq, count_eq]
  intro h
  have := Residue.ofNat_inj_of_window (Nat.le_of_lt hmn) hn h
  omega

theorem faithful (hcap : (mMask capacity).toNat + 1 ≤ 2 ^ 31) :
    (arith capacity).Faithful ((mMask capacity).toNat + 1) ⊤ :=
  Arith.faithful_of_mod (fun hmn hn => room_iff hmn (by omega))
    (fun hmn hn => count_ne hmn (by omega)) (slot_eq hcap)

/-- What a ring should do for a requested capacity, in every sequence of calls. -/
structure NeverOverfills (capacity : SizeT) (mBuffer : ℕ → T) : Prop where
  /-- `m_capacity` is a power of two above the requested capacity. -/
  size : ∃ k, (mCapacity capacity).toNat = 2 ^ k ∧ capacity.toNat < 2 ^ k
  bound : ∀ cs, ((arith capacity).session mBuffer cs).unread ≤ (mCapacity capacity).toNat
  push : ∀ cs val,
    (tryPush capacity val ((arith capacity).session mBuffer cs).ring).1 = true ↔
      ((arith capacity).session mBuffer cs).unread < (mCapacity capacity).toNat
  pop : ∀ cs,
    (tryPop capacity ((arith capacity).session mBuffer cs).ring).1.isSome = true ↔
      0 < ((arith capacity).session mBuffer cs).unread

theorem mMask_add_one_le (h : capacity.toNat < 2 ^ 31) :
    (mMask capacity).toNat + 1 ≤ 2 ^ 31 := by
  rw [mMask_add_one]
  exact Nat.pow_le_pow_right Nat.two_pos (Nat.size_le.2 h)

/-- A ring of `2 ^ 32` slots or more takes every push: the difference of the counters has only 32
bits. -/
theorem room_of_le (h : 2 ^ 31 ≤ capacity.toNat) (tail read : CUnsigned) :
    (arith capacity).room tail read = true := by
  have hsize : 32 ≤ capacity.toNat.size := Nat.lt_size.2 h
  have hmask : 2 ^ 32 ≤ (mMask capacity).toNat + 1 := by
    rw [mMask_add_one]
    exact Nat.pow_le_pow_right Nat.two_pos hsize
  have hdiff := (tail - read).isLt
  simp only [arith, mCapacity_sub_one, decide_eq_true_eq, BitVec.le_def, unsignedToSize,
    BitVec.toNat_setWidth]
  omega

/-- After `2 ^ 32` pushes both counters are `0` again, and the ring seems empty. -/
theorem exists_full_seems_empty (h : 2 ^ 31 ≤ capacity.toNat) (mBuffer : ℕ → T) :
    ∃ cs, ((arith capacity).session mBuffer cs).unread = 2 ^ 32 ∧
      (tryPop capacity ((arith capacity).session mBuffer cs).ring).1 = none := by
  obtain ⟨n, hn⟩ : ∃ n, n = 2 ^ 32 := ⟨_, rfl⟩
  obtain ⟨hpushed, hpopped⟩ := Arith.session_burst (a := arith capacity) mBuffer (mBuffer 0) n
    (fun _ _ => room_of_le h _ _)
  have hs := Arith.session_counted (a := arith capacity) mBuffer
    (List.replicate n (.tryPush (mBuffer 0)))
  refine ⟨List.replicate n (.tryPush (mBuffer 0)), ?_, ?_⟩
  · rw [Arith.Session.unread, hpushed, hpopped, List.length_nil, Nat.sub_zero, hn]
  · have hread := hs.read
    have hwrite := hs.write
    rw [hpopped, List.length_nil, count_eq] at hread
    rw [hpushed, count_eq] at hwrite
    have hsame : BitVec.ofNat 32 n = BitVec.ofNat 32 0 := by
      rw [hn]
      decide
    rw [tryPop, Arith.tryPop, hread, hwrite, hsame]
    simp only [ne_eq, not_true_eq_false, if_false]

/-- Calls on a faithful ring are those of a bounded queue, so they never overfill it. -/
theorem neverOverfills_of_lt (h : capacity.toNat < 2 ^ 31) (mBuffer : ℕ → T) :
    NeverOverfills capacity mBuffer := by
  have hcap := mMask_add_one_le h
  have ha := faithful hcap
  have hsize := toNat_mCapacity hcap
  have hqueue : ∀ cs, ∃ q, ((arith capacity).session mBuffer cs).Queued (arith capacity)
      ((mMask capacity).toNat + 1) q ∧ ((arith capacity).session mBuffer cs).unread = q.length := by
    intro cs
    obtain ⟨q, hq⟩ := Arith.session_queued ha mBuffer cs
    refine ⟨q, hq, ?_⟩
    have hlen := hq.ring.length
    rw [Arith.Session.unread]
    omega
  refine ⟨⟨capacity.toNat.size, ?_, Nat.lt_size_self _⟩, ?_, ?_, ?_⟩
  · rw [hsize, mMask_add_one]
  · intro cs
    obtain ⟨q, hq, hunread⟩ := hqueue cs
    rw [hunread, hsize]
    exact hq.bound
  · intro cs val
    obtain ⟨q, hq, hunread⟩ := hqueue cs
    rw [hunread, hsize]
    rcases Nat.lt_or_eq_of_le hq.bound with hlt | hfull
    · simp only [tryPush, (hq.ring.tryPush ha trivial hlt val).1, hlt]
    · rw [tryPush, hq.ring.tryPush_full ha trivial hfull val, hfull]
      simp
  · intro cs
    obtain ⟨q, hq, hunread⟩ := hqueue cs
    rw [hunread]
    cases q with
    | nil => simp [tryPop, hq.ring.tryPop_empty]
    | cons x q => simp [tryPop, (hq.ring.tryPop ha trivial hq.bound).1]

theorem NeverOverfills.capacity_lt {mBuffer : ℕ → T} (h : NeverOverfills capacity mBuffer) :
    capacity.toNat < 2 ^ 31 := by
  by_contra hge
  obtain ⟨cs, hunread, hempty⟩ := exists_full_seems_empty (Nat.le_of_not_lt hge) mBuffer
  have hpop := (h.pop cs).2 (by rw [hunread]; exact Nat.two_pow_pos 32)
  rw [hempty] at hpop
  cases hpop

/-- **The capacities that the counters can represent**: those below `2 ^ 31`. From there on the ring
has `2 ^ 32` slots or more, and can be full and seem empty. -/
theorem neverOverfills_iff (capacity : SizeT) (mBuffer : ℕ → T) :
    NeverOverfills capacity mBuffer ↔ capacity.toNat < 2 ^ 31 :=
  ⟨NeverOverfills.capacity_lt, fun h => neverOverfills_of_lt h mBuffer⟩

/-- A request for `2 ^ 31` slots: after `2 ^ 32` pushes all slots are unread, and a pop is
refused. -/
theorem not_neverOverfills_half : ¬ NeverOverfills (0x80000000 : SizeT) (fun _ => (0 : ℕ)) ∧
    ∃ cs, ((arith 0x80000000).session (fun _ => (0 : ℕ)) cs).unread = 2 ^ 32 ∧
      (tryPop 0x80000000 ((arith 0x80000000).session (fun _ => (0 : ℕ)) cs).ring).1 = none := by
  refine ⟨?_, exists_full_seems_empty (by decide) _⟩
  intro h
  exact absurd h.capacity_lt (by decide)

end RingBufferSPSCLockFree2

end ThreadTests
