import ThreadTests.Words
import ThreadTests.Core.Residue
import ThreadTests.Ring.Interleaved
import Mathlib.Data.Nat.Prime.Basic

/-!
# The modulo ring

`RingBufferSPSCLockFree` keeps `int` counters. Its test widens their difference by sign extension
and compares it with a `std::size_t`; its slot is the remainder of the sign extended counter.

As long as the counters do not overflow, every capacity works (`faithful_of_lt`). Across the wrap
of the counters only the powers of two do: `2 ^ 64` is then a multiple of the capacity, and the
slots go on where they were (`faithful_of_two_pow`). For any other capacity the slot sequence jumps
at the step from `-1` to `0` by the remainder of `2 ^ 64`, and two elements of one window fall into
one slot (`slot_collision`).
-/

namespace ThreadTests

universe u

namespace RingBufferSPSCLockFree

variable {T : Type u} {mCapacity : SizeT} {n m k : ℕ}

def increment (n : CInt) : CInt := n + 1

def arith (mCapacity : SizeT) : Arith CInt where
  zero := 0
  increment := increment
  room currentTail mRead := decide (intToSize (currentTail - mRead) ≤ mCapacity - 1)
  slot n := (intToSize n % mCapacity).toNat

/-- After construction. -/
def new (mCapacity : SizeT) (mBuffer : ℕ → T) : Ring CInt T := (arith mCapacity).new mBuffer

def tryPush (mCapacity : SizeT) (val : T) (r : Ring CInt T) : Bool × Ring CInt T :=
  (arith mCapacity).tryPush val r

def tryPop (mCapacity : SizeT) (r : Ring CInt T) : Option T × Ring CInt T :=
  (arith mCapacity).tryPop r

/-- The ring under a scheduler. -/
def system (mCapacity : SizeT) (mBuffer : ℕ → T) : System (Threads CInt T) (Step T) :=
  (arith mCapacity).system mBuffer

@[simp] theorem count_eq (n : ℕ) : (arith mCapacity).count n = BitVec.ofNat 32 n := by
  induction n with
  | zero => rfl
  | succ n ih => rw [← Arith.increment_count, ih, BitVec.ofNat_add]; rfl

theorem slot_eq (n : ℕ) : (arith mCapacity).slot ((arith mCapacity).count n) =
    ((BitVec.ofNat 32 n).signExtend 64).toNat % mCapacity.toNat := by
  rw [count_eq]
  exact BitVec.toNat_umod

/-- The test sees the sign extended residue of the number of unread elements. -/
theorem room_iff (hcap : 0 < mCapacity.toNat) (hmn : m ≤ n) :
    (arith mCapacity).room ((arith mCapacity).count n) ((arith mCapacity).count m) = true ↔
      ((BitVec.ofNat 32 (n - m)).signExtend 64).toNat < mCapacity.toNat := by
  have hpred : (mCapacity - 1).toNat = mCapacity.toNat - 1 :=
    BitVec.toNat_sub_of_le (y := 1#64) hcap
  rw [count_eq, count_eq]
  simp only [arith, intToSize, Residue.ofNat_sub_ofNat hmn, decide_eq_true_eq, BitVec.le_def, hpred]
  omega

theorem room_iff_of_lt (hcap : 0 < mCapacity.toNat) (hmn : m ≤ n) (hn : n < m + 2 ^ 31) :
    (arith mCapacity).room ((arith mCapacity).count n) ((arith mCapacity).count m) = true ↔
      n < m + mCapacity.toNat := by
  rw [room_iff hcap hmn, Residue.toNat_signExtend_ofNat (w := 31) (by omega) (by omega)]
  omega

theorem count_ne (hmn : m < n) (hn : n < m + 2 ^ 32) :
    (arith mCapacity).count m ≠ (arith mCapacity).count n := by
  rw [count_eq, count_eq]
  intro h
  have := Residue.ofNat_inj_of_window (Nat.le_of_lt hmn) hn h
  omega

theorem more_ne (hm : ((arith mCapacity).protocol mCapacity.toNat).more n m = true) : n ≠ m := by
  rintro rfl
  simp [Arith.protocol] at hm

/-- Before the counters overflow every capacity works. -/
theorem faithful_of_lt (hcap : 0 < mCapacity.toNat) :
    (arith mCapacity).Faithful mCapacity.toNat (LowerSet.Iio (2 ^ 31)) where
  tests :=
    { room_lt := fun {n m} hmn _ hL hr => (room_iff_of_lt hcap hmn (Nat.lt_add_left m hL)).1 hr
      more_ne := more_ne
      room_of_lt := fun {n m} hmn hL hlt =>
        (room_iff_of_lt hcap hmn (Nat.lt_add_left m hL)).2 hlt
      more_of_ne := fun {n m} hmn _ hL hne => by
        have hL : n < 2 ^ 31 := hL
        simpa only [Arith.protocol, decide_eq_true_eq] using
          count_ne (Nat.lt_of_le_of_ne hmn (Ne.symm hne)) (by omega) }
  slots i j hij hj hL := by
    have hL : j < 2 ^ 31 := hL
    rw [slot_eq, slot_eq, Residue.toNat_signExtend_ofNat (w := 31) (by omega) (by omega),
      Residue.toNat_signExtend_ofNat (w := 31) (by omega) hL]
    intro heq
    rcases Residue.mod_window (Nat.le_of_lt hij) hj with h | h <;> omega

theorem slot_of_two_pow (hcap : mCapacity.toNat = 2 ^ k) (hk : k ≤ 32) (n : ℕ) :
    (arith mCapacity).slot ((arith mCapacity).count n) = n % 2 ^ k := by
  rw [slot_eq, hcap, Residue.toNat_signExtend_mod (by omega) (pow_dvd_pow 2 hk),
    BitVec.toNat_ofNat, Nat.mod_mod_of_dvd n (pow_dvd_pow 2 hk)]

/-- A full ring of `2 ^ 31` elements has a negative difference, which the comparison reads as a
large one. -/
theorem room_iff_of_two_pow (hcap : mCapacity.toNat = 2 ^ k) (hk : k ≤ 31) (hmn : m ≤ n)
    (hn : n ≤ m + 2 ^ 31) :
    (arith mCapacity).room ((arith mCapacity).count n) ((arith mCapacity).count m) = true ↔
      n < m + mCapacity.toNat := by
  have hpos : 0 < mCapacity.toNat := hcap ▸ Nat.two_pow_pos k
  have hle : mCapacity.toNat ≤ 2 ^ 31 := hcap ▸ Nat.pow_le_pow_right Nat.two_pos hk
  rcases Nat.lt_or_eq_of_le hn with hlt | rfl
  · exact room_iff_of_lt hpos hmn hlt
  · rw [room_iff hpos hmn, Nat.add_sub_cancel_left,
      show ((BitVec.ofNat 32 (2 ^ 31)).signExtend 64).toNat = 2 ^ 64 - 2 ^ 31 by decide]
    omega

/-- A power of two works however long the ring runs. -/
theorem faithful_of_two_pow (hcap : mCapacity.toNat = 2 ^ k) (hk : k ≤ 31) :
    (arith mCapacity).Faithful mCapacity.toNat ⊤ := by
  have hle : mCapacity.toNat ≤ 2 ^ 31 := hcap ▸ Nat.pow_le_pow_right Nat.two_pos hk
  refine Arith.faithful_of_mod (fun hmn hn => room_iff_of_two_pow hcap hk hmn (by omega))
    (fun hmn hn => count_ne hmn (by omega)) (fun n => ?_)
  rw [slot_of_two_pow hcap (by omega), hcap]

/-- What the modulo ring should do in every sequence of calls, however long: deliver in order, and
keep the unread values in distinct slots. -/
def FifoAcrossWraps (mCapacity : SizeT) (mBuffer : ℕ → T) : Prop :=
  ∀ cs : List (Arith.Call T),
    ((arith mCapacity).session mBuffer cs).popped <+:
      ((arith mCapacity).session mBuffer cs).pushed ∧
    (((arith mCapacity).session mBuffer cs).slots.drop
      ((arith mCapacity).session mBuffer cs).popped.length).Nodup

theorem fifoAcrossWraps_of_two_pow (hcap : mCapacity.toNat = 2 ^ k) (hk : k ≤ 31)
    (mBuffer : ℕ → T) : FifoAcrossWraps mCapacity mBuffer := by
  intro cs
  have ha := faithful_of_two_pow hcap hk
  obtain ⟨q, hq⟩ := Arith.session_queued ha mBuffer cs
  refine ⟨⟨q, hq.split.symm⟩, ?_⟩
  rw [(Arith.session_counted mBuffer cs).nodup_iff]
  intro i j hi hij hj
  have hlen := hq.ring.length
  have hbound := hq.bound
  exact ha.slots i j hij (by omega) trivial

/-- For a capacity that is no power of two, the counts `2 ^ 32 - 1` and `2 ^ 32 - 1 + r`, where `r`
is the remainder of `2 ^ 64`, lie in one window and share a slot. -/
theorem slot_collision (hpos : 0 < mCapacity.toNat) (hmax : mCapacity.toNat < 2 ^ 31)
    (hnot : ¬ ∃ k, mCapacity.toNat = 2 ^ k) :
    ∃ r, 0 < r ∧ r < mCapacity.toNat ∧
      (arith mCapacity).slot ((arith mCapacity).count (2 ^ 32 - 1)) =
        (arith mCapacity).slot ((arith mCapacity).count (2 ^ 32 - 1 + r)) := by
  have hlt : 2 ^ 64 % mCapacity.toNat < mCapacity.toNat := Nat.mod_lt _ hpos
  have hr : 0 < 2 ^ 64 % mCapacity.toNat := by
    rw [Nat.pos_iff_ne_zero]
    intro h0
    obtain ⟨k, -, hk⟩ := (Nat.dvd_prime_pow Nat.prime_two).1 (Nat.dvd_of_mod_eq_zero h0)
    exact hnot ⟨k, hk⟩
  have hdiv := Nat.div_add_mod (2 ^ 64) mCapacity.toNat
  refine ⟨2 ^ 64 % mCapacity.toNat, hr, hlt, ?_⟩
  generalize 2 ^ 64 % mCapacity.toNat = r at *
  generalize 2 ^ 64 / mCapacity.toNat = q at *
  -- the counter before the step is `-1`, the later one `r - 1`
  have hwrap : BitVec.ofNat 32 (2 ^ 32 - 1 + r) = BitVec.ofNat 32 (r - 1) := by
    apply BitVec.eq_of_toNat_eq
    rw [BitVec.toNat_ofNat, BitVec.toNat_ofNat]
    omega
  have hlast : ((BitVec.ofNat 32 (2 ^ 32 - 1)).signExtend 64).toNat = 2 ^ 64 - 1 := by decide
  have hsplit : 2 ^ 64 - 1 = mCapacity.toNat * q + (r - 1) := by omega
  rw [slot_eq, slot_eq, hwrap, hlast, hsplit, Nat.mul_add_mod,
    Residue.toNat_signExtend_ofNat (w := 31) (by omega) (by omega)]

theorem exists_overwrite (hpos : 0 < mCapacity.toNat) (hmax : mCapacity.toNat < 2 ^ 31)
    (hnot : ¬ ∃ k, mCapacity.toNat = 2 ^ k) (mBuffer : ℕ → T) (x y : T) :
    ∃ cs : List (Arith.Call T),
      ¬ (((arith mCapacity).session mBuffer cs).slots.drop
        ((arith mCapacity).session mBuffer cs).popped.length).Nodup ∧
      ((arith mCapacity).session mBuffer (cs ++ [.tryPop])).pushed[2 ^ 32 - 1]? = some x ∧
      ((arith mCapacity).session mBuffer (cs ++ [.tryPop])).popped[2 ^ 32 - 1]? = some y := by
  obtain ⟨r, hr, hlt, hslot⟩ := slot_collision hpos hmax hnot
  have hroom : ∀ n j, j < mCapacity.toNat → (arith mCapacity).room
      ((arith mCapacity).count (n + j)) ((arith mCapacity).count n) = true := fun n j hj =>
    (room_iff_of_lt hpos (Nat.le_add_right n j) (by omega)).2 (Nat.add_lt_add_left hj n)
  exact Arith.exists_overwrite (fun n => hroom n 0 hpos) (fun n => count_ne (by omega) (by omega))
    hr (fun j hj => hroom _ j (by omega)) (count_ne (by omega) (by omega)) hslot mBuffer x y

/-- **The capacities that survive the wrap of the counters are the powers of two.** For the others
already the order of delivery fails, if the elements have two values. -/
theorem fifoAcrossWraps_iff [Nonempty T] (hpos : 0 < mCapacity.toNat)
    (hmax : mCapacity.toNat < 2 ^ 31) (mBuffer : ℕ → T) :
    (FifoAcrossWraps mCapacity mBuffer ↔ ∃ k, mCapacity.toNat = 2 ^ k) ∧
    (Nontrivial T →
      ((∀ cs : List (Arith.Call T), ((arith mCapacity).session mBuffer cs).popped <+:
          ((arith mCapacity).session mBuffer cs).pushed) ↔
        ∃ k, mCapacity.toNat = 2 ^ k)) := by
  have hpow : (∃ k, mCapacity.toNat = 2 ^ k) → FifoAcrossWraps mCapacity mBuffer := by
    rintro ⟨k, hk⟩
    refine fifoAcrossWraps_of_two_pow hk ?_ mBuffer
    by_contra hgt
    have := Nat.pow_lt_pow_right Nat.one_lt_two (Nat.lt_of_not_le hgt)
    omega
  refine ⟨⟨fun h => ?_, hpow⟩, fun _ => ⟨fun h => ?_, fun h cs => (hpow h cs).1⟩⟩
  · by_contra hnot
    obtain ⟨x⟩ := ‹Nonempty T›
    obtain ⟨cs, hcs, -, -⟩ := exists_overwrite hpos hmax hnot mBuffer x x
    exact hcs (h cs).2
  · by_contra hnot
    obtain ⟨x, y, hxy⟩ := exists_pair_ne T
    obtain ⟨cs, -, hpushed, hpopped⟩ := exists_overwrite hpos hmax hnot mBuffer x y
    obtain ⟨hlt, hy⟩ := List.getElem?_eq_some_iff.1 hpopped
    have hpre := List.prefix_iff_getElem?.1 (h (cs ++ [.tryPop])) (2 ^ 32 - 1) hlt
    rw [hpushed, hy] at hpre
    exact hxy (Option.some.inj hpre)

/-- A capacity of four, whose calls run across every wrap. -/
theorem fifoAcrossWraps_iff_four : FifoAcrossWraps (4 : SizeT) (fun _ => (0 : ℕ)) :=
  (fifoAcrossWraps_iff (by decide) (by decide) _).1.2 ⟨2, by decide⟩

/-- Of a ring of three slots, after `2 ^ 32 - 1` turns: the next value pushed is `1`, and the next
value popped is `2`. -/
theorem not_fifoAcrossWraps_three : ¬ FifoAcrossWraps (3 : SizeT) (fun _ => (0 : ℕ)) ∧
    ∃ cs : List (Arith.Call ℕ),
      ((arith 3).session (fun _ => 0) cs).pushed[2 ^ 32 - 1]? = some 1 ∧
      ((arith 3).session (fun _ => 0) cs).popped[2 ^ 32 - 1]? = some 2 := by
  have hnot : ¬ ∃ k, (3 : SizeT).toNat = 2 ^ k := by
    rintro ⟨k, hk⟩
    cases k with
    | zero => cases hk
    | succ k =>
      rw [Nat.pow_succ] at hk
      have : (3 : SizeT).toNat = 3 := rfl
      omega
  obtain ⟨cs, hcs, hpushed, hpopped⟩ :=
    exists_overwrite (by decide) (by decide) hnot (fun _ => 0) 1 2
  exact ⟨fun h => hcs (h cs).2, _, hpushed, hpopped⟩

end RingBufferSPSCLockFree

end ThreadTests
