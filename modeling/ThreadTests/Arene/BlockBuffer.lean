import ThreadTests.Words
import ThreadTests.Core.Memory
import ThreadTests.Core.Residue
import ThreadTests.Core.System
import Mathlib.Logic.Function.Iterate

/-!
# `arene::BlockBuffer`

A ring of `depth` blocks of `width` elements. `tryPush` hands out a block, which its caller fills
after the call; `tryPop` copies the oldest block out, or only discards it.

The counters are declared `std::size_t`, but `increment` takes an `unsigned int` and returns an
`int`: what is stored is the sign extension of the low half. After `n` increments a counter is the
sign extension of `n` modulo `2 ^ 32` (`count_eq`), which is `n` only below `2 ^ 31`, and again in
the last `2 ^ 31` counts before `2 ^ 64` (`toNat_count_eq_iff`). The slots follow the counts all
the same (`toNat_slot`), and a test for room is right when it succeeds (`lt_of_room`).
-/

namespace ThreadTests.Arene

universe u

/-- The members that the constructor sets for good. -/
structure Shape where
  mWidth : SizeT
  mDepth : SizeT
  deriving DecidableEq

/-- The members that change: the counters and the elements. -/
structure BlockBuffer (E : Type u) where
  mWrite : SizeT
  mRead : SizeT
  mBuffer : ℕ → E

/-- The argument of a pop: `nullptr`, a pointer to a null destination, or to a destination. -/
inductive Dest where
  | null
  | discard
  | copy
  deriving DecidableEq, Repr

def increment (n : CUnsigned) : CInt := unsignedToInt (n + 1)

/-- The counter that is stored after `increment`, with the conversions of the call and of the
store. -/
def next (n : SizeT) : SizeT := intToSize (increment (sizeToUnsigned n))

namespace Shape

variable (c : Shape)

def mCycle : SizeT := c.mDepth - 1

/-- `head - tail < m_depth` -/
def room (head tail : SizeT) : Bool := decide (head - tail < c.mDepth)

def slot (n : SizeT) : CUnsigned := sizeToUnsigned (n &&& c.mCycle)

/-- `slot*m_width`: a pointer into the buffer, as its distance from the start. -/
def offset (n : SizeT) : SizeT := unsignedToSize (c.slot n) * c.mWidth

/-- The elements of a block. -/
abbrev Block (E : Type u) := Fin c.mWidth.toNat → E

/-- The indices of the block at a pointer. -/
def block (ptr : SizeT) : Set ℕ := Memory.block ptr.toNat c.mWidth.toNat

end Shape

namespace BlockBuffer

variable {E : Type u}

/-- After construction; `new element_type[depth*width]` leaves what it leaves in the elements. -/
def new (mBuffer : ℕ → E) : BlockBuffer E := ⟨0, 0, mBuffer⟩

/-- What is returned, and what `ptr` is set to. -/
def tryPush (c : Shape) (b : BlockBuffer E) : (Bool × Option SizeT) × BlockBuffer E :=
  let head := b.mWrite
  let nextHead := increment (sizeToUnsigned head)
  let tail := b.mRead
  if c.room head tail then
    ((true, some (c.offset head)), { b with mWrite := intToSize nextHead })
  else ((false, none), b)

/-- What is returned, and what is copied to the destination. A null argument is dereferenced when
there is something to pop: no result. -/
def tryPop (c : Shape) (dest : Dest) (b : BlockBuffer E) :
    Option ((Bool × Option (c.Block E)) × BlockBuffer E) :=
  let tail := b.mRead
  let popped := { b with mRead := intToSize (increment (sizeToUnsigned tail)) }
  if tail ≠ b.mWrite then
    match dest with
    | .null => none
    | .discard => some ((true, none), popped)
    | .copy =>
      some ((true, some (Memory.readBlock b.mBuffer (c.offset tail).toNat c.mWidth.toNat)), popped)
  else some ((false, none), b)

def head (b : BlockBuffer E) : SizeT := b.mWrite

def tail (b : BlockBuffer E) : SizeT := b.mRead

def size (b : BlockBuffer E) : SizeT := b.mWrite - b.mRead

end BlockBuffer

/-! ## Counters and counts -/

/-- The counter after `n` increments. -/
def count (n : ℕ) : SizeT := next^[n] 0

@[simp] theorem count_zero : count 0 = 0 := rfl

@[simp] theorem next_count (n : ℕ) : next (count n) = count (n + 1) :=
  (Function.iterate_succ_apply' next n 0).symm

theorem count_eq (n : ℕ) : count n = (BitVec.ofNat 32 n).signExtend 64 := by
  induction n with
  | zero => rfl
  | succ n ih =>
    rw [← next_count, ih, next, increment, sizeToUnsigned, unsignedToInt, intToSize,
      Residue.setWidth_signExtend (by omega), BitVec.ofNat_add]
    rfl

variable {c : Shape} {n m k : ℕ}

theorem toNat_count_of_lt (hn : n < 2 ^ 31) : (count n).toNat = n := by
  rw [count_eq, Residue.toNat_signExtend_ofNat (w := 31) (by omega) hn]

/-- A counter is its count below `2 ^ 31`, and in the last `2 ^ 31` counts of `std::size_t`. -/
theorem toNat_count_eq_iff (hn : n < 2 ^ 64) :
    (count n).toNat = n ↔ n < 2 ^ 31 ∨ 2 ^ 64 - 2 ^ 31 ≤ n := by
  rw [count_eq, Residue.toNat_signExtend_of_le (by omega), BitVec.msb_eq_decide,
    BitVec.toNat_ofNat]
  simp only [decide_eq_true_eq]
  split <;> omega

theorem count_ne (hmn : m < n) (hn : n < m + 2 ^ 32) : count m ≠ count n := by
  rw [count_eq, count_eq]
  intro h
  have heq := Residue.signExtend_inj (by omega) h
  have := Residue.ofNat_inj_of_window (Nat.le_of_lt hmn) hn heq
  omega

/-- A test for room that succeeds is right, as long as fewer than `2 ^ 32` blocks are unread. -/
theorem lt_of_room (hmn : m ≤ n) (hn : n < m + 2 ^ 32)
    (hroom : c.room (count n) (count m) = true) : n < m + c.mDepth.toNat := by
  simp only [Shape.room, count_eq, decide_eq_true_eq, BitVec.lt_def] at hroom
  have hdiff := Residue.signExtend_sub_cases (w := 31) (v := 64) (by omega) hmn hn
  simp only [Nat.reduceAdd] at hdiff
  omega

theorem toNat_count_sub_count (hmn : m ≤ n) (hn : n < 2 ^ 31) :
    (count n - count m).toNat = n - m := by
  have hn' := toNat_count_of_lt hn
  have hm' := toNat_count_of_lt (show m < 2 ^ 31 by omega)
  rw [BitVec.toNat_sub_of_le, hn', hm']
  rwa [BitVec.le_def, hn', hm']

/-- Below `2 ^ 31` the test for room is exact. -/
theorem room_iff_of_lt (hmn : m ≤ n) (hn : n < 2 ^ 31) :
    c.room (count n) (count m) = true ↔ n < m + c.mDepth.toNat := by
  unfold Shape.room
  rw [decide_eq_true_iff, BitVec.lt_def, toNat_count_sub_count hmn hn]
  omega

/-- An empty ring has room. -/
theorem room_self (hpos : 0 < c.mDepth.toNat) (n : SizeT) : c.room n n = true := by
  unfold Shape.room
  rw [BitVec.sub_self, decide_eq_true_iff, BitVec.lt_def]
  exact hpos

theorem depth_lt (hdepth : c.mDepth.toNat = 2 ^ k) (hk : k ≤ 31) : c.mDepth.toNat < 2 ^ 32 := by
  rw [hdepth]
  exact Nat.pow_lt_pow_right Nat.one_lt_two (by omega)

/-- The number of slots: the depth, or `2 ^ 32` when the slot is cut to an `unsigned int`. -/
def slots (k : ℕ) : ℕ := 2 ^ min k 32

theorem slots_le_depth (k : ℕ) : slots k ≤ 2 ^ k :=
  Nat.pow_le_pow_right Nat.two_pos (Nat.min_le_left k 32)

theorem slots_le (k : ℕ) : slots k ≤ 2 ^ 32 :=
  Nat.pow_le_pow_right Nat.two_pos (Nat.min_le_right k 32)

theorem slots_eq (hk : k ≤ 32) : slots k = 2 ^ k := by rw [slots, Nat.min_eq_left hk]

theorem slots_le_half (hk : k ≤ 31) : slots k ≤ 2 ^ 31 := by
  rw [slots_eq (by omega)]
  exact Nat.pow_le_pow_right Nat.two_pos hk

theorem slots_eq_min (k : ℕ) : slots k = min (2 ^ k) (2 ^ 32) := by
  rcases Nat.le_total k 32 with h | h
  · rw [slots, Nat.min_eq_left h, Nat.min_eq_left (Nat.pow_le_pow_right Nat.two_pos h)]
  · rw [slots, Nat.min_eq_right h, Nat.min_eq_right (Nat.pow_le_pow_right Nat.two_pos h)]

theorem lt_slots_iff : n < slots k ↔ n < 2 ^ k ∧ n < 2 ^ 32 := by
  rw [slots_eq_min, Nat.lt_min]

theorem toNat_mCycle_of_pos (hpos : 0 < c.mDepth.toNat) : c.mCycle.toNat = c.mDepth.toNat - 1 :=
  BitVec.toNat_sub_of_le (y := 1#64) hpos

theorem toNat_mCycle (hdepth : c.mDepth.toNat = 2 ^ k) : c.mCycle.toNat = 2 ^ k - 1 := by
  have hpos : 0 < c.mDepth.toNat := hdepth ▸ Nat.two_pow_pos k
  rw [toNat_mCycle_of_pos hpos, hdepth]

/-- The slots follow the counts: neither the sign extension nor the conversion to `unsigned int`
matters to the low bits. -/
theorem toNat_slot (hdepth : c.mDepth.toNat = 2 ^ k) (n : ℕ) :
    (c.slot (count n)).toNat = n % slots k := by
  have hdvd : slots k ∣ 2 ^ 32 := pow_dvd_pow 2 (Nat.min_le_right k 32)
  rw [Shape.slot, sizeToUnsigned, BitVec.toNat_setWidth, Residue.toNat_and_mask
    (toNat_mCycle hdepth), Residue.mod_two_pow_mod, ← slots, count_eq,
    Residue.toNat_signExtend_mod (by omega) hdvd, BitVec.toNat_ofNat, Nat.mod_mod_of_dvd n hdvd]

theorem toNat_offset_of_lt (hdepth : c.mDepth.toNat = 2 ^ k)
    (hlt : n % slots k * c.mWidth.toNat < 2 ^ 64) :
    (c.offset (count n)).toNat = n % slots k * c.mWidth.toNat := by
  have hslot := Nat.mod_lt n (Nat.two_pow_pos (min k 32))
  rw [Shape.offset, BitVec.toNat_mul, unsignedToSize, BitVec.toNat_setWidth, toNat_slot hdepth,
    Nat.mod_eq_of_lt (a := n % slots k), Nat.mod_eq_of_lt hlt]
  exact Nat.lt_of_lt_of_le hslot ((slots_le k).trans (by decide))

/-- The blocks of all slots, when they fit into the array, end within it. -/
theorem mod_slots_mul_le (n : ℕ) {m size : ℕ} (hfits : slots k * m ≤ size) :
    n % slots k * m + m ≤ size := by
  have hslot := Nat.mod_lt n (Nat.two_pow_pos (min k 32))
  rw [← Nat.succ_mul]
  exact (Nat.mul_le_mul_right m (Nat.succ_le_of_lt hslot)).trans hfits

/-- The blocks of all slots take no more than the depth says. -/
theorem slots_mul_le (hdepth : c.mDepth.toNat = 2 ^ k) :
    slots k * c.mWidth.toNat ≤ c.mDepth.toNat * c.mWidth.toNat := by
  rw [hdepth]
  exact Nat.mul_le_mul_right _ (slots_le_depth k)

theorem toNat_offset (hdepth : c.mDepth.toNat = 2 ^ k)
    (hsize : slots k * c.mWidth.toNat < 2 ^ 64) (n : ℕ) :
    (c.offset (count n)).toNat = n % slots k * c.mWidth.toNat := by
  have hend := mod_slots_mul_le n (Nat.le_refl (slots k * c.mWidth.toNat))
  exact toNat_offset_of_lt hdepth (by omega)

/-- A block lies within the allocated elements. -/
theorem offset_add_le (hdepth : c.mDepth.toNat = 2 ^ k)
    (hsize : c.mDepth.toNat * c.mWidth.toNat < 2 ^ 64) (n : ℕ) :
    (c.offset (count n)).toNat + c.mWidth.toNat ≤ c.mDepth.toNat * c.mWidth.toNat := by
  have hslots := slots_mul_le hdepth
  rw [toNat_offset hdepth (Nat.lt_of_le_of_lt hslots hsize)]
  exact mod_slots_mul_le n hslots

/-- The blocks of a window of counts are disjoint. -/
theorem disjoint_block (hdepth : c.mDepth.toNat = 2 ^ k)
    (hsize : slots k * c.mWidth.toNat < 2 ^ 64) (hmn : m < n) (hn : n < m + slots k) :
    Disjoint (c.block (c.offset (count m))) (c.block (c.offset (count n))) := by
  rw [Shape.block, Shape.block, toNat_offset hdepth hsize, toNat_offset hdepth hsize]
  apply Memory.disjoint_blocks
  intro heq
  rcases Residue.mod_window (Nat.le_of_lt hmn) hn with h | h <;> omega

end ThreadTests.Arene
