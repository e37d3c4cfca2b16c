import Mathlib.Data.Nat.Bits
import Mathlib.Data.Nat.Size
import Mathlib.Data.BitVec
import Mathlib.Order.Bounds.Basic

/-!
# Machine words and `make_mask`

The integer types of the program on the target, all in two's complement, and their conversions:
`int` and `unsigned int` have 32 bits, `std::size_t` has 64. Signed arithmetic is taken to wrap.

`makeMask` smears the highest set bit of a number over all lower bits, by shifts that halve
(`makeMaskLoop`). After the shifts `2 ^ k, ..., 2, 1` a bit is set when one of the
`2 ^ (k + 1)` bits from it upwards was (`getLsbD_makeMaskLoop`), so for a type of `2 ^ (k + 1)`
bits the mask of a number with `L` significant bits is `2 ^ L - 1` (`toNat_makeMaskLoop`).
-/

namespace ThreadTests

/-- `int` -/
abbrev CInt := BitVec 32

/-- `unsigned int` -/
abbrev CUnsigned := BitVec 32

/-- `std::size_t` -/
abbrev SizeT := BitVec 64

/-- Conversion from `int` to `std::size_t`: the value modulo `2 ^ 64`. -/
def intToSize (n : CInt) : SizeT := n.signExtend 64

/-- Conversion from `unsigned int` to `std::size_t`. -/
def unsignedToSize (n : CUnsigned) : SizeT := n.setWidth 64

/-- Conversion from `unsigned int` to `int`: the bits stay. -/
def unsignedToInt (n : CUnsigned) : CInt := n

/-- Conversion from `int` to `unsigned int`: the bits stay. -/
def intToUnsigned (n : CInt) : CUnsigned := n

/-- Conversion from `std::size_t` to `unsigned int`: the lower half. -/
def sizeToUnsigned (n : SizeT) : CUnsigned := n.setWidth 32

/-- The loop of `make_mask`: fold the shift in, then halve it. -/
def makeMaskLoop {w : ℕ} (mask : BitVec w) (bits : ℕ) : BitVec w :=
  if bits = 0 then mask else makeMaskLoop (mask ||| mask >>> bits) (bits / 2)
termination_by bits

/-- `make_mask` on an unsigned type of `w` bits, `sizeof(number) * 8`. -/
def makeMask {w : ℕ} (num : BitVec w) : SizeT := (makeMaskLoop num (w / 2)).setWidth 64

theorem makeMaskLoop_zero {w : ℕ} (mask : BitVec w) : makeMaskLoop mask 0 = mask := by
  rw [makeMaskLoop, if_pos rfl]

theorem makeMaskLoop_of_ne_zero {w bits : ℕ} (mask : BitVec w) (h : bits ≠ 0) :
    makeMaskLoop mask bits = makeMaskLoop (mask ||| mask >>> bits) (bits / 2) := by
  rw [makeMaskLoop, if_neg h]

/-- The shifts `2 ^ k, ..., 2, 1` smear every bit over the `2 ^ (k + 1)` positions below it. -/
theorem getLsbD_makeMaskLoop {w : ℕ} (k : ℕ) (mask : BitVec w) (i : ℕ) :
    (makeMaskLoop mask (2 ^ k)).getLsbD i = true ↔
      ∃ d < 2 ^ (k + 1), mask.getLsbD (i + d) = true := by
  induction k generalizing mask with
  | zero =>
    rw [makeMaskLoop_of_ne_zero mask (by decide), show 2 ^ 0 / 2 = 0 from rfl, makeMaskLoop_zero,
      BitVec.getLsbD_or, BitVec.getLsbD_ushiftRight, Bool.or_eq_true]
    constructor
    · rintro (h | h)
      · exact ⟨0, by decide, h⟩
      · exact ⟨1, by decide, by rwa [Nat.add_comm]⟩
    · rintro ⟨d, hd, h⟩
      rcases Nat.lt_succ_iff.1 hd with _ | hd
      · exact .inr (by rwa [Nat.add_comm])
      · obtain rfl := Nat.le_zero.1 hd
        exact .inl h
  | succ k ih =>
    have hhalf : 2 ^ (k + 1) / 2 = 2 ^ k := by rw [Nat.pow_succ, Nat.mul_div_cancel _ Nat.two_pos]
    rw [makeMaskLoop_of_ne_zero mask (Nat.two_pow_pos _).ne', hhalf, ih]
    simp only [BitVec.getLsbD_or, BitVec.getLsbD_ushiftRight, Bool.or_eq_true]
    have hdouble : 2 ^ (k + 1 + 1) = 2 ^ (k + 1) + 2 ^ (k + 1) := by rw [Nat.pow_succ]; omega
    constructor
    · rintro ⟨d, hd, h | h⟩
      · exact ⟨d, by omega, h⟩
      · exact ⟨2 ^ (k + 1) + d, by omega, by rwa [Nat.add_left_comm]⟩
    · rintro ⟨d, hd, h⟩
      by_cases hlow : d < 2 ^ (k + 1)
      · exact ⟨d, hlow, .inl h⟩
      · refine ⟨d - 2 ^ (k + 1), by omega, .inr ?_⟩
        rwa [Nat.add_left_comm, Nat.add_sub_cancel' (Nat.le_of_not_lt hlow)]

/-- A number has a set bit at or above `i` exactly when it has more than `i` significant bits. -/
theorem exists_testBit_add_iff {n i : ℕ} : (∃ d, n.testBit (i + d) = true) ↔ i < n.size := by
  rw [Nat.lt_size]
  constructor
  · rintro ⟨d, h⟩
    exact (Nat.pow_le_pow_right Nat.two_pos (Nat.le_add_right i d)).trans
      (Nat.ge_two_pow_of_testBit h)
  · intro h
    obtain ⟨j, hj, hbit⟩ := Nat.exists_ge_and_testBit_of_ge_two_pow h
    exact ⟨j - i, by rwa [Nat.add_sub_cancel' hj]⟩

/-- **The mask of a number** with `L` significant bits is `2 ^ L - 1`. -/
theorem toNat_makeMaskLoop {w k : ℕ} (hw : w = 2 ^ (k + 1)) (num : BitVec w) :
    (makeMaskLoop num (w / 2)).toNat = 2 ^ num.toNat.size - 1 := by
  have hhalf : w / 2 = 2 ^ k := by rw [hw, Nat.pow_succ, Nat.mul_div_cancel _ Nat.two_pos]
  rw [hhalf]
  apply Nat.eq_of_testBit_eq
  intro i
  rw [BitVec.testBit_toNat, Nat.testBit_two_pow_sub_one, Bool.eq_iff_iff, getLsbD_makeMaskLoop,
    decide_eq_true_iff, ← exists_testBit_add_iff]
  constructor
  · rintro ⟨d, -, h⟩
    exact ⟨d, h⟩
  · rintro ⟨d, h⟩
    have hlt : i + d < w := BitVec.lt_of_getLsbD h
    exact ⟨d, by omega, h⟩

/-- A type of one bit needs no shift. -/
theorem toNat_makeMaskLoop_one (num : BitVec 1) :
    (makeMaskLoop num (1 / 2)).toNat = 2 ^ num.toNat.size - 1 := by
  rw [makeMaskLoop_zero]
  rcases Nat.lt_succ_iff_lt_or_eq.1 num.isLt with h | h
  · rw [Nat.lt_one_iff.1 h]
    rfl
  · rw [h]
    rfl

theorem toNat_makeMask_of_two_pow {w k : ℕ} (hw : w = 2 ^ k) (hle : w ≤ 64) (num : BitVec w) :
    (makeMask num).toNat = 2 ^ num.toNat.size - 1 := by
  have hloop : (makeMaskLoop num (w / 2)).toNat = 2 ^ num.toNat.size - 1 := by
    cases k with
    | zero =>
      subst hw
      exact toNat_makeMaskLoop_one num
    | succ k => exact toNat_makeMaskLoop hw num
  have hlt : (makeMaskLoop num (w / 2)).toNat < 2 ^ 64 :=
    (makeMaskLoop num (w / 2)).isLt.trans_le (Nat.pow_le_pow_right Nat.two_pos hle)
  rw [makeMask, BitVec.toNat_setWidth, Nat.mod_eq_of_lt hlt, hloop]

theorem toNat_makeMask (n : SizeT) : (makeMask n).toNat = 2 ^ n.toNat.size - 1 :=
  toNat_makeMask_of_two_pow (k := 6) rfl (Nat.le_refl 64) n

/-- `2 ^ L` is the least power of two above a number with `L` significant bits. -/
theorem isLeast_two_pow_size (n : ℕ) : IsLeast {p | n < p ∧ ∃ j, p = 2 ^ j} (2 ^ n.size) := by
  refine ⟨⟨Nat.lt_size_self n, n.size, rfl⟩, ?_⟩
  rintro _ ⟨hlt, j, rfl⟩
  exact Nat.pow_le_pow_right Nat.two_pos (Nat.size_le.2 hlt)

/-- `2 ^ L - 1` is the least mask that covers a number with `L` significant bits. -/
theorem isLeast_two_pow_size_sub_one (n : ℕ) :
    IsLeast {m | n ≤ m ∧ ∃ j, m = 2 ^ j - 1} (2 ^ n.size - 1) := by
  refine ⟨⟨Nat.le_sub_one_of_lt (Nat.lt_size_self n), n.size, rfl⟩, ?_⟩
  rintro _ ⟨hle, j, rfl⟩
  have hlt : n < 2 ^ j := Nat.lt_of_le_pred (Nat.two_pow_pos j) hle
  exact Nat.sub_le_sub_right ((isLeast_two_pow_size n).2 ⟨hlt, j, rfl⟩) 1

/-- **`make_mask` on every unsigned type**, of a width that is a power of two and at most that of
`std::size_t`: it is the least mask that covers the number, and the least power of two above the
number comes next. -/
theorem makeMask_least {w k : ℕ} (hw : w = 2 ^ k) (hle : w ≤ 64) (num : BitVec w) :
    (makeMask num).toNat = 2 ^ num.toNat.size - 1 ∧
    IsLeast {m | num.toNat ≤ m ∧ ∃ j, m = 2 ^ j - 1} (makeMask num).toNat ∧
    ((makeMask num).toNat + 1 < 2 ^ 64 →
      IsLeast {p | num.toNat < p ∧ ∃ j, p = 2 ^ j} (makeMask num + 1).toNat) := by
  have hmask := toNat_makeMask_of_two_pow hw hle num
  refine ⟨hmask, ?_, ?_⟩
  · rw [hmask]
    exact isLeast_two_pow_size_sub_one num.toNat
  · intro hfits
    have hnext : (makeMask num + 1).toNat = 2 ^ num.toNat.size := by
      have hadd : (makeMask num + 1).toNat = (makeMask num).toNat + 1 := by
        rw [BitVec.toNat_add]
        exact Nat.mod_eq_of_lt hfits
      rw [hadd, hmask, Nat.sub_add_cancel Nat.one_le_two_pow]
    rw [hnext]
    exact isLeast_two_pow_size num.toNat

/-- An `unsigned char` with six significant bits. -/
theorem makeMask_least_char : (makeMask (37 : BitVec 8)).toNat = 63 ∧
    IsLeast {m | 37 ≤ m ∧ ∃ j, m = 2 ^ j - 1} (makeMask (37 : BitVec 8)).toNat ∧
    IsLeast {p | 37 < p ∧ ∃ j, p = 2 ^ j} (makeMask (37 : BitVec 8) + 1).toNat := by
  have hmask : (makeMask (37 : BitVec 8)).toNat = 63 := by decide +kernel
  obtain ⟨-, hcovers, hnext⟩ := makeMask_least (w := 8) (k := 3) rfl (by decide) 37
  exact ⟨hmask, hcovers, hnext (by rw [hmask]; decide)⟩

end ThreadTests
