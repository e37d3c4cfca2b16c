import Mathlib.Data.Nat.Bitwise
import Mathlib.Data.Nat.Size
import Mathlib.Data.BitVec

/-!
# Counts kept in machine words

A counter that is only ever incremented holds its count modulo `2 ^ w`. Two counts that lie in
one window of less than `2 ^ w` are told apart by their residues (`ofNat_inj_of_window`), and the
difference of the residues is the difference of the counts (`toNat_ofNat_sub_ofNat`). Widening a
residue by sign extension keeps it modulo every divisor of `2 ^ w` (`toNat_signExtend_mod`), but
not the difference: across the sign change it is off by `2 ^ v - 2 ^ w` (`signExtend_sub_cases`).
-/

namespace ThreadTests.Residue

variable {w v m n d c : ℕ}

/-- The residues of `m` and of `m + d` differ by `d`, or by `d` less one turn. -/
theorem mod_window {p : ℕ} (hmn : m ≤ n) (hn : n < m + p) :
    n % p = m % p + (n - m) ∨ n % p + p = m % p + (n - m) := by
  have hp : 0 < p := by omega
  have hm := Nat.mod_lt m hp
  have hsum : n % p = (m % p + (n - m)) % p := by
    rw [Nat.mod_add_mod]
    congr 1
    omega
  rcases Nat.lt_or_ge (m % p + (n - m)) p with h | h
  · exact .inl (by rw [hsum, Nat.mod_eq_of_lt h])
  · refine .inr ?_
    rw [hsum, Nat.mod_eq_sub_mod h, Nat.mod_eq_of_lt (by omega)]
    omega

/-- Counts in one window of less than `2 ^ w` have distinct residues. -/
theorem ofNat_inj_of_window (hmn : m ≤ n) (hn : n < m + 2 ^ w)
    (h : BitVec.ofNat w m = BitVec.ofNat w n) : m = n := by
  have hmod : m % 2 ^ w = n % 2 ^ w := by simpa using congrArg BitVec.toNat h
  rcases mod_window hmn hn with h' | h' <;> omega

theorem ofNat_sub_ofNat (hmn : m ≤ n) :
    BitVec.ofNat w n - BitVec.ofNat w m = BitVec.ofNat w (n - m) := by
  obtain ⟨k, rfl⟩ := Nat.exists_eq_add_of_le' hmn
  rw [BitVec.ofNat_add, BitVec.add_sub_cancel, Nat.add_sub_cancel]

/-- The difference of the residues of counts in one window is the difference of the counts. -/
theorem toNat_ofNat_sub_ofNat (hmn : m ≤ n) (hn : n < m + 2 ^ w) :
    (BitVec.ofNat w n - BitVec.ofNat w m).toNat = n - m := by
  rw [ofNat_sub_ofNat hmn, BitVec.toNat_ofNat, Nat.mod_eq_of_lt (by omega)]

/-! ## Sign extension -/

/-- Sign extension adds `2 ^ v - 2 ^ w` to the words of the upper half. -/
theorem toNat_signExtend_of_le {x : BitVec w} (hw : w ≤ v) :
    (x.signExtend v).toNat = x.toNat + if x.msb then 2 ^ v - 2 ^ w else 0 := by
  have hx : x.toNat < 2 ^ v := Nat.lt_of_lt_of_le x.isLt (Nat.pow_le_pow_right (by omega) hw)
  rw [BitVec.toNat_signExtend, BitVec.toNat_setWidth, Nat.mod_eq_of_lt hx]

/-- Truncation undoes sign extension. -/
theorem setWidth_signExtend {x : BitVec w} (hw : w ≤ v) : (x.signExtend v).setWidth w = x := by
  apply BitVec.eq_of_getLsbD_eq
  intro i hi
  have hiv : i < v := by omega
  rw [BitVec.getLsbD_setWidth, BitVec.getLsbD_signExtend]
  simp only [hi, hiv, decide_true, Bool.true_and, if_true]

theorem signExtend_inj {x y : BitVec w} (hw : w ≤ v) (h : x.signExtend v = y.signExtend v) :
    x = y := by
  rw [← setWidth_signExtend (x := x) hw, h, setWidth_signExtend hw]

/-- Modulo a divisor of `2 ^ w`, sign extension does not change the value. -/
theorem toNat_signExtend_mod {x : BitVec w} (hw : w ≤ v) (hc : c ∣ 2 ^ w) :
    (x.signExtend v).toNat % c = x.toNat % c := by
  have hcv : c ∣ 2 ^ v - 2 ^ w := Nat.dvd_sub (hc.trans (pow_dvd_pow 2 hw)) hc
  rw [toNat_signExtend_of_le hw]
  split
  · rw [Nat.add_mod, Nat.mod_eq_zero_of_dvd hcv, Nat.add_zero, Nat.mod_mod]
  · rw [Nat.add_zero]

/-- A count below half of the range is not changed by sign extension. -/
theorem toNat_signExtend_ofNat (hw : w < v) (hn : n < 2 ^ w) :
    ((BitVec.ofNat (w + 1) n).signExtend v).toNat = n := by
  have hmod : n % 2 ^ (w + 1) = n := Nat.mod_eq_of_lt (by rw [Nat.pow_succ]; omega)
  have hmsb : (BitVec.ofNat (w + 1) n).msb = false := by
    rw [BitVec.msb_eq_decide, BitVec.toNat_ofNat, hmod]
    simpa using hn
  rw [toNat_signExtend_of_le hw, hmsb, BitVec.toNat_ofNat, hmod]
  simp

/-- The difference of two sign extended residues, less than a turn apart: the difference of the
counts, or that difference plus `2 ^ v - 2 ^ (w + 1)`. -/
theorem signExtend_sub_cases (hw : w + 1 ≤ v) (hmn : m ≤ n) (hn : n < m + 2 ^ (w + 1)) :
    let diff :=
      ((BitVec.ofNat (w + 1) n).signExtend v - (BitVec.ofNat (w + 1) m).signExtend v).toNat
    diff = n - m ∨ diff = n - m + (2 ^ v - 2 ^ (w + 1)) := by
  intro diff
  have hP : 2 ^ (w + 1) = 2 * 2 ^ w := by rw [Nat.pow_succ]; omega
  have hV : 2 ^ (w + 1) ≤ 2 ^ v := Nat.pow_le_pow_right (by omega) hw
  have hpos : 0 < 2 ^ w := Nat.two_pow_pos w
  have hwin := mod_window (p := 2 ^ (w + 1)) hmn (by omega)
  have ha := Nat.mod_lt n (y := 2 ^ (w + 1)) (by omega)
  have hb := Nat.mod_lt m (y := 2 ^ (w + 1)) (by omega)
  have hdiff : diff = (2 ^ v - ((m % 2 ^ (w + 1)) + if 2 ^ w ≤ m % 2 ^ (w + 1) then
      2 ^ v - 2 ^ (w + 1) else 0) + ((n % 2 ^ (w + 1)) + if 2 ^ w ≤ n % 2 ^ (w + 1) then
      2 ^ v - 2 ^ (w + 1) else 0)) % 2 ^ v := by
    simp only [diff, BitVec.toNat_sub, toNat_signExtend_of_le hw, BitVec.msb_eq_decide,
      BitVec.toNat_ofNat, Nat.add_sub_cancel, decide_eq_true_eq]
  rw [hdiff]
  clear_value diff
  generalize 2 ^ v = V at *
  generalize 2 ^ w = H at *
  generalize 2 ^ (w + 1) = P at *
  generalize n % P = a at *
  generalize m % P = b at *
  have hleft : ∀ x, x = n - m ∨ x = V + (n - m) → x % V = n - m := by
    rintro x (rfl | rfl)
    · exact Nat.mod_eq_of_lt (by omega)
    · rw [Nat.add_mod_left, Nat.mod_eq_of_lt (by omega)]
  have hright : ∀ x, x = n - m + (V - P) ∨ x = V + (n - m + (V - P)) →
      x % V = n - m + (V - P) := by
    rintro x (rfl | rfl)
    · exact Nat.mod_eq_of_lt (by omega)
    · rw [Nat.add_mod_left, Nat.mod_eq_of_lt (by omega)]
  -- the signs of the two residues, and whether the later one has wrapped
  split <;> split <;> rcases hwin with hwin | hwin <;>
    first
    | exact .inl (hleft _ (by omega))
    | exact .inr (hright _ (by omega))

/-! ## Masks and truncations -/

theorem mod_two_pow_mod (n k l : ℕ) : n % 2 ^ k % 2 ^ l = n % 2 ^ min k l := by
  rcases Nat.le_total k l with h | h
  · have hlt : n % 2 ^ k < 2 ^ l :=
      (Nat.mod_lt n (Nat.two_pow_pos k)).trans_le (Nat.pow_le_pow_right Nat.two_pos h)
    rw [Nat.min_eq_left h, Nat.mod_eq_of_lt hlt]
  · rw [Nat.min_eq_right h, Nat.mod_mod_of_dvd n (pow_dvd_pow 2 h)]

/-- Masking with `2 ^ k - 1` is the remainder modulo `2 ^ k`. -/
theorem toNat_and_mask {x y : BitVec w} {k : ℕ} (hy : y.toNat = 2 ^ k - 1) :
    (x &&& y).toNat = x.toNat % 2 ^ k := by
  rw [BitVec.toNat_and, hy, Nat.and_two_pow_sub_one_eq_mod]

/-- Below a number that is no power of two, its predecessor has a bit that is not set. -/
theorem exists_testBit_eq_false (hn : 0 < n) (hpow : ¬ n.isPowerOfTwo) :
    ∃ b, 2 ^ b < n ∧ (n - 1).testBit b = false := by
  by_contra hall
  have hset : ∀ b, 2 ^ b < n → (n - 1).testBit b = true := by
    intro b hb
    by_contra hbit
    exact hall ⟨b, hb, Bool.eq_false_iff.2 hbit⟩
  have hones : n - 1 = 2 ^ (n - 1).size - 1 := by
    apply Nat.eq_of_testBit_eq
    intro i
    rw [Nat.testBit_two_pow_sub_one]
    by_cases hi : i < (n - 1).size
    · have hle := Nat.lt_size.1 hi
      rw [hset i (by omega), decide_eq_true hi]
    · have hlt := Nat.size_le.1 (Nat.le_of_not_lt hi)
      rw [Nat.testBit_lt_two_pow hlt, decide_eq_false hi]
  refine hpow ⟨(n - 1).size, ?_⟩
  have := Nat.two_pow_pos (n - 1).size
  omega

end ThreadTests.Residue
