import Mathlib.Order.CompletePartialOrder
import Mathlib.Order.Interval.Set.Disjoint

/-!
# Blocks of a memory

A memory is a function of its indices, and a block the `w` indices from `o` on. Writing a block
changes what is read from that block (`readBlock_writeBlock`) and from no block that is disjoint
from it (`readBlock_writeBlock_of_disjoint`). Blocks of one width at different multiples of it are
disjoint (`disjoint_blocks`).
-/

namespace ThreadTests.Memory

universe u

variable {E : Type u} {o o' w : ℕ}

/-- The indices of a block. -/
def block (o w : ℕ) : Set ℕ := Set.Ico o (o + w)

def readBlock (mem : ℕ → E) (o w : ℕ) : Fin w → E := fun i => mem (o + i)

def writeBlock (mem : ℕ → E) (o : ℕ) (b : Fin w → E) : ℕ → E := fun j =>
  if h : o ≤ j ∧ j < o + w then b ⟨j - o, by omega⟩ else mem j

@[simp] theorem readBlock_writeBlock (mem : ℕ → E) (o : ℕ) (b : Fin w → E) :
    readBlock (writeBlock mem o b) o w = b := by
  funext i
  have hi := i.isLt
  simp only [readBlock, writeBlock]
  rw [dif_pos (by omega)]
  congr 1
  apply Fin.ext
  simp

theorem readBlock_writeBlock_of_disjoint {mem : ℕ → E} {b : Fin w → E}
    (h : Disjoint (block o w) (block o' w)) :
    readBlock (writeBlock mem o b) o' w = readBlock mem o' w := by
  funext i
  have hi := i.isLt
  simp only [readBlock, writeBlock]
  rw [dif_neg]
  intro hin
  have hmem : o' + i.val ∈ block o w := hin
  have hmem' : o' + i.val ∈ block o' w := ⟨by omega, by omega⟩
  exact Set.disjoint_left.1 h hmem hmem'

theorem disjoint_blocks {i j : ℕ} (h : i ≠ j) : Disjoint (block (i * w) w) (block (j * w) w) := by
  rw [block, block, Set.Ico_disjoint_Ico, ← Nat.succ_mul, ← Nat.succ_mul]
  rcases Nat.lt_or_gt_of_ne h with hlt | hgt
  · exact (min_le_left _ _).trans ((Nat.mul_le_mul_right w hlt).trans (le_max_right _ _))
  · exact (min_le_right _ _).trans ((Nat.mul_le_mul_right w hgt).trans (le_max_left _ _))

end ThreadTests.Memory
