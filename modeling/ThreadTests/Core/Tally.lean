import Mathlib.Algebra.BigOperators.Group.Finset.Basic
import Mathlib.Data.Fintype.Basic

/-!
# Tallies over finitely many threads

The sum of a weight over the places of all threads. A step that moves one thread changes the tally
by the difference of two weights (`tally_update`), and a tally that is not zero names a thread that
counts (`exists_of_tally_pos`).
-/

namespace ThreadTests

universe u v

variable {ι : Type u} {α : Type v} [Fintype ι] [DecidableEq ι] {w : α → ℕ}

def tally (w : α → ℕ) (f : ι → α) : ℕ := ∑ i, w (f i)

/-- One thread moves. -/
theorem tally_update (w : α → ℕ) (f : ι → α) (i : ι) (a : α) :
    tally w (Function.update f i a) + w (f i) = tally w f + w a := by
  have hsplit : ∀ g : ι → α, tally w g = ∑ j ∈ Finset.univ.erase i, w (g j) + w (g i) := fun g =>
    (Finset.sum_erase_add Finset.univ (fun j => w (g j)) (Finset.mem_univ i)).symm
  have hrest : ∑ j ∈ Finset.univ.erase i, w (Function.update f i a j) =
      ∑ j ∈ Finset.univ.erase i, w (f j) := by
    refine Finset.sum_congr rfl fun j hj => ?_
    rw [Function.update_of_ne (Finset.ne_of_mem_erase hj)]
  rw [hsplit, hsplit f, hrest, Function.update_self]
  omega

omit [DecidableEq ι] in
theorem exists_of_tally_pos {f : ι → α} (h : 0 < tally w f) : ∃ i, 0 < w (f i) := by
  by_contra hnone
  have hzero : tally w f = 0 :=
    Finset.sum_eq_zero fun i _ => Nat.eq_zero_of_not_pos fun hi => hnone ⟨i, hi⟩
  omega

theorem le_tally (w : α → ℕ) (f : ι → α) (i : ι) : w (f i) ≤ tally w f :=
  (Nat.le_add_left _ _).trans_eq
    (Finset.sum_erase_add Finset.univ (fun j => w (f j)) (Finset.mem_univ i))

omit [DecidableEq ι] in
/-- Weights that add up at each place. -/
theorem tally_add {f g h : ι → α} (heq : ∀ i, w (h i) = w (f i) + w (g i)) :
    tally w h = tally w f + tally w g :=
  (Finset.sum_congr rfl fun i _ => heq i).trans Finset.sum_add_distrib

end ThreadTests
