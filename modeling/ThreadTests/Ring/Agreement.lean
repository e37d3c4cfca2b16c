import ThreadTests.Ring.Bitmask
import ThreadTests.Ring.Modulo

/-!
# The bitmask ring and the modulo ring agree

Two rings whose counters are faithful for the same capacity represent the same queue after the
same calls, so they answer alike (`outcomes_eq`). The counters themselves are not compared: one
ring widens `int` by the sign and divides, the other widens `unsigned int` by zeros and masks, but
the slot of a count is the same (`slot_agree`), and so is the answer of a test, also for a full
ring of `2 ^ 31` elements, whose difference is negative as an `int`.
-/

namespace ThreadTests

universe u v w

namespace Arith

variable {κ : Type u} {κ' : Type w} {T : Type v} [DecidableEq κ] [DecidableEq κ']
  {a : Arith κ} {a' : Arith κ'} {cap n m : ℕ} {q : List T} {r : Ring κ T} {r' : Ring κ' T}

/-- Two rings that hold the same queue after equally many pushes and pops. -/
structure Agree (a : Arith κ) (a' : Arith κ') (cap : ℕ) (r : Ring κ T) (r' : Ring κ' T) (n m : ℕ)
    (q : List T) : Prop where
  left : a.Represents r n m q
  right : a'.Represents r' n m q
  bound : q.length ≤ cap

/-- One call. -/
theorem Agree.call (ha : a.Faithful cap ⊤) (ha' : a'.Faithful cap ⊤)
    (hslot : ∀ n, a.slot (a.count n) = a'.slot (a'.count n)) (h : Agree a a' cap r r' n m q)
    (c : Call T) :
    (a.call c r).1 = (a'.call c r').1 ∧
      ∃ n m q, Agree a a' cap (a.call c r).2 (a'.call c r').2 n m q := by
  cases c with
  | tryPush val =>
    rcases Nat.lt_or_eq_of_le h.bound with hlt | hfull
    · obtain ⟨hret, hrep⟩ := h.left.tryPush ha trivial hlt val
      obtain ⟨hret', hrep'⟩ := h.right.tryPush ha' trivial hlt val
      refine ⟨?_, n + 1, m, q ++ [val], hrep, hrep', by simpa using Nat.succ_le_of_lt hlt⟩
      simp only [Arith.call, hret, hret', ite_true, h.left.write, h.right.write, hslot]
    · have hret := h.left.tryPush_full ha trivial hfull val
      have hret' := h.right.tryPush_full ha' trivial hfull val
      simp only [Arith.call, hret, hret', Bool.false_eq_true, ite_false, true_and]
      exact ⟨n, m, q, h⟩
  | tryPop =>
    cases q with
    | nil =>
      simp only [Arith.call, h.left.tryPop_empty, h.right.tryPop_empty, Option.isSome_none,
        Bool.false_eq_true, ite_false, true_and]
      exact ⟨n, m, [], h⟩
    | cons x q =>
      obtain ⟨hret, hrep⟩ := h.left.tryPop ha trivial h.bound
      obtain ⟨hret', hrep'⟩ := h.right.tryPop ha' trivial h.bound
      refine ⟨?_, n, m + 1, q, hrep, hrep', Nat.le_of_succ_le h.bound⟩
      simp only [Arith.call, hret, hret', Option.isSome_some, ite_true, h.left.read, h.right.read,
        hslot]

/-- All calls, from rings that agree. -/
theorem outcomes_eq (ha : a.Faithful cap ⊤) (ha' : a'.Faithful cap ⊤)
    (hslot : ∀ n, a.slot (a.count n) = a'.slot (a'.count n)) (h : Agree a a' cap r r' n m q)
    (cs : List (Call T)) : a.outcomes cs r = a'.outcomes cs r' := by
  induction cs generalizing r r' n m q with
  | nil => rfl
  | cons c cs ih =>
    obtain ⟨hout, _, _, _, hrest⟩ := h.call ha ha' hslot c
    rw [outcomes, outcomes, hout, ih hrest]

end Arith

variable {T : Type u} {capacity : SizeT}

/-- A count has the same slot in both rings. -/
theorem slot_agree (hcap : (RingBufferSPSCLockFree2.mMask capacity).toNat + 1 ≤ 2 ^ 31) (n : ℕ) :
    let a := RingBufferSPSCLockFree2.arith capacity
    let b := RingBufferSPSCLockFree.arith (RingBufferSPSCLockFree2.mCapacity capacity)
    a.slot (a.count n) = b.slot (b.count n) := by
  intro a b
  have hk := RingBufferSPSCLockFree2.size_le hcap
  have hpow := RingBufferSPSCLockFree2.mMask_add_one capacity
  rw [RingBufferSPSCLockFree2.slot_eq hcap, hpow]
  refine (RingBufferSPSCLockFree.slot_of_two_pow ?_ (by omega) n).symm
  rw [RingBufferSPSCLockFree2.toNat_mCapacity hcap, hpow]

/-- The modulo ring of the rounded capacity survives every wrap. -/
theorem faithful_rounded (hcap : (RingBufferSPSCLockFree2.mMask capacity).toNat + 1 ≤ 2 ^ 31) :
    (RingBufferSPSCLockFree.arith (RingBufferSPSCLockFree2.mCapacity capacity)).Faithful
      ((RingBufferSPSCLockFree2.mMask capacity).toNat + 1) ⊤ := by
  have hcount := RingBufferSPSCLockFree2.toNat_mCapacity hcap
  have hpow := RingBufferSPSCLockFree2.mMask_add_one capacity
  rw [← hcount]
  exact RingBufferSPSCLockFree.faithful_of_two_pow (hcount.trans hpow)
    (RingBufferSPSCLockFree2.size_le hcap)

/-- **The bitmask ring agrees with the modulo ring of the rounded capacity** in every sequence of
calls: in what it returns, in what it delivers, and in the slots it accesses. What the two buffers
hold at the start does not matter. -/
theorem bitmask_agrees_with_modulo (hcap : (makeMask capacity).toNat + 1 ≤ 2 ^ 31)
    (mBuffer mBuffer' : ℕ → T) (cs : List (Arith.Call T)) :
    let bitmask := RingBufferSPSCLockFree2.arith capacity
    let modulo := RingBufferSPSCLockFree.arith (makeMask capacity + 1)
    bitmask.outcomes cs (RingBufferSPSCLockFree2.new capacity mBuffer) =
      modulo.outcomes cs (RingBufferSPSCLockFree.new (makeMask capacity + 1) mBuffer') := by
  intro bitmask modulo
  exact Arith.outcomes_eq (RingBufferSPSCLockFree2.faithful hcap) (faithful_rounded hcap)
    (slot_agree hcap)
    ⟨Arith.Represents.new mBuffer, Arith.Represents.new mBuffer', Nat.zero_le _⟩ cs

/-- A request for three slots: both rings give four, and refuse the sixth push. -/
theorem bitmask_agrees_with_modulo_three :
    (makeMask (3 : SizeT)).toNat + 1 ≤ 2 ^ 31 ∧
    let cs : List (Arith.Call ℕ) := [.tryPush 5, .tryPop, .tryPush 6, .tryPush 7, .tryPush 8,
      .tryPush 9, .tryPush 10, .tryPop, .tryPop]
    let bitmask := RingBufferSPSCLockFree2.arith (3 : SizeT)
    let modulo := RingBufferSPSCLockFree.arith (makeMask (3 : SizeT) + 1)
    bitmask.outcomes cs (RingBufferSPSCLockFree2.new 3 fun _ => 0) =
        modulo.outcomes cs (RingBufferSPSCLockFree.new (makeMask (3 : SizeT) + 1) fun _ => 1) ∧
      modulo.outcomes cs (RingBufferSPSCLockFree.new (makeMask (3 : SizeT) + 1) fun _ => 1) =
        [⟨true, none, some 0⟩, ⟨true, some 5, some 0⟩, ⟨true, none, some 1⟩,
          ⟨true, none, some 2⟩, ⟨true, none, some 3⟩, ⟨true, none, some 0⟩,
          ⟨false, none, none⟩, ⟨true, some 6, some 1⟩, ⟨true, some 7, some 2⟩] := by
  have hmask : (makeMask (3 : SizeT)).toNat + 1 ≤ 2 ^ 31 := by decide +kernel
  exact ⟨hmask, bitmask_agrees_with_modulo hmask _ _ _, by decide +kernel⟩

end ThreadTests
