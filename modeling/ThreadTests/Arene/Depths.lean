import ThreadTests.Arene.Ledger

/-!
# Which depths `BlockBuffer` supports

The constructor takes any depth, and `depth-1` is the mask that cuts a counter to a slot. A mask
without gaps gives every count of a window its own slot. A mask with a gap at bit `b` sends the
counts `0` and `2 ^ b` to the same slot, and with a depth above `2 ^ b` the pushes of both are
unread at once, when nothing is popped. So the blocks of the unread pushes are disjoint, in every
state, exactly when the depth is a power of two (`blocksDisjoint_iff`).
-/

namespace ThreadTests.Arene

universe u

variable {c : Shape} {E : Type u} {mBuffer : ℕ → E} {client : c.Block E} {s : Ledger c E} {k : ℕ}

/-- Any two pushes that are not popped were handed disjoint blocks, in every state that calls lead
to. -/
def BlocksDisjoint (c : Shape) (mBuffer : ℕ → E) (client : c.Block E) : Prop :=
  ∀ s, (ledger c mBuffer client).Reachable s → ∀ (i j : ℕ) (p q : SizeT),
    s.delivered.length ≤ i → i < j → s.handed[i]? = some p → s.handed[j]? = some q →
      Disjoint (c.block p) (c.block q)

/-- Two pushes that are not popped were handed the same block. -/
def Ledger.SharesBlock (s : Ledger c E) : Prop :=
  ∃ (i j : ℕ) (ptr : SizeT), s.delivered.length ≤ i ∧ i < j ∧
    s.handed[i]? = some ptr ∧ s.handed[j]? = some ptr

theorem Ledger.handed_getElem? (hlt : c.mDepth.toNat < 2 ^ 32)
    (hs : (ledger c mBuffer client).Reachable s) (i : ℕ) :
    s.handed[i]? = if i < s.filled.length then some (c.offset (count i)) else none := by
  rw [handed_of_reachable hlt hs, List.getElem?_map]
  split
  · next hi => rw [List.getElem?_range hi, Option.map_some]
  · next hi => rw [List.getElem?_eq_none (by simpa using hi), Option.map_none]

/-- A mask without gaps keeps the blocks of a window apart. -/
theorem blocksDisjoint_of_two_pow (hdepth : c.mDepth.toNat = 2 ^ k) (hk : k ≤ 31)
    (hsize : c.mDepth.toNat * c.mWidth.toNat < 2 ^ 64) (mBuffer : ℕ → E) (client : c.Block E) :
    BlocksDisjoint c mBuffer client := by
  intro s hs i j p q hi hij hp hq
  have hlt := depth_lt hdepth hk
  have hbound := (Session.counted_of_reachable hlt (Ledger.session_of_reachable hs)).bound
  rw [Ledger.handed_getElem? hlt hs, Option.ite_none_right_eq_some] at hp hq
  obtain ⟨-, ⟨⟩⟩ := hp
  obtain ⟨hj, ⟨⟩⟩ := hq
  refine disjoint_block hdepth ((slots_mul_le hdepth).trans_lt hsize) hij ?_
  rw [slots_eq (by omega), ← hdepth]
  omega

/-- A count of one bit that the mask lacks is sent to the slot of the count `0`. -/
theorem offset_two_pow {b : ℕ} (hpos : 0 < c.mDepth.toNat) (hb : 2 ^ b < 2 ^ 31)
    (hbit : (c.mDepth.toNat - 1).testBit b = false) :
    c.offset (count (2 ^ b)) = c.offset (count 0) := by
  have hzero : count (2 ^ b) &&& c.mCycle = 0 := by
    apply BitVec.eq_of_toNat_eq
    rw [BitVec.toNat_and, toNat_count_of_lt hb, toNat_mCycle_of_pos hpos, Nat.and_comm,
      Nat.and_two_pow, hbit]
    exact Nat.zero_mul _
  have hfirst : count 0 &&& c.mCycle = 0 := BitVec.zero_and
  unfold Shape.offset Shape.slot
  rw [hzero, hfirst]

/-- With nothing popped, there is room for as many pushes as the depth says. -/
theorem exists_pushes (hdepth : c.mDepth.toNat ≤ 2 ^ 31) (mBuffer : ℕ → E) (client : c.Block E)
    (n : ℕ) (hn : n ≤ c.mDepth.toNat) :
    ∃ s, (ledger c mBuffer client).Reachable s ∧ s.filled.length = n ∧ s.delivered = [] := by
  induction n with
  | zero => exact ⟨_, System.Reachable.init, rfl, rfl⟩
  | succ n ih =>
    obtain ⟨s, hs, hfilled, hdelivered⟩ := ih (by omega)
    have hc := Session.counted_of_reachable (by omega) (Ledger.session_of_reachable hs)
    have hroom : c.room s.mWrite s.mRead = true := by
      rw [hc.write, hc.read, hfilled, hdelivered]
      refine (room_iff_of_lt (Nat.zero_le _) (by omega)).2 ?_
      omega
    refine ⟨_, hs.step (e := .tryPush client) (Ledger.call_tryPush hroom client), ?_, hdelivered⟩
    simp [hfilled]

/-- A mask with a gap hands out a block twice. -/
theorem exists_sharesBlock (hpos : 1 ≤ c.mDepth.toNat) (hdepth : c.mDepth.toNat ≤ 2 ^ 31)
    (hpow : ¬ c.mDepth.toNat.isPowerOfTwo) (mBuffer : ℕ → E) (client : c.Block E) :
    ∃ s, (ledger c mBuffer client).Reachable s ∧ s.SharesBlock := by
  obtain ⟨b, hb, hbit⟩ := Residue.exists_testBit_eq_false hpos hpow
  obtain ⟨s, hs, hfilled, hdelivered⟩ := exists_pushes hdepth mBuffer client (2 ^ b + 1) hb
  have hlt : c.mDepth.toNat < 2 ^ 32 := by omega
  have hhanded := Ledger.handed_getElem? hlt hs
  have hfirst : 0 < s.filled.length := hfilled ▸ Nat.succ_pos _
  have hlast : 2 ^ b < s.filled.length := hfilled ▸ Nat.lt_succ_self _
  refine ⟨s, hs, 0, 2 ^ b, c.offset (count 0), ?_, Nat.two_pow_pos b, ?_, ?_⟩
  · rw [hdelivered]
    exact Nat.le_refl 0
  · rw [hhanded, if_pos hfirst]
  · rw [hhanded, if_pos hlast, offset_two_pow hpos (hb.trans_le hdepth) hbit]

/-- A block that has elements is not disjoint from itself. -/
theorem Ledger.SharesBlock.not_blocksDisjoint (h : s.SharesBlock) (hwidth : 1 ≤ c.mWidth.toNat)
    (hs : (ledger c mBuffer client).Reachable s) : ¬ BlocksDisjoint c mBuffer client := by
  intro hdisjoint
  obtain ⟨i, j, ptr, hi, hij, hp, hq⟩ := h
  have hself := hdisjoint s hs i j ptr ptr hi hij hp hq
  have hmem : ptr.toNat ∈ c.block ptr := ⟨Nat.le_refl _, by omega⟩
  exact Set.disjoint_left.1 hself hmem hmem

/-- **The depths that are supported are the powers of two.** With any other one, some calls lead to
two unread pushes that were handed the same block. -/
theorem blocksDisjoint_iff (hpos : 1 ≤ c.mDepth.toNat) (hdepth : c.mDepth.toNat ≤ 2 ^ 31)
    (hwidth : 1 ≤ c.mWidth.toNat) (hsize : c.mDepth.toNat * c.mWidth.toNat < 2 ^ 64)
    (mBuffer : ℕ → E) (client : c.Block E) :
    (BlocksDisjoint c mBuffer client ↔ c.mDepth.toNat.isPowerOfTwo) ∧
      (¬ c.mDepth.toNat.isPowerOfTwo →
        ∃ s, (ledger c mBuffer client).Reachable s ∧ s.SharesBlock) := by
  have hshares := fun hpow => exists_sharesBlock hpos hdepth hpow mBuffer client
  refine ⟨⟨?_, ?_⟩, hshares⟩
  · intro hdisjoint
    by_contra hpow
    obtain ⟨s, hs, h⟩ := hshares hpow
    exact h.not_blocksDisjoint hwidth hs hdisjoint
  · rintro ⟨k, hk⟩
    have hle : k ≤ 31 := (Nat.pow_le_pow_iff_right Nat.one_lt_two).1 (hk ▸ hdepth)
    exact blocksDisjoint_of_two_pow hk hle hsize mBuffer client

/-- Four blocks are kept apart, and of six blocks one is handed out twice. -/
theorem blocksDisjoint_iff_six :
    BlocksDisjoint ⟨1, 4⟩ (fun _ => (0 : ℕ)) (fun _ => 0) ∧
      ¬ BlocksDisjoint ⟨1, 6⟩ (fun _ => (0 : ℕ)) (fun _ => 0) ∧
      ∃ s, (ledger ⟨1, 6⟩ (fun _ => (0 : ℕ)) fun _ => 0).Reachable s ∧ s.SharesBlock := by
  have hfour := blocksDisjoint_iff (c := ⟨1, 4⟩) (by decide) (by decide) (by decide) (by decide)
    (fun _ => (0 : ℕ)) fun _ => 0
  have hsix := blocksDisjoint_iff (c := ⟨1, 6⟩) (by decide) (by decide) (by decide) (by decide)
    (fun _ => (0 : ℕ)) fun _ => 0
  have hpow : ¬ Nat.isPowerOfTwo (6#64).toNat := by decide
  exact ⟨hfour.1.2 ⟨2, rfl⟩, fun h => hpow (hsix.1.1 h), hsix.2 hpow⟩

end ThreadTests.Arene
