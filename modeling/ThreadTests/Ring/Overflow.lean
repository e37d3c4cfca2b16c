import ThreadTests.Ring.Bitmask
import ThreadTests.Ring.Modulo

/-!
# Signed overflow in the lock-free rings

Both rings add in `increment(int n)`, and the modulo ring subtracts its `int` counters. A signed
result outside the range of `int` is undefined behaviour, whatever a build makes of it. The bitmask
ring keeps `unsigned int` counters, which may wrap, but converts them to `int` for the sum.

The sum is evaluated by every `tryPush`, before the test, so the first push that is tried after
`2 ^ 31 - 1` successful ones overflows. Nothing overflows before (`noSignedOverflow_iff`): a pop
never counts further than the pushes, and the difference lies between the two.
-/

namespace ThreadTests

universe u v

namespace Arith

variable {κ : Type u} {T : Type v} [DecidableEq κ] {a : Arith κ} {mBuffer : ℕ → T}
  {cs : List (Call T)} {n : ℕ}

/-- The mathematical values of the signed sums and differences that a call evaluates: the sum of
`increment`, whose argument is converted by `arg`, and the `difference` that the test takes. -/
def signedResults (arg : κ → CInt) (difference : κ → κ → List ℤ) (r : Ring κ T) : Call T → List ℤ
  | .tryPush _ => ((arg r.mWrite).toInt + 1) :: difference r.mWrite r.mRead
  | .tryPop => if r.mRead ≠ r.mWrite then [(arg r.mRead).toInt + 1] else []

/-- Every signed result of every call in the sequence is an `int`. -/
def NoSignedOverflow (a : Arith κ) (signed : Ring κ T → Call T → List ℤ) (mBuffer : ℕ → T)
    (cs : List (Call T)) : Prop :=
  ∀ ds c es, cs = ds ++ c :: es →
    ∀ x ∈ signed (a.session mBuffer ds).ring c, -2 ^ 31 ≤ x ∧ x < 2 ^ 31

/-- Every push of the sequence is tried after fewer than `n` successful ones. -/
def PushesBelow (a : Arith κ) (mBuffer : ℕ → T) (n : ℕ) (cs : List (Call T)) : Prop :=
  ∀ ds val es, cs = ds ++ .tryPush val :: es → (a.session mBuffer ds).pushed.length < n

/-- The number of successful pushes grows by one at a time, in pushes only. -/
theorem exists_push_of_lt (h : n < (a.session mBuffer cs).pushed.length) :
    ∃ ds val es, cs = ds ++ .tryPush val :: es ∧ (a.session mBuffer ds).pushed.length = n := by
  induction cs using List.reverseRecOn with
  | nil => cases h
  | append_singleton cs c ih =>
    by_cases hlt : n < (a.session mBuffer cs).pushed.length
    · obtain ⟨ds, val, es, rfl, hn⟩ := ih hlt
      exact ⟨ds, val, es ++ [c], by simp, hn⟩
    · rw [session_append, List.foldl_cons, List.foldl_nil] at h
      cases c with
      | tryPush val =>
        refine ⟨cs, val, [], rfl, ?_⟩
        simp only [Session.call, Arith.call, Arith.tryPush] at h
        split at h
        · simp only [List.length_append, List.length_singleton, ite_true] at h
          omega
        · simp only [Bool.false_eq_true, ite_false] at h
          omega
      | tryPop =>
        have hsame : ((a.session mBuffer cs).call a .tryPop).pushed =
            (a.session mBuffer cs).pushed := rfl
        rw [hsame] at h
        exact absurd h hlt

theorem PushesBelow.pushed_le (h : a.PushesBelow mBuffer n cs) :
    (a.session mBuffer cs).pushed.length ≤ n := by
  by_contra hgt
  obtain ⟨ds, val, es, hcs, hn⟩ := exists_push_of_lt (Nat.lt_of_not_le hgt)
  have := h ds val es hcs
  omega

theorem PushesBelow.of_append {ds es : List (Call T)} (h : a.PushesBelow mBuffer n (ds ++ es)) :
    a.PushesBelow mBuffer n ds := by
  intro bs val fs hds
  refine h bs val (fs ++ es) ?_
  rw [hds, List.append_assoc, List.cons_append]

theorem toInt_ofNat_of_lt (h : n < 2 ^ 31) : (BitVec.ofNat 32 n).toInt = n := by
  have htoNat : (BitVec.ofNat 32 n).toNat = n := by
    rw [BitVec.toNat_ofNat]
    exact Nat.mod_eq_of_lt (by omega)
  rw [BitVec.toInt_eq_toNat_of_lt (by omega), htoNat]

section Counting

variable {arg : κ → CInt} {difference : κ → κ → List ℤ}

/-- A sequence whose pushes are tried in time evaluates nothing outside the range. -/
theorem PushesBelow.noSignedOverflow (harg : ∀ n, arg (a.count n) = BitVec.ofNat 32 n)
    (hdiff : ∀ {n m}, m ≤ n → n < 2 ^ 31 → ∀ x ∈ difference (a.count n) (a.count m),
      -2 ^ 31 ≤ x ∧ x < 2 ^ 31)
    (h : a.PushesBelow mBuffer (2 ^ 31 - 1) cs) :
    a.NoSignedOverflow (signedResults arg difference) mBuffer cs := by
  rintro ds c es rfl x hx
  have hs := session_counted (a := a) mBuffer ds
  have hle := session_popped_le (a := a) mBuffer ds
  have hmax := h.of_append.pushed_le
  cases c with
  | tryPush val =>
    have hlt := h ds val es rfl
    simp only [signedResults, List.mem_cons, hs.write, hs.read] at hx
    rcases hx with rfl | hx
    · rw [harg, toInt_ofNat_of_lt (by omega)]
      omega
    · exact hdiff hle (by omega) x hx
  | tryPop =>
    simp only [signedResults] at hx
    split at hx
    · next hmore =>
      have hlt : (a.session mBuffer ds).popped.length < (a.session mBuffer ds).pushed.length := by
        refine Nat.lt_of_le_of_ne hle ?_
        intro heq
        exact hmore (by rw [hs.read, hs.write, heq])
      rw [List.mem_singleton, hs.read, harg, toInt_ofNat_of_lt (by omega)] at hx
      omega
    · cases hx

/-- The push that is tried after `2 ^ 31 - 1` successful ones overflows. -/
theorem NoSignedOverflow.pushesBelow (harg : ∀ n, arg (a.count n) = BitVec.ofNat 32 n)
    (h : a.NoSignedOverflow (signedResults arg difference) mBuffer cs) :
    a.PushesBelow mBuffer (2 ^ 31 - 1) cs := by
  have hnot : ∀ ds val es, cs = ds ++ .tryPush val :: es →
      (a.session mBuffer ds).pushed.length ≠ 2 ^ 31 - 1 := by
    intro ds val es hcs hlen
    have hs := session_counted (a := a) mBuffer ds
    have hsum := (h ds _ es hcs _ List.mem_cons_self).2
    rw [hs.write, harg, hlen, toInt_ofNat_of_lt (by omega)] at hsum
    omega
  rintro ds val es rfl
  by_contra hge
  rcases Nat.lt_or_eq_of_le (Nat.le_of_not_lt hge) with hlt | heq
  · obtain ⟨bs, val', fs, rfl, hlen⟩ := exists_push_of_lt hlt
    exact hnot bs val' _ (by rw [List.append_assoc, List.cons_append]) hlen
  · exact hnot ds val es rfl heq.symm

/-- With room in an empty ring any number of turns can be made, and the last push overflows. -/
theorem not_noSignedOverflow_turns (harg : ∀ n, arg (a.count n) = BitVec.ofNat 32 n)
    (hroom : ∀ n, a.room (a.count n) (a.count n) = true)
    (hmore : ∀ n, a.count n ≠ a.count (n + 1)) {k : ℕ} (hk : k = 2 ^ 31 - 1) (x : T) :
    ¬ a.NoSignedOverflow (signedResults arg difference) mBuffer
      (turns x k ++ [.tryPush x]) := by
  intro h
  have hlt := h.pushesBelow harg (turns x k) x [] rfl
  rw [(session_turns hroom hmore mBuffer x k).1, List.length_replicate] at hlt
  omega

end Counting

end Arith

/-- `n + 1` in `increment(int n)`, and `current_tail - m_read` on the `int` counters. -/
def RingBufferSPSCLockFree.signedResults {T : Type u} : Ring CInt T → Arith.Call T → List ℤ :=
  Arith.signedResults id fun currentTail mRead => [currentTail.toInt - mRead.toInt]

/-- `n + 1` in `increment(int n)`; `current_tail - m_read` is unsigned. -/
def RingBufferSPSCLockFree2.signedResults {T : Type u} :
    Ring CUnsigned T → Arith.Call T → List ℤ :=
  Arith.signedResults unsignedToInt fun _ _ => []

variable {T : Type u}

/-- **When nothing overflows**: as long as every push is tried after fewer than `2 ^ 31 - 1`
successful ones. -/
theorem noSignedOverflow_iff (capacity : SizeT) (mBuffer : ℕ → T) (cs : List (Arith.Call T)) :
    ((RingBufferSPSCLockFree.arith capacity).NoSignedOverflow
        RingBufferSPSCLockFree.signedResults mBuffer cs ↔
      (RingBufferSPSCLockFree.arith capacity).PushesBelow mBuffer (2 ^ 31 - 1) cs) ∧
    ((RingBufferSPSCLockFree2.arith capacity).NoSignedOverflow
        RingBufferSPSCLockFree2.signedResults mBuffer cs ↔
      (RingBufferSPSCLockFree2.arith capacity).PushesBelow mBuffer (2 ^ 31 - 1) cs) := by
  refine ⟨⟨?_, ?_⟩, ?_, ?_⟩
  · exact Arith.NoSignedOverflow.pushesBelow RingBufferSPSCLockFree.count_eq
  · refine Arith.PushesBelow.noSignedOverflow RingBufferSPSCLockFree.count_eq ?_
    intro n m hmn hn x hx
    rw [List.mem_singleton, RingBufferSPSCLockFree.count_eq, RingBufferSPSCLockFree.count_eq,
      Arith.toInt_ofNat_of_lt hn, Arith.toInt_ofNat_of_lt (by omega)] at hx
    omega
  · exact Arith.NoSignedOverflow.pushesBelow RingBufferSPSCLockFree2.count_eq
  · refine Arith.PushesBelow.noSignedOverflow RingBufferSPSCLockFree2.count_eq ?_
    intro n m _ _ x hx
    cases hx

/-- With a capacity of one, and of two: `2 ^ 31 - 1` turns, and one more push. -/
theorem exists_signed_overflow : ∃ cs : List (Arith.Call ℕ),
    ¬ (RingBufferSPSCLockFree.arith 1).NoSignedOverflow
        RingBufferSPSCLockFree.signedResults (fun _ => 0) cs ∧
    ¬ (RingBufferSPSCLockFree2.arith 1).NoSignedOverflow
        RingBufferSPSCLockFree2.signedResults (fun _ => 0) cs := by
  obtain ⟨k, hk⟩ : ∃ k, k = 2 ^ 31 - 1 := ⟨_, rfl⟩
  refine ⟨Arith.turns 7 k ++ [.tryPush 7], ?_, ?_⟩
  · refine Arith.not_noSignedOverflow_turns RingBufferSPSCLockFree.count_eq ?_ ?_ hk 7
    · intro n
      exact (RingBufferSPSCLockFree.room_iff_of_lt (by decide) (Nat.le_refl n) (by omega)).2
        (by simp)
    · intro n
      exact RingBufferSPSCLockFree.count_ne (Nat.lt_succ_self n) (by omega)
  · refine Arith.not_noSignedOverflow_turns RingBufferSPSCLockFree2.count_eq ?_ ?_ hk 7
    · intro n
      exact (RingBufferSPSCLockFree2.room_iff (Nat.le_refl n) (by omega)).2 (by omega)
    · intro n
      exact RingBufferSPSCLockFree2.count_ne (Nat.lt_succ_self n) (by omega)

end ThreadTests
