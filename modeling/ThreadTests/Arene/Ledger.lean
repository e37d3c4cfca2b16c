import ThreadTests.Arene.Counters

/-!
# Discarding and copying pops of `BlockBuffer`

A session with a ledger: the pointers that the pushes were handed, and the memory of the client that
the copying pops write. A pop that succeeds consumes the oldest unread block, whether it copies or
not, and only a copying one writes to the client (`Consumes`).

The comment of `try_pop` allows a null argument, and null is its default, but the code looks at
`*ptr`. A pop with a null argument is right exactly when there is nothing to pop
(`mixes_iff_of_reachable`). Everything else is right as long as the array holds the blocks of all
slots: `depth*width` is computed modulo `2 ^ 64` (`Shape.Fits`).
-/

namespace ThreadTests.Arene

universe u

variable {c : Shape} {E : Type u}

/-- The number of elements of `new element_type[depth*width]`. -/
def Shape.allocated (c : Shape) : ℕ := (c.mDepth * c.mWidth).toNat

/-- The array holds a block for each slot that an `unsigned int` can name. -/
def Shape.Fits (c : Shape) : Prop := min c.mDepth.toNat (2 ^ 32) * c.mWidth.toNat ≤ c.allocated

instance (c : Shape) : Decidable c.Fits := Nat.decLe _ _

/-- A session, the pointers handed out so far, and what the destination of the copying pops
holds. -/
structure Ledger (c : Shape) (E : Type u) extends Session c E where
  handed : List SizeT
  client : c.Block E

/-- What `ptr` is set to by a push that succeeds. -/
def BlockBuffer.handedBy (b : BlockBuffer E) : Call c E → Option SizeT
  | .tryPush _ => (b.tryPush c).1.2
  | .tryPop _ => none

/-- What a pop copies to its destination, if anything. -/
def BlockBuffer.copiedBy (b : BlockBuffer E) : Call c E → Option (c.Block E)
  | .tryPush _ => none
  | .tryPop dest => (b.tryPop c dest).bind fun r => r.1.2

/-- What a pop returns; no result when it dereferences a null pointer. -/
def BlockBuffer.returnedBy (c : Shape) (b : BlockBuffer E) (dest : Dest) : Option Bool :=
  (b.tryPop c dest).map fun r => r.1.1

namespace Ledger

/-- One call. -/
def call (c : Shape) (s : Ledger c E) (e : Call c E) : Option (Ledger c E) :=
  (s.toSession.call c e).map fun t =>
    { toSession := t
      handed := s.handed ++ (s.handedBy e).toList
      client := (s.copiedBy e).getD s.client }

variable {s t : Ledger c E} {e : Call c E} {dest : Dest}

theorem call_tryPush (hroom : c.room s.mWrite s.mRead = true) (fill : c.Block E) :
    s.call c (.tryPush fill) = some { s with
      mWrite := next s.mWrite
      mBuffer := Memory.writeBlock s.mBuffer (c.offset s.mWrite).toNat fill
      filled := s.filled ++ [fill], handed := s.handed ++ [c.offset s.mWrite] } := by
  rw [call, Session.call_tryPush hroom]
  simp [BlockBuffer.handedBy, BlockBuffer.copiedBy, BlockBuffer.tryPush, hroom]

theorem call_tryPush_full (hroom : c.room s.mWrite s.mRead ≠ true) (fill : c.Block E) :
    s.call c (.tryPush fill) = some s := by
  rw [call, Session.call_tryPush_full hroom]
  simp [BlockBuffer.handedBy, BlockBuffer.copiedBy, BlockBuffer.tryPush, hroom]

theorem call_tryPop (hmore : s.mRead ≠ s.mWrite) (hdest : dest ≠ .null) :
    s.call c (.tryPop dest) = some { s with
      mRead := next s.mRead, delivered := s.delivered ++ [s.received c dest]
      client := (s.received c dest).getD s.client } := by
  rw [call, Session.call_tryPop hmore hdest]
  cases dest with
  | null => exact absurd rfl hdest
  | discard =>
    simp [BlockBuffer.handedBy, BlockBuffer.copiedBy, BlockBuffer.tryPop, hmore, Session.received]
  | copy =>
    simp [BlockBuffer.handedBy, BlockBuffer.copiedBy, BlockBuffer.tryPop, hmore, Session.received]

theorem call_tryPop_empty (hmore : s.mRead = s.mWrite) (dest : Dest) :
    s.call c (.tryPop dest) = some s := by
  rw [call, Session.call_tryPop_empty hmore]
  simp [BlockBuffer.handedBy, BlockBuffer.copiedBy, BlockBuffer.tryPop, hmore]

theorem call_tryPop_null (hmore : s.mRead ≠ s.mWrite) : s.call c (.tryPop .null) = none := by
  rw [call, Session.call_tryPop_null hmore, Option.map_none]

/-- A call pushes, pops, or changes nothing. -/
theorem call_cases (h : s.call c e = some t) :
    (∃ fill, e = .tryPush fill ∧ c.room s.mWrite s.mRead = true ∧
      t = { s with
        mWrite := next s.mWrite
        mBuffer := Memory.writeBlock s.mBuffer (c.offset s.mWrite).toNat fill
        filled := s.filled ++ [fill], handed := s.handed ++ [c.offset s.mWrite] }) ∨
    (∃ dest, e = .tryPop dest ∧ s.mRead ≠ s.mWrite ∧
      t = { s with
        mRead := next s.mRead, delivered := s.delivered ++ [s.received c dest]
        client := (s.received c dest).getD s.client }) ∨
    t = s := by
  cases e with
  | tryPush fill =>
    by_cases hroom : c.room s.mWrite s.mRead = true
    · rw [call_tryPush hroom, Option.some.injEq] at h
      exact .inl ⟨fill, rfl, hroom, h.symm⟩
    · rw [call_tryPush_full hroom, Option.some.injEq] at h
      exact .inr (.inr h.symm)
  | tryPop dest =>
    by_cases hmore : s.mRead = s.mWrite
    · rw [call_tryPop_empty hmore, Option.some.injEq] at h
      exact .inr (.inr h.symm)
    · by_cases hdest : dest = .null
      · rw [hdest, call_tryPop_null hmore] at h
        cases h
      · rw [call_tryPop hmore hdest, Option.some.injEq] at h
        exact .inr (.inl ⟨dest, rfl, hmore, h.symm⟩)

end Ledger

/-- Sequences of calls on a new buffer, with a ledger. -/
def ledger (c : Shape) (mBuffer : ℕ → E) (client : c.Block E) : System (Ledger c E) (Call c E) where
  init := ⟨⟨BlockBuffer.new mBuffer, [], []⟩, [], client⟩
  step := Ledger.call c

variable {mBuffer : ℕ → E} {client : c.Block E} {s t : Ledger c E} {e : Call c E} {k : ℕ}

theorem fits_iff (hdepth : c.mDepth.toNat = 2 ^ k) :
    c.Fits ↔ slots k * c.mWidth.toNat ≤ c.allocated := by
  unfold Shape.Fits
  rw [hdepth, slots_eq_min]

/-- For depths up to `2 ^ 32`, the product must not wrap. -/
theorem fits_iff_of_le (hdepth : c.mDepth.toNat ≤ 2 ^ 32) :
    c.Fits ↔ c.mDepth.toNat * c.mWidth.toNat < 2 ^ 64 := by
  unfold Shape.Fits Shape.allocated
  rw [Nat.min_eq_left hdepth, BitVec.toNat_mul]
  constructor
  · intro hle
    exact hle.trans_lt (Nat.mod_lt _ (Nat.two_pow_pos 64))
  · intro hlt
    exact Nat.le_of_eq (Nat.mod_eq_of_lt hlt).symm

namespace Shape.Fits

theorem size (h : c.Fits) (hdepth : c.mDepth.toNat = 2 ^ k) :
    slots k * c.mWidth.toNat < 2 ^ 64 :=
  ((fits_iff hdepth).1 h).trans_lt (BitVec.isLt _)

theorem block_subset (h : c.Fits) (hdepth : c.mDepth.toNat = 2 ^ k) (n : ℕ) :
    c.block (c.offset (count n)) ⊆ Set.Iio c.allocated := by
  intro i hi
  have hend : i < (c.offset (count n)).toNat + c.mWidth.toNat := hi.2
  rw [toNat_offset hdepth (h.size hdepth)] at hend
  exact hend.trans_le (mod_slots_mul_le n ((fits_iff hdepth).1 h))

end Shape.Fits

namespace Ledger

/-- Without its ledger, a run is a sequence of calls. -/
theorem session_of_reachable (hs : (ledger c mBuffer client).Reachable s) :
    (calls c mBuffer).Reachable s.toSession := by
  refine System.invariant (P := fun s => (calls c mBuffer).Reachable s.toSession)
    System.Reachable.init ?_ hs
  intro s t e _ h hst
  obtain ⟨u, hu, rfl⟩ := Option.map_eq_some_iff.1 hst
  exact h.step (e := e) hu

/-- The pushes are handed the blocks of their counts. -/
theorem handed_of_reachable (hdepth : c.mDepth.toNat < 2 ^ 32)
    (hs : (ledger c mBuffer client).Reachable s) :
    s.handed = (List.range s.filled.length).map fun i => c.offset (count i) := by
  refine System.invariant
    (P := fun s => s.handed = (List.range s.filled.length).map fun i => c.offset (count i))
    rfl ?_ hs
  intro s t e hs h hst
  rcases call_cases hst with ⟨fill, -, -, rfl⟩ | ⟨dest, -, -, rfl⟩ | rfl
  · have hwrite := (Session.counted_of_reachable hdepth (session_of_reachable hs)).write
    simp [h, hwrite, List.range_succ]
  · exact h
  · exact h

/-- A push is tried with fewer than `2 ^ 32` blocks unread. -/
def narrow (s : Ledger c E) : Call c E → Prop
  | .tryPush _ => s.filled.length < s.delivered.length + 2 ^ 32
  | .tryPop _ => True

instance (s : Ledger c E) : (e : Call c E) → Decidable (s.narrow e)
  | .tryPush _ => Nat.decLt _ _
  | .tryPop _ => isTrue trivial

/-- The counters are those of the numbers of successful calls, which lie in one window, and the
unread blocks hold what was filled in. -/
structure Kept (k : ℕ) (s : Ledger c E) : Prop where
  write : s.mWrite = count s.filled.length
  read : s.mRead = count s.delivered.length
  le : s.delivered.length ≤ s.filled.length
  bound : s.filled.length ≤ s.delivered.length + slots k
  holds : ∀ (i : ℕ) (block : c.Block E), s.delivered.length ≤ i → s.filled[i]? = some block →
    Memory.readBlock s.mBuffer (c.offset (count i)).toNat c.mWidth.toNat = block

namespace Kept

theorem push (hdepth : c.mDepth.toNat = 2 ^ k) (hsize : slots k * c.mWidth.toNat < 2 ^ 64)
    (h : s.Kept k) {fill : c.Block E} (hnarrow : s.narrow (.tryPush fill))
    (hroom : c.room s.mWrite s.mRead = true) :
    Kept k { s with
      mWrite := next s.mWrite
      mBuffer := Memory.writeBlock s.mBuffer (c.offset s.mWrite).toNat fill
      filled := s.filled ++ [fill], handed := s.handed ++ [c.offset s.mWrite] } := by
  have hnarrow : s.filled.length < s.delivered.length + 2 ^ 32 := hnarrow
  have hle := h.le
  have hlt : s.filled.length < s.delivered.length + slots k := by
    rw [h.write, h.read] at hroom
    have hroom := lt_of_room hle hnarrow hroom
    have hwindow : s.filled.length - s.delivered.length < slots k :=
      lt_slots_iff.2 ⟨by omega, by omega⟩
    omega
  refine ⟨?_, h.read, ?_, ?_, ?_⟩
  · simp [h.write]
  · simpa using Nat.le_succ_of_le hle
  · simpa using Nat.succ_le_of_lt hlt
  · intro i block hi hblock
    have hi : s.delivered.length ≤ i := hi
    rw [h.write]
    rcases Nat.lt_trichotomy i s.filled.length with hold | rfl | hnew
    · rw [List.getElem?_append_left hold] at hblock
      have hdisjoint := disjoint_block hdepth hsize hold (by omega)
      exact (Memory.readBlock_writeBlock_of_disjoint hdisjoint.symm).trans
        (h.holds i block hi hblock)
    · rw [List.getElem?_concat_length] at hblock
      cases hblock
      exact Memory.readBlock_writeBlock _ _ _
    · rw [List.getElem?_eq_none (by simp; omega)] at hblock
      cases hblock

theorem lt_of_more (h : s.Kept k) (hmore : s.mRead ≠ s.mWrite) :
    s.delivered.length < s.filled.length := by
  refine Nat.lt_of_le_of_ne h.le ?_
  intro heq
  exact hmore (by rw [h.read, h.write, heq])

theorem pop (h : s.Kept k) (hmore : s.mRead ≠ s.mWrite) (read : Option (c.Block E))
    (client : c.Block E) :
    Kept k { s with
      mRead := next s.mRead, delivered := s.delivered ++ [read], client := client } := by
  have hlt := h.lt_of_more hmore
  have hbound := h.bound
  refine ⟨h.write, ?_, ?_, ?_, ?_⟩
  · simp [h.read]
  · simpa using Nat.succ_le_of_lt hlt
  · simp only [List.length_append, List.length_singleton]
    omega
  · intro i block hi
    refine h.holds i block (Nat.le_of_succ_le ?_)
    simpa using hi

theorem call (hdepth : c.mDepth.toNat = 2 ^ k) (hsize : slots k * c.mWidth.toNat < 2 ^ 64)
    (h : s.Kept k) (hnarrow : s.narrow e) (hst : s.call c e = some t) : t.Kept k := by
  rcases call_cases hst with ⟨fill, rfl, hroom, rfl⟩ | ⟨dest, rfl, hmore, rfl⟩ | rfl
  · exact h.push hdepth hsize hnarrow hroom
  · exact h.pop hmore _ _
  · exact h

/-- The block that a pop reads is the oldest unread one. -/
theorem exists_oldest (h : s.Kept k) (hmore : s.mRead ≠ s.mWrite) :
    ∃ oldest, s.filled[s.delivered.length]? = some oldest ∧
      Memory.readBlock s.mBuffer (c.offset s.mRead).toNat c.mWidth.toNat = oldest := by
  have hlt := h.lt_of_more hmore
  refine ⟨s.filled[s.delivered.length], List.getElem?_eq_getElem hlt, ?_⟩
  rw [h.read]
  exact h.holds _ _ (Nat.le_refl _) (List.getElem?_eq_getElem hlt)

end Kept

theorem kept_of_reachable (hdepth : c.mDepth.toNat = 2 ^ k)
    (hsize : slots k * c.mWidth.toNat < 2 ^ 64)
    (hs : ((ledger c mBuffer client).restrict narrow).Reachable s) : s.Kept k := by
  refine System.invariant (S := (ledger c mBuffer client).restrict narrow) (P := Kept k)
    ⟨rfl, rfl, Nat.le_refl _, Nat.zero_le _, ?_⟩ ?_ hs
  · intro i block _ hblock
    cases hblock
  · intro s t e _ h hst
    obtain ⟨hnarrow, hst⟩ := System.restrict_step.1 hst
    exact h.call hdepth hsize hnarrow hst

/-- With a depth of at most `2 ^ 31` every push is narrow. -/
theorem narrow_of_reachable (hdepth : c.mDepth.toNat = 2 ^ k) (hk : k ≤ 31)
    (hs : (ledger c mBuffer client).Reachable s) :
    ((ledger c mBuffer client).restrict narrow).Reachable s := by
  refine hs.restrict ?_
  intro s t e hs _
  have hlt := depth_lt hdepth hk
  have hbound := (Session.counted_of_reachable hlt
    (session_of_reachable (System.Reachable.of_restrict hs))).bound
  cases e with
  | tryPush fill =>
    change s.filled.length < s.delivered.length + 2 ^ 32
    omega
  | tryPop dest => trivial

/-! ## What a pop should do -/

/-- A pop consumes the oldest unread block. It delivers this block to the memory of the client when
it copies, and leaves that memory alone when it does not. -/
def Consumes (s t : Ledger c E) (dest : Dest) : Prop :=
  ∃ oldest, s.filled[s.delivered.length]? = some oldest ∧
    t = { s with
      mRead := next s.mRead
      delivered := s.delivered ++ [if dest = .copy then some oldest else none]
      client := if dest = .copy then oldest else s.client }

/-- No null pointer is dereferenced, the block that a push hands out lies within the array, and a
pop that returns true consumes the oldest unread block. -/
def Mixes (s : Ledger c E) : Call c E → Prop
  | .tryPush fill => ∃ t, s.call c (.tryPush fill) = some t ∧
      ∀ ptr, s.handedBy (c := c) (.tryPush fill) = some ptr → c.block ptr ⊆ Set.Iio c.allocated
  | .tryPop dest => ∃ t, s.call c (.tryPop dest) = some t ∧
      (s.returnedBy c dest = some false ∧ t = s ∨
        s.returnedBy c dest = some true ∧ s.Consumes t dest)

theorem Kept.consumes (h : s.Kept k) (hmore : s.mRead ≠ s.mWrite) (hdest : dest ≠ .null) :
    s.Mixes (.tryPop dest) := by
  obtain ⟨oldest, holdest, hread⟩ := h.exists_oldest hmore
  refine ⟨_, call_tryPop hmore hdest, .inr ⟨?_, oldest, holdest, ?_⟩⟩
  · cases dest with
    | null => exact absurd rfl hdest
    | discard => simp [BlockBuffer.returnedBy, BlockBuffer.tryPop, hmore]
    | copy => simp [BlockBuffer.returnedBy, BlockBuffer.tryPop, hmore]
  · cases dest with
    | null => exact absurd rfl hdest
    | discard => rfl
    | copy => simp [Session.received, hread]

theorem handedBy_tryPush (hroom : c.room s.mWrite s.mRead = true) (fill : c.Block E) :
    s.handedBy (c := c) (.tryPush fill) = some (c.offset s.mWrite) := by
  simp [BlockBuffer.handedBy, BlockBuffer.tryPush, hroom]

theorem handedBy_tryPush_full (hroom : c.room s.mWrite s.mRead ≠ true) (fill : c.Block E) :
    s.handedBy (c := c) (.tryPush fill) = none := by
  simp [BlockBuffer.handedBy, BlockBuffer.tryPush, hroom]

/-- A push is right, whether there is room or not. -/
theorem Kept.mixes_tryPush (h : s.Kept k) (hdepth : c.mDepth.toNat = 2 ^ k) (hfits : c.Fits)
    (fill : c.Block E) : s.Mixes (.tryPush fill) := by
  by_cases hroom : c.room s.mWrite s.mRead = true
  · refine ⟨_, call_tryPush hroom fill, ?_⟩
    intro ptr hptr
    rw [handedBy_tryPush hroom, h.write] at hptr
    cases hptr
    exact hfits.block_subset hdepth _
  · refine ⟨_, call_tryPush_full hroom fill, ?_⟩
    intro ptr hptr
    rw [handedBy_tryPush_full hroom] at hptr
    cases hptr

/-- A call is right unless it is a pop with a null argument that finds something to pop. -/
theorem Kept.mixes_iff (h : s.Kept k) (hdepth : c.mDepth.toNat = 2 ^ k) (hfits : c.Fits)
    (e : Call c E) : s.Mixes e ↔ (e = .tryPop .null → s.mRead = s.mWrite) := by
  constructor
  · rintro hmix rfl
    by_contra hmore
    obtain ⟨t, ht, -⟩ := hmix
    rw [call_tryPop_null hmore] at ht
    cases ht
  · intro hnull
    cases e with
    | tryPush fill => exact h.mixes_tryPush hdepth hfits fill
    | tryPop dest =>
      by_cases hmore : s.mRead = s.mWrite
      · refine ⟨_, call_tryPop_empty hmore dest, .inl ⟨?_, rfl⟩⟩
        simp [BlockBuffer.returnedBy, BlockBuffer.tryPop, hmore]
      · refine h.consumes hmore ?_
        rintro rfl
        exact hmore (hnull rfl)

/-- The counters differ exactly when something is unread, on a window of less than `2 ^ 32`. -/
theorem Kept.read_eq_write_iff (h : s.Kept k) (hk : k ≤ 31) :
    s.mRead = s.mWrite ↔ s.filled.length = s.delivered.length := by
  have hslots := slots_le_half hk
  have hbound := h.bound
  rw [h.read, h.write]
  constructor
  · intro heq
    by_contra hne
    have hlt := Nat.lt_of_le_of_ne h.le (Ne.symm hne)
    exact count_ne hlt (by omega) heq
  · intro heq
    rw [heq]

end Ledger

/-- A push and a discarding pop may be repeated as often as one likes. -/
theorem exists_turns (hpos : 0 < c.mDepth.toNat) (mBuffer : ℕ → E) (client : c.Block E) (n : ℕ) :
    ∃ s, ((ledger c mBuffer client).restrict Ledger.narrow).Reachable s ∧
      s.mWrite = count n ∧ s.mRead = count n ∧ s.filled.length = s.delivered.length := by
  induction n with
  | zero => exact ⟨_, System.Reachable.init, rfl, rfl, rfl⟩
  | succ n ih =>
    obtain ⟨s, hs, hwrite, hread, hlength⟩ := ih
    have hroom : c.room s.mWrite s.mRead = true := by
      rw [hwrite, hread]
      exact room_self hpos _
    have hnarrow : s.narrow (.tryPush client) := by
      change s.filled.length < s.delivered.length + 2 ^ 32
      omega
    obtain ⟨t, hst, hpushed, hsame, hfilled, hdelivered⟩ : ∃ t : Ledger c E,
        s.call c (.tryPush client) = some t ∧ t.mWrite = count (n + 1) ∧ t.mRead = count n ∧
          t.filled.length = s.filled.length + 1 ∧ t.delivered = s.delivered :=
      ⟨_, Ledger.call_tryPush hroom client, by simp [hwrite], hread, by simp, rfl⟩
    have ht := hs.step (System.restrict_step.2 ⟨hnarrow, hst⟩)
    have hmore : t.mRead ≠ t.mWrite := by
      rw [hsame, hpushed]
      exact count_ne (Nat.lt_succ_self n) (by omega)
    have hdest : Dest.discard ≠ .null := Dest.noConfusion
    have hpop : t.call c (.tryPop .discard) = some _ := Ledger.call_tryPop hmore hdest
    have hnarrow : t.narrow (.tryPop .discard) := trivial
    refine ⟨_, ht.step (System.restrict_step.2 ⟨hnarrow, hpop⟩), hpushed, ?_, ?_⟩
    · simp [hsame]
    · simp [hfilled, hdelivered, hlength]

/-- An array that is too small: the push of some count is handed a block that passes its end. -/
theorem exists_outside (hdepth : c.mDepth.toNat = 2 ^ k) (hfits : ¬ c.Fits) (mBuffer : ℕ → E)
    (client : c.Block E) :
    ∃ s, ((ledger c mBuffer client).restrict Ledger.narrow).Reachable s ∧
      ¬ s.Mixes (.tryPush client) := by
  have hpos : 0 < c.mDepth.toNat := hdepth ▸ Nat.two_pow_pos k
  have hlt : c.allocated < slots k * c.mWidth.toNat := by
    rw [fits_iff hdepth] at hfits
    exact Nat.lt_of_not_le hfits
  have hwidth : 0 < c.mWidth.toNat := Nat.pos_of_mul_pos_left (Nat.zero_lt_of_lt hlt)
  -- the block that holds the first index past the end
  let n := c.allocated / c.mWidth.toNat
  have hstart : n * c.mWidth.toNat ≤ c.allocated := Nat.div_mul_le_self _ _
  have hend : c.allocated < n * c.mWidth.toNat + c.mWidth.toNat := Nat.lt_div_mul_add hwidth
  have hslot : n % slots k = n := Nat.mod_eq_of_lt ((Nat.div_lt_iff_lt_mul hwidth).2 hlt)
  have hoffset : (c.offset (count n)).toNat = n * c.mWidth.toNat := by
    have h := toNat_offset_of_lt (n := n) hdepth
    rw [hslot] at h
    exact h (hstart.trans_lt (BitVec.isLt _))
  obtain ⟨s, hs, hwrite, hread, -⟩ := exists_turns hpos mBuffer client n
  have hroom : c.room s.mWrite s.mRead = true := by
    rw [hwrite, hread]
    exact room_self hpos _
  refine ⟨s, hs, ?_⟩
  rintro ⟨t, -, hinside⟩
  have hblock := hinside _ (Ledger.handedBy_tryPush hroom client)
  rw [hwrite] at hblock
  have hmem : c.allocated ∈ c.block (c.offset (count n)) := ⟨hoffset ▸ hstart, hoffset ▸ hend⟩
  exact Nat.lt_irrefl _ (hblock hmem)

/-- **Discarding and copying pops mix freely, but for the null argument**, when the array holds the
blocks of all slots. With a depth of at most `2 ^ 31`, a call that follows any sequence of calls is
right unless it is a pop with a null argument while a block is unread. With larger depths the same
holds while no push is tried with `2 ^ 32` blocks unread. When the array is too small, some push is
handed a block that passes its end. -/
theorem mixes_iff_of_reachable (hdepth : c.mDepth.toNat = 2 ^ k) (mBuffer : ℕ → E)
    (client : c.Block E) :
    (c.Fits →
      (k ≤ 31 → ∀ s e, (ledger c mBuffer client).Reachable s →
        (s.Mixes e ↔ (e = .tryPop .null → s.filled.length = s.delivered.length))) ∧
      (∀ s e, ((ledger c mBuffer client).restrict Ledger.narrow).Reachable s →
        (s.Mixes e ↔ (e = .tryPop .null → s.mRead = s.mWrite)))) ∧
    (¬ c.Fits → ∃ s fill, ((ledger c mBuffer client).restrict Ledger.narrow).Reachable s ∧
      ¬ s.Mixes (.tryPush fill)) := by
  refine ⟨?_, ?_⟩
  · intro hfits
    have hsize := hfits.size hdepth
    constructor
    · intro hk s e hs
      have h := Ledger.kept_of_reachable hdepth hsize (Ledger.narrow_of_reachable hdepth hk hs)
      rw [h.mixes_iff hdepth hfits, h.read_eq_write_iff hk]
    · intro s e hs
      exact (Ledger.kept_of_reachable hdepth hsize hs).mixes_iff hdepth hfits e
  · intro hfits
    obtain ⟨s, hs, hout⟩ := exists_outside hdepth hfits mBuffer client
    exact ⟨s, client, hs, hout⟩

/-- Of two blocks, the first discarded: a copying pop of the second is right, and a pop with a null
argument is not. -/
theorem mixes_iff_of_reachable_two : ∃ s : Ledger ⟨1, 2⟩ ℕ,
    (s.filled.length = 2 ∧ s.delivered.length = 1) ∧
      s.Mixes (.tryPop .copy) ∧ ¬ s.Mixes (.tryPop .null) := by
  obtain ⟨s, hs, hp⟩ := (ledger ⟨1, 2⟩ (fun _ => (0 : ℕ)) fun _ => 0).exists_reachable
    (p := fun s => s.filled.length = 2 ∧ s.delivered.length = 1)
    [.tryPop .null, .tryPush fun _ => 7, .tryPush fun _ => 8, .tryPop .discard] (by decide)
  have hiff := ((mixes_iff_of_reachable (k := 1) (c := ⟨1, 2⟩) rfl (fun _ => (0 : ℕ))
    fun _ => 0).1 (by decide)).1 (by decide)
  refine ⟨s, hp, (hiff s _ hs).2 nofun, ?_⟩
  intro hmix
  have := (hiff s _ hs).1 hmix rfl
  omega

/-- One block is pushed, and the pop with the default argument dereferences it. -/
theorem exists_null_dereferenced : ∃ s : Ledger ⟨1, 2⟩ ℕ,
    (ledger ⟨1, 2⟩ (fun _ => (0 : ℕ)) fun _ => 0).Reachable s ∧
      (s.filled.length = 1 ∧ s.delivered.length = 0) ∧
      s.call ⟨1, 2⟩ (.tryPop .null) = none ∧ ¬ s.Mixes (.tryPop .null) := by
  obtain ⟨s, hs, hp, hmore⟩ := (ledger ⟨1, 2⟩ (fun _ => (0 : ℕ)) fun _ => 0).exists_reachable
    (p := fun s => (s.filled.length = 1 ∧ s.delivered.length = 0) ∧ s.mRead ≠ s.mWrite)
    [.tryPush fun _ => 7] (by decide)
  have hnone := Ledger.call_tryPop_null hmore
  refine ⟨s, hs, hp, hnone, ?_⟩
  rintro ⟨t, ht, -⟩
  rw [hnone] at ht
  cases ht

end ThreadTests.Arene
