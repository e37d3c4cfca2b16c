import Mathlib.Data.Fintype.Pi
import Mathlib.Order.Lattice
import Mathlib.Tactic.Common

/-!
# Release and acquire

Threads over a memory of atomic locations, each stored to by one thread, and of plain locations.
What a thread knows is a clock: of each thread, how many of its steps. A release store appends a
message with the clock of its thread, and an acquire load adds the clock of the message it takes.
A load takes any message, old ones included, that no message the thread knows of has overwritten
(`Memory.load`): a store is seen some time after it was made, and not by all threads at once.

The plain locations remember who accessed them when. An access is free of races when its thread
knows of every earlier access that conflicts with it (`Memory.RaceFree`). What was known before a
release store is known to whoever has acquired its message or a later one
(`Memory.Published.knows`), which is the rule that the proofs of race freedom use.
-/

namespace ThreadTests.ReleaseAcquire

universe u v w x y

/-- Of each thread a number of its steps. -/
abbrev Clock (ι : Type u) := ι → ℕ

/-- A value that was stored, with the clock of its store. -/
structure Message (ι : Type u) (V : Type v) where
  value : V
  stamp : Clock ι

/-- An access to a plain location. -/
structure Access (ι : Type u) where
  write : Bool
  stamp : Clock ι

/-- The clocks of the threads, the messages of each atomic location in the order of their stores,
and the accesses to the plain locations with their values. -/
structure Memory (ι : Type u) (L : Type v) (V : Type w) (X : Type x) (D : Type y) where
  clock : ι → Clock ι
  history : L → List (Message ι V)
  accesses : X → List (Access ι)
  data : X → D

namespace Memory

variable {ι : Type u} {L : Type v} {V : Type w} {X : Type x} {D : Type y}

/-- The thread knows of everything that the clock counts. -/
def Knows (mem : Memory ι L V X D) (i : ι) (σ : Clock ι) : Prop := ∀ j, σ j ≤ mem.clock i j

instance [Fintype ι] (mem : Memory ι L V X D) (i : ι) (σ : Clock ι) : Decidable (mem.Knows i σ) :=
  inferInstanceAs (Decidable (∀ j, σ j ≤ mem.clock i j))

/-- The thread knows of no message after `k`, so it may take `k`. -/
def Visible (mem : Memory ι L V X D) (i : ι) (l : L) (k : ℕ) : Prop :=
  ∀ later ∈ (mem.history l).drop (k + 1), ¬ mem.Knows i later.stamp

instance [Fintype ι] (mem : Memory ι L V X D) (i : ι) (l : L) (k : ℕ) :
    Decidable (mem.Visible i l k) :=
  inferInstanceAs (Decidable (∀ later ∈ (mem.history l).drop (k + 1), ¬ mem.Knows i later.stamp))

/-- A memory before the threads start: one message at each atomic location. -/
def new (value : L → V) (data : X → D) : Memory ι L V X D where
  clock _ _ := 0
  history l := [⟨value l, fun _ => 0⟩]
  accesses _ := []
  data := data

/-- The access knows of every earlier one that conflicts with it. -/
def RaceFree (mem : Memory ι L V X D) (i : ι) (x : X) (write : Bool) : Prop :=
  ∀ acc ∈ mem.accesses x, (acc.write || write) = true → mem.Knows i acc.stamp

instance [Fintype ι] (mem : Memory ι L V X D) (i : ι) (x : X) (write : Bool) :
    Decidable (mem.RaceFree i x write) :=
  inferInstanceAs (Decidable (∀ acc ∈ mem.accesses x, _ → mem.Knows i acc.stamp))

section Operations

variable [DecidableEq ι]

/-- The clock of the thread at its next step. -/
def tick (mem : Memory ι L V X D) (i : ι) : Clock ι :=
  Function.update (mem.clock i) i (mem.clock i i + 1)

/-- An acquire load that takes the message `k`. -/
def load [Fintype ι] (mem : Memory ι L V X D) (i : ι) (l : L) (k : ℕ) :
    Option (V × Memory ι L V X D) :=
  (mem.history l)[k]?.bind fun msg =>
    if mem.Visible i l k then
      some (msg.value, { mem with
        clock := Function.update mem.clock i fun j => max (mem.clock i j) (msg.stamp j) })
    else none

/-- A release store. -/
def store [DecidableEq L] (mem : Memory ι L V X D) (i : ι) (l : L) (value : V) :
    Memory ι L V X D :=
  { mem with
    clock := Function.update mem.clock i (mem.tick i)
    history := Function.update mem.history l (mem.history l ++ [⟨value, mem.tick i⟩]) }

/-- An access to the plain locations `xs`. -/
def access (mem : Memory ι L V X D) (i : ι) (xs : X → Prop) [DecidablePred xs] (write : Bool) :
    Memory ι L V X D :=
  { mem with
    clock := Function.update mem.clock i (mem.tick i)
    accesses := fun x =>
      if xs x then ⟨write, mem.tick i⟩ :: mem.accesses x else mem.accesses x }

def write [DecidableEq X] (mem : Memory ι L V X D) (i : ι) (x : X) (d : D) : Memory ι L V X D :=
  { mem.access i (· = x) true with data := Function.update mem.data x d }

def read [DecidableEq X] (mem : Memory ι L V X D) (i : ι) (x : X) : D × Memory ι L V X D :=
  (mem.data x, mem.access i (· = x) false)

end Operations

/-! ## Knowledge grows -/

/-- No clock goes back, and no message is lost. -/
structure Extends (mem mem' : Memory ι L V X D) : Prop where
  clock : ∀ i j, mem.clock i j ≤ mem'.clock i j
  history : ∀ l, mem.history l <+: mem'.history l

variable {mem mem' : Memory ι L V X D} {i j : ι} {l l' : L} {k n : ℕ} {σ : Clock ι} {value : V}
  {x : X}

theorem Extends.refl (mem : Memory ι L V X D) : mem.Extends mem :=
  ⟨fun _ _ => Nat.le_refl _, fun _ => List.prefix_rfl⟩

theorem Extends.knows (h : mem.Extends mem') (hσ : mem.Knows i σ) : mem'.Knows i σ :=
  fun j => (hσ j).trans (h.clock i j)

/-- What the clock counts was known at the store of the message `k`. -/
def Published (mem : Memory ι L V X D) (σ : Clock ι) (l : L) (k : ℕ) : Prop :=
  ∃ msg, (mem.history l)[k]? = some msg ∧ ∀ j, σ j ≤ msg.stamp j

/-- The thread knows of the store of the message `k`. -/
def Acquired (mem : Memory ι L V X D) (i : ι) (l : L) (k : ℕ) : Prop :=
  ∃ msg, (mem.history l)[k]? = some msg ∧ mem.Knows i msg.stamp

theorem Extends.getElem? {msg : Message ι V} (h : mem.Extends mem')
    (hmsg : (mem.history l)[k]? = some msg) : (mem'.history l)[k]? = some msg := by
  obtain ⟨rest, hrest⟩ := h.history l
  rw [← hrest, List.getElem?_append_left (List.getElem?_eq_some_iff.1 hmsg).1]
  exact hmsg

theorem Extends.published (h : mem.Extends mem') (hσ : mem.Published σ l k) :
    mem'.Published σ l k := by
  obtain ⟨msg, hmsg, hle⟩ := hσ
  exact ⟨msg, h.getElem? hmsg, hle⟩

theorem Extends.acquired (h : mem.Extends mem') (hk : mem.Acquired i l k) :
    mem'.Acquired i l k := by
  obtain ⟨msg, hmsg, hknows⟩ := hk
  exact ⟨msg, h.getElem? hmsg, h.knows hknows⟩

theorem Acquired.lt_length (h : mem.Acquired i l k) : k < (mem.history l).length := by
  obtain ⟨msg, hmsg, -⟩ := h
  exact (List.getElem?_eq_some_iff.1 hmsg).1

/-- **What was published with a message is known to who has acquired it.** -/
theorem Published.knows (hσ : mem.Published σ l k) (hk : mem.Acquired i l k) : mem.Knows i σ := by
  obtain ⟨msg, hmsg, hle⟩ := hσ
  obtain ⟨msg', hmsg', hknows⟩ := hk
  obtain rfl : msg = msg' := Option.some.inj (hmsg.symm.trans hmsg')
  exact fun j => (hle j).trans (hknows j)

section Operations

variable [DecidableEq ι]

theorem clock_le_tick (mem : Memory ι L V X D) (i j : ι) : mem.clock i j ≤ mem.tick i j := by
  unfold tick
  by_cases hj : j = i
  · subst hj
    rw [Function.update_self]
    exact Nat.le_succ _
  · rw [Function.update_of_ne hj]

/-- A thread that takes a step knows what it knew, and of the step. -/
theorem knows_tick {clock : ι → Clock ι} (hclock : clock = Function.update mem.clock i (mem.tick i))
    (j k : ι) : mem.clock j k ≤ clock j k := by
  subst hclock
  by_cases hj : j = i
  · subst hj
    rw [Function.update_self]
    exact clock_le_tick mem j k
  · rw [Function.update_of_ne hj]

/-- What a load needs and what it gives. -/
theorem load_eq_some [Fintype ι] (h : mem.load i l k = some (value, mem')) :
    ∃ msg, (mem.history l)[k]? = some msg ∧ value = msg.value ∧ mem.Visible i l k ∧
      mem' = { mem with
        clock := Function.update mem.clock i fun j => max (mem.clock i j) (msg.stamp j) } := by
  obtain ⟨msg, hmsg, hif⟩ := Option.bind_eq_some_iff.1 h
  obtain ⟨hvisible, ⟨⟩⟩ := Option.ite_none_right_eq_some.1 hif
  exact ⟨msg, hmsg, rfl, hvisible, rfl⟩

/-- The load of a message that the thread knows of changes nothing. -/
theorem load_of_knows [Fintype ι] (msg : Message ι V) (hmsg : (mem.history l)[k]? = some msg)
    (hvisible : mem.Visible i l k) (hknows : mem.Knows i msg.stamp) :
    mem.load i l k = some (msg.value, mem) := by
  have hclock : (fun j => max (mem.clock i j) (msg.stamp j)) = mem.clock i :=
    funext fun j => Nat.max_eq_left (hknows j)
  rw [load, hmsg, Option.bind_some, if_pos hvisible, hclock, Function.update_eq_self]

theorem load_new [Fintype ι] (value : L → V) (data : X → D) (i : ι) (l : L) :
    (new value data).load i l 0 = some (value l, new value data) :=
  load_of_knows ⟨value l, fun _ => 0⟩ rfl (fun _ hlater => absurd hlater List.not_mem_nil)
    fun _ => Nat.le_refl 0

section Load

variable [Fintype ι] (h : mem.load i l k = some (value, mem'))
include h

theorem extends_load : mem.Extends mem' := by
  obtain ⟨msg, -, -, -, rfl⟩ := load_eq_some h
  refine ⟨?_, fun _ => List.prefix_rfl⟩
  intro a b
  change mem.clock a b ≤ Function.update mem.clock i _ a b
  by_cases ha : a = i
  · subst ha
    rw [Function.update_self]
    exact Nat.le_max_left _ _
  · rw [Function.update_of_ne ha]

theorem history_load : mem'.history = mem.history := by
  obtain ⟨msg, -, -, -, rfl⟩ := load_eq_some h
  rfl

theorem accesses_load : mem'.accesses = mem.accesses := by
  obtain ⟨msg, -, -, -, rfl⟩ := load_eq_some h
  rfl

theorem data_load : mem'.data = mem.data := by
  obtain ⟨msg, -, -, -, rfl⟩ := load_eq_some h
  rfl

theorem acquired_load : mem'.Acquired i l k := by
  obtain ⟨msg, hmsg, -, -, rfl⟩ := load_eq_some h
  refine ⟨msg, hmsg, ?_⟩
  intro j
  change _ ≤ Function.update mem.clock i _ i j
  rw [Function.update_self]
  exact Nat.le_max_right _ _

theorem value_load {f : ℕ → V} (hhist : (mem.history l).map Message.value =
    (List.range n).map f) : k < n ∧ value = f k := by
  obtain ⟨msg, hmsg, rfl, -, -⟩ := load_eq_some h
  have hk : ((List.range n).map f)[k]? = some msg.value := by
    rw [← hhist, List.getElem?_map, hmsg]
    rfl
  rw [List.getElem?_map, Option.map_eq_some_iff] at hk
  obtain ⟨j, hj, hvalue⟩ := hk
  obtain ⟨hlt, rfl⟩ := List.getElem?_eq_some_iff.1 hj
  rw [List.length_range] at hlt
  rw [List.getElem_range] at hvalue
  exact ⟨hlt, hvalue.symm⟩

omit h in
/-- The last message can always be taken. -/
theorem exists_load_last (i : ι) (hlen : (mem.history l).length = n + 1) :
    ∃ value mem', mem.load i l n = some (value, mem') := by
  obtain ⟨msg, hmsg⟩ : ∃ msg, (mem.history l)[n]? = some msg :=
    ⟨_, List.getElem?_eq_getElem (by omega)⟩
  have hvisible : mem.Visible i l n := by
    intro later hlater
    rw [List.drop_eq_nil_of_le (by omega)] at hlater
    exact absurd hlater List.not_mem_nil
  rw [load, hmsg, Option.bind_some, if_pos hvisible]
  exact ⟨_, _, rfl⟩

/-- **Coherence.** A load does not go back behind a message that its thread knows of. -/
theorem Acquired.le_of_load (hk : mem.Acquired i l n) : n ≤ k := by
  obtain ⟨msg, hmsg, hknows⟩ := hk
  obtain ⟨-, -, -, hvisible, -⟩ := load_eq_some h
  by_contra hlt
  apply hvisible msg
  · rw [List.mem_iff_getElem?]
    refine ⟨n - (k + 1), ?_⟩
    rw [List.getElem?_drop, Nat.add_sub_cancel' (by omega)]
    exact hmsg
  · exact hknows

end Load

section Store

variable [DecidableEq L]

theorem extends_store (mem : Memory ι L V X D) (i : ι) (l : L) (value : V) :
    mem.Extends (mem.store i l value) := by
  refine ⟨knows_tick rfl, ?_⟩
  intro l'
  change _ <+: Function.update mem.history l _ l'
  by_cases hl : l' = l
  · subst hl
    rw [Function.update_self]
    exact List.prefix_append _ _
  · rw [Function.update_of_ne hl]

@[simp] theorem history_store_self (mem : Memory ι L V X D) (i : ι) (l : L) (value : V) :
    (mem.store i l value).history l = mem.history l ++ [⟨value, mem.tick i⟩] :=
  Function.update_self ..

theorem history_store_of_ne (hl : l' ≠ l) : (mem.store i l value).history l' = mem.history l' :=
  Function.update_of_ne hl ..

/-- A store publishes what its thread knows. -/
theorem published_store (hσ : mem.Knows i σ) :
    (mem.store i l value).Published σ l (mem.history l).length := by
  refine ⟨⟨value, mem.tick i⟩, ?_, fun j => (hσ j).trans (clock_le_tick mem i j)⟩
  rw [history_store_self]
  exact List.getElem?_concat_length

/-- **A store hides no message from another thread**, which does not know of it yet. -/
theorem visible_store (hji : j ≠ i) (hclock : mem.clock j i ≤ mem.clock i i)
    (hk : mem.Visible j l' k) : (mem.store i l value).Visible j l' k := by
  have hj : (mem.store i l value).clock j = mem.clock j := Function.update_of_ne hji ..
  intro later hlater hknows
  unfold Knows at hknows
  rw [hj] at hknows
  by_cases hl : l' = l
  · subst hl
    rw [history_store_self, List.drop_append, List.mem_append] at hlater
    rcases hlater with hold | hnew
    · exact hk later hold hknows
    · rw [List.mem_singleton.1 (List.mem_of_mem_drop hnew)] at hknows
      have hle : mem.clock i i + 1 ≤ mem.clock j i := by
        have htick : mem.tick i i = mem.clock i i + 1 := Function.update_self ..
        rw [← htick]
        exact hknows i
      omega
  · rw [history_store_of_ne hl] at hlater
    exact hk later hlater hknows

end Store

section Access

variable (mem : Memory ι L V X D) (i : ι) (xs : X → Prop) [DecidablePred xs] (write : Bool)

theorem extends_access : mem.Extends (mem.access i xs write) :=
  ⟨knows_tick rfl, fun _ => List.prefix_rfl⟩

theorem extends_write [DecidableEq X] (x : X) (d : D) : mem.Extends (mem.write i x d) :=
  ⟨knows_tick rfl, fun _ => List.prefix_rfl⟩

variable {mem i xs write}

/-- The accesses after one more: the new one, of which its thread knows, and the earlier ones. -/
theorem mem_accesses_access {y : X} {acc : Access ι}
    (h : acc ∈ (mem.access i xs write).accesses y) :
    (xs y ∧ acc.write = write ∧ (mem.access i xs write).Knows i acc.stamp) ∨
      acc ∈ mem.accesses y := by
  change acc ∈ if xs y then _ else _ at h
  split at h
  · rename_i hy
    rcases List.mem_cons.1 h with rfl | h
    · refine .inl ⟨hy, rfl, ?_⟩
      intro j
      change _ ≤ Function.update mem.clock i _ i j
      rw [Function.update_self]
    · exact .inr h
  · exact .inr h

theorem mem_accesses_write [DecidableEq X] {x y : X} {d : D} {acc : Access ι}
    (h : acc ∈ (mem.write i x d).accesses y) :
    (y = x ∧ acc.write = true ∧ (mem.write i x d).Knows i acc.stamp) ∨ acc ∈ mem.accesses y := by
  change acc ∈ (mem.access i (· = x) true).accesses y at h
  exact mem_accesses_access h

end Access

end Operations

/-! ## Locations with one writer -/

/-- The messages of a location are those of its owner: each store knew of the ones before, and the
owner knows of all. -/
structure Owned (owner : L → ι) (mem : Memory ι L V X D) : Prop where
  sorted : ∀ (l : L) (j k : ℕ) (msg msg' : Message ι V), j ≤ k → (mem.history l)[j]? = some msg →
    (mem.history l)[k]? = some msg' → ∀ a, msg.stamp a ≤ msg'.stamp a
  known : ∀ l msg, msg ∈ mem.history l → mem.Knows (owner l) msg.stamp

namespace Owned

variable {owner : L → ι}

theorem new (init : L → V) (data : X → D) : Owned owner (Memory.new init data) := by
  refine ⟨?_, ?_⟩
  · intro l j k msg msg' _ hmsg _ a
    rw [List.mem_singleton.1 (List.mem_of_getElem? hmsg)]
    exact Nat.zero_le _
  · intro l msg hmsg a
    rw [List.mem_singleton.1 hmsg]
    exact Nat.zero_le _

/-- Whatever stores nothing keeps the messages as they are. -/
theorem of_extends (h : Owned owner mem) (hext : mem.Extends mem')
    (hhist : mem'.history = mem.history) : Owned owner mem' := by
  refine ⟨?_, ?_⟩
  · rw [hhist]
    exact h.sorted
  · rw [hhist]
    exact fun l msg hmsg => hext.knows (h.known l msg hmsg)

theorem store [DecidableEq ι] [DecidableEq L] (h : Owned owner mem) (l : L) (value : V) :
    Owned owner (mem.store (owner l) l value) := by
  have hext := extends_store mem (owner l) l value
  refine ⟨?_, ?_⟩
  · intro l' j k msg msg' hjk hmsg hmsg' a
    by_cases hl : l' = l
    · subst hl
      rw [history_store_self] at hmsg hmsg'
      -- the new message is the last one, and knows of all the others
      rcases Nat.lt_or_ge k (mem.history l').length with hk | hk
      · rw [List.getElem?_append_left hk] at hmsg'
        rw [List.getElem?_append_left (Nat.lt_of_le_of_lt hjk hk)] at hmsg
        exact h.sorted l' j k msg msg' hjk hmsg hmsg' a
      · rw [List.getElem?_append_right hk, List.getElem?_singleton] at hmsg'
        obtain ⟨-, ⟨⟩⟩ := Option.ite_none_right_eq_some.1 hmsg'
        rcases List.mem_append.1 (List.mem_of_getElem? hmsg) with hmem | hmem
        · exact (h.known l' msg hmem a).trans (clock_le_tick mem _ a)
        · rw [List.mem_singleton.1 hmem]
    · rw [history_store_of_ne hl] at hmsg hmsg'
      exact h.sorted l' j k msg msg' hjk hmsg hmsg' a
  · intro l' msg hmsg
    by_cases hl : l' = l
    · subst hl
      rw [history_store_self] at hmsg
      rcases List.mem_append.1 hmsg with hmem | hmem
      · exact hext.knows (h.known l' msg hmem)
      · rw [List.mem_singleton.1 hmem]
        intro j
        change _ ≤ Function.update mem.clock _ _ (owner l') j
        rw [Function.update_self]
    · rw [history_store_of_ne hl] at hmsg
      exact hext.knows (h.known l' msg hmsg)

/-- Who knows of a message knows of those before it. -/
theorem acquired_of_le (h : Owned owner mem) (hk : mem.Acquired i l k) (hn : n ≤ k) :
    mem.Acquired i l n := by
  have hlt := Nat.lt_of_le_of_lt hn hk.lt_length
  obtain ⟨msg, hmsg, hknows⟩ := hk
  have hmsg' := List.getElem?_eq_getElem hlt
  exact ⟨_, hmsg', fun j => (h.sorted l n k _ _ hn hmsg' hmsg j).trans (hknows j)⟩

theorem acquired_owner (h : Owned owner mem) (hk : k < (mem.history l).length) :
    mem.Acquired (owner l) l k :=
  ⟨_, List.getElem?_eq_getElem hk, h.known l _ (List.getElem_mem hk)⟩

/-- The owner of a location loads its last store. -/
theorem load_owner [DecidableEq ι] [Fintype ι] (h : Owned owner mem)
    (hload : mem.load (owner l) l k = some (value, mem')) : k + 1 = (mem.history l).length := by
  obtain ⟨msg, hmsg, -⟩ := load_eq_some hload
  have hlt := (List.getElem?_eq_some_iff.1 hmsg).1
  have hlast := Acquired.le_of_load hload (h.acquired_owner (l := l)
    (k := (mem.history l).length - 1) (by omega))
  omega

end Owned

end Memory

end ThreadTests.ReleaseAcquire
