import ThreadTests.Core.ReleaseAcquire

/-!
# Two counters on a release/acquire memory

The sides of a single producer, single consumer queue each count in a location of their own, and
test the two counts before they add to theirs. On a release/acquire memory what a side has seen of
the other count may be old, but never less than its own completed calls need (`Informed`): the
consumer has seen every publication that it has taken, and the producer enough releases for what it
has published. So the window that a test is made on is as narrow as that of the current counts.

An access to a plain location is `Made` for a call when it comes before the store of some message,
and so is known to whoever has acquired that message or a later one.
-/

namespace ThreadTests.ReleaseAcquire

universe u v w

inductive Party where
  | producer
  | consumer
  deriving DecidableEq, Repr

instance : Fintype Party := ⟨{.producer, .consumer}, fun p => by cases p <;> decide⟩

/-- The atomic locations. -/
inductive Counter where
  | mWrite
  | mRead
  deriving DecidableEq, Repr

/-- The thread that stores the counter. -/
def Counter.owner : Counter → Party
  | .mWrite => .producer
  | .mRead => .consumer

variable {V : Type u} {X : Type v} {D : Type w} {count : ℕ → V} {done done' : Counter → ℕ}
  {mem mem' : Memory Party Counter V X D} {c d : Counter} {p : Party} {j k : ℕ} {value : V}

/-! ## The messages count -/

/-- The messages of a counter are the counts of its stores. -/
structure Counting (count : ℕ → V) (done : Counter → ℕ) (mem : Memory Party Counter V X D) :
    Prop where
  owned : mem.Owned Counter.owner
  history : ∀ c, (mem.history c).map Message.value = (List.range (done c + 1)).map count

namespace Counting

theorem new (data : X → D) (h0 : ∀ c, done c = 0) :
    Counting count done (.new (fun _ => count 0) data) := by
  refine ⟨.new _ _, fun c => ?_⟩
  rw [h0 c]
  rfl

theorem length (h : Counting count done mem) (c : Counter) :
    (mem.history c).length = done c + 1 := by
  rw [← List.length_map Message.value, h.history c, List.length_map, List.length_range]

/-- What is known of a counter is not beyond it. -/
theorem le_done (h : Counting count done mem) (hk : mem.Acquired p c k) : k ≤ done c := by
  have hlt := hk.lt_length
  rw [h.length c] at hlt
  exact Nat.le_of_lt_succ hlt

/-- A load sees a count that the counter has had. -/
theorem value_load (h : Counting count done mem)
    (hload : mem.load p c k = some (value, mem')) : k ≤ done c ∧ value = count k := by
  obtain ⟨hlt, hvalue⟩ := Memory.value_load hload (h.history c)
  exact ⟨Nat.le_of_lt_succ hlt, hvalue⟩

/-- A load of the own counter takes the last store. -/
theorem own (h : Counting count done mem)
    (hload : mem.load c.owner c k = some (value, mem')) : value = count (done c) := by
  have hlast := h.owned.load_owner hload
  rw [h.length c] at hlast
  obtain rfl : k = done c := Nat.succ.inj hlast
  exact (h.value_load hload).2

/-- A load of the last message sees the current counter. -/
theorem exists_load (h : Counting count done mem) (p : Party) (c : Counter) :
    ∃ mem', mem.load p c (done c) = some (count (done c), mem') := by
  obtain ⟨value, mem', hload⟩ := Memory.exists_load_last p (h.length c)
  obtain ⟨-, rfl⟩ := h.value_load hload
  exact ⟨mem', hload⟩

/-- A step that stores nothing keeps the messages. -/
theorem keep (h : Counting count done mem) (hext : mem.Extends mem')
    (hhist : mem'.history = mem.history) : Counting count done mem' := by
  refine ⟨h.owned.of_extends hext hhist, ?_⟩
  rw [hhist]
  exact h.history

theorem load (h : Counting count done mem) (hload : mem.load p c k = some (value, mem')) :
    Counting count done mem' :=
  h.keep (Memory.extends_load hload) (Memory.history_load hload)

/-- A store appends the next count. -/
theorem store (h : Counting count done mem) (hvalue : value = count (done c + 1))
    (hdone : ∀ d, done' d = if d = c then done d + 1 else done d) :
    Counting count done' (mem.store c.owner c value) := by
  refine ⟨h.owned.store c value, fun d => ?_⟩
  rw [hdone d]
  by_cases hd : d = c
  · subst hd
    rw [if_pos rfl, Memory.history_store_self, List.map_append, h.history, hvalue,
      List.range_succ (n := done d + 1), List.map_append]
    rfl
  · rw [if_neg hd, Memory.history_store_of_ne hd, h.history]

/-- A message known is one of the first `k + 1`, and with it those before. -/
theorem acquired_of_le (h : Counting count done mem) (hk : mem.Acquired p c k) (hj : j ≤ k) :
    mem.Acquired p c j :=
  h.owned.acquired_of_le hk hj

end Counting

/-! ## What a side knows of the other count -/

/-- The consumer knows of the publications that it has taken, and the producer of releases enough
for what it has published; one that has passed its test knows of one more. -/
structure Informed (cap : ℕ) (done : Counter → ℕ) (granted holding : Prop)
    (mem : Memory Party Counter V X D) : Prop where
  unread : mem.Acquired .consumer .mWrite (done .mRead)
  bound : ∃ k, mem.Acquired .producer .mRead k ∧ done .mWrite ≤ k + cap
  granted : granted → ∃ k, mem.Acquired .producer .mRead k ∧ done .mWrite < k + cap
  holding : holding → mem.Acquired .consumer .mWrite (done .mRead + 1)

namespace Informed

variable {cap : ℕ} {granted granted' holding holding' : Prop}

theorem new {init : V} (data : X → D) (h0 : ∀ c, done c = 0) (hg : ¬ granted) (hh : ¬ holding) :
    Informed cap done granted holding (.new (fun _ => init) data) := by
  have hknown : ∀ p c, (Memory.new (ι := Party) (fun _ : Counter => init) data).Acquired p c 0 :=
    fun p c => ⟨_, rfl, fun _ => Nat.le_refl _⟩
  refine ⟨?_, ⟨0, hknown _ _, ?_⟩, fun h => absurd h hg, fun h => absurd h hh⟩
  · rw [h0]
    exact hknown _ _
  · rw [h0]
    exact Nat.zero_le _

/-- What is known stays known; a side may give up what its test has granted. -/
theorem keep (h : Informed cap done granted holding mem) (hext : mem.Extends mem')
    (hg : granted' → granted) (hh : holding' → holding) :
    Informed cap done granted' holding' mem' := by
  refine ⟨hext.acquired h.unread, ?_, fun hg' => ?_, fun hh' => hext.acquired (h.holding (hh hh'))⟩
  · obtain ⟨k, hk, hle⟩ := h.bound
    exact ⟨k, hext.acquired hk, hle⟩
  · obtain ⟨k, hk, hlt⟩ := h.granted (hg hg')
    exact ⟨k, hext.acquired hk, hlt⟩

/-- The producer's test. -/
theorem grant (h : Informed cap done granted holding mem)
    (hload : mem.load .producer .mRead k = some (value, mem'))
    (hlt : granted' → done .mWrite < k + cap) (hh : holding' → holding) :
    Informed cap done granted' holding' mem' := by
  have hkept := h.keep (Memory.extends_load hload) (fun h : False => h.elim) hh
  exact ⟨hkept.unread, hkept.bound, fun hg => ⟨k, Memory.acquired_load hload, hlt hg⟩,
    hkept.holding⟩

/-- The consumer's test. -/
theorem hold (h : Informed cap done granted holding mem) (hc : Counting count done mem)
    (hload : mem.load .consumer .mWrite k = some (value, mem')) (hg : granted' → granted)
    (hlt : holding' → done .mRead < k) : Informed cap done granted' holding' mem' := by
  have hkept := h.keep (Memory.extends_load hload) hg fun h : False => h.elim
  exact ⟨hkept.unread, hkept.bound, hkept.granted, fun hh =>
    (hc.load hload).acquired_of_le (Memory.acquired_load hload) (hlt hh)⟩

/-- A publication uses up what the test has granted. -/
theorem push (h : Informed cap done granted holding mem) (hg : granted) (hext : mem.Extends mem')
    (hwrite : done' .mWrite = done .mWrite + 1) (hread : done' .mRead = done .mRead)
    (hg' : ¬ granted') : Informed cap done' granted' holding mem' := by
  refine ⟨?_, ?_, fun h => absurd h hg', ?_⟩
  · rw [hread]
    exact hext.acquired h.unread
  · obtain ⟨k, hk, hlt⟩ := h.granted hg
    exact ⟨k, hext.acquired hk, by omega⟩
  · rw [hread]
    exact fun hh => hext.acquired (h.holding hh)

/-- So does a release. -/
theorem pop (h : Informed cap done granted holding mem) (hh : holding) (hext : mem.Extends mem')
    (hwrite : done' .mWrite = done .mWrite) (hread : done' .mRead = done .mRead + 1)
    (hh' : ¬ holding') : Informed cap done' granted holding' mem' := by
  have hkept := h.keep hext id id
  refine ⟨?_, ?_, ?_, fun h => absurd h hh'⟩
  · rw [hread]
    exact hext.acquired (h.holding hh)
  · rw [hwrite]
    exact hkept.bound
  · rw [hwrite]
    exact hkept.granted

theorem le (h : Informed cap done granted holding mem) (hc : Counting count done mem) :
    done .mRead ≤ done .mWrite :=
  hc.le_done h.unread

theorem le_add (h : Informed cap done granted holding mem) (hc : Counting count done mem) :
    done .mWrite ≤ done .mRead + cap := by
  obtain ⟨k, hk, hle⟩ := h.bound
  have := hc.le_done hk
  omega

theorem lt_add (h : Informed cap done granted holding mem) (hc : Counting count done mem)
    (hg : granted) : done .mWrite < done .mRead + cap := by
  obtain ⟨k, hk, hlt⟩ := h.granted hg
  have := hc.le_done hk
  omega

theorem lt (h : Informed cap done granted holding mem) (hc : Counting count done mem)
    (hh : holding) : done .mRead < done .mWrite :=
  hc.le_done (h.holding hh)

/-- The window of the producer's test: it has seen `k` releases. -/
theorem room_of_load (h : Informed cap done granted holding mem) (hc : Counting count done mem)
    (hload : mem.load .producer .mRead k = some (value, mem')) :
    k ≤ done .mRead ∧ done .mWrite ≤ k + cap ∧ value = count k := by
  obtain ⟨k', hk', hle⟩ := h.bound
  have hfresh := Memory.Acquired.le_of_load hload hk'
  obtain ⟨hk, hvalue⟩ := hc.value_load hload
  exact ⟨hk, by omega, hvalue⟩

/-- The window of the consumer's test: it has seen `k` publications. -/
theorem more_of_load (h : Informed cap done granted holding mem) (hc : Counting count done mem)
    (hload : mem.load .consumer .mWrite k = some (value, mem')) :
    done .mRead ≤ k ∧ k ≤ done .mWrite ∧ value = count k := by
  obtain ⟨hk, hvalue⟩ := hc.value_load hload
  exact ⟨Memory.Acquired.le_of_load hload h.unread, hk, hvalue⟩

end Informed

/-! ## Accesses that a store follows -/

/-- The owner of the counter knows of an access, and has stored the message `k` since then, or waits
to do so. -/
structure Made (c : Counter) (σ : Clock Party) (k : ℕ) (waits : Prop)
    (mem : Memory Party Counter V X D) : Prop where
  known : mem.Knows c.owner σ
  stored : mem.Published σ c k ∨ waits

namespace Made

variable {σ : Clock Party} {waits waits' : Prop}

theorem keep (h : Made c σ k waits mem) (hext : mem.Extends mem') (hw : waits → waits') :
    Made c σ k waits' mem' :=
  ⟨hext.knows h.known, h.stored.imp (fun hpub => hext.published hpub) hw⟩

/-- The store that was waited for. -/
theorem store (h : Made c σ k waits mem) (hw : waits → (mem.history c).length = k) (value : V) :
    Made c σ k waits' (mem.store c.owner c value) := by
  have hext := Memory.extends_store mem c.owner c value
  refine ⟨hext.knows h.known, .inl ?_⟩
  rcases h.stored with hpub | hwaits
  · exact hext.published hpub
  · rw [← hw hwaits]
    exact Memory.published_store h.known

theorem le_or (h : Made c σ k waits mem) (hc : Counting count done mem) : k ≤ done c ∨ waits := by
  refine h.stored.imp_left fun ⟨msg, hmsg, _⟩ => ?_
  have hlt := (List.getElem?_eq_some_iff.1 hmsg).1
  rw [hc.length c] at hlt
  exact Nat.le_of_lt_succ hlt

/-- Who knows of the store, or of a later one, knows of the access. -/
theorem knows (h : Made c σ k waits mem) (hc : Counting count done mem) (hw : waits → done c < k)
    (hj : mem.Acquired p c j) (hkj : k ≤ j) : mem.Knows p σ := by
  rcases h.stored with hpub | hwaits
  · exact hpub.knows (hc.acquired_of_le hj hkj)
  · have := hc.le_done hj
    have := hw hwaits
    omega

end Made

end ThreadTests.ReleaseAcquire
