import ThreadTests.Core.Linearizable
import ThreadTests.Ring.Programs

/-!
# The lock-free rings are linearizable

What the two threads see of a ring: a call is an invocation at its first load, and it responds with
what it returns. A push that is refused takes effect at its test, and one that succeeds at its store
of `m_write`; so for the pops. In the order of these steps the calls are those of a bounded queue
that refuses a push only when it is full and a pop only when it is empty.

A ring whose counters are faithful for some counts only is linearizable in the runs that stay within
them (`Arith.linearizable_of_faithful`).
-/

namespace ThreadTests

universe u v

variable {κ : Type u} {T : Type v}

/-- What a call returns; a pop that succeeds has written its element. -/
inductive Response (T : Type v) where
  | pushed (ok : Bool)
  | popped (element : Option T)
  deriving DecidableEq, Repr

/-- The bounded queue that does not wait, one call at a time. -/
def lockFreeQueue (T : Type v) [DecidableEq T] (cap : ℕ) :
    Spec (List T) (Arith.Call T) (Response T) where
  init := []
  step
    | waiting, .tryPush val, .pushed true =>
      if waiting.length < cap then some (waiting ++ [val]) else none
    | waiting, .tryPush _, .pushed false => if waiting.length = cap then some waiting else none
    | x :: waiting, .tryPop, .popped (some element) => if x = element then some waiting else none
    | [], .tryPop, .popped none => some []
    | _, _, _ => none

/-- How far the call is, to the queue: it responds in the step that takes effect. -/
def PushPc.status : PushPc κ T → Status (Arith.Call T) (Response T)
  | .idle => .idle
  | .loaded val _ _ | .passed val _ _ | .written val _ _ => .invoked (.tryPush val)

def PopPc.status : PopPc κ T → Status (Arith.Call T) (Response T)
  | .idle => .idle
  | .loaded _ | .passed _ | .copied .. => .invoked .tryPop

/-- What the pop writes to `*element`. -/
def PopPc.element : PopPc κ T → Option T
  | .copied _ element => some element
  | _ => none

namespace Threads

/-- What the two threads see. -/
def see (s : Threads κ T) : Step T → List (Action Role (Arith.Call T) (Response T))
  | .pushLoad val => [.invoke .writer (.tryPush val)]
  | .pushTest false => [.respond .writer (.pushed false)]
  | .pushStore => [.respond .writer (.pushed true)]
  | .popLoad => [.invoke .reader .tryPop]
  | .popTest false => [.respond .reader (.popped none)]
  | .popStore => [.respond .reader (.popped s.consumer.element)]
  | .pushTest true | .pushWrite | .popTest true | .popRead => []

/-- The queue that a state stands for, with the calls on it. -/
def object (s : Threads κ T) : Object (List T) Role (Arith.Call T) (Response T) where
  value := s.unread
  status
    | .writer => s.producer.status
    | .reader => s.consumer.status

/-- The call of a thread takes effect and responds. -/
def completes (role : Role) (res : Response T) :
    Option (List (ObjectEvent Role (Arith.Call T) (Response T))) :=
  some [.effect role res, .respond role res]

/-- The events of the queue. -/
def label (s : Threads κ T) :
    Step T → Option (List (ObjectEvent Role (Arith.Call T) (Response T)))
  | .pushLoad val => some [.invoke .writer (.tryPush val)]
  | .pushTest false => completes .writer (.pushed false)
  | .pushStore => completes .writer (.pushed true)
  | .popLoad => some [.invoke .reader .tryPop]
  | .popTest false => completes .reader (.popped none)
  | .popStore => completes .reader (.popped s.consumer.element)
  | .pushTest true | .pushWrite | .popTest true | .popRead => none

theorem label_action (s : Threads κ T) (e : Step T) :
    ((s.label e).getD []).filterMap ObjectEvent.action = s.see e := by
  cases e with
  | pushTest ok | popTest ok => cases ok <;> rfl
  | _ => rfl

variable (s : Threads κ T)

/-- The writer goes on, and its call. -/
theorem object_writer {t : Threads κ T} {st : Status (Arith.Call T) (Response T)}
    {waiting : List T} (h : t.consumer = s.consumer) (hst : t.producer.status = st)
    (hwaiting : t.unread = waiting) :
    { s.object.become .writer st with value := waiting } = t.object := by
  subst hst hwaiting
  refine congrArg (Object.mk t.unread) (funext fun role => ?_)
  cases role with
  | writer => exact s.object.become_status_self .writer _
  | reader =>
    exact (s.object.become_status_of_ne (by decide) _).trans (congrArg PopPc.status h.symm)

theorem object_reader {t : Threads κ T} {st : Status (Arith.Call T) (Response T)}
    {waiting : List T} (h : t.producer = s.producer) (hst : t.consumer.status = st)
    (hwaiting : t.unread = waiting) :
    { s.object.become .reader st with value := waiting } = t.object := by
  subst hst hwaiting
  refine congrArg (Object.mk t.unread) (funext fun role => ?_)
  cases role with
  | writer =>
    exact (s.object.become_status_of_ne (by decide) _).trans (congrArg PushPc.status h.symm)
  | reader => exact s.object.become_status_self .reader _

theorem object_eq {t : Threads κ T} (hunread : t.unread = s.unread)
    (hproducer : t.producer.status = s.producer.status)
    (hconsumer : t.consumer.status = s.consumer.status) : t.object = s.object := by
  unfold object
  rw [hunread, hproducer, hconsumer]

end Threads

namespace Arith

variable [DecidableEq κ] [DecidableEq T] {a : Arith κ} {cap : ℕ} {L : LowerSet ℕ} {mBuffer : ℕ → T}
  {s t : Threads κ T} {e : Step T}

/-- A step is the steps of the queue that its label says, or none. -/
theorem object_moves (ha : a.Faithful cap L) (hs : (a.system mBuffer).Reachable s)
    (hL : s.pushed.length ∈ L) (hst : a.step s e = some t) :
    match s.label e with
    | none => t.object = s.object
    | some es => ((lockFreeQueue T cap).object Role).bursts.step s.object es = some t.object := by
  obtain ⟨hle, -, hroom, -⟩ := window ha hs hL
  cases moves_of_step hst with
  | @pushLoad val h =>
    have hidle : s.object.status .writer = .idle := congrArg PushPc.status h
    refine System.bursts_singleton ((object_invoke hidle _).trans (congrArg some ?_))
    exact s.object_writer rfl rfl rfl
  | @pushTest val tail next ok h =>
    have hinvoked : s.object.status .writer = .invoked (.tryPush val) := congrArg PushPc.status h
    cases ok with
    | true => exact s.object_eq rfl (congrArg PushPc.status h).symm rfl
    | false =>
      have hfull : s.unread.length = cap := (push_test_of_reachable ha hs hL hst).1 rfl
      have heffect : (lockFreeQueue T cap).step s.unread (.tryPush val) (.pushed false) =
          some s.unread := if_pos hfull
      refine (object_complete hinvoked heffect).trans (congrArg some ?_)
      exact s.object_writer rfl rfl rfl
  | @pushWrite val tail next h => exact s.object_eq rfl (congrArg PushPc.status h).symm rfl
  | @pushStore val tail next h =>
    have hinvoked : s.object.status .writer = .invoked (.tryPush val) := congrArg PushPc.status h
    have hlt : s.unread.length < cap := hroom (by simp [h, PushPc.target])
    have hunread : (s.pushed ++ [val]).drop s.popped.length = s.unread ++ [val] :=
      List.drop_append_of_le_length hle
    refine (object_complete hinvoked (if_pos hlt)).trans (congrArg some ?_)
    exact s.object_writer rfl rfl hunread
  | popLoad h =>
    have hidle : s.object.status .reader = .idle := congrArg PopPc.status h
    refine System.bursts_singleton ((object_invoke hidle _).trans (congrArg some ?_))
    exact s.object_reader rfl rfl rfl
  | @popTest head more h =>
    have hinvoked : s.object.status .reader = .invoked .tryPop := congrArg PopPc.status h
    cases more with
    | true => exact s.object_eq rfl rfl (congrArg PopPc.status h).symm
    | false =>
      have hempty : s.unread = [] := (pop_test_of_reachable ha hs hL hst).1 rfl
      have heffect : (lockFreeQueue T cap).step s.unread .tryPop (.popped none) =
          some s.unread := by
        rw [hempty]
        rfl
      refine (object_complete hinvoked heffect).trans (congrArg some ?_)
      exact s.object_reader rfl rfl rfl
  | popRead h => exact s.object_eq rfl rfl (congrArg PopPc.status h).symm
  | @popStore head element h =>
    have hinvoked : s.object.status .reader = .invoked .tryPop := congrArg PopPc.status h
    have hhead := (data_of_reachable ha hs hL).unread_eq h
    have hunread : s.pushed.drop (s.popped ++ [element]).length = s.unread.drop 1 := by
      rw [List.length_append, List.length_singleton, ← List.drop_drop]
      rfl
    have heffect : (lockFreeQueue T cap).step s.unread .tryPop (.popped s.consumer.element) =
        some (s.unread.drop 1) := by
      rw [hhead, h]
      exact if_pos rfl
    refine (object_complete hinvoked heffect).trans (congrArg some ?_)
    exact s.object_reader rfl rfl hunread

/-- The runs of the ring while the count of pushes lies in `L`. -/
def systemWithin (a : Arith κ) (mBuffer : ℕ → T) (L : LowerSet ℕ)
    [DecidablePred fun n => n ∈ L] : System (Threads κ T) (Step T) :=
  (a.system mBuffer).restrict fun s _ => s.pushed.length ∈ L

/-- **The ring is the atomic queue**, to its two threads. -/
def linearization (ha : a.Faithful cap L) (mBuffer : ℕ → T) [DecidablePred fun n => n ∈ L] :
    System.Simulation (a.systemWithin mBuffer L) ((lockFreeQueue T cap).object Role).bursts where
  abs := Threads.object
  label := Threads.label
  init := congrArg (Object.mk []) (funext fun role => by cases role <;> rfl)
  silent {s t e} hs hst he := by
    obtain ⟨hL, hst⟩ := System.restrict_step.1 hst
    have hmoves := object_moves ha hs.of_restrict hL hst
    rwa [he] at hmoves
  visible {s t e d} hs hst he := by
    obtain ⟨hL, hst⟩ := System.restrict_step.1 hst
    have hmoves := object_moves ha hs.of_restrict hL hst
    rwa [he] at hmoves

/-- **A ring with faithful counters is linearizable**, in the runs with no more pushes than the
counters are faithful for. -/
theorem linearizable_of_faithful (ha : a.Faithful cap L) {es : List (Step T)}
    (hrun : (a.system mBuffer).run (a.start mBuffer) es = some t) (hL : t.pushed.length ∈ L) :
    Linearizable (lockFreeQueue T cap)
      ((a.system mBuffer).record Threads.see (a.start mBuffer) es) := by
  classical
  have hwithin : (a.systemWithin mBuffer L).run (a.start mBuffer) es = some t :=
    System.run_restrict (fun hst => L.lower (pushed_length_le (moves_of_step hst))) hrun hL
  rw [← System.record_restrict _ hwithin]
  exact linearizable_of_simulation (linearization ha mBuffer) Threads.label_action hwithin

end Arith

/-- **`RingBufferSPSCLockFree` is linearizable**, for every capacity and every schedule, while fewer
than `2 ^ 31` pushes have succeeded. -/
theorem RingBufferSPSCLockFree.modulo_linearizable [DecidableEq T] {mCapacity : SizeT}
    (hcap : 0 < mCapacity.toNat) {mBuffer : ℕ → T} {es : List (Step T)} {t : Threads CInt T}
    (hrun : ((arith mCapacity).system mBuffer).run ((arith mCapacity).start mBuffer) es = some t)
    (hpushed : t.pushed.length < 2 ^ 31) :
    Linearizable (lockFreeQueue T mCapacity.toNat)
      (((arith mCapacity).system mBuffer).record Threads.see
        ((arith mCapacity).start mBuffer) es) :=
  Arith.linearizable_of_faithful (faithful_of_lt hcap) hrun hpushed

/-- A pop that overlaps a push finds the ring of one slot empty, and a second push finds it full. -/
theorem RingBufferSPSCLockFree.modulo_linearizable_one :
    Linearizable (lockFreeQueue ℕ (1 : SizeT).toNat)
      ([.invoke .reader .tryPop, .invoke .writer (.tryPush 7), .respond .reader (.popped none),
        .respond .writer (.pushed true), .invoke .writer (.tryPush 8),
        .respond .writer (.pushed false), .invoke .reader .tryPop,
        .respond .reader (.popped (some 7))] :
        List (Action Role (Arith.Call ℕ) (Response ℕ))) := by
  let es : List (Step ℕ) :=
    [.popLoad, .pushLoad 7, .pushTest true, .popTest false, .pushWrite, .pushStore, .pushLoad 8,
      .pushTest false, .popLoad, .popTest true, .popRead, .popStore]
  have hseen : ((arith 1).system fun _ => 0).record Threads.see ((arith 1).start fun _ => 0) es =
      [.invoke .reader .tryPop, .invoke .writer (.tryPush 7), .respond .reader (.popped none),
        .respond .writer (.pushed true), .invoke .writer (.tryPush 8),
        .respond .writer (.pushed false), .invoke .reader .tryPop,
        .respond .reader (.popped (some 7))] := by decide
  have hrun : (((arith 1).system fun _ => 0).run ((arith 1).start fun _ => 0) es).any
      (fun t => t.pushed.length < 2 ^ 31) = true := by decide
  obtain ⟨t, ht, hpushed⟩ := (Option.any_eq_true _ _).1 hrun
  exact hseen ▸ modulo_linearizable (by decide) ht (of_decide_eq_true hpushed)

/-- **`RingBufferSPSCLockFree2` is linearizable**, for every size up to `2 ^ 31`, every schedule and
runs of any length. -/
theorem RingBufferSPSCLockFree2.bitmask_linearizable [DecidableEq T] {capacity : SizeT}
    (hcap : (mMask capacity).toNat + 1 ≤ 2 ^ 31) {mBuffer : ℕ → T} {es : List (Step T)}
    {t : Threads CUnsigned T}
    (hrun : ((arith capacity).system mBuffer).run ((arith capacity).start mBuffer) es = some t) :
    Linearizable (lockFreeQueue T ((mMask capacity).toNat + 1))
      (((arith capacity).system mBuffer).record Threads.see ((arith capacity).start mBuffer) es) :=
  Arith.linearizable_of_faithful (faithful hcap) hrun trivial

/-- On a ring of two slots the pop that overlaps the second push takes the first value. -/
theorem RingBufferSPSCLockFree2.bitmask_linearizable_two :
    Linearizable (lockFreeQueue ℕ ((mMask 1).toNat + 1))
      ([.invoke .writer (.tryPush 7), .respond .writer (.pushed true),
        .invoke .writer (.tryPush 8), .invoke .reader .tryPop,
        .respond .reader (.popped (some 7)), .respond .writer (.pushed true)] :
        List (Action Role (Arith.Call ℕ) (Response ℕ))) := by
  let es : List (Step ℕ) :=
    [.pushLoad 7, .pushTest true, .pushWrite, .pushStore, .pushLoad 8, .popLoad, .popTest true,
      .pushTest true, .popRead, .popStore, .pushWrite, .pushStore]
  have hseen : ((arith 1).system fun _ => 0).record Threads.see ((arith 1).start fun _ => 0) es =
      [.invoke .writer (.tryPush 7), .respond .writer (.pushed true),
        .invoke .writer (.tryPush 8), .invoke .reader .tryPop,
        .respond .reader (.popped (some 7)), .respond .writer (.pushed true)] := by
    decide +kernel
  obtain ⟨t, ht⟩ := Option.isSome_iff_exists.1
    (by decide +kernel : (((arith 1).system fun _ => 0).run ((arith 1).start fun _ => 0)
      es).isSome = true)
  exact hseen ▸ bitmask_linearizable (by decide +kernel) ht

end ThreadTests
