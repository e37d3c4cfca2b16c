import ThreadTests.Ring.Linearizable
import ThreadTests.Ring.WeakSafe

/-!
# The lock-free rings are linearizable on a release/acquire memory, but for the refusals

A call that succeeds takes effect at its store, with old loads as without, and a test that takes an
old message refuses its call for nothing. To its two threads the ring is a bounded queue that may
refuse a call (`Arith.weak_linearizable`). It is not the queue that refuses only on full and on
empty, since a pop that is called after a push has returned can be refused
(`Arith.exists_not_linearizable`).
-/

namespace ThreadTests

open ReleaseAcquire

universe u v

variable {κ : Type u} {T : Type v}

/-- The bounded queue that may refuse a call for nothing. -/
def hesitantQueue (T : Type v) [DecidableEq T] (cap : ℕ) :
    Spec (List T) (Arith.Call T) (Response T) where
  init := []
  step
    | waiting, .tryPush val, .pushed true =>
      if waiting.length < cap then some (waiting ++ [val]) else none
    | waiting, .tryPush _, .pushed false | waiting, .tryPop, .popped none => some waiting
    | x :: waiting, .tryPop, .popped (some element) => if x = element then some waiting else none
    | _, _, _ => none

/-- It does what the queue does that refuses only when it must. -/
theorem hesitantQueue_of_lockFreeQueue [DecidableEq T] {cap : ℕ} {waiting waiting' : List T}
    {call : Arith.Call T} {res : Response T}
    (h : (lockFreeQueue T cap).step waiting call res = some waiting') :
    (hesitantQueue T cap).step waiting call res = some waiting' := by
  cases call with
  | tryPush val =>
    cases res with
    | pushed ok =>
      cases ok with
      | true => exact h
      | false => exact congrArg some (Option.some.inj (Option.ite_none_right_eq_some.1 h).2)
    | popped element => cases h
  | tryPop =>
    cases res with
    | pushed ok => cases waiting <;> cases h
    | popped element =>
      cases element with
      | some x => cases waiting <;> exact h
      | none =>
        cases waiting with
        | nil => exact h
        | cons x waiting => cases h

/-- What the two threads see. -/
def WeakThreads.see (s : WeakThreads κ T) :
    WeakStep T → List (Action Role (Arith.Call T) (Response T))
  | .pushLoad val _ => [.invoke .writer (.tryPush val)]
  | .pushTest _ false => [.respond .writer (.pushed false)]
  | .pushStore => [.respond .writer (.pushed true)]
  | .popLoad _ => [.invoke .reader .tryPop]
  | .popTest _ false => [.respond .reader (.popped none)]
  | .popStore => [.respond .reader (.popped s.consumer.element)]
  | .pushTest _ true | .pushWrite | .popTest _ true | .popRead => []

namespace Arith

theorem see_current (a : Arith κ) (s : WeakThreads κ T) (e : WeakStep T) :
    (a.current s).see e.forget = s.see e := by
  cases e with
  | pushTest k ok | popTest k ok => cases ok <;> rfl
  | _ => rfl

variable [DecidableEq κ] [DecidableEq T] {a : Arith κ} {cap : ℕ} {L : LowerSet ℕ} {mBuffer : ℕ → T}
  {s t : WeakThreads κ T} {e : WeakStep T}

omit [DecidableEq κ] in
/-- A call that is refused completes, whatever the queue holds. -/
theorem Refused.object_step {s t : Threads κ T} {e : Step T} (h : Refused s e t) (cap : ℕ) :
    ∃ es, s.label e = some es ∧
      ((hesitantQueue T cap).object Role).bursts.step s.object es = some t.object := by
  cases h with
  | @push val tail next h he ht =>
    subst he ht
    have hinvoked : s.object.status .writer = .invoked (.tryPush val) := congrArg PushPc.status h
    have heffect : (hesitantQueue T cap).step s.unread (.tryPush val) (.pushed false) =
        some s.unread := rfl
    refine ⟨_, rfl, (object_complete hinvoked heffect).trans (congrArg some ?_)⟩
    exact s.object_writer rfl rfl rfl
  | @pop head h he ht =>
    subst he ht
    have hinvoked : s.object.status .reader = .invoked .tryPop := congrArg PopPc.status h
    have heffect : (hesitantQueue T cap).step s.unread .tryPop (.popped none) =
        some s.unread := by
      cases s.unread <;> rfl
    refine ⟨_, rfl, (object_complete hinvoked heffect).trans (congrArg some ?_)⟩
    exact s.object_reader rfl rfl rfl

/-- A step is the steps of the queue that its label says on the current counters, or none. -/
theorem weak_object_moves (ha : a.Faithful cap L) (hs : (a.weakSystem mBuffer).Reachable s)
    (hL : s.pushed.length ∈ L) (hst : a.weakStep s e = some t) :
    match (a.current s).label e.forget with
    | none => (a.current t).object = (a.current s).object
    | some es =>
      ((hesitantQueue T cap).object Role).bursts.step (a.current s).object es =
        some (a.current t).object := by
  rcases current_cases ha hs hL (weakMoves_of_step hst) with hmoves | ⟨-, hrefused⟩
  · have hobject := object_moves ha (current_reachable ha hs hL) hL hmoves.step_eq
    cases hlabel : (a.current s).label e.forget with
    | none => rwa [hlabel] at hobject
    | some es =>
      rw [hlabel] at hobject
      exact System.bursts_mono (object_mono hesitantQueue_of_lockFreeQueue) hobject
  · obtain ⟨es, hlabel, hstep⟩ := hrefused.object_step cap
    rwa [hlabel]

/-- The runs of the ring while the count of pushes lies in `L`. -/
def weakSystemWithin (a : Arith κ) (mBuffer : ℕ → T) (L : LowerSet ℕ)
    [DecidablePred fun n => n ∈ L] : System (WeakThreads κ T) (WeakStep T) :=
  (a.weakSystem mBuffer).restrict fun s _ => s.pushed.length ∈ L

/-- **The ring is the atomic queue that may refuse**, to its two threads. -/
def weakLinearization (ha : a.Faithful cap L) (mBuffer : ℕ → T) [DecidablePred fun n => n ∈ L] :
    System.Simulation (a.weakSystemWithin mBuffer L)
      ((hesitantQueue T cap).object Role).bursts where
  abs s := (a.current s).object
  label s e := (a.current s).label e.forget
  init := congrArg (Object.mk []) (funext fun role => by cases role <;> rfl)
  silent {s t e} hs hst he := by
    obtain ⟨hL, hst⟩ := System.restrict_step.1 hst
    have hmoves := weak_object_moves ha hs.of_restrict hL hst
    rwa [he] at hmoves
  visible {s t e d} hs hst he := by
    obtain ⟨hL, hst⟩ := System.restrict_step.1 hst
    have hmoves := weak_object_moves ha hs.of_restrict hL hst
    rwa [he] at hmoves

omit [DecidableEq κ] [DecidableEq T] in
theorem weak_label_action (a : Arith κ) (s : WeakThreads κ T) (e : WeakStep T) :
    (((a.current s).label e.forget).getD []).filterMap ObjectEvent.action = s.see e :=
  ((a.current s).label_action e.forget).trans (a.see_current s e)

/-- **A ring on a release/acquire memory is linearizable, but for its refusals**, in the runs with
no more pushes than its counters are faithful for. -/
theorem weak_linearizable (ha : a.Faithful cap L) {es : List (WeakStep T)}
    (hrun : (a.weakSystem mBuffer).run (a.weakStart mBuffer) es = some t)
    (hL : t.pushed.length ∈ L) :
    Linearizable (hesitantQueue T cap)
      ((a.weakSystem mBuffer).record WeakThreads.see (a.weakStart mBuffer) es) := by
  classical
  have hwithin : (a.weakSystemWithin mBuffer L).run (a.weakStart mBuffer) es = some t :=
    System.run_restrict
      (fun hst => L.lower (weak_pushed_length_le (weakMoves_of_step hst))) hrun hL
  rw [← System.record_restrict _ hwithin]
  exact linearizable_of_simulation (weakLinearization ha mBuffer) a.weak_label_action hwithin

/-- The pop after the push is refused for nothing, and the next one takes the value. -/
theorem weak_linearizable_one :
    Linearizable (hesitantQueue ℕ (1 : SizeT).toNat)
      ([.invoke .writer (.tryPush 7), .respond .writer (.pushed true), .invoke .reader .tryPop,
        .respond .reader (.popped none), .invoke .reader .tryPop,
        .respond .reader (.popped (some 7))] :
        List (Action Role (Arith.Call ℕ) (Response ℕ))) := by
  let a := RingBufferSPSCLockFree.arith 1
  let es : List (WeakStep ℕ) :=
    [.pushLoad 7 0, .pushTest 0 true, .pushWrite, .pushStore, .popLoad 0, .popTest 0 false,
      .popLoad 0, .popTest 1 true, .popRead, .popStore]
  have hseen : (a.weakSystem fun _ => 0).record WeakThreads.see (a.weakStart fun _ => 0) es =
      [.invoke .writer (.tryPush 7), .respond .writer (.pushed true), .invoke .reader .tryPop,
        .respond .reader (.popped none), .invoke .reader .tryPop,
        .respond .reader (.popped (some 7))] := by decide
  have hrun : ((a.weakSystem fun _ => 0).run (a.weakStart fun _ => 0) es).any
      (fun t => t.pushed.length < 2 ^ 31) = true := by decide
  obtain ⟨t, ht, hp⟩ := (Option.any_eq_true _ _).1 hrun
  have hpushed : t.pushed.length < 2 ^ 31 := of_decide_eq_true hp
  exact hseen ▸ weak_linearizable (RingBufferSPSCLockFree.faithful_of_lt (by decide)) ht hpushed

end Arith

/-! ## A refusal that is not one of a queue -/

/-- A pop is called after a push has returned, and is refused. -/
def refusedAfter (val : T) : List (Action Role (Arith.Call T) (Response T)) :=
  [.invoke .writer (.tryPush val), .respond .writer (.pushed true), .invoke .reader .tryPop,
    .respond .reader (.popped none)]

/-- The calls of the history. -/
theorem refusedAfter_invoked {val : T} {o : Operation Role (Arith.Call T) (Response T)}
    (h : (refusedAfter val)[o.invoked]? = some (.invoke o.thread o.op)) :
    o = ⟨.writer, .tryPush val, o.res, 0⟩ ∨ o = ⟨.reader, .tryPop, o.res, 2⟩ := by
  obtain ⟨i, op, res, k⟩ := o
  match k, h with
  | 0, h =>
    cases h
    exact .inl rfl
  | 2, h =>
    cases h
    exact .inr rfl
  | 1, h | 3, h | k + 4, h => cases h

/-- No order of the two calls explains it: the push stands before the pop, which finds its value. -/
theorem not_linearizable_refusedAfter [DecidableEq T] (cap : ℕ) (val : T) :
    ¬ Linearizable (lockFreeQueue T cap) (refusedAfter val) := by
  rintro ⟨l, hl⟩
  obtain ⟨push, hpush, hpushed⟩ := hl.complete 1 .writer (.pushed true) rfl
  obtain ⟨pop, hpop, hpopped⟩ := hl.complete 3 .reader (.popped none) rfl
  obtain ⟨-, hpushRes⟩ := Action.respond.inj (Option.some.inj hpushed.respond)
  obtain ⟨-, hpopRes⟩ := Action.respond.inj (Option.some.inj hpopped.respond)
  have hpushEq : push = ⟨.writer, .tryPush val, .pushed true, 0⟩ := by
    rw [hpushRes]
    refine (refusedAfter_invoked (hl.invoked push hpush)).resolve_right fun heq => ?_
    rw [heq] at hpushed
    cases hpushed.respond
  have hpopEq : pop = ⟨.reader, .tryPop, .popped none, 2⟩ := by
    rw [hpopRes]
    refine (refusedAfter_invoked (hl.invoked pop hpop)).resolve_left fun heq => ?_
    rw [heq] at hpopped
    cases hpopped.respond
  obtain ⟨before, after, rfl⟩ := List.append_of_mem hpop
  obtain ⟨hnodup, -, hne⟩ := List.pairwise_append.1 hl.nodup
  have hmem : push ∈ before := hl.mem_before hpush hpushed (by rw [hpopEq]; exact Nat.le_succ 1)
  -- what stands before the pop is not the pop, so it is the push
  have hbefore : ∀ o ∈ before, o.invoked = 0 := by
    intro o ho
    rcases refusedAfter_invoked (hl.invoked o (List.mem_append_left _ ho)) with heq | heq
    · rw [heq]
    · refine absurd ?_ (hne o ho pop List.mem_cons_self)
      rw [heq, hpopEq]
  have hsingle : before = [push] := by
    cases before with
    | nil => cases hmem
    | cons x rest =>
      cases rest with
      | nil => rw [List.mem_singleton.1 hmem]
      | cons y rest =>
        refine absurd ?_ ((List.pairwise_cons.1 hnodup).1 y List.mem_cons_self)
        rw [hbefore x List.mem_cons_self, hbefore y (List.mem_cons_of_mem x List.mem_cons_self)]
  have hlegal := hl.legal
  rw [hsingle, hpushEq, hpopEq] at hlegal
  by_cases hcap : 0 < cap <;> simp [Spec.run, lockFreeQueue, hcap] at hlegal

namespace Arith

variable [DecidableEq κ] {a : Arith κ} {cap : ℕ} {L : LowerSet ℕ}

/-- The pop takes the message before that of the push. -/
def staleRefusal (val : T) : List (WeakStep T) :=
  [.pushLoad val 0, .pushTest 0 true, .pushWrite, .pushStore, .popLoad 0, .popTest 0 false]

theorem run_staleRefusal (hroom : a.room a.zero a.zero = true) (mBuffer : ℕ → T) (val : T) :
    ∃ t, t.pushed = [val] ∧
      (a.weakSystem mBuffer).run (a.weakStart mBuffer) (staleRefusal val) = some t ∧
        (a.weakSystem mBuffer).record WeakThreads.see (a.weakStart mBuffer) (staleRefusal val) =
          refusedAfter val := by
  let mem : Memory Party Counter κ ℕ T := .new (fun _ => a.zero) mBuffer
  let written := mem.write .producer (a.slot a.zero) val
  let stored := written.store .producer .mWrite (a.increment a.zero)
  have hwrite : mem.load .producer .mWrite 0 = some (a.zero, mem) := Memory.load_new ..
  have hread : mem.load .producer .mRead 0 = some (a.zero, mem) := Memory.load_new ..
  -- the consumer knows of nothing that the producer has done
  have hload : ∀ c, stored.load .consumer c 0 = some (a.zero, stored) := by
    intro c
    refine Memory.load_of_knows ⟨a.zero, fun _ => 0⟩ ?_ ?_ fun _ => Nat.zero_le _
    · cases c <;> rfl
    · exact Memory.visible_store (by decide) (Nat.zero_le _) fun _ hlater =>
        absurd hlater List.not_mem_nil
  let start : WeakThreads κ T := a.weakStart mBuffer
  let loaded : WeakThreads κ T :=
    { start with producer := .loaded val a.zero (a.increment a.zero) }
  let passed : WeakThreads κ T :=
    { start with producer := .passed val a.zero (a.increment a.zero) }
  let copied : WeakThreads κ T :=
    { start with memory := written, producer := .written val a.zero (a.increment a.zero) }
  let published : WeakThreads κ T :=
    { start with memory := stored, pushed := [val], slots := [a.slot a.zero] }
  have hpushLoad : a.WeakMoves start (.pushLoad val 0) loaded := .pushLoad rfl hwrite
  have hpushTest : a.WeakMoves loaded (.pushTest 0 true) passed := .pushTest rfl hread hroom
  have hpushWrite : a.WeakMoves passed .pushWrite copied := .pushWrite rfl
  have hpushStore : a.WeakMoves copied .pushStore published := .pushStore rfl
  have hpopLoad : a.WeakMoves published (.popLoad 0)
      { published with consumer := .loaded a.zero } := .popLoad rfl (hload .mRead)
  have hpopTest : a.WeakMoves { published with consumer := .loaded a.zero } (.popTest 0 false)
      published := .popTest rfl (hload .mWrite) (decide_eq_false fun hne => hne rfl)
  refine ⟨published, rfl, ?_⟩
  apply System.run_record_cons hpushLoad.step_eq
  apply System.run_record_cons hpushTest.step_eq
  apply System.run_record_cons hpushWrite.step_eq
  apply System.run_record_cons hpushStore.step_eq
  apply System.run_record_cons hpopLoad.step_eq
  apply System.run_record_cons hpopTest.step_eq
  exact ⟨rfl, rfl⟩

/-- **No ring is the queue that refuses only on full and on empty**, with these memory orders: a pop
that is called after a push has returned may be refused. -/
theorem exists_not_linearizable [DecidableEq T] (ha : a.Faithful cap L) (hcap : 0 < cap)
    (h1 : 1 ∈ L) (mBuffer : ℕ → T) (val : T) :
    ∃ es t, (a.weakSystem mBuffer).run (a.weakStart mBuffer) es = some t ∧ t.pushed.length ∈ L ∧
      ¬ Linearizable (lockFreeQueue T cap)
        ((a.weakSystem mBuffer).record WeakThreads.see (a.weakStart mBuffer) es) := by
  have hroom : a.room (a.count 0) (a.count 0) = true :=
    ha.tests.room_of_lt (Nat.le_refl 0) (L.lower (Nat.zero_le 1) h1) (Nat.lt_add_left 0 hcap)
  obtain ⟨t, hpushed, hrun, hseen⟩ := run_staleRefusal hroom mBuffer val
  refine ⟨staleRefusal val, t, hrun, ?_, ?_⟩
  · rw [hpushed]
    exact h1
  · rw [hseen]
    exact not_linearizable_refusedAfter cap val

/-- A ring of two slots with one value in it. -/
theorem exists_not_linearizable_two :
    ∃ es t, ((RingBufferSPSCLockFree2.arith 1).weakSystem fun _ => 0).run
        ((RingBufferSPSCLockFree2.arith 1).weakStart fun _ => 0) es = some t ∧
      t.pushed.length ∈ (⊤ : LowerSet ℕ) ∧
        ¬ Linearizable (lockFreeQueue ℕ ((RingBufferSPSCLockFree2.mMask 1).toNat + 1))
          (((RingBufferSPSCLockFree2.arith 1).weakSystem fun _ => 0).record WeakThreads.see
            ((RingBufferSPSCLockFree2.arith 1).weakStart fun _ => 0) es) :=
  exists_not_linearizable (RingBufferSPSCLockFree2.faithful (by decide +kernel)) (Nat.succ_pos _)
    trivial (fun _ => 0) 7

end Arith

end ThreadTests
